import Nlos.Kernel.Machine

/-!
# No freed port is touched

Which runs touch a port after it was freed.
-/

namespace Nlos

open Kernel List

namespace Kernel

variable {k : Kernel} {S : Scope}

/-- Queued references lead to lower slots only, so they close no cycle. -/
def descends (k : Kernel) : Bool :=
  (List.range k.portv.length).all fun i =>
    (k.portAt i).all fun q => q.queue.all fun m => m.refs.all fun r => r.idx < i

theorem not_onCycle_of_descends (hd : k.descends = true) (i : Nat) : ¬k.OnCycle i := by
  have hedge : ∀ i j, k.Carries i j → j < i := by
    rintro i j ⟨q, hq, m, hm, r, hr, rfl⟩
    have hi : i < k.portv.length := by
      by_contra hle
      unfold portAt at hq
      rw [List.getElem?_eq_none (by omega)] at hq
      cases hq
    have h1 := all_eq_true.mp hd i (mem_range.mpr hi)
    rw [hq, Option.all_some] at h1
    exact of_decide_eq_true (all_eq_true.mp (all_eq_true.mp h1 m hm) r hr)
  have hpath : ∀ {i j}, Relation.TransGen k.Carries i j → j < i := by
    intro i j h
    induction h with
    | single h => exact hedge _ _ h
    | tail _ h ih => exact Nat.lt_trans (hedge _ _ h) ih
  exact fun h => Nat.lt_irrefl i (hpath h)

/-- A state with no wait record linked. -/
def quiet (k : Kernel) : Bool := k.sch.procs.all fun p => p.waiters.isEmpty

theorem waitersOf_of_quiet (hq : k.quiet = true) (i : Nat) : k.sch.waitersOf i = [] := by
  unfold Sched.waitersOf
  split
  · rfl
  next p hp => exact isEmpty_iff.mp (all_eq_true.mp hq p (mem_of_getElem? hp))

end Kernel

/-- A sufficient check that an operation cannot reach a freed port. -/
def checkClear (k : Kernel) (op : Op) : Bool :=
  k.descends && k.quiet && !op.parks &&
    match op with
    | .monitor _ _ _ | .finish _ _ => false
    | _ => true

theorem checkClear_clear (k : Kernel) (op : Op) (h : checkClear k op = true) :
    Clear (op.scope k) k := by
  unfold checkClear at h
  simp only [Bool.and_eq_true, Bool.not_eq_true'] at h
  obtain ⟨⟨⟨hd, hq⟩, hp⟩, hop⟩ := h
  refine ⟨fun x hx => absurd hx (not_onCycle_of_descends hd x), ?_, fun i p hpark => ?_, fun j hj => ?_⟩
  · intro i v hv
    rw [waitersOf_of_quiet hq] at hv
    cases hv
  · cases op <;> first | exact hpark.elim | cases hp
  · cases op <;> first | exact hj.elim | cases hop

/-- In every run whose operations are clear of the danger, each in the state in front of it, every
port that was read, woken or freed was in the table at that moment. -/
theorem run_noStale {k : Kernel} (h : Run (fun k op => Clear (op.scope k) k) k) : k.NoStale :=
  h.invariant nofun fun hr hs hclear hstep =>
    (step_calls plain_nil hr.sane.counted hr.sane.roomy hstep).noStale hclear plain_nil
      hr.sane.counted hs

/-- A right is passed through another port's queue, and everything is closed again. -/
def passedOn : List Op :=
  [.spawnInit Sample.newEnv, Sample.newport 0, Sample.newport 0, .sendright true 0 1,
    Sample.sendRight 0 2 3, .close 0 3, .close 0 2, .close 0 1]

theorem passedOn_noStale :
    ∃ k, runOps checkClear .boot passedOn = some k ∧ k.log ≠ [] ∧ k.NoStale := by
  obtain ⟨k, hk, hr, hp⟩ := Run.of_ops (P := fun k => !k.log.isEmpty) (l := passedOn)
    checkClear_clear (by decide)
  exact ⟨k, hk, by simpa using hp, run_noStale hr⟩

/-- A right to a port is sent to the port itself, and the others are closed. -/
def sentToItself : List Op :=
  [.spawnInit Sample.newEnv, Sample.newport 0, .sendright true 0 1, Sample.sendRight 0 1 2,
    .close 0 2, .close 0 1]

/-- `port_unref` of the last receive right flushes the queue, the flush frees the port, and the
freed port is woken. -/
theorem sentToItself_stale :
    ∃ k, runOps anyOp .boot sentToItself = some k ∧ Run (fun _ _ => True) k ∧ ¬k.NoStale := by
  obtain ⟨k, hk, hr, hp⟩ := Run.of_ops (P := fun k => k.log.any fun t => !t.live)
    (l := sentToItself) anyOp_true (by decide)
  refine ⟨k, hk, hr, fun hs => ?_⟩
  obtain ⟨t, ht, hl⟩ := any_eq_true.mp hp
  rw [hs t ht] at hl
  cases hl

end Nlos
