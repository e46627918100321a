import Nlos.Kernel.Machine

/-!
# The counts are the references

What `nrights`, `nrecv` and `nports` count, in the terms of the tables: used slots of rights tables,
entries of queued messages, armed timers and references of the kernel itself. The counts are exact
as long as no reference is left without a holder. A lua error out of a half-done send or receive
leaves some, and so does the wipe of a proc record that still has rights in it.
-/

namespace Nlos

open Tally Kernel

namespace Kernel

variable {k : Kernel}

/-! ## The counts -/

/-- The used slots that name `p`, over all procs. -/
def rightsTo (k : Kernel) (p : PortRef) : Nat :=
  (k.procv.map fun pr => pr.rights.slots.countP fun r => r.used && r.port == p).sum

/-- The used receive-right slots that name `p`, over all procs. -/
def recvRightsTo (k : Kernel) (p : PortRef) : Nat :=
  (k.procv.map fun pr => pr.rights.slots.countP fun r => r.used && r.recv && r.port == p).sum

/-- The entries of queued messages that name slot `i`. -/
def inflightTo (k : Kernel) (i : Nat) : Nat :=
  (k.portv.map fun o => o.elim 0 fun q => (q.queue.map fun m => m.refs.countP (·.idx == i)).sum).sum

/-- The same, of those whose `refrecv` flag is set. -/
def inflightRecvTo (k : Kernel) (i : Nat) : Nat :=
  (k.portv.map fun o => o.elim 0 fun q =>
    (q.queue.map fun m => m.refs.countP fun r => r.recv && r.idx == i).sum).sum

def timersTo (k : Kernel) (p : PortRef) : Nat := k.timers.countP fun o => o.any (·.port == p)

/-- The references the kernel itself holds to `p`. -/
def krefsTo (k : Kernel) (p : PortRef) : Nat := k.krefs.countP (· == p)

structure RefCounts (k : Kernel) : Prop where
  nrights : ∀ p q, k.portOf p = some q →
    q.nrights = (k.rightsTo p + k.inflightTo p.idx + (k.krefsTo p + k.timersTo p) : Nat)
  nrecv : ∀ p q, k.portOf p = some q →
    q.nrecv = (k.recvRightsTo p + k.inflightRecvTo p.idx : Nat)
  nports : ∀ (i : Nat) (pr : KProc), k.procv[i]? = some pr →
    pr.nports = pr.rights.slots.countP fun r => r.used && r.recv

/-! ## The sums behind them -/

variable {p p' : PortRef} {b : Bool} {v : Ref → Nat}

/-- No reference outside the queues points at another port of the slot. -/
theorem Counted.exact {q : KPort} (hc : k.Counted []) (hq : k.portOf p = some q) :
    q.nrights = k.total (toPort p.idx) [] ∧ q.nrecv = k.total (recvTo p.idx) [] ∧
      held (strayTo p.idx p.gen) k = 0 := by
  obtain ⟨hat, hgen⟩ := portOf_eq_some.mp hq
  have h := hc p.idx
  unfold CountedAt at h
  rw [hat] at h
  refine ⟨h.1, h.2.1, ?_⟩
  have h3 := h.2.2
  rw [hgen] at h3
  unfold total at h3
  omega

/-- A pointer weighs one if it is to `p`, unless it strays. -/
theorem toPort_eq (hs : strayTo p.idx p.gen (p'.ref b) = 0) :
    toPort p.idx (p'.ref b) = if p' == p then 1 else 0 := by
  unfold strayTo PortRef.ref at hs
  unfold toPort PortRef.ref
  obtain ⟨i, g⟩ := p
  obtain ⟨i', g'⟩ := p'
  by_cases hi : i' = i
  · subst hi
    by_cases hg : g' = g
    · subst hg
      simp
    · simp [hg] at hs
  · simp [hi]

theorem recvTo_eq (hs : strayTo p.idx p.gen (p'.ref b) = 0) :
    recvTo p.idx (p'.ref b) = if b && p' == p then 1 else 0 := by
  have h := toPort_eq hs
  unfold toPort PortRef.ref at h
  unfold recvTo PortRef.ref
  cases b with
  | false => simp
  | true => simpa using h

/-- A weight that agrees with a test on every used slot counts the slots that pass. -/
theorem slotTotal_eq (test : Right → Bool)
    (h : ∀ pr ∈ k.procv, ∀ r ∈ pr.rights.slots, r.used = true →
      v (r.port.ref r.recv) = if test r then 1 else 0) :
    slotTotal v k =
    (k.procv.map fun pr => pr.rights.slots.countP fun r => r.used && test r).sum := by
  refine tally_congr fun pr hpr => ?_
  rw [countP_eq_tally]
  refine tally_congr fun r hr => ?_
  unfold slotWeight
  cases hu : r.used with
  | false => rfl
  | true =>
    rw [if_pos rfl, h pr hpr r hr hu]
    rfl

theorem queued_eq (test : InRef → Bool) (h : ∀ r, v (InRef.ref r) = if test r then 1 else 0) :
    queued v k = (k.portv.map fun o => o.elim 0 fun q =>
      (q.queue.map fun m => m.refs.countP test).sum).sum := by
  refine tally_congr fun o _ => ?_
  cases o with
  | none => rfl
  | some q =>
    refine tally_congr fun m _ => ?_
    rw [countP_eq_tally]
    exact tally_congr fun r _ => h r

theorem refCounts (hc : k.Counted []) (hn : k.PortsCounted) (hl : k.lost = []) : k.RefCounts := by
  have parts : ∀ {p q}, k.portOf p = some q →
      (∀ pr ∈ k.procv, ∀ r ∈ pr.rights.slots, r.used = true →
        strayTo p.idx p.gen (r.port.ref r.recv) = 0) ∧
      (∀ p' ∈ k.krefs, strayTo p.idx p.gen (p'.ref false) = 0) ∧
      ∀ o ∈ k.timers, timerWeight (strayTo p.idx p.gen) o = 0 := by
    intro p q hq
    have h0 := (hc.exact hq).2.2
    unfold held at h0
    have hslots : slotTotal (strayTo p.idx p.gen) k = 0 := by omega
    refine ⟨fun pr hpr r hr hu => ?_, fun p' hp' => ?_, fun o ho => ?_⟩
    · have h1 := tally_eq_zero.mp (tally_eq_zero.mp hslots pr hpr) r hr
      rwa [RightTable.slotWeight_used hu] at h1
    · exact tally_eq_zero.mp
        (show tally (fun p' => strayTo p.idx p.gen (PortRef.ref p' false)) k.krefs
        = 0 by omega) p' hp'
    · exact tally_eq_zero.mp
        (show tally (timerWeight (strayTo p.idx p.gen)) k.timers = 0 by omega) o ho
  refine ⟨fun p q hq => ?_, fun p q hq => ?_, fun i pr hi => ?_⟩
  · obtain ⟨hslots, hkrefs, htimers⟩ := parts hq
    rw [(hc.exact hq).1]
    have h1 : slotTotal (toPort p.idx) k = k.rightsTo p :=
      slotTotal_eq (fun r => r.port == p) fun pr hpr r hr hu => toPort_eq (hslots pr hpr r hr hu)
    have h2 : queued (toPort p.idx) k = k.inflightTo p.idx :=
      queued_eq (·.idx == p.idx) fun r => by
        by_cases hi : r.idx = p.idx <;> simp [toPort, InRef.ref, hi]
    have h3 : tally (fun p' => toPort p.idx (PortRef.ref p' false)) k.krefs = k.krefsTo p := by
      unfold krefsTo
      rw [countP_eq_tally]
      exact tally_congr fun p' hp' => toPort_eq (hkrefs p' hp')
    have h4 : tally (timerWeight (toPort p.idx)) k.timers = k.timersTo p := by
      unfold timersTo
      rw [countP_eq_tally]
      refine tally_congr fun o ho => ?_
      cases o with
      | none => rfl
      | some t => exact toPort_eq (htimers (some t) ho)
    unfold total held
    rw [hl, h1, h2, h3, h4]
    simp only [refsWeight, tally_nil]
    omega
  · obtain ⟨hslots, -, -⟩ := parts hq
    rw [(hc.exact hq).2.1]
    have h1 : slotTotal (recvTo p.idx) k = k.recvRightsTo p := by
      rw [slotTotal_eq (fun r => r.recv && r.port == p)
        fun pr hpr r hr hu => recvTo_eq (hslots pr hpr r hr hu)]
      unfold recvRightsTo
      simp only [Bool.and_assoc]
    have h2 : queued (recvTo p.idx) k = k.inflightRecvTo p.idx :=
      queued_eq (fun r => r.recv && r.idx == p.idx) fun r => by
        by_cases hi : r.idx = p.idx <;> simp [recvTo, InRef.ref, hi]
    -- the kernel and the timers hold no receive rights
    have h3 : tally (fun p' => recvTo p.idx (PortRef.ref p' false)) k.krefs = 0 :=
      tally_eq_zero.mpr fun p' _ => recvTo_ptr_false p.idx p'
    have h4 : tally (timerWeight (recvTo p.idx)) k.timers = 0 :=
      tally_eq_zero.mpr fun o _ => by
        cases o with
        | none => rfl
        | some t => exact recvTo_ptr_false p.idx t.port
    unfold total held
    rw [hl, h1, h2, h3, h4]
    simp only [refsWeight, tally_nil]
    omega
  · rw [hn i pr hi, countP_eq_tally]
    refine tally_congr fun r _ => ?_
    unfold slotWeight recvRight PortRef.ref
    cases r.used <;> rfl

end Kernel

/-! ## Runs -/

/-- The record `proc_new` takes over holds no right. -/
def Kernel.BlankSlot (k : Kernel) : Prop := ∀ i pr, k.freeSlot = some i → k.procv[i]? = some pr →
  ∀ r ∈ pr.rights.slots, r.used = false

/-- The operation leaves every reference with a holder: what is sent, also by `sys.call` or as the
argument of `sys.spawn`, meets no buffer that was given away, a receive, also one of `sys.alt`, is
not cut short by a lua error, and the record `proc_new` takes over holds no right. -/
def Op.Keeps (k : Kernel) : Op → Prop
  | .send env _ v => ¬MeetsGone env (maxDepth + 1) (env.start k v) v
  | .call env sh v rh =>
    ¬(CallSends env k sh rh ∧ MeetsGone env (maxDepth + 1) (env.start k.ipclockEnter v) v)
  | .tryrecv env h | .callK env _ h => ∀ p, k.Names env.proc h p → ¬RunsOutAt env k p
  | .alt env _ _ cases | .altK env _ cases => ¬AnyRunsOut env k cases
  | .spawn env arg => k.BlankSlot ∧
      ∀ v, arg = some v → ¬MeetsGone env.send (maxDepth + 1) ⟨k.ipclockEnter, .zero, 0⟩ v
  | .spawnInit _ => k.BlankSlot
  | _ => True

theorem tableRefs_nil {t : RightTable} (h : ∀ r ∈ t.slots, r.used = false) : tableRefs t = [] := by
  unfold tableRefs
  rw [List.filterMap_eq_nil_iff]
  intro r hr
  rw [h r hr]
  rfl

theorem Op.Keeps.scope {k : Kernel} {op : Op} (h : op.Keeps k) :
    (∀ refs, ¬(op.scope k).loses refs) ∧ ∀ i refs, (op.scope k).wipes i refs → refs = [] := by
  have bears : k.BlankSlot → ∀ i refs, k.bears.wipes i refs → refs = [] := by
    rintro hfree i refs ⟨hf, pr, hpr, rfl⟩
    exact tableRefs_nil (hfree i pr hf hpr)
  cases op with
  | send env hd v | call env sh v rh | alt env wake ok cases | altK env wake cases =>
    exact ⟨fun _ => h, nofun⟩
  | tryrecv env hd | callK env ok hd => exact ⟨fun _ ⟨p, hp, ho⟩ => h p hp ho, nofun⟩
  | spawn env arg => exact ⟨fun _ ⟨v, hv, hm⟩ => h.2 v hv hm, bears h.1⟩
  | spawnInit env => exact ⟨nofun, bears h⟩
  | _ => exact ⟨nofun, nofun⟩

theorem run_lost {k : Kernel} (h : Run (fun k op => op.Keeps k) k) : k.lost = [] := by
  refine h.invariant (I := fun k => k.lost = []) rfl fun hr hl hkeep hstep => ?_
  obtain ⟨hlose, hwipe⟩ := hkeep.scope
  exact (step_calls plain_nil hr.sane.counted hr.sane.roomy hstep).acts.lost
    (fun refs hs => absurd hs (hlose refs)) hwipe hl

/-- In every run whose operations keep their references, in every state between two of them,
`nrights`, `nrecv` and `nports` are the numbers of what they count. -/
theorem run_refCounts {k : Kernel} (h : Run (fun k op => op.Keeps k) k) : k.RefCounts :=
  refCounts h.sane.counted h.sane.nports (run_lost h)

/-- A sufficient check that an operation keeps its references. -/
def checkKeeps (k : Kernel) : Op → Bool
  | .send env _ v => decide ((serialize env (maxDepth + 1) v (env.start k v)).1 ≠ .error .raise)
  | .tryrecv env h =>
    match k.rightGet env.proc h with
    | none => true
    | some r =>
      match k.portPop r.port with
      | (none, _) => true
      | (some m, k) => decide ((msgToLua env k m).1 ≠ .error .raise)
  | .call _ _ _ _ | .callK _ _ _ | .alt _ _ _ _ | .altK _ _ _ | .spawn _ _ => false
  | .spawnInit _ => k.procv.all fun pr => pr.rights.slots.all fun r => !r.used
  | _ => true

theorem checkKeeps_keeps (k : Kernel) (op : Op) (h : checkKeeps k op = true) : op.Keeps k := by
  cases op with
  | send env hd v =>
    intro hm
    obtain ⟨s', hs⟩ := serialize_raise_iff.mpr hm
    exact of_decide_eq_true h (by rw [hs])
  | tryrecv env hd =>
    rintro p ⟨r, hr, rfl⟩ ⟨m, k', hpop, hout⟩
    unfold checkKeeps at h
    simp only [hr, hpop] at h
    exact of_decide_eq_true h (msgToLua_raise_iff.mpr hout)
  | call | callK | alt | altK | spawn => cases h
  | spawnInit env =>
    intro i pr _ hpr r hr
    have h1 := List.all_eq_true.mp (List.all_eq_true.mp h pr (List.mem_of_getElem? hpr)) r hr
    rwa [Bool.not_eq_true'] at h1
  | _ => trivial

/-- A right goes through a queue into another slot. -/
def passedAround : List Op :=
  [.spawnInit Sample.newEnv, Sample.newport 0, Sample.newport 0, .sendright true 0 1,
    Sample.sendRight 0 2 3, .close 0 3, Sample.tryrecv 0 2]

theorem passedAround_refCounts :
    ∃ k, runOps checkKeeps .boot passedAround = some k ∧ k.rightsTo ⟨1, 2⟩ = 2 ∧ k.RefCounts := by
  obtain ⟨k, hk, hr, hp⟩ := Run.of_ops (P := fun k => k.rightsTo ⟨1, 2⟩ == 2) (l := passedAround)
    checkKeeps_keeps (by decide)
  exact ⟨k, hk, beq_iff_eq.mp hp, run_refCounts hr⟩

def rightThenBuffer : LuaHeap where
  tables
    | 0 => [(.int 1, .table 1), (.int 2, .buf 0)]
    | 1 => [(.str rightKey, .int 1)]
    | _ => []
  nodup
    | 0 => by decide
    | 1 => by decide
    | _ + 2 => List.nodup_nil
  keys
    | 0 => by decide
    | 1 => by decide
    | _ + 2 => nofun
  vals
    | 0 => by decide
    | 1 => by decide
    | _ + 2 => nofun

/-- A buffer is given away, and then sent again behind a right. -/
def sentTwice : List Op :=
  [.spawnInit Sample.newEnv, Sample.newport 0, Sample.newBuf 0 100, Sample.sendBuf 0 1 0,
    .send (Sample.sendEnv 0 rightThenBuffer) 1 (.table 0)]

/-- The lua error out of the second send leaves the reference the walk had taken for the right: the
port counts two, and one slot names it. -/
theorem sentTwice_miscounts :
    ∃ k, runOps anyOp .boot sentTwice = some k ∧ Run (fun _ _ => True) k ∧ ¬k.RefCounts := by
  obtain ⟨k, hk, hr, hp⟩ :=
    Run.of_ops (l := sentTwice) (P := fun k => (k.portOf ⟨1, 2⟩).any fun q =>
    q.nrights == 2 && k.rightsTo ⟨1, 2⟩ == 1 && k.inflightTo 1 == 0 && k.krefsTo ⟨1, 2⟩ == 0 &&
      k.timersTo ⟨1, 2⟩ == 0) anyOp_true (by decide +kernel)
  refine ⟨k, hk, hr, fun hcounts => ?_⟩
  match hq : k.portOf ⟨1, 2⟩, hp with
  | some q, hp =>
    simp only [Option.any_some, Bool.and_eq_true, beq_iff_eq] at hp
    obtain ⟨⟨⟨⟨h1, h2⟩, h3⟩, h4⟩, h5⟩ := hp
    have h6 := hcounts.nrights _ _ hq
    rw [h1, h2, h3, h4, h5] at h6
    cases h6

/-- Whatever was run and lost, no reference dangles: a handle and an armed timer are to the port
they were made for, and what a queued message carries is to ports that are there. -/
theorem run_nothing_dangles (k : { k // Run (fun _ _ => True) k }) :
    (∀ i h r, k.1.rightGet i h = some r → ∃ q, k.1.portOf r.port = some q) ∧
    (∀ (j : Nat) t, k.1.timers[j]? = some (some t) → ∃ q, k.1.portOf t.port = some q) ∧
    ∀ i q, k.1.portAt i = some q → ∀ m ∈ q.queue, ∀ r ∈ m.refs, ∃ q',
      k.1.portAt r.idx = some q' := by
  have hc := k.2.sane.counted
  refine ⟨fun i h r hr => hc.slotAt_portOf (rightGet_some hr).1, fun j t => hc.timer_portOf, fun i q hq m hm r hr => ?_⟩
  refine hc.exists_port (Nat.pos_of_ne_zero fun h0 => ?_)
  -- a count of zero counts no reference
  have h1 : queued (toPort r.idx) k.1 = 0 :=
    (Nat.add_eq_zero_iff.mp (Nat.add_eq_zero_iff.mp h0).1).2
  have h2 :=
    tally_eq_zero.mp (tally_eq_zero.mp h1 _ (List.mem_of_getElem? (portAt_eq_some.mp hq))) m hm
  exact absurd ((toPort_entry r).symm.trans (tally_eq_zero.mp h2 r hr)) Nat.one_ne_zero

end Nlos
