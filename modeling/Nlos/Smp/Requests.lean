import Nlos.Smp.Steps

/-!
# Kills and reaps left to a holder

A proc in another cpu's hands is not killed, broken or reaped there and then: the wish is written
into its record, for the cpu to find as it lets the proc go. `release_claim` does look.
`gc_idle_sweep` and `proc_heaps_release` take a proc in hand in the same way and let it go without
looking, so a wish left to one of them stays on a proc that nobody holds, for as long as it stays
parked.
-/

namespace Nlos.Smp

open Machine

/-- The cpu and the slot of a step that may leave a wish. -/
def Act.asks : Act → Option (Nat × Nat)
  | .kill me i | .spawnFailed me i | .breakMark me i | .reap me i => some (me, i)
  | .answer me .kill i | .answer me .reap i => some (me, i)
  | _ => none

/-- Where `proc_kill`, `proc_break` or `proc_reap` finds its proc in another cpu's hands, that cpu
is running it. -/
def Heeded (s : Machine) (a : Act) : Prop :=
  ∀ (me i : Nat) (r : Rec), a.asks = some (me, i) → s.procs[i]? = some r → r.elsewhere me = true →
    r.holder = .dispatch

theorem Kills.asks {a : Act} {me i : Nat} {old : List Task} (h : Kills a me i old) :
    a.asks = some (me, i) := by
  cases h <;> rfl

theorem Reaps.asks {a : Act} {me i : Nat} {old : List Task} (h : Reaps a me i old) :
    a.asks = some (me, i) := by
  cases h <;> rfl

/-- A wish is on a proc that a cpu runs, and on no other. -/
def Rec.Heard (r : Rec) : Prop :=
  r.killreq = true ∨ r.reapreq = true → r.oncpu ≠ 0 ∧ r.holder = .dispatch

/-- A record let go with no wish on it. -/
theorem heard_of_none {r : Rec} (hk : r.killreq = false) (hr : r.reapreq = false) : r.Heard := by
  intro h
  rw [hk, hr] at h
  simp at h

/-- Whoever holds a proc and is not running it finds no wish on it. -/
theorem Rec.Heard.none {r : Rec} (h : r.Heard) (hn : r.oncpu = 0 ∨ r.holder ≠ .dispatch) :
    r.killreq = false ∧ r.reapreq = false := by
  have hw : ¬(r.killreq = true ∨ r.reapreq = true) := by
    intro hw
    obtain ⟨hc, hh⟩ := h hw
    exact hn.elim hc (absurd hh)
  exact (not_or.mp hw).imp Bool.eq_false_iff.mpr Bool.eq_false_iff.mpr

section Step

variable {s s' : Machine} {a : Act} {i : Nat} {r r' : Rec} {old new : List Task} {d : Int}

theorem Change.heard (hc : Change s a i r r' old new d) (ho : Heeded s a)
    (hr : s.procs[i]? = some r) (h : r.Heard) : r'.Heard := by
  cases hc with
  | killLeft ha _ he | reapLeft ha _ he =>
    intro _
    exact ⟨elsewhere_oncpu he, ho _ i r ha.asks hr he⟩
  | @breakLeft me _ _ he =>
    intro _
    exact ⟨elsewhere_oncpu he, ho me i r rfl hr he⟩
  | dispatched _ hc | parkedClaimed _ hc =>
    obtain ⟨hk, hr⟩ := h.none (.inl hc)
    exact heard_of_none hk hr
  | released => split <;> exact heard_of_none rfl rfl
  | goneLetGo hd _ hh =>
    obtain ⟨hk, hr⟩ := h.none (.inr (hh ▸ hd))
    exact heard_of_none hk hr
  | _ => exact h

/-- In every run whose wishes are left to running procs, they are on running procs. -/
theorem run_heard (h : Run Heeded s) : ∀ (i : Nat) (r : Rec), s.procs[i]? = some r → r.Heard := by
  refine h.invariant (I := fun s => ∀ (i : Nat) (r : Rec), s.procs[i]? = some r → r.Heard) ?_ ?_
  · intro i r hr
    cases hr
  intro s s' a _ hi ho ha j x hx
  cases run_moved ha with
  | swapped _ hs =>
    subst hs
    exact hi j x hx
  | @born _ ok _ _ hs =>
    subst hs
    obtain ⟨-, rfl⟩ | ⟨-, hx⟩ := slot_born hx
    · cases ok <;> exact heard_of_none rfl rfl
    · exact hi j x hx
  | turned hr hc _ hp =>
    obtain ⟨rfl, rfl⟩ | ⟨-, hx⟩ := slot_turned hr hp hx
    · exact hc.heard ho hr (hi _ _ hr)
    · exact hi j x hx

/-- The call for everything that was left on a proc is under way. -/
def Called (s : Machine) (i : Nat) (r : Rec) : Prop :=
  (r.killreq = true → ∃ me, .call me (if r.killfree then .kill else .break) i ∈ s.tasks) ∧
    (r.reapreq = true → ∃ me, .call me .reap i ∈ s.tasks)

/-- A step that ends a claim takes the wishes off the record and calls for them. -/
theorem Change.answered (hc : Change s a i r r' old new d) (h : r.Heard)
    (ht : s'.tasks = new ++ s.tasks.diff old) (h0 : r.oncpu ≠ 0) (h1 : r'.oncpu = 0) :
    r'.killreq = false ∧ r'.reapreq = false ∧ Called s' i r := by
  cases hc with
  | dispatched | parkedClaimed => cases h1
  | @released me =>
    refine ⟨by split <;> rfl, by split <;> rfl, fun hk => ⟨me, ?_⟩, fun hq => ⟨me, ?_⟩⟩
    · rw [ht]
      exact List.mem_append.mpr (.inl (kill_mem_leftCalls me i hk))
    · rw [ht]
      exact List.mem_append.mpr (.inl (reap_mem_leftCalls me i hq))
  | goneLetGo hd _ hh =>
    obtain ⟨hk, hq⟩ := h.none (.inr (hh ▸ hd))
    refine ⟨hk, hq, ?_, ?_⟩
    · rw [hk]
      nofun
    · rw [hq]
      nofun
  | _ => exact absurd h1 h0

/-- In every such run a wish is on a proc that a cpu holds, and the step that ends the claim takes
it and calls for it. -/
theorem run_requests_held (h : Run Heeded s) :
    (∀ (i : Nat) (r : Rec), s.procs[i]? = some r → r.killreq = true ∨ r.reapreq = true → r.oncpu ≠ 0) ∧
    ∀ (a : Act) (s' : Machine) (i : Nat) (r r' : Rec), a.run s = some s' → s.procs[i]? = some r →
      s'.procs[i]? = some r' → r.oncpu ≠ 0 → r'.oncpu = 0 →
      r'.killreq = false ∧ r'.reapreq = false ∧ Called s' i r := by
  have hheard := run_heard h
  refine ⟨fun i r hr hw => (hheard i r hr hw).1, fun a s' i r r' ha hr hr' h0 h1 => ?_⟩
  cases run_moved ha with
  | swapped _ hs =>
    subst hs
    rw [hr] at hr'
    cases hr'
    exact absurd h1 h0
  | born _ _ hs =>
    subst hs
    obtain ⟨rfl, -⟩ | ⟨-, hx⟩ := slot_born hr'
    · exact absurd (freeSlot_rec hr).2 h0
    · rw [hr] at hx
      cases hx
      exact absurd h1 h0
  | turned hi hc _ hp ht =>
    obtain ⟨rfl, rfl⟩ | ⟨-, hx⟩ := slot_turned hi hp hr'
    · rw [hr] at hi
      cases hi
      exact hc.answered (hheard _ _ hr) ht h0 h1
    · rw [hr] at hx
      cases hx
      exact absurd h1 h0

end Step

def heeded (s : Machine) (a : Act) : Bool :=
  match a.asks with
  | none => true
  | some (me, i) => (s.procs[i]?).all fun (r : Rec) => !r.elsewhere me || r.holder == .dispatch

theorem heeded_heeded (s : Machine) (a : Act) (h : heeded s a = true) : Heeded s a := by
  intro me i r ha hr he
  simpa [heeded, ha, hr, he] using h

/-- A proc is taken, killed from another cpu, and let go. -/
def killedRunning : List Act := [.procNew 8 true, .launch 0 50, .dispatch 0 true, .kill 1 0]

/-- The kill is on a proc that is held, and its cpu calls for it as it lets the proc go. -/
theorem killedRunning_called :
    ∃ s, Run Heeded s ∧ ∃ r, s.procs[0]? = some r ∧ r.killreq = true ∧ r.oncpu ≠ 0 := by
  obtain ⟨s, -, hr, hs⟩ := Run.of_acts (l := killedRunning) heeded_heeded
    (P := fun s => (s.procs[0]?).any fun (r : Rec) => r.killreq) (by decide +kernel)
  simp only [Option.any_eq_true] at hs
  obtain ⟨r, h0, hk⟩ := hs
  exact ⟨s, hr, r, h0, hk, (run_requests_held hr).1 0 r h0 (.inl hk)⟩

/-- A parked proc is taken by `proc_heaps_release`, killed from another cpu, and let go. -/
def killedParked : List Act :=
  [.procNew 8 true, .launch 0 50, .dispatch 0 true, .block 0 0, .release 0 0, .heapsClaim 0 0, .kill 1 0,
    .heapsRelease 0 0]

/-- Nobody holds it, the kill is still on it, and nothing is under way. -/
theorem killedParked_forgotten : ∃ s, Run (fun _ _ => True) s ∧ s.tasks = [] ∧
      ∃ r, s.procs[0]? = some r ∧ r.status = .blocked ∧ r.killreq = true ∧ r.oncpu = 0 := by
  obtain ⟨s, -, hr, hs⟩ := Run.of_acts (l := killedParked) anyAct_true
    (P := fun s => s.tasks.isEmpty && (s.procs[0]?).any fun (r : Rec) =>
      decide (r.status = .blocked) && r.killreq && decide (r.oncpu = 0)) (by decide +kernel)
  simp only [Option.any_eq_true, Bool.and_eq_true, decide_eq_true_eq, List.isEmpty_iff] at hs
  obtain ⟨ht, r, h0, ⟨h1, h2⟩, h3⟩ := hs
  exact ⟨s, hr, ht, r, h0, h1, h2, h3⟩

end Nlos.Smp
