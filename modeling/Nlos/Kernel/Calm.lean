import Nlos.Kernel.Wait

/-!
# What waking leaves alone

Waking, parking and collecting wait records change who runs next. They kill nobody, revive nobody
and link no record that was not linked: `Sched.Calms`. The counting of references and the life of
procs need no more than that.
-/

namespace Nlos

namespace Sched

/-- Proc slot `i` holds a corpse: `DEAD`, or `BROKE` and held for inspection. -/
def gone (s : Sched) (i : Nat) : Bool := s.statusOf i == .dead || s.statusOf i == .broke

theorem gone_iff {s : Sched} {i : Nat} :
    s.gone i = true ↔ s.statusOf i = .dead ∨ s.statusOf i = .broke := by
  unfold gone
  rw [Bool.or_eq_true, beq_iff_eq, beq_iff_eq]

theorem gone_congr {s s' : Sched} {i : Nat} (e : s'.statusOf i = s.statusOf i) :
    s'.gone i = s.gone i := by
  unfold gone
  rw [e]

/-- From `s` to `s'` no proc died, broke or was revived, no wait record was linked, and no slot went
away. -/
structure Calms (s s' : Sched) : Prop where
  dead : ∀ i, s'.statusOf i = .dead ↔ s.statusOf i = .dead
  broke : ∀ i, s'.statusOf i = .broke ↔ s.statusOf i = .broke
  waits : ∀ i, ∀ w ∈ s'.waitersOf i, w.onport = true →
    ∃ w' ∈ s.waitersOf i, w'.onport = true ∧ w'.port = w.port
  size : s.procs.length ≤ s'.procs.length

namespace Calms

theorem refl (s : Sched) : Calms s s :=
  ⟨fun _ => Iff.rfl, fun _ => Iff.rfl, fun _ w hw ho => ⟨w, hw, ho, rfl⟩, Nat.le_refl _⟩

theorem trans {a b c : Sched} (h : Calms a b) (g : Calms b c) : Calms a c where
  dead i := (g.dead i).trans (h.dead i)
  broke i := (g.broke i).trans (h.broke i)
  waits i w hw ho := by
    obtain ⟨w', hw', ho', hp'⟩ := g.waits i w hw ho
    obtain ⟨w'', hw'', ho'', hp''⟩ := h.waits i w' hw' ho'
    exact ⟨w'', hw'', ho'', hp''.trans hp'⟩
  size := Nat.le_trans h.size g.size

theorem gone {s s' : Sched} (h : Calms s s') (i : Nat) : s'.gone i = s.gone i := by
  rw [Bool.eq_iff_iff, gone_iff, gone_iff, h.dead, h.broke]

theorem foldl {α : Type} {f : Sched → α → Sched} (hf : ∀ s a, Calms s (f s a)) (l : List α)
    (s : Sched) : Calms s (l.foldl f s) := by
  induction l generalizing s with
  | nil => exact refl s
  | cons a l ih => exact (hf s a).trans (ih (f s a))

end Calms

variable {s : Sched} {i j : Nat} {p p' : SProc}

theorem statusOf_eq (h : s.procs[i]? = some p) : s.statusOf i = p.status := by
  unfold statusOf
  rw [h]

theorem waitersOf_eq (h : s.procs[i]? = some p) : s.waitersOf i = p.waiters := by
  unfold waitersOf
  rw [h]

theorem procs_setProc_same (h : s.procs[i]? = some p) : (s.setProc i p').procs[i]? = some p' :=
  Tally.set_slot h

theorem procs_setProc_other (h : i ≠ j) : (s.setProc i p').procs[j]? = s.procs[j]? :=
  List.getElem?_set_ne h

theorem statusOf_setProc_other (h : i ≠ j) : (s.setProc i p').statusOf j = s.statusOf j := by
  unfold statusOf
  rw [procs_setProc_other h]

theorem waitersOf_setProc_other (h : i ≠ j) : (s.setProc i p').waitersOf j = s.waitersOf j := by
  unfold waitersOf
  rw [procs_setProc_other h]

theorem waitersOf_setProc (h : s.procs[i]? = some p) (hw : p'.waiters = p.waiters) (j : Nat) :
    (s.setProc i p').waitersOf j = s.waitersOf j := by
  by_cases hj : i = j
  · subst hj
    rw [waitersOf_eq (procs_setProc_same h), waitersOf_eq h, hw]
  · exact waitersOf_setProc_other hj

/-- Rewriting one record is calm if its status keeps off `DEAD` and `BROKE`, or keeps what it
was, and if it links no record. -/
theorem calms_setProc (h : s.procs[i]? = some p)
    (hd : p'.status = .dead ↔ p.status = .dead) (hb : p'.status = .broke ↔ p.status = .broke)
    (hw : ∀ w ∈ p'.waiters, w.onport = true → ∃ w' ∈ p.waiters, w'.onport = true ∧ w'.port = w.port) :
    Calms s (s.setProc i p') := by
  have status {st : Status} (e : p'.status = st ↔ p.status = st) (j : Nat) :
      (s.setProc i p').statusOf j = st ↔ s.statusOf j = st := by
    by_cases hj : i = j
    · subst hj
      rw [statusOf_eq (procs_setProc_same h), statusOf_eq h, e]
    · rw [statusOf_setProc_other hj]
  refine ⟨status hd, status hb, fun j => ?_, Nat.le_of_eq List.length_set.symm⟩
  by_cases hj : i = j
  · subst hj
    rw [waitersOf_eq (procs_setProc_same h), waitersOf_eq h]
    exact hw
  · rw [waitersOf_setProc_other hj]
    exact fun w hw ho => ⟨w, hw, ho, rfl⟩

theorem calms_status (h : s.procs[i]? = some p) (hw : p'.waiters = p.waiters)
    (hd : p'.status = .dead ↔ p.status = .dead) (hb : p'.status = .broke ↔ p.status = .broke) :
    Calms s (s.setProc i p') :=
  calms_setProc h hd hb fun w hm ho => ⟨w, hw ▸ hm, ho, rfl⟩

/-- A proc's record is rewritten but for its status and its wait records. -/
theorem calms_edit {f : SProc → SProc} (hs : ∀ p, (f p).status = p.status)
    (hw : ∀ p, (f p).waiters = p.waiters) :
    Calms s (match s.procs[i]? with
      | none => s
      | some p => s.setProc i (f p)) := by
  split
  · exact .refl s
  next p hp => exact calms_status hp (hw p) (by rw [hs]) (by rw [hs])

theorem calms_of_procs {s' : Sched} (h : s'.procs = s.procs) : Calms s s' := by
  have hs : ∀ i, s'.statusOf i = s.statusOf i := fun i => by unfold statusOf; rw [h]
  have hw : ∀ i, s'.waitersOf i = s.waitersOf i := fun i => by unfold waitersOf; rw [h]
  refine ⟨fun i => by rw [hs], fun i => by rw [hs], fun i w hm ho => ?_, Nat.le_of_eq (by rw [h])⟩
  rw [hw] at hm
  exact ⟨w, hm, ho, rfl⟩

theorem calms_unlink (s : Sched) (port : PortRef) (wid : Nat) : Calms s (s.unlink port wid) :=
  calms_of_procs rfl

theorem calms_makeReady (h : s.statusOf i ≠ .dead) : Calms s (s.makeReady i) := by
  unfold makeReady
  split
  · exact .refl s
  next p hp =>
  rw [statusOf_eq hp] at h
  split
  · exact .refl s
  next hs =>
  have hb : p.status ≠ .broke := fun e => hs (.inr e)
  split
  · exact calms_status hp rfl (by simp [h]) (by simp [hb])
  split <;> exact calms_status hp rfl (by simp [h]) (by simp [hb])

def claimed (w : WLink) (p : SProc) : SProc :=
  { p with
    woken := true
    waiters := p.waiters.map fun v => if v.wid = w.wid then { v with onport := false } else v }

variable {w : WLink} {port : PortRef} {ok send : Bool}

theorem calms_claim (h : s.procs[w.proc]? = some p) : Calms s (s.claim port w p) := by
  have h1 : Calms s (s.setProc w.proc (claimed w p)) := by
    refine calms_setProc h Iff.rfl Iff.rfl fun v hv ho => ?_
    obtain ⟨u, hu, rfl⟩ := List.mem_map.mp hv
    split at ho
    · cases ho
    next hne =>
    rw [if_neg hne]
    exact ⟨u, hu, ho, rfl⟩
  exact h1.trans (calms_unlink _ port w.wid)

theorem statusOf_claim (h : s.procs[w.proc]? = some p) :
    (s.claim port w p).statusOf w.proc = p.status := by
  have hp : (s.claim port w p).procs[w.proc]? = some (claimed w p) := procs_setProc_same h
  rw [statusOf_eq hp]
  rfl

theorem calms_wakeOne (send : Bool) (port : PortRef) (s : Sched) (w : WLink) :
    Calms s (wakeOne send port s w) := by
  unfold wakeOne
  split
  · exact .refl s
  next p hp =>
  split
  · exact .refl s
  next hc =>
  split
  · exact .refl s
  have hb : p.status = .blocked := by
    by_contra hne
    exact hc (.inr hne)
  refine (calms_claim hp).trans (calms_makeReady ?_)
  rw [statusOf_claim hp, hb]
  decide

theorem calms_wakeWaiters (send : Bool) (s : Sched) (port : PortRef) :
    Calms s (s.wakeWaiters send port) :=
  Calms.foldl (calms_wakeOne send port) _ s

theorem calms_dropWaiter (s : Sched) (i : Nat) : Calms s (s.dropWaiter i) := by
  unfold dropWaiter
  split
  · exact .refl s
  next p hp =>
  split
  · exact .refl s
  next w ws hws =>
  have h1 : Calms s (s.setProc i
      { p with waiters := ws, w0used := if w.inl then false else p.w0used }) := by
    refine calms_setProc hp Iff.rfl Iff.rfl fun v hv ho => ⟨v, ?_, ho, rfl⟩
    rw [hws]
    exact List.mem_cons_of_mem w hv
  refine h1.trans (calms_of_procs ?_)
  by_cases ho : w.onport = true
  · simp only [ho, if_true]
    rfl
  · simp only [ho]
    rfl

theorem calms_waitClear (s : Sched) (i : Nat) : Calms s (s.waitClear i) :=
  Calms.foldl (fun s _ => calms_dropWaiter s i) _ s

theorem calms_clearWoken (s : Sched) (i : Nat) : Calms s (s.clearWoken i) :=
  calms_edit (fun _ => rfl) fun _ => rfl

theorem calms_procBlock (h : s.gone i = false) : Calms s (s.procBlock i) := by
  unfold procBlock
  split
  · exact .refl s
  next p hp =>
  unfold gone at h
  rw [statusOf_eq hp, Bool.or_eq_false_iff, beq_eq_false_iff_ne, beq_eq_false_iff_ne] at h
  exact calms_status hp rfl (by simp [h.1]) (by simp [h.2])

theorem calms_stop (s : Sched) (i : Nat) : Calms s (s.stop i) := by
  unfold stop
  split
  · exact .refl s
  next p hp =>
  split
  next h =>
    refine calms_status hp rfl ?_ ?_ <;> rcases h with h | h <;> simp [h]
  · exact .refl s

theorem calms_resume (s : Sched) (i : Nat) : Calms s (s.resume i) := by
  unfold resume
  split
  · exact .refl s
  next p hp =>
  split
  next h =>
    have h1 : Calms s (s.setProc i { p with status := .ready }) :=
      calms_status hp rfl (by simp [h]) (by simp [h])
    refine h1.trans (calms_makeReady ?_)
    rw [statusOf_eq (procs_setProc_same hp)]
    nofun
  · exact .refl s

/-- The moves of dispatching that put no proc to sleep, start none and end none. -/
inductive Moves (s : Sched) : Sched → Prop where
  | wake (send : Bool) (p : PortRef) : Moves s (s.wakeWaiters send p)
  | drop (i : Nat) : Moves s (s.dropWaiter i)
  | rearm (i : Nat) : Moves s (s.clearWoken i)
  | ready {i : Nat} (h : s.statusOf i ≠ .dead) : Moves s (s.makeReady i)
  | claimCpu (i me : Nat) : Moves s (s.claimCpu i me)
  | releaseClaim (i : Nat) : Moves s (s.releaseClaim i)
  | stop (i : Nat) : Moves s (s.stop i)
  | askStop (i : Nat) (b : Bool) : Moves s (s.askStop i b)
  | resume (i : Nat) : Moves s (s.resume i)

theorem Moves.calms {s' : Sched} (h : Moves s s') : Calms s s' := by
  cases h with
  | wake send p => exact calms_wakeWaiters send s p
  | drop i => exact calms_dropWaiter s i
  | rearm i => exact calms_clearWoken s i
  | ready h => exact calms_makeReady h
  | claimCpu | releaseClaim | askStop => exact calms_edit (fun _ => rfl) fun _ => rfl
  | stop i => exact calms_stop s i
  | resume i => exact calms_resume s i

theorem waitAdd_some {s' : Sched} (h : s.waitAdd ok i port send = some s') :
    ∃ p w, s.procs[i]? = some p ∧ w.port = port ∧ w.send = send ∧ w.onport = true ∧
      w.wid = s.nextWid ∧
      s'.procs = s.procs.set i { p with waiters := w :: p.waiters, w0used := true } := by
  unfold waitAdd at h
  split at h
  · cases h
  next p hp =>
  split at h
  · cases h
  · cases h
    exact ⟨p, _, hp, rfl, rfl, rfl, rfl, rfl⟩

theorem statusOf_waitAdd {s' : Sched}
    (h : s.waitAdd ok i port send = some s') (j : Nat) : s'.statusOf j = s.statusOf j := by
  obtain ⟨p, w, hp, -, -, -, -, hs⟩ := waitAdd_some h
  unfold statusOf
  rw [hs]
  by_cases hj : i = j
  · subst hj
    rw [Tally.set_slot hp, hp]
  · rw [List.getElem?_set_ne hj]

theorem waitersOf_waitAdd {s' : Sched} (h : s.waitAdd ok i port send = some s') (j : Nat) :
    ∀ v ∈ s'.waitersOf j, v ∈ s.waitersOf j ∨ (j = i ∧ v.port = port) := by
  obtain ⟨p, w, hp, hw, -, -, -, hs⟩ := waitAdd_some h
  intro v hv
  unfold waitersOf at hv ⊢
  rw [hs] at hv
  by_cases hj : i = j
  · subst hj
    rw [Tally.set_slot hp] at hv
    rw [hp]
    rcases List.mem_cons.mp hv with rfl | hv
    · exact .inr ⟨rfl, hw⟩
    · exact .inl hv
  · rw [List.getElem?_set_ne hj] at hv
    exact .inl hv

end Sched

end Nlos
