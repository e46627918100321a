import Nlos.Tcp.Network

/-!
# Where there is no connection

CLOSED and LISTEN, under any calls that do not open. A segment never gets more than the one reset
that LISTEN answers an acknowledgment with. Time does nothing where no timer runs; `_dead` and the
way back to LISTEN leave the timers as they find them, and nothing is said about those.
-/

namespace Nlos.Tcp

section

variable {t t0 : Tcb} {a : Call} {g : Seg}

/-- A call that opens nothing: not `connect` or `listen`, and to LISTEN no SYN. -/
def Tcb.Rests (t : Tcb) (a : Call) : Prop :=
  a.opens = false ∧ (t.state = .listen → ∀ g now, a = .segment g now → g.flags.syn = false)

/-- What LISTEN says to a segment: one reset, where it carries an acknowledgment. -/
def Tcb.refusal (t : Tcb) (g : Seg) : List Seg :=
  if g.flags.ack = true ∧ g.flags.rst = false then
    [⟨t.lport, t.rport, g.ack, 0, { Flags.none with rst := true }, 0, [], none⟩]
  else []

theorem segment_listen (hs : t.state = .listen) (hg : g.flags.syn = false) (now : Option Int) :
    t.segment g now = { t.attime now with out := t.out ++ t.refusal g } := by
  have he : t.segment g now = (t.attime now).inListen g := by
    refine segment_cases (P := (· = (t.attime now).inListen g)) (fun h => ?_) (fun _ => rfl)
      (fun h => ?_) fun h _ => ?_
    · exact nomatch hs.symm.trans h
    · exact nomatch hs.symm.trans h
    · rw [hs] at h
      cases h
  rw [he]
  unfold Tcb.inListen Tcb.refusal
  cases hr : g.flags.rst <;> cases ha : g.flags.ack <;> simp [hg, Tcb.attime, Tcb.reset]

theorem deadline_eq_none :
    t.deadline = none ↔ t.timewait = none ∧ t.retx = none ∧ t.persist = none ∧ t.delack = none := by
  unfold Tcb.deadline
  cases t.timewait <;> cases t.retx <;> cases t.persist <;> cases t.delack <;> simp [Tcb.earlier]

/-- Time passes where no timer runs. -/
theorem tick_of_deadline (h : t.deadline = none) (now : Option Int) :
    t.tick now = t.attime now := by
  obtain ⟨h1, h2, h3, h4⟩ := deadline_eq_none.mp h
  have hd : ∀ {x : Option Int}, x = none → Tcb.due (t.attime now).now x = false := fun h => by
    rw [h]
    rfl
  unfold Tcb.tick Tcb.tickPersist
  simp only [hd (show (t.attime now).timewait = none from h1), hd (show (t.attime now).retx = none from h2),
    hd (show (t.attime now).delack = none from h4), hd (show (t.attime now).persist = none from h3),
      Bool.false_eq_true, if_false]

/-- From where there is no connection, to where there is none either. -/
structure Tcb.Sleeps (t t' : Tcb) : Prop where
  idle : t'.state.idle = true
  closed : t.state = .closed → t'.state = .closed
  deadline : t.deadline = none → t'.deadline = none

theorem Tcb.Sleeps.trans {t' t'' : Tcb} (h1 : t.Sleeps t') (h2 : t'.Sleeps t'') : t.Sleeps t'' :=
  ⟨h2.idle, h2.closed ∘ h1.closed, h2.deadline ∘ h1.deadline⟩

/-- The timers and the state are as they were, or the connection has ended. -/
theorem sleeps_of_eq {t' : Tcb} (hi : t.state.idle = true)
    (hs : t'.state = t.state ∨ t'.state = .closed) (h1 : t'.timewait = t.timewait)
    (h2 : t'.retx = t.retx) (h3 : t'.persist = t.persist) (h4 : t'.delack = t.delack) :
    t.Sleeps t' := by
  refine ⟨?_, fun hc => ?_, fun hd => ?_⟩
  · rcases hs with h | h <;> rw [h]
    · exact hi
    · rfl
  · rcases hs with h | h
    · exact h.trans hc
    · exact h
  · rw [deadline_eq_none, h1, h2, h3, h4]
    exact deadline_eq_none.mp hd

theorem sleeps_tick (hi : t.state.idle = true) (now : Option Int) : t.Sleeps (t.tick now) := by
  have hk : Keeps True t (t.tick now) := keeps_tick now fun _ => trivial
  have hs : (t.tick now).state = t.state ∨ (t.tick now).state = .closed := by
    rcases hk with ⟨-, h⟩ | ⟨-, h, -⟩
    · exact .inl (h.of_not_synced (by unfold State.synced; rw [hi]; rfl))
    · exact .inr h
  refine ⟨?_, fun hc => ?_, fun hd => ?_⟩
  · rcases hs with h | h <;> rw [h]
    · exact hi
    · rfl
  · rcases hs with h | h
    · exact h.trans hc
    · exact h
  · rw [tick_of_deadline hd]
    exact hd

theorem sleeps_call (hi : t.state.idle = true) (ha : t.Rests a) : t.Sleeps (t.call a) := by
  have hclosed : t.state = .closed ∨ t.state = .listen := by
    revert hi
    cases t.state <;> simp [State.idle]
  have hsame : ∀ now, t.Sleeps (t.attime now) :=
    fun now => sleeps_of_eq hi (.inl rfl) rfl rfl rfl rfl
  cases a with
  | connect now | listen => cases ha.1
  | close now =>
    show t.Sleeps (t.close now)
    unfold Tcb.close
    simp only
    split
    · exact hsame now
    split
    · exact sleeps_of_eq hi (.inr rfl) rfl rfl rfl rfl
    next h => exact absurd hclosed h
  | abort now =>
    show t.Sleeps (t.abort now)
    unfold Tcb.abort
    simp only
    split
    next h => exact absurd hclosed (not_or.mpr h)
    · exact sleeps_of_eq hi (.inr rfl) rfl rfl rfl rfl
  | write data now =>
    have hr : (t.attime now).writeRoom data = none := by
      refine if_pos ?_
      rcases hclosed with h | h <;> rw [show (t.attime now).state = _ from h] <;> decide
    have he : (t.write data now).2 = t.attime now := by
      unfold Tcb.write
      simp only [hr]
    show t.Sleeps (t.write data now).2
    rw [he]
    exact hsame now
  | read max =>
    show t.Sleeps (t.read max).2
    unfold Tcb.read
    split
    · exact sleeps_of_eq hi (.inl rfl) rfl rfl rfl rfl
    simp only
    split
    next ho =>
      have hst : t.state = .established := by
        unfold Tcb.offers at ho
        simp only [Bool.and_eq_true, decide_eq_true_eq] at ho
        exact ho.1.1
      rw [hst] at hi
      cases hi
    · exact sleeps_of_eq hi (.inl rfl) rfl rfl rfl rfl
  | tick now => exact sleeps_tick hi now
  | segment g now =>
    show t.Sleeps (t.segment g now)
    rcases hclosed with hs | hs
    · rw [segment_closed hs now]
      exact hsame now
    · rw [segment_listen hs (ha.2 hs g now rfl) now]
      exact sleeps_of_eq hi (.inl rfl) rfl rfl rfl rfl
  | take | events => exact sleeps_of_eq hi (.inl rfl) rfl rfl rfl rfl

theorem sleeps_run (hi : t0.state.idle = true) (h : Runs (· = t0) Tcb.Rests Tcb.call t) :
    t0.Sleeps t := by
  refine Runs.invariant ?_ ?_ h
  · rintro _ rfl
    exact ⟨hi, id, id⟩
  · intro s a hs ha
    exact hs.trans (sleeps_call hs.idle ha)

/-- A connection that is CLOSED stays so until it is opened, and answers no segment; back in LISTEN,
an acknowledgment gets one reset and anything else but a SYN nothing; and where no timer was left
running, no time does anything and there is no deadline. -/
theorem no_connection_no_answer (hi : t0.state.idle = true)
    (h : Runs (· = t0) Tcb.Rests Tcb.call t) :
    (t0.state = .closed → t.state = .closed ∧ ∀ g now, (t.segment g now).out = t.out ∧ (t.segment g now).ev = t.ev) ∧
    (∀ g now, t.Rests (.segment g now) → (t.segment g now).ev = t.ev ∧
      (t.segment g now).out = t.out ++ if t.state = .listen then t.refusal g else []) ∧
    (t0.deadline = none → t.deadline = none ∧ ∀ now, (t.tick now).out = t.out ∧ (t.tick now).ev = t.ev) := by
  have hs := sleeps_run hi h
  have hclosed : t.state = .closed → ∀ g now, (t.segment g now).out = t.out ∧
      (t.segment g now).ev = t.ev := fun hc g now => by
    rw [segment_closed hc now]
    exact ⟨rfl, rfl⟩
  refine ⟨fun hc => ⟨hs.closed hc, hclosed (hs.closed hc)⟩, fun g now hr => ?_,
    fun hd => ⟨hs.deadline hd, fun now => ?_⟩⟩
  · rcases em (t.state = .listen) with hl | hl
    · rw [if_pos hl, segment_listen hl (hr.2 hl g now rfl) now]
      exact ⟨rfl, rfl⟩
    · have hc : t.state = .closed := by
        have := hs.idle
        revert this hl
        cases t.state <;> simp [State.idle]
      obtain ⟨h1, h2⟩ := hclosed hc g now
      rw [if_neg hl, List.append_nil]
      exact ⟨h2, h1⟩
  · rw [tick_of_deadline (hs.deadline hd)]
    exact ⟨rfl, rfl⟩

/-- In SYN-RECEIVED, from a SYN that a listener heard. -/
def halfOpen : Tcb :=
  ((Tcb.new ⟨2, 1, 500, none, none, none, false, none⟩).listen.segment
    ⟨1, 2, 100, 0, { Flags.none with syn := true }, 65535, [], synOpt⟩ (some 0)).take

def returned : Tcb :=
  halfOpen.segment ⟨1, 2, 101, 0, { Flags.none with rst := true }, 0, [], none⟩ (some 0)

/-- An acknowledgment that belongs to no connection. -/
def stray : Seg := ⟨1, 2, 101, 501, Tcb.ackFlags, 65535, [], none⟩

theorem returned_refuses : returned.state.idle = true ∧
    (returned.segment stray none).out = returned.out ++ returned.refusal stray := by
  have hi : returned.state.idle = true := by decide +kernel
  have hl : returned.state = .listen := by decide +kernel
  have hr : returned.Rests (.segment stray none) := ⟨rfl, fun _ _ _ h => by cases h; rfl⟩
  have := ((no_connection_no_answer hi (.init rfl)).2.1 stray none hr).2
  exact ⟨hi, this⟩

/-- A listener that a reset brought back answers an acknowledgment with a reset. -/
theorem returned_answers :
    halfOpen.state = .synReceived ∧ returned.state = .listen ∧ returned.out = [] ∧
    stray.flags.syn = false ∧
      (returned.segment stray none).out =
        [⟨2, 1, 501, 0, { Flags.none with rst := true }, 0, [], none⟩] := by
  decide +kernel

end

end Nlos.Tcp
