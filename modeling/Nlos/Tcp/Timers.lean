import Nlos.Tcp.Rest

/-!
# What is owed has a timer

A connection that has something outstanding, something to send or a FIN to send has a timer running,
so that neither a lost segment nor a lost window update leaves it waiting for ever.

Two things have to be kept out. The persist timer runs in ESTABLISHED only, so a peer that closes
its window and its half leaves data in CLOSE-WAIT with no timer. And a probe stops the
retransmission timer, so a window that opens without acknowledging the probed byte stops the persist
timer and starts none, unless there is more to send.
-/

namespace Nlos.Tcp

open List Serial

/-! ## What the timers depend on -/

/-- Our FIN is sent and not acknowledged. -/
def State.ending : State → Bool
  | .finWait1 | .closing | .lastAck => true
  | _ => false

theorem State.said_of_ending {s : State} (h : s.ending = true) : s.said = true := by
  cases s <;> first | rfl | cases h

theorem State.ne_synReceived {s : State} (h : s.opening = false) : s ≠ .synReceived := fun hs =>
  nomatch (congrArg State.opening hs).symm.trans h

/-- What of a connection has to do with its timers, the retransmission timer aside. -/
structure Duty where
  state : State
  una : Seq
  nxt : Seq
  sndq : Bytes
  sndoff : Nat
  sndWnd : Nat
  sndWl1 : Seq
  sndWl2 : Seq
  sndMss : Nat
  cwnd : Option Int
  ssthresh : Int
  finPending : Bool
  finRcvd : Bool
  finSeen : Bool
  persist : Bool

namespace Duty

variable (d : Duty)

def flight : Int := Tcp4.diff d.nxt d.una

def qlen : Int := (d.sndq.length : Int) - d.sndoff

def unsent : Int := d.qlen - d.flight

def win : Int :=
  match d.cwnd with
  | some c => if c < d.sndWnd then c else d.sndWnd
  | none => d.sndWnd

def probes : Bool := decide (d.state = .established ∧ d.sndWnd = 0 ∧ 0 < d.qlen)

/-- The windows let a byte go at least. -/
structure Paced : Prop where
  mss : 1 ≤ d.sndMss
  ssthresh : 1 ≤ d.ssthresh
  cwnd : ∀ c, d.cwnd = some c → 1 ≤ c

/-- Where data flows, what is outstanding, unsent or asked for has a timer. -/
structure Flowing (retx : Bool) : Prop where
  flight : d.flight ≠ 0 → retx = true ∨ d.persist = true
  unsent : 0 < d.unsent → d.flight ≠ 0 ∨ d.persist = true
  fin : d.finPending = true → 0 < d.unsent ∨ d.persist = true
  persist : d.persist = true ↔ d.state = .established ∧ d.sndWnd = 0 ∧ 0 < d.qlen
  window : d.state = .closeWait → d.sndWnd ≠ 0

structure Timed (retx : Bool) : Prop where
  paced : d.Paced
  seen : d.finRcvd = true → d.finSeen = true
  opening : d.state.opening = true → retx = true
  ending : d.state.ending = true → d.flight ≠ 0 → retx = true ∨ d.persist = true ∧ 0 < d.qlen
  flow : d.state = .established ∨ d.state = .closeWait → d.Flowing retx

/-- In front of `_transmit`, which sets the timers right. -/
structure Due (retx : Bool) : Prop where
  paced : d.Paced
  seen : d.finRcvd = true → d.finSeen = true
  opening : d.state.opening = false
  ending : d.state.ending = true → d.flight ≠ 0 → retx = true ∨ d.persist = true ∧ 0 < d.qlen
  flight : d.state = .established ∨ d.state = .closeWait → d.flight ≠ 0 →
    retx = true ∨ (d.state = .established ∧ d.sndWnd = 0 ∧ 0 < d.qlen) ∨ 0 < d.unsent ∧
      d.flight < d.win
  window : d.state = .closeWait → d.sndWnd ≠ 0

end Duty

namespace Tcb

def duty (t : Tcb) : Duty :=
  { state := t.state
    una := t.sndUna
    nxt := t.sndNxt
    sndq := t.sndq
    sndoff := t.sndoff
    sndWnd := t.sndWnd
    sndWl1 := t.sndWl1
    sndWl2 := t.sndWl2
    sndMss := t.sndMss
    cwnd := t.cwnd
    ssthresh := t.ssthresh
    finPending := t.finPending
    finRcvd := t.finRcvd
    finSeen := t.finSeen
    persist := t.persist.isSome }

def Timed (t : Tcb) : Prop := t.duty.Timed t.retx.isSome

def Due (t : Tcb) : Prop := t.duty.Due t.retx.isSome

end Tcb

section

variable {t t' : Tcb} {W : Bytes} {u x : Nat} {seg : Seg} {d : Duty} {b b' : Bool}

theorem Duty.Flowing.mono (h : d.Flowing b) (hb : b = true → b' = true) : d.Flowing b' :=
  { h with flight := fun hf => (h.flight hf).imp_left hb }

theorem Duty.Timed.mono (h : d.Timed b) (hb : b = true → b' = true) : d.Timed b' :=
  { h with
    opening := fun ho => hb (h.opening ho)
    ending := fun he hf => (h.ending he hf).imp_left hb
    flow := fun hs => (h.flow hs).mono hb }

theorem Duty.Due.mono (h : d.Due b) (hb : b = true → b' = true) : d.Due b' :=
  { h with
    ending := fun he hf => (h.ending he hf).imp_left hb
    flight := fun hs hf => (h.flight hs hf).imp_left hb }

theorem Duty.Timed.due (h : d.Timed b) (ho : d.state.opening = false) : d.Due b :=
  { h with
    opening := ho
    flight := fun hs hf =>
      ((h.flow hs).flight hf).imp_right fun hp => .inl ((h.flow hs).persist.mp hp)
    window := fun hs => (h.flow (.inr hs)).window hs }

theorem Duty.Due.timed (h : d.Due b) (hs : ¬(d.state = .established ∨ d.state = .closeWait)) :
    d.Timed b :=
  { h with
    opening := fun ho => nomatch h.opening.symm.trans ho
    flow := fun hs' => absurd hs' hs }

theorem Duty.Due.grow (h : d.Due b) (hs : d.state = .established ∨ d.state = .closeWait) {q : Bytes}
    (hq : d.sndq.length ≤ q.length) : Duty.Due { d with sndq := q } b := by
  have hlen : d.qlen ≤ (q.length : Int) - d.sndoff := by
    unfold Duty.qlen
    omega
  refine { h with paced := { h.paced with }, ending := fun he => ?_, flight := fun _ hf => ?_ }
  · exact nomatch (State.flows hs).2.2.symm.trans (State.said_of_ending he)
  · rcases h.flight hs hf with h2 | ⟨h2, h3, h4⟩ | ⟨h2, h3⟩
    · exact .inl h2
    · exact .inr (.inl ⟨h2, h3, Int.lt_of_lt_of_le h4 hlen⟩)
    · exact .inr (.inr ⟨Int.lt_of_lt_of_le h2 (Int.sub_le_sub_right hlen _), h3⟩)

/-- The congestion window may be any that lets a byte go. -/
theorem Duty.Timed.pace (h : d.Timed b) {c : Option Int} {s : Int} (hc : ∀ c', c = some c' → 1 ≤ c')
    (hs : 1 ≤ s) : Duty.Timed { d with cwnd := c, ssthresh := s } b :=
  { h with
    paced := ⟨h.paced.mss, hs, hc⟩
    flow := fun hst => { h.flow hst with } }

/-- What leaves all of it alone, and the retransmission timer running. -/
def Steady (t t' : Tcb) : Prop := t'.duty = t.duty ∧ (t.retx.isSome = true → t'.retx.isSome = true)

theorem Steady.refl : Steady t t := ⟨rfl, id⟩

variable {t'' : Tcb} {n : Int} {a : Call}

theorem Steady.trans (h1 : Steady t t') (h2 : Steady t' t'') : Steady t t'' :=
  ⟨h2.1.trans h1.1, h2.2 ∘ h1.2⟩

theorem Steady.timed (h : Steady t t') (ht : t.Timed) : t'.Timed := by
  unfold Tcb.Timed at ht ⊢
  rw [h.1]
  exact ht.mono h.2

theorem Steady.due (h : Steady t t') (ht : t.Due) : t'.Due := by
  unfold Tcb.Due at ht ⊢
  rw [h.1]
  exact ht.mono h.2

theorem timed_of_idle (hp : t.duty.Paced) (hf : t.finRcvd = true → t.finSeen = true)
    (hi : t.state.idle = true) : t.Timed := by
  refine ⟨hp, hf, fun h => ?_, fun h => ?_, fun h => ?_⟩
  · exact nomatch (State.not_opening hi).symm.trans h
  · have h' : t.state.ending = true := h
    revert hi h'
    cases t.state <;> simp [State.idle, State.ending]
  · exact nomatch (State.flows h).1.symm.trans hi

theorem timed_dead (h : t.Timed) (k : Kind) (why : Option String) : (t.dead k why).Timed :=
  timed_of_idle { h.paced with } h.seen rfl

/-! ## Sending -/

theorem send_retx (flags : Flags) (data : Bytes) (seq : Option Seq) (opt : Option Opt) :
    (t.send flags data seq opt).retx.isSome =
      (t.retx.isSome || decide (0 < (t.segOf flags data seq opt).seglen)) :=
  congrArg Half.armed (send_half flags data seq opt)

theorem steady_send (flags : Flags) (data : Bytes) (seq : Option Seq) (opt : Option Opt) :
    Steady t (t.send flags data seq opt) :=
  ⟨rfl, fun h => by rw [send_retx, h, Bool.true_or]⟩

theorem steady_ack : Steady t t.ack := by
  unfold Tcb.ack
  split <;> exact steady_send _ _ _ _

theorem updatePersist_duty :
    t.updatePersist.duty = { t.duty with persist := t.duty.probes } ∧
    t.updatePersist.retx = t.retx := by
  unfold Tcb.updatePersist
  split
  next h =>
    have hd : t.duty.probes = true := decide_eq_true ⟨h.2.2, h.1, h.2.1⟩
    rw [hd]
    split
    next hp =>
      refine ⟨?_, rfl⟩
      unfold Tcb.duty
      rw [hp]
      rfl
    · exact ⟨rfl, rfl⟩
  next h =>
    have hd : t.duty.probes = false := decide_eq_false fun h' => h ⟨h'.2.1, h'.2.2, h'.1⟩
    rw [hd]
    exact ⟨rfl, rfl⟩

structure Sent (t r : Tcb) : Prop where
  duty : ∃ q, r.duty = { t.duty with nxt := q, persist := t.duty.probes }
  done : r.unsent ≤ 0 ∨ r.win ≤ r.flight
  retx : t.retx.isSome = true → r.retx.isSome = true
  kept : r.sndNxt = t.sndNxt ∨ r.retx.isSome = true
  went : 0 < t.unsent → t.flight < t.win → r.retx.isSome = true
  rest : r.finSent = t.finSent

theorem next_duty (flags : Flags) (data : Bytes) (n : Seq) :
    { t.send flags data none none with sndNxt := n }.duty = { t.duty with nxt := n } := rfl

theorem sendNext_duty (n : Int) :
    (t.sendNext n).duty = { t.duty with nxt := Tcp4.add t.sndNxt n.toNat } := next_duty _ _ _

/-- The next bytes are outstanding, with the timer running. -/
theorem next_spec (hx : Accounts W u x t.half) {n : Nat} (flags : Flags) (h1 : 1 ≤ n)
    (hn : (n : Int) ≤ t.unsent) :
    Tcp4.diff (Tcp4.add t.sndNxt n) t.sndUna = t.flight + n ∧
      (t.send flags (t.qsub (t.flight + 1).toNat (t.flight + n).toNat) none none).retx.isSome =
        true := by
  obtain ⟨ho, -, hx1, hun⟩ := hx.unsent (by omega)
  have hle := hx.le
  have hshort := ho.short
  refine ⟨?_, ?_⟩
  · rw [hx.sndNxt, hx.sndUna, Tcp4.add_eq_shift,
      shift_shift, Tcp4.diff_shift t.iss (by omega) (by omega), hx.flight]
    omega
  · have hlen : (t.qsub (t.flight + 1).toNat (t.flight + n).toNat).length = n := by
      rw [hx.qsub_next ho n, length_take, length_drop]
      omega
    have hpos : 0 <
        (t.segOf flags (t.qsub (t.flight + 1).toNat (t.flight + n).toNat) none none).seglen := by
      show 0 < (t.qsub _ _).length + _ + _
      omega
    rw [send_retx, decide_eq_true hpos, Bool.or_true]

theorem sendNext_spec (hx : Accounts W u x t.half) (h1 : 1 ≤ n) (hn : n ≤ t.unsent) :
    (t.sendNext n).flight = t.flight + n ∧ (t.sendNext n).retx.isSome = true := by
  obtain ⟨m, rfl⟩ := Int.eq_ofNat_of_zero_le (show 0 ≤ n by omega)
  exact next_spec hx _ (by omega) hn

theorem transmitLoop_sent (fuel : Nat) (hx : Accounts W u x t.half) (hm : 1 ≤ t.sndMss)
    (hf : t.unsent.toNat < fuel) : Sent t (Tcb.transmitLoop fuel t) := by
  induction fuel generalizing t x with
  | zero => exact absurd hf (Nat.not_lt_zero _)
  | succ fuel ih =>
    rw [Tcb.transmitLoop]
    split
    next h =>
      obtain ⟨h1, h2⟩ := updatePersist_duty
      have h3 : t.updatePersist.finSent = t.finSent := by
        unfold Tcb.updatePersist
        split
        · split <;> rfl
        · rfl
      generalize t.updatePersist = r at h1 h2 h3 ⊢
      have hu : r.unsent = t.unsent := congrArg Duty.unsent h1
      have hw : r.win = t.win := congrArg Duty.win h1
      have hfl : r.flight = t.flight := congrArg Duty.flight h1
      refine ⟨⟨t.sndNxt, h1⟩, ?_, fun hr => h2 ▸ hr, .inl (congrArg Duty.nxt h1), fun h4 h5 => ?_, h3⟩
      · rw [hu, hw, hfl]
        rcases h with h | h
        · exact .inl h
        · exact .inr (by omega)
      · rcases h with h | h <;> omega
    next h =>
      generalize hn : min (min t.unsent (t.win - t.flight)) (t.sndMss : Int) = n
      have hn1 : 1 ≤ n := by omega
      have hn2 : n ≤ t.unsent := by omega
      obtain ⟨hfl, hr⟩ := sendNext_spec hx hn1 hn2
      obtain ⟨y, -, hy⟩ := emits_sendNext (A := False) (B := False) (by omega) (by omega) hn2 x hx
      have hu : (t.sendNext n).unsent = t.unsent - n := by
        show t.qlen - (t.sendNext n).flight = _
        unfold Tcb.unsent
        omega
      have hs := ih hy.accounts hm (by rw [hu]; omega)
      obtain ⟨q, hq⟩ := hs.duty
      rw [sendNext_duty] at hq
      have hret := hs.retx hr
      exact ⟨⟨q, hq⟩, hs.done, fun _ => hret, .inr hret, fun _ _ => hret, hs.rest⟩

/-- The window stays, and the connection does not come to be there. -/
def Tcb.Stands (t t' : Tcb) : Prop :=
  t'.sndWnd = t.sndWnd ∧ (t'.state = .established → t.state = .established)

theorem Tcb.Due.transmit (h : t.Due) (hx : Accounts W u x t.half) :
    t.transmit.Timed ∧ t.Stands t.transmit := by
  unfold Tcb.transmit
  split
  next hs =>
    have hsent := transmitLoop_sent (t.unsent.toNat + 1) hx h.paced.mss (Nat.lt_succ_self _)
    generalize Tcb.transmitLoop (t.unsent.toNat + 1) t = r at hsent ⊢
    obtain ⟨q, hq⟩ := hsent.duty
    have hp : r.duty.Paced := by
      rw [hq]
      exact { h.paced with }
    have hseen : r.finRcvd = true → r.finSeen = true := by
      rw [show r.finRcvd = t.finRcvd from congrArg Duty.finRcvd hq,
        show r.finSeen = t.finSeen from congrArg Duty.finSeen hq]
      exact h.seen
    have hst : r.state = t.state := congrArg Duty.state hq
    have hper : r.persist.isSome = t.duty.probes := congrArg Duty.persist hq
    have hwnd : r.sndWnd = t.sndWnd := congrArg Duty.sndWnd hq
    have hql : r.qlen = t.qlen := congrArg Duty.qlen hq
    unfold Tcb.followFin
    split
    next hfin =>
      have hno : ¬((if r.state = .closeWait then State.lastAck else .finWait1) = .established ∨
          (if r.state = .closeWait then State.lastAck else .finWait1) = .closeWait) := by
        split <;> decide
      refine ⟨?_, hwnd, fun h => absurd (.inl h) hno⟩
      -- the FIN is outstanding
      have hret : r.sendFin.retx.isSome = true := by
        show (Tcb.send _ { Tcb.ackFlags with fin := true } [] none none).retx.isSome = true
        rw [send_retx]
        exact Bool.or_true _
      unfold Tcb.Timed
      exact ⟨{ hp with }, hseen, fun _ => hret, fun _ _ => .inl hret, fun hs' => absurd hs' hno⟩
    next hfin =>
      refine ⟨?_, hwnd, fun h => hst.symm.trans h⟩
      have hfs : t.finSent = false :=
        (hx.flow (State.flows hs).1 h.opening).fin.trans (State.flows hs).2.2
      refine ⟨hp, hseen, fun ho => ?_, fun he => ?_,
        fun _ => ⟨fun hf => ?_, fun hu => ?_, fun hpend => ?_, ?_, fun hc => ?_⟩⟩
      · rw [show r.duty.state = t.state from hst] at ho
        exact nomatch h.opening.symm.trans ho
      · rw [show r.duty.state = t.state from hst] at he
        exact nomatch (State.flows hs).2.2.symm.trans (State.said_of_ending he)
      · rcases hsent.kept with hk | hr
        · have hf' : t.flight ≠ 0 := by
            have : r.flight = t.flight := by
              show Tcp4.diff r.sndNxt r.sndUna = Tcp4.diff t.sndNxt t.sndUna
              rw [hk, show r.sndUna = t.sndUna from congrArg Duty.una hq]
            rw [← this]
            exact hf
          rcases h.flight hs hf' with hr | hz | ⟨h1, h2⟩
          · exact .inl (hsent.retx hr)
          · exact .inr (hper.trans (decide_eq_true hz))
          · exact .inl (hsent.went h1 h2)
        · exact .inl hr
      · -- the windows are used up, or closed
        by_contra hcon
        obtain ⟨h1, h2⟩ := not_or.mp hcon
        have hz : r.flight = 0 := not_not.mp h1
        have hu' : 0 < r.unsent := hu
        have hw : r.win ≤ 0 := by
          rcases hsent.done with hd | hd <;> omega
        have hwnd0 : t.sndWnd = 0 := by
          unfold Tcb.win at hw
          split at hw
          next c hc =>
            have := hp.cwnd c hc
            split at hw <;> omega
          · omega
        have hq0 : 0 < t.qlen := by
          unfold Tcb.unsent at hu'
          omega
        rcases hs with hs | hs
        · exact h2 (hper.trans (decide_eq_true ⟨hs, hwnd0, hq0⟩))
        · exact h.window hs hwnd0
      · refine .inl ?_
        by_contra hcon
        exact hfin ⟨hpend, hsent.rest.trans hfs, Int.not_lt.mp hcon⟩
      · show r.persist.isSome = true ↔ r.state = .established ∧ r.sndWnd = 0 ∧ 0 < r.qlen
        rw [hper, hst, hwnd, hql]
        exact decide_eq_true_iff
      · rw [show r.duty.sndWnd = t.sndWnd from hwnd]
        exact h.window (hst.symm.trans hc)
  next hs => exact ⟨Duty.Due.timed h hs, rfl, id⟩

/-! ## Time -/

theorem steady_resend : Steady t t.resend := by
  unfold Tcb.resend
  split
  · exact .refl
  · exact steady_send _ _ _ _

theorem steady_resendFirst : Steady t t.resendFirst := by
  unfold Tcb.resendFirst
  split
  · exact .refl
  · exact steady_resend

theorem steady_retransmitSegment : Steady t t.retransmitSegment := by
  unfold Tcb.retransmitSegment
  split
  · exact steady_send _ _ _ _
  · exact steady_send _ _ _ _
  · exact steady_resend

theorem timed_timeoutCc (h : t.Timed) : t.timeoutCc.Timed := by
  have hm : 1 ≤ t.sndMss := h.paced.mss
  unfold Tcb.timeoutCc
  split
  · exact h
  have hs : 1 ≤ if t.retries = 0 then max (t.flight / 2) (2 * (t.sndMss : Int))
      else t.ssthresh := by
    split
    · omega
    · exact h.paced.ssthresh
  refine Duty.Timed.pace h (fun c hc => ?_) hs
  obtain rfl : (t.sndMss : Int) = c := Option.some.inj hc
  omega

theorem timed_retransmit (h : t.Timed) : t.retransmit.Timed := by
  have h1 := timed_timeoutCc h
  unfold Tcb.retransmit
  have h2 : { t.timeoutCc with retries := t.retries + 1 }.Timed := h1
  generalize { t.timeoutCc with retries := t.retries + 1 } = t1 at h2 ⊢
  unfold Tcb.resendOrGiveUp
  split
  · exact timed_dead h2 _ _
  · have h3 : Steady t1 t1.retransmitSegment.backOff :=
      steady_retransmitSegment.trans ⟨rfl, fun _ => rfl⟩
    exact h3.timed h2

theorem probe_queue (hx : Accounts W u x t.half) : t.qsub 1 1 = t.queue.take 1 ∧
      t.qsub (t.flight + 1).toNat (t.flight + 1).toNat = (t.queue.drop (x - u)).take 1 := by
  have hle := hx.le
  have hn : (t.flight + 1).toNat = x - u + 1 := by
    rw [hx.flight]
    omega
  refine ⟨Tcb.qsub_eq _ _ (Nat.le_refl 1), ?_⟩
  rw [hn, Tcb.qsub_eq _ _ (Nat.le_add_left 1 _), Nat.add_sub_cancel, Nat.add_sub_cancel_left]

/-- A probe leaves the persist timer running, and no other, where there is something to probe with.
-/
theorem probe_duty (hx : Accounts W u x t.half) :
    (t.qlen ≤ 0 ∧ t.probe.duty = { t.duty with persist := false } ∧ t.probe.retx = t.retx) ∨
      (0 < t.qlen ∧ ∃ q, t.probe.duty = { t.duty with nxt := q, persist := true }) := by
  obtain ⟨h1, h2⟩ := probe_queue hx
  unfold Tcb.probe
  simp only
  split
  next h =>
    refine .inl ⟨?_, rfl, rfl⟩
    rw [hx.qlen, show t.queue = [] by simpa using h1.symm.trans h.2]
    exact Int.le_refl 0
  next h =>
  have hq : 0 < t.qlen := by
    rw [hx.qlen]
    rcases eq_nil_or_concat t.queue with hq | ⟨_, _, hq⟩
    · exact absurd ⟨by rw [h2, hq, drop_nil, take_nil], by rw [h1, hq, take_nil]⟩ h
    · rw [hq]
      simp
  split
  · exact .inr ⟨hq, t.sndNxt, rfl⟩
  · exact .inr ⟨hq, Tcp4.add t.sndNxt 1, rfl⟩

section

variable (h : t.Timed) (hx : Accounts W u x t.half)

include h hx

theorem timed_probe (hp : t.persist.isSome = true) : t.probe.Timed := by
  unfold Tcb.Timed at h ⊢
  rcases probe_duty hx with ⟨hq, hd, hr⟩ | ⟨hq, q, hd⟩
  · rw [hd, hr]
    refine { h with paced := { h.paced with }, ending := fun he hf => ?_, flow := fun hs => ?_ }
    · exact (h.ending he hf).imp_right fun hpq => absurd hpq.2 (Int.not_lt.mpr hq)
    · exact absurd ((h.flow hs).persist.mp hp).2.2 (Int.not_lt.mpr hq)
  · rw [hd]
    refine { h with
      paced := { h.paced with }
      opening := fun ho => ?_
      ending := fun _ _ => .inr ⟨rfl, hq⟩
      flow := fun hs => ?_ }
    · -- nothing is queued before our SYN is acknowledged
      have hnil := hx.queue_eq_nil (.inr ho)
      rw [hx.qlen, hnil] at hq
      exact absurd hq (by decide)
    · have hest := (h.flow hs).persist.mp hp
      exact ⟨fun _ => .inr rfl, fun _ => .inr rfl, fun _ => .inr rfl, ⟨fun _ => hest, fun _ => rfl⟩, fun hc =>
        nomatch hest.1.symm.trans hc⟩

theorem timed_tickPersist : t.tickPersist.Timed := by
  unfold Tcb.tickPersist
  split
  next hd =>
    split
    · exact timed_dead h _ _
    · exact timed_probe h hx (isSome_of_due hd)
  · exact h

theorem timed_tick (now : Option Int) : (t.tick now).Timed := by
  rw [Tcb.tick_eq]
  have h0 : (t.attime now).Timed := h
  have hx0 : Accounts W u x (t.attime now).half := hx
  generalize t.attime now = t1 at h0 hx0 ⊢
  split
  · exact timed_dead (t := { t1 with timewait := none }) h0 _ _
  obtain ⟨h2, y, hy⟩ : t1.tickRetx.Timed ∧ ∃ y, Accounts W u y t1.tickRetx.half := by
    unfold Tcb.tickRetx
    split
    next hd =>
      obtain ⟨y, -, hy⟩ :=
        emits_retransmit (A := False) (B := False) (isSome_of_due hd) nofun nofun x hx0
      exact ⟨timed_retransmit h0, y, hy.accounts⟩
    · exact ⟨h0, x, hx0⟩
  generalize t1.tickRetx = t2 at h2 hy ⊢
  obtain ⟨h4, z, hz⟩ : t2.tickDelack.Timed ∧ ∃ z, Accounts W u z t2.tickDelack.half := by
    unfold Tcb.tickDelack
    split
    · obtain ⟨z, -, hz⟩ := emits_ack (A := False) (B := False) y hy
      exact ⟨steady_ack.timed h2, z, hz.accounts⟩
    · exact ⟨h2, y, hy⟩
  exact timed_tickPersist h4 hz

end

/-! ## Duplicate acknowledgments -/

theorem State.Stays.opening {s s' : State} (h : s.Stays s') (hs : s.opening = false) :
    s'.opening = false := by
  rcases h with h | ⟨-, h⟩
  · rw [h, hs]
  · exact (State.synced_iff.mp h).2

theorem due_limitedTransmit (h : t.Due) (hx : Accounts W u x t.half) :
    t.limitedTransmit.Due ∧ t.Stands t.limitedTransmit := by
  unfold Tcb.limitedTransmit
  split
  · exact ⟨h, rfl, id⟩
  split
  · exact ⟨h, rfl, id⟩
  · split
    · exact ⟨h, rfl, id⟩
    split
    · exact ⟨h, rfl, id⟩
    have hm : 1 ≤ t.sndMss := h.paced.mss
    obtain ⟨m, hm'⟩ := Int.eq_ofNat_of_zero_le (show 0 ≤ min t.unsent t.sndMss by omega)
    simp only [hm']
    obtain ⟨-, hr⟩ := next_spec hx Tcb.ackFlags (n := m) (by omega) (by omega)
    refine ⟨?_, rfl, id⟩
    unfold Tcb.Due
    rw [next_duty]
    exact { h with paced := { h.paced with }, ending := fun _ _ => .inl hr, flight := fun _ _ => .inl hr }

theorem timed_fastRetransmit (h : t.Timed) :
    t.fastRetransmit.Timed ∧ t.Stands t.fastRetransmit := by
  have hm : 1 ≤ t.sndMss := h.paced.mss
  unfold Tcb.fastRetransmit
  split
  · have hs : 1 ≤ max (t.flight / 2) (2 * (t.sndMss : Int)) := by omega
    have h1 : { t with
        recover := t.sndNxt, inRecovery := true
        ssthresh := max (t.flight / 2) (2 * t.sndMss) }.Timed :=
      Duty.Timed.pace h h.paced.cwnd hs
    have hst := steady_resendFirst
      (t := { t with
        recover := t.sndNxt, inRecovery := true
        ssthresh := max (t.flight / 2) (2 * t.sndMss) })
    have h2 := hst.timed h1
    have hw : t.Stands _ := ⟨congrArg Duty.sndWnd hst.1, (congrArg Duty.state hst.1).symm.trans⟩
    have hm2 : _ = t.sndMss := congrArg Duty.sndMss hst.1
    generalize { t with
      recover := t.sndNxt, inRecovery := true
      ssthresh := max (t.flight / 2) (2 * t.sndMss) }.resendFirst = t1 at h2 hw hm2 ⊢
    have hs2 : 1 ≤ t1.ssthresh := h2.paced.ssthresh
    refine ⟨Duty.Timed.pace h2 (fun c hc => ?_) hs2, hw⟩
    obtain rfl : t1.ssthresh + dupackThresh * t1.sndMss = c := Option.some.inj hc
    have : (0 : Int) ≤ (dupackThresh : Int) * t1.sndMss := Int.mul_nonneg (by decide) (by omega)
    omega
  · exact ⟨h, rfl, id⟩

theorem due_onDupack (h : t.Timed) (hp : t.state.opening = false) (hx : Accounts W u x t.half) :
    t.onDupack.Due ∧ t.Stands t.onDupack := by
  unfold Tcb.onDupack
  have h1 : { t with dupacks := t.dupacks + 1 }.Timed := h
  have hx1 : Accounts W u x { t with dupacks := t.dupacks + 1 }.half := hx
  have hp1 : { t with dupacks := t.dupacks + 1 }.state.opening = false := hp
  have hw1 : t.Stands = { t with dupacks := t.dupacks + 1 }.Stands := rfl
  rw [hw1]
  generalize { t with dupacks := t.dupacks + 1 } = t1 at h1 hx1 hp1 ⊢
  simp only
  split
  · exact due_limitedTransmit (h1.due hp1) hx1
  split
  · obtain ⟨h2, h3⟩ := timed_fastRetransmit h1
    have hk : Keeps False t1 t1.fastRetransmit := keeps_fastRetransmit
    exact ⟨h2.due (hk.inbox.2.opening hp1), h3⟩
  split
  · have hd : { t1 with cwnd := t1.cwnd.map (· + t1.sndMss) }.Timed := by
      refine Duty.Timed.pace h1 (fun c hc => ?_) h1.paced.ssthresh
      obtain ⟨c', hc', rfl⟩ := Option.map_eq_some_iff.mp hc
      have := h1.paced.cwnd c' hc'
      omega
    have hx2 : Accounts W u x { t1 with cwnd := t1.cwnd.map (· + t1.sndMss) }.half := by
      rw [map_cwnd_half]
      exact hx1
    obtain ⟨h2, h3⟩ := Tcb.Due.transmit (hd.due hp1) hx2
    have hk : Keeps False { t1 with cwnd := t1.cwnd.map (· + t1.sndMss) }
        { t1 with cwnd := t1.cwnd.map (· + t1.sndMss) }.transmit :=
      keeps_transmit
    exact ⟨h2.due (hk.inbox.2.opening hp1), h3⟩
  · exact ⟨h1.due hp1, rfl, id⟩

/-! ## Acknowledgments -/

theorem ackedCc_duty (seg : Seg) (hp : t.duty.Paced) (hn : 0 ≤ n) :
    ∃ c, (t.ackedCc seg n).duty = { t.duty with cwnd := c } ∧ ∀ c', c = some c' → 1 ≤ c' := by
  have hm : 1 ≤ t.sndMss := hp.mss
  have hsome : ∀ {c : Int}, 1 ≤ c → ∀ c', some c = some c' → 1 ≤ c' :=
    fun h c' hc => Option.some.inj hc ▸ h
  unfold Tcb.ackedCc
  split
  · exact ⟨t.cwnd, rfl, hp.cwnd⟩
  next cwnd hc =>
  have h1 := hp.cwnd cwnd hc
  split
  · split
    · exact ⟨some t.ssthresh, rfl, hsome hp.ssthresh⟩
    · have hd := (steady_resendFirst (t := t)).1
      generalize t.resendFirst = t1 at hd ⊢
      have hset : ∀ c r, { t1 with cwnd := c, retx := r }.duty = { t.duty with cwnd := c } :=
        fun c r => by
        rw [← hd]
        rfl
      refine ⟨_, hset _ _, hsome ?_⟩
      split <;> omega
  split
  · exact ⟨some (cwnd + min n (2 * t.sndMss)), rfl, hsome (by omega)⟩
  · refine ⟨some (cwnd + if t.sndMss * t.sndMss / cwnd > 0 then t.sndMss * t.sndMss / cwnd else 1), rfl, hsome ?_⟩
    split <;> omega

/-- An acknowledgment sets the retransmission timer by what is outstanding. -/
theorem acked_duty (seg : Seg) (hp : t.duty.Paced) (hn : 0 ≤ n) :
    (∃ c, (t.acked seg n).duty = { t.duty with cwnd := c } ∧ ∀ c', c = some c' → 1 ≤ c') ∧
      (t.acked seg n).retx.isSome = Tcp4.lt t.sndUna t.sndNxt := by
  obtain ⟨c, h1, h2⟩ := ackedCc_duty seg hp hn
  have hrtt : ({ t.ackedCc seg n with dupacks := 0 }.ackedRtt seg).duty =
      (t.ackedCc seg n).duty := by
    unfold Tcb.ackedRtt
    split
    · split <;> rfl
    · rfl
  unfold Tcb.acked
  generalize { t.ackedCc seg n with dupacks := 0 }.ackedRtt seg = t1 at hrtt ⊢
  have hd : t1.duty = { t.duty with cwnd := c } := hrtt.trans h1
  refine ⟨⟨c, hd, h2⟩, ?_⟩
  rw [restartTimer_armed, show t1.sndUna = t.sndUna from congrArg Duty.una hd,
    show t1.sndNxt = t.sndNxt from congrArg Duty.nxt hd]

/-- Something new is acknowledged, and the timer runs where something is left. -/
theorem advance_duty (hp : t.duty.Paced) (hn : 0 ≤ Tcp4.diff seg.ack t.sndUna)
    (hlt : Tcp4.lt t.sndUna seg.ack = true) :
    (∃ q o c, (t.advance seg).duty =
      { t.duty with una := seg.ack, sndq := q, sndoff := o, cwnd := c } ∧
      ∀ c', c = some c' → 1 ≤ c') ∧ (t.advance seg).retx.isSome = Tcp4.lt seg.ack t.sndNxt := by
  obtain ⟨q, o, hq, -, -⟩ := dropAcked_eq seg
  unfold Tcb.advance Tcb.moved
  rw [if_pos hlt, hq]
  obtain ⟨⟨c, h1, h2⟩, h3⟩ :=
    acked_duty (t := { t with sndq := q, sndoff := o, sndUna := seg.ack }) seg
    { hp with } hn
  exact ⟨⟨q, o, c, h1, h2⟩, h3⟩

def Tcb.offered (t : Tcb) (seg : Seg) : Nat :=
  if t.state = .synReceived ∨ Tcp4.lt t.sndWl1 seg.seq ∨ t.sndWl1 = seg.seq ∧
    Tcp4.le t.sndWl2 seg.ack then seg.wnd.toNat
  else t.sndWnd

theorem updateWindow_duty (seg : Seg) (hs : t.state ≠ .synReceived) :
    (∃ a b, (t.updateWindow seg).duty = { t.duty with sndWnd := t.offered seg, sndWl1 := a, sndWl2 := b }) ∧
      (t.updateWindow seg).retx = t.retx := by
  unfold Tcb.updateWindow Tcb.offered
  have hiff : (Tcp4.lt t.sndWl1 seg.seq || (t.sndWl1 == seg.seq && Tcp4.le t.sndWl2 seg.ack)) =
    true ↔
      t.state = .synReceived ∨ Tcp4.lt t.sndWl1 seg.seq ∨ t.sndWl1 = seg.seq ∧
        Tcp4.le t.sndWl2 seg.ack := by
    simp [hs]
  split
  next h =>
    rw [if_pos (hiff.mp h)]
    exact ⟨⟨seg.seq, seg.ack, rfl⟩, rfl⟩
  next h =>
    rw [if_neg fun h' => h (hiff.mpr h')]
    exact ⟨⟨t.sndWl1, t.sndWl2, rfl⟩, rfl⟩

/-- Where our FIN is acknowledged nothing is owed any more. -/
theorem due_onFinAcked (seg : Seg) (h : t.Due) :
    ((t.onFinAcked seg).2 = false → (t.onFinAcked seg).1.Timed) ∧
      ((t.onFinAcked seg).2 = true → (t.onFinAcked seg).1.Due ∧ t.Stands (t.onFinAcked seg).1) := by
  unfold Tcb.onFinAcked
  split
  · refine ⟨nofun, fun _ => ⟨⟨{ h.paced with }, h.seen, rfl, nofun, fun hs => ?_, nofun⟩, rfl, nofun⟩⟩
    rcases hs with hs | hs <;> cases hs
  split
  · refine ⟨nofun, fun _ => ⟨⟨{ h.paced with }, h.seen, rfl, nofun, fun hs => ?_, nofun⟩, rfl, nofun⟩⟩
    rcases hs with hs | hs <;> cases hs
  split
  · exact ⟨fun _ => timed_of_idle { h.paced with } h.seen rfl, nofun⟩
  · exact ⟨nofun, fun _ => ⟨h, rfl, id⟩⟩

/-- There is more to send, and a window of `w` lets it go. -/
def Tcb.MaySend (t : Tcb) (w : Nat) : Prop := 0 < t.unsent ∧ t.flight < { t with sndWnd := w }.win

instance (t : Tcb) (w : Nat) : Decidable (t.MaySend w) := inferInstanceAs (Decidable (_ ∧ _))

/-- A window that is closed is not heard of in CLOSE-WAIT, and one that opens acknowledges something
or lets more go, where nothing but a probe is outstanding. -/
structure Tcb.Opens (t : Tcb) (seg : Seg) : Prop where
  closed : t.offered seg = 0 → t.state ≠ .closeWait
  probed : t.state = .established → t.retx = none → t.sndUna ≠ t.sndNxt → t.offered seg ≠ 0 →
    Tcp4.lt t.sndUna seg.ack = true ∨ t.MaySend (t.offered seg)

theorem due_advance {a y : Nat} (hp : t.duty.Paced) (hf : t.finRcvd = true → t.finSeen = true)
    (ho : t.state.opening = false)
    (hc : t.offered seg = 0 → t.state ≠ .closeWait) (hx : Accounts W a y (t.advance seg).half)
    (hn : 0 ≤ Tcp4.diff seg.ack t.sndUna) (hlt : Tcp4.lt t.sndUna seg.ack = true) :
    ((t.advance seg).updateWindow seg).Due ∧
    ((t.advance seg).updateWindow seg).sndWnd = t.offered seg := by
  obtain ⟨⟨q, o, c, h1, h2⟩, h3⟩ := advance_duty hp hn hlt
  have hret : (t.advance seg).flight ≠ 0 → (t.advance seg).retx.isSome = true := fun hfl => by
    have hlt' := hx.outstanding
    rw [show (t.advance seg).sndUna = seg.ack from congrArg Duty.una h1,
      show (t.advance seg).sndNxt = t.sndNxt from congrArg Duty.nxt h1] at hlt'
    rw [hx.flight] at hfl
    rw [h3]
    have := hx.le
    exact hlt'.mpr (by omega)
  have hst : (t.advance seg).state = t.state := congrArg Duty.state h1
  have hoff : (t.advance seg).offered seg = t.offered seg := by
    unfold Tcb.offered
    rw [hst, show (t.advance seg).sndWl1 = t.sndWl1 from congrArg Duty.sndWl1 h1,
      show (t.advance seg).sndWl2 = t.sndWl2 from congrArg Duty.sndWl2 h1,
        show (t.advance seg).sndWnd = t.sndWnd from congrArg Duty.sndWnd h1]
  generalize t.advance seg = t1 at h1 hret hst hoff ⊢
  have hns : t1.state ≠ .synReceived := State.ne_synReceived (hst ▸ ho)
  obtain ⟨⟨w1, w2, hd⟩, hr⟩ := updateWindow_duty seg hns
  rw [hoff] at hd
  generalize t1.updateWindow seg = t2 at hd hr ⊢
  refine ⟨?_, congrArg Duty.sndWnd hd⟩
  unfold Tcb.Due
  rw [hd, h1, hr]
  have hfl : t1.flight = Tcp4.diff t.sndNxt seg.ack := congrArg Duty.flight h1
  rw [hfl] at hret
  exact ⟨⟨hp.mss, hp.ssthresh, h2⟩, hf, ho, fun _ hz => .inl (hret hz), fun _ hz => .inl (hret hz),
    fun hs h0 => hc h0 hs⟩

theorem due_updateWindow (h : t.Timed) (ho : t.state.opening = false) (hc : t.Opens seg)
    (hlt : Tcp4.lt t.sndUna seg.ack = false) :
    (t.updateWindow seg).Due ∧ (t.updateWindow seg).sndWnd = t.offered seg := by
  obtain ⟨⟨w1, w2, hd⟩, hr⟩ := updateWindow_duty seg (State.ne_synReceived ho)
  generalize t.updateWindow seg = t1 at hd hr ⊢
  refine ⟨?_, congrArg Duty.sndWnd hd⟩
  unfold Tcb.Due
  rw [hd, hr]
  refine ⟨{ h.paced with }, h.seen, ho, h.ending, fun hs hfl => ?_, fun hs h0 => hc.closed h0 hs⟩
  have hfl' : t.flight ≠ 0 := hfl
  rcases (h.flow hs).flight hfl with hret | hper
  · exact .inl hret
  · obtain ⟨hest, -, hq⟩ := (h.flow hs).persist.mp hper
    rcases em (t.offered seg = 0) with h0 | h0
    · exact .inr (.inl ⟨hest, h0, hq⟩)
    · cases hret : t.retx with
      | some => exact .inl rfl
      | none =>
        have hne : t.sndUna ≠ t.sndNxt :=
          fun he => hfl' (by unfold Tcb.flight; rw [he, Tcp4.diff_self])
        rcases hc.probed hest hret hne h0 with h1 | h1
        · exact nomatch hlt.symm.trans h1
        · exact .inr (.inr h1)

theorem due_checkAckOpen (h : t.Timed) (hx : Accounts W u x t.half) (hi : t.state.idle = false)
    (ho : t.state.opening = false)
    (hlap : t.lapsSyn seg = false) (hc : Tcp4.gt seg.ack t.sndNxt = false → t.Opens seg) :
    ((t.checkAckOpen seg).2 = false → (t.checkAckOpen seg).1.Timed) ∧
      ((t.checkAckOpen seg).2 = true → (t.checkAckOpen seg).1.Due ∧ (t.checkAckOpen seg).1.sndWnd = t.offered seg ∧
        ((t.checkAckOpen seg).1.state = .established → t.state = .established)) := by
  cases hn : Tcp4.gt seg.ack t.sndNxt with
  | true =>
    unfold Tcb.checkAckOpen
    rw [if_pos hn]
    exact ⟨fun _ => steady_ack.timed h, nofun⟩
  | false =>
    have hopens := hc hn
    cases hd : t.isDupack seg with
    | true =>
      rw [checkAckOpen_dupack hn hd]
      refine ⟨nofun, fun _ => ?_⟩
      obtain ⟨h1, h2⟩ := due_onDupack (t := { t with probes := 0 }) h ho hx
      refine ⟨h1, h2.1.trans ?_, h2.2⟩
      -- a duplicate offers what was offered before
      have hw : seg.wnd.toNat = t.sndWnd := by
        unfold Tcb.isDupack at hd
        simp only [Bool.and_eq_true, beq_iff_eq] at hd
        exact hd.1.2
      unfold Tcb.offered
      rw [hw, ite_self]
    | false =>
      rw [checkAckOpen_rest hn hd]
      have hstep : (({ t with probes := 0 }.advance seg).updateWindow seg).Due ∧
          (({ t with probes := 0 }.advance seg).updateWindow seg).sndWnd = t.offered seg := by
        cases hlt : Tcp4.lt t.sndUna seg.ack with
        | true =>
          obtain ⟨a, ha1, ha2, ha⟩ := hx.between hlt hn
          have hadv : Advanced W a x ({ t with probes := 0 }.moved seg) := by
            rw [moved_probes]
            exact { advanced_of_open hx hi ho ha1 ha2 ha hlap with }
          obtain ⟨y, -, hy⟩ := hadv.advance (A := False) (B := False) hlt nofun
          have hnear := hx.near
          have hdiff : 0 ≤ Tcp4.diff seg.ack t.sndUna := by
            rw [ha, hx.sndUna, Tcp4.diff_shift t.iss (by omega) (by omega)]
            omega
          exact due_advance h.paced h.seen ho hopens.closed hy.accounts hdiff hlt
        | false =>
          have he : { t with probes := 0 }.advance seg = { t with probes := 0 } :=
            if_neg (by simp [hlt])
          rw [he]
          exact due_updateWindow h ho { hopens with } hlt
      have hst : (({ t with probes := 0 }.advance seg).updateWindow seg).state = t.state :=
        (congrArg Half.state (updateWindow_half seg)).trans (advance_frame seg).1
      generalize ({ t with probes := 0 }.advance seg).updateWindow seg = t1 at hstep hst ⊢
      obtain ⟨h1, h2⟩ := due_onFinAcked seg hstep.1
      refine ⟨h1, fun hb => ?_⟩
      obtain ⟨h3, h4, h5⟩ := h2 hb
      exact ⟨h3, h4.trans hstep.2, fun h => hst.symm.trans (h5 h)⟩

/-! ## The peer's FIN -/

theorem awaits_eq (h : t'.inbox = t.inbox) : t'.awaits = t.awaits :=
  congrArg (fun i : Inbox => i.ooo.any (·.fin)) h

theorem Acks.steady (h : Acks t t') : Steady t t' := by
  cases h with
  | aside => exact ⟨rfl, id⟩
  | ack w d b =>
    have h1 : Steady t { t with timewait := w, delack := d, ackbytes := b } := ⟨rfl, id⟩
    exact h1.trans steady_ack

/-- The peer's FIN is acted on where the window is open. -/
theorem due_onFin (h : t.Due) (hw : t.state = .established → t.sndWnd ≠ 0) : t.onFin.Due := by
  unfold Tcb.onFin
  simp only
  split
  next hs =>
    have hs' : t.state = .established := hs
    refine ⟨{ h.paced with }, h.seen, rfl, nofun, fun _ hf => ?_, fun _ => hw hs'⟩
    rcases h.flight (.inl hs') hf with h1 | h1 | h1
    · exact .inl h1
    · exact absurd h1.2.1 (hw hs')
    · exact .inr (.inr h1)
  next hs => exact absurd hs (State.ne_synReceived h.opening)
  next hs =>
    have hs' : t.state = .finWait1 := hs
    refine ⟨{ h.paced with }, h.seen, rfl,
      fun _ => h.ending (by rw [show t.duty.state = _ from hs']; rfl), fun hs => ?_, nofun⟩
    rcases hs with hs | hs <;> cases hs
  next hs =>
    refine ⟨{ h.paced with }, h.seen, rfl, nofun, fun hs => ?_, nofun⟩
    rcases hs with hs | hs <;> cases hs
  all_goals exact h

theorem due_text (h : t.Due)
    (hw : t.sndWnd = 0 → t.state = .established → seg.flags.fin = false ∧ t.awaits = false) :
    (t.text seg).Due := by
  rcases text_cases t seg with ⟨-, e⟩ | ⟨-, ha⟩
  · obtain ⟨o, k, r, e', -⟩ := hold_eq (t := t) seg
    rw [e, e']
    exact (Steady.trans ⟨rfl, id⟩ steady_ack).due h
  · have h1 := takes_text (t := t) seg
    refine ha.steady.due ?_
    generalize ((t.deliver (t.textData seg (Tcp4.diff t.rcvNxt seg.seq).toNat)).textFin seg).drainHeld = t1 at h1
    obtain ⟨⟨n, q, m, o, k, r, f, rfl, hf⟩, -⟩ := h1
    · have hmid : ∀ s, (s = true ∨ (f = true → s = true)) →
          Duty.Due { t.duty with finRcvd := f, finSeen := s } t.retx.isSome := fun s hs =>
        ⟨{ h.paced with }, fun hf => hs.elim id fun h => h hf, h.opening, h.ending, h.flight, h.window⟩
      unfold Tcb.seeFin
      split
      next hc =>
        -- it is a new one, so the window is not closed
        have hw' : t.state = .established → t.sndWnd ≠ 0 := fun hs h0 => by
          obtain ⟨h3, h4⟩ := hw h0 hs
          rw [h3, h4] at hf
          have hold : t.finRcvd = true := (hf hc.1).resolve_right (by decide)
          exact nomatch (h.seen hold).symm.trans hc.2
        exact due_onFin (hmid true (.inl rfl)) hw'
      next hc =>
        refine hmid t.finSeen (.inr fun hft => ?_)
        by_contra hcon
        exact hc ⟨hft, Bool.not_eq_true _ ▸ hcon⟩

theorem timed_afterAck (h : t.Due) (hx : Accounts W u x t.half)
    (hw : t.sndWnd = 0 → t.state = .established → seg.flags.fin = false ∧ t.awaits = false) :
    (t.afterAck seg).Timed := by
  unfold Tcb.afterAck
  split
  next hs =>
    refine (acks_inTimeWait seg).steady.timed (Duty.Due.timed h ?_)
    rw [show t.duty.state = _ from hs]
    decide
  · split
    · obtain ⟨y, -, hy⟩ :=
        emits_text (A := False) (B := False) seg (State.ne_synReceived h.opening) x hx
      exact (Tcb.Due.transmit (due_text h hw) hy.accounts).1
    · exact (Tcb.Due.transmit h hx).1

/-! ## One segment -/

/-- The segment comes to the acknowledgment, and that is not of something that was not sent. -/
def Tcb.heeds (t : Tcb) (seg : Seg) : Bool :=
  t.acceptable seg && !seg.flags.rst && !seg.flags.syn && seg.flags.ack && !Tcp4.gt seg.ack t.sndNxt

/-- What a segment has to meet so that the timers stay right: besides what the window has to do, a
window that is closed does not come with the peer's FIN. -/
structure Tcb.Heard (t : Tcb) (seg : Seg) : Prop where
  opens : t.heeds seg = true → t.Opens seg
  fin : t.heeds seg = true → t.offered seg = 0 → t.state = .synReceived ∨ t.state = .established →
    seg.flags.fin = false ∧ t.awaits = false

theorem timed_onRst (h : t.Timed) : t.onRst.Timed := by
  unfold Tcb.onRst
  split
  · exact timed_of_idle { h.paced with } h.seen rfl
  · exact timed_dead h _ _

/-- Our SYN is acknowledged, with the segment's window. -/
theorem due_synAcked (h : t.Timed) (hx : Accounts W u x t.half) (hs : t.state = .synReceived)
    (h1 : Tcp4.lt t.sndUna seg.ack = true) (h2 : Tcp4.le seg.ack t.sndNxt = true) :
    let t1 := ({ t with state := .established }.takeWindow seg).signal .established none
    (t1.checkAckOpen seg).2 = true ∧ (t1.checkAckOpen seg).1.Due ∧
      (t1.checkAckOpen seg).1.sndWnd = seg.wnd.toNat := by
  obtain ⟨hack, hn, hnd⟩ := synAck_eq hx hs h1 h2
  obtain ⟨-, rfl, rfl, rfl, -, hrec⟩ := hx.opening (congrArg State.opening hs)
  intro t1
  have hadv : Advanced [] 1 1 ({ t1 with probes := 0 }.moved seg) := by
    rw [moved_probes]
    exact { advanced_of_syn hx hs hack with }
  have hpart : ∀ {P : Prop}, ({ t1 with probes := 0 }.moved seg).partialAck seg = true → P :=
    fun hp => by
    rw [moved_partialAck] at hp
    exact nomatch hrec.symm.trans (Bool.and_eq_true_iff.mp hp).1
  obtain ⟨y, -, hy⟩ := hadv.advance (A := False) (B := False) h1 fun _ => hpart
  have hdiff : 0 ≤ Tcp4.diff seg.ack t.sndUna := by
    rw [hack, show t.sndUna = t.iss from hx.una.trans (shift_zero _)]
    have := Tcp4.diff_shift t.iss (i := 1) (j := 0) (by omega) (by omega)
    rw [shift_zero] at this
    omega
  have hoff : { t1 with probes := 0 }.offered seg = seg.wnd.toNat := ite_self _
  obtain ⟨h3, h4⟩ := due_advance (t := { t1 with probes := 0 }) { h.paced with } h.seen rfl
    (fun _ => nofun) hy.accounts hdiff h1
  have hst : (({ t1 with probes := 0 }.advance seg).updateWindow seg).state = .established := by
    obtain ⟨e1, -⟩ := advance_frame seg
    exact (congrArg Half.state (updateWindow_half seg)).trans e1
  rw [checkAckOpen_rest (t := t1) hn hnd]
  rw [hoff] at h4
  generalize ({ t1 with probes := 0 }.advance seg).updateWindow seg = t2 at h3 h4 hst ⊢
  have he : t2.onFinAcked seg = (t2, true) := by
    unfold Tcb.onFinAcked
    rw [hst]
    simp
  rw [he]
  exact ⟨rfl, h3, h4⟩

theorem timed_checkAck (h : t.Timed) (hx : Accounts W u x t.half) (hi : t.state.idle = false)
    (hs : t.state ≠ .synSent)
    (hlap : t.lapsSyn seg = false) (hg : t.Heard seg) (hacc : t.acceptable seg = true)
    (hr : seg.flags.rst = false) (hsyn : seg.flags.syn = false) :
    ((t.checkAck seg).2 = false → (t.checkAck seg).1.Timed) ∧
    ((t.checkAck seg).2 = true → (t.checkAck seg).1.Due ∧
      ((t.checkAck seg).1.sndWnd = 0 → (t.checkAck seg).1.state = .established →
        seg.flags.fin = false ∧ (t.checkAck seg).1.awaits = false)) := by
  have hheeds : seg.flags.ack = true → Tcp4.gt seg.ack t.sndNxt = false → t.heeds seg = true :=
    fun h1 h2 => by
    unfold Tcb.heeds
    rw [hacc, hr, hsyn, h1, h2]
    rfl
  unfold Tcb.checkAck
  split
  · exact ⟨fun _ => h, nofun⟩
  next hack =>
  have hack' : seg.flags.ack = true := by simpa using hack
  split
  next hrcv =>
    split
    next hsa =>
      obtain ⟨h1, h2⟩ := Bool.and_eq_true_iff.mp hsa
      obtain ⟨h3, h4, h5⟩ := due_synAcked h hx hrcv h1 h2
      refine ⟨fun hb => (nomatch h3.symm.trans hb), fun _ => ⟨h4, fun hw _ => ?_⟩⟩
      obtain ⟨-, hn, -⟩ := synAck_eq hx hrcv h1 h2
      have hoff : t.offered seg = 0 := by
        rw [h5] at hw
        unfold Tcb.offered
        rw [if_pos (.inl hrcv)]
        exact hw
      obtain ⟨h6, h7⟩ := hg.fin (hheeds hack' hn) hoff (.inl hrcv)
      have hk : Keeps False ((t.opened seg).signal .established none)
          (((t.opened seg).signal .established none).checkAckOpen seg).1 :=
        keeps_checkAckOpen fun h => by cases h
      exact ⟨h6, (awaits_eq hk.inbox.1).trans h7⟩
    · exact ⟨fun _ => h, nofun⟩
  next hrcv =>
    have ho : t.state.opening = false := by
      revert hs hrcv
      cases t.state <;> simp [State.opening]
    obtain ⟨h1, h2⟩ := due_checkAckOpen h hx hi ho hlap fun hn => hg.opens (hheeds hack' hn)
    refine ⟨h1, fun hb => ?_⟩
    obtain ⟨h3, h4, h5⟩ := h2 hb
    refine ⟨h3, fun hw hst => ?_⟩
    have hest := h5 hst
    have hn : Tcp4.gt seg.ack t.sndNxt = false := by
      cases hn : Tcp4.gt seg.ack t.sndNxt with
      | false => rfl
      | true =>
        unfold Tcb.checkAckOpen at hb
        rw [if_pos hn] at hb
        cases hb
    obtain ⟨h6, h7⟩ := hg.fin (hheeds hack' hn) (h4.symm.trans hw) (.inr hest)
    have hk : Keeps False t (t.checkAckOpen seg).1 := keeps_checkAckOpen fun h => by
      rw [hest] at h
      cases h
    exact ⟨h6, (awaits_eq hk.inbox.1).trans h7⟩

theorem timed_inSynchronized (h : t.Timed) (hx : Accounts W u x t.half) (hi : t.state.idle = false)
    (hs : t.state ≠ .synSent)
    (hlap : t.lapsSyn seg = false) (hg : t.Heard seg) : (t.inSynchronized seg).Timed := by
  unfold Tcb.inSynchronized
  split
  · exact (acks_onUnacceptable seg).steady.timed h
  next hacc =>
  split
  · exact timed_onRst h
  next hr =>
  split
  · exact steady_ack.timed h
  next hsyn =>
  obtain ⟨h1, h2⟩ := timed_checkAck h hx hi hs hlap hg (by simpa using hacc)
    (Bool.not_eq_true _ ▸ hr) (Bool.not_eq_true _ ▸ hsyn)
  have hfit : t.Fits False seg := ⟨hlap, nofun, nofun⟩
  obtain ⟨⟨v, y, -, -, hy⟩, -⟩ := checkAck_sends (B := False) hx hi hs hfit
  rcases hc : t.checkAck seg with ⟨t1, b⟩
  rw [hc] at h1 h2 hy
  cases b with
  | false => exact h1 rfl
  | true =>
    obtain ⟨h3, h4⟩ := h2 rfl
    exact timed_afterAck h3 hy.accounts h4

/-! ## Opening -/

theorem paced_synHeard (seg : Seg) (h : t.duty.Paced) : (t.synHeard seg).duty.Paced := by
  have hm : 1 ≤ (t.synHeard seg).sndMss := le_max_of_le_right (by decide : 1 ≤ Tcp4.mssMin)
  refine ⟨hm, h.ssthresh, fun c hc => ?_⟩
  obtain rfl : initialCwnd (t.synHeard seg).sndMss = c := Option.some.inj hc
  unfold initialCwnd
  split
  · omega
  · split <;> omega

theorem timed_syn {flags : Flags} (hp : t.duty.Paced) (hf : t.finRcvd = true → t.finSeen = true)
    (ho : t.state.opening = true)
    (hs : flags.syn = true) (opt : Option Opt) : (t.send flags [] (some t.iss) opt).Timed := by
  have hr : (t.send flags [] (some t.iss) opt).retx.isSome = true := by
    rw [send_retx]
    have hpos : 0 < (t.segOf flags [] (some t.iss) opt).seglen := by
      show 0 < 0 + (if flags.syn = true then 1 else 0) + (if flags.fin = true then 1 else 0)
      rw [hs, if_pos rfl]
      omega
    rw [decide_eq_true hpos, Bool.or_true]
  unfold Tcb.Timed
  rw [(steady_send flags [] (some t.iss) opt).1, hr]
  exact ⟨hp, hf, fun _ => rfl, fun _ _ => .inl rfl, fun h => nomatch (State.flows h).2.1.symm.trans ho⟩

theorem timed_sendSynAck (hp : t.duty.Paced) (hf : t.finRcvd = true → t.finSeen = true)
    (ho : t.state.opening = true) :
    t.sendSynAck.Timed := timed_syn hp hf ho rfl _

section

variable (h : t.Timed)

include h

theorem timed_inListen : (t.inListen seg).Timed := by
  unfold Tcb.inListen
  split
  · exact h
  split
  · exact h
  split
  · exact h
  refine timed_sendSynAck ?_ h.seen rfl
  have := paced_synHeard seg h.paced
  exact { this with }

section

variable (hx : Accounts W u x t.half)

include hx

theorem timed_synSentSyn (hs : t.state = .synSent) (acked : Bool)
    (hack : acked = true → seg.ack = shift t.iss 1) : (t.synSentSyn seg acked).Timed := by
  have hp := paced_synHeard seg h.paced
  cases acked with
  | true =>
    obtain ⟨he, hest⟩ := synSentSyn_acked hx hs (hack rfl)
    rw [he]
    obtain ⟨⟨c, hd, hc⟩, -⟩ := acked_duty (t := { t.synHeard seg with sndUna := seg.ack }) seg
      { hp with } (Int.le_refl 0)
    generalize { t.synHeard seg with sndUna := seg.ack }.acked seg 0 = t2 at hest hd ⊢
    have hp2 : t2.duty.Paced := by
      rw [hd]
      exact ⟨hp.mss, hp.ssthresh, hc⟩
    have hseen : t2.finRcvd = true → t2.finSeen = true := by
      rw [show t2.finRcvd = t.finRcvd from congrArg Duty.finRcvd hd,
        show t2.finSeen = t.finSeen from congrArg Duty.finSeen hd]
      exact h.seen
    have hdue : (t2.opened seg).Due :=
      ⟨{ hp2 with }, hseen, rfl, nofun, fun _ hf => absurd hest.flight hf, nofun⟩
    have hst : Steady (t2.opened seg)
        ((t2.opened seg).ack.signal .established none) := steady_ack.trans ⟨rfl, id⟩
    have hem : Emits False False [] 1 (t2.opened seg)
        ((t2.opened seg).ack.signal .established none) := emits_ack.trans (emits_signal _ _)
    obtain ⟨y, -, hy⟩ := hem 1 hest
    exact (Tcb.Due.transmit (hst.due hdue) hy.accounts).1
  | false =>
    rw [synSentSyn_crossed hx hs]
    exact timed_sendSynAck { hp with } h.seen rfl

theorem timed_inSynSent (hs : t.state = .synSent) : (t.inSynSent seg).Timed := by
  unfold Tcb.inSynSent
  split
  · split <;> exact h
  next hack =>
  split
  · split
    · exact timed_dead h _ _
    · exact h
  split
  · exact h
  · refine timed_synSentSyn h hx hs _ fun ha => ?_
    exact hx.synSent_ack hs ha hack

theorem timed_segment (now : Option Int) (hlap : t.lapsSyn seg = false)
    (hg : t.Heard seg) : (t.segment seg now).Timed := by
  have h1 : (t.attime now).Timed := h
  have hx1 : Accounts W u x (t.attime now).half := hx
  have hlap1 : (t.attime now).lapsSyn seg = false := hlap
  have hg1 : (t.attime now).Heard seg := ⟨fun hh => { hg.opens hh with }, hg.fin⟩
  exact segment_cases (fun _ => h1) (fun _ => timed_inListen h1)
    (fun hs => timed_inSynSent h1 hx1 hs)
    fun hi hs => timed_inSynchronized h1 hx1 hi hs hlap1 hg1

/-! ## Calls -/

theorem timed_write (hbuf : t.sndbuf < 2 ^ 31 - 1) (data : Bytes) (now : Option Int) :
    (t.write data now).2.Timed := by
  unfold Tcb.write
  have h1 : (t.attime now).Timed := h
  have hx1 : Accounts W u x (t.attime now).half := hx
  have hb1 : (t.attime now).sndbuf < 2 ^ 31 - 1 := hbuf
  generalize t.attime now = t1 at h1 hx1 hb1 ⊢
  simp only
  split
  · exact h1
  next n hr =>
  split
  · exact h1
  next hroom =>
  obtain ⟨hs, hp, hn⟩ := Tcb.writeRoom_some hr
  have hlen : (data.take n).length ≤ ((t1.sndbuf : Int) - t1.qlen).toNat := by
    rw [length_take, hn]
    omega
  have hx2 : Accounts (W ++ data.take n) u x { t1 with sndq := t1.sndq ++ data.take n }.half :=
    Accounts.append hx1 hs hp (hx1.short_of_room hs hp hb1 hlen)
  have hd : { t1 with sndq := t1.sndq ++ data.take n }.Due :=
    Duty.Due.grow (h1.due (State.flows hs).2.1) hs
      (by rw [length_append]; exact Nat.le_add_right _ _)
  exact (hd.transmit hx2).1

theorem timed_close (now : Option Int) : (t.close now).Timed := by
  unfold Tcb.close
  have h1 : (t.attime now).Timed := h
  have hx1 : Accounts W u x (t.attime now).half := hx
  generalize t.attime now = t1 at h1 hx1 ⊢
  simp only
  split
  · exact h1
  split
  · exact timed_of_idle { h1.paced with } h1.seen rfl
  split
  · exact timed_dead h1 _ _
  cases ho : t1.state.opening with
  | true =>
    have hno : ¬(t1.state = .established ∨ t1.state = .closeWait) :=
      fun hs => nomatch (State.flows hs).2.1.symm.trans ho
    have he : { t1 with finPending := true }.transmit = { t1 with finPending := true } := if_neg hno
    rw [he]
    exact { h1 with paced := { h1.paced with }, flow := fun hs => absurd hs hno }
  | false =>
    have hd := h1.due ho
    have hx2 : Accounts W u x { t1 with finPending := true }.half :=
      { hx1 with asked := fun _ => rfl, flow := fun h1 h2 => { hx1.flow h1 h2 with } }
    have hd2 : { t1 with finPending := true }.Due := { hd with paced := { hd.paced with } }
    exact (hd2.transmit hx2).1

end

theorem timed_read (max : Option Nat) : (t.read max).2.Timed := by
  unfold Tcb.read
  split
  · exact h
  simp only
  split
  · exact (Steady.trans ⟨rfl, id⟩ steady_ack).timed h
  · exact h

theorem timed_connect (now : Option Int) : (t.connect now).Timed := by
  unfold Tcb.connect
  have h1 : (t.attime now).Timed := h
  generalize t.attime now = t1 at h1 ⊢
  simp only
  split
  · exact h1
  · exact timed_syn
      (t := { t1 with
        passive := false, state := .synSent, sndUna := t1.iss, sndNxt := Tcp4.add t1.iss 1 })
      { h1.paced with } h1.seen rfl rfl _

theorem timed_listen : t.listen.Timed := by
  unfold Tcb.listen
  split
  · exact h
  · exact timed_of_idle { h.paced with } h.seen rfl

theorem timed_abort (now : Option Int) : (t.abort now).Timed := by
  unfold Tcb.abort
  have h1 : (t.attime now).Timed := h
  generalize t.attime now = t1 at h1 ⊢
  simp only
  split
  · exact timed_dead ((steady_send _ _ _ _).timed h1) _ _
  · exact timed_dead h1 _ _

end

/-! ## Runs -/

/-- What the calls have to meet: a connection that has sent its FIN or is in recovery is not opened
again, the queue is shorter than half the numbers, which do not come round to the first one, and the
windows the peer offers are not closed with its FIN, nor opened over a probe alone. -/
def Tcb.Guarded (t : Tcb) : Call → Prop
  | .connect _ | .listen => t.state = .closed → t.finSent = false ∧ t.inRecovery = false
  | .write _ _ => t.sndbuf < 2 ^ 31 - 1
  | .segment seg _ => t.lapsSyn seg = false ∧ t.Heard seg
  | _ => True

instance (t : Tcb) (seg : Seg) : Decidable (t.Opens seg) :=
  decidable_of_iff ((t.offered seg = 0 → t.state ≠ .closeWait) ∧
    (t.state = .established → t.retx = none → t.sndUna ≠ t.sndNxt →
      t.offered seg ≠ 0 → Tcp4.lt t.sndUna seg.ack = true ∨ t.MaySend (t.offered seg)))
    ⟨fun ⟨h1, h2⟩ => ⟨h1, h2⟩, fun h => ⟨h.closed, h.probed⟩⟩

instance (t : Tcb) (seg : Seg) : Decidable (t.Heard seg) :=
  decidable_of_iff ((t.heeds seg = true → t.Opens seg) ∧ (t.heeds seg = true → t.offered seg = 0 →
      t.state = .synReceived ∨ t.state = .established → seg.flags.fin = false ∧ t.awaits = false))
    ⟨fun ⟨h1, h2⟩ => ⟨h1, h2⟩, fun h => ⟨h.opens, h.fin⟩⟩

instance (t : Tcb) : (a : Call) → Decidable (t.Guarded a)
  | .connect _ | .listen => inferInstanceAs (Decidable (_ → _ ∧ _))
  | .write _ _ => inferInstanceAs (Decidable (_ < _))
  | .segment seg _ => inferInstanceAs (Decidable (_ ∧ t.Heard seg))
  | .close _ | .abort _ | .read _ | .tick _ | .take | .events => inferInstanceAs (Decidable True)

/-- There is a connection and something is outstanding, or queued and not sent, or a FIN was asked
for and is not sent. -/
def Tcb.Owes (t : Tcb) : Prop :=
  (t.state ≠ .closed ∧ t.state ≠ .listen) ∧
    (t.sndUna ≠ t.sndNxt ∨ 0 < t.unsent ∨ t.finPending = true ∧ t.finSent = false)

instance (t : Tcb) : Decidable t.Owes := inferInstanceAs (Decidable ((_ ∧ _) ∧ (_ ∨ _ ∨ _)))

theorem timed_call (h : t.Timed) (hx : Accounts W u x t.half) (hg : t.Guarded a) :
    (t.call a).Timed := by
  cases a with
  | connect now => exact timed_connect h now
  | listen => exact timed_listen h
  | close now => exact timed_close h hx now
  | abort now => exact timed_abort h now
  | write data now => exact timed_write h hx hg data now
  | read max => exact timed_read h max
  | tick now => exact timed_tick h hx now
  | segment seg now => exact timed_segment h hx now hg.1 hg.2
  | take | events => exact h

theorem guarded_accounts (hx : Accounts W u x t.half) (hg : t.Guarded a) :
    ∃ W u x, Accounts W u x (t.call a).half := by
  rcases em (a = .take) with rfl | hne
  · exact ⟨W, u, x, hx⟩
  · have hgo : Goes False False (t.stream W ++ t.accepts a) x t (t.call a) := by
      refine call_goes hx hne ?_ ?_ ?_ ?_
      · rintro (rfl | ⟨now, rfl⟩) <;> exact hg
      · rintro data now rfl hi
        exact hx.short_of_write hi hg
      · rintro now rfl _
        exact ⟨nofun, nofun⟩
      · rintro seg now rfl
        exact ⟨hg.1, nofun, nofun⟩
    obtain ⟨v, y, hy, -⟩ := hgo
    exact ⟨_, v, y, hy.accounts⟩

theorem run_timed (h : Run Tcb.Guarded t) : t.Timed ∧ ∃ W u x, Accounts W u x t.half := by
  refine Runs.invariant (I := fun t : Tcb => t.Timed ∧ ∃ W u x, Accounts W u x t.half) ?_ ?_ h
  · rintro _ ⟨cfg, rfl⟩
    exact ⟨timed_of_idle ⟨(by decide : 1 ≤ Tcp4.mssDefault), (by decide : 1 ≤ ssthreshInit), nofun⟩
      nofun rfl, [], 0, 0, .new cfg⟩
  · rintro t a ⟨ht, W, u, x, hx⟩ hg
    exact ⟨timed_call ht hx hg, guarded_accounts hx hg⟩

theorem deadline_of_timer (h : t.retx.isSome = true ∨ t.persist.isSome = true) :
    t.deadline ≠ none := fun hd => by
  obtain ⟨-, h2, h3, -⟩ := deadline_eq_none.mp hd
  rw [h2, h3] at h
  rcases h with h | h <;> cases h

/-- In every state of a guarded run, what is owed has a timer. -/
theorem run_owes_timer (h : Run Tcb.Guarded t) (ho : t.Owes) : t.deadline ≠ none := by
  obtain ⟨ht, W, u, x, hx⟩ := run_timed h
  obtain ⟨⟨hc, hl⟩, howes⟩ := ho
  refine deadline_of_timer ?_
  have hi : t.half.state.idle = false := by
    show t.state.idle = false
    revert hc hl
    cases t.state <;> simp [State.idle]
  have hfl : t.sndUna ≠ t.sndNxt → t.flight ≠ 0 := fun hne hz => hne <| by
    rw [hx.flight] at hz
    rw [hx.sndUna, hx.sndNxt,
      show u = x by omega]
  cases hop : t.state.opening with
  | true => exact .inl (ht.opening hop)
  | false =>
    have hopen := hx.flow hi hop
    have hfin : t.finSent = t.state.said := hopen.fin
    cases hs : t.state.said with
    | false =>
      -- data flows
      have hst : t.state = .established ∨ t.state = .closeWait := by
        revert hc hl hop hs
        cases t.state <;> simp [State.opening, State.said]
      have hf := ht.flow hst
      have hun : 0 < t.unsent → t.retx.isSome = true ∨ t.persist.isSome = true := fun hu =>
        (hf.unsent hu).elim hf.flight .inr
      rcases howes with h1 | h1 | ⟨h1, -⟩
      · exact hf.flight (hfl h1)
      · exact hun h1
      · exact (hf.fin h1).elim hun .inr
    | true =>
      have hsent : t.finSent = true := hfin.trans hs
      rcases howes with h1 | h1 | ⟨-, h1⟩
      · have he : t.state.ending = true := by
          have htold : ¬t.state.told = true :=
            fun htold => hfl h1 (by rw [hx.flight, hopen.told htold, Int.sub_self])
          revert hs htold
          cases t.state <;> simp [State.said, State.told, State.ending]
        exact (ht.ending he (hfl h1)).imp_right And.left
      · exact absurd ((hx.unsent h1).2.1.symm.trans hsent) Bool.false_ne_true
      · exact absurd (h1.symm.trans hsent) Bool.false_ne_true

theorem threeBytes_timer :
    ((threeBytes 1000).foldl Tcb.call opened.t).Owes ∧
    ((threeBytes 1000).foldl Tcb.call opened.t).deadline ≠ none := by
  have hrun : Run Tcb.Guarded ((threeBytes 1000).foldl Tcb.call opened.t) :=
    Runs.along (.init ⟨_, rfl⟩)
      (by decide +kernel : Runs.Along Tcb.Guarded Tcb.call opened.t (threeBytes 1000))
  have ho : ((threeBytes 1000).foldl Tcb.call opened.t).Owes := by decide +kernel
  exact ⟨ho, run_owes_timer hrun ho⟩

/-- A byte for a peer that closed its window, and then the peer's FIN. -/
def shutWindow : List Call :=
  [.connect (some 0), .tick (some 1000),
    .segment ⟨2, 1, 500, 101, { Flags.none with syn := true, ack := true }, 0, [], none⟩ (some 1000),
    .write [1] (some 1000),
    .segment ⟨2, 1, 501, 101, { Tcb.ackFlags with fin := true }, 0, [], none⟩ (some 1000)]

/-- The byte is left in CLOSE-WAIT with no timer. -/
theorem shutWindow_waits :
    Run (fun _ _ => True) (shutWindow.foldl Tcb.call opened.t) ∧
    (shutWindow.foldl Tcb.call opened.t).state = .closeWait ∧
      (shutWindow.foldl Tcb.call opened.t).Owes ∧
      (shutWindow.foldl Tcb.call opened.t).deadline = none :=
  ⟨Runs.along (.init ⟨_, rfl⟩) (by decide +kernel), by decide +kernel⟩

end

end Nlos.Tcp
