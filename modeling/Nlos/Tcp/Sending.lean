import Nlos.Tcp.Accounts

/-!
# What each method sends

One lemma for each method that sends or that changes the sending half: it keeps the accounts, and
what it puts on the wire is sound.
-/

namespace Nlos.Tcp

open Serial (shift)
open List

/-! ## One segment -/

def Tcb.segOf (t : Tcb) (flags : Flags) (data : Bytes) (seq : Option Seq)
    (opt : Option Opt) : Seg :=
  { sport := t.lport, dport := t.rport, seq := seq.getD t.sndNxt, ack := t.rcvNxt, flags := flags,
    wnd := BitVec.ofNat 16 t.window, data := data, opt := opt }

namespace Accounts

variable {W : Bytes} {u x : Nat} {s : Half}

/-- The timer may be set while something is not acknowledged. -/
theorem arm (h : Accounts W u x s) {b : Bool} (hb : s.finSent = true → b = true → u < x) :
    Accounts W u x { s with armed := b } :=
  { h with rest := hb, flow := fun h1 h2 => { h.flow h1 h2 with } }

end Accounts

section Methods

variable {A B : Prop} {W : Bytes} {u : Nat} {t : Tcb}

theorem send_half (flags : Flags) (data : Bytes) (seq : Option Seq) (opt : Option Opt) :
    (t.send flags data seq opt).half =
      { t.half with armed := t.retx.isSome || decide (0 < (t.segOf flags data seq opt).seglen) } := by
  show Half.mk .. = _
  congr 1
  show (if 0 < (t.segOf flags data seq opt).seglen then t.retx.or (some (t.now + t.rto)) else t.retx).isSome = _
  split
  next h => cases t.retx <;> simp [h]
  next h => simp [h]

variable {flags : Flags} {seg : Seg}

theorem emits_bare (hs : flags.syn = false) (hf : flags.fin = false) (opt : Option Opt) :
    Emits A B W u t (t.send flags [] none opt) := by
  have hlen : (t.segOf flags [] none opt).seglen = 0 := by
    show 0 + (if flags.syn = true then 1 else 0) + (if flags.fin = true then 1 else 0) = 0
    rw [hs, hf]
    rfl
  refine .one rfl rfl id fun x hx =>
    ⟨x, Nat.le_refl x, ?_, .inr ⟨x, hx.le, ?_, fun _ => ?_, fun _ h => ?_⟩⟩
  · rw [send_half, hlen]
    refine hx.arm fun h1 h2 => hx.rest h1 ?_
    rwa [decide_eq_false (Nat.lt_irrefl 0), Bool.or_false] at h2
  · exact ⟨hx.nxt, fun h => absurd rfl h, fun h => nomatch hs.symm.trans h⟩
  · exact Nat.le_of_eq (congrArg (x + ·) hlen)
  · exact nomatch hf.symm.trans h

theorem emits_ack : Emits A B W u t t.ack := by
  unfold Tcb.ack
  split <;> exact emits_bare rfl rfl _

theorem emits_reset (a : Seq) : Emits A B W u t (t.reset a) :=
  .one rfl rfl id fun x hx => ⟨x, Nat.le_refl x, hx, .inl rfl⟩

theorem emits_signal (k : Kind) (why : Option String) : Emits A B W u t (t.signal k why) :=
  .quiet rfl rfl

theorem emits_dead (k : Kind) (why : Option String) : Emits A B W u t (t.dead k why) := by
  exact .still rfl rfl rfl fun hx => { hx with
    off := Nat.le_refl 0
    cc := nofun
    idle := fun _ => rfl
    listen := nofun
    opening := nofun
    flow := nofun }

/-! ## New data -/

theorem Accounts.unsent {x : Nat} (h : Accounts W u x t.half) (hu : 0 < t.unsent) :
    t.half.Open W u x ∧ t.finSent = false ∧ 1 ≤ x ∧ t.unsent = (W.length : Int) + 1 - x := by
  have hle := h.le
  have hun : t.unsent = t.queue.length - ((x : Int) - u) := by
    unfold Tcb.unsent
    rw [h.qlen, h.flight]
  have ho : t.half.Open W u x := h.open_of_queue fun hq => by
    rw [hun, hq, length_nil] at hu
    omega
  have hone := ho.one
  have hlen := ho.queue_length
  have hfin : t.finSent = false := Bool.eq_false_iff.mpr fun hf => by
    have := (ho.said hf).1
    omega
  exact ⟨ho, hfin, by omega, by omega⟩

theorem Accounts.qsub_next {x : Nat} (h : Accounts W u x t.half)
    (ho : t.half.Open W u x) (n : Nat) :
    t.qsub (t.flight + 1).toNat (t.flight + n).toNat = (W.drop (x - 1)).take n := by
  have hle := h.le
  have h1 : (t.flight + 1).toNat = x - u + 1 := by rw [h.flight]; omega
  have h2 : (t.flight + n).toNat = x - u + n := by rw [h.flight]; omega
  rw [h1, h2, Tcb.qsub_eq _ _ (Nat.le_add_left 1 _), Nat.add_sub_cancel, ho.queue_drop]
  congr 2 <;> omega

theorem emits_next {n : Nat} (hs : flags.syn = false) (hf : flags.fin = false) (hu : 0 < t.unsent)
    (hn : (n : Int) ≤ t.unsent) : Emits A B W u t
      { t.send flags (t.qsub (t.flight + 1).toNat (t.flight + n).toNat) none none with
        sndNxt := Tcp4.add t.sndNxt n } := by
  refine .one rfl rfl id fun x hx => ?_
  obtain ⟨ho, hfin, hx1, hun⟩ := hx.unsent hu
  have hle := hx.le
  have hshort := ho.short
  have hdata := hx.qsub_next ho n
  have hlen : ((W.drop (x - 1)).take n).length = n := by
    rw [length_take, length_drop]
    omega
  refine ⟨x + n, Nat.le_add_right x n, ?_,
    .inr ⟨x, hx.le, ⟨hx.nxt, fun _ => ⟨hx1, ?_⟩, ?_⟩, fun _ => ?_, fun _ h => ?_⟩⟩
  · have hnxt : Tcp4.add t.sndNxt n = shift t.iss (x + n) := by
      rw [hx.sndNxt, Tcp4.add_eq_shift, Serial.shift_shift]
    have hfree : ∀ {P : Prop}, t.finSent = true → P := fun hf => nomatch hfin.symm.trans hf
    exact { hx with
      nxt := hnxt
      le := by omega
      near := by omega
      rest := fun hf _ => hfree hf
      opening := fun hop => by
        have := (hx.opening hop).2.2.1
        have := ho.one
        omega
      flow := fun _ _ => { ho with
        unsaid := fun _ => by omega
        said := hfree
        told := fun ht => hfree (ho.fin.trans (State.said_of_told ht))
        recover := fun hr => by
          obtain ⟨v, h1, h2, h3⟩ := ho.recover hr
          exact ⟨v, h1, by omega, h3⟩ } }
  · rw [hdata]
    exact take_prefix n _
  · intro h
    exact nomatch hs.symm.trans h
  · show x + ((t.qsub _ _).length + (if flags.syn = true then 1 else 0) + (if flags.fin = true then 1 else 0)) ≤ x + n
    rw [hdata, hlen, hs, hf]
    exact Nat.le_refl _
  · exact nomatch hf.symm.trans h

theorem emits_sendNext {n : Int} (h0 : 0 ≤ n) (hu : 0 < t.unsent) (hn : n ≤ t.unsent) :
    Emits A B W u t (t.sendNext n) := by
  obtain ⟨m, rfl⟩ := Int.eq_ofNat_of_zero_le h0
  exact emits_next rfl rfl hu hn

theorem emits_updatePersist : Emits A B W u t t.updatePersist := by
  unfold Tcb.updatePersist
  split
  · split
    · exact .refl
    · exact .quiet rfl rfl
  · exact .quiet rfl rfl

theorem emits_transmitLoop (fuel : Nat) : Emits A B W u t (Tcb.transmitLoop fuel t) := by
  induction fuel generalizing t with
  | zero => exact .refl
  | succ fuel ih =>
    rw [Tcb.transmitLoop]
    split
    · exact emits_updatePersist
    next h =>
    exact (emits_sendNext (by omega) (by omega) (by omega)).trans ih

theorem emits_fin {s' : State} (hs : t.state = .established ∨ t.state = .closeWait)
    (hp : t.finPending = true)
    (hf : t.finSent = false) (hu : t.unsent ≤ 0) (hs' : s' = .lastAck ∨ s' = .finWait1) :
    Emits A B W u t { t.sendFin with state := s' } := by
  refine .one rfl rfl (fun _ => rfl) fun x hx => ?_
  have hi : t.state.idle = false := (State.flows hs).1
  have ho : t.half.Open W u x := hx.flow hi (State.flows hs).2.1
  have hx1 : x = W.length + 1 := by
    have h1 := hx.le
    have h2 := ho.unsaid hf
    have h3 := ho.queue_length
    have h4 := ho.one
    unfold Tcb.unsent at hu
    rw [hx.qlen, hx.flight] at hu
    omega
  have hle := hx.le
  have hshort := ho.short
  refine ⟨x + 1, Nat.le_succ x, ?_,
    .inr ⟨x, hx.le, ⟨hx.nxt, fun h => absurd rfl h, nofun⟩, fun _ => Nat.le_refl _,
      fun _ _ => ⟨rfl, hx1⟩⟩⟩
  have hnxt : Tcp4.add t.sndNxt 1 = shift t.iss (x + 1) := by
    rw [hx.sndNxt, Tcp4.add_eq_shift, Serial.shift_shift]
  have hseq : some t.sndNxt = some (shift t.iss (W.length + 1)) := by
    rw [← hx1]; exact congrArg some hx.nxt
  have hcc : t.half.cc = true := by
    refine hx.cc hi ?_
    show t.state ≠ .synSent
    rcases hs with h | h <;> rw [h] <;> decide
  have hflow : Half.Open W u (x + 1) { t.sendFin with state := s' }.half := { ho with
    unsaid := nofun
    said := fun _ => ⟨by omega, hseq⟩
    fin := by rcases hs' with rfl | rfl <;> rfl
    told := by rcases hs' with rfl | rfl <;> nofun
    recover := fun hr => by
      obtain ⟨v, h1, h2, h3⟩ := ho.recover hr
      exact ⟨v, h1, by omega, h3⟩ }
  exact { hx with
    nxt := hnxt
    le := by omega
    near := by omega
    asked := fun _ => hp
    unseq := nofun
    rest := fun _ _ => by omega
    cc := fun _ _ => hcc
    idle := by rcases hs' with rfl | rfl <;> nofun
    listen := by rcases hs' with rfl | rfl <;> nofun
    opening := by rcases hs' with rfl | rfl <;> nofun
    flow := fun _ _ => hflow }

theorem transmitLoop_frame (fuel : Nat) : (Tcb.transmitLoop fuel t).state = t.state := by
  induction fuel generalizing t with
  | zero => rfl
  | succ fuel ih =>
    rw [Tcb.transmitLoop]
    split
    · unfold Tcb.updatePersist
      split
      · split <;> rfl
      · rfl
    · exact ih

theorem emits_followFin (hs : t.state = .established ∨ t.state = .closeWait) :
    Emits A B W u t t.followFin := by
  unfold Tcb.followFin
  split
  next h =>
    refine emits_fin hs h.1 h.2.1 h.2.2 ?_
    split
    · exact .inl rfl
    · exact .inr rfl
  · exact .refl

theorem emits_transmit : Emits A B W u t t.transmit := by
  unfold Tcb.transmit
  split
  · refine (emits_transmitLoop _).trans (emits_followFin ?_)
    rwa [transmitLoop_frame]
  · exact .refl

/-! ## Old data -/

/-- What would go out first again has all been sent. -/
def Tcb.Covered (t : Tcb) : Prop := t.finSent = true ∨ min t.qlen t.sndMss ≤ t.flight

theorem resendData_eq : t.resendData = t.queue.take (min t.qlen t.sndMss).toNat := by
  unfold Tcb.resendData
  split
  · rfl
  next h => rw [Int.toNat_of_nonpos (Int.not_lt.mp h), take_zero]

theorem Half.Open.queue_said {x : Nat} (ho : t.half.Open W u x) (hf : t.finSent = true)
    (hl : u < x) : u + t.queue.length = W.length + 1 ∧ u + t.queue.length + 1 = x := by
  have h1 := ho.queue_length
  have h2 := (ho.said hf).1
  have h3 := ho.one
  omega

theorem Accounts.queue_said {x : Nat} (h : Accounts W u x t.half) (hf : t.finSent = true)
    (hl : u < x) : u + t.queue.length + 1 ≤ x := by
  rcases eq_nil_or_concat t.queue with hq | ⟨_, _, hq⟩
  · rw [hq]
    exact hl
  · exact Nat.le_of_eq ((h.open_of_queue (by simp [hq])).queue_said hf hl).2

/-- What goes out again ends where it ended before. -/
theorem Accounts.resend_le {x : Nat} (h : Accounts W u x t.half) (hl : t.finSent = true → u < x)
    (hc : t.Covered) : u + (t.resendData.length + (if t.resendFlags.fin then 1 else 0)) ≤ x := by
  have hle := h.le
  have hlen : t.resendData.length ≤ t.queue.length := by
    rw [resendData_eq]; exact length_take_le' _ _
  cases hf : t.finSent with
  | true =>
    have := h.queue_said hf (hl hf)
    split <;> omega
  | false =>
    rw [Tcb.resendFlags, hf]
    show u + (t.resendData.length + 0) ≤ x
    have hn : min t.qlen t.sndMss ≤ t.flight := hc.resolve_left (by simp [hf])
    have : t.resendData.length ≤ (min t.qlen t.sndMss).toNat := by
      rw [resendData_eq]; exact length_take_le _ _
    rw [h.flight] at hn
    omega

theorem Accounts.open_of_finSent {x : Nat} (h : Accounts W u x t.half) (hf : t.finSent = true)
    (hc : t.state ≠ .closed) : t.half.Open W u x := by
  have hfree : ∀ {P : Prop}, t.finSent = false → P := fun h => nomatch h.symm.trans hf
  refine h.flow ?_ ?_
  · show t.state.idle = false
    cases hs : t.state <;> first | rfl | skip
    · exact absurd hs hc
    · exact hfree (h.listen hs).1
  · exact Bool.eq_false_iff.mpr fun hop => hfree (h.opening hop).2.2.2.2.1

theorem emits_resend (hl : t.finSent = true → 0 < t.flight) (ha : A → t.Covered)
    (hb : B → t.state ≠ .closed) : Emits A B W u t t.resend := by
  unfold Tcb.resend
  split
  · exact .refl
  refine .one rfl rfl id fun x hx => ?_
  have hl' : t.finSent = true → u < x := fun hf => hx.lt_of_flight (hl hf)
  refine ⟨x, Nat.le_refl x, ?_, .inr ⟨u, Nat.le_refl u, ⟨hx.una, fun hd => ?_, nofun⟩, fun a => ?_, fun b hfin => ?_⟩⟩
  · exact hx.arm fun hf _ => hl' hf
  · have hd' : t.resendData ≠ [] := hd
    rw [resendData_eq] at hd'
    have ho := hx.open_of_queue fun hq => hd' (by rw [hq, take_nil])
    refine ⟨ho.one, ?_⟩
    rw [resendData_eq, show t.queue = W.drop (u - 1) from ho.queue]
    exact take_prefix _ _
  · exact hx.resend_le hl' (ha a)
  · -- the FIN goes along where all of the queue does
    obtain ⟨hf, hn⟩ := Bool.and_eq_true_iff.mp hfin
    have ho := hx.open_of_finSent hf (hb b)
    refine ⟨hf, ?_⟩
    have hq : (t.queue.length : Int).toNat = t.queue.length := rfl
    rw [resendData_eq, eq_of_beq hn, hx.qlen, hq, take_length]
    exact (ho.queue_said hf (hl' hf)).1

theorem emits_resendFirst (hl : t.finSent = true → 0 < t.flight) (ha : A → t.Covered)
    (hb : B → t.state ≠ .closed) : Emits A B W u t t.resendFirst := by
  unfold Tcb.resendFirst
  split
  · exact .refl
  · exact (emits_resend hl ha hb).trans (.quiet rfl rfl)

theorem emits_limitedTransmit : Emits A B W u t t.limitedTransmit := by
  unfold Tcb.limitedTransmit
  split
  · exact .refl
  split
  · exact .refl
  next hu =>
  split
  · exact .refl
  split
  · exact .refl
  have h0 : 0 ≤ min t.unsent t.sndMss := by omega
  obtain ⟨m, hm⟩ := Int.eq_ofNat_of_zero_le h0
  simp only [hm]
  exact emits_next rfl rfl (Int.not_le.mp hu) (by omega)

theorem emits_disarm {t' : Tcb} (h : t'.half = { t.half with armed := false })
    (ho : t'.out = t.out) : Emits A B W u t t' := by
  intro x hx
  refine ⟨x, Nat.le_refl x, h ▸ hx.arm (fun _ h => nomatch h), congrArg Half.iss h, fun hf => ?_, [], ?_, by simp⟩
  · exact (congrArg Half.finSent h).trans hf
  · rw [ho, append_nil]

theorem emits_probe : Emits A B W u t t.probe := by
  refine .of_accounts fun x hx => ?_
  have hle := hx.le
  have h1 : t.qsub 1 1 = t.queue.take 1 := Tcb.qsub_eq _ _ (Nat.le_refl 1)
  have h2 : t.qsub (t.flight + 1).toNat (t.flight + 1).toNat = (t.queue.drop (x - u)).take 1 := by
    have hn : (t.flight + 1).toNat = x - u + 1 := by rw [hx.flight]; omega
    rw [hn, Tcb.qsub_eq _ _ (Nat.le_add_left 1 _), Nat.add_sub_cancel, Nat.add_sub_cancel_left]
  unfold Tcb.probe
  simp only
  split
  · exact .quiet rfl rfl
  next hne =>
  split
  next hoct =>
    -- everything was sent, and the first byte goes again
    rw [h2, take_eq_nil_iff, drop_eq_nil_iff] at hoct
    have hq : t.queue ≠ [] :=
      fun hq => hne ⟨by rw [h2, hq, drop_nil, take_nil], by rw [h1, hq, take_nil]⟩
    have ho := hx.open_of_queue hq
    have hpos := length_pos_iff.mpr hq
    have hfirst : Emits A B W u t (t.send Tcb.ackFlags (t.qsub 1 1) (some t.sndUna) none) := by
      refine .one rfl rfl id fun y hy => ?_
      have hu : u < y := by
        have h3 := hx.flight
        rw [hy.flight] at h3
        omega
      refine ⟨y, Nat.le_refl y, ?_, .inr ⟨u, Nat.le_refl u, ⟨hy.una, fun _ => ⟨ho.one, ?_⟩, nofun⟩, fun _ => ?_, nofun⟩⟩
      · exact hy.arm fun _ _ => hu
      · rw [h1, show t.queue = W.drop (u - 1) from ho.queue]
        exact take_prefix _ _
      · show u + ((t.qsub 1 1).length + 0 + 0) ≤ y
        rw [h1, length_take]
        omega
    exact hfirst.trans (emits_disarm rfl rfl)
  next hoct =>
    rw [h2, take_eq_nil_iff, drop_eq_nil_iff] at hoct
    have hu : 1 ≤ t.unsent := by
      unfold Tcb.unsent
      rw [hx.qlen, hx.flight]
      omega
    exact (emits_next rfl rfl hu hu).trans (emits_disarm rfl rfl)

/-! ## Acknowledgments and timeouts -/

/-- Recovery is entered with something outstanding. -/
theorem emits_recover (ssthresh : Int) (hi : t.state.idle = false) (hp : t.state.opening = false)
    (hl : 0 < t.flight) :
    Emits A B W u t { t with recover := t.sndNxt, inRecovery := true, ssthresh := ssthresh } := by
  exact .still rfl rfl rfl fun {x} hx => { hx with
    listen := fun hs => nomatch hi.symm.trans (congrArg State.idle hs)
    opening := fun hs => nomatch hp.symm.trans hs
    flow := fun h1 h2 =>
      { hx.flow h1 h2 with recover := fun _ => ⟨x, hx.lt_of_flight hl, Nat.le_refl x, hx.nxt⟩ } }

theorem emits_cwnd (cwnd : Option Int) (h : cwnd.isSome = true) :
    Emits A B W u t { t with cwnd := cwnd } := by
  exact .still rfl rfl rfl fun hx =>
    { hx with cc := fun _ _ => h, flow := fun h1 h2 => { hx.flow h1 h2 with } }

theorem emits_fastRetransmit (hi : t.state.idle = false) (hp : t.state.opening = false)
    (hl : 0 < t.flight) (ha : A → Tcp4.gt t.sndUna t.recover = true → t.Covered) :
    Emits A B W u t t.fastRetransmit := by
  unfold Tcb.fastRetransmit
  split
  next hg =>
    have h1 :=
      emits_recover (A := A) (B := B) (W := W) (u := u) (max (t.flight / 2) (2 * t.sndMss)) hi hp hl
    exact (h1.trans
      (emits_resendFirst (fun _ => hl) (fun a => ha a hg) (fun _ => State.ne_closed hi))).trans
        (emits_cwnd _ rfl)
  · exact .refl

/-- A duplicate acknowledgment that makes the first segment go out again. -/
def Tcb.thirdDupack (t : Tcb) (seg : Seg) : Bool :=
  t.isDupack seg && t.dupacks + 1 == dupackThresh && Tcp4.gt t.sndUna t.recover

theorem map_cwnd_half (f : Int → Int) : { t with cwnd := t.cwnd.map f }.half = t.half := by
  show Half.mk .. = Half.mk ..
  congr 1
  exact Option.isSome_map

theorem emits_onDupack (hi : t.state.idle = false) (hp : t.state.opening = false)
    (hd : t.isDupack seg = true)
    (ha : A → t.thirdDupack seg = true → t.Covered) : Emits A B W u t t.onDupack := by
  have hl : 0 < t.flight := by
    exact of_decide_eq_true (Bool.and_eq_true_iff.mp hd).2
  have h1 : Emits A B W u t { t with dupacks := t.dupacks + 1 } := .quiet rfl rfl
  unfold Tcb.onDupack
  simp only
  refine h1.trans ?_
  split
  · exact emits_limitedTransmit
  split
  next hthird =>
    refine emits_fastRetransmit hi hp hl fun a hg => ha a ?_
    unfold Tcb.thirdDupack
    rw [hd, hthird]
    exact hg
  split
  · exact Emits.trans (.quiet (map_cwnd_half _) rfl) emits_transmit
  · exact .refl

/-- Where the round trip is sampled, only the estimators change. -/
theorem ackedRtt_half (seg : Seg) :
    (t.ackedRtt seg).half = t.half ∧ (t.ackedRtt seg).out = t.out := by
  unfold Tcb.ackedRtt
  split
  · split <;> exact ⟨rfl, rfl⟩
  · exact ⟨rfl, rfl⟩

theorem Accounts.outstanding {x : Nat} (hx : Accounts W u x t.half) :
    Tcp4.lt t.sndUna t.sndNxt = true ↔ u < x := by
  have hle := hx.le
  have hnear := hx.near
  rw [hx.sndUna, hx.sndNxt]
  exact Tcp4.lt_shift t.iss (by omega) (by omega)

theorem restartTimer_armed : t.restartTimer.retx.isSome = Tcp4.lt t.sndUna t.sndNxt := by
  unfold Tcb.restartTimer
  cases Tcp4.lt t.sndUna t.sndNxt <;> rfl

/-- The timer behind an acknowledgment runs where something is outstanding. -/
theorem emits_restartTimer : Emits A B W u t t.restartTimer := by
  refine .still rfl rfl rfl fun hx => hx.arm fun _ h => hx.outstanding.mp ?_
  rwa [restartTimer_armed] at h

theorem emits_ackedRtt (seg : Seg) : Emits A B W u t (t.ackedRtt seg) :=
  .quiet (ackedRtt_half seg).1 (ackedRtt_half seg).2

/-- An acknowledgment that leaves some of what recovery is about, and so sends the first segment
again. -/
def Tcb.partialAck (t : Tcb) (seg : Seg) : Bool := t.inRecovery && !Tcp4.ge seg.ack t.recover

/-- The accounts right behind an acknowledgment, where it is not known yet whether recovery is over
and the timer has to run. -/
structure Advanced (W : Bytes) (u x : Nat) (t : Tcb) : Prop where
  accounts : Accounts W u x { t with inRecovery := false, retx := none }.half
  recover : t.inRecovery = true → ∃ v, v ≤ x ∧ u < v + 2 ^ 31 ∧ t.recover = shift t.iss v
  idle : t.state.idle = false
  opening : t.state.opening = false
  cc : t.cwnd.isSome = true

theorem Advanced.goes_on {x : Nat} (h : Advanced W u x t) (hs : seg.ack = t.sndUna)
    (hp : t.partialAck seg = true) : Accounts W u x t.half ∧ u < x := by
  obtain ⟨hr, hge⟩ := Bool.and_eq_true_iff.mp hp
  obtain ⟨v, hv, hnear, hrec⟩ := h.recover hr
  have huv : u < v := by
    rw [hs, h.accounts.sndUna, hrec, Bool.not_eq_true'] at hge
    by_contra hcon
    rw [(Tcp4.ge_shift t.iss (by omega) (by omega)).mpr (Nat.not_lt.mp hcon)] at hge
    cases hge
  refine ⟨{ h.accounts with
    rest := fun _ _ => by omega
    listen := fun hs => nomatch h.idle.symm.trans (congrArg State.idle hs)
    opening := fun hs => nomatch h.opening.symm.trans hs
    flow := fun h1 h2 =>
      { h.accounts.flow h1 h2 with recover := fun _ => ⟨v, huv, hv, hrec⟩ } }, by omega⟩

theorem Advanced.ackedCc {x : Nat} (h : Advanced W u x t) (n : Int) (hs : seg.ack = t.sndUna)
    (ha : A → t.partialAck seg = true → t.Covered) :
    ∃ y, x ≤ y ∧ Sends A B W u y t { t.ackedCc seg n with retx := none } := by
  obtain ⟨cwnd, hc⟩ := Option.isSome_iff_exists.mp h.cc
  -- without recovery, or at its end, only the window changes
  have hcalm : ∀ c,
      Sends A B W u x t { t with cwnd := some c, inRecovery := false, retx := none } := fun c =>
    .still rfl rfl rfl { h.accounts with cc := fun _ _ => rfl, flow := fun h1 h2 => { h.accounts.flow h1 h2 with } }
  unfold Tcb.ackedCc
  simp only [hc]
  split
  next hr =>
    split
    · exact ⟨x, Nat.le_refl x, hcalm _⟩
    next hge =>
    have hp : t.partialAck seg = true := by simp [Tcb.partialAck, hr, hge]
    obtain ⟨hx, hux⟩ := h.goes_on hs hp
    have hl : 0 < t.flight := by
      rw [hx.flight]
      omega
    have he : Emits A B W u t t.resendFirst :=
      emits_resendFirst (fun _ => hl) (fun a => ha a hp) (fun _ => State.ne_closed h.idle)
    have hw : ∀ c,
        Emits A B W u t.resendFirst { t.resendFirst with cwnd := some c, retx := none } := fun c =>
      (emits_cwnd (some c) rfl).trans (emits_disarm rfl rfl)
    exact he.trans (hw _) x hx
  next hr =>
    rw [Bool.not_eq_true] at hr
    have hcalm' : ∀ c, Sends A B W u x t { t with cwnd := some c, retx := none } :=
      fun c => hr ▸ hcalm c
    split <;> exact ⟨x, Nat.le_refl x, hcalm' _⟩

/-- The timer behind an acknowledgment does not depend on the one in front. -/
theorem acked_eq (seg : Seg) (n : Int) :
    t.acked seg n =
      ({ t.ackedCc seg n with retx := none, dupacks := 0 }.ackedRtt seg).restartTimer := by
  unfold Tcb.acked Tcb.ackedRtt
  simp only
  split
  · split <;> rfl
  · rfl

theorem Advanced.acked {x : Nat} (h : Advanced W u x t) (n : Int) (hs : seg.ack = t.sndUna)
    (ha : A → t.partialAck seg = true → t.Covered) :
    ∃ y, x ≤ y ∧ Sends A B W u y t (t.acked seg n) := by
  obtain ⟨y, hxy, hy⟩ := h.ackedCc n hs ha
  have h0 : Emits A B W u { t.ackedCc seg n with retx := none }
      { t.ackedCc seg n with retx := none, dupacks := 0 } :=
    .quiet rfl rfl
  obtain ⟨z, hyz, hz⟩ := (h0.trans ((emits_ackedRtt seg).trans emits_restartTimer)) y hy.accounts
  rw [acked_eq]
  exact ⟨z, hxy.trans hyz, hy.trans hz hyz⟩

/-! ## The retransmission timer -/

theorem emits_timeoutCc : Emits A B W u t t.timeoutCc := by
  unfold Tcb.timeoutCc
  split
  · exact .refl
  exact .still rfl rfl rfl fun hx => { hx with
    cc := fun _ _ => rfl
    listen := fun hs => ⟨(hx.listen hs).1, rfl⟩
    opening := fun hs => by
      obtain ⟨h1, h2, h3, h4, h5, _⟩ := hx.opening hs
      exact ⟨h1, h2, h3, h4, h5, rfl⟩
    flow := fun h1 h2 => { hx.flow h1 h2 with recover := nofun } }

theorem emits_syn (hs : flags.syn = true) (hf : flags.fin = false) (ho : t.state.opening = true)
    (opt : Option Opt) : Emits A B W u t (t.send flags [] (some t.iss) opt) := by
  refine .one rfl rfl id fun x hx => ?_
  obtain ⟨-, -, hu, hx1, hfin, -⟩ := hx.opening ho
  refine ⟨x, Nat.le_refl x, ?_,
    .inr
      ⟨0, Nat.le_of_eq hu,
        ⟨(Serial.shift_zero _).symm, fun h => absurd rfl h, fun _ => ⟨rfl, rfl, hf⟩⟩, fun _ =>
          ?_, fun _ h => ?_⟩⟩
  · exact hx.arm fun h => nomatch hfin.symm.trans h
  · show 0 + (0 + (if flags.syn = true then 1 else 0) + (if flags.fin = true then 1 else 0)) ≤ x
    rw [hs, hf, hx1]
    exact Nat.le_refl 1
  · exact nomatch hf.symm.trans h

theorem emits_retransmitSegment (hl : t.finSent = true → 0 < t.flight) (ha : A → t.Covered)
    (hb : B → t.state ≠ .closed) : Emits A B W u t t.retransmitSegment := by
  unfold Tcb.retransmitSegment
  split
  next hs => exact emits_syn rfl rfl (by rw [hs]; rfl) _
  next hs => exact emits_syn rfl rfl (by rw [hs]; rfl) _
  · exact emits_resend hl ha hb

theorem retransmitSegment_frame :
    t.retransmitSegment.finSent = t.finSent ∧ t.retransmitSegment.flight = t.flight := by
  unfold Tcb.retransmitSegment
  split
  · exact ⟨rfl, rfl⟩
  · exact ⟨rfl, rfl⟩
  · unfold Tcb.resend
    split <;> exact ⟨rfl, rfl⟩

theorem timeoutCc_frame :
    t.timeoutCc.finSent = t.finSent ∧ t.timeoutCc.flight = t.flight ∧ t.timeoutCc.qlen = t.qlen ∧
    t.timeoutCc.sndMss = t.sndMss ∧ t.timeoutCc.state = t.state := by
  unfold Tcb.timeoutCc
  split <;> exact ⟨rfl, rfl, rfl, rfl, rfl⟩

theorem emits_backOff (hl : t.finSent = true → 0 < t.flight) : Emits A B W u t t.backOff :=
  .still rfl rfl rfl fun hx => hx.arm fun hf _ => hx.lt_of_flight (hl hf)

theorem emits_resendOrGiveUp (hl : t.finSent = true → 0 < t.flight) (ha : A → t.Covered)
    (hb : B → t.state ≠ .closed) : Emits A B W u t t.resendOrGiveUp := by
  unfold Tcb.resendOrGiveUp
  split
  · exact emits_dead _ _
  refine (emits_retransmitSegment hl ha hb).trans (emits_backOff ?_)
  obtain ⟨f1, f2⟩ := retransmitSegment_frame
  rwa [f1, f2]

theorem emits_retransmit (hr : t.retx.isSome = true) (ha : A → t.Covered)
    (hb : B → t.state ≠ .closed) : Emits A B W u t t.retransmit := by
  refine .of_accounts fun x hx => ?_
  have hl : t.finSent = true → 0 < t.flight := fun hf => by
    have := hx.rest hf hr
    rw [hx.flight]
    omega
  have h1 : Emits A B W u t { t.timeoutCc with retries := t.retries + 1 } :=
    emits_timeoutCc.trans (.quiet rfl rfl)
  obtain ⟨e1, e2, e3, e4, e5⟩ := timeoutCc_frame
  refine h1.trans (emits_resendOrGiveUp ?_ ?_ ?_)
  · show t.timeoutCc.finSent = true → 0 < t.timeoutCc.flight
    rwa [e1, e2]
  · show A → t.timeoutCc.finSent = true ∨
      min t.timeoutCc.qlen t.timeoutCc.sndMss ≤ t.timeoutCc.flight
    rwa [e1, e2, e3, e4]
  · rwa [e5]

end Methods

end Nlos.Tcp
