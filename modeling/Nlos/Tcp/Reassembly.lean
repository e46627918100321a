import Nlos.Tcp.Wire

/-!
# What is read

The receiving half against the stream of the other end. Whatever of the other end's segments
arrives, in whatever order and however often, what was read followed by what waits to be read is the
stream up to some byte, and the next number expected is that of the byte behind it. The FIN is taken
at the end of the stream only.
-/

namespace Nlos.Tcp

open Serial (shift)
open List

/-! ## The half that receives -/

structure Inbox where
  rcvNxt : Seq
  rcvq : List Bytes
  rcvbytes : Nat
  ooo : List Held
  finRcvd : Bool
  finPending : Bool

def Tcb.inbox (t : Tcb) : Inbox := ⟨t.rcvNxt, t.rcvq, t.rcvbytes, t.ooo, t.finRcvd, t.finPending⟩

section

variable (V : Bytes) (fin : Bool) (iss : Seq)

/-- The segment carries a piece of the stream `V` and its FIN, if any, the end of it. -/
def Carries (g : Seg) : Prop :=
  ∃ p, Says V iss p g ∧ (g.flags.fin = true → fin = true ∧ p + g.data.length = V.length + 1)

def Piece (h : Held) : Prop :=
  ∃ p, 1 ≤ p ∧ h.seq = shift iss p ∧ p + h.data.length ≤ V.length + 1 ∧ h.data <+: V.drop (p - 1) ∧
    (h.fin = true → fin = true ∧ p + h.data.length = V.length + 1)

/-- With `r` bytes of the stream `V` in order, what was read is `R`. -/
structure Received (R : Bytes) (r : Nat) (b : Inbox) : Prop where
  next : b.rcvNxt = shift iss (1 + r + if b.finRcvd then 1 else 0)
  le : r ≤ V.length
  text : R ++ b.rcvq.flatten = V.take r
  bytes : b.rcvbytes = b.rcvq.flatten.length
  ended : b.finRcvd = true → fin = true ∧ r = V.length
  held : ∀ h ∈ b.ooo, Piece V fin iss h

end

section Text

variable {V R : Bytes} {fin : Bool} {iss : Seq} {r : Nat} {t : Tcb} {seg : Seg}

/-! ## One piece -/

section

variable (h : Received V fin iss R r t.inbox)

include h

variable {data : Bytes}

theorem Received.deliver (hd : data <+: V.drop r) (hf : data ≠ [] → t.finRcvd = false) :
    Received V fin iss R (r + data.length) (t.deliver data).inbox ∧
    (t.deliver data).finRcvd = t.finRcvd := by
  unfold Tcb.deliver
  split
  next he => exact ⟨he ▸ h, rfl⟩
  next he =>
  have hfin := hf he
  have hlen := hd.length_le
  rw [length_drop] at hlen
  have hle := h.le
  refine ⟨{ h with
    next := ?_
    le := by omega
    text := ?_
    bytes := ?_
    ended := fun hr => nomatch hfin.symm.trans hr }, rfl⟩
  · show Tcp4.add t.rcvNxt data.length =
      shift iss (1 + (r + data.length) + if t.finRcvd then 1 else 0)
    rw [show t.rcvNxt = _ from h.next, Tcp4.add_eq_shift, Serial.shift_shift]
    show shift iss (1 + r + (if t.finRcvd then 1 else 0) + data.length) = _
    congr 1
    omega
  · show R ++ (t.rcvq ++ [data]).flatten = _
    rw [flatten_append, flatten_singleton, ← append_assoc, show R ++ t.rcvq.flatten = _ from h.text,
      take_add]
    exact congrArg _ (prefix_iff_eq_take.mp hd)
  · show t.rcvbytes + data.length = (t.rcvq ++ [data]).flatten.length
    rw [flatten_append, flatten_singleton, length_append, show t.rcvbytes = _ from h.bytes]
    rfl

theorem Received.takeFin (hf : t.finRcvd = false) (hfin : fin = true) (hr : r = V.length) :
    Received V fin iss R r t.takeFin.inbox := by
  refine { h with next := ?_, ended := fun _ => ⟨hfin, hr⟩ }
  show Tcp4.add t.rcvNxt 1 = shift iss (1 + r + 1)
  rw [show t.rcvNxt = _ from h.next, Tcp4.add_eq_shift, Serial.shift_shift]
  show shift iss (1 + r + (if t.finRcvd then 1 else 0) + 1) = _
  rw [hf]
  rfl

theorem Received.hold (hg : Carries V fin iss seg) : Received V fin iss R r (t.hold seg).inbox := by
  unfold Tcb.hold
  split
  · exact h
  next hne =>
  split
  · exact h
  split
  · exact h
  refine { h with held := fun x hx => ?_ }
  rcases mem_append.mp hx with hx | hx
  · exact h.held x hx
  · rw [mem_singleton.mp hx]
    obtain ⟨p, hp, hfin⟩ := hg
    rcases eq_nil_or_concat seg.data with hd | ⟨_, _, hd⟩
    · -- a FIN on its own stands behind the last byte
      have hflag : seg.flags.fin = true := by
        by_contra hcon
        exact hne ⟨hd, Bool.eq_false_iff.mpr hcon⟩
      obtain ⟨h1, h2⟩ := hfin hflag
      rw [hd, length_nil] at h2
      exact ⟨p, by omega, hp.seq, by rw [hd, length_nil]; omega, by rw [hd]; exact nil_prefix,
        fun _ => ⟨h1, by rw [hd, length_nil]; omega⟩⟩
    · obtain ⟨h1, h2⟩ := hp.data (by simp [hd])
      have hlen := h2.length_le
      rw [length_drop] at hlen
      have hpos : 0 < seg.data.length := by simp [hd]
      exact ⟨p, h1, hp.seq, show p + seg.data.length ≤ _ by omega, h2, hfin⟩

/-- What is left of a piece that starts at or in front of the byte that is expected. -/
theorem Received.rest {p : Nat} (h1 : 1 ≤ p)
    (hd : data <+: V.drop (p - 1)) {i : Nat} (hoff : p + i = 1 + r + if t.finRcvd then 1 else 0) :
    data.drop i <+: V.drop r ∧ (data.drop i ≠ [] → t.finRcvd = false) := by
  have hpre : data.drop i <+: V.drop (p - 1 + i) := by
    have := hd.drop i
    rwa [drop_drop] at this
  cases hf : t.finRcvd with
  | false =>
    rw [hf, if_neg (by decide)] at hoff
    rw [show p - 1 + i = r by omega] at hpre
    exact ⟨hpre, fun _ => rfl⟩
  | true =>
    -- behind the FIN there is nothing
    have hr := (h.ended hf).2
    have hnil : V.drop (p - 1 + i) = [] := drop_eq_nil_of_le (by omega)
    rw [hnil, prefix_nil] at hpre
    rw [hpre]
    exact ⟨List.nil_prefix, fun h => absurd rfl h⟩

end

theorem textData_le (t : Tcb) (seg : Seg) (off : Nat) :
    t.textData seg off <+: seg.data.drop off := by
  unfold Tcb.textData
  simp only
  split
  · unfold Tcb.subTo
    split <;> exact take_prefix _ _
  · exact prefix_refl _

section Near

variable (hV : V.length + 4 < 2 ^ 31)

include hV

variable (h : Received V fin iss R r t.inbox)

include h

variable {q : Seq}

theorem Received.diff {p : Nat} (hp : p ≤ V.length + 1) (hq : q = shift iss p) :
    Tcp4.diff t.rcvNxt q = (1 + r + if t.finRcvd then 1 else 0 : Nat) - (p : Int) := by
  have hle := h.le
  rw [show t.rcvNxt = _ from h.next, hq]
  show Tcp4.diff (shift iss (1 + r + if t.finRcvd then 1 else 0)) (shift iss p) = _
  have hb : (if t.finRcvd = true then 1 else 0) ≤ 1 := by split <;> omega
  generalize (if t.finRcvd = true then 1 else 0) = f at hb ⊢
  exact Tcp4.diff_shift iss (by omega) (by omega)

/-- The data of a segment that starts at or in front of what is expected. -/
theorem Received.textDeliver (hg : Carries V fin iss seg) (hoff : 0 ≤ Tcp4.diff t.rcvNxt seg.seq) :
    ∃ r', r ≤ r' ∧
    Received V fin iss R r' (t.deliver (t.textData seg (Tcp4.diff t.rcvNxt seg.seq).toNat)).inbox ∧
      (t.deliver (t.textData seg (Tcp4.diff t.rcvNxt seg.seq).toNat)).finRcvd = t.finRcvd := by
  have hpre := textData_le t seg (Tcp4.diff t.rcvNxt seg.seq).toNat
  obtain ⟨p, hp, -⟩ := hg
  rcases eq_nil_or_concat seg.data with hd | ⟨_, _, hd⟩
  · rw [hd, drop_nil, prefix_nil] at hpre
    rw [hpre]
    exact ⟨r, Nat.le_refl r, h, rfl⟩
  · obtain ⟨h1, h2⟩ := hp.data (by simp [hd])
    have hpos : 0 < seg.data.length := by simp [hd]
    have hlen := h2.length_le
    rw [length_drop] at hlen
    have hdiff := h.diff hV (show p ≤ V.length + 1 by omega) hp.seq
    obtain ⟨h3, h4⟩ := h.rest h1 h2 (i := (Tcp4.diff t.rcvNxt seg.seq).toNat) (by omega)
    have hfin : t.textData seg (Tcp4.diff t.rcvNxt seg.seq).toNat ≠ [] →
        t.finRcvd = false := fun hne =>
      h4 fun he => hne (by rwa [he, prefix_nil] at hpre)
    obtain ⟨h5, h6⟩ := h.deliver (hpre.trans h3) hfin
    exact ⟨_, Nat.le_add_right _ _, h5, h6⟩

theorem Received.atEnd {p : Nat} (hp : p = V.length + 1) (hq : q = shift iss p)
    (he : q = t.rcvNxt) : t.finRcvd = false ∧ r = V.length := by
  have hle := h.le
  have hnext : shift iss p = shift iss (1 + r + if t.finRcvd then 1 else 0) :=
    (hq.symm.trans he).trans h.next
  have hb : (if t.finRcvd = true then 1 else 0) ≤ 1 := by split <;> omega
  have hcount := (Serial.shift_inj iss (by omega) (by omega)).mp hnext
  cases hf : t.finRcvd with
  | false =>
    rw [hf, if_neg (by decide)] at hcount
    exact ⟨rfl, by omega⟩
  | true =>
    have := (h.ended hf).2
    rw [hf, if_pos rfl] at hcount
    omega

theorem Received.textFin (hg : Carries V fin iss seg) :
    Received V fin iss R r (t.textFin seg).inbox := by
  unfold Tcb.textFin
  split
  next hflag =>
    split
    next he =>
      obtain ⟨p, hp, hfin⟩ := hg
      obtain ⟨h1, h2⟩ := hfin hflag
      have hq : Tcp4.add seg.seq seg.data.length = shift iss (p + seg.data.length) := by
        rw [hp.seq, Tcp4.add_eq_shift, Serial.shift_shift]
      obtain ⟨h3, h4⟩ := h.atEnd hV h2 hq he
      exact h.takeFin h3 h1 h4
    · exact h.hold hg
  · exact h

end Near

theorem Received.drainOne (hV : V.length + 4 < 2 ^ 31)
    (h : Received V fin iss R r t.inbox) {x : Held}
    (hx : Piece V fin iss x) (hoff : 0 ≤ Tcp4.diff t.rcvNxt x.seq)
    (hlen : Tcp4.diff t.rcvNxt x.seq ≤ x.data.length) :
    ∃ r', r ≤ r' ∧ Received V fin iss R r'
      (if x.fin then (t.deliver (x.data.drop (Tcp4.diff t.rcvNxt x.seq).toNat)).takeFin
        else t.deliver (x.data.drop (Tcp4.diff t.rcvNxt x.seq).toNat)).inbox := by
  obtain ⟨p, h1, hseq, hle, hd, hfin⟩ := hx
  have hdiff := h.diff hV (show p ≤ V.length + 1 by omega) hseq
  obtain ⟨h3, h4⟩ := h.rest h1 hd (i := (Tcp4.diff t.rcvNxt x.seq).toNat) (by omega)
  obtain ⟨h5, h6⟩ := h.deliver h3 h4
  refine ⟨_, Nat.le_add_right r (x.data.drop (Tcp4.diff t.rcvNxt x.seq).toNat).length, ?_⟩
  split
  next hf =>
    obtain ⟨hf1, hf2⟩ := hfin hf
    have hnf : t.finRcvd = false := by
      cases hr : t.finRcvd with
      | false => rfl
      | true =>
        have := (h.ended hr).2
        rw [hr, if_pos rfl] at hdiff
        omega
    rw [hnf, if_neg (by decide)] at hdiff
    refine h5.takeFin (h6.trans hnf) hf1 ?_
    rw [length_drop]
    omega
  · exact h5

theorem Received.drainLoop (hV : V.length + 4 < 2 ^ 31) (fuel : Nat)
    (h : Received V fin iss R r t.inbox) :
    ∃ r', r ≤ r' ∧ Received V fin iss R r' (Tcb.drainLoop fuel t).inbox := by
  induction fuel generalizing t r with
  | zero => exact ⟨r, Nat.le_refl r, h⟩
  | succ fuel ih =>
    rw [Tcb.drainLoop]
    split
    · exact ⟨r, Nat.le_refl r, h⟩
    next i x hdue =>
    obtain ⟨hmem, hoff⟩ := firstDue_some hdue
    simp only
    split
    next hlen =>
      obtain ⟨r', hr, h'⟩ := h.drainOne hV (h.held x hmem) hoff hlen
      generalize (if x.fin = true then (t.deliver (x.data.drop (Tcp4.diff t.rcvNxt x.seq).toNat)).takeFin
        else t.deliver (x.data.drop (Tcp4.diff t.rcvNxt x.seq).toNat)) = t1 at h' ⊢
      have h2 : Received V fin iss R r'
          { t1 with ooobytes := t1.ooobytes - x.data.length, ooo := t1.ooo.eraseIdx i }.inbox :=
        { h' with held := fun y hy => h'.held y (mem_of_mem_eraseIdx hy) }
      obtain ⟨r'', hr', h''⟩ := ih h2
      exact ⟨r'', hr.trans hr', h''⟩
    · have h2 : Received V fin iss R r
          { t with ooobytes := t.ooobytes - x.data.length, ooo := t.ooo.eraseIdx i }.inbox :=
        { h with held := fun y hy => h.held y (mem_of_mem_eraseIdx hy) }
      exact ih h2

end Text

/-! ## What leaves the receiving half alone -/

def State.Stays (s s' : State) : Prop := s' = s ∨ s.synced = true ∧ s'.synced = true

variable {s s' : State}

theorem State.Stays.trans {s'' : State} (h1 : s.Stays s') (h2 : s'.Stays s'') : s.Stays s'' := by
  rcases h1 with rfl | ⟨h1, h1'⟩
  · exact h2
  · rcases h2 with rfl | ⟨-, h2⟩
    · exact .inr ⟨h1, h1'⟩
    · exact .inr ⟨h1, h2⟩

theorem State.Stays.of_not_synced (h : s.Stays s') (hs : s.synced = false) : s' = s :=
  h.resolve_right fun h => nomatch hs.symm.trans h.1

theorem State.Stays.synced (h : s.Stays s') (hs : s.synced = true) : s'.synced = true := by
  rcases h with rfl | h
  · exact hs
  · exact h.2

/-- The receiving half stays as it is, or the connection ends, which it does given `E` only. -/
def Keeps (E : Prop) (t t' : Tcb) : Prop :=
  (t'.inbox = t.inbox ∧ t.state.Stays t'.state) ∨
    (E ∧ t'.state = .closed ∧ t'.inbox = { t.inbox with rcvq := [], rcvbytes := 0 })

section Frames

variable {E : Prop} {t t' t'' : Tcb} {seg : Seg}

namespace Keeps

theorem same (h1 : t'.inbox = t.inbox) (h2 : t'.state = t.state) : Keeps E t t' :=
  .inl ⟨h1, .inl h2⟩

theorem refl : Keeps E t t := same rfl rfl

theorem trans (h1 : Keeps E t t') (h2 : Keeps E t' t'') : Keeps E t t'' := by
  rcases h1 with ⟨h1, h1'⟩ | ⟨he, hc, hb⟩
  · rcases h2 with ⟨h2, h2'⟩ | ⟨he, hc, hb⟩
    · exact .inl ⟨h2.trans h1, h1'.trans h2'⟩
    · exact .inr ⟨he, hc, h1 ▸ hb⟩
  · rcases h2 with ⟨h2, h2'⟩ | ⟨-, hc', hb'⟩
    · exact .inr ⟨he, (h2'.of_not_synced (by rw [hc]; rfl)).trans hc, h2.trans hb⟩
    · exact .inr ⟨he, hc', by rw [hb', hb]⟩

theorem dead (he : E) (k : Kind) (why : Option String) : Keeps E t (t.dead k why) :=
  .inr ⟨he, rfl, rfl⟩

end Keeps

theorem keeps_ack : Keeps E t t.ack := by
  unfold Tcb.ack
  split <;> exact .same rfl rfl

theorem keeps_updatePersist : Keeps E t t.updatePersist := by
  unfold Tcb.updatePersist
  split
  · split <;> exact .same rfl rfl
  · exact .same rfl rfl

theorem keeps_transmitLoop (fuel : Nat) : Keeps E t (Tcb.transmitLoop fuel t) := by
  induction fuel generalizing t with
  | zero => exact .refl
  | succ fuel ih =>
    rw [Tcb.transmitLoop]
    split
    · exact keeps_updatePersist
    · exact Keeps.trans (.same rfl rfl) ih

theorem keeps_transmit : Keeps E t t.transmit := by
  unfold Tcb.transmit
  split
  next hs =>
    refine (keeps_transmitLoop (t.unsent.toNat + 1)).trans ?_
    rw [← transmitLoop_frame (t.unsent.toNat + 1)] at hs
    generalize Tcb.transmitLoop (t.unsent.toNat + 1) t = t1 at hs ⊢
    unfold Tcb.followFin
    split
    · refine .inl ⟨rfl, .inr ⟨?_, ?_⟩⟩
      · rcases hs with h | h <;> rw [h] <;> rfl
      · split <;> rfl
    · exact .refl
  · exact .refl

theorem keeps_resend : Keeps E t t.resend := by
  unfold Tcb.resend
  split
  · exact .refl
  · exact .same rfl rfl

theorem keeps_resendFirst : Keeps E t t.resendFirst := by
  unfold Tcb.resendFirst
  split
  · exact .refl
  · exact keeps_resend.trans (.same rfl rfl)

theorem keeps_limitedTransmit : Keeps E t t.limitedTransmit := by
  unfold Tcb.limitedTransmit
  split
  · exact .refl
  split
  · exact .refl
  split
  · exact .refl
  split
  · exact .refl
  · exact .same rfl rfl

theorem keeps_fastRetransmit : Keeps E t t.fastRetransmit := by
  unfold Tcb.fastRetransmit
  split
  · have h1 : Keeps E t { t with
        recover := t.sndNxt, inRecovery := true, ssthresh := max (t.flight / 2) (2 * t.sndMss) } :=
      .same rfl rfl
    exact (h1.trans keeps_resendFirst).trans (.same rfl rfl)
  · exact .refl

theorem keeps_onDupack : Keeps E t t.onDupack := by
  have h1 : Keeps E t { t with dupacks := t.dupacks + 1 } := .same rfl rfl
  unfold Tcb.onDupack
  simp only
  split
  · exact h1.trans keeps_limitedTransmit
  split
  · exact h1.trans keeps_fastRetransmit
  split
  · refine Keeps.trans ?_ keeps_transmit
    exact .same rfl rfl
  · exact h1

theorem keeps_ackedCc (n : Int) : Keeps E t (t.ackedCc seg n) := by
  unfold Tcb.ackedCc
  split
  · exact .refl
  split
  · split
    · exact .same rfl rfl
    · exact keeps_resendFirst.trans (.same rfl rfl)
  · split <;> exact .same rfl rfl

theorem keeps_ackedRtt : Keeps E t (t.ackedRtt seg) := by
  unfold Tcb.ackedRtt
  split
  · split
    · exact .same rfl rfl
    · exact .refl
  · exact .refl

theorem keeps_acked (n : Int) : Keeps E t (t.acked seg n) := by
  have h1 : Keeps E (t.ackedCc seg n) { t.ackedCc seg n with dupacks := 0 } := .same rfl rfl
  exact ((keeps_ackedCc n).trans (h1.trans keeps_ackedRtt)).trans (.same rfl rfl)

theorem keeps_advance : Keeps E t (t.advance seg) := by
  unfold Tcb.advance
  split
  · obtain ⟨q, o, hq, -, -⟩ := dropAcked_eq seg
    have h1 : Keeps E t (t.moved seg) := by
      unfold Tcb.moved
      rw [hq]
      exact .same rfl rfl
    exact h1.trans (keeps_acked _)
  · exact .refl

theorem keeps_updateWindow : Keeps E t (t.updateWindow seg) := by
  unfold Tcb.updateWindow
  split
  · exact .same rfl rfl
  · exact .refl

/-- The last acknowledgment ends the connection, and no other does. -/
theorem keeps_onFinAcked (he : t.state = .lastAck → t.finAcked seg = true → E) :
    Keeps E t (t.onFinAcked seg).1 := by
  unfold Tcb.onFinAcked
  split
  next h => exact .inl ⟨rfl, .inr ⟨by rw [h.1]; rfl, rfl⟩⟩
  split
  next h => exact .inl ⟨rfl, .inr ⟨by rw [h.1]; rfl, rfl⟩⟩
  split
  next h => exact .dead (he h.1 h.2) _ _
  · exact .refl

theorem keeps_checkAckOpen (he : t.state = .lastAck → t.finAcked seg = true → E) :
    Keeps E t (t.checkAckOpen seg).1 := by
  unfold Tcb.checkAckOpen
  split
  · exact keeps_ack
  have h1 : Keeps E t { t with probes := 0 } := .same rfl rfl
  simp only
  split
  · exact h1.trans keeps_onDupack
  refine h1.trans
    (keeps_advance.trans (keeps_updateWindow.trans (keeps_onFinAcked fun h2 h3 => ?_)))
  obtain ⟨f1, -, -, f4⟩ := advance_frame seg
  have hw := updateWindow_half (t := { t with probes := 0 }.advance seg) seg
  refine he (((congrArg Half.state hw).trans f1).symm.trans h2) ?_
  have hseq : (({ t with probes := 0 }.advance seg).updateWindow seg).finSeq = t.finSeq :=
    (congrArg Half.finSeq hw).trans f4
  unfold Tcb.finAcked at h3 ⊢
  rwa [hseq] at h3

theorem keeps_timeoutCc : Keeps E t t.timeoutCc := by
  unfold Tcb.timeoutCc
  split
  · exact .refl
  · exact .same rfl rfl

theorem keeps_retransmit (he : maxRetx ≤ t.retries → E) : Keeps E t t.retransmit := by
  have h1 : Keeps E t { t.timeoutCc with retries := t.retries + 1 } :=
    keeps_timeoutCc.trans (.same rfl rfl)
  unfold Tcb.retransmit Tcb.resendOrGiveUp
  refine h1.trans ?_
  split
  next h => exact .dead (he (Nat.lt_succ_iff.mp h)) _ _
  refine Keeps.trans ?_ (.same rfl rfl)
  unfold Tcb.retransmitSegment
  split
  · exact .same rfl rfl
  · exact .same rfl rfl
  · exact keeps_resend

theorem keeps_probe : Keeps E t t.probe := by
  unfold Tcb.probe
  simp only
  split
  · exact .same rfl rfl
  · split <;> exact .same rfl rfl

theorem Acks.keeps (h : Acks t t') : Keeps E t t' := by
  cases h with
  | aside => exact .same rfl rfl
  | ack w d b =>
    have h1 : Keeps E t { t with timewait := w, delack := d, ackbytes := b } := .same rfl rfl
    exact h1.trans keeps_ack

/-- A close that is put off is remembered, and nothing else happens to the receiving half. -/
theorem keeps_close (now : Option Int) (he : t.state = .synSent → E) (hs : t.state ≠ .listen) :
    ∃ p, Keeps E { t with finPending := p } (t.close now) := by
  unfold Tcb.close
  have h1 : ∀ p, Keeps E { t with finPending := p } { t.attime now with finPending := p } :=
    fun p => .same rfl rfl
  have hst : (t.attime now).state = t.state := rfl
  generalize t.attime now = t1 at h1 hst ⊢
  simp only
  split
  · exact ⟨t1.finPending, h1 _⟩
  split
  next h =>
    rw [hst] at h
    exact ⟨t1.finPending, (h1 _).trans (.same rfl (hst.trans (h.resolve_right hs)).symm)⟩
  split
  next h => exact ⟨t1.finPending, (h1 _).trans (.dead (he (hst.symm.trans h)) _ _)⟩
  · exact ⟨true, (h1 true).trans keeps_transmit⟩

theorem keeps_write (data : Bytes) (now : Option Int) : Keeps E t (t.write data now).2 := by
  unfold Tcb.write
  simp only
  split
  · exact .same rfl rfl
  split
  · exact .same rfl rfl
  · refine Keeps.trans ?_ keeps_transmit
    exact .same rfl rfl

/-- The steps of `tick` that end a connection. -/
def Tcb.expires (t : Tcb) (now : Int) : Bool :=
  due now t.timewait || due now t.retx && maxRetx ≤ t.retries || due now t.persist &&
    maxRetx ≤ t.probes

theorem retransmit_persist : t.retransmit.persist = t.persist ∧ t.retransmit.probes = t.probes ∧
    t.retransmit.now = t.now := by
  have h1 : t.timeoutCc.persist = t.persist ∧ t.timeoutCc.probes = t.probes ∧
      t.timeoutCc.now = t.now := by
    unfold Tcb.timeoutCc
    split <;> exact ⟨rfl, rfl, rfl⟩
  have h2 : ∀ t : Tcb, t.retransmitSegment.persist = t.persist ∧
    t.retransmitSegment.probes = t.probes ∧ t.retransmitSegment.now = t.now := fun t => by
    unfold Tcb.retransmitSegment
    split
    · exact ⟨rfl, rfl, rfl⟩
    · exact ⟨rfl, rfl, rfl⟩
    · unfold Tcb.resend
      split <;> exact ⟨rfl, rfl, rfl⟩
  unfold Tcb.retransmit Tcb.resendOrGiveUp
  split
  · exact h1
  · obtain ⟨e1, e2, e3⟩ := h2 { t.timeoutCc with retries := t.retries + 1 }
    exact ⟨e1.trans h1.1, e2.trans h1.2.1, e3.trans h1.2.2⟩

theorem ack_persist : t.ack.persist = t.persist ∧ t.ack.probes = t.probes ∧ t.ack.now = t.now := by
  unfold Tcb.ack
  split <;> exact ⟨rfl, rfl, rfl⟩

theorem keeps_tick (now : Option Int) (he : t.expires (now.getD t.now) = true → E) :
    Keeps E t (t.tick now) := by
  have h0 : Keeps E t (t.attime now) := .same rfl rfl
  rw [Tcb.tick_eq]
  refine h0.trans ?_
  have he1 : (t.attime now).expires (t.attime now).now = true → E := he
  generalize t.attime now = t1 at he1 ⊢
  unfold Tcb.expires at he1
  simp only [Bool.or_eq_true, Bool.and_eq_true, decide_eq_true_eq] at he1
  split
  next hd =>
    refine Keeps.trans ?_ (.dead (he1 (.inl (.inl hd))) _ _)
    exact .same rfl rfl
  have h1 : Keeps E t1 t1.tickRetx := by
    unfold Tcb.tickRetx
    split
    next hd => exact keeps_retransmit fun hr => he1 (.inl (.inr ⟨hd, hr⟩))
    · exact .refl
  have f1 : t1.tickRetx.persist = t1.persist ∧ t1.tickRetx.probes = t1.probes ∧
      t1.tickRetx.now = t1.now := by
    unfold Tcb.tickRetx
    split
    · exact retransmit_persist
    · exact ⟨rfl, rfl, rfl⟩
  generalize t1.tickRetx = t2 at h1 f1 ⊢
  have h2 : Keeps E t2 t2.tickDelack := by
    unfold Tcb.tickDelack
    split
    · exact keeps_ack
    · exact .refl
  have f2 : t2.tickDelack.persist = t2.persist ∧ t2.tickDelack.probes = t2.probes ∧
      t2.tickDelack.now = t2.now := by
    unfold Tcb.tickDelack
    split
    · exact ack_persist
    · exact ⟨rfl, rfl, rfl⟩
  refine h1.trans (h2.trans ?_)
  unfold Tcb.tickPersist
  rw [f2.1, f2.2.1, f2.2.2, f1.1, f1.2.1, f1.2.2]
  split
  next hd =>
    split
    next hp => exact .dead (he1 (.inr ⟨hd, hp⟩)) _ _
    · exact keeps_probe
  · exact .refl

def Tcb.cuts (t : Tcb) (seg : Seg) : Bool :=
  seg.flags.rst && t.acceptable seg || t.state == .lastAck && t.finAcked seg

theorem keeps_onFin (hs : t.state ≠ .synReceived) : Keeps E t t.onFin := by
  unfold Tcb.onFin
  simp only
  split
  next h => exact .inl ⟨rfl, .inr ⟨by rw [show t.state = _ from h]; rfl, rfl⟩⟩
  next h => exact absurd h hs
  next h => exact .inl ⟨rfl, .inr ⟨by rw [show t.state = _ from h]; rfl, rfl⟩⟩
  next h => exact .inl ⟨rfl, .inr ⟨by rw [show t.state = _ from h]; rfl, rfl⟩⟩
  all_goals exact .same rfl rfl

theorem keeps_seeFin (hs : t.state ≠ .synReceived) : Keeps E t t.seeFin := by
  have h1 : Keeps E t { t with finSeen := true } := .same rfl rfl
  unfold Tcb.seeFin
  split
  · exact h1.trans (keeps_onFin hs)
  · exact .refl

/-- Without an end the receiving half is the same. -/
theorem Keeps.inbox (h : Keeps False t t') : t'.inbox = t.inbox ∧ t.state.Stays t'.state :=
  h.resolve_right fun h => h.1

theorem Received.arrive {V R : Bytes} {fin : Bool} {iss : Seq} {r : Nat}
    (hV : V.length + 4 < 2 ^ 31) (h : Received V fin iss R r t.inbox) (hg : Carries V fin iss seg)
    (hs : t.state ≠ .synReceived) :
    ∃ r', Received V fin iss R r' (t.text seg).inbox ∧ t.state.Stays (t.text seg).state ∧
      (t.text seg).finPending = t.finPending := by
  rcases text_cases t seg with ⟨-, e⟩ | ⟨hoff, ha⟩
  · obtain ⟨h1, h2⟩ := (keeps_ack (t := t.hold seg)).inbox
    have h3 := h.hold hg
    obtain ⟨o, k, r', e', -⟩ := hold_eq (t := t) seg
    rw [e] at ⊢
    rw [e'] at h1 h2 h3 ⊢
    exact ⟨r, h1 ▸ h3, h2, congrArg Inbox.finPending h1⟩
  · obtain ⟨r1, -, h1, -⟩ := h.textDeliver hV hg hoff
    obtain ⟨r3, -, h3⟩ := (h1.textFin hV hg).drainLoop hV _
    have hhalf := (takes_text (t := t) seg).half.1
    have hst : Tcb.state _ = t.state := congrArg Half.state hhalf
    unfold Tcb.drainHeld at ha hhalf hst
    obtain ⟨k1, k2⟩ := ((keeps_seeFin (E := False) (hst ▸ hs)).trans ha.keeps).inbox
    refine ⟨r3, ?_, ?_, ?_⟩
    · rw [k1]
      exact h3
    · rwa [hst] at k2
    · exact (congrArg Inbox.finPending k1).trans (congrArg Half.finPending hhalf)

end Frames

end Nlos.Tcp
