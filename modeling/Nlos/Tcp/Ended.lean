import Nlos.Tcp.Network

/-!
# Behind the peer's FIN

`_text` and `_drain_held` take what comes at the receive point and do not ask whether the peer has
closed. What a peer sends behind its FIN is delivered, and a reader that was told of the end of the
stream is then given more. What is held behind a FIN is delivered by the call that takes the FIN.
-/

namespace Nlos.Tcp

open List

variable {t t' t'' : Tcb} {seg : Seg} {n : Seq}

def Seg.held (seg : Seg) : Held := ⟨seg.seq, seg.data, seg.flags.fin⟩

def gives (n : Seq) (x : Held) : Bool :=
  0 ≤ Tcp4.diff n x.seq &&
    (Tcp4.diff n x.seq < x.data.length || x.fin && Tcp4.diff n x.seq == x.data.length)

theorem gives_eq_false {x : Held} (h : gives n x = false) (h0 : 0 ≤ Tcp4.diff n x.seq) :
    x.data.length ≤ Tcp4.diff n x.seq ∧ (Tcp4.diff n x.seq = x.data.length → x.fin = false) := by
  simp only [gives, h0, decide_true, Bool.true_and, Bool.or_eq_false_iff, decide_eq_false_iff_not,
    Bool.and_eq_false_imp, beq_eq_false_iff_ne] at h
  exact ⟨Int.not_lt.mp h.1, fun he => Bool.eq_false_iff.mpr fun hf => h.2 hf he⟩

def Held.behind (x : Held) : Seq := Tcp4.add (Tcp4.add x.seq x.data.length) 1

/-- None of these segments has a byte or a FIN right behind a FIN of theirs. -/
def Clean (L : List Held) : Prop := ∀ x ∈ L, x.fin = true → ∀ y ∈ L, gives x.behind y = false

instance (L : List Held) : Decidable (Clean L) := by
  unfold Clean
  infer_instance

theorem Keeps.finRcvd {E : Prop} (hk : Keeps E t t') : t'.finRcvd = t.finRcvd := by
  rcases hk with ⟨hk, -⟩ | ⟨-, -, hk⟩ <;> exact congrArg Inbox.finRcvd hk

namespace Tcb

structure Idles (t t' : Tcb) : Prop where
  next : t'.rcvNxt = t.rcvNxt
  queue : t'.rcvq.flatten <:+ t.rcvq.flatten
  bytes : t'.rcvbytes ≤ t.rcvbytes

theorem Idles.same (hn : t'.rcvNxt = t.rcvNxt) (hq : t'.rcvq = t.rcvq)
    (hb : t'.rcvbytes = t.rcvbytes) : t.Idles t' :=
  ⟨hn, hq ▸ suffix_refl _, Nat.le_of_eq hb⟩

theorem Idles.trans (h1 : t.Idles t') (h2 : t'.Idles t'') : t.Idles t'' :=
  ⟨h2.next.trans h1.next, h2.queue.trans h1.queue, h2.bytes.trans h1.bytes⟩

/-- What has become of `t0`, what is held being of `L`. If the peer had closed, nothing was taken
in; if it has closed since, its FIN is one of `L`, and nothing of `L` is behind it. -/
structure Cut (L : List Held) (t0 t : Tcb) : Prop where
  held : ∀ x ∈ t.ooo, x ∈ L
  stays : t0.finRcvd = true → t.finRcvd = true ∧ t0.Idles t
  taken : t0.finRcvd = false → t.finRcvd = true → ∃ x ∈ L, x.fin = true ∧ t.rcvNxt = x.behind
  ended : t.finRcvd = true → t.state.fresh = false ∧ ∀ x ∈ L, gives t.rcvNxt x = false

section

variable {L : List Held} {E : Prop} {t0 : Tcb}

namespace Cut

theorem before (h : Cut L t0 t) (hf : t.finRcvd = false) : t0.finRcvd = false := by
  cases h0 : t0.finRcvd with
  | false => rfl
  | true => exact absurd (hf.symm.trans (h.stays h0).1) Bool.false_ne_true

theorem waiting (h0 : t0.finRcvd = false) (hf : t.finRcvd = false)
    (hx : ∀ x ∈ t.ooo, x ∈ L) : Cut L t0 t :=
  have h {P : Prop} (hr : t.finRcvd = true) : P := absurd (hf.symm.trans hr) Bool.false_ne_true
  ⟨hx, fun hr => absurd (h0.symm.trans hr) Bool.false_ne_true, fun _ => h, h⟩

theorem still (h : Cut L t0 t) (hs : t.state.fresh = false → t'.state.fresh = false)
    (hx : ∀ x ∈ t'.ooo, x ∈ L) (hf : t'.finRcvd = t.finRcvd) (hi : t.Idles t') : Cut L t0 t' where
  held := hx
  stays h0 := ⟨hf.trans (h.stays h0).1, (h.stays h0).2.trans hi⟩
  taken h0 hr := hi.next ▸ h.taken h0 (hf ▸ hr)
  ended hr := ⟨hs (h.ended (hf ▸ hr)).1, hi.next ▸ (h.ended (hf ▸ hr)).2⟩

theorem keeps (h : Cut L t0 t) (hk : Keeps E t t') : Cut L t0 t' := by
  have ho : t'.ooo = t.ooo ∧ t.Idles t' := by
    rcases hk with ⟨hk, -⟩ | ⟨-, -, hk⟩
    · exact ⟨congrArg Inbox.ooo hk,
        .same (congrArg Inbox.rcvNxt hk) (congrArg Inbox.rcvq hk) (congrArg Inbox.rcvbytes hk)⟩
    · have hq : t'.rcvq = [] := congrArg Inbox.rcvq hk
      have hb : t'.rcvbytes = 0 := congrArg Inbox.rcvbytes hk
      exact ⟨congrArg Inbox.ooo hk, congrArg Inbox.rcvNxt hk, hq ▸ nil_suffix, hb ▸ Nat.zero_le _⟩
  exact h.still hk.fresh (ho.1 ▸ h.held) hk.finRcvd ho.2

theorem hold (h : Cut L t0 t) (hs : seg.held ∈ L) : Cut L t0 (t.hold seg) := by
  unfold Tcb.hold
  split
  · exact h
  split
  · exact h
  split
  · exact h
  refine h.still id (fun x hx => ?_) rfl (.same rfl rfl rfl)
  rcases mem_append.mp hx with hx | hx
  · exact h.held x hx
  · rw [mem_singleton.mp hx]
    exact hs

theorem takeFin {x : Held} (hL : t0.finRcvd = false → Clean L) (h : Cut L t0 t)
    (hf : t.finRcvd = false) (hs : t.state.fresh = false) (hx : x ∈ L) (hfin : x.fin = true)
    (hn : t.rcvNxt = Tcp4.add x.seq x.data.length) :
    Cut L t0 t.takeFin where
  held := h.held
  stays h0 := absurd ((h.before hf).symm.trans h0) Bool.false_ne_true
  taken _ _ := ⟨x, hx, hfin, congrArg (Tcp4.add · 1) hn⟩
  ended _ := by
    refine ⟨hs, fun y hy => ?_⟩
    rw [show t.takeFin.rcvNxt = x.behind from congrArg (Tcp4.add · 1) hn]
    exact hL (h.before hf) x hx hfin y hy

end Cut

/-! ## Text -/

theorem Takes.state {b : Bool} (h : Takes b t t') : t'.state = t.state :=
  congrArg Half.state h.half.1

section

variable (data : Bytes)

theorem deliver_state : (t.deliver data).state = t.state :=
  Takes.state (takes_deliver (b := false) data)

theorem deliver_ooo : (t.deliver data).ooo = t.ooo := by
  unfold deliver
  split <;> rfl

theorem deliver_finRcvd : (t.deliver data).finRcvd = t.finRcvd := by
  unfold deliver
  split <;> rfl

theorem deliver_rcvNxt : (t.deliver data).rcvNxt = Tcp4.add t.rcvNxt data.length := by
  unfold deliver
  split
  next h => rw [h, length_nil, Tcp4.add_eq_shift, Serial.shift_zero]
  · rfl

end

theorem Cut.deliver (h : Cut L t0 t) (hf : t.finRcvd = false) (data : Bytes) :
    Cut L t0 (t.deliver data) :=
  .waiting (h.before hf) ((deliver_finRcvd data).trans hf) fun x hx =>
    h.held x (deliver_ooo data ▸ hx)

/-- What is held and has nothing at the receive point is behind it altogether. -/
theorem drained_same {x : Held} (hg : gives t.rcvNxt x = false)
    (hoff : 0 ≤ Tcp4.diff t.rcvNxt x.seq) :
    (if Tcp4.diff t.rcvNxt x.seq ≤ x.data.length then
        if x.fin then (t.deliver (x.data.drop (Tcp4.diff t.rcvNxt x.seq).toNat)).takeFin
          else t.deliver (x.data.drop (Tcp4.diff t.rcvNxt x.seq).toNat) else t) = t := by
  obtain ⟨hlen, hfin⟩ := gives_eq_false hg hoff
  split
  next hle =>
    have he : x.data.drop (Tcp4.diff t.rcvNxt x.seq).toNat = [] := drop_eq_nil_of_le (by omega)
    rw [he, hfin (Int.le_antisymm hle hlen)]
    rfl
  · rfl

theorem ne_synReceived_of_fresh (h : t.state.fresh = false) : t.state ≠ .synReceived := by
  intro he
  rw [he] at h
  cases h

section

variable (hL : t0.finRcvd = false → Clean L) (h : Cut L t0 t) (hs : t.state.fresh = false)

include hL h hs

/-- One turn of the loop over what is held, before a FIN is taken. -/
theorem Cut.drainOne {x : Held} (hf : t.finRcvd = false) (hx : x ∈ L)
    (hoff : 0 ≤ Tcp4.diff t.rcvNxt x.seq) (hlen : Tcp4.diff t.rcvNxt x.seq ≤ x.data.length) :
    Cut L t0 (if x.fin then (t.deliver (x.data.drop (Tcp4.diff t.rcvNxt x.seq).toNat)).takeFin
      else t.deliver (x.data.drop (Tcp4.diff t.rcvNxt x.seq).toNat)) := by
  have h1 := h.deliver hf (x.data.drop (Tcp4.diff t.rcvNxt x.seq).toNat)
  split
  next hfin =>
    refine h1.takeFin hL ((deliver_finRcvd _).trans hf)
      ((congrArg State.fresh (deliver_state _)).trans hs) hx hfin ?_
    -- the rest of its bytes leads from the receive point to its end
    have hn : Serial.shift x.seq (Tcp4.diff t.rcvNxt x.seq).toNat = t.rcvNxt := by
      rw [Tcp4.diff_eq_distance] at hoff ⊢
      exact Serial.shift_distance hoff
    have hle : (Tcp4.diff t.rcvNxt x.seq).toNat ≤ x.data.length := by omega
    generalize (Tcp4.diff t.rcvNxt x.seq).toNat = i at hn hle ⊢
    rw [deliver_rcvNxt, Tcp4.add_eq_shift, Tcp4.add_eq_shift, ← hn, Serial.shift_shift, length_drop,
      Nat.add_sub_cancel' hle]
  · exact h1

theorem Cut.drainLoop (fuel : Nat) : Cut L t0 (drainLoop fuel t) := by
  induction fuel generalizing t with
  | zero => exact h
  | succ fuel ih =>
    rw [Tcb.drainLoop]
    split
    · exact h
    next i x hdue =>
    obtain ⟨hmem, hoff⟩ := firstDue_some hdue
    have hx := h.held x hmem
    -- the segment leaves the list, whatever was done with it
    have next : ∀ {t1 : Tcb}, Cut L t0 t1 → t1.state = t.state → Cut L t0 (Tcb.drainLoop fuel
        { t1 with ooobytes := t1.ooobytes - x.data.length, ooo := t1.ooo.eraseIdx i }) := by
      intro t1 h1 hst
      exact ih (h1.still id (fun y hy => h1.held y (mem_of_mem_eraseIdx hy)) rfl (.same rfl rfl rfl))
        ((congrArg State.fresh hst).trans hs)
    cases hf : t.finRcvd with
    | true =>
      simp only [drained_same ((h.ended hf).2 x hx) hoff]
      exact next h rfl
    | false =>
      simp only
      split
      next hlen =>
        refine next (h.drainOne hL hs hf hx hoff hlen) ?_
        split <;> exact deliver_state _
      · exact next h rfl

theorem Cut.textFin (hx : seg.held ∈ L) (hoff : t.finRcvd = true → 0 ≤ Tcp4.diff t.rcvNxt seg.seq) :
    Cut L t0 (t.textFin seg) := by
  unfold Tcb.textFin
  split
  next hfin =>
    split
    next he =>
      cases hf : t.finRcvd with
      | false => exact h.takeFin hL hf hs hx hfin he.symm
      | true =>
        -- a second FIN would be at the receive point
        obtain ⟨hlen, hno⟩ : (seg.data.length : Int) ≤ Tcp4.diff t.rcvNxt seg.seq ∧
            (Tcp4.diff t.rcvNxt seg.seq = seg.data.length → seg.flags.fin = false) :=
          gives_eq_false ((h.ended hf).2 _ hx) (hoff hf)
        have hlt : 2 * Tcp4.diff t.rcvNxt seg.seq < 2 ^ 32 :=
          Tcp4.diff_eq_distance _ _ ▸ BitVec.two_mul_toInt_lt
        have hd := Tcp4.diff_shift seg.seq (i := seg.data.length) (j := 0) (by omega) (by omega)
        rw [Serial.shift_zero, ← Tcp4.add_eq_shift, he, Int.ofNat_zero, Int.sub_zero] at hd
        exact absurd ((hno hd).symm.trans hfin) Bool.false_ne_true
    · exact h.hold hx
  · exact h

theorem Cut.text (hx : seg.held ∈ L) : Cut L t0 (t.text seg) := by
  rcases text_cases t seg with ⟨-, e⟩ | ⟨hoff, ha⟩
  · rw [e]
    exact (h.hold hx).keeps (keeps_ack (E := False))
  have hs3 := (congrArg State.fresh (Takes.state (takes_text (t := t) seg))).trans hs
  have hs2 (data : Bytes) : ((t.deliver data).textFin seg).state.fresh = false :=
    (congrArg State.fresh ((Takes.state (takes_textFin seg)).trans (deliver_state data))).trans hs
  have h1 : Cut L t0
      ((t.deliver (t.textData seg (Tcp4.diff t.rcvNxt seg.seq).toNat)).textFin seg) := by
    cases hf : t.finRcvd with
    | true =>
      have hlen : (seg.data.length : Int) ≤ Tcp4.diff t.rcvNxt seg.seq :=
        (gives_eq_false ((h.ended hf).2 _ hx) hoff).1
      have hpre := textData_le t seg (Tcp4.diff t.rcvNxt seg.seq).toNat
      rw [drop_eq_nil_of_le (by omega), prefix_nil] at hpre
      rw [hpre]
      exact h.textFin hL hs hx fun _ => hoff
    | false =>
      refine (h.deliver hf _).textFin hL
        ((congrArg State.fresh (deliver_state _)).trans hs) hx fun hr => ?_
      exact absurd (hf.symm.trans ((deliver_finRcvd _).symm.trans hr)) Bool.false_ne_true
  refine Cut.keeps (Cut.keeps ?_ (keeps_seeFin (E := False) (ne_synReceived_of_fresh hs3)))
    (ha.keeps (E := False))
  exact h1.drainLoop hL (hs2 _) _

theorem Cut.afterAck (hx : seg.held ∈ L) : Cut L t0 (t.afterAck seg) := by
  unfold Tcb.afterAck
  split
  · exact h.keeps ((acks_inTimeWait seg).keeps (E := False))
  refine Cut.keeps ?_ (keeps_transmit (E := False))
  split
  · exact h.text hL hs hx
  · exact h

end

/-! ## Segments -/

/-- Before the connection is there the peer has not closed it. -/
theorem Cut.opening (h : Cut L t0 t) (hs : t.state = .synReceived) : t.finRcvd = false :=
  Bool.eq_false_iff.mpr fun hf => ne_synReceived_of_fresh (h.ended hf).1 hs

theorem Cut.checkAckOpen (h : Cut L t0 t) (hs : t.state.fresh = false) :
    Cut L t0 (t.checkAckOpen seg).1 ∧
    ((t.checkAckOpen seg).2 = true → (t.checkAckOpen seg).1.state.fresh = false) :=
  have hk : Keeps True t (t.checkAckOpen seg).1 := keeps_checkAckOpen fun _ _ => trivial
  ⟨h.keeps hk, fun _ => hk.fresh hs⟩

theorem Cut.checkAck (seg : Seg) (h : Cut L t0 t) (hi : t.state.idle = false)
    (hsent : t.state ≠ .synSent) :
    Cut L t0 (t.checkAck seg).1 ∧
    ((t.checkAck seg).2 = true → (t.checkAck seg).1.state.fresh = false) := by
  unfold Tcb.checkAck
  split
  · exact ⟨h, nofun⟩
  split
  next hr =>
    split
    · exact checkAckOpen (h.still (fun _ => rfl) h.held rfl (.same rfl rfl rfl)) rfl
    · exact ⟨h.still id h.held rfl (.same rfl rfl rfl), nofun⟩
  next hne =>
    refine checkAckOpen h ?_
    revert hi hsent hne
    cases t.state <;> simp [State.idle, State.fresh]

theorem Cut.inSynchronized (hL : t0.finRcvd = false → Clean L) (h : Cut L t0 t) (hx : seg.held ∈ L)
    (hi : t.state.idle = false) (hsent : t.state ≠ .synSent) : Cut L t0 (t.inSynchronized seg) := by
  unfold Tcb.inSynchronized
  split
  · exact h.keeps ((acks_onUnacceptable seg).keeps (E := False))
  split
  · unfold Tcb.onRst
    split
    next hr => exact .waiting (h.before (h.opening hr.1)) (h.opening hr.1) h.held
    · exact h.keeps (.dead trivial _ _)
  split
  · exact h.keeps (keeps_ack (E := False))
  have h1 := h.checkAck seg hi hsent
  rcases hc : t.checkAck seg with ⟨t1, more⟩
  rw [hc] at h1
  cases more with
  | false => exact h1.1
  | true => exact h1.1.afterAck hL (h1.2 rfl) hx

theorem inListen_finRcvd : (t.inListen seg).finRcvd = t.finRcvd := by
  unfold Tcb.inListen
  split
  · rfl
  split
  · rfl
  split <;> rfl

theorem synSentSyn_finRcvd (acked : Bool) : (t.synSentSyn seg acked).finRcvd = t.finRcvd := by
  obtain ⟨t2, hk, hk2 | he⟩ := synSentSyn_keeps t seg acked
  · exact hk2.finRcvd.trans hk.finRcvd
  · rw [he]
    exact hk.finRcvd

theorem inSynSent_finRcvd : (t.inSynSent seg).finRcvd = t.finRcvd := by
  unfold Tcb.inSynSent
  split
  · split <;> rfl
  split
  · split <;> rfl
  split
  · rfl
  · exact synSentSyn_finRcvd _

theorem Cut.segment (hL : t.finRcvd = false → Clean L) (h : Cut L t t) (hx : seg.held ∈ L)
    (now : Option Int) :
    Cut L t (t.segment seg now) ∨ t.finRcvd = false ∧ (t.segment seg now).finRcvd = false := by
  have h0 : Cut L t (t.attime now) := h.still id h.held rfl (.same rfl rfl rfl)
  have waits : t.state.fresh = true → t.finRcvd = false := fun hs =>
    Bool.eq_false_iff.mpr fun hf => absurd ((h.ended hf).1.symm.trans hs) Bool.false_ne_true
  refine segment_cases (P := fun t' => Cut L t t' ∨ t.finRcvd = false ∧ t'.finRcvd = false)
    (fun _ => .inl h0)
    (fun hs => ?_) (fun hs => ?_) fun hi hs => .inl (h0.inSynchronized hL hx hi hs)
  · exact .inr ⟨waits (by rw [hs]; rfl), inListen_finRcvd.trans (waits (by rw [hs]; rfl))⟩
  · exact .inr ⟨waits (by rw [hs]; rfl), inSynSent_finRcvd.trans (waits (by rw [hs]; rfl))⟩

end

/-! ## Calls -/

/-- The peer has closed, and nothing that is held comes next. -/
structure Ended (t : Tcb) : Prop where
  fin : t.finRcvd = true
  fresh : t.state.fresh = false
  held : ∀ x ∈ t.ooo, gives t.rcvNxt x = false

theorem Ended.cut {L : List Held} (h : t.Ended) (hx : ∀ x ∈ t.ooo, x ∈ L)
    (hg : ∀ x ∈ L, gives t.rcvNxt x = false) : Cut L t t :=
  ⟨hx, fun _ => ⟨h.fin, .same rfl rfl rfl⟩,
    fun h0 => absurd (h0.symm.trans h.fin) Bool.false_ne_true, fun _ => ⟨h.fresh, hg⟩⟩

theorem Cut.isEnded {L : List Held} {t0 : Tcb} (h : Cut L t0 t) (hf : t.finRcvd = true) : t.Ended :=
  ⟨hf, (h.ended hf).1, fun x hx => (h.ended hf).2 x (h.held x hx)⟩

/-- No byte and no FIN of the segments at hand is right behind a FIN: one of theirs before one is
taken, and at the receive point afterwards, when no connection is opened either. -/
def Quiet (t : Tcb) : Call → Prop
  | .connect _ | .listen => t.finRcvd = false
  | .segment seg _ =>
    if t.finRcvd then gives t.rcvNxt seg.held = false else Clean (t.ooo ++ [seg.held])
  | _ => True

instance (t : Tcb) (a : Call) : Decidable (t.Quiet a) := by
  cases a <;> unfold Quiet <;> infer_instance

theorem Cut.read {L : List Held} {t0 : Tcb} (h : Cut L t0 t) (max : Option Nat) :
    Cut L t0 (t.read max).2 := by
  unfold Tcb.read
  split
  · exact h
  generalize min (max.getD t.rcvbytes) t.rcvbytes = want
  have hq := takeChunks_flatten want t.rcvq
  have h1 : Cut L t0 { t with
      rcvq := (takeChunks want t.rcvq).2
      rcvbytes := t.rcvbytes - (takeChunks want t.rcvq).1.length } :=
    h.still id h.held rfl ⟨rfl, ⟨_, hq⟩, Nat.sub_le _ _⟩
  simp only
  split
  · exact h1.keeps (keeps_ack (E := False))
  · exact h1

theorem Ended.call_cut {a : Call} (h : t.Ended) (ha : t.Quiet a) : ∃ L, Cut L t (t.call a) := by
  have h0 : Cut t.ooo t t := h.cut (fun _ hx => hx) h.held
  cases a with
  | connect now | listen => exact absurd ((Eq.symm ha).trans h.fin) Bool.false_ne_true
  | close now =>
    have hl : t.state ≠ .listen := by
      intro hl
      have hs := h.fresh
      rw [hl] at hs
      cases hs
    obtain ⟨p, hk⟩ := keeps_close (E := True) now (fun _ => trivial) hl
    have h1 : Cut t.ooo t { t with finPending := p } := h0.still id h0.held rfl (.same rfl rfl rfl)
    exact ⟨_, h1.keeps hk⟩
  | abort now =>
    refine ⟨_, h0.keeps (Keeps.trans ?_ (.dead trivial _ _))⟩
    split <;> exact .same rfl rfl
  | write data now => exact ⟨_, h0.keeps (keeps_write (E := False) data now)⟩
  | read max => exact ⟨_, h0.read max⟩
  | tick now => exact ⟨_, h0.keeps (keeps_tick now fun _ => trivial)⟩
  | segment seg now =>
    have hg : ∀ x ∈ t.ooo ++ [seg.held], gives t.rcvNxt x = false :=
      forall_mem_append.mpr ⟨h.held, forall_mem_singleton.mpr ((if_pos h.fin).mp ha)⟩
    have hc := h.cut (fun x hx => mem_append_left _ hx) hg
    have hL : t.finRcvd = false → Clean (t.ooo ++ [seg.held]) :=
      fun hf => absurd (hf.symm.trans h.fin) Bool.false_ne_true
    rcases hc.segment hL (mem_append_right _ (mem_singleton.mpr rfl)) now with h1 | h1
    · exact ⟨_, h1⟩
    · exact absurd (h1.1.symm.trans h.fin) Bool.false_ne_true
  | take | events => exact ⟨_, h0.keeps (.same rfl rfl : Keeps False t _)⟩

theorem Ended.run (h : t.Ended) {l : List Call} (hc : Runs.Along Quiet Tcb.call t l) :
    (l.foldl Tcb.call t).Ended ∧ t.Idles (l.foldl Tcb.call t) := by
  induction l generalizing t with
  | nil => exact ⟨h, .same rfl rfl rfl⟩
  | cons a l ih =>
    obtain ⟨L, h1⟩ := h.call_cut hc.1
    obtain ⟨hf, hi⟩ := h1.stays h.fin
    obtain ⟨h2, hi'⟩ := ih (h1.isEnded hf) hc.2
    exact ⟨h2, hi.trans hi'⟩

theorem Ended.read_none (h : t.Ended) {max : Option Nat} :
    (t.read max).1 = none ↔ t.rcvbytes = 0 := by
  unfold Tcb.read
  split
  next hb => simp [h.fin, hb]
  next hb => simp [hb]

theorem call_finRcvd {a : Call} (ha : ¬∃ seg now, a = .segment seg now) :
    (t.call a).finRcvd = t.finRcvd := by
  cases a with
  | connect now =>
    show (t.connect now).finRcvd = t.finRcvd
    unfold Tcb.connect
    simp only
    split <;> rfl
  | listen =>
    show t.listen.finRcvd = t.finRcvd
    unfold Tcb.listen
    split <;> rfl
  | close now =>
    show (t.close now).finRcvd = t.finRcvd
    unfold Tcb.close
    simp only
    split
    · rfl
    split
    · rfl
    split
    · rfl
    · exact (keeps_transmit (E := False)).finRcvd
  | abort now =>
    show (t.abort now).finRcvd = t.finRcvd
    unfold Tcb.abort
    simp only
    split <;> rfl
  | write data now => exact (keeps_write (E := False) data now).finRcvd
  | read max =>
    show (t.read max).2.finRcvd = t.finRcvd
    unfold Tcb.read
    split
    · rfl
    simp only
    split
    · exact (keeps_ack (E := False)).finRcvd
    · rfl
  | tick now => exact (keeps_tick (E := True) now fun _ => trivial).finRcvd
  | segment seg now => exact absurd ⟨seg, now, rfl⟩ ha
  | take | events => rfl

/-- The call takes a FIN in front of `n`, of the segment that arrives or of one that is held. -/
def FinAt (t : Tcb) (a : Call) (n : Seq) : Prop :=
  ∃ seg now, a = .segment seg now ∧ ∃ x ∈ t.ooo ++ [seg.held], x.fin = true ∧ n = x.behind

theorem call_takes {a : Call} (hf : t.finRcvd = false) (ha : t.Quiet a)
    (h : (t.call a).finRcvd = true) : (t.call a).Ended ∧ t.FinAt a (t.call a).rcvNxt := by
  by_cases hs : ∃ seg now, a = .segment seg now
  swap
  · exact absurd (hf.symm.trans ((call_finRcvd hs).symm.trans h)) Bool.false_ne_true
  obtain ⟨seg, now, rfl⟩ := hs
  have hL : Clean (t.ooo ++ [seg.held]) := (if_neg (hf ▸ Bool.false_ne_true)).mp ha
  have h0 : Cut (t.ooo ++ [seg.held]) t t := .waiting hf hf fun x hx => mem_append_left _ hx
  rcases h0.segment (fun _ => hL) (mem_append_right _ (mem_singleton.mpr rfl)) now with h1 | h1
  · obtain ⟨x, hx⟩ := h1.taken hf h
    exact ⟨h1.isEnded h, seg, now, rfl, x, hx⟩
  · exact absurd (h1.2.symm.trans h) Bool.false_ne_true

/-- An end that has read the three bytes its peer wrote. -/
def hearing : Tcb := (met (exchange.take 8 ++ [(true, .read none)]) true).t

def theFin : Call := .segment ⟨1, 2, 104, 501, { ackFlags with fin := true }, 65535, [], none⟩ none

def byteBehind : Call := .segment ⟨1, 2, 105, 501, ackFlags, 65535, [9], none⟩ none

end Tcb

end Nlos.Tcp
