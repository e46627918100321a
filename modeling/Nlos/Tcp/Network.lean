import Nlos.Tcp.Reassembly

/-!
# Two ends and a network

Two connections that exchange the segments they send, over a network that loses, repeats, delays and
reorders them: any segment that was ever sent may arrive, at any time.

This needs two things of the ends. A connection that ends throws away what was not read: after the
last acknowledgment, a reset or a timeout, `read` reports the end of the stream at once if the
peer's FIN had arrived. And `tick` on a connection that has ended with the retransmission timer
running sends its FIN at the first number that is not acknowledged, in front of data that was never
delivered.
-/

namespace Nlos.Tcp

open Serial (shift)
open List

/-! ## What one end has heard of the other -/

structure Tcb.Blank (t : Tcb) : Prop where
  rcvq : t.rcvq = []
  rcvbytes : t.rcvbytes = 0
  ooo : t.ooo = []
  finRcvd : t.finRcvd = false

/-- The states a connection is in until our SYN is acknowledged. -/
def State.fresh : State → Bool
  | .listen | .synSent | .synReceived => true
  | _ => false

theorem State.fresh_iff {s : State} : s.fresh = false ↔ s.synced = true ∨ s = .closed := by
  cases s <;> decide

theorem State.Stays.fresh {s s' : State} (h : s.Stays s') (hs : s.fresh = false) :
    s'.fresh = false := by
  rcases h with h | ⟨-, h⟩
  · rw [h, hs]
  · exact State.fresh_iff.mpr (.inl h)

/-- An end that has read `R` of the stream `V` of the other end: it has heard nothing yet, or it has
the stream up to some byte, or it is over. -/
inductive Hears (V : Bytes) (fin : Bool) (iss : Seq) (R : Bytes) (t : Tcb) : Prop where
  | blank (hs : t.state.synced = false) (hR : R = []) (hb : t.Blank)
      (hn : t.state = .synReceived → t.rcvNxt = shift iss 1)
  | alive (r : Nat) (hs : t.state.synced = true) (h : Received V fin iss R r t.inbox)
  | gone (hs : t.state = .closed) (hb : t.rcvbytes = 0) (hR : R <+: V)
      (he : t.finRcvd = true → fin = true ∧ R = V)

section Hears

variable {E : Prop} {V R d : Bytes} {fin fin' : Bool} {iss : Seq} {t t' : Tcb} {seg : Seg} {r : Nat}

theorem Piece.grow {h : Held} (hp : Piece V fin iss h) (hd : fin = true → d = [])
    (hf : fin = true → fin' = true) : Piece (V ++ d) fin' iss h := by
  obtain ⟨p, h1, h2, h3, h4, h5⟩ := hp
  refine ⟨p, h1, h2, ?_, ?_, fun h => ?_⟩
  · rw [length_append]
    omega
  · rw [drop_append_of_le_length (by omega)]
    exact h4.trans (prefix_append _ _)
  · obtain ⟨h6, h7⟩ := h5 h
    rw [hd h6, append_nil]
    exact ⟨hf h6, h7⟩

theorem Received.grow {b : Inbox} (h : Received V fin iss R r b) (hd : fin = true → d = [])
    (hf : fin = true → fin' = true) :
    Received (V ++ d) fin' iss R r b where
  next := h.next
  le := by
    have := h.le
    rw [length_append]
    omega
  text := by rw [take_append_of_le_length h.le, h.text]
  bytes := h.bytes
  ended := fun hr => by
    obtain ⟨h1, h2⟩ := h.ended hr
    rw [hd h1, append_nil]
    exact ⟨hf h1, h2⟩
  held := fun x hx => (h.held x hx).grow hd hf

/-- The other end may write more, until it has sent its FIN. -/
theorem Hears.grow (h : Hears V fin iss R t) (hd : fin = true → d = [])
    (hf : fin = true → fin' = true) : Hears (V ++ d) fin' iss R t := by
  cases h with
  | blank hs hR hb hn => exact .blank hs hR hb hn
  | alive r hs h => exact .alive r hs (h.grow hd hf)
  | gone hs hb hR he =>
    refine .gone hs hb (hR.trans (prefix_append _ _)) fun hr => ?_
    obtain ⟨h1, h2⟩ := he hr
    rw [hd h1, append_nil]
    exact ⟨hf h1, h2⟩

theorem Received.read_le (h : Received V fin iss R r t.inbox) : R <+: V :=
  (prefix_append _ _).trans (h.text ▸ take_prefix r V)

/-- With nothing left to read, the FIN says that the whole stream was read. -/
theorem Received.all_read (h : Received V fin iss R r t.inbox) (hb : t.rcvbytes = 0)
    (hf : t.finRcvd = true) : fin = true ∧ R = V := by
  obtain ⟨h1, h2⟩ := h.ended hf
  have hq : t.rcvq.flatten = [] := length_eq_zero_iff.mp (h.bytes.symm.trans hb)
  have ht := h.text
  rw [show t.inbox.rcvq.flatten = [] from hq, append_nil, h2, take_length] at ht
  exact ⟨h1, ht⟩

theorem Keeps.fresh (hk : Keeps E t t') (hs : t.state.fresh = false) : t'.state.fresh = false := by
  rcases hk with ⟨-, h⟩ | ⟨-, h, -⟩
  · exact h.fresh hs
  · rw [h]
    rfl

theorem Keeps.asked (hk : Keeps E t t') : t'.finPending = t.finPending := by
  rcases hk with ⟨h, -⟩ | ⟨-, -, h⟩ <;> exact congrArg Inbox.finPending h

/-- What leaves the receiving half alone, or ends the connection with everything read. -/
theorem Hears.keeps (h : Hears V fin iss R t) (hk : Keeps E t t')
    (he : E → t.finRcvd = true → t.rcvbytes = 0) : Hears V fin iss R t' := by
  rcases hk with ⟨hk, hs'⟩ | ⟨hE, hc, hk⟩
  · have e1 : t'.rcvNxt = t.rcvNxt := congrArg Inbox.rcvNxt hk
    have e2 : t'.rcvq = t.rcvq := congrArg Inbox.rcvq hk
    have e3 : t'.rcvbytes = t.rcvbytes := congrArg Inbox.rcvbytes hk
    have e4 : t'.ooo = t.ooo := congrArg Inbox.ooo hk
    have e5 : t'.finRcvd = t.finRcvd := congrArg Inbox.finRcvd hk
    cases h with
    | blank hs hR hb hn =>
      have hst := hs'.of_not_synced hs
      exact .blank (hst ▸ hs) hR
        ⟨e2.trans hb.rcvq, e3.trans hb.rcvbytes, e4.trans hb.ooo, e5.trans hb.finRcvd⟩
        fun h => e1.trans (hn (hst.symm.trans h))
    | alive r hs h => exact .alive r (hs'.synced hs) (hk ▸ h)
    | gone hs hb hR he =>
      have hst := hs'.of_not_synced (by rw [hs]; rfl)
      exact .gone (hst.trans hs) (e3.trans hb) hR fun hr => he (e5.symm.trans hr)
  · have hb : t'.rcvbytes = 0 := congrArg Inbox.rcvbytes hk
    have hf : t'.finRcvd = t.finRcvd := congrArg Inbox.finRcvd hk
    cases h with
    | blank hs hR hb' hn =>
      exact .gone hc hb (hR ▸ nil_prefix) fun hr => nomatch (hf.trans hb'.finRcvd).symm.trans hr
    | alive r hs h =>
      exact .gone hc hb h.read_le fun hr => h.all_read (he hE (hf.symm.trans hr)) (hf.symm.trans hr)
    | gone hs hb' hR he => exact .gone hc hb hR fun hr => he (hf.symm.trans hr)

theorem Hears.read_le (h : Hears V fin iss R t) : R <+: V := by
  cases h with
  | blank _ hR => exact hR ▸ nil_prefix
  | alive r _ h => exact h.read_le
  | gone _ _ hR => exact hR

/-- Where `read` reports the end, everything was read. -/
theorem Hears.all_read (h : Hears V fin iss R t) (hb : t.rcvbytes = 0) (hf : t.finRcvd = true) :
    fin = true ∧ R = V := by
  cases h with
  | blank _ _ hb => exact nomatch hb.finRcvd.symm.trans hf
  | alive r _ h => exact h.all_read hb hf
  | gone _ _ _ he => exact he hf

/-- The end went from `t` to `t'` without being asked to close, and past the opening it stays there.
-/
structure Heard (V : Bytes) (fin : Bool) (iss : Seq) (R : Bytes) (t t' : Tcb) : Prop where
  hears : Hears V fin iss R t'
  asked : t'.finPending = t.finPending
  fresh : t.state.fresh = false → t'.state.fresh = false

theorem Hears.heard (h : Hears V fin iss R t) (hk : Keeps E t t')
    (he : E → t.finRcvd = true → t.rcvbytes = 0) : Heard V fin iss R t t' :=
  ⟨h.keeps hk he, hk.asked, hk.fresh⟩

theorem Heard.keeps {t'' : Tcb} (h : Heard V fin iss R t t') (hk : Keeps False t' t'') :
    Heard V fin iss R t t'' :=
  ⟨h.hears.keeps hk nofun, hk.asked.trans h.asked, fun hs => hk.fresh (h.fresh hs)⟩

/-! ## A segment of the other end -/

/-- A segment of the other end is a reset or carries a piece of its stream. -/
def Comes (V : Bytes) (fin : Bool) (iss : Seq) (g : Seg) : Prop :=
  g.flags.rst = true ∨ Carries V fin iss g

theorem Comes.carries (h : Comes V fin iss seg) (hr : ¬seg.flags.rst = true) :
    Carries V fin iss seg := h.resolve_left hr

theorem Carries.syn (h : Carries V fin iss seg) (hs : seg.flags.syn = true) :
    Tcp4.add seg.seq 1 = shift iss 1 := by
  obtain ⟨p, hp, -⟩ := h
  rw [hp.seq, (hp.syn hs).1, Serial.shift_zero]
  rfl

theorem Received.start (hb : t.Blank) (hn : t.rcvNxt = shift iss 1) :
    Received V fin iss [] 0 t.inbox where
  next := by
    show t.rcvNxt = shift iss (1 + 0 + if t.finRcvd then 1 else 0)
    rw [hb.finRcvd]
    exact hn
  le := Nat.zero_le _
  text := by
    show [] ++ t.rcvq.flatten = _
    rw [hb.rcvq]
    rfl
  bytes := by
    show t.rcvbytes = t.rcvq.flatten.length
    rw [hb.rcvq, hb.rcvbytes]
    rfl
  ended := fun h => nomatch hb.finRcvd.symm.trans h
  held := fun x hx => by
    rw [show t.inbox.ooo = [] from hb.ooo] at hx
    cases hx

theorem heard_inListen (hs : t.state = .listen) (hb : t.Blank) (hg : Comes V fin iss seg) :
    Heard V fin iss [] t (t.inListen seg) := by
  have h0 : ∀ {t' : Tcb}, Keeps False t t' → Heard V fin iss [] t t' := fun hk =>
    Hears.heard (.blank (by rw [hs]; rfl) rfl hb fun h => by rw [hs] at h; cases h) hk nofun
  unfold Tcb.inListen
  split
  · exact h0 .refl
  next hr =>
  split
  · exact h0 (.same rfl rfl)
  split
  · exact h0 (.same rfl rfl)
  next hsyn =>
  have hsyn' : seg.flags.syn = true := by simpa using hsyn
  refine ⟨.blank rfl rfl { hb with } fun _ => (hg.carries hr).syn hsyn', rfl, fun h => ?_⟩
  rw [hs] at h
  cases h

/-- A SYN in SYN-SENT sets the number expected next and leaves the data received alone. -/
theorem synSentSyn_keeps (t : Tcb) (seg : Seg) (acked : Bool) : ∃ t2,
    Keeps False { t with rcvNxt := Tcp4.add seg.seq 1 } t2 ∧
    (Keeps False (t2.opened seg) (t.synSentSyn seg acked) ∨
      t.synSentSyn seg acked = ({ t2 with state := .synReceived }.takeWindow seg).sendSynAck) := by
  unfold Tcb.synSentSyn
  simp only
  generalize ht1 : (({ t with irs := seg.seq, rcvNxt := Tcp4.add seg.seq 1 }.learnMss
    seg).learnSack seg).initCc = t1
  have h1 : Keeps False { t with rcvNxt := Tcp4.add seg.seq 1 } t1 := ht1 ▸ .same rfl rfl
  have h2 : Keeps False t1
      (if acked = true then { t1 with sndUna := seg.ack }.acked seg 0 else t1) := by
    split
    · exact Keeps.trans (.same rfl rfl) (keeps_acked 0)
    · exact .refl
  generalize (if acked = true then { t1 with sndUna := seg.ack }.acked seg 0 else t1) = t2 at h2 ⊢
  refine ⟨t2, h1.trans h2, ?_⟩
  split
  · exact .inl (keeps_ack.trans (Keeps.trans (.same rfl rfl) keeps_transmit))
  · exact .inr rfl

theorem heard_synSentSyn (hs : t.state = .synSent) (hb : t.Blank)
    (hn : Tcp4.add seg.seq 1 = shift iss 1) (acked : Bool) :
    Heard V fin iss [] t (t.synSentSyn seg acked) := by
  have hfresh : ∀ {P : Prop}, t.state.fresh = false → P := fun h => by
    rw [hs] at h
    cases h
  obtain ⟨t2, hk, h⟩ := synSentSyn_keeps t seg acked
  have e := hk.inbox.1
  have hp2 : t2.finPending = t.finPending := hk.asked
  have hb2 : t2.Blank :=
    ⟨(congrArg Inbox.rcvq e).trans hb.rcvq, (congrArg Inbox.rcvbytes e).trans hb.rcvbytes,
    (congrArg Inbox.ooo e).trans hb.ooo, (congrArg Inbox.finRcvd e).trans hb.finRcvd⟩
  have hn2 : t2.rcvNxt = shift iss 1 := (congrArg Inbox.rcvNxt e).trans hn
  rcases h with hk2 | he
  · have hal : Heard V fin iss [] t (t2.opened seg) :=
      ⟨.alive 0 rfl (Received.start { hb2 with } hn2), hp2, hfresh⟩
    exact hal.keeps hk2
  · rw [he]
    exact ⟨.blank rfl rfl { hb2 with } fun _ => hn2, hp2, hfresh⟩

theorem heard_inSynSent (hs : t.state = .synSent) (hb : t.Blank) (hg : Comes V fin iss seg) :
    Heard V fin iss [] t (t.inSynSent seg) := by
  have h0 : ∀ {t' : Tcb}, Keeps True t t' → Heard V fin iss [] t t' := fun hk =>
    Hears.heard (.blank (by rw [hs]; rfl) rfl hb fun h => by rw [hs] at h; cases h) hk fun _ _ =>
      hb.rcvbytes
  unfold Tcb.inSynSent
  split
  · split
    · exact h0 .refl
    · exact h0 (.same rfl rfl)
  split
  · split
    · exact h0 (.dead trivial _ _)
    · exact h0 .refl
  next hr =>
  split
  · exact h0 .refl
  next hsyn =>
  have hsyn' : seg.flags.syn = true := by simpa using hsyn
  exact heard_synSentSyn hs hb ((hg.carries hr).syn hsyn') _

/-- The text of a segment whose acknowledgment was looked at. -/
theorem Heard.afterAck {t0 : Tcb} (hV : V.length + 4 < 2 ^ 31) (h : Heard V fin iss R t0 t)
    (hs : t.state.fresh = false)
    (hg : Carries V fin iss seg) : Heard V fin iss R t0 (t.afterAck seg) := by
  unfold Tcb.afterAck
  split
  · exact h.keeps (acks_inTimeWait seg).keeps
  refine Heard.keeps ?_ keeps_transmit
  split
  next hc =>
    have hsy : t.state.synced = true := (State.fresh_iff.mp hs).resolve_right hc
    cases h.hears with
    | blank hn => exact nomatch hn.symm.trans hsy
    | gone hn => exact absurd hn hc
    | alive r _ hr =>
      have hrcv : t.state ≠ .synReceived := fun he => by
        rw [he] at hsy
        cases hsy
      obtain ⟨r', h1, h2, h3⟩ := hr.arrive hV hg hrcv
      exact ⟨.alive r' (h2.synced hsy) h1, h3.trans h.asked, fun _ => h2.fresh hs⟩
  · exact h

theorem heard_checkAck (h : Hears V fin iss R t) (hi : t.state.idle = false)
    (hs : t.state ≠ .synSent)
    (he : t.state = .lastAck → t.finAcked seg = true → t.finRcvd = true → t.rcvbytes = 0) :
    Heard V fin iss R t (t.checkAck seg).1 ∧
    ((t.checkAck seg).2 = true → (t.checkAck seg).1.state.fresh = false) := by
  unfold Tcb.checkAck
  split
  · exact ⟨h.heard (.refl : Keeps False t t) nofun, nofun⟩
  split
  next hrcv =>
    split
    next hack =>
      -- the connection is there, with nothing received
      have hst : Heard V fin iss R t ((t.opened seg).signal .established none) := by
        cases h with
        | blank _ hR hb hn =>
          rw [hR]
          refine ⟨.alive 0 rfl ?_, rfl, fun _ => rfl⟩
          exact Received.start
            { hb with } (hn hrcv)
        | alive r hsy =>
          rw [hrcv] at hsy
          cases hsy
        | gone hc =>
          rw [hrcv] at hc
          cases hc
      have hk : Keeps False ((t.opened seg).signal .established none)
          (((t.opened seg).signal .established none).checkAckOpen seg).1 :=
        keeps_checkAckOpen fun h => by cases h
      exact ⟨hst.keeps hk, fun _ => hk.fresh rfl⟩
    · exact ⟨h.heard (.same rfl rfl : Keeps False t (t.reset seg.ack)) nofun, nofun⟩
  next hrcv =>
    have hfresh : t.state.fresh = false := by
      revert hi hs hrcv
      cases t.state <;> simp [State.fresh, State.idle]
    have hk : Keeps (t.state = .lastAck ∧ t.finAcked seg = true) t (t.checkAckOpen seg).1 :=
      keeps_checkAckOpen fun h1 h2 => ⟨h1, h2⟩
    exact ⟨h.heard hk fun hE => he hE.1 hE.2, fun _ => hk.fresh hfresh⟩

theorem heard_onRst (h : Hears V fin iss R t) (he : t.finRcvd = true → t.rcvbytes = 0) :
    Heard V fin iss R t t.onRst := by
  unfold Tcb.onRst
  split
  next hp =>
    cases h with
    | blank _ hR hb =>
      refine ⟨.blank rfl hR { hb with } nofun, rfl, fun hf => ?_⟩
      rw [hp.1] at hf
      cases hf
    | alive r hsy =>
      rw [hp.1] at hsy
      cases hsy
    | gone hc =>
      rw [hp.1] at hc
      cases hc
  · exact h.heard (.dead trivial _ _ : Keeps True t _) fun _ => he

theorem heard_inSynchronized (hV : V.length + 4 < 2 ^ 31) (h : Hears V fin iss R t)
    (hi : t.state.idle = false) (hs : t.state ≠ .synSent) (hg : Comes V fin iss seg)
    (he : t.cuts seg = true → t.finRcvd = true → t.rcvbytes = 0) :
    Heard V fin iss R t (t.inSynchronized seg) := by
  unfold Tcb.cuts at he
  simp only [Bool.or_eq_true, Bool.and_eq_true, beq_iff_eq] at he
  unfold Tcb.inSynchronized
  split
  · exact h.heard ((acks_onUnacceptable seg).keeps : Keeps False t _) nofun
  next hacc =>
  have hacc' : t.acceptable seg = true := by simpa using hacc
  split
  next hr => exact heard_onRst h (he (.inl ⟨hr, hacc'⟩))
  next hr =>
  split
  · exact h.heard (keeps_ack : Keeps False t _) nofun
  obtain ⟨h1, h2⟩ := heard_checkAck h hi hs fun h3 h4 => he (.inr ⟨h3, h4⟩)
  rcases hc : t.checkAck seg with ⟨t1, b⟩
  rw [hc] at h1 h2
  cases b with
  | false => exact h1
  | true => exact h1.afterAck hV (h2 rfl) (hg.carries hr)

theorem Hears.not_synced (h : Hears V fin iss R t) (hs : t.state.fresh = true) :
    t.Blank ∧ R = [] := by
  cases h with
  | blank _ hR hb => exact ⟨hb, hR⟩
  | alive r hsy => exact nomatch (State.fresh_iff.mpr (.inl hsy)).symm.trans hs
  | gone hc =>
    rw [hc] at hs
    cases hs

theorem heard_segment (hV : V.length + 4 < 2 ^ 31) (h : Hears V fin iss R t) (now : Option Int)
    (hg : Comes V fin iss seg) (he : t.cuts seg = true → t.finRcvd = true → t.rcvbytes = 0) :
    Heard V fin iss R t (t.segment seg now) := by
  have h1 : Heard V fin iss R t (t.attime now) := h.heard (.same rfl rfl : Keeps False t _) nofun
  have he1 : (t.attime now).cuts seg = true → (t.attime now).finRcvd = true →
      (t.attime now).rcvbytes = 0 := he
  suffices Heard V fin iss R (t.attime now) (t.segment seg now) from
    ⟨this.hears, this.asked.trans h1.asked, fun hs => this.fresh (h1.fresh hs)⟩
  have hh := h1.hears
  have fresh : t.state.fresh = true → (t.attime now).Blank ∧ R = [] := hh.not_synced
  refine segment_cases (fun _ => ?_) (fun hs => ?_) (fun hs => ?_) fun hi hs => ?_
  · exact hh.heard (.refl : Keeps False (t.attime now) _) nofun
  · obtain ⟨hb, rfl⟩ := fresh (by rw [hs]; rfl)
    exact heard_inListen hs hb hg
  · obtain ⟨hb, rfl⟩ := fresh (by rw [hs]; rfl)
    exact heard_inSynSent hs hb hg
  · exact heard_inSynchronized hV hh hi hs hg he1

/-! ## What is read -/

theorem takeChunks_flatten (want : Nat) (q : List Bytes) :
    (Tcb.takeChunks want q).1 ++ (Tcb.takeChunks want q).2.flatten = q.flatten := by
  induction q generalizing want with
  | nil => rfl
  | cons chunk q ih =>
    unfold Tcb.takeChunks
    split
    · rfl
    split
    · rw [append_assoc, ih, flatten_cons]
    · rw [flatten_cons, ← append_assoc, take_append_drop, flatten_cons]

theorem Received.read (h : Received V fin iss R r t.inbox) (want : Nat) :
    Received V fin iss (R ++ (Tcb.takeChunks want t.rcvq).1) r
      { t with
        rcvq := (Tcb.takeChunks want t.rcvq).2
        rcvbytes := t.rcvbytes - (Tcb.takeChunks want t.rcvq).1.length }.inbox := by
  have hq := takeChunks_flatten want t.rcvq
  refine { h with text := ?_, bytes := ?_ }
  · show R ++ _ ++ (Tcb.takeChunks want t.rcvq).2.flatten = _
    rw [append_assoc, hq]
    exact h.text
  · show t.rcvbytes - (Tcb.takeChunks want t.rcvq).1.length =
      (Tcb.takeChunks want t.rcvq).2.flatten.length
    rw [show t.rcvbytes = _ from h.bytes, show t.inbox.rcvq = t.rcvq from rfl, ← hq, length_append]
    omega

theorem heard_read (h : Hears V fin iss R t) (max : Option Nat) :
    Heard V fin iss (R ++ ((t.read max).1).getD []) t (t.read max).2 ∧
    ((t.read max).1 = none → fin = true ∧ R = V) := by
  unfold Tcb.read
  split
  next hb =>
    split
    next hf => exact ⟨(append_nil R).symm ▸ h.heard (.refl : Keeps False t _) nofun, fun _ => h.all_read hb hf⟩
    · exact ⟨(append_nil R).symm ▸ h.heard (.refl : Keeps False t _) nofun, nofun⟩
  next hb =>
  refine ⟨?_, nofun⟩
  cases h with
  | blank _ _ hbl => exact absurd hbl.rcvbytes hb
  | gone _ h0 => exact absurd h0 hb
  | alive r hs hr =>
    simp only [Option.getD_some]
    generalize min (max.getD t.rcvbytes) t.rcvbytes = want
    have hal : Heard V fin iss (R ++ (Tcb.takeChunks want t.rcvq).1) t
        { t with
          rcvq := (Tcb.takeChunks want t.rcvq).2
          rcvbytes := t.rcvbytes - (Tcb.takeChunks want t.rcvq).1.length } :=
      ⟨.alive r hs (hr.read want), rfl, id⟩
    split
    · exact hal.keeps keeps_ack
    · exact hal

end Hears

/-! ## The ends -/

namespace Tcb

/-- What a call gives to the user; no answer is the end of the stream. -/
def answer (t : Tcb) : Call → Option Bytes
  | .read max => (t.read max).1
  | _ => some []

end Tcb

def Call.opens : Call → Bool
  | .connect _ | .listen => true
  | _ => false

def Call.closes : Call → Bool
  | .close _ => true
  | _ => false

/-- One end, with what was done to it: whether it was opened and closed, what was written and read,
whether the end of the stream was reported, and what it has sent. -/
structure End where
  t : Tcb
  opened : Bool
  closed : Bool
  written : Bytes
  readout : Bytes
  ended : Bool
  sent : List Seg

def End.new (cfg : Cfg) : End := ⟨.new cfg, false, false, [], [], false, []⟩

def End.call (v : End) (a : Call) : End :=
  { t := v.t.call a
    opened := v.opened || a.opens
    closed := v.closed || a.closes
    written := v.written ++ v.t.accepts a
    readout := v.readout ++ (v.t.answer a).getD []
    ended := v.ended || (v.t.answer a).isNone
    sent := v.sent ++ v.t.appends a }

abbrev Net := Bool → End

namespace Net

def step (n : Net) (act : Bool × Call) : Net := Function.update n act.1 ((n act.1).call act.2)

/-- Each end is opened once, takes less than the numbers allow, and hears what the other end sent.
-/
def Legal (n : Net) : Bool × Call → Prop
  | (e, .connect _) | (e, .listen) => (n e).opened = false
  | (_, .abort _) => False
  | (e, .write data now) => ((n e).written ++ (n e).t.taken data now).length < 2 ^ 31 - 2 ^ 17
  | (e, .segment g _) => g ∈ (n !e).sent
  | _ => True

/-- A connection that ends after the peer's FIN arrived has nothing left to read, and once it has
ended its retransmission timer is not heeded. -/
def Careful (n : Net) : Bool × Call → Prop
  | (e, .tick now) =>
    ((n e).t.expires (now.getD (n e).t.now) = true → (n e).t.finRcvd = true → (n e).t.rcvbytes = 0) ∧
      ((n e).t.state = .closed → Tcb.due (now.getD (n e).t.now) (n e).t.retx = false)
  | (e, .segment g _) => (n e).t.cuts g = true → (n e).t.finRcvd = true → (n e).t.rcvbytes = 0
  | _ => True

instance (n : Net) : (act : Bool × Call) → Decidable (n.Legal act)
  | (_, .connect _) | (_, .listen) => inferInstanceAs (Decidable (_ = _))
  | (_, .abort _) => inferInstanceAs (Decidable False)
  | (_, .write _ _) => inferInstanceAs (Decidable (_ < _))
  | (_, .segment _ _) => inferInstanceAs (Decidable (_ ∈ _))
  | (_, .close _) | (_, .read _) | (_, .tick _) | (_, .take) | (_, .events) =>
    inferInstanceAs (Decidable True)

instance (n : Net) : (act : Bool × Call) → Decidable (n.Careful act)
  | (_, .tick _) => inferInstanceAs (Decidable ((_ → _ → _) ∧ (_ → _)))
  | (_, .segment _ _) => inferInstanceAs (Decidable (_ → _ → _))
  | (_, .connect _) | (_, .listen) | (_, .close _) | (_, .abort _) | (_, .write _ _) | (_,
      .read _) | (_, .take) | (_, .events) =>
    inferInstanceAs (Decidable True)

/-- What calls that all meet `ok` lead to, from two new ends. -/
def Run (ok : Net → Bool × Call → Prop) : Net → Prop :=
  Runs (fun n => ∃ cfg : Bool → Cfg, n = fun e => .new (cfg e)) ok step

end Net

/-! ## One end of the run -/

section Ends

variable {V W : Bytes} {u x : Nat} {t : Tcb} {a : Call} {v : End} {n : Net}

def Tcb.Untouched (t : Tcb) : Prop := ∃ cfg now, t = { Tcb.new cfg with now := now }

theorem Tcb.Untouched.call (h : t.Untouched) (ha : a.opens = false) (hab : ∀ now, a ≠ .abort now) :
    (t.call a).Untouched ∧ t.accepts a = [] ∧ t.answer a = some [] := by
  obtain ⟨cfg, now0, rfl⟩ := h
  cases a with
  | connect now | listen => cases ha
  | abort now => exact absurd rfl (hab now)
  | _ => exact ⟨⟨cfg, _, rfl⟩, rfl, rfl⟩

structure End.Kept (v : End) : Prop where
  accounts : ∃ u x, Accounts v.written u x v.t.half
  sent : ∀ g ∈ v.sent, Comes v.written v.t.finSent v.t.iss g
  asked : v.t.finPending = true → v.closed = true
  fresh : v.t.state.fresh = true → v.written = []
  short : v.written.length < 2 ^ 31 - 2 ^ 17
  new : v.opened = false → v.t.Untouched ∧ v.written = [] ∧ v.readout = []

structure End.Allows (v : End) (a : Call) : Prop where
  opens : a.opens = true → v.opened = false
  stays : ∀ now, a ≠ .abort now
  short : (v.written ++ v.t.accepts a).length < 2 ^ 31 - 2 ^ 17
  tick : ∀ now, a = .tick now → v.t.state = .closed → Tcb.due (now.getD v.t.now) v.t.retx = false

/-- The numbers do not come round in a stream that is short enough. -/
theorem Accounts.no_lap (hx : Accounts W u x t.half) (hW : W.length < 2 ^ 31 - 2 ^ 17) (seg : Seg) :
    t.lapsSyn seg = false := by
  unfold Tcb.lapsSyn
  cases hs : t.state.synced with
  | false => rfl
  | true =>
    obtain ⟨hi, hp⟩ := State.synced_iff.mp hs
    have ho := hx.flow hi hp
    have hone := ho.one
    have hux := hx.le
    have hux' : x ≤ W.length + 2 := by
      cases hf : t.finSent with
      | false => exact (ho.unsaid hf).trans (by omega)
      | true => exact (ho.said hf).1.le
    have hle : Tcp4.le t.sndUna t.iss = false := by
      rw [hx.sndUna]
      refine Bool.eq_false_iff.mpr fun h => ?_
      have := (Tcp4.le_shift t.iss (i := u) (j := 0) (by omega) (by omega)).mp
        (by rwa [Serial.shift_zero])
      omega
    rw [hle, Bool.and_false, Bool.false_and]

theorem segment_closed {seg : Seg} (hs : t.state = .closed) (now : Option Int) :
    t.segment seg now = t.attime now := by
  refine segment_cases (P := (· = t.attime now)) (fun _ => rfl) (fun h => ?_) (fun h => ?_)
    fun h _ => absurd hs (State.ne_closed h)
  · exact nomatch hs.symm.trans h
  · exact nomatch hs.symm.trans h

theorem closed_emits {A B : Prop} (hs : t.state = .closed) (ho : a.opens = false) (ha : a ≠ .take)
    (ht : ∀ now, a = .tick now → Tcb.due (now.getD t.now) t.retx = false) :
    t.accepts a = [] ∧ Emits A B W u t (t.call a) := by
  cases a with
  | connect now | listen => cases ho
  | close now => exact ⟨rfl, emits_close now⟩
  | abort now => exact ⟨rfl, emits_abort now⟩
  | write data now =>
    have hr : (t.attime now).writeRoom data = none :=
      if_pos ⟨by rw [show (t.attime now).state = _ from hs]; decide,
      by rw [show (t.attime now).state = _ from hs]; decide⟩
    have he : t.write data now = (none, t.attime now) := by
      unfold Tcb.write
      simp only [hr]
    refine ⟨?_, ?_⟩
    · show data.take ((t.write data now).1.getD 0) = []
      rw [he]
      exact take_zero
    · show Emits A B W u t (t.write data now).2
      rw [he]
      exact emits_attime now
  | read max => exact ⟨rfl, emits_read max⟩
  | tick now => exact ⟨rfl, emits_tick now fun hd => nomatch (ht now rfl).symm.trans hd⟩
  | segment seg now =>
    exact ⟨rfl, show Emits A B W u t (t.segment seg now) from segment_closed hs now ▸ emits_attime now⟩
  | take => exact absurd rfl ha
  | events => exact ⟨rfl, .quiet rfl rfl⟩

theorem End.Kept.sends (hk : v.Kept) (ha : v.Allows a) (hne : a ≠ .take) :
    ∃ u x, Sends False True (v.written ++ v.t.accepts a) u x v.t (v.t.call a) := by
  obtain ⟨u, x, hx⟩ := hk.accounts
  rcases em (v.t.stream v.written = v.written) with hst | hst
  · have hgo : Goes False True (v.t.stream v.written ++ v.t.accepts a) x v.t (v.t.call a) := by
      refine call_goes hx hne ?_ ?_ ?_ ?_
      · intro ho _
        have hop : a.opens = true := by rcases ho with rfl | ⟨now, rfl⟩ <;> rfl
        obtain ⟨⟨cfg, now, ht⟩, -⟩ := hk.new (ha.opens hop)
        rw [ht]
        exact ⟨rfl, rfl⟩
      · rintro data now rfl _
        have := ha.short
        rw [length_append] at this
        have hd : v.t.accepts (.write data now) = v.t.taken data now := rfl
        rw [hd] at this
        omega
      · rintro now rfl hd
        exact ⟨nofun, fun _ hs => nomatch (ha.tick now rfl hs).symm.trans hd⟩
      · rintro seg now rfl
        exact ⟨hx.no_lap hk.short seg, nofun, nofun⟩
    rw [hst] at hgo
    obtain ⟨u', x', hs, -⟩ := hgo
    exact ⟨u', x', hs⟩
  · -- something was written and the connection has ended
    have hidle : v.t.state.idle = true := by
      by_contra h
      exact hst (if_neg h)
    have hne' : v.written ≠ [] := fun h => hst (by rw [h]; exact ite_self _)
    have hs : v.t.state = .closed := by
      have hf : ¬v.t.state.fresh = true := fun h => hne' (hk.fresh h)
      revert hidle hf
      cases v.t.state <;> simp [State.idle, State.fresh]
    have ho : a.opens = false := Bool.eq_false_iff.mpr fun h => hne' (hk.new (ha.opens h)).2.1
    obtain ⟨hacc, hem⟩ := closed_emits hs ho hne fun now h => ha.tick now h hs
    obtain ⟨x', -, hx'⟩ := hem x hx
    rw [hacc, append_nil]
    exact ⟨u, x', hx'⟩

/-- What the other end writes on does not change what it has said. -/
theorem Comes.grow {fin fin' : Bool} {iss : Seq} {g : Seg} {d : Bytes} (h : Comes V fin iss g)
    (hd : fin = true → d = []) (hf : fin = true → fin' = true) : Comes (V ++ d) fin' iss g := by
  rcases h with h | ⟨p, hp, hfin⟩
  · exact .inl h
  · refine .inr ⟨p, hp.append d, fun hg => ?_⟩
    obtain ⟨h1, h2⟩ := hfin hg
    rw [hd h1, append_nil]
    exact ⟨hf h1, h2⟩

theorem End.Kept.accepts (hk : v.Kept) (a : Call) (hf : v.t.finSent = true) :
    v.t.accepts a = [] := by
  obtain ⟨u, x, hx⟩ := hk.accounts
  cases a with
  | write data now =>
    rcases v.t.taken_length data now with h | ⟨-, hp, -⟩
    · exact h
    · exact nomatch hp.symm.trans (hx.asked hf)
  | _ => rfl

structure End.Grows (v : End) (a : Call) : Prop where
  accounts : ∃ u x, Accounts (v.written ++ v.t.accepts a) u x (v.t.call a).half
  iss : (v.t.call a).iss = v.t.iss
  fin : v.t.finSent = true → (v.t.call a).finSent = true
  sent : ∀ g ∈ v.t.appends a, Comes (v.written ++ v.t.accepts a) (v.t.call a).finSent v.t.iss g

theorem End.Kept.grows (hk : v.Kept) (ha : v.Allows a) : v.Grows a := by
  rcases em (a = .take) with rfl | hne
  · refine ⟨?_, rfl, id, nofun⟩
    rw [show v.t.accepts .take = [] from rfl, append_nil]
    exact hk.accounts
  · obtain ⟨u, x, hs⟩ := hk.sends ha hne
    obtain ⟨l, hl, hsound⟩ := hs.out
    refine ⟨⟨u, x, hs.accounts⟩, hs.iss, hs.fin, fun g hg => ?_⟩
    rw [appends_eq hne hl] at hg
    rcases hsound g hg with h | ⟨p, -, hp, -, hfin⟩
    · exact .inl h
    · exact .inr ⟨p, hp, hfin trivial⟩

/-! ## The other half of the end -/

variable {R : Bytes} {fin : Bool} {iss : Seq}

theorem Hears.ask (h : Hears V fin iss R t) (p : Bool) :
    Hears V fin iss R { t with finPending := p } := by
  cases h with
  | blank hs hR hb hn => exact .blank hs hR { hb with } hn
  | alive r hs h => exact .alive r hs { h with }
  | gone hs hb hR he => exact .gone hs hb hR he

structure Listens (V : Bytes) (fin : Bool) (iss : Seq) (R : Bytes) (t : Tcb) (a : Call) : Prop where
  hears : Hears V fin iss (R ++ (t.answer a).getD []) (t.call a)
  nil : t.answer a = none → fin = true ∧ R = V
  asked : (t.call a).finPending = true → t.finPending = true ∨ a.closes = true
  fresh : a.opens = false → t.state.fresh = false → (t.call a).state.fresh = false

theorem Heard.listens (h : Heard V fin iss R t (t.call a)) (ha : t.answer a = some []) :
    Listens V fin iss R t a where
  hears := by
    rw [ha]
    exact (append_nil R).symm ▸ h.hears
  nil := fun hn => by
    rw [ha] at hn
    cases hn
  asked := fun hp => .inl (h.asked.symm.trans hp)
  fresh := fun _ => h.fresh

theorem listens_open (ho : a.opens = true) (hb : (t.call a).Blank)
    (hs : (t.call a).state = .synSent ∨ (t.call a).state = .listen)
    (hp : (t.call a).finPending = t.finPending) (ha : t.answer a = some []) :
    Listens V fin iss [] t a := by
  have hsy : (t.call a).state.synced = false := by rcases hs with h | h <;> rw [h] <;> rfl
  have hn : (t.call a).state ≠ .synReceived := by rcases hs with h | h <;> rw [h] <;> decide
  refine ⟨?_, fun h => ?_, fun h => .inl (hp.symm.trans h), fun h => nomatch h.symm.trans ho⟩
  · rw [ha]
    exact .blank hsy rfl hb fun h => absurd h hn
  · rw [ha] at h
    cases h

theorem listens_close (h : Hears V fin iss R t) (now : Option Int) :
    Listens V fin iss R t (.close now) := by
  suffices Hears V fin iss R (t.close now) ∧
    (t.state.fresh = false → (t.close now).state.fresh = false) from
    ⟨(append_nil R).symm ▸ this.1, nofun, fun _ => .inr rfl, fun _ => this.2⟩
  rcases em (t.state = .listen) with hl | hl
  · obtain ⟨hb, hR⟩ := h.not_synced (by rw [hl]; rfl)
    have hf : ∀ {P : Prop}, t.state.fresh = false → P := fun h => by
      rw [hl] at h
      cases h
    unfold Tcb.close
    simp only
    split
    · exact ⟨h.keeps (.same rfl rfl : Keeps False t (t.attime now)) nofun, hf⟩
    split
    · exact ⟨.blank rfl hR { hb with } nofun, hf⟩
    next hn => exact absurd (.inr hl) hn
  · obtain ⟨p, hk⟩ := keeps_close now id hl
    refine ⟨(h.ask p).keeps hk fun hs _ => ?_, hk.fresh⟩
    exact (h.not_synced (by rw [hs]; rfl)).1.rcvbytes

/-- A call at an end that hears the other end's segments. -/
theorem listens (hV : V.length < 2 ^ 31 - 2 ^ 17) (h : Hears V fin iss R t)
    (hnew : a.opens = true → t.Untouched ∧ R = [])
    (hab : ∀ now, a ≠ .abort now) (hseg : ∀ g now, a = .segment g now → Comes V fin iss g)
    (htick : ∀ now, a = .tick now → t.expires (now.getD t.now) = true → t.finRcvd = true → t.rcvbytes = 0)
    (hcut : ∀ g now, a = .segment g now → t.cuts g = true → t.finRcvd = true → t.rcvbytes = 0) :
    Listens V fin iss R t a := by
  cases a with
  | connect now =>
    obtain ⟨⟨cfg, now0, rfl⟩, rfl⟩ := hnew rfl
    exact listens_open rfl ⟨rfl, rfl, rfl, rfl⟩ (.inl rfl) rfl rfl
  | listen =>
    obtain ⟨⟨cfg, now0, rfl⟩, rfl⟩ := hnew rfl
    exact listens_open rfl ⟨rfl, rfl, rfl, rfl⟩ (.inr rfl) rfl rfl
  | close now => exact listens_close h now
  | abort now => exact absurd rfl (hab now)
  | write data now =>
    exact Heard.listens (h.heard (keeps_write data now : Keeps False t _) nofun) rfl
  | read max =>
    obtain ⟨h1, h2⟩ := heard_read h max
    exact ⟨h1.hears, h2, fun hp => .inl (h1.asked.symm.trans hp), fun _ => h1.fresh⟩
  | tick now =>
    exact Heard.listens
      (h.heard (keeps_tick now id : Keeps (t.expires (now.getD t.now) = true) t _) (htick now rfl))
        rfl
  | segment g now =>
    exact Heard.listens (heard_segment (by omega) h now (hseg g now rfl) (hcut g now rfl)) rfl
  | take => exact Heard.listens (h.heard (.same rfl rfl : Keeps False t t.take) nofun) rfl
  | events => exact Heard.listens (h.heard (.same rfl rfl : Keeps False t t.events) nofun) rfl

/-! ## Both ends -/

structure End.Follows (v w : End) : Prop where
  hears : Hears w.written w.t.finSent w.t.iss v.readout v.t
  ended : v.ended = true → w.t.finSent = true ∧ v.readout = w.written

theorem End.Kept.call (hk : v.Kept) (ha : v.Allows a) (hl : Listens V fin iss v.readout v.t a) :
    (v.call a).Kept := by
  have hg := hk.grows ha
  refine ⟨hg.accounts, fun g hg' => ?_, fun hp => ?_, fun hf => ?_, ha.short, fun ho => ?_⟩
  · show Comes (v.written ++ v.t.accepts a) (v.t.call a).finSent (v.t.call a).iss g
    rw [hg.iss]
    rcases mem_append.mp hg' with hg' | hg'
    · exact (hk.sent g hg').grow (hk.accepts a) hg.fin
    · exact hg.sent g hg'
  · rcases hl.asked hp with h | h
    · exact Bool.or_eq_true_iff.mpr (.inl (hk.asked h))
    · exact Bool.or_eq_true_iff.mpr (.inr h)
  · -- what is written is written past the opening
    show v.written ++ v.t.accepts a = []
    cases ho : a.opens with
    | true =>
      rw [(hk.new (ha.opens ho)).2.1]
      cases a with
      | connect _ | listen => rfl
      | _ => cases ho
    | false =>
      have hf' : v.t.state.fresh = true := by
        by_contra h
        exact nomatch (hl.fresh ho (Bool.not_eq_true _ ▸ h)).symm.trans hf
      rw [hk.fresh hf', nil_append]
      cases a with
      | write data now =>
        rcases v.t.taken_length data now with h | ⟨hs, -, -⟩
        · exact h
        · rcases hs with hs | hs <;> rw [hs] at hf' <;> cases hf'
      | _ => rfl
  · obtain ⟨ho1, ho2⟩ := Bool.or_eq_false_iff.mp ho
    obtain ⟨hu, hw, hr⟩ := hk.new ho1
    obtain ⟨h1, h2, h3⟩ := hu.call ho2 ha.stays
    refine ⟨h1, ?_, ?_⟩
    · show v.written ++ v.t.accepts a = []
      rw [hw, h2]
      rfl
    · show v.readout ++ (v.t.answer a).getD [] = []
      rw [hr, h3]
      rfl

theorem End.Follows.call {w : End} (hf : v.Follows w)
    (hl : Listens w.written w.t.finSent w.t.iss v.readout v.t a) : (v.call a).Follows w := by
  refine ⟨hl.hears, fun he => ?_⟩
  have hle : v.readout ++ (v.t.answer a).getD [] <+: w.written := hl.hears.read_le
  have hall : w.t.finSent = true ∧ v.readout = w.written := by
    rcases Bool.or_eq_true_iff.mp he with h | h
    · exact hf.ended h
    · exact hl.nil (Option.isNone_iff_eq_none.mp h)
  refine ⟨hall.1, hle.eq_of_length_le ?_⟩
  rw [length_append, hall.2]
  omega

theorem End.Follows.grow {w : End} (hf : v.Follows w) (hk : w.Kept) (hg : w.Grows a) :
    v.Follows (w.call a) := by
  refine ⟨?_, fun he => ?_⟩
  · have := hf.hears.grow (hk.accepts a) hg.fin
    rwa [← hg.iss] at this
  · obtain ⟨h1, h2⟩ := hf.ended he
    refine ⟨hg.fin h1, ?_⟩
    show v.readout = w.written ++ w.t.accepts a
    rw [hk.accepts a h1, append_nil, h2]

def Net.Kept (n : Net) : Prop := ∀ e, (n e).Kept ∧ (n e).Follows (n !e)

theorem Net.Legal.allows {e : Bool} (hk : (n e).Kept) (hl : n.Legal (e, a))
    (hc : n.Careful (e, a)) : (n e).Allows a := by
  have plain : (n e).t.accepts a = [] →
      ((n e).written ++ (n e).t.accepts a).length < 2 ^ 31 - 2 ^ 17 := fun h => by
    rw [h, append_nil]
    exact hk.short
  cases a with
  | connect now | listen => exact ⟨fun _ => hl, nofun, plain rfl, nofun⟩
  | abort now => exact absurd hl id
  | write data now => exact ⟨nofun, nofun, hl, nofun⟩
  | tick now => exact ⟨nofun, nofun, plain rfl, fun _ h => by cases h; exact hc.2⟩
  | _ => exact ⟨nofun, nofun, plain rfl, nofun⟩

theorem Net.Kept.step {act : Bool × Call} (hk : n.Kept) (hl : n.Legal act) (hc : n.Careful act) :
    (n.step act).Kept := by
  obtain ⟨e, a⟩ := act
  obtain ⟨hke, hfe⟩ := hk e
  have ha := hl.allows hke hc
  have hlis : Listens (n !e).written (n !e).t.finSent (n !e).t.iss (n e).readout (n e).t a := by
    refine listens (hk !e).1.short hfe.hears (fun ho => ?_) ha.stays ?_ ?_ ?_
    · obtain ⟨h1, -, h2⟩ := hke.new (ha.opens ho)
      exact ⟨h1, h2⟩
    · rintro g now rfl
      exact (hk !e).1.sent g hl
    · rintro now rfl
      exact hc.1
    · rintro g now rfl
      exact hc
  have hsame : n.step (e, a) e = (n e).call a := Function.update_self _ _ _
  have hother : n.step (e, a) (!e) = n !e := Function.update_of_ne (Bool.not_ne_self e) _ _
  intro e'
  rcases Bool.eq_or_eq_not e' e with rfl | rfl
  · rw [hsame, hother]
    exact ⟨hke.call ha hlis, hfe.call hlis⟩
  · rw [Bool.not_not, hsame, hother]
    obtain ⟨h1, h2⟩ := hk !e
    rw [Bool.not_not] at h2
    exact ⟨h1, h2.grow hke (hke.grows ha)⟩

theorem Net.Run.kept (h : n.Run fun n act => n.Legal act ∧ n.Careful act) : n.Kept := by
  refine Runs.invariant ?_ ?_ h
  · rintro _ ⟨cfg, rfl⟩ e
    refine ⟨⟨⟨0, 0, .new (cfg e)⟩, nofun, nofun, fun _ => rfl, (by decide : 0 < 2 ^ 31 - 2 ^ 17),
      fun _ => ⟨⟨cfg e, _, rfl⟩, rfl, rfl⟩⟩, ?_, nofun⟩
    exact .blank rfl rfl ⟨rfl, rfl, rfl, rfl⟩ nofun
  · rintro n act hk ⟨hl, hc⟩
    exact hk.step hl hc

/-- Whatever arrives of what the ends send, what is read at one end is a prefix of what was written
at the other, and the end of the stream is reported where all of it was read and the other end was
closed. -/
theorem run_reads_what_is_written (h : n.Run fun n act => n.Legal act ∧ n.Careful act) (e : Bool) :
    (n e).readout <+: (n !e).written ∧
    ((n e).ended = true → (n e).readout = (n !e).written ∧ (n !e).closed = true) := by
  obtain ⟨-, hf⟩ := h.kept e
  refine ⟨hf.hears.read_le, fun he => ?_⟩
  obtain ⟨h1, h2⟩ := hf.ended he
  obtain ⟨u, x, hx⟩ := (h.kept !e).1.accounts
  exact ⟨h2, (h.kept !e).1.asked (hx.asked h1)⟩

def strangers : Net
  | false => .new ⟨1, 2, 100, none, none, none, false, none⟩
  | true => .new ⟨2, 1, 500, none, none, none, false, none⟩

def synOpt : Option Opt := some ⟨some 536, false, []⟩

/-- One end connects, writes three bytes and closes, and the other hears all of it. -/
def exchange : List (Bool × Call) :=
  [(true, .listen), (false, .connect (some 0)),
    (true, .segment ⟨1, 2, 100, 0, { Flags.none with syn := true }, 65535, [], synOpt⟩ none),
    (false, .segment ⟨2, 1, 500, 101, { Flags.none with syn := true, ack := true }, 65535, [], synOpt⟩ none),
    (true, .segment ⟨1, 2, 101, 501, Tcb.ackFlags, 65535, [], none⟩ none),
    (false, .write [1, 2, 3] none), (false, .close none),
    (true, .segment ⟨1, 2, 101, 501, { Tcb.ackFlags with psh := true }, 65535, [1, 2, 3], none⟩ none),
    (true, .segment ⟨1, 2, 104, 501, { Tcb.ackFlags with fin := true }, 65535, [], none⟩ none)]

/-- The end that heard everything closes before it reads, and what it sends is acknowledged. -/
def closing : List (Bool × Call) :=
  [(true, .close none), (false, .segment ⟨2, 1, 501, 105, { Tcb.ackFlags with fin := true }, 65533, [], none⟩ none),
    (true, .segment ⟨1, 2, 105, 502, Tcb.ackFlags, 65535, [], none⟩ none)]

/-- What the actions make of two new ends. -/
def met (acts : List (Bool × Call)) : Net := acts.foldl Net.step strangers

theorem met_run {ok : Net → Bool × Call → Prop} {acts : List (Bool × Call)}
    (h : Runs.Along ok Net.step strangers acts) : (met acts).Run ok := by
  refine Runs.along (.init ⟨fun e => ?_, funext fun e => ?_⟩) h
  · exact if e then ⟨2, 1, 500, none, none, none, false, none⟩
      else ⟨1, 2, 100, none, none, none, false, none⟩
  · cases e <;> rfl

theorem exchange_read :
    (met (exchange ++ [(true, .read none), (true, .read none)]) true).ended = true ∧
      (met (exchange ++ [(true, .read none), (true, .read none)]) true).readout =
        (met (exchange ++ [(true, .read none), (true, .read none)]) false).written := by
  have hrun : Net.Run (fun n act => n.Legal act ∧ n.Careful act)
      (met (exchange ++ [(true, .read none), (true, .read none)])) :=
    met_run (by decide +kernel)
  have he : (met (exchange ++ [(true, .read none), (true, .read none)]) true).ended = true := by
    decide +kernel
  exact ⟨he, ((run_reads_what_is_written hrun true).2 he).1⟩

/-- The last acknowledgment throws away what was not read, and the end of the stream is reported. -/
theorem unread_lost : Net.Run Net.Legal (met (exchange ++ closing ++ [(true, .read none)])) ∧
    (met (exchange ++ closing ++ [(true, .read none)]) true).ended = true ∧
    (met (exchange ++ closing ++ [(true, .read none)]) true).readout = [] ∧
    (met (exchange ++ closing ++ [(true, .read none)]) false).written = [1, 2, 3] :=
  ⟨met_run (by decide +kernel), by decide +kernel⟩

end Ends

end Nlos.Tcp
