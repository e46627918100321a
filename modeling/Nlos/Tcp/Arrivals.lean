import Nlos.Tcp.Sending

/-!
# What an arriving segment does to the accounts

The reassembly leaves the accounts alone. An acknowledgment moves what is acknowledged, up to what
is sent and no further, and drops as many bytes from the queue as it covers of the stream.
-/

namespace Nlos.Tcp

open Serial (shift)
open List Serial

section Text

variable {A B : Prop} {W : Bytes} {u : Nat} {t : Tcb}

/-! ## The data -/

def Tcb.awaits (t : Tcb) : Bool := t.ooo.any (·.fin)

/-- Nothing happens but that something is taken in, and the FIN where `b` says that there is one. -/
structure Takes (b : Bool) (t t' : Tcb) : Prop where
  same : ∃ n q m o k r f,
    t' = { t with
      rcvNxt := n, rcvq := q, rcvbytes := m, ooo := o, ooobytes := k, sackRecent := r
      finRcvd := f } ∧
    (f = true → t.finRcvd = true ∨ b = true)
  awaits : t'.awaits = true → t.awaits = true ∨ b = true

variable {b c : Bool} {t' t'' : Tcb}

theorem Takes.refl : Takes b t t := ⟨⟨_, _, _, _, _, _, _, rfl, .inl⟩, .inl⟩

theorem Takes.trans (h1 : Takes b t t') (h2 : Takes b t' t'') : Takes b t t'' := by
  obtain ⟨⟨_, _, _, _, _, _, f, rfl, hf⟩, a1⟩ := h1
  obtain ⟨⟨_, _, _, _, _, _, g, rfl, hg⟩, a2⟩ := h2
  exact ⟨⟨_, _, _, _, _, _, g, rfl, fun h => (hg h).elim hf .inr⟩, fun h => (a2 h).elim a1 .inr⟩

theorem Takes.mono (h : Takes b t t') (hb : b = true → c = true) : Takes c t t' := by
  obtain ⟨⟨_, _, _, _, _, _, f, e, hf⟩, ha⟩ := h
  exact ⟨⟨_, _, _, _, _, _, f, e, fun h => (hf h).imp_right hb⟩, fun h => (ha h).imp_right hb⟩

theorem Takes.half (h : Takes b t t') : t'.half = t.half ∧ t'.out = t.out := by
  obtain ⟨⟨_, _, _, _, _, _, _, rfl, -⟩, -⟩ := h
  exact ⟨rfl, rfl⟩

theorem hold_eq (seg : Seg) :
    ∃ o k r, t.hold seg = { t with ooo := o, ooobytes := k, sackRecent := r } ∧
    (o.any (·.fin) = true → t.awaits = true ∨ seg.flags.fin = true) := by
  unfold Tcb.hold
  split
  · exact ⟨_, _, _, rfl, .inl⟩
  split
  · exact ⟨_, _, _, rfl, .inl⟩
  split
  · exact ⟨_, _, _, rfl, .inl⟩
  refine ⟨_, _, _, rfl, fun h => ?_⟩
  rw [any_append, Bool.or_eq_true] at h
  exact h.imp_right fun h => by simpa using h

theorem takes_deliver (data : Bytes) : Takes b t (t.deliver data) := by
  unfold Tcb.deliver
  split
  · exact .refl
  · exact ⟨⟨_, _, _, _, _, _, _, rfl, .inl⟩, .inl⟩

theorem takes_textFin (seg : Seg) : Takes seg.flags.fin t (t.textFin seg) := by
  unfold Tcb.textFin
  split
  next hf =>
    split
    · exact ⟨⟨_, _, _, _, _, _, true, rfl, fun _ => .inr hf⟩, .inl⟩
    · obtain ⟨o, k, r, e, ho⟩ := hold_eq (t := t) seg
      rw [e]
      exact ⟨⟨_, _, _, _, _, _, _, rfl, .inl⟩, ho⟩
  · exact .refl

theorem firstDue_some {n : Seq} {l : List Held} {i : Nat} {h : Held}
    (he : Tcb.firstDue n l = some (i, h)) : h ∈ l ∧ 0 ≤ Tcp4.diff n h.seq := by
  induction l generalizing i with
  | nil => cases he
  | cons a l ih =>
    rw [Tcb.firstDue] at he
    split at he
    next hd =>
      cases he
      exact ⟨mem_cons_self, hd⟩
    obtain ⟨⟨j, k⟩, hj, hk⟩ := Option.map_eq_some_iff.mp he
    cases hk
    obtain ⟨h1, h2⟩ := ih hj
    exact ⟨mem_cons_of_mem _ h1, h2⟩

theorem takes_drainLoop (fuel : Nat) (ha : t.awaits = true → b = true) :
    Takes b t (Tcb.drainLoop fuel t) := by
  induction fuel generalizing t with
  | zero => exact .refl
  | succ fuel ih =>
    rw [Tcb.drainLoop]
    split
    · exact .refl
    next i x hd =>
    obtain ⟨hx, -⟩ := firstDue_some hd
    have hdel := takes_deliver (b := b) (t := t) (x.data.drop (Tcp4.diff t.rcvNxt x.seq).toNat)
    simp only
    have h1 : Takes b t (if Tcp4.diff t.rcvNxt x.seq ≤ x.data.length then
        if x.fin = true then (t.deliver (x.data.drop (Tcp4.diff t.rcvNxt x.seq).toNat)).takeFin
        else t.deliver (x.data.drop (Tcp4.diff t.rcvNxt x.seq).toNat) else t) := by
      split
      · split
        next hfin =>
          have hb : b = true := ha (any_eq_true.mpr ⟨x, hx, hfin⟩)
          exact hdel.trans ⟨⟨_, _, _, _, _, _, true, rfl, fun _ => .inr hb⟩, .inl⟩
        · exact hdel
      · exact .refl
    generalize (if Tcp4.diff t.rcvNxt x.seq ≤ x.data.length then
        if x.fin = true then (t.deliver (x.data.drop (Tcp4.diff t.rcvNxt x.seq).toNat)).takeFin
        else t.deliver (x.data.drop (Tcp4.diff t.rcvNxt x.seq).toNat) else t) = t1 at h1 ⊢
    have h2 : Takes b t1
        { t1 with ooobytes := t1.ooobytes - x.data.length, ooo := t1.ooo.eraseIdx i } :=
      ⟨⟨_, _, _, _, _, _, _, rfl, .inl⟩, fun h => by
        obtain ⟨y, hy, hf⟩ := any_eq_true.mp h
        exact .inl (any_eq_true.mpr ⟨y, mem_of_mem_eraseIdx hy, hf⟩)⟩
    have h3 := h1.trans h2
    exact h3.trans (ih fun h => (h3.awaits h).elim ha id)

theorem takes_text (seg : Seg) : Takes (seg.flags.fin || t.awaits) t
    ((t.deliver (t.textData seg (Tcp4.diff t.rcvNxt seg.seq).toNat)).textFin seg).drainHeld := by
  have h1 := (takes_deliver (t := t) (t.textData seg (Tcp4.diff t.rcvNxt seg.seq).toNat)).trans
    ((takes_textFin seg).mono (c := seg.flags.fin || t.awaits) fun h => by rw [h, Bool.true_or])
  refine h1.trans (takes_drainLoop _ fun h => ?_)
  rcases h1.awaits h with h | h
  · rw [h, Bool.or_true]
  · exact h

/-- An acknowledgment at most, besides what nothing but the clock goes by. -/
inductive Acks (t : Tcb) : Tcb → Prop where
  | aside (w d : Option Int) (b : Int) : Acks t { t with timewait := w, delack := d, ackbytes := b }
  | ack (w d : Option Int) (b : Int) : Acks t
      { t with timewait := w, delack := d, ackbytes := b }.ack

theorem acks_ackFor (bytes : Int) (immediate : Bool) : Acks t (t.ackFor bytes immediate) := by
  unfold Tcb.ackFor
  simp only
  split
  · exact .ack t.timewait t.delack _
  · exact .aside t.timewait _ _

theorem acks_onUnacceptable (seg : Seg) : Acks t (t.onUnacceptable seg) := by
  unfold Tcb.onUnacceptable
  simp only
  split
  · exact .aside ..
  obtain ⟨w, hw⟩ : ∃ w,
    (if t.state = .timeWait ∧ seg.flags.fin then { t with timewait := some (t.now + 2 * t.msl) }
      else t) = { t with timewait := w } := by
    split <;> exact ⟨_, rfl⟩
  rw [hw]
  split
  · exact .ack w t.delack t.ackbytes
  · exact .aside ..

theorem acks_inTimeWait (seg : Seg) : Acks t (t.inTimeWait seg) := by
  unfold Tcb.inTimeWait
  split
  · split
    · exact .ack _ t.delack t.ackbytes
    · exact .ack t.timewait t.delack t.ackbytes
  · exact .aside ..

theorem Acks.emits {t' : Tcb} (h : Acks t t') : Emits A B W u t t' := by
  cases h with
  | aside => exact .quiet rfl rfl
  | ack w d b =>
    have h1 : Emits A B W u t { t with timewait := w, delack := d, ackbytes := b } := .quiet rfl rfl
    exact h1.trans emits_ack

theorem emits_state {s' : State} (hi : t.state.idle = false) (hp : t.state.opening = false)
    (hi' : s'.idle = false)
    (hp' : s'.opening = false) (hf : s'.said = t.state.said) (ht : s'.told = true → t.flight = 0) :
    Emits A B W u t { t with state := s' } := by
  refine .still rfl rfl rfl fun hx => ?_
  have ho := hx.flow hi hp
  have hcc : t.half.cc = true :=
    hx.cc hi fun hs => nomatch hp.symm.trans (congrArg State.opening hs)
  exact { hx with
    cc := fun _ _ => hcc
    idle := fun h => nomatch hi'.symm.trans h
    listen := fun h => nomatch hi'.symm.trans (congrArg State.idle h)
    opening := fun h => nomatch hp'.symm.trans h
    flow := fun _ _ => { ho with
      fin := ho.fin.trans hf.symm
      told := fun h => by
        have := ht h
        rw [hx.flight] at this
        omega } }

/-- TIME-WAIT is entered with everything acknowledged. -/
theorem emits_enterTimeWait (hi : t.state.idle = false) (hs : t.state.said = true)
    (hl : t.flight = 0) : Emits A B W u t t.enterTimeWait := by
  refine .still rfl rfl rfl fun {x} hx => ?_
  have hp : t.state.opening = false := by
    revert hs
    cases t.state <;> first | exact fun _ => rfl | nofun
  have ho := hx.flow hi hp
  have hux : u = x := by
    rw [hx.flight] at hl
    omega
  have hxW := (ho.said (ho.fin.trans hs)).1
  have hcc : t.half.cc = true :=
    hx.cc hi fun hs => nomatch hp.symm.trans (congrArg State.opening hs)
  exact { hx with
    off := Nat.le_refl 0
    rest := nofun
    cc := fun _ _ => hcc
    idle := nofun
    listen := nofun
    opening := nofun
    flow := fun _ _ => { ho with
      queue := (drop_eq_nil_of_le (by omega)).symm
      fin := ho.fin.trans hs
      told := fun _ => hux } }

theorem emits_onFin (hs : t.state ≠ .synReceived) : Emits A B W u t t.onFin := by
  have h1 : Emits A B W u t (t.signal .closing none) := .quiet rfl rfl
  unfold Tcb.onFin
  simp only
  split
  next h =>
    exact h1.trans (emits_state (by rw [h]; rfl) (by rw [h]; rfl) rfl rfl (by rw [h]; rfl) nofun)
  next h => exact absurd h hs
  next h =>
    exact h1.trans (emits_state (by rw [h]; rfl) (by rw [h]; rfl) rfl rfl (by rw [h]; rfl) nofun)
  next h =>
    refine h1.trans
      (.of_accounts fun x hx => emits_enterTimeWait (by rw [h]; rfl) (by rw [h]; rfl) ?_)
    have hux := (hx.flow (by rw [show (t.signal .closing none).half.state = _ from h]; rfl)
      (by rw [show (t.signal .closing none).half.state = _ from h]; rfl)).told
      (by rw [show (t.signal .closing none).half.state = _ from h]; rfl)
    rw [hx.flight, hux, Int.sub_self]
  · exact .quiet rfl rfl
  · exact h1

theorem emits_seeFin (hs : t.state ≠ .synReceived) : Emits A B W u t t.seeFin := by
  unfold Tcb.seeFin
  split
  · have h1 : Emits A B W u t { t with finSeen := true } := .quiet rfl rfl
    exact h1.trans (emits_onFin hs)
  · exact .refl

/-- A segment ahead of the receive point is held, and one that is not is taken in. -/
theorem text_cases (t : Tcb) (seg : Seg) :
    Tcp4.diff t.rcvNxt seg.seq < 0 ∧ t.text seg = (t.hold seg).ack ∨
    0 ≤ Tcp4.diff t.rcvNxt seg.seq ∧
      Acks
        ((t.deliver (t.textData seg (Tcp4.diff t.rcvNxt seg.seq).toNat)).textFin
          seg).drainHeld.seeFin (t.text seg) := by
  unfold Tcb.text
  simp only
  split
  next h => exact .inl ⟨h, rfl⟩
  next h =>
  refine .inr ⟨Int.not_lt.mp h, ?_⟩
  split
  · exact acks_ackFor _ _
  · exact .aside ..

theorem emits_text (seg : Seg) (hs : t.state ≠ .synReceived) : Emits A B W u t (t.text seg) := by
  rcases text_cases t seg with ⟨-, e⟩ | ⟨-, h⟩
  · obtain ⟨o, k, r, e', -⟩ := hold_eq (t := t) seg
    rw [e]
    exact (Emits.quiet (by rw [e']; rfl) (by rw [e'])).trans emits_ack
  · -- everything up to the FIN leaves the sending half alone
    obtain ⟨hq, ho⟩ := (takes_text (t := t) seg).half
    exact (Emits.quiet hq ho).trans
      ((emits_seeFin (by rwa [show Tcb.state _ = t.state from congrArg Half.state hq])).trans
        h.emits)

theorem emits_afterAck (seg : Seg) (hs : t.state ≠ .synReceived) :
    Emits A B W u t (t.afterAck seg) := by
  unfold Tcb.afterAck
  split
  · exact (acks_inTimeWait seg).emits
  split
  · exact (emits_text seg hs).trans emits_transmit
  · exact emits_transmit

end Text

section Ack

variable {A B : Prop} {W : Bytes} {u x : Nat} {t : Tcb} {seg : Seg}

/-! ## The acknowledgment -/

theorem dropAcked_eq (seg : Seg) :
    ∃ q o, t.dropAcked seg = { t with sndq := q, sndoff := o } ∧
    q.drop o = t.queue.drop (t.ackedBytes seg).toNat ∧
      (t.sndoff ≤ t.sndq.length → (t.ackedBytes seg).toNat ≤ t.queue.length → o ≤ q.length) := by
  unfold Tcb.dropAcked
  split
  · unfold Tcb.qdrop Tcb.queue
    split
    · exact ⟨_, _, rfl, by rw [drop_zero, drop_drop], fun _ _ => Nat.zero_le _⟩
    refine ⟨_, _, rfl, by rw [drop_drop], fun h1 h2 => ?_⟩
    rw [length_drop] at h2
    omega
  next h =>
    rw [Int.toNat_of_nonpos (Int.not_lt.mp h)]
    exact ⟨_, _, rfl, rfl, fun h _ => h⟩

/-- An acknowledgment that passes our SYN's number once more, a lap later. -/
def Tcb.lapsSyn (t : Tcb) (seg : Seg) : Bool :=
  t.state.synced && Tcp4.lt t.sndUna seg.ack && Tcp4.le t.sndUna t.iss &&
    Tcp4.ge seg.ack (Tcp4.add t.iss 1)

variable {a : Nat} {h : Half} {n : Seq}

/-- The bytes the acknowledgment covers are those of the stream up to its number. -/
theorem Half.Open.ackedBytes (hx : Accounts W u x t.half) (ho : t.half.Open W u x)
    (hs : t.state.synced = true)
    (h1 : u < a) (h2 : a ≤ x) (ha : seg.ack = shift t.iss a) (hlap : t.lapsSyn seg = false) :
    (t.ackedBytes seg).toNat ≤ t.queue.length ∧
    t.queue.drop (t.ackedBytes seg).toNat = W.drop (a - 1) := by
  have hone := ho.one
  have hlen := ho.queue_length
  have hnear := hx.near
  have hdiff : Tcp4.diff seg.ack t.sndUna = (a : Int) - u := by
    rw [ha, hx.sndUna]
    exact Tcp4.diff_shift t.iss (by omega) (by omega)
  have hlt : Tcp4.lt t.sndUna seg.ack = true := by
    rw [ha, hx.sndUna]
    exact (Tcp4.lt_shift t.iss (by omega) (by omega)).mpr h1
  have hsyn : (Tcp4.le t.sndUna t.iss && Tcp4.ge seg.ack (Tcp4.add t.iss 1)) = false := by
    unfold Tcb.lapsSyn at hlap
    rwa [hs, hlt, Bool.true_and, Bool.true_and] at hlap
  rw [ho.queue_drop]
  unfold Tcb.ackedBytes
  rw [hdiff, hsyn]
  cases hf : t.finSent with
  | false =>
    have := ho.unsaid hf
    rw [show t.finSeq = none from hx.unseq hf]
    simp only [Option.any_none, Bool.false_eq_true, if_false, Int.sub_zero]
    refine ⟨by omega, ?_⟩
    congr 1
    omega
  | true =>
    obtain ⟨hxW, hseq⟩ := ho.said hf
    have hgt : Tcp4.gt seg.ack (shift t.iss (W.length + 1)) = true ↔ W.length + 1 < a := by
      rw [ha]
      exact Tcp4.lt_shift t.iss (by omega) (by omega)
    rw [show t.finSeq = some (shift t.iss (W.length + 1)) from hseq, Option.any_some]
    rcases Nat.lt_or_ge (W.length + 1) a with hlt | hge
    · rw [if_pos (hgt.mpr hlt)]
      simp only [Bool.false_eq_true, if_false, Int.sub_zero]
      refine ⟨by omega, ?_⟩
      rw [drop_eq_nil_of_le (by omega), drop_eq_nil_of_le (by omega)]
    · rw [if_neg (fun h => absurd (hgt.mp h) (by omega))]
      simp only [Bool.false_eq_true, if_false, Int.sub_zero]
      refine ⟨by omega, ?_⟩
      congr 1
      omega

theorem advanced_of_open (hx : Accounts W u x t.half) (hi : t.state.idle = false)
    (hp : t.state.opening = false)
    (h1 : u < a) (h2 : a ≤ x) (ha : seg.ack = shift t.iss a) (hlap : t.lapsSyn seg = false) :
    Advanced W a x (t.moved seg) := by
  have ho := hx.flow hi hp
  have hnear := hx.near
  have hshort := ho.short
  obtain ⟨hb1, hb2⟩ := ho.ackedBytes hx (State.synced_iff.mpr ⟨hi, hp⟩) h1 h2 ha hlap
  have hcc : t.half.cc = true :=
    hx.cc hi fun hs => nomatch hp.symm.trans (congrArg State.opening hs)
  obtain ⟨q, o, hq, hqo, hoff⟩ := dropAcked_eq seg
  unfold Tcb.moved
  rw [hq]
  refine ⟨?_, fun hr => ?_, hi, hp, hcc⟩
  · exact { hx with
      una := ha
      le := h2
      near := by omega
      off := hoff hx.off hb1
      rest := nofun
      idle := fun h => nomatch hi.symm.trans h
      listen := fun h => nomatch hi.symm.trans (congrArg State.idle h)
      opening := fun h => nomatch hp.symm.trans h
      flow := fun _ _ => { ho with
        one := by omega
        queue := hqo.trans hb2
        short := by omega
        told := fun h => by
          have := ho.told h
          omega
        recover := nofun } }
  · obtain ⟨v, hv1, hv2, hv3⟩ := ho.recover hr
    exact ⟨v, hv2, by omega, hv3⟩

/-- An acknowledgment that covers our SYN is the one after it, and no duplicate. -/
theorem synAck_eq (hx : Accounts W u x t.half) (hs : t.state = .synReceived)
    (h1 : Tcp4.lt t.sndUna seg.ack = true) (h2 : Tcp4.le seg.ack t.sndNxt = true) :
    seg.ack = shift t.iss 1 ∧ Tcp4.gt seg.ack t.sndNxt = false ∧
      ((t.opened seg).signal .established none).isDupack seg = false := by
  obtain ⟨-, -, rfl, rfl, -, -⟩ := hx.opening (congrArg State.opening hs)
  have hnx : t.sndNxt = shift t.iss 1 := hx.nxt
  have hack : seg.ack = shift t.iss 1 := by
    rw [show t.sndUna = t.iss from hx.una.trans (shift_zero _)] at h1
    rw [hnx] at h2
    exact Tcp4.eq_of_le h1 h2
  have hne : (seg.ack == t.sndUna) = false := beq_eq_false_iff_ne.mpr fun he => by
    rw [he, Tcp4.lt_self] at h1
    cases h1
  refine ⟨hack, ?_, ?_⟩
  · rw [hack, hnx]
    exact Tcp4.lt_self _
  · show (seg.ack == t.sndUna && _ && _ && _ && _ && _) = false
    rw [hne]
    rfl

/-- The first acknowledgment covers our SYN and no byte. -/
theorem advanced_of_syn (hx : Accounts W u x t.half) (hs : t.state = .synReceived)
    (ha : seg.ack = shift t.iss 1) :
    Advanced W 1 x (((t.opened seg).signal .established none).moved seg) := by
  obtain ⟨hq0, rfl, rfl, rfl, hfin, hrec⟩ := hx.opening (congrArg State.opening hs)
  have hcc : t.half.cc = true :=
    hx.cc (congrArg State.idle hs) (by rw [show t.half.state = _ from hs]; decide)
  have hzero : (((t.opened seg).signal .established none).ackedBytes seg) = 0 := by
    have hseq : t.finSeq = none := hx.unseq hfin
    have hu : t.sndUna = t.iss := hx.una.trans (shift_zero _)
    show Tcp4.diff seg.ack t.sndUna - (if Tcp4.le t.sndUna t.iss && Tcp4.ge seg.ack (Tcp4.add t.iss 1) then 1 else 0) -
      (if t.finSeq.any (Tcp4.gt seg.ack ·) then 1 else 0) = 0
    have hdiff : Tcp4.diff (shift t.iss 1) t.iss = 1 := by
      have := Tcp4.diff_shift t.iss (i := 1) (j := 0) (by omega) (by omega)
      rwa [shift_zero] at this
    rw [hseq, hu, ha, hdiff, Tcp4.add_eq_shift]
    simp [Tcp4.le, Tcp4.ge]
  obtain ⟨q, o, hq, hqo, hoff⟩ := dropAcked_eq seg
  unfold Tcb.moved
  rw [hq]
  rw [hzero] at hqo hoff
  refine ⟨?_, fun hr => (nomatch hrec.symm.trans hr), rfl, rfl, hcc⟩
  exact { hx with
    una := ha
    le := Nat.le_refl 1
    near := by omega
    off := hoff hx.off (Nat.zero_le _)
    rest := nofun
    cc := fun _ _ => hcc
    idle := nofun
    listen := nofun
    opening := nofun
    flow := fun _ _ =>
      { one := Nat.le_refl 1
        queue := hqo.trans hq0
        short := by simp
        unsaid := fun _ => Nat.le_refl 1
        said := fun h => nomatch hfin.symm.trans h
        fin := hfin
        told := nofun
        recover := nofun } }

theorem Advanced.advance (h : Advanced W a x (t.moved seg)) (hlt : Tcp4.lt t.sndUna seg.ack = true)
    (hc : A → (t.moved seg).partialAck seg = true → (t.moved seg).Covered) :
    ∃ y, x ≤ y ∧ Sends A B W a y t (t.advance seg) := by
  obtain ⟨q, o, hq, -, -⟩ := dropAcked_eq seg
  obtain ⟨y, hxy, hy⟩ := h.acked (Tcp4.diff seg.ack t.sndUna) rfl hc
  unfold Tcb.advance
  rw [if_pos hlt]
  unfold Tcb.moved at hy ⊢
  rw [hq] at hy ⊢
  exact ⟨y, hxy, { hy with }⟩

theorem resendFirst_frame : t.resendFirst.state = t.state ∧ t.resendFirst.sndNxt = t.sndNxt ∧
    t.resendFirst.sndUna = t.sndUna ∧ t.resendFirst.finSeq = t.finSeq := by
  unfold Tcb.resendFirst
  split
  · exact ⟨rfl, rfl, rfl, rfl⟩
  · unfold Tcb.resend
    split <;> exact ⟨rfl, rfl, rfl, rfl⟩

theorem acked_frame (seg : Seg) (n : Int) :
    (t.acked seg n).state = t.state ∧ (t.acked seg n).sndNxt = t.sndNxt ∧
    (t.acked seg n).sndUna = t.sndUna ∧ (t.acked seg n).finSeq = t.finSeq := by
  have h1 : (t.ackedCc seg n).state = t.state ∧ (t.ackedCc seg n).sndNxt = t.sndNxt ∧
    (t.ackedCc seg n).sndUna = t.sndUna ∧ (t.ackedCc seg n).finSeq = t.finSeq := by
    unfold Tcb.ackedCc
    split
    · exact ⟨rfl, rfl, rfl, rfl⟩
    split
    · split
      · exact ⟨rfl, rfl, rfl, rfl⟩
      · exact resendFirst_frame
    · split <;> exact ⟨rfl, rfl, rfl, rfl⟩
  have h2 := (ackedRtt_half (t := { t.ackedCc seg n with dupacks := 0 }) seg).1
  exact ⟨(congrArg Half.state h2).trans h1.1, (congrArg Half.nxt h2).trans h1.2.1,
    (congrArg Half.una h2).trans h1.2.2.1, (congrArg Half.finSeq h2).trans h1.2.2.2⟩

theorem advance_frame (seg : Seg) :
    (t.advance seg).state = t.state ∧ (t.advance seg).sndNxt = t.sndNxt ∧
    Tcp4.lt (t.advance seg).sndUna seg.ack = false ∧ (t.advance seg).finSeq = t.finSeq := by
  unfold Tcb.advance
  obtain ⟨q, o, hq, -, -⟩ := dropAcked_eq seg
  split
  next h =>
    unfold Tcb.moved
    rw [hq]
    obtain ⟨h1, h2, h3, h4⟩ := acked_frame seg (Tcp4.diff seg.ack t.sndUna)
    refine ⟨h1, h2, ?_, h4⟩
    rw [h3]
    exact Tcp4.lt_self _
  next h => exact ⟨rfl, rfl, Bool.not_eq_true _ ▸ h, rfl⟩

theorem updateWindow_half (seg : Seg) : (t.updateWindow seg).half = t.half := by
  unfold Tcb.updateWindow
  split <;> rfl

theorem emits_updateWindow (seg : Seg) : Emits A B W u t (t.updateWindow seg) := by
  unfold Tcb.updateWindow
  split
  · exact .quiet rfl rfl
  · exact .refl

theorem Accounts.flight_of_finAcked (hx : Accounts W u x t.half) (hi : t.state.idle = false)
    (hf : t.finAcked seg = true)
    (hn : Tcp4.gt seg.ack t.sndNxt = false) (hl : Tcp4.lt t.sndUna seg.ack = false) :
    t.flight = 0 := by
  have hle := hx.le
  have hfin : t.finSent = true := by
    cases h : t.finSent with
    | true => rfl
    | false =>
      unfold Tcb.finAcked at hf
      rw [show t.finSeq = none from hx.unseq h] at hf
      cases hf
  have ho := hx.open_of_finSent hfin (State.ne_closed hi)
  obtain ⟨hxW, hseq⟩ := ho.said hfin
  have hnxt : t.sndNxt = Tcp4.add (shift t.iss (W.length + 1)) 1 := by
    rw [hx.sndNxt, Tcp4.add_eq_shift, shift_shift, hxW]
  have hack : seg.ack = t.sndNxt := by
    unfold Tcb.finAcked at hf
    rw [show t.finSeq = some (shift t.iss (W.length + 1)) from hseq, Option.any_some] at hf
    rw [hnxt] at hn ⊢
    exact Tcp4.eq_of_gt hf hn
  have hux : ¬ u < x := fun h => by
    rw [hack, hx.outstanding.mpr h] at hl
    cases hl
  rw [hx.flight]
  omega

theorem emits_onFinAcked (hi : t.state.idle = false) (hn : Tcp4.gt seg.ack t.sndNxt = false)
    (hl : Tcp4.lt t.sndUna seg.ack = false) : Emits A B W u t (t.onFinAcked seg).1 := by
  refine .of_accounts fun x hx => ?_
  unfold Tcb.onFinAcked
  split
  next h =>
    exact emits_state hi (by rw [h.1]; rfl) rfl rfl (by rw [h.1]; rfl) fun _ =>
      hx.flight_of_finAcked hi h.2 hn hl
  split
  next h => exact emits_enterTimeWait hi (by rw [h.1]; rfl) (hx.flight_of_finAcked hi h.2 hn hl)
  split
  · exact emits_dead _ _
  · exact .refl

/-- What would go out first again behind the acknowledgment has all been sent. -/
def Tcb.CoveredFrom (t : Tcb) (seg : Seg) : Prop :=
  t.finSent = true ∨ min (t.qlen - (t.ackedBytes seg).toNat) t.sndMss ≤ Tcp4.diff t.sndNxt seg.ack

/-- What a segment has to meet so that our SYN is not counted again and, given `A`, nothing goes out
again past what was sent. -/
structure Tcb.Fits (A : Prop) (t : Tcb) (seg : Seg) : Prop where
  lap : t.lapsSyn seg = false
  dupack : A → t.thirdDupack seg = true → t.Covered
  part : A → Tcp4.lt t.sndUna seg.ack = true → t.partialAck seg = true → t.CoveredFrom seg

theorem Tcb.CoveredFrom.moved (h : t.CoveredFrom seg) (hoff : t.sndoff ≤ t.sndq.length)
    (hn : (t.ackedBytes seg).toNat ≤ t.queue.length) : (t.moved seg).Covered := by
  obtain ⟨q, o, hq, hqo, hle⟩ := dropAcked_eq (t := t) seg
  have hlen := congrArg List.length hqo
  have hq0 : t.queue.length = t.sndq.length - t.sndoff := length_drop
  rw [length_drop, length_drop] at hlen
  have hqlen : ((q.length : Int) - o) = t.qlen - (t.ackedBytes seg).toNat := by
    unfold Tcb.qlen
    omega
  unfold Tcb.moved Tcb.Covered
  rw [hq]
  show t.finSent = true ∨ min ((q.length : Int) - o) t.sndMss ≤ Tcp4.diff t.sndNxt seg.ack
  rw [hqlen]
  exact h

theorem moved_partialAck : (t.moved seg).partialAck seg = t.partialAck seg := by
  obtain ⟨q, o, hq, -, -⟩ := dropAcked_eq seg
  unfold Tcb.moved
  rw [hq]
  rfl

theorem emits_checkAckRest (seg : Seg) (hi : t.state.idle = false)
    (hn : Tcp4.gt seg.ack t.sndNxt = false) (W : Bytes) (u : Nat) :
    Emits A B W u (t.advance seg) (((t.advance seg).updateWindow seg).onFinAcked seg).1 := by
  obtain ⟨h1, h2, h3, -⟩ := advance_frame seg
  have hw := updateWindow_half (t := t.advance seg) seg
  refine (emits_updateWindow seg).trans (emits_onFinAcked ?_ ?_ ?_)
  · rw [show ((t.advance seg).updateWindow seg).state = (t.advance seg).state from congrArg Half.state hw, h1]
    exact hi
  · rw [show ((t.advance seg).updateWindow seg).sndNxt = (t.advance seg).sndNxt from congrArg Half.nxt hw, h2]
    exact hn
  · rw [show ((t.advance seg).updateWindow seg).sndUna = (t.advance seg).sndUna from congrArg Half.una hw]
    exact h3

theorem moved_probes : { t with probes := 0 }.moved seg = { t.moved seg with probes := 0 } := by
  have hb : { t with probes := 0 }.ackedBytes seg = t.ackedBytes seg := rfl
  unfold Tcb.moved Tcb.dropAcked
  rw [hb]
  rcases Int.lt_or_le 0 (t.ackedBytes seg) with h | h
  · rw [if_pos h, if_pos h]
    unfold Tcb.qdrop
    split <;> rfl
  · rw [if_neg (Int.not_lt.mpr h), if_neg (Int.not_lt.mpr h)]

theorem checkAckOpen_dupack (hn : Tcp4.gt seg.ack t.sndNxt = false) (hd : t.isDupack seg = true) :
    t.checkAckOpen seg = ({ t with probes := 0 }.onDupack, true) := by
  unfold Tcb.checkAckOpen
  rw [if_neg (by simp [hn])]
  exact if_pos hd

theorem checkAckOpen_rest (hn : Tcp4.gt seg.ack t.sndNxt = false) (hd : t.isDupack seg = false) :
    t.checkAckOpen seg =
      (({ t with probes := 0 }.advance seg).updateWindow seg).onFinAcked seg := by
  unfold Tcb.checkAckOpen
  rw [if_neg (by simp [hn])]
  exact if_neg fun h => absurd (hd.symm.trans h) (by decide)

theorem Advanced.checkAckOpen (h : Advanced W a x (t.moved seg)) (hi : t.state.idle = false)
    (hn : Tcp4.gt seg.ack t.sndNxt = false) (hd : t.isDupack seg = false)
    (hlt : Tcp4.lt t.sndUna seg.ack = true)
    (hc : A → (t.moved seg).partialAck seg = true → (t.moved seg).Covered) :
    ∃ y, x ≤ y ∧ Sends A B W a y t (t.checkAckOpen seg).1 := by
  have h' : Advanced W a x ({ t with probes := 0 }.moved seg) := by
    rw [moved_probes]
    exact { h with }
  have hc' : A → ({ t with probes := 0 }.moved seg).partialAck seg = true →
      ({ t with probes := 0 }.moved seg).Covered := by
    rw [moved_probes]
    exact hc
  have hrest := emits_checkAckRest (A := A) (B := B) (t := { t with probes := 0 }) seg hi hn W a
  obtain ⟨y, hxy, hy⟩ := h'.advance hlt hc'
  obtain ⟨z, hyz, hz⟩ := hrest y hy.accounts
  have hall := hy.trans hz hyz
  rw [checkAckOpen_rest hn hd]
  exact ⟨z, hxy.trans hyz, { hall with }⟩

theorem checkAckOpen_sends (hx : Accounts W u x t.half) (hi : t.state.idle = false)
    (hp : t.state.opening = false)
    (hfit : t.Fits A seg) : ∃ v y, u ≤ v ∧ x ≤ y ∧ Sends A B W v y t (t.checkAckOpen seg).1 := by
  have h1 : Emits A B W u t { t with probes := 0 } := .quiet rfl rfl
  cases hn : Tcp4.gt seg.ack t.sndNxt with
  | true =>
    unfold Tcb.checkAckOpen
    rw [if_pos hn]
    obtain ⟨y, hxy, hy⟩ := emits_ack x hx
    exact ⟨u, y, Nat.le_refl u, hxy, hy⟩
  | false =>
    cases hd : t.isDupack seg with
    | true =>
      rw [checkAckOpen_dupack hn hd]
      obtain ⟨y, hxy, hy⟩ := h1.trans (emits_onDupack hi hp hd hfit.dupack) x hx
      exact ⟨u, y, Nat.le_refl u, hxy, hy⟩
    | false =>
      cases hlt : Tcp4.lt t.sndUna seg.ack with
      | true =>
        obtain ⟨a, ha1, ha2, ha⟩ := hx.between hlt hn
        have hadv := advanced_of_open hx hi hp ha1 ha2 ha hfit.lap
        obtain ⟨hb, -⟩ :=
          (hx.flow hi hp).ackedBytes hx (State.synced_iff.mpr ⟨hi, hp⟩) ha1 ha2 ha hfit.lap
        obtain ⟨y, hxy, hy⟩ := hadv.checkAckOpen hi hn hd hlt fun a hpa =>
          (hfit.part a hlt (moved_partialAck ▸ hpa)).moved hx.off hb
        exact ⟨a, y, Nat.le_of_lt ha1, hxy, hy⟩
      | false =>
        -- nothing new: the accounts stay
        have hrest :=
          emits_checkAckRest (A := A) (B := B) (t := { t with probes := 0 }) seg hi hn W u
        have he : { t with probes := 0 }.advance seg = { t with probes := 0 } :=
          if_neg (by simp [hlt])
        rw [he] at hrest
        rw [checkAckOpen_rest hn hd, he]
        obtain ⟨y, hxy, hy⟩ := h1.trans hrest x hx
        exact ⟨u, y, Nat.le_refl u, hxy, hy⟩

/-- Past our SYN the connection is not being opened. -/
theorem Accounts.not_opening (hx : Accounts W u x t.half) (h1 : 1 ≤ u) : t.state.opening = false :=
  Bool.eq_false_iff.mpr fun h => by
    have := (hx.opening h).2.2.1
    omega

/-- From `t` the connection went on to `t'`, with the accounts right and everything that was sent
still within them. -/
def Proceeds (A B : Prop) (W : Bytes) (u x : Nat) (t t' : Tcb) : Prop :=
  ∃ v y, u ≤ v ∧ x ≤ y ∧ Sends A B W v y t t'

variable {t' : Tcb}

theorem Emits.proceeds (h : Emits A B W u t t') (hx : Accounts W u x t.half) :
    Proceeds A B W u x t t' := by
  obtain ⟨y, hxy, hy⟩ := h x hx
  exact ⟨u, y, Nat.le_refl u, hxy, hy⟩

theorem Proceeds.emits {t'' : Tcb} (h : Proceeds A B W u x t t') (he : ∀ v, Emits A B W v t' t'') :
    Proceeds A B W u x t t'' := by
  obtain ⟨v, y, hv, hy, hs⟩ := h
  obtain ⟨z, hyz, hz⟩ := he v y hs.accounts
  exact ⟨v, z, hv, hy.trans hyz, hs.trans hz hyz⟩

theorem checkAck_sends (hx : Accounts W u x t.half) (hi : t.state.idle = false)
    (hs : t.state ≠ .synSent) (hfit : t.Fits A seg) :
    Proceeds A B W u x t (t.checkAck seg).1 ∧
    ((t.checkAck seg).2 = true → (t.checkAck seg).1.state ≠ .synReceived) := by
  -- a connection that has our SYN acknowledged does not go back
  have hopen : ∀ {v y : Nat} {t' : Tcb}, 1 ≤ v → Accounts W v y t'.half → t'.state ≠ .synReceived :=
    fun h1 h2 h3 => by
    have := h2.not_opening h1
    rw [h3] at this
    cases this
  unfold Tcb.checkAck
  split
  · exact ⟨Emits.refl.proceeds hx, nofun⟩
  split
  next hrcv =>
    split
    next hack =>
      obtain ⟨h1, h2⟩ := Bool.and_eq_true_iff.mp hack
      obtain ⟨hack1, hgt, hnd⟩ := synAck_eq hx hrcv h1 h2
      obtain ⟨-, rfl, rfl, rfl, -, hrec⟩ := hx.opening (congrArg State.opening hrcv)
      have hadv := advanced_of_syn hx hrcv hack1
      have hpart : ∀ {P : Prop},
          (((t.opened seg).signal .established none).moved seg).partialAck seg = true → P :=
        fun h => by
          rw [moved_partialAck] at h
          exact nomatch hrec.symm.trans (Bool.and_eq_true_iff.mp h).1
      obtain ⟨y, hxy, hy⟩ := hadv.checkAckOpen rfl hgt hnd h1 fun _ h => hpart h
      exact ⟨⟨1, y, Nat.zero_le 1, hxy, { hy with }⟩, fun _ => hopen (Nat.le_refl 1) hy.accounts⟩
    · exact ⟨(emits_reset _).proceeds hx, nofun⟩
  next hrcv =>
    have hp : t.state.opening = false := by
      revert hs hrcv
      cases t.state <;> simp [State.opening]
    obtain ⟨v, y, hv, hxy, hy⟩ := checkAckOpen_sends hx hi hp hfit
    exact ⟨⟨v, y, hv, hxy, hy⟩, fun _ => hopen ((hx.flow hi hp).one.trans hv) hy.accounts⟩

/-! ## One segment -/

/-- The accounts behind a call, with everything that was sent still within them unless the
connection ended. -/
def Goes (A B : Prop) (W : Bytes) (x : Nat) (t t' : Tcb) : Prop :=
  ∃ v y, Sends A B W v y t t' ∧ (t.state.idle = false → t'.state.idle = false → x ≤ y)

theorem Proceeds.goes (h : Proceeds A B W u x t t') : Goes A B W x t t' := by
  obtain ⟨v, y, -, hxy, hy⟩ := h
  exact ⟨v, y, hy, fun _ _ => hxy⟩

theorem Emits.goes (h : Emits A B W u t t') (hx : Accounts W u x t.half) : Goes A B W x t t' :=
  (h.proceeds hx).goes

theorem onRst_goes (hx : Accounts W u x t.half) : Goes A B W x t t.onRst := by
  unfold Tcb.onRst
  split
  next h =>
    obtain ⟨hq, -, -, -, hfin, hrec⟩ := hx.opening (congrArg State.opening h.1)
    refine ⟨0, 0, .still rfl rfl rfl ?_, nofun⟩
    exact { hx with
      una := (shift_zero _).symm
      nxt := (shift_zero _).symm
      le := Nat.le_refl 0
      near := by omega
      rest := fun h => nomatch hfin.symm.trans h
      cc := nofun
      idle := fun _ => hq
      listen := fun _ => ⟨hfin, hrec⟩
      opening := nofun
      flow := nofun }
  · exact (emits_dead _ _).goes hx

theorem inSynchronized_goes (hx : Accounts W u x t.half) (hi : t.state.idle = false)
    (hs : t.state ≠ .synSent) (hfit : t.Fits A seg) : Goes A B W x t (t.inSynchronized seg) := by
  unfold Tcb.inSynchronized
  split
  · exact (acks_onUnacceptable seg).emits.goes hx
  split
  · exact onRst_goes hx
  split
  · exact emits_ack.goes hx
  obtain ⟨h1, h2⟩ := checkAck_sends hx hi hs hfit
  split
  next t1 he =>
    rw [he] at h1
    exact h1.goes
  next t1 he =>
    rw [he] at h1 h2
    exact (h1.emits fun v => emits_afterAck seg (h2 rfl)).goes

theorem Accounts.syn {s : State} {c b : Bool} {a : Seq} (hx : Accounts W u x h)
    (hq : h.sndq.drop h.sndoff = [])
    (hf : h.finSent = false) (hr : h.inRecovery = false) (hs : s.opening = true)
    (hc : s ≠ .synSent → c = true) (ha : a = h.iss) (hn : n = shift h.iss 1) :
    Accounts [] 0 1 { h with state := s, una := a, nxt := n, cc := c, armed := b } := by
  have hi : s.idle = false := by
    revert hs
    cases s <;> simp [State.opening, State.idle]
  exact { hx with
    una := ha.trans (shift_zero _).symm
    nxt := hn
    le := Nat.zero_le 1
    near := by omega
    rest := fun h => absurd (hf.symm.trans h) Bool.false_ne_true
    cc := fun _ => hc
    idle := fun h => absurd (hi.symm.trans h) Bool.false_ne_true
    listen := fun _ => ⟨hf, hr⟩
    opening := fun _ => ⟨hq, rfl, rfl, rfl, hf, hr⟩
    flow := fun _ h => absurd (h.symm.trans hs) Bool.false_ne_true }

/-- With our SYN acknowledged the connection is open and nothing is outstanding. -/
theorem Accounts.established (hx : Accounts W u x h) (hq : h.sndq.drop h.sndoff = [])
    (hf : h.finSent = false) (hr : h.inRecovery = false) (hn : n = shift h.iss 1) :
    Accounts [] 1 1 { h with state := .established, una := shift h.iss 1, nxt := n, cc := true, armed := false } :=
  { hx with
    una := rfl
    nxt := hn
    le := Nat.le_refl 1
    near := by omega
    rest := nofun
    cc := fun _ _ => rfl
    idle := nofun
    listen := nofun
    opening := nofun
    flow := fun _ _ =>
      { one := Nat.le_refl 1
        queue := hq
        short := by simp
        unsaid := fun _ => Nat.le_refl 1
        said := fun h => nomatch hf.symm.trans h
        fin := hf
        told := nofun
        recover := fun h => nomatch hr.symm.trans h } }

theorem goes_of_syn (t1 : Tcb) {flags : Flags} (hi : t.state.idle = true)
    (ha : Accounts [] 0 1 t1.half) (ho : t1.state.opening = true) (hiss : t1.iss = t.iss)
    (hfin : t.finSent = true → t1.finSent = true) (hout : t1.out = t.out)
    (hs : flags.syn = true) (hf : flags.fin = false) (opt : Option Opt) :
    Goes A B [] x t (t1.send flags [] (some t1.iss) opt) := by
  obtain ⟨y, hy, h⟩ := emits_syn (A := A) (B := B) hs hf ho opt 1 ha
  obtain ⟨l, hl1, hl2⟩ := h.out
  refine ⟨0, y, ⟨h.accounts, h.iss.trans hiss, h.fin ∘ hfin, l, ?_, ?_⟩, fun h => nomatch hi.symm.trans h⟩
  · rw [hl1, hout]
  · rw [← hiss]
    exact hl2

theorem goes_of_synAck {t1 : Tcb} (hi : t.state.idle = true) (ha : Accounts [] 0 1 t1.half)
    (ho : t1.state.opening = true)
    (hiss : t1.iss = t.iss) (hfin : t.finSent = true → t1.finSent = true) (hout : t1.out = t.out) :
    Goes A B [] x t t1.sendSynAck :=
  goes_of_syn t1 hi ha ho hiss hfin hout rfl rfl _

theorem inListen_goes (hx : Accounts W u x t.half) (hs : t.state = .listen) :
    Goes A B [] x t (t.inListen seg) := by
  have hi : t.state.idle = true := by rw [hs]; rfl
  obtain ⟨hf, hr⟩ := hx.listen hs
  have hx0 : Accounts [] u x t.half := { hx with
    opening := fun h => by rw [show t.half.state = _ from hs] at h; cases h
    flow := fun h => by rw [show t.half.state = _ from hs] at h; cases h }
  unfold Tcb.inListen
  split
  · exact Emits.refl.goes hx0
  split
  · exact (emits_reset _).goes hx0
  split
  · exact Emits.refl.goes hx0
  · refine goes_of_synAck hi ?_ rfl rfl id rfl
    exact hx.syn (hx.idle hi) hf hr rfl (fun _ => rfl) rfl rfl

/-- Outside of recovery an acknowledgment sends nothing. -/
theorem acked_calm (seg : Seg) (n : Int) (hr : t.inRecovery = false) :
    (t.acked seg n).half = { t.half with armed := Tcp4.lt t.sndUna t.sndNxt } ∧
    (t.acked seg n).out = t.out := by
  have h1 : (t.ackedCc seg n).half = t.half ∧ (t.ackedCc seg n).out = t.out := by
    unfold Tcb.ackedCc
    split
    · exact ⟨rfl, rfl⟩
    next c hc =>
    have hcc : ∀ c', ({ t with cwnd := some c' } : Tcb).half = t.half := fun c' => by
      show Half.mk .. = Half.mk ..
      rw [hc]
      rfl
    rw [if_neg (by simp [hr])]
    split <;> exact ⟨hcc _, rfl⟩
  obtain ⟨h2, h3⟩ := ackedRtt_half seg
  have h4 : ({ t.ackedCc seg n with dupacks := 0 }.ackedRtt seg).half = t.half := h2.trans h1.1
  refine ⟨?_, h3.trans h1.2⟩
  unfold Tcb.acked
  generalize { t.ackedCc seg n with dupacks := 0 }.ackedRtt seg = t1 at h4 ⊢
  rw [← h4]
  show { t1.half with armed := t1.restartTimer.retx.isSome } = _
  rw [restartTimer_armed]
  rw [show t.sndUna = t1.sndUna from (congrArg Half.una h4).symm,
    show t.sndNxt = t1.sndNxt from (congrArg Half.nxt h4).symm]

def Tcb.synHeard (t : Tcb) (seg : Seg) : Tcb :=
  (({ t with irs := seg.seq, rcvNxt := Tcp4.add seg.seq 1 }.learnMss seg).learnSack seg).initCc

variable (hx : Accounts W u x t.half)

include hx

section

variable (hs : t.state = .synSent)

include hs

theorem synHeard_acked (hack : seg.ack = shift t.iss 1) :
    ({ t.synHeard seg with sndUna := seg.ack }.acked seg 0).half =
      { t.half with una := shift t.iss 1, cc := true, armed := false } ∧
      ({ t.synHeard seg with sndUna := seg.ack }.acked seg 0).out = t.out := by
  obtain ⟨-, -, -, rfl, -, hrec⟩ := hx.opening (congrArg State.opening hs)
  have hn : t.sndNxt = shift t.iss 1 := hx.nxt
  obtain ⟨h2, ho2⟩ := acked_calm (t := { t.synHeard seg with sndUna := seg.ack }) seg 0 hrec
  refine ⟨?_, ho2⟩
  rw [h2]
  show { t.half with una := seg.ack, cc := true, armed := Tcp4.lt seg.ack t.sndNxt } = _
  rw [hack, hn, Tcp4.lt_self]

theorem synSentSyn_acked (hack : seg.ack = shift t.iss 1) :
    let t2 := { t.synHeard seg with sndUna := seg.ack }.acked seg 0
    t.synSentSyn seg true = ((t2.opened seg).ack.signal .established none).transmit ∧
      Accounts [] 1 1 (t2.opened seg).half := by
  intro t2
  obtain ⟨hq, rfl, rfl, rfl, hfin, hrec⟩ := hx.opening (congrArg State.opening hs)
  obtain ⟨h3, -⟩ : t2.half = _ ∧ _ := synHeard_acked hx hs hack
  constructor
  · have hgt : Tcp4.gt t2.sndUna t2.iss = true := by
      rw [show t2.sndUna = shift t.iss 1 from congrArg Half.una h3, show t2.iss = shift t.iss 0 from
        (congrArg Half.iss h3).trans (shift_zero _).symm]
      exact (Tcp4.lt_shift t.iss (by omega) (by omega)).mpr (by omega)
    exact if_pos hgt
  · show Accounts [] 1 1 { t2.half with state := .established }
    rw [h3]
    exact hx.established hq hfin hrec hx.nxt

theorem synSentSyn_crossed :
    t.synSentSyn seg false =
      ({ t.synHeard seg with state := .synReceived }.takeWindow seg).sendSynAck := by
  obtain ⟨-, -, rfl, -⟩ := hx.opening (congrArg State.opening hs)
  refine if_neg ?_
  show ¬Tcp4.gt t.sndUna t.iss = true
  rw [show t.sndUna = t.iss from hx.una.trans (shift_zero _)]
  exact fun h => nomatch (Tcp4.lt_self _).symm.trans h

theorem synSentSyn_proceeds (acked : Bool) (hack : acked = true → seg.ack = shift t.iss 1) :
    Proceeds A B W u x t (t.synSentSyn seg acked) := by
  obtain ⟨hq, rfl, rfl, rfl, hfin, hrec⟩ := hx.opening (congrArg State.opening hs)
  cases acked with
  | true =>
    obtain ⟨h3, ho2⟩ := synHeard_acked hx hs (hack rfl)
    obtain ⟨he, hest⟩ := synSentSyn_acked hx hs (hack rfl)
    rw [he]
    generalize { t.synHeard seg with sndUna := seg.ack }.acked seg 0 = t2 at h3 ho2 hest ⊢
    have hstart : Proceeds A B [] 0 1 t (t2.opened seg) :=
      ⟨1, 1, Nat.zero_le 1, Nat.le_refl 1, .still (congrArg Half.iss h3) (congrArg Half.finSent h3) ho2 hest⟩
    exact hstart.emits fun v => (emits_ack.trans (emits_signal _ _)).trans emits_transmit
  | false =>
    rw [synSentSyn_crossed hx hs]
    have hsyn : Accounts [] 0 1
        ({ t.synHeard seg with state := .synReceived }.takeWindow seg).half :=
      hx.syn hq hfin hrec rfl (fun _ => rfl) (hx.una.trans (shift_zero _)) hx.nxt
    have hstart : Proceeds A B [] 0 1 t
        ({ t.synHeard seg with state := .synReceived }.takeWindow seg) :=
      ⟨0, 1, Nat.le_refl 0, Nat.le_refl 1, .still rfl rfl rfl hsyn⟩
    exact hstart.emits fun v => emits_syn rfl rfl rfl _

/-- An acknowledgment that SYN-SENT takes is that of our SYN. -/
theorem Accounts.synSent_ack (ha : seg.flags.ack = true)
    (hn :
      ¬(seg.flags.ack = true ∧ (Tcp4.le seg.ack t.iss = true ∨ Tcp4.gt seg.ack t.sndNxt = true))) :
        seg.ack = shift t.iss 1 := by
  obtain ⟨-, -, -, hx1, -, -⟩ := hx.opening (congrArg State.opening hs)
  obtain ⟨hle, hgt⟩ := not_or.mp fun h => hn ⟨ha, h⟩
  rw [Bool.not_eq_true] at hle hgt
  rw [show t.sndNxt = Tcp4.add t.iss 1 from by rw [hx.sndNxt, hx1]; rfl] at hgt
  exact Tcp4.eq_of_not_le hle hgt

theorem inSynSent_goes : Goes A B W x t (t.inSynSent seg) := by
  unfold Tcb.inSynSent
  split
  · split
    · exact Emits.refl.goes hx
    · exact (emits_reset _).goes hx
  next hack =>
  split
  · split
    · exact (emits_dead _ _).goes hx
    · exact Emits.refl.goes hx
  split
  · exact Emits.refl.goes hx
  · exact (synSentSyn_proceeds hx hs _ fun ha => hx.synSent_ack hs ha hack).goes

end

theorem segment_goes (now : Option Int) (hfit : t.Fits A seg) :
    Goes A B (if t.state.idle then [] else W) x t (t.segment seg now) := by
  have hgo : ∀ {W' : Bytes} {t' : Tcb}, Goes A B W' x (t.attime now) t' → Goes A B W' x t t' :=
    fun ⟨v, y, hy, hm⟩ => ⟨v, y, { hy with }, hm⟩
  have hx1 : Accounts W u x (t.attime now).half := hx
  have hfit1 : (t.attime now).Fits A seg := { hfit with }
  refine hgo (segment_cases (fun hs => ?_) (fun hs => ?_) (fun hs => ?_) fun hi hs => ?_)
  · exact Emits.refl.goes { hx1 with
      opening := fun h => by rw [show (t.attime now).half.state = _ from hs] at h; cases h
      flow := fun h => by rw [show (t.attime now).half.state = _ from hs] at h; cases h }
  · rw [hs]
    exact inListen_goes hx1 hs
  · rw [hs]
    exact inSynSent_goes hx1 hs
  · rw [hi]
    exact inSynchronized_goes hx1 hi hs hfit1

end Ack

end Nlos.Tcp
