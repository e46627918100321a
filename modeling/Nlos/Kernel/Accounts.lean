import Nlos.Kernel.Anchor
import Nlos.Kernel.Proc

/-!
# The counts across the primitive operations

What each operation outside the cascade does to the sums of `Nlos.Kernel.Ledger`. A reference is
taken, handed on or given up, and `Counted` says who has it in between: an operation that is about
to release references has them on its work list.
-/

namespace Nlos

open Tally List

/-! ## Rights tables -/

namespace RightTable

variable {v : Ref → Nat} {t t' : RightTable} {i h n : Nat} {r r' : Right} {ok : Bool}

theorem weight_set (r' : Right) (hr : t.slots[i]? = some r) :
    tableWeight v (t.set i r') + slotWeight v r = tableWeight v t + slotWeight v r' :=
  tally_set r' hr

theorem slotWeight_unused (hr : r.used = false) : slotWeight v r = 0 := by
  unfold slotWeight
  rw [hr]
  rfl

theorem slotWeight_used (hr : r.used = true) : slotWeight v r = v (r.port.ref r.recv) := by
  unfold slotWeight
  rw [if_pos hr]

/-- One table extends another: the slots that were there are as they were, and the others are
free. -/
def Extends (t t' : RightTable) : Prop :=
  ∃ m, t'.slots = t.slots ++ List.replicate m Right.free

theorem Extends.refl (t : RightTable) : t.Extends t := ⟨0, (append_nil _).symm⟩

theorem Extends.trans {t'' : RightTable} (h : t.Extends t') (g : t'.Extends t'') :
    t.Extends t'' := by
  obtain ⟨m, hm⟩ := h
  obtain ⟨n, hn⟩ := g
  refine ⟨m + n, ?_⟩
  rw [hn, hm, append_assoc, replicate_append_replicate]

theorem Extends.weight (h : t.Extends t') : tableWeight v t' = tableWeight v t := by
  obtain ⟨m, hm⟩ := h
  unfold tableWeight
  rw [hm, tally_append, tally_replicate_zero m (slotWeight_unused rfl), Nat.add_zero]

theorem Extends.slot (h : t.Extends t') (hr : t.slots[i]? = some r) : t'.slots[i]? = some r := by
  obtain ⟨m, hm⟩ := h
  rw [hm, List.getElem?_append_left (List.getElem?_eq_some_iff.mp hr).1]
  exact hr

/-- A used slot of the larger table is a slot of the smaller. -/
theorem Extends.slot_used (h : t.Extends t') (hr : t'.slots[i]? = some r) (hu : r.used = true) :
    t.slots[i]? = some r := by
  obtain ⟨m, hm⟩ := h
  rw [hm] at hr
  by_cases hi : i < t.slots.length
  · rw [List.getElem?_append_left hi] at hr
    exact hr
  · rw [List.getElem?_append_right (by omega)] at hr
    have := eq_of_mem_replicate (mem_of_getElem? hr)
    rw [this] at hu
    cases hu

theorem grow_extends (hg : t.grow ok i = some t') : t.Extends t' := by
  unfold grow at hg
  split at hg
  · cases hg
    exact .refl t
  split at hg
  · cases hg
    exact ⟨maxRights - nrightsInline, rfl⟩
  · cases hg

/-- The scan of `right_new` finds a free slot at or above its start, in a table that extends the
one it began with. -/
theorem scan_spec (hs : t.scan ok i n = some (h, t')) :
    t.Extends t' ∧ i ≤ h ∧ h < i + n ∧ ∃ r, t'.slots[h]? = some r ∧ r.used = false := by
  induction n generalizing t i with
  | zero => cases hs
  | succ n ih =>
    unfold scan at hs
    split at hs
    · cases hs
    next t1 hg =>
    split at hs
    · cases hs
    next r hr =>
    split at hs
    · obtain ⟨he, h1, h2, h3⟩ := ih hs
      exact ⟨(grow_extends hg).trans he, by omega, by omega, h3⟩
    next hu =>
    obtain ⟨rfl, rfl⟩ := hs
    refine ⟨grow_extends hg, Nat.le_refl _, by omega, r, hr, ?_⟩
    cases hb : r.used with
    | true => exact absurd hb hu
    | false => rfl

/-- Slot `h` can take a right: it is free, or it is in the overflow array, which the proc does not
have and can be given. -/
def Open (ok : Bool) (t : RightTable) (h : Nat) : Prop :=
  (∃ r, t.slots[h]? = some r ∧ r.used = false) ∨ (t.slots.length ≤ h ∧ ok = true)

/-- The scan finds nothing exactly where no slot from its start on can take a right. -/
theorem scan_none_iff (hn : i + n = maxRights) :
    t.scan ok i n = none ↔ ¬∃ h, i ≤ h ∧ h < maxRights ∧ t.Open ok h := by
  induction n generalizing t i with
  | zero =>
    refine ⟨fun _ ⟨h, h1, h2, _⟩ => ?_, fun _ => rfl⟩
    omega
  | succ n ih =>
    have hlen := t.sized
    unfold scan grow
    by_cases hi : i < t.slots.length
    · obtain ⟨r, hr⟩ : ∃ r, t.slots[i]? = some r := ⟨_, List.getElem?_eq_getElem hi⟩
      simp only [if_pos hi, hr]
      cases hu : r.used with
      | false =>
        refine ⟨nofun, fun hno => absurd ⟨i, Nat.le_refl i, by omega, .inl ⟨r, hr, hu⟩⟩ hno⟩
      | true =>
        -- slot `i` is no candidate, so the search goes on behind it
        rw [if_pos rfl, ih (by omega)]
        refine not_congr ⟨fun ⟨h, h1, h2⟩ => ⟨h, by omega, h2⟩, fun ⟨h, h1, h2, ho⟩ => ?_⟩
        refine ⟨h, ?_, h2, ho⟩
        rcases Nat.eq_or_lt_of_le h1 with rfl | h1
        · rcases ho with ⟨r', hr', hu'⟩ | ⟨hle, -⟩
          · rw [hr] at hr'
            cases hr'
            rw [hu] at hu'
            cases hu'
          · omega
        · omega
    · simp only [if_neg hi]
      have hinline : t.slots.length = nrightsInline := hlen.resolve_right (by omega)
      cases ok with
      | false =>
        rw [dif_neg (by simp)]
        refine ⟨fun _ ⟨h, h1, h2, ho⟩ => ?_, fun _ => rfl⟩
        rcases ho with ⟨r, hr, -⟩ | ⟨-, e⟩
        · have := (List.getElem?_eq_some_iff.mp hr).1
          omega
        · cases e
      | true =>
        have hin : i < maxRights := by omega
        rw [dif_pos ⟨hinline, hin, rfl⟩]
        have hfree : (t.withOverflow hinline).slots[i]? = some Right.free := by
          show (t.slots ++ List.replicate (maxRights - nrightsInline) Right.free)[i]? = _
          rw [List.getElem?_append_right (by omega), List.getElem?_replicate, if_pos (by omega)]
        simp only [hfree]
        refine ⟨nofun, fun hno => absurd ⟨i, Nat.le_refl i, hin, .inr ⟨by omega, rfl⟩⟩ hno⟩

end RightTable

namespace Kernel

variable {k k' : Kernel} {w w' : List Work} {i h : Nat} {p : PortRef} {q : KPort} {pr pr' : KProc}
variable {v : Ref → Nat}

/-! ## Procs -/

theorem held_setProc (pr' : KProc) (hi : k.procv[i]? = some pr) :
    held v (k.setProc i pr') + tableWeight v pr.rights = held v k + tableWeight v pr'.rights := by
  have := tally_set (f := fun pr => tableWeight v pr.rights) pr' hi
  simp only [held, slotTotal, Kernel.setProc]
  omega

theorem total_setProc (pr' : KProc) (hi : k.procv[i]? = some pr) :
    (k.setProc i pr').total v w + tableWeight v pr.rights =
      k.total v w + tableWeight v pr'.rights := by
  have := held_setProc (v := v) pr' hi
  unfold total
  have e : queued v (k.setProc i pr') = queued v k := rfl
  omega

theorem slot_le_held {r : Right} (hi : k.procv[i]? = some pr) (hr : pr.rights.slots[h]? = some r)
    (hu : r.used = true) : v (r.port.ref r.recv) ≤ held v k := by
  have h1 : slotWeight v r ≤ tableWeight v pr.rights := le_tally_getElem? hr
  have h2 : tableWeight v pr.rights ≤ slotTotal v k :=
    le_tally_getElem? (f := fun pr => tableWeight v pr.rights) hi
  rw [RightTable.slotWeight_used hu] at h1
  unfold held
  omega

theorem Counted.slot_live {r : Right} (hc : k.Counted w) (hi : k.procv[i]? = some pr)
    (hr : pr.rights.slots[h]? = some r) (hu : r.used = true) : ∃ q, k.portOf r.port = some q := by
  refine hc.portOf fun v => ?_
  have h1 := slot_le_held (v := v) hi hr hu
  have h2 : held v k ≤ k.total v w := by unfold total; omega
  match r.recv, h1 with
  | false, h1 => exact .inl (Nat.le_trans h1 h2)
  | true, h1 => exact .inr (Nat.le_trans h1 h2)

/-! ## References that move -/

variable {q' : KPort} {recv : Bool} {P : Params} {m : Kmsg} {ms : List Kmsg}

/-- A write that keeps the queue of its port keeps the sums. -/
theorem total_writes_same (hq : k.portOf p = some q) (hw : Writes k p (some q') k')
    (he : q'.queue = q.queue) : k'.total v w = k.total v w := by
  have h1 := queued_writes (v := v) hq hw
  have h2 := held_same (v := v) hw.holders
  have h3 : portWeight v (some q') = queueWeight v q.queue := by
    show queueWeight v q'.queue = _
    rw [he]
  unfold total
  omega

/-- References that change hands keep the counts. -/
theorem Counted.moved (hc : k.Counted w) (hp : ∀ j, k'.portAt j = k.portAt j)
    (ht : ∀ v, k'.total v w' = k.total v w) : k'.Counted w' :=
  fun j => (hc j).congr (hp j) fun v _ => ht v

theorem Counted.setProc (hc : k.Counted w) (hi : k.procv[i]? = some pr)
    (hr : pr'.rights = pr.rights) : (k.setProc i pr').Counted w := by
  refine hc.moved (fun _ => rfl) fun v => ?_
  have := total_setProc (v := v) (w := w) pr' hi
  rw [hr] at this
  omega

theorem Counted.taken {r : Ref} (hc : k.Counted w) (hq : k.portAt r.idx = some q)
    (hq' : k'.portAt r.idx = some q') (ho : ∀ j, r.idx ≠ j → k'.portAt j = k.portAt j)
    (hg : q'.gen = q.gen) (hn : q'.nrights = q.nrights + 1)
    (hr : q'.nrecv = q.nrecv + if r.recv then 1 else 0) (hs : r.gen = none ∨ r.gen = some q.gen)
    (ht : ∀ v, k'.total v w' = k.total v w + v r) : k'.Counted w' := by
  refine hc.swap [] [r] hq hq' ho hg nofun ?_ (by simpa using hn) ?_ ht
  · intro e he
    rw [mem_singleton.mp he]
    exact ⟨rfl, hs⟩
  · have e : [r].countP (·.recv) = if r.recv then 1 else 0 := countP_singleton
    rw [e, hr, countP_nil]
    cases r.recv <;> simp

/-! ## Taking and dropping rights -/

theorem rightNew_none {ok : Bool} (hr : rightNew ok k i p recv = (none, k')) : k' = k := by
  unfold rightNew at hr
  split at hr
  · cases hr
    rfl
  split at hr
  · cases hr
    rfl
  · cases hr

/-- What `right_new` has done when it answers with a handle. -/
structure Minted (k : Kernel) (i : Nat) (p : PortRef) (recv : Bool) (h : Nat) (k' : Kernel) :
    Prop where
  intro ::
  out : ∃ pr t r, k.procv[i]? = some pr ∧ pr.rights.Extends t ∧ pr.rhint ≤ h ∧ h < maxRights ∧
    t.slots[h]? = some r ∧ r.used = false ∧
    k' = (k.setProc i (takeSlot pr t h p recv)).modPort p (addRef recv)

theorem rightNew_some {ok : Bool} (hr : rightNew ok k i p recv = (some h, k')) :
    Minted k i p recv h k' := by
  unfold rightNew at hr
  split at hr
  · cases hr
  next pr hpr =>
  split at hr
  · cases hr
  next h' t hs =>
  obtain ⟨rfl, rfl⟩ := hr
  obtain ⟨he, h1, h2, r, hslot, hu⟩ := RightTable.scan_spec hs
  exact ⟨pr, t, r, hpr, he, h1, by omega, hslot, hu, rfl⟩

theorem addRef_nrecv (recv : Bool) (q : KPort) :
    (addRef recv q).nrecv = q.nrecv + if recv then 1 else 0 := by
  cases recv
  · exact (Int.add_zero _).symm
  · rfl

theorem Minted.counted (hm : Minted k i p recv h k') (hc : k.Counted w)
    (hq : k.portOf p = some q) : k'.Counted w := by
  obtain ⟨pr, t, r, hpr, he, -, -, hslot, hu, rfl⟩ := hm.out
  have hw := writes_modPort (k := k.setProc i (takeSlot pr t h p recv)) (f := addRef recv) hq
  refine hc.taken (r := p.ref recv) (portOf_eq_some.mp hq).1 (hw.portAt_same hq)
    (fun j hj => hw.portAt_other hj) rfl rfl (addRef_nrecv recv q)
    (.inr (congrArg some (portOf_eq_some.mp hq).2.symm)) fun v => ?_
  have h1 := total_setProc (v := v) (w := w) (takeSlot pr t h p recv) hpr
  have h2 := RightTable.weight_set (v := v) ⟨p, recv, true⟩ hslot
  rw [RightTable.slotWeight_unused hu, he.weight] at h2
  have h3 : slotWeight v ⟨p, recv, true⟩ = v (p.ref recv) := rfl
  have h4 : tableWeight v (takeSlot pr t h p recv).rights =
      tableWeight v (t.set h ⟨p, recv, true⟩) :=
    rfl
  rw [total_writes_same (k := k.setProc i (takeSlot pr t h p recv)) hq hw rfl]
  omega

/-- The state `right_drop` hands to `port_unref`: the slot is free and a receive right is
uncounted. -/
def vacate (k : Kernel) (i : Nat) (pr : KProc) (h : Nat) (r : Right) : Kernel :=
  if r.recv then (k.setProc i (clearSlot pr h r)).modPort r.port dropRecv
  else k.setProc i (clearSlot pr h r)

theorem rightDrop_eq {r : Right} (hi : k.procv[i]? = some pr) (hr : pr.rights.slots[h]? = some r) :
    k.rightDrop i h = (k.vacate i pr h r).portUnref r.port := by
  simp only [rightDrop, hi, hr]
  rfl

/-- A vacated slot leaves its reference for `port_unref` to drop. -/
theorem Counted.vacate {r : Right} (hc : k.Counted w) (hi : k.procv[i]? = some pr)
    (hr : pr.rights.slots[h]? = some r) (hu : r.used = true) :
    (k.vacate i pr h r).Counted (.unref r.port :: w) := by
  unfold Kernel.vacate
  obtain ⟨q, hq⟩ := hc.slot_live hi hr hu
  have hqs : (k.setProc i (Kernel.clearSlot pr h r)).portOf r.port = some q := hq
  have hg := (portOf_eq_some.mp hq).2
  have tot : ∀ v, (k.setProc i (Kernel.clearSlot pr h r)).total v w + v (r.port.ref r.recv) =
      k.total v w := by
    intro v
    have h1 := total_setProc (v := v) (w := w) (Kernel.clearSlot pr h r) hi
    have h2 := RightTable.weight_set (v := v) { r with used := false } hr
    rw [RightTable.slotWeight_used hu] at h2
    have h3 : slotWeight v { r with used := false } = 0 := rfl
    have h4 : tableWeight v (Kernel.clearSlot pr h r).rights =
        tableWeight v (pr.rights.set h { r with used := false }) := rfl
    omega
  have tail : ∀ k' : Kernel,
    (∀ v, k'.total v w = (k.setProc i (Kernel.clearSlot pr h r)).total v w) →
      ∀ v, k'.total v (.unref r.port :: w) + tally v [r.port.ref r.recv] =
        k.total v w + tally v [r.port.ref false] := by
    intro k' hk v
    have h1 := tot v
    have h2 := hk v
    rw [total_cons]
    simp only [tally_cons, tally_nil, workWeight]
    omega
  have hout : ∀ e ∈ [r.port.ref r.recv], e.idx = r.port.idx := fun e he => by
    rw [mem_singleton.mp he]
    rfl
  have hinn : ∀ e ∈ [r.port.ref false], e.idx = r.port.idx ∧ (e.gen = none ∨ e.gen = some q.gen) :=
    fun e he => by
      rw [mem_singleton.mp he]
      exact ⟨rfl, .inr (congrArg some hg.symm)⟩
  have hcnt : [r.port.ref r.recv].countP (·.recv) = if r.recv then 1 else 0 := countP_singleton
  cases hb : r.recv with
  | true =>
    have hw := writes_modPort (f := dropRecv) hqs
    refine hc.swap _ _ (portOf_eq_some.mp hq).1 (hw.portAt_same hqs)
      (fun j hj => hw.portAt_other hj)
      rfl hout hinn rfl ?_ (tail _ fun v => total_writes_same hqs hw rfl)
    rw [hcnt, hb]
    show q.nrecv - 1 + 1 = q.nrecv + 0
    omega
  | false =>
    refine hc.swap _ _ (portOf_eq_some.mp hq).1 (portOf_eq_some.mp hqs).1 (fun j _ => rfl)
      rfl hout hinn rfl ?_ (tail _ fun v => rfl)
    rw [hcnt, hb]
    rfl

/-! ## New ports -/

/-- What `port_new` has done when it answers with a port. -/
structure Born (k : Kernel) (p : PortRef) (k' : Kernel) : Prop where
  empty : k.portAt p.idx = none
  here : k'.portAt p.idx = some (KPort.fresh p.gen)
  other : ∀ j, p.idx ≠ j → k'.portAt j = k.portAt j
  queued : ∀ v, queued v k' = queued v k
  gen : p.gen = k.portgen + 1
  rest : k' = { k with portgen := p.gen, portv := k'.portv }

theorem portNew_none {ok : Bool} (hn : portNew P ok k = (none, k')) : k' = k := by
  simp only [portNew] at hn
  split at hn
  · cases hn
  · cases hn
    rfl

theorem portNew_some {ok : Bool} (hn : portNew P ok k = (some p, k')) :
    Born k p k' ∧ p.idx < P.maxPorts := by
  simp only [portNew] at hn
  split at hn
  next hc =>
    obtain ⟨rfl, rfl⟩ := hn
    have hfree := join_findIdx k.portv
    refine ⟨⟨hfree, ?_, fun j hj => ?_, fun v => tally_grow (fun x hx => ?_) _, rfl, rfl⟩, hc.1⟩
    · exact congrArg Option.join ((getElem?_grow findIdx_le_length _ _).trans (if_pos rfl))
    · exact congrArg Option.join ((getElem?_grow findIdx_le_length _ j).trans (if_neg (Ne.symm hj)))
    · rw [hx] at hfree
      rw [show x = none from hfree]
      rfl
  · cases hn

theorem Born.portOf (hb : Born k p k') : k'.portOf p = some (KPort.fresh p.gen) :=
  portOf_of_portAt hb.here rfl

theorem Born.held (hb : Born k p k') : held v k' = held v k := by
  rw [hb.rest]
  rfl

theorem Born.total (hb : Born k p k') : k'.total v w = k.total v w := by
  unfold Kernel.total
  rw [hb.held, hb.queued]

/-- A new port is counted: its slot was empty, so nothing refers to it. -/
theorem Born.counted (hb : Born k p k') (hc : k.Counted w) : k'.Counted w := by
  intro j
  by_cases hj : p.idx = j
  · subst hj
    have h0 := hc.empty hb.empty
    have h1 := total_mono (recvTo_le_toPort p.idx) k w
    have h2 := total_mono (strayTo_le_toPort p.idx p.gen) k w
    unfold CountedAt
    rw [hb.here]
    simp only [hb.total]
    refine ⟨?_, ?_, ?_⟩
    · show (0 : Int) = _
      omega
    · show (0 : Int) = _
      omega
    · show k.total (strayTo p.idx p.gen) w = 0
      omega
  · exact (hc j).congr (hb.other j hj) fun v _ => hb.total

/-! ## References in messages, timers and the kernel's hands -/

/-- A reference taken for a message that is being written. -/
theorem Counted.take (hc : k.Counted (w ++ w')) (hq : k.portOf p = some q) :
    (k.modPort p (addRef recv)).Counted (w ++ .ref ⟨p.idx, recv⟩ :: w') := by
  have hw := writes_modPort (f := addRef recv) hq
  refine hc.taken (r := InRef.ref ⟨p.idx, recv⟩) (portOf_eq_some.mp hq).1 (hw.portAt_same hq)
    (fun j hj => hw.portAt_other hj) rfl rfl (addRef_nrecv recv q) (.inl rfl) fun v => ?_
  rw [total_append, total_cons, total_append, total_writes_same hq hw rfl]
  show _ + v (InRef.ref ⟨p.idx, recv⟩) + _ = _
  omega

/-- A send reference taken by a holder outside the queues. -/
theorem Counted.hold {k'' : Kernel} (hc : k.Counted w) (hq : k.portOf p = some q)
    (hp : k''.portv = (k.modPort p (addRef false)).portv)
    (hh : ∀ v, held v k'' = held v k + v (p.ref false)) : k''.Counted w := by
  have hw := writes_modPort (f := addRef false) hq
  have hat : ∀ j, k''.portAt j = (k.modPort p (addRef false)).portAt j := fun j => by
    unfold portAt
    rw [hp]
  refine hc.taken (r := p.ref false) (portOf_eq_some.mp hq).1
    ((hat p.idx).trans (hw.portAt_same hq)) (fun j hj => (hat j).trans (hw.portAt_other hj)) rfl rfl
    (addRef_nrecv false q) (.inr (congrArg some (portOf_eq_some.mp hq).2.symm)) fun v => ?_
  have h1 := total_writes_same (v := v) (w := w) hq hw rfl
  have h2 := held_same (v := v) hw.holders
  have h3 : queued v k'' = queued v (k.modPort p (addRef false)) := by
    unfold queued
    rw [hp]
  have h4 := hh v
  unfold total at h1 ⊢
  omega

/-- A holder outside the queues gives a send reference up, for `port_unref` to drop. -/
theorem Counted.giveUp (hc : k.Counted w) (hp : k'.portv = k.portv)
    (hh : ∀ v, held v k' + v (p.ref false) = held v k) : k'.Counted (.unref p :: w) := by
  refine hc.moved (fun j => by unfold portAt; rw [hp]) fun v => ?_
  have h1 := hh v
  have h2 : queued v k' = queued v k := by
    unfold queued
    rw [hp]
  rw [total_cons]
  unfold total
  show _ + v (p.ref false) = _
  omega

/-- A write to a port that leaves its counts alone, where no reference comes or goes. -/
theorem Counted.requeue {f : KPort → KPort} (hc : k.Counted w) (hq : k.portOf p = some q)
    (hg : (f q).gen = q.gen) (hn : (f q).nrights = q.nrights) (hr : (f q).nrecv = q.nrecv)
    (ht : ∀ v, (k.modPort p f).total v w' = k.total v w) : (k.modPort p f).Counted w' := by
  have hw := writes_modPort (f := f) hq
  exact hc.swap [] [] (portOf_eq_some.mp hq).1 (hw.portAt_same hq)
    (fun j hj => hw.portAt_other hj) hg nofun nofun (by simpa using hn) (by simpa using hr) ht

/-- The references of a message move from the sender's hands to the queue. -/
theorem Counted.enqueue (hc : k.Counted (m.refs.map .ref ++ w))
    (hq : k.portOf p = some q) : (k.modPort p (enqueue m)).Counted w := by
  have hw := writes_modPort (f := Kernel.enqueue m) hq
  refine hc.requeue hq rfl rfl rfl fun v => ?_
  have h1 := queued_writes (v := v) hq hw
  have h2 := held_same (v := v) hw.holders
  have h3 : portWeight v (some (Kernel.enqueue m q)) = queueWeight v q.queue +
      refsWeight v m.refs := by
    show tally _ (q.queue ++ [m]) = _
    rw [tally_append]
    rfl
  rw [total_append, tally_refWork]
  unfold total
  omega

theorem dequeue_cons (hm : q.queue = m :: ms) :
    dequeue q = { q with queue := ms, qbytes := q.qbytes - m.qcost } := by
  unfold dequeue
  rw [hm]

/-- The references of the head of a queue move to the receiver's hands. -/
theorem Counted.dequeue (hc : k.Counted w) (hq : k.portOf p = some q)
    (hm : q.queue = m :: ms) : (k.modPort p dequeue).Counted (m.refs.map .ref ++ w) := by
  have hw := writes_modPort (f := Kernel.dequeue) hq
  have e := dequeue_cons hm
  refine hc.requeue hq (by rw [e]) (by rw [e]) (by rw [e]) fun v => ?_
  have h1 := queued_writes (v := v) hq hw
  have h2 := held_same (v := v) hw.holders
  have h3 : portWeight v (some (Kernel.dequeue q)) = queueWeight v ms := by
    rw [e]
    rfl
  have h4 : queueWeight v q.queue = refsWeight v m.refs + queueWeight v ms := by
    rw [hm]
    rfl
  rw [total_append, tally_refWork]
  unfold total
  omega

/-- A write to a port that leaves its counts and its queue alone. -/
theorem Counted.poke {f : KPort → KPort} (hc : k.Counted w) (hq : k.portOf p = some q)
    (hg : (f q).gen = q.gen) (hn : (f q).nrights = q.nrights) (hr : (f q).nrecv = q.nrecv)
    (hl : (f q).queue = q.queue) : (k.modPort p f).Counted w :=
  hc.requeue hq hg hn hr fun _ => total_writes_same hq (writes_modPort hq) hl

/-- The used slots of a table, as entries, weigh what the slots do without their generations. -/
theorem refsWeight_tableRefs (t : RightTable) : refsWeight v (tableRefs t) =
      tally (fun r => if r.used then v ⟨r.port.idx, r.recv, none⟩ else 0) t.slots := by
  unfold tableRefs refsWeight
  induction t.slots with
  | nil => rfl
  | cons r l ih =>
    rw [filterMap_cons, tally_cons, ← ih]
    cases hu : r.used with
    | false =>
      simp only [Bool.false_eq_true, if_false]
      omega
    | true =>
      rfl

/-- The references of a wiped record are counted among the lost ones. An entry has no generation,
so it is not a stray. -/
theorem Counted.wipe (hc : k.Counted w) (hi : k.procv[i]? = some pr) :
    (k.wipeSlot i).Counted w := by
  have e : k.wipeSlot i = { k.setProc i KProc.zero with
      sch := k.sch.setProc i SProc.zero
      lost := tableRefs pr.rights ++ k.lost } := by
    unfold wipeSlot
    rw [hi]
  have tot : ∀ v, (k.wipeSlot i).total v w + tableWeight v pr.rights =
      k.total v w + refsWeight v (tableRefs pr.rights) := by
    intro v
    have h1 := total_setProc (v := v) (w := w) KProc.zero hi
    have h2 : tableWeight v KProc.zero.rights = 0 := rfl
    have h3 : (k.wipeSlot i).total v w =
        (k.setProc i KProc.zero).total v w + refsWeight v (tableRefs pr.rights) := by
      rw [e]
      unfold total held
      simp only [refsWeight_append]
      have q1 : queued v { k.setProc i KProc.zero with
        sch := k.sch.setProc i SProc.zero, lost := tableRefs pr.rights ++ k.lost } =
          queued v (k.setProc i KProc.zero) := rfl
      have q2 : slotTotal v { k.setProc i KProc.zero with
        sch := k.sch.setProc i SProc.zero, lost := tableRefs pr.rights ++ k.lost } =
          slotTotal v (k.setProc i KProc.zero) := rfl
      have q3 : (k.setProc i KProc.zero).lost = k.lost := rfl
      rw [q1, q2, q3]
      omega
    omega
  have same : ∀ v : Ref → Nat, (∀ r : Ref, v ⟨r.idx, r.recv, none⟩ = v r) →
      (k.wipeSlot i).total v w = k.total v w := by
    intro v hv
    have h1 := tot v
    have h2 : refsWeight v (tableRefs pr.rights) = tableWeight v pr.rights := by
      rw [refsWeight_tableRefs]
      refine tally_congr fun r _ => ?_
      unfold slotWeight
      split
      · exact hv (r.port.ref r.recv)
      · rfl
    omega
  intro j
  have hat : (k.wipeSlot i).portAt j = k.portAt j := by rw [e]; rfl
  have h0 := hc j
  unfold CountedAt at h0 ⊢
  rw [hat]
  rw [same (toPort j) fun r => rfl, same (recvTo j) fun r => rfl]
  revert h0
  cases k.portAt j with
  | none => exact id
  | some q =>
    intro h0
    refine ⟨h0.1, h0.2.1, ?_⟩
    have h1 := tot (strayTo j q.gen)
    have h2 : refsWeight (strayTo j q.gen) (tableRefs pr.rights) = 0 := by
      rw [refsWeight_tableRefs]
      refine tally_eq_zero.mpr fun r _ => ?_
      split
      · exact if_neg fun hc => hc.2.1 rfl
      · rfl
    omega

end Kernel

end Nlos
