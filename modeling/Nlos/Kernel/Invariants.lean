import Nlos.Kernel.Actions

/-!
# What every action keeps

The counts are right whatever a call does, as long as a reference that has no holder any more is
still counted (`Kernel.lost`). The other invariants hold in a scope that excludes the actions that
break them.
-/

namespace Nlos

open Tally List

namespace Kernel

variable {k k' : Kernel} {w w' : List Work} {i j h : Nat} {p : PortRef} {pr : KProc} {l : Label}
variable {v : Ref → Nat} {S : Scope} {c d : Config}

/-! ## Work that is only references -/

theorem plain_insert {r : InRef} (hp : Plain (w ++ w')) : Plain (w ++ .ref r :: w') := by
  intro x hx
  rcases mem_append.mp hx with hx | hx
  · exact hp x (mem_append_left _ hx)
  · rcases mem_cons.mp hx with rfl | hx
    · exact ⟨nofun, nofun⟩
    · exact hp x (mem_append_right _ hx)

/-- Every action but the cascade leaves plain work behind. -/
theorem Act.plain (ha : Act l (k, w) (k', w')) (hl : l ≠ .work) : Plain w ∧ Plain w' := by
  cases ha with
  | work => exact absurd rfl hl
  | drop hw | shed hw | disarm hw | unhold hw => exact ⟨hw, plain_unref hw⟩
  | take hw => exact ⟨hw, plain_insert hw⟩
  | enqueue hw | lose hw => exact ⟨plain_refs hw, hw⟩
  | dequeue hw => exact ⟨hw, plain_refs hw⟩
  | skip hw | touch hw | poke hw | proc hw | trim hw | grow hw | sched hw | mint hw | birth hw
  | leak hw | kbirth hw | wipe hw | name hw | hatch hw | mark hw | park hw | unpark hw
  | notice hw | arm hw | hold hw | opens hw | closes hw | block hw => exact ⟨hw, hw⟩

/-! ## The counts -/

theorem tableWeight_dropOverflow {t : RightTable}
    (hu : ∀ r ∈ t.slots.drop nrightsInline, r.used = false) :
    tableWeight v t.dropOverflow = tableWeight v t := by
  have h1 : tally (slotWeight v) t.slots = tally (slotWeight v) (t.slots.take nrightsInline) +
      tally (slotWeight v) (t.slots.drop nrightsInline) := by
    rw [← tally_append, take_append_drop]
  have h2 : tally (slotWeight v) (t.slots.drop nrightsInline) = 0 :=
    tally_eq_zero.mpr fun r hr => RightTable.slotWeight_unused (hu r hr)
  show tally (slotWeight v) (t.slots.take nrightsInline) = tally (slotWeight v) t.slots
  omega

theorem wipeSlot_none (hi : k.procv[i]? = none) : k.wipeSlot i = { k with
      procv := k.procv ++ [KProc.zero]
      sch := { k.sch with procs := k.sch.procs ++ [SProc.zero] } } := by
  unfold wipeSlot
  rw [hi]

theorem wipeSlot_some (hi : k.procv[i]? = some pr) : k.wipeSlot i = { k.setProc i KProc.zero with
      sch := k.sch.setProc i SProc.zero
      lost := tableRefs pr.rights ++ k.lost } := by
  unfold wipeSlot
  rw [hi]

variable {t : KTimer} {f : KPort → KPort} {pr' : KProc} {r : Right} {recv : Bool} {x : Work}
  {new : List Work} {pid : Int}

theorem freeTimer_some (hj : freeTimer k = some j) : k.timers.findIdx (·.isNone) = j :=
  Option.some.inj (Option.ite_none_right_eq_some.mp hj).2

/-- The timer table once a free slot of it is written. -/
theorem tally_setTimer {f : Option KTimer → Nat} (hf : f none = 0) (hj : freeTimer k = some j) :
    tally f (setTimer k j t).timers = tally f k.timers + f (some t) := by
  refine tally_grow (fun x hx => ?_) _
  have hfree := join_findIdx k.timers
  rw [freeTimer_some hj, hx] at hfree
  rw [show x = none from hfree, hf]

theorem freeTimer_congr (ht : k'.timers = k.timers) : freeTimer k' = freeTimer k := by
  unfold freeTimer
  rw [ht]

theorem held_arm {due : Nat} (hj : freeTimer k = some j) :
    held v (setTimer (k.modPort p f) j ⟨p, due⟩) = held v k + v (p.ref false) := by
  have hs := sameHolders_modPort (k := k) (p := p) (f := f)
  have h1 := tally_setTimer (f := timerWeight v) (t := ⟨p, due⟩) rfl
    ((freeTimer_congr hs.timers).trans hj)
  have h2 : timerWeight v (some ⟨p, due⟩) = v (p.ref false) := rfl
  have h3 := held_same (v := v) hs
  simp only [held, slotTotal] at h3 ⊢
  have h4 : (setTimer (k.modPort p f) j ⟨p, due⟩).procv = (k.modPort p f).procv := rfl
  have h5 : (setTimer (k.modPort p f) j ⟨p, due⟩).krefs = (k.modPort p f).krefs := rfl
  have h6 : (setTimer (k.modPort p f) j ⟨p, due⟩).lost = (k.modPort p f).lost := rfl
  rw [h4, h5, h6]
  omega

theorem held_disarm (hj : k.timers[j]? = some (some t)) :
    held v { k with timers := k.timers.set j none } + v (t.port.ref false) = held v k := by
  have h1 := tally_set (f := timerWeight v) none hj
  have h2 : timerWeight v (some t) = v (t.port.ref false) := rfl
  have h3 : timerWeight v none = 0 := rfl
  simp only [held, slotTotal]
  omega

theorem held_hold :
    held v { k.modPort p f with krefs := p :: k.krefs } = held v k + v (p.ref false) := by
  have h1 := held_same (v := v) (sameHolders_modPort (k := k) (p := p) (f := f))
  have h2 := (sameHolders_modPort (k := k) (p := p) (f := f)).krefs
  simp only [held, slotTotal, tally_cons] at h1 ⊢
  rw [h2] at h1
  omega

theorem held_unhold (hp : p ∈ k.krefs) :
    held v { k with krefs := k.krefs.erase p } + v (p.ref false) = held v k := by
  have h1 : tally (fun r => v (PortRef.ref r false)) k.krefs =
      v (p.ref false) + tally (fun r => v (PortRef.ref r false)) (k.krefs.erase p) := by
    exact (List.Perm.map _ (perm_cons_erase hp)).sum_eq
  simp only [held, slotTotal]
  omega

/-- An action other than a step of the cascade keeps the counts. -/
theorem Act.counted (ha : Act l (k, w) (k', w')) (hl : l ≠ .work) (hc : k.Counted w) :
    k'.Counted w' := by
  cases ha with
  | work => exact absurd rfl hl
  | skip _ hk =>
    refine hc.moved (fun j => by unfold portAt; rw [hk.portv]) fun v => ?_
    unfold total held slotTotal queued
    rw [hk.portv, hk.procv, hk.timers, hk.krefs, hk.lost]
  | poke _ hq hg hn hr he => exact hc.poke hq hg hn hr he
  | proc _ hi hs => exact hc.setProc hi hs.rights
  | @trim _ _ pr _ _ hi hu =>
    refine hc.moved (fun _ => rfl) fun v => ?_
    have h1 := total_setProc (v := v) (w := w)
      { pr with rights := pr.rights.dropOverflow } hi
    have h2 := tableWeight_dropOverflow (v := v) hu
    simp only at h1
    omega
  | grow _ hi =>
    rw [wipeSlot_none hi]
    refine hc.moved (fun _ => rfl) fun v => ?_
    unfold total held slotTotal
    simp only [tally_append]
    rfl
  | mint _ hq hm => exact hm.counted hc hq
  | birth _ hb hm => exact hm.counted (hb.counted hc) hb.portOf
  | leak _ hb => exact hb.counted hc
  | kbirth _ hb =>
    exact (hb.counted hc).hold hb.portOf rfl fun v => held_hold
  | drop _ hi hr hu | shed _ hi hr hu => exact hc.vacate hi hr hu
  | take _ hq => exact hc.take hq
  | enqueue _ hq => exact hc.enqueue hq
  | dequeue _ hq hm => exact hc.dequeue hq hm
  | lose =>
    refine hc.moved (fun _ => rfl) fun v => ?_
    rw [total_append, tally_refWork]
    simp only [total, held, slotTotal, queued, refsWeight_append]
    omega
  | wipe _ hi => exact hc.wipe hi
  | name _ hi _ hr => exact hc.setProc hi hr
  | arm _ hq hj => exact hc.hold hq rfl fun v => held_arm hj
  | disarm _ hj => exact hc.giveUp rfl fun v => held_disarm hj
  | hold _ hq => exact hc.hold hq rfl fun v => held_hold
  | unhold _ hp => exact hc.giveUp rfl fun v => held_unhold hp
  | _ => exact hc.moved (fun _ => rfl) fun _ => rfl

theorem Act.balanced (ha : Act l (k, w) (k', w')) (hb : k.Balanced w) : k'.Balanced w' := by
  by_cases hl : l = .work
  · subst hl
    cases ha with
    | work hx => exact hb.exec hx
  · exact (ha.counted hl hb.counted).balanced (ha.plain hl).2.frees

theorem Acts.balanced (hs : Acts S c d) (hb : c.1.Balanced c.2) : d.1.Balanced d.2 :=
  hs.invariant (fun _ ha hb => ha.balanced hb) hb

theorem Acts.counted (hs : Acts S (k, w) (k', w')) (hc : k.Counted w) (hw : frees w = []) :
    k'.Counted w' :=
  (hs.balanced (hc.balanced hw)).counted

/-! ## What an action does to a proc record -/

/-- The ways an action changes the record of proc `i`. -/
inductive Edit (l : Label) (i : Nat) : KProc → KProc → Prop where
  | same {pr pr' : KProc} (hs : SameRights pr pr') : Edit l i pr pr'
  | trim {pr : KProc} (hu : ∀ r ∈ pr.rights.slots.drop nrightsInline, r.used = false) :
      Edit l i pr { pr with rights := pr.rights.dropOverflow }
  | put {pr : KProc} {t : RightTable} {h : Nat} {p : PortRef} {recv : Bool} {r : Right}
      (hl : l = .mint i h ∨ l = .birth i h) (he : pr.rights.Extends t)
      (hr : t.slots[h]? = some r) (hu : r.used = false) : Edit l i pr (takeSlot pr t h p recv)
  | clear {pr : KProc} {h : Nat} {r : Right} (hl : ∃ g, l = .drop i h g ∨ l = .shed i h g)
      (hr : pr.rights.slots[h]? = some r) (hu : r.used = true) : Edit l i pr (clearSlot pr h r)
  | name {pr pr' : KProc} (hl : l = .name i) (hr : pr'.rights = pr.rights)
      (hn : pr'.nports = pr.nports) : Edit l i pr pr'

theorem SameRights.refl (pr : KProc) : SameRights pr pr := ⟨rfl, rfl, rfl, rfl, rfl⟩

/-- No proc record goes away, and each is an edit of the one before, or a fresh one. -/
structure Edited (l : Label) (k k' : Kernel) : Prop where
  length : k'.procv.length = k.procv.length ∨
    (k'.procv.length = k.procv.length + 1 ∧ ∃ i, l = .name i)
  record : ∀ j pr', k'.procv[j]? = some pr' →
    (∃ pr, k.procv[j]? = some pr ∧ Edit l j pr pr') ∨
      (pr' = KProc.zero ∧ (k.procv[j]? = none ∨ ∃ refs, l = .wipe j refs))

theorem edited_same (hp : k'.procv = k.procv) : Edited l k k' := by
  refine ⟨.inl (by rw [hp]), fun j pr' hj => ?_⟩
  rw [hp] at hj
  exact .inl ⟨pr', hj, .same (.refl pr')⟩

theorem edited_set (hi : k.procv[i]? = some pr) (he : Edit l i pr pr')
    (hp : k'.procv = k.procv.set i pr') : Edited l k k' := by
  refine ⟨.inl (by rw [hp, length_set]), fun j pr'' hj => ?_⟩
  rw [hp] at hj
  by_cases hij : i = j
  · subst hij
    rw [set_slot hi] at hj
    cases hj
    exact .inl ⟨pr, hi, he⟩
  · rw [List.getElem?_set_ne hij] at hj
    exact .inl ⟨pr'', hj, .same (.refl pr'')⟩

theorem procv_vacate : (k.vacate i pr h r).procv = k.procv.set i (clearSlot pr h r) := by
  unfold vacate
  split
  · rw [(sameHolders_modPort).procv]
    rfl
  · rfl

theorem beside_vacate : Beside k (k.vacate i pr h r) := by
  unfold vacate
  split
  · exact { beside_modPort (k := k.setProc i (clearSlot pr h r)) with }
  · exact ⟨rfl, rfl, rfl, rfl, rfl, rfl⟩

theorem Minted.beside (hm : Minted k i p recv h k') : Beside k k' := by
  obtain ⟨pr, t, r, -, -, -, -, -, -, rfl⟩ := hm.out
  exact { beside_modPort (k := k.setProc i (takeSlot pr t h p recv)) with }

theorem Born.beside (hb : Born k p k') : Beside k k' := by
  rw [hb.rest]
  exact ⟨rfl, rfl, rfl, rfl, rfl, rfl⟩

theorem Born.procv (hb : Born k p k') : k'.procv = k.procv := by
  rw [hb.rest]

theorem Minted.edited (hm : Minted k i p recv h k')
    (hl : l = .mint i h ∨ l = .birth i h) : Edited l k k' := by
  obtain ⟨pr, t, r, hpr, he, -, -, hslot, hu, rfl⟩ := hm.out
  exact edited_set hpr (.put hl he hslot hu) (sameHolders_modPort).procv

/-- Everything an action does to proc records. -/
theorem Act.edited (ha : Act l (k, w) (k', w')) : Edited l k k' := by
  cases ha with
  | work hx => exact edited_same (sameHolders_exec hx).procv
  | skip _ hk => exact edited_same hk.procv
  | poke | take | enqueue | dequeue | arm | hold => exact edited_same (sameHolders_modPort).procv
  | proc _ hi hs => exact edited_set hi (.same hs) rfl
  | trim _ hi hu => exact edited_set hi (.trim hu) rfl
  | grow _ hi =>
    rw [wipeSlot_none hi]
    refine ⟨.inr ⟨length_append, _, rfl⟩, fun j pr' hj => ?_⟩
    by_cases hlt : j < k.procv.length
    · rw [List.getElem?_append_left hlt] at hj
      exact .inl ⟨pr', hj, .same (.refl pr')⟩
    · rw [List.getElem?_append_right (by omega)] at hj
      refine .inr ⟨?_, .inl (List.getElem?_eq_none (by omega))⟩
      exact mem_singleton.mp (mem_of_getElem? hj)
  | mint _ _ hm => exact hm.edited (.inl rfl)
  | birth _ hb hm =>
    have he := hm.edited (.inr rfl)
    refine ⟨hb.procv ▸ he.length, fun j pr' hj => ?_⟩
    rcases he.record j pr' hj with ⟨pr, hpr, he⟩ | ⟨rfl, hn⟩
    · exact .inl ⟨pr, hb.procv ▸ hpr, he⟩
    · exact .inr ⟨rfl, hb.procv ▸ hn⟩
  | leak _ hb => exact edited_same hb.procv
  | kbirth _ hb => exact edited_same ((sameHolders_modPort).procv.trans hb.procv)
  | drop _ hi hr hu => exact edited_set hi (.clear ⟨_, .inl rfl⟩ hr hu) procv_vacate
  | shed _ hi hr hu => exact edited_set hi (.clear ⟨_, .inr rfl⟩ hr hu) procv_vacate
  | @wipe _ i pr _ _ hi _ =>
    rw [wipeSlot_some hi]
    refine ⟨.inl length_set, fun j pr' hj => ?_⟩
    by_cases hij : i = j
    · subst hij
      have hz := List.getElem?_set_self (a := KProc.zero) (List.getElem?_eq_some_iff.mp hi).1
      have e : some KProc.zero = some pr' := hz.symm.trans hj
      cases e
      exact .inr ⟨rfl, .inr ⟨_, rfl⟩⟩
    · have hne := List.getElem?_set_ne (l := k.procv) (a := KProc.zero) hij
      exact .inl ⟨pr', hne.symm.trans hj, .same (.refl pr')⟩
  | name _ hi _ hr hn => exact edited_set hi (.name rfl hr hn) rfl
  | _ => exact edited_same rfl

/-! ## What an action does to the statuses and the wait records -/

/-- The ways an action changes statuses and wait records. -/
inductive Resched (l : Label) (s s' : Sched) : Prop where
  | calm (hs : s.Calms s')
  | mark {i : Nat} (hl : l = .mark i) (hg : s'.gone i = true)
      (ho : ∀ j, i ≠ j → s'.statusOf j = s.statusOf j) (hw : ∀ j, s'.waitersOf j = s.waitersOf j)
  | hatch {i : Nat} {b : Bool} (hl : l = .hatch i b)
      (ho : ∀ j, i ≠ j → s'.statusOf j = s.statusOf j) (hw : ∀ j, s'.waitersOf j = s.waitersOf j)
  | park {i : Nat} {p : PortRef} (hl : l = .park i p) (ho : ∀ j, s'.statusOf j = s.statusOf j)
      (hw : ∀ j, ∀ v ∈ s'.waitersOf j, v ∈ s.waitersOf j ∨ (j = i ∧ v.port = p))

theorem Resched.same {s s' : Sched} (h : s' = s) : Resched l s s' := .calm (h ▸ .refl _)

theorem calms_exec (hx : Exec k x k' new) : k.sch.Calms k'.sch := by
  cases hx with
  | ref _ hw | last _ _ hw | dies _ _ _ _ hw | drops _ _ _ hw => exact hw.sch ▸ .refl _
  | @wake p => exact calms_hangup k p
  | @free p =>
    rw [sch_freePort]
    exact .refl _
  | _ => exact .refl _

theorem calms_wipeSlot (hi : k.procv[i]? = some pr) (hd : k.sch.statusOf i = .dead) :
    k.sch.Calms (k.wipeSlot i).sch := by
  rw [wipeSlot_some hi]
  cases hp : k.sch.procs[i]? with
  | none =>
    refine Sched.calms_of_procs ?_
    exact set_eq_of_length_le (List.getElem?_eq_none_iff.mp hp)
  | some p =>
    rw [Sched.statusOf_eq hp] at hd
    refine Sched.calms_setProc hp ?_ ?_ nofun
    · exact ⟨fun _ => hd, fun _ => rfl⟩
    · rw [hd]
      exact Iff.rfl

/-- An appended slot is `DEAD`, as a slot past the end is taken to be. -/
theorem calms_grow (hi : k.procv[i]? = none) : k.sch.Calms (k.wipeSlot i).sch := by
  rw [wipeSlot_none hi]
  have both : ∀ j, Sched.statusOf { k.sch with procs := k.sch.procs ++ [SProc.zero] } j =
    k.sch.statusOf j ∧
      Sched.waitersOf { k.sch with procs := k.sch.procs ++ [SProc.zero] } j = k.sch.waitersOf j :=
        fun j => by
    unfold Sched.statusOf Sched.waitersOf
    by_cases hj : j < k.sch.procs.length
    · simp only [List.getElem?_append_left hj, and_self]
    · rw [List.getElem?_append_right (by omega), List.getElem?_eq_none (l := k.sch.procs) (by omega)]
      cases hz : j - k.sch.procs.length <;> exact ⟨rfl, rfl⟩
  have hs := fun j => (both j).1
  refine ⟨fun j => by rw [hs], fun j => by rw [hs], fun j v hv ho => ⟨v, ?_, ho, rfl⟩, ?_⟩
  · rw [(both j).2] at hv
    exact hv
  · rw [length_append]
    exact Nat.le_add_right _ _

/-- Everything an action does to statuses and wait records. -/
theorem Act.resched (ha : Act l (k, w) (k', w')) : Resched l k.sch k'.sch := by
  cases ha with
  | work hx => exact .calm (calms_exec hx)
  | skip _ hk => exact .same hk.sch
  | poke | take | dequeue | arm | hold => exact .same sch_modPort
  | grow _ hi => exact .calm (calms_grow hi)
  | sched _ hs => exact .calm hs.calms
  | block _ hg => exact .calm (Sched.calms_procBlock hg)
  | mint _ _ hm => exact .same hm.beside.sch
  | birth _ hb hm => exact .same (hm.beside.sch.trans hb.beside.sch)
  | leak _ hb => exact .same hb.beside.sch
  | kbirth _ hb => exact .same (sch_modPort.trans hb.beside.sch)
  | drop | shed => exact .same beside_vacate.sch
  | @enqueue _ p _ m _ _ _ =>
    have h1 := calms_wake false (k.modPort p (Kernel.enqueue m)) p
    rw [sch_modPort] at h1
    exact .calm h1
  | wipe _ hi hd => exact .calm (calms_wipeSlot hi hd)
  | @hatch _ i _ _ hs =>
    refine .hatch rfl (fun j hj => ?_) fun j => ?_
    · simp only [Sched.setStatus]
      split
      · rfl
      · exact Sched.statusOf_setProc_other hj
    · simp only [Sched.setStatus]
      split
      · rfl
      next p hp => exact Sched.waitersOf_setProc hp (by rfl) j
  | @mark _ i p st b _ _ hi hst =>
    refine .mark rfl ?_ (fun j hj => Sched.statusOf_setProc_other hj)
      (Sched.waitersOf_setProc hi (by rfl))
    rw [Sched.gone_iff, Sched.statusOf_eq (Sched.procs_setProc_same hi)]
    exact hst
  | park _ _ hs => exact .park rfl (Sched.statusOf_waitAdd hs) (Sched.waitersOf_waitAdd hs)
  | _ => exact .same rfl

/-! ## Receive rights per proc -/

def recvRight (r : Ref) : Nat := if r.recv then 1 else 0

/-- Every proc's `nports` is the number of its receive rights. -/
def PortsCounted (k : Kernel) : Prop :=
  ∀ (i : Nat) (pr : KProc), k.procv[i]? = some pr → pr.nports = tableWeight recvRight pr.rights

theorem Edit.nports (he : Edit l i pr pr') (hn : pr.nports = tableWeight recvRight pr.rights) :
    pr'.nports = tableWeight recvRight pr'.rights := by
  cases he with
  | same hs => rw [hs.nports, hs.rights, hn]
  | trim hu => exact hn.trans (tableWeight_dropOverflow hu).symm
  | @put t h p recv r _ he hr hu =>
    have h1 := RightTable.weight_set (v := recvRight) ⟨p, recv, true⟩ hr
    rw [RightTable.slotWeight_unused hu, he.weight] at h1
    have h2 : slotWeight recvRight ⟨p, recv, true⟩ = if recv then 1 else 0 := rfl
    show (if recv then pr.nports + 1 else pr.nports) =
      tableWeight recvRight (t.set h ⟨p, recv, true⟩)
    cases recv with
    | true =>
      simp only [if_true] at h2 ⊢
      omega
    | false =>
      simp only [Bool.false_eq_true, if_false] at h2 ⊢
      omega
  | @clear h r _ hr hu =>
    have h1 := RightTable.weight_set (v := recvRight) { r with used := false } hr
    rw [RightTable.slotWeight_used hu] at h1
    have h2 : slotWeight recvRight { r with used := false } = 0 := rfl
    have h3 : recvRight (r.port.ref r.recv) = if r.recv then 1 else 0 := rfl
    show (if r.recv then pr.nports - 1 else pr.nports) =
      tableWeight recvRight (pr.rights.set h { r with used := false })
    cases hb : r.recv with
    | true =>
      rw [hb] at h1 h2 h3
      simp only [if_true] at h3 ⊢
      omega
    | false =>
      rw [hb] at h1 h2 h3
      simp only [Bool.false_eq_true, if_false] at h3 ⊢
      omega
  | name _ hr hp => rw [hp, hr, hn]

theorem Act.nports (ha : Act l (k, w) (k', w')) (hn : k.PortsCounted) : k'.PortsCounted := by
  intro j pr' hj
  rcases ha.edited.record j pr' hj with ⟨pr, hpr, he⟩ | ⟨rfl, -⟩
  · exact he.nports (hn j pr hpr)
  · rfl

theorem Acts.nports (hs : Acts S c d) (hn : c.1.PortsCounted) : d.1.PortsCounted :=
  hs.invariant (fun _ ha hn => ha.nports hn) hn

/-! ## References without a holder -/

/-- References are lost by a lua error that leaves a walk, and by a wiped record. -/
theorem Act.lost (ha : Act l (k, w) (k', w')) : k'.lost = k.lost ∨
    ∃ refs, k'.lost = refs ++ k.lost ∧ (l = .lose refs ∨ ∃ i, l = .wipe i refs) := by
  cases ha with
  | work hx => exact .inl (sameHolders_exec hx).lost
  | skip _ hk => exact .inl hk.lost
  | poke | take | enqueue | dequeue | arm | hold => exact .inl (sameHolders_modPort).lost
  | grow _ hi =>
    rw [wipeSlot_none hi]
    exact .inl rfl
  | mint _ _ hm => exact .inl hm.beside.lost
  | birth _ hb hm => exact .inl (hm.beside.lost.trans hb.beside.lost)
  | leak _ hb => exact .inl hb.beside.lost
  | kbirth _ hb => exact .inl ((sameHolders_modPort).lost.trans hb.beside.lost)
  | drop | shed => exact .inl beside_vacate.lost
  | lose => exact .inr ⟨_, rfl, .inl rfl⟩
  | wipe _ hi =>
    rw [wipeSlot_some hi]
    exact .inr ⟨_, rfl, .inr ⟨_, rfl⟩⟩
  | _ => exact .inl rfl

/-- A run that loses nothing keeps every reference with a holder. -/
theorem Acts.lost (hs : Acts S c d) (hl : ∀ refs, S.loses refs → refs = [])
    (hw : ∀ i refs, S.wipes i refs → refs = []) (h0 : c.1.lost = []) : d.1.lost = [] := by
  refine hs.invariant (P := fun c => c.1.lost = []) (fun {l c d} hal ha h0 => ?_) h0
  rcases ha.lost with e | ⟨refs, e, rfl | ⟨i, rfl⟩⟩
  · exact e.trans h0
  · rw [e, h0, hl refs hal]
    rfl
  · rw [e, h0, hw i refs hal]
    rfl

/-! ## Ports nobody refers to -/

/-- Every port has a reference, but for those the cascade is about to free. -/
def Occupied (k : Kernel) (w : List Work) : Prop :=
  ∀ i q, k.portAt i = some q → 0 < q.nrights ∨ ⟨i, q.gen⟩ ∈ frees w

variable {q : KPort}

theorem Occupied.congr (ho : k.Occupied w) (hp : k'.portv = k.portv) (hf : frees w' = frees w) :
    k'.Occupied w' := by
  intro i q hq
  rw [hf]
  refine ho i q ?_
  unfold portAt at hq ⊢
  rw [← hp]
  exact hq

/-- A write that leaves its port with a reference, or among those to be freed, or as it was. -/
theorem Occupied.writes {q' : KPort} (ho : k.Occupied w) (hq : k.portOf p = some q)
    (hw : Writes k p (some q') k') (hg : q'.gen = q.gen)
    (hn : 0 < q'.nrights ∨ p ∈ frees w' ∨ q'.nrights = q.nrights)
    (hf : ∀ r ∈ frees w, r ∈ frees w') : k'.Occupied w' := by
  intro i q'' hi
  by_cases hip : p.idx = i
  · subst hip
    rw [hw.portAt_same hq] at hi
    cases hi
    have hpg : p = ⟨p.idx, q'.gen⟩ := by
      rw [hg, (portOf_eq_some.mp hq).2]
    rcases hn with hn | hn | hn
    · exact .inl hn
    · exact .inr (hpg ▸ hn)
    · rcases ho p.idx q (portOf_eq_some.mp hq).1 with h0 | h0
      · exact .inl (hn.symm ▸ h0)
      · exact .inr (hf _ (hg.symm ▸ h0))
  · rw [hw.portAt_other hip] at hi
    exact (ho i q'' hi).imp id (hf _)

/-- The cascade puts a port it took the last reference from on its list. -/
theorem Occupied.exec (hx : Exec k x k' new)
    (ho : k.Occupied (x :: w)) : k'.Occupied (new ++ w) := by
  cases hx with
  | gone | stale => exact ho
  | @ref r q _ hq hw =>
    refine ho.writes (portOf_of_portAt hq rfl) hw ?_ (.inr (.inr ?_)) fun _ h => h <;>
      cases r.recv <;> rfl
  | last hq _ hw =>
    refine ho.writes hq hw rfl (.inr (.inl ?_)) fun r hr => ?_
    all_goals rw [frees_append, frees_append, frees_queueWork]
    · exact mem_cons_self
    · exact mem_cons_of_mem _ hr
  | @dies p q _ hq hn _ _ hw =>
    refine ho.writes hq hw rfl (.inl ?_) fun r hr => ?_
    · show 0 < q.nrights - 1
      omega
    · rw [frees_append, frees_append, frees_queueWork]
      exact hr
  | @drops p q _ hq hn _ hw =>
    refine ho.writes hq hw rfl (.inl ?_) fun r hr => hr
    show 0 < q.nrights - 1
    omega
  | bufs | wake => exact ho.congr rfl rfl
  | @free p =>
    intro i q hq
    obtain ⟨hq', hgone⟩ := portAt_of_freePort hq
    refine (ho i q hq').imp id fun hmem => ?_
    rcases mem_cons.mp hmem with rfl | hmem
    · rw [portOf_of_portAt hq' rfl] at hgone
      cases hgone rfl
    · exact hmem

theorem Occupied.addRef (recv : Bool) (ho : k.Occupied w) (hq : k.portOf p = some q)
    (hn : 0 ≤ q.nrights) (hf : ∀ r ∈ frees w, r ∈ frees w') :
    (k.modPort p (addRef recv)).Occupied w' := by
  refine ho.writes hq (writes_modPort hq) rfl (.inl ?_) hf
  show 0 < q.nrights + 1
  omega

theorem Counted.nrights_nonneg (hc : k.Counted w) (hq : k.portOf p = some q) : 0 ≤ q.nrights := by
  rw [hc.nrights (portOf_eq_some.mp hq).1]
  exact Int.natCast_nonneg _

theorem Minted.occupied (hm : Minted k i p recv h k') (hq : k.portOf p = some q)
    (hn : 0 ≤ q.nrights) (ho : ∀ j q, p.idx ≠ j → k.portAt j = some q → 0 < q.nrights) :
    k'.Occupied w := by
  obtain ⟨pr, t, r, hpr, he, -, -, hslot, hu, rfl⟩ := hm.out
  have hw := writes_modPort (k := k.setProc i (takeSlot pr t h p recv)) (f := Kernel.addRef recv) hq
  intro j q' hj
  by_cases hpj : p.idx = j
  · subst hpj
    rw [hw.portAt_same hq] at hj
    cases hj
    refine .inl ?_
    show 0 < q.nrights + 1
    omega
  · rw [hw.portAt_other hpj] at hj
    exact .inl (ho j q' hpj hj)

/-- No action but a leak makes a port without a reference. -/
theorem Act.occupied (ha : Act l (k, w) (k', w')) (hl : l ≠ .leak) (hb : k.Balanced w)
    (ho : k.Occupied w) : k'.Occupied w' := by
  have hc := hb.counted
  by_cases hwk : l = .work
  · subst hwk
    cases ha with
    | work hx => exact ho.exec hx
  have hpl := ha.plain hwk
  have hall : ∀ i q, k.portAt i = some q → 0 < q.nrights := fun i q hq => by
    rcases ho i q hq with h0 | h0
    · exact h0
    · rw [hpl.1.frees] at h0
      cases h0
  have hf : ∀ r ∈ frees w, r ∈ frees w' := fun r hr => by
    rw [hpl.1.frees] at hr
    cases hr
  cases ha with
  | work => exact absurd rfl hwk
  | leak => exact absurd rfl hl
  | skip _ hk => exact ho.congr hk.portv rfl
  | poke _ hq hg hn => exact ho.writes hq (writes_modPort hq) hg (.inr (.inr hn)) hf
  | grow _ hi =>
    rw [wipeSlot_none hi]
    exact ho.congr rfl rfl
  | mint _ hq hm => exact hm.occupied hq (hc.nrights_nonneg hq) fun j q _ hj => hall j q hj
  | birth _ hb hm =>
    refine hm.occupied hb.portOf (Int.le_refl 0) fun j q hpj hj => hall j q ?_
    rw [← hb.other j hpj]
    exact hj
  | @kbirth _ k1 p _ _ hb =>
    intro j q hj
    have hj' : (k1.modPort p (Kernel.addRef false)).portAt j = some q := hj
    rw [portAt_modPort hb.portOf] at hj'
    split at hj'
    · cases hj'
      refine .inl ?_
      show (0 : Int) < 0 + 1
      decide
    next hne =>
      rw [hb.other j hne] at hj'
      exact .inl (hall j q hj')
  | @drop _ i h pr r _ _ hi hr hu | @shed _ i h pr r _ _ hi hr hu =>
    obtain ⟨q, hq⟩ := hc.slot_live hi hr hu
    unfold vacate
    split
    · exact Occupied.writes (k := k.setProc i (clearSlot pr h r)) (ho.congr rfl rfl) hq
        (writes_modPort hq) rfl (.inr (.inr rfl)) hf
    · exact ho.congr rfl rfl
  | take _ hq => exact ho.addRef _ hq (hc.nrights_nonneg hq) hf
  | @enqueue _ p _ m _ _ hq =>
    have h1 : (k.modPort p (Kernel.enqueue m)).Occupied w' :=
      ho.writes hq (writes_modPort hq) rfl (.inr (.inr rfl)) hf
    exact h1.congr rfl rfl
  | @dequeue _ p q _ _ _ _ hq hm =>
    refine ho.writes hq (writes_modPort hq) ?_ (.inr (.inr ?_)) hf <;> rw [dequeue_cons hm]
  | wipe _ hi =>
    rw [wipeSlot_some hi]
    exact ho.congr rfl rfl
  | arm _ hq | hold _ hq =>
    have h1 := ho.addRef false hq (hc.nrights_nonneg hq) hf
    exact h1.congr rfl rfl
  | lose | disarm | unhold => exact fun j q hj => .inl (hall j q hj)
  | _ => exact ho.congr rfl rfl

/-- A run that leaks no port leaves every port with a reference. -/
theorem Acts.occupied (hs : Acts S c d) (hl : ¬S.leaks) (hb : c.1.Balanced c.2)
    (ho : c.1.Occupied c.2) : d.1.Occupied d.2 := by
  refine (hs.invariant (P := fun c => c.1.Balanced c.2 ∧ c.1.Occupied c.2)
    (fun {l c d} hal ha hc => ⟨ha.balanced hc.1, ha.occupied (fun e => ?_) hc.1 hc.2⟩) ⟨hb, ho⟩).2
  subst e
  exact hl hal

/-! ## Slot 0 -/

/-- Every living proc has its self port in slot 0. -/
def SelfsKept (k : Kernel) : Prop := ∀ i, k.sch.gone i = false → k.SelfAt i

theorem takeSlot_slot {t : RightTable} {r' : Right} (he : pr.rights.Extends t)
    (hr : t.slots[h]? = some r) (hu : r.used = false) (hj : pr.rights.slots[j]? = some r')
    (hu' : r'.used = true) : (takeSlot pr t h p recv).rights.slots[j]? = some r' := by
  have hj' := he.slot hj
  show (t.slots.set h ⟨p, recv, true⟩)[j]? = some r'
  by_cases hjh : h = j
  · subst hjh
    rw [hr] at hj'
    cases hj'
    rw [hu] at hu'
    cases hu'
  · rw [List.getElem?_set_ne hjh]
    exact hj'

theorem Edit.slot (he : Edit l i pr pr') (hr : pr.rights.slots[j]? = some r) (hu : r.used = true)
    (hl : ∀ g, l ≠ .drop i j g ∧ l ≠ .shed i j g) : pr'.rights.slots[j]? = some r := by
  cases he with
  | same hs => exact hs.rights ▸ hr
  | trim hn =>
    show (pr.rights.slots.take nrightsInline)[j]? = some r
    by_cases hj : j < nrightsInline
    · rw [List.getElem?_take_of_lt hj]
      exact hr
    · have hd : (pr.rights.slots.drop nrightsInline)[j - nrightsInline]? = some r := by
        rw [List.getElem?_drop, Nat.add_sub_cancel' (Nat.le_of_not_lt hj)]
        exact hr
      rw [hn r (mem_of_getElem? hd)] at hu
      cases hu
  | put _ hx hs hn => exact takeSlot_slot hx hs hn hr hu
  | @clear h r' hc _ _ =>
    show (pr.rights.slots.set h _)[j]? = some r
    by_cases hjh : h = j
    · subst hjh
      obtain ⟨g, rfl | rfl⟩ := hc
      · exact absurd rfl (hl g).1
      · exact absurd rfl (hl g).2
    · rw [List.getElem?_set_ne hjh]
      exact hr
  | name _ hs => exact hs ▸ hr

theorem Edit.self (he : Edit l i pr pr') (hl : l ≠ .name i) :
    pr'.selfidx = pr.selfidx ∧ pr'.selfgen = pr.selfgen ∧ pr'.id = pr.id := by
  cases he with
  | same hs => exact ⟨hs.selfidx, hs.selfgen, hs.id⟩
  | name hn => exact absurd hn hl
  | _ => exact ⟨rfl, rfl, rfl⟩

section

variable (ha : Act l (k, w) (k', w'))

include ha

/-- The record of a proc after an action that does not wipe it. -/
theorem Act.edit (hi : k.procv[i]? = some pr)
    (hl : ∀ refs, l ≠ .wipe i refs) : ∃ pr', k'.procv[i]? = some pr' ∧ Edit l i pr pr' := by
  have hlt : i < k'.procv.length := by
    have h0 := (List.getElem?_eq_some_iff.mp hi).1
    rcases ha.edited.length with e | ⟨e, -⟩ <;> omega
  obtain ⟨pr', hpr'⟩ : ∃ pr', k'.procv[i]? = some pr' := ⟨_, List.getElem?_eq_getElem hlt⟩
  rcases ha.edited.record i pr' hpr' with ⟨pr0, h0, he⟩ | ⟨-, hn | ⟨refs, hw⟩⟩
  · rw [hi] at h0
    cases h0
    exact ⟨pr', hpr', he⟩
  · rw [hi] at hn
    cases hn
  · exact absurd hw (hl refs)

theorem Act.procv_length (hn : ∀ i, l ≠ .name i) : k'.procv.length = k.procv.length := by
  rcases ha.edited.length with e | ⟨-, i, e⟩
  · exact e
  · exact absurd e (hn i)

/-- A used slot survives every action that neither clears it nor wipes its proc. -/
theorem Act.slotAt (hs : k.SlotAt i j r)
    (hl : ∀ g, l ≠ .drop i j g ∧ l ≠ .shed i j g) (hw : ∀ refs, l ≠ .wipe i refs) :
    k'.SlotAt i j r := by
  obtain ⟨pr, hpr, hr, hu⟩ := hs
  obtain ⟨pr', hpr', he⟩ := ha.edit hpr hw
  exact ⟨pr', hpr', he.slot hr hu hl, hu⟩

theorem Act.selfAt (hs : k.SelfAt i)
    (hl : ∀ g, l ≠ .drop i 0 g ∧ l ≠ .shed i 0 g) (hw : ∀ refs, l ≠ .wipe i refs)
    (hn : l ≠ .name i) : k'.SelfAt i := by
  obtain ⟨pr, r, hpr, hr, hu, hp⟩ := hs
  obtain ⟨pr', hpr', he⟩ := ha.edit hpr hw
  obtain ⟨h1, h2, -⟩ := he.self hn
  exact ⟨pr', r, hpr', he.slot hr hu hl, hu, by rw [h1, h2]; exact hp⟩

/-- The labels that change slot 0 or the self port of a proc come with its status. -/
theorem Act.gone_of : (∀ j g, l = .drop i j g ∨ l = .shed i j g → g = k.sch.gone i) ∧
      (∀ refs, l = .wipe i refs → k.sch.gone i = true) ∧ (l = .name i → k.sch.gone i = true) := by
  cases ha with
  | drop | shed =>
    refine ⟨fun j g h => ?_, nofun, nofun⟩
    rcases h with h | h <;> cases h
    rfl
  | wipe _ _ hd =>
    refine ⟨fun j g h => (by rcases h with h | h <;> cases h), fun refs h => ?_, nofun⟩
    cases h
    exact Sched.gone_iff.mpr (.inl hd)
  | name _ _ hd | grow _ _ hd =>
    refine ⟨fun j g h => (by rcases h with h | h <;> cases h), nofun, fun h => ?_⟩
    cases h
    exact Sched.gone_iff.mpr (.inl hd)
  | _ => exact ⟨fun j g h => (by rcases h with h | h <;> cases h), nofun, nofun⟩

theorem Act.selfs (hd : ∀ i g, l = .drop i 0 g ∨ l = .shed i 0 g → g = true) (hs : k.SelfsKept) :
    k'.SelfsKept := by
  intro i hi
  have hg := ha.gone_of (i := i)
  -- a proc that was alive keeps its slot; the only other way to be alive is to have hatched
  have keep : k.sch.gone i = false → k'.SelfAt i := by
    intro h0
    have hne : ∀ {b : Bool}, b = k.sch.gone i → b = true → False := fun h1 h2 => by
      rw [h2, h0] at h1
      cases h1
    refine ha.selfAt (hs i h0) (fun g => ⟨?_, ?_⟩) (fun refs => ?_) ?_
    · exact fun e => hne (hg.1 0 g (.inl e)) (hd i g (.inl e))
    · exact fun e => hne (hg.1 0 g (.inr e)) (hd i g (.inr e))
    · intro e
      have := hg.2.1 refs e
      rw [h0] at this
      cases this
    · intro e
      have := hg.2.2 e
      rw [h0] at this
      cases this
  rcases ha.resched with hc | ⟨rfl, hm, ho, -⟩ | ⟨rfl, ho, -⟩ | ⟨rfl, ho, -⟩
  · exact keep ((hc.gone i).symm.trans hi)
  · rename_i j
    by_cases hj : j = i
    · subst hj
      rw [hm] at hi
      cases hi
    · exact keep ((Sched.gone_congr (ho i hj)).symm.trans hi)
  · rename_i j b
    by_cases hj : j = i
    · subst hj
      cases ha with
      | hatch _ hs' => exact hs'
    · exact keep ((Sched.gone_congr (ho i hj)).symm.trans hi)
  · exact keep ((Sched.gone_congr (ho i)).symm.trans hi)

end

/-- A run that clears slot 0 of corpses only keeps the self ports of the living. -/
theorem Acts.selfs (hs : Acts S c d) (hd : ∀ i g, S.drops i 0 g → g = true)
    (hsh : ∀ i g, S.sheds i g → g = true) (h0 : c.1.SelfsKept) : d.1.SelfsKept := by
  refine hs.invariant (P := fun c => c.1.SelfsKept) (fun {l c d} hal ha h0 => ?_) h0
  refine ha.selfs (fun i g e => ?_) h0
  rcases e with rfl | rfl
  · exact hd i g hal
  · exact hsh i g hal

/-! ## Slots of the scheduler -/

def Roomy (k : Kernel) : Prop := k.procv.length ≤ k.sch.procs.length

theorem Act.procs_le (ha : Act l (k, w) (k', w')) : k.sch.procs.length ≤ k'.sch.procs.length := by
  rcases ha.resched with hc | ⟨rfl, -, -, -⟩ | ⟨rfl, -, -⟩ | ⟨rfl, -, -⟩
  · exact hc.size
  · cases ha with
    | mark _ _ _ => exact Nat.le_of_eq length_set.symm
  · cases ha with
    | hatch _ _ =>
      unfold Sched.setStatus
      split
      · exact Nat.le_refl _
      · exact Nat.le_of_eq length_set.symm
  · cases ha with
    | park _ _ hs =>
      obtain ⟨p, v, -, -, -, -, -, e⟩ := Sched.waitAdd_some hs
      exact Nat.le_of_eq (by rw [e, length_set])

theorem Act.roomy (ha : Act l (k, w) (k', w')) (hz : k.Roomy) : k'.Roomy := by
  have hp := ha.procs_le
  have hsame : k'.procv.length = k.procv.length → k'.Roomy := fun e => by
    unfold Roomy at hz ⊢
    omega
  cases hl : l with
  | name i =>
    subst hl
    cases ha with
    | grow _ hi =>
      rw [wipeSlot_none hi]
      unfold Roomy at hz ⊢
      simp only [length_append, length_singleton]
      omega
    | name => exact hsame length_set
  | _ => exact hsame (ha.procv_length (by rw [hl]; exact nofun))

theorem Acts.roomy (hs : Acts S c d) (hz : c.1.Roomy) : d.1.Roomy :=
  hs.invariant (fun _ ha hz => ha.roomy hz) hz

/-! ## Unfinished teardowns -/

def TeardownsFit (k : Kernel) : Prop := ∀ t ∈ k.teardowns, k.sch.gone t.slot = true

theorem teardowns_wipeSlot : (k.wipeSlot i).teardowns = k.teardowns := by
  unfold wipeSlot
  split <;> rfl

theorem Act.teardowns (ha : Act l (k, w) (k', w')) :
    ∀ t ∈ k'.teardowns, t ∈ k.teardowns ∨ (l = .opens t ∧ k.sch.gone t.slot = true) := by
  have same : k'.teardowns = k.teardowns →
      ∀ t ∈ k'.teardowns, t ∈ k.teardowns ∨ (l = .opens t ∧ k.sch.gone t.slot = true) :=
    fun e t ht => .inl (e ▸ ht)
  cases ha with
  | skip _ hk => exact same hk.teardowns
  | closes => exact fun t ht => .inl (mem_of_mem_erase ht)
  | @opens _ t _ _ hs =>
    intro t' ht
    rcases mem_cons.mp ht with rfl | ht
    · exact .inr ⟨rfl, hs⟩
    · exact .inl ht
  | work hx => exact same (sameHolders_exec hx).teardowns
  | poke | take | enqueue | dequeue | arm | hold => exact same (sameHolders_modPort).teardowns
  | grow | wipe => exact same teardowns_wipeSlot
  | mint _ _ hm => exact same hm.beside.teardowns
  | birth _ hb hm => exact same (hm.beside.teardowns.trans hb.beside.teardowns)
  | leak _ hb => exact same hb.beside.teardowns
  | kbirth _ hb => exact same ((sameHolders_modPort).teardowns.trans hb.beside.teardowns)
  | drop | shed => exact same beside_vacate.teardowns
  | _ => exact same rfl

theorem Act.hatch_clear {b : Bool} (ha : Act (.hatch i b) (k, w) (k', w')) :
    k'.teardowns = k.teardowns ∧ (b = true → ∀ t ∈ k.teardowns, t.slot ≠ i) := by
  cases ha with
  | hatch _ _ =>
    refine ⟨rfl, fun hb t ht => ?_⟩
    have := all_eq_true.mp hb t ht
    simpa using this

theorem Act.fits (ha : Act l (k, w) (k', w')) (hh : ∀ i b, l = .hatch i b → b = true)
    (ht : k.TeardownsFit) : k'.TeardownsFit := by
  intro t hmem
  have hg : k.sch.gone t.slot = true := (ha.teardowns t hmem).elim (ht t) And.right
  rcases ha.resched with hc | ⟨rfl, hm, ho, -⟩ | ⟨rfl, ho, -⟩ | ⟨rfl, ho, -⟩
  · exact (hc.gone _).trans hg
  · rename_i j
    by_cases hj : j = t.slot
    · exact hj ▸ hm
    · exact (Sched.gone_congr (ho _ hj)).trans hg
  · rename_i j b
    obtain ⟨e, hclear⟩ := ha.hatch_clear
    rw [e] at hmem
    exact (Sched.gone_congr (ho _ fun hj => hclear (hh j b rfl) t hmem hj.symm)).trans hg
  · exact (Sched.gone_congr (ho _)).trans hg

theorem Acts.fits (hs : Acts S c d) (hh : ∀ i b, S.hatches i b → b = true)
    (h0 : c.1.TeardownsFit) : d.1.TeardownsFit := by
  refine hs.invariant (P := fun c => c.1.TeardownsFit) (fun {l c d} hal ha h0 => ?_) h0
  refine ha.fits (fun i b e => ?_) h0
  subst e
  exact hh i b hal

/-! ## Names -/

theorem isProc_iff : k.isProc pid i = true ↔
    k.sch.statusOf i ≠ .dead ∧ ∃ pr, k.procv[i]? = some pr ∧ (pr.id : Int) = pid := by
  unfold isProc
  cases hi : k.procv[i]? <;> simp

theorem findProc_eq_some : k.findProc pid = some j ↔
    k.isProc pid j = true ∧ ∀ i, i < j → k.isProc pid i = false := by
  unfold findProc
  rw [List.find?_range_eq_some]
  constructor
  · rintro ⟨h1, -, h2⟩
    exact ⟨h1, fun i hi => by simpa using h2 i hi⟩
  · rintro ⟨h1, h2⟩
    obtain ⟨-, pr, hpr, -⟩ := isProc_iff.mp h1
    exact ⟨h1, mem_range.mpr (List.getElem?_eq_some_iff.mp hpr).1,
      fun i hi => by simpa using h2 i hi⟩

theorem findProc_congr (h : ∀ i, k'.isProc pid i = k.isProc pid i) :
    k'.findProc pid = k.findProc pid := by
  refine Option.ext fun j => ?_
  rw [findProc_eq_some, findProc_eq_some, h]
  simp only [h]

theorem Act.dead_iff (ha : Act l (k, w) (k', w')) (hm : ∀ i, l ≠ .mark i)
    (hh : ∀ i b, l ≠ .hatch i b) (i : Nat) :
    k'.sch.statusOf i = .dead ↔ k.sch.statusOf i = .dead := by
  rcases ha.resched with hc | ⟨rfl, -, -, -⟩ | ⟨rfl, -, -⟩ | ⟨-, ho, -⟩
  · exact hc.dead i
  · exact absurd rfl (hm _)
  · exact absurd rfl (hh _ _)
  · rw [ho]

/-- A record that appears was named, and a record that is wiped was of a dead proc. -/
theorem Act.procv_iff (ha : Act l (k, w) (k', w')) (hn : ∀ i, l ≠ .name i)
    (hi : k.sch.statusOf i ≠ .dead) (pid : Int) :
    (∃ pr', k'.procv[i]? = some pr' ∧ (pr'.id : Int) = pid) ↔
      ∃ pr, k.procv[i]? = some pr ∧ (pr.id : Int) = pid := by
  have hwipe : ∀ refs, l ≠ .wipe i refs := by
    rintro refs rfl
    cases ha with
    | wipe _ _ hd => exact hi hd
  constructor
  · rintro ⟨pr', hpr', hid⟩
    cases hpr : k.procv[i]? with
    | some pr =>
      obtain ⟨pr'', hpr'', he⟩ := ha.edit hpr hwipe
      rw [hpr'] at hpr''
      cases hpr''
      exact ⟨pr, rfl, by rw [← (he.self (hn i)).2.2]; exact hid⟩
    | none =>
      have hlen := List.getElem?_eq_none_iff.mp hpr
      have hlt := (List.getElem?_eq_some_iff.mp hpr').1
      rw [ha.procv_length hn] at hlt
      omega
  · rintro ⟨pr, hpr, hid⟩
    obtain ⟨pr', hpr', he⟩ := ha.edit hpr hwipe
    exact ⟨pr', hpr', by rw [(he.self (hn i)).2.2]; exact hid⟩

/-- An action that renames, marks and hatches nobody leaves every name where it was. -/
theorem Act.isProc (ha : Act l (k, w) (k', w')) (hn : ∀ i, l ≠ .name i) (hm : ∀ i, l ≠ .mark i)
    (hh : ∀ i b, l ≠ .hatch i b) (pid : Int) (i : Nat) : k'.isProc pid i = k.isProc pid i := by
  have hd := ha.dead_iff hm hh i
  rw [Bool.eq_iff_iff, isProc_iff, isProc_iff]
  constructor
  · rintro ⟨h1, h2⟩
    have h0 : k.sch.statusOf i ≠ .dead := fun e => h1 (hd.mpr e)
    exact ⟨h0, (ha.procv_iff hn h0 pid).mp h2⟩
  · rintro ⟨h0, h2⟩
    exact ⟨fun e => h0 (hd.mp e), (ha.procv_iff hn h0 pid).mpr h2⟩

theorem Acts.findProc (hs : Acts S c d) (hn : ∀ i, ¬S.names i) (hm : ∀ i, ¬S.marks i)
    (hh : ∀ i b, ¬S.hatches i b) (pid : Int) : d.1.findProc pid = c.1.findProc pid := by
  induction hs with
  | refl => rfl
  | tail _ ha ih =>
    obtain ⟨l, hal, ha⟩ := ha
    rw [← ih]
    refine findProc_congr (ha.isProc (fun i e => ?_) (fun i e => ?_) (fun i b e => ?_) pid)
    all_goals subst e
    · exact hn i hal
    · exact hm i hal
    · exact hh i b hal

end Kernel

end Nlos
