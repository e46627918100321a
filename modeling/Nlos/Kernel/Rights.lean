import Nlos.Kernel.Send

/-!
# Making and closing rights, as runs of actions

`right_new` and `right_drop` and the calls around them (`sys.newport`, `sys.sendright`, `sys.close`,
the finalizer `owned_close`, and the timers), each as a run of actions. What such a call may do that
an invariant cares about is left to its scope: which slot it clears, and whether it makes a port it
has no right for.
-/

namespace Nlos

open Tally

namespace Kernel

variable {k k' : Kernel} {w : List Work} {i j h : Nat} {p : PortRef} {pr : KProc} {r : Right}
variable {S : Scope} {c d : Config}

/-! ## The cascade leaves the holders alone -/

theorem sameHolders_steps (hs : CSteps c d) : SameHolders c.1 d.1 :=
  CSteps.moves (R := SameHolders) .refl SameHolders.trans sameHolders_exec hs

theorem calms_steps (hs : CSteps c d) : c.1.sch.Calms d.1.sch :=
  CSteps.moves (fun k => .refl k.sch) (fun h g => h.trans g)
    calms_exec hs

theorem sameHolders_portUnref (k : Kernel) (p : PortRef) : SameHolders k (k.portUnref p) :=
  sameHolders_steps (portUnref_steps k p [])

theorem calms_portUnref (k : Kernel) (p : PortRef) : k.sch.Calms (k.portUnref p).sch :=
  calms_steps (portUnref_steps k p [])

theorem sameHolders_releaseInflight (k : Kernel) (refs : List InRef) :
    SameHolders k (k.releaseInflight refs) := by
  have h := releaseInflight_steps k refs []
  exact sameHolders_steps h

theorem sameHolders_msgFree (k : Kernel) (m : Kmsg) : SameHolders k (k.msgFree m) :=
  sameHolders_steps (msgFree_steps k m [])

/-! ## Slots -/

def Vacant (k : Kernel) (i h : Nat) : Prop := ∀ r, ¬k.SlotAt i h r

/-- A right that was made in a slot vacant before the call may be dropped again. -/
def Scope.Undoes (S : Scope) (k : Kernel) (i : Nat) : Prop :=
  ∀ h, k.Vacant i h → S.drops i h (k.sch.gone i)

variable {pr' : KProc} {q : KPort} {P : Params}

theorem slotAt_set (hi : k.procv[i]? = some pr) (hp : k'.procv = k.procv.set i pr') :
    k'.SlotAt j h r ↔
      if j = i then pr'.rights.slots[h]? = some r ∧ r.used = true else k.SlotAt j h r := by
  have hlt := (List.getElem?_eq_some_iff.mp hi).1
  unfold SlotAt
  rw [hp]
  by_cases hj : j = i
  · subst hj
    rw [if_pos rfl, List.getElem?_set_self hlt]
    constructor
    · rintro ⟨pr1, e, hr⟩
      cases e
      exact hr
    · exact fun hr => ⟨pr', rfl, hr⟩
  · rw [if_neg hj, List.getElem?_set_ne (Ne.symm hj)]

theorem slotAt_same (hi : k.procv[i]? = some pr) :
    k.SlotAt i h r ↔ pr.rights.slots[h]? = some r ∧ r.used = true := by
  constructor
  · rintro ⟨pr', hpr', hr⟩
    rw [hi] at hpr'
    cases hpr'
    exact hr
  · exact fun hr => ⟨pr, hi, hr⟩

theorem slotAt_setProc {n : Nat} (hi : k.procv[i]? = some pr)
    (hr : pr'.rights = pr.rights) : (k.setProc i pr').SlotAt j n r ↔ k.SlotAt j n r := by
  rw [slotAt_set hi rfl]
  by_cases hj : j = i
  · subst hj
    rw [if_pos rfl, slotAt_same hi, hr]
  · rw [if_neg hj]

/-! ## Watchers -/

def watchersOf (k : Kernel) (i : Nat) : List (Nat × Bool) :=
  match k.procv[i]? with
  | none => []
  | some pr => pr.watchers

theorem watchersOf_eq (hi : k.procv[i]? = some pr) : k.watchersOf i = pr.watchers := by
  unfold watchersOf
  rw [hi]

theorem watchersOf_congr (hp : k'.procv = k.procv) : k'.watchersOf i = k.watchersOf i := by
  unfold watchersOf
  rw [hp]

theorem watchersOf_set (pr' : KProc) (hi : k.procv[i]? = some pr)
    (hp : k'.procv = k.procv.set i pr')
    (hw : pr'.watchers = pr.watchers) (j : Nat) : k'.watchersOf j = k.watchersOf j := by
  by_cases hj : i = j
  · subst hj
    have h1 : k'.procv[i]? = some pr' := by
      rw [hp]
      exact set_slot hi
    rw [watchersOf_eq h1, watchersOf_eq hi, hw]
  · unfold watchersOf
    rw [hp, List.getElem?_set_ne hj]

/-! ## New rights -/

section Minted

variable {recv : Bool} {n : Nat}

theorem Minted.watchersOf (hm : Minted k i p recv h k') (j : Nat) :
    k'.watchersOf j = k.watchersOf j := by
  obtain ⟨pr, t, r0, hpr, -, -, -, -, -, rfl⟩ := hm.out
  exact watchersOf_set (takeSlot pr t h p recv) hpr (sameHolders_modPort).procv rfl j

theorem Minted.vacant (hm : Minted k i p recv h k') : k.Vacant i h := by
  obtain ⟨pr, t, r0, hpr, he, -, -, hslot, hu, -⟩ := hm.out
  rintro r ⟨pr', hpr', hr, hu'⟩
  rw [hpr] at hpr'
  cases hpr'
  have h1 := he.slot hr
  rw [hslot] at h1
  cases h1
  rw [hu] at hu'
  cases hu'

theorem Minted.slotAt_iff (hm : Minted k i p recv h k') :
    k'.SlotAt j n r ↔ k.SlotAt j n r ∨ j = i ∧ n = h ∧ r = ⟨p, recv, true⟩ := by
  obtain ⟨pr, t, r0, hpr, he, -, -, hslot, hu, rfl⟩ := hm.out
  rw [slotAt_set hpr (sameHolders_modPort).procv]
  by_cases hj : j = i
  · subst hj
    rw [if_pos rfl, slotAt_same hpr]
    show (t.slots.set h ⟨p, recv, true⟩)[n]? = some r ∧ r.used = true ↔ _
    by_cases hn : n = h
    · subst hn
      rw [set_slot hslot]
      constructor
      · rintro ⟨e, -⟩
        cases e
        exact .inr ⟨rfl, rfl, rfl⟩
      · rintro (⟨hr, hu'⟩ | ⟨-, -, rfl⟩)
        · have h1 := he.slot hr
          rw [hslot] at h1
          cases h1
          rw [hu] at hu'
          cases hu'
        · exact ⟨rfl, rfl⟩
    · rw [List.getElem?_set_ne (Ne.symm hn)]
      constructor
      · rintro ⟨hr, hu'⟩
        exact .inl ⟨he.slot_used hr hu', hu'⟩
      · rintro (⟨hr, hu'⟩ | ⟨-, e, -⟩)
        · exact ⟨he.slot hr, hu'⟩
        · exact absurd e hn
  · rw [if_neg hj]
    exact ⟨.inl, fun h => h.elim id fun h => absurd h.1 hj⟩

end Minted

theorem procv_rightDrop (hi : k.procv[i]? = some pr) (hr : pr.rights.slots[h]? = some r) :
    (k.rightDrop i h).procv = k.procv.set i (clearSlot pr h r) := by
  rw [rightDrop_eq hi hr, (sameHolders_portUnref _ _).procv, procv_vacate]

theorem slotAt_rightDrop {r0 : Right} {n : Nat} (hs : k.SlotAt i h r0) :
    (k.rightDrop i h).SlotAt j n r ↔ k.SlotAt j n r ∧ ¬(j = i ∧ n = h) := by
  obtain ⟨pr, hpr, hr, -⟩ := hs
  rw [slotAt_set hpr (procv_rightDrop hpr hr)]
  by_cases hj : j = i
  · subst hj
    rw [if_pos rfl, slotAt_same hpr]
    show (pr.rights.slots.set h { r0 with used := false })[n]? = some r ∧ r.used = true ↔ _
    by_cases hn : n = h
    · subst hn
      rw [set_slot hr]
      constructor
      · rintro ⟨e, hu⟩
        cases e
        cases hu
      · exact fun hc => absurd ⟨rfl, rfl⟩ hc.2
    · rw [List.getElem?_set_ne (Ne.symm hn)]
      exact ⟨fun hc => ⟨hc, fun e => hn e.2⟩, fun hc => hc.1⟩
  · rw [if_neg hj]
    exact ⟨fun hc => ⟨hc, fun e => hj e.1⟩, fun hc => hc.1⟩

theorem calms_rightDrop (k : Kernel) (i h : Nat) : k.sch.Calms (k.rightDrop i h).sch := by
  cases hi : k.procv[i]? with
  | none =>
    unfold rightDrop
    rw [hi]
    exact .refl _
  | some pr =>
    cases hr : pr.rights.slots[h]? with
    | none =>
      unfold rightDrop
      rw [hi]
      simp only [hr]
      exact .refl _
    | some r =>
      rw [rightDrop_eq hi hr]
      have h1 := calms_portUnref (k.vacate i pr h r) r.port
      rw [beside_vacate.sch] at h1
      exact h1

/-! ## What a run leaves alone -/

/-- A run that marks nobody and hatches nobody changes nobody's standing. -/
theorem Acts.gone (hs : Acts S c d) (hm : ∀ i, ¬S.marks i) (hh : ∀ i b, ¬S.hatches i b) (i : Nat) :
    d.1.sch.gone i = c.1.sch.gone i := by
  refine hs.invariant (P := fun d => d.1.sch.gone i = c.1.sch.gone i)
    (fun {l c d} hal ha e => ?_) rfl
  rw [← e]
  rcases ha.resched with hc | ⟨rfl, -, -, -⟩ | ⟨rfl, -, -⟩ | ⟨-, ho, -⟩
  · exact hc.gone i
  · exact absurd hal (hm _)
  · exact absurd hal (hh _ _)
  · exact Sched.gone_congr (ho i)

/-- A run that leaves slot 0 and the name of a proc alone keeps its self port. -/
theorem Acts.selfAt (hs : Acts S c d) (hd : ∀ g, ¬S.drops i 0 g) (hsh : ∀ g, ¬S.sheds i g)
    (hw : ∀ refs, ¬S.wipes i refs) (hn : ¬S.names i) (h0 : c.1.SelfAt i) : d.1.SelfAt i := by
  refine hs.invariant (P := fun d => d.1.SelfAt i) (fun {l c d} hal ha h => ?_) h0
  refine ha.selfAt h (fun g => ⟨?_, ?_⟩) (fun refs => ?_) ?_
  · rintro rfl
    exact hd g hal
  · rintro rfl
    exact hsh g hal
  · rintro rfl
    exact hw refs hal
  · rintro rfl
    exact hn hal

/-- A run that clears no slot of a proc keeps its rights. -/
theorem Acts.slotAt {n : Nat} (hs : Acts S c d) (hd : ∀ g, ¬S.drops i n g) (hsh : ∀ g, ¬S.sheds i g)
    (hw : ∀ refs, ¬S.wipes i refs) (hr : c.1.SlotAt i n r) : d.1.SlotAt i n r := by
  refine hs.invariant (P := fun d => d.1.SlotAt i n r) (fun {l c d} hal ha h => ?_) hr
  refine ha.slotAt h (fun g => ⟨?_, ?_⟩) fun refs => ?_
  · rintro rfl
    exact hd g hal
  · rintro rfl
    exact hsh g hal
  · rintro rfl
    exact hw refs hal

/-! ## Closing -/

theorem rightDrop_acts (hw : Plain w) (hS : S.works) (hs : k.SlotAt i h r)
    (hd : S.drops i h (k.sch.gone i)) : Acts S (k, w) (k.rightDrop i h, w) := by
  obtain ⟨pr, hpr, hr, hu⟩ := hs
  rw [rightDrop_eq hpr hr]
  have h1 : Acts S (k, w) (k.vacate i pr h r, .unref r.port :: w) := .one (.drop hw hpr hr hu) hd
  exact h1.trans (Acts.of_steps hS (portUnref_steps _ r.port w))

theorem lowerHint_acts (hw : Plain w) (h : Int) : Acts S (k, w) (lowerHint k i h, w) := by
  unfold lowerHint
  split
  · exact .refl
  next pr hpr =>
  split
  · exact .one (.proc hw hpr ⟨rfl, rfl, rfl, rfl, rfl⟩) trivial
  · exact .refl

/-- `sys.close` drops the right in the slot `(int)h` names. -/
theorem apiClose_acts {h : LuaInteger} (hw : Plain w) (hS : S.works)
    (hd : h ≠ 0 → S.drops i (cInt h).toNat (k.sch.gone i)) :
    Acts S (k, w) ((apiClose k i h).2, w) := by
  unfold apiClose
  split
  · exact .refl
  next r hr =>
  split
  · exact .refl
  next h0 => exact (rightDrop_acts hw hS (rightGet_some hr).1 (hd h0)).trans (lowerHint_acts hw _)

theorem cInt_signExtend (ud : BitVec 32) : cInt (ud.signExtend 64) = ud.toInt := by
  unfold cInt
  congr 1
  ext n hn
  rw [BitVec.getElem_setWidth, BitVec.getLsbD_signExtend]
  simp [hn, Nat.lt_trans hn (by decide : 32 < 64)]

theorem ownedClose_acts {ud : BitVec 32} (hw : Plain w) (hS : S.works)
    (hd : 0 < ud.toInt → S.drops i ud.toInt.toNat (k.sch.gone i)) :
    Acts S (k, w) (ownedClose k i ud, w) := by
  unfold ownedClose
  split
  · exact .refl
  next hneg =>
  split
  · exact .refl
  next r hr =>
  split
  · exact .refl
  · have hs := (rightGet_some hr).1
    rw [cInt_signExtend] at hs
    exact (rightDrop_acts hw hS hs (hd (by omega))).trans (lowerHint_acts hw _)

/-! ## Making rights and ports -/

/-- Proc `i` has no slot left for a new right: none at or above its hint can take one. -/
def NoSlot (ok : Bool) (k : Kernel) (i : Nat) : Prop :=
  ∀ pr, k.procv[i]? = some pr → ¬∃ h, pr.rhint ≤ h ∧ h < maxRights ∧ pr.rights.Open ok h

variable {ok portOk copyOk : Bool} {now due : Nat} {memOk : Nat → Bool}

theorem scan_rhint_none_iff : pr.rights.scan ok pr.rhint (maxRights - pr.rhint) = none ↔
      ¬∃ h, pr.rhint ≤ h ∧ h < maxRights ∧ pr.rights.Open ok h := by
  by_cases hle : pr.rhint ≤ maxRights
  · exact RightTable.scan_none_iff (by omega)
  · rw [show maxRights - pr.rhint = 0 by omega]
    refine ⟨fun _ ⟨h, h1, h2, _⟩ => ?_, fun _ => rfl⟩
    omega

theorem rightNew_none_iff {recv : Bool} : (rightNew ok k i p recv).1 = none ↔ NoSlot ok k i := by
  unfold rightNew NoSlot
  cases hi : k.procv[i]? with
  | none => exact ⟨fun _ => nofun, fun _ => rfl⟩
  | some pr =>
    constructor
    · intro hn pr' e
      cases e
      rw [← scan_rhint_none_iff]
      cases hs : pr.rights.scan ok pr.rhint (maxRights - pr.rhint) with
      | none => rfl
      | some x =>
        simp only [hs] at hn
        cases hn
    · intro hn
      simp only [scan_rhint_none_iff.mpr (hn pr rfl)]

theorem rightNew_acts {recv : Bool} (hw : Plain w) (hq : k.portOf p = some q) :
    Acts S (k, w) ((rightNew ok k i p recv).2, w) := by
  match hr : rightNew ok k i p recv with
  | (none, k') =>
    rw [rightNew_none hr]
  | (some h, k') => exact .one (.mint hw hq (rightNew_some hr)) trivial

theorem apiSendright_acts {h : LuaInteger} (hw : Plain w) (hc : k.Counted w) :
    Acts S (k, w) ((apiSendright ok k i h).2, w) := by
  unfold apiSendright
  split
  · exact .refl
  next r hr =>
  obtain ⟨q, hq⟩ := hc.slotAt_portOf (rightGet_some hr).1
  have h1 : Acts S (k, w) ((rightNew ok k i r.port false).2, w) := rightNew_acts hw hq
  split
  next e => rwa [e] at h1
  next e => rwa [e] at h1

/-- `port_new` finds a slot and its allocation works. -/
def PortLeft (P : Params) (portOk : Bool) (k : Kernel) : Prop :=
  portOk = true ∧ ∃ j, j < P.maxPorts ∧ k.portAt j = none

theorem portNew_isSome_iff : (∃ p k', portNew P portOk k = (some p, k')) ↔ PortLeft P portOk k := by
  unfold portNew PortLeft
  simp only
  constructor
  · rintro ⟨p, k', h⟩
    split at h
    next hc => exact ⟨hc.2, _, hc.1, join_findIdx k.portv⟩
    · cases h
  · rintro ⟨hok, j, hj, hnone⟩
    -- the first empty slot is not behind any other
    have hle : k.portv.findIdx (·.isNone) ≤ j := findIdx_le_of_join hnone
    rw [if_pos ⟨by omega, hok⟩]
    exact ⟨_, _, rfl⟩

/-- A call that makes a port gets as far as its right, and there is no slot for it. -/
structure Leaky (P : Params) (portOk ok : Bool) (k : Kernel) (i : Nat) : Prop where
  budget : ∃ pr, k.procv[i]? = some pr ∧ portBudgetLeft pr = true
  port : PortLeft P portOk k
  slot : NoSlot ok k i

/-- How far a call gets that makes a port and its right, and what `sys.newport` and `sys.timer` do
then. -/
inductive Making (P : Params) (portOk ok : Bool) (k : Kernel) (i : Nat) : Prop where
  | refused (hl : ¬Leaky P portOk ok k i)
      (hn : (∃ msg, apiNewport P portOk ok k i = (.error msg, k)) ∧
      ∀ due, apiTimer P portOk ok k i due = (none, k))
  | leaks {p : PortRef} {k1 : Kernel} (hb : Born k p k1) (hl : Leaky P portOk ok k i)
      (hn : apiNewport P portOk ok k i = (.error "out of rights", k1) ∧
        ∀ due,
          apiTimer P portOk ok k i due = (none, k1.modPort p fun q => { q with used := false }))
  | makes {p : PortRef} {h : Nat} {k1 k2 : Kernel} (hp : portNew P portOk k = (some p, k1))
      (hr : rightNew ok k1 i p true = (some h, k2)) (hl : ¬Leaky P portOk ok k i)
      (hn : apiNewport P portOk ok k i = (.ok h, k2) ∧ ∀ due, apiTimer P portOk ok k i due =
        match timerArm k2 p due with
        | (false, k) => (none, k.rightDrop i h)
        | (true, k) => (some h, k))

theorem making (P : Params) (portOk ok : Bool) (k : Kernel) (i : Nat) : Making P portOk ok k i := by
  cases hpr : k.procv[i]? with
  | none =>
    refine .refused (fun hl => ?_) (by simp [apiNewport, apiTimer, hpr])
    obtain ⟨_, e, -⟩ := hl.budget
    cases hpr.symm.trans e
  | some pr =>
  cases hbudget : portBudgetLeft pr with
  | false =>
    refine .refused (fun hl => ?_) (by simp [apiNewport, apiTimer, hpr, hbudget])
    obtain ⟨_, e, hb⟩ := hl.budget
    cases hpr.symm.trans e
    cases hbudget.symm.trans hb
  | true =>
  match hp : portNew P portOk k with
  | (none, k1) =>
    obtain rfl := portNew_none hp
    refine .refused (fun hl => ?_) (by simp [apiNewport, apiTimer, hpr, hbudget, hp])
    obtain ⟨_, _, hs⟩ := portNew_isSome_iff.mpr hl.port
    cases hp.symm.trans hs
  | (some p, k1) =>
    have hb := (portNew_some hp).1
    have hslot : (rightNew ok k1 i p true).1 = none ↔ NoSlot ok k i := by
      rw [rightNew_none_iff, NoSlot, hb.procv, NoSlot]
    match hr : rightNew ok k1 i p true with
    | (none, k2) =>
      obtain rfl := rightNew_none hr
      exact .leaks hb ⟨⟨pr, hpr, hbudget⟩, portNew_isSome_iff.mp ⟨p, _, hp⟩, hslot.mp (by rw [hr])⟩
        (by simp [apiNewport, apiTimer, hpr, hbudget, hp, hr])
    | (some h, k2) =>
      refine .makes hp hr (fun hl => ?_)
        ⟨by simp [apiNewport, hpr, hbudget, hp, hr], fun _ => by simp only [apiTimer, hpr, hbudget, hp, hr]; rfl⟩
      have := hslot.mpr hl.slot
      rw [hr] at this
      cases this

theorem apiNewport_acts (hw : Plain w)
    (hl : Leaky P portOk ok k i → S.leaks) : Acts S (k, w) ((apiNewport P portOk ok k i).2, w) := by
  cases making P portOk ok k i with
  | refused _ hn =>
    obtain ⟨⟨msg, hn⟩, -⟩ := hn
    rw [hn]
  | leaks hb hl' hn =>
    rw [hn.1]
    exact .one (.leak hw hb) (hl hl')
  | makes hp hr _ hn =>
    rw [hn.1]
    exact .one (.birth hw (portNew_some hp).1 (rightNew_some hr)) trivial

/-! ## Timers -/

section Frame

variable (ts : List (Option KTimer))

theorem modPort_timers (k : Kernel) (p : PortRef) (f : KPort → KPort) :
    { k with timers := ts }.modPort p f = { k.modPort p f with timers := ts } := by
  unfold modPort
  have e : { k with timers := ts }.portOf p = k.portOf p := rfl
  rw [e]
  cases k.portOf p <;> rfl

theorem exec_timers (k : Kernel) (x : Work) :
    exec { k with timers := ts } x = ({ (exec k x).1 with timers := ts }, (exec k x).2) := by
  cases x with
  | ref r =>
    have e : { k with timers := ts }.portAt r.idx = k.portAt r.idx := rfl
    simp only [exec, e]
    cases k.portAt r.idx with
    | none => rfl
    | some q =>
      cases r.recv with
      | false => rfl
      | true => exact congrArg (fun k => (k, [Work.unref ⟨r.idx, q.gen⟩])) (modPort_timers ts k _ _)
  | unref p =>
    have e : { k with timers := ts }.portOf p = k.portOf p := rfl
    simp only [exec, modPort_timers, e]
    cases k.portOf p with
    | none => rfl
    | some q =>
      simp only
      split
      · rfl
      · split <;> rfl
  | bufs b | wake p => rfl
  | free p =>
    have e : { k with timers := ts }.portOf p = k.portOf p := rfl
    simp only [exec, freePort, e]
    cases k.portOf p <;> rfl

/-- The timer table is no business of the cascade. -/
theorem steps_timers (hs : CSteps c d) :
    CSteps ({ c.1 with timers := ts }, c.2) ({ d.1 with timers := ts }, d.2) := by
  induction hs with
  | refl => exact .refl
  | tail _ hs ih =>
    cases hs with
    | run k x w =>
      have h1 := CSteps.one { k with timers := ts } x w
      rw [exec_timers] at h1
      exact ih.trans h1

/-- Clearing a timer's slot before or after its reference is dropped is the same. -/
theorem portUnref_timers (k : Kernel) (p : PortRef) :
    { k with timers := ts }.portUnref p = { k.portUnref p with timers := ts } :=
  CSteps.final_unique (portUnref_steps { k with timers := ts } p [])
    (steps_timers ts (portUnref_steps k p []))

end Frame

variable {t : KTimer} {data : List UInt8} {refs : List InRef}

theorem Counted.timer_portOf (hc : k.Counted w)
    (hj : k.timers[j]? = some (some t)) : ∃ q, k.portOf t.port = some q := by
  refine hc.portOf fun v => .inl ?_
  have h1 : timerWeight v (some t) ≤ tally (timerWeight v) k.timers := le_tally_getElem? hj
  have h2 : timerWeight v (some t) = v (t.port.ref false) := rfl
  unfold total held
  omega

/-- Dropping a timer's reference and clearing its slot. -/
theorem disarm_acts (hw : Plain w) (hS : S.works) (hd : S.disarms)
    (hj : k.timers[j]? = some (some t)) : Acts S (k, w)
      ({ k.portUnref t.port with timers := (k.portUnref t.port).timers.set j none }, w) := by
  have h1 : Acts S (k, w) ({ k with timers := k.timers.set j none }, .unref t.port :: w) :=
    .one (.disarm hw hj) hd
  have h2 := Acts.of_steps hS (portUnref_steps { k with timers := k.timers.set j none } t.port w)
  rw [portUnref_timers] at h2
  rw [(sameHolders_portUnref k t.port).timers]
  exact h1.trans h2

theorem reapTimer_acts (hw : Plain w) (hS : S.works) (hd : S.disarms) (hc : k.Counted w) (j : Nat) :
    Acts S (k, w) (reapTimer k j, w) := by
  unfold reapTimer
  split
  · exact .refl
  next t ht =>
  have hj := Option.join_eq_some_iff.mp ht
  obtain ⟨q, hq⟩ := hc.timer_portOf hj
  rw [hq]
  simp only
  split
  · exact disarm_acts hw hS hd hj
  · exact .refl

/-- A loop whose turns are runs is a run. -/
theorem foldl_acts {α : Type} {f : Kernel → α → Kernel} (hw : frees w = [])
    (hf : ∀ {k : Kernel}, k.Counted w → ∀ a, Acts S (k, w) (f k a, w)) (l : List α)
    (hc : k.Counted w) : Acts S (k, w) (l.foldl f k, w) := by
  induction l generalizing k with
  | nil => exact .refl
  | cons a l ih => exact (hf hc a).trans (ih ((hf hc a).counted hc hw))

theorem reapDeadTimers_acts (hw : Plain w) (hS : S.works) (hd : S.disarms) (hc : k.Counted w) :
    Acts S (k, w) (reapDeadTimers k, w) :=
  foldl_acts hw.frees (fun hc j => reapTimer_acts hw hS hd hc j) _ hc

theorem portPush_acts (hw : Plain w)
    (hq : k.portOf p = some q) : Acts S (k, w) (portPush copyOk ok k p data [], w) := by
  unfold portPush
  split
  · split
    next k' e => exact portPushOwned_ok hw (.inl rfl) e
    next rc k' hrc e => exact portPushOwned_refused hw hq e hrc
  · exact .refl

theorem sameHolders_portPushOwned
    {bufs : List MsgBuf} : SameHolders k (portPushOwned ok k p data refs bufs).2 := by
  unfold portPushOwned
  split
  · exact sameHolders_touch
  split
  · exact sameHolders_modPort
  simp only
  split
  · exact sameHolders_modPort
  split
  · exact (sameHolders_modPort).trans sameHolders_wake
  · exact sameHolders_touch

theorem sameHolders_portPush : SameHolders k (portPush copyOk ok k p data refs) := by
  have h1 : SameHolders k (portPushOwned ok k p data refs []).2 := sameHolders_portPushOwned
  unfold portPush
  split
  · split
    next e =>
      rw [e] at h1
      exact h1
    next e =>
      rw [e] at h1
      exact h1.trans (sameHolders_releaseInflight _ _)
  · exact sameHolders_releaseInflight _ _

variable (hw : Plain w) (hS : S.works) (hd : S.disarms) (hc : k.Counted w)

include hw hS hd hc

theorem expireTimer_acts (j : Nat) : Acts S (k, w) (expireTimer now memOk k j, w) := by
  unfold expireTimer
  split
  · exact .refl
  next t ht =>
  have hj := Option.join_eq_some_iff.mp ht
  obtain ⟨q, hq⟩ := hc.timer_portOf hj
  split
  · refine (portPush_acts hw hq).trans (disarm_acts hw hS hd ?_)
    rw [(sameHolders_portPush).timers]
    exact hj
  · exact .refl

theorem expireTimers_acts : Acts S (k, w) (expireTimers now memOk k, w) := by
  have h1 := reapDeadTimers_acts hw hS hd hc
  unfold expireTimers
  generalize reapDeadTimers k = k1 at h1 ⊢
  have hc1 := h1.counted hc hw.frees
  exact h1.trans (foldl_acts hw.frees (fun hc j => expireTimer_acts hw hS hd hc j) _ hc1)

theorem timerArm_acts (hp : ∃ i h r, k.SlotAt i h r ∧ r.port = p) :
    Acts S (k, w) ((timerArm k p due).2, w) := by
  obtain ⟨i, h, r, hs, rfl⟩ := hp
  -- the right keeps the port alive while the table is reaped
  have arm : ∀ {k : Kernel} {j : Nat}, k.Counted w → k.SlotAt i h r → freeTimer k = some j →
      Acts S (k, w) (setTimer (k.modPort r.port (addRef false)) j ⟨r.port, due⟩, w) := by
    intro k j hc hs hj
    obtain ⟨q, hq⟩ := hc.slotAt_portOf hs
    exact .one (.arm hw hq hj) trivial
  unfold timerArm
  simp only
  split
  next j hj => exact arm hc hs hj
  have h1 := reapDeadTimers_acts hw hS hd hc
  have h2 := reapDeadTimers_acts (S := { disarms := True }) hw trivial trivial hc
  generalize reapDeadTimers k = k1 at h1 h2 ⊢
  have hc1 := h1.counted hc hw.frees
  have hs1 : k1.SlotAt i h r := h2.slotAt nofun nofun nofun hs
  split
  next j hj => exact h1.trans (arm hc1 hs1 hj)
  · exact h1

theorem apiTimer_acts (hl : Leaky P portOk ok k i → S.leaks) (hdrop : S.Undoes k i) :
    Acts S (k, w) ((apiTimer P portOk ok k i due).2, w) := by
  cases making P portOk ok k i with
  | refused _ hn => rw [hn.2]
  | leaks hb hl' hn =>
    rw [hn.2]
    exact (Acts.one (.leak hw hb) (hl hl')).trans
      (Acts.one (.poke hw hb.portOf rfl rfl rfl rfl rfl) trivial)
  | @makes port h k1 k2 hp hr _ hn =>
    rw [hn.2]
    have hb := (portNew_some hp).1
    have hm := rightNew_some hr
    have h1 : Acts S (k, w) (k2, w) := .one (.birth hw hb hm) trivial
    have hs : k2.SlotAt i h ⟨port, true, true⟩ := hm.slotAt_iff.mpr (.inr ⟨rfl, rfl, rfl⟩)
    have hc2 := h1.counted hc hw.frees
    have h2 : Acts S (k2, w) ((timerArm k2 port due).2, w) :=
      timerArm_acts hw hS hd hc2 ⟨i, h, _, hs, rfl⟩
    split
    next k3 e =>
      -- the handle was vacant before the call, and nobody's standing has changed
      have h3 : Acts { disarms := True } (k2, w) ((timerArm k2 port due).2, w) :=
        timerArm_acts hw trivial trivial hc2 ⟨i, h, _, hs, rfl⟩
      rw [e] at h2 h3
      have hgone : k3.sch.gone i = k.sch.gone i := by
        rw [h3.gone nofun nofun, hm.beside.sch, hb.beside.sch]
      have hvac : k.Vacant i h := fun r hr => hm.vacant r (hr.congr hb.procv)
      refine (h1.trans h2).trans (rightDrop_acts hw hS (h3.slotAt nofun nofun nofun hs) ?_)
      rw [hgone]
      exact hdrop h hvac
    next e =>
      rw [e] at h2
      exact h1.trans h2

end Kernel

end Nlos
