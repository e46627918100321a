import Nlos.Kernel.Invariants

/-!
# When a whole call touches live ports only

`Nlos.Kernel.Anchor` says what the cascade needs: each port on a cycle of queued references is
referred to from outside the queues. A call gives some of its holders up before the cascade runs,
so what a whole call needs is a holder it does *not* give up. Besides the cascade, a call touches
ports through wait records and through slot 0 of a proc it notifies, and each of these needs a
right that is still there.
-/

namespace Nlos

open Tally List

namespace Kernel

variable {k k' : Kernel} {w w' : List Work} {i j h : Nat} {p : PortRef} {pr : KProc} {l : Label}
variable {S : Scope} {c d : Config}

/-! ## Holders -/

/-- A place outside the queues that may hold a reference. -/
inductive Anchor where
  | slot (i h : Nat)
  | timer (j : Nat)
  | kernel (p : PortRef)
  | lost
deriving DecidableEq

/-- The place `a` holds a reference to the port in slot `x` of `portv`. -/
def Holds (k : Kernel) : Anchor → Nat → Prop
  | .slot i h, x => ∃ r, k.SlotAt i h r ∧ r.port.idx = x
  | .timer j, x => ∃ t, k.timers[j]? = some (some t) ∧ t.port.idx = x
  | .kernel p, x => p ∈ k.krefs ∧ p.idx = x
  | .lost, x => ∃ r ∈ k.lost, r.idx = x

def Scope.gives (S : Scope) : Anchor → Prop
  | .slot i h => (∃ g, S.drops i h g) ∨ (∃ g, S.sheds i g) ∨ ∃ refs, S.wipes i refs
  | .timer _ => S.disarms
  | .kernel p => S.unholds p
  | .lost => False

variable {a : Anchor} {x y : Nat} {r : Right} {recv : Bool} {q : KPort} {k1 : Kernel}

theorem Holds.held_pos (ha : k.Holds a x) : 0 < held (toPort x) k := by
  cases a with
  | slot i h =>
    obtain ⟨r, ⟨pr, hpr, hr, hu⟩, rfl⟩ := ha
    have := slot_le_held (v := toPort r.port.idx) hpr hr hu
    rw [toPort_ptr] at this
    exact this
  | timer j =>
    obtain ⟨t, ht, rfl⟩ := ha
    have h1 : timerWeight (toPort t.port.idx) (some t) ≤
        tally (timerWeight (toPort t.port.idx)) k.timers :=
      le_tally_getElem? ht
    have h2 : timerWeight (toPort t.port.idx) (some t) = 1 := toPort_ptr t.port false
    unfold held
    omega
  | kernel p =>
    obtain ⟨hp, rfl⟩ := ha
    have h1 := le_tally (f := fun r => toPort p.idx (PortRef.ref r false)) hp
    have h2 : toPort p.idx (p.ref false) = 1 := toPort_ptr p false
    unfold held
    omega
  | lost =>
    obtain ⟨r, hr, rfl⟩ := ha
    have h1 := le_tally (f := fun e => toPort r.idx (InRef.ref e)) hr
    have h2 := toPort_entry r
    unfold held refsWeight
    omega

theorem krefs_wipeSlot : (k.wipeSlot i).krefs = k.krefs ∧ (k.wipeSlot i).timers = k.timers := by
  unfold wipeSlot
  split <;> exact ⟨rfl, rfl⟩

theorem timers_setTimer {t t' : KTimer} {n : Nat} (hn : freeTimer k = some n)
    (hj : k.timers[j]? = some (some t)) : (setTimer k n t').timers[j]? = some (some t) := by
  obtain rfl := freeTimer_some hn
  refine (getElem?_grow findIdx_le_length _ j).trans ((if_neg ?_).trans hj)
  rintro rfl
  have hfree := join_findIdx k.timers
  rw [hj] at hfree
  cases hfree

/-- The kernel's own references and the timers after an action. -/
theorem Act.others (ha : Act l (k, w) (k', w')) : (∀ p ∈ k.krefs, p ∈ k'.krefs ∨ l = .unhold p) ∧
      ∀ j t, k.timers[j]? = some (some t) → k'.timers[j]? = some (some t) ∨ l = .disarm j := by
  have same : k'.krefs = k.krefs ∧ k'.timers = k.timers →
      (∀ p ∈ k.krefs, p ∈ k'.krefs ∨ l = .unhold p) ∧
      ∀ j t, k.timers[j]? = some (some t) → k'.timers[j]? = some (some t) ∨ l = .disarm j :=
    fun e => ⟨fun p hp => .inl (e.1 ▸ hp), fun j t ht => .inl (e.2 ▸ ht)⟩
  have beside : ∀ {k k' : Kernel}, Beside k k' → k'.krefs = k.krefs ∧ k'.timers = k.timers :=
    fun h => ⟨h.krefs, h.timers⟩
  have hmod : ∀ {k : Kernel} {p : PortRef} {f : KPort → KPort},
      (k.modPort p f).krefs = k.krefs ∧ (k.modPort p f).timers = k.timers := beside beside_modPort
  cases ha with
  | work hx => exact same ⟨(sameHolders_exec hx).krefs, (sameHolders_exec hx).timers⟩
  | skip _ hk => exact same ⟨hk.krefs, hk.timers⟩
  | poke | take | enqueue | dequeue => exact same hmod
  | grow | wipe => exact same krefs_wipeSlot
  | mint _ _ hm => exact same (beside hm.beside)
  | birth _ hb hm =>
    exact same ⟨hm.beside.krefs.trans hb.beside.krefs, hm.beside.timers.trans hb.beside.timers⟩
  | leak _ hb => exact same (beside hb.beside)
  | kbirth _ hb =>
    refine ⟨fun p hp => .inl (mem_cons_of_mem _ (hb.beside.krefs ▸ hp)), fun j t ht => .inl ?_⟩
    rw [hmod.2, hb.beside.timers]
    exact ht
  | drop | shed => exact same (beside beside_vacate)
  | arm _ _ hj =>
    refine ⟨fun p hp => .inl ?_, fun j t ht => .inl ?_⟩
    · show p ∈ (Kernel.modPort _ _ _).krefs
      rw [hmod.1]
      exact hp
    · refine timers_setTimer ((freeTimer_congr hmod.2).trans hj) ?_
      rw [hmod.2]
      exact ht
  | @disarm _ n _ _ _ hj =>
    refine ⟨fun p hp => .inl hp, fun j t ht => ?_⟩
    by_cases hn : n = j
    · exact .inr (hn ▸ rfl)
    · exact .inl ((List.getElem?_set_ne hn).trans ht)
  | hold =>
    refine ⟨fun p hp => .inl (mem_cons_of_mem _ hp), fun j t ht => .inl ?_⟩
    rw [hmod.2]
    exact ht
  | @unhold _ r _ _ _ =>
    refine ⟨fun p hp => ?_, fun j t ht => .inl ht⟩
    by_cases hr : p = r
    · exact .inr (hr ▸ rfl)
    · exact .inl ((mem_erase_of_ne hr).mpr hp)
  | _ => exact same ⟨rfl, rfl⟩

theorem Act.holds (ha : Act l (k, w) (k', w')) (hal : S.allows l)
    (hg : ¬S.gives a) (hh : k.Holds a x) : k'.Holds a x := by
  cases a with
  | slot i h =>
    obtain ⟨r, hr, hx⟩ := hh
    refine ⟨r, ha.slotAt hr (fun g => ⟨?_, ?_⟩) (fun refs => ?_), hx⟩
    · rintro rfl
      exact hg (.inl ⟨g, hal⟩)
    · rintro rfl
      exact hg (.inr (.inl ⟨g, hal⟩))
    · rintro rfl
      exact hg (.inr (.inr ⟨refs, hal⟩))
  | timer j =>
    obtain ⟨t, ht, hx⟩ := hh
    rcases ha.others.2 j t ht with h' | rfl
    · exact ⟨t, h', hx⟩
    · exact absurd hal hg
  | kernel p =>
    obtain ⟨hp, hx⟩ := hh
    rcases ha.others.1 p hp with h' | rfl
    · exact ⟨h', hx⟩
    · exact absurd hal hg
  | lost =>
    obtain ⟨r, hr, hx⟩ := hh
    refine ⟨r, ?_, hx⟩
    rcases ha.lost with e | ⟨refs, e, -⟩
    · exact e ▸ hr
    · exact e ▸ mem_append_right _ hr

/-! ## Queued references -/

theorem Carries.congr (hp : k'.portv = k.portv) (hc : k'.Carries x y) : k.Carries x y := by
  obtain ⟨q, hq, hm⟩ := hc
  refine ⟨q, ?_, hm⟩
  unfold portAt at hq ⊢
  rw [← hp]
  exact hq

/-- A write whose queue carries nothing the old one did not adds no edge. -/
theorem Carries.of_writes {q' : KPort} (hq : k.portOf p = some q)
    (hw : Writes k p (some q') k') (hs : ∀ m ∈ q'.queue, m ∈ q.queue ∨ m.refs = [])
    (hc : k'.Carries x y) : k.Carries x y := by
  refine carries_writes hq hw (fun q'' e => ?_) hc
  cases e
  exact hs

theorem carries_addRef (hq : k.portOf p = some q)
    (hc : (k.modPort p (addRef recv)).Carries x y) : k.Carries x y :=
  Carries.of_writes hq (writes_modPort hq) (fun _ hm => .inl hm) hc

theorem Born.carries (hb : Born k p k') (hc : k'.Carries x y) : k.Carries x y := by
  obtain ⟨q, hq, m, hm, hr⟩ := hc
  by_cases hx : p.idx = x
  · subst hx
    rw [hb.here] at hq
    cases hq
    cases hm
  · rw [hb.other x hx] at hq
    exact ⟨q, hq, m, hm, hr⟩

theorem Minted.carries (hm : Minted k i p recv h k')
    (hq : k.portOf p = some q) (hc : k'.Carries x y) : k.Carries x y := by
  obtain ⟨pr, t, r, hpr, he, -, -, hslot, hu, rfl⟩ := hm.out
  have hq' : (k.setProc i (takeSlot pr t h p recv)).portOf p = some q := hq
  exact Carries.of_writes (k := k.setProc i (takeSlot pr t h p recv)) hq' (writes_modPort hq')
    (fun m hm => .inl hm) hc

theorem carries_vacate (hq : k.portOf r.port = some q)
    (hc : (k.vacate i pr h r).Carries x y) : k.Carries x y := by
  unfold vacate at hc
  split at hc
  · have hq' : (k.setProc i (clearSlot pr h r)).portOf r.port = some q := hq
    exact Carries.of_writes (k := k.setProc i (clearSlot pr h r)) hq' (writes_modPort hq')
      (fun m hm => .inl hm) hc
  · exact hc

/-- No action but a send of references adds an edge. -/
theorem Act.carries (ha : Act l (k, w) (k', w'))
    (hl : ∀ m, l = .enqueue m → m.refs = []) (hb : k.Balanced w) (hc : k'.Carries x y) :
    k.Carries x y := by
  cases ha with
  | work hx => exact carries_exec hx hc
  | skip _ hk => exact hc.congr hk.portv
  | poke _ hq _ _ _ he =>
    exact hc.of_writes hq (writes_modPort hq) fun m hm => .inl (he ▸ hm)
  | grow _ hi =>
    rw [wipeSlot_none hi] at hc
    exact hc
  | wipe _ hi =>
    rw [wipeSlot_some hi] at hc
    exact hc
  | mint _ hq hm => exact hm.carries hq hc
  | birth _ hb hm => exact hb.carries (hm.carries hb.portOf hc)
  | leak _ hb => exact hb.carries hc
  | kbirth _ hb =>
    exact hb.carries (carries_addRef hb.portOf hc)
  | drop _ hi hr hu | shed _ hi hr hu =>
    obtain ⟨q, hq⟩ := hb.counted.slot_live hi hr hu
    exact carries_vacate hq hc
  | take _ hq => exact hc.of_writes hq (writes_modPort hq) fun m hm => .inl hm
  | @enqueue _ p q m _ _ hq =>
    refine hc.of_writes hq (writes_modPort hq) fun m' hm => ?_
    rcases mem_append.mp hm with hm | hm
    · exact .inl hm
    · rw [mem_singleton.mp hm]
      exact .inr (hl m rfl)
  | @dequeue _ p q m ms _ _ hq hm =>
    refine hc.of_writes hq (writes_modPort hq) fun m' hm' => .inl ?_
    rw [dequeue_cons hm] at hm'
    rw [hm]
    exact mem_cons_of_mem m hm'
  | @arm _ j p q due _ _ hq _ | @hold _ p q _ _ hq =>
    exact carries_addRef hq hc
  | _ => exact hc

/-! ## Touches outside the cascade -/

/-- A proc with a linked wait record has a right to the port it is linked on, and the scope does
not drop it. -/
def WaitsHeld (k : Kernel) (S : Scope) : Prop :=
  ∀ i, ∀ v ∈ k.sch.waitersOf i, v.onport = true →
    ∃ h r, k.SlotAt i h r ∧ r.port = v.port ∧ ∀ g, ¬S.drops i h g

theorem Counted.slotAt_live (hc : k.Counted w) (hs : k.SlotAt i h r) : k.live r.port = true := by
  obtain ⟨pr, hpr, hr, hu⟩ := hs
  obtain ⟨q, hq⟩ := hc.slot_live hpr hr hu
  exact live_of_portOf hq

theorem waitersOf_wipeSlot (hi : k.procv[i]? = some pr) : (k.wipeSlot i).sch.waitersOf i = [] := by
  rw [wipeSlot_some hi]
  cases hp : k.sch.procs[i]? with
  | none =>
    unfold Sched.waitersOf Sched.setProc
    simp only [set_eq_of_length_le (List.getElem?_eq_none_iff.mp hp), hp]
  | some p => exact Sched.waitersOf_eq (Sched.procs_setProc_same hp)

theorem Act.waits (ha : Act l (k, w) (k', w')) (hal : S.allows l)
    (hp : ∀ i p, S.parks i p → ∀ h g, ¬S.drops i h g) (hw : k.WaitsHeld S) : k'.WaitsHeld S := by
  intro i v hv ho
  -- the slot that held the port before holds it still
  have keep : ∀ v' ∈ k.sch.waitersOf i, v'.onport = true → v'.port = v.port →
      ∃ h r, k'.SlotAt i h r ∧ r.port = v.port ∧ ∀ g, ¬S.drops i h g := by
    intro v' hv' ho' hvp
    obtain ⟨h, r, hs, hr, hd⟩ := hw i v' hv' ho'
    refine ⟨h, r, ha.slotAt hs (fun g => ⟨?_, ?_⟩) (fun refs => ?_), hr.trans hvp, hd⟩
    · rintro rfl
      exact hd g hal
    · rintro rfl
      cases ha with
      | shed _ _ _ _ hn =>
        rw [hn v' hv'] at ho'
        cases ho'
    · rintro rfl
      cases ha with
      | wipe _ hi _ =>
        rw [waitersOf_wipeSlot hi] at hv
        cases hv
  rcases ha.resched with hc | ⟨-, -, -, hs⟩ | ⟨-, -, hs⟩ | ⟨rfl, -, hs⟩
  · obtain ⟨v', hv', ho', hvp⟩ := hc.waits i v hv ho
    exact keep v' hv' ho' hvp
  · exact keep v (hs i ▸ hv) ho rfl
  · exact keep v (hs i ▸ hv) ho rfl
  · rcases hs i v hv with hv' | ⟨rfl, hvp⟩
    · exact keep v hv' ho rfl
    · cases ha with
      | @park _ _ h r _ _ _ _ _ hr _ =>
        have hal' : S.parks i r.port := hal
        exact ⟨h, r, hr, hvp.symm, fun g => hp i r.port hal' h g⟩

/-- The proc still holds the right in its slot 0. -/
def HasSlot0 (k : Kernel) (j : Nat) : Prop := ∃ r, k.SlotAt j 0 r

theorem slot0_of_slotAt (hs : k.SlotAt j 0 r) (hj : k.procv[j]? = some pr) :
    slot0 pr.rights = r := by
  obtain ⟨pr', hpr', hr, -⟩ := hs
  rw [hj] at hpr'
  cases hpr'
  unfold slot0
  rw [headD_eq_head?_getD, List.head?_eq_getElem?, hr]
  rfl

/-- An action outside the cascade touches a live port, if the wait records and the slots it looks
at are held. -/
theorem Act.noStale (ha : Act l (k, w) (k', w')) (hl : l ≠ .work) (hc : k.Counted w)
    (hw : k.WaitsHeld S) (hn : ∀ j, l = .notice j → k.HasSlot0 j) (hs : k.NoStale) :
    k'.NoStale := by
  have hmod : ∀ {k : Kernel} {p : PortRef} {q : KPort} {f : KPort → KPort}, k.portOf p = some q →
      k.NoStale → (k.modPort p f).NoStale := fun hq h => noStale_modPort h (live_of_portOf hq)
  have hmint : ∀ {k k' : Kernel} {i h : Nat} {p : PortRef} {q : KPort} {recv : Bool},
      k.portOf p = some q → Minted k i p recv h k' → k.NoStale → k'.NoStale := fun hq hm h => by
    obtain ⟨pr, t, r, hpr, he, -, -, hslot, hu, rfl⟩ := hm.out
    exact hmod hq h
  have hborn : ∀ {k k' : Kernel} {p : PortRef}, Born k p k' → k.NoStale → k'.NoStale :=
    fun hb h => by
      intro t ht
      rw [hb.rest] at ht
      exact h t ht
  have hvac : ∀ {i h : Nat} {pr : KProc} {r : Right}, k.procv[i]? = some pr →
      pr.rights.slots[h]? = some r → r.used = true → (k.vacate i pr h r).NoStale :=
    fun hi hr hu => by
      obtain ⟨q, hq⟩ := hc.slot_live hi hr hu
      unfold vacate
      split
      · exact hmod hq hs
      · exact hs
  cases ha with
  | work => exact absurd rfl hl
  | skip _ hk =>
    intro t ht
    rw [hk.log] at ht
    exact hs t ht
  | touch _ hlive => exact noStale_touch hs hlive
  | poke _ hq | take _ hq | dequeue _ hq | arm _ hq | hold _ hq => exact hmod hq hs
  | grow _ hi =>
    rw [wipeSlot_none hi]
    exact hs
  | wipe _ hi =>
    rw [wipeSlot_some hi]
    exact hs
  | mint _ hq hm => exact hmint hq hm hs
  | birth _ hb hm => exact hmint hb.portOf hm (hborn hb hs)
  | leak _ hb => exact hborn hb hs
  | kbirth _ hb => exact hmod hb.portOf (hborn hb hs)
  | drop _ hi hr hu | shed _ hi hr hu => exact hvac hi hr hu
  | enqueue _ hq =>
    exact noStale_wake (hmod hq hs) (live_of_portOf (portOf_modPort_same hq rfl))
  | unpark _ hv ho =>
    obtain ⟨h, r, hr, hp, -⟩ := hw _ _ hv ho
    exact noStale_touch hs (hp ▸ hc.slotAt_live hr)
  | notice _ hj =>
    obtain ⟨r, hr⟩ := hn _ rfl
    refine noStale_touch hs ?_
    rw [slot0_of_slotAt hr hj]
    exact hc.slotAt_live hr
  | _ => exact hs

/-! ## Whole calls -/

def Scope.first (S : Scope) : Scope := { S with sends := False }

def Scope.last (S : Scope) : Scope := { S with works := False }

/-- A call is a run that may end with sends; no cascade runs after them. `w` are the references
other calls in progress have in hand. -/
def Calls (S : Scope) (w : List Work) (k k' : Kernel) : Prop :=
  ∃ mid, Acts S.first (k, w) mid ∧ Acts S.last mid (k', w)

theorem Acts.calls (hs : Acts S.first (k, w) (k', w)) : Calls S w k k' := ⟨_, hs, .refl⟩

theorem Calls.before (hs : Acts S.first (k, w) (k1, w)) (hc : Calls S w k1 k') :
    Calls S w k k' := by
  obtain ⟨mid, h1, h2⟩ := hc
  exact ⟨mid, hs.trans h1, h2⟩

theorem Calls.after (hc : Calls S w k k1) (hs : Acts S.last (k1, w) (k', w)) : Calls S w k k' := by
  obtain ⟨mid, h1, h2⟩ := hc
  exact ⟨mid, h1, h2.trans hs⟩

theorem Scope.allows_of_first (ha : S.first.allows l) : S.allows l := by
  cases l with
  | enqueue m => exact ha.elim .inl fun h => h.elim
  | _ => exact ha

theorem Scope.allows_of_last (ha : S.last.allows l) : S.allows l := by
  cases l with
  | work => exact ha.elim
  | _ => exact ha

theorem Calls.acts (hc : Calls S w k k') : Acts S (k, w) (k', w) := by
  obtain ⟨mid, h1, h2⟩ := hc
  exact (h1.mono fun _ => Scope.allows_of_first).trans (h2.mono fun _ => Scope.allows_of_last)

/-- What a call needs of the state it is made in: each port on a cycle of queued references has a
holder the call does not give up, each port waited on keeps a right of the waiting proc, and each
proc that is notified holds its slot 0. -/
structure Clear (S : Scope) (k : Kernel) : Prop where
  anchors : ∀ x, k.OnCycle x → ∃ a, k.Holds a x ∧ ¬S.gives a
  waits : k.WaitsHeld S
  parks : ∀ i p, S.parks i p → ∀ h g, ¬S.drops i h g
  notices : ∀ j, S.notices j → k.HasSlot0 j ∧ ¬S.gives (.slot j 0)

/-- What holds while the call runs: nothing stale was touched, and what was held and is not given
up is held. -/
structure Held (S : Scope) (k0 : Kernel) (c : Config) : Prop where
  balanced : c.1.Balanced c.2
  noStale : c.1.NoStale
  waits : c.1.WaitsHeld S
  kept : ∀ a x, k0.Holds a x → ¬S.gives a → c.1.Holds a x

structure Guarded (S : Scope) (k0 : Kernel) (c : Config) : Prop extends Held S k0 c where
  sound : c.1.Sound c.2
  edges : ∀ x y, c.1.Carries x y → k0.Carries x y

variable {k0 : Kernel}

theorem Held.slot0 (hh : Held S k0 c) (hn : S.notices j → k0.HasSlot0 j ∧ ¬S.gives (.slot j 0))
    (hj : S.notices j) : c.1.HasSlot0 j := by
  obtain ⟨⟨r, hr⟩, hg⟩ := hn hj
  obtain ⟨r', hr', -⟩ := hh.kept (.slot j 0) r.port.idx ⟨r, hr, rfl⟩ hg
  exact ⟨r', hr'⟩

theorem Held.act (hk : Clear S k0) (hal : S.allows l) (ha : Act l c d) (hl : l ≠ .work)
    (hh : Held S k0 c) : Held S k0 d where
  balanced := ha.balanced hh.balanced
  noStale := ha.noStale hl hh.balanced.counted hh.waits
    (fun j e => hh.slot0 (hk.notices j) (by subst e; exact hal)) hh.noStale
  waits := ha.waits hal hk.parks hh.waits
  kept a x hx hg := ha.holds hal hg (hh.kept a x hx hg)

theorem Guarded.anchored (hk : Clear S k0) (hkept : ∀ a x, k0.Holds a x → ¬S.gives a → k.Holds a x)
    (hedges : ∀ x y, k.Carries x y → k0.Carries x y) : k.Anchored := by
  intro x hx
  obtain ⟨a, ha, hg⟩ := hk.anchors x (Relation.TransGen.mono (fun _ _ h => hedges _ _ h) x x hx)
  exact (hkept a x ha hg).held_pos

theorem Guarded.act (hk : Clear S k0) (hal : S.first.allows l) (ha : Act l c d)
    (hg : Guarded S k0 c) : Guarded S k0 d := by
  have hal' := Scope.allows_of_first hal
  have hsends : ∀ m, l = .enqueue m → m.refs = [] := by
    rintro m rfl
    exact hal.elim id fun h => h.elim
  have hedges : ∀ x y, d.1.Carries x y → k0.Carries x y := fun x y hc =>
    hg.edges x y (ha.carries hsends hg.balanced hc)
  by_cases hl : l = .work
  · subst hl
    obtain ⟨k', w'⟩ := d
    have hsound : k'.Sound w' := by
      cases ha with
      | work hx => exact hg.sound.exec hx
    exact ⟨⟨hsound.balanced, hsound.noStale, ha.waits hal' hk.parks hg.waits,
      fun a x hx hn => ha.holds hal' hn (hg.kept a x hx hn)⟩, hsound, hedges⟩
  · have hh := Held.act hk hal' ha hl hg.toHeld
    refine ⟨hh, ?_, hedges⟩
    exact Safe.sound ⟨hh.balanced.counted, Guarded.anchored hk hh.kept hedges, hh.noStale⟩
      (ha.plain hl).2

theorem Clear.guarded (hk : Clear S k) (hw : Plain w) (hc : k.Counted w) (hs : k.NoStale) :
    Guarded S k (k, w) := by
  have hanch : k.Anchored := Guarded.anchored hk (fun _ _ h _ => h) fun _ _ h => h
  exact ⟨⟨hc.balanced hw.frees, hs, hk.waits, fun _ _ h _ => h⟩, Safe.sound ⟨hc, hanch, hs⟩ hw,
    fun _ _ h => h⟩

/-- A call made in a clear state touches live ports only. -/
theorem Calls.held (hcall : Calls S w k k') (hk : Clear S k) (hw : Plain w) (hc : k.Counted w)
    (hs : k.NoStale) : Held S k (k', w) := by
  obtain ⟨mid, h1, h2⟩ := hcall
  have hg : Guarded S k mid :=
    h1.invariant (fun hal ha hg => hg.act hk hal ha) (hk.guarded hw hc hs)
  refine h2.invariant (fun {l c d} hal ha hh => ?_) hg.toHeld
  refine hh.act hk (Scope.allows_of_last hal) ha ?_
  rintro rfl
  exact hal

theorem Calls.noStale (hcall : Calls S w k k') (hk : Clear S k) (hw : Plain w) (hc : k.Counted w)
    (hs : k.NoStale) : k'.NoStale :=
  (hcall.held hk hw hc hs).noStale

end Kernel

end Nlos
