import Nlos.Kernel.Leaks
import Nlos.Lib.Runs

/-!
# The free-slot hint

`right_new` looks for a free slot from `rhint` up, and `sole_holder` counts the rights of a proc up
to `rhigh`. That is enough as long as every slot below the hint is in use and every slot in use is
below the mark. `right_drop` leaves the hint alone, so whoever drops a right has to lower it.
`sys.close`, `owned_close` and `minted_undo` do. `sys.timer` and `grant_named` do not when they give
back a right they have just made: the slot is free then, and the hint is past it.
-/

namespace Nlos

open Kernel Tally

/-- `grant_named`, but for the name and the list it goes on. `grantOk` is the allocation of the
entry. -/
def grantNamed (grantOk xrightsOk : Bool) (k : Kernel) (i : Nat) (port : Option PortRef)
    (recv : Bool) : Kernel :=
  match port with
  | none => k
  | some port =>
    match rightNew xrightsOk k i port recv with
    | (none, k) => k
    | (some h, k) => if grantOk then k else k.rightDrop i h

/-! ## One table -/

def RightTable.Used (t : RightTable) (h : Nat) : Prop := ∃ r, t.slots[h]? = some r ∧ r.used = true

structure RightTable.Hinted (t : RightTable) (rhint rhigh : Nat) : Prop where
  low : ∀ h < rhint, t.Used h
  high : ∀ h, t.Used h → h < rhigh

variable {k k' : Kernel} {pr : KProc} {t t' : RightTable} {ok recv : Bool}
    {g h i n : Nat} {p : PortRef}
  {r : Right}

namespace RightTable

/-- The scan of `right_new` passes over slots in use only. -/
theorem scan_used (hs : t.scan ok i n = some (h, t')) (hi : i ≤ g) (hg : g < h) : t.Used g := by
  induction n generalizing t i with
  | zero => cases hs
  | succ n ih =>
    unfold scan at hs
    split at hs
    · cases hs
    next t1 hgrow =>
    split at hs
    · cases hs
    next r hr =>
    split at hs
    next hu =>
      obtain ⟨r', hr', hu'⟩ : t1.Used g := by
        by_cases e : i = g
        · exact ⟨r, e ▸ hr, hu⟩
        · exact ih hs (by omega)
      exact ⟨r', (grow_extends hgrow).slot_used hr' hu', hu'⟩
    · cases hs
      omega

theorem used_set (hr : t.slots[h]? = some r) (r' : Right) :
    (t.set h r').Used g ↔ if g = h then r'.used = true else t.Used g := by
  unfold Used
  by_cases e : g = h
  · subst e
    rw [if_pos rfl, show (t.set g r').slots[g]? = some r' from set_slot hr]
    exact ⟨fun ⟨_, e, hu⟩ => Option.some.inj e ▸ hu, fun hu => ⟨r', rfl, hu⟩⟩
  · rw [if_neg e, show (t.set h r').slots[g]? = t.slots[g]? from List.getElem?_set_ne (Ne.symm e)]

namespace Hinted

variable {a b : Nat}

theorem take (ht : t.Hinted a b) (hs : t.scan ok a n = some (h, t')) {r' : Right}
    (hu' : r'.used = true) : (t'.set h r').Hinted (h + 1) (max b (h + 1)) := by
  obtain ⟨he, -, -, r, hr, -⟩ := scan_spec hs
  refine ⟨fun g hg => ?_, fun g hg => ?_⟩
  · rw [used_set hr]
    split
    · exact hu'
    · obtain ⟨x, hx, hux⟩ : t.Used g :=
        (Nat.lt_or_ge g a).elim (ht.low g) fun hge => scan_used hs hge (by omega)
      exact ⟨x, he.slot hx, hux⟩
  · rw [used_set hr] at hg
    split at hg
    · omega
    · obtain ⟨x, hx, hux⟩ := hg
      have := ht.high g ⟨x, he.slot_used hx hux, hux⟩
      omega

theorem lower (ht : t.Hinted a b) (hn : n ≤ a) : t.Hinted n b :=
  ⟨fun h hh => ht.low h (Nat.lt_of_lt_of_le hh hn), ht.high⟩

theorem clear (ht : t.Hinted a b) (hr : t.slots[h]? = some r) (hn : n ≤ a) (hh : n ≤ h) {r' : Right}
    (hu' : r'.used = false) : (t.set h r').Hinted n b := by
  refine ⟨fun g hg => ?_, fun g hg => ?_⟩
  · rw [used_set hr, if_neg (by omega)]
    exact ht.low g (by omega)
  · rw [used_set hr, hu'] at hg
    split at hg
    · cases hg
    · exact ht.high g hg

end Hinted

end RightTable

/-! ## The tables of all procs -/

inductive TableOp where
  | rightNew (xrightsOk : Bool) (i : Nat) (port : PortRef) (recv : Bool)
  | close (i : Nat) (h : LuaInteger)
  | ownedClose (i : Nat) (ud : BitVec 32)
  | mintedUndo (i : Nat) (minted : List Nat)
  | timer (P : Params) (portOk xrightsOk : Bool) (i due : Nat)
  | grantNamed (grantOk xrightsOk : Bool) (i : Nat) (port : Option PortRef) (recv : Bool)

def TableOp.run (k : Kernel) : TableOp → Kernel
  | .rightNew xrightsOk i port recv => (Kernel.rightNew xrightsOk k i port recv).2
  | .close i h => (apiClose k i h).2
  | .ownedClose i ud => Nlos.ownedClose k i ud
  | .mintedUndo i minted => Nlos.mintedUndo k i minted
  | .timer P portOk xrightsOk i due => (apiTimer P portOk xrightsOk k i due).2
  | .grantNamed grantOk xrightsOk i port recv => Nlos.grantNamed grantOk xrightsOk k i port recv

/-- The operation gives back no right it has made: a timer finds room in the timer table, and a
grant finds memory for its entry. -/
def TableOp.Steady (k : Kernel) : TableOp → Prop
  | .timer P portOk xrightsOk i due =>
    ∀ p k1 h k2, portNew P portOk k = (some p, k1) →
      Kernel.rightNew xrightsOk k1 i p true = (some h, k2) → (timerArm k2 p due).1 = true
  | .grantNamed grantOk _ _ _ _ => grantOk = true
  | _ => True

def Kernel.Blank (k : Kernel) : Prop := ∀ pr ∈ k.procv, pr.rights = RightTable.empty ∧ pr.rhint = 0

def Kernel.Hinted (k : Kernel) : Prop := ∀ pr ∈ k.procv, pr.rights.Hinted pr.rhint pr.rhigh

namespace Kernel.Hinted

theorem set (hk : k.Hinted) (pr' : KProc) (hp : k'.procv = k.procv.set i pr')
    (h : pr'.rights.Hinted pr'.rhint pr'.rhigh) : k'.Hinted := by
  intro pr hpr
  rw [hp] at hpr
  rcases List.mem_or_eq_of_mem_set hpr with h' | rfl
  · exact hk pr h'
  · exact h

theorem congr (hk : k.Hinted) (hp : k'.procv = k.procv) : k'.Hinted :=
  fun pr hpr => hk pr (hp ▸ hpr)

theorem rightNew {o : Option Nat} (hk : k.Hinted) (he : Kernel.rightNew ok k i p recv = (o, k')) :
    k'.Hinted := by
  unfold Kernel.rightNew at he
  split at he
  · cases he
    exact hk
  next pr hi =>
  split at he <;> cases he
  · exact hk
  next hs =>
    exact hk.set _ (sameHolders_modPort).procv ((hk pr (List.mem_of_getElem? hi)).take hs rfl)

theorem lowerHint {z : Int} (hk : k.Hinted) (hs : k.SlotAt i z.toNat r) (hz : 0 ≤ z) :
    (Nlos.lowerHint (k.rightDrop i z.toNat) i z).Hinted := by
  obtain ⟨pr, hi, hr, -⟩ := hs
  have hpr := hk pr (List.mem_of_getElem? hi)
  have hv := procv_rightDrop hi hr
  unfold Nlos.lowerHint
  rw [hv, set_slot hi]
  simp only
  split
  next hlt =>
    have hlt : z < pr.rhint := hlt
    have e : ∀ x, ((k.rightDrop i z.toNat).setProc i x).procv = k.procv.set i x := fun x => by
      rw [setProc, hv, List.set_set]
    exact hk.set _ (e _) (hpr.clear hr (by omega) (Nat.le_refl _) rfl)
  next hge =>
    have hge : ¬z < pr.rhint := hge
    exact hk.set _ hv (hpr.clear hr (Nat.le_refl _) (by omega) rfl)

theorem mintedUndoOne (hk : k.Hinted) : (Nlos.mintedUndoOne i k h).Hinted := by
  cases hi : k.procv[i]? with
  | none => simpa [Nlos.mintedUndoOne, hi] using hk
  | some pr =>
    have hpr := hk pr (List.mem_of_getElem? hi)
    obtain ⟨pr1, rfl | ⟨r, hr, rfl⟩, e⟩ := procv_mintedUndoOne hi h
    · exact hk.set _ e (hpr.lower (Nat.min_le_left _ _))
    · exact hk.set _ e (hpr.clear hr (Nat.min_le_left _ _) (Nat.min_le_right _ _) rfl)

theorem mintedUndo {hs : List Nat} (hk : k.Hinted) : (Nlos.mintedUndo k i hs).Hinted := by
  induction hs generalizing k with
  | nil => exact hk
  | cons h hs ih => exact ih hk.mintedUndoOne

theorem procv_timerArm {due : Nat} : (timerArm k p due).2.procv = k.procv := by
  have hv : (reapDeadTimers k).procv = k.procv := (reapTimers_cases _ k).1
  unfold timerArm
  generalize reapDeadTimers k = k1 at hv
  simp only
  split
  · exact (sameHolders_modPort).procv
  split
  · exact (sameHolders_modPort).procv.trans hv
  · exact hv

theorem apiTimer {P : Params} {portOk : Bool} {due : Nat} (hk : k.Hinted)
    (ho : (TableOp.timer P portOk ok i due).Steady k) :
    (Nlos.apiTimer P portOk ok k i due).2.Hinted := by
  cases making P portOk ok k i with
  | refused _ hn => rwa [hn.2]
  | leaks hb _ hn =>
    rw [hn.2]
    exact hk.congr ((sameHolders_modPort).procv.trans hb.procv)
  | makes hp hr _ hn =>
    have hk2 := (hk.congr (portNew_some hp).1.procv).rightNew hr
    have harm := ho _ _ _ _ hp hr
    rw [hn.2]
    split
    next ha =>
      rw [ha] at harm
      cases harm
    next ha => exact hk2.congr (congrArg (·.2.procv) ha ▸ procv_timerArm)

theorem step {op : TableOp} (hk : k.Hinted) (ho : op.Steady k) : (op.run k).Hinted := by
  cases op with
  | rightNew => exact hk.rightNew rfl
  | close i h =>
    show (apiClose k i h).2.Hinted
    unfold apiClose
    split
    · exact hk
    next hr =>
    split
    · exact hk
    · exact hk.lowerHint (rightGet_some hr).1 (rightGet_some hr).2.1
  | ownedClose i ud =>
    show (Nlos.ownedClose k i ud).Hinted
    unfold Nlos.ownedClose
    split
    · exact hk
    split
    · exact hk
    next hr =>
    split
    · exact hk
    · obtain ⟨h1, h2, -⟩ := rightGet_some hr
      rw [cInt_signExtend] at h1 h2
      exact hk.lowerHint h1 h2
  | mintedUndo => exact hk.mintedUndo
  | timer => exact hk.apiTimer ho
  | grantNamed grantOk xrightsOk i port recv =>
    obtain rfl : grantOk = true := ho
    cases port with
    | none => exact hk
    | some port =>
      show (match Kernel.rightNew xrightsOk k i port recv with
        | (none, k) => k
        | (some h, k) => if true then k else k.rightDrop i h).Hinted
      split
      next hr => exact hk.rightNew hr
      next hr => exact hk.rightNew hr

end Kernel.Hinted

theorem Kernel.Blank.hinted (hk : k.Blank) : k.Hinted := by
  intro pr hpr
  obtain ⟨he, hh⟩ := hk pr hpr
  refine ⟨fun h hlt => absurd hlt (hh ▸ Nat.not_lt_zero h), fun h ⟨r, hr, hu⟩ => ?_⟩
  rw [he] at hr
  rw [List.eq_of_mem_replicate (List.mem_of_getElem? hr)] at hu
  cases hu

namespace RightTable.Hinted

variable {a b : Nat}

theorem countP (ht : t.Hinted a b) {f : Right → Bool} (hf : ∀ r, f r = true → r.used = true) :
    (t.slots.take b).countP f = t.slots.countP f := by
  have h0 : (t.slots.drop b).countP f = 0 := by
    refine List.countP_eq_zero.mpr fun r hr hfr => ?_
    obtain ⟨n, hn⟩ := List.mem_iff_getElem?.mp hr
    rw [List.getElem?_drop] at hn
    have := ht.high _ ⟨r, hn, hf r hfr⟩
    omega
  conv_rhs => rw [← List.take_append_drop b t.slots, List.countP_append, h0, Nat.add_zero]

/-- A slot that is free and cannot be had is one of the overflow array. -/
theorem full (ht : t.Hinted a b) (hn : ¬∃ h, a ≤ h ∧ h < maxRights ∧ t.Open ok h)
    (hh : h < maxRights) (hu : ¬t.Used h) : ok = false ∧ t.slots.length = nrightsInline := by
  have hopen : ¬t.Open ok h :=
    fun ho => hn ⟨h, Nat.le_of_not_lt fun hlt => hu (ht.low h hlt), hh, ho⟩
  have hlen : t.slots.length ≤ h := by
    by_contra hlt
    have hr := List.getElem?_eq_getElem (Nat.lt_of_not_le hlt)
    exact hopen (.inl ⟨_, hr, Bool.eq_false_iff.mpr fun hu' => hu ⟨_, hr, hu'⟩⟩)
  refine ⟨Bool.eq_false_iff.mpr fun hok => hopen (.inr ⟨hlen, hok⟩), ?_⟩
  have := t.sized
  omega

end RightTable.Hinted

/-- In a run that gives back no right it has just made the hint and the mark are right, `right_new`
fails on a full table only, and `sole_holder` counts every right to the port. -/
theorem table_hinted (hr : Runs Blank TableOp.Steady TableOp.run k) (hi : k.procv[i]? = some pr) :
    pr.rights.Hinted pr.rhint pr.rhigh ∧
    (∀ ok p recv, (Kernel.rightNew ok k i p recv).1 = none →
      (∀ h < maxRights, pr.rights.Used h) ∨ ok = false ∧ pr.rights.slots.length = nrightsInline) ∧
    ∀ p q, k.portOf p = some q → (soleHolder k pr p = true ↔
      q.nrights ≤ pr.rights.slots.countP fun r => r.used && r.port == p) := by
  have hp := hr.invariant Blank.hinted Kernel.Hinted.step pr (List.mem_of_getElem? hi)
  refine ⟨hp, fun ok p recv hn => ?_, fun p q hq => ?_⟩
  · refine or_iff_not_imp_left.mpr fun hno => ?_
    obtain ⟨h, hh⟩ := not_forall.mp hno
    obtain ⟨hlt, hu⟩ := Classical.not_imp.mp hh
    exact hp.full (rightNew_none_iff.mp hn pr hi) hlt hu
  · unfold soleHolder
    rw [hq, ← hp.countP fun r hr => (Bool.and_eq_true_iff.mp hr).1]
    exact decide_eq_true_iff

def oneProc : Kernel := (portNew Sample.params true { boot with procv := [KProc.zero] }).2

def sendGrant (grantOk : Bool) : TableOp := .grantNamed grantOk true 0 (some ⟨0, 1⟩) false

theorem table_hinted_grant :
    ∃ pr, ((sendGrant true).run oneProc).procv[0]? = some pr ∧ pr.rhint = 1 ∧
    pr.rights.Hinted pr.rhint pr.rhigh :=
  have hr : Runs Blank TableOp.Steady TableOp.run ((sendGrant true).run oneProc) :=
    .step (.init fun _ h => List.mem_singleton.mp h ▸ ⟨rfl, rfl⟩) rfl
  ⟨_, rfl, rfl, (table_hinted (i := 0) hr rfl).1⟩

/-- Two procs with their self ports in slot 0, one of which takes every timer there is before the
other asks for one. -/
def timersOut : Kernel :=
  let P : Params := ⟨256, 4, by decide, .w64⟩
  let acts : List TableOp := .rightNew true 0 ⟨0, 1⟩ true :: .rightNew true 1 ⟨1, 2⟩ true ::
    (List.replicate maxTimers (.timer P true true 1 0) ++ [.timer P true true 0 0])
  acts.foldl TableOp.run (portNew P true (portNew P true { boot with procv := [.zero, .zero] }).2).2

/-- The timer for which there is no room leaves its slot free below the hint. -/
theorem timer_not_hinted : ∃ pr, timersOut.procv[0]? = some pr ∧ pr.rights.Used 0 ∧
    pr.rhint = 2 ∧ ¬pr.rights.Used 1 ∧ ¬pr.rights.Hinted pr.rhint pr.rhigh := by
  have hk : (timersOut.procv[0]?).any (fun pr => decide (pr.rhint = 2) &&
      decide (pr.rights.slots.map (·.used) = true :: List.replicate (nrightsInline - 1) false)) =
      true := by
    decide +kernel
  simp only [Option.any_eq_true, Bool.and_eq_true, decide_eq_true_eq] at hk
  obtain ⟨pr, hpr, h2, hmap⟩ := hk
  have hused : ∀ n, pr.rights.Used n ↔
      (true :: List.replicate (nrightsInline - 1) false)[n]? = some true := fun n => by
    rw [← hmap, List.getElem?_map, Option.map_eq_some_iff]
    rfl
  have h1 : ¬pr.rights.Used 1 := by
    rw [hused]
    decide
  exact ⟨pr, hpr, (hused 0).mpr rfl, h2, h1, fun h => h1 (h.low 1 (by omega))⟩

end Nlos
