import Nlos.Kernel.Machine

/-!
# Handles

A handle is a lua integer, 64 bits wide. `right_get` takes it as that and hands it to `right_slot`
as an `int`, which keeps the low 32 bits, so a handle far out of range names the slot its low half
names. The guard of `sys.close` for slot 0 compares the handle as lua has it, and a handle that is
nonzero in its high half only passes the guard and drops slot 0.
-/

namespace Nlos

open Kernel Option

variable {k k' : Kernel} {i : Nat} {h : LuaInteger} {r : Right} {op : Op}

/-! ## The conversion -/

/-- A number a table has a slot for is its own low half. -/
theorem cInt_of_inRange (h0 : 0 ≤ h.toInt) (h1 : h.toInt < maxRights) : cInt h = h.toInt := by
  have hmax : (maxRights : Int) = 512 := rfl
  have hnat : (h.toNat : Int) = h.toInt := by
    rw [BitVec.toInt_eq_toNat_cond] at h0 h1 ⊢
    split at h0 <;> omega
  unfold cInt
  rw [BitVec.toInt_setWidth, hnat]
  exact Int.bmod_eq_of_le (by omega) (by omega)

/-- The number is one of a slot in use, the one the right was found in. -/
def InRange (k : Kernel) (i : Nat) (h : LuaInteger) (r : Right) : Prop :=
  0 ≤ h.toInt ∧ h.toInt < maxRights ∧ k.SlotAt i h.toInt.toNat r

/-- `right_get` answers for a number in range exactly where the conversion keeps the number. -/
theorem rightGet_inRange_iff (hr : k.rightGet i h = some r) :
    InRange k i h r ↔ cInt h = h.toInt := by
  obtain ⟨hs, h0, h1⟩ := rightGet_some hr
  constructor
  · rintro ⟨g0, g1, -⟩
    exact cInt_of_inRange g0 g1
  · intro e
    rw [e] at hs h0 h1
    exact ⟨h0, h1, hs⟩

/-! ## Closing -/

variable {n j : Nat} {g : Bool}

theorem slotAt_lowerHint {g : Int} : (lowerHint k i g).SlotAt j n r ↔ k.SlotAt j n r := by
  unfold lowerHint
  split
  · exact Iff.rfl
  next pr hpr =>
  split
  · exact slotAt_setProc hpr rfl
  · exact Iff.rfl

theorem rightGet_of_slotAt (hs : k.SlotAt i n r) (hn : cInt h = n) (hlt : n < maxRights) :
    k.rightGet i h = some r := by
  obtain ⟨pr, hpr, hr, hu⟩ := hs
  have hslot : pr.rights.rightSlot (cInt h) = some r := by
    unfold RightTable.rightSlot
    rw [if_neg (by omega), hn, Int.toNat_natCast]
    exact hr
  unfold rightGet
  simp only [hpr, hslot, hu, if_true]

/-- A close of another number than 0 leaves slot 0, exactly where the low half is not 0 either. -/
theorem apiClose_slot_zero_iff (hh : h ≠ 0) (hs : k.SlotAt i 0 r) :
    (apiClose k i h).2.SlotAt i 0 r ↔ cInt h ≠ 0 := by
  unfold apiClose
  cases hr : k.rightGet i h with
  | none =>
    refine ⟨fun _ e => ?_, fun _ => hs⟩
    rw [rightGet_of_slotAt hs e (by decide)] at hr
    cases hr
  | some r' =>
    obtain ⟨hs', h0, -⟩ := rightGet_some hr
    simp only [if_neg hh]
    rw [slotAt_lowerHint, slotAt_rightDrop hs']
    constructor
    · rintro ⟨-, hne⟩ e
      exact hne ⟨rfl, by rw [e]; rfl⟩
    · intro hne
      exact ⟨hs, fun e => by omega⟩

/-! ## Runs -/

/-- The operation makes no proc in a slot whose last one is still being torn down. -/
def Op.Unclaimed (k : Kernel) : Op → Prop
  | .spawn _ _ | .spawnInit _ => ∀ i, k.freeSlot = some i → k.teardowns.all (·.slot != i) = true
  | _ => True

/-- The operation is no close, by a living proc, of a number that is 0 in its low half only. -/
def Op.Straight (k : Kernel) : Op → Prop
  | .close i h => k.sch.gone i = true ∨ h = 0 ∨ cInt h ≠ 0
  | _ => True

theorem Op.Unclaimed.hatches {b : Bool} (hu : op.Unclaimed k) (hb : (op.scope k).hatches i b) :
    b = true := by
  cases op with
  | spawn env arg | spawnInit env =>
    obtain ⟨hf, rfl⟩ := hb
    exact hu i hf
  | _ => exact hb.elim

theorem run_teardownsFit {ok : Kernel → Op → Prop} (hok : ∀ k op, ok k op → op.Unclaimed k)
    (hr : Run ok k) : k.TeardownsFit := by
  refine hr.invariant nofun fun {k k' op} hrun ht ho hs => ?_
  have ha := (step_calls plain_nil hrun.sane.counted hrun.sane.roomy hs).acts
  exact ha.fits (fun i b hb => (hok k op ho).hatches hb) ht

/-- What is undone was not there before, so it is not the slot 0 of a living proc. -/
theorem Kernel.Undoes.gone (hu : k.Undoes i j 0 g) (hk : k.SelfsKept) : g = true := by
  obtain ⟨-, hv, rfl⟩ := hu
  by_contra hg
  obtain ⟨pr, r, hpr, hr, hused, -⟩ := hk i (Bool.not_eq_true _ ▸ hg)
  exact hv r ⟨pr, hpr, hr, hused⟩

/-- No operation but the close by another name drops the slot 0 of a living proc. -/
theorem scope_drops_zero (hop : ∀ j h, op ≠ .close j h) (hk : k.SelfsKept)
    (hd : (op.scope k).drops i 0 g) : g = true := by
  cases op with
  | close j h => exact absurd rfl (hop j h)
  | ownedClose j ud =>
    obtain ⟨-, hpos, hz, -⟩ := hd
    omega
  | callK env waitOk rh | alt env wake waitOk cases | altK env wake cases => exact hd.1.gone hk
  | tryrecv env h | timer P portOk xrightsOk j due => exact Kernel.Undoes.gone hd hk
  | spawn env arg | spawnInit env => exact hd.2.2
  | _ => exact hd.elim

theorem scope_sheds (ht : k.TeardownsFit) (hs : step k op = some k')
    (hd : (op.scope k).sheds i g) : g = true := by
  cases op with
  | spawn env arg => exact hd.2
  | finish memOk t =>
    obtain ⟨rfl, -, rfl⟩ := hd
    obtain ⟨-, hrun⟩ := ite_none_right_eq_some.mp hs
    obtain ⟨hmem, -⟩ := ite_none_right_eq_some.mp hrun
    exact ht t hmem
  | _ => exact hd.elim

/-- A close that is not one of slot 0 by another name, or one of a corpse. -/
theorem apiClose_selfs (hop : (Op.close i h).Straight k) (hk : k.SelfsKept) :
    (apiClose k i h).2.SelfsKept := by
  cases hr : k.rightGet i h with
  | none =>
    unfold apiClose
    rw [hr]
    exact hk
  | some r =>
    obtain ⟨-, h0, -⟩ := rightGet_some hr
    have ha : Acts
      { drops := fun j n g => j = i ∧ h ≠ 0 ∧ n = (cInt h).toNat ∧ g = k.sch.gone i } (k, [])
        ((apiClose k i h).2, []) := apiClose_acts plain_nil trivial fun hne => ⟨rfl, hne, rfl, rfl⟩
    refine ha.selfs ?_ (fun _ _ => False.elim) hk
    rintro j g ⟨rfl, hne, hz, rfl⟩
    rcases hop with hg | e | hn
    · exact hg
    · exact absurd e hne
    · omega

theorem run_selfsKept (hr : Run (fun k op => op.Straight k ∧ op.Unclaimed k) k) : k.SelfsKept := by
  refine hr.invariant (fun i hg => ?_) fun {k k' op} hrun hk ho hs => ?_
  · cases hg
  · have hc := hrun.sane.counted
    have ht := run_teardownsFit (fun _ _ h => h.2) hrun
    by_cases hclose : ∃ j h, op = .close j h
    · obtain ⟨j, h, rfl⟩ := hclose
      obtain ⟨-, e⟩ := ite_none_right_eq_some.mp hs
      cases e
      exact apiClose_selfs ho.1 hk
    · refine (step_calls plain_nil hc hrun.sane.roomy hs).acts.selfs (fun i g hd => ?_)
        (fun i g hd => scope_sheds ht hs hd) hk
      exact scope_drops_zero (fun j h e => hclose ⟨j, h, e⟩) hk hd

/-- `right_get` answers in range exactly where the conversion to `int` keeps the number; a close of
another number than 0 leaves slot 0 exactly where its low half is not 0; and in every run without a
close of the other kind, and without a proc made in a slot that is still being torn down, slot 0 of
every living proc is in use and names its self port. -/
theorem handles_kept (k : Kernel) :
    (∀ i h r, k.rightGet i h = some r → (InRange k i h r ↔ cInt h = h.toInt)) ∧
    (∀ i h r, h ≠ 0 → k.SlotAt i 0 r → ((apiClose k i h).2.SlotAt i 0 r ↔ cInt h ≠ 0)) ∧
    (Run (fun k op => op.Straight k ∧ op.Unclaimed k) k → k.SelfsKept) :=
  ⟨fun _ _ _ => rightGet_inRange_iff, fun _ _ _ => apiClose_slot_zero_iff, run_selfsKept⟩

def onePort : List Op := [.spawnInit Sample.newEnv, Sample.newport 0]

/-- No teardown is under way, and the operation is no close of 0 by another name. -/
def checkKept (k : Kernel) (op : Op) : Bool :=
  k.teardowns.isEmpty &&
    match op with
    | .close _ h => decide (cInt h ≠ 0)
    | _ => true

theorem checkKept_kept (k : Kernel) (op : Op) (h : checkKept k op = true) :
    op.Straight k ∧ op.Unclaimed k := by
  unfold checkKept at h
  simp only [Bool.and_eq_true, List.isEmpty_iff] at h
  obtain ⟨ht, hop⟩ := h
  have hall : ∀ i, k.teardowns.all (·.slot != i) = true := fun i => by
    rw [ht]
    rfl
  refine ⟨?_, ?_⟩
  · cases op with
    | close i h => exact .inr (.inr (of_decide_eq_true hop))
    | _ => trivial
  · cases op with
    | spawn env arg | spawnInit env => exact fun i _ => hall i
    | _ => trivial

/-- It closes its port and still has slot 0. -/
theorem onePort_keeps_self :
    ∃ k, runOps checkKept .boot (onePort ++ [.close 0 1]) = some k ∧ k.sch.gone 0 = false ∧
    k.SelfAt 0 := by
  obtain ⟨k, hk, hr, hp⟩ := Run.of_ops (l := onePort ++ [.close 0 1]) (P := fun k => !k.sch.gone 0)
    checkKept_kept (by decide +kernel)
  have hg : k.sch.gone 0 = false := by simpa using hp
  exact ⟨k, hk, hg, (handles_kept k).2.2 hr 0 hg⟩

/-- A living proc closes 2^32 and has lost its slot 0. -/
theorem onePort_closes_self :
    ∃ k k', Run (fun _ _ => True) k ∧ step k (.close 0 (1#64 <<< 32)) = some k' ∧
      (∃ r, k.rightGet 0 (1#64 <<< 32) = some r) ∧ (1#64 <<< 32 : LuaInteger) ≠ 0 ∧
      k'.sch.gone 0 = false ∧ k'.rightGet 0 0 = none := by
  obtain ⟨k, hk, hr, hp⟩ := Run.of_ops (l := onePort) anyOp_true (P := fun k =>
    (k.rightGet 0 (1#64 <<< 32)).isSome && (step k (.close 0 (1#64 <<< 32))).any fun k' =>
      !k'.sch.gone 0 && (k'.rightGet 0 0).isNone) (by decide +kernel)
  simp only [Bool.and_eq_true, isSome_iff_exists, any_eq_true, Bool.not_eq_true',
    isNone_iff_eq_none] at hp
  obtain ⟨hget, k', hstep, hg, hnone⟩ := hp
  exact ⟨k, k', hr, hstep, hget, by decide, hg, hnone⟩

end Nlos
