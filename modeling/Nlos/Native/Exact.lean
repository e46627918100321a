import Nlos.Native.Curve

/-!
# Exactness of the field arithmetic

The bounds of the field routines, over whole runs. A routine of the model returns nothing as soon as
one of its operations leaves its type, so that a run that returns has overflowed nowhere: not in the
tables and carries of `fM` and `fS`, and not in the sums and differences of `fA` and `fZ`.
-/

namespace Nlos.Native

open Checked Function

/-! ## Elements in memory -/

section Memory

variable {ι : Type} [DecidableEq ι]

/-- The last loop of `fstore`: the limbs written one by one to the element at `o`. -/
def storeAt (m : ι → Gf) (o : ι) (h : Gf) : ι → Gf :=
  (List.finRange 10).foldl
    (fun m (i : Fin 10) => update m o ((m o).set i (getElem h i (lt10 i)) (lt10 i))) m

/-- `fM` on elements in memory. The table is built from `a` and `b` before `o` is written. -/
def fMAt (m : ι → Gf) (o a b : ι) : Option (ι → Gf) := do
  let h ← fM (m a) (m b)
  return storeAt m o h

def fSAt (m : ι → Gf) (o a : ι) : Option (ι → Gf) := do
  let h ← fS (m a)
  return storeAt m o h

/-- The limbs before `k` written, one element is changed. -/
theorem storeAt_take (m : ι → Gf) (o : ι) (h : Gf) (k : Nat) (hk : k ≤ 10) :
    ∃ r : Gf, ((List.finRange 10).take k).foldl
        (fun m (i : Fin 10) => update m o ((m o).set i (getElem h i i.isLt) i.isLt)) m =
          update m o r ∧ ∀ i (hi : i < 10), i < k → r[i] = h[i] := by
  induction k with
  | zero => exact ⟨m o, (update_eq_self o m).symm, fun i _ lt => absurd lt (by omega)⟩
  | succ k ih =>
    obtain ⟨r, before, written⟩ := ih (by omega)
    refine ⟨r.set k h[k], ?_, fun i hi lt => ?_⟩
    · rw [List.take_add_one, List.getElem?_eq_getElem (by simpa using hk), Option.toList_some,
        List.foldl_append, before, List.foldl_cons, List.foldl_nil, update_self,
        update_idem, List.getElem_finRange]
      rfl
    · rw [Vector.getElem_set]
      split
      next same => subst same; rfl
      · exact written i hi (by omega)

theorem storeAt_eq (m : ι → Gf) (o : ι) (h : Gf) : storeAt m o h = update m o h := by
  obtain ⟨r, run, written⟩ := storeAt_take m o h 10 (le_refl _)
  rw [List.take_of_length_le (by simp)] at run
  rw [storeAt, run, Vector.ext fun i hi => written i hi hi]

end Memory

/-! ## Runs -/

/-- The limbs are at most `1.65 * 2 ^ 26` in absolute value. -/
def Operand (a : Gf) : Prop := ∀ i : Fin 10, 100 * |getElem a i (lt10 i)| ≤ 165 * 2 ^ 26

theorem operand_iff (a : Gf) : Operand a ↔ Limbs operandMax a := by
  have max : operandMax = 110729625 := by decide
  constructor
  all_goals
    intro h i
    have := h i
    omega

/-- A run returns, and every operand it gave to `fM` and `fS` was within the bound. -/
def RunsExactly {α : Type} (m : Run α) : Prop :=
  ∃ a log, m [] = some (a, log) ∧ ∀ x ∈ log, Operand x

theorem runsExactly_of_yields {α : Type} {m : Run α} {Q : α → Prop} (h : Yields Fine m Q) :
    RunsExactly m := by
  obtain ⟨a, log, run, fine, -⟩ := h [] fine_nil
  exact ⟨a, log, run, fun x hx => (operand_iff x).mpr (fine x hx)⟩

/-- Limbs as small as a result of `fM` are within `2 ^ 25.5`. -/
theorem sq_le_of_limbs {a : Gf} (h : Limbs (2 ^ 25) a) (i : Fin 10) :
    getElem a i i.isLt ^ 2 ≤ 2 ^ 51 := by
  have := h i
  rw [← sq_abs]
  calc |a[i]| ^ 2 ≤ (2 ^ 25) ^ 2 := pow_le_pow_left₀ (abs_nonneg _) (by exact_mod_cast this) 2
    _ ≤ 2 ^ 51 := by norm_num

theorem modEq_of_val {a : Gf} {x : Int} (h : val a = (x : ZMod P)) : value a ≡ x [ZMOD P] := by
  rw [← ZMod.intCast_eq_intCast_iff, cast_value, h]

/-- Within the bound `fM` and `fS` neither overflow nor lose anything modulo `p`; every run of the
four routines stays within the bound, whatever its bytes and whatever the hash; and the two
conversions are exact. -/
theorem field_arithmetic_exact {ι : Type} [DecidableEq ι] (sha512 : List UInt8 → Vector UInt8 64) :
    (∀ a b, Operand a → Operand b → ∃ o, fM a b = some o ∧ (∀ i : Fin 10, getElem o i i.isLt ^ 2 ≤ 2 ^ 51) ∧
      value o ≡ value a * value b [ZMOD P]) ∧
    (∀ a, Operand a → ∃ o, fS a = some o ∧ (∀ i : Fin 10, getElem o i i.isLt ^ 2 ≤ 2 ^ 51) ∧
      value o ≡ value a ^ 2 [ZMOD P]) ∧
    (∀ (m : ι → Gf) (o a b : ι), Operand (m a) → Operand (m b) →
      ∃ r, fM (m a) (m b) = some r ∧ fMAt m o a b = some (update m o r)) ∧
    (∀ (m : ι → Gf) (o a : ι), Operand (m a) →
      ∃ r, fS (m a) = some r ∧ fSAt m o a = some (update m o r)) ∧
    (∀ n p, RunsExactly (x25519 n p)) ∧ (∀ seed, RunsExactly (edPublickey sha512 seed)) ∧
    (∀ seed msg, RunsExactly (edSign sha512 seed msg)) ∧
    (∀ pk msg sig, RunsExactly (edVerify sha512 pk msg sig)) ∧
    (∀ n : Gf, (∀ i : Fin 10, Checked.Fits 31 (getElem n i i.isLt)) → ∃ o, pack25519 n = some o ∧
      (number o : Int) = value n % P ∧ ∀ o' : Bytes32, (number o' : Int) = value n % P → o' = o) ∧
    (∀ n, ∃ o, unpack25519 n = some o ∧ value o ≡ (number n % 2 ^ 255 : Nat) [ZMOD P]) := by
  refine ⟨fun a b ha hb => ?_, fun a ha => ?_, fun m o a b ha hb => ?_, fun m o a ha => ?_,
    fun n p => runsExactly_of_yields (x25519_yields n p),
    fun seed => runsExactly_of_yields (edPublickey_yields sha512 seed),
    fun seed msg => runsExactly_of_yields (edSign_yields sha512 seed msg),
    fun pk msg sig => runsExactly_of_yields (edVerify_yields sha512 pk msg sig), fun n hn => ?_,
    fun n => ?_⟩
  · obtain ⟨o, run, small, same⟩ := fM_spec ((operand_iff a).mp ha) ((operand_iff b).mp hb)
    refine ⟨o, run, sq_le_of_limbs small, modEq_of_val ?_⟩
    rw [same, ← cast_value, ← cast_value, Int.cast_mul]
  · obtain ⟨o, run, small, same⟩ := fS_spec ((operand_iff a).mp ha)
    refine ⟨o, run, sq_le_of_limbs small, modEq_of_val ?_⟩
    rw [same, ← cast_value, Int.cast_pow, sq]
  · obtain ⟨r, run, -⟩ := fM_spec ((operand_iff _).mp ha) ((operand_iff _).mp hb)
    refine ⟨r, run, ?_⟩
    rw [fMAt, bind_of_eq run, storeAt_eq]
    rfl
  · obtain ⟨r, run, -⟩ := fS_spec ((operand_iff _).mp ha)
    refine ⟨r, run, ?_⟩
    rw [fSAt, bind_of_eq run, storeAt_eq]
    rfl
  · have limbs : Limbs (2 ^ 31) n := fun i => by
      obtain ⟨low, high⟩ := hn i
      exact abs_le.mpr ⟨low, high.le⟩
    obtain ⟨o, run, small, same⟩ := pack25519_spec limbs
    have num : (number o : Int) = value n % P := by
      have := modEq_of_val (x := number o) (by rw [← same]; norm_cast)
      rw [this, Int.emod_eq_of_lt (Int.natCast_nonneg _) (by exact_mod_cast small)]
    refine ⟨o, run, num, fun o' num' => number_injective ?_⟩
    exact_mod_cast num'.trans num.symm
  · obtain ⟨o, run, -, same⟩ := unpack25519_spec n
    refine ⟨o, run, modEq_of_val ?_⟩
    rw [same, Int.cast_natCast]

end Nlos.Native
