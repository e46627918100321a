import Mathlib

/-!
# Serial numbers

A counter of `w` bits that wraps. Two of its values are compared by the sign of their distance,
which says which of them comes first as long as the counts they stand for are less than half a lap
apart. `shift b k` is the value of the counter `k` counts behind `b`, and the lemmas take a
comparison of two such values to the comparison of their counts.
-/

namespace Serial

variable {w : Nat}

def shift (b : BitVec w) (k : Nat) : BitVec w := b + BitVec.ofNat w k

@[simp] theorem shift_zero (b : BitVec w) : shift b 0 = b := BitVec.add_zero b

theorem shift_shift (b : BitVec w) (i j : Nat) : shift (shift b i) j = shift b (i + j) := by
  unfold shift
  rw [BitVec.add_assoc, ← BitVec.ofNat_add]

/-- How far `a` is behind `b`, negative where it is in front. -/
def distance (a b : BitVec w) : Int := (a - b).toInt

theorem shift_distance {a b : BitVec w} (h : 0 ≤ distance a b) :
    shift b (distance a b).toNat = a := by
  have h1 : (distance a b).toNat = (a - b).toNat := by
    unfold distance at h ⊢
    rw [BitVec.toInt_eq_toNat_cond] at h ⊢
    split at h
    next hlt => rw [if_pos hlt, Int.toNat_natCast]
    · have := (a - b).isLt
      omega
  rw [h1, shift, BitVec.ofNat_toNat, BitVec.setWidth_eq, BitVec.add_comm, BitVec.sub_add_cancel]

/-- The distance of two counts is theirs, up to laps. -/
theorem shift_sub_shift (b : BitVec w) (i j : Nat) :
    shift b i - shift b j = BitVec.ofInt w ((i : Int) - j) := by
  unfold shift
  rw [add_sub_add_left_eq_sub, sub_eq_iff_eq_add, ← BitVec.ofInt_natCast, ← BitVec.ofInt_natCast, ← BitVec.ofInt_add,
    Int.sub_add_cancel]

variable {i j : Nat}

theorem distance_shift (b : BitVec w) (h1 : j * 2 ≤ i * 2 + 2 ^ w) (h2 : i * 2 < j * 2 + 2 ^ w) :
    distance (shift b i) (shift b j) = (i : Int) - j := by
  unfold distance
  rw [shift_sub_shift, BitVec.toInt_ofInt]
  refine Int.bmod_eq_of_le_mul_two ?_ ?_ <;> omega

/-- Half a lap apart at most, a count is in front exactly where the distance is negative. -/
theorem distance_neg (b : BitVec w) (h1 : j * 2 ≤ i * 2 + 2 ^ w) (h2 : i * 2 < j * 2 + 2 ^ w) :
    distance (shift b i) (shift b j) < 0 ↔ i < j := by
  rw [distance_shift b h1 h2]
  omega

/-- Less than a lap apart, counts are told from each other. -/
theorem shift_inj (b : BitVec w) (h1 : j < i + 2 ^ w) (h2 : i < j + 2 ^ w) :
    shift b i = shift b j ↔ i = j := by
  constructor
  · intro h
    have h0 : BitVec.ofNat w i = BitVec.ofNat w j := add_left_cancel h
    have hmod : i ≡ j [MOD 2 ^ w] := congrArg BitVec.toNat h0
    refine hmod.eq_of_abs_lt (abs_lt.mpr ?_)
    omega
  · rintro rfl
    rfl

theorem shift_lap (b : BitVec w) (i : Nat) : shift b (i + 2 ^ w) = shift b i := by
  unfold shift
  rw [BitVec.ofNat_add, show BitVec.ofNat w (2 ^ w) = 0#w from BitVec.eq_of_toNat_eq (Nat.mod_self _), BitVec.add_zero]

/-- What is behind one count and not behind another, the two half a lap apart at most, is a count
between them. -/
theorem exists_between (b : BitVec w) {a : BitVec w} (hij : i ≤ j) (h1 : distance (shift b i) a < 0)
    (h2 : 0 ≤ distance (shift b j) a) :
    ∃ k, i < k ∧ (k ≤ j ∨ i * 2 + 2 ^ w ≤ j * 2) ∧ a = shift b k := by
  obtain ⟨k, hk, rfl⟩ : ∃ k < 2 ^ w, a = shift b (i + k) := by
    refine ⟨(a - shift b i).toNat, BitVec.isLt _, ?_⟩
    rw [← shift_shift]
    unfold shift
    rw [BitVec.ofNat_toNat, BitVec.setWidth_eq, add_sub_cancel]
  have hk1 : 0 < k := by
    rcases Nat.eq_zero_or_pos k with rfl | h
    · simp [distance] at h1
    · exact h
  have hk2 : k * 2 ≤ 2 ^ w := by
    by_contra hlap
    rw [← shift_lap, distance_shift b (by omega) (by omega)] at h1
    omega
  refine ⟨i + k, by omega, ?_, rfl⟩
  by_contra hcon
  have := (distance_neg b (i := j) (j := i + k) (by omega) (by omega)).mpr (by omega)
  omega

end Serial
