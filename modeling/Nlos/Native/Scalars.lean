import Nlos.Native.Ed25519

/-!
# Reduction modulo the group order

`modL` folds the digits above 256 bits down with `2 ^ 256 = -16 c` modulo `L`, takes off a multiple
of `L` found from the top digit, and adds `L` back where that was one too many. Bounds are followed
digit by digit (`turned`, `folded`): the four zero bytes above `c` are what lets the carry die out,
and only then is the top digit close enough to the value.
-/

namespace Nlos.Native

open Checked Bytes Finset

/-- The order of the base point. -/
def L : Nat := 2 ^ 252 + 27742317777372353535851937790883648493

def digits {n : Nat} (x : Vector Int n) : Int := weigh (fun j => 256 ^ j) x

variable {n k D i : Nat} {m : Fin 32} {x y : Vector Int 64} {c : Int}

theorem digits_set (x : Vector Int n) (hk : k < n) (v : Int) :
    digits (x.set k v) = digits x + (v - x[k]) * 256 ^ k := by
  rw [digits, weigh_set _ _ hk]
  rfl

/-! ## The first phase -/

theorem round_digit {v : Int} {N : Nat} (hv : |v| ≤ N) :
    |v + -((v + 128) >>> (8 : Nat) * 2 ^ 8)| ≤ 128 ∧ |(v + 128) >>> (8 : Nat)| ≤ ((N + 128) / 256 : Nat) := by
  obtain ⟨rest, carry⟩ := round_shift (w := 8) (by decide) hv
  exact ⟨rest, carry⟩

theorem Lorder_range :
    ∀ j : Fin 32, 0 ≤ getElem Lorder j.val j.isLt ∧ getElem Lorder j.val j.isLt ≤ 255 := by decide

/-- The most a digit may be before it is folded. -/
def rawMax : Nat := 2 ^ 22

theorem product_le {v : Int} {j : Fin 32} (hv : |v| ≤ rawMax) :
    |16 * v * Lorder[j.val]| ≤ 16 * rawMax * 255 := by
  have range := Lorder_range j
  rw [abs_mul, abs_mul, abs_of_nonneg range.1, abs_of_pos (by norm_num : (0 : Int) < 16)]
  exact mul_le_mul (mul_le_mul_of_nonneg_left hv (by norm_num)) range.2 range.1 (by norm_num)

/-- A turn of the inner loop: its digit is balanced, and the carry is what is left of the digit,
the old carry and the product. -/
theorem modLTurn_spec {k : Fin 20} {C : Nat}
    (hi : |x[m.val + 32]| ≤ rawMax) (hj : |x[m.val + k.val]| ≤ D) (hD : D ≤ rawMax)
    (hc : |c| ≤ C) (hC : C ≤ 2 ^ 27) :
    ∃ v c', modLTurn m (x, c) k = some (x.set (m + k) v, c') ∧ |v| ≤ 128 ∧
      |c'| ≤ ((D + C + |16 * x[m.val + 32] * Lorder[k.val]|.toNat + 128) / 256 : Nat) ∧
      v + 256 * c' = x[m.val + k.val] + c - 16 * x[m.val + 32] * Lorder[k.val] := by
  have raw : rawMax = 4194304 := rfl
  have product := product_le (j := ⟨k, by omega⟩) hi
  set p := 16 * x[m.val + 32] * Lorder[k.val] with hp
  set v := x[m.val + k.val] + (c - p) with hv
  have grown : |v| ≤ (D + C + |p|.toNat : Nat) := by
    have := abs_add_le x[m.val + k.val] (c - p)
    have := abs_sub c p
    rw [hv]
    omega
  obtain ⟨balanced, carry⟩ := round_digit grown
  set c' := (v + 128) >>> (8 : Nat) with hc'
  obtain ⟨v0, v1⟩ := abs_le.mp grown
  obtain ⟨b0, b1⟩ := abs_le.mp balanced
  obtain ⟨i0, i1⟩ := abs_le.mp hi
  obtain ⟨c0, c1⟩ := abs_le.mp hc
  obtain ⟨p0, p1⟩ := abs_le.mp product
  refine ⟨v + -(c' * 2 ^ 8), c', ?_, balanced, carry, by rw [hv]; ring⟩
  unfold modLTurn
  dsimp only
  rw [bind_fit (abs_lt.mpr (by omega)), ← hp, bind_fit (by omega), bind_fit (abs_lt.mpr (by omega)),
    bind_of_eq (addAt_eq (by omega) (by rw [← hv]; omega)), ← hv, Vector.getElem_set_self,
    bind_fit (abs_lt.mpr (by omega)), ← hc', Int.shiftLeft_eq, bind_fit (abs_lt.mpr (by omega)),
    bind_of_eq (addAt_eq (by omega) (by
      rw [Vector.getElem_set_self]
      omega)), Vector.getElem_set_self, Vector.set_set]
  rfl

def orderPart (k : Nat) : Int := ∑ j ∈ Finset.range k, Lorder[j]?.getD 0 * 256 ^ j

theorem orderPart_succ (hk : k < 32) : orderPart (k + 1) = orderPart k + Lorder[k] * 256 ^ k := by
  unfold orderPart
  rw [sum_range_succ, Vector.getElem?_eq_getElem hk]
  rfl

/-- Sixteen times the order is `2 ^ 256` and sixteen times its low bytes. -/
theorem sixteen_order : (16 * L : Int) = 256 ^ 32 + 16 * orderPart 20 := by decide

/-- Four bytes of the order above its low part are zero. -/
theorem Lorder_gap : ∀ k : Fin 20, 16 ≤ k.val → Lorder[k.val] = 0 := by decide

/-- The most the carry is before turn `k`, where the digits above the first are at most `D`: over
the four zero bytes it dies out. -/
def carryMax (D : Nat) : Nat → Nat
  | 0 => 0
  | k + 1 => if k < 16 then 2 ^ 27 else (D + carryMax D k + 128) / 256

theorem carryMax_le (hD : D ≤ rawMax) (k : Nat) : carryMax D k ≤ 2 ^ 27 := by
  have raw : rawMax = 4194304 := rfl
  induction k with
  | zero => exact Nat.zero_le _
  | succ k ih =>
    unfold carryMax
    split
    · exact le_rfl
    · omega

theorem carryMax_succ {E : Nat} {k : Fin 20} {p : Nat} (hE : E ≤ rawMax) (hD : k ≠ 0 → E ≤ D)
    (product : p ≤ 16 * rawMax * 255) (gap : 16 ≤ k.val → p = 0) (hDm : D ≤ rawMax) :
    (E + carryMax D k + p + 128) / 256 ≤ carryMax D (k + 1) := by
  have raw : rawMax = 4194304 := rfl
  have before := carryMax_le hDm k
  rw [carryMax]
  split
  · omega
  next late =>
  omega

/-- The digit above 256 bits, folded into twenty digits below it. -/
theorem modLFold_spec (hD : D ≤ rawMax)
    (hi : |x[m.val + 32]| ≤ rawMax) (first : |x[m.val]| ≤ rawMax)
    (rest : ∀ k (hk : k < 20), 0 < k → |x[m.val + k]| ≤ (D : Int))
    (last : |x[m.val + 20]| ≤ rawMax) :
    ∃ x', modLFold x m = some x' ∧
      (∀ j (hj : j < 64), m.val ≤ j → j < m.val + 20 → |x'[j]| ≤ (128 : Int)) ∧
      |x'[m.val + 20]| ≤ |x[m.val + 20]| + carryMax D 20 ∧ x'[m.val + 32] = 0 ∧
      (∀ j (hj : j < 64), j < m.val ∨ m.val + 20 < j → j ≠ m.val + 32 → x'[j] = x[j]) ∧
      digits x' = digits x - 16 * L * x[m.val + 32] * 256 ^ m.val := by
  have raw : rawMax = 4194304 := rfl
  obtain ⟨s, run, balanced, same, small, sum⟩ := countUp
    (fun k (s : Vector Int 64 × Int) =>
      (∀ j (hj : j < 64), m.val ≤ j → j < m.val + k → |s.1[j]| ≤ (128 : Int)) ∧
      (∀ j (hj : j < 64), j < m.val ∨ m.val + k ≤ j → s.1[j] = x[j]) ∧ |s.2| ≤ carryMax D k ∧
      digits s.1 + s.2 * 256 ^ (m.val + k) =
        digits x - 16 * x[m.val + 32] * orderPart k * 256 ^ m.val)
    (f := modLTurn m)
    (fun k s => by
      rintro ⟨balanced, same, small, sum⟩
      have hi' := same (m + 32) (by omega) (by omega)
      have hj' := same (m + k) (by omega) (by omega)
      obtain ⟨E, hj, hE, hED⟩ : ∃ E : Nat, |x[m.val + k.val]| ≤ (E : Int) ∧ E ≤ rawMax ∧
          (k ≠ 0 → E ≤ D) := by
        rcases eq_or_ne k 0 with rfl | ne
        · exact ⟨rawMax, first, le_rfl, fun h => absurd rfl h⟩
        · exact ⟨D, rest k k.isLt (Nat.pos_of_ne_zero fun e => ne (Fin.ext e)), hD, fun _ => le_rfl⟩
      obtain ⟨v, c', turn, balanced', small', sum'⟩ := modLTurn_spec (by rw [hi']; exact hi)
        (by rw [hj']; exact hj) hE small (carryMax_le hD k)
      rw [hi', hj'] at sum'
      rw [hi'] at small'
      have product : |16 * x[m.val + 32] * Lorder[k.val]|.toNat ≤ 16 * rawMax * 255 := by
        have bound := product_le (j := ⟨k, by omega⟩) hi
        dsimp only at bound
        omega
      have gap : 16 ≤ k.val → |16 * x[m.val + 32] * Lorder[k.val]|.toNat = 0 := by
        intro late
        rw [Lorder_gap k late, mul_zero]
        rfl
      have next := carryMax_succ hE hED product gap hD
      refine ⟨(s.1.set (m + k) v, c'), turn, ?_, ?_, by dsimp only; omega, ?_⟩
      · intro j hj low high
        rcases eq_or_ne j (m.val + k.val) with rfl | ne
        · rw [Vector.getElem_set_self]
          exact balanced'
        · rw [Vector.getElem_set_ne _ _ ne.symm]
          exact balanced j hj low (by omega)
      · intro j hj outside
        rw [Vector.getElem_set_ne _ _ (by omega)]
        exact same j hj (by omega)
      · rw [digits_set _ (by omega), hj', orderPart_succ (by omega), ← add_assoc, pow_succ, pow_add]
        linear_combination sum + (256 : Int) ^ m.val * (256 : Int) ^ k.val * sum')
    (b := (x, 0))
    ⟨fun j _ _ _ => by omega, fun _ _ _ => rfl, by simp [carryMax], by simp [orderPart]⟩
  have kept := same (m + 20) (by omega) (by omega)
  have top := same (m + 32) (by omega) (by omega)
  have grown := abs_add_le x[m.val + 20] s.2
  have few := carryMax_le hD 20
  refine ⟨(s.1.set (m + 20) (x[m.val + 20] + s.2)).set (m + 32) 0, ?_, ?_, ?_, ?_, ?_, ?_⟩
  · unfold modLFold
    rw [bind_of_eq run, bind_of_eq (addAt_eq (by omega) (by rw [kept]; omega)), kept]
    rfl
  · intro j hj low high
    rw [Vector.getElem_set_ne _ _ (by omega), Vector.getElem_set_ne _ _ (by omega)]
    exact balanced j hj low high
  · rw [Vector.getElem_set_ne _ _ (by omega), Vector.getElem_set_self]
    omega
  · rw [Vector.getElem_set_self]
  · intro j hj outside ne
    rw [Vector.getElem_set_ne _ _ (by omega), Vector.getElem_set_ne _ _ (by omega)]
    exact same j hj (by omega)
  · have step : (256 : Int) ^ (m.val + 32) = 256 ^ 32 * 256 ^ m.val := by rw [add_comm, pow_add]
    rw [digits_set _ (by omega), digits_set _ (by omega), Vector.getElem_set_ne _ _ (by omega), top,
      kept, sixteen_order, step]
    linear_combination sum

/-! ## The second phase -/

/-- The value of the digits from digit `i` up. -/
def upper (x : Vector Int 64) (i : Nat) : Int :=
  ∑ j ∈ Finset.range (64 - i), x[i + j]?.getD 0 * 256 ^ j

theorem upper_eq (x : Vector Int 64) (hi : i < 64) : upper x i = x[i] + 256 * upper x (i + 1) := by
  unfold upper
  rw [show 64 - i = 64 - (i + 1) + 1 by omega, sum_range_succ', mul_sum, add_comm]
  congr 1
  · rw [add_zero, Vector.getElem?_eq_getElem hi, Option.getD_some, pow_zero, mul_one]
  · refine sum_congr rfl fun j _ => ?_
    rw [add_right_comm i 1 j, add_assoc i j 1, pow_succ]
    ring

theorem upper_set_lt (x : Vector Int 64) (hk : k < 64) (lt : k < i) (v : Int) :
    upper (x.set k v) i = upper x i := by
  refine sum_congr rfl fun j _ => ?_
  rw [Vector.getElem?_set_ne _ (by omega)]

theorem upper_set_self (x : Vector Int 64) (hk : k < 64) (v : Int) :
    upper (x.set k v) k = upper x k + (v - x[k]) := by
  rw [upper_eq _ hk, upper_eq x hk, upper_set_lt x hk (by omega), Vector.getElem_set_self]
  ring

theorem upper_zero (x : Vector Int 64) : upper x 0 = digits x := by
  unfold upper digits weigh
  rw [sum_range]
  refine sum_congr rfl fun i _ => ?_
  rw [zero_add, Vector.getElem?_eq_getElem (by omega)]
  rfl

theorem orderPart_whole : orderPart 32 = L := by decide

theorem modLTop_spec (small : ∀ i (hi : i < 32), |x[i]| ≤ (129 : Int)) :
    ∃ s : Vector Int 64 × Int, (List.finRange 32).foldlM modLTop (x, 0) = some s ∧
      (∀ i (hi : i < 32), (0 : Int) ≤ s.1[i] ∧ s.1[i] < 256) ∧
      (∀ i (hi : i < 64), 32 ≤ i → s.1[i] = x[i]) ∧
      digits s.1 + s.2 * (256 : Int) ^ 32 = digits x - (x[31] >>> (4 : Nat)) * L := by
  have top := abs_le.mp (small 31 (by decide))
  have quotient : |x[31] >>> (4 : Nat)| ≤ 9 := by
    rw [Int.shiftRight_eq_div_pow]
    exact abs_le.mpr (by omega)
  obtain ⟨s, run, done, rest, -, sum⟩ := countUp
    (fun j (s : Vector Int 64 × Int) =>
      (∀ i (hi : i < 64), i < j → (0 : Int) ≤ s.1[i] ∧ s.1[i] < 256) ∧
      (∀ i (hi : i < 64), j ≤ i → s.1[i] = x[i]) ∧ |s.2| ≤ 16 ∧
      digits s.1 + s.2 * (256 : Int) ^ j = digits x - (x[31] >>> (4 : Nat)) * orderPart j)
    (f := modLTop)
    (fun j s => by
      rintro ⟨done, rest, few, sum⟩
      have same31 := rest 31 (by decide) (by omega)
      have sameJ := rest j (by omega) le_rfl
      have here := abs_le.mp (small j j.isLt)
      have range := Lorder_range j
      have ⟨c0, c1⟩ := abs_le.mp few
      set q := x[31] >>> (4 : Nat) with hq
      have product : |q * Lorder[j.val]| ≤ 9 * 255 := by
        rw [abs_mul, abs_of_nonneg range.1]
        exact mul_le_mul quotient range.2 range.1 (by norm_num)
      have ⟨p0, p1⟩ := abs_le.mp product
      set v := x[j.val] + (s.2 - q * Lorder[j.val]) with hv
      have low := Int.emod_nonneg v (b := 2 ^ 8) (by norm_num)
      have high := Int.emod_lt_of_pos v (b := 2 ^ 8) (by norm_num)
      have parts : 256 * (v / 256) + v % 256 = v := Int.mul_ediv_add_emod v 256
      refine ⟨((s.1.set j v).set j (v % 2 ^ 8), v >>> (8 : Nat)), ?_, ?_, ?_, ?_, ?_⟩
      · unfold modLTop
        rw [same31, ← hq, bind_fit (by omega), bind_fit (abs_lt.mpr (by omega)),
          bind_of_eq (addAt_eq (by omega) (by rw [sameJ]; exact abs_lt.mpr (by omega))), sameJ,
          ← hv, Vector.getElem_set_self]
        rfl
      · intro i hi below
        rcases Nat.lt_or_eq_of_le (Nat.le_of_lt_succ below) with lt | rfl
        · rw [Vector.getElem_set_ne _ _ (by omega), Vector.getElem_set_ne _ _ (by omega)]
          exact done i hi lt
        · rw [Vector.getElem_set_self]
          exact ⟨low, high⟩
      · intro i hi above
        rw [Vector.getElem_set_ne _ _ (by omega), Vector.getElem_set_ne _ _ (by omega)]
        exact rest i hi (by omega)
      · rw [Int.shiftRight_eq_div_pow]
        exact abs_le.mpr (by omega)
      · rw [Vector.set_set, digits_set _ (by omega), sameJ, orderPart_succ j.isLt, pow_succ,
          Int.shiftRight_eq_div_pow]
        push_cast
        linear_combination sum + (256 : Int) ^ j.val * parts + (256 : Int) ^ j.val * hv)
    (b := (x, 0))
      ⟨fun i _ lt => absurd lt (by omega), fun i _ _ => rfl, by simp, by simp [orderPart]⟩
  refine ⟨s, run, fun i hi => done i (by omega) hi, rest, ?_⟩
  rw [sum, orderPart_whole]

/-! ## The last two phases -/

theorem modLFix_spec (hc : -1 ≤ c ∧ c ≤ 0)
    (bytes : ∀ i (hi : i < 32), (0 : Int) ≤ x[i] ∧ x[i] < 256) :
    ∃ x', (List.finRange 32).foldlM (modLFix c) x = some x' ∧
      (∀ i (hi : i < 32), (0 : Int) ≤ x'[i] ∧ x'[i] < 512) ∧
      (∀ i (hi : i < 64), 32 ≤ i → x'[i] = x[i]) ∧ digits x' = digits x - c * L := by
  obtain ⟨x', run, done, rest, sum⟩ := countUp
    (fun j (y : Vector Int 64) => (∀ i (hi : i < 64), i < j → (0 : Int) ≤ y[i] ∧ y[i] < 512) ∧
      (∀ i (hi : i < 64), j ≤ i → y[i] = x[i]) ∧ digits y = digits x - c * orderPart j)
    (f := modLFix c)
    (fun j y => by
      rintro ⟨done, rest, sum⟩
      have here := bytes j j.isLt
      have same := rest j (by omega) le_rfl
      have range := Lorder_range j
      have product : 0 ≤ -(c * Lorder[j.val]) ∧ -(c * Lorder[j.val]) ≤ 255 := by
        rcases (by omega : c = -1 ∨ c = 0) with rfl | rfl
        · rw [neg_one_mul, neg_neg]
          exact range
        · rw [zero_mul]
          decide
      refine ⟨y.set j (x[j.val] + -(c * Lorder[j.val])), ?_, ?_, ?_, ?_⟩
      · unfold modLFix
        rw [bind_fit (abs_lt.mpr (by omega)), addAt_eq (by omega) (abs_lt.mpr (by omega)), same]
      · intro i hi below
        rcases Nat.lt_or_eq_of_le (Nat.le_of_lt_succ below) with lt | rfl
        · rw [Vector.getElem_set_ne _ _ (by omega)]
          exact done i hi lt
        · rw [Vector.getElem_set_self]
          omega
      · intro i hi above
        rw [Vector.getElem_set_ne _ _ (by omega)]
        exact rest i hi (by omega)
      · rw [digits_set _ (by omega), same, orderPart_succ j.isLt, sum]
        ring)
    (b := x) ⟨fun i _ lt => absurd lt (by omega), fun i _ _ => rfl, by simp [orderPart]⟩
  refine ⟨x', run, fun i hi => done i (by omega) hi, rest, ?_⟩
  rw [sum, orderPart_whole]

theorem number_eq_sum (o : Vector UInt8 n) : number o = ∑ i :
    Fin n, (getElem o i i.isLt).toNat * 256 ^ i.val := by
  have list : ∀ (n : Nat) (f : Fin n → UInt8),
      ofLe (List.ofFn f) = ∑ i : Fin n, (f i).toNat * 256 ^ i.val := by
    intro n
    induction n with
    | zero => intro f; rfl
    | succ n ih =>
      intro f
      rw [List.ofFn_succ, Fin.sum_univ_succ]
      show (f 0).toNat + 256 * ofLe (List.ofFn fun i : Fin n => f i.succ) = _
      rw [ih, mul_sum, Fin.val_zero, pow_zero, mul_one]
      congr 1
      refine sum_congr rfl fun i _ => ?_
      rw [Fin.val_succ, pow_succ]
      ring
  have same : o.toList = List.ofFn fun i : Fin n => o[i] := by
    apply List.ext_getElem
    · simp
    · intro i h _
      simp
  rw [number, same, list]

theorem number_set (o : Vector UInt8 n) (hk : k < n) (b : UInt8) :
    (number (o.set k b) : Int) = number o + ((b.toNat : Int) - o[k].toNat) * 256 ^ k := by
  have whole : ∀ o : Vector UInt8 n, (number o : Int) = digits (o.map fun b => (b.toNat : Int)) :=
    fun o => by
    rw [number_eq_sum]
    simp [digits, weigh]
  rw [whole, whole, Vector.map_set, digits_set _ hk, Vector.getElem_map]

theorem modLWrite_spec (small : ∀ i (hi : i < 32), (0 : Int) ≤ x[i] ∧ x[i] < 512)
    (none : ∀ i (hi : i < 64), 32 ≤ i → x[i] = 0) :
    ∃ s : Vector Int 64 × Bytes32,
      (List.finRange 32).foldlM modLWrite (x, Vector.replicate 32 0) = some s ∧
      ∃ k, digits x = number s.2 + k * (256 : Int) ^ 32 := by
  obtain ⟨s, run, -, -, -, sum⟩ := countUp
    (fun i (s : Vector Int 64 × Bytes32) =>
      (∀ j (hj : j < 64), i < j → s.1[j] = x[j]) ∧
        (∀ hi : i < 64, (0 : Int) ≤ s.1[i] ∧ s.1[i] < 515) ∧
      (∀ j (hj : j < 32), i ≤ j → s.2[j] = 0) ∧
      digits x = number s.2 + upper s.1 i * (256 : Int) ^ i)
    (f := modLWrite)
    (fun i s => by
      rintro ⟨rest, here, clear, sum⟩
      have ⟨h0, h1⟩ := here (by omega)
      have after : (0 : Int) ≤ x[i.val + 1] ∧ x[i.val + 1] < 512 := by
        rcases Nat.lt_or_ge (i.val + 1) 32 with lt | ge
        · exact small _ lt
        · rw [none _ (by omega) ge]
          decide
      have same := rest (i + 1) (by omega) (by omega)
      have shift : s.1[i.val] >>> (8 : Nat) = s.1[i.val] / 256 := Int.shiftRight_eq_div_pow _ 8
      have byte : ((UInt8.ofInt s.1[i.val]).toNat : Int) = s.1[i.val] % 256 := by
        have := toNat_ofInt (x := s.1[i.val].toNat)
        rw [Int.toNat_of_nonneg h0] at this
        omega
      refine ⟨(s.1.set (i + 1) (x[i.val + 1] + s.1[i.val] / 256),
        s.2.set i (UInt8.ofInt s.1[i.val])), ?_, ?_, ?_, ?_, ?_⟩
      · unfold modLWrite
        rw [shift, bind_of_eq (addAt_eq (by omega) (by rw [same]; exact abs_lt.mpr (by omega))), same,
          Vector.getElem_set_ne _ _ (by omega)]
        rfl
      · intro j hj above
        rw [Vector.getElem_set_ne _ _ (by omega)]
        exact rest j hj (by omega)
      · intro hi
        rw [Vector.getElem_set_self]
        omega
      · intro j hj above
        rw [Vector.getElem_set_ne _ _ (by omega)]
        exact clear j hj (by omega)
      · have zero : s.2[i.val].toNat = 0 := by rw [clear i i.isLt le_rfl]; rfl
        have parts := Int.mul_ediv_add_emod s.1[i.val] 256
        rw [number_set _ i.isLt, byte, zero, upper_set_self _ (by omega), same, sum,
          upper_eq _ (by omega), pow_succ]
        linear_combination (-(256 : Int) ^ i.val) * parts)
    (b := (x, Vector.replicate 32 0))
    ⟨fun j _ _ => rfl, fun _ => by have := small 0 (by decide); dsimp only; omega,
      fun j hj _ => Vector.getElem_replicate hj, by
        rw [upper_zero, show number (Vector.replicate 32 0) = 0 by decide]
        simp⟩
  exact ⟨s, run, upper s.1 32, sum⟩

/-! ## The residue -/

/-- The most a digit is in what `modL` is given: in `edSign`, the larger. -/
def digitMax : Nat := 255 + 32 * 255 * 255

/-- The first phase, once the digits from `m + 32` up are folded. The twenty digits from `m` up are
balanced; those above them have taken one more carry, at most 1. -/
structure FoldedTo (x : Vector Int 64) (m : Nat) (y : Vector Int 64) : Prop where
  start : m = 32 → ∀ j (hj : j < 64), |y[j]| ≤ (digitMax : Int)
  low : ∀ j (hj : j < 64), j < m → |y[j]| ≤ (digitMax : Int)
  balanced : m < 32 → ∀ j (hj : j < 64), m ≤ j → j < m + 20 → |y[j]| ≤ (128 : Int)
  near : ∀ j (hj : j < 64), m + 20 ≤ j → j < 51 → |y[j]| ≤ (129 : Int)
  high : ∀ j (hj : j < 64), 51 ≤ j → |y[j]| ≤ (rawMax : Int)
  clear : ∀ j (hj : j < 64), m + 32 ≤ j → y[j] = 0
  residue : ∃ q, digits x = digits y + L * q

theorem FoldedTo.raw {m : Nat} (f : FoldedTo x m y) (hm : m ≤ 32) {j : Nat}
    (hj : j < 64) : |y[j]| ≤ (rawMax : Int) := by
  have max : digitMax = 2081055 := rfl
  have raw : rawMax = 4194304 := rfl
  rcases Nat.lt_or_eq_of_le hm with lt | e
  · rcases Nat.lt_or_ge j m with below | above
    · have := f.low j hj below
      omega
    rcases Nat.lt_or_ge j (m + 20) with inside | beyond
    · have := f.balanced lt j hj above inside
      omega
    rcases Nat.lt_or_ge j 51 with near | high
    · have := f.near j hj beyond near
      omega
    · exact f.high j hj high
  · have := f.start e j hj
    omega

theorem FoldedTo.step (f : FoldedTo x (m + 1) y) :
    ∃ y', modLFold y m = some y' ∧ FoldedTo x m y' := by
  have max : digitMax = 2081055 := rfl
  have raw : rawMax = 4194304 := rfl
  obtain ⟨q, res⟩ := f.residue
  -- the digits above the first are balanced, but for the very first fold
  obtain ⟨D, hD, rest, top⟩ : ∃ D : Nat, D ≤ rawMax ∧
      (∀ k (hk : k < 20), 0 < k → |y[m.val + k]| ≤ (D : Int)) ∧
      (m.val = 31 ∧ |y[m.val + 20]| + carryMax D 20 ≤ (rawMax : Int) ∨
        m.val < 31 ∧ |y[m.val + 20]| + carryMax D 20 ≤ (129 : Int)) := by
    rcases Nat.lt_or_ge m.val 31 with lt | ge
    · have few : carryMax 128 20 = 1 := by decide
      have := f.balanced (by omega) (m + 20) (by omega) (by omega) (by omega)
      exact ⟨128, by decide, fun k hk pos => f.balanced (by omega) _ (by omega) (by omega) (by omega),
        .inr ⟨lt, by omega⟩⟩
    · have few : carryMax rawMax 20 ≤ 2 ^ 15 := by decide
      have := f.start (by omega) (m + 20) (by omega)
      exact ⟨rawMax, le_rfl, fun k hk _ => f.raw (by omega) _, .inl ⟨by omega, by omega⟩⟩
  obtain ⟨y', run, balanced, grown, zero, same, sum⟩ := modLFold_spec hD (f.raw (by omega) _)
    (f.raw (by omega) _) rest (f.raw (by omega) _)
  have above : ∀ j (hj : j < 64), m.val + 20 < j → y'[j] = 0 ∨ y'[j] = y[j] := fun j hj high => by
    rcases eq_or_ne j (m.val + 32) with rfl | ne
    · exact .inl zero
    · exact .inr (same j hj (.inr high) ne)
  refine ⟨y', run, ⟨?_, ?_, ?_, ?_, ?_, ?_, q + 16 * y[m.val + 32] * 256 ^ m.val, ?_⟩⟩
  · intro e
    omega
  · intro j hj lt
    rw [same j hj (.inl lt) (by omega)]
    exact f.low j hj (by omega)
  · intro _ j hj low high
    exact balanced j hj low high
  · intro j hj low high
    rcases eq_or_ne j (m.val + 20) with rfl | ne
    · omega
    rcases above j hj (by omega) with e | e <;> rw [e]
    · decide
    · exact f.near j hj (by omega) high
  · intro j hj high
    rcases eq_or_ne j (m.val + 20) with rfl | ne
    · omega
    rcases above j hj (by omega) with e | e <;> rw [e]
    · decide
    · exact f.high j hj high
  · intro j hj high
    rcases eq_or_ne j (m.val + 32) with rfl | ne
    · exact zero
    · rw [same j hj (by omega) ne]
      exact f.clear j hj (by omega)
  · rw [res, sum]
    ring

theorem digits_bytes (bytes : ∀ i (hi : i < 32), (0 : Int) ≤ x[i] ∧ x[i] < 256)
    (clear : ∀ i (hi : i < 64), 32 ≤ i → x[i] = 0) : 0 ≤ digits x ∧ digits x < 256 ^ 32 := by
  have each : ∀ i : Fin 64, 0 ≤ x[i] * (256 : Int) ^ i.val ∧
      x[i] * (256 : Int) ^ i.val ≤ if i.val < 32 then 255 * 256 ^ i.val else 0 := by
    intro i
    rw [Fin.getElem_fin]
    split
    next low =>
      obtain ⟨h0, h1⟩ := bytes i low
      exact ⟨mul_nonneg h0 (by positivity), mul_le_mul_of_nonneg_right (by omega) (by positivity)⟩
    · rw [clear i i.isLt (by omega), zero_mul]
      exact ⟨le_rfl, le_rfl⟩
  have whole : digits x = ∑ i : Fin 64, x[i] * (256 : Int) ^ i.val := rfl
  rw [whole]
  refine ⟨sum_nonneg fun i _ => (each i).1, ?_⟩
  refine lt_of_le_of_lt (sum_le_sum fun i _ => (each i).2) ?_
  decide +kernel

theorem digits_near (small : ∀ i (hi : i < 32), |x[i]| ≤ (129 : Int))
    (clear : ∀ i (hi : i < 64), 32 ≤ i → x[i] = 0) :
    |digits x - x[31] * 256 ^ 31| ≤ 130 * 256 ^ 30 := by
  have low : digits x - x[31] * 256 ^ 31 = ∑ i : Fin 31, x[i.val] * (256 : Int) ^ i.val := by
    unfold digits weigh
    rw [Fin.sum_univ_add (b := 33), Fin.sum_univ_succ (n := 32)]
    have above : ∀ i : Fin 32, (x[(Fin.natAdd 31 i.succ).val] : Int) *
        256 ^ (Fin.natAdd 31 i.succ).val = 0 := by
      intro i
      rw [clear _ (by omega) (by rw [Fin.val_natAdd, Fin.val_succ]; omega), zero_mul]
    have rest : ∑ i : Fin 32, (x[(Fin.natAdd 31 i.succ).val] : Int) *
        256 ^ (Fin.natAdd 31 i.succ).val = 0 := sum_eq_zero fun i _ => above i
    simp only [Fin.getElem_fin, Int.cast_id] at rest ⊢
    rw [rest, add_zero]
    exact add_sub_cancel_right _ _
  have each : ∀ i : Fin 31, |x[i.val] * (256 : Int) ^ i.val| ≤ 129 * 256 ^ i.val := by
    intro i
    rw [abs_mul, abs_of_pos (by positivity : (0 : Int) < 256 ^ i.val)]
    exact mul_le_mul_of_nonneg_right (small i (by omega)) (by positivity)
  rw [low]
  refine (abs_sum_le_sum_abs _ _).trans ((sum_le_sum fun i _ => each i).trans ?_)
  decide +kernel

/-- `modL` writes the residue modulo the group order. -/
theorem modL_spec (hx : ∀ i (hi : i < 64), |x[i]| ≤ (digitMax : Int)) :
    ∃ r, modL x = some r ∧ (number r : Int) = digits x % L := by
  obtain ⟨x1, run1, f⟩ := countDown (FoldedTo x) (fun m y f => f.step)
    ⟨fun _ => hx, fun j hj _ => hx j hj, fun lt => absurd lt (by decide),
      fun j hj low high => by omega, fun j hj _ => (hx j hj).trans (by decide),
      fun j hj high => by omega, 0, by ring⟩
  obtain ⟨q, sum1⟩ := f.residue
  have small : ∀ i (hi : i < 32), |x1[i]| ≤ (129 : Int) := by
    intro i hi
    rcases Nat.lt_or_ge i 20 with low | high
    · exact (f.balanced (by decide) i (by omega) (by omega) (by omega)).trans (by decide)
    · exact f.near i (by omega) (by omega) (by omega)
  have clear : ∀ i (hi : i < 64), 32 ≤ i → x1[i] = 0 := fun i hi above => f.clear i hi (by omega)
  obtain ⟨s2, run2, bytes2, rest2, sum2⟩ := modLTop_spec small
  have clear2 : ∀ i (hi : i < 64), 32 ≤ i → s2.1[i] = 0 := fun i hi above =>
    (rest2 i hi above).trans (clear i hi above)
  have ⟨low2, high2⟩ := digits_bytes bytes2 clear2
  -- the multiple found from the top digit is at most one too large
  have near := abs_le.mp (digits_near small clear)
  have top := abs_le.mp (small 31 (by decide))
  have shift : x1[31] >>> (4 : Nat) = x1[31] / 16 := Int.shiftRight_eq_div_pow _ 4
  have order : (L : Int) = 2 ^ 252 + 27742317777372353535851937790883648493 := by decide
  have range : -(L : Int) ≤ digits x1 - x1[31] / 16 * L ∧ digits x1 - x1[31] / 16 * L < L := by
    rw [order]
    omega
  rw [shift] at sum2
  have one : -1 ≤ s2.2 ∧ s2.2 ≤ 0 := by
    omega
  obtain ⟨x3, run3, small3, rest3, sum3⟩ := modLFix_spec one bytes2
  obtain ⟨s4, run4, k, sum4⟩ := modLWrite_spec small3 fun i hi above =>
    (rest3 i hi above).trans (clear2 i hi above)
  have below : (number s4.2 : Int) < 256 ^ 32 := by exact_mod_cast number_lt s4.2
  have exact : (number s4.2 : Int) = digits x1 - x1[31] / 16 * L - s2.2 * L := by
    rw [order] at range sum2 sum3 ⊢
    omega
  refine ⟨s4.2, ?_, ?_⟩
  · unfold modL
    rw [bind_of_eq run1, bind_of_eq run2, bind_of_eq run3, bind_of_eq run4]
    rfl
  · have whole : digits x = number s4.2 + L * (x1[31] / 16 + s2.2 + q) := by
      rw [sum1, exact]
      ring
    have less : (number s4.2 : Int) < L := by
      rw [order] at range sum2 exact ⊢
      omega
    rw [whole, Int.add_mul_emod_self_left, Int.emod_eq_of_lt (Int.natCast_nonneg _) less]

end Nlos.Native
