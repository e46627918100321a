import Nlos.Lib.Bytes
import Nlos.Native.Reduction

/-!
# Encodings of field elements

`pack25519` writes the one representative below `p`, whatever the limbs are as long as they fit 32
bits; `unpack25519` reads 255 bits.

The multiple of `p` that `pack25519` takes off is a floor: running `q := (h i + q) >> width` over
the limbs divides `value h + q` by `2 ^ 255` (`quotient_chain`). Nineteen of the top limb, rounded,
is close enough to nineteen of the value for that floor to be the quotient by `p`
(`quotient_exact`).
-/

namespace Nlos.Native

open Checked Bytes

/-! ## The limbs below limb `i` -/

/-- The value of the limbs below limb `i`. -/
def part (h : Gf) (i : Nat) : Int := ∑ j ∈ Finset.range i, h[j]?.getD 0 * 2 ^ exponent j

@[simp] theorem part_zero (h : Gf) : part h 0 = 0 := rfl

theorem part_succ (h : Gf) (i : Fin 10) :
    part h (i + 1) = part h i + getElem h i i.isLt * 2 ^ exponent i := by
  unfold part
  rw [Finset.sum_range_succ, Vector.getElem?_eq_getElem i.isLt]
  rfl

theorem part_ten (h : Gf) : part h 10 = value h := by
  unfold part value weigh
  rw [Finset.sum_range]
  refine Finset.sum_congr rfl fun i _ => ?_
  rw [Vector.getElem?_eq_getElem i.isLt]
  rfl

/-! ## The quotient -/

variable {h : Gf} {q : Int} {k n x m off : Nat} {o : Bytes32}

/-- A division by `2 ^ 255` that goes limb by limb. -/
theorem quotient_chain (bound : Limbs (2 ^ 26) h) (hq : |q| ≤ 2 ^ 26) : (List.finRange 10).foldlM
      (fun q (i : Fin 10) => do
        let s ← int64 (h[i] + q)
        return s >>> FW i) q = some ((value h + q) / 2 ^ 255) := by
  obtain ⟨r, run, whole, -⟩ := countUp
    (fun i r => r = (part h i + q) / 2 ^ exponent i ∧ |r| ≤ 2 ^ 26)
    (f := fun q (i : Fin 10) => do
      let s ← int64 (h[i] + q)
      return s >>> FW i)
    (fun i r => by
      rintro ⟨hr, small⟩
      have limb := abs_le.mp (bound i)
      have ⟨lo, hi⟩ := abs_le.mp small
      refine ⟨(h[i] + r) >>> FW i, ?_, ?_, ?_⟩
      · rw [bind_fit (abs_lt.mpr (by omega))]
        rfl
      · have low : (part h i + q) / 2 ^ exponent i + h[i] =
            (part h i + q + h[i] * 2 ^ exponent i) / 2 ^ exponent i :=
          (Int.add_mul_ediv_right _ _ (by positivity)).symm
        rw [Int.shiftRight_eq_div_pow, hr, add_comm h[i], low, Int.ediv_ediv_of_nonneg (by positivity),
          Nat.cast_pow, Nat.cast_ofNat, ← pow_add, ← exponent_succ, part_succ]
        congr 1
        ring
      · rw [Int.shiftRight_eq_div_pow]
        rcases FW_cases i with e | e <;> rw [e, abs_le] <;> constructor <;> omega)
    ⟨by simp [exponent], hq⟩
  rw [run, whole, part_ten]
  rfl

/-- The quotient found from the top limb is the quotient by `p`. -/
theorem quotient_exact {V top c : Int} (hV : |V - top * 2 ^ 230| ≤ 2 ^ 230)
    (htop : |top| ≤ 2 ^ 24 + 2 ^ 10) (hc : c = (19 * top + 2 ^ 24) / 2 ^ 25) :
    0 ≤ V - P * ((V + c) / 2 ^ 255) ∧ V - P * ((V + c) / 2 ^ 255) < P := by
  have big : (P : Int) = 2 ^ 255 - 19 := by decide
  rw [big]
  rw [abs_le] at hV htop
  omega

/-! ## Limbs as bit fields -/

/-- Changing one limb changes the value by the difference at its weight. -/
theorem value_set (h : Gf) (hk : k < 10) (x : Int) :
    value (h.set k x) = value h + (x - h[k]) * 2 ^ exponent k := by
  rw [value, weigh_set _ _ hk]
  rfl

/-- The unsigned carry: nine limbs become bit fields, and the value stays. -/
theorem ripple_spec (bound : Limbs (2 ^ 26) h) :
    ∃ h', (List.finRange 9).foldlM ripple h = some h' ∧ value h' = value h ∧
      ∀ j : Fin 9, 0 ≤ getElem h' j.val (Nat.lt_succ_of_lt j.isLt) ∧
        getElem h' j.val (Nat.lt_succ_of_lt j.isLt) < 2 ^ FW j := by
  obtain ⟨h', run, same, fields, -, -⟩ := countUp
    (fun i g => value g = value h ∧ (∀ j (hj : j < 10), j < i → 0 ≤ g[j] ∧ g[j] < 2 ^ FW j) ∧
      (∀ j (hj : j < 10), i < j → |g[j]| ≤ 2 ^ 26) ∧ ∀ hi : i < 10, |g[i]| ≤ 2 ^ 27)
    (f := ripple)
    (fun i g => by
      rintro ⟨same, fields, beyond, here⟩
      have limb := abs_le.mp (here (by omega))
      have next := abs_le.mp (beyond (i + 1) (by omega) (by omega))
      have carried := Int.mul_ediv_add_emod g[i.val] (2 ^ FW i)
      have low := Int.emod_nonneg g[i.val] (b := 2 ^ FW i) (by positivity)
      have high := Int.emod_lt_of_pos g[i.val] (b := 2 ^ FW i) (by positivity)
      set c := g[i.val] / 2 ^ FW i with hc
      have few : |c| ≤ 8 := by
        rw [abs_le, hc]
        rcases FW_cases i with e | e <;> rw [e] <;> constructor <;> omega
      have wide : (2 : Int) ^ FW i ≤ 2 ^ 26 := by rcases FW_cases i with e | e <;> simp [e]
      rw [abs_le] at few
      have left : g[i.val] + -(c * 2 ^ FW i) = g[i.val] % 2 ^ FW i := by
        rw [mul_comm]
        omega
      refine ⟨(g.set (i + 1) (g[i.val + 1] + c)).set i (g[i.val] + -(c * 2 ^ FW i)), ?_, ?_, ?_, ?_, ?_⟩
      · unfold ripple
        rw [Int.shiftRight_eq_div_pow]
        push_cast
        rw [← hc, bind_of_eq (addAt_eq (by omega) (abs_lt.mpr (by omega))),
          Int.shiftLeft_eq, bind_fit (abs_lt.mpr (by omega)), addAt_eq (by omega) (by
            rw [Vector.getElem_set_ne _ _ (by omega), left]
            exact abs_lt.mpr (by omega))]
        rw [Vector.getElem_set_ne _ _ (by omega)]
      · rw [value_set _ (by omega), value_set _ (by omega), Vector.getElem_set_ne _ _ (by omega), same,
          exponent_succ, pow_add]
        ring
      · intro j hj below
        rcases Nat.lt_or_eq_of_le (Nat.le_of_lt_succ below) with lt | rfl
        · rw [Vector.getElem_set_ne _ _ (by omega), Vector.getElem_set_ne _ _ (by omega)]
          exact fields j hj lt
        · rw [Vector.getElem_set_self, left]
          exact ⟨low, high⟩
      · intro j hj above
        rw [Vector.getElem_set_ne _ _ (by omega), Vector.getElem_set_ne _ _ (by omega)]
        exact beyond j hj (by omega)
      · intro hi
        rw [Vector.getElem_set_ne _ _ (by omega), Vector.getElem_set_self, abs_le]
        constructor <;> omega)
    ⟨rfl, fun j _ lt => absurd lt (by omega), fun j hj _ => bound ⟨j, hj⟩, fun hi =>
      (bound ⟨0, hi⟩).trans (by norm_num)⟩
  exact ⟨h', run, same, fun j => fields j (by omega) j.isLt⟩

/-- With the last limb masked, the limbs are the bit fields of the value modulo `2 ^ 255`. -/
theorem mask_spec (fields : ∀ j : Fin 9, 0 ≤ getElem h j.val (Nat.lt_succ_of_lt j.isLt) ∧
      getElem h j.val (Nat.lt_succ_of_lt j.isLt) < 2 ^ FW j) :
    (∀ j : Fin 10, 0 ≤ getElem (h.set 9 (getElem h 9 last10 % 2 ^ 25) last10) j j.isLt ∧
      getElem (h.set 9 (getElem h 9 last10 % 2 ^ 25) last10) j j.isLt < 2 ^ FW j) ∧
      value h = value
      (h.set 9 (getElem h 9 last10 % 2 ^ 25) last10) + getElem h 9 last10 / 2 ^ 25 * 2 ^ 255 := by
  constructor
  · intro j
    rw [Fin.getElem_fin, Vector.getElem_set]
    split
    next last =>
      rw [← last]
      show 0 ≤ h[9] % 2 ^ 25 ∧ h[9] % 2 ^ 25 < 2 ^ 25
      constructor <;> omega
    · exact fields ⟨j, by omega⟩
  · have top : exponent 9 = 230 := rfl
    have parts := Int.mul_ediv_add_emod h[9] (2 ^ 25)
    rw [value_set _ (by omega), top]
    linear_combination (-2 ^ 230 : Int) * parts

/-! ## Bytes -/

def number {n : Nat} (o : Vector UInt8 n) : Nat := ofLe o.toList

theorem number_lt (o : Vector UInt8 n) : number o < 256 ^ n := by
  have := ofLe_lt o.toList
  rwa [Vector.length_toList] at this

theorem toNat_ofInt : (UInt8.ofInt (x : Int)).toNat = x % 256 := by
  unfold UInt8.ofInt
  rw [UInt8.toNat_ofNat']
  omega

theorem orAt_spec (hk : k < 32) (x : Nat) :
    ∃ o', orAt o k x = some o' ∧ number o' = number o ||| (x % 256) <<< (8 * k) := by
  unfold orAt
  rw [dif_pos hk]
  refine ⟨_, rfl, ?_⟩
  have inside : k < o.toList.length := by rw [Vector.length_toList]; exact hk
  have or := ofLe_set_or inside (UInt8.ofInt x)
  rw [toNat_ofInt, Vector.getElem_toList] at or
  rw [number, Vector.toList_set, or]
  rfl

theorem bytes_of_word (hx : x < 2 ^ 32) :
    x % 256 ||| (x >>> 8 % 256) <<< 8 ||| (x >>> 16 % 256) <<< 16 |||
      (x >>> 24 % 256) <<< 24 = x := by
  have glue : ∀ {a b i : Nat}, b < 2 ^ i → b ||| a <<< i = b + a * 2 ^ i := fun h => by
    rw [Nat.or_comm, ← Nat.shiftLeft_add_eq_or_of_lt h, Nat.shiftLeft_eq, Nat.add_comm]
  simp only [Nat.shiftRight_eq_div_pow]
  rw [glue (i := 8) (by omega), glue (i := 16) (by omega), glue (i := 24) (by omega)]
  omega

/-- A shifted limb is the four bytes that are or'ed in for it. -/
theorem bytes_of_shift {r : Nat} (hr : r < 8) (hx : x < 2 ^ (32 - r)) :
    (x <<< r % 256) <<< (8 * m) ||| (x >>> (8 - r) % 256) <<< (8 * (m + 1)) |||
      (x >>> (16 - r) % 256) <<< (8 * (m + 2)) ||| (x >>> (24 - r) % 256) <<< (8 * (m + 3)) =
      x <<< (8 * m + r) := by
  have small : x <<< r < 2 ^ 32 := by
    rw [Nat.shiftLeft_eq, show 32 = 32 - r + r by omega, pow_add]
    exact Nat.mul_lt_mul_of_pos_right hx (by positivity)
  have down : ∀ n, r ≤ n → x >>> (n - r) = x <<< r >>> n := fun n hn => by
    rw [← Nat.add_sub_cancel' hn, Nat.shiftRight_add, Nat.shiftLeft_shiftRight, Nat.add_sub_cancel_left]
  have up : ∀ a n : Nat, a <<< (8 * (m + n)) = a <<< (8 * n) <<< (8 * m) := fun a n => by
    rw [← Nat.shiftLeft_add, Nat.mul_add, Nat.add_comm]
  rw [down 8 (by omega), down 16 (by omega), down 24 (by omega), up, up, up, ← Nat.shiftLeft_or_distrib,
    ← Nat.shiftLeft_or_distrib, ← Nat.shiftLeft_or_distrib, bytes_of_word small,
      ← Nat.shiftLeft_add, Nat.add_comm r]

theorem place_spec (hoff : off / 8 + 3 < 32) (hx : x < 2 ^ (32 - off % 8)) :
    ∃ o', place o off x = some o' ∧ number o' = number o ||| x <<< off := by
  have left : (x : Int) <<< (off % 8) = ((x <<< (off % 8) : Nat) : Int) := rfl
  have right : ∀ n : Nat, (x : Int) >>> n = ((x >>> n : Nat) : Int) := fun n => rfl
  have eighth : off >>> 3 = off / 8 := Nat.shiftRight_eq_div_pow off 3
  have fits : |((x <<< (off % 8) : Nat) : Int)| < 2 ^ 63 := by
    rw [abs_of_nonneg (Int.natCast_nonneg _), Nat.shiftLeft_eq]
    have step : x * 2 ^ (off % 8) < 2 ^ (32 - off % 8) * 2 ^ (off % 8) :=
      Nat.mul_lt_mul_of_pos_right hx (by positivity)
    rw [← pow_add, Nat.sub_add_cancel (by omega)] at step
    exact_mod_cast step.trans (by decide)
  unfold place int64
  simp only [eighth, left, right, bind_fit fits]
  obtain ⟨o0, run0, num0⟩ := orAt_spec (o := o) (k := off / 8) (by omega) (x <<< (off % 8))
  obtain ⟨o1, run1, num1⟩ := orAt_spec (o := o0) (k := off / 8 + 1) (by omega) (x >>> (8 - off % 8))
  obtain ⟨o2, run2, num2⟩ :=
    orAt_spec (o := o1) (k := off / 8 + 2) (by omega) (x >>> (16 - off % 8))
  obtain ⟨o3, run3, num3⟩ := orAt_spec (o := o2) hoff (x >>> (24 - off % 8))
  refine ⟨o3, ?_, ?_⟩
  · simp only [run0, run1, run2, run3, Option.bind_eq_bind, Option.bind_some]
  · have whole := bytes_of_shift (m := off / 8) (Nat.mod_lt off (by decide)) hx
    rw [Nat.div_add_mod] at whole
    rw [num3, num2, num1, num0, ← whole]
    simp only [Nat.or_assoc]

/-- Ten bit fields, written out, are their value. -/
theorem writeFields_spec
    (fields : ∀ j : Fin 10, 0 ≤ getElem h j j.isLt ∧ getElem h j j.isLt < 2 ^ FW j) :
    ∃ o, writeFields h = some o ∧ (number o : Int) = value h ∧ number o < 2 ^ 255 := by
  have room : ∀ i : Fin 10, exponent i / 8 + 3 < 32 ∧ FW i ≤ 32 - exponent i % 8 := by decide
  have empty : number (Vector.replicate 32 0) = 0 := by decide
  obtain ⟨r, run, off, num, small⟩ := countUp
    (fun i (r : Bytes32 × Nat) => r.2 = exponent i ∧ (number r.1 : Int) = part h i ∧
      number r.1 < 2 ^ exponent i)
    (f := fun r (i : Fin 10) => do
      let o ← place r.1 r.2 h[i]
      return (o, r.2 + FW i))
    (fun i r => by
      rintro ⟨off, num, small⟩
      obtain ⟨x, hx⟩ : ∃ x : Nat, h[i] = x := ⟨h[i].toNat, by have := (fields i).1; omega⟩
      have field : x < 2 ^ FW i := by
        have := (fields i).2
        rw [hx] at this
        exact_mod_cast this
      obtain ⟨o, run, or⟩ := place_spec (room i).1
        (Nat.lt_of_lt_of_le field (Nat.pow_le_pow_right (by decide) (room i).2))
      have sum : number o = x * 2 ^ exponent i + number r.1 := by
        rw [or, Nat.or_comm, ← Nat.shiftLeft_add_eq_or_of_lt small, Nat.shiftLeft_eq]
      refine ⟨(o, exponent (i + 1)), ?_, rfl, ?_, ?_⟩
      · rw [hx, off, run, exponent_succ]
        rfl
      · rw [part_succ, hx, ← num]
        rw [sum]
        push_cast
        ring
      · rw [sum, exponent_succ, pow_add]
        calc x * 2 ^ exponent i + number r.1 < x * 2 ^ exponent i + 1 * 2 ^ exponent i := by omega
          _ = (x + 1) * 2 ^ exponent i := by ring
          _ ≤ 2 ^ FW i * 2 ^ exponent i := Nat.mul_le_mul_right _ field
          _ = 2 ^ exponent i * 2 ^ FW i := Nat.mul_comm _ _)
    (b := (Vector.replicate 32 0, 0)) ⟨rfl, by rw [empty]; rfl, by rw [empty]; decide⟩
  refine ⟨r.1, ?_, num.trans (part_ten h), small⟩
  unfold writeFields
  rw [run]
  rfl

/-! ## The whole encoding -/

/-- The bounds of an element after the two carry chains of `pack25519`. -/
def settled : Vector Nat 10 :=
  FCARRY.foldl carried (FCARRY.foldl carried (Vector.replicate 10 (2 ^ 31)))

theorem settled_le : ∀ i : Fin 10, getElem settled i i.isLt ≤ 2 ^ 25 := by decide +kernel

theorem settled_top : settled[(9 : Fin 10)] ≤ 2 ^ 24 + 2 ^ 10 := by decide +kernel

/-- An element that the chains have settled: small limbs, and a top limb next to the value. -/
structure Settled (h : Gf) : Prop where
  limbs : Limbs (2 ^ 25) h
  top : |getElem h 9 last10| ≤ 2 ^ 24 + 2 ^ 10
  near : |value h - getElem h 9 last10 * 2 ^ 230| ≤ 2 ^ 230

theorem Settled.of_within (within : Within settled h) : Settled h := by
  have limbs : Limbs (2 ^ 25) h := by
    intro i
    have := within i
    have := settled_le i
    omega
  refine ⟨limbs, ?_, ?_⟩
  · have bound : |h[9]| ≤ settled[(9 : Fin 10)] := within 9
    have := settled_top
    omega
  · have low : value h - h[9] * 2 ^ 230 = ∑ i : Fin 9, h[i.castSucc] * 2 ^ exponent i := by
      rw [value, weigh, Fin.sum_univ_castSucc]
      exact add_sub_cancel_right _ _
    have each : ∀ i : Fin 9, |h[i.castSucc] * 2 ^ exponent i| ≤ 2 ^ 25 * 2 ^ exponent i := by
      intro i
      rw [abs_mul, abs_of_pos (by positivity : (0 : Int) < 2 ^ exponent i)]
      exact mul_le_mul_of_nonneg_right (limbs _) (by positivity)
    rw [low]
    refine (Finset.abs_sum_le_sum_abs _ _).trans ?_
    exact (Finset.sum_le_sum fun i _ => each i).trans (by decide +kernel)

theorem quotient_spec (s : Settled h) :
    ∃ q, quotient h = some q ∧ |q| ≤ 1 ∧ 0 ≤ value h - P * q ∧ value h - P * q < P := by
  have top := abs_le.mp s.top
  have near := abs_le.mp s.near
  set c := (19 * h[9] + 2 ^ 24) / 2 ^ 25 with hc
  have chain := quotient_chain (s.limbs.mono (by norm_num)) (q := c) (abs_le.mpr (by omega))
  have exact := quotient_exact s.near s.top hc
  have big : (P : Int) = 2 ^ 255 - 19 := by decide
  refine ⟨(value h + c) / 2 ^ 255, ?_, ?_, exact⟩
  · unfold quotient
    rw [bind_of_eq (mul19_eq (abs_lt.mpr (by omega))), bind_fit (abs_lt.mpr (by omega)),
      Int.shiftRight_eq_div_pow]
    exact chain
  · exact abs_le.mpr (by omega)

theorem bitFields_spec (limbs : Limbs (2 ^ 25) h) (hq : |q| ≤ 1) :
    ∃ g, bitFields h q = some g ∧ (∀ j : Fin 10, 0 ≤ g[j] ∧ g[j] < 2 ^ FW j) ∧
      ∃ k, value h + 19 * q = value g + k * 2 ^ 255 := by
  rw [abs_le] at hq
  have first : |h[0]| ≤ (2 ^ 25 : Nat) := limbs 0
  have zeroth := abs_le.mp first
  have limbs' : Limbs (2 ^ 26) (h.set 0 (h[0] + 19 * q)) := by
    intro i
    rw [Fin.getElem_fin, Vector.getElem_set]
    split
    · exact abs_le.mpr (by omega)
    · exact (limbs i).trans (by norm_num)
  obtain ⟨g, run, same, fields⟩ := ripple_spec limbs'
  obtain ⟨fields', masked⟩ := mask_spec fields
  refine ⟨g.set 9 (g[9] % 2 ^ 25), ?_, fields', g[9] / 2 ^ 25, ?_⟩
  · unfold bitFields
    rw [bind_of_eq (mul19_eq (abs_lt.mpr (by omega))),
      bind_of_eq (addAt_eq (by omega) (abs_lt.mpr (by omega))), bind_of_eq run]
    rfl
  · rw [value_set _ (by omega)] at same
    rw [← masked, same]
    simp [exponent]

/-- Every element with 32-bit limbs is written as the number below `p` that it stands for. -/
theorem pack25519_spec {n : Gf} (hn : Limbs (2 ^ 31) n) :
    ∃ o, pack25519 n = some o ∧ number o < P ∧ (number o : ZMod P) = val n := by
  have start : Within (Vector.replicate 10 (2 ^ 31)) n := by
    intro i
    rw [Fin.getElem_fin (Vector.replicate 10 (2 ^ 31)), Vector.getElem_replicate]
    exact hn i
  obtain ⟨h1, run1, within1, val1⟩ := chain_spec (l := FCARRY) start (by decide +kernel)
  obtain ⟨h2, run2, within2, val2⟩ := chain_spec (l := FCARRY) within1 (by decide +kernel)
  have calm := Settled.of_within within2
  obtain ⟨q, run3, one, low, high⟩ := quotient_spec calm
  obtain ⟨g, run4, fields, k, wraps⟩ := bitFields_spec calm.limbs one
  obtain ⟨o, run5, num, small⟩ := writeFields_spec fields
  have big : (P : Int) = 2 ^ 255 - 19 := by decide
  have total : (number o : Int) = value h2 - P * q := by
    rw [big] at low high ⊢
    omega
  refine ⟨o, ?_, by omega, ?_⟩
  · unfold pack25519 fcarry
    rw [bind_of_eq run1, bind_of_eq run2, bind_of_eq run3, bind_of_eq run4]
    exact run5
  · have cast := congrArg (Int.cast : Int → ZMod P) total
    push_cast at cast
    rw [cast_value, ZMod.natCast_self, zero_mul, sub_zero, val2, val1] at cast
    exact cast

/-! ## Decoding -/

theorem testBit_number (o : Vector UInt8 n) {i : Nat} (hi : i / 8 < n) :
    (number o).testBit i = o[i / 8].toNat.testBit (i % 8) := by
  rw [number, testBit_ofLe, List.getD_eq_getElem?_getD, Vector.getElem?_toList,
    Vector.getElem?_eq_getElem hi, Option.getD_some]

theorem byte_eq (o : Vector UInt8 n) (hk : k < n) : o[k].toNat = number o >>> (8 * k) % 256 := by
  refine Nat.eq_of_testBit_eq fun i => ?_
  rw [show 256 = 2 ^ 8 from rfl, Nat.testBit_mod_two_pow, Nat.testBit_shiftRight]
  by_cases hi : i < 8
  · have here : (8 * k + i) / 8 = k := by omega
    have bit := testBit_number o (i := 8 * k + i) (by omega)
    simp only [here, Nat.mul_add_mod, Nat.mod_eq_of_lt hi] at bit
    rw [bit, decide_eq_true hi, Bool.true_and]
  · rw [decide_eq_false hi, Bool.false_and]
    exact Nat.testBit_lt_two_pow
      (Nat.lt_of_lt_of_le o[k].toNat_lt (Nat.pow_le_pow_right (by decide) (by omega)))

theorem word_eq (s : Bytes32) (hm : m + 3 < 32) :
    s[m].toNat ||| s[m + 1].toNat <<< 8 ||| s[m + 2].toNat <<< 16 |||
      s[m + 3].toNat <<< 24 = number s >>> (8 * m) % 2 ^ 32 := by
  have byte : ∀ (a : Nat) (ha : m + a < 32), a < 4 →
      s[m + a].toNat = (number s >>> (8 * m) % 2 ^ 32) >>> (8 * a) % 256 := fun a ha h4 => by
    rw [byte_eq s ha, Nat.mul_add, Nat.shiftRight_add]
    generalize number s >>> (8 * m) = x
    simp only [Nat.shiftRight_eq_div_pow]
    obtain rfl | rfl | rfl | rfl : a = 0 ∨ a = 1 ∨ a = 2 ∨ a = 3 := by omega
    all_goals omega
  have word := bytes_of_word (x := number s >>> (8 * m) % 2 ^ 32) (Nat.mod_lt _ (by decide))
  rw [← word, byte 1 (by omega) (by decide), byte 2 (by omega) (by decide), byte 3 hm (by decide)]
  congr 3
  exact byte 0 (by omega) (by decide)

theorem window_spec (s : Bytes32) {w : Nat} (hoff : off / 8 + 3 < 32) (hw : w + off % 8 ≤ 32) :
    window s off w = some ((number s >>> off % 2 ^ w : Nat) : Int) := by
  have eighth : off >>> 3 = off / 8 := Nat.shiftRight_eq_div_pow off 3
  unfold window
  simp only [eighth]
  rw [dif_pos hoff]
  congr 2
  refine Nat.eq_of_testBit_eq fun j => ?_
  rw [Nat.and_two_pow_sub_one_eq_mod, Nat.testBit_mod_two_pow, Nat.testBit_mod_two_pow]
  by_cases inside : j < w
  · rw [word_eq s hoff, Nat.testBit_shiftRight, Nat.testBit_mod_two_pow,
      decide_eq_true (show off % 8 + j < 32 by omega),
      Bool.true_and, Nat.testBit_shiftRight, Nat.testBit_shiftRight, ← add_assoc, Nat.div_add_mod]
  · simp [inside]

theorem offset_eq (i : Nat) : offset i = exponent i := by
  induction i with
  | zero => rfl
  | succ i ih =>
    rw [exponent_succ, ← ih]
    unfold offset
    rw [List.range_succ, List.map_append, List.sum_append]
    rfl

/-- The top bit is not part of a coordinate. -/
theorem number_mask (n : Bytes32) :
    number (n.set 31 (getElem n 31 last32 &&& 0x7f) last32) = number n % 2 ^ 255 := by
  refine Nat.eq_of_testBit_eq fun i => ?_
  rw [Nat.testBit_mod_two_pow]
  rcases Nat.lt_or_ge (i / 8) 32 with inside | outside
  · rw [testBit_number _ inside, testBit_number _ inside, Vector.getElem_set]
    split
    next last =>
      have mask : (n[31] &&& 0x7f).toNat = n[31].toNat % 2 ^ 7 := by
        rw [UInt8.toNat_and, ← Nat.and_two_pow_sub_one_eq_mod]
        rfl
      simp only [← last, mask, Nat.testBit_mod_two_pow]
      congr 1
      exact decide_eq_decide.mpr (by omega)
    · rw [decide_eq_true (by omega), Bool.true_and]
  · have beyond : ∀ o : Bytes32, (number o).testBit i = false := fun o =>
      Nat.testBit_lt_two_pow (Nat.lt_of_lt_of_le (number_lt o)
        (Nat.pow_le_pow_right (by decide) outside |>.trans (by
          rw [show 256 = 2 ^ 8 from rfl, ← Nat.pow_mul]
          exact Nat.pow_le_pow_right (by decide) (by omega))))
    rw [beyond, beyond, Bool.and_false]

/-- Thirty-two bytes are read as the 255-bit number they hold. -/
theorem unpack25519_spec (n : Bytes32) : ∃ o, unpack25519 n = some o ∧ Limbs (2 ^ 25) o ∧
      val o = ((number n % 2 ^ 255 : Nat) : ZMod P) := by
  have room : ∀ i : Fin 10, exponent i / 8 + 3 < 32 ∧ FW i + exponent i % 8 ≤ 32 := by decide
  set N := number n % 2 ^ 255 with hN
  have read : ∀ i : Fin 10, window (n.set 31 (n[31] &&& 0x7f)) (offset i) (FW i) =
      some ((N >>> exponent i % 2 ^ FW i : Nat) : Int) := by
    intro i
    rw [offset_eq, window_spec _ (room i).1 (room i).2, number_mask]
  set h : Gf := Vector.ofFn fun i : Fin 10 => ((N >>> exponent i % 2 ^ FW i : Nat) : Int) with hh
  have limb : ∀ i : Fin 10, h[i] = ((N >>> exponent i % 2 ^ FW i : Nat) : Int) := by
    intro i
    rw [hh, Fin.getElem_fin, Vector.getElem_ofFn]
  have within : Within (Vector.replicate 10 (2 ^ 26)) h := by
    intro i
    have small : N >>> exponent i % 2 ^ FW i < 2 ^ FW i := Nat.mod_lt _ (by positivity)
    have wide : 2 ^ FW i ≤ 2 ^ 26 := by rcases FW_cases i with e | e <;> simp [e]
    rw [limb, Fin.getElem_fin (Vector.replicate 10 (2 ^ 26)), Vector.getElem_replicate,
      abs_of_nonneg (Int.natCast_nonneg _)]
    exact_mod_cast (small.le.trans wide)
  -- the windows are consecutive digits
  have digits : ∀ i, i ≤ 10 → part h i = (N % 2 ^ exponent i : Nat) := by
    intro i hi
    induction i with
    | zero => rw [part_zero, show exponent 0 = 0 from rfl, pow_zero, Nat.mod_one]; rfl
    | succ i ih =>
      rw [part_succ h ⟨i, hi⟩, ih (by omega), limb, exponent_succ, pow_add, Nat.mod_mul,
        Nat.shiftRight_eq_div_pow]
      push_cast
      ring
  have whole : value h = (N : Int) := by
    have small : N < 2 ^ 255 := Nat.mod_lt _ (by positivity)
    rw [← part_ten, digits 10 le_rfl, show exponent 10 = 255 from rfl, Nat.mod_eq_of_lt small]
  obtain ⟨o, run, limbs, same⟩ := fstore_spec within (by decide +kernel) (by decide +kernel)
  refine ⟨o, ?_, limbs, ?_⟩
  · unfold unpack25519
    rw [bind_of_eq (collect_eq read)]
    exact run
  · rw [same, ← cast_value, whole]
    rfl

end Nlos.Native
