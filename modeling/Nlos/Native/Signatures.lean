import Nlos.Native.Points

/-!
# The signature routines over the field

Key generation, signing and verification return on every input, whatever the hash, and compute what
the formulas over the field give. Nothing here says that the field's formulas are the group's: a
signature is checked against the ladder that `Ext.scalarmult` is.
-/

namespace Nlos.Native

open Checked Bytes Finset

/-! ## Scalars from bytes -/

variable {n k : Nat}

theorem digits_ofFn (f : Fin n → Int) :
    digits (Vector.ofFn f) = ∑ i : Fin n, f i * 256 ^ i.val := by
  unfold digits weigh
  refine sum_congr rfl fun i _ => ?_
  rw [Fin.getElem_fin, Vector.getElem_ofFn]
  rfl

theorem digits_low {m : Nat} (f : Fin n → Int) :
    digits (Vector.ofFn fun i : Fin (n + m) => if h : i.val < n then f ⟨i, h⟩ else 0) =
      ∑ i : Fin n, f i * 256 ^ i.val := by
  rw [digits_ofFn, Fin.sum_univ_add]
  simp

theorem digits_number (r : Vector UInt8 n) :
    ∑ i : Fin n, ((getElem r i i.isLt).toNat : Int) * 256 ^ i.val = number r := by
  rw [number_eq_sum]
  push_cast
  rfl

theorem digits_whole (r : Vector UInt8 64) :
    digits (Vector.ofFn fun i : Fin 64 => (r[i].toNat : Int)) = number r := by
  rw [digits_ofFn]
  exact digits_number r

theorem byte_abs (b : UInt8) : |(b.toNat : Int)| ≤ 255 := by
  have := b.toNat_lt
  rw [abs_of_nonneg (Int.natCast_nonneg _)]
  omega

theorem toList_eq_le (o : Bytes32) : o.toList = le 32 (number o) := by
  have := le_ofLe o.toList
  rw [Vector.length_toList] at this
  exact this.symm

theorem reduce_eq (r : Vector UInt8 64) : ∃ o, reduce r = some o ∧ number o = number r % L := by
  obtain ⟨o, run, num⟩ := modL_spec (x := Vector.ofFn fun i : Fin 64 => (r[i].toNat : Int))
    (fun i hi => by
      rw [Vector.getElem_ofFn]
      exact (byte_abs _).trans (by decide))
  refine ⟨o, run, ?_⟩
  rw [digits_whole] at num
  exact_mod_cast num

/-! ## The scalar of a signature -/

/-- The digit a product of two bytes lands on. -/
def byteSlot (ij : Fin 32 × Fin 32) : Nat := ij.1.val + ij.2.val

/-- Each byte of the first scalar has at most one partner for a digit. -/
theorem tally_byteSlot (k : Nat) :
    tally byteSlot (fun _ => 1) (List.finRange 32 ×ˢ List.finRange 32) k ≤ 32 := by
  have row : ∀ i : Fin 32, (∑ j : Fin 32, if byteSlot (i, j) = k then 1 else 0) ≤ 1 := by
    intro i
    rw [sum_boole]
    refine card_le_one.mpr fun j hj j' hj' => Fin.ext ?_
    have := (mem_filter.mp hj).2
    have := (mem_filter.mp hj').2
    unfold byteSlot at *
    dsimp only at *
    omega
  unfold tally
  rw [sum_map_product, ← Fin.sum_univ_def]
  calc ∑ i : Fin 32, ((List.finRange 32).map fun j => if byteSlot (i, j) = k then 1 else 0).sum
      = ∑ i : Fin 32, ∑ j : Fin 32, if byteSlot (i, j) = k then 1 else 0 :=
        sum_congr rfl fun i _ => (Fin.sum_univ_def _).symm
    _ ≤ ∑ _i : Fin 32, 1 := sum_le_sum fun i _ => row i
    _ = 32 := by simp

theorem signDigits_spec (r h d : Bytes32) :
    ∃ x, signDigits r h d = some x ∧ (∀ i (hi : i < 64), |x[i]| ≤ (digitMax : Int)) ∧
      digits x = number r + number h * number d := by
  set t0 : Vector Int 64 :=
    Vector.ofFn fun i : Fin 64 => if h : i.val < 32 then (r[i.val].toNat : Int) else 0 with ht0
  have term : ∀ ij : Fin 32 × Fin 32,
      |(h[ij.1].toNat : Int) * d[ij.2].toNat| ≤ (1 * (255 * 255) : Nat) := by
    intro ij
    rw [abs_mul]
    exact mul_le_mul (byte_abs _) (byte_abs _) (abs_nonneg _) (by norm_num)
  have first : ∀ k (hk : k < 64), |t0[k]| ≤ (255 : Int) := by
    intro k hk
    rw [ht0, Vector.getElem_ofFn]
    split
    · exact byte_abs _
    · norm_num
  have most : ∀ k (hk : k < 64),
      |t0[k]| + load byteSlot (fun ij => (h[ij.1].toNat : Int) * d[ij.2].toNat)
        (List.finRange 32 ×ˢ List.finRange 32) k ≤ (digitMax : Int) := by
    intro k hk
    have max : digitMax = 255 + 32 * (255 * 255) := rfl
    have := first k hk
    have := load_le_tally byteSlot (l := List.finRange 32 ×ˢ List.finRange 32)
      (fun x _ => term x) k
    have := tally_byteSlot k
    omega
  have room : (digitMax : Int) < 2 ^ 63 := by decide
  obtain ⟨x, run, -, sum, bound⟩ := accumulate (fun j => (256 : Int) ^ j) byteSlot
    (fun ij : Fin 32 × Fin 32 => (h[ij.1].toNat : Int) * d[ij.2].toNat)
    (fun _ ij => int64 ((h[ij.1].toNat : Int) * d[ij.2].toNat))
    (fun _ => True) (List.finRange 32 ×ˢ List.finRange 32) (fun _ _ _ _ _ _ => trivial)
    (fun _ ij _ _ => fit_of_abs ((term ij).trans_lt (by norm_num)))
    (fun ij _ => by unfold byteSlot; omega) t0 trivial
    (fun k hk => (most k hk).trans_lt room)
  refine ⟨x, run, fun i hi => (bound i hi).trans (most i hi), ?_⟩
  have product : ((List.finRange 32 ×ˢ List.finRange 32).map fun ij : Fin 32 × Fin 32 =>
      (((h[ij.1].toNat : Int) * d[ij.2].toNat : Int) : Int) * 256 ^ byteSlot ij).sum =
      number h * number d := by
    rw [sum_map_product, ← Fin.sum_univ_def, ← digits_number h, ← digits_number d,
      sum_mul_sum]
    refine sum_congr rfl fun i _ => ?_
    rw [← Fin.sum_univ_def]
    refine sum_congr rfl fun j _ => ?_
    unfold byteSlot
    ring
  have start : weigh (fun j => (256 : Int) ^ j) t0 = number r := by
    rw [← digits_number]
    exact digits_low (m := 32) fun i : Fin 32 => (r[i].toNat : Int)
  rw [digits, sum, start]
  exact congrArg _ product

/-- From digits of at most `32 * 255 * 255 + 255` each, `modL` returns and writes the bytes of the
one number below the group order that is congruent to them. The bytes of a hash are such digits, and
so is what `edSign` adds up. -/
theorem modL_exact :
    (∀ x : Vector Int 64, (∀ i : Fin 64, 0 ≤ x[i] ∧ x[i] ≤ 32 * 255 * 255 + 255) →
      ∃ r v, modL x = some r ∧ r.toList = le 32 v ∧
        ∀ v' : Nat, (v' < L ∧ (v' : Int) ≡ ∑ i : Fin 64, x[i] * 256 ^ i.val [ZMOD L]) ↔ v' = v) ∧
    (∀ r : Vector UInt8 64, ∃ o, reduce r = some o ∧ number o = number r % L) ∧
    ∀ r h d : Bytes32, ∃ x s, signDigits r h d = some x ∧ modL x = some s ∧
      number s = (number r + number h * number d) % L := by
  refine ⟨fun x hx => ?_, reduce_eq, fun r h d => ?_⟩
  · obtain ⟨r, run, num⟩ := modL_spec (x := x) fun i hi => by
      obtain ⟨low, high⟩ := hx ⟨i, hi⟩
      exact abs_le.mpr ⟨(by decide : -(digitMax : Int) ≤ 0).trans low, high⟩
    refine ⟨r, number r, run, toList_eq_le r, fun v => ⟨?_, ?_⟩⟩
    · rintro ⟨less, same⟩
      have residue : (v : Int) % L = number r := Eq.trans same num.symm
      rw [Int.emod_eq_of_lt (Int.natCast_nonneg v) (Nat.cast_lt.mpr less)] at residue
      exact_mod_cast residue
    · rintro rfl
      refine ⟨?_, ?_⟩
      · exact_mod_cast num.trans_lt (Int.emod_lt_of_pos _ (by decide))
      · rw [num]
        exact Int.mod_modEq _ _
  · obtain ⟨x, run, small, sum⟩ := signDigits_spec r h d
    obtain ⟨s, run', num⟩ := modL_spec small
    rw [sum] at num
    exact ⟨x, s, run, run', by exact_mod_cast num⟩

/-- A hash of ones. -/
theorem modL_exact_ones :
    ∃ r v, modL (Vector.replicate 64 255) = some r ∧ r.toList = le 32 v ∧ v < L := by
  obtain ⟨r, v, run, bytes, only⟩ := modL_exact.1 (Vector.replicate 64 255) (by decide)
  exact ⟨r, v, run, bytes, ((only v).mpr rfl).1⟩

/-! ## The order check -/

def lowBytes (s : Bytes32) (k : Nat) : Int := ∑ j ∈ Finset.range k, (s[j]?.getD 0).toNat * 256 ^ j

theorem lowBytes_succ (s : Bytes32) (hk : k < 32) :
    lowBytes s (k + 1) = lowBytes s k + s[k].toNat * 256 ^ k := by
  unfold lowBytes
  rw [sum_range_succ, Vector.getElem?_eq_getElem hk]
  rfl

theorem sum_bytes_lt {f : Nat → Int} (byte : ∀ j < k, 0 ≤ f j ∧ f j ≤ 255) :
    0 ≤ ∑ j ∈ Finset.range k, f j * 256 ^ j ∧ ∑ j ∈ Finset.range k, f j * 256 ^ j < 256 ^ k := by
  induction k with
  | zero => norm_num
  | succ k ih =>
    obtain ⟨low, high⟩ := ih fun j hj => byte j (by omega)
    obtain ⟨nonneg, most⟩ := byte k (by omega)
    rw [sum_range_succ, pow_succ]
    constructor
    · positivity
    · nlinarith

theorem lowBytes_lt (s : Bytes32) (k : Nat) : 0 ≤ lowBytes s k ∧ lowBytes s k < 256 ^ k :=
  sum_bytes_lt fun j _ => ⟨Int.natCast_nonneg _, by have := (s[j]?.getD 0).toNat_lt; omega⟩

theorem orderPart_lt (hk : k ≤ 32) : 0 ≤ orderPart k ∧ orderPart k < 256 ^ k :=
  sum_bytes_lt fun j hj => by
    rw [Vector.getElem?_eq_getElem (by omega)]
    exact Lorder_range ⟨j, by omega⟩

/-- The comparison from byte `k` down is the comparison of the numbers below. -/
theorem canonical_below (s : Bytes32) (hk : k ≤ 32) :
    canonical s ((List.finRange k).map (Fin.castLE hk)).reverse =
      decide (lowBytes s k < orderPart k) := by
  induction k with
  | zero => rfl
  | succ k ih =>
    have lt : k < 32 := hk
    have rest := ih (by omega)
    obtain ⟨low, high⟩ := lowBytes_lt s k
    obtain ⟨low', high'⟩ := orderPart_lt (k := k) (by omega)
    rw [List.finRange_succ_last, List.map_append, List.reverse_append, List.map_map]
    show (if (s[k].toNat : Int) > Lorder[k] then false
      else if (s[k].toNat : Int) < Lorder[k] then true
      else canonical s ((List.finRange k).map (Fin.castLE (by omega))).reverse) = _
    rw [rest, lowBytes_succ s lt, orderPart_succ lt]
    split
    · rw [eq_comm, decide_eq_false_iff_not]
      nlinarith
    next notAbove =>
    split
    · rw [eq_comm, decide_eq_true_iff]
      nlinarith
    next notBelow =>
    rw [le_antisymm (not_lt.mp notAbove) (not_lt.mp notBelow)]
    simp only [add_lt_add_iff_right]

theorem canonical_eq (s : Bytes32) :
    canonical s (List.finRange 32).reverse = decide (number s < L) := by
  have whole := canonical_below s (le_refl 32)
  have same : lowBytes s 32 = number s := by
    rw [← digits_number]
    unfold lowBytes
    rw [sum_range]
    refine sum_congr rfl fun i _ => ?_
    rw [Vector.getElem?_eq_getElem i.isLt]
    rfl
  rw [show (List.finRange 32).map (Fin.castLE (le_refl 32)) = List.finRange 32 from List.map_id _,
    same, orderPart_whole] at whole
  rw [whole]
  exact decide_eq_decide.mpr Nat.cast_lt

/-! ## Keys and signatures -/

section Signatures

variable (sha512 : List UInt8 → Vector UInt8 64)

/-- What `edPublickey` computes, as a number. -/
def Ext.publickey (seed : Bytes32) : Nat :=
  (Ext.base.scalarmult (number (firstHalf (edExpand sha512 seed)))).encode

def Ext.sign (seed : Bytes32) (msg : List UInt8) : Nat × Nat :=
  let d := edExpand sha512 seed
  let r := number (sha512 ((secondHalf d).toList ++ msg)) % L
  let sig := (Ext.base.scalarmult r).encode
  let h := number (sha512 (le 32 sig ++ le 32 (Ext.publickey sha512 seed) ++ msg)) % L
  (sig, (r + h * number (firstHalf d)) % L)

/-- What `edVerify` checks of a signature, with the negative of the key's point. -/
def Ext.check (pk : Bytes32) (msg : List UInt8) (sig : Bytes32 × Bytes32) (q : Ext) : Bool :=
  decide (number sig.2 < L) &&
    (number sig.1 ==
      ((q.scalarmult (number (sha512 (sig.1.toList ++ pk.toList ++ msg)) % L)).add
        (Ext.base.scalarmult (number sig.2))).encode)

def Ext.verify (pk : Bytes32) (msg : List UInt8) (sig : Bytes32 × Bytes32) : Bool :=
  (Ext.unpackneg (number pk)).any (Ext.check sha512 pk msg sig)

theorem edPublickey_yields (seed : Bytes32) :
    Yields Fine (edPublickey sha512 seed) fun pk => number pk = Ext.publickey sha512 seed := by
  exact .bind (edScalarbase_yields _) fun p hp => edPack_yields hp

theorem edSign_yields (seed : Bytes32) (msg : List UInt8) :
    Yields Fine (edSign sha512 seed msg) fun sig =>
      (number sig.1, number sig.2) = Ext.sign sha512 seed msg := by
  unfold edSign
  refine .bind (edPublickey_yields sha512 seed) fun pk hpk => ?_
  obtain ⟨r, run, hr⟩ := reduce_eq (sha512 ((secondHalf (edExpand sha512 seed)).toList ++ msg))
  refine .bind (.lift ⟨r, run, rfl⟩) fun _ e => ?_
  subst e
  refine .bind (edScalarbase_yields r) fun p hp => ?_
  refine .bind (edPack_yields hp) fun sig hsig => ?_
  obtain ⟨h, run, hh⟩ := reduce_eq (sha512 (sig.toList ++ pk.toList ++ msg))
  refine .bind (.lift ⟨h, run, rfl⟩) fun _ e => ?_
  subst e
  obtain ⟨x, run, small, sum⟩ := signDigits_spec r h (firstHalf (edExpand sha512 seed))
  refine .bind (.lift ⟨x, run, rfl⟩) fun _ e => ?_
  subst e
  obtain ⟨s, run, hs⟩ := modL_spec small
  refine .bind (.lift ⟨s, run, rfl⟩) fun _ e => ?_
  subst e
  refine .pure ?_
  rw [toList_eq_le, toList_eq_le, hsig, hpk, hr] at hh
  rw [sum] at hs
  have scalar : number s =
      (number r + number h * number (firstHalf (edExpand sha512 seed))) % L := by exact_mod_cast hs
  rw [scalar, hsig, hh, hr]
  rfl

theorem edVerify_yields (pk : Bytes32) (msg : List UInt8) (sig : Bytes32 × Bytes32) :
    Yields Fine (edVerify sha512 pk msg sig) (· = Ext.verify sha512 pk msg sig) := by
  rw [Ext.verify]
  refine .bind (unpackneg_yields pk) fun q hq => ?_
  generalize Ext.unpackneg (number pk) = e at hq ⊢
  cases hq with
  | none => exact .pure rfl
  | @some e q hq =>
    rw [Option.any_some, canonical_eq, Ext.check]
    by_cases small : number sig.2 < L
    · rw [decide_eq_true small, Bool.true_and]
      obtain ⟨h, run, hh⟩ := reduce_eq (sha512 (sig.1.toList ++ pk.toList ++ msg))
      refine .bind (.lift ⟨h, run, rfl⟩) fun _ e => ?_
      subst e
      refine .bind (edScalarmult_yields hq h) fun p hp => ?_
      refine .bind (edScalarbase_yields sig.2) fun q2 hq2 => ?_
      refine .bind (edAdd_yields hp hq2) fun p hp => ?_
      refine .bind (edPack_yields hp) fun t ht => .pure ?_
      rw [Bool.eq_iff_iff, beq_iff_eq, beq_iff_eq, diff_eq_zero, ← hh, ← ht]
      exact ⟨congrArg number, number_injective⟩
    · rw [decide_eq_false small, Bool.false_and]
      exact .pure rfl

end Signatures

end Nlos.Native
