import Nlos.Lib.Yields
import Nlos.Native.Packing

/-!
# Runs over field elements

What the routines above the field rely on: sums and differences within 32 bits, the constant-time
swap, and multiplications with their operands noted. `Fine` says of the notes that every operand so
far was within the bound of `fM`.
-/

namespace Nlos.Native

open Checked

/-! ## Sums, differences and selections -/

section

variable {a b : Gf} {m m' : Nat} (ha : Limbs m a) (hb : Limbs m' b) (fits : m + m' < 2 ^ 31)
include ha hb fits

/-- An operation on the limbs, one by one, whose results are no larger than a sum. -/
theorem limbwise {op : Int → Int → Int} (small : ∀ x y, |op x y| ≤ |x| + |y|) :
    ∃ o, (collect fun i => int32 (op a[i] b[i])) = some o ∧ Limbs (m + m') o ∧ ∀ i : Fin 10,
      o[i] = op a[i] b[i] := by
  have limb : ∀ i : Fin 10, |op a[i] b[i]| ≤ (m + m' : Nat) := by
    intro i
    have := ha i
    have := hb i
    have := small a[i] b[i]
    omega
  have get : ∀ i : Fin 10, (Vector.ofFn fun i => op a[i] b[i])[i] = op a[i] b[i] :=
    fun i => Vector.getElem_ofFn _
  refine ⟨Vector.ofFn fun i => op a[i] b[i], collect_eq fun i => fit_of_abs ?_, fun i => get i ▸ limb i, get⟩
  have := limb i
  omega

theorem fA_spec : ∃ o, fA a b = some o ∧ Limbs (m + m') o ∧ val o = val a + val b := by
  obtain ⟨o, run, small, each⟩ := limbwise ha hb fits abs_add_le
  refine ⟨o, run, small, ?_⟩
  unfold val weigh
  rw [← Finset.sum_add_distrib]
  refine Finset.sum_congr rfl fun i _ => ?_
  rw [each]
  push_cast
  ring

theorem fZ_spec : ∃ o, fZ a b = some o ∧ Limbs (m + m') o ∧ val o = val a - val b := by
  obtain ⟨o, run, small, each⟩ := limbwise ha hb fits abs_sub
  refine ⟨o, run, small, ?_⟩
  unfold val weigh
  rw [← Finset.sum_sub_distrib]
  refine Finset.sum_congr rfl fun i _ => ?_
  rw [each]
  push_cast
  ring

end

theorem toInt_ofInt_of_abs {x : Int} (h : |x| < 2 ^ 31) : (BitVec.ofInt 32 x).toInt = x := by
  rw [abs_lt] at h
  rw [BitVec.toInt_ofInt, Int.bmod_eq_of_le (by omega) (by omega)]

theorem swapLimb_eq {x y : Int} (hx : |x| < 2 ^ 31) (hy : |y| < 2 ^ 31) (b : Bool) :
    swapLimb (if b then 1 else 0) x y = if b then (y, x) else (x, y) := by
  have mask : -(1 : BitVec 32) = BitVec.allOnes 32 := by decide
  cases b with
  | false =>
    show ((BitVec.ofInt 32 x ^^^ (-0#32 &&& _)).toInt, (BitVec.ofInt 32 y ^^^ (-0#32 &&& _)).toInt) =
      (x, y)
    rw [BitVec.neg_zero, BitVec.zero_and, BitVec.xor_zero, BitVec.xor_zero, toInt_ofInt_of_abs hx,
      toInt_ofInt_of_abs hy]
  | true =>
    show ((BitVec.ofInt 32 x ^^^ (-1 &&& _)).toInt, (BitVec.ofInt 32 y ^^^ (-1 &&& _)).toInt) =
      (y, x)
    rw [mask, BitVec.allOnes_and, ← BitVec.xor_assoc, BitVec.xor_self, BitVec.zero_xor,
      BitVec.xor_comm (BitVec.ofInt 32 x), ← BitVec.xor_assoc, BitVec.xor_self, BitVec.zero_xor,
      toInt_ofInt_of_abs hx, toInt_ofInt_of_abs hy]

/-- The constant-time swap swaps when the bit is set, and not otherwise. -/
theorem sel25519_eq {p q : Gf} {m : Nat} (hp : Limbs m p) (hq : Limbs m q) (hm : m < 2 ^ 31)
    (b : Bool) : sel25519 p q (if b then 1 else 0) = if b then (q, p) else (p, q) := by
  have limb : ∀ i : Fin 10, swapLimb (if b then 1 else 0) p[i] q[i] =
      if b then (q[i], p[i]) else (p[i], q[i]) := by
    intro i
    have := hp i
    have := hq i
    exact swapLimb_eq (by omega) (by omega) b
  have whole : ∀ a : Gf, Vector.ofFn (fun i : Fin 10 => a[i]) = a := fun a => by ext i hi; simp
  unfold sel25519
  simp only [limb]
  cases b with
  | false => exact Prod.ext (whole p) (whole q)
  | true => exact Prod.ext (whole q) (whole p)

theorem scalarBit_eq (z : Bytes32) {i : Nat} (hi : i < 256) :
    scalarBit z i = some (if (number z).testBit i then 1 else 0) := by
  have eighth : i >>> 3 = i / 8 := Nat.shiftRight_eq_div_pow i 3
  unfold scalarBit
  simp only [eighth]
  rw [dif_pos (by omega), testBit_number z (by omega), Nat.testBit_eq_decide_div_mod_eq,
    Nat.shiftRight_eq_div_pow, Nat.and_one_is_mod]
  rcases Nat.mod_two_eq_zero_or_one (z[i / 8].toNat / 2 ^ (i % 8)) with e | e <;> simp [e]

/-! ## Multiplications with their operands noted -/

/-- Every operand of a multiplication so far was within the bound. -/
def Fine (log : List Gf) : Prop := ∀ a ∈ log, Limbs operandMax a

def Stands (m : Nat) (x : ZMod P) (a : Gf) : Prop := Limbs m a ∧ val a = x

abbrev Holds (x : ZMod P) (a : Gf) : Prop := Stands (2 ^ 25) x a

section Calls

variable {a b : Gf} {x y : ZMod P} {m m' : Nat}

theorem fA_yields (ha : Stands m x a) (hb : Stands m' y b) (fits : m + m' < 2 ^ 31) :
    Yields Fine (liftM (fA a b)) (Stands (m + m') (x + y)) := by
  obtain ⟨o, run, small, sum⟩ := fA_spec ha.1 hb.1 fits
  exact .lift ⟨o, run, small, by rw [sum, ha.2, hb.2]⟩

theorem fZ_yields (ha : Stands m x a) (hb : Stands m' y b) (fits : m + m' < 2 ^ 31) :
    Yields Fine (liftM (fZ a b)) (Stands (m + m') (x - y)) := by
  obtain ⟨o, run, small, diff⟩ := fZ_spec ha.1 hb.1 fits
  exact .lift ⟨o, run, small, by rw [diff, ha.2, hb.2]⟩

theorem callM_yields (ha : Stands m x a) (hb : Stands m' y b) (hm : m ≤ operandMax)
    (hm' : m' ≤ operandMax) : Yields Fine (callM a b) (Holds (x * y)) := by
  refine .bind (.modify fun log fine c hc => ?_) fun _ _ => .lift ?_
  · rcases List.mem_cons.mp hc with rfl | hc
    · exact ha.1.mono hm
    rcases List.mem_cons.mp hc with rfl | hc
    · exact hb.1.mono hm'
    · exact fine c hc
  · obtain ⟨o, run, small, same⟩ := fM_spec (ha.1.mono hm) (hb.1.mono hm')
    exact ⟨o, run, small, by rw [same, ha.2, hb.2]⟩

theorem callS_yields (ha : Stands m x a) (hm : m ≤ operandMax) :
    Yields Fine (callS a) (Holds (x * x)) := by
  refine .bind (.modify fun log fine c hc => ?_) fun _ _ => .lift ?_
  · rcases List.mem_cons.mp hc with rfl | hc
    · exact ha.1.mono hm
    · exact fine c hc
  · obtain ⟨o, run, small, same⟩ := fS_spec (ha.1.mono hm)
    exact ⟨o, run, small, by rw [same, ha.2]⟩

end Calls

theorem result_le_operandMax : 2 ^ 25 ≤ operandMax := by decide

/-! ## Powers -/

/-- The exponent after one turn of a power loop: squared, and multiplied unless it is skipped. -/
def turn (skip : Nat → Bool) (e a : Nat) : Nat := if skip a then 2 * e else 2 * e + 1

variable {i : Gf}

/-- A square-and-multiply loop that leaves some multiplications out. -/
theorem power_yields {x : ZMod P} (hi : Holds x i) (skip : Nat → Bool) {f : Gf → Nat → Run Gf}
    (body : ∀ c a, f c a = do let c ← callS c; if skip a then return c else callM c i)
    (l : List Nat) : Yields Fine (l.foldlM f i) (Holds (x ^ l.foldl (turn skip) 1)) := by
  refine .foldlM (R := fun c e => Holds (x ^ e) c) (fun c e a _ hc => ?_) ?_
  · rw [body]
    refine .bind (callS_yields hc result_le_operandMax) fun c' hc' => ?_
    rw [← pow_add, ← two_mul] at hc'
    unfold turn
    split
    · exact .pure hc'
    · exact callM_yields hc' hi result_le_operandMax result_le_operandMax
  · rwa [pow_one]

theorem inv25519_yields {x : ZMod P} (hi : Holds x i) :
    Yields Fine (inv25519 i) (Holds (x ^ (P - 2))) := by
  have exponent : (downFrom 254).foldl (turn fun a => a == 2 || a == 4) 1 = P - 2 := by
    decide +kernel
  rw [← exponent]
  refine power_yields hi _ (fun c a => ?_) _
  congr 1
  funext c
  by_cases h2 : a = 2 <;> by_cases h4 : a = 4 <;> simp [h2, h4]

theorem pow2523_yields {x : ZMod P} (hi : Holds x i) :
    Yields Fine (pow2523 i) (Holds (x ^ ((P - 5) / 8))) := by
  have exponent : (downFrom 251).foldl (turn fun a => a == 1) 1 = (P - 5) / 8 := by decide +kernel
  rw [← exponent]
  refine power_yields hi _ (fun c a => ?_) _
  congr 1
  funext c
  by_cases h1 : a = 1 <;> simp [h1]

end Nlos.Native
