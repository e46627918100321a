import Mathlib

/-!
# Little-endian integers in byte strings

`le n x` is the low `n` bytes of `x`, least significant first: what copying an integer out of
memory gives on a little-endian machine. `ofLe` reads them back. `overwrite` is a copy into the
middle of a byte string that is already there.
-/

namespace Bytes

/-- The low `n` bytes of `x`, least significant first. -/
def le : Nat → Nat → List UInt8
  | 0, _ => []
  | n + 1, x => UInt8.ofNat x :: le n (x / 256)

/-- The number a little-endian byte string stands for. -/
def ofLe : List UInt8 → Nat
  | [] => 0
  | b :: bs => b.toNat + 256 * ofLe bs

@[simp] theorem length_le (n x : Nat) : (le n x).length = n := by
  induction n generalizing x with
  | zero => rfl
  | succ n ih => exact congrArg (· + 1) (ih _)

theorem ofLe_le (n x : Nat) : ofLe (le n x) = x % 256 ^ n := by
  induction n generalizing x with
  | zero => rw [Nat.pow_zero, Nat.mod_one]; rfl
  | succ n ih =>
    have byte : (UInt8.ofNat x).toNat = x % 256 := UInt8.toNat_ofNat'
    show (UInt8.ofNat x).toNat + 256 * ofLe (le n (x / 256)) = _
    rw [ih, byte, Nat.pow_succ, Nat.mul_comm (256 ^ n), Nat.mod_mul]

/-- A number that fits comes back. -/
theorem ofLe_le_of_lt {n x : Nat} (h : x < 256 ^ n) : ofLe (le n x) = x := by
  rw [ofLe_le, Nat.mod_eq_of_lt h]

theorem ofLe_lt (b : List UInt8) : ofLe b < 256 ^ b.length := by
  induction b with
  | nil => exact Nat.one_pos
  | cons x b ih =>
    have hx : x.toNat < 256 := x.toNat_lt
    show x.toNat + 256 * ofLe b < 256 ^ (b.length + 1)
    omega

/-- A byte string comes back from its number. -/
theorem le_ofLe (b : List UInt8) : le b.length (ofLe b) = b := by
  induction b with
  | nil => rfl
  | cons x b ih =>
    have hx : x.toNat < 256 := x.toNat_lt
    have low : UInt8.ofNat (x.toNat + 256 * ofLe b) = x := by
      refine UInt8.toNat_inj.mp ?_
      rw [UInt8.toNat_ofNat', Nat.add_mul_mod_self_left, Nat.mod_eq_of_lt hx]
    have rest : (x.toNat + 256 * ofLe b) / 256 = ofLe b := by omega
    show UInt8.ofNat (x.toNat + 256 * ofLe b) ::
      le b.length ((x.toNat + 256 * ofLe b) / 256) = x :: b
    rw [low, rest, ih]

/-- Bit `i` of a little-endian number is bit `i % 8` of byte `i / 8`. -/
theorem testBit_ofLe (b : List UInt8) (i : Nat) :
    (ofLe b).testBit i = (b.getD (i / 8) 0).toNat.testBit (i % 8) := by
  induction b generalizing i with
  | nil =>
    show (0 : Nat).testBit i = (0 : Nat).testBit (i % 8)
    rw [Nat.zero_testBit, Nat.zero_testBit]
  | cons x b ih =>
    have hx : x.toNat < 2 ^ 8 := x.toNat_lt
    show (x.toNat + 256 * ofLe b).testBit i = _
    rw [Nat.add_comm, Nat.testBit_two_pow_mul_add _ hx]
    split
    next lt =>
      rw [Nat.div_eq_of_lt lt, Nat.mod_eq_of_lt lt]
      rfl
    · obtain ⟨j, rfl⟩ : ∃ j, i = j + 8 := ⟨i - 8, by omega⟩
      rw [Nat.add_sub_cancel, ih, Nat.add_div_right j (by decide), Nat.add_mod_right]
      rfl

/-- A byte or'ed into a byte string is or'ed into the number, at that byte's weight. -/
theorem ofLe_set_or {b : List UInt8} {k : Nat} (hk : k < b.length) (x : UInt8) :
    ofLe (b.set k (b[k] ||| x)) = ofLe b ||| x.toNat <<< (8 * k) := by
  refine Nat.eq_of_testBit_eq fun i => ?_
  have hx : x.toNat < 2 ^ 8 := x.toNat_lt
  rw [Nat.testBit_or, testBit_ofLe, testBit_ofLe, Nat.testBit_shiftLeft,
    List.getD_eq_getElem?_getD, List.getD_eq_getElem?_getD, List.getElem?_set]
  split
  next here =>
    subst here
    have low : i - 8 * (i / 8) = i % 8 := by omega
    rw [List.getElem?_eq_getElem hk, Option.getD_some, Option.getD_some, UInt8.toNat_or,
      Nat.testBit_or, low, decide_eq_true (by omega), Bool.true_and]
  · have out : (decide (i ≥ 8 * k) && x.toNat.testBit (i - 8 * k)) = false := by
      rw [Bool.and_eq_false_iff, decide_eq_false_iff_not]
      rcases Nat.lt_or_ge i (8 * k) with lt | ge
      · exact .inl (by omega)
      · refine .inr (Nat.testBit_lt_two_pow (Nat.lt_of_lt_of_le hx ?_))
        exact Nat.pow_le_pow_right (by decide) (by omega)
    rw [out, Bool.or_false]

/-- `new` copied over `bs` at `pos`. -/
def overwrite (bs : List UInt8) (pos : Nat) (new : List UInt8) : List UInt8 :=
  bs.take pos ++ new ++ bs.drop (pos + new.length)

/-- Overwriting a field that was left open: what stands before it and after it stays. -/
theorem overwrite_field (pre old new post : List UInt8) (h : new.length = old.length) :
    overwrite (pre ++ (old ++ post)) pre.length new = pre ++ (new ++ post) := by
  unfold overwrite
  rw [List.take_left, h, ← List.append_assoc pre old post,
    ← List.length_append, List.drop_left, List.append_assoc]

end Bytes
