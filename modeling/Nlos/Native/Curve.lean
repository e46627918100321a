import Nlos.Lib.Edwards
import Nlos.Lib.Lucas
import Nlos.Native.Signatures

/-!
# The group behind the point routines

`2 ^ 255 - 19` is prime, `-1` is a square modulo it and the constant `d` is not, so that the points
of the curve are a group under one complete addition law. The formulas over extended coordinates
are that law, the ladder is multiplication by a number, and the base point has order dividing `L`.
-/

namespace Nlos.Native

open Lucas

/-! ## The prime -/

theorem prime_P : Nat.Prime P := by
  have primes := prime_of_certified [
    ⟨P, 255, 2, [2, 2, 3, 65147,
      74058212732561358302231226437062788676166966415465897661863160754340907]⟩,
    ⟨74058212732561358302231226437062788676166966415465897661863160754340907, 236, 2,
      [2, 3, 353, 57467, 132049, 1923133, 31757755568855353,
        75445702479781427272750846543864801]⟩,
    ⟨75445702479781427272750846543864801, 116, 7,
      [2, 2, 2, 2, 2, 3, 3, 5, 5, 75707, 72106336199, 1919519569386763]⟩,
    ⟨31757755568855353, 55, 10, [2, 2, 2, 3, 31, 107, 223, 4153, 430751]⟩,
    ⟨1919519569386763, 51, 2, [2, 3, 7, 19, 47, 47, 127, 8574133]⟩,
    ⟨72106336199, 37, 7, [2, 13, 2773320623]⟩,
    ⟨2773320623, 32, 5, [2, 2437, 569003]⟩] (by decide +kernel)
  exact primes _ List.mem_cons_self

instance : Fact P.Prime := ⟨prime_P⟩

/-! ## The curve -/

theorem d_eq :
    d = ((37095705934669439343138083508754565189542113879843219016388785533085940283555 : Nat) :
    ZMod P) := by
  unfold d
  norm_cast

theorem sqrtm1_mul_self : sqrtm1 * sqrtm1 = -1 := by decide +kernel

theorem two_ne_zero' : (2 : ZMod P) ≠ 0 := by decide +kernel

theorem d_nonsquare : ¬IsSquare d := by
  have power : d ^ (P / 2) = -1 := by
    have cast := powMod_cast P
      37095705934669439343138083508754565189542113879843219016388785533085940283555 (k := 255)
      (n := P / 2) (by decide)
    rw [← d_eq] at cast
    have last : powMod P 255
        37095705934669439343138083508754565189542113879843219016388785533085940283555 (P / 2) =
        P - 1 := by decide +kernel
    rw [← cast, last, Nat.cast_sub (by decide), ZMod.natCast_self, Nat.cast_one, zero_sub]
  have nonzero : d ≠ 0 := by decide +kernel
  rw [ZMod.euler_criterion P nonzero, power]
  intro same
  refine two_ne_zero' ?_
  linear_combination -same

def curve : Edwards.Constants (ZMod P) where
  a := -1
  d := d
  root := sqrtm1
  root_sq := sqrtm1_mul_self
  a_ne := neg_ne_zero.mpr one_ne_zero
  two_ne := two_ne_zero'
  nonsquare := d_nonsquare

abbrev Pt := Edwards.Point curve

/-! ## Extended coordinates -/

structure Ext.Is (e : Ext) (p : Pt) : Prop where
  z : e.z ≠ 0
  x : e.x = p.x * e.z
  y : e.y = p.y * e.z
  t : e.t = p.x * p.y * e.z

variable {e : Ext} {p q : Pt} {n : Nat}

theorem Ext.Is.add {e' : Ext} (h : e.Is p) (h' : e'.Is q) : (e.add e').Is (p + q) := by
  obtain ⟨plus, minus⟩ := Edwards.denom_ne p q
  have cross : Edwards.cross p q = d * p.x * q.x * p.y * q.y := rfl
  have minusOne : curve.a = -1 := rfl
  have zz : (2 : ZMod P) * e.z * e'.z ≠ 0 :=
    mul_ne_zero (mul_ne_zero two_ne_zero' h.z) h'.z
  -- the four intermediate values of the formulas
  have he : (e.x + e.y) * (e'.x + e'.y) - (e.y - e.x) * (e'.y - e'.x) =
      2 * e.z * e'.z * (p.x * q.y + p.y * q.x) := by
    rw [h.x, h.y, h'.x, h'.y]
    ring
  have hh : (e.x + e.y) * (e'.x + e'.y) + (e.y - e.x) * (e'.y - e'.x) =
      2 * e.z * e'.z * (p.y * q.y - curve.a * p.x * q.x) := by
    rw [h.x, h.y, h'.x, h'.y, minusOne]
    ring
  have hf : e.z * e'.z + e.z * e'.z - e.t * e'.t * (d + d) =
      2 * e.z * e'.z * (1 - Edwards.cross p q) := by
    rw [h.t, h'.t, cross]
    ring
  have hg : e.z * e'.z + e.z * e'.z + e.t * e'.t * (d + d) =
      2 * e.z * e'.z * (1 + Edwards.cross p q) := by
    rw [h.t, h'.t, cross]
    ring
  unfold Ext.add
  dsimp only
  rw [he, hh, hf, hg]
  refine ⟨mul_ne_zero (mul_ne_zero zz plus) (mul_ne_zero zz minus), ?_, ?_, ?_⟩
  · rw [Edwards.add_x]
    field_simp
  · rw [Edwards.add_y]
    field_simp
  · rw [Edwards.add_x, Edwards.add_y]
    field_simp

theorem Ext.Is.zero : Ext.zero.Is 0 := ⟨one_ne_zero, by simp [Ext.zero], by simp [Ext.zero],
  by simp [Ext.zero]⟩

/-! ## The ladder -/

/-- The two points of the ladder are consecutive multiples. -/
theorem Ext.step_is {e : Ext × Ext} {m i : Nat} (low : e.1.Is (m • p))
    (high : e.2.Is ((m + 1) • p)) (hm : m = n / 2 ^ (i + 1)) :
    (Ext.step n e i).1.Is ((n / 2 ^ i) • p) ∧ (Ext.step n e i).2.Is ((n / 2 ^ i + 1) • p) := by
  have half : n / 2 ^ (i + 1) = n / 2 ^ i / 2 := by rw [pow_succ, Nat.div_div_eq_div_mul]
  have bit : n.testBit i = decide (n / 2 ^ i % 2 = 1) := Nat.testBit_eq_decide_div_mod_eq
  unfold Ext.step Ext.cswap
  cases hb : n.testBit i with
  | false =>
    have even : n / 2 ^ i = m + m := by
      rw [hb, eq_comm, decide_eq_false_iff_not] at bit
      omega
    have next : n / 2 ^ i + 1 = m + 1 + m := by omega
    rw [next, even, add_smul, add_smul (m + 1)]
    exact ⟨low.add low, high.add low⟩
  | true =>
    have odd : n / 2 ^ i = m + (m + 1) := by
      rw [hb, eq_comm, decide_eq_true_iff] at bit
      omega
    have next : n / 2 ^ i + 1 = m + 1 + (m + 1) := by omega
    rw [next, odd, add_smul, add_smul (m + 1)]
    exact ⟨low.add high, high.add high⟩

theorem Ext.Is.scalarmult (h : e.Is p) (hn : n < 2 ^ 256) : (e.scalarmult n).Is (n • p) := by
  have from_ : ∀ i ≤ 256,
      (((downFrom 256).take (256 - i)).foldl (Ext.step n) (.zero, e)).1.Is ((n / 2 ^ i) • p) ∧
      (((downFrom 256).take (256 - i)).foldl (Ext.step n) (.zero, e)).2.Is
        ((n / 2 ^ i + 1) • p) := by
    intro i hi
    induction hi using Nat.decreasingInduction with
    | self =>
      rw [Nat.div_eq_of_lt hn, Nat.sub_self, List.take_zero, List.foldl_nil, zero_smul,
        Nat.zero_add, one_smul]
      exact ⟨Ext.Is.zero, h⟩
    | of_succ i hi ih =>
      have next : (downFrom 256)[256 - (i + 1)]? = some i := getElem?_range_reverse hi
      rw [show 256 - i = 256 - (i + 1) + 1 by omega, List.take_add_one, next, Option.toList_some,
        List.foldl_append, List.foldl_cons, List.foldl_nil]
      exact Ext.step_is ih.1 ih.2 rfl
  have whole := (from_ 0 (Nat.zero_le _)).1
  rwa [pow_zero, Nat.div_one, Nat.sub_zero, List.take_of_length_le (by simp [downFrom])] at whole

/-! ## The base point -/

def base : Pt where
  x := baseX
  y := baseY
  on_curve := by decide +kernel

theorem Ext.Is.base : Ext.base.Is Native.base :=
  ⟨one_ne_zero, (mul_one _).symm, (mul_one _).symm, (mul_one _).symm⟩

/-- The ladder, run on the order: it ends in coordinates of the neutral element. -/
theorem base_order : L • base = 0 := by
  have run := Ext.Is.base.scalarmult (n := L) (by decide)
  have x : (Ext.base.scalarmult L).x = 0 := by decide +kernel
  have y : (Ext.base.scalarmult L).y = (Ext.base.scalarmult L).z := by decide +kernel
  ext
  · have := run.x
    rw [x, eq_comm, mul_eq_zero] at this
    exact this.resolve_right run.z
  · have := run.y
    rw [y, eq_comm, mul_eq_right₀ run.z] at this
    exact this

theorem mod_smul_base (n : Nat) : (n % L) • base = n • base := by
  conv_rhs => rw [← Nat.mod_add_div n L]
  rw [add_smul, mul_comm, mul_smul, base_order, smul_zero, add_zero]

/-! ## Encodings -/

/-- The encoding of a point: the y-coordinate, and the parity of the x-coordinate in the top bit. -/
def encode (p : Pt) : Nat := p.y.val + 2 ^ 255 * (p.x.val % 2)

theorem Ext.Is.encode (h : e.Is p) : e.encode = Native.encode p := by
  have inverse : e.z * e.z ^ (P - 2) = 1 := by
    rw [← pow_succ', show P - 2 + 1 = P - 1 by decide, ZMod.pow_card_sub_one_eq_one h.z]
  have affine : ∀ u : ZMod P, u * e.z * e.z ^ (P - 2) = u := fun u => by
    rw [mul_assoc, inverse, mul_one]
  rw [Ext.encode, Native.encode, h.x, h.y, affine, affine]

theorem encode_mod (p : Pt) : encode p % 2 ^ 255 = p.y.val := by
  have y := (ZMod.val_lt p.y).trans P_lt
  unfold encode
  omega

theorem encode_div (p : Pt) : encode p / 2 ^ 255 = p.x.val % 2 := by
  have y := (ZMod.val_lt p.y).trans P_lt
  unfold encode
  omega

/-! ## Decompression -/

/-- The equation of the curve, solved for the square of the x-coordinate. -/
theorem on_curve_iff (x y : ZMod P) : curve.a * x ^ 2 + y ^ 2 = 1 + curve.d * x ^ 2 * y ^ 2 ↔
      x * x * (1 + y * y * d) = y * y - 1 := by
  have a : curve.a = -1 := rfl
  have d : curve.d = d := rfl
  rw [a, d]
  constructor
  all_goals
    intro h
    linear_combination -h

theorem den_ne_zero (y : ZMod P) : 1 + y * y * d ≠ 0 := by
  intro zero
  have hy : y ≠ 0 := by
    rintro rfl
    rw [zero_mul, zero_mul, add_zero] at zero
    exact one_ne_zero zero
  refine d_nonsquare ⟨sqrtm1 / y, ?_⟩
  field_simp
  linear_combination zero - sqrtm1_mul_self

theorem quarter : (P - 5) / 8 * 2 + 1 = (P - 1) / 4 ∧ (P - 1) / 4 * 2 = P / 2 := by decide

theorem tryRoot_sq (num den : ZMod P) :
    tryRoot num den * tryRoot num den * den = num * (den ^ 7 * num) ^ ((P - 1) / 4) := by
  unfold tryRoot
  rw [← quarter.1, pow_succ, pow_mul,
    show den * den * (den * den) * (den * den) * num * den = den ^ 7 * num by ring]
  ring

theorem pickRoot_spec {num den x : ZMod P} (hden : den ≠ 0) (root : x * x * den = num) :
    pickRoot num den * pickRoot num den * den = num := by
  unfold pickRoot
  by_cases good : tryRoot num den * tryRoot num den * den = num
  · rw [if_neg (by simpa using good), good]
  have hx : x ≠ 0 := by
    rintro rfl
    rw [mul_zero, zero_mul] at root
    exact good (by rw [tryRoot_sq, ← root, zero_mul])
  rw [if_pos (by simpa using good)]
  have power : (den ^ 7 * num) ^ ((P - 1) / 4) = (den ^ 4 * x) ^ (P / 2) := by
    rw [← root, ← quarter.2, mul_comm _ 2, pow_mul]
    ring
  have square := tryRoot_sq num den
  rw [power] at square
  rcases ZMod.pow_div_two_eq_neg_one_or_one P (mul_ne_zero (pow_ne_zero 4 hden) hx) with one | one
  · rw [one, mul_one] at square
    exact absurd square good
  · rw [one] at square
    linear_combination square * sqrtm1 * sqrtm1 - num * sqrtm1_mul_self

/-- Of the two signs of a coordinate other than zero, one is odd. -/
theorem val_neg_parity {x : ZMod P} (hx : x ≠ 0) : (-x).val % 2 ≠ x.val % 2 := by
  have odd : P % 2 = 1 := by decide
  have lt := ZMod.val_lt x
  rw [ZMod.neg_val, if_neg hx]
  omega

theorem Ext.Is.affine (p : Pt) : Ext.Is ⟨p.x, p.y, 1, p.x * p.y⟩ p :=
  ⟨one_ne_zero, (mul_one _).symm, (mul_one _).symm, (mul_one _).symm⟩

/-- The choice of the sign: the one with the other parity than `s`, if there is a choice. -/
theorem choose_sign {x y : ZMod P} (root : x * x * (1 + y * y * d) = y * y - 1) (s : Nat) :
    ∃ p : Pt, p.x = (if x.val % 2 == s then 0 - x else x) ∧ p.y = y ∧
      (p.x = 0 ∨ p.x.val % 2 ≠ s) := by
  by_cases same : x.val % 2 = s
  · have root' : (0 - x) * (0 - x) * (1 + y * y * d) = y * y - 1 := by linear_combination root
    have sign : 0 - x = 0 ∨ (0 - x).val % 2 ≠ s := by
      by_cases zero : x = 0
      · exact .inl (by rw [zero, sub_zero])
      · right
        rw [zero_sub, ← same]
        exact val_neg_parity zero
    rw [if_pos (by simpa using same)]
    exact ⟨⟨0 - x, y, (on_curve_iff _ _).mpr root'⟩, rfl, rfl, sign⟩
  · rw [if_neg (by simpa using same)]
    exact ⟨⟨x, y, (on_curve_iff _ _).mpr root⟩, rfl, rfl, .inr same⟩

/-- What `unpackneg` finds is a point with the y-coordinate of the key, and with the other sign
than the key asks for unless both signs are one. -/
theorem Ext.unpackneg_is (h : Ext.unpackneg n = some e) :
    ∃ p : Pt, e.Is p ∧ p.y = (n % 2 ^ 255 : Nat) ∧ (p.x = 0 ∨ p.x.val % 2 ≠ n / 2 ^ 255) := by
  unfold Ext.unpackneg at h
  dsimp only at h
  generalize ((n % 2 ^ 255 : Nat) : ZMod P) = y at h ⊢
  generalize pickRoot (y * y - 1) (1 + y * y * d) = x at h
  split at h
  · exact nomatch h
  next good =>
  obtain ⟨p, hx, hy, sign⟩ := choose_sign (by simpa using good) (n / 2 ^ 255)
  rw [← hx, ← hy, Option.some.injEq] at h
  exact ⟨p, h ▸ Ext.Is.affine p, hy, sign⟩

/-- If any point has the y-coordinate of the key, one is found. -/
theorem Ext.unpackneg_isSome (h : p.y = (n % 2 ^ 255 : Nat)) : ∃ e, Ext.unpackneg n = some e := by
  have root := (on_curve_iff _ _).mp p.on_curve
  have found := pickRoot_spec (den_ne_zero p.y) root
  unfold Ext.unpackneg
  rw [← h, if_neg (by simpa using found)]
  exact ⟨_, rfl⟩

/-- Two points with one y-coordinate are opposite or equal. -/
theorem eq_or_neg_of_y (h : p.y = q.y) : p.x = q.x ∨ p.x = -q.x := by
  have hp := (on_curve_iff _ _).mp p.on_curve
  have hq := (on_curve_iff _ _).mp q.on_curve
  rw [h] at hp
  exact mul_self_eq_mul_self_iff.mp (mul_right_cancel₀ (den_ne_zero q.y) (hp.trans hq.symm))

end Nlos.Native
