import Mathlib

/-!
# Complete twisted Edwards curves

The points of `a x² + y² = 1 + d x² y²` over a field where two is not zero, `a` is a square and `d`
is not one. The addition law has no exceptional cases there: its denominators never vanish
(`denom_ne`), so that one formula adds any two points and doubles any point. The points with it are
a commutative group.
-/

namespace Edwards

/-- The constants of a curve with a complete addition law. -/
structure Constants (K : Type) [Field K] where
  a : K
  d : K
  root : K
  root_sq : root * root = a
  a_ne : a ≠ 0
  two_ne : (2 : K) ≠ 0
  nonsquare : ¬IsSquare d

variable {K : Type} [Field K] {c : Constants K}

@[ext]
structure Point (c : Constants K) where
  x : K
  y : K
  on_curve : c.a * x ^ 2 + y ^ 2 = 1 + c.d * x ^ 2 * y ^ 2

/-! ## Completeness -/

/-- The product in the denominators of the addition law. -/
def cross (p q : Point c) : K := c.d * p.x * q.x * p.y * q.y

/-- If the square of the cross product were 1, then `d` would be a square. -/
theorem cross_sq_ne (p q : Point c) : cross p q ^ 2 ≠ 1 := by
  intro one
  set e := cross p q with he
  have hp := p.on_curve
  have hq := q.on_curve
  have nonzero : e ≠ 0 := by
    intro zero
    rw [zero] at one
    norm_num at one
  have factors : p.x * p.y ≠ 0 ∧ q.y ≠ 0 := by
    constructor
    · intro zero
      exact nonzero (by rw [he, cross]; linear_combination c.d * q.x * q.y * zero)
    · intro zero
      exact nonzero (by rw [he, cross, zero, mul_zero])
  -- both roots of `a` give a square root of `d`, unless they vanish together
  have vanish : ∀ s : K, s * s = c.a → s * q.x + q.y = 0 := by
    intro s hs
    by_contra ne
    have square : (s * p.x + e * p.y) ^ 2 = c.d * (p.x * p.y * (s * q.x + q.y)) ^ 2 := by
      rw [he, cross] at one ⊢
      linear_combination (p.x ^ 2 + p.x ^ 2 * p.y ^ 2 * q.x ^ 2 * -c.d) * hs + hp +
        p.y ^ 2 * one - one
        - c.d * p.x ^ 2 * p.y ^ 2 * hq
    refine c.nonsquare ⟨(s * p.x + e * p.y) / (p.x * p.y * (s * q.x + q.y)), ?_⟩
    have ne' := mul_ne_zero factors.1 ne
    rw [div_mul_div_comm, eq_div_iff (mul_ne_zero ne' ne')]
    linear_combination -square
  have twice : 2 * q.y = 0 := by
    linear_combination vanish c.root c.root_sq + vanish (-c.root) (by rw [neg_mul_neg, c.root_sq])
  exact (mul_ne_zero c.two_ne factors.2) twice

theorem denom_ne (p q : Point c) : 1 + cross p q ≠ 0 ∧ 1 - cross p q ≠ 0 := by
  have ne := cross_sq_ne p q
  constructor
  · intro zero
    exact ne (by linear_combination (cross p q - 1) * zero)
  · intro zero
    exact ne (by linear_combination -(cross p q + 1) * zero)

/-! ## The group -/

instance : Zero (Point c) := ⟨⟨0, 1, by ring⟩⟩

instance : Neg (Point c) := ⟨fun p => ⟨-p.x, p.y, by linear_combination p.on_curve⟩⟩

theorem add_on_curve (p q : Point c) : c.a * ((p.x * q.y + p.y * q.x) / (1 + cross p q)) ^ 2 +
        ((p.y * q.y - c.a * p.x * q.x) / (1 - cross p q)) ^ 2 =
      1 + c.d * ((p.x * q.y + p.y * q.x) / (1 + cross p q)) ^ 2 *
        ((p.y * q.y - c.a * p.x * q.x) / (1 - cross p q)) ^ 2 := by
  obtain ⟨plus, minus⟩ := denom_ne p q
  have hp := p.on_curve
  have hq := q.on_curve
  field_simp
  unfold cross
  grind

instance : Add (Point c) :=
  ⟨fun p q => ⟨(p.x * q.y + p.y * q.x) / (1 + cross p q),
    (p.y * q.y - c.a * p.x * q.x) / (1 - cross p q), add_on_curve p q⟩⟩

@[simp] theorem zero_x : (0 : Point c).x = 0 := rfl

@[simp] theorem zero_y : (0 : Point c).y = 1 := rfl

@[simp] theorem neg_x (p : Point c) : (-p).x = -p.x := rfl

@[simp] theorem neg_y (p : Point c) : (-p).y = p.y := rfl

theorem add_x (p q : Point c) : (p + q).x = (p.x * q.y + p.y * q.x) / (1 + cross p q) := rfl

theorem add_y (p q : Point c) : (p + q).y = (p.y * q.y - c.a * p.x * q.x) / (1 - cross p q) := rfl

theorem cross_comm (p q : Point c) : cross p q = cross q p := by
  unfold cross
  ring

theorem add_comm (p q : Point c) : p + q = q + p := by
  ext
  · rw [add_x, add_x, cross_comm]
    ring
  · rw [add_y, add_y, cross_comm]
    ring

theorem zero_add (p : Point c) : 0 + p = p := by
  have none : cross 0 p = 0 := by simp [cross]
  ext
  · rw [add_x, none]
    simp
  · rw [add_y, none]
    simp

theorem neg_add (p : Point c) : -p + p = 0 := by
  have hp := p.on_curve
  obtain ⟨plus, minus⟩ := denom_ne (-p) p
  ext
  · rw [add_x, zero_x, neg_x, neg_y]
    ring
  · rw [add_y, zero_y, div_eq_one_iff_eq minus]
    simp only [cross, neg_x, neg_y]
    linear_combination hp

/-! ### Associativity

Both ways to add three points are quotients of polynomials in the six coordinates; the curve's
equations make them one. -/

section Associativity

variable (p q r : Point c)

def sumX : K := p.x * q.y + p.y * q.x

def sumY : K := p.y * q.y - c.a * p.x * q.x

/-- The inner denominators multiplied into the outer ones. -/
theorem cleared :
    (1 + cross p q) * (1 - cross p q) * cross (p + q) r = c.d * sumX p q * sumY p q *
      r.x * r.y := by
  obtain ⟨plus, minus⟩ := denom_ne p q
  have outer : cross (p + q) r =
      c.d * (sumX p q / (1 + cross p q)) * r.x * (sumY p q / (1 - cross p q)) * r.y := rfl
  rw [outer]
  field_simp

theorem cleared_ne : (1 + cross p q) * (1 - cross p q) + c.d * sumX p q * sumY p q * r.x * r.y ≠ 0 ∧
      (1 + cross p q) * (1 - cross p q) - c.d * sumX p q * sumY p q * r.x * r.y ≠ 0 := by
  obtain ⟨plus, minus⟩ := denom_ne p q
  obtain ⟨plus', minus'⟩ := denom_ne (p + q) r
  have inner := mul_ne_zero plus minus
  rw [← cleared]
  constructor
  · have := mul_ne_zero inner plus'
    rwa [mul_add, mul_one] at this
  · have := mul_ne_zero inner minus'
    rwa [mul_sub, mul_one] at this

theorem add_add_x : (p + q + r).x =
      (sumX p q * (1 - cross p q) * r.y + sumY p q * (1 + cross p q) * r.x) /
        ((1 + cross p q) * (1 - cross p q) + c.d * sumX p q * sumY p q * r.x * r.y) := by
  obtain ⟨plus, minus⟩ := denom_ne p q
  rw [add_x, div_eq_div_iff (denom_ne (p + q) r).1 (cleared_ne p q r).1, ← cleared, add_x, add_y,
    ← sumX, ← sumY]
  field_simp

theorem add_add_y : (p + q + r).y =
      (sumY p q * (1 + cross p q) * r.y - c.a * sumX p q * (1 - cross p q) * r.x) /
        ((1 + cross p q) * (1 - cross p q) - c.d * sumX p q * sumY p q * r.x * r.y) := by
  obtain ⟨plus, minus⟩ := denom_ne p q
  rw [add_y, div_eq_div_iff (denom_ne (p + q) r).2 (cleared_ne p q r).2, ← cleared, add_x, add_y,
    ← sumX, ← sumY]
  field_simp

theorem add_assoc : p + q + r = p + (q + r) := by
  have hp := p.on_curve
  have hq := q.on_curve
  have hr := r.on_curve
  rw [add_comm p (q + r)]
  ext
  · rw [add_add_x, add_add_x, div_eq_div_iff (cleared_ne p q r).1 (cleared_ne q r p).1]
    simp only [sumX, sumY, cross]
    grind
  · rw [add_add_y, add_add_y, div_eq_div_iff (cleared_ne p q r).2 (cleared_ne q r p).2]
    simp only [sumX, sumY, cross]
    grind

end Associativity

instance : AddCommGroup (Point c) where
  add_assoc := add_assoc
  zero_add := zero_add
  add_zero p := by rw [add_comm, zero_add]
  neg_add_cancel := neg_add
  add_comm := add_comm
  nsmul := nsmulRec
  zsmul := zsmulRec

end Edwards
