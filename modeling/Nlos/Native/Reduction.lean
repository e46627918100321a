import Nlos.Native.Field

/-!
# Products modulo 2 ^ 255 - 19

The value of a field element, and what `fcarry`, `fM` and `fS` do to it. Bounds on limbs are kept
as a vector with one bound for each: a carry maps bounds to bounds (`carried`), so that the twelve
carries of a product are followed by evaluating that map twelve times.
-/

namespace Nlos.Native

open Checked Finset

def P : Nat := 2 ^ 255 - 19

def exponent (i : Nat) : Nat := (51 * i + 1) / 2

def weight (i : Nat) : ZMod P := 2 ^ exponent i

def value {n : Nat} (a : Vector Int n) : Int := weigh (fun i => 2 ^ exponent i) a

/-- The field element that limbs stand for. -/
def val {n : Nat} (a : Vector Int n) : ZMod P := weigh weight a

variable {n : Nat} {a h b : Gf} {x p : Int} {B : Vector Nat 10} {α R : Type} {t : Vector Int 19}

theorem cast_value (a : Vector Int n) : (value a : ZMod P) = val a := by
  simp [value, val, weigh, weight]

theorem two_pow_255 : (2 : ZMod P) ^ 255 = 19 := by
  have zero : ((2 ^ 255 - 19 : Nat) : ZMod P) = 0 := ZMod.natCast_self P
  rw [Nat.cast_sub (by norm_num), sub_eq_zero] at zero
  exact_mod_cast zero

theorem exponent_succ (i : Nat) : exponent (i + 1) = exponent i + FW i := by
  unfold exponent FW
  split <;> omega

theorem weight_succ (i : Nat) : weight (i + 1) = weight i * 2 ^ FW i := by
  rw [weight, exponent_succ, pow_add]
  rfl

theorem weight_add_ten (i : Nat) : weight (i + 10) = 19 * weight i := by
  have up : exponent (i + 10) = 255 + exponent i := by unfold exponent; omega
  rw [weight, up, pow_add, two_pow_255]
  rfl

/-- Two odd limbs meet one bit below the sum of their weights. -/
theorem weight_mul (i j : Nat) : weight i * weight j =
    (if i % 2 = 1 ∧ j % 2 = 1 then 2 else 1) * weight (i + j) := by
  have sum : exponent i + exponent j =
      (if i % 2 = 1 ∧ j % 2 = 1 then 1 else 0) + exponent (i + j) := by
    unfold exponent
    split <;> omega
  unfold weight
  rw [← pow_add, sum, pow_add]
  split <;> simp

/-! ## Bounds -/

/-- Every limb is at most `m` in absolute value. -/
def Limbs (m : Nat) (a : Gf) : Prop := ∀ i : Fin 10, |getElem a i (lt10 i)| ≤ m

instance (m : Nat) (a : Gf) : Decidable (Limbs m a) := inferInstanceAs (Decidable (∀ _, _))

theorem Limbs.mono {m m' : Nat} (h : Limbs m a) (le : m ≤ m') : Limbs m' a := by
  intro i
  have := h i
  omega

theorem mul19_eq (h : |x| < 2 ^ 58) : mul19 x = some (19 * x) := by
  have ⟨lo, hi⟩ := abs_lt.mp h
  unfold mul19
  rw [Int.shiftLeft_eq, Int.shiftLeft_eq, bind_fit (abs_lt.mpr (by omega)),
    bind_fit (abs_lt.mpr (by omega)), bind_fit (abs_lt.mpr (by omega)),
    int64, fit_of_abs (abs_lt.mpr (by omega))]
  congr 1
  ring

/-- A rounding shift: what is left is balanced around zero, and the carry is the nearest
multiple. -/
theorem round_shift {B w : Nat} (hw : 0 < w) (hx : |x| ≤ B) :
    |x - (x + 2 ^ (w - 1)) >>> w * 2 ^ w| ≤ 2 ^ (w - 1) ∧
      |(x + 2 ^ (w - 1)) >>> w| ≤ ((B + 2 ^ (w - 1)) / 2 ^ w : Nat) := by
  obtain ⟨v, rfl⟩ : ∃ v, w = v + 1 := ⟨w - 1, by omega⟩
  rw [Nat.add_sub_cancel, Int.shiftRight_eq_div_pow]
  have split := Int.mul_ediv_add_emod (x + 2 ^ v) (2 ^ (v + 1))
  have below := Int.emod_lt_of_pos (x + 2 ^ v) (b := 2 ^ (v + 1)) (by positivity)
  have above := Int.emod_nonneg (x + 2 ^ v) (b := 2 ^ (v + 1)) (by positivity)
  push_cast
  generalize (x + 2 ^ v) / 2 ^ (v + 1) = c at split ⊢
  generalize (x + 2 ^ v) % 2 ^ (v + 1) = r at split below above
  have ⟨lo, hi⟩ := abs_le.mp hx
  have low : c * 2 ^ (v + 1) = x + 2 ^ v - r := by rw [mul_comm]; omega
  constructor
  · rw [low, abs_le]
    constructor <;> omega
  · rw [Int.le_ediv_iff_mul_le (by positivity), ← abs_of_pos (a := (2 : Int) ^ (v + 1)) (by positivity),
      ← abs_mul, low, abs_le]
    constructor <;> omega

/-! ## The carry chain -/

/-- The bounds after the carry out of limb `k`. -/
def carried (B : Vector Nat 10) (k : Fin 10) : Vector Nat 10 :=
  let c := (getElem B k (lt10 k) + 2 ^ (FW k - 1)) / 2 ^ FW k
  let B := B.set k (2 ^ (FW k - 1)) (lt10 k)
  if h : k.val = 9 then B.set 0 (B[0] + 19 * c) else B.set (k.val + 1) (B[k.val + 1] + c)

/-- No entry comes near the end of 64 bits. -/
def Room (B : Vector Nat 10) : Prop := ∀ i : Fin 10, getElem B i (lt10 i) < 2 ^ 62

instance (B : Vector Nat 10) : Decidable (Room B) := inferInstanceAs (Decidable (∀ _, _))

theorem FW_cases (i : Nat) : FW i = 25 ∨ FW i = 26 := by
  unfold FW
  split
  · exact .inl rfl
  · exact .inr rfl

/-- Taking `p` into one entry of a bounded table. -/
theorem addAt_within {B : Vector Nat n} {h : Vector Int n} {k c : Nat}
    (hB : Within B h) (hk : k < n) (hp : |p| ≤ c) (room : B[k] + c < 2 ^ 63) :
    ∃ h', addAt 63 h k p = some h' ∧ Within (B.set k (B[k] + c)) h' ∧
      val h' = val h + p * weight k := by
  have old := hB.get hk
  have sum : |h[k] + p| ≤ (B[k] + c : Nat) := by
    have := abs_add_le h[k] p
    omega
  refine ⟨_, addAt_eq hk (by omega), hB.set hk sum, ?_⟩
  rw [val, weigh_set _ _ hk, add_sub_cancel_left]
  rfl

theorem carry_spec {k : Fin 10} (hB : Within B h) (room : Room B) (room' : Room (carried B k)) :
    ∃ h', carry h k = some h' ∧ Within (carried B k) h' ∧ val h' = val h := by
  have hk := hB k
  have top := room k
  obtain ⟨rest, nearest⟩ := round_shift (w := FW k) (by rcases FW_cases k with e | e <;> omega) hk
  have small : (2 : Int) ^ (FW k - 1) ≤ 2 ^ 25 := by rcases FW_cases k with e | e <;> simp [e]
  have few : (B[k] + 2 ^ (FW k - 1)) / 2 ^ FW k < 2 ^ 38 := by
    rcases FW_cases k with e | e <;> rw [e] <;> omega
  -- the limb, rounded
  have sum : |h[k] + 2 ^ (FW k - 1)| < 2 ^ 63 := by
    have pos : (0 : Int) ≤ 2 ^ (FW k - 1) := by positivity
    rw [abs_lt]
    rw [abs_le] at hk
    omega
  set c := (h[k] + 2 ^ (FW k - 1)) >>> FW k with hc
  have shifted : |c * 2 ^ FW k| < 2 ^ 63 := by
    rw [abs_lt]
    rw [abs_le] at hk rest
    omega
  have left : |h[k] - c * 2 ^ FW k| < 2 ^ 63 := by omega
  have rounded : Within (B.set k (2 ^ (FW k - 1))) (h.set k (h[k] - c * 2 ^ FW k)) :=
    hB.set k.isLt (by push_cast; exact rest)
  have loss : val (h.set k (h[k] - c * 2 ^ FW k)) = val h - c * weight (k + 1) := by
    rw [val, weigh_set _ _ k.isLt, weight_succ, sub_right_comm, Fin.getElem_fin, sub_self]
    push_cast
    rw [val]
    ring
  have start : carry h k = if k = 9 then mul19 c >>= addAt 63 (h.set k (h[k] - c * 2 ^ FW k)) 0
      else addAt 63 (h.set k (h[k] - c * 2 ^ FW k)) (k + 1) c := by
    unfold carry
    rw [bind_fit sum]
    dsimp only
    rw [← hc, Int.shiftLeft_eq, bind_fit shifted, bind_fit left]
  rw [start]
  unfold carried at room' ⊢
  split
  next last =>
    have nine : k.val = 9 := congrArg Fin.val last
    rw [dif_pos nine] at room' ⊢
    rw [bind_of_eq (mul19_eq (by omega))]
    have bound : |19 * c| ≤ (19 * ((B[k] + 2 ^ (FW k - 1)) / 2 ^ FW k) : Nat) := by
      rw [abs_mul, Nat.cast_mul]
      exact mul_le_mul_of_nonneg_left nearest (by norm_num)
    have far := room' 0
    obtain ⟨h', run, within, value⟩ := addAt_within rounded (k := 0) (by decide) bound (by
      simp only [Fin.getElem_fin, Fin.coe_ofNat_eq_mod, Nat.zero_mod, Vector.getElem_set_self]
        at far
      exact lt_trans far (by norm_num))
    refine ⟨h', run, within, ?_⟩
    rw [value, loss, nine, weight_add_ten 0]
    push_cast
    ring
  next notlast =>
    have inner : ¬ k.val = 9 := fun e => notlast (Fin.ext e)
    rw [dif_neg inner] at room' ⊢
    have far := room' ⟨k.val + 1, by omega⟩
    obtain ⟨h', run, within, value⟩ := addAt_within rounded (k := k.val + 1) (by omega) nearest (by
      simp only [Fin.getElem_fin, Vector.getElem_set_self] at far
      exact lt_trans far (by norm_num))
    refine ⟨h', run, within, ?_⟩
    rw [value, loss]
    ring

/-- The bounds leave room at every carry of the chain `l`. -/
def Affordable : List (Fin 10) → Vector Nat 10 → Prop
  | [], _ => True
  | k :: l, B => Room B ∧ Room (carried B k) ∧ Affordable l (carried B k)

instance : (l : List (Fin 10)) → (B : Vector Nat 10) → Decidable (Affordable l B)
  | [], _ => inferInstanceAs (Decidable True)
  | k :: l, B =>
    have := instDecidableAffordable l (carried B k)
    inferInstanceAs (Decidable (_ ∧ _ ∧ _))

theorem chain_spec {l : List (Fin 10)} (hB : Within B h) (room : Affordable l B) :
    ∃ h', l.foldlM carry h = some h' ∧ Within (l.foldl carried B) h' ∧ val h' = val h := by
  induction l generalizing B h with
  | nil => exact ⟨h, rfl, hB, rfl⟩
  | cons k l ih =>
    obtain ⟨r, r', rest⟩ := room
    obtain ⟨h1, run1, within1, value1⟩ := carry_spec hB r r'
    obtain ⟨h2, run2, within2, value2⟩ := ih within1 rest
    refine ⟨h2, ?_, within2, value2.trans value1⟩
    rw [List.foldlM_cons, run1]
    exact run2

/-- A store of bounded limbs. The conditions are on the bounds alone. -/
theorem fstore_spec (hB : Within B h) (room : Affordable FCARRY B)
    (small : ∀ i : Fin 10, getElem (FCARRY.foldl carried B) i i.isLt ≤ 2 ^ 25) :
    ∃ o, fstore h = some o ∧ Limbs (2 ^ 25) o ∧ val o = val h := by
  obtain ⟨h', run, within, value⟩ := chain_spec hB room
  have limb : ∀ i : Fin 10, |h'[i]| ≤ (2 ^ 25 : Nat) := by
    intro i
    have := within i
    have := small i
    omega
  have narrow : ∀ i : Fin 10, int32 h'[i] = some h'[i] := by
    intro i
    have := limb i
    exact fit_of_abs (by omega)
  have same : Vector.ofFn (fun i : Fin 10 => h'[i]) = h' := by ext i hi; simp
  refine ⟨h', ?_, limb, value⟩
  unfold fstore fcarry
  rw [bind_of_eq run, collect_eq narrow, same]

/-! ## The table of products -/

def operandMax : Nat := 165 * 2 ^ 26 / 100

/-- How often the product of a pair of limbs counts. -/
def doubling (x : Fin 10 × Fin 10) : Nat := if x.1.val % 2 = 1 ∧ x.2.val % 2 = 1 then 2 else 1

/-- Where the product of a pair of limbs goes. -/
def slot (x : Fin 10 × Fin 10) : Nat := x.1.val + x.2.val

theorem slot_lt (x : Fin 10 × Fin 10) : slot x < 19 := by
  unfold slot
  omega

/-- What lands on entry `k` of a table of products of operands, in units of `operandMax ^ 2`. -/
def share (k : Nat) : Nat := tally slot doubling pairs k

theorem sum_map_product {β : Type} [AddCommMonoid R] (l : List α) (l' : List β) (f : α × β → R) :
    ((l ×ˢ l').map f).sum = (l.map fun a => (l'.map fun b => f (a, b)).sum).sum := by
  induction l with
  | nil => rfl
  | cons a l ih =>
    rw [List.product_cons, List.map_append, List.sum_append, ih, List.map_map]
    rfl

theorem sum_pairs [AddCommMonoid R] (f : Fin 10 × Fin 10 → R) :
    (pairs.map f).sum = ∑ i, ∑ j, f (i, j) := by
  rw [pairs, sum_map_product, Fin.sum_univ_def]
  simp only [Fin.sum_univ_def]

theorem val_mul (a b : Gf) : val a * val b = ∑ i : Fin 10, ∑ j : Fin 10,
      (getElem a i i.isLt * getElem b j j.isLt * doubling (i, j) : Int) * weight (slot (i, j)) := by
  unfold val weigh
  rw [sum_mul_sum]
  refine sum_congr rfl fun i _ => sum_congr rfl fun j _ => ?_
  have both := weight_mul i j
  unfold doubling slot
  split
  next odd =>
    rw [if_pos odd] at both
    push_cast
    linear_combination (a[i] : ZMod P) * b[j] * both
  next even =>
    rw [if_neg even] at both
    push_cast
    linear_combination (a[i] : ZMod P) * b[j] * both

theorem abs_limb_mul (ha : Limbs operandMax a) (hb : Limbs operandMax b)
    (i j : Fin 10) : |getElem a i i.isLt * getElem b j j.isLt| ≤ (operandMax ^ 2 : Nat) := by
  rw [abs_mul, pow_two, Nat.cast_mul]
  exact mul_le_mul (ha i) (hb j) (abs_nonneg _) (by positivity)

theorem abs_term_le (ha : Limbs operandMax a) (hb : Limbs operandMax b)
    (x : Fin 10 × Fin 10) (c : Nat) :
    |getElem a x.1 x.1.isLt * getElem b x.2 x.2.isLt * c| ≤ (c * operandMax ^ 2 : Nat) := by
  rw [abs_mul, abs_of_nonneg (Int.natCast_nonneg _), mul_comm, Nat.cast_mul]
  exact mul_le_mul_of_nonneg_left (abs_limb_mul ha hb x.1 x.2) (Int.natCast_nonneg _)

/-- A table of sums of products, each as often as it counts. -/
theorem table_spec (ha : Limbs operandMax a) (hb : Limbs operandMax b) {l : List (Fin 10 × Fin 10)}
    {c : Fin 10 × Fin 10 → Nat} {f : Fin 10 × Fin 10 → Option Int}
    (hf : ∀ x, f x = some (getElem a x.1 x.1.isLt * getElem b x.2 x.2.isLt * c x))
    (hc : ∀ k : Fin 19, tally slot c l k = share k) :
    ∃ t,
      l.foldlM (fun t x => do let p ← f x; addAt 63 t (slot x) p) (Vector.replicate 19 0) = some t ∧
      val t =
        (l.map fun x => ((getElem a x.1 x.1.isLt * getElem b x.2 x.2.isLt * c x : Int) : ZMod P) *
        weight (slot x)).sum ∧
      ∀ k (hk : k < 19), |t[k]| ≤ (share k * operandMax ^ 2 : Nat) := by
  have shares : ∀ k : Fin 19, share k * operandMax ^ 2 < 2 ^ 62 := by decide +kernel
  have loads : ∀ k (hk : k < 19),
      load slot (fun x => a[x.1] * b[x.2] * c x) l k ≤ (share k * operandMax ^ 2 : Nat) :=
    fun k hk => hc ⟨k, hk⟩ ▸ load_le_tally slot (fun x _ => abs_term_le ha hb x (c x)) k
  obtain ⟨t, run, -, sum, bound⟩ :=
    accumulate (w := 63) weight slot (fun x => a[x.1] * b[x.2] * c x) (fun _ => f)
    (fun _ => True) l (fun _ _ _ _ _ _ => trivial) (fun _ x _ _ => hf x) (fun x _ => slot_lt x)
    (Vector.replicate 19 0) trivial (fun k hk => by
      rw [Vector.getElem_replicate, abs_zero, zero_add]
      exact lt_of_le_of_lt (loads k hk) (by have := shares ⟨k, hk⟩; dsimp only at this; omega))
  refine ⟨t, run, ?_, fun k hk => ?_⟩
  · rw [val, sum]
    simp [weigh]
  · have := bound k hk
    rw [Vector.getElem_replicate, abs_zero, zero_add] at this
    exact this.trans (loads k hk)

theorem products_spec (ha : Limbs operandMax a) (hb : Limbs operandMax b) :
    ∃ t, products a b = some t ∧ val t = val a * val b ∧
      ∀ k (hk : k < 19), |t[k]| ≤ (share k * operandMax ^ 2 : Nat) := by
  have max : operandMax = 110729625 := by decide
  -- the second operand's odd limbs, doubled
  have twice : ∀ j : Fin 10, (if j.val % 2 = 1 then int32 (2 * b[j]) else some b[j]) =
      some (if j.val % 2 = 1 then 2 * b[j] else b[j]) := by
    intro j
    have := abs_le.mp (hb j)
    split
    · exact fit_of_abs (abs_lt.mpr (by omega))
    · rfl
  have row : ∀ x : Fin 10 × Fin 10,
      a[x.1] * (if x.1.val % 2 = 1 then
        (Vector.ofFn fun j : Fin 10 => if j.val % 2 = 1 then 2 * b[j] else b[j])[x.2]
        else b[x.2]) = a[x.1] * b[x.2] * doubling x := by
    intro x
    unfold doubling
    simp only [Fin.getElem_fin, Vector.getElem_ofFn]
    split
    · split
      next odd odd' => rw [if_pos ⟨odd, odd'⟩]; push_cast; ring
      next odd even => rw [if_neg fun h => even h.2]; push_cast; ring
    next even => rw [if_neg fun h => even h.1]; push_cast; ring
  have big : ∀ x : Fin 10 × Fin 10, doubling x * operandMax ^ 2 < 2 ^ 62 := by decide +kernel
  obtain ⟨t, run, sum, bound⟩ := table_spec ha hb (l := pairs) (c := doubling)
    (f := fun x => int64 (a[x.1] * if x.1.val % 2 = 1 then
      (Vector.ofFn fun j : Fin 10 => if j.val % 2 = 1 then 2 * b[j] else b[j])[x.2] else b[x.2]))
    (fun x => by
      rw [row x]
      have := abs_term_le ha hb x (doubling x)
      have := big x
      exact fit_of_abs (by omega))
    fun _ => rfl
  refine ⟨t, ?_, ?_, bound⟩
  · unfold products
    rw [bind_of_eq (collect_eq twice)]
    exact run
  · rw [sum, val_mul, sum_pairs]

/-! ## The table of squares -/

/-- A symmetric sum over all pairs, each pair of different indices once. -/
theorem sum_symmetric [CommRing R] (g : Fin n → Fin n → R) (symmetric : ∀ i j, g i j = g j i) :
    ∑ i, ∑ j, (if i ≤ j then (if i ≠ j then 2 else 1) * g i j else 0) = ∑ i, ∑ j, g i j := by
  have split : ∀ i j, (if i ≤ j then (if i ≠ j then 2 else 1) * g i j else 0) =
      (if i ≤ j then g i j else 0) + (if i < j then g i j else 0) := by
    intro i j
    rcases lt_trichotomy i j with lt | rfl | gt
    · rw [if_pos lt.le, if_pos lt.ne, if_pos lt.le, if_pos lt, two_mul]
    · simp
    · rw [if_neg gt.not_ge, if_neg gt.not_ge, if_neg gt.not_gt, add_zero]
  have rest : ∀ i j, g i j = (if i ≤ j then g i j else 0) + (if j < i then g j i else 0) := by
    intro i j
    rcases le_or_gt i j with le | gt
    · rw [if_pos le, if_neg le.not_gt, add_zero]
    · rw [if_neg gt.not_ge, if_pos gt, zero_add, symmetric]
  rw [sum_congr rfl fun i _ => sum_congr rfl fun j _ => split i j]
  conv_rhs => rw [sum_congr rfl fun i _ => sum_congr rfl fun j _ => rest i j]
  simp only [sum_add_distrib]
  congr 1
  exact sum_comm

theorem sum_map_filter_ite [AddCommMonoid R] (q : α → Prop) [DecidablePred q]
    (f : α → R) (l : List α) :
    ((l.filter fun x => q x).map f).sum = (l.map fun x => if q x then f x else 0).sum := by
  induction l with
  | nil => rfl
  | cons x l ih =>
    rw [List.filter_cons, List.map_cons, List.sum_cons, ← ih]
    by_cases h : q x <;> simp [h]

/-- How often the product of a pair of limbs counts in a square. -/
def doublings (x : Fin 10 × Fin 10) : Nat := doubling x * if x.1 ≠ x.2 then 2 else 1

/-- A pair of different limbs counts twice in a square, where a product meets it twice. -/
theorem share_squares : ∀ k : Fin 19,
    tally slot doublings (pairs.filter fun x => x.1 ≤ x.2) k = share k := by
  decide +kernel

theorem doubleIf_eq (c : Prop) [Decidable c] (h : |p| < 2 ^ 62) :
    doubleIf c p = some (p * if c then 2 else 1) := by
  unfold doubleIf
  rw [abs_lt] at h
  split
  · exact fit_of_abs (abs_lt.mpr (by omega))
  · rw [mul_one]

theorem squareTerm_eq (ha : Limbs operandMax a) (x : Fin 10 × Fin 10) :
    squareTerm a x = some (getElem a x.1 x.1.isLt * getElem a x.2 x.2.isLt * doublings x) := by
  have max : operandMax ^ 2 < 2 ^ 60 := by decide
  have one := abs_limb_mul ha ha x.1 x.2
  have two : |a[x.1] * a[x.2] * if x.1.val % 2 = 1 ∧ x.2.val % 2 = 1 then 2 else 1| < 2 ^ 62 := by
    split
    · rw [abs_mul, abs_of_pos (by norm_num : (0 : Int) < 2)]
      omega
    · rw [mul_one]
      omega
  unfold squareTerm
  rw [bind_fit (by omega), bind_of_eq (doubleIf_eq _ (by omega)), doubleIf_eq _ two, mul_assoc]
  unfold doublings doubling
  push_cast
  rfl

theorem squares_spec (ha : Limbs operandMax a) : ∃ t, squares a = some t ∧ val t = val a * val a ∧
      ∀ k (hk : k < 19), |t[k]| ≤ (share k * operandMax ^ 2 : Nat) := by
  obtain ⟨t, run, sum, bound⟩ := table_spec ha ha (squareTerm_eq ha) share_squares
  refine ⟨t, run, ?_, bound⟩
  have pairwise := sum_symmetric
    (fun i j : Fin 10 => (a[i] * a[j] * doubling (i, j) : Int) * weight (slot (i, j)))
    (fun i j => by
      simp only [doubling, slot, and_comm, add_comm, mul_comm])
  rw [sum, val_mul, ← pairwise, sum_map_filter_ite, sum_pairs]
  refine sum_congr rfl fun i _ => sum_congr rfl fun j _ => ?_
  unfold doublings
  split
  · split <;> push_cast <;> ring
  · rfl

/-! ## The reduction -/

/-- The bounds of a table of products after the wrap. -/
def wrapped : Vector Nat 10 :=
  Vector.ofFn fun k : Fin 10 => (share k + 19 * share (k + 10)) * operandMax ^ 2

/-- A table of nineteen entries is its low ten and its high nine. -/
theorem val_split (t : Vector Int 19) :
    val t = val (low t) + ∑ i :
    Fin 9, (getElem t (i.val + 10) (Nat.add_lt_add_right i.isLt 10) : ZMod P) *
      weight (i + 10) := by
  unfold val weigh
  rw [Fin.sum_univ_add (b := 9)]
  have lower : ∀ i : Fin 10, (low t)[i] = t[i.val] := fun i => by simp [low]
  have upper : ∀ i : Fin 9, t[(Fin.natAdd 10 i).val] = t[i.val + 10] := fun i => by simp [add_comm]
  refine congrArg₂ (· + ·) ?_ ?_
  · refine sum_congr rfl fun i _ => ?_
    rw [lower i]
    rfl
  · refine sum_congr rfl fun i _ => ?_
    rw [Fin.getElem_fin, upper i, Fin.val_natAdd, add_comm 10]

theorem wrap_spec (bound : ∀ k (hk : k < 19), |t[k]| ≤ (share k * operandMax ^ 2 : Nat)) :
    ∃ t', wrap t = some t' ∧ Within wrapped (low t') ∧ val (low t') = val t := by
  have shares : ∀ k : Fin 19, share k * operandMax ^ 2 < 2 ^ 58 := by decide +kernel
  have top : ∀ i : Fin 9, |t[i.val + 10]| < 2 ^ 58 := by
    intro i
    have := bound (i + 10) (by omega)
    have := shares ⟨i + 10, by omega⟩
    dsimp only at this
    omega
  -- what comes back to entry `k`
  have loads : ∀ k (hk : k < 19), load (fun i : Fin 9 => i.val) (fun i => 19 * t[i.val + 10])
      (List.finRange 9) k ≤ (19 * share (k + 10) * operandMax ^ 2 : Nat) := by
    intro k hk
    have once : ∀ k : Fin 19,
      tally (fun i : Fin 9 => i.val) (fun i => 19 * share (i + 10)) (List.finRange 9) k =
        19 * share (k + 10) := by decide +kernel
    rw [← once ⟨k, hk⟩]
    refine load_le_tally _ (fun i _ => ?_) k
    rw [abs_mul, mul_assoc 19, Nat.cast_mul]
    exact mul_le_mul_of_nonneg_left (bound (i + 10) (by omega)) (by norm_num)
  have room : ∀ k : Fin 19, share k * operandMax ^ 2 + 19 * share (k + 10) * operandMax ^ 2 <
      2 ^ 62 := by decide +kernel
  obtain ⟨t', run, same, sum, bound'⟩ := accumulate (w := 63) weight (fun i : Fin 9 => i.val)
    (fun i => 19 * t[i.val + 10]) (fun t i => mul19 t[i.val + 10])
    (fun s => ∀ i : Fin 9, s[i.val + 10] = t[i.val + 10]) (List.finRange 9)
    (fun s i x _ _ kept j => by
      rw [Vector.getElem_set_ne _ _ (by omega)]
      exact kept j)
    (fun s i _ kept => by rw [kept i]; exact mul19_eq (top i))
    (fun i _ => by omega) t (fun _ => rfl)
    (fun k hk => by
      have := bound k hk
      have := loads k hk
      have := room ⟨k, hk⟩
      dsimp only at this
      omega)
  refine ⟨t', run, fun k => ?_, ?_⟩
  · have := bound' k (by omega)
    have := bound k (by omega)
    have := loads k (by omega)
    simp only [low, wrapped, Fin.getElem_fin, Vector.getElem_ofFn, Nat.add_mul] at this ⊢
    omega
  · have both := val_split t'
    rw [sum_congr rfl fun i _ => by rw [same i, weight_add_ten]] at both
    have grown : val t' = val t + ∑ i : Fin 9,
        ((19 * t[i.val + 10] : Int) : ZMod P) * weight i := by
      rw [val, sum, ← Fin.sum_univ_def]
      rfl
    have back : ∑ i : Fin 9, (t[i.val + 10] : ZMod P) * (19 * weight i) =
        ∑ i : Fin 9, ((19 * t[i.val + 10] : Int) : ZMod P) * weight i := by
      refine sum_congr rfl fun i _ => ?_
      push_cast
      ring
    rw [back] at both
    linear_combination grown - both

theorem reduce_spec (bound : ∀ k (hk : k < 19), |t[k]| ≤ (share k * operandMax ^ 2 : Nat)) :
    ∃ o, (do let t ← wrap t; fstore (low t)) = some o ∧ Limbs (2 ^ 25) o ∧ val o = val t := by
  obtain ⟨t', run, within, value⟩ := wrap_spec bound
  obtain ⟨o, store, small, value'⟩ :=
    fstore_spec within (by decide +kernel) (by decide +kernel)
  refine ⟨o, ?_, small, value'.trans value⟩
  rw [run]
  exact store

theorem fM_spec (ha : Limbs operandMax a) (hb : Limbs operandMax b) :
    ∃ o, fM a b = some o ∧ Limbs (2 ^ 25) o ∧ val o = val a * val b := by
  obtain ⟨t, table, product, bound⟩ := products_spec ha hb
  obtain ⟨o, reduced, small, value⟩ := reduce_spec bound
  refine ⟨o, ?_, small, value.trans product⟩
  unfold fM
  rw [table]
  exact reduced

theorem fS_spec (ha : Limbs operandMax a) :
    ∃ o, fS a = some o ∧ Limbs (2 ^ 25) o ∧ val o = val a * val a := by
  obtain ⟨t, table, product, bound⟩ := squares_spec ha
  obtain ⟨o, reduced, small, value⟩ := reduce_spec bound
  refine ⟨o, ?_, small, value.trans product⟩
  unfold fS
  rw [table]
  exact reduced

end Nlos.Native
