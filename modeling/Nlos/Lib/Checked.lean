import Mathlib

/-!
# Signed machine arithmetic that stops where it would overflow

A signed overflow in C has no meaning. `fit w x` is the result `x` of a signed operation on a type
of `w + 1` bits, or nothing where it does not fit; a routine written with it returns a value exactly
when none of its operations overflows.

A table of sums takes its terms one at a time (`addAt`).
-/

namespace Checked

/-- `x` is in the range of a signed type of `w + 1` bits. -/
def Fits (w : Nat) (x : Int) : Prop := -2 ^ w ≤ x ∧ x < 2 ^ w

instance (w : Nat) (x : Int) : Decidable (Fits w x) := inferInstanceAs (Decidable (_ ∧ _))

def fit (w : Nat) (x : Int) : Option Int := if Fits w x then some x else none

variable {x : Int} {α β : Type}

theorem Fits.of_abs {w : Nat} (h : |x| < 2 ^ w) : Fits w x :=
  ⟨(abs_lt.mp h).1.le, (abs_lt.mp h).2⟩

theorem fit_eq {w : Nat} (h : Fits w x) : fit w x = some x := if_pos h

theorem fit_of_abs {w : Nat} (h : |x| < 2 ^ w) : fit w x = some x :=
  fit_eq (.of_abs h)

/-- A step that returns, in front of the rest of a routine. -/
theorem bind_of_eq {m : Option α} {a : α} (h : m = some a) (f : α → Option β) :
    (m >>= f) = f a := by
  rw [h]
  rfl

theorem bind_fit {w : Nat} (h : |x| < 2 ^ w) (f : Int → Option α) : (fit w x >>= f) = f x :=
  bind_of_eq (fit_of_abs h) f

/-- A loop that fills an array entry by entry, and fails if one of them does. -/
def collect {α : Type} {n : Nat} (f : Fin n → Option α) : Option (Vector α n) :=
  if h : ∀ i, (f i).isSome then some (Vector.ofFn fun i => (f i).get (h i)) else none

theorem collect_eq {n : Nat} {f : Fin n → Option α} {g : Fin n → α}
    (h : ∀ i, f i = some (g i)) : collect f = some (Vector.ofFn g) := by
  unfold collect
  rw [dif_pos fun i => by rw [h i]; rfl]
  congr 2
  funext i
  exact Option.get_of_eq_some _ (h i)

/-- A loop that counts up from 0 keeps an invariant of its counter. -/
theorem countUp {n : Nat} (Inv : Nat → β → Prop) {f : β → Fin n → Option β}
    (step : ∀ (i : Fin n) b, Inv i b → ∃ b', f b i = some b' ∧ Inv (i + 1) b') {b : β}
    (start : Inv 0 b) : ∃ b', (List.finRange n).foldlM f b = some b' ∧ Inv n b' := by
  induction n with
  | zero => exact ⟨b, rfl, start⟩
  | succ n ih =>
    obtain ⟨b1, run1, inv1⟩ := ih fun i b => step i.castSucc b
    obtain ⟨b2, run2, inv2⟩ := step (Fin.last n) b1 inv1
    refine ⟨b2, ?_, inv2⟩
    rw [List.finRange_succ_last, List.foldlM_append, List.foldlM_map, run1]
    show [Fin.last n].foldlM f b1 = _
    rw [List.foldlM_cons, run2]
    rfl

theorem countDown {n : Nat} (Inv : Nat → β → Prop) {f : β → Fin n → Option β}
    (step : ∀ (i : Fin n) b, Inv (i + 1) b → ∃ b', f b i = some b' ∧ Inv i b') {b : β}
    (start : Inv n b) : ∃ b', (List.finRange n).reverse.foldlM f b = some b' ∧ Inv 0 b' := by
  induction n generalizing b with
  | zero => exact ⟨b, rfl, start⟩
  | succ n ih =>
    obtain ⟨b1, run1, inv1⟩ := step (Fin.last n) b start
    obtain ⟨b2, run2, inv2⟩ := ih (fun i b => step i.castSucc b) inv1
    refine ⟨b2, ?_, inv2⟩
    rw [List.finRange_succ_last, List.reverse_append, List.reverse_singleton, List.singleton_append,
      List.foldlM_cons, run1]
    show ((List.finRange n).map Fin.castSucc).reverse.foldlM f b1 = _
    rw [← List.map_reverse, List.foldlM_map]
    exact run2

section Tables

variable {n w : Nat} {R : Type} [CommRing R]

/-- Entry `k` of a table of sums takes the term `p`. -/
def addAt (w : Nat) (t : Vector Int n) (k : Nat) (p : Int) : Option (Vector Int n) :=
  if h : k < n then do
    let s ← fit w (t[k] + p)
    return t.set k s
  else none

def weigh (W : Nat → R) (t : Vector Int n) : R := ∑ i : Fin n, (t[i] : R) * W i

variable {k : Nat}

theorem addAt_eq {t : Vector Int n} {p : Int} (hk : k < n) (fits : |t[k] + p| < 2 ^ w) :
    addAt w t k p = some (t.set k (t[k] + p)) := by
  unfold addAt
  rw [dif_pos hk, fit_of_abs fits]
  rfl

theorem weigh_set (W : Nat → R) (t : Vector Int n) (hk : k < n) (x : Int) :
    weigh W (t.set k x) = weigh W t + ((x - t[k] : Int) : R) * W k := by
  unfold weigh
  have each : ∀ i : Fin n, ((t.set k x)[i] : R) * W i =
      (t[i] : R) * W i + if i = ⟨k, hk⟩ then ((x - t[k] : Int) : R) * W k else 0 := by
    intro i
    rcases eq_or_ne i ⟨k, hk⟩ with rfl | ne
    · simp only [Fin.getElem_fin, Vector.getElem_set_self, if_pos, Int.cast_sub]
      ring
    · have apart : k ≠ i.val := fun e => ne (Fin.ext e.symm)
      simp only [Fin.getElem_fin, Vector.getElem_set_ne _ _ apart, if_neg ne, add_zero]
  rw [Finset.sum_congr rfl fun i _ => each i, Finset.sum_add_distrib, Finset.sum_ite_eq']
  simp

/-- Every entry is bounded by its entry in `B`. -/
def Within (B : Vector Nat n) (h : Vector Int n) : Prop := ∀ i : Fin n, |h[i]| ≤ B[i]

theorem Within.get {B : Vector Nat n} {h : Vector Int n} (hB : Within B h) (hk : k < n) :
    |h[k]| ≤ B[k] :=
  hB ⟨k, hk⟩

theorem Within.set {B : Vector Nat n} {h : Vector Int n} (hB : Within B h) {b : Nat} (hk : k < n)
    (hx : |x| ≤ b) : Within (B.set k b) (h.set k x) := by
  intro i
  rw [Fin.getElem_fin, Fin.getElem_fin, Vector.getElem_set, Vector.getElem_set]
  split
  · exact hx
  · exact hB i

variable {ι : Type}

/-- The absolute values that a list of terms adds to entry `k`. -/
def load (place : ι → Nat) (v : ι → Int) (l : List ι) (k : Nat) : Int :=
  (l.map fun x => if place x = k then |v x| else 0).sum

theorem load_cons (place : ι → Nat) (v : ι → Int) (x : ι) (l : List ι) (k : Nat) :
    load place v (x :: l) k = (if place x = k then |v x| else 0) + load place v l k := rfl

theorem load_nonneg (place : ι → Nat) (v : ι → Int) (l : List ι) (k : Nat) :
    0 ≤ load place v l k := by
  refine List.sum_nonneg (List.forall_mem_map.mpr fun x _ => ?_)
  split
  · exact abs_nonneg _
  · exact le_refl _

/-- How many units a list of terms adds to entry `k`, where term `x` is `c x` units. -/
def tally (place : ι → Nat) (c : ι → Nat) (l : List ι) (k : Nat) : Nat :=
  (l.map fun x => if place x = k then c x else 0).sum

theorem load_le_tally (place : ι → Nat) {v : ι → Int} {c : ι → Nat} {m : Nat} {l : List ι}
    (bound : ∀ x ∈ l, |v x| ≤ (c x * m : Nat)) (k : Nat) :
    load place v l k ≤ (tally place c l k * m : Nat) := by
  induction l with
  | nil => simp [load, tally]
  | cons x l ih =>
    have first := bound x List.mem_cons_self
    have rest := ih fun y hy => bound y (List.mem_cons_of_mem _ hy)
    rw [load_cons, tally, List.map_cons, List.sum_cons, ← tally, Nat.add_mul]
    split
    · exact add_le_add first rest
    · rw [Nat.zero_mul, Nat.zero_add, zero_add]
      exact rest

/-- A loop that adds one term per turn to a table, each to its own entry. `P` is what the terms may
rely on: no addition destroys it. -/
theorem accumulate (W : Nat → R) (place : ι → Nat) (v : ι → Int)
    (term : Vector Int n → ι → Option Int) (P : Vector Int n → Prop) (l : List ι)
    (keeps : ∀ t x s, x ∈ l → (hk : place x < n) → P t → P (t.set (place x) s))
    (terms : ∀ t x, x ∈ l → P t → term t x = some (v x))
    (inside : ∀ x ∈ l, place x < n) (t : Vector Int n) (start : P t)
    (small : ∀ k (hk : k < n), |t[k]| + load place v l k < 2 ^ w) :
    ∃ t', l.foldlM (fun t x => do let p ← term t x; addAt w t (place x) p) t = some t' ∧ P t' ∧
      weigh W t' = weigh W t + (l.map fun x => (v x : R) * W (place x)).sum ∧
      ∀ k (hk : k < n), |t'[k]| ≤ |t[k]| + load place v l k := by
  induction l generalizing t with
  | nil =>
    refine ⟨t, rfl, start, ?_, fun k hk => ?_⟩
    · simp
    · exact le_add_of_nonneg_right (load_nonneg place v [] k)
  | cons x l ih =>
    have hk := inside x List.mem_cons_self
    -- the entry that takes the first term, after it
    have entry : |t[place x] + v x| + load place v l (place x) ≤
        |t[place x]| + load place v (x :: l) (place x) := by
      have := abs_add_le t[place x] (v x)
      rw [load_cons, if_pos rfl]
      omega
    have fits : |t[place x] + v x| < 2 ^ w := by
      have := load_nonneg place v l (place x)
      have := small (place x) hk
      omega
    have first : (do let p ← term t x; addAt w t (place x) p) =
        some (t.set (place x) (t[place x] + v x)) := by
      rw [terms t x List.mem_cons_self start]
      exact addAt_eq hk fits
    -- no entry's total has grown by the step
    have total : ∀ k (h : k < n), |(t.set (place x) (t[place x] + v x))[k]| + load place v l k ≤
        |t[k]| + load place v (x :: l) k := by
      intro k h
      rw [Vector.getElem_set]
      split
      next e => subst e; exact entry
      next ne => rw [load_cons, if_neg ne, zero_add]
    obtain ⟨t', run, kept, sum, bound⟩ := ih
      (fun t y s hy => keeps t y s (List.mem_cons_of_mem _ hy))
      (fun t y hy => terms t y (List.mem_cons_of_mem _ hy))
      (fun y hy => inside y (List.mem_cons_of_mem _ hy))
      (t.set (place x) (t[place x] + v x))
      (keeps t x _ List.mem_cons_self hk start)
      (fun k h => lt_of_le_of_lt (total k h) (small k h))
    refine ⟨t', ?_, kept, ?_, fun k h => (bound k h).trans (total k h)⟩
    · rw [List.foldlM_cons, first]
      exact run
    · rw [sum, weigh_set W t hk, List.map_cons, List.sum_cons, add_sub_cancel_left, add_assoc]

end Tables

end Checked
