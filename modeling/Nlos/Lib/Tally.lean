import Mathlib

/-!
# Tallies: a weight summed over a table

A table is a list of slots. `tally f l` adds up the weight `f` of every slot. The one fact the users
of this module need is what happens to the sum when one slot is rewritten (`tally_set`): the weight
of the old contents goes, the weight of the new contents comes.
-/

namespace Tally

variable {α β : Type}

/-- The weight `f` summed over the slots of `l`. -/
def tally (f : α → Nat) (l : List α) : Nat := (l.map f).sum

@[simp] theorem tally_nil (f : α → Nat) : tally f [] = 0 := rfl

@[simp] theorem tally_cons (f : α → Nat) (a : α) (l : List α) :
    tally f (a :: l) = f a + tally f l := by
  simp [tally]

@[simp] theorem tally_append (f : α → Nat) (l m : List α) :
    tally f (l ++ m) = tally f l + tally f m := by
  simp [tally]

variable {f g : α → Nat} {l : List α} {i : Nat} {a : α}

/-- Rewriting slot `i` from `a` to `b` trades the weight of `a` for the weight of `b`. -/
theorem tally_set (b : α) (h : l[i]? = some a) : tally f (l.set i b) + f a = tally f l + f b := by
  induction l generalizing i with
  | nil => simp at h
  | cons x l ih =>
    cases i with
    | zero =>
      simp only [List.getElem?_cons_zero, Option.some.injEq] at h
      subst h
      simp only [List.set_cons_zero, tally_cons]
      omega
    | succ i =>
      have := ih h
      simp only [List.set_cons_succ, tally_cons]
      omega

theorem set_slot {b : α} (h : l[i]? = some a) : (l.set i b)[i]? = some b :=
  List.getElem?_set_self (List.getElem?_eq_some_iff.mp h).1

theorem le_tally (h : a ∈ l) : f a ≤ tally f l := List.le_sum_of_mem (List.mem_map_of_mem h)

theorem le_tally_getElem? (h : l[i]? = some a) : f a ≤ tally f l :=
  le_tally (List.mem_of_getElem? h)

/-- A tally is zero exactly when every slot weighs nothing. -/
theorem tally_eq_zero : tally f l = 0 ↔ ∀ a ∈ l, f a = 0 := by
  induction l with
  | nil => simp
  | cons x l ih => simp [ih]

theorem tally_le_of_le (h : ∀ a ∈ l, f a ≤ g a) : tally f l ≤ tally g l := List.sum_le_sum h

theorem tally_congr (h : ∀ a ∈ l, f a = g a) : tally f l = tally g l :=
  congrArg List.sum (List.map_congr_left h)

theorem tally_map (f : β → Nat) (g : α → β) (l : List α) :
    tally f (l.map g) = tally (fun a => f (g a)) l := by
  simp [tally, Function.comp_def]

theorem tally_replicate_zero (n : Nat) (h : f a = 0) : tally f (List.replicate n a) = 0 := by
  rw [tally_eq_zero]
  intro b hb
  rw [List.eq_of_mem_replicate hb, h]

theorem countP_eq_tally (p : α → Bool) (l : List α) :
    l.countP p = tally (fun a => if p a then 1 else 0) l := by
  induction l with
  | nil => simp
  | cons x l ih =>
    rw [List.countP_cons, ih, tally_cons]
    omega

/-! ## Tables that grow -/

/-- A slot that is written, and made where it was not there. -/
theorem getElem?_grow (hi : i ≤ l.length) (b : α) (j : Nat) :
    (if i < l.length then l.set i b else l ++ [b])[j]? = if j = i then some b else l[j]? := by
  split
  next hlt =>
    split
    next hj => rw [hj, List.getElem?_set_self hlt]
    next hj => exact List.getElem?_set_ne (Ne.symm hj)
  next hge =>
    obtain rfl : i = l.length := Nat.le_antisymm hi (Nat.le_of_not_lt hge)
    split
    next hj => rw [hj, List.getElem?_concat_length]
    next hj =>
    rw [List.getElem?_append]
    split
    · rfl
    · rw [List.getElem?_eq_none (by simp; omega), List.getElem?_eq_none (by omega)]

theorem tally_grow (h : ∀ a, l[i]? = some a → f a = 0) (b : α) :
    tally f (if i < l.length then l.set i b else l ++ [b]) = tally f l + f b := by
  split
  next hlt =>
    have h1 := tally_set (f := f) b (List.getElem?_eq_getElem hlt)
    rwa [h _ (List.getElem?_eq_getElem hlt)] at h1
  · rw [tally_append]
    rfl

theorem join_findIdx (l : List (Option α)) : l[l.findIdx (·.isNone)]?.join = none := by
  cases h : l[l.findIdx (·.isNone)]? with
  | none => rfl
  | some a =>
    obtain ⟨hlt, rfl⟩ := List.getElem?_eq_some_iff.mp h
    exact Option.isNone_iff_eq_none.mp List.findIdx_getElem

theorem findIdx_le_of_join {l : List (Option α)} (h : l[i]?.join = none) :
    l.findIdx (·.isNone) ≤ i := by
  by_contra hnot
  have hlt : i < l.findIdx Option.isNone := Nat.lt_of_not_le hnot
  have h1 := List.not_of_lt_findIdx hlt
  rw [List.getElem?_eq_getElem (Nat.lt_of_lt_of_le hlt List.findIdx_le_length), Option.join_some]
    at h
  rw [h] at h1
  cases h1

/-- A table that has all entries of another that count, in the same places, has no less a tally. -/
theorem tally_le_of_counting {m : List α}
    (h : ∀ (i : Nat) a, f a ≠ 0 → l[i]? = some a → m[i]? = some a) : tally f l ≤ tally f m := by
  induction l generalizing m with
  | nil => exact Nat.zero_le _
  | cons x l ih =>
    by_cases hx : f x = 0
    · rw [tally_cons, hx, Nat.zero_add]
      cases m with
      | nil => exact ih fun i a hne => h (i + 1) a hne
      | cons y m => exact Nat.le_trans (ih fun i a hne => h (i + 1) a hne) (Nat.le_add_left _ _)
    · cases m with
      | nil => exact nomatch h 0 x hx rfl
      | cons y m =>
        obtain rfl : y = x := Option.some.inj (h 0 x hx rfl)
        exact Nat.add_le_add_left (ih fun i a hne => h (i + 1) a hne) _

/-- Tables that have the same entries that count, in the same places, have the same tally. -/
theorem tally_eq_of_counting {m : List α}
    (h : ∀ (i : Nat) a, f a ≠ 0 → (l[i]? = some a ↔ m[i]? = some a)) : tally f l = tally f m :=
  Nat.le_antisymm (tally_le_of_counting fun i a hne => (h i a hne).mp)
    (tally_le_of_counting fun i a hne => (h i a hne).mpr)

end Tally
