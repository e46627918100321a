import Mathlib

/-!
# Paths

A path is a string; what it names is the list of names between its separators. `elems` reads the
list off the string, `rooted` writes it down, and for names that can stand in a path the two are
inverse. Then one rooted path is the beginning of another, cut at a separator, just if its list of
names is a proper beginning of the other's.
-/

namespace Paths

open List

variable {α : Type*} [DecidableEq α] {sep : α} {s : List α} {l l' : List (List α)}

/-- The names between the separators. -/
def elems (sep : α) (s : List α) : List (List α) := (s.splitOn sep).filter (· ≠ [])

/-- A path from the root. -/
def rooted (sep : α) (l : List (List α)) : List α := sep :: [sep].intercalate l

def Names (sep : α) (l : List (List α)) : Prop := ∀ e ∈ l, e ≠ [] ∧ sep ∉ e

theorem not_mem_splitOn {e : List α} (he : e ∈ s.splitOn sep) : sep ∉ e := by
  induction s generalizing e with
  | nil =>
    rw [splitOn_nil, mem_singleton] at he
    rw [he]
    exact not_mem_nil
  | cons c s ih =>
    unfold List.splitOn at he ih
    rw [splitOnP_cons_eq_if_modifyHead] at he
    split at he
    · obtain rfl | he := mem_cons.mp he
      · exact not_mem_nil
      · exact ih he
    next hc =>
    cases hs : List.splitOnP (· == sep) s with
    | nil => exact absurd hs (splitOnP_ne_nil _ _)
    | cons a t =>
      rw [hs] at he ih
      obtain rfl | he := mem_cons.mp he
      · intro h
        obtain rfl | h := mem_cons.mp h
        · exact hc (beq_self_eq_true _)
        · exact ih mem_cons_self h
      · exact ih (mem_cons_of_mem _ he)

theorem names_elems (s : List α) : Names sep (elems sep s) := by
  intro e he
  obtain ⟨he, hne⟩ := mem_filter.mp he
  exact ⟨by simpa using hne, not_mem_splitOn he⟩

theorem elems_cons_sep (s : List α) : elems sep (sep :: s) = elems sep s := by
  unfold elems List.splitOn
  rw [splitOnP_cons_eq_if_modifyHead, if_pos (beq_self_eq_true _), filter_cons_of_neg (by simp)]

theorem elems_rooted (h : Names sep l) : elems sep (rooted sep l) = l := by
  unfold rooted
  rw [elems_cons_sep]
  cases l with
  | nil => rfl
  | cons a l =>
    unfold elems
    rw [splitOn_intercalate sep (fun e he => (h e he).2) (cons_ne_nil _ _)]
    exact filter_eq_self.mpr fun e he => by simpa using (h e he).1

/-- Names that can stand in a path are those of one path only. -/
theorem rooted_inj (h : Names sep l) (h' : Names sep l')
    (e : rooted sep l = rooted sep l') : l = l' := by
  rw [← elems_rooted h, e, elems_rooted h']

/-! ## Beginnings -/

def body (sep : α) (l : List (List α)) : List α := l.flatMap (sep :: ·)

omit [DecidableEq α] in
theorem rooted_cons (a : List α) (l : List (List α)) : rooted sep (a :: l) = body sep (a :: l) := by
  induction l generalizing a with
  | nil => simp [rooted, body]
  | cons b l ih =>
    have e : rooted sep (a :: b :: l) = sep :: a ++ rooted sep (b :: l) := by
      simp [rooted, List.intercalate]
    rw [e, ih]
    rfl

omit [DecidableEq α] in
theorem body_append (l l' : List (List α)) : body sep (l ++ l') = body sep l ++ body sep l' :=
  flatMap_append

omit [DecidableEq α] in
/-- What a path begins with, up to a separator, is a path itself. -/
theorem prefix_body (h : Names sep l) (hp : s ++ [sep] <+: body sep l) :
    ∃ l1 l2, l2 ≠ [] ∧ l = l1 ++ l2 ∧ s = body sep l1 := by
  induction l generalizing s with
  | nil => exact absurd (prefix_nil.mp hp) (by simp)
  | cons a l ih =>
    cases s with
    | nil => exact ⟨[], a :: l, cons_ne_nil _ _, rfl, rfl⟩
    | cons c s =>
      obtain ⟨rfl, ht⟩ := cons_prefix_cons.mp hp
      have hp : s ++ [c] <+: a ++ body c l := ht
      have ha := (h a mem_cons_self).2
      -- the separator is behind the first name, so the name is in front of it
      have hle : a.length ≤ s.length := by
        by_contra hlt
        have hsa : s ++ [c] <+: a := by
          refine prefix_of_prefix_length_le hp (prefix_append _ _) ?_
          rw [length_append, length_singleton]
          exact Nat.not_le.mp hlt
        exact ha (hsa.subset (mem_append_right _ mem_cons_self))
      have has : a <+: s := by
        refine prefix_of_prefix_length_le (prefix_append _ _) ((prefix_append _ _).trans hp) hle
      obtain ⟨t, rfl⟩ := has
      rw [append_assoc] at hp
      obtain ⟨l1, l2, hne, rfl, rfl⟩ := ih (fun e he => h e (mem_cons_of_mem _ he))
        ((prefix_append_right_inj _).mp hp)
      exact ⟨a :: l1, l2, hne, rfl, rfl⟩

theorem elems_body (h : Names sep l) : elems sep (body sep l) = l := by
  cases l with
  | nil => rfl
  | cons a l => rw [← rooted_cons, elems_rooted h]

/-- Cut at a separator, one path begins another just if its names do. -/
theorem body_sep_prefix (h : Names sep l) (h' : Names sep l') :
    body sep l ++ [sep] <+: body sep l' ↔ ∃ r, r ≠ [] ∧ l' = l ++ r := by
  constructor
  · intro hp
    obtain ⟨l1, r, hr, rfl, e⟩ := prefix_body h' hp
    have h1 : Names sep l1 := fun e he => h' e (mem_append_left _ he)
    rw [← elems_body h1, ← e, elems_body h]
    exact ⟨r, hr, rfl⟩
  · rintro ⟨r, hr, rfl⟩
    rw [body_append]
    refine (prefix_append_right_inj _).mpr ?_
    cases r with
    | nil => exact absurd rfl hr
    | cons a r => exact ⟨a ++ body sep r, rfl⟩

end Paths
