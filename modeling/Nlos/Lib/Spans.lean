import Mathlib

/-!
# Spans

Runs of addresses, apart from each other or one inside the other, and how much of a span a list of
them takes up.
-/

/-- The addresses from `start` on, `len` of them. -/
structure Span where
  start : Nat
  len : Nat
deriving DecidableEq, Repr

namespace Span

variable {a b c d : Span} {l l' : List Span} {x : Nat}

instance : Membership Nat Span := ⟨fun a x => a.start ≤ x ∧ x < a.start + a.len⟩

theorem mem_def : x ∈ a ↔ a.start ≤ x ∧ x < a.start + a.len := Iff.rfl

instance : Decidable (x ∈ a) := inferInstanceAs (Decidable (_ ∧ _))

def Apart (a b : Span) : Prop := ∀ x, x ∈ a → x ∉ b

theorem apart_iff : a.Apart b ↔
    a.len = 0 ∨ b.len = 0 ∨ a.start + a.len ≤ b.start ∨ b.start + b.len ≤ a.start := by
  constructor
  · intro h
    by_contra hc
    exact h (max a.start b.start) (mem_def.mpr ⟨by omega, by omega⟩)
      (mem_def.mpr ⟨by omega, by omega⟩)
  · intro h x hx hx'
    rw [mem_def] at hx hx'
    omega

instance : Decidable (a.Apart b) := decidable_of_iff _ apart_iff.symm

theorem Apart.symm (h : a.Apart b) : b.Apart a := fun x hx hx' => h x hx' hx

theorem apart_of_pairwise {α : Type*} {f : α → Span} {l : List α} {x y : α}
    (h : l.Pairwise fun x y => (f x).Apart (f y)) (hx : x ∈ l) (hy : y ∈ l) (hne : x ≠ y) :
    (f x).Apart (f y) :=
  have : Std.Symm fun x y => (f x).Apart (f y) := ⟨fun _ _ h => h.symm⟩
  h.forall hx hy hne

def Within (a b : Span) : Prop := b.start ≤ a.start ∧ a.start + a.len ≤ b.start + b.len

instance : Decidable (a.Within b) := inferInstanceAs (Decidable (_ ∧ _))

theorem Within.refl (a : Span) : a.Within a := ⟨Nat.le_refl _, Nat.le_refl _⟩

theorem within_of_le {i m n : Nat} (h : m ≤ n) : Within ⟨i, m⟩ ⟨i, n⟩ :=
  ⟨Nat.le_refl i, Nat.add_le_add_left h i⟩

theorem Within.trans (h1 : a.Within b) (h2 : b.Within c) : a.Within c :=
  ⟨h2.1.trans h1.1, h1.2.trans h2.2⟩

theorem Within.mem (h : a.Within b) (hx : x ∈ a) : x ∈ b :=
  ⟨h.1.trans hx.1, hx.2.trans_le h.2⟩

theorem Apart.mono (h : a.Apart b) (hc : c.Within a) (hd : d.Within b) : c.Apart d :=
  fun x hx hx' => h x (hc.mem hx) (hd.mem hx')

theorem Within.not_within (h : a.Within b) (ha : 0 < a.len) (hbc : b.Apart c) :
    ¬a.Within c := fun h' =>
  hbc a.start (h.mem ⟨le_rfl, by omega⟩) (h'.mem ⟨le_rfl, by omega⟩)

/-! ## What a list of spans takes up -/

/-- The addresses of `c` that the spans inside it take up. -/
def held (c : Span) (l : List Span) : Nat := ((l.filter (·.Within c)).map len).sum

theorem held_cons_within (h : a.Within c) : held c (a :: l) = a.len + held c l := by
  simp [held, h]

theorem held_cons_not_within (h : ¬a.Within c) : held c (a :: l) = held c l := by
  simp [held, h]

theorem held_append : held c (l ++ l') = held c l + held c l' := by
  simp [held]

theorem held_perm (h : l.Perm l') : held c l = held c l' :=
  ((h.filter _).map _).sum_eq

theorem held_eq_zero (h : ∀ a ∈ l, ¬a.Within c) : held c l = 0 := by
  rw [held, List.filter_eq_nil_iff.mpr fun a ha => by simpa using h a ha]
  rfl

theorem not_within_of_held_eq_zero (h : held c l = 0) (hl : ∀ a ∈ l, 0 < a.len) (ha : a ∈ l) :
    ¬a.Within c := by
  intro hw
  have hm : a.len ∈ (l.filter (·.Within c)).map len :=
    List.mem_map_of_mem (List.mem_filter.mpr ⟨ha, by simpa using hw⟩)
  have h0 : a.len ≤ 0 := h ▸ List.le_sum_of_mem hm
  exact absurd (hl a ha) (Nat.not_lt.mpr h0)

theorem held_filter {p : Span → Bool} (h : ∀ a ∈ l, a.Within c → p a = true) :
    held c (l.filter p) = held c l := by
  unfold held
  rw [List.filter_filter]
  refine congrArg (fun l : List Span => (l.map len).sum) (List.filter_congr fun a ha => ?_)
  by_cases hw : a.Within c
  · simp [hw, h a ha hw]
  · simp [hw]

end Span

/-! ## Families of lists -/

section Families

variable {α : Type*} {f : Nat → List α} {i : Nat} {x : α}

/-- An element is put in front of one list of a family. -/
theorem List.Perm.flatMap_push {l : List Nat} (hl : l.Nodup) (hi : i ∈ l) :
    (l.flatMap (Function.update f i (x :: f i))).Perm (x :: l.flatMap f) := by
  induction l with
  | nil => cases hi
  | cons j l ih =>
    obtain ⟨hj, hl⟩ := List.nodup_cons.mp hl
    rw [List.flatMap_cons, List.flatMap_cons]
    by_cases e : j = i
    · subst e
      have same : l.flatMap (Function.update f j (x :: f j)) = l.flatMap f :=
        List.flatMap_congr fun k hk => Function.update_of_ne (fun e : k = j => hj (e ▸ hk)) _ _
      rw [same, Function.update_self]
      rfl
    · rw [Function.update_of_ne e]
      have hi : i ∈ l := (List.mem_cons.mp hi).resolve_left (Ne.symm e)
      exact ((ih hl hi).append_left (f j)).trans List.perm_middle

end Families
