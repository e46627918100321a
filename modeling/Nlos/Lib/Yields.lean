import Mathlib

/-!
# Runs that return

A routine with a state that may fail is a `StateT σ Option`. `Yields I m Q` says that from every
state with `I` the routine returns, with a value that has `Q` and a state that has `I` again. It
is total correctness: a routine that may fail yields nothing. The rules follow the shape of a
routine; the rule for loops carries a relation to a second loop that has no state and cannot fail.
-/

variable {σ α β γ ι : Type}

/-- `m` returns from every state with `I`, with a value that has `Q`, and keeps `I`. -/
def Yields (I : σ → Prop) (m : StateT σ Option α) (Q : α → Prop) : Prop :=
  ∀ s, I s → ∃ a s', m s = some (a, s') ∧ I s' ∧ Q a

namespace Yields

variable {I : σ → Prop}

variable {Q : α → Prop} {m : StateT σ Option α}

theorem pure {a : α} (h : Q a) : Yields I (pure a) Q :=
  fun s hs => ⟨a, s, rfl, hs, h⟩

theorem bind {f : α → StateT σ Option β} {Q' : β → Prop}
    (first : Yields I m Q) (then_ : ∀ a, Q a → Yields I (f a) Q') : Yields I (m >>= f) Q' := by
  intro s hs
  obtain ⟨a, s1, run1, hs1, qa⟩ := first s hs
  obtain ⟨b, s2, run2, hs2, qb⟩ := then_ a qa s1 hs1
  refine ⟨b, s2, ?_, hs2, qb⟩
  show (m s).bind (fun p => f p.1 p.2) = _
  rw [run1]
  exact run2

theorem mono {Q' : α → Prop} (h : Yields I m Q) (weaker : ∀ a, Q a → Q' a) : Yields I m Q' := by
  intro s hs
  obtain ⟨a, s', run, hs', qa⟩ := h s hs
  exact ⟨a, s', run, hs', weaker a qa⟩

theorem lift {x : Option α} (h : ∃ a, x = some a ∧ Q a) :
    Yields I (liftM x : StateT σ Option α) Q := by
  obtain ⟨a, rfl, qa⟩ := h
  exact fun s hs => ⟨a, s, rfl, hs, qa⟩

theorem modify {f : σ → σ} (h : ∀ s, I s → I (f s)) :
    Yields I (modify f : StateT σ Option PUnit) (fun _ => True) :=
  fun s hs => ⟨⟨⟩, f s, rfl, h s hs, trivial⟩

/-- A loop, beside a loop over plain values that it stays in the relation `R` with. -/
theorem foldlM {R : β → γ → Prop} {f : β → ι → StateT σ Option β} {g : γ → ι → γ} {l : List ι}
    (step : ∀ b c, ∀ x ∈ l, R b c → Yields I (f b x) fun b' => R b' (g c x)) {b : β} {c : γ}
    (start : R b c) : Yields I (l.foldlM f b) fun b' => R b' (l.foldl g c) := by
  induction l generalizing b c with
  | nil => exact pure start
  | cons x l ih =>
    refine bind (step b c x List.mem_cons_self start) fun b' related => ?_
    exact ih (fun b c y hy => step b c y (List.mem_cons_of_mem _ hy)) related

end Yields
