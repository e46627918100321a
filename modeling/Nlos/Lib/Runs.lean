import Mathlib

/-!
# Runs

A system that takes one action after another. `Runs` is what it reaches by actions that all meet a
condition, each in the state in front of it; a property of every run is proved by one induction,
here. A run is written down as the list of its actions.
-/

section

variable {σ α : Type*}

/-- What is reached from `init` by actions that meet `ok`. -/
inductive Runs (init : σ → Prop) (ok : σ → α → Prop) (step : σ → α → σ) : σ → Prop where
  | init {s : σ} (h : init s) : Runs init ok step s
  | step {s : σ} {a : α} (hr : Runs init ok step s) (ho : ok s a) : Runs init ok step (step s a)

namespace Runs

variable {init : σ → Prop} {ok : σ → α → Prop} {step : σ → α → σ} {s : σ}

theorem invariant {I : σ → Prop} (h0 : ∀ {s}, init s → I s)
    (hI : ∀ {s a}, I s → ok s a → I (step s a)) (h : Runs init ok step s) : I s := by
  induction h with
  | init h => exact h0 h
  | step _ ho ih => exact hI ih ho

/-- A list of actions, each of which meets the condition where it is taken. -/
def Along (ok : σ → α → Prop) (step : σ → α → σ) : σ → List α → Prop
  | _, [] => True
  | s, a :: l => ok s a ∧ Along ok step (step s a) l

instance Along.decidable [∀ s a, Decidable (ok s a)] : ∀ s l, Decidable (Along ok step s l)
  | _, [] => isTrue trivial
  | s, a :: l =>
    have := Along.decidable (step s a) l
    inferInstanceAs (Decidable (ok s a ∧ Along ok step (step s a) l))

theorem along (h : Runs init ok step s) {l : List α} (hl : Along ok step s l) :
    Runs init ok step (l.foldl step s) := by
  induction l generalizing s with
  | nil => exact h
  | cons a l ih => exact ih (h.step hl.1) hl.2

end Runs

end
