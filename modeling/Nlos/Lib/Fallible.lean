import Mathlib

/-!
# Computations that may fail and keep their state

A C routine that walks a structure and gives up half way leaves behind what it has already
done. `Fallible ε σ α` is such a routine: it ends with a value or an error, and with a state
either way. Failing does not roll the state back.

`Keeps P m` says that `m` preserves the property `P` of the state however it ends, and the rules
below build it up along the shape of the routine. `Moves R m` is the same for a relation between
the state before and the state after.
-/

/-- A routine over the state `σ` that returns an `α` or fails with an `ε`, and leaves a state
behind in both cases. -/
def Fallible (ε σ α : Type) : Type := σ → Except ε α × σ

namespace Fallible

variable {ε σ α β : Type}

instance : Monad (Fallible ε σ) where
  pure a := fun s => (.ok a, s)
  bind m f := fun s =>
    match m s with
    | (.ok a, s') => f a s'
    | (.error e, s') => (.error e, s')

def fail (e : ε) : Fallible ε σ α := fun s => (.error e, s)

def get : Fallible ε σ σ := fun s => (.ok s, s)

def put (s : σ) : Fallible ε σ Unit := fun _ => (.ok (), s)

def modify (f : σ → σ) : Fallible ε σ Unit := fun s => (.ok (), f s)

/-- Run `m` and go on however it ends. -/
def attempt (m : Fallible ε σ α) : Fallible ε σ (Except ε α) := fun s => (.ok (m s).1, (m s).2)

def zoom {τ : Type} (part : τ → σ) (set : τ → σ → τ) (m : Fallible ε σ α) :
    Fallible ε τ α := fun t =>
  ((m (part t)).1, set t (m (part t)).2)

def guard (b : Bool) (e : ε) : Fallible ε σ Unit := if b then pure () else fail e

@[simp] theorem pure_apply (a : α) (s : σ) : (pure a : Fallible ε σ α) s = (.ok a, s) := rfl

@[simp] theorem fail_apply (e : ε) (s : σ) : (fail e : Fallible ε σ α) s = (.error e, s) := rfl

@[simp] theorem get_apply (s : σ) : (get : Fallible ε σ σ) s = (.ok s, s) := rfl

@[simp] theorem put_apply (s t : σ) : (put t : Fallible ε σ Unit) s = (.ok (), t) := rfl

@[simp] theorem modify_apply (f : σ → σ) (s : σ) :
    (modify f : Fallible ε σ Unit) s = (.ok (), f s) := rfl

@[simp] theorem guard_apply (b : Bool) (e : ε) (s : σ) :
    (guard b e : Fallible ε σ Unit) s = (if b then .ok () else .error e, s) := by
  cases b <;> rfl

variable {e : ε} {s s' t : σ} {m : Fallible ε σ α} {a : α}

theorem guard_eq_ok {b : Bool} {z : σ} {u : Unit} :
    (guard b e : Fallible ε σ Unit) s = (.ok u, z) ↔ b = true ∧ s = z := by
  cases b <;> simp

theorem bind_apply (m : Fallible ε σ α) (f : α → Fallible ε σ β) (s : σ) :
    (m >>= f) s = match m s with
      | (.ok a, s') => f a s'
      | (.error e, s') => (.error e, s') := rfl

theorem bind_ok {f : α → Fallible ε σ β} (h : m s = (.ok a, s')) : (m >>= f) s = f a s' := by
  rw [bind_apply, h]

theorem bind_error {f : α → Fallible ε σ β}
    (h : m s = (.error e, s')) : (m >>= f) s = (.error e, s') := by
  rw [bind_apply, h]

theorem bind_attempt (m : Fallible ε σ α) (f : Except ε α → Fallible ε σ β) (s : σ) :
    (attempt m >>= f) s = f (m s).1 (m s).2 := rfl

/-- What holds behind the first half, and is kept by the second, holds at the end. -/
theorem bind_after {P : σ → Prop} {f : α → Fallible ε σ β} (hm : P (m s).2)
    (hf : ∀ a t, P t → P (f a t).2) : P ((m >>= f) s).2 := by
  rw [bind_apply]
  split
  next a s' h =>
    rw [h] at hm
    exact hf a s' hm
  next e s' h =>
    rw [h] at hm
    exact hm

/-- A sequence that succeeds is two routines that succeed. -/
theorem bind_eq_ok {f : α → Fallible ε σ β} {b : β} :
    (m >>= f) s = (.ok b, t) ↔ ∃ a s', m s = (.ok a, s') ∧ f a s' = (.ok b, t) := by
  rw [bind_apply]
  constructor
  · intro h
    split at h
    next a s' hm => exact ⟨a, s', hm, h⟩
    · cases h
  · rintro ⟨a, s', hm, hf⟩
    rw [hm]
    exact hf

/-- A sequence that fails failed in its first half or in its second. -/
theorem bind_eq_error {f : α → Fallible ε σ β} : (m >>= f) s = (.error e, t) ↔
      m s = (.error e, t) ∨ ∃ a s', m s = (.ok a, s') ∧ f a s' = (.error e, t) := by
  rw [bind_apply]
  constructor
  · intro h
    split at h
    next a s' hm => exact .inr ⟨a, s', hm, h⟩
    next e' s' hm => cases h; exact .inl hm
  · rintro (hm | ⟨a, s', hm, hf⟩)
    · rw [hm]
    · rw [hm]
      exact hf

theorem discard_apply (m : Fallible ε σ α) (s : σ) : discard m s = match m s with
      | (.ok _, s') => (.ok (), s')
      | (.error e, s') => (.error e, s') := rfl

/-! ## What a routine does to its state, however it ends -/

/-- Every run of `m` relates the state before it to the state after it by `R`. -/
def Moves (R : σ → σ → Prop) (m : Fallible ε σ α) : Prop := ∀ s, R s (m s).2

section Moves

variable {R : σ → σ → Prop}

theorem moves_pure (hr : ∀ s, R s s) (a : α) : Moves R (pure a : Fallible ε σ α) := hr

theorem moves_fail (hr : ∀ s, R s s) (e : ε) : Moves R (fail e : Fallible ε σ α) := hr

theorem moves_get (hr : ∀ s, R s s) : Moves R (get : Fallible ε σ σ) := hr

theorem moves_modify {f : σ → σ} (h : ∀ s, R s (f s)) : Moves R (modify f : Fallible ε σ Unit) := h

theorem moves_attempt (hm : Moves R m) : Moves R (attempt m) := hm

theorem moves_discard (hm : Moves R m) : Moves R (discard m) := by
  intro s
  rw [discard_apply]
  match m s, hm s with
  | (.ok _, _), h | (.error _, _), h => exact h

theorem moves_ite {c : Prop} [Decidable c] {n : Fallible ε σ α} (hm : c → Moves R m)
    (hn : ¬c → Moves R n) : Moves R (if c then m else n) := by
  split
  next h => exact hm h
  next h => exact hn h

theorem moves_bind (ht : ∀ {a b c}, R a b → R b c → R a c)
    {f : α → Fallible ε σ β} (hm : Moves R m) (hf : ∀ a, Moves R (f a)) : Moves R (m >>= f) :=
  fun s => bind_after (P := R s) (hm s) fun a t h => ht h (hf a t)

end Moves

/-- `m` preserves the property `P` of the state, however it ends. -/
def Keeps (P : σ → Prop) (m : Fallible ε σ α) : Prop := Moves (fun s t => P s → P t) m

section Keeps

variable {P : σ → Prop}

theorem keeps_fail (e : ε) : Keeps P (fail e : Fallible ε σ α) :=
  moves_fail (fun _ h => h) e

theorem keeps_get : Keeps P (get : Fallible ε σ σ) :=
  moves_get (fun _ h => h)

theorem keeps_modify {f : σ → σ} (h : ∀ s, P s → P (f s)) :
    Keeps P (modify f : Fallible ε σ Unit) :=
  moves_modify h

theorem keeps_bind {f : α → Fallible ε σ β} (hm : Keeps P m)
    (hf : ∀ a, Keeps P (f a)) : Keeps P (m >>= f) :=
  moves_bind (fun h1 h2 h => h2 (h1 h)) hm hf

end Keeps

/-! ## Routines that run a list of steps -/

/-- Run `f` on each element in turn, up to the first failure. -/
def each (f : α → Fallible ε σ Unit) : List α → Fallible ε σ Unit
  | [] => pure ()
  | a :: l => f a >>= fun _ => each f l

section Each

variable {f : α → Fallible ε σ Unit}

theorem each_cons (a : α) (l : List α) : each f (a :: l) = f a >>= fun _ => each f l := rfl

theorem each_append_apply (l m : List α) (s : σ) :
    each f (l ++ m) s = (each f l >>= fun _ => each f m) s := by
  induction l generalizing s with
  | nil => rfl
  | cons a l ih =>
    show (f a >>= fun _ => each f (l ++ m)) s =
      ((f a >>= fun _ => each f l) >>= fun _ => each f m) s
    rw [bind_apply, bind_apply, bind_apply]
    split
    next _ s' h => exact ih s'
    · rfl

theorem each_append (l m : List α) : each f (l ++ m) = each f l >>= fun _ => each f m :=
  funext (each_append_apply l m)

/-- A run over a list fails where it gets to an element that fails. -/
theorem each_eq_error {l : List α} : each f l s = (.error e, t) ↔
    ∃ pre a post u, l = pre ++ a :: post ∧ each f pre s = (.ok (), u) ∧ f a u = (.error e, t) := by
  induction l generalizing s with
  | nil =>
    constructor
    · intro h
      cases h
    · rintro ⟨pre, a, post, u, h, -⟩
      cases pre <;> cases h
  | cons a l ih =>
    rw [each_cons, bind_eq_error]
    constructor
    · rintro (h | ⟨⟨⟩, u, h1, h2⟩)
      · exact ⟨[], a, l, s, rfl, rfl, h⟩
      · obtain ⟨pre, b, post, u', rfl, h3, h4⟩ := ih.mp h2
        exact ⟨a :: pre, b, post, u', rfl, by rw [each_cons, bind_ok h1]; exact h3, h4⟩
    · rintro ⟨pre, b, post, u, h, h1, h2⟩
      cases pre with
      | nil =>
        cases h
        cases h1
        exact .inl h2
      | cons c pre =>
        cases h
        rw [each_cons, bind_eq_ok] at h1
        obtain ⟨⟨⟩, u', h3, h4⟩ := h1
        exact .inr ⟨(), u', h3, ih.mpr ⟨pre, b, post, u, rfl, h4, h2⟩⟩

end Each

/-! ## What a routine ends with -/

/-- From a state with `P`, `m` ends with a value and a state with `Q`, or fails in a state with `E`.
-/
def Meets (P : σ → Prop) (m : Fallible ε σ α) (Q : α → σ → Prop) (E : σ → Prop) : Prop :=
  ∀ s, P s → match m s with
    | (.ok a, t) => Q a t
    | (.error _, t) => E t

section Meets

variable {P P' E E' : σ → Prop} {Q Q' : α → σ → Prop} {R : β → σ → Prop}

theorem meets_pure (h : ∀ s, P s → Q a s) : Meets P (pure a : Fallible ε σ α) Q E := h

theorem meets_fail (h : ∀ s, P s → E s) : Meets P (fail e : Fallible ε σ α) Q E := h

theorem Meets.mono (hm : Meets P m Q E) (hP : ∀ s, P' s → P s) (hQ : ∀ a s, Q a s → Q' a s)
    (hE : ∀ s, E s → E' s) : Meets P' m Q' E' := by
  intro s hs
  match m s, hm s (hP s hs) with
  | (.ok a, t), h => exact hQ a t h
  | (.error _, t), h => exact hE t h

end Meets

end Fallible
