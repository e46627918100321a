import Nlos.Lib.Fallible

/-!
# Routines that learn facts

What a routine has found out about the state, and goes on to rely on, stays true: nothing that it
does afterwards takes it back. `Q K` says that the facts `K` are true of a state. `Learns Q N m V F`
says what the routine `m` needs to know, what its result is like, and what is known once it has
returned. However it ends, all that was known is known still.
-/

namespace Fallible

variable {ε σ α β κ : Type}

/-- Where the facts `N` are known, `m` returns a value with `V` and the facts `F` are known as well,
or it fails. -/
def Learns (Q : List κ → σ → Prop) (N : List κ) (m : Fallible ε σ α) (V : α → Prop)
    (F : α → List κ) : Prop :=
  ∀ K, N ⊆ K → Meets (Q K) m (fun a s => V a ∧ Q (F a ++ K) s) (Q K)

variable {Q : List κ → σ → Prop} {N N' : List κ} {V : α → Prop} {F : α → List κ} {U : β → Prop}
    {G : β → List κ}

def Fewer (Q : List κ → σ → Prop) : Prop := ∀ K K' s, K' ⊆ K → Q K s → Q K' s

theorem learns_pure [hQ : Fact (Fewer Q)] {a : α} (hv : V a) (hf : F a ⊆ N) :
    Learns Q N (pure a : Fallible ε σ α) V F :=
  fun _ hK => meets_pure fun _ hs =>
    ⟨hv, hQ.out _ _ _ (List.append_subset.mpr ⟨List.Subset.trans hf hK, List.Subset.refl _⟩) hs⟩

theorem learns_fail (e : ε) : Learns Q N (fail e : Fallible ε σ α) V F :=
  fun _ _ => meets_fail fun _ hs => hs

variable {m : Fallible ε σ α}

theorem Learns.more (hm : Learns Q N m V F) (h : N ⊆ N') : Learns Q N' m V F :=
  fun K hK => hm K (List.Subset.trans h hK)

theorem Learns.imp {V' : α → Prop} (hm : Learns Q N m V F) (hV : ∀ a, V a → V' a) :
    Learns Q N m V' F :=
  fun K hK => (hm K hK).mono (fun _ h => h) (fun a _ h => ⟨hV a h.1, h.2⟩) fun _ h => h

/-- However it ends, what was known is known. -/
theorem Learns.after [hQ : Fact (Fewer Q)] (hm : Learns Q N m V F) {K : List κ} (hK : N ⊆ K) {s : σ}
    (hs : Q K s) : Q K (m s).2 := by
  match m s, hm K hK s hs with
  | (.ok _, _), h => exact hQ.out _ _ _ (List.subset_append_right _ _) h.2
  | (.error _, _), h => exact h

theorem Learns.bind [hQ : Fact (Fewer Q)] {f : α → Fallible ε σ β} (hm : Learns Q N m V F)
    (hf : ∀ a, V a → Learns Q (F a ++ N) (f a) U G) : Learns Q N (m >>= f) U G := by
  intro K hK s hs
  rw [bind_apply]
  match m s, hm K hK s hs with
  | (.error _, _), h => exact h
  | (.ok a, t), ⟨hv, ht⟩ =>
    have hsub : F a ++ N ⊆ F a ++ K := List.append_subset.mpr
      ⟨List.subset_append_left _ _, List.Subset.trans hK (List.subset_append_right _ _)⟩
    dsimp only
    match f a t, hf a hv (F a ++ K) hsub t ht with
    | (.error _, _), h' => exact hQ.out _ _ _ (List.subset_append_right _ _) h'
    | (.ok b, _), h' =>
      refine ⟨h'.1, hQ.out _ _ _ (List.append_subset.mpr ⟨List.subset_append_left _ _, ?_⟩) h'.2⟩
      exact List.Subset.trans (List.subset_append_right _ _) (List.subset_append_right _ _)

theorem learns_ite {c : Prop} [Decidable c] {n : Fallible ε σ α} (hm : c → Learns Q N m V F)
    (hn : ¬c → Learns Q N n V F) : Learns Q N (if c then m else n) V F := by
  split
  next h => exact hm h
  next h => exact hn h

theorem Learns.attempt (hm : Learns Q N m V F) :
    Learns Q N (attempt m) (fun r => ∀ a, r = .ok a → V a) fun r => match r with
      | .ok a => F a
      | .error _ => [] := by
  intro K hK s hs
  unfold Fallible.attempt
  match m s, hm K hK s hs with
  | (.ok _, _), h =>
    refine ⟨fun b e => ?_, h.2⟩
    cases e
    exact h.1
  | (.error _, _), h => exact ⟨nofun, h⟩

theorem Learns.discard [hQ : Fact (Fewer Q)] (hm : Learns Q N m V F) :
    Learns Q N (discard m) (fun _ => True) fun _ => [] := by
  intro K hK s hs
  rw [discard_apply]
  match m s, hm K hK s hs with
  | (.ok _, _), h => exact ⟨trivial, hQ.out _ _ _ (List.subset_append_right _ _) h.2⟩
  | (.error _, _), h => exact h

end Fallible
