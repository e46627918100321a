import Mathlib

/-!
# Things that are handed out and given back

A table holds things under keys; a list of what happened says which things were handed out and which
were given back, the newest first. The two are `Settled` if no thing is under two keys, and each
that was handed out is in the table or has been given back, once, and not both.
-/

namespace Ledger

open Function

variable {K H : Type}

/-- A thing was handed out, or given back. -/
inductive Act (H : Type) where
  | made (h : H)
  | gone (h : H)
deriving DecidableEq, Repr

def mades : List (Act H) → List H
  | [] => []
  | .made h :: l => h :: mades l
  | .gone _ :: l => mades l

def gones : List (Act H) → List H
  | [] => []
  | .made _ :: l => gones l
  | .gone h :: l => h :: gones l

structure View (K H : Type) where
  hold : K → Option H
  acts : List (Act H)

/-- Each thing that was handed out is under one key and was not given back, or is under none and was
given back once. -/
structure Settled (v : View K H) : Prop where
  one : ∀ {j k h}, v.hold j = some h → v.hold k = some h → j = k
  held : ∀ {k h}, v.hold k = some h → h ∈ mades v.acts ∧ h ∉ gones v.acts
  once : (gones v.acts).Nodup
  back : ∀ {h}, h ∈ gones v.acts → h ∈ mades v.acts
  all : ∀ {h}, h ∈ mades v.acts → h ∈ gones v.acts ∨ ∃ k, v.hold k = some h

variable [DecidableEq K]

/-- Nothing, a new thing under a free key, a thing given back, or one for another. -/
inductive Turn : View K H → View K H → Prop where
  | quiet {v} : Turn v v
  | gain {hold acts k h} (free : hold k = none) : Turn ⟨hold, acts⟩
      ⟨update hold k (some h), .made h :: acts⟩
  | lose {hold acts k h} (has : hold k = some h) : Turn ⟨hold, acts⟩
      ⟨update hold k none, .gone h :: acts⟩
  | swap {hold acts k h h'} (has : hold k = some h) :
      Turn ⟨hold, acts⟩ ⟨update hold k (some h'), .gone h :: .made h' :: acts⟩

variable {v v' : View K H} {hold : K → Option H} {k : K} {h : H} {acts : List (Act H)}

theorem Turn.mades (h : Turn v v') : mades v.acts <:+ mades v'.acts := by
  cases h with
  | quiet | lose => exact List.suffix_refl _
  | gain | swap => exact List.suffix_cons _ _

theorem update_eq_some {j : K} {v : Option H}
    (e : update hold k v j = some h) : j = k ∧ v = some h ∨ j ≠ k ∧ hold j = some h := by
  by_cases hj : j = k
  · subst hj
    rw [update_self] at e
    exact .inl ⟨rfl, e⟩
  · rw [update_of_ne hj] at e
    exact .inr ⟨hj, e⟩

/-- What is under a key is given back, if there is something, and another thing is put there, if
there is one. -/
theorem Settled.exchange (hs : Settled ⟨hold, acts⟩) {o n : Option H} {l : List (Act H)}
    (has : hold k = o) (new : ∀ h, n = some h → h ∉ Ledger.mades acts)
    (hm : Ledger.mades l = n.toList ++ Ledger.mades acts)
    (hg : gones l = o.toList ++ gones acts) : Settled ⟨update hold k n, l⟩ := by
  have back : ∀ {x}, x ∈ o.toList ++ gones acts → x ∈ Ledger.mades acts := fun hx => by
    rcases List.mem_append.mp hx with hx | hx
    · exact (hs.held (has.trans (Option.mem_toList.mp hx))).1
    · exact hs.back hx
  constructor <;> simp only [hm, hg]
  · intro i j x hi hj
    rcases update_eq_some hi with ⟨rfl, e⟩ | ⟨-, e⟩ <;>
      rcases update_eq_some hj with ⟨rfl, e'⟩ | ⟨-, e'⟩
    · rfl
    · exact absurd (hs.held e').1 (new x e)
    · exact absurd (hs.held e).1 (new x e')
    · exact hs.one e e'
  · intro j x hj
    rcases update_eq_some hj with ⟨-, e⟩ | ⟨hne, e⟩
    · exact ⟨List.mem_append_left _ (Option.mem_toList.mpr e), fun hx => new x e (back hx)⟩
    · refine ⟨List.mem_append_right _ (hs.held e).1, fun hx => ?_⟩
      rcases List.mem_append.mp hx with hx | hx
      · exact hne (hs.one e (has.trans (Option.mem_toList.mp hx)))
      · exact (hs.held e).2 hx
  · cases o with
    | none => exact hs.once
    | some h => exact List.nodup_cons.mpr ⟨(hs.held has).2, hs.once⟩
  · exact fun hx => List.mem_append_right _ (back hx)
  · intro x hx
    rcases List.mem_append.mp hx with hx | hx
    · exact .inr ⟨k, (update_self ..).trans (Option.mem_toList.mp hx)⟩
    · rcases hs.all hx with hx | ⟨j, hj⟩
      · exact .inl (List.mem_append_right _ hx)
      · by_cases hjk : j = k
        · subst hjk
          exact .inl (List.mem_append_left _ (Option.mem_toList.mpr (has.symm.trans hj)))
        · exact .inr ⟨j, (update_of_ne hjk ..).trans hj⟩

theorem Settled.turn (hs : Settled v) (ht : Turn v v') (hn : (Ledger.mades v'.acts).Nodup) :
    Settled v' := by
  have new : ∀ {x l} (y : H), (x :: l).Nodup → some x = some y → y ∉ l := fun _ hn e =>
    Option.some.inj e ▸ (List.nodup_cons.mp hn).1
  cases ht with
  | quiet => exact hs
  | gain free => exact hs.exchange free (new · hn) rfl rfl
  | lose has => exact hs.exchange has nofun rfl rfl
  | swap has => exact hs.exchange has (new · hn) rfl rfl

end Ledger
