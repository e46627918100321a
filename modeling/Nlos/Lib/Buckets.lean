import Mathlib

/-!
# Bucket queues

A queue cut into buckets, with a mask that has a bit for each bucket that is not empty and a count
of all that is queued. The mask and the count are kept beside the buckets and never recomputed, so
they are right only as long as every operation keeps them so (`WF`).
-/

structure BucketQueue (α : Type) (w : Nat) where
  q : Nat → List α
  mask : BitVec w
  n : Int

namespace BucketQueue

variable {α : Type} {w : Nat}

def empty : BucketQueue α w := ⟨fun _ => [], 0, 0⟩

def add (s : BucketQueue α w) (b : Nat) (a : α) : BucketQueue α w where
  q := fun c => if c = b then s.q b ++ [a] else s.q c
  mask := s.mask ||| 1#w <<< b
  n := s.n + 1

def del [DecidableEq α] (s : BucketQueue α w) (b : Nat) (a : α) : BucketQueue α w where
  q := fun c => if c = b then (s.q b).erase a else s.q c
  mask := if ((s.q b).erase a).isEmpty then s.mask &&& ~~~(1#w <<< b) else s.mask
  n := s.n - 1

/-- The first element of the first bucket, in the given order, whose bit is set. -/
def first (s : BucketQueue α w) (order : List Nat) : Option α :=
  (order.find? s.mask.getLsbD).bind fun b => (s.q b).head?

/-- The mask and the count say what is in the buckets. -/
structure WF (s : BucketQueue α w) : Prop where
  mask : ∀ b, b < w → (s.mask.getLsbD b = true ↔ s.q b ≠ [])
  count : s.n = ∑ b ∈ Finset.range w, ((s.q b).length : Int)
  out : ∀ b, w ≤ b → s.q b = []

theorem wf_empty : (empty : BucketQueue α w).WF where
  mask b _ := by simp [empty]
  count := by simp [empty]
  out _ _ := rfl

variable {b c : Nat} {a : α}

theorem sum_length_update (q : Nat → List α) (hb : b < w) (l : List α) :
    ∑ c ∈ Finset.range w, (((if c = b then l else q c) : List α).length : Int) =
      (∑ c ∈ Finset.range w, ((q c).length : Int)) + (l.length - (q b).length) := by
  have hmem : b ∈ Finset.range w := Finset.mem_range.mpr hb
  rw [← Finset.add_sum_erase _ _ hmem, ← Finset.add_sum_erase _ (fun c => ((q c).length : Int)) hmem]
  have hrest : ∑ c ∈ (Finset.range w).erase b,
    (((if c = b then l else q c) : List α).length : Int) =
      ∑ c ∈ (Finset.range w).erase b, ((q c).length : Int) := by
    refine Finset.sum_congr rfl fun c hc => ?_
    rw [if_neg (Finset.ne_of_mem_erase hc)]
  rw [hrest, if_pos rfl]
  omega

theorem getLsbD_one_shiftLeft (hc : c < w) : (1#w <<< b).getLsbD c = decide (c = b) := by
  rw [BitVec.getLsbD_shiftLeft, BitVec.getLsbD_one]
  by_cases h : c = b
  · subst h
    simp [hc]
    omega
  · simp [h]
    omega

theorem getLsbD_clear (m : BitVec w) (hc : c < w) :
    (m &&& ~~~(1#w <<< b)).getLsbD c = (m.getLsbD c && !decide (c = b)) := by
  rw [BitVec.getLsbD_and, BitVec.getLsbD_not, getLsbD_one_shiftLeft hc, decide_eq_true hc, Bool.true_and]

theorem WF.add {s : BucketQueue α w} (h : s.WF) (hb : b < w) (a : α) : (s.add b a).WF where
  mask c hc := by
    show (s.mask ||| 1#w <<< b).getLsbD c = true ↔ (if c = b then s.q b ++ [a] else s.q c) ≠ []
    rw [BitVec.getLsbD_or, getLsbD_one_shiftLeft hc, Bool.or_eq_true, decide_eq_true_iff, h.mask c hc]
    by_cases hcb : c = b <;> simp [hcb]
  count := by
    show s.n + 1 = _
    refine Eq.trans ?_ (sum_length_update s.q hb (s.q b ++ [a])).symm
    rw [h.count, List.length_append, List.length_singleton]
    omega
  out c hc := by
    show (if c = b then _ else s.q c) = []
    rw [if_neg (by omega), h.out c hc]

theorem WF.del [DecidableEq α] {s : BucketQueue α w} (h : s.WF) (ha : a ∈ s.q b) :
    (s.del b a).WF := by
  have hb : b < w := by
    by_contra hb
    rw [h.out b (by omega)] at ha
    cases ha
  refine ⟨fun c hc => ?_, ?_, fun c hc => ?_⟩
  · show (if ((s.q b).erase a).isEmpty then s.mask &&& ~~~(1#w <<< b) else s.mask).getLsbD c =
      true ↔ (if c = b then (s.q b).erase a else s.q c) ≠ []
    by_cases hcb : c = b
    · subst hcb
      cases he : (s.q c).erase a with
      | nil =>
        rw [List.isEmpty_nil, if_pos rfl, getLsbD_clear _ hc]
        simp
      | cons x l => simp [(h.mask c hc).mpr (List.ne_nil_of_mem ha)]
    · rw [if_neg hcb, ← h.mask c hc]
      cases he : (s.q b).erase a with
      | nil =>
        rw [List.isEmpty_nil, if_pos rfl, getLsbD_clear _ hc, decide_eq_false hcb, Bool.not_false, Bool.and_true]
      | cons x l => rfl
  · show s.n - 1 = _
    refine Eq.trans ?_ (sum_length_update s.q hb ((s.q b).erase a)).symm
    have hpos : 0 < (s.q b).length := List.length_pos_of_mem ha
    rw [h.count, List.length_erase_of_mem ha]
    omega
  · show (if c = b then _ else s.q c) = []
    rw [if_neg (by omega), h.out c hc]

theorem first_some {s : BucketQueue α w} {order : List Nat} (hf : s.first order = some a) :
    ∃ b ∈ order, (s.q b).head? = some a := by
  obtain ⟨b, hb, ha⟩ := Option.bind_eq_some_iff.mp hf
  exact ⟨b, List.mem_of_find?_eq_some hb, ha⟩

end BucketQueue
