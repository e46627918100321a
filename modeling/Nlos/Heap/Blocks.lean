import Nlos.Heap.Luaheap

/-!
# Where the blocks are

The invariant of the heap. The chunks and the mappings of the large blocks are apart. Inside a chunk
the live blocks, the free ones and the bump region are apart, and together with the bytes that were
lost they make up the chunk: that is why a sweep, which only adds up what is free, gives no chunk
back that is in use.
-/

namespace Nlos.Luaheap

open List

variable {T : Target} {s s' : Heap} {a b c : Span} {p q n ci : Nat}

/-! ## Classes -/

theorem classSize_bounds (h : ci < nclass) :
    16 ≤ classSize ci ∧ classSize ci ≤ 512 ∧ 8 ∣ classSize ci := by
  have all : ∀ ci < 14, 16 ≤ classSize ci ∧ classSize ci ≤ 512 ∧ 8 ∣ classSize ci := by decide
  exact all ci h

theorem le_classSize (h : classof n < nclass) : n ≤ classSize (classof n) := by
  have hlt : classes.findIdx (n ≤ ·) < classes.length := h
  have hle := findIdx_getElem (w := hlt)
  unfold classSize classof
  rw [getD_eq_getElem?_getD, List.getElem?_eq_getElem hlt]
  exact of_decide_eq_true hle

namespace Target

theorem word_le (T : Target) : 4 ≤ T.word ∧ T.word ≤ 8 := by
  rcases T.word_eq with h | h <;> omega

theorem chunkHdr_dvd (T : Target) : 8 ∣ T.chunkHdr := by
  rcases T.word_eq with h | h <;> simp [chunkHdr, h]

theorem largeHdr_dvd (T : Target) : 8 ∣ T.largeHdr := by
  rcases T.word_eq with h | h <;> simp [largeHdr, h]

theorem hdr_le (T : Target) :
    16 ≤ T.chunkHdr ∧ T.chunkHdr ≤ 32 ∧ 8 ≤ T.largeHdr ∧ T.largeHdr ≤ 16 := by
  have h := T.word_le
  unfold chunkHdr largeHdr
  omega

theorem sizes_le (T : Target) : 2 ^ 32 ≤ T.sizes := by
  unfold sizes
  rcases T.word_eq with h | h <;> simp [h]

theorem le_roundup (T : Target) {k : Nat} (hk : 0 < k) (h : n + k - 1 < T.sizes) :
    n ≤ T.roundup n k := by
  unfold roundup
  rw [Nat.mod_eq_of_lt h]
  have h1 := Nat.div_add_mod (n + k - 1) k
  have h2 := Nat.mod_lt (n + k - 1) hk
  rw [Nat.mul_comm] at h1
  omega

end Target

/-! ## Cells -/

def Block.Small (b : Block) : Prop := classof b.size < nclass

instance (b : Block) : Decidable b.Small := inferInstanceAs (Decidable (_ < _))

def Block.cell (b : Block) : Span := ⟨b.ptr, classSize (classof b.size)⟩

theorem Block.Small.bytes {b : Block} (h : b.Small) : b.bytes.Within b.cell :=
  Span.within_of_le (le_classSize h)

def Large.room (T : Target) (l : Large) : Span := ⟨l.ptr T, l.size - T.largeHdr⟩

namespace Heap

def liveCells (s : Heap) : List Span := (s.live.filter (·.Small)).map Block.cell

def freeCells (s : Heap) : List Span :=
  (List.range nclass).flatMap fun ci => (s.freelist ci).map fun p => ⟨p, classSize ci⟩

def cells (s : Heap) : List Span := s.liveCells ++ s.freeCells

def tail (s : Heap) : Span := ⟨s.bump, s.bumpleft⟩

/-- The addresses of the large blocks that callers have. -/
def liveLarges (s : Heap) : List Nat := (s.live.filter fun b => ¬b.Small).map (·.ptr)

structure Tiles (T : Target) (s : Heap) (l : List Span) : Prop where
  apart : l.Pairwise Span.Apart
  align : ∀ a ∈ l, 8 ∣ a.start
  len : ∀ a ∈ l, 16 ≤ a.len
  chunk : ∀ a ∈ l, ∃ c ∈ s.chunks, a.Within (c.payload T)
  bump : 0 < s.bumpleft → 8 ∣ s.bump
  tail : 0 < s.bumpleft → ∃ c, s.chunks.head? = some c ∧ s.tail.Within (c.payload T)
  tailApart : ∀ a ∈ l, a.Apart s.tail
  tally : ∀ c ∈ s.chunks,
    Span.held (c.payload T) l + c.lost + (if s.chunks.head? = some c then s.bumpleft else 0) +
      T.chunkHdr = c.size

/-- How the large blocks lie in the mappings. -/
structure Mappings (T : Target) (s : Heap) : Prop where
  nodup : (s.liveLarges ++ s.cachedLarges).Nodup
  live : ∀ b ∈ s.live, ¬b.Small → ∃ l ∈ s.larges, b.ptr = l.ptr T ∧ b.size + T.largeHdr ≤ l.size
  cached : ∀ ci p, p ∈ s.largefree ci → ci < nlargeclass ∧ ∃ l ∈ s.larges, p = l.ptr T ∧
    l.size = (ci + 1) * largeGrain

structure Floor (T : Target) (s : Heap) : Prop where
  chunks_apart : s.chunks.Pairwise fun c c' => c.span.Apart c'.span
  tiles : s.Tiles T s.cells

/-- The regions and the large blocks are in order. -/
structure Placed (T : Target) (s : Heap) : Prop where
  regions : s.regions.Pairwise Span.Apart
  chunkBase : ∀ c ∈ s.chunks, c.base ≠ 0 ∧ 8 ∣ c.base
  largeBase : ∀ l ∈ s.larges, l.base ≠ 0 ∧ 8 ∣ l.base ∧ T.largeHdr ≤ l.size
  mappings : s.Mappings T

structure Ok (T : Target) (s : Heap) : Prop extends Floor T s, Placed T s

/-! ## Regions -/

theorem Tiles.congr {l : List Span} (h : s.Tiles T l) (hc : s'.chunks = s.chunks)
    (hb : s'.bump = s.bump) (hn : s'.bumpleft = s.bumpleft) : s'.Tiles T l := by
  cases s
  cases s'
  cases hc
  cases hb
  cases hn
  exact { h with }

theorem Mappings.congr (h : s.Mappings T) (hl : s'.live = s.live) (hm : s'.larges = s.larges)
    (hf : s'.largefree = s.largefree) : s'.Mappings T := by
  cases s
  cases s'
  cases hl
  cases hm
  cases hf
  exact { h with }

theorem Tiles.perm {l l' : List Span} (ht : s.Tiles T l) (hp : l.Perm l') : s.Tiles T l' where
  apart := (hp.pairwise_iff Span.Apart.symm).mp ht.apart
  align a ha := ht.align a (hp.mem_iff.mpr ha)
  len a ha := ht.len a (hp.mem_iff.mpr ha)
  chunk a ha := ht.chunk a (hp.mem_iff.mpr ha)
  bump := ht.bump
  tail := ht.tail
  tailApart a ha := ht.tailApart a (hp.mem_iff.mpr ha)
  tally c hc := by rw [← Span.held_perm hp]; exact ht.tally c hc

namespace Floor

variable {T : Target} {s : Heap} (hs : s.Floor T)

include hs

theorem chunk_chunk {c c' : Chunk} (hc : c ∈ s.chunks) (hc' : c' ∈ s.chunks) (hne : c ≠ c') :
    c.span.Apart c'.span :=
  Span.apart_of_pairwise hs.chunks_apart hc hc' hne

theorem hdr_le {c : Chunk} (hc : c ∈ s.chunks) : T.chunkHdr ≤ c.size := by
  have h := hs.tiles.tally c hc
  omega

theorem payload_within {c : Chunk} (hc : c ∈ s.chunks) : (c.payload T).Within c.span := by
  have h := hs.hdr_le hc
  constructor
  · exact Nat.le_add_right _ _
  · show c.base + T.chunkHdr + (c.size - T.chunkHdr) ≤ c.base + c.size
    omega

end Floor

namespace Ok

variable {T : Target} {s : Heap} (hs : s.Ok T)

include hs

theorem larges_apart : s.larges.Pairwise fun l l' => l.span.Apart l'.span := by
  have h := (pairwise_append.mp (pairwise_cons.mp hs.regions).2).2.1
  exact pairwise_map.mp h

variable {l l' : Large}

theorem chunk_large {c : Chunk} (hc : c ∈ s.chunks) (hl : l ∈ s.larges) : c.span.Apart l.span :=
  (pairwise_append.mp (pairwise_cons.mp hs.regions).2).2.2 _ (mem_map_of_mem hc) _
    (mem_map_of_mem hl)

theorem large_large (hl : l ∈ s.larges) (hl' : l' ∈ s.larges) (hne : l ≠ l') :
    l.span.Apart l'.span :=
  Span.apart_of_pairwise hs.larges_apart hl hl' hne

theorem room_within (hl : l ∈ s.larges) : (l.room T).Within l.span := by
  have h := (hs.largeBase l hl).2.2
  constructor
  · exact Nat.le_add_right _ _
  · show l.base + T.largeHdr + (l.size - T.largeHdr) ≤ l.base + l.size
    omega

/-- Two mappings have different addresses. -/
theorem large_inj (hl : l ∈ s.larges) (hl' : l' ∈ s.larges) (e : l.ptr T = l'.ptr T) : l = l' := by
  by_contra hne
  have hb := hs.largeBase l hl
  have hb' := hs.largeBase l' hl'
  have hh := T.hdr_le
  have e' : l.base = l'.base := Nat.add_right_cancel e
  refine hs.large_large hl hl' hne l.base ⟨Nat.le_refl _, ?_⟩ ⟨?_, ?_⟩
  · show l.base < l.base + l.size
    omega
  · show l'.base ≤ l.base
    omega
  · show l.base < l'.base + l'.size
    omega

theorem largeAt_eq (hl : l ∈ s.larges) : s.largeAt T (l.ptr T) = l := by
  unfold largeAt
  cases hf : s.larges.find? (·.ptr T = l.ptr T) with
  | none => exact absurd (List.find?_eq_none.mp hf l hl) (by simp)
  | some l' =>
    have e := List.find?_some hf
    exact hs.large_inj (mem_of_find?_eq_some hf) hl (by simpa using e)

end Ok

theorem Vacant.chunk {c : Chunk} (hv : s.Vacant T a) (hc : c ∈ s.chunks) : c.span.Apart a :=
  hv.2.2.2 _ (mem_cons_of_mem _ (mem_append_left _ (mem_map_of_mem hc)))

theorem Vacant.large {l : Large} (hv : s.Vacant T a) (hl : l ∈ s.larges) : l.span.Apart a :=
  hv.2.2.2 _ (mem_cons_of_mem _ (mem_append_right _ (mem_map_of_mem hl)))

/-! ## Memory -/

variable {α : Type}

theorem foldl_poke (f : α → Span) (l : List α) (s : Heap) : l.foldl (fun s x => s.poke (f x)) s =
      { s with mem := fun x => if ∃ y ∈ l, x ∈ f y then s.junk x else s.mem x } := by
  induction l generalizing s with
  | nil => simp
  | cons y l ih =>
    rw [foldl_cons, ih]
    refine congrArg (fun m => { s with mem := m }) (funext fun x => ?_)
    by_cases h : ∃ z ∈ l, x ∈ f z
    · simp [poke, h]
    · by_cases hy : x ∈ f y <;> simp [poke, h, hy]

/-- A span that holds no byte of a live block. -/
def Safe (s : Heap) (a : Span) : Prop := ∀ b ∈ s.live, a.Apart b.bytes

/-- An operation inside the heap: no block comes or goes, and none is written to. -/
structure Calm (T : Target) (s s' : Heap) : Prop where
  ok : s'.Ok T
  live : s'.live = s.live
  keeps : ∀ b ∈ s.live, ∀ x ∈ b.bytes, s'.mem x = s.mem x

theorem Calm.trans {s'' : Heap} (h1 : Calm T s s') (h2 : Calm T s' s'') : Calm T s s'' where
  ok := h2.ok
  live := h2.live.trans h1.live
  keeps b hb x hx := (h2.keeps b (h1.live ▸ hb) x hx).trans (h1.keeps b hb x hx)

/-- Only the memory changes, and what the heap knows of its surroundings. -/
theorem Ok.remem (hs : s.Ok T) (m : Nat → UInt8) (src : List (Option Nat)) (junk : Nat → UInt8) :
    { s with mem := m, src := src, junk := junk }.Ok T where
  chunks_apart := hs.chunks_apart
  tiles := hs.tiles.congr rfl rfl rfl
  toPlaced := { hs.toPlaced with mappings := hs.mappings.congr rfl rfl rfl }

theorem Ok.poke (hs : s.Ok T) (ha : s.Safe a) : Calm T s (s.poke a) where
  ok := hs.remem _ _ _
  live := rfl
  keeps b hb x hx := if_neg fun h => ha b hb x h hx

theorem Ok.foldl_poke {f : α → Span} {l : List α} (hs : s.Ok T) (ha : ∀ y ∈ l, s.Safe (f y)) :
    Calm T s (l.foldl (fun s x => s.poke (f x)) s) := by
  rw [Heap.foldl_poke]
  exact ⟨hs.remem _ _ _, rfl, fun b hb x hx => if_neg fun ⟨y, hy, h⟩ => ha y hy b hb x h hx⟩

theorem mem_liveCells {b : Block} (hb : b ∈ s.live) (hsm : b.Small) : b.cell ∈ s.liveCells :=
  mem_map_of_mem (mem_filter.mpr ⟨hb, by simpa using hsm⟩)

namespace Ok

variable {T : Target} {s : Heap} (hs : s.Ok T)

include hs

theorem live_cases {b : Block} (hb : b ∈ s.live) :
    (b.Small ∧ ∃ c ∈ s.chunks, b.cell.Within (c.payload T)) ∨
    (¬b.Small ∧ ∃ l ∈ s.larges, b.ptr = l.ptr T ∧ b.bytes.Within (l.room T)) := by
  by_cases hsm : b.Small
  · exact .inl ⟨hsm, hs.tiles.chunk _ (mem_append_left _ (mem_liveCells hb hsm))⟩
  · obtain ⟨l, hl, e, hle⟩ := hs.mappings.live b hb hsm
    refine .inr ⟨hsm, l, hl, e, ?_, ?_⟩
    · exact Nat.le_of_eq e.symm
    · show b.ptr + b.size ≤ l.ptr T + (l.size - T.largeHdr)
      omega

theorem safe_chunkHdr {c : Chunk} (hc : c ∈ s.chunks) : s.Safe ⟨c.base, T.chunkHdr⟩ := by
  intro b hb
  have hin : Span.Within ⟨c.base, T.chunkHdr⟩ c.span := Span.within_of_le (hs.hdr_le hc)
  obtain ⟨hsm, c', hc', hw⟩ | ⟨-, l, hl, -, hw⟩ := hs.live_cases hb
  · by_cases e : c = c'
    · subst e
      intro x hx hx'
      have h := (hw.mem (hsm.bytes.mem hx')).1
      have h' : x < c.base + T.chunkHdr := hx.2
      exact absurd h (Nat.not_le.mpr h')
    · exact (hs.chunk_chunk hc hc' e).mono hin (hsm.bytes.trans (hw.trans (hs.payload_within hc')))
  · exact (hs.chunk_large hc hl).mono hin (hw.trans (hs.room_within hl))

theorem safe_largeHdr {l : Large} (hl : l ∈ s.larges) : s.Safe ⟨l.base, T.largeHdr⟩ := by
  intro b hb
  have hin : Span.Within ⟨l.base, T.largeHdr⟩ l.span :=
    Span.within_of_le (hs.largeBase l hl).2.2
  obtain ⟨hsm, c, hc, hw⟩ | ⟨-, l', hl', -, hw⟩ := hs.live_cases hb
  · exact (hs.chunk_large hc hl).symm.mono hin (hsm.bytes.trans (hw.trans (hs.payload_within hc)))
  · by_cases e : l = l'
    · subst e
      intro x hx hx'
      have h := (hw.mem hx').1
      have h' : x < l.base + T.largeHdr := hx.2
      exact absurd h (Nat.not_le.mpr h')
    · exact (hs.large_large hl hl' e).mono hin (hw.trans (hs.room_within hl'))

theorem safe_of_within {c : Chunk} (hc : c ∈ s.chunks) (ha : a.Within (c.payload T))
    (hl : ∀ b ∈ s.liveCells, a.Apart b) : s.Safe a := by
  intro b hb
  obtain ⟨hsm, -⟩ | ⟨-, l, hl', -, hw⟩ := hs.live_cases hb
  · exact (hl _ (mem_liveCells hb hsm)).mono (.refl a) hsm.bytes
  · exact (hs.chunk_large hc hl').mono (ha.trans (hs.payload_within hc))
      (hw.trans (hs.room_within hl'))

theorem safe_tail (ha : a.Within s.tail) (hp : 0 < s.bumpleft) : s.Safe a := by
  obtain ⟨c, hc, hw⟩ := hs.tiles.tail hp
  refine hs.safe_of_within (mem_of_mem_head? hc) (ha.trans hw) fun b hb => ?_
  exact ((hs.tiles.tailApart b (mem_append_left _ hb)).symm).mono ha (.refl b)

theorem safe_free (ha : a ∈ s.freeCells) : s.Safe ⟨a.start, T.word⟩ := by
  have hm := mem_append_right s.liveCells ha
  obtain ⟨c, hc, hw⟩ := hs.tiles.chunk a hm
  have hin : Span.Within ⟨a.start, T.word⟩ a := by
    have h1 := hs.tiles.len a hm
    have h2 := T.word_le
    have h3 : T.word ≤ a.len := by omega
    exact Span.within_of_le h3
  refine hs.safe_of_within hc (hin.trans hw) fun b hb => ?_
  exact ((pairwise_append.mp hs.tiles.apart).2.2 b hb a ha).symm.mono hin (.refl b)

theorem safe_vacant (ha : s.Vacant T a) (hb : b.Within a) : s.Safe b := by
  intro x hx
  obtain ⟨hsm, c, hc, hw⟩ | ⟨-, l, hl, -, hw⟩ := hs.live_cases hx
  · exact (ha.chunk hc).symm.mono hb (hsm.bytes.trans (hw.trans (hs.payload_within hc)))
  · exact (ha.large hl).symm.mono hb (hw.trans (hs.room_within hl))

end Ok

end Heap

end Nlos.Luaheap
