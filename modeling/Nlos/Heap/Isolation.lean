import Nlos.Heap.Chunks

/-!
# Blocks are isolated

Requests and frees keep the heap in order, and so every run does, as long as no request is so large
that the size of its mapping wraps. `size_t` is the reason for that condition: `large_alloc` adds
the header to the size and rounds up with no check, so a request close to `SIZE_MAX` is given a
small mapping.

In those runs no caller can reach a header or a link, and a sweep gives back what it should. Behind
a request that wraps it need not: the heap's own copy goes past the end of the mapping, and over the
header of a chunk.
-/

namespace Nlos.Luaheap

open List Function

variable {T : Target} {s s' : Heap} {a : Span} {b : Block} {p q n o ci want : Nat}

/-! ## Requests that fit -/

/-- The mapping of a request, header and rounding included, has a size. -/
def Target.Fits (T : Target) (n : Nat) : Prop := n + T.largeHdr + 7 < T.sizes

instance : Decidable (T.Fits n) := inferInstanceAs (Decidable (_ < _))

theorem Target.Fits.le_want (h : T.Fits n) :
    n + T.largeHdr ≤ T.largeWant ((n + T.largeHdr) % T.sizes) := by
  have h1 := T.sizes_le
  have h2 : n + T.largeHdr + 7 < T.sizes := h
  rw [Nat.mod_eq_of_lt (by omega)]
  unfold Target.largeWant
  split
  · exact T.le_roundup (by decide) (by unfold align; omega)
  next hle =>
  have h3 : n + T.largeHdr ≤ 64 * 1024 := Nat.le_of_not_lt hle
  exact T.le_roundup (by decide) (by unfold largeGrain; omega)

theorem classof_lt (h : n ≤ 16) : classof n < nclass := by
  refine findIdx_lt_length_of_exists ⟨16, by decide, ?_⟩
  simpa using h

theorem largeclassof_spec (h : largeclassof want < nlargeclass) :
    want = (largeclassof want + 1) * largeGrain := by
  unfold largeclassof at h ⊢
  split at h
  · exact absurd h (Nat.lt_irrefl _)
  next hn =>
  rw [if_neg hn]
  unfold largeGrain at hn ⊢
  omega

namespace Heap

/-! ## Lists of blocks -/

theorem liveCells_own_small (h : Block.Small ⟨p, n⟩) :
    (s.own p n).liveCells = ⟨p, classSize (classof n)⟩ :: s.liveCells := by
  unfold liveCells own
  rw [filter_cons_of_pos (by simpa using h)]
  rfl

theorem liveCells_own_large (h : ¬Block.Small ⟨p, n⟩) : (s.own p n).liveCells = s.liveCells := by
  unfold liveCells own
  rw [filter_cons_of_neg (by simpa using h)]

theorem liveLarges_own_small (h : Block.Small ⟨p, n⟩) : (s.own p n).liveLarges = s.liveLarges := by
  unfold liveLarges own
  rw [filter_cons_of_neg (by simpa using h)]

theorem liveLarges_own_large (h : ¬Block.Small ⟨p, n⟩) :
    (s.own p n).liveLarges = p :: s.liveLarges := by
  unfold liveLarges own
  rw [filter_cons_of_pos (by simpa using h)]
  rfl

/-- A block that is given back, and taken again, is where it was. -/
theorem live_perm (h : ⟨p, o⟩ ∈ s.live) : s.live.Perm ((s.disown p o).own p o).live :=
  perm_cons_erase h

theorem liveCells_perm (h : s.live.Perm s'.live) : s.liveCells.Perm s'.liveCells :=
  (h.filter _).map _

theorem liveLarges_perm (h : s.live.Perm s'.live) : s.liveLarges.Perm s'.liveLarges :=
  (h.filter _).map _

theorem Mappings.own_small (hm : s.Mappings T) (h : Block.Small ⟨p, n⟩) :
    (s.own p n).Mappings T := by
  refine ⟨?_, forall_mem_cons.mpr ⟨fun h' => absurd h h', hm.live⟩, hm.cached⟩
  rw [liveLarges_own_small h]
  exact hm.nodup

theorem Mappings.disown_small (hm : s.Mappings T) (hb : ⟨p, o⟩ ∈ s.live) (h : Block.Small ⟨p, o⟩) :
    (s.disown p o).Mappings T := by
  have hp := liveLarges_perm (live_perm hb)
  rw [liveLarges_own_small h] at hp
  exact ⟨(hp.append_right s.cachedLarges).nodup_iff.mp hm.nodup,
    fun b hb' => hm.live b (mem_of_mem_erase hb'), hm.cached⟩

theorem liveLarges_large (hb : ⟨p, o⟩ ∈ s.live) (h : ¬Block.Small ⟨p, o⟩) :
    s.liveLarges.Perm (p :: (s.disown p o).liveLarges) :=
  (liveLarges_perm (live_perm hb)).trans (.of_eq (liveLarges_own_large h))

/-! ## Requests -/

/-- A request is refused, or it is given a block and no other block is written to. -/
def Served (T : Target) (s : Heap) (n : Nat) : Option Nat × Heap → Prop
  | (none, s') => Calm T s s'
  | (some q, s') =>
    s'.Ok T ∧ s'.live = ⟨q, n⟩ :: s.live ∧ ∀ b ∈ s.live, ∀ x ∈ b.bytes, s'.mem x = s.mem x

variable {r : Option Nat × Heap} {rest : List Nat}

theorem Calm.served (hc : Calm T s s') (hr : Served T s' n r) : Served T s n r := by
  obtain ⟨x, s1⟩ := r
  cases x with
  | none => exact hc.trans hr
  | some q =>
    obtain ⟨h1, h2, h3⟩ := hr
    exact ⟨h1, h2.trans (congrArg _ hc.live),
      fun b hb x hx => (h3 b (hc.live ▸ hb) x hx).trans (hc.keeps b hb x hx)⟩

theorem cut_served (hs : s.Ok T) (hci : classof n < nclass)
    (hle : classSize (classof n) ≤ s.bumpleft) : Served T s n (s.cut (classof n) n) := by
  obtain ⟨h16, -, h8⟩ := classSize_bounds hci
  have hsm : Block.Small ⟨s.bump, n⟩ := hci
  have ht := hs.cut_tiles h16 hle h8
  refine ⟨?_, rfl, fun _ _ _ _ => rfl⟩
  refine hs.retile rfl rfl rfl
    (ht.congr rfl rfl rfl) (.of_eq ?_) ((hs.mappings.own_small hsm).congr rfl rfl rfl)
  unfold cells
  rw [liveCells_own_small hsm]
  rfl

theorem freeCells_pop (hci : ci < nclass) (hf : s.freelist ci = p :: rest) :
    s.freeCells.Perm
      (⟨p, classSize ci⟩ :: { s with freelist := update s.freelist ci rest }.freeCells) := by
  refine freeCells_cons hci ?_
  dsimp only
  rw [update_self, update_idem, ← hf, update_eq_self]

theorem smallAlloc_served (hs : s.Ok T) (hci : classof n < nclass) :
    Served T s n (s.smallAlloc T (classof n) n) := by
  unfold smallAlloc
  split
  next p rest hf =>
    have hsm : Block.Small ⟨p, n⟩ := hci
    refine ⟨?_, rfl, fun _ _ _ _ => rfl⟩
    refine hs.retile rfl rfl rfl (hs.tiles.congr rfl rfl rfl) ?_
      ((hs.mappings.own_small hsm).congr rfl rfl rfl)
    unfold cells
    rw [liveCells_own_small hsm]
    exact ((freeCells_pop hci hf).append_left s.liveCells).trans perm_middle
  · split
    · obtain ⟨hc, hroom⟩ := newchunk_calm hs (classSize_bounds hci).2.1
      match s.newchunk T (classSize (classof n)), hc, hroom with
      | (false, _), hc, _ => exact hc
      | (true, _), hc, hroom => exact hc.served (cut_served hc.ok hci (hroom rfl))
    next hge => exact cut_served hs hci (Nat.le_of_not_lt hge)

/-- The addresses of large blocks are those of mappings. -/
theorem Ok.mem_larges (hs : s.Ok T) (hp : p ∈ s.liveLarges ++ s.cachedLarges) :
    ∃ l ∈ s.larges, p = l.ptr T := by
  obtain hp | hp := mem_append.mp hp
  · obtain ⟨b, hb, rfl⟩ := mem_map.mp hp
    obtain ⟨hb, hsm⟩ := mem_filter.mp hb
    obtain ⟨l, hl, e, -⟩ := hs.mappings.live b hb (by simpa using hsm)
    exact ⟨l, hl, e⟩
  · obtain ⟨ci, -, hp⟩ := mem_flatMap.mp hp
    obtain ⟨-, l, hl, e, -⟩ := hs.mappings.cached ci p hp
    exact ⟨l, hl, e⟩

/-- A new mapping holds the block. -/
theorem Ok.addLarge (hs : s.Ok T) (hv : s.Vacant T ⟨p, want⟩) (hsm : ¬classof n < nclass)
    (hle : n + T.largeHdr ≤ want) : Served T s n (some (p + T.largeHdr),
      { s.poke ⟨p, T.largeHdr⟩ with larges := ⟨p, want⟩ :: s.larges }.own (p + T.largeHdr) n) := by
  have hh := T.hdr_le
  have hsm : ¬Block.Small ⟨p + T.largeHdr, n⟩ := hsm
  have hsafe : s.Safe ⟨p, T.largeHdr⟩ :=
    hs.safe_vacant hv (Span.within_of_le (Nat.le_trans (Nat.le_add_left _ n) hle))
  refine ⟨⟨⟨hs.chunks_apart, ?_⟩, ?_⟩, rfl, (hs.poke hsafe).keeps⟩
  · have ht := hs.tiles
    unfold cells
    rw [liveCells_own_large hsm]
    exact ht.congr rfl rfl rfl
  have hfresh : p + T.largeHdr ∉ s.liveLarges ++ s.cachedLarges := by
    intro hm
    obtain ⟨l, hl, e⟩ := hs.mem_larges hm
    have hb := (hs.largeBase l hl).2.2
    have e' : p = l.base := Nat.add_right_cancel e
    refine hv.large hl p ⟨?_, ?_⟩ ⟨Nat.le_refl p, ?_⟩
    · exact Nat.le_of_eq e'.symm
    · show p < l.base + l.size
      omega
    · show p < p + want
      omega
  refine ⟨?_, hs.chunkBase, ?_, ⟨?_, ?_, ?_⟩⟩
  · have hp : (s.self :: s.chunks.map Chunk.span ++ ⟨p, want⟩ :: s.larges.map Large.span).Perm
        (⟨p, want⟩ :: s.regions) :=
      perm_middle
    refine (hp.pairwise_iff Span.Apart.symm).mpr (pairwise_cons.mpr ⟨fun r hr => ?_, hs.regions⟩)
    exact (hv.2.2.2 r hr).symm
  · exact forall_mem_cons.mpr ⟨⟨hv.1, hv.2.1, by show T.largeHdr ≤ want; omega⟩, hs.largeBase⟩
  · rw [liveLarges_own_large hsm]
    exact nodup_cons.mpr ⟨hfresh, hs.mappings.nodup⟩
  · refine forall_mem_cons.mpr ⟨fun _ => ⟨_, mem_cons_self, rfl, hle⟩, fun b hb hb' => ?_⟩
    obtain ⟨l, hl, h⟩ := hs.mappings.live b hb hb'
    exact ⟨l, mem_cons_of_mem _ hl, h⟩
  · intro ci x hx
    obtain ⟨hci, l, hl, h⟩ := hs.mappings.cached ci x hx
    exact ⟨hci, l, mem_cons_of_mem _ hl, h⟩

theorem cached_pop (hci : ci < nlargeclass) (hf : s.largefree ci = p :: rest) :
    s.cachedLarges.Perm (p :: { s with largefree := update s.largefree ci rest }.cachedLarges) := by
  have h := List.Perm.flatMap_push (f := update s.largefree ci rest) (x := p)
    (nodup_range) (mem_range.mpr hci)
  refine List.Perm.trans (.of_eq ?_) h
  refine flatMap_congr fun k _ => ?_
  by_cases e : k = ci
  · subst e
    simp [hf]
  · simp [e]

theorem largeAlloc_served (hs : s.Ok T) (hsm : ¬classof n < nclass) (hf : T.Fits n) :
    Served T s n (s.largeAlloc T n) := by
  have hwant := hf.le_want
  unfold largeAlloc
  dsimp only
  generalize T.largeWant ((n + T.largeHdr) % T.sizes) = want at hwant ⊢
  split
  next p rest hp =>
    obtain ⟨hci, hp⟩ : largeclassof want < nlargeclass ∧
        s.largefree (largeclassof want) = p :: rest := by
      split at hp
      next hci => exact ⟨hci, hp⟩
      · cases hp
    have hsm : ¬Block.Small ⟨p, n⟩ := hsm
    refine ⟨⟨⟨hs.chunks_apart, ?_⟩, ?_⟩, rfl, fun _ _ _ _ => rfl⟩
    · have ht := hs.tiles
      unfold cells
      rw [liveCells_own_large hsm]
      exact ht.congr rfl rfl rfl
    obtain ⟨-, l, hl, e, hsize⟩ := hs.mappings.cached _ p (hp ▸ mem_cons_self)
    rw [← largeclassof_spec hci] at hsize
    refine ⟨hs.regions, hs.chunkBase, hs.largeBase, ⟨?_, ?_, ?_⟩⟩
    · rw [liveLarges_own_large hsm]
      have hperm := ((cached_pop hci hp).append_left s.liveLarges).trans perm_middle
      exact hperm.nodup_iff.mp hs.mappings.nodup
    · exact forall_mem_cons.mpr ⟨fun _ => ⟨l, hl, e, hsize ▸ hwant⟩, hs.mappings.live⟩
    · intro ci x hx
      by_cases e : ci = largeclassof want
      · subst e
        exact hs.mappings.cached _ x (hp ▸ mem_cons_of_mem _ (by simpa [own] using hx))
      · exact hs.mappings.cached ci x (by simpa [own, e] using hx)
  · have hg : Granted T s want (s.chunkAlloc T want) := chunkAlloc_granted hs
    replace hg := again_granted hg releaseLargefree_calm
    generalize again T _ _ _ = r at hg ⊢
    obtain ⟨x, s1⟩ := r
    obtain ⟨hc, hv⟩ := hg
    cases x with
    | none => exact hc
    | some a => exact hc.served (hc.ok.addLarge (hv a rfl) hsm hwant)

theorem alloc_served (hs : s.Ok T) (hf : T.Fits n) : Served T s n (s.alloc T n) := by
  unfold alloc
  split
  next h => exact smallAlloc_served hs h
  next h => exact largeAlloc_served hs h hf

/-! ## Frees -/

/-- A block is given back, and no other block is written to. -/
def Freed (T : Target) (s : Heap) (p o : Nat) (s' : Heap) : Prop :=
  s'.Ok T ∧ s'.live = s.live.erase ⟨p, o⟩ ∧ ∀ b ∈ s.live.erase ⟨p, o⟩, ∀ x ∈ b.bytes,
    s'.mem x = s.mem x

theorem smallFree_freed (hs : s.Ok T) (hb : ⟨p, o⟩ ∈ s.live) (hci : classof o < nclass) :
    Freed T s p o (s.smallFree T p o) := by
  have hsm : Block.Small ⟨p, o⟩ := hci
  have hcell : s.liveCells.Perm (⟨p, classSize (classof o)⟩ :: (s.disown p o).liveCells) :=
    (liveCells_perm (live_perm hb)).trans (.of_eq (liveCells_own_small hsm))
  have hperm : s.cells.Perm ((s.disown p o).push T p (classof o)).cells := by
    have h1 := hcell.append_right s.freeCells
    exact h1.trans (cells_push hci).symm
  refine ⟨?_, rfl, fun b hb' x hx => if_neg fun h => ?_⟩
  · refine hs.retile rfl rfl rfl (hs.tiles.congr rfl rfl rfl) hperm ?_
    exact (hs.mappings.disown_small hb hsm).congr rfl rfl rfl
  · -- the link word is in the cell of the block, which is apart from the other cells
    have hw := T.word_le
    have h16 := (classSize_bounds hci).1
    have hin : Span.Within ⟨p, T.word⟩ ⟨p, classSize (classof o)⟩ := Span.within_of_le (by omega)
    have hapart := (hcell.pairwise_iff Span.Apart.symm).mp (pairwise_append.mp hs.tiles.apart).1
    obtain ⟨hsm', -⟩ | ⟨-, l, hl, -, hw'⟩ := hs.live_cases (mem_of_mem_erase hb')
    · have hm : b.cell ∈ (s.disown p o).liveCells := mem_liveCells hb' hsm'
      exact (pairwise_cons.mp hapart).1 _ hm x (hin.mem h) (hsm'.bytes.mem hx)
    · obtain ⟨-, c, hc, hwc⟩ | ⟨hn, -⟩ := hs.live_cases hb
      · exact hs.chunk_large hc hl x ((hwc.trans (hs.payload_within hc)).mem (hin.mem h))
          ((hw'.trans (hs.room_within hl)).mem hx)
      · exact hn hsm

/-- The other large blocks have other addresses. -/
theorem Ok.ptr_ne (hs : s.Ok T) (hb : ⟨p, o⟩ ∈ s.live) (hsm : ¬Block.Small ⟨p, o⟩)
    (hb' : b ∈ s.live.erase ⟨p, o⟩) (hsm' : ¬b.Small) : b.ptr ≠ p := by
  have hnodup := (liveLarges_large hb hsm).nodup_iff.mp (nodup_append.mp hs.mappings.nodup).1
  rintro rfl
  exact (nodup_cons.mp hnodup).1 (mem_map_of_mem (mem_filter.mpr ⟨hb', by simpa using hsm'⟩))

theorem cached_push (hci : ci < nlargeclass) :
    ((List.range nlargeclass).flatMap (update s.largefree ci (p :: s.largefree ci))).Perm
      (p :: s.cachedLarges) :=
  List.Perm.flatMap_push nodup_range (mem_range.mpr hci)

/-- The link of a large block that is cached is in its own mapping. -/
theorem Ok.link_apart (hs : s.Ok T) (hb : ⟨p, o⟩ ∈ s.live) (hsm : ¬Block.Small ⟨p, o⟩)
    (hb' : b ∈ s.live.erase ⟨p, o⟩) : Span.Apart ⟨p, T.word⟩ b.bytes := by
  obtain ⟨hn, -⟩ | ⟨-, l, hl, e, hw⟩ := hs.live_cases hb
  · exact absurd hn hsm
  have e : p = l.ptr T := e
  have hin : Span.Within ⟨p, T.word⟩ l.span := by
    have h1 : T.word ≤ o := by
      have h2 := T.word_le
      by_contra hlt
      exact hsm (show classof o < nclass from classof_lt (by omega))
    have hlink : Span.Within ⟨p, T.word⟩ (Block.mk p o).bytes := Span.within_of_le h1
    exact hlink.trans (hw.trans (hs.room_within hl))
  obtain ⟨hsm', c, hc, hw'⟩ | ⟨hsm', l', hl', e', hw'⟩ := hs.live_cases (mem_of_mem_erase hb')
  · exact (hs.chunk_large hc hl).symm.mono hin (hsm'.bytes.trans (hw'.trans (hs.payload_within hc)))
  · have hne : l ≠ l' := by
      rintro rfl
      exact hs.ptr_ne hb hsm hb' hsm' (e'.trans e.symm)
    exact (hs.large_large hl hl' hne).mono hin (hw'.trans (hs.room_within hl'))

theorem largeFree_freed (hs : s.Ok T) (hb : ⟨p, o⟩ ∈ s.live) (hsm : ¬classof o < nclass) :
    Freed T s p o (s.largeFree T p o) := by
  have hsm : ¬Block.Small ⟨p, o⟩ := hsm
  have hcell : s.cells.Perm ((s.disown p o).liveCells ++ s.freeCells) :=
    ((liveCells_perm (live_perm hb)).trans (.of_eq (liveCells_own_large hsm))).append_right _
  have ht := hs.tiles.perm hcell
  have hnodup :=
    ((liveLarges_large hb hsm).append_right s.cachedLarges).nodup_iff.mp hs.mappings.nodup
  unfold largeFree
  dsimp only
  split
  next hc =>
    refine ⟨⟨⟨hs.chunks_apart, ht.congr rfl rfl rfl⟩, ?_⟩, rfl,
      fun b hb' x hx => if_neg fun h => hs.link_apart hb hsm hb' x h hx⟩
    obtain ⟨l, hl, e, -⟩ := hs.mappings.live _ hb hsm
    have e : p = l.ptr T := e
    have hat : s.largeAt T p = l := e ▸ hs.largeAt_eq hl
    rw [hat] at hc ⊢
    refine ⟨hs.regions, hs.chunkBase, hs.largeBase, ⟨?_, ?_, ?_⟩⟩
    · have hcached := (cached_push (s := s) (p := p) hc.1).append_left (s.disown p o).liveLarges
      exact (hcached.trans perm_middle).nodup_iff.mpr hnodup
    · exact fun b hb' => hs.mappings.live b (mem_of_mem_erase hb')
    · intro ci x hx
      by_cases eci : ci = largeclassof l.size
      · subst eci
        have hx : x ∈ p :: s.largefree (largeclassof l.size) := by simpa using hx
        obtain rfl | hx := mem_cons.mp hx
        · exact ⟨hc.1, l, hl, e, largeclassof_spec hc.1⟩
        · exact hs.mappings.cached _ x hx
      · exact hs.mappings.cached ci x (by simpa [eci] using hx)
  · rw [foldl_poke]
    refine ⟨⟨⟨hs.chunks_apart, ht.congr rfl rfl rfl⟩, ?_⟩, rfl, fun b hb' x hx =>
      if_neg fun ⟨l', hl', h⟩ => hs.safe_largeHdr hl' b (mem_of_mem_erase hb') x h hx⟩
    refine ⟨?_, hs.chunkBase, ?_, ⟨?_, ?_, ?_⟩⟩
    · refine hs.regions.sublist (List.Sublist.cons_cons _ (List.Sublist.append (.refl _) ?_))
      exact filter_sublist.map _
    · exact fun l hl => hs.largeBase l (mem_of_mem_filter hl)
    · exact (nodup_cons.mp hnodup).2
    · intro b hb' hsm'
      obtain ⟨l', hl', e', hle⟩ := hs.mappings.live b (mem_of_mem_erase hb') hsm'
      have hne := hs.ptr_ne hb hsm hb' hsm'
      exact ⟨l', mem_filter.mpr ⟨hl', by simpa [← e'] using hne⟩, e', hle⟩
    · intro ci x hx
      obtain ⟨hci, l', hl', e', hle⟩ := hs.mappings.cached ci x hx
      have hne : x ≠ p := by
        rintro rfl
        exact (nodup_cons.mp hnodup).1
          (mem_append_right _ (mem_flatMap.mpr ⟨ci, mem_range.mpr hci, hx⟩))
      exact ⟨hci, l', mem_filter.mpr ⟨hl', by simpa [← e'] using hne⟩, e', hle⟩

theorem free_freed (hs : s.Ok T) (hb : ⟨p, o⟩ ∈ s.live) : Freed T s p o (s.free T p o) := by
  unfold free
  split
  next h => exact smallFree_freed hs hb h
  next h => exact largeFree_freed hs hb h

/-! ## Reallocation -/

/-- The bytes of a block and the header in front of it are in a region, so its address is not null.
-/
theorem Ok.ptr_pos (hs : s.Ok T) (hb : b ∈ s.live) : b.ptr ≠ 0 := by
  obtain ⟨-, c, hc, hw⟩ | ⟨-, l, hl, e, -⟩ := hs.live_cases hb
  · have h1 := (hs.chunkBase c hc).1
    have h2 : c.base + T.chunkHdr ≤ b.ptr := hw.1
    omega
  · have h1 := (hs.largeBase l hl).1
    have h2 : b.ptr = l.base + T.largeHdr := e
    omega

/-- What a block takes up: its cell, or the mapping behind the header. -/
def extent (T : Target) (s : Heap) (b : Block) : Span :=
  if b.Small then b.cell else (s.largeAt T b.ptr).room T

theorem extent_small (h : b.Small) : s.extent T b = b.cell := if_pos h

theorem Ok.extent_large (hs : s.Ok T) (hsm : ¬b.Small) {l : Large} (hl : l ∈ s.larges)
    (e : b.ptr = l.ptr T) : s.extent T b = l.room T := by
  unfold extent
  rw [if_neg hsm, e, hs.largeAt_eq hl]

/-- A block is in a cell of a chunk, or it has a mapping to itself. -/
theorem Ok.extent_cases (hs : s.Ok T) (hb : b ∈ s.live) :
    (b.Small ∧ s.extent T b = b.cell ∧ ∃ c ∈ s.chunks, (s.extent T b).Within c.span) ∨
    (¬b.Small ∧ ∃ l ∈ s.larges, b.ptr = l.ptr T ∧ s.extent T b = l.room T ∧ (s.extent T b).Within l.span) := by
  obtain ⟨hsm, c, hc, hw⟩ | ⟨hsm, l, hl, e, -⟩ := hs.live_cases hb
  · have h := extent_small (T := T) (s := s) hsm
    exact .inl ⟨hsm, h, c, hc, h ▸ hw.trans (hs.payload_within hc)⟩
  · have h := hs.extent_large hsm hl e
    exact .inr ⟨hsm, l, hl, e, h, h ▸ hs.room_within hl⟩

theorem Ok.bytes_within (hs : s.Ok T) (hb : b ∈ s.live) : b.bytes.Within (s.extent T b) := by
  obtain ⟨hsm, -⟩ | ⟨hsm, l, hl, e, hw⟩ := hs.live_cases hb
  · rw [extent_small hsm]
    exact hsm.bytes
  · rw [hs.extent_large hsm hl e]
    exact hw

/-- Blocks of a list with no block twice, in which small cells are apart and large ones have
different addresses. -/
theorem Ok.extents_apart (hs : s.Ok T) :
    s.live.Pairwise fun b b' => (s.extent T b).Apart (s.extent T b') := by
  have hcells := pairwise_filter.mp (pairwise_map.mp (pairwise_append.mp hs.tiles.apart).1)
  have hptrs := pairwise_filter.mp (pairwise_map.mp (nodup_append.mp hs.mappings.nodup).1)
  refine (hcells.and hptrs).imp_of_mem fun {b b'} hb hb' h => ?_
  obtain ⟨hsm, e, c, hc, hw⟩ | ⟨hsm, l, hl, e, -, hw⟩ := hs.extent_cases hb
  · obtain ⟨hsm', e', -⟩ | ⟨-, l', hl', -, -, hw'⟩ := hs.extent_cases hb'
    · rw [e, e']
      exact h.1 (by simpa using hsm) (by simpa using hsm')
    · exact (hs.chunk_large hc hl').mono hw hw'
  · obtain ⟨-, -, c', hc', hw'⟩ | ⟨hsm', l', hl', e', -, hw'⟩ := hs.extent_cases hb'
    · exact (hs.chunk_large hc' hl).symm.mono hw hw'
    · have hne : l ≠ l' := by
        rintro rfl
        exact h.2 (by simpa using hsm) (by simpa using hsm') (e.trans e'.symm)
      exact (hs.large_large hl hl' hne).mono hw hw'

theorem Ok.bytes_apart (hs : s.Ok T) : s.live.Pairwise fun b b' => b.bytes.Apart b'.bytes :=
  hs.extents_apart.imp_of_mem fun hb hb' h => h.mono (hs.bytes_within hb) (hs.bytes_within hb')

theorem resize_ok (hs : s.Ok T) (hb : ⟨p, o⟩ ∈ s.live) (hf : T.Fits n)
    (hc : classof o = classof n ∧ classof o < nclass ∨
      nclass ≤ classof o ∧ nclass ≤ classof n ∧ T.largeWant
      ((n + T.largeHdr) % T.sizes) = (s.largeAt T p).size) :
    (s.resize p o n).Ok T := by
  obtain ⟨hc, hci⟩ | ⟨hco, hcn, hw⟩ := hc
  · have hsm : Block.Small ⟨p, o⟩ := hci
    have hsm' : classof n < nclass := hc ▸ hci
    have hsm' : Block.Small ⟨p, n⟩ := hsm'
    refine hs.retile rfl rfl rfl (hs.tiles.congr rfl rfl rfl) ?_ ?_
    · refine List.Perm.append_right s.freeCells ?_
      unfold resize
      rw [liveCells_own_small hsm', ← hc, ← liveCells_own_small hsm]
      exact liveCells_perm (live_perm hb)
    · exact (hs.mappings.disown_small hb hsm).own_small hsm'
  · have hsm : ¬Block.Small ⟨p, o⟩ := Nat.not_lt.mpr hco
    have hsm' : ¬Block.Small ⟨p, n⟩ := Nat.not_lt.mpr hcn
    refine hs.retile rfl rfl rfl (hs.tiles.congr rfl rfl rfl) ?_ ?_
    · refine List.Perm.append_right s.freeCells ?_
      unfold resize
      rw [liveCells_own_large hsm', ← liveCells_own_large (s := s.disown p o) hsm]
      exact liveCells_perm (live_perm hb)
    obtain ⟨l, hl, e, -⟩ := hs.mappings.live _ hb hsm
    have e : p = l.ptr T := e
    refine ⟨?_, ?_, hs.mappings.cached⟩
    · have hp := liveLarges_large hb hsm
      rw [← liveLarges_own_large hsm'] at hp
      exact (hp.append_right s.cachedLarges).nodup_iff.mp hs.mappings.nodup
    · refine forall_mem_cons.mpr
        ⟨fun _ => ⟨l, hl, e, ?_⟩, fun b hb' => hs.mappings.live b (mem_of_mem_erase hb')⟩
      rw [e, hs.largeAt_eq hl] at hw
      exact hw ▸ hf.le_want

/-- A request with a block: the block moves, with the bytes that both sizes have, and no other is
written to. -/
structure Moved (s : Heap) (p o n q : Nat) (s' : Heap) : Prop where
  live : s'.live = ⟨q, n⟩ :: s.live.erase ⟨p, o⟩
  keeps : ∀ b ∈ s.live.erase ⟨p, o⟩, ∀ x ∈ b.bytes, s'.mem x = s.mem x
  copied : ∀ i < min o n, s'.mem (q + i) = s.mem (p + i)

def Answered (T : Target) (s : Heap) (p o n : Nat) : Option Nat × Heap → Prop
  | (none, s') => if n = 0 ∧ p ≠ 0 then Freed T s p o s' else Calm T s s'
  | (some q, s') => s'.Ok T ∧ Moved s p o n q s'

theorem copy_answered {s1 : Heap} (hb : ⟨p, o⟩ ∈ s.live) (hn : n ≠ 0) (hs1 : s1.Ok T)
    (hl : s1.live = ⟨q, n⟩ :: s.live) (hk : ∀ b ∈ s.live, ∀ x ∈ b.bytes, s1.mem x = s.mem x) :
    Answered T s p o n (some q, (s1.memcpy q p (min o n)).free T p o) := by
  have hs2 : (s1.memcpy q p (min o n)).Ok T := hs1.remem _ _ _
  obtain ⟨h1, h2, h3⟩ := free_freed hs2 (hl ▸ mem_cons_of_mem _ hb)
  refine ⟨h1, ?_⟩
  have hapart := hs1.bytes_apart
  rw [hl] at hapart
  have hnew := (pairwise_cons.mp hapart).1
  have hne : Block.mk q n ≠ ⟨p, o⟩ := by
    intro e
    have hq : q ∈ (Block.mk q n).bytes := ⟨Nat.le_refl q, by show q < q + n; omega⟩
    exact hnew _ hb q hq (e ▸ hq)
  have herase : s1.live.erase ⟨p, o⟩ = ⟨q, n⟩ :: s.live.erase ⟨p, o⟩ := by
    rw [hl, erase_cons_tail (by simpa using hne)]
  have hdst : Span.Within ⟨q, min o n⟩ (Block.mk q n).bytes :=
    Span.within_of_le (Nat.min_le_right _ _)
  have hcopy : ∀ b ∈ s.live, ∀ x ∈ b.bytes,
      (s1.memcpy q p (min o n)).mem x = s.mem x := fun b hb' x hx =>
    (if_neg fun h => hnew b hb' x (hdst.mem h) hx).trans (hk b hb' x hx)
  have h2 : _ = s1.live.erase ⟨p, o⟩ := h2
  have h3 : ∀ b ∈ s1.live.erase ⟨p, o⟩, _ := h3
  rw [herase] at h2 h3
  refine ⟨h2, fun b hb' x hx => ?_, fun i hi => ?_⟩
  · exact (h3 b (mem_cons_of_mem _ hb') x hx).trans (hcopy b (mem_of_mem_erase hb') x hx)
  · have hmem : q + i ∈ Span.mk q (min o n) := ⟨Nat.le_add_right _ _, Nat.add_lt_add_left hi q⟩
    have hsrc : p + i ∈ (Block.mk p o).bytes := ⟨Nat.le_add_right _ _, by show p + i < p + o; omega⟩
    calc ((s1.memcpy q p (min o n)).free T p o).mem (q + i)
        = (s1.memcpy q p (min o n)).mem (q + i) := h3 _ mem_cons_self _ (hdst.mem hmem)
      _ = s1.mem (p + (q + i - q)) := if_pos hmem
      _ = s1.mem (p + i) := by rw [Nat.add_sub_cancel_left]
      _ = s.mem (p + i) := hk _ hb _ hsrc

theorem reallocLocked_answered (hs : s.Ok T) (hf : T.Fits n)
    (hl : p = 0 ∧ o = 0 ∨ ⟨p, o⟩ ∈ s.live) : Answered T s p o n (s.reallocLocked T p o n) := by
  have hnull : p = 0 → o = 0 ∧ s.live.erase ⟨p, o⟩ = s.live := by
    intro hp
    obtain ⟨-, ho⟩ | hb := hl
    · exact ⟨ho, erase_of_not_mem fun hb => hs.ptr_pos hb hp⟩
    · exact absurd hp (hs.ptr_pos hb)
  have hlive : p ≠ 0 → ⟨p, o⟩ ∈ s.live := fun hp => hl.resolve_left fun h => hp h.1
  unfold reallocLocked
  split
  next hn =>
    by_cases hp : p = 0
    · rw [if_pos hp]
      show if n = 0 ∧ p ≠ 0 then _ else _
      rw [if_neg fun h => h.2 hp]
      exact .refl hs
    · rw [if_neg hp]
      show if n = 0 ∧ p ≠ 0 then _ else _
      rw [if_pos ⟨hn, hp⟩]
      exact free_freed hs (hlive hp)
  next hn =>
    split
    next hp =>
      match s.alloc T n, alloc_served hs hf with
      | (none, _), hserved =>
        show if n = 0 ∧ p ≠ 0 then _ else _
        rw [if_neg fun h => hn h.1]
        exact hserved
      | (some q, _), ⟨h1, h2, h3⟩ =>
        refine ⟨h1, ?_⟩
        obtain ⟨ho, he⟩ := hnull hp
        refine ⟨?_, ?_, fun i hi => ?_⟩
        · rw [he, h2]
        · rw [he]
          exact h3
        · omega
    next hp =>
      have hb := hlive hp
      have hsame : ∀ h, Answered T s p o n (some p, s.resize p o n) := fun h =>
        ⟨resize_ok hs hb hf h, ⟨rfl, fun _ _ _ _ => rfl, fun _ _ => rfl⟩⟩
      split
      next hc => exact hsame (.inl hc)
      split
      next hc => exact hsame (.inr hc)
      match s.alloc T n, alloc_served hs hf with
      | (none, _), hserved =>
        show if n = 0 ∧ p ≠ 0 then _ else _
        rw [if_neg fun h => hn h.1]
        exact hserved
      | (some q, _), ⟨h1, h2, h3⟩ => exact copy_answered hb hn h1 h2 h3

theorem Answered.ok (h : Answered T s p o n r) : r.2.Ok T := by
  obtain ⟨x, s'⟩ := r
  cases x with
  | none =>
    have h : if n = 0 ∧ p ≠ 0 then Freed T s p o s' else Calm T s s' := h
    split at h
    · exact h.1
    · exact h.ok
  | some q => exact h.1

/-! ## Runs -/

def Fit (T : Target) (s : Heap) (a : Op) : Prop :=
  s.Legal T a ∧ match a with
    | .realloc _ _ nsize _ _ => T.Fits nsize
    | _ => True

instance (a : Op) : Decidable (s.Fit T a) :=
  match a with
  | .realloc _ _ _ _ _ => inferInstanceAs (Decidable (_ ∧ _))
  | .reclaim _ | .release _ | .write _ _ _ | .outside _ _ => inferInstanceAs (Decidable (_ ∧ True))

theorem Fresh.ok (h : s.Fresh) : s.Ok T := by
  obtain ⟨self, mem, -, rfl⟩ := h
  refine ⟨⟨.nil, ?_⟩, ⟨pairwise_singleton _ _, by simp [new], by simp [new], ⟨?_, by simp [new], by simp [new]⟩⟩⟩
  · have e : (new self mem).cells = [] := by
      simp [cells, liveCells, freeCells, new]
    rw [e]
    exact ⟨.nil, by simp, by simp, by simp, by simp [new], by simp [new], by simp, by simp [new]⟩
  · have e : (new self mem).liveLarges ++ (new self mem).cachedLarges = [] := by
      simp [liveLarges, cachedLarges, new]
    exact .nil

theorem Ok.step {a : Op} (hs : s.Ok T) (ha : s.Fit T a) : (s.step T a).Ok T := by
  cases a with
  | realloc p o n src junk =>
    exact (reallocLocked_answered (hs.remem s.mem src junk) ha.2 ha.1.2).ok
  | reclaim junk => exact (releaseFreechunks_calm (hs.remem s.mem s.src junk)).ok
  | release junk =>
    exact (releaseFreechunks_calm (releaseLargefree_calm (hs.remem s.mem s.src junk)).ok).ok
  | write b i v | outside x v => exact hs.remem _ _ _

/-- The blocks that are free, small ones and cached large ones. -/
def vacancies (T : Target) (s : Heap) : List Span :=
  s.freeCells ++ s.cachedLarges.map fun p => (s.largeAt T p).room T

def holdings (T : Target) (s : Heap) : List Span :=
  s.chunks.map (·.payload T) ++ s.larges.map (·.room T)

structure Isolated (T : Target) (s : Heap) : Prop where
  aligned : ∀ b ∈ s.live, align ∣ b.ptr
  enough : ∀ b ∈ s.live, b.bytes.Within (s.extent T b)
  inside : ∀ b ∈ s.live, ∃ r ∈ s.holdings T, (s.extent T b).Within r
  live : s.live.Pairwise fun b b' => (s.extent T b).Apart (s.extent T b')
  free : ∀ b ∈ s.live, ∀ a ∈ s.vacancies T, (s.extent T b).Apart a
  tail : ∀ b ∈ s.live, (s.extent T b).Apart s.tail

theorem Ok.isolated (hs : s.Ok T) : s.Isolated T where
  aligned b hb := by
    obtain ⟨hsm, -⟩ | ⟨-, l, hl, e, -⟩ := hs.live_cases hb
    · exact hs.tiles.align _ (mem_append_left _ (mem_liveCells hb hsm))
    · rw [e]
      exact Nat.dvd_add (hs.largeBase l hl).2.1 T.largeHdr_dvd
  enough b hb := hs.bytes_within hb
  inside b hb := by
    obtain ⟨hsm, c, hc, hw⟩ | ⟨hsm, l, hl, e, -⟩ := hs.live_cases hb
    · exact ⟨_, mem_append_left _ (mem_map_of_mem hc), extent_small hsm ▸ hw⟩
    · rw [hs.extent_large hsm hl e]
      exact ⟨_, mem_append_right _ (mem_map_of_mem hl), .refl _⟩
  live := hs.extents_apart
  free b hb a ha := by
    obtain ha | ha := mem_append.mp ha
    · obtain ⟨c', hc', hw'⟩ := hs.tiles.chunk a (mem_append_right _ ha)
      obtain ⟨hsm, e, -⟩ | ⟨-, l, hl, -, -, hw⟩ := hs.extent_cases hb
      · rw [e]
        exact (pairwise_append.mp hs.tiles.apart).2.2 _ (mem_liveCells hb hsm) a ha
      · exact (hs.chunk_large hc' hl).symm.mono hw (hw'.trans (hs.payload_within hc'))
    · obtain ⟨p, hp, rfl⟩ := mem_map.mp ha
      obtain ⟨l', hl', rfl⟩ := hs.mem_larges (mem_append_right _ hp)
      rw [hs.largeAt_eq hl']
      obtain ⟨-, -, c, hc, hw⟩ | ⟨hsm, l, hl, e, -, hw⟩ := hs.extent_cases hb
      · exact (hs.chunk_large hc hl').mono hw (hs.room_within hl')
      · have hne : l ≠ l' := by
          rintro rfl
          exact hs.live_not_cached hb hsm (e ▸ hp)
        exact (hs.large_large hl hl' hne).mono hw (hs.room_within hl')
  tail b hb := by
    obtain ⟨hsm, e, -⟩ | ⟨-, l, hl, -, -, hw⟩ := hs.extent_cases hb
    · rw [e]
      exact hs.tiles.tailApart _ (mem_append_left _ (mem_liveCells hb hsm))
    · by_cases hp : 0 < s.bumpleft
      · obtain ⟨c, hc, hw'⟩ := hs.tiles.tail hp
        have hc := mem_of_mem_head? hc
        exact (hs.chunk_large hc hl).symm.mono hw (hw'.trans (hs.payload_within hc))
      · intro x _ hx
        have h1 : x < s.bump + s.bumpleft := hx.2
        have h2 : s.bump ≤ x := hx.1
        omega

/-- As long as the requests fit, each block has memory to itself, and a block that is moved keeps
its bytes. -/
theorem heap_isolated (T : Target) (s : Heap) (hr : Runs Fresh (Fit T) (step T) s) : s.Isolated T ∧
    ∀ p osize nsize src junk q s', s.Fit T (.realloc p osize nsize src junk) →
      { s with src := src, junk := junk }.reallocLocked T p osize nsize = (some q, s') →
      ∀ i < min osize nsize, s'.mem (q + i) = s.mem (p + i) := by
  have hs : s.Ok T := hr.invariant Fresh.ok fun hs ha => hs.step ha
  refine ⟨hs.isolated, fun p osize nsize src junk q s' ha e => ?_⟩
  have h := reallocLocked_answered (hs.remem s.mem src junk) ha.2 ha.1.2
  rw [e] at h
  exact h.2.copied

/-- A target with 64 bit pointers, as the host build has. -/
def hosted : Target where
  word := 8
  chunk := 8192
  cached := 4
  word_eq := .inr rfl
  chunk_dvd := by decide
  chunk_le := by decide

/-- A small block grows, and moves to a mapping of its own. -/
def grown : List Op :=
  [.realloc 0 0 100 [none] fun _ => 6, .realloc 0 0 100 [some 4096] fun _ => 7,
   .write ⟨4128, 100⟩ 3 9, .realloc 4128 100 600 [some 131072] fun _ => 8, .release fun _ => 5]

theorem grown_isolated : (grown.foldl (step hosted) (new ⟨16, 512⟩ fun _ => 0)).Isolated hosted ∧
    (grown.foldl (step hosted) (new ⟨16, 512⟩ fun _ => 0)).live = [⟨131088, 600⟩] := by
  have hrun : Runs Fresh (Fit hosted) (step hosted)
      (grown.foldl (step hosted) (new ⟨16, 512⟩ fun _ => 0)) :=
    Runs.along (.init ⟨_, _, by decide, rfl⟩) (by decide +kernel)
  exact ⟨(heap_isolated hosted _ hrun).1, by decide +kernel⟩

/-- The size of the mapping wraps to 512 bytes, and the block that is returned is said to be almost
all of memory. -/
theorem wrapped_request :
    (new ⟨16, 512⟩ fun _ => 0).Legal hosted (.realloc 0 0 (2 ^ 64 - 8) [some 4096] fun _ => 0) ∧
    ¬((new ⟨16, 512⟩ fun _ => 0).step hosted (.realloc 0 0 (2 ^ 64 - 8) [some 4096] fun _ => 0)).Isolated hosted := by
  refine ⟨by decide +kernel, fun h => ?_⟩
  have hlive : ⟨4112, 2 ^ 64 - 8⟩ ∈
      ((new ⟨16, 512⟩ fun _ => 0).step hosted (.realloc 0 0 (2 ^ 64 - 8) [some 4096] fun _ => 0)).live := by
    decide +kernel
  have hroom : ((new ⟨16, 512⟩ fun _ => 0).step hosted (.realloc 0 0 (2 ^ 64 - 8) [some 4096] fun _ => 0)).extent hosted
      ⟨4112, 2 ^ 64 - 8⟩ = ⟨4112, 496⟩ := by
    decide +kernel
  have hle := (h.enough _ hlive).2
  exact absurd hle (by decide)

/-! ## Sweeps -/

/-- A sweep takes the idle chunks, and the free blocks that are in them; everything else stays as it
was. -/
structure Swept (T : Target) (s s' : Heap) : Prop where
  chunks : s'.chunks.Sublist s.chunks ∧ ∀ c, c ∈ s'.chunks ↔ c ∈ s.chunks ∧ ¬s.Idle T c
  frees : ∀ ci < nclass, (s'.freelist ci).Sublist (s.freelist ci) ∧ ∀ p, p ∈ s'.freelist ci ↔
    p ∈ s.freelist ci ∧ ∀ c ∈ s.chunks, s.Idle T c →
      ¬(Span.mk p (classSize ci)).Within (c.payload T)
  usable : ∀ a ∈ s'.freeCells, ∃ c ∈ s'.chunks, a.Within (c.payload T)
  live : s'.live = s.live
  tail : s'.tail = s.tail
  larges : s'.larges = s.larges ∧ s'.largefree = s.largefree

/-- The headers of the chunks and the links of the free blocks are in no block of a caller. -/
def Covered (T : Target) (s : Heap) : Prop :=
  (∀ c ∈ s.chunks, s.Safe ⟨c.base, T.chunkHdr⟩) ∧ ∀ a ∈ s.freeCells, s.Safe ⟨a.start, T.word⟩

/-- As long as the requests fit, what a sweep goes by is out of the callers' reach, and it takes
exactly the idle chunks: those, other than the one in use, whose free and lost bytes are all they
have. -/
theorem sweep_exact (T : Target) (s : Heap) (hr : Runs Fresh (Fit T) (step T) s) :
    s.Covered T ∧ Swept T s (s.releaseFreechunks T).2 ∧ ∀ c ∈ s.chunks, s.current ≠ some c →
      (s.Idle T c ↔ Span.held (c.payload T) s.freeCells + c.lost = c.size - T.chunkHdr) := by
  have hs : s.Ok T := hr.invariant Fresh.ok fun hs ha => hs.step ha
  have hcells := (releaseFreechunks_calm hs).ok.tiles.chunk
  unfold releaseFreechunks at hcells ⊢
  dsimp only at hcells ⊢
  rw [foldl_poke, foldl_poke] at hcells ⊢
  refine ⟨⟨fun c => hs.safe_chunkHdr, fun a => hs.safe_free⟩,
    ⟨⟨filter_sublist, fun c => ?_⟩, fun ci hci => ⟨filter_sublist, fun p => ?_⟩,
    fun a ha => hcells a (mem_append_right _ ha), rfl, rfl, rfl, rfl⟩, fun c hc hcur => ?_⟩
  · refine mem_filter.trans (and_congr_right fun hc => ?_)
    rw [Bool.not_eq_true', ← Bool.not_eq_true, hs.unused_iff hc]
  · refine mem_filter.trans (and_congr_right fun hp => ?_)
    have hm : Span.mk p (classSize ci) ∈ s.cells :=
      mem_append_right _ (mem_flatMap.mpr ⟨ci, mem_range.mpr hci, mem_map_of_mem hp⟩)
    rw [all_eq_true]
    refine ⟨fun h c hc hidle hw => ?_, fun h c hc => ?_⟩
    · have h' := h c (mem_filter.mpr ⟨hc, (hs.unused_iff hc).mpr hidle⟩)
      rw [(hs.holds_iff hm hc).mpr hw] at h'
      cases h'
    · obtain ⟨hc, hu⟩ := mem_filter.mp hc
      rw [Bool.not_eq_true', ← Bool.not_eq_true, hs.holds_iff hm hc]
      exact h c hc ((hs.unused_iff hc).mp hu)
  · exact (and_iff_right hcur).trans (hs.tally_iff hc hcur).symm

/-- A chunk for one block, which is given back once the block is free. -/
theorem sweep_exact_freed :
    let T : Target := { hosted with chunk := 128, chunk_dvd := by decide, chunk_le := by decide }
    let s :=
      [Op.realloc 0 0 100 [some 4096] fun _ => 6, .realloc 4128 100 0 [] fun _ => 7].foldl (step T)
      (new ⟨16, 512⟩ fun _ => 0)
    Swept T s (s.releaseFreechunks T).2 ∧ s.chunks = [⟨4096, 160, 0⟩] ∧
      (s.releaseFreechunks T).2.chunks = [] := by
  intro T s
  have hrun : Runs Fresh (Fit T) (step T) s :=
    Runs.along (.init ⟨_, _, by decide, rfl⟩) (by decide +kernel)
  exact ⟨(sweep_exact T s hrun).2.1, by decide +kernel⟩

/-! ## Headers in memory -/

/-- A `size_t` in memory, the low byte first. -/
def loadSize (T : Target) (mem : Nat → UInt8) (a : Nat) : Nat :=
  ((range T.word).map fun i => (mem (a + i)).toNat * 256 ^ i).sum

/-- The `struct chunk` at an address: the size is behind the link, and what is lost comes last. -/
def header (T : Target) (mem : Nat → UInt8) (base : Nat) : Chunk :=
  ⟨base, loadSize T mem (base + T.word), loadSize T mem (base + 3 * T.word)⟩

def reread (T : Target) (s : Heap) : Heap :=
  { s with chunks := s.chunks.map fun c => header T s.mem c.base }

/-- What is stored in the headers of two chunks of 8064 bytes, at 8192 and behind it in the list. -/
def headerBytes (x : Nat) : UInt8 :=
  if x % 65536 = 8200 then 128 else if x % 65536 = 8201 then 31 else if x = 991233 then 32 else 0

/-- One chunk is filled with blocks of 512 bytes and another begun. The owner of a block of 1000
bytes stores what would be the header of a chunk with nothing in it. -/
def filled : List Op :=
  (range 16).map (fun i => .realloc 0 0 512 [some (8192 + 65536 * i)] headerBytes) ++
    [.realloc 0 0 1000 [some 4194304] fun _ => 0, .write ⟨4194320, 1000⟩ 504 128, .write ⟨4194320, 1000⟩ 505 31,
     .write ⟨4194320, 1000⟩ 521 30]

/-- The block is asked to grow to almost all of memory. It is given 512 bytes in front of the first
chunk, the copy goes over the header, and a sweep takes the chunk from under fifteen blocks. -/
theorem sweep_overrun :
    let s := filled.foldl (step hosted) (new ⟨16, 512⟩ fun _ => 0)
    let s' := s.step hosted (.realloc 4194320 1000 (2 ^ 64 - 8) [some 7680] fun _ => 0)
    Runs Fresh (Legal hosted) (step hosted) s' ∧ (s.reread hosted).chunks = s.chunks ∧
      ⟨8192, 8064, 0⟩ ∈ s'.chunks ∧ ¬s'.Idle hosted ⟨8192, 8064, 0⟩ ∧
      ∀ c ∈ ((s'.reread hosted).releaseFreechunks hosted).2.chunks, c.base ≠ 8192 := by
  intro s s'
  have hrun : Runs Fresh (Legal hosted) (step hosted) s :=
    Runs.along (.init ⟨_, _, by decide, rfl⟩) (by decide +kernel)
  refine ⟨hrun.step (by decide +kernel), by decide +kernel, by decide +kernel, fun h => ?_, by decide +kernel⟩
  have hl : ⟨8224, 512⟩ ∈ s'.liveCells := by decide +kernel
  exact h.2 _ hl ⟨by decide, by decide⟩

end Heap

end Nlos.Luaheap
