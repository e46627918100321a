import Nlos.Heap.Blocks

/-!
# Chunks come and go

The chunk source is asked, cached mappings and unused chunks are given back, the tail of a retired
chunk is cut into free blocks, and a new chunk becomes the bump region. None of it touches a live
block.
-/

namespace Nlos.Luaheap.Heap

open List Bool

variable {T : Target} {s s' : Heap} {a b : Span} {p q n ci want : Nat}

/-! ## Giving back -/

theorem Ok.live_not_cached (hs : s.Ok T) {x : Block} (hx : x ∈ s.live) (hsm : ¬x.Small) :
    x.ptr ∉ s.cachedLarges := by
  have hm : x.ptr ∈ s.liveLarges := mem_map_of_mem (mem_filter.mpr ⟨hx, by simpa using hsm⟩)
  exact fun hc => (nodup_append.mp hs.mappings.nodup).2.2 _ hm _ hc rfl

theorem releaseLargefree_calm (hs : s.Ok T) : Calm T s (s.releaseLargefree T).2 := by
  have hpoke := hs.foldl_poke
    fun l hl => hs.safe_largeHdr hl
  unfold releaseLargefree
  rw [foldl_poke] at hpoke ⊢
  refine ⟨⟨⟨hs.chunks_apart, hs.tiles.congr rfl rfl rfl⟩, ?_⟩, rfl, hpoke.keeps⟩
  refine ⟨?_, hs.chunkBase, ?_, ?_⟩
  · refine hs.regions.sublist (List.Sublist.cons_cons _ (List.Sublist.append (.refl _) ?_))
    exact filter_sublist.map _
  · exact fun l hl => hs.largeBase l (mem_of_mem_filter hl)
  · refine ⟨?_, fun x hx hsm => ?_, fun ci p hp => ?_⟩
    · have hnil : (List.range nlargeclass).flatMap
          (fun ci => if ci < nlargeclass then [] else s.largefree ci) = [] := by
        refine flatMap_eq_nil_iff.mpr fun ci hci => if_pos (mem_range.mp hci)
      show (s.liveLarges ++ (List.range nlargeclass).flatMap _).Nodup
      rw [hnil, append_nil]
      exact (nodup_append.mp hs.mappings.nodup).1
    · obtain ⟨l, hl, e, hle⟩ := hs.mappings.live x hx hsm
      refine ⟨l, mem_filter.mpr ⟨hl, ?_⟩, e, hle⟩
      simpa [← e] using hs.live_not_cached hx hsm
    · have hp : p ∈ if ci < nlargeclass then [] else s.largefree ci := hp
      split at hp
      · cases hp
      next hn => exact absurd (hs.mappings.cached ci p hp).1 hn

theorem frees_map : s.frees.map (fun b => (⟨b.1, classSize b.2⟩ : Span)) = s.freeCells := by
  unfold frees freeCells
  rw [map_flatMap]
  simp [map_map, Function.comp_def]

variable {c : Chunk} {left : Nat}

theorem Floor.holds_iff (hs : s.Floor T) (ha : a ∈ s.cells) (hc : c ∈ s.chunks) :
    c.holds T a.start = true ↔ a.Within (c.payload T) := by
  obtain ⟨c', hc', hw⟩ := hs.tiles.chunk a ha
  have hlen := hs.tiles.len a ha
  constructor
  · intro h
    have hin : a.start ∈ c.span := by
      simp only [Chunk.holds, and_eq_true, decide_eq_true_eq] at h
      exact ⟨by show c.base ≤ a.start; omega, h.2⟩
    by_cases e : c = c'
    · exact e ▸ hw
    · have hin' : a.start ∈ c'.span :=
        (hw.trans (hs.payload_within hc')).mem ⟨Nat.le_refl _, by omega⟩
      exact absurd hin' (hs.chunk_chunk hc hc' e a.start hin)
  · intro h
    have h1 : c.base + T.chunkHdr ≤ a.start := h.1
    have h2 : a.start + a.len ≤ c.base + T.chunkHdr + (c.size - T.chunkHdr) := h.2
    have h3 : a.start < c.base + c.size := by omega
    simp [Chunk.holds, h1, h3]

theorem Floor.find_eq_some_iff (hs : s.Floor T) (ha : a ∈ s.cells) (hc : c ∈ s.chunks) :
    s.chunks.find? (·.holds T a.start) = some c ↔ a.Within (c.payload T) := by
  constructor
  · intro h
    exact (hs.holds_iff ha hc).mp (List.find?_some (p := fun c : Chunk => c.holds T a.start) h)
  · intro h
    cases hf : s.chunks.find? (·.holds T a.start) with
    | none => exact absurd ((hs.holds_iff ha hc).mpr h) (List.find?_eq_none.mp hf c hc)
    | some c' =>
      have hc' := mem_of_find?_eq_some hf
      have hw :=
        (hs.holds_iff ha hc').mp (List.find?_some (p := fun c : Chunk => c.holds T a.start) hf)
      have hlen := hs.tiles.len a ha
      by_contra hne
      have hap := hs.chunk_chunk hc' hc fun e => hne (congrArg some e)
      exact (hw.trans (hs.payload_within hc')).not_within (by omega) hap
        (h.trans (hs.payload_within hc))

/-- The sum of a sweep is what the free blocks take up. -/
theorem Floor.freebytes_eq (hs : s.Floor T) (hc : c ∈ s.chunks) :
    s.freebytes T c = Span.held (c.payload T) s.freeCells := by
  unfold freebytes Span.held
  rw [← frees_map, filter_map, map_map]
  refine congrArg (fun l : List (Nat × Nat) => (l.map fun b => classSize b.2).sum)
    (filter_congr fun b hb => ?_)
  have hm : (⟨b.1, classSize b.2⟩ : Span) ∈ s.cells :=
    mem_append_right _ (frees_map ▸ mem_map_of_mem hb)
  exact decide_eq_decide.mpr (hs.find_eq_some_iff hm hc)

/-- Where the bump pointer is not, free and lost bytes are all there is exactly when no live block
is in the chunk. -/
theorem Floor.tally_iff (hs : s.Floor T) (hc : c ∈ s.chunks) (hcur : s.current ≠ some c) :
    Span.held (c.payload T) s.freeCells + c.lost = c.size - T.chunkHdr ↔ ∀ a ∈ s.liveCells,
      ¬a.Within (c.payload T) := by
  have hbump : (if s.chunks.head? = some c then s.bumpleft else 0) = 0 := by
    refine ite_eq_right_iff.mpr fun h => ?_
    by_contra h0
    exact hcur ((if_neg h0).trans h)
  have htally := hs.tiles.tally c hc
  have hsplit : Span.held (c.payload T) s.cells = _ := Span.held_append
  rw [hbump] at htally
  constructor
  · intro h a ha
    have h0 : Span.held (c.payload T) s.liveCells = 0 := by omega
    refine Span.not_within_of_held_eq_zero h0 (fun b hb => ?_) ha
    have hlen := hs.tiles.len b (mem_append_left _ hb)
    omega
  · intro h
    have h0 := Span.held_eq_zero h
    omega

/-- The bump pointer is not in the chunk, and no live block is. -/
def Idle (T : Target) (s : Heap) (c : Chunk) : Prop :=
  s.current ≠ some c ∧ ∀ a ∈ s.liveCells, ¬a.Within (c.payload T)

theorem Floor.unused_iff (hs : s.Floor T) (hc : c ∈ s.chunks) :
    s.unused T c = true ↔ s.Idle T c := by
  unfold unused Idle
  rw [and_eq_true, decide_eq_true_eq, decide_eq_true_eq, hs.freebytes_eq hc]
  exact and_congr_right (hs.tally_iff hc)

theorem freeCells_filter {f : Nat → Bool} :
    ({ s with freelist := fun ci => (s.freelist ci).filter f } : Heap).freeCells =
      s.freeCells.filter fun a => f a.start := by
  unfold freeCells
  rw [filter_flatMap]
  exact flatMap_congr fun ci _ => by rw [filter_map]; rfl

/-- Does a sweep leave the free block on its list? -/
def stays (T : Target) (s : Heap) (b : Nat) : Bool :=
  (s.chunks.filter (s.unused T)).all fun c => !c.holds T b

theorem Floor.stays_iff (hs : s.Floor T) (ha : a ∈ s.freeCells) (hc : c ∈ s.chunks)
    (hw : a.Within (c.payload T)) : s.stays T a.start = !s.unused T c := by
  have hm := mem_append_right s.liveCells ha
  have hlen := hs.tiles.len a hm
  cases hu : s.unused T c with
  | true =>
    refine eq_false_iff.mpr fun h => ?_
    have h' := all_eq_true.mp h c (mem_filter.mpr ⟨hc, hu⟩)
    rw [(hs.holds_iff hm hc).mpr hw] at h'
    cases h'
  | false =>
    refine all_eq_true.mpr fun c' hc' => ?_
    obtain ⟨hc', hu'⟩ := mem_filter.mp hc'
    rw [not_eq_true']
    refine eq_false_iff.mpr fun hh => ?_
    have hw' := (hs.holds_iff hm hc').mp hh
    have hne : c ≠ c' := by
      rintro rfl
      cases hu.symm.trans hu'
    exact (hw.trans (hs.payload_within hc)).not_within (by omega) (hs.chunk_chunk hc hc' hne)
      (hw'.trans (hs.payload_within hc'))

theorem Floor.current_kept (hs : s.Floor T) (hb : 0 < s.bumpleft) :
    (s.chunks.filter fun c => !s.unused T c).head? = s.chunks.head? := by
  obtain ⟨c, hc, -⟩ := hs.tiles.tail hb
  obtain ⟨l, e⟩ := List.head?_eq_some_iff.mp hc
  have hu : s.unused T c = false := by
    have hne : s.bumpleft ≠ 0 := by omega
    simp [unused, current, hne, hc]
  rw [e, filter_cons_of_pos (by simp [hu])]
  rfl

theorem Floor.sweep_tiles (hs : s.Floor T) : { s with
      chunks := s.chunks.filter fun c => !s.unused T c
      freelist := fun ci => (s.freelist ci).filter (s.stays T) }.Tiles T
      (s.liveCells ++ s.freeCells.filter fun a : Span => s.stays T a.start) := by
  have hsub : (s.liveCells ++ s.freeCells.filter fun a => s.stays T a.start).Sublist s.cells :=
    .append (.refl _) filter_sublist
  refine ⟨hs.tiles.apart.sublist hsub, fun a ha => hs.tiles.align a (hsub.subset ha),
    fun a ha => hs.tiles.len a (hsub.subset ha), fun a ha => ?_, hs.tiles.bump, fun hb => ?_,
    fun a ha => hs.tiles.tailApart a (hsub.subset ha), fun c hc => ?_⟩
  · obtain ⟨c, hc, hw⟩ := hs.tiles.chunk a (hsub.subset ha)
    refine ⟨c, mem_filter.mpr ⟨hc, ?_⟩, hw⟩
    obtain ha | ha := mem_append.mp ha
    · rw [not_eq_true']
      exact eq_false_iff.mpr fun hu => ((hs.unused_iff hc).mp hu).2 a ha hw
    · obtain ⟨ha, hk⟩ := mem_filter.mp ha
      rw [← hs.stays_iff ha hc hw]
      exact hk
  · obtain ⟨c, hc, hw⟩ := hs.tiles.tail hb
    exact ⟨c, (hs.current_kept hb).trans hc, hw⟩
  · obtain ⟨hc, hu⟩ := mem_filter.mp hc
    have hheld : Span.held (c.payload T)
      (s.liveCells ++ s.freeCells.filter fun a => s.stays T a.start) =
        Span.held (c.payload T) s.cells := by
      unfold cells
      rw [Span.held_append, Span.held_append, Span.held_filter fun a ha hw => ?_]
      exact (hs.stays_iff ha hc hw).trans hu
    have hhead : (if (s.chunks.filter fun c => !s.unused T c).head? = some c then s.bumpleft else 0) =
        if s.chunks.head? = some c then s.bumpleft else 0 := by
      by_cases hb : 0 < s.bumpleft
      · rw [hs.current_kept hb]
      · have h0 : s.bumpleft = 0 := by omega
        simp [h0]
    have h := hs.tiles.tally c hc
    rw [← hheld, ← hhead] at h
    exact h

theorem releaseFreechunks_calm (hs : s.Ok T) : Calm T s (s.releaseFreechunks T).2 := by
  have h1 := hs.foldl_poke fun c hc => hs.safe_chunkHdr hc
  have hsafe : ∀ b ∈ s.frees, s.Safe ⟨b.1, T.word⟩ := fun b hb =>
    hs.safe_free (frees_map ▸ mem_map_of_mem hb)
  have h2 := h1.ok.foldl_poke fun b hb => by
    intro x hx
    exact hsafe b hb x (h1.live ▸ hx)
  have h := h1.trans h2
  have ht := hs.sweep_tiles
  have e := freeCells_filter (s := s) (f := s.stays T)
  rw [← e] at ht
  unfold releaseFreechunks
  dsimp only
  rw [foldl_poke, foldl_poke] at h ⊢
  refine ⟨⟨⟨hs.chunks_apart.filter _, ht.congr rfl rfl rfl⟩, ?_⟩, rfl, h.keeps⟩
  refine ⟨?_, ?_, hs.largeBase, hs.mappings.congr rfl rfl rfl⟩
  · refine hs.regions.sublist (List.Sublist.cons_cons _ (List.Sublist.append ?_ (.refl _)))
    exact filter_sublist.map _
  · exact fun c hc => hs.chunkBase c (mem_of_mem_filter hc)

/-! ## Asking -/

/-- An answer of the chunk source is memory that the heap does not hold. -/
def Granted (T : Target) (s : Heap) (want : Nat) (r : Option Nat × Heap) : Prop :=
  Calm T s r.2 ∧ ∀ a, r.1 = some a → r.2.Vacant T ⟨a, want⟩

theorem Calm.refl (hs : s.Ok T) : Calm T s s := ⟨hs, rfl, fun _ _ _ _ => rfl⟩

theorem chunkAlloc_granted (hs : s.Ok T) : Granted T s want (s.chunkAlloc T want) := by
  have calm (src : List (Option Nat)) : Calm T s { s with src := src } :=
    ⟨hs.remem _ _ _, rfl, fun _ _ _ _ => rfl⟩
  unfold chunkAlloc
  split
  · exact ⟨.refl hs, nofun⟩
  next x src _ =>
  split
  · exact ⟨calm src, nofun⟩
  refine ⟨calm src, fun a ha => ?_⟩
  obtain ⟨hv, e⟩ := Option.ite_none_right_eq_some.mp ha
  cases e
  exact hv

theorem again_granted {r : Option Nat × Heap} {release : Heap → Nat × Heap}
    (hr : Granted T s want r) (hrel : ∀ {s : Heap}, s.Ok T → Calm T s (release s).2) :
    Granted T s want (again T r release want) := by
  obtain ⟨x, s1⟩ := r
  unfold again
  cases x with
  | some a => exact hr
  | none =>
    dsimp only
    have hc := hr.1.trans (hrel hr.1.ok)
    match release s1, hc with
    | (0, _), hc => exact ⟨hc, nofun⟩
    | (n + 1, s2), hc =>
      have hg : Granted T s2 want (s2.chunkAlloc T want) := chunkAlloc_granted hc.ok
      obtain ⟨h1, h2⟩ := hg
      exact ⟨hc.trans h1, h2⟩

/-! ## Cutting -/

theorem Floor.cut_tiles {sz : Nat} (hs : s.Floor T) (h16 : 16 ≤ sz) (hle : sz ≤ s.bumpleft)
    (h8 : 8 ∣ sz) :
    { s with bump := s.bump + sz, bumpleft := s.bumpleft - sz }.Tiles T
      (⟨s.bump, sz⟩ :: s.cells) := by
  have hpos : 0 < s.bumpleft := by omega
  obtain ⟨c, hc, hw⟩ := hs.tiles.tail hpos
  have hmem := mem_of_mem_head? hc
  have hcell : Span.Within ⟨s.bump, sz⟩ s.tail := Span.within_of_le hle
  have hrest : Span.Within ⟨s.bump + sz, s.bumpleft - sz⟩ s.tail := by
    refine ⟨Nat.le_add_right _ _, ?_⟩
    show s.bump + sz + (s.bumpleft - sz) ≤ s.bump + s.bumpleft
    omega
  refine ⟨?_, ?_, ?_, ?_, ?_, ?_, ?_, ?_⟩
  · exact pairwise_cons.mpr
      ⟨fun a ha => ((hs.tiles.tailApart a ha).mono (.refl a) hcell).symm, hs.tiles.apart⟩
  · exact forall_mem_cons.mpr ⟨hs.tiles.bump hpos, hs.tiles.align⟩
  · exact forall_mem_cons.mpr ⟨h16, hs.tiles.len⟩
  · exact forall_mem_cons.mpr ⟨⟨c, hmem, hcell.trans hw⟩, hs.tiles.chunk⟩
  · exact fun _ => Nat.dvd_add (hs.tiles.bump hpos) h8
  · exact fun _ => ⟨c, hc, hrest.trans hw⟩
  · refine forall_mem_cons.mpr ⟨?_, fun a ha => (hs.tiles.tailApart a ha).mono (.refl a) hrest⟩
    exact Span.apart_iff.mpr (.inr (.inr (.inl (Nat.le_refl _))))
  · intro c' hc'
    have h := hs.tiles.tally c' hc'
    show Span.held (c'.payload T) _ + _ +
      (if s.chunks.head? = some c' then s.bumpleft - sz else 0) + _ = _
    by_cases e : c = c'
    · subst e
      rw [Span.held_cons_within (hcell.trans hw), if_pos hc]
      rw [if_pos hc] at h
      show sz + _ + _ + _ + _ = _
      omega
    · have hne : ¬s.chunks.head? = some c' := fun h => e (Option.some.inj (hc.symm.trans h))
      rw [if_neg hne] at h ⊢
      rw [Span.held_cons_not_within]
      · exact h
      · intro h'
        have hap := hs.chunk_chunk hmem hc' e
        exact ((hcell.trans hw).trans (hs.payload_within hmem)).not_within
          (show 0 < sz by omega) hap
          (h'.trans (hs.payload_within hc'))

theorem Ok.retile {l : List Span} (hs : s.Ok T) (hself : s'.self = s.self)
    (hc : s'.chunks = s.chunks)
    (hl : s'.larges = s.larges) (ht : s'.Tiles T l) (hp : l.Perm s'.cells)
    (hm : s'.Mappings T) : s'.Ok T := by
  refine ⟨⟨hc ▸ hs.chunks_apart, ht.perm hp⟩, ?_⟩
  refine ⟨?_, hc ▸ hs.chunkBase, hl ▸ hs.largeBase, hm⟩
  unfold Heap.regions
  rw [hself, hc, hl]
  exact hs.regions

theorem freeCells_cons (hci : ci < nclass)
    (hf : s'.freelist = Function.update s.freelist ci (p :: s.freelist ci)) :
    s'.freeCells.Perm (⟨p, classSize ci⟩ :: s.freeCells) := by
  have h :=
    List.Perm.flatMap_push (f := fun ci => (s.freelist ci).map fun p => (⟨p, classSize ci⟩ : Span))
    (x := ⟨p, classSize ci⟩) (nodup_range) (mem_range.mpr hci)
  refine List.Perm.trans (.of_eq ?_) h
  refine flatMap_congr fun k _ => ?_
  rw [hf]
  by_cases e : k = ci
  · subst e
    simp
  · simp [e]

theorem cells_push (hci : ci < nclass) :
    (s.push T p ci).cells.Perm (⟨p, classSize ci⟩ :: s.cells) :=
  ((freeCells_cons hci rfl).append_left s.liveCells).trans perm_middle

theorem fitClass_spec : ∀ {ci k : Nat}, fitClass left ci = k + 1 → k < ci ∧ classSize k ≤ left
  | 0, _, h => nomatch h
  | ci + 1, k, h => by
    unfold fitClass at h
    split at h
    · obtain ⟨h1, h2⟩ := fitClass_spec h
      exact ⟨Nat.lt_succ_of_lt h1, h2⟩
    next hge =>
    cases h
    exact ⟨Nat.lt_succ_self _, Nat.le_of_not_lt hge⟩

theorem Ok.cutFree (hs : s.Ok T) (hci : ci < nclass) (hle : classSize ci ≤ s.bumpleft) :
    Calm T s { s.push T s.bump ci with bump := s.bump + classSize ci, bumpleft := s.bumpleft - classSize ci } := by
  obtain ⟨h16, -, h8⟩ := classSize_bounds hci
  have hsafe : s.Safe ⟨s.bump, T.word⟩ := by
    have hw := T.word_le
    have hword : T.word ≤ s.bumpleft := by omega
    exact hs.safe_tail (Span.within_of_le hword) (by omega)
  refine ⟨?_, rfl, (hs.poke hsafe).keeps⟩
  have ht := hs.cut_tiles h16 hle h8
  exact hs.retile rfl rfl rfl (ht.congr rfl rfl rfl) (cells_push (T := T) hci).symm
    (hs.mappings.congr rfl rfl rfl)

theorem drainLoop_calm (fuel : Nat) (hs : s.Ok T) (hci : ci ≤ nclass) :
    Calm T s (drainLoop T fuel ci s) ∧ (drainLoop T fuel ci s).regions = s.regions := by
  induction fuel generalizing s ci with
  | zero => exact ⟨.refl hs, rfl⟩
  | succ fuel ih =>
    unfold drainLoop
    split
    · exact ⟨.refl hs, rfl⟩
    split
    · exact ⟨.refl hs, rfl⟩
    next k hk =>
    obtain ⟨h1, h2⟩ := fitClass_spec hk
    have hcut := hs.cutFree (Nat.lt_of_lt_of_le h1 hci) h2
    have hk : k + 1 ≤ nclass := Nat.le_trans h1 hci
    obtain ⟨h3, h4⟩ := ih hcut.ok hk
    exact ⟨hcut.trans h3, h4⟩

/-- What is left of the tail is charged to its chunk. -/
theorem Ok.charge (hs : s.Ok T) :
    Calm T s (s.charge T) ∧ (s.charge T).regions = s.regions ∧ (s.charge T).bumpleft = 0 := by
  unfold Heap.charge
  split
  next hnil =>
    have ht : { s with bumpleft := 0 }.Tiles T s.cells :=
      ⟨hs.tiles.apart, hs.tiles.align, hs.tiles.len, hs.tiles.chunk, nofun, nofun,
        fun _ _ => Span.apart_iff.mpr (.inr (.inl rfl)), fun c hc =>
          absurd (hnil ▸ hc : c ∈ []) nofun⟩
    exact ⟨⟨hs.retile rfl rfl rfl ht (.refl _) (hs.mappings.congr rfl rfl rfl), rfl,
      fun _ _ _ _ => rfl⟩, rfl, rfl⟩
  next c chunks hch =>
    have hmem : c ∈ s.chunks := hch ▸ mem_cons_self
    have hreg : (⟨c.base, c.size⟩ : Span) :: chunks.map Chunk.span = s.chunks.map Chunk.span := by
      rw [hch]; rfl
    have hapart := pairwise_cons.mp (hch ▸ hs.chunks_apart)
    refine ⟨⟨⟨⟨pairwise_cons.mpr hapart, ?_⟩, ?_⟩, rfl,
      (hs.poke (hs.safe_chunkHdr hmem)).keeps⟩, ?_, rfl⟩
    · refine ⟨hs.tiles.apart, hs.tiles.align, hs.tiles.len, fun a ha => ?_, nofun, nofun,
        fun _ _ => Span.apart_iff.mpr (.inr (.inl rfl)), ?_⟩
      · obtain ⟨c', hc', hw⟩ := hs.tiles.chunk a ha
        rw [hch] at hc'
        obtain rfl | hc' := mem_cons.mp hc'
        · exact ⟨_, mem_cons_self, hw⟩
        · exact ⟨c', mem_cons_of_mem _ hc', hw⟩
      · have hhead : s.chunks.head? = some c := by rw [hch]; rfl
        refine forall_mem_cons.mpr ⟨?_, fun c' hc' => ?_⟩
        · have h := hs.tiles.tally c hmem
          rw [if_pos hhead] at h
          simp only [ite_self]
          show Span.held (c.payload T) s.cells + (c.lost + s.bumpleft) + 0 + _ = c.size
          omega
        · have hc0 : c' ∈ s.chunks := hch ▸ mem_cons_of_mem _ hc'
          have h := hs.tiles.tally c' hc0
          have hne : ¬s.chunks.head? = some c' := by
            rw [hhead]
            rintro ⟨⟩
            have hap := hapart.1 c hc'
            have hh := T.hdr_le
            exact hap c.base ⟨Nat.le_refl _, by show c.base < c.base + c.size; omega⟩
              ⟨Nat.le_refl _, by show c.base < c.base + c.size; omega⟩
          rw [if_neg hne] at h
          simp only [ite_self]
          exact h
    · refine ⟨?_, forall_mem_cons.mpr
        ⟨hs.chunkBase c hmem, fun c' hc' => hs.chunkBase c' (hch ▸ mem_cons_of_mem _ hc')⟩,
        hs.largeBase, hs.mappings.congr rfl rfl rfl⟩
      show (s.self :: (⟨c.base, c.size⟩ :: chunks.map Chunk.span) ++ s.larges.map Large.span).Pairwise _
      rw [hreg]
      exact hs.regions
    · show s.self :: (⟨c.base, c.size⟩ :: chunks.map Chunk.span) ++
        s.larges.map Large.span = s.regions
      rw [hreg]
      rfl

theorem Ok.drainBump (hs : s.Ok T) :
    Calm T s (s.drainBump T) ∧ (s.drainBump T).regions = s.regions ∧
    (s.drainBump T).bumpleft = 0 := by
  obtain ⟨h1, h2⟩ := drainLoop_calm s.bumpleft hs (Nat.le_refl nclass)
  obtain ⟨h3, h4, h5⟩ := h1.ok.charge
  exact ⟨h1.trans h3, h4.trans h2, h5⟩

theorem Vacant.congr (hv : s.Vacant T a) (e : s'.regions = s.regions) : s'.Vacant T a :=
  ⟨hv.1, hv.2.1, hv.2.2.1, e ▸ hv.2.2.2⟩

/-- A new chunk, which no cell is in yet, becomes the bump region. -/
theorem Ok.addChunk (hs : s.Ok T) (hv : s.Vacant T ⟨p, want⟩) (h0 : s.bumpleft = 0)
    (hle : T.chunkHdr ≤ want) : Calm T s (s.addChunk T p want) := by
  have hh := T.hdr_le
  have hpay : Span.Within ⟨p + T.chunkHdr, want - T.chunkHdr⟩ ⟨p, want⟩ := by
    refine ⟨Nat.le_add_right _ _, ?_⟩
    show p + T.chunkHdr + (want - T.chunkHdr) ≤ p + want
    omega
  have hcell (a : Span) (ha : a ∈ s.cells) : a.Apart ⟨p, want⟩ := by
    obtain ⟨c, hc, hw⟩ := hs.tiles.chunk a ha
    exact (hv.chunk hc).mono (hw.trans (hs.payload_within hc)) (.refl _)
  have hnew : (⟨p, want, 0⟩ : Chunk) ∉ s.chunks := fun hm =>
    hv.chunk hm p ⟨Nat.le_refl _, by show p < p + want; omega⟩
      ⟨Nat.le_refl _, by show p < p + want; omega⟩
  have hsafe : s.Safe ⟨p, T.chunkHdr⟩ := hs.safe_vacant hv (Span.within_of_le hle)
  refine ⟨⟨⟨?_, ?_⟩, ?_⟩, rfl, (hs.poke hsafe).keeps⟩
  · exact pairwise_cons.mpr ⟨fun c hc => (hv.chunk hc).symm, hs.chunks_apart⟩
  · refine ⟨hs.tiles.apart, hs.tiles.align, hs.tiles.len, fun a ha => ?_, fun _ => ?_, fun _ => ?_,
      fun a ha => (hcell a ha).mono (.refl a) hpay, forall_mem_cons.mpr ⟨?_, fun c hc => ?_⟩⟩
    · obtain ⟨c, hc, hw⟩ := hs.tiles.chunk a ha
      exact ⟨c, mem_cons_of_mem _ hc, hw⟩
    · exact Nat.dvd_add hv.2.1 T.chunkHdr_dvd
    · exact ⟨_, rfl, .refl _⟩
    · have hheld : Span.held (Chunk.payload T ⟨p, want, 0⟩) s.cells = 0 := by
        refine Span.held_eq_zero fun a ha hw => ?_
        have hlen := hs.tiles.len a ha
        exact (Span.Within.refl a).not_within (by omega) (hcell a ha) (hw.trans hpay)
      show Span.held (Chunk.payload T ⟨p, want, 0⟩) s.cells + 0 +
        (if some (⟨p, want, 0⟩ : Chunk) = some ⟨p, want, 0⟩ then want - T.chunkHdr else 0) +
          T.chunkHdr = want
      rw [hheld, if_pos rfl]
      omega
    · have h := hs.tiles.tally c hc
      have hne : ¬some (⟨p, want, 0⟩ : Chunk) = some c := fun e => hnew (Option.some.inj e ▸ hc)
      show Span.held (c.payload T) s.cells + c.lost +
        (if some (⟨p, want, 0⟩ : Chunk) = some c then want - T.chunkHdr else 0) +
          T.chunkHdr = c.size
      rw [if_neg hne]
      rw [h0, ite_self] at h
      exact h
  · refine ⟨?_, forall_mem_cons.mpr ⟨⟨hv.1, hv.2.1⟩, hs.chunkBase⟩, hs.largeBase, hs.mappings.congr rfl rfl rfl⟩
    have hp : (s.addChunk T p want).regions.Perm (⟨p, want⟩ :: s.regions) := List.Perm.swap _ _ _
    refine (hp.pairwise_iff Span.Apart.symm).mpr (pairwise_cons.mpr ⟨fun r hr => ?_, hs.regions⟩)
    exact (hv.2.2.2 r hr).symm

theorem le_chunkWant (hn : n ≤ 512) : n + T.chunkHdr ≤ chunkWant T n := by
  have h1 := T.hdr_le
  have h2 := T.sizes_le
  unfold chunkWant align
  split
  · exact T.le_roundup (by omega) (by omega)
  next h => exact Nat.le_of_not_lt h

theorem newchunk_calm (hs : s.Ok T) (hn : n ≤ 512) :
    Calm T s (s.newchunk T n).2 ∧
    ((s.newchunk T n).1 = true → n ≤ (s.newchunk T n).2.bumpleft) := by
  have hwant := le_chunkWant (T := T) hn
  have hg : Granted T s (chunkWant T n) _ :=
    again_granted
      (again_granted (chunkAlloc_granted hs) releaseLargefree_calm) releaseFreechunks_calm
  unfold newchunk
  dsimp only
  generalize again T _ _ _ = r at hg ⊢
  obtain ⟨x, s1⟩ := r
  obtain ⟨hc, hv⟩ := hg
  cases x with
  | none => exact ⟨hc, nofun⟩
  | some a =>
    have hv := hv a rfl
    have hle : T.chunkHdr ≤ chunkWant T n := by omega
    have hp := hc.ok.poke (hc.ok.safe_vacant hv (Span.within_of_le hle))
    obtain ⟨hd, hreg, h0⟩ := hp.ok.drainBump
    have ha := hd.ok.addChunk (hv.congr hreg) h0 hle
    refine ⟨((hc.trans hp).trans hd).trans ha, fun _ => ?_⟩
    show n ≤ chunkWant T n - T.chunkHdr
    omega

end Nlos.Luaheap.Heap
