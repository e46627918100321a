import Nlos.Kernel.Wire
import Nlos.Kernel.Receive
import Nlos.Kernel.Machine

/-!
# What is sent arrives

The round trip of the codec. `Wire` has the bytes of a value that was serialized; here they are read
back. The reader is followed along the items of the value: it finds the bytes of an item in front of
it, makes the right or takes the buffer the item names, and leaves the bytes behind the item.

`Arrives` says what a received value has to do with the value that was sent: it is the same, but for
the handles and the buffers, which are the receiver's.
-/

namespace Nlos

open Bytes Fallible List

/-! ## Slots for the rights -/

namespace RightTable

variable {t t' : RightTable} {ok : Bool} {g h i n : Nat}

theorem Open.extends (he : t.Extends t') (ho : t.Open ok g) : t'.Open ok g := by
  rcases ho with ⟨r, hr, hu⟩ | ⟨hlen, hok⟩
  · exact .inl ⟨r, he.slot hr, hu⟩
  · obtain ⟨m, hm⟩ := he
    by_cases hlt : g < t'.slots.length
    · refine .inl ⟨Right.free, ?_, rfl⟩
      rw [hm, length_append, length_replicate] at hlt
      rw [hm, List.getElem?_append_right hlen, List.getElem?_replicate, if_pos (by omega)]
    · exact .inr ⟨by omega, hok⟩

/-- The scan of `right_new` finds the first slot that can take a right. -/
theorem scan_first (hs : t.scan ok i n = some (h, t')) (hg : i ≤ g) (ho : t.Open ok g) : h ≤ g := by
  induction n generalizing t i with
  | zero => cases hs
  | succ n ih =>
    unfold scan at hs
    split at hs
    · cases hs
    next t1 hgrow =>
    have ho1 := ho.extends (grow_extends hgrow)
    split at hs
    · cases hs
    next r hr =>
    split at hs
    next hu =>
      refine ih hs (Nat.lt_of_le_of_ne hg ?_) ho1
      -- the slot looked at is used
      rintro rfl
      rcases ho1 with ⟨r', hr', hu'⟩ | ⟨hlen, -⟩
      · rw [hr] at hr'
        cases hr'
        rw [hu] at hu'
        cases hu'
      · rw [List.getElem?_eq_none hlen] at hr
        cases hr
    · cases hs
      exact hg

end RightTable

/-- The proc has `n` slots at or above its hint that can take a right. -/
def KProc.Room (ok : Bool) (n : Nat) (pr : KProc) : Prop :=
  ∃ hs : List Nat, hs.length = n ∧ hs.Pairwise (· < ·) ∧
    ∀ h ∈ hs, pr.rhint ≤ h ∧ h < maxRights ∧ pr.rights.Open ok h

namespace Kernel

variable {k k' : Kernel} {i n : Nat} {pr : KProc} {ok recv : Bool} {p : PortRef}

theorem room_rightNew (p : PortRef) (recv : Bool) (hi : k.procv[i]? = some pr)
    (hr : pr.Room ok (n + 1)) :
    ∃ h k' t, rightNew ok k i p recv = (some h, k') ∧ k'.procv[i]? = some (takeSlot pr t h p recv) ∧
      (takeSlot pr t h p recv).Room ok n := by
  obtain ⟨hs, hlen, hlt, hopen⟩ := hr
  match hs, hlen with
  | g :: gs, hlen =>
    obtain ⟨h1, h2, h3⟩ := hopen g mem_cons_self
    match hsc : pr.rights.scan ok pr.rhint (maxRights - pr.rhint) with
    | none => exact absurd ⟨g, h1, h2, h3⟩ (scan_rhint_none_iff.mp hsc)
    | some (h, t) =>
      have hnew : rightNew ok k i p recv =
          (some h, (k.setProc i (takeSlot pr t h p recv)).modPort p (addRef recv)) := by
        unfold rightNew
        simp only [hi, hsc]
      refine ⟨h, _, t, hnew, ?_, gs, Nat.succ.inj hlen, (pairwise_cons.mp hlt).2, fun g' hg' => ?_⟩
      · rw [(sameHolders_modPort).procv]
        exact procv_setProc_same hi _
      · have hgg := (pairwise_cons.mp hlt).1 g' hg'
        have hhg := RightTable.scan_first hsc h1 h3
        obtain ⟨h4, h5, h6⟩ := hopen g' (mem_cons_of_mem _ hg')
        refine ⟨by show h + 1 ≤ g'; omega, h5, ?_⟩
        have he := (RightTable.scan_spec hsc).1
        rcases h6.extends he with ⟨r, hr, hu⟩ | ⟨hl, hok⟩
        · refine .inl ⟨r, ?_, hu⟩
          show (t.slots.set h _)[g']? = some r
          rw [List.getElem?_set_ne (by omega), hr]
        · refine .inr ⟨?_, hok⟩
          show (t.slots.set h _).length ≤ g'
          rw [length_set]
          exact hl

end Kernel

/-! ## What arrives -/

mutual

/-- The value `x` is what arrives where `v` was sent. `rs` pairs each handle in `v` with the one in
`x` that stands for it, and `bs` each buffer, in the order of the walk. -/
inductive Arrives (heap : LuaHeap) : LVal → List (LuaInteger × Nat) → List (Nat × Nat) → RVal → Prop
  | nil : Arrives heap .nil [] [] .nil
  | bool (b : Bool) : Arrives heap (.bool b) [] [] (.bool b)
  | int (n : LuaInteger) : Arrives heap (.int n) [] [] (.int n)
  | num (b : BitVec 64) : Arrives heap (.num b) [] [] (.num b)
  | str (s : List UInt8) : Arrives heap (.str s) [] [] (.str s)
  | right {t : Nat} {h : LuaInteger} (g : Nat) (hr : heap.rawget t rightKey = .int h) :
      Arrives heap (.table t) [(h, g)] []
        (.table (.cons (.str rightKey) (.int (BitVec.ofNat 64 g)) .nil))
  | buf {t b : Nat} (b' : Nat) (hr : heap.rawget t rightKey = .nil)
      (hb : heap.rawget t bufKey = .buf b) :
      Arrives heap (.table t) [] [(b, b')] (.buf b')
  | table {t : Nat} {rs : List (LuaInteger × Nat)} {bs : List (Nat × Nat)} {ps : RPairs}
      (hr : heap.rawget t rightKey = .nil) (hb : heap.rawget t bufKey = .nil)
      (hp : ArrivesAll heap (heap.tables t) rs bs ps) : Arrives heap (.table t) rs bs (.table ps)

/-- The pairs `ps` are what arrives where the pairs `es` were sent. -/
inductive ArrivesAll (heap : LuaHeap) :
    List (LVal × LVal) → List (LuaInteger × Nat) → List (Nat × Nat) → RPairs → Prop
  | nil : ArrivesAll heap [] [] [] .nil
  | cons {a b : LVal} {es : List (LVal × LVal)} {r1 r2 r3 : List (LuaInteger × Nat)}
      {b1 b2 b3 : List (Nat × Nat)} {x y : RVal} {ps : RPairs} (hk : Arrives heap a r1 b1 x)
      (hv : Arrives heap b r2 b2 y) (hp : ArrivesAll heap es r3 b3 ps) :
      ArrivesAll heap ((a, b) :: es) (r1 ++ r2 ++ r3) (b1 ++ b2 ++ b3) (.cons x y ps)

end

section Keys

variable {heap : LuaHeap} {a a' b : LVal} {rs rs' : List (LuaInteger × Nat)}
    {bs bs' : List (Nat × Nat)}
  {x x' y : RVal}

/-- Keys that differ arrive as keys that lua tells apart. -/
theorem Arrives.sameKey (h : Arrives heap a rs bs x) (h' : Arrives heap a' rs' bs' x')
    (hne : a' ≠ a) : x'.sameKey x = false := by
  cases h' <;> cases h <;> first
    | rfl
    | exact absurd rfl hne
    | (simp only [RVal.sameKey, beq_eq_false_iff_ne, ne_eq]
       intro e
       cases e
       exact hne rfl)

/-- A key lua can store is stored under its own name. -/
theorem Arrives.settable (h : Arrives heap a rs bs x) (hk : a.isKey = true)
    (hv : Arrives heap b rs' bs' y) (hn : b ≠ .nil) (t : RPairs) :
    t.settable x y = some (t.put x y) := by
  have hy : ∀ k, RPairs.settable.set t y k = t.put k y := by
    intro k
    cases hv <;> first | rfl | exact absurd rfl hn
  cases h with
  | nil => cases hk
  | num bits =>
    simp only [LVal.isKey, Bool.and_eq_true, Bool.not_eq_true', Option.isNone_iff_eq_none] at hk
    show (if Double.isNaN bits then none else some _) = _
    rw [hk.1]
    show some (RPairs.settable.set t y (RVal.num bits).normal) = _
    rw [hy]
    unfold RVal.normal
    simp only [hk.2]
  | _ => exact congrArg some (hy _)

end Keys

namespace RPairs

def append : RPairs → RPairs → RPairs
  | .nil, u => u
  | .cons k v t, u => .cons k v (t.append u)

def keys : RPairs → List RVal
  | .nil => []
  | .cons k _ t => k :: t.keys

theorem append_nil : ∀ t : RPairs, t.append .nil = t
  | .nil => rfl
  | .cons k v t => congrArg (RPairs.cons k v) (append_nil t)

theorem append_assoc : ∀ t u w : RPairs, (t.append u).append w = t.append (u.append w)
  | .nil, _, _ => rfl
  | .cons k v t, u, w => congrArg (RPairs.cons k v) (append_assoc t u w)

theorem keys_append : ∀ t u : RPairs, (t.append u).keys = t.keys ++ u.keys
  | .nil, _ => rfl
  | .cons k _ t, u => congrArg (k :: ·) (keys_append t u)

theorem put_new : ∀ {t : RPairs} {x y : RVal}, (∀ x' ∈ t.keys, x'.sameKey x = false) →
    t.put x y = t.append (.cons x y .nil)
  | .nil, _, _, _ => rfl
  | .cons k v t, x, y, h => by
    have h1 := h k mem_cons_self
    unfold put
    rw [h1, put_new fun x' hx' => h x' (mem_cons_of_mem _ hx')]
    rfl

end RPairs

/-! ## Reading one thing -/

namespace Des

variable {σ : DesState} {n x : Nat} {tl : List UInt8}

/-- An integer that was written is read back. -/
theorem word_le (h : σ.rest = le n x ++ tl) (hx : x < 256 ^ n) :
    Des.word n σ = (.ok x, { σ with rest := tl }) := by
  have hlen : n ≤ σ.rest.length := by
    rw [h, length_append, length_le]
    omega
  rw [word_ok hlen, h, take_left' (length_le n x), drop_left' (length_le n x),
    ofLe_le_of_lt hx]

theorem word_byte {c : UInt8} (h : σ.rest = c :: tl) :
    Des.word 1 σ = (.ok c.toNat, { σ with rest := tl }) := by
  rw [word_ok (by rw [h, length_cons]; omega), h]
  rfl

theorem alloc_ok {renv : RecvEnv} (h : ∀ n, renv.allocOk n = true) (σ : DesState) :
    Des.alloc renv σ = (.ok (), { σ with allocs := σ.allocs + 1 }) := by
  rw [alloc_apply, h, if_pos rfl]

end Des

/-- The receiver's lua has the memory and the stack it asks for. -/
structure Lucky (renv : RecvEnv) : Prop where
  stack : ∀ n, renv.stackOk n = true
  alloc : ∀ n, renv.allocOk n = true

section Reading

variable (renv : RecvEnv) (k0 : Kernel) (i0 : Nat)

/-- The reader stands in front of the items `l`, with `n` buffers behind it, and has what they ask
for. -/
structure Ready (n : Nat) (l : List Item) (σ : DesState) : Prop where
  proc : ∃ pr, σ.k.procv[renv.proc]? = some pr ∧ pr.Room renv.xrightsOk (taken k0 i0 l).length ∧
    (pr.memLimit = 0 ∨ pr.memUsed + msgbufsBytes (moved k0 i0 l) ≤ pr.memLimit)
  ports : ∀ r ∈ taken k0 i0 l, (∃ q, σ.k.portOf r.port = some q) ∧ r.port.idx < renv.params.maxPorts
  minted : σ.minted.length + (taken k0 i0 l).length ≤ maxMsgRights
  bufs : ∀ j mb, (moved k0 i0 l)[j]? = some mb → σ.bufs[n + j]? = some mb
  few : n + (moved k0 i0 l).length ≤ maxMsgBufs

/-- What the reader has done from `σ` to `σ'`, behind `n` buffers: it has a handle for each right,
and each buffer it has met is its own and no longer the message's. -/
structure Got (n : Nat) (rs : List (LuaInteger × Nat)) (bs : List (Nat × Nat)) (σ σ' : DesState) :
    Prop where
  minted : σ'.minted = σ.minted ++ rs.map Prod.snd
  gained : Kernel.Gained renv.proc σ.k (rs.map Prod.snd) σ'.k
  slots : ∀ x ∈ rs, ∃ r, k0.rightGet i0 x.1 = some r ∧
    σ'.k.SlotAt renv.proc x.2 ⟨r.port, r.recv, true⟩
  own : ∃ new, σ'.k.ownBufs renv.proc = σ.k.ownBufs renv.proc ++ new ∧ new.length = bs.length
  fresh : ∀ j x, bs[j]? = some x → x.2 = (σ.k.ownBufs renv.proc).length + j
  bufs : ∀ x ∈ bs, ∃ lb, Ser.luabufBorrow k0 i0 x.1 = some lb ∧
    (σ'.k.ownBufs renv.proc)[x.2]? = some (Des.given lb.entry)
  cleared : ∀ j, σ'.bufs[j]? =
    if n ≤ j ∧ j < n + bs.length then (σ.bufs[j]?).map Des.taken else σ.bufs[j]?

/-- From in front of the items `l`, the routine reads their bytes and a value `A` holds of, and is
ready for what comes behind. -/
def Decodes (m : Des RVal) (l : List Item)
    (A : List (LuaInteger × Nat) → List (Nat × Nat) → RVal → Prop) : Prop :=
  ∀ σ n l' tl, Ready renv k0 i0 n (l ++ l') σ → σ.rest = wire k0 i0 n l ++ tl →
    σ.rest.length ≤ maxMsg →
    ∃ x rs bs σ', m σ = (.ok x, σ') ∧ σ'.rest = tl ∧ A rs bs x ∧ Got renv k0 i0 n rs bs σ σ' ∧
      bs.length = (lent l).length ∧ Ready renv k0 i0 (n + (lent l).length) l' σ'

variable {renv k0 i0} {n : Nat} {l l' : List Item} {σ σ' σ'' : DesState}
  {rs rs' : List (LuaInteger × Nat)} {bs bs' : List (Nat × Nat)}

/-- Two states of the reader that differ in the bytes left and in what lua has been asked for. -/
structure Aside (σ σ' : DesState) : Prop where
  k : σ'.k = σ.k
  bufs : σ'.bufs = σ.bufs
  minted : σ'.minted = σ.minted

theorem Got.nothing (h : Aside σ σ') : Got renv k0 i0 n [] [] σ σ' where
  minted := by rw [h.minted, map_nil, append_nil]
  gained := by rw [h.k]; exact .refl _
  slots := nofun
  own := ⟨[], by rw [h.k, append_nil], rfl⟩
  fresh j x hx := by rw [List.getElem?_nil] at hx; cases hx
  bufs := nofun
  cleared j := by
    rw [h.bufs, if_neg]
    rintro ⟨h1, h2⟩
    exact absurd h2 (Nat.not_lt.mpr h1)

theorem Got.trans (h : Got renv k0 i0 n rs bs σ σ')
    (g : Got renv k0 i0 (n + bs.length) rs' bs' σ' σ'') :
    Got renv k0 i0 n (rs ++ rs') (bs ++ bs') σ σ'' where
  minted := by rw [g.minted, h.minted, map_append, append_assoc]
  gained := by
    rw [map_append]
    exact h.gained.trans g.gained
  slots x hx := by
    rcases mem_append.mp hx with hx | hx
    · obtain ⟨r, hr, hs⟩ := h.slots x hx
      exact ⟨r, hr, g.gained.kept hs⟩
    · exact g.slots x hx
  own := by
    obtain ⟨new, e, hl⟩ := h.own
    obtain ⟨new', e', hl'⟩ := g.own
    refine ⟨new ++ new', by rw [e', e, append_assoc], ?_⟩
    rw [length_append, length_append, hl, hl']
  fresh j x hx := by
    obtain ⟨new, e, hl⟩ := h.own
    by_cases hj : j < bs.length
    · rw [List.getElem?_append_left hj] at hx
      exact h.fresh j x hx
    · rw [List.getElem?_append_right (by omega)] at hx
      rw [g.fresh _ x hx, e, length_append, hl]
      omega
  bufs x hx := by
    obtain ⟨new, e, -⟩ := g.own
    rcases mem_append.mp hx with hx | hx
    · obtain ⟨lb, hlb, hget⟩ := h.bufs x hx
      refine ⟨lb, hlb, ?_⟩
      rw [e, List.getElem?_append_left (List.getElem?_eq_some_iff.mp hget).1, hget]
    · exact g.bufs x hx
  cleared j := by
    rw [g.cleared j, h.cleared j, length_append]
    by_cases h1 : n ≤ j ∧ j < n + bs.length
    · rw [if_pos h1, if_neg (by omega), if_pos (by omega)]
    · rw [if_neg h1]
      by_cases h2 : n + bs.length ≤ j ∧ j < n + bs.length + bs'.length
      · rw [if_pos h2, if_pos (by omega)]
      · rw [if_neg h2, if_neg (by omega)]

/-- Items that name nothing are passed without a change. -/
theorem Ready.pass (h : Ready renv k0 i0 n (l ++ l') σ) (ht : taken k0 i0 l = [])
    (hm : moved k0 i0 l = []) (ha : Aside σ σ') : Ready renv k0 i0 n l' σ' := by
  obtain ⟨hproc, hports, hminted, hbufs, hfew⟩ := h
  rw [taken_append, ht, nil_append] at hproc hports hminted
  rw [moved_append, hm, nil_append] at hproc hbufs hfew
  rw [← ha.k] at hproc hports
  rw [← ha.minted] at hminted
  rw [← ha.bufs] at hbufs
  exact ⟨hproc, hports, hminted, hbufs, hfew⟩

namespace Decodes

variable {α : Type} {m : Des RVal} {f : RVal → Des RVal}
  {A C : List (LuaInteger × Nat) → List (Nat × Nat) → RVal → Prop}

theorem pure {v : RVal} (h : A [] [] v) : Decodes renv k0 i0 (Pure.pure v) [] A :=
  fun σ _ _ _ hr hrest _ => ⟨v, [], [], σ, rfl, hrest, h, .nothing ⟨rfl, rfl, rfl⟩, rfl, hr⟩

theorem mono (h : Decodes renv k0 i0 m l A) (hA : ∀ rs bs v, A rs bs v → C rs bs v) :
    Decodes renv k0 i0 m l C := by
  intro σ n l' tl hr hrest hlen
  obtain ⟨v, rs, bs, σ', h1, h2, h3, h4⟩ := h σ n l' tl hr hrest hlen
  exact ⟨v, rs, bs, σ', h1, h2, hA _ _ _ h3, h4⟩

theorem bind (hm : Decodes renv k0 i0 m l A) (hf : ∀ rs bs v, A rs bs v →
      Decodes renv k0 i0 (f v) l' fun rs' bs' v' => C (rs ++ rs') (bs ++ bs') v') :
    Decodes renv k0 i0 (m >>= f) (l ++ l') C := by
  intro σ n l'' tl hr hrest hlen
  rw [append_assoc] at hr
  rw [wire_append, append_assoc] at hrest
  obtain ⟨v, rs, bs, σ1, h1, h2, h3, h4, h5, h6⟩ := hm σ n (l' ++ l'') _ hr hrest hlen
  have hlen1 : σ1.rest.length ≤ maxMsg := by
    rw [h2]
    rw [hrest, length_append] at hlen
    omega
  obtain ⟨v', rs', bs', σ2, g1, g2, g3, g4, g5, g6⟩ := hf rs bs v h3 σ1 _ l'' tl h6 h2 hlen1
  have hlent : (lent (l ++ l')).length = (lent l).length + (lent l').length := by
    unfold lent
    rw [flatMap_append, length_append]
  refine ⟨v', rs ++ rs', bs ++ bs', σ2, (bind_ok h1).trans g1, g2, g3, ?_, ?_, ?_⟩
  · rw [← h5] at g4
    exact h4.trans g4
  · rw [length_append, h5, g5, hlent]
  · rw [hlent, ← Nat.add_assoc]
    exact g6

/-- A routine that reads the bytes of items that name nothing. -/
theorem step (p : List Item) {c : Des α} {f : α → Des RVal} {a : α} (hl : lent p = [])
    (hm : moved k0 i0 p = []) (ht : taken k0 i0 p = [])
    (hc : ∀ σ n tl, σ.rest = wire k0 i0 n p ++ (wire k0 i0 n l ++ tl) → σ.rest.length ≤ maxMsg →
      ∃ σ1, c σ = (.ok a, σ1) ∧ Aside σ σ1 ∧ σ1.rest = wire k0 i0 n l ++ tl)
    (hf : Decodes renv k0 i0 (f a) l A) : Decodes renv k0 i0 (c >>= f) (p ++ l) A := by
  intro σ n l' tl hr hrest hlen
  have hlent : lent (p ++ l) = lent l := by
    unfold lent at hl ⊢
    rw [flatMap_append, hl, nil_append]
  rw [wire_append, hl, append_assoc] at hrest
  rw [append_assoc] at hr
  obtain ⟨σ1, h1, ha, h2⟩ := hc σ n tl hrest hlen
  have hlen1 : σ1.rest.length ≤ maxMsg := by
    rw [h2]
    rw [hrest, length_append] at hlen
    exact Nat.le_trans (Nat.le_add_left _ _) hlen
  obtain ⟨v, rs, bs, σ2, g1, g2, g3, g4, g5, g6⟩ := hf σ1 n l' tl (hr.pass ht hm ha) h2 hlen1
  rw [hlent]
  exact ⟨v, rs, bs, σ2, (bind_ok h1).trans g1, g2, g3, (Got.nothing ha).trans g4, g5, g6⟩

theorem wire_put (n : Nat) (bs : List UInt8) : wire k0 i0 n [.put bs] = bs := append_nil bs

theorem visit (hl : Lucky renv) (hm : Decodes renv k0 i0 m l A) :
    Decodes renv k0 i0 (Des.checkstack renv >>= fun _ => m) (.visit :: l) A := by
  refine step [.visit] (a := ()) rfl rfl rfl (fun σ n tl hrest _ => ?_) hm
  refine ⟨{ σ with visits := σ.visits + 1 }, ?_, ⟨rfl, rfl, rfl⟩, hrest⟩
  rw [Des.checkstack_apply, hl.stack, if_pos rfl]

theorem byte {c : UInt8} {f : Nat → Des RVal} (hf : Decodes renv k0 i0 (f c.toNat) l A) :
    Decodes renv k0 i0 (Des.word 1 >>= f) (.put [c] :: l) A := by
  refine step [.put [c]] rfl rfl rfl (fun σ n tl hrest _ => ?_) hf
  exact ⟨_, Des.word_byte hrest, ⟨rfl, rfl, rfl⟩, rfl⟩

theorem word {w x : Nat} {f : Nat → Des RVal} (hx : x < 256 ^ w)
    (hf : Decodes renv k0 i0 (f x) l A) :
    Decodes renv k0 i0 (Des.word w >>= f) (.put (le w x) :: l) A := by
  refine step [.put (le w x)] rfl rfl rfl (fun σ n tl hrest _ => ?_) hf
  rw [wire_put] at hrest
  exact ⟨_, Des.word_le hrest hx, ⟨rfl, rfl, rfl⟩, rfl⟩

/-- A count of what stands behind it in at least as many bytes. -/
theorem count {x : Nat} {f : Nat → Des RVal} (hx : ∀ n, x ≤ (wire k0 i0 n l).length)
    (hf : Decodes renv k0 i0 (f x) l A) :
    Decodes renv k0 i0 (Des.word 4 >>= f) (.put (le 4 x) :: l) A := by
  refine step [.put (le 4 x)] rfl rfl rfl (fun σ n tl hrest hlen => ?_) hf
  rw [wire_put] at hrest
  have hsmall : x < 256 ^ 4 := by
    have h1 := hx n
    rw [hrest, length_append, length_append] at hlen
    have h2 : maxMsg < 256 ^ 4 := by decide
    omega
  exact ⟨_, Des.word_le hrest hsmall, ⟨rfl, rfl, rfl⟩, rfl⟩

/-- A check that holds of the bytes in front of the reader. -/
theorem check {b : DesState → Bool} (hb : ∀ σ n tl, σ.rest = wire k0 i0 n l ++ tl → b σ = true)
    (hm : Decodes renv k0 i0 m l A) :
    Decodes renv k0 i0 (do let s ← get; Fallible.guard (b s) .corrupt; m) l A := by
  intro σ n l' tl hr hrest hlen
  have h1 : (do let s ← get; Fallible.guard (b s) .corrupt; m : Des RVal) σ = m σ := by
    rw [bind_apply, get_apply]
    simp only
    rw [bind_apply, guard_apply, hb σ n tl hrest]
    rfl
  rw [h1]
  exact hm σ n l' tl hr hrest hlen

theorem alloc (hl : Lucky renv) (hm : Decodes renv k0 i0 m l A) :
    Decodes renv k0 i0 (Des.alloc renv >>= fun _ => m) l A := by
  refine step [] (a := ()) rfl rfl rfl (fun σ n tl hrest _ => ?_) hm
  exact ⟨_, Des.alloc_ok hl.alloc σ, ⟨rfl, rfl, rfl⟩, hrest⟩

end Decodes

/-! ## The cases of the reader -/

theorem decodes_str {s : List UInt8} (hl : Lucky renv) :
    Decodes renv k0 i0 (Des.getStr renv) [.put (le 4 s.length), .put s]
      fun rs bs x => rs = [] ∧ bs = [] ∧ x = .str s := by
  refine Decodes.count (fun n => Nat.le_of_eq (by rw [Decodes.wire_put])) ?_
  refine Decodes.check (fun σ n tl hrest => ?_) ?_
  · rw [hrest, Decodes.wire_put, length_append]
    exact decide_eq_true (Nat.le_add_right _ _)
  · refine Decodes.alloc hl (Decodes.step [.put s] rfl rfl rfl (fun σ n tl hrest _ => ?_)
      (Decodes.pure ⟨rfl, rfl, rfl⟩))
    rw [Decodes.wire_put] at hrest
    have htake : Des.take s.length σ = (.ok s, { σ with rest := tl }) := by
      rw [Des.take_ok (by rw [hrest, length_append]; omega), hrest, take_left, drop_left]
      rfl
    exact ⟨_, htake, ⟨rfl, rfl, rfl⟩, rfl⟩

theorem mintAt_ok {r : Right} {h : LuaInteger} (hr : k0.rightGet i0 h = some r)
    (hready : Ready renv k0 i0 n (.right h :: l) σ) :
    ∃ g σ', Des.mintAt renv r.port.idx r.recv σ = (.ok g, σ') ∧ σ'.rest = σ.rest ∧
      Got renv k0 i0 n [(h, g)] [] σ σ' ∧ Ready renv k0 i0 n l σ' := by
  have htaken : taken k0 i0 (.right h :: l) = r :: taken k0 i0 l := by
    show (k0.rightGet i0 h).toList ++ _ = _
    rw [hr]
    rfl
  have hmoved : moved k0 i0 (.right h :: l) = moved k0 i0 l := rfl
  obtain ⟨⟨pr, hpr, hroom, hmem⟩, hports, hminted, hbufs, hfew⟩ := hready
  rw [htaken] at hroom hports hminted
  obtain ⟨⟨q, hq⟩, hidx⟩ := hports r mem_cons_self
  obtain ⟨hat, hgen⟩ := Kernel.portOf_eq_some.mp hq
  have hport : (⟨r.port.idx, q.gen⟩ : PortRef) = r.port := by rw [hgen]
  obtain ⟨g, k', t, hnew, hpr', hroom'⟩ := Kernel.room_rightNew r.port r.recv hpr hroom
  rw [length_cons] at hminted
  have hmint : Des.mintAt renv r.port.idx r.recv σ =
      (.ok g, { σ with k := k', minted := σ.minted ++ [g] }) := by
    unfold Des.mintAt
    rw [bind_apply, get_apply]
    simp only [hat, hport]
    rw [bind_apply, guard_apply, decide_eq_true hidx]
    simp only [if_pos]
    rw [bind_apply, guard_apply, decide_eq_true (show σ.minted.length < maxMsgRights by omega)]
    simp only [if_pos]
    unfold Des.mint
    rw [bind_apply, get_apply]
    simp only [hnew]
    rfl
  have hm := Kernel.rightNew_some hnew
  refine ⟨g, _, hmint, rfl, ?_, ?_⟩
  · refine ⟨rfl, hm.gained, fun x hx => ?_, ⟨[], ?_, rfl⟩, fun j x hx => ?_, nofun, fun j => ?_⟩
    · rw [mem_singleton.mp hx]
      exact ⟨r, hr, hm.slotAt_iff.mpr (.inr ⟨rfl, rfl, rfl⟩)⟩
    · rw [append_nil]
      exact hm.ownBufs
    · cases hx
    · rw [if_neg]
      rintro ⟨h1, h2⟩
      exact absurd h2 (Nat.not_lt.mpr h1)
  · refine ⟨⟨_, hpr', hroom', hmem⟩, fun r' hr' => ?_, ?_, hbufs, hfew⟩
    · obtain ⟨⟨q', hq'⟩, hi'⟩ := hports r' (mem_cons_of_mem _ hr')
      refine ⟨?_, hi'⟩
      -- a further reference leaves every port where it is
      obtain ⟨pr1, t1, r1, -, -, -, -, -, -, rfl⟩ := hm.out
      obtain ⟨hat', hgen'⟩ := Kernel.portOf_eq_some.mp hq'
      by_cases hi : r.port.idx = r'.port.idx
      · rw [← hi, hat] at hat'
        cases hat'
        have hsame := Kernel.portAt_modPort_same
          (k := σ.k.setProc renv.proc (Kernel.takeSlot pr1 t1 g r.port r.recv))
          (f := Kernel.addRef r.recv) hq
        rw [hi] at hsame
        exact ⟨_, Kernel.portOf_of_portAt hsame hgen'⟩
      · exact ⟨q', Kernel.portOf_of_portAt ((Kernel.portAt_modPort_other hi).trans hat') hgen'⟩
    · rw [length_append, length_singleton]
      omega

variable {d : Nat} {lb : LuaBuf} {v : LVal} {es : List (LVal × LVal)}

theorem decodes_right {h : LuaInteger} {t : Nat} {heap : LuaHeap} (hl : Lucky renv)
    (hg : Item.Good k0 i0 (.right h)) (ht : heap.rawget t rightKey = .int h) :
    Decodes renv k0 i0
      (Des.word 1 >>= fun tag => Des.switch renv (deserialize renv d) (Char.ofNat tag))
      [.right h] (Arrives heap (.table t)) := by
  cases hg with
  | @right _ r hr =>
    intro σ n l' tl hready hrest hlen
    have hwire : wire k0 i0 n [.right h] = wireRight r := by
      simp only [wire, Item.wire, hr, append_nil]
    rw [hwire] at hrest
    have htag : Des.word 1 σ =
        (.ok ('R'.toUInt8).toNat, { σ with rest := le 2 r.port.idx ++ [if r.recv then 1 else 0] ++ tl }) :=
      Des.word_byte hrest
    rw [bind_ok htag]
    let σ1 : DesState := { σ with rest := le 2 r.port.idx ++ [if r.recv then 1 else 0] ++ tl }
    let σ2 : DesState := { σ with rest := (if r.recv then 1 else 0) :: tl }
    let σ3 : DesState := { σ with rest := tl }
    have hidx : r.port.idx < 256 ^ 2 := by
      have h1 := (hready.ports r (mem_append_left _ (by
        show r ∈ (k0.rightGet i0 h).toList
        rw [hr]
        exact mem_singleton_self r))).2
      exact Nat.lt_of_lt_of_le h1 renv.params.maxPorts_le
    have h2 : Des.word 2 σ1 = (.ok r.port.idx, σ2) :=
      Des.word_le (by
        show le 2 r.port.idx ++ [if r.recv then 1 else 0] ++ tl = _
        rfl) hidx
    have h3 : Des.word 1 σ2 = (.ok ((if r.recv then 1 else 0 : UInt8)).toNat, σ3) :=
      Des.word_byte rfl
    have hrecv : (((if r.recv then 1 else 0 : UInt8)).toNat != 0) = r.recv := by
      cases r.recv <;> rfl
    have hready3 : Ready renv k0 i0 n (.right h :: l') σ3 :=
      Ready.pass (l := []) hready rfl rfl ⟨rfl, rfl, rfl⟩
    obtain ⟨g, σ4, h4, hrest4, hgot, hready4⟩ := mintAt_ok hr hready3
    have hguard : Fallible.guard (decide (3 ≤ σ1.rest.length)) Fault.corrupt σ1 = (.ok (), σ1) := by
      rw [guard_apply, if_pos]
      refine decide_eq_true ?_
      rw [length_append, length_append, length_le]
      exact Nat.le_add_right 3 _
    refine ⟨.table (.cons (.str rightKey) (.int (BitVec.ofNat 64 g)) .nil), [(h, g)], [],
      { σ4 with allocs := σ4.allocs + 1 + 1 }, ?_, hrest4, .right g ht, ?_, rfl, ?_⟩
    · show Des.getRight renv σ1 = _
      unfold Des.getRight
      rw [bind_apply, get_apply]
      simp only
      rw [bind_ok hguard, bind_ok h2, bind_ok h3, hrecv, bind_ok h4, bind_ok (Des.alloc_ok hl.alloc _),
        bind_ok (Des.alloc_ok hl.alloc _)]
      rfl
    · have h5 : Got renv k0 i0 n [] [] σ σ3 := .nothing ⟨rfl, rfl, rfl⟩
      exact (h5.trans hgot).trans (.nothing ⟨rfl, rfl, rfl⟩)
    · exact Ready.pass (l := []) hready4 rfl rfl ⟨rfl, rfl, rfl⟩

theorem Kernel.setProc_again (k : Kernel) (i : Nat) (pr pr' : KProc) :
    (k.setProc i pr).setProc i pr' = k.setProc i pr' := by
  unfold setProc
  rw [set_set]

/-- The proc after it has taken over a buffer. -/
def KProc.takeBuf (pr : KProc) (mb : MsgBuf) : KProc :=
  { pr with
    memUsed := pr.memUsed + mb.len
    memPeak := max pr.memPeak (pr.memUsed + mb.len)
    bufUsed := pr.bufUsed + mb.len
    bufs := pr.bufs ++ [Des.given mb] }

theorem getBuf_ok {i : Nat} {mb : MsgBuf} {c : Chunk} {pr : KProc} (hl : Lucky renv)
    (hi : Des.word 1 σ' = (.ok i, σ)) (hmb : σ.bufs[i]? = some mb) (hc : mb.p = some c)
    (hpr : σ.k.procv[renv.proc]? = some pr)
    (hmem : pr.memLimit = 0 ∨ pr.memUsed + mb.len ≤ pr.memLimit) :
    ∃ σ1, Des.getBuf renv σ' = (.ok (.buf pr.bufs.length), σ1) ∧ σ1.rest = σ.rest ∧
    σ1.minted = σ.minted ∧
      σ1.bufs = σ.bufs.set i (Des.taken mb) ∧ σ1.k = σ.k.setProc renv.proc (pr.takeBuf mb) := by
  have hroom : ¬(pr.memLimit ≠ 0 ∧ pr.memLimit < pr.memUsed + mb.len) := fun ⟨h1, h2⟩ =>
    absurd h2 (Nat.not_lt.mpr (hmem.resolve_left h1))
  obtain ⟨pr1, hcharge, hbufs, htaken⟩ : ∃ pr1, kbufCharge pr mb.len = some pr1 ∧
    pr1.bufs = pr.bufs ∧
      { pr1 with bufs := pr1.bufs ++ [Des.given mb] } = pr.takeBuf mb := ⟨_, if_neg hroom, rfl, rfl⟩
  have hclaim : Des.claim renv i σ = (.ok (), { σ with k := σ.k.setProc renv.proc pr1 }) := by
    unfold Des.claim
    rw [bind_apply, get_apply]
    simp only [hmb]
    rw [bind_apply, guard_apply, hc]
    simp only [Option.isSome_some, if_pos]
    unfold Des.charge
    rw [bind_apply, get_apply]
    simp only [hpr, hcharge]
    rfl
  have hpr' : (σ.k.setProc renv.proc pr1).procv[renv.proc]? = some pr1 :=
    Kernel.procv_setProc_same hpr _
  refine ⟨⟨(σ.k.setProc renv.proc pr1).setProc renv.proc { pr1 with bufs := pr1.bufs ++ [Des.given mb] },
    σ.rest, σ.bufs.set i (Des.taken mb), σ.minted, σ.visits, σ.allocs + 1 + 1 + 1⟩, ?_,
      rfl, rfl, rfl, ?_⟩
  · unfold Des.getBuf
    rw [bind_ok hi, bind_ok hclaim, bind_ok (Des.alloc_ok hl.alloc _), bind_ok (Des.alloc_ok hl.alloc _),
      bind_ok (Des.alloc_ok hl.alloc _)]
    unfold Des.adopt
    rw [← hbufs]
    simp only [bind_apply, get_apply, hmb, hpr']
    rfl
  · rw [htaken]
    exact Kernel.setProc_again _ _ _ _

theorem moved_move {b : Nat} (hb : Ser.luabufBorrow k0 i0 b = some lb) :
    moved k0 i0 (.move b :: l) = lb.entry :: moved k0 i0 l := by
  show (Ser.luabufBorrow k0 i0 b).toList.map _ ++ _ = _
  rw [hb]
  rfl

/-- A buffer taken over is not there to be charged for again, and its entry is cleared. -/
theorem Ready.takeBuf {b : Nat} {pr : KProc} (hb : Ser.luabufBorrow k0 i0 b = some lb)
    (hready : Ready renv k0 i0 n (.move b :: l) σ) (hpr : σ.k.procv[renv.proc]? = some pr)
    (hm : σ'.minted = σ.minted) (hbufs : σ'.bufs = σ.bufs.set n (Des.taken lb.entry))
    (hk : σ'.k = σ.k.setProc renv.proc (pr.takeBuf lb.entry)) : Ready renv k0 i0 (n + 1) l σ' := by
  obtain ⟨⟨pr', hpr', hroom, hmem⟩, hports, hminted, hbs, hfew⟩ := hready
  rw [hpr] at hpr'
  cases hpr'
  rw [moved_move hb] at hmem hbs hfew
  refine ⟨⟨pr.takeBuf lb.entry, hk ▸ Kernel.procv_setProc_same hpr _, hroom, ?_⟩, fun r hr => ?_, hm ▸ hminted,
    fun j mb hj => ?_, ?_⟩
  · rcases hmem with h0 | h0
    · exact .inl h0
    · refine .inr ?_
      have hsum : msgbufsBytes (lb.entry :: moved k0 i0 l) = lb.entry.len +
          msgbufsBytes (moved k0 i0 l) :=
        rfl
      show pr.memUsed + lb.entry.len + _ ≤ pr.memLimit
      omega
  · rw [hk]
    exact hports r hr
  · have h1 := hbs (j + 1) mb hj
    rw [hbufs, List.getElem?_set_ne (by omega), Nat.add_right_comm]
    exact h1
  · rw [length_cons] at hfew
    omega

theorem Got.takeBuf {b : Nat} {pr : KProc} (hb : Ser.luabufBorrow k0 i0 b = some lb)
    (hn : σ.bufs[n]? = some lb.entry) (hpr : σ.k.procv[renv.proc]? = some pr)
    (hm : σ'.minted = σ.minted) (hbufs : σ'.bufs = σ.bufs.set n (Des.taken lb.entry))
    (hk : σ'.k = σ.k.setProc renv.proc (pr.takeBuf lb.entry)) :
    Got renv k0 i0 n [] [(b, pr.bufs.length)] σ σ' := by
  have hown : σ.k.ownBufs renv.proc = pr.bufs := Kernel.ownBufs_eq hpr
  have hown' : σ'.k.ownBufs renv.proc = pr.bufs ++ [Des.given lb.entry] := by
    rw [hk]
    exact Kernel.ownBufs_eq (Kernel.procv_setProc_same hpr _)
  refine ⟨?_, ?_, nofun, ⟨[Des.given lb.entry], by rw [hown', hown], rfl⟩, fun j x hx => ?_, fun x hx => ?_,
    fun j => ?_⟩
  · rw [hm, map_nil, append_nil]
  · rw [hk]
    exact .of_same (Kernel.slotAt_setProc hpr rfl)
  · cases j with
    | zero =>
      cases hx
      rw [hown]
      rfl
    | succ j => cases hx
  · rw [mem_singleton.mp hx]
    refine ⟨lb, hb, ?_⟩
    rw [hown', List.getElem?_append_right (Nat.le_refl _), Nat.sub_self]
    rfl
  · rw [hbufs]
    by_cases hj : j = n
    · subst hj
      rw [if_pos ⟨Nat.le_refl j, Nat.lt_succ_self j⟩, hn, Tally.set_slot hn]
      rfl
    · rw [List.getElem?_set_ne (Ne.symm hj), if_neg]
      rintro ⟨h1, h2⟩
      have h3 : j < n + 1 := h2
      omega

theorem decodes_move {b t : Nat} {heap : LuaHeap} (hl : Lucky renv) (hg : Item.Good k0 i0 (.move b))
    (hr : heap.rawget t rightKey = .nil) (ht : heap.rawget t bufKey = .buf b) :
    Decodes renv k0 i0
      (Des.word 1 >>= fun tag => Des.switch renv (deserialize renv d) (Char.ofNat tag))
      [.move b] (Arrives heap (.table t)) := by
  cases hg with
  | @move _ lb hb =>
    intro σ n l' tl hready hrest hlen
    have hrest' : σ.rest = 'M'.toUInt8 :: UInt8.ofNat n :: tl := hrest
    obtain ⟨pr, hpr, -, hmem⟩ := hready.proc
    obtain ⟨-, c, hc⟩ := luabufBorrow_some hb
    have hmoved : moved k0 i0 ([.move b] ++ l') = lb.entry :: moved k0 i0 l' := moved_move hb
    have hentry : σ.bufs[n]? = some lb.entry := hready.bufs 0 lb.entry (by rw [hmoved]; rfl)
    have hsmall : (UInt8.ofNat n).toNat = n := by
      have h1 := hready.few
      have h2 : maxMsgBufs = 4 := rfl
      exact Nat.mod_eq_of_lt (by omega)
    have hmem' : pr.memLimit = 0 ∨ pr.memUsed + lb.entry.len ≤ pr.memLimit := by
      refine hmem.imp id fun h0 => ?_
      rw [hmoved] at h0
      have hsum : msgbufsBytes (lb.entry :: moved k0 i0 l') = lb.entry.len +
          msgbufsBytes (moved k0 i0 l') :=
        rfl
      omega
    let σ1 : DesState := { σ with rest := UInt8.ofNat n :: tl }
    let σ2 : DesState := { σ with rest := tl }
    have h1 : Des.word 1 σ = (.ok ('M'.toUInt8).toNat, σ1) := Des.word_byte hrest'
    have h2 : Des.word 1 σ1 = (.ok n, σ2) := by
      rw [← hsmall]
      exact Des.word_byte rfl
    obtain ⟨σ', hrun, g1, g2, g3, g4⟩ := getBuf_ok hl h2 hentry hc hpr hmem'
    refine ⟨.buf pr.bufs.length, [], [(b, pr.bufs.length)], σ', ?_, g1, .buf _ hr ht,
      .takeBuf hb hentry hpr g2 g3 g4, rfl, .takeBuf hb hready hpr g2 g3 g4⟩
    exact (bind_ok h1).trans hrun

/-! ## Tables -/

variable {heap : LuaHeap}

def pairItems (heap : LuaHeap) (d : Nat) (es : List (LVal × LVal)) : List Item :=
  es.flatMap fun e => items heap d e.1 ++ items heap d e.2

/-- A value that was sent is at least a byte. -/
theorem wire_pos (hg : ∀ x ∈ items heap d v, x.Good k0 i0) (n : Nat) :
    1 ≤ (wire k0 i0 n (items heap d v)).length := by
  cases d with
  | zero => cases hg .stop (mem_singleton_self _)
  | succ d =>
    -- the byte is the tag, in the first item behind the visit
    have hput : ∀ c bs l, 1 ≤ (wire k0 i0 n (.visit :: .put (c :: bs) :: l)).length := by
      intro c bs l
      show 1 ≤ ([] ++ ((c :: bs) ++ wire k0 i0 (n + 0 + 0) l)).length
      rw [nil_append, cons_append, length_cons]
      omega
    unfold items at hg ⊢
    cases v with
    | table t =>
      cases hr : heap.rawget t rightKey with
      | nil =>
        simp only [hr] at hg ⊢
        cases hb : heap.rawget t bufKey with
        | nil => simpa only [hb] using hput _ _ _
        | buf b =>
          exact Nat.le_add_left 1 1
        | _ =>
          simp only [hb] at hg
          cases hg .stop (.tail _ (.head _))
      | int h =>
        simp only [hr] at hg ⊢
        cases hg (.right h) (.tail _ (.head _)) with
        | @right _ r hr' =>
          simp only [wire, Item.wire, hr']
          exact Nat.le_add_left 1 _
      | _ =>
        simp only [hr] at hg
        cases hg .stop (.tail _ (.head _))
    | buf b =>
      cases hg (.copy b) (.tail _ (.head _)) with
      | @copy _ lb c hb hp =>
        simp only [wire, Item.wire, hb, Option.bind_some, hp]
        exact Nat.le_add_left 1 _
    | other => cases hg .stop (.tail _ (.head _))
    | _ => exact hput _ _ _

theorem pairItems_cons (e : LVal × LVal) :
    pairItems heap d (e :: es) = items heap d e.1 ++ (items heap d e.2 ++ pairItems heap d es) := by
  unfold pairItems
  rw [flatMap_cons, append_assoc]

theorem wire_pairItems (hg : ∀ x ∈ pairItems heap d es, x.Good k0 i0) (n : Nat) :
    2 * es.length ≤ (wire k0 i0 n (pairItems heap d es)).length := by
  induction es generalizing n with
  | nil => exact Nat.zero_le _
  | cons e es ih =>
    rw [pairItems_cons] at hg ⊢
    have h1 := wire_pos (n := n) fun x hx => hg x (mem_append_left _ hx)
    have h2 := wire_pos (n := n + (lent (items heap d e.1)).length) fun x hx =>
      hg x (mem_append_right _ (mem_append_left _ hx))
    have h3 := ih (fun x hx => hg x (mem_append_right _ (mem_append_right _ hx)))
      (n + (lent (items heap d e.1)).length + (lent (items heap d e.2)).length)
    rw [wire_append, wire_append, length_append, length_append, length_cons]
    omega

/-- The pairs of a table, behind those already read. Each key so far stands for a key that is not
sent again, so no pair takes the place of another. -/
theorem decodes_pairs {walk : Des RVal} {t : RPairs}
    (hwalk : ∀ e ∈ es, Decodes renv k0 i0 walk (items heap d e.1) (Arrives heap e.1) ∧
      Decodes renv k0 i0 walk (items heap d e.2) (Arrives heap e.2))
    (hnodup : (es.map Prod.fst).Nodup) (hkeys : ∀ e ∈ es, e.1.isKey = true)
    (hvals : ∀ e ∈ es, e.2 ≠ .nil)
    (ht : ∀ x ∈ t.keys, ∃ a rs bs, Arrives heap a rs bs x ∧ a ∉ es.map Prod.fst) :
    Decodes renv k0 i0 (Des.pairs walk es.length t) (pairItems heap d es)
      fun rs bs x => ∃ ps, x = .table (t.append ps) ∧ ArrivesAll heap es rs bs ps := by
  induction es generalizing t with
  | nil => exact Decodes.pure ⟨.nil, by rw [RPairs.append_nil], .nil⟩
  | cons e es ih =>
    obtain ⟨a, b⟩ := e
    rw [pairItems_cons]
    obtain ⟨hwa, hwb⟩ := hwalk (a, b) mem_cons_self
    obtain ⟨hnot, hnodup'⟩ := nodup_cons.mp hnodup
    refine Decodes.bind hwa fun r1 b1 x hx => Decodes.bind hwb fun r2 b2 y hy => ?_
    have hset := hx.settable (hkeys (a, b) mem_cons_self) hy (hvals (a, b) mem_cons_self) t
    have hnew : t.put x y = t.append (.cons x y .nil) := by
      refine RPairs.put_new fun x' hx' => ?_
      obtain ⟨a', rs, bs, ha', hne⟩ := ht x' hx'
      exact hx.sameKey ha' fun e => hne (e ▸ mem_cons_self)
    rw [hset, hnew]
    refine (ih (fun e he => hwalk e (mem_cons_of_mem _ he)) hnodup'
      (fun e he => hkeys e (mem_cons_of_mem _ he)) (fun e he => hvals e (mem_cons_of_mem _ he))
      fun x' hx' => ?_).mono ?_
    · rw [RPairs.keys_append] at hx'
      rcases mem_append.mp hx' with hx' | hx'
      · obtain ⟨a', rs, bs, ha', hne⟩ := ht x' hx'
        exact ⟨a', rs, bs, ha', fun hm => hne (mem_cons_of_mem _ hm)⟩
      · rw [mem_singleton.mp hx']
        exact ⟨a, r1, b1, hx, hnot⟩
    · rintro r3 b3 _ ⟨ps, rfl, hps⟩
      refine ⟨.cons x y ps, by rw [RPairs.append_assoc]; rfl, ?_⟩
      rw [← append_assoc, ← append_assoc]
      exact .cons hx hy hps

/-! ## Values -/

/-- Where every item of a value is good and no buffer stands bare in it, the walk reads its bytes
and what arrives stands for it. -/
theorem deserialize_decodes (hl : Lucky renv)
    (hg : ∀ x ∈ items heap d v, x.Good k0 i0) (hc : ∀ b, .copy b ∉ items heap d v) :
    Decodes renv k0 i0 (deserialize renv d) (items heap d v) (Arrives heap v) := by
  induction d generalizing v with
  | zero => cases hg .stop (mem_singleton_self _)
  | succ d ih =>
    unfold items at hg hc ⊢
    refine Decodes.visit hl ?_
    cases v with
    | nil => exact Decodes.byte (Decodes.pure .nil)
    | bool b =>
      cases b with
      | true => exact Decodes.byte (Decodes.pure (.bool true))
      | false => exact Decodes.byte (Decodes.pure (.bool false))
    | int n =>
      refine Decodes.byte (Decodes.word n.isLt (Decodes.pure ?_))
      rw [BitVec.ofNat_toNat, BitVec.setWidth_eq]
      exact .int n
    | num bits =>
      refine Decodes.byte (Decodes.word bits.isLt (Decodes.pure ?_))
      rw [BitVec.ofNat_toNat, BitVec.setWidth_eq]
      exact .num bits
    | str s =>
      refine Decodes.byte ((decodes_str hl).mono ?_)
      rintro _ _ _ ⟨rfl, rfl, rfl⟩
      exact .str s
    | table t =>
      cases hr : heap.rawget t rightKey with
      | nil =>
        simp only [hr] at hg hc ⊢
        cases hb : heap.rawget t bufKey with
        | nil =>
          simp only [hb] at hg hc ⊢
          have hg' : ∀ x ∈ pairItems heap d (heap.tables t), x.Good k0 i0 := fun x hx =>
            hg x (mem_cons_of_mem _ (mem_cons_of_mem _ (mem_cons_of_mem _ hx)))
          have hc' : ∀ b, .copy b ∉ pairItems heap d (heap.tables t) := fun b hx =>
            hc b (mem_cons_of_mem _ (mem_cons_of_mem _ (mem_cons_of_mem _ hx)))
          have hpart : ∀ {e x}, e ∈ heap.tables t → x ∈ items heap d e.1 ∨ x ∈ items heap d e.2 →
              x ∈ pairItems heap d (heap.tables t) := fun he hx =>
            mem_flatMap.mpr ⟨_, he, mem_append.mpr hx⟩
          refine Decodes.byte (Decodes.count (fun n => ?_) (Decodes.check (fun σ n tl hrest => ?_)
            (Decodes.alloc hl ((decodes_pairs (t := .nil) (fun e he => ⟨?_, ?_⟩) (heap.nodup t) (heap.keys t)
              (heap.vals t) nofun).mono ?_))))
          · have h1 := wire_pairItems hg' n
            exact Nat.le_trans (Nat.le_mul_of_pos_left _ (Nat.zero_lt_two)) h1
          · have h1 := wire_pairItems hg' n
            refine decide_eq_true ?_
            rw [hrest, length_append]
            refine (Nat.le_div_iff_mul_le Nat.zero_lt_two).mpr ?_
            exact Nat.le_trans (Nat.le_trans (Nat.le_of_eq (Nat.mul_comm _ _)) h1)
              (Nat.le_add_right _ _)
          · exact ih (fun x hx => hg' x (hpart he (.inl hx))) fun b hx => hc' b (hpart he (.inl hx))
          · exact ih (fun x hx => hg' x (hpart he (.inr hx))) fun b hx => hc' b (hpart he (.inr hx))
          · rintro rs bs _ ⟨ps, rfl, hps⟩
            exact .table hr hb hps
        | buf b =>
          simp only [hb] at hg ⊢
          exact decodes_move hl (hg _ (.tail _ (.head _))) hr hb
        | _ =>
          simp only [hb] at hg
          cases hg .stop (.tail _ (.head _))
      | int h =>
        simp only [hr] at hg ⊢
        exact decodes_right hl (hg _ (.tail _ (.head _))) hr
      | _ =>
        simp only [hr] at hg
        cases hg .stop (.tail _ (.head _))
    | buf b => exact absurd (.tail _ (.head _)) (hc b)
    | other => cases hg .stop (.tail _ (.head _))

end Reading

/-! ## Both halves -/

/-- The values that may be sent, to a depth: no bare buffers, and a table that has one of the two
special keys is taken for what it names. -/
inductive Portable (heap : LuaHeap) : Nat → LVal → Prop where
  | nil {d : Nat} : Portable heap (d + 1) .nil
  | bool {d : Nat} (b : Bool) : Portable heap (d + 1) (.bool b)
  | int {d : Nat} (n : LuaInteger) : Portable heap (d + 1) (.int n)
  | num {d : Nat} (bits : BitVec 64) : Portable heap (d + 1) (.num bits)
  | str {d : Nat} (s : List UInt8) : Portable heap (d + 1) (.str s)
  | right {d t : Nat} {h : LuaInteger} (hr : heap.rawget t rightKey = .int h) :
      Portable heap (d + 1) (.table t)
  | buf {d t b : Nat} (hr : heap.rawget t rightKey = .nil) (hb : heap.rawget t bufKey = .buf b) :
      Portable heap (d + 1) (.table t)
  | table {d t : Nat} (hr : heap.rawget t rightKey = .nil) (hb : heap.rawget t bufKey = .nil)
      (hk : ∀ e ∈ heap.tables t, Portable heap d e.1)
        (hv : ∀ e ∈ heap.tables t, Portable heap d e.2) :
      Portable heap (d + 1) (.table t)

theorem Portable.no_copy {heap : LuaHeap} {d : Nat} {v : LVal} (h : Portable heap d v) (b : Nat) :
    .copy b ∉ items heap d v := by
  induction h with
  | right hr => simp [items, hr]
  | buf hr hb => simp [items, hr, hb]
  | table hr hb _ _ ihk ihv =>
    simp only [items, hr, hb, mem_cons, reduceCtorEq, false_or, mem_flatMap, mem_append,
      not_exists, not_and, not_or]
    exact fun e he => ⟨ihk e he, ihv e he⟩
  | _ => simp [items, strItems]

/-- The message a finished walk leaves to be queued. -/
def WBuf.msg (w : WBuf) : Kmsg := ⟨w.data, w.bufs, w.data.length + msgbufsBytes w.bufs, w.refs⟩

theorem bufs_cleared {bufs bufs' : List MsgBuf} {n : Nat} (hn : bufs.length ≤ n)
    (h : ∀ j, bufs'[j]? = if 0 ≤ j ∧ j < 0 + n then (bufs[j]?).map Des.taken else bufs[j]?) :
    ∀ mb ∈ bufs', mb.p = none := by
  intro mb hmb
  obtain ⟨j, hj⟩ := mem_iff_getElem?.mp hmb
  rw [h j] at hj
  split at hj
  · obtain ⟨mb', -, rfl⟩ := Option.map_eq_some_iff.mp hj
    rfl
  · have hlt := (List.getElem?_eq_some_iff.mp hj).1
    omega

/-- A value that was serialized is read back, by a receiver that has the slots for its rights and
may have the bytes of its buffers. What arrives stands for the value, each handle in it is new and
names the port of the one that was sent, and each buffer is new and has the bytes of the one that
was sent, which the message has no more. -/
theorem deserialize_serialize {senv : SendEnv} {renv : RecvEnv} {k k' : Kernel} {v : LVal}
    {s : SerState}
    {pr : KProc} (hs : serialize senv (maxDepth + 1) v (senv.start k v) = (.ok (), s))
    (hv : Portable senv.heap (maxDepth + 1) v)
    (hlive : ∀ r ∈ taken k senv.proc (items senv.heap (maxDepth + 1) v),
      (∃ q, k'.portOf r.port = some q) ∧ r.port.idx < renv.params.maxPorts)
    (hpr : k'.procv[renv.proc]? = some pr) (hroom : pr.Room renv.xrightsOk s.w.refs.length)
    (hmem : pr.memLimit = 0 ∨ pr.memUsed + msgbufsBytes s.w.bufs ≤ pr.memLimit) (hl : Lucky renv) :
    ∃ x rs bs t, deserialize renv (maxDepth + 1) (.start k' s.w.msg) = (.ok x, t) ∧ t.rest = [] ∧
      Arrives senv.heap v rs bs x ∧
      (rs.map Prod.snd).Nodup ∧
      (∀ h ∈ rs, k'.Vacant renv.proc h.2 ∧ ∃ r, k.rightGet senv.proc h.1 = some r ∧
        t.k.SlotAt renv.proc h.2 ⟨r.port, r.recv, true⟩) ∧
      (bs.map Prod.snd).Nodup ∧
      (∀ b ∈ bs, pr.bufs.length ≤ b.2 ∧ ∃ lb, Ser.luabufBorrow k senv.proc b.1 = some lb ∧
        (t.k.ownBufs renv.proc)[b.2]? = some (Des.given lb.entry)) ∧
      ∀ mb ∈ t.bufs, mb.p = none := by
  have hm := serialize_message hs
  have hlen : s.w.refs.length = (taken k senv.proc (items senv.heap (maxDepth + 1) v)).length := by
    rw [hm.refs, length_map]
  have hready : Ready renv k senv.proc 0 (items senv.heap (maxDepth + 1) v ++ [])
      (.start k' s.w.msg) := by
    rw [append_nil]
    refine ⟨⟨pr, hpr, hlen ▸ hroom, hm.bufs ▸ hmem⟩, hlive, ?_, fun j mb hj => ?_, ?_⟩
    · show 0 + _ ≤ _
      rw [← hlen, Nat.zero_add]
      exact hm.bounded.refs
    · show s.w.bufs[0 + j]? = _
      rw [hm.bufs, Nat.zero_add, hj]
    · rw [← hm.bufs, Nat.zero_add]
      exact hm.bounded.bufs
  have hrest : (DesState.start k' s.w.msg).rest =
      wire k senv.proc 0 (items senv.heap (maxDepth + 1) v) ++ [] := by
    rw [append_nil]
    exact hm.data
  obtain ⟨x, rs, bs, t, h1, h2, h3, h4, h5, -⟩ :=
    deserialize_decodes hl hm.good hv.no_copy _ 0 [] [] hready hrest hm.bounded.data
  have hown : k'.ownBufs renv.proc = pr.bufs := Kernel.ownBufs_eq hpr
  refine ⟨x, rs, bs, t, h1, h2, h3, h4.gained.nodup, fun h hh => ?_, ?_, fun b hb => ?_, ?_⟩
  · exact ⟨h4.gained.fresh _ (mem_map_of_mem hh), h4.slots h hh⟩
  · -- the new buffers are numbered from the receiver's last on
    refine pairwise_iff_getElem.mpr fun a b ha hb hab => ?_
    have hla : a < bs.length := length_map Prod.snd ▸ ha
    have hlb : b < bs.length := length_map Prod.snd ▸ hb
    have ha' := h4.fresh a bs[a] (List.getElem?_eq_getElem hla)
    have hb' := h4.fresh b bs[b] (List.getElem?_eq_getElem hlb)
    rw [getElem_map, getElem_map, ha', hb']
    omega
  · obtain ⟨j, hj⟩ := mem_iff_getElem?.mp hb
    have hf := h4.fresh j b hj
    have hown' : (DesState.start k' s.w.msg).k.ownBufs renv.proc = pr.bufs := hown
    rw [hown'] at hf
    exact ⟨by omega, h4.bufs b hb⟩
  · refine bufs_cleared ?_ h4.cleared
    exact Nat.le_of_eq (show s.w.bufs.length = _ by rw [h5, hm.bufs, length_moved hm.good])

def rightAndBuffer : LuaHeap where
  tables
    | 0 => [(.int 1, .table 1), (.int 2, .table 2)]
    | 1 => [(.str rightKey, .int 1)]
    | 2 => [(.str bufKey, .buf 0)]
    | _ => []
  nodup
    | 0 => by decide
    | 1 => by decide
    | 2 => by decide
    | _ + 3 => nodup_nil
  keys
    | 0 => by decide
    | 1 => by decide
    | 2 => by decide
    | _ + 3 => nofun
  vals
    | 0 => by decide
    | 1 => by decide
    | 2 => by decide
    | _ + 3 => nofun

theorem rightAndBuffer_portable : Portable rightAndBuffer (maxDepth + 1) (.table 0) := by
  have hright : Portable rightAndBuffer maxDepth (.table 1) := .right rfl
  have hbuf : Portable rightAndBuffer maxDepth (.table 2) := .buf rfl rfl
  refine .table rfl rfl (fun e he => ?_) fun e he => ?_
  · rcases mem_pair.mp he with rfl | rfl
    · exact .int 1
    · exact .int 2
  · rcases mem_pair.mp he with rfl | rfl
    · exact hright
    · exact hbuf

def portAndBuffer : List Op := [.spawnInit Sample.newEnv, Sample.newport 0, Sample.newBuf 0 100]

/-- Slot `h` of the proc is free, and not below its hint. -/
def KProc.freeAt (h : Nat) (pr : KProc) : Bool :=
  decide (pr.rhint ≤ h) && decide (h < maxRights) && (pr.rights.slots[h]?).any fun r => !r.used

theorem KProc.room_of_freeAt {ok : Bool} {h : Nat} {pr : KProc} (hf : pr.freeAt h = true) :
    pr.Room ok 1 := by
  unfold freeAt at hf
  simp only [Bool.and_eq_true, decide_eq_true_eq, Option.any_eq_true, Bool.not_eq_true'] at hf
  obtain ⟨⟨h1, h2⟩, r, hr, hu⟩ := hf
  refine ⟨[h], rfl, pairwise_singleton _ _, fun g hg => ?_⟩
  rw [mem_singleton.mp hg]
  exact ⟨h1, h2, .inl ⟨r, hr, hu⟩⟩

/-- Sent and read back by its sender, the table has a handle of its own and a buffer of its own. -/
theorem portAndBuffer_roundTrip : ∃ k s, Run (fun _ _ => True) k ∧
      serialize (Sample.sendEnv 0 rightAndBuffer) (maxDepth + 1) (.table 0)
        ((Sample.sendEnv 0 rightAndBuffer).start k (.table 0)) = (.ok (), s) ∧
      s.w.refs = [⟨1, true⟩] ∧
      ∃ x rs bs t, deserialize (Sample.recvEnv 0) (maxDepth + 1) (.start s.k s.w.msg) = (.ok x, t) ∧
        Arrives rightAndBuffer (.table 0) rs bs x := by
  obtain ⟨k, hk, hr, hp⟩ := Run.of_ops (l := portAndBuffer) anyOp_true (P := fun k =>
    let r := serialize (Sample.sendEnv 0 rightAndBuffer) (maxDepth + 1) (.table 0)
      ((Sample.sendEnv 0 rightAndBuffer).start k (.table 0))
    decide (r.1 = .ok ()) && decide (r.2.w.refs = [⟨1, true⟩]) &&
      ((taken k 0 (items rightAndBuffer (maxDepth + 1) (.table 0))).all fun (r' : Right) =>
        (r.2.k.portOf r'.port).isSome && decide (r'.port.idx < 16)) &&
      (r.2.k.procv[0]?).any fun (pr : KProc) => decide (pr.memLimit = 0) && pr.freeAt 2)
        (by decide +kernel)
  match h : serialize (Sample.sendEnv 0 rightAndBuffer) (maxDepth + 1) (.table 0)
      ((Sample.sendEnv 0 rightAndBuffer).start k (.table 0)) with
  | (r, s) =>
    rw [h] at hp
    simp only [Bool.and_eq_true, decide_eq_true_eq, all_eq_true, Option.isSome_iff_exists,
      Option.any_eq_true] at hp
    obtain ⟨⟨⟨rfl, hrefs⟩, hlive⟩, pr, hpr, hlim, hfree⟩ := hp
    have hroom : pr.Room true s.w.refs.length := by
      rw [hrefs]
      exact KProc.room_of_freeAt hfree
    obtain ⟨x, rs, bs, t, h1, -, h3, -⟩ := @deserialize_serialize _ (Sample.recvEnv 0) _ s.k _ _ _ h
      rightAndBuffer_portable hlive hpr hroom (.inl hlim) ⟨fun _ => rfl, fun _ => rfl⟩
    exact ⟨k, s, hr, h, hrefs, x, rs, bs, t, h1, h3⟩

/-- The first proc may have one byte. It makes a buffer of one byte. -/
def oneByteProc : List Op :=
  [.spawnInit { Sample.newEnv with memLimit := 1 }, Sample.newport 0, Sample.newBuf 0 100]

/-- It sends that buffer to its own port and makes another. -/
def oneByteAgain : List Op := oneByteProc ++ [Sample.sendBuf 0 1 0, Sample.newBuf 0 200]

def atLimit (r : Except Fault RVal × DesState) : Bool :=
  match r.1 with
  | .error .limit => true
  | _ => false

/-- A receiver with slots to spare does not read the message: the buffer in it is more than it may
have. -/
theorem oneByteAgain_refused : ∃ k k' s pr, Run (fun _ _ => True) k ∧ Run (fun _ _ => True) k' ∧
      Portable (Sample.bufTable 0) (maxDepth + 1) (.table 0) ∧
      serialize (Sample.sendEnv 0 (Sample.bufTable 0)) (maxDepth + 1) (.table 0)
        ((Sample.sendEnv 0 (Sample.bufTable 0)).start k (.table 0)) = (.ok (), s) ∧
      s.w.refs = [] ∧ k'.procv[0]? = some pr ∧ pr.Room true 1 ∧
      ∃ t, deserialize (Sample.recvEnv 0) (maxDepth + 1) (.start k' s.w.msg) =
        (.error .limit, t) := by
  obtain ⟨k, hk, hr, -⟩ :=
    Run.of_ops (l := oneByteProc) anyOp_true (P := fun _ => true) (by decide +kernel)
  obtain ⟨k', hk', hr', hp⟩ := Run.of_ops (l := oneByteAgain) anyOp_true (P := fun k' =>
    (runOps anyOp .boot oneByteProc).any fun k =>
      let r := serialize (Sample.sendEnv 0 (Sample.bufTable 0)) (maxDepth + 1) (.table 0)
        ((Sample.sendEnv 0 (Sample.bufTable 0)).start k (.table 0))
      decide (r.1 = .ok ()) && decide (r.2.w.refs = []) &&
        atLimit (deserialize (Sample.recvEnv 0) (maxDepth + 1) (.start k' r.2.w.msg)) &&
        (k'.procv[0]?).any fun (pr : KProc) => pr.freeAt 2) (by decide +kernel)
  rw [hk, Option.any_some] at hp
  match h : serialize (Sample.sendEnv 0 (Sample.bufTable 0)) (maxDepth + 1) (.table 0)
      ((Sample.sendEnv 0 (Sample.bufTable 0)).start k (.table 0)) with
  | (r, s) =>
    rw [h] at hp
    simp only [Bool.and_eq_true, decide_eq_true_eq, Option.any_eq_true] at hp
    obtain ⟨⟨⟨rfl, hrefs⟩, hlim⟩, pr, hpr, hfree⟩ := hp
    refine ⟨k, k', s, pr, hr, hr', .buf rfl rfl, h, hrefs, hpr, KProc.room_of_freeAt hfree, ?_⟩
    match h' : deserialize (Sample.recvEnv 0) (maxDepth + 1) (.start k' s.w.msg), hlim with
    | (.error .limit, t), _ => exact ⟨t, rfl⟩

end Nlos
