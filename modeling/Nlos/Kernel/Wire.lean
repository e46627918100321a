import Nlos.Kernel.Send

/-!
# The bytes of a message

What a walk that came through has written, in terms of its items: the bytes of each item, one
behind the other, and one entry for each buffer it moves (`runItems_wrote`). This is where the
sending and the receiving half of the codec meet.
-/

namespace Nlos

open Bytes Fallible List

/-- The entry a buffer leaves in the message that moves it. -/
def LuaBuf.entry (lb : LuaBuf) : MsgBuf := ⟨lb.p, lb.len, lb.sized⟩

def Item.moves (k : Kernel) (i : Nat) : Item → List MsgBuf
  | .move b => (Ser.luabufBorrow k i b).toList.map LuaBuf.entry
  | _ => []

/-- The entries of the buffers the items move. -/
def moved (k : Kernel) (i : Nat) (l : List Item) : List MsgBuf := l.flatMap (Item.moves k i)

inductive Item.Good (k : Kernel) (i : Nat) : Item → Prop where
  | visit : Good k i .visit
  | put (bs : List UInt8) : Good k i (.put bs)
  | right {h : LuaInteger} {r : Right} (hr : k.rightGet i h = some r) : Good k i (.right h)
  | move {b : Nat} {lb : LuaBuf} (hb : Ser.luabufBorrow k i b = some lb) : Good k i (.move b)
  | copy {b : Nat} {lb : LuaBuf} {c : Chunk} (hb : Ser.luabuf k i b = some lb)
      (hp : lb.p = some c) :
      Good k i (.copy b)

def wireStr (s : List UInt8) : List UInt8 := 'S'.toUInt8 :: (le 4 s.length ++ s)

def wireRight (r : Right) : List UInt8 :=
  'R'.toUInt8 :: (le 2 r.port.idx ++ [if r.recv then 1 else 0])

def Item.wire (k : Kernel) (i n : Nat) : Item → List UInt8
  | .put bs => bs
  | .right h =>
    match k.rightGet i h with
    | none => []
    | some r => wireRight r
  | .move _ => ['M'.toUInt8, UInt8.ofNat n]
  | .copy b =>
    match (Ser.luabuf k i b).bind (·.p) with
    | none => []
    | some c => wireStr c.bytes
  | _ => []

def wire (k : Kernel) (i : Nat) : Nat → List Item → List UInt8
  | _, [] => []
  | n, x :: l => x.wire k i n ++ wire k i (n + x.lends.length) l

theorem wire_append (k : Kernel) (i n : Nat) (l l' : List Item) :
    wire k i n (l ++ l') = wire k i n l ++ wire k i (n + (lent l).length) l' := by
  induction l generalizing n with
  | nil => rfl
  | cons x l ih =>
    have hlent : (lent (x :: l)).length = x.lends.length + (lent l).length := by
      unfold lent
      rw [flatMap_cons, length_append]
    show x.wire k i n ++ wire k i (n + x.lends.length) (l ++ l') =
      (x.wire k i n ++ wire k i (n + x.lends.length) l) ++ _
    rw [ih, hlent, append_assoc, Nat.add_assoc]

theorem moved_append (k : Kernel) (i : Nat) (l l' : List Item) :
    moved k i (l ++ l') = moved k i l ++ moved k i l' := flatMap_append

theorem taken_append (k : Kernel) (i : Nat) (l l' : List Item) :
    taken k i (l ++ l') = taken k i l ++ taken k i l' := flatMap_append

theorem luabufBorrow_congr {k k' : Kernel} (hp : k'.procv = k.procv) (i b : Nat) :
    Ser.luabufBorrow k' i b = Ser.luabufBorrow k i b := by
  unfold Ser.luabufBorrow
  rw [luabuf_congr hp]

variable {i b : Nat}

theorem luabufBorrow_some {k : Kernel} {lb : LuaBuf}
    (h : Ser.luabufBorrow k i b = some lb) : Ser.luabuf k i b = some lb ∧ ∃ c, lb.p = some c := by
  unfold Ser.luabufBorrow at h
  split at h
  · cases h
  next lb' hlb =>
  obtain ⟨hcond, e⟩ := Option.ite_none_right_eq_some.mp h
  cases e
  simp only [Bool.and_eq_true] at hcond
  exact ⟨hlb, Option.isSome_iff_exists.mp hcond.1.1.1⟩

/-- Every item came through: what each names was there, and one buffer moved for each that lends. -/
theorem length_moved {k : Kernel} {l : List Item} (h : ∀ x ∈ l, x.Good k i) :
    (moved k i l).length = (lent l).length := by
  induction l with
  | nil => rfl
  | cons x l ih =>
    have h1 := ih fun y hy => h y (mem_cons_of_mem _ hy)
    have h2 : (x.moves k i).length = x.lends.length := by
      cases h x mem_cons_self with
      | @move b lb hb =>
        show ((Ser.luabufBorrow k i b).toList.map LuaBuf.entry).length = 1
        rw [hb]
        rfl
      | _ => rfl
    unfold moved lent at h1 ⊢
    rw [flatMap_cons, flatMap_cons, length_append, length_append, h1, h2]

/-! ## A walk that came through -/

/-- The limits a message keeps while it is written. -/
structure Bounded (w : WBuf) : Prop where
  cap : w.cap ≤ maxMsg
  data : w.data.length ≤ maxMsg
  refs : w.refs.length ≤ maxMsgRights
  bufs : w.bufs.length ≤ maxMsgBufs

/-- What a walk from `s` to `z` through the items `l` has written. -/
structure Wrote (env : SendEnv) (s : SerState) (l : List Item) (z : SerState) : Prop where
  procv : z.k.procv = s.k.procv
  good : ∀ x ∈ l, x.Good s.k env.proc
  data : z.w.data = s.w.data ++ wire s.k env.proc s.w.bufs.length l
  bufs : z.w.bufs = s.w.bufs ++ moved s.k env.proc l
  bounded : Bounded s.w → Bounded z.w

section Wrote

variable {env : SendEnv} {s u z : SerState} {l l' : List Item} {x : Item}

section

variable {k k' : Kernel} (hp : k'.procv = k.procv)

include hp

theorem Item.Good.congr (h : x.Good k i) : x.Good k' i := by
  cases h with
  | visit => exact .visit
  | put bs => exact .put bs
  | right hr => exact .right ((Kernel.rightGet_congr hp _ _).trans hr)
  | move hb => exact .move ((luabufBorrow_congr hp _ _).trans hb)
  | copy hb hc => exact .copy ((luabuf_congr hp _ _).trans hb) hc

theorem Item.wire_congr (i n : Nat) (x : Item) : x.wire k' i n = x.wire k i n := by
  cases x with
  | right h =>
    show (match k'.rightGet i h with | none => _ | some r => _) = _
    rw [Kernel.rightGet_congr hp]
    rfl
  | copy b =>
    show (match (Ser.luabuf k' i b).bind (·.p) with | none => _ | some c => _) = _
    rw [luabuf_congr hp]
    rfl
  | _ => rfl

theorem wire_congr (i n : Nat) (l : List Item) : wire k' i n l = wire k i n l := by
  induction l generalizing n with
  | nil => rfl
  | cons x l ih =>
    unfold wire
    rw [Item.wire_congr hp, ih]

theorem moved_congr (i : Nat) (l : List Item) : moved k' i l = moved k i l := by
  unfold moved
  congr 1
  funext x
  cases x with
  | move b =>
    show ((Ser.luabufBorrow k' i b).toList.map LuaBuf.entry) = _
    rw [luabufBorrow_congr hp]
    rfl
  | _ => rfl

end

theorem Wrote.append (h : Wrote env s l u) (h' : Wrote env u l' z) : Wrote env s (l ++ l') z where
  procv := h'.procv.trans h.procv
  good x hx := by
    rcases mem_append.mp hx with hx | hx
    · exact h.good x hx
    · exact (h'.good x hx).congr h.procv.symm
  data := by
    rw [h'.data, h.data, h.bufs, wire_congr h.procv, wire_append, append_assoc, length_append,
      length_moved h.good]
  bufs := by rw [h'.bufs, h.bufs, moved_congr h.procv, moved_append, append_assoc]
  bounded hb := h'.bounded (h.bounded hb)

theorem Wrote.one (hp : z.k.procv = s.k.procv) (hg : x.Good s.k env.proc)
    (hd : z.w.data = s.w.data ++ x.wire s.k env.proc s.w.bufs.length)
    (hb : z.w.bufs = s.w.bufs ++ x.moves s.k env.proc) (hbd : Bounded s.w → Bounded z.w) :
    Wrote env s [x] z where
  procv := hp
  good _ hy := mem_singleton.mp hy ▸ hg
  data := hd.trans (congrArg _ (append_nil _).symm)
  bufs := hb.trans (congrArg _ (append_nil _).symm)
  bounded := hbd

variable {src : List UInt8}

theorem wput_ok (h : Ser.wput env src s = (.ok (), z)) :
    ∃ cap, z = { s with w := { s.w with data := s.w.data ++ src, cap := cap } } ∧
      (Bounded s.w → Bounded z.w) := by
  rw [Ser.wput_apply] at h
  cases hroom : wroom env.reallocOk s.w.data.length s.w.cap src.length with
  | none =>
    rw [hroom] at h
    cases h
  | some cap =>
    rw [hroom] at h
    cases h
    refine ⟨cap, rfl, fun hb => ?_⟩
    have hcap := hb.cap
    -- the length is within the old capacity, or within the limit
    have hlim : cap ≤ maxMsg ∧ s.w.data.length + src.length ≤ maxMsg := by
      unfold wroom at hroom
      split at hroom
      · split at hroom
        · cases hroom
        · obtain ⟨-, e⟩ := Option.ite_none_right_eq_some.mp hroom
          cases e
          exact ⟨Nat.min_le_right _ _, by omega⟩
      · cases hroom
        exact ⟨hcap, by omega⟩
    exact ⟨hlim.1, by rw [length_append]; exact hlim.2, hb.refs, hb.bufs⟩

theorem wrote_put (h : Ser.wput env src s = (.ok (), z)) : Wrote env s [.put src] z := by
  obtain ⟨cap, rfl, hb⟩ := wput_ok h
  exact .one rfl (.put src) rfl (append_nil _).symm hb

theorem wrote_visit (h : Ser.checkstack env s = (.ok (), z)) : Wrote env s [.visit] z := by
  rw [Ser.checkstack_apply] at h
  have e : z = { s with visits := s.visits + 1 } := (congrArg Prod.snd h).symm
  subst e
  exact .one rfl .visit (append_nil _).symm (append_nil _).symm id

theorem wrote_right {h : LuaInteger} (hp : Ser.putRight env h s = (.ok (), z)) :
    Wrote env s [.right h] z := by
  unfold Ser.putRight at hp
  rw [bind_apply, get_apply] at hp
  simp only at hp
  cases hr : s.k.rightGet env.proc h with
  | none =>
    rw [hr] at hp
    cases hp
  | some r =>
    simp only [hr, bind_eq_ok, guard_eq_ok, modify_apply, Prod.mk.injEq, Ser.wbyte] at hp
    obtain ⟨⟨⟩, s1, ⟨hlen, rfl⟩, ⟨⟩, s2, h1, ⟨⟩, s3, h2, ⟨⟩, s4, h3, -, rfl⟩ := hp
    obtain ⟨c1, rfl, b1⟩ := wput_ok h1
    obtain ⟨c2, rfl, b2⟩ := wput_ok h2
    obtain ⟨c3, rfl, b3⟩ := wput_ok h3
    refine .one (Kernel.sameHolders_modPort).procv (.right hr) ?_ (append_nil _).symm fun hb => ?_
    · have hw : (Item.right h).wire s.k env.proc s.w.bufs.length = wireRight r := by
        simp only [Item.wire, hr]
      rw [hw]
      rw [append_assoc, append_assoc]
      rfl
    · have hb' := b3 (b2 (b1 hb))
      refine ⟨hb'.cap, hb'.data, ?_, hb'.bufs⟩
      show (s.w.refs ++ [_]).length ≤ maxMsgRights
      rw [length_append]
      exact of_decide_eq_true hlen

theorem wrote_move (hp : Ser.putBuf env b s = (.ok (), z)) : Wrote env s [.move b] z := by
  unfold Ser.putBuf at hp
  rw [bind_apply, get_apply] at hp
  simp only at hp
  match hlb : Ser.luabufBorrow s.k env.proc b, hp with
  | some lb, hp =>
    simp only [bind_eq_ok, guard_eq_ok, modify_apply, Prod.mk.injEq, Ser.wbyte] at hp
    obtain ⟨⟨⟩, s1, ⟨hlen, rfl⟩, ⟨⟩, s2, ⟨-, rfl⟩, ⟨⟩, s3, h1, ⟨⟩, s4, h2, -, rfl⟩ := hp
    obtain ⟨c1, rfl, b1⟩ := wput_ok h1
    obtain ⟨c2, rfl, b2⟩ := wput_ok h2
    refine .one rfl (.move hlb) (append_assoc _ _ _) ?_ fun hb => ?_
    · show s.w.bufs ++ [lb.entry] = s.w.bufs ++ (Ser.luabufBorrow s.k env.proc b).toList.map _
      rw [hlb]
      rfl
    · have hb' := b2 (b1 hb)
      refine ⟨hb'.cap, hb'.data, hb'.refs, ?_⟩
      show (s.w.bufs ++ [_]).length ≤ maxMsgBufs
      rw [length_append]
      exact of_decide_eq_true hlen

theorem wrote_copy (hp : Ser.copyBuf env b s = (.ok (), z)) : Wrote env s [.copy b] z := by
  unfold Ser.copyBuf at hp
  rw [bind_apply, get_apply] at hp
  simp only at hp
  match hlb : Ser.luabuf s.k env.proc b, hp with
  | some lb, hp =>
    simp only at hp
    match hc : lb.p, hp with
    | some c, hp =>
      simp only [Ser.putStr, bind_eq_ok, Ser.wbyte] at hp
      obtain ⟨⟨⟩, s1, h1, ⟨⟩, s2, h2, h3⟩ := hp
      obtain ⟨c1, rfl, b1⟩ := wput_ok h1
      obtain ⟨c2, rfl, b2⟩ := wput_ok h2
      obtain ⟨c3, rfl, b3⟩ := wput_ok h3
      refine .one rfl (.copy hlb hc) ?_ (append_nil _).symm fun hb => b3 (b2 (b1 hb))
      have hw : (Item.copy b).wire s.k env.proc s.w.bufs.length = wireStr c.bytes := by
        simp only [Item.wire, hlb, Option.bind_some, hc]
      rw [hw]
      rw [append_assoc, append_assoc]
      rfl

theorem runItem_wrote (h : runItem env x s = (.ok (), z)) : Wrote env s [x] z := by
  cases x with
  | visit => exact wrote_visit h
  | put bs => exact wrote_put h
  | right h' => exact wrote_right h
  | move b => exact wrote_move h
  | copy b => exact wrote_copy h
  | stop => cases h

/-- A list of items that was run to its end. -/
theorem runItems_wrote (h : runItems env l s = (.ok (), z)) : Wrote env s l z := by
  induction l generalizing s with
  | nil =>
    cases h
    exact ⟨rfl, nofun, (append_nil _).symm, (append_nil _).symm, id⟩
  | cons x l ih =>
    unfold runItems at h ih
    rw [each_cons, bind_eq_ok] at h
    obtain ⟨⟨⟩, u, h1, h2⟩ := h
    exact Wrote.append (runItem_wrote h1) (ih h2)

theorem bounded_wreserve (ok : Nat → Bool) (n : Nat) : Bounded (wreserve ok n) := by
  have hzero : Bounded WBuf.zero := ⟨by decide, by decide, by decide, by decide⟩
  unfold wreserve
  split
  · exact hzero
  · split
    · exact ⟨by show n ≤ maxMsg; omega, hzero.data, hzero.refs, hzero.bufs⟩
    · exact hzero

end Wrote

/-- What a message is once its value was serialized. -/
structure Message (env : SendEnv) (k : Kernel) (v : LVal) (w : WBuf) : Prop where
  good : ∀ x ∈ items env.heap (maxDepth + 1) v, x.Good k env.proc
  data : w.data = wire k env.proc 0 (items env.heap (maxDepth + 1) v)
  bufs : w.bufs = moved k env.proc (items env.heap (maxDepth + 1) v)
  refs : w.refs = (taken k env.proc (items env.heap (maxDepth + 1) v)).map Right.entry
  bounded : Bounded w

theorem wreserve_empty (ok : Nat → Bool) (n : Nat) :
    (wreserve ok n).data = [] ∧ (wreserve ok n).bufs = [] := by
  unfold wreserve
  split
  · exact ⟨rfl, rfl⟩
  · split <;> exact ⟨rfl, rfl⟩

theorem serialize_message {env : SendEnv} {k : Kernel} {v : LVal} {s : SerState}
    (h : serialize env (maxDepth + 1) v (env.start k v) = (.ok (), s)) : Message env k v s.w := by
  obtain ⟨z, hrun, hl, hd, ht⟩ := serialize_ok h
  have hw := runItems_wrote hrun
  obtain ⟨h1, h2⟩ := wreserve_empty env.reallocOk (sizehint env.heap v)
  have hb := hw.bounded (bounded_wreserve _ _)
  have hdata : s.w.data = wire k env.proc 0 (items env.heap (maxDepth + 1) v) := by
    rw [hd, hw.data]
    show (wreserve env.reallocOk (sizehint env.heap v)).data ++
      wire k env.proc (wreserve env.reallocOk (sizehint env.heap v)).bufs.length _ = _
    rw [h1, h2]
    rfl
  have hbufs : s.w.bufs = moved k env.proc (items env.heap (maxDepth + 1) v) := by
    rw [← hl.bufs, hw.bufs]
    show (wreserve env.reallocOk (sizehint env.heap v)).bufs ++ _ = _
    rw [h2]
    rfl
  refine ⟨hw.good, hdata, hbufs, ?_, hl.cap ▸ hb.cap, hd ▸ hb.data, hl.refs ▸ hb.refs, hl.bufs ▸ hb.bufs⟩
  rw [ht.refs, show (env.start k v).w.refs = [] from Kernel.wreserve_refs _ _, nil_append]
  rfl

end Nlos
