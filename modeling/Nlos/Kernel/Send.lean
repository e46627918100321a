import Nlos.Kernel.Walk
import Nlos.Kernel.Safety

/-!
# What a send takes and what it gives back

A walk takes a reference for each right it gets to and notes it in the buffer, and it takes
nothing else: `serialize_ok`, `serialize_error`. So whoever holds the buffer can give back exactly
what was taken.
-/

namespace Nlos

open Bytes Fallible List

def Right.entry (r : Right) : InRef := ⟨r.port.idx, r.recv⟩

namespace Kernel

def takeRefs (k : Kernel) (rs : List Right) : Kernel :=
  rs.foldl (fun k r => k.modPort r.port (addRef r.recv)) k

variable {k : Kernel} {i : Nat} {h : LuaInteger} {r : Right}

theorem takeRefs_append (k : Kernel) (rs rs' : List Right) :
    k.takeRefs (rs ++ rs') = (k.takeRefs rs).takeRefs rs' :=
  foldl_append

theorem sameHolders_takeRefs (k : Kernel) (rs : List Right) : SameHolders k (k.takeRefs rs) := by
  induction rs generalizing k with
  | nil => exact .refl k
  | cons r rs ih => exact sameHolders_modPort.trans (ih _)

theorem sch_takeRefs (k : Kernel) (rs : List Right) : (k.takeRefs rs).sch = k.sch := by
  induction rs generalizing k with
  | nil => rfl
  | cons r rs ih => exact (ih _).trans sch_modPort

theorem rightGet_congr {k' : Kernel} (hp : k'.procv = k.procv) (i : Nat) (h : LuaInteger) :
    k'.rightGet i h = k.rightGet i h := by
  unfold rightGet
  rw [hp]

theorem rightGet_some (hr : k.rightGet i h = some r) :
    k.SlotAt i (cInt h).toNat r ∧ 0 ≤ cInt h ∧ cInt h < maxRights := by
  unfold rightGet at hr
  split at hr
  · cases hr
  next pr hpr =>
  split at hr
  · cases hr
  next r' hr' =>
  split at hr
  next hu =>
    cases hr
    unfold RightTable.rightSlot at hr'
    split at hr'
    · cases hr'
    · exact ⟨⟨pr, hpr, hr', hu⟩, by omega, by omega⟩
  · cases hr

end Kernel

open Kernel

/-! ## What the items take -/

def Item.takes (k : Kernel) (i : Nat) : Item → List Right
  | .right h => (k.rightGet i h).toList
  | _ => []

def Item.lends : Item → List Nat
  | .move b => [b]
  | _ => []

def taken (k : Kernel) (i : Nat) (l : List Item) : List Right := l.flatMap (Item.takes k i)

def lent (l : List Item) : List Nat := l.flatMap Item.lends

structure Through (i : Nat) (s : SerState) (l : List Item) (s' : SerState) : Prop where
  k : s'.k = s.k.takeRefs (taken s.k i l)
  refs : s'.w.refs = s.w.refs ++ (taken s.k i l).map Right.entry
  bufown : s'.w.bufown = s.w.bufown ++ lent l

section Through

variable {env : SendEnv} {i : Nat} {s s' s'' : SerState} {l l' : List Item} {e : Stop}

theorem taken_congr {k k' : Kernel} (hp : k'.procv = k.procv) (i : Nat) (l : List Item) :
    taken k' i l = taken k i l := by
  unfold taken
  congr 1
  funext x
  cases x with
  | right h => exact congrArg Option.toList (rightGet_congr hp i h)
  | _ => rfl

theorem Through.procv (h : Through i s l s') : s'.k.procv = s.k.procv := by
  rw [h.k]
  exact (sameHolders_takeRefs _ _).procv

theorem Through.nil (i : Nat) (s : SerState) : Through i s [] s :=
  ⟨rfl, (append_nil _).symm, (append_nil _).symm⟩

theorem Through.append (h : Through i s l s') (h' : Through i s' l' s'') :
    Through i s (l ++ l') s'' := by
  have e : taken s'.k i l' = taken s.k i l' := taken_congr h.procv i l'
  have ht : taken s.k i (l ++ l') = taken s.k i l ++ taken s.k i l' := flatMap_append
  refine ⟨?_, ?_, ?_⟩
  · rw [h'.k, e, h.k, ht, takeRefs_append]
  · rw [h'.refs, h.refs, e, ht, map_append, append_assoc]
  · rw [h'.bufown, h.bufown, append_assoc]
    congr 1
    exact (flatMap_append).symm

theorem through_same (hk : s'.k = s.k) (hr : s'.w.refs = s.w.refs) (hb : s'.w.bufown = s.w.bufown)
    (ht : taken s.k i l = []) (hl : lent l = []) : Through i s l s' := by
  refine ⟨?_, ?_, ?_⟩
  · rw [ht, hk]
    rfl
  · rw [ht, hr]
    exact (append_nil _).symm
  · rw [hl, hb]
    exact (append_nil _).symm

/-- Same kernel, entries and buffers: only bytes, capacity and visits may differ. -/
structure Quiet (s s' : SerState) : Prop where
  k : s'.k = s.k
  refs : s'.w.refs = s.w.refs
  bufs : s'.w.bufs = s.w.bufs
  bufown : s'.w.bufown = s.w.bufown

theorem Quiet.refl (s : SerState) : Quiet s s := ⟨rfl, rfl, rfl, rfl⟩

theorem Quiet.trans (h : Quiet s s') (h' : Quiet s' s'') : Quiet s s'' :=
  ⟨h'.k.trans h.k, h'.refs.trans h.refs, h'.bufs.trans h.bufs, h'.bufown.trans h.bufown⟩

/-- The routine stops with -1 and leaves things quiet, or ends by applying `f`. -/
def Ends (f : SerState → SerState) (m : Ser Unit) : Prop :=
  ∀ s, match m s with
    | (.ok _, s') => ∃ u, Quiet s u ∧ s' = f u
    | (.error e, s') => e = .reject ∧ Quiet s s'

theorem ends_modify (f : SerState → SerState) : Ends f (modify f) := fun s => ⟨s, .refl s, rfl⟩

theorem ends_fail (f : SerState → SerState) : Ends f (fail .reject) := fun s => ⟨rfl, .refl s⟩

variable {m : Ser Unit} {x : Item} {d : Nat} {v : LVal}

theorem Ends.after {f : SerState → SerState} {n : Ser Unit} (hm : Ends id m) (hn : Ends f n) :
    Ends f (m >>= fun _ => n) := by
  intro s
  rw [bind_apply]
  match m s, hm s with
  | (.ok _, _), ⟨s1, hq, rfl⟩ =>
    simp only [id]
    match n s1, hn s1 with
    | (.ok _, _), ⟨u, hq', e⟩ => exact ⟨u, hq.trans hq', e⟩
    | (.error _, _), ⟨e, hq'⟩ => exact ⟨e, hq.trans hq'⟩
  | (.error _, _), h1 => exact h1

theorem ends_guard (b : Bool) : Ends id (guard b .reject) := by
  cases b with
  | true => exact fun s => ⟨s, .refl s, rfl⟩
  | false => exact ends_fail id

theorem ends_wput (src : List UInt8) : Ends id (Ser.wput env src) := by
  intro s
  rw [Ser.wput_apply]
  cases wroom env.reallocOk s.w.data.length s.w.cap src.length with
  | none => exact ⟨rfl, .refl s⟩
  | some cap => exact ⟨_, by exact ⟨rfl, rfl, rfl, rfl⟩, rfl⟩

theorem ends_putStr (bs : List UInt8) : Ends id (Ser.putStr env bs) :=
  (ends_wput _).after ((ends_wput _).after (ends_wput _))

theorem ends_checkstack : Ends id (Ser.checkstack env) := by
  intro s
  rw [Ser.checkstack_apply]
  cases env.stackOk s.visits with
  | true => exact ⟨_, by exact ⟨rfl, rfl, rfl, rfl⟩, rfl⟩
  | false => exact ⟨rfl, rfl, rfl, rfl, rfl⟩

/-- What running one item does: it gets through and takes what the item says, it stops with -1, or
it meets a bare buffer that was given away. -/
inductive Ran (env : SendEnv) (s : SerState) (x : Item) : Except Stop Unit × SerState → Prop where
  | done {s' : SerState} (h : Through env.proc s [x] s') : Ran env s x (.ok (), s')
  | reject {s' : SerState} (h : Quiet s s') : Ran env s x (.error .reject, s')
  | raise {b : Nat} {lb : LuaBuf} (hx : x = .copy b) (hb : Ser.luabuf s.k env.proc b = some lb)
      (hp : lb.p = none) : Ran env s x (.error .raise, s)

theorem Quiet.through (h : Quiet s s') (ht : x.takes s.k i = []) (hl : x.lends = []) :
    Through i s [x] s' :=
  through_same h.k h.refs h.bufown (by simp [taken, ht]) (by simp [lent, hl])

theorem Ends.ran_of {f : SerState → SerState} (hm : Ends f m)
    (h : ∀ u, Quiet s u → Through env.proc s [x] (f u)) : Ran env s x (m s) := by
  match m s, hm s with
  | (.ok _, _), ⟨u, hq, rfl⟩ => exact .done (h u hq)
  | (.error _, _), ⟨rfl, hq⟩ => exact .reject hq

theorem Ends.ran (hm : Ends id m) (ht : x.takes s.k env.proc = [])
    (hl : x.lends = []) : Ran env s x (m s) :=
  hm.ran_of fun _ hq => hq.through ht hl

theorem putRight_ran (h : LuaInteger) (s : SerState) :
    Ran env s (.right h) (Ser.putRight env h s) := by
  unfold Ser.putRight
  rw [bind_apply, get_apply]
  simp only
  cases hr : s.k.rightGet env.proc h with
  | none => exact .reject (.refl s)
  | some r =>
    have hm : Ends (Ser.takeRef r) (do
        guard (decide (s.w.refs.length < maxMsgRights)) .reject
        Ser.wbyte env 'R'.toUInt8
        Ser.wput env (le 2 r.port.idx)
        Ser.wbyte env (if r.recv then 1 else 0)
        modify (Ser.takeRef r)) :=
      (ends_guard _).after ((ends_wput _).after ((ends_wput _).after ((ends_wput _).after
        (ends_modify _))))
    have ht : taken s.k env.proc [.right h] = [r] := by simp [taken, Item.takes, hr]
    refine hm.ran_of fun u hq => ⟨?_, ?_, ?_⟩
    · rw [ht]
      show u.k.modPort r.port (addRef r.recv) = _
      rw [hq.k]
      rfl
    · rw [ht]
      show u.w.refs ++ [r.entry] = _
      rw [hq.refs]
      rfl
    · show u.w.bufown = _
      rw [hq.bufown]
      exact (append_nil _).symm

theorem putBuf_ran (b : Nat) (s : SerState) : Ran env s (.move b) (Ser.putBuf env b s) := by
  unfold Ser.putBuf
  rw [bind_apply, get_apply]
  simp only
  cases hb : Ser.luabufBorrow s.k env.proc b with
  | none => exact .reject (.refl s)
  | some lb =>
    have hm : Ends (Ser.lendBuf b lb) (do
        guard (decide (s.w.bufs.length < maxMsgBufs)) .reject
        guard (!s.w.bufown.contains b) .reject
        Ser.wbyte env 'M'.toUInt8
        Ser.wbyte env (UInt8.ofNat s.w.bufs.length)
        modify (Ser.lendBuf b lb)) :=
      (ends_guard _).after ((ends_guard _).after ((ends_wput _).after ((ends_wput _).after
        (ends_modify _))))
    refine hm.ran_of fun u hq => ⟨hq.k, ?_, ?_⟩
    · show u.w.refs = _
      rw [hq.refs]
      exact (append_nil _).symm
    · show u.w.bufown ++ [b] = _
      rw [hq.bufown]
      rfl

theorem copyBuf_ran (b : Nat) (s : SerState) : Ran env s (.copy b) (Ser.copyBuf env b s) := by
  unfold Ser.copyBuf
  rw [bind_apply, get_apply]
  simp only
  cases hb : Ser.luabuf s.k env.proc b with
  | none => exact .reject (.refl s)
  | some lb =>
    simp only
    cases hp : lb.p with
    | none => exact .raise rfl hb hp
    | some c => exact (ends_putStr c.bytes).ran rfl rfl

theorem runItem_ran (env : SendEnv) (x : Item) (s : SerState) : Ran env s x (runItem env x s) := by
  cases x with
  | visit => exact ends_checkstack.ran rfl rfl
  | put bs => exact (ends_wput bs).ran rfl rfl
  | right h => exact putRight_ran h s
  | move b => exact putBuf_ran b s
  | copy b => exact copyBuf_ran b s
  | stop => exact .reject (.refl s)

theorem runItems_through (h : runItems env l s = (.ok (), s')) : Through env.proc s l s' := by
  induction l generalizing s with
  | nil =>
    cases h
    exact .nil _ _
  | cons x l ih =>
    unfold runItems at h ih
    rw [each_cons, bind_eq_ok] at h
    obtain ⟨⟨⟩, u, h1, h2⟩ := h
    have hr := runItem_ran env x s
    rw [h1] at hr
    cases hr with
    | done ht => exact Through.append ht (ih h2)

/-! ## What the walk takes -/

/-- A walk that returned got through every item, and wrote the items' bytes. -/
theorem serialize_ok (h : serialize env d v s = (.ok (), s')) :
    ∃ z, runItems env (items env.heap d v) s = (.ok (), z) ∧ Level s' z ∧
      s'.w.data = z.w.data ∧ Through env.proc s (items env.heap d v) s' := by
  have ha := serialize_flows env d v s s (.refl s)
  rw [h] at ha
  match hz : runItems env (items env.heap d v) s, ha with
  | (.ok _, z), ⟨hl, bs, e1, e2⟩ =>
    have ht := runItems_through hz
    exact ⟨z, rfl, hl, e1.trans e2.symm, hl.k.symm.trans ht.k, hl.refs.symm.trans ht.refs,
      hl.bufown.symm.trans ht.bufown⟩

/-- A walk that stopped got through the items before the one it stopped at. -/
theorem serialize_error (h : serialize env d v s = (.error e, s')) :
    ∃ pre x post u t, items env.heap d v = pre ++ x :: post ∧ runItems env pre s = (.ok (), u) ∧
      runItem env x u = (.error e, t) ∧ Through env.proc s pre s' := by
  have ha := serialize_flows env d v s s (.refl s)
  rw [h] at ha
  match hz : runItems env (items env.heap d v) s, ha with
  | (.error _, z), ⟨rfl, hl⟩ =>
    obtain ⟨pre, x, post, u, he, h1, h2⟩ := each_eq_error.mp hz
    have ht := runItems_through h1
    have hq : Quiet u z := by
      have hr := runItem_ran env x u
      rw [h2] at hr
      cases hr with
      | reject hq => exact hq
      | raise => exact .refl _
    exact ⟨pre, x, post, u, z, he, h1, h2, hl.k.symm.trans (hq.k.trans ht.k),
      hl.refs.symm.trans (hq.refs.trans ht.refs), hl.bufown.symm.trans (hq.bufown.trans ht.bufown)⟩

/-- The walk from `s` gets to a bare `los.buf` whose bytes were given away: it comes through every
item in front of it. -/
def MeetsGone (env : SendEnv) (d : Nat) (s : SerState) (v : LVal) : Prop :=
  ∃ pre b post u lb, items env.heap d v = pre ++ .copy b :: post ∧
    runItems env pre s = (.ok (), u) ∧ Ser.luabuf s.k env.proc b = some lb ∧ lb.p = none

theorem luabuf_congr {k k' : Kernel} (hp : k'.procv = k.procv) (i b : Nat) :
    Ser.luabuf k' i b = Ser.luabuf k i b := by
  unfold Ser.luabuf
  rw [hp]

theorem serialize_raise_iff :
    (∃ s', serialize env d v s = (.error .raise, s')) ↔ MeetsGone env d s v := by
  constructor
  · rintro ⟨s', h⟩
    obtain ⟨pre, x, post, u, t, he, h1, h2, -⟩ := serialize_error h
    have hr := runItem_ran env x u
    rw [h2] at hr
    cases hr with
    | @raise b lb hx hb hp =>
      subst hx
      rw [luabuf_congr (runItems_through h1).procv] at hb
      exact ⟨pre, b, post, u, lb, he, h1, hb, hp⟩
  · rintro ⟨pre, b, post, u, lb, he, h1, hb, hp⟩
    have hcopy : runItem env (.copy b) u = (.error .raise, u) := by
      rw [← luabuf_congr (runItems_through h1).procv] at hb
      show Ser.copyBuf env b u = _
      unfold Ser.copyBuf
      rw [bind_apply, get_apply]
      simp only [hb, hp]
      rfl
    have hz : runItems env (items env.heap d v) s = (.error .raise, u) :=
      each_eq_error.mpr ⟨pre, .copy b, post, u, he, h1, hcopy⟩
    have ha := serialize_flows env d v s s (.refl s)
    rw [hz] at ha
    match serialize env d v s, ha with
    | (.error _, s'), ⟨rfl, _⟩ => exact ⟨s', rfl⟩

end Through

/-! ## A send as a run of actions -/

namespace Kernel

variable {k : Kernel} {i : Nat} {S : Scope} {w : List Work} {p : PortRef}

theorem SlotAt.congr {k' : Kernel} {h : Nat} {r : Right} (hs : k.SlotAt i h r)
    (hp : k'.procv = k.procv) : k'.SlotAt i h r := by
  obtain ⟨pr, hpr, hr⟩ := hs
  exact ⟨pr, hp ▸ hpr, hr⟩

theorem Counted.slotAt_portOf {h : Nat} {r : Right} (hc : k.Counted w) (hs : k.SlotAt i h r) :
    ∃ q, k.portOf r.port = some q := by
  obtain ⟨pr, hpr, hr, hu⟩ := hs
  exact hc.slot_live hpr hr hu

variable {refs : List InRef} {data : List UInt8} {bufs : List MsgBuf} {ok : Bool}

theorem takeRefs_acts {rs : List Right} (hw : Plain w)
    (hc : k.Counted (refs.map .ref ++ w)) (hs : ∀ r ∈ rs, ∃ h, k.SlotAt i h r) :
    Acts S (k, refs.map .ref ++ w) (k.takeRefs rs, (refs ++ rs.map Right.entry).map .ref ++ w) := by
  induction rs generalizing k refs with
  | nil =>
    rw [map_nil, append_nil]
    exact .refl
  | cons r rs ih =>
    obtain ⟨h, hr⟩ := hs r mem_cons_self
    obtain ⟨q, hq⟩ := hc.slotAt_portOf hr
    have ha : Act .take (k, refs.map .ref ++ w)
        (k.modPort r.port (addRef r.recv), refs.map .ref ++ .ref r.entry :: w) :=
      .take (plain_refs hw) hq
    have e : refs.map .ref ++ Work.ref r.entry :: w = (refs ++ [r.entry]).map .ref ++ w := by
      rw [map_append, append_assoc]
      rfl
    rw [e] at ha
    have hc' := ha.counted nofun hc
    refine (Acts.one ha trivial).trans ?_
    have h2 := @ih _ (refs ++ [r.entry]) hc' fun r' hr' => by
      obtain ⟨h', hs'⟩ := hs r' (mem_cons_of_mem _ hr')
      exact ⟨h', hs'.congr (sameHolders_modPort).procv⟩
    rw [append_assoc] at h2
    exact h2

theorem releaseInflight_acts (hS : S.works) (refs : List InRef) :
    Acts S (k, refs.map .ref ++ w) (k.releaseInflight refs, w) :=
  .of_steps hS (releaseInflight_steps k refs w)

theorem wake_acts (hw : Plain w) (send : Bool) (hl : k.live p = true) :
    Acts S (k, w) (k.wake send p, w) := by
  have h1 : Acts S (k, w) (k.touch p, w) := .one (.touch hw hl) trivial
  have h2 : Act .skip (k.touch p, w) (k.wake send p, w) :=
    .sched hw (by
      rw [hl]
      exact .wake send p)
  exact h1.trans (Acts.one h2 trivial)

theorem portPushOwned_ok {k' : Kernel} (hw : Plain w) (hS : refs = [] ∨ S.sends)
    (h : portPushOwned ok k p data refs bufs = (.ok, k')) :
    Acts S (k, refs.map .ref ++ w) (k', w) := by
  unfold portPushOwned at h
  split at h
  · cases h
  next q hq =>
  split at h
  · cases h
  simp only at h
  split at h
  · cases h
  next hfit =>
  split at h
  · cases h
    exact Acts.one (.enqueue (m := ⟨data, bufs, data.length + msgbufsBytes bufs, refs⟩) hw hq
      (Nat.le_of_not_lt hfit)) hS
  · cases h

theorem portPushOwned_refused {rc : Push} {k' : Kernel} {q : KPort} (hw : Plain w)
    (hq : k.portOf p = some q)
    (h : portPushOwned ok k p data refs bufs = (rc, k')) (hrc : rc ≠ .ok) :
    Acts S (k, w) (k', w) := by
  unfold portPushOwned at h
  rw [hq] at h
  simp only at h
  split at h
  · cases h
    exact .one (.poke hw hq rfl rfl rfl rfl rfl) trivial
  split at h
  · cases h
    exact .one (.poke hw hq rfl rfl rfl rfl rfl) trivial
  split at h
  · cases h
    exact absurd rfl hrc
  · cases h
    exact .one (.touch hw (live_of_portOf hq)) trivial

theorem luabufDetach_acts (hw : Plain w) (b : Nat) : Acts S (k, w) (luabufDetach i k b, w) := by
  unfold luabufDetach
  split
  · exact .refl
  next pr hpr =>
  split
  · exact .refl
  · exact .one (.proc hw hpr ⟨rfl, rfl, rfl, rfl, rfl⟩) trivial

theorem luabufDetach_all (hw : Plain w) (bs : List Nat) :
    Acts S (k, w) (bs.foldl (luabufDetach i) k, w) := by
  induction bs generalizing k with
  | nil => exact .refl
  | cons b bs ih => exact (luabufDetach_acts hw b).trans ih

/-- Every right the items take is one the proc holds. -/
theorem slotAt_of_taken {l : List Item} {r : Right} (hr : r ∈ taken k i l) :
    ∃ h, k.SlotAt i h r := by
  obtain ⟨x, -, hx⟩ := mem_flatMap.mp hr
  cases x with
  | right h => exact ⟨_, (rightGet_some (Option.mem_toList.mp hx)).1⟩
  | _ => cases hx

/-- A walk, however it ends, as the references it takes. -/
theorem through_acts {s s' : SerState} {l : List Item} (ht : Through i s l s') (hw : Plain w)
    (hc : s.k.Counted (s.w.refs.map .ref ++ w)) :
    Acts S (s.k, s.w.refs.map .ref ++ w) (s'.k, s'.w.refs.map .ref ++ w) := by
  rw [ht.k, ht.refs]
  exact takeRefs_acts hw hc fun r hr => slotAt_of_taken hr

theorem wreserve_refs (ok : Nat → Bool) (n : Nat) : (wreserve ok n).refs = [] := by
  unfold wreserve
  split
  · rfl
  · split <;> rfl

/-- `port_send_from_lua`: references are taken, and queued or given back. A lua error out of the
walk loses them. -/
theorem portSendFromLua_calls {env : SendEnv} {v : LVal} {h : Nat} {r : Right} (hw : Plain w)
    (hc : k.Counted w) (hr : k.SlotAt env.proc h r) (hworks : S.works) (hsends : S.sends)
    (hloses : MeetsGone env (maxDepth + 1) (env.start k v) v → ∀ refs, S.loses refs) :
    Calls S w k (portSendFromLua env k r.port v).2 := by
  have hstart : (env.start k v).w.refs = [] := wreserve_refs _ _
  have walk : ∀ {l : List Item} {s' : SerState}, Through env.proc (env.start k v) l s' →
      Acts S.first (k, w) (s'.k, s'.w.refs.map .ref ++ w) := fun ht => by
    have h1 := through_acts (S := S.first) ht hw (by rw [hstart]; exact hc)
    rw [hstart] at h1
    exact h1
  have release : ∀ {k : Kernel} (refs : List InRef),
      Acts S.first (k, refs.map .ref ++ w) (k.releaseInflight refs, w) := fun refs =>
    releaseInflight_acts (S := S.first) hworks refs
  unfold portSendFromLua
  match hser : serialize env (maxDepth + 1) v (env.start k v) with
  | (.error .raise, s') =>
    obtain ⟨pre, x, post, u, t, -, -, -, ht⟩ := serialize_error hser
    have hl := hloses (serialize_raise_iff.mp ⟨s', hser⟩) s'.w.refs
    exact Acts.calls ((walk ht).trans (Acts.one (.lose hw) hl))
  | (.error .reject, s') =>
    obtain ⟨pre, x, post, u, t, -, -, -, ht⟩ := serialize_error hser
    exact Acts.calls ((walk ht).trans (release s'.w.refs))
  | (.ok (), s') =>
    obtain ⟨z, -, -, -, ht⟩ := serialize_ok hser
    have h1 := walk ht
    have hc' : s'.k.Counted (s'.w.refs.map .ref ++ w) := h1.counted hc hw.frees
    obtain ⟨q, hq⟩ := hc'.slotAt_portOf (hr.congr ht.procv)
    have refused : ∀ {rc : Push} {k' : Kernel}, portPushOwned env.kmsgOk s'.k r.port s'.w.data
        s'.w.refs s'.w.bufs = (rc, k') → rc ≠ .ok → Calls S w k (k'.releaseInflight s'.w.refs) :=
      fun hp hrc => Acts.calls ((h1.trans
        (portPushOwned_refused (plain_refs hw) hq hp hrc)).trans (release s'.w.refs))
    simp only
    match hpush : portPushOwned env.kmsgOk s'.k r.port s'.w.data s'.w.refs s'.w.bufs with
    | (.ok, k') =>
      exact ⟨_, h1, (portPushOwned_ok (S := S.last) hw (.inr hsends) hpush).trans
        (luabufDetach_all hw _)⟩
    | (.nomem, k') => exact refused hpush nofun
    | (.full, k') => exact refused hpush nofun
    | (.dead, k') => exact refused hpush nofun

end Kernel

end Nlos
