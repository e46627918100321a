import Nlos.Kernel.Machine

/-!
# Received whole or not at all

A receive that does not deliver gives back the handles it minted, and releases what the message
carried: `minted_undo` and `msg_dispose`, which stand behind the walk. They are reached where the
walk returns -1 or -2. A lua error leaves from inside the walk, past both, and then what the message
carried is nobody's, and what was minted stays.
-/

namespace Nlos

open Fallible Tally List

/-! ## The event a walk stops at -/

section Stops

variable {env : RecvEnv} {s u u' : DesState} {pre pre' post post' : List Ev} {e e' : Ev}

/-- No walk gets past the event. -/
theorem Ev.raises_stops {tl : List Ev} (hp : runEvs env pre s = (.ok (), u)) (hr : e.raises env u) :
    runEvs env (pre ++ e :: tl) s ≠ (.ok (), u') := by
  obtain ⟨t, ht⟩ := Ev.raises_fails hr
  rw [runEvs_append_ok hp, runEvs_cons_error ht]
  nofun

theorem stops_first {tl : List Ev} (hp : runEvs env pre s = (.ok (), u)) (hr : e.raises env u)
    (hp' : runEvs env (pre ++ tl) s = (.ok (), u')) (hl : e :: post = tl ++ e' :: post') :
    pre ++ tl = pre ∧ u' = u := by
  cases tl with
  | nil =>
    rw [append_nil] at hp' ⊢
    cases hp.symm.trans hp'
    exact ⟨rfl, rfl⟩
  | cons a tl =>
    obtain ⟨rfl, -⟩ := List.cons.inj hl
    exact absurd hp' (Ev.raises_stops hp hr)

theorem stops_unique (hl : pre ++ e :: post = pre' ++ e' :: post')
    (hp : runEvs env pre s = (.ok (), u))
    (hp' : runEvs env pre' s = (.ok (), u')) (hr : e.raises env u) (hr' : e'.raises env u') :
    pre' = pre ∧ u' = u := by
  rcases append_eq_append_iff.mp hl with ⟨tl, rfl, htl⟩ | ⟨tl, rfl, htl⟩
  · exact stops_first hp hr hp' htl
  · obtain ⟨e1, e2⟩ := stops_first hp' hr' hp htl
    exact ⟨e1.symm, e2.symm⟩

end Stops

/-! ## The message's buffers -/

section Buffers

variable {bufs : List MsgBuf}

/-- The bytes a message's buffers point at. -/
def MsgBuf.chunks (bufs : List MsgBuf) : List Chunk := bufs.filterMap (·.p)

/-- The bytes a proc's buffers point at. -/
def LuaBuf.chunks (bufs : List LuaBuf) : List Chunk := bufs.filterMap (·.p)

/-- An event moves bytes from the message to the receiver, and loses none. -/
theorem Ev.chunks_perm (e : Ev) (bufs : List MsgBuf) :
    MsgBuf.chunks bufs ~ MsgBuf.chunks (e.leaves bufs) ++ LuaBuf.chunks (e.gives bufs) := by
  cases e with
  | adopt i =>
    cases hi : bufs[i]? with
    | none => simp [leaves, gives, hi, LuaBuf.chunks]
    | some mb =>
      obtain ⟨hlt, he⟩ := List.getElem?_eq_some_iff.mp hi
      obtain ⟨l1, l2, h1, -, h2⟩ : ∃ l1 l2, bufs = l1 ++ bufs[i] :: l2 ∧ l1.length = i ∧
          bufs.set i (Des.taken mb) = l1 ++ Des.taken mb :: l2 := List.exists_of_set hlt
      rw [he] at h1
      simp only [leaves, gives, hi, h2]
      rw [h1]
      cases hp : mb.p with
      | none => simp [MsgBuf.chunks, LuaBuf.chunks, Des.taken, Des.given, hp, filterMap_append]
      | some c =>
        simp only [MsgBuf.chunks, LuaBuf.chunks, Des.taken, Des.given, hp, filterMap_append,
          filterMap_cons, filterMap_nil]
        exact perm_middle.trans (perm_append_singleton c _).symm
  | _ => simp [leaves, gives, LuaBuf.chunks]

/-- Each buffer of a message is left to it or given to the receiver. -/
theorem chunks_perm (l : List Ev) (bufs : List MsgBuf) :
    MsgBuf.chunks bufs ~ MsgBuf.chunks (bufsLeft bufs l) ++ LuaBuf.chunks (bufsGiven bufs l) := by
  induction l generalizing bufs with
  | nil => simp [bufsLeft, bufsGiven, LuaBuf.chunks]
  | cons e l ih =>
    have h1 : LuaBuf.chunks (bufsGiven bufs (e :: l)) =
        LuaBuf.chunks (e.gives bufs) ++ LuaBuf.chunks (bufsGiven (e.leaves bufs) l) :=
          filterMap_append
    rw [h1]
    refine (e.chunks_perm bufs).trans (((ih (e.leaves bufs)).append_right _).trans ?_)
    rw [append_assoc]
    exact perm_append_comm.append_left _

theorem chunks_eq_nil : MsgBuf.chunks bufs = [] ↔ ∀ mb ∈ bufs, mb.p = none := filterMap_eq_nil_iff

end Buffers

namespace Kernel

variable {k : Kernel} {i : Nat}

theorem CSteps.freed {c d : Config} (h : CSteps c d) : c.1.freed <:+ d.1.freed := by
  refine h.invariant (P := fun e => c.1.freed <:+ e.1.freed) (fun {k x k' new w} hx hc => ?_)
    (suffix_refl _)
  cases hx with
  | gone | stale | wake => exact hc
  | bufs => exact hc.trans (suffix_append _ _)
  | ref _ hw | last _ _ hw | dies _ _ _ _ hw | drops _ _ _ hw =>
    show c.1.freed <:+ k'.freed
    rw [hw.freed]
    exact hc
  | @free p =>
    show c.1.freed <:+ (k.freePort p).freed
    unfold freePort
    split <;> exact hc

theorem freed_rightDrop (k : Kernel) (i h : Nat) : k.freed <:+ (k.rightDrop i h).freed := by
  unfold rightDrop
  split
  · exact suffix_refl _
  next pr hi =>
  split
  · exact suffix_refl _
  next r hr =>
  refine IsSuffix.trans ?_ (portUnref_steps _ r.port []).freed
  simp only
  split
  · rw [beside_modPort.freed]
    exact suffix_refl _
  · exact suffix_refl _

theorem freed_mintedUndo (k : Kernel) (i : Nat) (hs : List Nat) :
    k.freed <:+ (mintedUndo k i hs).freed := by
  induction hs generalizing k with
  | nil => exact suffix_refl _
  | cons h hs ih =>
    refine IsSuffix.trans ?_ (ih (mintedUndoOne i k h))
    unfold mintedUndoOne
    simp only
    repeat' split
    all_goals first | exact suffix_refl _ | exact freed_rightDrop k i h

end Kernel

/-! ## All or nothing -/

/-- Proc `i` is as it was before a receive of `m`, and what `m` carried was released: the handles
and the count of receive rights are those it had, every reference has a holder, and each buffer was
freed since, but for those that became its own. More may have been freed with the references. -/
structure Whole (i : Nat) (m : Kmsg) (k k' : Kernel) : Prop where
  slots : ∀ h r, k'.SlotAt i h r ↔ k.SlotAt i h r
  nports : ∀ pr pr', k.procv[i]? = some pr → k'.procv[i]? = some pr' → pr'.nports = pr.nports
  refs : k'.Counted [] ∧ k'.lost = k.lost
  bufs : ∃ untaken given more, MsgBuf.chunks m.bufs ~ untaken ++ LuaBuf.chunks given ∧
    k'.ownBufs i = k.ownBufs i ++ given ∧ k'.freed = untaken.map (·.addr) ++ more ++ k.freed

/-- The walk over `m` is left by a lua error behind the events `pre` with something in hand: the
message has references, a handle was minted, or a buffer is still to be taken. -/
def Spills (env : RecvEnv) (k : Kernel) (m : Kmsg) : Prop :=
  ∃ pre e post u, (plan (maxDepth + 1) m.data).evs = pre ++ e :: post ∧
    runEvs env pre (.start k m) = (.ok (), u) ∧ e.raises env u ∧
    (m.refs ≠ [] ∨ 0 < pre.countP Ev.mints ∨ ∃ mb ∈ bufsLeft m.bufs pre, mb.p ≠ none)

namespace Kernel

variable {k k' : Kernel} {i : Nat} {S : Scope} {c d : Config} {hs : List Nat}

/-- A run that may not lose references leaves what was lost before. -/
theorem Acts.lost_same (h : Acts S c d) (hl : ∀ refs, ¬S.loses refs)
    (hw : ∀ j refs, ¬S.wipes j refs) : d.1.lost = c.1.lost := by
  refine h.invariant (P := fun c' => c'.1.lost = c.1.lost) (fun {l a b} hal ha h0 => ?_) rfl
  rcases ha.lost with e | ⟨refs, e, rfl | ⟨j, rfl⟩⟩
  · exact e.trans h0
  · exact absurd hal (hl refs)
  · exact absurd hal (hw j refs)

/-- The number of receive rights depends on the used slots. -/
theorem PortsCounted.nports_eq {pr pr' : KProc} (hn : k.PortsCounted) (hn' : k'.PortsCounted)
    (hs : ∀ h r, k'.SlotAt i h r ↔ k.SlotAt i h r) (hi : k.procv[i]? = some pr)
    (hi' : k'.procv[i]? = some pr') : pr'.nports = pr.nports := by
  rw [hn i pr hi, hn' i pr' hi']
  refine tally_eq_of_counting fun h r hne => ?_
  have hu : r.used = true := by
    by_contra hu
    exact hne (if_neg hu)
  have h1 := hs h r
  rw [slotAt_same hi, slotAt_same hi'] at h1
  exact ⟨fun e => (h1.mp ⟨e, hu⟩).1, fun e => (h1.mpr ⟨e, hu⟩).1⟩

theorem ownBufs_congr (hp : k'.procv = k.procv) : k'.ownBufs i = k.ownBufs i := by
  unfold ownBufs
  rw [hp]

theorem ownBufs_mintedUndoOne (k : Kernel) (i h : Nat) :
    (mintedUndoOne i k h).ownBufs i = k.ownBufs i := by
  cases hi : k.procv[i]? with
  | none => simp [mintedUndoOne, hi]
  | some pr =>
    obtain ⟨pr1, rfl | ⟨r, -, rfl⟩, e⟩ := procv_mintedUndoOne hi h
    · rw [ownBufs_eq (by rw [e, set_slot hi]), ownBufs_eq hi]
    · rw [ownBufs_eq (by rw [e, set_slot hi]), ownBufs_eq hi]
      rfl

theorem ownBufs_mintedUndo (k : Kernel) (i : Nat) (hs : List Nat) :
    (mintedUndo k i hs).ownBufs i = k.ownBufs i := by
  induction hs generalizing k with
  | nil => rfl
  | cons h hs ih => exact (ih (mintedUndoOne i k h)).trans (ownBufs_mintedUndoOne k i h)

end Kernel

/-! ## The two ways a walk fails -/

section Fails

variable {env : RecvEnv} {k : Kernel} {m : Kmsg} {x : Fault} {s : DesState} {pre : List Ev}

theorem undone_whole (hc : k.Counted (m.refs.map .ref)) (hn : k.PortsCounted)
    (hd : deserialize env (maxDepth + 1) (.start k m) = (.error x, s)) :
    Whole env.proc m k
      ((mintedUndo s.k env.proc s.minted).msgDispose { m with bufs := s.bufs }) := by
  obtain ⟨pre, e, post, u, -, -, ho, -⟩ := deserialize_opened hd
  obtain ⟨hs, hm, -, hg⟩ := ho.handles
  have hm' : s.minted = hs := hm
  obtain ⟨hslots, -⟩ := Kernel.mintedUndo_spec hg.nodup hg.used
  generalize hk' : (mintedUndo s.k env.proc s.minted).msgDispose { m with bufs := s.bufs } = k'
  have hacts : Kernel.Acts { drops := fun _ _ _ => True } (k, m.refs.map .ref) (k', []) := by
    have h1 := Kernel.undone_acts (S := { drops := fun _ _ _ => True }) Kernel.plain_nil trivial
      (fun _ _ => trivial) hd
    rw [hk', append_nil] at h1
    exact h1
  have hprocv : k'.procv = (mintedUndo s.k env.proc hs).procv := by
    rw [← hk', hm']
    exact (Kernel.sameHolders_msgFree _ _).procv
  have hsame : ∀ h r, k'.SlotAt env.proc h r ↔ k.SlotAt env.proc h r := by
    intro h r
    have h1 : k'.SlotAt env.proc h r ↔ (mintedUndo s.k env.proc hs).SlotAt env.proc h r :=
      ⟨fun hr => hr.congr hprocv.symm, fun hr => hr.congr hprocv⟩
    rw [h1, hslots]
    constructor
    · rintro ⟨hr, hnot⟩
      exact (hg.only hr).resolve_right fun e => hnot ⟨rfl, e.2⟩
    · intro hr
      exact ⟨hg.kept hr, fun e => hg.fresh h e.2 r hr⟩
  refine ⟨hsame, fun pr pr' hi hi' => ?_, ⟨?_, ?_⟩, ?_⟩
  · exact Kernel.PortsCounted.nports_eq hn (hacts.nports hn) hsame hi hi'
  · exact hacts.counted hc (Kernel.frees_refs _)
  · exact hacts.lost_same (fun _ => id) fun _ _ => id
  · -- `msg_dispose` frees the buffers that are left, behind whatever goes with the references
    have hgrown : k.freed <:+
        ((mintedUndo s.k env.proc s.minted).releaseInflight m.refs).freed := by
      have h1 := Kernel.freed_mintedUndo s.k env.proc s.minted
      rw [show s.k.freed = k.freed from ho.freed] at h1
      exact h1.trans (Kernel.releaseInflight_steps _ m.refs []).freed
    obtain ⟨more, hmore⟩ := hgrown
    refine ⟨_, _, more, chunks_perm pre m.bufs, ?_, ?_⟩
    · rw [Kernel.ownBufs_congr hprocv, Kernel.ownBufs_mintedUndo, ho.own]
      rfl
    · rw [← hk', append_assoc, hmore]
      show (MsgBuf.chunks s.bufs).map (·.addr) ++ _ = _
      rw [ho.bufs]
      rfl

theorem raised_whole_iff (hc : k.Counted (m.refs.map .ref)) (hn : k.PortsCounted)
    (ho : Opened env.proc (.start k m) pre s) :
    Whole env.proc m k { s.k with lost := m.refs ++ s.k.lost } ↔
      ¬(m.refs ≠ [] ∨ 0 < pre.countP Ev.mints ∨ ∃ mb ∈ bufsLeft m.bufs pre, mb.p ≠ none) := by
  obtain ⟨hs, -, hlen, hg⟩ := ho.handles
  have hown : s.k.ownBufs env.proc = k.ownBufs env.proc ++ bufsGiven m.bufs pre := ho.own
  have hfreed : s.k.freed = k.freed := ho.freed
  have hlost : s.k.lost = k.lost := ho.lost
  constructor
  · rintro ⟨hslots, -, ⟨-, hrefs⟩, hbufs⟩ (h1 | h1 | ⟨mb, hmb, hp⟩)
    · have hrefs' : m.refs ++ s.k.lost = k.lost := hrefs
      rw [hlost] at hrefs'
      exact h1 (append_left_eq_self.mp hrefs')
    · -- a handle that was minted is one the receiver did not have
      rw [← hlen] at h1
      obtain ⟨h, hmem⟩ := exists_mem_of_length_pos h1
      obtain ⟨r, hr⟩ := hg.used h hmem
      exact hg.fresh h hmem r ((hslots h r).mp hr)
    · -- nothing was freed, so the receiver would have all of them
      obtain ⟨untaken, given, more, hperm, hgiven, hmore⟩ := hbufs
      have hnone : untaken = [] := by
        have h2 : s.k.freed = untaken.map (·.addr) ++ more ++ k.freed := hmore
        rw [hfreed] at h2
        exact map_eq_nil_iff.mp (append_eq_nil_iff.mp (append_left_eq_self.mp h2.symm)).1
      have hall : given = bufsGiven m.bufs pre := append_cancel_left (hgiven.symm.trans hown)
      rw [hnone, nil_append, hall] at hperm
      have hlen := (hperm.symm.trans (chunks_perm pre m.bufs)).length_eq
      rw [length_append] at hlen
      have hleft : MsgBuf.chunks (bufsLeft m.bufs pre) = [] := length_eq_zero_iff.mp (by omega)
      exact hp (chunks_eq_nil.mp hleft mb hmb)
  · intro hnot
    obtain ⟨h1, h2, h3⟩ : m.refs = [] ∧ pre.countP Ev.mints = 0 ∧ ∀ mb ∈ bufsLeft m.bufs pre,
        mb.p = none := by
      simpa [not_or] using hnot
    rw [h2] at hlen
    obtain rfl := length_eq_zero_iff.mp hlen
    have hsame : ∀ h r, s.k.SlotAt env.proc h r ↔ k.SlotAt env.proc h r := fun h r =>
      ⟨fun hr => (hg.only hr).resolve_right fun e => not_mem_nil e.2, hg.kept⟩
    have hacts : Kernel.Acts {} (k, []) (s.k, []) := ho.acts Kernel.plain_nil
    rw [h1] at hc
    refine ⟨hsame, fun pr pr' hi hi' => ?_, ⟨?_, ?_⟩, [], bufsGiven m.bufs pre, [], ?_, hown, hfreed⟩
    · exact Kernel.PortsCounted.nports_eq hn (hacts.nports hn) hsame hi hi'
    · rw [h1]
      exact hacts.counted hc rfl
    · rw [h1]
      exact hlost
    · have hperm := chunks_perm pre m.bufs
      rwa [chunks_eq_nil.mpr h3] at hperm

end Fails

def rightThenTrue : LuaHeap where
  tables
    | 0 => [(.int 1, .table 1), (.int 2, .bool true)]
    | 1 => [(.str rightKey, .int 1)]
    | _ => []
  nodup
    | 0 => by decide
    | 1 => by decide
    | _ + 2 => nodup_nil
  keys
    | 0 => by decide
    | 1 => by decide
    | _ + 2 => nofun
  vals
    | 0 => by decide
    | 1 => by decide
    | _ + 2 => nofun

/-- A proc with a port, and that table queued on it. -/
def rightQueued : List Op :=
  [.spawnInit Sample.newEnv, Sample.newport 0, .send (Sample.sendEnv 0 rightThenTrue) 1 (.table 0)]

/-- A receive whose lua has stack for the first four values. -/
def fourDeep : RecvEnv := { Sample.recvEnv 0 with stackOk := fun n => decide (n < 4) }

/-- A receive whose lua has memory for one table. -/
def oneTable : RecvEnv := { Sample.recvEnv 0 with allocOk := fun n => decide (n < 1) }

def faultOf (r : Except Fault RVal × Kernel) : Option Fault :=
  match r.1 with
  | .ok _ => none
  | .error x => some x

theorem faultOf_some {r : Except Fault RVal × Kernel} {x : Fault} (h : faultOf r = some x) :
    r = (.error x, r.2) := by
  match r, h with
  | (.error x, k), rfl => rfl

end Nlos
