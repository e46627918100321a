import Nlos.Kernel.Plan
import Nlos.Kernel.Rights

/-!
# Receiving, as a run of actions

What a walk over a message has done by the time it ends, however it ends: the handles it has minted,
the buffers it has taken, and nothing else (`Opened`). From that, `msg_to_lua` and the calls that
receive are runs of actions. A lua error out of the walk (`RunsOut`) is the one way a receive loses
the references of its message.
-/

namespace Nlos

open Fallible List

/-! ## What the events do -/

namespace Kernel

/-- Proc `i` holds the handles `hs` in `k'` that it did not hold in `k`, and nothing else changed
hands. -/
structure Gained (i : Nat) (k : Kernel) (hs : List Nat) (k' : Kernel) : Prop where
  nodup : hs.Nodup
  fresh : ∀ h ∈ hs, k.Vacant i h
  used : ∀ h ∈ hs, ∃ r, k'.SlotAt i h r
  kept : ∀ {j h r}, k.SlotAt j h r → k'.SlotAt j h r
  only : ∀ {j h r}, k'.SlotAt j h r → k.SlotAt j h r ∨ j = i ∧ h ∈ hs

variable {i : Nat} {k k' k'' : Kernel} {hs hs' : List Nat}

theorem Gained.of_same (h : ∀ {j h r}, k'.SlotAt j h r ↔ k.SlotAt j h r) : Gained i k [] k' :=
  ⟨nodup_nil, nofun, nofun, h.mpr, fun hr => .inl (h.mp hr)⟩

theorem Gained.refl (k : Kernel) : Gained i k [] k := .of_same Iff.rfl

theorem Gained.trans (h : Gained i k hs k') (g : Gained i k' hs' k'') :
    Gained i k (hs ++ hs') k'' where
  nodup := by
    refine nodup_append.mpr ⟨h.nodup, g.nodup, ?_⟩
    rintro a ha b hb rfl
    obtain ⟨r, hr⟩ := h.used a ha
    exact g.fresh a hb r hr
  fresh a ha := by
    rcases mem_append.mp ha with ha | ha
    · exact h.fresh a ha
    · exact fun r hr => g.fresh a ha r (h.kept hr)
  used a ha := by
    rcases mem_append.mp ha with ha | ha
    · obtain ⟨r, hr⟩ := h.used a ha
      exact ⟨r, g.kept hr⟩
    · exact g.used a ha
  kept hr := g.kept (h.kept hr)
  only hr := by
    rcases g.only hr with hr | ⟨hj, hm⟩
    · exact (h.only hr).imp id fun hm => ⟨hm.1, mem_append_left _ hm.2⟩
    · exact .inr ⟨hj, mem_append_right _ hm⟩

def ownBufs (k : Kernel) (i : Nat) : List LuaBuf :=
  match k.procv[i]? with
  | none => []
  | some pr => pr.bufs

theorem ownBufs_eq {pr : KProc} (hi : k.procv[i]? = some pr) : k.ownBufs i = pr.bufs := by
  unfold ownBufs
  rw [hi]

variable {h : Nat} {p : PortRef} {recv : Bool}

theorem Minted.gained (hm : Minted k i p recv h k') : Gained i k [h] k' where
  nodup := pairwise_singleton _ h
  fresh _ hn := mem_singleton.mp hn ▸ hm.vacant
  used _ hn := mem_singleton.mp hn ▸ ⟨_, hm.slotAt_iff.mpr (.inr ⟨rfl, rfl, rfl⟩)⟩
  kept hr := hm.slotAt_iff.mpr (.inl hr)
  only hr := (hm.slotAt_iff.mp hr).imp id fun e => ⟨e.1, mem_singleton.mpr e.2.1⟩

theorem Minted.record {pr : KProc} (hm : Minted k i p recv h k') (hi : k.procv[i]? = some pr) :
    ∃ t, k'.procv[i]? = some (takeSlot pr t h p recv) := by
  obtain ⟨pr', t, r, hpr, -, -, -, -, -, rfl⟩ := hm.out
  rw [hi] at hpr
  cases hpr
  refine ⟨t, ?_⟩
  rw [(sameHolders_modPort).procv]
  exact Tally.set_slot hi

theorem Minted.ownBufs (hm : Minted k i p recv h k') : k'.ownBufs i = k.ownBufs i := by
  obtain ⟨pr, -, -, hpr, -⟩ := hm.out
  obtain ⟨t, h1⟩ := hm.record hpr
  rw [ownBufs_eq h1, ownBufs_eq hpr]
  rfl

end Kernel

def Ev.mints : Ev → Bool
  | .mint _ _ => true
  | _ => false

/-- What the event leaves of the message's buffers. -/
def Ev.leaves (bufs : List MsgBuf) : Ev → List MsgBuf
  | .adopt i =>
    match bufs[i]? with
    | none => bufs
    | some mb => bufs.set i (Des.taken mb)
  | _ => bufs

def Ev.gives (bufs : List MsgBuf) : Ev → List LuaBuf
  | .adopt i =>
    match bufs[i]? with
    | none => []
    | some mb => [Des.given mb]
  | _ => []

def bufsLeft (bufs : List MsgBuf) (l : List Ev) : List MsgBuf := l.foldl Ev.leaves bufs

/-- The receiver's new buffers after the events. -/
def bufsGiven : List MsgBuf → List Ev → List LuaBuf
  | _, [] => []
  | bufs, e :: l => e.gives bufs ++ bufsGiven (e.leaves bufs) l

/-- What a walk through the events `l` has done: it has minted handles and taken buffers, as the
events say, and the rest is as it was. -/
structure Opened (i : Nat) (s : DesState) (l : List Ev) (s' : DesState) : Prop where
  handles : ∃ hs, s'.minted = s.minted ++ hs ∧ hs.length = l.countP Ev.mints ∧
    Kernel.Gained i s.k hs s'.k
  bufs : s'.bufs = bufsLeft s.bufs l
  own : s'.k.ownBufs i = s.k.ownBufs i ++ bufsGiven s.bufs l
  watchers : ∀ j, s'.k.watchersOf j = s.k.watchersOf j
  sch : s'.k.sch = s.k.sch
  freed : s'.k.freed = s.k.freed
  lost : s'.k.lost = s.k.lost
  acts : ∀ {S : Kernel.Scope} {w : List Kernel.Work}, Kernel.Plain w →
    Kernel.Acts S (s.k, w) (s'.k, w)

theorem bufsGiven_append (bufs : List MsgBuf) (l l' : List Ev) :
    bufsGiven bufs (l ++ l') = bufsGiven bufs l ++ bufsGiven (bufsLeft bufs l) l' := by
  induction l generalizing bufs with
  | nil => rfl
  | cons e l ih =>
    show e.gives bufs ++ bufsGiven (e.leaves bufs) (l ++ l') = _
    rw [ih, ← append_assoc]
    rfl

namespace Opened

variable {i : Nat} {s s' s'' : DesState} {l l' : List Ev}

theorem append (h : Opened i s l s') (g : Opened i s' l' s'') : Opened i s (l ++ l') s'' where
  handles := by
    obtain ⟨hs, e, hl, hg⟩ := h.handles
    obtain ⟨hs', e', hl', hg'⟩ := g.handles
    refine ⟨hs ++ hs', by rw [e', e, append_assoc], ?_, hg.trans hg'⟩
    rw [length_append, countP_append, hl, hl']
  bufs := by
    rw [g.bufs, h.bufs]
    exact foldl_append.symm
  own := by rw [g.own, h.own, h.bufs, bufsGiven_append, append_assoc]
  watchers j := (g.watchers j).trans (h.watchers j)
  sch := g.sch.trans h.sch
  freed := g.freed.trans h.freed
  lost := g.lost.trans h.lost
  acts hw := (h.acts hw).trans (g.acts hw)

theorem of_k (l : List Ev) (hk : s'.k = s.k) (hb : s'.bufs = s.bufs) (hm : s'.minted = s.minted)
    (hl : l.countP Ev.mints = 0) (hlb : bufsLeft s.bufs l = s.bufs)
    (hlg : bufsGiven s.bufs l = []) : Opened i s l s' where
  handles := ⟨[], by rw [hm, append_nil], hl.symm, by rw [hk]; exact .refl _⟩
  bufs := hb.trans hlb.symm
  own := by rw [hk, hlg, append_nil]
  watchers j := by rw [hk]
  sch := congrArg Kernel.sch hk
  freed := congrArg Kernel.freed hk
  lost := congrArg Kernel.lost hk
  acts _ := by
    rw [hk]

/-- The receiver's record is written, not its rights. -/
theorem of_proc {pr pr' : KProc} (l : List Ev) (hi : s.k.procv[i]? = some pr)
    (hk : s'.k = s.k.setProc i pr') (hs : Kernel.SameRights pr pr') (hm : s'.minted = s.minted)
    (hl : l.countP Ev.mints = 0) (hb : s'.bufs = bufsLeft s.bufs l)
    (ho : pr'.bufs = pr.bufs ++ bufsGiven s.bufs l) (hw : pr'.watchers = pr.watchers) :
    Opened i s l s' where
  handles := ⟨[], by rw [hm, append_nil], hl.symm,
    by rw [hk]; exact .of_same (Kernel.slotAt_setProc hi hs.rights)⟩
  bufs := hb
  own := by
    have hi' : s'.k.procv[i]? = some pr' := by
      rw [hk]
      exact Tally.set_slot hi
    rw [Kernel.ownBufs_eq hi, Kernel.ownBufs_eq hi', ho]
  watchers j := by
    rw [hk]
    exact Kernel.watchersOf_set pr' hi rfl hw j
  sch := by rw [hk]; rfl
  freed := by rw [hk]; rfl
  lost := by rw [hk]; rfl
  acts hw := by
    rw [hk]
    exact Kernel.Acts.one (.proc hw hi hs) trivial

end Opened

/-- The event is one that lua answers with an error here: an allocation that is refused, or a key
that no table takes. -/
def Ev.raises (env : RecvEnv) (s : DesState) : Ev → Prop
  | .alloc => env.allocOk s.allocs = false
  | .badkey => True
  | _ => False

/-- How one event ends. A failed event has changed nothing that is counted. -/
inductive Told (env : RecvEnv) (s : DesState) (e : Ev) : Except Fault Unit × DesState → Prop where
  | ok {s' : DesState} (ho : Opened env.proc s [e] s')
      (hr : ¬e.raises env s) : Told env s e (.ok (), s')
  | error {x : Fault} {s' : DesState} (ho : Opened env.proc s [] s')
      (hr : x = .raise ↔ e.raises env s) :
      Told env s e (.error x, s')

section Told

variable {env : RecvEnv} {s : DesState}

theorem told_visit : Told env s .visit (runEv env .visit s) := by
  show Told env s .visit (Des.checkstack env s)
  rw [Des.checkstack_apply]
  cases env.stackOk s.visits with
  | true => exact .ok (.of_k [.visit] rfl rfl rfl rfl rfl rfl) id
  | false => exact .error (.of_k [] rfl rfl rfl rfl rfl rfl) ⟨nofun, False.elim⟩

theorem told_alloc : Told env s .alloc (runEv env .alloc s) := by
  show Told env s .alloc (Des.alloc env s)
  rw [Des.alloc_apply]
  cases hok : env.allocOk s.allocs with
  | true =>
    refine .ok (.of_k [.alloc] rfl rfl rfl rfl rfl rfl) fun h => ?_
    exact Bool.noConfusion (hok.symm.trans h)
  | false => exact .error (.of_k [] rfl rfl rfl rfl rfl rfl) ⟨fun _ => hok, fun _ => rfl⟩

theorem told_fail {e : Ev} {x : Fault} (hr : x = .raise ↔ e.raises env s) :
    Told env s e (.error x, s) :=
  .error (.of_k [] rfl rfl rfl rfl rfl rfl) hr

theorem kbufCharge_same {pr pr' : KProc} {n : Nat} (h : kbufCharge pr n = some pr') :
    Kernel.SameRights pr pr' ∧ pr'.bufs = pr.bufs ∧ pr'.watchers = pr.watchers := by
  unfold kbufCharge at h
  split at h
  · cases h
  · cases h
    exact ⟨⟨rfl, rfl, rfl, rfl, rfl⟩, rfl, rfl⟩

theorem told_charge (i : Nat) : Told env s (.charge i) (runEv env (.charge i) s) := by
  have hno : ∀ {x : Fault}, x ≠ .raise → (x = .raise ↔ Ev.raises env s (.charge i)) :=
    fun hx => ⟨fun e => absurd e hx, False.elim⟩
  simp only [runEv, Des.claim, Des.charge, bind_apply, get_apply]
  cases s.bufs[i]? with
  | none => exact told_fail (hno (by decide))
  | some mb =>
    cases hp : mb.p.isSome with
    | false =>
      simp only [bind_apply, guard_apply, hp]
      exact told_fail (hno (by decide))
    | true =>
      cases hpr : s.k.procv[env.proc]? with
      | none =>
        simp only [bind_apply, guard_apply, hp, hpr, get_apply, if_true]
        exact told_fail (hno (by decide))
      | some pr =>
        cases hc : kbufCharge pr mb.len with
        | none =>
          simp only [bind_apply, guard_apply, hp, hpr, hc, get_apply, if_true, put_apply, fail_apply]
          refine .error ?_ (hno (by decide))
          exact .of_proc [] hpr rfl ⟨rfl, rfl, rfl, rfl, rfl⟩ rfl rfl rfl (append_nil _).symm rfl
        | some pr' =>
          simp only [bind_apply, guard_apply, hp, hpr, hc, get_apply, if_true, put_apply, pure_apply]
          obtain ⟨hs, hb, hwt⟩ := kbufCharge_same hc
          refine .ok ?_ id
          exact .of_proc [.charge i] hpr rfl hs rfl rfl rfl (hb.trans (append_nil _).symm) hwt

theorem told_adopt (i : Nat) : Told env s (.adopt i) (runEv env (.adopt i) s) := by
  have hno : Fault.corrupt = .raise ↔ Ev.raises env s (.adopt i) := ⟨nofun, False.elim⟩
  simp only [runEv, Des.adopt, bind_apply, get_apply]
  cases hb : s.bufs[i]? with
  | none => exact told_fail hno
  | some mb =>
    cases hpr : s.k.procv[env.proc]? with
    | none => exact told_fail hno
    | some pr =>
      refine .ok ?_ id
      refine .of_proc [.adopt i] hpr rfl ⟨rfl, rfl, rfl, rfl, rfl⟩ rfl rfl ?_ ?_ rfl
      · show s.bufs.set i (Des.taken mb) = Ev.leaves s.bufs (.adopt i)
        simp only [Ev.leaves, hb]
      · show pr.bufs ++ [Des.given mb] = pr.bufs ++ (Ev.gives s.bufs (.adopt i) ++ [])
        simp only [Ev.gives, hb, append_nil]

theorem told_mint (pi : Nat) (recv : Bool) :
    Told env s (.mint pi recv) (runEv env (.mint pi recv) s) := by
  have hno : ∀ {x : Fault}, x ≠ .raise → (x = .raise ↔ Ev.raises env s (.mint pi recv)) :=
    fun hx => ⟨fun e => absurd e hx, False.elim⟩
  simp only [runEv, Des.mintAt, Des.mint, bind_apply, get_apply]
  cases hq : s.k.portAt pi with
  | none => exact told_fail (hno (by decide))
  | some q =>
    by_cases h1 : pi < env.params.maxPorts
    · by_cases h2 : s.minted.length < maxMsgRights
      · rcases h : Kernel.rightNew env.xrightsOk s.k env.proc ⟨pi, q.gen⟩ recv with ⟨_ | n, k'⟩
        · simp only [bind_apply, guard_apply, h1, h2, decide_true, if_true, get_apply, h, fail_apply]
          exact told_fail (hno (by decide))
        · simp only [bind_apply, guard_apply, h1, h2, decide_true, if_true, get_apply, h, put_apply,
            pure_apply]
          have hm := Kernel.rightNew_some h
          have hp : s.k.portOf ⟨pi, q.gen⟩ = some q :=
            Kernel.portOf_of_portAt hq rfl
          refine .ok ⟨⟨[n], rfl, rfl, hm.gained⟩, rfl, ?_, hm.watchersOf, hm.beside.sch,
            hm.beside.freed, hm.beside.lost, ?_⟩ id
          · exact hm.ownBufs.trans (append_nil _).symm
          · exact fun hw => Kernel.Acts.one (.mint hw hp hm) trivial
      · simp only [bind_apply, guard_apply, h1, h2, decide_true, if_true, decide_false]
        exact told_fail (hno (by decide))
    · simp only [bind_apply, guard_apply, h1, decide_false]
      exact told_fail (hno (by decide))

theorem runEv_told (env : RecvEnv) (e : Ev) (s : DesState) : Told env s e (runEv env e s) := by
  cases e with
  | visit => exact told_visit
  | alloc => exact told_alloc
  | corrupt => exact told_fail ⟨nofun, False.elim⟩
  | charge i => exact told_charge i
  | adopt i => exact told_adopt i
  | mint pi recv => exact told_mint pi recv
  | badkey => exact told_fail ⟨fun _ => trivial, fun _ => rfl⟩

theorem Ev.raises_fails {e : Ev} (hr : e.raises env s) :
    ∃ t, runEv env e s = (.error .raise, t) := by
  match runEv env e s, runEv_told env e s with
  | _, .ok _ hn => exact absurd hr hn
  | (.error _, t), .error _ hx => exact ⟨t, by rw [hx.mpr hr]⟩

end Told

/-- A run of events goes as far as the event that fails. -/
theorem runEvs_opened {env : RecvEnv} {l : List Ev} {s s' : DesState} {o : Except Fault Unit}
    (h : runEvs env l s = (o, s')) :
    match o with
    | .ok () => Opened env.proc s l s'
    | .error x => ∃ pre e post u, l = pre ++ e :: post ∧ runEvs env pre s = (.ok (), u) ∧
        Opened env.proc s pre u ∧ Opened env.proc u [] s' ∧ (x = .raise ↔ e.raises env u) := by
  induction l generalizing s with
  | nil =>
    cases h
    exact .of_k [] rfl rfl rfl rfl rfl rfl
  | cons e l ih =>
    match he : runEv env e s, runEv_told env e s with
    | (.ok (), t), .ok ho hr =>
      rw [runEvs_cons_ok he] at h
      have hi := ih h
      cases o with
      | ok => exact ho.append hi
      | error x =>
        obtain ⟨pre, e', post, u, hl, hp, h1, h2, h3⟩ := hi
        exact ⟨e :: pre, e', post, u, by rw [hl]; rfl, (runEvs_cons_ok he).trans hp,
          ho.append h1, h2, h3⟩
    | (.error x, t), .error ho hr =>
      rw [runEvs_cons_error he] at h
      cases h
      exact ⟨[], e, l, s, rfl, rfl, .of_k [] rfl rfl rfl rfl rfl rfl, ho, hr⟩

/-- The walk over `m` reaches an event that lua answers with an error. -/
def RunsOut (env : RecvEnv) (k : Kernel) (m : Kmsg) : Prop :=
  ∃ pre e post u, (plan (maxDepth + 1) m.data).evs = pre ++ e :: post ∧
    runEvs env pre (.start k m) = (.ok (), u) ∧ e.raises env u

variable {m : Kmsg}

/-- What a walk over a whole message has done when it ends. -/
theorem deserialize_opened {env : RecvEnv} {k : Kernel} {s' : DesState}
    {o : Except Fault RVal} (h : deserialize env (maxDepth + 1) (.start k m) = (o, s')) :
    match o with
    | .ok _ => Opened env.proc (.start k m) (plan (maxDepth + 1) m.data).evs s'
    | .error x => ∃ pre e post u, (plan (maxDepth + 1) m.data).evs = pre ++ e :: post ∧
        runEvs env pre (.start k m) = (.ok (), u) ∧ Opened env.proc (.start k m) pre s' ∧
        (x = .raise ↔ e.raises env u) := by
  have hf := deserialize_reads env (maxDepth + 1) (.start k m) (.start k m) (.refl _)
  rw [h] at hf
  -- the two end states differ in the bytes left, which nothing here looks at
  have move : ∀ {l : List Ev} {s z : DesState}, Beside s' z → Opened env.proc s l z →
      Opened env.proc s l s' := fun hb ho =>
    ⟨by rw [← hb.minted, ← hb.k]; exact ho.handles, hb.bufs.symm.trans ho.bufs, by rw [← hb.k]; exact ho.own,
      hb.k ▸ ho.watchers, hb.k ▸ ho.sch, hb.k ▸ ho.freed, hb.k ▸ ho.lost,
      by rw [← hb.k]; exact ho.acts⟩
  cases o with
  | ok v =>
    obtain ⟨z, hz, hb, -⟩ := hf
    exact move hb (runEvs_opened hz)
  | error x =>
    obtain ⟨z, hz, hb⟩ := hf
    obtain ⟨pre, e, post, u, hl, hp, h1, h2, h3⟩ := runEvs_opened hz
    refine ⟨pre, e, post, u, hl, hp, move hb ?_, h3⟩
    have h4 := h1.append h2
    rwa [append_nil] at h4

theorem deserialize_raise_iff {env : RecvEnv} {k : Kernel} :
    (∃ s', deserialize env (maxDepth + 1) (.start k m) = (.error .raise, s')) ↔
    RunsOut env k m := by
  constructor
  · rintro ⟨s', h⟩
    obtain ⟨pre, e, post, u, hl, hp, -, hr⟩ := deserialize_opened h
    exact ⟨pre, e, post, u, hl, hp, hr.mp rfl⟩
  · rintro ⟨pre, e, post, u, hl, hp, hr⟩
    obtain ⟨t, ht⟩ := Ev.raises_fails hr
    have hrun : runEvs env (plan (maxDepth + 1) m.data).evs (.start k m) = (.error .raise, t) := by
      rw [hl, runEvs_append_ok hp, runEvs_cons_error ht]
    have hf := deserialize_reads env (maxDepth + 1) (.start k m) (.start k m) (.refl _)
    match deserialize env (maxDepth + 1) (.start k m), hf with
    | (.ok _, _), ⟨z, hz, _, _⟩ => cases hrun.symm.trans hz
    | (.error x, s'), ⟨z, hz, _⟩ =>
      cases hrun.symm.trans hz
      exact ⟨s', rfl⟩

/-! ## Undoing, disposing, receiving -/

namespace Kernel

variable {k k' : Kernel} {S : Scope} {w : List Work} {i : Nat} {hs : List Nat}

/-- The record after one turn of the loop of `minted_undo`. -/
theorem procv_mintedUndoOne {pr : KProc} (hi : k.procv[i]? = some pr) (h : Nat) :
    ∃ pr1, (pr1 = pr ∨ ∃ r, pr.rights.slots[h]? = some r ∧ pr1 = clearSlot pr h r) ∧
      (mintedUndoOne i k h).procv = k.procv.set i { pr1 with rhint := min pr.rhint h } := by
  cases hr : pr.rights.slots[h]? with
  | none => exact ⟨pr, .inl rfl, by simp [mintedUndoOne, setProc, hi, hr]⟩
  | some r =>
    cases hu : r.used with
    | false => exact ⟨pr, .inl rfl, by simp [mintedUndoOne, setProc, hi, hr, hu]⟩
    | true =>
      refine ⟨_, .inr ⟨r, rfl, rfl⟩, ?_⟩
      simp [mintedUndoOne, setProc, hi, hr, hu, procv_rightDrop hi hr, Tally.set_slot hi]
      rfl

theorem mintedUndoOne_spec {h : Nat} {r0 : Right} (hr : k.SlotAt i h r0) :
    (∀ {j n r}, (mintedUndoOne i k h).SlotAt j n r ↔ k.SlotAt j n r ∧ ¬(j = i ∧ n = h)) ∧
      k.sch.Calms (mintedUndoOne i k h).sch ∧
      ∀ {S : Scope} {w : List Work}, Plain w → S.works → S.drops i h (k.sch.gone i) →
        Acts S (k, w) (mintedUndoOne i k h, w) := by
  have hslot : (k.procv[i]?).bind (·.rights.slots[h]?) = some r0 := by
    obtain ⟨pr, hpr, hr, -⟩ := hr
    rw [hpr]
    exact hr
  obtain ⟨pr, hpr⟩ : ∃ pr, (k.rightDrop i h).procv[i]? = some pr := by
    obtain ⟨pr, hpr, hr, -⟩ := hr
    rw [procv_rightDrop hpr hr]
    exact ⟨_, Tally.set_slot hpr⟩
  have e : mintedUndoOne i k h =
      (k.rightDrop i h).setProc i { pr with rhint := min pr.rhint h } := by
    obtain ⟨-, -, -, hu⟩ := hr
    simp only [mintedUndoOne, hslot, hu, if_true, hpr]
  rw [e]
  refine ⟨fun {j n r} => ?_, calms_rightDrop k i h, fun hw hS hd => ?_⟩
  · rw [← slotAt_rightDrop hr]
    exact slotAt_setProc hpr rfl
  · exact (rightDrop_acts hw hS hr hd).trans
      (Acts.one (.proc hw hpr ⟨rfl, rfl, rfl, rfl, rfl⟩) trivial)

/-- The handles are given back, and no others. -/
theorem mintedUndo_spec (hn : hs.Nodup) (hu : ∀ h ∈ hs, ∃ r, k.SlotAt i h r) :
    (∀ {j n r}, (mintedUndo k i hs).SlotAt j n r ↔ k.SlotAt j n r ∧ ¬(j = i ∧ n ∈ hs)) ∧
      ∀ {S : Scope} {w : List Work}, Plain w → S.works → (∀ h ∈ hs, S.drops i h (k.sch.gone i)) →
        Acts S (k, w) (mintedUndo k i hs, w) := by
  induction hs generalizing k with
  | nil => exact ⟨⟨fun h => ⟨h, fun e => by cases e.2⟩, fun h => h.1⟩, fun _ _ _ => .refl⟩
  | cons h hs ih =>
    obtain ⟨hnot, hn'⟩ := nodup_cons.mp hn
    obtain ⟨r0, hr0⟩ := hu h mem_cons_self
    obtain ⟨h1, h2, h3⟩ := mintedUndoOne_spec hr0
    have hu' : ∀ n ∈ hs, ∃ r, (mintedUndoOne i k h).SlotAt i n r := by
      intro n hm
      obtain ⟨r, hr⟩ := hu n (mem_cons_of_mem h hm)
      exact ⟨r, h1.mpr ⟨hr, fun e => hnot (e.2 ▸ hm)⟩⟩
    obtain ⟨g1, g2⟩ := ih hn' hu'
    refine ⟨fun {j n r} => ?_, fun hw hS hd => ?_⟩
    · rw [mintedUndo, foldl_cons]
      rw [mintedUndo] at g1
      rw [g1, h1, mem_cons]
      constructor
      · rintro ⟨⟨hr, ne⟩, ne'⟩
        refine ⟨hr, fun ⟨hj, hm⟩ => ?_⟩
        rcases hm with rfl | hm
        · exact ne ⟨hj, rfl⟩
        · exact ne' ⟨hj, hm⟩
      · rintro ⟨hr, ne⟩
        exact ⟨⟨hr, fun e => ne ⟨e.1, .inl e.2⟩⟩, fun e => ne ⟨e.1, .inr e.2⟩⟩
    · refine (h3 hw hS (hd h mem_cons_self)).trans (g2 hw hS fun n hm => ?_)
      rw [h2.gone i]
      exact hd n (mem_cons_of_mem h hm)

theorem msgDispose_acts (hw : Plain w) (hS : S.works) :
    Acts S (k, m.refs.map .ref ++ w) (k.msgDispose m, w) := by
  have h1 := releaseInflight_acts (k := k) (w := w) hS m.refs
  exact h1.trans (Acts.one (.skip hw ⟨rfl, rfl, rfl, rfl, rfl, rfl, rfl, rfl⟩) trivial)

/-- A walk that failed: the handles are given back and the message is disposed of. -/
theorem undone_acts {env : RecvEnv} {x : Fault} {s : DesState} (hw : Plain w) (hS : S.works)
    (hdrops : S.Undoes k env.proc)
    (hd : deserialize env (maxDepth + 1) (.start k m) = (.error x, s)) :
    Acts S (k, m.refs.map .ref ++ w)
      ((mintedUndo s.k env.proc s.minted).msgDispose { m with bufs := s.bufs }, w) := by
  obtain ⟨pre, e, post, u, -, -, ho, -⟩ := deserialize_opened hd
  obtain ⟨hs, hm, -, hg⟩ := ho.handles
  have hm' : s.minted = hs := hm
  obtain ⟨-, h2⟩ := mintedUndo_spec hg.nodup hg.used
  have h1 : Acts S (k, m.refs.map .ref ++ w) (s.k, m.refs.map .ref ++ w) := ho.acts (plain_refs hw)
  have h3 : Acts S (s.k, m.refs.map .ref ++ w)
      (mintedUndo s.k env.proc s.minted, m.refs.map .ref ++ w) := by
    rw [hm']
    refine h2 (plain_refs hw) hS fun n hn => ?_
    rw [ho.sch]
    exact hdrops n (hg.fresh n hn)
  exact (h1.trans h3).trans (msgDispose_acts (m := { m with bufs := s.bufs }) hw hS)

/-- `msg_to_lua`, with the references of the message in hand. -/
theorem msgToLua_acts {env : RecvEnv} (hw : Plain w) (hS : S.works) (hdrops : S.Undoes k env.proc)
    (hloses : RunsOut env k m → S.loses m.refs) :
    Acts S (k, m.refs.map .ref ++ w) ((msgToLua env k m).2, w) := by
  unfold msgToLua
  match hd : deserialize env (maxDepth + 1) (.start k m) with
  | (.ok v, s) =>
    have ho := deserialize_opened hd
    have h1 : Acts S (k, m.refs.map .ref ++ w) (s.k, m.refs.map .ref ++ w) :=
      ho.acts (plain_refs hw)
    exact h1.trans (msgDispose_acts (m := { m with bufs := s.bufs }) hw hS)
  | (.error .raise, s) =>
    obtain ⟨pre, e, post, u, -, -, ho, -⟩ := deserialize_opened hd
    have h1 : Acts S (k, m.refs.map .ref ++ w) (s.k, m.refs.map .ref ++ w) :=
      ho.acts (plain_refs hw)
    exact h1.trans (Acts.one (.lose hw) (hloses (deserialize_raise_iff.mp ⟨s, hd⟩)))
  | (.error .corrupt, s) => exact undone_acts hw hS hdrops hd
  | (.error .limit, s) => exact undone_acts hw hS hdrops hd

theorem msgToLua_raise_iff {env : RecvEnv} :
    (msgToLua env k m).1 = .error .raise ↔ RunsOut env k m := by
  rw [← deserialize_raise_iff]
  unfold msgToLua
  match hd : deserialize env (maxDepth + 1) (.start k m) with
  | (.ok v, s) => exact ⟨nofun, nofun⟩
  | (.error .raise, s) => exact ⟨fun _ => ⟨s, rfl⟩, fun _ => rfl⟩
  | (.error .corrupt, s) => exact ⟨nofun, nofun⟩
  | (.error .limit, s) => exact ⟨nofun, nofun⟩

/-! ### The calls -/

theorem portPop_some {p : PortRef} (hw : Plain w) (h : k.portPop p = (some m, k')) :
    Acts S (k, w) (k', m.refs.map .ref ++ w) ∧ k'.procv = k.procv ∧ k.sch.Calms k'.sch := by
  unfold portPop at h
  split at h
  · cases h
  next q hq =>
  split at h
  · cases h
  next m' ms hm =>
  cases h
  have h1 : Acts S (k, w) (k.modPort p dequeue, m.refs.map .ref ++ w) :=
    .one (.dequeue hw hq hm) trivial
  have hlive := live_of_portOf (portOf_modPort_same (f := dequeue) hq (by rw [dequeue_cons hm]))
  have h2 := calms_wake true (k.modPort p dequeue) p
  rw [sch_modPort] at h2
  exact ⟨h1.trans (wake_acts (plain_refs hw) true hlive),
    ((sameHolders_modPort).trans sameHolders_wake).procv, h2⟩

theorem portPop_none {p : PortRef} {q : KPort} (hw : Plain w) (hq : k.portOf p = some q)
    (h : k.portPop p = (none, k')) : Acts S (k, w) (k', w) := by
  unfold portPop at h
  rw [hq] at h
  simp only at h
  split at h
  · cases h
    exact .one (.touch hw (live_of_portOf hq)) trivial
  · cases h

theorem popfail_acts (hw : Plain w) (x : Fault) : Acts S (k, w) ((popfail k i x).2, w) := by
  unfold popfail
  split
  · exact .refl
  next pr hpr =>
  split
  · split
    · exact .one (.proc hw hpr ⟨rfl, rfl, rfl, rfl, rfl⟩) trivial
    · exact .refl
  all_goals exact .refl

/-- A message is popped and turned into lua values: the walk over it starts in `k'`. -/
def RunsOutAt (env : RecvEnv) (k : Kernel) (p : PortRef) : Prop :=
  ∃ m k', k.portPop p = (some m, k') ∧ RunsOut env k' m

theorem pop_msgToLua_acts {env : RecvEnv} {p : PortRef} (hw : Plain w) (hS : S.works)
    (hdrops : S.Undoes k env.proc)
    (hloses : RunsOutAt env k p → ∀ refs, S.loses refs) (h : k.portPop p = (some m, k')) :
    Acts S (k, w) ((msgToLua env k' m).2, w) := by
  obtain ⟨h1, hp, hcalm⟩ := portPop_some hw h
  refine h1.trans (msgToLua_acts hw hS (fun n hn => ?_) fun hr => hloses ⟨m, k', h, hr⟩ _)
  rw [hcalm.gone]
  exact hdrops n fun r hr => hn r (hr.congr hp)

theorem received_acts {o : Except Fault RVal × Kernel} (hw : Plain w) (h : Acts S (k, w) (o.2, w)) :
    Acts S (k, w) ((received i o).2, w) := by
  obtain ⟨o, k'⟩ := o
  cases o with
  | ok v => exact h
  | error x => exact h.trans (popfail_acts hw x)

theorem apiTryrecv_acts {env : RecvEnv} {h : LuaInteger} (hw : Plain w) (hS : S.works)
    (hc : k.Counted w) (hdrops : S.Undoes k env.proc)
    (hloses : ∀ r, k.rightGet env.proc h = some r → RunsOutAt env k r.port → ∀ refs, S.loses refs) :
    Acts S (k, w) ((apiTryrecv env k h).2, w) := by
  unfold apiTryrecv
  split
  · exact .refl
  next r hr =>
  obtain ⟨q, hq⟩ := hc.slotAt_portOf (rightGet_some hr).1
  split
  · split
    next k' hp => exact portPop_none hw hq hp
    next m k' hp =>
    have h1 := received_acts (i := env.proc) hw
      (pop_msgToLua_acts hw hS hdrops (hloses r hr) hp)
    split
    next e => rwa [e] at h1
    next e => rwa [e] at h1
  · exact .refl

end Kernel

end Nlos
