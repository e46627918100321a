import Nlos.Kernel.Machine

/-!
# Ports that nobody holds

A port is made first and gets its right after. `sys.newport` and `sys.timer` do nothing about the
port when there is no slot for the right: `portv` keeps it, with no reference, and `port_new` tells
a free slot by the pointer alone. `proc_new` has the same lines, but the table it asks was just
wiped, so they are never reached.
-/

namespace Nlos

open Kernel List Option

namespace Kernel

variable {k k' k1 k2 k3 : Kernel} {i h : Nat} {p : PortRef} {q : KPort}

/-! ## Taking a port back -/

def SamePorts (k k' : Kernel) : Prop := ∀ j, (k'.portAt j).isSome = (k.portAt j).isSome

theorem SamePorts.of_portAt (h : ∀ j, k'.portAt j = k.portAt j) : SamePorts k k' :=
  fun j => congrArg Option.isSome (h j)

theorem SamePorts.of_portv (h : k'.portv = k.portv) : SamePorts k k' :=
  .of_portAt fun j => by
    unfold portAt
    rw [h]

theorem SamePorts.trans (h₁ : SamePorts k k1) (h₂ : SamePorts k1 k2) : SamePorts k k2 :=
  fun j => (h₂ j).trans (h₁ j)

/-- The only reference to a port with an empty queue is dropped: the port goes, and nothing else. -/
theorem portAt_portUnref_only (hq : k.portOf p = some q) (hn : q.nrights = 1) (he : q.queue = [])
    (j : Nat) : (k.portUnref p).portAt j = if p.idx = j then none else k.portAt j := by
  have h1 : (k.modPort p dropRight).portOf p = some (dropRight q) := portOf_modPort_same hq rfl
  have h2 : ((k.modPort p dropRight).modPort p detachQueue).portOf p =
      some (detachQueue (dropRight q)) := portOf_modPort_same h1 rfl
  have hflush : portFlushWith portUnref (k.modPort p dropRight) p =
      (k.modPort p dropRight).modPort p detachQueue := by
    unfold portFlushWith
    rw [h1]
    show List.foldl _ _ q.queue = _
    rw [he]
    rfl
  rw [portUnref_eq]
  unfold portUnrefWith
  rw [hq]
  simp only
  rw [if_pos (by omega), hflush, portAt_freePort h2]
  split
  · rfl
  next hne => rw [portAt_modPort_other hne, portAt_modPort_other hne]

/-- A port that was made, with the one right to it dropped again, leaves the table as it was. -/
theorem rightDrop_born (hb : Born k p k1) (hm : Minted k1 i p true h k2) (hp : k3.portv = k2.portv)
    (hs : k3.SlotAt i h ⟨p, true, true⟩) : SamePorts k (k3.rightDrop i h) := by
  obtain ⟨pr, hpr, hr, -⟩ := hs
  have hat : ∀ j, k3.portAt j =
      if p.idx = j then some (addRef true (KPort.fresh p.gen)) else k1.portAt j := by
    intro j
    obtain ⟨pr', t, r, -, -, -, -, -, -, rfl⟩ := hm.out
    have h1 :=
      portAt_modPort (k := k1.setProc i (takeSlot pr' t h p true)) (f := addRef true) (j := j)
      hb.portOf
    unfold portAt at h1 ⊢
    rw [hp]
    exact h1
  have hq : k3.portOf p = some (addRef true (KPort.fresh p.gen)) :=
    portOf_of_portAt ((hat p.idx).trans (if_pos rfl)) rfl
  have hvac : k3.vacate i pr h ⟨p, true, true⟩ =
      (k3.setProc i (clearSlot pr h ⟨p, true, true⟩)).modPort p dropRecv := if_pos rfl
  have hq' : (k3.vacate i pr h ⟨p, true, true⟩).portOf p =
      some (dropRecv (addRef true (KPort.fresh p.gen))) := by
    exact portOf_modPort_same hq rfl
  refine .of_portAt fun j => ?_
  rw [rightDrop_eq hpr hr, portAt_portUnref_only hq' rfl rfl]
  split
  next e => rw [← e, hb.empty]
  next hne =>
  rw [hvac, portAt_modPort_other hne]
  show k3.portAt j = k.portAt j
  rw [hat, if_neg hne, hb.other j hne]

/-- A port that was made and is still there is a slot more than before. -/
theorem not_samePorts_born (hb : Born k p k1) (hq : k2.portAt p.idx ≠ none) : ¬SamePorts k k2 := by
  intro hs
  have h1 := hs p.idx
  rw [hb.empty] at h1
  exact hq (not_isSome_iff_eq_none.mp (by rw [h1]; nofun))

/-! ## A timer table that is full -/

/-- What one turn of the reaping loop does: nothing to the table, or one slot of it goes. -/
theorem reapTimer_cases (k : Kernel) (j : Nat) : (reapTimer k j).procv = k.procv ∧
      ((reapTimer k j).portv = k.portv ∧ (reapTimer k j).timers = k.timers ∨
        j < k.timers.length ∧ (reapTimer k j).timers = k.timers.set j none) := by
  unfold reapTimer
  split
  · exact ⟨rfl, .inl ⟨rfl, rfl⟩⟩
  next t ht =>
  have hlt := (List.getElem?_eq_some_iff.mp (join_eq_some_iff.mp ht)).1
  split
  · exact ⟨rfl, .inl ⟨rfl, rfl⟩⟩
  · split
    · have hs := sameHolders_portUnref k t.port
      refine ⟨hs.procv, .inr ⟨hlt, ?_⟩⟩
      show (k.portUnref t.port).timers.set j none = _
      rw [hs.timers]
    · exact ⟨rfl, .inl ⟨rfl, rfl⟩⟩

/-- A loop of the reaping leaves a slot free or has done nothing. -/
theorem reapTimers_cases (l : List Nat) (k : Kernel) : (l.foldl reapTimer k).procv = k.procv ∧
      ((l.foldl reapTimer k).portv = k.portv ∧ (l.foldl reapTimer k).timers = k.timers ∨
        ∃ j ∈ l, (l.foldl reapTimer k).timers[j]? = some none) := by
  -- from the back: the last turn keeps the slots the turns before it freed
  induction l using List.reverseRecOn with
  | nil => exact ⟨rfl, .inl ⟨rfl, rfl⟩⟩
  | append_singleton l j ih =>
    rw [foldl_append, foldl_cons, foldl_nil]
    generalize l.foldl reapTimer k = k1 at ih ⊢
    obtain ⟨hv, hk⟩ := ih
    obtain ⟨hv', hk'⟩ := reapTimer_cases k1 j
    refine ⟨hv'.trans hv, ?_⟩
    rcases hk' with ⟨hp, ht⟩ | ⟨hlt, ht⟩
    · rcases hk with ⟨hp1, ht1⟩ | ⟨n, hn, hfree⟩
      · exact .inl ⟨hp.trans hp1, ht.trans ht1⟩
      · exact .inr ⟨n, mem_append_left _ hn, ht ▸ hfree⟩
    · refine .inr ⟨j, mem_append_right _ (mem_singleton_self j), ?_⟩
      rw [ht, List.getElem?_set_self hlt]

theorem freeTimer_isSome {j : Nat} (hj : j < maxTimers) (hfree : k.timers[j]? = some none) :
    freeTimer k ≠ none := by
  have hle : k.timers.findIdx (·.isNone) ≤ j := Tally.findIdx_le_of_join (by rw [hfree]; rfl)
  unfold freeTimer
  rw [if_pos (by omega)]
  nofun

variable {due : Nat} {P : Params} {portOk ok : Bool} {env : NewEnv}

/-- A timer that could not be armed: the reaping found nothing to reap. -/
theorem timerArm_false (h : timerArm k p due = (false, k')) :
    k'.portv = k.portv ∧ k'.procv = k.procv := by
  unfold timerArm at h
  simp only at h
  split at h
  · cases h
  split at h
  · cases h
  next hn =>
  obtain ⟨-, h1⟩ := Prod.mk.inj h
  obtain ⟨hv, hk⟩ := reapTimers_cases (List.range maxTimers) k
  rcases hk with ⟨hp, -⟩ | ⟨j, hj, hfree⟩
  · exact ⟨h1 ▸ hp, h1 ▸ hv⟩
  · exact absurd hn (freeTimer_isSome (mem_range.mp hj) hfree)

/-! ## The calls that make a port -/

theorem apiNewport_fails {msg : String} (h : apiNewport P portOk ok k i = (.error msg, k')) :
    SamePorts k k' ↔ ¬Leaky P portOk ok k i := by
  cases making P portOk ok k i with
  | refused hl hn =>
    obtain ⟨⟨_, hn⟩, -⟩ := hn
    cases hn.symm.trans h
    exact iff_of_true (.of_portv rfl) hl
  | leaks hb hl hn =>
    cases hn.1.symm.trans h
    exact iff_of_false (not_samePorts_born hb (by rw [hb.here]; nofun)) (not_not.mpr hl)
  | makes _ _ _ hn => cases hn.1.symm.trans h

theorem apiTimer_fails
    (h : apiTimer P portOk ok k i due = (none, k')) : SamePorts k k' ↔ ¬Leaky P portOk ok k i := by
  cases making P portOk ok k i with
  | refused hl hn =>
    cases (hn.2 due).symm.trans h
    exact iff_of_true (.of_portv rfl) hl
  | leaks hb hl hn =>
    cases (hn.2 due).symm.trans h
    refine iff_of_false (not_samePorts_born hb ?_) (not_not.mpr hl)
    rw [portAt_modPort_same hb.portOf]
    nofun
  | makes hp hr hl hn =>
    rw [hn.2] at h
    split at h
    next ha =>
      cases h
      obtain ⟨hp', hv⟩ := timerArm_false ha
      have hm := rightNew_some hr
      exact iff_of_true (rightDrop_born (portNew_some hp).1 hm hp'
        ((hm.slotAt_iff.mpr (.inr ⟨rfl, rfl, rfl⟩)).congr hv)) hl
    · cases h

theorem portv_procFreestate (k : Kernel) (i : Nat) : (k.procFreestate i).portv = k.portv := by
  unfold procFreestate
  split <;> rfl

theorem portv_wipeSlot (k : Kernel) (i : Nat) : (k.wipeSlot i).portv = k.portv := by
  unfold wipeSlot
  split <;> rfl

theorem procPort_fails {pr : KProc} (hi : k.procv[i]? = some pr)
    (hempty : pr.rights = RightTable.empty) (hhint : pr.rhint = 0)
    (h : procPort env k i = (none, k')) : SamePorts k k' := by
  unfold procPort at h
  split at h
  next hn =>
    cases h
    exact .of_portv (by rw [portv_procFreestate, portNew_none hn])
  next p k1 hn =>
  have hb := (portNew_some hn).1
  have hi1 : k1.procv[i]? = some pr := hb.procv ▸ hi
  have h0 : (rightNew true k1 i p true).1 = some 0 := rightNew_wiped hi1 hempty hhint
  split at h
  next k2 hr =>
    have hm := rightNew_some hr
    have hs : k2.SlotAt i 0 ⟨p, true, true⟩ := hm.slotAt_iff.mpr (.inr ⟨rfl, rfl, rfl⟩)
    obtain ⟨t, hi2⟩ := hm.record hi1
    obtain ⟨hslot, hu⟩ := (slotAt_same hi2).mp hs
    unfold procLoad at h
    rw [modProc_eq hi2] at h
    split at h
    · cases h
    cases h
    have hs' : SamePorts k ((k2.setProc i { takeSlot pr t 0 p true with
        selfidx := p.idx, selfgen := p.gen }).rightDrop i 0) :=
      rightDrop_born hb hm rfl ⟨_, procv_setProc_same hi2 _, hslot, hu⟩
    exact hs'.trans (.of_portv (portv_procFreestate _ i))
  next k2 o hne hr =>
    rw [hr] at h0
    exact absurd h0 (hne · )

theorem procBuild_fails (hi : k.procv[i]? = some KProc.zero)
    (h : procBuild env k i = (none, k')) : SamePorts k k' := by
  unfold procBuild at h
  split at h
  · let pr : KProc := { KProc.zero with id := k.nextpid, hasL := true }
    have e : (k.modProc i fun pr => { pr with id := k.nextpid, hasL := true }) = k.setProc i pr :=
      modProc_eq hi _
    simp only [e] at h
    exact procPort_fails (k := { k.setProc i pr with nextpid := k.nextpid + 1 })
      (procv_setProc_same hi pr) rfl rfl h
  · cases h
    exact .of_portv rfl

theorem procNew_fails (h : procNew env k = (none, k')) : SamePorts k k' := by
  unfold procNew at h
  split at h
  · cases h
    exact .of_portv rfl
  next i hf =>
  split at h
  · cases h
    exact .of_portv rfl
  split at h
  · cases h
    exact .of_portv rfl
  obtain ⟨hd, hi⟩ := freeSlot_some hf
  have hwd := (wipeSlot_acts plain_nil (bears_bears k i hf) hd hi).2
  have hwipe : SamePorts k (k.wipeSlot i) := .of_portv (portv_wipeSlot k i)
  generalize k.wipeSlot i = k1 at h hwd hwipe
  exact hwipe.trans (procBuild_fails hwd.record h)

end Kernel

/-! ## Failing calls, and runs -/

/-- The calls that make a port, with their arguments and the answers of the allocators. -/
inductive Maker where
  | newport (P : Params) (portOk xrightsOk : Bool) (i : Nat)
  | timer (P : Params) (portOk xrightsOk : Bool) (i due : Nat)
  | procNew (env : NewEnv)

/-- The state the call leaves behind, where it fails. -/
def Maker.fails (k : Kernel) : Maker → Option Kernel
  | .newport P portOk xrightsOk i =>
    match apiNewport P portOk xrightsOk k i with
    | (.error _, k) => some k
    | (.ok _, _) => none
  | .timer P portOk xrightsOk i due =>
    match apiTimer P portOk xrightsOk k i due with
    | (none, k) => some k
    | (some _, _) => none
  | .procNew env =>
    match Kernel.procNew env k with
    | (none, k) => some k
    | (some _, _) => none

/-- The call makes its port and finds no slot for the right. -/
def Maker.Leaks (k : Kernel) : Maker → Prop
  | .newport P portOk xrightsOk i | .timer P portOk xrightsOk i _ => Leaky P portOk xrightsOk k i
  | .procNew _ => False

/-- The call an operation makes, if it is one of these by a proc. -/
def Op.maker : Op → Option Maker
  | .newport P portOk xrightsOk i => some (.newport P portOk xrightsOk i)
  | .timer P portOk xrightsOk i due => some (.timer P portOk xrightsOk i due)
  | _ => none

theorem Maker.fails_samePorts_iff {k k' : Kernel} {m : Maker} (h : m.fails k = some k') :
    SamePorts k k' ↔ ¬m.Leaks k := by
  cases m with
  | newport P portOk xrightsOk i =>
    simp only [Maker.fails] at h
    split at h
    next e =>
      cases h
      exact apiNewport_fails e
    · cases h
  | timer P portOk xrightsOk i due =>
    simp only [Maker.fails] at h
    split at h
    next e =>
      cases h
      exact apiTimer_fails e
    · cases h
  | procNew env =>
    simp only [Maker.fails] at h
    split at h
    next e =>
      cases h
      exact iff_of_true (procNew_fails e) not_false
    · cases h

theorem Op.not_leaks {k : Kernel} {op : Op} (h : ∀ m, op.maker = some m → ¬m.Leaks k) :
    ¬(op.scope k).leaks := by
  cases op with
  | newport P portOk xrightsOk i | timer P portOk xrightsOk i due => exact h _ rfl
  | _ => exact not_false

theorem run_occupied {k : Kernel}
    (h : Run (fun k op => ∀ m, op.maker = some m → ¬m.Leaks k) k) : k.Occupied [] := by
  refine h.invariant (I := fun k => k.Occupied []) nofun fun hr ho hl hstep => ?_
  have hc := step_calls plain_nil hr.sane.counted hr.sane.roomy hstep
  exact hc.acts.occupied (Op.not_leaks hl) (hr.sane.counted.balanced rfl) ho

/-- A failing call leaves the occupied slots of `portv` as they were exactly if it did not get as
far as a port without a slot for its right. Then no number of failing calls changes anything, and in
every state of a run every port has a reference. -/
theorem failed_keeps_ports_iff (k : Kernel) :
    (∀ (k' : Kernel) (m : Maker), m.fails k = some k' → (SamePorts k k' ↔ ¬m.Leaks k)) ∧
    (∀ k', Relation.ReflTransGen (fun k k' => ∃ m : Maker, m.fails k = some k' ∧ ¬m.Leaks k) k k' →
      SamePorts k k') ∧
    (Run (fun k op => ∀ m, op.maker = some m → ¬m.Leaks k) k →
      ∀ j q, k.portAt j = some q → 0 < q.nrights) := by
  refine ⟨fun k' m h => Maker.fails_samePorts_iff h, fun k' h => ?_, fun h j q hq => ?_⟩
  · induction h with
    | refl => exact .of_portv rfl
    | tail _ hs ih =>
      obtain ⟨m, hm, hl⟩ := hs
      exact ih.trans ((Maker.fails_samePorts_iff hm).mpr hl)
  · exact (run_occupied h j q hq).resolve_right nofun

/-- A proc fills the slots of its record with send rights to itself. -/
def eightRights : List Op :=
  .spawnInit Sample.newEnv :: List.replicate (nrightsInline - 1) (.sendright true 0 0)

/-- `sys.newport` of that proc, on a machine where the overflow array cannot be allocated. -/
def newportNoSlot : Maker := .newport Sample.params true false 0

/-- The same on a machine without a slot for a port. -/
def newportNoPort : Maker := .newport ⟨1, 4, by decide, .w64⟩ true true 0

theorem newportNoPort_keeps_ports :
    ∃ k k', runOps anyOp .boot eightRights = some k ∧ newportNoPort.fails k = some k' ∧
      ¬newportNoPort.Leaks k ∧ SamePorts k k' := by
  obtain ⟨k, hk, -, hp⟩ := Run.of_ops (l := eightRights) anyOp_true
    (P := fun k => (newportNoPort.fails k).isSome && (k.portAt 0).isSome) (by decide)
  rw [Bool.and_eq_true] at hp
  obtain ⟨k', hk'⟩ := isSome_iff_exists.mp hp.1
  have hl : ¬newportNoPort.Leaks k := by
    rintro ⟨-, ⟨-, j, hj, hnone⟩, -⟩
    have h0 : j = 0 := Nat.lt_one_iff.mp hj
    rw [h0] at hnone
    rw [hnone] at hp
    cases hp.2
  exact ⟨k, k', hk, hk', hl, ((failed_keeps_ports_iff k).1 k' _ hk').mpr hl⟩

/-- The port that was made for the right stays, and no later call takes its slot. -/
theorem newportNoSlot_leaks :
    ∃ k k', runOps anyOp .boot eightRights = some k ∧ Run (fun _ _ => True) k ∧
      newportNoSlot.fails k = some k' ∧ ¬SamePorts k k' ∧
      ∃ q, k'.portAt 1 = some q ∧ q.nrights = 0 := by
  obtain ⟨k, hk, hr, hp⟩ := Run.of_ops (l := eightRights) anyOp_true
    (P := fun k => (newportNoSlot.fails k).any fun k' =>
      (k.portAt 1).isNone && (k'.portAt 1).any (·.nrights == 0)) (by decide)
  obtain ⟨k', hk', hp⟩ := (any_eq_true _ _).mp hp
  rw [Bool.and_eq_true] at hp
  obtain ⟨q, hq, hn⟩ := (any_eq_true _ _).mp hp.2
  refine ⟨k, k', hk, hr, hk', fun hs => ?_, q, hq, beq_iff_eq.mp hn⟩
  have h1 := hs 1
  rw [hq, isNone_iff_eq_none.mp hp.1] at h1
  cases h1

end Nlos
