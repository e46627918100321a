import Nlos.Kernel.Receive

/-!
# Birth and death, as runs of actions

`proc_new`, `proc_detach` and the calls of `src/proc.c` around them, each as a run of actions. A
teardown clears the proc's wait records before its rights, drops every right, and then tells the
watchers it can still find.
-/

namespace Nlos

open Tally List

/-! ## Wait records -/

namespace Sched

variable {s : Sched} {i : Nat}

theorem waitersOf_dropWaiter (s : Sched) (i : Nat) :
    (s.dropWaiter i).waitersOf i = (s.waitersOf i).tail := by
  cases hp : s.procs[i]? with
  | none =>
    have e : s.dropWaiter i = s := by simp only [dropWaiter, hp]
    have hn : s.waitersOf i = [] := by simp only [waitersOf, hp]
    rw [e, hn]
    rfl
  | some p =>
    cases hw : p.waiters with
    | nil =>
      have e : s.dropWaiter i = s := by simp only [dropWaiter, hp, hw]
      rw [e, waitersOf_eq hp, hw]
      rfl
    | cons w ws =>
      have hp' : (s.dropWaiter i).procs[i]? =
          some { p with waiters := ws, w0used := if w.inl then false else p.w0used } := by
        simp only [dropWaiter, hp, hw]
        cases w.onport <;> exact procs_setProc_same hp
      rw [waitersOf_eq hp', waitersOf_eq hp, hw]
      rfl

theorem waitersOf_waitClear (s : Sched) (i : Nat) : (s.waitClear i).waitersOf i = [] := by
  have h : ∀ (l : List Waiter) (s : Sched), s.waitersOf i = l →
      (l.foldl (fun s _ => s.dropWaiter i) s).waitersOf i = [] := by
    intro l
    induction l with
    | nil => exact fun _ h => h
    | cons w l ih =>
      intro s h
      refine ih (s.dropWaiter i) ?_
      rw [waitersOf_dropWaiter, h]
      rfl
  exact h _ s rfl

end Sched

namespace Kernel

variable {k k' : Kernel} {w : List Work} {i j h : Nat} {p : PortRef} {pr : KProc} {r : Right}
variable {S : Scope}

theorem touchWaits_acts (hw : Plain w) (i : Nat) : Acts S (k, w) (k.touchWaits i, w) := by
  -- a touch moves no record, so each turn finds its record still on the proc's list
  have h : ∀ (l : List Waiter) (k : Kernel), (∀ v ∈ l, v ∈ k.sch.waitersOf i) →
      Acts S (k, w) (l.foldl (fun k v => if v.onport then k.touch v.port else k) k, w) := by
    intro l
    induction l with
    | nil => exact fun _ _ => .refl
    | cons v l ih =>
      intro k hl
      rw [foldl_cons]
      cases ho : v.onport with
      | false => exact ih k fun u hu => hl u (mem_cons_of_mem v hu)
      | true =>
        have h1 : Acts S (k, w) (k.touch v.port, w) :=
          .one (.unpark hw (hl v mem_cons_self) ho) trivial
        exact h1.trans (ih (k.touch v.port) fun u hu => hl u (mem_cons_of_mem v hu))
  exact h _ k fun _ hv => hv

theorem touchWaits_eq (k : Kernel) (i : Nat) : ∃ log, k.touchWaits i = { k with log := log } := by
  have h : ∀ (l : List Waiter) (k : Kernel),
      ∃ log,
        l.foldl (fun k v => if v.onport then k.touch v.port else k) k = { k with log := log } := by
    intro l
    induction l with
    | nil => exact fun k => ⟨k.log, rfl⟩
    | cons v l ih =>
      intro k
      rw [foldl_cons]
      cases v.onport with
      | false => exact ih k
      | true =>
        obtain ⟨log, e⟩ := ih (k.touch v.port)
        exact ⟨log, e⟩
  exact h _ k

theorem sch_touchWaits (k : Kernel) (i : Nat) : (k.touchWaits i).sch = k.sch := by
  obtain ⟨log, e⟩ := touchWaits_eq k i
  rw [e]

theorem procv_touchWaits (k : Kernel) (i : Nat) : (k.touchWaits i).procv = k.procv := by
  obtain ⟨log, e⟩ := touchWaits_eq k i
  rw [e]

theorem sched_acts {s : Sched} (hw : Plain w) (hs : k.sch.Moves s) :
    Acts S (k, w) ({ k with sch := s }, w) :=
  .one (.sched hw hs) trivial

theorem dropWaiters_acts (hw : Plain w) (i : Nat) :
    Acts S (k, w) ({ k with sch := k.sch.waitClear i }, w) := by
  have h : ∀ (l : List Waiter) (k : Kernel),
      Acts S (k, w) ({ k with sch := l.foldl (fun s _ => s.dropWaiter i) k.sch }, w) := by
    intro l
    induction l with
    | nil => exact fun _ => .refl
    | cons v l ih =>
      intro k
      have h1 : Acts S (k, w) ({ k with sch := k.sch.dropWaiter i }, w) := sched_acts hw (.drop i)
      exact h1.trans (ih { k with sch := k.sch.dropWaiter i })
  exact h _ k

theorem waitClear_acts (hw : Plain w) (i : Nat) : Acts S (k, w) (k.waitClear i, w) := by
  refine (touchWaits_acts hw i).trans ?_
  have h := dropWaiters_acts (S := S) (k := k.touchWaits i) hw i
  rwa [sch_touchWaits] at h

theorem waitReap_acts (hw : Plain w) (i : Nat) : Acts S (k, w) (k.waitReap i, w) :=
  (waitClear_acts hw i).trans (sched_acts hw (.rearm i))

/-! ## Exit notices -/

variable {n : Notice} {memOk : Nat → Bool} {why : Option (List UInt8)}
  {o : Ret (Nat × Nat) × Kernel}

/-- An exit notice is pushed through slot 0 of the proc told. -/
theorem notifyExit_acts {wbufOk kmsgOk priv : Bool} (hw : Plain w) (hn : S.notices j) :
    Acts S (k, w) (notifyExit wbufOk kmsgOk k j n priv, w) := by
  unfold notifyExit
  split
  · exact .refl
  next pr hpr =>
  split
  · generalize (if priv = true then n else n.redact).bytes = data
    cases hq : k.portOf (slot0 pr.rights).port with
    | none =>
      have e : (portPushOwned kmsgOk k (slot0 pr.rights).port data [] []).2 =
          k.touch (slot0 pr.rights).port := by
        unfold portPushOwned
        rw [hq]
      rw [e]
      exact .one (.notice hw hpr) hn
    | some q =>
      match hp : portPushOwned kmsgOk k (slot0 pr.rights).port data [] [] with
      | (.ok, k') => exact portPushOwned_ok hw (.inl rfl) hp
      | (.nomem, k') => exact portPushOwned_refused hw hq hp nofun
      | (.full, k') => exact portPushOwned_refused hw hq hp nofun
      | (.dead, k') => exact portPushOwned_refused hw hq hp nofun
  · exact .refl

/-! ## Dropping every right -/

def Unlinked (k : Kernel) (i : Nat) : Prop := ∀ v ∈ k.sch.waitersOf i, v.onport = false

theorem Unlinked.calms (hu : k.Unlinked i) (hs : k.sch.Calms k'.sch) : k'.Unlinked i := by
  intro v hv
  cases ho : v.onport with
  | false => rfl
  | true =>
    obtain ⟨v', hv', ho', -⟩ := hs.waits i v hv ho
    rw [hu v' hv'] at ho'
    cases ho'

theorem calms_detachSlot (k : Kernel) (i h : Nat) : k.sch.Calms (detachSlot i k h).sch := by
  unfold detachSlot
  split
  · exact .refl _
  split
  · exact calms_rightDrop k i h
  · exact .refl _

theorem detachSlot_acts (hw : Plain w) (hS : S.works) (hs : S.sheds i (k.sch.gone i))
    (hu : k.Unlinked i) (h : Nat) : Acts S (k, w) (detachSlot i k h, w) := by
  unfold detachSlot
  split
  · exact .refl
  next r hr =>
  obtain ⟨pr, hpr, hslot⟩ := Option.bind_eq_some_iff.mp hr
  split
  next hused =>
    rw [rightDrop_eq hpr hslot]
    have h1 : Acts S (k, w) (k.vacate i pr h r, .unref r.port :: w) :=
      .one (.shed hw hpr hslot hused hu) hs
    exact h1.trans (Acts.of_steps hS (portUnref_steps _ r.port w))
  · exact .refl

/-- A turn of the loop leaves its slot free and no other slot but as it was. -/
theorem slotAt_detachSlot {n : Nat} :
    (detachSlot i k h).SlotAt j n r ↔ k.SlotAt j n r ∧ ¬(j = i ∧ n = h) := by
  unfold detachSlot
  split
  next hr =>
    refine ⟨fun hs => ⟨hs, ?_⟩, fun hs => hs.1⟩
    rintro ⟨rfl, rfl⟩
    obtain ⟨pr, hpr, hslot, -⟩ := hs
    rw [hpr] at hr
    cases hslot.symm.trans hr
  next r0 hr =>
    obtain ⟨pr, hpr, hslot⟩ := Option.bind_eq_some_iff.mp hr
    split
    next hused => exact slotAt_rightDrop ⟨pr, hpr, hslot, hused⟩
    next hused =>
    refine ⟨fun hs => ⟨hs, ?_⟩, fun hs => hs.1⟩
    rintro ⟨rfl, rfl⟩
    obtain ⟨pr', hpr', hslot', hu⟩ := hs
    rw [hpr] at hpr'
    cases hpr'
    cases hslot.symm.trans hslot'
    exact hused hu

theorem watchersOf_detachSlot (k : Kernel) (i h j : Nat) :
    (detachSlot i k h).watchersOf j = k.watchersOf j := by
  unfold detachSlot
  split
  · rfl
  next r hr =>
  obtain ⟨pr, hpr, hslot⟩ := Option.bind_eq_some_iff.mp hr
  split
  · exact watchersOf_set _ hpr (procv_rightDrop hpr hslot) rfl j
  · rfl

/-- What the loop over a list of slots has done: they are free, and the rest is as it was. -/
structure Shed (i : Nat) (k : Kernel) (l : List Nat) (k' : Kernel) : Prop where
  slots : ∀ {j n r}, k'.SlotAt j n r ↔ k.SlotAt j n r ∧ ¬(j = i ∧ n ∈ l)
  calms : k.sch.Calms k'.sch
  watchers : ∀ j, k'.watchersOf j = k.watchersOf j

theorem detachSlots_shed (i : Nat) (l : List Nat) : Shed i k l (l.foldl (detachSlot i) k) := by
  induction l generalizing k with
  | nil => exact ⟨⟨fun h => ⟨h, fun e => by cases e.2⟩, fun h => h.1⟩, .refl _, fun _ => rfl⟩
  | cons h l ih =>
    have hi := ih (k := detachSlot i k h)
    refine ⟨fun {j n r} => ?_, (calms_detachSlot k i h).trans hi.calms,
      fun j => (hi.watchers j).trans (watchersOf_detachSlot k i h j)⟩
    rw [foldl_cons, hi.slots, slotAt_detachSlot, mem_cons]
    constructor
    · rintro ⟨⟨hr, ne⟩, ne'⟩
      refine ⟨hr, fun ⟨hj, hm⟩ => ?_⟩
      rcases hm with rfl | hm
      · exact ne ⟨hj, rfl⟩
      · exact ne' ⟨hj, hm⟩
    · rintro ⟨hr, ne⟩
      exact ⟨⟨hr, fun e => ne ⟨e.1, .inl e.2⟩⟩, fun e => ne ⟨e.1, .inr e.2⟩⟩

theorem detachSlots_acts (hw : Plain w) (hS : S.works) (hs : S.sheds i (k.sch.gone i))
    (hu : k.Unlinked i) (l : List Nat) : Acts S (k, w) (l.foldl (detachSlot i) k, w) := by
  induction l generalizing k with
  | nil => exact .refl
  | cons h l ih =>
    have hcalm := calms_detachSlot k i h
    refine (detachSlot_acts hw hS hs hu h).trans (ih ?_ (hu.calms hcalm))
    rw [hcalm.gone]
    exact hs

/-- `proc_detach` up to the watchers: no right is left, and the overflow array goes. -/
theorem detachRights_acts (hw : Plain w) (hS : S.works) (hs : S.sheds i (k.sch.gone i))
    (hu : k.Unlinked i) : Acts S (k, w) (k.detachRights i, w) := by
  have h1 := detachSlots_acts hw hS hs hu (List.range maxRights)
  have h2 := detachSlots_shed (k := k) i (List.range maxRights)
  unfold detachRights
  generalize (List.range maxRights).foldl (detachSlot i) k = k1 at h1 h2 ⊢
  simp only
  split
  · exact h1
  next pr hpr =>
  refine h1.trans (Acts.one (.trim hw hpr fun r hr => ?_) trivial)
  cases hused : r.used with
  | false => rfl
  | true =>
    obtain ⟨n, hn⟩ := List.getElem?_of_mem (mem_of_mem_drop hr)
    have hlt := (List.getElem?_eq_some_iff.mp hn).1
    have hlen : pr.rights.slots.length ≤ maxRights := by
      rcases pr.rights.sized with e | e
      · rw [e]
        decide
      · exact e.le
    have hs := (h2.slots.mp ⟨pr, hpr, hn, hused⟩).2
    exact absurd ⟨rfl, mem_range.mpr (Nat.lt_of_lt_of_le hlt hlen)⟩ hs

theorem watchersOf_detachRights (k : Kernel) (i j : Nat) :
    (k.detachRights i).watchersOf j = k.watchersOf j := by
  have h2 := detachSlots_shed (k := k) i (List.range maxRights)
  unfold detachRights
  generalize (List.range maxRights).foldl (detachSlot i) k = k1 at h2 ⊢
  simp only
  split
  · exact h2.watchers j
  next pr hpr =>
  exact (watchersOf_set { pr with rights := pr.rights.dropOverflow } hpr rfl rfl j).trans
    (h2.watchers j)

/-! ## Telling the watchers -/

theorem tellWatcher_acts {x : Nat × Bool} (hw : Plain w)
    (hn : ∀ j, k.findProc x.1 = some j → S.notices j) :
    Acts S (k, w) (tellWatcher memOk n k x, w) := by
  unfold tellWatcher
  split
  · exact .refl
  next j hj => exact notifyExit_acts hw (hn j hj)

/-- Telling the watchers changes no name, so each is looked up as at the start. -/
theorem tellWatchers_acts {l : List (Nat × Bool)} (hw : Plain w)
    (hn : ∀ x ∈ l, ∀ j, k.findProc x.1 = some j → S.notices j) :
    Acts S (k, w) (l.foldl (tellWatcher memOk n) k, w) := by
  induction l generalizing k with
  | nil => exact .refl
  | cons x l ih =>
    have h1 : Acts S (k, w) (tellWatcher memOk n k x, w) :=
      tellWatcher_acts hw (hn x mem_cons_self)
    have h2 : Acts { notices := fun _ => True } (k, w) (tellWatcher memOk n k x, w) :=
      tellWatcher_acts hw fun _ _ => trivial
    refine h1.trans (ih fun y hy j hj => hn y (mem_cons_of_mem x hy) j ?_)
    rwa [h2.findProc nofun nofun nofun] at hj

theorem unlinked_waitClear (k : Kernel) (i : Nat) : (k.waitClear i).Unlinked i := by
  intro v hv
  have hv' : v ∈ (k.sch.waitClear i).waitersOf i := hv
  rw [Sched.waitersOf_waitClear] at hv'
  cases hv'

theorem procDetach_acts {broke : Bool} (hw : Plain w) (hS : S.works) (hs : S.sheds i (k.sch.gone i))
    (hn : ∀ x ∈ k.watchersOf i, ∀ j, k.findProc x.1 = some j → S.notices j) :
    Acts S (k, w) (procDetach memOk k i why broke, w) := by
  have hclear : ∀ {S : Scope}, Acts S (k, w) (k.waitClear i, w) := fun {S} => waitClear_acts hw i
  have hcalm : k.sch.Calms (k.waitClear i).sch := Sched.calms_waitClear k.sch i
  have detach : ∀ {S : Scope}, S.works → S.sheds i (k.sch.gone i) →
      Acts S (k, w) ((k.waitClear i).detachRights i, w) := fun {S} hS hs =>
    (hclear).trans (detachRights_acts hw hS (by rw [hcalm.gone]; exact hs) (unlinked_waitClear k i))
  have h1 := detach hS hs
  have h2 := detach (S := { sheds := fun _ _ => True }) trivial trivial
  have hwatch : ((k.waitClear i).detachRights i).watchersOf i = k.watchersOf i := by
    rw [watchersOf_detachRights]
    exact watchersOf_congr (procv_touchWaits k i)
  unfold procDetach
  generalize (k.waitClear i).detachRights i = k1 at h1 h2 hwatch ⊢
  simp only
  split
  · exact h1
  next pr hpr =>
  rw [watchersOf_eq hpr] at hwatch
  have h3 : Acts S (k1, w)
      (pr.watchers.foldl (tellWatcher memOk (noticeOf pr why broke)) k1, w) := by
    refine tellWatchers_acts hw fun x hx j hj => hn x (hwatch ▸ hx) j ?_
    rwa [h2.findProc nofun nofun nofun] at hj
  split
  · exact h1.trans h3
  next pr' hpr' =>
  exact (h1.trans h3).trans (Acts.one (.proc hw hpr' ⟨rfl, rfl, rfl, rfl, rfl⟩) trivial)

/-! ## Beginning and finishing a death -/

theorem skip_acts (hw : Plain w) (hk : SameCore k k') : Acts S (k, w) (k', w) :=
  .one (.skip hw hk) trivial

theorem ipclockEnter_acts (hw : Plain w) : Acts S (k, w) (k.ipclockEnter, w) :=
  skip_acts hw ⟨rfl, rfl, rfl, rfl, rfl, rfl, rfl, rfl⟩

theorem ipclockLeave_acts (hw : Plain w) : Acts S (k, w) (k.ipclockLeave, w) :=
  skip_acts hw ⟨rfl, rfl, rfl, rfl, rfl, rfl, rfl, rfl⟩

theorem procFreestate_acts (hw : Plain w) (i : Nat) : Acts S (k, w) (k.procFreestate i, w) := by
  unfold procFreestate
  split
  · exact .refl
  next pr hpr =>
  have h1 : Acts S (k, w) (k.setProc i { pr with hasL := false, bufs := [] }, w) :=
    .one (.proc hw hpr ⟨rfl, rfl, rfl, rfl, rfl⟩) trivial
  exact h1.trans (skip_acts hw ⟨rfl, rfl, rfl, rfl, rfl, rfl, rfl, rfl⟩)

theorem watchersOf_procFreestate (k : Kernel) (i j : Nat) :
    (k.procFreestate i).watchersOf j = k.watchersOf j := by
  unfold procFreestate
  split
  · rfl
  next pr hpr => exact watchersOf_set { pr with hasL := false, bufs := [] } hpr rfl rfl j

theorem sch_procFreestate (k : Kernel) (i : Nat) : (k.procFreestate i).sch = k.sch := by
  unfold procFreestate
  split <;> rfl

theorem setDead_acts (hw : Plain w) (hm : S.marks i) :
    Acts S (k, w) ({ k with sch := k.sch.setStatus i .dead }, w) := by
  unfold Sched.setStatus
  split
  · exact .refl
  next p hp =>
  have ha : Act (.mark i) (k, w)
      ({ k with sch := k.sch.setProc i { p with status := .dead, onq := p.onq } }, w) :=
    .mark hw hp (.inl rfl)
  exact .one ha hm

theorem gone_setProc {p p' : SProc} (hp : k.sch.procs[i]? = some p)
    (hs : p'.status = .dead ∨ p'.status = .broke) : (k.sch.setProc i p').gone i = true := by
  rw [Sched.gone_iff, Sched.statusOf_eq (Sched.procs_setProc_same hp)]
  exact hs

theorem killBegin_some {me : Nat} (h : k.killBegin me i why = some k') :
    ∃ p, k.sch.procs[i]? = some p ∧ k' = { k with
      sch := k.sch.setProc i { p with status := .dead, onq := false }
      teardowns := .kill i why :: k.teardowns } := by
  unfold killBegin at h
  split at h
  · cases h
  next p hp =>
  split at h
  · cases h
  split at h
  · cases h
  · cases h
    exact ⟨p, hp, rfl⟩

section

variable (hw : Plain w)

include hw

variable {t : Teardown} {me : Nat}

/-- The marking half of `proc_kill` and of `proc_break`. -/
theorem mark_acts {p : SProc} {st : Status}
    (hp : k.sch.procs[t.slot]? = some p) (hst : st = .dead ∨ st = .broke) (hm : S.marks t.slot)
    (ho : S.opens t) : Acts S (k, w) ({ k with
      sch := k.sch.setProc t.slot { p with status := st, onq := false }
      teardowns := t :: k.teardowns }, w) := by
  have h1 : Acts S (k, w)
      ({ k with sch := k.sch.setProc t.slot { p with status := st, onq := false } }, w) :=
    .one (.mark hw hp hst) hm
  refine h1.trans (Acts.one (.opens hw ?_) ho)
  exact gone_setProc hp hst

theorem killBegin_acts (hm : S.marks i)
    (ho : S.opens (.kill i why)) (h : k.killBegin me i why = some k') : Acts S (k, w) (k', w) := by
  obtain ⟨p, hp, rfl⟩ := killBegin_some h
  exact mark_acts hw hp (.inl rfl) hm ho

theorem breakBegin_acts (hm : S.marks i)
    (ho : S.opens (.break i why)) (h : k.breakBegin me i why = some k') :
    Acts S (k, w) (k', w) := by
  unfold breakBegin at h
  split at h
  · cases h
  next p hp =>
  split at h
  · cases h
  split at h
  · cases h
  · cases h
    exact mark_acts hw hp (.inr rfl) hm ho

theorem reapBegin_acts (ho : S.opens (.reap i))
    (h : k.reapBegin me i = some k') : Acts S (k, w) (k', w) := by
  unfold reapBegin at h
  split at h
  · cases h
  next p hp =>
  split at h
  · cases h
  next hb =>
  split at h
  · cases h
  cases h
  refine .one (.opens hw ?_) ho
  have hbroke : p.status = .broke := Classical.byContradiction fun e => hb (.inl e)
  rw [Sched.gone_iff]
  exact .inr ((Sched.statusOf_eq hp).trans hbroke)

theorem killEnd_acts (hS : S.works) (hm : S.marks i) (hs : S.sheds i (k.sch.gone i))
    (hn : ∀ x ∈ k.watchersOf i, ∀ j, k.findProc x.1 = some j → S.notices j) :
    Acts S (k, w) (k.killEnd memOk i why, w) := by
  have h1 : ∀ {S : Scope}, Acts S (k, w) (k.procFreestate i, w) := procFreestate_acts hw i
  have hsch := sch_procFreestate k i
  have hwatch := watchersOf_procFreestate k i i
  unfold killEnd
  generalize k.procFreestate i = k1 at h1 hsch hwatch ⊢
  have h2 : Acts S (k1, w) (procDetach memOk k1 i why false, w) := by
    refine procDetach_acts hw hS (by rw [hsch]; exact hs) fun x hx j hj => hn x (hwatch ▸ hx) j ?_
    rwa [(h1 (S := {})).findProc nofun nofun nofun] at hj
  exact (h1.trans h2).trans (setDead_acts hw hm)

/-- The end of a teardown: the rights go and the watchers are told. -/
theorem finish_acts (hS : S.works) (hm : S.marks t.slot) (hcl : S.closes t)
    (hs : t.detaches = true → S.sheds t.slot (k.sch.gone t.slot)) (hn : t.detaches = true →
      ∀ x ∈ k.watchersOf t.slot, ∀ j, k.findProc x.1 = some j → S.notices j) :
    Acts S (k, w) (k.finish memOk t, w) := by
  have h0 : Acts S (k, w) ({ k with teardowns := k.teardowns.erase t }, w) :=
    .one (.closes hw) hcl
  unfold finish
  cases t with
  | kill i why => exact h0.trans (killEnd_acts hw hS hm (hs rfl) (hn rfl))
  | «break» i why => exact h0.trans (procDetach_acts hw hS (hs rfl) (hn rfl))
  | reap i => exact (h0.trans (procFreestate_acts hw i)).trans (setDead_acts hw hm)

end

/-! ## Birth -/

/-- The slot `proc_new` would take for a new proc. -/
theorem freeSlot_some (hf : k.freeSlot = some i) :
    k.sch.statusOf i = .dead ∧ i ≤ k.procv.length := by
  obtain ⟨h1, h2, -⟩ := List.find?_range_eq_some.mp hf
  refine ⟨?_, Nat.lt_succ_iff.mp (mem_range.mp h2)⟩
  unfold slotFree at h1
  unfold Sched.statusOf
  cases hp : k.sch.procs[i]? with
  | none => rfl
  | some p =>
    simp only [hp, Bool.and_eq_true, beq_iff_eq] at h1
    exact h1.1

theorem freeSlot_congr (hp : k'.procv = k.procv) (hs : k'.sch = k.sch) :
    k'.freeSlot = k.freeSlot := by
  have e : k'.slotFree = k.slotFree := by
    funext i
    unfold slotFree
    rw [hs]
  unfold freeSlot
  rw [e, hp]

/-- What making a proc in slot `i` may do: wipe the old record, name the new one, drop its self port
again if the chunk does not load, and hatch the proc. -/
structure Scope.Bears (S : Scope) (k : Kernel) (i : Nat) : Prop where
  wipes : ∀ pr, k.procv[i]? = some pr → S.wipes i (tableRefs pr.rights)
  names : S.names i
  drops : S.drops i 0 true
  hatches : S.hatches i (k.teardowns.all (·.slot != i))

structure Wiped (k : Kernel) (i : Nat) (k' : Kernel) : Prop where
  record : k'.procv[i]? = some KProc.zero
  dead : k'.sch.statusOf i = .dead
  slot : k.Roomy → ∃ p, k'.sch.procs[i]? = some p
  teardowns : k'.teardowns = k.teardowns

theorem wipeSlot_acts (hw : Plain w) (hS : S.Bears k i) (hd : k.sch.statusOf i = .dead)
    (hi : i ≤ k.procv.length) : Acts S (k, w) (k.wipeSlot i, w) ∧ Wiped k i (k.wipeSlot i) := by
  cases hpr : k.procv[i]? with
  | none =>
    have hlen : i = k.procv.length := by
      have := List.getElem?_eq_none_iff.mp hpr
      omega
    refine ⟨.one (.grow hw hpr hd) hS.names, ?_, (calms_grow hpr).dead i |>.mpr hd, ?_,
      teardowns_wipeSlot⟩
    · rw [wipeSlot_none hpr, hlen]
      exact List.getElem?_concat_length
    · intro hz
      unfold Roomy at hz
      rw [wipeSlot_none hpr]
      refine ⟨_, List.getElem?_eq_getElem ?_⟩
      simp only [length_append, length_singleton]
      omega
  | some pr =>
    have hlt := (List.getElem?_eq_some_iff.mp hpr).1
    refine ⟨.one (.wipe hw hpr hd) (hS.wipes pr hpr), ?_, (calms_wipeSlot hpr hd).dead i |>.mpr hd,
      ?_, teardowns_wipeSlot⟩
    · rw [wipeSlot_some hpr]
      exact List.getElem?_set_self hlt
    · intro hz
      unfold Roomy at hz
      rw [wipeSlot_some hpr]
      exact ⟨_, List.getElem?_set_self (by omega)⟩

theorem rightNew_wiped (hi : k.procv[i]? = some pr) (hr : pr.rights = RightTable.empty)
    (hh : pr.rhint = 0) : (rightNew true k i p true).1 = some 0 := by
  unfold rightNew
  rw [hi]
  simp only [hr, hh]
  rfl

theorem modProc_eq (hi : k.procv[i]? = some pr) (f : KProc → KProc) :
    k.modProc i f = k.setProc i (f pr) := by
  unfold modProc
  rw [hi]

theorem procv_setProc_same (hi : k.procv[i]? = some pr) (pr' : KProc) :
    (k.setProc i pr').procv[i]? = some pr' :=
  set_slot hi

theorem rightDrop_freestate_acts (hw : Plain w) (hS : S.works) (hr : k.SlotAt i 0 r)
    (hd : S.drops i 0 true) (hg : k.sch.gone i = true) :
    Acts S (k, w) ((k.rightDrop i 0).procFreestate i, w) := by
  refine (rightDrop_acts hw hS hr ?_).trans (procFreestate_acts hw i)
  rw [hg]
  exact hd

structure Hatched (k : Kernel) (i : Nat) : Prop where
  self : k.SelfAt i
  watchers : k.watchersOf i = []
  status : k.sch.statusOf i = .hatching

section

variable (env : NewEnv) (hw : Plain w) (hS : S.works)

include env hw hS

/-- The end of `proc_new`: the new proc hatches with its self port in slot 0. -/
theorem procLoad_acts (hn : S.names i)
    (hdrop : S.drops i 0 true) (hh : S.hatches i (k.teardowns.all (·.slot != i)))
    (hi : k.procv[i]? = some pr) (hr : pr.rights.slots[0]? = some ⟨p, true, true⟩)
    (hwatch : pr.watchers = []) (hd : k.sch.statusOf i = .dead) :
    Acts S (k, w) ((procLoad env k i p).2, w) ∧
      ∀ c, (procLoad env k i p).1 = some c → c = i ∧
        ((∃ p, k.sch.procs[i]? = some p) → Hatched (procLoad env k i p).2 i) := by
  let pr1 : KProc := { pr with selfidx := p.idx, selfgen := p.gen }
  have e1 : (k.modProc i fun pr => { pr with selfidx := p.idx, selfgen := p.gen }) =
      k.setProc i pr1 := modProc_eq hi _
  have hi1 := procv_setProc_same hi pr1
  have h1 : Acts S (k, w) (k.setProc i pr1, w) := .one (.name hw hi hd rfl rfl) hn
  unfold procLoad
  simp only [e1]
  split
  · let pr2 : KProc :=
      { pr1 with memLimit := env.memLimit, portLimit := env.portLimit, exitcode := 0, exitmsg := [] }
    have e2 : ((k.setProc i pr1).modProc i fun pr =>
        { pr with memLimit := env.memLimit, portLimit := env.portLimit, exitcode := 0, exitmsg := [] }) =
        (k.setProc i pr1).setProc i pr2 := modProc_eq hi1 _
    rw [e2]
    have hi2 := procv_setProc_same hi1 pr2
    have h2 : Acts S (k.setProc i pr1, w) ((k.setProc i pr1).setProc i pr2, w) :=
      .one (.proc hw hi1 ⟨rfl, rfl, rfl, rfl, rfl⟩) trivial
    have hs : ((k.setProc i pr1).setProc i pr2).SelfAt i := ⟨pr2, _, hi2, hr, rfl, rfl⟩
    refine ⟨(h1.trans h2).trans (Acts.one (.hatch hw hs) hh), fun c hc => ⟨(Option.some.inj hc).symm, ?_⟩⟩
    rintro ⟨q, hq⟩
    refine ⟨hs, (watchersOf_eq hi2).trans hwatch, ?_⟩
    show (k.sch.setStatus i .hatching).statusOf i = .hatching
    unfold Sched.setStatus
    simp only [hq]
    exact Sched.statusOf_eq (Sched.procs_setProc_same hq)
  · refine ⟨h1.trans (rightDrop_freestate_acts hw hS ⟨_, hi1, hr, rfl⟩ hdrop ?_), nofun⟩
    exact Sched.gone_iff.mpr (.inl hd)

/-- `proc_new` from the self port on: a wiped table has slot 0 free, so the port gets its right. -/
theorem procPort_acts (hn : S.names i)
    (hdrop : S.drops i 0 true) (hh : S.hatches i (k.teardowns.all (·.slot != i)))
    (hi : k.procv[i]? = some pr) (hempty : pr.rights = RightTable.empty) (hhint : pr.rhint = 0)
    (hwatch : pr.watchers = []) (hd : k.sch.statusOf i = .dead) :
    Acts S (k, w) ((procPort env k i).2, w) ∧
      ∀ c, (procPort env k i).1 = some c → c = i ∧
        ((∃ p, k.sch.procs[i]? = some p) → Hatched (procPort env k i).2 i) := by
  unfold procPort
  rcases hp : portNew env.params env.portOk k with ⟨_ | port, k1⟩
  · rw [portNew_none hp]
    exact ⟨procFreestate_acts hw i, nofun⟩
  · have hb := (portNew_some hp).1
    have hi1 : k1.procv[i]? = some pr := hb.procv ▸ hi
    have h0 : (rightNew true k1 i port true).1 = some 0 := rightNew_wiped hi1 hempty hhint
    rcases hr : rightNew true k1 i port true with ⟨_, k2⟩
    rw [hr] at h0
    cases h0
    have hm := rightNew_some hr
    have h1 : Acts S (k, w) (k2, w) := .one (.birth hw hb hm) trivial
    obtain ⟨t, hi2⟩ := hm.record hi1
    have hslot : k2.SlotAt i 0 ⟨port, true, true⟩ := hm.slotAt_iff.mpr (.inr ⟨rfl, rfl, rfl⟩)
    have hsch : k2.sch = k.sch := hm.beside.sch.trans hb.beside.sch
    have h2 := procLoad_acts env hw hS hn hdrop
      (by rw [hm.beside.teardowns, hb.beside.teardowns]; exact hh) hi2
        ((slotAt_same hi2).mp hslot).1 hwatch
      (by rw [hsch]; exact hd)
    simp only [hr]
    refine ⟨h1.trans h2.1, fun c hc => ⟨(h2.2 c hc).1, fun hq => (h2.2 c hc).2 ?_⟩⟩
    rw [hsch]
    exact hq

theorem procBuild_acts {k0 : Kernel} (hb : S.Bears k0 i)
    (hwd : Wiped k0 i k) : Acts S (k, w) ((procBuild env k i).2, w) ∧
      ∀ c, (procBuild env k i).1 = some c → c = i ∧
      (k0.Roomy → Hatched (procBuild env k i).2 i) := by
  unfold procBuild
  split
  · let pr : KProc := { KProc.zero with id := k.nextpid, hasL := true }
    have e1 : (k.modProc i fun pr => { pr with id := k.nextpid, hasL := true }) = k.setProc i pr :=
      modProc_eq hwd.record _
    simp only [e1]
    have h1 : Acts S (k, w) (k.setProc i pr, w) :=
      .one (.name hw hwd.record hwd.dead rfl rfl) hb.names
    have h2 : Acts S (k.setProc i pr, w) ({ k.setProc i pr with nextpid := k.nextpid + 1 }, w) :=
      skip_acts hw ⟨rfl, rfl, rfl, rfl, rfl, rfl, rfl, rfl⟩
    have hh : S.hatches i (k.teardowns.all (·.slot != i)) := by
      rw [hwd.teardowns]
      exact hb.hatches
    have h3 := procPort_acts (k := { k.setProc i pr with nextpid := k.nextpid + 1 }) env hw
      hS hb.names hb.drops hh (procv_setProc_same hwd.record pr) rfl rfl rfl hwd.dead
    exact ⟨(h1.trans h2).trans h3.1, fun c hc => ⟨(h3.2 c hc).1, fun hz => (h3.2 c hc).2 (hwd.slot hz)⟩⟩
  · exact ⟨.refl, nofun⟩

theorem procNew_acts
    (hb : ∀ i, k.freeSlot = some i → S.Bears k i) : Acts S (k, w) ((procNew env k).2, w) ∧
      ∀ c, (procNew env k).1 = some c → k.freeSlot = some c ∧
      (k.Roomy → Hatched (procNew env k).2 c) := by
  unfold procNew
  split
  · exact ⟨.refl, nofun⟩
  next i hf =>
  split
  · exact ⟨.refl, nofun⟩
  split
  · exact ⟨.refl, nofun⟩
  obtain ⟨hd, hi⟩ := freeSlot_some hf
  obtain ⟨h1, hwd⟩ := wipeSlot_acts hw (hb i hf) hd hi
  obtain ⟨h2, h3⟩ := procBuild_acts env hw hS (hb i hf) hwd
  refine ⟨h1.trans h2, fun c hc => ?_⟩
  obtain ⟨rfl, h4⟩ := h3 c hc
  exact ⟨hf, h4⟩

end

/-! ## Spawning -/

/-- A proc that was made and has done nothing yet. -/
structure Young (k : Kernel) (i : Nat) : Prop where
  self : k.SelfAt i
  alive : k.sch.gone i = false
  watchers : k.watchersOf i = []

theorem Hatched.young (hh : Hatched k i) : Young k i := by
  refine ⟨hh.self, ?_, hh.watchers⟩
  unfold Sched.gone
  rw [hh.status]
  rfl

/-- What is done to others leaves a young proc as it is. -/
theorem Young.acts (hy : Young k i) (hs : Acts {} (k, w) (k', w))
    (hwatch : k'.watchersOf i = k.watchersOf i) : Young k' i :=
  ⟨hs.selfAt nofun nofun nofun nofun hy.self, (hs.gone nofun nofun i).trans hy.alive,
    hwatch.trans hy.watchers⟩

theorem watchersOf_luabufDetach (k : Kernel) (b : Nat) :
    (luabufDetach i k b).watchersOf j = k.watchersOf j := by
  unfold luabufDetach
  split
  · rfl
  next pr hpr =>
  split
  · rfl
  next lb _ =>
  exact watchersOf_set { kbufUncharge pr lb.len with bufs := pr.bufs.set b lb.gone } hpr rfl rfl j

theorem watchersOf_luabufDetach_all (bs : List Nat) :
    (bs.foldl (luabufDetach i) k).watchersOf j = k.watchersOf j := by
  induction bs generalizing k with
  | nil => rfl
  | cons b bs ih => exact ih.trans (watchersOf_luabufDetach k b)

/-- The parent gets a send right to the child's self port. -/
theorem spawnLaunch_acts (env : SpawnEnv) (hw : Plain w) (hc : k.Counted w) (hy : Young k i) :
    Acts S (k, w) ((spawnLaunch env k i).2, w) := by
  have hready : k.sch.Moves (k.sch.makeReady i) := by
    refine .ready fun e => ?_
    have hg := Sched.gone_iff.mpr (.inl e)
    rw [hy.alive] at hg
    cases hg
  have h1 : Acts S (k, w) (k.procLaunch i, w) := sched_acts hw hready
  have hc1 := h1.counted hc hw.frees
  unfold spawnLaunch
  simp only
  split
  · exact h1
  next pr hpr =>
  obtain ⟨pr', r, hpr', hr, hu, -⟩ := hy.self
  have hs : (k.procLaunch i).SlotAt i 0 r := ⟨pr', hpr', hr, hu⟩
  obtain ⟨q, hq⟩ := hc1.slotAt_portOf hs
  rw [← slot0_of_slotAt hs hpr] at hq
  have h2 : Acts S (k.procLaunch i, w)
      ((rightNew env.xrightsOk (k.procLaunch i) env.send.proc (slot0 pr.rights).port false).2, w) :=
    rightNew_acts hw hq
  split
  next e =>
    rw [e] at h2
    exact h1.trans h2
  next e =>
    rw [e] at h2
    exact h1.trans h2

/-- What `sys.spawn` may do to the slot of the child. -/
structure Scope.Spawns (S : Scope) (k : Kernel) (i : Nat) : Prop extends S.Bears k i where
  marks : S.marks i
  sheds : S.sheds i true
  opens : ∀ why, S.opens (.kill i why) ∧ S.closes (.kill i why)

theorem Scope.Spawns.congr (h : S.Spawns k i) (hp : k'.procv = k.procv)
    (ht : k'.teardowns = k.teardowns) : S.Spawns k' i where
  wipes := hp ▸ h.wipes
  names := h.names
  drops := h.drops
  hatches := ht ▸ h.hatches
  marks := h.marks
  sheds := h.sheds
  opens := h.opens

/-- A child that cannot be handed its argument is killed, and has nobody to tell. -/
theorem spawnFailed_acts (env : SpawnEnv) (hw : Plain w) (hS : S.works) (hm : S.marks i)
    (hs : S.sheds i true) (ho : ∀ why, S.opens (.kill i why) ∧ S.closes (.kill i why))
    (hy : Young k i) : Acts S (k, w) ((spawnFailed env k i).2, w) := by
  unfold spawnFailed
  generalize some ("spawn: could not deliver arg".toList.map Char.toUInt8) = why
  simp only
  split
  · exact .refl
  next k1 hk =>
  refine (killBegin_acts hw hm (ho why).1 hk).trans
    (finish_acts (t := .kill i why) hw hS hm (ho why).2 (fun _ => ?_) fun _ x hx => ?_)
  · obtain ⟨p, hp, rfl⟩ := killBegin_some hk
    show S.sheds i ((k.sch.setProc i _).gone i)
    rw [gone_setProc hp (.inl rfl)]
    exact hs
  · obtain ⟨p, hp, rfl⟩ := killBegin_some hk
    have hx' : x ∈ k.watchersOf i := hx
    rw [hy.watchers] at hx'
    cases hx'

/-- Handing over the argument, with the references of the message in hand. -/
theorem spawnArg_acts {env : SpawnEnv} {wb : WBuf} (hw : Plain w)
    (hS : S.works) (hm : S.marks i) (hsh : S.sheds i true)
    (hop : ∀ why, S.opens (.kill i why) ∧ S.closes (.kill i why))
    (hc : k.Counted (wb.refs.map .ref ++ w)) (hy : Young k i) (h : spawnArg env k wb i = some o) :
    Acts S (k, wb.refs.map .ref ++ w) (o.2, w) := by
  have hpl : Plain (wb.refs.map .ref ++ w) := plain_refs hw
  have h1 : ∀ {S : Scope}, Acts S (k, wb.refs.map .ref ++ w)
      (wb.bufown.foldl (luabufDetach env.send.proc) k, wb.refs.map .ref ++ w) :=
    luabufDetach_all hpl _
  have hy1 := hy.acts h1 (watchersOf_luabufDetach_all _)
  unfold spawnArg at h
  simp only at h
  generalize wb.bufown.foldl (luabufDetach env.send.proc) k = k1 at h h1 hy1
  let m : Kmsg := ⟨wb.data, wb.bufs, 0, wb.refs⟩
  -- the walk, then the buffers nobody took and the references
  have tail : ∀ {l : List Ev} {s : DesState}, Opened i (.start k1 m) l s →
      (∀ {S : Scope}, S.works → Acts S (k, wb.refs.map .ref ++ w)
        ((s.k.msgbufsFree s.bufs).releaseInflight wb.refs, w)) ∧
      Young ((s.k.msgbufsFree s.bufs).releaseInflight wb.refs) i := by
    intro l s ho
    have h2 : ∀ {S : Scope}, Acts S (k1, wb.refs.map .ref ++ w) (s.k, wb.refs.map .ref ++ w) :=
      ho.acts hpl
    have h3 : ∀ {S : Scope}, Acts S (s.k, wb.refs.map .ref ++ w)
        (s.k.msgbufsFree s.bufs, wb.refs.map .ref ++ w) :=
      skip_acts hpl ⟨rfl, rfl, rfl, rfl, rfl, rfl, rfl, rfl⟩
    have h4 : ∀ {S : Scope}, S.works → Acts S (s.k.msgbufsFree s.bufs, wb.refs.map .ref ++ w)
        ((s.k.msgbufsFree s.bufs).releaseInflight wb.refs, w) := fun hS =>
      releaseInflight_acts hS wb.refs
    refine ⟨fun hS => ((h1.trans h2).trans h3).trans (h4 hS), ?_⟩
    have hy2 := (hy1.acts h2 (ho.watchers i)).acts h3 rfl
    have h5 := h4 (S := {}) trivial
    have hsame := sameHolders_releaseInflight (s.k.msgbufsFree s.bufs) wb.refs
    exact ⟨h5.selfAt nofun nofun nofun nofun hy2.self, (h5.gone nofun nofun i).trans hy2.alive,
      (watchersOf_congr hsame.procv).trans hy2.watchers⟩
  have failed : ∀ {x : Fault} {s : DesState},
      deserialize (env.recv i) (maxDepth + 1) (.start k1 m) = (.error x, s) →
      Acts S (k, wb.refs.map .ref ++ w)
        ((spawnFailed env ((s.k.msgbufsFree s.bufs).releaseInflight wb.refs) i).2, w) := by
    intro x s hd
    obtain ⟨pre, e, post, u, -, -, ho, -⟩ := deserialize_opened hd
    obtain ⟨h5, hy5⟩ := tail ho
    exact (h5 hS).trans (spawnFailed_acts env hw hS hm hsh hop hy5)
  have hstart : (⟨k1, wb.data, wb.bufs, [], 0, 0⟩ : DesState) = .start k1 m := rfl
  rw [hstart] at h
  match hd : deserialize (env.recv i) (maxDepth + 1) (.start k1 m), h with
  | (.ok v, s), rfl =>
    obtain ⟨h5, hy5⟩ := tail (deserialize_opened hd)
    exact (h5 hS).trans (spawnLaunch_acts env hw ((h5 (S := {}) trivial).counted hc hpl.frees) hy5)
  | (.error .corrupt, s), rfl | (.error .limit, s), rfl => exact failed hd

/-- The walk over the argument, under the wide lock. -/
theorem spawnWalk_acts {l : List Item} {s : SerState} (hw : Plain w) (hc : k.Counted w)
    (ht : Through i ⟨k.ipclockEnter, .zero, 0⟩ l s) : Acts S (k, w) (s.k, s.w.refs.map .ref ++ w) := by
  have h1 : Acts S (k, w) (k.ipclockEnter, w) := ipclockEnter_acts hw
  have hc1 : k.ipclockEnter.Counted w := h1.counted hc hw.frees
  exact h1.trans (through_acts ht hw hc1)

theorem apiSpawn_acts {env : SpawnEnv} {arg : Option LVal}
    (hw : Plain w) (hS : S.works) (hb : ∀ i, k.freeSlot = some i → S.Spawns k i) (hz : k.Roomy)
    (hc : k.Counted w) (hloses : ∀ v, arg = some v →
      MeetsGone env.send (maxDepth + 1) ⟨k.ipclockEnter, .zero, 0⟩ v → ∀ refs, S.loses refs)
    (h : apiSpawn env k arg = some o) : Acts S (k, w) (o.2, w) := by
  unfold apiSpawn at h
  split at h
  · have h1 := procNew_acts env.new hw hS fun i hi => (hb i hi).toBears
    split at h
    next k1 hn =>
      cases h
      rw [hn] at h1
      exact h1.1
    next i k1 hn =>
    cases h
    rw [hn] at h1
    obtain ⟨-, hh⟩ := h1.2 i rfl
    exact h1.1.trans (spawnLaunch_acts env hw (h1.1.counted hc hw.frees) (hh hz).young)
  next v =>
    rcases hser : serialize env.send (maxDepth + 1) v
      ⟨k.ipclockEnter, .zero, 0⟩ with ⟨(_ | _) | ⟨⟩, s⟩ <;> rw [hser] at h
    · cases h
      obtain ⟨pre, x, post, u, t, -, -, -, ht⟩ := serialize_error hser
      exact ((spawnWalk_acts hw hc ht).trans (releaseInflight_acts hS s.w.refs)).trans
        (ipclockLeave_acts hw)
    · cases h
      obtain ⟨pre, x, post, u, t, -, -, -, ht⟩ := serialize_error hser
      have hl := hloses v rfl (serialize_raise_iff.mp ⟨s, hser⟩) s.w.refs
      exact (spawnWalk_acts hw hc ht).trans (Acts.one (.lose hw) hl)
    · simp only at h
      obtain ⟨z, -, -, -, ht⟩ := serialize_ok hser
      have hpl : Plain (s.w.refs.map .ref ++ w) := plain_refs hw
      have h1 : Acts S (k, w) (s.k.ipclockLeave, s.w.refs.map .ref ++ w) :=
        (spawnWalk_acts hw hc ht).trans (ipclockLeave_acts hpl)
      have hprocv : s.k.ipclockLeave.procv = k.procv := ht.procv
      have hsch : s.k.ipclockLeave.sch = k.sch := by
        rw [ht.k]
        exact sch_takeRefs _ _
      have htear : s.k.ipclockLeave.teardowns = k.teardowns := by
        rw [ht.k]
        exact (sameHolders_takeRefs _ _).teardowns
      have hb1 : ∀ i, s.k.ipclockLeave.freeSlot = some i → S.Spawns s.k.ipclockLeave i :=
        fun i hi => (hb i ((freeSlot_congr hprocv hsch).symm.trans hi)).congr hprocv htear
      have hc1 : s.k.ipclockLeave.Counted (s.w.refs.map .ref ++ w) := h1.counted hc hw.frees
      have h2 := procNew_acts env.new hpl hS fun i hi => (hb1 i hi).toBears
      split at h
      next k1 hn =>
        cases h
        rw [hn] at h2
        exact (h1.trans h2.1).trans (releaseInflight_acts hS s.w.refs)
      next i k1 hn =>
      rw [hn] at h2
      obtain ⟨hf, hh⟩ := h2.2 i rfl
      have hsp := hb1 i hf
      exact (h1.trans h2.1).trans (spawnArg_acts hw hS hsp.marks hsp.sheds hsp.opens
        (h2.1.counted hc1 hpl.frees) (hh (h1.roomy hz)).young h)

/-- `sys.monitor` of a proc that is not there sends the notice at once, to the caller. -/
theorem apiMonitor_acts {pid : Int} (hw : Plain w)
    (hn : (k.findProc pid).filter (fun j => k.sch.statusOf j != .broke) = none → S.notices i) :
    Acts S (k, w) ((apiMonitor memOk k i pid).2, w) := by
  unfold apiMonitor
  split
  · exact .refl
  next pr hpr =>
  split
  next hnone => exact notifyExit_acts hw (hn hnone)
  · split
    · exact .refl
    next target htarget =>
    split
    · exact .refl
    split
    · exact .refl
    split
    · exact .refl
    · exact .one (.proc hw htarget ⟨rfl, rfl, rfl, rfl, rfl⟩) trivial

end Kernel

end Nlos
