import Nlos.Smp.Corpses

/-!
# Torn down once

`proc_kill` frees the state of a proc and then detaches it; `proc_break` detaches it, and
`proc_reap` frees the state of the corpse some time later. Each marks the proc first, in a region of
its own, and works on the slot it was given whatever the mark means to others. `proc_new` takes a
slot that is `DEAD` and in no cpu's hands. `proc_kill` writes `DEAD` before it begins, and of a proc
that is parked, queued or not launched yet no cpu has hold, so its slot can be taken from under it.
`proc_break` marks a proc it has found alive a moment earlier, without the lock.

A proc that is marked by the cpu that has it in hand stays in hand until that cpu is through, since
the loop that would let it go runs on the same cpu. So `proc_new` passes its slot over.

The books are kept for each slot: what has been done to its proc, what a routine under way is still
to do, and what waits for a corpse to be reaped add up to one detach and one free.
-/

namespace Nlos.Smp

open Machine Tally List

/-! ## Marks -/

/-- The step enters, on cpu `me`, the region that marks the proc of slot `i` `DEAD` or `BROKE`. -/
inductive Marks : Act → Nat → Nat → Prop where
  | kill {a : Act} {me i : Nat} {old : List Task} (ha : Kills a me i old) : Marks a me i
  | «break» (me i : Nat) : Marks (.breakMark me i) me i

/-- Each mark is made by the cpu that has the proc in hand, and where that is not so it is refused
or left. `proc_break` marks no corpse, and no proc is marked `DEAD` with a `make_ready` of it to
come. -/
structure Orderly (s : Machine) (a : Act) : Prop where
  waking : ∀ i, a.buries = some i → .wake i ∉ s.tasks ∧
    (.launch i ∈ s.tasks → ∃ me, a = .spawnFailed me i)
  rechecked : ∀ (me i : Nat) (r : Rec), a = .breakMark me i → s.procs[i]? = some r → r.gone = false
  inHand : ∀ me i r, Marks a me i → s.procs[i]? = some r → r.gone = false → r.oncpu ≠ 0

/-! ## The books -/

/-- What a routine that tears a proc down is there for. -/
inductive Duty where
  /-- It is still to detach the proc. -/
  | detach
  /-- It is still to free the state. -/
  | close
  /-- It is a `proc_reap`. -/
  | reap
  /-- It is a `proc_kill`. -/
  | kill
deriving DecidableEq, Repr

/-- The duties of a routine, at the stage it has come to. -/
def Task.duties : Task → List Duty
  | .kill _ _ .marked => [.detach, .close, .kill]
  | .kill _ _ .closed => [.detach, .kill]
  | .kill _ _ .detached => [.kill]
  | .broke _ _ => [.detach]
  | .reap _ _ false => [.close, .reap]
  | .reap _ _ true => [.reap]
  | _ => []

def Task.owes (k : Duty) (i : Nat) (t : Task) : Bool := t.slot == i && t.duties.contains k

/-- What is still to be done to a proc that is not marked. -/
def Rec.alive (r : Rec) : Nat := if r.gone then 0 else 1

/-- What is still to be done to a corpse that nobody reaps yet. -/
def Rec.kept (r : Rec) : Nat := if r.status = .broke ∧ r.reaping = false then 1 else 0

def Rec.owed (r : Rec) : Nat := if r.hatched then 1 else 0

/-- The books of a slot whose record is `r`, with `n` routines of each duty at it. -/
structure Books (r : Rec) (n : Duty → Nat) : Prop where
  detach : r.alive + n .detach + r.detaches = r.owed
  close : r.alive + r.kept + n .close + r.closes = r.owed
  reap : n .reap = if r.reaping then 1 else 0
  reaping : r.reaping = true → r.status = .broke
  kill : 0 < n .kill → r.status = .dead

def Machine.duties (s : Machine) (i : Nat) (k : Duty) : Nat := s.tasks.countP (Task.owes k i)

def Balanced (s : Machine) : Prop :=
  ∀ (i : Nat) (r : Rec), s.procs[i]? = some r → Books r (s.duties i)

/-! ## Counting routines -/

/-- A step ends one routine at most. -/
theorem Change.single {s : Machine} {a : Act} {i : Nat} {r r' : Rec} {old new : List Task} {d : Int}
    (h : Change s a i r r' old new d) : old.length ≤ 1 := by
  cases h with
  | killRefused ha | killLeft ha | killed ha | breakRefused ha | breakTested ha
  | reapRefused ha | reapLeft ha | reaped ha => cases ha <;> simp
  | _ => simp

theorem countP_turned {tasks old new : List Task} (p : Task → Bool) (h1 : old.length ≤ 1)
    (ho : ∀ t ∈ old, t ∈ tasks) :
    (new ++ tasks.diff old).countP p + old.countP p = new.countP p + tasks.countP p := by
  match old, h1 with
  | [], _ => rw [diff_nil, countP_append, countP_nil, Nat.add_zero]
  | [t], _ =>
    have ht := ho t (mem_singleton.mpr rfl)
    rw [diff_cons, diff_nil, countP_append, Nat.add_assoc,
      (perm_cons_erase ht).countP_eq p, countP_cons, countP_cons, countP_nil, Nat.zero_add]

variable {t : Task} {l : List Task} {me : Nat}

theorem owes_slot {k : Duty} {i : Nat} (h : t.owes k i = true) : t.slot = i :=
  beq_iff_eq.mp (Bool.and_eq_true_iff.mp h).1

theorem duties_idle (h : t.working = false) : t.duties = [] := by
  cases t <;> first | rfl | cases h

/-- Routines that tear nothing down have no duty. -/
theorem countP_owes_idle (h : ∀ t ∈ l, t.working = false) (k : Duty) (i : Nat) :
    l.countP (Task.owes k i) = 0 := by
  refine countP_eq_zero.mpr fun t ht => ?_
  rw [Task.owes, duties_idle (h t ht), contains_nil, Bool.and_false]
  exact Bool.false_ne_true

theorem Readies.idle {a : Act} {i : Nat} {pri : Int} (h : Readies a i pri t) :
    ∀ u ∈ [t], u.working = false := by
  intro u hu
  rw [mem_singleton.mp hu]
  cases h <;> rfl

theorem Kills.idle {a : Act} {i : Nat} {old : List Task} (h : Kills a me i old) :
    ∀ t ∈ old, t.working = false := by
  cases h <;> simp [Task.working]

theorem BreakTests.idle {a : Act} {i : Nat} {old : List Task} (h : BreakTests a me i old) :
    ∀ t ∈ old, t.working = false := by
  cases h <;> simp [Task.working]

theorem Reaps.idle {a : Act} {i : Nat} {old : List Task} (h : Reaps a me i old) :
    ∀ t ∈ old, t.working = false := by
  cases h <;> simp [Task.working]

theorem leftCalls_idle (me i : Nat) (r : Rec) : ∀ t ∈ leftCalls me i r, t.working = false := by
  intro t ht
  obtain ⟨what, rfl⟩ := leftCalls_call ht
  rfl

/-! ## The books over a step -/

namespace Books

variable {r r' : Rec} {n n' : Duty → Nat}

/-- A step that does not come near what the books are about. -/
theorem same (h : Books r n) (hs : r'.status = r.status) (hr : r'.reaping = r.reaping)
    (hh : r'.hatched = r.hatched) (hc : r'.closes = r.closes) (hd : r'.detaches = r.detaches)
    (hn : ∀ k, n' k = n k) : Books r' n' := by
  have ha : r'.alive = r.alive := by rw [Rec.alive, Rec.alive, Rec.gone, Rec.gone, hs]
  have hk : r'.kept = r.kept := by rw [Rec.kept, Rec.kept, hs, hr]
  have ho : r'.owed = r.owed := by rw [Rec.owed, Rec.owed, hh]
  constructor
  · rw [ha, hd, ho, hn]
    exact h.detach
  · rw [ha, hk, hc, ho, hn]
    exact h.close
  · rw [hr, hn]
    exact h.reap
  · rw [hr, hs]
    exact h.reaping
  · rw [hs, hn]
    exact h.kill

/-- The books of a proc that is alive: everything is to come, and no routine is at it. -/
theorem of_alive (hg : r.gone = false) :
    Books r n ↔ r.reaping = false ∧ 1 + n .detach + r.detaches = r.owed ∧
    1 + n .close + r.closes = r.owed ∧ n .reap = 0 ∧ n .kill = 0 := by
  have hb : r.status ≠ .broke := fun hb => by rw [gone_of_broke hb] at hg; cases hg
  have hd : r.status ≠ .dead := fun hd => by rw [gone_of_dead hd] at hg; cases hg
  have ha : r.alive = 1 := by rw [Rec.alive, hg]; rfl
  have hk : r.kept = 0 := if_neg fun h => hb h.1
  constructor
  · rintro ⟨h1, h2, h3, h4, h5⟩
    have hr : r.reaping = false := Bool.eq_false_iff.mpr fun hr => hb (h4 hr)
    rw [hr] at h3
    exact ⟨hr, by omega, by omega, h3, Nat.eq_zero_of_not_pos fun h => hd (h5 h)⟩
  · rintro ⟨hr, h1, h2, h3, h4⟩
    refine ⟨by omega, by omega, ?_, ?_, fun h5 => absurd h4 h5.ne'⟩
    · rw [hr]
      exact h3
    · rw [hr]
      nofun

/-- The books of a `DEAD` proc: what is not done is some routine's to do. -/
theorem of_dead (hs : r.status = .dead) :
    Books r n ↔ r.reaping = false ∧ n .detach + r.detaches = r.owed ∧ n .close + r.closes = r.owed ∧
      n .reap = 0 := by
  have ha : r.alive = 0 := by rw [Rec.alive, gone_of_dead hs, if_pos rfl]
  have hk : r.kept = 0 := if_neg fun h => by rw [hs] at h; cases h.1
  constructor
  · rintro ⟨h1, h2, h3, h4, -⟩
    have hr : r.reaping = false := Bool.eq_false_iff.mpr fun hr => by rw [h4 hr] at hs; cases hs
    rw [hr] at h3
    exact ⟨hr, by omega, by omega, h3⟩
  · rintro ⟨hr, h1, h2, h3⟩
    refine ⟨by omega, by omega, ?_, ?_, fun _ => hs⟩
    · rw [hr]
      exact h3
    · rw [hr]
      nofun

/-- The books of a corpse that is kept: its state waits for a `proc_reap`. -/
theorem of_broke (hs : r.status = .broke) : Books r n ↔ n .detach + r.detaches = r.owed ∧
      (if r.reaping then 0 else 1) + n .close + r.closes = r.owed ∧
      (n .reap = if r.reaping then 1 else 0) ∧ n .kill = 0 := by
  have ha : r.alive = 0 := by rw [Rec.alive, gone_of_broke hs, if_pos rfl]
  have hk : r.kept = if r.reaping then 0 else 1 := by
    rw [Rec.kept, hs]
    cases r.reaping <;> rfl
  constructor
  · rintro ⟨h1, h2, h3, -, h5⟩
    refine ⟨by omega, by omega, h3, Nat.eq_zero_of_not_pos fun h4 => ?_⟩
    rw [h5 h4] at hs
    cases hs
  · rintro ⟨h1, h2, h3, h4⟩
    exact ⟨by omega, by omega, h3, fun _ => hs, fun h5 => absurd h4 h5.ne'⟩

/-- `proc_detach` was done, by a routine that had it to do. -/
theorem detached (h : Books r n) (q : Option Bool) (hd : n' .detach + 1 = n .detach)
    (hc : n' .close = n .close) (hr : n' .reap = n .reap) (hk : n' .kill = n .kill) :
    Books { r with onq := q, detaches := r.detaches + 1 } n' := by
  refine ⟨?_, hc ▸ h.close, hr ▸ h.reap, h.reaping, hk ▸ h.kill⟩
  have := h.detach
  show r.alive + n' .detach + (r.detaches + 1) = r.owed
  omega

/-- `proc_freestate` was done, by a routine that had it to do. -/
theorem closed (h : Books r n) (hd : n' .detach = n .detach) (hc : n' .close + 1 = n .close)
    (hr : n' .reap = n .reap) (hk : n' .kill = n .kill) :
    Books { r with closes := r.closes + 1 } n' := by
  refine ⟨hd ▸ h.detach, ?_, hr ▸ h.reap, h.reaping, hk ▸ h.kill⟩
  have := h.close
  show r.alive + r.kept + n' .close + (r.closes + 1) = r.owed
  omega

theorem living (h : Books r n) (hg : r.gone = false) (hg' : r'.gone = false)
    (hr : r'.reaping = r.reaping)
    (hh : r'.hatched = r.hatched) (hc : r'.closes = r.closes) (hd : r'.detaches = r.detaches)
    (hn : ∀ k, n' k = n k) : Books r' n' := by
  have ho : r'.owed = r.owed := by rw [Rec.owed, Rec.owed, hh]
  rw [of_alive hg']
  simp only [hr, hc, hd, ho, hn]
  exact (of_alive hg).mp h

end Books

section Step

variable {s s' : Machine} {a : Act} {i : Nat} {r r' : Rec} {old new : List Task} {d : Int}

theorem Change.books {n : Duty → Nat} (hc : Change s a i r r' old new d) (ho : Orderly s a)
    (hm : Mourned s)
    (hin : ∀ t ∈ old, t ∈ s.tasks) (hr : s.procs[i]? = some r) (h : Books r (s.duties i))
    (hn : ∀ k, n k + old.countP (Task.owes k i) = new.countP (Task.owes k i) + s.duties i k) :
    Books r' n := by
  -- where no teardown begins, goes on or ends, the duties are what they were
  have hidle (h1 : ∀ t ∈ old, t.working = false) (h2 : ∀ t ∈ new, t.working = false) (k : Duty) :
      n k = s.duties i k := by
    have := hn k
    rw [countP_owes_idle h1, countP_owes_idle h2] at this
    omega
  have howed {t : Task} {k : Duty} (ht : t ∈ old) (hk : t.duties.contains k = true) : 0 <
      s.duties i k := by
    refine countP_pos_iff.mpr ⟨t, hin t ht, ?_⟩
    rw [Task.owes, hc.slots.1 t ht, beq_self_eq_true, hk, Bool.and_true]
  have hready : ∀ {pri t}, Readies a i pri t → t ∈ s.tasks →
    ¬(r.status = .stopped ∨ r.status = .broke) → r.gone = false := by
    intro pri t ha ht hs
    refine Bool.eq_false_iff.mpr fun hg => ?_
    exact (dead_or_broke hg).elim (hm.readies ha ht hr) fun hb => hs (.inr hb)
  -- the duties behind the step, where the routines are known
  have hd := hn .detach
  have hcl := hn .close
  have hrp := hn .reap
  have hkl := hn .kill
  cases hc with
  | readyRefused ha | killRefused ha | killLeft ha | breakRefused ha | reapRefused ha
  | reapLeft ha => exact h.same rfl rfl rfl rfl rfl (hidle ha.idle nofun)
  | readyStopped ha hs =>
    have hg : r.gone = false := by rw [Rec.gone, hs]; rfl
    exact h.living hg rfl rfl rfl rfl rfl (hidle ha.idle nofun)
  | readyHeld ha hs | readyQueued ha hs =>
    have hg := hready ha (hin _ (mem_singleton.mpr rfl)) hs
    exact h.living hg rfl rfl rfl rfl rfl (hidle ha.idle nofun)
  | killed ha hg =>
    simp [countP_owes_idle ha.idle, Task.owes, Task.slot, Task.duties] at hd hcl hrp
    obtain ⟨h1, h2, h3, h4, -⟩ := (Books.of_alive hg).mp h
    exact (Books.of_dead rfl).mpr ⟨h1, by rw [hd]; exact h2, by rw [hcl]; exact h3, hrp.trans h4⟩
  | killClosed | reapClosed =>
    simp [Task.owes, Task.slot, Task.duties] at hd hcl hrp hkl
    exact h.closed (by omega) hcl (by omega) (by omega)
  | killDetached | breakDetached =>
    simp [Task.owes, Task.slot, Task.duties] at hd hcl hrp hkl
    exact h.detached _ hd hcl hrp (by omega)
  | killEnded =>
    simp [Task.owes, Task.slot, Task.duties] at hd hcl hrp
    have hs := h.kill (howed (mem_singleton.mpr rfl) rfl)
    obtain ⟨h1, h2, h3, h4⟩ := (Books.of_dead hs).mp h
    exact (Books.of_dead rfl).mpr ⟨h1, hd ▸ h2, hcl ▸ h3, hrp.trans h4⟩
  | breakTested ha => exact h.same rfl rfl rfl rfl rfl (hidle ha.idle (by simp [Task.working]))
  | breakLeft => exact h.same rfl rfl rfl rfl rfl (hidle (by simp [Task.working]) nofun)
  | @broken me =>
    simp [Task.owes, Task.slot, Task.duties] at hd hcl hrp hkl
    obtain ⟨h1, h2, h3, h4, h5⟩ := (Books.of_alive (ho.rechecked me i r rfl hr)).mp h
    refine (Books.of_broke rfl).mpr ⟨?_, ?_, ?_, hkl.trans h5⟩
    · show n .detach + r.detaches = r.owed
      omega
    · rw [h1, hcl]
      exact h3
    · rw [h1, hrp]
      exact h4
  | reaped ha hb hnot =>
    simp [countP_owes_idle ha.idle, Task.owes, Task.slot, Task.duties] at hd hcl hrp hkl
    obtain ⟨h1, h2, h3, h4⟩ := (Books.of_broke hb).mp h
    rw [hnot] at h2 h3
    refine (Books.of_broke (r := { r with reaping := true }) hb).mpr ⟨hd ▸ h1, ?_, ?_, hkl.trans h4⟩
    · show 0 + n .close + r.closes = r.owed
      rw [hcl, Nat.zero_add]
      exact h2
    · rw [hrp, h3]
      rfl
  | reapEnded =>
    simp [Task.owes, Task.slot, Task.duties] at hd hcl hrp
    have hpos := howed (k := .reap) (mem_singleton.mpr rfl) rfl
    have hr : r.reaping = true := by
      by_contra hb
      exact absurd (h.reap.trans (if_neg hb)) hpos.ne'
    obtain ⟨h1, h2, h3, h4⟩ := (Books.of_broke (h.reaping hr)).mp h
    rw [hr, if_pos rfl] at h2 h3
    refine (Books.of_dead rfl).mpr ⟨rfl, hd ▸ h1, ?_, by omega⟩
    show n .close + r.closes = r.owed
    rw [hcl, ← h2, Nat.zero_add]
  | blocked _ hg => exact h.living hg rfl rfl rfl rfl rfl (hidle nofun nofun)
  | wakeTested => exact h.same rfl rfl rfl rfl rfl (hidle nofun (by simp [Task.working]))
  | released =>
    split <;> exact h.same rfl rfl rfl rfl rfl (hidle nofun (leftCalls_idle _ i r))
  | _ => exact h.same rfl rfl rfl rfl rfl (hidle nofun nofun)

theorem countP_owes_other {j : Nat} (h : ∀ t ∈ l, t.slot = i) (hj : j ≠ i) (k : Duty) :
    l.countP (Task.owes k j) = 0 := by
  refine countP_eq_zero.mpr fun t ht ho => hj ?_
  rw [← owes_slot ho, h t ht]

theorem Balanced.turned (h : Balanced s) (hm : Mourned s) (ho : Orderly s a)
    (hr : s.procs[i]? = some r) (hc : Change s a i r r' old new d) (hin : ∀ t ∈ old, t ∈ s.tasks)
    (hp : s'.procs = s.procs.set i r') (ht : s'.tasks = new ++ s.tasks.diff old) : Balanced s' := by
  have hn (j : Nat) (k : Duty) :
      s'.duties j k + old.countP (Task.owes k j) = new.countP (Task.owes k j) + s.duties j k := by
    rw [duties, ht]
    exact countP_turned _ hc.single hin
  intro j x hx
  obtain ⟨rfl, rfl⟩ | ⟨hj, hx⟩ := slot_turned hr hp hx
  · exact hc.books ho hm hin hr (h _ _ hr) (hn _)
  · refine (h j x hx).same rfl rfl rfl rfl rfl fun k => ?_
    have := hn j k
    rw [countP_owes_other hc.slots.1 hj, countP_owes_other hc.slots.2 hj] at this
    omega

variable {ok : Bool}

/-- No teardown is at the slot `proc_new` takes. -/
def SlotFree (s : Machine) : Prop := ∀ t ∈ s.tasks, t.working = true → t.slot ≠ s.freeSlot

theorem SlotFree.no_duty (hf : SlotFree s) (k : Duty) : s.duties s.freeSlot k = 0 := by
  refine countP_eq_zero.mpr fun t ht ho => ?_
  have hw : t.working = true := by
    refine Bool.not_eq_false _ ▸ fun hw => ?_
    rw [Task.owes, duties_idle hw, contains_nil, Bool.and_false] at ho
    cases ho
  exact hf t ht hw (owes_slot ho)

theorem duties_born (s : Machine) (ok : Bool) (j : Nat) (k : Duty) :
    (s.procNew ok).duties j k = s.duties j k := by
  rw [duties, procNew_tasks, duties]
  split
  · refine countP_cons_of_neg ?_
    rw [Task.owes, duties_idle rfl, contains_nil, Bool.and_false]
    exact Bool.false_ne_true
  · rfl

theorem Balanced.born (h : Balanced s) (hf : SlotFree s) : Balanced (s.procNew ok) := by
  intro j x hx
  obtain ⟨rfl, rfl⟩ | ⟨-, hx⟩ := slot_born hx
  · have hn (k : Duty) : (s.procNew ok).duties s.freeSlot k = 0 :=
      (duties_born s ok _ k).trans (hf.no_duty k)
    cases ok with
    | true => exact (Books.of_alive rfl).mpr ⟨rfl, by rw [hn]; rfl, by rw [hn]; rfl, hn _, hn _⟩
    | false => exact (Books.of_dead rfl).mpr ⟨rfl, by rw [hn]; rfl, by rw [hn]; rfl, hn _⟩
  · exact (h j x hx).same rfl rfl rfl rfl rfl (duties_born s ok j)

/-! ## The live count -/

def Rec.attached (r : Rec) : Bool := r.hatched && r.detaches == 0

theorem Books.attached {n : Duty → Nat} (h : Books r n) (hd : 0 < n .detach) :
    r.attached = true := by
  have h1 := h.detach
  unfold Rec.owed at h1
  unfold Rec.attached
  split at h1
  next hh =>
    rw [hh, Bool.true_and, beq_iff_eq]
    omega
  · omega

theorem Change.attached (hc : Change s a i r r' old new d) (hin : ∀ t ∈ old, t ∈ s.tasks)
    (h : Books r (s.duties i)) :
    ((if r'.attached then 1 else 0 : Nat) : Int) =
      ((if r.attached then 1 else 0 : Nat) : Int) + d := by
  have howed {t : Task} (ht : t ∈ old) (hk : t.duties.contains .detach = true) : r.attached =
      true := by
    refine h.attached (countP_pos_iff.mpr ⟨t, hin t ht, ?_⟩)
    rw [Task.owes, hc.slots.1 t ht, beq_self_eq_true, hk, Bool.and_true]
  have hgone : ({ r with onq := none, detaches := r.detaches + 1 } : Rec).attached = false := by
    simp [Rec.attached]
  cases hc with
  | killDetached | breakDetached =>
    rw [howed (mem_singleton.mpr rfl) rfl, hgone]
    rfl
  | released => split <;> exact (Int.add_zero _).symm
  | _ => exact (Int.add_zero _).symm

def LiveCounted (s : Machine) : Prop := s.nlive = (s.procs.countP Rec.attached : Nat)

theorem LiveCounted.turned (hl : LiveCounted s) (h : Balanced s) (hr : s.procs[i]? = some r)
    (hc : Change s a i r r' old new d) (hin : ∀ t ∈ old, t ∈ s.tasks)
    (hp : s'.procs = s.procs.set i r') (hn : s'.nlive = s.nlive + d) : LiveCounted s' := by
  have h1 := hc.attached hin (h i r hr)
  have h2 := tally_set (f := fun r : Rec => if r.attached then 1 else 0) r' hr
  rw [← countP_eq_tally, ← countP_eq_tally] at h2
  unfold LiveCounted at hl ⊢
  rw [hn, hp, hl]
  omega

theorem LiveCounted.born (hl : LiveCounted s) (h : Balanced s) (hf : SlotFree s) :
    LiveCounted (s.procNew ok) := by
  have hn : (s.procNew ok).nlive = s.nlive +
      ((if (Rec.born ok).attached then 1 else 0 : Nat) : Int) := by
    cases ok with
    | true => rfl
    | false => exact (Int.add_zero _).symm
  unfold LiveCounted at hl ⊢
  rw [hn, procNew_procs, hl]
  -- the record that was there is dead and has been detached
  have hold : ∀ r, s.procs[s.freeSlot]? = some r → (if r.attached then 1 else 0) = 0 :=
    fun r hr => by
    obtain ⟨-, hd, -, -⟩ := (Books.of_dead (freeSlot_rec hr).1).mp (h _ r hr)
    rw [hf.no_duty, Nat.zero_add] at hd
    rw [Rec.attached, hd, Rec.owed]
    cases r.hatched <;> rfl
  have h2 := tally_grow (f := fun r : Rec => if r.attached then 1 else 0) hold (Rec.born ok)
  rw [← countP_eq_tally, ← countP_eq_tally] at h2
  exact_mod_cast h2.symm

/-! ## In hand -/

/-- The routine on cpu `me` that has marked the proc of slot `i`. -/
def Task.marked (me i : Nat) : Task → Prop
  | .kill c j _ => c = me ∧ j = i
  | .broke c j => c = me ∧ j = i
  | _ => False

/-- A proc that was marked is in the hands of the cpu that marked it. -/
def Held (s : Machine) : Prop :=
  ∀ t ∈ s.tasks, ∀ me i, t.marked me i → ∃ r, s.procs[i]? = some r ∧ r.oncpu = me + 1

theorem marked_slot {i : Nat} (h : t.marked me i) : t.slot = i ∧ t.cpu = some me := by
  cases t with
  | kill c j ph =>
    obtain ⟨rfl, rfl⟩ := h
    exact ⟨rfl, rfl⟩
  | broke c j =>
    obtain ⟨rfl, rfl⟩ := h
    exact ⟨rfl, rfl⟩
  | _ => exact h.elim

/-- A cpu that lets a proc go is in none of these routines. -/
theorem not_idle (ht : t ∈ s.tasks) (hc : t.cpu = some me) : s.idle me ≠ true := by
  intro hi
  have := all_eq_true.mp hi t ht
  rw [hc] at this
  simp at this

/-- Over a step, a proc stays in the hands of a cpu that tears it down. -/
theorem Change.held (hc : Change s a i r r' old new d) (ht : t ∈ s.tasks) (hm : t.marked me i)
    (ho : r.oncpu = me + 1) : r'.oncpu = me + 1 := by
  have hbusy : ∀ {c}, r.oncpu = c + 1 → s.idle c ≠ true := by
    intro c hcpu
    obtain rfl : me = c := Nat.succ.inj (ho.symm.trans hcpu)
    exact not_idle ht (marked_slot hm).2
  cases hc with
  | dispatched _ h0 | parkedClaimed _ h0 => exact absurd (ho.symm.trans h0) (Nat.succ_ne_zero me)
  | released hcpu _ hi => exact absurd hi (hbusy hcpu)
  | goneLetGo _ hcpu _ hi => exact absurd hi (hbusy hcpu)
  | _ => exact ho

/-- A routine that has marked a proc has just done so, with the proc in hand, or goes on from one
that had. -/
theorem Change.newly (hc : Change s a i r r' old new d) (ho : Orderly s a)
    (hr : s.procs[i]? = some r)
    (ht : t ∈ new) (hm : t.marked me i) : r'.oncpu = me + 1 ∨ ∃ u ∈ old, u.marked me i := by
  have hmark : ∀ {c}, Marks a c i → r.gone = false → r.elsewhere c = false → r.oncpu = c + 1 := by
    intro c ha hg he
    have h0 := ho.inHand c i r ha hr hg
    simpa [Rec.elsewhere, h0] using he
  cases hc with
  | killed ha hg he =>
    rw [mem_singleton.mp ht] at hm
    obtain ⟨rfl, -⟩ := hm
    exact .inl (hmark (.kill ha) hg he)
  | @broken c _ _ he =>
    rw [mem_singleton.mp ht] at hm
    obtain ⟨rfl, -⟩ := hm
    exact .inl (hmark (.break c i) (ho.rechecked c i r rfl hr) he)
  | killClosed | killDetached =>
    rw [mem_singleton.mp ht] at hm
    exact .inr ⟨_, mem_singleton.mpr rfl, hm⟩
  | wakeTested | breakTested | reaped | reapClosed =>
    rw [mem_singleton.mp ht] at hm
    exact hm.elim
  | released =>
    obtain ⟨what, rfl⟩ := leftCalls_call ht
    exact hm.elim
  | _ => cases ht

theorem Held.turned (h : Held s) (ho : Orderly s a) (hr : s.procs[i]? = some r)
    (hc : Change s a i r r' old new d) (hin : ∀ t ∈ old, t ∈ s.tasks)
    (hp : s'.procs = s.procs.set i r') (ht : s'.tasks = new ++ s.tasks.diff old) : Held s' := by
  -- the routines that were there, and what the step leaves of their procs
  have stays : ∀ t ∈ s.tasks, ∀ c j, t.marked c j → ∃ x, s'.procs[j]? = some x ∧
      x.oncpu = c + 1 := by
    intro t hmem c j hm
    obtain ⟨x, hx, hcpu⟩ := h t hmem c j hm
    rw [turned_slots hr hp]
    split
    next hj =>
      subst hj
      obtain rfl := Option.some.inj (hr.symm.trans hx)
      exact ⟨r', rfl, hc.held hmem hm hcpu⟩
    · exact ⟨x, hx, hcpu⟩
  intro t hmem c j hm
  rw [ht] at hmem
  obtain hnew | hold := mem_append.mp hmem
  · obtain rfl : i = j := (hc.slots.2 t hnew).symm.trans (marked_slot hm).1
    obtain hcpu | ⟨u, hu, hmu⟩ := hc.newly ho hr hnew hm
    · exact ⟨r', by rw [turned_slots hr hp, if_pos rfl], hcpu⟩
    · exact stays u (hin u hu) c i hmu
  · exact stays t (diff_subset _ _ hold) c j hm

theorem Held.born (h : Held s) : Held (s.procNew ok) := by
  intro t hmem c j hm
  have hmem' : t ∈ s.tasks := by
    rw [procNew_tasks] at hmem
    split at hmem
    · exact (mem_cons.mp hmem).resolve_left fun e => (e ▸ hm : (Task.launch s.freeSlot).marked c j)
    · exact hmem
  obtain ⟨x, hx, hcpu⟩ := h t hmem' c j hm
  have hj : j ≠ s.freeSlot := by
    rintro rfl
    exact absurd (hcpu.symm.trans (freeSlot_rec hx).2) (Nat.succ_ne_zero c)
  exact ⟨x, by rw [born_slots, if_neg hj, hx], hcpu⟩

/-- `proc_new` looks for a slot that is `DEAD` and in no cpu's hands. What is being killed or broken
is in some cpu's hands, and what is being reaped is not `DEAD` yet. -/
theorem Held.slotFree (h : Held s) (hm : Mourned s) (hb : Balanced s) : SlotFree s := by
  intro t ht hw hs
  obtain ⟨r, hr, -⟩ := hm.working t ht hw
  rw [hs] at hr
  obtain ⟨hdead, hcpu⟩ := freeSlot_rec hr
  have held : ∀ c, t.marked c s.freeSlot → False := by
    intro c hmk
    obtain ⟨x, hx, hc⟩ := h t ht c _ hmk
    obtain rfl := Option.some.inj (hr.symm.trans hx)
    exact absurd (hc.symm.trans hcpu) (Nat.succ_ne_zero c)
  cases t with
  | kill c j ph => exact held c ⟨rfl, hs⟩
  | broke c j => exact held c ⟨rfl, hs⟩
  | reap c j closed =>
    obtain ⟨-, -, -, hnone⟩ := (Books.of_dead hdead).mp (hb _ r hr)
    have hpos : 0 < s.duties s.freeSlot .reap := by
      refine countP_pos_iff.mpr ⟨_, ht, ?_⟩
      rw [Task.owes, hs, beq_self_eq_true, Bool.true_and]
      cases closed <;> rfl
    exact absurd hnone hpos.ne'
  | _ => cases hw

end Step

/-! ## Every run -/

structure Kept (s : Machine) : Prop where
  unraced : Run Unraced s
  held : Held s
  balanced : Balanced s
  live : LiveCounted s

theorem Kept.slotFree {s : Machine} (h : Kept s) : SlotFree s :=
  h.held.slotFree (run_mourned h.unraced).2.2 h.balanced

theorem kept_boot : Kept .boot := by
  refine ⟨.boot, fun t ht => ?_, fun i r hr => ?_, rfl⟩
  · cases ht
  · cases hr

theorem Kept.step {s s' : Machine} {a : Act} (h : Kept s) (ho : Orderly s a)
    (ha : a.run s = some s') : Kept s' := by
  have hm := (run_mourned h.unraced).2.2
  have hf := h.slotFree
  have hu : Unraced s a := ⟨ho.waking, fun _ _ _ => hf⟩
  have hr : Run Unraced s' := .step h.unraced hu ha
  cases run_moved ha with
  | swapped _ hs =>
    subst hs
    exact ⟨hr, h.held, h.balanced, h.live⟩
  | born _ _ hs =>
    subst hs
    exact ⟨hr, h.held.born, h.balanced.born hf, h.live.born h.balanced hf⟩
  | turned hi hc hin hp ht hn =>
    exact ⟨hr, h.held.turned ho hi hc hin hp ht, h.balanced.turned hm ho hi hc hin hp ht,
      h.live.turned h.balanced hi hc hin hp hn⟩

theorem run_kept {s : Machine} (h : Run Orderly s) : Kept s :=
  h.invariant kept_boot fun _ hk ho ha => hk.step ho ha

/-- The states of a proc that counts as live. -/
def Rec.live (r : Rec) : Bool :=
  r.status == .ready || r.status == .blocked || r.status == .hatching || r.status == .stopped

theorem live_eq_not_gone (r : Rec) : r.live = !r.gone := by
  unfold Rec.live Rec.gone
  cases r.status <;> rfl

def Rec.undetached (r : Rec) : Bool := r.gone && r.attached

/-- A teardown that is still to detach the proc of slot `i`. -/
def Detaching (s : Machine) (i : Nat) : Prop :=
  ∃ me, .kill me i .marked ∈ s.tasks ∨ .kill me i .closed ∈ s.tasks ∨ .broke me i ∈ s.tasks

theorem detaching_of_pos {s : Machine} {i : Nat} (h : 0 < s.duties i .detach) : Detaching s i := by
  obtain ⟨t, ht, ho⟩ := countP_pos_iff.mp h
  have hs := owes_slot ho
  match t with
  | .kill me j .marked =>
    cases hs
    exact ⟨me, .inl ht⟩
  | .kill me j .closed =>
    cases hs
    exact ⟨me, .inr (.inl ht)⟩
  | .broke me j =>
    cases hs
    exact ⟨me, .inr (.inr ht)⟩
  | .kill _ _ .detached | .reap _ _ false | .reap _ _ true => simp [Task.owes, Task.duties] at ho
  | .wake _ | .launch _ | .call _ _ _ | .breaking _ _ => simp [Task.owes, Task.duties] at ho

/-- What the books say of a slot: nothing is done twice, and a corpse is detached or a teardown is
on its way to do it. -/
theorem Books.bounds {r : Rec} {n : Duty → Nat} (h : Books r n) :
    r.detaches ≤ 1 ∧ r.closes ≤ 1 ∧ (r.live = true → r.attached = true) ∧
      (r.gone = true → r.hatched = true → r.detaches = 1 ∨ 0 < n .detach) := by
  have h1 := h.detach
  have h2 := h.close
  have ho : r.owed ≤ 1 := by
    unfold Rec.owed
    split <;> omega
  refine ⟨by omega, by omega, fun hl => ?_, fun hg hh => ?_⟩
  · rw [live_eq_not_gone, Bool.not_eq_true'] at hl
    obtain ⟨-, h3, -⟩ := (of_alive hl).mp h
    have hh : r.hatched = true := by
      unfold Rec.owed at h3
      split at h3
      next hh => exact hh
      · omega
    rw [Rec.attached, hh, Bool.true_and, beq_iff_eq]
    omega
  · rw [Rec.alive, hg, if_pos rfl, Rec.owed, if_pos hh] at h1
    omega

/-- The live procs and the corpses that are not detached are the attached ones. -/
theorem countP_attached {l : List Rec} (h : ∀ r ∈ l, r.live = true → r.attached = true) :
    l.countP Rec.attached = l.countP Rec.live + l.countP Rec.undetached := by
  rw [countP_eq_countP_filter_add l Rec.attached Rec.live, countP_filter, countP_filter]
  congr 1
  · refine countP_congr fun r hr => ?_
    rw [Bool.and_eq_true]
    exact ⟨fun hp => hp.2, fun hl => ⟨h r hr hl, hl⟩⟩
  · refine countP_congr fun r _ => ?_
    rw [live_eq_not_gone, Bool.not_not, Rec.undetached, Bool.and_comm]

/-- In every run in which a proc is marked by the cpu that has it in hand, `proc_break` marks no
corpse and no proc is marked `DEAD` with a `make_ready` of it to come: `proc_new` wipes a proc that
was detached once and freed once, none is detached or freed twice, a corpse is detached or a
teardown is about to, and `nlive` is the number of the live procs and of the corpses not
detached. -/
theorem run_torn_down_once {s : Machine} (h : Run Orderly s) :
    (∀ (maxProcs : Nat) (ok : Bool) (s' : Machine) (r : Rec), (Act.procNew maxProcs ok).run s = some s' →
      s.procs[s.freeSlot]? = some r → r.hatched = true → r.detaches = 1 ∧ r.closes = 1) ∧
    (∀ (i : Nat) (r : Rec), s.procs[i]? = some r → r.detaches ≤ 1 ∧ r.closes ≤ 1 ∧
      (r.gone = true → r.hatched = true → r.detaches = 1 ∨ Detaching s i)) ∧
    s.nlive = (s.procs.countP Rec.live : Nat) + (s.procs.countP Rec.undetached : Nat) := by
  have hk := run_kept h
  have hb := hk.balanced
  refine ⟨fun maxProcs ok s' r _ hr hh => ?_, fun i r hr => ?_, ?_⟩
  · obtain ⟨-, hd, hc, -⟩ := (Books.of_dead (freeSlot_rec hr).1).mp (hb _ r hr)
    rw [hk.slotFree.no_duty, Nat.zero_add, Rec.owed, if_pos hh] at hd hc
    exact ⟨hd, hc⟩
  · obtain ⟨h1, h2, -, h4⟩ := (hb i r hr).bounds
    exact ⟨h1, h2, fun hg hh => (h4 hg hh).imp_right detaching_of_pos⟩
  · have hlive : ∀ r ∈ s.procs, r.live = true → r.attached = true := by
      intro r hm
      obtain ⟨i, hr⟩ := mem_iff_getElem?.mp hm
      exact (hb i r hr).bounds.2.2.1
    rw [hk.live, countP_attached hlive]
    rfl

def Act.marks : Act → Option Nat
  | .kill _ i | .spawnFailed _ i | .answer _ .kill i | .breakMark _ i => some i
  | _ => none

theorem Marks.marks {a : Act} {me i : Nat} (h : Marks a me i) : a.marks = some i := by
  cases h with
  | kill ha => cases ha <;> rfl
  | «break» => rfl

def orderly (s : Machine) (a : Act) : Bool :=
  unraced s a && a.marks.all fun i => (s.procs[i]?).all fun (r : Rec) =>
    !r.gone && decide (r.oncpu ≠ 0)

theorem orderly_orderly (s : Machine) (a : Act) (h : orderly s a = true) : Orderly s a := by
  obtain ⟨hu, hb⟩ := Bool.and_eq_true_iff.mp h
  refine ⟨(unraced_unraced s a hu).waking, ?_, fun me i r hm hr _ => ?_⟩
  · rintro me i r rfl hr
    simp only [Act.marks, Option.all_some, hr, Bool.and_eq_true, Bool.not_eq_true'] at hb
    exact hb.1
  · simp only [hm.marks, Option.all_some, hr, Bool.and_eq_true, decide_eq_true_eq] at hb
    exact hb.2

/-- One proc kills itself, and its slot is passed over until its cpu lets it go. The proc born
meanwhile breaks and is being reaped as the slot of the first is taken. -/
def twoDeaths : List Act :=
  [.procNew 8 true, .launch 0 50, .dispatch 0 true, .kill 0 0, .procNew 8 true, .launch 1 50, .killClose 0 0,
    .killDetach 0 0, .dispatch 1 true, .killEnd 0 0, .breakTest 1 1, .release 0 0, .breakMark 1 1,
    .breakDetach 1 1, .release 1 1, .reap 0 1, .procNew 8 true]

/-- The corpse being reaped was detached once, and only the new proc counts. -/
theorem twoDeaths_once :
    ∃ s, Run Orderly s ∧
    s.nlive = (s.procs.countP Rec.live : Nat) + (s.procs.countP Rec.undetached : Nat) ∧
      s.nlive = 1 ∧ s.procs.length = 2 := by
  obtain ⟨s, -, hr, hs⟩ := Run.of_acts (l := twoDeaths) orderly_orderly
    (P := fun s => decide (s.nlive = 1) && decide (s.procs.length = 2)) (by decide +kernel)
  simp only [Bool.and_eq_true, decide_eq_true_eq] at hs
  exact ⟨s, hr, (run_torn_down_once hr).2.2, hs⟩

def killedParkedProc : List Act := parkedProc ++ [.kill 1 0]

/-- `proc_new` takes its slot while its state is not freed and its rights are not dropped. -/
theorem killedParkedProc_recycled :
    ∃ s s' r, Run (fun _ _ => True) s ∧ (Act.procNew 8 true).run s = some s' ∧
      s.procs[s.freeSlot]? = some r ∧ r.hatched = true ∧ r.detaches = 0 ∧ r.closes = 0 := by
  obtain ⟨s, -, hr, hs⟩ := Run.of_acts (l := killedParkedProc) anyAct_true
    (P := fun (s : Machine) => ((Act.procNew 8 true).run s).isSome &&
      (s.procs[s.freeSlot]?).any fun (r : Rec) =>
        r.hatched && decide (r.detaches = 0) && decide (r.closes = 0)) (by decide +kernel)
  simp only [Option.any_eq_true, Bool.and_eq_true, decide_eq_true_eq, Option.isSome_iff_exists]
    at hs
  obtain ⟨⟨s', ha⟩, r, h0, ⟨h1, h2⟩, h3⟩ := hs
  exact ⟨s, s', r, hr, ha, h0, h1, h2, h3⟩

end Nlos.Smp
