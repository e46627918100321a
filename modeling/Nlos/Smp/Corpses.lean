import Nlos.Smp.RunQueue

/-!
# The dead stay dead

A waker tests that a proc is blocked with the ipc bucket held, and `make_ready` then queues it under
`schedlock`. `proc_kill` needs `schedlock` only, so it can come in between, and `make_ready` turns
back `STOPPED` and `BROKE` and not `DEAD`. The same goes for a proc that `sys.spawn` has made and
not yet launched.
-/

namespace Nlos.Smp

open Machine List

/-! ## The two races -/

/-- The slot a step may mark `DEAD`. -/
def Act.buries : Act → Option Nat
  | .kill _ i | .spawnFailed _ i | .answer _ .kill i | .killEnd _ i | .reapEnd _ i => some i
  | _ => none

/-- The routine has marked the proc, and is tearing it down. -/
def Task.working : Task → Bool
  | .kill _ _ _ | .broke _ _ | .reap _ _ _ => true
  | _ => false

/-- No proc is marked `DEAD` with a `make_ready` of it to come, other than the one the same routine
gives up, and `proc_new` takes no slot that a teardown is still at. -/
structure Unraced (s : Machine) (a : Act) : Prop where
  waking : ∀ i, a.buries = some i → .wake i ∉ s.tasks ∧
    (.launch i ∈ s.tasks → ∃ me, a = .spawnFailed me i)
  slot : ∀ maxProcs ok, a = .procNew maxProcs ok → ∀ t ∈ s.tasks, t.working = true →
    t.slot ≠ s.freeSlot

theorem Kills.buries {a : Act} {me i : Nat} {old : List Task} (h : Kills a me i old) :
    a.buries = some i := by
  cases h <;> rfl

/-! ## Corpses -/

/-- What `make_ready` is to come for is not `DEAD`, what is being torn down is a corpse, and a
corpse is on no queue. -/
structure Mourned (s : Machine) : Prop where
  waking : ∀ i, .wake i ∈ s.tasks ∨ .launch i ∈ s.tasks → ∃ r, s.procs[i]? = some r ∧
    r.status ≠ .dead
  once : ∀ i, s.tasks.count (.launch i) ≤ 1
  working : ∀ t ∈ s.tasks, t.working = true → ∃ r, s.procs[t.slot]? = some r ∧ r.gone = true
  corpse : ∀ (i : Nat) (r : Rec), s.procs[i]? = some r → r.gone = true → r.onq = none

theorem gone_of_dead {r : Rec} (h : r.status = .dead) : r.gone = true := by
  rw [Rec.gone, h]
  rfl

theorem gone_of_broke {r : Rec} (h : r.status = .broke) : r.gone = true := by
  rw [Rec.gone, h]
  rfl

theorem dead_or_broke {r : Rec} (h : r.gone = true) : r.status = .dead ∨ r.status = .broke := by
  simpa [Rec.gone] using h

section Step

variable {s s' : Machine} {a : Act} {i : Nat} {r r' : Rec} {old new : List Task} {d : Int}

variable {t : Task}

/-- What `make_ready` is about to be called for can be made ready, or is turned back. -/
theorem Mourned.readies (h : Mourned s) {pri : Int} (ha : Readies a i pri t) (hm : t ∈ s.tasks)
    (hr : s.procs[i]? = some r) : r.status ≠ .dead := by
  have hw : .wake i ∈ s.tasks ∨ .launch i ∈ s.tasks := by
    cases ha with
    | launch => exact .inr hm
    | wake => exact .inl hm
  obtain ⟨x, hx, hs⟩ := h.waking i hw
  rw [hr] at hx
  cases hx
  exact hs

/-- A corpse let go is not queued. -/
theorem putBack_gone {x : Rec} {b : Bool} (hg : x.gone = true) (hq : x.onq = none) :
    (x.putBack b).gone = true ∧ (x.putBack b).onq = none := by
  refine ⟨hg, ?_⟩
  unfold Rec.putBack
  rw [if_neg fun h => not_ready_of_gone hg h.1]
  exact hq

section

variable (hc : Change s a i r r' old new d)

include hc

theorem Change.stays (hm : Mourned s) (hq : Queued s)
    (ho : ∀ t ∈ old, t ∈ s.tasks) (hr : s.procs[i]? = some r) (hg : r.gone = true) :
    r'.gone = true ∧ r'.onq = none := by
  have hn := hm.corpse i r hr hg
  have hnot : ∀ {pri t}, Readies a i pri t → t ∈ s.tasks → r.status = .stopped ∨
      r.status = .broke := by
    intro pri t ha ht
    exact (dead_or_broke hg).elim (absurd · (hm.readies ha ht hr)) .inr
  have htaken : ∀ {high}, s.rqFirst high ≠ some i := by
    intro high hf
    rw [hq.first hf hr] at hn
    cases hn
  cases hc with
  | readyHeld ha hs | readyQueued ha hs => exact absurd (hnot ha (ho _ (mem_singleton.mpr rfl))) hs
  | readyStopped _ hs =>
    rw [Rec.gone, hs] at hg
    cases hg
  | killed | broken => exact ⟨rfl, rfl⟩
  | killEnded | reapEnded => exact ⟨rfl, hn⟩
  | killDetached | breakDetached => exact ⟨hg, rfl⟩
  | blocked _ hb =>
    rw [hg] at hb
    cases hb
  | asideSet hf | dispatched hf => exact absurd hf htaken
  | released =>
    split
    · exact ⟨hg, hn⟩
    · exact putBack_gone hg hn
  | goneLetGo => exact putBack_gone hg hn
  | _ => exact ⟨hg, hn⟩

theorem Change.corpse (hm : Mourned s) (hq : Queued s)
    (ho : ∀ t ∈ old, t ∈ s.tasks) (hr : s.procs[i]? = some r) (hg : r'.gone = true) :
    r'.onq = none := by
  by_cases hgr : r.gone = true
  · exact (hc.stays hm hq ho hr hgr).2
  have hdone : ∀ t ∈ old, t.working = true → t.slot = i → r.gone = true := by
    intro t ht hw hs
    obtain ⟨x, hx, hg⟩ := hm.working t (ho t ht) hw
    rw [hs, hr] at hx
    cases hx
    exact hg
  cases hc with
  | killed | broken => rfl
  | killEnded | reapEnded => exact absurd (hdone _ (mem_singleton.mpr rfl) rfl rfl) hgr
  | readyStopped | readyHeld | readyQueued | blocked => cases hg
  | released =>
    split at hg <;> exact absurd hg hgr
  | _ => exact absurd hg hgr

theorem Change.dead (hd : r'.status = .dead) : r.status = .dead ∨ a.buries = some i := by
  cases hc with
  | killed ha => exact .inr ha.buries
  | killEnded | reapEnded => exact .inr rfl
  | readyStopped | readyHeld | readyQueued | broken | blocked => cases hd
  | released =>
    split at hd <;> exact .inl hd
  | _ => exact .inl hd

/-- What a step begins: a waker on a proc that is blocked, a teardown of a corpse, or of what was
being torn down before. -/
theorem Change.begun (ht : t ∈ new) :
    (∀ j, t ≠ .launch j) ∧ ((∃ j, t = .wake j) → r'.status = .blocked) ∧
      (t.working = true → r'.gone = true ∨ ∃ u ∈ old, u.working = true) := by
  cases hc with
  | wakeTested hs =>
    rw [mem_singleton.mp ht]
    exact ⟨nofun, fun _ => hs, nofun⟩
  | killed | broken =>
    rw [mem_singleton.mp ht]
    exact ⟨nofun, nofun, fun _ => .inl rfl⟩
  | breakTested =>
    rw [mem_singleton.mp ht]
    exact ⟨nofun, nofun, nofun⟩
  | killClosed | killDetached | reapClosed =>
    rw [mem_singleton.mp ht]
    exact ⟨nofun, nofun, fun _ => .inr ⟨_, mem_singleton.mpr rfl, rfl⟩⟩
  | reaped _ hb =>
    rw [mem_singleton.mp ht]
    exact ⟨nofun, nofun, fun _ => .inl (gone_of_broke hb)⟩
  | released =>
    obtain ⟨what, rfl⟩ := leftCalls_call ht
    exact ⟨nofun, nofun, nofun⟩
  | _ => cases ht

/-- A `make_ready` to come, behind a step, was to come before it or the step's waker has just found
its proc blocked. -/
theorem Change.waking (hm : Mourned s) (hu : Unraced s a) (hr : s.procs[i]? = some r)
    (hw : .wake i ∈ new ++ s.tasks.diff old ∨ .launch i ∈ new ++ s.tasks.diff old) :
    r'.status ≠ .dead := by
  intro hd
  have hin : .wake i ∈ s.tasks ∨ .launch i ∈ s.tasks := by
    refine hw.imp (fun h => ?_) fun h => ?_
    · obtain h | h := mem_append.mp h
      · rw [(hc.begun h).2.1 ⟨i, rfl⟩] at hd
        cases hd
      · exact diff_subset _ _ h
    · obtain h | h := mem_append.mp h
      · exact absurd rfl ((hc.begun h).1 i)
      · exact diff_subset _ _ h
  obtain ⟨x, hx, hs⟩ := hm.waking i hin
  rw [hr] at hx
  cases hx
  -- the step has marked it, so it is the launch that gave up
  have hb := (hc.dead hd).resolve_left hs
  obtain ⟨hnw, hl⟩ := hu.waking i hb
  obtain ⟨me, rfl⟩ := hl (hin.resolve_left hnw)
  have hold : old = [.launch i] := by
    cases hc with
    | readyRefused ha | readyStopped ha | readyHeld ha | readyQueued ha
    | breakRefused ha | breakTested ha | reapRefused ha | reapLeft ha | reaped ha | noted ha =>
      cases ha
    | killRefused ha | killLeft ha | killed ha => cases ha; rfl
  subst hold
  obtain hw | hw := hw
  · obtain h | h := mem_append.mp hw
    · rw [(hc.begun h).2.1 ⟨i, rfl⟩] at hd
      cases hd
    · exact hnw (diff_subset _ _ h)
  · obtain h | h := mem_append.mp hw
    · exact (hc.begun h).1 i rfl
    · -- there was one launch of this slot, and it is over
      rw [diff_cons, diff_nil, ← count_pos_iff, count_erase_self] at h
      exact absurd (hm.once i) (by omega)

end

theorem Mourned.turned (h : Mourned s) (hq : Queued s) (hu : Unraced s a)
    (hr : s.procs[i]? = some r) (hc : Change s a i r r' old new d) (ho : ∀ t ∈ old, t ∈ s.tasks)
    (hp : s'.procs = s.procs.set i r') (ht : s'.tasks = new ++ s.tasks.diff old) : Mourned s' := by
  refine ⟨fun j hw => ?_, fun j => ?_, fun t hm hw => ?_, fun j x hx hg => ?_⟩
  · rw [ht] at hw
    rw [turned_slots hr hp]
    split
    next hj =>
      subst hj
      exact ⟨r', rfl, hc.waking h hu hr hw⟩
    next hj =>
    have hin : ∀ {t : Task}, t.slot = j → t ∈ new ++ s.tasks.diff old → t ∈ s.tasks := by
      intro t hs hm
      obtain hm | hm := mem_append.mp hm
      · exact absurd (hs.symm.trans (hc.slots.2 t hm)) hj
      · exact diff_subset _ _ hm
    exact h.waking j (hw.imp (hin rfl) (hin rfl))
  · have hnew : new.count (.launch j) = 0 := count_eq_zero.mpr fun hm => (hc.begun hm).1 j rfl
    rw [ht, count_append, hnew, Nat.zero_add]
    exact ((diff_sublist _ _).count_le _).trans (h.once j)
  · rw [ht] at hm
    rw [turned_slots hr hp]
    have hwas : ∀ u ∈ s.tasks, u.working = true → u.slot = i → r.gone = true := by
      intro u hu hw hs
      obtain ⟨x, hx, hg⟩ := h.working u hu hw
      rw [hs, hr] at hx
      cases hx
      exact hg
    have hstay (hg : r.gone = true) : r'.gone = true := (hc.stays h hq ho hr hg).1
    obtain hm | hm := mem_append.mp hm
    · rw [if_pos (hc.slots.2 t hm)]
      refine ⟨r', rfl, ?_⟩
      obtain hg | ⟨u, hu, hw⟩ := (hc.begun hm).2.2 hw
      · exact hg
      · exact hstay (hwas u (ho u hu) hw (hc.slots.1 u hu))
    · have hm := diff_subset _ _ hm
      split
      next hs => exact ⟨r', rfl, hstay (hwas t hm hw hs)⟩
      · exact h.working t hm hw
  · obtain ⟨rfl, rfl⟩ | ⟨-, hx⟩ := slot_turned hr hp hx
    · exact hc.corpse h hq ho hr hg
    · exact h.corpse j x hx hg

theorem Mourned.born (h : Mourned s) {maxProcs : Nat} {ok : Bool}
    (hu : Unraced s (.procNew maxProcs ok)) : Mourned (s.procNew ok) := by
  -- the slot it takes is dead, so nothing is about to make it ready
  have hfree : ∀ {t : Task}, t = .wake s.freeSlot ∨ t = .launch s.freeSlot → t ∉ s.tasks := by
    intro t ht hm
    have hw : .wake s.freeSlot ∈ s.tasks ∨ .launch s.freeSlot ∈ s.tasks := by
      obtain rfl | rfl := ht
      · exact .inl hm
      · exact .inr hm
    obtain ⟨r, hr, hs⟩ := h.waking _ hw
    exact hs (freeSlot_rec hr).1
  refine ⟨fun j hw => ?_, fun j => ?_, fun t hm hw => ?_, fun j x hx hg => ?_⟩
  · rw [born_slots]
    rw [procNew_tasks] at hw
    split
    next hj =>
      subst hj
      cases ok with
      | false => exact (hw.elim (hfree (.inl rfl)) (hfree (.inr rfl))).elim
      | true => exact ⟨_, rfl, nofun⟩
    next hj =>
      refine h.waking j (hw.imp (fun hm => ?_) fun hm => ?_)
      · split at hm
        · exact (mem_cons.mp hm).resolve_left nofun
        · exact hm
      · split at hm
        · exact (mem_cons.mp hm).resolve_left fun he => hj (Task.launch.inj he)
        · exact hm
  · rw [procNew_tasks]
    split
    · by_cases hj : s.freeSlot = j
      · subst hj
        rw [count_cons_self, count_eq_zero.mpr (hfree (.inr rfl))]
      · rw [count_cons_of_ne fun he => hj (Task.launch.inj he)]
        exact h.once j
    · exact h.once j
  · have hm : t ∈ s.tasks := by
      rw [procNew_tasks] at hm
      split at hm
      · obtain rfl | hm := mem_cons.mp hm
        · cases hw
        · exact hm
      · exact hm
    rw [born_slots, if_neg (hu.slot maxProcs ok rfl t hm hw)]
    exact h.working t hm hw
  · obtain ⟨-, rfl⟩ | ⟨-, hx⟩ := slot_born hx
    · cases ok <;> rfl
    · exact h.corpse j x hx hg

theorem mourned_boot : Mourned .boot := by
  refine ⟨fun i h => ?_, fun i => ?_, fun t h => ?_, fun i r h => ?_⟩
  · simp [boot] at h
  · simp [boot]
  all_goals cases h

/-- A step of these is tidy: what is detached is a corpse, and what `proc_new` takes is on no queue.
-/
theorem Unraced.tidy (hu : Unraced s a) (h : Mourned s) (ha : a.run s = some s') : Tidy s a := by
  constructor
  · intro i r hd hr
    have hw : ∃ t ∈ s.tasks, t.working = true ∧ t.slot = i := by
      unfold Act.run at ha
      cases a with
      | killDetach me j | breakDetach me j =>
        cases hd
        obtain ⟨-, -, hm, -, -⟩ := goOn_some ha
        exact ⟨_, hm, rfl, rfl⟩
      | _ => cases hd
    obtain ⟨t, hm, hw, rfl⟩ := hw
    obtain ⟨x, hx, hg⟩ := h.working t hm hw
    rw [hr] at hx
    cases hx
    exact hg
  · intro maxProcs ok r _ hr
    exact h.corpse _ r hr (gone_of_dead (freeSlot_rec hr).1)

theorem run_mourned (h : Run Unraced s) : Queued s ∧ Placed s ∧ Mourned s := by
  refine h.invariant (I := fun s => Queued s ∧ Placed s ∧ Mourned s)
    ⟨queued_boot, placed_boot, mourned_boot⟩ ?_
  rintro s s' a - ⟨hq, hp, hm⟩ hu ha
  have ht := hu.tidy hm ha
  refine ⟨hq.run hp ht ha, hp.run hq ht ha, ?_⟩
  cases run_moved ha with
  | swapped _ hs =>
    subst hs
    exact { hm with }
  | born hb _ hs =>
    subst hs hb
    exact hm.born hu
  | turned hr hc ho hp ht => exact hm.turned hq hu hr hc ho hp ht

/-- In every run in which no proc is marked `DEAD` with a `make_ready` of it to come and no slot is
taken from under a teardown, a corpse stays a corpse, on no queue, over every step but the
`proc_new` that takes its slot. -/
theorem run_corpses_stay (h : Run Unraced s) (hu : Unraced s a) (ha : a.run s = some s')
    (hr : s.procs[i]? = some r) (hg : r.gone = true) :
    (∃ maxProcs ok, a = .procNew maxProcs ok ∧ s.freeSlot = i) ∨
      ∃ r', s'.procs[i]? = some r' ∧ r'.gone = true ∧ r'.onq = none ∧
      ∀ b k, i ∉ (s'.set b).q k := by
  obtain ⟨hq, -, hm⟩ := run_mourned h
  have hq' := (run_mourned (.step h hu ha)).1
  suffices hs : (∃ maxProcs ok, a = .procNew maxProcs ok ∧ s.freeSlot = i) ∨
      ∃ r', s'.procs[i]? = some r' ∧ r'.gone = true ∧ r'.onq = none by
    refine hs.imp_right fun ⟨r', hr', hg', ho'⟩ => ⟨r', hr', hg', ho', fun b k hi => ?_⟩
    rw [hq'.mem, Queued.slot_link hr', ho'] at hi
    cases hi.1
  cases run_moved ha with
  | swapped _ hs =>
    subst hs
    exact .inr ⟨r, hr, hg, hm.corpse i r hr hg⟩
  | born hb _ hs =>
    subst hs
    by_cases hi : i = s.freeSlot
    · exact .inl ⟨_, _, hb, hi.symm⟩
    · exact .inr ⟨r, by rw [born_slots, if_neg hi, hr], hg, hm.corpse i r hr hg⟩
  | @turned j _ r' _ _ _ hj hc ho hp =>
    refine .inr ?_
    rw [turned_slots hj hp]
    split
    next hi =>
      subst hi
      rw [hr] at hj
      cases hj
      exact ⟨r', rfl, hc.stays hm hq ho hr hg⟩
    · exact ⟨r, hr, hg, hm.corpse i r hr hg⟩

end Step

/-! ## Runs -/

def unraced (s : Machine) (a : Act) : Bool :=
  (match a with
    | .procNew _ _ => s.tasks.all fun t => !t.working || t.slot != s.freeSlot
    | .spawnFailed _ i => decide (.wake i ∉ s.tasks)
    | a => a.buries.all fun i => decide (.wake i ∉ s.tasks) && decide (.launch i ∉ s.tasks))

theorem unraced_unraced (s : Machine) (a : Act) (h : unraced s a = true) : Unraced s a := by
  constructor
  · intro i hb
    cases a with
    | spawnFailed me j =>
      cases hb
      exact ⟨of_decide_eq_true h, fun _ => ⟨me, rfl⟩⟩
    | procNew => cases hb
    | _ =>
      simp only [unraced, hb, Option.all_some, Bool.and_eq_true, decide_eq_true_eq] at h
      exact ⟨h.1, fun hl => absurd hl h.2⟩
  · rintro maxProcs ok rfl t hm hw
    have := all_eq_true.mp h t hm
    simpa [hw] using this

def parkedProc : List Act :=
  [.procNew 8 true, .launch 0 50, .dispatch 0 true, .block 0 0, .release 0 0]

/-- The parked proc is killed and its slot kept out of the way of `make_ready`. -/
theorem parkedProc_stays :
    ∃ s s' r, Run Unraced s ∧ s.procs[0]? = some r ∧ r.gone = true ∧
    (Act.killClose 1 0).run s = some s' ∧
      ∃ r', s'.procs[0]? = some r' ∧ r'.gone = true ∧ r'.onq = none := by
  obtain ⟨s, -, hr, hs⟩ := Run.of_acts (l := parkedProc ++ [.kill 1 0]) unraced_unraced
    (P := fun s => (s.procs[0]?).any Rec.gone && unraced s (.killClose 1 0) &&
      ((Act.killClose 1 0).run s).isSome) (by decide +kernel)
  simp only [Option.any_eq_true, Bool.and_eq_true, Option.isSome_iff_exists] at hs
  obtain ⟨⟨⟨r, h0, hg⟩, hu⟩, s', ha⟩ := hs
  refine ⟨s, s', r, hr, h0, hg, ha, ?_⟩
  obtain ⟨_, _, hn, _⟩ | ⟨r', h1, h2, h3, _⟩ :=
    run_corpses_stay hr (unraced_unraced _ _ hu) ha h0 hg
  · cases hn
  · exact ⟨r', h1, h2, h3⟩

/-- A waker has found the parked proc, and another cpu kills it before the waker goes on. -/
def killedWaking : List Act := parkedProc ++ [.wakeTest 0, .kill 1 0]

/-- The waker goes on, and the dead proc is ready and queued. -/
theorem killedWaking_revived :
    ∃ s s' r r', Run (fun _ _ => True) s ∧ s.procs[0]? = some r ∧ r.status = .dead ∧
      (Act.wakeReady 0 50).run s = some s' ∧ s'.procs[0]? = some r' ∧ r'.status = .ready ∧
      0 ∈ (s'.set s'.runq).q (rqBucket 50) := by
  obtain ⟨s, -, hr, hs⟩ := Run.of_acts (l := killedWaking) anyAct_true
    (P := fun (s : Machine) => (s.procs[0]?).any (fun (r : Rec) => decide (r.status = .dead)) &&
      ((Act.wakeReady 0 50).run s).any fun (s' : Machine) =>
        (s'.procs[0]?).any (fun (r : Rec) => decide (r.status = .ready)) &&
          decide (0 ∈ (s'.set s'.runq).q (rqBucket 50))) (by decide +kernel)
  simp only [Option.any_eq_true, Bool.and_eq_true, decide_eq_true_eq] at hs
  obtain ⟨⟨r, h0, hd⟩, s', ha, ⟨r', h1, hs'⟩, hk⟩ := hs
  exact ⟨s, s', r, r', hr, h0, hd, ha, h1, hs', hk⟩

end Nlos.Smp
