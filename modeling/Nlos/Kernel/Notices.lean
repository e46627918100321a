import Nlos.Kernel.Handles

/-!
# Exit notices

`proc_detach` drops the rights of the proc that dies and then tells its watchers. A watcher is known
by its pid, and `find_proc` finds every slot that is not `DEAD`. A corpse that is held for
inspection is `BROKE`, and its own rights were dropped when it died: `notify_exit` then pushes to
the port its slot 0 used to name.
-/

namespace Nlos

open Kernel

/-! ## One detach -/

/-- Slot 0 of proc `j` is in use and its port is in the table. -/
def Kernel.Hears (k : Kernel) (j : Nat) : Prop :=
  ∃ pr r q, k.procv[j]? = some pr ∧ pr.rights.slots[0]? = some r ∧ r.used = true ∧
    k.portOf r.port = some q

/-- In a `proc_detach` of slot `i`, each turn of the loop over the watchers that tells somebody
tells one who hears. -/
def Lands (memOk : Nat → Bool) (k : Kernel) (i : Nat) (why : Option (List UInt8))
    (broke : Bool) : Prop :=
  ∀ pr, ((k.waitClear i).detachRights i).procv[i]? = some pr →
    ∀ pre x post, pr.watchers = pre ++ x :: post →
      let k1 :=
        pre.foldl (tellWatcher memOk (noticeOf pr why broke)) ((k.waitClear i).detachRights i)
      ∀ j, k1.findProc x.1 = some j → k1.Hears j

/-- A run that detaches proc `i` and tells whom it likes. -/
def detachScope (i : Nat) : Scope := { sheds := fun j _ => j = i, notices := fun _ => True }

section Detach

variable {k : Kernel} {i : Nat}

theorem waitClear_detachRights_acts (k : Kernel) (i : Nat) :
    Acts (detachScope i) (k, []) ((k.waitClear i).detachRights i, []) :=
  (waitClear_acts plain_nil i).trans
    (detachRights_acts plain_nil trivial rfl (unlinked_waitClear k i))

/-- Watchers that are found alive, in other slots, hear. -/
theorem lands_of_alive {memOk : Nat → Bool} {why : Option (List UInt8)} {broke : Bool}
    (hc : k.Counted [])
    (halive : ∀ x ∈ k.watchersOf i, ∀ j, k.findProc x.1 = some j → j ≠ i ∧ k.SelfAt j) :
    Lands memOk k i why broke := by
  intro pr hpr pre x post hsplit k1 j hj
  have hdetach := waitClear_detachRights_acts k i
  have hwatch : pr.watchers = k.watchersOf i := by
    rw [← watchersOf_eq hpr, watchersOf_detachRights]
    exact watchersOf_congr (procv_touchWaits k i)
  have hacts : Acts (detachScope i) (k, []) (k1, []) :=
    hdetach.trans (tellWatchers_acts plain_nil fun _ _ _ _ => trivial)
  -- nobody is renamed on the way, so the watcher is the one found at the start
  rw [hacts.findProc nofun nofun nofun] at hj
  have hx : x ∈ k.watchersOf i := by
    rw [← hwatch, hsplit]
    exact List.mem_append_right _ List.mem_cons_self
  obtain ⟨hne, pr0, r, hpr0, hr, hu, -⟩ := halive x hx j hj
  have hslot : k1.SlotAt j 0 r :=
    hacts.slotAt (fun _ => id) (fun _ e => hne e) (fun _ => id) ⟨pr0, hpr0, hr, hu⟩
  obtain ⟨q, hq⟩ := (hacts.counted hc rfl).slotAt_portOf hslot
  obtain ⟨pr1, hpr1, hr1, hu1⟩ := hslot
  exact ⟨pr1, r, q, hpr1, hr1, hu1, hq⟩

end Detach

/-! ## Finishing a teardown -/

/-- The state in which the end of a teardown calls `proc_detach`. -/
def Teardown.start (k : Kernel) (t : Teardown) : Kernel :=
  let k := { k with teardowns := k.teardowns.erase t }
  match t with
  | .kill i _ => k.procFreestate i
  | _ => k

def Teardown.why : Teardown → Option (List UInt8)
  | .kill _ why | .break _ why => why
  | .reap _ => none

def Teardown.broke : Teardown → Bool
  | .break _ _ => true
  | _ => false

theorem start_acts (k : Kernel) (t : Teardown) :
    Acts { closes := fun _ => True } (k, []) (t.start k, []) := by
  have hclose : Acts { closes := fun _ => True } (k, [])
      ({ k with teardowns := k.teardowns.erase t }, []) := .one (.closes plain_nil) trivial
  cases t with
  | kill i why => exact hclose.trans (procFreestate_acts plain_nil i)
  | «break» i why | reap i => exact hclose

theorem start_watchersOf (k : Kernel) (t : Teardown) (j : Nat) :
    (t.start k).watchersOf j = k.watchersOf j := by
  cases t with
  | kill i why => exact watchersOf_procFreestate _ i j
  | «break» i why | reap i => rfl

/-- The proc's exit notices are queued on live ports. -/
def NoticesLand (memOk : Nat → Bool) (k : Kernel) (t : Teardown) : Prop :=
  t.detaches = true → Lands memOk (t.start k) t.slot t.why t.broke

/-- No watcher of the proc is found among the corpses held for inspection. -/
def NoneBroke (k : Kernel) (t : Teardown) : Prop :=
  ∀ x ∈ k.watchersOf t.slot, ∀ j, k.findProc x.1 = some j → k.sch.statusOf j ≠ .broke

/-- In every run without a close of slot 0 by another name, and without a proc made in a slot that
is still being torn down, every death whose watchers are none of them found `BROKE` queues its
notices on live ports. -/
theorem run_notices_land {k : Kernel} (hr : Run (fun k op => op.Straight k ∧ op.Unclaimed k) k)
    (memOk : Nat → Bool) {t : Teardown} (ht : t ∈ k.teardowns) (hb : NoneBroke k t) :
    NoticesLand memOk k t := by
  intro _
  have hacts := start_acts k t
  have hfit := run_teardownsFit (fun _ _ h => h.2) hr t ht
  refine lands_of_alive (hacts.counted hr.sane.counted rfl) fun x hx j hj => ?_
  rw [start_watchersOf] at hx
  rw [hacts.findProc nofun nofun nofun] at hj
  -- who is found is not dead, and this one is not held either
  have hgone : k.sch.gone j = false := by
    have hdead := (isProc_iff.mp (findProc_eq_some.mp hj).1).1
    have hbroke := hb x hx j hj
    cases hg : k.sch.gone j with
    | false => rfl
    | true =>
      rcases Sched.gone_iff.mp hg with e | e
      · exact absurd e hdead
      · exact absurd e hbroke
  refine ⟨?_, hacts.selfAt (fun _ => id) (fun _ => id) (fun _ => id) id (run_selfsKept hr j hgone)⟩
  rintro rfl
  rw [hfit] at hgone
  cases hgone

/-- Proc 0 spawns a child, for which every allocation works. -/
def Sample.spawnChild : Op :=
  .spawn
    ⟨Sample.sendEnv 0 .empty, Sample.newEnv, fun _ => true, fun _ => true, true, fun _ => true⟩ none

def childWatches : List Op :=
  [.spawnInit Sample.newEnv, Sample.spawnChild, .monitor (fun _ => true) 1 0]

/-- The parent is killed, and the child is told. -/
theorem childWatches_hears :
    ∃ k, runOps checkKept .boot (childWatches ++ [.kill 0 0 none]) = some k ∧
    k.watchersOf 0 = [(1, false)] ∧
      k.findProc (1 : Nat) = some 1 ∧ NoticesLand (fun _ => true) k (.kill 0 none) := by
  obtain ⟨k, hk, hr, hp⟩ :=
    Run.of_ops (l := childWatches ++ [.kill 0 0 none]) checkKept_kept (P := fun k =>
    decide (.kill 0 none ∈ k.teardowns) && decide (k.watchersOf 0 = [(1, false)]) &&
      decide (k.findProc (1 : Nat) = some 1) && decide (k.sch.statusOf 1 ≠ .broke))
        (by decide +kernel)
  simp only [Bool.and_eq_true, decide_eq_true_eq] at hp
  obtain ⟨⟨⟨ht, hwatch⟩, hfind⟩, hstatus⟩ := hp
  refine ⟨k, hk, hwatch, hfind, run_notices_land hr _ ht fun x hx j hj => ?_⟩
  have hx' : x ∈ k.watchersOf 0 := hx
  rw [hwatch] at hx'
  rw [List.mem_singleton.mp hx', hfind] at hj
  cases hj
  exact hstatus

/-- The child breaks first and is held, and then the parent is killed. -/
def childBroke : List Op :=
  childWatches ++ [.break 0 1 none, .finish (fun _ => true) (.break 1 none), .kill 0 0 none]

/-- The first turn of the loop tells a proc whose slot 0 is not in use. -/
def tellsDeaf (k : Kernel) (i : Nat) : Bool :=
  let k1 := (k.waitClear i).detachRights i
  (k1.procv[i]?).any fun (pr : KProc) => pr.watchers.head?.any fun x =>
    (k1.findProc x.1).any fun j =>
    (k1.procv[j]?).all fun (pr' : KProc) => (pr'.rights.slots[0]?).all fun r => !r.used

theorem tellsDeaf_lands {memOk : Nat → Bool} {k : Kernel} {i : Nat} {why : Option (List UInt8)}
    {broke : Bool} (h : tellsDeaf k i = true) : ¬Lands memOk k i why broke := by
  intro hl
  unfold tellsDeaf at h
  unfold Lands at hl
  generalize (k.waitClear i).detachRights i = k1 at h hl
  simp only [Option.any_eq_true, Option.all_eq_true] at h
  obtain ⟨pr, hpr, x, hx, j, hj, hdeaf⟩ := h
  obtain ⟨post, hpost⟩ : ∃ post, pr.watchers = x :: post := List.head?_eq_some_iff.mp hx
  obtain ⟨pr', r, q, hpr', hr, hu, -⟩ := hl pr hpr [] x post hpost j hj
  have hnot := hdeaf pr' hpr' r hr
  rw [hu] at hnot
  cases hnot

/-- The notice of the parent's death is pushed to the port the child used to have. -/
theorem childBroke_deaf :
    ∃ k, runOps anyOp .boot childBroke = some k ∧ Run (fun _ _ => True) k ∧
    .kill 0 none ∈ k.teardowns ∧ ¬NoticesLand (fun _ => true) k (.kill 0 none) := by
  obtain ⟨k, hk, hr, hp⟩ := Run.of_ops (l := childBroke) anyOp_true (P := fun k =>
    decide (.kill 0 none ∈ k.teardowns) && tellsDeaf ((Teardown.kill 0 none).start k) 0)
      (by decide +kernel)
  simp only [Bool.and_eq_true, decide_eq_true_eq] at hp
  exact ⟨k, hk, hr, hp.1, fun hl => tellsDeaf_lands hp.2 (hl rfl)⟩

end Nlos
