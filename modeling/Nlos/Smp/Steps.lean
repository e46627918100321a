import Nlos.Lib.Tally
import Nlos.Smp.Machine

/-!
# What a step does

A step rewrites the record of one slot, ends at most one routine on that slot and may begin others
on it. `Change` lists the ways, with what was tested; the invariants of the other modules go by its
cases. The run queues are not in it: `RunQueue` follows them.
-/

namespace Nlos.Smp

open List Bool

/-! ## Which steps enter which region -/

/-- The step calls `make_ready` of `i`, and ends the routine `t` that was about to. -/
inductive Readies : Act → Nat → Int → Task → Prop where
  | launch (i : Nat) (pri : Int) : Readies (.launch i pri) i pri (.launch i)
  | wake (i : Nat) (pri : Int) : Readies (.wakeReady i pri) i pri (.wake i)

/-- The step enters the first region of `proc_kill` of `i` on `me`. -/
inductive Kills : Act → Nat → Nat → List Task → Prop where
  | kill (me i : Nat) : Kills (.kill me i) me i []
  | spawnFailed (me i : Nat) : Kills (.spawnFailed me i) me i [.launch i]
  | answer (me i : Nat) : Kills (.answer me .kill i) me i [.call me .kill i]

/-- The step makes the test in front of `proc_break` of `i` on `me`. -/
inductive BreakTests : Act → Nat → Nat → List Task → Prop where
  | test (me i : Nat) : BreakTests (.breakTest me i) me i []
  | answer (me i : Nat) : BreakTests (.answer me .break i) me i [.call me .break i]

/-- The step enters the first region of `proc_reap` of `i` on `me`. -/
inductive Reaps : Act → Nat → Nat → List Task → Prop where
  | reap (me i : Nat) : Reaps (.reap me i) me i []
  | answer (me i : Nat) : Reaps (.answer me .reap i) me i [.call me .reap i]

/-- The step only notes that somebody reads the proc or asks it to stop. -/
inductive Notes : Act → Nat → Prop where
  | freeze (i : Nat) : Notes (.freeze i) i
  | thaw (i : Nat) : Notes (.thaw i) i
  | askStop (i : Nat) : Notes (.askStop i) i

/-- A record as it is once its proc is let go: back on `b` where it is ready and on no queue. -/
def Rec.putBack (r : Rec) (b : Bool) : Rec :=
  { r with onq := if r.status = .ready ∧ r.onq = none then some b else r.onq }

/-- A record the cpu that ran its proc lets go. -/
def Rec.released (r : Rec) : Rec :=
  { r with oncpu := 0, killreq := false, reapreq := false, killfree := false }

theorem elsewhere_oncpu {r : Rec} {me : Nat} (h : r.elsewhere me = true) : r.oncpu ≠ 0 := by
  simp only [Rec.elsewhere, and_eq_true, bne_iff_ne] at h
  exact h.1

/-- What a step does to the record `r` of slot `i`, which routines it ends and begins, and what it
adds to `nlive`. -/
inductive Change (s : Machine) : Act → Nat → Rec → Rec → List Task → List Task → Int → Prop where
  | readyRefused {a i pri t r} (ha : Readies a i pri t)
      (hs : r.status = .stopped ∨ r.status = .broke) :
      Change s a i r r [t] [] 0
  | readyStopped {a i pri t r} (ha : Readies a i pri t) (hs : r.status = .blocked) :
      Change s a i r { r with status := .stopped, stopreq := false } [t] [] 0
  | readyHeld {a i pri t r} (ha : Readies a i pri t)
      (hs : ¬(r.status = .stopped ∨ r.status = .broke))
      (hc : r.oncpu ≠ 0) : Change s a i r { r with status := .ready, pri := pri } [t] [] 0
  | readyQueued {a i pri t r} (ha : Readies a i pri t)
      (hs : ¬(r.status = .stopped ∨ r.status = .broke))
      (hc : r.oncpu = 0) :
      Change s a i r
        { r with status := .ready, pri := pri, onq := some (r.onq.getD s.runq) } [t] [] 0
  | killRefused {a me i old r} (ha : Kills a me i old)
      (hg : r.gone = true) : Change s a i r r old [] 0
  | killLeft {a me i old r} (ha : Kills a me i old) (hg : r.gone = false)
      (he : r.elsewhere me = true) :
      Change s a i r { r with killreq := true, killfree := true } old [] 0
  | killed {a me i old r} (ha : Kills a me i old) (hg : r.gone = false)
      (he : r.elsewhere me = false) :
      Change s a i r { r with onq := none, status := .dead } old [.kill me i .marked] 0
  | killClosed {me i r} :
      Change s (.killClose me i) i r
        { r with closes := r.closes + 1 } [.kill me i .marked] [.kill me i .closed] 0
  | killDetached {me i r} (hw : s.wide = true) :
      Change s (.killDetach me i) i r { r with onq := none, detaches := r.detaches + 1 }
        [.kill me i .closed] [.kill me i .detached] (-1)
  | killEnded {me i r} : Change s (.killEnd me i) i r
      { r with status := .dead } [.kill me i .detached] [] 0
  | breakRefused {a me i old r} (ha : BreakTests a me i old)
      (hg : r.gone = true) : Change s a i r r old [] 0
  | breakTested {a me i old r} (ha : BreakTests a me i old) (hg : r.gone = false) :
      Change s a i r r old [.breaking me i] 0
  | breakLeft {me i r} (he : r.elsewhere me = true) :
      Change s (.breakMark me i) i r { r with killreq := true } [.breaking me i] [] 0
  | broken {me i r} (he : r.elsewhere me = false) :
      Change s (.breakMark me i) i r
        { r with onq := none, status := .broke } [.breaking me i] [.broke me i] 0
  | breakDetached {me i r} (hw : s.wide = true) :
      Change s (.breakDetach me i) i r
        { r with onq := none, detaches := r.detaches + 1 } [.broke me i] [] (-1)
  | reapRefused {a me i old r} (ha : Reaps a me i old) : Change s a i r r old [] 0
  | reapLeft {a me i old r} (ha : Reaps a me i old) (hb : r.status = .broke)
      (he : r.elsewhere me = true) :
      Change s a i r { r with reapreq := true } old [] 0
  | reaped {a me i old r} (ha : Reaps a me i old) (hb : r.status = .broke) (hr : r.reaping = false)
      (he : r.elsewhere me = false) : Change s a i r
        { r with reaping := true } old [.reap me i false] 0
  | reapClosed {me i r} :
      Change s (.reapClose me i) i r
        { r with closes := r.closes + 1 } [.reap me i false] [.reap me i true] 0
  | reapEnded {me i r} (hw : s.wide = true) :
      Change s (.reapEnd me i) i r
        { r with status := .dead, reaping := false } [.reap me i true] [] 0
  | wakeTested {i r} (hs : r.status = .blocked) (hw : r.woken = false) :
      Change s (.wakeTest i) i r { r with woken := true } [] [.wake i] 0
  | asideSet {high i r} (hq : s.rqFirst high = some i) :
      Change s (.setAside high) i r { r with onq := some (!s.runq) } [] [] 0
  | dispatched {me high i r} (hq : s.rqFirst high = some i) (hc : r.oncpu = 0) :
      Change s (.dispatch me high) i r
        { r with onq := none, oncpu := me + 1, holder := .dispatch } [] [] 0
  | waitReaped {me i r} (hc : r.oncpu = me + 1) :
      Change s (.waitReap me i) i r { r with woken := false } [] [] 0
  | blocked {me i r} (hc : r.oncpu = me + 1) (hg : r.gone = false) :
      Change s (.block me i) i r { r with onq := none, status := .blocked } [] [] 0
  | released {me i r} (hc : r.oncpu = me + 1) (hh : r.holder = .dispatch) (hi : s.idle me = true) :
      Change s (.release me i) i r
        (if r.killreq then r.released else r.released.putBack (!s.runq)) []
        (Machine.leftCalls me i r) 0
  | parkedClaimed {h me i r} (hs : r.status = .blocked) (hc : r.oncpu = 0) (hq : r.onq = none) :
      Change s (.claimParked h me i) i r { r with oncpu := me + 1, holder := h } [] [] 0
  | goneLetGo {h me i r} (hd : h ≠ .dispatch) (hc : r.oncpu = me + 1) (hh : r.holder = h)
      (hi : s.idle me = true) :
      Change s (.letGo h me i) i r ({ r with oncpu := 0 }.putBack (!s.runq)) [] [] 0
  | noted {a i r} (ha : Notes a i) (f : Nat) (b : Bool) : Change s a i r
      { r with frozen := f, stopreq := b } [] [] 0

/-! ## Small facts -/

namespace Machine

variable {s s' : Machine} {i : Nat} {r r' : Rec}

@[simp] theorem rqDel_tasks : (s.rqDel i).tasks = s.tasks := by
  unfold rqDel
  split
  · rfl
  · split <;> rfl

@[simp] theorem rqDel_nlive : (s.rqDel i).nlive = s.nlive := by
  unfold rqDel
  split
  · rfl
  · split <;> rfl

section

variable (hr : s.procs[i]? = some r)

include hr

theorem rqDel_procs : (s.rqDel i).procs = s.procs.set i { r with onq := none } := by
  simp only [rqDel, hr]
  match ho : r.onq with
  | none =>
    -- nothing is written, and nothing would change
    have : { r with onq := none } = r := by rw [← ho]
    rw [this]
    obtain ⟨h, rfl⟩ := List.getElem?_eq_some_iff.mp hr
    exact (set_getElem_self h).symm
  | some b => rfl

theorem rqAdd_eq (b : Bool) : s.rqAdd b i =
      { s with
        set := fun x => if x = b then (s.set b).add (rqBucket r.pri) i else s.set x
        procs := s.procs.set i { r with onq := some b } } := by
  simp only [rqAdd, hr]

theorem lt_of_slot : i < s.procs.length := (List.getElem?_eq_some_iff.mp hr).1

theorem put_slot (r' : Rec) : (s.put i r').procs[i]? = some r' :=
  Tally.set_slot hr

theorem rqDel_slot : (s.rqDel i).procs[i]? = some { r with onq := none } := by
  rw [rqDel_procs hr]
  exact Tally.set_slot hr

theorem rqDel_put_slot (r' : Rec) : ((s.rqDel i).put i r').procs[i]? = some r' := by
  refine List.getElem?_set_self ?_
  rw [rqDel_procs hr, length_set]
  exact lt_of_slot hr

end

/-- `s'` is `s` with the record of `i` rewritten, some routines begun and `d` added to `nlive`. -/
structure Writes (s : Machine) (i : Nat) (r' : Rec) (new : List Task) (d : Int)
    (s' : Machine) : Prop where
  procs : s'.procs = s.procs.set i r'
  tasks : s'.tasks = new ++ s.tasks
  nlive : s'.nlive = s.nlive + d

theorem writes_put (s : Machine) (i : Nat) (r' : Rec) : Writes s i r' [] 0 (s.put i r') :=
  ⟨rfl, rfl, (Int.add_zero _).symm⟩

theorem writes_self (hr : s.procs[i]? = some r) (new : List Task) :
    Writes s i r new 0 (s.begin new) := by
  refine ⟨?_, rfl, (Int.add_zero _).symm⟩
  obtain ⟨h, rfl⟩ := List.getElem?_eq_some_iff.mp hr
  exact (set_getElem_self h).symm

theorem Writes.begin (h : Writes s i r' [] 0 s') (new : List Task) :
    Writes s i r' new 0 (s'.begin new) :=
  ⟨h.procs, congrArg (new ++ ·) h.tasks, h.nlive⟩

theorem writes_off (hr : s.procs[i]? = some r) (r' : Rec) :
    Writes s i r' [] 0 ((s.rqDel i).put i r') := by
  refine ⟨?_, rqDel_tasks, ?_⟩
  · show (s.rqDel i).procs.set i r' = _
    rw [rqDel_procs hr, set_set]
  · show (s.rqDel i).nlive = _
    rw [rqDel_nlive, Int.add_zero]

theorem Writes.on (h : Writes s i r' [] 0 s') (hr : s'.procs[i]? = some r') (b : Bool) :
    Writes s i { r' with onq := some b } [] 0 (s'.rqAdd b i) := by
  rw [rqAdd_eq hr]
  refine ⟨?_, h.tasks, h.nlive⟩
  rw [h.procs, set_set]

theorem writes_letGo (hr : s.procs[i]? = some r) (r' : Rec) :
    Writes s i (r'.putBack (!s.runq)) [] 0 (s.letGo i r') := by
  unfold letGo Rec.putBack
  split
  · exact (writes_put s i r').on (put_slot hr r') _
  · exact writes_put s i r'

theorem writes_releaseClaim (hr : s.procs[i]? = some r) (me : Nat) :
    Writes s i (if r.killreq then r.released else r.released.putBack (!s.runq)) (leftCalls me i r) 0
      (s.releaseClaim me i r) := by
  refine Writes.begin ?_ _
  split
  · exact writes_put s i r.released
  · exact writes_letGo hr r.released

end Machine

variable {test : Rec → Bool}

theorem onRec_some {s s' : Machine} {i : Nat} {f : Rec → Machine}
    (h : onRec s i test f = some s') : ∃ r, s.procs[i]? = some r ∧ test r = true ∧ f r = s' := by
  unfold onRec at h
  match s.procs[i]?, h with
  | some r, h =>
    obtain ⟨ht, hf⟩ := Option.ite_none_right_eq_some.mp h
    exact ⟨r, rfl, ht, Option.some.inj hf⟩

theorem goOn_some {s s' : Machine} {t : Task} {lock : Bool} {f : Machine → Rec → Machine}
    {new : List Task} (h : goOn s t lock f new = some s') :
    ∃ r, s.procs[t.slot]? = some r ∧ t ∈ s.tasks ∧ lock = true ∧ f (s.turn t new) r = s' := by
  obtain ⟨r, hr, ht, rfl⟩ := onRec_some h
  obtain ⟨h1, h2⟩ := and_eq_true_iff.mp ht
  exact ⟨r, hr, of_decide_eq_true h1, h2, rfl⟩

/-! ## The steps, by what they do -/

/-- What a step can be: a swap of the queues, a birth, or a change to one slot. -/
inductive Moved (s : Machine) (a : Act) (s' : Machine) : Prop where
  | swapped (ha : a = .swap) (hs : s' = { s with runq := !s.runq })
  | born {maxProcs : Nat} {ok : Bool} (ha : a = .procNew maxProcs ok) (hw : s.wide = true)
      (hs : s' = s.procNew ok)
  | turned {i : Nat} {r r' : Rec} {old new : List Task} {d : Int} (hr : s.procs[i]? = some r)
      (hc : Change s a i r r' old new d) (ho : ∀ t ∈ old, t ∈ s.tasks)
      (hp : s'.procs = s.procs.set i r') (ht : s'.tasks = new ++ s.tasks.diff old)
      (hn : s'.nlive = s.nlive + d)

open Machine

section Regions

variable {s s' s1 : Machine} {a : Act} {i me : Nat} {r r' : Rec} {t : Task}
    {old new : List Task} {d : Int}

section

variable (hr : s.procs[i]? = some r)

include hr

theorem Moved.of_writes (hc : Change s a i r r' [] new d)
    (h : Writes s i r' new d s') : Moved s a s' :=
  .turned hr hc nofun h.procs h.tasks h.nlive

/-- A routine that goes on: the region is entered with the routine out of the list. -/
theorem Moved.of_turn (hm : t ∈ s.tasks) (hc : Change s a i r r' [t] new d)
    (h : Writes (s.turn t []) i r' new d s') : Moved s a s' := by
  refine .turned hr hc ?_ h.procs ?_ h.nlive
  · intro u hu
    rw [mem_singleton.mp hu]
    exact hm
  · rw [h.tasks, diff_cons, diff_nil]
    rfl

/-- The two ways into a region: by a call, or by a routine that has come to it. -/
theorem Moved.of_region (ho : s1 = s ∧ old = [] ∨ ∃ t ∈ s.tasks, s1 = s.turn t [] ∧ old = [t])
    (hc : Change s a i r r' old new d) (h : Writes s1 i r' new d s') : Moved s a s' := by
  obtain ⟨rfl, rfl⟩ | ⟨t, hm, rfl, rfl⟩ := ho
  · exact .of_writes hr hc h
  · exact .of_turn hr hm hc h

theorem moved_makeReady {pri : Int} (hm : t ∈ s.tasks) (ha : Readies a i pri t) :
    Moved s a ((s.turn t []).makeReady i r pri) := by
  have hr' : (s.turn t []).procs[i]? = some r := hr
  unfold makeReady
  split
  next hs => exact .of_turn hr hm (.readyRefused ha hs) (writes_self hr' [])
  next hs =>
  split
  next hb => exact .of_turn hr hm (.readyStopped ha hb.1) (writes_put _ i _)
  split
  next hc => exact .of_turn hr hm (.readyHeld ha hs hc) (writes_put _ i _)
  next hc =>
  refine .of_turn hr hm (.readyQueued ha hs (not_not.mp hc)) ?_
  exact (writes_off hr' { r with onq := none, status := .ready, pri := pri }).on
    (rqDel_put_slot hr' _) _

end

section Marks

variable (hr : s.procs[i]? = some r)
  (ho : s1 = s ∧ old = [] ∨ ∃ t ∈ s.tasks, s1 = s.turn t [] ∧ old = [t])

include hr ho

omit hr in
theorem slot_region (h : s.procs[i]? = some r) : s1.procs[i]? = some r := by
  obtain ⟨rfl, -⟩ | ⟨t, -, rfl, -⟩ := ho <;> exact h

theorem moved_procKill (ha : Kills a me i old) : Moved s a (s1.procKill me i r) := by
  have hr' := slot_region ho hr
  unfold procKill
  split
  next hg => exact .of_region hr ho (.killRefused ha hg) (writes_self hr' [])
  next hg =>
  split
  next he => exact .of_region hr ho (.killLeft ha (eq_false_iff.mpr hg) he) (writes_put _ i _)
  next he =>
  exact .of_region hr ho (.killed ha (eq_false_iff.mpr hg) (eq_false_iff.mpr he))
    ((writes_off hr' _).begin _)

theorem moved_procBreakTest (ha : BreakTests a me i old) : Moved s a (s1.procBreakTest me i r) := by
  have hr' := slot_region ho hr
  unfold procBreakTest
  split
  next hg => exact .of_region hr ho (.breakRefused ha hg) (writes_self hr' [])
  next hg => exact .of_region hr ho (.breakTested ha (eq_false_iff.mpr hg)) (writes_self hr' _)

theorem moved_procReap (ha : Reaps a me i old) : Moved s a (s1.procReap me i r) := by
  have hr' := slot_region ho hr
  unfold procReap
  split
  · exact .of_region hr ho (.reapRefused ha) (writes_self hr' [])
  next hb =>
  obtain ⟨hb, hn⟩ := not_or.mp hb
  split
  next he => exact .of_region hr ho (.reapLeft ha (not_not.mp hb) he) (writes_put _ i _)
  next he =>
  exact .of_region hr ho (.reaped ha (not_not.mp hb) (eq_false_iff.mpr hn) (eq_false_iff.mpr he))
    ((writes_put _ i _).begin _)

end Marks

theorem moved_procBreak (hr : s.procs[i]? = some r) (hm : .breaking me i ∈ s.tasks) :
    Moved s (.breakMark me i) ((s.turn (.breaking me i) []).procBreak me i r) := by
  have hr' : (s.turn (.breaking me i) []).procs[i]? = some r := hr
  unfold procBreak
  split
  next he => exact .of_turn hr hm (.breakLeft he) (writes_put _ i _)
  next he => exact .of_turn hr hm (.broken (eq_false_iff.mpr he)) ((writes_off hr' _).begin _)

end Regions

/-- A call `release_claim` left to be made. -/
theorem moved_answer {s : Machine} {me i : Nat} {r : Rec} {what : Call} (hr : s.procs[i]? = some r)
    (hm : .call me what i ∈ s.tasks) :
    Moved s (.answer me what i) (what.start me i (s.turn (.call me what i) []) r) := by
  cases what with
  | kill => exact moved_procKill hr (.inr ⟨_, hm, rfl, rfl⟩) (.answer me i)
  | «break» => exact moved_procBreakTest hr (.inr ⟨_, hm, rfl, rfl⟩) (.answer me i)
  | reap => exact moved_procReap hr (.inr ⟨_, hm, rfl, rfl⟩) (.answer me i)

/-- What a search of the run queue found. -/
theorem taken_some {s s' : Machine} {high : Bool} {f : Nat → Rec → Machine}
    (h : (match s.rqFirst high with
      | none => none
      | some i => onRec s i test (f i)) = some s') :
    ∃ i r, s.rqFirst high = some i ∧ s.procs[i]? = some r ∧ test r = true ∧ f i r = s' := by
  revert h
  cases s.rqFirst high with
  | none => nofun
  | some i =>
    intro h
    obtain ⟨r, hr⟩ := onRec_some h
    exact ⟨i, r, rfl, hr⟩

theorem run_moved {s s' : Machine} {a : Act} (h : a.run s = some s') : Moved s a s' := by
  unfold Act.run at h
  cases a with
  | procNew maxProcs ok =>
    obtain ⟨⟨hw, -⟩, h⟩ := Option.ite_none_right_eq_some.mp h
    exact .born rfl hw (Option.some.inj h).symm
  | swap =>
    obtain ⟨-, h⟩ := Option.ite_none_right_eq_some.mp h
    exact .swapped rfl (Option.some.inj h).symm
  | answer me what i =>
    obtain ⟨r, hr, hm, -, rfl⟩ := goOn_some h
    exact moved_answer hr hm
  | setAside high =>
    obtain ⟨i, r, hq, hr, -, rfl⟩ := taken_some h
    refine .of_writes hr (.asideSet hq) ?_
    exact Writes.on ⟨rqDel_procs hr, rqDel_tasks, rqDel_nlive.trans (Int.add_zero _).symm⟩
      (rqDel_slot hr) _
  | dispatch me high =>
    obtain ⟨i, r, hq, hr, ht, rfl⟩ := taken_some h
    simp only [and_eq_true, beq_iff_eq] at ht
    exact .of_writes hr (.dispatched hq ht.2) (writes_off hr _)
  | launch i pri =>
    obtain ⟨r, hr, hm, -, rfl⟩ := goOn_some h
    exact moved_makeReady hr hm (.launch i pri)
  | wakeReady i pri =>
    obtain ⟨r, hr, hm, -, rfl⟩ := goOn_some h
    exact moved_makeReady hr hm (.wake i pri)
  | spawnFailed me i =>
    obtain ⟨r, hr, hm, -, rfl⟩ := goOn_some h
    exact moved_procKill hr (.inr ⟨_, hm, rfl, rfl⟩) (.spawnFailed me i)
  | wakeTest i =>
    obtain ⟨r, hr, ht, rfl⟩ := onRec_some h
    simp only [and_eq_true, beq_iff_eq, not_eq_true'] at ht
    exact .of_writes hr (.wakeTested ht.1.2 ht.2) ((writes_put s i _).begin _)
  | waitReap me i =>
    obtain ⟨r, hr, ht, rfl⟩ := onRec_some h
    simp only [and_eq_true, beq_iff_eq] at ht
    exact .of_writes hr (.waitReaped ht.1) (writes_put s i _)
  | block me i =>
    obtain ⟨r, hr, ht, rfl⟩ := onRec_some h
    simp only [and_eq_true, beq_iff_eq, not_eq_true'] at ht
    exact .of_writes hr (.blocked ht.1.1.2 ht.2) (writes_off hr _)
  | release me i =>
    obtain ⟨r, hr, ht, rfl⟩ := onRec_some h
    simp only [and_eq_true, beq_iff_eq] at ht
    exact .of_writes hr (.released ht.1.2 ht.2 ht.1.1) (writes_releaseClaim hr me)
  | claimParked hd me i =>
    obtain ⟨r, hr, ht, rfl⟩ := onRec_some h
    simp only [and_eq_true, beq_iff_eq, Option.isNone_iff_eq_none] at ht
    exact .of_writes hr (.parkedClaimed ht.1.1.1.2 ht.1.1.2 ht.2) (writes_put s i _)
  | letGo hd me i =>
    obtain ⟨r, hr, ht, rfl⟩ := onRec_some h
    simp only [and_eq_true, beq_iff_eq, bne_iff_ne] at ht
    exact .of_writes hr (.goneLetGo ht.1.1.2 ht.1.2 ht.2 ht.1.1.1) (writes_letGo hr _)
  | kill me i =>
    obtain ⟨r, hr, -, rfl⟩ := onRec_some h
    exact moved_procKill hr (.inl ⟨rfl, rfl⟩) (.kill me i)
  | killClose me i =>
    obtain ⟨r, hr, hm, -, rfl⟩ := goOn_some h
    exact .of_turn hr hm .killClosed ⟨rfl, rfl, (Int.add_zero _).symm⟩
  | killDetach me i =>
    obtain ⟨r, hr, hm, hw, rfl⟩ := goOn_some h
    refine .of_turn hr hm (.killDetached hw) ⟨?_, rqDel_tasks, rfl⟩
    exact (writes_off (s := s.turn _ _) hr _).procs
  | killEnd me i =>
    obtain ⟨r, hr, hm, -, rfl⟩ := goOn_some h
    exact .of_turn hr hm .killEnded ⟨rfl, rfl, (Int.add_zero _).symm⟩
  | breakTest me i =>
    obtain ⟨r, hr, -, rfl⟩ := onRec_some h
    exact moved_procBreakTest hr (.inl ⟨rfl, rfl⟩) (.test me i)
  | breakMark me i =>
    obtain ⟨r, hr, hm, -, rfl⟩ := goOn_some h
    exact moved_procBreak hr hm
  | breakDetach me i =>
    obtain ⟨r, hr, hm, hw, rfl⟩ := goOn_some h
    refine .of_turn hr hm (.breakDetached hw) ⟨?_, rqDel_tasks, rfl⟩
    exact (writes_off (s := s.turn _ _) hr _).procs
  | reap me i =>
    obtain ⟨r, hr, -, rfl⟩ := onRec_some h
    exact moved_procReap hr (.inl ⟨rfl, rfl⟩) (.reap me i)
  | reapClose me i =>
    obtain ⟨r, hr, hm, -, rfl⟩ := goOn_some h
    exact .of_turn hr hm .reapClosed ⟨rfl, rfl, (Int.add_zero _).symm⟩
  | reapEnd me i =>
    obtain ⟨r, hr, hm, hw, rfl⟩ := goOn_some h
    exact .of_turn hr hm (.reapEnded hw) ⟨rfl, rfl, (Int.add_zero _).symm⟩
  | freeze i =>
    obtain ⟨r, hr, -, rfl⟩ := onRec_some h
    exact .of_writes hr (.noted (.freeze i) _ r.stopreq) (writes_put s i _)
  | thaw i =>
    obtain ⟨r, hr, -, rfl⟩ := onRec_some h
    exact .of_writes hr (.noted (.thaw i) _ r.stopreq) (writes_put s i _)
  | askStop i =>
    obtain ⟨r, hr, -, rfl⟩ := onRec_some h
    exact .of_writes hr (.noted (.askStop i) r.frozen true) (writes_put s i _)

/-! ## Slots and routines behind a step -/

theorem turned_slots {s s' : Machine} {i : Nat} {r r' : Rec} (hi : s.procs[i]? = some r)
    (hp : s'.procs = s.procs.set i r') (j : Nat) :
    s'.procs[j]? = if j = i then some r' else s.procs[j]? := by
  rw [hp]
  split
  next hj =>
    subst hj
    exact Tally.set_slot hi
  next hj => exact List.getElem?_set_ne (Ne.symm hj)

variable {j : Nat} {x : Rec}

/-- A slot behind a step: the one it rewrote, or one it left alone. -/
theorem slot_turned {s s' : Machine} {i : Nat} {r r' : Rec} (hi : s.procs[i]? = some r)
    (hp : s'.procs = s.procs.set i r') (hx : s'.procs[j]? = some x) :
    (j = i ∧ x = r') ∨ (j ≠ i ∧ s.procs[j]? = some x) := by
  rw [turned_slots hi hp] at hx
  split at hx
  next hj => exact .inl ⟨hj, (Option.some.inj hx).symm⟩
  next hj => exact .inr ⟨hj, hx⟩

theorem freeSlot_le (s : Machine) : s.freeSlot ≤ s.procs.length := findIdx_le_length

/-- The slot `proc_new` takes has nobody in it, as far as it looks. -/
theorem freeSlot_rec {s : Machine} {r : Rec} (hr : s.procs[s.freeSlot]? = some r) :
    r.status = .dead ∧ r.oncpu = 0 := by
  obtain ⟨h, rfl⟩ := List.getElem?_eq_some_iff.mp hr
  have hf : (s.procs[s.freeSlot].status == .dead && s.procs[s.freeSlot].oncpu == 0) = true :=
    findIdx_getElem (w := h)
  exact (and_eq_true_iff.mp hf).imp beq_iff_eq.mp beq_iff_eq.mp

theorem wipe_slots {s : Machine} {i : Nat} (hi : i ≤ s.procs.length) (r' : Rec) (j : Nat) :
    (s.wipe i r').procs[j]? = if j = i then some r' else s.procs[j]? :=
  Tally.getElem?_grow hi r' j

/-- The record `proc_new` leaves. -/
def Rec.born (ok : Bool) : Rec :=
  if ok then { Rec.zero with status := .hatching, hatched := true } else Rec.zero

theorem procNew_procs (s : Machine) (ok : Bool) :
    (s.procNew ok).procs = (s.wipe s.freeSlot (Rec.born ok)).procs := by
  cases ok <;> rfl

theorem procNew_tasks (s : Machine) (ok : Bool) :
    (s.procNew ok).tasks = if ok then .launch s.freeSlot :: s.tasks else s.tasks := by
  cases ok <;> rfl

theorem born_slots (s : Machine) (ok : Bool) (j : Nat) :
    (s.procNew ok).procs[j]? = if j = s.freeSlot then some (Rec.born ok) else s.procs[j]? := by
  rw [procNew_procs]
  exact wipe_slots (freeSlot_le s) _ j

theorem slot_born {s : Machine} {ok : Bool} (hx : (s.procNew ok).procs[j]? = some x) :
    (j = s.freeSlot ∧ x = Rec.born ok) ∨ (j ≠ s.freeSlot ∧ s.procs[j]? = some x) := by
  rw [born_slots] at hx
  split at hx
  next hj => exact .inl ⟨hj, (Option.some.inj hx).symm⟩
  next hj => exact .inr ⟨hj, hx⟩

theorem mem_tasks_born {s : Machine} {t : Task} (ok : Bool) (h : t ∈ s.tasks) :
    t ∈ (s.procNew ok).tasks := by
  rw [procNew_tasks]
  split
  · exact mem_cons_of_mem _ h
  · exact h

/-- What was left on a proc is called for, and nothing else is begun. -/
theorem leftCalls_call {me i : Nat} {r : Rec} {t : Task} (h : t ∈ leftCalls me i r) :
    ∃ what, t = .call me what i := by
  obtain h | h := mem_append.mp h
  all_goals
    split at h
    · exact ⟨_, mem_singleton.mp h⟩
    · cases h

theorem kill_mem_leftCalls {r : Rec} (me i : Nat) (h : r.killreq = true) :
    .call me (if r.killfree then .kill else .break) i ∈ leftCalls me i r := by
  refine mem_append.mpr (.inl ?_)
  rw [if_pos h]
  exact mem_singleton.mpr rfl

theorem reap_mem_leftCalls {r : Rec} (me i : Nat) (h : r.reapreq = true) :
    .call me .reap i ∈ leftCalls me i r := by
  refine mem_append.mpr (.inr ?_)
  rw [if_pos h]
  exact mem_singleton.mpr rfl

theorem Readies.slot {a : Act} {i : Nat} {pri : Int} {t : Task} (h : Readies a i pri t) :
    t.slot = i := by
  cases h <;> rfl

theorem Kills.slot {a : Act} {me i : Nat} {old : List Task} (h : Kills a me i old) :
    ∀ t ∈ old, t.slot = i := by
  cases h <;> simp [Task.slot]

theorem BreakTests.slot {a : Act} {me i : Nat} {old : List Task} (h : BreakTests a me i old) :
    ∀ t ∈ old, t.slot = i := by
  cases h <;> simp [Task.slot]

theorem Reaps.slot {a : Act} {me i : Nat} {old : List Task} (h : Reaps a me i old) :
    ∀ t ∈ old, t.slot = i := by
  cases h <;> simp [Task.slot]

theorem Change.slots {s : Machine} {a : Act} {i : Nat} {r r' : Rec} {old new : List Task} {d : Int}
    (h : Change s a i r r' old new d) : (∀ t ∈ old, t.slot = i) ∧ ∀ t ∈ new, t.slot = i := by
  cases h with
  | readyRefused ha | readyStopped ha | readyHeld ha | readyQueued ha => simp [ha.slot]
  | killRefused ha | killLeft ha | breakRefused ha | reapRefused ha | reapLeft ha =>
    exact ⟨ha.slot, nofun⟩
  | killed ha | breakTested ha | reaped ha => exact ⟨ha.slot, by simp [Task.slot]⟩
  | released =>
    refine ⟨nofun, fun t ht => ?_⟩
    obtain ⟨what, rfl⟩ := leftCalls_call ht
    rfl
  | _ => simp [Task.slot]

end Nlos.Smp
