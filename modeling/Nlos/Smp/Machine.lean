import Nlos.Kernel.State
import Nlos.Lib.Buckets

/-!
# Several cpus

The scheduler of `src/sched.c`, the claims of `src/kernel.c` and the teardowns of `src/proc.c`, as
they interleave. A step is what one cpu does between taking a lock and releasing it, or between two
locks. Which cpu goes next is not the machine's choice: any step that is possible may be taken.

A routine that is between two of its regions is a `Task`. It has no other state than what the source
keeps in locals there, the slot for the most part, which it goes on using whatever has happened to
the slot since. Two locks matter here. `schedlock` is inside a step. The ipc lock is held across
steps by a waker, which holds one bucket from its test to the end of `make_ready`, and by the end of
`proc_kill`, which holds every bucket; a step that needs every bucket waits for both.

The priority `reprioritize` computes depends on time spent, which is not here: the step is given it.

Of the debugger there is the request to stop that `make_ready` finds. Its own regions are not here:
`dbg_commit` and `sys.dbg.stop` stop a proc, and `dbg_resume` and the `dbg_mark_orphan` of
`dbg_sweep` make one that is stopped `READY` in one region and call `make_ready` in the next.
-/

namespace Nlos.Smp

open Nlos (Status)

/-! ## Records and queues -/

inductive Holder where
  | dispatch
  | collector
  | heaps
deriving DecidableEq, Repr

/-- What the scheduler keeps of a proc. `onq` is the set it is linked on, by its place in `schedq`;
`frozen` counts the readers that hold it still. `holder`, `hatched`, `closes` and `detaches` are not
in the source: who set `oncpu`, whether `proc_new` ever handed the proc out, and how often
`proc_freestate` and `proc_detach` ran on it. -/
structure Rec where
  status : Status
  oncpu : Nat
  onq : Option Bool
  pri : Int
  frozen : Nat
  woken : Bool
  stopreq : Bool
  killreq : Bool
  killfree : Bool
  reapreq : Bool
  reaping : Bool
  holder : Holder
  hatched : Bool
  closes : Nat
  detaches : Nat
deriving DecidableEq, Repr

/-- A zeroed record: `DEAD` is the zero of the enumeration. -/
def Rec.zero : Rec where
  status := .dead
  oncpu := 0
  onq := none
  pri := 0
  frozen := 0
  woken := false
  stopreq := false
  killreq := false
  killfree := false
  reapreq := false
  reaping := false
  holder := .dispatch
  hatched := false
  closes := 0
  detaches := 0

def Rec.gone (r : Rec) : Bool := r.status == .dead || r.status == .broke

/-- The proc is in the hands of another cpu than `me`. -/
def Rec.elsewhere (r : Rec) (me : Nat) : Bool := r.oncpu != 0 && r.oncpu != me + 1

/-- How far `proc_kill` has come behind the region that marks the proc. -/
inductive Phase where
  | marked
  | closed
  | detached
deriving DecidableEq, Repr

/-- What `release_claim` found to be done to the proc it let go. -/
inductive Call where
  | kill
  | «break»
  | reap
deriving DecidableEq, Repr

/-- A routine between two of its regions, on the slot `i`. -/
inductive Task where
  /-- A waker has claimed the proc and is about to call `make_ready`. -/
  | wake (i : Nat)
  /-- `sys.spawn` has made the proc and is about to launch it. -/
  | launch (i : Nat)
  /-- `release_claim` on cpu `me` is about to make this call. -/
  | call (me : Nat) (what : Call) (i : Nat)
  /-- `proc_kill` on cpu `me` has marked the proc. -/
  | kill (me i : Nat) (ph : Phase)
  /-- `proc_break` on cpu `me` has looked at the status, without the lock. -/
  | breaking (me i : Nat)
  /-- `proc_break` on cpu `me` has marked the proc and is about to detach it. -/
  | broke (me i : Nat)
  /-- `proc_reap` on cpu `me` has claimed the corpse, and has freed its state or not. -/
  | reap (me i : Nat) (closed : Bool)
deriving DecidableEq, Repr

def Task.slot : Task → Nat
  | .wake i | .launch i | .call _ _ i | .kill _ i _ | .breaking _ i | .broke _ i | .reap _ i _ => i

def Task.cpu : Task → Option Nat
  | .wake _ | .launch _ => none
  | .call me _ _ | .kill me _ _ | .breaking me _ | .broke me _ | .reap me _ _ => some me

def nrq : Nat := 16

/-- The highest priority, `MAXWEIGHT * PRI_BASE`. -/
def topPri : Nat := 160

/-- The machine. `set` are the two sets of `schedq`, and `runq` says which of them is the lap in
progress. -/
structure Machine where
  procs : List Rec
  set : Bool → BucketQueue Nat 32
  runq : Bool
  tasks : List Task
  nlive : Int

def Machine.boot : Machine :=
  { procs := [], set := fun _ => .empty, runq := false, tasks := [], nlive := 0 }

def rqBucket (pri : Int) : Nat := (min (max pri 0) topPri).toNat * (nrq - 1) / topPri

namespace Machine

def put (s : Machine) (i : Nat) (r : Rec) : Machine := { s with procs := s.procs.set i r }

def turn (s : Machine) (t : Task) (new : List Task) : Machine :=
  { s with tasks := new ++ s.tasks.erase t }

def begin (s : Machine) (new : List Task) : Machine := { s with tasks := new ++ s.tasks }

def rqAdd (s : Machine) (b : Bool) (i : Nat) : Machine :=
  match s.procs[i]? with
  | none => s
  | some r =>
    { s with
      set := fun x => if x = b then (s.set b).add (rqBucket r.pri) i else s.set x
      procs := s.procs.set i { r with onq := some b } }

def rqDel (s : Machine) (i : Nat) : Machine :=
  match s.procs[i]? with
  | none => s
  | some r =>
    match r.onq with
    | none => s
    | some b =>
      { s with
        set := fun x => if x = b then (s.set b).del (rqBucket r.pri) i else s.set x
        procs := s.procs.set i { r with onq := none } }

/-- The proc `rq_take_high` or `rq_take_any` finds on the lap in progress. -/
def rqFirst (s : Machine) (high : Bool) : Option Nat :=
  (s.set s.runq).first (if high then (List.range nrq).reverse else List.range nrq)

/-- `make_ready` of the proc of record `r` in slot `i`, where `reprioritize` answers `pri`. -/
def makeReady (s : Machine) (i : Nat) (r : Rec) (pri : Int) : Machine :=
  if r.status = .stopped ∨ r.status = .broke then s
  else if r.status = .blocked ∧ r.stopreq = true then
    s.put i { r with status := .stopped, stopreq := false }
  else if r.oncpu ≠ 0 then s.put i { r with status := .ready, pri := pri }
  else
    ((s.rqDel i).put i { r with onq := none, status := .ready, pri := pri }).rqAdd
      (r.onq.getD s.runq) i

def procBlock (s : Machine) (i : Nat) (r : Rec) : Machine :=
  (s.rqDel i).put i { r with onq := none, status := .blocked }

/-! ## Locks -/

def quiet (s : Machine) : Bool := s.tasks.all fun t => match t with | .wake _ => false | _ => true

/-- No `proc_kill` is between its detach and the end of its region. -/
def settled (s : Machine) : Bool :=
  s.tasks.all fun t => match t with | .kill _ _ .detached => false | _ => true

def wide (s : Machine) : Bool := s.quiet && s.settled

/-- The cpu `me` is in none of the routines that tear a proc down. -/
def idle (s : Machine) (me : Nat) : Bool := s.tasks.all fun t => t.cpu != some me

/-! ## Claims -/

/-- A proc that was made ready while it was in hand is queued by the one who lets it go, with the
record `r` it leaves. -/
def letGo (s : Machine) (i : Nat) (r : Rec) : Machine :=
  if r.status = .ready ∧ r.onq = none then (s.put i r).rqAdd (!s.runq) i else s.put i r

/-- What was left on a proc while it was in hand. -/
def leftCalls (me i : Nat) (r : Rec) : List Task :=
  (if r.killreq then [.call me (if r.killfree then .kill else .break) i] else []) ++
    (if r.reapreq then [.call me .reap i] else [])

/-- `release_claim`, up to the calls it makes with nothing held. -/
def releaseClaim (s : Machine) (me i : Nat) (r : Rec) : Machine :=
  let r' := { r with oncpu := 0, killreq := false, reapreq := false, killfree := false }
  (if r.killreq then s.put i r' else s.letGo i r').begin (leftCalls me i r)

/-! ## Birth and death -/

/-- The slot `proc_new` takes: the first that is empty, or `DEAD` and in no cpu's hands. -/
def freeSlot (s : Machine) : Nat := s.procs.findIdx fun r => r.status == .dead && r.oncpu == 0

/-- The slot wiped, and made where it was not there. -/
def wipe (s : Machine) (i : Nat) (r : Rec) : Machine :=
  { s with procs := if i < s.procs.length then s.procs.set i r else s.procs ++ [r] }

/-- `proc_new`. Where it fails behind the claim the slot is left zeroed. -/
def procNew (s : Machine) (ok : Bool) : Machine :=
  if ok then
    { (s.wipe s.freeSlot { Rec.zero with status := .hatching, hatched := true }).begin
        [.launch s.freeSlot] with
      nlive := s.nlive + 1 }
  else s.wipe s.freeSlot Rec.zero

/-- The region of `proc_kill` that marks the proc, on cpu `me`. -/
def procKill (s : Machine) (me i : Nat) (r : Rec) : Machine :=
  if r.gone then s
  else if r.elsewhere me then s.put i { r with killreq := true, killfree := true }
  else ((s.rqDel i).put i { r with onq := none, status := .dead }).begin [.kill me i .marked]

/-- The test in front of `proc_break`'s region, made without the lock. -/
def procBreakTest (s : Machine) (me i : Nat) (r : Rec) : Machine :=
  if r.gone then s else s.begin [.breaking me i]

/-- The region of `proc_break` that marks the proc. It looks at the status no more. -/
def procBreak (s : Machine) (me i : Nat) (r : Rec) : Machine :=
  if r.elsewhere me then s.put i { r with killreq := true }
  else ((s.rqDel i).put i { r with onq := none, status := .broke }).begin [.broke me i]

/-- The region of `proc_reap` that claims the corpse. -/
def procReap (s : Machine) (me i : Nat) (r : Rec) : Machine :=
  if r.status ≠ .broke ∨ r.reaping = true then s
  else if r.elsewhere me then s.put i { r with reapreq := true }
  else (s.put i { r with reaping := true }).begin [.reap me i false]

def procFreestate (s : Machine) (i : Nat) (r : Rec) : Machine :=
  s.put i { r with closes := r.closes + 1 }

/-- `proc_detach`, as far as the scheduler goes. -/
def procDetach (s : Machine) (i : Nat) (r : Rec) : Machine :=
  { (s.rqDel i).put i { r with onq := none, detaches := r.detaches + 1 } with nlive := s.nlive - 1 }

end Machine

/-! ## Steps -/

/-- The steps. A proc that runs is in the hands of `me`, its cpu. -/
inductive Act where
  | procNew (maxProcs : Nat) (ok : Bool)
  | launch (i : Nat) (pri : Int)
  | spawnFailed (me i : Nat)
  | wakeTest (i : Nat)
  | wakeReady (i : Nat) (pri : Int)
  | setAside (high : Bool)
  | dispatch (me : Nat) (high : Bool)
  | waitReap (me i : Nat)
  | block (me i : Nat)
  | release (me i : Nat)
  | claimParked (h : Holder) (me i : Nat)
  | letGo (h : Holder) (me i : Nat)
  | kill (me i : Nat)
  | killClose (me i : Nat)
  | killDetach (me i : Nat)
  | killEnd (me i : Nat)
  | breakTest (me i : Nat)
  | breakMark (me i : Nat)
  | breakDetach (me i : Nat)
  | reap (me i : Nat)
  | reapClose (me i : Nat)
  | reapEnd (me i : Nat)
  | answer (me : Nat) (what : Call) (i : Nat)
  | freeze (i : Nat)
  | thaw (i : Nat)
  | askStop (i : Nat)
  | swap

def Act.gcIdleClaim : Nat → Nat → Act := .claimParked .collector

def Act.gcIdleRelease : Nat → Nat → Act := .letGo .collector

def Act.heapsClaim : Nat → Nat → Act := .claimParked .heaps

/-- The end of a turn of `proc_heaps_release`. -/
def Act.heapsRelease : Nat → Nat → Act := .letGo .heaps

/-- What a step does with the record of `i`, where its test holds. -/
def onRec (s : Machine) (i : Nat) (test : Rec → Bool) (f : Rec → Machine) : Option Machine :=
  match s.procs[i]? with
  | none => none
  | some r => if test r then some (f r) else none

/-- The next region of the routine `t`, where the locks it needs can be had. -/
def goOn (s : Machine) (t : Task) (lock : Bool) (f : Machine → Rec → Machine) (new : List Task) :
    Option Machine :=
  onRec s t.slot (fun _ => decide (t ∈ s.tasks) && lock) fun r => f (s.turn t new) r

def Call.start (me i : Nat) : Call → Machine → Rec → Machine
  | .kill => fun s r => s.procKill me i r
  | .break => fun s r => s.procBreakTest me i r
  | .reap => fun s r => s.procReap me i r

/-- One step, where it is possible. A dispatch that finds its proc in another cpu's hands aborts. -/
def Act.run (s : Machine) : Act → Option Machine
  | .procNew maxProcs ok => if s.wide ∧ s.freeSlot < maxProcs then some (s.procNew ok) else none
  | .launch i pri => goOn s (.launch i) s.wide (fun s r => s.makeReady i r pri) []
  | .spawnFailed me i => goOn s (.launch i) true (fun s r => s.procKill me i r) []
  | .wakeTest i =>
    onRec s i (fun r => s.settled && r.status == .blocked && !r.woken) fun r =>
      (s.put i { r with woken := true }).begin [.wake i]
  | .wakeReady i pri => goOn s (.wake i) true (fun s r => s.makeReady i r pri) []
  | .setAside high =>
    match s.rqFirst high with
    | none => none
    | some i => onRec s i (fun r => r.frozen != 0) fun _ => (s.rqDel i).rqAdd (!s.runq) i
  | .dispatch me high =>
    match s.rqFirst high with
    | none => none
    | some i =>
      onRec s i (fun r => s.idle me && r.frozen == 0 && r.oncpu == 0) fun r =>
        (s.rqDel i).put i { r with onq := none, oncpu := me + 1, holder := .dispatch }
  | .waitReap me i =>
    onRec s i (fun r => r.oncpu == me + 1 && r.holder == .dispatch) fun r =>
      s.put i { r with woken := false }
  | .block me i =>
    -- a running proc is no corpse, and a finalizer cannot park
    onRec s i (fun r => s.settled && r.oncpu == me + 1 && r.holder == .dispatch && !r.gone) fun r =>
      s.procBlock i r
  | .release me i =>
    onRec s i (fun r => s.idle me && r.oncpu == me + 1 && r.holder == .dispatch) fun r =>
      s.releaseClaim me i r
  | .claimParked h me i =>
    onRec s i
      (fun r => s.wide && s.idle me && h != .dispatch && r.status == .blocked && r.oncpu == 0 &&
        r.frozen == 0 && r.onq.isNone)
      fun r => s.put i { r with oncpu := me + 1, holder := h }
  | .letGo h me i =>
    onRec s i (fun r => s.idle me && h != .dispatch && r.oncpu == me + 1 && r.holder == h) fun r =>
      s.letGo i { r with oncpu := 0 }
  | .kill me i => onRec s i (fun _ => true) fun r => s.procKill me i r
  | .killClose me i => goOn s (.kill me i .marked) true (·.procFreestate i) [.kill me i .closed]
  | .killDetach me i => goOn s (.kill me i .closed) s.wide (·.procDetach i) [.kill me i .detached]
  | .killEnd me i =>
    goOn s (.kill me i .detached) true (fun s r => s.put i { r with status := .dead }) []
  | .breakTest me i => onRec s i (fun _ => true) fun r => s.procBreakTest me i r
  | .breakMark me i => goOn s (.breaking me i) true (·.procBreak me i) []
  | .breakDetach me i => goOn s (.broke me i) s.wide (·.procDetach i) []
  | .reap me i => onRec s i (fun _ => s.wide) fun r => s.procReap me i r
  | .reapClose me i => goOn s (.reap me i false) true (·.procFreestate i) [.reap me i true]
  | .reapEnd me i =>
    goOn s (.reap me i true) s.wide
      (fun s r => s.put i { r with status := .dead, reaping := false }) []
  | .answer me what i => goOn s (.call me what i) (what != .reap || s.wide) (what.start me i) []
  | .freeze i => onRec s i (fun _ => true) fun r => s.put i { r with frozen := r.frozen + 1 }
  | .thaw i => onRec s i (fun _ => true) fun r => s.put i { r with frozen := r.frozen - 1 }
  | .askStop i => onRec s i (fun _ => true) fun r => s.put i { r with stopreq := true }
  | .swap =>
    if (s.set s.runq).n = 0 ∧ 0 < (s.set (!s.runq)).n then some { s with runq := !s.runq } else none

/-- The machines that steps which all meet `ok`, each in the machine in front of it, lead to. -/
inductive Run (ok : Machine → Act → Prop) : Machine → Prop where
  | boot : Run ok .boot
  | step {s s' : Machine} {a : Act} (hr : Run ok s) (ho : ok s a)
      (ha : a.run s = some s') : Run ok s'

section Runs

variable {ok : Machine → Act → Prop} {chk : Machine → Act → Bool}

variable {s : Machine} {l : List Act}

theorem Run.invariant {I : Machine → Prop} (h0 : I .boot)
    (hI : ∀ {s s' a}, Run ok s → I s → ok s a → a.run s = some s' → I s') (h : Run ok s) : I s := by
  induction h with
  | boot => exact h0
  | step hr ho ha ih => exact hI hr ih ho ha

/-- A run of these steps, in this order, each checked in the machine in front of it. -/
def runActs (chk : Machine → Act → Bool) (s : Machine) : List Act → Option Machine
  | [] => some s
  | a :: l => if chk s a then (a.run s).bind fun s => runActs chk s l else none

theorem Run.acts {s' : Machine} (hchk : ∀ s a, chk s a = true → ok s a) (h : Run ok s)
    (hl : runActs chk s l = some s') : Run ok s' := by
  induction l generalizing s with
  | nil =>
    cases hl
    exact h
  | cons a l ih =>
    obtain ⟨hc, hl⟩ := Option.ite_none_right_eq_some.mp hl
    obtain ⟨s1, h1, h2⟩ := Option.bind_eq_some_iff.mp hl
    exact ih (.step h (hchk s a hc) h1) h2

theorem Run.of_acts {P : Machine → Bool} (hchk : ∀ s a, chk s a = true → ok s a)
    (h : (runActs chk .boot l).any P = true) :
    ∃ s, runActs chk .boot l = some s ∧ Run ok s ∧ P s = true := by
  obtain ⟨s, hs, hp⟩ := (Option.any_eq_true _ _).mp h
  exact ⟨s, hs, Run.acts hchk .boot hs, hp⟩

end Runs

def anyAct (_ : Machine) (_ : Act) : Bool := true

theorem anyAct_true (s : Machine) (a : Act) (_ : anyAct s a = true) : True := trivial

end Nlos.Smp
