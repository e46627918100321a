import Nlos.Kernel.State

/-!
# Waiting and waking

The waiter half of `src/port.c` and the two transitions of `src/sched.c` it uses: a proc links a
wait record on each port it sleeps on, a waker claims the proc and unlinks the one record it woke
on, and the proc collects the others before it runs again.

A record is on two lists, its port's (`Sched.waitq`) and its proc's (`SProc.waiters`). `onport`
says whether it is still on the first. `wid` is the identity of one use of a record; the record
inside the proc is used again and again, each time under a new one.
-/

namespace Nlos

namespace Sched

def setProc (s : Sched) (i : Nat) (p : SProc) : Sched := { s with procs := s.procs.set i p }

/-- `TAILQ_REMOVE(&port->waiters, w, pq)`. -/
def unlink (s : Sched) (port : PortRef) (wid : Nat) : Sched :=
  { s with waitq := fun q => if q = port then (s.waitq q).filter (·.wid != wid) else s.waitq q }

/-- `make_ready`. A held proc and a corpse are left alone, a blocked proc a debugger asked to stop
wakes into the stop, and a proc in a cpu's hands is only marked: that cpu queues it. -/
def makeReady (s : Sched) (i : Nat) : Sched :=
  match s.procs[i]? with
  | none => s
  | some p =>
    if p.status = .stopped ∨ p.status = .broke then s
    else if p.status = .blocked ∧ p.stopreq = true then
      s.setProc i { p with status := .stopped, stopreq := false }
    else if p.oncpu ≠ 0 then s.setProc i { p with status := .ready }
    else s.setProc i { p with status := .ready, onq := true }

def procBlock (s : Sched) (i : Nat) : Sched :=
  match s.procs[i]? with
  | none => s
  | some p => s.setProc i { p with status := .blocked, onq := false }

/-- The claim, the unlinking and the clearing of `onport` that a waker does before `make_ready`. -/
def claim (s : Sched) (port : PortRef) (w : WLink) (p : SProc) : Sched :=
  (s.setProc w.proc { p with
    woken := true
    waiters := p.waiters.map fun v => if v.wid = w.wid then { v with onport := false } else v }
  ).unlink port w.wid

/-- One turn of a waker's loop: a record of the other kind, a proc that is not asleep and a proc
already claimed are passed over. -/
def wakeOne (send : Bool) (port : PortRef) (s : Sched) (w : WLink) : Sched :=
  match s.procs[w.proc]? with
  | none => s
  | some p =>
    if w.send ≠ send ∨ p.status ≠ .blocked then s
    else if p.woken then s
    else (s.claim port w p).makeReady w.proc

/-- `wake_receivers` (`send = false`) and `wake_senders` (`send = true`). -/
def wakeWaiters (send : Bool) (s : Sched) (port : PortRef) : Sched :=
  (s.waitq port).foldl (wakeOne send port) s

/-- `wait_add`. The record inside the proc is used first; a further one is allocated, and
`mallocOk` says whether that works. -/
def waitAdd (mallocOk : Bool) (s : Sched) (i : Nat) (port : PortRef) (send : Bool) : Option Sched :=
  match s.procs[i]? with
  | none => none
  | some p =>
    if p.w0used && !mallocOk then none
    else
      let w : Waiter := { wid := s.nextWid, port := port, send := send, onport := true,
                          inl := !p.w0used }
      some { s with
        procs := s.procs.set i { p with waiters := w :: p.waiters, w0used := true }
        waitq := fun q =>
          if q = port then s.waitq q ++ [{ wid := s.nextWid, proc := i, send := send }]
          else s.waitq q
        nextWid := s.nextWid + 1 }

/-- One turn of the loop of `wait_clear` and of `wait_reap`: the first record leaves the proc's list
and its port's, and is given back. -/
def dropWaiter (s : Sched) (i : Nat) : Sched :=
  match s.procs[i]? with
  | none => s
  | some p =>
    match p.waiters with
    | [] => s
    | w :: ws =>
      let s := s.setProc i
        { p with waiters := ws, w0used := if w.inl then false else p.w0used }
      let s := if w.onport then s.unlink w.port w.wid else s
      { s with wfreed := w.wid :: s.wfreed }

def waitersOf (s : Sched) (i : Nat) : List Waiter :=
  match s.procs[i]? with
  | none => []
  | some p => p.waiters

def waitClear (s : Sched) (i : Nat) : Sched :=
  (s.waitersOf i).foldl (fun s _ => s.dropWaiter i) s

/-- The end of `wait_reap`: the proc may be claimed again. -/
def clearWoken (s : Sched) (i : Nat) : Sched :=
  match s.procs[i]? with
  | none => s
  | some p => s.setProc i { p with woken := false }

def waitReap (s : Sched) (i : Nat) : Sched := (s.waitClear i).clearWoken i

/-- `dispatch_phase` takes a proc off the run queue, and `gc_idle_sweep` a parked one: cpu `me` has
it in hand. -/
def claimCpu (s : Sched) (i me : Nat) : Sched :=
  match s.procs[i]? with
  | none => s
  | some p => s.setProc i { p with onq := false, oncpu := me + 1 }

/-- `release_claim`: a proc that was made ready while it was in hand is queued now. -/
def releaseClaim (s : Sched) (i : Nat) : Sched :=
  match s.procs[i]? with
  | none => s
  | some p => s.setProc i { p with oncpu := 0, onq := p.onq || p.status == .ready }

/-- A debugger parks a blocked proc where it is, and a running one at its next yield. -/
def stop (s : Sched) (i : Nat) : Sched :=
  match s.procs[i]? with
  | none => s
  | some p =>
    if p.status = .blocked ∨ p.status = .ready then
      s.setProc i { p with status := .stopped, stopreq := false, onq := false }
    else s

/-- A debugger asks for a stop at the next wake, or takes the request back. -/
def askStop (s : Sched) (i : Nat) (b : Bool) : Sched :=
  match s.procs[i]? with
  | none => s
  | some p => s.setProc i { p with stopreq := b }

/-- `dbg_resume`: a stopped proc is made ready. -/
def resume (s : Sched) (i : Nat) : Sched :=
  match s.procs[i]? with
  | none => s
  | some p =>
    if p.status = .stopped then (s.setProc i { p with status := .ready }).makeReady i else s

/-- The status of proc slot `i`; a slot never used reads as `DEAD`. -/
def statusOf (s : Sched) (i : Nat) : Status :=
  match s.procs[i]? with
  | none => .dead
  | some p => p.status

def setStatus (s : Sched) (i : Nat) (st : Status) : Sched :=
  match s.procs[i]? with
  | none => s
  | some p => s.setProc i { p with status := st }

end Sched

end Nlos
