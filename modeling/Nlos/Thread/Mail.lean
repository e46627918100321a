import Nlos.Lib.Runs

/-!
# Mail

The port half of `src/thread.c`: how a message that the kernel queued gets to a thread. The
scheduler of a proc sleeps in `sys.alt` on the ports its threads wait for. Where every one of them
is in `recv`, it takes the message there and hands it over; where one of them is not, it only asks
which port is ready and lets the threads look for themselves.

Channels are outside here: they ready threads, answer a case of an `alt` and park a thread that
waits on no port. So is the rest of the kernel: messages arrive, another holder of a receive right
takes one, handles come and go, all at any time. Whether a message can be received (`msg_to_lua` may
find the rights table full, no room for a buffer, or a text it cannot read) is given with the step
that takes it.
-/

namespace Nlos.Mail

variable {α : Type}

/-! ## States -/

/-- A message, with the port that held it and the number it was queued under. -/
structure Msg (α : Type) where
  port : Nat
  seq : Nat
  body : α
deriving DecidableEq, Repr

inductive Case where
  | port (h : Nat)
  | chan
deriving DecidableEq, Repr

def Case.port? : Case → Option Nat
  | .port h => some h
  | .chan => none

inductive Call where
  /-- It runs its own code. -/
  | free
  | recv (h : Nat)
  /-- `await`, with whether it has found the port hung up and looks once more. -/
  | await (h : Nat) (again : Bool)
  /-- `alt`, with the cases that this round has still to try. -/
  | alt (cases left : List Case)
  /-- `park`, `_park` and the park of a channel: it waits once and takes nothing. -/
  | bare (port : Option Nat) (ports : Option (List Nat))
  | parksend (h need : Nat)
deriving DecidableEq, Repr

def Call.back : Call → Call
  | .recv h => .recv h
  | .await h _ => .await h false
  | .alt cases _ => .alt cases cases
  | .free | .bare _ _ | .parksend _ _ => .free

/-- What a thread may call. `recvtimeout` is an `alt` of the port and of a timer's port. -/
inductive Form where
  | recv (h : Nat)
  | await (h : Nat)
  | alt (cases : List Case)
  | recvtimeout (h timer : Nat)
  | bare (port : Option Nat) (ports : Option (List Nat))
  | parksend (h need : Nat)
deriving DecidableEq, Repr

def Form.call : Form → Call
  | .recv h => .recv h
  | .await h => .await h false
  | .alt cases => .alt cases cases
  | .recvtimeout h timer => .alt [.port h, .port timer] [.port h, .port timer]
  | .bare port ports => .bare port ports
  | .parksend h need => .parksend h need

/-- A park record. `send` is the room wanted. -/
structure Rec (α : Type) where
  port : Option Nat
  ports : Option (List Nat)
  recv : Bool
  mail : Option (Msg α)
  send : Option Nat
deriving DecidableEq, Repr

namespace Rec

def new : Rec α := { port := none, ports := none, recv := false, mail := none, send := none }

/-- The ports `gatherports` takes from the record of a parked thread. -/
def gathered (r : Rec α) : List Nat :=
  if r.send.isSome then r.port.toList
  else match r.ports with
    | some l => l
    | none => r.port.toList

/-- Is the record on port `h`, as `readyon` asks? -/
def on (r : Rec α) (h : Nat) : Bool := r.port = some h || h ∈ r.ports.getD []

/-- Is the record on any port, as `readyall` asks? -/
def onAny (r : Rec α) : Bool := r.port.isSome || r.ports.isSome

end Rec

/-- A thread, with its record and its marks in the scheduler's tables. -/
structure Thread (α : Type) where
  call : Call
  parkrec : Rec α
  parked : Bool
  woken : Bool
  wake : Bool
  nonrecv : Bool
  dead : Bool
deriving DecidableEq, Repr

namespace Thread

def new : Thread α :=
  { call := .free, parkrec := .new, parked := false, woken := false, wake := true, nonrecv := false, dead := false }

def ready (th : Thread α) : Thread α :=
  { th with nonrecv := false, parked := false, woken := if th.parked then th.woken else true, wake := true }

def accepts (th : Thread α) (h : Nat) : Bool :=
  th.parked && th.parkrec.recv && decide (th.parkrec.port = some h)

def give (th : Thread α) (m : Msg α) : Thread α :=
  { th with parkrec := { th.parkrec with mail := some m } }.ready

def collect (th : Thread α) : Thread α := { th with parkrec := { th.parkrec with mail := none } }

def mark (th : Thread α) (port : Option Nat) (ports : Option (List Nat)) (recv : Bool)
    (send : Option Nat) : Thread α :=
  { th with
    parkrec := { th.parkrec with port := port, ports := ports, recv := recv, send := send }
    nonrecv := if !recv && (port.isSome || ports.isSome) then true else th.nonrecv }

/-- The park itself. A wake that came first is used up, and the call goes on. -/
def settle (th : Thread α) : Thread α :=
  if th.woken then { th with woken := false, nonrecv := false, call := th.call.back }
  else { th with parked := true }

/-- What a thread does first when it is resumed. `parksend_k` also clears the send wait. -/
def resumed (th : Thread α) : Thread α :=
  match th.call with
  | .free => th
  | .parksend _ _ =>
    { th with parked := false, call := .free, parkrec := { th.parkrec with send := none, port := none } }
  | c => { th with parked := false, call := c.back }

end Thread

inductive PortQ where
  | nil
  | one (t : Nat)
  | many (l : List Nat)
deriving DecidableEq, Repr

namespace PortQ

def threads : PortQ → List Nat
  | .nil => []
  | .one t => [t]
  | .many l => l

def join (t : Nat) : PortQ → PortQ
  | .nil => .one t
  | .one t' => if t' = t then .one t' else .many [t', t]
  | .many l => if t ∈ l then .many l else .many (l ++ [t])

end PortQ

/-- Who has the cpu of the proc: its main program, the loop of `thread.run`, or a thread. -/
inductive Turn where
  | main
  | sched
  | thread (t : Nat)
deriving DecidableEq, Repr

/-- A receive call that came back with a message. -/
structure Answer (α : Type) where
  thread : Nat
  msg : Msg α
deriving DecidableEq, Repr

/-- The scheduler of a proc, and of the kernel the receive right behind each handle, and the queues.
The last three fields are not in the source: what was ever queued; what was taken, each message with
whether it could be received; the receive calls that came back with one. -/
structure Sched (α : Type) where
  threads : List (Thread α)
  ring : List Nat
  turn : Turn
  portq : Nat → PortQ
  pending : Nat → List (Msg α)
  rights : Nat → Option Nat
  queue : Nat → List (Msg α)
  arrived : List (Msg α)
  taken : List (Msg α × Bool)
  answers : List (Answer α)

namespace Sched

/-- A proc whose main program has the cpu, with no thread and no right. -/
def boot : Sched α where
  threads := []
  ring := []
  turn := .main
  portq := fun _ => .nil
  pending := fun _ => []
  rights := fun _ => none
  queue := fun _ => []
  arrived := []
  taken := []
  answers := []

def modTh (s : Sched α) (t : Nat) (f : Thread α → Thread α) : Sched α :=
  { s with threads := s.threads.modify t f }

def setPortq (s : Sched α) (h : Nat) (q : PortQ) : Sched α :=
  { s with portq := Function.update s.portq h q }

/-! ## The loop -/

/-- Ready the parked threads whose record is of some kind. -/
def readyIf (s : Sched α) (p : Rec α → Bool) : Sched α :=
  { s with threads := s.threads.map fun th => if th.parked && p th.parkrec then th.ready else th }

def readyon (s : Sched α) (h : Nat) : Sched α := s.readyIf (·.on h)

def readyall (s : Sched α) : Sched α := s.readyIf Rec.onAny

def gatherports (s : Sched α) : List Nat :=
  (s.threads.filter (·.parked)).flatMap (·.parkrec.gathered)

def staged (s : Sched α) : List Nat :=
  (List.range s.threads.length).filter fun t => (s.threads[t]?).any (·.wake)

def drainWake (s : Sched α) (order : List Nat) : Sched α :=
  { s with threads := s.threads.map (fun th => { th with wake := false }), ring := s.ring ++ order }

def pollReady (s : Sched α) (polled : List Nat) : Sched α := polled.foldl readyon s

/-- The next thread of the ring is resumed. A dead one is dropped. -/
def pop (s : Sched α) : Sched α :=
  match s.ring with
  | [] => s
  | t :: ring =>
    if (s.threads[t]?).all (·.dead) then { s with ring := ring }
    else { s with ring := ring, turn := .thread t }.modTh t Thread.resumed

/-! ## Hand over -/

/-- `handover`, where the thread is in `recv` on the port. -/
def handover (s : Sched α) (t h : Nat) (m : Msg α) : Option (Sched α) :=
  if (s.threads[t]?).any (·.accepts h) then some (s.modTh t (·.give m)) else none

/-- The list half of `deliver`: what is left of the list, and the hand over where one was made. -/
def deliverList (s : Sched α) (h : Nat) (m : Msg α) : List Nat → List Nat × Option (Sched α)
  | [] => ([], none)
  | t :: l =>
    match s.handover t h m with
    | some s' => (l, some s')
    | none => s.deliverList h m l

/-- `deliver`, with whether somebody took the message. Entries that are stale are dropped on the
way. -/
def deliver (s : Sched α) (h : Nat) (m : Msg α) : Bool × Sched α :=
  match s.portq h with
  | .nil => (false, s)
  | .one t =>
    match s.handover t h m with
    | some s' => (true, s'.setPortq h .nil)
    | none => (false, s.setPortq h .nil)
  | .many l =>
    match s.deliverList h m l with
    | (l', some s') => (true, s'.setPortq h (.many l'))
    | (l', none) => (false, s.setPortq h (.many l'))

def holdPending (s : Sched α) (h : Nat) (m : Msg α) : Sched α :=
  { s with pending := Function.update s.pending h (s.pending h ++ [m]) }

def runK (s : Sched α) (h : Nat) (m : Msg α) : Sched α :=
  match s.deliver h m with
  | (true, s') => s'
  | (false, s') => (s'.holdPending h m).readyall

/-! ## The kernel's queues -/

inductive Try (α : Type) where
  | badRight
  | empty
  | raised
  | got (m : Msg α)

/-- The head of a port's queue is taken. -/
def takeOff (s : Sched α) (p : Nat) (m : Msg α) (rest : List (Msg α)) (fits : Bool) : Sched α :=
  { s with queue := Function.update s.queue p rest, taken := s.taken ++ [(m, fits)] }

/-- `sys.tryrecv`. A message that cannot be received is disposed of, and the call raises. -/
def tryrecv (s : Sched α) (h : Nat) (fits : Bool) : Try α × Sched α :=
  match s.rights h with
  | none => (.badRight, s)
  | some p =>
    match s.queue p with
    | [] => (.empty, s)
    | m :: rest => (if fits then .got m else .raised, s.takeOff p m rest fits)

/-- The take of `sys.alt`, on a handle of its set that has a message. Where the message cannot be
received, the error goes up through `thread.run`. -/
def altTake (s : Sched α) (h : Nat) (fits : Bool) : Sched α :=
  match s.tryrecv h fits with
  | (.got m, s') => s'.runK h m
  | (.raised, s') => { s' with turn := .main }
  | (_, s') => s'

/-! ## Calls -/

/-- What the running thread asks of its surroundings: can the next message be received, is the port
hung up, does the channel answer? -/
structure Env where
  fits : Bool
  hungup : Bool
  chan : Bool
deriving DecidableEq, Repr

/-- The running thread goes on, in this call. -/
def goOn (s : Sched α) (t : Nat) (c : Call) : Sched α := s.modTh t fun th => { th with call := c }

/-- The call the running thread is in ends with a message. -/
def answer (s : Sched α) (t : Nat) (m : Msg α) : Sched α :=
  { s.goOn t .free with answers := s.answers ++ [⟨t, m⟩] }

/-- The thread settles behind its record, and gives the cpu up where it parks. -/
def park (s : Sched α) (t : Nat) (woken : Bool) (port : Option Nat)
    (ports : Option (List Nat)) (recv : Bool) (send : Option Nat) : Sched α :=
  { s.modTh t fun th => (th.mark port ports recv send).settle with turn := if woken then .thread t else .sched }

def parkonBegin (s : Sched α) (t : Nat) (woken : Bool) (port : Option Nat)
    (ports : Option (List Nat)) (recv : Bool) : Sched α :=
  match recv, port with
  | true, some h => (s.setPortq h ((s.portq h).join t)).park t woken port ports recv none
  | _, _ => s.park t woken port ports recv none

/-- A round of `recv_body`: the mailbox, what is held for the port, and the port itself. -/
def recvBody (s : Sched α) (t : Nat) (th : Thread α) (h : Nat) (e : Env) : Sched α :=
  match th.parkrec.mail, s.pending h with
  | some m, _ => (s.modTh t Thread.collect).answer t m
  | none, m :: rest => { s with pending := Function.update s.pending h rest }.answer t m
  | none, [] =>
    match s.tryrecv h e.fits with
    | (.got m, s') => s'.answer t m
    | (.empty, s') => s'.parkonBegin t th.woken (some h) none true
    | (_, s') => s'.goOn t .free

/-- A round of `await_body`, up to the first of its looks at the port or behind a hangup, the
second. -/
def awaitBody (s : Sched α) (t : Nat) (th : Thread α) (h : Nat) (again : Bool)
    (e : Env) : Sched α :=
  match s.tryrecv h e.fits with
  | (.got m, s') => s'.answer t m
  | (.empty, s') =>
    if again then s'.goOn t .free
    else if e.hungup then s'.goOn t (.await h true)
    else s'.parkonBegin t th.woken (some h) none false
  | (_, s') => s'.goOn t .free

def altBody (s : Sched α) (t : Nat) (th : Thread α) (cases : List Case) (e : Env) :
    List Case → Sched α
  | [] => s.parkonBegin t th.woken none (some (cases.filterMap Case.port?)) false
  | .chan :: left => s.goOn t (if e.chan then .free else .alt cases left)
  | .port h :: left =>
    match s.tryrecv h e.fits with
    | (.got m, s') => s'.answer t m
    | (.empty, s') => s'.goOn t (.alt cases left)
    | (_, s') => s'.goOn t .free

def parksend (s : Sched α) (t : Nat) (th : Thread α) (h need : Nat) : Sched α :=
  s.park t th.woken (some h) none false (some (max need 1))

/-- The next thing that the running thread does in its call. -/
def pass (s : Sched α) (t : Nat) (th : Thread α) (e : Env) : Sched α :=
  match th.call with
  | .free => s
  | .recv h => s.recvBody t th h e
  | .await h again => s.awaitBody t th h again e
  | .alt cases left => s.altBody t th cases e left
  | .bare port ports => s.parkonBegin t th.woken port ports false
  | .parksend h need => s.parksend t th h need

end Sched

/-! ## Steps -/

inductive Op (α : Type) where
  /-- The kernel queues a message. -/
  | arrive (p : Nat) (body : α)
  /-- Another holder of the right, or the main program, takes one. -/
  | steal (p : Nat)
  /-- A handle is closed, or names another port. -/
  | right (h : Nat) (p : Option Nat)
  /-- The main program calls `thread.run`. -/
  | run
  /-- `thread.run` ends, or raises. -/
  | leave
  /-- The loop goes round: wakes are drained, the ports polled and the next thread resumed. -/
  | resume (order polled : List Nat)
  /-- `sys.alt` comes back with a message. -/
  | take (h : Nat) (fits : Bool)
  /-- `sys.alt` comes back with no message: a case is ready or hung up, or nothing is. -/
  | ready (h : Option Nat)
  /-- The count hook cuts the running thread: the loop goes round, and back to it. -/
  | cut (order polled : List Nat)
  | spawn
  /-- The running thread readies a thread, by a channel or by `_ready`. -/
  | nudge (t : Nat)
  | yield
  | exit
  | call (f : Form)
  | pass (e : Sched.Env)
deriving DecidableEq, Repr

namespace Sched

/-- The running thread, where it runs its own code. -/
def running (s : Sched α) : Option Nat :=
  match s.turn with
  | .thread t => if (s.threads[t]?).any (·.call = .free) then some t else none
  | _ => none

def Asleep (s : Sched α) : Prop := s.turn = .sched ∧ s.ring = [] ∧ s.staged = []

instance (s : Sched α) : Decidable s.Asleep := inferInstanceAs (Decidable (_ ∧ _ ∧ _))

/-- Every waiter is a plain `recv`, as the loop reads it off `nonrecv`. -/
def plain (s : Sched α) : Bool := s.threads.all fun th => !th.nonrecv

def Legal (s : Sched α) : Op α → Prop
  | .arrive _ _ | .steal _ | .right _ _ => True
  | .run => s.turn = .main
  | .leave => s.turn = .sched ∧ (s.threads.all (·.dead) = true ∨ s.Asleep)
  | .resume order _ => s.turn = .sched ∧ order.Perm s.staged ∧ s.ring ++ order ≠ []
  | .take h _ => s.Asleep ∧ s.plain = true ∧ h ∈ s.gatherports
  | .ready h => s.Asleep ∧ ∀ x ∈ h, x ∈ s.gatherports
  | .cut order _ => s.running.isSome ∧ order.Perm s.staged
  | .spawn | .nudge _ => s.turn = .main ∨ s.running.isSome
  | .yield | .exit | .call _ => s.running.isSome
  | .pass _ => ∃ t, s.turn = .thread t ∧ s.running = none

instance (s : Sched α) (a : Op α) : Decidable (s.Legal a) :=
  match a with
  | .arrive _ _ | .steal _ | .right _ _ => isTrue trivial
  | .run => inferInstanceAs (Decidable (_ = _))
  | .leave => inferInstanceAs (Decidable (_ ∧ (_ ∨ Asleep s)))
  | .resume _ _ => inferInstanceAs (Decidable (_ ∧ _ ∧ _))
  | .take _ _ => inferInstanceAs (Decidable (_ ∧ _ ∧ _))
  | .ready none => decidable_of_iff s.Asleep ⟨fun h => ⟨h, nofun⟩, And.left⟩
  | .ready (some x) =>
    decidable_of_iff (s.Asleep ∧ x ∈ s.gatherports)
      ⟨fun h => ⟨h.1, fun _ hy => by cases hy; exact h.2⟩, fun h => ⟨h.1, h.2 x rfl⟩⟩
  | .cut _ _ => inferInstanceAs (Decidable (_ ∧ _))
  | .spawn | .nudge _ => inferInstanceAs (Decidable (_ ∨ _))
  | .yield | .exit | .call _ => inferInstanceAs (Decidable (_ = true))
  | .pass _ =>
    match h : s.turn with
    | .thread t => decidable_of_iff (s.running = none) ⟨fun hn => ⟨t, h, hn⟩, fun ⟨_, _, hn⟩ => hn⟩
    | .main | .sched => isFalse fun ⟨_, ht, _⟩ => by rw [h] at ht; cases ht

def onRunning (s : Sched α) (f : Nat → Sched α) : Sched α :=
  match s.running with
  | none => s
  | some t => f t

def step (s : Sched α) : Op α → Sched α
  | .arrive p body =>
    { s with
      queue := Function.update s.queue p (s.queue p ++ [⟨p, s.arrived.length, body⟩])
      arrived := s.arrived ++ [⟨p, s.arrived.length, body⟩] }
  | .steal p => { s with queue := Function.update s.queue p (s.queue p).tail }
  | .right h p => { s with rights := Function.update s.rights h p }
  | .run => { s with turn := .sched }
  | .leave => { s with turn := .main }
  | .resume order polled => ((s.drainWake order).pollReady polled).pop
  | .take h fits => s.altTake h fits
  | .ready (some h) => s.readyon h
  | .ready none => if s.plain then s else s.readyall
  | .cut order polled => (s.drainWake order).pollReady polled
  | .spawn => { s with threads := s.threads ++ [.new] }
  | .nudge t => s.modTh t Thread.ready
  | .yield => s.onRunning fun t => { s with ring := s.ring ++ [t], turn := .sched }
  | .exit => s.onRunning fun t => { s.modTh t fun th => { th with parked := false, dead := true } with turn := .sched }
  | .call f => s.onRunning fun t => s.goOn t f.call
  | .pass e =>
    match s.turn with
    | .thread t =>
      match s.threads[t]? with
      | none => s
      | some th => s.pass t th e
    | _ => s

def Run (s : Sched α) : Prop := Runs (· = boot) Legal step s

end Sched

end Nlos.Mail
