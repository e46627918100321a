import Nlos.Thread.Channel

/-!
# Threads

The cooperative runtime of `src/thread.c`, as far as channels go. One thread runs at a time. It runs
until it parks, gives way or ends, and then `run_loop` takes the next one off the ring. A call that
may park is a loop, and a pass of the loop is one step: it looks, joins the queues and parks, with
nothing in between.

A wake clears the park mark of a thread, or leaves a token where the thread is not parked, and
stages it for the ring; the token makes the next park return at once. Ports are outside: which of
them have a message is given to the pass that asks, and a port may ready any thread.
-/

namespace Nlos.Thread

variable {α : Type}

/-! ## States -/

inductive Case (α : Type) where
  | port (h : Nat)
  | send (c : Nat) (v : Option α)
  | recv (c : Nat)
deriving DecidableEq, Repr

/-- The call a thread is in, with what the call keeps across its park. -/
inductive Wait (α : Type) where
  /-- It runs its own code. -/
  | free
  /-- `chan:send`, with its record in `sendq`. -/
  | sending (c : Nat) (v : Option α) (rid : Nat)
  /-- `chan:recv`, with its waiter where it has one. -/
  | receiving (c : Nat) (w : Option Waiter)
  /-- `alt`, with the queues it joined. -/
  | alting (cases : List (Case α)) (marks : List (Nat × Waiter))
deriving DecidableEq, Repr

/-- A thread. `wake` is its place in the table of staged wakes. -/
structure Th (α : Type) where
  wait : Wait α
  parked : Bool
  woken : Bool
  wake : Bool
  dead : Bool
deriving DecidableEq, Repr

/-- A send that has come back, by the record it had. -/
structure Sent (α : Type) where
  chan : Nat
  rid : Nat
  v : Option α
deriving DecidableEq, Repr

/-- The runtime. `succeeded` and `failed` are not in the source: the sends that came back, and those
that raised. -/
structure Machine (α : Type) where
  chans : List (Chan α)
  threads : List (Th α)
  ring : List Nat
  cur : Option Nat
  next : Nat
  succeeded : List (Sent α)
  failed : List (Sent α)
deriving DecidableEq, Repr

def Th.ready (th : Th α) : Th α :=
  { th with parked := false, woken := if th.parked then th.woken else true, wake := true }

namespace Machine

def boot : Machine α :=
  { chans := [], threads := [], ring := [], cur := none, next := 0, succeeded := [], failed := [] }

def modTh (s : Machine α) (t : Nat) (f : Th α → Th α) : Machine α :=
  { s with threads := s.threads.modify t f }

def modChan (s : Machine α) (c : Nat) (f : Chan α → Chan α) : Machine α :=
  { s with chans := s.chans.modify c f }

def readyAll (s : Machine α) (l : List Nat) : Machine α := l.foldl (fun s t => s.modTh t Th.ready) s

/-- A channel operation has left `ch` and readies these threads. -/
def putChan (s : Machine α) (c : Nat) (ch : Chan α) (l : List Nat) : Machine α :=
  (s.modChan c fun _ => ch).readyAll l

def succeed (s : Machine α) (x : Sent α) : Machine α := { s with succeeded := s.succeeded ++ [x] }

def fail (s : Machine α) (x : Sent α) : Machine α := { s with failed := s.failed ++ [x] }

def made (s : Machine α) : Machine α := { s with next := s.next + 1 }

/-- The running thread goes on, in this call. -/
def goOn (s : Machine α) (t : Nat) (w : Wait α) : Machine α :=
  s.modTh t fun th => { th with wait := w }

def park (s : Machine α) (t : Nat) (w : Wait α) : Machine α :=
  { s.modTh t fun th => { th with wait := w, parked := true } with cur := none }

/-- The token that a wake left is used up. -/
def unwake (s : Machine α) (t : Nat) : Machine α := s.modTh t fun th => { th with woken := false }

/-! ## Calls -/

/-- `nbsend` on channel `c`, with its answer. No answer is the error it raises. -/
def nbsend (s : Machine α) (c : Nat) (ch : Chan α) (v : Option α) : Option Bool × Machine α :=
  match ch.nbsend s.next v with
  | none => (none, s.made.fail ⟨c, s.next, v⟩)
  | some (true, ch', l) => (some true, (s.made.putChan c ch' l).succeed ⟨c, s.next, v⟩)
  | some (false, _, _) => (some false, s)

def nbrecv (s : Machine α) (c : Nat) (ch : Chan α) : Got α × Machine α :=
  match ch.nbrecv with
  | (g, ch', l) => (g, s.putChan c ch' l)

/-- What comes of a case, or of a list of them. -/
inductive Poll (α : Type) where
  | nothing
  | raised (s : Machine α)
  | taken (s : Machine α)

/-- One case of `alt_poll`, where `ports` are the ports that have a message. A case that names no
channel raises. -/
def pollCase (s : Machine α) (ports : List Nat) : Case α → Poll α
  | .port h => if h ∈ ports then .taken s else .nothing
  | .send c v =>
    match s.chans[c]? with
    | none => .raised s
    | some ch =>
      match s.nbsend c ch v with
      | (none, s') => .raised s'
      | (some true, s') => .taken s'
      | (some false, _) => .nothing
  | .recv c =>
    match s.chans[c]? with
    | none => .raised s
    | some ch =>
      match s.nbrecv c ch with
      | (.nothing, _) => .nothing
      | (_, s') => .taken s'

def poll (s : Machine α) (ports : List Nat) : List (Case α) → Poll α
  | [] => .nothing
  | x :: l =>
    match s.pollCase ports x with
    | .nothing => s.poll ports l
    | r => r

/-- The queues the receive cases join, each with the waiter of its number. -/
def marks (t : Nat) : Nat → List (Case α) → List (Nat × Waiter)
  | _, [] => []
  | n, .recv c :: l => (c, .alt t n) :: marks t (n + 1) l
  | n, _ :: l => marks t n l

def altRegister (s : Machine α) (m : List (Nat × Waiter)) : Machine α :=
  m.foldl (fun s x => s.modChan x.1 (·.register x.2)) s

def altUnregister (s : Machine α) (m : List (Nat × Waiter)) : Machine α :=
  m.foldl (fun s x => s.modChan x.1 (·.unlink x.2)) s

/-- `chansend_k`, on the thread's return from its park: the record says whether the value went. -/
def chansendK (s : Machine α) (t c : Nat) (v : Option α) (rid : Nat) (ch : Chan α) : Machine α :=
  if rid ∈ ch.done then (s.succeed ⟨c, rid, v⟩).goOn t .free
  else if ch.closed then (s.fail ⟨c, rid, v⟩).goOn t .free
  else s

def chansendPass (s : Machine α) (t : Nat) (th : Th α) (c : Nat) (v : Option α) (rid : Nat)
    (ch : Chan α) : Machine α :=
  if th.woken then (s.unwake t).chansendK t c v rid ch else s.park t (.sending c v rid)

def chanrecvPass (s : Machine α) (t : Nat) (th : Th α) (c : Nat) (ch : Chan α) : Machine α :=
  match s.nbrecv c ch with
  | (.nothing, _) =>
    let s1 := s.made.modChan c (·.register (.recv t s.next))
    if th.woken then (s1.unwake t).modChan c (·.unlink (.recv t s.next))
    else s1.park t (.receiving c (some (.recv t s.next)))
  | (_, s') => s'.goOn t .free

def altPass (s : Machine α) (t : Nat) (th : Th α) (ports : List Nat)
    (cases : List (Case α)) : Machine α :=
  match s.poll ports cases with
  | .taken s' | .raised s' => s'.goOn t .free
  | .nothing =>
    let m := marks t 1 cases
    if th.woken then ((s.altRegister m).unwake t).altUnregister m
    else (s.altRegister m).park t (.alting cases m)

/-- What a thread does first when it is resumed, in the call it parked in. -/
def resumed (s : Machine α) (t : Nat) (th : Th α) : Machine α :=
  let s1 := s.modTh t fun th => { th with parked := false }
  match th.wait with
  | .free => s1
  | .sending c v rid =>
    match s.chans[c]? with
    | none => s1
    | some ch => s1.chansendK t c v rid ch
  | .receiving _ none => s1
  | .receiving c (some w) => (s1.modChan c (·.unlink w)).goOn t (.receiving c none)
  | .alting cases m => (s1.altUnregister m).goOn t (.alting cases [])

end Machine

/-! ## Steps -/

inductive Op (α : Type) where
  | create (cap : Int)
  | spawn
  /-- A staged wake is moved to the ring. -/
  | drain (t : Nat)
  /-- The next thread of the ring is resumed. -/
  | pop
  /-- A port readies a thread. -/
  | nudge (t : Nat)
  /-- The running thread gives way. -/
  | yield
  /-- The running thread ends. -/
  | exit
  | nbsend (c : Nat) (v : Option α)
  | nbrecv (c : Nat)
  | close (c : Nat)
  | send (c : Nat) (v : Option α)
  | recv (c : Nat)
  | alt (cases : List (Case α))
  /-- A pass of the loop the running thread is in. -/
  | pass (ports : List Nat)
deriving DecidableEq, Repr

namespace Machine

def onChan (s : Machine α) (c : Nat) (f : Chan α → Option (Machine α)) : Option (Machine α) :=
  match s.chans[c]? with
  | none => none
  | some ch => f ch

def onCur (s : Machine α) (f : Nat → Th α → Option (Machine α)) : Option (Machine α) :=
  match s.cur with
  | none => none
  | some t =>
    match s.threads[t]? with
    | none => none
    | some th => f t th

/-- A call begins, where the running thread is in none. -/
def onCall (s : Machine α) (f : Nat → Machine α) : Option (Machine α) :=
  s.onCur fun t th => match th.wait with
    | .free => some (f t)
    | _ => none

def send (s : Machine α) (t c : Nat) (ch : Chan α) (v : Option α) : Machine α :=
  match s.nbsend c ch v with
  | (some false, _) =>
    match ch.enqueue ⟨s.next, v, some t⟩ with
    | (ch', l) => (s.made.putChan c ch' l).goOn t (.sending c v s.next)
  | (_, s') => s'

def pass (s : Machine α) (ports : List Nat) (t : Nat) (th : Th α) : Option (Machine α) :=
  match th.wait with
  | .free => none
  | .sending c v rid => s.onChan c fun ch => some (s.chansendPass t th c v rid ch)
  | .receiving c _ => s.onChan c fun ch => some (s.chanrecvPass t th c ch)
  | .alting cases _ => some (s.altPass t th ports cases)

def step (s : Machine α) : Op α → Option (Machine α)
  | .create cap => some { s with chans := s.chans ++ [Chan.create cap] }
  | .spawn =>
    some { s with
      threads := s.threads ++
        [{ wait := .free, parked := false, woken := false, wake := true, dead := false }] }
  | .drain t =>
    match s.threads[t]? with
    | none => none
    | some th =>
      if th.wake then some { s.modTh t fun th => { th with wake := false } with ring := s.ring ++ [t] } else none
  | .pop =>
    match s.cur, s.ring with
    | none, t :: ring =>
      match s.threads[t]? with
      | none => none
      | some th =>
        some (if th.dead then { s with ring := ring }
          else { s with ring := ring, cur := some t }.resumed t th)
    | _, _ => none
  | .nudge t => some (s.modTh t Th.ready)
  | .yield => s.onCall fun t => { s with ring := s.ring ++ [t], cur := none }
  | .exit => s.onCall fun t => { s.modTh t fun th => { th with parked := false, dead := true } with cur := none }
  | .nbsend c v => s.onChan c fun ch => some (s.nbsend c ch v).2
  | .nbrecv c => s.onChan c fun ch => some (s.nbrecv c ch).2
  | .close c => s.onChan c fun ch => match ch.close with | (ch', l) => some (s.putChan c ch' l)
  | .send c v => s.onChan c fun ch => s.onCall fun t => s.send t c ch v
  | .recv c => s.onChan c fun _ => s.onCall fun t => s.goOn t (.receiving c none)
  | .alt cases => s.onCall fun t => s.goOn t (.alting cases [])
  | .pass ports => s.onCur (s.pass ports)

end Machine

/-- The states that steps which all meet `ok`, each in the state in front of it, lead to. -/
inductive Run (ok : Machine α → Op α → Prop) : Machine α → Prop where
  | boot : Run ok .boot
  | step {s s' : Machine α} {a : Op α} (hr : Run ok s) (ho : ok s a)
      (ha : s.step a = some s') : Run ok s'

section Runs

variable {ok : Machine α → Op α → Prop} {chk : Machine α → Op α → Bool}

variable {s : Machine α} {l : List (Op α)} {P : Machine α → Bool}

theorem Run.invariant {I : Machine α → Prop} (h0 : I .boot)
    (hI : ∀ {s s' a}, Run ok s → I s → ok s a → s.step a = some s' → I s')
    (h : Run ok s) : I s := by
  induction h with
  | boot => exact h0
  | step hr ho ha ih => exact hI hr ih ho ha

/-- A run of these steps, in this order, each checked in the state in front of it. -/
def runSteps (chk : Machine α → Op α → Bool) (s : Machine α) : List (Op α) → Option (Machine α)
  | [] => some s
  | a :: l => if chk s a then (s.step a).bind fun s => runSteps chk s l else none

theorem Run.steps {s' : Machine α} (hchk : ∀ s a, chk s a = true → ok s a) (h : Run ok s)
    (hl : runSteps chk s l = some s') : Run ok s' := by
  induction l generalizing s with
  | nil =>
    cases hl
    exact h
  | cons a l ih =>
    obtain ⟨hc, hl⟩ := Option.ite_none_right_eq_some.mp hl
    obtain ⟨s1, h1, h2⟩ := Option.bind_eq_some_iff.mp hl
    exact ih (.step h (hchk s a hc) h1) h2

theorem Run.of_steps (hchk : ∀ s a, chk s a = true → ok s a)
    (h : (runSteps chk .boot l).any P = true) : ∃ s, Run ok s ∧ P s = true := by
  obtain ⟨s, hs, hp⟩ := (Option.any_eq_true _ _).mp h
  exact ⟨s, Run.steps hchk .boot hs, hp⟩

theorem Run.of_any (h : (runSteps (fun _ _ => true) .boot l).any P = true) :
    ∃ s : Machine α, Run (fun _ _ => True) s ∧ P s = true :=
  Run.of_steps (fun _ _ _ => trivial) h

end Runs

end Nlos.Thread
