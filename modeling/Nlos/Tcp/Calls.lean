import Nlos.Lib.Runs
import Nlos.Tcp.Receiver

/-!
# Calls

What the owner of a connection calls: the opens and closes, the user's data, time, and the segments
that arrived. A run is any sequence of calls on a new connection.
-/

namespace Nlos.Tcp

namespace Tcb

variable (t : Tcb)

def attime (now : Option Int) : Tcb := { t with now := now.getD t.now }

def take : Tcb := { t with out := [] }

def events : Tcb := { t with ev := [] }

/-! ## Opening and closing -/

def connect (now : Option Int) : Tcb :=
  let t := t.attime now
  if t.state ≠ .closed then t
  else
    { t with passive := false, state := .synSent, sndUna := t.iss, sndNxt := Tcp4.add t.iss 1 }.send synFlags []
      (some t.iss) (some ⟨some t.rcvMss, t.sackOffer, []⟩)

def listen : Tcb := if t.state ≠ .closed then t else { t with passive := true, state := .listen }

def close (now : Option Int) : Tcb :=
  let t := t.attime now
  if t.finSent then t
  else if t.state = .closed ∨ t.state = .listen then { t with state := .closed }
  else if t.state = .synSent then t.dead .closed none
  else { t with finPending := true }.transmit

def abort (now : Option Int) : Tcb :=
  let t := t.attime now
  (if t.state ≠ .closed ∧ t.state ≠ .listen then t.send { ackFlags with rst := true } [] none none
    else t).dead .closed none

/-! ## The user's data -/

/-- How many bytes `write` takes, where it takes any. -/
def writeRoom (data : Bytes) : Option Nat :=
  if t.state ≠ .established ∧ t.state ≠ .closeWait then none
  else if t.finPending then none
  else some (min data.length ((t.sndbuf : Int) - t.qlen).toNat)

/-- `write`. The answer is how much was taken, or that nothing can be. -/
def write (data : Bytes) (now : Option Int) : Option Nat × Tcb :=
  let t := t.attime now
  match t.writeRoom data with
  | none => (none, t)
  | some n =>
    if (t.sndbuf : Int) - t.qlen ≤ 0 then (some 0, t)
    else (some n, { t with sndq := t.sndq ++ data.take n }.transmit)

/-- The loop of `read`: `want` bytes off the chunks. -/
def takeChunks : Nat → List Bytes → Bytes × List Bytes
  | _, [] => ([], [])
  | want, chunk :: q =>
    if want = 0 then ([], chunk :: q)
    else if chunk.length ≤ want then
      let (taken, rest) := takeChunks (want - chunk.length) q
      (chunk ++ taken, rest)
    else (chunk.take want, chunk.drop want :: q)

/-- The window has opened by enough to say so. -/
def offers : Bool :=
  t.state = .established && min (t.rcvbuf / 2) t.sndMss ≤
    (t.rcvbuf : Int) - t.rcvbytes - t.rcvWnd &&
    t.rcvWnd < 2 * t.sndMss

/-- `read`. No answer is the end of the stream. -/
def read (max : Option Nat) : Option Bytes × Tcb :=
  if t.rcvbytes = 0 then (if t.finRcvd then none else some [], t)
  else
    let want := min (max.getD t.rcvbytes) t.rcvbytes
    let (out, rcvq) := takeChunks want t.rcvq
    let t1 := { t with rcvq := rcvq, rcvbytes := t.rcvbytes - out.length }
    (some out, if t1.offers then t1.ack else t1)

/-! ## Time -/

def earlier (a b : Option Int) : Option Int :=
  match a, b with
  | none, b => b
  | a, none => a
  | some x, some y => some (if y < x then y else x)

def deadline : Option Int := earlier (earlier (earlier t.timewait t.retx) t.persist) t.delack

def due (now : Int) (timer : Option Int) : Bool := timer.any (· ≤ now)

def tickPersist : Tcb :=
  if due t.now t.persist then
    if t.probes ≥ maxRetx then t.dead .reset (some "no response to window probes") else t.probe
  else t

def tick (now : Option Int) : Tcb :=
  let t := t.attime now
  if due t.now t.timewait then { t with timewait := none }.dead .closed none
  else
    let t1 := if due t.now t.retx then t.retransmit else t
    let t2 := if due t1.now t1.delack then t1.ack else t1
    t2.tickPersist

def tickRetx : Tcb := if due t.now t.retx then t.retransmit else t

def tickDelack : Tcb := if due t.now t.delack then t.ack else t

theorem tick_eq (now : Option Int) : t.tick now =
    if due (t.attime now).now (t.attime now).timewait
      then { t.attime now with timewait := none }.dead .closed none
    else (t.attime now).tickRetx.tickDelack.tickPersist := rfl

end Tcb

/-! ## Runs -/

inductive Call where
  | connect (now : Option Int)
  | listen
  | close (now : Option Int)
  | abort (now : Option Int)
  | write (data : Bytes) (now : Option Int)
  | read (max : Option Nat)
  | tick (now : Option Int)
  | segment (seg : Seg) (now : Option Int)
  | take
  | events
deriving DecidableEq, Repr

def Tcb.call (t : Tcb) : Call → Tcb
  | .connect now => t.connect now
  | .listen => t.listen
  | .close now => t.close now
  | .abort now => t.abort now
  | .write data now => (t.write data now).2
  | .read max => (t.read max).2
  | .tick now => t.tick now
  | .segment seg now => t.segment seg now
  | .take => t.take
  | .events => t.events

/-- The connections that calls which all meet `ok`, each in the state in front of it, lead to. -/
def Run (ok : Tcb → Call → Prop) : Tcb → Prop := Runs (fun t => ∃ cfg, t = .new cfg) ok Tcb.call

end Nlos.Tcp
