import Nlos.Tcp.State

/-!
# What is sent, and when again

The sending half of `lib/tcb.lua`: new data as the window allows, the queued FIN behind it, and what
is sent again, by the timer, on duplicate acknowledgments and as a probe.
-/

namespace Nlos.Tcp

namespace Tcb

variable (t : Tcb)

/-! ## New data -/

def updatePersist : Tcb :=
  if t.sndWnd = 0 ∧ t.qlen > 0 ∧ t.state = .established then
    match t.persist with
    | some _ => t
    | none => { t with persistRto := t.rto, persist := some (t.now + t.rto) }
  else { t with persist := none, probes := 0 }

/-- The smaller of the peer's window and the congestion window. -/
def win : Int :=
  match t.cwnd with
  | some c => if c < t.sndWnd then c else t.sndWnd
  | none => t.sndWnd

def unsent : Int := t.qlen - t.flight

/-- One turn of the loop of `_transmit`: the next segment, of `n` bytes. -/
def sendNext (n : Int) : Tcb :=
  let chunk := t.qsub (t.flight + 1).toNat (t.flight + n).toNat
  { t.send { ackFlags with psh := n == t.unsent } chunk none none with sndNxt := Tcp4.add t.sndNxt n.toNat }

def transmitLoop : Nat → Tcb → Tcb
  | 0, t => t
  | fuel + 1, t =>
    if t.unsent ≤ 0 ∨ t.win - t.flight ≤ 0 then t.updatePersist
    else transmitLoop fuel (t.sendNext (min (min t.unsent (t.win - t.flight)) t.sndMss))

def sendFin : Tcb :=
  { { t with finSent := true, finSeq := some t.sndNxt }.send { ackFlags with fin := true } [] none none with
    sndNxt := Tcp4.add t.sndNxt 1 }

/-- The FIN behind the data, once there is nothing left to put in front. -/
def followFin : Tcb :=
  if t.finPending = true ∧ t.finSent = false ∧ t.unsent ≤ 0 then
    { t.sendFin with state := if t.state = .closeWait then .lastAck else .finWait1 }
  else t

/-- `_transmit`. A turn of the loop sends a byte at least, so there are no more turns than bytes. -/
def transmit : Tcb :=
  if t.state = .established ∨ t.state = .closeWait
    then (transmitLoop (t.unsent.toNat + 1) t).followFin
  else t

/-! ## Old data -/

/-- What goes out first when it goes out again: what is queued, a segment of it at most, and the FIN
where that is all. -/
def resendFlags : Flags := { ackFlags with fin := t.finSent && min t.qlen t.sndMss == t.qlen }

def resendData : Bytes :=
  if 0 < min t.qlen t.sndMss then t.qsub 1 (min t.qlen t.sndMss).toNat else []

/-- The segment from `snd_una`, where there is one. -/
def resend : Tcb :=
  if t.resendData = [] ∧ t.resendFlags.fin = false then t
    else t.send t.resendFlags t.resendData (some t.sndUna) none

/-- `_resend_first`. Nothing is timed that went out twice. -/
def resendFirst : Tcb :=
  if t.resendData = [] ∧ t.resendFlags.fin = false then t
    else { t.resend with rttSeq := none, rttAt := none }

def isDupack (seg : Seg) : Bool :=
  seg.ack == t.sndUna && seg.seglen == 0 && !seg.flags.syn && !seg.flags.fin &&
    seg.wnd.toNat == t.sndWnd && 0 < t.flight

def limitedTransmit : Tcb :=
  match t.cwnd with
  | none => t
  | some cwnd =>
    if t.unsent ≤ 0 then t
    else if t.flight + t.sndMss > cwnd + 2 * t.sndMss then t
    else if t.flight + t.sndMss > t.sndWnd then t
    else
      let n := min t.unsent t.sndMss
      { t.send ackFlags (t.qsub (t.flight + 1).toNat (t.flight + n).toNat) none none with
        sndNxt := Tcp4.add t.sndNxt n.toNat }

def fastRetransmit : Tcb :=
  if Tcp4.gt t.sndUna t.recover then
    let t1 :=
      { t with
        recover := t.sndNxt, inRecovery := true
        ssthresh := max (t.flight / 2) (2 * t.sndMss) }.resendFirst
    { t1 with cwnd := some (t1.ssthresh + dupackThresh * t1.sndMss) }
  else t

def probe : Tcb :=
  let octet := t.qsub (t.flight + 1).toNat (t.flight + 1).toNat
  let first := t.qsub 1 1
  if octet = [] ∧ first = [] then { t with persist := none }
  else
    let t1 :=
      if octet = [] then t.send ackFlags first (some t.sndUna) none
      else { t.send ackFlags octet none none with sndNxt := Tcp4.add t.sndNxt 1 }
    { t1 with
      retx := none
      rttSeq := none
      rttAt := none
      probes := t.probes + 1
      persistRto := min (t.persistRto * 2) rtoMax
      persist := some (t.now + min (t.persistRto * 2) rtoMax) }

/-! ## Acknowledgments -/

/-- What an acknowledgment of `acked` new bytes does to the congestion window. -/
def ackedCc (seg : Seg) (acked : Int) : Tcb :=
  match t.cwnd with
  | none => t
  | some cwnd =>
    if t.inRecovery then
      if Tcp4.ge seg.ack t.recover then { t with cwnd := some t.ssthresh, inRecovery := false }
      else
        let cwnd := cwnd - acked
        let cwnd := if acked ≥ t.sndMss then cwnd + t.sndMss else cwnd
        let cwnd := if cwnd < t.sndMss then (t.sndMss : Int) else cwnd
        { t.resendFirst with cwnd := some cwnd, retx := some (t.now + t.rto) }
    else if cwnd < t.ssthresh then { t with cwnd := some (cwnd + min acked (2 * t.sndMss)) }
    else
      let inc := ((t.sndMss : Int) * t.sndMss) / cwnd
      { t with cwnd := some (cwnd + (if inc > 0 then inc else 1)) }

/-- The sample of the round trip, where the acknowledgment covers what is timed. -/
def ackedRtt (seg : Seg) : Tcb :=
  match t.rttSeq, t.rttAt with
  | some rttSeq, some rttAt =>
    if Tcp4.ge seg.ack rttSeq
      then { t.sampleRtt (t.now - rttAt) with rttSeq := none, rttAt := none } else t
  | _, _ => t

/-- The timer starts over while something is outstanding, and is off otherwise. -/
def restartTimer : Tcb :=
  { t with retries := 0, retx := if Tcp4.lt t.sndUna t.sndNxt then some (t.now + t.rto) else none }

def acked (seg : Seg) (acked : Int) : Tcb :=
  ({ t.ackedCc seg acked with dupacks := 0 }.ackedRtt seg).restartTimer

/-! ## The retransmission timer -/

def timeoutCc : Tcb :=
  match t.cwnd with
  | none => t
  | some _ =>
    { t with
      ssthresh := if t.retries = 0 then max (t.flight / 2) (2 * t.sndMss) else t.ssthresh
      cwnd := some t.sndMss
      recover := t.sndNxt
      inRecovery := false
      dupacks := 0 }

def synFlags : Flags := { Flags.none with syn := true }

def retransmitSegment : Tcb :=
  match t.state with
  | .synSent => t.send synFlags [] (some t.iss) (some ⟨some t.rcvMss, t.sackOffer, []⟩)
  | .synReceived =>
    t.send { synFlags with ack := true } [] (some t.iss) (some ⟨some t.rcvMss, t.sackOk, []⟩)
  | _ => t.resend

/-- The timer is set for longer, and nothing is timed that went out twice. -/
def backOff : Tcb :=
  { t with rttSeq := none, rttAt := none, rto := min (t.rto * 2) rtoMax, retx := some (t.now + min (t.rto * 2) rtoMax) }

/-- What the timer does after it counted: a peer that was asked often enough is gone. -/
def resendOrGiveUp : Tcb :=
  if t.retries > maxRetx then t.dead .reset (some "connection timed out")
    else t.retransmitSegment.backOff

def retransmit : Tcb := { t.timeoutCc with retries := t.retries + 1 }.resendOrGiveUp

def enterTimeWait : Tcb :=
  { t with state := .timeWait, timewait := some (t.now + 2 * t.msl), retx := none }.qclear

end Tcb

end Nlos.Tcp
