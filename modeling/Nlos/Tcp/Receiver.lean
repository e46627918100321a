import Nlos.Tcp.Sender

/-!
# Segments that arrive

The event processing of `lib/tcb.lua`: one function for each state a segment can find, the checks of
the acknowledgment, and the reassembly of the data.
-/

namespace Nlos.Tcp

namespace Tcb

variable (t : Tcb)

def acceptable (seg : Seg) : Bool :=
  let last := Tcp4.add t.rcvNxt t.rcvWnd
  if seg.seglen = 0 then
    if t.rcvWnd = 0 then seg.seq == t.rcvNxt else Tcp4.between seg.seq t.rcvNxt last
  else if t.rcvWnd = 0 then false
  else Tcp4.between seg.seq t.rcvNxt last ||
    Tcp4.between (Tcp4.add seg.seq (seg.seglen - 1)) t.rcvNxt last

def learnMss (seg : Seg) : Tcb :=
  let peer := (seg.opt.bind Opt.mss).getD Tcp4.mssDefault
  { t with sndMss := max (min peer t.rcvMss) Tcp4.mssMin }

/-- What the peer's SYN said about SACK, where it was offered here too. -/
def learnSack (seg : Seg) : Tcb :=
  { t with sackOk := t.sackOffer && (seg.opt.map Opt.sackok).getD false }

/-- The window the segment advertises is the peer's. -/
def takeWindow (seg : Seg) : Tcb :=
  { t with sndWnd := seg.wnd.toNat, sndWl1 := seg.seq, sndWl2 := seg.ack }

abbrev opened (seg : Seg) : Tcb := { t with state := .established }.takeWindow seg

def sendSynAck : Tcb :=
  t.send { synFlags with ack := true } [] (some t.iss) (some ⟨some t.rcvMss, t.sackOk, []⟩)

/-! ## Before the connection stands -/

def inListen (seg : Seg) : Tcb :=
  if seg.flags.rst then t
  else if seg.flags.ack then t.reset seg.ack
  else if !seg.flags.syn then t
  else
    let t1 :=
      ({ t with irs := seg.seq, rcvNxt := Tcp4.add seg.seq 1, rport := seg.sport }.learnMss
        seg).initCc.takeWindow seg
    let t2 := { t1 with sndUna := t.iss, sndNxt := Tcp4.add t.iss 1, state := .synReceived }
    (t2.learnSack seg).sendSynAck

/-- The peer's SYN in SYN-SENT, with an acknowledgment of ours or without. -/
def synSentSyn (seg : Seg) (acked : Bool) : Tcb :=
  let t1 :=
    (({ t with irs := seg.seq, rcvNxt := Tcp4.add seg.seq 1 }.learnMss seg).learnSack seg).initCc
  let t2 := if acked then { t1 with sndUna := seg.ack }.acked seg 0 else t1
  if Tcp4.gt t2.sndUna t2.iss then
    ((({ t2 with state := .established }.takeWindow seg).ack).signal .established none).transmit
  else ({ t2 with state := .synReceived }.takeWindow seg).sendSynAck

def inSynSent (seg : Seg) : Tcb :=
  if seg.flags.ack ∧ (Tcp4.le seg.ack t.iss ∨ Tcp4.gt seg.ack t.sndNxt) then
    if seg.flags.rst then t else t.reset seg.ack
  else if seg.flags.rst then
    if seg.flags.ack then t.dead .refused (some "connection refused") else t
  else if !seg.flags.syn then t
  else t.synSentSyn seg seg.flags.ack

/-! ## The acknowledgment -/

def onDupack : Tcb :=
  let t1 := { t with dupacks := t.dupacks + 1 }
  if t1.dupacks < dupackThresh then t1.limitedTransmit
  else if t1.dupacks = dupackThresh then t1.fastRetransmit
  else if t1.inRecovery then { t1 with cwnd := t1.cwnd.map (· + t1.sndMss) }.transmit
  else t1

/-- How many bytes of the queue the acknowledgment covers: the span, less our SYN and our FIN. -/
def ackedBytes (seg : Seg) : Int :=
  Tcp4.diff seg.ack t.sndUna
    - (if Tcp4.le t.sndUna t.iss && Tcp4.ge seg.ack (Tcp4.add t.iss 1) then 1 else 0)
    - (if t.finSeq.any (Tcp4.gt seg.ack ·) then 1 else 0)

def dropAcked (seg : Seg) : Tcb :=
  if t.ackedBytes seg > 0 then t.qdrop (t.ackedBytes seg).toNat else t

/-- The queue starts behind the acknowledgment. -/
def moved (seg : Seg) : Tcb := { t.dropAcked seg with sndUna := seg.ack }

def advance (seg : Seg) : Tcb :=
  if Tcp4.lt t.sndUna seg.ack then (t.moved seg).acked seg (Tcp4.diff seg.ack t.sndUna) else t

/-- The window, unless the segment is an old one. -/
def updateWindow (seg : Seg) : Tcb :=
  if Tcp4.lt t.sndWl1 seg.seq || (t.sndWl1 == seg.seq && Tcp4.le t.sndWl2 seg.ack)
    then t.takeWindow seg else t

def finAcked (seg : Seg) : Bool := t.finSeq.any (Tcp4.gt seg.ack ·)

/-- Where the acknowledgment of our FIN leads, and whether the segment is looked at further. -/
def onFinAcked (seg : Seg) : Tcb × Bool :=
  if t.state = .finWait1 ∧ t.finAcked seg then ({ t with state := .finWait2 }, true)
  else if t.state = .closing ∧ t.finAcked seg then (t.enterTimeWait, true)
  else if t.state = .lastAck ∧ t.finAcked seg then (t.dead .closed none, false)
  else (t, true)

/-- The acknowledgment, in a state past SYN-RECEIVED. -/
def checkAckOpen (seg : Seg) : Tcb × Bool :=
  if Tcp4.gt seg.ack t.sndNxt then (t.ack, false)
  else
    let t1 := { t with probes := 0 }
    if t1.isDupack seg then (t1.onDupack, true)
    else ((t1.advance seg).updateWindow seg).onFinAcked seg

/-- `_check_ack`, and whether the segment is looked at further. -/
def checkAck (seg : Seg) : Tcb × Bool :=
  if !seg.flags.ack then (t, false)
  else if t.state = .synReceived then
    if Tcp4.lt t.sndUna seg.ack && Tcp4.le seg.ack t.sndNxt then
      (({ t with state := .established }.takeWindow seg).signal .established none).checkAckOpen seg
    else (t.reset seg.ack, false)
  else t.checkAckOpen seg

/-! ## The data -/

def hold (seg : Seg) : Tcb :=
  if seg.data = [] ∧ seg.flags.fin = false then t
  else if t.ooobytes + seg.data.length > t.rcvbuf then t
  else if t.ooo.any fun h => h.seq == seg.seq && seg.data.length ≤ h.data.length then t
  else
    { t with
      ooo := t.ooo ++ [⟨seg.seq, seg.data, seg.flags.fin⟩]
      ooobytes := t.ooobytes + seg.data.length
      sackRecent := some seg.seq }

def deliver (data : Bytes) : Tcb :=
  if data = [] then t
  else
    { t with
      rcvq := t.rcvq ++ [data]
      rcvbytes := t.rcvbytes + data.length
      rcvNxt := Tcp4.add t.rcvNxt data.length }

def takeFin : Tcb := { t with rcvNxt := Tcp4.add t.rcvNxt 1, finRcvd := true }

/-- The first held segment that is not ahead of a gap any more, with its place. -/
def firstDue (rcvNxt : Seq) : List Held → Option (Nat × Held)
  | [] => none
  | h :: l => if 0 ≤ Tcp4.diff rcvNxt h.seq then some (0, h) else (firstDue rcvNxt l).map fun (i, h) => (i + 1, h)

/-- The loop of `_drain_held`. A turn takes one held segment away. -/
def drainLoop : Nat → Tcb → Tcb
  | 0, t => t
  | fuel + 1, t =>
    match firstDue t.rcvNxt t.ooo with
    | none => t
    | some (i, h) =>
      let off := Tcp4.diff t.rcvNxt h.seq
      -- one that is behind us altogether was a duplicate
      let t1 :=
        if off ≤ h.data.length then
          let t1 := t.deliver (h.data.drop off.toNat)
          if h.fin then t1.takeFin else t1
        else t
      drainLoop fuel { t1 with ooobytes := t1.ooobytes - h.data.length, ooo := t1.ooo.eraseIdx i }

def drainHeld : Tcb := drainLoop (t.ooo.length + 1) t

def ackFor (bytes : Int) (immediate : Bool) : Tcb :=
  let t1 := { t with ackbytes := t.ackbytes + bytes }
  if immediate || t1.finRcvd || !t1.ooo.isEmpty || t1.window == 0 || 2 * (t1.rcvMss : Int) ≤
    t1.ackbytes then t1.ack
  else { t1 with delack := t1.delack.or (some (t1.now + delackMs)) }

def onFin : Tcb :=
  let t1 := t.signal .closing none
  match t1.state with
  | .established | .synReceived => { t1 with state := .closeWait }
  | .finWait1 => { t1 with state := .closing }
  | .finWait2 => t1.enterTimeWait
  | .timeWait => { t1 with timewait := some (t1.now + 2 * t1.msl) }
  | _ => t1

/-- `data:sub(1, j)`, where a negative `j` counts from the end. -/
def subTo (data : Bytes) (j : Int) : Bytes :=
  if 0 ≤ j then data.take j.toNat else data.take (data.length + j + 1).toNat

/-- What of the data of a segment is new, `off` bytes of it being old, and there is room for. -/
def textData (seg : Seg) (off : Nat) : Bytes :=
  let data := seg.data.drop off
  let room : Int := (t.rcvbuf : Int) - t.rcvbytes
  if (data.length : Int) > room then subTo data room else data

/-- The FIN of a segment, once everything in front of it is taken. -/
def textFin (seg : Seg) : Tcb :=
  if seg.flags.fin then
    if Tcp4.add seg.seq seg.data.length = t.rcvNxt then t.takeFin else t.hold seg
  else t

def seeFin : Tcb :=
  if t.finRcvd = true ∧ t.finSeen = false then { t with finSeen := true }.onFin else t

def text (seg : Seg) : Tcb :=
  let off := Tcp4.diff t.rcvNxt seg.seq
  if off < 0 then (t.hold seg).ack
  else
    let t1 := (t.deliver (t.textData seg off.toNat)).textFin seg
    let t2 := t1.drainHeld
    let filled := t2.rcvNxt != t1.rcvNxt
    let consumed := t.textData seg off.toNat != [] ||
      (seg.flags.fin && Tcp4.add seg.seq seg.data.length == (t.deliver (t.textData seg off.toNat)).rcvNxt) || filled
    let t3 := t2.seeFin
    if consumed then t3.ackFor (Tcp4.diff t3.rcvNxt t.rcvNxt) filled else t3

/-! ## Synchronized states -/

def onUnacceptable (seg : Seg) : Tcb :=
  if seg.flags.rst then t
  else
    let t1 := if t.state = .timeWait ∧ seg.flags.fin
      then { t with timewait := some (t.now + 2 * t.msl) } else t
    if t.state ≠ .timeWait ∨ 0 < seg.seglen then t1.ack else t1

def inTimeWait (seg : Seg) : Tcb :=
  if 0 < seg.seglen then
    (if seg.flags.fin then { t with timewait := some (t.now + 2 * t.msl) } else t).ack
  else t

def onRst : Tcb :=
  if t.state = .synReceived ∧ t.passive
    then { t with state := .listen, sndUna := t.iss, sndNxt := t.iss }
  else t.dead .reset (some "connection reset by peer")

def afterAck (seg : Seg) : Tcb :=
  if t.state = .timeWait then t.inTimeWait seg
  else (if t.state ≠ .closed then t.text seg else t).transmit

def inSynchronized (seg : Seg) : Tcb :=
  if !t.acceptable seg then t.onUnacceptable seg
  else if seg.flags.rst then t.onRst
  else if seg.flags.syn then t.ack
  else
    match t.checkAck seg with
    | (t1, false) => t1
    | (t1, true) => t1.afterAck seg

def segment (seg : Seg) (now : Option Int) : Tcb :=
  let t1 := { t with now := now.getD t.now }
  match t1.state with
  | .closed => t1
  | .listen => t1.inListen seg
  | .synSent => t1.inSynSent seg
  | _ => t1.inSynchronized seg

end Tcb

end Nlos.Tcp
