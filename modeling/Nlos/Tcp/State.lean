import Nlos.Tcp.Segment

/-!
# One connection

The record of `lib/tcb.lua` and what its methods are built from: the two queues, and the segments
that leave. A method takes the record and gives back the record it leaves.

Times are whole milliseconds. The estimators of the round trip are floating point, as in the source;
they only go into `rto`.
-/

namespace Nlos.Tcp

/-! ## The record -/

inductive State where
  | closed
  | listen
  | synSent
  | synReceived
  | established
  | finWait1
  | finWait2
  | closeWait
  | closing
  | lastAck
  | timeWait
deriving DecidableEq, Repr

inductive Kind where
  | established
  | closing
  | reset
  | refused
  | closed
deriving DecidableEq, Repr

structure Event where
  kind : Kind
  why : Option String
deriving DecidableEq, Repr

/-- A segment that arrived ahead of a gap. -/
structure Held where
  seq : Seq
  data : Bytes
  fin : Bool
deriving DecidableEq, Repr

structure Tcb where
  state : State
  lport : Nat
  rport : Nat
  iss : Seq
  sndUna : Seq
  sndNxt : Seq
  sndWnd : Nat
  sndWl1 : Seq
  sndWl2 : Seq
  irs : Seq
  rcvNxt : Seq
  sndMss : Nat
  rcvMss : Nat
  rcvbuf : Nat
  sndbuf : Nat
  rcvq : List Bytes
  rcvbytes : Nat
  sndq : Bytes
  sndoff : Nat
  ooo : List Held
  ooobytes : Nat
  rto : Int
  srtt : Option Float
  rttvar : Option Float
  retx : Option Int
  retries : Nat
  rttSeq : Option Seq
  rttAt : Option Int
  cwnd : Option Int
  ssthresh : Int
  dupacks : Nat
  inRecovery : Bool
  recover : Seq
  delack : Option Int
  ackbytes : Int
  persist : Option Int
  persistRto : Int
  probes : Nat
  sackOffer : Bool
  sackOk : Bool
  sackRecent : Option Seq
  msl : Int
  timewait : Option Int
  now : Int
  passive : Bool
  finRcvd : Bool
  finSent : Bool
  finPending : Bool
  finSeq : Option Seq
  finSeen : Bool
  rcvWnd : Nat
  out : List Seg
  ev : List Event

def wndMax : Nat := 0xffff

def rtoInit : Int := 1000

def rtoMin : Float := 1000

def rtoMax : Int := 60000

def maxRetx : Nat := 8

def ssthreshInit : Int := 0xffffffff

def dupackThresh : Nat := 3

def delackMs : Int := 200

def mslDefault : Int := 30000

def initialCwnd (smss : Nat) : Int :=
  if smss > 2190 then 2 * smss
  else if smss > 1095 then 3 * smss
  else 4 * smss

structure Cfg where
  lport : Nat
  rport : Nat
  iss : Seq
  mss : Option Nat
  rcvbuf : Option Nat
  sndbuf : Option Nat
  sack : Bool
  msl : Option Int
deriving DecidableEq, Repr

namespace Tcb

variable (t : Tcb)

/-- `_window`. Natural subtraction stops at zero, as the source does. -/
def window : Nat := min (t.rcvbuf - t.rcvbytes) wndMax

end Tcb

def Tcb.new (cfg : Cfg) : Tcb :=
  let t : Tcb :=
    { state := .closed
      lport := cfg.lport
      rport := cfg.rport
      iss := cfg.iss
      sndUna := cfg.iss
      sndNxt := cfg.iss
      sndWnd := 0
      sndWl1 := 0
      sndWl2 := 0
      irs := 0
      rcvNxt := 0
      sndMss := Tcp4.mssDefault
      rcvMss := cfg.mss.getD Tcp4.mssDefault
      rcvbuf := cfg.rcvbuf.getD (64 * 1024)
      sndbuf := cfg.sndbuf.getD (32 * 1024)
      rcvq := []
      rcvbytes := 0
      sndq := []
      sndoff := 0
      ooo := []
      ooobytes := 0
      rto := rtoInit
      srtt := none
      rttvar := none
      retx := none
      retries := 0
      rttSeq := none
      rttAt := none
      cwnd := none
      ssthresh := ssthreshInit
      dupacks := 0
      inRecovery := false
      recover := cfg.iss
      delack := none
      ackbytes := 0
      persist := none
      persistRto := rtoInit
      probes := 0
      sackOffer := cfg.sack
      sackOk := false
      sackRecent := none
      msl := cfg.msl.getD mslDefault
      timewait := none
      now := 0
      passive := false
      finRcvd := false
      finSent := false
      finPending := false
      finSeq := none
      finSeen := false
      rcvWnd := 0
      out := []
      ev := [] }
  { t with rcvWnd := t.window }

namespace Tcb

variable (t : Tcb)

def flight : Int := Tcp4.diff t.sndNxt t.sndUna

def initCc : Tcb := { t with cwnd := some (initialCwnd t.sndMss) }

def signal (kind : Kind) (why : Option String) : Tcb := { t with ev := t.ev ++ [⟨kind, why⟩] }

/-! ## The send queue -/

def qlen : Int := (t.sndq.length : Int) - t.sndoff

/-- `_qsub`: bytes `a` to `b` of the queue, the first being number 1. -/
def qsub (a b : Nat) : Bytes := (t.sndq.drop (t.sndoff + a - 1)).take (b + 1 - a)

def qdrop (n : Nat) : Tcb :=
  if t.sndoff + n ≥ 4096 ∧ (t.sndoff + n) * 2 ≥ t.sndq.length then
    { t with sndq := t.sndq.drop (t.sndoff + n), sndoff := 0 }
  else { t with sndoff := t.sndoff + n }

def qclear : Tcb := { t with sndq := [], sndoff := 0 }

/-! ## Segments that leave -/

/-- `_send`, with the sequence number `seq` or else `snd_nxt`. -/
def send (flags : Flags) (data : Bytes) (seq : Option Seq) (opt : Option Opt) : Tcb :=
  let s : Seg :=
    { sport := t.lport, dport := t.rport, seq := seq.getD t.sndNxt, ack := t.rcvNxt, flags := flags,
      wnd := BitVec.ofNat 16 t.window, data := data, opt := opt }
  { t with
    rcvWnd := t.window
    out := t.out ++ [s]
    -- whatever carries an acknowledgment pays the one that is owed
    delack := if flags.ack then none else t.delack
    ackbytes := if flags.ack then 0 else t.ackbytes
    retx := if 0 < s.seglen then t.retx.or (some (t.now + t.rto)) else t.retx
    rttSeq := if 0 < s.seglen then t.rttSeq.or (some (Tcp4.add s.seq s.seglen)) else t.rttSeq
    rttAt := if 0 < s.seglen ∧ t.rttSeq = none then some t.now else t.rttAt }

def sampleRtt (r : Int) : Tcb :=
  let x := Float.ofInt r
  let (srtt, rttvar) := match t.srtt, t.rttvar with
    | some srtt, some rttvar => (0.875 * srtt + 0.125 * x, 0.75 * rttvar + 0.25 * (srtt - x).abs)
    | _, _ => (x, x / 2)
  let rto := srtt + 4 * rttvar
  let rto := if rto < rtoMin then rtoMin else rto
  let rto := if rto > Float.ofInt rtoMax then Float.ofInt rtoMax else rto
  { t with srtt := some srtt, rttvar := some rttvar, rto := rto.floor.toUInt64.toNat }

def heldRanges : List Block :=
  (t.ooo.filter fun h => 0 < h.data.length + (if h.fin then 1 else 0)).map fun h =>
    ⟨h.seq, Tcp4.add h.seq (h.data.length + (if h.fin then 1 else 0)), some h.seq == t.sackRecent⟩

def mergeRanges : Block → List Block → List Block
  | last, [] => [last]
  | last, r :: l =>
    if Tcp4.le r.left last.right then
      mergeRanges ⟨last.left, if Tcp4.gt r.right last.right then r.right else last.right, last.recent || r.recent⟩ l
    else last :: mergeRanges r l

/-- `_sack_blocks`: three at most, and the one that was added to last in front. `table.sort` may
raise where the comparison is no order, which it is on segments that are held in one window. -/
def sackBlocks : Option (List Block) :=
  match t.heldRanges.insertionSort fun x y => Tcp4.lt y.left x.left = false with
  | [] => none
  | r :: l =>
    let merged := mergeRanges r l
    some ((merged.filter (·.recent) ++ merged.filter (!·.recent)).take 3)

def ackFlags : Flags := { Flags.none with ack := true }

def ack : Tcb :=
  match if t.sackOk then t.sackBlocks else none with
  | some blocks => t.send ackFlags [] none (some ⟨none, false, blocks⟩)
  | none => t.send ackFlags [] none none

/-- `_reset`: a reset at the sequence number the peer believes in. -/
def reset (ack : Seq) : Tcb :=
  { t with
    out := t.out ++
      [{ sport := t.lport, dport := t.rport, seq := ack, ack := 0, flags := { Flags.none with rst := true }, wnd := 0,
         data := [], opt := none }] }

def dead (kind : Kind) (why : Option String) : Tcb :=
  { { t with state := .closed }.qclear with rcvq := [], rcvbytes := 0 }.signal kind why

end Tcb

end Nlos.Tcp
