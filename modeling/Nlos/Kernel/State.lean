import Nlos.Lib.Tally

/-!
# The kernel's tables

The data model of `src/kproc.h`: ports, messages, rights, procs and timers, and the kernel state
that holds them.

* A `struct kport *` is a `PortRef`: the slot of `portv` and the generation of the port that was
  there. Generations are never reused, so the pair is the identity of the object. A pointer whose
  pair no longer matches the table is dangling.
* A proc is a slot of `procv`. The record is recycled in place and never freed.
* What dispatching reads and writes of a proc and of a port (status, claim, waits) is kept apart,
  in `Sched`: the counting of references never looks at it.
* `Kernel.log`, `Kernel.freed` and `Kernel.lost` are not kernel data. They record which ports were
  touched, which buffer storage was handed back, and which references a `longjmp` left without a
  holder.
-/

namespace Nlos

/-! ## Limits -/

/-- `MAXRIGHTS`: handles per proc. -/
def maxRights : Nat := 512
/-- `NRIGHTS_INLINE`: handles that live in the proc record itself. -/
def nrightsInline : Nat := 8
def maxDepth : Nat := 16
def maxMsgRights : Nat := 32
def maxMsgBufs : Nat := 4
/-- `MAXWATCH`: monitors per proc. -/
def maxWatch : Nat := 8
def maxMsg : Nat := 64 * 1024
/-- `MAXQUEUE`: bytes queued on one port. -/
def maxQueue : Nat := 64 * 1024
/-- `MAXTIMERS`: one-shot timers of the machine. -/
def maxTimers : Nat := 128

/-- The width of `size_t`: 32 bits on wasm32 and the esp32. -/
inductive Width where
  | w32 | w64
deriving DecidableEq

def Width.size : Width → Nat
  | .w32 => 2 ^ 32
  | .w64 => 2 ^ 64

def Width.cast (w : Width) (n : Nat) : Nat := n % w.size

/-- What a platform fixes, with its `param.h` and its compiler. The port index is 16 bits on the
wire, and the serializer asserts that every slot fits it. -/
structure Params where
  maxPorts : Nat
  maxProcs : Nat
  maxPorts_le : maxPorts ≤ 65536
  sizeT : Width

/-! ## Machine integers -/

abbrev LuaInteger := BitVec 64

/-- The conversion `(int)h`: the low 32 bits, read as signed. -/
def cInt (h : LuaInteger) : Int := (h.setWidth 32).toInt

/-! ## Ports and messages -/

/-- A `struct kport *`: a slot of `portv` and the generation of the port it points at. -/
structure PortRef where
  idx : Nat
  gen : Nat
deriving DecidableEq, Repr

/-- One entry of a message's `refs` and `refrecv` arrays: the slot named, and whether the right
in flight is a receive right. -/
structure InRef where
  idx : Nat
  recv : Bool
deriving DecidableEq, Repr

/-- Storage from the chunk source: its address and what it holds. -/
structure Chunk where
  addr : Nat
  bytes : List UInt8
deriving DecidableEq, Repr

/-- One entry of `struct msgbufs`. The pointer is cleared once a receiver has taken the bytes. -/
structure MsgBuf where
  p : Option Chunk
  len : Nat
  sized : ∀ c, p = some c → c.bytes.length = len
deriving DecidableEq

/-- `msgbufs_bytes`: what the buffers cost the queue they sit on. -/
def msgbufsBytes (bufs : List MsgBuf) : Nat := (bufs.map (·.len)).sum

structure Kmsg where
  data : List UInt8
  bufs : List MsgBuf
  qcost : Nat
  refs : List InRef
deriving DecidableEq

/-- A port, `struct kport`. `queue` is the list from `head` to `tail`. Its waiters are in
`Sched.waitq`. The counts are `atomic_int`, so the model is of a machine on which no port has 2 ^ 31
references. -/
structure KPort where
  gen : Nat
  used : Bool
  nrights : Int
  nrecv : Int
  dead : Bool
  qbytes : Nat
  queue : List Kmsg
  nsent : Nat
  ndropFull : Nat
  ndropDead : Nat
  qpeak : Nat
deriving DecidableEq

/-- The record `port_new` writes: all zero but the generation and `used`. -/
def KPort.fresh (gen : Nat) : KPort :=
  { gen := gen, used := true, nrights := 0, nrecv := 0, dead := false, qbytes := 0, queue := [],
    nsent := 0, ndropFull := 0, ndropDead := 0, qpeak := 0 }

/-! ## Rights -/

/-- One slot of a rights table, `struct right`. -/
structure Right where
  port : PortRef
  recv : Bool
  used : Bool
deriving DecidableEq, Repr

def Right.free : Right := ⟨⟨0, 0⟩, false, false⟩

/-- A proc's rights table: the inline slots, followed by the overflow array once the proc has
needed one. It has no other size. -/
structure RightTable where
  slots : List Right
  sized : slots.length = nrightsInline ∨ slots.length = maxRights
deriving DecidableEq

namespace RightTable

/-- A table with every inline slot free and no overflow array. -/
def empty : RightTable := ⟨List.replicate nrightsInline Right.free, .inl List.length_replicate⟩

def set (t : RightTable) (i : Nat) (r : Right) : RightTable :=
  ⟨t.slots.set i r, by rw [List.length_set]; exact t.sized⟩

/-- `free(p->xrights)`: the overflow array goes, the inline slots stay. -/
def dropOverflow (t : RightTable) : RightTable :=
  ⟨t.slots.take nrightsInline, .inl (by
    rw [List.length_take]
    rcases t.sized with h | h <;> rw [h] <;> decide)⟩

/-- The overflow array, allocated and zeroed behind the inline slots. -/
def withOverflow (t : RightTable) (h : t.slots.length = nrightsInline) : RightTable :=
  ⟨t.slots ++ List.replicate (maxRights - nrightsInline) Right.free, .inr (by
    rw [List.length_append, h, List.length_replicate]
    decide)⟩

end RightTable

/-! ## Procs -/

/-- A `los.buf` userdata, `struct luabuf`. The pointer is null once the bytes were given away. -/
structure LuaBuf where
  p : Option Chunk
  len : Nat
  sized : ∀ c, p = some c → c.bytes.length = len
  ro : Bool
  owned : Bool
  views : Nat
deriving DecidableEq

/-- The half of `struct kproc` that the ipc code uses. `hasL` says whether `L` points at a lua
state, `bufs` holds the `los.buf` userdata of that state, `watchers` the pids of `watchers[]` with
`wpriv[]`. -/
structure KProc where
  id : Nat
  hasL : Bool
  selfidx : Nat
  selfgen : Nat
  rights : RightTable
  rhint : Nat
  rhigh : Nat
  nports : Nat
  nportsPeak : Nat
  portLimit : Nat
  bufdenied : Bool
  memUsed : Nat
  memPeak : Nat
  bufUsed : Nat
  memLimit : Nat
  bufs : List LuaBuf
  watchers : List (Nat × Bool)
  exitcode : LuaInteger
  exitmsg : List UInt8
deriving DecidableEq

def KProc.zero : KProc :=
  { id := 0, hasL := false, selfidx := 0, selfgen := 0, rights := RightTable.empty, rhint := 0, rhigh := 0,
    nports := 0, nportsPeak := 0, portLimit := 0, bufdenied := false, memUsed := 0, memPeak := 0,
    bufUsed := 0, memLimit := 0, bufs := [], watchers := [], exitcode := 0, exitmsg := [] }

inductive Status where
  | dead | ready | blocked | broke | hatching | stopped
deriving DecidableEq, Repr

/-- A wait record as its proc holds it, on `kproc.waiters`. `inl` is the record inside the proc,
`w0`. -/
structure Waiter where
  wid : Nat
  port : PortRef
  send : Bool
  onport : Bool
  inl : Bool
deriving DecidableEq, Repr

/-- The same record as its port holds it, on `kport.waiters`. -/
structure WLink where
  wid : Nat
  proc : Nat
  send : Bool
deriving DecidableEq, Repr

/-- The half of `struct kproc` that dispatching uses. `oncpu` is the cpu plus one that has the proc
in hand, `onq` whether it is on a dispatch set, `stopreq` a debugger's request to stop it at its
next wake. -/
structure SProc where
  status : Status
  woken : Bool
  waiters : List Waiter
  w0used : Bool
  oncpu : Nat
  onq : Bool
  stopreq : Bool
deriving DecidableEq, Repr

/-- A zeroed record: `DEAD` is the zero of the enumeration. -/
def SProc.zero : SProc :=
  { status := .dead, woken := false, waiters := [], w0used := false, oncpu := 0, onq := false,
    stopreq := false }

/-- What dispatching keeps: a record for each proc slot, the waiter list of each port, the next wait
record's address, and the records freed so far. -/
structure Sched where
  procs : List SProc
  waitq : PortRef → List WLink
  nextWid : Nat
  wfreed : List Nat

/-! ## The kernel -/

structure KTimer where
  port : PortRef
  due : Nat
deriving DecidableEq, Repr

/-- A port touched through a pointer (read, written, woken or freed), and whether it was still in
`portv` then. -/
structure Touch where
  port : PortRef
  live : Bool
deriving DecidableEq, Repr

/-- A teardown that has marked its proc and has still to finish: `proc_kill` and `proc_break` before
`proc_detach`, `proc_reap` before the slot is released. Finalizers run in between. `why` is the
reason of a death that was not an exit. -/
inductive Teardown where
  | kill (slot : Nat) (why : Option (List UInt8))
  | break (slot : Nat) (why : Option (List UInt8))
  | reap (slot : Nat)
deriving DecidableEq

/-- The kernel state. `portv` ends at `porthigh`. `krefs` are the references the kernel itself holds
(the device and capability ports), `teardowns` the deaths in progress, and `ipcDepth` how often this
cpu has entered the wide ipc lock without leaving it. -/
structure Kernel where
  portv : List (Option KPort)
  portgen : Nat
  hangupGen : Nat
  procv : List KProc
  nextpid : Nat
  timers : List (Option KTimer)
  krefs : List PortRef
  teardowns : List Teardown
  ipcDepth : Nat
  sch : Sched
  log : List Touch
  freed : List Nat
  lost : List InRef

namespace Kernel

def portAt (k : Kernel) (i : Nat) : Option KPort := (k.portv[i]?).join

/-- What a port pointer points at, as long as that port is still in the table. -/
def portOf (k : Kernel) (p : PortRef) : Option KPort :=
  match k.portAt p.idx with
  | some q => if q.gen = p.gen then some q else none
  | none => none

/-- The port behind the pointer is still in `portv`. -/
def live (k : Kernel) (p : PortRef) : Bool := (k.portOf p).isSome

def touch (k : Kernel) (p : PortRef) : Kernel := { k with log := ⟨p, k.live p⟩ :: k.log }

def setPort (k : Kernel) (i : Nat) (q : Option KPort) : Kernel :=
  { k with portv := k.portv.set i q }

/-- Write through a port pointer. A write to a freed port is recorded and lands nowhere. -/
def modPort (k : Kernel) (p : PortRef) (f : KPort → KPort) : Kernel :=
  match k.portOf p with
  | some q => (k.touch p).setPort p.idx (some (f q))
  | none => k.touch p

def setProc (k : Kernel) (i : Nat) (p : KProc) : Kernel := { k with procv := k.procv.set i p }

def ipclockEnter (k : Kernel) : Kernel := { k with ipcDepth := k.ipcDepth + 1 }

def ipclockLeave (k : Kernel) : Kernel := { k with ipcDepth := k.ipcDepth - 1 }

/-- Every port touched so far was still in `portv` when it was touched. -/
def NoStale (k : Kernel) : Prop := ∀ t ∈ k.log, t.live = true

end Kernel

end Nlos
