import Nlos.Kernel.Wait

/-!
# Ports, rights and queues

The model of `src/port.c` up to the queue operations. Dropping a reference is recursive: the last
one flushes the port's queue, and a flushed message drops the references it carries. The C
recursion is kept as it is. Each function takes the `port_unref` it calls as a parameter, and
`portUnrefF` closes the knot with a bound on the depth. Every nested level has at least one queued
reference less to look at, so `portUnref` starts with enough (`Kernel.portUnref_eq`, in
`Nlos.Kernel.Cascade`).
-/

namespace Nlos

namespace Kernel

/-! ## Waking through a port pointer -/

def wake (send : Bool) (k : Kernel) (p : PortRef) : Kernel :=
  { k.touch p with sch := if k.live p then k.sch.wakeWaiters send p else k.sch }

/-- The end of `port_unref`: anyone parked on the port has to look again. -/
def hangup (k : Kernel) (p : PortRef) : Kernel :=
  wake true (wake false { k with hangupGen := k.hangupGen + 1 } p) p

/-- The ports whose waiter lists the records of proc `i` are on, touched as a record leaves its
list. -/
def touchWaits (k : Kernel) (i : Nat) : Kernel :=
  (k.sch.waitersOf i).foldl (fun k w => if w.onport then k.touch w.port else k) k

def waitClear (k : Kernel) (i : Nat) : Kernel :=
  { k.touchWaits i with sch := k.sch.waitClear i }

def waitReap (k : Kernel) (i : Nat) : Kernel :=
  { k.touchWaits i with sch := k.sch.waitReap i }

/-! ## Dropping references -/

/-- `msgbufs_free`: the storage of every buffer nobody took goes back to the chunk source. -/
def msgbufsFree (k : Kernel) (bufs : List MsgBuf) : Kernel :=
  { k with freed := (bufs.filterMap (·.p)).map (·.addr) ++ k.freed }

def freePort (k : Kernel) (p : PortRef) : Kernel :=
  match k.portOf p with
  | some _ => (k.touch p).setPort p.idx none
  | none => k.touch p

/-- The writes of `port_unref` and `port_flush` to the port itself. -/
def dropRight (q : KPort) : KPort := { q with nrights := q.nrights - 1 }

@[inherit_doc dropRight] def dropRecv (q : KPort) : KPort := { q with nrecv := q.nrecv - 1 }

@[inherit_doc dropRight] def markDead (q : KPort) : KPort := { q with dead := true }

@[inherit_doc dropRight] def detachQueue (q : KPort) : KPort := { q with queue := [], qbytes := 0 }

section Recursion

variable (unref : Kernel → PortRef → Kernel)

/-- One turn of the loop of `release_inflight`. -/
def releaseRef (k : Kernel) (r : InRef) : Kernel :=
  match k.portAt r.idx with
  | none => k
  | some q =>
    let p : PortRef := ⟨r.idx, q.gen⟩
    unref (if r.recv then k.modPort p dropRecv else k) p

def releaseInflightWith (k : Kernel) (refs : List InRef) : Kernel :=
  refs.foldl (releaseRef unref) k

def msgFreeWith (k : Kernel) (m : Kmsg) : Kernel :=
  (releaseInflightWith unref k m.refs).msgbufsFree m.bufs

/-- `port_flush`: the queue is detached first and freed message by message after. -/
def portFlushWith (k : Kernel) (p : PortRef) : Kernel :=
  match k.portOf p with
  | none => k.touch p
  | some q => q.queue.foldl (msgFreeWith unref) (k.modPort p detachQueue)

def portUnrefWith (k : Kernel) (p : PortRef) : Kernel :=
  match k.portOf p with
  | none => k.touch p
  | some q =>
    if q.nrights - 1 ≤ 0 then
      (portFlushWith unref (k.modPort p dropRight) p).freePort p
    else if q.nrecv = 0 ∧ q.dead = false then
      (portFlushWith unref ((k.modPort p dropRight).modPort p markDead) p).hangup p
    else (k.modPort p dropRight).hangup p

end Recursion

/-- `port_unref` to a depth of `n` nested calls. -/
def portUnrefF : Nat → Kernel → PortRef → Kernel
  | 0, k, _ => k
  | n + 1, k, p => portUnrefWith (portUnrefF n) k p

/-- The references queued messages carry, in number. -/
def queuedRefs (k : Kernel) : Nat :=
  Tally.tally (fun o => o.elim 0 fun q => Tally.tally (fun m => m.refs.length) q.queue) k.portv

/-- `port_unref`. -/
def portUnref (k : Kernel) (p : PortRef) : Kernel := portUnrefF (k.queuedRefs + 1) k p

def releaseInflight : Kernel → List InRef → Kernel := releaseInflightWith portUnref

def msgFree : Kernel → Kmsg → Kernel := msgFreeWith portUnref

def portFlush : Kernel → PortRef → Kernel := portFlushWith portUnref

/-! ## Making ports -/

/-- `port_new`. `mallocOk` says whether the allocation works. The first empty slot is taken; a
slot past the end of the list has never been used. -/
def portNew (P : Params) (mallocOk : Bool) (k : Kernel) : Option PortRef × Kernel :=
  let i := k.portv.findIdx (·.isNone)
  if i < P.maxPorts ∧ mallocOk = true then
    let gen := k.portgen + 1
    let portv :=
      if i < k.portv.length then k.portv.set i (some (KPort.fresh gen))
      else k.portv ++ [some (KPort.fresh gen)]
    (some ⟨i, gen⟩, { k with portgen := gen, portv := portv })
  else (none, k)

/-! ## Rights -/

end Kernel

namespace RightTable

/-- `right_slot`: null outside the table, and inside the overflow array of a proc that never
needed one. -/
def rightSlot (t : RightTable) (h : Int) : Option Right :=
  if h < 0 ∨ h ≥ maxRights then none else t.slots[h.toNat]?

/-- `right_slot_grow` for a slot at `i`: the table, with the overflow array if the slot is in
it. `mallocOk` says whether that can be allocated. -/
def grow (mallocOk : Bool) (t : RightTable) (i : Nat) : Option RightTable :=
  if i < t.slots.length then some t
  else if h : t.slots.length = nrightsInline ∧ i < maxRights ∧ mallocOk = true then
    some (t.withOverflow h.1)
  else none

/-- The scan of `right_new` from slot `i`, `n` slots long: the first free slot, with the table as
grown on the way. -/
def scan (mallocOk : Bool) (t : RightTable) : Nat → Nat → Option (Nat × RightTable)
  | _, 0 => none
  | i, n + 1 =>
    match t.grow mallocOk i with
    | none => none
    | some t =>
      match t.slots[i]? with
      | none => none
      | some r => if r.used then t.scan mallocOk (i + 1) n else some (i, t)

end RightTable

namespace Kernel

/-- The proc record once `right_new` has put a right in slot `i`. -/
def takeSlot (pr : KProc) (t : RightTable) (i : Nat) (port : PortRef) (recv : Bool) : KProc :=
  { pr with
    rights := t.set i ⟨port, recv, true⟩
    nports := if recv then pr.nports + 1 else pr.nports
    nportsPeak := if recv then max pr.nportsPeak (pr.nports + 1) else pr.nportsPeak
    rhint := i + 1
    rhigh := max pr.rhigh (i + 1) }

def addRef (recv : Bool) (q : KPort) : KPort :=
  { q with nrights := q.nrights + 1, nrecv := if recv then q.nrecv + 1 else q.nrecv }

/-- `right_new`. A proc whose overflow array was allocated on a scan that then found nothing keeps
it, but such an array is empty, so the scan cannot miss. -/
def rightNew (mallocOk : Bool) (k : Kernel) (i : Nat) (port : PortRef) (recv : Bool) :
    Option Nat × Kernel :=
  match k.procv[i]? with
  | none => (none, k)
  | some pr =>
    match pr.rights.scan mallocOk pr.rhint (maxRights - pr.rhint) with
    | none => (none, k)
    | some (h, t) => (some h, (k.setProc i (takeSlot pr t h port recv)).modPort port (addRef recv))

/-- The proc record once slot `h`, which held `r`, is free. -/
def clearSlot (pr : KProc) (h : Nat) (r : Right) : KProc :=
  { pr with
    rights := pr.rights.set h { r with used := false }
    nports := if r.recv then pr.nports - 1 else pr.nports }

def rightDrop (k : Kernel) (i h : Nat) : Kernel :=
  match k.procv[i]? with
  | none => k
  | some pr =>
    match pr.rights.slots[h]? with
    | none => k
    | some r =>
      let k := k.setProc i (clearSlot pr h r)
      let k := if r.recv then k.modPort r.port dropRecv else k
      k.portUnref r.port

/-- `right_get`: the handle comes from lua and is converted to `int` for `right_slot`. -/
def rightGet (k : Kernel) (i : Nat) (h : LuaInteger) : Option Right :=
  match k.procv[i]? with
  | none => none
  | some pr =>
    match pr.rights.rightSlot (cInt h) with
    | none => none
    | some r => if r.used then some r else none

def portBudgetLeft (pr : KProc) : Bool := pr.portLimit == 0 || pr.nports < pr.portLimit

/-! ## Queues -/

/-- The answers of `port_push_owned`: 0, -1, -2, -3. -/
inductive Push where
  | ok | nomem | full | dead
deriving DecidableEq, Repr

def enqueue (m : Kmsg) (q : KPort) : KPort :=
  { q with
    queue := q.queue ++ [m]
    qbytes := q.qbytes + m.qcost
    qpeak := max q.qpeak (q.qbytes + m.qcost)
    nsent := q.nsent + 1 }

/-- `port_push_owned`. On a pointer to a freed port the touch is recorded, and the answer stands for
whatever the stale memory gives. -/
def portPushOwned (mallocOk : Bool) (k : Kernel) (p : PortRef) (data : List UInt8)
    (refs : List InRef) (bufs : List MsgBuf) : Push × Kernel :=
  match k.portOf p with
  | none => (.dead, k.touch p)
  | some q =>
    if q.dead then (.dead, k.modPort p fun q => { q with ndropDead := q.ndropDead + 1 })
    else
      let cost := data.length + msgbufsBytes bufs
      if q.qbytes + cost > maxQueue then
        (.full, k.modPort p fun q => { q with ndropFull := q.ndropFull + 1 })
      else if mallocOk then
        (.ok, (k.modPort p (enqueue ⟨data, bufs, cost, refs⟩)).wake false p)
      else (.nomem, k.touch p)

/-- `port_push`, for the kernel's own short messages. `copyOk` and `mallocOk` are the two
allocations it makes. -/
def portPush (copyOk mallocOk : Bool) (k : Kernel) (p : PortRef) (data : List UInt8)
    (refs : List InRef) : Kernel :=
  if copyOk then
    match portPushOwned mallocOk k p data refs [] with
    | (.ok, k) => k
    | (_, k) => k.releaseInflight refs
  else k.releaseInflight refs

def dequeue (q : KPort) : KPort :=
  match q.queue with
  | [] => q
  | m :: ms => { q with queue := ms, qbytes := q.qbytes - m.qcost }

def portPop (k : Kernel) (p : PortRef) : Option Kmsg × Kernel :=
  match k.portOf p with
  | none => (none, k.touch p)
  | some q =>
    match q.queue with
    | [] => (none, k.touch p)
    | m :: _ => (some m, (k.modPort p dequeue).wake true p)

def msgDispose : Kernel → Kmsg → Kernel := msgFree

end Kernel

end Nlos
