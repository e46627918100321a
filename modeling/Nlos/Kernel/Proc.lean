import Nlos.Kernel.Sysapi

/-!
# Procs: birth, monitors and death

The model of `src/proc.c` and of the calls of `src/sysapi.c` that start, watch and stop a proc.

`proc_kill`, `proc_break` and `proc_reap` mark the proc first and finish after. In between a lua
state is closed, which runs the finalizers its proc has registered, and those are lua code that
may make any call. Each is therefore two steps here, with the calls of the finalizers between
them, and `Kernel.teardowns` holds what is unfinished.
-/

namespace Nlos

open Bytes

namespace Kernel

/-! ## Finding procs -/

/-- The slot holds the proc `pid` and is not `DEAD`. -/
def isProc (k : Kernel) (pid : Int) (i : Nat) : Bool :=
  match k.procv[i]? with
  | none => false
  | some pr => k.sch.statusOf i != .dead && (pr.id : Int) == pid

def findProc (k : Kernel) (pid : Int) : Option Nat :=
  (List.range k.procv.length).find? (k.isProc pid)

def procSelfport (k : Kernel) (pr : KProc) : Option PortRef :=
  if pr.selfgen = 0 then none
  else if k.live ⟨pr.selfidx, pr.selfgen⟩ then some ⟨pr.selfidx, pr.selfgen⟩ else none

/-- `may_control`, with `proc_has_port`: some right of the caller is to the target's self port. -/
def mayControl (k : Kernel) (pr target : KProc) : Bool :=
  match k.procSelfport target with
  | none => false
  | some p => pr.rights.slots.any fun r => r.used && r.port == p

/-! ## Exit notices -/

def noticeStr (s : List UInt8) : List UInt8 := 'S'.toUInt8 :: (le 4 s.length ++ s)

/-- The words of a notice: `exit`, `normal`, `status`, `exitmsg`, `reason`, `broke`. -/
def wExit : List UInt8 := [0x65, 0x78, 0x69, 0x74]
@[inherit_doc wExit] def wNormal : List UInt8 := [0x6e, 0x6f, 0x72, 0x6d, 0x61, 0x6c]
@[inherit_doc wExit] def wStatus : List UInt8 := [0x73, 0x74, 0x61, 0x74, 0x75, 0x73]
@[inherit_doc wExit] def wExitmsg : List UInt8 := [0x65, 0x78, 0x69, 0x74, 0x6d, 0x73, 0x67]
@[inherit_doc wExit] def wReason : List UInt8 := [0x72, 0x65, 0x61, 0x73, 0x6f, 0x6e]
@[inherit_doc wExit] def wBroke : List UInt8 := [0x62, 0x72, 0x6f, 0x6b, 0x65]

/-- What `notify_exit` tells: the pid, the reason of a bad death, the status, the exit message,
and whether the proc is held for inspection. -/
structure Notice where
  pid : BitVec 64
  reason : Option (List UInt8)
  status : BitVec 64
  exitmsg : List UInt8
  broke : Bool
deriving DecidableEq

/-- What an unprivileged watcher is told: that it was bad, and not why. -/
def Notice.redact (n : Notice) : Notice :=
  { n with reason := n.reason.map fun _ => [], exitmsg := [] }

def Notice.bytes (n : Notice) : List UInt8 :=
  let npairs := 3 + (if n.reason.isSome then 1 else 0) + (if n.exitmsg.isEmpty then 0 else 1) +
    (if n.broke then 1 else 0)
  'B'.toUInt8 :: le 4 npairs ++
  noticeStr wExit ++ 'I'.toUInt8 :: le 8 n.pid.toNat ++
  noticeStr wNormal ++ [if n.reason.isSome then 'F'.toUInt8 else 'T'.toUInt8] ++
  noticeStr wStatus ++ 'I'.toUInt8 :: le 8 n.status.toNat ++
  (if n.exitmsg.isEmpty then [] else noticeStr wExitmsg ++ noticeStr n.exitmsg) ++
  (match n.reason with
    | none => []
    | some r => noticeStr wReason ++ noticeStr (r.take 200)) ++
  (if n.broke then noticeStr wBroke ++ ['T'.toUInt8] else [])

/-- The port in slot 0 of a rights table, whether the slot is used or not. -/
def slot0 (t : RightTable) : Right := t.slots.headD Right.free

/-- `notify_exit` to the proc in slot `w`. `wbufOk` and `kmsgOk` answer the allocations. -/
def notifyExit (wbufOk kmsgOk : Bool) (k : Kernel) (w : Nat) (n : Notice) (priv : Bool) : Kernel :=
  match k.procv[w]? with
  | none => k
  | some pr =>
    if wbufOk then
      (portPushOwned kmsgOk k (slot0 pr.rights).port (if priv then n else n.redact).bytes [] []).2
    else k

/-! ## Death -/

/-- One turn of the loop of `proc_detach` over the rights. -/
def detachSlot (i : Nat) (k : Kernel) (h : Nat) : Kernel :=
  match (k.procv[i]?).bind (·.rights.slots[h]?) with
  | none => k
  | some r => if r.used then k.rightDrop i h else k

/-- Every right goes, then the overflow array. -/
def detachRights (k : Kernel) (i : Nat) : Kernel :=
  let k := (List.range maxRights).foldl (detachSlot i) k
  match k.procv[i]? with
  | none => k
  | some pr => k.setProc i { pr with rights := pr.rights.dropOverflow }

/-- What a watcher is told of the death of `pr`. -/
def noticeOf (pr : KProc) (why : Option (List UInt8)) (broke : Bool) : Notice :=
  match why with
  | some r => ⟨BitVec.ofNat 64 pr.id, some r, -1, [], broke⟩
  | none => ⟨BitVec.ofNat 64 pr.id, none, pr.exitcode, pr.exitmsg, broke⟩

/-- One turn of the loop of `proc_detach` over the watchers. `memOk` answers the allocations. -/
def tellWatcher (memOk : Nat → Bool) (n : Notice) (k : Kernel) (w : Nat × Bool) : Kernel :=
  match k.findProc w.1 with
  | none => k
  | some j => notifyExit (memOk (2 * w.1)) (memOk (2 * w.1 + 1)) k j n w.2

def procDetach (memOk : Nat → Bool) (k : Kernel) (i : Nat) (why : Option (List UInt8))
    (broke : Bool) : Kernel :=
  let k := (k.waitClear i).detachRights i
  match k.procv[i]? with
  | none => k
  | some pr =>
    let k := pr.watchers.foldl (tellWatcher memOk (noticeOf pr why broke)) k
    match k.procv[i]? with
    | none => k
    | some pr => k.setProc i { pr with watchers := [] }

/-- `proc_freestate`: `lua_close` collects every buffer, whose storage goes back. -/
def procFreestate (k : Kernel) (i : Nat) : Kernel :=
  match k.procv[i]? with
  | none => k
  | some pr =>
    let owned := pr.bufs.filter (·.owned)
    { k.setProc i { pr with hasL := false, bufs := [] } with
      freed := (owned.filterMap (·.p)).map (·.addr) ++ k.freed }

/-- The marking half of `proc_kill`, made on cpu `me`. A proc another cpu has in hand is left to
that cpu. -/
def killBegin (k : Kernel) (me i : Nat) (why : Option (List UInt8)) : Option Kernel :=
  match k.sch.procs[i]? with
  | none => none
  | some p =>
    if p.status = .broke ∨ p.status = .dead then none
    else if p.oncpu ≠ 0 ∧ p.oncpu ≠ me then none
    else some { k with
      sch := k.sch.setProc i { p with status := .dead, onq := false }
      teardowns := .kill i why :: k.teardowns }

def breakBegin (k : Kernel) (me i : Nat) (why : Option (List UInt8)) : Option Kernel :=
  match k.sch.procs[i]? with
  | none => none
  | some p =>
    if p.status = .broke ∨ p.status = .dead then none
    else if p.oncpu ≠ 0 ∧ p.oncpu ≠ me then none
    else some { k with
      sch := k.sch.setProc i { p with status := .broke, onq := false }
      teardowns := .break i why :: k.teardowns }

def reapBegin (k : Kernel) (me i : Nat) : Option Kernel :=
  match k.sch.procs[i]? with
  | none => none
  | some p =>
    if p.status ≠ .broke ∨ .reap i ∈ k.teardowns then none
    else if p.oncpu ≠ 0 ∧ p.oncpu ≠ me then none
    else some { k with teardowns := .reap i :: k.teardowns }

/-- The rest of `proc_kill`, once the finalizers have run. -/
def killEnd (memOk : Nat → Bool) (k : Kernel) (i : Nat) (why : Option (List UInt8)) : Kernel :=
  let k := procDetach memOk (k.procFreestate i) i why false
  { k with sch := k.sch.setStatus i .dead }

def finish (memOk : Nat → Bool) (k : Kernel) (t : Teardown) : Kernel :=
  let k := { k with teardowns := k.teardowns.erase t }
  match t with
  | .kill i why => killEnd memOk k i why
  | .break i why => procDetach memOk k i why true
  | .reap i =>
    let k := k.procFreestate i
    { k with sch := k.sch.setStatus i .dead }

/-! ## Birth -/

/-- The answers `proc_new` gets: the record, the heap and the lua state, the port, and whether the
confinement and the chunk load. -/
structure NewEnv where
  params : Params
  recordOk : Bool
  stateOk : Bool
  portOk : Bool
  chunkOk : Bool
  memLimit : Nat
  portLimit : Nat

/-- The slot is empty, or `DEAD` and in no cpu's hands. -/
def slotFree (k : Kernel) (i : Nat) : Bool :=
  match k.sch.procs[i]? with
  | none => true
  | some p => p.status == .dead && p.oncpu == 0

/-- The slot `proc_new` takes: the first that is free. The list holds the slots used so far. -/
def freeSlot (k : Kernel) : Option Nat := (List.range (k.procv.length + 1)).find? k.slotFree

/-- The references a rights table holds, as entries. -/
def tableRefs (t : RightTable) : List InRef :=
  t.slots.filterMap fun r => if r.used then some ⟨r.port.idx, r.recv⟩ else none

/-- Wipe slot `i` for a new occupant, or append it. A right still used in the old record is not
dropped: its reference is left without a holder. -/
def wipeSlot (k : Kernel) (i : Nat) : Kernel :=
  match k.procv[i]? with
  | some pr =>
    { k.setProc i KProc.zero with
      sch := k.sch.setProc i SProc.zero
      lost := tableRefs pr.rights ++ k.lost }
  | none =>
    { k with
      procv := k.procv ++ [KProc.zero]
      sch := { k.sch with procs := k.sch.procs ++ [SProc.zero] } }

def modProc (k : Kernel) (i : Nat) (f : KProc → KProc) : Kernel :=
  match k.procv[i]? with
  | none => k
  | some pr => k.setProc i (f pr)

/-- `proc_new` once the self port is in slot 0: the proc is confined, its chunk loaded, and it
hatches. -/
def procLoad (env : NewEnv) (k : Kernel) (i : Nat) (port : PortRef) : Option Nat × Kernel :=
  let k := k.modProc i fun pr => { pr with selfidx := port.idx, selfgen := port.gen }
  if env.chunkOk then
    let k := k.modProc i fun pr =>
      { pr with memLimit := env.memLimit, portLimit := env.portLimit, exitcode := 0, exitmsg := [] }
    (some i, { k with sch := k.sch.setStatus i .hatching })
  else (none, (k.rightDrop i 0).procFreestate i)

def procPort (env : NewEnv) (k : Kernel) (i : Nat) : Option Nat × Kernel :=
  match portNew env.params env.portOk k with
  | (none, k) => (none, k.procFreestate i)
  | (some port, k) =>
    match rightNew true k i port true with
    | (some 0, k) => procLoad env k i port
    | (_, k) => (none, (k.modPort port fun q => { q with used := false }).procFreestate i)

def procBuild (env : NewEnv) (k : Kernel) (i : Nat) : Option Nat × Kernel :=
  if env.stateOk then
    let k := k.modProc i fun pr => { pr with id := k.nextpid, hasL := true }
    procPort env { k with nextpid := k.nextpid + 1 } i
  else (none, k)

/-- `proc_new`: the slot of the new proc, or none where it returns -1. -/
def procNew (env : NewEnv) (k : Kernel) : Option Nat × Kernel :=
  match k.freeSlot with
  | none => (none, k)
  | some i =>
    if env.params.maxProcs ≤ i then (none, k)
    else if i = k.procv.length ∧ !env.recordOk then (none, k)
    else procBuild env (k.wipeSlot i) i

def procLaunch (k : Kernel) (i : Nat) : Kernel := { k with sch := k.sch.makeReady i }

end Kernel

open Kernel

/-! ## The calls -/

def apiMonitor (memOk : Nat → Bool) (k : Kernel) (i : Nat) (pid : Int) : Ret Bool × Kernel :=
  match k.procv[i]? with
  | none => (.error "no such proc", k)
  | some pr =>
    let noproc : Notice :=
      ⟨BitVec.ofInt 64 pid, some [0x6e, 0x6f, 0x70, 0x72, 0x6f, 0x63], -1, [], false⟩
    match (k.findProc pid).filter (fun j => k.sch.statusOf j != .broke) with
    | none => (.ok true, notifyExit (memOk 0) (memOk 1) k i noproc true)
    | some j =>
      match k.procv[j]? with
      | none => (.ok true, k)
      | some target =>
        if j = i then (.error "cannot monitor self", k)
        else if target.watchers.any (·.1 == pr.id) then (.ok true, k)
        else if maxWatch ≤ target.watchers.length then (.error "too many watchers", k)
        else
          (.ok true, k.setProc j
            { target with watchers := target.watchers ++ [(pr.id, mayControl k pr target)] })

/-- What `sys.spawn` is given and the answers it gets. `recv` is about the child: its `proc` is
the slot the child is put in. -/
structure SpawnEnv where
  send : SendEnv
  new : NewEnv
  stackOk : Nat → Bool
  allocOk : Nat → Bool
  xrightsOk : Bool
  memOk : Nat → Bool

/-- The child's side of handing over the argument. -/
def SpawnEnv.recv (env : SpawnEnv) (child : Nat) : RecvEnv :=
  ⟨env.new.params, child, env.stackOk, env.allocOk, env.xrightsOk⟩

/-- The end of `sys.spawn`: the child runs and the parent gets a send right to its self port. -/
def spawnLaunch (env : SpawnEnv) (k : Kernel) (child : Nat) : Ret (Nat × Nat) × Kernel :=
  let k := k.procLaunch child
  match k.procv[child]? with
  | none => (.error "spawn: child vanished", k)
  | some pr =>
    match rightNew env.xrightsOk k env.send.proc (slot0 pr.rights).port false with
    | (none, k) => (.error "out of rights", k)
    | (some h, k) => (.ok (pr.id, h), k)

/-- A child that could not be handed its argument is killed. It has run nothing yet, so closing its
state runs no lua. -/
def spawnFailed (env : SpawnEnv) (k : Kernel) (child : Nat) : Ret (Nat × Nat) × Kernel :=
  let why := some ("spawn: could not deliver arg".toList.map Char.toUInt8)
  match k.killBegin 0 child why with
  | none => (.error "spawn: could not deliver arg", k)
  | some k => (.error "spawn: could not deliver arg", k.finish env.memOk (.kill child why))

/-- Handing the serialized argument to the child. A lua error here is in a state nothing protects,
with the wide lock held: the machine stops. -/
def spawnArg (env : SpawnEnv) (k : Kernel) (w : WBuf) (child : Nat) :
    Option (Ret (Nat × Nat) × Kernel) :=
  let k := w.bufown.foldl (luabufDetach env.send.proc) k
  match deserialize (env.recv child) (maxDepth + 1) ⟨k, w.data, w.bufs, [], 0, 0⟩ with
  | (.error .raise, _) => none
  | (.error _, s) => some (spawnFailed env ((s.k.msgbufsFree s.bufs).releaseInflight w.refs) child)
  | (.ok _, s) => some (spawnLaunch env ((s.k.msgbufsFree s.bufs).releaseInflight w.refs) child)

/-- `sys.spawn` with `opts.arg`, from the serialization of the argument on. A lua error out of that
walk leaves the wide ipc lock held. -/
def apiSpawn (env : SpawnEnv) (k : Kernel) (arg : Option LVal) :
    Option (Ret (Nat × Nat) × Kernel) :=
  match arg with
  | none =>
    match procNew env.new k with
    | (none, k) => some (.error "spawn failed", k)
    | (some child, k) => some (spawnLaunch env k child)
  | some v =>
    match serialize env.send (maxDepth + 1) v ⟨k.ipclockEnter, .zero, 0⟩ with
    | (.error .raise, s) =>
      some (.error "buffer has been given away", { s.k with lost := s.w.refs ++ s.k.lost })
    | (.error .reject, s) =>
      some (.error "spawn: unserializable arg", (s.k.releaseInflight s.w.refs).ipclockLeave)
    | (.ok (), s) =>
      match procNew env.new s.k.ipclockLeave with
      | (none, k) => some (.error "spawn failed", k.releaseInflight s.w.refs)
      | (some child, k) => spawnArg env k s.w child

end Nlos
