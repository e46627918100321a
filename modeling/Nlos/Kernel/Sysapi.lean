import Nlos.Kernel.Deserialize

/-!
# The calls a proc makes

The ipc half of `src/sysapi.c`, and `src/timer.c`. A call returns to lua or raises there; `Ret` is
the answer, and the kernel state stands beside it either way. A call that raises with the wide ipc
lock held leaves it held: `ipcDepth` stays up. The proc and the rest of the lap go on with that
state, and the kernel loop stops the machine at the top of its next lap.
-/

namespace Nlos

/-- How a call ends for lua: with a value, or with an error of that text. -/
inductive Ret (α : Type) where
  | ok (a : α)
  | error (msg : String)
deriving DecidableEq, Repr

/-! ## Sending -/

/-- The answers of `port_send_from_lua`. -/
inductive Sent where
  | ok | unserializable | full | dead | nomem
deriving DecidableEq, Repr

def Sent.ofPush : Kernel.Push → Sent
  | .ok => .ok
  | .nomem => .nomem
  | .full => .full
  | .dead => .dead

def LuaBuf.gone (lb : LuaBuf) : LuaBuf := { lb with p := none, sized := nofun }

def luabufDetach (i : Nat) (k : Kernel) (b : Nat) : Kernel :=
  match k.procv[i]? with
  | none => k
  | some pr =>
    match pr.bufs[b]? with
    | none => k
    | some lb => k.setProc i { kbufUncharge pr lb.len with bufs := pr.bufs.set b lb.gone }

/-- `port_send_from_lua`, to the port of the right the caller looked up. `none` is a lua error out
of the walk, whose references are then on no list. -/
def portSendFromLua (env : SendEnv) (k : Kernel) (port : PortRef) (v : LVal) :
    Option (Sent × Nat) × Kernel :=
  match serialize env (maxDepth + 1) v (env.start k v) with
  | (.error .raise, s) => (none, { s.k with lost := s.w.refs ++ s.k.lost })
  | (.error .reject, s) => (some (.unserializable, 0), s.k.releaseInflight s.w.refs)
  | (.ok (), s) =>
    let len := s.w.data.length + msgbufsBytes s.w.bufs
    match Kernel.portPushOwned env.kmsgOk s.k port s.w.data s.w.refs s.w.bufs with
    | (.ok, k) => (some (.ok, len), s.w.bufown.foldl (luabufDetach env.proc) k)
    | (rc, k) => (some (.ofPush rc, len), k.releaseInflight s.w.refs)

def apiSend (env : SendEnv) (k : Kernel) (h : LuaInteger) (v : LVal) : Ret (Sent × Nat) × Kernel :=
  match k.rightGet env.proc h with
  | none => (.error "bad right", k)
  | some r =>
    match portSendFromLua env k r.port v with
    | (none, k) => (.error "buffer has been given away", k)
    | (some (.unserializable, _), k) => (.error "unserializable message", k)
    | (some (.nomem, _), k) => (.error "out of memory queueing message", k)
    | (some rc, k) => (.ok rc, k)

/-! ## Receiving -/

/-- The text of a lua error out of a receive, as the allocator's refusal has it. -/
def notEnoughMemory : String := "not enough memory"

def popfail (k : Kernel) (i : Nat) (e : Fault) : String × Kernel :=
  match k.procv[i]? with
  | none => ("corrupt message", k)
  | some pr =>
    match e with
    | .limit =>
      if pr.bufdenied then
        ("no room for a transferred buffer", k.setProc i { pr with bufdenied := false })
      else ("out of rights: " ++ toString pr.rhigh ++ " of " ++ toString maxRights ++ " in use", k)
    | .corrupt => ("corrupt message", k)
    | .raise => (notEnoughMemory, k)

/-- The answer of a receive: the value, or the error `popfail` names. -/
def received (i : Nat) : Except Fault RVal × Kernel → Ret RVal × Kernel
  | (.ok v, k) => (.ok v, k)
  | (.error e, k) => (.error (popfail k i e).1, (popfail k i e).2)

def apiTryrecv (env : RecvEnv) (k : Kernel) (h : LuaInteger) : Ret (Option RVal) × Kernel :=
  match k.rightGet env.proc h with
  | none => (.error "bad receive right", k)
  | some r =>
    if r.recv then
      match k.portPop r.port with
      | (none, k) => (.ok none, k)
      | (some m, k) =>
        match received env.proc (msgToLua env k m) with
        | (.ok v, k) => (.ok (some v), k)
        | (.error msg, k) => (.error msg, k)
    else (.error "bad receive right", k)

def soleHolder (k : Kernel) (pr : KProc) (port : PortRef) : Bool :=
  match k.portOf port with
  | none => true
  | some q => q.nrights ≤ ((pr.rights.slots.take pr.rhigh).countP fun r => r.used && r.port == port)

def blockedTwice : String := "already blocked (sys.block from a coroutine? use los.thread's park)"

/-- The proc goes to sleep on a port: `wait_add`, then `proc_block`. None where there is no wait
record left. -/
def Kernel.sleep (ok : Bool) (k : Kernel) (i : Nat) (p : PortRef) (send : Bool) : Option Kernel :=
  (k.sch.waitAdd ok i p send).map fun s => { k with sch := s.procBlock i }

/-- `call_k`: a reply is taken, a reply nobody is left to send is reported, and otherwise the proc
parks, which is the answer `none`. -/
def callK (env : RecvEnv) (waitOk : Bool) (k : Kernel) (ctx : LuaInteger) :
    Option (Ret (Option RVal)) × Kernel :=
  match k.procv[env.proc]?, k.rightGet env.proc ctx with
  | some pr, some rr =>
    if rr.recv then
      match k.portPop rr.port with
      | (none, k) =>
        if soleHolder k pr rr.port then (some (.ok none), k)
        else
          match k.sleep waitOk env.proc rr.port false with
          | none => (some (.error "out of waiters"), k)
          | some k => (none, k)
      | (some m, k) =>
        match received env.proc (msgToLua env k m) with
        | (.ok v, k) => (some (.ok (some v)), k)
        | (.error msg, k) => (some (.error msg), k)
    else (some (.error "call: reply right went away"), k)
  | _, _ => (some (.error "call: reply right went away"), k)

/-- `sys.call(sh, v, rh)` up to its send: the answer, or none where it goes on to `call_k`. A lua
error out of the walk passes over `ipclock_leave`. -/
def callSend (senv : SendEnv) (k : Kernel) (sh : LuaInteger) (v : LVal) (rh : LuaInteger) :
    Option (Ret (Option RVal)) × Kernel :=
  match k.rightGet senv.proc sh, k.rightGet senv.proc rh with
  | none, _ => (some (.error "call: bad right"), k)
  | some _, none => (some (.error "call: bad reply right"), k)
  | some r, some rr =>
    if !rr.recv then (some (.error "call: bad reply right"), k)
    else if !(k.sch.waitersOf senv.proc).isEmpty then (some (.error blockedTwice), k)
    else
      match portSendFromLua senv k.ipclockEnter r.port v with
      | (none, k) => (some (.error "buffer has been given away"), k)
      | (some (rc, _), k) =>
        let k := k.ipclockLeave
        match rc with
        | .unserializable => (some (.error "unserializable message"), k)
        | .nomem => (some (.error "out of memory queueing message"), k)
        | .dead => (some (.ok none), k)
        | .full => (some (.ok none), k)
        | .ok => (none, k)

/-- `sys.call(sh, v, rh)` up to its first look for the reply. -/
def apiCall (senv : SendEnv) (renv : RecvEnv) (waitOk : Bool) (k : Kernel) (sh : LuaInteger)
    (v : LVal) (rh : LuaInteger) : Option (Ret (Option RVal)) × Kernel :=
  match callSend senv k sh v rh with
  | (some r, k) => (some r, k)
  | (none, k) => callK renv waitOk k rh

/-! ## Parking -/

def Kernel.hasMsg (k : Kernel) (p : PortRef) : Bool :=
  match k.portOf p with
  | none => false
  | some q => !q.queue.isEmpty

/-- A message of `need` bytes is worth sending now: it fits, or the port is dead and the send will
say so. The sum is one of `size_t`. -/
def Kernel.takesMore (w : Width) (k : Kernel) (p : PortRef) (need : Nat) : Bool :=
  match k.portOf p with
  | none => false
  | some q => q.dead || w.cast (q.qbytes + w.cast need) ≤ maxQueue

/-- `sys.block(h)`. The answer `none` is the one that parks. -/
def apiBlock (waitOk : Bool) (k : Kernel) (i : Nat) (h : LuaInteger) : Option (Ret Unit) × Kernel :=
  match k.rightGet i h with
  | none => (some (.error "bad receive right"), k)
  | some r =>
    if !r.recv then (some (.error "bad receive right"), k)
    else
      let k := k.touch r.port
      if k.hasMsg r.port then (some (.ok ()), k)
      else if !(k.sch.waitersOf i).isEmpty then (some (.error blockedTwice), k)
      else
        match k.sleep waitOk i r.port false with
        | none => (some (.error "out of waiters"), k)
        | some k => (none, k)

def apiSendblock (P : Params) (waitOk : Bool) (k : Kernel) (i : Nat) (h need : LuaInteger) :
    Option (Ret Unit) × Kernel :=
  if need.toInt < 0 then (some (.error "negative size"), k)
  else
    match k.rightGet i h with
    | none => (some (.error "bad right"), k)
    | some r =>
      let k := k.touch r.port
      if !(k.sch.waitersOf i).isEmpty then (some (.error blockedTwice), k)
      else if P.sizeT.cast need.toNat > maxQueue || k.takesMore P.sizeT r.port need.toNat then
        (some (.ok ()), k)
      else
        match k.sleep waitOk i r.port true with
        | none => (some (.error "out of waiters"), k)
        | some k => (none, k)

/-- One case of `sys.alt`: the handle waited on (-1 where the case names none), the room asked for
if it is a send wait, and whether a hangup is to be reported. -/
structure AltCase where
  handle : LuaInteger
  need : Option Nat
  hup : Bool
deriving DecidableEq

/-- What the case at its index has to say: a message taken, a case ready that was not asked to be
taken, room to send, or that the last other holder has gone. -/
inductive AltWhy where
  | msg (v : RVal)
  | ready
  | send
  | hungup

/-- Whether a case could make progress now, as `altready` asks. -/
def AltCase.ready (w : Width) (k : Kernel) (i : Nat) (c : AltCase) : Bool :=
  match k.rightGet i c.handle with
  | none => false
  | some r =>
    match c.need with
    | some n => k.takesMore w r.port n
    | none => r.recv && k.hasMsg r.port

/-- Whether a case has a hangup to report, as `alt_hup` asks. -/
def AltCase.hungup (k : Kernel) (i : Nat) (c : AltCase) : Bool :=
  match k.procv[i]?, k.rightGet i c.handle with
  | some pr, some r =>
    c.hup && c.need.isNone && r.recv && !k.hasMsg r.port && soleHolder k pr r.port
  | _, _ => false

/-- `alt_take_at`, on the case at index `n`. The message is turned into lua values inside the wide
ipc lock: `none` is a lua error there, and the lock stays held. -/
def altTakeAt (env : RecvEnv) (k : Kernel) (n : Nat) (c : AltCase) :
    Option (Ret (Option (Nat × AltWhy))) × Kernel :=
  match k.rightGet env.proc c.handle with
  | none => (some (.ok none), k)
  | some r =>
    if !r.recv then (some (.ok none), k)
    else
      match k.portPop r.port with
      | (none, k) => (some (.ok none), k)
      | (some m, k) =>
        match msgToLua env k m with
        | (.error .raise, k) => (none, k.ipclockEnter)
        | (.ok v, k) => (some (.ok (some (n, .msg v))), k)
        | (.error e, k) => (some (.error (popfail k env.proc e).1), (popfail k env.proc e).2)

def altAnswer (env : RecvEnv) (wake : Bool) (k : Kernel) (n : Nat) (c : AltCase) :
    Option (Ret (Option (Nat × AltWhy))) × Kernel :=
  if wake then (some (.ok (some (n, .ready))), k)
  else
    match c.need with
    | some _ => (some (.ok (some (n, .send))), k)
    | none => altTakeAt env k n c

/-- `alt_take`, on the cases from index `n` on: the first that is ready answers. -/
def altTake (env : RecvEnv) (wake : Bool) (k : Kernel) :
    Nat → List AltCase → Option (Ret (Option (Nat × AltWhy))) × Kernel
  | _, [] => (some (.ok none), k)
  | n, c :: cs =>
    if c.ready env.params.sizeT k env.proc then altAnswer env wake k n c
    else altTake env wake k (n + 1) cs

def altHup (k : Kernel) (i : Nat) : Nat → List AltCase → Option Nat
  | _, [] => none
  | n, c :: cs => if c.hungup k i then some n else altHup k i (n + 1) cs

/-- The loop of `sys.alt` that links a wait record for each case, and the park after it, which is
the answer `none`. -/
def altPark (env : RecvEnv) (wake : Bool) (waitOk : Nat → Bool) :
    Kernel → Nat → List AltCase → Option (Ret (Option (Nat × AltWhy))) × Kernel
  | k, _, [] => (none, { k with sch := k.sch.procBlock env.proc })
  | k, n, c :: cs =>
    let send := c.need.isSome
    if c.handle.toInt < 0 then (some (.error "alt: bad receive right"), k.waitClear env.proc)
    else
      match k.rightGet env.proc c.handle with
      | none =>
        (some (.error (if send then "alt: bad right" else "alt: bad receive right")),
          k.waitClear env.proc)
      | some r =>
        if !send && !r.recv then
          (some (.error "alt: bad receive right"), k.waitClear env.proc)
        else if c.ready env.params.sizeT k env.proc then
          match altAnswer env wake k n c with
          | (none, k) => (some (.error notEnoughMemory), k)
          | (some a, k) => (some a, k.waitClear env.proc)
        else if (k.sch.waitersOf env.proc).any fun w => w.port == r.port && w.send == send then
          altPark env wake waitOk k (n + 1) cs
        else
          match k.sch.waitAdd (waitOk n) env.proc r.port send with
          | none => (some (.error "alt: out of waiters"), k.waitClear env.proc)
          | some s => altPark env wake waitOk { k with sch := s } (n + 1) cs

def touchCases (i : Nat) (k : Kernel) (cases : List AltCase) : Kernel :=
  cases.foldl (fun k c => match k.rightGet i c.handle with
    | none => k
    | some r => k.touch r.port) k

/-- `sys.alt(cases, wake)`, one region. The answer `none` is the one that parks. -/
def apiAlt (env : RecvEnv) (wake : Bool) (waitOk : Nat → Bool) (k : Kernel) (cases : List AltCase) :
    Option (Ret (Option (Nat × AltWhy))) × Kernel :=
  if cases.isEmpty then (some (.error "alt: need at least one case"), k)
  else
    let k := touchCases env.proc k cases
    match altTake env wake k 1 cases with
    | (none, k) => (some (.error notEnoughMemory), k)
    | (some (.ok none), k) =>
      match altHup k env.proc 1 cases with
      | some n => (some (.ok (some (n, .hungup))), k)
      | none => altPark env wake waitOk (k.waitClear env.proc) 1 cases
    | (some a, k) => (some a, k)

/-- `alt_k`, once the proc was woken: the take and the hangup, and nothing where neither answers. -/
def altK (env : RecvEnv) (wake : Bool) (k : Kernel) (cases : List AltCase) :
    Ret (Option (Nat × AltWhy)) × Kernel :=
  let k := touchCases env.proc k cases
  match altTake env wake k 1 cases with
  | (none, k) => (.error notEnoughMemory, k)
  | (some (.ok none), k) => (.ok ((altHup k env.proc 1 cases).map fun n => (n, .hungup)), k)
  | (some a, k) => (a, k)

/-! ## Making and closing rights -/

/-- `sys.newport`. `portOk` and `xrightsOk` are the two allocations it makes. -/
def apiNewport (P : Params) (portOk xrightsOk : Bool) (k : Kernel) (i : Nat) : Ret Nat × Kernel :=
  match k.procv[i]? with
  | none => (.error "out of ports", k)
  | some pr =>
    if Kernel.portBudgetLeft pr then
      match Kernel.portNew P portOk k with
      | (none, k) => (.error "out of ports", k)
      | (some port, k) =>
        match Kernel.rightNew xrightsOk k i port true with
        | (none, k) => (.error "out of rights", k)
        | (some h, k) => (.ok h, k)
    else
      (.error ("port limit: " ++ toString pr.nports ++ " of " ++ toString pr.portLimit ++
        " in use"), k)

def apiSendright (xrightsOk : Bool) (k : Kernel) (i : Nat) (h : LuaInteger) : Ret Nat × Kernel :=
  match k.rightGet i h with
  | none => (.error "bad right", k)
  | some r =>
    match Kernel.rightNew xrightsOk k i r.port false with
    | (none, k) => (.error "out of rights", k)
    | (some h, k) => (.ok h, k)

def lowerHint (k : Kernel) (i : Nat) (h : Int) : Kernel :=
  match k.procv[i]? with
  | none => k
  | some pr => if h < pr.rhint then k.setProc i { pr with rhint := h.toNat } else k

/-- `sys.close(h)`. The slot is the one `(int)h` names; the guard for slot 0 looks at `h`. -/
def apiClose (k : Kernel) (i : Nat) (h : LuaInteger) : Ret Unit × Kernel :=
  match k.rightGet i h with
  | none => (.error "bad right", k)
  | some _ =>
    if h = 0 then (.error "cannot close self port", k)
    else (.ok (), lowerHint (k.rightDrop i (cInt h).toNat) i (cInt h))

/-- `owned_close`, on the `int` that `sys.owned` stored. -/
def ownedClose (k : Kernel) (i : Nat) (ud : BitVec 32) : Kernel :=
  if ud.toInt < 0 then k
  else
    match k.rightGet i (ud.signExtend 64) with
    | none => k
    | some _ =>
      if ud.toInt = 0 then k
      else lowerHint (k.rightDrop i ud.toInt.toNat) i ud.toInt

/-! ## Timers -/

/-- One turn of the loop of `reap_dead_timers`: `port_unref` first, the slot after. -/
def reapTimer (k : Kernel) (j : Nat) : Kernel :=
  match (k.timers[j]?).join with
  | none => k
  | some t =>
    match k.portOf t.port with
    | none => k.touch t.port
    | some q =>
      if q.dead then
        let k := k.portUnref t.port
        { k with timers := k.timers.set j none }
      else k

def reapDeadTimers (k : Kernel) : Kernel := (List.range maxTimers).foldl reapTimer k

/-- The first free slot of the timer table. The list holds the slots used so far. -/
def freeTimer (k : Kernel) : Option Nat :=
  let j := k.timers.findIdx (·.isNone)
  if j < maxTimers then some j else none

/-- Write slot `j` of the timer table, which may be the first past those used so far. -/
def setTimer (k : Kernel) (j : Nat) (t : KTimer) : Kernel :=
  { k with timers := if j < k.timers.length then k.timers.set j (some t) else k.timers ++ [some t] }

/-- `timer_arm`. A full table is reaped once before it gives up. -/
def timerArm (k : Kernel) (port : PortRef) (due : Nat) : Bool × Kernel :=
  let arm (k : Kernel) (j : Nat) : Kernel :=
    setTimer (k.modPort port (Kernel.addRef false)) j ⟨port, due⟩
  match freeTimer k with
  | some j => (true, arm k j)
  | none =>
    let k := reapDeadTimers k
    match freeTimer k with
    | some j => (true, arm k j)
    | none => (false, k)

def apiTimer (P : Params) (portOk xrightsOk : Bool) (k : Kernel) (i due : Nat) :
    Option Nat × Kernel :=
  match k.procv[i]? with
  | none => (none, k)
  | some pr =>
    if Kernel.portBudgetLeft pr then
      match Kernel.portNew P portOk k with
      | (none, k) => (none, k)
      | (some port, k) =>
        match Kernel.rightNew xrightsOk k i port true with
        | (none, k) => (none, k.modPort port fun q => { q with used := false })
        | (some h, k) =>
          match timerArm k port due with
          | (false, k) => (none, k.rightDrop i h)
          | (true, k) => (some h, k)
    else (none, k)

/-- One turn of the loop of `expire_timers`. `memOk` answers the allocations of the push. -/
def expireTimer (now : Nat) (memOk : Nat → Bool) (k : Kernel) (j : Nat) : Kernel :=
  match (k.timers[j]?).join with
  | none => k
  | some t =>
    if t.due ≤ now then
      let k := Kernel.portPush (memOk (2 * j)) (memOk (2 * j + 1)) k t.port ['T'.toUInt8] []
      let k := k.portUnref t.port
      { k with timers := k.timers.set j none }
    else k

def expireTimers (now : Nat) (memOk : Nat → Bool) (k : Kernel) : Kernel :=
  (List.range maxTimers).foldl (expireTimer now memOk) (reapDeadTimers k)

end Nlos
