import Nlos.Kernel.Serialize

/-!
# Deserializing

The receiving half of `src/serialize.c`, and `msg_to_lua`, which frames it. A right named in the
message is minted into the receiver's table as the walk meets it, and a buffer becomes the
receiver's. The walk returns -1 for bytes it cannot read and -2 for a limit of the receiver. It is
also left by a lua error wherever lua allocates, and then neither `minted_undo` nor `msg_dispose`
runs: the message is out of every queue and nobody has it.
-/

namespace Nlos

open Bytes Fallible

/-- The ways `deserialize` does not deliver: -1, -2, and a lua error. -/
inductive Fault where
  | corrupt
  | limit
  | raise
deriving DecidableEq, Repr

/-- What is fixed for one receive. `allocOk n` answers the `n`th allocation lua asks for on the way,
`xrightsOk` the `malloc` of a rights overflow array. -/
structure RecvEnv where
  params : Params
  proc : Nat
  stackOk : Nat → Bool
  allocOk : Nat → Bool
  xrightsOk : Bool

/-- What a walk carries along: the bytes from `*off` on, the message's buffers, the handles minted,
and how often it has asked for stack and for memory. -/
structure DesState where
  k : Kernel
  rest : List UInt8
  bufs : List MsgBuf
  minted : List Nat
  visits : Nat
  allocs : Nat

abbrev Des := Fallible Fault DesState

def kbufCharge (pr : KProc) (n : Nat) : Option KProc :=
  if pr.memLimit ≠ 0 ∧ pr.memUsed + n > pr.memLimit then none
  else some { pr with
    memUsed := pr.memUsed + n
    memPeak := max pr.memPeak (pr.memUsed + n)
    bufUsed := pr.bufUsed + n }

def kbufUncharge (pr : KProc) (n : Nat) : KProc :=
  { pr with memUsed := pr.memUsed - n, bufUsed := pr.bufUsed - n }

namespace Des

def checkstack (env : RecvEnv) : Des Unit := do
  let s ← get
  put { s with visits := s.visits + 1 }
  guard (env.stackOk s.visits) .limit

/-- An allocation inside lua, which raises where it is refused. -/
def alloc (env : RecvEnv) : Des Unit := do
  let s ← get
  put { s with allocs := s.allocs + 1 }
  guard (env.allocOk s.allocs) .raise

def take (n : Nat) : Des (List UInt8) := do
  let s ← get
  guard (n ≤ s.rest.length) .corrupt
  put { s with rest := s.rest.drop n }
  pure (s.rest.take n)

def word (n : Nat) : Des Nat := do
  let bs ← take n
  pure (ofLe bs)

def getStr (env : RecvEnv) : Des RVal := do
  let n ← word 4
  let s ← get
  guard (n ≤ s.rest.length) .corrupt
  alloc env                         -- lua_pushlstring
  let bs ← take n
  pure (.str bs)

def pairs (walk : Des RVal) : Nat → RPairs → Des RVal
  | 0, t => pure (.table t)
  | n + 1, t => do
    let k ← walk
    let v ← walk
    match t.settable k v with
    | none => fail .raise
    | some t => pairs walk n t

/-- The `'B'` case. Each pair is at least two bytes, so a count that cannot fit is refused. -/
def getTable (env : RecvEnv) (walk : Des RVal) : Des RVal := do
  let n ← word 4
  let s ← get
  guard (n ≤ s.rest.length / 2) .corrupt
  alloc env                         -- lua_createtable
  pairs walk n .nil

/-- The charge of `luabuf_give`. A refusal is recorded for `popfail` to name. -/
def charge (env : RecvEnv) (n : Nat) : Des Unit := do
  let s ← get
  match s.k.procv[env.proc]? with
  | none => fail .limit
  | some pr =>
    match kbufCharge pr n with
    | none => do
      put { s with k := s.k.setProc env.proc { pr with bufdenied := true } }
      fail .limit
    | some pr => put { s with k := s.k.setProc env.proc pr }

def given (mb : MsgBuf) : LuaBuf :=
  { p := mb.p, len := mb.len, sized := mb.sized, ro := false, owned := true, views := 0 }

def taken (mb : MsgBuf) : MsgBuf := ⟨none, mb.len, nofun⟩

/-- The new userdata takes the bytes of entry `i` and the message's pointer is cleared. -/
def adopt (env : RecvEnv) (i : Nat) : Des Nat := do
  let s ← get
  match s.bufs[i]?, s.k.procv[env.proc]? with
  | some mb, some pr => do
    put { s with
      k := s.k.setProc env.proc { pr with bufs := pr.bufs ++ [given mb] }
      bufs := s.bufs.set i (taken mb) }
    pure pr.bufs.length
  | _, _ => fail .corrupt

/-- The lookup of the `'M'` case and the charge `luabuf_give` begins with. -/
def claim (env : RecvEnv) (i : Nat) : Des Unit := do
  let s ← get
  match s.bufs[i]? with
  | none => fail .corrupt
  | some mb => do
    guard mb.p.isSome .corrupt
    charge env mb.len

def getBuf (env : RecvEnv) : Des RVal := do
  let i ← word 1
  claim env i
  alloc env                         -- the metatable
  alloc env                         -- lua_newuserdatauv
  alloc env                         -- luaL_setmetatable
  let b ← adopt env i
  pure (.buf b)

/-- `right_new` for a right named in the message, and its place on the undo list. -/
def mint (env : RecvEnv) (p : PortRef) (recv : Bool) : Des Nat := do
  let s ← get
  match Kernel.rightNew env.xrightsOk s.k env.proc p recv with
  | (none, _) => fail .limit
  | (some h, k) => do
    put { s with k := k, minted := s.minted ++ [h] }
    pure h

/-- The checks of the `'R'` case and the right it makes. -/
def mintAt (env : RecvEnv) (pi : Nat) (recv : Bool) : Des Nat := do
  let s ← get
  match s.k.portAt pi with
  | none => fail .corrupt
  | some q => do
    guard (pi < env.params.maxPorts) .corrupt
    guard (s.minted.length < maxMsgRights) .corrupt
    mint env ⟨pi, q.gen⟩ recv

def getRight (env : RecvEnv) : Des RVal := do
  let s ← get
  guard (3 ≤ s.rest.length) .corrupt
  let pi ← word 2
  let recv ← word 1
  let h ← mintAt env pi (recv != 0)
  alloc env                         -- lua_createtable
  alloc env                         -- lua_setfield
  pure (.table (.cons (.str rightKey) (.int (BitVec.ofNat 64 h)) .nil))

/-- The switch of `deserialize`; `walk` is the recursive call. -/
def switch (env : RecvEnv) (walk : Des RVal) (tag : Char) : Des RVal :=
  match tag with
  | 'N' => pure .nil
  | 'T' => pure (.bool true)
  | 'F' => pure (.bool false)
  | 'I' => do
    let n ← word 8
    pure (.int (BitVec.ofNat 64 n))
  | 'D' => do
    let n ← word 8
    pure (.num (BitVec.ofNat 64 n))
  | 'S' => getStr env
  | 'B' => getTable env walk
  | 'M' => getBuf env
  | 'R' => getRight env
  | _ => fail .corrupt

end Des

/-- `deserialize`. The first argument is how many levels are left: `MAXDEPTH + 1 - depth`. -/
def deserialize (env : RecvEnv) : Nat → Des RVal
  | 0 => fail .corrupt
  | d + 1 => do
    Des.checkstack env
    let tag ← Des.word 1
    Des.switch env (deserialize env d) (Char.ofNat tag)

def mintedUndoOne (i : Nat) (k : Kernel) (h : Nat) : Kernel :=
  let k :=
    match (k.procv[i]?).bind (·.rights.slots[h]?) with
    | none => k
    | some r => if r.used then k.rightDrop i h else k
  match k.procv[i]? with
  | none => k
  | some pr => k.setProc i { pr with rhint := min pr.rhint h }

def mintedUndo (k : Kernel) (i : Nat) (minted : List Nat) : Kernel :=
  minted.foldl (mintedUndoOne i) k

def DesState.start (k : Kernel) (m : Kmsg) : DesState := ⟨k, m.data, m.bufs, [], 0, 0⟩

/-- `msg_to_lua`. A lua error leaves it between the two steps it frames the walk with: the
references the message carried then belong to nobody. -/
def msgToLua (env : RecvEnv) (k : Kernel) (m : Kmsg) : Except Fault RVal × Kernel :=
  match deserialize env (maxDepth + 1) (.start k m) with
  | (.ok v, s) => (.ok v, s.k.msgDispose { m with bufs := s.bufs })
  | (.error .raise, s) => (.error .raise, { s.k with lost := m.refs ++ s.k.lost })
  | (.error e, s) =>
    (.error e, (mintedUndo s.k env.proc s.minted).msgDispose { m with bufs := s.bufs })

end Nlos
