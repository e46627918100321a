import Nlos.Lib.Bytes
import Nlos.Lib.Fallible
import Nlos.Kernel.Lua

/-!
# Serializing

The sending half of `src/serialize.c`. The walk takes a reference for each right it writes, while
it goes. It ends in one of three ways: it returns 0, it returns -1, or a helper raises a lua error
and the walk is left by `longjmp`. In all three, what it has taken stays taken.
-/

namespace Nlos

open Bytes Fallible

/-- Leaving a walk early: with `return -1`, or by a lua error. -/
inductive Stop where
  | reject
  | raise
deriving DecidableEq, Repr

/-- `struct wbuf`. `refs` is `refs[]` with `refrecv[]`, `bufs` is `bufs`, `bufown` the handles. -/
structure WBuf where
  data : List UInt8
  cap : Nat
  refs : List InRef
  bufs : List MsgBuf
  bufown : List Nat
deriving DecidableEq

def WBuf.zero : WBuf := ⟨[], 0, [], [], []⟩

/-- What a walk carries along: the kernel, the buffer, and how often it has asked for stack. -/
structure SerState where
  k : Kernel
  w : WBuf
  visits : Nat

/-- What is fixed for one send: who sends, the tables of that lua state, and the answers of the
allocators, `stackOk n` to the `n`th `lua_checkstack`, `reallocOk c` to a `realloc` to `c` bytes,
`kmsgOk` to the `malloc` of the `struct kmsg`. -/
structure SendEnv where
  proc : Nat
  heap : LuaHeap
  stackOk : Nat → Bool
  reallocOk : Nat → Bool
  kmsgOk : Bool

abbrev Ser := Fallible Stop SerState

/-- Doubling from `cap` until `need` fits, at most `n` times. -/
def growTo : Nat → Nat → Nat → Nat
  | 0, cap, _ => cap
  | n + 1, cap, need => if cap < need then growTo n (cap * 2) need else cap

/-- The capacity `wput` asks `realloc` for. The doubling starts at 1 or more and `need` is at most
`MAXMSG`, so 17 doublings are enough. -/
def newCap (cap need : Nat) : Nat := min (growTo 17 (if cap = 0 then 256 else cap * 2) need) maxMsg

/-- The capacity after writing `n` bytes behind `len`, or nothing where `wput` returns -1. -/
def wroom (reallocOk : Nat → Bool) (len cap n : Nat) : Option Nat :=
  if len + n > cap then
    if len + n > maxMsg then none
    else if reallocOk (newCap cap (len + n)) then some (newCap cap (len + n)) else none
  else some cap

namespace Ser

def wput (env : SendEnv) (src : List UInt8) : Ser Unit := do
  let s ← get
  match wroom env.reallocOk s.w.data.length s.w.cap src.length with
  | none => fail .reject
  | some cap => put { s with w := { s.w with data := s.w.data ++ src, cap := cap } }

def wbyte (env : SendEnv) (c : UInt8) : Ser Unit := wput env [c]

def checkstack (env : SendEnv) : Ser Unit := do
  let s ← get
  put { s with visits := s.visits + 1 }
  guard (env.stackOk s.visits) .reject

/-- The reference taken for a right that was written: its entry and its counts. -/
def takeRef (r : Right) (s : SerState) : SerState :=
  { s with
    k := s.k.modPort r.port (Kernel.addRef r.recv)
    w := { s.w with refs := s.w.refs ++ [⟨r.port.idx, r.recv⟩] } }

/-- The `{__right = handle}` case of `serialize`. -/
def putRight (env : SendEnv) (h : LuaInteger) : Ser Unit := do
  let s ← get
  match s.k.rightGet env.proc h with
  | none => fail .reject
  | some r =>
    guard (s.w.refs.length < maxMsgRights) .reject
    wbyte env 'R'.toUInt8
    wput env (le 2 r.port.idx)
    wbyte env (if r.recv then 1 else 0)
    modify (takeRef r)

def luabuf (k : Kernel) (proc b : Nat) : Option LuaBuf := (k.procv[proc]?).bind (·.bufs[b]?)

/-- `luabuf_borrow`: a buffer that may travel is not given away, not a view, not read-only and
not looked at by a view. -/
def luabufBorrow (k : Kernel) (proc b : Nat) : Option LuaBuf :=
  match luabuf k proc b with
  | none => none
  | some lb => if lb.p.isSome && lb.owned && !lb.ro && lb.views == 0 then some lb else none

def lendBuf (b : Nat) (lb : LuaBuf) (s : SerState) : SerState :=
  { s with w := { s.w with
    bufs := s.w.bufs ++ [⟨lb.p, lb.len, lb.sized⟩]
    bufown := s.w.bufown ++ [b] } }

def putBuf (env : SendEnv) (b : Nat) : Ser Unit := do
  let s ← get
  match luabufBorrow s.k env.proc b with
  | none => fail .reject
  | some lb =>
    guard (s.w.bufs.length < maxMsgBufs) .reject
    -- storage travels once
    guard (!s.w.bufown.contains b) .reject
    wbyte env 'M'.toUInt8
    wbyte env (UInt8.ofNat s.w.bufs.length)
    modify (lendBuf b lb)

/-- A string, or the bytes of a buffer that is copied. -/
def putStr (env : SendEnv) (s : List UInt8) : Ser Unit := do
  wbyte env 'S'.toUInt8
  wput env (le 4 s.length)
  wput env s

/-- The bare `los.buf` case: `luabuf_bytes` raises where the bytes were given away. -/
def copyBuf (env : SendEnv) (b : Nat) : Ser Unit := do
  let s ← get
  match luabuf s.k env.proc b with
  | none => fail .reject
  | some lb =>
    match lb.p with
    | none => fail .raise
    | some c => putStr env c.bytes

def pairs (walk : LVal → Ser Unit) : List (LVal × LVal) → Ser Unit
  | [] => pure ()
  | (k, v) :: rest => do
    walk k
    walk v
    pairs walk rest

/-- A table that is neither a right nor a buffer: the count is left open, and patched once the
pairs are written. -/
def putTable (env : SendEnv) (walk : LVal → Ser Unit) (es : List (LVal × LVal)) : Ser Unit := do
  let s ← get
  let countpos := s.w.data.length
  wbyte env 'B'.toUInt8
  wput env (le 4 0)
  pairs walk es
  modify fun s =>
    { s with w := { s.w with data := overwrite s.w.data (countpos + 1) (le 4 es.length) } }

end Ser

open Ser in
/-- `serialize`. The first argument is how many levels are left: `MAXDEPTH + 1 - depth`. -/
def serialize (env : SendEnv) : Nat → LVal → Ser Unit
  | 0, _ => fail .reject
  | d + 1, v => do
    checkstack env
    match v with
    | .nil => wbyte env 'N'.toUInt8
    | .bool b => wbyte env (if b then 'T'.toUInt8 else 'F'.toUInt8)
    | .int n => do
      wbyte env 'I'.toUInt8
      wput env (le 8 n.toNat)
    | .num bits => do
      wbyte env 'D'.toUInt8
      wput env (le 8 bits.toNat)
    | .str s => putStr env s
    | .table t =>
      match env.heap.rawget t rightKey with
      | .nil =>
        match env.heap.rawget t bufKey with
        | .nil => putTable env (serialize env d) (env.heap.tables t)
        | .buf b => putBuf env b
        | _ => fail .reject
      | .int h => putRight env h
      | _ => fail .reject
    | .buf b => copyBuf env b
    | .other => fail .reject

def sizehint (h : LuaHeap) : LVal → Nat
  | .str s => s.length + 16
  | .table t => 16 + ((h.tables t).map fun e => weigh e.2 + weigh e.1).sum
  | _ => 0
where
  weigh : LVal → Nat
    | .str s => s.length + 8
    | _ => 16

def wreserve (reallocOk : Nat → Bool) (n : Nat) : WBuf :=
  if n < 256 ∨ n > maxMsg then .zero
  else if reallocOk n then { WBuf.zero with cap := n } else .zero

def SendEnv.start (env : SendEnv) (k : Kernel) (v : LVal) : SerState :=
  ⟨k, wreserve env.reallocOk (sizehint env.heap v), 0⟩

end Nlos
