import Nlos.Kernel.Port

/-!
# Lua values as the kernel sees them

What the serializer can be handed and what it can build. A table is an address in a `LuaHeap`, so
a value may share tables and contain itself. A float is its 64 bits: the kernel only copies it,
and lua's own rules for table keys are the one place where the number behind the bits matters.
-/

namespace Nlos

/-! ## Floats as table keys -/

namespace Double

def exponent (b : BitVec 64) : Nat := b.toNat / 2 ^ 52 % 2 ^ 11

def fraction (b : BitVec 64) : Nat := b.toNat % 2 ^ 52

def negative (b : BitVec 64) : Bool := b.toNat / 2 ^ 63 == 1

def isNaN (b : BitVec 64) : Bool := exponent b == 2047 && fraction b != 0

/-- The integer a float is equal to, if it is one and a `lua_Integer` can hold it. -/
def toInteger (b : BitVec 64) : Option LuaInteger :=
  let e := exponent b
  let m := 2 ^ 52 + fraction b
  let signed (n : Nat) : LuaInteger :=
    if negative b then -(BitVec.ofNat 64 n) else BitVec.ofNat 64 n
  if e = 0 ∧ fraction b = 0 then some 0
  else if e < 1023 then none
  else if 1023 + 63 ≤ e then
    if e = 1023 + 63 ∧ fraction b = 0 ∧ negative b then some (BitVec.ofNat 64 (2 ^ 63)) else none
  else if e - 1023 ≤ 52 then
    if m % 2 ^ (52 - (e - 1023)) = 0 then some (signed (m / 2 ^ (52 - (e - 1023)))) else none
  else some (signed (m * 2 ^ (e - 1023 - 52)))

end Double

/-! ## What a proc may send -/

/-- A lua value. `buf` is a `los.buf` userdata, by its place among the proc's buffers; `other` is
a function, a thread, or any other userdata. -/
inductive LVal where
  | nil
  | bool (b : Bool)
  | int (n : LuaInteger)
  | num (bits : BitVec 64)
  | str (s : List UInt8)
  | table (t : Nat)
  | buf (b : Nat)
  | other
deriving DecidableEq, Repr

/-- What lua stores as a table key: not nil, not NaN, and a float only where no integer is equal
to it. -/
def LVal.isKey : LVal → Bool
  | .nil => false
  | .num b => !Double.isNaN b && (Double.toInteger b).isNone
  | _ => true

/-- The tables of a lua state, each as its pairs in `lua_next` order. A key stands once in a
table, is one lua can store, and has a value. -/
structure LuaHeap where
  tables : Nat → List (LVal × LVal)
  nodup : ∀ t, ((tables t).map Prod.fst).Nodup
  keys : ∀ t, ∀ e ∈ tables t, e.1.isKey = true
  vals : ∀ t, ∀ e ∈ tables t, e.2 ≠ .nil

def LuaHeap.empty : LuaHeap := ⟨fun _ => [], fun _ => List.nodup_nil, nofun, nofun⟩

/-- A state whose only table is table 0, with the one pair given. -/
def LuaHeap.single (key val : LVal) (hk : key.isKey = true) (hv : val ≠ .nil) : LuaHeap where
  tables t := if t = 0 then [(key, val)] else []
  nodup t := by
    split
    · exact List.nodup_cons.mpr ⟨List.not_mem_nil, List.nodup_nil⟩
    · exact List.nodup_nil
  keys t e he := by
    split at he
    · rw [List.mem_singleton.mp he]
      exact hk
    · cases he
  vals t e he := by
    split at he
    · rw [List.mem_singleton.mp he]
      exact hv
    · cases he

def rightKey : List UInt8 := [0x5f, 0x5f, 0x72, 0x69, 0x67, 0x68, 0x74]

def bufKey : List UInt8 := [0x5f, 0x5f, 0x62, 0x75, 0x66]

def LuaHeap.rawget (h : LuaHeap) (t : Nat) (key : List UInt8) : LVal :=
  match (h.tables t).find? (fun e => e.1 == .str key) with
  | some e => e.2
  | none => .nil

/-! ## What a proc may receive -/

mutual

/-- A lua value as `deserialize` builds it: a fresh tree. `buf` is a buffer of the receiver, by
its place. -/
inductive RVal where
  | nil
  | bool (b : Bool)
  | int (n : LuaInteger)
  | num (bits : BitVec 64)
  | str (s : List UInt8)
  | table (p : RPairs)
  | buf (b : Nat)

/-- The pairs of a table, in the order they were set. -/
inductive RPairs where
  | nil
  | cons (k v : RVal) (rest : RPairs)

end

deriving instance DecidableEq for RVal, RPairs

/-- A key under the name lua stores it by. -/
def RVal.normal : RVal → RVal
  | .num b => match Double.toInteger b with
    | some n => .int n
    | none => .num b
  | v => v

/-- Two keys that lua takes for one. Every table and buffer of a received value is a new object,
equal to no other. -/
def RVal.sameKey : RVal → RVal → Bool
  | .table _, _ => false
  | .buf _, _ => false
  | a, b => a == b

namespace RPairs

/-- The pair is added, or its value takes the place of the one under the same key. -/
def put : RPairs → RVal → RVal → RPairs
  | .nil, k, v => .cons k v .nil
  | .cons k' v' rest, k, v => if k'.sameKey k then .cons k' v rest else .cons k' v' (rest.put k v)

def erase : RPairs → RVal → RPairs
  | .nil, _ => .nil
  | .cons k' v' rest, k => if k'.sameKey k then rest else .cons k' v' (rest.erase k)

/-- `lua_settable` on a table without a metatable: a nil or NaN key raises, and a nil value
removes the key. -/
def settable (t : RPairs) (k v : RVal) : Option RPairs :=
  match k with
  | .nil => none
  | .num b => if Double.isNaN b then none else some (set k.normal)
  | k => some (set k)
where
  set (k : RVal) : RPairs :=
    match v with
    | .nil => t.erase k
    | v => t.put k v

end RPairs

end Nlos
