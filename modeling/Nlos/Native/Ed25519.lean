import Nlos.Native.X25519

/-!
# Ed25519 of native.c

Points in extended coordinates, their addition, the scalar ladder, reduction modulo the group
order, and the signature routines over them. SHA-512 is a parameter: the routines only hash.
-/

namespace Nlos.Native

open Checked

/-- The order of the base point, little-endian. -/
def Lorder : Vector Int 32 := #v[
  0xed, 0xd3, 0xf5, 0x5c, 0x1a, 0x63, 0x12, 0x58, 0xd6, 0x9c, 0xf7, 0xa2, 0xde, 0xf9, 0xde, 0x14,
  0, 0, 0, 0, 0, 0, 0, 0, 0, 0, 0, 0, 0, 0, 0, 0x10]

/-! ## Points -/

structure Point where
  x : Gf
  y : Gf
  z : Gf
  t : Gf

/-- Every read of the second operand comes before the first write, so it may be the first. -/
def edAdd (p q : Point) : Run Point := do
  let a ← fZ p.y p.x
  let t ← fZ q.y q.x
  let a ← callM a t
  let b ← fA p.x p.y
  let t ← fA q.x q.y
  let b ← callM b t
  let c ← callM p.t q.t
  let c ← callM c D2
  let d ← callM p.z q.z
  let d ← fA d d
  let e ← fZ b a
  let f ← fZ d c
  let g ← fA d c
  let h ← fA b a
  let x ← callM e f
  let y ← callM h g
  let z ← callM g f
  let t ← callM e h
  return ⟨x, y, z, t⟩

def edCswap (p q : Point) (b : BitVec 32) : Point × Point :=
  let x := sel25519 p.x q.x b
  let y := sel25519 p.y q.y b
  let z := sel25519 p.z q.z b
  let t := sel25519 p.t q.t b
  (⟨x.1, y.1, z.1, t.1⟩, ⟨x.2, y.2, z.2, t.2⟩)

def edPack (p : Point) : Run Bytes32 := do
  let zi ← inv25519 p.z
  let tx ← callM p.x zi
  let ty ← callM p.y zi
  let r ← pack25519 ty
  let b ← par25519 tx
  return r.set 31 (getElem r 31 last32 ^^^ (b <<< 7)) last32

def edScalarmultStep (s : Bytes32) (pq : Point × Point) (i : Nat) : Run (Point × Point) := do
  let b ← scalarBit s i
  let pq := edCswap pq.1 pq.2 b
  let q ← edAdd pq.2 pq.1
  let p ← edAdd pq.1 pq.1
  return edCswap p q b

def edScalarmult (q : Point) (s : Bytes32) : Run Point := do
  let pq ← (downFrom 256).foldlM (edScalarmultStep s) (⟨gf0, gf1, gf1, gf0⟩, q)
  return pq.1

def edScalarbase (s : Bytes32) : Run Point := do
  let t ← callM X Y
  edScalarmult ⟨X, Y, gf1, t⟩ s

/-! ## Scalars -/

theorem row_lt (m : Fin 32) : m.val + 32 < 64 := by omega

theorem cell_lt (m : Fin 32) (k : Fin 20) : m.val + k.val < 64 := by omega

theorem lt20 (k : Fin 20) : k.val < 32 := by omega

theorem lt64 (i : Fin 64) : i.val < 64 := i.isLt

theorem middle64 : 31 < 64 := by decide

/-- One turn of the inner loop of the first phase, with its carry. `m` is the source's `i - 32`
and `k` its `j - (i - 32)`. -/
def modLTurn (m : Fin 32) (s : Vector Int 64 × Int) (k : Fin 20) :
    Option (Vector Int 64 × Int) := do
  let a ← int64 (16 * getElem s.1 (m.val + 32) (row_lt m))
  let a ← int64 (a * getElem Lorder k.val (lt20 k))
  let d ← int64 (s.2 - a)
  let x ← addAt 63 s.1 (m + k) d
  let r ← int64 (getElem x (m.val + k.val) (cell_lt m k) + 128)
  let carry := r >>> (8 : Nat)
  let e ← int64 (carry <<< (8 : Nat))
  let x ← addAt 63 x (m + k) (-e)
  return (x, carry)

/-- The digit `x[m + 32]` folded into the digits below it. -/
def modLFold (x : Vector Int 64) (m : Fin 32) : Option (Vector Int 64) := do
  let s ← (List.finRange 20).foldlM (modLTurn m) (x, 0)
  let x ← addAt 63 s.1 (m + 20) s.2
  return x.set (m + 32) 0 (row_lt m)

def modLTop (s : Vector Int 64 × Int) (j : Fin 32) : Option (Vector Int 64 × Int) := do
  let m ← int64 ((getElem s.1 31 middle64 >>> (4 : Nat)) * getElem Lorder j.val (lt32 j))
  let d ← int64 (s.2 - m)
  let x ← addAt 63 s.1 j d
  let carry := x[j.val] >>> (8 : Nat)
  return (x.set j (x[j.val] % 2 ^ 8), carry)

def modLFix (carry : Int) (x : Vector Int 64) (j : Fin 32) : Option (Vector Int 64) := do
  let m ← int64 (carry * getElem Lorder j.val (lt32 j))
  addAt 63 x j (-m)

/-- One turn of the last phase, that writes the bytes. -/
def modLWrite (s : Vector Int 64 × Bytes32) (i : Fin 32) : Option (Vector Int 64 × Bytes32) := do
  let x ← addAt 63 s.1 (i + 1) (s.1[i.val] >>> (8 : Nat))
  return (x, s.2.set i (UInt8.ofInt x[i.val]) (lt32 i))

/-- `x` modulo the group order, over a 64-digit little-endian value. -/
def modL (x : Vector Int 64) : Option Bytes32 := do
  let x ← (List.finRange 32).reverse.foldlM modLFold x
  let s ← (List.finRange 32).foldlM modLTop (x, 0)
  let x ← (List.finRange 32).foldlM (modLFix s.2) s.1
  let s ← (List.finRange 32).foldlM modLWrite (x, Vector.replicate 32 0)
  return s.2

/-- `reduce`: the result is in the first half and the second half is zero. -/
def reduce (r : Vector UInt8 64) : Option Bytes32 :=
  modL (Vector.ofFn fun i : Fin 64 => ((getElem r i (lt64 i)).toNat : Int))

/-! ## Decompression -/

def otherRoot (bad : Bool) (x : Gf) : Run Gf := if bad then callM x I else return x

/-- The negative, where the parity is the one the key asks for. -/
def negateIf (same : Bool) (x : Gf) : Run Gf := if same then fZ gf0 x else return x

/-- Decompress a public key to its negative. -/
def unpackneg (pk : Bytes32) : Run (Option Point) := do
  let y ← unpack25519 pk
  let num ← callS y
  let den ← callM num D
  let num ← fZ num gf1
  let den ← fA gf1 den
  let den2 ← callS den
  let den4 ← callS den2
  let den6 ← callM den4 den2
  let t ← callM den6 num
  let t ← callM t den
  let t ← pow2523 t
  let t ← callM t num
  let t ← callM t den
  let t ← callM t den
  let x ← callM t den
  let chk ← callS x
  let chk ← callM chk den
  let bad ← neq25519 chk num
  let x ← otherRoot bad x
  let chk ← callS x
  let chk ← callM chk den
  let bad ← neq25519 chk num
  if bad then
    return none
  else
    let par ← par25519 x
    let x ← negateIf (par == getElem pk 31 last32 >>> 7) x
    let t ← callM x y
    return some ⟨x, y, gf1, t⟩

/-! ## Signatures -/

section Signatures

variable (sha512 : List UInt8 → Vector UInt8 64)

def firstHalf (d : Vector UInt8 64) : Bytes32 := Vector.ofFn fun i : Fin 32 => d[i.val]

def secondHalf (d : Vector UInt8 64) : Bytes32 :=
  Vector.ofFn fun i : Fin 32 => getElem d (i.val + 32) (row_lt i)

/-- The clamped scalar and the nonce key, from a seed. -/
def edExpand (seed : Bytes32) : Vector UInt8 64 :=
  let d := sha512 seed.toList
  let d := d.set 0 (d[0] &&& 248)
  let d := d.set 31 (getElem d 31 middle64 &&& 127) middle64
  d.set 31 (getElem d 31 middle64 ||| 64) middle64

def edPublickey (seed : Bytes32) : Run Bytes32 := do
  let p ← edScalarbase (firstHalf (edExpand sha512 seed))
  edPack p

def signDigits (r h d : Bytes32) : Option (Vector Int 64) :=
  (List.finRange 32 ×ˢ List.finRange 32).foldlM
    (fun x (ij : Fin 32 × Fin 32) => do
      let m ← int64 ((h[ij.1].toNat : Int) * d[ij.2].toNat)
      addAt 63 x (ij.1.val + ij.2.val) m)
    (Vector.ofFn fun i : Fin 64 => if h : i.val < 32 then (r[i.val].toNat : Int) else 0)

def edSign (seed : Bytes32) (msg : List UInt8) : Run (Bytes32 × Bytes32) := do
  let d := edExpand sha512 seed
  let pk ← edPublickey sha512 seed
  let r ← reduce (sha512 ((secondHalf d).toList ++ msg))
  let p ← edScalarbase r
  let sig ← edPack p
  let h ← reduce (sha512 (sig.toList ++ pk.toList ++ msg))
  let x ← signDigits r h (firstHalf d)
  let s ← modL x
  return (sig, s)

/-- The comparison of a scalar with the group order, from its top byte down. -/
def canonical (s : Bytes32) : List (Fin 32) → Bool
  | [] => false
  | i :: l =>
    if (s[i].toNat : Int) > Lorder[i] then false
    else if (s[i].toNat : Int) < Lorder[i] then true
    else canonical s l

def edVerify (pk : Bytes32) (msg : List UInt8) (sig : Bytes32 × Bytes32) : Run Bool := do
  let q ← unpackneg pk
  match q with
  | none => return false
  | some q =>
    if canonical sig.2 (List.finRange 32).reverse then
      let h ← reduce (sha512 (sig.1.toList ++ pk.toList ++ msg))
      let p ← edScalarmult q h
      let q2 ← edScalarbase sig.2
      let p ← edAdd p q2
      let t ← edPack p
      return (List.finRange 32).foldl
        (fun diff i => diff ||| (getElem sig.1 i (lt32 i) ^^^ getElem t i (lt32 i))) 0 == 0
    else return false

end Signatures

end Nlos.Native
