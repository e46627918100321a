import Nlos.Lib.Checked

/-!
# Field elements of native.c

A field element `gf` is ten signed limbs, limb `i` of weight `2 ^ ceil (25.5 i)`, standing for a
residue modulo `2 ^ 255 - 19`. Sums and differences are taken limb by limb and not reduced; `fM`
and `fS` multiply out in 64 bits and reduce by a chain of twelve carries; `pack25519` finds the
one representative below `p` and writes it as bytes.

Every 32 and 64 bit operation of the source is made with `Checked.fit`, so a routine returns
nothing where the C would overflow. Shifts to the left are multiplications and shifts to the right
round down, as the source's comment on arithmetic shifts asks for.
-/

namespace Nlos.Native

open Checked

abbrev Gf := Vector Int 10

/-- Thirty-two bytes: a scalar, a coordinate or an encoded point. -/
abbrev Bytes32 := Vector UInt8 32

theorem lt10 (i : Fin 10) : i.val < 10 := i.isLt

theorem lt32 (i : Fin 32) : i.val < 32 := i.isLt

theorem last10 : 9 < 10 := by decide

theorem first32 : 0 < 32 := by decide

theorem last32 : 31 < 32 := by decide

abbrev int32 (x : Int) : Option Int := fit 31 x

abbrev int64 (x : Int) : Option Int := fit 63 x

def FW (i : Nat) : Nat := if i % 2 = 1 then 25 else 26

def gf0 : Gf := #v[0, 0, 0, 0, 0, 0, 0, 0, 0, 0]

def gf1 : Gf := #v[1, 0, 0, 0, 0, 0, 0, 0, 0, 0]

def a24 : Gf := #v[121665, 0, 0, 0, 0, 0, 0, 0, 0, 0]

def D : Gf := #v[-10913629, 13857413, -15372611, 6949391, 114729, -8787816, -6275908, -3247719,
  -18696448, 21499316]

def D2 : Gf := #v[-21827239, -5839606, -30745221, 13898782, 229458, 15978800, -12551817, -6495438,
  29715968, 9444199]

def X : Gf := #v[-14297830, -7645148, 16144683, -16471763, 27570974, -2696100, -26142465, 8378389,
  20764389, 8758491]

def Y : Gf := #v[-26843560, -6710886, 13421773, -13421773, 26843546, 6710886, -13421773, 13421773,
  -26843546, 26843546]

def I : Gf := #v[-32595792, -7943725, 9377950, 3500415, 12389472, -272473, -25146209, -2005654,
  326686, 11406482]

/-! ## Sums and differences -/

def fA (a b : Gf) : Option Gf := collect fun i => int32 (a[i] + b[i])

def fZ (a b : Gf) : Option Gf := collect fun i => int32 (a[i] - b[i])

/-! ## Carries -/

def FCARRY : List (Fin 10) := [0, 4, 1, 5, 2, 6, 3, 7, 4, 8, 9, 0]

def mul19 (x : Int) : Option Int := do
  let x16 ← int64 (x <<< (4 : Nat))
  let x2 ← int64 (x <<< (1 : Nat))
  let s ← int64 (x16 + x2)
  int64 (s + x)

/-- One carry: limb `k` is rounded to its own width and the rest goes to the next limb, from the
last one back to limb 0 nineteen times. -/
def carry (h : Gf) (k : Fin 10) : Option Gf := do
  let s ← int64 (h[k] + 2 ^ (FW k - 1))
  let c := s >>> FW k
  let d ← int64 (c <<< FW k)
  let r ← int64 (h[k] - d)
  let h := h.set k r
  if k = 9 then
    let m ← mul19 c
    addAt 63 h 0 m
  else
    addAt 63 h (k + 1) c

def fcarry (h : Gf) : Option Gf := FCARRY.foldlM carry h

def fstore (h : Gf) : Option Gf := do
  let h ← fcarry h
  collect fun i => int32 h[i]

/-! ## Products -/

/-- The index pairs of the loops over two elements, in the order of the loops. -/
def pairs : List (Fin 10 × Fin 10) := List.finRange 10 ×ˢ List.finRange 10

/-- The table of products, entry `i + j` of weight `2 ^ ceil (25.5 (i + j))`. -/
def products (a b : Gf) : Option (Vector Int 19) := do
  -- two odd limbs each carry half a bit more than their index says: the odd limbs of `b`, doubled
  let b2 ← collect fun j : Fin 10 => if j.val % 2 = 1 then int32 (2 * b[j]) else some b[j]
  pairs.foldlM
    (fun t x => do
      let p ← int64 (a[x.1] * if x.1.val % 2 = 1 then b2[x.2] else b[x.2])
      addAt 63 t (x.1.val + x.2.val) p)
    (Vector.replicate 19 0)

def doubleIf (c : Prop) [Decidable c] (p : Int) : Option Int := if c then int64 (p * 2) else some p

/-- The product of two limbs of one element: doubled for two odd limbs as above, and once more for
two different limbs. -/
def squareTerm (a : Gf) (x : Fin 10 × Fin 10) : Option Int := do
  let p ← int64 (a[x.1] * a[x.2])
  let p ← doubleIf (x.1.val % 2 = 1 ∧ x.2.val % 2 = 1) p
  doubleIf (x.1 ≠ x.2) p

/-- The table of products of an element with itself, each pair of limbs once. -/
def squares (a : Gf) : Option (Vector Int 19) :=
  (pairs.filter fun x => x.1 ≤ x.2).foldlM
    (fun t x => do
      let p ← squareTerm a x
      addAt 63 t (x.1.val + x.2.val) p)
    (Vector.replicate 19 0)

/-- Entry `i + 10` sits 255 bits above entry `i` and comes back to it nineteen times. -/
def wrap (t : Vector Int 19) : Option (Vector Int 19) :=
  (List.finRange 9).foldlM
    (fun t i => do
      let m ← mul19 t[i.val + 10]
      addAt 63 t i.val m)
    t

/-- The ten limbs that are left of a wrapped table. -/
def low (t : Vector Int 19) : Gf := Vector.ofFn fun i : Fin 10 => t[i.val]

def fM (a b : Gf) : Option Gf := do
  let t ← products a b
  let t ← wrap t
  fstore (low t)

def fS (a : Gf) : Option Gf := do
  let t ← squares a
  let t ← wrap t
  fstore (low t)

/-! ## Selection -/

/-- The two halves of one turn of the constant-time swap: a limb of `p` and of `q` under the mask
`-b`. -/
def swapLimb (b : BitVec 32) (p q : Int) : Int × Int :=
  let t := -b &&& (BitVec.ofInt 32 p ^^^ BitVec.ofInt 32 q)
  ((BitVec.ofInt 32 p ^^^ t).toInt, (BitVec.ofInt 32 q ^^^ t).toInt)

def sel25519 (p q : Gf) (b : BitVec 32) : Gf × Gf :=
  (Vector.ofFn fun i => (swapLimb b p[i] q[i]).1, Vector.ofFn fun i => (swapLimb b p[i] q[i]).2)

/-! ## Encoding -/

/-- Byte `k` of `o`, or'ed with the low byte of `x`. -/
def orAt (o : Bytes32) (k : Nat) (x : Int) : Option Bytes32 :=
  if h : k < 32 then some (o.set k (o[k] ||| UInt8.ofInt x)) else none

/-- The bits of a limb or'ed into four bytes, from bit `off` on. -/
def place (o : Bytes32) (off : Nat) (h : Int) : Option Bytes32 := do
  let low ← int64 (h <<< (off % 8))
  let o ← orAt o (off >>> 3) low
  let o ← orAt o ((off >>> 3) + 1) (h >>> (8 - off % 8))
  let o ← orAt o ((off >>> 3) + 2) (h >>> (16 - off % 8))
  orAt o ((off >>> 3) + 3) (h >>> (24 - off % 8))

def ripple (h : Gf) (i : Fin 9) : Option Gf := do
  let c := h[i.val] >>> FW i
  let h ← addAt 63 h (i + 1) c
  let d ← int64 (c <<< FW i)
  addAt 63 h i (-d)

/-- The multiple of `p` to take off: the carry out of 255 bits that adding 19 would give. -/
def quotient (h : Gf) : Option Int := do
  let m ← mul19 h[9]
  let s ← int64 (m + 2 ^ 24)
  (List.finRange 10).foldlM
    (fun q (i : Fin 10) => do
      let s ← int64 (h[i] + q)
      return s >>> FW i)
    (s >>> (25 : Nat))

/-- `h + 19 * q` as bit fields. The mask on the last limb keeps the low 25 bits of a two's
complement value. -/
def bitFields (h : Gf) (q : Int) : Option Gf := do
  let m ← mul19 q
  let h ← addAt 63 h 0 m
  let h ← (List.finRange 9).foldlM ripple h
  return h.set 9 (h[9] % 2 ^ 25)

def writeFields (h : Gf) : Option Bytes32 := do
  let r ← (List.finRange 10).foldlM
    (fun (r : Bytes32 × Nat) (i : Fin 10) => do
      let o ← place r.1 r.2 h[i]
      return (o, r.2 + FW i))
    (Vector.replicate 32 0, 0)
  return r.1

def pack25519 (n : Gf) : Option Bytes32 := do
  let h ← fcarry n
  let h ← fcarry h
  let q ← quotient h
  let h ← bitFields h q
  writeFields h

/-- Four bytes from bit `off` on, less the bits below it, to the width `w`. -/
def window (s : Bytes32) (off w : Nat) : Option Int :=
  if h : (off >>> 3) + 3 < 32 then
    let v : Nat := s[off >>> 3].toNat ||| s[(off >>> 3) + 1].toNat <<< 8 |||
      s[(off >>> 3) + 2].toNat <<< 16 ||| s[(off >>> 3) + 3].toNat <<< 24
    some ↑((v >>> (off % 8)) &&& (2 ^ w - 1))
  else none

/-- Where limb `i` starts: the widths of the limbs below it. -/
def offset (i : Nat) : Nat := ((List.range i).map FW).sum

def unpack25519 (n : Bytes32) : Option Gf := do
  let s := n.set 31 (n[31] &&& 0x7f)
  let h ← collect fun i : Fin 10 => window s (offset i) (FW i)
  fstore h

def neq25519 (a b : Gf) : Option Bool := do
  let p ← pack25519 a
  let q ← pack25519 b
  return (List.finRange 32).foldl (fun diff i => diff ||| (p[i] ^^^ q[i])) 0 != 0

def par25519 (a : Gf) : Option UInt8 := do
  let d ← pack25519 a
  return d[0] &&& 1

/-! ## Runs

What the routines above the field do is a run over field elements. Its state is the operands that
`fM` and `fS` have been given so far. -/

abbrev Run := StateT (List Gf) Option

def callM (a b : Gf) : Run Gf := do
  modify ([a, b] ++ ·)
  fM a b

def callS (a : Gf) : Run Gf := do
  modify (a :: ·)
  fS a

def scalarBit (z : Bytes32) (i : Nat) : Option (BitVec 32) :=
  if h : i >>> 3 < 32 then some (BitVec.ofNat 32 ((z[i >>> 3].toNat >>> (i % 8)) &&& 1)) else none

/-- The turns of a loop that counts from `n - 1` down to 0. -/
def downFrom (n : Nat) : List Nat := (List.range n).reverse

def inv25519 (i : Gf) : Run Gf :=
  (downFrom 254).foldlM
    (fun c a => do
      let c ← callS c
      if a ≠ 2 ∧ a ≠ 4 then callM c i else return c)
    i

/-- `x ^ ((p - 5) / 8)`, the square root of a decompression. -/
def pow2523 (i : Gf) : Run Gf :=
  (downFrom 251).foldlM
    (fun c a => do
      let c ← callS c
      if a ≠ 1 then callM c i else return c)
    i

end Nlos.Native
