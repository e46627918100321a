import Nlos.Native.Powers

/-!
# X25519

`x25519` of native.c, and the function of RFC 7748 it stands for. The RFC swaps its two pairs when
the bit of the scalar changes and leaves the swap pending in between; the source swaps before and
after every step. The values agree exactly, not only as quotients (`Same`).
-/

namespace Nlos.Native

open Checked Bytes

/-! ## The source -/

/-- The four elements that a step of the ladder works on. -/
structure Ladder where
  a : Gf
  b : Gf
  c : Gf
  d : Gf

def Ladder.swap (s : Ladder) (r : BitVec 32) : Ladder :=
  let ab := sel25519 s.a s.b r
  let cd := sel25519 s.c s.d r
  ⟨ab.1, ab.2, cd.1, cd.2⟩

/-- The fixed sequence of a step, with the source's reuse of its temporaries. -/
def ladderBody (x : Gf) (s : Ladder) : Run Ladder := do
  let e ← fA s.a s.c
  let a ← fZ s.a s.c
  let c ← fA s.b s.d
  let b ← fZ s.b s.d
  let d ← callS e
  let f ← callS a
  let a ← callM c a
  let c ← callM b e
  let e ← fA a c
  let a ← fZ a c
  let b ← callS a
  let c ← fZ d f
  let a ← callM c a24
  let a ← fA a d
  let c ← callM c a
  let a ← callM d f
  let d ← callM b x
  let b ← callS e
  return ⟨a, b, c, d⟩

def ladderStep (z : Bytes32) (x : Gf) (s : Ladder) (i : Nat) : Run Ladder := do
  let r ← scalarBit z i
  let s ← ladderBody x (s.swap r)
  return s.swap r

/-- The scalar with its three low bits cleared and its two high bits fixed. -/
def clamp (n : Bytes32) : Bytes32 :=
  let z := n.set 31 ((getElem n 31 last32 &&& 127) ||| 64) last32
  z.set 0 (getElem z 0 first32 &&& 248) first32

def Ladder.start (x : Gf) : Ladder := ⟨gf1, x, gf0, gf1⟩

def x25519 (n p : Bytes32) : Run Bytes32 := do
  let x ← unpack25519 p
  let s ← (downFrom 255).foldlM (ladderStep (clamp n) x) (.start x)
  let c ← inv25519 s.c
  let a ← callM s.a c
  pack25519 a

/-! ## RFC 7748 -/

namespace Rfc7748

structure State where
  x2 : ZMod P
  z2 : ZMod P
  x3 : ZMod P
  z3 : ZMod P
  swap : Bool

def State.cswap (s : State) (swap : Bool) : State :=
  if swap then { s with x2 := s.x3, x3 := s.x2, z2 := s.z3, z3 := s.z2 } else s

/-- The assignments of a step between the conditional swaps. -/
def State.body (s : State) (x1 : ZMod P) : State :=
  let A := s.x2 + s.z2
  let AA := A ^ 2
  let B := s.x2 - s.z2
  let BB := B ^ 2
  let E := AA - BB
  let C := s.x3 + s.z3
  let D := s.x3 - s.z3
  let DA := D * A
  let CB := C * B
  { s with
    x3 := (DA + CB) ^ 2, z3 := x1 * (DA - CB) ^ 2, x2 := AA * BB, z2 := E * (AA + 121665 * E) }

def step (k : Nat) (x1 : ZMod P) (s : State) (t : Nat) : State :=
  let kt := k.testBit t
  let s := s.cswap (s.swap ^^ kt)
  { s.body x1 with swap := kt }

def start (u : ZMod P) : State := ⟨1, 0, u, 1, false⟩

def decodeScalar25519 (k : Bytes32) : Nat :=
  let k := k.set 0 (getElem k 0 first32 &&& 248) first32
  let k := k.set 31 (getElem k 31 last32 &&& 127) last32
  let k := k.set 31 (getElem k 31 last32 ||| 64) last32
  number k

def decodeUCoordinate (u : Bytes32) : ZMod P :=
  (number (u.set 31 (getElem u 31 last32 &&& 0x7f) last32) : Nat)

def ladder (k : Nat) (u : ZMod P) : ZMod P :=
  let s := (downFrom 255).foldl (step k u) (start u)
  let s := s.cswap s.swap
  s.x2 * s.z2 ^ (P - 2)

def encodeUCoordinate (u : ZMod P) : List UInt8 := le 32 u.val

def x25519 (k u : Bytes32) : List UInt8 :=
  encodeUCoordinate (ladder (decodeScalar25519 k) (decodeUCoordinate u))

end Rfc7748

/-! ## A step -/

/-- The elements of the source hold the values of the RFC. -/
structure Matches (s : Ladder) (r : Rfc7748.State) : Prop where
  a : Holds r.x2 s.a
  c : Holds r.z2 s.c
  b : Holds r.x3 s.b
  d : Holds r.z3 s.d

/-- The same, once the RFC's pending swap is made. -/
def Same (s : Ladder) (r : Rfc7748.State) : Prop := Matches s (r.cswap r.swap)

theorem holds_gf0 : Holds 0 gf0 := ⟨by decide, by simp [val, weigh, gf0, Fin.sum_univ_succ]⟩

theorem holds_gf1 : Holds 1 gf1 :=
  ⟨by decide, by simp [val, weigh, gf1, weight, exponent, Fin.sum_univ_succ]⟩

theorem holds_a24 : Holds 121665 a24 :=
  ⟨by decide, by simp [val, weigh, a24, weight, exponent, Fin.sum_univ_succ]⟩

/-- The bound of a sum or difference of two results. -/
theorem sum_le_operandMax : 2 ^ 25 + 2 ^ 25 ≤ operandMax := by decide

variable {x : Gf} {s : Ladder} {r : Rfc7748.State}

/-- The sequence of a step computes the RFC's assignments. -/
theorem ladderBody_yields {x1 : ZMod P} (hx : Holds x1 x) (start : Matches s r) :
    Yields Fine (ladderBody x s) fun s' => Matches s' (r.body x1) := by
  obtain ⟨ha, hc, hb, hd⟩ := start
  have one := result_le_operandMax
  have two := sum_le_operandMax
  refine .bind (fA_yields ha hc (by decide)) fun e he => ?_
  refine .bind (fZ_yields ha hc (by decide)) fun a ha => ?_
  refine .bind (fA_yields hb hd (by decide)) fun c hc => ?_
  refine .bind (fZ_yields hb hd (by decide)) fun b hb => ?_
  refine .bind (callS_yields he two) fun d hd => ?_
  refine .bind (callS_yields ha two) fun f hf => ?_
  refine .bind (callM_yields hc ha two two) fun a ha => ?_
  refine .bind (callM_yields hb he two two) fun c hc => ?_
  refine .bind (fA_yields ha hc (by decide)) fun e he => ?_
  refine .bind (fZ_yields ha hc (by decide)) fun a ha => ?_
  refine .bind (callS_yields ha two) fun b hb => ?_
  refine .bind (fZ_yields hd hf (by decide)) fun c hc => ?_
  refine .bind (callM_yields hc holds_a24 two one) fun a ha => ?_
  refine .bind (fA_yields ha hd (by decide)) fun a ha => ?_
  refine .bind (callM_yields hc ha two two) fun c hc => ?_
  refine .bind (callM_yields hd hf one one) fun a ha => ?_
  refine .bind (callM_yields hb hx one one) fun d hd => ?_
  refine .bind (callS_yields he two) fun b hb => ?_
  refine .pure ⟨?_, ?_, ?_, ?_⟩
  · convert ha using 1
    unfold Rfc7748.State.body
    ring
  · convert hc using 1
    unfold Rfc7748.State.body
    ring
  · convert hb using 1
    unfold Rfc7748.State.body
    ring
  · convert hd using 1
    unfold Rfc7748.State.body
    ring

theorem Matches.swap (h : Matches s r) (bit : Bool) :
    Matches (s.swap (if bit then 1 else 0)) (r.cswap bit) := by
  obtain ⟨a, c, b, d⟩ := h
  unfold Ladder.swap
  rw [sel25519_eq a.1 b.1 (by norm_num), sel25519_eq c.1 d.1 (by norm_num)]
  cases bit with
  | false => exact ⟨a, c, b, d⟩
  | true => exact ⟨b, d, a, c⟩

theorem Rfc7748.State.cswap_cswap (r : Rfc7748.State) (p q : Bool) :
    (r.cswap p).cswap q = r.cswap (p ^^ q) := by
  cases p <;> cases q <;> rfl

theorem Matches.pending {k : Bool} (h : Matches s (r.cswap k)) : Same s { r with swap := k } := by
  obtain ⟨a, c, b, d⟩ := h
  cases k <;> exact ⟨a, c, b, d⟩

theorem ladderStep_yields {x1 : ZMod P} (hx : Holds x1 x) (z : Bytes32) {i : Nat}
    (hi : i < 256) (same : Same s r) :
    Yields Fine (ladderStep z x s i) fun s' => Same s' (Rfc7748.step (number z) x1 r i) := by
  refine .bind (.lift ⟨_, scalarBit_eq z hi, rfl⟩) fun bit hbit => ?_
  subst hbit
  -- the swap that the RFC has pending and the source's first one are one swap
  have before := same.swap ((number z).testBit i)
  rw [Rfc7748.State.cswap_cswap] at before
  refine .bind (ladderBody_yields hx before) fun s' after => .pure ?_
  exact (after.swap ((number z).testBit i)).pending

/-! ## The whole ladder -/

theorem number_clamp (n : Bytes32) : number (clamp n) = Rfc7748.decodeScalar25519 n := by
  unfold clamp Rfc7748.decodeScalar25519
  congr 1
  ext i hi
  rcases eq_or_ne i 0 with rfl | zero
  · simp
  · rcases eq_or_ne i 31 with rfl | last
    · simp
    · simp [zero.symm, last.symm]

theorem holds_coordinate (p : Bytes32) :
    ∃ x, unpack25519 p = some x ∧ Holds (Rfc7748.decodeUCoordinate p) x := by
  obtain ⟨x, run, limbs, same⟩ := unpack25519_spec p
  refine ⟨x, run, limbs, ?_⟩
  rw [same, Rfc7748.decodeUCoordinate, number_mask]

/-- After any of the steps, the source's elements hold the RFC's values. -/
theorem steps_yields {x1 : ZMod P} (hx : Holds x1 x) (n : Bytes32) (m : Nat) :
    Yields Fine (((downFrom 255).take m).foldlM (ladderStep (clamp n) x) (.start x)) fun s =>
      Same s (((downFrom 255).take m).foldl
        (Rfc7748.step (Rfc7748.decodeScalar25519 n) x1) (Rfc7748.start x1)) := by
  rw [← number_clamp]
  refine Yields.foldlM (f := ladderStep (clamp n) x)

    (fun s r i hi same => ladderStep_yields hx (clamp n) ?_ same) ?_
  · have := List.mem_of_mem_take hi
    unfold downFrom at this
    rw [List.mem_reverse, List.mem_range] at this
    omega
  · exact ⟨holds_gf1, holds_gf0, hx, holds_gf1⟩

theorem pack25519_encodes {x : ZMod P} {a : Gf} {m : Nat} (h : Stands m x a) (hm : m ≤ 2 ^ 31) :
    ∃ o, pack25519 a = some o ∧ number o = x.val := by
  obtain ⟨o, run, small, same⟩ := pack25519_spec (h.1.mono hm)
  refine ⟨o, run, ?_⟩
  rw [← h.2, ← same, ZMod.val_natCast, Nat.mod_eq_of_lt small]

theorem x25519_yields (n p : Bytes32) : Yields Fine (x25519 n p) fun o => number o =
      (Rfc7748.ladder (Rfc7748.decodeScalar25519 n) (Rfc7748.decodeUCoordinate p)).val := by
  obtain ⟨x, read, hx⟩ := holds_coordinate p
  refine .bind (.lift ⟨x, read, rfl⟩) fun x' e => ?_
  subst e
  have whole := steps_yields hx n 255
  rw [List.take_of_length_le (by simp [downFrom])] at whole
  refine .bind whole fun s same => ?_
  have one := result_le_operandMax
  refine .bind (inv25519_yields same.c) fun c hc => ?_
  refine .bind (callM_yields same.a hc one one) fun a ha => ?_
  obtain ⟨o, run, num⟩ := pack25519_encodes ha (by norm_num)
  exact .lift ⟨o, run, num⟩

theorem fine_nil : Fine [] := fun _ h => absurd h List.not_mem_nil

/-- For every scalar and coordinate: after any number of steps the two pairs of the source have the
values of the RFC's (its pending swap made), the inversion is the power by `p - 2`, and the bytes
written are the RFC's. -/
theorem x25519_is_rfc7748 (n p : Bytes32) : (∀ m, ∃ x s log, unpack25519 p = some x ∧
      ((downFrom 255).take m).foldlM (ladderStep (clamp n) x) (.start x) [] = some (s, log) ∧
      let r := ((downFrom 255).take m).foldl
        (Rfc7748.step (Rfc7748.decodeScalar25519 n) (Rfc7748.decodeUCoordinate p))
        (Rfc7748.start (Rfc7748.decodeUCoordinate p))
      val s.a = (r.cswap r.swap).x2 ∧ val s.c = (r.cswap r.swap).z2 ∧
        val s.b = (r.cswap r.swap).x3 ∧ val s.d = (r.cswap r.swap).z3) ∧
    (∀ i, Limbs (2 ^ 25) i → ∃ o log, inv25519 i [] = some (o, log) ∧ val o = val i ^ (P - 2)) ∧
    ∃ o log, x25519 n p [] = some (o, log) ∧ o.toList = Rfc7748.x25519 n p ∧
      (number o = 0 ↔
        Rfc7748.ladder (Rfc7748.decodeScalar25519 n) (Rfc7748.decodeUCoordinate p) = 0) := by
  refine ⟨fun m => ?_, fun i hi => ?_, ?_⟩
  · obtain ⟨x, read, hx⟩ := holds_coordinate p
    obtain ⟨s, log, run, -, same⟩ := steps_yields hx n m [] fine_nil
    exact ⟨x, s, log, read, run, same.a.2, same.c.2, same.b.2, same.d.2⟩
  · obtain ⟨o, log, run, -, power⟩ := inv25519_yields ⟨hi, rfl⟩ [] fine_nil
    exact ⟨o, log, run, power.2⟩
  · obtain ⟨o, log, run, -, num⟩ := x25519_yields n p [] fine_nil
    refine ⟨o, log, run, ?_, ?_⟩
    · unfold Rfc7748.x25519 Rfc7748.encodeUCoordinate
      rw [← num, number]
      have back := le_ofLe o.toList
      rw [Vector.length_toList] at back
      exact back.symm
    · rw [num, ZMod.val_eq_zero]

end Nlos.Native
