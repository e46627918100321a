import Nlos.Native.Scalars

/-!
# The point routines over the field

The point routines of native.c compute, limb by limb, what the same formulas give over the field.
`Ext` is a point in extended coordinates over the field; `Rep` says that the limbs of a point stand
for one. Each routine is followed by the function on `Ext` that it computes.
-/

namespace Nlos.Native

open Checked Bytes

def d : ZMod P := 37095705934669439343138083508754565189542113879843219016388785533085940283555

/-- The square root of `-1` that `unpackneg` uses. -/
def sqrtm1 : ZMod P :=
  19681161376707505956807079304988542015446066515923890162744021073123829784752

def baseX : ZMod P := 15112221349535400772501151409588531511454012693041857206046113283949847762202

def baseY : ZMod P := 46316835694926478169428394003475163141307993866256225615783033603165251855960

variable {a b : Gf} {n m : Nat} {q : Point} {p : Point × Point}

theorem holds_constant (limbs : Limbs (2 ^ 25) a)
    (same : value a % P = (n % P : Nat)) : Holds (n : ZMod P) a := by
  refine ⟨limbs, ?_⟩
  rw [← cast_value, ← Int.cast_natCast n, ZMod.intCast_eq_intCast_iff, Int.ModEq, same]
  rfl

theorem holds_D : Holds d D := by
  have := holds_constant (a := D)
    (n := 37095705934669439343138083508754565189542113879843219016388785533085940283555)
    (by decide) (by decide +kernel)
  exact_mod_cast this

theorem holds_D2 : Holds (d + d) D2 := by
  have := holds_constant (a := D2)
    (n := 2 * 37095705934669439343138083508754565189542113879843219016388785533085940283555)
    (by decide) (by decide +kernel)
  rw [← two_mul]
  exact_mod_cast this

theorem holds_X : Holds baseX X := by
  have := holds_constant (a := X)
    (n := 15112221349535400772501151409588531511454012693041857206046113283949847762202)
    (by decide) (by decide +kernel)
  exact_mod_cast this

theorem holds_Y : Holds baseY Y := by
  have := holds_constant (a := Y)
    (n := 46316835694926478169428394003475163141307993866256225615783033603165251855960)
    (by decide) (by decide +kernel)
  exact_mod_cast this

theorem holds_I : Holds sqrtm1 I := by
  have := holds_constant (a := I)
    (n := 19681161376707505956807079304988542015446066515923890162744021073123829784752)
    (by decide) (by decide +kernel)
  exact_mod_cast this

-- residues modulo `P` are not to be unfolded to their digits
attribute [irreducible] d sqrtm1 baseX baseY

/-! ## Addition -/

/-- A point in extended coordinates, over the field. -/
structure Ext where
  x : ZMod P
  y : ZMod P
  z : ZMod P
  t : ZMod P

def Ext.add (p q : Ext) : Ext :=
  let a := (p.y - p.x) * (q.y - q.x)
  let b := (p.x + p.y) * (q.x + q.y)
  let c := p.t * q.t * (d + d)
  let dd := p.z * q.z + p.z * q.z
  let e := b - a
  let f := dd - c
  let g := dd + c
  let h := b + a
  ⟨e * f, h * g, g * f, e * h⟩

/-- The limbs of `p` stand for `e`. -/
structure Rep (e : Ext) (p : Point) : Prop where
  x : Holds e.x p.x
  y : Holds e.y p.y
  z : Holds e.z p.z
  t : Holds e.t p.t

theorem rep_affine {x y t : ZMod P} {c : Gf} (hx : Holds x a) (hy : Holds y b)
    (ht : Holds t c) : Rep ⟨x, y, 1, t⟩ ⟨a, b, gf1, c⟩ := ⟨hx, hy, holds_gf1, ht⟩

theorem three_le_operandMax : 2 ^ 25 + 2 ^ 25 + 2 ^ 25 ≤ operandMax := by decide

variable {e : Ext}

theorem edAdd_yields {p : Point} {e' : Ext} (hp : Rep e p) (hq : Rep e' q) :
    Yields Fine (edAdd p q) (Rep (e.add e')) := by
  have one := result_le_operandMax
  have two := sum_le_operandMax
  have three := three_le_operandMax
  refine .bind (fZ_yields hp.y hp.x (by decide)) fun a ha => ?_
  refine .bind (fZ_yields hq.y hq.x (by decide)) fun t ht => ?_
  refine .bind (callM_yields ha ht two two) fun a ha => ?_
  refine .bind (fA_yields hp.x hp.y (by decide)) fun b hb => ?_
  refine .bind (fA_yields hq.x hq.y (by decide)) fun t ht => ?_
  refine .bind (callM_yields hb ht two two) fun b hb => ?_
  refine .bind (callM_yields hp.t hq.t one one) fun c hc => ?_
  refine .bind (callM_yields hc holds_D2 one one) fun c hc => ?_
  refine .bind (callM_yields hp.z hq.z one one) fun dd hd => ?_
  refine .bind (fA_yields hd hd (by decide)) fun dd hd => ?_
  refine .bind (fZ_yields hb ha (by decide)) fun e he => ?_
  refine .bind (fZ_yields hd hc (by decide)) fun f hf => ?_
  refine .bind (fA_yields hd hc (by decide)) fun g hg => ?_
  refine .bind (fA_yields hb ha (by decide)) fun h hh => ?_
  refine .bind (callM_yields he hf two three) fun x hx => ?_
  refine .bind (callM_yields hh hg two three) fun y hy => ?_
  refine .bind (callM_yields hg hf three three) fun z hz => ?_
  refine .bind (callM_yields he hh two two) fun t ht => ?_
  exact .pure ⟨hx, hy, hz, ht⟩

/-! ## The scalar ladder -/

def Ext.cswap (pq : Ext × Ext) (bit : Bool) : Ext × Ext := if bit then (pq.2, pq.1) else pq

def Ext.step (n : Nat) (pq : Ext × Ext) (i : Nat) : Ext × Ext :=
  let pq := Ext.cswap pq (n.testBit i)
  Ext.cswap (pq.1.add pq.1, pq.2.add pq.1) (n.testBit i)

def Ext.zero : Ext := ⟨0, 1, 1, 0⟩

def Ext.scalarmult (q : Ext) (n : Nat) : Ext := ((downFrom 256).foldl (Ext.step n) (.zero, q)).1

def Rep2 (e : Ext × Ext) (p : Point × Point) : Prop := Rep e.1 p.1 ∧ Rep e.2 p.2

theorem Rep2.cswap {e : Ext × Ext} (h : Rep2 e p) (bit : Bool) :
    Rep2 (Ext.cswap e bit) (edCswap p.1 p.2 (if bit then 1 else 0)) := by
  obtain ⟨a, b⟩ := h
  unfold edCswap
  rw [sel25519_eq a.x.1 b.x.1 (by norm_num), sel25519_eq a.y.1 b.y.1 (by norm_num),
    sel25519_eq a.z.1 b.z.1 (by norm_num), sel25519_eq a.t.1 b.t.1 (by norm_num)]
  cases bit with
  | false => exact ⟨a, b⟩
  | true => exact ⟨b, a⟩

theorem edScalarmultStep_yields {e : Ext × Ext} (h : Rep2 e p) (s : Bytes32)
    {i : Nat} (hi : i < 256) :
    Yields Fine (edScalarmultStep s p i) (Rep2 (Ext.step (number s) e i)) := by
  refine .bind (.lift ⟨_, scalarBit_eq s hi, rfl⟩) fun bit hbit => ?_
  subst hbit
  have before := h.cswap ((number s).testBit i)
  refine .bind (edAdd_yields before.2 before.1) fun q hq => ?_
  refine .bind (edAdd_yields before.1 before.1) fun p hp => ?_
  exact .pure (Rep2.cswap (p := (p, q)) ⟨hp, hq⟩ ((number s).testBit i))

theorem edScalarmult_yields (h : Rep e q) (s : Bytes32) :
    Yields Fine (edScalarmult q s) (Rep (e.scalarmult (number s))) := by
  refine .bind (Q := Rep2 ((downFrom 256).foldl (Ext.step (number s)) (.zero, e))) ?_
    fun pq both => .pure both.1
  refine Yields.foldlM (R := fun p e => Rep2 e p) (f := edScalarmultStep s)
    (fun p e i hi both => edScalarmultStep_yields both s ?_) ?_
  · unfold downFrom at hi
    rw [List.mem_reverse, List.mem_range] at hi
    exact hi
  · exact ⟨⟨holds_gf0, holds_gf1, holds_gf1, holds_gf0⟩, h⟩

def Ext.base : Ext := ⟨baseX, baseY, 1, baseX * baseY⟩

theorem edScalarbase_yields (s : Bytes32) :
    Yields Fine (edScalarbase s) (Rep (Ext.base.scalarmult (number s))) := by
  have one := result_le_operandMax
  refine .bind (callM_yields holds_X holds_Y one one) fun t ht => ?_
  exact edScalarmult_yields (rep_affine holds_X holds_Y ht) s

/-! ## Encodings -/

instance : NeZero P := ⟨by decide⟩

theorem number_parity (o : Bytes32) : (getElem o 0 first32).toNat % 2 = number o % 2 := by
  have bit := testBit_number o (i := 0) (by decide)
  simp only [Nat.testBit_zero, Nat.zero_div, Nat.zero_mod] at bit
  have := decide_eq_decide.mp bit
  omega

/-- Two byte strings are told apart by or'ing the differences of their bytes. -/
theorem diff_eq_zero (o o' : Bytes32) :
    (List.finRange 32).foldl
      (fun diff i => diff ||| (getElem o i i.isLt ^^^ getElem o' i i.isLt)) 0 = 0 ↔ o = o' := by
  have fold : ∀ (l : List (Fin 32)) (z : UInt8),
      l.foldl (fun diff i => diff ||| (o[i] ^^^ o'[i])) z = 0 ↔ z = 0 ∧ ∀ i ∈ l, o[i] = o'[i] := by
    intro l
    induction l with
    | nil => simp
    | cons i l ih =>
      intro z
      rw [List.foldl_cons, ih, UInt8.or_eq_zero_iff, UInt8.xor_eq_zero_iff, List.forall_mem_cons,
        and_assoc]
  rw [fold]
  constructor
  · rintro ⟨-, same⟩
    exact Vector.ext fun i hi => same ⟨i, hi⟩ (List.mem_finRange _)
  · rintro rfl
    exact ⟨rfl, fun _ _ => rfl⟩

theorem number_injective {o o' : Vector UInt8 n} (h : number o = number o') : o = o' := by
  have list : o.toList = o'.toList := by
    rw [← le_ofLe o.toList, ← le_ofLe o'.toList, Vector.length_toList, Vector.length_toList]
    unfold number at h
    rw [h]
  exact Vector.toList_inj.mp list

theorem neq25519_eq {x y : ZMod P} {m' : Nat} (ha : Stands m x a) (hb : Stands m' y b)
    (hm : m ≤ 2 ^ 31) (hm' : m' ≤ 2 ^ 31) : neq25519 a b = some (x != y) := by
  obtain ⟨c, run, num⟩ := pack25519_encodes ha hm
  obtain ⟨c', run', num'⟩ := pack25519_encodes hb hm'
  have same : c = c' ↔ x = y := by
    constructor
    · rintro rfl
      exact ZMod.val_injective P (num.symm.trans num')
    · rintro rfl
      exact number_injective (num.trans num'.symm)
  unfold neq25519
  rw [bind_of_eq run, bind_of_eq run']
  refine congrArg some ?_
  rw [bne, bne]
  congr 1
  rw [Bool.eq_iff_iff, beq_iff_eq, beq_iff_eq, diff_eq_zero, same]

theorem par25519_eq {x : ZMod P} (ha : Stands m x a) (hm : m ≤ 2 ^ 31) :
    par25519 a = some (UInt8.ofNat (x.val % 2)) := by
  obtain ⟨o, run, num⟩ := pack25519_encodes ha hm
  unfold par25519
  rw [bind_of_eq run]
  refine congrArg some (UInt8.toNat_inj.mp ?_)
  rw [UInt8.toNat_and, UInt8.toNat_ofNat', ← num, ← number_parity]
  show o[0].toNat &&& 1 = _
  rw [Nat.and_one_is_mod]
  omega

/-- The number that encodes a point: the y-coordinate, and the parity of the x-coordinate in the
top bit. -/
def Ext.encode (e : Ext) : Nat :=
  (e.y * e.z ^ (P - 2)).val + 2 ^ 255 * ((e.x * e.z ^ (P - 2)).val % 2)

/-- A parity bit put into the free top bit. -/
theorem number_sign {r : Bytes32} (small : number r < 2 ^ 255) {b : Nat} (hb : b < 2) :
    number (r.set 31 (r[31] ^^^ (UInt8.ofNat b <<< 7))) = number r + 2 ^ 255 * b := by
  have top : r[31].toNat < 128 := by
    have term : r[31].toNat * 256 ^ 31 ≤ number r := by
      rw [number_eq_sum]
      exact Finset.single_le_sum (f := fun i : Fin 32 => r[i].toNat * 256 ^ i.val)
        (fun _ _ => Nat.zero_le _) (Finset.mem_univ (31 : Fin 32))
    omega
  have byte : (r[31] ^^^ (UInt8.ofNat b <<< 7)).toNat = r[31].toNat + 128 * b := by
    rcases (by omega : b = 0 ∨ b = 1) with rfl | rfl
    · simp
    · have xor : ∀ n < 128, n ^^^ 128 = n + 128 := by decide
      exact xor _ top
  have sum := number_set r (k := 31) (by decide) (r[31] ^^^ (UInt8.ofNat b <<< 7))
  omega

theorem P_lt : P < 2 ^ 255 := by decide

theorem edPack_yields {p : Point} (h : Rep e p) :
    Yields Fine (edPack p) fun r => number r = e.encode := by
  have one := result_le_operandMax
  refine .bind (inv25519_yields h.z) fun zi hzi => ?_
  refine .bind (callM_yields h.x hzi one one) fun tx htx => ?_
  refine .bind (callM_yields h.y hzi one one) fun ty hty => ?_
  obtain ⟨r, run, num⟩ := pack25519_encodes hty (by norm_num)
  refine .bind (.lift ⟨r, run, rfl⟩) fun r' e => ?_
  subst e
  refine .bind (.lift ⟨_, par25519_eq htx (by norm_num), rfl⟩) fun b e => ?_
  subst e
  refine .pure ?_
  have small : number r < 2 ^ 255 := by
    rw [num]
    exact lt_trans (ZMod.val_lt _) P_lt
  rw [number_sign small (Nat.mod_lt _ (by decide)), num]
  rfl

/-! ## Decompression -/

def tryRoot (num den : ZMod P) : ZMod P :=
  (den * den * (den * den) * (den * den) * num * den) ^ ((P - 5) / 8) * num * den * den * den

def pickRoot (num den : ZMod P) : ZMod P :=
  let x := tryRoot num den
  if x * x * den != num then x * sqrtm1 else x

/-- What `unpackneg` computes from the number of a key. -/
def Ext.unpackneg (n : Nat) : Option Ext :=
  let y : ZMod P := (n % 2 ^ 255 : Nat)
  let num := y * y - 1
  let den := 1 + y * y * d
  let x := pickRoot num den
  if x * x * den != num then none
  else
    let x := if x.val % 2 == n / 2 ^ 255 then 0 - x else x
    some ⟨x, y, 1, x * y⟩

theorem otherRoot_yields {x : ZMod P} (h : Holds x a) (bad : Bool) :
    Yields Fine (otherRoot bad a) (Holds (if bad then x * sqrtm1 else x)) := by
  have one := result_le_operandMax
  cases bad with
  | true => exact callM_yields h holds_I one one
  | false => exact .pure h

theorem stands_gf0 : Stands 0 0 gf0 := ⟨by decide, holds_gf0.2⟩

theorem negateIf_yields {x : ZMod P} (h : Holds x a) (same : Bool) :
    Yields Fine (negateIf same a) (Holds (if same then 0 - x else x)) := by
  cases same with
  | true =>
    refine (fZ_yields stands_gf0 h (by decide)).mono fun o ho => ?_
    rwa [Nat.zero_add] at ho
  | false => exact .pure h

/-- The sign bit of a key is its top bit. -/
theorem sign_eq (pk : Bytes32) : (getElem pk 31 last32 >>> 7).toNat = number pk / 2 ^ 255 := by
  have bit : (number pk).testBit 255 = pk[31].toNat.testBit 7 := testBit_number pk (by decide)
  have whole : number pk < 2 ^ 256 := by simpa using number_lt pk
  have byte := pk[31].toNat_lt
  simp only [Nat.testBit_eq_decide_div_mod_eq] at bit
  have := decide_eq_decide.mp bit
  show pk[31].toNat >>> 7 = _
  omega

theorem par_eq_sign (pk : Bytes32) (hn : n < 2) :
    (UInt8.ofNat n == pk[31] >>> 7) = (n == number pk / 2 ^ 255) := by
  rw [Bool.eq_iff_iff, beq_iff_eq, beq_iff_eq, ← UInt8.toNat_inj, sign_eq, UInt8.toNat_ofNat',
    Nat.mod_eq_of_lt (by omega)]

theorem unpackneg_yields (pk : Bytes32) :
    Yields Fine (unpackneg pk) (Option.Rel Rep (Ext.unpackneg (number pk))) := by
  have one := result_le_operandMax
  have two := sum_le_operandMax
  obtain ⟨y, read, limbs, same⟩ := unpack25519_spec pk
  have hy : Holds _ y := ⟨limbs, same⟩
  unfold unpackneg Ext.unpackneg
  dsimp only
  generalize ((number pk % 2 ^ 255 : Nat) : ZMod P) = fy at hy
  refine .bind (.lift ⟨y, read, rfl⟩) fun _ e => ?_
  subst e
  refine .bind (callS_yields hy one) fun sq hsq => ?_
  refine .bind (callM_yields hsq holds_D one one) fun dy hdy => ?_
  refine .bind (fZ_yields hsq holds_gf1 (by decide)) fun num hnum => ?_
  refine .bind (fA_yields holds_gf1 hdy (by decide)) fun den hden => ?_
  generalize fy * fy - 1 = fnum at hnum ⊢
  generalize 1 + fy * fy * d = fden at hden ⊢
  refine .bind (callS_yields hden two) fun den2 h2 => ?_
  refine .bind (callS_yields h2 one) fun den4 h4 => ?_
  refine .bind (callM_yields h4 h2 one one) fun den6 h6 => ?_
  refine .bind (callM_yields h6 hnum one two) fun t ht => ?_
  refine .bind (callM_yields ht hden one two) fun t ht => ?_
  refine .bind (pow2523_yields ht) fun t ht => ?_
  refine .bind (callM_yields ht hnum one two) fun t ht => ?_
  refine .bind (callM_yields ht hden one two) fun t ht => ?_
  refine .bind (callM_yields ht hden one two) fun t ht => ?_
  refine .bind (callM_yields ht hden one two) fun x hx => ?_
  have hx : Holds (tryRoot fnum fden) x := hx
  refine .bind (callS_yields hx one) fun chk hchk => ?_
  refine .bind (callM_yields hchk hden one two) fun chk hchk => ?_
  refine .bind (.lift ⟨_, neq25519_eq hchk hnum (by norm_num) (by norm_num), rfl⟩) fun bad e => ?_
  subst e
  refine .bind (otherRoot_yields hx _) fun x hx => ?_
  have hx : Holds (pickRoot fnum fden) x := hx
  refine .bind (callS_yields hx one) fun chk hchk => ?_
  refine .bind (callM_yields hchk hden one two) fun chk hchk => ?_
  refine .bind (.lift ⟨_, neq25519_eq hchk hnum (by norm_num) (by norm_num), rfl⟩) fun bad e => ?_
  rw [e]
  cases bad with
  | true => exact .pure .none
  | false =>
    refine .bind (.lift ⟨_, par25519_eq hx (by norm_num), rfl⟩) fun par e => ?_
    subst e
    rw [par_eq_sign pk (Nat.mod_lt _ (by decide))]
    refine .bind (negateIf_yields hx _) fun x hx => ?_
    refine .bind (callM_yields hx hy one one) fun t ht => ?_
    exact .pure (.some (rep_affine hx hy ht))

end Nlos.Native
