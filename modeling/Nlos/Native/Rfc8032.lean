import Nlos.Native.Curve

/-!
# Verification against RFC 8032

What RFC 8032 accepts, in terms of the group, and how far `edVerify` agrees with it. The RFC decodes
a key only if its y-coordinate is below `p` and its sign bit is clear where the x-coordinate is
zero; `unpackneg` makes neither check. Everything after the decoding agrees.
-/

namespace Nlos.Native

open Bytes

namespace Rfc8032

/-- The number `n` encodes the point `p`, by section 5.1.3: the y-coordinate is below the prime, and
the sign bit is the parity of the x-coordinate, which leaves none for an x-coordinate of zero. -/
structure Decodes (n : Nat) (p : Pt) : Prop where
  below : n % 2 ^ 255 < P
  y : p.y = (n % 2 ^ 255 : Nat)
  sign : p.x.val % 2 = n / 2 ^ 255

variable (sha512 : List UInt8 → Vector UInt8 64)

/-- The hash of a signature, modulo the order. -/
def challenge (pk : Bytes32) (msg : List UInt8) (sig : Bytes32 × Bytes32) : Nat :=
  number (sha512 (sig.1.toList ++ pk.toList ++ msg)) % L

def Accepts (pk : Bytes32) (msg : List UInt8) (sig : Bytes32 × Bytes32) : Prop :=
  ∃ A : Pt, Decodes (number pk) A ∧ number sig.2 < L ∧
    encode (number sig.2 • base - challenge sha512 pk msg sig • A) = number sig.1

end Rfc8032

/-- A key that the RFC's two further checks let pass, or that has no point at all. -/
def KeyPasses (pk : Bytes32) : Prop :=
  ∀ p : Pt, p.y = (number pk % 2 ^ 255 : Nat) →
    number pk % 2 ^ 255 < P ∧ (number pk / 2 ^ 255 = 1 → p.x ≠ 0)

/-! ## Keys -/

theorem sign_lt (pk : Bytes32) : number pk / 2 ^ 255 < 2 := by
  have whole : number pk < 2 ^ 256 := by simpa using number_lt pk
  exact Nat.div_lt_of_lt_mul (by omega)

/-- A key that decodes is unpacked to the negative of its point. -/
theorem unpackneg_of_decodes {n : Nat} {A : Pt} (h : Rfc8032.Decodes n A) :
    ∃ e, Ext.unpackneg n = some e ∧ e.Is (-A) := by
  obtain ⟨e, found⟩ := Ext.unpackneg_isSome h.y
  obtain ⟨p, is, y, sign⟩ := Ext.unpackneg_is found
  have opposite : p.x = -A.x := by
    rcases eq_or_neg_of_y (y.trans h.y.symm) with same | neg
    · rcases sign with zero | other
      · rw [same] at zero
        rw [same, zero, neg_zero]
      · exact absurd (same ▸ h.sign) other
    · exact neg
  have neg : p = -A := Edwards.Point.ext opposite (y.trans h.y.symm)
  exact ⟨e, found, neg ▸ is⟩

variable {pk : Bytes32} {p : Pt}

/-- A key with a point that the further checks let pass decodes to that point's negative. -/
theorem decodes_of_passes (passes : KeyPasses pk) (y : p.y = (number pk % 2 ^ 255 : Nat))
    (sign : p.x = 0 ∨ p.x.val % 2 ≠ number pk / 2 ^ 255) : Rfc8032.Decodes (number pk) (-p) := by
  obtain ⟨below, nonzero⟩ := passes p y
  refine ⟨below, y, ?_⟩
  have bit := sign_lt pk
  by_cases zero : p.x = 0
  · have clear : number pk / 2 ^ 255 ≠ 1 := fun set => nonzero set zero
    rw [Edwards.neg_x, zero, neg_zero, ZMod.val_zero]
    omega
  · have other := sign.resolve_left zero
    have flip := val_neg_parity zero
    rw [Edwards.neg_x]
    omega

/-- A key that does not pass decodes to no point. -/
theorem not_decodes (y : p.y = (number pk % 2 ^ 255 : Nat))
    (fails : ¬(number pk % 2 ^ 255 < P ∧ (number pk / 2 ^ 255 = 1 → p.x ≠ 0))) (A : Pt) :
    ¬Rfc8032.Decodes (number pk) A := by
  intro h
  refine fails ⟨h.below, fun set zero => ?_⟩
  have none : A.x = 0 := by
    rcases eq_or_neg_of_y (h.y.trans y.symm) with same | neg
    · rw [same, zero]
    · rw [neg, zero, neg_zero]
  have sign := h.sign
  rw [none, ZMod.val_zero, set] at sign
  exact absurd sign (by decide)

/-! ## Verification -/

section Verify

variable (sha512 : List UInt8 → Vector UInt8 64)

theorem check_iff {e : Ext} (h : e.Is p) (pk : Bytes32) (msg : List UInt8)
    (sig : Bytes32 × Bytes32) : Ext.check sha512 pk msg sig e = true ↔ number sig.2 < L ∧
      encode (number sig.2 • base + Rfc8032.challenge sha512 pk msg sig • p) = number sig.1 := by
  have small : number (sha512 (sig.1.toList ++ pk.toList ++ msg)) % L < 2 ^ 256 :=
    (Nat.mod_lt _ (by decide)).trans (by decide)
  have small' : number sig.2 < 2 ^ 256 := by simpa using number_lt sig.2
  have sum := (h.scalarmult small).add (Ext.Is.base.scalarmult small')
  unfold Ext.check
  rw [Bool.and_eq_true, decide_eq_true_iff, beq_iff_eq, sum.encode, add_comm,
    eq_comm]
  rfl

/-- What `edVerify` accepts, in terms of the group. -/
theorem verify_iff (pk : Bytes32) (msg : List UInt8) (sig : Bytes32 × Bytes32) :
    Ext.verify sha512 pk msg sig = true ↔ ∃ e p, Ext.unpackneg (number pk) = some e ∧ e.Is p ∧
      number sig.2 < L ∧
      encode (number sig.2 • base + Rfc8032.challenge sha512 pk msg sig • p) = number sig.1 := by
  rw [Ext.verify, Option.any_eq_true]
  constructor
  · rintro ⟨e, found, checked⟩
    obtain ⟨p, is, -⟩ := Ext.unpackneg_is found
    exact ⟨e, p, found, is, (check_iff sha512 is pk msg sig).mp checked⟩
  · rintro ⟨e, p, found, is, checked⟩
    exact ⟨e, found, (check_iff sha512 is pk msg sig).mpr checked⟩

variable {msg : List UInt8} {sig : Bytes32 × Bytes32}

theorem verify_of_accepts
    (h : Rfc8032.Accepts sha512 pk msg sig) : Ext.verify sha512 pk msg sig = true := by
  obtain ⟨A, decodes, small, equation⟩ := h
  obtain ⟨e, found, is⟩ := unpackneg_of_decodes decodes
  refine (verify_iff sha512 pk msg sig).mpr ⟨e, -A, found, is, small, ?_⟩
  rw [smul_neg, ← sub_eq_add_neg]
  exact equation

theorem accepts_of_verify (passes : KeyPasses pk) (h : Ext.verify sha512 pk msg sig = true) :
    Rfc8032.Accepts sha512 pk msg sig := by
  rw [Ext.verify, Option.any_eq_true] at h
  obtain ⟨e, found, checked⟩ := h
  obtain ⟨p, is, y, sign⟩ := Ext.unpackneg_is found
  obtain ⟨small, equation⟩ := (check_iff sha512 is pk msg sig).mp checked
  refine ⟨-p, decodes_of_passes passes y sign, small, ?_⟩
  rw [smul_neg, sub_neg_eq_add]
  exact equation

/-- What signing makes is accepted: the challenge cancels, modulo the order of the base point. -/
theorem verify_sign (seed : Bytes32) (msg : List UInt8)
    (key : number pk = Ext.publickey sha512 seed)
    (made : (number sig.1, number sig.2) = Ext.sign sha512 seed msg) :
    Ext.verify sha512 pk msg sig = true := by
  set a := number (firstHalf (edExpand sha512 seed)) with ha
  set r := number (sha512 ((secondHalf (edExpand sha512 seed)).toList ++ msg)) % L with hr
  have small : a < 2 ^ 256 := by simpa using number_lt (firstHalf (edExpand sha512 seed))
  have small' : r < 2 ^ 256 := (Nat.mod_lt _ (by decide)).trans (by decide)
  have hk : number pk = encode (a • base) := key.trans (Ext.Is.base.scalarmult small).encode
  have h1 : number sig.1 = encode (r • base) :=
    (congrArg Prod.fst made).trans (Ext.Is.base.scalarmult small').encode
  have h2 : number sig.2 = (r + Rfc8032.challenge sha512 pk msg sig * a) % L := by
    have second := congrArg Prod.snd made
    have first := congrArg Prod.fst made
    rw [Rfc8032.challenge, toList_eq_le sig.1, toList_eq_le pk, key]
    rw [show number sig.1 = _ from first]
    exact second
  have decodes : Rfc8032.Decodes (number pk) (a • base) := by
    rw [hk]
    refine ⟨?_, ?_, ?_⟩
    · rw [encode_mod]
      exact ZMod.val_lt _
    · rw [encode_mod, ZMod.natCast_zmod_val]
    · rw [encode_div]
  refine verify_of_accepts sha512 ⟨a • base, decodes, ?_, ?_⟩
  · rw [h2]
    exact Nat.mod_lt _ (by decide)
  · rw [h1, h2, mod_smul_base, add_smul, mul_smul, add_sub_cancel_right]

end Verify

/-! ## Agreement -/

/-- `edVerify` returns, with the answer of the RFC. -/
def Agrees (sha512 : List UInt8 → Vector UInt8 64) (pk : Bytes32) (msg : List UInt8)
    (sig : Bytes32 × Bytes32) : Prop :=
  ∃ ok log, edVerify sha512 pk msg sig [] = some (ok, log) ∧
    (ok = true ↔ Rfc8032.Accepts sha512 pk msg sig)

theorem edVerify_run (sha512 : List UInt8 → Vector UInt8 64) (pk : Bytes32) (msg : List UInt8)
    (sig : Bytes32 × Bytes32) :
    ∃ log, edVerify sha512 pk msg sig [] = some (Ext.verify sha512 pk msg sig, log) := by
  obtain ⟨ok, log, run, -, same⟩ := edVerify_yields sha512 pk msg sig [] fine_nil
  exact ⟨log, same ▸ run⟩

theorem agrees_iff (sha512 : List UInt8 → Vector UInt8 64) (pk : Bytes32) (msg : List UInt8)
    (sig : Bytes32 × Bytes32) : Agrees sha512 pk msg sig ↔
      (Ext.verify sha512 pk msg sig = true ↔ Rfc8032.Accepts sha512 pk msg sig) := by
  obtain ⟨log, run⟩ := edVerify_run sha512 pk msg sig
  constructor
  · rintro ⟨ok, log', run', same⟩
    rw [run, Option.some.injEq, Prod.mk.injEq] at run'
    rwa [run'.1]
  · exact fun same => ⟨_, log, run, same⟩

/-- The encoding of the neutral element, and of the scalar zero. -/
def oneBytes : Bytes32 := (Vector.replicate 32 0).set 0 1 first32

def zeroBytes : Bytes32 := Vector.replicate 32 0

theorem number_oneBytes : number oneBytes = 1 := by decide

theorem number_zeroBytes : number zeroBytes = 0 := by decide

theorem encode_zero : encode 0 = 1 := by decide +kernel

/-- A signature with the scalar zero is taken if the challenge does away with the key. -/
theorem verify_zero (sha512 : List UInt8 → Vector UInt8 64) {msg : List UInt8} {e : Ext}
    (found : Ext.unpackneg (number pk) = some e) (is : e.Is p)
    (gone : Rfc8032.challenge sha512 pk msg (oneBytes, zeroBytes) • p = 0) :
    Ext.verify sha512 pk msg (oneBytes, zeroBytes) = true := by
  refine (verify_iff sha512 pk msg _).mpr ⟨e, p, found, is, ?_, ?_⟩
  · decide
  · rw [gone, number_zeroBytes, number_oneBytes, zero_smul, add_zero, encode_zero]

/-- For every key: `edVerify` gives the answer of the RFC on every message and signature, for every
hash, exactly if the key is not one that only the RFC's two further checks reject. And whatever is
signed is accepted. -/
theorem edVerify_agrees_iff (pk : Bytes32) :
    ((∀ sha512 msg sig, Agrees sha512 pk msg sig) ↔ KeyPasses pk) ∧
    ∀ (sha512 : List UInt8 → Vector UInt8 64) (seed : Bytes32) (msg : List UInt8),
      ∃ key sig log log' log'', edPublickey sha512 seed [] = some (key, log) ∧
        edSign sha512 seed msg [] = some (sig, log') ∧
        edVerify sha512 key msg sig [] = some (true, log'') := by
  refine ⟨⟨fun agrees p y => ?_, fun passes sha512 msg sig => ?_⟩, fun sha512 seed msg => ?_⟩
  · by_contra fails
    -- a hash that is always zero does away with the key
    set sha512 : List UInt8 → Vector UInt8 64 := fun _ => Vector.replicate 64 0 with hsha
    obtain ⟨e, found⟩ := Ext.unpackneg_isSome y
    obtain ⟨q, is, -⟩ := Ext.unpackneg_is found
    have zero : Rfc8032.challenge sha512 pk [] (oneBytes, zeroBytes) = 0 := by
      have none : number (Vector.replicate 64 0) % L = 0 := by decide
      exact none
    have taken := verify_zero sha512 found is (by rw [zero, zero_smul])
    obtain ⟨A, decodes, -⟩ := ((agrees_iff _ _ _ _).mp (agrees sha512 [] _)).mp taken
    exact not_decodes y fails A decodes
  · rw [agrees_iff]
    exact ⟨accepts_of_verify sha512 passes, verify_of_accepts sha512⟩
  · obtain ⟨key, log, run, -, hkey⟩ := edPublickey_yields sha512 seed [] fine_nil
    obtain ⟨sig, log', run', -, hsig⟩ := edSign_yields sha512 seed msg [] fine_nil
    obtain ⟨log'', run''⟩ := edVerify_run sha512 key msg sig
    rw [verify_sign sha512 seed msg hkey hsig] at run''
    exact ⟨key, sig, log, log', log'', run, run', run''⟩

def signedOne : Bytes32 := oneBytes.set 31 0x80 last32

/-- The RFC rejects the neutral element with a sign bit as a key. `edVerify` takes it, and the
signature of `1` and `0` under it for every message. -/
theorem edVerify_signedOne (sha512 : List UInt8 → Vector UInt8 64) (msg : List UInt8) :
    (∃ log, edVerify sha512 signedOne msg (oneBytes, zeroBytes) [] = some (true, log)) ∧
      ¬Rfc8032.Accepts sha512 signedOne msg (oneBytes, zeroBytes) := by
  have coordinate : number signedOne % 2 ^ 255 = 1 := by decide
  have sign : number signedOne / 2 ^ 255 = 1 := by decide
  have y : (0 : Pt).y = (number signedOne % 2 ^ 255 : Nat) := by
    rw [coordinate, Nat.cast_one, Edwards.zero_y]
  constructor
  · obtain ⟨e, found⟩ := Ext.unpackneg_isSome y
    obtain ⟨p, is, hy, -⟩ := Ext.unpackneg_is found
    have zero : p = 0 := by
      refine Edwards.Point.ext ?_ (hy.trans y.symm)
      rcases eq_or_neg_of_y (hy.trans y.symm) with same | neg
      · exact same
      · rw [neg, Edwards.zero_x, neg_zero]
    have taken : Ext.verify sha512 signedOne msg (oneBytes, zeroBytes) = true :=
      verify_zero sha512 found is (by rw [zero, smul_zero])
    obtain ⟨log, run⟩ := edVerify_run sha512 signedOne msg (oneBytes, zeroBytes)
    rw [taken] at run
    exact ⟨log, run⟩
  · rintro ⟨A, decodes, -⟩
    exact not_decodes y (fun h => h.2 sign rfl) A decodes

theorem edVerify_takes_signed_one :
    (∃ log, edVerify (fun _ => .replicate 64 0) signedOne [] (oneBytes, zeroBytes) [] =
      some (true, log)) ∧
      ¬Rfc8032.Accepts (fun _ => .replicate 64 0) signedOne [] (oneBytes, zeroBytes) :=
  edVerify_signedOne _ []

end Nlos.Native
