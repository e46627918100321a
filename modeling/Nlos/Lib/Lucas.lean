import Mathlib

/-!
# Powers modulo a number, and primality by them

`powMod` computes a power modulo `m` bit by bit, on numbers that stay below `m`, so that the kernel
can evaluate it at a size where the power itself could never be written. `prime_of_powMod` is
Lucas's test with the powers computed that way, and `certified` checks a list of such tests, each
resting on the later ones and on trial division.
-/

namespace Lucas

/-- `a ^ n` modulo `m`, over the `k` low bits of `n`, from the top one down. -/
def powMod (m k a n : Nat) : Nat :=
  (List.range k).reverse.foldl
    (fun r i => if n.testBit i then r * r % m * a % m else r * r % m) (1 % m)

variable {k n : Nat}

theorem getElem?_range_reverse {i : Nat} (hi : i < k) :
    (List.range k).reverse[k - (i + 1)]? = some i := by
  rw [List.getElem?_reverse (by rw [List.length_range]; omega), List.length_range,
    List.getElem?_range (by omega)]
  congr 1
  omega

theorem powMod_from (m a n : Nat) {i : Nat} (hn : n < 2 ^ k) (hi : i ≤ k) :
    (((List.range k).reverse.take (k - i)).foldl
      (fun r i => if n.testBit i then r * r % m * a % m else r * r % m) (1 % m) : Nat) =
      a ^ (n / 2 ^ i) % m := by
  induction hi using Nat.decreasingInduction with
  | self => rw [Nat.sub_self, List.take_zero, List.foldl_nil, Nat.div_eq_of_lt hn, Nat.pow_zero]
  | of_succ i hi ih =>
    have half : n / 2 ^ (i + 1) = n / 2 ^ i / 2 := by rw [pow_succ, Nat.div_div_eq_div_mul]
    rw [show k - i = k - (i + 1) + 1 by omega, List.take_add_one, getElem?_range_reverse hi, Option.toList_some,
      List.foldl_append, ih, List.foldl_cons, List.foldl_nil, half, ← Nat.mul_mod, ← pow_add,
      Nat.testBit_eq_decide_div_mod_eq]
    split
    next set =>
      have odd : n / 2 ^ i = n / 2 ^ i / 2 + n / 2 ^ i / 2 + 1 := by
        have := of_decide_eq_true set
        omega
      rw [Nat.mod_mul_mod, ← pow_succ, ← odd]
    next clear =>
      have even : n / 2 ^ i = n / 2 ^ i / 2 + n / 2 ^ i / 2 := by
        have := of_decide_eq_false (Bool.eq_false_iff.mpr clear)
        omega
      rw [← even]

theorem powMod_eq (m a : Nat) (hn : n < 2 ^ k) : powMod m k a n = a ^ n % m := by
  have whole := powMod_from m a n hn (Nat.zero_le k)
  rwa [List.take_of_length_le (by simp), pow_zero, Nat.div_one] at whole

theorem powMod_cast (m a : Nat) (hn : n < 2 ^ k) :
    (powMod m k a n : ZMod m) = (a : ZMod m) ^ n := by
  rw [powMod_eq m a hn, ZMod.natCast_mod, Nat.cast_pow]

/-- Lucas's test: `qs` are the prime factors of `p - 1`, and `a` is of order `p - 1`. -/
theorem prime_of_powMod {p a : Nat} {qs : List Nat} (primes : ∀ q ∈ qs, q.Prime)
    (product : qs.prod = p - 1) (hp : p ≤ 2 ^ k) (one_lt : 1 < p)
    (whole : powMod p k a (p - 1) = 1) (parts : ∀ q ∈ qs, powMod p k a ((p - 1) / q) ≠ 1) :
    p.Prime := by
  have one : ∀ n, n ≤ p - 1 → ((a : ZMod p) ^ n = 1 ↔ powMod p k a n = 1) := by
    intro n hn
    rw [← Nat.cast_pow, ← Nat.cast_one, ZMod.natCast_eq_natCast_iff', Nat.mod_eq_of_lt one_lt,
      powMod_eq p a (by omega)]
  refine lucas_primality p (a : ZMod p) ((one _ (le_refl _)).mpr whole) fun q hq dvd => ?_
  rw [← product] at dvd
  have mem : q ∈ qs := mem_list_primes_of_dvd_prod hq.prime (fun r hr => (primes r hr).prime) dvd
  exact fun eq => parts q mem ((one _ (Nat.div_le_self _ _)).mp eq)

/-- No number from `m` up divides `n`, by trying those whose square is at most `n`. -/
def trial : Nat → Nat → Nat → Bool
  | 0, _, _ => false
  | fuel + 1, m, n => n < m * m || (n % m != 0 && trial fuel (m + 1) n)

theorem trial_spec {fuel m q : Nat} (h : trial fuel m n = true) (hm : m ≤ q) (hq : q * q ≤ n) :
    ¬q ∣ n := by
  induction fuel generalizing m with
  | zero => cases h
  | succ fuel ih =>
    rw [trial, Bool.or_eq_true, Bool.and_eq_true, decide_eq_true_iff, bne_iff_ne] at h
    rcases h with small | ⟨rest, later⟩
    · exact absurd (Nat.mul_le_mul hm hm) (by omega)
    rcases Nat.eq_or_lt_of_le hm with rfl | above
    · exact fun dvd => rest (Nat.mod_eq_zero_of_dvd dvd)
    · exact ih later above

structure Certificate where
  p : Nat
  k : Nat
  a : Nat
  qs : List Nat

def certified : List Certificate → Bool
  | [] => true
  | ⟨p, k, a, qs⟩ :: cs =>
    decide (qs.prod = p - 1 ∧ p ≤ 2 ^ k ∧ 1 < p ∧ powMod p k a (p - 1) = 1 ∧
      ∀ q ∈ qs, powMod p k a ((p - 1) / q) ≠ 1 ∧
        ((∃ c ∈ cs, c.p = q) ∨ 2 ≤ q ∧ trial 3000 2 q = true)) && certified cs

theorem prime_of_certified (cs : List Certificate) (h : certified cs = true) :
    ∀ c ∈ cs, c.p.Prime := by
  induction cs with
  | nil => exact List.forall_mem_nil _
  | cons c cs ih =>
    rw [certified, Bool.and_eq_true, decide_eq_true_iff] at h
    obtain ⟨⟨product, hp, one_lt, whole, parts⟩, rest⟩ := h
    refine List.forall_mem_cons.mpr ⟨?_, ih rest⟩
    refine prime_of_powMod (fun q hq => ?_) product hp one_lt whole fun q hq => (parts q hq).1
    rcases (parts q hq).2 with ⟨c', hc', rfl⟩ | ⟨two, tried⟩
    · exact ih rest c' hc'
    · exact Nat.prime_def_le_sqrt.mpr ⟨two, fun m hm hs => trial_spec tried hm (Nat.le_sqrt.mp hs)⟩

end Lucas
