import Nlos.Lib.Serial

/-!
# Segments

What `lib/tcp4.lua` gives to one connection: sequence numbers and their comparisons, and a segment
as it is between the decoder and the connection. Sequence numbers have 32 bits and the window 16, as
on the wire. A segment without data has the empty string; the source does not tell it from none.
-/

namespace Nlos.Tcp

abbrev Seq := BitVec 32

abbrev Bytes := List UInt8

namespace Tcp4

def mssDefault : Nat := 536

def mssMin : Nat := 88

def add (a : Seq) (n : Nat) : Seq := a + BitVec.ofNat 32 n

def diff (a b : Seq) : Int :=
  if 0x80000000 ≤ (a - b).toNat then ((a - b).toNat : Int) - 0x100000000 else (a - b).toNat

def lt (a b : Seq) : Bool := 0x80000000 ≤ (a - b).toNat

def gt (a b : Seq) : Bool := lt b a

def le (a b : Seq) : Bool := a == b || lt a b

def ge (a b : Seq) : Bool := a == b || lt b a

def between (x lo hi : Seq) : Bool := if lo == hi then false else le lo x && lt x hi

end Tcp4

structure Flags where
  fin : Bool
  syn : Bool
  rst : Bool
  psh : Bool
  ack : Bool
deriving DecidableEq, Repr

namespace Flags

def none : Flags := ⟨false, false, false, false, false⟩

end Flags

/-- A run of data that is held, as it is reported to the peer. -/
structure Block where
  left : Seq
  right : Seq
  recent : Bool
deriving DecidableEq, Repr

structure Opt where
  mss : Option Nat
  sackok : Bool
  sack : List Block
deriving DecidableEq, Repr

structure Seg where
  sport : Nat
  dport : Nat
  seq : Seq
  ack : Seq
  flags : Flags
  wnd : BitVec 16
  data : Bytes
  opt : Option Opt
deriving DecidableEq, Repr

def Seg.seglen (s : Seg) : Nat :=
  s.data.length + (if s.flags.syn then 1 else 0) + (if s.flags.fin then 1 else 0)

namespace Tcp4

theorem add_eq_shift (a : Seq) (n : Nat) : add a n = Serial.shift a n := rfl

theorem diff_eq_distance (a b : Seq) : diff a b = Serial.distance a b := by
  unfold diff Serial.distance
  rw [BitVec.toInt_eq_toNat_cond]
  split <;> split <;> omega

theorem lt_iff_distance (a b : Seq) : lt a b = true ↔ Serial.distance a b < 0 := by
  rw [← diff_eq_distance]
  unfold lt diff
  rw [decide_eq_true_iff]
  split <;> omega

theorem lt_self (a : Seq) : lt a a = false := by
  unfold lt
  rw [BitVec.sub_self]
  rfl

theorem diff_self (a : Seq) : diff a a = 0 := by
  unfold diff
  rw [BitVec.sub_self]
  rfl

section Counts

variable (b : Seq) {i j : Nat}

section

variable (h1 : j ≤ i + 2 ^ 31) (h2 : i < j + 2 ^ 31)

include h1 h2

theorem diff_shift : diff (Serial.shift b i) (Serial.shift b j) = (i : Int) - j := by
  rw [diff_eq_distance]
  exact Serial.distance_shift b (by omega) (by omega)

theorem lt_shift : lt (Serial.shift b i) (Serial.shift b j) = true ↔ i < j := by
  rw [lt_iff_distance]
  exact Serial.distance_neg b (by omega) (by omega)

theorem le_shift : le (Serial.shift b i) (Serial.shift b j) = true ↔ i ≤ j := by
  unfold le
  rw [Bool.or_eq_true, beq_iff_eq, lt_shift b h1 h2, Serial.shift_inj b (by omega) (by omega)]
  omega

end

theorem ge_shift (h1 : i ≤ j + 2 ^ 31) (h2 : j < i + 2 ^ 31) :
    ge (Serial.shift b i) (Serial.shift b j) = true ↔ j ≤ i := by
  unfold ge
  rw [Bool.or_eq_true, beq_iff_eq, lt_shift b h1 h2, Serial.shift_inj b (by omega) (by omega)]
  omega

/-- What is acknowledged between two counts is a count between them. -/
theorem exists_between {a : Seq} (hij : i ≤ j) (hj : j < i + 2 ^ 31)
    (h1 : lt (Serial.shift b i) a = true)
    (h2 : gt a (Serial.shift b j) = false) : ∃ k, i < k ∧ k ≤ j ∧ a = Serial.shift b k := by
  have h2' : ¬ lt (Serial.shift b j) a = true := by
    rw [Bool.not_eq_true]
    exact h2
  rw [lt_iff_distance] at h1 h2'
  obtain ⟨k, hk, hkj, rfl⟩ := Serial.exists_between b hij h1 (Int.not_lt.mp h2')
  exact ⟨k, hk, hkj.resolve_right (by omega), rfl⟩

end Counts

/-- The only number that is past `f` and not past the next one is the next one. -/
theorem eq_of_not_le {f a : Seq} (h1 : le a f = false) (h2 : gt a (add f 1) = false) :
    a = add f 1 := by
  obtain ⟨hne, hlt⟩ := Bool.or_eq_false_iff.mp h1
  have hne' := beq_eq_false_iff_ne.mp hne
  unfold gt lt at h2
  unfold lt at hlt
  unfold add at h2 ⊢
  rw [decide_eq_false_iff_not] at hlt h2
  bv_omega

theorem eq_of_le {f a : Seq} (h1 : lt f a = true) (h2 : le a (add f 1) = true) : a = add f 1 := by
  rcases Bool.or_eq_true_iff.mp h2 with h2 | h2
  · exact eq_of_beq h2
  · unfold lt at h1 h2
    unfold add at h2 ⊢
    rw [decide_eq_true_iff] at h1 h2
    bv_omega

theorem eq_of_gt {f a : Seq} (h1 : gt a f = true) (h2 : gt a (add f 1) = false) : a = add f 1 := by
  unfold gt lt at h1 h2
  unfold add at h2 ⊢
  rw [decide_eq_true_iff] at h1
  rw [decide_eq_false_iff_not] at h2
  bv_omega

end Tcp4

end Nlos.Tcp
