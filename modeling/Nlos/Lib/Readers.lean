import Nlos.Lib.Bytes

/-!
# Readers of byte strings

Two ways to take a message apart. A `Strict` reader gives up at the first field that is not all
there. A `Sticky` one goes on: it sets a flag, every later field reads as nothing, and the flag is
looked at when the message is done. `Follows c p` says that the sticky reader `c` is the strict
reader `p` in that other manner.

`Reads p b a` says that `p` undoes a writer on `a`, whose bytes are `b`: it reads `a` off `b`
whatever comes after, and it refuses every string that stops short of the end of `b`.
-/

namespace Readers

open Bytes

variable {α β : Type}

/-- Reads from the front of a string and leaves the rest, or gives up. -/
abbrev Strict := StateT (List UInt8) Option

/-- The bytes that are left, and whether a field was not there. -/
structure Cursor where
  rest : List UInt8
  bad : Bool
deriving DecidableEq, Repr

/-- Reads from the front of a string, or sets the flag. -/
abbrev Sticky := StateM Cursor

/-! ## Fields -/

def bytes (n : Nat) : Strict (List UInt8) :=
  fun bs => if n ≤ bs.length then some (bs.take n, bs.drop n) else none

def upTo (n : Nat) : Strict (List UInt8) := fun bs => some (bs.take n, bs.drop n)

def num (n : Nat) : Strict Nat := do
  let b ← bytes n
  return ofLe b

/-- A string with its length in front, in `n` bytes. -/
def counted (n : Nat) : Strict (List UInt8) := do
  let k ← num n
  bytes k

def times (p : Strict α) : Nat → Strict (List α)
  | 0 => pure []
  | n + 1 => do
    let a ← p
    let as ← times p n
    return a :: as

def orStop (c : Sticky α) (b : β) (d : α → Sticky β) : Sticky β := fun k =>
  if (c k).2.bad then (b, (c k).2) else d (c k).1 (c k).2

/-- `c`, `n` times, for as long as the flag is down. -/
def loop (c : Sticky α) : Nat → Sticky (List α)
  | 0 => pure []
  | n + 1 => orStop c [] fun a => do
    let as ← loop c n
    return a :: as

variable {p : Strict α} {f q : α → Strict β} {bs b s : List UInt8} {a : α} {n x : Nat}
  {c : Sticky α} {d : α → Sticky β} {v : β} {fs : List (Option (List UInt8))}
  {w : Option (List UInt8)}

theorem bind_none (h : p bs = none) : (p >>= f) bs = none := by
  show (p bs).bind _ = none
  rw [h]
  rfl

theorem bind_some {rest : List UInt8} (h : p bs = some (a, rest)) : (p >>= f) bs = f a rest := by
  show (p bs).bind _ = _
  rw [h]
  rfl

theorem bytes_eq (h : n ≤ bs.length) : bytes n bs = some (bs.take n, bs.drop n) := if_pos h

theorem bytes_none (h : bs.length < n) : bytes n bs = none := if_neg (Nat.not_le.mpr h)

theorem num_eq (h : n ≤ bs.length) :
    num n bs = some (ofLe (bs.take n), bs.drop n) := bind_some (bytes_eq h)

theorem num_none (h : bs.length < n) : num n bs = none := bind_none (bytes_none h)

/-! ## A sticky reader that follows a strict one -/

/-- Where `p` reads, `c` reads the same and leaves the flag down; where `p` gives up, the flag is up
after `c`, and it stays up. -/
structure Follows (c : Sticky α) (p : Strict α) : Prop where
  reads : ∀ {bs a rest}, p bs = some (a, rest) → c ⟨bs, false⟩ = (a, ⟨rest, false⟩)
  refuses : ∀ {bs}, p bs = none → (c ⟨bs, false⟩).2.bad = true
  stuck : ∀ {k : Cursor}, k.bad = true → (c k).2.bad = true

theorem follows_pure (a : α) : Follows (pure a) (pure a) where
  reads h := by
    cases h
    rfl
  refuses h := nomatch h
  stuck h := h

theorem Follows.bind (h : Follows c p)
    (hd : ∀ a, Follows (d a) (q a)) : Follows (c >>= d) (p >>= q) where
  reads {bs b rest} hb := by
    cases hp : p bs with
    | none =>
      rw [bind_none hp] at hb
      cases hb
    | some v =>
      obtain ⟨a, mid⟩ := v
      rw [bind_some hp] at hb
      show (d (c ⟨bs, false⟩).1) (c ⟨bs, false⟩).2 = _
      rw [h.reads hp]
      exact (hd a).reads hb
  refuses {bs} hb := by
    show ((d (c ⟨bs, false⟩).1) (c ⟨bs, false⟩).2).2.bad = true
    cases hp : p bs with
    | none => exact (hd _).stuck (h.refuses hp)
    | some v =>
      obtain ⟨a, mid⟩ := v
      rw [bind_some hp] at hb
      rw [h.reads hp]
      exact (hd a).refuses hb
  stuck {k} hk := (hd _).stuck (h.stuck hk)

theorem Follows.map (h : Follows c p) (f : α → β) :
    Follows (do return f (← c)) (do return f (← p)) := h.bind fun a => follows_pure (f a)

theorem Follows.orStop (h : Follows c p) (b : β)
    (hd : ∀ a, Follows (d a) (q a)) : Follows (orStop c b d) (p >>= q) where
  reads {bs v rest} hb := by
    cases hp : p bs with
    | none =>
      rw [bind_none hp] at hb
      cases hb
    | some r =>
      obtain ⟨a, mid⟩ := r
      rw [bind_some hp] at hb
      unfold Readers.orStop
      rw [h.reads hp]
      exact (hd a).reads hb
  refuses {bs} hb := by
    unfold Readers.orStop
    cases hp : p bs with
    | none =>
      rw [if_pos (h.refuses hp)]
      exact h.refuses hp
    | some r =>
      obtain ⟨a, mid⟩ := r
      rw [bind_some hp] at hb
      rw [h.reads hp]
      exact (hd a).refuses hb
  stuck {k} hk := by
    unfold Readers.orStop
    rw [if_pos (h.stuck hk)]
    exact h.stuck hk

theorem follows_loop (h : Follows c p) (n : Nat) : Follows (loop c n) (times p n) := by
  induction n with
  | zero => exact follows_pure []
  | succ n ih => exact h.orStop [] fun a => ih.map (a :: ·)

/-! ## A strict reader that undoes a writer -/

/-- `p` reads `a` off `b`, and refuses what stops short of the end of `b`. -/
structure Reads (p : Strict α) (b : List UInt8) (a : α) : Prop where
  whole : ∀ rest, p (b ++ rest) = some (a, rest)
  cut : ∀ {pre}, pre <+: b → pre ≠ b → p pre = none

theorem Reads.self {p : Strict α} {b : List UInt8} {a : α} (h : Reads p b a) :
    p b = some (a, []) := by
  have hw := h.whole []
  rwa [List.append_nil] at hw

theorem reads_pure (a : α) : Reads (pure a) [] a where
  whole _ := rfl
  cut h hne := absurd (List.prefix_nil.mp h) hne

theorem Reads.bind {b' : List UInt8} (h : Reads p b a)
    (h' : Reads (q a) b' v) : Reads (p >>= q) (b ++ b') v where
  whole rest := by
    rw [List.append_assoc, bind_some (h.whole _)]
    exact h'.whole rest
  cut {pre} hpre hne := by
    rcases Nat.lt_or_ge pre.length b.length with hlt | hge
    · have hb : pre <+: b :=
        List.prefix_of_prefix_length_le hpre (List.prefix_append b b') (Nat.le_of_lt hlt)
      exact bind_none (h.cut hb fun e => absurd (e ▸ hlt) (Nat.lt_irrefl _))
    · obtain ⟨mid, rfl⟩ := List.prefix_of_prefix_length_le (List.prefix_append b b') hpre hge
      rw [bind_some (h.whole mid)]
      exact h'.cut ((List.prefix_append_right_inj b).mp hpre) fun e => hne (e ▸ rfl)

theorem Reads.map (h : Reads p b a) (f : α → β) : Reads (do return f (← p)) b (f a) := by
  have := h.bind (q := fun a => pure (f a)) (reads_pure (f a))
  rwa [List.append_nil] at this

theorem reads_bytes (b : List UInt8) : Reads (bytes b.length) b b where
  whole rest := by
    rw [bytes_eq (by rw [List.length_append]; exact Nat.le_add_right _ _), List.take_left, List.drop_left]
  cut {pre} hpre hne := by
    refine bytes_none (Nat.lt_of_le_of_ne hpre.length_le fun e => hne ?_)
    exact hpre.eq_of_length e

theorem reads_num (h : x < 256 ^ n) : Reads (num n) (le n x) x := by
  have hb := reads_bytes (le n x)
  rw [length_le] at hb
  have := hb.map ofLe
  rwa [ofLe_le_of_lt h] at this

theorem reads_counted (h : s.length < 256 ^ n) :
    Reads (counted n) (le n s.length ++ s) s := (reads_num h).bind (reads_bytes s)

/-! ## Writers that refuse what does not fit -/

def putNum (n x : Nat) : Option (List UInt8) := if x < 256 ^ n then some (le n x) else none

/-- A string with its length in front, in `n` bytes. -/
def putCounted (n : Nat) (s : List UInt8) : Option (List UInt8) :=
  if s.length < 256 ^ n then some (le n s.length ++ s) else none

theorem putNum_eq_some : putNum n x = some b ↔ x < 256 ^ n ∧ b = le n x := by
  rw [putNum, Option.ite_none_right_eq_some, Option.some.injEq, eq_comm]

theorem putCounted_eq_some :
    putCounted n s = some b ↔ s.length < 256 ^ n ∧ b = le n s.length ++ s := by
  rw [putCounted, Option.ite_none_right_eq_some, Option.some.injEq, eq_comm]

def packed : List (Option (List UInt8)) → Option (List UInt8)
  | [] => some []
  | f :: fs => do
    let b ← f
    let bs ← packed fs
    return b ++ bs

@[simp] theorem packed_nil : packed [] = some [] := rfl

theorem packed_cons_some (b : List UInt8) (fs : List (Option (List UInt8))) :
    packed (some b :: fs) = (packed fs).map (b ++ ·) := by
  show ((packed fs).bind fun y => some (b ++ y)) = _
  cases packed fs <;> rfl

theorem packed_one (b : List UInt8) : packed [some b] = some b := by
  rw [packed_cons_some, packed_nil, Option.map_some, List.append_nil]

theorem packed_map {w : α → Option (List UInt8)} {enc : α → List UInt8} {l : List α}
    (h : ∀ a ∈ l, w a = some (enc a)) : packed (l.map w) = some (l.flatMap enc) := by
  induction l with
  | nil => rfl
  | cons a l ih =>
    rw [List.map_cons, h a List.mem_cons_self, packed_cons_some, ih fun b hb => h b (List.mem_cons_of_mem a hb)]
    rfl

theorem packed_cons_eq_some {f : Option (List UInt8)} :
    packed (f :: fs) = some b ↔ ∃ x y, f = some x ∧ packed fs = some y ∧ b = x ++ y := by
  show (f.bind fun x => (packed fs).bind fun y => some (x ++ y)) = some b ↔ _
  simp only [Option.bind_eq_some_iff, Option.some.injEq]
  exact ⟨fun ⟨x, hx, y, hy, e⟩ => ⟨x, y, hx, hy, e.symm⟩, fun ⟨x, y, hx, hy, e⟩ => ⟨x, hx, y, hy, e.symm⟩⟩

theorem packed_append_eq_some {gs : List (Option (List UInt8))} :
    packed (fs ++ gs) = some b ↔ ∃ x y, packed fs = some x ∧ packed gs = some y ∧ b = x ++ y := by
  induction fs generalizing b with
  | nil =>
    constructor
    · intro h
      exact ⟨[], b, rfl, h, rfl⟩
    · rintro ⟨x, y, hx, hy, rfl⟩
      cases hx
      exact hy
  | cons f fs ih =>
    rw [List.cons_append, packed_cons_eq_some]
    constructor
    · rintro ⟨x, y, hx, hy, rfl⟩
      obtain ⟨u, v, hu, hv, rfl⟩ := ih.mp hy
      exact ⟨x ++ u, v, packed_cons_eq_some.mpr ⟨x, u, hx, hu, rfl⟩, hv, (List.append_assoc ..).symm⟩
    · rintro ⟨u, v, hu, hv, rfl⟩
      obtain ⟨x, y, hx, hy, rfl⟩ := packed_cons_eq_some.mp hu
      exact ⟨x, y ++ v, hx, ih.mpr ⟨y, v, hy, hv, rfl⟩, List.append_assoc ..⟩

/-- What `w` writes, if it writes anything, `p` reads as `a`. -/
def Undone (w : Option (List UInt8)) (p : Strict α) (a : α) : Prop := ∀ b, w = some b → Reads p b a

theorem undone_num (n x : Nat) : Undone (putNum n x) (num n) x := by
  intro b h
  obtain ⟨hx, rfl⟩ := putNum_eq_some.mp h
  exact reads_num hx

theorem undone_counted (n : Nat) (s : List UInt8) : Undone (putCounted n s) (counted n) s := by
  intro b h
  obtain ⟨hs, rfl⟩ := putCounted_eq_some.mp h
  exact reads_counted hs

theorem undone_bytes (s : List UInt8) : Undone (some s) (bytes s.length) s := by
  intro b h
  cases h
  exact reads_bytes s

theorem undone_nil (a : α) : Undone (packed []) (pure a) a := by
  intro b h
  cases h
  exact reads_pure a

theorem Undone.map (h : Undone w p a) (f : α → β) :
    Undone w (do return f (← p)) (f a) := fun b hb => (h b hb).map f

theorem Undone.cons {ws : List (Option (List UInt8))} (h : Undone w p a)
    (h' : Undone (packed ws) (q a) v) : Undone (packed (w :: ws)) (p >>= q) v := by
  intro b hb
  obtain ⟨x, y, hx, hy, rfl⟩ := packed_cons_eq_some.mp hb
  exact (h x hx).bind (h' y hy)

theorem undone_times {w : α → Option (List UInt8)} {p : Strict β} {g : α → β}
    (h : ∀ a, Undone (w a) p (g a))
    (l : List α) : Undone (packed (l.map w)) (times p l.length) (l.map g) := by
  induction l with
  | nil => exact undone_nil []
  | cons a l ih => exact (h a).cons (ih.map (g a :: ·))

end Readers
