import Nlos.Tcp.Calls

/-!
# The accounts of the sender

What the sending half of a connection has acknowledged and has sent, as counts from its first
sequence number, and the stream that was written. The numbers on the wire are these counts modulo `2
^ 32`; the queue is the part of the stream behind what is acknowledged. `Emits` says what a method
does to the accounts and what it puts on the wire, and is what the methods are composed by.
-/

namespace Nlos.Tcp

open Serial (shift)
open List

/-! ## The half that sends -/

namespace State

def idle : State → Bool
  | .closed | .listen => true
  | _ => false

def opening : State → Bool
  | .synSent | .synReceived => true
  | _ => false

/-- There is a connection, with our SYN acknowledged. -/
def synced (s : State) : Bool := !s.idle && !s.opening

def said : State → Bool
  | .finWait1 | .finWait2 | .closing | .lastAck | .timeWait => true
  | _ => false

def told : State → Bool
  | .finWait2 | .timeWait => true
  | _ => false

variable {s : State}

theorem synced_iff : s.synced = true ↔ s.idle = false ∧ s.opening = false := by
  unfold synced
  rw [Bool.and_eq_true, Bool.not_eq_true', Bool.not_eq_true']

theorem said_of_told (h : s.told = true) : s.said = true := by cases s <;> first | rfl | cases h

theorem ne_closed (h : s.idle = false) : s ≠ .closed := by
  rintro rfl
  cases h

/-- Where data flows, the connection is not opening, and our FIN is not sent. -/
theorem flows (h : s = .established ∨ s = .closeWait) :
    s.idle = false ∧ s.opening = false ∧ s.said = false := by
  rcases h with rfl | rfl <;> exact ⟨rfl, rfl, rfl⟩

end State

/-- What holds of a segment that arrived: it holds in each state. -/
theorem segment_cases {t : Tcb} {seg : Seg} {now : Option Int} {P : Tcb → Prop}
    (closed : t.state = .closed → P (t.attime now))
    (listen : t.state = .listen → P ((t.attime now).inListen seg))
    (synSent : t.state = .synSent → P ((t.attime now).inSynSent seg))
    (rest : t.state.idle = false → t.state ≠ .synSent → P ((t.attime now).inSynchronized seg)) :
    P (t.segment seg now) := by
  unfold Tcb.segment
  simp only
  split
  next hs => exact closed hs
  next hs => exact listen hs
  next hs => exact synSent hs
  next hc hl hs =>
    refine rest ?_ hs
    revert hc hl
    cases t.state <;> simp [State.idle]

structure Half where
  state : State
  iss : Seq
  una : Seq
  nxt : Seq
  sndq : Bytes
  sndoff : Nat
  finSent : Bool
  finPending : Bool
  finSeq : Option Seq
  inRecovery : Bool
  recover : Seq
  cc : Bool
  armed : Bool

namespace Tcb

def half (t : Tcb) : Half :=
  { state := t.state
    iss := t.iss
    una := t.sndUna
    nxt := t.sndNxt
    sndq := t.sndq
    sndoff := t.sndoff
    finSent := t.finSent
    finPending := t.finPending
    finSeq := t.finSeq
    inRecovery := t.inRecovery
    recover := t.recover
    cc := t.cwnd.isSome
    armed := t.retx.isSome }

def queue (t : Tcb) : Bytes := t.sndq.drop t.sndoff

end Tcb

/-- An open connection that has `u` numbers acknowledged and `x` sent, of the stream `W`. -/
structure Half.Open (W : Bytes) (u x : Nat) (s : Half) : Prop where
  one : 1 ≤ u
  queue : s.sndq.drop s.sndoff = W.drop (u - 1)
  short : W.length + 2 < u + 2 ^ 31
  unsaid : s.finSent = false → x ≤ W.length + 1
  said : s.finSent = true → x = W.length + 2 ∧ s.finSeq = some (shift s.iss (W.length + 1))
  fin : s.finSent = s.state.said
  told : s.state.told = true → u = x
  recover : s.inRecovery = true → ∃ v, u < v ∧ v ≤ x ∧ s.recover = shift s.iss v

/-- The sending half has `u` numbers acknowledged and `x` sent, of the stream `W`. -/
structure Accounts (W : Bytes) (u x : Nat) (s : Half) : Prop where
  una : s.una = shift s.iss u
  nxt : s.nxt = shift s.iss x
  le : u ≤ x
  near : x < u + 2 ^ 31
  off : s.sndoff ≤ s.sndq.length
  asked : s.finSent = true → s.finPending = true
  unseq : s.finSent = false → s.finSeq = none
  rest : s.finSent = true → s.armed = true → u < x
  cc : s.state.idle = false → s.state ≠ .synSent → s.cc = true
  idle : s.state.idle = true → s.sndq.drop s.sndoff = []
  listen : s.state = .listen → s.finSent = false ∧ s.inRecovery = false
  opening : s.state.opening = true →
    s.sndq.drop s.sndoff = [] ∧ W = [] ∧ u = 0 ∧ x = 1 ∧ s.finSent = false ∧ s.inRecovery = false
  flow : s.state.idle = false → s.state.opening = false → s.Open W u x

/-! ## Segments that say what the stream says -/

/-- The segment stands `p` numbers behind the first one and carries what the stream has there. -/
structure Says (W : Bytes) (iss : Seq) (p : Nat) (s : Seg) : Prop where
  seq : s.seq = shift iss p
  data : s.data ≠ [] → 1 ≤ p ∧ s.data <+: W.drop (p - 1)
  syn : s.flags.syn = true → p = 0 ∧ s.data = [] ∧ s.flags.fin = false

section Sound

variable (A B : Prop)

/-- A segment that is not a reset says what the stream says. Given `A` it ends within what is sent,
and given `B` its FIN is at the end of the stream. -/
def Sound (W : Bytes) (fin : Bool) (iss : Seq) (u x : Nat) (s : Seg) : Prop :=
  s.flags.rst = true ∨ ∃ p, u ≤ p ∧ Says W iss p s ∧ (A → p + s.seglen ≤ x) ∧
    (B → s.flags.fin = true → fin = true ∧ p + s.data.length = W.length + 1)

/-- The connection went on from `t` to `t'`, having sent `x'` numbers then. -/
structure Sends (W : Bytes) (u x' : Nat) (t t' : Tcb) : Prop where
  accounts : Accounts W u x' t'.half
  iss : t'.iss = t.iss
  fin : t.finSent = true → t'.finSent = true
  out : ∃ l, t'.out = t.out ++ l ∧ ∀ s ∈ l, Sound A B W t'.finSent t.iss u x' s

/-- From accounts that are right, `t'` follows on `t` with nothing more acknowledged. -/
def Emits (W : Bytes) (u : Nat) (t t' : Tcb) : Prop :=
  ∀ x, Accounts W u x t.half → ∃ x', x ≤ x' ∧ Sends A B W u x' t t'

variable {A B} {W : Bytes} {u x x' : Nat} {t t' t'' : Tcb}

theorem Sound.mono {f f' : Bool} {iss : Seq} {s : Seg} (h : Sound A B W f iss u x s) (hx : x ≤ x')
    (hf : f = true → f' = true) : Sound A B W f' iss u x' s := by
  rcases h with h | ⟨p, hp, hs, ha, hb⟩
  · exact .inl h
  · refine .inr ⟨p, hp, hs, fun a => (ha a).trans hx, fun b hfin => ?_⟩
    obtain ⟨h1, h2⟩ := hb b hfin
    exact ⟨hf h1, h2⟩

theorem Sends.still (hi : t'.iss = t.iss) (hf : t'.finSent = t.finSent) (ho : t'.out = t.out)
    (h : Accounts W u x t'.half) : Sends A B W u x t t' :=
  ⟨h, hi, hf.trans, [], by rw [ho, append_nil], by simp⟩

theorem Sends.trans (h1 : Sends A B W u x t t') (h2 : Sends A B W u x' t' t'') (hx : x ≤ x') :
    Sends A B W u x' t t'' := by
  obtain ⟨l1, e1, hl1⟩ := h1.out
  obtain ⟨l2, e2, hl2⟩ := h2.out
  refine ⟨h2.accounts, h2.iss.trans h1.iss, h2.fin ∘ h1.fin, l1 ++ l2, ?_, ?_⟩
  · rw [e2, e1, append_assoc]
  · intro s hs
    rcases mem_append.mp hs with hs | hs
    · exact (hl1 s hs).mono hx h2.fin
    · exact h1.iss ▸ hl2 s hs

namespace Emits

theorem still (hi : t'.iss = t.iss) (hf : t'.finSent = t.finSent) (ho : t'.out = t.out)
    (h : ∀ {x}, Accounts W u x t.half → Accounts W u x t'.half) : Emits A B W u t t' :=
  fun x hx => ⟨x, Nat.le_refl x, .still hi hf ho (h hx)⟩

theorem quiet (h : t'.half = t.half) (ho : t'.out = t.out) : Emits A B W u t t' :=
  still (congrArg Half.iss h) (congrArg Half.finSent h) ho fun hx => h ▸ hx

theorem refl : Emits A B W u t t := quiet rfl rfl

theorem trans (h1 : Emits A B W u t t') (h2 : Emits A B W u t' t'') : Emits A B W u t t'' := by
  intro x hx
  obtain ⟨x1, hx1, s1⟩ := h1 x hx
  obtain ⟨x2, hx2, s2⟩ := h2 x1 s1.accounts
  exact ⟨x2, hx1.trans hx2, s1.trans s2 hx2⟩

/-- What a method does after it knows that the accounts are right. -/
theorem of_accounts (h : ∀ x, Accounts W u x t.half → Emits A B W u t t') : Emits A B W u t t' :=
  fun x hx => h x hx x hx

theorem one {s : Seg} (ho : t'.out = t.out ++ [s]) (hi : t'.iss = t.iss)
    (hf : t.finSent = true → t'.finSent = true)
    (h : ∀ x, Accounts W u x t.half → ∃ x', x ≤ x' ∧ Accounts W u x' t'.half ∧ Sound A B W t'.finSent t.iss u x' s) :
    Emits A B W u t t' := by
  intro x hx
  obtain ⟨x', hle, ha, hs⟩ := h x hx
  refine ⟨x', hle, ha, hi, hf, [s], ho, ?_⟩
  intro s' hs'
  rw [mem_singleton.mp hs']
  exact hs

end Emits

end Sound

/-! ## What the accounts say about the record -/

namespace Accounts

variable {W : Bytes} {u x : Nat} {t : Tcb}

variable (h : Accounts W u x t.half)

include h

theorem sndUna : t.sndUna = shift t.iss u := h.una

theorem sndNxt : t.sndNxt = shift t.iss x := h.nxt

/-- A number behind what is acknowledged, and not behind what is sent. -/
theorem between {a : Seq} (h1 : Tcp4.lt t.sndUna a = true) (h2 : Tcp4.gt a t.sndNxt = false) :
    ∃ i, u < i ∧ i ≤ x ∧ a = shift t.iss i := by
  rw [h.sndUna] at h1
  rw [h.sndNxt] at h2
  exact Tcp4.exists_between t.iss h.le h.near h1 h2

theorem flight : t.flight = (x : Int) - u := by
  have hle := h.le
  have hnear := h.near
  unfold Tcb.flight
  rw [h.sndNxt, h.sndUna]
  exact Tcp4.diff_shift t.iss (by omega) hnear

theorem lt_of_flight (hl : 0 < t.flight) : u < x := by
  rw [h.flight] at hl
  omega

theorem qlen : t.qlen = t.queue.length := by
  have hoff : t.sndoff ≤ t.sndq.length := h.off
  unfold Tcb.qlen Tcb.queue
  rw [length_drop]
  omega

theorem queue_eq_nil (hs : t.state.idle = true ∨ t.state.opening = true) : t.queue = [] := by
  rcases hs with hs | hs
  · exact h.idle hs
  · exact (h.opening hs).1

theorem open_of_queue (hq : t.queue ≠ []) : t.half.Open W u x := by
  refine h.flow ?_ ?_
  · cases hs : t.half.state.idle with
    | false => rfl
    | true => exact absurd (h.queue_eq_nil (.inl hs)) hq
  · cases hs : t.half.state.opening with
    | false => rfl
    | true => exact absurd (h.queue_eq_nil (.inr hs)) hq

end Accounts

namespace Half.Open

variable {W : Bytes} {u x : Nat} {t : Tcb}

theorem queue_length (h : t.half.Open W u x) : t.queue.length = W.length - (u - 1) := by
  rw [show t.queue = W.drop (u - 1) from h.queue, length_drop]

/-- The bytes of the queue are bytes of the stream. -/
theorem queue_drop (h : t.half.Open W u x) (i : Nat) : t.queue.drop i = W.drop (u + i - 1) := by
  have := h.one
  rw [show t.queue = W.drop (u - 1) from h.queue, drop_drop]
  congr 1
  omega

end Half.Open

theorem Tcb.qsub_eq (t : Tcb) {a : Nat} (b : Nat) (ha : 1 ≤ a) :
    t.qsub a b = (t.queue.drop (a - 1)).take (b + 1 - a) := by
  unfold Tcb.qsub Tcb.queue
  rw [drop_drop]
  congr 2
  omega

end Nlos.Tcp
