import Mathlib

/-!
# Channels

The channels of `src/thread.c`. A channel keeps what was sent and not taken in `buf`, up to its
capacity, and the rest in `sendq`, as a record for each sender that waits. A sender that meets a
parked receiver on a channel of capacity 0 leaves a record too, which nobody waits on. Receivers
wait in `recvq`, and every send wakes all of them.

`buf` is a lua list, and a lua list cannot hold a `nil`: storing one behind its end leaves it as it
was. `push` is that store.

`accepted` and `received` are not in the source. They list what the channel has taken, with the
record it came by, and what it has given out, each in the order it happened.
-/

namespace Nlos.Thread

open List

variable {α : Type}

/-! ## Channels and their operations -/

/-- What a sender leaves in `sendq`. `v` is a lua value, `none` for `nil`. A record with no thread
in `co` is a value that was deposited. -/
structure SendRec (α : Type) where
  rid : Nat
  v : Option α
  co : Option Nat
deriving DecidableEq, Repr

/-- The table a receiver is in `recvq` with: a new one for a `recv`, and the one of the case for an
`alt`. -/
inductive Waiter where
  | recv (co n : Nat)
  | alt (co i : Nat)
deriving DecidableEq, Repr

def Waiter.co : Waiter → Nat
  | .recv co _ | .alt co _ => co

/-- A channel. `done` lists the records whose `done` is set, and those of the values that went
straight to the buffer, which have no record. -/
structure Chan (α : Type) where
  cap : Int
  buf : List α
  sendq : List (SendRec α)
  recvq : List Waiter
  closed : Bool
  done : List Nat
  accepted : List (Nat × Option α)
  received : List (Option α)
deriving DecidableEq, Repr

inductive Got (α : Type) where
  | nothing
  | value (v : Option α)
  | closed
deriving DecidableEq, Repr

/-- `t[#t + 1] = v`. -/
def push (l : List α) : Option α → List α
  | none => l
  | some x => l ++ [x]

namespace Chan

def create (cap : Int) : Chan α where
  cap := cap
  buf := []
  sendq := []
  recvq := []
  closed := false
  done := []
  accepted := []
  received := []

def accept (ch : Chan α) (rid : Nat) (v : Option α) : Chan α :=
  { ch with done := ch.done ++ [rid], accepted := ch.accepted ++ [(rid, v)] }

/-- The sender of a record is told that its value went. A deposited one has been. -/
def settle (ch : Chan α) (e : SendRec α) : Chan α :=
  match e.co with
  | none => ch
  | some _ => ch.accept e.rid e.v

def wakercv (ch : Chan α) : Chan α × List Nat := ({ ch with recvq := [] }, ch.recvq.map Waiter.co)

/-- `nbsend`, with the threads it readies. No answer is the error it raises. -/
def nbsend (ch : Chan α) (rid : Nat) (v : Option α) : Option (Bool × Chan α × List Nat) :=
  if ch.closed then none
  else if (ch.buf.length : Int) < ch.cap then
    some (true, ({ ch with buf := push ch.buf v }.accept rid v).wakercv)
  else if ch.cap = 0 ∧ ch.recvq ≠ [] then
    some (true, ({ ch with sendq := ch.sendq ++ [SendRec.mk rid v none] }.accept rid v).wakercv)
  else some (false, ch, [])

/-- `nbrecv`, with the thread it readies. Where the buffer gives a value, a sender that waits has
its value moved in. -/
def nbrecv (ch : Chan α) : Got α × Chan α × List Nat :=
  match ch.buf, ch.sendq with
  | x :: buf, [] =>
    (.value (some x), { ch with buf := buf, received := ch.received ++ [some x] }, [])
  | x :: buf, e :: q =>
    (.value (some x),
      { ch with buf := push buf e.v, sendq := q, received := ch.received ++ [some x] }.settle e,
        e.co.toList)
  | [], e :: q =>
    (.value e.v, { ch with sendq := q, received := ch.received ++ [e.v] }.settle e, e.co.toList)
  | [], [] => (if ch.closed then .closed else .nothing, ch, [])

def waiting (ch : Chan α) : List (SendRec α) := ch.sendq.filter (·.co.isSome)

def deposits (ch : Chan α) : List (SendRec α) := ch.sendq.filter (·.co.isNone)

/-- `chan:close`, with the threads it readies: the senders, whose records go, and the receivers. -/
def close (ch : Chan α) : Chan α × List Nat :=
  if ch.closed then (ch, [])
  else
    let (ch', l) := { ch with closed := true, sendq := ch.deposits }.wakercv
    (ch', ch.waiting.filterMap (·.co) ++ l)

/-- A sender joins `sendq`, and the receivers are woken. -/
def enqueue (ch : Chan α) (e : SendRec α) : Chan α × List Nat :=
  { ch with sendq := ch.sendq ++ [e] }.wakercv

def register (ch : Chan α) (w : Waiter) : Chan α := { ch with recvq := ch.recvq ++ [w] }

def unlink (ch : Chan α) (w : Waiter) : Chan α := { ch with recvq := ch.recvq.erase w }

/-! ## What a channel keeps to -/

/-- What holds of a channel whatever is sent on it. Where somebody waits to receive there is nothing
to receive; deposited values are in front of the senders that wait; a closed channel has no such
senders, and only one of capacity 0 has deposited values. -/
structure Sound (ch : Chan α) : Prop where
  idle : ch.recvq ≠ [] → ch.buf = [] ∧ ch.sendq = [] ∧ ch.closed = false
  order : ch.sendq.Pairwise fun d e => e.co = none → d.co = none
  shut : ch.closed = true → ∀ e ∈ ch.sendq, e.co = none
  plain : ch.cap ≠ 0 → ∀ e ∈ ch.sendq, e.co ≠ none
  dry : ch.cap ≤ 0 → ch.buf = []
  fits : 0 < ch.cap → (ch.buf.length : Int) ≤ ch.cap
  done : ch.done = ch.accepted.map Prod.fst

theorem sound_create (cap : Int) : (create cap : Chan α).Sound where
  idle h := absurd rfl h
  order := .nil
  shut h := by cases h
  plain _ := nofun
  dry _ := rfl
  fits h := Int.le_of_lt h
  done := rfl

variable {ch ch' : Chan α} {rid : Nat} {v : Option α} {b : Bool} {l : List Nat} {g : Got α}
    {e : SendRec α}

theorem nbsend_some (h : ch.nbsend rid v = some (b, ch', l)) : ch.closed = false ∧
    ((b = true ∧ (ch.buf.length : Int) < ch.cap ∧ l = ch.recvq.map Waiter.co ∧
        ch' = { ch.accept rid v with buf := push ch.buf v, recvq := [] }) ∨
      (b = true ∧ ch.cap = 0 ∧ ch.recvq ≠ [] ∧ l = ch.recvq.map Waiter.co ∧
        ch' = { ch.accept rid v with sendq := ch.sendq ++ [⟨rid, v, none⟩], recvq := [] }) ∨
      (b = false ∧ ¬(ch.buf.length : Int) < ch.cap ∧ ¬(ch.cap = 0 ∧ ch.recvq ≠ []) ∧ l = [] ∧ ch' = ch)) := by
  unfold nbsend at h
  split at h
  · cases h
  next hc =>
  refine ⟨Bool.eq_false_iff.mpr hc, ?_⟩
  split at h
  next hr =>
    cases h
    exact .inl ⟨rfl, hr, rfl, rfl⟩
  next hr =>
  split at h
  next hd =>
    cases h
    exact .inr (.inl ⟨rfl, hd.1, hd.2, rfl, rfl⟩)
  next hd =>
    cases h
    exact .inr (.inr ⟨rfl, hr, hd, rfl, rfl⟩)

/-- A send that raises finds the channel closed. -/
theorem nbsend_none (h : ch.nbsend rid v = none) : ch.closed = true := by
  unfold nbsend at h
  split at h
  next hc => exact hc
  split at h
  · cases h
  · split at h <;> cases h

/-- A send that goes is logged with its record. -/
theorem nbsend_accepts (h : ch.nbsend rid v = some (true, ch', l)) : (rid, v) ∈ ch'.accepted := by
  rcases (nbsend_some h).2 with ⟨-, -, -, rfl⟩ | ⟨-, -, -, -, rfl⟩ | ⟨hb, -⟩
  · exact mem_append_right _ (mem_singleton.mpr rfl)
  · exact mem_append_right _ (mem_singleton.mpr rfl)
  · cases hb

theorem nbrecv_cases (h : ch.nbrecv = (g, ch', l)) :
    (∃ x buf, ch.buf = x :: buf ∧ ch.sendq = [] ∧ g = .value (some x) ∧ l = [] ∧
      ch' = { ch with buf := buf, received := ch.received ++ [some x] }) ∨
    (∃ x buf e q, ch.buf = x :: buf ∧ ch.sendq = e :: q ∧ g = .value (some x) ∧ l = e.co.toList ∧
      ch' =
        { ch with buf := push buf e.v, sendq := q, received := ch.received ++ [some x] }.settle e) ∨
    (∃ e q, ch.buf = [] ∧ ch.sendq = e :: q ∧ g = .value e.v ∧ l = e.co.toList ∧
      ch' = { ch with sendq := q, received := ch.received ++ [e.v] }.settle e) ∨
    (ch.buf = [] ∧ ch.sendq = [] ∧ g = (if ch.closed then .closed else .nothing) ∧ l = [] ∧ ch' = ch) := by
  unfold nbrecv at h
  split at h
  next x buf hb hq =>
    cases h
    exact .inl ⟨x, buf, hb, hq, rfl, rfl, rfl⟩
  next x buf e q hb hq =>
    cases h
    exact .inr (.inl ⟨x, buf, e, q, hb, hq, rfl, rfl, rfl⟩)
  next e q hb hq =>
    cases h
    exact .inr (.inr (.inl ⟨e, q, hb, hq, rfl, rfl, rfl⟩))
  next hb hq =>
    cases h
    exact .inr (.inr (.inr ⟨hb, hq, rfl, rfl, rfl⟩))

def Empty (ch : Chan α) : Prop := ch.buf = [] ∧ ch.sendq = [] ∧ ch.closed = false

/-- A receiver that is given nothing finds the channel empty. -/
theorem nbrecv_closed (h : ch.nbrecv = (g, ch', l)) (hv : ∀ v, g ≠ .value v) :
    ch.buf = [] ∧ ch.sendq = [] ∧ g = if ch.closed then .closed else .nothing := by
  rcases nbrecv_cases h with ⟨_, _, _, _, hg, _⟩ | ⟨_, _, _, _, _, _, hg, _⟩ | ⟨_, _, _, _, hg, _⟩ | ⟨hb, hq, hg, -, -⟩
  · exact absurd hg (hv _)
  · exact absurd hg (hv _)
  · exact absurd hg (hv _)
  · exact ⟨hb, hq, hg⟩

/-- One that is not told of a close finds it open. -/
theorem nbrecv_nothing (h : ch.nbrecv = (.nothing, ch', l)) : ch.Empty := by
  obtain ⟨hb, hq, hg⟩ := nbrecv_closed h nofun
  refine ⟨hb, hq, ?_⟩
  cases hcl : ch.closed with
  | false => rfl
  | true =>
    rw [hcl] at hg
    cases hg

/-! ## The sound channel -/

section

variable (ch e)

@[simp] theorem settle_cap : (ch.settle e).cap = ch.cap := by
  unfold settle
  split <;> rfl

@[simp] theorem settle_buf : (ch.settle e).buf = ch.buf := by
  unfold settle
  split <;> rfl

@[simp] theorem settle_sendq : (ch.settle e).sendq = ch.sendq := by
  unfold settle
  split <;> rfl

@[simp] theorem settle_recvq : (ch.settle e).recvq = ch.recvq := by
  unfold settle
  split <;> rfl

@[simp] theorem settle_closed : (ch.settle e).closed = ch.closed := by
  unfold settle
  split <;> rfl

end

namespace Sound

/-- Whatever is taken from the front, and whoever is not waiting any more, a channel stays sound. -/
theorem shrink (h : ch.Sound) (hcap : ch'.cap = ch.cap) (hb : ch'.buf.length ≤ ch.buf.length)
    (hq : ch'.sendq.Sublist ch.sendq) (hr : ch'.recvq.Sublist ch.recvq)
    (hc : ch'.closed = ch.closed) (hd : ch'.done = ch'.accepted.map Prod.fst) : ch'.Sound := by
  refine ⟨fun hn => ?_, h.order.sublist hq, fun hs e he => ?_, fun h0 e he => ?_, fun h0 => ?_, fun h0 => ?_, hd⟩
  · have hne : ch.recvq ≠ [] := fun h0 => hn (sublist_nil.mp (h0 ▸ hr))
    obtain ⟨h1, h2, h3⟩ := h.idle hne
    rw [h1] at hb
    rw [h2] at hq
    exact ⟨length_eq_zero_iff.mp (Nat.le_zero.mp hb), sublist_nil.mp hq, hc.trans h3⟩
  · exact h.shut (hc ▸ hs) e (hq.subset he)
  · exact h.plain (hcap ▸ h0) e (hq.subset he)
  · have := h.dry (hcap ▸ h0)
    rw [this] at hb
    exact length_eq_zero_iff.mp (Nat.le_zero.mp hb)
  · rw [hcap] at h0 ⊢
    exact Int.le_trans (Int.ofNat_le.mpr hb) (h.fits h0)

theorem settled (ch : Chan α) (h : ch.done = ch.accepted.map Prod.fst) (e : SendRec α) :
    (ch.settle e).done = (ch.settle e).accepted.map Prod.fst := by
  unfold settle
  split
  · exact h
  show ch.done ++ [e.rid] = (ch.accepted ++ [(e.rid, e.v)]).map Prod.fst
  rw [h, map_append]
  rfl

theorem length_push_le (l : List α) (v : Option α) : (push l v).length ≤ l.length + 1 := by
  cases v with
  | none => exact Nat.le_succ _
  | some x => exact Nat.le_of_eq length_append

theorem nbsend (h : ch.Sound) (hs : ch.nbsend rid v = some (b, ch', l)) : ch'.Sound := by
  obtain ⟨hc, hs⟩ := nbsend_some hs
  have hdone : ch.done ++ [rid] = (ch.accepted ++ [(rid, v)]).map Prod.fst := by
    rw [h.done, map_append]
    rfl
  rcases hs with ⟨-, hroom, -, rfl⟩ | ⟨-, hcap, hne, -, rfl⟩ | ⟨-, -, -, -, rfl⟩
  · have hpos : 0 < ch.cap := Int.lt_of_le_of_lt (Int.natCast_nonneg _) hroom
    refine ⟨fun hn => absurd rfl hn, h.order, h.shut, h.plain,
      fun h0 => absurd hpos (Int.not_lt.mpr h0), fun _ => ?_, hdone⟩
    have := length_push_le ch.buf v
    show ((push ch.buf v).length : Int) ≤ ch.cap
    omega
  · -- somebody is parked, so there is no sender in front of the deposit
    obtain ⟨hb, hq, -⟩ := h.idle hne
    refine ⟨fun hn => absurd rfl hn, ?_, fun hcl => ?_, fun h0 => absurd hcap h0, fun _ => hb, fun h0 => ?_, hdone⟩
    · rw [hq]
      exact pairwise_singleton _ _
    · rw [show ch.closed = true from hcl] at hc
      cases hc
    · exact absurd hcap (Int.ne_of_gt h0)
  · exact h

theorem settle (h : ch.Sound) {q : List (SendRec α)} (hq : ch.sendq = e :: q) {buf : List α}
    (hb : buf.length ≤ ch.buf.length) (got : List (Option α)) :
    ({ ch with buf := buf, sendq := q, received := got }.settle e).Sound := by
  refine h.shrink (settle_cap _ e) ?_ ?_ ?_ (settle_closed _ e) ?_
  · rw [settle_buf]
    exact hb
  · rw [settle_sendq, hq]
    exact sublist_cons_self e q
  · rw [settle_recvq]
  · apply settled
    exact h.done

theorem nbrecv (h : ch.Sound) (hg : ch.nbrecv = (g, ch', l)) : ch'.Sound := by
  rcases nbrecv_cases hg with ⟨x, buf, hb, hq, -, -, rfl⟩ | ⟨x, buf, e, q, hb, hq, -, -, rfl⟩ |
    ⟨e, q, hb, hq, -, -, rfl⟩ | ⟨-, -, -, -, rfl⟩
  · refine h.shrink rfl ?_ (List.Sublist.refl _) (List.Sublist.refl _) rfl h.done
    rw [hb]
    exact Nat.le_succ _
  · refine h.settle hq ?_ _
    rw [hb]
    exact length_push_le buf e.v
  · exact h.settle hq Nat.le.refl _
  · exact h

theorem close (h : ch.Sound) : ch.close.1.Sound := by
  unfold Chan.close
  split
  · exact h
  have hsub : ch.deposits.Sublist ch.sendq := filter_sublist
  refine ⟨fun hn => absurd rfl hn, h.order.sublist hsub, fun _ e he => ?_, fun h0 e he => ?_, h.dry, h.fits, h.done⟩
  · exact Option.isNone_iff_eq_none.mp (mem_filter.mp he).2
  · exact h.plain h0 e (hsub.subset he)

theorem enqueue (h : ch.Sound) (hc : ch.closed = false) {t : Nat} (he : e.co = some t) :
    (ch.enqueue e).1.Sound := by
  refine ⟨fun hn => absurd rfl hn, ?_, fun hs => ?_, fun h0 d hd => ?_, h.dry, h.fits, h.done⟩
  · refine pairwise_append.mpr ⟨h.order, pairwise_singleton _ _, fun d _ e' he' hn => ?_⟩
    rw [mem_singleton.mp he', he] at hn
    cases hn
  · rw [show ch.closed = true from hs] at hc
    cases hc
  · rcases mem_append.mp hd with hd | hd
    · exact h.plain h0 d hd
    · rw [mem_singleton.mp hd, he]
      nofun

theorem register (h : ch.Sound) (he : ch.Empty) (w : Waiter) : (ch.register w).Sound :=
  ⟨fun _ => he, h.order, h.shut, h.plain, h.dry, h.fits, h.done⟩

theorem unlink (h : ch.Sound) (w : Waiter) : (ch.unlink w).Sound :=
  h.shrink rfl Nat.le.refl (List.Sublist.refl _) erase_sublist rfl h.done

end Sound

/-! ## Records -/

/-- The records the channel has settled or keeps for somebody who waits. -/
def rids (ch : Chan α) : List Nat := ch.accepted.map Prod.fst ++ ch.waiting.map SendRec.rid

variable {q : List (SendRec α)}

/-- A record that is settled goes from the one list to the end of the other. -/
theorem rids_settle (hq : ch.sendq = e :: q) (ha : ch'.accepted = ch.accepted)
    (hc : ch'.sendq = q) : (ch'.settle e).rids = ch.rids := by
  unfold rids waiting
  rw [settle_sendq, hc, hq]
  unfold settle
  match ht : e.co with
  | none =>
    rw [ha, filter_cons_of_neg]
    rw [ht]
    nofun
  | some t =>
    show (ch'.accepted ++ [(e.rid, e.v)]).map Prod.fst ++ _ = _
    rw [ha, filter_cons_of_pos, map_append, append_assoc]
    · rfl
    · rw [ht]
      rfl

theorem rids_nbrecv (hn : ch.nbrecv = (g, ch', l)) : ch'.rids = ch.rids := by
  rcases nbrecv_cases hn with ⟨x, buf, hb, hq, -, -, rfl⟩ | ⟨x, buf, e, q, hb, hq, -, -, rfl⟩ |
    ⟨e, q, hb, hq, -, -, rfl⟩ | ⟨-, -, -, -, rfl⟩
  · rfl
  · refine rids_settle hq ?_ ?_ <;> rfl
  · refine rids_settle hq ?_ ?_ <;> rfl
  · rfl

/-- Every record is one send's, and was made before `n`. -/
structure Fresh (ch : Chan α) (n : Nat) : Prop where
  once : ch.rids.Nodup
  made : ∀ x ∈ ch.rids, x < n

theorem fresh_create (cap : Int) (n : Nat) : (create cap : Chan α).Fresh n := ⟨nodup_nil, nofun⟩

namespace Fresh

variable {n : Nat}

variable (h : ch.Fresh n)

include h

theorem mono {m : Nat} (hm : n ≤ m) : ch.Fresh m :=
  ⟨h.once, fun x hx => Nat.lt_of_lt_of_le (h.made x hx) hm⟩

theorem sub (hs : ch'.rids.Sublist ch.rids) : ch'.Fresh n :=
  ⟨h.once.sublist hs, fun x hx => h.made x (hs.subset hx)⟩

/-- A new record is put in somewhere. -/
theorem insert {l1 l2 : List Nat} (h1 : ch.rids = l1 ++ l2) (h2 : ch'.rids = l1 ++ n :: l2) :
    ch'.Fresh (n + 1) := by
  have hp : (l1 ++ n :: l2).Perm (n :: (l1 ++ l2)) := perm_middle
  constructor
  · rw [h2, hp.nodup_iff, ← h1]
    exact nodup_cons.mpr ⟨fun hn => Nat.lt_irrefl n (h.made n hn), h.once⟩
  · intro x hx
    rw [h2, hp.mem_iff, ← h1] at hx
    rcases mem_cons.mp hx with rfl | hx
    · exact Nat.lt_succ_self _
    · exact Nat.lt_succ_of_lt (h.made x hx)

theorem nbsend (hn : ch.nbsend n v = some (b, ch', l)) : ch'.Fresh (n + 1) := by
  rcases (nbsend_some hn).2 with ⟨-, -, -, rfl⟩ | ⟨-, -, -, -, rfl⟩ | ⟨-, -, -, -, rfl⟩
  · refine h.insert rfl ?_
    show (ch.accepted ++ [(n, v)]).map Prod.fst ++ _ = _
    rw [map_append, append_assoc]
    rfl
  · refine h.insert rfl ?_
    show (ch.accepted ++ [(n, v)]).map Prod.fst ++ (List.filter _ (ch.sendq ++ [_])).map _ = _
    simp [waiting]
  · exact h.mono (Nat.le_succ n)

theorem nbrecv (hn : ch.nbrecv = (g, ch', l)) : ch'.Fresh n :=
  h.sub (by rw [rids_nbrecv hn])

theorem close : ch.close.1.Fresh n := by
  unfold Chan.close
  split
  · exact h
  · refine h.sub (List.Sublist.append_left ?_ _)
    exact (filter_sublist.filter _).map _

theorem enqueue {t : Nat} (he : e = ⟨n, v, some t⟩) : (ch.enqueue e).1.Fresh (n + 1) := by
  refine h.insert (append_nil _).symm ?_
  show ch.accepted.map _ ++ (List.filter _ (ch.sendq ++ [e])).map _ = _
  rw [filter_append, filter_singleton, he]
  simp [rids, waiting]

end Fresh

/-! ## What leaves a queue is woken -/

/-- No send of this record can come about any more. -/
def Bars (ch : Chan α) (rid : Nat) : Prop := ch.closed = true ∧ rid ∉ ch.rids

def Settled (ch : Chan α) (e : SendRec α) : Prop := (e.rid, e.v) ∈ ch.accepted ∨ ch.Bars e.rid

/-- What a channel becomes, and the threads `l` that are woken for it: whoever left a queue, the
senders only when their send is decided. -/
structure Wakes (ch ch' : Chan α) (l : List Nat) : Prop where
  recv : ∀ w ∈ ch.recvq, w ∈ ch'.recvq ∨ w.co ∈ l
  send : ∀ e ∈ ch.sendq, ∀ t, e.co = some t → e ∈ ch'.sendq ∨ t ∈ l ∧ ch'.Settled e
  grows : ch.accepted ⊆ ch'.accepted
  bars : ∀ rid, ch.Bars rid → ch'.Bars rid

theorem Wakes.refl (ch : Chan α) : Wakes ch ch [] :=
  ⟨fun _ hw => .inl hw, fun _ he _ _ => .inl he, fun _ hx => hx, fun _ hb => hb⟩

theorem Wakes.settled (h : Wakes ch ch' l) (he : ch.Settled e) : ch'.Settled e :=
  he.imp (fun hm => h.grows hm) (h.bars e.rid)

theorem wakes_nbsend (h : ch.nbsend rid v = some (b, ch', l)) : Wakes ch ch' l := by
  obtain ⟨hopen, h⟩ := nbsend_some h
  have hbars : ∀ {c : Chan α} (r : Nat), ch.Bars r → c.Bars r := fun r hb => by
    rw [hb.1] at hopen
    cases hopen
  rcases h with ⟨-, -, rfl, rfl⟩ | ⟨-, -, -, rfl, rfl⟩ | ⟨-, -, -, rfl, rfl⟩
  · exact ⟨fun w hw => .inr (mem_map_of_mem hw), fun e he t _ => .inl he, subset_append_left _ _, hbars⟩
  · exact ⟨fun w hw => .inr (mem_map_of_mem hw), fun e he t _ => .inl (mem_append_left _ he),
      subset_append_left _ _, hbars⟩
  · exact .refl _

theorem wakes_settle (hq : ch.sendq = e :: q) (ha : ch'.accepted = ch.accepted)
    (hs : ch'.sendq = q) (hr : ch'.recvq = ch.recvq) (hc : ch'.closed = ch.closed) :
    Wakes ch (ch'.settle e) e.co.toList := by
  refine ⟨fun w hw => .inl ?_, fun d hd t ht => ?_, fun x hx => ?_, fun r hb => ⟨?_, ?_⟩⟩
  · rw [settle_recvq, hr]
    exact hw
  · rw [hq] at hd
    rcases mem_cons.mp hd with rfl | hd
    · refine .inr ⟨by rw [ht]; exact mem_singleton.mpr rfl, .inl ?_⟩
      rw [settle, ht]
      exact mem_append_right _ (mem_singleton.mpr rfl)
    · exact .inl (by rw [settle_sendq, hs]; exact hd)
  · unfold settle
    split
    · rw [ha]
      exact hx
    · exact mem_append_left _ (ha ▸ hx)
  · rw [settle_closed, hc]
    exact hb.1
  · rw [rids_settle hq ha hs]
    exact hb.2

theorem wakes_nbrecv (h : ch.nbrecv = (g, ch', l)) : Wakes ch ch' l := by
  rcases nbrecv_cases h with ⟨x, buf, -, hq, -, rfl, rfl⟩ | ⟨x, buf, d, q, -, hq, -, rfl, rfl⟩ |
    ⟨d, q, -, hq, -, rfl, rfl⟩ | ⟨-, -, -, rfl, rfl⟩
  · exact ⟨fun w hw => .inl hw, fun e he t _ => .inl he, fun _ hx => hx, fun _ hb => hb⟩
  · refine wakes_settle hq ?_ ?_ ?_ ?_ <;> rfl
  · refine wakes_settle hq ?_ ?_ ?_ ?_ <;> rfl
  · exact .refl _

theorem wakes_close {n : Nat} (hf : ch.Fresh n) : Wakes ch ch.close.1 ch.close.2 := by
  unfold close
  split
  · exact .refl _
  next hopen =>
  refine ⟨fun w hw => .inr (mem_append_right _ (mem_map_of_mem hw)), fun e he t ht => .inr ⟨?_, .inr ⟨rfl, ?_⟩⟩,
    fun _ hx => hx, fun _ hb => absurd hb.1 hopen⟩
  · refine mem_append_left _ (mem_filterMap.mpr ⟨e, mem_filter.mpr ⟨he, ?_⟩, ht⟩)
    rw [ht]
    rfl
  · -- the record is in the queue, so the send is not one of those that went
    have hw : e.rid ∈ ch.waiting.map SendRec.rid :=
      mem_map_of_mem (mem_filter.mpr ⟨he, by rw [ht]; rfl⟩)
    intro hm
    rcases mem_append.mp hm with hm | hm
    · exact (disjoint_of_nodup_append hf.once) hm hw
    · obtain ⟨d, hd, -⟩ := mem_map.mp hm
      obtain ⟨hd, hsome⟩ := mem_filter.mp hd
      have hnone := (mem_filter.mp hd).2
      rw [Option.isNone_iff_eq_none.mp hnone] at hsome
      cases hsome

theorem wakes_enqueue (hc : ch.closed = false) (e : SendRec α) :
    Wakes ch (ch.enqueue e).1 (ch.enqueue e).2 := by
  refine ⟨fun _ hw => .inr (mem_map_of_mem hw), fun _ hd _ _ => .inl (mem_append_left _ hd), fun _ hx => hx,
    fun _ hb => ?_⟩
  rw [hb.1] at hc
  cases hc

/-! ## The stream -/

/-- A channel on which `nil` is sent only where nothing is buffered: the buffer is full while
somebody waits to send, and what was given out, what is buffered and what is deposited are together
what was taken, in that order. -/
structure Streams (ch : Chan α) : Prop where
  solid : 0 < ch.cap → ∀ e ∈ ch.sendq, e.v ≠ none
  full : 0 < ch.cap → ch.sendq ≠ [] → (ch.buf.length : Int) = ch.cap
  log : ch.accepted.map Prod.snd = ch.received ++ (ch.buf.map some ++ ch.deposits.map SendRec.v)

theorem streams_create (cap : Int) : (create cap : Chan α).Streams where
  solid _ := nofun
  full _ h := absurd rfl h
  log := rfl

theorem Sound.no_deposits (h : ch.Sound) {t : Nat} (hq : ch.sendq = e :: q)
    (he : e.co = some t) : ch.deposits = [] ∧ q.filter (·.co.isNone) = [] := by
  have hd : ch.deposits = q.filter (·.co.isNone) := by
    rw [deposits, hq, filter_cons_of_neg (by rw [he]; nofun)]
  rw [← hd, and_self]
  refine filter_eq_nil_iff.mpr fun d hd hn => ?_
  rw [hq] at hd
  have hn := Option.isNone_iff_eq_none.mp hn
  rcases mem_cons.mp hd with rfl | hd
  · rw [he] at hn
    cases hn
  · have ho := h.order
    rw [hq] at ho
    have := (pairwise_cons.mp ho).1 d hd hn
    rw [he] at this
    cases this

theorem Sound.no_deposits_of_cap (h : ch.Sound) (hcap : ch.cap ≠ 0) : ch.deposits = [] := by
  refine filter_eq_nil_iff.mpr fun d hd hn => ?_
  exact h.plain hcap d hd (Option.isNone_iff_eq_none.mp hn)

theorem Sound.cap_pos (h : ch.Sound) (hb : ch.buf ≠ []) : 0 < ch.cap :=
  Int.not_le.mp fun h0 => hb (h.dry h0)

theorem map_some_push (l : List α) (hv : v ≠ none) : (push l v).map some = l.map some ++ [v] := by
  cases v with
  | none => exact absurd rfl hv
  | some x => exact map_append

theorem length_push (l : List α) (hv : v ≠ none) : (push l v).length = l.length + 1 := by
  cases v with
  | none => exact absurd rfl hv
  | some x => exact length_append

namespace Streams

theorem nbsend (h : ch.Streams) (hs : ch.Sound) (hv : 0 < ch.cap → v ≠ none)
    (hn : ch.nbsend rid v = some (b, ch', l)) : ch'.Streams := by
  rcases (nbsend_some hn).2 with ⟨-, hroom, -, rfl⟩ | ⟨-, hcap, hne, -, rfl⟩ | ⟨-, -, -, -, rfl⟩
  · have hpos : 0 < ch.cap := Int.lt_of_le_of_lt (Int.natCast_nonneg _) hroom
    refine ⟨h.solid, fun _ hq => ?_, ?_⟩
    · exact absurd hroom (Int.not_lt.mpr (Int.le_of_eq (h.full hpos hq).symm))
    · show (ch.accepted ++ [(rid, v)]).map Prod.snd = ch.received ++
        ((push ch.buf v).map some ++ ch.deposits.map _)
      rw [map_append, h.log, map_some_push _ (hv hpos), hs.no_deposits_of_cap (Int.ne_of_gt hpos)]
      simp
  · obtain ⟨hb, hq, -⟩ := hs.idle hne
    have hdep : ch.deposits = [] := by rw [deposits, hq]; rfl
    have hlog := h.log
    rw [hb, hdep] at hlog
    refine ⟨fun h0 => absurd hcap (Int.ne_of_gt h0), fun h0 => absurd hcap (Int.ne_of_gt h0), ?_⟩
    show (ch.accepted ++ [(rid, v)]).map Prod.snd = ch.received ++
      (ch.buf.map some ++ (List.filter _ (ch.sendq ++ [_])).map _)
    rw [map_append, hlog, hb, hq]
    simp
  · exact h

theorem nbrecv (h : ch.Streams) (hs : ch.Sound) (hn : ch.nbrecv = (g, ch', l)) : ch'.Streams := by
  rcases nbrecv_cases hn with ⟨x, buf, hb, hq, -, -, rfl⟩ | ⟨x, buf, e, q, hb, hq, -, -, rfl⟩ |
    ⟨e, q, hb, hq, -, -, rfl⟩ | ⟨-, -, -, -, rfl⟩
  · refine ⟨h.solid, fun _ hne => absurd hq hne, ?_⟩
    have hlog := h.log
    rw [hb] at hlog
    show ch.accepted.map Prod.snd = (ch.received ++ [some x]) ++ (buf.map some ++ ch.deposits.map _)
    rw [hlog]
    simp
  · -- the buffer was full, and the sender's value takes the room the receiver made
    have hpos : 0 < ch.cap := hs.cap_pos (by rw [hb]; nofun)
    have hmem : e ∈ ch.sendq := by rw [hq]; exact mem_cons_self
    have hv := h.solid hpos e hmem
    obtain ⟨t, ht⟩ := Option.ne_none_iff_exists'.mp (hs.plain (Int.ne_of_gt hpos) e hmem)
    have hfull := h.full hpos (by rw [hq]; nofun)
    have hlog := h.log
    obtain ⟨hdep, hdep'⟩ := hs.no_deposits hq ht
    rw [hdep, hb] at hlog
    simp only [settle, ht]
    refine ⟨fun h0 d hd => h.solid h0 d (by rw [hq]; exact mem_cons_of_mem _ hd), fun _ _ => ?_, ?_⟩
    · show ((push buf e.v).length : Int) = ch.cap
      rw [length_push _ hv, ← hfull, hb, length_cons]
    · show (ch.accepted ++ [(e.rid, e.v)]).map Prod.snd =
        (ch.received ++ [some x]) ++ ((push buf e.v).map some ++ (List.filter _ q).map _)
      rw [map_append, hlog, map_some_push _ hv, hdep']
      simp
  · have hcap : ¬0 < ch.cap := by
      intro hpos
      have := h.full hpos (by rw [hq]; nofun)
      rw [hb] at this
      exact Int.ne_of_gt hpos this.symm
    have hlog := h.log
    match ht : e.co with
    | none =>
      have hdep : ch.deposits = e :: q.filter (·.co.isNone) := by
        rw [deposits, hq, filter_cons_of_pos (by rw [ht]; rfl)]
      simp only [settle, ht]
      refine ⟨fun h0 => absurd h0 hcap, fun h0 => absurd h0 hcap, ?_⟩
      show ch.accepted.map Prod.snd = (ch.received ++ [e.v]) ++
        (ch.buf.map some ++ (List.filter _ q).map _)
      rw [hlog, hdep, hb]
      simp
    | some t =>
      obtain ⟨hdep, hdep'⟩ := hs.no_deposits hq ht
      simp only [settle, ht]
      refine ⟨fun h0 => absurd h0 hcap, fun h0 => absurd h0 hcap, ?_⟩
      show (ch.accepted ++ [(e.rid, e.v)]).map Prod.snd =
        (ch.received ++ [e.v]) ++ (ch.buf.map some ++ (List.filter _ q).map _)
      rw [map_append, hlog, hdep, hdep', hb]
      simp
  · exact h

theorem close (h : ch.Streams) (hs : ch.Sound) : ch.close.1.Streams := by
  unfold Chan.close
  split
  · exact h
  refine ⟨fun h0 e he => h.solid h0 e (mem_filter.mp he).1, fun h0 hne => ?_, ?_⟩
  · exact absurd (hs.no_deposits_of_cap (Int.ne_of_gt h0)) hne
  · show ch.accepted.map Prod.snd = ch.received ++
      (ch.buf.map some ++ (List.filter _ (List.filter _ ch.sendq)).map _)
    simpa [deposits] using h.log

theorem enqueue (h : ch.Streams) (hs : ch.Sound) (hv : 0 < ch.cap → e.v ≠ none)
    (hroom : ¬(ch.buf.length : Int) < ch.cap) {t : Nat} (he : e.co = some t) :
    (ch.enqueue e).1.Streams := by
  refine ⟨fun h0 d hd => ?_, fun h0 _ => ?_, ?_⟩
  · rcases mem_append.mp hd with hd | hd
    · exact h.solid h0 d hd
    · rw [mem_singleton.mp hd]
      exact hv h0
  · exact Int.le_antisymm (hs.fits h0) (Int.not_lt.mp hroom)
  · show ch.accepted.map Prod.snd = ch.received ++
      (ch.buf.map some ++ (List.filter _ (ch.sendq ++ [e])).map _)
    rw [filter_append, filter_singleton, he]
    simpa [deposits] using h.log

theorem of_recvq (h : ch.Streams) (q : List Waiter) : { ch with recvq := q }.Streams := { h with }

/-- What was given out is the beginning of what was taken. -/
theorem received_le (h : ch.Streams) : ch.received <+: ch.accepted.map Prod.snd := by
  rw [h.log]
  exact prefix_append _ _

/-- Where a receiver is told of the close, everything was given out. -/
theorem drained (h : ch.Streams) (hc : ch.nbrecv = (.closed, ch', l)) :
    ch.received = ch.accepted.map Prod.snd := by
  obtain ⟨hb, hq, -⟩ := nbrecv_closed hc nofun
  rw [h.log, hb, deposits, hq]
  simp

end Streams

end Chan

end Nlos.Thread
