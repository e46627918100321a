import Nlos.Kernel.Cascade

/-!
# Counting references

`nrights` and `nrecv` of a port are meant to be the number of references to it, wherever those are:
in a rights table, in the refs of a queued message, in the timer table, or in the kernel's own
hands.

All sums are tallies of one weight on `Ref`. Three weights say everything: every reference to a slot
(`toPort`), the receive rights to it (`recvTo`), and the pointers into it that belong to an earlier
occupant (`strayTo`), of which there must be none.
-/

namespace Nlos

open Tally List

/-- A reference to a port as the counts see it. A message names a slot only; everything else
points at one port, so the generation comes along. -/
structure Ref where
  idx : Nat
  recv : Bool
  gen : Option Nat
deriving DecidableEq

def PortRef.ref (p : PortRef) (recv : Bool) : Ref := ⟨p.idx, recv, some p.gen⟩

def InRef.ref (r : InRef) : Ref := ⟨r.idx, r.recv, none⟩

/-! ## Weights -/

/-- Counts the references to slot `i`. -/
def toPort (i : Nat) (r : Ref) : Nat := if r.idx = i then 1 else 0

/-- Counts the receive rights to slot `i`. -/
def recvTo (i : Nat) (r : Ref) : Nat := if r.idx = i ∧ r.recv = true then 1 else 0

/-- Counts the pointers into slot `i` that are not to generation `g`. -/
def strayTo (i g : Nat) (r : Ref) : Nat :=
  if r.idx = i ∧ r.gen ≠ none ∧ r.gen ≠ some g then 1 else 0

theorem toPort_ptr (p : PortRef) (b : Bool) : toPort p.idx (p.ref b) = 1 := if_pos rfl

theorem toPort_entry (r : InRef) : toPort r.idx r.ref = 1 := if_pos rfl

theorem recvTo_ptr_false (i : Nat) (p : PortRef) : recvTo i (p.ref false) = 0 :=
  if_neg fun hc => Bool.noConfusion hc.2

theorem recvTo_le_toPort (i : Nat) (r : Ref) : recvTo i r ≤ toPort i r := by
  unfold recvTo toPort
  by_cases h : r.idx = i
  · split <;> omega
  · simp [h]

theorem strayTo_le_toPort (i g : Nat) (r : Ref) : strayTo i g r ≤ toPort i r := by
  unfold strayTo toPort
  by_cases h : r.idx = i
  · split <;> omega
  · simp [h]

section Weights

variable (v : Ref → Nat)

def slotWeight (r : Right) : Nat := if r.used then v (r.port.ref r.recv) else 0

def tableWeight (t : RightTable) : Nat := tally (slotWeight v) t.slots

def refsWeight (l : List InRef) : Nat := tally (fun r => v r.ref) l

def queueWeight (l : List Kmsg) : Nat := tally (fun m => refsWeight v m.refs) l

/-- The weight of what is queued on one slot of `portv`. -/
def portWeight (o : Option KPort) : Nat := o.elim 0 fun q => queueWeight v q.queue

def timerWeight (o : Option KTimer) : Nat := o.elim 0 fun t => v (t.port.ref false)

def workWeight : Kernel.Work → Nat
  | .ref r => v r.ref
  | .unref p => v (p.ref false)
  | .bufs _ => 0
  | .wake _ => 0
  | .free _ => 0

namespace Kernel

def slotTotal (k : Kernel) : Nat := tally (fun pr => tableWeight v pr.rights) k.procv

/-- The weight of the references outside any queue. -/
def held (k : Kernel) : Nat :=
  slotTotal v k + tally (timerWeight v) k.timers + tally (fun p => v (p.ref false)) k.krefs +
    refsWeight v k.lost

def queued (k : Kernel) : Nat := tally (portWeight v) k.portv

/-- The weight of every reference there is, the pending work included. -/
def total (k : Kernel) (w : List Work) : Nat := held v k + queued v k + tally (workWeight v) w

end Kernel

end Weights

/-- A smaller weight has a smaller sum. -/
theorem Kernel.total_mono {v v' : Ref → Nat} (h : ∀ r, v r ≤ v' r) (k : Kernel)
    (w : List Kernel.Work) : k.total v w ≤ k.total v' w := by
  have hrefs : ∀ l, refsWeight v l ≤ refsWeight v' l := fun l => tally_le_of_le fun r _ => h r.ref
  have hslots : slotTotal v k ≤ slotTotal v' k := tally_le_of_le fun pr _ => by
    refine tally_le_of_le fun r _ => ?_
    unfold slotWeight
    split
    · exact h _
    · exact Nat.le_refl _
  have htimers : tally (timerWeight v) k.timers ≤ tally (timerWeight v') k.timers :=
    tally_le_of_le fun o _ => by
      cases o with
      | none => exact Nat.le_refl _
      | some t => exact h _
  have hkrefs : tally (fun p => v (PortRef.ref p false)) k.krefs ≤
      tally (fun p => v' (PortRef.ref p false)) k.krefs := tally_le_of_le fun p _ => h _
  have hqueued : queued v k ≤ queued v' k := tally_le_of_le fun o _ => by
    cases o with
    | none => exact Nat.le_refl _
    | some q => exact tally_le_of_le fun m _ => hrefs m.refs
  have hwork : tally (workWeight v) w ≤ tally (workWeight v') w := tally_le_of_le fun x _ => by
    cases x with
    | ref r | unref p => exact h _
    | _ => exact Nat.le_refl _
  have hlost := hrefs k.lost
  unfold Kernel.total Kernel.held
  omega

/-! ## The sums after a write -/

namespace Kernel

variable {v : Ref → Nat} {k k' : Kernel} {p : PortRef} {q q' : KPort} {o : Option KPort}
variable {w w' : List Work}

theorem held_same (h : SameHolders k k') : held v k' = held v k := by
  unfold held slotTotal
  rw [h.procv, h.timers, h.krefs, h.lost]

theorem queued_writes (h : k.portOf p = some q) (hw : Writes k p o k') :
    queued v k' + queueWeight v q.queue = queued v k + portWeight v o := by
  unfold queued
  rw [hw.portv]
  exact tally_set o (portAt_eq_some.mp (portOf_eq_some.mp h).1)

theorem refsWeight_append (l m : List InRef) :
    refsWeight v (l ++ m) = refsWeight v l + refsWeight v m :=
  tally_append _ l m

theorem tally_refWork (l : List InRef) : tally (workWeight v) (l.map .ref) = refsWeight v l :=
  tally_map _ _ l

/-- A detached queue weighs the same as work as it did on its port. -/
theorem tally_queueWork (l : List Kmsg) : tally (workWeight v) (queueWork l) = queueWeight v l := by
  induction l with
  | nil => rfl
  | cons m l ih =>
    unfold queueWork queueWeight at ih ⊢
    rw [flatMap_cons, tally_append, ih, tally_cons]
    unfold msgWork
    rw [tally_append, tally_refWork]
    simp [workWeight]

end Kernel

/-! ## The invariant -/

namespace Kernel

def CountedAt (k : Kernel) (w : List Work) (i : Nat) : Prop :=
  match k.portAt i with
  | some q =>
    q.nrights = k.total (toPort i) w ∧ q.nrecv = k.total (recvTo i) w ∧
      k.total (strayTo i q.gen) w = 0
  | none => k.total (toPort i) w = 0

/-- Every port's `nrights` and `nrecv` are the references there are to it, with the work `w` still
to do counted in; every pointer is to the port that is there now, and an empty slot has no
reference. -/
def Counted (k : Kernel) (w : List Work) : Prop := ∀ i, k.CountedAt w i

section

variable {k k' : Kernel} {w w' : List Work} {i : Nat} {p : PortRef} {q : KPort}

section

variable (h : k.Counted w)

include h

theorem Counted.nrights (hq : k.portAt i = some q) : q.nrights = k.total (toPort i) w := by
  have := h i
  simp only [CountedAt, hq] at this
  exact this.1

theorem Counted.nrecv (hq : k.portAt i = some q) : q.nrecv = k.total (recvTo i) w := by
  have := h i
  simp only [CountedAt, hq] at this
  exact this.2.1

theorem Counted.no_stray (hq : k.portAt i = some q) : k.total (strayTo i q.gen) w = 0 := by
  have := h i
  simp only [CountedAt, hq] at this
  exact this.2.2

theorem Counted.empty (hq : k.portAt i = none) : k.total (toPort i) w = 0 := by
  have := h i
  simp only [CountedAt, hq] at this
  exact this

/-- A slot someone refers to is not empty. -/
theorem Counted.exists_port (hpos : 0 < k.total (toPort i) w) : ∃ q, k.portAt i = some q := by
  cases hq : k.portAt i with
  | none =>
    have := h.empty hq
    omega
  | some q => exact ⟨q, rfl⟩

theorem Counted.portOf (hpos : ∀ v : Ref → Nat, v (p.ref false) ≤ k.total v w ∨
    v (p.ref true) ≤ k.total v w) : ∃ q, k.portOf p = some q := by
  obtain ⟨q, hq⟩ := h.exists_port (i := p.idx) (by
    rcases hpos (toPort p.idx) with h' | h'
    · rw [toPort_ptr] at h'; omega
    · rw [toPort_ptr] at h'; omega)
  refine ⟨q, portOf_of_portAt hq ?_⟩
  by_contra hg
  have hs : ∀ b, strayTo p.idx q.gen (p.ref b) = 1 := fun b => by
    unfold strayTo PortRef.ref
    simp [Ne.symm hg]
  have h0 := h.no_stray hq
  rcases hpos (strayTo p.idx q.gen) with h' | h'
  · rw [hs] at h'; omega
  · rw [hs] at h'; omega

end

/-- The weights of the three counts of slot `i` look at references to slot `i` only. -/
def Local (i : Nat) (v : Ref → Nat) : Prop := ∀ r : Ref, r.idx ≠ i → v r = 0

theorem local_toPort (i : Nat) : Local i (toPort i) := fun _ h => if_neg h

theorem local_recvTo (i : Nat) : Local i (recvTo i) := fun _ h => if_neg fun hc => h hc.1

theorem local_strayTo (i g : Nat) : Local i (strayTo i g) := fun _ h => if_neg fun hc => h hc.1

/-- A slot whose port and whose references have not changed is counted as before. -/
theorem CountedAt.congr (h : k.CountedAt w i) (hp : k'.portAt i = k.portAt i)
    (ht : ∀ v, Local i v → k'.total v w' = k.total v w) : k'.CountedAt w' i := by
  unfold CountedAt at h ⊢
  rw [hp]
  revert h
  cases k.portAt i with
  | none =>
    simp only
    rw [ht _ (local_toPort i)]
    exact id
  | some q =>
    simp only
    rw [ht _ (local_toPort i), ht _ (local_recvTo i), ht _ (local_strayTo i q.gen)]
    exact id

/-! ### Trading references

Every operation that changes a count gives up some references to one port and takes others. -/

variable {l : List Ref}

theorem tally_toPort (h : ∀ r ∈ l, r.idx = i) : tally (toPort i) l = l.length := by
  induction l with
  | nil => rfl
  | cons r l ih =>
    have e : toPort i r = 1 := if_pos (h r mem_cons_self)
    rw [tally_cons, e, ih fun r hr => h r (mem_cons_of_mem _ hr), length_cons]
    omega

theorem tally_recvTo (h : ∀ r ∈ l, r.idx = i) : tally (recvTo i) l = l.countP (·.recv) := by
  rw [countP_eq_tally]
  refine tally_congr fun r hr => ?_
  unfold recvTo
  simp only [h r hr, true_and]

theorem tally_local {v : Ref → Nat} (hv : Local i v) (h : ∀ r ∈ l, r.idx ≠ i) : tally v l = 0 :=
  tally_eq_zero.mpr fun r hr => hv r (h r hr)

/-- The references `out` to slot `i` are given up and the references `inn` to it are taken, and
the record of its port is changed to match. -/
theorem Counted.swap {q' : KPort} (out inn : List Ref) (h : k.Counted w)
    (hq : k.portAt i = some q) (hq' : k'.portAt i = some q')
    (hother : ∀ j, i ≠ j → k'.portAt j = k.portAt j) (hg : q'.gen = q.gen)
    (hout : ∀ r ∈ out, r.idx = i)
    (hinn : ∀ r ∈ inn, r.idx = i ∧ (r.gen = none ∨ r.gen = some q.gen))
    (hn : q'.nrights + out.length = q.nrights + inn.length)
    (hr : q'.nrecv + out.countP (·.recv) = q.nrecv + inn.countP (·.recv))
    (ht : ∀ v, k'.total v w' + tally v out = k.total v w + tally v inn) : k'.Counted w' := by
  intro j
  by_cases hj : i = j
  · subst hj
    have h1 := h.nrights hq
    have h2 := h.nrecv hq
    have h3 := h.no_stray hq
    have t1 := ht (toPort i)
    have t2 := ht (recvTo i)
    have t3 := ht (strayTo i q.gen)
    rw [tally_toPort hout, tally_toPort fun r hr => (hinn r hr).1] at t1
    rw [tally_recvTo hout, tally_recvTo fun r hr => (hinn r hr).1] at t2
    have e : tally (strayTo i q.gen) inn = 0 := tally_eq_zero.mpr fun r hr => if_neg fun hc => by
      rcases (hinn r hr).2 with h' | h'
      · exact hc.2.1 h'
      · exact hc.2.2 h'
    unfold CountedAt
    simp only [hq', hg]
    refine ⟨by omega, by omega, by omega⟩
  · refine (h j).congr (hother j hj) fun v hv => ?_
    have := ht v
    rw [tally_local hv fun r hr => by rw [hout r hr]; exact hj,
      tally_local hv fun r hr => by rw [(hinn r hr).1]; exact hj] at this
    omega

end

/-! ## One step of the cascade -/

section Step

variable {k k' : Kernel} {w : List Work} {i : Nat} {p : PortRef} {q q' : KPort}

theorem total_cons (v : Ref → Nat) (x : Work) :
    k.total v (x :: w) = k.total v w + workWeight v x := by
  unfold total
  rw [tally_cons]
  omega

theorem total_append (v : Ref → Nat) (new : List Work) :
    k.total v (new ++ w) = k.total v w + tally (workWeight v) new := by
  unfold total
  rw [tally_append]
  omega

theorem le_total_unref (v : Ref → Nat) : v (p.ref false) ≤ k.total v (.unref p :: w) := by
  rw [total_cons]
  exact Nat.le_add_left _ _

theorem Counted.portOf_unref (h : k.Counted (.unref p :: w)) : ∃ q, k.portOf p = some q :=
  h.portOf fun v => .inl (le_total_unref v)

/-- Dropping a counted pointer: the item goes, the port's count goes down by one, and the queue,
if it is detached, turns into work. -/
theorem Counted.drop {new : List Work} (h : k.Counted (.unref p :: w)) (hq : k.portOf p = some q)
    (hw : Writes k p (some q') k') (hg : q'.gen = q.gen) (hn : q'.nrights = q.nrights - 1)
    (hr : q'.nrecv = q.nrecv)
    (hnew : ∀ v, queueWeight v q'.queue + tally (workWeight v) new = queueWeight v q.queue) :
    k'.Counted (new ++ w) := by
  refine h.swap [p.ref false] [] (portOf_eq_some.mp hq).1 (hw.portAt_same hq)
    (fun j hj => hw.portAt_other hj) hg ?_ nofun ?_ ?_ fun v => ?_
  · intro r hr
    rw [mem_singleton.mp hr]
    rfl
  · rw [hn]
    show q.nrights - 1 + 1 = q.nrights + 0
    omega
  · rw [hr]
    rfl
  · have h1 := queued_writes (v := v) hq hw
    have h2 := hnew v
    have h3 := held_same (v := v) hw.holders
    have h4 : portWeight v (some q') = queueWeight v q'.queue := rfl
    rw [total_append, total_cons]
    unfold total
    simp only [tally_cons, tally_nil, workWeight]
    omega

/-- Releasing a message's entry: the item becomes a pointer to drop, and a receive right is
uncounted first. -/
theorem Counted.resolve {r : InRef} (h : k.Counted (.ref r :: w)) (hq : k.portAt r.idx = some q)
    (hw : Writes k ⟨r.idx, q.gen⟩ (some (if r.recv then dropRecv q else q)) k') :
    k'.Counted (.unref ⟨r.idx, q.gen⟩ :: w) := by
  have hp : k.portOf ⟨r.idx, q.gen⟩ = some q := portOf_of_portAt hq rfl
  refine h.swap [r.ref] [PortRef.ref ⟨r.idx, q.gen⟩ false] hq
    (hw.portAt_same hp) (fun j hj => hw.portAt_other hj) ?_ ?_ ?_ ?_ ?_ fun v => ?_
  · cases r.recv <;> rfl
  · intro e he
    rw [mem_singleton.mp he]
    rfl
  · intro e he
    rw [mem_singleton.mp he]
    exact ⟨rfl, .inr rfl⟩
  · cases r.recv <;> rfl
  · have e : [r.ref].countP (·.recv) = if r.recv then 1 else 0 := countP_singleton
    rw [e]
    cases r.recv with
    | true =>
      show q.nrecv - 1 + 1 = q.nrecv + 0
      omega
    | false => rfl
  · have h1 := queued_writes (v := v) hp hw
    have h3 := held_same (v := v) hw.holders
    have h4 : portWeight v (some (if r.recv then dropRecv q else q)) = queueWeight v q.queue := by
      cases r.recv <;> rfl
    unfold total
    simp only [tally_cons, tally_nil, workWeight]
    omega

/-- A state with the same ports and holders, and work of the same weight, is counted as well. -/
theorem Counted.congr {w' : List Work} (h : k.Counted w) (hp : k'.portv = k.portv)
    (hh : SameHolders k k') (hw : ∀ v, tally (workWeight v) w' = tally (workWeight v) w) :
    k'.Counted w' := by
  intro i
  refine (h i).congr ?_ fun v _ => ?_
  · unfold portAt
    rw [hp]
  · unfold total queued
    rw [held_same hh, hp, hw]

end Step

/-! ## The ports about to be freed

Between the last reference and `free`, the port is still in `portv`, with an empty queue, and
nothing refers to it any more. -/

def frees : List Work → List PortRef
  | [] => []
  | .free p :: w => p :: frees w
  | _ :: w => frees w

def Orphan (k : Kernel) (p : PortRef) : Prop :=
  ∃ q, k.portOf p = some q ∧ q.nrights = 0 ∧ q.queue = []

/-- The counts are right, and each port about to be freed is an orphan and is freed once. -/
structure Balanced (k : Kernel) (w : List Work) : Prop where
  counted : k.Counted w
  orphans : ∀ p ∈ frees w, k.Orphan p
  distinct : ((frees w).map (·.idx)).Nodup

section Balanced

variable {k k' : Kernel} {w : List Work} {p : PortRef} {q : KPort}

theorem frees_append (w w' : List Work) : frees (w ++ w') = frees w ++ frees w' := by
  induction w with
  | nil => rfl
  | cons x w ih => cases x <;> simp [frees, ih]

theorem frees_refs (l : List InRef) : frees (l.map .ref) = [] := by
  induction l with
  | nil => rfl
  | cons r l ih => exact ih

theorem frees_queueWork (l : List Kmsg) : frees (queueWork l) = [] := by
  induction l with
  | nil => rfl
  | cons m l ih =>
    unfold queueWork at ih ⊢
    rw [flatMap_cons, frees_append, ih]
    unfold msgWork
    rw [frees_append, frees_refs]
    rfl

theorem Counted.orphan_unref (h : k.Counted (x :: w)) (hp : k.Orphan p)
    (hx : 0 < workWeight (toPort p.idx) x) : False := by
  obtain ⟨q, hq, hn, -⟩ := hp
  have := h.nrights (portOf_eq_some.mp hq).1
  rw [total_cons] at this
  omega

/-- A write to another slot leaves an orphan an orphan. -/
theorem Orphan.writes {r : PortRef} {o : Option KPort} (h : k.Orphan p) (hw : Writes k r o k')
    (hne : r.idx ≠ p.idx) : k'.Orphan p := by
  obtain ⟨q, hq, hn, hl⟩ := h
  exact ⟨q, hw.portOf_other hne hq, hn, hl⟩

theorem Orphan.congr (h : k.Orphan p) (hp : k'.portv = k.portv) : k'.Orphan p := by
  obtain ⟨q, hq, hn, hl⟩ := h
  exact ⟨q, (portOf_congr hp).trans hq, hn, hl⟩

/-- An item that refers to a slot is not about a port that is to be freed. -/
theorem Balanced.idx_ne (h : k.Balanced (x :: w)) (hp : p ∈ frees w) {j : Nat}
    (hx : 0 < workWeight (toPort j) x) : j ≠ p.idx := by
  intro e
  subst e
  have hmem : p ∈ frees (x :: w) := by
    cases x with
    | free r => exact mem_cons_of_mem r hp
    | _ => exact hp
  exact h.counted.orphan_unref (h.orphans p hmem) hx

/-- Freeing an orphan takes no reference with it. -/
theorem Balanced.free (h : k.Balanced (.free p :: w)) : (k.freePort p).Balanced w := by
  obtain ⟨q, hq, hn, hl⟩ := h.orphans p mem_cons_self
  have hw := writes_freePort hq
  have tot : ∀ v, (k.freePort p).total v w = k.total v (.free p :: w) := by
    intro v
    have h1 := queued_writes (v := v) hq hw
    have h3 := held_same (v := v) hw.holders
    have h4 : portWeight v none = 0 := rfl
    have h5 : queueWeight v q.queue = 0 := by rw [hl]; rfl
    rw [total_cons]
    unfold total
    show _ = _ + 0
    omega
  have hnd := h.distinct
  simp only [frees, map_cons, nodup_cons] at hnd
  refine ⟨fun i => ?_, fun r hr => ?_, hnd.2⟩
  · by_cases hi : p.idx = i
    · subst hi
      have h0 := h.counted.nrights (portOf_eq_some.mp hq).1
      unfold CountedAt
      rw [hw.portAt_same hq]
      rw [tot]
      omega
    · exact (h.counted i).congr (hw.portAt_other hi) fun v _ => tot v
  · refine (h.orphans r (mem_cons_of_mem p hr)).writes hw fun e => hnd.1 ?_
    rw [e]
    exact mem_map_of_mem hr

theorem Balanced.drop {q' : KPort} {new : List Work} (h : k.Balanced (.unref p :: w))
    (hq : k.portOf p = some q) (hw : Writes k p (some q') k') (hg : q'.gen = q.gen)
    (hn : q'.nrights = q.nrights - 1) (hr : q'.nrecv = q.nrecv)
    (hnew : ∀ v, queueWeight v q'.queue + tally (workWeight v) new = queueWeight v q.queue)
    (hf : frees new = []) : k'.Balanced (new ++ w) := by
  have e : frees (new ++ w) = frees w := by rw [frees_append, hf]; rfl
  refine ⟨h.counted.drop hq hw hg hn hr hnew, fun r hmem => ?_, ?_⟩
  · rw [e] at hmem
    refine (h.orphans r hmem).writes hw (h.idx_ne hmem ?_)
    exact Nat.lt_of_lt_of_eq Nat.zero_lt_one (toPort_ptr p false).symm
  · rw [e]
    exact h.distinct

/-- Dropping the last reference: the port joins those about to be freed. -/
theorem Balanced.last (h : k.Balanced (.unref p :: w)) (hq : k.portOf p = some q)
    (hn : q.nrights ≤ 1) (hw : Writes k p (some (detachQueue (dropRight q))) k') :
    k'.Balanced (queueWork q.queue ++ [.free p] ++ w) := by
  have hone : q.nrights = 1 := by
    have h1 := h.counted.nrights (portOf_eq_some.mp hq).1
    have h2 := le_total_unref (k := k) (w := w) (p := p) (toPort p.idx)
    rw [toPort_ptr] at h2
    omega
  have hx : 0 < workWeight (toPort p.idx) (.unref p) :=
    Nat.lt_of_lt_of_eq Nat.zero_lt_one (toPort_ptr p false).symm
  have e : frees (queueWork q.queue ++ [.free p] ++ w) = p :: frees w := by
    rw [frees_append, frees_append, frees_queueWork]
    rfl
  refine ⟨h.counted.drop hq hw rfl rfl rfl fun v => ?_, fun r hmem => ?_, ?_⟩
  · rw [tally_append, tally_queueWork]
    exact Nat.zero_add _
  · rw [e] at hmem
    rcases mem_cons.mp hmem with rfl | hmem
    · refine ⟨_, hw.portOf_same hq rfl, ?_, rfl⟩
      show q.nrights - 1 = 0
      omega
    · exact (h.orphans r hmem).writes hw (h.idx_ne hmem hx)
  · rw [e, map_cons, nodup_cons]
    refine ⟨fun hmem => ?_, h.distinct⟩
    obtain ⟨r, hr, he⟩ := mem_map.mp hmem
    exact h.idx_ne hr hx he.symm

/-- One step of the cascade keeps the counts right. -/
theorem Balanced.exec {x : Work} {new : List Work} (hx : Exec k x k' new)
    (h : k.Balanced (x :: w)) : k'.Balanced (new ++ w) := by
  cases hx with
  | @gone r hr =>
    have h0 := h.counted.empty hr
    have h1 : workWeight (toPort r.idx) (.ref r) = 1 := toPort_entry r
    rw [total_cons] at h0
    omega
  | @ref r q _ hq hw =>
    refine ⟨h.counted.resolve hq hw, fun p hp => ?_, h.distinct⟩
    refine (h.orphans p hp).writes hw (h.idx_ne hp ?_)
    exact Nat.lt_of_lt_of_eq Nat.zero_lt_one (toPort_entry r).symm
  | stale hp =>
    obtain ⟨q, hq⟩ := h.counted.portOf_unref
    rw [hp] at hq
    cases hq
  | last hq hn hw => exact h.last hq hn hw
  | dies hq _ _ _ hw =>
    refine h.drop hq hw rfl rfl rfl (fun v => ?_) ?_
    · rw [tally_append, tally_queueWork]
      exact Nat.zero_add _
    · rw [frees_append, frees_queueWork]
      rfl
  | drops hq _ _ hw => exact h.drop hq hw rfl rfl rfl (fun v => Nat.add_zero _) rfl
  | bufs =>
    exact ⟨h.counted.congr rfl sameHolders_msgbufsFree fun v => (Nat.zero_add _).symm,
      fun r hr => (h.orphans r hr).congr rfl, h.distinct⟩
  | wake =>
    exact ⟨h.counted.congr rfl sameHolders_hangup fun v => (Nat.zero_add _).symm,
      fun r hr => (h.orphans r hr).congr rfl, h.distinct⟩
  | free => exact h.free

end Balanced

/-! ## Whole calls -/

section Calls

variable {k : Kernel} {w : List Work}

theorem Counted.balanced (h : k.Counted w) (hf : frees w = []) : k.Balanced w := by
  refine ⟨h, fun p hp => ?_, ?_⟩
  · rw [hf] at hp
    cases hp
  · rw [hf]
    exact nodup_nil

end Calls

end Kernel

end Nlos
