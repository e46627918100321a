import Nlos.Kernel.Access

/-!
# The release cascade as a machine

`port_unref` calls `port_flush`, which calls `msg_free`, `release_inflight` and `port_unref`
again. What it has still to do at any moment is its C stack. Here the stack is a list of `Work`
items and one step runs the first item, which may put others in front. The machine is not the
model of the code: it is what the code is proved equal to (`portUnref_steps`,
`releaseInflight_steps`, `msgFree_steps`), so that a property of every state the recursion passes
through is proved by looking at one step.
-/

namespace Nlos

open List

namespace Kernel

/-- What the cascade has still to do: release a reference of a message, drop one through a pointer,
give a message's buffers back, and the two ends of `port_unref`. -/
inductive Work where
  | ref (r : InRef)
  | unref (p : PortRef)
  | bufs (b : List MsgBuf)
  | wake (p : PortRef)
  | free (p : PortRef)
deriving DecidableEq

def msgWork (m : Kmsg) : List Work := m.refs.map .ref ++ [.bufs m.bufs]

def queueWork (l : List Kmsg) : List Work := l.flatMap msgWork

/-- Run one item: the state after it, and the work that comes before the rest. -/
def exec (k : Kernel) : Work → Kernel × List Work
  | .ref r =>
    match k.portAt r.idx with
    | none => (k, [])
    | some q =>
      let p : PortRef := ⟨r.idx, q.gen⟩
      (if r.recv then k.modPort p dropRecv else k, [.unref p])
  | .unref p =>
    match k.portOf p with
    | none => (k.touch p, [])
    | some q =>
      if q.nrights - 1 ≤ 0 then
        ((k.modPort p dropRight).modPort p detachQueue, queueWork q.queue ++ [.free p])
      else if q.nrecv = 0 ∧ q.dead = false then
        (((k.modPort p dropRight).modPort p markDead).modPort p detachQueue,
          queueWork q.queue ++ [.wake p])
      else (k.modPort p dropRight, [.wake p])
  | .bufs b => (k.msgbufsFree b, [])
  | .wake p => (k.hangup p, [])
  | .free p => (k.freePort p, [])

abbrev Config := Kernel × List Work

inductive CStep : Config → Config → Prop where
  | run (k : Kernel) (x : Work) (w : List Work) : CStep (k, x :: w)
      ((exec k x).1, (exec k x).2 ++ w)

abbrev CSteps : Config → Config → Prop := Relation.ReflTransGen CStep

namespace CSteps

theorem one (k : Kernel) (x : Work) (w : List Work) :
    CSteps (k, x :: w) ((exec k x).1, (exec k x).2 ++ w) :=
  .single (.run k x w)

/-- The machine is deterministic, so a run that has used up its work is the only one. -/
theorem final_unique {c : Config} {k k' : Kernel} (h : CSteps c (k, [])) (h' : CSteps c (k', [])) :
    k = k' := by
  induction h using Relation.ReflTransGen.head_induction_on with
  | refl =>
    cases Relation.ReflTransGen.cases_head h' with
    | inl e => exact congrArg Prod.fst e
    | inr hs =>
      obtain ⟨_, hs, -⟩ := hs
      cases hs
  | head hs _ ih =>
    cases hs with
    | run k x w =>
      cases Relation.ReflTransGen.cases_head h' with
      | inl e => cases e
      | inr hs =>
        obtain ⟨_, hs, hrest⟩ := hs
        cases hs
        exact ih hrest

end CSteps

/-! ## What one step can do -/

/-- Everything a step can do, one case per branch of the code. -/
inductive Exec (k : Kernel) : Work → Kernel → List Work → Prop where
  /-- The slot the message names is empty: `release_inflight` passes over it. -/
  | gone {r : InRef} (h : k.portAt r.idx = none) : Exec k (.ref r) k []
  | ref {r : InRef} {q : KPort} {k' : Kernel} (h : k.portAt r.idx = some q)
      (hw : Writes k ⟨r.idx, q.gen⟩ (some (if r.recv then dropRecv q else q)) k') :
      Exec k (.ref r) k' [.unref ⟨r.idx, q.gen⟩]
  /-- The pointer is dangling. -/
  | stale {p : PortRef} (h : k.portOf p = none) : Exec k (.unref p) (k.touch p) []
  /-- The last reference. -/
  | last {p : PortRef} {q : KPort} {k' : Kernel} (h : k.portOf p = some q) (hn : q.nrights ≤ 1)
      (hw : Writes k p (some (detachQueue (dropRight q))) k') :
      Exec k (.unref p) k' (queueWork q.queue ++ [.free p])
  /-- References are left, but no receive right. -/
  | dies {p : PortRef} {q : KPort} {k' : Kernel} (h : k.portOf p = some q) (hn : 1 < q.nrights)
      (hr : q.nrecv = 0) (hd : q.dead = false)
      (hw : Writes k p (some (detachQueue (markDead (dropRight q)))) k') :
      Exec k (.unref p) k' (queueWork q.queue ++ [.wake p])
  | drops {p : PortRef} {q : KPort} {k' : Kernel} (h : k.portOf p = some q) (hn : 1 < q.nrights)
      (hd : ¬(q.nrecv = 0 ∧ q.dead = false)) (hw : Writes k p (some (dropRight q)) k') :
      Exec k (.unref p) k' [.wake p]
  | bufs {b : List MsgBuf} : Exec k (.bufs b) (k.msgbufsFree b) []
  | wake {p : PortRef} : Exec k (.wake p) (k.hangup p) []
  | free {p : PortRef} : Exec k (.free p) (k.freePort p) []

/-- A message's receive right is dropped, if it is one. -/
theorem writes_dropRecv {k : Kernel} {p : PortRef} {q : KPort} (recv : Bool)
    (h : k.portOf p = some q) :
    Writes k p (some (if recv then dropRecv q else q))
      (if recv then k.modPort p dropRecv else k) := by
  cases recv with
  | true => exact writes_modPort (f := dropRecv) h
  | false => exact writes_self h

theorem exec_ref (k : Kernel) (r : InRef) :
    Exec k (.ref r) (exec k (.ref r)).1 (exec k (.ref r)).2 := by
  simp only [exec]
  split
  next h => exact .gone h
  next q h => exact .ref h (writes_dropRecv r.recv (portOf_of_portAt h rfl))

theorem exec_unref (k : Kernel) (p : PortRef) :
    Exec k (.unref p) (exec k (.unref p)).1 (exec k (.unref p)).2 := by
  simp only [exec]
  split
  next h => exact .stale h
  next q h =>
  have w1 := writes_modPort (f := dropRight) h
  have h1 := w1.portOf_same h rfl
  split
  · exact .last h (by omega) (w1.comp (writes_modPort h1))
  · split
    next hd =>
      have w2 := writes_modPort (f := markDead) h1
      have h2 := w2.portOf_same h1 rfl
      exact .dies h (by omega) hd.1 hd.2 (w1.comp (w2.comp (writes_modPort h2)))
    next hd => exact .drops h (by omega) hd w1

theorem exec_spec (k : Kernel) (x : Work) : Exec k x (exec k x).1 (exec k x).2 := by
  cases x with
  | ref r => exact exec_ref k r
  | unref p => exact exec_unref k p
  | bufs b => exact .bufs
  | wake p => exact .wake
  | free p => exact .free

namespace CSteps

/-- A property of configurations that every step keeps is kept by every run. -/
theorem invariant {P : Config → Prop}
    (step : ∀ {k x k' new w}, Exec k x k' new → P (k, x :: w) → P (k', new ++ w)) {c d : Config}
    (h : CSteps c d) (hc : P c) : P d := by
  induction h with
  | refl => exact hc
  | tail _ hs ih =>
    cases hs with
    | run k x w => exact step (exec_spec k x) ih

/-- A reflexive and transitive relation that holds across every step holds across every run. -/
theorem moves {R : Kernel → Kernel → Prop} (refl : ∀ k, R k k)
    (trans : ∀ {a b c}, R a b → R b c → R a c)
    (step : ∀ {k x k' new}, Exec k x k' new → R k k') {c d : Config} (h : CSteps c d) :
    R c.1 d.1 := by
  induction h with
  | refl => exact refl _
  | tail _ hs ih =>
    cases hs with
    | run k x w => exact trans ih (step (exec_spec k x))

end CSteps

/-! ## The queued references only go down -/

section Measure

variable {k k' : Kernel} {p : PortRef} {q : KPort} {o : Option KPort}

def slotQueued (o : Option KPort) : Nat :=
  o.elim 0 fun q => Tally.tally (fun m => m.refs.length) q.queue

theorem queuedRefs_writes (h : k.portOf p = some q) (hw : Writes k p o k') :
    k'.queuedRefs + slotQueued (some q) = k.queuedRefs + slotQueued o := by
  unfold queuedRefs
  rw [hw.portv]
  exact Tally.tally_set o (portAt_eq_some.mp (portOf_eq_some.mp h).1)

/-- A write that keeps the queue keeps the count. -/
theorem queuedRefs_writes_same {q' : KPort} (h : k.portOf p = some q)
    (hw : Writes k p (some q') k') (hq : q'.queue = q.queue) : k'.queuedRefs = k.queuedRefs := by
  have h1 := queuedRefs_writes h hw
  have e : slotQueued (some q') = slotQueued (some q) := by
    show Tally.tally _ q'.queue = Tally.tally _ q.queue
    rw [hq]
  omega

theorem queuedRefs_exec {x : Work} {new : List Work} (h : Exec k x k' new) :
    k'.queuedRefs ≤ k.queuedRefs := by
  cases h with
  | @ref r q _ h hw =>
    refine Nat.le_of_eq (queuedRefs_writes_same (portOf_of_portAt h rfl) hw ?_)
    cases r.recv <;> rfl
  | @last p q _ h _ hw =>
    have := queuedRefs_writes h hw
    have e : slotQueued (some (detachQueue (dropRight q))) = 0 := rfl
    omega
  | @dies p q _ h _ _ _ hw =>
    have := queuedRefs_writes h hw
    have e : slotQueued (some (detachQueue (markDead (dropRight q)))) = 0 := rfl
    omega
  | drops h _ _ hw => exact Nat.le_of_eq (queuedRefs_writes_same h hw rfl)
  | @free p =>
    cases h : k.portOf p with
    | none =>
      unfold freePort
      rw [h]
      exact Nat.le_refl _
    | some q =>
      have := queuedRefs_writes h (writes_freePort h)
      have e : slotQueued none = 0 := rfl
      omega
  | _ => exact Nat.le_refl _

theorem queuedRefs_steps {c d : Config} (h : CSteps c d) : d.1.queuedRefs ≤ c.1.queuedRefs :=
  CSteps.moves (R := fun a b => b.queuedRefs ≤ a.queuedRefs) (fun _ => Nat.le_refl _)
    (fun h g => Nat.le_trans g h) queuedRefs_exec h

end Measure

/-! ## The recursion runs the machine -/

/-- `unref` runs an `unref` item to its end, in every state with fewer than `n` queued
references. -/
def Runs (unref : Kernel → PortRef → Kernel) (n : Nat) : Prop :=
  ∀ (k : Kernel) (p : PortRef) (w : List Work), k.queuedRefs < n →
    CSteps (k, .unref p :: w) (unref k p, w)

section Runs

variable {unref : Kernel → PortRef → Kernel} {n : Nat} {k : Kernel}

theorem releaseRef_steps (hu : Runs unref n) (r : InRef) (w : List Work) (hk : k.queuedRefs < n) :
    CSteps (k, .ref r :: w) (releaseRef unref k r, w) := by
  have h1 := CSteps.one k (.ref r) w
  have hle := queuedRefs_steps h1
  cases h : k.portAt r.idx with
  | none =>
    simp only [exec, h] at h1
    simp only [releaseRef, h]
    exact h1
  | some q =>
    simp only [exec, h] at h1 hle
    simp only [releaseRef, h]
    exact h1.trans (hu _ _ w (Nat.lt_of_le_of_lt hle hk))

theorem releaseInflightWith_steps (hu : Runs unref n) (refs : List InRef) (w : List Work)
    (hk : k.queuedRefs < n) :
    CSteps (k, refs.map .ref ++ w) (releaseInflightWith unref k refs, w) := by
  induction refs generalizing k with
  | nil => exact .refl
  | cons r refs ih =>
    have h1 := releaseRef_steps hu r (refs.map .ref ++ w) hk
    exact h1.trans (ih (Nat.lt_of_le_of_lt (queuedRefs_steps h1) hk))

theorem msgFreeWith_steps (hu : Runs unref n) (m : Kmsg) (w : List Work) (hk : k.queuedRefs < n) :
    CSteps (k, msgWork m ++ w) (msgFreeWith unref k m, w) := by
  unfold msgWork
  rw [append_assoc]
  exact (releaseInflightWith_steps hu m.refs _ hk).trans (CSteps.one _ (.bufs m.bufs) w)

theorem freeQueue_steps (hu : Runs unref n) (l : List Kmsg) (w : List Work)
    (hk : k.queuedRefs < n) : CSteps (k, queueWork l ++ w) (l.foldl (msgFreeWith unref) k, w) := by
  induction l generalizing k with
  | nil => exact .refl
  | cons m l ih =>
    unfold queueWork
    rw [flatMap_cons, append_assoc]
    have h1 := msgFreeWith_steps hu m (queueWork l ++ w) hk
    exact h1.trans (ih (Nat.lt_of_le_of_lt (queuedRefs_steps h1) hk))

/-- A queue that carries no reference needs no `port_unref` at all. -/
theorem freeQueue_steps_of_no_refs (l : List Kmsg) (w : List Work)
    (hl : Tally.tally (fun m : Kmsg => m.refs.length) l = 0) :
    CSteps (k, queueWork l ++ w) (l.foldl (msgFreeWith unref) k, w) := by
  induction l generalizing k with
  | nil => exact .refl
  | cons m l ih =>
    rw [Tally.tally_cons] at hl
    have hm : m.refs = [] := eq_nil_of_length_eq_zero (by omega)
    have h1 : CSteps (k, msgWork m ++ (queueWork l ++ w))
        (msgFreeWith unref k m, queueWork l ++ w) := by
      unfold msgWork msgFreeWith releaseInflightWith
      rw [hm]
      exact CSteps.one _ (.bufs m.bufs) _
    unfold queueWork
    rw [flatMap_cons, append_assoc]
    exact h1.trans (ih (by omega))

theorem portFlushWith_steps (hu : Runs unref n) {p : PortRef} {q : KPort} (h : k.portOf p = some q)
    (w : List Work) (hk : k.queuedRefs ≤ n) :
    CSteps (k.modPort p detachQueue, queueWork q.queue ++ w) (portFlushWith unref k p, w) := by
  have hq : (k.modPort p detachQueue).queuedRefs + slotQueued (some q) = k.queuedRefs :=
    queuedRefs_writes h (writes_modPort h)
  simp only [portFlushWith, h]
  by_cases h0 : slotQueued (some q) = 0
  · exact freeQueue_steps_of_no_refs q.queue w h0
  · exact freeQueue_steps hu q.queue w (by omega)

/-- One more level of the recursion copes with one more queued reference. -/
theorem portUnrefWith_steps (hu : Runs unref n) : Runs (portUnrefWith unref) (n + 1) := by
  intro k p w hk
  have h1 := CSteps.one k (.unref p) w
  simp only [exec] at h1
  simp only [portUnrefWith]
  cases h : k.portOf p with
  | none =>
    simp only [h] at h1
    exact h1
  | some q =>
    simp only [h] at h1
    have w1 := writes_modPort (f := dropRight) h
    have q1 := w1.portOf_same h rfl
    have e1 := queuedRefs_writes_same h w1 rfl
    by_cases hn : q.nrights - 1 ≤ 0
    · simp only [if_pos hn, append_assoc] at h1 ⊢
      exact (h1.trans (portFlushWith_steps hu q1 _ (by omega))).trans (CSteps.one _ (.free p) w)
    · simp only [if_neg hn] at h1 ⊢
      by_cases hd : q.nrecv = 0 ∧ q.dead = false
      · simp only [if_pos hd, append_assoc] at h1 ⊢
        have w2 := writes_modPort (f := markDead) q1
        have q2 := w2.portOf_same q1 rfl
        have e2 := queuedRefs_writes_same q1 w2 rfl
        exact (h1.trans (portFlushWith_steps hu q2 _ (by omega))).trans (CSteps.one _ (.wake p) w)
      · simp only [if_neg hd] at h1 ⊢
        exact h1.trans (CSteps.one _ (.wake p) w)

end Runs

theorem portUnrefF_runs : ∀ n, Runs (portUnrefF n) n
  | 0 => fun _ _ _ hk => absurd hk (Nat.not_lt_zero _)
  | n + 1 => portUnrefWith_steps (portUnrefF_runs n)

theorem portUnref_runs (n : Nat) : Runs portUnref n :=
  fun k p w _ => portUnrefF_runs (k.queuedRefs + 1) k p w (Nat.lt_succ_self _)

/-- `port_unref` runs its own item to the end. -/
theorem portUnref_steps (k : Kernel) (p : PortRef) (w : List Work) :
    CSteps (k, .unref p :: w) (k.portUnref p, w) :=
  portUnref_runs _ k p w (Nat.lt_succ_self _)

theorem releaseInflight_steps (k : Kernel) (refs : List InRef) (w : List Work) :
    CSteps (k, refs.map .ref ++ w) (k.releaseInflight refs, w) :=
  releaseInflightWith_steps (portUnref_runs _) refs w (Nat.lt_succ_self _)

theorem msgFree_steps (k : Kernel) (m : Kmsg) (w : List Work) :
    CSteps (k, msgWork m ++ w) (k.msgFree m, w) :=
  msgFreeWith_steps (portUnref_runs _) m w (Nat.lt_succ_self _)

/-- `port_unref` is the recursive function of the source. The bound its definition starts with is
never used up. -/
theorem portUnref_eq (k : Kernel) (p : PortRef) : k.portUnref p = portUnrefWith portUnref k p :=
  CSteps.final_unique (portUnref_steps k p [])
    (portUnrefWith_steps (portUnref_runs k.queuedRefs) k p [] (Nat.lt_succ_self _))

end Kernel

end Nlos
