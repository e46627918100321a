import Nlos.Kernel.Ledger

/-!
# When the cascade touches live ports only

`port_unref` wakes the waiters of a port after it has flushed the port's queue. The flush may
itself drop references to that port: a message in the queue may carry one, or carry a right to
another port whose queue carries one, and so on. If those were the last, the port is gone when
the flush returns.

That needs a cycle of queued references through the port. So the cascade is safe as soon as each
port on such a cycle is *anchored*: something outside the queues refers to it.
-/

namespace Nlos

open Tally List

namespace Kernel

/-- The queue of the port in slot `i` carries a reference to slot `j`. -/
def Carries (k : Kernel) (i j : Nat) : Prop :=
  ∃ q, k.portAt i = some q ∧ ∃ m ∈ q.queue, ∃ r ∈ m.refs, r.idx = j

/-- Following queued references from slot `i` leads to slot `j`, in zero or more steps. -/
def LeadsTo (k : Kernel) : Nat → Nat → Prop := Relation.ReflTransGen k.Carries

/-- Following queued references from slot `i` leads back to it. -/
def OnCycle (k : Kernel) (i : Nat) : Prop := Relation.TransGen k.Carries i i

/-- Each port on a cycle of queued references is also referred to from outside the queues. -/
def Anchored (k : Kernel) : Prop := ∀ i, k.OnCycle i → 0 < held (toPort i) k

section Graph

variable {k k' : Kernel} {p : PortRef} {q : KPort} {x : Work} {new : List Work} {i j : Nat}

/-- Writing a port with the queue it had, or without a queue, adds no edge. -/
theorem carries_writes {o : Option KPort} (hq : k.portOf p = some q) (hw : Writes k p o k')
    (ho : ∀ q', o = some q' → ∀ m ∈ q'.queue, m ∈ q.queue ∨ m.refs = []) (h : k'.Carries i j) :
    k.Carries i j := by
  obtain ⟨q', hq', m, hm, r, hr, hj⟩ := h
  by_cases hi : p.idx = i
  · subst hi
    rw [hw.portAt_same hq] at hq'
    rcases ho q' hq' m hm with hm | hm
    · exact ⟨q, (portOf_eq_some.mp hq).1, m, hm, r, hr, hj⟩
    · rw [hm] at hr
      cases hr
  · rw [hw.portAt_other hi] at hq'
    exact ⟨q', hq', m, hm, r, hr, hj⟩

theorem carries_exec (hx : Exec k x k' new) (h : k'.Carries i j) : k.Carries i j := by
  cases hx with
  | @ref r q _ hq hw =>
    refine carries_writes (portOf_of_portAt hq rfl) hw (fun q' e => ?_) h
    cases e
    cases r.recv <;> exact fun _ => .inl
  | last hq _ hw | dies hq _ _ _ hw =>
    refine carries_writes hq hw (fun q' e => ?_) h
    cases e
    exact nofun
  | drops hq _ _ hw =>
    refine carries_writes hq hw (fun q' e => ?_) h
    cases e
    exact fun _ => .inl
  | @free p =>
    cases hq : k.portOf p with
    | none =>
      unfold freePort at h
      rw [hq] at h
      exact h
    | some q => exact carries_writes hq (writes_freePort hq) (fun q' e => by cases e) h
  | _ => exact h

theorem leadsTo_exec (hx : Exec k x k' new) (h : k'.LeadsTo i j) : k.LeadsTo i j :=
  Relation.ReflTransGen.mono (fun _ _ h => carries_exec hx h) i j h

theorem sameHolders_exec (hx : Exec k x k' new) : SameHolders k k' := by
  cases hx with
  | gone => exact SameHolders.refl k
  | ref _ hw | last _ _ hw | dies _ _ _ _ hw | drops _ _ _ hw => exact hw.holders
  | stale => exact sameHolders_touch
  | bufs => exact sameHolders_msgbufsFree
  | wake => exact sameHolders_hangup
  | free => exact sameHolders_freePort

theorem held_exec {v : Ref → Nat} (hx : Exec k x k' new) : held v k' = held v k :=
  held_same (sameHolders_exec hx)

/-- The cascade drops nothing outside the queues and closes no cycle, so what was anchored stays
anchored. -/
theorem Anchored.exec (h : k.Anchored) (hx : Exec k x k' new) : k'.Anchored := by
  intro i hi
  rw [held_exec hx]
  exact h i (Relation.TransGen.mono (fun _ _ h => carries_exec hx h) i i hi)

end Graph

/-! ## The wakes still to come -/

/-- Running the item may in the end free the port in slot `j`. -/
def Aims (k : Kernel) : Work → Nat → Prop
  | .ref r, j => k.LeadsTo r.idx j
  | .unref p, j => k.LeadsTo p.idx j
  | .free p, j => p.idx = j
  | .bufs _, _ => False
  | .wake _, _ => False

/-- If `y` wakes a port, that port is anchored or `x`, which runs before `y`, does not aim at
it. -/
def Spares (k : Kernel) (x y : Work) : Prop :=
  ∀ p, y = .wake p → 0 < held (toPort p.idx) k ∨ ¬k.Aims x p.idx

/-- The counts are right, cycles are anchored, a port still to be woken is spared by the work before
its wake, and no freed port has been touched. -/
structure Sound (k : Kernel) (w : List Work) : Prop where
  balanced : k.Balanced w
  anchored : k.Anchored
  awake : ∀ p, .wake p ∈ w → k.live p = true
  spares : w.Pairwise k.Spares
  noStale : k.NoStale

section Sound

variable {k k' : Kernel} {p : PortRef} {q : KPort} {x y : Work} {new w : List Work} {j : Nat}

theorem mem_queueWork {l : List Kmsg} (h : x ∈ queueWork l) :
    (∃ m ∈ l, ∃ r ∈ m.refs, x = .ref r) ∨ ∃ b, x = .bufs b := by
  obtain ⟨m, hm, hx⟩ := mem_flatMap.mp h
  rcases mem_append.mp hx with hx | hx
  · obtain ⟨r, hr, rfl⟩ := mem_map.mp hx
    exact .inl ⟨m, hm, r, hr, rfl⟩
  · exact .inr ⟨m.bufs, mem_singleton.mp hx⟩

theorem aims_queueWork (hq : k.portAt p.idx = some q) (hx : x ∈ queueWork q.queue)
    (h : k.Aims x j) : Relation.TransGen k.Carries p.idx j := by
  rcases mem_queueWork hx with ⟨m, hm, r, hr, rfl⟩ | ⟨b, rfl⟩
  · exact .head' ⟨q, hq, m, hm, r, hr, rfl⟩ h
  · exact h.elim

theorem aims_mono (hx : Exec k x k' new) (h : k'.Aims y j) : k.Aims y j := by
  cases y with
  | ref r | unref p => exact leadsTo_exec hx h
  | _ => exact h

/-- What an item leaves to be done aims nowhere the item did not. -/
theorem aims_new (hx : Exec k x k' new) (hy : y ∈ new) (h : k'.Aims y j) : k.Aims x j := by
  have hk := aims_mono hx h
  cases hx with
  | ref =>
    rw [mem_singleton.mp hy] at hk
    exact hk
  | @last p _ _ hq _ _ =>
    rcases mem_append.mp hy with hy | hy
    · exact (aims_queueWork (portOf_eq_some.mp hq).1 hy hk).to_reflTransGen
    · rw [mem_singleton.mp hy] at hk
      have e : p.idx = j := hk
      subst e
      exact .refl
  | dies hq =>
    rcases mem_append.mp hy with hy | hy
    · exact (aims_queueWork (portOf_eq_some.mp hq).1 hy hk).to_reflTransGen
    · rw [mem_singleton.mp hy] at hk
      exact hk.elim
  | drops =>
    rw [mem_singleton.mp hy] at hk
    exact hk.elim
  | _ => cases hy

variable {r : PortRef}

/-- A write that leaves a port of the same generation there leaves every pointer good. -/
theorem live_writes {q' : KPort} (hq : k.portOf p = some q)
    (hw : Writes k p (some q') k') (hg : q'.gen = q.gen) (h : k.live r = true) :
    k'.live r = true := by
  obtain ⟨qr, hr, hgr⟩ := live_iff.mp h
  by_cases hi : p.idx = r.idx
  · rw [← hi, (portOf_eq_some.mp hq).1] at hr
    cases hr
    exact live_iff.mpr ⟨q', by rw [← hi]; exact hw.portAt_same hq, hg.trans hgr⟩
  · exact live_iff.mpr ⟨qr, (hw.portAt_other hi).trans hr, hgr⟩

/-- A pointer that the item spares is as good after it as before. -/
theorem live_exec (hb : k.Balanced (x :: w)) (hx : Exec k x k' new)
    (hs : 0 < held (toPort r.idx) k ∨ ¬k.Aims x r.idx) (h : k.live r = true) :
    k'.live r = true := by
  cases hx with
  | @ref e q _ hq hw =>
    refine live_writes (portOf_of_portAt hq rfl) hw ?_ h
    cases e.recv <;> rfl
  | last hq _ hw | dies hq _ _ _ hw | drops hq _ _ hw => exact live_writes hq hw rfl h
  | @free p =>
    obtain ⟨q, hq, hn, -⟩ := hb.orphans p mem_cons_self
    -- an orphan has no reference left, so it is neither anchored nor spared
    have hne : p.idx ≠ r.idx := by
      intro e
      rcases hs with hs | hs
      · have := hb.counted.nrights (portOf_eq_some.mp hq).1
        rw [e] at this
        unfold total at this
        omega
      · exact hs e
    obtain ⟨qr, hr, hgr⟩ := live_iff.mp h
    exact live_iff.mpr ⟨qr, ((writes_freePort hq).portAt_other hne).trans hr, hgr⟩
  | _ => exact h

theorem spares_queueWork (k : Kernel) (l : List Kmsg) : (queueWork l).Pairwise k.Spares := by
  refine pairwise_of_forall_mem_list fun a _ b hb r e => ?_
  subst e
  rcases mem_queueWork hb with ⟨_, _, _, _, e⟩ | ⟨_, e⟩ <;> cases e

/-- An item that wakes its port is safe after what the item itself flushed, since a flush that
led back to the port would put it on a cycle. -/
theorem spares_new (ha : k.Anchored) (hx : Exec k x k' new) : new.Pairwise k'.Spares := by
  cases hx with
  | @last p q _ hq _ _ =>
    refine pairwise_append.mpr ⟨spares_queueWork _ _, pairwise_singleton _ _, fun a _ b hb r e => ?_⟩
    rw [e] at hb
    cases mem_singleton.mp hb
  | @dies p q _ hq hn hr hd hw =>
    refine pairwise_append.mpr ⟨spares_queueWork _ _, pairwise_singleton _ _, fun a hm b hb r e => ?_⟩
    rw [e] at hb
    cases mem_singleton.mp hb
    have hx : Exec k (.unref p) k' (queueWork q.queue ++ [.wake p]) := .dies hq hn hr hd hw
    by_cases hc : k.OnCycle p.idx
    · refine .inl ?_
      rw [held_exec hx]
      exact ha p.idx hc
    · exact .inr fun haim =>
        hc (aims_queueWork (portOf_eq_some.mp hq).1 hm (aims_mono hx haim))
  | ref | drops => exact pairwise_singleton _ _
  | _ => exact List.Pairwise.nil

/-- The step itself touches a live port, if it touches one. -/
theorem noStale_exec (h : k.Sound (x :: w)) (hx : Exec k x k' new) : k'.NoStale := by
  cases hx with
  | gone | bufs => exact h.noStale
  | ref _ hw | last _ _ hw | dies _ _ _ _ hw | drops _ _ _ hw => exact hw.noStale h.noStale
  | stale hp =>
    obtain ⟨q, hq⟩ := h.balanced.counted.portOf_unref
    rw [hp] at hq
    cases hq
  | @wake p => exact noStale_hangup h.noStale (h.awake p mem_cons_self)
  | @free p =>
    obtain ⟨q, hq, -⟩ := h.balanced.orphans p mem_cons_self
    exact noStale_freePort h.noStale (live_of_portOf hq)

/-- The port a step has put off waking is there. -/
theorem awake_new (hx : Exec k x k' new) (hp : .wake p ∈ new) : k'.live p = true := by
  cases hx with
  | last =>
    rcases mem_append.mp hp with hp | hp
    · rcases mem_queueWork hp with ⟨_, _, _, _, e⟩ | ⟨_, e⟩ <;> cases e
    · cases mem_singleton.mp hp
  | dies hq _ _ _ hw =>
    rcases mem_append.mp hp with hp | hp
    · rcases mem_queueWork hp with ⟨_, _, _, _, e⟩ | ⟨_, e⟩ <;> cases e
    · cases mem_singleton.mp hp
      exact live_of_portOf (hw.portOf_same hq rfl)
  | drops hq _ _ hw =>
    cases mem_singleton.mp hp
    exact live_of_portOf (hw.portOf_same hq rfl)
  | ref => cases mem_singleton.mp hp
  | _ => cases hp

theorem Sound.exec (h : k.Sound (x :: w)) (hx : Exec k x k' new) : k'.Sound (new ++ w) where
  balanced := h.balanced.exec hx
  anchored := h.anchored.exec hx
  awake p hp := by
    rcases mem_append.mp hp with hp | hp
    · exact awake_new hx hp
    · have hs := rel_of_pairwise_cons h.spares hp p rfl
      exact live_exec h.balanced hx hs (h.awake p (mem_cons_of_mem x hp))
  spares := by
    have hrest := (pairwise_cons.mp h.spares).2
    refine pairwise_append.mpr ⟨spares_new h.anchored hx, ?_, fun a ha b hb p e => ?_⟩
    · refine hrest.imp fun {a b} hab p e => ?_
      rw [held_exec hx]
      exact (hab p e).imp id fun hn haim => hn (aims_mono hx haim)
    · rw [held_exec hx]
      exact (rel_of_pairwise_cons h.spares hb p e).imp id fun hn haim =>
        hn (aims_new hx ha haim)
  noStale := noStale_exec h hx

end Sound

/-! ## Whole calls -/

/-- Work that consists of references to release. -/
def Plain (w : List Work) : Prop := ∀ x ∈ w, (∀ p, x ≠ .wake p) ∧ ∀ p, x ≠ .free p

theorem Plain.frees {w : List Work} (h : Plain w) : frees w = [] := by
  induction w with
  | nil => rfl
  | cons x w ih =>
    have hw := ih fun y hy => h y (mem_cons_of_mem x hy)
    cases x with
    | free p => exact absurd rfl ((h _ mem_cons_self).2 p)
    | _ => exact hw

/-- What the cascade needs of a state: right counts, anchored cycles, a clean log. -/
structure Safe (k : Kernel) (w : List Work) : Prop where
  counted : k.Counted w
  anchored : k.Anchored
  noStale : k.NoStale

section Calls

variable {k : Kernel} {w : List Work}

theorem Safe.sound (h : k.Safe w) (hp : Plain w) : k.Sound w where
  balanced := h.counted.balanced hp.frees
  anchored := h.anchored
  awake p hm := absurd rfl ((hp _ hm).1 p)
  spares := pairwise_of_forall_mem_list fun _ _ b hb p e => absurd e ((hp b hb).1 p)
  noStale := h.noStale

theorem plain_nil : Plain [] := fun _ h => by cases h

theorem plain_unref {p : PortRef} (h : Plain w) : Plain (.unref p :: w) := by
  intro x hx
  rcases mem_cons.mp hx with rfl | hx
  · exact ⟨nofun, nofun⟩
  · exact h x hx

theorem plain_refs {refs : List InRef} (h : Plain w) : Plain (refs.map .ref ++ w) := by
  intro x hx
  rcases mem_append.mp hx with hx | hx
  · obtain ⟨r, -, rfl⟩ := mem_map.mp hx
    exact ⟨nofun, nofun⟩
  · exact h x hx

end Calls

end Kernel

end Nlos
