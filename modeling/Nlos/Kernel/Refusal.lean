import Nlos.Kernel.Machine

/-!
# Sends that are refused

A send takes references while it walks and gives them back through `port_unref` when the message
is refused. A reference taken and dropped again leaves its port as it was, with one exception:
`port_unref` looks at `nrecv`, finds nobody receiving, and marks the port dead. Ports that nobody
receives from and that are not dead exist: the capability ports of the kernel are granted as send
rights only. A refused message that names one kills it.
-/

namespace Nlos

open Fallible List

/-- What a refused send has to leave of a port: all but the counters. -/
structure PortCore where
  gen : Nat
  nrights : Int
  nrecv : Int
  dead : Bool
  queue : List Kmsg
deriving DecidableEq

def KPort.core (q : KPort) : PortCore := ⟨q.gen, q.nrights, q.nrecv, q.dead, q.queue⟩

/-- The core of the port in slot `j`, with the references `rs` on top. -/
def PortCore.plus (rs : List InRef) (j : Nat) (c : PortCore) : PortCore :=
  { c with
    nrights := c.nrights + (rs.countP (·.idx == j) : Nat)
    nrecv := c.nrecv + (rs.countP (fun r => r.idx == j && r.recv) : Nat) }

namespace Kernel

variable {k k' k'' : Kernel} {p : PortRef} {q : KPort} {rs : List InRef} {w : List Work}

/-- Every proc record and the core of every port is as it was. -/
structure Restored (k k' : Kernel) : Prop where
  procv : k'.procv = k.procv
  ports : ∀ j, (k'.portAt j).map KPort.core = (k.portAt j).map KPort.core

/-- The same, but for the references `rs`, which are still to be given back. -/
structure Owes (k : Kernel) (rs : List InRef) (k' : Kernel) : Prop where
  procv : k'.procv = k.procv
  ports : ∀ j, (k'.portAt j).map KPort.core = (k.portAt j).map fun q => q.core.plus rs j

theorem PortCore.plus_nil (j : Nat) (c : PortCore) : c.plus [] j = c := by
  unfold PortCore.plus
  simp

theorem Owes.restored (h : Owes k [] k') : Restored k k' :=
  ⟨h.procv, fun j => by simp only [h.ports j, PortCore.plus_nil]⟩

theorem owes_refl (k : Kernel) : Owes k [] k :=
  ⟨rfl, fun j => by simp only [PortCore.plus_nil]⟩

theorem Owes.congr (h : Owes k rs k') (hv : k''.procv = k'.procv)
    (hp : ∀ j, (k''.portAt j).map KPort.core = (k'.portAt j).map KPort.core) : Owes k rs k'' :=
  ⟨hv.trans h.procv, fun j => (hp j).trans (h.ports j)⟩

theorem Owes.portAt {j : Nat} (h : Owes k rs k') (hq : k.portAt j = some q) :
    ∃ q', k'.portAt j = some q' ∧ q'.core = q.core.plus rs j := by
  have h1 := h.ports j
  rw [hq, Option.map_some, Option.map_eq_some_iff] at h1
  exact h1

theorem Owes.take (h : Owes k rs k') (recv : Bool) (hq : k.portOf p = some q) :
    Owes k (rs ++ [⟨p.idx, recv⟩]) (k'.modPort p (addRef recv)) := by
  obtain ⟨hat, hgen⟩ := portOf_eq_some.mp hq
  obtain ⟨q', hq', hc⟩ := h.portAt hat
  have hg' : q'.gen = p.gen := (congrArg PortCore.gen hc).trans hgen
  refine ⟨(sameHolders_modPort).procv.trans h.procv, fun j => ?_⟩
  rw [portAt_modPort (portOf_of_portAt hq' hg')]
  split
  next e =>
    subst e
    rw [hat, Option.map_some, Option.map_some]
    simp only [KPort.core, PortCore.plus, PortCore.mk.injEq] at hc
    obtain ⟨h1, h2, h3, h4, h5⟩ := hc
    simp only [KPort.core, PortCore.plus, addRef, countP_append, countP_singleton, h1, h2, h3,
      h4, h5]
    cases recv <;> simp <;> omega
  next hne =>
    rw [h.ports j]
    unfold PortCore.plus
    simp only [countP_append, countP_singleton, beq_iff_eq, hne, if_false, Nat.add_zero, Bool.and_eq_true, false_and]

variable {r : InRef}

/-- A reference is given back: the port is not dropped to nothing, and somebody receives from it or
it is dead already. -/
theorem Owes.release (h : Owes k (r :: rs) k') (hq : k.portAt r.idx = some q)
    (hn : 0 < q.nrights) (hr : q.dead = true ∨ 0 < q.nrecv) :
    Owes k rs (releaseRef portUnref k' r) := by
  obtain ⟨q', hq', hc⟩ := h.portAt hq
  let q1 : KPort := if r.recv then dropRecv q' else q'
  have hcore : (dropRight q1).core = q.core.plus rs r.idx := by
    simp only [KPort.core, PortCore.plus, PortCore.mk.injEq, countP_cons, beq_self_eq_true, Bool.true_and, if_pos] at hc
    obtain ⟨h1, h2, h3, h4, h5⟩ := hc
    simp only [KPort.core, PortCore.plus, dropRight, PortCore.mk.injEq, q1]
    cases hb : r.recv with
    | true =>
      rw [hb, if_pos rfl] at h3
      refine ⟨h1, ?_, ?_, h4, h5⟩
      · show q'.nrights - 1 = _
        omega
      · show q'.nrecv - 1 = _
        omega
    | false =>
      rw [hb, if_neg (by decide)] at h3
      refine ⟨h1, ?_, h3, h4, h5⟩
      show q'.nrights - 1 = _
      omega
  have hp : k'.portOf ⟨r.idx, q'.gen⟩ = some q' := portOf_of_portAt hq' rfl
  have hw1 := writes_dropRecv r.recv hp
  have hp1 : portOf _ _ = some q1 := hw1.portOf_same hp (by cases r.recv <;> rfl)
  have hw := hw1.comp (writes_modPort (f := dropRight) hp1)
  have hrights : q1.nrights - 1 = q.nrights + _ := congrArg PortCore.nrights hcore
  have hrecv : q1.nrecv = q.nrecv + _ := congrArg PortCore.nrecv hcore
  have hdead : q1.dead = q.dead := congrArg PortCore.dead hcore
  unfold releaseRef
  simp only [hq']
  rw [portUnref_eq]
  unfold portUnrefWith
  rw [hp1]
  simp only
  rw [if_neg (by omega), if_neg]
  · refine ⟨hw.holders.procv.trans h.procv, fun j => ?_⟩
    rw [portAt_hangup]
    by_cases e : r.idx = j
    · subst e
      rw [hw.portAt_same hp, hq, Option.map_some, Option.map_some, hcore]
    · rw [hw.portAt_other e, h.ports j]
      unfold PortCore.plus
      simp only [countP_cons, beq_iff_eq, e, if_false, Nat.add_zero, Bool.and_eq_true, false_and]
  · rintro ⟨e1, e2⟩
    rcases hr with hr | hr
    · cases hr.symm.trans (hdead.symm.trans e2)
    · omega

theorem Owes.releaseAll (h : Owes k rs k')
    (hr : ∀ r ∈ rs, ∃ q, k.portAt r.idx = some q ∧ 0 < q.nrights ∧ (q.dead = true ∨ 0 < q.nrecv)) :
    Restored k (k'.releaseInflight rs) := by
  induction rs generalizing k' with
  | nil => exact h.restored
  | cons r rs ih =>
    obtain ⟨q, hq, hn, hd⟩ := hr r mem_cons_self
    exact ih (h.release hq hn hd) fun r' hr' => hr r' (mem_cons_of_mem _ hr')

/-! ## A port nobody receives from -/

/-- Nobody receives from the port, and it is not dead. -/
def Idle (k : Kernel) (p : PortRef) : Prop :=
  ∃ q, k.portOf p = some q ∧ q.nrecv = 0 ∧ q.dead = false

def Ended (k : Kernel) (p : PortRef) : Prop := ∀ q, k.portOf p = some q → q.dead = true

def Work.Drops (p : PortRef) : Work → Prop
  | .ref r => r.idx = p.idx
  | .unref p' => p' = p
  | _ => False

theorem portOf_inj {p' : PortRef} {q' : KPort} (h' : k.portOf p' = some q')
    (h : k.portOf p = some q) (hi : p'.idx = p.idx) : p' = p ∧ q' = q := by
  obtain ⟨hat', hgen'⟩ := portOf_eq_some.mp h'
  obtain ⟨hat, hgen⟩ := portOf_eq_some.mp h
  rw [hi, hat] at hat'
  cases hat'
  obtain ⟨i', g'⟩ := p'
  obtain ⟨i, g⟩ := p
  subst hi hgen' hgen
  exact ⟨rfl, rfl⟩

/-- The cascade will not end with `p` alive: it is dead or gone, about to be freed, or about to lose
a reference while nobody receives from it. -/
def Doomed (p : PortRef) (c : Config) : Prop :=
  Ended c.1 p ∨ .free p ∈ c.2 ∨ ∃ q, c.1.portOf p = some q ∧ q.nrecv = 0 ∧ ∃ x ∈ c.2, x.Drops p

variable {x : Work} {new : List Work}

theorem Ended.exec (hx : Exec k x k' new) (he : Ended k p) : Ended k' p := by
  -- a slot is only ever written through a good pointer, and no write clears the flag
  have keep : ∀ {p' : PortRef} {q' q'' : KPort}, k.portOf p' = some q' → Writes k p' (some q'') k' →
      q''.gen = q'.gen → (q'.dead = true → q''.dead = true) → Ended k' p := by
    intro p' q' q'' hp' hw hg hd q hq
    obtain ⟨hat, hgen⟩ := portOf_eq_some.mp hq
    by_cases hi : p'.idx = p.idx
    · rw [← hi, hw.portAt_same hp'] at hat
      cases hat
      obtain ⟨hat', -⟩ := portOf_eq_some.mp hp'
      rw [hi] at hat'
      exact hd (he q' (portOf_of_portAt hat' (hg.symm.trans hgen)))
    · rw [hw.portAt_other hi] at hat
      exact he q (portOf_of_portAt hat hgen)
  cases hx with
  | @ref r q _ hq hw =>
    refine keep (portOf_of_portAt hq rfl) hw ?_ ?_
    · cases r.recv <;> rfl
    · cases r.recv <;> exact id
  | last hq _ hw | drops hq _ _ hw => exact keep hq hw rfl id
  | dies hq _ _ _ hw => exact keep hq hw rfl fun _ => rfl
  | free =>
    intro q hq
    obtain ⟨hat, hgen⟩ := portOf_eq_some.mp hq
    exact he q (portOf_of_portAt (portAt_of_freePort hat).1 hgen)
  | _ => exact he

theorem ended_freePort (k : Kernel) (p : PortRef) : Ended (k.freePort p) p := by
  intro q hq
  obtain ⟨hat, hgen⟩ := portOf_eq_some.mp hq
  obtain ⟨hat, hgone⟩ := portAt_of_freePort hat
  cases (portOf_of_portAt hat hgen).symm.trans (hgone rfl)

theorem Counted.nrecv_pos (hc : k.Counted (.ref r :: w)) (hq : k.portAt r.idx = some q)
    (hr : r.recv = true) : 0 < q.nrecv := by
  rw [hc.nrecv hq, total_cons]
  have h1 : workWeight (recvTo r.idx) (.ref r) = 1 := by
    simp [workWeight, recvTo, InRef.ref, hr]
  omega

theorem Doomed.exec (hx : Exec k x k' new) (hc : k.Counted (x :: w))
    (hd : Doomed p (k, x :: w)) : Doomed p (k', new ++ w) := by
  rcases hd with he | hf | ⟨q, hq, hn, y, hy, hdrop⟩
  · exact .inl (he.exec hx)
  · rcases mem_cons.mp hf with e | hf
    · subst e
      cases hx
      exact .inl (ended_freePort k p)
    · exact .inr (.inl (mem_append_right _ hf))
  · -- the pending drop is still there, or it was the item run
    have hy' := mem_cons.mp hy
    have later : ∀ {q' : KPort}, k'.portOf p = some q' → q'.nrecv = 0 → y ∈ w →
        Doomed p (k', new ++ w) :=
      fun hp' hn' hyw => .inr (.inr ⟨_, hp', hn', y, mem_append_right _ hyw, hdrop⟩)
    have dead : ∀ {q' : KPort}, k'.portAt p.idx = some q' → q'.dead = true →
        Doomed p (k', new ++ w) := by
      intro q' hat hdead
      refine .inl fun q'' hq'' => ?_
      obtain ⟨hat', -⟩ := portOf_eq_some.mp hq''
      rw [hat] at hat'
      cases hat'
      exact hdead
    obtain ⟨hat, hgen⟩ := portOf_eq_some.mp hq
    -- an item that is not about the port leaves it, and the pending drop too
    have other : ∀ {p' : PortRef} {o : Option KPort}, Writes k p' o k' →
      (x.Drops p → p'.idx = p.idx) → p'.idx ≠ p.idx → Doomed p (k', new ++ w) := fun hw hx hne =>
      later (hw.portOf_other hne hq) hn (hy'.resolve_left fun e => hne (hx (e ▸ hdrop)))
    cases hx with
    | gone hgone =>
      rcases hy' with rfl | hyw
      · rw [hdrop, hat] at hgone
        cases hgone
      · exact later hq hn hyw
    | @ref r q' _ hr hw =>
      by_cases hi : r.idx = p.idx
      · have hr' := hr
        rw [hi, hat] at hr'
        cases hr'
        have hrecv : r.recv = false := by
          cases hb : r.recv with
          | false => rfl
          | true =>
            have h1 := hc.nrecv_pos hr hb
            omega
        have hat' := hw.portAt_same (portOf_of_portAt hr rfl)
        rw [hrecv, hi] at hat'
        refine .inr (.inr ⟨q, portOf_of_portAt hat' hgen, hn, .unref p, mem_append_left _ ?_, rfl⟩)
        rw [hi, hgen]
        exact mem_singleton_self _
      · exact other hw id hi
    | @stale p' hgone =>
      rcases hy' with rfl | hyw
      · have e : p' = p := hdrop
        rw [e, hq] at hgone
        cases hgone
      · exact later hq hn hyw
    | @last p' q' _ hq' _ hw =>
      by_cases hi : p'.idx = p.idx
      · obtain ⟨rfl, -⟩ := portOf_inj hq' hq hi
        exact .inr (.inl (mem_append_left _ (mem_append_right _ (mem_singleton_self _))))
      · exact other hw (congrArg PortRef.idx) hi
    | @dies p' q' _ hq' _ _ _ hw =>
      by_cases hi : p'.idx = p.idx
      · obtain ⟨rfl, -⟩ := portOf_inj hq' hq hi
        exact dead (hw.portAt_same hq') rfl
      · exact other hw (congrArg PortRef.idx) hi
    | @drops p' q' _ hq' _ hnot hw =>
      by_cases hi : p'.idx = p.idx
      · obtain ⟨rfl, rfl⟩ := portOf_inj hq' hq hi
        refine dead (hw.portAt_same hq') ?_
        cases hb : q'.dead with
        | true => exact hb
        | false => exact absurd ⟨hn, hb⟩ hnot
      · exact other hw (congrArg PortRef.idx) hi
    | bufs | wake =>
      rcases hy' with rfl | hyw
      · exact hdrop.elim
      · exact later hq hn hyw
    | @free p' =>
      rcases hy' with rfl | hyw
      · exact hdrop.elim
      cases hp' : (k.freePort p').portOf p with
      | none =>
        refine .inl fun q'' hq'' => ?_
        cases hp'.symm.trans hq''
      | some q'' =>
        obtain ⟨hat', -⟩ := portOf_eq_some.mp hp'
        cases hat.symm.trans (portAt_of_freePort hat').1
        exact later hp' hn hyw

/-- Giving back a reference to a port nobody receives from ends it. -/
theorem releaseInflight_ended (hc : k.Counted (rs.map .ref)) (hr : r ∈ rs)
    (hi : r.idx = p.idx) (hq : k.portOf p = some q) (hn : q.nrecv = 0) :
    Ended (k.releaseInflight rs) p := by
  have hs := releaseInflight_steps k rs []
  have hb : k.Balanced (rs.map .ref ++ []) := by
    rw [append_nil]
    exact hc.balanced (frees_refs rs)
  have h0 : Doomed p (k, rs.map .ref ++ []) := by
    refine .inr (.inr ⟨q, hq, hn, .ref r, ?_, hi⟩)
    rw [append_nil]
    exact mem_map_of_mem hr
  have h1 : (k.releaseInflight rs).Balanced [] ∧ Doomed p (k.releaseInflight rs, []) :=
    hs.invariant (P := fun c => c.1.Balanced c.2 ∧ Doomed p c)
      (fun hx h => ⟨h.1.exec hx, h.2.exec hx h.1.counted⟩) ⟨hb, h0⟩
  rcases h1.2 with he | hf | ⟨_, _, _, x, hx, _⟩
  · exact he
  · cases hf
  · cases hx

/-! ## The references of a send -/

theorem owes_takeRefs {l : List Right} (h : Owes k rs k')
    (hl : ∀ r ∈ l, ∃ q, k.portOf r.port = some q) :
    Owes k (rs ++ l.map Right.entry) (k'.takeRefs l) := by
  induction l generalizing rs k' with
  | nil =>
    rw [map_nil, append_nil]
    exact h
  | cons r l ih =>
    obtain ⟨q, hq⟩ := hl r mem_cons_self
    have h1 := ih (h.take r.recv hq) fun r' hr' => hl r' (mem_cons_of_mem _ hr')
    rw [append_assoc] at h1
    exact h1

theorem portPushOwned_core {ok : Bool} {data : List UInt8} {refs : List InRef} {bufs : List MsgBuf}
    {rc : Push} (h : portPushOwned ok k p data refs bufs = (rc, k')) (hrc : rc ≠ .ok) (j : Nat) :
    (k'.portAt j).map KPort.core = (k.portAt j).map KPort.core := by
  have count : ∀ {f : KPort → KPort}, (∀ q, (f q).core = q.core) → ∀ {q : KPort},
      k.portOf p = some q →
        ((k.modPort p f).portAt j).map KPort.core = (k.portAt j).map KPort.core := by
    intro f hf q hq
    rw [portAt_modPort hq]
    split
    next e =>
      rw [← e, (portOf_eq_some.mp hq).1, Option.map_some, Option.map_some, hf]
    · rfl
  unfold portPushOwned at h
  split at h
  · cases h
    rfl
  next q hq =>
  split at h
  · cases h
    exact count (fun _ => rfl) hq
  simp only at h
  split at h
  · cases h
    exact count (fun _ => rfl) hq
  split at h
  · cases h
    exact absurd rfl hrc
  · cases h
    rfl

theorem Counted.slot_nrights {i h : Nat} {r : Right} (hc : k.Counted w) (hs : k.SlotAt i h r)
    (hq : k.portOf r.port = some q) : 0 < q.nrights ∧ (r.recv = true → 0 < q.nrecv) := by
  obtain ⟨pr, hpr, hr, hu⟩ := hs
  have hle : ∀ v : Ref → Nat, v (r.port.ref r.recv) ≤ k.total v w := fun v => by
    have h1 := slot_le_held (v := v) hpr hr hu
    unfold total
    omega
  have hat := (portOf_eq_some.mp hq).1
  constructor
  · rw [hc.nrights hat]
    have h1 := hle (toPort r.port.idx)
    rw [toPort_ptr] at h1
    omega
  · intro hrecv
    rw [hc.nrecv hat]
    have h1 := hle (recvTo r.port.idx)
    have h2 : recvTo r.port.idx (r.port.ref r.recv) = 1 := by simp [recvTo, PortRef.ref, hrecv]
    omega

end Kernel

open Kernel

/-- A right the walk takes a reference for names a port nobody receives from. -/
def TakesIdle (env : SendEnv) (k : Kernel) (v : LVal) : Prop :=
  ∃ pre post u, items env.heap (maxDepth + 1) v = pre ++ post ∧
    runItems env pre (env.start k v) = (.ok (), u) ∧ ∃ r ∈ taken k env.proc pre, k.Idle r.port

variable {env : SendEnv} {k k' k2 : Kernel} {v : LVal} {s' : SerState} {l : List Item}

theorem mem_taken_append {i : Nat} {l' : List Item} {r : Right} (h : r ∈ taken k i l) :
    r ∈ taken k i (l ++ l') := by
  unfold taken at h ⊢
  rw [flatMap_append]
  exact mem_append_left _ h

/-- The part of the items a refused walk got through: no further part can be got through. -/
structure Reached (env : SendEnv) (k : Kernel) (v : LVal) (l : List Item) : Prop where
  here : ∃ post u, items env.heap (maxDepth + 1) v = l ++ post ∧
    runItems env l (env.start k v) = (.ok (), u)
  furthest : ∀ pre post u, items env.heap (maxDepth + 1) v = pre ++ post →
    runItems env pre (env.start k v) = (.ok (), u) → ∃ tl, l = pre ++ tl

theorem Reached.takesIdle_iff (h : Reached env k v l) :
    TakesIdle env k v ↔ ∃ r ∈ taken k env.proc l, k.Idle r.port := by
  constructor
  · rintro ⟨pre, post, u, he, hrun, r, hr, hidle⟩
    obtain ⟨tl, rfl⟩ := h.furthest pre post u he hrun
    exact ⟨r, mem_taken_append hr, hidle⟩
  · rintro ⟨r, hr, hidle⟩
    obtain ⟨post, u, he, hrun⟩ := h.here
    exact ⟨l, post, u, he, hrun, r, hr, hidle⟩

/-- A walk that was refused stopped at an item, and that is how far it got. -/
theorem reached_of_error {e : Stop}
    (h : serialize env (maxDepth + 1) v (env.start k v) = (.error e, s')) :
    ∃ l, Reached env k v l ∧ Through env.proc (env.start k v) l s' := by
  obtain ⟨pre, x, post, u, t, he, hrun, hx, ht⟩ := serialize_error h
  refine ⟨pre, ⟨⟨x :: post, u, he, hrun⟩, fun pre' post' u' he' hrun' => ?_⟩, ht⟩
  rw [he] at he'
  rcases append_eq_append_iff.mp he' with ⟨tl, rfl, htl⟩ | ⟨tl, rfl, -⟩
  · -- past the item at which the walk stops
    cases tl with
    | nil => exact ⟨[], by rw [append_nil, append_nil]⟩
    | cons y tl =>
      obtain ⟨rfl, -⟩ := htl
      have hfail : runItems env (pre ++ x :: tl) (env.start k v) = (.error e, t) :=
        each_eq_error.mpr ⟨pre, x, tl, u, rfl, hrun, hx⟩
      rw [hfail] at hrun'
      cases hrun'
  · exact ⟨tl, rfl⟩

theorem reached_of_ok (h : serialize env (maxDepth + 1) v (env.start k v) = (.ok (), s')) :
    Reached env k v (items env.heap (maxDepth + 1) v) ∧
      Through env.proc (env.start k v) (items env.heap (maxDepth + 1) v) s' := by
  obtain ⟨z, hrun, -, -, ht⟩ := serialize_ok h
  exact ⟨⟨⟨[], z, (append_nil _).symm, hrun⟩, fun pre post u he _ => ⟨post, he⟩⟩, ht⟩

/-- After a walk the sender's state is as it was but for the references in the buffer. -/
theorem Through.owes (ht : Through env.proc (env.start k v) l s') (hc : k.Counted []) :
    Owes k s'.w.refs s'.k := by
  have h1 := owes_takeRefs (l := taken k env.proc l) (owes_refl k) fun r hr => by
    obtain ⟨h, hs⟩ := slotAt_of_taken hr
    exact hc.slotAt_portOf hs
  have hrefs := ht.refs
  rw [show (env.start k v).w.refs = [] from wreserve_refs _ _, nil_append] at hrefs
  rw [hrefs, ht.k]
  exact h1

/-- What is left of a refused send once its references are given back. -/
theorem refused_iff (hl : Reached env k v l) (ht : Through env.proc (env.start k v) l s')
    (hc : k.Counted []) (hc2 : k2.Counted (s'.w.refs.map .ref)) (hv : k2.procv = s'.k.procv)
    (hp : ∀ j, (k2.portAt j).map KPort.core = (s'.k.portAt j).map KPort.core) :
    Restored k (k2.releaseInflight s'.w.refs) ↔ ¬TakesIdle env k v := by
  have howes : Owes k s'.w.refs k2 := (ht.owes hc).congr hv hp
  have hrefs : s'.w.refs = (taken k env.proc l).map Right.entry := by
    have h1 := ht.refs
    rwa [show (env.start k v).w.refs = [] from wreserve_refs _ _, nil_append] at h1
  rw [hl.takesIdle_iff]
  constructor
  · rintro hres ⟨r, hr, q, hq, hn, hd⟩
    obtain ⟨hat, hgen⟩ := portOf_eq_some.mp hq
    -- a receive right to the port would be a receiver
    have hnone : s'.w.refs.countP (fun x => x.idx == r.port.idx && x.recv) = 0 := by
      refine countP_eq_zero.mpr fun x hx hcon => ?_
      rw [Bool.and_eq_true, beq_iff_eq] at hcon
      rw [hrefs] at hx
      obtain ⟨r', hr', rfl⟩ := mem_map.mp hx
      obtain ⟨h', hs'⟩ := slotAt_of_taken hr'
      obtain ⟨q', hq'⟩ := hc.slotAt_portOf hs'
      have h1 := (hc.slot_nrights hs' hq').2 hcon.2
      have h2 := (portOf_eq_some.mp hq').1
      rw [show r'.port.idx = r.port.idx from hcon.1, hat] at h2
      cases h2
      omega
    obtain ⟨q2, hq2, hcore⟩ := howes.portAt hat
    have hgen2 : q2.gen = r.port.gen := (congrArg PortCore.gen hcore).trans hgen
    have hn2 : q2.nrecv = 0 := by
      have h1 := congrArg PortCore.nrecv hcore
      simp only [KPort.core, PortCore.plus, hnone] at h1
      omega
    have hend := releaseInflight_ended hc2
      (hrefs ▸ mem_map_of_mem hr) rfl (portOf_of_portAt hq2 hgen2) hn2
    -- but the port is there, and not dead
    have h1 := hres.ports r.port.idx
    rw [hat, Option.map_some, Option.map_eq_some_iff] at h1
    obtain ⟨q3, hq3, hcore3⟩ := h1
    have hg3 : q3.gen = q.gen := congrArg PortCore.gen hcore3
    have hd3 : q3.dead = q.dead := congrArg PortCore.dead hcore3
    have h2 := hend q3 (portOf_of_portAt hq3 (hg3.trans hgen))
    rw [hd3, hd] at h2
    cases h2
  · intro hidle
    refine howes.releaseAll fun x hx => ?_
    rw [hrefs] at hx
    obtain ⟨r, hr, rfl⟩ := mem_map.mp hx
    obtain ⟨h, hs⟩ := slotAt_of_taken hr
    obtain ⟨q, hq⟩ := hc.slotAt_portOf hs
    have hat := (portOf_eq_some.mp hq).1
    refine ⟨q, hat, (hc.slot_nrights hs hq).1, ?_⟩
    cases hd : q.dead with
    | true => exact .inl rfl
    | false =>
      have hne : q.nrecv ≠ 0 := fun hn => hidle ⟨r, hr, q, hq, hn, hd⟩
      have hnonneg : 0 ≤ q.nrecv := by
        rw [hc.nrecv hat]
        exact Int.natCast_nonneg _
      exact .inr (by omega)

/-! ## A message that was taken -/

theorem luabuf_luabufDetach (i : Nat) (k : Kernel) (b b' : Nat) :
    Ser.luabuf (luabufDetach i k b) i b' =
      if b = b' then (Ser.luabuf k i b').map LuaBuf.gone else Ser.luabuf k i b' := by
  unfold luabufDetach Ser.luabuf
  cases hi : k.procv[i]? with
  | none =>
    simp only [hi, Option.bind_none, Option.map_none, ite_self]
  | some pr =>
    simp only [Option.bind_some]
    cases hb : pr.bufs[b]? with
    | none =>
      simp only [hi, Option.bind_some]
      split
      next e =>
        subst e
        rw [hb]
        rfl
      · rfl
    | some lb =>
      rw [procv_setProc_same hi, Option.bind_some]
      split
      next e =>
        subst e
        rw [hb]
        exact Tally.set_slot hb
      next hne => exact List.getElem?_set_ne hne

variable {b : Nat}

/-- Every buffer of the list is empty in the end. -/
theorem luabuf_detached {i : Nat} {bs : List Nat} {lb : LuaBuf}
    (hlb : Ser.luabuf k i b = some lb) (hb : b ∈ bs ∨ lb.p = none) :
    ∃ lb', Ser.luabuf (bs.foldl (luabufDetach i) k) i b = some lb' ∧ lb'.p = none := by
  induction bs generalizing k lb with
  | nil => exact ⟨lb, hlb, hb.resolve_left nofun⟩
  | cons c bs ih =>
    have h1 := luabuf_luabufDetach i k c b
    rw [hlb] at h1
    by_cases e : c = b
    · rw [if_pos e] at h1
      exact ih h1 (.inr rfl)
    · rw [if_neg e] at h1
      refine ih h1 (hb.imp (fun hm => ?_) id)
      exact (mem_cons.mp hm).resolve_left fun e' => e e'.symm

theorem luabuf_of_lent {s u : SerState} (h : runItems env l s = (.ok (), u))
    (hb : b ∈ lent l) : ∃ lb, Ser.luabuf s.k env.proc b = some lb := by
  obtain ⟨x, hx, hxb⟩ := mem_flatMap.mp hb
  obtain ⟨pre, post, rfl⟩ := append_of_mem hx
  unfold runItems at h
  rw [each_append, bind_eq_ok] at h
  obtain ⟨⟨⟩, u1, h1, h2⟩ := h
  rw [each_cons, bind_eq_ok] at h2
  obtain ⟨⟨⟩, u2, h3, -⟩ := h2
  cases x with
  | move c =>
    have e : b = c := mem_singleton.mp hxb
    subst e
    have h4 : Ser.putBuf env b u1 = (.ok (), u2) := h3
    unfold Ser.putBuf at h4
    rw [bind_apply, get_apply] at h4
    rw [← luabuf_congr (runItems_through h1).procv]
    cases hlb : Ser.luabuf u1.k env.proc b with
    | some lb => exact ⟨lb, rfl⟩
    | none =>
      have hbor : Ser.luabufBorrow u1.k env.proc b = none := by
        unfold Ser.luabufBorrow
        rw [hlb]
      simp only [hbor] at h4
      cases h4
  | _ => cases hxb

/-- The message is at the end of the destination's queue, and the buffers it moves are empty in the
sender. -/
structure Delivered (env : SendEnv) (k : Kernel) (p : PortRef) (v : LVal) (k' : Kernel) : Prop where
  queue : ∃ q q' m, k.portOf p = some q ∧ k'.portOf p = some q' ∧ q'.queue = q.queue ++ [m]
  bufs : ∀ b ∈ lent (items env.heap (maxDepth + 1) v),
    ∃ lb, Ser.luabuf k' env.proc b = some lb ∧ lb.p = none

theorem portv_luabufDetach (i : Nat) (bs : List Nat) (k : Kernel) :
    (bs.foldl (luabufDetach i) k).portv = k.portv := by
  induction bs generalizing k with
  | nil => rfl
  | cons b bs ih =>
    refine (ih _).trans ?_
    unfold luabufDetach
    split
    · rfl
    · split <;> rfl

theorem delivered {p : PortRef} {q : KPort} (hc : k.Counted []) (hq : k.portOf p = some q)
    (hser : serialize env (maxDepth + 1) v (env.start k v) = (.ok (), s'))
    (hpush : portPushOwned env.kmsgOk s'.k p s'.w.data s'.w.refs s'.w.bufs = (.ok, k')) :
    Delivered env k p v (s'.w.bufown.foldl (luabufDetach env.proc) k') := by
  obtain ⟨z, hrun, -, -, ht⟩ := serialize_ok hser
  obtain ⟨hat, hgen⟩ := portOf_eq_some.mp hq
  obtain ⟨q1, hq1, hcore⟩ := (ht.owes hc).portAt hat
  have hgen1 : q1.gen = q.gen := congrArg PortCore.gen hcore
  have hqueue1 : q1.queue = q.queue := congrArg PortCore.queue hcore
  have hp1 : s'.k.portOf p = some q1 := portOf_of_portAt hq1 (hgen1.trans hgen)
  have hv : k'.procv = k.procv := by
    have h1 : SameHolders s'.k (portPushOwned env.kmsgOk s'.k p s'.w.data s'.w.refs s'.w.bufs).2 :=
      sameHolders_portPushOwned
    rw [hpush] at h1
    exact h1.procv.trans ht.procv
  constructor
  · unfold portPushOwned at hpush
    rw [hp1] at hpush
    simp only at hpush
    split at hpush
    · cases hpush
    split at hpush
    · cases hpush
    split at hpush
    · cases hpush
      let m : Kmsg := ⟨s'.w.data, s'.w.bufs, s'.w.data.length + msgbufsBytes s'.w.bufs, s'.w.refs⟩
      refine ⟨q, enqueue m q1, m, hq, ?_, ?_⟩
      · rw [portOf_congr (portv_luabufDetach _ _ _)]
        exact portOf_modPort_same hp1 rfl
      · show q1.queue ++ [m] = _
        rw [hqueue1]
    · cases hpush
  · intro b hb
    obtain ⟨lb, hlb⟩ := luabuf_of_lent hrun hb
    have hlb' : Ser.luabuf k' env.proc b = some lb := (luabuf_congr hv _ _).trans hlb
    refine luabuf_detached hlb' (.inl ?_)
    rw [ht.bufown]
    exact mem_append_right _ hb

/-! ## A send that is refused, and one that is taken -/

/-- In a state of a run, through any right of any sender: a send that is refused leaves every proc
record and the core of every port as it was exactly if no right the walk took names a port nobody
receives from; one that is taken adds a message at the tail and empties the buffers it moves. -/
theorem portSendFromLua_refused_iff {h : LuaInteger} {r : Right} {rc : Sent} {n : Nat}
    (hrun : Run (fun _ _ => True) k) (hr : k.rightGet env.proc h = some r)
    (hs : portSendFromLua env k r.port v = (some (rc, n), k')) :
    (rc ≠ .ok → (Restored k k' ↔ ¬TakesIdle env k v)) ∧
    (rc = .ok → Delivered env k r.port v k') := by
  have hc := hrun.sane.counted
  have hslot := (rightGet_some hr).1
  have hstart : (env.start k v).w.refs = [] := wreserve_refs _ _
  have walk : ∀ {l : List Item} {s' : SerState}, Through env.proc (env.start k v) l s' →
      s'.k.Counted (s'.w.refs.map .ref) := fun ht => by
    have h1 := through_acts (S := {}) ht plain_nil (by rw [hstart]; exact hc)
    rw [hstart, append_nil, append_nil] at h1
    exact h1.counted hc rfl
  unfold portSendFromLua at hs
  split at hs
  · cases hs
  next s' hser =>
    cases hs
    obtain ⟨l, hl, ht⟩ := reached_of_error hser
    exact ⟨fun _ => refused_iff hl ht hc (walk ht) rfl fun _ => rfl, nofun⟩
  next s' hser =>
    obtain ⟨hl, ht⟩ := reached_of_ok hser
    split at hs
    next k1 hpush =>
      cases hs
      obtain ⟨q, hq⟩ := hc.slotAt_portOf hslot
      exact ⟨fun hne => absurd rfl hne, fun _ => delivered hc hq hser hpush⟩
    next rc' k1 hne hpush =>
    cases hs
    have hrc : rc' ≠ .ok := fun e => hne e
    obtain ⟨q, hq⟩ := (walk ht).slotAt_portOf (hslot.congr ht.procv)
    have hplain : Plain (s'.w.refs.map .ref) := by
      have h1 : Plain (s'.w.refs.map .ref ++ []) := plain_refs plain_nil
      rwa [append_nil] at h1
    have h2 : Acts {} (s'.k, s'.w.refs.map .ref) (k1, s'.w.refs.map .ref) :=
      portPushOwned_refused hplain hq hpush hrc
    have hv : SameHolders s'.k
        (portPushOwned env.kmsgOk s'.k r.port s'.w.data s'.w.refs s'.w.bufs).2 :=
      sameHolders_portPushOwned
    rw [hpush] at hv
    refine ⟨fun _ => refused_iff hl ht hc (h2.counted (walk ht) (frees_refs _)) hv.procv
      (portPushOwned_core hpush hrc), fun e => ?_⟩
    cases rc' <;> first | exact absurd rfl hrc | cases e

/-- The tables `{ {__right = h}, print }`: a right, and something that does not travel. -/
def rightThenFunction (h : LuaInteger) : LuaHeap where
  tables
    | 0 => [(.int 1, .table 1), (.int 2, .other)]
    | 1 => [(.str rightKey, .int h)]
    | _ => []
  nodup
    | 0 => by
      show [LVal.int 1, LVal.int 2].Nodup
      decide
    | 1 => nodup_cons.mpr ⟨not_mem_nil, nodup_nil⟩
    | _ + 2 => nodup_nil
  keys
    | 0 => by
      show ∀ e ∈ [(LVal.int 1, LVal.table 1), (LVal.int 2, LVal.other)], e.1.isKey = true
      decide
    | 1 => fun e he => by
      rw [mem_singleton.mp he]
      rfl
    | _ + 2 => nofun
  vals
    | 0 => by
      show ∀ e ∈ [(LVal.int 1, LVal.table 1), (LVal.int 2, LVal.other)], e.2 ≠ LVal.nil
      decide
    | 1 => fun e he => by
      rw [mem_singleton.mp he]
      nofun
    | _ + 2 => nofun

def sendFunction (k : Kernel) (h : LuaInteger) : Option (Sent × Nat) × Kernel :=
  portSendFromLua (Sample.sendEnv 0 (rightThenFunction h)) k ⟨1, 2⟩ (.table 0)

/-- Somebody receives from every port that is not dead. -/
def noIdle (k : Kernel) : Bool := k.portv.all fun o => o.all fun q => q.nrecv != 0 || q.dead

theorem not_idle_of_noIdle (h : noIdle k = true) (p : PortRef) : ¬k.Idle p := by
  rintro ⟨q, hq, hn, hd⟩
  have h1 := portAt_eq_some.mp (portOf_eq_some.mp hq).1
  have h2 := all_eq_true.mp h _ (mem_of_getElem? h1)
  simp [hn, hd] at h2

/-- A proc with its self port in slot 0 of `procv` and 1 of `portv`. -/
def secondPort : List Op :=
  [.devicePort Sample.params true, .spawnInit Sample.newEnv, .grant true 0 ⟨0, 1⟩ true]

theorem sendFunction_restored : ∃ k n k', runOps anyOp .boot secondPort = some k ∧
      sendFunction k 0 = (some (.unserializable, n), k') ∧ Restored k k' := by
  obtain ⟨k, hk, hr, hp⟩ := Run.of_ops (l := secondPort) anyOp_true (P := fun k => noIdle k &&
    decide (k.rightGet 0 0 = some ⟨⟨1, 2⟩, true, true⟩) &&
    decide ((sendFunction k 0).1 = some (.unserializable, 0))) (by decide +kernel)
  simp only [Bool.and_eq_true, decide_eq_true_eq] at hp
  obtain ⟨⟨hidle, hright⟩, hsend⟩ := hp
  have hs : portSendFromLua (Sample.sendEnv 0 (rightThenFunction 0)) k ⟨1, 2⟩ (.table 0) =
      (some (.unserializable, 0), (sendFunction k 0).2) := Prod.ext hsend rfl
  have hright : k.rightGet (Sample.sendEnv 0 (rightThenFunction 0)).proc 0 =
      some ⟨⟨1, 2⟩, true, true⟩ := hright
  have hmain := portSendFromLua_refused_iff hr hright hs
  refine ⟨k, 0, _, hk, hs, (hmain.1 nofun).mpr ?_⟩
  rintro ⟨pre, post, u, -, -, r, -, hi⟩
  exact not_idle_of_noIdle hidle r.port hi

/-- A port of the kernel's own, granted as a send right. -/
def capabilityPort : List Op :=
  [.devicePort Sample.params true, .spawnInit Sample.newEnv, .grant true 0 ⟨0, 1⟩ false]

/-- The refused send marks the port dead. -/
theorem sendFunction_kills :
    ∃ k n k', runOps anyOp .boot capabilityPort = some k ∧ Run (fun _ _ => True) k ∧
      sendFunction k 1 = (some (.unserializable, n), k') ∧ ¬Restored k k' := by
  obtain ⟨k, hk, hr, hp⟩ := Run.of_ops (l := capabilityPort) anyOp_true (P := fun k =>
    decide ((sendFunction k 1).1 = some (.unserializable, 0)) &&
    (k.portAt 0).any (fun q => !q.dead) && ((sendFunction k 1).2.portAt 0).any (·.dead))
    (by decide +kernel)
  simp only [Bool.and_eq_true, decide_eq_true_eq, Option.any_eq_true] at hp
  obtain ⟨⟨hsend, q, hq, hd⟩, q', hq', hd'⟩ := hp
  refine ⟨k, 0, (sendFunction k 1).2, hk, hr, Prod.ext hsend rfl, fun hres => ?_⟩
  have h1 := hres.ports 0
  rw [hq, hq', Option.map_some, Option.map_some, Option.some.injEq] at h1
  have h2 : q'.dead = q.dead := congrArg PortCore.dead h1
  rw [hd'] at h2
  rw [← h2] at hd
  cases hd

end Nlos
