import Nlos.Smp.Steps

/-!
# The run queues

Each of the two sets of `schedq` keeps, beside its buckets, a mask and a count, and each proc keeps
the set it is linked on and the priority that says which bucket. `Queued` says that they agree, and
every step keeps it; what it needs of the steps is that `proc_new` wipes no record that is still
linked.

A proc that is ready is on a queue or in some cpu's hands, with one exception: `release_claim`
queues no proc that a kill was left on. It makes the call itself, a moment later, with nothing held.
-/

namespace Nlos.Smp

open Machine List

/-! ## Queues and records agree -/

/-- The record of `i` has it linked on bucket `k` of the set `b`. -/
def Machine.Says (s : Machine) (b : Bool) (k i : Nat) : Prop :=
  ∃ r, s.procs[i]? = some r ∧ r.onq = some b ∧ rqBucket r.pri = k

/-- The buckets hold the procs whose records say so, each once. -/
structure Queued (s : Machine) : Prop where
  wf : ∀ b, (s.set b).WF
  nodup : ∀ b k, ((s.set b).q k).Nodup
  mem : ∀ b k i, i ∈ (s.set b).q k ↔ s.Says b k i

theorem rqBucket_lt (pri : Int) : rqBucket pri < nrq := by
  have h : (min (max pri 0) topPri).toNat ≤ topPri := by omega
  refine Nat.div_lt_of_lt_mul ?_
  calc (min (max pri 0) topPri).toNat * (nrq - 1) ≤ topPri * (nrq - 1) := Nat.mul_le_mul_right _ h
    _ < topPri * nrq := by decide

namespace Queued

variable {s s' : Machine} {i : Nat} {r r' : Rec}

theorem congr (h : Queued s) (hs : s'.set = s.set)
    (hp : ∀ j b k, s'.Says b k j ↔ s.Says b k j) : Queued s' := by
  refine ⟨?_, ?_, ?_⟩
  · rw [hs]
    exact h.wf
  · rw [hs]
    exact h.nodup
  · intro b k j
    rw [hs, hp]
    exact h.mem b k j

theorem same (h : Queued s) (hs : s'.set = s.set) (hp : s'.procs = s.procs) : Queued s' :=
  h.congr hs fun _ _ _ => by rw [Says, hp, Says]

theorem slot_link (hr : s.procs[i]? = some r) (b : Bool) (k : Nat) :
    s.Says b k i ↔ r.onq = some b ∧ rqBucket r.pri = k := by
  constructor
  · rintro ⟨r1, h1, h2⟩
    rw [hr] at h1
    cases h1
    exact h2
  · exact fun h => ⟨r, hr, h⟩

/-- The links of the other slots, where one record was rewritten. -/
theorem other_link {j : Nat} (hj : j ≠ i) (hp : s'.procs = s.procs.set i r') (b : Bool) (k : Nat) :
    s'.Says b k j ↔ s.Says b k j := by
  rw [Says, hp, List.getElem?_set_ne (Ne.symm hj), Says]

variable (h : Queued s)

include h

section

variable (hr : s.procs[i]? = some r)

include hr

/-- A record that says the same of the queues is written. -/
theorem put (r' : Rec) (ho : r'.onq = r.onq)
    (hp : r.onq ≠ none → r'.pri = r.pri) : Queued (s.put i r') := by
  refine h.congr rfl fun j b k => ?_
  by_cases hj : j = i
  · subst hj
    rw [slot_link (put_slot hr r'), slot_link hr, ho]
    refine and_congr_right fun hb => ?_
    rw [hp (by rw [hb]; simp)]
  · exact other_link hj rfl b k

/-- One bucket of a set is rewritten, and with it what the record of one proc says. -/
theorem relinked {b : Bool} {l : List Nat}
    (hp : s'.procs = s.procs.set i r') (hpri : r'.pri = r.pri)
    (hon : ∀ x, r.onq = some x ∨ r'.onq = some x → x = b) (hwf : ∀ x, (s'.set x).WF) (hl : l.Nodup)
    (hq : ∀ x k, (s'.set x).q k = if x = b ∧ k = rqBucket r.pri then l else (s.set x).q k)
    (hi : i ∈ l ↔ r'.onq = some b) (hj : ∀ j ≠ i, (j ∈ l ↔ j ∈ (s.set b).q (rqBucket r.pri))) :
    Queued s' := by
  have hrec : s'.procs[i]? = some r' := hp ▸ Tally.set_slot hr
  refine ⟨hwf, fun x k => ?_, fun x k j => ?_⟩
  · rw [hq]
    split
    · exact hl
    · exact h.nodup x k
  · rw [hq]
    by_cases e : j = i
    · subst e
      rw [slot_link hrec, hpri]
      split
      next hx => simp [hi, hx]
      next hx =>
      -- it was linked in that one bucket, if at all, and is
      rw [h.mem, slot_link hr]
      exact iff_of_false (fun ho => hx ⟨hon x (.inl ho.1), ho.2.symm⟩) fun ho =>
        hx ⟨hon x (.inr ho.1), ho.2.symm⟩
    · rw [other_link e hp, ← h.mem]
      split
      next hx => rw [hx.1, hx.2, hj j e]
      · rfl

theorem rqAdd (ho : r.onq = none) (b : Bool) : Queued (s.rqAdd b i) := by
  have hnot : i ∉ (s.set b).q (rqBucket r.pri) := fun hi => by
    rw [h.mem, slot_link hr, ho] at hi
    cases hi.1
  have hset : ∀ x, (s.rqAdd b i).set x = if x = b then (s.set b).add (rqBucket r.pri) i
      else s.set x := by
    intro x
    rw [rqAdd_eq hr]
  refine h.relinked (b := b) (l := (s.set b).q (rqBucket r.pri) ++ [i]) hr
    (congrArg procs (rqAdd_eq hr b)) rfl ?_ ?_ ?_ ?_
    (by simp) fun j hj => by simp [hj]
  · simp [ho, eq_comm]
  · intro x
    rw [hset]
    split
    · exact (h.wf b).add (Nat.lt_trans (rqBucket_lt r.pri) (by decide)) i
    · exact h.wf x
  · exact (h.nodup b _).append (nodup_singleton i) (by simpa using hnot)
  · intro x k
    rw [hset]
    by_cases hx : x = b
    · simp [hx, BucketQueue.add]
    · simp [hx]

theorem rqDel : Queued (s.rqDel i) := by
  match ho : r.onq with
  | none =>
    simp only [Machine.rqDel, hr, ho]
    exact h
  | some b =>
    have hin : i ∈ (s.set b).q (rqBucket r.pri) := (h.mem b _ i).mpr ⟨r, hr, ho, rfl⟩
    have hset : ∀ x, (s.rqDel i).set x = if x = b then (s.set b).del (rqBucket r.pri) i
        else s.set x := by
      intro x
      simp only [Machine.rqDel, hr, ho]
    refine h.relinked hr (rqDel_procs hr) rfl ?_ ?_
      ((h.nodup b _).erase i) ?_ ?_ fun j hj => mem_erase_of_ne hj
    · simp [ho, eq_comm]
    · intro x
      rw [hset]
      split
      · exact (h.wf b).del hin
      · exact h.wf x
    · intro x k
      rw [hset]
      by_cases hx : x = b
      · simp [hx, BucketQueue.del]
      · simp [hx]
    · simp [(h.nodup b _).not_mem_erase]

/-- A proc taken off its queue has its record written. -/
theorem off (ho : r'.onq = none) : Queued ((s.rqDel i).put i r') := by
  exact (h.rqDel hr).put (rqDel_slot hr) r' ho (absurd rfl)

theorem letGo (r' : Rec) (ho : r'.onq = r.onq) (hp : r'.pri = r.pri) : Queued (s.letGo i r') := by
  have hq : Queued (s.put i r') := h.put hr r' ho fun _ => hp
  unfold Machine.letGo
  split
  next hc => exact hq.rqAdd (put_slot hr r') hc.2 _
  · exact hq

theorem releaseClaim (me : Nat) : Queued (s.releaseClaim me i r) := by
  unfold Machine.releaseClaim
  split
  · exact (h.put hr r.released rfl fun _ => rfl).same rfl rfl
  · exact (h.letGo hr r.released rfl rfl).same rfl rfl

theorem makeReady (hu : r.onq ≠ none → r.oncpu = 0) (pri : Int) : Queued (s.makeReady i r pri) := by
  unfold Machine.makeReady
  split
  · exact h
  split
  · exact h.put hr _ rfl fun _ => rfl
  split
  next hc => exact h.put hr _ rfl fun ho => absurd (hu ho) hc
  · exact (h.off hr rfl).rqAdd (rqDel_put_slot hr _) rfl _

theorem procKill (me : Nat) : Queued (s.procKill me i r) := by
  unfold Machine.procKill
  split
  · exact h
  split
  · exact h.put hr _ rfl fun _ => rfl
  · exact (h.off hr rfl).same rfl rfl

end

theorem procBreakTest (me : Nat) : Queued (s.procBreakTest me i r) := by
  unfold Machine.procBreakTest
  split
  · exact h
  · exact h.same rfl rfl

theorem procBreak (hr : s.procs[i]? = some r) (me : Nat) : Queued (s.procBreak me i r) := by
  unfold Machine.procBreak
  split
  · exact h.put hr _ rfl fun _ => rfl
  · exact (h.off hr rfl).same rfl rfl

theorem procReap (hr : s.procs[i]? = some r) (me : Nat) : Queued (s.procReap me i r) := by
  unfold Machine.procReap
  split
  · exact h
  split
  · exact h.put hr _ rfl fun _ => rfl
  · exact (h.put hr { r with reaping := true } rfl fun _ => rfl).same rfl rfl

theorem turn (t : Task) (new : List Task) : Queued (s.turn t new) := h.same rfl rfl

theorem start (hr : s.procs[i]? = some r) (me : Nat) (what : Call) :
    Queued (what.start me i s r) := by
  cases what with
  | kill => exact h.procKill hr me
  | «break» => exact h.procBreakTest me
  | reap => exact h.procReap hr me

/-- A slot that is on no queue is wiped, or made. -/
theorem wipe (hu : ∀ r, s.procs[i]? = some r → r.onq = none) (hi : i ≤ s.procs.length)
    (r' : Rec) (ho : r'.onq = none) : Queued (s.wipe i r') := by
  refine h.congr rfl fun j b k => ?_
  unfold Says
  rw [wipe_slots hi]
  split
  next hj =>
    subst hj
    refine iff_of_false ?_ ?_
    · rintro ⟨x, hx, hb, -⟩
      cases hx
      rw [ho] at hb
      cases hb
    · rintro ⟨x, hx, hb, -⟩
      rw [hu x hx] at hb
      cases hb
  · rfl

end Queued

/-! ## Where a ready proc is -/

/-- The call `release_claim` owes a proc it did not queue, before it has marked the proc. -/
def Task.ends (i : Nat) : Task → Bool
  | .call _ .kill j | .call _ .break j | .breaking _ j => j == i
  | _ => false

/-- A proc on a queue is in nobody's hands, and a ready one is on a queue, in hand or about to be
killed. -/
structure Placed (s : Machine) : Prop where
  unheld : ∀ (i : Nat) (r : Rec), s.procs[i]? = some r → r.onq ≠ none → r.oncpu = 0
  ready : ∀ (i : Nat) (r : Rec), s.procs[i]? = some r → r.status = .ready →
    r.onq ≠ none ∨ r.oncpu ≠ 0 ∨ ∃ t ∈ s.tasks, t.ends i = true

def Act.detaches : Act → Option Nat
  | .killDetach _ i | .breakDetach _ i => some i
  | _ => none

/-- `proc_unqueue` is called where the proc is dying, as it is meant to be, and `proc_new` takes no
slot whose record is still linked. -/
structure Tidy (s : Machine) (a : Act) : Prop where
  dying : ∀ (i : Nat) (r : Rec), a.detaches = some i → s.procs[i]? = some r → r.gone = true
  unlinked : ∀ (maxProcs : Nat) (ok : Bool) (r : Rec), a = .procNew maxProcs ok →
    s.procs[s.freeSlot]? = some r → r.onq = none

section Step

variable {s s' : Machine} {a : Act} {i : Nat} {r : Rec}

theorem Queued.first (h : Queued s) {high : Bool} (hf : s.rqFirst high = some i)
    (hr : s.procs[i]? = some r) : r.onq = some s.runq := by
  obtain ⟨k, -, hk⟩ := BucketQueue.first_some hf
  obtain ⟨x, hx, ho, -⟩ := (h.mem _ k i).mp (mem_of_head? hk)
  rw [hr] at hx
  cases hx
  exact ho

theorem Queued.run (h : Queued s) (hp : Placed s) (ht : Tidy s a) (ha : a.run s = some s') :
    Queued s' := by
  unfold Act.run at ha
  cases a with
  | procNew maxProcs ok =>
    obtain ⟨-, ha⟩ := Option.ite_none_right_eq_some.mp ha
    cases ha
    have hw :=
      h.wipe (ht.unlinked maxProcs ok · rfl) (freeSlot_le s) (Rec.born ok) (by cases ok <;> rfl)
    exact hw.same (by cases ok <;> rfl) (procNew_procs s ok)
  | swap =>
    obtain ⟨-, ha⟩ := Option.ite_none_right_eq_some.mp ha
    cases ha
    exact h.same rfl rfl
  | setAside high =>
    obtain ⟨i, r, hq, hr, -, rfl⟩ := taken_some ha
    exact (h.rqDel hr).rqAdd (rqDel_slot hr) rfl _
  | dispatch me high =>
    obtain ⟨i, r, hq, hr, -, rfl⟩ := taken_some ha
    exact h.off hr rfl
  | launch i pri | wakeReady i pri =>
    obtain ⟨r, hr, -, -, rfl⟩ := goOn_some ha
    exact (h.turn _ _).makeReady hr (hp.unheld i r hr) pri
  | spawnFailed me i =>
    obtain ⟨r, hr, -, -, rfl⟩ := goOn_some ha
    exact (h.turn _ _).procKill hr me
  | answer me what i =>
    obtain ⟨r, hr, -, -, rfl⟩ := goOn_some ha
    exact (h.turn _ _).start hr me what
  | killDetach me i | breakDetach me i =>
    obtain ⟨r, hr, -, -, rfl⟩ := goOn_some ha
    exact ((h.turn _ _).off hr rfl).same rfl rfl
  | killClose me i | killEnd me i | reapClose me i | reapEnd me i =>
    obtain ⟨r, hr, -, -, rfl⟩ := goOn_some ha
    exact (h.turn _ _).put hr _ rfl fun _ => rfl
  | breakMark me i =>
    obtain ⟨r, hr, -, -, rfl⟩ := goOn_some ha
    exact (h.turn _ _).procBreak hr me
  | block me i =>
    obtain ⟨r, hr, -, rfl⟩ := onRec_some ha
    exact h.off hr rfl
  | release me i =>
    obtain ⟨r, hr, -, rfl⟩ := onRec_some ha
    exact h.releaseClaim hr me
  | letGo hd me i =>
    obtain ⟨r, hr, -, rfl⟩ := onRec_some ha
    exact h.letGo hr _ rfl rfl
  | kill me i =>
    obtain ⟨r, hr, -, rfl⟩ := onRec_some ha
    exact h.procKill hr me
  | breakTest me i =>
    obtain ⟨r, hr, -, rfl⟩ := onRec_some ha
    exact h.procBreakTest me
  | reap me i =>
    obtain ⟨r, hr, -, rfl⟩ := onRec_some ha
    exact h.procReap hr me
  | wakeTest i =>
    obtain ⟨r, hr, -, rfl⟩ := onRec_some ha
    exact (h.put hr { r with woken := true } rfl fun _ => rfl).same rfl rfl
  | waitReap me i | claimParked hd me i | freeze i | thaw i | askStop i =>
    obtain ⟨r, hr, -, rfl⟩ := onRec_some ha
    exact h.put hr _ rfl fun _ => rfl

variable {r' : Rec} {old new : List Task} {d : Int}

theorem Change.unheld (hc : Change s a i r r' old new d) (hq : Queued s) (hr : s.procs[i]? = some r)
    (h : r.onq ≠ none → r.oncpu = 0) : r'.onq ≠ none → r'.oncpu = 0 := by
  cases hc with
  | readyQueued _ _ hc => exact fun _ => hc
  | killed | killDetached | broken | breakDetached | dispatched | blocked =>
    exact fun hn => absurd rfl hn
  | asideSet hf =>
    have ho : r.onq ≠ none := by
      rw [hq.first hf hr]
      nofun
    exact fun _ => h ho
  | released =>
    intro _
    split <;> rfl
  | parkedClaimed _ _ hn => exact absurd hn
  | goneLetGo => exact fun _ => rfl
  | _ => exact h

/-- What is left to end a proc stays, where the step ends something else. -/
theorem ends_kept (h : ∃ t ∈ s.tasks, t.ends i = true) (ho : ∀ t ∈ old, t.ends i = false) :
    ∃ t ∈ new ++ s.tasks.diff old, t.ends i = true := by
  obtain ⟨t, ht, he⟩ := h
  refine ⟨t, mem_append.mpr (.inr (mem_diff_of_mem ht ?_)), he⟩
  intro hm
  rw [ho t hm] at he
  cases he

variable {t : Task}

theorem ends_slot (h : t.ends i = true) : t.slot = i := by
  unfold Task.ends at h
  split at h
  · exact beq_iff_eq.mp h
  · exact beq_iff_eq.mp h
  · exact beq_iff_eq.mp h
  · cases h

theorem Readies.ends {pri : Int} (h : Readies a i pri t) : ∀ u ∈ [t], u.ends i = false := by
  intro u hu
  rw [mem_singleton.mp hu]
  cases h <;> rfl

theorem Reaps.ends {me : Nat} (h : Reaps a me i old) : ∀ t ∈ old, t.ends i = false := by
  cases h with
  | reap => nofun
  | answer =>
    intro t ht
    rw [mem_singleton.mp ht]
    rfl

theorem not_ready_of_gone (h : r.gone = true) : r.status ≠ .ready := by
  intro hs
  rw [Rec.gone, hs] at h
  cases h

/-- A record let go is not left ready and off the queues. -/
theorem putBack_ready {b : Bool} (x : Rec) :
    (x.putBack b).status = .ready → (x.putBack b).onq ≠ none := by
  intro hs
  unfold Rec.putBack at hs ⊢
  by_cases ho : x.onq = none
  · rw [if_pos ⟨hs, ho⟩]
    nofun
  · rw [if_neg fun h => ho h.2]
    exact ho

theorem Change.ready (hc : Change s a i r r' old new d) (ht : Tidy s a) (hr : s.procs[i]? = some r)
    (h : r.status = .ready → r.onq ≠ none ∨ r.oncpu ≠ 0 ∨ ∃ t ∈ s.tasks, t.ends i = true) :
    r'.status = .ready → r'.onq ≠ none ∨ r'.oncpu ≠ 0 ∨ ∃ t ∈ new ++ s.tasks.diff old,
      t.ends i = true := by
  have hkeep (ho : ∀ t ∈ old, t.ends i = false) (hs : r.status = .ready) :
      r.onq ≠ none ∨ r.oncpu ≠ 0 ∨ ∃ t ∈ new ++ s.tasks.diff old, t.ends i = true :=
    (h hs).imp_right (Or.imp_right (ends_kept · ho))
  cases hc with
  | readyRefused ha | reapRefused ha | reapLeft ha | reaped ha => exact hkeep ha.ends
  | readyStopped | killed | broken | killEnded | reapEnded | blocked => nofun
  | readyHeld _ _ hc => exact fun _ => .inr (.inl hc)
  | readyQueued | asideSet => exact fun _ => .inl nofun
  | killRefused _ hg | breakRefused _ hg => exact fun hs => absurd hs (not_ready_of_gone hg)
  | killLeft _ _ he | breakLeft he => exact fun _ => .inr (.inl (elsewhere_oncpu he))
  | breakTested =>
    refine fun _ => .inr (.inr ⟨_, mem_append.mpr (.inl (mem_singleton.mpr rfl)), ?_⟩)
    exact beq_self_eq_true i
  | killDetached | breakDetached =>
    exact fun hs => absurd hs (not_ready_of_gone (ht.dying i r rfl hr))
  | dispatched | parkedClaimed => exact fun _ => .inr (.inl (Nat.succ_ne_zero _))
  | @released me =>
    intro hs
    by_cases hk : r.killreq = true
    · -- not queued, but the kill that was left is called for
      refine .inr (.inr ⟨_, mem_append.mpr (.inl (kill_mem_leftCalls me i hk)), ?_⟩)
      cases r.killfree <;> exact beq_self_eq_true i
    · rw [if_neg hk] at hs ⊢
      exact .inl (putBack_ready _ hs)
  | goneLetGo => exact fun hs => .inl (putBack_ready _ hs)
  | _ => exact hkeep (by simp [Task.ends])

theorem Placed.run (h : Placed s) (hq : Queued s) (ht : Tidy s a) (ha : a.run s = some s') :
    Placed s' := by
  cases run_moved ha with
  | swapped _ hs =>
    subst hs
    exact ⟨h.unheld, h.ready⟩
  | @born _ ok _ _ hs =>
    subst hs
    constructor
    · intro j x hx
      obtain ⟨-, rfl⟩ | ⟨-, hx⟩ := slot_born hx
      · intro _
        cases ok <;> rfl
      · exact h.unheld j x hx
    · intro j x hx hs
      obtain ⟨-, rfl⟩ | ⟨-, hx⟩ := slot_born hx
      · cases ok <;> cases hs
      · refine (h.ready j x hx hs).imp_right (Or.imp_right ?_)
        exact fun ⟨t, hm, he⟩ => ⟨t, mem_tasks_born _ hm, he⟩
  | turned hr hc _ hp htk =>
    constructor
    · intro j x hx
      obtain ⟨rfl, rfl⟩ | ⟨-, hx⟩ := slot_turned hr hp hx
      · exact hc.unheld hq hr (h.unheld _ _ hr)
      · exact h.unheld j x hx
    · intro j x hx hs
      rw [htk]
      obtain ⟨rfl, rfl⟩ | ⟨hj, hx⟩ := slot_turned hr hp hx
      · exact hc.ready ht hr (h.ready _ _ hr) hs
      · refine (h.ready j x hx hs).imp_right (Or.imp_right (ends_kept · ?_))
        intro t hm
        refine Bool.eq_false_iff.mpr fun he => hj ?_
        rw [← ends_slot he, hc.slots.1 t hm]

end Step

/-! ## Every run -/

/-- What a set counts and masks is what is in it, a proc is linked once, where its record and its
priority say, and never while it is in hand. -/
structure RunQueuesKept (s : Machine) : Prop where
  count : ∀ b, (s.set b).n = ∑ k ∈ Finset.range nrq, (((s.set b).q k).length : Int)
  mask : ∀ b k, k < nrq → ((s.set b).mask.getLsbD k = true ↔ (s.set b).q k ≠ [])
  bounded : ∀ b k, nrq ≤ k → (s.set b).q k = []
  once : ∀ b k, ((s.set b).q k).Nodup
  one : ∀ b b' k k' i, i ∈ (s.set b).q k → i ∈ (s.set b').q k' → b = b' ∧ k = k'
  onq : ∀ (i : Nat) (r : Rec) (b : Bool), s.procs[i]? = some r →
    (r.onq = some b ↔ ∃ k, i ∈ (s.set b).q k)
  bucket : ∀ (i : Nat) (r : Rec) (b : Bool) (k : Nat),
    s.procs[i]? = some r → i ∈ (s.set b).q k → k = rqBucket r.pri

theorem Queued.kept {s : Machine} (h : Queued s) : RunQueuesKept s := by
  have hout : ∀ b k, nrq ≤ k → (s.set b).q k = [] := by
    intro b k hk
    refine eq_nil_iff_forall_not_mem.mpr fun i hi => ?_
    obtain ⟨r, -, -, rfl⟩ := (h.mem b k i).mp hi
    exact absurd (rqBucket_lt r.pri) (Nat.not_lt.mpr hk)
  refine ⟨fun b => ?_, fun b k hk => ?_, hout, h.nodup, ?_, ?_, ?_⟩
  · rw [(h.wf b).count]
    refine (Finset.sum_subset (Finset.range_mono (by decide)) fun k _ hk => ?_).symm
    rw [hout b k (Nat.not_lt.mp fun hl => hk (Finset.mem_range.mpr hl))]
    rfl
  · exact (h.wf b).mask k (Nat.lt_trans hk (by decide))
  · intro b b' k k' i hi hi'
    obtain ⟨r, hr, hb, hk⟩ := (h.mem b k i).mp hi
    rw [h.mem, Queued.slot_link hr, hb] at hi'
    exact ⟨Option.some.inj hi'.1, hk.symm.trans hi'.2⟩
  · intro i r b hr
    constructor
    · exact fun hb => ⟨_, (h.mem b _ i).mpr ⟨r, hr, hb, rfl⟩⟩
    · rintro ⟨k, hk⟩
      exact ((Queued.slot_link hr b k).mp ((h.mem b k i).mp hk)).1
  · intro i r b k hr hk
    exact ((Queued.slot_link hr b k).mp ((h.mem b k i).mp hk)).2.symm

theorem queued_boot : Queued .boot where
  wf _ := BucketQueue.wf_empty
  nodup _ _ := nodup_nil
  mem b k i := by
    refine iff_of_false (by simp [boot, BucketQueue.empty]) ?_
    rintro ⟨r, hr, -⟩
    cases hr

theorem placed_boot : Placed .boot := by
  constructor
  all_goals
    intro i r hr
    cases hr

/-- Every tidy run keeps the queues, and a ready proc on a queue, in hand or about to be killed. -/
theorem run_queued {s : Machine} (h : Run Tidy s) : Queued s ∧ Placed s := by
  refine h.invariant (I := fun s => Queued s ∧ Placed s) ⟨queued_boot, placed_boot⟩ ?_
  intro s s' a _ hi ht ha
  exact ⟨hi.1.run hi.2 ht ha, hi.2.run hi.1 ht ha⟩

/-- In every tidy run the queues are as they should be, and every ready proc is linked, or a cpu
holds it, or the cpu that let it go is on its way to kill it and has called `proc_kill` or
`proc_break`. -/
theorem run_queues_kept {s : Machine} (h : Run Tidy s) : RunQueuesKept s ∧
    ∀ (i : Nat) (r : Rec), s.procs[i]? = some r → r.status = .ready →
      (r.onq ≠ none ∧ r.oncpu = 0) ∨ r.oncpu ≠ 0 ∨
        ∃ me, .call me .kill i ∈ s.tasks ∨ .call me .break i ∈ s.tasks ∨
        .breaking me i ∈ s.tasks := by
  obtain ⟨hq, hp⟩ := run_queued h
  refine ⟨hq.kept, fun i r hr hs => ?_⟩
  obtain ho | hc | ⟨t, ht, he⟩ := hp.ready i r hr hs
  · exact .inl ⟨ho, hp.unheld i r hr ho⟩
  · exact .inr (.inl hc)
  · have hi := ends_slot he
    refine .inr (.inr ?_)
    match t, he with
    | .call me .kill j, _ =>
      cases hi
      exact ⟨me, .inl ht⟩
    | .call me .break j, _ =>
      cases hi
      exact ⟨me, .inr (.inl ht)⟩
    | .breaking me j, _ =>
      cases hi
      exact ⟨me, .inr (.inr ht)⟩

def tidy (s : Machine) (a : Act) : Bool :=
  match a with
  | .killDetach _ i | .breakDetach _ i => (s.procs[i]?).all Rec.gone
  | .procNew _ _ => (s.procs[s.freeSlot]?).all fun (r : Rec) => r.onq.isNone
  | _ => true

theorem tidy_tidy (s : Machine) (a : Act) (h : tidy s a = true) : Tidy s a := by
  constructor
  · intro i r hd hr
    unfold Act.detaches at hd
    unfold tidy at h
    split at hd
    · cases hd
      simpa [hr] using h
    · cases hd
      simpa [hr] using h
    · cases hd
  · rintro maxProcs ok r rfl hr
    simpa [tidy, hr] using h

/-- A proc is born, launched and taken, another cpu kills it, and the cpu that has it lets it go. -/
def leftReady : List Act :=
  [.procNew 8 true, .launch 0 50, .dispatch 0 true, .kill 1 0, .release 0 0]

/-- The proc is ready, on no queue and in nobody's hands. -/
theorem leftReady_unplaced :
    ∃ s, Run Tidy s ∧ ∃ r, s.procs[0]? = some r ∧ r.status = .ready ∧ r.onq = none ∧
    r.oncpu = 0 := by
  obtain ⟨s, -, hr, hs⟩ := Run.of_acts (l := leftReady) tidy_tidy
    (P := fun s => (s.procs[0]?).any fun (r : Rec) =>
      decide (r.status = .ready) && r.onq.isNone && decide (r.oncpu = 0)) (by decide +kernel)
  simp only [Option.any_eq_true, Bool.and_eq_true, decide_eq_true_eq, Option.isNone_iff_eq_none]
    at hs
  obtain ⟨r, h0, ⟨h1, h2⟩, h3⟩ := hs
  exact ⟨s, hr, r, h0, h1, h2, h3⟩

/-- Two procs are born and launched, one of them taken, parked, woken while in hand and let go. -/
def twoQueued : List Act :=
  [.procNew 8 true, .procNew 8 true, .launch 0 50, .launch 1 160, .dispatch 0 true, .block 0 1, .wakeTest 1,
    .wakeReady 1 90, .release 0 1]

/-- They stand on the two sets, one each, in different buckets. -/
theorem twoQueued_kept :
    ∃ s, Run Tidy s ∧ 0 ∈ (s.set s.runq).q 4 ∧ 1 ∈ (s.set (!s.runq)).q 8 ∧ RunQueuesKept s := by
  obtain ⟨s, -, hr, hs⟩ := Run.of_acts (l := twoQueued) tidy_tidy
    (P := fun s => decide (0 ∈ (s.set s.runq).q 4) && decide (1 ∈ (s.set (!s.runq)).q 8))
      (by decide +kernel)
  simp only [Bool.and_eq_true, decide_eq_true_eq] at hs
  exact ⟨s, hr, hs.1, hs.2, (run_queues_kept hr).1⟩

end Nlos.Smp
