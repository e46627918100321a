import Nlos.Kernel.Machine

/-!
# Room for a message

`port_push_owned`, `sys.sendblock` and `sys.alt` ask the same question of a queue, and answer it the
same way as long as the sum they compare does not wrap around `size_t`. They differ in what they
make of a message that fits no queue: `sys.sendblock` comes back and lets the send report it, and
`sys.alt` goes to sleep, for a wake that helps nobody.
-/

namespace Nlos

open Kernel

variable {k k' : Kernel} {env : RecvEnv} {wake : Bool} {ok : Nat → Bool} {n i : Nat}
    {cases : List AltCase}

/-! ## Full queues -/

namespace Kernel

variable {p : PortRef} {q q' : KPort} {l : Label} {c d : Config} {S : Scope} {w w' : List Work}

/-- No queue holds more than `MAXQUEUE` bytes. -/
def Bounded (k : Kernel) : Prop := ∀ j q, k.portAt j = some q → q.qbytes ≤ maxQueue

theorem Bounded.congr (hb : k.Bounded) (hp : k'.portv = k.portv) : k'.Bounded := by
  intro j q hq
  refine hb j q ?_
  unfold portAt at hq ⊢
  rwa [hp] at hq

theorem Bounded.writes (hb : k.Bounded) (hq : k.portOf p = some q) (hw : Writes k p (some q') k')
    (hle : q'.qbytes ≤ maxQueue) : k'.Bounded := by
  intro j q1 hj
  by_cases hpj : p.idx = j
  · subst hpj
    rw [hw.portAt_same hq] at hj
    cases hj
    exact hle
  · rw [hw.portAt_other hpj] at hj
    exact hb j q1 hj

/-- A write that leaves the queue alone, or empties it. -/
theorem Bounded.quiet (hb : k.Bounded) (hq : k.portOf p = some q) (hw : Writes k p (some q') k')
    (hle : q'.qbytes ≤ q.qbytes) : k'.Bounded :=
  hb.writes hq hw (Nat.le_trans hle (hb _ q (portOf_eq_some.mp hq).1))

theorem Bounded.exec {x : Work} {new : List Work} (hb : k.Bounded) (hx : Exec k x k' new) :
    k'.Bounded := by
  cases hx with
  | gone => exact hb
  | stale | bufs | wake => exact hb.congr rfl
  | @ref r _ _ hq hw =>
    exact hb.quiet (portOf_of_portAt hq rfl) hw (by cases r.recv <;> exact Nat.le_refl _)
  | last hq _ hw | dies hq _ _ _ hw => exact hb.quiet hq hw (Nat.zero_le _)
  | drops hq _ _ hw => exact hb.quiet hq hw (Nat.le_refl _)
  | free => exact fun j q hq => hb j q (portAt_of_freePort hq).1

theorem Bounded.born (hb : k.Bounded) (h : Born k p k') : k'.Bounded := by
  intro j q hj
  by_cases hpj : p.idx = j
  · subst hpj
    rw [h.here] at hj
    cases hj
    exact Nat.zero_le _
  · rw [h.other j hpj] at hj
    exact hb j q hj

theorem Bounded.minted {recv : Bool} {h : Nat} (hb : k.Bounded) (hq : k.portOf p = some q)
    (hm : Minted k i p recv h k') : k'.Bounded := by
  obtain ⟨pr, t, r, -, -, -, -, -, -, rfl⟩ := hm.out
  exact Bounded.quiet (k := k.setProc i (takeSlot pr t h p recv)) (hb.congr rfl) hq
    (writes_modPort hq)
    (Nat.le_refl _)

/-- Only a push adds to a queue, and it looks first. -/
theorem Act.bounded (ha : Act l (k, w) (k', w')) (hc : k.Counted w) (hb : k.Bounded) :
    k'.Bounded := by
  cases ha with
  | work hx => exact hb.exec hx
  | skip _ hk => exact hb.congr hk.portv
  | poke _ hq _ _ _ _ he => exact hb.quiet hq (writes_modPort hq) (Nat.le_of_eq he)
  | grow _ hi =>
    rw [wipeSlot_none hi]
    exact hb.congr rfl
  | mint _ hq hm => exact hb.minted hq hm
  | birth _ hn hm => exact (hb.born hn).minted hn.portOf hm
  | leak _ hn => exact hb.born hn
  | kbirth _ hn =>
    have h1 :=
      (hb.born hn).quiet hn.portOf (writes_modPort (f := addRef false) hn.portOf) (Nat.le_refl _)
    exact h1.congr rfl
  | @drop _ i h pr r _ _ hi hr hu | @shed _ i h pr r _ _ hi hr hu =>
    obtain ⟨q, hq⟩ := hc.slot_live hi hr hu
    unfold vacate
    split
    · exact Bounded.quiet (k := k.setProc i (clearSlot pr h r)) (hb.congr rfl) hq
        (writes_modPort hq)
        (Nat.le_refl _)
    · exact hb.congr rfl
  | take _ hq => exact hb.quiet hq (writes_modPort hq) (Nat.le_refl _)
  | enqueue _ hq hfit => exact (hb.writes hq (writes_modPort hq) hfit).congr rfl
  | dequeue _ hq hm =>
    refine hb.quiet hq (writes_modPort hq) ?_
    rw [dequeue_cons hm]
    exact Nat.sub_le _ _
  | wipe _ hi =>
    rw [wipeSlot_some hi]
    exact hb.congr rfl
  | arm _ hq | hold _ hq =>
    exact (hb.quiet hq (writes_modPort (f := addRef false) hq) (Nat.le_refl _)).congr rfl
  | _ => exact hb.congr rfl

theorem Acts.bounded (hs : Acts S c d) (hc : c.1.Balanced c.2) (hb : c.1.Bounded) : d.1.Bounded :=
  (hs.invariant (P := fun c => c.1.Balanced c.2 ∧ c.1.Bounded)
    (fun _ ha h => ⟨ha.balanced h.1, ha.bounded h.1.counted h.2⟩) ⟨hc, hb⟩).2

end Kernel

theorem Run.bounded {k : Kernel} {ok : Kernel → Op → Prop} (h : Run ok k) : k.Bounded := by
  refine h.invariant (fun j q hq => ?_) fun {k k' op} hr hb _ hs => ?_
  · exact absurd hq (Option.some_ne_none q).symm
  · exact (step_calls plain_nil hr.sane.counted hr.sane.roomy hs).acts.bounded
      (hr.sane.counted.balanced rfl) hb

/-! ## What is slept on -/

/-- A case that can be waited on: its handle names a right that allows it, and there is nothing to
answer. -/
structure AltCase.Waits (env : RecvEnv) (k : Kernel) (c : AltCase) : Prop where
  named : 0 ≤ c.handle.toInt
  right : ∃ r, k.rightGet env.proc c.handle = some r ∧ (c.need.isSome = true ∨ r.recv = true)
  ready : c.ready env.params.sizeT k env.proc = false
  hungup : c.hungup k env.proc = false

/-- No send case asks for more than a queue can hold. -/
def Sized (cases : List AltCase) : Prop := ∀ c ∈ cases, ∀ need, c.need = some need → need ≤ maxQueue

/-- The loop goes to sleep only where it went through every case. -/
theorem waits_of_altPark (hh : ∀ c ∈ cases, c.hungup k env.proc = false)
    (h : altPark env wake ok k n cases = (none, k')) : ∀ c ∈ cases, c.Waits env k := by
  induction cases generalizing k n with
  | nil => nofun
  | cons c cs ih =>
    obtain ⟨hc, hcs⟩ := List.forall_mem_cons.mp hh
    unfold altPark at h
    simp only at h
    split at h
    · cases h
    next hn =>
    split at h
    · cases h
    next r hr =>
    split at h
    · cases h
    next hrecv =>
    split at h
    · split at h <;> cases h
    next hready =>
    have hright : c.need.isSome = true ∨ r.recv = true := by cases hs : c.need.isSome <;> simp_all
    refine List.forall_mem_cons.mpr ⟨⟨by omega, ⟨r, hr, hright⟩, by simpa using hready, hc⟩, ?_⟩
    split at h
    · exact ih hcs h
    split at h
    · cases h
    next s _ =>
    intro c' hm
    -- a wait record changes nothing that a case reads
    exact { ih (k := { k with sch := s }) hcs h c' hm with }

theorem altPark_of_waits (hp : ∃ p, k.sch.procs[env.proc]? = some p)
    (hw : ∀ c ∈ cases, c.Waits env k) :
    ∃ k', altPark env wake (fun _ => true) k n cases = (none, k') := by
  induction cases generalizing k n with
  | nil => exact ⟨_, rfl⟩
  | cons c cs ih =>
    obtain ⟨hc, hcs⟩ := List.forall_mem_cons.mp hw
    obtain ⟨r, hr, hs⟩ := hc.right
    obtain ⟨p, hp⟩ := hp
    have hrecv : (!c.need.isSome && !r.recv) = false := by rcases hs with h | h <;> simp [h]
    unfold altPark
    simp only [hr, hrecv, hc.ready, if_neg (Int.not_lt.mpr hc.named), Bool.false_eq_true, if_false]
    split
    · exact ih ⟨p, hp⟩ hcs
    have ha : k.sch.waitAdd true env.proc r.port c.need.isSome ≠ none := by simp [Sched.waitAdd, hp]
    obtain ⟨s, hs⟩ := Option.ne_none_iff_exists'.mp ha
    obtain ⟨p', _, hp', -, -, -, -, e⟩ := Sched.waitAdd_some hs
    have hget := congrArg (·[env.proc]?) e
    rw [hs]
    exact ih (k := { k with sch := s }) ⟨_, hget.trans (Tally.set_slot hp')⟩
      fun c' hm => { hcs c' hm with }

theorem apiAlt_parks_iff (hz : k.Roomy) (hne : cases ≠ []) :
    (∃ wake ok k', apiAlt env wake ok k cases = (none, k')) ↔ ∀ c ∈ cases, c.Waits env k := by
  constructor
  · rintro ⟨wake, ok, k', h⟩
    have ha := apiAlt_alts env wake ok k cases
    rw [h] at ha
    generalize hx : ((none, k') : Option _ × Kernel) = x at ha
    cases ha with
    | empty | takes | hungup => cases hx
    | parks _ _ _ hh =>
      have hw := waits_of_altPark (k := { k with log := _, sch := k.sch.waitClear env.proc })
        hh hx.symm
      exact fun c hc => { hw c hc with }
  · intro hw
    have hn : ¬AnyReady env k cases := fun ⟨c, hc, hr⟩ =>
      Bool.false_ne_true ((hw c hc).ready.symm.trans hr)
    refine ⟨false, fun _ => true, ?_⟩
    have ha := apiAlt_alts env false (fun _ => true) k cases
    generalize apiAlt env false (fun _ => true) k cases = x at ha ⊢
    cases ha with
    | empty he => exact absurd he hne
    | takes _ hr => exact absurd hr hn
    | hungup _ _ hh => exact absurd (fun c hc => (hw c hc).hungup) hh
    | parks =>
      refine altPark_of_waits ?_ fun c hc => { hw c hc with }
      obtain ⟨c, hc⟩ := List.exists_mem_of_ne_nil cases hne
      obtain ⟨r, hr, -⟩ := (hw c hc).right
      obtain ⟨pr, hpr, -⟩ := (rightGet_some hr).1
      have hlt := (List.getElem?_eq_some_iff.mp hpr).1
      have hsize := (Sched.calms_waitClear k.sch env.proc).size
      exact ⟨_, List.getElem?_eq_getElem (Nat.lt_of_lt_of_le hlt (Nat.le_trans hz hsize))⟩

theorem apiSendblock_sized {P : Params} {waitOk : Bool} {h need : LuaInteger}
    (hs : apiSendblock P waitOk k i h need = (none, k')) : P.sizeT.cast need.toNat ≤ maxQueue := by
  unfold apiSendblock at hs
  simp only at hs
  split at hs
  · cases hs
  split at hs
  · cases hs
  split at hs
  · cases hs
  split at hs
  · cases hs
  next hroom =>
  simp only [Bool.or_eq_true, decide_eq_true_eq, not_or] at hroom
  omega

/-! ## The three answers -/

section Answers

variable {p : PortRef} {q : KPort} {w : Width} {pre post : List AltCase} {c : AltCase}

/-- There is room for `cost` bytes, or nobody to ask for it. -/
def KPort.HasRoom (q : KPort) (cost : Nat) : Prop := q.dead = true ∨ q.qbytes + cost ≤ maxQueue

theorem portPushOwned_ne_full_iff (hq : k.portOf p = some q) (data : List UInt8) (refs : List InRef)
    (bufs : List MsgBuf) : (portPushOwned true k p data refs bufs).1 ≠ .full ↔
      q.HasRoom (data.length + msgbufsBytes bufs) := by
  unfold portPushOwned KPort.HasRoom
  by_cases hroom : q.qbytes + (data.length + msgbufsBytes bufs) ≤ maxQueue
  · cases hd : q.dead <;> simp [hq, hd, hroom, Nat.not_lt.mpr hroom]
  · cases hd : q.dead <;> simp [hq, hd, hroom, Nat.lt_of_not_le hroom]

theorem Width.two_maxQueue_lt (w : Width) : maxQueue + maxQueue < w.size := by cases w <;> decide

/-- Below the end of `size_t` the sum is the sum. -/
theorem takesMore_iff (hb : k.Bounded) (hq : k.portOf p = some q)
    (hn : w.cast n + maxQueue < w.size) : k.takesMore w p n = true ↔ q.HasRoom (w.cast n) := by
  have hle := hb _ q (portOf_eq_some.mp hq).1
  have hsum : w.cast (q.qbytes + w.cast n) = q.qbytes + w.cast n := Nat.mod_eq_of_lt (by omega)
  simp [takesMore, hq, hsum, KPort.HasRoom]

theorem apiSendblock_ok_iff {P : Params} {waitOk : Bool} {h need : LuaInteger} {r : Right}
    (hb : k.Bounded)
    (hpos : 0 ≤ need.toInt) (hr : k.rightGet i h = some r) (hq : k.portOf r.port = some q)
    (hw : k.sch.waitersOf i = []) : (apiSendblock P waitOk k i h need).1 = some (.ok ()) ↔
      maxQueue < P.sizeT.cast need.toNat ∨ q.HasRoom (P.sizeT.cast need.toNat) := by
  have hroom : (decide (P.sizeT.cast need.toNat > maxQueue) ||
      (k.touch r.port).takesMore P.sizeT r.port need.toNat) = true ↔
      maxQueue < P.sizeT.cast need.toNat ∨ q.HasRoom (P.sizeT.cast need.toNat) := by
    rw [Bool.or_eq_true, decide_eq_true_eq]
    by_cases hbig : maxQueue < P.sizeT.cast need.toNat
    · exact iff_of_true (.inl hbig) (.inl hbig)
    · have hfit := P.sizeT.two_maxQueue_lt
      exact or_congr_right (takesMore_iff (k := k.touch r.port) (hb.congr rfl) hq (by omega))
  rw [← hroom]
  unfold apiSendblock
  simp only [if_neg (Int.not_lt.mpr hpos), hr]
  rw [if_neg (by rw [show (k.touch r.port).sch.waitersOf i = [] from hw]; exact Bool.false_ne_true)]
  split
  next hyes => exact iff_of_true rfl hyes
  next hno =>
    refine iff_of_false ?_ hno
    split <;> nofun

theorem altTake_append (hpre : ∀ d ∈ pre, d.ready env.params.sizeT k env.proc = false) :
    altTake env wake k n (pre ++ cases) = altTake env wake k (n + pre.length) cases := by
  induction pre generalizing n with
  | nil => rfl
  | cons d ds ih =>
    obtain ⟨hd, hds⟩ := List.forall_mem_cons.mp hpre
    rw [List.cons_append, altTake, hd, if_neg Bool.false_ne_true, ih hds, List.length_cons,
      Nat.add_right_comm, Nat.add_assoc]

/-- A take answers with the index of a case it was given. -/
theorem altTake_index {m : Nat} {why : AltWhy}
    (h : (altTake env wake k n cases).1 = some (.ok (some (m, why)))) : n ≤ m := by
  induction cases generalizing n with
  | nil => cases h
  | cons c cs ih =>
    unfold altTake at h
    split at h
    · refine Nat.le_of_eq ?_
      unfold altAnswer altTakeAt at h
      repeat' split at h
      all_goals cases h
      all_goals rfl
    · exact Nat.le_of_succ_le (ih h)

/-- The loop that links the wait records answers with no case. -/
theorem altPark_answer {m : Nat} {why : AltWhy} (hn : ¬AnyReady env k cases) :
    (altPark env wake ok k n cases).1 ≠ some (.ok (some (m, why))) := by
  induction cases generalizing k n with
  | nil =>
    intro h
    cases h
  | cons c cs ih =>
    have hn' : ¬AnyReady env k cs := by
      rintro ⟨d, hd, hr⟩
      exact hn ⟨d, List.mem_cons_of_mem c hd, hr⟩
    unfold altPark
    simp only
    split
    · intro h
      cases h
    split
    · intro h
      cases h
    split
    · intro h
      cases h
    split
    next hready => exact absurd ⟨c, List.mem_cons_self, hready⟩ hn
    split
    · exact ih hn'
    split
    · intro h
      cases h
    next s _ => exact ih (k := { k with sch := s }) hn'

def sendWhy (wake : Bool) : AltWhy := if wake then .ready else .send

theorem altTake_send {need : Nat} (hpre : ∀ d ∈ pre, d.ready env.params.sizeT k env.proc = false)
    (hneed : c.need = some need) (hready : c.ready env.params.sizeT k env.proc = true) :
    altTake env wake k 1 (pre ++ c :: post) =
      (some (.ok (some (pre.length + 1, sendWhy wake))), k) := by
  rw [altTake_append hpre, altTake, if_pos hready, altAnswer, hneed, Nat.add_comm]
  cases wake <;> rfl

/-- `sys.alt` answers with a send case, where no case in front of it is ready, exactly if the case
is. -/
theorem apiAlt_send_iff {need : Nat} (hpre : ∀ d ∈ pre, d.ready env.params.sizeT k env.proc = false)
    (hneed : c.need = some need) :
    (apiAlt env wake ok k (pre ++ c :: post)).1 = some (.ok (some (pre.length + 1, sendWhy wake))) ↔
      c.ready env.params.sizeT k env.proc = true := by
  have hmem : c ∈ pre ++ c :: post := List.mem_append_right _ List.mem_cons_self
  have ha := apiAlt_alts env wake ok k (pre ++ c :: post)
  generalize apiAlt env wake ok k (pre ++ c :: post) = x at ha ⊢
  cases ha with
  | empty he => exact absurd he (List.ne_nil_of_mem hmem)
  | @takes log a _ _ _ ht =>
    by_cases hready : c.ready env.params.sizeT k env.proc = true
    · rw [altTake_send (k := { k with log := log }) hpre hneed hready] at ht
      cases ht
      exact iff_of_true rfl hready
    · refine iff_of_false (fun h => ?_) hready
      rw [altTake_append (k := { k with log := log }) hpre, altTake] at ht
      have ht := congrArg Prod.fst ((if_neg hready).symm.trans ht)
      cases a with
      | none => cases h
      | some a =>
        have hlater := altTake_index (ht.trans h)
        omega
  | hungup _ hr => exact iff_of_false (by cases wake <;> nofun) fun hready => hr ⟨c, hmem, hready⟩
  | parks _ _ hr =>
    exact iff_of_false (altPark_answer hr) fun hready => hr ⟨c, hmem, hready⟩

end Answers

/-- `sys.sendblock` comes back, without an error, exactly if a push of the size it was asked for is
not refused for room, or no queue has that room. -/
def SendblockAgrees (k : Kernel) : Prop :=
  ∀ P waitOk i h need r, 0 ≤ need.toInt → k.rightGet i h = some r → k.sch.waitersOf i = [] →
    ∀ data refs bufs, data.length + msgbufsBytes bufs = P.sizeT.cast need.toNat →
      ((apiSendblock P waitOk k i h need).1 = some (.ok ()) ↔
        maxQueue < P.sizeT.cast need.toNat ∨ (portPushOwned true k r.port data refs bufs).1 ≠ .full)

/-- `sys.alt` answers with a send case, where no case in front of it is ready, exactly if a push of
that size is not refused for room. The size is one to which `MAXQUEUE` can be added in a `size_t`.
-/
def AltAgrees (env : RecvEnv) (k : Kernel) (cases : List AltCase) : Prop :=
  ∀ wake ok pre c post need r, cases = pre ++ c :: post →
    (∀ d ∈ pre, d.ready env.params.sizeT k env.proc = false) → c.need = some need →
    k.rightGet env.proc c.handle = some r →
    env.params.sizeT.cast need + maxQueue < env.params.sizeT.size →
    ∀ data refs bufs, data.length + msgbufsBytes bufs = env.params.sizeT.cast need →
      ((apiAlt env wake ok k cases).1 = some (.ok (some (pre.length + 1, sendWhy wake))) ↔
        (portPushOwned true k r.port data refs bufs).1 ≠ .full)

theorem Run.sendblockAgrees {ok : Kernel → Op → Prop} (h : Run ok k) : SendblockAgrees k := by
  intro P waitOk i hd need r hpos hr hw data refs bufs hcost
  obtain ⟨q, hq⟩ := h.sane.counted.slotAt_portOf (rightGet_some hr).1
  rw [portPushOwned_ne_full_iff hq, hcost]
  exact apiSendblock_ok_iff h.bounded hpos hr hq hw

theorem Run.altAgrees {ok : Kernel → Op → Prop} (h : Run ok k) (env : RecvEnv)
    (cases : List AltCase) : AltAgrees env k cases := by
  rintro wake ok pre c post need r rfl hpre hneed hr hfit data refs bufs hcost
  obtain ⟨q, hq⟩ := h.sane.counted.slotAt_portOf (rightGet_some hr).1
  rw [portPushOwned_ne_full_iff hq, hcost, apiAlt_send_iff hpre hneed, AltCase.ready, hr, hneed]
  exact takesMore_iff h.bounded hq hfit

/-- A send case of one byte more than any queue holds. -/
def oversized : AltCase := ⟨1, some (maxQueue + 1), false⟩

end Nlos
