import Nlos.Kernel.Lifecycle

/-!
# Parking as runs of actions

The calls that may put their proc to sleep: `sys.block`, `sys.sendblock`, `sys.call` and `sys.alt`.
Each either answers or parks, and which of the two is decided by the state it finds: a call that
parks has taken no message, so it has no half-received message to undo.
-/

namespace Nlos

open Tally List

namespace Kernel

variable {k k' : Kernel} {w : List Work} {S : Scope} {i : Nat} {r : Right}

/-! ## Going to sleep -/

variable {ok wake : Bool} {p : PortRef} {q : KPort} {h : LuaInteger} {env : RecvEnv} {n : Nat}
  {c : AltCase} {cases : List AltCase}

/-- A running proc sleeps on a port it has a right to. -/
theorem sleep_acts {send : Bool} {h : Nat} (hw : Plain w) (hp : S.parks i r.port) (hb : S.blocks i)
    (hg : k.sch.gone i = false) (hr : k.SlotAt i h r) (hs : k.sleep ok i r.port send = some k') :
    Acts S (k, w) (k', w) := by
  unfold sleep at hs
  match ha : k.sch.waitAdd ok i r.port send, hs with
  | some s, rfl =>
    have h1 : Acts S (k, w) ({ k with sch := s }, w) := .one (.park hw hr ha) hp
    have hg' := (Sched.gone_congr (Sched.statusOf_waitAdd ha i)).trans hg
    exact h1.trans (Acts.one (.block hw hg') hb)

theorem touch_acts (hw : Plain w) (hl : k.live p = true) : Acts S (k, w) (k.touch p, w) :=
  .one (.touch hw hl) trivial

theorem hasMsg_iff (hq : k.portOf p = some q) : k.hasMsg p = true ↔ q.queue ≠ [] := by
  unfold hasMsg
  rw [hq]
  simp

theorem hasMsg_of_pop {m : Kmsg} (h : k.portPop p = (some m, k')) : k.hasMsg p = true := by
  unfold portPop at h
  split at h
  · cases h
  next q hq =>
  rw [hasMsg_iff hq]
  intro e
  rw [e] at h
  cases h

theorem hasMsg_of_pop_none (hq : k.portOf p = some q)
    (h : k.portPop p = (none, k')) : k.hasMsg p = false ∧ k' = k.touch p := by
  unfold portPop at h
  rw [hq] at h
  simp only at h
  split at h
  next he =>
    cases h
    refine ⟨?_, rfl⟩
    unfold hasMsg
    rw [hq]
    simp [he]
  · cases h

theorem apiBlock_acts (hw : Plain w) (hc : k.Counted w)
    (hg : k.sch.gone i = false) (hp : ∀ r, k.rightGet i h = some r → S.parks i r.port)
    (hb : S.blocks i) : Acts S (k, w) ((apiBlock ok k i h).2, w) := by
  unfold apiBlock
  split
  · exact .refl
  next r hr =>
  have hs := (rightGet_some hr).1
  have h1 : Acts S (k, w) (k.touch r.port, w) := touch_acts hw (hc.slotAt_live hs)
  split
  · exact .refl
  simp only
  split
  · exact h1
  split
  · exact h1
  split
  · exact h1
  next k' hk =>
  exact h1.trans (sleep_acts hw (hp r hr) hb hg (hs.congr rfl) hk)

theorem apiSendblock_acts {P : Params} {need : LuaInteger} (hw : Plain w) (hc : k.Counted w)
    (hg : k.sch.gone i = false) (hp : ∀ r, k.rightGet i h = some r → S.parks i r.port)
    (hb : S.blocks i) : Acts S (k, w) ((apiSendblock P ok k i h need).2, w) := by
  unfold apiSendblock
  split
  · exact .refl
  split
  · exact .refl
  next r hr =>
  have hs := (rightGet_some hr).1
  have h1 : Acts S (k, w) (k.touch r.port, w) := touch_acts hw (hc.slotAt_live hs)
  simp only
  split
  · exact h1
  split
  · exact h1
  split
  · exact h1
  next k' hk =>
  exact h1.trans (sleep_acts hw (hp r hr) hb hg (hs.congr rfl) hk)

/-! ## Waiting for a reply -/

/-- `call_k` drops rights only where there was a message, and parks only where there was none. -/
theorem callK_acts {ctx : LuaInteger} (hw : Plain w) (hS : S.works)
    (hc : k.Counted w) (hg : k.sch.gone env.proc = false)
    (hdrops : ∀ r, k.rightGet env.proc ctx = some r → k.hasMsg r.port = true → S.Undoes k env.proc)
    (hloses : ∀ r, k.rightGet env.proc ctx = some r → RunsOutAt env k r.port → ∀ refs, S.loses refs)
    (hparks : ∀ r, k.rightGet env.proc ctx = some r → k.hasMsg r.port = false →
      S.parks env.proc r.port ∧ S.blocks env.proc) : Acts S (k, w) ((callK env ok k ctx).2, w) := by
  unfold callK
  split
  next pr rr hpr hr =>
    have hs := (rightGet_some hr).1
    obtain ⟨q, hq⟩ := hc.slotAt_portOf hs
    split
    · split
      next k' hp =>
        have h1 := portPop_none (S := S) hw hq hp
        obtain ⟨hmsg, rfl⟩ := hasMsg_of_pop_none hq hp
        split
        · exact h1
        split
        · exact h1
        next k'' hk =>
        obtain ⟨hpark, hb⟩ := hparks rr hr hmsg
        exact h1.trans (sleep_acts hw hpark hb hg (hs.congr rfl) hk)
      next m k' hp =>
        have h1 := received_acts (i := env.proc) hw
          (pop_msgToLua_acts hw hS (hdrops rr hr (hasMsg_of_pop hp)) (hloses rr hr) hp)
        split
        next e => rwa [e] at h1
        next e => rwa [e] at h1
    · exact .refl
  · exact .refl

/-! ## Waiting on several ports -/

theorem touchCases_acts (hw : Plain w) (hc : k.Counted w) (cases : List AltCase) :
    Acts S (k, w) (touchCases i k cases, w) := by
  refine foldl_acts (hw.frees) (fun {k} hc c => ?_) cases hc
  split
  · exact .refl
  next r hr => exact touch_acts hw (hc.slotAt_live (rightGet_some hr).1)

theorem touchCases_eq (cases : List AltCase) (k : Kernel) :
    ∃ log, touchCases i k cases = { k with log := log } := by
  induction cases generalizing k with
  | nil => exact ⟨k.log, rfl⟩
  | cons c cs ih =>
    simp only [touchCases, foldl_cons] at ih ⊢
    split
    · exact ih k
    next r hr => exact ih (k.touch r.port)

/-- `sys.alt` takes inside the wide lock. A lua error there leaves the lock held, and the references
of the message with nobody. -/
theorem altTakeAt_acts (hw : Plain w) (hS : S.works) (hc : k.Counted w)
    (hdrops : S.Undoes k env.proc)
    (hloses : ∀ r, k.rightGet env.proc c.handle = some r → RunsOutAt env k r.port → ∀ refs, S.loses refs) :
    Acts S (k, w) ((altTakeAt env k n c).2, w) := by
  unfold altTakeAt
  split
  · exact .refl
  next r hr =>
  obtain ⟨q, hq⟩ := hc.slotAt_portOf (rightGet_some hr).1
  split
  · exact .refl
  split
  next k' hp => exact portPop_none hw hq hp
  next m k' hp =>
  have h1 := pop_msgToLua_acts hw hS hdrops (hloses r hr) hp
  split
  next k'' hx =>
    rw [hx] at h1
    exact h1.trans (ipclockEnter_acts hw)
  next v k'' hx => rwa [hx] at h1
  next x k'' _ hx =>
    rw [hx] at h1
    exact h1.trans (popfail_acts hw x)

theorem altAnswer_acts (hw : Plain w) (hS : S.works) (hc : k.Counted w)
    (hdrops : S.Undoes k env.proc)
    (hloses : ∀ r, k.rightGet env.proc c.handle = some r → RunsOutAt env k r.port → ∀ refs, S.loses refs) :
    Acts S (k, w) ((altAnswer env wake k n c).2, w) := by
  unfold altAnswer
  split
  · exact .refl
  split
  · exact .refl
  · exact altTakeAt_acts hw hS hc hdrops hloses

def AnyReady (env : RecvEnv) (k : Kernel) (cases : List AltCase) : Prop :=
  ∃ c ∈ cases, c.ready env.params.sizeT k env.proc = true

theorem altTake_acts (hw : Plain w) (hS : S.works) (hc : k.Counted w)
    (hdrops : AnyReady env k cases → S.Undoes k env.proc)
    (hloses : ∀ c ∈ cases, ∀ r, k.rightGet env.proc c.handle = some r → RunsOutAt env k r.port →
      ∀ refs, S.loses refs) :
    Acts S (k, w) ((altTake env wake k n cases).2, w) := by
  induction cases generalizing n with
  | nil => exact .refl
  | cons c cs ih =>
    unfold altTake
    split
    next hr =>
      exact altAnswer_acts hw hS hc (hdrops ⟨c, mem_cons_self, hr⟩) (hloses c mem_cons_self)
    · exact ih (fun ⟨c', hc', hr'⟩ => hdrops ⟨c', mem_cons_of_mem c hc', hr'⟩)
        fun c' hc' => hloses c' (mem_cons_of_mem c hc')

/-- A take that answers nothing without looking at a queue found no case ready. -/
theorem altTake_none (hn : ¬AnyReady env k cases) :
    altTake env wake k n cases = (some (.ok none), k) := by
  induction cases generalizing n with
  | nil => rfl
  | cons c cs ih =>
    unfold altTake
    rw [if_neg fun hr => hn ⟨c, mem_cons_self, hr⟩]
    exact ih fun ⟨c', hc', hr'⟩ => hn ⟨c', mem_cons_of_mem c hc', hr'⟩

/-- A receive case that is ready has its message taken, or the receive fails: it does not answer
nothing. -/
theorem altAnswer_ready (hr : c.ready env.params.sizeT k env.proc = true) :
    (altAnswer env wake k n c).1 ≠ some (.ok none) := by
  unfold altAnswer
  split
  · nofun
  split
  · nofun
  next hneed =>
  unfold AltCase.ready at hr
  unfold altTakeAt
  cases hget : k.rightGet env.proc c.handle with
  | none =>
    rw [hget] at hr
    cases hr
  | some r =>
    simp only [hget, hneed, Bool.and_eq_true] at hr ⊢
    rw [hr.1]
    have hmsg := hr.2
    simp only [Bool.not_true, Bool.false_eq_true, if_false]
    split
    next k1 hp =>
      unfold portPop at hp
      unfold hasMsg at hmsg
      split at hp
      next hq =>
        rw [hq] at hmsg
        cases hmsg
      next q hq =>
      split at hp
      next he =>
        rw [hq] at hmsg
        simp [he] at hmsg
      · cases hp
    · split <;> nofun

theorem altTake_ready (hr : AnyReady env k cases) :
    (altTake env wake k n cases).1 ≠ some (.ok none) := by
  induction cases generalizing n with
  | nil =>
    obtain ⟨c, hc, -⟩ := hr
    cases hc
  | cons c cs ih =>
    unfold altTake
    split
    next hready => exact altAnswer_ready hready
    next hnot =>
    obtain ⟨c', hc', hr'⟩ := hr
    rcases mem_cons.mp hc' with rfl | hc'
    · exact absurd hr' hnot
    · exact ih ⟨c', hc', hr'⟩

/-- The loop of `sys.alt` finds no case ready that the take before it did not: both run in one
region. So it takes no message, and only links wait records. -/
theorem altPark_acts {ok : Nat → Bool} (hw : Plain w)
    (hg : k.sch.gone env.proc = false) (hn : ¬AnyReady env k cases) (hb : S.blocks env.proc)
    (hparks : ∀ c ∈ cases, ∀ r, k.rightGet env.proc c.handle = some r → S.parks env.proc r.port) :
    Acts S (k, w) ((altPark env wake ok k n cases).2, w) := by
  induction cases generalizing k n with
  | nil => exact Acts.one (.block hw hg) hb
  | cons c cs ih =>
    have hn' : ¬AnyReady env k cs :=
      fun ⟨c', hc', hr'⟩ => hn ⟨c', mem_cons_of_mem c hc', hr'⟩
    have hparks' : ∀ c ∈ cs, ∀ r, k.rightGet env.proc c.handle = some r → S.parks env.proc r.port :=
      fun c' hc' => hparks c' (mem_cons_of_mem c hc')
    unfold altPark
    simp only
    split
    · exact waitClear_acts hw _
    split
    · exact waitClear_acts hw _
    next r hr =>
    split
    · exact waitClear_acts hw _
    split
    next hready => exact absurd ⟨c, mem_cons_self, hready⟩ hn
    split
    · exact ih hg hn' hparks'
    split
    · exact waitClear_acts hw _
    next s hs =>
    have h1 : Acts S (k, w) ({ k with sch := s }, w) :=
      .one (.park hw (rightGet_some hr).1 hs) (hparks c mem_cons_self r hr)
    have hg' := (Sched.gone_congr (Sched.statusOf_waitAdd hs env.proc)).trans hg
    exact h1.trans (ih hg' hn' hparks')

/-- As `sys.alt` looks, the port of a case has a message at its head that a lua error cuts short. -/
def AnyRunsOut (env : RecvEnv) (k : Kernel) (cases : List AltCase) : Prop :=
  ∃ c ∈ cases, ∃ r, k.rightGet env.proc c.handle = some r ∧
    RunsOutAt env (touchCases env.proc k cases) r.port

theorem altHup_eq_none {i : Nat} : altHup k i n cases = none ↔ ∀ c ∈ cases, c.hungup k i = false := by
  induction cases generalizing n with
  | nil => simp [altHup]
  | cons c cs ih => cases h : c.hungup k i <;> simp [altHup, h, ih]

section Alts

variable (env : RecvEnv) (wake : Bool) (ok : Nat → Bool) (k : Kernel) (cases : List AltCase)

/-- The ways `sys.alt` ends. Reading the ports and giving up the old waits change the log and the wait
records only, so each says what it says of the state in front of the call. -/
inductive Alts : Option (Ret (Option (Nat × AltWhy))) × Kernel → Prop where
  | empty (he : cases = []) : Alts (some (.error "alt: need at least one case"), k)
  | takes {log : List Touch} {a : Option (Ret (Option (Nat × AltWhy)))} {k' : Kernel}
      (hl : touchCases env.proc k cases = { k with log := log }) (hr : AnyReady env k cases)
      (ht : altTake env wake { k with log := log } 1 cases = (a, k')) :
      Alts (some (a.getD (.error notEnoughMemory)), k')
  | hungup {log : List Touch} {n : Nat} (hl : touchCases env.proc k cases = { k with log := log })
      (hr : ¬AnyReady env k cases) (hh : ¬∀ c ∈ cases, c.hungup k env.proc = false) :
      Alts (some (.ok (some (n, .hungup))), { k with log := log })
  | parks {log log' : List Touch} (hl : touchCases env.proc k cases = { k with log := log })
      (hc : Kernel.waitClear { k with log := log } env.proc =
        { k with log := log', sch := k.sch.waitClear env.proc })
      (hr : ¬AnyReady env k cases) (hh : ∀ c ∈ cases, c.hungup k env.proc = false) :
      Alts (altPark env wake ok { k with log := log', sch := k.sch.waitClear env.proc } 1 cases)

theorem apiAlt_alts : Alts env wake ok k cases (apiAlt env wake ok k cases) := by
  unfold apiAlt
  split
  next he => exact .empty (List.isEmpty_iff.mp he)
  obtain ⟨log, hlog⟩ := touchCases_eq (i := env.proc) cases k
  simp only [hlog]
  by_cases hr : AnyReady env k cases
  · have hsome : (altTake env wake { k with log := log } 1 cases).1 ≠ some (.ok none) :=
      altTake_ready hr
    split
    next k' ht => exact .takes hlog hr ht
    next k' ht => exact absurd (congrArg Prod.fst ht) hsome
    next a k' _ ht => exact .takes hlog hr ht
  · have hn : altTake env wake { k with log := log } 1 cases =
        (some (.ok none), { k with log := log }) := altTake_none hr
    simp only [hn]
    split
    next n hh =>
      refine .hungup hlog hr fun hall => ?_
      cases hh.symm.trans (altHup_eq_none.mpr hall)
    next hh =>
      obtain ⟨log', hlog'⟩ := touchWaits_eq { k with log := log } env.proc
      have hc : Kernel.waitClear { k with log := log } env.proc =
          { k with log := log', sch := k.sch.waitClear env.proc } := by
        unfold waitClear
        rw [hlog']
      have hall := altHup_eq_none.mp hh
      rw [hc]
      exact .parks hlog hc hr hall

end Alts

/-- `sys.alt` drops rights only where a case was ready, and parks only where none was. -/
theorem apiAlt_acts {ok : Nat → Bool} (hw : Plain w) (hS : S.works)
    (hc : k.Counted w) (hg : k.sch.gone env.proc = false)
    (hdrops : AnyReady env k cases → S.Undoes k env.proc)
    (hloses : AnyRunsOut env k cases → ∀ refs, S.loses refs)
    (hparks : ¬AnyReady env k cases → S.blocks env.proc ∧
      ∀ c ∈ cases, ∀ r, k.rightGet env.proc c.handle = some r → S.parks env.proc r.port) :
    Acts S (k, w) ((apiAlt env wake ok k cases).2, w) := by
  have h1 : Acts S (k, w) (touchCases env.proc k cases, w) := touchCases_acts hw hc cases
  have ha := apiAlt_alts env wake ok k cases
  generalize apiAlt env wake ok k cases = x at ha ⊢
  cases ha with
  | empty => exact .refl
  | takes hl hr ht =>
    rw [hl] at h1
    refine h1.trans (congrArg Prod.snd ht ▸ altTake_acts hw hS (h1.counted hc hw.frees)
      (fun _ => hdrops hr) fun c hm r hget ho => hloses ⟨c, hm, r, hget, hl.symm ▸ ho⟩)
  | hungup hl => exact hl ▸ h1
  | @parks log _ hl hclear hr =>
    have h2 : Acts S ({ k with log := log }, w)
        (Kernel.waitClear { k with log := log } env.proc, w) := waitClear_acts hw _
    rw [hclear] at h2
    have hg' := ((Sched.calms_waitClear k.sch env.proc).gone env.proc).trans hg
    exact ((hl ▸ h1).trans h2).trans (altPark_acts hw hg' hr (hparks hr).1 (hparks hr).2)

/-- The look `sys.alt` takes once it was woken. -/
theorem altK_acts (hw : Plain w) (hS : S.works) (hc : k.Counted w)
    (hdrops : AnyReady env k cases → S.Undoes k env.proc)
    (hloses : AnyRunsOut env k cases → ∀ refs, S.loses refs) :
    Acts S (k, w) ((altK env wake k cases).2, w) := by
  unfold altK
  obtain ⟨log, hlog⟩ := touchCases_eq (i := env.proc) cases k
  have h1 : Acts S (k, w) ({ k with log := log }, w) := hlog ▸ touchCases_acts hw hc cases
  have h2 : Acts S (k, w) ((altTake env wake { k with log := log } 1 cases).2, w) :=
    h1.trans (altTake_acts hw hS (h1.counted hc hw.frees) hdrops fun c hm r hget ho =>
      hloses ⟨c, hm, r, hget, hlog.symm ▸ ho⟩)
  simp only [hlog]
  split <;> next ht => rwa [ht] at h2

end Kernel

end Nlos
