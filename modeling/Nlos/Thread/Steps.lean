import Nlos.Thread.Queues

/-!
# The steps of the threads

What a registration, a poll and a step can do, and that each step leaves the runtime `Steady`.
-/

namespace Nlos.Thread

open Chan Machine List

variable {α : Type}

/-! ## What the queues hold behind a registration -/

namespace Machine

variable {s s' : Machine α} {t c : Nat} {ch : Chan α}

section

variable (s) (m : List (Nat × Waiter)) (f : Nat × Waiter → Chan α → Chan α)

@[simp] theorem modChans_threads :
    (m.foldl (fun s x => s.modChan x.1 (f x)) s).threads = s.threads :=
  foldlRecOn (motive := (threads · = s.threads)) m _ rfl fun _ h _ _ => h

@[simp] theorem modChans_cur : (m.foldl (fun s x => s.modChan x.1 (f x)) s).cur = s.cur :=
  foldlRecOn (motive := (cur · = s.cur)) m _ rfl fun _ h _ _ => h

@[simp] theorem modChans_succeeded :
    (m.foldl (fun s x => s.modChan x.1 (f x)) s).succeeded = s.succeeded :=
  foldlRecOn (motive := (succeeded · = s.succeeded)) m _ rfl fun _ h _ _ => h

end

variable {w : Waiter} {n : Nat} {cases : List (Case α)} {x : Case α}

/-- Registering takes nobody off a queue. -/
theorem register_keeps (hc : s.chans[c]? = some ch) (d : Nat) (w : Waiter) :
    ∃ ch', (s.modChan d (·.register w)).chans[c]? = some ch' ∧ ch.recvq ⊆ ch'.recvq := by
  rw [modChan_chans, hc]
  split
  · exact ⟨ch.register w, rfl, subset_append_left _ _⟩
  · exact ⟨ch, rfl, List.Subset.refl _⟩

theorem altRegister_keeps {m : List (Nat × Waiter)} (hc : s.chans[c]? = some ch)
    (hw : w ∈ ch.recvq) : ∃ ch', (s.altRegister m).chans[c]? = some ch' ∧ w ∈ ch'.recvq := by
  induction m generalizing s ch with
  | nil => exact ⟨ch, hc, hw⟩
  | cons x m ih =>
    obtain ⟨ch', hc', hw'⟩ := register_keeps hc x.1 x.2
    exact ih hc' (hw' hw)

/-- Everything a registration names is in its queue behind it. -/
theorem altRegister_mem {m : List (Nat × Waiter)} (hc : s.chans[c]? = some ch) (hm : (c, w) ∈ m) :
    ∃ ch', (s.altRegister m).chans[c]? = some ch' ∧ w ∈ ch'.recvq := by
  induction m generalizing s ch with
  | nil => cases hm
  | cons x m ih =>
    rcases mem_cons.mp hm with rfl | hm
    · have hc' : (s.modChan c (·.register w)).chans[c]? = some (ch.register w) := by
        rw [modChan_chans, if_pos rfl, hc]
        rfl
      exact altRegister_keeps (s := s.modChan c (·.register w)) hc'
        (mem_append_right _ (mem_singleton.mpr rfl))
    · obtain ⟨ch', hc', -⟩ := register_keeps hc x.1 x.2
      exact ih hc' hm

/-- The waiters of an `alt` are its own thread's, and name its receive cases. -/
theorem marks_spec {x : Nat × Waiter} (h : x ∈ marks t n cases) :
    x.2.co = t ∧ .recv x.1 ∈ cases := by
  induction cases generalizing n with
  | nil => cases h
  | cons y l ih =>
    cases y with
    | recv d =>
      rcases mem_cons.mp h with rfl | h
      · exact ⟨rfl, mem_cons_self⟩
      · exact (ih h).imp_right (mem_cons_of_mem _)
    | port p | send d v => exact (ih h).imp_right (mem_cons_of_mem _)

theorem marks_complete (h : .recv c ∈ cases) : ∃ w, (c, w) ∈ marks t n cases := by
  induction cases generalizing n with
  | nil => cases h
  | cons y l ih =>
    rcases mem_cons.mp h with rfl | hl
    · exact ⟨_, mem_cons_self⟩
    · cases y with
      | recv d =>
        obtain ⟨w, hw⟩ := ih hl
        exact ⟨w, mem_cons_of_mem _ hw⟩
      | port p | send d v => exact ih hl

/-! ## Polls -/

theorem poll_nothing {ports : List Nat} (h : s.poll ports cases = .nothing) :
    ∀ x ∈ cases, s.pollCase ports x = .nothing := by
  induction cases with
  | nil => nofun
  | cons y l ih =>
    unfold poll at h
    intro x hx
    match hy : s.pollCase ports y, h with
    | .nothing, h =>
      rcases mem_cons.mp hx with rfl | hx
      · exact hy
      · exact ih h x hx

theorem poll_ends {ports : List Nat} {r : Poll α} (h : s.poll ports cases = r)
    (hr : r ≠ .nothing) : ∃ x ∈ cases, s.pollCase ports x = r := by
  induction cases with
  | nil => exact absurd h.symm hr
  | cons y l ih =>
    unfold poll at h
    match hy : s.pollCase ports y, h with
    | .nothing, h =>
      obtain ⟨x, hx, hp⟩ := ih h
      exact ⟨x, mem_cons_of_mem _ hx, hp⟩
    | .raised _, h | .taken _, h => exact ⟨y, mem_cons_self, hy.trans h⟩

theorem nbrecv_fst {s : Machine α} (h : (s.nbrecv c ch).1 = .nothing) : ch.Empty := by
  unfold nbrecv at h
  match hn : ch.nbrecv, h with
  | (_, _, _), rfl => exact nbrecv_nothing hn

/-- A receive case that comes to nothing has found its channel open and empty. -/
theorem pollCase_recv {ports : List Nat} (h : s.pollCase ports (.recv c) = .nothing) :
    ∃ ch, s.chans[c]? = some ch ∧ ch.Empty := by
  simp only [pollCase] at h
  match hc : s.chans[c]?, h with
  | some ch, h =>
    refine ⟨ch, rfl, ?_⟩
    simp only at h
    match hn : s.nbrecv c ch, h with
    | (.nothing, _), _ => exact nbrecv_fst (congrArg Prod.fst hn)

theorem pollCase_ends {ports : List Nat}
    (h : s.pollCase ports x = .taken s' ∨ s.pollCase ports x = .raised s') :
    s' = s ∨ (∃ c v ch, x = .send c v ∧ s.chans[c]? = some ch ∧ s' = (s.nbsend c ch v).2) ∨
      ∃ c ch, x = .recv c ∧ s.chans[c]? = some ch ∧ s' = (s.nbrecv c ch).2 := by
  cases x with
  | port p =>
    simp only [pollCase] at h
    split at h
    · rcases h with h | h
      · cases h
        exact .inl rfl
      · cases h
    · rcases h with h | h <;> cases h
  | send c v =>
    simp only [pollCase] at h
    match hc : s.chans[c]?, h with
    | none, .inr rfl => exact .inl rfl
    | some ch, h =>
      refine .inr (.inl ⟨c, v, ch, rfl, hc, ?_⟩)
      simp only at h
      match s.nbsend c ch v, h with
      | (none, _), .inr rfl | (some true, _), .inl rfl => rfl
  | recv c =>
    simp only [pollCase] at h
    match hc : s.chans[c]?, h with
    | none, .inr rfl => exact .inl rfl
    | some ch, h =>
      refine .inr (.inr ⟨c, ch, rfl, hc, ?_⟩)
      simp only at h
      match s.nbrecv c ch, h with
      | (.value _, _), .inl rfl | (.closed, _), .inl rfl => rfl

@[simp] theorem putChan_cur (s : Machine α) (c : Nat) (ch : Chan α) (l : List Nat) :
    (s.putChan c ch l).cur = s.cur :=
  readyAll_cur _ l

@[simp] theorem nbsend_cur (s : Machine α) (c : Nat) (ch : Chan α) (v : Option α) :
    (s.nbsend c ch v).2.cur = s.cur := by
  unfold nbsend
  split
  · rfl
  · exact putChan_cur _ _ _ _
  · rfl

@[simp] theorem nbrecv_cur (s : Machine α) (c : Nat) (ch : Chan α) :
    (s.nbrecv c ch).2.cur = s.cur :=
  putChan_cur _ _ _ _

theorem pollCase_cur {ports : List Nat}
    (h : s.pollCase ports x = .taken s' ∨ s.pollCase ports x = .raised s') : s'.cur = s.cur := by
  rcases pollCase_ends h with rfl | ⟨c, v, ch, -, -, rfl⟩ | ⟨c, ch, -, -, rfl⟩
  · rfl
  · exact nbsend_cur s c ch v
  · exact nbrecv_cur s c ch

/-! ## What a step can do -/

theorem onChan_some {f : Chan α → Option (Machine α)} (h : s.onChan c f = some s') :
    ∃ ch, s.chans[c]? = some ch ∧ f ch = some s' := by
  unfold onChan at h
  match s.chans[c]?, h with
  | some ch, h => exact ⟨ch, rfl, h⟩

theorem onCur_some {f : Nat → Th α → Option (Machine α)} (h : s.onCur f = some s') :
    ∃ t th, s.cur = some t ∧ s.threads[t]? = some th ∧ f t th = some s' := by
  unfold onCur at h
  split at h
  · cases h
  next t ht =>
    split at h
    · cases h
    next th hth => exact ⟨t, th, ht, hth, h⟩

theorem onCall_some {f : Nat → Machine α} (h : s.onCall f = some s') :
    ∃ t th, s.cur = some t ∧ s.threads[t]? = some th ∧ th.wait = .free ∧ s' = f t := by
  obtain ⟨t, th, hcur, hth, h⟩ := onCur_some h
  refine ⟨t, th, hcur, hth, ?_⟩
  match th.wait, h with
  | .free, rfl => exact ⟨rfl, rfl⟩

end Machine

/-! ## The steps keep the invariant -/

namespace Steady

variable {s s' : Machine α} {t c : Nat} {ch : Chan α} {th : Th α} {ports : List Nat}

section

variable (h : Steady s)

include h

theorem nbsend (hc : s.chans[c]? = some ch) (v : Option α) : Steady (s.nbsend c ch v).2 := by
  have hs := h.sound c ch hc
  have hf := h.fresh c ch hc
  unfold Machine.nbsend
  split
  next hn => exact h.made.fail hc ⟨nbsend_none hn, fun hm => Nat.lt_irrefl _ (hf.made _ hm)⟩
  next ch' l hn =>
    refine (h.made.putChan hc (hs.nbsend hn) (hf.nbsend hn) (wakes_nbsend hn)).succeed
      (?_ : _ = some ch') (nbsend_accepts hn)
    rw [putChan_chans (s := s.made) hc, if_pos rfl]
  · exact h

theorem nbrecv (hc : s.chans[c]? = some ch) : Steady (s.nbrecv c ch).2 := by
  match hn : ch.nbrecv with
  | (g, ch', l) =>
    simp only [Machine.nbrecv, hn]
    exact h.putChan hc ((h.sound c ch hc).nbrecv hn) ((h.fresh c ch hc).nbrecv hn) (wakes_nbrecv hn)

theorem pollCase {x : Case α}
    (hp : s.pollCase ports x = .taken s' ∨ s.pollCase ports x = .raised s') : Steady s' := by
  rcases pollCase_ends hp with rfl | ⟨c, v, ch, -, hc, rfl⟩ | ⟨c, ch, -, hc, rfl⟩
  · exact h
  · exact h.nbsend hc v
  · exact h.nbrecv hc

variable {v : Option α} {rid : Nat}

theorem waiting (hth : s.threads[t]? = some th) (hw : th.wait = .sending c v rid)
    (hc : s.chans[c]? = some ch)
    (hd : rid ∉ ch.done) : ⟨rid, v, some t⟩ ∈ ch.sendq ∨ ch.Bars rid := by
  have ha := (h.placed t th hth).accounted
  rw [hw] at ha
  obtain ⟨x, hx, hm⟩ := ha
  rw [hc] at hx
  cases hx
  rcases hm with hm | hm | hm
  · exact .inl hm
  · rw [(h.sound c ch hc).done] at hd
    exact absurd (mem_map_of_mem hm) hd
  · exact .inr hm

/-- The record of a send that came back says that its value went. -/
theorem in_accepted (hth : s.threads[t]? = some th) (hw : th.wait = .sending c v rid)
    (hc : s.chans[c]? = some ch) (hd : rid ∈ ch.done) : (rid, v) ∈ ch.accepted := by
  have ha := (h.placed t th hth).accounted
  have hf := h.fresh c ch hc
  rw [(h.sound c ch hc).done] at hd
  rw [hw] at ha
  obtain ⟨x, hx, hm⟩ := ha
  rw [hc] at hx
  cases hx
  rcases hm with hm | hm | hm
  · -- a record is in one of the two lists only
    have hwt : rid ∈ ch.waiting.map SendRec.rid := mem_map.mpr ⟨_, mem_filter.mpr ⟨hm, rfl⟩, rfl⟩
    exact absurd hwt ((disjoint_of_nodup_append hf.once) hd)
  · exact hm
  · exact absurd (mem_append_left _ hd) hm.2

end

/-- On its return from a park, or where it had a token, a sender reads its record. -/
theorem chansendK (h : Steady { s with cur := none }) (hcur : s.cur = some t)
    (hth : s.threads[t]? = some th)
    {v : Option α} {rid : Nat} (hw : th.wait = .sending c v rid) (hc : s.chans[c]? = some ch)
    {g : Th α → Th α} (hg : (g th).wait = th.wait) (hp : (g th).parked = false) :
    Steady ((s.modTh t g).chansendK t c v rid ch) := by
  have hone : ∀ {P : Prop} {u : Th α}, s.threads[t]? = some u → (g u).parked = true → P := by
    intro P u hu hpk
    rw [hth] at hu
    cases hu
    rw [hp] at hpk
    cases hpk
  have hrun : ∀ {u : Th α}, s.threads[t]? = some u → (g u).parked = false := by
    intro u hu
    rw [hth] at hu
    cases hu
    exact hp
  have honly : ∀ u, s.cur = some u → u = t := fun u hu => Option.some.inj (hu.symm.trans hcur)
  have hfree : ∀ {s1 : Machine α}, Steady s1 → s1.threads = s.threads →
      Steady { (s1.modTh t g).goOn t .free with cur := s.cur } := by
    intro s1 h1 hths
    refine h1.thread (f := fun u => { g u with wait := .free }) rfl rfl rfl rfl ?_ (.inr honly)
      fun u hu _ => ?_
    · exact modify_modify_eq _ _ t s1.threads
    · rw [hths] at hu
      exact ⟨hone hu, fun _ => hrun hu, nofun, trivial, trivial⟩
  unfold Machine.chansendK
  split
  next hd => exact hfree (h.succeed hc (h.in_accepted hth hw hc hd)) rfl
  next hd =>
    split
    next hcl =>
      refine hfree (h.fail hc ((h.waiting hth hw hc hd).resolve_left fun hm => ?_)) rfl
      exact nomatch (h.sound c ch hc).shut hcl _ hm
    next hopen =>
      have hq := (h.waiting hth hw hc hd).resolve_right fun hm => hopen hm.1
      refine h.thread rfl rfl rfl rfl rfl (.inr honly) fun u hu hpl => ?_
      rw [hth] at hu
      cases hu
      refine ⟨hone hth, fun _ => hp, fun _ _ _ => ?_, ?_, ?_⟩
      · rw [hg, hw]
        exact ⟨ch, hc, hq⟩
      · rw [hg]
        exact hpl.accounted
      · rw [hg]
        exact hpl.owns

theorem chansendPass (h : Steady s) (hcur : s.cur = some t) (hth : s.threads[t]? = some th)
    {v : Option α} {rid : Nat} (hw : th.wait = .sending c v rid) (hc : s.chans[c]? = some ch) :
    Steady (s.chansendPass t th c v rid ch) := by
  have hp := h.placed t th hth
  unfold Machine.chansendPass
  split
  · exact chansendK h.rest hcur hth hw hc rfl (hp.running hcur)
  next hwk =>
  have he := hp.standing hcur (Bool.eq_false_iff.mpr hwk) (by rw [hw]; rfl)
  have ha := hp.accounted
  rw [hw] at he ha
  exact h.park he trivial ha

/-- The running thread uses up its token, where it is in no send. -/
theorem unwake (h : Steady s) (hf : ∀ th, s.threads[t]? = some th → th.wait.isSending = false) :
    Steady (s.unwake t) := by
  refine h.thread rfl rfl rfl rfl rfl (.inl rfl) fun th hth hp =>
    ⟨hp.parked, hp.running, fun _ _ hs => ?_, hp.accounted, hp.owns⟩
  rw [hf th hth] at hs
  cases hs

theorem chanrecvPass (h : Steady s) (hcur : s.cur = some t) (hth : s.threads[t]? = some th)
    {w : Option Waiter} (hw : th.wait = .receiving c w) (hc : s.chans[c]? = some ch) :
    Steady (s.chanrecvPass t th c ch) := by
  have hsend : ∀ u, s.threads[t]? = some u → u.wait.isSending = false := by
    intro u hu
    rw [hth] at hu
    cases hu
    rw [hw]
    rfl
  match hn : s.nbrecv c ch with
  | (.nothing, s') =>
    have hempty : ch.Empty := nbrecv_fst (congrArg Prod.fst hn)
    have hreg : Steady (s.made.modChan c (·.register (.recv t s.next))) := by
      refine h.made.register (fun x hx => ?_) _
      rw [show s.made.chans[c]? = some ch from hc] at hx
      cases hx
      exact hempty
    simp only [Machine.chanrecvPass, hn]
    split
    · exact (hreg.unwake hsend).unlink hcur
    refine hreg.park ⟨ch.register (.recv t s.next), .recv t s.next, ?_, ?_, rfl⟩ rfl trivial
    · rw [modChan_chans, if_pos rfl, show s.made.chans[c]? = some ch from hc]
      rfl
    · exact mem_append_right _ (mem_singleton.mpr rfl)
  | (.value v, s') | (.closed, s') =>
    have hst := h.nbrecv hc
    have hcur' := (nbrecv_cur s c ch).trans hcur
    rw [hn] at hst hcur'
    simp only [Machine.chanrecvPass, hn]
    exact hst.free hcur'

theorem altPass (h : Steady s) (hcur : s.cur = some t) (hth : s.threads[t]? = some th)
    {cases : List (Case α)} {m : List (Nat × Waiter)} (hw : th.wait = .alting cases m) :
    Steady (s.altPass t th ports cases) := by
  have hends : ∀ {r s'}, s.poll ports cases = r → r = .taken s' ∨ r = .raised s' →
      Steady (s'.goOn t .free) := by
    intro r s' hr hr'
    obtain ⟨x, -, hx⟩ := poll_ends hr (by rcases hr' with rfl | rfl <;> nofun)
    rw [← hx] at hr'
    exact (h.pollCase hr').free ((pollCase_cur hr').trans hcur)
  unfold Machine.altPass
  split
  next s' hp => exact hends hp (.inl rfl)
  next s' hp => exact hends hp (.inr rfl)
  next hp =>
    have hempty : ∀ {d : Nat}, .recv d ∈ cases → ∃ ch, s.chans[d]? = some ch ∧ ch.Empty := fun hd =>
      pollCase_recv (poll_nothing hp _ hd)
    have hreg : Steady (s.altRegister (marks t 1 cases)) := by
      refine h.altRegister fun x hx ch hc => ?_
      obtain ⟨ch', hc', he⟩ := hempty (marks_spec hx).2
      rw [hc] at hc'
      cases hc'
      exact he
    have hown : ∀ x ∈ marks t 1 cases, x.2.co = t := fun x hx => (marks_spec hx).1
    split
    · refine (hreg.unwake fun u hu => ?_).altUnregister ?_ hown
      · rw [Machine.altRegister, modChans_threads, hth] at hu
        cases hu
        rw [hw]
        rfl
      · show (s.altRegister _).cur = some t
        rw [Machine.altRegister, modChans_cur, hcur]
    · refine hreg.park (fun d hd => ?_) hown trivial
      obtain ⟨ch, hc, -⟩ := hempty hd
      obtain ⟨w, hm⟩ := marks_complete hd
      obtain ⟨ch', hc', hw'⟩ := altRegister_mem hc hm
      exact ⟨ch', w, hc', hw', (marks_spec hm).1⟩

theorem pass (h : Steady s) (hcur : s.cur = some t) (hth : s.threads[t]? = some th)
    (hp : s.pass ports t th = some s') : Steady s' := by
  unfold Machine.pass at hp
  split at hp
  · cases hp
  next c v rid hw =>
    obtain ⟨ch, hc, hp⟩ := onChan_some hp
    cases hp
    exact h.chansendPass hcur hth hw hc
  next c w hw =>
    obtain ⟨ch, hc, hp⟩ := onChan_some hp
    cases hp
    exact h.chanrecvPass hcur hth hw hc
  next cases m hw =>
    cases hp
    exact h.altPass hcur hth hw

/-- The thread that is taken off the ring leaves the queues it is still in, or reads its record. -/
theorem resumed (h : Steady { s with cur := none }) (hcur : s.cur = some t)
    (hth : s.threads[t]? = some th) : Steady (s.resumed t th) := by
  have hpl := h.placed t th hth
  have hres : th.wait.isSending = false →
      Steady (s.modTh t fun th => { th with parked := false }) := by
    refine fun hs => h.resume hcur fun u hu => ?_
    rw [hth] at hu
    cases hu
    exact hs
  unfold Machine.resumed
  split
  next hw => exact hres (by rw [hw]; rfl)
  next c v rid hw =>
    have ha := hpl.accounted
    rw [hw] at ha
    obtain ⟨ch, hc, -⟩ := ha
    split
    next hno =>
      rw [hc] at hno
      cases hno
    next ch' hc' => exact chansendK h hcur hth hw hc' rfl rfl
  next c hw => exact hres (by rw [hw]; rfl)
  next c w hw =>
    have hown := hpl.owns
    rw [hw] at hown
    have hs := (hres (by rw [hw]; rfl)).unlink (c := c) (hcur.trans (congrArg some (Eq.symm hown)))
    exact hs.goOn hcur trivial trivial nofun
  next cases m hw =>
    have hown := hpl.owns
    rw [hw] at hown
    have hs := (hres (by rw [hw]; rfl)).altUnregister hcur hown
    refine hs.goOn ?_ nofun trivial nofun
    rw [Machine.altUnregister, modChans_cur]
    exact hcur

theorem send (h : Steady s) (hcur : s.cur = some t) (hc : s.chans[c]? = some ch) (v : Option α) :
    Steady (s.send t c ch v) := by
  have hst := h.nbsend hc v
  match hn : s.nbsend c ch v with
  | (some false, s') =>
    -- `nbsend` answers no only where the channel is open
    have hopen : ch.closed = false := by
      unfold Machine.nbsend at hn
      split at hn
      · cases hn
      · cases hn
      next hn' => exact (nbsend_some hn').1
    have hch := putChan_chans (s := s.made) hc (ch.enqueue ⟨s.next, v, some t⟩).1
      (ch.enqueue ⟨s.next, v, some t⟩).2 c
    rw [if_pos rfl] at hch
    have hq : ⟨s.next, v, some t⟩ ∈ (ch.enqueue ⟨s.next, v, some t⟩).1.sendq :=
      mem_append_right _ (mem_singleton.mpr rfl)
    have hput :=
      h.made.putChan hc ((h.sound c ch hc).enqueue hopen rfl) ((h.fresh c ch hc).enqueue rfl)
      (wakes_enqueue hopen ⟨s.next, v, some t⟩)
    simp only [Machine.send, hn]
    exact hput.goOn ((putChan_cur _ _ _ _).trans hcur) trivial ⟨_, hch, .inl hq⟩ fun _ =>
      ⟨_, hch, hq⟩
  | (none, s') | (some true, s') =>
    rw [hn] at hst
    simp only [Machine.send, hn]
    exact hst

theorem snoc_some {β : Type} {l : List β} {a x : β} {d : Nat} (h : (l ++ [a])[d]? = some x) :
    l[d]? = some x ∨ x = a := by
  rw [List.getElem?_append] at h
  split at h
  · exact .inl h
  · exact .inr (mem_singleton.mp (mem_of_getElem? h))

theorem snoc_exists {β : Type} {l : List β} {a : β} {d : Nat} {P : β → Prop}
    (h : ∃ x, l[d]? = some x ∧ P x) : ∃ x, (l ++ [a])[d]? = some x ∧ P x := by
  obtain ⟨x, hx, hP⟩ := h
  refine ⟨x, ?_, hP⟩
  rw [List.getElem?_append_left (List.getElem?_eq_some_iff.mp hx).1]
  exact hx

theorem create (h : Steady s) (cap : Int) :
    Steady { s with chans := s.chans ++ [Chan.create cap] } := by
  have hen : ∀ {u : Nat} {w : Wait α}, Enrolled s.chans u w →
      Enrolled (s.chans ++ [Chan.create cap]) u w :=
    fun he => he.imp snoc_exists fun _ => snoc_exists
  refine ⟨fun d x hx => ?_, fun d x hx => ?_, fun u th hth => ?_, fun x hx => snoc_exists (h.went x hx),
    fun x hx => snoc_exists (h.barred x hx)⟩
  · rcases snoc_some hx with hx | rfl
    · exact h.sound d x hx
    · exact sound_create cap
  · rcases snoc_some hx with hx | rfl
    · exact h.fresh d x hx
    · exact fresh_create cap s.next
  · have hp := h.placed u th hth
    refine ⟨fun hpk => hen (hp.parked hpk), hp.running, fun hc hw hs => hen (hp.standing hc hw hs), ?_, hp.owns⟩
    have ha := hp.accounted
    revert ha
    cases th.wait with
    | sending d v rid => exact snoc_exists
    | _ => exact id

theorem spawn (h : Steady s) (hw : th.wait = .free) (hp : th.parked = false) :
    Steady { s with threads := s.threads ++ [th] } := by
  refine ⟨h.sound, h.fresh, fun u x hx => ?_, h.went, h.barred⟩
  rcases snoc_some hx with hx | rfl
  · exact h.placed u x hx
  · refine ⟨fun hpk => ?_, fun _ => hp, fun _ _ hs => ?_, ?_, ?_⟩
    · rw [hp] at hpk
      cases hpk
    · rw [hw] at hs
      cases hs
    all_goals
      rw [hw]
      trivial

theorem step (h : Steady s) {a : Op α} (ha : s.step a = some s') : Steady s' := by
  cases a with
  | create cap =>
    cases ha
    exact h.create cap
  | spawn =>
    cases ha
    exact h.spawn rfl rfl
  | drain t =>
    simp only [Machine.step] at ha
    match s.threads[t]?, ha with
    | some th, ha =>
      obtain ⟨-, ha⟩ := Option.ite_none_right_eq_some.mp ha
      cases ha
      exact h.thread rfl rfl rfl rfl rfl (.inl rfl) fun _ _ hp => { hp with }
  | pop =>
    simp only [Machine.step] at ha
    split at ha
    next t ring hcur _ =>
      match hth : s.threads[t]?, ha with
      | some th, rfl =>
        split
        · exact h.turn ring
        · exact resumed (h.turn ring).rest rfl hth
    · cases ha
  | nudge t =>
    cases ha
    exact h.ready
  | yield =>
    obtain ⟨t, th, -, -, -, rfl⟩ := onCall_some ha
    exact (h.turn (s.ring ++ [t])).rest
  | exit =>
    obtain ⟨t, th, hcur, hth, hw, rfl⟩ := onCall_some ha
    exact h.thread rfl rfl rfl rfl rfl (.inr nofun) fun _ _ hp =>
      ⟨nofun, nofun, nofun, hp.accounted, hp.owns⟩
  | nbsend c v =>
    obtain ⟨ch, hc, ha⟩ := onChan_some ha
    cases ha
    exact h.nbsend hc v
  | nbrecv c =>
    obtain ⟨ch, hc, ha⟩ := onChan_some ha
    cases ha
    exact h.nbrecv hc
  | close c =>
    obtain ⟨ch, hc, ha⟩ := onChan_some ha
    cases ha
    exact h.putChan hc (h.sound c ch hc).close (h.fresh c ch hc).close
      (wakes_close (h.fresh c ch hc))
  | send c v =>
    obtain ⟨ch, hc, ha⟩ := onChan_some ha
    obtain ⟨t, th, hcur, -, -, rfl⟩ := onCall_some ha
    exact h.send hcur hc v
  | recv c =>
    obtain ⟨ch, hc, ha⟩ := onChan_some ha
    obtain ⟨t, th, hcur, -, -, rfl⟩ := onCall_some ha
    exact h.goOn hcur trivial trivial nofun
  | alt cases =>
    obtain ⟨t, th, hcur, -, -, rfl⟩ := onCall_some ha
    exact h.goOn hcur nofun trivial nofun
  | pass ports =>
    obtain ⟨t, th, hcur, hth, hp⟩ := onCur_some ha
    exact h.pass hcur hth hp

end Steady

theorem Run.steady {ok : Machine α → Op α → Prop} {s : Machine α} (h : Run ok s) : Steady s :=
  h.invariant steady_boot fun _ hi _ ha => hi.step ha

end Nlos.Thread
