import Nlos.Thread.Mail

/-!
# Mail comes in order

A message taken from a port is answered by one receive call, in the order in which the port queued
it, whichever of the receive calls take part. The reason is that the list `pending` is never used:
the loop takes a message only where every waiter is in `recv`, each of them is on the `portq` of its
port, and so one of them gets it; and that thread is the next to run, before anybody else can look
at the port. What a thread takes itself it returns at once.

A message that the proc cannot receive is the exception. The kernel disposes of it, and the call
that took it raises.
-/

namespace Nlos.Mail

open List Option

variable {α : Type} {s s' : Sched α} {t t' h p : Nat} {th th' : Thread α} {m : Msg α}

/-! ## Threads and entries -/

@[simp] theorem Thread.ready_call : th.ready.call = th.call := rfl
@[simp] theorem Thread.ready_parkrec : th.ready.parkrec = th.parkrec := rfl
@[simp] theorem Thread.ready_dead : th.ready.dead = th.dead := rfl
@[simp] theorem Thread.ready_parked : th.ready.parked = false := rfl

variable {q : PortQ}

theorem PortQ.mem_join {x : Nat} : x ∈ (q.join t).threads ↔ x ∈ q.threads ∨ x = t := by
  cases q with
  | nil => simp [join, threads]
  | one t' =>
    by_cases e : t' = t <;> simp [join, threads, e]
  | many l =>
    by_cases e : t ∈ l
    · simp only [join, threads, e, if_true]
      exact ⟨.inl, fun h => h.elim id fun e' => e' ▸ e⟩
    · simp [join, threads, e]

namespace Sched

variable {f : Thread α → Thread α}

theorem get_modTh :
    (s.modTh t f).threads[t']? = if t = t' then s.threads[t']?.map f else s.threads[t']? := by
  unfold modTh
  rw [List.getElem?_modify]
  split <;> simp

theorem get_modTh_some (hg : (s.modTh t f).threads[t']? = some th') :
    ∃ th, s.threads[t']? = some th ∧ (t = t' ∧ th' = f th ∨ t ≠ t' ∧ th' = th) := by
  rw [get_modTh] at hg
  split at hg
  next e =>
    obtain ⟨th, h1, h2⟩ := map_eq_some_iff.mp hg
    exact ⟨th, h1, .inl ⟨e, h2.symm⟩⟩
  next e => exact ⟨th', hg, .inr ⟨e, rfl⟩⟩

/-! ## What a thread carries while it is parked -/

end Sched

/-- A parked thread is on the `portq` of its port, where it is in `recv`, and else in `nonrecv`,
where it waits on a port at all. -/
structure Thread.Fit (th : Thread α) (q : Nat → PortQ) (t : Nat) : Prop where
  alive : th.dead = false
  busy : th.call ≠ .free
  recv : th.parkrec.recv = true → ∃ h, th.call = .recv h ∧ th.parkrec.port = some h ∧
    th.parkrec.ports = none ∧ th.parkrec.send = none ∧ t ∈ (q h).threads
  nonrecv : th.parkrec.recv = false → th.parkrec.onAny = true → th.nonrecv = true

/-- The scheduler's tables agree with its threads. -/
structure Sched.Sound (s : Sched α) : Prop where
  fit : ∀ {t : Nat} {th : Thread α}, s.threads[t]? = some th → th.parked = true → th.Fit s.portq t
  turn : ∀ {t : Nat} {th : Thread α}, s.turn = .thread t → s.threads[t]? = some th →
    th.parked = false ∧ th.dead = false
  pending : ∀ h, s.pending h = []

structure Sched.Eased (s s' : Sched α) : Prop where
  length : s'.threads.length = s.threads.length
  thread : ∀ (t : Nat) (th' : Thread α), s'.threads[t]? = some th' →
    ∃ th : Thread α, s.threads[t]? = some th ∧ th'.call = th.call ∧ th'.parkrec = th.parkrec ∧
      th'.dead = th.dead ∧ (th'.parked = true → th.parked = true ∧ th'.nonrecv = th.nonrecv)

namespace Sched

theorem Eased.same (e : s'.threads = s.threads) : s.Eased s' :=
  ⟨congrArg _ e, fun _ _ hg => ⟨_, e ▸ hg, rfl, rfl, rfl, fun hp => ⟨hp, rfl⟩⟩⟩

theorem Eased.trans {s'' : Sched α} (h1 : s.Eased s') (h2 : s'.Eased s'') : s.Eased s'' := by
  refine ⟨h2.length.trans h1.length, fun t th'' hg => ?_⟩
  obtain ⟨th', hg', hc', hr', hd', hp'⟩ := h2.thread t th'' hg
  obtain ⟨th, hg, hc, hr, hd, hp⟩ := h1.thread t th' hg'
  refine ⟨th, hg, hc'.trans hc, hr'.trans hr, hd'.trans hd, fun h => ?_⟩
  exact ⟨(hp (hp' h).1).1, (hp' h).2.trans (hp (hp' h).1).2⟩

theorem Eased.get (he : s.Eased s') (hg : s.threads[t]? = some th) :
    ∃ th', s'.threads[t]? = some th' ∧ th'.call = th.call ∧ th'.parkrec = th.parkrec ∧
    th'.dead = th.dead := by
  have hlt : t < s'.threads.length := he.length ▸ (List.getElem?_eq_some_iff.mp hg).1
  obtain ⟨th0, hg0, h1, h2, h3, -⟩ := he.thread t _ (List.getElem?_eq_getElem hlt)
  cases hg.symm.trans hg0
  exact ⟨_, List.getElem?_eq_getElem hlt, h1, h2, h3⟩

theorem eased_modTh_ready : s.Eased (s.modTh t Thread.ready) := by
  refine ⟨length_modify .., fun t' th' hg => ?_⟩
  obtain ⟨th, hg0, ⟨-, rfl⟩ | ⟨-, rfl⟩⟩ := get_modTh_some hg
  · exact ⟨th, hg0, rfl, rfl, rfl, nofun⟩
  · exact ⟨_, hg0, rfl, rfl, rfl, fun hp => ⟨hp, rfl⟩⟩

theorem eased_readyIf {f : Rec α → Bool} : s.Eased (s.readyIf f) := by
  refine ⟨length_map _, fun t th' hg => ?_⟩
  obtain ⟨th, hg0, rfl⟩ := map_eq_some_iff.mp ((List.getElem?_map ..).symm.trans hg)
  refine ⟨th, hg0, ?_⟩
  split
  · exact ⟨rfl, rfl, rfl, nofun⟩
  · exact ⟨rfl, rfl, rfl, fun hp => ⟨hp, rfl⟩⟩

variable {order polled : List Nat} {e : Env} {a : Op α}

theorem eased_drainWake : s.Eased (s.drainWake order) := by
  refine ⟨length_map _, fun t th' hg => ?_⟩
  obtain ⟨th, hg0, rfl⟩ := map_eq_some_iff.mp ((List.getElem?_map ..).symm.trans hg)
  exact ⟨th, hg0, rfl, rfl, rfl, fun hp => ⟨hp, rfl⟩⟩

def Only (s s' : Sched α) : Prop := ∃ l, s' = { s with threads := l }

theorem only_pollReady (s : Sched α) (polled : List Nat) : s.Only (s.pollReady polled) := by
  induction polled generalizing s with
  | nil => exact ⟨s.threads, rfl⟩
  | cons h l ih =>
    obtain ⟨l', e⟩ := ih (s.readyon h)
    exact ⟨l', e⟩

theorem eased_pollReady : s.Eased (s.pollReady polled) := by
  induction polled generalizing s with
  | nil => exact .same rfl
  | cons h l ih => exact .trans eased_readyIf ih

/-! ## The tables stay in step -/

theorem Sound.boot : (boot : Sched α).Sound where
  fit := nofun
  turn := nofun
  pending _ := rfl

section

variable (hs : s.Sound)

include hs

/-- Threads are readied, entries of `portq` grow, and the cpu stays or goes to no thread. -/
theorem Sound.ease (he : s.Eased s')
    (hq : ∀ h x, x ∈ (s.portq h).threads → x ∈ (s'.portq h).threads)
    (ht : ∀ t, s'.turn = .thread t → s.turn = .thread t) (hp : s'.pending = s.pending) :
    s'.Sound where
  fit hg hpk := by
    obtain ⟨th, hg, hc, hr, hd, hk⟩ := he.thread _ _ hg
    obtain ⟨hpk, hn⟩ := hk hpk
    have hf := hs.fit hg hpk
    refine ⟨hd.trans hf.alive, hc ▸ hf.busy, fun h => ?_, fun h1 h2 => ?_⟩
    · rw [hr] at h ⊢
      obtain ⟨x, h1, h2, h3, h4, h5⟩ := hf.recv h
      exact ⟨x, hc.trans h1, h2, h3, h4, hq x _ h5⟩
    · rw [hr] at h1 h2
      exact hn.trans (hf.nonrecv h1 h2)
  turn h hg := by
    obtain ⟨th, hg, -, -, hd, hk⟩ := he.thread _ _ hg
    obtain ⟨h1, h2⟩ := hs.turn (ht _ h) hg
    refine ⟨?_, hd.trans h2⟩
    exact Bool.eq_false_iff.mpr fun hpk => absurd ((hk hpk).1.symm.trans h1) nofun
  pending h := (congrFun hp h).trans (hs.pending h)

/-- The running thread is rewritten. It does not park and does not die. -/
theorem Sound.work {f : Thread α → Thread α} (ht : s.turn = .thread t)
    (hf : ∀ th, th.parked = false → th.dead = false → (f th).parked = false ∧ (f th).dead = false) :
    (s.modTh t f).Sound where
  fit hg hpk := by
    obtain ⟨th, hg0, ⟨rfl, rfl⟩ | ⟨-, rfl⟩⟩ := get_modTh_some hg
    · obtain ⟨h1, h2⟩ := hs.turn ht hg0
      exact absurd (hpk.symm.trans (hf th h1 h2).1) nofun
    · exact hs.fit hg0 hpk
  turn h hg := by
    obtain ⟨th, hg0, ⟨rfl, rfl⟩ | ⟨-, rfl⟩⟩ := get_modTh_some hg
    · obtain ⟨h1, h2⟩ := hs.turn ht hg0
      exact hf th h1 h2
    · exact hs.turn h hg0
  pending := hs.pending

theorem Sound.goOn {c : Call} (ht : s.turn = .thread t) : (s.goOn t c).Sound :=
  hs.work ht fun _ h1 h2 => ⟨h1, h2⟩

theorem Sound.answer (ht : s.turn = .thread t) : (s.answer t m).Sound :=
  have h := hs.goOn (c := .free) ht
  { h with }

theorem Sound.takeOff {rest : List (Msg α)} {fits : Bool} : (s.takeOff p m rest fits).Sound :=
  { hs with }

variable {port : Option Nat} {ports : Option (List Nat)} {recv : Bool}

/-- The running thread parks, on a record that is fit, or goes on where a wake came first. -/
theorem Sound.park {send : Option Nat}
    (ht : s.turn = .thread t) (hg : s.threads[t]? = some th) (hb : th.call ≠ .free)
    (hr : recv = true → ∃ h, th.call = .recv h ∧ port = some h ∧ ports = none ∧ send = none ∧
      t ∈ (s.portq h).threads) : (s.park t th.woken port ports recv send).Sound := by
  obtain ⟨hpk, hd⟩ := hs.turn ht hg
  have hget {t' th'} (hg' : (s.park t th.woken port ports recv send).threads[t']? = some th') :
      t = t' ∧ th' = (th.mark port ports recv send).settle ∨ t ≠ t' ∧
        s.threads[t']? = some th' := by
    obtain ⟨th1, hg1, ⟨rfl, rfl⟩ | ⟨hne, rfl⟩⟩ := get_modTh_some hg'
    · cases hg.symm.trans hg1
      exact .inl ⟨rfl, rfl⟩
    · exact .inr ⟨hne, hg1⟩
  constructor
  · intro t' th' hg' hpk'
    obtain ⟨rfl, rfl⟩ | ⟨-, hg'⟩ := hget hg'
    · cases hw : th.woken with
      | true => simp [Thread.settle, Thread.mark, hw, hpk] at hpk'
      | false =>
        have e : (th.mark port ports recv send).settle =
            { th.mark port ports recv send with parked := true } :=
          if_neg (by simp [Thread.mark, hw])
        rw [e]
        refine ⟨hd, hb, hr, fun h1 h2 => ?_⟩
        exact if_pos (by simpa [Thread.mark, Rec.onAny] using And.intro h1 h2)
    · exact hs.fit hg' hpk'
  · intro t' th' ht' hg'
    cases hw : th.woken with
    | false => simp [Sched.park, hw] at ht'
    | true =>
      obtain ⟨rfl, rfl⟩ | ⟨hne, -⟩ := hget hg'
      · simp [Thread.settle, Thread.mark, hw, hpk, hd]
      · simp [Sched.park, hw, hne] at ht'
  · exact hs.pending

theorem Sound.parkonBegin
    (ht : s.turn = .thread t) (hg : s.threads[t]? = some th) (hb : th.call ≠ .free)
    (hr : recv = true → ∃ h, th.call = .recv h ∧ port = some h ∧ ports = none) :
    (s.parkonBegin t th.woken port ports recv).Sound := by
  unfold Sched.parkonBegin
  split
  next h =>
    obtain ⟨h', hc, e, hn⟩ := hr rfl
    cases e
    refine Sound.park (s := s.setPortq h _)
      (hs.ease (.same rfl) (fun x y hy => ?_) (fun _ => id) rfl) ht hg hb fun _ => ?_
    · by_cases e : x = h
      · subst e
        simp [setPortq, PortQ.mem_join, hy]
      · simpa [setPortq, e] using hy
    · exact ⟨h, hc, rfl, hn, rfl, by simp [setPortq, PortQ.mem_join]⟩
  next hne =>
    refine hs.park ht hg hb fun h => ?_
    obtain ⟨x, -, e, -⟩ := hr h
    exact (hne x h e).elim

end

theorem tryrecv_cases (s : Sched α) (h : Nat) (fits : Bool) :
    s.tryrecv h fits = (.badRight, s) ∨ s.tryrecv h fits = (.empty, s) ∨
    ∃ p m rest, s.rights h = some p ∧ s.queue p = m :: rest ∧
      s.tryrecv h fits = (if fits then .got m else .raised, s.takeOff p m rest fits) := by
  unfold tryrecv
  cases hr : s.rights h with
  | none => exact .inl rfl
  | some p =>
    cases hq : s.queue p with
    | nil => exact .inr (.inl (by simp [hq]))
    | cons m rest => exact .inr (.inr ⟨p, m, rest, rfl, hq, by simp [hq]⟩)

/-! ## Somebody takes it -/

def Waits (s : Sched α) (h t : Nat) : Prop := (s.threads[t]?).any (·.accepts h) = true

theorem waits_iff : s.Waits h t ↔
    ∃ th, s.threads[t]? = some th ∧ th.parked = true ∧ th.parkrec.recv = true ∧
    th.parkrec.port = some h := by
  cases hg : s.threads[t]? <;> simp [Waits, hg, Thread.accepts, and_assoc]

theorem handover_of_waits (hw : s.Waits h t) : s.handover t h m = some (s.modTh t (·.give m)) :=
  if_pos hw

theorem handover_of_not_waits (hw : ¬s.Waits h t) : s.handover t h m = none := if_neg hw

/-- Where a thread of the list is in `recv`, one gets the message, and those that are dropped are
not. -/
theorem deliverList_found {l : List Nat} (hl : ∃ t ∈ l, s.Waits h t) :
    ∃ t l', s.Waits h t ∧ s.deliverList h m l = (l', some (s.modTh t (·.give m))) ∧
      ∀ x ∈ l, s.Waits h x → x = t ∨ x ∈ l' := by
  induction l with
  | nil => obtain ⟨t, ht, -⟩ := hl; cases ht
  | cons t l ih =>
    by_cases hw : s.Waits h t
    · refine ⟨t, l, hw, by simp [deliverList, handover_of_waits hw], fun x hx _ => ?_⟩
      exact mem_cons.mp hx
    · obtain ⟨t', ht', hw'⟩ := hl
      obtain ⟨y, l', hy, e, hd⟩ :=
        ih ⟨t', (mem_cons.mp ht').resolve_left fun e => hw (e ▸ hw'), hw'⟩
      refine ⟨y, l', hy, by simp [deliverList, handover_of_not_waits hw, e], fun x hx hwx => ?_⟩
      exact hd x ((mem_cons.mp hx).resolve_left fun e => hw (e ▸ hwx)) hwx

theorem deliver_found (hl : ∃ t ∈ (s.portq h).threads, s.Waits h t) :
    ∃ t q, s.Waits h t ∧ s.deliver h m = (true, (s.modTh t (·.give m)).setPortq h q) ∧
      ∀ x ∈ (s.portq h).threads, s.Waits h x → x = t ∨ x ∈ q.threads := by
  unfold deliver
  match s.portq h, hl with
  | .one t, ⟨t', ht, hw⟩ =>
    cases mem_singleton.mp ht
    exact ⟨t, .nil, hw, by simp [handover_of_waits hw], fun x hx _ => .inl (mem_singleton.mp hx)⟩
  | .many l, hl =>
    obtain ⟨t, l', hw, e, hd⟩ := deliverList_found (m := m) (l := l) hl
    exact ⟨t, .many l', hw, by simp [e], hd⟩

/-- The loop takes a message only for a port with a thread in `recv` on it. -/
theorem Sound.waits (hs : s.Sound) (hp : s.plain = true) (hh : h ∈ s.gatherports) :
    ∃ t ∈ (s.portq h).threads, s.Waits h t := by
  obtain ⟨th, hth, hg⟩ := mem_flatMap.mp hh
  obtain ⟨hmem, hpk⟩ := mem_filter.mp hth
  obtain ⟨t, ht⟩ := mem_iff_getElem?.mp hmem
  have hf := hs.fit ht hpk
  have hany : th.parkrec.onAny = true := by
    unfold Rec.gathered at hg
    unfold Rec.onAny
    cases hport : th.parkrec.port <;> cases hports : th.parkrec.ports <;> simp_all
  cases hr : th.parkrec.recv with
  | false =>
    have hn := all_eq_true.mp hp th hmem
    rw [hf.nonrecv hr hany] at hn
    cases hn
  | true =>
    obtain ⟨h', -, h1, h2, h3, hq⟩ := hf.recv hr
    have e : h = h' := by simpa [Rec.gathered, h1, h2, h3] using hg
    subst e
    exact ⟨t, hq, waits_iff.mpr ⟨th, ht, hpk, hr, h1⟩⟩

/-- The hand over keeps the tables in step. -/
theorem Sound.give (hs : s.Sound) (hw : s.Waits h t) (ht : s.turn = .sched)
    (hd : ∀ x ∈ (s.portq h).threads, s.Waits h x → x = t ∨ x ∈ q.threads) :
    ((s.modTh t (·.give m)).setPortq h q).Sound where
  fit {t' th'} hg hpk := by
    obtain ⟨th, hg0, ⟨rfl, rfl⟩ | ⟨hne, rfl⟩⟩ := get_modTh_some (s := s) hg
    · cases hpk
    · have hf := hs.fit hg0 hpk
      refine { hf with recv := fun hr => ?_ }
      obtain ⟨h', h1, h2, h3, h4, h5⟩ := hf.recv hr
      refine ⟨h', h1, h2, h3, h4, ?_⟩
      by_cases e : h' = h
      · subst e
        have hx := (hd _ h5 (waits_iff.mpr ⟨_, hg0, hpk, hr, h2⟩)).resolve_left (Ne.symm hne)
        simpa [setPortq] using hx
      · simpa [setPortq, modTh, e] using h5
  turn e := absurd (ht.symm.trans e) nofun
  pending := hs.pending

theorem running_eq_some (hr : s.running = some t) :
    s.turn = .thread t ∧ ∃ th, s.threads[t]? = some th ∧ th.call = .free := by
  unfold running at hr
  split at hr
  next t' ht =>
    obtain ⟨hc, e⟩ := ite_none_right_eq_some.mp hr
    cases e
    cases hg : s.threads[t]? with
    | none => simp [hg] at hc
    | some th => exact ⟨ht, th, rfl, by simpa [hg] using hc⟩
  · cases hr

@[simp] theorem Thread.resumed_mail : th.resumed.parkrec.mail = th.parkrec.mail := by
  unfold Thread.resumed
  split <;> rfl

@[simp] theorem Thread.resumed_dead : th.resumed.dead = th.dead := by
  unfold Thread.resumed
  split <;> rfl

theorem Thread.resumed_parked (hc : th.call ≠ .free) : th.resumed.parked = false := by
  unfold Thread.resumed
  split
  next e => exact absurd e hc
  all_goals rfl

theorem Sound.pop (hs : s.Sound) : s.pop.Sound := by
  unfold Sched.pop
  split
  · exact hs
  next t ring hring =>
  split
  · exact { hs with }
  next hd =>
  have hres {th : Thread α} (hg : s.threads[t]? = some th) : th.resumed.parked = false ∧
      th.resumed.dead = false := by
    have hd' : th.dead = false := by simpa [hg] using hd
    refine ⟨?_, Thread.resumed_dead.trans hd'⟩
    by_cases hc : th.call = .free
    · refine Bool.eq_false_iff.mpr fun hpk => (hs.fit hg ?_).busy hc
      simpa [Thread.resumed, hc] using hpk
    · exact Thread.resumed_parked hc
  constructor
  · intro t' th' hg hpk
    obtain ⟨th, hg0, ⟨rfl, rfl⟩ | ⟨-, rfl⟩⟩ := get_modTh_some hg
    · exact absurd (hpk.symm.trans (hres hg0).1) nofun
    · exact hs.fit hg0 hpk
  · intro t' th' e hg
    obtain ⟨th, hg0, ⟨rfl, rfl⟩ | ⟨hne, -⟩⟩ := get_modTh_some hg
    · exact hres hg0
    · cases e
      exact absurd rfl hne
  · exact hs.pending

/-! ## What a round does -/

/-- What the running thread can do in its call, where nothing is held for a port. Only `recv` looks
at the mailbox, and it looks there first. -/
inductive Round (s : Sched α) (t : Nat) (th : Thread α) : Sched α → Prop
  | mail {m : Msg α} (hm : th.parkrec.mail = some m) :
      Round s t th ((s.modTh t Thread.collect).answer t m)
  | goOn (c : Call) (hm : ∀ h, th.call = .recv h → th.parkrec.mail = none) :
      Round s t th (s.goOn t c)
  | took {p : Nat} {m : Msg α} {rest : List (Msg α)} (hq : s.queue p = m :: rest)
      (hm : ∀ h, th.call = .recv h → th.parkrec.mail = none) :
      Round s t th ((s.takeOff p m rest true).answer t m)
  | raised {p : Nat} {m : Msg α} {rest : List (Msg α)} (hq : s.queue p = m :: rest)
      (hm : ∀ h, th.call = .recv h → th.parkrec.mail = none) :
      Round s t th ((s.takeOff p m rest false).goOn t .free)
  | parkon (port : Option Nat) (ports : Option (List Nat)) (recv : Bool)
      (hr : recv = true → ∃ h, th.call = .recv h ∧ port = some h ∧ ports = none)
      (hm : ∀ h, th.call = .recv h → th.parkrec.mail = none) :
      Round s t th (s.parkonBegin t th.woken port ports recv)
  | parksend (h need : Nat) (hm : ∀ h, th.call = .recv h → th.parkrec.mail = none) :
      Round s t th (s.parksend t th h need)

/-- A look at the port, with the thread's answer where it finds a message, and `f` where it finds
none. -/
theorem Round.look {fits : Bool} {f : Sched α → Sched α}
    (hm : ∀ h, th.call = .recv h → th.parkrec.mail = none) (hf : Round s t th (f s)) :
    Round s t th (match s.tryrecv h fits with
      | (.got m, s') => s'.answer t m
      | (.empty, s') => f s'
      | (_, s') => s'.goOn t .free) := by
  obtain h' | h' | ⟨p, m, rest, -, hq, h'⟩ := s.tryrecv_cases h fits
  · rw [h']
    exact .goOn .free hm
  · rw [h']
    exact hf
  · rw [h']
    cases fits with
    | true => exact .took hq hm
    | false => exact .raised hq hm

theorem recvBody_round (hc : th.call = .recv h) (hp : s.pending h = []) :
    Round s t th (s.recvBody t th h e) := by
  unfold recvBody
  split
  next m hm => exact .mail hm
  next m rest _ hp' => exact absurd (hp.symm.trans hp') nofun
  next hm _ =>
    refine Round.look (f := fun s' => s'.parkonBegin t th.woken (some h) none true)
      (fun _ _ => hm) ?_
    exact .parkon _ _ _ (fun _ => ⟨h, hc, rfl, rfl⟩) fun _ _ => hm

theorem pass_round (hp : ∀ h, s.pending h = []) (hb : th.call ≠ .free) :
    Round s t th (s.pass t th e) := by
  unfold pass
  split
  next hc => exact absurd hc hb
  next h hc => exact recvBody_round hc (hp h)
  next h again hc =>
    have hm : ∀ h, th.call = .recv h → th.parkrec.mail = none := by simp [hc]
    refine Round.look hm ?_
    split
    · exact .goOn _ hm
    split
    · exact .goOn _ hm
    · exact .parkon _ _ _ nofun hm
  next cases left hc =>
    have hm : ∀ h, th.call = .recv h → th.parkrec.mail = none := by simp [hc]
    unfold altBody
    split
    · exact .parkon _ _ _ nofun hm
    · exact .goOn _ hm
    next h left => exact Round.look (f := fun s' => s'.goOn t (.alt cases left)) hm (.goOn _ hm)
  next port ports hc => exact .parkon _ _ _ nofun (by simp [hc])
  next h need hc => exact .parksend h need (by simp [hc])

theorem Sound.round (hs : s.Sound) (ht : s.turn = .thread t) (hg : s.threads[t]? = some th)
    (hb : th.call ≠ .free) (hr : Round s t th s') : s'.Sound := by
  cases hr with
  | mail hm => exact (hs.work (f := Thread.collect) ht fun _ h1 h2 => ⟨h1, h2⟩).answer ht
  | goOn c => exact hs.goOn ht
  | took => exact hs.takeOff.answer ht
  | raised => exact hs.takeOff.goOn ht
  | parkon port ports recv hr => exact hs.parkonBegin ht hg hb hr
  | parksend h need => exact hs.park ht hg hb nofun

/-! ## What a step does -/

theorem legal_pass (hl : s.Legal (.pass e)) :
    ∃ t, s.turn = .thread t ∧ (s.threads[t]? = none ∧ s.step (.pass e) = s ∨
      ∃ th, s.threads[t]? = some th ∧ th.call ≠ .free ∧ s.step (.pass e) = s.pass t th e) := by
  obtain ⟨t, ht, hn⟩ := hl
  refine ⟨t, ht, ?_⟩
  cases hg : s.threads[t]? with
  | none => exact .inl ⟨rfl, by simp [step, ht, hg]⟩
  | some th =>
    refine .inr ⟨th, rfl, fun hc => ?_, by simp [step, ht, hg]⟩
    simp [running, ht, hg, hc] at hn

theorem step_onRunning {f : Nat → Sched α} (hl : s.running.isSome) :
    ∃ t th, s.turn = .thread t ∧ s.threads[t]? = some th ∧ th.call = .free ∧
    s.onRunning f = f t := by
  obtain ⟨t, hr⟩ := isSome_iff_exists.mp hl
  obtain ⟨ht, th, hg, hc⟩ := running_eq_some hr
  exact ⟨t, th, ht, hg, hc, by simp [onRunning, hr]⟩

theorem eased_poll : s.Eased ((s.drainWake order).pollReady polled) :=
  eased_drainWake.trans eased_pollReady

theorem only_poll (s : Sched α) (order polled : List Nat) :
    ∃ l, (s.drainWake order).pollReady polled = { s with threads := l, ring := s.ring ++ order } :=
  only_pollReady (s.drainWake order) polled

theorem Sound.poll (hs : s.Sound) : ((s.drainWake order).pollReady polled).Sound := by
  obtain ⟨l, e⟩ := s.only_poll order polled
  refine hs.ease eased_poll ?_ ?_ ?_
  all_goals rw [e]
  · exact fun _ _ => id
  · exact fun _ => id

/-- The loop comes back with a message: it finds nothing, or cannot receive it, or gives it to a
thread. -/
theorem altTake_cases (fits : Bool) (hs : s.Sound) (hp : s.plain = true) (hh : h ∈ s.gatherports) :
    s.altTake h fits = s ∨
    (∃ p m rest, s.queue p = m :: rest ∧ s.altTake h fits = { s.takeOff p m rest false with turn := .main }) ∨
    ∃ p m rest t q, s.queue p = m :: rest ∧ s.Waits h t ∧
      (∀ x ∈ (s.portq h).threads, s.Waits h x → x = t ∨ x ∈ q.threads) ∧
      s.altTake h fits = ((s.takeOff p m rest true).modTh t (·.give m)).setPortq h q := by
  unfold altTake
  obtain h' | h' | ⟨p, m, rest, -, hq, h'⟩ := s.tryrecv_cases h fits
  · exact .inl (by rw [h'])
  · exact .inl (by rw [h'])
  · rw [h']
    cases fits with
    | false => exact .inr (.inl ⟨p, m, rest, hq, rfl⟩)
    | true =>
      obtain ⟨t, q, hw, e, hd⟩ :=
        deliver_found (s := s.takeOff p m rest true) (m := m) (hs.waits hp hh)
      exact .inr (.inr ⟨p, m, rest, t, q, hq, hw, hd, by simp [runK, e]⟩)

theorem step_ready {h : Option Nat} :
    s.step (.ready h) = s ∨ ∃ f, s.step (.ready h) = s.readyIf f := by
  cases h with
  | some h => exact .inr ⟨(·.on h), rfl⟩
  | none =>
    cases hp : s.plain with
    | true => exact .inl (if_pos hp)
    | false => exact .inr ⟨Rec.onAny, if_neg (by simp [hp])⟩

theorem get_spawn (hg : (s.step .spawn).threads[t]? = some th) :
    s.threads[t]? = some th ∨ th = .new := by
  have hg : (s.threads ++ [Thread.new])[t]? = some th := hg
  rw [List.getElem?_append] at hg
  split at hg
  · exact .inl hg
  · exact .inr (mem_singleton.mp (mem_of_getElem? hg))

theorem Sound.step (hs : s.Sound) (hl : s.Legal a) : (s.step a).Sound := by
  cases a with
  | run | leave => exact hs.ease (.same rfl) (fun _ _ => id) nofun rfl
  | resume order polled => exact hs.poll.pop
  | take h fits =>
    obtain e | ⟨p, m, rest, -, e⟩ | ⟨p, m, rest, t, q, -, hw, hd, e⟩ :=
      altTake_cases fits hs hl.2.1 hl.2.2
    all_goals rw [Sched.step, e]
    · exact hs
    · exact hs.ease (.same rfl) (fun _ _ => id) nofun rfl
    · exact hs.takeOff.give hw hl.1.1 hd
  | ready h =>
    obtain e | ⟨f, e⟩ := step_ready
    all_goals rw [e]
    · exact hs
    · exact hs.ease eased_readyIf (fun _ _ => id) (fun _ => id) rfl
  | cut order polled => exact hs.poll
  | spawn =>
    constructor
    · intro t th hg hpk
      obtain hg | rfl := get_spawn hg
      · exact hs.fit hg hpk
      · cases hpk
    · intro t th ht hg
      obtain hg | rfl := get_spawn hg
      · exact hs.turn ht hg
      · exact ⟨rfl, rfl⟩
    · exact hs.pending
  | nudge t => exact hs.ease eased_modTh_ready (fun _ _ => id) (fun _ => id) rfl
  | yield =>
    obtain ⟨t, th, ht, hg, hc, e⟩ := step_onRunning hl
    rw [Sched.step, e]
    exact hs.ease (.same rfl) (fun _ _ => id) nofun rfl
  | exit =>
    obtain ⟨t, th, ht, hg, hc, e⟩ := step_onRunning hl
    rw [Sched.step, e]
    refine ⟨fun {t' th'} hg' hpk => ?_, nofun, hs.pending⟩
    obtain ⟨th0, hg0, ⟨-, rfl⟩ | ⟨-, rfl⟩⟩ := get_modTh_some hg'
    · cases hpk
    · exact hs.fit hg0 hpk
  | call f =>
    obtain ⟨t, th, ht, hg, hc, e⟩ := step_onRunning (f := fun t => s.goOn t f.call) hl
    rw [Sched.step, e]
    exact hs.goOn ht
  | pass e =>
    obtain ⟨t, ht, ⟨-, e'⟩ | ⟨th, hg, hb, e'⟩⟩ := legal_pass hl
    all_goals rw [e']
    · exact hs
    · exact hs.round ht hg hb (pass_round hs.pending hb)
  | _ => exact { hs with }

/-! ## Mail under way -/

theorem mem_staged : t ∈ s.staged ↔ ∃ th, s.threads[t]? = some th ∧ th.wake = true := by
  unfold staged
  rw [mem_filter, mem_range]
  cases hg : s.threads[t]? with
  | none => simp
  | some th => simpa using fun _ => (List.getElem?_eq_some_iff.mp hg).1

def Idle (s : Sched α) : Prop :=
  ∀ (t : Nat) (th : Thread α), s.threads[t]? = some th → th.parkrec.mail = none

/-- One mailbox holds a message, and its thread is the next to run. -/
structure Coming (s : Sched α) (t : Nat) (m : Msg α) : Prop where
  mail : ∃ (th : Thread α) (h : Nat), s.threads[t]? = some th ∧ th.parkrec.mail = some m ∧
    th.call = .recv h ∧ th.dead = false
  others : ∀ (t' : Nat) (th' : Thread α), s.threads[t']? = some th' → t' ≠ t →
    th'.parkrec.mail = none
  next : s.turn = .thread t ∨
    s.turn = .sched ∧ (s.ring.head? = some t ∨ s.ring = [] ∧ t ∈ s.staged ∧ ∀ x ∈ s.staged, x = t)

theorem Eased.idle (he : s.Eased s') (hi : s.Idle) : s'.Idle := by
  intro t th' hg
  obtain ⟨th, hg0, -, hr, -⟩ := he.thread t th' hg
  exact hr ▸ hi t th hg0

theorem Idle.modTh {f : Thread α → Thread α} (hi : s.Idle)
    (hf : ∀ th : Thread α, th.parkrec.mail = none → (f th).parkrec.mail = none) :
    (s.modTh t f).Idle := by
  intro t' th' hg
  obtain ⟨th, hg0, ⟨-, rfl⟩ | ⟨-, rfl⟩⟩ := get_modTh_some hg
  · exact hf th (hi t' th hg0)
  · exact hi t' _ hg0

section

variable (hc : s.Coming t m)

include hc

theorem Coming.not_asleep : ¬s.Asleep := by
  rintro ⟨ht, hr, hs⟩
  obtain h | ⟨-, h | ⟨-, h, -⟩⟩ := hc.next
  · cases ht.symm.trans h
  · rw [hr] at h
    cases h
  · rw [hs] at h
    cases h

theorem Coming.not_main : s.turn ≠ .main := by
  intro ht
  obtain h | ⟨h, -⟩ := hc.next <;> cases ht.symm.trans h

theorem Coming.not_running : s.running = none := by
  rw [eq_none_iff_forall_ne_some]
  intro t' hr
  obtain ⟨ht, th', hg', hf⟩ := running_eq_some hr
  obtain h | ⟨h, -⟩ := hc.next
  · cases ht.symm.trans h
    obtain ⟨th, x, hg, -, hcall, -⟩ := hc.mail
    cases hg.symm.trans hg'
    cases hf.symm.trans hcall
  · cases ht.symm.trans h

theorem Coming.resume (hl : s.Legal (.resume order polled)) :
    (s.step (.resume order polled)).Coming t m ∧
    (s.step (.resume order polled)).turn = .thread t := by
  obtain ⟨ht, hperm, hne⟩ := hl
  have hhead : (s.ring ++ order).head? = some t := by
    obtain h | ⟨-, h | ⟨h, -, hall⟩⟩ := hc.next
    · cases ht.symm.trans h
    · rw [List.head?_append, h, some_or]
    · rw [h, nil_append] at hne ⊢
      obtain ⟨x, l, rfl⟩ := exists_cons_of_ne_nil hne
      exact congrArg some (hall x (hperm.subset mem_cons_self))
  obtain ⟨ring, hring⟩ := List.head?_eq_some_iff.mp hhead
  obtain ⟨th, h, hg, hm, hcall, hd⟩ := hc.mail
  have he : s.Eased ((s.drainWake order).pollReady polled) := eased_poll
  obtain ⟨th', hg', hcall', hrec', hd'⟩ := he.get hg
  obtain ⟨l, e⟩ := s.only_poll order polled
  show ((s.drainWake order).pollReady polled).pop.Coming t m ∧
    ((s.drainWake order).pollReady polled).pop.turn = _
  generalize hs1 : (s.drainWake order).pollReady polled = s1 at he hg' e ⊢
  have hpop : s1.pop = { s1 with ring := ring, turn := .thread t }.modTh t Thread.resumed := by
    have hr : s1.ring = t :: ring := by rw [e]; exact hring
    simp [pop, hr, hg', hd', hd]
  rw [hpop]
  refine ⟨⟨⟨th'.resumed, h, ?_, ?_, ?_, ?_⟩, ?_, .inl rfl⟩, rfl⟩
  · rw [get_modTh, if_pos rfl, hg']
    rfl
  · rw [Thread.resumed_mail, hrec', hm]
  · simp [Thread.resumed, hcall', hcall, Call.back]
  · rw [Thread.resumed_dead, hd', hd]
  · intro t' th'' hg'' hne
    obtain ⟨th1, hg1, ⟨e, -⟩ | ⟨-, rfl⟩⟩ := get_modTh_some hg''
    · exact absurd e.symm hne
    · obtain ⟨th0, hg0, -, hr, -⟩ := he.thread _ _ hg1
      exact hr ▸ hc.others t' th0 hg0 hne

theorem Coming.pass (hl : s.Legal (.pass e)) :
    (s.step (.pass e)).Idle ∧ (s.step (.pass e)).taken = s.taken ∧
    (s.step (.pass e)).answers = s.answers ++ [⟨t, m⟩] := by
  obtain ⟨th, h, hg, hm, hcall, -⟩ := hc.mail
  obtain ⟨t', ht, hcases⟩ := legal_pass hl
  obtain rfl : t' = t := by
    obtain h' | ⟨h', -⟩ := hc.next <;> cases ht.symm.trans h'
    rfl
  obtain ⟨hn, -⟩ | ⟨th', hg', hb, e'⟩ := hcases
  · cases hg.symm.trans hn
  · cases hg.symm.trans hg'
    have hpass : s.pass t' th e = (s.modTh t' Thread.collect).answer t' m := by
      simp [Sched.pass, hcall, recvBody, hm]
    rw [e', hpass]
    refine ⟨fun x thx hgx => ?_, rfl, rfl⟩
    obtain ⟨th1, hg1, hx⟩ := get_modTh_some (s := s.modTh t' Thread.collect) hgx
    obtain ⟨th0, hg0, ⟨-, rfl⟩ | ⟨hne, rfl⟩⟩ := get_modTh_some hg1
    · obtain ⟨-, rfl⟩ | ⟨-, rfl⟩ := hx <;> rfl
    · obtain ⟨e, -⟩ | ⟨-, rfl⟩ := hx
      · exact absurd e hne
      · exact hc.others x _ hg0 (Ne.symm hne)

end

theorem only_resume (s : Sched α) (order polled : List Nat) :
    ∃ l r u, s.step (.resume order polled) = { s with threads := l, ring := r, turn := u } := by
  obtain ⟨l, e⟩ := s.only_poll order polled
  show ∃ l r u, ((s.drainWake order).pollReady polled).pop = _
  rw [e]
  unfold pop
  split
  · exact ⟨_, _, _, rfl⟩
  · split <;> exact ⟨_, _, _, rfl⟩

/-- While a message is under way nothing else is taken or answered, and its thread answers with it
next. -/
theorem Coming.step (hc : s.Coming t m) (hl : s.Legal a) :
    (s.step a).Coming t m ∧ (s.step a).taken = s.taken ∧ (s.step a).answers = s.answers ∨
    (s.step a).Idle ∧ (s.step a).taken = s.taken ∧ (s.step a).answers = s.answers ++ [⟨t, m⟩] := by
  have hnr : ¬s.running.isSome := by simp [hc.not_running]
  cases a with
  | run => exact absurd hl hc.not_main
  | leave =>
    obtain ⟨-, hd | ha⟩ := hl
    · obtain ⟨th, h, hg, -, -, hd'⟩ := hc.mail
      exact absurd ((all_eq_true.mp hd th (mem_of_getElem? hg)).symm.trans hd') nofun
    · exact absurd ha hc.not_asleep
  | resume order polled =>
    obtain ⟨l, r, u, e⟩ := s.only_resume order polled
    exact .inl ⟨(hc.resume hl).1, by rw [e], by rw [e]⟩
  | take h fits | ready h => exact absurd hl.1 hc.not_asleep
  | cut order polled => exact absurd hl.1 hnr
  | spawn | nudge t => exact absurd (hl.resolve_left hc.not_main) hnr
  | yield | exit | call f => exact absurd hl hnr
  | pass e => exact .inr (hc.pass hl)
  | _ => exact .inl ⟨{ hc with }, rfl, rfl⟩

theorem pop_idle (hi : s.Idle) : s.pop.Idle := by
  unfold pop
  split
  · exact hi
  split
  · exact hi
  · exact Idle.modTh (s := { s with ring := _, turn := _ }) hi fun th h =>
      Thread.resumed_mail.trans h

theorem Thread.settle_mail : th.settle.parkrec.mail = th.parkrec.mail := by
  unfold Thread.settle
  split <;> rfl

theorem Idle.park {woken : Bool} {port : Option Nat} {ports : Option (List Nat)} {recv : Bool}
    {send : Option Nat} (hi : s.Idle) : (s.park t woken port ports recv send).Idle :=
  hi.modTh (f := fun th => (th.mark port ports recv send).settle) fun _ h =>
    Thread.settle_mail.trans h

theorem Idle.round (hi : s.Idle) (hg : s.threads[t]? = some th) (hr : Round s t th s') :
    s'.Idle ∧ (s'.taken = s.taken ∧ s'.answers = s.answers ∨
      ∃ m, s'.taken = s.taken ++ [(m, false)] ∧ s'.answers = s.answers ∨
        s'.taken = s.taken ++ [(m, true)] ∧ s'.answers = s.answers ++ [⟨t, m⟩]) := by
  cases hr with
  | mail hm => exact absurd ((hi t th hg).symm.trans hm) nofun
  | goOn c => exact ⟨hi.modTh fun _ h => h, .inl ⟨rfl, rfl⟩⟩
  | took => exact ⟨hi.modTh fun _ h => h, .inr ⟨_, .inr ⟨rfl, rfl⟩⟩⟩
  | raised => exact ⟨hi.modTh fun _ h => h, .inr ⟨_, .inl ⟨rfl, rfl⟩⟩⟩
  | parkon port ports recv =>
    unfold parkonBegin
    split
    · exact ⟨Idle.park (s := s.setPortq _ _) hi, .inl ⟨rfl, rfl⟩⟩
    · exact ⟨hi.park, .inl ⟨rfl, rfl⟩⟩
  | parksend h need => exact ⟨hi.park, .inl ⟨rfl, rfl⟩⟩

theorem Idle.give (hi : s.Idle) (hs : s.Sound) (ha : s.Asleep) (hw : s.Waits h t) :
    ((s.modTh t (·.give m)).setPortq h q).Coming t m := by
  obtain ⟨th, hg, hpk, hr, -⟩ := waits_iff.mp hw
  have hf := hs.fit hg hpk
  obtain ⟨x, hcall, -⟩ := hf.recv hr
  have hgive : (s.modTh t (·.give m)).threads[t]? = some (th.give m) := by
    rw [get_modTh, if_pos rfl, hg]; rfl
  refine ⟨⟨th.give m, x, hgive, rfl, hcall, hf.alive⟩, fun t' th' hg' hne => ?_, .inr ⟨ha.1, .inr ⟨ha.2.1, ?_, ?_⟩⟩⟩
  · obtain ⟨th0, hg0, ⟨e, -⟩ | ⟨-, rfl⟩⟩ := get_modTh_some hg'
    · exact absurd e.symm hne
    · exact hi t' _ hg0
  · exact mem_staged.mpr ⟨_, hgive, rfl⟩
  · intro y hy
    obtain ⟨thy, hgy, hwake⟩ := mem_staged.mp hy
    obtain ⟨th0, hg0, ⟨e, -⟩ | ⟨-, rfl⟩⟩ := get_modTh_some (s := s) hgy
    · exact e.symm
    · have hmem := mem_staged.mpr ⟨_, hg0, hwake⟩
      rw [ha.2.2] at hmem
      cases hmem

end Sched

/-- Steps that leave the queues alone, and take and answer nothing. -/
def Op.Quiet : Op α → Prop
  | .arrive _ _ | .steal _ | .take _ _ | .pass _ => False
  | _ => True

namespace Sched

theorem step_quiet {a : Op α} (hq : a.Quiet) (hl : s.Legal a) :
    (∃ l r u f, s.step a = { s with threads := l, ring := r, turn := u, rights := f }) ∧
    (s.Idle → (s.step a).Idle) := by
  cases a with
  | arrive | steal | take | pass => cases hq
  | resume order polled =>
    obtain ⟨l, r, u, e⟩ := s.only_resume order polled
    exact ⟨⟨l, r, u, s.rights, e⟩, fun hi => pop_idle (eased_poll.idle hi)⟩
  | ready h =>
    obtain e | ⟨f, e⟩ := step_ready (h := h)
    all_goals rw [e]
    · exact ⟨⟨_, _, _, _, rfl⟩, id⟩
    · exact ⟨⟨_, _, _, _, rfl⟩, eased_readyIf.idle⟩
  | cut order polled =>
    obtain ⟨l, e⟩ := s.only_poll order polled
    exact ⟨⟨l, _, _, _, e⟩, eased_poll.idle⟩
  | spawn =>
    refine ⟨⟨_, _, _, _, rfl⟩, fun hi t th hg => ?_⟩
    obtain hg | rfl := get_spawn hg
    · exact hi t th hg
    · rfl
  | nudge t => exact ⟨⟨_, _, _, _, rfl⟩, eased_modTh_ready.idle⟩
  | yield =>
    obtain ⟨t, -, -, -, -, e⟩ := step_onRunning hl
    rw [Sched.step, e]
    exact ⟨⟨_, _, _, _, rfl⟩, id⟩
  | exit | call f =>
    obtain ⟨t, -, -, -, -, e⟩ := step_onRunning hl
    rw [Sched.step, e]
    exact ⟨⟨_, _, _, _, rfl⟩, fun hi => hi.modTh fun _ h => h⟩
  | _ => exact ⟨⟨_, _, _, _, rfl⟩, id⟩

/-- Where no message is under way, a step takes none, or disposes of it, or answers with it, or
sends it on its way. -/
theorem Idle.step {a : Op α} (hi : s.Idle) (hs : s.Sound) (hl : s.Legal a) :
    (s.step a).Idle ∧ ((s.step a).taken = s.taken ∧ (s.step a).answers = s.answers ∨
      ∃ t m, (s.step a).taken = s.taken ++ [(m, false)] ∧ (s.step a).answers = s.answers ∨
        (s.step a).taken = s.taken ++ [(m, true)] ∧ (s.step a).answers = s.answers ++ [⟨t, m⟩]) ∨
    ∃ t m, (s.step a).Coming t m ∧ (s.step a).taken = s.taken ++ [(m, true)] ∧
    (s.step a).answers = s.answers := by
  have quiet (hq : a.Quiet) : (s.step a).Idle ∧ (s.step a).taken = s.taken ∧
      (s.step a).answers = s.answers := by
    obtain ⟨⟨l, r, u, f, e⟩, h⟩ := step_quiet hq hl
    exact ⟨h hi, by rw [e], by rw [e]⟩
  cases a with
  | arrive p body | steal p => exact .inl ⟨hi, .inl ⟨rfl, rfl⟩⟩
  | take h fits =>
    obtain e | ⟨p, m, rest, -, e⟩ | ⟨p, m, rest, t, q, -, hw, -, e⟩ :=
      altTake_cases fits hs hl.2.1 hl.2.2
    all_goals rw [Sched.step, e]
    · exact .inl ⟨hi, .inl ⟨rfl, rfl⟩⟩
    · exact .inl ⟨hi, .inr ⟨0, m, .inl ⟨rfl, rfl⟩⟩⟩
    · exact .inr ⟨t, m, Idle.give hi hs.takeOff hl.1 hw, rfl, rfl⟩
  | pass e =>
    obtain ⟨t, ht, ⟨-, e'⟩ | ⟨th, hg, hb, e'⟩⟩ := legal_pass hl
    all_goals rw [e']
    · exact .inl ⟨hi, .inl ⟨rfl, rfl⟩⟩
    · obtain ⟨h1, h2 | ⟨m, h2⟩⟩ := hi.round hg (pass_round (e := e) hs.pending hb)
      · exact .inl ⟨h1, .inl h2⟩
      · exact .inl ⟨h1, .inr ⟨t, m, h2⟩⟩
  | right | run | leave | resume | ready | cut | spawn | nudge | yield | exit | call =>
    exact .inl ((quiet trivial).imp_right .inl)

/-! ## The kernel's order -/

/-- The messages that could be received, in the order in which they were taken. -/
def received (s : Sched α) : List (Msg α) := (s.taken.filter (·.2)).map (·.1)

/-- What was taken from a port, and what is left on it, are in the order in which they were queued.
-/
structure Ordered (s : Sched α) : Prop where
  seq : s.arrived.map (·.seq) = List.range s.arrived.length
  port : ∀ p, ∀ m ∈ s.queue p, m.port = p
  order : ∀ p,
    (((s.taken.map (·.1)).filter (·.port = p)) ++ s.queue p).Sublist (s.arrived.filter (·.port = p))

theorem Ordered.boot : (boot : Sched α).Ordered := ⟨rfl, nofun, fun _ => .slnil⟩

theorem Ordered.same (ho : s.Ordered) (hq : s'.queue = s.queue) (ha : s'.arrived = s.arrived)
    (ht : s'.taken = s.taken) : s'.Ordered :=
  ⟨ha ▸ ho.seq, hq ▸ ho.port, by rw [hq, ha, ht]; exact ho.order⟩

theorem Ordered.takeOff {rest : List (Msg α)} (fits : Bool) (ho : s.Ordered)
    (hq : s.queue p = m :: rest) : (s.takeOff p m rest fits).Ordered := by
  have hp : m.port = p := ho.port p m (hq ▸ mem_cons_self)
  refine ⟨ho.seq, fun p' x hx => ?_, fun p' => ?_⟩
  · by_cases e : p' = p
    · subst e
      exact ho.port p' x (hq ▸ mem_cons_of_mem m (by simpa [Sched.takeOff] using hx))
    · exact ho.port p' x (by simpa [Sched.takeOff, e] using hx)
  · have h := ho.order p'
    by_cases e : p' = p
    · subst e
      simpa [Sched.takeOff, hp, hq] using h
    · simpa [Sched.takeOff, e, hp, Ne.symm e] using h

theorem Ordered.arrive {body : α} (ho : s.Ordered) : (s.step (.arrive p body)).Ordered := by
  refine ⟨?_, fun p' x hx => ?_, fun p' => ?_⟩
  · simp [Sched.step, ho.seq, range_succ]
  · by_cases e : p' = p
    · subst e
      obtain h | h := mem_append.mp (show x ∈ s.queue p' ++ [_] by simpa [Sched.step] using hx)
      · exact ho.port p' x h
      · rw [mem_singleton.mp h]
    · exact ho.port p' x (by simpa [Sched.step, e] using hx)
  · have h := ho.order p'
    by_cases e : p' = p
    · subst e
      simpa [Sched.step, filter_append] using h.append (List.Sublist.refl [_])
    · simpa [Sched.step, filter_append, e, Ne.symm e] using h

theorem Ordered.steal (ho : s.Ordered) : (s.step (.steal p)).Ordered := by
  refine ⟨ho.seq, fun p' x hx => ?_, fun p' => ?_⟩
  · by_cases e : p' = p
    · subst e
      exact ho.port p' x (mem_of_mem_tail (by simpa [Sched.step] using hx))
    · exact ho.port p' x (by simpa [Sched.step, e] using hx)
  · have h := ho.order p'
    by_cases e : p' = p
    · subst e
      refine .trans ?_ h
      simpa [Sched.step] using tail_sublist (s.queue p')
    · simpa [Sched.step, e] using h

theorem Ordered.round (ho : s.Ordered) (hr : Round s t th s') : s'.Ordered := by
  cases hr with
  | mail | goOn | parksend => exact ho.same rfl rfl rfl
  | took hq => exact (ho.takeOff true hq).same rfl rfl rfl
  | raised hq => exact (ho.takeOff false hq).same rfl rfl rfl
  | parkon port ports recv =>
    unfold parkonBegin
    split <;> exact ho.same rfl rfl rfl

theorem Ordered.step {a : Op α} (ho : s.Ordered) (hs : s.Sound) (hl : s.Legal a) :
    (s.step a).Ordered := by
  have quiet (hq : a.Quiet) : (s.step a).Ordered := by
    obtain ⟨⟨l, r, u, f, e⟩, -⟩ := step_quiet hq hl
    rw [e]
    exact ho.same rfl rfl rfl
  cases a with
  | arrive p body => exact ho.arrive
  | steal p => exact ho.steal
  | take h fits =>
    obtain e | ⟨p, m, rest, hq, e⟩ | ⟨p, m, rest, t, q, hq, -, -, e⟩ :=
      altTake_cases fits hs hl.2.1 hl.2.2
    all_goals rw [Sched.step, e]
    · exact ho
    · exact (ho.takeOff false hq).same rfl rfl rfl
    · exact (ho.takeOff true hq).same rfl rfl rfl
  | pass e =>
    obtain ⟨t, ht, ⟨-, e'⟩ | ⟨th, hg, hb, e'⟩⟩ := legal_pass hl
    all_goals rw [e']
    · exact ho
    · exact ho.round (pass_round hs.pending hb)
  | right | run | leave | resume | ready | cut | spawn | nudge | yield | exit | call =>
    exact quiet trivial

/-! ## Every message is answered, in order -/

def mails (s : Sched α) : List (Msg α) := s.threads.filterMap (·.parkrec.mail)

theorem Idle.mails (hi : s.Idle) : s.mails = [] := by
  refine filterMap_eq_nil_iff.mpr fun th hth => ?_
  obtain ⟨t, hg⟩ := mem_iff_getElem?.mp hth
  exact hi t th hg

theorem Coming.mails (hc : s.Coming t m) : s.mails = [m] := by
  obtain ⟨th, -, hg, hm, -⟩ := hc.mail
  obtain ⟨hlt, e⟩ := List.getElem?_eq_some_iff.mp hg
  have split : s.threads = s.threads.take t ++ th :: s.threads.drop (t + 1) := by
    rw [← e, getElem_cons_drop, take_append_drop]
  have before : (s.threads.take t).filterMap (·.parkrec.mail) = [] := by
    refine filterMap_eq_nil_iff.mpr fun x hx => ?_
    obtain ⟨i, hi⟩ := mem_iff_getElem?.mp hx
    rw [List.getElem?_take] at hi
    split at hi
    next hlt => exact hc.others i x hi (Nat.ne_of_lt hlt)
    · cases hi
  have behind : (s.threads.drop (t + 1)).filterMap (·.parkrec.mail) = [] := by
    refine filterMap_eq_nil_iff.mpr fun x hx => ?_
    obtain ⟨i, hi⟩ := mem_iff_getElem?.mp hx
    rw [List.getElem?_drop] at hi
    exact hc.others _ x hi (by omega)
  unfold Sched.mails
  rw [split, filterMap_append, filterMap_cons, before, behind, hm]
  rfl

structure Flow (s : Sched α) : Prop where
  sound : s.Sound
  ordered : s.Ordered
  mail : s.Idle ∧ s.received = s.answers.map (·.msg) ∨
    ∃ t m, s.Coming t m ∧ s.received = s.answers.map (·.msg) ++ [m]

theorem received_taken {x : Msg α × Bool} (ht : s'.taken = s.taken ++ [x]) :
    s'.received = s.received ++ if x.2 then [x.1] else [] := by
  unfold received
  rw [ht, filter_append, map_append]
  cases h : x.2 <;> simp [h]

theorem Flow.step {a : Op α} (hf : s.Flow) (hl : s.Legal a) : (s.step a).Flow := by
  refine ⟨hf.sound.step hl, hf.ordered.step hf.sound hl, ?_⟩
  have same (ht : (s.step a).taken = s.taken) : (s.step a).received = s.received := by
    unfold received
    rw [ht]
  obtain ⟨hi, e⟩ | ⟨t, m, hc, e⟩ := hf.mail
  · obtain ⟨hi', ⟨ht, ha⟩ | ⟨t, m, ⟨ht, ha⟩ | ⟨ht, ha⟩⟩⟩ | ⟨t, m, hc, ht, ha⟩ := hi.step hf.sound hl
    · exact .inl ⟨hi', by rw [same ht, ha, e]⟩
    · exact .inl ⟨hi', by rw [received_taken ht, ha, e]; simp⟩
    · exact .inl ⟨hi', by rw [received_taken ht, ha, e]; simp⟩
    · exact .inr ⟨t, m, hc, by rw [received_taken ht, ha, e]; simp⟩
  · obtain ⟨hc', ht, ha⟩ | ⟨hi, ht, ha⟩ := hc.step hl
    · exact .inr ⟨t, m, hc', by rw [same ht, ha, e]⟩
    · exact .inl ⟨hi, by rw [same ht, ha, e]; simp⟩

theorem Flow.boot : (boot : Sched α).Flow := by
  refine ⟨.boot, .boot, .inl ⟨fun t th h => ?_, rfl⟩⟩
  cases List.getElem?_nil.symm.trans h

theorem Run.flow (hr : s.Run) : s.Flow := by
  refine Runs.invariant (I := Flow) (fun h => ?_) Flow.step hr
  cases h
  exact .boot

theorem Coming.comes (hc : s.Coming t m) :
    ∃ l, Runs.Along Legal Sched.step s l ∧
    (l.foldl Sched.step s).answers = s.answers ++ [⟨t, m⟩] := by
  have pass {s : Sched α} (hc : s.Coming t m) (ht : s.turn = .thread t)
      (e : Env) : s.Legal (.pass e) :=
    ⟨t, ht, hc.not_running⟩
  obtain ht | ⟨ht, -⟩ := hc.next
  · have hl := pass hc ht ⟨true, true, true⟩
    exact ⟨[.pass _], ⟨hl, trivial⟩, (hc.pass hl).2.2⟩
  · have hl : s.Legal (.resume s.staged []) := by
      refine ⟨ht, .refl _, fun e => ?_⟩
      obtain ⟨h1, h2⟩ := append_eq_nil_iff.mp e
      exact hc.not_asleep ⟨ht, h1, h2⟩
    obtain ⟨hc', ht'⟩ := hc.resume hl
    have hl' := pass hc' ht' ⟨true, true, true⟩
    obtain ⟨l, r, u, e⟩ := s.only_resume s.staged []
    exact ⟨[.resume s.staged [], .pass _], ⟨hl, hl', trivial⟩, (hc'.pass hl').2.2.trans (by rw [e])⟩

/-- In every state of a proc: what was taken from a port, and what is left on it, are in the order
in which the kernel queued them. The messages that could be received are those of the answers, in
their order, and behind them the one in a mailbox, where there is one; nothing is held in `pending`.
While a message is in a mailbox nothing else is taken, and the next answer is that of its thread,
with the message. -/
theorem mail_in_order (hr : s.Run) : (s.arrived.map (·.seq)).Nodup ∧
    (∀ p, (((s.taken.map (·.1)).filter (·.port = p)) ++ s.queue p).Sublist (s.arrived.filter (·.port = p))) ∧
    s.received = s.answers.map (·.msg) ++ s.mails ∧ (∀ h, s.pending h = []) ∧
    ∀ (t : Nat) (th : Thread α) (m : Msg α), s.threads[t]? = some th → th.parkrec.mail = some m →
      (∀ a, s.Legal a → (s.step a).taken = s.taken ∧
        ((s.step a).answers = s.answers ∧ (s.step a).mails = s.mails ∨ (s.step a).answers = s.answers ++ [⟨t, m⟩])) ∧
      ∃ l, Runs.Along Legal step s l ∧ (l.foldl step s).answers = s.answers ++ [⟨t, m⟩] := by
  have hf := Run.flow hr
  refine ⟨hf.ordered.seq ▸ nodup_range, hf.ordered.order, ?_, hf.sound.pending, fun t th m hg hm => ?_⟩
  · obtain ⟨hi, e⟩ | ⟨t, m, hc, e⟩ := hf.mail
    · rw [hi.mails, append_nil, e]
    · rw [hc.mails, e]
  · obtain ⟨hi, -⟩ | ⟨t', m', hc, -⟩ := hf.mail
    · exact absurd ((hi t th hg).symm.trans hm) nofun
    obtain rfl : t = t' := by
      by_contra hne
      exact absurd ((hc.others t th hg hne).symm.trans hm) nofun
    obtain ⟨th', -, hg', hm', -⟩ := hc.mail
    cases hg.symm.trans hg'
    cases hm.symm.trans hm'
    refine ⟨fun a hl => ?_, hc.comes⟩
    obtain ⟨hc', ht, ha⟩ | ⟨-, ht, ha⟩ := hc.step hl
    · exact ⟨ht, .inl ⟨ha, hc'.mails.trans hc.mails.symm⟩⟩
    · exact ⟨ht, .inr ha⟩

/-- Two threads in `recv` on one port, and two messages: the loop takes the first, and the second
thread, woken by the poll, takes the other. -/
def twoReceivers : List (Op Nat) :=
  [.right 0 (some 7), .spawn, .spawn, .run,
   .resume [0, 1] [], .call (.recv 0), .pass ⟨true, false, false⟩,
   .resume [] [], .call (.recv 0), .pass ⟨true, false, false⟩,
   .arrive 7 10, .arrive 7 20, .take 0 true,
   .resume [0] [0], .pass ⟨true, false, false⟩, .exit,
   .resume [1] [], .pass ⟨true, false, false⟩]

theorem Run.of_along {l : List (Op α)} (hl : Runs.Along Legal step boot l) :
    (l.foldl step boot : Sched α).Run :=
  (Runs.init rfl : Run boot).along hl

theorem twoReceivers_answered : (twoReceivers.foldl step boot).Run ∧
    (twoReceivers.foldl step boot).answers.map (fun a => (a.thread, a.msg.body)) =
      [(0, 10), (1, 20)] ∧ (twoReceivers.foldl step boot).received =
      (twoReceivers.foldl step boot).answers.map (·.msg) ++
        (twoReceivers.foldl step boot).mails := by
  have hr : (twoReceivers.foldl step boot).Run := Run.of_along (by decide)
  exact ⟨hr, by decide, (mail_in_order hr).2.2.1⟩

/-- A message that the proc cannot receive is taken, and no receive call comes back with it. -/
theorem unreadable_lost :
    ∃ s : Sched Nat, s.Run ∧ s.taken = [(⟨7, 0, 10⟩, false)] ∧ s.arrived = [⟨7, 0, 10⟩] ∧
    s.queue 7 = [] ∧ s.answers = [] ∧ s.mails = [] ∧ s.pending 0 = [] := by
  refine ⟨_, Run.of_along (l := [.right 0 (some 7), .spawn, .run, .resume [0] [], .call (.recv 0), .arrive 7 10,
    .pass ⟨false, false, false⟩]) (by decide), ?_⟩
  decide

end Sched

end Nlos.Mail
