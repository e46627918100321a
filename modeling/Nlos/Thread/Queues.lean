import Nlos.Thread.Machine

/-!
# Parked threads and the queues they are in

A thread that is parked is in the queue its call joined, and stays there until somebody takes it
out, who then readies it. `Steady` is this, with every channel sound; each step keeps it.
-/

namespace Nlos.Thread

open Chan Machine List Option

variable {α : Type}

/-! ## Lookups behind an update -/

namespace Machine

variable {s : Machine α} {t c : Nat}

section

variable (s)

theorem getElem?_modify_map {β : Type} (l : List β) (i : Nat) (f : β → β) (j : Nat) :
    (l.modify i f)[j]? = if i = j then (l[j]?).map f else l[j]? := by
  rw [List.getElem?_modify]
  split
  · rfl
  · exact map_id_apply

theorem modTh_threads (t : Nat) (f : Th α → Th α) (j : Nat) :
    (s.modTh t f).threads[j]? = if t = j then (s.threads[j]?).map f else s.threads[j]? :=
  getElem?_modify_map s.threads t f j

theorem modChan_chans (c : Nat) (f : Chan α → Chan α) (j : Nat) :
    (s.modChan c f).chans[j]? = if c = j then (s.chans[j]?).map f else s.chans[j]? :=
  getElem?_modify_map s.chans c f j

@[simp] theorem readyAll_chans (l : List Nat) : (s.readyAll l).chans = s.chans :=
  foldlRecOn (motive := (chans · = s.chans)) l _ rfl fun _ h _ _ => h

@[simp] theorem readyAll_cur (l : List Nat) : (s.readyAll l).cur = s.cur :=
  foldlRecOn (motive := (cur · = s.cur)) l _ rfl fun _ h _ _ => h

@[simp] theorem readyAll_next (l : List Nat) : (s.readyAll l).next = s.next :=
  foldlRecOn (motive := (next · = s.next)) l _ rfl fun _ h _ _ => h

@[simp] theorem readyAll_succeeded (l : List Nat) : (s.readyAll l).succeeded = s.succeeded :=
  foldlRecOn (motive := (succeeded · = s.succeeded)) l _ rfl fun _ h _ _ => h

@[simp] theorem readyAll_failed (l : List Nat) : (s.readyAll l).failed = s.failed :=
  foldlRecOn (motive := (failed · = s.failed)) l _ rfl fun _ h _ _ => h

end

/-- A thread behind some wakes is in the call it was in. It is parked only if it was and nobody woke
it, and has no token only if whoever woke it found it parked. -/
theorem readyAll_threads {l : List Nat} {th' : Th α} (h : (s.readyAll l).threads[t]? = some th') :
    ∃ th, s.threads[t]? = some th ∧ th'.wait = th.wait ∧
    (th'.parked = true → th.parked = true ∧ t ∉ l) ∧
      (th'.woken = false → th.woken = false ∧ (t ∈ l → th.parked = true)) := by
  induction l generalizing s with
  | nil => exact ⟨th', h, rfl, fun hp => ⟨hp, nofun⟩, fun hw => ⟨hw, nofun⟩⟩
  | cons u l ih =>
    obtain ⟨th1, h1, hwait, hp, hw⟩ := ih h
    rw [modTh_threads] at h1
    split at h1
    next hu =>
      obtain ⟨th, hth, rfl⟩ := map_eq_some_iff.mp h1
      refine ⟨th, hth, hwait, fun hpk => absurd (hp hpk).1 nofun, fun hwk => ?_⟩
      have := (hw hwk).1
      cases hpk : th.parked with
      | true =>
        simp only [Th.ready, hpk] at this
        exact ⟨this, fun _ => rfl⟩
      | false =>
        simp only [Th.ready, hpk] at this
        cases this
    next hu =>
      refine ⟨th1, h1, hwait, fun hpk => ⟨(hp hpk).1, ?_⟩, fun hwk => ⟨(hw hwk).1, fun hm => ?_⟩⟩
      · exact not_mem_cons_of_ne_of_not_mem (Ne.symm hu) (hp hpk).2
      · exact (hw hwk).2 ((mem_cons.mp hm).resolve_left (Ne.symm hu))

theorem putChan_chans {ch : Chan α} (hc : s.chans[c]? = some ch) (ch' : Chan α)
    (l : List Nat) (j : Nat) :
    (s.putChan c ch' l).chans[j]? = if c = j then some ch' else s.chans[j]? := by
  rw [putChan, readyAll_chans, modChan_chans]
  split
  next hj =>
    subst hj
    rw [hc]
    rfl
  · rfl

end Machine

/-! ## The invariant -/

/-- The thread `t` is where a thread parked in this call has to be. -/
def Enrolled (chans : List (Chan α)) (t : Nat) : Wait α → Prop
  | .free => False
  | .sending c v rid => ∃ ch, chans[c]? = some ch ∧ ⟨rid, v, some t⟩ ∈ ch.sendq
  | .receiving c _ => ∃ ch w, chans[c]? = some ch ∧ w ∈ ch.recvq ∧ w.co = t
  | .alting cases _ => ∀ c, .recv c ∈ cases → ∃ ch w, chans[c]? = some ch ∧ w ∈ ch.recvq ∧ w.co = t

/-- A thread's own waiters, by the call it is in. -/
def Wait.Owns (t : Nat) : Wait α → Prop
  | .receiving _ (some w) => w.co = t
  | .alting _ m => ∀ x ∈ m, x.2.co = t
  | _ => True

/-- The record of a send is in the queue, or its send is decided. -/
def Wait.Accounted (chans : List (Chan α)) (t : Nat) : Wait α → Prop
  | .sending c v rid =>
    ∃ ch, chans[c]? = some ch ∧ (⟨rid, v, some t⟩ ∈ ch.sendq ∨ ch.Settled ⟨rid, v, some t⟩)
  | _ => True

def Wait.isSending : Wait α → Bool
  | .sending _ _ _ => true
  | _ => false

/-- A thread is where it belongs. One that is parked is in its queue, and so is one that sends and
is about to park: it runs, and has no token. -/
structure Placed (chans : List (Chan α)) (cur : Option Nat) (t : Nat) (th : Th α) : Prop where
  parked : th.parked = true → Enrolled chans t th.wait
  running : cur = some t → th.parked = false
  standing : cur = some t → th.woken = false → th.wait.isSending = true → Enrolled chans t th.wait
  accounted : th.wait.Accounted chans t
  owns : th.wait.Owns t

/-- The channels are sound and have every record once, the threads are where they belong, and what
was said about a send is so. -/
structure Steady (s : Machine α) : Prop where
  sound : ∀ (c : Nat) (ch : Chan α), s.chans[c]? = some ch → ch.Sound
  fresh : ∀ (c : Nat) (ch : Chan α), s.chans[c]? = some ch → ch.Fresh s.next
  placed : ∀ (t : Nat) (th : Th α), s.threads[t]? = some th → Placed s.chans s.cur t th
  went : ∀ x ∈ s.succeeded, ∃ ch, s.chans[x.chan]? = some ch ∧ (x.rid, x.v) ∈ ch.accepted
  barred : ∀ x ∈ s.failed, ∃ ch, s.chans[x.chan]? = some ch ∧ ch.Bars x.rid

theorem steady_boot : Steady (.boot : Machine α) := by
  refine ⟨?_, ?_, ?_, nofun, nofun⟩
  all_goals
    intro _ _ h
    cases h

section Changed

variable {chans chans' : List (Chan α)} {c t : Nat} {ch ch' : Chan α} {l : List Nat} {w : Wait α}

/-- A thread stays enrolled where its records and waiters stay in the queues. -/
theorem Enrolled.imp (h : Enrolled chans t w)
    (hs : ∀ {d : Nat} {v rid}, (∃ x, chans[d]? = some x ∧ ⟨rid, v, some t⟩ ∈ x.sendq) →
      ∃ x, chans'[d]? = some x ∧ ⟨rid, v, some t⟩ ∈ x.sendq)
    (hr : ∀ {d : Nat} {w}, Waiter.co w = t → (∃ x, chans[d]? = some x ∧ w ∈ x.recvq) →
      ∃ x, chans'[d]? = some x ∧ w ∈ x.recvq) : Enrolled chans' t w := by
  have hrecv : ∀ {d : Nat}, (∃ ch w, chans[d]? = some ch ∧ w ∈ ch.recvq ∧ Waiter.co w = t) →
      ∃ ch w, chans'[d]? = some ch ∧ w ∈ ch.recvq ∧ Waiter.co w = t := by
    rintro d ⟨x, w, hx, hm, hco⟩
    obtain ⟨x', hx', hm'⟩ := hr hco ⟨x, hx, hm⟩
    exact ⟨x', w, hx', hm', hco⟩
  cases w with
  | free => exact h
  | sending d v rid => exact hs h
  | receiving d w => exact hrecv h
  | alting cases m => exact fun d hd => hrecv (h d hd)

section

variable (hc : chans[c]? = some ch) (hp : ∀ j, chans'[j]? = if c = j then some ch' else chans[j]?)

include hc hp

/-- What is known of a channel is known of it behind the change of one. -/
theorem exists_put {P : Chan α → Prop} {d : Nat} (hP : P ch → P ch')
    (h : ∃ x, chans[d]? = some x ∧ P x) : ∃ x, chans'[d]? = some x ∧ P x := by
  obtain ⟨x, hx, hPx⟩ := h
  rw [hp]
  split
  next hd =>
    subst hd
    rw [hc] at hx
    cases hx
    exact ⟨ch', rfl, hP hPx⟩
  · exact ⟨x, hx, hPx⟩

/-- A thread stays enrolled where what leaves the queues of a channel is woken, and it is not. -/
theorem Enrolled.wakes (h : Enrolled chans t w) (hw : Wakes ch ch' l) (ht : t ∉ l) :
    Enrolled chans' t w := by
  refine h.imp (exists_put hc hp fun hm => ?_) fun hco => exists_put hc hp fun hm => ?_
  · exact (hw.send _ hm t rfl).resolve_right fun hl => ht hl.1
  · exact (hw.recv _ hm).resolve_right fun hl => ht (hco ▸ hl)

theorem Wait.Accounted.wakes (h : w.Accounted chans t) (hw : Wakes ch ch' l) :
    w.Accounted chans' t := by
  cases w with
  | sending d v rid =>
    refine exists_put hc hp (fun hm => ?_) h
    rcases hm with hm | hm
    · exact (hw.send _ hm t rfl).imp_right And.right
    · exact .inr (hw.settled hm)
  | _ => trivial

end

end Changed

namespace Steady

variable {s s' : Machine α} {t c : Nat} {ch ch' : Chan α} {l : List Nat} {x : Sent α}

section

variable (h : Steady s)

include h

theorem made : Steady s.made :=
  ⟨h.sound, fun c ch hc => (h.fresh c ch hc).mono (Nat.le_succ _), h.placed, h.went, h.barred⟩

theorem succeed (hc : s.chans[x.chan]? = some ch) (hx : (x.rid, x.v) ∈ ch.accepted) :
    Steady (s.succeed x) := by
  refine ⟨h.sound, h.fresh, h.placed, fun y hy => ?_, h.barred⟩
  rcases mem_append.mp hy with hy | hy
  · exact h.went y hy
  · rw [mem_singleton.mp hy]
    exact ⟨ch, hc, hx⟩

theorem fail (hc : s.chans[x.chan]? = some ch) (hx : ch.Bars x.rid) : Steady (s.fail x) := by
  refine ⟨h.sound, h.fresh, h.placed, h.went, fun y hy => ?_⟩
  rcases mem_append.mp hy with hy | hy
  · exact h.barred y hy
  · rw [mem_singleton.mp hy]
    exact ⟨ch, hc, hx⟩

/-- A channel operation. The threads it wakes may run. -/
theorem putChan (hc : s.chans[c]? = some ch) (hs : ch'.Sound) (hf : ch'.Fresh s.next)
    (hw : Wakes ch ch' l) : Steady (s.putChan c ch' l) := by
  have hp := putChan_chans hc ch' l
  refine ⟨fun d x hx => ?_, fun d x hx => ?_, fun t th hth => ?_, fun x hx => ?_, fun x hx => ?_⟩
  · rw [hp] at hx
    split at hx
    · cases hx
      exact hs
    · exact h.sound d x hx
  · rw [hp] at hx
    rw [Machine.putChan, readyAll_next]
    split at hx
    · cases hx
      exact hf
    · exact h.fresh d x hx
  · obtain ⟨th0, h0, hwait, hpk, hwk⟩ := readyAll_threads hth
    have h1 := h.placed t th0 h0
    refine ⟨fun hpd => ?_, fun hcur => ?_, fun hcur hwd hsend => ?_, ?_, ?_⟩
    · rw [hwait]
      exact (h1.parked (hpk hpd).1).wakes hc hp hw (hpk hpd).2
    · rw [Machine.putChan, readyAll_cur] at hcur
      refine Bool.eq_false_iff.mpr fun hpd => ?_
      have := h1.running hcur
      rw [(hpk hpd).1] at this
      cases this
    · rw [Machine.putChan, readyAll_cur] at hcur
      rw [hwait] at hsend ⊢
      refine (h1.standing hcur (hwk hwd).1 hsend).wakes hc hp hw fun hm => ?_
      have := h1.running hcur
      rw [(hwk hwd).2 hm] at this
      cases this
    · rw [hwait]
      exact h1.accounted.wakes hc hp hw
    · rw [hwait]
      exact h1.owns
  · rw [Machine.putChan, readyAll_succeeded] at hx
    exact exists_put hc hp (fun hm => hw.grows hm) (h.went x hx)
  · rw [Machine.putChan, readyAll_failed] at hx
    exact exists_put hc hp (hw.bars x.rid) (h.barred x hx)

/-- One thread is rewritten, and goes on where it belongs. Who runs may change, for it or for
nobody. -/
theorem thread {f : Th α → Th α} (hch : s'.chans = s.chans) (hnx : s'.next = s.next)
    (hok : s'.succeeded = s.succeeded) (hno : s'.failed = s.failed)
    (hth : s'.threads = s.threads.modify t f) (hcur : s'.cur = s.cur ∨ ∀ u, s'.cur = some u → u = t)
    (hf : ∀ th, s.threads[t]? = some th → Placed s.chans s.cur t th →
      Placed s.chans s'.cur t (f th)) : Steady s' := by
  refine ⟨?_, ?_, fun u th hu => ?_, ?_, ?_⟩
  · rw [hch]
    exact h.sound
  · rw [hch, hnx]
    exact h.fresh
  · rw [hth] at hu
    rw [hch]
    rw [show (s.threads.modify t f)[u]? = _ from modTh_threads s t f u] at hu
    split at hu
    next htu =>
      subst htu
      obtain ⟨th0, h0, rfl⟩ := map_eq_some_iff.mp hu
      exact hf th0 h0 (h.placed t th0 h0)
    next htu =>
    have h1 := h.placed u th hu
    rcases hcur with hcur | hcur
    · rw [hcur]
      exact h1
    · exact ⟨h1.parked, fun he => absurd (hcur u he).symm htu,
        fun he => absurd (hcur u he).symm htu, h1.accounted, h1.owns⟩
  · rw [hch, hok]
    exact h.went
  · rw [hch, hno]
    exact h.barred

/-- Only the ring changes, and who runs may stop. -/
theorem turn (ring : List Nat) : Steady { s with ring := ring } :=
  { h with }

theorem rest : Steady { s with cur := none } :=
  ⟨h.sound, h.fresh, fun t th hth => ⟨(h.placed t th hth).parked, nofun, nofun, (h.placed t th hth).accounted,
    (h.placed t th hth).owns⟩, h.went, h.barred⟩

/-- The running thread goes on in another call. -/
theorem goOn (hcur : s.cur = some t) {w : Wait α} (hw : w.Owns t) (ha : w.Accounted s.chans t)
    (hs : w.isSending = true → Enrolled s.chans t w) : Steady (s.goOn t w) := by
  refine h.thread rfl rfl rfl rfl rfl (.inl rfl) fun th _ hp =>
    ⟨fun hpk => ?_, hp.running, fun _ _ => hs, ha, hw⟩
  have hrun := hp.running hcur
  rw [hpk] at hrun
  cases hrun

/-- The running thread leaves its call. -/
theorem free (hcur : s.cur = some t) : Steady (s.goOn t .free) := h.goOn hcur trivial trivial nofun

theorem ready : Steady (s.modTh t Th.ready) := by
  refine h.thread rfl rfl rfl rfl rfl (.inl rfl) fun th _ hp =>
    ⟨nofun, fun _ => rfl, fun hc hw => ?_, hp.accounted, hp.owns⟩
  -- it is not parked if it runs, so the wake left a token
  have : (if th.parked then th.woken else true) = false := hw
  rw [hp.running hc] at this
  cases this

/-- The running thread parks, where it has joined its queue. -/
theorem park {w : Wait α} (he : Enrolled s.chans t w) (hw : w.Owns t) (ha : w.Accounted s.chans t) :
    Steady (s.park t w) :=
  h.thread rfl rfl rfl rfl rfl (.inr nofun) fun _ _ _ => ⟨fun _ => he, nofun, nofun, ha, hw⟩

end

theorem resume (h : Steady { s with cur := none }) (hcur : s.cur = some t)
    (hf : ∀ th, s.threads[t]? = some th → th.wait.isSending = false) :
    Steady (s.modTh t fun th => { th with parked := false }) := by
  refine h.thread rfl rfl rfl rfl rfl (.inr fun u hu => Option.some.inj (hu.symm.trans hcur))
    fun th hth hp =>
    ⟨nofun, fun _ => rfl, fun _ _ hs => ?_, hp.accounted, hp.owns⟩
  rw [hf th hth] at hs
  cases hs

/-- The receivers of a channel change, and whoever leaves is running. -/
theorem receivers (h : Steady s) {f : Chan α → Chan α}
    (hf : ∀ ch, f ch = { ch with recvq := (f ch).recvq })
    (hs : ∀ ch, s.chans[c]? = some ch → (f ch).Sound)
    (hq : ∀ ch, s.chans[c]? = some ch → ∀ w ∈ ch.recvq, w ∈ (f ch).recvq ∨ s.cur = some w.co) :
    Steady (s.modChan c f) := by
  -- behind the change a channel is what it was, but for its receivers
  have hp : ∀ (d : Nat) (x : Chan α), s.chans[d]? = some x → ∃ x',
    (s.modChan c f).chans[d]? = some x' ∧
      x' = { x with recvq := x'.recvq } ∧ ∀ w ∈ x.recvq, w ∈ x'.recvq ∨ s.cur = some w.co := by
    intro d x hx
    rw [modChan_chans]
    split
    next hd =>
      subst hd
      rw [hx]
      exact ⟨f x, rfl, hf x, hq x hx⟩
    · exact ⟨x, hx, rfl, fun w hw => .inl hw⟩
  have hback : ∀ (d : Nat) (x' : Chan α), (s.modChan c f).chans[d]? = some x' →
      ∃ x : Chan α, s.chans[d]? = some x ∧ x' = { x with recvq := x'.recvq } ∧ x'.Sound := by
    intro d x' hx'
    rw [modChan_chans] at hx'
    split at hx'
    next hd =>
      subst hd
      obtain ⟨x, hx, rfl⟩ := map_eq_some_iff.mp hx'
      exact ⟨x, hx, hf x, hs x hx⟩
    · exact ⟨x', hx', rfl, h.sound d x' hx'⟩
  have hlog : ∀ {P : Chan α → Prop} {d : Nat}, (∀ (x : Chan α) q, P x → P { x with recvq := q }) →
      (∃ x, s.chans[d]? = some x ∧ P x) → ∃ x, (s.modChan c f).chans[d]? = some x ∧ P x := by
    rintro P d hP ⟨x, hx, hPx⟩
    obtain ⟨x', hx', heq, -⟩ := hp d x hx
    exact ⟨x', hx', heq ▸ hP x x'.recvq hPx⟩
  refine ⟨fun d x' hx' => ?_, fun d x' hx' => ?_, fun u th hth => ?_, fun x hx => ?_, fun x hx => ?_⟩
  · obtain ⟨x, -, -, hx⟩ := hback d x' hx'
    exact hx
  · obtain ⟨x, hx, heq, -⟩ := hback d x' hx'
    rw [heq]
    exact ⟨(h.fresh d x hx).once, (h.fresh d x hx).made⟩
  · have h1 := h.placed u th hth
    refine ⟨fun hpk => ?_, h1.running, fun hcur hw hse => ?_, ?_, h1.owns⟩
    · have hu : s.cur ≠ some u := fun hcur => by
        rw [h1.running hcur] at hpk
        cases hpk
      refine (h1.parked hpk).imp (hlog fun _ _ hm => hm) ?_
      rintro d w hco ⟨x, hx, hw⟩
      obtain ⟨x', hx', -, hq'⟩ := hp d x hx
      exact ⟨x', hx', (hq' w hw).resolve_right fun hc => hu (hco ▸ hc)⟩
    · have he := h1.standing hcur hw hse
      revert he hse
      cases th.wait with
      | sending d v rid => exact fun _ => hlog fun _ _ hm => hm
      | _ => nofun
    · have ha := h1.accounted
      revert ha
      cases th.wait with
      | sending d v rid => exact hlog fun _ _ hm => hm
      | _ => exact id
  · exact hlog (fun _ _ hm => hm) (h.went x hx)
  · exact hlog (fun _ _ hm => hm) (h.barred x hx)

theorem register (h : Steady s) (he : ∀ ch, s.chans[c]? = some ch → ch.Empty) (w : Waiter) :
    Steady (s.modChan c (·.register w)) :=
  h.receivers (fun _ => rfl) (fun ch hc => (h.sound c ch hc).register (he ch hc) w) fun _ _ _ hx =>
    .inl (mem_append_left _ hx)

theorem unlink (h : Steady s) {w : Waiter} (hcur : s.cur = some w.co) :
    Steady (s.modChan c (·.unlink w)) := by
  refine h.receivers (fun _ => rfl) (fun ch hc => (h.sound c ch hc).unlink w) fun ch _ x hx => ?_
  by_cases hw : x = w
  · exact .inr (hw ▸ hcur)
  · exact .inl ((mem_erase_of_ne hw).mpr hx)

variable {m : List (Nat × Waiter)}

theorem altRegister (h : Steady s)
    (he : ∀ x ∈ m, ∀ ch, s.chans[x.1]? = some ch → ch.Empty) : Steady (s.altRegister m) := by
  induction m generalizing s with
  | nil => exact h
  | cons x m ih =>
    refine ih (h.register (he x mem_cons_self) x.2) fun y hy ch hc => ?_
    rw [modChan_chans] at hc
    split at hc
    · obtain ⟨ch0, h0, rfl⟩ := map_eq_some_iff.mp hc
      exact he y (mem_cons_of_mem _ hy) ch0 h0
    · exact he y (mem_cons_of_mem _ hy) ch hc

theorem altUnregister (h : Steady s) (hcur : s.cur = some t) (ho : ∀ x ∈ m, x.2.co = t) :
    Steady (s.altUnregister m) := by
  induction m generalizing s with
  | nil => exact h
  | cons x m ih =>
    have hx : s.cur = some x.2.co := by rw [ho x mem_cons_self, hcur]
    exact ih (h.unlink hx) hcur fun y hy => ho y (mem_cons_of_mem _ hy)

end Steady

end Nlos.Thread
