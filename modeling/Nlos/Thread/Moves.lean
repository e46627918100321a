import Nlos.Thread.Steps

/-!
# What a step does to a channel and to a thread

A step changes one channel at most, by one of the operations, and otherwise only who is in `recvq`.
`Evolves` lists what becomes of a channel, with the send it is for, and `Turned` what becomes of a
thread; `step_moves` says that there is nothing else.
-/

namespace Nlos.Thread

open Chan Machine List

variable {α : Type}

/-! ## Entries of two lists, side by side -/

section Rel

variable {β : Type} {r q : β → β → Prop} {x y z : Option β} {b : β}

theorem rel_on (h : Option.Rel r x y) (hx : x = some b) : ∃ c, y = some c ∧ r b c := by
  subst hx
  cases h with
  | some h => exact ⟨_, rfl, h⟩

theorem rel_back (h : Option.Rel r x y) (hy : y = some b) : ∃ a, x = some a ∧ r a b := by
  subst hy
  cases h with
  | some h => exact ⟨_, rfl, h⟩

theorem rel_refl (hr : ∀ b, r b b) (x : Option β) : Option.Rel r x x := by
  cases x with
  | none => exact .none
  | some b => exact .some (hr b)

theorem rel_imp (h : Option.Rel r x y) (hr : ∀ {b b'}, r b b' → q b b') : Option.Rel q x y := by
  cases h with
  | none => exact .none
  | some h => exact .some (hr h)

theorem rel_modify {f : β → β} (hr : ∀ b, r b b) (hf : ∀ b, r b (f b)) (l : List β) (i j : Nat) :
    Option.Rel r l[j]? (l.modify i f)[j]? := by
  rw [getElem?_modify_map]
  match l[j]? with
  | none =>
    rw [Option.map_none, ite_self]
    exact .none
  | some b =>
    split
    · exact .some (hf b)
    · exact .some (hr b)

theorem rel_trans (hr : ∀ {a b c}, r a b → r b c → r a c) (h1 : Option.Rel r x y)
    (h2 : Option.Rel r y z) : Option.Rel r x z := by
  cases h1 with
  | none => exact h2
  | some h1 =>
    cases h2 with
    | some h2 => exact .some (hr h1 h2)

end Rel

/-! ## Channels -/

/-- The channels differ in their receivers only. -/
def Chan.Alike (ch ch' : Chan α) : Prop := ch' = { ch with recvq := ch'.recvq }

theorem Chan.Alike.refl (ch : Chan α) : Alike ch ch := rfl

theorem Chan.Alike.trans {x y z : Chan α} (h1 : Alike x y) (h2 : Alike y z) : Alike x z := by
  unfold Alike at *
  rw [h2, h1]

inductive Sends (s : Machine α) (c : Nat) (v : Option α) : Op α → Prop where
  | nbsend : Sends s c v (.nbsend c v)
  | send : Sends s c v (.send c v)
  | alt {t : Nat} {th : Th α} {cases : List (Case α)} {m : List (Nat × Waiter)} {ports : List Nat}
      (hth : s.threads[t]? = some th) (hw : th.wait = .alting cases m)
        (hv : .send c v ∈ cases) : Sends s c v (.pass ports)

/-- What a step makes of channel `c`. -/
inductive Evolves (s : Machine α) (a : Op α) (s' : Machine α) (c : Nat) (ch : Chan α) :
    Chan α → Prop where
  | alike {ch' : Chan α} (h : ch.Alike ch') : Evolves s a s' c ch ch'
  | nbsend {v : Option α} {b : Bool} {ch' : Chan α} {l : List Nat} (hv : Sends s c v a)
      (h : ch.nbsend s.next v = some (b, ch', l))
        (hlog : b = true → ⟨c, s.next, v⟩ ∈ s'.succeeded) : Evolves s a s' c ch ch'
  | nbrecv {g : Got α} {ch' : Chan α} {l : List Nat}
      (h : ch.nbrecv = (g, ch', l)) : Evolves s a s' c ch ch'
  | close : Evolves s a s' c ch ch.close.1
  | enqueue {v : Option α} {t : Nat} {th : Th α} {ch' : Chan α} {l : List Nat} (hv : Sends s c v a)
      (h : ch.nbsend s.next v = some (false, ch', l)) (hth : s'.threads[t]? = some th)
      (hw : th.wait = .sending c v s.next) : Evolves s a s' c ch (ch.enqueue ⟨s.next, v, some t⟩).1

/-! ## Threads -/

def Wait.alts : Wait α → Option (List (Case α))
  | .alting cases _ => some cases
  | _ => none

/-- What a step makes of a thread. -/
inductive Turned (s : Machine α) (a : Op α) (s' : Machine α) (t : Nat) (th : Th α) :
    Th α → Prop where
  /-- It stays in its call. It may park, but not in an `alt`. -/
  | kept {th' : Th α} (hw : th'.wait = th.wait)
      (hp : th'.parked = true → th.parked = true ∨ th.wait.alts = none) :
      Turned s a s' t th th'
  /-- It goes on, out of another call than a send, and into another than an `alt`. -/
  | moved {th' : Th α} (hs : th.wait.isSending = false)
      (ha : th'.wait.alts = none) : Turned s a s' t th th'
  /-- Its send is over. -/
  | ended {th' : Th α} {c rid : Nat} {v : Option α} {ch : Chan α} (hw : th.wait = .sending c v rid)
      (ha : th'.wait.alts = none)
      (hc : s.chans[c]? = some ch) (hsame : s'.chans = s.chans)
      (hlog : rid ∈ ch.done ∧ ⟨c, rid, v⟩ ∈ s'.succeeded ∨ rid ∉ ch.done ∧ ch.closed = true) :
        Turned s a s' t th th'
  /-- It is in an `alt`, which it was in or calls. It parks where none of the cases can go. -/
  | alted {th' : Th α} {cases : List (Case α)} (hs : th.wait.isSending = false)
      (ha : th'.wait.alts = some cases)
      (hw : th.wait.alts = some cases ∨ a = .alt cases)
      (hp : th'.parked = true → ∃ ports, a = .pass ports ∧ s.poll ports cases = .nothing) :
        Turned s a s' t th th'

/-- Everything a step does to channels and threads that were there. -/
structure Moves (s : Machine α) (a : Op α) (s' : Machine α) : Prop where
  chans : ∀ c, Option.Rel (Evolves s a s' c) s.chans[c]? s'.chans[c]?
  threads : ∀ t, Option.Rel (Turned s a s' t) s.threads[t]? s'.threads[t]?
  log : s.succeeded ⊆ s'.succeeded

section Pieces

variable {s s1 s' : Machine α} {a : Op α} {t c : Nat} {th : Th α} {ch ch' : Chan α}

theorem evolves_same (h : s'.chans = s.chans) (c : Nat) :
    Option.Rel (Evolves s a s' c) s.chans[c]? s'.chans[c]? := by
  rw [h]
  exact rel_refl (fun _ => .alike rfl) _

theorem evolves_alike (h : ∀ c : Nat, Option.Rel Alike s.chans[c]? s'.chans[c]?) (c : Nat) :
    Option.Rel (Evolves s a s' c) s.chans[c]? s'.chans[c]? :=
  rel_imp (h c) .alike

theorem evolves_put (hc : s.chans[c]? = some ch) (ch' : Chan α)
    (hp : ∀ j, s'.chans[j]? = if c = j then some ch' else s.chans[j]?)
    (he : Evolves s a s' c ch ch') (d : Nat) :
    Option.Rel (Evolves s a s' d) s.chans[d]? s'.chans[d]? := by
  rw [hp]
  split
  next hd =>
    subst hd
    rw [hc]
    exact .some he
  · exact rel_refl (fun _ => .alike rfl) _

theorem alike_modChan {f : Chan α → Chan α} (hf : ∀ ch, Alike ch (f ch))
    (s : Machine α) (d c : Nat) : Option.Rel Alike s.chans[c]? (s.modChan d f).chans[c]? :=
  rel_modify Alike.refl hf s.chans d c

/-- Waiters are put on the queues, or taken off. -/
theorem alike_modChans {f : Nat × Waiter → Chan α → Chan α} (hf : ∀ x ch, Alike ch (f x ch))
    (m : List (Nat × Waiter)) (s : Machine α) (c : Nat) :
    Option.Rel Alike s.chans[c]? (m.foldl (fun s x => s.modChan x.1 (f x)) s).chans[c]? := by
  induction m generalizing s with
  | nil => exact rel_refl Alike.refl _
  | cons x m ih => exact rel_trans Alike.trans (alike_modChan (hf x) s x.1 c) (ih _)

theorem alike_altRegister (m : List (Nat × Waiter)) (s : Machine α) (c : Nat) :
    Option.Rel Alike s.chans[c]? (s.altRegister m).chans[c]? :=
  alike_modChans (f := fun x => (·.register x.2)) (fun _ _ => rfl) m s c

theorem alike_altUnregister (m : List (Nat × Waiter)) (s : Machine α) (c : Nat) :
    Option.Rel Alike s.chans[c]? (s.altUnregister m).chans[c]? :=
  alike_modChans (f := fun x => (·.unlink x.2)) (fun _ _ => rfl) m s c

def Th.Kin (th th' : Th α) : Prop := th'.wait = th.wait ∧ (th'.parked = true → th.parked = true)

def Machine.Kin (s s' : Machine α) : Prop :=
  ∀ t : Nat, Option.Rel Th.Kin s.threads[t]? s'.threads[t]?

theorem Machine.Kin.of_eq (h : s'.threads = s.threads) : Kin s s' := by
  intro t
  rw [h]
  exact rel_refl (fun _ => ⟨rfl, id⟩) _

theorem Machine.Kin.refl (s : Machine α) : Kin s s := of_eq rfl

theorem Machine.Kin.trans (h1 : Kin s s1) (h2 : Kin s1 s') : Kin s s' := fun t =>
  rel_trans (fun h1 h2 => ⟨h2.1.trans h1.1, fun hp => h1.2 (h2.2 hp)⟩) (h1 t) (h2 t)

variable {f : Th α → Th α}

theorem Machine.Kin.modTh (hf : ∀ th : Th α, th.Kin (f th)) (s : Machine α) (t : Nat) :
    Kin s (s.modTh t f) :=
  rel_modify (fun _ => ⟨rfl, id⟩) hf s.threads t

theorem Machine.Kin.readyAll (l : List Nat) (s : Machine α) : Kin s (s.readyAll l) := by
  induction l generalizing s with
  | nil => exact .of_eq rfl
  | cons u l ih => exact (Kin.modTh (f := Th.ready) (fun _ => ⟨rfl, nofun⟩) s u).trans (ih _)

theorem Machine.Kin.putChan (s : Machine α) (c : Nat) (ch : Chan α) (l : List Nat) :
    Kin s (s.putChan c ch l) :=
  (show Kin s (s.modChan c fun _ => ch) from .of_eq rfl).trans (.readyAll l _)

theorem Machine.Kin.nbsend (s : Machine α) (c : Nat) (ch : Chan α) (v : Option α) :
    Kin s (s.nbsend c ch v).2 := by
  unfold Machine.nbsend
  split
  · exact .of_eq rfl
  · exact Kin.putChan s.made _ _ _
  · exact .of_eq rfl

theorem Machine.Kin.nbrecv (s : Machine α) (c : Nat) (ch : Chan α) : Kin s (s.nbrecv c ch).2 :=
  .putChan s _ _ _

theorem Machine.Kin.pollCase {ports : List Nat} {x : Case α}
    (h : s.pollCase ports x = .taken s' ∨ s.pollCase ports x = .raised s') : Kin s s' := by
  rcases pollCase_ends h with rfl | ⟨c, v, ch, -, -, rfl⟩ | ⟨c, ch, -, -, rfl⟩
  · exact .of_eq rfl
  · exact .nbsend s c ch v
  · exact .nbrecv s c ch

theorem Machine.Kin.turned (h : Kin s s1) (ht : s'.threads = s1.threads) (t : Nat) :
    Option.Rel (Turned s a s' t) s.threads[t]? s'.threads[t]? := by
  rw [ht]
  exact rel_imp (h t) fun h => .kept h.1 fun hp => .inl (h.2 hp)

theorem Machine.Kin.turned_modTh (h : Kin s s1) (hth : s.threads[t]? = some th)
    (ht : s'.threads = s1.threads.modify t f)
    (hf : ∀ th1, th.Kin th1 → Turned s a s' t th (f th1)) (u : Nat) :
    Option.Rel (Turned s a s' u) s.threads[u]? s'.threads[u]? := by
  rw [ht, getElem?_modify_map]
  split
  next htu =>
    subst htu
    obtain ⟨th1, h1, hk⟩ := rel_on (h t) hth
    rw [hth, h1]
    exact .some (hf th1 hk)
  · exact rel_imp (h u) fun h => .kept h.1 fun hp => .inl (h.2 hp)

end Pieces

/-! ## Steps -/

section Steps

variable {s s' : Machine α} {a : Op α} {t c : Nat} {th : Th α} {ch : Chan α} {ports : List Nat}

theorem nbsend_log (s : Machine α) (c : Nat) (ch : Chan α) (v : Option α) :
    s.succeeded ⊆ (s.nbsend c ch v).2.succeeded := by
  unfold Machine.nbsend
  split
  · exact List.Subset.refl _
  · show s.succeeded ⊆ (s.made.putChan c _ _).succeeded ++ _
    rw [Machine.putChan, readyAll_succeeded]
    exact subset_append_left _ _
  · exact List.Subset.refl _

theorem putChan_succeeded (s : Machine α) (c : Nat) (ch : Chan α) (l : List Nat) :
    (s.putChan c ch l).succeeded = s.succeeded :=
  readyAll_succeeded _ l

section

variable (hc : s.chans[c]? = some ch)

include hc

variable {v : Option α}

theorem evolves_nbsend (hv : Sends s c v a) (hs : s'.chans = (s.nbsend c ch v).2.chans)
    (hlog : s'.succeeded = (s.nbsend c ch v).2.succeeded) (d : Nat) :
    Option.Rel (Evolves s a s' d) s.chans[d]? s'.chans[d]? := by
  unfold Machine.nbsend at hs hlog
  split at hs
  · exact evolves_same (s := s) hs d
  next ch' l hn =>
    refine evolves_put hc ch' (fun j => ?_) (.nbsend hv hn fun _ => ?_) d
    · rw [hs]
      exact putChan_chans (s := s.made) hc ch' l j
    · simp only [hn] at hlog
      rw [hlog]
      exact mem_append_right _ (mem_singleton.mpr rfl)
  · exact evolves_same hs d

theorem evolves_nbrecv (hs : s'.chans = (s.nbrecv c ch).2.chans) (d : Nat) :
    Option.Rel (Evolves s a s' d) s.chans[d]? s'.chans[d]? := by
  match hn : ch.nbrecv with
  | (g, ch', l) =>
    simp only [Machine.nbrecv, hn] at hs
    refine evolves_put hc ch' (fun j => ?_) (.nbrecv hn) d
    rw [hs]
    exact putChan_chans hc ch' l j

theorem moves_nbsend (hv : Sends s c v a) : Moves s a (s.nbsend c ch v).2 :=
  ⟨evolves_nbsend hc hv rfl rfl, (Kin.nbsend s c ch v).turned rfl, nbsend_log s c ch v⟩

theorem moves_nbrecv : Moves s a (s.nbrecv c ch).2 := by
  refine ⟨evolves_nbrecv hc rfl, (Kin.nbrecv s c ch).turned rfl, ?_⟩
  unfold Machine.nbrecv
  rw [putChan_succeeded]
  exact List.Subset.refl _

end

section

variable (hth : s.threads[t]? = some th)

include hth

theorem moves_send {v : Option α} (hw : th.wait = .free)
    (hc : s.chans[c]? = some ch) : Moves s (.send c v) (s.send t c ch v) := by
  have hst := moves_nbsend (v := v) hc .send
  match hn : s.nbsend c ch v with
  | (some false, s') =>
    simp only [Machine.send, hn]
    obtain ⟨ch1, l1, hn'⟩ : ∃ ch1 l1, ch.nbsend s.next v = some (false, ch1, l1) := by
      unfold Machine.nbsend at hn
      split at hn
      · cases hn
      · cases hn
      next ch1 l1 hn' => exact ⟨ch1, l1, hn'⟩
    have hk : Kin s (s.made.putChan c (ch.enqueue ⟨s.next, v, some t⟩).1 (ch.enqueue ⟨s.next, v, some t⟩).2) :=
      (show Kin s s.made from .of_eq rfl).trans (.putChan _ _ _ _)
    refine ⟨?_, ?_, ?_⟩
    · -- the thread is in the call behind the step
      obtain ⟨th1, h1, -⟩ := rel_on (hk t) hth
      refine evolves_put hc _ (fun j => putChan_chans (s := s.made) hc _ _ j) (.enqueue .send hn' ?_
        (show ({ th1 with wait := .sending c v s.next } : Th α).wait = _ from rfl))
      rw [Machine.goOn, modTh_threads, if_pos rfl, h1]
      rfl
    · refine hk.turned_modTh hth rfl fun u _ => .moved ?_ rfl
      rw [hw]
      rfl
    · show s.succeeded ⊆ (s.made.putChan c _ _).succeeded
      rw [putChan_succeeded]
      exact List.Subset.refl _
  | (none, s') | (some true, s') =>
    rw [hn] at hst
    simp only [Machine.send, hn]
    exact hst

variable {rid : Nat}

theorem moves_chansendK {v : Option α} {s1 : Machine α} {g : Th α → Th α}
    (hw : th.wait = .sending c v rid) (hc : s.chans[c]? = some ch) (hch : s1.chans = s.chans)
    (hths : s1.threads = s.threads.modify t g) (hg : ∀ u : Th α, u.Kin (g u))
    (hlog : s1.succeeded = s.succeeded) : Moves s a (s1.chansendK t c v rid ch) := by
  have hfree : s1.threads.modify t (fun u => { u with wait := .free }) =
      s.threads.modify t fun u => { g u with wait := .free } := by
    rw [hths]
    exact modify_modify_eq _ _ t s.threads
  unfold Machine.chansendK
  split
  next hd =>
    refine ⟨evolves_same hch, (Kin.refl s).turned_modTh hth hfree fun u _ => .ended hw rfl hc hch (.inl ⟨hd, ?_⟩), ?_⟩
    · exact mem_append_right _ (mem_singleton.mpr rfl)
    · show s.succeeded ⊆ s1.succeeded ++ _
      rw [hlog]
      exact subset_append_left _ _
  next hd =>
    split
    next hcl =>
      refine ⟨evolves_same hch,
        (Kin.refl s).turned_modTh hth hfree fun u _ => .ended hw rfl hc hch (.inr ⟨hd, hcl⟩), ?_⟩
      show s.succeeded ⊆ s1.succeeded
      rw [hlog]
      exact List.Subset.refl _
    · refine ⟨evolves_same hch, (Kin.modTh hg s t).turned hths, ?_⟩
      rw [hlog]
      exact List.Subset.refl _

theorem moves_chansendPass {v : Option α}
    (hw : th.wait = .sending c v rid) (hc : s.chans[c]? = some ch) :
    Moves s a (s.chansendPass t th c v rid ch) := by
  unfold Machine.chansendPass
  split
  · exact moves_chansendK hth hw hc rfl rfl (fun _ => ⟨rfl, id⟩) rfl
  refine ⟨evolves_same rfl, (Kin.refl s).turned_modTh hth rfl fun u _ => ?_, List.Subset.refl _⟩
  exact .kept hw.symm fun _ => .inr (by rw [hw]; rfl)

theorem moves_chanrecvPass {w : Option Waiter} (hw : th.wait = .receiving c w)
    (hc : s.chans[c]? = some ch) : Moves s a (s.chanrecvPass t th c ch) := by
  -- whatever else becomes of the thread, it is not in an `alt`
  have hgo : ∀ {s1 s' : Machine α} {f : Th α → Th α}, Kin s s1 →
    s'.threads = s1.threads.modify t f →
      (∀ u, (f u).wait.alts = none ∨ (f u).wait = u.wait) → ∀ u,
        Option.Rel (Turned s a s' u) s.threads[u]? s'.threads[u]? := by
    intro s1 s' f hk hs hf
    refine hk.turned_modTh hth hs fun u1 hku => .moved ?_ ?_
    · rw [hw]
      rfl
    · rcases hf u1 with h | h
      · exact h
      · rw [h, hku.1, hw]
        rfl
  match hn : s.nbrecv c ch with
  | (.nothing, s') =>
    simp only [Machine.chanrecvPass, hn]
    split
    · refine ⟨evolves_alike fun d => ?_, hgo (Kin.refl s) rfl fun _ => .inr rfl, List.Subset.refl _⟩
      exact rel_trans Alike.trans (alike_modChan (f := (·.register _)) (fun _ => rfl) s c d)
        (alike_modChan (f := (·.unlink _)) (fun _ => rfl) _ c d)
    · refine ⟨evolves_alike fun d => ?_, hgo (Kin.refl s) rfl fun _ => .inl rfl, List.Subset.refl _⟩
      exact alike_modChan (f := (·.register _)) (fun _ => rfl) s c d
  | (.value v, s') | (.closed, s') =>
    have hk := Kin.nbrecv s c ch
    have hst := moves_nbrecv (a := a) hc
    rw [hn] at hst hk
    simp only [Machine.chanrecvPass, hn]
    refine ⟨fun d => ?_, hgo hk rfl fun _ => .inl rfl, hst.log⟩
    refine evolves_nbrecv hc ?_ d
    rw [hn]
    rfl

theorem moves_altPass {cases : List (Case α)} {m : List (Nat × Waiter)}
    (hw : th.wait = .alting cases m) : Moves s (.pass ports) (s.altPass t th ports cases) := by
  have hsend : th.wait.isSending = false := by rw [hw]; rfl
  have hends : ∀ {r s'}, s.poll ports cases = r → r = .taken s' ∨ r = .raised s' →
      Moves s (.pass ports) (s'.goOn t .free) := by
    intro r s' hr hr'
    obtain ⟨x, hx, hpoll⟩ := poll_ends hr (by rcases hr' with rfl | rfl <;> nofun)
    rw [← hpoll] at hr'
    refine ⟨fun d => ?_, (Kin.pollCase hr').turned_modTh hth rfl fun _ _ => .moved hsend rfl, ?_⟩
    · rcases pollCase_ends hr' with rfl | ⟨c, v, ch, rfl, hc, rfl⟩ | ⟨c, ch, rfl, hc, rfl⟩
      · refine evolves_same ?_ d
        rfl
      · refine evolves_nbsend hc (.alt hth hw hx) ?_ ?_ d <;> rfl
      · refine evolves_nbrecv hc ?_ d
        rfl
    · rcases pollCase_ends hr' with rfl | ⟨c, v, ch, rfl, hc, rfl⟩ | ⟨c, ch, rfl, hc, rfl⟩
      · exact List.Subset.refl _
      · exact nbsend_log s c ch v
      · exact (moves_nbrecv (a := .pass ports) hc).log
  unfold Machine.altPass
  split
  next s' hp => exact hends hp (.inl rfl)
  next s' hp => exact hends hp (.inr rfl)
  next hp =>
    split
    · refine ⟨evolves_alike fun d => rel_trans Alike.trans (alike_altRegister (marks t 1 cases) s d) ?_, ?_, ?_⟩
      · exact alike_altUnregister _ ((s.altRegister _).unwake t) d
      · refine (Kin.of_eq (modChans_threads s (marks t 1 cases) _)).turned_modTh hth
          (modChans_threads _ _ _) fun u1 hku => ?_
        exact .kept hku.1 fun hpk => .inl (hku.2 hpk)
      · rw [altUnregister, modChans_succeeded]
        show s.succeeded ⊆ (s.altRegister _).succeeded
        rw [altRegister, modChans_succeeded]
        exact List.Subset.refl _
    · refine ⟨evolves_alike fun d => alike_altRegister _ s d, ?_, ?_⟩
      · refine (Kin.of_eq (modChans_threads s _ _)).turned_modTh hth rfl fun _ _ => ?_
        exact .alted hsend rfl (.inl (by rw [hw]; rfl)) fun _ => ⟨ports, rfl, hp⟩
      · show s.succeeded ⊆ (s.altRegister _).succeeded
        rw [altRegister, modChans_succeeded]
        exact List.Subset.refl _

theorem moves_pass (hp : s.pass ports t th = some s') : Moves s (.pass ports) s' := by
  unfold Machine.pass at hp
  split at hp
  · cases hp
  next c v rid hw =>
    obtain ⟨ch, hc, hp⟩ := onChan_some hp
    cases hp
    exact moves_chansendPass hth hw hc
  next c w hw =>
    obtain ⟨ch, hc, hp⟩ := onChan_some hp
    cases hp
    exact moves_chanrecvPass hth hw hc
  next cases m hw =>
    cases hp
    exact moves_altPass hth hw

theorem moves_resumed (ring : List Nat) :
    Moves s .pop ({ s with ring := ring, cur := some t }.resumed t th) := by
  have hk : Kin s (s.modTh t fun th => { th with parked := false }) :=
    .modTh (f := fun th => { th with parked := false })
      (fun _ => ⟨rfl, (absurd · Bool.false_ne_true)⟩) s t
  unfold Machine.resumed
  split
  · exact ⟨evolves_same rfl, hk.turned rfl, List.Subset.refl _⟩
  next c v rid hw =>
    split
    · exact ⟨evolves_same rfl, hk.turned rfl, List.Subset.refl _⟩
    next ch hc =>
      exact moves_chansendK hth hw hc rfl rfl (fun _ => ⟨rfl, (absurd · Bool.false_ne_true)⟩) rfl
  · exact ⟨evolves_same rfl, hk.turned rfl, List.Subset.refl _⟩
  next c w hw =>
    refine ⟨evolves_alike fun d => alike_modChan (f := (·.unlink w)) (fun _ => rfl) s c d, ?_, List.Subset.refl _⟩
    refine hk.turned_modTh hth rfl fun _ _ => .moved ?_ rfl
    rw [hw]
    rfl
  next cases m hw =>
    refine ⟨evolves_alike fun d => ?_, ?_, ?_⟩
    · exact alike_altUnregister m ({ s with ring := ring, cur := some t }.modTh t _) d
    · refine (Kin.refl s).turned_modTh hth
        (f := fun u => { u with wait := .alting cases [], parked := false }) ?_ fun _ _ => ?_
      · show (Machine.altUnregister _ m).threads.modify t _ = _
        rw [altUnregister, modChans_threads]
        exact modify_modify_eq _ _ t s.threads
      · exact .alted (by rw [hw]; rfl) rfl (.inl (by rw [hw]; rfl)) (absurd · Bool.false_ne_true)
    · show s.succeeded ⊆ (Machine.altUnregister _ m).succeeded
      rw [altUnregister, modChans_succeeded]
      exact List.Subset.refl _

end

/-- What a step does: it adds a channel, or a thread, or does something to those there are. -/
theorem step_moves (hst : Steady s) (ha : s.step a = some s') :
    (∃ cap, a = .create cap ∧ s' = { s with chans := s.chans ++ [Chan.create cap] }) ∨
      (∃ th : Th α, th.wait = .free ∧ s' = { s with threads := s.threads ++ [th] }) ∨
      Moves s a s' := by
  cases a with
  | create cap =>
    cases ha
    exact .inl ⟨cap, rfl, rfl⟩
  | spawn =>
    cases ha
    exact .inr (.inl ⟨_, rfl, rfl⟩)
  | drain t =>
    simp only [Machine.step] at ha
    split at ha
    · cases ha
    · obtain ⟨-, ha⟩ := Option.ite_none_right_eq_some.mp ha
      cases ha
      exact .inr
        (.inr
          ⟨evolves_same rfl,
            (Kin.modTh (f := fun th => { th with wake := false }) (fun _ => ⟨rfl, id⟩) s t).turned
              rfl, List.Subset.refl _⟩)
  | pop =>
    simp only [Machine.step] at ha
    split at ha
    next t ring hcur _ =>
      split at ha
      · cases ha
      next th hth =>
        cases ha
        refine .inr (.inr ?_)
        split
        · exact ⟨evolves_same rfl, (Kin.of_eq rfl : Kin s s).turned rfl, List.Subset.refl _⟩
        · exact moves_resumed hth ring
    · cases ha
  | nudge t =>
    cases ha
    exact .inr
      (.inr
        ⟨evolves_same rfl,
          (Kin.modTh (f := Th.ready) (fun _ => ⟨rfl, (absurd · Bool.false_ne_true)⟩) s t).turned
            rfl, List.Subset.refl _⟩)
  | yield =>
    obtain ⟨t, th, -, -, -, rfl⟩ := onCall_some ha
    exact .inr (.inr ⟨evolves_same rfl, (Kin.of_eq rfl : Kin s s).turned rfl, List.Subset.refl _⟩)
  | exit =>
    obtain ⟨t, th, -, -, -, rfl⟩ := onCall_some ha
    exact .inr (.inr ⟨evolves_same rfl,
      (Kin.modTh (f := fun th => { th with parked := false, dead := true })
        (fun _ => ⟨rfl, (absurd · Bool.false_ne_true)⟩) s t).turned rfl,
      List.Subset.refl _⟩)
  | nbsend c v =>
    obtain ⟨ch, hc, ha⟩ := onChan_some ha
    cases ha
    exact .inr (.inr (moves_nbsend hc .nbsend))
  | nbrecv c =>
    obtain ⟨ch, hc, ha⟩ := onChan_some ha
    cases ha
    exact .inr (.inr (moves_nbrecv hc))
  | close c =>
    obtain ⟨ch, hc, ha⟩ := onChan_some ha
    cases ha
    refine .inr
      (.inr ⟨evolves_put hc _ (putChan_chans hc _ _) .close, (Kin.putChan s c _ _).turned rfl, ?_⟩)
    rw [putChan_succeeded]
    exact List.Subset.refl _
  | send c v =>
    obtain ⟨ch, hc, ha⟩ := onChan_some ha
    obtain ⟨t, th, -, hth, hw, rfl⟩ := onCall_some ha
    exact .inr (.inr (moves_send hth hw hc))
  | recv c =>
    obtain ⟨ch, hc, ha⟩ := onChan_some ha
    obtain ⟨t, th, -, hth, hw, rfl⟩ := onCall_some ha
    refine .inr
      (.inr ⟨evolves_same rfl, (Kin.refl s).turned_modTh hth rfl fun _ _ => .moved ?_ rfl,
        List.Subset.refl _⟩)
    rw [hw]
    rfl
  | alt cases =>
    obtain ⟨t, th, hcur, hth, hw, rfl⟩ := onCall_some ha
    refine .inr (.inr ⟨evolves_same rfl, (Kin.refl s).turned_modTh hth rfl fun _ hku => ?_, List.Subset.refl _⟩)
    refine .alted (by rw [hw]; rfl) rfl (.inr rfl) fun hp => ?_
    have := (hst.placed t th hth).running hcur
    rw [hku.2 hp] at this
    cases this
  | pass ports =>
    obtain ⟨t, th, -, hth, hp⟩ := onCur_some ha
    exact .inr (.inr (moves_pass hth hp))

end Steps

end Nlos.Thread
