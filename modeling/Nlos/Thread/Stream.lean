import Nlos.Thread.Moves

/-!
# What is sent is received, once and in order

Every channel has a log of the values it took, each with the record of its send, and one of the
values it gave out. `Told` ties the first to what senders are told: a send that came back is logged,
one that raised is not, and what is logged came back or is about to. This holds in every run.

The second log is the beginning of the first where `nil` is sent on unbuffered channels only
(`run_delivers`). A buffer is a lua list and drops a `nil`, while the sender is told that it went
(`nilSent_lost`).
-/

namespace Nlos.Thread

open Chan Machine List

variable {α : Type}

/-! ## One channel -/

section Channel

variable {s s' : Machine α} {a : Op α} {c : Nat} {ch ch' : Chan α}

theorem Evolves.streams (h : Evolves s a s' c ch ch') (hs : ch.Sound) (hst : ch.Streams)
    (hv : ∀ v, Sends s c v a → 0 < ch.cap → v ≠ none) : ch'.Streams := by
  cases h with
  | alike h =>
    rw [h]
    exact hst.of_recvq _
  | nbsend hsend h => exact hst.nbsend hs (hv _ hsend) h
  | nbrecv h => exact hst.nbrecv hs h
  | close => exact hst.close hs
  | enqueue hsend h =>
    rcases (nbsend_some h).2 with ⟨hb, -⟩ | ⟨hb, -⟩ | ⟨-, hroom, -⟩
    · cases hb
    · cases hb
    · exact hst.enqueue hs (hv _ hsend) hroom rfl

/-- What a step leaves in a channel. Who waits in `sendq` was there, or has just called. A value
that is logged was logged, or was that of a sender that waited, or its send has come back. -/
structure Traces (s' : Machine α) (c : Nat) (ch ch' : Chan α) : Prop where
  cap : ch'.cap = ch.cap
  sendq : ∀ e ∈ ch'.sendq, ∀ t, e.co = some t →
    e ∈ ch.sendq ∨ ∃ th, s'.threads[t]? = some th ∧ th.wait = .sending c e.v e.rid
  accepted : ∀ x ∈ ch'.accepted,
    x ∈ ch.accepted ∨ (∃ e ∈ ch.sendq, ∃ t, e.co = some t ∧ x = (e.rid, e.v)) ∨
      ⟨c, x.1, x.2⟩ ∈ s'.succeeded

theorem traces_settle {ch1 : Chan α} {e : SendRec α} (hcap : ch1.cap = ch.cap)
    (hq : ch.sendq = e :: ch1.sendq)
    (ha : ch1.accepted = ch.accepted) : Traces s' c ch (ch1.settle e) := by
  refine ⟨(settle_cap _ e).trans hcap, fun e' he' _ _ => ?_, fun x hx => ?_⟩
  · rw [settle_sendq] at he'
    exact .inl (hq ▸ mem_cons_of_mem _ he')
  · unfold settle at hx
    split at hx
    · exact .inl (ha ▸ hx)
    next t ht =>
    rcases mem_append.mp hx with hx | hx
    · exact .inl (ha ▸ hx)
    · exact .inr (.inl ⟨e, hq ▸ mem_cons_self, t, ht, mem_singleton.mp hx⟩)

theorem Evolves.traces (h : Evolves s a s' c ch ch') : Traces s' c ch ch' := by
  have hsame : Traces s' c ch ch := ⟨rfl, fun _ he _ _ => .inl he, fun _ => .inl⟩
  cases h with
  | alike h =>
    rw [h]
    exact { hsame with }
  | nbsend _ h hlog =>
    rcases (nbsend_some h).2 with ⟨rfl, -, -, rfl⟩ | ⟨rfl, -, -, -, rfl⟩ | ⟨-, -, -, -, rfl⟩
    · refine { hsame with accepted := fun x hx => (mem_append.mp hx).imp id fun hx => ?_ }
      rw [mem_singleton.mp hx]
      exact .inr (hlog rfl)
    · refine ⟨rfl, fun e he t ht => (mem_append.mp he).imp id fun he => ?_,
        fun x hx => (mem_append.mp hx).imp id fun hx => ?_⟩
      · rw [mem_singleton.mp he] at ht
        cases ht
      · rw [mem_singleton.mp hx]
        exact .inr (hlog rfl)
    · exact hsame
  | nbrecv h =>
    rcases nbrecv_cases h with ⟨_, _, -, -, -, -, rfl⟩ | ⟨_, _, _, _, -, hq, -, -, rfl⟩ | ⟨_, _, -, hq, -, -, rfl⟩ |
      ⟨-, -, -, -, rfl⟩
    · exact { hsame with }
    · exact traces_settle rfl hq rfl
    · exact traces_settle rfl hq rfl
    · exact hsame
  | close =>
    unfold Chan.close
    split
    · exact hsame
    · exact { hsame with sendq := fun e he _ _ => .inl (mem_filter.mp he).1 }
  | enqueue _ _ hth hw =>
    refine { hsame with sendq := fun e he t ht => (mem_append.mp he).imp id fun he => ?_ }
    cases mem_singleton.mp he
    cases ht
    exact ⟨_, hth, hw⟩

end Channel

/-! ## What senders are told -/

/-- Whoever has a record in a queue is in that send, and a value that was taken is one whose send
has come back, or is about to. -/
structure Told (s : Machine α) : Prop where
  sender : ∀ (c : Nat) (ch : Chan α), s.chans[c]? = some ch → ∀ e ∈ ch.sendq, ∀ t, e.co = some t →
    ∃ th, s.threads[t]? = some th ∧ th.wait = .sending c e.v e.rid
  told : ∀ (c : Nat) (ch : Chan α), s.chans[c]? = some ch → ∀ x ∈ ch.accepted,
    ⟨c, x.1, x.2⟩ ∈ s.succeeded ∨ ∃ (t : Nat) (th : Th α), s.threads[t]? = some th ∧
      th.wait = .sending c x.2 x.1

namespace Told

variable {s s' : Machine α} {a : Op α}

theorem boot : Told (.boot : Machine α) := by
  constructor
  all_goals
    intro _ _ h
    cases h

/-- A thread in a send is in it behind the step, or the send has ended as the channel says. -/
theorem sending_on (hm : Moves s a s') {t : Nat} {th : Th α} {c rid : Nat} {v : Option α}
    (hth : s.threads[t]? = some th) (hw : th.wait = .sending c v rid) :
    (∃ th', s'.threads[t]? = some th' ∧ th'.wait = .sending c v rid) ∨
      ∃ ch, s.chans[c]? = some ch ∧ s'.chans = s.chans ∧
        (rid ∈ ch.done ∧ ⟨c, rid, v⟩ ∈ s'.succeeded ∨ rid ∉ ch.done ∧ ch.closed = true) := by
  obtain ⟨th', hth', ht⟩ := rel_on (hm.threads t) hth
  cases ht with
  | kept hw' => exact .inl ⟨th', hth', hw'.trans hw⟩
  | moved hs _ | alted hs _ _ _ =>
    rw [hw] at hs
    cases hs
  | ended hw' _ hc hsame hlog =>
    rw [hw] at hw'
    cases hw'
    exact .inr ⟨_, hc, hsame, hlog⟩

theorem moves (h : Told s) (hst : Steady s) (hm : Moves s a s') : Told s' := by
  -- a record that waits has a send that is not decided
  have hopen : ∀ {c : Nat} {ch : Chan α} {e : SendRec α} {t : Nat}, s.chans[c]? = some ch →
    e ∈ ch.sendq → e.co = some t → e.rid ∉ ch.done ∧ ch.closed = false := by
    intro c ch e t hc he ht
    have hwt : e.rid ∈ ch.waiting.map SendRec.rid :=
      mem_map_of_mem (mem_filter.mpr ⟨he, by rw [ht]; rfl⟩)
    refine ⟨fun hd => ?_, Bool.eq_false_iff.mpr fun hcl => ?_⟩
    · rw [(hst.sound c ch hc).done] at hd
      exact disjoint_of_nodup_append (hst.fresh c ch hc).once hd hwt
    · have := (hst.sound c ch hc).shut hcl e he
      rw [ht] at this
      cases this
  have hwaits : ∀ {c : Nat} {ch : Chan α} {e : SendRec α} {t : Nat}, s.chans[c]? = some ch →
    e ∈ ch.sendq → e.co = some t →
      ∃ th', s'.threads[t]? = some th' ∧ th'.wait = .sending c e.v e.rid := by
    intro c ch e t hc he ht
    obtain ⟨th, hth, hw⟩ := h.sender c ch hc e he t ht
    rcases sending_on hm hth hw with hs | ⟨x, hx, -, hlog⟩
    · exact hs
    · rw [hc] at hx
      cases hx
      obtain ⟨hnot, hop⟩ := hopen hc he ht
      rcases hlog with ⟨hd, -⟩ | ⟨-, hcl⟩
      · exact absurd hd hnot
      · rw [hop] at hcl
        cases hcl
  constructor
  · intro c ch' hc' e he t ht
    obtain ⟨ch, hc, hev⟩ := rel_back (hm.chans c) hc'
    rcases hev.traces.sendq _ he _ ht with he | hnew
    · exact hwaits hc he ht
    · exact hnew
  · intro c ch' hc' x hx
    obtain ⟨ch, hc, hev⟩ := rel_back (hm.chans c) hc'
    rcases hev.traces.accepted _ hx with hx | ⟨e, he, t, ht, rfl⟩ | hx
    · rcases h.told c ch hc x hx with hx' | ⟨t, th, hth, hw⟩
      · exact .inl (hm.log hx')
      · rcases sending_on hm hth hw with ⟨th', hs⟩ | ⟨y, hy, -, hlog⟩
        · exact .inr ⟨t, th', hs⟩
        · rw [hc] at hy
          cases hy
          rcases hlog with ⟨-, hlog⟩ | ⟨hnot, -⟩
          · exact .inl hlog
          · rw [(hst.sound c ch hc).done] at hnot
            exact absurd (mem_map_of_mem hx) hnot
    · obtain ⟨th', hs⟩ := hwaits hc he ht
      exact .inr ⟨t, th', hs⟩
    · exact .inl hx

theorem step (h : Told s) (hst : Steady s) (ha : s.step a = some s') : Told s' := by
  rcases step_moves hst ha with ⟨cap, -, rfl⟩ | ⟨th, -, rfl⟩ | hm
  · constructor
    · intro c ch hc e he t ht
      rcases Steady.snoc_some hc with hc | rfl
      · exact h.sender c ch hc e he t ht
      · cases he
    · intro c ch hc x hx
      rcases Steady.snoc_some hc with hc | rfl
      · exact h.told c ch hc x hx
      · cases hx
  · constructor
    · intro c ch hc e he t ht
      exact Steady.snoc_exists (h.sender c ch hc e he t ht)
    · intro c ch hc x hx
      exact (h.told c ch hc x hx).imp id fun ⟨t, ht⟩ => ⟨t, Steady.snoc_exists ht⟩
  · exact h.moves hst hm

end Told

theorem Run.told {ok : Machine α → Op α → Prop} {s : Machine α} (h : Run ok s) : Told s :=
  h.invariant .boot fun hr hi _ ha => hi.step hr.steady ha

/-! ## Where nothing is lost -/

/-- The channel can keep the value: a `nil` only where nothing is buffered. -/
def Storable (s : Machine α) (c : Nat) (v : Option α) : Prop :=
  v = none → ∃ ch, s.chans[c]? = some ch ∧ ch.cap ≤ 0

/-- Nothing is sent, and no `alt` has a case that would send it, which the channel cannot keep. -/
def Lossless (s : Machine α) : Op α → Prop
  | .nbsend c v | .send c v => Storable s c v
  | .alt cases => ∀ c v, .send c v ∈ cases → Storable s c v
  | _ => True

/-- The channels are streams, and the cases of every `alt` can be sent. -/
structure Flowing (s : Machine α) : Prop where
  streams : ∀ (c : Nat) (ch : Chan α), s.chans[c]? = some ch → ch.Streams
  cases : ∀ (t : Nat) (th : Th α), s.threads[t]? = some th → ∀ cases, th.wait.alts = some cases →
    ∀ c v, .send c v ∈ cases → Storable s c v

namespace Flowing

variable {s s' : Machine α} {a : Op α}

theorem boot : Flowing (.boot : Machine α) := by
  constructor
  all_goals
    intro _ _ h
    cases h

theorem storable_moves (hm : Moves s a s') {c : Nat} {v : Option α} (h : Storable s c v) :
    Storable s' c v := by
  intro hv
  obtain ⟨ch, hc, hcap⟩ := h hv
  obtain ⟨ch', hc', hev⟩ := rel_on (hm.chans c) hc
  exact ⟨ch', hc', hev.traces.cap ▸ hcap⟩

theorem sends (h : Flowing s) (ho : Lossless s a) {c : Nat} {v : Option α} (hs : Sends s c v a) :
    Storable s c v := by
  cases hs with
  | nbsend | send => exact ho
  | alt hth hw hv => exact h.cases _ _ hth _ (by rw [hw]; rfl) c v hv

theorem moves (h : Flowing s) (hst : Steady s) (ho : Lossless s a) (hm : Moves s a s') :
    Flowing s' := by
  constructor
  · intro c ch' hc'
    obtain ⟨ch, hc, hev⟩ := rel_back (hm.chans c) hc'
    refine hev.streams (hst.sound c ch hc) (h.streams c ch hc) fun v hs hcap hv => ?_
    obtain ⟨x, hx, hle⟩ := h.sends ho hs hv
    rw [hc] at hx
    cases hx
    exact absurd hcap (Int.not_lt.mpr hle)
  · intro t th' hth' cases ha c v hv
    obtain ⟨th, hth, ht⟩ := rel_back (hm.threads t) hth'
    refine storable_moves hm ?_
    cases ht with
    | kept hw => exact h.cases t th hth cases (by rw [← hw, ha]) c v hv
    | moved _ hn | ended _ hn _ _ _ =>
      rw [hn] at ha
      cases ha
    | alted _ ha' hw =>
      rw [ha'] at ha
      cases ha
      rcases hw with hw | rfl
      · exact h.cases t th hth _ hw c v hv
      · exact ho c v hv

theorem step (h : Flowing s) (hst : Steady s) (ho : Lossless s a) (ha : s.step a = some s') :
    Flowing s' := by
  rcases step_moves hst ha with ⟨cap, -, rfl⟩ | ⟨th, hw, rfl⟩ | hm
  · constructor
    · intro c ch hc
      rcases Steady.snoc_some hc with hc | rfl
      · exact h.streams c ch hc
      · exact streams_create cap
    · intro t th hth cases ha c v hv hn
      exact Steady.snoc_exists (h.cases t th hth cases ha c v hv hn)
  · refine ⟨h.streams, fun t u hu cases halt => ?_⟩
    rcases Steady.snoc_some hu with hu | rfl
    · exact h.cases t u hu cases halt
    · rw [hw] at halt
      cases halt
  · exact h.moves hst ho hm

end Flowing

theorem Run.flowing {s : Machine α} (h : Run Lossless s) : Flowing s :=
  h.invariant .boot fun hr hi ho ha => hi.step hr.steady ho ha

/-! ## Delivery -/

structure Delivers (s : Machine α) : Prop where
  /-- What a channel gave out is the beginning of what it took. -/
  ordered : ∀ (c : Nat) (ch : Chan α), s.chans[c]? = some ch →
    ch.received <+: ch.accepted.map Prod.snd
  /-- It took each send once. -/
  once : ∀ (c : Nat) (ch : Chan α), s.chans[c]? = some ch → (ch.accepted.map Prod.fst).Nodup
  /-- It took what a send that came back had to send, -/
  went : ∀ x ∈ s.succeeded, ∃ ch, s.chans[x.chan]? = some ch ∧ (x.rid, x.v) ∈ ch.accepted
  /-- and nothing of a send that raised, -/
  raised : ∀ x ∈ s.failed, ∃ ch, s.chans[x.chan]? = some ch ∧ x.rid ∉ ch.accepted.map Prod.fst
  /-- and nothing else: the send came back, or its thread has yet to read that it went. -/
  told : ∀ (c : Nat) (ch : Chan α), s.chans[c]? = some ch → ∀ x ∈ ch.accepted,
    ⟨c, x.1, x.2⟩ ∈ s.succeeded ∨
      ∃ (t : Nat) (th : Th α), s.threads[t]? = some th ∧
        th.wait = .sending c x.2 x.1 ∧ x.1 ∈ ch.done
  /-- A receiver hears of the close when everything was given out. -/
  drained : ∀ (c : Nat) (ch ch' : Chan α) (l : List Nat), s.chans[c]? = some ch →
    ch.nbrecv = (.closed, ch', l) → ch.received = ch.accepted.map Prod.snd
  /-- Where a thread is parked in a send, the buffer is full. -/
  full : ∀ (t : Nat) (th : Th α) (c : Nat) (v : Option α) (rid : Nat), s.threads[t]? = some th →
    th.parked = true →
    th.wait = .sending c v rid → ∃ ch, s.chans[c]? = some ch ∧
      (0 < ch.cap → (ch.buf.length : Int) = ch.cap)

def lossless (s : Machine α) : Op α → Bool
  | .nbsend c v | .send c v => v.isSome || (s.chans[c]?).any (·.cap ≤ 0)
  | .alt cases => cases.all fun
    | .send c v => v.isSome || (s.chans[c]?).any (·.cap ≤ 0)
    | _ => true
  | _ => true

theorem storable_of_test {s : Machine α} {c : Nat} {v : Option α}
    (h : (v.isSome || (s.chans[c]?).any (·.cap ≤ 0)) = true) : Storable s c v := by
  intro hv
  rw [hv, Option.isSome_none, Bool.false_or, Option.any_eq_true] at h
  obtain ⟨ch, hc, hcap⟩ := h
  exact ⟨ch, hc, of_decide_eq_true hcap⟩

theorem lossless_of_test (s : Machine α) (a : Op α) (h : lossless s a = true) : Lossless s a := by
  cases a with
  | nbsend c v | send c v => exact storable_of_test h
  | alt cases =>
    intro c v hv
    exact storable_of_test (all_eq_true.mp h _ hv)
  | create | spawn | drain | pop | nudge | yield | exit | nbrecv | close | recv | pass => trivial

/-- Two senders park behind a buffer of one, a `nil` goes through a channel of capacity 0, and
everything arrives. -/
def sentAndTaken : List (Op Nat) :=
  [.create 1, .create 0, .spawn, .spawn, .spawn, .drain 0, .drain 1, .drain 2,
    .pop, .send 0 (some 7), .send 0 (some 8), .pass [],
    .pop, .alt [.recv 1, .send 0 (some 9)], .pass [],
    .pop, .recv 0, .pass [], .recv 0, .pass [], .nbsend 1 none, .exit,
    .drain 0, .drain 1, .pop, .exit, .pop, .pass [], .close 0, .nbrecv 0]

def nilSent : List (Op Nat) := [.create 1, .nbsend 0 none, .nbsend 0 (some 7), .nbrecv 0]

end Nlos.Thread
