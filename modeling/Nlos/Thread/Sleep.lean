import Nlos.Thread.Stream

/-!
# Nobody sleeps on what they could do

A thread that is parked in a receive, or in an `alt` for one of its receive cases, is in a queue of
a channel that is open and has nothing to give; one parked in a send is in a queue of a channel that
is open, has no room and no receiver. So no sender and receiver of one channel are parked at once.

An `alt` joins no queue for its send cases. Whether they can go is looked at when the `alt` parks,
and a receiver that comes later does not wake it (`altSend_sleeps`).
-/

namespace Nlos.Thread

open Chan Machine

variable {α : Type}

/-- The thread waits to receive on channel `c`. -/
def Wait.Receives (c : Nat) : Wait α → Prop
  | .receiving d _ => d = c
  | .alting cases _ => .recv c ∈ cases
  | _ => False

/-- The case can go at once. One that names no channel raises, which ends the `alt` too. -/
def Case.CanGo (s : Machine α) (ports : List Nat) : Case α → Prop
  | .port h => h ∈ ports
  | .send c _ => ∀ ch, s.chans[c]? = some ch →
    ch.closed = true ∨ (ch.buf.length : Int) < ch.cap ∨ ch.cap = 0 ∧ ch.recvq ≠ []
  | .recv c => ∀ ch, s.chans[c]? = some ch → ¬ch.Empty

/-- No parked thread could go on, were it not for the send cases of an `alt`. -/
structure Wakeful (s : Machine α) : Prop where
  /-- A thread that waits to receive is parked on a channel that is open and has nothing. -/
  recv : ∀ (t : Nat) (th : Th α) (c : Nat), s.threads[t]? = some th → th.parked = true →
    th.wait.Receives c →
    ∃ ch, s.chans[c]? = some ch ∧ ch.buf = [] ∧ ch.sendq = [] ∧ ch.closed = false
  /-- A thread in a send is parked on a channel that is open and has no room and no receiver. -/
  send : ∀ (t : Nat) (th : Th α) (c : Nat) (v : Option α) (rid : Nat), s.threads[t]? = some th →
    th.parked = true → th.wait = .sending c v rid →
      ∃ ch, s.chans[c]? = some ch ∧ ¬(ch.buf.length : Int) < ch.cap ∧ ch.recvq = [] ∧
        ch.closed = false
  /-- No two threads are parked, one in a send and the other to receive, on one channel. -/
  apart : ∀ (t u : Nat) (th x : Th α) (c : Nat) (v : Option α) (rid : Nat),
    s.threads[t]? = some th → th.parked = true →
    th.wait = .sending c v rid → s.threads[u]? = some x → x.parked = true → ¬x.wait.Receives c
  /-- An `alt` parks where none of its cases can go, send cases included. -/
  parks : ∀ (a : Op α) (s' : Machine α) (t : Nat) (th th' : Th α) (cases : List (Case α)),
    s.step a = some s' →
    s.threads[t]? = some th → th.parked = false → s'.threads[t]? = some th' → th'.parked = true →
      th'.wait.alts = some cases → ∃ ports, a = .pass ports ∧ ∀ x ∈ cases, ¬x.CanGo s ports

section Parked

variable {s : Machine α} {t c : Nat} {th : Th α}

theorem pollCase_stuck {ports : List Nat} {x : Case α} (h : s.pollCase ports x = .nothing) :
    ¬x.CanGo s ports := by
  intro hgo
  cases x with
  | port p =>
    simp only [pollCase] at h
    rw [if_pos (show p ∈ ports from hgo)] at h
    cases h
  | recv d =>
    obtain ⟨ch, hc, he⟩ := pollCase_recv h
    exact hgo ch hc he
  | send d v =>
    simp only [pollCase] at h
    split at h
    · cases h
    next ch hc =>
      simp only [Machine.nbsend] at h
      cases hn : ch.nbsend s.next v with
      | none =>
        rw [hn] at h
        cases h
      | some r =>
        obtain ⟨_ | _, ch', l⟩ := r
        · obtain ⟨hopen, hn⟩ := nbsend_some hn
          rcases hn with ⟨hb, -⟩ | ⟨hb, -⟩ | ⟨-, hroom, hmeet, -⟩
          · cases hb
          · cases hb
          · rcases hgo ch hc with hcl | hr | hm
            · rw [hopen] at hcl
              cases hcl
            · exact hroom hr
            · exact hmeet hm
        · rw [hn] at h
          cases h

variable (h : Steady s) (hth : s.threads[t]? = some th) (hp : th.parked = true)

include h hth hp

/-- Whoever waits to receive is in the queue of the channel. -/
theorem Steady.waiter (hr : th.wait.Receives c) :
    ∃ ch w, s.chans[c]? = some ch ∧ w ∈ ch.recvq ∧ w.co = t := by
  have he := (h.placed t th hth).parked hp
  revert he hr
  cases th.wait with
  | receiving d w =>
    rintro rfl he
    exact he
  | alting cases m => exact fun hr he => he c hr
  | free | sending => nofun

theorem Steady.recv_empty (hr : th.wait.Receives c) : ∃ ch, s.chans[c]? = some ch ∧ ch.Empty := by
  obtain ⟨ch, w, hc, hw, -⟩ := h.waiter hth hp hr
  exact ⟨ch, hc, (h.sound c ch hc).idle (List.ne_nil_of_mem hw)⟩

/-- The record of a parked send is in the queue of the channel. -/
theorem Steady.sender {v : Option α} {rid : Nat} (hw : th.wait = .sending c v rid) :
    ∃ ch, s.chans[c]? = some ch ∧ ⟨rid, v, some t⟩ ∈ ch.sendq := by
  have he := (h.placed t th hth).parked hp
  rw [hw] at he
  exact he

end Parked

/-- In every run that sends no `nil` on a buffered channel, nobody sleeps on what they could do, but
for the send cases of an `alt`. -/
theorem run_wakeful {s : Machine α} (h : Run Lossless s) : Wakeful s where
  recv t th c hth hp hr := h.steady.recv_empty hth hp hr
  send t th c v rid hth hp hw := by
    obtain ⟨ch, hc, hm⟩ := h.steady.sender hth hp hw
    have hs := h.steady.sound c ch hc
    have hne : ch.sendq ≠ [] := List.ne_nil_of_mem hm
    refine ⟨ch, hc, fun hroom => ?_, ?_, Bool.eq_false_iff.mpr fun hcl => ?_⟩
    · -- there is room only in a channel that buffers, and its buffer is full while somebody waits
      have hcap : 0 < ch.cap := Int.lt_of_le_of_lt (Int.natCast_nonneg _) hroom
      exact Int.ne_of_lt hroom ((h.flowing.streams c ch hc).full hcap hne)
    · exact Classical.byContradiction fun hr => hne (hs.idle hr).2.1
    · cases hs.shut hcl _ hm
  apart t u th x c v rid hth hp hw hx hpx hr := by
    obtain ⟨ch, hc, hm⟩ := h.steady.sender hth hp hw
    obtain ⟨ch', hc', he⟩ := h.steady.recv_empty hx hpx hr
    rw [hc] at hc'
    cases hc'
    exact List.ne_nil_of_mem hm he.2.1
  parks a s' t th th' cases ha hth hp hth' hp' halt := by
    rcases step_moves h.steady ha with ⟨cap, -, rfl⟩ | ⟨x, hx, rfl⟩ | hm
    · rw [hth'] at hth
      cases hth
      rw [hp] at hp'
      cases hp'
    · rcases Steady.snoc_some hth' with hold | rfl
      · rw [hold] at hth
        cases hth
        rw [hp] at hp'
        cases hp'
      · rw [hx] at halt
        cases halt
    · obtain ⟨y, hy, ht⟩ := rel_back (hm.threads t) hth'
      rw [hth] at hy
      cases hy
      cases ht with
      | kept hw hpk =>
        rcases hpk hp' with hpk | hn
        · rw [hp] at hpk
          cases hpk
        · rw [← hw, halt] at hn
          cases hn
      | moved _ hn | ended _ hn _ _ _ =>
        rw [hn] at halt
        cases halt
      | alted _ ha' _ hpk =>
        rw [ha'] at halt
        cases halt
        obtain ⟨ports, rfl, hpoll⟩ := hpk hp'
        exact ⟨ports, rfl, fun x hx => pollCase_stuck (poll_nothing hpoll x hx)⟩

/-- One thread sends on a channel of capacity 0 and another receives on a second one, and both park.
-/
def bothPark : List (Op Nat) :=
  [.create 0, .create 0, .spawn, .spawn, .drain 0, .drain 1, .pop, .send 0 (some 7), .pass [], .pop, .recv 1, .pass []]

theorem bothPark_wakeful :
    ∃ s : Machine Nat, Run Lossless s ∧ (s.threads.map Th.parked = [true, true] ∧ s.ring = []) ∧
    Wakeful s := by
  obtain ⟨s, hr, hs⟩ :=
    Run.of_steps (P := fun s => decide (s.threads.map Th.parked = [true, true] ∧ s.ring = []))
    (l := bothPark) lossless_of_test (by decide +kernel)
  exact ⟨s, hr, of_decide_eq_true hs, run_wakeful hr⟩

/-- A thread parks in an `alt` to send on a channel, and another parks to receive on it. -/
def altSend : List (Op Nat) :=
  [.create 0, .spawn, .spawn, .drain 0, .drain 1, .pop, .alt [.send 0 (some 7)], .pass [], .pop, .recv 0, .pass []]

/-- Both sleep, with nothing to run and no wake to come. -/
theorem altSend_sleeps : ∃ s : Machine Nat, Run (fun _ _ => True) s ∧ s.ring = [] ∧ s.cur = none ∧
    s.threads.map Th.wake = [false, false] ∧ s.threads.map Th.parked = [true, true] ∧
      s.threads.map Th.wait = [.alting [.send 0 (some 7)] [], .receiving 0 (some (.recv 1 0))] := by
  obtain ⟨s, hr, hs⟩ := Run.of_any (P := fun s => decide (s.ring = [] ∧ s.cur = none ∧
    s.threads.map Th.wake = [false, false] ∧ s.threads.map Th.parked = [true, true] ∧
      s.threads.map Th.wait = [.alting [.send 0 (some 7)] [], .receiving 0 (some (.recv 1 0))]))
    (l := altSend) (by decide +kernel)
  exact ⟨s, hr, of_decide_eq_true hs⟩

end Nlos.Thread
