import Nlos.Thread.Mail

/-!
# What the scheduler sleeps on

`gatherports` turns the parked records into the cases of one kernel alt, with one receive case for
a port however many records wait on it. The case keeps the flag of the record met first, so a bare
park whose port was met before sleeps through the hangup that it has to see.
-/

namespace Nlos.Mail

open List

variable {α : Type}

/-- A case as `altcase` writes it: `send` is the room wanted, and a receive case has none. -/
structure AltCase where
  port : Nat
  send : Option Nat
  hup : Bool
deriving DecidableEq, Repr

/-- The cases so far, and the ports that have a receive case. -/
structure Gather where
  cases : List AltCase
  seen : List Nat

namespace Gather

def want (g : Gather) (hup : Bool) (h : Nat) : Gather :=
  if h ∈ g.seen then g else ⟨g.cases ++ [⟨h, none, hup⟩], h :: g.seen⟩

def visit (g : Gather) (r : Rec α) : Gather :=
  match r.send, r.ports, r.port with
  | some need, _, port => { g with cases := g.cases ++ [⟨port.getD 0, some need, false⟩] }
  | none, some l, _ => l.foldl (want · false) g
  | none, none, some h => g.want (!r.recv) h
  | none, none, none => g

end Gather

/-- The case list `gatherports` builds, where it meets the records in this order. -/
def gathercases (recs : List (Rec α)) : List AltCase := (recs.foldl Gather.visit ⟨[], []⟩).cases

/-! ## What is waited for -/

namespace Rec

inductive Parks : Rec α → Prop
  | recv (h : Nat) (m : Option (Msg α)) : Parks ⟨some h, none, true, m, none⟩
  | alt (l : List Nat) (m : Option (Msg α)) : Parks ⟨none, some l, false, m, none⟩
  | bare (h : Nat) (m : Option (Msg α)) : Parks ⟨some h, none, false, m, none⟩
  | send (h need : Nat) (m : Option (Msg α)) : Parks ⟨some h, none, false, m, some need⟩
  | chan (m : Option (Msg α)) : Parks ⟨none, none, false, m, none⟩

/-- What it asks of a receive case on `h`, if it waits to receive there: to be woken by a hangup, if
it is a bare park. -/
def asks (r : Rec α) (h : Nat) : Option Bool :=
  if r.send.isNone && r.on h then some (!r.recv && r.port == some h) else none

def wanted (r : Rec α) : Option (Nat × Nat) := r.send.bind fun need => r.port.map (·, need)

end Rec

def AltCase.wanted (c : AltCase) : Option (Nat × Nat) := c.send.map (c.port, ·)

/-- The cases ask for what the records wait for: no port is missing, a hangup is asked for where
some bare park waits, each send is there with its size, and nothing else is. -/
structure Exact (recs : List (Rec α)) (cases : List AltCase) : Prop where
  receives : ∀ r ∈ recs, ∀ h b, r.asks h = some b → ∃ b', ⟨h, none, b'⟩ ∈ cases
  hangup : ∀ h b, ⟨h, none, b⟩ ∈ cases → (b = true ↔ ∃ r ∈ recs, r.asks h = some true)
  sends : cases.filterMap AltCase.wanted = recs.filterMap Rec.wanted
  waited : ∀ h b, ⟨h, none, b⟩ ∈ cases → ∃ r ∈ recs, ∃ b', r.asks h = some b'

/-- Of the records on a port that a bare park waits on, a bare park is met first. -/
def BareFirst (recs : List (Rec α)) : Prop :=
  ∀ r ∈ recs, ∀ h, r.asks h = some true → recs.findSome? (·.asks h) = some true

/-! ## The loop -/

/-- What a step adds: receive cases on the new ones of some ports, and these sends. -/
structure Adds (g g' : Gather) (asks : Nat → Option Bool) (sends : List (Nat × Nat)) : Prop where
  cases : ∀ h b, ⟨h, none, b⟩ ∈ g'.cases ↔ ⟨h, none, b⟩ ∈ g.cases ∨ h ∉ g.seen ∧ asks h = some b
  seen : ∀ h, h ∈ g'.seen ↔ h ∈ g.seen ∨ (asks h).isSome = true
  sends : g'.cases.filterMap AltCase.wanted = g.cases.filterMap AltCase.wanted ++ sends

theorem adds_want (g : Gather) (hup : Bool) (h : Nat) :
    Adds g (g.want hup h) (fun x => if h = x then some hup else none) [] := by
  unfold Gather.want
  split
  · refine ⟨fun x b => ?_, fun x => ?_, (append_nil _).symm⟩ <;> by_cases he : h = x <;> simp_all
  · refine ⟨fun x b => ?_, fun x => ?_, by simp [AltCase.wanted]⟩ <;> by_cases he : h = x <;>
      simp_all [eq_comm]

theorem adds_wants (l : List Nat) (g : Gather) :
    Adds g (l.foldl (Gather.want · false) g) (fun x => if x ∈ l then some false else none) [] := by
  induction l generalizing g with
  | nil => exact ⟨by simp, by simp, by simp⟩
  | cons h l ih =>
    have h1 := adds_want g false h
    have h2 := ih (g.want false h)
    refine ⟨fun x b => ?_, fun x => ?_, by rw [foldl_cons, h2.sends, h1.sends]; simp⟩
    · rw [foldl_cons, h2.cases, h1.cases, h1.seen]
      rcases eq_or_ne h x with rfl | he
      · simp
      · simp [he, he.symm]
    · rw [foldl_cons, h2.seen, h1.seen]
      rcases eq_or_ne h x with rfl | he
      · simp
      · simp [he, he.symm]

theorem adds_visit (g : Gather) {r : Rec α} (hr : r.Parks) :
    Adds g (g.visit r) r.asks r.wanted.toList := by
  cases hr with
  | recv h m =>
    have he : (⟨some h, none, true, m, none⟩ : Rec α).asks = fun x => if h = x then some false
        else none := by
      funext x
      simp [Rec.asks, Rec.on]
    exact he ▸ adds_want g false h
  | alt l m =>
    have he : (⟨none, some l, false, m, none⟩ : Rec α).asks = fun x => if x ∈ l then some false
        else none := by
      funext x
      simp [Rec.asks, Rec.on]
    exact he ▸ adds_wants l g
  | bare h m =>
    have he : (⟨some h, none, false, m, none⟩ : Rec α).asks = fun x => if h = x then some true
        else none := by
      funext x
      by_cases hx : h = x <;> simp [Rec.asks, Rec.on, hx]
    exact he ▸ adds_want g true h
  | send h need m =>
    exact ⟨by simp [Gather.visit, Rec.asks], by simp [Gather.visit, Rec.asks],
      by simp [Gather.visit, AltCase.wanted, Rec.wanted]⟩
  | chan m =>
    exact ⟨by simp [Gather.visit, Rec.asks, Rec.on], by simp [Gather.visit, Rec.asks, Rec.on],
      by simp [Gather.visit, Rec.wanted]⟩

/-- The receive case of a port has the flag of the record met first. -/
theorem adds_foldl {recs : List (Rec α)} (hp : ∀ r ∈ recs, r.Parks) :
    Adds ⟨[], []⟩ (recs.foldl Gather.visit ⟨[], []⟩) (fun h => recs.findSome? (·.asks h))
      (recs.filterMap Rec.wanted) := by
  induction recs using List.reverseRecOn with
  | nil => exact ⟨by simp, by simp, rfl⟩
  | append_singleton recs r ih =>
    have h1 := ih fun x hx => hp x (mem_append_left _ hx)
    have h2 := adds_visit (recs.foldl Gather.visit ⟨[], []⟩) (hp r (by simp))
    rw [foldl_append, foldl_cons, foldl_nil]
    refine ⟨fun h b => ?_, fun h => ?_, ?_⟩
    · rw [h2.cases, h1.cases, h1.seen, List.findSome?_append]
      cases recs.findSome? (·.asks h) <;> simp
    · rw [h2.seen, h1.seen, List.findSome?_append]
      cases recs.findSome? (·.asks h) <;> simp
    · rw [h2.sends, h1.sends, filterMap_append]
      cases hr : r.wanted <;> simp [hr]

/-- A receive, and then a bare park on the same port. -/
def recvThenPark : List (Rec Unit) :=
  [⟨some 1, none, true, none, none⟩, ⟨some 1, none, false, none, none⟩]

end Nlos.Mail
