import Nlos.Kernel.Accounts
import Nlos.Kernel.Calm

/-!
# Calls as runs of small actions

A call of the kernel takes references, hands them on and gives them up, changes proc records and
statuses, and runs the release cascade in between. `Act` lists the small actions all calls are made
of, each with what it needs to be true. A call is proved once to be a run of actions (`Acts`), and
each invariant is proved once per action.

A `Scope` says which of the harmful actions a run may contain: which slots it may clear, whether it
may lose a reference, and so on.
-/

namespace Nlos

open Tally

def Teardown.slot : Teardown → Nat
  | .kill i _ => i
  | .break i _ => i
  | .reap i => i

/-- The end of the teardown detaches the proc. A reap does not: the proc was detached as it
broke. -/
def Teardown.detaches : Teardown → Bool
  | .kill _ _ => true
  | .break _ _ => true
  | .reap _ => false

namespace Kernel

theorem calms_wake (send : Bool) (k : Kernel) (p : PortRef) : k.sch.Calms (k.wake send p).sch := by
  unfold wake
  split
  · exact Sched.calms_wakeWaiters send k.sch p
  · exact .refl _

theorem calms_hangup (k : Kernel) (p : PortRef) : k.sch.Calms (k.hangup p).sch := by
  have h1 := calms_wake false { k with hangupGen := k.hangupGen + 1 } p
  exact h1.trans (calms_wake true _ p)

/-! ## Actions -/

/-- What an action was, for the invariants that care. -/
inductive Label where
  /-- One step of the release cascade. -/
  | work
  /-- A change no invariant looks at. -/
  | skip
  /-- A right is put into slot `h` of proc `i`. -/
  | mint (i h : Nat)
  /-- A port is made, with its receive right. -/
  | birth (i h : Nat)
  /-- A port is made that nothing refers to. -/
  | leak
  /-- A port is made that the kernel refers to. -/
  | kbirth
  /-- Slot `h` of proc `i` is cleared by a call of the proc; `g` says whether it is a corpse. -/
  | drop (i h : Nat) (g : Bool)
  /-- Slot `h` of proc `i` is cleared by its teardown. -/
  | shed (i h : Nat) (g : Bool)
  /-- A reference is taken for a message. -/
  | take
  /-- A message joins a queue, and whoever waits for one is woken. -/
  | enqueue (m : Kmsg)
  /-- A message leaves a queue. -/
  | dequeue
  /-- References are left without a holder. -/
  | lose (refs : List InRef)
  /-- The record of proc `i` is wiped with these references in its table. -/
  | wipe (i : Nat) (refs : List InRef)
  /-- The name or the self port of proc `i` is written. -/
  | name (i : Nat)
  /-- Proc `i` dies or breaks. -/
  | mark (i : Nat)
  /-- Proc `i` hatches; `b` says that no teardown of its slot is unfinished. -/
  | hatch (i : Nat) (b : Bool)
  /-- Proc `i` links a wait record on `p`. -/
  | park (i : Nat) (p : PortRef)
  /-- Proc `i` goes to sleep. -/
  | block (i : Nat)
  /-- A wait record of proc `i` is taken off its port's list. -/
  | unpark (i : Nat)
  /-- An exit notice goes to proc `j`. -/
  | notice (j : Nat)
  /-- Timer slot `j` is cleared. -/
  | disarm (j : Nat)
  /-- The kernel gives a reference up. -/
  | unhold (p : PortRef)
  /-- A teardown begins. -/
  | opens (t : Teardown)
  /-- A teardown is about to finish. -/
  | closes (t : Teardown)
deriving DecidableEq

def SlotAt (k : Kernel) (i h : Nat) (r : Right) : Prop :=
  ∃ pr, k.procv[i]? = some pr ∧ pr.rights.slots[h]? = some r ∧ r.used = true

/-- Slot 0 of proc `i` holds the receive right to the proc's self port. -/
def SelfAt (k : Kernel) (i : Nat) : Prop :=
  ∃ pr r, k.procv[i]? = some pr ∧ pr.rights.slots[0]? = some r ∧ r.used = true ∧
    r.port = ⟨pr.selfidx, pr.selfgen⟩

/-- Two records with the same rights, the same counts of them and the same name. -/
structure SameRights (pr pr' : KProc) : Prop where
  rights : pr'.rights = pr.rights
  nports : pr'.nports = pr.nports
  id : pr'.id = pr.id
  selfidx : pr'.selfidx = pr.selfidx
  selfgen : pr'.selfgen = pr.selfgen

/-- Two states that differ in nothing an invariant looks at. -/
structure SameCore (k k' : Kernel) : Prop where
  portv : k'.portv = k.portv
  procv : k'.procv = k.procv
  timers : k'.timers = k.timers
  krefs : k'.krefs = k.krefs
  lost : k'.lost = k.lost
  sch : k'.sch = k.sch
  log : k'.log = k.log
  teardowns : k'.teardowns = k.teardowns

/-- One action, from a state with pending work to the next. Only the cascade runs while a port is
about to be woken or freed. -/
inductive Act : Label → Config → Config → Prop where
  | work {k k' : Kernel} {x : Work} {new w : List Work} (hx : Exec k x k' new) :
      Act .work (k, x :: w) (k', new ++ w)
  | skip {k k' : Kernel} {w : List Work} (hw : Plain w) (hk : SameCore k k') :
      Act .skip (k, w) (k', w)
  | touch {k : Kernel} {p : PortRef} {w : List Work} (hw : Plain w) (hl : k.live p = true) :
      Act .skip (k, w) (k.touch p, w)
  | poke {k : Kernel} {p : PortRef} {q : KPort} {f : KPort → KPort} {w : List Work} (hw : Plain w)
      (hq : k.portOf p = some q) (hg : (f q).gen = q.gen) (hn : (f q).nrights = q.nrights)
      (hr : (f q).nrecv = q.nrecv) (hl : (f q).queue = q.queue) (hb : (f q).qbytes = q.qbytes) :
      Act .skip (k, w) (k.modPort p f, w)
  | proc {k : Kernel} {i : Nat} {pr pr' : KProc} {w : List Work} (hw : Plain w)
      (hi : k.procv[i]? = some pr) (hs : SameRights pr pr') :
      Act .skip (k, w) (k.setProc i pr', w)
  /-- An overflow array without a used slot is freed. -/
  | trim {k : Kernel} {i : Nat} {pr : KProc} {w : List Work} (hw : Plain w)
      (hi : k.procv[i]? = some pr) (hu : ∀ r ∈ pr.rights.slots.drop nrightsInline, r.used = false) :
      Act .skip (k, w) (k.setProc i { pr with rights := pr.rights.dropOverflow }, w)
  /-- A proc slot that was never used is appended. -/
  | grow {k : Kernel} {i : Nat} {w : List Work} (hw : Plain w) (hi : k.procv[i]? = none)
      (hd : k.sch.statusOf i = .dead) : Act (.name i) (k, w) (k.wipeSlot i, w)
  | sched {k : Kernel} {s : Sched} {w : List Work} (hw : Plain w) (hs : k.sch.Moves s) :
      Act .skip (k, w) ({ k with sch := s }, w)
  | block {k : Kernel} {i : Nat} {w : List Work} (hw : Plain w) (hg : k.sch.gone i = false) :
      Act (.block i) (k, w) ({ k with sch := k.sch.procBlock i }, w)
  | mint {k k' : Kernel} {i h : Nat} {p : PortRef} {q : KPort} {recv : Bool} {w : List Work}
      (hw : Plain w) (hq : k.portOf p = some q) (hm : Minted k i p recv h k') :
      Act (.mint i h) (k, w) (k', w)
  | birth {k k1 k' : Kernel} {i h : Nat} {p : PortRef} {w : List Work} (hw : Plain w)
      (hb : Born k p k1) (hm : Minted k1 i p true h k') : Act (.birth i h) (k, w) (k', w)
  | leak {k k' : Kernel} {p : PortRef} {w : List Work} (hw : Plain w) (hb : Born k p k') :
      Act .leak (k, w) (k', w)
  | kbirth {k k' : Kernel} {p : PortRef} {w : List Work} (hw : Plain w) (hb : Born k p k') :
      Act .kbirth (k, w) ({ k'.modPort p (addRef false) with krefs := p :: k'.krefs }, w)
  | drop {k : Kernel} {i h : Nat} {pr : KProc} {r : Right} {w : List Work} (hw : Plain w)
      (hi : k.procv[i]? = some pr) (hr : pr.rights.slots[h]? = some r) (hu : r.used = true) :
      Act (.drop i h (k.sch.gone i)) (k, w) (k.vacate i pr h r, .unref r.port :: w)
  | shed {k : Kernel} {i h : Nat} {pr : KProc} {r : Right} {w : List Work} (hw : Plain w)
      (hi : k.procv[i]? = some pr) (hr : pr.rights.slots[h]? = some r) (hu : r.used = true)
      (hn : ∀ v ∈ k.sch.waitersOf i, v.onport = false) :
      Act (.shed i h (k.sch.gone i)) (k, w) (k.vacate i pr h r, .unref r.port :: w)
  | take {k : Kernel} {p : PortRef} {q : KPort} {recv : Bool} {w w' : List Work}
      (hw : Plain (w ++ w')) (hq : k.portOf p = some q) :
      Act .take (k, w ++ w') (k.modPort p (addRef recv), w ++ .ref ⟨p.idx, recv⟩ :: w')
  | enqueue {k : Kernel} {p : PortRef} {q : KPort} {m : Kmsg} {w : List Work} (hw : Plain w)
      (hq : k.portOf p = some q) (hm : q.qbytes + m.qcost ≤ maxQueue) :
      Act (.enqueue m) (k, m.refs.map .ref ++ w) ((k.modPort p (enqueue m)).wake false p, w)
  | dequeue {k : Kernel} {p : PortRef} {q : KPort} {m : Kmsg} {ms : List Kmsg} {w : List Work}
      (hw : Plain w) (hq : k.portOf p = some q) (hm : q.queue = m :: ms) :
      Act .dequeue (k, w) (k.modPort p dequeue, m.refs.map .ref ++ w)
  | lose {k : Kernel} {refs : List InRef} {w : List Work} (hw : Plain w) :
      Act (.lose refs) (k, refs.map .ref ++ w) ({ k with lost := refs ++ k.lost }, w)
  | wipe {k : Kernel} {i : Nat} {pr : KProc} {w : List Work} (hw : Plain w)
      (hi : k.procv[i]? = some pr) (hd : k.sch.statusOf i = .dead) :
      Act (.wipe i (tableRefs pr.rights)) (k, w) (k.wipeSlot i, w)
  | name {k : Kernel} {i : Nat} {pr pr' : KProc} {w : List Work} (hw : Plain w)
      (hi : k.procv[i]? = some pr) (hd : k.sch.statusOf i = .dead) (hr : pr'.rights = pr.rights)
      (hn : pr'.nports = pr.nports) : Act (.name i) (k, w) (k.setProc i pr', w)
  /-- A proc hatches with its self port in slot 0. -/
  | hatch {k : Kernel} {i : Nat} {w : List Work} (hw : Plain w) (hs : k.SelfAt i) :
      Act (.hatch i (k.teardowns.all (·.slot != i))) (k, w)
        ({ k with sch := k.sch.setStatus i .hatching }, w)
  | mark {k : Kernel} {i : Nat} {p : SProc} {st : Status} {b : Bool} {w : List Work} (hw : Plain w)
      (hi : k.sch.procs[i]? = some p) (hst : st = .dead ∨ st = .broke) :
      Act (.mark i) (k, w)
        ({ k with sch := k.sch.setProc i { p with status := st, onq := b } }, w)
  | park {k : Kernel} {i h : Nat} {r : Right} {send ok : Bool} {s : Sched} {w : List Work}
      (hw : Plain w) (hr : k.SlotAt i h r) (hs : k.sch.waitAdd ok i r.port send = some s) :
      Act (.park i r.port) (k, w) ({ k with sch := s }, w)
  | unpark {k : Kernel} {i : Nat} {v : Waiter} {w : List Work} (hw : Plain w)
      (hv : v ∈ k.sch.waitersOf i) (ho : v.onport = true) :
      Act (.unpark i) (k, w) (k.touch v.port, w)
  | notice {k : Kernel} {j : Nat} {pr : KProc} {w : List Work} (hw : Plain w)
      (hj : k.procv[j]? = some pr) : Act (.notice j) (k, w) (k.touch (slot0 pr.rights).port, w)
  | arm {k : Kernel} {j : Nat} {p : PortRef} {q : KPort} {due : Nat} {w : List Work} (hw : Plain w)
      (hq : k.portOf p = some q) (hj : freeTimer k = some j) :
      Act .skip (k, w) (setTimer (k.modPort p (addRef false)) j ⟨p, due⟩, w)
  | disarm {k : Kernel} {j : Nat} {t : KTimer} {w : List Work} (hw : Plain w)
      (hj : k.timers[j]? = some (some t)) :
      Act (.disarm j) (k, w) ({ k with timers := k.timers.set j none }, .unref t.port :: w)
  | hold {k : Kernel} {p : PortRef} {q : KPort} {w : List Work} (hw : Plain w)
      (hq : k.portOf p = some q) :
      Act .skip (k, w) ({ k.modPort p (addRef false) with krefs := p :: k.krefs }, w)
  | unhold {k : Kernel} {p : PortRef} {w : List Work} (hw : Plain w) (hp : p ∈ k.krefs) :
      Act (.unhold p) (k, w) ({ k with krefs := k.krefs.erase p }, .unref p :: w)
  | opens {k : Kernel} {t : Teardown} {w : List Work} (hw : Plain w)
      (hs : k.sch.gone t.slot = true) : Act (.opens t) (k, w)
        ({ k with teardowns := t :: k.teardowns }, w)
  | closes {k : Kernel} {t : Teardown} {w : List Work} (hw : Plain w) :
      Act (.closes t) (k, w) ({ k with teardowns := k.teardowns.erase t }, w)

/-! ## Scopes and runs -/

/-- What a run may do beyond the harmless. -/
structure Scope where
  /-- It may run the release cascade. -/
  works : Prop := True
  /-- It may queue a message that carries references. -/
  sends : Prop := False
  leaks : Prop := False
  loses : List InRef → Prop := fun _ => False
  wipes : Nat → List InRef → Prop := fun _ _ => False
  drops : Nat → Nat → Bool → Prop := fun _ _ _ => False
  sheds : Nat → Bool → Prop := fun _ _ => False
  names : Nat → Prop := fun _ => False
  marks : Nat → Prop := fun _ => False
  hatches : Nat → Bool → Prop := fun _ _ => False
  parks : Nat → PortRef → Prop := fun _ _ => False
  blocks : Nat → Prop := fun _ => False
  notices : Nat → Prop := fun _ => False
  disarms : Prop := False
  unholds : PortRef → Prop := fun _ => False
  opens : Teardown → Prop := fun _ => False
  closes : Teardown → Prop := fun _ => False

def Scope.allows (S : Scope) : Label → Prop
  | .work => S.works
  | .skip | .mint _ _ | .birth _ _ | .kbirth | .take | .dequeue | .unpark _ => True
  | .leak => S.leaks
  | .drop i h g => S.drops i h g
  | .shed i _ g => S.sheds i g
  | .enqueue m => m.refs = [] ∨ S.sends
  | .lose refs => S.loses refs
  | .wipe i refs => S.wipes i refs
  | .name i => S.names i
  | .mark i => S.marks i
  | .hatch i b => S.hatches i b
  | .park i p => S.parks i p
  | .notice j => S.notices j
  | .disarm _ => S.disarms
  | .unhold p => S.unholds p
  | .block i => S.blocks i
  | .opens t => S.opens t
  | .closes t => S.closes t

def ActIn (S : Scope) (c d : Config) : Prop := ∃ l, S.allows l ∧ Act l c d

/-- A run of actions of the scope. -/
abbrev Acts (S : Scope) : Config → Config → Prop := Relation.ReflTransGen (ActIn S)

namespace Acts

variable {S S' : Scope} {c d e : Config}

theorem one {l : Label} (ha : Act l c d) (hl : S.allows l) : Acts S c d := .single ⟨l, hl, ha⟩

theorem mono (hS : ∀ l, S.allows l → S'.allows l) (h : Acts S c d) : Acts S' c d :=
  Relation.ReflTransGen.mono (fun _ _ ⟨l, hl, ha⟩ => ⟨l, hS l hl, ha⟩) c d h

/-- A property that every action of the scope keeps is kept by every run. -/
theorem invariant {P : Config → Prop}
    (step : ∀ {l c d}, S.allows l → Act l c d → P c → P d) (h : Acts S c d) (hc : P c) : P d := by
  induction h with
  | refl => exact hc
  | tail _ ha ih =>
    obtain ⟨l, hl, ha⟩ := ha
    exact step hl ha ih

theorem of_steps (hS : S.works) (h : CSteps c d) : Acts S c d := by
  induction h with
  | refl => exact .refl
  | tail _ hs ih =>
    cases hs with
    | run k x w => exact ih.trans (one (.work (exec_spec k x)) hS)

end Acts

end Kernel

end Nlos
