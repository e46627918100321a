import Nlos.Kernel.Parking

/-!
# The kernel as a machine

An operation is one call of the kernel, made by a proc, a cpu or the boot code, with everything it
is given and every answer it gets from the allocators. `step` runs it on the state. A run starts at
boot and takes any operations in any order.

`Op.scope` reads off the state in front of an operation what the operation may do beyond the
harmless, and `step_calls` says that it does no more.
-/

namespace Nlos

open Option

namespace Kernel

/-- The state before the first port and the first proc. -/
def boot : Kernel :=
  { portv := [], portgen := 0, hangupGen := 0, procv := [], nextpid := 0, timers := [], krefs := [],
    teardowns := [], ipcDepth := 0,
    sch := { procs := [], waitq := fun _ => [], nextWid := 0, wfreed := [] },
    log := [], freed := [], lost := [] }

/-- The slot has a lua state, so there is code to make calls. -/
def hasState (k : Kernel) (i : Nat) : Bool := (k.procv[i]?).any (·.hasL)

/-- A port of the kernel's own, made at boot: `port_new` and a reference. -/
def devicePort (P : Params) (ok : Bool) (k : Kernel) : Kernel :=
  match portNew P ok k with
  | (none, k) => k
  | (some p, k) => { k.modPort p (addRef false) with krefs := p :: k.krefs }

/-- A debugger attaches through a right: the kernel takes a reference, unless nobody receives. -/
def dbgHold (k : Kernel) (i : Nat) (h : LuaInteger) : Kernel :=
  match k.rightGet i h with
  | none => k
  | some r =>
    match k.portOf r.port with
    | none => k
    | some q =>
      if q.nrecv = 0 ∨ q.dead = true then k
      else { k.modPort r.port (addRef false) with krefs := r.port :: k.krefs }

def dbgFree (k : Kernel) (p : PortRef) : Kernel :=
  { k with krefs := k.krefs.erase p }.portUnref p

/-- `kernel_spawn_buffer`: a proc the kernel itself starts. -/
def spawnInit (env : NewEnv) (k : Kernel) : Kernel :=
  match procNew env k with
  | (none, k) => k
  | (some i, k) => k.procLaunch i

/-- What only its own lua code changes of a proc: its buffers, its heap, and how it means to
exit. -/
structure Own where
  bufs : List LuaBuf
  memUsed : Nat
  memPeak : Nat
  bufUsed : Nat
  exitcode : LuaInteger
  exitmsg : List UInt8

/-- The record with its private half rewritten. -/
def Own.write (o : Own) (pr : KProc) : KProc :=
  { pr with bufs := o.bufs, memUsed := o.memUsed, memPeak := o.memPeak, bufUsed := o.bufUsed,
            exitcode := o.exitcode, exitmsg := o.exitmsg }

end Kernel

open Kernel

/-! ## Operations -/

/-- The operations, by the names of the calls. `call` is `sys.call` up to its send, `callK` the look
for the reply after it, `altK` the look `sys.alt` takes once it was woken. -/
inductive Op where
  | newport (P : Params) (portOk xrightsOk : Bool) (i : Nat)
  | sendright (xrightsOk : Bool) (i : Nat) (h : LuaInteger)
  | send (env : SendEnv) (h : LuaInteger) (v : LVal)
  | call (env : SendEnv) (sh : LuaInteger) (v : LVal) (rh : LuaInteger)
  | callK (env : RecvEnv) (waitOk : Bool) (rh : LuaInteger)
  | tryrecv (env : RecvEnv) (h : LuaInteger)
  | block (waitOk : Bool) (i : Nat) (h : LuaInteger)
  | sendblock (P : Params) (waitOk : Bool) (i : Nat) (h need : LuaInteger)
  | alt (env : RecvEnv) (wake : Bool) (waitOk : Nat → Bool) (cases : List AltCase)
  | altK (env : RecvEnv) (wake : Bool) (cases : List AltCase)
  | close (i : Nat) (h : LuaInteger)
  | ownedClose (i : Nat) (ud : BitVec 32)
  | timer (P : Params) (portOk xrightsOk : Bool) (i due : Nat)
  | expireTimers (now : Nat) (memOk : Nat → Bool)
  | spawn (env : SpawnEnv) (arg : Option LVal)
  | monitor (memOk : Nat → Bool) (i : Nat) (pid : Int)
  | kill (me i : Nat) (why : Option (List UInt8))
  | «break» (me i : Nat) (why : Option (List UInt8))
  | reap (me i : Nat)
  | finish (memOk : Nat → Bool) (t : Teardown)
  | own (i : Nat) (o : Own)
  | waitReap (i : Nat)
  | claimCpu (i me : Nat)
  | releaseClaim (i : Nat)
  | stop (i : Nat)
  | askStop (i : Nat) (b : Bool)
  | resume (i : Nat)
  | spawnInit (env : NewEnv)
  | devicePort (P : Params) (ok : Bool)
  | push (copyOk kmsgOk : Bool) (p : PortRef) (data : List UInt8)
  | grant (xrightsOk : Bool) (i : Nat) (p : PortRef) (recv : Bool)
  | dbgHold (i : Nat) (h : LuaInteger)
  | dbgFree (p : PortRef)

/-- The proc whose lua code makes the call, if one does. -/
def Op.caller : Op → Option Nat
  | .newport _ _ _ i | .sendright _ i _ | .block _ i _ | .sendblock _ _ i _ _ | .close i _
  | .ownedClose i _ | .timer _ _ _ i _ | .monitor _ i _ | .own i _ | .dbgHold i _ => some i
  | .send env _ _ | .call env _ _ _ => some env.proc
  | .callK env _ _ | .tryrecv env _ | .alt env _ _ _ | .altK env _ _ => some env.proc
  | .spawn env _ => some env.send.proc
  | _ => none

/-- The calls that may park. A corpse whose finalizers run is refused: it is not the coroutine the
kernel resumed. -/
def Op.parks : Op → Bool
  | .call _ _ _ _ | .callK _ _ _ | .block _ _ _ | .sendblock _ _ _ _ _ | .alt _ _ _ _ | .altK _ _ _ => true
  | _ => false

/-- What the operation does, where it can be done. None is a machine that stopped, or an operation
that does not apply. -/
def Op.run (k : Kernel) : Op → Option Kernel
  | .newport P portOk xrightsOk i => some (apiNewport P portOk xrightsOk k i).2
  | .sendright xrightsOk i h => some (apiSendright xrightsOk k i h).2
  | .send env h v => some (apiSend env k h v).2
  | .call env sh v rh => some (callSend env k sh v rh).2
  | .callK env waitOk rh => some (Nlos.callK env waitOk k rh).2
  | .tryrecv env h => some (apiTryrecv env k h).2
  | .block waitOk i h => some (apiBlock waitOk k i h).2
  | .sendblock P waitOk i h need => some (apiSendblock P waitOk k i h need).2
  | .alt env wake waitOk cases => some (apiAlt env wake waitOk k cases).2
  | .altK env wake cases => some (Nlos.altK env wake k cases).2
  | .close i h => some (apiClose k i h).2
  | .ownedClose i ud => some (Nlos.ownedClose k i ud)
  | .timer P portOk xrightsOk i due => some (apiTimer P portOk xrightsOk k i due).2
  | .expireTimers now memOk => some (Nlos.expireTimers now memOk k)
  | .spawn env arg => (apiSpawn env k arg).map (·.2)
  | .monitor memOk i pid => some (apiMonitor memOk k i pid).2
  | .kill me i why => k.killBegin me i why
  | .break me i why => k.breakBegin me i why
  | .reap me i => k.reapBegin me i
  | .finish memOk t => if t ∈ k.teardowns then some (k.finish memOk t) else none
  | .own i o => some (k.modProc i o.write)
  | .waitReap i => some (k.waitReap i)
  | .claimCpu i me => some { k with sch := k.sch.claimCpu i me }
  | .releaseClaim i => some { k with sch := k.sch.releaseClaim i }
  | .stop i => some { k with sch := k.sch.stop i }
  | .askStop i b => some { k with sch := k.sch.askStop i b }
  | .resume i => some { k with sch := k.sch.resume i }
  | .spawnInit env => some (k.spawnInit env)
  | .devicePort P ok => some (k.devicePort P ok)
  | .push copyOk kmsgOk p data =>
    if p ∈ k.krefs then some (portPush copyOk kmsgOk k p data []) else none
  | .grant xrightsOk i p recv =>
    if p ∈ k.krefs then some (rightNew xrightsOk k i p recv).2 else none
  | .dbgHold i h => some (k.dbgHold i h)
  | .dbgFree p => if p ∈ k.krefs then some (k.dbgFree p) else none

/-- One operation: a caller has a lua state to call from, and a caller that may park is not a
corpse. -/
def step (k : Kernel) (op : Op) : Option Kernel :=
  if op.caller.all fun i => k.hasState i && (!op.parks || !k.sch.gone i) then op.run k else none

/-! ## What an operation may do -/

namespace Kernel

/-- A half-received message is undone: rights go that were not there before. -/
def Undoes (k : Kernel) (i : Nat) (j h : Nat) (g : Bool) : Prop :=
  j = i ∧ k.Vacant i h ∧ g = k.sch.gone i

/-- Proc `i` has a right to `p` behind the handle `h`. -/
def Names (k : Kernel) (i : Nat) (h : LuaInteger) (p : PortRef) : Prop :=
  ∃ r, k.rightGet i h = some r ∧ r.port = p

/-- The slot `proc_new` takes, and what it does to it. -/
def bears (k : Kernel) : Scope where
  wipes i refs := k.freeSlot = some i ∧ ∃ pr, k.procv[i]? = some pr ∧ refs = tableRefs pr.rights
  names i := k.freeSlot = some i
  drops i h g := k.freeSlot = some i ∧ h = 0 ∧ g = true
  hatches i b := k.freeSlot = some i ∧ b = k.teardowns.all (·.slot != i)

end Kernel

/-- `sys.call` gets to its send: both rights are good and the proc is not parked already. -/
def CallSends (env : SendEnv) (k : Kernel) (sh rh : LuaInteger) : Prop :=
  (∃ r, k.rightGet env.proc sh = some r) ∧
    (∃ rr, k.rightGet env.proc rh = some rr ∧ rr.recv = true) ∧ k.sch.waitersOf env.proc = []

/-- What the operation may do beyond the harmless, in the state `k`. -/
def Op.scope (k : Kernel) : Op → Scope
  | .newport P portOk xrightsOk i => { leaks := Leaky P portOk xrightsOk k i }
  | .send env _ v =>
    { sends := True, loses := fun _ => MeetsGone env (maxDepth + 1) (env.start k v) v }
  | .call env sh v rh =>
    { sends := True
      loses := fun _ => CallSends env k sh rh ∧
        MeetsGone env (maxDepth + 1) (env.start k.ipclockEnter v) v }
  | .callK env _ rh =>
    { drops := fun j h g => k.Undoes env.proc j h g ∧ ∃ p, k.Names env.proc rh p ∧ k.hasMsg p = true
      loses := fun _ => ∃ p, k.Names env.proc rh p ∧ RunsOutAt env k p
      parks := fun j p => j = env.proc ∧ k.Names env.proc rh p ∧ k.hasMsg p = false
      blocks := fun j => j = env.proc ∧ ∃ p, k.Names env.proc rh p ∧ k.hasMsg p = false }
  | .tryrecv env h =>
    { drops := k.Undoes env.proc
      loses := fun _ => ∃ p, k.Names env.proc h p ∧ RunsOutAt env k p }
  | .block _ i h => { parks := fun j p => j = i ∧ k.Names i h p, blocks := fun j => j = i }
  | .sendblock _ _ i h _ => { parks := fun j p => j = i ∧ k.Names i h p, blocks := fun j => j = i }
  | .alt env _ _ cases =>
    { drops := fun j h g => k.Undoes env.proc j h g ∧ AnyReady env k cases
      loses := fun _ => AnyRunsOut env k cases
      parks := fun j p => j = env.proc ∧ ¬AnyReady env k cases ∧
        ∃ c ∈ cases, k.Names env.proc c.handle p
      blocks := fun j => j = env.proc ∧ ¬AnyReady env k cases }
  | .altK env _ cases =>
    { drops := fun j h g => k.Undoes env.proc j h g ∧ AnyReady env k cases
      loses := fun _ => AnyRunsOut env k cases }
  | .close i h => { drops := fun j n g => j = i ∧ h ≠ 0 ∧ n = (cInt h).toNat ∧ g = k.sch.gone i }
  | .ownedClose i ud =>
    { drops := fun j n g => j = i ∧ 0 < ud.toInt ∧ n = ud.toInt.toNat ∧ g = k.sch.gone i }
  | .timer P portOk xrightsOk i _ =>
    { leaks := Leaky P portOk xrightsOk k i, disarms := True, drops := k.Undoes i }
  | .expireTimers _ _ => { disarms := True }
  | .spawn env arg =>
    { k.bears with
      loses := fun _ => ∃ v, arg = some v ∧
        MeetsGone env.send (maxDepth + 1) ⟨k.ipclockEnter, .zero, 0⟩ v
      marks := fun i => k.freeSlot = some i
      sheds := fun i g => k.freeSlot = some i ∧ g = true
      opens := fun t => ∃ i why, k.freeSlot = some i ∧ t = .kill i why
      closes := fun t => ∃ i why, k.freeSlot = some i ∧ t = .kill i why }
  | .monitor _ i pid =>
    { notices := fun j => j = i ∧
        (k.findProc pid).filter (fun j => k.sch.statusOf j != .broke) = none }
  | .kill _ i why => { marks := fun j => j = i, opens := fun t => t = .kill i why }
  | .break _ i why => { marks := fun j => j = i, opens := fun t => t = .break i why }
  | .reap _ i => { opens := fun t => t = .reap i }
  | .finish _ t =>
    { marks := fun j => j = t.slot
      closes := fun u => u = t
      sheds := fun j g => j = t.slot ∧ t.detaches = true ∧ g = k.sch.gone j
      notices := fun j => t.detaches = true ∧
        ∃ x ∈ k.watchersOf t.slot, k.findProc x.1 = some j }
  | .spawnInit _ => k.bears
  | .dbgFree p => { unholds := fun q => q = p }
  | _ => {}

namespace Kernel

variable {k k' : Kernel} {w : List Work} {op : Op}

theorem bears_bears (k : Kernel) (i : Nat) (hf : k.freeSlot = some i) : k.bears.Bears k i :=
  ⟨fun _ hpr => ⟨hf, _, hpr, rfl⟩, hf, ⟨hf, rfl, rfl⟩, hf, rfl⟩

/-! ## The kernel's own operations -/

variable {p : PortRef}

theorem Counted.kref_portOf (hc : k.Counted w) (hp : p ∈ k.krefs) : ∃ q, k.portOf p = some q := by
  refine hc.portOf fun v => .inl ?_
  have h1 := Tally.le_tally (f := fun p : PortRef => v (p.ref false)) hp
  unfold total held
  omega

section

variable (hw : Plain w)

include hw

variable {S : Scope} {h : LuaInteger} {env : SendEnv} {v : LVal}

theorem devicePort_acts {P : Params} {ok : Bool} : Acts S (k, w) (k.devicePort P ok, w) := by
  unfold devicePort
  split
  next k1 hn =>
    rw [portNew_none hn]
  next p k1 hn => exact .one (.kbirth hw (portNew_some hn).1) trivial

theorem dbgHold_acts {i : Nat} : Acts S (k, w) (k.dbgHold i h, w) := by
  unfold dbgHold
  split
  · exact .refl
  · split
    · exact .refl
    next q hq =>
    split
    · exact .refl
    · exact .one (.hold hw hq) trivial

theorem dbgFree_acts (hS : S.works) (hu : S.unholds p)
    (hp : p ∈ k.krefs) : Acts S (k, w) (k.dbgFree p, w) := by
  have h1 : Acts S (k, w) ({ k with krefs := k.krefs.erase p }, .unref p :: w) :=
    .one (.unhold hw hp) hu
  exact h1.trans (Acts.of_steps hS (portUnref_steps _ p w))

theorem spawnInit_acts {env : NewEnv} (hS : S.works)
    (hb : ∀ i, k.freeSlot = some i → S.Bears k i) (hz : k.Roomy) :
    Acts S (k, w) (k.spawnInit env, w) := by
  have h1 := procNew_acts env hw hS hb
  unfold spawnInit
  split
  next k1 hn =>
    rw [hn] at h1
    exact h1.1
  next i k1 hn =>
  rw [hn] at h1
  have hh := (h1.2 i rfl).2 hz
  refine h1.1.trans (sched_acts hw (.ready ?_))
  rw [hh.status]
  nofun

/-! ## Sending -/

theorem apiSend_calls
    (hc : k.Counted w) : Calls ((Op.send env h v).scope k) w k (apiSend env k h v).2 := by
  unfold apiSend
  split
  · exact Acts.calls .refl
  next r hr =>
  have h1 : Calls ((Op.send env h v).scope k) w k (portSendFromLua env k r.port v).2 :=
    portSendFromLua_calls hw hc (rightGet_some hr).1 trivial trivial fun hm _ => hm
  split <;> next e => rwa [e] at h1

/-- `sys.call` sends with the wide lock held. -/
theorem callSend_calls {sh rh : LuaInteger} (hc : k.Counted w) :
    Calls ((Op.call env sh v rh).scope k) w k (callSend env k sh v rh).2 := by
  unfold callSend
  split
  · exact Acts.calls .refl
  · exact Acts.calls .refl
  next r rr hr hrr =>
    split
    · exact Acts.calls .refl
    next hrecv =>
    split
    · exact Acts.calls .refl
    next hwait =>
    have h0 {S : Scope} : Acts S (k, w) (k.ipclockEnter, w) := ipclockEnter_acts hw
    have hsends : CallSends env k sh rh :=
      ⟨⟨r, hr⟩, ⟨rr, hrr, by simpa using hrecv⟩, by simpa using hwait⟩
    have h1 : Calls ((Op.call env sh v rh).scope k) w k
        (portSendFromLua env k.ipclockEnter r.port v).2 :=
      Calls.before h0 (portSendFromLua_calls hw ((h0 (S := {})).counted hc hw.frees)
        ((rightGet_some hr).1.congr rfl) trivial trivial fun hm _ => ⟨hsends, hm⟩)
    split
    next k' hs => rwa [hs] at h1
    next rc n k' hs =>
    rw [hs] at h1
    have h2 := h1.after (ipclockLeave_acts hw)
    split <;> exact h2

end

/-! ## One operation -/

theorem step_run (h : step k op = some k') : op.run k = some k' ∧
    ∀ i, op.caller = some i → k.hasState i = true ∧ (op.parks = true → k.sch.gone i = false) := by
  unfold step at h
  split at h
  next hg =>
    refine ⟨h, fun i hi => ?_⟩
    rw [hi, all_some, Bool.and_eq_true, Bool.or_eq_true, Bool.not_eq_true',
      Bool.not_eq_true'] at hg
    exact ⟨hg.1, fun hp => hg.2.resolve_left (by rw [hp]; nofun)⟩
  · cases h

/-- Every operation is a call of its scope. -/
theorem step_calls (hw : Plain w) (hc : k.Counted w) (hz : k.Roomy) (h : step k op = some k') :
    Calls (op.scope k) w k k' := by
  obtain ⟨h, hcaller⟩ := step_run h
  have alive : ∀ {i : Nat}, op.caller = some i → op.parks = true → k.sch.gone i = false :=
    fun hi hp => (hcaller _ hi).2 hp
  cases op with
  | newport P portOk xrightsOk i =>
    cases h
    exact Acts.calls (apiNewport_acts hw id)
  | sendright xrightsOk i hd =>
    cases h
    exact Acts.calls (apiSendright_acts hw hc)
  | send env hd v =>
    cases h
    exact apiSend_calls hw hc
  | call env sh v rh =>
    cases h
    exact callSend_calls hw hc
  | callK env waitOk rh =>
    cases h
    refine Acts.calls (callK_acts hw trivial hc (alive rfl rfl) (fun r hr hm n hn => ?_)
      (fun r hr ho _ => ⟨r.port, ⟨r, hr, rfl⟩, ho⟩) fun r hr hm => ?_)
    · exact ⟨⟨rfl, hn, rfl⟩, r.port, ⟨r, hr, rfl⟩, hm⟩
    · exact ⟨⟨rfl, ⟨r, hr, rfl⟩, hm⟩, rfl, r.port, ⟨r, hr, rfl⟩, hm⟩
  | tryrecv env hd =>
    cases h
    exact Acts.calls (apiTryrecv_acts hw trivial hc (fun n hn => ⟨rfl, hn, rfl⟩)
      fun r hr ho _ => ⟨r.port, ⟨r, hr, rfl⟩, ho⟩)
  | block waitOk i hd =>
    cases h
    exact Acts.calls (apiBlock_acts hw hc (alive rfl rfl) (fun r hr => ⟨rfl, r, hr, rfl⟩) rfl)
  | sendblock P waitOk i hd need =>
    cases h
    exact Acts.calls (apiSendblock_acts hw hc (alive rfl rfl) (fun r hr => ⟨rfl, r, hr, rfl⟩) rfl)
  | alt env wake waitOk cases =>
    cases h
    refine Acts.calls (apiAlt_acts hw trivial hc (alive rfl rfl)
      (fun hr n hn => ⟨⟨rfl, hn, rfl⟩, hr⟩) (fun ho _ => ho)
      fun hn => ⟨⟨rfl, hn⟩, fun c hm r hr => ?_⟩)
    exact ⟨rfl, hn, c, hm, r, hr, rfl⟩
  | altK env wake cases =>
    cases h
    exact Acts.calls (altK_acts hw trivial hc (fun hr n hn => ⟨⟨rfl, hn, rfl⟩, hr⟩) fun ho _ => ho)
  | close i hd =>
    cases h
    exact Acts.calls (apiClose_acts hw trivial fun hne => ⟨rfl, hne, rfl, rfl⟩)
  | ownedClose i ud =>
    cases h
    exact Acts.calls (ownedClose_acts hw trivial fun hpos => ⟨rfl, hpos, rfl, rfl⟩)
  | timer P portOk xrightsOk i due =>
    cases h
    exact Acts.calls (apiTimer_acts hw trivial trivial hc id fun n hn => ⟨rfl, hn, rfl⟩)
  | expireTimers now memOk =>
    have h1 : Acts (Op.scope k (.expireTimers now memOk)).first (k, w)
        (Nlos.expireTimers now memOk k, w) := expireTimers_acts hw trivial trivial hc
    rw [Option.some.inj h] at h1
    exact Acts.calls h1
  | spawn env arg =>
    obtain ⟨o, ho, rfl⟩ := map_eq_some_iff.mp h
    refine Acts.calls
      (apiSpawn_acts hw trivial (fun i hf => ?_) hz hc (fun v hv hm _ => ⟨v, hv, hm⟩) ho)
    exact ⟨⟨fun _ hpr => ⟨hf, _, hpr, rfl⟩, hf, ⟨hf, rfl, rfl⟩, hf, rfl⟩, hf, ⟨hf, rfl⟩,
      fun why => ⟨⟨i, why, hf, rfl⟩, i, why, hf, rfl⟩⟩
  | monitor memOk i pid =>
    cases h
    exact Acts.calls (apiMonitor_acts hw fun hn => ⟨rfl, hn⟩)
  | kill me i why => exact Acts.calls (killBegin_acts hw rfl rfl h)
  | «break» me i why => exact Acts.calls (breakBegin_acts hw rfl rfl h)
  | reap me i => exact Acts.calls (reapBegin_acts hw rfl h)
  | finish memOk t =>
    obtain ⟨-, e⟩ := ite_none_right_eq_some.mp h
    cases e
    exact Acts.calls (finish_acts hw trivial rfl rfl (fun hd => ⟨rfl, hd, rfl⟩)
      fun hd x hx j hj => ⟨hd, x, hx, hj⟩)
  | own i o =>
    cases h
    refine Acts.calls ?_
    unfold modProc
    split
    · exact .refl
    next pr hpr => exact .one (.proc hw hpr ⟨rfl, rfl, rfl, rfl, rfl⟩) trivial
  | waitReap i =>
    cases h
    exact Acts.calls (waitReap_acts hw i)
  | claimCpu i me =>
    cases h
    exact Acts.calls (sched_acts hw (.claimCpu i me))
  | releaseClaim i =>
    cases h
    exact Acts.calls (sched_acts hw (.releaseClaim i))
  | stop i =>
    cases h
    exact Acts.calls (sched_acts hw (.stop i))
  | askStop i b =>
    cases h
    exact Acts.calls (sched_acts hw (.askStop i b))
  | resume i =>
    cases h
    exact Acts.calls (sched_acts hw (.resume i))
  | spawnInit env =>
    cases h
    exact Acts.calls (spawnInit_acts hw trivial (fun i hf => bears_bears k i hf) hz)
  | devicePort P ok =>
    cases h
    exact Acts.calls (devicePort_acts hw)
  | push copyOk kmsgOk p data =>
    obtain ⟨hp, e⟩ := ite_none_right_eq_some.mp h
    cases e
    obtain ⟨q, hq⟩ := hc.kref_portOf hp
    exact Acts.calls (portPush_acts hw hq)
  | grant xrightsOk i p recv =>
    obtain ⟨hp, e⟩ := ite_none_right_eq_some.mp h
    cases e
    obtain ⟨q, hq⟩ := hc.kref_portOf hp
    exact Acts.calls (rightNew_acts hw hq)
  | dbgHold i hd =>
    cases h
    exact Acts.calls (dbgHold_acts hw)
  | dbgFree p =>
    obtain ⟨hp, e⟩ := ite_none_right_eq_some.mp h
    cases e
    exact Acts.calls (dbgFree_acts hw trivial rfl hp)

end Kernel

/-! ## Runs -/

def anyOp (_ : Kernel) (_ : Op) : Bool := true

theorem anyOp_true (k : Kernel) (op : Op) (_ : anyOp k op = true) : True := trivial

/-- The states of the runs from boot whose operations all meet `ok`, each in the state in front of
it. -/
inductive Run (ok : Kernel → Op → Prop) : Kernel → Prop where
  | boot : Run ok .boot
  | step {k k' : Kernel} {op : Op} (hr : Run ok k) (ho : ok k op)
      (hs : step k op = some k') : Run ok k'

/-- A run of these operations, in this order, each checked in the state in front of it. -/
def runOps (chk : Kernel → Op → Bool) (k : Kernel) : List Op → Option Kernel
  | [] => some k
  | op :: ops => if chk k op then (step k op).bind fun k => runOps chk k ops else none

namespace Run

variable {ok ok' : Kernel → Op → Prop} {k k' : Kernel}

theorem invariant {I : Kernel → Prop} (h0 : I .boot)
    (hI : ∀ {k k' op}, Run ok k → I k → ok k op → Nlos.step k op = some k' → I k') (h : Run ok k) :
    I k := by
  induction h with
  | boot => exact h0
  | step hr ho hs ih => exact hI hr ih ho hs

variable {chk : Kernel → Op → Bool} {l : List Op}

theorem ops (hchk : ∀ k op, chk k op = true → ok k op)
    (h : Run ok k) (hl : runOps chk k l = some k') : Run ok k' := by
  induction l generalizing k with
  | nil =>
    cases hl
    exact h
  | cons op l ih =>
    obtain ⟨hc, hl⟩ := ite_none_right_eq_some.mp hl
    obtain ⟨k1, h1, h2⟩ := bind_eq_some_iff.mp hl
    exact ih (.step h (hchk k op hc) h1) h2

theorem of_ops {P : Kernel → Bool}
    (hchk : ∀ k op, chk k op = true → ok k op) (h : (runOps chk .boot l).any P = true) :
    ∃ k, runOps chk .boot l = some k ∧ Run ok k ∧ P k = true := by
  obtain ⟨k, hk, hp⟩ := (Option.any_eq_true _ _).mp h
  exact ⟨k, hk, ops hchk .boot hk, hp⟩

structure Sane (k : Kernel) : Prop where
  counted : k.Counted []
  nports : k.PortsCounted
  roomy : k.Roomy

theorem sane_boot : Sane .boot := by
  refine ⟨fun _ => rfl, ?_, Nat.le_refl 0⟩
  intro i pr hi
  cases hi

theorem sane (h : Run ok k) : Sane k := by
  refine h.invariant sane_boot fun {k k' op} _ hk _ hs => ?_
  have ha := (step_calls Kernel.plain_nil hk.counted hk.roomy hs).acts
  exact ⟨ha.counted hk.counted rfl, ha.nports hk.nports, ha.roomy hk.roomy⟩

end Run

/-! ## A small machine to run -/

namespace Sample

def params : Params := ⟨16, 4, by decide, .w64⟩

/-- A birth for which every allocation works. -/
def newEnv : NewEnv := ⟨params, true, true, true, true, 0, 0⟩

/-- A send of proc `i`, out of these tables, for which every allocation works. -/
def sendEnv (i : Nat) (heap : LuaHeap) : SendEnv := ⟨i, heap, fun _ => true, fun _ => true, true⟩

/-- A receive of proc `i` for which every allocation works. -/
def recvEnv (i : Nat) : RecvEnv := ⟨params, i, fun _ => true, fun _ => true, true⟩

theorem int_ne_nil (h : LuaInteger) : LVal.int h ≠ .nil := by rintro ⟨⟩

theorem buf_ne_nil (b : Nat) : LVal.buf b ≠ .nil := by rintro ⟨⟩

def rightTable (h : LuaInteger) : LuaHeap := .single (.str rightKey) (.int h) rfl (int_ne_nil h)

def sendRight (i : Nat) (h r : LuaInteger) : Op := .send (sendEnv i (rightTable r)) h (.table 0)

def bufTable (b : Nat) : LuaHeap := .single (.str bufKey) (.buf b) rfl (buf_ne_nil b)

def sendBuf (i : Nat) (h : LuaInteger) (b : Nat) : Op := .send (sendEnv i (bufTable b)) h (.table 0)

def oneByte (addr : Nat) : LuaBuf where
  p := some ⟨addr, [0]⟩
  len := 1
  sized := by
    intro c e
    cases e
    rfl
  ro := false
  owned := true
  views := 0

def newBuf (i addr : Nat) : Op := .own i ⟨[oneByte addr], 1, 1, 1, 0, []⟩

def newport (i : Nat) : Op := .newport params true true i

def tryrecv (i : Nat) (h : LuaInteger) : Op := .tryrecv (recvEnv i) h

end Sample

end Nlos
