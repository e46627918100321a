import Nlos.Kernel.Deserialize

/-!
# What a message makes its reader do

The bytes of a message fix what `deserialize` does with them, up to the point where it stops: when
it asks for stack, when lua allocates, which buffer it takes and which right it makes. `plan` reads
that off the bytes alone, as a list of events, and running the events does to the kernel what
`deserialize` does (`deserialize_reads`).
-/

namespace Nlos

open Bytes Fallible

inductive Ev where
  /-- `lua_checkstack`. -/
  | visit
  /-- Lua allocates. -/
  | alloc
  /-- The bytes are bad. -/
  | corrupt
  /-- Buffer `i` of the message is charged to the receiver. -/
  | charge (i : Nat)
  /-- Buffer `i` of the message becomes the receiver's. -/
  | adopt (i : Nat)
  /-- A right to the port in slot `pi` is made. -/
  | mint (pi : Nat) (recv : Bool)
  /-- `lua_settable` with a key that is nil or NaN. -/
  | badkey
deriving DecidableEq

def runEv (env : RecvEnv) : Ev → Des Unit
  | .visit => Des.checkstack env
  | .alloc => Des.alloc env
  | .corrupt => fail .corrupt
  | .charge i => Des.claim env i >>= fun _ => pure ()
  | .adopt i => Des.adopt env i >>= fun _ => pure ()
  | .mint pi recv => Des.mintAt env pi recv >>= fun _ => pure ()
  | .badkey => fail .raise

def runEvs (env : RecvEnv) (l : List Ev) : Des Unit := each (runEv env) l

/-- Events, and what is left once they are done: whether the value read is no table key, and the
bytes behind it. -/
structure Plan where
  evs : List Ev
  out : Option (Bool × List UInt8)

namespace Plan

def bad : Plan := ⟨[.corrupt], none⟩

def done (nokey : Bool) (rest : List UInt8) : Plan := ⟨[], some (nokey, rest)⟩

def ev (e : Ev) (p : Plan) : Plan := ⟨e :: p.evs, p.out⟩

def next (p : Plan) (f : Bool → List UInt8 → Plan) : Plan :=
  match p.out with
  | none => p
  | some (b, rest) => ⟨p.evs ++ (f b rest).evs, (f b rest).out⟩

variable {p : Plan}

theorem next_none (h : p.out = none) (f : Bool → List UInt8 → Plan) : p.next f = p := by
  unfold next
  rw [h]

theorem next_some {b : Bool} {rest : List UInt8} (h : p.out = some (b, rest))
    (f : Bool → List UInt8 → Plan) : p.next f = ⟨p.evs ++ (f b rest).evs, (f b rest).out⟩ := by
  unfold next
  rw [h]

def word (n : Nat) (bs : List UInt8) (f : Nat → List UInt8 → Plan) : Plan :=
  if n ≤ bs.length then f (ofLe (bs.take n)) (bs.drop n) else bad

def pairs (walk : List UInt8 → Plan) : Nat → List UInt8 → Plan
  | 0, bs => done false bs
  | n + 1, bs =>
    (walk bs).next fun nokey bs => (walk bs).next fun _ bs =>
      if nokey then ⟨[.badkey], none⟩ else pairs walk n bs

end Plan

open Plan in
/-- The switch over the tag; `walk` is the plan of a nested value. -/
def Plan.switch (walk : List UInt8 → Plan) : Char → List UInt8 → Plan
  | 'N', bs => done true bs
  | 'T', bs => done false bs
  | 'F', bs => done false bs
  | 'I', bs => word 8 bs fun _ bs => done false bs
  | 'D', bs => word 8 bs fun n bs => done (Double.isNaN (BitVec.ofNat 64 n)) bs
  | 'S', bs => word 4 bs fun n bs =>
    if n ≤ bs.length then .ev .alloc (done false (bs.drop n)) else bad
  | 'B', bs => word 4 bs fun n bs =>
    if n ≤ bs.length / 2 then .ev .alloc (Plan.pairs walk n bs) else bad
  | 'M', bs => word 1 bs fun i bs =>
    .ev (.charge i) <| .ev .alloc <| .ev .alloc <| .ev .alloc <| .ev (.adopt i) <| done false bs
  | 'R', bs =>
    if 3 ≤ bs.length then
      word 2 bs fun pi bs => word 1 bs fun recv bs =>
        .ev (.mint pi (recv != 0)) <| .ev .alloc <| .ev .alloc <| done false bs
    else bad
  | _, _ => bad

/-- The events of the bytes, to a depth. -/
def plan : Nat → List UInt8 → Plan
  | 0, _ => .bad
  | d + 1, bs => .ev .visit <| .word 1 bs fun tag bs => .switch (plan d) (Char.ofNat tag) bs

/-! ## The recursion runs the plan -/

/-- The value is one `lua_settable` raises on. -/
def RVal.noKey : RVal → Bool
  | .nil => true
  | .num b => Double.isNaN b
  | _ => false

theorem settable_none {t : RPairs} {k v : RVal} : t.settable k v = none ↔ k.noKey = true := by
  cases k with
  | nil => exact ⟨fun _ => rfl, fun _ => rfl⟩
  | num b =>
    show (if Double.isNaN b then none else some _) = none ↔ Double.isNaN b = true
    cases Double.isNaN b with
    | true => exact ⟨fun _ => rfl, fun _ => rfl⟩
    | false => exact ⟨nofun, nofun⟩
  | _ => exact ⟨nofun, nofun⟩

/-- Two states of a walk that differ in the bytes left at most. -/
structure Beside (s z : DesState) : Prop where
  k : z.k = s.k
  bufs : z.bufs = s.bufs
  minted : z.minted = s.minted
  visits : z.visits = s.visits
  allocs : z.allocs = s.allocs

theorem Beside.refl (s : DesState) : Beside s s := ⟨rfl, rfl, rfl, rfl, rfl⟩

variable {s : DesState}

theorem Beside.with_rest {z : DesState} (h : Beside s z) (bs : List UInt8) :
    Beside { s with rest := bs } z :=
  { h with }

/-- The events `p` do from `z` what the result `r` says was done. -/
def Fits (env : RecvEnv) (z : DesState) (p : Plan) : Except Fault RVal × DesState → Prop
  | (.ok v, s') => ∃ z', runEvs env p.evs z = (.ok (), z') ∧ Beside s' z' ∧
      p.out = some (v.noKey, s'.rest)
  | (.error e, s') => ∃ z', runEvs env p.evs z = (.error e, z') ∧ Beside s' z'

section

variable {env : RecvEnv} {e : Ev} {l l' : List Ev} {z z' : DesState} {x : Fault}

theorem runEvs_cons_ok (h : runEv env e z = (.ok (), z')) :
    runEvs env (e :: l) z = runEvs env l z' := by
  show each (runEv env) (e :: l) z = _
  rw [each_cons, bind_ok h]
  rfl

theorem runEvs_cons_error (h : runEv env e z = (.error x, z')) :
    runEvs env (e :: l) z = (.error x, z') := by
  show each (runEv env) (e :: l) z = _
  rw [each_cons, bind_error h]

theorem runEvs_append_ok (h : runEvs env l z = (.ok (), z')) :
    runEvs env (l ++ l') z = runEvs env l' z' := by
  show each (runEv env) (l ++ l') z = _
  rw [each_append]
  exact bind_ok h

theorem runEvs_append_error (h : runEvs env l z = (.error x, z')) :
    runEvs env (l ++ l') z = (.error x, z') := by
  show each (runEv env) (l ++ l') z = _
  rw [each_append]
  exact bind_error h

variable {r : Except Fault RVal × DesState}

theorem Fits.append {p : Plan} (hp : Fits env z' p r)
    (h : runEvs env l z = (.ok (), z')) : Fits env z ⟨l ++ p.evs, p.out⟩ r := by
  match r, hp with
  | (.ok _, _), ⟨z'', e', hb, ho⟩ => exact ⟨z'', (runEvs_append_ok h).trans e', hb, ho⟩
  | (.error _, _), ⟨z'', e', hb⟩ => exact ⟨z'', (runEvs_append_ok h).trans e', hb⟩

theorem Fits.ev {p : Plan} (hp : Fits env z' p r)
    (h : runEv env e z = (.ok (), z')) : Fits env z (.ev e p) r := by
  have h1 : runEvs env [e] z = (.ok (), z') := (runEvs_cons_ok h).trans rfl
  exact hp.append h1

end

/-- The event does what the routine `c` does, which leaves the bytes alone. -/
def Does (env : RecvEnv) {β : Type} (e : Ev) (c : Des β) : Prop :=
  ∀ s z, Beside s z → match c s with
    | (.ok _, s') => ∃ z', runEv env e z = (.ok (), z') ∧ Beside s' z' ∧ s'.rest = s.rest
    | (.error x, s') => ∃ z', runEv env e z = (.error x, z') ∧ Beside s' z'

/-- From states beside each other, the plan of the bytes left does what `m` does. -/
def Reads (env : RecvEnv) (m : Des RVal) (P : List UInt8 → Plan) : Prop :=
  ∀ s z, Beside s z → Fits env z (P s.rest) (m s)

namespace Des

variable {n : Nat}

theorem take_ok (h : n ≤ s.rest.length) :
    Des.take n s = (.ok (s.rest.take n), { s with rest := s.rest.drop n }) := by
  simp only [Des.take, bind_apply, get_apply, guard_apply, decide_eq_true h, if_pos,
    put_apply, pure_apply]

theorem word_ok (h : n ≤ s.rest.length) :
    Des.word n s = (.ok (ofLe (s.rest.take n)), { s with rest := s.rest.drop n }) := by
  simp only [Des.word, Des.take, bind_apply, get_apply, guard_apply, decide_eq_true h, if_pos,
    put_apply, pure_apply]

theorem word_short (h : ¬ n ≤ s.rest.length) : Des.word n s = (.error .corrupt, s) := by
  simp only [Des.word, Des.take, bind_apply, get_apply, guard_apply, decide_eq_false h,
    Bool.false_eq_true, if_false]

theorem checkstack_apply (env : RecvEnv) (s : DesState) :
    Des.checkstack env s = (if env.stackOk s.visits then .ok () else .error .limit,
      { s with visits := s.visits + 1 }) := by
  simp only [Des.checkstack, bind_apply, get_apply, put_apply, guard_apply]

theorem alloc_apply (env : RecvEnv) (s : DesState) :
    Des.alloc env s = (if env.allocOk s.allocs then .ok () else .error .raise,
      { s with allocs := s.allocs + 1 }) := by
  simp only [Des.alloc, bind_apply, get_apply, put_apply, guard_apply]

end Des

namespace Reads

variable {env : RecvEnv} {m : Des RVal} {P : List UInt8 → Plan}

theorem bad : Reads env (fail .corrupt) fun _ => Plan.bad :=
  fun _ z hb => ⟨z, rfl, hb⟩

theorem done (v : RVal) : Reads env (pure v) fun bs => Plan.done v.noKey bs :=
  fun _ z hb => ⟨z, rfl, hb, rfl⟩

/-- An event that does what a routine in front does. -/
theorem ev {β : Type} {e : Ev} {c : Des β} {f : β → Des RVal} (hc : Does env e c)
    (hf : ∀ b, Reads env (f b) P) : Reads env (c >>= f) fun bs => .ev e (P bs) := by
  intro s z hb
  rw [bind_apply]
  match c s, hc s z hb with
  | (.ok b, s'), ⟨z', e1, hb', hr⟩ =>
    have h2 := hf b s' z' hb'
    rw [hr] at h2
    exact h2.ev e1
  | (.error _, _), ⟨z', e1, hb'⟩ => exact ⟨z', runEvs_cons_error e1, hb'⟩

theorem next {f : RVal → Des RVal} {Q : Bool → List UInt8 → Plan} (hm : Reads env m P)
    (hf : ∀ v, Reads env (f v) (Q v.noKey)) : Reads env (m >>= f) fun bs => (P bs).next Q := by
  intro s z hb
  rw [bind_apply]
  match m s, hm s z hb with
  | (.ok v, s'), ⟨z', e1, hb', ho⟩ =>
    show Fits env z ((P s.rest).next Q) (f v s')
    rw [Plan.next_some ho]
    exact (hf v s' z' hb').append e1
  | (.error x, s'), ⟨z', e1, hb'⟩ =>
    show Fits env z ((P s.rest).next Q) (.error x, s')
    cases ho : (P s.rest).out with
    | none =>
      rw [Plan.next_none ho]
      exact ⟨z', e1, hb'⟩
    | some o =>
      rw [Plan.next_some ho]
      exact ⟨z', runEvs_append_error e1, hb'⟩

theorem word {n : Nat} {f : Nat → Des RVal} {Q : Nat → List UInt8 → Plan}
    (hf : ∀ x, Reads env (f x) (Q x)) :
    Reads env (Des.word n >>= f) fun bs => Plan.word n bs Q := by
  intro s z hb
  show Fits env z (Plan.word n s.rest Q) _
  unfold Plan.word
  split
  next hn =>
    rw [bind_ok (Des.word_ok hn)]
    exact hf _ _ z (hb.with_rest _)
  next hn =>
    rw [bind_error (Des.word_short hn)]
    exact ⟨z, rfl, hb⟩

theorem check {n : Nat} {g : Nat → Nat}
    (hm : ∀ s z, Beside s z → n ≤ g s.rest.length → Fits env z (P s.rest) (m s)) :
    Reads env (do let s ← get; guard (n ≤ g s.rest.length) .corrupt; m) fun bs =>
      if n ≤ g bs.length then P bs else Plan.bad := by
  intro s z hb
  show Fits env z (if n ≤ g s.rest.length then P s.rest else Plan.bad)
    ((guard (n ≤ g s.rest.length) .corrupt >>= fun _ => m) s)
  by_cases hn : n ≤ g s.rest.length
  · rw [if_pos hn, bind_ok (by rw [guard_apply, if_pos (decide_eq_true hn)])]
    exact hm s z hb hn
  · rw [if_neg hn, bind_error (by rw [guard_apply, decide_eq_false hn]; rfl)]
    exact ⟨z, rfl, hb⟩

end Reads

/-! ### The routines and their events -/

section Does

variable {env : RecvEnv}

theorem does_visit : Does env .visit (Des.checkstack env) := by
  intro s z hb
  have hz : Beside { s with visits := s.visits + 1 } { z with visits := s.visits + 1 } :=
    ⟨hb.k, hb.bufs, hb.minted, rfl, hb.allocs⟩
  have e : runEv env .visit z = _ := Des.checkstack_apply env z
  rw [Des.checkstack_apply, e, hb.visits]
  cases env.stackOk s.visits with
  | true => exact ⟨_, rfl, hz, rfl⟩
  | false => exact ⟨_, rfl, hz⟩

theorem does_alloc : Does env .alloc (Des.alloc env) := by
  intro s z hb
  have hz : Beside { s with allocs := s.allocs + 1 } { z with allocs := s.allocs + 1 } :=
    ⟨hb.k, hb.bufs, hb.minted, hb.visits, rfl⟩
  have e : runEv env .alloc z = _ := Des.alloc_apply env z
  rw [Des.alloc_apply, e, hb.allocs]
  cases env.allocOk s.allocs with
  | true => exact ⟨_, rfl, hz, rfl⟩
  | false => exact ⟨_, rfl, hz⟩

/-- A routine that looks at everything but the bytes left. -/
def Blind {β : Type} (c : Des β) : Prop :=
  ∀ s bs, c { s with rest := bs } = ((c s).1, { (c s).2 with rest := bs }) ∧ (c s).2.rest = s.rest

theorem does_of_blind {β : Type} {e : Ev} {c : Des β} (hc : Blind c)
    (he : runEv env e = c >>= fun _ => pure ()) : Does env e c := by
  intro s z hb
  have hz : z = { s with rest := z.rest } := by
    obtain ⟨hk, hbufs, hm, hv, ha⟩ := hb
    cases z
    cases hk
    cases hbufs
    cases hm
    cases hv
    cases ha
    rfl
  have e1 := hc s z.rest
  rw [← hz] at e1
  rw [he]
  match c s, e1 with
  | (.ok b, s'), ⟨e1, hr⟩ => exact ⟨_, bind_ok e1, ⟨rfl, rfl, rfl, rfl, rfl⟩, hr⟩
  | (.error x, s'), ⟨e1, _⟩ => exact ⟨_, bind_error e1, ⟨rfl, rfl, rfl, rfl, rfl⟩⟩

theorem blind_claim (i : Nat) : Blind (Des.claim env i) := by
  intro s bs
  simp only [Des.claim, Des.charge, bind_apply, get_apply]
  cases s.bufs[i]? with
  | none => exact ⟨rfl, rfl⟩
  | some mb =>
    cases hp : mb.p.isSome with
    | false => simp [hp, bind_apply]
    | true =>
      cases hpr : s.k.procv[env.proc]? with
      | none => simp [hp, hpr, bind_apply]
      | some pr => cases h : kbufCharge pr mb.len <;> simp [hp, hpr, h, bind_apply]

theorem blind_adopt (i : Nat) : Blind (Des.adopt env i) := by
  intro s bs
  simp only [Des.adopt, bind_apply, get_apply]
  cases s.bufs[i]? with
  | none => exact ⟨rfl, rfl⟩
  | some mb =>
    cases s.k.procv[env.proc]? <;> exact ⟨rfl, rfl⟩

theorem blind_mintAt (pi : Nat) (recv : Bool) : Blind (Des.mintAt env pi recv) := by
  intro s bs
  simp only [Des.mintAt, Des.mint, bind_apply, get_apply]
  cases s.k.portAt pi with
  | none => exact ⟨rfl, rfl⟩
  | some q =>
    by_cases h1 : pi < env.params.maxPorts
    · by_cases h2 : s.minted.length < maxMsgRights
      · match h : Kernel.rightNew env.xrightsOk s.k env.proc ⟨pi, q.gen⟩ recv with
        | (none, k') => simp [bind_apply, h1, h2, h]
        | (some b, k') => simp [bind_apply, h1, h2, h]
      · simp [bind_apply, h1, h2]
    · simp [bind_apply, h1]

theorem does_claim (i : Nat) : Does env (.charge i) (Des.claim env i) :=
  does_of_blind (blind_claim i) rfl

theorem does_adopt (i : Nat) : Does env (.adopt i) (Des.adopt env i) :=
  does_of_blind (blind_adopt i) rfl

theorem does_mint (pi : Nat) (recv : Bool) : Does env (.mint pi recv) (Des.mintAt env pi recv) :=
  does_of_blind (blind_mintAt pi recv) rfl

end Does

/-! ### The tags -/

section Tags

variable {env : RecvEnv}

theorem getStr_reads : Reads env (Des.getStr env) fun bs => .word 4 bs fun n bs =>
    if n ≤ bs.length then .ev .alloc (.done false (bs.drop n)) else .bad := by
  refine .word fun n => ?_
  refine .check (g := id) fun s z hb hn => ?_
  -- the bytes are still there after the allocation, so the second check passes
  have h1 := @does_alloc env s z hb
  rw [Des.alloc_apply] at h1
  rw [bind_apply, Des.alloc_apply]
  cases hok : env.allocOk s.allocs with
  | false =>
    rw [hok] at h1
    obtain ⟨z', e1, hb'⟩ := h1
    exact ⟨z', runEvs_cons_error e1, hb'⟩
  | true =>
    rw [hok] at h1
    obtain ⟨z', e1, hb', -⟩ := h1
    refine Fits.ev ?_ e1
    have ht : Des.take n { s with allocs := s.allocs + 1 } = (.ok (s.rest.take n),
        { s with allocs := s.allocs + 1, rest := s.rest.drop n }) := Des.take_ok hn
    show Fits env z' _ ((Des.take n >>= fun bs => pure (.str bs)) _)
    rw [bind_ok ht]
    exact ⟨z', rfl, hb'.with_rest _, rfl⟩

variable {walk : Des RVal}

theorem pairs_reads {P : List UInt8 → Plan} (hw : Reads env walk P) (n : Nat) :
    ∀ t, Reads env (Des.pairs walk n t) (Plan.pairs P n) := by
  induction n with
  | zero => exact fun t => .done (.table t)
  | succ n ih =>
    intro t
    refine .next hw fun k => ?_
    refine .next hw fun v => ?_
    cases h : t.settable k v with
    | none =>
      rw [settable_none] at h
      rw [h]
      exact fun s z hb => ⟨z, rfl, hb⟩
    | some t' =>
      have hk : k.noKey = false := by
        cases hk : k.noKey with
        | false => rfl
        | true =>
          rw [settable_none.mpr hk] at h
          cases h
      rw [hk]
      exact ih t'

theorem getTable_reads {P : List UInt8 → Plan} (hw : Reads env walk P) :
    Reads env (Des.getTable env walk) fun bs => .word 4 bs fun n bs =>
      if n ≤ bs.length / 2 then .ev .alloc (Plan.pairs P n bs) else .bad :=
  .word fun n => .check (g := (· / 2)) fun s z hb _ =>
    Reads.ev does_alloc (fun _ => pairs_reads hw n .nil) s z hb

theorem getBuf_reads : Reads env (Des.getBuf env) fun bs => .word 1 bs fun i bs =>
    .ev (.charge i) <| .ev .alloc <| .ev .alloc <| .ev .alloc <| .ev
      (.adopt i) <| .done false bs := by
  refine .word fun i => ?_
  refine .ev (does_claim i) fun _ => ?_
  refine .ev does_alloc fun _ => .ev does_alloc fun _ => .ev does_alloc fun _ => ?_
  exact .ev (does_adopt i) fun b => .done (.buf b)

theorem getRight_reads : Reads env (Des.getRight env) fun bs =>
    if 3 ≤ bs.length then .word 2 bs fun pi bs => .word 1 bs fun recv bs =>
      .ev (.mint pi (recv != 0)) <| .ev .alloc <| .ev .alloc <| .done false bs
    else .bad := by
  refine .check (g := id) fun s z hb _ => Reads.word (fun pi => .word fun recv => ?_) s z hb
  refine .ev (does_mint pi (recv != 0)) fun h => ?_
  exact .ev does_alloc fun _ => .ev does_alloc fun _ => .done _

theorem switch_reads {P : List UInt8 → Plan} (hw : Reads env walk P)
    (c : Char) : Reads env (Des.switch env walk c) (Plan.switch P c) := by
  unfold Des.switch
  split
  · exact .done .nil
  · exact .done (.bool true)
  · exact .done (.bool false)
  · exact .word fun n => .done (.int (BitVec.ofNat 64 n))
  · exact .word fun n => .done (.num (BitVec.ofNat 64 n))
  · exact getStr_reads
  · exact getTable_reads hw
  · exact getBuf_reads
  · exact getRight_reads
  · have e : Plan.switch P c = fun _ => .bad := by
      funext bs
      unfold Plan.switch
      split <;> first | contradiction | rfl
    rw [e]
    exact .bad

end Tags

/-- Deserializing does what the plan of the bytes does. -/
theorem deserialize_reads (env : RecvEnv) (d : Nat) : Reads env (deserialize env d) (plan d) := by
  induction d with
  | zero => exact .bad
  | succ d ih => exact .ev does_visit fun _ => .word fun tag => switch_reads ih (Char.ofNat tag)

end Nlos
