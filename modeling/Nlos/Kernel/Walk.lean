import Nlos.Kernel.Serialize

/-!
# The walk over a value, laid flat

What `serialize` does with a value is fixed by the value: it visits, writes, looks up a right, moves
a buffer, copies a buffer, or meets something that does not travel, in an order that the tables
give. `items` is that order as a list, and running the list does what the recursion does
(`serialize_flows`).

The one difference is in the bytes. The recursion leaves the count of a table open and patches it
after the pairs; the list writes the right count at once.
-/

namespace Nlos

open Bytes Fallible List

inductive Item where
  /-- `lua_checkstack`. -/
  | visit
  /-- `wput` of these bytes. -/
  | put (bs : List UInt8)
  /-- `{__right = h}`. -/
  | right (h : LuaInteger)
  /-- `{__buf = b}`. -/
  | move (b : Nat)
  /-- A bare `los.buf`. -/
  | copy (b : Nat)
  /-- Something that does not travel. -/
  | stop
deriving DecidableEq

def strItems (s : List UInt8) : List Item :=
  [.put ['S'.toUInt8], .put (le 4 s.length), .put s]

/-- The items of a value, to a depth. -/
def items (heap : LuaHeap) : Nat → LVal → List Item
  | 0, _ => [.stop]
  | d + 1, v => .visit ::
    match v with
    | .nil => [.put ['N'.toUInt8]]
    | .bool b => [.put [if b then 'T'.toUInt8 else 'F'.toUInt8]]
    | .int n => [.put ['I'.toUInt8], .put (le 8 n.toNat)]
    | .num bits => [.put ['D'.toUInt8], .put (le 8 bits.toNat)]
    | .str s => strItems s
    | .table t =>
      match heap.rawget t rightKey with
      | .nil =>
        match heap.rawget t bufKey with
        | .nil =>
          .put ['B'.toUInt8] :: .put (le 4 (heap.tables t).length) ::
            (heap.tables t).flatMap fun e => items heap d e.1 ++ items heap d e.2
        | .buf b => [.move b]
        | _ => [.stop]
      | .int h => [.right h]
      | _ => [.stop]
    | .buf b => [.copy b]
    | .other => [.stop]

def runItem (env : SendEnv) : Item → Ser Unit
  | .visit => Ser.checkstack env
  | .put bs => Ser.wput env bs
  | .right h => Ser.putRight env h
  | .move b => Ser.putBuf env b
  | .copy b => Ser.copyBuf env b
  | .stop => fail .reject

def runItems (env : SendEnv) (l : List Item) : Ser Unit := each (runItem env) l

/-! ## The recursion runs the list -/

/-- Two states of a walk that differ in the bytes written at most, and not in their number. -/
structure Level (s z : SerState) : Prop where
  k : z.k = s.k
  visits : z.visits = s.visits
  cap : z.w.cap = s.w.cap
  refs : z.w.refs = s.w.refs
  bufs : z.w.bufs = s.w.bufs
  bufown : z.w.bufown = s.w.bufown
  len : z.w.data.length = s.w.data.length

theorem Level.refl (s : SerState) : Level s s := ⟨rfl, rfl, rfl, rfl, rfl, rfl, rfl⟩

/-- The two states have the same bytes behind what they started with. -/
def Grown (s z s' z' : SerState) : Prop :=
  ∃ bs, s'.w.data = s.w.data ++ bs ∧ z'.w.data = z.w.data ++ bs

/-- The two results agree: both returned, with the same bytes written, or both stopped for the
same reason. -/
def Agree (s z : SerState) : Except Stop Unit × SerState → Except Stop Unit × SerState → Prop
  | (.ok _, s'), (.ok _, z') => Level s' z' ∧ Grown s z s' z'
  | (.error e, s'), (.error e', z') => e' = e ∧ Level s' z'
  | _, _ => False

def Flows (m n : Ser Unit) : Prop := ∀ s z, Level s z → Agree s z (m s) (n z)

namespace Flows

variable {m m' n n' : Ser Unit} {env : SendEnv}

theorem bind (h : Flows m n) (h' : Flows m' n') :
    Flows (m >>= fun _ => m') (n >>= fun _ => n') := by
  intro s z hl
  rw [bind_apply, bind_apply]
  match m s, n z, h s z hl with
  | (.ok _, s1), (.ok _, z1), ⟨hl1, bs, e1, e2⟩ =>
    simp only
    match m' s1, n' z1, h' s1 z1 hl1 with
    | (.ok _, s2), (.ok _, z2), ⟨hl2, bs', e3, e4⟩ =>
      refine ⟨hl2, bs ++ bs', ?_, ?_⟩
      · rw [e3, e1, append_assoc]
      · rw [e4, e2, append_assoc]
    | (.error _, _), (.error _, _), h2 => exact h2
  | (.error _, _), (.error _, _), h1 => exact h1

theorem fail (e : Stop) : Flows (fail e) (fail e) := fun _ _ hl => ⟨rfl, hl⟩

theorem pure : Flows (Pure.pure ()) (Pure.pure ()) :=
  fun _ _ hl => ⟨hl, [], (append_nil _).symm, (append_nil _).symm⟩

theorem bind_pure_right (h : Flows m n) : Flows m (n >>= fun _ => Pure.pure ()) := by
  intro s z hl
  rw [bind_apply]
  match n z, h s z hl with
  | (.ok _, _), h1 => exact h1
  | (.error _, _), h1 => exact h1

end Flows

namespace Ser

variable {env : SendEnv}

theorem wput_apply (src : List UInt8) (s : SerState) : wput env src s =
    match wroom env.reallocOk s.w.data.length s.w.cap src.length with
    | none => (.error .reject, s)
    | some cap => (.ok (), { s with w := { s.w with data := s.w.data ++ src, cap := cap } }) := by
  unfold wput
  rw [bind_apply, get_apply]
  simp only
  cases wroom env.reallocOk s.w.data.length s.w.cap src.length <;> rfl

theorem checkstack_apply (s : SerState) : checkstack env s =
    (if env.stackOk s.visits then .ok () else .error .reject, { s with visits := s.visits + 1 }) := by
  unfold checkstack
  rw [bind_apply, get_apply]
  simp only
  rw [bind_apply, put_apply]
  simp only [guard_apply]

/-- Writes of the same length agree in all but the bytes. -/
theorem wput_level (env : SendEnv) {src src' : List UInt8} (hlen : src'.length = src.length)
    {s z : SerState} (hl : Level s z) :
    (∃ s' z', wput env src s = (.ok (), s') ∧ wput env src' z = (.ok (), z') ∧ Level s' z' ∧
      s'.w.data = s.w.data ++ src ∧ z'.w.data = z.w.data ++ src') ∨
    (wput env src s = (.error .reject, s) ∧ wput env src' z = (.error .reject, z)) := by
  rw [wput_apply, wput_apply, hl.len, hl.cap, hlen]
  cases wroom env.reallocOk s.w.data.length s.w.cap src.length with
  | none => exact .inr ⟨rfl, rfl⟩
  | some cap =>
    refine .inl ⟨_, _, rfl, rfl, ⟨hl.k, hl.visits, rfl, hl.refs, hl.bufs, hl.bufown, ?_⟩, rfl, rfl⟩
    simp only [length_append, hl.len, hlen]

theorem wput_flows (src : List UInt8) : Flows (wput env src) (wput env src) := by
  intro s z hl
  rcases wput_level env (Eq.refl src.length) hl with ⟨s', z', e1, e2, hl', e3, e4⟩ | ⟨e1, e2⟩
  · rw [e1, e2]
    exact ⟨hl', src, e3, e4⟩
  · rw [e1, e2]
    exact ⟨rfl, hl⟩

theorem checkstack_flows : Flows (checkstack env) (checkstack env) := by
  intro s z hl
  have hl' : Level { s with visits := s.visits + 1 } { z with visits := z.visits + 1 } :=
    ⟨hl.k, congrArg (· + 1) hl.visits, hl.cap, hl.refs, hl.bufs, hl.bufown, hl.len⟩
  rw [checkstack_apply, checkstack_apply, hl.visits]
  cases env.stackOk s.visits with
  | true => exact ⟨hl.visits ▸ hl', [], (append_nil _).symm, (append_nil _).symm⟩
  | false => exact ⟨rfl, hl.visits ▸ hl'⟩

theorem modify_flows {f : SerState → SerState}
    (hf : ∀ s z, Level s z → Level (f s) (f z)) (hd : ∀ s, (f s).w.data = s.w.data) :
    Flows (modify f) (modify f) := by
  intro s z hl
  exact ⟨hf s z hl, [], by rw [hd, append_nil], by rw [hd, append_nil]⟩

/-- A test that level states agree on. -/
theorem guard_flows {m n : Ser Unit} (b : Bool) (h : Flows m n) :
    Flows (guard b .reject >>= fun _ => m) (guard b .reject >>= fun _ => n) := by
  intro s z hl
  cases b with
  | true => exact h s z hl
  | false => exact ⟨rfl, hl⟩

/-- A routine that reads the state first flows if it does with the state fixed. -/
theorem get_flows {f g : SerState → Ser Unit}
    (h : ∀ s z, Level s z → Agree s z (f s s) (g z z)) : Flows (get >>= f) (get >>= g) := h

theorem putRight_flows (h : LuaInteger) : Flows (putRight env h) (putRight env h) := by
  refine get_flows fun s z hl => ?_
  rw [hl.k, hl.refs]
  cases s.k.rightGet env.proc h with
  | none => exact ⟨rfl, hl⟩
  | some r =>
    have htake : Flows (modify (takeRef r)) (modify (takeRef r)) := by
      refine modify_flows (fun s z hl => ?_) fun _ => rfl
      unfold takeRef
      exact ⟨by rw [hl.k], hl.visits, hl.cap, by rw [hl.refs], hl.bufs, hl.bufown, hl.len⟩
    exact guard_flows _ (Flows.bind (wput_flows _) (Flows.bind (wput_flows _)
      (Flows.bind (wput_flows _) htake))) s z hl

theorem putBuf_flows (b : Nat) : Flows (putBuf env b) (putBuf env b) := by
  refine get_flows fun s z hl => ?_
  rw [hl.k, hl.bufs, hl.bufown]
  cases luabufBorrow s.k env.proc b with
  | none => exact ⟨rfl, hl⟩
  | some lb =>
    have hlend : Flows (modify (lendBuf b lb)) (modify (lendBuf b lb)) := by
      refine modify_flows (fun s z hl => ?_) fun _ => rfl
      unfold lendBuf
      exact ⟨hl.k, hl.visits, hl.cap, hl.refs, by rw [hl.bufs], by rw [hl.bufown], hl.len⟩
    exact guard_flows _ (guard_flows _ (Flows.bind (wput_flows _) (Flows.bind (wput_flows _)
      hlend))) s z hl

theorem putStr_flows (bs : List UInt8) : Flows (putStr env bs) (putStr env bs) :=
  Flows.bind (wput_flows _) (Flows.bind (wput_flows _) (wput_flows _))

theorem copyBuf_flows (b : Nat) : Flows (copyBuf env b) (copyBuf env b) := by
  refine get_flows fun s z hl => ?_
  rw [hl.k]
  cases luabuf s.k env.proc b with
  | none => exact ⟨rfl, hl⟩
  | some lb =>
    simp only
    cases lb.p with
    | none => exact ⟨rfl, hl⟩
    | some c => exact putStr_flows c.bytes s z hl

end Ser

variable {walk : LVal → Ser Unit} {list : LVal → List Item}

theorem pairs_flows {env : SendEnv}
    (hw : ∀ v, Flows (walk v) (runItems env (list v))) (es : List (LVal × LVal)) :
    Flows (Ser.pairs walk es) (runItems env (es.flatMap fun e => list e.1 ++ list e.2)) := by
  induction es with
  | nil => exact Flows.pure
  | cons e es ih =>
    unfold runItems at hw ih ⊢
    rw [flatMap_cons, append_assoc, each_append, each_append]
    exact Flows.bind (hw e.1) (Flows.bind (hw e.2) ih)

/-- A table: the count that was left open and patched is the count written at once. -/
theorem putTable_flows {env : SendEnv}
    (hw : ∀ v, Flows (walk v) (runItems env (list v))) (es : List (LVal × LVal)) :
    Flows (Ser.putTable env walk es) (runItems env
      (.put ['B'.toUInt8] :: .put (le 4 es.length) ::
        es.flatMap fun e => list e.1 ++ list e.2)) := by
  intro s z hl
  unfold Ser.putTable runItems
  rw [bind_apply, get_apply, each_cons, each_cons]
  simp only
  rcases Ser.wput_level env (Eq.refl ['B'.toUInt8].length) hl with
    ⟨s1, z1, e1, e2, hl1, d1, d2⟩ | ⟨e1, e2⟩
  · have e1' : Ser.wbyte env 'B'.toUInt8 s = (.ok (), s1) := e1
    have e2' : runItem env (.put ['B'.toUInt8]) z = (.ok (), z1) := e2
    rw [bind_ok e1', bind_ok e2']
    have hlen : (le 4 es.length).length = (le 4 0).length := by rw [length_le, length_le]
    rcases Ser.wput_level env hlen hl1 with ⟨s2, z2, e3, e4, hl2, d3, d4⟩ | ⟨e3, e4⟩
    · have e4' : runItem env (.put (le 4 es.length)) z1 = (.ok (), z2) := e4
      rw [bind_ok e3, bind_ok e4']
      have h3 := pairs_flows hw es s2 z2 hl2
      unfold runItems at h3
      rw [bind_apply]
      match Ser.pairs walk es s2, each (runItem env) _ z2, h3 with
      | (.ok _, s3), (.ok _, z3), ⟨hl3, bs, d5, d6⟩ =>
        -- what stands before the open field, the field, and what the pairs wrote
        have hs3 : s3.w.data = (s.w.data ++ ['B'.toUInt8]) ++ (le 4 0 ++ bs) := by
          rw [d5, d3, d1, append_assoc]
        have hpos : s.w.data.length + 1 = (s.w.data ++ ['B'.toUInt8]).length := by
          rw [length_append]
          rfl
        have hpatch : overwrite s3.w.data (s.w.data.length + 1) (le 4 es.length) =
            (s.w.data ++ ['B'.toUInt8]) ++ (le 4 es.length ++ bs) := by
          rw [hs3, hpos]
          exact overwrite_field _ _ _ _ hlen
        refine ⟨⟨hl3.k, hl3.visits, hl3.cap, hl3.refs, hl3.bufs, hl3.bufown, ?_⟩,
          'B'.toUInt8 :: (le 4 es.length ++ bs), ?_, ?_⟩
        · show z3.w.data.length =
            (overwrite s3.w.data (s.w.data.length + 1) (le 4 es.length)).length
          rw [hpatch, hl3.len, hs3]
          simp only [length_append, length_le]
        · show overwrite s3.w.data (s.w.data.length + 1) (le 4 es.length) = _
          rw [hpatch, append_assoc]
          rfl
        · rw [d6, d4, d2, append_assoc, append_assoc]
          rfl
      | (.error _, _), (.error _, _), h3 => exact h3
    · have e4' : runItem env (.put (le 4 es.length)) z1 = (.error .reject, z1) := e4
      rw [bind_error e3, bind_error e4']
      exact ⟨rfl, hl1⟩
  · have e1' : Ser.wbyte env 'B'.toUInt8 s = (.error .reject, s) := e1
    have e2' : runItem env (.put ['B'.toUInt8]) z = (.error .reject, z) := e2
    rw [bind_error e1', bind_error e2']
    exact ⟨rfl, hl⟩

theorem flows_single {env : SendEnv} {m : Ser Unit} {x : Item} (h : Flows m (runItem env x)) :
    Flows m (runItems env [x]) :=
  h.bind_pure_right

/-- `serialize` does what the items of the value say, in their order. -/
theorem serialize_flows (env : SendEnv) (d : Nat) (v : LVal) :
    Flows (serialize env d v) (runItems env (items env.heap d v)) := by
  induction d generalizing v with
  | zero => exact flows_single (Flows.fail .reject)
  | succ d ih =>
    refine Flows.bind Ser.checkstack_flows ?_
    cases v with
    | nil | bool b => exact flows_single (Ser.wput_flows _)
    | int n | num bits => exact Flows.bind (Ser.wput_flows _) (flows_single (Ser.wput_flows _))
    | str s =>
      exact Flows.bind (Ser.wput_flows _) (Flows.bind (Ser.wput_flows _)
        (flows_single (Ser.wput_flows _)))
    | table t =>
      simp only
      cases env.heap.rawget t rightKey with
      | nil =>
        cases env.heap.rawget t bufKey with
        | nil => exact putTable_flows ih (env.heap.tables t)
        | buf b => exact flows_single (Ser.putBuf_flows b)
        | _ => exact flows_single (Flows.fail .reject)
      | int h => exact flows_single (Ser.putRight_flows h)
      | _ => exact flows_single (Flows.fail .reject)
    | buf b => exact flows_single (Ser.copyBuf_flows b)
    | other => exact flows_single (Flows.fail .reject)

end Nlos
