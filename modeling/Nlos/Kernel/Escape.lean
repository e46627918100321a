import Nlos.Kernel.References

/-!
# Walks that are left by a lua error

`serialize` has one way out that is neither 0 nor -1: a bare `los.buf` whose bytes were given away
makes `luabuf_bytes` raise. The references taken so far are in the buffer of a caller that is not
returned to. Two callers hold the wide ipc lock over the walk and leave it held, and the kernel loop
stops the machine when it finds the lock.
-/

namespace Nlos

open Kernel

variable {env : SendEnv} {s : SerState} {d : Nat} {v : LVal} {k : Kernel}

/-- However a walk ends, the references it took are the entries it wrote. -/
theorem serialize_recorded (env : SendEnv) (d : Nat) (v : LVal) (s : SerState) :
    ∃ rs, (serialize env d v s).2.k = s.k.takeRefs rs ∧
      (serialize env d v s).2.w.refs = s.w.refs ++ rs.map Right.entry := by
  match h : serialize env d v s with
  | (.ok (), s') =>
    obtain ⟨z, -, -, -, ht⟩ := serialize_ok h
    exact ⟨_, ht.k, ht.refs⟩
  | (.error e, s') =>
    obtain ⟨pre, x, post, u, t, -, -, -, ht⟩ := serialize_error h
    exact ⟨_, ht.k, ht.refs⟩

theorem serialize_ipcDepth (env : SendEnv) (d : Nat) (v : LVal) (s : SerState) :
    (serialize env d v s).2.k.ipcDepth = s.k.ipcDepth := by
  obtain ⟨rs, hk, -⟩ := serialize_recorded env d v s
  rw [hk]
  exact (sameHolders_takeRefs _ rs).ipcDepth

/-! ## The callers -/

theorem luabufDetach_ipcDepth (i : Nat) (bs : List Nat) (k : Kernel) :
    (bs.foldl (luabufDetach i) k).ipcDepth = k.ipcDepth := by
  induction bs generalizing k with
  | nil => rfl
  | cons b bs ih =>
    refine (ih _).trans ?_
    unfold luabufDetach
    split
    · rfl
    · split <;> rfl

theorem portSendFromLua_ipcDepth (env : SendEnv) (k : Kernel) (p : PortRef) (v : LVal) :
    (portSendFromLua env k p v).2.ipcDepth = k.ipcDepth := by
  have hs := serialize_ipcDepth env (maxDepth + 1) v (env.start k v)
  unfold portSendFromLua
  match serialize env (maxDepth + 1) v (env.start k v), hs with
  | (.error .raise, _), hs => exact hs
  | (.error .reject, _), hs => exact (sameHolders_releaseInflight _ _).ipcDepth.trans hs
  | (.ok (), s), hs =>
    have hp : (portPushOwned env.kmsgOk s.k p s.w.data s.w.refs s.w.bufs).2.ipcDepth = k.ipcDepth :=
      sameHolders_portPushOwned.ipcDepth.trans hs
    simp only
    split
    next k' e =>
      rw [e] at hp
      exact (luabufDetach_ipcDepth _ _ _).trans hp
    next rc k' _ e =>
      rw [e] at hp
      exact (sameHolders_releaseInflight _ _).ipcDepth.trans hp

theorem portSendFromLua_none_iff {p : PortRef} :
    (portSendFromLua env k p v).1 = none ↔ MeetsGone env (maxDepth + 1) (env.start k v) v := by
  rw [← serialize_raise_iff]
  unfold portSendFromLua
  rcases serialize env (maxDepth + 1) v (env.start k v) with ⟨(_ | _) | ⟨⟩, s⟩
  · refine iff_of_false (Option.some_ne_none _) ?_
    rintro ⟨s', e⟩
    cases e
  · exact iff_of_true rfl ⟨s, rfl⟩
  · refine iff_of_false ?_ ?_
    · simp only
      split <;> exact Option.some_ne_none _
    · rintro ⟨s', e⟩
      cases e

variable {sh rh : LuaInteger}

/-- `sys.call` comes back with the lock it entered still held exactly if its walk raises. -/
theorem callSend_ipcDepth_iff : (callSend env k sh v rh).2.ipcDepth = k.ipcDepth ↔
    ¬(CallSends env k sh rh ∧ MeetsGone env (maxDepth + 1) (env.start k.ipclockEnter v) v) := by
  unfold callSend
  split
  next hr =>
    refine iff_of_true rfl ?_
    rintro ⟨⟨⟨r, hr'⟩, -⟩, -⟩
    rw [hr] at hr'
    cases hr'
  next hrr =>
    refine iff_of_true rfl ?_
    rintro ⟨⟨-, ⟨rr, hrr', -⟩, -⟩, -⟩
    rw [hrr] at hrr'
    cases hrr'
  next r rr hr hrr =>
    split
    next hrecv =>
      refine iff_of_true rfl ?_
      rintro ⟨⟨-, ⟨rr', hrr', hb⟩, -⟩, -⟩
      rw [hrr] at hrr'
      cases hrr'
      rw [hb] at hrecv
      cases hrecv
    next hrecv =>
    split
    next hwait =>
      refine iff_of_true rfl ?_
      rintro ⟨⟨-, -, hw⟩, -⟩
      rw [hw] at hwait
      cases hwait
    next hwait =>
    have hsends : CallSends env k sh rh :=
      ⟨⟨r, hr⟩, ⟨rr, hrr, by simpa using hrecv⟩, by simpa using hwait⟩
    have hd : (portSendFromLua env k.ipclockEnter r.port v).2.ipcDepth = k.ipcDepth + 1 :=
      portSendFromLua_ipcDepth env k.ipclockEnter r.port v
    rw [and_iff_right hsends, ← portSendFromLua_none_iff (p := r.port)]
    split
    next k' e =>
      rw [e] at hd ⊢
      exact iff_of_false (fun h => Nat.succ_ne_self _ (hd.symm.trans h)) fun h => h rfl
    next rc n k' e =>
    rw [e] at hd ⊢
    have hleave : k'.ipclockLeave.ipcDepth = k.ipcDepth := Nat.sub_eq_of_eq_add hd
    refine iff_of_true ?_ (Option.some_ne_none _)
    split <;> exact hleave

/-- The region of `sys.spawn` that holds the wide lock: the walk over the argument, with its buffer
written or its references given back. `none` is a lua error out of the walk. -/
def spawnRegion (env : SendEnv) (k : Kernel) (v : LVal) : Option (Option WBuf) × Kernel :=
  match serialize env (maxDepth + 1) v ⟨k.ipclockEnter, .zero, 0⟩ with
  | (.error .raise, s) => (none, { s.k with lost := s.w.refs ++ s.k.lost })
  | (.error .reject, s) => (some none, (s.k.releaseInflight s.w.refs).ipclockLeave)
  | (.ok (), s) => (some (some s.w), s.k.ipclockLeave)

theorem apiSpawn_region (env : SpawnEnv) (k : Kernel) (v : LVal) : apiSpawn env k (some v) =
    match spawnRegion env.send k v with
    | (none, k) => some (.error "buffer has been given away", k)
    | (some none, k) => some (.error "spawn: unserializable arg", k)
    | (some (some w), k) =>
      match procNew env.new k with
      | (none, k) => some (.error "spawn failed", k.releaseInflight w.refs)
      | (some child, k) => spawnArg env k w child := by
  unfold apiSpawn spawnRegion
  simp only
  rcases serialize env.send (maxDepth + 1) v ⟨k.ipclockEnter, .zero, 0⟩ with ⟨(_ | _) | ⟨⟩, s⟩ <;>
    rfl

theorem spawnRegion_ipcDepth_iff : (spawnRegion env k v).2.ipcDepth = k.ipcDepth ↔
    ¬MeetsGone env (maxDepth + 1) ⟨k.ipclockEnter, .zero, 0⟩ v := by
  have hs : (serialize env (maxDepth + 1) v ⟨k.ipclockEnter, .zero, 0⟩).2.k.ipcDepth =
      k.ipcDepth + 1 :=
    serialize_ipcDepth env (maxDepth + 1) v ⟨k.ipclockEnter, .zero, 0⟩
  have hnot : ∀ {e : Except Stop Unit} {s : SerState}, e ≠ .error .raise →
      ¬∃ s', (e, s) = (Except.error Stop.raise, s') := by
    rintro e s he ⟨s', h⟩
    exact he (Prod.ext_iff.mp h).1
  rw [← serialize_raise_iff]
  unfold spawnRegion
  generalize serialize env (maxDepth + 1) v ⟨k.ipclockEnter, .zero, 0⟩ = o at hs ⊢
  rcases o with ⟨(_ | _) | ⟨⟩, s⟩
  · exact iff_of_true (Nat.sub_eq_of_eq_add ((sameHolders_releaseInflight _ _).ipcDepth.trans hs))
      (hnot nofun)
  · exact iff_of_false (fun h => Nat.succ_ne_self _ (hs.symm.trans h)) fun h => h ⟨s, rfl⟩
  · exact iff_of_true (Nat.sub_eq_of_eq_add hs) (hnot nofun)

/-! ## Walks that return -/

/-- A walk returns exactly if it meets no buffer that was given away. However it ends, what it took
is in its buffer; and exactly in the same cases `port_send_from_lua` comes back to release it, and
`sys.call` and `sys.spawn` come back to leave the lock they entered. -/
theorem serialize_returns_iff (env : SendEnv) :
    (∀ d v s, (∀ s', serialize env d v s ≠ (.error .raise, s')) ↔ ¬MeetsGone env d s v) ∧
    (∀ d v s, ∃ rs, (serialize env d v s).2.k = s.k.takeRefs rs ∧
      (serialize env d v s).2.w.refs = s.w.refs ++ rs.map Right.entry) ∧
    (∀ k p v, (portSendFromLua env k p v).1 ≠ none ↔
      ¬MeetsGone env (maxDepth + 1) (env.start k v) v) ∧
    (∀ k sh v rh, (callSend env k sh v rh).2.ipcDepth = k.ipcDepth ↔
      ¬(CallSends env k sh rh ∧ MeetsGone env (maxDepth + 1) (env.start k.ipclockEnter v) v)) ∧
    ∀ k v, (spawnRegion env k v).2.ipcDepth = k.ipcDepth ↔
      ¬MeetsGone env (maxDepth + 1) ⟨k.ipclockEnter, .zero, 0⟩ v := by
  refine ⟨fun d v s => ?_, serialize_recorded env, fun k p v => ?_, fun k sh v rh => callSend_ipcDepth_iff,
    fun k v => spawnRegion_ipcDepth_iff⟩
  · rw [← serialize_raise_iff]
    exact not_exists.symm
  · exact not_congr portSendFromLua_none_iff

/-- A proc with a port whose only buffer was given away. -/
def bufferGone : List Op :=
  [.spawnInit Sample.newEnv, Sample.newport 0, Sample.newBuf 0 100, Sample.sendBuf 0 1 0]

/-- A walk over a right and that buffer raises with the reference taken, and `sys.call` comes back
with the lock held. -/
theorem bufferGone_raises : ∃ k, runOps anyOp .boot bufferGone = some k ∧ Run (fun _ _ => True) k ∧
      (∃ s, serialize (Sample.sendEnv 0 rightThenBuffer) (maxDepth + 1) (.table 0)
        ((Sample.sendEnv 0 rightThenBuffer).start k (.table 0)) = (.error .raise, s) ∧
        s.w.refs = [⟨1, true⟩]) ∧
      (callSend (Sample.sendEnv 0 rightThenBuffer) k 1 (.table 0) 1).2.ipcDepth = 1 := by
  obtain ⟨k, hk, hr, hp⟩ := Run.of_ops (l := bufferGone) anyOp_true
    (P := fun k =>
      let r := serialize (Sample.sendEnv 0 rightThenBuffer) (maxDepth + 1) (.table 0)
        ((Sample.sendEnv 0 rightThenBuffer).start k (.table 0))
      decide (r.1 = .error .raise) && decide (r.2.w.refs = [⟨1, true⟩]) &&
        decide ((callSend (Sample.sendEnv 0 rightThenBuffer) k 1 (.table 0) 1).2.ipcDepth = 1))
          (by decide +kernel)
  simp only [Bool.and_eq_true, decide_eq_true_eq] at hp
  refine ⟨k, hk, hr, ?_, hp.2⟩
  match h : serialize (Sample.sendEnv 0 rightThenBuffer) (maxDepth + 1) (.table 0)
      ((Sample.sendEnv 0 rightThenBuffer).start k (.table 0)) with
  | (r, s) =>
    rw [h] at hp
    exact ⟨s, Prod.ext hp.1.1 rfl, hp.1.2⟩

end Nlos
