import Nlos.Kernel.Port

/-!
# Reading the tables after a write

The small lemmas that say what each primitive write of the port code leaves alone. The proofs
about the recursion never unfold a primitive: they use these.
-/

namespace Nlos

namespace Kernel

variable {k : Kernel} {p r : PortRef} {q : KPort} {f : KPort → KPort}

/-! ## Pointers and slots -/

theorem portOf_eq_some : k.portOf p = some q ↔ k.portAt p.idx = some q ∧ q.gen = p.gen := by
  unfold portOf
  split
  next q' h =>
    split
    next hg =>
      constructor
      · intro he
        cases he
        exact ⟨h, hg⟩
      · rintro ⟨he, -⟩
        rw [h] at he
        exact he
    next hg =>
      constructor
      · intro he
        cases he
      · rintro ⟨he, hq⟩
        rw [h] at he
        cases he
        exact absurd hq hg
  next h =>
    constructor
    · intro he
      cases he
    · rintro ⟨he, -⟩
      rw [h] at he
      cases he

theorem portOf_of_portAt (h : k.portAt p.idx = some q) (hg : q.gen = p.gen) : k.portOf p = some q :=
  portOf_eq_some.mpr ⟨h, hg⟩

theorem live_iff : k.live p = true ↔ ∃ q, k.portAt p.idx = some q ∧ q.gen = p.gen := by
  unfold live
  rw [Option.isSome_iff_exists]
  exact exists_congr fun _ => portOf_eq_some

theorem live_of_portOf (h : k.portOf p = some q) : k.live p = true := by
  unfold live
  rw [h]
  rfl

variable {i j : Nat} {send : Bool}

theorem portAt_eq_some : k.portAt i = some q ↔ k.portv[i]? = some (some q) := by
  exact Option.join_eq_some_iff

theorem portAt_lt (h : k.portAt i = some q) : i < k.portv.length :=
  (List.getElem?_eq_some_iff.mp (portAt_eq_some.mp h)).1

theorem portOf_congr {k' : Kernel} (h : k'.portv = k.portv) : k'.portOf p = k.portOf p := by
  unfold portOf portAt
  rw [h]

/-! ## `portv` after a write -/

theorem portAt_setPort_same {o : Option KPort} (h : i < k.portv.length) :
    (k.setPort i o).portAt i = o := by
  unfold portAt setPort
  simp only [List.getElem?_set_self h, Option.join_some]

theorem portAt_setPort_other {o : Option KPort} (h : i ≠ j) :
    (k.setPort i o).portAt j = k.portAt j := by
  unfold portAt setPort
  simp only [List.getElem?_set_ne h]

theorem modPort_eq (h : k.portOf p = some q) :
    k.modPort p f = (k.touch p).setPort p.idx (some (f q)) := by
  unfold modPort
  rw [h]

theorem modPort_stale (h : k.portOf p = none) : k.modPort p f = k.touch p := by
  unfold modPort
  rw [h]

theorem portAt_modPort_same (h : k.portOf p = some q) :
    (k.modPort p f).portAt p.idx = some (f q) := by
  rw [modPort_eq h]
  exact portAt_setPort_same (portAt_lt (portOf_eq_some.mp h).1)

theorem portAt_modPort_other (h : p.idx ≠ j) : (k.modPort p f).portAt j = k.portAt j := by
  cases ho : k.portOf p with
  | none =>
    rw [modPort_stale ho]
    rfl
  | some q =>
    rw [modPort_eq ho]
    exact portAt_setPort_other h

section

variable (h : k.portOf p = some q)

include h

theorem portOf_modPort_same (hf : (f q).gen = q.gen) : (k.modPort p f).portOf p = some (f q) :=
  portOf_of_portAt (portAt_modPort_same h) (hf.trans (portOf_eq_some.mp h).2)

/-- What a write through `p` leaves at slot `j`. -/
theorem portAt_modPort :
    (k.modPort p f).portAt j = if p.idx = j then some (f q) else k.portAt j := by
  split
  next e =>
    subst e
    exact portAt_modPort_same h
  next e => exact portAt_modPort_other e

theorem freePort_eq : k.freePort p = (k.touch p).setPort p.idx none := by
  unfold freePort
  rw [h]

theorem portAt_freePort : (k.freePort p).portAt j = if p.idx = j then none else k.portAt j := by
  rw [freePort_eq h]
  split
  next e =>
    subst e
    exact portAt_setPort_same (portAt_lt (portOf_eq_some.mp h).1)
  next e => exact portAt_setPort_other e

end

theorem portAt_of_freePort (h : (k.freePort p).portAt j = some q) :
    k.portAt j = some q ∧ (p.idx = j → k.portOf p = none) := by
  cases hp : k.portOf p with
  | none =>
    unfold freePort at h
    rw [hp] at h
    exact ⟨h, fun _ => rfl⟩
  | some q' =>
    rw [portAt_freePort hp] at h
    split at h
    · cases h
    next hne => exact ⟨h, fun e => absurd e hne⟩

/-! ## What the primitive writes leave alone

`SameHolders k k'` says that nothing outside `portv` that holds a reference has changed. -/

/-- The rights tables, the timers, the kernel's own references and the references without a
holder are the same in both states. -/
structure SameHolders (k k' : Kernel) : Prop where
  procv : k'.procv = k.procv
  timers : k'.timers = k.timers
  krefs : k'.krefs = k.krefs
  lost : k'.lost = k.lost
  portgen : k'.portgen = k.portgen
  nextpid : k'.nextpid = k.nextpid
  teardowns : k'.teardowns = k.teardowns
  ipcDepth : k'.ipcDepth = k.ipcDepth

namespace SameHolders

theorem refl (k : Kernel) : SameHolders k k := ⟨rfl, rfl, rfl, rfl, rfl, rfl, rfl, rfl⟩

theorem trans {a b c : Kernel} (h : SameHolders a b) (g : SameHolders b c) : SameHolders a c :=
  ⟨g.procv.trans h.procv, g.timers.trans h.timers, g.krefs.trans h.krefs, g.lost.trans h.lost,
    g.portgen.trans h.portgen, g.nextpid.trans h.nextpid, g.teardowns.trans h.teardowns,
    g.ipcDepth.trans h.ipcDepth⟩

end SameHolders

theorem sameHolders_touch : SameHolders k (k.touch p) := ⟨rfl, rfl, rfl, rfl, rfl, rfl, rfl, rfl⟩

theorem sameHolders_setPort {o : Option KPort} : SameHolders k (k.setPort i o) :=
  ⟨rfl, rfl, rfl, rfl, rfl, rfl, rfl, rfl⟩

theorem sameHolders_modPort : SameHolders k (k.modPort p f) := by
  unfold modPort
  split
  · exact sameHolders_touch.trans sameHolders_setPort
  · exact sameHolders_touch

theorem sameHolders_freePort : SameHolders k (k.freePort p) := by
  unfold freePort
  split
  · exact sameHolders_touch.trans sameHolders_setPort
  · exact sameHolders_touch

theorem sameHolders_wake : SameHolders k (k.wake send p) :=
  ⟨rfl, rfl, rfl, rfl, rfl, rfl, rfl, rfl⟩

theorem sameHolders_hangup : SameHolders k (k.hangup p) := ⟨rfl, rfl, rfl, rfl, rfl, rfl, rfl, rfl⟩

theorem sameHolders_msgbufsFree {b : List MsgBuf} : SameHolders k (k.msgbufsFree b) :=
  ⟨rfl, rfl, rfl, rfl, rfl, rfl, rfl, rfl⟩

@[simp] theorem portAt_hangup : (k.hangup p).portAt i = k.portAt i := rfl

theorem sch_modPort : (k.modPort p f).sch = k.sch := by
  unfold modPort
  split <;> rfl

theorem sch_freePort : (k.freePort p).sch = k.sch := by
  unfold freePort
  split <;> rfl

/-- The two states differ in ports and in proc records only. -/
structure Beside (k k' : Kernel) : Prop where
  sch : k'.sch = k.sch
  timers : k'.timers = k.timers
  krefs : k'.krefs = k.krefs
  lost : k'.lost = k.lost
  teardowns : k'.teardowns = k.teardowns
  freed : k'.freed = k.freed

theorem beside_modPort : Beside k (k.modPort p f) := by
  unfold modPort
  split <;> exact ⟨rfl, rfl, rfl, rfl, rfl, rfl⟩

/-! ## The log -/

section

variable (h : k.NoStale) (hl : k.live p = true)

include h hl

theorem noStale_touch : (k.touch p).NoStale := by
  intro t ht
  rcases List.mem_cons.mp ht with rfl | ht
  · exact hl
  · exact h t ht

theorem noStale_modPort : (k.modPort p f).NoStale := by
  unfold modPort
  split <;> exact noStale_touch h hl

theorem noStale_freePort : (k.freePort p).NoStale := by
  unfold freePort
  split <;> exact noStale_touch h hl

theorem noStale_wake : (k.wake send p).NoStale :=
  noStale_touch h hl

theorem noStale_hangup : (k.hangup p).NoStale :=
  noStale_touch (noStale_touch h hl) hl

end

/-! ## One write to one slot

`Writes k p o k'` says that from `k` to `k'` the slot of `p` was set to `o`, through a pointer
that was good, and nothing else of the port table or of the holders changed. -/

/-- Nothing but slot `p.idx` of `portv` changed, and that is now `o`. -/
structure Writes (k : Kernel) (p : PortRef) (o : Option KPort) (k' : Kernel) : Prop where
  portv : k'.portv = k.portv.set p.idx o
  holders : SameHolders k k'
  noStale : k.NoStale → k'.NoStale
  sch : k'.sch = k.sch
  hangupGen : k'.hangupGen = k.hangupGen
  freed : k'.freed = k.freed

namespace Writes

variable {k' k'' : Kernel} {o o' : Option KPort}

theorem portAt_same (h : Writes k p o k') (hp : k.portOf p = some q) : k'.portAt p.idx = o := by
  have := portAt_setPort_same (o := o) (portAt_lt (portOf_eq_some.mp hp).1)
  unfold portAt at this ⊢
  rw [h.portv]
  exact this

theorem portAt_other (h : Writes k p o k') (hj : p.idx ≠ j) : k'.portAt j = k.portAt j := by
  have := portAt_setPort_other (k := k) (o := o) hj
  unfold portAt at this ⊢
  rw [h.portv]
  exact this

theorem portOf_same {q' : KPort} (h : Writes k p (some q') k') (hp : k.portOf p = some q)
    (hg : q'.gen = q.gen) : k'.portOf p = some q' :=
  portOf_of_portAt (h.portAt_same hp) (hg.trans (portOf_eq_some.mp hp).2)

theorem portOf_other {p' : PortRef} (h : Writes k p' o k') (hne : p'.idx ≠ p.idx)
    (hp : k.portOf p = some q) : k'.portOf p = some q := by
  obtain ⟨ha, hg⟩ := portOf_eq_some.mp hp
  exact portOf_of_portAt ((h.portAt_other hne).trans ha) hg

theorem comp (h : Writes k p o k') (g : Writes k' p o' k'') : Writes k p o' k'' where
  portv := by rw [g.portv, h.portv, List.set_set]
  holders := h.holders.trans g.holders
  noStale hk := g.noStale (h.noStale hk)
  sch := g.sch.trans h.sch
  hangupGen := g.hangupGen.trans h.hangupGen
  freed := g.freed.trans h.freed

end Writes

theorem writes_self (h : k.portOf p = some q) : Writes k p (some q) k where
  portv := by
    have hq := List.getElem?_eq_some_iff.mp (portAt_eq_some.mp (portOf_eq_some.mp h).1)
    obtain ⟨hlt, he⟩ := hq
    rw [← he, List.set_getElem_self]
  holders := SameHolders.refl k
  noStale hk := hk
  sch := rfl
  hangupGen := rfl
  freed := rfl

theorem writes_modPort (h : k.portOf p = some q) : Writes k p (some (f q)) (k.modPort p f) where
  portv := by rw [modPort_eq h]; rfl
  holders := sameHolders_modPort
  noStale hk := noStale_modPort hk (live_of_portOf h)
  sch := by rw [modPort_eq h]; rfl
  hangupGen := by rw [modPort_eq h]; rfl
  freed := by rw [modPort_eq h]; rfl

theorem writes_freePort (h : k.portOf p = some q) : Writes k p none (k.freePort p) where
  portv := by rw [freePort_eq h]; rfl
  holders := sameHolders_freePort
  noStale hk := noStale_freePort hk (live_of_portOf h)
  sch := by rw [freePort_eq h]; rfl
  hangupGen := by rw [freePort_eq h]; rfl
  freed := by rw [freePort_eq h]; rfl

end Kernel

end Nlos
