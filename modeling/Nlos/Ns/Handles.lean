import Nlos.Lib.Facts
import Nlos.Ns.Spelling

/-!
# A backend only sees its own handles

The calls of the backends are written down, the newest first. The facts that a namespace relies on
are of one kind: this backend made this handle.

`rename` within a directory is where they are not enough: it calls the backend of the directory with
the handle of the file, and these were found by two walks. In a union, or at a mount point, the
walks may end in different backends. And where it moves a file to another directory it calls the
first member of the union that has the directory, which need not be the one that has the file.
-/

namespace Nlos

open Dev Fallible List

variable {W H : Type}

/-! ## Logs -/

namespace Dev

def Req.changing : Req H → Bool
  | .create _ _ _ _ | .write _ _ _ | .remove _ | .wstat _ _ | .rename _ _ _ _ => true
  | .open _ mode => mode ≠ str "r"
  | .attach | .walk _ _ | .walkmany _ _ | .stat _ | .read _ _ _ | .readdir _ | .clunk _ | .close =>
    false

def Made (log : List (Event H)) (k : Nat × H) : Prop := ∃ e ∈ log, e.dev = k.1 ∧ e.made = some k.2

/-- Every handle that a backend was given was made by it. -/
def OwnHandles : List (Event H) → Prop
  | [] => True
  | e :: log => (∀ h ∈ e.req.handles, Made log (e.dev, h)) ∧ OwnHandles log

instance [DecidableEq H] (log : List (Event H)) (k : Nat × H) : Decidable (Made log k) :=
  inferInstanceAs (Decidable (∃ e ∈ log, _))

instance OwnHandles.decidable [DecidableEq H] : (log : List (Event H)) → Decidable (OwnHandles log)
  | [] => isTrue trivial
  | _ :: log =>
    have := decidable log
    inferInstanceAs (Decidable (_ ∧ _))

theorem Made.mono {log log' : List (Event H)} {k : Nat × H} (h : Made log k) (hsub : log ⊆ log') :
    Made log' k := by
  obtain ⟨e, he, h⟩ := h
  exact ⟨e, hsub he, h⟩

/-- What is known, and what was changed since: only backends with `A` were told to. -/
structure Known (A : Nat → Prop) (log0 : List (Event H)) (K : List (Nat × H))
    (w : W × List (Event H)) : Prop where
  own : OwnHandles w.2
  made : ∀ k ∈ K, Made w.2 k
  since : ∃ new, w.2 = new ++ log0 ∧ ∀ e ∈ new, e.req.changing → A e.dev

variable {A : Nat → Prop} {log0 : List (Event H)} {i : Nat} {d : Device (W × List (Event H)) H}

instance Known.fewer : Fact (Fewer (Known (W := W) A log0)) where
  out _ _ _ hsub h := ⟨h.own, fun k hk => h.made k (hsub hk), h.since⟩

/-- The backend with this number takes its own handles, and makes handles of its own. -/
def Honest (A : Nat → Prop) (log0 : List (Event H)) (i : Nat)
    (d : Device (W × List (Event H)) H) : Prop :=
  ∀ r : Req H, (r.changing → A i) →
    Learns (Known A log0) (r.handles.map (i, ·)) (d.answer r) (fun _ => True) fun a =>
      (r.made a).toList.map (i, ·)

theorem honest_logged (d : Device W H) : Honest A log0 i (d.logged i) := by
  intro r hA K hK s hs
  have hown : ∀ made, OwnHandles ((⟨i, r, made⟩ : Event H) :: s.2) := fun _ =>
    ⟨fun h hh => hs.made _ (hK (mem_map_of_mem hh)), hs.own⟩
  have hmade : ∀ made, ∀ k ∈ K, Made ((⟨i, r, made⟩ : Event H) :: s.2) k := fun _ k hk =>
    (hs.made k hk).mono (subset_cons_self _ _)
  have hsince : ∀ made, ∃ new, (⟨i, r, made⟩ : Event H) :: s.2 = new ++ log0 ∧ ∀ e ∈ new,
      e.req.changing → A e.dev := by
    intro made
    obtain ⟨new, e, hnew⟩ := hs.since
    exact ⟨_ :: new, by rw [e]; rfl, forall_mem_cons.mpr ⟨hA, hnew⟩⟩
  unfold Device.logged
  cases hr : d.answer r s.1 with
  | mk x w =>
    dsimp only
    rw [hr]
    cases x with
    | error e => exact ⟨hown _, hmade _, hsince _⟩
    | ok a =>
      refine ⟨trivial, hown _, fun k hk => ?_, hsince _⟩
      obtain hk | hk := mem_append.mp hk
      · obtain ⟨h, hh, rfl⟩ := mem_map.mp hk
        exact ⟨_, mem_cons_self, rfl, Option.mem_toList.mp hh⟩
      · exact hmade _ k hk

theorem Honest.walkLoop (hd : Honest A log0 i d) (h : H) (names : List Str) :
    Learns (Known A log0) [(i, h)] (walkLoop d h names) (fun _ => True) fun h => [(i, h)] := by
  induction names generalizing h with
  | nil => exact learns_pure trivial (List.Subset.refl _)
  | cons name names ih =>
    have hwalk := hd (.walk h name) nofun
    refine (hwalk.attempt).bind fun r _ => ?_
    cases r with
    | ok h' => exact (ih h').more (subset_append_left _ _)
    | error e => exact learns_fail _

theorem Honest.walknames (hd : Honest A log0 i d) (h : H) (names : List Str) :
    Learns (Known A log0) [(i, h)] (walknames d h names) (fun _ => True) fun h => [(i, h)] := by
  refine learns_ite (fun _ => learns_pure trivial (List.Subset.refl _)) fun _ => ?_
  exact learns_ite (fun _ => hd (.walkmany h names) nofun) fun _ => hd.walkLoop h names

theorem Honest.subtree (hd : Honest A log0 i d) (names : List Str) :
    Honest A log0 i (subtree d names) := by
  intro r hA
  cases r with
  | attach =>
    have hattach := hd .attach nofun
    refine hattach.bind fun h _ => (hd.walknames h names).more ?_
    exact subset_append_left _ _
  | _ => exact hd _ hA

end Dev

namespace Ns

/-! ## What a namespace knows -/

/-- A namespace over backends whose calls are written down. -/
abbrev Logged (W H : Type) := Space (W × List (Event H)) H

/-- The backends, with their calls written down. -/
def logging (D : Nat → Device W H) (i : Nat) : Device (W × List (Event H)) H := (D i).logged i

def Mount.place (m : Mount H) : Str × Ref × Nat := (m.pfx, m.B, m.serial)

def Mount.fact (m : Mount H) : Option (Nat × H) := m.root.map (m.B.dev, ·)

def Chan.fact (c : Chan H) : Nat × H := (c.B.dev, c.h)

def Space.facts (s : Space W H) : List (Nat × H) :=
  s.mounts.filterMap Mount.fact ++ s.chans.map Chan.fact

structure Space.Numbered (s : Space W H) : Prop where
  below : ∀ m ∈ s.mounts, m.serial < s.serial
  inj : ∀ m ∈ s.mounts, ∀ m' ∈ s.mounts, m.serial = m'.serial → m.B = m'.B

/-- A namespace in the middle of a call, which began in `s0`. -/
structure Tracked (A : Nat → Prop) (s0 : Logged W H) (K : List (Nat × H))
    (s : Logged W H) : Prop where
  places : s.mounts.map Mount.place = s0.mounts.map Mount.place
  serial : s.serial = s0.serial
  known : Known A s0.world.2 (K ++ s.facts) s.world

variable {D : Nat → Device W H} {A : Nat → Prop} {s s0 : Logged W H} {m : Mount H}
    {c : Chan H} {b : Ref}
  {N : List (Nat × H)} {α : Type} {p : Str}

instance Tracked.fewer : Fact (Fewer (Tracked (W := W) A s0)) := by
  refine ⟨fun K K' s hsub h => ⟨h.places, h.serial, Known.fewer.out _ _ _ ?_ h.known⟩⟩
  exact append_subset.mpr ⟨List.Subset.trans hsub (subset_append_left _ _), subset_append_right _ _⟩

variable {V : α → Prop} {F : α → List (Nat × H)} {l : List (Mount H)} {r : Routine _ H α}
  {src dir name : Str}

theorem learns_onWorld {r : Fallible Str (W × List (Event H)) α}
    (hr : Learns (Known A s0.world.2) N r V F) : Learns (Tracked A s0) N (onWorld r) V F := by
  intro K hK s hs
  unfold onWorld zoom
  match r s.world,
    hr (K ++ s.facts) (List.Subset.trans hK (subset_append_left _ _)) s.world hs.known with
  | (.error _, _), h => exact ⟨hs.places, hs.serial, h⟩
  | (.ok _, _), h =>
    refine ⟨h.1, hs.places, hs.serial, ?_⟩
    rw [append_assoc]
    exact h.2

theorem honest_ref (b : Ref) : Honest A s0.world.2 b.dev (b.device (logging D)) := by
  unfold Ref.device
  split
  · exact honest_logged _
  · exact (honest_logged _).subtree _

theorem learns_ask (r : Req H) (hA : r.changing → A b.dev) :
    Learns (Tracked A s0) (r.handles.map (b.dev, ·)) (ask (logging D) b r) (fun _ => True) fun a =>
      (r.made a).toList.map (b.dev, ·) :=
  learns_onWorld (honest_ref b r hA)

theorem learns_walknames (h : H) (names : List Str) :
    Learns (Tracked A s0) [(b.dev, h)] (onWorld (walknames (b.device (logging D)) h names))
      (fun _ => True) fun h =>
      [(b.dev, h)] :=
  learns_onWorld ((honest_ref b).walknames h names)

theorem learns_get : Learns (Tracked A s0) [] (get : Routine _ H _)
      (fun s => s.mounts.map Mount.place = s0.mounts.map Mount.place) Space.facts := by
  intro K _ s hs
  refine ⟨hs.places, hs.places, hs.serial, Known.fewer.out _ _ _ ?_ hs.known⟩
  refine append_subset.mpr ⟨append_subset.mpr ⟨?_, ?_⟩, ?_⟩
  · exact subset_append_right _ _
  · exact subset_append_left _ _
  · exact subset_append_right _ _

theorem learns_modify {f : Logged W H → Logged W H} (hworld : ∀ s, (f s).world = s.world)
    (hserial : ∀ s, (f s).serial = s.serial)
    (hplaces : ∀ s, (f s).mounts.map Mount.place = s.mounts.map Mount.place)
    (hfacts : ∀ s : Logged W H, s.mounts.map Mount.place = s0.mounts.map Mount.place → (f s).facts ⊆ N ++ s.facts) :
    Learns (Tracked A s0) N (modify f : Routine _ H Unit) (fun _ => True) fun _ => [] := by
  intro K hK s hs
  refine ⟨trivial, (hplaces s).trans hs.places, (hserial s).trans hs.serial, ?_⟩
  rw [hworld]
  refine Known.fewer.out _ _ _ (append_subset.mpr ⟨subset_append_left _ _, ?_⟩) hs.known
  refine List.Subset.trans (hfacts s hs.places) (append_subset.mpr ⟨?_, subset_append_right _ _⟩)
  exact List.Subset.trans hK (subset_append_left _ _)

/-! ## Resolving -/

def Placed (s0 : Logged W H) (m : Mount H) : Prop := m.place ∈ s0.mounts.map Mount.place

theorem placed_of_mem (hs : s.mounts.map Mount.place = s0.mounts.map Mount.place)
    (hm : m ∈ s.mounts) : Placed s0 m := by
  unfold Placed
  rw [← hs]
  exact mem_map_of_mem hm

theorem Placed.eq {m' : Mount H} (hn : s0.Numbered) (hm : Placed s0 m) (hm' : Placed s0 m')
    (e : m.serial = m'.serial) : m.B = m'.B := by
  obtain ⟨x, hx, ex⟩ := mem_map.mp hm
  obtain ⟨y, hy, ey⟩ := mem_map.mp hm'
  obtain ⟨-, exB, exS⟩ : x.pfx = m.pfx ∧ x.B = m.B ∧ x.serial = m.serial := by
    simpa [Mount.place] using ex
  obtain ⟨-, eyB, eyS⟩ : y.pfx = m'.pfx ∧ y.B = m'.B ∧ y.serial = m'.serial := by
    simpa [Mount.place] using ey
  rw [← exB, ← eyB]
  exact hn.inj x hx y hy (by rw [exS, eyS, e])

theorem learns_rootof (hn : s0.Numbered) (hm : Placed s0 m) :
    Learns (Tracked A s0) m.fact.toList (rootof (logging D) m) (fun _ => True) fun h =>
      [(m.B.dev, h)] := by
  unfold rootof Mount.fact
  cases m.root with
  | some h => exact learns_pure trivial (List.Subset.refl _)
  | none =>
    refine (learns_ask .attach nofun).bind fun h _ => ?_
    refine Learns.bind (V := fun _ => True) (F := fun _ => []) ?_ fun _ _ => ?_
    · refine learns_modify (fun _ => rfl) (fun _ => rfl) (fun s => ?_) fun s hs => ?_
      · rw [map_map]
        refine map_congr_left fun e _ => ?_
        dsimp only [Function.comp_apply]
        split <;> rfl
      · -- the root is set in mounts with this number, and those have this backend
        refine append_subset.mpr ⟨fun k hk => ?_, ?_⟩
        · obtain ⟨e', he', hk⟩ := mem_filterMap.mp hk
          obtain ⟨e, he, rfl⟩ := mem_map.mp he'
          split at hk
          next hser =>
            cases hk
            rw [(placed_of_mem hs he).eq hn hm hser]
            exact mem_append_left _ (mem_append_left _ mem_cons_self)
          · exact mem_append_right _ (mem_append_left _ (mem_filterMap.mpr ⟨e, he, hk⟩))
        · exact List.Subset.trans (subset_append_right _ _) (subset_append_right _ _)
    · exact learns_pure trivial (subset_append_left [(m.B.dev, h)] _)

theorem learns_resolve (hn : s0.Numbered) (hm : Placed s0 m) (names : List Str) :
    Learns (Tracked A s0) m.fact.toList (resolve (logging D) m names) (fun _ => True) fun h =>
      [(m.B.dev, h)] := by
  refine learns_ite (fun _ => (learns_ask .attach nofun).more (nil_subset _)) fun _ => ?_
  refine (learns_rootof hn hm).bind fun h _ => ?_
  exact (learns_walknames h names).more (subset_append_left _ _)

theorem fact_subset (hm : m ∈ l) : m.fact.toList ⊆ l.filterMap Mount.fact :=
  fun _ hk => mem_filterMap.mpr ⟨m, hm, Option.mem_toList.mp hk⟩

theorem learns_tryAll (hn : s0.Numbered) (names : List Str) (path : Str) (group : List (Mount H))
    (hg : ∀ m ∈ group, Placed s0 m) (last : Str) :
    Learns (Tracked A s0) (group.filterMap Mount.fact) (tryAll (logging D) names path group last)
      (fun c => ∃ m ∈ group, m.B = c.B) fun c => [c.fact] := by
  induction group generalizing last with
  | nil => exact learns_fail _
  | cons m group ih =>
    have hm := learns_resolve (A := A) (D := D) hn (hg m mem_cons_self) names
    refine (hm.more (fact_subset mem_cons_self)).attempt.bind fun r _ => ?_
    cases r with
    | ok h =>
      exact learns_pure ⟨m, mem_cons_self, rfl⟩ (subset_append_left _ _)
    | error e =>
      have hrest := ih (fun m hm => hg m (mem_cons_of_mem _ hm)) e
      refine (hrest.imp fun c => ?_).more (filterMap_subset _ (subset_cons_self _ _))
      rintro ⟨x, hx, e⟩
      exact ⟨x, mem_cons_of_mem _ hx, e⟩

/-- A backend that serves the path, at the longest path that does. -/
def Serves (s : Space W H) (p : Str) (b : Ref) : Prop :=
  ∃ g rest, s.lookup (clean p) = some (g, rest) ∧ ∃ m ∈ g, m.B = b

theorem bestlen_places (path : Str) {l' : List (Mount H)}
    (h : l.map Mount.place = l'.map Mount.place) : bestlen path l = bestlen path l' := by
  have e : ∀ l : List (Mount H), bestlen path l = (l.map Mount.place).foldl
      (fun best x => if serves x.1 path ∧ best.all (· < x.1.length) then some x.1.length else best) none := fun l => by
    rw [foldl_map]
    rfl
  rw [e, e, h]

/-- Which backends serve a path does not change during a call. -/
theorem serves_of_places {s s0 : Space W H}
    (h : s.mounts.map Mount.place = s0.mounts.map Mount.place) (hb : Serves s p b) :
    Serves s0 p b := by
  obtain ⟨g, rest, hl, m, hm, rfl⟩ := hb
  unfold Space.lookup at hl
  unfold Serves Space.lookup
  rw [bestlen_places _ h] at hl
  cases hn : bestlen (clean p) s0.mounts with
  | none =>
    rw [hn] at hl
    cases hl
  | some n =>
    rw [hn] at hl
    cases hl
    refine ⟨_, _, rfl, ?_⟩
    have hpl : m.place ∈
        (s0.mounts.filter fun m => m.pfx.length = n ∧ serves m.pfx (clean p)).map Mount.place := by
      have e : ∀ l : List (Mount H),
        (l.filter fun m => m.pfx.length = n ∧ serves m.pfx (clean p)).map Mount.place =
          (l.map Mount.place).filter fun x => x.1.length = n ∧ serves x.1 (clean p) := fun l => by
        rw [filter_map]
        rfl
      rw [e, ← h, ← e]
      exact mem_map_of_mem hm
    obtain ⟨m', hm', e⟩ := mem_map.mp hpl
    exact ⟨m', hm', congrArg (fun x => x.2.1) e⟩

theorem mem_of_lookup {s : Space W H} {path rest : Str} {group : List (Mount H)}
    (h : s.lookup path = some (group, rest)) (hm : m ∈ group) : m ∈ s.mounts := by
  unfold Space.lookup at h
  split at h
  · cases h
  · cases h
    exact mem_of_mem_filter hm

theorem learns_walk (hn : s0.Numbered) (p : Str) :
    Learns (Tracked A s0) [] (walk (logging D) p) (fun c => Serves s0 p c.B) fun c => [c.fact] := by
  refine learns_get.bind fun s hs => ?_
  cases hl : s.lookup (clean p) with
  | none => exact learns_fail _
  | some r =>
    obtain ⟨group, rest⟩ := r
    have hsub : group ⊆ s.mounts := fun m hm => mem_of_lookup hl hm
    have hall := learns_tryAll (A := A) (D := D) hn (elements rest) (clean p) group
      (fun m hm => placed_of_mem hs (hsub hm)) Enonexist
    refine (hall.imp fun c hc => serves_of_places hs ⟨group, rest, hl, hc⟩).more ?_
    exact List.Subset.trans (filterMap_subset _ hsub)
      (List.Subset.trans (subset_append_left _ _) (subset_append_left _ _))

theorem learns_closing (hc : c.fact ∈ N) (hr : Learns (Tracked A s0) N r V F) :
    Learns (Tracked A s0) N (closing (logging D) c r) V F := by
  intro K hK s hs
  have hclunk : ∀ K' t, c.fact ∈ K' → Tracked A s0 K' t →
      Tracked A s0 K' (ask (logging D) c.B (.clunk c.h) t).2 :=
    fun K' t hc => (learns_ask (.clunk c.h) nofun).after (cons_subset.mpr ⟨hc, nil_subset _⟩)
  unfold closing
  match r s, hr K hK s hs with
  | (.ok _, _), h => exact ⟨h.1, hclunk _ _ (mem_append_right _ (hK hc)) h.2⟩
  | (.error _, _), h => exact hclunk _ _ (hK hc) h

/-! ## The calls -/

/-- Any backend may be told to change its files. -/
def Anywhere (_ : Nat) : Prop := True

section

variable (hn : s0.Numbered)

include hn

theorem learns_open (p mode : Str) :
    Learns (Tracked Anywhere s0) [] (open' (logging D) p mode) (fun _ => True) fun c =>
      [c.fact] := by
  refine (learns_walk hn p).bind fun c _ => ?_
  refine ((learns_ask (.open c.h mode) fun _ => trivial).more (subset_append_left _ _)).bind fun h _ => ?_
  exact learns_pure trivial (subset_append_left [(c.B.dev, h)] _)

theorem learns_create (p mode : Str) (isdir : Bool) :
    Learns (Tracked Anywhere s0) [] (create (logging D) p mode isdir) (fun _ => True) fun c =>
      [c.fact] := by
  unfold create
  cases splitLast (clean p) with
  | none => exact learns_fail _
  | some r =>
    refine (learns_walk hn _).bind fun d _ => ?_
    refine ((learns_ask (.create d.h r.2 mode isdir) fun _ => trivial).more
      (subset_append_left _ _)).bind fun h _ => ?_
    exact learns_pure trivial (subset_append_left [(d.B.dev, h)] _)

theorem learns_remove (p : Str) :
    Learns (Tracked Anywhere s0) [] (remove (logging D) p) (fun _ => True) fun _ => [] := by
  refine (learns_walk hn _).bind fun c _ => learns_ite (fun _ => ?_) fun _ => learns_fail _
  exact (learns_ask (.remove c.h) fun _ => trivial).more (subset_append_left _ _)

theorem learns_statWalk (p : Str) :
    Learns (Tracked A s0) []
      (walk (logging D) p >>= fun c => closing (logging D) c (ask (logging D) c.B (.stat c.h)))
      (fun _ => True) fun _ => [] := by
  refine (learns_walk hn p).bind fun c _ => learns_closing mem_cons_self ?_
  exact (learns_ask (.stat c.h) nofun).more (subset_append_left _ _)

theorem learns_stat (p : Str) :
    Learns (Tracked A s0) [] (stat (logging D) p) (fun _ => True) fun _ => [] := by
  refine (learns_statWalk hn p).attempt.bind fun r _ => ?_
  cases r with
  | ok st => exact learns_pure trivial (nil_subset _)
  | error e =>
    refine (learns_get.more (nil_subset _)).bind fun s _ => ?_
    exact learns_ite (fun _ => learns_fail _) fun _ => learns_pure trivial (nil_subset _)

theorem learns_listing (hm : Placed s0 m) (names : List Str) :
    Learns (Tracked A s0) m.fact.toList (listing (logging D) m names) (fun _ => True) fun _ =>
      [] := by
  refine (learns_rootof hn hm).bind fun h _ => learns_ite (fun _ => ?_) fun _ => ?_
  · exact (learns_ask (.readdir h) nofun).more (subset_append_left _ _)
  · refine ((learns_walknames h names).more (subset_append_left _ _)).bind fun h' _ => ?_
    refine ((learns_ask (.readdir h') nofun).more (subset_append_left _ _)).bind fun ents _ => ?_
    refine ((learns_ask (.clunk h') nofun).more ?_).bind fun _ _ => ?_
    · exact List.Subset.trans (subset_append_left [(m.B.dev, h')] _) (subset_append_right _ _)
    · exact learns_pure trivial (nil_subset _)

theorem learns_listAll (names : List Str) (group : List (Mount H)) (hg : ∀ m ∈ group, Placed s0 m)
    (hN : group.filterMap Mount.fact ⊆ N) (r : List Stat × Bool × Str) :
    Learns (Tracked A s0) N (listAll (logging D) names group r) (fun _ => True) fun _ => [] := by
  induction group generalizing r N with
  | nil => exact learns_pure trivial (nil_subset _)
  | cons m group ih =>
    have hrest : group.filterMap Mount.fact ⊆ N :=
      List.Subset.trans (filterMap_subset _ (subset_cons_self _ _)) hN
    have hm := (learns_listing (A := A) (D := D) hn (hg m mem_cons_self) names).more
      (List.Subset.trans (fact_subset mem_cons_self) hN)
    refine hm.attempt.bind fun x _ => ?_
    have htail := fun r => ih (fun m hm => hg m (mem_cons_of_mem _ hm)) hrest r
    cases x <;> exact (htail _).more (subset_append_right _ _)

end

theorem learns_merge (p : Str) (r : List Stat × Bool × Str) :
    Learns (Tracked (W := W) A s0) N (merge p r) (fun _ => True) fun _ => [] := by
  refine (learns_get.more (nil_subset _)).bind fun s _ => ?_
  exact learns_ite (fun _ => learns_fail _) fun _ => learns_pure trivial (nil_subset _)

theorem learns_readdir (hn : s0.Numbered) (p : Str) :
    Learns (Tracked A s0) [] (readdir (logging D) p) (fun _ => True) fun _ => [] := by
  refine learns_get.bind fun s hs => ?_
  cases hl : s.lookup (clean p) with
  | none => exact learns_merge _ _
  | some r =>
    have hsub : r.1.filterMap Mount.fact ⊆ s.facts ++ [] := List.Subset.trans
      (filterMap_subset _ fun m hm => mem_of_lookup hl hm)
        (List.Subset.trans (subset_append_left _ _) (subset_append_left _ _))
    refine (learns_listAll hn _ r.1 (fun m hm => placed_of_mem hs (mem_of_lookup hl hm)) hsub _).bind
      fun _ _ => learns_merge _ _

/-! ## Renaming -/

/-- The source and its directory are served by one backend. -/
def OneBackend (s : Space W H) (src : Str) : Prop :=
  match splitLast (clean src) with
  | none => True
  | some (dir, _) =>
    match s.lookup (clean (dirOf dir)), s.lookup (clean src) with
    | some (g, _), some (g', _) => ∀ m ∈ g, ∀ m' ∈ g', m.B.dev = m'.B.dev
    | _, _ => True

instance (s : Space W H) (src : Str) : Decidable (OneBackend s src) := by
  unfold OneBackend
  cases splitLast (clean src) with
  | none => exact inferInstanceAs (Decidable True)
  | some r =>
    dsimp only
    cases s.lookup (clean (dirOf r.1)) with
    | none => exact inferInstanceAs (Decidable True)
    | some g =>
      cases s.lookup (clean src) with
      | none => exact inferInstanceAs (Decidable True)
      | some g' => exact inferInstanceAs (Decidable (∀ m ∈ g.1, ∀ m' ∈ g'.1, _))

theorem OneBackend.eq {s : Space W H} {b' : Ref} (h : OneBackend s src)
    (hd : splitLast (clean src) = some (dir, name)) (hb : Serves s (dirOf dir) b)
    (hb' : Serves s src b') : b.dev = b'.dev := by
  obtain ⟨g, rest, hg, m, hm, rfl⟩ := hb
  obtain ⟨g', rest', hg', m', hm', rfl⟩ := hb'
  unfold OneBackend at h
  rw [hd] at h
  dsimp only at h
  rw [hg, hg'] at h
  exact h m hm m' hm'

/-- Where a backend serves the directory, one serves the path. -/
theorem serves_of_dir {s : Space W H} (hs : s.Clean) (hd : splitLast (clean src) = some (dir, name))
    (hb : Serves s (dirOf dir) b) : ∃ b', Serves s src b' := by
  obtain ⟨g, rest, hg, m, hm, -⟩ := hb
  obtain ⟨hl, -⟩ | ⟨rest', hl, -, hparts⟩ := hs.lookup_eq (dirOf dir)
  · rw [hg] at hl
    cases hl
  · rw [hg] at hl
    cases hl
    have hpre : m.parts <+: cleanParts src := by
      rw [cleanParts_dir hd, hparts m hm]
      exact (prefix_append _ _).trans (prefix_append _ _)
    have hsome := hs.lookup_ne_none (mem_of_lookup hg hm) hpre
    obtain ⟨hnone, -⟩ | ⟨rest', hl', hne, -⟩ := hs.lookup_eq src
    · exact absurd hnone hsome
    · obtain ⟨m', hm'⟩ := exists_mem_of_ne_nil _ hne
      exact ⟨m'.B, _, _, hl', m', hm', rfl⟩

theorem learns_renameIn {bdir bname : Str} (hn : s0.Numbered) (hc : s0.Clean)
    (ho : OneBackend s0 src) (hd : splitLast (clean src) = some (dir, name)) :
    Learns (Tracked (fun i => ∃ b, Serves s0 src b ∧ b.dev = i) s0) []
      (renameIn (logging D) (clean src) (dirOf dir) name bdir bname) (fun _ => True) fun _ =>
        [] := by
  refine (learns_walk hn _).bind fun da hda => learns_closing mem_cons_self ?_
  have hA : ∃ b, Serves s0 src b ∧ b.dev = da.B.dev := by
    obtain ⟨b', hb'⟩ := serves_of_dir hc hd hda
    exact ⟨b', hb', (ho.eq hd hda hb').symm⟩
  refine ((learns_walk hn _).more (nil_subset _)).bind fun db _ => learns_closing mem_cons_self ?_
  refine learns_ite (fun _ => learns_fail _) fun hB => ?_
  have hB : da.B = db.B := not_not.mp hB
  refine learns_ite (fun _ => ?_) fun _ => ?_
  · refine learns_ite (fun _ => ?_) fun _ => learns_fail _
    refine ((learns_walk hn _).more (nil_subset _)).bind fun c hc' =>
      learns_closing mem_cons_self ?_
    have hc' : Serves s0 src c.B := by
      unfold Serves at hc'
      rw [clean_clean] at hc'
      exact hc'
    refine (learns_ask (.wstat c.h bname) fun _ => hA).more (cons_subset.mpr ⟨?_, nil_subset _⟩)
    rw [ho.eq hd hda hc']
    exact mem_cons_self
  · refine learns_ite (fun _ => ?_) fun _ => learns_fail _
    refine (learns_ask (.rename da.h name db.h bname) fun _ => hA).more ?_
    refine cons_subset.mpr ⟨?_, cons_subset.mpr ⟨?_, nil_subset _⟩⟩
    · exact mem_append_right _ mem_cons_self
    · rw [hB]
      exact mem_cons_self

theorem learns_rename (dst : Str) (hn : s0.Numbered) (hc : s0.Clean) (ho : OneBackend s0 src) :
    Learns (Tracked (fun i => ∃ b, Serves s0 src b ∧ b.dev = i) s0) [] (rename (logging D) src dst)
      (fun _ => True)
      fun _ => [] := by
  unfold rename
  dsimp only
  cases hd : splitLast (clean src) with
  | none => exact learns_fail _
  | some r =>
    cases splitLast (clean dst) with
    | none => exact learns_fail _
    | some r' =>
      refine learns_ite (fun _ => learns_pure trivial (nil_subset _)) fun _ => ?_
      exact learns_ite (fun _ => learns_fail _) fun _ => learns_renameIn hn hc ho hd

/-! ## Steps -/

structure Owned (s : Logged W H) : Prop where
  own : OwnHandles s.world.2
  made : ∀ k ∈ s.facts, Made s.world.2 k
  numbered : s.Numbered
  clean : s.Clean

theorem Owned.tracked (hs : Owned s) : Tracked A s s.facts s :=
  ⟨rfl, rfl, hs.own, fun k hk => hs.made k ((mem_append.mp hk).elim id id), [], rfl, nofun⟩

theorem Numbered.of_places {s s0 : Space W H} (hn : s0.Numbered)
    (h : s.mounts.map Mount.place = s0.mounts.map Mount.place)
    (hs : s.serial = s0.serial) : s.Numbered := by
  have hold : ∀ m ∈ s.mounts, ∃ m' ∈ s0.mounts, m'.B = m.B ∧ m'.serial = m.serial := fun m hm => by
    have hm : m.place ∈ s.mounts.map Mount.place := mem_map_of_mem hm
    rw [h] at hm
    obtain ⟨m', hm', e⟩ := mem_map.mp hm
    exact ⟨m', hm', congrArg (fun x => x.2.1) e, congrArg (fun x => x.2.2) e⟩
  constructor
  · intro m hm
    obtain ⟨m', hm', -, e⟩ := hold m hm
    rw [hs, ← e]
    exact hn.below m' hm'
  · intro m hm x hx e
    obtain ⟨m', hm', eB, eS⟩ := hold m hm
    obtain ⟨x', hx', exB, exS⟩ := hold x hx
    rw [← eB, ← exB]
    exact hn.inj m' hm' x' hx' (by rw [eS, exS, e])

theorem Tracked.owned (hs0 : Owned s0) (hs : Tracked A s0 [] s) (hc : s.Clean) : Owned s :=
  ⟨hs.known.own, hs.known.made, Numbered.of_places hs0.numbered hs.places hs.serial, hc⟩

theorem Learns.owned (hs : Owned s) (hN : N ⊆ s.facts)
    (hr : Learns (Tracked A s) N r V F) (hc : (r s).2.Clean) : Owned (r s).2 :=
  Tracked.owned hs (Tracked.fewer.out _ _ _ (nil_subset _) (hr.after hN hs.tracked)) hc

/-- The open files change, and what is new of them is known. -/
theorem learns_chans {f : List (Chan H) → List (Chan H)} (hf : ∀ l, ∀ c ∈ f l, c ∈ l ∨ c.fact ∈ N) :
    Learns (Tracked A s0) N (modify fun s => { s with chans := f s.chans } : Routine _ H Unit)
      (fun _ => True)
      fun _ => [] := by
  refine learns_modify (fun _ => rfl) (fun _ => rfl) (fun _ => rfl) fun s _ k hk => ?_
  obtain hk | hk := mem_append.mp hk
  · exact mem_append_right _ (mem_append_left _ hk)
  · obtain ⟨c, hc, rfl⟩ := mem_map.mp hk
    obtain hc | hc := hf _ c hc
    · exact mem_append_right _ (mem_append_right _ (mem_map_of_mem hc))
    · exact mem_append_left _ hc

theorem learns_keep {r : Routine _ H (Chan H)}
    (hr : Learns (Tracked A s0) [] r (fun _ => True) fun c => [c.fact]) :
    Learns (Tracked A s0) [] (keep r) (fun _ => True) fun _ => [] := by
  refine hr.bind fun c _ => learns_chans fun l c' hc => (mem_append.mp hc).imp id fun hc => ?_
  exact mem_append_left _ (mem_map_of_mem hc)

theorem learns_onChan {f : Chan H → Routine _ H Unit} (i : Nat)
    (hf : ∀ c, Learns (Tracked (W := W) A s0) [c.fact] (f c) (fun _ => True) fun _ => []) :
    Learns (Tracked A s0) [] (onChan i f) (fun _ => True) fun _ => [] := by
  refine learns_get.bind fun s _ => ?_
  cases hc : s.chans[i]? with
  | none => exact learns_pure trivial (nil_subset _)
  | some c =>
    refine (hf c).more (cons_subset.mpr ⟨?_, nil_subset _⟩)
    exact mem_append_left _ (mem_append_right _ (mem_map_of_mem (mem_of_getElem? hc)))

theorem learns_advance (i : Nat) (c : Chan H) (n : Int) :
    Learns (Tracked (W := W) A s0) [c.fact] (advance i c n) (fun _ => True) fun _ => [] := by
  refine learns_chans fun l c' hc => (mem_or_eq_of_mem_set hc).imp id ?_
  rintro rfl
  exact mem_cons_self

theorem learns_dropRoot (hm : m.fact.toList ⊆ N) :
    Learns (Tracked A s0) N (dropRoot (logging D) m) (fun _ => True) fun _ => [] := by
  unfold dropRoot
  unfold Mount.fact at hm
  cases hroot : m.root with
  | none => exact learns_pure trivial (nil_subset _)
  | some h =>
    rw [hroot] at hm
    exact ((learns_ask (.clunk h) nofun).more hm).attempt.discard

theorem learns_closeBackend (b : Ref) :
    Learns (Tracked A s0) N (closeBackend (logging D) b) (fun _ => True) fun _ => [] := by
  refine learns_ite (fun _ => ?_) fun _ => learns_pure trivial (nil_subset _)
  exact ((learns_ask .close nofun).more (nil_subset _)).attempt.discard

theorem Owned.fewer_mounts (hs : Owned s) (hsub : l ⊆ s.mounts) : Owned { s with mounts := l } where
  own := hs.own
  made k hk := by
    refine hs.made k ?_
    obtain hk | hk := mem_append.mp hk
    · exact mem_append_left _ (filterMap_subset _ hsub hk)
    · exact mem_append_right _ hk
  numbered := ⟨fun m hm => hs.numbered.below m (hsub hm), fun m hm m' hm' => hs.numbered.inj m (hsub hm) m' (hsub hm')⟩
  clean m hm := hs.clean m (hsub hm)

theorem owned_unmount (hs : Owned s) (pfx : Str) : Owned (unmount (logging D) pfx s).2 := by
  unfold unmount
  rw [bind_ok (get_apply s)]
  cases hf : s.mounts.find? (·.pfx = clean pfx) with
  | none => exact hs
  | some m =>
    have hm : m.fact.toList ⊆ s.facts :=
      List.Subset.trans (fact_subset (mem_of_find?_eq_some hf)) (subset_append_left _ _)
    refine bind_after (P := Owned) ?_ fun _ t ht => bind_after (P := Owned) ?_ fun _ u hu => ?_
    · exact Learns.owned hs hm (learns_dropRoot (A := Anywhere) (List.Subset.refl _))
        ((stays_dropRoot m s).clean hs.clean)
    · exact Learns.owned ht (nil_subset _) (learns_closeBackend (A := Anywhere) m.B)
        ((stays_closeBackend m.B t).clean ht.clean)
    · exact hu.fewer_mounts eraseP_subset

theorem owned_mount (hs : Owned s) (pfx : Str) (dev : Nat) (sub : Str) (order : Order) :
    Owned (mount pfx dev sub order s).2 := by
  obtain ⟨hw, hc, hser⟩ := mount_rest s pfx sub dev order
  refine ⟨hw ▸ hs.own, fun k hk => ?_, ⟨fun m hm => ?_, fun m hm m' hm' e => ?_⟩, fun m hm => ?_⟩
  · rw [hw]
    refine hs.made k ?_
    unfold Space.facts at hk
    rw [hc] at hk
    obtain hk | hk := mem_append.mp hk
    · obtain ⟨x, hx, e⟩ := mem_filterMap.mp hk
      obtain hx | rfl := mem_mount hx
      · exact mem_append_left _ (mem_filterMap.mpr ⟨x, hx, e⟩)
      · cases e
    · exact mem_append_right _ hk
  · rw [hser]
    obtain hm | rfl := mem_mount hm
    · exact Nat.lt_succ_of_lt (hs.numbered.below m hm)
    · exact Nat.lt_succ_self _
  · obtain hm | rfl := mem_mount hm
    · obtain hm' | rfl := mem_mount hm'
      · exact hs.numbered.inj m hm m' hm' e
      · exact absurd e (Nat.ne_of_lt (hs.numbered.below m hm))
    · obtain hm' | rfl := mem_mount hm'
      · exact absurd e.symm (Nat.ne_of_lt (hs.numbered.below m' hm'))
      · rfl
  · obtain hm | rfl := mem_mount hm
    · exact hs.clean m hm
    · exact clean_clean pfx

/-- The condition on a step: a rename has its source and its directory in one backend. -/
def Confined (s : Space W H) : Op → Prop
  | .rename src _ => OneBackend s src
  | _ => True

instance (s : Space W H) (op : Op) : Decidable (Confined s op) :=
  match op with
  | .rename src _ => inferInstanceAs (Decidable (OneBackend s src))
  | .mount _ _ _ _ | .unmount _ | .open _ _ | .create _ _ _ | .remove _ | .stat _ | .readdir _ | .read _ _ | .write _ _
  | .chanStat _ | .chanReaddir _ | .close _ => isTrue trivial

theorem owned_step {op : Op} (hs : Owned s) (hop : Confined s op) :
    Owned (step (logging D) s op) := by
  have hclean : (step (logging D) s op).Clean := hs.clean.step
  have hn := hs.numbered
  cases op with
  | mount pfx dev sub order => exact owned_mount hs pfx dev sub order
  | unmount pfx => exact owned_unmount hs pfx
  | «open» p mode =>
    exact Learns.owned hs (nil_subset _) (learns_keep (learns_open hn p mode)) hclean
  | create p mode isdir =>
    exact Learns.owned hs (nil_subset _) (learns_keep (learns_create hn p mode isdir)) hclean
  | remove p => exact Learns.owned hs (nil_subset _) (learns_remove hn p) hclean
  | rename src dst =>
    exact Learns.owned hs (nil_subset _) (learns_rename dst hn hs.clean hop) hclean
  | stat p =>
    exact Learns.owned hs (nil_subset _) ((learns_stat (A := Anywhere) hn p).discard) hclean
  | readdir p =>
    exact Learns.owned hs (nil_subset _) ((learns_readdir (A := Anywhere) hn p).discard) hclean
  | read i n =>
    refine Learns.owned hs (nil_subset _) (learns_onChan (A := Anywhere) i fun c => ?_) hclean
    refine (learns_ask (.read c.h c.pos n) nofun).bind fun data _ => ?_
    exact (learns_advance i c _).more (subset_append_right _ _)
  | write i data =>
    refine Learns.owned hs (nil_subset _) (learns_onChan (A := Anywhere) i fun c => ?_) hclean
    refine (learns_ask (.write c.h c.pos data) fun _ => trivial).bind fun n _ => ?_
    exact (learns_advance i c _).more (subset_append_right _ _)
  | chanStat i =>
    refine Learns.owned hs (nil_subset _) (learns_onChan (A := Anywhere) i fun c => ?_) hclean
    exact (learns_ask (.stat c.h) nofun).discard
  | chanReaddir i =>
    refine Learns.owned hs (nil_subset _) (learns_onChan (A := Anywhere) i fun c => ?_) hclean
    exact (learns_ask (.readdir c.h) nofun).discard
  | close i =>
    refine Learns.owned hs (nil_subset _) (learns_onChan (A := Anywhere) i fun c => ?_) hclean
    refine (learns_ask (.clunk c.h) nofun).attempt.bind fun _ _ => ?_
    exact learns_chans fun l c' hc => .inl (mem_of_mem_eraseIdx hc)

/-- A namespace that was just made, with no calls so far. -/
def Blank (s : Logged W H) : Prop := Fresh s ∧ s.world.2 = []

theorem Blank.owned (h : Blank s) : Owned s := by
  obtain ⟨⟨hm, hc⟩, hw⟩ := h
  refine ⟨?_, ?_, ⟨?_, ?_⟩, ?_⟩
  · rw [hw]
    exact trivial
  · unfold Space.facts
    rw [hm, hc]
    exact nofun
  · rw [hm]
    exact nofun
  · rw [hm]
    exact nofun
  · exact Fresh.clean ⟨hm, hc⟩

/-- As long as each rename has its source and its directory in one backend, a backend is only given
handles that it made, and a rename only changes files in the backend that serves the source. -/
theorem handles_owned (D : Nat → Device W H) (s : Logged W H)
    (hr : Runs Blank Confined (step (logging D)) s) :
    OwnHandles s.world.2 ∧
    ∀ src dst, OneBackend s src →
    ∃ new, (rename (logging D) src dst s).2.world.2 = new ++ s.world.2 ∧
      ∀ e ∈ new, e.req.changing → ∃ b, Serves s src b ∧ b.dev = e.dev := by
  have hs : Owned s := hr.invariant Blank.owned owned_step
  refine ⟨hs.own, fun src dst ho => ?_⟩
  exact ((learns_rename dst hs.numbered hs.clean ho).after (nil_subset _) hs.tracked).known.since

/-- A disk with some files in one directory. A file has its place in the list as its handle, and the
directory the number `root`. -/
def disk (root : Nat) (files : List Str) : Device Unit Nat where
  walkmany := false
  remove := true
  wstat := true
  rename := true
  close := false
  answer
    | .attach => pure root
    | .walk _ name => if name ∈ files then pure (root + 1 + files.idxOf name) else fail Enonexist
    | .walkmany _ _ => fail Enotimpl
    | .stat _ => pure ⟨[], true, 0, 0⟩
    | .open h _ => pure h
    | .create _ _ _ _ => fail Eperm
    | .read _ _ _ => pure []
    | .write _ _ data => pure data.length
    | .readdir _ => pure (files.map fun name => ⟨name, false, 0, 0⟩)
    | .clunk _ | .remove _ | .wstat _ _ | .rename _ _ _ _ | .close => pure ()

def disks : Nat → Device Unit Nat
  | 0 => disk 10 [str "a"]
  | _ => disk 20 [str "x"]

def bare : Logged Unit Nat := ⟨((), []), [], 0, []⟩

/-- One disk at the root and one below it, and files of both. -/
def apart : List Op :=
  [.mount (str "/") 0 (str "/") .replace, .mount (str "/mnt") 1 (str "/") .replace, .open (str "/mnt/x") (str "r"),
   .rename (str "/a") (str "/b"), .rename (str "/mnt/x") (str "/y"), .read 0 5]

theorem apart_owned : OwnHandles (apart.foldl (step (logging disks)) bare).world.2 := by
  have hrun : Runs Blank Confined (step (logging disks))
      (apart.foldl (step (logging disks)) bare) :=
    Runs.along (.init ⟨⟨rfl, rfl⟩, rfl⟩) (by decide +kernel)
  exact (handles_owned disks _ hrun).1

def union : List Op := [.mount (str "/") 0 (str "/") .replace, .mount (str "/") 1 (str "/") .after]

/-- The file is on the second disk, and the first one is given its handle. -/
theorem union_renamed :
    ¬OwnHandles (step (logging disks) (union.foldl (step (logging disks)) bare)
      (.rename (str "/x") (str "/y"))).world.2 := by
  decide +kernel

end Ns

end Nlos
