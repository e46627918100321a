import Nlos.Ns.Namespace

/-!
# A name is a function of the clean path

What a namespace does with a path is said in terms of the elements of the clean path. A mount serves
a path if the elements of its own path are the first ones there, and a call goes to the mounts for
which these are the most, one after the other.

`stat` and `readdir` also show the mounts below a path, and look for those under the string they
were given. So there the spelling counts: a path that is neither clean nor empty has no mounts below
it. And `create` goes to the mounts that serve the directory, which are those that serve the path
unless there is a mount at the path itself.
-/

namespace Nlos.Ns

open Dev List Fallible

variable {W H : Type} {D : Nat → Device W H} {s : Space W H} {m : Mount H} {p q : Str}
    {Q P E : List Str}

/-! ## Clean paths -/

/-- Elements that a clean path can have. -/
def Plain (Q : List Str) : Prop := ∀ e ∈ Q, (e ≠ [] ∧ slash ∉ e) ∧ e ≠ [dot] ∧ e ≠ [dot, dot]

theorem Plain.names (h : Plain Q) : Paths.Names slash Q := fun e he => (h e he).1

theorem Plain.sublist (h : Plain Q) (hs : P.Sublist Q) : Plain P := fun e he => h e (hs.subset he)

theorem Plain.foldl {l : List Str} (hl : Paths.Names slash l) (h : Plain Q) :
    Plain (l.foldl cleanStep Q) := by
  induction l generalizing Q with
  | nil => exact h
  | cons a l ih =>
    refine ih (fun e he => hl e (mem_cons_of_mem _ he)) ?_
    unfold cleanStep
    split
    · exact h.sublist (dropLast_sublist _)
    next h2 =>
    split
    · exact h
    next h1 =>
    intro e he
    obtain he | he := mem_append.mp he
    · exact h e he
    · rw [mem_singleton.mp he]
      exact ⟨hl a mem_cons_self, h1, h2⟩

theorem plain_cleanParts (p : Str) : Plain (cleanParts p) := Plain.foldl (Paths.names_elems p) nofun

theorem foldl_cleanStep (h : Plain Q) (acc : List Str) : Q.foldl cleanStep acc = acc ++ Q := by
  induction Q generalizing acc with
  | nil => exact (append_nil acc).symm
  | cons a Q ih =>
    obtain ⟨-, h1, h2⟩ := h a mem_cons_self
    rw [foldl_cons, ih (h.sublist (sublist_cons_self _ _)), cleanStep, if_neg h2, if_neg h1,
      append_assoc]
    rfl

theorem cleanParts_rooted (h : Plain Q) : cleanParts (Paths.rooted slash Q) = Q := by
  unfold cleanParts
  rw [Paths.elems_rooted h.names, foldl_cleanStep h, nil_append]

theorem cleanParts_clean (p : Str) : cleanParts (clean p) = cleanParts p :=
  cleanParts_rooted (plain_cleanParts p)

theorem clean_clean (p : Str) : clean (clean p) = clean p :=
  congrArg (Paths.rooted slash) (cleanParts_clean p)

/-! ## Which mounts serve a path -/

def Mount.parts (m : Mount H) : List Str := cleanParts m.pfx

def Space.Clean (s : Space W H) : Prop := ∀ m ∈ s.mounts, clean m.pfx = m.pfx

theorem take_drop_iff {n path : Str} {c : UInt8} :
    (path.take n.length = n ∧ (path.drop n.length).head? = some c) ↔ n ++ [c] <+: path := by
  constructor
  · rintro ⟨h1, h2⟩
    cases h3 : path.drop n.length with
    | nil =>
      rw [h3] at h2
      cases h2
    | cons d t =>
      rw [h3] at h2
      cases h2
      refine ⟨t, ?_⟩
      calc n ++ [c] ++ t = path.take n.length ++ path.drop n.length := by
            rw [h1, h3, append_assoc]
            rfl
        _ = path := take_append_drop _ _
  · rintro ⟨t, rfl⟩
    rw [append_assoc, take_left, drop_left]
    exact ⟨rfl, rfl⟩

theorem rooted_ne_root {a : Str} (ha : a ≠ []) : Paths.rooted slash (a :: P) ≠ root := by
  rw [Paths.rooted_cons]
  simp [Paths.body, root, ha]

theorem serves_rooted (hP : Plain P) (hE : Plain E) :
    serves (Paths.rooted slash P) (Paths.rooted slash E) = true ↔ P <+: E := by
  unfold serves
  simp only [Bool.or_eq_true, Bool.and_eq_true, decide_eq_true_eq, take_drop_iff]
  cases P with
  | nil => simp [root, Paths.rooted]
  | cons a P =>
    have hbody : Paths.rooted slash (a :: P) ++ [slash] <+: Paths.rooted slash E ↔ ∃ r, r ≠ [] ∧
        E = a :: P ++ r := by
      cases E with
      | nil =>
        rw [Paths.rooted_cons]
        constructor
        · intro h
          have hle := h.length_le
          simp [Paths.body, Paths.rooted] at hle
        · rintro ⟨r, -, h⟩
          cases h
      | cons b E =>
        rw [Paths.rooted_cons, Paths.rooted_cons]
        exact Paths.body_sep_prefix hP.names hE.names
    rw [or_iff_right (rooted_ne_root (hP a mem_cons_self).1.1), hbody]
    constructor
    · rintro (h | ⟨r, -, rfl⟩)
      · exact Paths.rooted_inj hE.names hP.names h ▸ prefix_rfl
      · exact prefix_append _ _
    · rintro ⟨r, rfl⟩
      by_cases hr : r = []
      · left
        rw [hr, append_nil]
      · exact .inr ⟨r, hr, rfl⟩

theorem rooted_length_lt {r : List Str} (h : Plain (P ++ r)) (hr : r ≠ []) :
    (Paths.rooted slash P).length < (Paths.rooted slash (P ++ r)).length := by
  cases r with
  | nil => exact absurd rfl hr
  | cons a r =>
    cases P with
    | nil =>
      have ha := length_pos_iff.mpr (h a (mem_append_right _ mem_cons_self)).1.1
      rw [nil_append, Paths.rooted_cons]
      have hlen : (Paths.body slash (a :: r)).length = a.length +
          (Paths.body slash r).length + 1 := by
        simp [Paths.body]
      show 1 < _
      omega
    | cons b P =>
      rw [cons_append, Paths.rooted_cons, Paths.rooted_cons, ← cons_append, Paths.body_append]
      simp [Paths.body]

/-- The paths that serve one path are as long as they have elements. -/
theorem rooted_length_le (hE : Plain E) {P' : List Str} (h : P <+: E) (h' : P' <+: E) :
    (Paths.rooted slash P).length ≤ (Paths.rooted slash P').length ↔ P.length ≤ P'.length := by
  constructor
  · intro hle
    by_contra hlt
    obtain ⟨r, rfl⟩ := prefix_of_prefix_length_le h' h (Nat.le_of_not_le hlt)
    have hr : r ≠ [] := by
      rintro rfl
      exact hlt (Nat.le_of_eq (by rw [append_nil]))
    exact absurd hle (Nat.not_le.mpr (rooted_length_lt (hE.sublist h.sublist) hr))
  · intro hle
    obtain ⟨r, rfl⟩ := prefix_of_prefix_length_le h h' hle
    by_cases hr : r = []
    · exact Nat.le_of_eq (by rw [hr, append_nil])
    · exact Nat.le_of_lt (rooted_length_lt (hE.sublist h'.sublist) hr)

theorem bestlen_spec (path : Str) (l : List (Mount H)) : match bestlen path l with
    | none => ∀ m ∈ l, ¬serves m.pfx path
    | some n => (∃ m ∈ l, serves m.pfx path ∧ m.pfx.length = n) ∧ ∀ m ∈ l, serves m.pfx path → m.pfx.length ≤ n := by
  induction l using List.reverseRecOn with
  | nil => exact nofun
  | append_singleton l m ih =>
    unfold bestlen at ih ⊢
    rw [foldl_append, foldl_cons, foldl_nil]
    generalize l.foldl _ none = best at ih ⊢
    by_cases hm : serves m.pfx path ∧ best.all (· < m.pfx.length)
    · rw [if_pos hm]
      refine ⟨⟨m, mem_append_right _ mem_cons_self, hm.1, rfl⟩, fun m' hm' hs => ?_⟩
      obtain hm' | hm' := mem_append.mp hm'
      · cases best with
        | none => exact absurd hs (ih m' hm')
        | some n =>
          have hlt : n < m.pfx.length := by simpa using hm.2
          exact Nat.le_trans (ih.2 m' hm' hs) (Nat.le_of_lt hlt)
      · exact Nat.le_of_eq (by rw [mem_singleton.mp hm'])
    · rw [if_neg hm]
      cases best with
      | none =>
        intro m' hm'
        obtain hm' | hm' := mem_append.mp hm'
        · exact ih m' hm'
        · rw [mem_singleton.mp hm']
          exact fun hs => hm ⟨hs, rfl⟩
      | some n =>
        obtain ⟨⟨m0, hm0, h⟩, hmax⟩ := ih
        refine ⟨⟨m0, mem_append_left _ hm0, h⟩, fun m' hm' hs => ?_⟩
        obtain hm' | hm' := mem_append.mp hm'
        · exact hmax m' hm' hs
        · rw [mem_singleton.mp hm'] at hs ⊢
          by_contra hlt
          exact hm ⟨hs, by simpa using hlt⟩

/-- The mount serves the path, and none that serves it is at more elements. -/
def Space.At (s : Space W H) (E : List Str) (m : Mount H) : Prop :=
  m.parts <+: E ∧ ∀ m' ∈ s.mounts, m'.parts <+: E → m'.parts.length ≤ m.parts.length

instance : Decidable (s.At E m) := inferInstanceAs (Decidable (_ ∧ _))

/-- The mounts that a call for the path goes to. -/
def Space.group (s : Space W H) (E : List Str) : List (Mount H) := s.mounts.filter (s.At E)

theorem Space.Clean.pfx_eq (hs : s.Clean) (hm : m ∈ s.mounts) :
    m.pfx = Paths.rooted slash m.parts := (hs m hm).symm

theorem Space.Clean.serves_iff (hs : s.Clean) (hm : m ∈ s.mounts) :
    serves m.pfx (clean p) = true ↔ m.parts <+: cleanParts p := by
  rw [hs.pfx_eq hm]
  exact serves_rooted (plain_cleanParts _) (plain_cleanParts p)

theorem elements_rest (hE : Plain (P ++ E)) :
    elements (if Paths.rooted slash P = root then Paths.rooted slash (P ++ E)
      else (Paths.rooted slash (P ++ E)).drop (Paths.rooted slash P).length) = E := by
  have hplain : ∀ {l : List Str}, Plain l → l.filter (· ≠ [dot]) = l := fun h =>
    filter_eq_self.mpr fun e he => by simpa using (h e he).2.1
  have hE' : Plain E := hE.sublist (sublist_append_right _ _)
  unfold elements
  cases P with
  | nil =>
    have hroot : Paths.rooted slash ([] : List Str) = root := rfl
    rw [if_pos hroot, nil_append, Paths.elems_rooted hE'.names, hplain hE']
  | cons a P =>
    rw [if_neg (rooted_ne_root (hE a mem_cons_self).1.1), cons_append, Paths.rooted_cons,
      Paths.rooted_cons, ← cons_append, Paths.body_append,
      drop_left, Paths.elems_body hE'.names, hplain hE']

theorem Space.Clean.lookup_eq (hs : s.Clean) (p : Str) :
    (s.lookup (clean p) = none ∧ s.group (cleanParts p) = []) ∨
    ∃ rest, s.lookup (clean p) = some (s.group (cleanParts p), rest) ∧ s.group (cleanParts p) ≠ [] ∧
      ∀ m ∈ s.group (cleanParts p), cleanParts p = m.parts ++ elements rest := by
  have hE := plain_cleanParts p
  have hspec := bestlen_spec (clean p) s.mounts
  unfold Space.lookup
  cases hb : bestlen (clean p) s.mounts with
  | none =>
    rw [hb] at hspec
    refine .inl ⟨rfl, filter_eq_nil_iff.mpr fun m hm => ?_⟩
    have hn := hspec m hm
    rw [hs.serves_iff hm] at hn
    exact fun h => hn (of_decide_eq_true h).1
  | some n =>
    rw [hb] at hspec
    obtain ⟨⟨m0, hm0, hs0, hn⟩, hmax⟩ := hspec
    have hgroup : (s.mounts.filter fun m => m.pfx.length = n ∧ serves m.pfx (clean p)) =
        s.group (cleanParts p) := by
      refine filter_congr fun m hm => ?_
      refine decide_eq_decide.mpr ?_
      rw [hs.serves_iff hm]
      constructor
      · rintro ⟨hlen, hpre⟩
        refine ⟨hpre, fun m' hm' hpre' => ?_⟩
        have hle := hmax m' hm' ((hs.serves_iff hm').mpr hpre')
        rw [← hlen, hs.pfx_eq hm, hs.pfx_eq hm'] at hle
        exact (rooted_length_le hE hpre' hpre).mp hle
      · rintro ⟨hpre, hall⟩
        have hpre0 := (hs.serves_iff hm0).mp hs0
        have hle := hmax m hm ((hs.serves_iff hm).mpr hpre)
        have hge := (rooted_length_le hE hpre0 hpre).mpr (hall m0 hm0 hpre0)
        rw [← hs.pfx_eq hm, ← hs.pfx_eq hm0, hn] at hge
        exact ⟨Nat.le_antisymm hle hge, hpre⟩
    have hne : s.group (cleanParts p) ≠ [] := by
      rw [← hgroup]
      refine ne_nil_of_mem (mem_filter.mpr ⟨hm0, ?_⟩)
      simpa using ⟨hn, hs0⟩
    dsimp only
    rw [hgroup]
    refine .inr ⟨_, rfl, hne, fun m hm => ?_⟩
    -- all mounts of the group are at one path, so the last one is at that of any
    obtain ⟨hm, hat⟩ := mem_filter.mp hm
    have hat := of_decide_eq_true hat
    obtain ⟨l, hl⟩ : ∃ l, (s.group (cleanParts p)).getLast? = some l := by
      cases h : (s.group (cleanParts p)).getLast? with
      | none => exact absurd (List.getLast?_eq_none_iff.mp h) hne
      | some l => exact ⟨l, rfl⟩
    obtain ⟨hlm, hlat⟩ := mem_filter.mp (mem_of_getLast? hl)
    have hlat := of_decide_eq_true hlat
    have hparts : l.parts = m.parts := by
      have hlen := Nat.le_antisymm (hat.2 l hlm hlat.1) (hlat.2 m hm hat.1)
      exact (prefix_of_prefix_length_le hlat.1 hat.1 (Nat.le_of_eq hlen)).eq_of_length hlen
    obtain ⟨r, hr⟩ := hat.1
    have hrest := elements_rest (hr ▸ hE)
    rw [hl, Option.map_some, Option.getD_some, hs.pfx_eq hlm, hparts]
    unfold clean
    rw [← hr, hrest]

theorem Space.Clean.lookup_ne_none (hs : s.Clean) (hm : m ∈ s.mounts)
    (hpre : m.parts <+: cleanParts p) : s.lookup (clean p) ≠ none := by
  have hspec := bestlen_spec (clean p) s.mounts
  unfold Space.lookup
  cases hb : bestlen (clean p) s.mounts with
  | none =>
    rw [hb] at hspec
    exact absurd ((hs.serves_iff hm).mpr hpre) (hspec m hm)
  | some n => exact Option.some_ne_none _

/-! ## The first that resolves -/

/-- Members of a union that were tried one after the other, and none of which resolved the names. -/
inductive Tried (D : Nat → Device W H) (names : List Str) :
    List (Mount H) → Space W H → Space W H → Prop where
  | nil {s : Space W H} : Tried D names [] s s
  | cons {m : Mount H} {l : List (Mount H)} {s t u : Space W H} {e : Str}
      (h : resolve D m names s = (.error e, t))
      (hl : Tried D names l t u) : Tried D names (m :: l) s u

/-- What becomes of the names, if the first member that resolves them is taken. -/
def FirstOf (D : Nat → Device W H) (names : List Str) (path : Str) (group : List (Mount H))
    (s : Space W H) :
    Except Str (Chan H) × Space W H → Prop
  | (.ok c, t) => ∃ pre m post u, group = pre ++ m :: post ∧ Tried D names pre s u ∧
      resolve D m names u = (.ok c.h, t) ∧ c = ⟨m.B, path, c.h, 0⟩
  | (.error _, t) => Tried D names group s t

theorem tryAll_firstOf (names : List Str) (path : Str) (group : List (Mount H)) (last : Str)
    (s : Space W H) : FirstOf D names path group s (tryAll D names path group last s) := by
  induction group generalizing last s with
  | nil => exact .nil
  | cons m group ih =>
    unfold tryAll
    rw [bind_attempt]
    cases hr : resolve D m names s with
    | mk r t =>
      cases r with
      | ok h => exact ⟨[], m, group, s, rfl, .nil, hr, rfl⟩
      | error e =>
        dsimp only
        match tryAll D names path group e t, ih e t with
        | (.ok _, _), ⟨pre, m', post, v, hl, h1, h2, h3⟩ =>
          exact ⟨m :: pre, m', post, v, congrArg (m :: ·) hl, .cons hr h1, h2, h3⟩
        | (.error _, _), hrest => exact .cons hr hrest

/-- A path goes to the members of its group in turn, with the elements that are left of it. -/
def Resolved (D : Nat → Device W H) (s : Space W H) (p : Str) : Prop :=
  ∃ names, (∀ m ∈ s.group (cleanParts p), cleanParts p = m.parts ++ names) ∧
    FirstOf D names (clean p) (s.group (cleanParts p)) s (walk D p s)

theorem Space.Clean.resolved (hs : s.Clean) (D : Nat → Device W H) (p : Str) : Resolved D s p := by
  obtain ⟨hl, hg⟩ | ⟨rest, hl, -, hrest⟩ := hs.lookup_eq p
  · refine ⟨[], ?_, ?_⟩
    · rw [hg]
      exact nofun
    · unfold walk
      rw [bind_ok (get_apply s), hl, hg]
      exact .nil
  · refine ⟨elements rest, hrest, ?_⟩
    unfold walk
    rw [bind_ok (get_apply s), hl]
    exact tryAll_firstOf _ _ _ _ _

/-- A directory is listed by all members of its group in turn, with the elements that are left of
the path. -/
def Listed (D : Nat → Device W H) (s : Space W H) (p : Str) : Prop :=
  ∃ names err, (∀ m ∈ s.group (cleanParts p), cleanParts p = m.parts ++ names) ∧
    readdir D p s = (listAll D names (s.group (cleanParts p)) ([], false, err) >>= merge p) s

theorem Space.Clean.listed (hs : s.Clean) (D : Nat → Device W H) (p : Str) : Listed D s p := by
  obtain ⟨hl, hg⟩ | ⟨rest, hl, -, hrest⟩ := hs.lookup_eq p
  · refine ⟨[], noMount (clean p), ?_, ?_⟩
    · rw [hg]
      exact nofun
    · unfold readdir
      rw [bind_ok (get_apply s), hl, hg]
      rfl
  · refine ⟨elements rest, Enonexist, hrest, ?_⟩
    unfold readdir
    rw [bind_ok (get_apply s), hl]

/-! ## The mounts below a path -/

def Spelt (p : Str) : Prop := p = [] ∨ clean p = p

instance : Decidable (Spelt p) := inferInstanceAs (Decidable (_ ∨ _))

theorem childUnder_nil (h : clean q = q) : childUnder [] q = childUnder root q := by
  have hne : q ≠ [] := by
    rw [← h]
    exact cons_ne_nil _ _
  unfold childUnder
  rw [if_neg hne, if_pos rfl]
  by_cases hq : q = root
  · rw [hq]
    rfl
  · rw [if_neg hq]
    rfl

/-- A clean path lies under no string but a clean one. -/
theorem childUnder_of_not_spelt (h : clean q = q) (hp : ¬Spelt p) : childUnder p q = none := by
  have hroot : p ≠ root := by
    rintro rfl
    exact hp (.inr rfl)
  unfold childUnder
  rw [if_neg hroot]
  split
  · rfl
  refine if_pos fun htake => hp ?_
  have hpre : p ++ [slash] <+: q := by
    rw [← htake]
    exact take_prefix _ _
  have hplain := plain_cleanParts q
  have hq : q = Paths.rooted slash (cleanParts q) := h.symm
  cases hparts : cleanParts q with
  | nil =>
    rw [hq, hparts] at hpre
    have hle := hpre.length_le
    simp only [Paths.rooted, length_append, length_cons, length_nil, intercalate_nil] at hle
    exact .inl (length_eq_zero_iff.mp (by omega))
  | cons a l =>
    rw [hq, hparts, Paths.rooted_cons] at hpre
    rw [hparts] at hplain
    obtain ⟨l1, l2, -, e, rfl⟩ := Paths.prefix_body hplain.names hpre
    cases l1 with
    | nil => exact .inl rfl
    | cons b l1 =>
      right
      rw [← Paths.rooted_cons]
      have hl1 : Plain (b :: l1) := hplain.sublist (e ▸ sublist_append_left _ _)
      exact congrArg (Paths.rooted slash) (cleanParts_rooted hl1)

theorem Space.Clean.mountpoints_of_spelt (hs : s.Clean) (hp : Spelt p) :
    s.mountpoints p = s.mountpoints (clean p) := by
  obtain rfl | hp := hp
  · unfold Space.mountpoints
    have e : (s.mounts.filterMap fun m => childUnder [] m.pfx) = s.mounts.filterMap fun m =>
      childUnder root m.pfx :=
      filterMap_congr fun m hm => childUnder_nil (hs m hm)
    rw [e]
    rfl
  · rw [hp]

theorem Space.Clean.mountpoints_of_not_spelt (hs : s.Clean) (hp : ¬Spelt p) :
    s.mountpoints p = [] := by
  have e : (s.mounts.filterMap fun m => childUnder p m.pfx) = [] :=
    filterMap_eq_nil_iff.mpr fun m hm => childUnder_of_not_spelt (hs m hm) hp
  unfold Space.mountpoints
  rw [e]
  rfl

def SameBelow (s : Space W H) (p q : Str) : Prop :=
  (Spelt p ↔ Spelt q) ∨ s.mountpoints (clean p) = []

theorem Space.Clean.mountpoints_eq_iff (hs : s.Clean) (e : clean p = clean q) :
    s.mountpoints p = s.mountpoints q ↔ SameBelow s p q := by
  unfold SameBelow
  by_cases hp : Spelt p
  · rw [hs.mountpoints_of_spelt hp]
    by_cases hq : Spelt q
    · rw [hs.mountpoints_of_spelt hq, e]
      simp [hp, hq]
    · rw [hs.mountpoints_of_not_spelt hq]
      simp [hp, hq]
  · rw [hs.mountpoints_of_not_spelt hp]
    by_cases hq : Spelt q
    · rw [hs.mountpoints_of_spelt hq, e]
      have hne : ¬(Spelt p ↔ Spelt q) := fun h => hp (h.mpr hq)
      exact ⟨fun h => .inr h.symm, fun h => (h.resolve_left hne).symm⟩
    · rw [hs.mountpoints_of_not_spelt hq]
      simp [hp, hq]

/-! ## What a call does to the mounts -/

def SamePoints (s t : Space W H) : Prop := t.mounts.map (·.pfx) = s.mounts.map (·.pfx)

theorem SamePoints.refl (s : Space W H) : SamePoints s s := rfl

variable {t : Space W H} {e : Mount H} {l : List (Mount H)} {x : Str}

theorem SamePoints.trans {u : Space W H} (h1 : SamePoints s t) (h2 : SamePoints t u) :
    SamePoints s u := Eq.trans h2 h1

theorem SamePoints.mountpoints (h : SamePoints s t) (p : Str) :
    t.mountpoints p = s.mountpoints p := by
  have e : ∀ s : Space W H,
      (s.mounts.filterMap fun m => childUnder p m.pfx) =
        (s.mounts.map (·.pfx)).filterMap (childUnder p) := fun s => by
    rw [filterMap_map]
    rfl
  unfold Space.mountpoints
  rw [e, e, h]

theorem SamePoints.clean (h : SamePoints s t) (hs : s.Clean) : t.Clean := by
  intro m hm
  have hm : m.pfx ∈ t.mounts.map (·.pfx) := mem_map_of_mem hm
  rw [h] at hm
  obtain ⟨m', hm', e⟩ := mem_map.mp hm
  rw [← e]
  exact hs m' hm'

section Moves

open Fallible

/-- The routine leaves the mounts at their paths. -/
abbrev Stays {α : Type} (m : Routine W H α) : Prop := Moves SamePoints m

variable {α : Type}

theorem stays_bind {β : Type} {m : Routine W H α} {f : α → Routine W H β} (hm : Stays m)
    (hf : ∀ a, Stays (f a)) :
    Stays (m >>= f) := moves_bind (fun h1 h2 => h1.trans h2) hm hf

theorem stays_pure (a : α) : Stays (pure a : Routine W H α) := moves_pure SamePoints.refl a

theorem stays_fail (e : Str) : Stays (fail e : Routine W H α) := moves_fail SamePoints.refl e

theorem stays_get : Stays (get : Routine W H (Space W H)) := moves_get SamePoints.refl

theorem stays_onWorld (m : Fallible Str W α) : Stays (onWorld m : Routine W H α) := fun _ => rfl

theorem stays_rootof (m : Mount H) : Stays (rootof D m) := by
  unfold rootof
  cases m.root with
  | some h => exact stays_pure _
  | none =>
    refine stays_bind (stays_onWorld _) fun h => stays_bind (moves_modify fun s => ?_) fun _ =>
      stays_pure _
    unfold SamePoints
    rw [map_map]
    refine map_congr_left fun e _ => ?_
    dsimp only [Function.comp_apply]
    split <;> rfl

theorem stays_resolve (m : Mount H) (names : List Str) : Stays (resolve D m names) := by
  refine moves_ite (fun _ => stays_onWorld _) fun _ => ?_
  exact stays_bind (stays_rootof m) fun _ => stays_onWorld _

theorem stays_tryAll (names : List Str) (path : Str) (group : List (Mount H)) (last : Str) :
    Stays (tryAll D names path group last) := by
  induction group generalizing last with
  | nil => exact stays_fail _
  | cons m group ih =>
    refine stays_bind (moves_attempt (stays_resolve m names)) fun r => ?_
    cases r with
    | ok h => exact stays_pure _
    | error e => exact ih e

theorem stays_walk (p : Str) : Stays (walk D p) := by
  refine stays_bind (stays_get) fun s => ?_
  cases s.lookup (clean p) with
  | none => exact stays_fail _
  | some r => exact stays_tryAll _ _ _ _

theorem stays_closing {c : Chan H} {m : Routine W H α} (hm : Stays m) : Stays (closing D c m) :=
  fun s => (hm s).trans (stays_onWorld _ _)

theorem stays_open (p mode : Str) : Stays (open' D p mode) :=
  stays_bind (stays_walk p) fun _ => stays_bind (stays_onWorld _) fun _ =>
    stays_pure _

theorem stays_create (p mode : Str) (isdir : Bool) : Stays (create D p mode isdir) := by
  unfold create
  split
  · exact stays_fail _
  · exact stays_bind (stays_walk _) fun _ => stays_bind (stays_onWorld _) fun _ =>
      stays_pure _

theorem stays_remove (p : Str) : Stays (remove D p) := by
  refine stays_bind (stays_walk _) fun c => moves_ite (fun _ => stays_onWorld _) fun _ => ?_
  exact stays_fail _

theorem stays_renameIn (a adir aname bdir bname : Str) :
    Stays (renameIn D a adir aname bdir bname) := by
  refine stays_bind (stays_walk _) fun da =>
    stays_closing (stays_bind (stays_walk _) fun db => stays_closing ?_)
  refine moves_ite (fun _ => stays_fail _) fun _ =>
    moves_ite (fun _ => ?_) fun _ => ?_
  · refine moves_ite (fun _ => ?_) fun _ => stays_fail _
    exact stays_bind (stays_walk _) fun c => stays_closing (stays_onWorld _)
  · exact moves_ite (fun _ => stays_onWorld _) fun _ => stays_fail _

theorem stays_rename (p q : Str) : Stays (rename D p q) := by
  unfold rename
  dsimp only
  split
  · split
    · exact stays_pure _
    split
    · exact stays_fail _
    · exact stays_renameIn _ _ _ _ _
  · exact stays_fail _

theorem stays_statWalk (p : Str) :
    Stays (walk D p >>= fun c => closing D c (ask D c.B (.stat c.h))) :=
  stays_bind (stays_walk p) fun _ => stays_closing (stays_onWorld _)

theorem stays_stat (p : Str) : Stays (stat D p) := by
  refine stays_bind (moves_attempt (stays_statWalk p)) fun r => ?_
  cases r with
  | ok st => exact stays_pure _
  | error e =>
    refine stays_bind (stays_get) fun s => ?_
    split
    · exact stays_fail _
    · exact stays_pure _

theorem stays_listing (m : Mount H) (names : List Str) : Stays (listing D m names) := by
  refine stays_bind (stays_rootof m) fun h => moves_ite (fun _ => stays_onWorld _) fun _ => ?_
  exact stays_bind (stays_onWorld _) fun _ => stays_bind (stays_onWorld _) fun _ =>
    stays_bind (stays_onWorld _) fun _ => stays_pure _

theorem stays_listAll (names : List Str) (group : List (Mount H)) (r : List Stat × Bool × Str) :
    Stays (listAll D names group r) := by
  induction group generalizing r with
  | nil => exact stays_pure _
  | cons m group ih =>
    refine stays_bind (moves_attempt (stays_listing m names)) fun x => ?_
    cases x <;> exact ih _

theorem stays_merge (p : Str) (r : List Stat × Bool × Str) : Stays (merge p r : Routine W H _) := by
  refine stays_bind (stays_get) fun s => ?_
  dsimp only
  split
  · exact stays_fail _
  · exact stays_pure _

theorem stays_readdir (p : Str) : Stays (readdir D p) := by
  refine stays_bind (stays_get) fun s => ?_
  cases s.lookup (clean p) with
  | none => exact stays_merge _ _
  | some r => exact stays_bind (stays_listAll _ _ _) fun _ => stays_merge _ _

theorem stays_onChan {f : Chan H → Routine W H Unit} (i : Nat) (hf : ∀ c, Stays (f c)) :
    Stays (onChan i f) := by
  refine stays_bind (stays_get) fun s => ?_
  cases s.chans[i]? with
  | none => exact stays_pure _
  | some c => exact hf c

end Moves

/-! ## Reachable namespaces -/

theorem mem_insertBefore : m ∈ insertBefore e l ↔ m = e ∨ m ∈ l := by
  induction l with
  | nil => exact mem_singleton.trans (by simp)
  | cons x l ih =>
    unfold insertBefore
    split
    · exact mem_cons
    · rw [mem_cons, ih, mem_cons]
      exact or_left_comm

theorem mem_insertAfter : m ∈ insertAfter e l ↔ m = e ∨ m ∈ l := by
  unfold insertAfter
  rw [mem_reverse, mem_insertBefore, mem_reverse]

theorem mem_mount {pfx sub : Str} {dev : Nat} {order : Order}
    (hm : m ∈ (mount pfx dev sub order s).2.mounts) :
    m ∈ s.mounts ∨
      m = ⟨clean pfx, if elements sub = [] then ⟨dev, [], 0⟩ else ⟨dev, elements sub, s.serial⟩, none, s.serial⟩ := by
  unfold mount at hm
  dsimp only at hm
  split at hm
  · obtain hm | hm := mem_append.mp hm
    · exact .inl (mem_of_mem_filter hm)
    · exact .inr (mem_singleton.mp hm)
  split at hm
  · obtain hm | hm := mem_append.mp hm
    · exact .inl hm
    · exact .inr (mem_singleton.mp hm)
  split at hm
  · exact (mem_insertBefore.mp hm).symm
  · exact (mem_insertAfter.mp hm).symm
  · exact .inl hm

theorem mount_rest (s : Space W H) (pfx sub : Str) (dev : Nat) (order : Order) :
    (mount pfx dev sub order s).2.world = s.world ∧ (mount pfx dev sub order s).2.chans = s.chans ∧
    (mount pfx dev sub order s).2.serial = s.serial + 1 := by
  unfold mount
  dsimp only
  split
  · exact ⟨rfl, rfl, rfl⟩
  split
  · exact ⟨rfl, rfl, rfl⟩
  split <;> exact ⟨rfl, rfl, rfl⟩

theorem stays_dropRoot (m : Mount H) : Stays (dropRoot D m) := by
  unfold dropRoot
  cases m.root with
  | none => exact stays_pure _
  | some h => exact moves_discard (moves_attempt (stays_onWorld _))

theorem stays_closeBackend (b : Ref) : Stays (closeBackend D b) := by
  refine moves_ite (fun _ => ?_) fun _ => stays_pure _
  exact moves_discard (moves_attempt (stays_onWorld _))

open Fallible in
theorem keeps_unmount (pfx : Str) : Keeps Space.Clean (unmount D pfx) := by
  have of_stays : ∀ {m : Routine W H Unit}, Stays m → Keeps Space.Clean m := fun h s => (h s).clean
  refine keeps_bind keeps_get fun s => ?_
  cases s.mounts.find? (·.pfx = clean pfx) with
  | none => exact keeps_fail _
  | some m =>
    refine keeps_bind (of_stays (stays_dropRoot m)) fun _ =>
      keeps_bind (of_stays (stays_closeBackend _)) fun _ => ?_
    exact keeps_modify fun s hs m hm => hs m (mem_of_mem_eraseP hm)

theorem Space.Clean.step {op : Op} (hs : s.Clean) : (step D s op).Clean := by
  have of_stays : ∀ {α : Type} {m : Routine W H α}, Stays m → (m s).2.Clean :=
    fun h => (h s).clean hs
  cases op with
  | mount pfx dev sub order =>
    intro m hm
    obtain hm | rfl := mem_mount hm
    · exact hs m hm
    · exact clean_clean pfx
  | unmount pfx => exact keeps_unmount pfx s hs
  | «open» p mode =>
    exact of_stays (stays_bind (stays_open p mode) fun _ => moves_modify fun _ => rfl)
  | create p mode isdir =>
    exact of_stays (stays_bind (stays_create p mode isdir) fun _ => moves_modify fun _ => rfl)
  | remove p => exact of_stays (stays_remove p)
  | rename p q => exact of_stays (stays_rename p q)
  | stat p => exact of_stays (moves_discard (stays_stat p))
  | readdir p => exact of_stays (moves_discard (stays_readdir p))
  | read i n | write i data =>
    exact of_stays
      (stays_onChan i fun c => stays_bind (stays_onWorld _) fun _ => moves_modify fun _ => rfl)
  | chanStat i | chanReaddir i =>
    exact of_stays (stays_onChan i fun c => moves_discard (stays_onWorld _))
  | close i =>
    exact of_stays (stays_onChan i fun c =>
      stays_bind (moves_attempt (stays_onWorld _)) fun _ => moves_modify fun _ => rfl)

theorem Fresh.clean (h : Fresh s) : s.Clean := by
  intro m hm
  rw [h.1] at hm
  cases hm

/-! ## Two spellings of one path -/

theorem same_walk (D : Nat → Device W H) (e : clean p = clean q) : walk D p = walk D q := by
  unfold walk
  rw [e]

/-- The namespace, over another state of the backends. -/
def Space.inWorld (s : Space W H) (w : W) : Space W H := { s with world := w }

structure SameCalls (D : Nat → Device W H) (s : Space W H) (p q : Str) : Prop where
  onOpen : ∀ mode, open' D p mode s = open' D q mode s
  onCreate : ∀ mode isdir, create D p mode isdir s = create D q mode isdir s
  onRemove : remove D p s = remove D q s
  onRename : ∀ r, rename D p r s = rename D q r s ∧ rename D r p s = rename D r q s

/-- The calls that show the mounts below a path. -/
structure SameViews (D : Nat → Device W H) (s : Space W H) (p q : Str) : Prop where
  onStat : stat D p s = stat D q s
  onReaddir : readdir D p s = readdir D q s

theorem sameCalls (D : Nat → Device W H) (s : Space W H) (e : clean p = clean q) :
    SameCalls D s p q where
  onOpen mode := by
    unfold open'
    rw [same_walk D e]
  onCreate mode isdir := by
    unfold create
    rw [e]
  onRemove := by
    unfold remove
    rw [e]
  onRename r := by
    unfold rename
    rw [e]
    exact ⟨rfl, rfl⟩

theorem merge_congr {r : List Stat × Bool × Str} (h : s.mountpoints p = s.mountpoints q) :
    merge p r s = merge q r s := by
  unfold merge
  dsimp only
  rw [bind_ok (get_apply s), bind_ok (get_apply s), h]

theorem sameViews (D : Nat → Device W H) (e : clean p = clean q)
    (h : s.mountpoints p = s.mountpoints q) :
    SameViews D s p q where
  onStat := by
    have hstays := stays_statWalk (D := D) q s
    unfold stat
    rw [same_walk D e, bind_attempt, bind_attempt]
    generalize (walk D q >>= fun c => closing D c (ask D c.B (.stat c.h))) s = r at hstays
    obtain ⟨x, t⟩ := r
    cases x with
    | ok st => rfl
    | error err =>
      have ht : t.mountpoints p = t.mountpoints q := by
        rw [hstays.mountpoints p, hstays.mountpoints q, h]
      dsimp only
      rw [bind_ok (get_apply t), bind_ok (get_apply t), ht, e]
  onReaddir := by
    unfold readdir
    rw [bind_ok (get_apply s), bind_ok (get_apply s), e]
    cases s.lookup (clean q) with
    | none => exact merge_congr h
    | some r =>
      have hstays := stays_listAll (D := D) (elements r.2) r.1 ([], false, Enonexist) s
      dsimp only
      rw [bind_apply, bind_apply]
      generalize listAll D (elements r.2) r.1 ([], false, Enonexist) s = x at hstays
      obtain ⟨x, t⟩ := x
      cases x with
      | ok out =>
        refine merge_congr ?_
        rw [hstays.mountpoints p, hstays.mountpoints q, h]
      | error err => rfl

/-! ## The mounts that a call consults -/

section

variable {α : Type} (D : Nat → Device W H)

/-- The first member of the path's group that resolves the rest of the path is taken, and `k` goes
on with its file; where no member does, that is the end of it. -/
def Via (s : Space W H) (p : Str) (k : Chan H → Routine W H α)
    (r : Except Str α × Space W H) : Prop :=
  ∃ names, (∀ m ∈ s.group (cleanParts p), cleanParts p = m.parts ++ names) ∧
    ((∃ c t, FirstOf D names (clean p) (s.group (cleanParts p)) s (.ok c, t) ∧ r = k c t) ∨
      ∃ e t, FirstOf D names (clean p) (s.group (cleanParts p)) s (.error e, t) ∧ r = (.error e, t))

theorem Space.Clean.via (hs : s.Clean) (p : Str) (k : Chan H → Routine W H α) :
    Via D s p k ((walk D p >>= k) s) := by
  obtain ⟨names, hg, hf⟩ := hs.resolved D p
  refine ⟨names, hg, ?_⟩
  rw [bind_apply]
  generalize walk D p s = r at hf ⊢
  obtain ⟨x, t⟩ := r
  cases x with
  | ok c => exact .inl ⟨c, t, hf, rfl⟩
  | error e => exact .inr ⟨e, t, hf, rfl⟩

/-- Where the calls go: to the group of the path, or of its directory, and on to the backend of the
member that was taken. A stat is that of the file found, unless there are mounts below the path. -/
structure Consulted (s : Space W H) (p : Str) : Prop where
  onOpen : ∀ mode,
    Via D s p (fun c => ask D c.B (.open c.h mode) >>= fun h => pure ⟨c.B, c.path, h, 0⟩)
    (open' D p mode s)
  onRemove : Via D s p (fun c => if (c.B.device D).remove then ask D c.B (.remove c.h)
    else fail Enotimpl) (remove D p s)
  onStat : s.mountpoints p ≠ [] ∨
    Via D s p (fun c => closing D c (ask D c.B (.stat c.h))) (stat D p s)
  onReaddir : Listed D s p
  onCreate : ∀ dir name mode isdir, splitLast (clean p) = some (dir, name) →
    Via D s (dirOf dir)
      (fun d => ask D d.B (.create d.h name mode isdir) >>= fun h => pure ⟨d.B, clean p, h, 0⟩)
      (create D p mode isdir s)
  onRename : ∀ q a x b y, splitLast (clean p) = some (a, x) → splitLast (clean q) = some (b, y) →
    clean q ≠ clean p → (clean q).take ((clean p).length + 1) ≠ clean p ++ [slash] →
      ∃ k : Chan H → Chan H → Routine W H Unit,
        Via D s (dirOf a) (fun da => closing D da (walk D (dirOf b) >>= k da)) (rename D p q s)
  /-- The same holds of the walks that a call makes after its first. -/
  onward : ∀ t q, SamePoints s t → Resolved D t q

theorem Space.Clean.consulted (hs : s.Clean) (p : Str) : Consulted D s p where
  onOpen mode := hs.via D p _
  onRemove := by
    unfold remove
    rw [same_walk D (clean_clean p)]
    exact hs.via D p _
  onStat := by
    refine or_iff_not_imp_left.mpr fun hb => ?_
    have hv := hs.via D p fun c => closing D c (ask D c.B (.stat c.h))
    have hstays := stays_statWalk (D := D) p s
    unfold stat
    rw [bind_attempt]
    generalize (walk D p >>= fun c => closing D c (ask D c.B (.stat c.h))) s = r at hstays hv ⊢
    obtain ⟨x, t⟩ := r
    cases x with
    | ok st => exact hv
    | error err =>
      have ht : t.mountpoints p = [] := (hstays.mountpoints p).trans (not_not.mp hb)
      dsimp only
      rw [bind_ok (get_apply t), if_pos ht]
      exact hv
  onReaddir := hs.listed D p
  onCreate dir name mode isdir h := by
    unfold create
    rw [h]
    exact hs.via D _ _
  onRename q a x b y ha hb hne hsub := by
    unfold rename
    simp only [ha, hb, if_neg hne, if_neg hsub]
    exact ⟨_, hs.via D _ _⟩
  onward t q h := (h.clean hs).resolved D q

end

def dead : Device W H where
  walkmany := false
  remove := false
  wstat := false
  rename := false
  close := false
  answer _ := fail Enonexist

theorem device_dead (b : Ref) (r : Req H) (w : W) :
    ((b.device fun _ => dead).answer r w) = (.error Enonexist, w) := by
  unfold Ref.device
  split
  · rfl
  · cases r <;> rfl

theorem ask_dead (b : Ref) (r : Req H) (s : Space W H) :
    ask (fun _ => dead) b r s = (.error Enonexist, s) := by
  unfold ask onWorld zoom
  rw [device_dead]

theorem resolve_dead (m : Mount H) (names : List Str) (s : Space W H) :
    ∃ e, resolve (fun _ => dead) m names s = (.error e, s) := by
  unfold resolve
  by_cases hn : names = []
  · rw [if_pos hn]
    exact ⟨_, ask_dead _ _ _⟩
  · rw [if_neg hn]
    unfold rootof
    cases m.root with
    | none => exact ⟨_, bind_error (bind_error (ask_dead _ _ _))⟩
    | some h =>
      obtain ⟨name, rest, rfl⟩ := exists_cons_of_ne_nil hn
      have hmany : (m.B.device fun _ => (dead : Device W H)).walkmany = false := by
        unfold Ref.device
        split <;> rfl
      refine ⟨walkFailed Enonexist name, ?_⟩
      rw [bind_ok (pure_apply h s)]
      have hwalk : walknames (m.B.device fun _ => dead) h (name :: rest) s.world =
          (.error (walkFailed Enonexist name), s.world) := by
        unfold walknames
        rw [if_neg hn, hmany, if_neg Bool.false_ne_true]
        unfold walkLoop
        rw [bind_attempt, device_dead]
        rfl
      unfold onWorld zoom
      rw [hwalk]

theorem walk_dead (p : Str) (s : Space W H) : ∃ e, walk (fun _ => dead) p s = (.error e, s) := by
  have hall : ∀ names path (group : List (Mount H)) last, ∃ e,
      tryAll (fun _ => dead) names path group last s = (.error e, s) := by
    intro names path group
    induction group with
    | nil => exact fun last => ⟨last, rfl⟩
    | cons m group ih =>
      intro last
      obtain ⟨e, he⟩ := resolve_dead m names s
      obtain ⟨e', he'⟩ := ih e
      refine ⟨e', ?_⟩
      unfold tryAll
      rw [bind_attempt, he]
      exact he'
  unfold walk
  rw [bind_ok (get_apply s)]
  cases s.lookup (clean p) with
  | none => exact ⟨_, rfl⟩
  | some r => exact hall _ _ _ _

/-- Where no backend answers, `stat` sees the mounts below and nothing else. -/
theorem stat_dead (p : Str) (s : Space W H) :
    if s.mountpoints p = [] then ∃ e, stat (fun _ => dead) p s = (.error e, s)
    else ∃ st, stat (fun _ => dead) p s = (.ok st, s) := by
  obtain ⟨e, he⟩ := walk_dead p s
  have hstat : stat (fun _ => dead) p s =
      (if s.mountpoints p = [] then fail e else pure ⟨lastName (clean p), true, 0, 0⟩ : Routine W H Stat) s := by
    unfold stat
    rw [bind_attempt, bind_error he]
    dsimp only
    rw [bind_ok (get_apply s)]
  rw [hstat]
  by_cases hm : s.mountpoints p = []
  · rw [if_pos hm, if_pos hm]
    exact ⟨e, rfl⟩
  · rw [if_neg hm, if_neg hm]
    exact ⟨_, rfl⟩

theorem stat_dead_iff (p : Str) (s : Space W H) :
    (∃ e, stat (fun _ => dead) p s = (.error e, s)) ↔ s.mountpoints p = [] := by
  have h := stat_dead p s
  split at h
  next hm => exact ⟨fun _ => hm, fun _ => h⟩
  next hm =>
    obtain ⟨st, h⟩ := h
    rw [h]
    refine ⟨?_, fun hn => absurd hn hm⟩
    rintro ⟨e, he⟩
    cases he

theorem Space.Clean.sameViews_iff (hs : s.Clean) (e : clean p = clean q) :
    (∀ (D : Nat → Device W H) w, SameViews D (s.inWorld w) p q) ↔ SameBelow s p q := by
  constructor
  · intro h
    have hstat : stat (fun _ => dead) p s = stat (fun _ => dead) q s :=
      (h (fun _ => dead) s.world).onStat
    have hiff : s.mountpoints p = [] ↔ s.mountpoints q = [] := by
      rw [← stat_dead_iff, hstat, stat_dead_iff]
    rw [← hs.mountpoints_eq_iff e]
    by_cases hp : Spelt p
    · by_cases hq : Spelt q
      · exact (hs.mountpoints_eq_iff e).mpr (.inl ⟨fun _ => hq, fun _ => hp⟩)
      · rw [hs.mountpoints_of_not_spelt hq] at hiff ⊢
        exact hiff.mpr rfl
    · by_cases hq : Spelt q
      · rw [hs.mountpoints_of_not_spelt hp] at hiff ⊢
        exact (hiff.mp rfl).symm
      · exact (hs.mountpoints_eq_iff e).mpr (.inl ⟨fun h => absurd h hp, fun h => absurd h hq⟩)
  · intro h D w
    exact sameViews D e ((hs.mountpoints_eq_iff e).mpr h)

/-! ## The directory of a path -/

theorem splitLast_rooted (h : Plain (Q ++ [x])) :
    splitLast (Paths.rooted slash (Q ++ [x])) = some (Paths.body slash Q, x) := by
  have hx := h x (mem_append_right _ mem_cons_self)
  have hrooted : Paths.rooted slash (Q ++ [x]) = Paths.body slash (Q ++ [x]) := by
    cases Q <;> exact Paths.rooted_cons _ _
  have hrev : (Paths.rooted slash (Q ++ [x])).reverse = x.reverse ++ slash ::
      (Paths.body slash Q).reverse := by
    rw [hrooted, Paths.body_append]
    simp [Paths.body]
  have hall : ∀ c ∈ x.reverse, decide (c ≠ slash) = true := fun c hc =>
    decide_eq_true fun e => hx.1.2 (e ▸ mem_reverse.mp hc)
  unfold splitLast
  rw [hrev, dropWhile_append_of_pos hall, dropWhile_cons_of_neg (by simp)]
  dsimp only
  rw [takeWhile_append_of_pos hall, takeWhile_cons_of_neg (by simp), append_nil, reverse_reverse,
    reverse_reverse, if_neg hx.1.1]

theorem dirOf_body (h : Plain Q) : dirOf (Paths.body slash Q) = Paths.rooted slash Q := by
  unfold dirOf
  cases Q with
  | nil => rfl
  | cons a Q =>
    have hne : Paths.body slash (a :: Q) ≠ [] := cons_ne_nil _ _
    rw [if_neg hne, Paths.rooted_cons]

/-- The directory of a clean path has the elements but the last. -/
theorem cleanParts_dir {dir name : Str} (h : splitLast (clean p) = some (dir, name)) :
    cleanParts p = cleanParts (dirOf dir) ++ [name] := by
  have hplain := plain_cleanParts p
  unfold clean at h
  obtain hp | ⟨Q, x, hp⟩ := eq_nil_or_concat (cleanParts p)
  · rw [hp] at h
    cases h
  · rw [concat_eq_append] at hp
    rw [hp] at h hplain ⊢
    have hQ : Plain Q := hplain.sublist (sublist_append_left _ _)
    rw [splitLast_rooted hplain] at h
    cases h
    rw [dirOf_body hQ, cleanParts_rooted hQ]

/-- The directory is served by the mounts that serve the path, unless there is one at the path
itself. -/
theorem group_dir_iff (hs : s.Clean) (hE : cleanParts p = E ++ [x]) :
    s.group E = s.group (cleanParts p) ↔ ∀ m ∈ s.mounts, m.pfx ≠ clean p := by
  have hat : ∀ {m : Mount H}, m ∈ s.mounts → (m.pfx ≠ clean p ↔ m.parts ≠ cleanParts p) :=
    fun {m} hm => by
    refine not_congr ⟨fun e => ?_, fun e => ?_⟩
    · exact (congrArg cleanParts e).trans (cleanParts_clean p)
    · rw [hs.pfx_eq hm, e]
      rfl
  constructor
  · intro h m hm
    refine (hat hm).mpr fun e => ?_
    have hmem : m ∈ s.group (cleanParts p) := by
      refine mem_filter.mpr ⟨hm, decide_eq_true ⟨e ▸ prefix_rfl, fun m' _ hpre => ?_⟩⟩
      rw [e]
      exact hpre.length_le
    rw [← h] at hmem
    have hle := (of_decide_eq_true (mem_filter.mp hmem).2).1.length_le
    rw [e, hE, length_append, length_singleton] at hle
    omega
  · intro h
    have hpre : ∀ m ∈ s.mounts, (m.parts <+: E ↔ m.parts <+: cleanParts p) := by
      intro m hm
      have hne := (hat hm).mp (h m hm)
      rw [hE] at hne ⊢
      rw [prefix_concat_iff]
      exact (or_iff_right hne).symm
    refine filter_congr fun m hm => decide_eq_decide.mpr ?_
    unfold Space.At
    rw [hpre m hm]
    refine and_congr_right fun _ => forall_congr' fun m' => forall_congr' fun hm' => ?_
    rw [hpre m' hm']

/-- A namespace with one mount, two names deep. -/
def hosting : Space Unit Nat :=
  step (fun _ => dead) ⟨(), [], 0, []⟩ (.mount (str "/mnt/host") 0 (str "/") .replace)

end Nlos.Ns
