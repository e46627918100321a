import Nlos.P9serve.Responder

/-!
# Reading a directory

A directory is read as its stat records, whole ones, from a byte offset on. A client reads on from
where the last reply ended, until a reply is empty. The records are made on the first read of a fid
and kept as long as the fid is, so a fid that is read again from the start may give a directory as
it was.
-/

namespace Nlos.P9serve

open Dev Ninep Fallible List

variable {W H : Type} {d : Device W H} {s t : Server W H} {f : Fid H} {ents : List Stat}
    {bs : List Str} {tag fid n : Nat}
  {offset : Int}

/-! ## The records -/

def Recorded (s : Server W H) (path : Str) (e : Stat) (b : Str) : Prop :=
  statbytes (childpath path e.name) e s = (.ok b, s)

def placed : Nat → List Str → List (Nat × Str)
  | _, [] => []
  | n, b :: bs => (n, b) :: placed (n + b.length) bs

theorem statbytes_spec (path : Str) (st : Stat) (s : Server W H) :
    ∃ b t, statbytes path st s = (.ok b, t) ∧ b ≠ [] ∧
    Later s t ∧ ∀ u, Numbers t u → statbytes path st u = (.ok b, u) := by
  obtain ⟨q, t, hq, ht, hu⟩ := qidpath_spec path s
  have made : ∀ {v w : Server W H}, qidpath path v = (.ok q, w) →
      statbytes path st v = (.ok _, w) := fun h =>
    bind_ok (bind_ok h)
  exact ⟨_, t, made hq, cons_ne_nil _ _, ht, fun u h => made (hu u h)⟩

theorem records_spec (path : Str) (n : Nat) (es : List Stat) (s : Server W H) :
    ∃ bs t, records path n es s = (.ok (placed n bs), t) ∧ Later s t ∧ ∀ u, Numbers t u →
    Forall₂ (Recorded u path) es bs := by
  induction es generalizing n s with
  | nil => exact ⟨[], s, rfl, ⟨rfl, rfl, rfl, fun _ _ h => h⟩, fun _ _ => .nil⟩
  | cons e es ih =>
    obtain ⟨b, t, hb, -, ht, hu⟩ := statbytes_spec (childpath path e.name) e s
    obtain ⟨bs, t', hbs, ht', hus⟩ := ih (n + b.length) t
    rw [records, bind_ok hb, bind_ok hbs]
    exact ⟨b :: bs, t', rfl, ht.trans ht', fun u h => .cons (hu u fun p q e => h p q (ht'.qids p q e)) (hus u h)⟩

theorem recorded_ne {path : Str} (h : Forall₂ (Recorded s path) ents bs) : ∀ b ∈ bs, b ≠ [] := by
  induction h with
  | nil => nofun
  | @cons e b _ _ hb _ ih =>
    obtain ⟨b', t, hb', hne, -⟩ := statbytes_spec (childpath path e.name) e s
    rw [show _ = _ from hb] at hb'
    cases hb'
    exact forall_mem_cons.mpr ⟨hne, ih⟩

/-- The first read of a fid keeps the records of the directory. -/
theorem dirrecs_none (fid : Nat) (hn : f.dirrecs = none)
    (he : (d.answer (.readdir f.h) s.world).1 = .ok ents) :
    ∃ bs t, dirrecs d fid f s = (.ok (placed 0 bs), t) ∧ t.msize = s.msize ∧
      t.fids fid = some { f with dirrecs := some (placed 0 bs) } ∧
      Forall₂ (Recorded t f.path) ents bs := by
  obtain ⟨bs, t, hr, ht, hu⟩ := records_spec f.path 0 ents (s.after d (.readdir f.h))
  refine ⟨bs, (setFid fid (some { f with dirrecs := some (placed 0 bs) }) t).2, ?_, ht.msize,
    Function.update_self _ _ _, hu _ fun _ _ h => h⟩
  unfold dirrecs
  rw [hn]
  exact (bind_ok (ask_eq he)).trans ((bind_ok hr).trans rfl)

/-! ## One read -/

theorem placed_append (n : Nat) (as bs : List Str) :
    placed n (as ++ bs) = placed n as ++ placed (n + as.flatten.length) bs := by
  induction as generalizing n with
  | nil => rfl
  | cons a as ih => simp [placed, ih, Nat.add_assoc]

/-- Records in front of the offset are passed over. -/
theorem gather_past {count : Int} {got : Nat} {rs : List (Nat × Str)} (hne : ∀ b ∈ bs, b ≠ [])
    (h : (n + bs.flatten.length : Nat) ≤ offset) :
    gather offset count got (placed n bs ++ rs) = gather offset count got rs := by
  induction bs generalizing n with
  | nil => rfl
  | cons b bs ih =>
    obtain ⟨hb, hbs⟩ := forall_mem_cons.mp hne
    have hpos := length_pos_iff.mpr hb
    rw [flatten_cons, length_append] at h
    show gather offset count got ((n, b) :: (placed (n + b.length) bs ++ rs)) = _
    rw [gather, if_neg (by omega)]
    exact ih hbs (by omega)

/-- Behind the offset, whole records are taken as long as they fit. -/
theorem gather_fits (bs : List Str) (count : Int) (got : Nat) (h : offset ≤ n) :
    ∃ now later, bs = now ++ later ∧ gather offset count got (placed n bs) = now.flatten := by
  induction bs generalizing n got with
  | nil => exact ⟨[], [], rfl, rfl⟩
  | cons b bs ih =>
    rw [placed, gather, if_pos h]
    split
    · exact ⟨[], b :: bs, rfl, rfl⟩
    · obtain ⟨now, later, rfl, e⟩ := ih (n := n + b.length) (got + b.length) (by omega)
      exact ⟨b :: now, later, rfl, by rw [e, flatten_cons]⟩

theorem read_dir {recs : List (Nat × Str)} (tag : Nat) (hf : s.fids fid = some f)
    (hdir : f.dir = true) (hr : dirrecs d fid f s = (.ok recs, t)) (offset : Int) (n : Nat) :
    withFid tag fid (read d tag fid offset n) s =
      (.ok (npRread tag (gather offset (if iounit s < n then iounit s else n) 0 recs)), t) := by
  unfold withFid
  rw [bind_ok (get_apply s)]
  simp only [hf]
  unfold read
  rw [bind_ok (get_apply s), bind_attempt, fetch, if_pos hdir, dirread, bind_ok hr]
  rfl

/-! ## Reading on -/

def payload (reply : Str) : Str := reply.drop 11

theorem payload_rread (tag : Nat) (b : Str) : payload (npRread tag b) = b := rfl

/-- A client reads on from where the last reply ended, until a reply is empty. -/
def readOn (d : Device W H) (tag fid : Nat) : Int → List Nat → Routine W H (List Str)
  | _, [] => pure []
  | offset, n :: counts => do
    let reply ← withFid tag fid (read d tag fid offset n)
    if payload reply = [] then return [reply]
    let rest ← readOn d tag fid (offset + (payload reply).length) counts
    return reply :: rest

/-- The replies that hold the records, in chunks, and the empty one behind them. -/
def replies (tag : Nat) (chunks : List (List Str)) : List Str :=
  (chunks.map fun c => npRread tag c.flatten) ++ [npRread tag []]

/-- The counts are enough, each for any of the records, and none is more than a reply has room for.
-/
def Enough (s : Server W H) (bs : List Str) (counts : List Nat) : Prop :=
  bs.length < counts.length ∧ ∀ n ∈ counts, (∀ b ∈ bs, b.length ≤ n) ∧ (n : Int) ≤ iounit s

theorem readOn_spec (tag : Nat) (past : List Str) {counts : List Nat} (hf : s.fids fid = some f)
    (hdir : f.dir = true)
    (hr : f.dirrecs = some (placed 0 (past ++ bs))) (hne : ∀ b ∈ past ++ bs, b ≠ [])
    (hc : Enough s bs counts) :
    ∃ chunks, chunks.flatten = bs ∧
    readOn d tag fid past.flatten.length counts s = (.ok (replies tag chunks), s) := by
  induction counts generalizing past bs with
  | nil => exact absurd hc.1 (Nat.not_lt_zero _)
  | cons n counts ih =>
    obtain ⟨hlen, hc⟩ := hc
    obtain ⟨⟨hn, hmax⟩, hc⟩ := forall_mem_cons.mp hc
    have hread :=
      read_dir tag hf hdir (show dirrecs d fid f s = (.ok _, s) by unfold dirrecs; rw [hr]; rfl)
      past.flatten.length n
    rw [if_neg (Int.not_lt.mpr hmax), placed_append, gather_past (fun b hb => hne b (mem_append_left _ hb)) (by simp)]
      at hread
    rw [readOn, bind_ok hread, payload_rread]
    cases bs with
    | nil => exact ⟨[], rfl, rfl⟩
    | cons b bs =>
      obtain ⟨now, later, rfl, e⟩ := gather_fits bs n (0 + b.length)
        (show (past.flatten.length : Int) ≤ (0 + past.flatten.length + b.length : Nat) by omega)
      have hb := hn b mem_cons_self
      have hdata : gather past.flatten.length n 0
        (placed (0 + past.flatten.length) (b :: (now ++ later))) = (b :: now).flatten := by
        rw [placed, gather, if_pos (by omega), if_neg (by omega), e, flatten_cons]
      have hsome : (b :: now).flatten ≠ [] := by
        rw [flatten_cons]
        exact append_ne_nil_of_left_ne_nil (hne b (by simp)) _
      rw [hdata, if_neg hsome]
      have hlater : Enough s later counts := by
        rw [length_cons, length_cons, length_append] at hlen
        exact ⟨by omega, fun m hm => ⟨fun c hc' => (hc m hm).1 c (by simp [hc']), (hc m hm).2⟩⟩
      obtain ⟨chunks, rfl, hrest⟩ :=
        ih (past ++ b :: now) (by simpa using hr) (by simpa using hne) hlater
      refine ⟨(b :: now) :: chunks, by simp, ?_⟩
      have hoff : ((past ++ b :: now).flatten.length : Int) = past.flatten.length +
          (b :: now).flatten.length := by simp
      rw [← hoff, bind_ok hrest]
      rfl

/-! ## A whole listing -/

structure Lists (d : Device W H) (s : Server W H) (fid : Nat) (f : Fid H)
    (ents : List Stat) : Prop where
  fid : s.fids fid = some f
  dir : f.dir = true
  ents : (d.answer (.readdir f.h) s.world).1 = .ok ents

/-- A read from the start begins with the entries there are, and reading on gives their records,
whole and each once. -/
def Whole (d : Device W H) (s : Server W H) (tag fid : Nat) (path : Str)
    (ents : List Stat) : Prop :=
  ∃ t bs, Forall₂ (Recorded t path) ents bs ∧
    (∀ n, (withFid tag fid (read d tag fid 0 n) s).2 = t) ∧
      ((t.fids fid).bind (·.dirrecs)) = some (placed 0 bs) ∧ ∀ counts, Enough s bs counts →
      ∃ chunks, chunks.flatten = bs ∧ readOn d tag fid 0 counts s = (.ok (replies tag chunks), t)

/-- The fid keeps no records, or those of the entries. -/
def Current (s : Server W H) (f : Fid H) (ents : List Stat) : Prop :=
  f.dirrecs = none ∨ ∃ bs, Forall₂ (Recorded s f.path) ents bs ∧ f.dirrecs = some (placed 0 bs)

theorem whole_of_dirrecs (h : Lists d s fid f ents)
    (hr : dirrecs d fid f s = (.ok (placed 0 bs), t))
    (hm : t.msize = s.msize) (hg : t.fids fid = some { f with dirrecs := some (placed 0 bs) })
    (hrec : Forall₂ (Recorded t f.path) ents bs) : Whole d s tag fid f.path ents := by
  refine ⟨t, bs, hrec, fun n => by rw [read_dir tag h.fid h.dir hr], by rw [hg]; rfl, fun counts hc => ?_⟩
  have hio : iounit t = iounit s := by unfold iounit; rw [hm]
  have hc' : Enough t bs counts := by unfold Enough; rw [hio]; exact hc
  obtain ⟨chunks, he, ht⟩ := readOn_spec (d := d) tag [] hg h.dir rfl (recorded_ne hrec) hc'
  refine ⟨chunks, he, Eq.trans ?_ ht⟩
  -- the first read comes to the same from either state
  match counts with
  | [] => exact absurd hc.1 (Nat.not_lt_zero _)
  | n :: counts =>
    rw [readOn, bind_ok (read_dir tag h.fid h.dir hr 0 n), readOn, bind_ok (read_dir tag hg h.dir rfl _ n), hio]
    rfl

theorem listing_whole_iff (d : Device W H) (s : Server W H) (tag fid : Nat) :
    (∀ f ents, Lists d s fid f ents → Whole d s tag fid f.path ents) ↔
      ∀ f ents, Lists d s fid f ents → Current s f ents := by
  refine forall_congr' fun f => forall_congr' fun ents => forall_congr' fun h => ?_
  cases hr : f.dirrecs with
  | none =>
    obtain ⟨bs, t, h1, hm, hg, hrec⟩ := dirrecs_none fid hr h.ents
    exact iff_of_true (whole_of_dirrecs h h1 hm hg hrec) (.inl hr)
  | some recs =>
    have hkept : dirrecs d fid f s = (.ok recs, s) := by
      unfold dirrecs
      rw [hr]
      rfl
    constructor
    · rintro ⟨t, bs, hrec, ht, hk, -⟩
      have e : t = s := (ht 0).symm.trans (by rw [read_dir tag h.fid h.dir hkept])
      rw [e] at hrec hk
      exact .inr ⟨bs, hrec, by rw [h.fid] at hk; exact hk⟩
    · rintro (hn | ⟨bs, hrec, e⟩)
      · rw [hr] at hn
        cases hn
      · obtain rfl := Option.some.inj (hr.symm.trans e)
        exact whole_of_dirrecs h hkept rfl (by rw [h.fid, ← e]) hrec

/-- A directory with one entry more each time it is looked at. -/
def growing : Device Nat Nat := ⟨false, false, false, false, false, fun
  | .readdir _ => fun n => (.ok (replicate n ⟨str "x", false, 0, 0⟩), n + 1)
  | _ => fun n => (.error Eperm, n)⟩

/-- A fid of the directory is read while it is empty. By now it has an entry, and the fid does not
give its record. -/
theorem second_listing : let s : Server Nat Nat :=
  ⟨0, MSIZE, Function.update (fun _ => none) 0 (some ⟨0, str "/", true, true, none⟩), [], 0⟩
    let t := (withFid 1 0 (read growing 1 0 0 100) s).2
    Lists growing t 0 ⟨0, str "/", true, true, some []⟩ [⟨str "x", false, 0, 0⟩] ∧
      ¬Whole growing t 1 0 (str "/") [⟨str "x", false, 0, 0⟩] := by
  refine ⟨⟨rfl, rfl, rfl⟩, ?_⟩
  rintro ⟨u, bs, hrec, hu, hk, -⟩
  rw [← hu 0] at hk
  have e : some [] = some (placed 0 bs) := hk
  cases hrec with
  | cons _ _ => cases e

end Nlos.P9serve
