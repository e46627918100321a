import Nlos.Lib.Runs
import Nlos.Ninep.RoundTrip
import Nlos.P9serve.Listing

/-!
# Every request has an answer

A request that the loop passes on ought to be answered, with its own tag, by a reply of its type or
an Rerror that is no longer than the negotiated size. `respond` raises instead where the message
cannot be decoded, and where `attach` raises after a rename; a Tversion cannot take the size up
again; and nothing keeps a reply short whose length the backend or the client chooses: the text of
an error, the name in a stat, the data of a read, a walk of many names, or any reply at all where
the client has proposed a few bytes.
-/

namespace Nlos.P9serve

open Dev Ninep Readers List Fallible Bytes

variable {W H : Type}

/-! ## What is asked -/

/-- A backend whose texts and names are at most `room` bytes, that reads no more than it is asked
for, and counts what it wrote in 32 bits. -/
structure Modest (d : Device W H) (room : Nat) : Prop where
  error : ∀ {r w e}, (d.answer r w).1 = .error e → e.length ≤ room
  name : ∀ {h w st}, (d.answer (.stat h) w).1 = .ok st → st.name.length ≤ room
  read : ∀ {h off n w data}, 0 ≤ n → (d.answer (.read h off n) w).1 = .ok data →
    (data.length : Int) ≤ n
  write : ∀ {h off data w n}, (d.answer (.write h off data) w).1 = .ok n → 0 ≤ n ∧ n < 2 ^ 32

/-- A request whose reply has room: a Tversion leaves 76 bytes more than the backend's texts take,
and does not take the size up again; a walk has a qid's room for each name, a clone has room for the
names of its path; and `attach` does not raise after a rename. -/
def FitsMsg (d : Device W H) (room : Nat) (s : Server W H) (m : Msg) : Prop :=
  match Kind.ofCode m.type, m.body with
  | some .Tversion, .version msize _ => room + 76 ≤ msize ∧ (s.msize = MSIZE ∨ msize ≤ s.msize)
  | some .Twalk, .walk fid _ wname => 9 + 13 * wname.length ≤ s.msize ∧
      (wname = [] → ∀ f, s.fids fid = some f → ∀ name ∈ elements f.path, name.length + room + 13 ≤ s.msize)
  | some .Twstat, .wstat fid sb =>
    ∀ f, s.fids fid = some f → f.isOpen = false → ∀ st, npUnpackstat sb = some st →
      (∃ u, (d.answer (.wstat f.h st.name) s.world).1 = .ok u) →
      ∃ h, (d.answer .attach (d.answer (.wstat f.h st.name) s.world).2).1 = .ok h
  | _, _ => True

/-- The message can be decoded, and its reply has room. -/
def Fits (d : Device W H) (room : Nat) (s : Server W H) (msg : Str) : Prop :=
  ∃ m, npDecode msg = some m ∧ FitsMsg d room s m

def tagOf (b : Str) : Nat := ofLe ((b.drop 5).take 2)

/-- A reply of the request's type, or an Rerror, with the request's tag and no longer than `msize`.
-/
structure Legal (typ tag msize : Nat) (reply : Str) : Prop where
  type : typeOf reply = typ + 1 ∨ typeOf reply = Kind.Rerror.code
  tag : tagOf reply = tag
  fits : reply.length ≤ msize

/-! ## Replies -/

variable {k : Kind} {b e x path msg : Str} {dir : Bool} {n offset : Int} {wname : List Str}
  {m : Msg}

theorem tagOf_framed {tag : Nat} (h : tag < 2 ^ 16) : tagOf (framed k tag b) = tag := by
  unfold tagOf framed
  have hsplit : ∀ x y z w : Str, x ++ (y ++ (z ++ w)) = (x ++ y) ++ (z ++ w) := fun x y z w => by
    simp only [append_assoc]
  rw [hsplit, drop_left' (by simp), take_left' (length_le 2 _), ofLe_le_of_lt h]

/-- A frame that can be built and is short enough is a legal answer. -/
theorem legal_framed {typ tag msize : Nat} (hk : k.code = typ + 1 ∨ k = .Rerror)
    (ht : tag < 2 ^ 16) (hb : 7 + b.length ≤ msize) : Legal typ tag msize (framed k tag b) := by
  refine ⟨?_, tagOf_framed ht, ?_⟩
  · rw [typeOf_framed]
    exact hk.imp_right fun e => congrArg Kind.code e
  · rw [length_framed]
    exact hb

def Answers (typ tag : Nat) (s : Server W H) (m : Routine W H Str) : Prop :=
  ∃ reply t, m s = (.ok reply, t) ∧ t.msize = s.msize ∧ Legal typ tag s.msize reply

variable {typ tag room : Nat} {s t : Server W H} {d : Device W H}

theorem answers_give {w : Option Str} (hw : w = some b) (hk : k.code = typ + 1 ∨ k = .Rerror)
    (ht : tag < 2 ^ 16) (hb : 7 + b.length ≤ s.msize) (hm : s.msize ≤ MSIZE) :
    Answers typ tag s (give (frame k tag w)) := by
  have hf : frame k tag w = some (framed k tag b) :=
    frame_eq_some.mpr ⟨b, hw, Nat.lt_of_le_of_lt (Nat.le_trans hb hm) (by decide), ht, rfl⟩
  rw [hf]
  exact ⟨_, s, rfl, rfl, legal_framed hk ht hb⟩

theorem answers_rerror (ht : tag < 2 ^ 16) (he : 9 + e.length ≤ s.msize) (hm : s.msize ≤ MSIZE) :
    Answers typ tag s (give (rerror tag e)) := by
  have hlen : e.length < 2 ^ 16 := by
    have : MSIZE = 8192 := rfl
    omega
  refine answers_give (puts_eq hlen) (.inr rfl) ht ?_ hm
  rw [length_wrstr]
  unfold fieldlen
  omega

theorem length_position (h : position e = some x) : x.length ≤ e.length := by
  cases e with
  | nil => cases h
  | cons c cs =>
    unfold position at h
    dsimp only at h
    split at h
    next a b rest hd =>
      split at h
      · cases h
        have hl := congrArg List.length hd
        rw [length_drop, length_cons, length_cons] at hl
        rw [length_cons]
        omega
      · cases h
    · cases h

theorem length_afterPosition (h : afterPosition e = some x) : x.length ≤ e.length := by
  induction e with
  | nil => cases h
  | cons c cs ih =>
    unfold afterPosition at h
    match hp : position (c :: cs), h with
    | some y, rfl => exact length_position hp
    | none, h => exact Nat.le_succ_of_le (ih h)

/-- Without its position an error is no longer. -/
theorem length_bare (e : Str) : (bare e).length ≤ e.length := by
  unfold bare
  cases h : afterPosition e with
  | none => exact Nat.le_refl _
  | some x => exact length_afterPosition h

theorem answers_err (ht : tag < 2 ^ 16) (he : 9 + e.length ≤ s.msize) (hm : s.msize ≤ MSIZE) :
    Answers typ tag s (err tag e) :=
  answers_rerror ht (Nat.le_trans (Nat.add_le_add_left (length_bare e) 9) he) hm

theorem GoodQid.put {q : QidArg} (h : GoodQid q) : putqid q = some (wrqid q) := by
  have hv : q.vers.getD 0 < 256 ^ 4 := by
    rw [h.vers]
    decide
  unfold putqid wrqid
  rw [putNum_eq h.type, putNum_eq hv, putWord_eq, packed_cons_some, packed_cons_some, packed_one]
  rfl

theorem length_wrqid (q : QidArg) : (wrqid q).length = 13 := by
  unfold wrqid
  simp only [length_append, length_le]

theorem answers_rwalk {qids : List QidArg} (hq : ∀ q ∈ qids, GoodQid q) (ht : tag < 2 ^ 16)
    (hl : 9 + 13 * qids.length ≤ s.msize) (hm : s.msize ≤ MSIZE) :
    Answers Kind.Twalk.code tag s (give (rwalk tag qids)) := by
  have hn : qids.length < 256 ^ 2 := by
    have : MSIZE = 8192 := rfl
    omega
  have hlen : (qids.flatMap wrqid).length = 13 * qids.length := by
    rw [length_flatMap, map_congr_left fun q _ => length_wrqid q, map_const', sum_replicate_nat]
    exact Nat.mul_comm _ _
  have hb : packed (putNum 2 qids.length :: qids.map putqid) =
      some (le 2 qids.length ++ qids.flatMap wrqid) := by
    rw [putNum_eq hn, packed_cons_some, packed_map fun q h => (hq q h).put]
    rfl
  refine answers_give hb (.inl rfl) ht ?_ hm
  rw [length_append, length_le, hlen]
  omega

/-! ## Requests -/

/-- The size leaves room for what the backend says. -/
structure Roomy (room : Nat) (s : Server W H) : Prop where
  low : room + 76 ≤ s.msize
  high : s.msize ≤ MSIZE

theorem Roomy.of_eq (hs : Roomy room s) (e : t.msize = s.msize) : Roomy room t :=
  ⟨e ▸ hs.low, e ▸ hs.high⟩

theorem Answers.of_ok {α : Type} {m : Routine W H α} {f : α → Routine W H Str} {a : α}
    (hm : m s = (.ok a, t))
    (ht : t.msize = s.msize) (h : Answers typ tag t (f a)) : Answers typ tag s (m >>= f) := by
  obtain ⟨reply, u, hu, hsize, hlegal⟩ := h
  refine ⟨reply, u, ?_, hsize.trans ht, ht ▸ hlegal⟩
  rw [bind_ok hm]
  exact hu

variable {r : Req H} {fid mode newfid : Nat} {w : W} {h : H} {f : Fid H}

/-- A call that is caught: both ways are answered. -/
theorem answers_attempt {α : Type} {m : Routine W H α} {f : Except Str α → Routine W H Str}
    (hm : (m s).2.msize = s.msize)
    (hok : ∀ a, (m s).1 = .ok a → Answers typ tag (m s).2 (f (.ok a)))
    (herr : ∀ e, (m s).1 = .error e → Answers typ tag (m s).2 (f (.error e))) :
    Answers typ tag s (attempt m >>= f) := by
  refine Answers.of_ok (m := attempt m) rfl hm ?_
  cases hv : (m s).1 with
  | ok a => exact hok a hv
  | error e => exact herr e hv

theorem answers_setFid {g : Option (Fid H)} {m : Routine W H Str}
    (h : Answers typ tag (setFid fid g s).2 m) : Answers typ tag s (setFid fid g >>= fun _ => m) :=
  h

theorem answers_qidof {f : QidArg → Routine W H Str}
    (h : ∀ q t, t.world = s.world → t.msize = s.msize → GoodQid q → Answers typ tag t (f q)) :
    Answers typ tag s (qidof path dir >>= f) := by
  obtain ⟨q, t, hq, ⟨hw, hm, -⟩, hgood⟩ := qidof_spec path dir s
  exact Answers.of_ok hq hm (h q t hw hm hgood)

theorem unsigned_lt (h0 : 0 ≤ n) (h32 : n < 2 ^ 32) : unsigned n < 256 ^ 4 := by
  unfold unsigned
  omega

/-- The steps of a walk do not fail: they give a qid for each name that was found. -/
theorem steps_spec (d : Device W H) (cur : H) (path : Str) (dir : Bool) (names : List Str)
    (s : Server W H) :
    ∃ r t, steps d cur path dir names s = (.ok r, t) ∧ t.msize = s.msize ∧
    r.1.length ≤ names.length ∧ ∀ q ∈ r.1, GoodQid q := by
  induction names generalizing cur path dir s with
  | nil => exact ⟨_, s, rfl, rfl, Nat.le_refl _, nofun⟩
  | cons name names ih =>
    rw [steps, bind_ask]
    cases (d.answer (.walk cur name) s.world).1 with
    | error e => exact ⟨_, _, rfl, rfl, Nat.zero_le _, nofun⟩
    | ok nh =>
      dsimp only
      rw [bind_ask]
      cases (d.answer (.stat nh) (s.after d (.walk cur name)).world).1 with
      | error e => exact ⟨_, _, rfl, rfl, Nat.zero_le _, nofun⟩
      | ok st =>
        dsimp only
        obtain ⟨q, t, hq, ⟨-, hm, -⟩, hgood⟩ := qidof_spec (childpath path name) st.dir
          ((s.after d (.walk cur name)).after d (.stat nh))
        obtain ⟨r, u, hr, hm', hl, hall⟩ := ih nh (childpath path name) st.dir t
        rw [bind_ok hq, bind_ok hr]
        refine ⟨_, u, rfl, hm'.trans hm, Nat.succ_le_succ hl, fun x hx => ?_⟩
        rcases mem_cons.mp hx with rfl | hx
        · exact hgood
        · exact hall x hx

theorem error_walknames (hd : Modest d room) {names : List Str} {w' : W} {n : Nat}
    (hn : ∀ name ∈ names, name.length ≤ n) (he : walknames d h names w = (.error e, w')) :
    e.length ≤ room + n + 4 := by
  have loop : ∀ {names : List Str} {h : H} {w : W}, (∀ name ∈ names, name.length ≤ n) →
      walkLoop d h names w = (.error e, w') → e.length ≤ room + n + 4 := by
    intro names
    induction names with
    | nil => exact fun _ he => nomatch he
    | cons name names ih =>
      intro h w hn he
      rw [walkLoop, bind_attempt] at he
      match hv : (d.answer (.walk h name) w).1, he with
      | .error why, rfl =>
        have h1 := hd.error hv
        have h2 := hn name mem_cons_self
        have h3 : (printed why).length ≤ why.length := (takeWhile_sublist _).length_le
        have h4 : (printed name).length ≤ name.length := (takeWhile_sublist _).length_le
        unfold walkFailed
        simp only [length_append]
        show (printed why).length + 3 + (printed name).length + 1 ≤ _
        omega
      | .ok nh, he => exact ih (fun x hx => hn x (mem_cons_of_mem _ hx)) he
  unfold walknames at he
  split at he
  · cases he
  split at he
  · have := hd.error (by rw [he])
    omega
  · exact loop hn he

theorem length_gather {count : Int} {got : Nat} {rs : List (Nat × Str)} (h : (got : Int) ≤ count) :
    ((got + (gather offset count got rs).length : Nat) : Int) ≤ count := by
  induction rs generalizing got with
  | nil => exact h
  | cons r rs ih =>
    unfold gather
    split
    · split
      · exact h
      · rw [length_append, ← Nat.add_assoc]
        exact ih (by omega)
    · exact ih h

/-- Data of at most `n` bytes, or an error of at most `room`. -/
def Bounded (n : Int) (room : Nat) : Except Str Str → Prop
  | .ok data => (data.length : Int) ≤ n
  | .error e => e.length ≤ room

/-- What is read is what was asked for, or what the backend raised. -/
theorem fetch_spec (hd : Modest d room) (fid : Nat) (f : Fid H) (offset : Int) (hn : 0 ≤ n)
    (s : Server W H) :
    (fetch d fid f offset n s).2.msize = s.msize ∧ Bounded n room (fetch d fid f offset n s).1 := by
  have gathered : ∀ recs, Bounded n room (.ok (gather offset n 0 recs)) := fun recs => by
    have h : ((0 + (gather offset n 0 recs).length : Nat) : Int) ≤ n := length_gather hn
    rwa [Nat.zero_add] at h
  unfold fetch
  cases f.dir with
  | false =>
    refine ⟨rfl, ?_⟩
    show Bounded n room (d.answer (.read f.h offset n) s.world).1
    cases hv : (d.answer (.read f.h offset n) s.world).1 with
    | ok data => exact hd.read hn hv
    | error e => exact hd.error hv
  | true =>
    show (dirread d fid f offset n s).2.msize = s.msize ∧
      Bounded n room (dirread d fid f offset n s).1
    unfold dirread
    cases hf : f.dirrecs with
    | some recs =>
      unfold dirrecs
      rw [hf]
      exact ⟨rfl, gathered recs⟩
    | none =>
      cases hv : (d.answer (.readdir f.h) s.world).1 with
      | error e =>
        unfold dirrecs
        rw [hf, bind_error (bind_error (ask_eq hv))]
        exact ⟨rfl, hd.error hv⟩
      | ok ents =>
        obtain ⟨bs, t, hr, hm, -⟩ := dirrecs_none fid hf hv
        rw [bind_ok hr]
        exact ⟨hm, gathered _⟩

theorem length_npPackstat (st : StatArg) : (npPackstat st).length = 2 + st.recordLength := by
  rw [npPackstat_eq, length_append, length_le, length_npStatBody]

section

variable (hs : Roomy room s) (ht : tag < 2 ^ 16)

include hs ht

/-- A call of the backend whose error is passed on: it fits an Rerror. -/
theorem answers_ask (hd : Modest d room)
    {f : Except Str r.Ans → Routine W H Str} (hf : ∀ e, f (.error e) = err tag e)
    (h : ∀ a, (d.answer r s.world).1 = .ok a → Answers typ tag (s.after d r) (f (.ok a))) :
    Answers typ tag s (attempt (ask d r) >>= f) := by
  refine answers_attempt rfl h fun e he => ?_
  have := hd.error he
  have := hs.low
  rw [hf]
  exact answers_err ht (show _ ≤ s.msize by omega) hs.high

theorem answers_attach (hd : Modest d room) :
    Answers Kind.Tattach.code tag s (attach d tag fid) := by
  refine answers_ask hs ht hd (fun _ => rfl) fun a _ => ?_
  refine answers_ask (hs.of_eq (t := s.after d .attach) rfl) ht hd (fun _ => rfl) fun st _ => ?_
  refine answers_setFid
    (answers_qidof fun q t _ hm hq => answers_give hq.put (.inl rfl) ht ?_ (hm ▸ hs.high))
  have := hs.low
  rw [length_wrqid, hm]
  show 20 ≤ s.msize
  omega

theorem answers_opened (hk : k.code = typ + 1) :
    Answers typ tag s
      (opened d
        (fun tag q n => frame k tag (packed [putqid q, putNum 4 (n.getD 0)])) tag path h dir) := by
  refine Answers.of_ok
    (m := attempt (ask d (.stat h))) rfl rfl (answers_qidof fun q t _ hm hq => ?_)
  have hm' : t.msize = s.msize := hm
  have hlow := hs.low
  have hhigh := hs.high
  have hio : unsigned (iounit t) < 256 ^ 4 := by
    have : MSIZE = 8192 := rfl
    refine unsigned_lt ?_ ?_ <;> unfold iounit <;> omega
  have hb : packed [putqid q, putNum 4 (unsigned (iounit t))] =
      some (wrqid q ++ le 4 (unsigned (iounit t))) := by
    rw [hq.put, putNum_eq hio, packed_cons_some, packed_one]
    rfl
  refine Answers.of_ok (get_apply t) rfl (answers_give hb (.inl hk) ht ?_ (hm' ▸ hhigh))
  rw [length_append, length_wrqid, length_le]
  omega

theorem answers_open (hd : Modest d room) :
    Answers Kind.Topen.code tag s (open' d tag fid mode f) :=
  answers_ask hs ht hd (fun _ => rfl) fun _ _ =>
    answers_setFid (answers_opened (hs.of_eq rfl) ht rfl)

theorem answers_create {perm : Nat} {name : Str} (hd : Modest d room) :
    Answers Kind.Tcreate.code tag s (create d tag fid name perm mode f) :=
  answers_ask hs ht hd (fun _ => rfl) fun _ _ =>
    Answers.of_ok (m := attempt (ask d (.clunk f.h))) rfl rfl
    (answers_setFid (answers_opened (hs.of_eq rfl) ht rfl))

theorem answers_walkOn (hl : 9 + 13 * wname.length ≤ s.msize) :
    Answers Kind.Twalk.code tag s (walkOn d tag newfid wname f) := by
  obtain ⟨r, t, hr, hm, hlen, hq⟩ := steps_spec d f.h f.path f.dir wname s
  refine Answers.of_ok hr hm ?_
  have hhigh : t.msize ≤ MSIZE := hm ▸ hs.high
  have hlow := hs.low
  have hfit : 9 + 13 * r.1.length ≤ t.msize := by omega
  split
  · split
    · exact answers_rerror ht (by show 9 + 19 ≤ t.msize; omega) hhigh
    · exact answers_rwalk hq ht hfit hhigh
  · exact answers_setFid (answers_rwalk hq ht hfit hhigh)

theorem answers_clone (hd : Modest d room)
    (hn : ∀ name ∈ elements f.path, name.length + room + 13 ≤ s.msize) :
    Answers Kind.Twalk.code tag s (clone d tag newfid f) := by
  have hlow := hs.low
  refine answers_attempt rfl (fun nh _ => answers_setFid (answers_rwalk nofun ht ?_ hs.high))
    fun e he =>
    answers_err ht ?_ hs.high
  · show 9 ≤ s.msize
    omega
  · show 9 + e.length ≤ s.msize
    rcases (bind_eq_error (m := d.answer .attach)).mp (Prod.ext he rfl) with h1 | ⟨a, w', -, h2⟩
    · have := hd.error (by rw [h1])
      omega
    · have :=
        error_walknames hd (n := s.msize - room - 13) (fun name h => by have := hn name h; omega) h2
      omega

theorem answers_walk (hd : Modest d room) (hl : 9 + 13 * wname.length ≤ s.msize)
    (hn : wname = [] → ∀ name ∈ elements f.path, name.length + room + 13 ≤ s.msize) :
    Answers Kind.Twalk.code tag s (walk d tag newfid wname f) := by
  unfold walk
  split
  next hw => exact answers_clone hs ht hd (hn hw)
  · exact answers_walkOn hs ht hl

theorem answers_read {count : Nat} (hd : Modest d room) :
    Answers Kind.Tread.code tag s (read d tag fid offset count f) := by
  have hlow := hs.low
  have hn : (0 : Int) ≤ if iounit s < count then iounit s else count := by
    unfold iounit
    split <;> omega
  obtain ⟨hm, hv⟩ := fetch_spec hd fid f offset hn s
  have hcount : (if iounit s < count then iounit s else (count : Int)) ≤ s.msize - 24 := by
    unfold iounit
    split <;> omega
  refine Answers.of_ok (get_apply s) rfl (answers_attempt hm (fun data hdata => ?_) fun e he => ?_)
  · rw [hdata] at hv
    have hlen : (data.length : Int) ≤ s.msize - 24 := Int.le_trans hv hcount
    have hf : npRread tag data = framed .Rread tag (le 4 data.length ++ data) := by
      unfold npRread framed
      rw [length_append, length_le, Nat.add_assoc]
    refine ⟨_, _, rfl, rfl, ?_⟩
    rw [hf]
    refine legal_framed (.inl rfl) ht ?_
    rw [length_append, length_le, hm]
    omega
  · rw [he] at hv
    have hroom : e.length ≤ room := hv
    exact answers_err ht (by rw [hm]; omega) (hm ▸ hs.high)

theorem answers_write {data : Str} (hd : Modest d room) :
    Answers Kind.Twrite.code tag s (write d tag offset data f) := by
  refine answers_ask hs ht hd (fun _ => rfl) fun n hv => ?_
  obtain ⟨h0, h32⟩ := hd.write hv
  refine answers_give (putNum_eq (unsigned_lt h0 h32)) (.inl rfl) ht ?_ hs.high
  have := hs.low
  show 11 ≤ s.msize
  omega

theorem answers_empty (hk : k.code = typ + 1) :
    Answers typ tag s (give (frame k tag (packed []))) := by
  have := hs.low
  exact answers_give rfl (.inl hk) ht (by show 7 ≤ s.msize; omega) hs.high

theorem answers_clunk : Answers Kind.Tclunk.code tag s (clunk d tag fid) := by
  have done : ∀ {t : Server W H}, t.msize = s.msize →
      Answers Kind.Tclunk.code tag t (give (rclunk tag)) := fun e =>
    answers_empty (hs.of_eq e) ht rfl
  refine Answers.of_ok (get_apply s) rfl (answers_setFid ?_)
  split
  · exact done rfl
  · exact answers_attempt rfl (fun _ _ => done rfl) fun _ _ => done rfl

theorem answers_stat (hd : Modest d room) : Answers Kind.Tstat.code tag s (stat d tag f) := by
  refine answers_ask hs ht hd (fun _ => rfl) fun st hv => ?_
  have hname := hd.name hv
  have hlow := hs.low
  have hhigh := hs.high
  obtain ⟨q, t, hq, ⟨-, hm, -⟩, -⟩ := qidof_spec f.path st.dir (s.after d (.stat f.h))
  obtain ⟨b, hb, hlen⟩ : ∃ b, statbytes f.path st (s.after d (.stat f.h)) = (.ok b, t) ∧
      b.length = 67 + st.name.length := by
    unfold statbytes
    rw [bind_ok hq]
    refine ⟨_, rfl, ?_⟩
    rw [length_npPackstat]
    show 2 + (39 + (st.name.length + 2) + 8 + 8 + 8) = _
    omega
  have hm' : t.msize = s.msize := hm
  have hn : b.length < 256 ^ 2 := by
    have : MSIZE = 8192 := rfl
    omega
  refine Answers.of_ok hb hm ?_
  have hbody : packed [putNum 2 b.length, some b] = some (le 2 b.length ++ b) := by
    rw [putNum_eq hn, packed_cons_some, packed_one]
    rfl
  refine answers_give hbody (.inl rfl) ht ?_ (hm' ▸ hhigh)
  rw [length_append, length_le]
  omega

theorem answers_rewalk (h : ∃ h, (d.answer .attach s.world).1 = .ok h) :
    Answers Kind.Twstat.code tag s (rewalk d tag fid f) := by
  obtain ⟨root, hroot⟩ := h
  refine Answers.of_ok (ask_eq hroot) rfl (answers_attempt rfl (fun nh _ => ?_) fun e _ => ?_)
  · exact Answers.of_ok (m := attempt (ask d (.clunk f.h))) rfl rfl
      (answers_setFid (answers_empty (hs.of_eq rfl) ht rfl))
  · exact answers_empty (hs.of_eq rfl) ht rfl

theorem answers_wstat {sb : Str} (hd : Modest d room)
    (h : f.isOpen = false → ∀ st, npUnpackstat sb = some st →
      (∃ u, (d.answer (.wstat f.h st.name) s.world).1 = .ok u) →
      ∃ h, (d.answer .attach (d.answer (.wstat f.h st.name) s.world).2).1 = .ok h) :
    Answers Kind.Twstat.code tag s (wstat d tag fid sb f) := by
  have done : ∀ {t : Server W H}, t.msize = s.msize →
      Answers Kind.Twstat.code tag t (give (rwstat tag)) := fun e =>
    answers_empty (hs.of_eq e) ht rfl
  unfold wstat
  cases hst : npUnpackstat sb with
  | none => exact done rfl
  | some st =>
    dsimp only
    split
    · exact done rfl
    split
    · refine answers_ask hs ht hd (fun _ => rfl) fun u hv => answers_setFid ?_
      split
      · exact done rfl
      next hopen =>
      exact answers_rewalk (hs.of_eq rfl) ht (h (Bool.eq_false_iff.mpr hopen) st hst ⟨u, hv⟩)
    · have := hs.low
      exact answers_rerror ht (by show 9 + 15 ≤ s.msize; omega) hs.high

theorem answers_withFid {m : Fid H → Routine W H Str}
    (h : ∀ f, s.fids fid = some f → Answers typ tag s (m f)) :
    Answers typ tag s (withFid tag fid m) := by
  refine Answers.of_ok (get_apply s) rfl ?_
  have := hs.low
  split
  · exact answers_rerror ht (by show 9 + 11 ≤ s.msize; omega) hs.high
  next f hf => exact h f hf

end

/-! ## Runs -/

/-- Every request but a Tversion is answered, and the size stays. -/
theorem answers_handle (hd : Modest d room) (hs : Roomy room s) (ht : m.tag < 2 ^ 16)
    (hk : m.type ≠ Kind.Tversion.code) (h : FitsMsg d room s m) :
    Answers m.type m.tag s (handle d m) := by
  have hlow := hs.low
  have typed : ∀ {k r}, Kind.ofCode m.type = some k → Answers k.code m.tag s r →
      Answers m.type m.tag s r :=
    fun e h => Kind.code_of_ofCode e ▸ h
  unfold handle
  unfold FitsMsg at h
  split
  next hk' _ => exact absurd (Kind.code_of_ofCode hk') hk
  · exact answers_rerror ht (by show 9 + 27 ≤ s.msize; omega) hs.high
  next hk' _ => exact typed hk' (answers_attach hs ht hd)
  next hk' => exact typed hk' (answers_empty hs ht rfl)
  next hk' hb =>
    rw [hk', hb] at h
    exact typed hk'
      (answers_withFid hs ht fun f hf => answers_walk hs ht hd h.1 fun hw => h.2 hw f hf)
  next hk' _ => exact typed hk' (answers_withFid hs ht fun f _ => answers_open hs ht hd)
  next hk' _ => exact typed hk' (answers_withFid hs ht fun f _ => answers_create hs ht hd)
  next hk' _ => exact typed hk' (answers_withFid hs ht fun f _ => answers_read hs ht hd)
  next hk' _ => exact typed hk' (answers_withFid hs ht fun f _ => answers_write hs ht hd)
  next hk' _ => exact typed hk' (answers_clunk hs ht)
  next hk' _ => exact typed hk' (answers_withFid hs ht fun f _ => answers_stat hs ht hd)
  next hk' hb =>
    rw [hk', hb] at h
    exact typed hk' (answers_withFid hs ht fun f hf => answers_wstat hs ht hd (h f hf))
  · exact answers_rerror ht (by show 9 + 23 ≤ s.msize; omega) hs.high

theorem version_spec (room msize : Nat) (v : Str) (ht : tag < 2 ^ 16) (hm : s.msize ≤ MSIZE)
    (hlow : room + 76 ≤ (if msize < s.msize then msize else s.msize)) :
    ∃ reply t, version tag msize v s = (.ok reply, t) ∧
    t.msize = (if msize < s.msize then msize else s.msize) ∧
      Legal Kind.Tversion.code tag t.msize reply := by
  generalize hsize : (if msize < s.msize then msize else s.msize) = size at hlow
  have hle : size ≤ MSIZE := by
    rw [← hsize]
    split <;> omega
  have h4 : size < 256 ^ 4 := Nat.lt_of_le_of_lt hle (by decide)
  have text : ∀ x : Str, x.length ≤ 7 →
      packed [putNum 4 size, puts x] = some (le 4 size ++ wrstr x) := fun x hx => by
    rw [putNum_eq h4, puts_eq (by omega), packed_cons_some, packed_one]
    rfl
  have hx : ∀ c : Prop, ∀ _ : Decidable c, (if c then str "unknown" else VERSION).length ≤ 7 :=
    fun c _ => by
    split <;> decide
  unfold version
  rw [bind_ok (modify_apply _ s), bind_ok (get_apply _)]
  rw [hsize]
  have hans : Answers Kind.Tversion.code tag
    ({ s with fids := fun _ => none, msize := size } : Server W H)
      (give (rversion tag size (if v.take 2 ≠ str "9P" then str "unknown" else VERSION))) := by
    have h7 := hx (v.take 2 ≠ str "9P") inferInstance
    refine answers_give (text _ h7) (.inl rfl) ht ?_ hle
    rw [length_append, length_le, length_wrstr]
    show 7 + (4 + (_ + 2)) ≤ size
    omega
  obtain ⟨reply, t, hr, hts, hl⟩ := hans
  refine ⟨reply, t, hr, hts, ?_⟩
  rw [hts]
  exact hl

/-- What a message that was decoded says in its header, and the fields of a Tversion. -/
theorem npDecode_spec (h : npDecode msg = some m) : m.type = typeOf msg ∧ m.tag = tagOf msg ∧
    (m.type = Kind.Tversion.code → ∃ msize v, m.body = .version msize v) := by
  rw [npDecode_eq] at h
  rcases Nat.lt_or_ge msg.length 7 with hlt | hge
  · rw [message_none hlt] at h
    cases h
  · rw [message_eq hge] at h
    match hl : layout (Kind.ofCode (typeOf msg)) (msg.drop 7), h with
    | some x, rfl =>
      refine ⟨rfl, rfl, fun ht => ?_⟩
      rw [show typeOf msg = Kind.Tversion.code from ht, Kind.ofCode_code] at hl
      obtain ⟨y, -, hy⟩ := Option.bind_eq_some_iff.mp hl
      obtain ⟨z, -, hz⟩ := Option.bind_eq_some_iff.mp hy
      cases hz
      exact ⟨_, _, rfl⟩

theorem tagOf_lt (msg : Str) : tagOf msg < 2 ^ 16 := by
  have h := ofLe_lt ((msg.drop 5).take 2)
  have hl : ((msg.drop 5).take 2).length ≤ 2 := length_take_le ..
  exact Nat.lt_of_lt_of_le h (Nat.pow_le_pow_right (by decide) hl)

theorem respond_spec (hd : Modest d room) (hs : Roomy room s) (hf : Fits d room s msg) :
    ∃ reply t, respond d msg s = (.ok reply, t) ∧ Legal (typeOf msg) (tagOf msg) t.msize reply ∧
    Roomy room t ∧ if typeOf msg = Kind.Tversion.code then
        ∃ m proposed v, npDecode msg = some m ∧ m.body = .version proposed v ∧
        t.msize = min MSIZE proposed
      else t.msize = s.msize := by
  obtain ⟨m, hm, hfit⟩ := hf
  obtain ⟨htype, htag, hversion⟩ := npDecode_spec hm
  have ht : m.tag < 2 ^ 16 := htag ▸ tagOf_lt msg
  have hr : respond d msg s = handle d m s := by
    unfold respond
    rw [hm]
  rw [hr, ← htype, ← htag]
  split
  next hk =>
    obtain ⟨proposed, v, hb⟩ := hversion hk
    have hkind : Kind.ofCode m.type = some .Tversion := by rw [hk, Kind.ofCode_code]
    have hh : handle d m s = version m.tag proposed v s := by
      unfold handle
      rw [hkind, hb]
    unfold FitsMsg at hfit
    rw [hkind, hb] at hfit
    have hhigh := hs.high
    have hslow := hs.low
    obtain ⟨reply, t, hrep, hmsize, hlegal⟩ := version_spec room proposed v ht hs.high
      (by split <;> omega)
    have hmin : t.msize = min MSIZE proposed := by
      rw [hmsize]
      split <;> omega
    refine ⟨reply, t, hh.trans hrep, hk ▸ hlegal, ⟨?_, ?_⟩, m, proposed, v, hm, hb, hmin⟩
    · rw [hmsize]
      split <;> omega
    · rw [hmin]
      exact Nat.min_le_left ..
  next hk =>
    obtain ⟨reply, t, hrep, hmsize, hlegal⟩ := answers_handle hd hs ht hk hfit
    exact ⟨reply, t, hrep, hmsize ▸ hlegal, ⟨hmsize ▸ hs.low, hmsize ▸ hs.high⟩, hmsize⟩

/-- A request that can be decoded and whose reply has room, or the end of the connection. -/
def Allowed (d : Device W H) (room : Nat) (s : Server W H) : Op → Prop
  | .request msg => Fits d room s msg
  | .eof => True

/-- A responder before its first message, with room for what the backend says. -/
def Begun (room : Nat) (s : Server W H) : Prop := Fresh s ∧ room + 76 ≤ MSIZE

theorem roomy_of_runs (hd : Modest d room) (hr : Runs (Begun room) (Allowed d room) (step d) s) :
    Roomy room s := by
  refine hr.invariant ?_ ?_
  · rintro s ⟨hs, hroom⟩
    exact ⟨hs.1 ▸ hroom, hs.1 ▸ Nat.le_refl _⟩
  · intro s op hs hop
    cases op with
    | eof => exact ⟨hs.low, hs.high⟩
    | request msg =>
      obtain ⟨reply, t, hrep, -, ht, -⟩ := respond_spec hd hs hop
      show Roomy room (respond d msg s).2
      rw [hrep]
      exact ht

/-- Over a modest backend, in every state that requests with room lead to, a request with room gets
one reply: of its type or an Rerror, with its tag, no longer than the size. The size is the smaller
of the server's and the proposed one after a Tversion, and no other request changes it. -/
theorem answers_legal (d : Device W H) (room : Nat) (hd : Modest d room) (s : Server W H)
    (hr : Runs (Begun room) (Allowed d room) (step d) s) (msg : Str) (hf : Fits d room s msg) :
    ∃ reply t, respond d msg s = (.ok reply, t) ∧ Legal (typeOf msg) (tagOf msg) t.msize reply ∧
      if typeOf msg = Kind.Tversion.code then
        ∃ m proposed v, npDecode msg = some m ∧ m.body = .version proposed v ∧
        t.msize = min MSIZE proposed
      else t.msize = s.msize := by
  obtain ⟨reply, t, hrep, hlegal, -, hmsize⟩ := respond_spec hd (roomy_of_runs hd hr) hf
  exact ⟨reply, t, hrep, hlegal, hmsize⟩

def refusing : Device Unit Nat := ⟨false, false, false, false, false, fun _ w => (.error Eperm, w)⟩

theorem modest_refusing : Modest refusing 17 where
  error h := by
    cases h
    decide
  name h := nomatch h
  read _ h := nomatch h
  write h := nomatch h

/-- A Tversion and then an attach that is refused. -/
theorem refused_answered : ∃ reply t, respond refusing ((tattach 1 0 none none none none).getD [])
      (step refusing ⟨(), MSIZE, fun _ => none, [], 0⟩
        (.request ((tversion NOTAG 4096 none).getD []))) = (.ok reply, t) ∧
      Legal 104 1 4096 reply := by
  have hv : Fits refusing 17 ⟨(), MSIZE, fun _ => none, [], 0⟩
      ((tversion NOTAG 4096 none).getD []) :=
    ⟨⟨100, NOTAG, 19, .version 4096 VERSION⟩, by decide +kernel, by decide, .inl rfl⟩
  have hrun : Runs (Begun 17) (Allowed refusing 17) (step refusing)
      (step refusing ⟨(), MSIZE, fun _ => none, [], 0⟩ (.request ((tversion NOTAG 4096 none).getD []))) :=
    .step (.init ⟨⟨rfl, fun _ => rfl, rfl, rfl⟩, by decide⟩) hv
  obtain ⟨reply, t, h, hl, hm⟩ := answers_legal refusing 17 modest_refusing _ hrun
    ((tattach 1 0 none none none none).getD [])
      ⟨⟨104, 1, 19, .attach 0 NOFID [] []⟩, by decide +kernel, trivial⟩
  rw [hm, show typeOf ((tattach 1 0 none none none none).getD []) = 104 by decide +kernel,
    show (step refusing ⟨(), MSIZE, fun _ => none, [], 0⟩
      (.request ((tversion NOTAG 4096 none).getD []))).msize = 4096 by
      decide +kernel] at hl
  exact ⟨reply, t, h, hl⟩

/-- A Twalk of seven bytes is passed on and cannot be decoded, and a second Tversion cannot take the
size up again. -/
theorem bare_walk_raises : Passed MSIZE [7, 0, 0, 0, 110, 1, 0] ∧
    (∃ e, (respond refusing [7, 0, 0, 0, 110, 1, 0] ⟨(), MSIZE, fun _ => none, [], 0⟩).1 = .error e) ∧
    ([Op.request ((tversion NOTAG 4096 none).getD []), .request ((tversion NOTAG 8192 none).getD [])].foldl
      (step refusing) ⟨(), MSIZE, fun _ => none, [], 0⟩).msize = 4096 :=
  ⟨⟨by decide, by decide, by decide, by decide, by decide, by decide⟩, ⟨_, rfl⟩, by decide +kernel⟩

end Nlos.P9serve
