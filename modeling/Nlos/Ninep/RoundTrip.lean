import Nlos.Ninep.Agree

/-!
# What is built is read back

A `Call` is a call of one of the builders. What it builds is a frame, `Call.fields` are the fields
that the frame is to give back, and every shorter string that begins the frame is to be refused. The
C decoder does both for every call that speaks plain 9P2000: `n_uname` and `extension` belong to a
later dialect, and no decoder here looks for them.
-/

namespace Nlos.Ninep

open Readers List Bytes

/-! ## Stat records -/

def Quiet {β : Type} (m : Sticky (Option β)) : Prop := ∀ k, (m k).2.bad = true → (m k).1 = none

variable {α β : Type} {w : Option Str} {sb s f b p data : Str} {n x : Nat} {k : Kind} {v : Body}
  {offset : Word}

theorem quiet_orStop {c : Sticky α} {d : α → Sticky (Option β)}
    (h : ∀ a k, k.bad = false → (d a k).2.bad = true → (d a k).1 = none) :
    Quiet (orStop c none d) := by
  intro k hk
  unfold orStop at hk ⊢
  split
  · rfl
  next hc =>
  rw [if_neg hc] at hk
  exact h _ _ (Bool.eq_false_iff.mpr hc) hk

theorem quiet_bind {c : Sticky α} {d : α → Sticky (Option β)} (h : ∀ a, Quiet (d a)) :
    Quiet (c >>= d) :=
  fun k hk => h (c k).1 (c k).2 hk

theorem quiet_npDir : Quiet npDir := by
  have last : ∀ (x : Dir) (k : Cursor), k.bad = false →
    ((pure (some x) : Sticky (Option Dir)) k).2.bad = true →
      ((pure (some x) : Sticky (Option Dir)) k).1 = none :=
        fun x k hk h => absurd (hk.symm.trans h) nofun
  have texts : ∀ f : Str → Str → Str → Str → Dir,
    Quiet (orStop rdstr none fun a => orStop rdstr none fun b =>
      orStop rdstr none fun c => orStop rdstr none fun d => pure (some (f a b c d))) := fun f =>
    quiet_orStop fun a _ _ => quiet_orStop (fun b _ _ => quiet_orStop (fun c _ _ =>
      quiet_orStop (fun d k hk => last _ k hk) _) _) _
  refine quiet_bind fun _ => quiet_bind fun _ => quiet_orStop fun qid k _ => ?_
  exact quiet_bind
    (fun mode => quiet_bind fun atime => quiet_bind fun mtime => quiet_bind fun length =>
    texts fun name uid gid muid => ⟨qid, mode, atime, mtime, length, name, uid, gid, muid⟩) k

theorem follows_npDir : Follows npDir (do return some (← dir)) := by
  have int := follows_rdint
  have text := follows_rdstr
  have h : Follows npDir (do
      let _ ← num 2
      let _ ← num 4
      let qid ← getqid
      let mode ← num 4
      let atime ← num 4
      let mtime ← num 4
      let length ← word
      let name ← counted 2
      let uid ← counted 2
      let gid ← counted 2
      let muid ← counted 2
      return some ⟨qid, mode, atime, mtime, length, name, uid, gid, muid⟩) :=
    (int 2).bind fun _ => (int 4).bind fun _ => follows_rdqid.orStop _ fun _ =>
      (int 4).bind fun _ =>
      (int 4).bind fun _ => (int 4).bind fun _ => follows_rdword.bind fun _ =>
        text.orStop _ fun _ =>
      text.orStop _ fun _ => text.orStop _ fun _ => text.orStop _ fun _ => follows_pure _
  simpa only [dir, bind_assoc, pure_bind] using h

/-- The two take a record apart in the same way. -/
theorem unpackstat_eq (sb : Str) : unpackstat sb = npUnpackstat sb := by
  unfold unpackstat npUnpackstat
  cases hd : dir sb with
  | none => exact (quiet_npDir _ (follows_npDir.refuses (bind_none hd))).symm
  | some x =>
    rw [follows_npDir.reads (bind_some hd)]
    rfl

theorem undone_word (v : Word) : Undone (putNum 8 v.toNat) word v := by
  have h := (undone_num 8 v.toNat).map (BitVec.ofNat 64)
  rwa [BitVec.ofNat_toNat, BitVec.setWidth_eq] at h

theorem undone_putqid (q : QidArg) : Undone (putqid q) getqid q.qid :=
  (undone_num 1 _).cons ((undone_num 4 _).cons ((undone_word _).cons (undone_nil _)))

theorem undone_statBody (st : StatArg) : Undone (statBody st) dir st.dir := by
  have text := undone_counted 2
  exact (undone_num 2 _).cons ((undone_num 4 _).cons ((undone_putqid _).cons ((undone_num 4 _).cons
    ((undone_num 4 _).cons ((undone_num 4 _).cons ((undone_word _).cons ((text _).cons ((text _).cons
      ((text _).cons ((text _).cons (undone_nil _)))))))))))

theorem undone_wstatBody (st : WstatArg) : Undone (wstatBody st) dir st.dir := by
  have text := undone_counted 2
  have qid : Undone (packed [putNum 1 (st.qidType.getD 0xff), putNum 4 (st.qidVers.getD 0xffffffff),
      putNum 8 (st.qidPath.getD (-1)).toNat]) getqid st.dir.qid :=
    (undone_num 1 _).cons ((undone_num 4 _).cons ((undone_word _).cons (undone_nil _)))
  exact (undone_num 2 _).cons ((undone_num 4 _).cons (qid.cons ((undone_num 4 _).cons
    ((undone_num 4 _).cons ((undone_num 4 _).cons ((undone_word _).cons ((text _).cons ((text _).cons
      ((text _).cons ((text _).cons (undone_nil _)))))))))))

theorem unpackstat_of_undone {d : Dir} (h : Undone w dir d) (hw : w = some sb) :
    unpackstat sb = some d := by
  unfold Ninep.unpackstat
  rw [(h sb hw).self]
  rfl

/-! ## The encoders -/

structure StatArg.Within (st : StatArg) : Prop where
  type : st.qid.type < 2 ^ 8
  vers : st.qid.vers.getD 0 < 2 ^ 32
  mode : st.mode < 2 ^ 32
  atime : st.atime.getD 0 < 2 ^ 32
  mtime : st.mtime.getD 0 < 2 ^ 32
  name : st.name.length < 2 ^ 16
  uid : (st.uid.getD luaos).length < 2 ^ 16
  gid : (st.gid.getD luaos).length < 2 ^ 16
  muid : (st.muid.getD luaos).length < 2 ^ 16

theorem putNum_eq (h : x < 256 ^ n) : putNum n x = some (le n x) := if_pos h

theorem putWord_eq (v : Word) : putNum 8 v.toNat = some (le 8 v.toNat) := putNum_eq v.isLt

theorem puts_eq (h : s.length < 2 ^ 16) : puts s = some (wrstr s) := if_pos h

theorem length_wrstr (s : Str) : (wrstr s).length = fieldlen s := by
  unfold wrstr fieldlen
  rw [length_append, length_le, Nat.add_comm]

def npStatBody (st : StatArg) : Str := (npPackstat st).drop 2

theorem npPackstat_eq (st : StatArg) : npPackstat st = le 2 st.recordLength ++ npStatBody st := by
  unfold npStatBody npPackstat
  rw [drop_left' (length_le 2 _)]

theorem length_npStatBody (st : StatArg) : (npStatBody st).length = st.recordLength := by
  unfold npStatBody npPackstat StatArg.recordLength
  rw [drop_left' (length_le 2 _)]
  simp only [length_append, length_le, wrqid, length_wrstr]
  omega

variable {st : StatArg}

theorem statBody_eq (h : st.Within) : statBody st = some (npStatBody st) := by
  have hq : putqid st.qid = some (wrqid st.qid) := by
    unfold putqid wrqid
    rw [putNum_eq h.type, putNum_eq h.vers, putWord_eq, packed_cons_some, packed_cons_some, packed_one]
    rfl
  unfold statBody npStatBody npPackstat
  rw [drop_left' (length_le 2 _), hq, putNum_eq (by decide), putNum_eq (by decide),
    putNum_eq h.mode, putNum_eq h.atime, putNum_eq h.mtime, putWord_eq, puts_eq h.name,
      puts_eq h.uid, puts_eq h.gid,
    puts_eq h.muid]
  simp only [packed_cons_some, packed_nil, Option.map_some, append_nil]

/-- **Stat.** Of fields that fit their widths the two make the same record, unless it is too long
for its own size. -/
theorem packstat_eq_iff (h : st.Within) :
    packstat st = some (npPackstat st) ↔ st.recordLength < 2 ^ 16 := by
  unfold packstat sized
  rw [statBody_eq h, npPackstat_eq]
  show packed [putNum 2 (npStatBody st).length, some (npStatBody st)] = _ ↔ _
  rw [length_npStatBody]
  constructor
  · intro hp
    obtain ⟨x, y, hx, -⟩ := packed_cons_eq_some.mp hp
    exact (putNum_eq_some.mp hx).1
  · intro hlt
    rw [putNum_eq hlt, packed_cons_some, packed_one]
    rfl

/-! ## Frames -/

def framed (k : Kind) (tag : Nat) (b : Str) : Str :=
  le 4 (7 + b.length) ++ (le 1 k.code ++ (le 2 tag ++ b))

theorem length_framed (k : Kind) (tag : Nat) (b : Str) :
    (framed k tag b).length = 7 + b.length := by
  unfold framed
  simp only [length_append, length_le]
  omega

theorem frame_eq_some {tag : Nat} : frame k tag w = some f ↔
    ∃ b, w = some b ∧ 7 + b.length < 2 ^ 32 ∧ tag < 2 ^ 16 ∧ f = framed k tag b := by
  cases w with
  | none => exact ⟨nofun, fun ⟨_, h, _⟩ => nomatch h⟩
  | some b =>
    show packed [putNum 4 (7 + b.length), putNum 1 k.code, putNum 2 tag, some b] = some f ↔ _
    rw [putNum_eq k.code_lt]
    constructor
    · intro h
      obtain ⟨x, y, hx, hy, rfl⟩ := packed_cons_eq_some.mp h
      obtain ⟨x', y', hx', hy', rfl⟩ := packed_cons_eq_some.mp hy
      obtain ⟨x'', y'', hx'', hy'', rfl⟩ := packed_cons_eq_some.mp hy'
      rw [packed_one] at hy''
      obtain ⟨h4, rfl⟩ := putNum_eq_some.mp hx
      obtain ⟨h2, rfl⟩ := putNum_eq_some.mp hx''
      cases hx'
      cases hy''
      exact ⟨_, rfl, h4, h2, rfl⟩
    · rintro ⟨b', hb, h4, h2, rfl⟩
      cases hb
      rw [putNum_eq h4, putNum_eq h2, packed_cons_some, packed_cons_some, packed_cons_some, packed_one]
      rfl

theorem reads_header {size tag : Nat} (hs : size < 2 ^ 32) (ht : tag < 2 ^ 16)
    (h : Readers.Reads (layout (some k)) b v) :
    Readers.Reads (message layout) (le 4 size ++ (le 1 k.code ++ (le 2 tag ++ b)))
      ⟨k.code, tag, size, v⟩ := by
  rw [← Kind.ofCode_code k] at h
  exact (reads_num hs).bind ((reads_num k.code_lt).bind ((reads_num ht).bind (h.map _)))

theorem typeOf_framed (k : Kind) (tag : Nat) (b : Str) : typeOf (framed k tag b) = k.code := by
  unfold typeOf framed
  rw [drop_left' (length_le 4 _), take_left' (length_le 1 _), ofLe_le_of_lt k.code_lt]

theorem slice_of_beginning {i : Nat} (h : p <+: f) (hp : i + n ≤ p.length) :
    (p.drop i).take n = (f.drop i).take n := by
  obtain ⟨t, rfl⟩ := h
  rw [drop_append_of_le_length (by omega), take_append_of_le_length (by rw [length_drop]; omega)]

theorem kind_of_beginning {tag : Nat} (h : p <+: framed k tag b) (hp : 5 ≤ p.length) :
    Kind.ofCode (typeOf p) = some k := by
  have ht : typeOf p = typeOf (framed k tag b) := congrArg ofLe (slice_of_beginning h hp)
  rw [ht, typeOf_framed, Kind.ofCode_code]

/-! ## Calls of the builders -/

inductive Call where
  | rversion (tag msize : Nat) (version : Str)
  | rerror (tag : Nat) (ename : Str)
  | rattach (tag : Nat) (qid : QidArg)
  | rflush (tag : Nat)
  | rwalk (tag : Nat) (qids : List QidArg)
  | ropen (tag : Nat) (qid : QidArg) (iounit : Option Nat)
  | rcreate (tag : Nat) (qid : QidArg) (iounit : Option Nat)
  | rread (tag : Nat) (data : Str)
  | rwrite (tag count : Nat)
  | rclunk (tag : Nat)
  | rstat (tag : Nat) (st : StatArg)
  | rwstat (tag : Nat)
  | tversion (tag msize : Nat) (version : Option Str)
  | tattach (tag fid : Nat) (afid : Option Nat) (uname aname : Option Str) (nUname : Option Nat)
  | twalk (tag fid newfid : Nat) (wname : List Str)
  | topen (tag fid : Nat) (mode : Option Nat)
  | tcreate (tag fid : Nat) (name : Str) (perm : Nat) (mode : Option Nat) (extension : Option Str)
  | tread (tag fid : Nat) (offset : Word) (count : Nat)
  | twrite (tag fid : Nat) (offset : Word) (data : Str)
  | tclunk (tag fid : Nat)
  | tflush (tag oldtag : Nat)
  | tclone (tag fid newfid : Nat)
  | tstat (tag fid : Nat)
  | twstat (tag fid : Nat) (st : WstatArg)
deriving DecidableEq, Repr

namespace Call

def build : Call → Option Str
  | rversion tag msize version => Ninep.rversion tag msize version
  | rerror tag ename => Ninep.rerror tag ename
  | rattach tag qid => Ninep.rattach tag qid
  | rflush tag => Ninep.rflush tag
  | rwalk tag qids => Ninep.rwalk tag qids
  | ropen tag qid iounit => Ninep.ropen tag qid iounit
  | rcreate tag qid iounit => Ninep.rcreate tag qid iounit
  | rread tag data => Ninep.rread tag data
  | rwrite tag count => Ninep.rwrite tag count
  | rclunk tag => Ninep.rclunk tag
  | rstat tag st => packstat st >>= Ninep.rstat tag
  | rwstat tag => Ninep.rwstat tag
  | tversion tag msize version => Ninep.tversion tag msize version
  | tattach tag fid afid uname aname nUname => Ninep.tattach tag fid afid uname aname nUname
  | twalk tag fid newfid wname => Ninep.twalk tag fid newfid wname
  | topen tag fid mode => Ninep.topen tag fid mode
  | tcreate tag fid name perm mode extension => Ninep.tcreate tag fid name perm mode extension
  | tread tag fid offset count => Ninep.tread tag fid offset count
  | twrite tag fid offset data => Ninep.twrite tag fid offset data
  | tclunk tag fid => Ninep.tclunk tag fid
  | tflush tag oldtag => Ninep.tflush tag oldtag
  | tclone tag fid newfid => Ninep.tclone tag fid newfid
  | tstat tag fid => Ninep.tstat tag fid
  | twstat tag fid st => Ninep.twstat tag fid st

def npBuild : Call → Option Str
  | rread tag data => some (npRread tag data)
  | twalk tag fid newfid wname => some (npTwalk tag fid newfid wname)
  | tread tag fid offset count => some (npTread tag fid offset count)
  | twrite tag fid offset data => some (npTwrite tag fid offset data)
  | _ => none

def kind : Call → Kind
  | rversion .. => .Rversion | rerror .. => .Rerror | rattach .. => .Rattach | rflush .. => .Rflush
  | rwalk .. =>
    .Rwalk | ropen .. => .Ropen | rcreate .. => .Rcreate | rread .. => .Rread | rwrite .. => .Rwrite
  | rclunk .. => .Rclunk | rstat .. => .Rstat | rwstat .. => .Rwstat | tversion .. => .Tversion
  | tattach .. =>
    .Tattach | twalk .. => .Twalk | topen .. => .Topen | tcreate .. => .Tcreate | tread .. => .Tread
  | twrite .. =>
    .Twrite | tclunk .. => .Tclunk | tflush .. => .Tflush | tclone .. => .Twalk | tstat .. => .Tstat
  | twstat .. => .Twstat

def tag : Call → Nat
  | rversion tag .. | rerror tag .. | rattach tag .. | rflush tag | rwalk tag .. | ropen tag .. | rcreate tag ..
  | rread tag .. | rwrite tag .. | rclunk tag | rstat tag .. | rwstat tag | tversion tag .. | tattach tag ..
  | twalk tag .. | topen tag .. | tcreate tag .. | tread tag .. | twrite tag .. | tclunk tag .. | tflush tag ..
  | tclone tag .. | tstat tag .. | twstat tag .. => tag

def fields : Call → Body
  | rversion _ msize version => .version msize version
  | rerror _ ename => .ename ename
  | rattach _ qid => .qid qid.qid
  | rflush _ | rclunk _ | rwstat _ => .empty
  | rwalk _ qids => .wqid (qids.map QidArg.qid)
  | ropen _ qid iounit | rcreate _ qid iounit => .opened qid.qid (iounit.getD 0)
  | rread _ data => .data data
  | rwrite _ count => .count count
  | rstat _ st => .stat ((statBody st).getD [])
  | tversion _ msize version => .version msize (version.getD VERSION)
  | tattach _ fid afid uname aname _ =>
    .attach fid (afid.getD NOFID) (uname.getD []) (aname.getD [])
  | twalk _ fid newfid wname => .walk fid newfid wname
  | topen _ fid mode => .open fid (mode.getD 0)
  | tcreate _ fid name perm mode _ => .create fid name perm (mode.getD 0)
  | tread _ fid offset count => .read fid offset count
  | twrite _ fid offset data => .write fid offset data
  | tclunk _ fid | tstat _ fid => .fid fid
  | tflush _ oldtag => .flush oldtag
  | tclone _ fid newfid => .walk fid newfid []
  | twstat _ fid st => .wstat fid ((wstatBody st).getD [])

def extra : Call → Option (Option Str)
  | tattach _ _ _ _ _ (some u) => some (putNum 4 u)
  | tcreate _ _ _ _ _ (some e) => some (puts e)
  | _ => none

end Call

/-! ## Reading frames back -/

/-- `f` is a frame whose body begins with these fields; `x` is what comes after them. -/
structure Carries (k : Kind) (tag : Nat) (v : Body) (x f : Str) : Prop where
  split : ∃ b, f = framed k tag (b ++ x) ∧ 7 + (b ++ x).length < 2 ^ 32 ∧
    Readers.Reads (layout (some k)) b v
  tag : tag < 2 ^ 16

theorem carries_frame {tag : Nat} (h : frame k tag w = some f)
    (hu : Undone w (layout (some k)) v) : Carries k tag v [] f := by
  obtain ⟨b, hb, h4, h2, rfl⟩ := frame_eq_some.mp h
  refine ⟨⟨b, ?_, ?_, hu b hb⟩, h2⟩
  · rw [append_nil]
  · rw [append_nil]
    exact h4

theorem carries_extra {tag : Nat} {ws : List (Option Str)}
    (h : frame k tag (packed (ws ++ [w])) = some f) (hu : Undone (packed ws) (layout (some k)) v) :
    ∃ x, w = some x ∧ Carries k tag v x f := by
  obtain ⟨b, hb, h4, h2, rfl⟩ := frame_eq_some.mp h
  obtain ⟨y, x, hy, hx, rfl⟩ := packed_append_eq_some.mp hb
  obtain ⟨x', z, rfl, hz, rfl⟩ := packed_cons_eq_some.mp hx
  cases hz
  rw [append_nil] at h4 ⊢
  exact ⟨x', rfl, ⟨y, rfl, h4, hu y hy⟩, h2⟩

theorem undone_payload (data : Str) :
    Undone (packed [putNum 4 data.length, some data]) (counted 4) data := by
  intro b hb
  obtain ⟨x, y, hx, hy, rfl⟩ := packed_cons_eq_some.mp hb
  rw [packed_one] at hy
  exact (undone_num 4 _ x hx).bind (undone_bytes data y hy)

theorem undone_getstat (h : sized w = some sb) :
    Undone (packed [putNum 2 sb.length, some sb]) getstat (w.getD []) := by
  cases w with
  | none => cases h
  | some body =>
    intro b hb
    obtain ⟨x, y, hx, hy, rfl⟩ := packed_cons_eq_some.mp hb
    rw [packed_one] at hy
    obtain rfl := Option.some.inj hy
    obtain ⟨z, t, hz, ht, rfl⟩ := packed_cons_eq_some.mp h
    rw [packed_one] at ht
    exact (undone_num 2 _ x hx).bind ((undone_num 2 _ z hz).bind (undone_bytes body t ht))

namespace Call

theorem carries_rstat {tag : Nat} (h : (rstat tag st).build = some f) :
    Carries .Rstat tag (rstat tag st).fields [] f := by
  obtain ⟨sb, hsb, hf⟩ := Option.bind_eq_some_iff.mp h
  exact carries_frame hf ((undone_getstat hsb).map Body.stat)

theorem carries_twstat {tag fid : Nat} {st : WstatArg} (h : (twstat tag fid st).build = some f) :
    Carries .Twstat tag (twstat tag fid st).fields [] f := by
  obtain ⟨sb, hsb, hf⟩ := Option.bind_eq_some_iff.mp h
  exact carries_frame hf ((undone_num 4 _).cons ((undone_getstat hsb).map (Body.wstat fid)))

theorem putNum_ne_nil (h : putNum (n + 1) x = some b) : b ≠ [] := by
  obtain ⟨-, rfl⟩ := putNum_eq_some.mp h
  nofun

theorem puts_ne_nil (h : puts s = some b) : b ≠ [] := by
  obtain ⟨-, rfl⟩ := putCounted_eq_some.mp h
  nofun

theorem carries {c : Call} (h : c.build = some f) :
    ∃ x, Carries c.kind c.tag c.fields x f ∧ (x = [] ↔ c.extra = none) := by
  have int := undone_num
  have text := undone_counted 2
  have plain : ∀ {v : Body} {k : Kind} {tag : Nat}, Carries k tag v [] f →
      ∃ x, Carries k tag v x f ∧ (x = [] ↔ (none : Option (Option Str)) = none) :=
        fun hc => ⟨[], hc, by simp⟩
  cases c with
  | rversion | tversion =>
    exact plain (carries_frame h ((int 4 _).cons ((text _).cons (undone_nil _))))
  | rerror => exact plain (carries_frame h ((text _).map Body.ename))
  | rattach => exact plain (carries_frame h ((undone_putqid _).map Body.qid))
  | rwalk tag qids =>
    exact plain (carries_frame h ((int 2 _).cons ((undone_times undone_putqid qids).map Body.wqid)))
  | ropen | rcreate =>
    exact plain (carries_frame h ((undone_putqid _).cons ((int 4 _).cons (undone_nil _))))
  | rread => exact plain (carries_frame h ((undone_payload _).map Body.data))
  | rwrite => exact plain (carries_frame h ((int 4 _).map Body.count))
  | rstat => exact plain (carries_rstat h)
  | tattach tag fid afid uname aname nUname =>
    have base : Undone (packed [putNum 4 fid, putNum 4 (afid.getD NOFID), puts (uname.getD []), puts (aname.getD [])])
        (layout (some .Tattach)) (.attach fid (afid.getD NOFID) (uname.getD []) (aname.getD [])) :=
      (int 4 _).cons ((int 4 _).cons ((text _).cons ((text _).cons (undone_nil _))))
    cases nUname with
    | none => exact plain (carries_frame h base)
    | some u =>
      obtain ⟨x, hx, hc⟩ := carries_extra h base
      exact ⟨x, hc, fun e => absurd e (putNum_ne_nil hx), nofun⟩
  | twalk tag fid newfid wname =>
    have names := undone_times text wname
    rw [map_id'] at names
    exact plain (carries_frame h ((int 4 _).cons ((int 4 _).cons ((int 2 _).cons (names.map (Body.walk fid newfid))))))
  | topen => exact plain (carries_frame h ((int 4 _).cons ((int 1 _).cons (undone_nil _))))
  | tcreate tag fid name perm mode extension =>
    have base : Undone (packed [putNum 4 fid, puts name, putNum 4 perm, putNum 1 (mode.getD 0)])
        (layout (some .Tcreate)) (.create fid name perm (mode.getD 0)) :=
      (int 4 _).cons ((text _).cons ((int 4 _).cons ((int 1 _).cons (undone_nil _))))
    cases extension with
    | none => exact plain (carries_frame h base)
    | some e =>
      obtain ⟨x, hx, hc⟩ := carries_extra h base
      exact ⟨x, hc, fun e => absurd e (puts_ne_nil hx), nofun⟩
  | tread => exact plain (carries_frame h ((int 4 _).cons ((undone_word _).cons ((int 4 _).cons (undone_nil _)))))
  | twrite tag fid offset data =>
    exact plain
      (carries_frame h
        ((int 4 _).cons ((undone_word _).cons ((undone_payload data).map (Body.write fid offset)))))
  | tclunk | tstat => exact plain (carries_frame h ((int 4 _).map Body.fid))
  | tflush => exact plain (carries_frame h ((int 2 _).map Body.flush))
  | tclone tag fid newfid =>
    exact plain (carries_frame h ((int 4 _).cons ((int 4 _).cons ((int 2 _).cons (undone_nil _)))))
  | twstat => exact plain (carries_twstat h)
  | _ => exact plain (carries_frame h (undone_nil _))

end Call

/-- The frame gives the fields back, and nothing that stops short of its end is accepted. -/
def RoundTrips (dec : Str → Option Msg) (c : Call) (f : Str) : Prop :=
  dec f = some ⟨c.kind.code, c.tag, f.length, c.fields⟩ ∧ ∀ p, p <+: f → p ≠ f → dec p = none

/-- The C decoder reads back what speaks plain 9P2000. -/
theorem npDecode_roundTrips_iff {c : Call} (h : c.build = some f) :
    RoundTrips npDecode c f ↔ c.extra = none := by
  obtain ⟨x, ⟨⟨b, rfl, h4, hr⟩, h2⟩, hx⟩ := c.carries h
  rw [← hx]
  have hread := reads_header h4 h2 hr
  have hsplit : framed c.kind c.tag (b ++ x) =
      le 4 (7 + (b ++ x).length) ++ (le 1 c.kind.code ++ (le 2 c.tag ++ b)) ++ x := by
    unfold framed
    simp only [append_assoc]
  rw [← length_framed c.kind c.tag] at hread hsplit
  generalize framed c.kind c.tag (b ++ x) = f at hread hsplit ⊢
  generalize le 4 f.length ++ (le 1 c.kind.code ++ (le 2 c.tag ++ b)) = g at hread hsplit
  constructor
  · rintro ⟨-, hcut⟩
    by_contra hne
    have hg : npDecode g = none :=
      hcut g ⟨x, hsplit.symm⟩ fun e => hne (self_eq_append_right.mp (e.trans hsplit))
    rw [npDecode_eq, hread.self] at hg
    cases hg
  · rintro rfl
    rw [append_nil] at hsplit
    subst hsplit
    refine ⟨?_, fun p hp hne => ?_⟩
    · rw [npDecode_eq, hread.self]
      rfl
    · rw [npDecode_eq, hread.cut hp hne]
      rfl

namespace Call

/-- The bytes that a message carries for somebody else. -/
def payload : Call → Str
  | rread _ data | twrite _ _ _ data => data
  | _ => []

/-- A message of plain 9P2000 with no payload that could be cut, and not an Rwstat. -/
def Plain (c : Call) : Prop := c.extra = none ∧ c.payload = [] ∧ c.kind ≠ .Rwstat

instance (c : Call) : Decidable c.Plain := inferInstanceAs (Decidable (_ ∧ _ ∧ _))

end Call

theorem rread_eq {tag : Nat} (h : rread tag data = some f) :
    data.length < 2 ^ 32 ∧ f = framed .Rread tag (le 4 data.length ++ data) := by
  obtain ⟨b, hb, -, -, rfl⟩ := frame_eq_some.mp h
  obtain ⟨x, y, hx, hy, rfl⟩ := packed_cons_eq_some.mp hb
  rw [packed_one] at hy
  cases hy
  obtain ⟨h4, rfl⟩ := putNum_eq_some.mp hx
  exact ⟨h4, rfl⟩

theorem twrite_eq {tag fid : Nat} (h : twrite tag fid offset data = some f) : data.length < 2 ^ 32 ∧
    f = framed .Twrite tag (le 4 fid ++ le 8 offset.toNat ++ (le 4 data.length ++ data)) := by
  obtain ⟨b, hb, -, -, rfl⟩ := frame_eq_some.mp h
  rw [putWord_eq] at hb
  obtain ⟨x, y, hx, hy, rfl⟩ := packed_cons_eq_some.mp hb
  obtain ⟨x', y', hx', hy', rfl⟩ := packed_cons_eq_some.mp hy
  obtain ⟨x'', y'', hx'', hy'', rfl⟩ := packed_cons_eq_some.mp hy'
  rw [packed_one] at hy''
  cases hy''
  cases hx'
  obtain ⟨-, rfl⟩ := putNum_eq_some.mp hx
  obtain ⟨h4, rfl⟩ := putNum_eq_some.mp hx''
  exact ⟨h4, by rw [append_assoc]⟩

/-! ## Beginnings of frames -/

theorem eleven_le (h : clipped p = true) : 11 ≤ p.length := by
  unfold clipped at h
  split at h
  · have := of_decide_eq_true h
    omega
  · exact (of_decide_eq_true h).1
  · cases h

/-- A beginning of a frame with a payload is clipped from the end of its count on, which is at `i`.
-/
theorem clipped_framed {tag i : Nat} {q : Str} (hi : i = 7 + q.length)
    (hk : ∀ p, Kind.ofCode (typeOf p) = some k →
      (clipped p = true ↔ i + 4 ≤ p.length ∧ p.length < i + 4 + ofLe ((p.drop i).take 4)))
    (h4 : data.length < 2 ^ 32) (hp : p <+: framed k tag (q ++ (le 4 data.length ++ data))) :
    clipped p = true ↔ i + 4 ≤ p.length ∧ p.length < i + 4 + data.length := by
  have hcount : i + 4 ≤ p.length → ofLe ((p.drop i).take 4) = data.length := fun hl => by
    generalize hb : q ++ (le 4 data.length ++ data) = b at hp
    have hsplit : framed k tag b = (le 4 (7 + b.length) ++ le 1 k.code ++ le 2 tag ++ q) ++
        (le 4 data.length ++ data) := by
      unfold framed
      rw [← hb]
      simp only [append_assoc]
    have hlen : (le 4 (7 + b.length) ++ le 1 k.code ++ le 2 tag ++ q).length = i := by
      simp only [length_append, length_le]
      omega
    rw [slice_of_beginning hp hl, hsplit, drop_left' hlen, take_left' (length_le 4 _), ofLe_le_of_lt h4]
  constructor
  · intro hc
    have hl := eleven_le hc
    have := (hk p (kind_of_beginning hp (by omega))).mp hc
    rwa [hcount this.1] at this
  · intro hc
    refine (hk p (kind_of_beginning hp (by omega))).mpr ?_
    rwa [hcount hc.1]

/-- Every frame ends with its payload, and is clipped if it breaks off there. -/
theorem Call.clipped_iff {c : Call} (h : c.build = some f) : ∃ i, f.length = i + c.payload.length ∧
    ∀ p, p <+: f → (clipped p = true ↔ i ≤ p.length ∧ p.length < i + c.payload.length) := by
  cases c with
  | rread tag data =>
    obtain ⟨h4, rfl⟩ := rread_eq h
    refine ⟨11, ?_, fun p hp => clipped_framed (q := []) rfl (fun p hk => ?_) h4 hp⟩
    · rw [length_framed, length_append, length_le, ← Nat.add_assoc]
      rfl
    · rw [clipped, hk]
      exact decide_eq_true_iff
  | twrite tag fid offset data =>
    obtain ⟨h4, rfl⟩ := twrite_eq h
    refine ⟨23, ?_, fun p hp => clipped_framed (q := le 4 fid ++ le 8 offset.toNat) ?_ (fun p hk => ?_) h4 hp⟩
    · rw [length_framed, length_append, length_append, length_append, length_le, length_le, length_le]
      show _ = 23 + data.length
      omega
    · rw [length_append, length_le, length_le]
    · rw [clipped, hk]
      exact decide_eq_true_iff
  | _ =>
    obtain ⟨x, ⟨⟨b, hf, -⟩, -⟩, -⟩ := Call.carries h
    refine ⟨f.length, rfl, fun p hp => ⟨fun hc => ?_, fun hc => absurd hc.2 (Nat.not_lt.mpr hc.1)⟩⟩
    have hl := eleven_le hc
    rw [clipped, kind_of_beginning (hf ▸ hp) (by omega)] at hc
    cases hc

/-- The decoders agree on everything that begins a frame just if it has no payload and is not an
Rwstat. -/
theorem Call.agree_iff {c : Call} (h : c.build = some f) :
    (∀ p, p <+: f → decode p = npDecode p) ↔ c.payload = [] ∧ c.kind ≠ .Rwstat := by
  obtain ⟨x, ⟨⟨b, hf, -, -⟩, -⟩, -⟩ := c.carries h
  have hlen : 7 ≤ f.length := by
    rw [hf, length_framed]
    omega
  have hkind : ∀ {p}, p <+: f → 7 ≤ p.length → Kind.ofCode (typeOf p) = some c.kind := fun hp hl =>
    kind_of_beginning (hf ▸ hp) (by omega)
  constructor
  · intro hall
    refine ⟨?_, fun hk => ?_⟩
    · -- without its last byte a frame with a payload is clipped
      obtain ⟨i, hfl, hclip⟩ := Call.clipped_iff h
      have hlast := ((decode_eq_npDecode_iff _).mp (hall f.dropLast (List.dropLast_prefix f))).1
      have hl : f.dropLast.length = f.length - 1 := length_dropLast ..
      by_contra hne
      have hpos : 0 < c.payload.length := length_pos_iff.mpr hne
      rw [(hclip _ (List.dropLast_prefix f)).mpr (by omega)] at hlast
      cases hlast
    · have hr := ((decode_eq_npDecode_iff _).mp (hall f (prefix_refl f))).2
      unfold isRwstat at hr
      rw [hkind (prefix_refl f) hlen, hk, decide_eq_true hlen] at hr
      cases hr
  · rintro ⟨hd, hk⟩ p hp
    refine (decode_eq_npDecode_iff p).mpr ⟨?_, ?_⟩
    · obtain ⟨i, -, hclip⟩ := Call.clipped_iff h
      refine Bool.eq_false_iff.mpr fun hc => ?_
      obtain ⟨h1, h2⟩ := (hclip p hp).mp hc
      rw [hd] at h2
      exact absurd h2 (Nat.not_lt.mpr h1)
    · unfold isRwstat
      rcases Nat.lt_or_ge p.length 7 with hlt | hge
      · rw [decide_eq_false (by omega), Bool.false_and]
      · rw [hkind hp hge, decide_eq_false fun e => hk (Option.some.inj e), Bool.and_false]

theorem Call.roundTrips_iff {c : Call} (h : c.build = some f) :
    RoundTrips decode c f ∧ RoundTrips npDecode c f ↔ c.Plain := by
  constructor
  · rintro ⟨hl, hc⟩
    refine ⟨(npDecode_roundTrips_iff h).mp hc, (Call.agree_iff h).mp fun p hp => ?_⟩
    by_cases hpf : p = f
    · rw [hpf, hl.1, hc.1]
    · rw [hl.2 p hp hpf, hc.2 p hp hpf]
  · rintro ⟨he, hp⟩
    have hc := (npDecode_roundTrips_iff h).mpr he
    have hag := (Call.agree_iff h).mpr hp
    refine ⟨⟨(hag f (prefix_refl f)).trans hc.1, fun p hpf hne => ?_⟩, hc⟩
    exact (hag p hpf).trans (hc.2 p hpf hne)

/-! ## The builders -/

namespace Call

/-- The arguments fit the widths of their fields, for the calls that both sides have. -/
def Within : Call → Prop
  | rread tag data => tag < 2 ^ 16 ∧ data.length < 2 ^ 32
  | twalk tag fid newfid wname =>
    tag < 2 ^ 16 ∧ fid < 2 ^ 32 ∧ newfid < 2 ^ 32 ∧ wname.length < 2 ^ 16 ∧ ∀ s ∈ wname,
      s.length < 2 ^ 16
  | tread tag fid _ count => tag < 2 ^ 16 ∧ fid < 2 ^ 32 ∧ count < 2 ^ 32
  | twrite tag fid _ data => tag < 2 ^ 16 ∧ fid < 2 ^ 32 ∧ data.length < 2 ^ 32
  | _ => True

/-- How long the frame is, for the calls that both sides have. -/
def size : Call → Nat
  | rread _ data => 7 + 4 + data.length
  | twalk _ _ _ wname => walkLength wname
  | tread _ _ _ _ => 7 + 16
  | twrite _ _ _ data => 7 + 16 + data.length
  | _ => 0

end Call

/-- A body whose fields fit is framed if its length fits as well. -/
theorem frame_eq_iff {tag size : Nat} (hw : w = some b) (ht : tag < 2 ^ 16)
    (hs : 7 + b.length = size) :
    frame k tag w = some (le 4 size ++ (le 1 k.code ++ (le 2 tag ++ b))) ↔ size < 2 ^ 32 := by
  rw [frame_eq_some]
  constructor
  · rintro ⟨b', hb, h4, -⟩
    rw [hw] at hb
    cases hb
    rwa [hs] at h4
  · intro h
    exact ⟨b, hw, hs ▸ h, ht, hs ▸ rfl⟩

theorem length_flatMap_wrstr (wname : List Str) :
    (wname.flatMap wrstr).length = (wname.map fieldlen).sum := by
  rw [length_flatMap]
  exact congrArg List.sum (map_congr_left fun s _ => length_wrstr s)

/-- **Encoding.** Of arguments that fit the two make the same frame, unless it is too long for its
own size. -/
theorem Call.build_eq_iff {c : Call} {n : Str} (hn : c.npBuild = some n) (hw : c.Within) :
    c.build = some n ↔ c.size < 2 ^ 32 := by
  cases c with
  | rread tag data =>
    obtain ⟨ht, hd⟩ := hw
    cases hn
    have hb : packed [putNum 4 data.length, some data] = some (le 4 data.length ++ data) := by
      rw [putNum_eq hd, packed_cons_some, packed_one]
      rfl
    have hl : 7 + (le 4 data.length ++ data).length = 7 + 4 + data.length := by
      rw [length_append, length_le]
      omega
    exact frame_eq_iff hb ht hl
  | twalk tag fid newfid wname =>
    obtain ⟨ht, hfid, hnew, hlen, hnames⟩ := hw
    cases hn
    have hb : packed (putNum 4 fid :: putNum 4 newfid :: putNum 2 wname.length :: wname.map puts) =
        some (le 4 fid ++ (le 4 newfid ++ (le 2 wname.length ++ wname.flatMap wrstr))) := by
      rw [putNum_eq hfid, putNum_eq hnew, putNum_eq hlen, packed_cons_some, packed_cons_some, packed_cons_some,
        packed_map fun s hs => puts_eq (hnames s hs)]
      rfl
    have hl : 7 + (le 4 fid ++ (le 4 newfid ++ (le 2 wname.length ++ wname.flatMap wrstr))).length =
        walkLength wname := by
      unfold walkLength
      simp only [length_append, length_le, length_flatMap_wrstr]
      omega
    exact frame_eq_iff hb ht hl
  | tread tag fid offset count =>
    obtain ⟨ht, hfid, hcount⟩ := hw
    cases hn
    have hb : packed [putNum 4 fid, putNum 8 offset.toNat, putNum 4 count] =
        some (le 4 fid ++ (le 8 offset.toNat ++ le 4 count)) := by
      rw [putNum_eq hfid, putWord_eq, putNum_eq hcount, packed_cons_some, packed_cons_some, packed_one]
      rfl
    have hl : 7 + (le 4 fid ++ (le 8 offset.toNat ++ le 4 count)).length = 7 + 16 := by
      simp only [length_append, length_le]
    exact frame_eq_iff hb ht hl
  | twrite tag fid offset data =>
    obtain ⟨ht, hfid, hd⟩ := hw
    cases hn
    have hb : packed [putNum 4 fid, putNum 8 offset.toNat, putNum 4 data.length, some data] =
        some (le 4 fid ++ (le 8 offset.toNat ++ (le 4 data.length ++ data))) := by
      rw [putNum_eq hfid, putWord_eq, putNum_eq hd, packed_cons_some, packed_cons_some, packed_cons_some, packed_one]
      rfl
    have hl : 7 + (le 4 fid ++ (le 8 offset.toNat ++ (le 4 data.length ++ data))).length =
        7 + 16 + data.length := by
      simp only [length_append, length_le]
      omega
    exact frame_eq_iff hb ht hl
  | _ => cases hn

/-! ## The two codecs -/

/-- The decoders agree on a string unless it is an Rwstat or a Twrite or Rread whose count runs over
its end, and they take a record apart in the same way. Of arguments that fit their fields the
encoders make the same bytes where the whole fits its size field. A frame that was built is read
back by both, and none of its beginnings is accepted by either, just if it is plain. -/
theorem codecs_agree (b : Str) (st : StatArg) (hst : st.Within) (c : Call) (hc : c.Within) :
    (decode b = npDecode b ↔ clipped b = false ∧ isRwstat b = false) ∧
    unpackstat b = npUnpackstat b ∧
    (packstat st = some (npPackstat st) ↔ st.recordLength < 2 ^ 16) ∧
    (∀ n, c.npBuild = some n → (c.build = some n ↔ c.size < 2 ^ 32)) ∧
    (∀ f, c.build = some f → (RoundTrips decode c f ∧ RoundTrips npDecode c f ↔ c.Plain)) ∧
    ((∀ sb, statBody st = some sb → unpackstat sb = some st.dir) ∧
      ∀ ws sb, wstatBody ws = some sb → unpackstat sb = some ws.dir) :=
  ⟨decode_eq_npDecode_iff b, unpackstat_eq b, packstat_eq_iff hst, fun _ hn => Call.build_eq_iff hn hc,
    fun _ hf => Call.roundTrips_iff hf, fun _ h => unpackstat_of_undone (undone_statBody st) h,
    fun ws _ h => unpackstat_of_undone (undone_wstatBody ws) h⟩

/-- A small file, and a walk of two names. -/
theorem walk_agreed : packstat ⟨⟨0, none, 7⟩, 0x1b6, none, none, none, str "x", none, none, none⟩ =
      some (npPackstat ⟨⟨0, none, 7⟩, 0x1b6, none, none, none, str "x", none, none, none⟩) ∧
    (twalk 9 1 2 [str "usr", str "lib"] = some (npTwalk 9 1 2 [str "usr", str "lib"])) ∧
    RoundTrips npDecode (.twalk 9 1 2 [str "usr", str "lib"])
      (npTwalk 9 1 2 [str "usr", str "lib"]) := by
  have h := codecs_agree [] ⟨⟨0, none, 7⟩, 0x1b6, none, none, none, str "x", none, none, none⟩
    ⟨by decide, by decide, by decide, by decide, by decide, by decide, by decide, by decide, by decide⟩
    (.twalk 9 1 2 [str "usr", str "lib"])
    ⟨by decide, by decide, by decide, by decide, by decide⟩
  exact ⟨h.2.2.1.mpr (by decide), (h.2.2.2.1 _ rfl).mpr (by decide),
    ((h.2.2.2.2.1 _ (by decide +kernel)).mpr (by decide)).2⟩

/-- A Twrite of two bytes that arrived without the second, and an Rwstat. -/
theorem short_write : twrite 1 2 0 [5, 6] = some (npTwrite 1 2 0 [5, 6]) ∧
    decode (npTwrite 1 2 0 [5, 6]).dropLast = some ⟨118, 1, 25, .write 2 0 [5]⟩ ∧
    npDecode (npTwrite 1 2 0 [5, 6]).dropLast = none ∧
    ∃ f, rwstat 1 = some f ∧ decode f = some ⟨127, 1, 7, .unknown⟩ ∧
    npDecode f = some ⟨127, 1, 7, .empty⟩ :=
  ⟨by decide +kernel, by decide +kernel, by decide +kernel, framed .Rwstat 1 [], by decide +kernel, by decide +kernel,
    by decide +kernel⟩

end Nlos.Ninep
