import Nlos.Dev.Interface
import Nlos.Lib.Readers

/-!
# The 9P messages, twice

`lib/ninep.lua` and `src/ninep.c`. Both take a message apart and put one together, and a program has
the C functions where they are there and the Lua ones (`ninep.pure`) where they are not.

In Lua a field is read by `string.unpack`, which raises if it is not all there. In C a field that is
not there sets `bad`, later fields read as zero, and the result is nil. A decoder that raises and
one that answers nil both refuse, and both are `none` here. A `los.buf` stands for its bytes. The
bytes that are still to be read stand for the message and the offset into it.

A number of a message is a `Nat`. The fields of eight bytes are lua integers, whose top bit is the
sign: they are words.
-/

namespace Nlos.Ninep

open Readers Bytes

/-! ## Messages -/

inductive Kind where
  | Tversion | Rversion | Tauth | Rauth | Tattach | Rattach | Rerror | Tflush | Rflush | Twalk | Rwalk | Topen | Ropen
  | Tcreate | Rcreate | Tread | Rread | Twrite | Rwrite | Tclunk | Rclunk | Tremove | Rremove | Tstat | Rstat | Twstat
  | Rwstat
deriving DecidableEq, Repr

def Kind.code : Kind → Nat
  | Tversion => 100 | Rversion => 101
  | Tauth => 102 | Rauth => 103
  | Tattach => 104 | Rattach => 105
  | Rerror => 107
  | Tflush => 108 | Rflush => 109
  | Twalk => 110 | Rwalk => 111
  | Topen => 112 | Ropen => 113
  | Tcreate => 114 | Rcreate => 115
  | Tread => 116 | Rread => 117
  | Twrite => 118 | Rwrite => 119
  | Tclunk => 120 | Rclunk => 121
  | Tremove => 122 | Rremove => 123
  | Tstat => 124 | Rstat => 125
  | Twstat => 126 | Rwstat => 127

def Kind.ofCode : Nat → Option Kind
  | 100 => some Tversion | 101 => some Rversion
  | 102 => some Tauth | 103 => some Rauth
  | 104 => some Tattach | 105 => some Rattach
  | 107 => some Rerror
  | 108 => some Tflush | 109 => some Rflush
  | 110 => some Twalk | 111 => some Rwalk
  | 112 => some Topen | 113 => some Ropen
  | 114 => some Tcreate | 115 => some Rcreate
  | 116 => some Tread | 117 => some Rread
  | 118 => some Twrite | 119 => some Rwrite
  | 120 => some Tclunk | 121 => some Rclunk
  | 122 => some Tremove | 123 => some Rremove
  | 124 => some Tstat | 125 => some Rstat
  | 126 => some Twstat | 127 => some Rwstat
  | _ => none

theorem Kind.ofCode_code (k : Kind) : Kind.ofCode k.code = some k := by
  cases k <;> rfl

theorem Kind.code_of_ofCode {n : Nat} {k : Kind} (h : Kind.ofCode n = some k) : n = k.code := by
  unfold Kind.ofCode at h
  split at h <;> cases h <;> rfl

theorem Kind.code_lt (k : Kind) : k.code < 256 ^ 1 := by
  cases k <;> decide

def NOTAG : Nat := 0xffff
def NOFID : Nat := 0xffffffff
def QTDIR : Nat := 0x80
def QTFILE : Nat := 0
def DMDIR : Nat := 0x80000000
def VERSION : Str := str "9P2000"
def MSIZE : Nat := 8192

abbrev Word := BitVec 64

structure Qid where
  type : Nat
  vers : Nat
  path : Word
deriving DecidableEq, Repr

/-- The fields of a message, those of the header apart. -/
inductive Body where
  | version (msize : Nat) (version : Str)
  | auth (afid : Nat) (uname aname : Str)
  | attach (fid afid : Nat) (uname aname : Str)
  | flush (oldtag : Nat)
  | walk (fid newfid : Nat) (wname : List Str)
  | open (fid mode : Nat)
  | create (fid : Nat) (name : Str) (perm mode : Nat)
  | read (fid : Nat) (offset : Word) (count : Nat)
  | write (fid : Nat) (offset : Word) (data : Str)
  | fid (fid : Nat)
  | wstat (fid : Nat) (statbytes : Str)
  | ename (ename : Str)
  | qid (qid : Qid)
  | wqid (wqid : List Qid)
  | opened (qid : Qid) (iounit : Nat)
  | data (data : Str)
  | count (count : Nat)
  | stat (statbytes : Str)
  | empty
  | unknown
deriving DecidableEq, Repr

structure Msg where
  type : Nat
  tag : Nat
  size : Nat
  body : Body
deriving DecidableEq, Repr

/-- A stat record that was taken apart. -/
structure Dir where
  qid : Qid
  mode : Nat
  atime : Nat
  mtime : Nat
  length : Word
  name : Str
  uid : Str
  gid : Str
  muid : Str
deriving DecidableEq, Repr

/-! ## Reading, in Lua -/

def word : Strict Word := do
  let x ← num 8
  return BitVec.ofNat 64 x

def getqid : Strict Qid := do
  let type ← num 1
  let vers ← num 4
  let path ← word
  return ⟨type, vers, path⟩

/-- A record with its size in front, behind a count that nobody looks at. -/
def getstat : Strict Str := do
  let _ ← num 2
  let n ← num 2
  bytes n

def fields : Option Kind → Strict Body
  | some .Tversion => do
    let msize ← num 4
    let version ← counted 2
    return .version msize version
  | some .Tauth => do
    let afid ← num 4
    let uname ← counted 2
    let aname ← counted 2
    return .auth afid uname aname
  | some .Tattach => do
    let fid ← num 4
    let afid ← num 4
    let uname ← counted 2
    let aname ← counted 2
    return .attach fid afid uname aname
  | some .Tflush => do
    let oldtag ← num 2
    return .flush oldtag
  | some .Twalk => do
    let fid ← num 4
    let newfid ← num 4
    let n ← num 2
    let wname ← times (counted 2) n
    return .walk fid newfid wname
  | some .Topen => do
    let fid ← num 4
    let mode ← num 1
    return .open fid mode
  | some .Tcreate => do
    let fid ← num 4
    let name ← counted 2
    let perm ← num 4
    let mode ← num 1
    return .create fid name perm mode
  | some .Tread => do
    let fid ← num 4
    let offset ← word
    let count ← num 4
    return .read fid offset count
  | some .Twrite => do
    let fid ← num 4
    let offset ← word
    let count ← num 4
    -- msg:sub
    let data ← upTo count
    return .write fid offset data
  | some .Tclunk | some .Tremove | some .Tstat => do
    let fid ← num 4
    return .fid fid
  | some .Twstat => do
    let fid ← num 4
    let statbytes ← getstat
    return .wstat fid statbytes
  | some .Rerror => do
    let ename ← counted 2
    return .ename ename
  | some .Rversion => do
    let msize ← num 4
    let version ← counted 2
    return .version msize version
  | some .Rattach => do
    let qid ← getqid
    return .qid qid
  | some .Rwalk => do
    let n ← num 2
    let wqid ← times getqid n
    return .wqid wqid
  | some .Ropen | some .Rcreate => do
    let qid ← getqid
    let iounit ← num 4
    return .opened qid iounit
  | some .Rread => do
    let count ← num 4
    let data ← upTo count
    return .data data
  | some .Rwrite => do
    let count ← num 4
    return .count count
  | some .Rclunk | some .Rremove | some .Rflush => return .empty
  | some .Rstat => do
    let statbytes ← getstat
    return .stat statbytes
  | some .Rauth | some .Rwstat | none => return .unknown

/-- The header, and the fields that `body` reads. -/
def message (body : Option Kind → Strict Body) : Strict Msg := do
  let size ← num 4
  let typ ← num 1
  let tag ← num 2
  let b ← body (Kind.ofCode typ)
  return ⟨typ, tag, size, b⟩

def decode (msg : Str) : Option Msg := (message fields msg).map (·.1)

def dir : Strict Dir := do
  let _ ← num 2
  let _ ← num 4
  let qid ← getqid
  let mode ← num 4
  let atime ← num 4
  let mtime ← num 4
  let length ← word
  let name ← counted 2
  let uid ← counted 2
  let gid ← counted 2
  let muid ← counted 2
  return ⟨qid, mode, atime, mtime, length, name, uid, gid, muid⟩

def unpackstat (sb : Str) : Option Dir := (dir sb).map (·.1)

/-! ## Reading, in C -/

def rdint (n : Nat) : Sticky Nat := fun r =>
  if r.bad || r.rest.length < n then (0, { r with bad := true })
  else (ofLe (r.rest.take n), ⟨r.rest.drop n, false⟩)

/-- The next `n` bytes: what `rdstr`, `rddata` and the two stats do once they have their count. -/
def rdbytes (n : Nat) : Sticky Str := fun r =>
  if r.bad || r.rest.length < n then ([], { r with bad := true })
  else (r.rest.take n, ⟨r.rest.drop n, false⟩)

def rdstr : Sticky Str := do
  let n ← rdint 2
  rdbytes n

/-- An integer of eight bytes, as `setint` casts it. -/
def rdword : Sticky Word := do
  let x ← rdint 8
  return BitVec.ofNat 64 x

def rdqid : Sticky Qid := do
  let t ← rdint 1
  let v ← rdint 4
  let p ← rdword
  return ⟨t, v, p⟩

def rddata : Sticky Str := do
  let n ← rdint 4
  rdbytes n

def rdstat : Sticky Str := do
  let _ ← rdint 2
  let n ← rdint 2
  rdbytes n

def npFields : Option Kind → Sticky Body
  | some .Tversion | some .Rversion => do
    let msize ← rdint 4
    let version ← rdstr
    return .version msize version
  | some .Tauth => do
    let afid ← rdint 4
    let uname ← rdstr
    let aname ← rdstr
    return .auth afid uname aname
  | some .Tattach => do
    let fid ← rdint 4
    let afid ← rdint 4
    let uname ← rdstr
    let aname ← rdstr
    return .attach fid afid uname aname
  | some .Tflush => do
    let oldtag ← rdint 2
    return .flush oldtag
  | some .Twalk => do
    let fid ← rdint 4
    let newfid ← rdint 4
    let n ← rdint 2
    let wname ← loop rdstr n
    return .walk fid newfid wname
  | some .Rwalk => do
    let n ← rdint 2
    let wqid ← loop rdqid n
    return .wqid wqid
  | some .Topen => do
    let fid ← rdint 4
    let mode ← rdint 1
    return .open fid mode
  | some .Tcreate => do
    let fid ← rdint 4
    let name ← rdstr
    let perm ← rdint 4
    let mode ← rdint 1
    return .create fid name perm mode
  | some .Tread => do
    let fid ← rdint 4
    let offset ← rdword
    let count ← rdint 4
    return .read fid offset count
  | some .Twrite => do
    let fid ← rdint 4
    let offset ← rdword
    let data ← rddata
    return .write fid offset data
  | some .Rread => do
    let data ← rddata
    return .data data
  | some .Rwrite => do
    let count ← rdint 4
    return .count count
  | some .Tclunk | some .Tremove | some .Tstat => do
    let fid ← rdint 4
    return .fid fid
  | some .Twstat => do
    let fid ← rdint 4
    let statbytes ← rdstat
    return .wstat fid statbytes
  | some .Rerror => do
    let ename ← rdstr
    return .ename ename
  | some .Rattach => do
    let qid ← rdqid
    return .qid qid
  | some .Ropen | some .Rcreate => orStop rdqid .empty fun qid => do
    let iounit ← rdint 4
    return .opened qid iounit
  | some .Rclunk | some .Rremove | some .Rflush | some .Rwstat => return .empty
  | some .Rstat => do
    let statbytes ← rdstat
    return .stat statbytes
  | some .Rauth | none => return .unknown

def npHeader : Sticky (Nat × Nat × Nat) := do
  let size ← rdint 4
  let typ ← rdint 1
  let tag ← rdint 2
  return (size, typ, tag)

def npDecode (msg : Str) : Option Msg :=
  match npHeader ⟨msg, false⟩ with
  | ((size, typ, tag), r) =>
    if r.bad then none
    else
      match npFields (Kind.ofCode typ) r with
      | (body, r) => if r.bad then none else some ⟨typ, tag, size, body⟩

def npDir : Sticky (Option Dir) := do
  let _ ← rdint 2
  let _ ← rdint 4
  orStop rdqid none fun qid => do
    let mode ← rdint 4
    let atime ← rdint 4
    let mtime ← rdint 4
    let length ← rdword
    orStop rdstr none fun name => orStop rdstr none fun uid => orStop rdstr none fun gid =>
      orStop rdstr none fun muid =>
        return some ⟨qid, mode, atime, mtime, length, name, uid, gid, muid⟩

def npUnpackstat (sb : Str) : Option Dir := (npDir ⟨sb, false⟩).1

/-! ## Writing, in Lua -/

def puts (s : Str) : Option Str := putCounted 2 s

structure QidArg where
  type : Nat
  vers : Option Nat
  path : Word
deriving DecidableEq, Repr

def QidArg.qid (q : QidArg) : Qid := ⟨q.type, q.vers.getD 0, q.path⟩

def putqid (q : QidArg) : Option Str :=
  packed [putNum 1 q.type, putNum 4 (q.vers.getD 0), putNum 8 q.path.toNat]

/-- A stat as a caller gives it to `packstat`. -/
structure StatArg where
  qid : QidArg
  mode : Nat
  atime : Option Nat
  mtime : Option Nat
  length : Option Word
  name : Str
  uid : Option Str
  gid : Option Str
  muid : Option Str
deriving DecidableEq, Repr

def luaos : Str := str "luaos"

def StatArg.dir (st : StatArg) : Dir :=
  ⟨st.qid.qid, st.mode, st.atime.getD 0, st.mtime.getD 0, st.length.getD 0, st.name, st.uid.getD luaos,
    st.gid.getD luaos, st.muid.getD luaos⟩

def sized (body : Option Str) : Option Str := do
  let b ← body
  packed [putNum 2 b.length, some b]

def statBody (st : StatArg) : Option Str :=
  packed [putNum 2 0, putNum 4 0, putqid st.qid, putNum 4 st.mode, putNum 4 (st.atime.getD 0),
    putNum 4 (st.mtime.getD 0), putNum 8 (st.length.getD 0).toNat, puts st.name,
      puts (st.uid.getD luaos),
    puts (st.gid.getD luaos), puts (st.muid.getD luaos)]

def packstat (st : StatArg) : Option Str := sized (statBody st)

/-- A stat as a caller gives it to `packwstat`: only what is to be changed. -/
structure WstatArg where
  qidType : Option Nat
  qidVers : Option Nat
  qidPath : Option Word
  mode : Option Nat
  atime : Option Nat
  mtime : Option Nat
  length : Option Word
  name : Option Str
  uid : Option Str
  gid : Option Str
  muid : Option Str
deriving DecidableEq, Repr

/-- The record it stands for: all ones where nothing is to be changed. -/
def WstatArg.dir (st : WstatArg) : Dir :=
  ⟨⟨st.qidType.getD 0xff, st.qidVers.getD 0xffffffff, st.qidPath.getD (-1)⟩, st.mode.getD 0xffffffff,
    st.atime.getD 0xffffffff, st.mtime.getD 0xffffffff, st.length.getD (-1), st.name.getD [],
      st.uid.getD [],
    st.gid.getD [], st.muid.getD []⟩

def wstatBody (st : WstatArg) : Option Str :=
  packed [putNum 2 0xffff, putNum 4 0xffffffff,
    packed [putNum 1 (st.qidType.getD 0xff), putNum 4 (st.qidVers.getD 0xffffffff),
      putNum 8 (st.qidPath.getD (-1)).toNat],
    putNum 4 (st.mode.getD 0xffffffff), putNum 4 (st.atime.getD 0xffffffff),
      putNum 4 (st.mtime.getD 0xffffffff),
    putNum 8 (st.length.getD (-1)).toNat, puts (st.name.getD []), puts (st.uid.getD []),
      puts (st.gid.getD []),
    puts (st.muid.getD [])]

def packwstat (st : WstatArg) : Option Str := sized (wstatBody st)

def frame (k : Kind) (tag : Nat) (body : Option Str) : Option Str := do
  let b ← body
  packed [putNum 4 (4 + 1 + 2 + b.length), putNum 1 k.code, putNum 2 tag, some b]

def rversion (tag msize : Nat) (version : Str) : Option Str :=
  frame .Rversion tag (packed [putNum 4 msize, puts version])

def rerror (tag : Nat) (ename : Str) : Option Str := frame .Rerror tag (puts ename)

def rattach (tag : Nat) (qid : QidArg) : Option Str := frame .Rattach tag (putqid qid)

def rflush (tag : Nat) : Option Str := frame .Rflush tag (packed [])

def rwalk (tag : Nat) (qids : List QidArg) : Option Str :=
  frame .Rwalk tag (packed (putNum 2 qids.length :: qids.map putqid))

def ropen (tag : Nat) (qid : QidArg) (iounit : Option Nat) : Option Str :=
  frame .Ropen tag (packed [putqid qid, putNum 4 (iounit.getD 0)])

def rcreate (tag : Nat) (qid : QidArg) (iounit : Option Nat) : Option Str :=
  frame .Rcreate tag (packed [putqid qid, putNum 4 (iounit.getD 0)])

def rread (tag : Nat) (data : Str) : Option Str :=
  frame .Rread tag (packed [putNum 4 data.length, some data])

def rwrite (tag count : Nat) : Option Str := frame .Rwrite tag (putNum 4 count)

def rclunk (tag : Nat) : Option Str := frame .Rclunk tag (packed [])

def rstat (tag : Nat) (statb : Str) : Option Str :=
  frame .Rstat tag (packed [putNum 2 statb.length, some statb])

def rwstat (tag : Nat) : Option Str := frame .Rwstat tag (packed [])

def tversion (tag msize : Nat) (version : Option Str) : Option Str :=
  frame .Tversion tag (packed [putNum 4 msize, puts (version.getD VERSION)])

def tattach (tag fid : Nat) (afid : Option Nat) (uname aname : Option Str)
    (nUname : Option Nat) : Option Str :=
  frame .Tattach tag
    (packed ([putNum 4 fid, putNum 4 (afid.getD NOFID), puts (uname.getD []), puts (aname.getD [])] ++
      nUname.toList.map (putNum 4)))

def twalk (tag fid newfid : Nat) (wname : List Str) : Option Str :=
  frame .Twalk tag
    (packed (putNum 4 fid :: putNum 4 newfid :: putNum 2 wname.length :: wname.map puts))

def topen (tag fid : Nat) (mode : Option Nat) : Option Str :=
  frame .Topen tag (packed [putNum 4 fid, putNum 1 (mode.getD 0)])

def tcreate (tag fid : Nat) (name : Str) (perm : Nat) (mode : Option Nat)
    (extension : Option Str) : Option Str :=
  frame .Tcreate tag
    (packed ([putNum 4 fid, puts name, putNum 4 perm, putNum 1 (mode.getD 0)] ++ extension.toList.map puts))

def tread (tag fid : Nat) (offset : Word) (count : Nat) : Option Str :=
  frame .Tread tag (packed [putNum 4 fid, putNum 8 offset.toNat, putNum 4 count])

def twrite (tag fid : Nat) (offset : Word) (data : Str) : Option Str :=
  frame .Twrite tag (packed [putNum 4 fid, putNum 8 offset.toNat, putNum 4 data.length, some data])

def tclunk (tag fid : Nat) : Option Str := frame .Tclunk tag (putNum 4 fid)

def tflush (tag oldtag : Nat) : Option Str := frame .Tflush tag (putNum 2 oldtag)

def tclone (tag fid newfid : Nat) : Option Str := twalk tag fid newfid []

def tstat (tag fid : Nat) : Option Str := frame .Tstat tag (putNum 4 fid)

def twstat (tag fid : Nat) (st : WstatArg) : Option Str := do
  let sb ← packwstat st
  frame .Twstat tag (packed [putNum 4 fid, putNum 2 sb.length, some sb])

/-! ## Writing, in C

`wrint` keeps the low bytes of what it is given. -/

def wrstr (s : Str) : Str := le 2 s.length ++ s

def wrqid (q : QidArg) : Str := le 1 q.type ++ (le 4 (q.vers.getD 0) ++ le 8 q.path.toNat)

def fieldlen (s : Str) : Nat := s.length + 2

/-- How long the record of a stat is, as `np_packstat` adds it up. -/
def StatArg.recordLength (st : StatArg) : Nat :=
  2 + 4 + 13 + 4 + 4 + 4 + 8 + fieldlen st.name + fieldlen (st.uid.getD luaos) +
    fieldlen (st.gid.getD luaos) + fieldlen (st.muid.getD luaos)

def npPackstat (st : StatArg) : Str :=
  le 2 st.recordLength ++ (le 2 0 ++ (le 4 0 ++ (wrqid st.qid ++ (le 4 st.mode ++
    (le 4 (st.atime.getD 0) ++ (le 4 (st.mtime.getD 0) ++ (le 8 (st.length.getD 0).toNat ++
      (wrstr st.name ++ (wrstr (st.uid.getD luaos) ++ (wrstr (st.gid.getD luaos) ++ wrstr (st.muid.getD luaos)))))))))))

def npRread (tag : Nat) (data : Str) : Str :=
  le 4 (7 + 4 + data.length) ++ (le 1 Kind.Rread.code ++ (le 2 tag ++ (le 4 data.length ++ data)))

def npTwrite (tag fid : Nat) (offset : Word) (data : Str) : Str :=
  le 4 (7 + 16 + data.length) ++ (le 1 Kind.Twrite.code ++ (le 2 tag ++ (le 4 fid ++
    (le 8 offset.toNat ++ (le 4 data.length ++ data)))))

def npTread (tag fid : Nat) (offset : Word) (count : Nat) : Str :=
  le 4 (7 + 16) ++ (le 1 Kind.Tread.code ++ (le 2 tag ++ (le 4 fid ++
    (le 8 offset.toNat ++ le 4 count))))

/-- How long a walk is, as `np_twalk` adds it up. -/
def walkLength (wname : List Str) : Nat := 7 + 4 + 4 + 2 + (wname.map fieldlen).sum

def npTwalk (tag fid newfid : Nat) (wname : List Str) : Str :=
  le 4 (walkLength wname) ++ (le 1 Kind.Twalk.code ++ (le 2 tag ++ (le 4 fid ++
    (le 4 newfid ++ (le 2 wname.length ++ wname.flatMap wrstr)))))

end Nlos.Ninep
