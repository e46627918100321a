import Nlos.Lib.Runs
import Nlos.Ninep.Agree

/-!
# A 9P server over a backend

`lib/p9serve.lua`. `respond` takes a request and makes the reply, over one backend and a table of
fids. What the backend raises is caught where the source has a `pcall` around the call and goes on
through `respond` where it has none. `M.serve` cuts a stream of bytes into requests; `drain` is its
loop over the buffer.

The codec is the one that a proc has, `los.ninep` where it has the function.
-/

namespace Nlos.P9serve

open Dev Ninep Fallible

/-! ## State -/

structure Fid (H : Type) where
  h : H
  path : Str
  dir : Bool
  isOpen : Bool
  /-- The records of a directory, each with its offset. -/
  dirrecs : Option (List (Nat × Str))
deriving DecidableEq, Repr

/-- What a responder closes over, and the state of its backend. -/
structure Server (W H : Type) where
  world : W
  msize : Nat
  fids : Nat → Option (Fid H)
  qidn : List (Str × Nat)
  nextq : Nat

variable {W H : Type}

def Fresh (s : Server W H) : Prop :=
  s.msize = MSIZE ∧ (∀ f, s.fids f = none) ∧ s.qidn = [] ∧ s.nextq = 0

abbrev Routine (W H α : Type) := Fallible Str (Server W H) α

def onWorld {α : Type} (m : Fallible Str W α) : Routine W H α :=
  zoom Server.world (fun s w => { s with world := w }) m

def setFid (fid : Nat) (v : Option (Fid H)) : Routine W H Unit :=
  modify fun s => { s with fids := Function.update s.fids fid v }

/-- A builder that was called: it raises, or it gives the reply. -/
def give : Option Str → Routine W H Str
  | some b => pure b
  | none => fail (str "bad argument to 'pack'")

/-! ## Names and numbers -/

/-- A lua integer as `string.pack` and a cast to `uint64_t` see it. -/
def unsigned (n : Int) : Nat := (n % 2 ^ 64).toNat

/-- `:%d+: ` at the front of a string, cut off. -/
def position : Str → Option Str
  | [] => none
  | c :: cs =>
    let digits := cs.takeWhile fun d => 48 ≤ d && d ≤ 57
    match cs.drop digits.length with
    | a :: b :: rest => if c = 58 ∧ digits ≠ [] ∧ a = 58 ∧ b = 32 then some rest else none
    | _ => none

def afterPosition : Str → Option Str
  | [] => none
  | c :: cs => (position (c :: cs)).orElse fun _ => afterPosition cs

/-- The text of an error without the file and line in front: `gsub("^.-:%d+: ", "")`. -/
def bare (e : Str) : Str := (afterPosition e).getD e

def err (tag : Nat) (e : Str) : Routine W H Str := give (rerror tag (bare e))

def childpath (path name : Str) : Str :=
  if path = str "/" then str "/" ++ name else path ++ str "/" ++ name

def dirname (path : Str) : Str := ((path.reverse.dropWhile (· ≠ slash)).drop 1).reverse

def qidpath (path : Str) : Routine W H Nat := fun s =>
  match s.qidn.lookup path with
  | some q => (.ok q, s)
  | none =>
    (.ok (s.nextq + 1), { s with nextq := s.nextq + 1, qidn := (path, s.nextq + 1) :: s.qidn })

def qidof (path : Str) (dir : Bool) : Routine W H QidArg := do
  let q ← qidpath path
  return ⟨if dir then QTDIR else QTFILE, some 0, BitVec.ofNat 64 q⟩

def DIRMODE : Nat := DMDIR ||| 0x1ff
def FILEMODE : Nat := 0x1b6

def glenda : Str := str "glenda"

def statbytes (path : Str) (st : Stat) : Routine W H Str := do
  let q ← qidof path st.dir
  return npPackstat
    { qid := q
      mode := if st.dir then DIRMODE else FILEMODE
      atime := some (unsigned st.mtime)
      mtime := some (unsigned st.mtime)
      length := some (BitVec.ofInt 64 (if st.dir then 0 else st.size))
      name := st.name
      uid := some glenda
      gid := some glenda
      muid := some glenda }

def modeOf (mode : Nat) : Str :=
  if mode % 4 = 0 then str "r" else if mode % 4 = 1 then str "w" else str "rw"

variable (d : Device W H)

def ask (r : Req H) : Routine W H r.Ans := onWorld (d.answer r)

/-! ## Requests -/

def version (tag msize : Nat) (version : Str) : Routine W H Str := do
  modify fun s =>
    { s with fids := fun _ => none, msize := if msize < s.msize then msize else s.msize }
  let s ← get
  give (rversion tag s.msize (if version.take 2 ≠ str "9P" then str "unknown" else VERSION))

def attach (tag fid : Nat) : Routine W H Str := do
  match ← attempt (ask d .attach) with
  | .error e => err tag e
  | .ok h =>
    match ← attempt (ask d (.stat h)) with
    | .error e => err tag e
    | .ok st =>
      setFid fid (some ⟨h, str "/", st.dir, false, none⟩)
      let q ← qidof (str "/") st.dir
      give (rattach tag q)

/-- The loop of Twalk: the qids it got, and where it is. -/
def steps : H → Str → Bool → List Str → Routine W H (List QidArg × H × Str × Bool)
  | cur, path, dir, [] => pure ([], cur, path, dir)
  | cur, path, dir, name :: names => do
    match ← attempt (ask d (.walk cur name)) with
    | .error _ => pure ([], cur, path, dir)
    | .ok nh =>
      match ← attempt (ask d (.stat nh)) with
      | .error _ => pure ([], nh, childpath path name, dir)
      | .ok st =>
        let q ← qidof (childpath path name) st.dir
        let r ← steps nh (childpath path name) st.dir names
        return (q :: r.1, r.2)

def clone (tag newfid : Nat) (f : Fid H) : Routine W H Str := do
  match ← attempt (onWorld ((d.answer .attach : Fallible Str W H) >>= fun h => walknames d h (elements f.path))) with
  | .error e => err tag e
  | .ok nh =>
    setFid newfid (some ⟨nh, f.path, f.dir, false, none⟩)
    give (rwalk tag [])

def walkOn (tag newfid : Nat) (wname : List Str) (f : Fid H) : Routine W H Str := do
  let r ← steps d f.h f.path f.dir wname
  if r.1.length < wname.length then
    if r.1 = [] then give (rerror tag Enonexist) else give (rwalk tag r.1)
  else do
    setFid newfid (some ⟨r.2.1, r.2.2.1, r.2.2.2, false, none⟩)
    give (rwalk tag r.1)

def withFid (tag fid : Nat) (m : Fid H → Routine W H Str) : Routine W H Str := do
  let s ← get
  match s.fids fid with
  | none => give (rerror tag Ebadfid)
  | some f => m f

def walk (tag newfid : Nat) (wname : List Str) (f : Fid H) : Routine W H Str :=
  if wname = [] then clone d tag newfid f else walkOn d tag newfid wname f

/-- The size of a read or write that a client is told of: `msize - 24`. -/
def iounit (s : Server W H) : Int := s.msize - 24

/-- The answer to Topen and Tcreate: a stat that fails is not an error. -/
def opened (reply : Nat → QidArg → Option Nat → Option Str) (tag : Nat) (path : Str) (h : H)
    (dir : Bool) :
    Routine W H Str := do
  let st ← attempt (ask d (.stat h))
  let q ← qidof path (match st with
    | .ok st => st.dir
    | .error _ => dir)
  let s ← get
  give (reply tag q (some (unsigned (iounit s))))

def open' (tag fid mode : Nat) (f : Fid H) : Routine W H Str := do
  match ← attempt (ask d (.open f.h (modeOf mode))) with
  | .error e => err tag e
  | .ok oh =>
    setFid fid (some { f with h := oh, isOpen := true })
    opened d ropen tag f.path oh f.dir

def create (tag fid : Nat) (name : Str) (perm mode : Nat) (f : Fid H) : Routine W H Str := do
  let dir := perm &&& DMDIR ≠ 0
  match ← attempt (ask d (.create f.h name (modeOf mode) dir)) with
  | .error e => err tag e
  | .ok nh =>
    let _ ← attempt (ask d (.clunk f.h))
    setFid fid (some { f with h := nh, path := childpath f.path name, dir := dir })
    opened d rcreate tag (childpath f.path name) nh dir

def records (path : Str) : Nat → List Stat → Routine W H (List (Nat × Str))
  | _, [] => pure []
  | at', e :: es => do
    let b ← statbytes (childpath path e.name) e
    let rest ← records path (at' + b.length) es
    return (at', b) :: rest

/-- Whole records from `offset` on, as many as go into `count` with the `got` that are there. -/
def gather (offset count : Int) : Nat → List (Nat × Str) → Str
  | _, [] => []
  | got, (at', b) :: rs =>
    if offset ≤ at' then
      if count < (got + b.length : Nat) then [] else b ++ gather offset count (got + b.length) rs
    else gather offset count got rs

/-- The records of a directory that is read: those of the first read. -/
def dirrecs (fid : Nat) (f : Fid H) : Routine W H (List (Nat × Str)) :=
  match f.dirrecs with
  | some recs => pure recs
  | none => do
    let ents ← ask d (.readdir f.h)
    let recs ← records f.path 0 ents
    setFid fid (some { f with dirrecs := some recs })
    return recs

def dirread (fid : Nat) (f : Fid H) (offset count : Int) : Routine W H Str := do
  let recs ← dirrecs d fid f
  return gather offset count 0 recs

def fetch (fid : Nat) (f : Fid H) (offset count : Int) : Routine W H Str :=
  if f.dir then dirread d fid f offset count else ask d (.read f.h offset count)

def read (tag fid : Nat) (offset : Int) (count : Nat) (f : Fid H) : Routine W H Str := do
  let s ← get
  let n : Int := if iounit s < count then iounit s else count
  match ← attempt (fetch d fid f offset n) with
  | .error e => err tag e
  | .ok data => pure (npRread tag data)

def write (tag : Nat) (offset : Int) (data : Str) (f : Fid H) : Routine W H Str := do
  match ← attempt (ask d (.write f.h offset data)) with
  | .error e => err tag e
  | .ok n => give (rwrite tag (unsigned n))

def clunk (tag fid : Nat) : Routine W H Str := do
  let s ← get
  setFid fid none
  match s.fids fid with
  | none => give (rclunk tag)
  | some f => do
    let _ ← attempt (ask d (.clunk f.h))
    give (rclunk tag)

def stat (tag : Nat) (f : Fid H) : Routine W H Str := do
  match ← attempt (ask d (.stat f.h)) with
  | .error e => err tag e
  | .ok st =>
    let b ← statbytes f.path st
    give (rstat tag b)

def renamed (path name : Str) : Str := dirname path ++ str "/" ++ name

/-- A fid that is not open gets a handle at the new name. -/
def rewalk (tag fid : Nat) (f : Fid H) : Routine W H Str := do
  -- an argument of the pcall, and so outside it
  let root ← ask d .attach
  match ← attempt (onWorld (walkpath d root f.path)) with
  | .error _ => give (rwstat tag)
  | .ok nh =>
    let _ ← attempt (ask d (.clunk f.h))
    setFid fid (some { f with h := nh })
    give (rwstat tag)

/-- Twstat, for a record that was understood. -/
def rename (tag fid : Nat) (name : Str) (f : Fid H) : Routine W H Str := do
  match ← attempt (ask d (.wstat f.h name)) with
  | .error e => err tag e
  | .ok _ =>
    setFid fid (some { f with path := renamed f.path name })
    if f.isOpen then give (rwstat tag) else rewalk d tag fid { f with path := renamed f.path name }

def wstat (tag fid : Nat) (sb : Str) (f : Fid H) : Routine W H Str :=
  match npUnpackstat sb with
  | none => give (rwstat tag)
  | some st =>
    if st.name = [] then give (rwstat tag)
    else if d.wstat then rename d tag fid st.name f
    else give (rerror tag Enotimpl)

/-- `handle`. The fields are those that `decode` gives a message of the type. -/
def handle (m : Msg) : Routine W H Str :=
  match Kind.ofCode m.type, m.body with
  | some .Tversion, .version msize v => version m.tag msize v
  | some .Tauth, _ => give (rerror m.tag (str "authentication not required"))
  | some .Tattach, .attach fid _ _ _ => attach d m.tag fid
  | some .Tflush, _ => give (rflush m.tag)
  | some .Twalk, .walk fid newfid wname => withFid m.tag fid (walk d m.tag newfid wname)
  | some .Topen, .open fid mode => withFid m.tag fid (open' d m.tag fid mode)
  | some .Tcreate, .create fid name perm mode =>
    withFid m.tag fid (create d m.tag fid name perm mode)
  | some .Tread, .read fid offset count => withFid m.tag fid (read d m.tag fid offset.toInt count)
  | some .Twrite, .write fid offset data => withFid m.tag fid (write d m.tag offset.toInt data)
  | some .Tclunk, .fid fid => clunk d m.tag fid
  | some .Tstat, .fid fid => withFid m.tag fid (stat d m.tag)
  | some .Twstat, .wstat fid sb => withFid m.tag fid (wstat d m.tag fid sb)
  | _, _ => give (rerror m.tag (str "operation not supported"))

/-- `respond`. A message that cannot be decoded is nil, and `handle` indexes it. -/
def respond (msg : Str) : Routine W H Str :=
  match npDecode msg with
  | none => fail (str "attempt to index a nil value")
  | some m => handle d m

/-! ## How a request is taken apart -/

section

omit d

def Server.after (d : Device W H) (r : Req H) (s : Server W H) : Server W H :=
  { s with world := (d.answer r s.world).2 }

variable {α : Type}

theorem bind_ask (d : Device W H) (r : Req H) (f : Except Str r.Ans → Routine W H α)
    (s : Server W H) :
    (attempt (ask d r) >>= f) s = f (d.answer r s.world).1 (s.after d r) := rfl

theorem ask_eq {d : Device W H} {r : Req H} {v : Except Str r.Ans} {s : Server W H}
    (h : (d.answer r s.world).1 = v) : ask d r s = (v, s.after d r) := h ▸ rfl

theorem bind_setFid (fid : Nat) (g : Option (Fid H)) (f : Unit → Routine W H α) (s : Server W H) :
    (setFid fid g >>= f) s = f () (setFid fid g s).2 := rfl

structure GoodQid (q : QidArg) : Prop where
  type : q.type < 2 ^ 8
  vers : q.vers = some 0

def Numbers (s t : Server W H) : Prop := ∀ p q, s.qidn.lookup p = some q → t.qidn.lookup p = some q

/-- Only the table of qids has changed, and no number in it. -/
structure Later (s t : Server W H) : Prop where
  world : t.world = s.world
  msize : t.msize = s.msize
  fids : t.fids = s.fids
  qids : Numbers s t

theorem Later.trans {s t u : Server W H} (h : Later s t) (g : Later t u) : Later s u :=
  ⟨g.world.trans h.world, g.msize.trans h.msize, g.fids.trans h.fids, fun p q e => g.qids p q (h.qids p q e)⟩

/-- A number can always be had, and it stays. -/
theorem qidpath_spec (path : Str) (s : Server W H) :
    ∃ q t, qidpath path s = (.ok q, t) ∧ Later s t ∧
    ∀ u, Numbers t u → qidpath path u = (.ok q, u) := by
  have known : ∀ {q u}, u.qidn.lookup path = some q → qidpath path u = (.ok q, (u : Server W H)) :=
    fun h => by
    unfold qidpath
    rw [h]
  cases hq : s.qidn.lookup path with
  | some q => exact ⟨q, s, known hq, ⟨rfl, rfl, rfl, fun _ _ h => h⟩, fun u h => known (h _ _ hq)⟩
  | none =>
    refine ⟨_, { s with nextq := s.nextq + 1, qidn := (path, s.nextq + 1) :: s.qidn }, by unfold qidpath; rw [hq],
      ⟨rfl, rfl, rfl, fun p q h => ?_⟩, fun u h => known (h _ _ ?_)⟩
    · have hne : (p == path) = false := beq_false_of_ne fun e => by
        rw [e, hq] at h
        cases h
      rw [List.lookup_cons, hne]
      exact h
    · exact List.lookup_cons_self

/-- A qid can always be had, and only the table of qids changes. -/
theorem qidof_spec (path : Str) (dir : Bool) (s : Server W H) :
    ∃ q t, qidof path dir s = (.ok q, t) ∧
    (t.world = s.world ∧ t.msize = s.msize ∧ t.fids = s.fids) ∧ GoodQid q := by
  obtain ⟨n, t, hn, ht, -⟩ := qidpath_spec path s
  refine ⟨⟨if dir then QTDIR else QTFILE, some 0, BitVec.ofNat 64 n⟩, t, bind_ok hn,
    ⟨ht.world, ht.msize, ht.fids⟩, ?_, rfl⟩
  show (if dir then QTDIR else QTFILE) < 2 ^ 8
  cases dir <;> decide

end

/-! ## The stream -/

/-- What one turn of the loop of `M.serve` does with its buffer. -/
inductive Next where
  | resync (buf : Str)
  | await
  | frame (msg buf : Str)
deriving DecidableEq, Repr

/-- One turn of the loop, for a buffer of four bytes or more. -/
def next (msize : Nat) (buf : Str) : Next :=
  let size := Bytes.ofLe (buf.take 4)
  let typ := typeOf buf
  let ok := 7 ≤ size ∧ size ≤ msize ∧ (5 ≤ buf.length → 100 ≤ typ ∧ typ ≤ 126 ∧ typ % 2 = 0)
  if ok then if buf.length < size then .await else .frame (buf.take size) (buf.drop size)
  else .resync (buf.drop 1)

/-- A message that the loop passes on: its size field is its length, at most `msize`, and its type
is even and between Tversion and Twstat. -/
structure Passed (msize : Nat) (msg : Str) : Prop where
  header : 7 ≤ msg.length
  size : Bytes.ofLe (msg.take 4) = msg.length
  fits : msg.length ≤ msize
  low : 100 ≤ typeOf msg
  high : typeOf msg ≤ 126
  even : typeOf msg % 2 = 0

theorem passed_of_next {msize : Nat} {buf msg rest : Str} (h : next msize buf = .frame msg rest) :
    Passed msize msg ∧ buf = msg ++ rest := by
  unfold next at h
  dsimp only at h
  split at h
  next hok =>
    obtain ⟨h7, hm, ht⟩ := hok
    split at h
    · cases h
    next hlt =>
    generalize hs : Bytes.ofLe (buf.take 4) = size at h7 hm hlt h
    cases h
    have hl : (buf.take size).length = size := by rw [List.length_take]; omega
    obtain ⟨hlow, hhigh, heven⟩ := ht (by omega)
    have htype : typeOf (buf.take size) = typeOf buf := by
      unfold typeOf
      rw [List.drop_take, List.take_take, Nat.min_eq_left (by omega)]
    refine ⟨⟨by omega, ?_, by omega, by rwa [htype], by rwa [htype], by rwa [htype]⟩, (List.take_append_drop ..).symm⟩
    rw [List.take_take, Nat.min_eq_left (by omega), hs, hl]
  · cases h

theorem next_of_passed {msize : Nat} {msg : Str} (h : Passed msize msg) (rest : Str) :
    next msize (msg ++ rest) = .frame msg rest := by
  obtain ⟨h7, size, fits, low, high, even⟩ := h
  have htype : typeOf (msg ++ rest) = typeOf msg := by grind [typeOf]
  have hsize : Bytes.ofLe ((msg ++ rest).take 4) = msg.length := by
    rwa [List.take_append_of_le_length (by omega)]
  simp [next, *]

def answer (msg : Str) : Fallible Str (Server W H × List Str) Unit := fun (s, sent) =>
  match respond d msg s with
  | (.ok reply, t) => (.ok (), t, sent ++ [reply])
  | (.error e, t) => (.error e, t, sent)

/-- The inner loop of `M.serve`, which ends with what is left in the buffer. -/
def drain (buf : Str) (s : Server W H × List Str) : Except Str Str × Server W H × List Str :=
  if _ : buf.length < 4 then (.ok buf, s)
  else
    match _ : next s.1.msize buf with
    | .resync rest => drain rest s
    | .await => (.ok buf, s)
    | .frame msg rest =>
      match answer d msg s with
      | (.ok (), t) => drain rest t
      | (.error e, t) => (.error e, t)
termination_by buf.length
decreasing_by all_goals grind [next]

def answered (s : Server W H × List Str) (msg : Str) := (answer d msg s).2

/-- The loop answers messages and nothing else, of bytes of the buffer in their order, those that
came one after another up to one that raises. -/
theorem drain_exact (s : Server W H × List Str) :
    (∀ buf, ∃ msgs, msgs.flatten.Sublist buf ∧ Runs.Along (fun s m => Passed s.1.msize m) (answered d) s msgs ∧
      (drain d buf s).2 = msgs.foldl (answered d) s) ∧
    ∀ msgs rest,
      Runs.Along (fun s m => Passed s.1.msize m ∧ (answer d m s).1 = .ok ()) (answered d) s msgs →
      drain d (msgs.flatten ++ rest) s = drain d rest (msgs.foldl (answered d) s) := by
  constructor
  · intro buf
    fun_induction drain d buf s with
    | case2 buf s h4 rest h ih =>
      obtain ⟨msgs, hs, hm⟩ := ih
      exact ⟨msgs, hs.trans (by grind [next, List.drop_sublist]), hm⟩
    | case4 buf s h4 msg rest h t ha ih =>
      obtain ⟨hp, rfl⟩ := passed_of_next h
      obtain ⟨msgs, hs, hm, e⟩ := ih
      have ht : answered d s msg = t := congrArg Prod.snd ha
      exact ⟨msg :: msgs, hs.append_left msg, ⟨hp, ht ▸ hm⟩, by rw [e, List.foldl_cons, ht]⟩
    | case5 buf s h4 msg rest h _ t ha =>
      obtain ⟨hp, rfl⟩ := passed_of_next h
      exact ⟨[msg], rest.nil_sublist.append_left msg, ⟨hp, trivial⟩, (congrArg Prod.snd ha).symm⟩
    | _ => exact ⟨[], List.nil_sublist _, trivial, rfl⟩
  · intro msgs rest h
    induction msgs generalizing s with
    | nil => rfl
    | cons msg msgs ih =>
      obtain ⟨⟨hp, ha⟩, h⟩ := h
      have hn := next_of_passed hp (msgs.flatten ++ rest)
      have h7 := hp.header
      rw [List.flatten_cons, List.append_assoc, drain, List.foldl_cons, ← ih _ h]
      grind [answered]

inductive Op where
  | request (msg : Str)
  | eof
deriving DecidableEq, Repr

/-- What a connection does. At its end the loop returns and the responder is gone. -/
def step (s : Server W H) : Op → Server W H
  | .request msg => (respond d msg s).2
  | .eof => { s with fids := fun _ => none }

end Nlos.P9serve
