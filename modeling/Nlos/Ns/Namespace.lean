import Nlos.Dev.Interface
import Nlos.Lib.Runs

/-!
# Namespaces

`lib/ns.lua`, and of `src/chan.c` what a namespace hands out. A namespace is a list of mounts, each
of a backend at a path. A name is resolved by the mounts at the longest path that it lies under, one
after the other.

The public calls return nil and a reason where something inside them raised, and do so in one place
each, so a call that returned nil is a call that failed here. `D` are the backends, by number.
-/

namespace Nlos.Ns

open Dev Fallible

variable {W H : Type}

/-! ## Paths -/

def cleanStep (parts : List Str) (elem : Str) : List Str :=
  if elem = [dot, dot] then parts.dropLast
  else if elem = [dot] then parts
  else parts ++ [elem]

def cleanParts (path : Str) : List Str := (Paths.elems slash path).foldl cleanStep []

def clean (path : Str) : Str := Paths.rooted slash (cleanParts path)

def root : Str := [slash]

def splitLast (path : Str) : Option (Str × Str) :=
  match path.reverse.dropWhile (· ≠ slash) with
  | [] => none
  | _ :: dir =>
    let name := (path.reverse.takeWhile (· ≠ slash)).reverse
    if name = [] then none else some (dir.reverse, name)

/-- The directory of a path, where the part in front of the last slash may be empty. -/
def dirOf (dir : Str) : Str := if dir = [] then root else dir

/-! ## Mounts -/

/-- The table of a backend: that of the backend itself, or one for a part of it, made by one mount.
-/
structure Ref where
  dev : Nat
  names : List Str
  serial : Nat
deriving DecidableEq, Repr

def Ref.device (D : Nat → Device W H) (b : Ref) : Device W H :=
  if b.names = [] then D b.dev else subtree (D b.dev) b.names

structure Mount (H : Type) where
  pfx : Str
  B : Ref
  root : Option H
  serial : Nat
deriving DecidableEq, Repr

structure Chan (H : Type) where
  B : Ref
  path : Str
  h : H
  pos : Int
deriving DecidableEq, Repr

/-- A namespace, with the state behind the backends and the files that were opened through it. -/
structure Space (W H : Type) where
  world : W
  mounts : List (Mount H)
  serial : Nat
  chans : List (Chan H)

/-- Where a mount goes among those at its path. -/
inductive Order where
  | replace
  | before
  | after
  | other
deriving DecidableEq, Repr

/-- A mount is put in front of the first of its path. -/
def insertBefore (e : Mount H) : List (Mount H) → List (Mount H)
  | [] => [e]
  | m :: l => if m.pfx = e.pfx then e :: m :: l else m :: insertBefore e l

def insertAfter (e : Mount H) (l : List (Mount H)) : List (Mount H) :=
  (insertBefore e l.reverse).reverse

abbrev Routine (W H α : Type) := Fallible Str (Space W H) α

def onWorld {α : Type} (m : Fallible Str W α) : Routine W H α :=
  zoom Space.world (fun s w => { s with world := w }) m

variable (D : Nat → Device W H)

def ask (b : Ref) (r : Req H) : Routine W H r.Ans := onWorld ((b.device D).answer r)

def mount (pfx : Str) (dev : Nat) (sub : Str) (order : Order) : Routine W H Unit := fun s =>
  let e : Mount H :=
    { pfx := clean pfx
      B := if elements sub = [] then ⟨dev, [], 0⟩ else ⟨dev, elements sub, s.serial⟩
      root := none
      serial := s.serial }
  let s := { s with serial := s.serial + 1 }
  if order = .replace then (.ok (), { s with mounts := s.mounts.filter (·.pfx ≠ e.pfx) ++ [e] })
  else if s.mounts.all (·.pfx ≠ e.pfx) then (.ok (), { s with mounts := s.mounts ++ [e] })
  else
    match order with
    | .before => (.ok (), { s with mounts := insertBefore e s.mounts })
    | .after => (.ok (), { s with mounts := insertAfter e s.mounts })
    | _ => (.error Ebadarg, s)

def dropRoot (m : Mount H) : Routine W H Unit :=
  match m.root with
  | some h => discard <| attempt (ask D m.B (.clunk h))
  | none => pure ()

def closeBackend (b : Ref) : Routine W H Unit :=
  if (b.device D).close then discard <| attempt (ask D b .close) else pure ()

def unmount (pfx : Str) : Routine W H Unit := do
  let s ← get
  match s.mounts.find? (·.pfx = clean pfx) with
  | none => fail (str "not mounted")
  | some m =>
    dropRoot D m
    closeBackend D m.B
    modify fun s => { s with mounts := s.mounts.eraseP (·.pfx = clean pfx) }

def childUnder (path pfx : Str) : Option Str :=
  let base := if path = root then root else path ++ [slash]
  if pfx = path then none
  else if pfx.take base.length ≠ base then none
  else
    match (pfx.drop base.length).takeWhile (· ≠ slash) with
    | [] => none
    | name => some name

def Space.mountpoints (s : Space W H) (path : Str) : List Stat :=
  (s.mounts.filterMap fun m => childUnder path m.pfx).eraseDups.map fun name => ⟨name, true, 0, 0⟩

def serves (pfx path : Str) : Bool :=
  pfx = root || path = pfx ||
    (path.take pfx.length = pfx && (path.drop pfx.length).head? = some slash)

/-- The length of the longest path with a mount that serves this one. -/
def bestlen (path : Str) (l : List (Mount H)) : Option Nat :=
  l.foldl (fun best m => if serves m.pfx path ∧ best.all (· < m.pfx.length) then some m.pfx.length else best) none

/-- `NS:lookup`, of a path that is clean: the mounts, and what is left of the path. -/
def Space.lookup (s : Space W H) (path : Str) : Option (List (Mount H) × Str) :=
  match bestlen path s.mounts with
  | none => none
  | some best =>
    let group := s.mounts.filter fun m => m.pfx.length = best ∧ serves m.pfx path
    let pfx := (group.getLast?.map (·.pfx)).getD []
    some (group, if pfx = root then path else path.drop pfx.length)

/-! ## Resolving -/

def rootof (m : Mount H) : Routine W H H := do
  match m.root with
  | some h => pure h
  | none =>
    let h : H ← ask D m.B .attach
    modify fun s =>
      { s with mounts := s.mounts.map fun e => if e.serial = m.serial then { e with root := some h } else e }
    pure h

/-- One member of a union resolves the names, from the root of its mount. -/
def resolve (m : Mount H) (names : List Str) : Routine W H H := do
  if names = [] then ask D m.B .attach
  else
    let h ← rootof D m
    onWorld (walknames (m.B.device D) h names)

/-- The members of a union are tried in turn. -/
def tryAll (names : List Str) (path : Str) : List (Mount H) → Str → Routine W H (Chan H)
  | [], lasterr => fail lasterr
  | m :: group, _ => do
    match ← attempt (resolve D m names) with
    | .ok h => pure ⟨m.B, path, h, 0⟩
    | .error e => tryAll names path group e

def noMount (path : Str) : Str := str "no mount for " ++ path

def walk (path : Str) : Routine W H (Chan H) := do
  let s ← get
  match s.lookup (clean path) with
  | none => fail (noMount (clean path))
  | some (group, rest) => tryAll D (elements rest) (clean path) group Enonexist

/-- A file that is closed when the routine is over, however it ends. -/
def closing {α : Type} (c : Chan H) (m : Routine W H α) : Routine W H α := fun s =>
  match m s with
  | (r, s) => (r, (ask D c.B (.clunk c.h) s).2)

/-! ## The public calls -/

def open' (path mode : Str) : Routine W H (Chan H) := do
  let c ← walk D path
  let h : H ← ask D c.B (.open c.h mode)
  pure ⟨c.B, c.path, h, 0⟩

def create (path mode : Str) (isdir : Bool) : Routine W H (Chan H) := do
  match splitLast (clean path) with
  | none => fail Ebadarg
  | some (dir, name) =>
    let d ← walk D (dirOf dir)
    let h : H ← ask D d.B (.create d.h name mode isdir)
    pure ⟨d.B, clean path, h, 0⟩

def remove (path : Str) : Routine W H Unit := do
  let c ← walk D (clean path)
  if (c.B.device D).remove then ask D c.B (.remove c.h) else fail Enotimpl

def renameIn (a adir aname bdir bname : Str) : Routine W H Unit := do
  let da ← walk D adir
  closing D da do
    let db ← walk D bdir
    closing D db do
      if da.B ≠ db.B then fail Exdev
      else if adir = bdir then
        if (da.B.device D).wstat then
          let c ← walk D a
          closing D c (ask D da.B (.wstat c.h bname))
        else fail Enotimpl
      else if (da.B.device D).rename then ask D da.B (.rename da.h aname db.h bname)
      else fail Enotimpl

def rename (src dst : Str) : Routine W H Unit :=
  let a := clean src
  let b := clean dst
  match splitLast a, splitLast b with
  | some (adir, aname), some (bdir, bname) =>
    if b = a then pure ()
    else if b.take (a.length + 1) = a ++ [slash] then fail Eloop
    else renameIn D a (dirOf adir) aname (dirOf bdir) bname
  | _, _ => fail Ebadarg

def lastName (path : Str) : Str :=
  match (path.reverse.takeWhile (· ≠ slash)).reverse with
  | [] => root
  | name => name

def stat (path : Str) : Routine W H Stat := do
  match ← attempt (walk D path >>= fun c => closing D c (ask D c.B (.stat c.h))) with
  | .ok st => pure st
  | .error e =>
    let s ← get
    if s.mountpoints path = [] then fail e
    else pure ⟨lastName (clean path), true, 0, 0⟩

def listing (m : Mount H) (names : List Str) : Routine W H (List Stat) := do
  let h ← rootof D m
  if names = [] then ask D m.B (.readdir h)
  else
    let h ← onWorld (walknames (m.B.device D) h names)
    let ents : List Stat ← ask D m.B (.readdir h)
    let _ : Unit ← ask D m.B (.clunk h)
    pure ents

/-- Entries join those that are there, unless their name is taken. -/
def claim (out ents : List Stat) : List Stat :=
  ents.foldl (fun out e => if out.any (·.name = e.name) then out else out ++ [e]) out

/-- The members of a union are listed in turn: the entries, if one could be listed, and the last
error. -/
def listAll (names : List Str) :
    List (Mount H) → List Stat × Bool × Str → Routine W H (List Stat × Bool × Str)
  | [], r => pure r
  | m :: group, (out, any, lasterr) => do
    match ← attempt (listing D m names) with
    | .ok ents => listAll names group (claim out ents, true, lasterr)
    | .error e => listAll names group (out, any, e)

/-- The mounts below the path join what was listed. -/
def merge (path : Str) : List Stat × Bool × Str → Routine W H (List Stat)
  | (out, any, err) => do
    let s ← get
    let all := claim out (s.mountpoints path)
    if !any && all.length = out.length then fail err
    else pure (all.mergeSort fun a b => !decide (b.name < a.name))

def readdir (path : Str) : Routine W H (List Stat) := do
  let s ← get
  match s.lookup (clean path) with
  | none => merge path ([], false, noMount (clean path))
  | some (group, rest) => listAll D (elements rest) group ([], false, Enonexist) >>= merge path

/-! ## Steps -/

/-- What can be done with a namespace, and with a file that was opened through it. -/
inductive Op where
  | mount (pfx : Str) (dev : Nat) (sub : Str) (order : Order)
  | unmount (pfx : Str)
  | open (path mode : Str)
  | create (path mode : Str) (isdir : Bool)
  | remove (path : Str)
  | rename (src dst : Str)
  | stat (path : Str)
  | readdir (path : Str)
  | read (i : Nat) (n : Int)
  | write (i : Nat) (data : Str)
  | chanStat (i : Nat)
  | chanReaddir (i : Nat)
  | close (i : Nat)
deriving DecidableEq, Repr

def keep (m : Routine W H (Chan H)) : Routine W H Unit := do
  let c ← m
  modify fun s => { s with chans := s.chans ++ [c] }

/-- Something is done with a file that is open. -/
def onChan (i : Nat) (f : Chan H → Routine W H Unit) : Routine W H Unit := do
  let s ← get
  match s.chans[i]? with
  | none => pure ()
  | some c => f c

def advance (i : Nat) (c : Chan H) (n : Int) : Routine W H Unit :=
  modify fun s => { s with chans := s.chans.set i { c with pos := c.pos + n } }

def perform : Op → Routine W H Unit
  | .mount pfx dev sub order => mount pfx dev sub order
  | .unmount pfx => unmount D pfx
  | .open path mode => keep (open' D path mode)
  | .create path mode isdir => keep (create D path mode isdir)
  | .remove path => remove D path
  | .rename src dst => rename D src dst
  | .stat path => discard <| stat D path
  | .readdir path => discard <| readdir D path
  | .read i n => onChan i fun c => do
    let data : Str ← ask D c.B (.read c.h c.pos n)
    advance i c data.length
  | .write i data => onChan i fun c => do
    let n : Int ← ask D c.B (.write c.h c.pos data)
    advance i c n
  | .chanStat i => onChan i fun c => discard <| ask D c.B (.stat c.h)
  | .chanReaddir i => onChan i fun c => discard <| ask D c.B (.readdir c.h)
  | .close i => onChan i fun c => do
    let _ ← attempt (ask D c.B (.clunk c.h))
    modify fun s => { s with chans := s.chans.eraseIdx i }

def step (s : Space W H) (op : Op) : Space W H := (perform D op s).2

def Fresh (s : Space W H) : Prop := s.mounts = [] ∧ s.chans = []

end Nlos.Ns
