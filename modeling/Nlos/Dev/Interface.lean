import Nlos.Lib.Fallible
import Nlos.Lib.Paths

/-!
# The interface of a backend

`src/dev.c`. A backend is a table of methods over handles. A method answers or raises; what it
answers depends on a state of its own, which nobody else sees. Errors are strings.

A backend is one function here, from a request to an answer of the type that the request has, so
that what goes through it can be written down: `logged` is the same backend with a list of the
requests it was given, the newest first, and the handles it made.
-/

namespace Nlos

abbrev Str := List UInt8

def str (s : String) : Str := s.toList.map Char.toUInt8

namespace Dev

def slash : UInt8 := 47

def dot : UInt8 := 46

/-! ## Errors -/

def Enonexist : Str := str "file does not exist"
def Eperm : Str := str "permission denied"
def Ebadarg : Str := str "bad arg in system call"
def Enotimpl : Str := str "not implemented"
def Exdev : Str := str "cross-device link"
def Eloop : Str := str "cannot move a directory into itself"
def Ebadfid : Str := str "unknown fid"

/-! ## Backends -/

structure Stat where
  name : Str
  dir : Bool
  size : Int
  mtime : Int
deriving DecidableEq, Repr

inductive Req (H : Type) where
  | attach
  | walk (h : H) (name : Str)
  | walkmany (h : H) (names : List Str)
  | stat (h : H)
  | open (h : H) (mode : Str)
  | create (h : H) (name mode : Str) (dir : Bool)
  | read (h : H) (off n : Int)
  | write (h : H) (off : Int) (data : Str)
  | readdir (h : H)
  | clunk (h : H)
  | remove (h : H)
  | wstat (h : H) (name : Str)
  | rename (h : H) (name : Str) (dst : H) (newname : Str)
  | close
deriving DecidableEq, Repr

namespace Req

variable {H : Type}

@[reducible] def Ans : Req H → Type
  | .attach | .walk _ _ | .walkmany _ _ | .open _ _ | .create _ _ _ _ => H
  | .stat _ => Stat
  | .read _ _ _ => Str
  | .write _ _ _ => Int
  | .readdir _ => List Stat
  | .clunk _ | .remove _ | .wstat _ _ | .rename _ _ _ _ | .close => Unit

def made : (r : Req H) → r.Ans → Option H
  | .attach, h => some h
  | .walk _ _, h => some h
  | .walkmany _ _, h => some h
  | .open _ _, h => some h
  | .create _ _ _ _, h => some h
  | .stat _, _ | .read _ _ _, _ | .write _ _ _, _ | .readdir _, _ | .clunk _, _ | .remove _, _ | .wstat _ _, _
  | .rename _ _ _ _, _ | .close, _ => none

def handles : Req H → List H
  | .attach | .close => []
  | .walk h _ | .walkmany h _ | .stat h | .open h _ | .create h _ _ _ | .read h _ _ | .write h _ _ | .readdir h
  | .clunk h | .remove h | .wstat h _ => [h]
  | .rename h _ dst _ => [h, dst]

end Req

/-- A backend: the methods that it need not have, and what it answers. -/
structure Device (W H : Type) where
  walkmany : Bool
  remove : Bool
  wstat : Bool
  rename : Bool
  close : Bool
  answer (r : Req H) : Fallible Str W r.Ans

variable {W H : Type}

/-! ## Paths -/

def elements (path : Str) : List Str := (Paths.elems slash path).filter (· ≠ [dot])

/-- What `%s` prints of a string: it stops at a zero byte. -/
def printed (s : Str) : Str := s.takeWhile (· ≠ 0)

def walkFailed (why name : Str) : Str := printed why ++ str ": '" ++ printed name ++ str "'"

def walkLoop (d : Device W H) : H → List Str → Fallible Str W H
  | h, [] => pure h
  | h, name :: names => do
    match ← Fallible.attempt (d.answer (.walk h name)) with
    | .ok h => walkLoop d h names
    | .error why => Fallible.fail (walkFailed why name)

def walknames (d : Device W H) (h : H) (names : List Str) : Fallible Str W H :=
  if names = [] then pure h
  else if d.walkmany then d.answer (.walkmany h names)
  else walkLoop d h names

def walkpath (d : Device W H) (h : H) (path : Str) : Fallible Str W H :=
  walknames d h (elements path)

/-- `devtree.subtree`, for a root with elements. -/
def subtree (d : Device W H) (names : List Str) : Device W H :=
  { d with
    answer := fun
      | .attach => (d.answer .attach : Fallible Str W H) >>= fun h => walknames d h names
      | r => d.answer r }

/-! ## What goes through a backend -/

structure Event (H : Type) where
  dev : Nat
  req : Req H
  made : Option H
deriving DecidableEq, Repr

/-- The backend, with its calls written down. -/
def Device.logged (i : Nat) (d : Device W H) : Device (W × List (Event H)) H :=
  { d with
    answer := fun r s =>
      match d.answer r s.1 with
      | (.ok a, w) => (.ok a, w, ⟨i, r, r.made a⟩ :: s.2)
      | (.error e, w) => (.error e, w, ⟨i, r, none⟩ :: s.2) }

end Dev

end Nlos
