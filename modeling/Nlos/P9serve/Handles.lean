import Nlos.Lib.Ledger
import Nlos.Lib.Runs
import Nlos.P9serve.Responder

/-!
# Who holds a handle

Every handle that the backend gave out ought to be held by one fid until it is given to `clunk`,
once. Tclunk and Tcreate see to that. The others do not always: Tversion and the end of the
connection forget the fids and clunk nothing, Tattach and Twalk put a new handle over the one that a
fid has, and drop one whose `stat` fails, Topen puts the open handle over the other, and a walk of
more than one name, a clone below the root and a rename leave the handles of the names in between to
nobody.
-/

namespace Nlos.P9serve

open Dev Ninep Ledger Function Fallible

variable {W H : Type}

/-! ## What a request changes -/

/-- What a call hands out or gives back. -/
def noted (r : Req H) (made : Option H) : List (Act H) :=
  match r with
  | .clunk h => [.gone h]
  | _ => made.toList.map .made

def acts (log : List (Event H)) : List (Act H) := log.flatMap fun e => noted e.req e.made

/-- The handles that the fids hold, and those that went through the backend. -/
def Server.view (s : Server (W × List (Event H)) H) : View Nat H :=
  ⟨fun f => (s.fids f).map (·.h), acts s.world.2⟩

variable (d : Device W H)

/-- The backend of a run, with its calls written down. -/
abbrev logged : Device (W × List (Event H)) H := d.logged 0

variable {d} {s t : Server (W × List (Event H)) H}

def madeBy (r : Req H) : Except Str r.Ans → Option H
  | .ok a => r.made a
  | .error _ => none

/-- What a call changes: what it hands out or gives back is written down. -/
theorem view_after (r : Req H) (s : Server (W × List (Event H)) H) : (s.after (logged d) r).view =
      ⟨s.view.hold, noted r (madeBy r ((logged d).answer r s.world).1) ++ s.view.acts⟩ := by
  show View.mk _ (acts ((logged d).answer r s.world).2.2) = _
  unfold logged Device.logged
  dsimp only
  rcases d.answer r s.world.1 with ⟨_ | _, _⟩ <;> rfl

/-! ## Parts that change nothing -/

/-- A routine over a backend whose calls are written down. -/
abbrev Noted (W H α : Type) := Routine (W × List (Event H)) H α

/-- `m` leaves the fids as they are, and no handle is handed out or given back. -/
def Still {α : Type} (m : Noted W H α) : Prop :=
  Fallible.Moves (fun s t => t.fids = s.fids ∧ acts t.world.2 = acts s.world.2) m

section Still

variable {α β : Type} {m : Noted W H α}

theorem Still.view (h : Still m) (s : Server (W × List (Event H)) H) : (m s).2.view = s.view := by
  unfold Server.view
  rw [(h s).1, (h s).2]

theorem still_pure (a : α) : Still (pure a : Noted W H α) := fun _ => ⟨rfl, rfl⟩

theorem still_get : Still (get : Noted W H _) := fun _ => ⟨rfl, rfl⟩

theorem still_give (o : Option Str) : Still (give o : Noted W H Str) := by
  cases o <;> exact fun _ => ⟨rfl, rfl⟩

theorem still_err (tag : Nat) (e : Str) : Still (err tag e : Noted W H Str) := still_give _

theorem Still.bind {f : α → Noted W H β} (hm : Still m) (hf : ∀ a, Still (f a)) : Still (m >>= f) :=
  moves_bind (fun h1 h2 => ⟨h2.1.trans h1.1, h2.2.trans h1.2⟩) hm hf

theorem Still.attempt (hm : Still m) : Still (attempt m) := moves_attempt hm

theorem still_qidof (path : Str) (dir : Bool) : Still (qidof path dir : Noted W H QidArg) := by
  refine Still.bind (fun s => ?_) fun _ => still_pure _
  unfold qidpath
  split <;> exact ⟨rfl, rfl⟩

theorem still_statbytes (path : Str) (st : Stat) : Still (statbytes path st : Noted W H Str) :=
  (still_qidof path st.dir).bind fun _ => still_pure _

theorem still_records (path : Str) (n : Nat) (es : List Stat) :
    Still (records path n es : Noted W H (List (Nat × Str))) := by
  induction es generalizing n with
  | nil => exact still_pure _
  | cons e es ih => exact (still_statbytes _ _).bind fun b => (ih _).bind fun _ => still_pure _

/-- A method that neither gives a handle nor takes one back. -/
theorem still_ask {r : Req H} (h : ∀ v, noted r (madeBy r v) = []) : Still (ask (logged d) r) := by
  intro s
  have hs := congrArg View.acts (view_after (d := d) r s)
  rw [h] at hs
  exact ⟨rfl, hs⟩

theorem still_stat (h : H) : Still (ask (logged d) (.stat h)) :=
  still_ask fun v => by cases v <;> rfl

theorem still_readdir (h : H) : Still (ask (logged d) (.readdir h)) :=
  still_ask fun v => by cases v <;> rfl

theorem still_read (h : H) (off n : Int) : Still (ask (logged d) (.read h off n)) :=
  still_ask fun v => by cases v <;> rfl

theorem still_write (h : H) (off : Int) (data : Str) : Still (ask (logged d) (.write h off data)) :=
  still_ask fun v => by cases v <;> rfl

theorem still_wstat (h : H) (name : Str) : Still (ask (logged d) (.wstat h name)) :=
  still_ask fun v => by cases v <;> rfl

theorem still_opened (reply : Nat → QidArg → Option Nat → Option Str) (tag : Nat) (path : Str)
    (h : H) (dir : Bool) : Still (opened (logged d) reply tag path h dir) :=
  (still_stat h).attempt.bind fun _ => (still_qidof _ _).bind fun _ =>
    still_get.bind fun _ => still_give _

end Still

variable {g : Fid H} {e name : Str} {newfid mode : Nat} {names : List Str}

theorem view_update (fid : Nat) (g : Option (Fid H)) :
    (setFid fid g s).2.view = ⟨update s.view.hold fid (g.map (·.h)), s.view.acts⟩ := by
  show View.mk (fun i => (update s.fids fid g i).map (·.h)) _ = View.mk _ _
  congr 1
  funext i
  by_cases hi : i = fid
  · subst hi
    rw [update_self, update_self]
  · rw [update_of_ne hi, update_of_ne hi]
    rfl

theorem view_hold {fid : Nat} {f : Fid H} (hf : s.fids fid = some f) : s.view.hold fid = some f.h :=
  Option.map_eq_some_iff.mpr ⟨f, hf, rfl⟩

theorem view_setFid {fid : Nat} {g : Option (Fid H)} (hg : s.view.hold fid = g.map (·.h)) :
    (setFid fid g s).2.view = s.view := by
  rw [view_update, ← hg, update_eq_self]

/-! ## Requests -/

section

variable {W : Type} (d : Device W H) (s : Server W H)

def Refuses (r : Req H) : Prop := ∃ e, (d.answer r s.world).1 = .error e

/-- An attach: it fails, or the fid is free and the handle can be looked at. -/
def TidyAttach (fid : Nat) : Prop :=
  ∀ h, (d.answer .attach s.world).1 = .ok h → s.fids fid = none ∧
    ¬Refuses d (s.after d .attach) (.stat h)

/-- A walk: its first step fails, or it is the only one and the fid is free and the handle can be
looked at. A clone: it fails at the root, or stays there and the fid is free. -/
def TidyWalk (newfid : Nat) (f : Fid H) : List Str → Prop
  | [] => Refuses d s .attach ∨ elements f.path = [] ∧ s.fids newfid = none
  | name :: names => ∀ h, (d.answer (.walk f.h name) s.world).1 = .ok h →
      names = [] ∧ s.fids newfid = none ∧ ¬Refuses d (s.after d (.walk f.h name)) (.stat h)

/-- A rename: it fails, or the fid is open, or the walk to the new name does not begin or has
nothing to do. -/
def TidyRename (f : Fid H) (name : Str) : Prop :=
  Refuses d s (.wstat f.h name) ∨ f.isOpen = true ∨
    Refuses d (s.after d (.wstat f.h name)) .attach ∨ elements (renamed f.path name) = []

end

theorem turn_of_still {α : Type} {m : Noted W H α} (h : Still m) : Turn s.view (m s).2.view := by
  rw [h.view s]
  exact .quiet

/-- A call that gave a handle, and a fid that had none and holds it now. -/
theorem turn_gain {r : Req H} {a : r.Ans} {fid : Nat} (ha : ((logged d).answer r s.world).1 = .ok a)
    (hn : noted r (r.made a) = [.made g.h]) (hfree : s.fids fid = none)
    (ht : t.view = (s.after (logged d) r).view) : Turn s.view (setFid fid (some g) t).2.view := by
  rw [view_update, ht, view_after, ha]
  show Turn _ ⟨update s.view.hold fid (some g.h), noted r (r.made a) ++ s.view.acts⟩
  rw [hn]
  refine .gain ?_
  rw [hfree]
  rfl

theorem turn_failed {r : Req H} (he : ((logged d).answer r s.world).1 = .error e)
    (hn : noted r none = []) (ht : t.view = (s.after (logged d) r).view) : Turn s.view t.view := by
  rw [ht, view_after, he]
  show Turn _ ⟨s.view.hold, noted r none ++ s.view.acts⟩
  rw [hn]
  exact .quiet

theorem turn_attach {tag fid : Nat} (h : TidyAttach (logged d) s fid) :
    Turn s.view (attach (logged d) tag fid s).2.view := by
  unfold attach
  rw [bind_ask]
  cases hv : ((logged d).answer .attach s.world).1 with
  | error e => exact turn_failed hv rfl ((still_err tag e).view _)
  | ok a =>
    obtain ⟨hfree, hstat⟩ := h a hv
    dsimp only
    rw [bind_ask]
    cases hw : ((logged d).answer (.stat a) (s.after (logged d) .attach).world).1 with
    | error e => exact absurd ⟨e, hw⟩ hstat
    | ok st =>
      dsimp only
      rw [bind_setFid, ((still_qidof (str "/") st.dir).bind fun q => still_give (rattach tag q)).view]
      exact turn_gain hv rfl hfree ((still_stat a).view _)

theorem clone_root {d : Device W H} {s : Server W H} {f : Fid H}
    (h : Refuses d s .attach ∨ elements f.path = []) :
    onWorld ((d.answer .attach : Fallible Str W H) >>= fun h => walknames d h (elements f.path)) s =
      ask d .attach s := by
  have hm : ((d.answer .attach : Fallible Str W H) >>= fun h => walknames d h (elements f.path)) s.world =
      d.answer .attach s.world := by
    rw [bind_apply]
    rcases h with ⟨e, he⟩ | he
    · cases hr : d.answer .attach s.world with
      | mk v w =>
        rw [hr] at he
        cases he
        rfl
    · rw [he]
      cases d.answer .attach s.world with
      | mk v w => cases v <;> rfl
  show (_, _) = (_, _)
  rw [hm]

theorem turn_clone {tag : Nat} {f : Fid H} (h : TidyWalk (logged d) s newfid f []) :
    Turn s.view (clone (logged d) tag newfid f s).2.view := by
  unfold clone
  rw [bind_attempt, clone_root (h.imp_right And.left)]
  have e : ask (logged d) .attach s =
      (((logged d).answer .attach s.world).1, s.after (logged d) .attach) := rfl
  rw [e]
  cases hv : ((logged d).answer .attach s.world).1 with
  | error e => exact turn_failed hv rfl ((still_err tag e).view _)
  | ok a =>
    rcases h with ⟨e, he⟩ | ⟨-, hfree⟩
    · exact absurd (he.symm.trans hv) nofun
    · dsimp only
      rw [bind_setFid, (still_give _).view]
      exact turn_gain hv rfl hfree rfl

variable {cur : H}

theorem steps_error {d : Device W H} {s : Server W H} {path : Str} {dir : Bool}
    (h : (d.answer (.walk cur name) s.world).1 = .error e) :
    steps d cur path dir (name :: names) s =
      (.ok ([], cur, path, dir), s.after d (.walk cur name)) := by
  rw [steps, bind_ask, h]
  rfl

theorem steps_one {nh : H} (path : Str) (dir : Bool)
    (h : ((logged d).answer (.walk cur name) s.world).1 = .ok nh)
    (hs : ¬Refuses (logged d) (s.after (logged d) (.walk cur name)) (.stat nh)) :
    ∃ q p b t, steps (logged d) cur path dir [name] s = (.ok ([q], nh, p, b), t) ∧
      t.view = (s.after (logged d) (.walk cur name)).view := by
  rw [steps, bind_ask, h]
  dsimp only
  rw [bind_ask]
  have hview := (still_stat (d := d) nh).view (s.after (logged d) (.walk cur name))
  cases hw : ((logged d).answer (.stat nh) (s.after (logged d) (.walk cur name)).world).1 with
  | error e => exact absurd ⟨e, hw⟩ hs
  | ok st =>
    dsimp only
    have hstill := (still_qidof (childpath path name) st.dir).view
      ((s.after (logged d) (.walk cur name)).after (logged d) (.stat nh))
    obtain ⟨q, t, hq, -⟩ := qidof_spec (childpath path name) st.dir
      ((s.after (logged d) (.walk cur name)).after (logged d) (.stat nh))
    rw [hq] at hstill
    rw [bind_ok hq]
    exact ⟨q, childpath path name, st.dir, t, rfl, hstill.trans hview⟩

theorem turn_walkOn {tag : Nat} {f : Fid H} (h : TidyWalk (logged d) s newfid f (name :: names)) :
    Turn s.view (walkOn (logged d) tag newfid (name :: names) f s).2.view := by
  unfold walkOn
  cases hv : ((logged d).answer (.walk f.h name) s.world).1 with
  | error e =>
    rw [bind_ok (steps_error hv)]
    exact turn_failed hv rfl ((still_give _).view _)
  | ok nh =>
    obtain ⟨rfl, hfree, hstat⟩ := h nh hv
    obtain ⟨q, p, b, t, hsteps, ht⟩ := steps_one f.path f.dir hv hstat
    rw [bind_ok hsteps]
    show Turn s.view
      ((setFid newfid (some ⟨nh, p, b, false, none⟩) >>= fun _ => give (rwalk tag [q])) t).2.view
    rw [bind_setFid, (still_give _).view]
    exact turn_gain hv rfl hfree ht

theorem turn_walk {tag : Nat} {wname : List Str} {f : Fid H}
    (h : TidyWalk (logged d) s newfid f wname) :
    Turn s.view (walk (logged d) tag newfid wname f s).2.view := by
  cases wname with
  | nil => exact turn_clone h
  | cons name names => exact turn_walkOn h

theorem turn_open {tag fid : Nat} {f : Fid H} (h : Refuses (logged d) s (.open f.h (modeOf mode))) :
    Turn s.view (open' (logged d) tag fid mode f s).2.view := by
  obtain ⟨e, he⟩ := h
  unfold open'
  rw [bind_ask, he]
  exact turn_failed he rfl ((still_err tag e).view _)

/-- A fid that gives its handle back and gets another that was just handed out. -/
theorem turn_swap {fid : Nat} {f : Fid H} (hf : s.fids fid = some f)
    (ht : t.view = ⟨s.view.hold, .made g.h :: s.view.acts⟩) :
    Turn s.view (setFid fid (some g) (t.after (logged d) (.clunk f.h))).2.view := by
  rw [view_update, view_after, ht]
  exact .swap (view_hold hf)

theorem turn_create {tag fid perm : Nat} {f : Fid H} (hf : s.fids fid = some f) :
    Turn s.view (create (logged d) tag fid name perm mode f s).2.view := by
  unfold create
  rw [bind_ask]
  have hview := view_after (d := d) (.create f.h name (modeOf mode) (perm &&& DMDIR ≠ 0)) s
  cases hv : ((logged d).answer (.create f.h name (modeOf mode) (perm &&& DMDIR ≠ 0)) s.world).1 with
  | error e => exact turn_failed hv rfl ((still_err tag e).view _)
  | ok nh =>
    rw [hv] at hview
    dsimp only
    rw [bind_ask, bind_setFid, (still_opened _ _ _ _ _).view]
    exact turn_swap hf hview

theorem turn_clunk {tag fid : Nat} : Turn s.view (clunk (logged d) tag fid s).2.view := by
  unfold clunk
  rw [bind_ok (get_apply s), bind_setFid]
  cases hf : s.fids fid with
  | none =>
    dsimp only
    rw [(still_give _).view, view_setFid (s := s) (g := none) (Option.map_eq_none_iff.mpr hf)]
    exact .quiet
  | some f =>
    dsimp only
    rw [bind_ask, (still_give _).view, view_after, view_update]
    exact .lose (view_hold hf)

/-! Reading keeps the handle of the fid. -/

theorem view_dirrecs {fid : Nat} {f : Fid H} (hf : s.fids fid = some f) :
    (dirrecs (logged d) fid f s).2.view = s.view := by
  unfold dirrecs
  cases f.dirrecs with
  | some recs => rfl
  | none =>
    refine bind_after (P := (Server.view · = s.view)) ((still_readdir f.h).view s) fun ents t ht =>
      ?_
    refine bind_after (P := (Server.view · = s.view))
      (((still_records f.path 0 ents).view t).trans ht) fun recs u hu => ?_
    refine (view_setFid (g := some { f with dirrecs := some recs }) ?_).trans hu
    rw [hu]
    exact view_hold (f := f) hf

theorem view_fetch {fid : Nat} {f : Fid H} (offset n : Int) (hf : s.fids fid = some f) :
    (fetch (logged d) fid f offset n s).2.view = s.view := by
  unfold fetch
  cases f.dir with
  | true => exact bind_after (P := (Server.view · = s.view)) (view_dirrecs hf) fun _ _ h => h
  | false => exact (still_read f.h offset n).view s

section

variable {tag fid : Nat} {f : Fid H} (hf : s.fids fid = some f)

include hf

theorem turn_read {count : Nat} {offset : Int} :
    Turn s.view (read (logged d) tag fid offset count f s).2.view := by
  unfold read
  rw [bind_ok (get_apply s), bind_attempt,
    ← view_fetch offset (if iounit s < count then iounit s else count) hf]
  generalize fetch (logged d) fid f offset (if iounit s < count then iounit s else count) s = x
  obtain ⟨v, t⟩ := x
  cases v with
  | error e => exact turn_of_still (still_err tag e)
  | ok data => exact .quiet

theorem turn_rewalk (hg : g.h = f.h) (h : Refuses (logged d) s .attach ∨ elements g.path = []) :
    Turn s.view (rewalk (logged d) tag fid g s).2.view := by
  unfold rewalk
  have hview := view_after (d := d) .attach s
  cases hv : ((logged d).answer .attach s.world).1 with
  | error e =>
    rw [bind_error (ask_eq hv)]
    exact turn_failed hv rfl rfl
  | ok root =>
    rcases h with ⟨e, he⟩ | he
    · exact absurd (he.symm.trans hv) nofun
    · rw [hv] at hview
      rw [bind_ok (ask_eq hv), bind_attempt]
      have hw : onWorld (walkpath (logged d) root g.path) (s.after (logged d) .attach) =
          ((.ok root : Except Str H), s.after (logged d) .attach) := by
        unfold walkpath
        rw [he]
        rfl
      rw [hw]
      dsimp only
      rw [bind_ask, bind_setFid, (still_give _).view, hg]
      exact turn_swap hf hview

theorem turn_rename (h : TidyRename (logged d) s f name) :
    Turn s.view (rename (logged d) tag fid name f s).2.view := by
  unfold rename
  rw [bind_ask]
  cases hv : ((logged d).answer (.wstat f.h name) s.world).1 with
  | error e => exact turn_failed hv rfl ((still_err tag e).view _)
  | ok u =>
    dsimp only
    have hs : (setFid fid (some { f with path := renamed f.path name }) (s.after (logged d) (.wstat f.h name))).2.view =
        s.view := by
      refine (view_setFid ?_).trans ((still_wstat f.h name).view s)
      exact view_hold (f := f) hf
    rw [← hs]
    split
    · exact turn_of_still (still_give _)
    next hopen =>
    refine turn_rewalk (update_self ..) rfl ?_
    rcases h with ⟨e, he⟩ | h | h | h
    · exact absurd (he.symm.trans hv) nofun
    · exact absurd h hopen
    · exact .inl h
    · exact .inr h

theorem turn_wstat {sb : Str}
    (h : ∀ st, npUnpackstat sb = some st → st.name ≠ [] → d.wstat = true → TidyRename (logged d) s f st.name) :
    Turn s.view (wstat (logged d) tag fid sb f s).2.view := by
  unfold wstat
  cases hst : npUnpackstat sb with
  | none => exact turn_of_still (still_give _)
  | some st =>
    dsimp only
    split
    · exact turn_of_still (still_give _)
    next hname =>
    split
    next hw => exact turn_rename hf (h st hst hname hw)
    · exact turn_of_still (still_give _)

end

theorem turn_version {tag msize : Nat} {v : Str} (h : ∀ f, s.fids f = none) :
    Turn s.view (version tag msize v s).2.view := by
  unfold version
  rw [bind_ok (modify_apply _ s), bind_ok (get_apply _), (still_give _).view]
  have hfids : s.fids = fun _ => none := funext h
  unfold Server.view
  rw [hfids]
  exact .quiet

theorem turn_stat {tag : Nat} {f : Fid H} : Turn s.view (stat (logged d) tag f s).2.view := by
  refine turn_of_still (Still.bind (still_stat f.h).attempt fun v => ?_)
  cases v with
  | error e => exact still_err tag e
  | ok st => exact (still_statbytes f.path st).bind fun b => still_give _

theorem turn_write {tag : Nat} {offset : Int} {data : Str} {f : Fid H} :
    Turn s.view (write (logged d) tag offset data f s).2.view := by
  refine turn_of_still (Still.bind (still_write f.h offset data).attempt fun v => ?_)
  cases v with
  | error e => exact still_err tag e
  | ok n => exact still_give _

theorem turn_withFid {tag fid : Nat} {m : Fid H → Noted W H Str}
    (h : ∀ f, s.fids fid = some f → Turn s.view (m f s).2.view) :
    Turn s.view (withFid tag fid m s).2.view := by
  unfold withFid
  rw [bind_ok (get_apply s)]
  cases hf : s.fids fid with
  | none => exact turn_of_still (still_give _)
  | some f => exact h f hf

/-- A request with which no handle gets lost. -/
def TidyMsg {W : Type} (d : Device W H) (s : Server W H) (m : Msg) : Prop :=
  match Kind.ofCode m.type, m.body with
  | some .Tversion, .version _ _ => ∀ f, s.fids f = none
  | some .Tattach, .attach fid _ _ _ => TidyAttach d s fid
  | some .Twalk, .walk fid newfid wname => ∀ f, s.fids fid = some f → TidyWalk d s newfid f wname
  | some .Topen, .open fid mode => ∀ f, s.fids fid = some f → Refuses d s (.open f.h (modeOf mode))
  | some .Twstat, .wstat fid sb => ∀ f, s.fids fid = some f →
      ∀ st, npUnpackstat sb = some st → st.name ≠ [] → d.wstat = true → TidyRename d s f st.name
  | _, _ => True

/-- A request with which no handle gets lost, or the end of a connection that has no fids. -/
def Tidy {W : Type} (d : Device W H) (s : Server W H) : Op → Prop
  | .request msg => ∀ m, npDecode msg = some m → TidyMsg d s m
  | .eof => ∀ f, s.fids f = none

def Turns (s : Server (W × List (Event H)) H) (m : Noted W H Str) : Prop := Turn s.view (m s).2.view

theorem turns_handle {m : Msg} (h : TidyMsg (logged d) s m) : Turns s (handle (logged d) m) := by
  unfold handle
  unfold TidyMsg at h
  split
  next hk hb =>
    rw [hk, hb] at h
    exact turn_version h
  · exact turn_of_still (still_give _)
  next hk hb =>
    rw [hk, hb] at h
    exact turn_attach h
  · exact turn_of_still (still_give _)
  next hk hb =>
    rw [hk, hb] at h
    exact turn_withFid fun f hf => turn_walk (h f hf)
  next hk hb =>
    rw [hk, hb] at h
    exact turn_withFid fun f hf => turn_open (h f hf)
  · exact turn_withFid fun f hf => turn_create hf
  · exact turn_withFid fun f hf => turn_read hf
  · exact turn_withFid fun f hf => turn_write
  · exact turn_clunk
  · exact turn_withFid fun f hf => turn_stat
  next hk hb =>
    rw [hk, hb] at h
    exact turn_withFid fun f hf => turn_wstat hf (h f hf)
  · exact turn_of_still (still_give _)

theorem turn_step {op : Op} (h : Tidy (logged d) s op) :
    Turn s.view (step (logged d) s op).view := by
  cases op with
  | request msg =>
    show Turn s.view (respond (logged d) msg s).2.view
    unfold respond
    cases hm : npDecode msg with
    | none => exact .quiet
    | some m => exact turns_handle (h m hm)
  | eof =>
    have hfids : s.fids = fun _ => none := funext h
    unfold Server.view
    rw [hfids]
    exact .quiet

/-! ## Runs -/

/-- A responder before its first message, over a backend nothing was asked of. -/
def Untouched (s : Server (W × List (Event H)) H) : Prop := Fresh s ∧ s.world.2 = []

theorem settled_of_untouched (h : Untouched s) : Settled s.view := by
  have hold : ∀ i, s.view.hold i = none := fun i => by
    show (s.fids i).map _ = none
    rw [h.1.2.1 i]
    rfl
  have hacts : s.view.acts = [] := congrArg acts h.2
  refine ⟨fun h1 => absurd ((hold _).symm.trans h1) nofun, fun h1 => absurd ((hold _).symm.trans h1) nofun, ?_, ?_, ?_⟩
  · rw [hacts]
    exact List.nodup_nil
  all_goals
    rw [hacts]
    nofun

/-- In a run of tidy requests over a backend whose handles are all new, the fids and the log are
settled. -/
theorem settled_of_runs (hr : Runs Untouched (Tidy (logged d)) (step (logged d)) s) :
    (mades (acts s.world.2)).Nodup → Settled s.view := by
  refine hr.invariant (I := fun s => (mades (acts s.world.2)).Nodup → Settled s.view)
    (fun h _ => settled_of_untouched h) fun {s op} ih hop hn => ?_
  have ht := turn_step hop
  exact (ih (hn.sublist ht.mades.sublist)).turn ht hn

/-- Over every backend, in every run of tidy requests in which each handle that the backend gave was
a new one, each handle is held by one fid and was never clunked, or is held by none and was clunked
once. -/
theorem handles_settled [DecidableEq H] (d : Device W H) (s : Server (W × List (Event H)) H)
    (hr : Runs Untouched (Tidy (logged d)) (step (logged d)) s)
    (hnew : (mades (acts s.world.2)).Nodup) :
    (∀ i j f g, s.fids i = some f → s.fids j = some g → f.h = g.h → i = j) ∧
    ∀ h ∈ mades (acts s.world.2),
      ((∃! i, ∃ f, s.fids i = some f ∧ f.h = h) ∧ (gones (acts s.world.2)).count h = 0) ∨
      ((∀ i f, s.fids i = some f → f.h ≠ h) ∧ (gones (acts s.world.2)).count h = 1) := by
  have hs := settled_of_runs hr hnew
  have one : ∀ i j f g, s.fids i = some f → s.fids j = some g → f.h = g.h →
      i = j := fun i j f g hf hg e =>
    hs.one (view_hold hf) (e ▸ view_hold hg)
  refine ⟨one, fun h hm => ?_⟩
  by_cases hg : h ∈ gones (acts s.world.2)
  · refine .inr ⟨fun i f hf e => ?_, List.count_eq_one_of_mem hs.once hg⟩
    exact (hs.held (view_hold hf)).2 (e ▸ hg)
  · refine .inl ⟨?_, List.count_eq_zero_of_not_mem hg⟩
    rcases hs.all hm with hg' | ⟨i, hi⟩
    · exact absurd hg' hg
    · obtain ⟨f, hf, rfl⟩ := Option.map_eq_some_iff.mp hi
      exact ⟨i, ⟨f, hf, rfl⟩, fun j ⟨g, hg, e⟩ => one j i g f hg hf e⟩

/-- A backend of directories that numbers its handles. -/
def numbering : Device Nat Nat where
  walkmany := false
  remove := false
  wstat := true
  rename := false
  close := false
  answer
    | .attach => fun n => (.ok n, n + 1)
    | .walk _ _ => fun n => (.ok n, n + 1)
    | .walkmany _ _ => fun n => (.ok n, n + 1)
    | .open _ _ => fun n => (.ok n, n + 1)
    | .create _ _ _ _ => fun n => (.ok n, n + 1)
    | .stat _ => fun n => (.ok ⟨str "x", true, 0, 0⟩, n)
    | .read _ _ _ => fun n => (.ok [], n)
    | .write _ _ _ => fun n => (.ok 0, n)
    | .readdir _ => fun n => (.ok [], n)
    | .clunk _ => fun n => (.ok (), n)
    | .remove _ => fun n => (.ok (), n)
    | .wstat _ _ => fun n => (.ok (), n)
    | .rename _ _ _ _ => fun n => (.ok (), n)
    | .close => fun n => (.ok (), n)

def numbered : Server (Nat × List (Event Nat)) Nat := ⟨(0, []), MSIZE, fun _ => none, [], 0⟩

/-- An attach, a walk of one name, and the clunk of what was found. -/
def browse : List Op :=
  [.request ((tattach 1 0 none none none none).getD []), .request ((twalk 1 0 1 [str "x"]).getD []),
    .request ((tclunk 1 1).getD [])]

theorem browsed_settled :
    (∃! i, ∃ f, (browse.foldl (step (logged numbering)) numbered).fids i = some f ∧ f.h = 0) ∧
    ∀ i f, (browse.foldl (step (logged numbering)) numbered).fids i = some f → f.h ≠ 1 := by
  have hdec : ∀ {msg m m'}, npDecode msg = some m → npDecode msg = some m' → m = m' := fun h h' =>
    Option.some.inj (h.symm.trans h')
  have hrun : Runs Untouched (Tidy (logged numbering)) (step (logged numbering))
      (browse.foldl (step (logged numbering)) numbered) := by
    refine Runs.along (.init ⟨⟨rfl, fun _ => rfl, rfl, rfl⟩, rfl⟩) ⟨?_, ?_, ?_, trivial⟩
    · intro m hm
      rw [hdec hm (show npDecode _ = some ⟨104, 1, 19, .attach 0 NOFID [] []⟩ by decide +kernel)]
      exact fun h _ => ⟨rfl, nofun⟩
    · intro m hm
      rw [hdec hm (show npDecode _ = some ⟨110, 1, 20, .walk 0 1 [str "x"]⟩ by decide +kernel)]
      exact fun f _ h _ => ⟨rfl, by decide +kernel, nofun⟩
    · intro m hm
      rw [hdec hm (show npDecode _ = some ⟨120, 1, 11, .fid 1⟩ by decide +kernel)]
      exact trivial
  have h := (handles_settled numbering _ hrun (by decide +kernel)).2
  constructor
  · rcases h 0 (by decide +kernel) with h0 | h0
    · exact h0.1
    · exact absurd h0.2 (by decide +kernel)
  · rcases h 1 (by decide +kernel) with h1 | h1
    · exact absurd h1.2 (by decide +kernel)
    · exact h1.1

/-- An attach, and an open of the fid: the handle of the attach is held by nobody and was not
clunked. -/
theorem open_forgets :
    let s := [Op.request ((tattach 1 0 none none none none).getD []), .request ((topen 1 0 none).getD [])].foldl
      (step (logged numbering)) numbered
    mades (acts s.world.2) = [1, 0] ∧ gones (acts s.world.2) = [] ∧ (s.fids 0).map (·.h) = some 1 ∧
    ∀ i, i ≠ 0 → s.fids i = none := by
  refine ⟨by decide +kernel, by decide +kernel, by decide +kernel, fun i hi => ?_⟩
  exact (update_of_ne hi _ _).trans (update_of_ne hi _ _)

end Nlos.P9serve
