import Nlos.Ninep.Codec

/-!
# Two codecs, one layout

`layout` is what the fields of each type are. The C decoder reads it: a field that runs over the end
sets `bad`, and that is a refusal. The Lua decoder reads it too, with three exceptions. It takes the
payload of a Twrite or an Rread with `sub`, which clamps, so that a message whose count runs over
its end is cut short and accepted; and it does not know Rwstat.
-/

namespace Nlos.Ninep

open Readers List Bytes

/-! ## The layout -/

/-- The fields of each type. -/
def layout : Option Kind → Strict Body
  | some .Twrite => do
    let fid ← num 4
    let offset ← word
    let data ← counted 4
    return .write fid offset data
  | some .Rread => do
    let data ← counted 4
    return .data data
  | some .Rwstat => return .empty
  | k => fields k

theorem follows_rdbytes (n : Nat) : Follows (rdbytes n) (bytes n) where
  reads {bs a rest} h := by
    rcases Nat.lt_or_ge bs.length n with hlt | hge
    · rw [bytes_none hlt] at h
      cases h
    · rw [bytes_eq hge] at h
      cases h
      unfold rdbytes
      rw [if_neg (by simpa using hge)]
  refuses {bs} h := by
    rcases Nat.lt_or_ge bs.length n with hlt | hge
    · unfold rdbytes
      rw [if_pos (by simpa using hlt)]
    · rw [bytes_eq hge] at h
      cases h
  stuck {k} h := by
    unfold rdbytes
    rw [if_pos (by rw [h, Bool.true_or])]

/-- A number is what its bytes stand for, and none are zero. -/
theorem follows_rdint (n : Nat) : Follows (rdint n) (num n) := by
  have h : rdint n = (do return ofLe (← rdbytes n)) := by
    funext r
    show rdint n r = (ofLe (rdbytes n r).1, (rdbytes n r).2)
    unfold rdint rdbytes
    split <;> rfl
  rw [h]
  exact (follows_rdbytes n).map ofLe

theorem follows_rdstr : Follows rdstr (counted 2) := (follows_rdint 2).bind follows_rdbytes

theorem follows_rddata : Follows rddata (counted 4) := (follows_rdint 4).bind follows_rdbytes

theorem follows_rdstat : Follows rdstat getstat :=
  (follows_rdint 2).bind fun _ => (follows_rdint 2).bind follows_rdbytes

theorem follows_rdword : Follows rdword word := (follows_rdint 8).map (BitVec.ofNat 64)

theorem follows_rdqid : Follows rdqid getqid :=
  (follows_rdint 1).bind fun _ => (follows_rdint 4).bind fun _ => follows_rdword.bind fun _ =>
    follows_pure _

/-- Each case of `np_decode` reads the fields of its type. -/
theorem follows_npFields (k : Option Kind) : Follows (npFields k) (layout k) := by
  have int := follows_rdint
  have text := follows_rdstr
  have done := @follows_pure Body
  rcases k with - | k
  · exact done _
  cases k with
  | Tversion | Rversion => exact (int 4).bind fun _ => text.bind fun _ => done _
  | Tauth => exact (int 4).bind fun _ => text.bind fun _ => text.bind fun _ => done _
  | Tattach =>
    exact (int 4).bind fun _ => (int 4).bind fun _ => text.bind fun _ => text.bind fun _ => done _
  | Rattach => exact follows_rdqid.bind fun _ => done _
  | Rerror => exact text.bind fun _ => done _
  | Tflush => exact (int 2).bind fun _ => done _
  | Twalk =>
    exact (int 4).bind fun _ => (int 4).bind fun _ => (int 2).bind fun n =>
      (follows_loop text n).bind fun _ => done _
  | Rwalk => exact (int 2).bind fun n => (follows_loop follows_rdqid n).bind fun _ => done _
  | Topen => exact (int 4).bind fun _ => (int 1).bind fun _ => done _
  | Ropen | Rcreate => exact follows_rdqid.orStop _ fun _ => (int 4).bind fun _ => done _
  | Tcreate => exact (int 4).bind fun _ => text.bind fun _ => (int 4).bind fun _ => (int 1).bind fun _ => done _
  | Tread => exact (int 4).bind fun _ => follows_rdword.bind fun _ => (int 4).bind fun _ => done _
  | Rread => exact follows_rddata.bind fun _ => done _
  | Twrite =>
    exact (int 4).bind fun _ => follows_rdword.bind fun _ => follows_rddata.bind fun _ => done _
  | Rwrite | Tclunk | Tremove | Tstat => exact (int 4).bind fun _ => done _
  | Rstat => exact follows_rdstat.bind fun _ => done _
  | Twstat => exact (int 4).bind fun _ => follows_rdstat.bind fun _ => done _
  | _ => exact done _

/-! ## The decoders -/

def typeOf (b : Str) : Nat := ofLe ((b.drop 4).take 1)

def withHeader (b : Str) (r : Option (Body × Str)) : Option (Msg × Str) :=
  r.map fun x => (⟨typeOf b, ofLe ((b.drop 5).take 2), ofLe (b.take 4), x.1⟩, x.2)

theorem message_none {body : Option Kind → Strict Body} {b : Str} (h : b.length < 7) :
    message body b = none := by
  unfold message
  rcases Nat.lt_or_ge b.length 4 with h4 | h4
  · exact bind_none (num_none h4)
  rw [bind_some (num_eq h4)]
  rcases Nat.lt_or_ge b.length 5 with h5 | h5
  · exact bind_none (num_none (by rw [length_drop]; omega))
  rw [bind_some (num_eq (by rw [length_drop]; omega))]
  exact bind_none (num_none (by rw [length_drop, length_drop]; omega))

theorem message_eq {body : Option Kind → Strict Body} {b : Str} (h : 7 ≤ b.length) :
    message body b = withHeader b (body (Kind.ofCode (typeOf b)) (b.drop 7)) := by
  unfold message
  rw [bind_some (num_eq (by omega)), bind_some (num_eq (by rw [length_drop]; omega)),
    bind_some (num_eq (by rw [length_drop, length_drop]; omega)), drop_drop, drop_drop]
  show (body (Kind.ofCode (typeOf b)) (b.drop 7) >>= _) = _
  cases body (Kind.ofCode (typeOf b)) (b.drop 7) <;> rfl

theorem follows_npHeader : Follows npHeader (do
    let size ← num 4
    let typ ← num 1
    let tag ← num 2
    return (size, typ, tag)) :=
  (follows_rdint 4).bind fun _ => (follows_rdint 1).bind fun _ => (follows_rdint 2).bind fun _ =>
    follows_pure _

/-- The C decoder reads the layout. -/
theorem npDecode_eq (b : Str) : npDecode b = (message layout b).map (·.1) := by
  have hm : message layout b = ((do
      let size ← num 4
      let typ ← num 1
      let tag ← num 2
      return (size, typ, tag)) >>= fun x : Nat × Nat × Nat => do
        let body ← layout (Kind.ofCode x.2.1)
        return (⟨x.2.1, x.2.2, x.1, body⟩ : Msg) : Strict Msg) b := by
    unfold message
    simp only [bind_assoc, pure_bind]
  rw [hm]
  unfold npDecode
  cases hh : (do
      let size ← num 4
      let typ ← num 1
      let tag ← num 2
      return (size, typ, tag) : Strict (Nat × Nat × Nat)) b with
  | none =>
    have := follows_npHeader.refuses hh
    rw [bind_none hh]
    generalize npHeader ⟨b, false⟩ = x at this ⊢
    obtain ⟨⟨size, typ, tag⟩, r⟩ := x
    exact if_pos this
  | some x =>
    obtain ⟨⟨size, typ, tag⟩, rest⟩ := x
    rw [follows_npHeader.reads hh, bind_some hh]
    have hf := follows_npFields (Kind.ofCode typ)
    dsimp only
    cases hl : layout (Kind.ofCode typ) rest with
    | none =>
      have := hf.refuses hl
      rw [bind_none hl]
      generalize npFields (Kind.ofCode typ) ⟨rest, false⟩ = y at this ⊢
      obtain ⟨body, r⟩ := y
      exact if_pos this
    | some y =>
      rw [hf.reads hl, bind_some hl]
      rfl

/-- The message is a Twrite or an Rread whose count runs over its end. -/
def clipped (b : Str) : Bool :=
  match Kind.ofCode (typeOf b) with
  | some .Twrite => decide (23 ≤ b.length ∧ b.length < 23 + ofLe ((b.drop 19).take 4))
  | some .Rread => decide (11 ≤ b.length ∧ b.length < 11 + ofLe ((b.drop 7).take 4))
  | _ => false

def isRwstat (b : Str) : Bool :=
  decide (7 ≤ b.length) && decide (Kind.ofCode (typeOf b) = some .Rwstat)

/-- A payload that is all there is taken by both in the same way, and one that is not only by `sub`.
-/
theorem payload_eq_iff {g : Str → Body} {bs : Str} :
    ((do let n ← num 4; let data ← upTo n; return g data : Strict Body) bs).map (·.1) =
      ((do let data ← counted 4; return g data : Strict Body) bs).map (·.1) ↔
    ¬(4 ≤ bs.length ∧ bs.length < 4 + ofLe (bs.take 4)) := by
  have hc : (do let data ← counted 4; return g data : Strict Body) bs =
      (do let n ← num 4; let data ← bytes n; return g data : Strict Body) bs := by
    unfold counted
    rw [bind_assoc]
  rw [hc]
  rcases Nat.lt_or_ge bs.length 4 with hlt | hge
  · rw [bind_none (num_none hlt), bind_none (num_none hlt)]
    exact ⟨fun _ h => absurd h.1 (by omega), fun _ => rfl⟩
  rw [bind_some (num_eq hge), bind_some (num_eq hge)]
  generalize ofLe (bs.take 4) = n
  have hlen : (bs.drop 4).length = bs.length - 4 := length_drop ..
  rcases Nat.lt_or_ge (bs.drop 4).length n with hlt | hle
  · rw [bind_none (bytes_none hlt)]
    exact ⟨nofun, fun h => absurd ⟨hge, by omega⟩ h⟩
  · rw [bind_some (bytes_eq hle)]
    exact ⟨fun _ h => by omega, fun _ => rfl⟩

theorem write_eq {p : Nat → Word → Strict Body} {bs : Str} (h : 12 ≤ bs.length) :
    (do let fid ← num 4; let offset ← word; p fid offset : Strict Body) bs =
      p (ofLe (bs.take 4)) (BitVec.ofNat 64 (ofLe ((bs.drop 4).take 8))) (bs.drop 12) := by
  have hw : word (bs.drop 4) =
      some (BitVec.ofNat 64 (ofLe ((bs.drop 4).take 8)), (bs.drop 4).drop 8) :=
    bind_some (num_eq (by rw [length_drop]; omega))
  rw [bind_some (num_eq (by omega)), bind_some hw, drop_drop]

theorem write_none {p : Nat → Word → Strict Body} {bs : Str} (h : bs.length < 12) :
    (do let fid ← num 4; let offset ← word; p fid offset : Strict Body) bs = none := by
  rcases Nat.lt_or_ge bs.length 4 with h4 | h4
  · exact bind_none (num_none h4)
  · rw [bind_some (num_eq h4)]
    exact bind_none (bind_none (num_none (by rw [length_drop]; omega)))

/-- Where a type has the same fields in both, they agree on every message of it. -/
theorem fields_eq_iff (k : Option Kind) (bs : Str) :
    (fields k bs).map (·.1) = (layout k bs).map (·.1) ↔ match k with
    | some .Twrite => ¬(16 ≤ bs.length ∧ bs.length < 16 + ofLe ((bs.drop 12).take 4))
    | some .Rread => ¬(4 ≤ bs.length ∧ bs.length < 4 + ofLe (bs.take 4))
    | some .Rwstat => False
    | _ => True := by
  by_cases hk : k = some .Twrite ∨ k = some .Rread ∨ k = some .Rwstat
  · rcases hk with rfl | rfl | rfl
    · rcases Nat.lt_or_ge bs.length 12 with hlt | hge
      · rw [show fields (some .Twrite) bs = none from write_none hlt,
          show layout (some .Twrite) bs = none from write_none hlt]
        exact ⟨fun _ h => absurd h.1 (by omega), fun _ => rfl⟩
      · rw [show fields (some .Twrite) bs = _ from write_eq hge, show layout (some .Twrite) bs = _ from write_eq hge]
        refine payload_eq_iff.trans (not_congr ?_)
        rw [length_drop]
        omega
    · exact payload_eq_iff
    · exact ⟨nofun, False.elim⟩
  · have hl : layout k = fields k := by
      unfold layout
      split <;> simp_all
    rw [hl]
    constructor
    · intro _
      split <;> simp_all
    · intro _
      rfl

/-- **Decoding.** The two give the same for a string unless it is an Rwstat or a payload that is
cut. -/
theorem decode_eq_npDecode_iff (b : Str) :
    decode b = npDecode b ↔ clipped b = false ∧ isRwstat b = false := by
  rw [npDecode_eq]
  unfold decode
  rcases Nat.lt_or_ge b.length 7 with hlt | hge
  · rw [message_none hlt, message_none hlt]
    have hc : clipped b = false := by
      unfold clipped
      split
      · exact decide_eq_false fun h => absurd h.1 (by omega)
      · exact decide_eq_false fun h => absurd h.1 (by omega)
      · rfl
    have hr : isRwstat b = false := by
      unfold isRwstat
      rw [decide_eq_false (by omega), Bool.false_and]
    exact ⟨fun _ => ⟨hc, hr⟩, fun _ => rfl⟩
  · rw [message_eq hge, message_eq hge]
    have hw : ∀ r s : Option (Body × Str), (withHeader b r).map (·.1) = (withHeader b s).map (·.1) ↔
        r.map (·.1) = s.map (·.1) := by
      rintro (- | ⟨r, x⟩) (- | ⟨s, y⟩) <;> simp [withHeader]
    have hd : (b.drop 7).length = b.length - 7 := length_drop ..
    rw [hw, fields_eq_iff]
    unfold clipped isRwstat
    rw [decide_eq_true hge, Bool.true_and]
    generalize Kind.ofCode (typeOf b) = k
    split
    · have h19 : (b.drop 7).drop 12 = b.drop 19 := drop_drop ..
      rw [h19, decide_eq_false_iff_not, hd]
      simp only [reduceCtorEq, Option.some.injEq, decide_false, and_true]
      omega
    · rw [decide_eq_false_iff_not, hd]
      simp only [reduceCtorEq, Option.some.injEq, decide_false, and_true]
      omega
    · simp
    next h1 h2 h3 => simpa using h3

end Nlos.Ninep
