import Nlos.Tcp.Arrivals

/-!
# What is put on the wire

The accounts over whole runs. Whatever segments arrive, what a connection sends is the stream that
was written at the place where it stands, and it lies within what the connection believes to have
sent, as long as nothing is sent again of which only a part was sent: `_retransmit` and
`_resend_first` take a whole segment from the front of the queue, also where a small window let only
a part of it go. The accounts also go wrong where the numbers come round to the first one again, and
where a connection that has sent its FIN is opened once more.
-/

namespace Nlos.Tcp

open Serial (shift)
open List

/-! ## Calls -/

section Calls

variable {A B : Prop} {W : Bytes} {u x : Nat} {t : Tcb}

theorem State.not_opening {s : State} (h : s.idle = true) : s.opening = false := by
  cases s <;> first | rfl | cases h

def Tcb.stream (t : Tcb) (W : Bytes) : Bytes := if t.state.idle then [] else W

theorem Accounts.stream (hx : Accounts W u x t.half) : Accounts (t.stream W) u x t.half := by
  unfold Tcb.stream
  split
  next hi =>
    exact { hx with
      opening := fun ho => nomatch (State.not_opening hi).symm.trans ho
      flow := fun hf => nomatch hi.symm.trans hf }
  · exact hx

theorem emits_attime (now : Option Int) : Emits A B W u t (t.attime now) := .quiet rfl rfl

theorem connect_goes (hx : Accounts W u x t.half) (now : Option Int)
    (hc : t.state = .closed → t.finSent = false ∧ t.inRecovery = false) :
    Goes A B (t.stream W) x t (t.connect now) := by
  rcases em (t.state = .closed) with hs | hs
  · have hi : t.state.idle = true := by rw [hs]; rfl
    obtain ⟨hf, hr⟩ := hc hs
    have he : t.connect now =
        ({ t.attime now with
          passive := false, state := .synSent, sndUna := t.iss, sndNxt := Tcp4.add t.iss 1 }).send
            Tcb.synFlags
          [] (some t.iss) (some ⟨some t.rcvMss, t.sackOffer, []⟩) := if_neg (not_not.mpr hs)
    rw [he, show t.stream W = [] from if_pos hi]
    refine goes_of_syn { t.attime now with
      passive := false, state := .synSent, sndUna := t.iss, sndNxt := Tcp4.add t.iss 1 }
      hi ?_ rfl rfl id rfl rfl rfl _
    exact hx.syn (hx.idle hi) hf hr rfl (fun h => absurd rfl h) rfl rfl
  · rw [show t.connect now = t.attime now from if_pos hs]
    exact (emits_attime now).goes hx.stream

theorem emits_listen (hc : t.state = .closed → t.finSent = false ∧ t.inRecovery = false) :
    Emits A B W u t t.listen := by
  unfold Tcb.listen
  split
  · exact .refl
  next hs =>
  have hs' : t.state = .closed := not_not.mp hs
  exact .still rfl rfl rfl fun hx => { hx with
    cc := nofun
    idle := fun _ => hx.idle (congrArg State.idle hs')
    listen := fun _ => hc hs'
    opening := nofun
    flow := nofun }

theorem emits_close (now : Option Int) : Emits A B W u t (t.close now) := by
  unfold Tcb.close
  refine (emits_attime now).trans ?_
  generalize t.attime now = t1
  simp only
  split
  · exact .refl
  split
  next hs =>
    exact .still rfl rfl rfl fun hx => { hx with
      cc := nofun
      idle := fun _ => hx.idle (by rcases hs with h | h <;> exact congrArg State.idle h)
      listen := nofun
      opening := nofun
      flow := nofun }
  split
  · exact emits_dead _ _
  have h1 : Emits A B W u t1 { t1 with finPending := true } :=
    .still rfl rfl rfl fun hx =>
      { hx with asked := fun _ => rfl, flow := fun h1 h2 => { hx.flow h1 h2 with } }
  exact h1.trans emits_transmit

theorem emits_abort (now : Option Int) : Emits A B W u t (t.abort now) := by
  unfold Tcb.abort
  refine (emits_attime now).trans ?_
  generalize t.attime now = t1
  have h1 : Emits A B W u t1 (t1.send { Tcb.ackFlags with rst := true } [] none none) := by
    refine .one rfl rfl id fun x hx => ⟨x, Nat.le_refl x, ?_, .inl rfl⟩
    rw [send_half]
    refine hx.arm fun hf h => hx.rest hf ?_
    have hz : (t1.segOf { Tcb.ackFlags with rst := true } [] none none).seglen = 0 := rfl
    rwa [hz, decide_eq_false (Nat.lt_irrefl 0), Bool.or_false] at h
  simp only
  split
  · exact h1.trans (emits_dead _ _)
  · exact emits_dead _ _

theorem emits_read (max : Option Nat) : Emits A B W u t (t.read max).2 := by
  unfold Tcb.read
  split
  · exact .refl
  simp only
  split
  · refine Emits.trans ?_ emits_ack
    exact .quiet rfl rfl
  · exact .quiet rfl rfl

theorem emits_tickPersist : Emits A B W u t t.tickPersist := by
  unfold Tcb.tickPersist
  split
  · split
    · exact emits_dead _ _
    · exact emits_probe
  · exact .refl

theorem isSome_of_due {now : Int} {timer : Option Int} (h : Tcb.due now timer = true) :
    timer.isSome = true := by
  cases timer with
  | none => cases h
  | some => rfl

theorem emits_tick (now : Option Int)
    (ha : Tcb.due (now.getD t.now) t.retx = true → (A → t.Covered) ∧ (B → t.state ≠ .closed)) :
    Emits A B W u t (t.tick now) := by
  rw [Tcb.tick_eq]
  refine (emits_attime now).trans ?_
  have ha1 : Tcb.due (t.attime now).now (t.attime now).retx = true →
      (A → (t.attime now).Covered) ∧ (B → (t.attime now).state ≠ .closed) := ha
  generalize t.attime now = t1 at ha1 ⊢
  split
  · refine Emits.trans ?_ (emits_dead _ _)
    exact .quiet rfl rfl
  have h1 : Emits A B W u t1 t1.tickRetx := by
    unfold Tcb.tickRetx
    split
    next hd => exact emits_retransmit (isSome_of_due hd) (ha1 hd).1 (ha1 hd).2
    · exact .refl
  refine h1.trans (Emits.trans ?_ emits_tickPersist)
  unfold Tcb.tickDelack
  split
  · exact emits_ack
  · exact .refl

/-- What `write` takes is behind what was written before. -/
theorem Accounts.append {d : Bytes} (hx : Accounts W u x t.half)
    (hs : t.state = .established ∨ t.state = .closeWait)
    (hp : t.finPending = false) (hshort : W.length + d.length + 2 < u + 2 ^ 31) :
    Accounts (W ++ d) u x { t with sndq := t.sndq ++ d }.half := by
  obtain ⟨hi, ho', -⟩ := State.flows hs
  have hf : t.finSent = false := Bool.eq_false_iff.mpr fun hf => nomatch hp.symm.trans (hx.asked hf)
  have ho := hx.flow hi ho'
  have hle := hx.le
  have htop := ho.unsaid hf
  have hoff : t.sndoff ≤ t.sndq.length := hx.off
  have hqueue : (t.sndq ++ d).drop t.sndoff = (W ++ d).drop (u - 1) := by
    rw [drop_append_of_le_length hoff, drop_append_of_le_length (by omega),
      show t.sndq.drop t.sndoff = W.drop (u - 1) from ho.queue]
  exact { hx with
    off := by
      show t.sndoff ≤ (t.sndq ++ d).length
      rw [length_append]
      omega
    idle := fun h => nomatch hi.symm.trans h
    opening := fun h => nomatch ho'.symm.trans h
    flow := fun _ _ => { ho with
      queue := hqueue
      short := by rwa [length_append]
      unsaid := fun _ => by rw [length_append]; omega
      said := fun h => nomatch hf.symm.trans h } }

theorem Tcb.writeRoom_some {data : Bytes} {n : Nat} (h : t.writeRoom data = some n) :
    (t.state = .established ∨ t.state = .closeWait) ∧ t.finPending = false ∧
      n = min data.length ((t.sndbuf : Int) - t.qlen).toNat := by
  unfold Tcb.writeRoom at h
  split at h
  · cases h
  next hs =>
  split at h
  · cases h
  next hp =>
  refine ⟨?_, Bool.not_eq_true _ ▸ hp, (Option.some.inj h).symm⟩
  by_contra hcon
  exact hs (not_or.mp hcon)

def Tcb.taken (t : Tcb) (data : Bytes) (now : Option Int) : Bytes :=
  data.take ((t.write data now).1.getD 0)

theorem write_goes (hx : Accounts W u x t.half) (data : Bytes) (now : Option Int)
    (hshort : t.state.idle = false → W.length + (t.taken data now).length + 2 < u + 2 ^ 31) :
    Goes A B (t.stream W ++ t.taken data now) x t (t.write data now).2 := by
  have hquiet : (t.write data now).2 = t.attime now → t.taken data now = [] →
      Goes A B (t.stream W ++ t.taken data now) x t (t.write data now).2 := fun h1 h2 => by
    rw [h1, h2, append_nil]
    exact (emits_attime now).goes hx.stream
  rcases hr : (t.attime now).writeRoom data with _ | n
  · have he : t.write data now = (none, t.attime now) := by
      unfold Tcb.write
      simp only [hr]
    exact hquiet (by rw [he]) (by unfold Tcb.taken; rw [he]; exact take_zero)
  obtain ⟨hst, hp, -⟩ := Tcb.writeRoom_some hr
  rcases em (((t.attime now).sndbuf : Int) - (t.attime now).qlen ≤ 0) with hfull | hroom
  · have he : t.write data now = (some 0, t.attime now) := by
      unfold Tcb.write
      simp only [hr]
      exact if_pos hfull
    exact hquiet (by rw [he]) (by unfold Tcb.taken; rw [he]; exact take_zero)
  · have he : t.write data now =
        (some n, { t.attime now with sndq := (t.attime now).sndq ++ data.take n }.transmit) := by
      unfold Tcb.write
      simp only [hr]
      exact if_neg hroom
    have htk : t.taken data now = data.take n := by
      unfold Tcb.taken
      rw [he]
      rfl
    have hi : (t.attime now).state.idle = false := (State.flows hst).1
    rw [htk] at hshort ⊢
    rw [he, show t.stream W = W from if_neg fun h => absurd (hi.symm.trans h) (by decide)]
    have ha : Accounts (W ++ data.take n) u x
        { t.attime now with sndq := (t.attime now).sndq ++ data.take n }.half :=
      Accounts.append hx hst hp (hshort hi)
    obtain ⟨y, hxy, hy⟩ := emits_transmit x ha
    exact ⟨u, y, { hy with }, fun _ _ => hxy⟩

end Calls

/-! ## Runs -/

/-- A connection, with what was written to it and what it has sent since it was opened. -/
structure Session where
  t : Tcb
  written : Bytes
  sent : List Seg

namespace Tcb

def accepts (t : Tcb) : Call → Bytes
  | .write data now => t.taken data now
  | _ => []

def appends (t : Tcb) : Call → List Seg
  | .take => []
  | a => (t.call a).out.drop t.out.length

/-- The first of what is queued was sent whole before any of it is sent again, the numbers do not
come round, the queue is shorter than half of them, and what has sent a FIN or is in recovery is not
opened again. -/
def Prudent (t : Tcb) : Call → Prop
  | .connect _ | .listen => t.state = .closed → t.finSent = false ∧ t.inRecovery = false
  | .write _ _ => t.sndbuf < 2 ^ 31 - 1
  | .tick now => due (now.getD t.now) t.retx = true → t.Covered
  | .segment seg _ => t.Fits True seg
  | _ => True

instance (t : Tcb) : Decidable t.Covered := inferInstanceAs (Decidable (_ ∨ _))

instance (t : Tcb) (seg : Seg) : Decidable (t.CoveredFrom seg) :=
  inferInstanceAs (Decidable (_ ∨ _))

instance (t : Tcb) (seg : Seg) : Decidable (t.Fits True seg) :=
  decidable_of_iff (t.lapsSyn seg = false ∧ (t.thirdDupack seg = true → t.Covered) ∧
      (Tcp4.lt t.sndUna seg.ack = true → t.partialAck seg = true → t.CoveredFrom seg))
    ⟨fun ⟨h1, h2, h3⟩ => ⟨h1, fun _ => h2, fun _ => h3⟩, fun h => ⟨h.lap, h.dupack trivial, h.part trivial⟩⟩

instance (t : Tcb) : (a : Call) → Decidable (t.Prudent a)
  | .connect _ | .listen => inferInstanceAs (Decidable (_ → _ ∧ _))
  | .write _ _ => inferInstanceAs (Decidable (_ < _))
  | .tick _ => inferInstanceAs (Decidable (_ → t.Covered))
  | .segment seg _ => inferInstanceAs (Decidable (t.Fits True seg))
  | .close _ | .abort _ | .read _ | .take | .events => inferInstanceAs (Decidable True)

end Tcb

namespace Session

def call (s : Session) (a : Call) : Session :=
  { t := s.t.call a
    written := s.t.stream s.written ++ s.t.accepts a
    sent := (if s.t.state.idle then [] else s.sent) ++ s.t.appends a }

/-- The sessions that calls which all meet the condition lead to. -/
def Run : Session → Prop :=
  Runs (fun s => ∃ cfg, s = ⟨.new cfg, [], []⟩) (fun s => s.t.Prudent) call

/-- With `u` numbers acknowledged and `x` sent, every segment that went out and is not a reset
carries what was written at the place where it stands, and, as long as the connection is there, ends
within what is sent. -/
structure Accounted (s : Session) (u x : Nat) : Prop where
  una : s.t.sndUna = shift s.t.iss u
  nxt : s.t.sndNxt = shift s.t.iss x
  le : u ≤ x
  near : x < u + 2 ^ 31
  sent : ∀ g ∈ s.sent, g.flags.rst = false → ∃ p, Says s.written s.t.iss p g ∧
    (s.t.state.idle = false → p + g.seglen ≤ x ∧
      ∀ a, u ≤ a → a ≤ p + g.seglen → Tcp4.gt (shift s.t.iss a) s.t.sndNxt = false)

end Session

section Session

variable {A B : Prop} {W d : Bytes} {u x : Nat} {t : Tcb} {a : Call} {s : Session}

theorem Says.append {iss : Seq} {p : Nat} {g : Seg} (h : Says W iss p g) (d : Bytes) :
    Says (W ++ d) iss p g := by
  refine { h with data := fun hd => ?_ }
  obtain ⟨h1, h2⟩ := h.data hd
  refine ⟨h1, ?_⟩
  have hlen : p - 1 ≤ W.length := by
    have hpos := length_pos_iff.mpr hd
    have := h2.length_le
    rw [length_drop] at this
    omega
  rw [drop_append_of_le_length hlen]
  exact h2.trans (prefix_append _ _)

theorem call_goes (hx : Accounts W u x t.half) (ha : a ≠ .take)
    (hopen : a = .listen ∨ (∃ now, a = .connect now) → t.state = .closed → t.finSent = false ∧ t.inRecovery = false)
    (hwrite : ∀ data now, a = .write data now → t.state.idle = false →
      W.length + (t.taken data now).length + 2 < u + 2 ^ 31)
    (htick : ∀ now, a = .tick now → Tcb.due (now.getD t.now) t.retx = true →
      (A → t.Covered) ∧ (B → t.state ≠ .closed))
    (hseg : ∀ seg now, a = .segment seg now → t.Fits A seg) :
    Goes A B (t.stream W ++ t.accepts a) x t (t.call a) := by
  have hx' := hx.stream
  have plain : ∀ {t'}, Goes A B (t.stream W) x t t' → Goes A B (t.stream W ++ []) x t t' :=
    fun h => by
    rwa [append_nil]
  cases a with
  | connect now => exact plain (connect_goes hx now (hopen (.inr ⟨now, rfl⟩)))
  | listen => exact plain ((emits_listen (hopen (.inl rfl))).goes hx')
  | close now => exact plain ((emits_close now).goes hx')
  | abort now => exact plain ((emits_abort now).goes hx')
  | write data now => exact write_goes hx data now (hwrite data now rfl)
  | read max => exact plain ((emits_read max).goes hx')
  | tick now => exact plain ((emits_tick now (htick now rfl)).goes hx')
  | segment seg now => exact plain (segment_goes hx now (hseg seg now rfl))
  | take => exact absurd rfl ha
  | events => exact plain (Emits.goes (.quiet rfl rfl) hx')

theorem Accounts.short (hx : Accounts W u x t.half) (hi : t.state.idle = false) :
    W.length + 2 < u + 2 ^ 31 := by
  cases hp : t.half.state.opening with
  | true =>
    obtain ⟨-, rfl, rfl, -⟩ := hx.opening hp
    simp
  | false => exact (hx.flow hi hp).short

theorem Tcb.taken_length (data : Bytes) (now : Option Int) :
    t.taken data now = [] ∨ (t.state = .established ∨ t.state = .closeWait) ∧ t.finPending = false ∧
      (t.taken data now).length ≤ ((t.sndbuf : Int) - t.qlen).toNat := by
  unfold Tcb.taken Tcb.write
  simp only
  split
  · exact .inl take_zero
  next n hr =>
  obtain ⟨hst, hp, hn⟩ := Tcb.writeRoom_some hr
  split
  · exact .inl take_zero
  refine .inr ⟨hst, hp, ?_⟩
  rw [Option.getD_some, length_take]
  exact (Nat.min_le_left _ _).trans (hn ▸ Nat.min_le_right _ _)

/-- What there is room for fits into what is left of half the numbers. -/
theorem Accounts.short_of_room (hx : Accounts W u x t.half)
    (hs : t.state = .established ∨ t.state = .closeWait)
    (hp : t.finPending = false) (hbuf : t.sndbuf < 2 ^ 31 - 1) {n : Nat}
    (hn : n ≤ ((t.sndbuf : Int) - t.qlen).toNat) : W.length + n + 2 < u + 2 ^ 31 := by
  have ho := hx.flow (State.flows hs).1 (State.flows hs).2.1
  have h1 := ho.queue_length
  have h2 := ho.one
  have h4 := ho.unsaid (Bool.eq_false_iff.mpr fun hf => nomatch hp.symm.trans (hx.asked hf))
  rw [hx.qlen] at hn
  have := ho.short
  omega

theorem Accounts.short_of_write (hx : Accounts W u x t.half) {data : Bytes} {now : Option Int}
    (hi : t.state.idle = false)
    (hbuf : t.sndbuf < 2 ^ 31 - 1) : W.length + (t.taken data now).length + 2 < u + 2 ^ 31 := by
  rcases t.taken_length data now with h | ⟨hst, hp, hlen⟩
  · rw [h]
    exact hx.short hi
  · exact hx.short_of_room hst hp hbuf hlen

/-- The segments a call appends are those its lemma speaks of. -/
theorem appends_eq {l : List Seg} (ha : a ≠ .take) (h : (t.call a).out = t.out ++ l) :
    t.appends a = l := by
  have he : t.appends a = (t.call a).out.drop t.out.length := by
    cases a with
    | take => exact absurd rfl ha
    | _ => rfl
  rw [he, h, drop_left]

structure Session.Kept (s : Session) (u x : Nat) : Prop where
  accounts : Accounts s.written u x s.t.half
  sent : ∀ g ∈ s.sent, g.flags.rst = true ∨ ∃ p, Says s.written s.t.iss p g ∧
    (s.t.state.idle = false → p + g.seglen ≤ x)

theorem Session.Kept.old (h : s.Kept u x) {y : Nat} (t' : Tcb) (hiss : t'.iss = s.t.iss)
    (hm : s.t.state.idle = false → t'.state.idle = false → x ≤ y) (d : Bytes) {g : Seg}
    (hg : g ∈ if s.t.state.idle then [] else s.sent) :
    g.flags.rst = true ∨ ∃ p, Says (s.t.stream s.written ++ d) t'.iss p g ∧
    (t'.state.idle = false → p + g.seglen ≤ y) := by
  unfold Tcb.stream
  split at hg
  · cases hg
  next hi =>
  have hi' := Bool.not_eq_true _ ▸ hi
  rw [if_neg hi]
  rcases h.sent g hg with hr | ⟨p, hp, hle⟩
  · exact .inl hr
  · exact .inr ⟨p, hiss ▸ hp.append d, fun hi2 => (hle hi').trans (hm hi' hi2)⟩

theorem Session.Kept.call (h : s.Kept u x) (ho : s.t.Prudent a) :
    ∃ v y, (s.call a).Kept v y ∧ ∀ g ∈ s.t.appends a,
      Sound True False (s.call a).written (s.call a).t.finSent (s.call a).t.iss v y g := by
  rcases em (a = .take) with rfl | hne
  · refine ⟨u, x, ⟨?_, ?_⟩, by simp [Tcb.appends]⟩
    · show Accounts (s.t.stream s.written ++ []) u x s.t.half
      rw [append_nil]
      exact h.accounts.stream
    · intro g hg
      rw [show (s.call .take).sent = (if s.t.state.idle then [] else s.sent) from append_nil _]
        at hg
      exact h.old s.t rfl (fun _ _ => Nat.le_refl x) [] hg
  · have hgo : Goes True False (s.call a).written x s.t (s.t.call a) := by
      refine call_goes h.accounts hne ?_ ?_ ?_ ?_
      · rintro (rfl | ⟨now, rfl⟩) <;> exact ho
      · rintro data now rfl hi
        exact h.accounts.short_of_write hi ho
      · rintro now rfl hd
        exact ⟨fun _ => ho hd, nofun⟩
      · rintro seg now rfl
        exact ho
    obtain ⟨v, y, hs, hmono⟩ := hgo
    obtain ⟨l, hl, hsound⟩ := hs.out
    have hap := appends_eq hne hl
    have hiss : (s.call a).t.iss = s.t.iss := hs.iss
    refine ⟨v, y, ⟨hs.accounts, ?_⟩, by rwa [hap, hiss]⟩
    intro g hg
    rcases mem_append.mp hg with hg | hg
    · exact h.old _ hs.iss hmono _ hg
    · rw [hap] at hg
      rcases hsound g hg with hr | ⟨p, -, hp, hle, -⟩
      · exact .inl hr
      · exact .inr ⟨p, hiss ▸ hp, fun _ => hle trivial⟩

theorem Accounts.new (cfg : Cfg) : Accounts [] 0 0 (Tcb.new cfg).half where
  una := (Serial.shift_zero _).symm
  nxt := (Serial.shift_zero _).symm
  le := Nat.le_refl 0
  near := by omega
  off := Nat.le_refl 0
  asked := nofun
  unseq := fun _ => rfl
  rest := nofun
  cc := nofun
  idle := fun _ => rfl
  listen := nofun
  opening := nofun
  flow := nofun

theorem Session.Run.kept (h : s.Run) : ∃ u x, s.Kept u x := by
  refine Runs.invariant (I := fun s : Session => ∃ u x, s.Kept u x) ?_ ?_ h
  · rintro _ ⟨cfg, rfl⟩
    exact ⟨0, 0, .new cfg, nofun⟩
  · rintro s a ⟨u, x, hk⟩ ho
    obtain ⟨v, y, hk', -⟩ := hk.call ho
    exact ⟨v, y, hk'⟩

theorem Session.Kept.accounted (h : s.Kept u x) : s.Accounted u x where
  una := h.accounts.una
  nxt := h.accounts.nxt
  le := h.accounts.le
  near := h.accounts.near
  sent := fun g hg hr => by
    rcases h.sent g hg with h1 | ⟨p, hp, hle⟩
    · exact nomatch hr.symm.trans h1
    · refine ⟨p, hp, fun hi => ⟨hle hi, fun a ha hap => ?_⟩⟩
      have h2 := hle hi
      have h3 := h.accounts.near
      rw [h.accounts.sndNxt]
      exact Bool.eq_false_iff.mpr fun hgt =>
        absurd ((Tcp4.lt_shift s.t.iss (by omega) (by omega)).mp hgt) (by omega)

/-- Every call of a prudent run puts on the wire only what lies between what is acknowledged and
what is sent when it returns, and leaves everything that was sent accounted for. -/
theorem run_accounts_for_wire (hr : s.Run) (ho : s.t.Prudent a) :
    (∀ g ∈ s.t.appends a, g.flags.rst = false → ∃ i : Nat, g.seq = Tcp4.add (s.call a).t.sndUna i ∧
      (i + g.seglen : Int) ≤ (s.call a).t.flight) ∧
    ∃ u x, (s.call a).Accounted u x := by
  obtain ⟨u, x, hk⟩ := hr.kept
  obtain ⟨v, y, hk', hsound⟩ := hk.call ho
  refine ⟨fun g hg hrst => ?_, v, y, hk'.accounted⟩
  rcases hsound g hg with h | ⟨p, hvp, hp, hle, -⟩
  · exact nomatch hrst.symm.trans h
  · have hle' := hle trivial
    refine ⟨p - v, ?_, ?_⟩
    · rw [show (s.call a).t.sndUna = shift (s.call a).t.iss v from hk'.accounts.una,
        Tcp4.add_eq_shift, Serial.shift_shift, hp.seq]
      congr 1
      omega
    · rw [hk'.accounts.flight]
      omega

def opened : Session := ⟨.new ⟨1, 2, 100, none, none, none, true, none⟩, [], []⟩

/-- A connection whose SYN went out twice, so that no round trip is timed, to a peer with a window
of `wnd`, and three bytes. -/
def threeBytes (wnd : BitVec 16) : List Call :=
  [.connect (some 0), .tick (some 1000),
    .segment
      ⟨2, 1, 500, 101, { Flags.none with syn := true, ack := true }, wnd, [], none⟩ (some 1000),
    .write [1, 2, 3] (some 1000)]

def ackThree : Seg := ⟨2, 1, 501, 104, Tcb.ackFlags, 1, [], none⟩

theorem threeBytes_accounted :
    (∃ u x, (((threeBytes 1000).foldl Session.call opened).call (.segment ackThree (some 1000))).Accounted u x) ∧
      ((threeBytes 1000).foldl Session.call opened).t.Prudent (.segment ackThree (some 1000)) := by
  have hrun : ((threeBytes 1000).foldl Session.call opened).Run :=
    Runs.along (.init ⟨_, rfl⟩)
      (by decide +kernel : Runs.Along (fun s => s.t.Prudent) Session.call opened (threeBytes 1000))
  have hok : ((threeBytes 1000).foldl Session.call opened).t.Prudent
      (.segment ackThree (some 1000)) := by decide +kernel
  exact ⟨(run_accounts_for_wire hrun hok).2, hok⟩

/-- The window lets one byte go, the timer sends all three, and their acknowledgment is past what is
sent. -/
theorem retransmit_overshoots : ((threeBytes 1).foldl Session.call opened).t.flight = 1 ∧
    (∃ g ∈ ((threeBytes 1).foldl Session.call opened).t.appends (.tick (some 3000)), g.flags.rst = false ∧
      g.seq = (((threeBytes 1).foldl Session.call opened).call (.tick (some 3000))).t.sndUna ∧
      g.data = [1, 2, 3] ∧
      (((threeBytes 1).foldl Session.call opened).call (.tick (some 3000))).t.flight = 1) ∧
    Tcp4.gt ackThree.ack
      (((threeBytes 1).foldl Session.call opened).call (.tick (some 3000))).t.sndNxt = true ∧
    ((((threeBytes 1).foldl Session.call opened).call (.tick (some 3000))).call
      (.segment ackThree none)).t.sndUna = 101 := by
  decide +kernel

end Session

end Nlos.Tcp
