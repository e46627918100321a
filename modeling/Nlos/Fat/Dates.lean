import Nlos.Lib.Runs

/-!
# Dates of directory entries

`lib/fat/pack.lua`: a time in seconds becomes a date word and a time word, and back. The days
between a date and the first of 1970 are counted in years that begin in March, so that a leap day is
the last of its year.

Months are counted from year zero. `monthStart` is the day one begins, and each begins where the one
before it ends (`monthStart_succ`): the order of days and dates, and that no two dates are one day,
come from that alone.
-/

namespace Nlos.Fat

/-! ## The code -/

structure Date where
  y : Int
  m : Int
  d : Int
deriving DecidableEq, Repr

/-- `//` rounds down, as `/` does here for a divisor above zero. -/
def daysfromcivil (x : Date) : Int :=
  let y := x.y - if x.m ≤ 2 then 1 else 0
  let era := (if 0 ≤ y then y else y - 399) / 400
  let yoe := y - era * 400
  let doy := (153 * (x.m + if 2 < x.m then -3 else 9) + 2) / 5 + x.d - 1
  let doe := yoe * 365 + yoe / 4 - yoe / 100 + doy
  era * 146097 + doe - 719468

def civilfromdays (z : Int) : Date :=
  let z := z + 719468
  let era := (if 0 ≤ z then z else z - 146096) / 146097
  let doe := z - era * 146097
  let yoe := (doe - doe / 1460 + doe / 36524 - doe / 146096) / 365
  let y := yoe + era * 400
  let doy := doe - (365 * yoe + yoe / 4 - yoe / 100)
  let mp := (5 * doy + 2) / 153
  let d := doy - (153 * mp + 2) / 5 + 1
  let m := mp + if mp < 10 then 3 else -9
  ⟨y + if m ≤ 2 then 1 else 0, m, d⟩

def packdate (t : Int) : Nat :=
  let x := civilfromdays (t / 86400)
  let y := x.y - 1980
  let y := if y < 0 then 0 else if 127 < y then 127 else y
  y.toNat <<< 9 ||| x.m.toNat <<< 5 ||| x.d.toNat

def packtime (t : Int) : Nat :=
  let s := (t % 86400).toNat
  (s / 3600) <<< 11 ||| (s % 3600 / 60) <<< 5 ||| s % 60 / 2

def datetime (date time : Nat) : Int :=
  daysfromcivil ⟨1980 + (date >>> 9 &&& 0x7F : Nat), (date >>> 5 &&& 0x0F : Nat), (date &&& 0x1F : Nat)⟩ * 86400 +
    (time >>> 11 &&& 0x1F : Nat) * 3600 + (time >>> 5 &&& 0x3F : Nat) * 60 +
      (time &&& 0x1F : Nat) * 2

theorem key_eq {a b n : Nat} (h : b < 2 ^ n) : a <<< n ||| b = a * 2 ^ n + b := by
  rw [← Nat.shiftLeft_add_eq_or_of_lt h, Nat.shiftLeft_eq]

/-- The times that were computed, by the two words in one number. -/
structure Dtcache where
  dtcache : Nat → Option Int
  ndtcache : Nat
  exact : ∀ {date time v}, time < 2 ^ 16 → dtcache (date <<< 16 ||| time) = some v →
    v = datetime date time

def unpackdatetime (date time : Nat) (ht : time < 2 ^ 16) (c : Dtcache) : Int × Dtcache :=
  if date = 0 then (0, c)
  else
    let key := date <<< 16 ||| time
    match c.dtcache key with
    | some v => (v, c)
    | none =>
      let v := datetime date time
      let c := if 512 ≤ c.ndtcache then ⟨fun _ => none, 0, nofun⟩ else c
      (v, ⟨fun k => if k = key then some v else c.dtcache k, c.ndtcache + 1, fun {date' time' v'} ht' h => by
        split at h
        next hk =>
          rw [key_eq ht', show key = _ from key_eq ht] at hk
          obtain ⟨rfl, rfl⟩ : date' = date ∧ time' = time := by omega
          exact (Option.some.inj h).symm
        · exact c.exact ht' h⟩)

/-! ## The calendar -/

def Leap (y : Int) : Prop := y % 4 = 0 ∧ (y % 100 ≠ 0 ∨ y % 400 = 0)

instance (y : Int) : Decidable (Leap y) := inferInstanceAs (Decidable (_ ∧ _))

def monthDays (y m : Int) : Int :=
  if m = 2 then if Leap y then 29 else 28 else if m = 4 ∨ m = 6 ∨ m = 9 ∨ m = 11 then 30 else 31

structure Date.Valid (x : Date) : Prop where
  month : 1 ≤ x.m ∧ x.m ≤ 12
  day : 1 ≤ x.d ∧ x.d ≤ monthDays x.y x.m

theorem monthDays_within (y m : Int) : 0 < monthDays y m ∧ monthDays y m ≤ 31 := by
  unfold monthDays
  split
  · split <;> decide
  · split <;> decide

/-- The days in front of a year that begins in March. -/
def yearStart (y : Int) : Int := 365 * y + y / 4 - y / 100 + y / 400

/-- The day on which a month begins. -/
def monthStart (k : Int) : Int := yearStart ((k - 2) / 12) + (153 * ((k - 2) % 12) + 2) / 5 - 719468

theorem monthStart_march {y p : Int} (h0 : 0 ≤ p) (h12 : p < 12) :
    monthStart (12 * y + p + 2) = yearStart y + (153 * p + 2) / 5 - 719468 := by
  unfold monthStart
  rw [show (12 * y + p + 2 - 2) / 12 = y by omega, show (12 * y + p + 2 - 2) % 12 = p by omega]

theorem monthStart_next {y p : Int} (h0 : 0 ≤ p) (h12 : p < 12) : monthStart (12 * y + p + 2 + 1) =
    (if p < 11 then yearStart y + (153 * (p + 1) + 2) / 5 else yearStart (y + 1)) - 719468 := by
  split
  · rw [show 12 * y + p + 2 + 1 = 12 * y + (p + 1) + 2 by omega, monthStart_march (by omega) (by omega)]
  · rw [show 12 * y + p + 2 + 1 = 12 * (y + 1) + 0 + 2 by omega, monthStart_march (by omega) (by omega)]
    omega

/-- A month begins where the one before it ends. -/
theorem monthStart_succ (k : Int) :
    monthStart (k + 1) = monthStart k + monthDays (k / 12) (k % 12 + 1) := by
  obtain ⟨y, mp, rfl, h0, h12⟩ : ∃ y mp, k = 12 * y + mp + 2 ∧ 0 ≤ mp ∧ mp < 12 :=
    ⟨(k - 2) / 12, (k - 2) % 12, by omega, by omega, by omega⟩
  rw [monthStart_march h0 h12, monthStart_next h0 h12]
  unfold monthDays
  split
  · rw [if_neg (by omega)]
    interval_cases mp <;> split <;> omega
  · obtain rfl : mp = 11 := by omega
    rw [if_pos (by omega), show (12 * y + 11 + 2) / 12 = y + 1 by omega]
    unfold yearStart
    by_cases h : Leap (y + 1)
    · rw [if_pos h]
      unfold Leap at h
      omega
    · rw [if_neg h]
      unfold Leap at h
      omega

theorem monthStart_mono {j k : Int} (h : j ≤ k) : monthStart j ≤ monthStart k := by
  induction k, h using Int.leInduction with
  | base => exact Int.le_refl _
  | succ k hk ih =>
    have := monthDays_within (k / 12) (k % 12 + 1)
    rw [monthStart_succ]
    omega

namespace Date

variable {x x' : Date}

def index (x : Date) : Int := 12 * x.y + (x.m - 1)

theorem days_eq (hy : 1 ≤ x.y) (hm : 1 ≤ x.m ∧ x.m ≤ 12) :
    daysfromcivil x = monthStart x.index + x.d - 1 := by
  unfold monthStart daysfromcivil index yearStart
  dsimp only
  rcases Int.lt_or_le 2 x.m with h | h
  · rw [show (12 * x.y + (x.m - 1) - 2) / 12 = x.y by omega, show (12 * x.y + (x.m - 1) - 2) % 12 = x.m - 3 by omega,
      if_neg (Int.not_le.mpr h), if_pos h, if_pos (by omega)]
    omega
  · rw [show (12 * x.y + (x.m - 1) - 2) / 12 = x.y - 1 by omega,
      show (12 * x.y + (x.m - 1) - 2) % 12 = x.m + 9 by omega,
      if_pos h, if_neg (Int.not_lt.mpr h), if_pos (by omega)]
    omega

theorem index_succ (hm : 1 ≤ x.m ∧ x.m ≤ 12) :
    monthStart (x.index + 1) = monthStart x.index + monthDays x.y x.m := by
  rw [monthStart_succ, show x.index / 12 = x.y by unfold index; omega,
    show x.index % 12 + 1 = x.m by unfold index; omega]

theorem Valid.within (h : x.Valid) (hy : 1 ≤ x.y) :
    daysfromcivil x = monthStart x.index + x.d - 1 ∧
    daysfromcivil x < monthStart (x.index + 1) := by
  have hd := h.day
  rw [index_succ h.month, days_eq hy h.month]
  omega

/-- Dates in order are days in order. -/
theorem Valid.lt (h : x.Valid) (h' : x'.Valid) (hy : 1 ≤ x.y) (hy' : 1 ≤ x'.y)
    (hlt : x.index < x'.index ∨ x.index = x'.index ∧ x.d < x'.d) :
    daysfromcivil x < daysfromcivil x' := by
  have hd := h'.day
  obtain ⟨e, hlast⟩ := h.within hy
  obtain ⟨e', -⟩ := h'.within hy'
  rcases hlt with hlt | ⟨heq, hlt⟩
  · have := monthStart_mono (Int.add_one_le_of_lt hlt)
    omega
  · rw [heq] at e
    omega

theorem Valid.inj (h : x.Valid) (h' : x'.Valid) (hy : 1 ≤ x.y) (hy' : 1 ≤ x'.y)
    (heq : daysfromcivil x = daysfromcivil x') : x = x' := by
  have h1 : ¬(_ ∨ _) := fun hlt => Int.ne_of_lt (h.lt h' hy hy' hlt) heq
  have h2 : ¬(_ ∨ _) := fun hlt => Int.ne_of_lt (h'.lt h hy' hy hlt) heq.symm
  have hm := h.month
  have hm' := h'.month
  obtain ⟨y, m, d⟩ := x
  obtain ⟨y', m', d'⟩ := x'
  unfold index at h1 h2
  rw [mk.injEq]
  dsimp only at *
  omega

theorem Valid.year_iff (h : x.Valid) (hy : 1 ≤ x.y) :
    1980 ≤ x.y ∧ x.y ≤ 2107 ↔ 3652 ≤ daysfromcivil x ∧ daysfromcivil x ≤ 50402 := by
  have hm := h.month
  have hd := h.day
  obtain ⟨e, hlast⟩ := h.within hy
  have hfirst : monthStart (12 * 1980) = 3652 := by decide
  have hend : monthStart (12 * 2108) = 50403 := by decide
  have h1 := @monthStart_mono (12 * 1980) x.index
  have h2 := @monthStart_mono (x.index + 1) (12 * 1980)
  have h3 := @monthStart_mono (x.index + 1) (12 * 2108)
  have h4 := @monthStart_mono (12 * 2108) x.index
  unfold index at *
  omega

end Date

/-! ## Days to dates -/

theorem year_within {doe yoe : Int} (h0 : 0 ≤ doe) (h1 : doe < 146097)
    (hy : yoe = (doe - doe / 1460 + doe / 36524 - doe / 146096) / 365) :
    0 ≤ yoe ∧ yoe < 400 ∧ yearStart yoe ≤ doe ∧ doe < yearStart (yoe + 1) := by
  unfold yearStart
  generalize hq : doe / 1460 = q at hy
  generalize hc : doe / 36524 = c at hy
  have hc0 : 0 ≤ c := by omega
  have hc4 : c ≤ 4 := by omega
  -- the century of the year is that of the day, but for the last day of the era
  have hcent : yoe / 100 = c ∨ c = 4 ∧ yoe / 100 = 3 := by interval_cases c <;> omega
  have hfour : q = yoe / 4 ∨ q = yoe / 4 + 1 := by omega
  have hnext : (yoe + 1) / 4 = yoe / 4 ∨ (yoe + 1) / 4 = yoe / 4 + 1 ∧ yoe % 4 = 3 := by omega
  have hnext' : (yoe + 1) / 100 = yoe / 100 ∨ (yoe + 1) / 100 = yoe / 100 + 1 ∧ yoe % 100 = 99 := by
    omega
  refine ⟨by omega, by omega, ?_, ?_⟩
  · rcases hfour with hfour | hfour <;> rcases hcent with hcent | hcent <;> omega
  · rcases hfour with hfour | hfour <;> rcases hcent with hcent | hcent <;>
      rcases hnext with hnext | hnext <;> rcases hnext' with hnext' | hnext' <;> omega

theorem yearStart_era (y era : Int) : yearStart (y + era * 400) = yearStart y + era * 146097 := by
  unfold yearStart
  omega

theorem civilfromdays_spec {z : Int} (hz : 0 ≤ z) :
    (civilfromdays z).Valid ∧ 1 ≤ (civilfromdays z).y ∧ daysfromcivil (civilfromdays z) = z := by
  generalize hx : civilfromdays z = x
  unfold civilfromdays at hx
  dsimp only at hx
  rw [if_pos (by omega)] at hx
  generalize hera : (z + 719468) / 146097 = era at hx
  generalize hdoe : z + 719468 - era * 146097 = doe at hx
  generalize hyoe : (doe - doe / 1460 + doe / 36524 - doe / 146096) / 365 = yoe at hx
  obtain ⟨h0, h400, hlow, hhigh⟩ := year_within (by omega) (by omega) hyoe.symm
  clear hyoe
  generalize hdoy : doe - (365 * yoe + yoe / 4 - yoe / 100) = doy at hx
  generalize hmp : (5 * doy + 2) / 153 = mp at hx
  have hdoe' : yearStart yoe + doy = doe := by
    unfold yearStart
    omega
  have hlen : yearStart (yoe + 1) ≤ yearStart yoe + 366 := by
    unfold yearStart
    omega
  have hstart := monthStart_march (y := yoe + era * 400) (p := mp) (by omega) (by omega)
  have hnext := monthStart_next (y := yoe + era * 400) (p := mp) (by omega) (by omega)
  rw [yearStart_era] at hstart hnext
  rw [Int.add_right_comm yoe _ 1, yearStart_era] at hnext
  obtain ⟨hk, hm, hy, hd⟩ : x.index = 12 * (yoe + era * 400) + mp + 2 ∧
    (1 ≤ x.m ∧ x.m ≤ 12) ∧ 1 ≤ x.y ∧ x.d = doy - (153 * mp + 2) / 5 + 1 := by
    subst hx
    unfold Date.index
    dsimp only
    split <;> split <;> omega
  rw [← hk] at hstart hnext
  have hdays := Date.days_eq hy hm
  refine ⟨⟨hm, ?_⟩, hy, by omega⟩
  rw [Date.index_succ hm] at hnext
  split at hnext <;> omega

/-! ## Words -/

theorem word_eq {a b c n m : Nat} (hc : c < 2 ^ m) (hb : b * 2 ^ m + c < 2 ^ n) :
    a <<< n ||| b <<< m ||| c = a * 2 ^ n + (b * 2 ^ m + c) := by
  rw [Nat.or_assoc, key_eq hc, key_eq hb]

theorem masked {w : Nat} (mask k : Nat) (h : mask = 2 ^ k - 1) : w &&& mask = w % 2 ^ k := by
  rw [h, Nat.and_two_pow_sub_one_eq_mod]

def InRange (t : Int) : Prop := 315532800 ≤ t ∧ t ≤ 4354819199

variable {t u : Int}

theorem packtime_eq (t : Int) :
    (packtime t : Int) = t % 86400 / 3600 * 2048 + (t % 3600 / 60 * 32 + t % 60 / 2) := by
  unfold packtime
  dsimp only
  rw [word_eq (by omega) (by omega)]
  omega

theorem packtime_lt (t : Int) : packtime t < 2 ^ 16 := by
  have := packtime_eq t
  omega

/-- The date word is that of a date, which is the day of the time. -/
theorem packdate_spec (ht : InRange t) :
    ∃ x : Date, x.Valid ∧ (1980 ≤ x.y ∧ x.y ≤ 2107) ∧ (1 ≤ x.m ∧ x.m ≤ 12) ∧
    (1 ≤ x.d ∧ x.d ≤ 31) ∧ daysfromcivil x = t / 86400 ∧
    (packdate t : Int) = (x.y - 1980) * 512 + (x.m * 32 + x.d) := by
  obtain ⟨h0, h1⟩ := ht
  obtain ⟨hv, hy1, hz⟩ := civilfromdays_spec (z := t / 86400) (by omega)
  have hy := (hv.year_iff hy1).mpr (by omega)
  have hm := hv.month
  have hd := hv.day
  have hlen := monthDays_within (civilfromdays (t / 86400)).y (civilfromdays (t / 86400)).m
  refine ⟨_, hv, hy, hm, by omega, hz, ?_⟩
  unfold packdate
  dsimp only
  rw [if_neg (by omega), if_neg (by omega), word_eq (by omega) (by omega)]
  omega

theorem datetime_eq (ht : InRange t) : datetime (packdate t) (packtime t) = t - t % 2 := by
  obtain ⟨⟨y, m, d⟩, -, hy, hm, hd, hz, hdate⟩ := packdate_spec ht
  have htime := packtime_eq t
  unfold datetime
  rw [masked 0x7F 7 rfl, masked 0x0F 4 rfl, masked 0x1F 5 rfl, masked 0x1F 5 rfl, masked 0x3F 6 rfl, masked 0x1F 5 rfl,
    show (⟨_, _, _⟩ : Date) = ⟨y, m, d⟩ by rw [Date.mk.injEq]; dsimp only at *; omega, hz]
  omega

/-- Pairs of words in order are times in order. -/
theorem lt_of_pair_lt (ht : InRange t) (hu : InRange u)
    (h : packdate t * 2 ^ 16 + packtime t < packdate u * 2 ^ 16 + packtime u) :
    t - t % 2 < u - u % 2 := by
  obtain ⟨x, hv, hy, hm, hd, hz, hdate⟩ := packdate_spec ht
  obtain ⟨x', hv', hy', hm', hd', hz', hdate'⟩ := packdate_spec hu
  have htime := packtime_eq t
  have htime' := packtime_eq u
  rcases Nat.lt_or_ge (packdate t) (packdate u) with hlt | hge
  · have := hv.lt hv' (by omega) (by omega) (by unfold Date.index; omega)
    omega
  · obtain rfl : x = x' := by
      obtain ⟨y, m, d⟩ := x
      obtain ⟨y', m', d'⟩ := x'
      rw [Date.mk.injEq]
      dsimp only at *
      omega
    omega

/-- Whatever was converted before, a time comes back to the even second; days and dates of the
Gregorian calendar in those years are each other's inverses; and the pairs of words are ordered as
the times are, in pairs of seconds. -/
theorem dates_round_trip :
    (∀ t, InRange t → ∀ c, (unpackdatetime (packdate t) (packtime t) (packtime_lt t) c).1 = t - t % 2) ∧
    (∀ z, 3652 ≤ z → z ≤ 50402 → (civilfromdays z).Valid ∧ (1980 ≤ (civilfromdays z).y ∧ (civilfromdays z).y ≤ 2107) ∧
      daysfromcivil (civilfromdays z) = z) ∧
    (∀ x : Date, x.Valid → 1980 ≤ x.y → x.y ≤ 2107 → (3652 ≤ daysfromcivil x ∧ daysfromcivil x ≤ 50402) ∧
      civilfromdays (daysfromcivil x) = x) ∧
    ∀ t u, InRange t → InRange u →
      (packdate t <<< 16 ||| packtime t < packdate u <<< 16 ||| packtime u ↔ t - t % 2 < u - u % 2) := by
  refine ⟨fun t ht c => ?_, fun z h0 h1 => ?_, fun x hx h0 h1 => ?_, fun t u ht hu => ?_⟩
  · obtain ⟨x, -, hy, hm, hd, -, hdate⟩ := packdate_spec ht
    unfold unpackdatetime
    rw [if_neg (by omega)]
    dsimp only
    split
    next v hit => exact (c.exact (packtime_lt t) hit).trans (datetime_eq ht)
    · exact datetime_eq ht
  · obtain ⟨hv, hy, hz⟩ := civilfromdays_spec (z := z) (by omega)
    exact ⟨hv, (hv.year_iff hy).mpr (by omega), hz⟩
  · have hdays := (hx.year_iff (by omega)).mp ⟨h0, h1⟩
    obtain ⟨hv, hy, hz⟩ := civilfromdays_spec (z := daysfromcivil x) (by omega)
    exact ⟨hdays, hv.inj hx hy (by omega) hz⟩
  · have htl := packtime_lt t
    have hul := packtime_lt u
    rw [key_eq htl, key_eq hul]
    refine ⟨lt_of_pair_lt ht hu, fun h => Nat.lt_of_not_ge fun hge => ?_⟩
    rcases Nat.lt_or_eq_of_le hge with hlt | heq
    · have := lt_of_pair_lt hu ht hlt
      omega
    · -- one pair is one time
      have hdt := datetime_eq ht
      rw [show packdate t = packdate u by omega, show packtime t = packtime u by omega, datetime_eq hu] at hdt
      omega

end Nlos.Fat
