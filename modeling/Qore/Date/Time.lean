import Mathlib.Tactic.Linarith
import Mathlib.Tactic.Ring
import Qore.Date.Info
import Qore.Lib.StepFun

/-!
# `Qore.Date.Time`: absolute and relative times

`qore_absolute_time` and the differences of `qore_relative_time`. A time zone is what
`AbstractQoreZoneInfo` offers: the offset of its standard time and the offset in force at each
second.

* `add_subtractBy_iff`: adding the difference of two times to the second gives the first
  exactly when the seconds between them fit an `int`, because `operator+=` multiplies the
  hours in `int`.
* `set_date`: the second that `set` finds for a wall clock time.
-/

set_option autoImplicit false

namespace Qore.Date

open Qore.Lib
open Qore.Lib.Gregorian (Date)

/-- `AbstractQoreZoneInfo`: the UTC offset of the standard time (`getUTCOffset()`) and at each
second of the epoch (`getUTCOffset(int64)`). -/
structure Zone where
  std : Int
  off : Int → Int

/-- The zone of a null pointer. -/
def Zone.utc : Zone := { std := 0, off := fun _ => 0 }

/-- `QoreOffsetZoneInfo`. An offset of -1 reads as "unknown" in `getUTCOffset()`. -/
def Zone.offset (utcoff : Int) : Zone :=
  { std := if utcoff = -1 then 0 else utcoff, off := fun _ => utcoff }

/-- `qore_absolute_time`: seconds of the epoch in UTC, microseconds and the zone. -/
structure AbsTime where
  epoch : Int
  us : Nat
  zone : Zone

/-- `qore_relative_time`. -/
structure RelTime where
  year : Int
  month : Int
  day : Int
  hour : Int
  minute : Int
  second : Int
  us : Int
  deriving DecidableEq

namespace RelTime

/-- `qore_relative_time::setDifference`. -/
def setDifference (seconds micros : Int) (dt : AbsTime) : RelTime :=
  let sec := seconds - dt.epoch
  -- the operand `dt.us` makes this an unsigned difference
  let us := truncInt (micros - dt.us)
  let (sec, us) := normalizeUnits .int64 .int sec us 1000000
  let (hour, sec) := normalizeUnits .int .int64 0 sec 3600
  let (minute, sec) := normalizeUnits .int .int64 0 sec 60
  { year := 0, month := 0, day := 0, hour, minute, second := truncInt sec, us }

/-- The time component that `operator+=` adds. Both factors of the products are `int`, and so are
the products and the sum. -/
def timeSecs (dt : RelTime) : Option Int := do
  let hours ← checkedInt (secsPerHour * dt.hour)
  let minutes ← checkedInt (secsPerMinute * dt.minute)
  let secs ← checkedInt (hours + minutes)
  checkedInt (secs + dt.second)

end RelTime

namespace AbsTime

/-- `qore_absolute_time::setLocalIntern`: `epoch` holds the local time. -/
def setLocalIntern (t : AbsTime) (n_us : Int) : AbsTime :=
  let (epoch, us) := normalizeUnits2 .int64 .int t.epoch n_us 1000000
  let off := t.zone.std
  let epoch := epoch - off
  let aoff := t.zone.off epoch
  let epoch := if aoff ≠ off then epoch - (aoff - off) else epoch
  { t with epoch, us := us.toNat }

/-- `qore_absolute_time::setLocal`. -/
def setLocal (zone : Zone) (n_epoch n_us : Int) : AbsTime :=
  let (epoch, n_us) := normalizeUnits2 .int64 .int n_epoch n_us 1000000
  setLocalIntern { epoch, us := 0, zone } n_us

/-- `qore_absolute_time::set` from the fields of a local time. -/
def set (zone : Zone) (year month day hour minute second n_us : Int) : Option AbsTime := do
  let epoch ← getEpochSecondsTime year month day hour minute second
  return setLocalIntern { epoch, us := 0, zone } n_us

/-- The broken-down fields of `qore_absolute_time::get`. -/
def get (t : AbsTime) : SimpleTm := SimpleTm.set (t.epoch + t.zone.off t.epoch) t.us

/-- `qore_date_private::subtractBy` for two absolute times. -/
def subtractBy (t dt : AbsTime) : RelTime := RelTime.setDifference t.epoch t.us dt

end AbsTime

/-- `normalize_dm`. -/
def normalizeDm (year month day : Int) : Int × Int × Int :=
  let (year, month) :=
    if month > 12 ∨ month < 1 then
      let (year, month) := normalizeUnits2 .int .int year (month - 1) 12
      (year, month + 1)
    else (year, month)
  let day :=
    if month = 2 ∧ day > 28 then (if isLeapYear year then 29 else 28)
    else if day > monthLengths month then monthLengths month
    else day
  (year, month, day)

/-- The first loop of `normalize_day`. Every month takes a day off, so `day` iterations are
enough. -/
def normalizeDayUp : Nat → Int → Int → Int → Int × Int × Int
  | 0, year, month, day => (year, month, day)
  | n + 1, year, month, day =>
    let i := getLastDayOfMonth month year
    if day > i then
      if month + 1 = 13 then normalizeDayUp n (year + 1) 1 (day - i)
      else normalizeDayUp n year (month + 1) (day - i)
    else (year, month, day)

/-- The second loop of `normalize_day`. -/
def normalizeDayDown : Nat → Int → Int → Int → Int × Int × Int
  | 0, year, month, day => (year, month, day)
  | n + 1, year, month, day =>
    if day < 1 then
      if month - 1 = 0 then
        normalizeDayDown n (year - 1) 12 (day + getLastDayOfMonth 12 (year - 1))
      else normalizeDayDown n year (month - 1) (day + getLastDayOfMonth (month - 1) year)
    else (year, month, day)

/-- `normalize_day`. -/
def normalizeDay (year month day : Int) : Int × Int × Int :=
  if day > 0 then normalizeDayUp day.toNat year month day
  else normalizeDayDown (1 - day).toNat year month day

namespace AbsTime

/-- The local second and microseconds of the target day in `operator+=`, with the target year,
month and day. -/
def targetDay (t : AbsTime) (dt : RelTime) : Option (SimpleTm × Int × Int × Int) := do
  let tm := SimpleTm.set (t.epoch + t.zone.off t.epoch) t.us
  let year ← checkedInt (tm.year + dt.year)
  let month ← checkedInt (tm.month + dt.month)
  let (year, month, day) := normalizeDm year month tm.day
  let day ← checkedInt (day + dt.day)
  return (tm, normalizeDay year month day)

/-- The first branch of `operator+=`: the epoch and the microseconds at the original time of the
target day. -/
def addDate (t : AbsTime) (dt : RelTime) : Option (Int × Int) := do
  let (tm, year, month, day) ← targetDay t dt
  let epoch ← getEpochSecondsTime year month day tm.hour tm.minute tm.second
  return (epoch - t.zone.off epoch, tm.us)

/-- The `if` of `operator+=`: only a date component leads to the calendar. -/
def addDatePart (t : AbsTime) (dt : RelTime) : Option (Int × Int) :=
  if dt.year ≠ 0 ∨ dt.month ≠ 0 ∨ dt.day ≠ 0 then addDate t dt else some (t.epoch, (t.us : Int))

/-- `qore_absolute_time::operator+=`. -/
def add (t : AbsTime) (dt : RelTime) : Option AbsTime := do
  let (epoch, usecs) ← addDatePart t dt
  let usecs ← checkedInt (usecs + dt.us)
  let secs ← dt.timeSecs
  let (epoch, usecs) := normalizeUnits2 .int64 .int (epoch + secs) usecs 1000000
  return { t with epoch, us := usecs.toNat }

end AbsTime

/-! ### Local times -/

/-- `setLocalIntern` guesses with the standard offset and takes the offset at the guess. -/
theorem setLocalIntern_eq (t : AbsTime) {us : Nat} (hus : us < 1000000) :
    t.setLocalIntern us =
      { t with epoch := t.epoch - t.zone.off (t.epoch - t.zone.std), us } := by
  have hunits : normalizeUnits2 .int64 .int t.epoch us 1000000 = (t.epoch, (us : Int)) := by
    unfold normalizeUnits2 carryUnits
    rw [if_neg (by omega)]
    simp
  unfold AbsTime.setLocalIntern
  simp only [hunits, Int.toNat_natCast]
  split <;> rename_i haoff
  · congr 1
    omega
  · rw [not_ne_iff] at haoff
    rw [haoff]

/-- The second that `getEpochSeconds` computes for a date and a second of the day. -/
def localSecs (d : Date) (sec : Int) : Int := 86400 * (d.number - lostDays d.year) + sec

theorem getEpochSecondsTime_date (d : Date) {sec : Int} (hfits : EpochFits d.year d.month d.day) :
    getEpochSecondsTime d.year d.month d.day (sec / 3600) (sec % 3600 / 60) (sec % 60) =
      some (localSecs d sec) := by
  unfold getEpochSecondsTime
  rw [getEpochSeconds_date d hfits]
  show some _ = some _
  congr 1
  unfold localSecs
  omega

/-- `set` with the fields of a date and a second of the day. -/
theorem set_date (z : Zone) (d : Date) (sec : Int) {us : Nat} (hus : us < 1000000)
    (hfits : EpochFits d.year d.month d.day) :
    AbsTime.set z d.year d.month d.day (sec / 3600) (sec % 3600 / 60) (sec % 60) us =
      some { epoch := localSecs d sec - z.off (localSecs d sec - z.std), us, zone := z } := by
  unfold AbsTime.set
  rw [getEpochSecondsTime_date d hfits]
  simp only [Option.bind_eq_bind, Option.bind_some, setLocalIntern_eq _ hus, Option.pure_def]

theorem set_eq_none (z : Zone) (d : Date) (sec us : Int)
    (hfits : ¬EpochFits d.year d.month d.day) :
    AbsTime.set z d.year d.month d.day (sec / 3600) (sec % 3600 / 60) (sec % 60) us = none := by
  unfold AbsTime.set getEpochSecondsTime
  rw [getEpochSeconds_eq_none d hfits]
  rfl

/-- A time whose wall clock shows a date and a second of the day reads back as these. -/
theorem get_date {t : AbsTime} {d : Date} {sec : Int} (hsec : 0 ≤ sec ∧ sec < 86400)
    (hyear : -2147483648 < d.year ∧ d.year ≤ 2147483647) (hus : t.us < 1000000)
    (h : t.epoch + t.zone.off t.epoch = 86400 * d.number + sec) :
    t.get = SimpleTm.of d sec t.us := by
  unfold AbsTime.get
  rw [h, SimpleTm.set_date d hyear hsec hus]

/-! ### The difference of two times -/

/-- The microseconds from `b` to `a`. -/
def microsBetween (a b : AbsTime) : Int := (a.epoch - b.epoch) * 1000000 + (a.us - b.us)

/-- The whole seconds from `b` to `a`, towards zero. -/
def secsBetween (a b : AbsTime) : Int := (microsBetween a b).tdiv 1000000

/-- `normalize_units` on a pair whose smaller part is less than one unit. -/
theorem normalizeUnits_signs {T1 T2 : IntType} {x y r : Int} (hy : -r < y ∧ y < r) :
    normalizeUnits T1 T2 x y r = ((x * r + y).tdiv r, (x * r + y).tmod r) := by
  have hcarry : carryUnits T1 T2 x y r = (x, y) := if_neg (by omega)
  unfold normalizeUnits
  simp only [hcarry]
  -- the quotient of a sum with parts of one sign
  have key : ∀ q m : Int, x * r + y = q * r + m → -r < m → m < r → (0 < q → 0 ≤ m) →
      (q < 0 → m ≤ 0) → (q, m) = ((x * r + y).tdiv r, (x * r + y).tmod r) := by
    intro q m heq hlow hhigh hpos hneg
    have hq : (x * r + y).tdiv r = q := by
      rw [heq, tdiv_eq_ite]
      split <;> rename_i hsum
      · have hm : 0 ≤ m := by
          obtain hq | hq | hq := lt_trichotomy q 0
          · have := hneg hq
            nlinarith
          · subst hq
            omega
          · exact hpos hq
        rw [Int.add_comm, Int.add_mul_ediv_right _ _ (by omega), Int.ediv_eq_zero_of_lt hm hhigh]
        omega
      · have hm : m ≤ 0 := by
          obtain hq | hq | hq := lt_trichotomy q 0
          · exact hneg hq
          · subst hq
            omega
          · have := hpos hq
            nlinarith
        rw [show -(q * r + m) = -m + -q * r by ring, Int.add_mul_ediv_right _ _ (by omega),
          Int.ediv_eq_zero_of_lt (by omega) (by omega)]
        omega
    rw [tmod_eq_sub, hq, heq]
    congr 1
    ring
  split_ifs
  · exact key _ _ (by ring) (by omega) (by omega) (by omega) (by omega)
  · exact key _ _ (by ring) (by omega) (by omega) (by omega) (by omega)
  · exact key _ _ (by ring) (by omega) (by omega) (by omega) (by omega)
  · exact key _ _ (by ring) (by omega) (by omega) (by omega) (by omega)

/-- `normalize_units` from zero splits a count that the types hold. -/
theorem normalizeUnits_split {s r : Int} (hr : 0 < r) (hfits : FitsInt (s.tdiv r)) :
    normalizeUnits .int .int64 0 s r = (s.tdiv r, s.tmod r) := by
  by_cases hbig : s ≤ -r ∨ s ≥ r
  · have hcarry : carryUnits .int .int64 0 s r = (s.tdiv r, s.tmod r) := by
      unfold carryUnits
      rw [if_pos hbig, tmod_eq_sub]
      simp only [IntType.convert, truncInt_of_fits hfits, zero_add]
      rw [mul_comm]
    unfold normalizeUnits
    simp only [hcarry]
    -- the carry has left both parts with one sign
    have hpos : 0 < s.tdiv r → 0 ≤ s.tmod r := by
      intro h
      refine Int.tmod_nonneg r ?_
      by_contra hs
      rw [tdiv_eq_ite, if_neg hs] at h
      have := Int.ediv_nonneg (show 0 ≤ -s by omega) hr.le
      omega
    have hneg : s.tdiv r < 0 → s.tmod r ≤ 0 := by
      intro h
      have hs : s < 0 := by
        by_contra hs
        have := Int.tdiv_nonneg (show 0 ≤ s by omega) hr.le
        omega
      have := Int.tmod_nonneg (a := -s) r (by omega)
      rw [Int.neg_tmod] at this
      omega
    split_ifs <;> first | rfl | omega
  · have hsmall : -r < s ∧ s < r := by omega
    rw [normalizeUnits_signs hsmall]
    simp

/-- The difference, spread over hours, minutes, seconds and microseconds of one sign. -/
theorem subtractBy_eq {a b : AbsTime} (ha : a.us < 1000000) (hb : b.us < 1000000)
    (hhour : FitsInt ((a.epoch - b.epoch).tdiv 3600)) :
    a.subtractBy b =
      { year := 0, month := 0, day := 0, hour := (secsBetween a b).tdiv 3600,
        minute := ((secsBetween a b).tmod 3600).tdiv 60,
        second := ((secsBetween a b).tmod 3600).tmod 60,
        us := (microsBetween a b).tmod 1000000 } := by
  have hus : truncInt ((a.us : Int) - b.us) = a.us - b.us :=
    truncInt_of_fits (by unfold FitsInt; omega)
  have hsec : normalizeUnits .int64 .int (a.epoch - b.epoch) (a.us - b.us) 1000000 =
      (secsBetween a b, (microsBetween a b).tmod 1000000) :=
    normalizeUnits_signs (by omega)
  have hle : FitsInt ((secsBetween a b).tdiv 3600) := by
    unfold FitsInt at hhour ⊢
    unfold secsBetween microsBetween
    rw [tdiv_eq_ite] at hhour ⊢
    rw [tdiv_eq_ite]
    split_ifs at hhour ⊢ <;> omega
  have hmin : ∀ s : Int, FitsInt ((s.tmod 3600).tdiv 60) := by
    intro s
    unfold FitsInt
    rw [tdiv_eq_ite, tmod_eq_sub, tdiv_eq_ite]
    split_ifs <;> omega
  have hlast : ∀ s : Int, FitsInt (s.tmod 60) := by
    intro s
    unfold FitsInt
    rw [tmod_eq_sub, tdiv_eq_ite]
    split_ifs <;> omega
  unfold AbsTime.subtractBy RelTime.setDifference
  simp only [hus, hsec, normalizeUnits_split (by decide) hle,
    normalizeUnits_split (by decide) (hmin (secsBetween a b)), truncInt_of_fits (hlast _)]

/-- `normalize_units2` on microseconds. -/
theorem normalizeUnits2_micros {e u : Int} (hu : FitsInt u) :
    normalizeUnits2 .int64 .int e u 1000000 = (e + u / 1000000, u % 1000000) := by
  unfold FitsInt at hu
  unfold normalizeUnits2 carryUnits
  have hconv : truncInt (u.tdiv 1000000 * 1000000) = u.tdiv 1000000 * 1000000 := by
    refine truncInt_of_fits ?_
    unfold FitsInt
    rw [tdiv_eq_ite]
    split_ifs <;> omega
  simp only [IntType.convert, hconv]
  simp only [tdiv_eq_ite]
  split_ifs <;> simp only [Prod.mk.injEq, true_and] <;> omega

/-- The hours, minutes and seconds of one count add up without overflow exactly when the count
fits. -/
theorem RelTime.timeSecs_eq {dt : RelTime} {s : Int} (hh : dt.hour = s.tdiv 3600)
    (hm : dt.minute = (s.tmod 3600).tdiv 60) (hsec : dt.second = (s.tmod 3600).tmod 60) :
    dt.timeSecs = checkedInt s := by
  have hhour : secsPerHour = 3600 := rfl
  have hminute : secsPerMinute = 60 := rfl
  -- the partial sums lie between zero and the count
  have hparts : 3600 * s.tdiv 3600 + 60 * (s.tmod 3600).tdiv 60 + (s.tmod 3600).tmod 60 = s := by
    rw [tmod_eq_sub (s.tmod 3600), tmod_eq_sub]
    omega
  have hbounds : (0 ≤ s → 0 ≤ 3600 * s.tdiv 3600 ∧ 0 ≤ 60 * (s.tmod 3600).tdiv 60 ∧
      60 * (s.tmod 3600).tdiv 60 < 3600 ∧ 0 ≤ (s.tmod 3600).tmod 60) ∧
      (s < 0 → 3600 * s.tdiv 3600 ≤ 0 ∧ 60 * (s.tmod 3600).tdiv 60 ≤ 0 ∧
      -3600 < 60 * (s.tmod 3600).tdiv 60 ∧ (s.tmod 3600).tmod 60 ≤ 0) := by
    rw [tmod_eq_sub (s.tmod 3600), tmod_eq_sub]
    constructor
    · intro h0
      rw [tdiv_eq_ite s, if_pos h0, tdiv_eq_ite, if_pos (by omega)]
      omega
    · intro hneg
      rw [tdiv_eq_ite s, if_neg (by omega), tdiv_eq_ite]
      split_ifs <;> omega
  unfold RelTime.timeSecs
  rw [hhour, hminute, hh, hm, hsec]
  by_cases hs : FitsInt s
  · have hrange := hs
    unfold FitsInt at hrange
    rw [checkedInt_of_fits (x := 3600 * s.tdiv 3600) (by unfold FitsInt; omega),
      checkedInt_of_fits (x := 60 * (s.tmod 3600).tdiv 60) (by unfold FitsInt; omega)]
    simp only [Option.bind_eq_bind, Option.bind_some]
    rw [checkedInt_of_fits (x := 3600 * s.tdiv 3600 + 60 * (s.tmod 3600).tdiv 60)
      (by unfold FitsInt; omega)]
    simp only [Option.bind_some, hparts]
  · rw [checkedInt_of_not_fits hs, Option.eq_none_iff_forall_ne_some]
    intro r hr
    simp only [Option.bind_eq_bind, Option.bind_eq_some_iff, checkedInt_eq_some_iff] at hr
    obtain ⟨_, ⟨_, rfl⟩, _, ⟨_, rfl⟩, _, ⟨_, rfl⟩, hfits, _⟩ := hr
    rw [hparts] at hfits
    exact hs hfits

/-- Adding the difference of two times to the second one. -/
theorem add_subtractBy_iff (a b : AbsTime) (ha : a.us < 1000000) (hb : b.us < 1000000)
    (hhour : FitsInt ((a.epoch - b.epoch).tdiv 3600)) :
    b.add (a.subtractBy b) = some { b with epoch := a.epoch, us := a.us } ↔
      FitsInt (secsBetween a b) := by
  have hmicros : FitsInt ((b.us : Int) + (microsBetween a b).tmod 1000000) := by
    unfold FitsInt
    rw [tmod_eq_sub, tdiv_eq_ite]
    split_ifs <;> omega
  -- the sum of the microseconds, normalised
  have hepoch : b.epoch + secsBetween a b + (b.us + (microsBetween a b).tmod 1000000) / 1000000 =
      a.epoch := by
    rw [tmod_eq_sub]
    show _ + secsBetween a b + (_ + (microsBetween a b - 1000000 * secsBetween a b)) / _ = _
    unfold microsBetween
    omega
  have hus : ((b.us : Int) + (microsBetween a b).tmod 1000000) % 1000000 = a.us := by
    rw [tmod_eq_sub]
    show (_ + (microsBetween a b - 1000000 * secsBetween a b)) % _ = _
    unfold microsBetween
    omega
  have hadd : b.add (a.subtractBy b) = (checkedInt (secsBetween a b)).bind fun secs =>
      some { b with
        epoch := b.epoch + secs + (b.us + (microsBetween a b).tmod 1000000) / 1000000,
        us := a.us } := by
    rw [subtractBy_eq ha hb hhour]
    unfold AbsTime.add AbsTime.addDatePart
    rw [RelTime.timeSecs_eq rfl rfl rfl]
    simp only [ne_eq, not_true_eq_false, or_self, ↓reduceIte, Option.bind_eq_bind,
      Option.bind_some, checkedInt_of_fits hmicros, normalizeUnits2_micros hmicros, hus,
      Int.toNat_natCast, Option.pure_def]
  rw [hadd]
  by_cases hs : FitsInt (secsBetween a b)
  · rw [checkedInt_of_fits hs, Option.bind_some, hepoch]
    simp [hs]
  · rw [checkedInt_of_not_fits hs]
    simp [hs]

/-- A difference of one day and a half. -/
theorem add_subtractBy_days :
    (⟨0, 500000, .utc⟩ : AbsTime).add ((⟨126268, 344000, .utc⟩ : AbsTime).subtractBy
      ⟨0, 500000, .utc⟩) = some ⟨126268, 344000, .utc⟩ :=
  (add_subtractBy_iff ⟨126268, 344000, .utc⟩ ⟨0, 500000, .utc⟩ (by decide) (by decide)
    (by decide)).mpr (by decide)

/-- 2^31 seconds are 596523 hours and 14 minutes, and the product with `SECS_PER_HOUR` and the
minutes do not fit an `int`. -/
theorem add_subtractBy_overflow : ¬∀ a b : AbsTime, a.us < 1000000 → b.us < 1000000 →
    FitsInt ((a.epoch - b.epoch).tdiv 3600) →
    b.add (a.subtractBy b) = some { b with epoch := a.epoch, us := a.us } := by
  intro h
  have hres := h ⟨2147483648, 0, .utc⟩ ⟨0, 0, .utc⟩ (by decide) (by decide) (by decide)
  have hnone : ((⟨0, 0, .utc⟩ : AbsTime).add ((⟨2147483648, 0, .utc⟩ : AbsTime).subtractBy
      ⟨0, 0, .utc⟩)).isSome = false := by decide
  rw [hres] at hnone
  cases hnone

end Qore.Date
