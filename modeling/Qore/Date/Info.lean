import Qore.Lib.CInt
import Qore.Lib.Gregorian

/-!
# `Qore.Date.Info`: broken-down dates and epoch seconds

`qore_date_info`, the unit normalisation templates and `qore_simple_tm` of
`qore_date_private.h`. `int` arithmetic that can overflow is checked (`checkedInt`), so a
function whose result is `none` ran into an overflow. The seconds are `int64` in the source
and `Int` here.

* `getEpochSeconds_date`: the seconds of a date are those of the calendar, but for the day
  that `leap_days_from_epoch` loses in some years before year 1 (`lostDays`), as long as the
  day part fits an `int` (`EpochFits`).
* `SimpleTm.set_date`: the broken-down form of a second is the date of its day and the time in
  the day, for every year.
-/

set_option autoImplicit false

namespace Qore.Date

open Qore.Lib
open Qore.Lib.Gregorian (Date leap yearStart yearLength monthLength daysBeforeMonth leapsThrough)

/-! ### Units -/

/-- `SECS_PER_MINUTE`. -/
def secsPerMinute : Int := 60

/-- `SECS_PER_HOUR`. -/
def secsPerHour : Int := secsPerMinute * 60

/-- `SECS_PER_DAY`. -/
def secsPerDay : Int := secsPerHour * 24

/-- `SECS_PER_YEAR`. -/
def secsPerYear : Int := secsPerDay * 365

/-- `SECS_TO_2KLD`: from 1970-01-01 to 2000-03-01. -/
def secsTo2kld : Int := secsPerYear * 30 + secsPerDay * (7 + 60)

/-- `SECS_IN_400_YEARS`. -/
def secsIn400Years : Int := secsPerYear * 400 + secsPerDay * 97

/-- `SECS_IN_100_YEARS`. -/
def secsIn100Years : Int := secsPerYear * 100 + secsPerDay * 24

/-- `SECS_IN_4_YEARS`. -/
def secsIn4Years : Int := secsPerYear * 4 + secsPerDay

/-- `LEAPDAY_OFFSET`. -/
def leapdayOffset : Int := secsPerDay * 59

/-- `SECS_AFTER_LD`. -/
def secsAfterLd : Int := secsPerDay * 306

/-- The integer types of the unit templates. -/
inductive IntType
  | int
  | int64

/-- The conversion of an `int64` to a type of the templates. -/
def IntType.convert : IntType → Int → Int
  | .int, x => truncInt x
  | .int64, x => x

/-- The first half of `normalize_units` and `normalize_units2`: whole units go from `smaller` to
`bigger`. -/
def carryUnits (T1 T2 : IntType) (bigger smaller ratio : Int) : Int × Int :=
  if smaller ≤ -ratio ∨ smaller ≥ ratio then
    let units := smaller.tdiv ratio
    (bigger + T1.convert units, smaller - T2.convert (units * ratio))
  else (bigger, smaller)

/-- `normalize_units<T1, T2>`: after the carry both get the same sign. -/
def normalizeUnits (T1 T2 : IntType) (bigger smaller ratio : Int) : Int × Int :=
  let (bigger, smaller) := carryUnits T1 T2 bigger smaller ratio
  if bigger > 0 then
    if smaller < 0 then (bigger - 1, smaller + ratio) else (bigger, smaller)
  else if bigger < 0 ∧ smaller > 0 then (bigger + 1, smaller - ratio)
  else (bigger, smaller)

/-- `normalize_units2<T1, T2>`: after the carry `smaller` is made positive. -/
def normalizeUnits2 (T1 T2 : IntType) (bigger smaller ratio : Int) : Int × Int :=
  let (bigger, smaller) := carryUnits T1 T2 bigger smaller ratio
  if smaller < 0 then (bigger - 1, smaller + ratio) else (bigger, smaller)

/-- `normalize_units3<T1>`, for an unsigned `smaller`. -/
def normalizeUnits3 (bigger : Int) (smaller : Nat) (ratio : Nat) : Int × Nat :=
  if smaller ≥ ratio then (bigger + smaller / ratio, smaller - smaller / ratio * ratio)
  else (bigger, smaller)

/-! ### `qore_date_info` -/

/-- `qore_date_info::month_lengths`. -/
def monthLengths (i : Int) : Int :=
  [0, 31, 28, 31, 30, 31, 30, 31, 31, 30, 31, 30, 31].getD i.toNat 0

/-- `qore_date_info::positive_months`. -/
def positiveMonths (i : Int) : Int :=
  [0, 31, 59, 90, 120, 151, 181, 212, 243, 273, 304, 334, 365].getD i.toNat 0

/-- `qore_date_info::isLeapYear`. -/
def isLeapYear (year : Int) : Bool :=
  if year.tmod 100 = 0 then year.tmod 400 = 0 else year.tmod 4 = 0

/-- The end of `qore_date_info::get_epoch_year`: `epoch` are the seconds from 2000-03-01 in the
400-year period `mult`. The leap year flag is only exact where the month loop of
`SimpleTm.set` reads it. The year 2147483648 stands for the overflow of `++year`. -/
def getCycleYear (mult epoch : Int) : Int × Int × Bool :=
  let d := epoch.tdiv secsIn100Years
  let d := if d = 4 then 3 else d
  let epoch := epoch - d * secsIn100Years
  let yo := 100 * d
  let d := epoch.tdiv secsIn4Years
  let epoch := epoch - d * secsIn4Years
  let yo := yo + d * 4
  let ly : Bool := epoch < secsAfterLd ∨ epoch ≥ secsPerYear * 4
  let d := epoch.tdiv secsPerYear
  let d := if d = 4 then 3 else d
  let epoch := epoch - d * secsPerYear
  let yo := yo + d
  let year := truncInt (mult * 400 + 2000 + yo)
  if epoch ≥ secsAfterLd then (epoch - secsAfterLd, year + 1, ly)
  else (epoch + leapdayOffset + (if ly then secsPerDay else 0), year, ly)

/-- `qore_date_info::get_epoch_year`: the remaining seconds, the year and the leap year flag. -/
def getEpochYear (epoch : Int) : Int × Int × Bool :=
  let epoch := epoch - secsTo2kld
  let mult := epoch.tdiv secsIn400Years
  let epoch := epoch.tmod secsIn400Years
  if epoch = 0 then (leapdayOffset + secsPerDay, truncInt (mult * 400 + 2000), true)
  -- the seconds in the 400 years are made positive
  else if epoch < 0 then getCycleYear (mult - 1) (epoch + secsIn400Years)
  else getCycleYear mult epoch

/-- `qore_date_info::leap_days_from_epoch`. -/
def leapDaysFromEpoch (year month : Int) : Int :=
  if year ≥ 1970 then
    let d := year.tdiv 4 - year.tdiv 100 + year.tdiv 400 - 477
    if month < 3 ∧ isLeapYear year then d - 1 else d
  else
    let year := year - 1
    let d := year.tdiv 4 - year.tdiv 100 + year.tdiv 400 - 477
    let d := if year < 0 then d - 1 else d
    if month > 2 ∧ isLeapYear (year + 1) then d + 1 else d

/-- `qore_date_info::getLastDayOfMonth`. -/
def getLastDayOfMonth (month year : Int) : Int :=
  if month ≠ 2 then monthLengths month else if isLeapYear year then 29 else 28

/-- `qore_date_info::getEpochSeconds(int, int, int)`. -/
def getEpochSeconds (year month day : Int) : Option Int := do
  let month := if month < 1 then 1 else if month > 12 then 12 else month
  let day := if day < 1 then 1 else day
  let years ← checkedInt (year - 1970)
  let days ← checkedInt (positiveMonths (month - 1) + day)
  let days ← checkedInt (days - 1 + leapDaysFromEpoch year month)
  -- `SECS_PER_DAY` is an `int`, unlike `SECS_PER_YEAR`
  let secs ← checkedInt (days * secsPerDay)
  return years * secsPerYear + secs

/-- `qore_date_info::getEpochSeconds(int, int, int, int, int, int)`. -/
def getEpochSecondsTime (year month day hour minute second : Int) : Option Int := do
  let secs ← getEpochSeconds year month day
  return secs + hour * 3600 + minute * 60 + second

/-! ### `qore_simple_tm` -/

/-- `qore_simple_tm`. -/
structure SimpleTm where
  year : Int
  month : Int
  day : Int
  hour : Int
  minute : Int
  second : Int
  us : Int
  deriving DecidableEq

/-- The month loop of `qore_simple_tm::set`, from `month` on with `n` months before December. -/
def findMonth (ly : Bool) : Nat → Int → Int → Int × Int
  | 0, month, day => (month, day)
  | n + 1, month, day =>
    let ml := if ly ∧ month = 2 then 29 else monthLengths month
    if ml > day then (month, day) else findMonth ly n (month + 1) (day - ml)

/-- `qore_simple_tm::set(int64, unsigned)`. -/
def SimpleTm.set (seconds : Int) (my_us : Nat) : SimpleTm :=
  let (seconds, us) := normalizeUnits3 seconds my_us 1000000
  let (seconds, year, ly) := getEpochYear seconds
  let day := seconds.tdiv secsPerDay
  let seconds := seconds.tmod secsPerDay
  let (month, day) := findMonth ly 11 1 day
  let hour := seconds.tdiv secsPerHour
  let second := seconds.tmod secsPerHour
  let minute := second.tdiv secsPerMinute
  let second := second.tmod secsPerMinute
  { year, month, day := day + 1, hour, minute, second, us }

theorem isLeapYear_eq (year : Int) : isLeapYear year = leap year := by
  unfold isLeapYear leap
  simp only [tmod_eq_zero_iff]
  split
  · congr 1
    apply propext
    omega
  · congr 1
    apply propext
    omega

/-! ### The seconds of a date -/

/-- The days that `leap_days_from_epoch` loses: the leap day of year `year - 1` is counted
twice when that year is negative. -/
def lostDays (year : Int) : Int := if year ≤ 0 ∧ leap (year - 1) then 1 else 0

variable {y : Int} (d : Date)

/-- The truncating quotients count the leap years from year 1 on; before it they miss the
years that are not leap. -/
theorem tdiv_leaps_of_nonneg (hy : 0 ≤ y) :
    y.tdiv 4 - y.tdiv 100 + y.tdiv 400 = leapsThrough y := by
  simp only [Int.tdiv_eq_ediv_of_nonneg hy, leapsThrough]

theorem tdiv_leaps_of_neg (hy : y < 0) :
    y.tdiv 4 - y.tdiv 100 + y.tdiv 400 = leapsThrough y + 1 - (if leap y then 1 else 0) := by
  have hleap := Gregorian.leap_iff y
  have hnot : ¬0 ≤ y := by omega
  simp only [tdiv_eq_ite, if_neg hnot, leapsThrough]
  split <;> rename_i h
  · have := hleap.mp h
    omega
  · have : ¬(y % 4 = 0 ∧ (y % 100 ≠ 0 ∨ y % 400 = 0)) := fun hc => h (hleap.mpr hc)
    omega

theorem leapsThrough_pred (y : Int) :
    leapsThrough y = leapsThrough (y - 1) + (if leap y then 1 else 0) := by
  have hsucc := Gregorian.yearStart_succ y
  unfold yearStart yearLength at hsucc
  rw [show y + 1 - 1 = y by omega] at hsucc
  cases hl : leap y <;> simp only [hl, Bool.false_eq_true, ↓reduceIte] at hsucc ⊢ <;> omega

theorem leapDaysFromEpoch_eq (year month : Int) :
    leapDaysFromEpoch year month =
      leapsThrough (year - 1) - 477 + (if 2 < month ∧ leap year then 1 else 0) - lostDays year := by
  unfold leapDaysFromEpoch lostDays
  simp only [isLeapYear_eq, show year - 1 + 1 = year by omega]
  have hpred := leapsThrough_pred year
  by_cases h70 : year ≥ 1970
  · -- the sum includes the leap day of the year itself
    rw [if_pos h70, if_neg (show ¬(year ≤ 0 ∧ leap (year - 1) = true) by omega)]
    rw [tdiv_leaps_of_nonneg (by omega), hpred]
    by_cases hm : 2 < month
    · have hm3 : ¬month < 3 := by omega
      cases leap year <;> simp [hm, hm3]
      omega
    · have hm3 : month < 3 := by omega
      cases leap year <;> simp [hm, hm3]
      omega
  · rw [if_neg h70]
    by_cases h1 : year - 1 < 0
    · have h0 : year ≤ 0 := by omega
      rw [tdiv_leaps_of_neg h1, if_pos h1]
      by_cases hm : 2 < month <;> cases leap year <;> cases leap (year - 1) <;>
        simp [hm, h0] <;> omega
    · rw [tdiv_leaps_of_nonneg (by omega), if_neg h1,
        if_neg (show ¬(year ≤ 0 ∧ leap (year - 1) = true) by omega)]
      by_cases hm : 2 < month <;> cases leap year <;> simp [hm]

/-- The day part of `getEpochSeconds`, in days. -/
def epochDays (year month day : Int) : Int :=
  positiveMonths (month - 1) + day - 1 + leapDaysFromEpoch year month

/-- The day part of `getEpochSeconds` fits an `int`. It does from the year -100572 to the year
102970. -/
def EpochFits (year month day : Int) : Prop := FitsInt (epochDays year month day * secsPerDay)

instance (year month day : Int) : Decidable (EpochFits year month day) := by
  unfold EpochFits; infer_instance

theorem positiveMonths_bounds {month : Int} (hm : 1 ≤ month ∧ month ≤ 12) :
    0 ≤ positiveMonths (month - 1) ∧ positiveMonths (month - 1) ≤ 334 := by
  obtain ⟨h1, h12⟩ := hm
  interval_cases month <;> decide

theorem daysBeforeMonth_eq {year month : Int} (hm : 1 ≤ month ∧ month ≤ 12) :
    daysBeforeMonth year month =
      positiveMonths (month - 1) + (if 2 < month ∧ leap year then 1 else 0) := by
  obtain ⟨h1, h12⟩ := hm
  interval_cases month <;> rfl

theorem epochDays_date :
    365 * (d.year - 1970) + epochDays d.year d.month d.day = d.number - lostDays d.year := by
  unfold epochDays Date.number Date.dayOfYear yearStart
  rw [leapDaysFromEpoch_eq, daysBeforeMonth_eq d.month_mem]
  omega

/-- The day part is small only for years that are no danger to the other products. -/
theorem EpochFits.year_bounds {d : Date} (h : EpochFits d.year d.month d.day) :
    -110000 ≤ d.year ∧ d.year ≤ 110000 := by
  have hmonth := positiveMonths_bounds d.month_mem
  have hlen := Gregorian.monthLength_bounds d.year d.month
  have hday := d.day_mem
  have hlost : 0 ≤ lostDays d.year ∧ lostDays d.year ≤ 1 := by
    unfold lostDays
    split <;> omega
  unfold EpochFits FitsInt epochDays at h
  rw [leapDaysFromEpoch_eq] at h
  have hsecs : secsPerDay = 86400 := rfl
  rw [hsecs] at h
  unfold leapsThrough at h
  split at h <;> omega

/-- The seconds of a date. -/
theorem getEpochSeconds_date (h : EpochFits d.year d.month d.day) :
    getEpochSeconds d.year d.month d.day =
      some (86400 * (d.number - lostDays d.year)) := by
  have hyear := h.year_bounds
  have hmonth := positiveMonths_bounds d.month_mem
  have hlen := Gregorian.monthLength_bounds d.year d.month
  have hday := d.day_mem
  have hm := d.month_mem
  have hsum := epochDays_date d
  have hsecs : secsPerDay = 86400 := rfl
  have hfits := h
  unfold EpochFits at h
  unfold FitsInt at h
  rw [hsecs] at h
  unfold getEpochSeconds
  dsimp only
  rw [if_neg (show ¬d.month < 1 by omega), if_neg (show ¬d.month > 12 by omega),
    if_neg (show ¬d.day < 1 by omega)]
  rw [checkedInt_of_fits (show FitsInt (d.year - 1970) by unfold FitsInt; omega)]
  rw [checkedInt_of_fits (show FitsInt (positiveMonths (d.month - 1) + d.day) by
    unfold FitsInt; omega)]
  have hdays : positiveMonths (d.month - 1) + d.day - 1 + leapDaysFromEpoch d.year d.month =
      epochDays d.year d.month d.day := rfl
  simp only [Option.bind_eq_bind, Option.bind_some, hdays]
  rw [checkedInt_of_fits (show FitsInt (epochDays d.year d.month d.day) by
    unfold FitsInt; omega)]
  simp only [Option.bind_some]
  rw [checkedInt_of_fits hfits]
  have hyears : secsPerYear = 31536000 := rfl
  simp only [Option.bind_some, Option.pure_def, Option.some.injEq, hsecs, hyears]
  omega

/-- The overflow of the day part. -/
theorem getEpochSeconds_eq_none (h : ¬EpochFits d.year d.month d.day) :
    getEpochSeconds d.year d.month d.day = none := by
  have hm := d.month_mem
  have hday := d.day_mem
  unfold getEpochSeconds
  rw [if_neg (show ¬d.month < 1 by omega), if_neg (show ¬d.month > 12 by omega),
    if_neg (show ¬d.day < 1 by omega)]
  rw [Option.eq_none_iff_forall_ne_some]
  intro secs hsecs
  simp only [Option.bind_eq_bind, Option.bind_eq_some_iff, checkedInt_eq_some_iff] at hsecs
  obtain ⟨_, _, _, ⟨_, rfl⟩, _, ⟨_, rfl⟩, _, ⟨hfits, _⟩, _⟩ := hsecs
  exact h hfits

/-! ### The date of a second -/

theorem monthLength_eq {z month : Int} (hm : 1 ≤ month ∧ month ≤ 12) :
    (if leap z = true ∧ month = 2 then 29 else monthLengths month) = monthLength z month := by
  obtain ⟨h1, h12⟩ := hm
  unfold monthLengths monthLength
  interval_cases month <;> cases leap z <;> rfl

/-- The month loop finds the month of a day of the year, for any year `z` with the flag. -/
theorem findMonth_spec (z : Int) (n : Nat) : ∀ month day : Int, month + n = 12 → 1 ≤ month →
    0 ≤ day → daysBeforeMonth z month + day < yearLength z →
    ∃ m a, findMonth (leap z) n month day = (m, a) ∧ (month ≤ m ∧ m ≤ 12) ∧
      (0 ≤ a ∧ a < monthLength z m) ∧ daysBeforeMonth z m + a = daysBeforeMonth z month + day := by
  induction n with
  | zero =>
    intro month day hmonth _ h0 hday
    have hdec : month = 12 := by omega
    subst hdec
    have hend := Gregorian.daysBeforeMonth_end z
    exact ⟨12, day, rfl, by omega, ⟨h0, show day < 31 by omega⟩, rfl⟩
  | succ n ih =>
    intro month day hmonth h1 h0 hday
    have hm : 1 ≤ month ∧ month ≤ 12 := by omega
    unfold findMonth
    dsimp only
    rw [monthLength_eq hm]
    split <;> rename_i hml
    · exact ⟨month, day, rfl, by omega, by omega, rfl⟩
    · have hsucc := Gregorian.daysBeforeMonth_succ (y := z) hm
      obtain ⟨m, a, heq, hmem, ha, hsum⟩ :=
        ih (month + 1) (day - monthLength z month) (by omega) (by omega) (by omega) (by omega)
      exact ⟨m, a, heq, by omega, ha, by omega⟩

/-- The year and the flag of `get_epoch_year` for day number `n`, with `k` the days counted
from the start of the year. From March on the flag only has to agree with the count. -/
def Aligned (n y k : Int) (ly : Bool) : Prop :=
  (0 ≤ k ∧ k < 59 ∧ n = yearStart y + k) ∨
  (k = 59 ∧ ly = true ∧ leap y = true ∧ n = yearStart y + 59) ∨
  (59 ≤ k - ly.toNat ∧ k - ly.toNat < 365 ∧ n = yearStart y + (leap y).toNat + (k - ly.toNat))

variable {M : Int}

/-- The first of March after the periods of `get_epoch_year`. -/
theorem marchFirst {c q a : Int} (hc : 0 ≤ c ∧ c ≤ 3) (hq : 0 ≤ q ∧ q ≤ 24) (ha : 0 ≤ a ∧ a ≤ 3) :
    yearStart (M * 400 + 2000 + (100 * c + q * 4 + a) + 1) =
      11017 + 146097 * M + 36524 * c + 1461 * q + 365 * a + 306 := by
  unfold yearStart leapsThrough
  omega

theorem yearStart_add_leap (y : Int) : yearStart (y + 1) = yearStart y + 365 + (leap y).toNat := by
  rw [Gregorian.yearStart_succ, yearLength]
  cases leap y <;> simp
  omega

/-- The fourth year of a period of `get_epoch_year` ends with a leap day, but for the last one
of a century that does not end the 400 years. -/
theorem leap_of_period {c q : Int} (hq : 0 ≤ q ∧ q ≤ 24) (h : q = 24 → c = 3) :
    leap (M * 400 + 2000 + (100 * c + q * 4 + 3) + 1) = true := by
  rw [Gregorian.leap_iff]
  omega

/-- The periods of 100, 4 and 1 years in the 400-year period, and the seconds `r2` and `r3`
that are left after the second and the third. -/
structure Periods (R c q a r2 r3 : Int) : Prop where
  centuries : 0 ≤ c ∧ c ≤ 3
  fours : 0 ≤ q ∧ q ≤ 24
  years : 0 ≤ a ∧ a ≤ 3
  left : r2 = a * 31536000 + r3
  rest : 0 ≤ r3 ∧ r3 < 31622400
  rest_short : a < 3 → r3 < 31536000
  last : q = 24 → c < 3 → r2 < 126144000
  sum : R = c * 3155673600 + q * 126230400 + a * 31536000 + r3

theorem getCycleYear_periods {R : Int} (hR : 0 ≤ R ∧ R < secsIn400Years) :
    ∃ c q a r2 r3, Periods R c q a r2 r3 ∧ getCycleYear M R =
      if r3 ≥ 26438400 then
        (r3 - 26438400, truncInt (M * 400 + 2000 + (100 * c + q * 4 + a)) + 1,
          decide (r2 < 26438400 ∨ r2 ≥ 126144000))
      else (r3 + 5097600 + (if decide (r2 < 26438400 ∨ r2 ≥ 126144000) then 86400 else 0),
        truncInt (M * 400 + 2000 + (100 * c + q * 4 + a)),
        decide (r2 < 26438400 ∨ r2 ≥ 126144000)) := by
  have h400 : secsIn400Years = 12622780800 := by decide
  have h100 : secsIn100Years = 3155673600 := by decide
  have h4 : secsIn4Years = 126230400 := by decide
  have h1 : secsPerYear = 31536000 := by decide
  have hfour : (31536000 : Int) * 4 = 126144000 := by decide
  have hld : secsAfterLd = 26438400 := by decide
  have hoff : leapdayOffset = 5097600 := by decide
  have hday : secsPerDay = 86400 := by decide
  obtain ⟨c, hc⟩ : ∃ c, c = if R.tdiv 3155673600 = 4 then 3 else R.tdiv 3155673600 := ⟨_, rfl⟩
  obtain ⟨r1, hr1⟩ : ∃ r1, r1 = R - c * 3155673600 := ⟨_, rfl⟩
  obtain ⟨q, hq⟩ : ∃ q, q = r1.tdiv 126230400 := ⟨_, rfl⟩
  obtain ⟨r2, hr2⟩ : ∃ r2, r2 = r1 - q * 126230400 := ⟨_, rfl⟩
  obtain ⟨a, ha⟩ : ∃ a, a = if r2.tdiv 31536000 = 4 then 3 else r2.tdiv 31536000 := ⟨_, rfl⟩
  obtain ⟨r3, hr3⟩ : ∃ r3, r3 = r2 - a * 31536000 := ⟨_, rfl⟩
  refine ⟨c, q, a, r2, r3, ?_, ?_⟩
  · rw [Int.tdiv_eq_ediv_of_nonneg hR.1] at hc
    have hcb : 0 ≤ c ∧ c ≤ 3 ∧ 0 ≤ r1 ∧ r1 < 3155760000 ∧ (c < 3 → r1 < 3155673600) := by
      split at hc <;> omega
    rw [Int.tdiv_eq_ediv_of_nonneg hcb.2.2.1] at hq
    have hqb : 0 ≤ q ∧ q ≤ 24 ∧ 0 ≤ r2 ∧ r2 < 126230400 ∧ (q = 24 → c < 3 → r2 < 126144000) := by
      omega
    rw [Int.tdiv_eq_ediv_of_nonneg hqb.2.2.1] at ha
    have hab : 0 ≤ a ∧ a ≤ 3 ∧ 0 ≤ r3 ∧ r3 < 31622400 ∧ (a < 3 → r3 < 31536000) := by
      split at ha <;> omega
    exact ⟨⟨hcb.1, hcb.2.1⟩, ⟨hqb.1, hqb.2.1⟩, ⟨hab.1, hab.2.1⟩, by omega,
      ⟨hab.2.2.1, hab.2.2.2.1⟩, hab.2.2.2.2, hqb.2.2.2.2, by omega⟩
  · unfold getCycleYear
    simp only [h100, h4, h1, hld, hoff, hday, hfour]
    rw [← hc, ← hr1, ← hq, ← hr2, ← ha, ← hr3]

/-- The smallest `int` is a leap year. -/
theorem leap_minYear : leap (-2147483648) = true := by decide

/-- The year found in a 400-year period. Before March the year before is converted to `int` first,
which the smallest year has none of. -/
theorem getCycleYear_aligned {R : Int} (hR : 0 ≤ R ∧ R < secsIn400Years) : ∃ y k ly,
      (FitsInt y →
        (y = -2147483648 → yearStart y + 60 ≤ 11017 + 146097 * M + R / 86400) →
        getCycleYear M R = (86400 * k + R % 86400, y, ly)) ∧
      (y = -2147483648 → 11017 + 146097 * M + R / 86400 < yearStart y + 60 →
        (getCycleYear M R).2.1 = 2147483648) ∧
      Aligned (11017 + 146097 * M + R / 86400) y k ly := by
  obtain ⟨c, q, a, r2, r3, hp, hcycle⟩ := getCycleYear_periods (M := M) hR
  have hmarch := marchFirst (M := M) hp.centuries hp.fours hp.years
  have hnext := yearStart_add_leap (M * 400 + 2000 + (100 * c + q * 4 + a))
  obtain ⟨hc, hq, ha, hleft, hrest, hshort, hlastq, hsum⟩ := hp
  have hday : R / 86400 = 36524 * c + 1461 * q + 365 * a + r3 / 86400 := by omega
  have hsec : R % 86400 = r3 % 86400 := by omega
  rw [hday, hsec, hcycle]
  by_cases hjan : r3 ≥ 26438400
  · -- January or February of the next year
    refine ⟨M * 400 + 2000 + (100 * c + q * 4 + a) + 1, r3 / 86400 - 306,
      decide (r2 < 26438400 ∨ r2 ≥ 126144000), ?_, ?_, ?_⟩
    · intro hfit hfirst
      unfold FitsInt at hfit
      rw [if_pos hjan, truncInt_of_fits (by unfold FitsInt; omega)]
      congr 1
      omega
    · intro hy _
      have hbefore : M * 400 + 2000 + (100 * c + q * 4 + a) = -2147483649 := by omega
      rw [if_pos hjan, hbefore]
      show truncInt (-2147483649) + 1 = 2147483648
      decide
    · by_cases hlast : r3 / 86400 - 306 < 59
      · exact Or.inl ⟨by omega, hlast, by omega⟩
      · have ha3 : a = 3 := by omega
        subst ha3
        refine Or.inr (Or.inl ⟨by omega, ?_, leap_of_period hq (by omega), by omega⟩)
        rw [decide_eq_true_eq]
        omega
  · refine ⟨M * 400 + 2000 + (100 * c + q * 4 + a),
      r3 / 86400 + 59 + (decide (r2 < 26438400 ∨ r2 ≥ 126144000)).toNat,
      decide (r2 < 26438400 ∨ r2 ≥ 126144000), ?_, ?_, ?_⟩
    · intro hfit _
      rw [if_neg hjan, truncInt_of_fits hfit]
      congr 1
      cases decide (r2 < 26438400 ∨ r2 ≥ 126144000) <;> simp <;> omega
    · intro hy hfirst
      -- the smallest year is past its leap day
      rw [hy, leap_minYear, Bool.toNat_true] at hnext
      rw [hy] at hmarch hfirst
      omega
    · refine Or.inr (Or.inr ⟨by omega, by omega, by omega⟩)

variable {sec : Int}

/-- The year of day `n`. -/
theorem getEpochYear_aligned (n : Int) (hsec : 0 ≤ sec ∧ sec < 86400) : ∃ y k ly,
      (FitsInt y → (y = -2147483648 → yearStart y + 60 ≤ n) →
        getEpochYear (86400 * n + sec) = (86400 * k + sec, y, ly)) ∧
      (y = -2147483648 → n < yearStart y + 60 →
        (getEpochYear (86400 * n + sec)).2.1 = 2147483648) ∧
      Aligned n y k ly := by
  have hto : secsTo2kld = 86400 * 11017 := by decide
  have h400 : secsIn400Years = 12622780800 := by decide
  obtain ⟨e, he⟩ : ∃ e, e = 86400 * n + sec - secsTo2kld := ⟨_, rfl⟩
  have hquot := tdiv_eq_ite e 12622780800
  have hrem := tmod_eq_sub e 12622780800
  -- the truncated quotient and remainder, brought to the floor by the first branches
  by_cases hzero : e.tmod 12622780800 = 0
  · refine ⟨e / 12622780800 * 400 + 2000, 60, true, ?_, ?_, ?_⟩
    · intro hfit _
      have hmult : e.tdiv 12622780800 = e / 12622780800 := by split at hquot <;> omega
      unfold getEpochYear
      rw [← he, h400, if_pos hzero, hmult, truncInt_of_fits hfit]
      congr 1
      show (5184000 : Int) = _
      split at hquot <;> omega
    · intro hy
      omega
    · have hleap : leap (e / 12622780800 * 400 + 2000) = true := by
        rw [Gregorian.leap_iff]
        omega
      refine Or.inr (Or.inr ⟨by decide, by decide, ?_⟩)
      rw [hleap]
      unfold yearStart leapsThrough
      show n = _ + (1 : Int) + 59
      split at hquot <;> omega
  · obtain ⟨y, k, ly, hyear, hover, halign⟩ :=
      getCycleYear_aligned (M := e / 12622780800) (R := e % 12622780800) (by rw [h400]; omega)
    have hn : 11017 + 146097 * (e / 12622780800) + e % 12622780800 / 86400 = n := by omega
    have hsame : e % 12622780800 % 86400 = sec := by omega
    have hcycle : getEpochYear (86400 * n + sec) =
        getCycleYear (e / 12622780800) (e % 12622780800) := by
      unfold getEpochYear
      rw [← he, h400, if_neg hzero]
      split <;> rename_i hneg
      · congr 1 <;> split at hquot <;> omega
      · congr 1 <;> split at hquot <;> omega
    rw [hn] at hyear hover halign
    rw [hsame] at hyear
    rw [hcycle]
    exact ⟨y, k, ly, hyear, hover, halign⟩

variable {k : Int}

theorem Aligned.year_bounds {n : Int} {ly : Bool} (h : Aligned n y k ly) :
    yearStart y ≤ n ∧ n < yearStart (y + 1) := by
  rw [yearStart_add_leap]
  obtain h | ⟨_, _, hleap, h⟩ | h := h
  · omega
  · rw [hleap]
    show _ ∧ _ < _ + 365 + (1 : Int)
    omega
  · omega

/-- A day count that the month tables of year `z` read as month `m` and day `a + 1` is that
day of the aligned year. -/
theorem Aligned.month {n z m a : Int} (h : Aligned n y k (leap z)) (hm : 1 ≤ m ∧ m ≤ 12)
    (ha : 0 ≤ a ∧ a < monthLength z m) (hsum : daysBeforeMonth z m + a = k) :
    a < monthLength y m ∧ yearStart y + daysBeforeMonth y m + a = n := by
  have hjan : ∀ w, daysBeforeMonth w 1 = 0 ∧ monthLength w 1 = 31 := fun _ => ⟨rfl, rfl⟩
  have hfeb : ∀ w, daysBeforeMonth w 2 = 31 ∧ monthLength w 2 = 28 + (leap w).toNat := by
    intro w
    refine ⟨rfl, ?_⟩
    unfold monthLength
    cases leap w <;> rfl
  have hmar : ∀ w, 3 ≤ m → daysBeforeMonth w m = positiveMonths (m - 1) + (leap w).toNat ∧
      59 ≤ positiveMonths (m - 1) ∧ monthLength w m = monthLength 2001 m := by
    intro w h3
    have h12 := hm.2
    rw [daysBeforeMonth_eq hm]
    clear hsum ha h hjan hfeb
    unfold positiveMonths monthLength
    interval_cases m <;> cases leap w <;> decide
  obtain ⟨hy1, hy1len⟩ := hjan y
  obtain ⟨hz1, hz1len⟩ := hjan z
  obtain ⟨hy2, hy2len⟩ := hfeb y
  obtain ⟨hz2, hz2len⟩ := hfeb z
  have hcases : m = 1 ∨ m = 2 ∨ 3 ≤ m := by omega
  obtain rfl | rfl | h3 := hcases
  · obtain h | h | h := h <;> omega
  · obtain h | ⟨hk, hly, hleap, hn⟩ | h := h
    · omega
    · rw [hleap] at hy2len
      rw [hly] at hz2len
      omega
    · omega
  · obtain ⟨hy3, hpos, hylen⟩ := hmar y h3
    obtain ⟨hz3, _, hzlen⟩ := hmar z h3
    obtain h | ⟨hk, hly, hleap, hn⟩ | h := h
    · omega
    · rw [hly] at hz3
      simp only [Bool.toNat_true] at hz3
      omega
    · omega

/-- The month loop finds the date from the count of `get_epoch_year`. -/
theorem findMonth_aligned {ly : Bool} (h : Aligned d.number d.year k ly) :
    findMonth ly 11 1 k = (d.month, d.day - 1) := by
  -- a year with the flag stands for the flag in the month tables
  obtain ⟨z, rfl⟩ : ∃ z, leap z = ly := by
    cases ly
    · exact ⟨2001, by decide⟩
    · exact ⟨2000, by decide⟩
  have hlen := yearStart_add_leap z
  rw [Gregorian.yearStart_succ] at hlen
  have hk : 0 ≤ k ∧ k < yearLength z := by
    obtain h | ⟨_, hly, _, _⟩ | h := h
    · omega
    · rw [hly] at hlen
      omega
    · omega
  obtain ⟨m, a, heq, hm, ha, hsum⟩ := findMonth_spec z 11 1 k (by decide) le_rfl hk.1
    (by rw [Gregorian.daysBeforeMonth_january]; omega)
  rw [Gregorian.daysBeforeMonth_january, zero_add] at hsum
  obtain ⟨halen, hnum⟩ := h.month hm ha hsum
  have hdate : (⟨d.year, m, a + 1, hm, by omega⟩ : Date) = d := by
    apply Date.number_injective
    show yearStart d.year + (daysBeforeMonth d.year m + (a + 1) - 1) = d.number
    omega
  have hmonth : m = d.month := congrArg Date.month hdate
  have hday : a + 1 = d.day := congrArg Date.day hdate
  rw [heq, hmonth, ← hday]
  congr 1
  omega

/-- The fields of a date and a second of the day. -/
def SimpleTm.of (d : Date) (sec us : Int) : SimpleTm :=
  { year := d.year, month := d.month, day := d.day, hour := sec / 3600,
    minute := sec % 3600 / 60, second := sec % 60, us }

/-- January and February of the smallest year that an `int` holds. -/
def Earliest (d : Date) : Prop := d.year = -2147483648 ∧ d.month < 3

theorem earliest_iff : Earliest d ↔ d.year = -2147483648 ∧ d.number < yearStart d.year + 60 := by
  refine and_congr_right fun hy => ?_
  have hm := d.month_mem
  have hday := d.day_mem
  have hbefore := @daysBeforeMonth_eq d.year d.month hm
  unfold Date.number Date.dayOfYear
  rw [hbefore]
  rw [hy] at hday ⊢
  simp only [leap_minYear, and_true]
  unfold monthLength at hday
  unfold positiveMonths
  generalize d.month = m at hm hday ⊢
  obtain ⟨h1, h12⟩ := hm
  interval_cases m <;> simp at hday ⊢ <;> omega

variable {us : Nat}

/-- The broken-down form of a second, wherever the year is computed without an overflow. -/
theorem SimpleTm.set_of_not_earliest (hyear : FitsInt d.year) (hd : ¬Earliest d)
    (hsec : 0 ≤ sec ∧ sec < 86400) (hus : us < 1000000) :
    SimpleTm.set (86400 * d.number + sec) us = SimpleTm.of d sec us := by
  rw [earliest_iff] at hd
  obtain ⟨y, k, ly, hepoch, -, halign⟩ := getEpochYear_aligned d.number hsec
  have hy : y = d.year := Gregorian.year_unique halign.year_bounds d.number_bounds
  subst hy
  have hmonth := findMonth_aligned d halign
  have hk : 0 ≤ k := by
    obtain h | h | h := halign <;> omega
  have hday : secsPerDay = 86400 := by decide
  have hhour : secsPerHour = 3600 := by decide
  have hquot : (86400 * k + sec).tdiv 86400 = k := by
    rw [Int.tdiv_eq_ediv_of_nonneg (by omega)]
    omega
  have hrem : (86400 * k + sec).tmod 86400 = sec := by
    rw [tmod_eq_sub, hquot]
    omega
  have hunits : normalizeUnits3 (86400 * d.number + sec) us 1000000 =
      (86400 * d.number + sec, us) := if_neg (by omega)
  have hh : sec.tdiv 3600 = sec / 3600 := Int.tdiv_eq_ediv_of_nonneg hsec.1
  have hr : sec.tmod 3600 = sec % 3600 := Int.tmod_eq_emod_of_nonneg hsec.1
  have hr0 : 0 ≤ sec % 3600 := by omega
  have hmin : (sec % 3600).tdiv 60 = sec % 3600 / 60 := Int.tdiv_eq_ediv_of_nonneg hr0
  have hs : (sec % 3600).tmod 60 = sec % 60 := by
    rw [Int.tmod_eq_emod_of_nonneg hr0]
    omega
  unfold SimpleTm.set SimpleTm.of
  simp only [hunits, hepoch hyear (by omega), hday, hhour, secsPerMinute, hquot, hrem, hmonth, hh,
    hr, hmin, hs, sub_add_cancel]

/-- The broken-down form of a second. -/
theorem SimpleTm.set_date (hyear : -2147483648 < d.year ∧ d.year ≤ 2147483647)
    (hsec : 0 ≤ sec ∧ sec < 86400) (hus : us < 1000000) :
    SimpleTm.set (86400 * d.number + sec) us = SimpleTm.of d sec us :=
  SimpleTm.set_of_not_earliest d (by unfold FitsInt; omega) (fun h => by have := h.1; omega) hsec hus

/-- In the first two months of the smallest year, the year overflows. -/
theorem SimpleTm.year_of_earliest {d : Date} (hd : Earliest d) (hsec : 0 ≤ sec ∧ sec < 86400)
    (hus : us < 1000000) :
    (SimpleTm.set (86400 * d.number + sec) us).year = 2147483648 := by
  rw [earliest_iff] at hd
  obtain ⟨y, k, ly, -, hover, halign⟩ := getEpochYear_aligned d.number hsec
  have hy : y = d.year := Gregorian.year_unique halign.year_bounds d.number_bounds
  have hunits : normalizeUnits3 (86400 * d.number + sec) us 1000000 =
      (86400 * d.number + sec, us) := if_neg (by omega)
  unfold SimpleTm.set
  simp only [hunits]
  rw [hy] at hover
  exact hover hd.1 hd.2

end Qore.Date
