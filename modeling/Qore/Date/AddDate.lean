import Qore.Date.Civil

/-!
# `Qore.Date.AddDate`: adding years, months and days in UTC

`operator+=` adds the years and months first, moves the day back to the end of the month
(`normalize_dm`), adds the days, and walks from month to month until the day exists
(`normalize_day`). In UTC no offset disturbs the result.

* `normalizeDm_eq`: years and months are counted in months, and the day is cut at the end of the
  month.
* `add_utc`: the date that `operator+=` lands on, and the end of the walk.
-/

set_option autoImplicit false

namespace Qore.Date

open Qore.Lib
open Qore.Lib.Gregorian (Date leap yearStart monthLength daysBeforeMonth)

/-- The truncated quotient of an `int` and its product fit, so the conversions keep them. -/
theorem tdiv_convert {y r : Int} (hr : 0 < r) (hy : FitsInt y) (T : IntType) :
    T.convert (y.tdiv r) = y.tdiv r ∧ T.convert (y.tdiv r * r) = y.tdiv r * r := by
  -- both lie between zero and the dividend
  have hunits : FitsInt (y.tdiv r) ∧ FitsInt (y.tdiv r * r) := by
    unfold FitsInt at hy ⊢
    rw [tdiv_eq_ite]
    split <;> rename_i hpos
    · have hdiv := Int.mul_ediv_add_emod y r
      have hmod := Int.emod_nonneg y (Int.ne_of_gt hr)
      have hquot := Int.ediv_nonneg hpos (Int.le_of_lt hr)
      have hprod := Int.mul_nonneg hquot (Int.le_of_lt hr)
      have hle := Int.ediv_le_self r hpos
      rw [Int.mul_comm r] at hdiv
      omega
    · have hneg : 0 ≤ -y := by omega
      have hdiv := Int.mul_ediv_add_emod (-y) r
      have hmod := Int.emod_nonneg (-y) (Int.ne_of_gt hr)
      have hquot := Int.ediv_nonneg hneg (Int.le_of_lt hr)
      have hprod := Int.mul_nonneg hquot (Int.le_of_lt hr)
      have hle := Int.ediv_le_self r hneg
      rw [Int.mul_comm r] at hdiv
      rw [Int.neg_mul]
      omega
  cases T with
  | int => exact ⟨truncInt_of_fits hunits.1, truncInt_of_fits hunits.2⟩
  | int64 => exact ⟨rfl, rfl⟩

/-- `normalize_units2` without an overflow: the smaller unit is a remainder. -/
theorem normalizeUnits2_eq {T1 T2 : IntType} {x y r : Int} (hr : 0 < r) (hy : FitsInt y) :
    normalizeUnits2 T1 T2 x y r = (x + y / r, y % r) := by
  have hconvert := tdiv_convert hr hy
  have hrem : y - y.tdiv r * r = y.tmod r := by rw [tmod_eq_sub, Int.mul_comm]
  have key : ∀ q m : Int, y = r * q + m → 0 ≤ m → m < r → y / r = q ∧ y % r = m := by
    intro q m heq h0 hm
    exact (Int.ediv_emod_unique hr).mpr ⟨by omega, h0, hm⟩
  unfold normalizeUnits2 carryUnits
  dsimp only
  rw [(hconvert T1).1, (hconvert T2).2, hrem]
  by_cases hbig : y ≤ -r ∨ y ≥ r
  · rw [if_pos hbig]
    have hsum := Int.mul_tdiv_add_tmod y r
    have hbound : -r < y.tmod r ∧ y.tmod r < r :=
      ⟨Int.lt_tmod_of_pos y hr, Int.tmod_lt_of_pos y hr⟩
    split
    · obtain ⟨hq, hm⟩ := key (y.tdiv r - 1) (y.tmod r + r) (by rw [Int.mul_sub]; omega) (by omega)
        (by omega)
      rw [hq, hm]
      congr 1
      omega
    · obtain ⟨hq, hm⟩ := key (y.tdiv r) (y.tmod r) (by omega) (by omega) (by omega)
      rw [hq, hm]
  · rw [if_neg hbig]
    split
    · obtain ⟨hq, hm⟩ := key (-1) (y + r) (by rw [Int.mul_neg]; omega) (by omega) (by omega)
      rw [hq, hm]
      rfl
    · obtain ⟨hq, hm⟩ := key 0 y (by omega) (by omega) (by omega)
      rw [hq, hm, Int.add_zero]

/-- The month with a number, counted from January of the year 0. -/
def monthOf (n : Int) : Int × Int := (n / 12, n % 12 + 1)

theorem monthOf_snd (n : Int) : 1 ≤ (monthOf n).2 ∧ (monthOf n).2 ≤ 12 := by
  unfold monthOf
  omega

/-- `normalize_dm` counts in months, and cuts the day at the end of the month. -/
theorem normalizeDm_eq {year month day : Int} (hmonth : FitsInt (month - 1)) :
    normalizeDm year month day =
      ((monthOf (year * 12 + (month - 1))).1, (monthOf (year * 12 + (month - 1))).2,
        min day (monthLength (monthOf (year * 12 + (month - 1))).1
          (monthOf (year * 12 + (month - 1))).2)) := by
  have hunits : (if month > 12 ∨ month < 1 then
      ((normalizeUnits2 .int .int year (month - 1) 12).1,
        (normalizeUnits2 .int .int year (month - 1) 12).2 + 1) else (year, month)) =
      monthOf (year * 12 + (month - 1)) := by
    rw [normalizeUnits2_eq (by decide) hmonth]
    split
    · congr 1 <;> omega
    · congr 1 <;> omega
  have hmem := monthOf_snd (year * 12 + (month - 1))
  unfold normalizeDm
  rw [hunits]
  generalize monthOf (year * 12 + (month - 1)) = p at hmem ⊢
  obtain ⟨y, m⟩ := p
  dsimp only at hmem ⊢
  congr 2
  rw [← getLastDayOfMonth_eq hmem]
  by_cases hfeb : m = 2
  · subst hfeb
    have hlast : getLastDayOfMonth 2 y = if isLeapYear y then 29 else 28 := rfl
    have h28 : monthLengths 2 = 28 := rfl
    rw [hlast, h28]
    cases isLeapYear y <;> simp only [true_and, Bool.false_eq_true, if_true, if_false] <;>
      split_ifs <;> omega
  · have hlast : getLastDayOfMonth m y = monthLengths m := if_pos hfeb
    split_ifs <;> omega

/-- The month and the day number that years, months and days lead to from a date. -/
def monthNumber (d : Date) (dt : RelTime) : Int :=
  d.year * 12 + (d.month - 1) + dt.year * 12 + dt.month

/-- The day in the month that is reached, cut at its end. -/
def clampedDay (d : Date) (dt : RelTime) : Int :=
  min d.day (monthLength (monthOf (monthNumber d dt)).1 (monthOf (monthNumber d dt)).2)

/-- The day number that is reached. -/
def targetNumber (d : Date) (dt : RelTime) : Int :=
  dayNumber (monthOf (monthNumber d dt)).1 (monthOf (monthNumber d dt)).2 (clampedDay d dt) + dt.day

/-- No `int` overflows between the date `d` and its target `d'`. -/
structure NoOverflow (d : Date) (dt : RelTime) (d' : Date) : Prop where
  start : FitsInt d.year ∧ ¬Earliest d
  year : FitsInt (d.year + dt.year)
  month : FitsInt (d.month + dt.month) ∧ FitsInt (d.month + dt.month - 1)
  day : FitsInt (clampedDay d dt + dt.day)
  target : EpochFits d'.year d'.month d'.day

theorem targetDay_eq {t : AbsTime} (ht : t.us < 1000000) {d d' : Date} {sec : Int}
    (hsec : 0 ≤ sec ∧ sec < 86400) (hwall : t.getEpochSeconds = 86400 * d.number + sec)
    {dt : RelTime} (hno : NoOverflow d dt d') (hd' : d'.number = targetNumber d dt) :
    t.targetDay dt = some (SimpleTm.of d sec t.us, d'.year, d'.month, d'.day) := by
  have htm : SimpleTm.set (t.epoch + t.zone.off t.epoch) t.us = SimpleTm.of d sec t.us := by
    show SimpleTm.set t.getEpochSeconds t.us = _
    rw [hwall]
    exact SimpleTm.set_of_not_earliest d hno.start.1 hno.start.2 hsec ht
  have hmem := monthOf_snd (monthNumber d dt)
  have hnumber : (d.year + dt.year) * 12 + (d.month + dt.month - 1) = monthNumber d dt := by
    unfold monthNumber
    omega
  have hdm := @normalizeDm_eq (d.year + dt.year) (d.month + dt.month) d.day hno.month.2
  rw [hnumber] at hdm
  obtain ⟨e, he, hnum⟩ := normalizeDay_sameDay (monthOf (monthNumber d dt)).1
    (clampedDay d dt + dt.day) hmem
  have heq : e = d' := by
    apply Gregorian.Date.number_injective
    rw [hnum, hd']
    unfold targetNumber dayNumber
    omega
  subst heq
  unfold AbsTime.targetDay
  rw [htm]
  simp only [SimpleTm.of, Option.bind_eq_bind, Option.bind_some, checkedInt_of_fits hno.year,
    checkedInt_of_fits hno.month.1, hdm, Option.pure_def]
  show (checkedInt (clampedDay d dt + dt.day)).bind _ = _
  rw [checkedInt_of_fits hno.day, Option.bind_some, he]

/-- Adding nothing leads to the date itself. -/
theorem targetNumber_zero {d : Date} {dt : RelTime} (hy : dt.year = 0) (hm : dt.month = 0)
    (hd : dt.day = 0) : targetNumber d dt = d.number := by
  have hmem := d.month_mem
  have hday := d.day_mem
  have hmonth : monthOf (monthNumber d dt) = (d.year, d.month) := by
    unfold monthOf monthNumber
    congr 1 <;> omega
  unfold targetNumber clampedDay
  rw [hmonth, hd]
  dsimp only
  unfold dayNumber Gregorian.Date.number Gregorian.Date.dayOfYear
  omega

/-- In UTC, `operator+=` lands on the date that counting in months and then in days leads to, at the
same time of day; and the walk from month to month ends on a date that exists. -/
theorem add_utc (t : AbsTime) (hutc : ∀ e, t.zone.off e = 0) (ht : t.us < 1000000) {d d' : Date}
    {sec : Int} (hsec : 0 ≤ sec ∧ sec < 86400) (hwall : t.epoch = 86400 * d.number + sec)
    {dt : RelTime} (hdt : dt.DateOnly) (hd' : d'.number = targetNumber d dt) (hpos : 1 ≤ d'.year)
    (hno : NoOverflow d dt d') :
    (∃ r, t.add dt = some r ∧ r.epoch = 86400 * d'.number + sec ∧ r.us = t.us ∧ r.zone = t.zone ∧
      r.get = SimpleTm.of d' sec t.us) ∧
    ∀ year month day : Int, 1 ≤ month ∧ month ≤ 12 →
      ∃ e : Date, normalizeDay year month day = (e.year, e.month, e.day) ∧
        e.number = dayNumber year month day := by
  have hlocal : t.getEpochSeconds = 86400 * d.number + sec := by
    show t.epoch + t.zone.off t.epoch = _
    rw [hutc, Int.add_zero, hwall]
  have hyear := hno.target.year_bounds
  refine ⟨?_, fun year month day hm => normalizeDay_sameDay year day hm⟩
  have hadd : t.add dt = some { t with epoch := 86400 * d'.number + sec } := by
    refine add_of_dateOnly hdt ht ?_
    unfold AbsTime.addDatePart
    split
    · have htime := @getEpochSecondsTime_date d' sec hno.target
      unfold localSecs at htime
      rw [lostDays, if_neg (by omega), Int.sub_zero] at htime
      unfold AbsTime.addDate
      rw [targetDay_eq ht hsec hlocal hno hd']
      show (getEpochSecondsTime d'.year d'.month d'.day (sec / 3600) (sec % 3600 / 60)
        (sec % 60)).bind _ = _
      rw [htime, Option.bind_some, hutc, Int.sub_zero]
      rfl
    · rename_i hzero
      rw [targetNumber_zero (by omega) (by omega) (by omega)] at hd'
      rw [hd', ← hwall]
  refine ⟨_, hadd, rfl, rfl, rfl, ?_⟩
  have hwall' : 86400 * d'.number + sec + t.zone.off (86400 * d'.number + sec) =
      86400 * d'.number + sec := by rw [hutc, Int.add_zero]
  exact get_date (t := { t with epoch := 86400 * d'.number + sec }) hsec (by omega) ht hwall'

/-- Thirteen months and one day after noon of 2023-01-31 it is noon of 2024-03-01: the day is cut at
the end of February, and the next day is in March. -/
theorem add_utc_leapDay : ∃ r, (⟨1675166400, 0, Zone.utc⟩ : AbsTime).add
    { year := 0, month := 13, day := 1, hour := 0, minute := 0, second := 0, us := 0 } = some r ∧
    r.epoch = 1709294400 := by
  obtain ⟨r, hr, hepoch, -⟩ := (@add_utc ⟨1675166400, 0, Zone.utc⟩ (fun _ => rfl) (by decide)
    ⟨2023, 1, 31, by decide, by decide⟩ ⟨2024, 3, 1, by decide, by decide⟩ 43200 (by decide)
    (by decide) { year := 0, month := 13, day := 1, hour := 0, minute := 0, second := 0, us := 0 }
    (by unfold RelTime.DateOnly; decide) (by decide) (by decide)
    ⟨⟨by decide, by unfold Earliest; decide⟩, by decide, by decide, by decide, by decide⟩).1
  exact ⟨r, hr, hepoch⟩

end Qore.Date
