import Mathlib
import Qore.Date.Local

/-!
# `Qore.Date.Civil`: seconds and dates

The seconds of the epoch and the dates of the calendar, in both directions, and the accessors that
read a part of a broken-down time.

* `SimpleTm.set_denotes_iff`: `qore_simple_tm::set` finds the date and the time of day of every
  second whose year is an `int`, but for two months at the end of the range, where it increments the
  year after the conversion to `int`.
* `getEpochSeconds_exact_iff`: `getEpochSeconds` counts the seconds of a date exactly, and is the
  inverse of `set`, but for the years that lose a leap day and for those whose day part overflows.
* `AbsTime.accessors_iff`: the accessors with a fast path for times since the epoch read what `get`
  reads, unless the local time lies before the epoch.
-/

set_option autoImplicit false

namespace Qore.Date

open Qore.Lib
open Qore.Lib.Gregorian (Date leap yearStart leapsThrough)

/-! ### From seconds to dates -/

/-- The fields are a date and a time of day, and denote a second. -/
structure SimpleTm.Denotes (tm : SimpleTm) (seconds : Int) (us : Nat) : Prop where
  instant : ∃ d : Date, tm.year = d.year ∧ tm.month = d.month ∧ tm.day = d.day ∧
    86400 * d.number + (tm.hour * 3600 + tm.minute * 60 + tm.second) = seconds
  hour_mem : 0 ≤ tm.hour ∧ tm.hour ≤ 23
  minute_mem : 0 ≤ tm.minute ∧ tm.minute ≤ 59
  second_mem : 0 ≤ tm.second ∧ tm.second ≤ 59
  us_eq : tm.us = us

theorem SimpleTm.denotes_of (d : Date) {sec : Int} (hsec : 0 ≤ sec ∧ sec < 86400) (us : Nat) :
    (SimpleTm.of d sec us).Denotes (86400 * d.number + sec) us where
  instant := by
    refine ⟨d, rfl, rfl, rfl, ?_⟩
    show 86400 * d.number + (sec / 3600 * 3600 + sec % 3600 / 60 * 60 + sec % 60) = _
    omega
  hour_mem := by
    show 0 ≤ sec / 3600 ∧ sec / 3600 ≤ 23
    omega
  minute_mem := by
    show 0 ≤ sec % 3600 / 60 ∧ sec % 3600 / 60 ≤ 59
    omega
  second_mem := by
    show 0 ≤ sec % 60 ∧ sec % 60 ≤ 59
    omega
  us_eq := rfl

/-- Only one date and time of day denote a second. -/
theorem SimpleTm.Denotes.eq_of {tm : SimpleTm} {d : Date} {sec : Int}
    (hsec : 0 ≤ sec ∧ sec < 86400) {us : Nat} (h : tm.Denotes (86400 * d.number + sec) us) :
    tm = SimpleTm.of d sec us := by
  obtain ⟨⟨e, hyear, hmonth, hday, hinstant⟩, hh, hm, hs, hus⟩ := h
  have hnumber : e.number = d.number := by omega
  have hdate : e = d := Gregorian.Date.number_injective hnumber
  subst hdate
  obtain ⟨year, month, day, hour, minute, second, tus⟩ := tm
  dsimp only at hyear hmonth hday hinstant hh hm hs hus
  have hhour : hour = sec / 3600 := by omega
  have hminute : minute = sec % 3600 / 60 := by omega
  have hsecond : second = sec % 60 := by omega
  rw [hyear, hmonth, hday, hhour, hminute, hsecond, hus]
  rfl

/-- `set` finds the date and time of day of a second exactly when its year is computed without an
overflow. -/
theorem SimpleTm.set_denotes_iff (seconds : Int) {us : Nat} (hus : us < 1000000) {d : Date}
    (hd : d.number = seconds / 86400) (hyear : FitsInt d.year) :
    (∃! tm : SimpleTm, tm.Denotes seconds us) ∧
      ((SimpleTm.set seconds us).Denotes seconds us ↔ ¬Earliest d) := by
  obtain ⟨sec, hsec, rfl⟩ : ∃ sec, (0 ≤ sec ∧ sec < 86400) ∧ seconds = 86400 * d.number + sec :=
    ⟨seconds % 86400, by omega, by omega⟩
  refine ⟨⟨SimpleTm.of d sec us, SimpleTm.denotes_of d hsec us, fun tm h => h.eq_of hsec⟩, ?_⟩
  constructor
  · intro h hearliest
    -- the year that the overflow leaves is not the year of the date
    have hover := SimpleTm.year_of_earliest hearliest hsec hus
    rw [h.eq_of hsec] at hover
    have hmin : d.year = 2147483648 := hover
    exact absurd (hearliest.1.symm.trans hmin) (by decide)
  · intro hnot
    rw [SimpleTm.set_of_not_earliest d hyear hnot hsec hus]
    exact SimpleTm.denotes_of d hsec us

/-- The leap day of the year 2000, at noon. -/
def leapDay2000 : Date := ⟨2000, 2, 29, by decide, by decide⟩

theorem leapDay2000_denotes : (SimpleTm.set 951825600 0).Denotes 951825600 0 :=
  ((SimpleTm.set_denotes_iff 951825600 (by decide) (d := leapDay2000) (by decide)
    (by decide)).2).mpr (by unfold Earliest; decide)

/-- January 1st of the smallest year. -/
def minYearStart : Date := ⟨-2147483648, 1, 1, epochDate.month_mem, by decide⟩

/-- On January 1st of the smallest year, the incremented year is no `int`. -/
theorem minYearStart_wrong : FitsInt minYearStart.year ∧
    ¬(SimpleTm.set (86400 * minYearStart.number) 0).Denotes (86400 * minYearStart.number) 0 := by
  refine ⟨by decide, fun h => ?_⟩
  have heq := @SimpleTm.Denotes.eq_of _ minYearStart 0 (by decide) _ (by rwa [Int.add_zero])
  have hyear := congrArg SimpleTm.year heq
  exact absurd hyear (by decide)

/-! ### From dates to seconds -/

/-- The dates whose seconds are counted exactly: the year before is not a leap year before year 0,
which is counted twice, and the leap days since 1970 together with the days of the year before the
date are at most as many as an `int` has seconds for. -/
def Exact (d : Date) : Prop :=
  ¬(d.year ≤ 0 ∧ leap (d.year - 1) = true) ∧ (d.number - 365 * (d.year - 1970)).natAbs ≤ 24855

instance (d : Date) : Decidable (Exact d) := by unfold Exact; infer_instance

theorem exact_iff (d : Date) :
    Exact d ↔ lostDays d.year = 0 ∧ EpochFits d.year d.month d.day := by
  have hsum := epochDays_date d
  have hsecs : secsPerDay = 86400 := rfl
  unfold Exact EpochFits FitsInt
  rw [hsecs]
  unfold lostDays at hsum ⊢
  split at hsum <;> rename_i hlost
  · rw [if_pos hlost]
    exact iff_of_false (fun h => h.1 hlost) fun h => absurd h.1 (by decide)
  · rw [if_neg hlost]
    simp only [hlost, not_false_eq_true, true_and]
    omega

/-- `getEpochSeconds` counts the seconds of a date and is the inverse of `set`. -/
structure Inverse (d : Date) : Prop where
  count : getEpochSeconds d.year d.month d.day = some (86400 * d.number)
  set_count : ∀ sec us, 0 ≤ sec ∧ sec < 86400 → us < 1000000 →
    SimpleTm.set (86400 * d.number + sec) us = SimpleTm.of d sec us
  count_set : ∀ sec us, 0 ≤ sec ∧ sec < 86400 → us < 1000000 →
    let tm := SimpleTm.set (86400 * d.number + sec) us
    getEpochSecondsTime tm.year tm.month tm.day tm.hour tm.minute tm.second =
      some (86400 * d.number + sec)

/-- The seconds of a date are exact, and `getEpochSeconds` and `set` inverses, exactly for the dates
of `Exact`. -/
theorem getEpochSeconds_exact_iff (d : Date) : Inverse d ↔ Exact d := by
  rw [exact_iff]
  constructor
  · intro h
    have hcount := h.count
    by_cases hfits : EpochFits d.year d.month d.day
    · rw [getEpochSeconds_date d hfits, Option.some.injEq] at hcount
      exact ⟨by omega, hfits⟩
    · rw [getEpochSeconds_eq_none d hfits] at hcount
      cases hcount
  · rintro ⟨hlost, hfits⟩
    have hyear := hfits.year_bounds
    have hset : ∀ (sec : Int) (us : Nat), 0 ≤ sec ∧ sec < 86400 → us < 1000000 →
        SimpleTm.set (86400 * d.number + sec) us = SimpleTm.of d sec us :=
      fun sec us hsec hus => SimpleTm.set_date d (by omega) hsec hus
    refine ⟨?_, hset, ?_⟩
    · rw [getEpochSeconds_date d hfits, hlost, Int.sub_zero]
    · intro sec us hsec hus
      rw [hset sec us hsec hus]
      have hsecs := @getEpochSecondsTime_date d sec hfits
      unfold localSecs at hsecs
      rw [hlost, Int.sub_zero] at hsecs
      exact hsecs

/-- January 1st of the year 4 before year 1 is a day early, and January 1st of the year 110000
overflows. -/
theorem getEpochSeconds_wrong :
    getEpochSeconds (-3) 1 1 ≠ some (86400 * (⟨-3, 1, 1, by decide, by decide⟩ : Date).number) ∧
    getEpochSeconds 110000 1 1 = none := by
  decide

/-! ### Accessors -/

/-- The conversion of an `int` to `short`. -/
def truncShort (x : Int) : Int := (x + 32768) % 65536 - 32768

namespace AbsTime

/-- `qore_absolute_time::getYear`, a `short`. -/
def getYear (t : AbsTime) : Int := truncShort (SimpleTm.set (t.epoch + t.zone.off t.epoch) t.us).year

/-- `qore_absolute_time::getMonth`. -/
def getMonth (t : AbsTime) : Int := (SimpleTm.set (t.epoch + t.zone.off t.epoch) t.us).month

/-- `qore_absolute_time::getDay`. -/
def getDay (t : AbsTime) : Int := (SimpleTm.set (t.epoch + t.zone.off t.epoch) t.us).day

/-- `qore_absolute_time::getHour`. -/
def getHour (t : AbsTime) : Int :=
  if t.epoch ≥ 0 then ((t.epoch + t.zone.off t.epoch).tmod secsPerDay).tdiv secsPerHour
  else t.get.hour

/-- `qore_absolute_time::getMinute`. -/
def getMinute (t : AbsTime) : Int :=
  if t.epoch ≥ 0 then ((t.epoch + t.zone.off t.epoch).tmod secsPerHour).tdiv secsPerMinute
  else t.get.minute

/-- `qore_absolute_time::getSecond`. -/
def getSecond (t : AbsTime) : Int :=
  if t.epoch ≥ 0 then (t.epoch + t.zone.off t.epoch).tmod secsPerMinute else t.get.second

/-- The accessors read what `get` reads, which is a date and a time of day. -/
structure Accessors (t : AbsTime) : Prop where
  year : t.getYear = t.get.year
  month : t.getMonth = t.get.month
  day : t.getDay = t.get.day
  hour : t.getHour = t.get.hour ∧ 0 ≤ t.getHour ∧ t.getHour ≤ 23
  minute : t.getMinute = t.get.minute ∧ 0 ≤ t.getMinute ∧ t.getMinute ≤ 59
  second : t.getSecond = t.get.second ∧ 0 ≤ t.getSecond ∧ t.getSecond ≤ 59

/-- The accessors agree with `get` exactly when the local time does not lie before the epoch of a
time since the epoch, but for a full day. -/
theorem accessors_iff (t : AbsTime) (ht : t.us < 1000000) {d : Date}
    (hd : d.number = t.getEpochSeconds / 86400) (hyear : -32768 ≤ d.year ∧ d.year ≤ 32767) :
    t.Accessors ↔
      ¬(0 ≤ t.epoch ∧ t.getEpochSeconds < 0 ∧ t.getEpochSeconds % 86400 ≠ 0) := by
  obtain ⟨sec, hsec, hwall⟩ :
      ∃ sec, (0 ≤ sec ∧ sec < 86400) ∧ t.getEpochSeconds = 86400 * d.number + sec :=
    ⟨t.getEpochSeconds % 86400, by omega, by omega⟩
  have hget : t.get = SimpleTm.of d sec t.us := get_date hsec (by omega) ht hwall
  have htm : SimpleTm.set (t.epoch + t.zone.off t.epoch) t.us = SimpleTm.of d sec t.us := hget
  have hlocal : t.epoch + t.zone.off t.epoch = t.getEpochSeconds := rfl
  have hday : secsPerDay = 86400 := rfl
  have hhour : secsPerHour = 3600 := rfl
  have hminute : secsPerMinute = 60 := rfl
  have hfields : t.get.hour = sec / 3600 ∧ t.get.minute = sec % 3600 / 60 ∧
      t.get.second = sec % 60 := by
    rw [hget]
    exact ⟨rfl, rfl, rfl⟩
  obtain ⟨hgh, hgm, hgs⟩ := hfields
  -- the date does not depend on the path
  have hdate : t.getYear = t.get.year ∧ t.getMonth = t.get.month ∧ t.getDay = t.get.day := by
    unfold getYear getMonth getDay
    rw [htm, hget]
    refine ⟨?_, rfl, rfl⟩
    show truncShort d.year = d.year
    unfold truncShort
    omega
  have hiff : t.Accessors ↔
      (t.getHour = sec / 3600 ∧ t.getMinute = sec % 3600 / 60 ∧ t.getSecond = sec % 60) := by
    constructor
    · intro h
      exact ⟨h.hour.1.trans hgh, h.minute.1.trans hgm, h.second.1.trans hgs⟩
    · rintro ⟨hh, hm, hs⟩
      exact ⟨hdate.1, hdate.2.1, hdate.2.2, ⟨hh.trans hgh.symm, by omega⟩,
        ⟨hm.trans hgm.symm, by omega⟩, ⟨hs.trans hgs.symm, by omega⟩⟩
  rw [hiff]
  unfold getHour getMinute getSecond
  rw [hlocal, hday, hhour, hminute, hgh, hgm, hgs]
  generalize t.getEpochSeconds = x at hwall ⊢
  by_cases hepoch : t.epoch ≥ 0
  · simp only [if_pos hepoch, tmod_eq_sub, tdiv_eq_ite]
    split_ifs <;> omega
  · simp only [if_neg hepoch]
    exact iff_of_true ⟨trivial, trivial, trivial⟩ fun h => hepoch h.1

/-- The accessors agree for noon of 1970-01-01 five hours west. -/
theorem accessors_west : (⟨43200, 0, Zone.offset (-18000)⟩ : AbsTime).Accessors :=
  (accessors_iff ⟨43200, 0, Zone.offset (-18000)⟩ (by decide) (d := ⟨1970, 1, 1, by decide, by decide⟩)
    (by decide) (by decide)).mpr (by decide)

/-- At the epoch, the hour five hours west is -5 instead of 19. -/
theorem getHour_wrong :
    (⟨0, 0, Zone.offset (-18000)⟩ : AbsTime).getHour ≠ (⟨0, 0, Zone.offset (-18000)⟩ : AbsTime).get.hour := by
  decide

end AbsTime

end Qore.Date
