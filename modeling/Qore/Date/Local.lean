import Qore.Date.Time

/-!
# `Qore.Date.Local`: wall clock times in a zone

Two paths lead from a wall clock time to a second of the epoch. `qore_absolute_time::set` guesses
with the standard offset of the zone and corrects once with the offset at the guess.
`operator+=` takes the offset at the local second itself. Each is right where no change of the
offset lies between the second it looks at and the second in question.

* `set_local_iff`: when `set` finds a second that shows the wall clock time it was given.
* `add_date_iff`: when both paths agree, and when adding days keeps the wall clock time.
-/

set_option autoImplicit false

namespace Qore.Date

open Qore.Lib
open Qore.Lib.Gregorian (Date leap yearStart monthLength daysBeforeMonth)

/-! ### Construction -/

/-- The zone and the date let `set` find second `u` for a wall clock time: the day part fits an
`int`, and no offset change lies between the guess and `u`. In the years that lose a leap day the
guess is a day early, which only an offset change of exactly one day repairs. -/
def LocalFound (z : Zone) (d : Date) (sec u : Int) : Prop :=
  EpochFits d.year d.month d.day ∧
    if lostDays d.year = 0 then NoJump z.off (localSecs d sec - z.std) u
    else z.off (localSecs d sec - z.std) = z.off u - 86400

theorem lostDays_cases (y : Int) : lostDays y = 0 ∨ lostDays y = 1 := by
  unfold lostDays
  split <;> omega

theorem lostDays_of_nonneg {y : Int} (hy : 0 ≤ y) : lostDays y = 0 := by
  unfold lostDays
  rw [if_neg]
  rintro ⟨hle, hleap⟩
  have hzero : y = 0 := by omega
  rw [hzero] at hleap
  exact absurd hleap (by decide)

/-- Building a time from the wall clock fields. -/
theorem set_local_iff (z : Zone) (hspaced : Spaced z.off (48 * 3600))
    (hoff : ∀ e, -(15 * 3600) ≤ z.off e ∧ z.off e ≤ 15 * 3600)
    (hstd : -(15 * 3600) ≤ z.std ∧ z.std ≤ 15 * 3600) (d : Date) {sec : Int}
    (hsec : 0 ≤ sec ∧ sec < 86400) {us : Nat} (hus : us < 1000000) {u : Int}
    (hu : u + z.off u = 86400 * d.number + sec) :
    (∃ t, AbsTime.set z d.year d.month d.day (sec / 3600) (sec % 3600 / 60) (sec % 60) us =
        some t ∧ t.epoch = u ∧ t.get = SimpleTm.of d sec us) ↔ LocalFound z d sec u := by
  by_cases hfits : EpochFits d.year d.month d.day
  · have hyear := hfits.year_bounds
    rw [set_date z d sec hus hfits]
    -- the second is `u` exactly when the offset at the guess makes up for the lost day
    have hepoch : localSecs d sec - z.off (localSecs d sec - z.std) = u ↔
        z.off (localSecs d sec - z.std) = z.off u - 86400 * lostDays d.year := by
      unfold localSecs at *
      omega
    have hcond : z.off (localSecs d sec - z.std) = z.off u - 86400 * lostDays d.year ↔
        LocalFound z d sec u := by
      unfold LocalFound
      obtain h0 | h1 := lostDays_cases d.year
      · rw [h0, if_pos rfl, Int.mul_zero, Int.sub_zero]
        have hloc : localSecs d sec = 86400 * d.number + sec := by
          unfold localSecs
          omega
        have hou := hoff u
        rw [eq_iff_noJump hspaced (by omega)]
        exact ⟨fun h => ⟨hfits, h⟩, fun h => h.2⟩
      · rw [h1, if_neg (by decide), Int.mul_one]
        exact ⟨fun h => ⟨hfits, h⟩, fun h => h.2⟩
    rw [← hcond, ← hepoch]
    constructor
    · rintro ⟨t, ht, hte, -⟩
      rw [Option.some.injEq] at ht
      rw [← ht] at hte
      exact hte
    · intro heq
      refine ⟨_, rfl, heq, ?_⟩
      refine get_date hsec (by omega) hus ?_
      show _ + z.off _ = _
      rw [heq]
      exact hu
  · rw [set_eq_none z d sec us hfits]
    refine iff_of_false ?_ fun h => hfits h.1
    rintro ⟨t, ht, -⟩
    cases ht

/-- A zone that moved from UTC to one hour east of it in 1970. -/
def oneStep (std : Int) : Zone := { std, off := fun e => if e < 0 then 0 else 3600 }

theorem oneStep_spaced (std : Int) : Spaced (oneStep std).off (48 * 3600) := by
  have hzero : ∀ t, Jump (oneStep std).off t → t = 0 := by
    intro t ht
    unfold Jump oneStep at ht
    dsimp only at ht
    split_ifs at ht <;> omega
  intro s t hs ht hlt
  have := hzero s hs
  have := hzero t ht
  omega

theorem oneStep_bounds (std e : Int) :
    -(15 * 3600) ≤ (oneStep std).off e ∧ (oneStep std).off e ≤ 15 * 3600 := by
  unfold oneStep
  dsimp only
  split <;> omega

/-- 1970-01-01. -/
def epochDate : Date := ⟨1970, 1, 1, by decide, by decide⟩

/-- With the later offset as the standard offset, the guess is right after the change. -/
theorem oneStep_found : ∃ t, AbsTime.set (oneStep 3600) 1970 1 1 2 30 0 0 = some t ∧
    t.epoch = 5400 ∧ t.get = SimpleTm.of epochDate 9000 0 :=
  (set_local_iff (oneStep 3600) (oneStep_spaced 3600) (oneStep_bounds 3600) (by decide) epochDate
    (show 0 ≤ (9000 : Int) ∧ (9000 : Int) < 86400 by decide) (show 0 < 1000000 by decide)
    (u := 5400) (by decide)).mpr
    ⟨by decide, by
      intro t hlow hhigh hjump
      have hnum : localSecs epochDate 9000 - (oneStep 3600).std = 5400 := by decide
      omega⟩

/-- With another standard offset the guess for 01:00 falls before the change, although 01:00 was
shown only once: the time that is built shows 02:00. -/
theorem oneStep_wrong : ¬∀ (z : Zone), Spaced z.off (48 * 3600) →
    (∀ e, -(15 * 3600) ≤ z.off e ∧ z.off e ≤ 15 * 3600) →
    (-(15 * 3600) ≤ z.std ∧ z.std ≤ 15 * 3600) → ∀ (d : Date) (sec : Int) (us : Nat) (u : Int),
    (0 ≤ sec ∧ sec < 86400) → us < 1000000 → u + z.off u = 86400 * d.number + sec →
    (∀ v, v + z.off v = 86400 * d.number + sec → v = u) →
    ∃ t, AbsTime.set z d.year d.month d.day (sec / 3600) (sec % 3600 / 60) (sec % 60) us =
      some t ∧ t.epoch = u ∧ t.get = SimpleTm.of d sec us := by
  intro h
  have hunique : ∀ v, v + (oneStep 7200).off v = 86400 * epochDate.number + 3600 → v = 0 := by
    intro v hv
    have hnum : epochDate.number = 0 := by decide
    unfold oneStep at hv
    dsimp only at hv
    split at hv <;> omega
  obtain ⟨t, ht, hepoch, -⟩ := h (oneStep 7200) (oneStep_spaced 7200) (oneStep_bounds 7200)
    (by decide) epochDate 3600 0 0 (by decide) (by decide) (by decide) hunique
  have hres : (AbsTime.set (oneStep 7200) 1970 1 1 1 0 0 0).map AbsTime.epoch = some 3600 := by
    decide
  have hmap := congrArg (Option.map AbsTime.epoch) ht
  rw [show AbsTime.set (oneStep 7200) epochDate.year epochDate.month epochDate.day (3600 / 3600)
    (3600 % 3600 / 60) (3600 % 60) (0 : Nat) = AbsTime.set (oneStep 7200) 1970 1 1 1 0 0 0 from rfl,
    hres, Option.map_some, hepoch] at hmap
  exact absurd hmap (by decide)

/-! ### Adding days, months and years -/

/-- The day number of a day of a month that may lie outside of the month. -/
def dayNumber (year month day : Int) : Int :=
  yearStart year + daysBeforeMonth year month + day - 1

variable {month year : Int}

theorem getLastDayOfMonth_eq (hm : 1 ≤ month ∧ month ≤ 12) :
    getLastDayOfMonth month year = monthLength year month := by
  obtain ⟨h1, h12⟩ := hm
  unfold getLastDayOfMonth monthLengths monthLength
  rw [isLeapYear_eq]
  interval_cases month <;> rfl

/-- The next month starts at the end of a month, also in December. -/
theorem dayNumber_next (year : Int) (day : Int) (hm : 1 ≤ month ∧ month ≤ 12) :
    (if month + 1 = 13 then dayNumber (year + 1) 1 (day - monthLength year month)
      else dayNumber year (month + 1) (day - monthLength year month)) =
      dayNumber year month day := by
  unfold dayNumber
  split <;> rename_i hlast
  · have hdec : month = 12 := by omega
    subst hdec
    have hend := Gregorian.daysBeforeMonth_end year
    have hlen : monthLength year 12 = 31 := rfl
    rw [Gregorian.yearStart_succ, Gregorian.daysBeforeMonth_january]
    omega
  · rw [Gregorian.daysBeforeMonth_succ hm]
    omega

/-- The result of a loop is a date that exists, with the day number it started from. -/
def SameDay (n : Int) (r : Int × Int × Int) : Prop :=
  ∃ d : Date, r = (d.year, d.month, d.day) ∧ d.number = n

variable {day : Int}

theorem sameDay_of_valid (hm : 1 ≤ month ∧ month ≤ 12) (hd : 1 ≤ day ∧ day ≤ monthLength year month)
    :
    SameDay (dayNumber year month day) (year, month, day) := by
  refine ⟨⟨year, month, day, hm, hd⟩, rfl, ?_⟩
  unfold dayNumber
  show yearStart year + (daysBeforeMonth year month + day - 1) = _
  omega

theorem normalizeDayUp_sameDay (n : Nat) : ∀ year month day : Int, 1 ≤ month ∧ month ≤ 12 →
    1 ≤ day → day ≤ n → SameDay (dayNumber year month day) (normalizeDayUp n year month day) := by
  induction n with
  | zero => intro year month day _ h1 hn; omega
  | succ n ih =>
    intro year month day hm h1 hn
    have hnext := dayNumber_next year day hm
    have hlen := Gregorian.monthLength_bounds year month
    unfold normalizeDayUp
    dsimp only
    rw [getLastDayOfMonth_eq hm]
    split <;> rename_i hgt
    · split <;> rename_i hlast
      · rw [if_pos hlast] at hnext
        rw [← hnext]
        exact ih _ _ _ (by omega) (by omega) (by omega)
      · rw [if_neg hlast] at hnext
        rw [← hnext]
        exact ih _ _ _ (by omega) (by omega) (by omega)
    · exact sameDay_of_valid hm (by omega)

theorem normalizeDayDown_sameDay (n : Nat) : ∀ year month day : Int, 1 ≤ month ∧ month ≤ 12 →
    1 - day ≤ n → day ≤ monthLength year month →
    SameDay (dayNumber year month day) (normalizeDayDown n year month day) := by
  induction n with
  | zero =>
    intro year month day hm hn hd
    exact sameDay_of_valid hm (by omega)
  | succ n ih =>
    intro year month day hm hn hd
    unfold normalizeDayDown
    split <;> rename_i hlt
    · -- a step back is a step forward from the month before
      split <;> rename_i hfirst
      · have hjan : month = 1 := by omega
        subst hjan
        have hnext := dayNumber_next (year - 1) (day + monthLength (year - 1) 12)
          (show 1 ≤ (12 : Int) ∧ (12 : Int) ≤ 12 by decide)
        rw [if_pos (by decide), Int.sub_add_cancel, Int.add_sub_cancel] at hnext
        rw [getLastDayOfMonth_eq (by decide), hnext]
        have hlen := Gregorian.monthLength_bounds (year - 1) 12
        exact ih _ _ _ (by decide) (by omega) (by omega)
      · have hm' : 1 ≤ month - 1 ∧ month - 1 ≤ 12 := by omega
        have hnext := dayNumber_next year (day + monthLength year (month - 1)) hm'
        rw [if_neg (by omega), Int.sub_add_cancel, Int.add_sub_cancel] at hnext
        rw [getLastDayOfMonth_eq hm', hnext]
        have hlen := Gregorian.monthLength_bounds year (month - 1)
        exact ih _ _ _ hm' (by omega) (by omega)
    · exact sameDay_of_valid hm (by omega)

/-- `normalize_day` keeps the day. -/
theorem normalizeDay_sameDay (year : Int) (day : Int) (hm : 1 ≤ month ∧ month ≤ 12) :
    SameDay (dayNumber year month day) (normalizeDay year month day) := by
  have hlen := Gregorian.monthLength_bounds year month
  unfold normalizeDay
  split
  · exact normalizeDayUp_sameDay _ _ _ _ hm (by omega) (by omega)
  · exact normalizeDayDown_sameDay _ _ _ _ hm (by omega) (by omega)

/-- A date that exists needs no normalisation to the end of the month. -/
theorem normalizeDm_date (d : Date) :
    normalizeDm d.year d.month d.day = (d.year, d.month, d.day) := by
  have hm := d.month_mem
  have hd := d.day_mem
  rw [← getLastDayOfMonth_eq hm] at hd
  unfold getLastDayOfMonth at hd
  unfold normalizeDm
  rw [if_neg (show ¬(d.month > 12 ∨ d.month < 1) by omega)]
  dsimp only
  split
  · rename_i hfeb
    rw [if_neg (by omega)] at hd
    split at hd <;> rename_i hleap
    · rw [if_pos hleap]
      congr 2
      omega
    · omega
  · rename_i hnot
    split
    · rename_i hgt
      split at hd
      · omega
      · have hfeb : d.month = 2 := by omega
        rw [hfeb] at hgt
        have h28 : monthLengths 2 = 28 := rfl
        omega
    · rfl

/-- A relative time of years, months and days only. -/
def RelTime.DateOnly (dt : RelTime) : Prop :=
  dt.hour = 0 ∧ dt.minute = 0 ∧ dt.second = 0 ∧ dt.us = 0

variable {dt : RelTime}

theorem RelTime.DateOnly.timeSecs_eq (h : dt.DateOnly) : dt.timeSecs = some 0 := by
  obtain ⟨hh, hm, hs, -⟩ := h
  unfold RelTime.timeSecs
  rw [hh, hm, hs]
  rfl

variable {t : AbsTime}

/-- `operator+=` after the first branch, for a relative time without a time component. -/
theorem add_of_dateOnly (hdt : dt.DateOnly) {epoch : Int} {us : Nat} (hus : us < 1000000)
    (h : t.addDatePart dt = some (epoch, (us : Int))) :
    t.add dt = some { t with epoch, us } := by
  have hfits : FitsInt ((us : Int) + dt.us) := by
    rw [hdt.2.2.2]
    unfold FitsInt
    omega
  have hunits : normalizeUnits2 .int64 .int (epoch + 0) ((us : Int) + dt.us) 1000000 =
      (epoch, (us : Int)) := by
    rw [normalizeUnits2_micros hfits, hdt.2.2.2]
    congr 1 <;> omega
  unfold AbsTime.add
  rw [h]
  simp only [Option.bind_eq_bind, Option.bind_some, checkedInt_of_fits hfits, hdt.timeSecs_eq,
    hunits, Int.toNat_natCast, Option.pure_def]

theorem SimpleTm.set_us (s : Int) {us : Nat} (hus : us < 1000000) : (SimpleTm.set s us).us = us := by
  have hunits : normalizeUnits3 s us 1000000 = (s, us) := if_neg (by omega)
  unfold SimpleTm.set
  rw [hunits]

/-- The fields that `operator+=` starts from keep the microseconds. -/
theorem targetDay_us (ht : t.us < 1000000) {tm : SimpleTm}
    (h : t.targetDay dt = some (tm, year, month, day)) : tm.us = t.us := by
  unfold AbsTime.targetDay at h
  simp only [Option.bind_eq_bind, Option.bind_eq_some_iff, Option.pure_def, Option.some.injEq,
    Prod.mk.injEq] at h
  obtain ⟨_, _, _, _, _, _, htm, _⟩ := h
  rw [← htm]
  exact SimpleTm.set_us _ ht

/-- Both paths for the same target: `operator+=` looks up the offset at the local second. -/
theorem add_and_set (ht : t.us < 1000000) (hdt : dt.DateOnly)
    (hne : dt.year ≠ 0 ∨ dt.month ≠ 0 ∨ dt.day ≠ 0) {tm : SimpleTm} {local_ : Int}
    (htarget : t.targetDay dt = some (tm, year, month, day))
    (hlocal : getEpochSecondsTime year month day tm.hour tm.minute tm.second = some local_) :
    t.add dt = some { t with epoch := local_ - t.zone.off local_ } ∧
      AbsTime.set t.zone year month day tm.hour tm.minute tm.second tm.us =
        some { t with epoch := local_ - t.zone.off (local_ - t.zone.std) } := by
  have hus := targetDay_us ht htarget
  constructor
  · refine add_of_dateOnly hdt ht ?_
    unfold AbsTime.addDatePart AbsTime.addDate
    rw [if_pos hne, htarget]
    simp only [Option.bind_eq_bind, Option.bind_some, hlocal, Option.pure_def, hus]
  · unfold AbsTime.set
    rw [hlocal, hus]
    simp only [Option.bind_eq_bind, Option.bind_some, setLocalIntern_eq _ ht, Option.pure_def]

/-- `qore_absolute_time::getEpochSeconds`: the local second. -/
def AbsTime.getEpochSeconds (t : AbsTime) : Int := t.epoch + t.zone.off t.epoch

/-- The target of adding `n` days is the date `n` days later at the same time. -/
theorem targetDay_days (ht : t.us < 1000000) {d d' : Date} {sec : Int}
    (hsec : 0 ≤ sec ∧ sec < 86400) (hyear : -2147483648 < d.year ∧ d.year ≤ 2147483647)
    (hwall : t.getEpochSeconds = 86400 * d.number + sec) (hy : dt.year = 0) (hm : dt.month = 0)
    (hday : FitsInt (d.day + dt.day)) (hd' : d'.number = d.number + dt.day) :
    t.targetDay dt = some (SimpleTm.of d sec t.us, d'.year, d'.month, d'.day) := by
  have htm : SimpleTm.set (t.epoch + t.zone.off t.epoch) t.us = SimpleTm.of d sec t.us :=
    get_date hsec hyear ht hwall
  have hmem := d.month_mem
  obtain ⟨e, he, hnum⟩ := normalizeDay_sameDay d.year (d.day + dt.day) hmem
  have heq : e = d' := by
    apply Date.number_injective
    rw [hnum, hd']
    unfold dayNumber Date.number Date.dayOfYear
    omega
  subst heq
  unfold AbsTime.targetDay
  rw [htm]
  simp only [SimpleTm.of, hy, hm, add_zero, Option.bind_eq_bind, Option.bind_some,
    checkedInt_of_fits (show FitsInt d.year by unfold FitsInt; omega),
    checkedInt_of_fits (show FitsInt d.month by unfold FitsInt; omega), normalizeDm_date,
    checkedInt_of_fits hday, he, Option.pure_def]

/-- The two paths from a target day to a time, and the wall clock after adding days. -/
theorem add_date_iff (t : AbsTime) (ht : t.us < 1000000) (dt : RelTime) (hdt : dt.DateOnly) :
    -- a target with a component: `operator+=` and `set` find the same second
    (∀ tm year month day s, (dt.year ≠ 0 ∨ dt.month ≠ 0 ∨ dt.day ≠ 0) →
      t.targetDay dt = some (tm, year, month, day) →
      getEpochSecondsTime year month day tm.hour tm.minute tm.second = some s →
      ((t.add dt).map AbsTime.epoch =
          (AbsTime.set t.zone year month day tm.hour tm.minute tm.second tm.us).map AbsTime.epoch ↔
        t.zone.off s = t.zone.off (s - t.zone.std))) ∧
    -- without a component `t` stays, and `set` has to find it
    (∀ (d : Date) (sec : Int), dt.year = 0 ∧ dt.month = 0 ∧ dt.day = 0 → 0 ≤ sec ∧ sec < 86400 →
      EpochFits d.year d.month d.day → t.getEpochSeconds = 86400 * d.number + sec →
      ((t.add dt).map AbsTime.epoch = (AbsTime.set t.zone d.year d.month d.day (sec / 3600)
          (sec % 3600 / 60) (sec % 60) t.us).map AbsTime.epoch ↔
        t.zone.off (localSecs d sec - t.zone.std) =
          t.zone.off t.epoch - 86400 * lostDays d.year)) ∧
    -- whole days keep a wall clock time that is shown at second `u`
    ∀ (d d' : Date) (sec u : Int), dt.year = 0 ∧ dt.month = 0 ∧ dt.day ≠ 0 →
      0 ≤ sec ∧ sec < 86400 → (-2147483648 < d.year ∧ d.year ≤ 2147483647) →
      t.getEpochSeconds = 86400 * d.number + sec → FitsInt (d.day + dt.day) →
      d'.number = d.number + dt.day → EpochFits d'.year d'.month d'.day →
      u + t.zone.off u = 86400 * d'.number + sec →
      (∀ v, v + t.zone.off v = 86400 * d'.number + sec → v = u) →
      ((∃ r, t.add dt = some r ∧ r.getEpochSeconds = 86400 * d'.number + sec ∧
          r.get = SimpleTm.of d' sec t.us) ↔
        t.zone.off (localSecs d' sec) = t.zone.off u - 86400 * lostDays d'.year) := by
  refine ⟨?_, ?_, ?_⟩
  · intro tm year month day s hne htarget hlocal
    obtain ⟨hadd, hset⟩ := add_and_set ht hdt hne htarget hlocal
    rw [hadd, hset]
    simp only [Option.map_some, Option.some.injEq]
    omega
  · intro d sec hzero hsec hfits hwall
    have hsame : t.addDatePart dt = some (t.epoch, (t.us : Int)) := if_neg (by omega)
    rw [add_of_dateOnly hdt ht hsame,
      set_date t.zone d sec ht hfits]
    simp only [Option.map_some, Option.some.injEq]
    unfold AbsTime.getEpochSeconds at hwall
    unfold localSecs at *
    omega
  · intro d d' sec u hdays hsec hyear hwall hday hd' hfits hu hunique
    have hyear' := hfits.year_bounds
    have htarget := targetDay_days ht hsec hyear hwall hdays.1 hdays.2.1 hday hd'
    obtain ⟨hadd, -⟩ := add_and_set ht hdt (Or.inr (Or.inr hdays.2.2)) htarget
      (getEpochSecondsTime_date d' hfits)
    have hepoch : localSecs d' sec - t.zone.off (localSecs d' sec) = u ↔
        t.zone.off (localSecs d' sec) = t.zone.off u - 86400 * lostDays d'.year := by
      unfold localSecs at *
      omega
    rw [hadd, ← hepoch]
    constructor
    · rintro ⟨r, hr, hrwall, -⟩
      rw [Option.some.injEq] at hr
      subst hr
      exact hunique _ hrwall
    · intro heq
      have hrwall : (localSecs d' sec - t.zone.off (localSecs d' sec)) +
          t.zone.off (localSecs d' sec - t.zone.off (localSecs d' sec)) =
          86400 * d'.number + sec := by
        rw [heq]
        exact hu
      exact ⟨_, rfl, hrwall, get_date hsec (by omega) ht hrwall⟩

/-- A zone one hour east that goes to summer time on 1970-01-11. -/
def summerStart : Zone := { std := 3600, off := fun e => if e < 864000 then 3600 else 7200 }

/-- One day. -/
def oneDay : RelTime := { year := 0, month := 0, day := 1, hour := 0, minute := 0, second := 0, us := 0 }

/-- One day from noon of 1970-01-01: both paths give noon of the next day. -/
theorem oneDay_agrees :
    ((⟨39600, 0, summerStart⟩ : AbsTime).add oneDay).map AbsTime.epoch =
      (AbsTime.set summerStart 1970 1 2 12 0 0 0).map AbsTime.epoch :=
  ((add_date_iff ⟨39600, 0, summerStart⟩ (by decide) oneDay (by unfold RelTime.DateOnly; decide)).1
    { year := 1970, month := 1, day := 1, hour := 12, minute := 0, second := 0, us := 0 } 1970 1 2
    129600 (by decide) (by decide) (by decide)).mpr (by decide)

/-- One day to 00:30 of the day on which summer time starts at 01:00: `operator+=` takes the
summer offset and lands at 23:30 of the day before. -/
theorem oneDay_differs : ¬∀ (t : AbsTime) (dt : RelTime) (tm : SimpleTm) (year month day : Int),
    t.us < 1000000 → dt.DateOnly → t.targetDay dt = some (tm, year, month, day) →
    (t.add dt).map AbsTime.epoch =
      (AbsTime.set t.zone year month day tm.hour tm.minute tm.second tm.us).map AbsTime.epoch := by
  intro h
  have heq := h ⟨775800, 0, summerStart⟩ oneDay
    { year := 1970, month := 1, day := 10, hour := 0, minute := 30, second := 0, us := 0 } 1970 1 11
    (by decide) (by unfold RelTime.DateOnly; decide) (by decide)
  exact absurd heq (by decide)

end Qore.Date
