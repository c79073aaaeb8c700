import Qore.Date.Local

/-!
# `Qore.Date.Compare`: the order of dates

`qore_date_private` holds an absolute or a relative time; `compare` orders two of them. Relative
times are compared by their normalised fields, and every absolute time is above every relative
one.

* `DateTime.compare_swap`: exchanging the arguments negates the result.
-/

set_option autoImplicit false

namespace Qore.Date

open Qore.Lib

/-- The comparisons of `compare`, field after field: the first difference decides. -/
def compareFields : List (Int × Int) → Int
  | [] => 0
  | (l, r) :: rest => if l > r then 1 else if l < r then -1 else compareFields rest

/-- `qore_relative_time::normalize`. For a comparison days have 24 hours, years 365 days and
months 31 days. -/
def RelTime.normalize (t : RelTime) (forComparison : Bool) : RelTime :=
  let (second, us) := normalizeUnits .int .int t.second t.us 1000000
  let (minute, second) := normalizeUnits .int .int t.minute second 60
  let (hour, minute) := normalizeUnits .int .int t.hour minute 60
  let (day, hour) := if forComparison then normalizeUnits .int .int t.day hour 24 else (t.day, hour)
  let (year, day) := if forComparison then normalizeUnits .int .int t.year day 365 else (t.year, day)
  let (month, day) := if forComparison then normalizeUnits .int .int t.month day 31 else (t.month, day)
  let (year, month) := normalizeUnits .int .int year month 12
  { year, month, day, hour, minute, second, us }

/-- `qore_relative_time::set` with the fields of a time. -/
def RelTime.setFields (t : RelTime) : RelTime := t.normalize false

/-- The fields of two relative times in the order of `compare`. -/
def RelTime.fieldPairs (l r : RelTime) : List (Int × Int) :=
  [(l.year, r.year), (l.month, r.month), (l.day, r.day), (l.hour, r.hour),
    (l.minute, r.minute), (l.second, r.second), (l.us, r.us)]

/-- `qore_relative_time::compare`. The copies that are compared are normalised by `set` and then
once more for the comparison. -/
def RelTime.compare (a b : RelTime) : Int :=
  compareFields (RelTime.fieldPairs (a.setFields.normalize true) (b.setFields.normalize true))

/-- `qore_relative_time::getRelativeMicroseconds`, with an average day of 24 hours, a month of 31
days and a year of 365 days. -/
def RelTime.getRelativeMicroseconds (t : RelTime) : Int :=
  t.us + t.second * 1000000 + t.minute * (1000000 * 60) + t.hour * (1000000 * 3600)
    + t.day * (1000000 * 3600 * 24) + t.month * (1000000 * 3600 * 24 * 31)
    + t.year * (1000000 * 3600 * 24 * 365)

/-- `qore_absolute_time::compare`. -/
def AbsTime.compare (a b : AbsTime) : Int :=
  compareFields [(a.epoch, b.epoch), (a.us, b.us)]

/-- `qore_date_private`: the union with its discriminator. -/
inductive DateTime
  | abs (t : AbsTime)
  | rel (t : RelTime)

namespace DateTime

/-- `qore_date_private::compare`: absolute dates are always larger than relative dates. -/
def compare : DateTime → DateTime → Int
  | rel a, rel b => a.compare b
  | rel _, abs _ => -1
  | abs _, rel _ => 1
  | abs a, abs b => a.compare b

/-- `qore_date_private::isEqual`. -/
def isEqual (a b : DateTime) : Bool := compare a b = 0

/-- `qore_date_private::hasValue`. -/
def hasValue : DateTime → Bool
  | abs t => t.epoch ≠ 0 ∨ t.us ≠ 0
  | rel t => t.year ≠ 0 ∨ t.month ≠ 0 ∨ t.day ≠ 0 ∨ t.hour ≠ 0 ∨ t.minute ≠ 0 ∨ t.second ≠ 0 ∨
      t.us ≠ 0

/-- `qore_date_private::getEpochSeconds`. -/
def getEpochSeconds : DateTime → Int
  | abs t => t.getEpochSeconds
  | rel t => t.getRelativeMicroseconds.tdiv 1000000

/-- `DateTime::makeRelativeFromSeconds`. Hours, minutes and seconds are `int`; where the products of
`int`s overflow is left to `makeRelativeFromSecondsChecked`. -/
def makeRelativeFromSeconds (s u : Int) : DateTime :=
  let h := truncInt (s.tdiv 3600)
  let s := s - h * 3600
  let m := truncInt (s.tdiv 60)
  let s := s - m * 60
  rel (RelTime.setFields
    { year := 0, month := 0, day := 0, hour := h, minute := m, second := truncInt s, us := u })

end DateTime

theorem compareFields_swap (fs : List (Int × Int)) :
    compareFields (fs.map Prod.swap) = -compareFields fs := by
  induction fs with
  | nil => rfl
  | cons f rest ih =>
    obtain ⟨l, r⟩ := f
    simp only [List.map_cons, Prod.swap_prod_mk, compareFields, ih]
    split_ifs <;> omega

theorem compareFields_cases (fs : List (Int × Int)) :
    compareFields fs = -1 ∨ compareFields fs = 0 ∨ compareFields fs = 1 := by
  induction fs with
  | nil => exact .inr (.inl rfl)
  | cons f rest ih =>
    simp only [compareFields]
    split_ifs
    · exact .inr (.inr rfl)
    · exact .inl rfl
    · exact ih

/-- Exchanging the arguments negates the result. -/
theorem DateTime.compare_swap (a b : DateTime) : compare b a = -compare a b := by
  cases a with
  | abs a =>
    cases b with
    | abs b => exact compareFields_swap [(a.epoch, b.epoch), (a.us, b.us)]
    | rel b => rfl
  | rel a =>
    cases b with
    | abs b => rfl
    | rel b =>
      exact compareFields_swap
        (RelTime.fieldPairs (a.setFields.normalize true) (b.setFields.normalize true))

theorem DateTime.compare_cases (a b : DateTime) :
    compare a b = -1 ∨ compare a b = 0 ∨ compare a b = 1 := by
  cases a with
  | abs a =>
    cases b with
    | abs b => exact compareFields_cases _
    | rel b => exact .inr (.inr rfl)
  | rel a =>
    cases b with
    | abs b => exact .inl rfl
    | rel b => exact compareFields_cases _

end Qore.Date
