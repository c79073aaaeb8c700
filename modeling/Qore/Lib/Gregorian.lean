import Mathlib

/-!
# `Qore.Lib.Gregorian`: the proleptic Gregorian calendar

Days are numbered by `Int`, day 0 is 1970-01-01. A `Date` carries the proof that its month
and day exist, for every year, also the years before 1.

* `Date.number_injective` and `exists_number_eq`: the valid dates and the day numbers
  correspond one to one.
-/

set_option autoImplicit false

namespace Qore.Lib.Gregorian

/-- The leap years. -/
def leap (y : Int) : Bool := decide (y % 4 = 0 ∧ (y % 100 ≠ 0 ∨ y % 400 = 0))

/-- The number of days of a year. -/
def yearLength (y : Int) : Int := if leap y then 366 else 365

/-- The number of days of a month. -/
def monthLength (y m : Int) : Int :=
  if m = 2 then (if leap y then 29 else 28)
  else if m = 4 ∨ m = 6 ∨ m = 9 ∨ m = 11 then 30
  else 31

/-- The number of leap years from year 1 to year `y`, negative for the years before. -/
def leapsThrough (y : Int) : Int := y / 4 - y / 100 + y / 400

/-- The number of January 1st of a year. The years before 1970 have 477 leap days. -/
def yearStart (y : Int) : Int := 365 * (y - 1970) + leapsThrough (y - 1) - 477

/-- The number of days of the year before its month `m`. -/
def daysBeforeMonth (y m : Int) : Int :=
  [0, 31, 59, 90, 120, 151, 181, 212, 243, 273, 304, 334].getD (m - 1).toNat 365 +
    (if 2 < m ∧ leap y then 1 else 0)

theorem leap_iff (y : Int) : leap y = true ↔ y % 4 = 0 ∧ (y % 100 ≠ 0 ∨ y % 400 = 0) := by
  simp [leap]

/-- Each year starts where the year before ends. -/
theorem yearStart_succ (y : Int) : yearStart (y + 1) = yearStart y + yearLength y := by
  unfold yearStart yearLength leapsThrough
  have hy := leap_iff y
  split <;> rename_i h
  · have := hy.mp h
    omega
  · have : ¬(y % 4 = 0 ∧ (y % 100 ≠ 0 ∨ y % 400 = 0)) := fun hc => h (hy.mpr hc)
    omega

theorem yearLength_bounds (y : Int) : 365 ≤ yearLength y ∧ yearLength y ≤ 366 := by
  unfold yearLength
  split <;> omega

theorem yearStart_lt_succ (y : Int) : yearStart y < yearStart (y + 1) := by
  have hlen := yearLength_bounds y
  have hsucc := yearStart_succ y
  omega

theorem yearStart_strictMono : StrictMono yearStart := by
  refine strictMono_int_of_lt_succ fun y => ?_
  exact yearStart_lt_succ y

/-- Every day lies in a year. -/
theorem exists_year (n : Int) : ∃ y, yearStart y ≤ n ∧ n < yearStart (y + 1) := by
  -- the year of the average length is off by at most one
  have key : ∀ y, yearStart y = 365 * (y - 1970) + leapsThrough (y - 1) - 477 := fun _ => rfl
  let g := 1970 + 400 * n / 146097
  have h0 := key g
  have hm := key (g - 1)
  have hp := key (g + 1)
  have hq := key (g + 2)
  unfold leapsThrough at h0 hm hp hq
  by_cases hlow : n < yearStart g
  · refine ⟨g - 1, ?_, ?_⟩
    · omega
    · rw [show g - 1 + 1 = g by omega]
      exact hlow
  · by_cases hhigh : n < yearStart (g + 1)
    · exact ⟨g, by omega, hhigh⟩
    · refine ⟨g + 1, by omega, ?_⟩
      rw [show g + 1 + 1 = g + 2 by omega]
      omega

variable {n y : Int}

/-- A day lies in one year only. -/
theorem year_unique {z : Int} (hy : yearStart y ≤ n ∧ n < yearStart (y + 1))
    (hz : yearStart z ≤ n ∧ n < yearStart (z + 1)) : y = z := by
  have hyz : y < z + 1 := yearStart_strictMono.lt_iff_lt.mp (by omega)
  have hzy : z < y + 1 := yearStart_strictMono.lt_iff_lt.mp (by omega)
  omega

/-- Each month starts where the month before ends. -/
theorem daysBeforeMonth_succ {m : Int} (hm : 1 ≤ m ∧ m ≤ 12) : daysBeforeMonth y (m + 1) =
      daysBeforeMonth y m + monthLength y m := by
  obtain ⟨h1, h12⟩ := hm
  unfold daysBeforeMonth monthLength
  interval_cases m <;> cases leap y <;> decide

theorem monthLength_bounds (y m : Int) : 28 ≤ monthLength y m ∧ monthLength y m ≤ 31 := by
  unfold monthLength
  split_ifs <;> omega

theorem daysBeforeMonth_january (y : Int) : daysBeforeMonth y 1 = 0 := rfl

/-- The twelve months make up the year. -/
theorem daysBeforeMonth_end (y : Int) : daysBeforeMonth y 12 + 31 = yearLength y := by
  unfold daysBeforeMonth yearLength
  cases leap y <;> decide

/-- A later month starts after the end of an earlier one. -/
theorem daysBeforeMonth_le {m k : Int} (hm : 1 ≤ m) (hmk : m < k) (hk : k ≤ 12) :
    daysBeforeMonth y m + monthLength y m ≤ daysBeforeMonth y k := by
  have hm' : m ≤ 12 := by omega
  unfold daysBeforeMonth monthLength
  interval_cases m <;> interval_cases k <;> first | omega | (cases leap y <;> decide)

/-- A date that exists. -/
@[ext]
structure Date where
  year : Int
  month : Int
  day : Int
  month_mem : 1 ≤ month ∧ month ≤ 12
  day_mem : 1 ≤ day ∧ day ≤ monthLength year month

namespace Date

/-- The position of the date in its year, 1 for January 1st. -/
def dayOfYear (d : Date) : Int := daysBeforeMonth d.year d.month + d.day

/-- The day number of the date. -/
def number (d : Date) : Int := yearStart d.year + (d.dayOfYear - 1)

theorem dayOfYear_bounds (d : Date) : 1 ≤ d.dayOfYear ∧ d.dayOfYear ≤ yearLength d.year := by
  obtain ⟨hm1, hm12⟩ := d.month_mem
  obtain ⟨hd1, hdlen⟩ := d.day_mem
  unfold dayOfYear
  constructor
  · have hpos : 0 ≤ daysBeforeMonth d.year d.month := by
      unfold daysBeforeMonth
      generalize d.month = m at hm1 hm12
      interval_cases m <;> cases leap d.year <;> decide
    omega
  · have hend := daysBeforeMonth_end d.year
    have hdec : monthLength d.year 12 = 31 := rfl
    by_cases h : d.month = 12
    · rw [h] at hdlen ⊢
      omega
    · have hle := daysBeforeMonth_le (y := d.year) hm1 (show d.month < 12 by omega) le_rfl
      omega

theorem number_bounds (d : Date) :
    yearStart d.year ≤ d.number ∧ d.number < yearStart (d.year + 1) := by
  have hday := d.dayOfYear_bounds
  have hsucc := yearStart_succ d.year
  unfold number
  omega

/-- Two dates with the same day number are the same. -/
theorem number_injective : Function.Injective number := by
  intro d e hde
  have hyear : d.year = e.year :=
    year_unique d.number_bounds (hde ▸ e.number_bounds)
  have hday : d.dayOfYear = e.dayOfYear := by
    unfold number at hde
    rw [hyear] at hde
    omega
  obtain ⟨y, m, a, hm, ha⟩ := d
  obtain ⟨z, k, b, hk, hb⟩ := e
  simp only at hyear
  subst hyear
  simp only [dayOfYear] at hday
  -- a month cannot reach into a later one
  obtain hlt | heq | hgt := lt_trichotomy m k
  · have hle := daysBeforeMonth_le (y := y) hm.1 hlt hk.2
    omega
  · subst heq
    congr 1
    omega
  · have hle := daysBeforeMonth_le (y := y) hk.1 hgt hm.2
    omega

end Date

variable {a : Int}

/-- Every day of a year lies in one of its months. -/
theorem exists_month (h0 : 0 ≤ a) (ha : a < yearLength y) :
    ∃ m, (1 ≤ m ∧ m ≤ 12) ∧ daysBeforeMonth y m ≤ a ∧
      a < daysBeforeMonth y m + monthLength y m := by
  have hend := daysBeforeMonth_end y
  have hdec : monthLength y 12 = 31 := rfl
  -- walk from December back to the last month that starts on or before the day
  have key : ∀ k : Nat, k ≤ 11 → a < daysBeforeMonth y (k + 1) + monthLength y (k + 1) →
      ∃ m, (1 ≤ m ∧ m ≤ 12) ∧ daysBeforeMonth y m ≤ a ∧
        a < daysBeforeMonth y m + monthLength y m := by
    intro k
    induction k with
    | zero =>
      intro _ hlt
      exact ⟨1, by omega, by rw [daysBeforeMonth_january]; exact h0, by simpa using hlt⟩
    | succ k ih =>
      intro hk hlt
      by_cases hstart : daysBeforeMonth y ((k + 1 : Nat) + 1) ≤ a
      · exact ⟨(k + 1 : Nat) + 1, by omega, hstart, hlt⟩
      · refine ih (by omega) ?_
        have hsucc := daysBeforeMonth_succ (y := y) (m := k + 1) (by omega)
        push_cast at hstart
        omega
  exact key 11 le_rfl (by push_cast; omega)

/-- Every day number is the number of a date. -/
theorem exists_number_eq (n : Int) : ∃ d : Date, d.number = n := by
  obtain ⟨y, hlow, hhigh⟩ := exists_year n
  have hsucc := yearStart_succ y
  obtain ⟨m, hm, hstart, hend⟩ :=
    exists_month (y := y) (a := n - yearStart y) (by omega) (by omega)
  refine ⟨⟨y, m, n - yearStart y - daysBeforeMonth y m + 1, hm, by omega⟩, ?_⟩
  simp only [Date.number, Date.dayOfYear]
  omega

end Qore.Lib.Gregorian
