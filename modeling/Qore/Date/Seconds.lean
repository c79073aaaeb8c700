import Qore.Date.Duration

/-!
# `Qore.Date.Seconds`: durations from a count of seconds

`DateTime::makeRelativeFromSeconds`, `qore_relative_time::setSeconds` and
`qore_relative_time::addSecondsTo` each split 64-bit seconds into hours, minutes and seconds. Hours
and minutes are `int`, and so are their products with the seconds of an hour and of a minute.

* `seconds_iff`: the three durations have the length of the seconds exactly when the seconds of the
  whole hours are an `int`.
-/

set_option autoImplicit false

namespace Qore.Date

open Qore.Lib

/-! ### The split -/

/-- `if (n) s -= n * unit`, where `n * unit` is an `int` product; `none` when it overflows. -/
def takeUnits (s n unit : Int) : Option Int :=
  if n ≠ 0 then (checkedInt (n * unit)).map fun k => s - k else some s

/-- The split of 64-bit seconds that the three functions share: hours, minutes and the seconds that
are left. -/
def splitSeconds (s : Int) : Option (Int × Int × Int) := do
  let h := truncInt (s.tdiv 3600)
  let s ← takeUnits s h 3600
  let m := truncInt (s.tdiv 60)
  let s ← takeUnits s m 60
  return (h, m, s)

/-- `DateTime::makeRelativeFromSeconds` with the overflow of its `int` products. -/
def DateTime.makeRelativeFromSecondsChecked (s u : Int) : Option RelTime := do
  let (h, m, s) ← splitSeconds s
  return RelTime.setFields
    { year := 0, month := 0, day := 0, hour := h, minute := m, second := truncInt s, us := u }

namespace RelTime

/-- `qore_relative_time::zero`. -/
def zero : RelTime := ofTime 0 0 0 0

/-- `qore_relative_time::setSeconds`, which sets every field. -/
def setSeconds (s usecs : Int) : Option RelTime := do
  let (hour, minute, s) ← splitSeconds s
  return { year := 0, month := 0, day := 0, hour, minute, second := truncInt s, us := usecs }

/-- `qore_relative_time::addSecondsTo`; `none` when an `int` overflows. The seconds are added as
64-bit integers. -/
def addSecondsTo (t : RelTime) (secs n_us : Int) : Option RelTime := do
  let (h, m, secs) ← splitSeconds secs
  let hour ← checkedInt (t.hour + h)
  let minute ← checkedInt (t.minute + m)
  let us ← checkedInt (t.us + n_us)
  return { t with hour, minute, second := truncInt (t.second + secs), us }

end RelTime

/-! ### The length -/

/-- Units whose product is an `int` are taken off. -/
theorem takeUnits_of_fits {s n unit : Int} (h : FitsInt (n * unit)) :
    takeUnits s n unit = some (s - n * unit) := by
  unfold takeUnits
  split
  · rw [checkedInt_of_fits h]
    rfl
  · rename_i hzero
    rw [not_ne_iff] at hzero
    rw [hzero, Int.zero_mul, Int.sub_zero]

theorem takeUnits_of_not_fits {s n unit : Int} (h : ¬FitsInt (n * unit)) :
    takeUnits s n unit = none := by
  have hne : n ≠ 0 := by
    rintro rfl
    rw [Int.zero_mul] at h
    exact h (by decide)
  unfold takeUnits
  rw [if_pos hne, checkedInt_of_not_fits h]
  rfl

/-- The split finds quotient and remainder of the seconds exactly when the seconds of the whole
hours are an `int`. -/
theorem splitSeconds_eq {s : Int} (hs : FitsInt (s.tdiv 3600)) :
    splitSeconds s = if FitsInt (s.tdiv 3600 * 3600) then
      some (s.tdiv 3600, (s.tmod 3600).tdiv 60, (s.tmod 3600).tmod 60) else none := by
  have hhours : truncInt (s.tdiv 3600) = s.tdiv 3600 := truncInt_of_fits hs
  have hrest : s - s.tdiv 3600 * 3600 = s.tmod 3600 := by
    rw [tmod_eq_sub, Int.mul_comm]
  have hbelow := Int.tmod_lt_of_pos s (show (0 : Int) < 3600 by decide)
  have habove := Int.lt_tmod_of_pos s (show (0 : Int) < 3600 by decide)
  unfold splitSeconds
  dsimp only
  rw [hhours]
  split
  · rename_i hfits
    -- less than an hour is left, so the minutes do not overflow
    have hminutes : -60 < (s.tmod 3600).tdiv 60 ∧ (s.tmod 3600).tdiv 60 < 60 := by
      rw [tdiv_eq_ite]
      split <;> omega
    have htrunc : truncInt ((s.tmod 3600).tdiv 60) = (s.tmod 3600).tdiv 60 :=
      truncInt_of_fits (by unfold FitsInt; omega)
    have hseconds : s.tmod 3600 - (s.tmod 3600).tdiv 60 * 60 = (s.tmod 3600).tmod 60 := by
      rw [tmod_eq_sub (s.tmod 3600), Int.mul_comm 60]
    rw [takeUnits_of_fits hfits, hrest, Option.bind_eq_bind, Option.bind_some, htrunc,
      takeUnits_of_fits (by unfold FitsInt; omega), hseconds]
    rfl
  · rename_i hfits
    rw [takeUnits_of_not_fits hfits]
    rfl

namespace RelTime

/-- Hours, minutes and seconds of the split with microseconds of their own. -/
def ofSeconds (s us : Int) : RelTime :=
  ofTime (s.tdiv 3600) ((s.tmod 3600).tdiv 60) ((s.tmod 3600).tmod 60) us

theorem getRelativeMicroseconds_ofTime (h m s us : Int) :
    (ofTime h m s us).getRelativeMicroseconds = (ofTime h m s us).timeMicros := by
  unfold getRelativeMicroseconds timeMicros ofTime
  dsimp only
  omega

/-- The parts of the seconds are the seconds. -/
theorem timeMicros_ofSeconds (s us : Int) : (ofSeconds s us).timeMicros = s * 1000000 + us := by
  have hhour := Int.mul_tdiv_add_tmod s 3600
  have hminute := Int.mul_tdiv_add_tmod (s.tmod 3600) 60
  unfold timeMicros ofSeconds ofTime
  dsimp only
  omega

/-- `setFields` does not overflow: the carries of the microseconds and of the seconds are small. -/
theorem fits_ofSeconds (s : Int) {us : Int} (hus : FitsInt us) : (ofSeconds s us).Fits := by
  have hbelow := Int.tmod_lt_of_pos s (show (0 : Int) < 3600 by decide)
  have habove := Int.lt_tmod_of_pos s (show (0 : Int) < 3600 by decide)
  have hsbelow := Int.tmod_lt_of_pos (s.tmod 3600) (show (0 : Int) < 60 by decide)
  have hsabove := Int.lt_tmod_of_pos (s.tmod 3600) (show (0 : Int) < 60 by decide)
  have hminutes : -60 < (s.tmod 3600).tdiv 60 ∧ (s.tmod 3600).tdiv 60 < 60 := by
    rw [tdiv_eq_ite]
    split <;> omega
  have hus' := hus
  unfold FitsInt at hus'
  have hmicros : -2300 < (ofSeconds s us).micros.tdiv 1000000 ∧
      (ofSeconds s us).micros.tdiv 1000000 < 2300 := by
    unfold micros ofSeconds ofTime
    dsimp only
    rw [tdiv_eq_ite]
    split <;> omega
  have hsecs : -6000 < (ofSeconds s us).secs ∧ (ofSeconds s us).secs < 6000 := by
    have hm : (ofSeconds s us).secs = (s.tmod 3600).tdiv 60 * 60 +
      (ofSeconds s us).micros.tdiv 1000000 := rfl
    omega
  refine ⟨hus, ?_, ?_⟩
  · unfold FitsInt
    omega
  · rw [tdiv_eq_ite]
    unfold FitsInt
    split <;> omega

/-- The three functions build a duration that is as long as the seconds and microseconds. -/
def FromSecondsExact (s us : Int) : Prop :=
  (DateTime.makeRelativeFromSecondsChecked s us).map getRelativeMicroseconds =
      some (s * 1000000 + us) ∧
    (setSeconds s us).map getRelativeMicroseconds = some (s * 1000000 + us) ∧
    (zero.addSecondsTo s us).map getRelativeMicroseconds = some (s * 1000000 + us)

instance (s us : Int) : Decidable (FromSecondsExact s us) :=
  inferInstanceAs (Decidable (_ ∧ _ ∧ _))

theorem truncInt_seconds (s : Int) : truncInt ((s.tmod 3600).tmod 60) = (s.tmod 3600).tmod 60 := by
  have hbelow := Int.tmod_lt_of_pos (s.tmod 3600) (show (0 : Int) < 60 by decide)
  have habove := Int.lt_tmod_of_pos (s.tmod 3600) (show (0 : Int) < 60 by decide)
  refine truncInt_of_fits ?_
  unfold FitsInt
  omega

theorem makeRelativeFromSecondsChecked_micros {s us : Int} (hs : FitsInt (s.tdiv 3600))
    (hus : FitsInt us) (hfits : FitsInt (s.tdiv 3600 * 3600)) :
    (DateTime.makeRelativeFromSecondsChecked s us).map getRelativeMicroseconds =
      some (s * 1000000 + us) := by
  have hmade : DateTime.makeRelativeFromSecondsChecked s us = some (ofSeconds s us).setFields := by
    unfold DateTime.makeRelativeFromSecondsChecked
    rw [splitSeconds_eq hs, if_pos hfits]
    show some _ = some _
    rw [truncInt_seconds]
    rfl
  -- `set` normalises the microseconds into the other fields and keeps the length
  have hdate := setFields_date (t := ofSeconds s us) rfl rfl
  have hday : (ofSeconds s us).day = 0 := rfl
  have hlength := timeMicros_setFields (fits_ofSeconds s hus)
  rw [timeMicros_ofSeconds] at hlength
  rw [hmade, Option.map_some, ← hlength]
  unfold getRelativeMicroseconds timeMicros
  congr 1
  omega

theorem setSeconds_micros {s : Int} (us : Int) (hs : FitsInt (s.tdiv 3600))
    (hfits : FitsInt (s.tdiv 3600 * 3600)) :
    (setSeconds s us).map getRelativeMicroseconds = some (s * 1000000 + us) := by
  have hset : setSeconds s us = some (ofSeconds s us) := by
    unfold setSeconds
    rw [splitSeconds_eq hs, if_pos hfits]
    show some _ = some _
    rw [truncInt_seconds]
    rfl
  rw [hset, Option.map_some, ← timeMicros_ofSeconds s us]
  exact congrArg some (getRelativeMicroseconds_ofTime _ _ _ _)

theorem addSecondsTo_micros {s us : Int} (hs : FitsInt (s.tdiv 3600)) (hus : FitsInt us)
    (hfits : FitsInt (s.tdiv 3600 * 3600)) :
    (zero.addSecondsTo s us).map getRelativeMicroseconds = some (s * 1000000 + us) := by
  have hbelow := Int.tmod_lt_of_pos s (show (0 : Int) < 3600 by decide)
  have habove := Int.lt_tmod_of_pos s (show (0 : Int) < 3600 by decide)
  have hminute : FitsInt ((s.tmod 3600).tdiv 60) := by
    rw [tdiv_eq_ite]
    unfold FitsInt
    split <;> omega
  have hadd : zero.addSecondsTo s us = some (ofSeconds s us) := by
    unfold addSecondsTo
    rw [splitSeconds_eq hs, if_pos hfits]
    show (checkedInt (0 + _)).bind (fun hour => (checkedInt (0 + _)).bind fun minute =>
      (checkedInt (0 + us)).bind fun us => some _) = _
    rw [Int.zero_add, Int.zero_add, Int.zero_add, checkedInt_of_fits hs, Option.bind_some,
      checkedInt_of_fits hminute, Option.bind_some, checkedInt_of_fits hus, Option.bind_some]
    have hsecond : truncInt (zero.second + (s.tmod 3600).tmod 60) = (s.tmod 3600).tmod 60 := by
      have hzero : zero.second = 0 := rfl
      rw [hzero, Int.zero_add, truncInt_seconds]
    rw [hsecond]
    rfl
  rw [hadd, Option.map_some, ← timeMicros_ofSeconds s us]
  exact congrArg some (getRelativeMicroseconds_ofTime _ _ _ _)

/-- For seconds whose whole hours are an `int`, the durations are as long as the seconds exactly
when the seconds of the whole hours are an `int` as well. -/
theorem seconds_iff (s us : Int) (hs : FitsInt (s.tdiv 3600)) (hus : FitsInt us) :
    FromSecondsExact s us ↔ FitsInt (s.tdiv 3600 * 3600) := by
  constructor
  · intro hexact
    -- a product that overflows leaves no duration
    by_contra hfits
    have hset := hexact.2.1
    unfold setSeconds at hset
    rw [splitSeconds_eq hs, if_neg hfits] at hset
    exact Option.some_ne_none _ hset.symm
  · intro hfits
    exact ⟨makeRelativeFromSecondsChecked_micros hs hus hfits, setSeconds_micros us hs hfits,
      addSecondsTo_micros hs hus hfits⟩

/-- An hour, a minute and a second, less half a second. -/
theorem seconds_hour : FromSecondsExact 3661 (-500000) :=
  (seconds_iff 3661 (-500000) (by decide) (by decide)).mpr (by decide)

/-- The seconds of 596524 hours are no `int`, although the hours are. -/
theorem seconds_wrong : FitsInt ((2147486400 : Int).tdiv 3600) ∧ ¬FromSecondsExact 2147486400 0 := by
  decide

end RelTime

end Qore.Date
