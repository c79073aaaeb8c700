import Mathlib.Data.Int.Basic

/-!
# `Qore.Lib.CInt`: 32-bit signed arithmetic

A C `int` is an `Int` between `-2^31` and `2^31 - 1`. The sum or product of two `int`s that
leaves this range is undefined, which `checkedInt` shows as `none`. The conversion of a wider
integer to `int` is defined and keeps the low 32 bits (`truncInt`). Division and remainder
round to zero, as `Int.tdiv` and `Int.tmod` do.
-/

set_option autoImplicit false

namespace Qore.Lib

/-- The range of `int`. -/
def FitsInt (x : Int) : Prop := -2147483648 ≤ x ∧ x ≤ 2147483647

instance (x : Int) : Decidable (FitsInt x) := by unfold FitsInt; infer_instance

/-- The result of an `int` operation, `none` when it overflows. -/
def checkedInt (x : Int) : Option Int := if FitsInt x then some x else none

/-- The conversion `(int)x`. -/
def truncInt (x : Int) : Int := (x + 2147483648) % 4294967296 - 2147483648

theorem checkedInt_of_fits {x : Int} (h : FitsInt x) : checkedInt x = some x := if_pos h

theorem checkedInt_of_not_fits {x : Int} (h : ¬FitsInt x) : checkedInt x = none := if_neg h

theorem checkedInt_eq_some_iff {x y : Int} : checkedInt x = some y ↔ FitsInt x ∧ x = y := by
  by_cases h : FitsInt x
  · simp [checkedInt_of_fits h, h]
  · simp [checkedInt_of_not_fits h, h]

/-- A value that fits is not changed by the conversion. -/
theorem truncInt_of_fits {x : Int} (h : FitsInt x) : truncInt x = x := by
  unfold FitsInt at h
  unfold truncInt
  omega

/-- The quotient by floors, in the form that `omega` reads. -/
theorem tdiv_eq_ite (x k : Int) :
    x.tdiv k = if 0 ≤ x then x / k else -(-x / k) := by
  split
  · rename_i hx
    exact Int.tdiv_eq_ediv_of_nonneg hx
  · rename_i hx
    rw [← Int.tdiv_eq_ediv_of_nonneg (by omega), Int.neg_tdiv, Int.neg_neg]

theorem tmod_eq_sub (x k : Int) : x.tmod k = x - k * x.tdiv k := Int.tmod_def x k

/-- The remainders of both roundings vanish together. -/
theorem tmod_eq_zero_iff (x k : Int) : x.tmod k = 0 ↔ x % k = 0 := by
  rw [← Int.dvd_iff_tmod_eq_zero, Int.dvd_iff_emod_eq_zero]

end Qore.Lib
