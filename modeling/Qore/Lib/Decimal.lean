import Mathlib.Algebra.Order.Field.Rat
import Mathlib.Data.List.DropRight
import Mathlib.Tactic.FieldSimp
import Mathlib.Tactic.Positivity

/-!
# `Qore.Lib.Decimal`: decimal digits

Numbers as they are printed and read: the value of a list of digits, a number padded with zeros to a
width, and the digits after a decimal point.

* `value_padded`: a padded number has its value.
* `trimZeros_append_left`: zeros at the end of a text are zeros of its last part.
* `fraction_trimZeros`: zeros at the end do not change a fraction.
-/

set_option autoImplicit false

namespace Qore.Lib.Decimal

/-- Every character is a digit. -/
def AllDigits (ds : List Char) : Prop := ∀ c ∈ ds, c.isDigit = true

/-- The number with these digits. -/
def value (ds : List Char) : Nat := Nat.ofDigitChars 10 ds 0

/-- The digits of `n`, with zeros in front up to a width of `w`. -/
def padded (w n : Nat) : List Char :=
  List.replicate (w - (Nat.toDigits 10 n).length) '0' ++ Nat.toDigits 10 n

/-- The number with these digits after the decimal point. -/
def fraction (ds : List Char) : ℚ := value ds / 10 ^ ds.length

/-- The digits without the zeros at the end. -/
def trimZeros (ds : List Char) : List Char := ds.rdropWhile (· == '0')

variable {ds : List Char}

theorem AllDigits.append {es : List Char} (hd : AllDigits ds) (he : AllDigits es) :
    AllDigits (ds ++ es) := by
  intro c hc
  rcases List.mem_append.mp hc with hc | hc
  · exact hd c hc
  · exact he c hc

theorem AllDigits.of_prefix {es : List Char} (h : AllDigits (ds ++ es)) : AllDigits ds :=
  fun c hc => h c (List.mem_append_left _ hc)

theorem allDigits_replicate (k : Nat) : AllDigits (List.replicate k '0') := by
  intro c hc
  rw [List.eq_of_mem_replicate hc]
  rfl

theorem allDigits_toDigits (n : Nat) : AllDigits (Nat.toDigits 10 n) :=
  fun _ hc => Nat.isDigit_of_mem_toDigits (by decide) (by decide) hc

theorem allDigits_padded (w n : Nat) : AllDigits (padded w n) :=
  (allDigits_replicate _).append (allDigits_toDigits n)

theorem padded_ne_nil (w n : Nat) : padded w n ≠ [] := by
  unfold padded
  rw [Ne, List.append_eq_nil_iff]
  exact fun h => Nat.toDigits_ne_nil h.2

/-! ### Values -/

theorem value_append (ds es : List Char) :
    value (ds ++ es) = value ds * 10 ^ es.length + value es := by
  unfold value
  rw [Nat.ofDigitChars_append, Nat.ofDigitChars_eq_ofDigitChars_zero, Nat.mul_comm]

theorem value_replicate (k : Nat) : value (List.replicate k '0') = 0 := by
  unfold value
  rw [Nat.ofDigitChars_replicate_zero, Nat.mul_zero]

theorem value_toDigits (n : Nat) : value (Nat.toDigits 10 n) = n := Nat.ofDigitChars_ten_toDigits

theorem value_padded (w n : Nat) : value (padded w n) = n := by
  unfold padded
  rw [value_append, value_replicate, value_toDigits, Nat.zero_mul, Nat.zero_add]

theorem digit_le (c : Char) (h : c.isDigit = true) : c.toNat - '0'.toNat ≤ 9 := by
  have hle : c.toNat ≤ '9'.toNat := (Char.isDigit_iff_toNat.mp h).2
  have hnine : '9'.toNat = 57 := rfl
  have hzero : '0'.toNat = 48 := rfl
  omega

theorem value_lt (h : AllDigits ds) : value ds < 10 ^ ds.length := by
  induction ds using List.reverseRecOn with
  | nil => exact Nat.one_pos
  | append_singleton ds c ih =>
    have hds := ih h.of_prefix
    have hc : c.toNat - '0'.toNat ≤ 9 := digit_le c (h c (by simp))
    have hone : value [c] = c.toNat - '0'.toNat := by
      unfold value
      rw [Nat.ofDigitChars_cons, Nat.ofDigitChars_nil, Nat.mul_zero, Nat.zero_add]
    rw [value_append, List.length_append, hone, List.length_singleton, pow_one, Nat.pow_succ]
    omega

/-! ### Widths -/

theorem length_padded_ge (w n : Nat) : w ≤ (padded w n).length := by
  unfold padded
  rw [List.length_append, List.length_replicate]
  omega

/-- A number of at most `w` digits takes the width `w`. -/
theorem length_padded {w n : Nat} (hw : 0 < w) (h : n < 10 ^ w) : (padded w n).length = w := by
  have hle := (Nat.length_toDigits_le_iff (b := 10) (by decide) hw).mpr h
  unfold padded
  rw [List.length_append, List.length_replicate]
  omega

/-- A number of at most `k` digits takes no more than a larger width `k`. -/
theorem length_padded_le {w k n : Nat} (hk : 0 < k) (hw : w ≤ k) (h : n < 10 ^ k) :
    (padded w n).length ≤ k := by
  have hle := (Nat.length_toDigits_le_iff (b := 10) (by decide) hk).mpr h
  unfold padded
  rw [List.length_append, List.length_replicate]
  omega

/-! ### Fractions -/

/-- The zeros that are trimmed. -/
theorem trimZeros_append (ds : List Char) :
    ∃ k, ds = trimZeros ds ++ List.replicate k '0' := by
  induction ds using List.reverseRecOn with
  | nil => exact ⟨0, rfl⟩
  | append_singleton ds c ih =>
    unfold trimZeros
    by_cases hc : c = '0'
    · subst hc
      obtain ⟨k, hk⟩ := ih
      refine ⟨k + 1, ?_⟩
      rw [List.rdropWhile_concat_pos _ _ _ (by rfl), List.replicate_succ', ← List.append_assoc]
      exact congrArg (· ++ ['0']) hk
    · refine ⟨0, ?_⟩
      rw [List.rdropWhile_concat_neg _ _ _ (by simpa using hc), List.replicate_zero,
        List.append_nil]

/-- Zeros are trimmed from the last part that has something else. -/
theorem trimZeros_append_left (xs : List Char) (h : trimZeros ds ≠ []) :
    trimZeros (xs ++ ds) = xs ++ trimZeros ds := by
  have hne : ¬(ds.reverse.dropWhile (· == '0')).isEmpty = true := by
    intro hempty
    apply h
    unfold trimZeros List.rdropWhile
    rw [List.isEmpty_iff.mp hempty]
    rfl
  unfold trimZeros List.rdropWhile
  rw [List.reverse_append, List.dropWhile_append, if_neg hne, List.reverse_append,
    List.reverse_reverse]

theorem trimZeros_ne_nil (h : value ds ≠ 0) : trimZeros ds ≠ [] := by
  intro hnil
  obtain ⟨k, hk⟩ := trimZeros_append ds
  rw [hnil, List.nil_append] at hk
  rw [hk, value_replicate] at h
  exact h rfl

theorem allDigits_trimZeros (h : AllDigits ds) : AllDigits (trimZeros ds) := by
  obtain ⟨k, hk⟩ := trimZeros_append ds
  rw [hk] at h
  exact h.of_prefix

theorem fraction_append_zeros (ds : List Char) (k : Nat) :
    fraction (ds ++ List.replicate k '0') = fraction ds := by
  unfold fraction
  rw [value_append, value_replicate, List.length_append, List.length_replicate, pow_add]
  push_cast
  field_simp
  rw [add_zero]

theorem fraction_trimZeros (ds : List Char) : fraction (trimZeros ds) = fraction ds := by
  obtain ⟨k, hk⟩ := trimZeros_append ds
  calc fraction (trimZeros ds) = fraction (trimZeros ds ++ List.replicate k '0') :=
        (fraction_append_zeros _ _).symm
    _ = fraction ds := by rw [← hk]

theorem fraction_nonneg (ds : List Char) : 0 ≤ fraction ds := by
  unfold fraction
  positivity

theorem fraction_lt_one (h : AllDigits ds) : fraction ds < 1 := by
  have hlt : (value ds : ℚ) < 10 ^ ds.length := by exact_mod_cast value_lt h
  unfold fraction
  rw [div_lt_one (by positivity)]
  exact hlt

end Qore.Lib.Decimal
