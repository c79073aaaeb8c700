import Qore.Lib.Decimal
import Qore.Text.Sprintf

/-!
# `Qore.Text.Fields`: the fields of a text

Texts that are made of fields with separators between them: numbers that are printed and read again,
and fields that have none of the separators.

* `digitsNum_decimal`: the digits that `%d` prints for a number give it again.
* `Free.not_mem`: a separator is not in a field that is free of it.
-/

set_option autoImplicit false

namespace Qore.Text

open Qore.Lib.Decimal

theorem isdigit_byteOf {c : Char} (h : c.isDigit = true) :
    isdigit (byteOf c) = true ∧ (byteOf c).toNat = c.toNat := by
  obtain ⟨hlo, hhi⟩ := Char.isDigit_iff_toNat.mp h
  have hnine : '9'.toNat = 57 := rfl
  have hnat : (byteOf c).toNat = c.toNat := by
    unfold byteOf
    rw [UInt8.toNat_ofNat']
    omega
  refine ⟨?_, hnat⟩
  unfold isdigit
  rw [Bool.and_eq_true, decide_eq_true_eq, decide_eq_true_eq, UInt8.le_iff_toNat_le,
    UInt8.le_iff_toNat_le, hnat]
  exact ⟨hlo, hhi⟩

theorem isdigit_decimal {n : Nat} {b : UInt8} (h : b ∈ decimal n) : isdigit b = true := by
  obtain ⟨c, hc, rfl⟩ := List.mem_map.mp h
  exact (isdigit_byteOf (allDigits_toDigits n c hc)).1

theorem decimal_ne_nil (n : Nat) : decimal n ≠ [] := by
  unfold decimal
  rw [Ne, List.map_eq_nil_iff]
  exact Nat.toDigits_ne_nil

theorem digitsNum_map {ds : List Char} (h : AllDigits ds) (n : Nat) :
    digitsNum n (ds.map byteOf) = Nat.ofDigitChars 10 ds n := by
  induction ds generalizing n with
  | nil => rfl
  | cons d ds ih =>
    have hd := (isdigit_byteOf (h d List.mem_cons_self)).2
    have hstep : digitsNum n (byteOf d :: ds.map byteOf) =
        digitsNum (n * 10 + ((byteOf d).toNat - 48)) (ds.map byteOf) := rfl
    rw [List.map_cons, hstep, ih fun c hc => h c (List.mem_cons_of_mem d hc), hd,
      Nat.ofDigitChars_cons, Nat.mul_comm]
    rfl

/-- What is printed is read. -/
theorem digitsNum_decimal (n : Nat) : digitsNum 0 (decimal n) = n :=
  (digitsNum_map (allDigits_toDigits n) 0).trans (value_toDigits n)

/-! ### Fields without separators -/

/-- The text has none of these characters. -/
def Free (cs : String) (s : List UInt8) : Prop := ∀ c ∈ s, c ∉ ascii cs

instance (cs : String) (s : List UInt8) : Decidable (Free cs s) :=
  decidable_of_iff (s.all (fun c => !(ascii cs).contains c) = true) (by simp [Free])

theorem Free.not_mem {cs : String} {s : List UInt8} (h : Free cs s) (c : Char)
    (hc : byteOf c ∈ ascii cs) : byteOf c ∉ s :=
  fun hmem => h _ hmem hc

theorem Free.mono {cs cs' : String} {s : List UInt8} (h : Free cs s)
    (hsub : (ascii cs').all (ascii cs).contains = true) : Free cs' s :=
  fun c hc hmem => h c hc (List.contains_iff_mem.mp (List.all_eq_true.mp hsub c hmem))

theorem not_mem_decimal {c : Char} (hc : isdigit (byteOf c) = false) (n : Nat) :
    byteOf c ∉ decimal n := by
  intro h
  rw [isdigit_decimal h] at hc
  cases hc

end Qore.Text
