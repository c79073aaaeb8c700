import Qore.Slice.Range

/-!
# `Qore.Slice.RangeSpec`: what a slice `x[m..k]` selects

`rangeSpec` says what a slice is for: the elements at the positions from one bound to the other.

* `range_slice_iff`: a slice has the elements that its bounds ask for, outside of five kinds of
  slices: a list does not look at the flag for the empty range; a list of a type that refuses
  `NOTHING` cannot be read behind its end; a loop up to the largest integer does not end; in an
  empty string or binary value, bounds on both sides of its start are moved past each other; and
  the positions of a string are cut at its size in bytes.
-/

set_option autoImplicit false

namespace Qore.Slice

open Qore.Lib Qore.Lib.Span Qore.Lib.Words Qore.Text

section
variable {V α : Type} {xs : List α} {a b : Int} {m k : Option Int64} {size : Nat}

/-! ## What a slice is for -/

/-- The given bound of a half-open slice lies outside on the far side. -/
def FarSide (size : Nat) (m k : Option Int64) : Prop :=
  m = none ∧ k ≠ none ∧ upper size k < 0 ∨ k = none ∧ m ≠ none ∧ (size : Int) - 1 < lower m

instance (size : Nat) (m k : Option Int64) : Decidable (FarSide size m k) :=
  inferInstanceAs (Decidable (_ ∧ _ ∨ _ ∧ _))

/-- The elements that a slice selects. -/
def sliceSpec (xs : List α) (m k : Option Int64) : List α :=
  if FarSide xs.length m k then [] else slice xs (lower m) (upper xs.length k)

/-- The entry of a list at a position that is not negative. -/
def ListNode.entryAt (l : ListNode V) (i : Int) : Option (Option V) :=
  if i < 0 then none else some (l.getReferencedEntry i)

/-- The entries that a slice selects. -/
def ListNode.sliceSpec (l : ListNode V) (m k : Option Int64) : List (Option V) :=
  if FarSide l.entry.length m k then []
  else (span (lower m) (upper l.entry.length k)).filterMap l.entryAt

/-- The bytes of the characters that a slice selects. -/
def ValidText.sliceSpec : ValidText → Option Int64 → Option Int64 → List UInt8
  | single _ bytes, m, k => Slice.sliceSpec bytes m k
  | utf8 cs, m, k => Text.utf8 (Slice.sliceSpec cs m k)

/-- What a slice is for. -/
def rangeSpec (x : Operand V) (m k : Option Int64) : Result V :=
  match x with
  | .list l => .list (l.sliceSpec m k)
  | .string t => .string (t.sliceSpec m k)
  | .binary bytes => .binary (sliceSpec bytes m k)

/-! ## The slices that are read as they should be -/

/-- In an empty value, the bounds lie on the same side of its start or one is omitted. -/
def SameSide (size : Nat) (m k : Option Int64) : Prop :=
  size = 0 → m = none ∨ k = none ∨ (lower m < 0 ↔ upper size k < 0)

/-- The slices of lists: a given bound of a half-open slice does not lie outside on the far side,
the bounds are not both negative, the slice does not go up to the largest integer, and it does not
leave the list unless the type of the list takes `NOTHING`. -/
def ListNode.FineRange (l : ListNode V) (m k : Option Int64) : Prop :=
  ¬(m = none ∧ upper l.entry.length k < 0) ∧
  ¬(k = none ∧ (l.entry.length : Int) - 1 < lower m) ∧
  ¬(lower m < 0 ∧ upper l.entry.length k < 0) ∧
  ¬(lower m < upper l.entry.length k ∧ upper l.entry.length k = 2 ^ 63 - 1) ∧
  (l.checkVal none = some none ∨
    max (lower m) (upper l.entry.length k) < l.entry.length)

/-- The slices of strings with `size` bytes: every character has one byte, or the slice goes
upwards over more than one byte position and starts inside the string, or it goes downwards and the
characters as many places before as there are further bytes are the same. -/
def FineText (cs : List α) (size : Nat) (m k : Option Int64) : Prop :=
  SameSide cs.length m k ∧
  (size = cs.length ∨ (getEffectiveRange false size m k).nonempty = false ∨
    max (lower m) 0 < min (upper size k) (size - 1) ∧ lower m < cs.length ∨
    upper size k ≤ lower m ∧ (size : Int) - cs.length ≤ lower m ∧
      slice cs (lower m - (size - cs.length)) (upper size k - (size - cs.length)) =
        slice cs (lower m) (upper size k))

/-- The slices that are read as they should be. -/
def Operand.FineRange (x : Operand V) (m k : Option Int64) : Prop :=
  match x with
  | .list l => l.FineRange m k
  | .string (.single _ bytes) => SameSide bytes.length m k
  | .string (.utf8 cs) => FineText cs (utf8 cs).length m k
  | .binary bytes => SameSide bytes.length m k

/-! ## Effective ranges -/

/-- The range is reported as empty. -/
def OutOfRange (size : Nat) (m k : Option Int64) : Prop :=
  m = none ∧ upper size k < 0 ∨ k = none ∧ (size : Int) - 1 < lower m ∨
    lower m < upper size k ∧ ((size : Int) - 1 < lower m ∨ upper size k < 0) ∨
    upper size k ≤ lower m ∧ ((size : Int) - 1 < upper size k ∨ lower m < 0)

instance (size : Nat) (m k : Option Int64) : Decidable (OutOfRange size m k) :=
  inferInstanceAs (Decidable (_ ∧ _ ∨ _ ∧ _ ∨ _ ∧ _ ∨ _ ∧ _))

/-- Everything that `getEffectiveRange` does. -/
theorem getEffectiveRange_eq (isList : Bool) (size : Nat) (m k : Option Int64) :
    getEffectiveRange isList size m k =
      if OutOfRange size m k then ⟨false, lower m, upper size k⟩
      else if lower m < upper size k then
        ⟨true, max (lower m) 0,
          if isList then upper size k else min (upper size k) (size - 1)⟩
      else
        ⟨true, if isList then lower m else min (lower m) (size - 1), max (upper size k) 0⟩ := by
  unfold getEffectiveRange
  dsimp only
  by_cases hout : OutOfRange size m k
  · rw [if_pos hout]
    unfold OutOfRange at hout
    generalize lower m = s at hout ⊢
    generalize upper size k = e at hout ⊢
    -- every branch that is not empty contradicts the assumption
    split_ifs <;> grind
  · rw [if_neg hout]
    unfold OutOfRange at hout
    generalize lower m = s at hout ⊢
    generalize upper size k = e at hout ⊢
    split_ifs <;> grind

theorem nonempty_eq_false_iff (isList : Bool) (size : Nat) (m k : Option Int64) :
    (getEffectiveRange isList size m k).nonempty = false ↔ OutOfRange size m k := by
  rw [getEffectiveRange_eq]
  split
  · simp [*]
  · split <;> simp [*]

/-- Positions outside of a list select nothing. -/
theorem slice_eq_nil (h : xs.length = 0 ∨ a < 0 ∧ b < 0 ∨
      (xs.length : Int) - 1 < a ∧ (xs.length : Int) - 1 < b) :
    slice xs a b = [] := by
  unfold slice
  rw [List.filterMap_eq_nil_iff]
  intro i hi
  rw [mem_span] at hi
  by_cases hneg : i < 0
  · exact elemAt_of_neg xs hneg
  · exact elemAt_of_ge xs (by omega)

/-- When the range is reported as empty, no element is selected. -/
theorem OutOfRange.sliceSpec_eq_nil (hsize : xs.length ≤ size) (h : OutOfRange size m k) :
    sliceSpec xs m k = [] := by
  unfold sliceSpec
  split
  · rfl
  · rename_i hfar
    apply slice_eq_nil
    unfold FarSide at hfar
    unfold OutOfRange at h
    cases m with
    | none =>
      cases k with
      | none => simp only [lower, upper, Option.elim] at *; grind
      | some k => simp only [lower, upper, Option.elim] at *; grind
    | some m =>
      cases k with
      | none => simp only [lower, upper, Option.elim] at *; grind
      | some k => simp only [lower, upper, Option.elim] at *; grind

/-- The bounds of a selection can be moved into the list. -/
theorem slice_up (xs : List α) (h : a ≤ b) :
    slice xs a b = (up (max a 0) (min b (xs.length - 1))).filterMap (elemAt xs) := by
  unfold slice
  rw [span_of_le h]
  exact filterMap_up_clamp (fun i => elemAt_of_neg xs) (fun i => elemAt_of_ge xs) a b

theorem slice_down (xs : List α) (h : b ≤ a) :
    slice xs a b = (down (min a (xs.length - 1)) (max b 0)).filterMap (elemAt xs) := by
  unfold slice
  rw [span_of_ge h]
  exact filterMap_down_clamp (fun i => elemAt_of_neg xs) (fun i => elemAt_of_ge xs) a b

/-- In a range that is not reported as empty, an omitted upper bound can be the size in another
unit. -/
theorem sliceSpec_eq_slice (hsize : xs.length ≤ size) (hpos : xs.length ≠ 0)
    (h : ¬OutOfRange size m k) :
    sliceSpec xs m k = slice xs (lower m) (upper size k) := by
  unfold sliceSpec
  unfold OutOfRange at h
  cases k with
  | some k =>
    have hfar : ¬FarSide xs.length m (some k) := by
      rintro (⟨rfl, -, hneg⟩ | ⟨hk, -⟩)
      · exact h (.inl ⟨rfl, hneg⟩)
      · cases hk
    rw [if_neg hfar]
    rfl
  | none =>
    simp only [upper, Option.elim_none] at h ⊢
    by_cases hfar : FarSide xs.length m none
    · -- behind the elements, but not behind the size
      rw [if_pos hfar]
      have hstart : (xs.length : Int) - 1 < lower m := by
        rcases hfar with ⟨-, hk, -⟩ | ⟨-, -, hlt⟩
        · exact absurd rfl hk
        · exact hlt
      have hend : lower m ≤ (size : Int) - 1 := by
        by_contra hlt
        exact h (.inr (.inl ⟨trivial, by omega⟩))
      exact (slice_eq_nil (.inr (.inr ⟨hstart, by omega⟩))).symm
    · rw [if_neg hfar]
      have hstart : lower m ≤ (xs.length : Int) - 1 := by
        by_contra hlt
        cases m with
        | none => simp only [lower, Option.elim_none] at hlt; omega
        | some m => exact hfar (.inr ⟨rfl, by simp, by omega⟩)
      rw [slice_up xs hstart, slice_up xs (by omega)]
      congr 2
      omega

/-! ## Binary values -/

theorem OutOfRange.sameSide (h : OutOfRange size m k) : SameSide size m k := by
  intro hzero
  unfold OutOfRange at h
  cases m with
  | none => exact .inl rfl
  | some m =>
    cases k with
    | none => exact .inr (.inl rfl)
    | some k =>
      refine .inr (.inr ?_)
      simp only [reduceCtorEq, false_and, false_or] at h
      omega

theorem not_sameSide_zero (h : ¬OutOfRange 0 m k) : ¬SameSide 0 m k := by
  intro hside
  unfold OutOfRange at h
  push Not at h
  obtain ⟨hfirst, hlast, hup, hdown⟩ := h
  rcases hside rfl with rfl | rfl | hiff
  · have hpos := hfirst rfl
    simp only [lower, Option.elim_none] at hup hdown
    omega
  · have hneg := hlast rfl
    simp only [upper, Option.elim_none] at hup hdown
    omega
  · omega

/-- In an empty value the bounds have been moved past each other. -/
theorem getEffectiveRange_zero (h : ¬OutOfRange 0 m k) :
    getEffectiveRange false 0 m k = ⟨true, 0, -1⟩ ∨ getEffectiveRange false 0 m k = ⟨true, -1, 0⟩ := by
  rw [getEffectiveRange_eq, if_neg h]
  unfold OutOfRange at h
  push Not at h
  by_cases hlt : lower m < upper 0 k
  · left
    have hstart : max (lower m) 0 = 0 := by omega
    have hstop : min (upper 0 k) (((0 : Nat) : Int) - 1) = -1 := by omega
    rw [if_pos hlt, hstart, if_neg (by decide), hstop]
  · right
    have hstart : min (lower m) (((0 : Nat) : Int) - 1) = -1 := by omega
    have hstop : max (upper 0 k) 0 = 0 := by omega
    rw [if_neg hlt, if_neg (by decide), hstart, hstop]

/-- The bounds of a range that is not reported as empty, in a value that is not empty. -/
structure InRange (size : Nat) (m k : Option Int64) (r : EffectiveRange) : Prop where
  nonempty : r.nonempty = true
  start_nonneg : 0 ≤ r.start
  start_lt : r.start < size
  stop_nonneg : 0 ≤ r.stop
  stop_lt : r.stop < size
  bounds : lower m < upper size k ∧ r.start = max (lower m) 0 ∧
      r.stop = min (upper size k) (size - 1) ∧ r.start ≤ r.stop ∨
    upper size k ≤ lower m ∧ r.start = min (lower m) (size - 1) ∧
      r.stop = max (upper size k) 0 ∧ r.stop ≤ r.start

theorem getEffectiveRange_inRange (hsize : size ≠ 0) (h : ¬OutOfRange size m k) :
    InRange size m k (getEffectiveRange false size m k) := by
  rw [getEffectiveRange_eq, if_neg h]
  unfold OutOfRange at h
  push Not at h
  obtain ⟨-, -, hup, hdown⟩ := h
  by_cases hlt : lower m < upper size k
  · have hin := hup hlt
    rw [if_pos hlt, if_neg (by decide)]
    constructor <;> dsimp only <;> omega
  · have hin := hdown (by omega)
    rw [if_neg hlt, if_neg (by decide)]
    constructor <;> dsimp only <;> omega

/-- The positions between the effective bounds are those that are selected. -/
theorem InRange.slice_eq {r : EffectiveRange} (h : InRange xs.length m k r) :
    slice xs (lower m) (upper xs.length k) = slice xs r.start r.stop := by
  rcases h.bounds with ⟨hlt, ha, hb, hle⟩ | ⟨hge, ha, hb, hle⟩
  · rw [slice_up xs (Int.le_of_lt hlt), slice_up xs hle]
    congr 2 <;> omega
  · rw [slice_down xs hge, slice_down xs hle]
    congr 2 <;> omega

theorem evalBinary_iff (bytes : List UInt8) (m k : Option Int64) :
    (evalBinary bytes (getEffectiveRange false bytes.length m k) : Result V) =
      .binary (sliceSpec bytes m k) ↔ SameSide bytes.length m k := by
  by_cases hout : OutOfRange bytes.length m k
  · rw [getEffectiveRange_eq, if_pos hout, hout.sliceSpec_eq_nil (le_refl _)]
    exact iff_of_true rfl hout.sameSide
  · by_cases hzero : bytes.length = 0
    · obtain rfl := List.length_eq_zero_iff.mp hzero
      refine iff_of_false ?_ (not_sameSide_zero hout)
      have hundefined : (evalBinary [] (getEffectiveRange false 0 m k) : Result V) = .undefined := by
        rcases getEffectiveRange_zero hout with heq | heq
        · rw [heq]
          rfl
        · rw [heq]
          rfl
      rw [List.length_nil, hundefined]
      simp
    · refine iff_of_true ?_ fun h => absurd h hzero
      have hin := getEffectiveRange_inRange hzero hout
      rw [sliceSpec_eq_slice (le_refl _) hzero hout, hin.slice_eq]
      generalize getEffectiveRange false bytes.length m k = r at hin ⊢
      have hstart := hin.start_nonneg
      have hstart' := hin.start_lt
      have hstop := hin.stop_nonneg
      have hstop' := hin.stop_lt
      simp only [evalBinary, hin.nonempty, Bool.not_true, Bool.false_eq_true, if_false]
      by_cases hlt : r.start < r.stop
      · have hread : readBytes bytes r.start (r.stop - r.start + 1) =
            some (slice bytes r.start r.stop) := by
          unfold readBytes slice
          rw [if_pos (by omega), span_of_le (Int.le_of_lt hlt), filterMap_up_eq bytes hstart]
          congr 3
          omega
        rw [if_pos hlt, hread]
      · have hread : (down r.start r.stop).mapM (elemAt bytes) =
            some (slice bytes r.start r.stop) := by
          unfold slice
          rw [span_of_ge (by omega)]
          refine mapM_elemAt fun i hi => ?_
          rw [mem_down] at hi
          omega
        rw [if_neg hlt, hread]

/-! ## Strings -/

/-- What slices of strings need of an encoding: `substr` and `reverse` do for the characters what
they are for. -/
structure Spells (junk : Nat → UInt8) (e : Encoding) (enc : α → List UInt8) : Prop where
  substr_eq : ∀ (cs : List α) {o l : Int}, 0 ≤ o → 0 ≤ l →
    substr junk e (spell enc cs) o l = some (if (cs.length : Int) ≤ o then none
      else some (spell enc ((cs.drop o.toNat).take l.toNat)))
  substr_nil : ∀ l : Int, substr junk e [] (-1) l = some none
  reverse_eq : ∀ cs : List α, reverse e (spell enc cs) = spell enc cs.reverse
  length_le : ∀ cs : List α, cs.length ≤ (spell enc cs).length
  injective : Function.Injective (spell enc)

section
variable {junk : Nat → UInt8} {e : Encoding} {enc : α → List UInt8} {cs : List α} {d : Int}

theorem Spells.length_eq_zero (h : Spells junk e enc) :
    (spell enc cs).length = 0 ↔ cs.length = 0 := by
  have hle := h.length_le cs
  constructor
  · omega
  · intro hzero
    rw [List.length_eq_zero_iff.mp hzero]
    rfl

/-- A part of the string upwards. -/
theorem Spells.substr_up (h : Spells junk e enc) {a b : Int} (ha : 0 ≤ a) (hab : a ≤ b) :
    substr junk e (spell enc cs) a (b - a + 1) =
      some (if (cs.length : Int) ≤ a then none else some (spell enc (slice cs a b))) := by
  unfold slice
  rw [h.substr_eq cs ha (by omega), span_of_le hab, filterMap_up_eq cs ha]
  have hlen : b - a + 1 = b + 1 - a := by omega
  rw [hlen]

/-- A part of the reversed string; `d` is the number of further bytes. -/
theorem Spells.substr_down (h : Spells junk e enc) {a b : Int}
    (hd : ((spell enc cs).length : Int) = cs.length + d) (ha : a < (spell enc cs).length)
    (hab : b ≤ a) :
    substr junk e (reverse e (spell enc cs)) ((spell enc cs).length - a - 1) (a - b + 1) =
      some (if a < d then none else some (spell enc (slice cs (a - d) (b - d)))) := by
  have ho : 0 ≤ ((spell enc cs).length : Int) - a - 1 := by omega
  rw [h.reverse_eq, h.substr_eq cs.reverse ho (by omega), List.length_reverse]
  by_cases hbefore : a < d
  · rw [if_pos hbefore, if_pos (by omega)]
  · rw [if_neg hbefore, if_neg (by omega)]
    unfold slice
    -- counted from the other end, the positions go downwards
    have hup := filterMap_up_eq cs.reverse ho (((spell enc cs).length : Int) - b - 1)
    rw [filterMap_up_reverse] at hup
    have hfirst : (cs.length : Int) - 1 - (((spell enc cs).length : Int) - a - 1) = a - d := by omega
    have hlast : (cs.length : Int) - 1 - (((spell enc cs).length : Int) - b - 1) = b - d := by omega
    have hlen : ((spell enc cs).length : Int) - b - 1 + 1 - (((spell enc cs).length : Int) - a - 1) =
        a - b + 1 := by omega
    rw [hfirst, hlast, hlen] at hup
    rw [span_of_ge (by omega), hup]

theorem Spells.ofSubstr_eq_iff (h : Spells junk e enc) (p : Prop) [Decidable p] (xs ys : List α) :
    (Result.ofSubstr (some (if p then none else some (spell enc xs))) : Result V) =
      .string (spell enc ys) ↔ ¬p ∧ xs = ys := by
  by_cases hp : p
  · simp [hp, Result.ofSubstr]
  · simp only [hp, if_false, Result.ofSubstr, Result.string.injEq, not_false_eq_true, true_and]
    exact h.injective.eq_iff

/-- A slice of a string with the bounds that are left. -/
theorem Spells.evalString_iff_slice (h : Spells junk e enc) {m k : Option Int64}
    (hd : ((spell enc cs).length : Int) = cs.length + d) {r : EffectiveRange}
    (hin : InRange (spell enc cs).length m k r) (ys : List α) :
    (evalString junk e (spell enc cs) r : Result V) = .string (spell enc ys) ↔
      if r.start < r.stop then r.start < cs.length ∧ slice cs r.start r.stop = ys
      else d ≤ r.start ∧ slice cs (r.start - d) (r.stop - d) = ys := by
  simp only [evalString, hin.nonempty, Bool.not_true, Bool.false_eq_true, if_false]
  by_cases hlt : r.start < r.stop
  · rw [if_pos hlt, if_pos hlt, h.substr_up hin.start_nonneg (Int.le_of_lt hlt), h.ofSubstr_eq_iff,
      Int.not_le]
  · rw [if_neg hlt, if_neg hlt, h.substr_down hd hin.start_lt (by omega), h.ofSubstr_eq_iff,
      Int.not_lt]

/-- The bounds that are left select what the given bounds ask for; `d` is the number of further
bytes. -/
theorem InRange.fineText_iff {size : Nat} {m k : Option Int64} {r : EffectiveRange}
    (hin : InRange size m k r) (hout : ¬OutOfRange size m k) (hnonneg : 0 ≤ d)
    (hd : (size : Int) = cs.length + d) (hzero : cs.length ≠ 0) :
    (if r.start < r.stop then
        r.start < cs.length ∧ slice cs r.start r.stop = slice cs (lower m) (upper size k)
      else
        d ≤ r.start ∧ slice cs (r.start - d) (r.stop - d) = slice cs (lower m) (upper size k)) ↔
      FineText cs size m k := by
  have hshift : (size : Int) - cs.length = d := by omega
  have hside : SameSide cs.length m k := fun h => absurd h hzero
  have hflag : (getEffectiveRange false size m k).nonempty = true := by
    simpa using mt (nonempty_eq_false_iff false size m k).mp hout
  have hsame : size = cs.length ↔ d = 0 := by omega
  unfold FineText
  rw [hshift, hsame]
  simp only [hside, hflag, true_and, Bool.true_eq_false, false_or]
  have hstart := hin.start_nonneg
  have hstart' := hin.start_lt
  rcases hin.bounds with ⟨hlt, ha, hb, hle⟩ | ⟨hge, ha, hb, hle⟩
  · have hslice : slice cs r.start r.stop = slice cs (lower m) (upper size k) := by
      rw [slice_up cs (Int.le_of_lt hlt), slice_up cs hle]
      congr 2 <;> omega
    by_cases hup : r.start < r.stop
    · -- upwards, over more than one position
      rw [if_pos hup]
      simp only [hslice, and_true]
      omega
    · -- upwards, but one position is left: it is read downwards
      rw [if_neg hup, ← hslice]
      constructor
      · rintro ⟨hbefore, heq⟩
        by_contra hnone
        have hnil : slice cs r.start r.stop = [] :=
          slice_eq_nil (.inr (.inr ⟨by omega, by omega⟩))
        rw [hnil] at heq
        have hlen := congrArg List.length heq
        rw [slice_down cs (by omega), filterMap_down_eq cs _ (by omega)] at hlen
        simp only [List.length_reverse, List.length_take, List.length_drop, List.length_nil] at hlen
        omega
      · rintro (rfl | h | h)
        · rw [Int.sub_zero, Int.sub_zero]
          exact ⟨hstart, rfl⟩
        · omega
        · omega
  · have hshifted : slice cs (r.start - d) (r.stop - d) =
        slice cs (lower m - d) (upper size k - d) := by
      rw [slice_down cs (by omega), slice_down cs (by omega)]
      congr 2 <;> omega
    rw [if_neg (by omega), hshifted]
    constructor
    · rintro ⟨hbefore, heq⟩
      exact .inr (.inr ⟨hge, by omega, heq⟩)
    · rintro (rfl | h | ⟨-, hbefore, heq⟩)
      · rw [Int.sub_zero, Int.sub_zero]
        exact ⟨hstart, rfl⟩
      · omega
      · exact ⟨by omega, heq⟩

theorem Spells.evalString_iff (h : Spells junk e enc) (m k : Option Int64) :
    (evalString junk e (spell enc cs) (getEffectiveRange false (spell enc cs).length m k) :
      Result V) = .string (spell enc (sliceSpec cs m k)) ↔
        FineText cs (spell enc cs).length m k := by
  have hle := h.length_le cs
  by_cases hout : OutOfRange (spell enc cs).length m k
  · -- nothing is selected
    have hside : SameSide cs.length m k := by
      intro hzero
      rw [h.length_eq_zero.mpr hzero] at hout
      rw [hzero]
      exact hout.sameSide rfl
    rw [hout.sliceSpec_eq_nil hle]
    have hflag := (nonempty_eq_false_iff false _ m k).mpr hout
    refine iff_of_true ?_ ⟨hside, .inr (.inl hflag)⟩
    rw [evalString, hflag]
    rfl
  · by_cases hzero : cs.length = 0
    · obtain rfl := List.length_eq_zero_iff.mp hzero
      refine iff_of_false ?_ fun hfine => not_sameSide_zero hout hfine.1
      have hnothing : (evalString junk e [] (getEffectiveRange false 0 m k) : Result V) =
          .nothing := by
        have hrev : reverse e [] = [] := h.reverse_eq []
        rcases getEffectiveRange_zero hout with heq | heq
        · rw [heq]
          simp only [evalString, Bool.not_true, Bool.false_eq_true, if_false, hrev]
          exact congrArg Result.ofSubstr (h.substr_nil _)
        · rw [heq]
          exact congrArg Result.ofSubstr (h.substr_nil _)
      rw [spell_nil, List.length_nil, hnothing]
      simp
    · have hsize : (spell enc cs).length ≠ 0 := by omega
      have hin := getEffectiveRange_inRange hsize hout
      obtain ⟨d, hd⟩ : ∃ d : Int, ((spell enc cs).length : Int) = cs.length + d :=
        ⟨(spell enc cs).length - cs.length, by omega⟩
      rw [h.evalString_iff_slice hd hin, sliceSpec_eq_slice hle hzero hout]
      exact hin.fineText_iff hout (by omega) hd hzero

end

/-! ## The two kinds of strings -/

theorem returned_map_text {M : Memory UInt8} {e : Option (Str UInt8)} {ys : Option (List UInt8)}
    (h : Returned M e ys) : e.map Str.text = ys := by
  cases e with
  | none =>
    cases ys with
    | none => rfl
    | some y => exact h.elim
  | some e =>
    cases ys with
    | none => exact h.elim
    | some y => exact congrArg some (Holds.fills h).text_eq

theorem subStart_of_nonneg (clen : Int) (len : Nat) {o : Int} (ho : 0 ≤ o) :
    subStart clen len o = if (len : Int) ≤ o then none else some o.toNat :=
  if_neg (by omega)

theorem select_of_nonneg (cs : List α) {l : Int} (hl : 0 ≤ l) (k : Nat) :
    select cs l k = (cs.drop k).take l.toNat := by
  unfold select
  rw [if_neg (by omega)]

theorem spell_single (bytes : List UInt8) : spell (fun b => [b]) bytes = bytes := by
  induction bytes with
  | nil => rfl
  | cons b bytes ih => rw [spell_cons, ih]; rfl

/-- Encodings with one byte for each character. -/
theorem spells_single (junk : Nat → UInt8) (convert : UInt8 → Nat) :
    Spells junk (.single convert) fun b => [b] where
  substr_eq := by
    intro cs o l ho hl
    rw [spell_single, spell_single]
    obtain ⟨e, he, hret⟩ := substrSimpleLen_returned (source_holds (byteMemory junk) cs)
      (show -2 ^ 63 ≤ o by omega) l
    have htext := returned_map_text hret
    rw [subStart_of_nonneg _ _ ho] at htext
    show (Str.substrSimpleLen _ _ o l).map _ = _
    rw [he, Option.map_some, htext]
    split
    · rfl
    · rw [Option.map_some, select_of_nonneg cs hl]
  substr_nil := by
    intro l
    rfl
  reverse_eq := by
    intro cs
    rw [spell_single, spell_single]
    rfl
  length_le := by
    intro cs
    rw [spell_single]
  injective := by
    intro cs ds heq
    rwa [spell_single, spell_single] at heq

/-- `strncpy` copies a character: only the character zero has a zero in it. -/
theorem strncpy_utf8 (c : Char) (rest : List UInt8) :
    strncpy (String.utf8EncodeChar c ++ rest) (String.utf8EncodeChar c).length =
      String.utf8EncodeChar c := by
  unfold strncpy
  rw [List.take_left]
  by_cases hzero : c = '\x00'
  · subst hzero
    decide
  · have hall : (String.utf8EncodeChar c).takeWhile (· ≠ 0) = String.utf8EncodeChar c := by
      rw [List.takeWhile_eq_self_iff]
      intro b hb
      have hne : b ≠ 0 := fun h => hzero ((zero_mem_utf8EncodeChar c).mp (h ▸ hb))
      simpa using hne
    rw [hall]
    simp

theorem reverseLoop_utf8 (cs : List Char) (fuel : Nat) (hfuel : cs.length ≤ fuel) :
    reverseLoop charLen fuel (utf8 cs) = utf8 cs.reverse := by
  induction cs generalizing fuel with
  | nil =>
    cases fuel with
    | zero => rfl
    | succ fuel => rfl
  | cons c cs ih =>
    obtain ⟨fuel, rfl⟩ : ∃ n, fuel = n + 1 := ⟨fuel - 1, by simp at hfuel; omega⟩
    have hpos := (utf8_scans c).pos
    have hne : utf8 (c :: cs) ≠ [] := by
      intro h
      have hempty : String.utf8EncodeChar c = [] := (List.append_eq_nil_iff.mp h).1
      rw [hempty] at hpos
      exact absurd hpos (by decide)
    -- the first character is copied behind the others
    have hfirst : lettersOf charLen (utf8 (c :: cs)) 1 = ((String.utf8EncodeChar c).length, false) := by
      have hspell := lettersOf_spell utf8_scans (c :: cs) 1
      rw [utf8, hspell]
      simp
    rw [reverseLoop, if_neg hne, hfirst]
    simp only [Bool.false_eq_true, if_false]
    have hsplit : utf8 (c :: cs) = String.utf8EncodeChar c ++ utf8 cs := rfl
    rw [hsplit, List.drop_left, strncpy_utf8, ih fuel (by simp at hfuel; omega)]
    simp [utf8]

/-- UTF-8. -/
theorem spells_utf8 (junk : Nat → UInt8) : Spells junk .utf8 String.utf8EncodeChar where
  substr_eq := by
    intro cs o l ho hl
    obtain ⟨e, he, hret⟩ := substrComplexLen_returned utf8_scans
      (source_holds (byteMemory junk) (spell String.utf8EncodeChar cs)) o l
    have htext := returned_map_text hret
    rw [subStart_of_nonneg _ _ ho] at htext
    show (Str.substrComplexLen _ charLen _ o l).map _ = _
    rw [he, Option.map_some, htext]
    split
    · rfl
    · rw [Option.map_some, Option.map_some, select_of_nonneg cs hl]
  substr_nil := by
    intro l
    have hnil : Holds (byteMemory junk) (source (byteMemory junk) [])
        (spell String.utf8EncodeChar []) := source_holds (byteMemory junk) []
    obtain ⟨e, he, hret⟩ := substrComplexLen_returned utf8_scans hnil (-1) l
    have htext := returned_map_text hret
    show (Str.substrComplexLen _ charLen _ (-1) l).map _ = _
    rw [he, Option.map_some, htext]
    rfl
  reverse_eq := fun cs => reverseLoop_utf8 cs _ (length_le_spell utf8_scans cs)
  length_le := length_le_spell utf8_scans
  injective := spell_injective utf8_scans utf8EncodeChar_injective

/-! ## Lists -/

theorem mapM_eq_self_iff {f : α → Option α} (xs : List α) :
    xs.mapM f = some xs ↔ ∀ x ∈ xs, f x = some x := by
  induction xs with
  | nil => simp
  | cons x xs ih =>
    rw [List.mapM_cons, List.forall_mem_cons, ← ih]
    cases hx : f x with
    | none => simp
    | some y => cases hxs : xs.mapM f with
      | none => simp
      | some ys => simp

theorem length_of_mapM {f : α → Option α} {ys : List α} (h : xs.mapM f = some ys) :
    ys.length = xs.length := by
  induction xs generalizing ys with
  | nil =>
    cases h
    rfl
  | cons x xs ih =>
    rw [List.mapM_cons] at h
    cases hx : f x with
    | none => simp [hx] at h
    | some y =>
      cases hxs : xs.mapM f with
      | none => simp [hx, hxs] at h
      | some zs =>
        simp only [hx, hxs, Option.bind_eq_bind, Option.bind_some, Option.pure_def,
          Option.some.injEq] at h
        rw [← h, List.length_cons, List.length_cons, ih hxs]

section
variable (l : ListNode V) {m k : Option Int64}

theorem ListNode.getReferencedEntry_outside {i : Int} (h : i < 0 ∨ (l.entry.length : Int) ≤ i) :
    l.getReferencedEntry i = none := by
  unfold ListNode.getReferencedEntry
  rcases h with h | h
  · rw [elemAt_of_neg _ h]
    rfl
  · rw [elemAt_of_ge _ (by omega)]
    rfl

theorem ListNode.getReferencedEntry_mem {i : Int} (h : 0 ≤ i) (h' : i < l.entry.length) :
    l.getReferencedEntry i ∈ l.entry := by
  have hget : l.getReferencedEntry i = l.entry.get ⟨i.toNat, by omega⟩ := by
    unfold ListNode.getReferencedEntry elemAt
    rw [if_neg (by omega), List.getElem?_eq_getElem (by omega)]
    rfl
  rw [hget]
  exact List.get_mem ..

/-- The entries at some positions pass the check of the list if they are entries, or if `NOTHING`
does. -/
theorem ListNode.push_iff (ps : List Int) :
    (ps.map l.getReferencedEntry).mapM l.checkVal = some (ps.map l.getReferencedEntry) ↔
      l.checkVal none = some none ∨ ∀ i ∈ ps, 0 ≤ i ∧ i < l.entry.length := by
  rw [mapM_eq_self_iff]
  constructor
  · intro h
    by_contra hnot
    push Not at hnot
    obtain ⟨hnone, i, hi, hout⟩ := hnot
    have hentry := l.getReferencedEntry_outside (i := i) (by omega)
    apply hnone
    rw [← hentry]
    exact h _ (List.mem_map_of_mem hi)
  · rintro h v hv
    obtain ⟨i, hi, rfl⟩ := List.mem_map.mp hv
    by_cases hin : 0 ≤ i ∧ i < l.entry.length
    · exact l.checked _ (l.getReferencedEntry_mem hin.1 hin.2)
    · rcases h with h | h
      · rw [l.getReferencedEntry_outside (by omega)]
        exact h
      · exact absurd (h i hi) hin

theorem loopPositions_eq_some {start stop : Int} {ps : List Int}
    (h : loopPositions start stop = some ps) : ps = span start stop := by
  unfold loopPositions at h
  split at h
  · split at h
    · cases h
    · rw [span_of_le (by omega)]
      exact (Option.some.inj h).symm
  · split at h
    · cases h
    · rw [span_of_ge (by omega)]
      exact (Option.some.inj h).symm

/-- A list has as many entries as there are positions. -/
theorem ListNode.length_of_evalRange {r : EffectiveRange} {entry : List (Option V)}
    (h : l.evalRange r = .list entry) : entry.length = (r.stop - r.start).natAbs + 1 := by
  unfold ListNode.evalRange at h
  split at h
  · cases h
  · rename_i ps hps
    split at h
    · cases h
    · rename_i es hes
      cases h
      rw [length_of_mapM hes, List.length_map, loopPositions_eq_some hps, length_span]

/-- The entries between the bounds that are left. -/
theorem ListNode.evalRange_iff {r : EffectiveRange} (hstop : r.stop ≠ -2 ^ 63) :
    l.evalRange r = .list ((span r.start r.stop).map l.getReferencedEntry) ↔
      ¬(r.start < r.stop ∧ r.stop = 2 ^ 63 - 1) ∧
        (l.checkVal none = some none ∨ ∀ i ∈ span r.start r.stop, 0 ≤ i ∧ i < l.entry.length) := by
  unfold ListNode.evalRange
  cases hps : loopPositions r.start r.stop with
  | none =>
    have hover : r.start < r.stop ∧ r.stop = 2 ^ 63 - 1 := by
      unfold loopPositions at hps
      split at hps
      · split at hps
        · rename_i hlt heq
          exact ⟨hlt, heq⟩
        · cases hps
      · cases hps
    exact iff_of_false (by simp) fun h => h.1 hover
  | some ps =>
    have hover : ¬(r.start < r.stop ∧ r.stop = 2 ^ 63 - 1) := by
      rintro ⟨hlt, heq⟩
      rw [loopPositions, if_pos hlt, if_pos heq] at hps
      cases hps
    obtain rfl := loopPositions_eq_some hps
    rw [← l.push_iff]
    simp only [hover, not_false_eq_true, true_and]
    cases (List.map l.getReferencedEntry (span r.start r.stop)).mapM l.checkVal with
    | none => simp
    | some es => simp

/-- Negative positions are left out. -/
theorem ListNode.filterMap_up_entryAt {a b : Int} (hb : 0 ≤ b) :
    (up a b).filterMap l.entryAt = (up (max a 0) b).map l.getReferencedEntry := by
  have hpos : ∀ c : Int, 0 ≤ c →
      (up c b).filterMap l.entryAt = (up c b).map l.getReferencedEntry := by
    intro c hc
    rw [← List.filterMap_eq_map]
    refine List.filterMap_congr fun i hi => ?_
    rw [mem_up] at hi
    exact if_neg (by omega)
  by_cases hneg : a < 0
  · have hsplit : up a b = up a (0 - 1) ++ up 0 b := up_append (by omega) (by omega)
    have hbefore : (up a (0 - 1)).filterMap l.entryAt = [] :=
      filterMap_up_nil fun i _ hi => if_pos (by omega)
    have hmax : max a 0 = 0 := by omega
    rw [hsplit, List.filterMap_append, hbefore, List.nil_append, hmax]
    exact hpos 0 (by omega)
  · have hmax : max a 0 = a := by omega
    rw [hmax]
    exact hpos a (by omega)

theorem ListNode.filterMap_span_entryAt {a b : Int} (h : 0 ≤ max a b) :
    (span a b).filterMap l.entryAt =
      (if a < b then span (max a 0) b else span a (max b 0)).map l.getReferencedEntry := by
  by_cases hlt : a < b
  · rw [if_pos hlt, span_of_le (by omega), span_of_le (by omega)]
    exact l.filterMap_up_entryAt (by omega)
  · rw [if_neg hlt, span_of_ge (by omega), span_of_ge (by omega), filterMap_down,
      l.filterMap_up_entryAt (by omega), down_eq_reverse, List.map_reverse]

/-- The positions of a range that is not reported as empty. -/
theorem ListNode.sliceSpec_of_inRange (hout : ¬OutOfRange l.entry.length m k) : l.sliceSpec m k =
      (span (getEffectiveRange true l.entry.length m k).start
        (getEffectiveRange true l.entry.length m k).stop).map l.getReferencedEntry := by
  have hfar : ¬FarSide l.entry.length m k := by
    rintro (⟨hm, -, hneg⟩ | ⟨hk, -, hlt⟩)
    · exact hout (.inl ⟨hm, hneg⟩)
    · exact hout (.inr (.inl ⟨hk, hlt⟩))
  unfold ListNode.sliceSpec
  rw [if_neg hfar, getEffectiveRange_eq, if_neg hout]
  unfold OutOfRange at hout
  rw [l.filterMap_span_entryAt (by omega)]
  by_cases hlt : lower m < upper l.entry.length k
  · simp only [hlt, if_true]
  · simp only [hlt, if_false, if_true]

/-- The slices for which a list would have to look at the flag. -/
def NeedsFlag (size : Nat) (m k : Option Int64) : Prop :=
  m = none ∧ upper size k < 0 ∨ k = none ∧ (size : Int) - 1 < lower m ∨
    lower m < 0 ∧ upper size k < 0

/-- Where the flag would be needed, fewer entries are selected than there are positions. -/
theorem ListNode.length_sliceSpec_lt (h : NeedsFlag l.entry.length m k) :
    (l.sliceSpec m k).length < (upper l.entry.length k - lower m).natAbs + 1 := by
  unfold ListNode.sliceSpec
  split
  · simp
  · rename_i hfar
    rcases h with ⟨rfl, hneg⟩ | ⟨rfl, hlt⟩ | ⟨hs, he⟩
    · cases k with
      | some k => exact absurd (.inl ⟨rfl, by simp, hneg⟩) hfar
      | none =>
        have hone := l.filterMap_span_entryAt (a := lower none) (b := upper l.entry.length none)
          (by show 0 ≤ max 0 _; omega)
        have hzero : lower none = 0 := rfl
        rw [hone, hzero, if_neg (by omega), List.length_map, length_span]
        omega
    · cases m with
      | some m => exact absurd (.inr ⟨rfl, by simp, hlt⟩) hfar
      | none =>
        have hone := l.filterMap_span_entryAt (a := lower none) (b := upper l.entry.length none)
          (by show 0 ≤ max 0 _; omega)
        have hzero : lower none = 0 := rfl
        have hend : upper l.entry.length none = (l.entry.length : Int) - 1 := rfl
        rw [hone, hzero, if_neg (by omega), List.length_map, length_span]
        omega
    · have hnil : (span (lower m) (upper l.entry.length k)).filterMap l.entryAt = [] := by
        rw [List.filterMap_eq_nil_iff]
        intro i hi
        rw [mem_span] at hi
        exact if_pos (by omega)
      rw [hnil]
      simp

/-- Positions behind the list are `NOTHING`. -/
theorem ListNode.sliceSpec_behind (h : OutOfRange l.entry.length m k)
    (hflag : ¬NeedsFlag l.entry.length m k) :
    (l.entry.length : Int) ≤ lower m ∧ (l.entry.length : Int) ≤ upper l.entry.length k ∧
      l.sliceSpec m k = (span (lower m) (upper l.entry.length k)).map l.getReferencedEntry := by
  unfold NeedsFlag at hflag
  push Not at hflag
  obtain ⟨h1, h2, h3⟩ := hflag
  have hbehind : (l.entry.length : Int) ≤ lower m ∧
      (l.entry.length : Int) ≤ upper l.entry.length k := by
    rcases h with ⟨hm, hneg⟩ | ⟨hk, hlt⟩ | h | h
    · exact absurd hneg (by have := h1 hm; omega)
    · exact absurd hlt (by have := h2 hk; omega)
    · omega
    · omega
  refine ⟨hbehind.1, hbehind.2, ?_⟩
  unfold ListNode.sliceSpec
  have hfar : ¬FarSide l.entry.length m k := by
    rintro (⟨hm, -, hneg⟩ | ⟨hk, -, hlt⟩)
    · have := h1 hm
      omega
    · have := h2 hk
      omega
  rw [if_neg hfar, ← List.filterMap_eq_map]
  refine List.filterMap_congr fun i hi => ?_
  rw [mem_span] at hi
  exact if_neg (by omega)

/-- The bounds of the loop of a range that is not reported as empty. -/
theorem loop_bounds {size : Nat} (hout : ¬OutOfRange size m k) :
    (getEffectiveRange true size m k).stop ≠ -2 ^ 63 ∧
      ((getEffectiveRange true size m k).start < (getEffectiveRange true size m k).stop ∧
        (getEffectiveRange true size m k).stop = 2 ^ 63 - 1 ↔
          lower m < upper size k ∧ upper size k = 2 ^ 63 - 1) ∧
      ((∀ i ∈ span (getEffectiveRange true size m k).start (getEffectiveRange true size m k).stop,
        0 ≤ i ∧ i < size) ↔ max (lower m) (upper size k) < size) := by
  rw [getEffectiveRange_eq, if_neg hout]
  unfold OutOfRange at hout
  have hinside : ∀ a b : Int, 0 ≤ a → 0 ≤ b → max a b = max (lower m) (upper size k) →
      ((∀ i ∈ span a b, 0 ≤ i ∧ i < size) ↔ max (lower m) (upper size k) < size) := by
    intro a b ha hb hmax
    constructor
    · intro h
      have hfirst := h a (by rw [mem_span]; omega)
      have hlast := h b (by rw [mem_span]; omega)
      omega
    · intro h i hi
      rw [mem_span] at hi
      omega
  by_cases hlt : lower m < upper size k
  · rw [if_pos hlt]
    simp only [↓reduceIte]
    exact ⟨by omega, by omega, hinside _ _ (by omega) (by omega) (by omega)⟩
  · rw [if_neg hlt]
    simp only [↓reduceIte]
    exact ⟨by omega, by omega, hinside _ _ (by omega) (by omega) (by omega)⟩

theorem ListNode.evalRange_iff_fine (m k : Option Int64) :
    l.evalRange (getEffectiveRange true l.entry.length m k) = .list (l.sliceSpec m k) ↔
      l.FineRange m k := by
  have hfine : l.FineRange m k ↔ ¬NeedsFlag l.entry.length m k ∧
      ¬(lower m < upper l.entry.length k ∧ upper l.entry.length k = 2 ^ 63 - 1) ∧
      (l.checkVal none = some none ∨
        max (lower m) (upper l.entry.length k) < l.entry.length) := by
    unfold ListNode.FineRange NeedsFlag
    tauto
  rw [hfine]
  by_cases hout : OutOfRange l.entry.length m k
  · -- the flag is not looked at, so the given bounds are those of the loop
    rw [getEffectiveRange_eq, if_pos hout]
    by_cases hflag : NeedsFlag l.entry.length m k
    · refine iff_of_false ?_ fun h => h.1 hflag
      intro heq
      have hlen := l.length_of_evalRange heq
      exact absurd hlen (by have := l.length_sliceSpec_lt hflag; dsimp only; omega)
    · obtain ⟨hs, he, hspec⟩ := l.sliceSpec_behind hout hflag
      have hpos : ¬∀ i ∈ span (lower m) (upper l.entry.length k), 0 ≤ i ∧ i < l.entry.length := by
        intro h
        have := h (lower m) (by rw [mem_span]; omega)
        omega
      rw [hspec, l.evalRange_iff (by dsimp only; omega)]
      simp only [hflag, not_false_eq_true, true_and, hpos, or_false,
        show ¬max (lower m) (upper l.entry.length k) < l.entry.length by omega]
  · have hflag : ¬NeedsFlag l.entry.length m k := by
      rintro (hm | hk | hneg)
      · exact hout (.inl hm)
      · exact hout (.inr (.inl hk))
      · exact hout (.inr (.inr (by omega)))
    obtain ⟨hstop, hover, hinside⟩ := loop_bounds hout
    rw [l.sliceSpec_of_inRange hout, l.evalRange_iff hstop, hover, hinside]
    simp only [hflag, not_false_eq_true, true_and]

end

/-! ## The result -/

theorem evalText_iff (junk : Nat → UInt8) (t : ValidText) (m k : Option Int64) :
    evalImpl junk (.string t : Operand V) m k = rangeSpec (.string t) m k ↔
      (Operand.string t : Operand V).FineRange m k := by
  cases t with
  | single convert bytes =>
    have hspells := @Spells.evalString_iff V _ junk _ _ bytes (spells_single junk convert) m k
    simp only [spell_single] at hspells
    refine hspells.trans ⟨fun h => h.1, fun h => ⟨h, .inl rfl⟩⟩
  | utf8 cs => exact (spells_utf8 junk).evalString_iff m k

/-- A slice has the elements that its bounds ask for exactly when it is one of `FineRange`. -/
theorem range_slice_iff (junk : Nat → UInt8) (x : Operand V) (m k : Option Int64) :
    evalImpl junk x m k = rangeSpec x m k ↔ x.FineRange m k := by
  cases x with
  | list l => exact l.evalRange_iff_fine m k
  | binary bytes => exact evalBinary_iff bytes m k
  | string t => exact evalText_iff junk t m k

/-- A list of any type. -/
def autoList (entry : List (Option Nat)) (h : entry.length < 2 ^ 63) : ListNode Nat :=
  ⟨entry, some, fun _ _ => rfl, h⟩

/-- A list of integers, which refuses `NOTHING`. -/
def intList (entry : List Nat) (h : entry.length < 2 ^ 63) : ListNode Nat :=
  ⟨entry.map some, fun v => v.map some, by simp, by simpa using h⟩

/-- The list `(1, 2)` cut with `[..-2]` is not empty, a list of integers cut behind its end raises
an exception, and the string `äb` cut with `[0..0]` is `NOTHING`. -/
theorem range_slice_not_spec :
    evalImpl (fun _ => 0) (.list (autoList [some 1, some 2] (by decide))) none (some (-2)) ≠
      rangeSpec (.list (autoList [some 1, some 2] (by decide))) none (some (-2)) ∧
    evalImpl (fun _ => 0) (.list (intList [1, 2] (by decide))) (some 0) (some 2) ≠
      rangeSpec (.list (intList [1, 2] (by decide))) (some 0) (some 2) ∧
    evalImpl (fun _ => 0) (.string (.utf8 ['ä', 'b']) : Operand Nat) (some 0) (some 0) ≠
      rangeSpec (.string (.utf8 ['ä', 'b']) : Operand Nat) (some 0) (some 0) := by
  decide

end

end Qore.Slice
