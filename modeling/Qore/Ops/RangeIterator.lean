import Qore.Lib.Drain
import Qore.Slice.Lazy

/-!
# `Qore.Ops.RangeIterator`: ranges of integers

A `RangeIterator` counts its positions and computes the value of each from the first one. All of it
is `int64` arithmetic that wraps around, and so is the adjustment of the bound: the range operator
moves it by one, since the bound of the iterator is exclusive, unless the option `PO_BROKEN_RANGE`
makes the iterator do so.

* `range_yields_iff`: an iterator gives the values in front of the bound exactly when the first value
  that is not in front of it is an `int64`, and the operator gives the integers between its bounds
  exactly when the last one is not the limit of `int64`.
* `rangeOperator_yields_rangeEval`: the operator gives the values with which `Qore.Slice` evaluates a
  range.
-/

set_option autoImplicit false

namespace Qore.Ops

open Qore.Lib Qore.Lib.Span
open Qore.Slice (rangeEval rangeIterator drains_first drains_rangeEval wrap64)

/-- What raises an exception. -/
inductive RangeError
  | step (step : Int64)
  | invalidIterator
  deriving DecidableEq, Repr

/-- `RangeIterator`; `val` is what it returns in place of the integers. -/
structure RangeIterator (V : Type) where
  start : Int64
  stop : Int64
  step : Int64
  position : Int64
  increasing : Bool
  valid : Bool
  val : Option V

namespace RangeIterator
variable {V : Type}

/-- The members that the constructor sets; `broken` is the option `PO_BROKEN_RANGE`. -/
def init (broken : Bool) (start stop step : Int64) (v : Option V) : RangeIterator V where
  start := start
  stop := if broken then (if start < stop then stop + 1 else stop - 1) else stop
  step := step
  position := -1
  increasing := start < stop
  valid := false
  val := if 0 ≤ step then v else none

/-- The constructor. -/
def new (broken : Bool) (start stop step : Int64) (v : Option V) :
    Except RangeError (RangeIterator V) :=
  if step < 1 then .error (.step step) else .ok (init broken start stop step v)

def calculateCurrent (it : RangeIterator V) : Int64 :=
  if it.increasing then it.start + it.position * it.step else it.start - it.position * it.step

/-- The comparison of `next`. -/
def inRange (it : RangeIterator V) : Bool :=
  if it.increasing then it.calculateCurrent < it.stop else it.calculateCurrent > it.stop

def next (it : RangeIterator V) : Bool × RangeIterator V :=
  let it := { it with position := it.position + 1 }
  if it.inRange then (true, { it with valid := true })
  else (false, { it with valid := false, position := -1 })

def getValue (it : RangeIterator V) : Except RangeError (Int64 ⊕ V) :=
  if !it.valid then .error .invalidIterator
  else
    match it.val with
    | some v => .ok (.inr v)
    | none => .ok (.inl it.calculateCurrent)

/-- A call of `next`, and of `getValue` when it returns true. -/
def advance (it : RangeIterator V) : Option (Except RangeError (Int64 ⊕ V) × RangeIterator V) :=
  match it.next with
  | (true, it) => some (it.getValue, it)
  | (false, _) => none

/-- The iterator ends after it has returned the integers. -/
def Yields (it : RangeIterator V) (is : List Int) : Prop :=
  ∃ vs : List Int64, Drains advance it (vs.map fun i => .ok (.inl i)) ∧ vs.map Int64.toInt = is

end RangeIterator

/-- `QoreRangeOperatorNode::getFunctionalIteratorImpl`. -/
def rangeOperator (broken : Bool) (start stop : Int64) : RangeIterator Unit :=
  .init broken start
    (if broken then stop else if start ≤ stop then stop + 1 else stop - 1) 1 none

/-! ### What the values are to be -/

/-- The bound of an iterator: with `PO_BROKEN_RANGE` it is itself in the range. -/
def bound (broken : Bool) (start stop : Int) : Int :=
  if broken then (if start < stop then stop + 1 else stop - 1) else stop

/-- The value at a position, upwards or downwards. -/
def nth (up : Bool) (start step : Int) (k : Nat) : Int :=
  if up then start + k * step else start - k * step

/-- The value is in front of the bound. -/
def InFront (up : Bool) (bound v : Int) : Prop := if up then v < bound else v > bound

instance (up : Bool) (bound v : Int) : Decidable (InFront up bound v) := by
  unfold InFront
  infer_instance

/-- The iterator returns the values from the first one on as long as they are in front of the
bound. -/
def YieldsRange {V : Type} (it : RangeIterator V) (up : Bool) (start bound step : Int) : Prop :=
  ∃ n : Nat, (∀ k : Nat, InFront up bound (nth up start step k) ↔ k < n) ∧
    it.Yields ((List.range n).map (nth up start step))

/-- The first value that is not in front of the bound. -/
def firstPast (up : Bool) (start bound step : Int) : Int :=
  if up then start + (bound - start + step - 1) / step * step
  else start - (start - bound + step - 1) / step * step

/-- The value is an `int64`. -/
def FitsInt64 (i : Int) : Prop := -2 ^ 63 ≤ i ∧ i < 2 ^ 63

instance (i : Int) : Decidable (FitsInt64 i) := by unfold FitsInt64; infer_instance

theorem fits_toInt (i : Int64) : FitsInt64 i.toInt := ⟨i.le_toInt, i.toInt_lt⟩

theorem toInt_ofInt_of_fits {i : Int} (h : FitsInt64 i) : (Int64.ofInt i).toInt = i :=
  Int64.toInt_ofInt_of_le h.1 h.2

/-! ### Yielded values -/

namespace RangeIterator
variable {V : Type} {it : RangeIterator V}

theorem yields_nil_iff : it.Yields [] ↔ it.advance = none := by
  constructor
  · rintro ⟨vs, hdrains, hvs⟩
    obtain rfl := List.map_eq_nil_iff.1 hvs
    cases hdrains with
    | done h => exact h
  · exact fun h => ⟨[], .done h, rfl⟩

theorem yields_cons_iff {i : Int} {is : List Int} : it.Yields (i :: is) ↔
    ∃ v it', it.advance = some (.ok (.inl v), it') ∧ v.toInt = i ∧ it'.Yields is := by
  constructor
  · rintro ⟨vs, hdrains, hvs⟩
    obtain ⟨v, vs, rfl, hv, hrest⟩ := List.map_eq_cons_iff.1 hvs
    cases hdrains with
    | step h hdrains => exact ⟨v, _, h, hv, vs, hdrains, hrest⟩
  · rintro ⟨v, it', h, hv, vs, hdrains, hvs⟩
    exact ⟨v :: vs, .step h hdrains, by rw [List.map_cons, hv, hvs]⟩

theorem Yields.unique {is js : List Int} (hi : it.Yields is) (hj : it.Yields js) : is = js := by
  obtain ⟨vs, hvs, rfl⟩ := hi
  obtain ⟨ws, hws, rfl⟩ := hj
  have heq := hvs.unique hws
  have hinj : Function.Injective fun i : Int64 => (.ok (.inl i) : Except RangeError (Int64 ⊕ V)) :=
    fun i j h => by simpa using h
  rw [List.map_injective_iff.2 hinj heq]

/-- The value at a position wraps around. -/
theorem advance_eq {k : Nat} (hpos : it.position + 1 = .ofInt k) (hval : it.val = none) :
    it.advance =
      if InFront it.increasing it.stop.toInt
          (Int64.ofInt (nth it.increasing it.start.toInt it.step.toInt k)).toInt then
        some (.ok (.inl (.ofInt (nth it.increasing it.start.toInt it.step.toInt k))),
          { it with position := .ofInt k, valid := true })
      else none := by
  have hcurrent (valid : Bool) :
      ({ it with position := .ofInt k, valid := valid } : RangeIterator V).calculateCurrent =
        Int64.ofInt (nth it.increasing it.start.toInt it.step.toInt k) := by
    simp only [calculateCurrent, nth]
    split
    · rw [Int64.ofInt_add, Int64.ofInt_mul, Int64.ofInt_toInt, Int64.ofInt_toInt]
    · rw [Int64.ofInt_sub, Int64.ofInt_mul, Int64.ofInt_toInt, Int64.ofInt_toInt]
  have hrange : ({ it with position := .ofInt k } : RangeIterator V).inRange = true ↔
      InFront it.increasing it.stop.toInt
        (Int64.ofInt (nth it.increasing it.start.toInt it.step.toInt k)).toInt := by
    rw [inRange, hcurrent, InFront]
    split
    · rw [decide_eq_true_eq, Int64.lt_iff_toInt_lt]
    · rw [decide_eq_true_eq, gt_iff_lt, Int64.lt_iff_toInt_lt]
  have hget : ({ it with position := .ofInt k, valid := true } : RangeIterator V).getValue =
      .ok (.inl (.ofInt (nth it.increasing it.start.toInt it.step.toInt k))) := by
    rw [getValue, hcurrent true]
    simp only [hval, Bool.not_true, Bool.false_eq_true, if_false]
  simp only [advance, next, hpos]
  by_cases hfront : InFront it.increasing it.stop.toInt
      (Int64.ofInt (nth it.increasing it.start.toInt it.step.toInt k)).toInt
  · rw [if_pos hfront, if_pos (hrange.2 hfront)]
    dsimp only
    rw [hget]
  · rw [if_neg hfront, if_neg fun h => hfront (hrange.1 h)]

/-- Values in front of the bound come out one by one; the iterator ends at the next one, unless this
is an `int64` in front of the bound. -/
theorem yields_iff {m k : Nat} (hpos : it.position + 1 = .ofInt k) (hval : it.val = none)
    (hfront : ∀ j < m, FitsInt64 (nth it.increasing it.start.toInt it.step.toInt (k + j)) ∧
      InFront it.increasing it.stop.toInt
        (nth it.increasing it.start.toInt it.step.toInt (k + j))) :
    it.Yields ((List.range m).map fun j =>
        nth it.increasing it.start.toInt it.step.toInt (k + j)) ↔
      ¬InFront it.increasing it.stop.toInt
        (Int64.ofInt (nth it.increasing it.start.toInt it.step.toInt (k + m))).toInt := by
  induction m generalizing it k with
  | zero =>
    rw [List.range_zero, List.map_nil, yields_nil_iff, advance_eq hpos hval, Nat.add_zero]
    split
    · next h => exact iff_of_false (fun h => by cases h) (not_not.2 h)
    · next h => exact iff_of_true rfl h
  | succ m ih =>
    obtain ⟨hfits, hfirst⟩ := hfront 0 (Nat.succ_pos m)
    rw [Nat.add_zero] at hfits hfirst
    have htoInt := toInt_ofInt_of_fits hfits
    have hstep := advance_eq hpos hval
    rw [htoInt, if_pos hfirst] at hstep
    have hrest := @ih { it with position := .ofInt k, valid := true } (k + 1)
      (Int64.ofInt_add k 1).symm hval fun j hj => by
        have h := hfront (j + 1) (Nat.succ_lt_succ hj)
        rwa [← Nat.add_assoc, Nat.add_right_comm] at h
    rw [List.range_succ_eq_map, List.map_cons, List.map_map, yields_cons_iff, Nat.add_zero,
      ← Nat.add_assoc, Nat.add_right_comm, ← hrest]
    have hmap : ((fun j => nth it.increasing it.start.toInt it.step.toInt (k + j)) ∘ Nat.succ) =
        fun j => nth it.increasing it.start.toInt it.step.toInt (k + 1 + j) := by
      funext j
      rw [Function.comp_apply, Nat.succ_eq_add_one, ← Nat.add_assoc, Nat.add_right_comm]
    rw [hmap]
    constructor
    · rintro ⟨v, it', h, -, hyields⟩
      rw [hstep] at h
      cases h
      exact hyields
    · exact fun h => ⟨_, _, hstep, htoInt, h⟩

end RangeIterator

/-! ### Progressions -/

section
variable {start bound step : Int}

/-- The number of values in front of the bound. -/
def countInFront (up : Bool) (start bound step : Int) : Int :=
  ((if up then bound - start else start - bound) + step - 1) / step

theorem inFront_nth_iff (hstep : 1 ≤ step) (up : Bool) (k : Nat) :
    InFront up bound (nth up start step k) ↔ (k : Int) < countInFront up start bound step := by
  have hcount : ∀ d : Int, (d + step - 1) / step = (d - 1) / step + 1 := fun d => by
    rw [show d + step - 1 = d - 1 + 1 * step by omega, Int.add_mul_ediv_right _ _ (by omega)]
  have hlt : ∀ d : Int, (k : Int) < (d + step - 1) / step ↔ k * step < d := fun d => by
    rw [hcount, Int.lt_add_one_iff, Int.le_ediv_iff_mul_le (by omega)]
    omega
  cases up with
  | true =>
    simp only [InFront, nth, countInFront, if_true, hlt]
    omega
  | false =>
    simp only [InFront, nth, countInFront, Bool.false_eq_true, if_false, hlt]
    omega

/-- The first multiple of the step that is not below a number. -/
theorem ceil_bounds (hstep : 1 ≤ step) (d : Int) :
    d ≤ (d + step - 1) / step * step ∧ (d + step - 1) / step * step < d + step := by
  have hdiv := Int.ediv_mul_add_emod (d + step - 1) step
  have hlo := Int.emod_nonneg (d + step - 1) (show step ≠ 0 by omega)
  have hhi := Int.emod_lt_of_pos (d + step - 1) (show 0 < step by omega)
  omega

/-- The first value that is not in front of the bound is less than a step away from it. -/
theorem firstPast_bounds (hstep : 1 ≤ step) (up : Bool) :
    if up then bound ≤ firstPast up start bound step ∧ firstPast up start bound step < bound + step
    else firstPast up start bound step ≤ bound ∧ bound - step < firstPast up start bound step := by
  cases up with
  | true =>
    have h := ceil_bounds hstep (bound - start)
    simp only [firstPast, if_true]
    omega
  | false =>
    have h := ceil_bounds hstep (start - bound)
    simp only [firstPast, Bool.false_eq_true, if_false]
    omega

theorem nth_bounds (hstep : 1 ≤ step) (up : Bool) (k : Nat) :
    if up then start ≤ nth up start step k else nth up start step k ≤ start := by
  have hmul : 0 ≤ (k : Int) * step := Int.mul_nonneg (Int.natCast_nonneg k) (by omega)
  cases up with
  | true =>
    simp only [nth, if_true]
    omega
  | false =>
    simp only [nth, Bool.false_eq_true, if_false]
    omega

theorem nth_countInFront (up : Bool) (h : 0 ≤ countInFront up start bound step) :
    nth up start step (countInFront up start bound step).toNat = firstPast up start bound step := by
  cases up <;>
  · simp only [nth, firstPast, Int.toNat_of_nonneg h]
    rfl

end

/-! ### Ranges -/

/-- An overflow changes a value by a multiple of `2^64`. -/
theorem toInt_ofInt_eq (i : Int) :
    ∃ q : Int, (Int64.ofInt i).toInt = i + q * 2 ^ 64 ∧ FitsInt64 (i + q * 2 ^ 64) := by
  have h := fits_toInt (Int64.ofInt i)
  have hmod : ((Int64.ofInt i).toInt - i) % 2 ^ 64 = 0 := by
    rw [Int64.toInt_ofInt]
    exact Int.emod_eq_zero_of_dvd (Int.dvd_bmod_sub_self (x := i) (m := Int64.size))
  obtain ⟨q, hq⟩ := Int.dvd_of_emod_eq_zero hmod
  have heq : (Int64.ofInt i).toInt = i + q * 2 ^ 64 := by omega
  exact ⟨q, heq, heq ▸ h⟩

variable (broken : Bool)

theorem ofInt_bound (start stop : Int64) :
    (if broken then (if start < stop then stop + 1 else stop - 1) else stop) =
      Int64.ofInt (bound broken start.toInt stop.toInt) := by
  simp only [bound, ← Int64.lt_iff_toInt_lt]
  split
  · split
    · rw [Int64.ofInt_add, Int64.ofInt_toInt]
      rfl
    · rw [Int64.ofInt_sub, Int64.ofInt_toInt]
      rfl
  · rw [Int64.ofInt_toInt]

/-- The bound is on the side of the first value to which the iterator goes. -/
def Ahead (up : Bool) (start bound : Int) : Prop := if up then start < bound else bound ≤ start

theorem Ahead.countInFront_nonneg {up : Bool} {start bound step : Int} (hstep : 1 ≤ step)
    (h : Ahead up start bound) : 0 ≤ countInFront up start bound step := by
  refine Int.ediv_nonneg ?_ (by omega)
  cases up <;>
  · simp only [Ahead, Bool.false_eq_true, if_true, if_false] at h ⊢
    omega

section
variable {V : Type} (it : RangeIterator V) {bound : Int}

/-- The number of values of a range is the number of those in front of the bound. -/
theorem yieldsRange_iff_yields {up : Bool} {start step : Int} {n : Nat}
    (hcount : ∀ k : Nat, InFront up bound (nth up start step k) ↔ k < n) :
    YieldsRange it up start bound step ↔ it.Yields ((List.range n).map (nth up start step)) := by
  constructor
  · rintro ⟨m, hm, hyields⟩
    have hsame : ∀ k, k < m ↔ k < n := fun k => (hm k).symm.trans (hcount k)
    obtain rfl : m = n := Nat.le_antisymm (Nat.not_lt.1 fun h => Nat.lt_irrefl n ((hsame n).1 h))
      (Nat.not_lt.1 fun h => Nat.lt_irrefl m ((hsame m).2 h))
    exact hyields
  · exact fun h => ⟨n, hcount, h⟩

/-- A new iterator returns the values in front of the bound exactly when the first one that is not in
front of it is an `int64`. -/
theorem yieldsRange_iff (hpos : it.position = -1) (hval : it.val = none)
    (hstep : 1 ≤ it.step.toInt) (hstop : it.stop = .ofInt bound)
    (hahead : Ahead it.increasing it.start.toInt bound)
    (hbound : FitsInt64 bound ∨ bound = if it.increasing then 2 ^ 63 else -2 ^ 63 - 1) :
    YieldsRange it it.increasing it.start.toInt bound it.step.toInt ↔
      FitsInt64 (firstPast it.increasing it.start.toInt bound it.step.toInt) := by
  have hstart := fits_toInt it.start
  have hstepFits := fits_toInt it.step
  have hnonneg := hahead.countInFront_nonneg hstep
  obtain ⟨n, hn⟩ := Int.eq_ofNat_of_zero_le hnonneg
  have hcount (k : Nat) : InFront it.increasing bound
      (nth it.increasing it.start.toInt it.step.toInt k) ↔ k < n := by
    rw [inFront_nth_iff hstep, hn, Int.ofNat_lt]
  have hpast : nth it.increasing it.start.toInt it.step.toInt n =
      firstPast it.increasing it.start.toInt bound it.step.toInt := by
    rw [← nth_countInFront it.increasing hnonneg, hn, Int.toNat_natCast]
  have hclose := @firstPast_bounds it.start.toInt bound it.step.toInt hstep it.increasing
  obtain ⟨q, hq, hqfits⟩ := toInt_ofInt_eq bound
  rw [← hstop] at hq
  have hzero : it.position + 1 = .ofInt (0 : Nat) := by rw [hpos]; rfl
  rw [yieldsRange_iff_yields it hcount]
  obtain hfits | hlimit := hbound
  · -- The bound is exact: all that matters is the value at which the iterator is to end.
    have hsame : it.stop.toInt = bound := by
      unfold FitsInt64 at hfits hqfits
      omega
    have hfront : ∀ j < n, FitsInt64 (nth it.increasing it.start.toInt it.step.toInt (0 + j)) ∧
        InFront it.increasing it.stop.toInt
          (nth it.increasing it.start.toInt it.step.toInt (0 + j)) := by
      intro j hj
      rw [Nat.zero_add, hsame]
      have hin := (hcount j).2 hj
      have hle := @nth_bounds it.start.toInt it.step.toInt hstep it.increasing j
      refine ⟨?_, hin⟩
      unfold InFront at hin
      unfold FitsInt64 at hfits hstart ⊢
      split at hin
      · next h =>
        rw [if_pos h] at hle
        omega
      · next h =>
        rw [if_neg h] at hle
        omega
    have hyields := RangeIterator.yields_iff hzero hval hfront
    simp only [Nat.zero_add, hpast, hsame] at hyields
    rw [hyields]
    obtain ⟨p, hp, hpfits⟩ :=
      toInt_ofInt_eq (firstPast it.increasing it.start.toInt bound it.step.toInt)
    rw [hp, InFront]
    unfold FitsInt64 at hfits hstepFits hpfits ⊢
    split
    · next h =>
      rw [if_pos h] at hclose
      omega
    · next h =>
      rw [if_neg h] at hclose
      omega
  · -- The bound wraps around: there is a value in front of it, but the iterator has none.
    have hnth : nth it.increasing it.start.toInt it.step.toInt 0 = it.start.toInt := by
      simp [nth]
    unfold FitsInt64 at hstart hqfits ⊢
    have hnone : it.Yields [] := by
      have hyields := RangeIterator.yields_iff (m := 0) hzero hval fun j hj => by cases hj
      simp only [List.range_zero, List.map_nil, Nat.add_zero, hnth, Int64.ofInt_toInt] at hyields
      rw [hyields, InFront, hq]
      split
      · next h =>
        rw [if_pos h] at hlimit
        omega
      · next h =>
        rw [if_neg h] at hlimit
        omega
    have hsome : n ≠ 0 := by
      rintro rfl
      have hfirst := mt (hcount 0).1 (Nat.lt_irrefl 0)
      rw [hnth, InFront] at hfirst
      split at hfirst
      · next h =>
        rw [if_pos h] at hlimit
        omega
      · next h =>
        rw [if_neg h] at hlimit
        omega
    refine iff_of_false (fun h => ?_) fun hfits => ?_
    · have hnil := h.unique hnone
      simp [hsome] at hnil
    · split at hclose
      · next h =>
        rw [if_pos h] at hlimit
        omega
      · next h =>
        rw [if_neg h] at hlimit
        omega

end

theorem bound_fits_or (start stop : Int64) : FitsInt64 (bound broken start.toInt stop.toInt) ∨
      bound broken start.toInt stop.toInt =
        if decide (start < stop) = true then 2 ^ 63 else -2 ^ 63 - 1 := by
  have hstop := fits_toInt stop
  unfold FitsInt64 at hstop ⊢
  simp only [bound, decide_eq_true_eq, Int64.lt_iff_toInt_lt]
  split
  · split <;> omega
  · exact Or.inl hstop

theorem ahead_bound (start stop : Int64) :
    Ahead (start < stop) start.toInt (bound broken start.toInt stop.toInt) := by
  simp only [Ahead, bound, decide_eq_true_eq, Int64.lt_iff_toInt_lt]
  split
  · split <;> omega
  · split <;> omega

/-- A new iterator returns the values in front of the bound exactly when the first one that is not in
front of it is an `int64`. -/
theorem init_yieldsRange_iff {V : Type} (start stop : Int64) {step : Int64} (hstep : 1 ≤ step) :
    YieldsRange (.init broken start stop step (none : Option V)) (start < stop) start.toInt
        (bound broken start.toInt stop.toInt) step.toInt ↔
      FitsInt64 (firstPast (start < stop) start.toInt (bound broken start.toInt stop.toInt)
        step.toInt) :=
  yieldsRange_iff (.init broken start stop step none) rfl (ite_self none)
    (Int64.le_iff_toInt_le.1 hstep) (ofInt_bound broken start stop)
    (ahead_bound broken start stop) (bound_fits_or broken start stop)

/-! ### The range operator -/

/-- In steps of one nothing overflows. -/
theorem RangeIterator.yields_step_one {V : Type} (it : RangeIterator V) (hpos : it.position = -1)
    (hval : it.val = none) (hstep : it.step.toInt = 1) :
    it.Yields (if it.increasing then up it.start.toInt (it.stop.toInt - 1)
      else down it.start.toInt (it.stop.toInt + 1)) := by
  have hzero : it.position + 1 = .ofInt (0 : Nat) := by rw [hpos]; rfl
  have hstart := fits_toInt it.start
  have hstop := fits_toInt it.stop
  obtain ⟨m, hm⟩ : ∃ m : Nat, m = (if it.increasing then it.stop.toInt - it.start.toInt
    else it.start.toInt - it.stop.toInt).toNat := ⟨_, rfl⟩
  have hfront : ∀ j < m, FitsInt64 (nth it.increasing it.start.toInt it.step.toInt (0 + j)) ∧
      InFront it.increasing it.stop.toInt
        (nth it.increasing it.start.toInt it.step.toInt (0 + j)) := by
    intro j hj
    simp only [Nat.zero_add, hstep, nth, InFront]
    unfold FitsInt64 at hstart hstop ⊢
    split at hm
    · next h =>
      simp only [h, if_true]
      omega
    · next h =>
      simp only [h, Bool.false_eq_true, if_false]
      omega
  have hend : ¬InFront it.increasing it.stop.toInt
      (Int64.ofInt (nth it.increasing it.start.toInt it.step.toInt (0 + m))).toInt := by
    rw [toInt_ofInt_of_fits]
    · simp only [Nat.zero_add, hstep, nth, InFront]
      split
      · next h =>
        rw [if_pos h] at hm
        omega
      · next h =>
        rw [if_neg h] at hm
        omega
    · simp only [Nat.zero_add, hstep, nth]
      unfold FitsInt64 at hstart hstop ⊢
      split
      · next h =>
        rw [if_pos h] at hm
        omega
      · next h =>
        rw [if_neg h] at hm
        omega
  have hyields := (RangeIterator.yields_iff hzero hval hfront).2 hend
  simp only [Nat.zero_add, hstep] at hyields
  split
  · next h =>
    simp only [h, if_true, nth, Int.mul_one] at hyields hm
    rwa [hm, show it.stop.toInt - it.start.toInt = it.stop.toInt - 1 + 1 - it.start.toInt by omega]
      at hyields
  · next h =>
    simp only [h, nth, Int.mul_one] at hyields hm
    rwa [hm, show it.start.toInt - it.stop.toInt = it.start.toInt + 1 - (it.stop.toInt + 1) by omega]
      at hyields

theorem ofInt_behind (b : Int64) (up : Bool) :
    (if up then b + 1 else b - 1) = Int64.ofInt (if up then b.toInt + 1 else b.toInt - 1) := by
  cases up with
  | true =>
    simp only [if_true, Int64.ofInt_add, Int64.ofInt_toInt]
    rfl
  | false =>
    simp only [Bool.false_eq_true, if_false, Int64.ofInt_sub, Int64.ofInt_toInt]
    rfl

/-- Whether the operator goes up: without the option, also from an integer to itself. -/
def goesUp (broken : Bool) (a b : Int64) : Bool := if broken then a < b else a ≤ b

theorem rangeOperator_stop (a b : Int64) :
    (rangeOperator broken a b).stop = if goesUp broken a b then b + 1 else b - 1 := by
  cases broken <;> simp [rangeOperator, RangeIterator.init, goesUp]

theorem rangeOperator_increasing (a b : Int64) : (rangeOperator broken a b).increasing =
      if broken then decide (a < b) else decide (a < (rangeOperator broken a b).stop) := by
  cases broken <;> rfl

/-- The operator returns the values with which slices are evaluated. -/
theorem rangeOperator_yields_rangeEval (a b : Int64) :
    (rangeOperator broken a b).Yields (rangeEval broken a.toInt b.toInt) := by
  have hyields := (rangeOperator broken a b).yields_step_one rfl rfl rfl
  have hslice := (drains_rangeEval broken a.toInt b.toInt).unique
    (drains_first a.toInt (rangeIterator broken a.toInt b.toInt).stop
      (rangeIterator broken a.toInt b.toInt).increasing)
  have hadd : wrap64 (b.toInt + 1) = (b + 1).toInt := by
    rw [wrap64, Int64.ofInt_add, Int64.ofInt_toInt]
    rfl
  have hsub : wrap64 (b.toInt - 1) = (b - 1).toInt := by
    rw [wrap64, Int64.ofInt_sub, Int64.ofInt_toInt]
    rfl
  -- the iterators have the same bound, also where it wraps around, and so the same direction
  have hstop : (rangeIterator broken a.toInt b.toInt).stop =
      (rangeOperator broken a b).stop.toInt := by
    rw [rangeOperator_stop]
    simp only [rangeIterator, Slice.RangeIterator.new, Slice.exclusiveStop, goesUp]
    cases broken <;>
    · simp only [Bool.false_eq_true, if_false, if_true, decide_eq_true_eq, hadd, hsub,
        ← Int64.lt_iff_toInt_lt, ← Int64.le_iff_toInt_le]
      split <;> rfl
  have hincreasing : (rangeIterator broken a.toInt b.toInt).increasing =
      (rangeOperator broken a b).increasing := by
    rw [rangeOperator_increasing]
    cases broken with
    | true => simp [rangeIterator, Slice.RangeIterator.new, Slice.exclusiveStop,
        Int64.lt_iff_toInt_lt]
    | false =>
      have hexclusive : (rangeIterator false a.toInt b.toInt).increasing =
          decide (a.toInt < (rangeIterator false a.toInt b.toInt).stop) := rfl
      simp [hexclusive, hstop, Int64.lt_iff_toInt_lt]
  rw [hslice, hstop, hincreasing]
  exact hyields

/-- The last integer is not the limit of `int64` in the direction of the range. -/
def StopsInside (broken : Bool) (a b : Int64) : Prop :=
  if goesUp broken a b then b ≠ Int64.maxValue else b ≠ Int64.minValue

instance (broken : Bool) (a b : Int64) : Decidable (StopsInside broken a b) := by
  unfold StopsInside
  infer_instance

/-- What an iterator returns in steps of one is the range exactly when its bound is behind the last
integer. -/
theorem span_eq_iff {inc : Bool} {a b s : Int} :
    span a b = (if inc then up a (s - 1) else down a (s + 1)) ↔
      if inc then a ≤ b ∧ s = b + 1 else b ≤ a ∧ s = b - 1 := by
  constructor
  · intro heq
    have hlast : b ∈ span a b := mem_span.2 (by omega)
    have hlength := congrArg List.length heq
    rw [heq] at hlast
    rw [length_span] at hlength
    cases inc with
    | true =>
      simp only [if_true, mem_up, length_up] at hlast hlength ⊢
      omega
    | false =>
      simp only [Bool.false_eq_true, if_false, mem_down, length_down] at hlast hlength ⊢
      omega
  · cases inc with
    | true =>
      rintro ⟨hle, rfl⟩
      rw [if_pos rfl, Int.add_sub_cancel, span_of_le hle]
    | false =>
      rintro ⟨hle, rfl⟩
      rw [if_neg Bool.false_ne_true, Int.sub_add_cancel, span_of_ge hle]

/-- The operator returns the integers from one to the other exactly when the last one is not the limit
in that direction: there its bound wraps around. -/
theorem rangeOperator_yields_iff (a b : Int64) :
    (rangeOperator broken a b).Yields (span a.toInt b.toInt) ↔ StopsInside broken a b := by
  have hyields := (rangeOperator broken a b).yields_step_one rfl rfl rfl
  have hstart : (rangeOperator broken a b).start = a := rfl
  have ha := fits_toInt a
  have hb := fits_toInt b
  have hmax : b ≠ Int64.maxValue ↔ b.toInt ≠ 2 ^ 63 - 1 := Int64.toInt_inj.symm.not
  have hmin : b ≠ Int64.minValue ↔ b.toInt ≠ -2 ^ 63 := Int64.toInt_inj.symm.not
  obtain ⟨q, hq, hfits⟩ := toInt_ofInt_eq (if goesUp broken a b then b.toInt + 1 else b.toInt - 1)
  rw [← ofInt_behind, ← rangeOperator_stop] at hq
  have hup : goesUp broken a b = true ↔
      if broken then a.toInt < b.toInt else a.toInt ≤ b.toInt := by
    cases broken <;> simp [goesUp, Int64.lt_iff_toInt_lt, Int64.le_iff_toInt_le]
  have hinc : (rangeOperator broken a b).increasing = true ↔
      if broken then a.toInt < b.toInt else a.toInt < (rangeOperator broken a b).stop.toInt := by
    rw [rangeOperator_increasing]
    cases broken <;> simp [Int64.lt_iff_toInt_lt]
  rw [hstart] at hyields
  have hiff : (rangeOperator broken a b).Yields (span a.toInt b.toInt) ↔ span a.toInt b.toInt = _ :=
    ⟨fun h => h.unique hyields, fun h => h ▸ hyields⟩
  rw [hiff, span_eq_iff]
  unfold StopsInside
  rw [hmax, hmin]
  unfold FitsInt64 at ha hb hfits
  -- The bound is behind the last integer unless it has wrapped around to the other limit.
  generalize goesUp broken a b = g at hup hq hfits ⊢
  generalize (rangeOperator broken a b).increasing = inc at hinc ⊢
  generalize (rangeOperator broken a b).stop.toInt = s at hq hinc ⊢
  cases broken <;> cases g <;> cases inc <;>
    simp only [Bool.false_eq_true, if_true, if_false, true_iff, false_iff] at hup hinc hq hfits ⊢ <;>
    omega

/-- An iterator returns the values in front of its bound exactly when the first one that is not in
front of it is an `int64`, and the operator returns the integers from one to the other exactly when
the last one is not the limit of `int64` in that direction. -/
theorem range_yields_iff (broken : Bool) (start stop step : Int64) (hstep : 1 ≤ step)
    (a b : Int64) :
    (YieldsRange (.init broken start stop step (none : Option Unit)) (start < stop) start.toInt
        (bound broken start.toInt stop.toInt) step.toInt ↔
      FitsInt64 (firstPast (start < stop) start.toInt (bound broken start.toInt stop.toInt)
        step.toInt)) ∧
    ((rangeOperator broken a b).Yields (span a.toInt b.toInt) ↔ StopsInside broken a b) :=
  ⟨init_yieldsRange_iff broken start stop hstep, rangeOperator_yields_iff broken a b⟩

/-- Steps of two from one to eight, and the integers from three down to minus two. -/
theorem range_yields_small :
    (YieldsRange (.init false 1 8 2 (none : Option Unit)) (decide ((1 : Int64) < 8)) 1 8 2 ↔
      FitsInt64 (firstPast (decide ((1 : Int64) < 8)) 1 8 2)) ∧
    ((rangeOperator false 3 (-2)).Yields (span 3 (-2)) ↔ StopsInside false 3 (-2)) :=
  range_yields_iff false 1 8 2 (by decide) 3 (-2)

/-- Steps of two up to the largest integer pass it, and a range up to it turns back. -/
theorem range_wraps :
    ¬YieldsRange (.init false 0 Int64.maxValue 2 (none : Option Unit)) true 0 (2 ^ 63 - 1) 2 ∧
      ¬(rangeOperator false 0 Int64.maxValue).Yields (span 0 (2 ^ 63 - 1)) := by
  constructor
  · have hiff := init_yieldsRange_iff (V := Unit) false 0 Int64.maxValue
      (show (1 : Int64) ≤ 2 by decide)
    exact fun h => absurd (hiff.1 h) (by decide)
  · exact fun h => absurd ((rangeOperator_yields_iff false 0 Int64.maxValue).1 h) (by decide)

end Qore.Ops
