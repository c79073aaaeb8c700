import Qore.Lib.Drain
import Qore.Slice.RangeSpec

/-!
# `Qore.Slice.Lazy`: slices that are evaluated lazily

Functional operators and `foreach` do not evaluate a slice of a list but take its values from an
iterator. Ranges are iterated by `RangeIterator`, whose upper bound is exclusive; the bound is
adjusted either by the caller or, with the option `PO_BROKEN_RANGE`, by the iterator.

* `lazy_agrees_iff`: the iterator gives the values that the evaluation gives. The slices `x[m..k]`
  are different where the evaluation fails: a list of a type that refuses `NOTHING` is evaluated
  behind its end, or the evaluation goes up to the largest integer.
-/

set_option autoImplicit false

namespace Qore.Slice

open Qore.Lib Qore.Lib.Span

/-! ## Range iterators -/

/-- The overflow of an `int64`. -/
def wrap64 (x : Int) : Int := (Int64.ofInt x).toInt

/-- `RangeIterator`; `position` is the number of calls of `next` before the next one. -/
structure RangeIterator where
  start : Int
  stop : Int
  step : Int
  position : Int
  increasing : Bool
  deriving DecidableEq

/-- The constructor of `RangeIterator`. -/
def RangeIterator.new (broken : Bool) (start stop step : Int) : RangeIterator where
  start := start
  stop :=
    if broken then (if start < stop then wrap64 (stop + 1) else wrap64 (stop - 1)) else stop
  step := step
  position := -1
  increasing := start < stop

/-- `RangeIterator::calculateCurrent`. -/
def RangeIterator.calculateCurrent (it : RangeIterator) : Int :=
  if it.increasing then it.start + it.position * it.step else it.start - it.position * it.step

/-- `RangeIterator::next` and `getValue`. -/
def RangeIterator.next (it : RangeIterator) : Option (Int × RangeIterator) :=
  let it := { it with position := it.position + 1 }
  let valid :=
    if it.increasing then it.calculateCurrent < it.stop else it.calculateCurrent > it.stop
  if valid then some (it.calculateCurrent, it) else none

/-- The exclusive bound of a range, when the iterator does not adjust it. -/
def exclusiveStop (broken : Bool) (start stop : Int) : Int :=
  if broken then stop else if start ≤ stop then wrap64 (stop + 1) else wrap64 (stop - 1)

/-- The iterator of a range with both bounds, as `QoreRangeOperatorNode` and
`QoreSquareBracketsRangeOperatorNode` make it. -/
def rangeIterator (broken : Bool) (start stop : Int) : RangeIterator :=
  .new broken start (exclusiveStop broken start stop) 1

/-- `QoreRangeOperatorNode::evalImpl`. There are as many values as the bounds are apart. -/
def rangeEval (broken : Bool) (start stop : Int) : List Int :=
  let it := rangeIterator broken start stop
  drain RangeIterator.next ((it.stop - it.start).natAbs + 1) it

/-! ## Slices of lists -/

/-- An entry of the list in the brackets. -/
inductive Entry
  | index (i : Int64)
  | range (start stop : Int64)
  deriving DecidableEq

def Entry.isRange : Entry → Bool
  | index _ => false
  | range .. => true

/-- A slice expression. -/
inductive SliceExpr
  | list (entries : List Entry)
  | range (m k : Option Int64)

section
variable {V : Type}

/-- The positions of an entry. -/
def Entry.positions (broken : Bool) : Entry → List Int
  | index i => [i.toInt]
  | range start stop => rangeEval broken start.toInt stop.toInt

/-- `doSquareBrackets` for a list of indices, and `doSquareBracketsListRange`. The values are
pushed on a list that takes any value. -/
def ListNode.evalList (l : ListNode V) (broken : Bool) : List Entry → List (Option V)
  | [] => []
  | e :: es => (e.positions broken).map l.getReferencedEntry ++ l.evalList broken es

/-- The eager evaluation of a slice of a list. -/
def ListNode.evalSlice (l : ListNode V) (broken : Bool) : SliceExpr → Result V
  | .list entries => .list (l.evalList broken entries)
  | .range m k => l.evalRange (getEffectiveRange true l.entry.length m k)

/-- The iterators over slices of a list. -/
inductive FunctionalIterator (V : Type)
  /-- `QoreFunctionalSquareBracketsRangeOperator` -/
  | range (it : RangeIterator)
  /-- `QoreFunctionalListOperator`: the values that are left. -/
  | values (entry : List (Option V))
  /-- `QoreFunctionalSquareBracketsOperator`: the indices that are left. -/
  | indices (right : List Int64)
  /-- `QoreFunctionalSquareBracketsComplexOperator`: the iterator of the range that is being read,
  and the entries that are left. -/
  | complex (rangeIter : Option RangeIterator) (right : List Entry)

/-- `QoreFunctionalSquareBracketsComplexOperator::getNextImpl` when no range is being read. -/
def ListNode.nextEntry (l : ListNode V) (broken : Bool) :
    List Entry → Option (Option V × FunctionalIterator V)
  | [] => none
  | .index i :: right => some (l.getReferencedEntry i.toInt, .complex none right)
  | .range start stop :: right =>
    match (rangeIterator broken start.toInt stop.toInt).next with
    | some (i, it) => some (l.getReferencedEntry i, .complex (some it) right)
    | none => l.nextEntry broken right

/-- `getNextImpl` of the iterators. -/
def ListNode.getNext (l : ListNode V) (broken : Bool) :
    FunctionalIterator V → Option (Option V × FunctionalIterator V)
  | .range it => it.next.map fun (i, it) => (l.getReferencedEntry i, .range it)
  | .values [] => none
  | .values (v :: entry) => some (v, .values entry)
  | .indices [] => none
  | .indices (i :: right) => some (l.getReferencedEntry i.toInt, .indices right)
  | .complex none right => l.nextEntry broken right
  | .complex (some it) right =>
    match it.next with
    | some (i, it) => some (l.getReferencedEntry i, .complex (some it) right)
    | none => l.nextEntry broken right

/-- What making an iterator gives. -/
inductive Started (V : Type)
  | iterator (it : FunctionalIterator V)
  | exception
  | undefined

/-- The indices of a list without ranges. -/
def indicesOf : List Entry → List Int64
  | [] => []
  | .index i :: right => i :: indicesOf right
  | .range .. :: right => indicesOf right

/-- `getFunctionalIteratorImpl`. A range that is reported as empty is evaluated. -/
def ListNode.getFunctionalIterator (l : ListNode V) (broken : Bool) : SliceExpr → Started V
  | .list entries =>
    if entries.any Entry.isRange then .iterator (.complex none entries)
    else .iterator (.indices (indicesOf entries))
  | .range m k =>
    let r := getEffectiveRange true l.entry.length m k
    if r.nonempty then .iterator (.range (rangeIterator broken r.start r.stop))
    else
      match l.evalRange r with
      | .list entry => .iterator (.values entry)
      | .exception => .exception
      | _ => .undefined

/-- The iterator gives the values of the evaluation, or both fail in the same way. -/
def ListNode.LazyAgrees (l : ListNode V) (broken : Bool) (x : SliceExpr) : Prop :=
  match l.getFunctionalIterator broken x, l.evalSlice broken x with
  | .iterator it, .list entry => Drains (l.getNext broken) it entry
  | .exception, .exception => True
  | .undefined, .undefined => True
  | _, _ => False

/-- The slices for which the iterator and the evaluation agree: lists of indices and ranges, ranges
that are reported as empty, and ranges that neither go up to the largest integer nor leave a list
whose type refuses `NOTHING`. -/
def ListNode.FineLazy (l : ListNode V) : SliceExpr → Prop
  | .list _ => True
  | .range m k =>
    OutOfRange l.entry.length m k ∨
      ¬(lower m < upper l.entry.length k ∧ upper l.entry.length k = 2 ^ 63 - 1) ∧
        (l.checkVal none = some none ∨ max (lower m) (upper l.entry.length k) < l.entry.length)

/-! ## What range iterators give -/

theorem wrap64_eq {x : Int} (h : -2 ^ 63 ≤ x) (h' : x < 2 ^ 63) : wrap64 x = x :=
  Int64.toInt_ofInt_of_le h h'

/-- Upwards, the integers before the exclusive bound. -/
theorem drains_increasing (start stop position : Int) :
    Drains RangeIterator.next ⟨start, stop, 1, position, true⟩
      (up (start + (position + 1)) (stop - 1)) := by
  obtain ⟨n, hn⟩ : ∃ n : Nat, (stop - (start + (position + 1))).toNat = n := ⟨_, rfl⟩
  have hnext : ∀ position : Int, RangeIterator.next ⟨start, stop, 1, position, true⟩ =
      if start + (position + 1) < stop then
        some (start + (position + 1), ⟨start, stop, 1, position + 1, true⟩)
      else none := by
    intro position
    simp [RangeIterator.next, RangeIterator.calculateCurrent]
  induction n generalizing position with
  | zero =>
    rw [up_nil (by omega)]
    exact .done ((hnext position).trans (if_neg (by omega)))
  | succ n ih =>
    have hrest := ih (position + 1) (by omega)
    have hfirst : start + (position + 1 + 1) = start + (position + 1) + 1 := by omega
    rw [hfirst] at hrest
    rw [up_cons (by omega)]
    exact .step ((hnext position).trans (if_pos (by omega))) hrest

/-- Downwards, the integers behind the exclusive bound. -/
theorem drains_decreasing (start stop position : Int) :
    Drains RangeIterator.next ⟨start, stop, 1, position, false⟩
      (down (start - (position + 1)) (stop + 1)) := by
  obtain ⟨n, hn⟩ : ∃ n : Nat, (start - (position + 1) - stop).toNat = n := ⟨_, rfl⟩
  have hnext : ∀ position : Int, RangeIterator.next ⟨start, stop, 1, position, false⟩ =
      if stop < start - (position + 1) then
        some (start - (position + 1), ⟨start, stop, 1, position + 1, false⟩)
      else none := by
    intro position
    simp [RangeIterator.next, RangeIterator.calculateCurrent]
  induction n generalizing position with
  | zero =>
    rw [down_nil (by omega)]
    exact .done ((hnext position).trans (if_neg (by omega)))
  | succ n ih =>
    have hrest := ih (position + 1) (by omega)
    have hfirst : start - (position + 1 + 1) = start - (position + 1) - 1 := by omega
    rw [hfirst] at hrest
    rw [down_cons (by omega)]
    exact .step ((hnext position).trans (if_pos (by omega))) hrest

/-- The values of an iterator that has not been called yet. -/
theorem drains_first (start stop : Int) (increasing : Bool) :
    Drains RangeIterator.next ⟨start, stop, 1, -1, increasing⟩
      (if increasing then up start (stop - 1) else down start (stop + 1)) := by
  cases increasing with
  | true => simpa using drains_increasing start stop (-1)
  | false => simpa using drains_decreasing start stop (-1)

/-- A range in a list of indices is evaluated with the same iterator. -/
theorem drains_rangeEval (broken : Bool) (start stop : Int) :
    Drains RangeIterator.next (rangeIterator broken start stop) (rangeEval broken start stop) := by
  have hdrains := drains_first start (rangeIterator broken start stop).stop
    (rangeIterator broken start stop).increasing
  have hstart : (rangeIterator broken start stop).start = start := rfl
  have heq : rangeEval broken start stop = _ := hdrains.drain_eq (by
    split
    · rw [length_up]
      omega
    · rw [length_down]
      omega)
  rw [heq]
  exact hdrains

/-- Without an overflow, both bounds belong to the range. -/
theorem rangeEval_eq_span (broken : Bool) {start stop : Int} (hlo : -2 ^ 63 < stop)
    (hhi : stop < 2 ^ 63 - 1) : rangeEval broken start stop = span start stop := by
  refine (drains_rangeEval broken start stop).unique ?_
  have hup : wrap64 (stop + 1) = stop + 1 := wrap64_eq (by omega) (by omega)
  have hdown : wrap64 (stop - 1) = stop - 1 := wrap64_eq (by omega) (by omega)
  have hit : rangeIterator broken start stop =
      if start ≤ stop ∧ ¬(broken ∧ start = stop) then ⟨start, stop + 1, 1, -1, true⟩
      else ⟨start, stop - 1, 1, -1, false⟩ := by
    unfold rangeIterator RangeIterator.new exclusiveStop
    cases broken <;> grind
  rw [hit]
  split
  · have hdrains := drains_first start (stop + 1) true
    rwa [if_pos rfl, Int.add_sub_cancel, ← span_of_le (by omega)] at hdrains
  · have hdrains := drains_first start (stop - 1) false
    rwa [if_neg (by decide), Int.sub_add_cancel, ← span_of_ge (by grind)] at hdrains

/-! ## Lists of indices and ranges -/

section
variable (l : ListNode V) (broken : Bool) {m k : Option Int64}

/-- While a range is being read, its values come first. -/
theorem ListNode.drains_complex_some {it : RangeIterator} {is : List Int}
    (h : Drains RangeIterator.next it is) {right : List Entry} {vs : List (Option V)}
    (hrest : Drains (l.getNext broken) (.complex none right) vs) :
    Drains (l.getNext broken) (.complex (some it) right) (is.map l.getReferencedEntry ++ vs) := by
  induction h with
  | done hnone =>
    refine hrest.of_next_eq ?_
    simp only [ListNode.getNext, hnone]
  | step hsome _ ih =>
    refine .step ?_ ih
    simp only [ListNode.getNext, hsome]

theorem ListNode.drains_complex (entries : List Entry) :
    Drains (l.getNext broken) (.complex none entries) (l.evalList broken entries) := by
  induction entries with
  | nil => exact .done rfl
  | cons e entries ih =>
    cases e with
    | index i => exact .step rfl ih
    | range start stop =>
      -- the first value of the range is read at once
      refine (l.drains_complex_some broken (drains_rangeEval broken start.toInt stop.toInt)
        ih).of_next_eq ?_
      simp only [ListNode.getNext, ListNode.nextEntry]

theorem ListNode.drains_indices {entries : List Entry} (h : entries.any Entry.isRange = false) :
    Drains (l.getNext broken) (.indices (indicesOf entries)) (l.evalList broken entries) := by
  induction entries with
  | nil => exact .done rfl
  | cons e entries ih =>
    cases e with
    | index i => exact .step rfl (ih h)
    | range start stop => cases h

theorem ListNode.drains_values (entry : List (Option V)) :
    Drains (l.getNext broken) (.values entry) entry := by
  induction entry with
  | nil => exact .done rfl
  | cons v entry ih => exact .step rfl ih

theorem ListNode.drains_range {it : RangeIterator} {is : List Int}
    (h : Drains RangeIterator.next it is) :
    Drains (l.getNext broken) (.range it) (is.map l.getReferencedEntry) := by
  induction h with
  | done hnone =>
    refine .done ?_
    simp only [ListNode.getNext, hnone]
    rfl
  | step hsome _ ih =>
    refine .step ?_ ih
    simp only [ListNode.getNext, hsome]
    rfl

/-! ## Ranges -/

omit l broken in
/-- The upper bound of a range that is not reported as empty. -/
theorem stop_bounds {size : Nat} (hsize : size < 2 ^ 63) (hout : ¬OutOfRange size m k) :
    0 ≤ (getEffectiveRange true size m k).stop ∧ (getEffectiveRange true size m k).stop < 2 ^ 63 ∧
      ((getEffectiveRange true size m k).start < (getEffectiveRange true size m k).stop ∨
        (getEffectiveRange true size m k).stop < 2 ^ 63 - 1) := by
  have hupper : upper size k < 2 ^ 63 := by
    cases k with
    | none =>
      show (size : Int) - 1 < 2 ^ 63
      omega
    | some k => exact k.toInt_lt
  rw [getEffectiveRange_eq, if_neg hout]
  unfold OutOfRange at hout
  split
  · simp only [↓reduceIte]
    omega
  · simp only [↓reduceIte]
    omega

theorem ListNode.evalRange_cases (r : EffectiveRange) :
    (∃ entry, l.evalRange r = .list entry) ∨ l.evalRange r = .exception ∨
      l.evalRange r = .undefined := by
  unfold ListNode.evalRange
  split
  · exact .inr (.inr rfl)
  · split
    · exact .inr (.inl rfl)
    · exact .inl ⟨_, rfl⟩

/-- A range that is reported as empty is evaluated before it is iterated. -/
theorem ListNode.lazyAgrees_of_outOfRange (hout : OutOfRange l.entry.length m k) :
    l.LazyAgrees broken (.range m k) := by
  have hempty := (nonempty_eq_false_iff true l.entry.length m k).mpr hout
  unfold ListNode.LazyAgrees ListNode.getFunctionalIterator ListNode.evalSlice
  dsimp only
  rw [hempty]
  rcases l.evalRange_cases (getEffectiveRange true l.entry.length m k) with ⟨entry, heq⟩ | heq | heq
  · rw [heq]
    exact l.drains_values broken entry
  · rw [heq]
    trivial
  · rw [heq]
    trivial

/-- Any other range is iterated without being evaluated. -/
theorem ListNode.lazyAgrees_iff_evalRange (hout : ¬OutOfRange l.entry.length m k)
    {r : EffectiveRange} (hr : getEffectiveRange true l.entry.length m k = r) :
    l.LazyAgrees broken (.range m k) ↔
      l.evalRange r = .list ((rangeEval broken r.start r.stop).map l.getReferencedEntry) := by
  have hnonempty : r.nonempty = true := by
    rw [← Bool.not_eq_false, ← hr, nonempty_eq_false_iff]
    exact hout
  have hdrains := l.drains_range broken (drains_rangeEval broken r.start r.stop)
  unfold ListNode.LazyAgrees ListNode.getFunctionalIterator ListNode.evalSlice
  dsimp only
  rw [hr, hnonempty]
  rcases l.evalRange_cases r with ⟨entry, heq⟩ | heq | heq
  · rw [heq]
    constructor
    · intro h
      rw [h.unique hdrains]
    · intro h
      cases h
      exact hdrains
  · rw [heq]
    exact iff_of_false id (by simp)
  · rw [heq]
    exact iff_of_false id (by simp)

theorem ListNode.lazyAgrees_range_iff (m k : Option Int64) :
    l.LazyAgrees broken (.range m k) ↔ l.FineLazy (.range m k) := by
  by_cases hout : OutOfRange l.entry.length m k
  · exact iff_of_true (l.lazyAgrees_of_outOfRange broken hout) (.inl hout)
  · obtain ⟨hlo, hover, hinside⟩ := loop_bounds hout
    have hbounds := stop_bounds l.size_lt hout
    rw [l.lazyAgrees_iff_evalRange broken hout rfl]
    generalize getEffectiveRange true l.entry.length m k = r at hlo hover hinside hbounds ⊢
    show _ ↔ _ ∨ _
    rw [or_iff_right hout, ← hover, ← hinside]
    by_cases hmax : r.start < r.stop ∧ r.stop = 2 ^ 63 - 1
    · -- the loop of the evaluation does not end
      have hundefined : l.evalRange r = .undefined := by
        unfold ListNode.evalRange loopPositions
        rw [if_pos hmax.1, if_pos hmax.2]
      rw [hundefined]
      exact iff_of_false (by simp) fun h => h.1 hmax
    · have hhi : r.stop < 2 ^ 63 - 1 := by omega
      rw [rangeEval_eq_span broken (by omega) hhi, l.evalRange_iff hlo]

/-- The iterator of a slice gives the values of its evaluation exactly when the slice is one of
`FineLazy`. -/
theorem lazy_agrees_iff (x : SliceExpr) : l.LazyAgrees broken x ↔ l.FineLazy x := by
  cases x with
  | range m k => exact l.lazyAgrees_range_iff broken m k
  | list entries =>
    refine iff_of_true ?_ trivial
    unfold ListNode.LazyAgrees ListNode.getFunctionalIterator ListNode.evalSlice
    dsimp only
    cases hrange : entries.any Entry.isRange with
    | true => exact l.drains_complex broken entries
    | false => exact l.drains_indices broken hrange

end

/-- The list of integers `(1, 2)` cut with `[0..2]` raises an exception when it is evaluated, and
has three values when it is iterated. -/
theorem lazy_not_agrees :
    ¬(intList [1, 2] (by decide)).LazyAgrees false (.range (some 0) (some 2)) := by
  exact id

end

end Qore.Slice
