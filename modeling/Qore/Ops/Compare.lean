import Mathlib.Data.Rat.Cast.Order
import Qore.Date.Compare
import Qore.Lib.Significand
import Qore.Types.Model

/-!
# `Qore.Ops.Compare`: the comparison operators

`==`, `<` and `<=>` on the scalar values: `NOTHING`, booleans, integers, floats and dates. Each of
the three evaluators has its own order of cases on the types of its operands. Floats are exact
rationals; the conversions between number types round as the machine does.

* `comparisons_agree_iff`: on two values of one type, or two numbers, the three operators agree
  exactly when no two different doubles are compared that are equal in single precision, because
  `doComparison` keeps its floats in a `float`.
-/

set_option autoImplicit false

namespace Qore.Ops

open Qore.Date
open Qore.Lib
open Qore.Types

/-- The scalar values of `QoreValue`. -/
inductive Scalar
  | nothing
  | bool (b : Bool)
  | int (i : Int64)
  | float (f : Rat)
  | date (d : DateTime)

/-- The conversion of an integer to a `double`. -/
def toDouble (i : Int) : Rat := roundSig 53 i

/-- The conversion of a `double` to a `float`. The denominator of a `double` is a power of two,
which only moves the exponent. -/
def toSingle (f : Rat) : Rat := roundSig 24 f.num / f.den

/-- The conversion of a `double` to an `int64`: truncation, and the smallest integer when the
result does not fit. -/
def toInt64 (f : Rat) : Int64 :=
  let t := f.num.tdiv f.den
  if -9223372036854775808 ≤ t ∧ t < 9223372036854775808 then Int64.ofInt t else Int64.minValue

/-- `ZeroDate`. -/
def zeroDate : DateTime := .abs { epoch := 0, us := 0, zone := .utc }

namespace Scalar

/-- `QoreValue::getType`. -/
def getType : Scalar → NT
  | nothing => .nothing
  | bool _ => .boolean
  | int _ => .int
  | float _ => .float
  | date _ => .date

/-- `QoreValue::getAsBool`. -/
def getAsBool : Scalar → Bool
  | nothing => false
  | bool b => b
  | int i => i ≠ 0
  | float f => f ≠ 0
  | date d => d.hasValue

/-- `QoreValue::getAsBigInt`. -/
def getAsBigInt : Scalar → Int64
  | nothing => 0
  | bool b => if b then 1 else 0
  | int i => i
  | float f => toInt64 f
  | date d => Int64.ofInt d.getEpochSeconds

/-- `QoreValue::getAsFloat`. -/
def getAsFloat : Scalar → Rat
  | nothing => 0
  | bool b => if b then 1 else 0
  | int i => toDouble i.toInt
  | float f => f
  | date d => toDouble d.getEpochSeconds

/-- `DateTimeValueHelper`. -/
def toDateTime : Scalar → DateTime
  | nothing => zeroDate
  | bool b => .makeRelativeFromSeconds (if b then 1 else 0) 0
  | int i => .makeRelativeFromSeconds i.toInt 0
  | float f =>
    let whole := truncInt (f.num.tdiv f.den)
    let us := (f - whole) * 1000000
    .makeRelativeFromSeconds (toInt64 f).toInt (truncInt (us.num.tdiv us.den))
  | date d => d

end Scalar

/-! ### The evaluators -/

/-- `QoreLogicalEqualsOperatorNode::softEqual`. -/
def softEqual (left right : Scalar) : Bool :=
  let lt := left.getType
  let rt := right.getType
  if lt = .float ∨ rt = .float then left.getAsFloat = right.getAsFloat
  else if lt = .int ∨ rt = .int then left.getAsBigInt = right.getAsBigInt
  else if lt = .boolean ∨ rt = .boolean then left.getAsBool = right.getAsBool
  else if lt = .date ∨ rt = .date then left.toDateTime.isEqual right.toDateTime
  -- `QoreNothingNode::is_equal_soft`
  else rt = .nothing

/-- `QoreLogicalLessThanOperatorNode::doLessThan`. -/
def doLessThan (lh rh : Scalar) : Bool :=
  let lt := lh.getType
  let rt := rh.getType
  if lt = .float ∨ rt = .float then lh.getAsFloat < rh.getAsFloat
  else if lt = .int ∨ rt = .int then lh.getAsBigInt < rh.getAsBigInt
  else if lt = .date ∨ rt = .date then lh.toDateTime.compare rh.toDateTime < 0
  else lh.getAsFloat < rh.getAsFloat

/-- The end of each case of `doComparison`. -/
def threeWay {α : Type} [LT α] [DecidableEq α] [DecidableLT α] (l r : α) : Int :=
  if l < r then -1 else if l = r then 0 else 1

/-- `QoreLogicalComparisonOperatorNode::doComparison`. -/
def doComparison (left right : Scalar) : Int :=
  let lt := left.getType
  let rt := right.getType
  if lt = .float ∨ rt = .float then
    threeWay (toSingle left.getAsFloat) (toSingle right.getAsFloat)
  else if lt = .int ∨ rt = .int then threeWay left.getAsBigInt right.getAsBigInt
  else left.toDateTime.compare right.toDateTime

/-! ### Agreement -/

/-- A float with an integral value of magnitude up to `2 ^ 53`. -/
def Integral (f : Rat) : Prop := ∃ n : Int, f = n ∧ n.natAbs ≤ 2 ^ 53

/-- Two values of the same type. -/
inductive SameType : Scalar → Scalar → Prop
  | bool (a b : Bool) : SameType (.bool a) (.bool b)
  | int (a b : Int64) : SameType (.int a) (.int b)
  | float (a b : Rat) (ha : Integral a) (hb : Integral b) : SameType (.float a) (.float b)
  | date (a b : DateTime) : SameType (.date a) (.date b)

/-- The booleans, integers and integral floats. -/
inductive Numeric : Scalar → Prop
  | bool (b : Bool) : Numeric (.bool b)
  | int (i : Int64) : Numeric (.int i)
  | float (f : Rat) (hf : Integral f) : Numeric (.float f)

/-- Two numbers of different types. -/
def Mixed (l r : Scalar) : Prop := Numeric l ∧ Numeric r ∧ l.getType ≠ r.getType

/-- Exactly one of the three relations holds, and `<=>` names it. -/
def Trichotomy (l r : Scalar) : Prop :=
  (doLessThan l r ∧ ¬softEqual l r ∧ ¬doLessThan r l ∧ doComparison l r = -1) ∨
  (¬doLessThan l r ∧ softEqual l r ∧ ¬doLessThan r l ∧ doComparison l r = 0) ∨
  (¬doLessThan l r ∧ ¬softEqual l r ∧ doLessThan r l ∧ doComparison l r = 1)

/-- `<=>` is antisymmetric and gives 0 for equal values only. -/
def Antisymmetric (l r : Scalar) : Prop :=
  doComparison l r = -doComparison r l ∧ (doComparison l r = 0 ↔ softEqual l r)

/-- The operators agree on two values. -/
def Agree (l r : Scalar) : Prop :=
  (SameType l r → Trichotomy l r) ∧ (Mixed l r → Antisymmetric l r)

/-- Two values, one of them a float, that are different doubles stay different in single
precision. -/
def SinglesApart (l r : Scalar) : Prop :=
  l.getType = .float ∨ r.getType = .float →
    toSingle l.getAsFloat = toSingle r.getAsFloat → l.getAsFloat = r.getAsFloat

theorem toSingle_intCast (n : Int) : toSingle n = roundSig 24 n := by
  simp [toSingle]

theorem toSingle_mono {f g : Rat} (hf : Integral f) (hg : Integral g) (h : f ≤ g) :
    toSingle f ≤ toSingle g := by
  obtain ⟨m, rfl, -⟩ := hf
  obtain ⟨n, rfl, -⟩ := hg
  rw [toSingle_intCast, toSingle_intCast]
  exact_mod_cast roundSig_mono (by decide) (by exact_mod_cast h)

variable {l r : Scalar}

/-- Up to a magnitude of `2 ^ 24` single precision is exact, and no two values come together. -/
theorem singlesApart_of_le {m n : Int} (hl : l.getAsFloat = m) (hr : r.getAsFloat = n)
    (hm : m.natAbs ≤ 2 ^ 24) (hn : n.natAbs ≤ 2 ^ 24) :
    SinglesApart l r := by
  intro _ hsingle
  rw [hl, hr, toSingle_intCast, toSingle_intCast, roundSig_of_le (by decide) hm,
    roundSig_of_le (by decide) hn] at hsingle
  rw [hl, hr, hsingle]

/-! ### The cases of a comparison -/

section
variable {α : Type} [LinearOrder α]

theorem threeWay_swap (a b : α) : threeWay a b = -threeWay b a := by
  unfold threeWay
  rcases lt_trichotomy a b with h | h | h
  · simp [h, h.not_gt, h.ne']
  · simp [h]
  · simp [h, h.not_gt, h.ne']

theorem threeWay_eq_zero (a b : α) : threeWay a b = 0 ↔ a = b := by
  unfold threeWay
  rcases lt_trichotomy a b with h | h | h
  · simp [h, h.ne]
  · simp [h]
  · simp [h.not_gt, h.ne']

end

theorem threeWay_toInt (a b : Int64) : threeWay a b = threeWay a.toInt b.toInt := by
  simp only [threeWay, Int64.lt_iff_toInt_lt, ← Int64.toInt_inj]

/-- With a float the operators compare the values as doubles, `<=>` in single precision. -/
theorem float_cases (h : l.getType = .float ∨ r.getType = .float) :
    (softEqual l r ↔ l.getAsFloat = r.getAsFloat) ∧
    (doLessThan l r ↔ l.getAsFloat < r.getAsFloat) ∧
    doComparison l r = threeWay (toSingle l.getAsFloat) (toSingle r.getAsFloat) := by
  simp only [softEqual, doLessThan, doComparison, h, if_true, decide_eq_true_eq, and_self]

/-- Without a float but with an integer they compare the values as integers. -/
theorem int_cases (hf : ¬(l.getType = .float ∨ r.getType = .float))
    (h : l.getType = .int ∨ r.getType = .int) :
    (softEqual l r ↔ l.getAsBigInt = r.getAsBigInt) ∧
    (doLessThan l r ↔ l.getAsBigInt.toInt < r.getAsBigInt.toInt) ∧
    doComparison l r = threeWay l.getAsBigInt.toInt r.getAsBigInt.toInt := by
  simp only [softEqual, doLessThan, doComparison, hf, h, if_true, if_false, decide_eq_true_eq,
    threeWay_toInt, Int64.lt_iff_toInt_lt, and_self]

/-- Three-way comparison of linearly ordered keys gives the trichotomy. -/
theorem trichotomy_of_keys {α : Type} [LinearOrder α] {a b : α} (hlt : doLessThan l r ↔ a < b)
    (hgt : doLessThan r l ↔ b < a) (heq : softEqual l r ↔ a = b)
    (hneg : a < b → doComparison l r = -1) (hzero : a = b → doComparison l r = 0)
    (hpos : b < a → doComparison l r = 1) : Trichotomy l r := by
  unfold Trichotomy
  rw [hlt, hgt, heq]
  rcases lt_trichotomy a b with h | h | h
  · exact .inl ⟨h, h.ne, h.not_gt, hneg h⟩
  · subst h
    exact .inr (.inl ⟨lt_irrefl a, rfl, lt_irrefl a, hzero rfl⟩)
  · exact .inr (.inr ⟨h.not_gt, h.ne', h, hpos h⟩)

theorem trichotomy_int (a b : Int64) : Trichotomy (.int a) (.int b) := by
  obtain ⟨heq, hlt, hcmp⟩ := int_cases (l := .int a) (r := .int b) (by simp [Scalar.getType]) (.inl rfl)
  obtain ⟨-, hgt, -⟩ := int_cases (l := .int b) (r := .int a) (by simp [Scalar.getType]) (.inl rfl)
  refine trichotomy_of_keys hlt hgt (heq.trans Int64.toInt_inj.symm) ?_ ?_ ?_
  all_goals
    intro h
    rw [hcmp]
    simp only [threeWay]
    split_ifs <;> omega

theorem trichotomy_bool (a b : Bool) : Trichotomy (.bool a) (.bool b) := by
  cases a <;> cases b <;> unfold Trichotomy <;> decide

theorem trichotomy_date (a b : DateTime) : Trichotomy (.date a) (.date b) := by
  have hlt (c d : DateTime) : doLessThan (.date c) (.date d) ↔ c.compare d < 0 :=
    decide_eq_true_iff
  have heq : softEqual (.date a) (.date b) ↔ a.compare b = 0 := decide_eq_true_iff
  have hcmp : doComparison (.date a) (.date b) = a.compare b := rfl
  have hswap := DateTime.compare_swap a b
  have hcases := DateTime.compare_cases a b
  unfold Trichotomy
  rw [hlt, hlt, heq, hcmp]
  omega

/-- For two floats the trichotomy fails exactly when single precision brings different values
together. -/
theorem trichotomy_float_iff {a b : Rat} (ha : Integral a) (hb : Integral b) :
    Trichotomy (.float a) (.float b) ↔ (toSingle a = toSingle b → a = b) := by
  obtain ⟨heq, hlt, hcmp⟩ := float_cases (l := .float a) (r := .float b) (.inl rfl)
  obtain ⟨-, hgt, -⟩ := float_cases (l := .float b) (r := .float a) (.inl rfl)
  simp only [Scalar.getAsFloat] at heq hlt hgt hcmp
  constructor
  · intro htri hsingle
    have hzero : doComparison (.float a) (.float b) = 0 := by
      rw [hcmp, threeWay_eq_zero]
      exact hsingle
    unfold Trichotomy at htri
    rw [hzero] at htri
    rcases htri with h | h | h
    · exact absurd h.2.2.2 (by decide)
    · exact heq.1 h.2.1
    · exact absurd h.2.2.2 (by decide)
  · intro hapart
    -- Different values have different singles, in the same order because rounding is monotone.
    have hstrict {f g : Rat} (hf : Integral f) (hg : Integral g) (hlt : f < g)
        (hne : toSingle f = toSingle g → f = g) : toSingle f < toSingle g :=
      lt_of_le_of_ne (toSingle_mono hf hg hlt.le) fun h => hlt.ne (hne h)
    refine trichotomy_of_keys hlt hgt heq ?_ ?_ ?_
    · intro h
      rw [hcmp, threeWay, if_pos (hstrict ha hb h hapart)]
    · intro h
      rw [hcmp, h, threeWay_eq_zero]
    · intro h
      have hsingle := hstrict hb ha h fun heq => (hapart heq.symm).symm
      rw [hcmp, threeWay, if_neg hsingle.not_gt, if_neg hsingle.ne']

/-- For two numbers with a float `<=>` is 0 on equal values only exactly when single precision
keeps them apart. -/
theorem antisymmetric_float_iff (h : l.getType = .float ∨ r.getType = .float) :
    Antisymmetric l r ↔ SinglesApart l r := by
  obtain ⟨heq, -, hcmp⟩ := float_cases h
  obtain ⟨-, -, hcmp'⟩ := float_cases (l := r) (r := l) h.symm
  unfold Antisymmetric SinglesApart
  rw [hcmp, hcmp', threeWay_eq_zero, heq]
  constructor
  · intro hanti _
    exact hanti.2.1
  · intro hapart
    refine ⟨threeWay_swap _ _, hapart h, ?_⟩
    intro hval
    rw [hval]

theorem antisymmetric_int (hf : ¬(l.getType = .float ∨ r.getType = .float))
    (h : l.getType = .int ∨ r.getType = .int) : Antisymmetric l r := by
  obtain ⟨heq, -, hcmp⟩ := int_cases hf h
  obtain ⟨-, -, hcmp'⟩ := int_cases (l := r) (r := l) (fun h => hf h.symm) h.symm
  unfold Antisymmetric
  rw [hcmp, hcmp', threeWay_eq_zero, heq]
  exact ⟨threeWay_swap _ _, Int64.toInt_inj⟩

/-- Two numbers of different types have a float or an integer among them. -/
theorem Mixed.float_or_int (h : Mixed l r) :
    (l.getType = .float ∨ r.getType = .float) ∨ (l.getType = .int ∨ r.getType = .int) := by
  obtain ⟨hl, hr, hne⟩ := h
  cases hl <;> cases hr <;> simp_all [Scalar.getType]

theorem not_mixed_of_sameType (h : SameType l r) : ¬Mixed l r := by
  rintro ⟨-, -, hne⟩
  cases h <;> exact hne rfl

/-- The operators agree on two values of one type, and on two numbers, exactly when single
precision keeps apart what are different doubles. -/
theorem comparisons_agree_iff (l r : Scalar) (h : SameType l r ∨ Mixed l r) :
    Agree l r ↔ SinglesApart l r := by
  rcases h with hsame | hmixed
  · have hagree : Agree l r ↔ Trichotomy l r :=
      ⟨fun h => h.1 hsame, fun h => ⟨fun _ => h, fun hm => absurd hm (not_mixed_of_sameType hsame)⟩⟩
    rw [hagree]
    cases hsame with
    | bool a b => exact iff_of_true (trichotomy_bool a b) (by simp [SinglesApart, Scalar.getType])
    | int a b => exact iff_of_true (trichotomy_int a b) (by simp [SinglesApart, Scalar.getType])
    | date a b => exact iff_of_true (trichotomy_date a b) (by simp [SinglesApart, Scalar.getType])
    | float a b ha hb =>
      rw [trichotomy_float_iff ha hb]
      simp [SinglesApart, Scalar.getType, Scalar.getAsFloat]
  · have hagree : Agree l r ↔ Antisymmetric l r :=
      ⟨fun h => h.2 hmixed, fun h => ⟨fun hs => absurd hmixed (not_mixed_of_sameType hs), fun _ => h⟩⟩
    rw [hagree]
    by_cases hf : l.getType = .float ∨ r.getType = .float
    · exact antisymmetric_float_iff hf
    · have hi := hmixed.float_or_int.resolve_left hf
      exact iff_of_true (antisymmetric_int hf hi) fun h => absurd h hf

theorem integral_of_le {n : Int} (h : n.natAbs ≤ 2 ^ 53) : Integral n := ⟨n, rfl, h⟩

theorem comparisons_agree_one_two :
    Mixed (.int 1) (.float 2) ∧ Agree (.int 1) (.float 2) := by
  have hmixed : Mixed (.int 1) (.float 2) :=
    ⟨.int 1, .float 2 (integral_of_le (n := 2) (by decide)), by decide⟩
  have hone : (Scalar.int 1).getAsFloat = (1 : Int) :=
    congrArg (Int.cast (R := Rat)) (show roundSig 53 (1 : Int64).toInt = 1 by decide)
  refine ⟨hmixed, (comparisons_agree_iff _ _ (.inr hmixed)).2 ?_⟩
  exact singlesApart_of_le hone (n := 2) rfl (by decide) (by decide)

/-- `16777216.0 <=> 16777217.0` is 0. -/
theorem comparisons_disagree : ¬∀ l r : Scalar, SameType l r ∨ Mixed l r → Agree l r := by
  intro h
  have ha : Integral (16777216 : Int) := integral_of_le (by decide)
  have hb : Integral (16777217 : Int) := integral_of_le (by decide)
  have hsame := SameType.float _ _ ha hb
  have htri := (h _ _ (.inl hsame)).1 hsame
  have hsingle : toSingle (16777216 : Int) = toSingle (16777217 : Int) := by
    rw [toSingle_intCast, toSingle_intCast]
    exact congrArg _ (show roundSig 24 16777216 = roundSig 24 16777217 by decide)
  have heq := (trichotomy_float_iff ha hb).1 htri hsingle
  exact absurd (Rat.intCast_inj.1 heq) (by decide)

end Qore.Ops
