import Qore.Ops.Compare
import Qore.Types.Parse

/-!
# `Qore.Ops.Specialise`: comparison operators with known operand types

When a program is parsed, `==` and `<` look at the declared types of their operands and may install
an evaluator for one number type in `pfunc`. The evaluator is chosen when one operand has the type
alone, whatever else the other operand may be at run time.

* `specialised_agree_iff`: for two declared types the installed evaluators agree with the generic
  ones on all values of the types exactly when no type that ranks higher at run time is overlooked.
-/

set_option autoImplicit false

namespace Qore.Ops

open Qore.Types

/-- The evaluators of `QoreLogicalEqualsOperatorNode`. -/
inductive EqualsFunc
  | floatSoftEqual
  | bigIntSoftEqual
  | boolSoftEqual
  deriving DecidableEq

/-- The evaluators of `QoreLogicalLessThanOperatorNode`. -/
inductive LessThanFunc
  | floatLessThan
  | bigIntLessThan
  deriving DecidableEq

/-- The value an evaluator returns. -/
def EqualsFunc.eval : EqualsFunc → Scalar → Scalar → Bool
  | floatSoftEqual, l, r => l.getAsFloat = r.getAsFloat
  | bigIntSoftEqual, l, r => l.getAsBigInt = r.getAsBigInt
  | boolSoftEqual, l, r => l.getAsBool = r.getAsBool

/-- The value an evaluator returns. -/
def LessThanFunc.eval : LessThanFunc → Scalar → Scalar → Bool
  | floatLessThan, l, r => l.getAsFloat < r.getAsFloat
  | bigIntLessThan, l, r => l.getAsBigInt < r.getAsBigInt

section
variable (env : ParseEnv) (lti rti : Option Ty) {ti : Option Ty} {t : NT} {v : Scalar}

/-- A type may return a run-time type. -/
def mayReturn (ti : Option Ty) (t : NT) : Bool := parseReturns env ti t ≠ .notEqual

/-- One of the operands may be of a run-time type. -/
def EitherMay (t : NT) : Prop := mayReturn env lti t ∨ mayReturn env rti t

/-- One of the operands is always of a run-time type. -/
def EitherIs (t : NT) : Prop := isType lti t ∨ isType rti t

instance (t : NT) : Decidable (EitherMay env lti rti t) := inferInstanceAs (Decidable (_ ∨ _))

instance (t : NT) : Decidable (EitherIs lti rti t) := inferInstanceAs (Decidable (_ ∨ _))

/-- The assignment of `pfunc` in `QoreLogicalEqualsOperatorNode::parseInitImpl`. -/
def equalsPfunc : Option EqualsFunc :=
  if !mayReturn env lti .string && !mayReturn env rti .string &&
      !mayReturn env lti .number && !mayReturn env rti .number then
    if EitherIs lti rti .float then some .floatSoftEqual
    else if EitherIs lti rti .int then some .bigIntSoftEqual
    else if EitherIs lti rti .boolean then some .boolSoftEqual
    else none
  else none

/-- The assignment of `pfunc` in `QoreLogicalLessThanOperatorNode::parseInitIntern`. -/
def lessThanPfunc : Option LessThanFunc :=
  if !isType lti .number && !isType rti .number then
    if EitherIs lti rti .float then some .floatLessThan
    else if hasType lti && hasType rti then
      if isType lti .int && isType rti .int then some .bigIntLessThan else none
    else none
  else none

/-- The value of `==` for operands with these declared types. -/
def evalEquals (l r : Scalar) : Bool :=
  match equalsPfunc env lti rti with
  | some f => f.eval l r
  | none => softEqual l r

/-- The value of `<` for operands with these declared types. -/
def evalLessThan (l r : Scalar) : Bool :=
  match lessThanPfunc lti rti with
  | some f => f.eval l r
  | none => doLessThan l r

/-- A run-time value of a declared type. -/
def Admits : Option Ty → Scalar → Prop
  | none, _ => True
  | some ti, v => ti.Returns .all ∨ ti.Returns v.getType

/-- The installed evaluators give the results of the generic ones. -/
def SpecialisedAgree : Prop :=
  ∀ l r, Admits lti l → Admits rti r →
    evalEquals env lti rti l r = softEqual l r ∧ evalLessThan lti rti l r = doLessThan l r

/-- No higher type is overlooked: beside an integer there is no float, beside a boolean neither an
integer nor a float. Types that may return a string or a number, and floats, are safe. -/
def NoneOverlooked : Prop :=
  ¬EitherMay env lti rti .string → ¬EitherMay env lti rti .number → ¬EitherIs lti rti .float →
    (EitherIs lti rti .int → ¬EitherMay env lti rti .float) ∧
    (¬EitherIs lti rti .int → EitherIs lti rti .boolean →
      ¬EitherMay env lti rti .float ∧ ¬EitherMay env lti rti .int)

/-! ### What the types say about values -/

theorem getType_of_isType (ht : t ≠ .all) (his : isType ti t) (hv : Admits ti v) :
    v.getType = t := by
  cases ti with
  | none => simp [isType] at his
  | some ti =>
    obtain ⟨r, heq, hr⟩ := (isType_iff ti t).1 his
    have honly (t' : NT) : ti.Returns t' → t' = t := by
      rintro ⟨r', hr', rfl⟩
      rw [heq, List.mem_singleton] at hr'
      rw [hr', hr]
    rcases hv with hv | hv
    · exact absurd (honly _ hv).symm ht
    · exact honly _ hv

variable {env lti rti} {l r : Scalar}

theorem hasType_of_not_mayReturn (h : ¬mayReturn env ti t) : hasType ti = true := by
  cases ti with
  | none => simp [mayReturn, parseReturns] at h
  | some ti =>
    by_contra htype
    rw [Bool.not_eq_true] at htype
    simp [mayReturn, parseReturns, htype] at h

/-- With a known type the values have the run-time types it may return. -/
theorem mayReturn_of_admits (htype : hasType ti) (hv : Admits ti v) :
    mayReturn env ti v.getType := by
  cases ti with
  | none => simp [hasType] at htype
  | some ti =>
    have hall : v.getType ≠ .all := by cases v <;> simp [Scalar.getType]
    have hne := (parseReturns_ne_iff env ti hall).2
    rcases hv with ⟨r, hr, hspec⟩ | hv
    · exact absurd hspec (getType_ne_all htype hr)
    · simpa [mayReturn] using hne (.inr hv)

/-- A run-time type that may be returned has all its values. -/
theorem admits_of_mayReturn (htype : hasType ti) (h : mayReturn env ti v.getType) :
    Admits ti v := by
  cases ti with
  | none => trivial
  | some ti =>
    have hall : v.getType ≠ .all := by cases v <;> simp [Scalar.getType]
    have hne : parseReturns env (some ti) v.getType ≠ .notEqual := by simpa [mayReturn] using h
    rcases (parseReturns_ne_iff env ti hall).1 hne with h | h
    · rw [htype] at h
      simp at h
    · exact .inr h

theorem admits_of_isType (h : isType ti v.getType) : Admits ti v := by
  cases ti with
  | none => trivial
  | some ti =>
    obtain ⟨r, heq, hr⟩ := (isType_iff ti _).1 h
    refine .inr ⟨r, ?_, hr⟩
    rw [heq]
    exact List.mem_singleton_self r

/-- One operand always of a type is of the type at run time. -/
theorem EitherIs.getType (ht : t ≠ .all) (h : EitherIs lti rti t) (hl : Admits lti l)
    (hr : Admits rti r) : l.getType = t ∨ r.getType = t :=
  h.imp (fun h => getType_of_isType ht h hl) fun h => getType_of_isType ht h hr

/-- A type that neither operand may have does not occur at run time. -/
theorem getType_ne_of_not_eitherMay (h : ¬EitherMay env lti rti t) (hl : Admits lti l)
    (hr : Admits rti r) : ¬(l.getType = t ∨ r.getType = t) := by
  simp only [EitherMay, not_or] at h
  rintro (rfl | rfl)
  · exact h.1 (mayReturn_of_admits (hasType_of_not_mayReturn h.1) hl)
  · exact h.2 (mayReturn_of_admits (hasType_of_not_mayReturn h.2) hr)

/-! ### The evaluators -/

theorem evalLessThan_eq (hl : Admits lti l) (hr : Admits rti r) :
    evalLessThan lti rti l r = doLessThan l r := by
  cases hfunc : lessThanPfunc lti rti with
  | none => simp only [evalLessThan, hfunc]
  | some f =>
    have heval : evalLessThan lti rti l r = f.eval l r := by simp only [evalLessThan, hfunc]
    rw [heval]
    unfold lessThanPfunc at hfunc
    split at hfunc
    · split at hfunc
      · next hfloat =>
        -- A float decides in both evaluators.
        cases hfunc
        simp only [doLessThan, LessThanFunc.eval, hfloat.getType (by decide) hl hr, if_true]
      · split at hfunc
        · split at hfunc
          · next hint =>
            cases hfunc
            rw [Bool.and_eq_true] at hint
            have hlt := getType_of_isType (by decide) hint.1 hl
            have hrt := getType_of_isType (by decide) hint.2 hr
            simp [doLessThan, LessThanFunc.eval, hlt, hrt]
          · simp at hfunc
        · simp at hfunc
    · simp at hfunc

/-- The types that let `parseInitImpl` look at the numbers. -/
theorem equalsPfunc_eq (hs : ¬EitherMay env lti rti .string) (hn : ¬EitherMay env lti rti .number) :
    equalsPfunc env lti rti =
      if EitherIs lti rti .float then some .floatSoftEqual
      else if EitherIs lti rti .int then some .bigIntSoftEqual
      else if EitherIs lti rti .boolean then some .boolSoftEqual
      else none := by
  simp only [EitherMay, not_or, Bool.not_eq_true] at hs hn
  unfold equalsPfunc
  rw [hs.1, hs.2, hn.1, hn.2]
  rfl

theorem equalsPfunc_eq_none (h : EitherMay env lti rti .string ∨ EitherMay env lti rti .number) :
    equalsPfunc env lti rti = none := by
  unfold equalsPfunc EitherMay at *
  rcases h with (h | h) | (h | h) <;> simp [h]

theorem evalEquals_eq (hcond : NoneOverlooked env lti rti) (hl : Admits lti l) (hr : Admits rti r) :
    evalEquals env lti rti l r = softEqual l r := by
  by_cases hsn : EitherMay env lti rti .string ∨ EitherMay env lti rti .number
  · simp only [evalEquals, equalsPfunc_eq_none hsn]
  · rw [not_or] at hsn
    have hpfunc := equalsPfunc_eq hsn.1 hsn.2
    by_cases hfloat : EitherIs lti rti .float
    · rw [if_pos hfloat] at hpfunc
      simp only [evalEquals, hpfunc, EqualsFunc.eval, softEqual,
        hfloat.getType (by decide) hl hr, if_true]
    · obtain ⟨hint, hbool⟩ := hcond hsn.1 hsn.2 hfloat
      rw [if_neg hfloat] at hpfunc
      by_cases hi : EitherIs lti rti .int
      · rw [if_pos hi] at hpfunc
        have hnofloat := getType_ne_of_not_eitherMay (hint hi) hl hr
        simp only [evalEquals, hpfunc, EqualsFunc.eval, softEqual, hnofloat,
          hi.getType (by decide) hl hr, if_true, if_false]
      · rw [if_neg hi] at hpfunc
        by_cases hb : EitherIs lti rti .boolean
        · rw [if_pos hb] at hpfunc
          have hnofloat := getType_ne_of_not_eitherMay (hbool hi hb).1 hl hr
          have hnoint := getType_ne_of_not_eitherMay (hbool hi hb).2 hl hr
          simp only [evalEquals, hpfunc, EqualsFunc.eval, softEqual, hnofloat, hnoint,
            hb.getType (by decide) hl hr, if_true, if_false]
        · rw [if_neg hb] at hpfunc
          simp only [evalEquals, hpfunc]

/-- A float that is equal to 1 as an integer only. -/
def oneAndHalf : Rat := ⟨3, 2, by decide, by decide⟩

/-- A type that returns one run-time type only may not return another. -/
theorem not_mayReturn_of_isType {t' : NT} (htype : hasType ti) (h : isType ti t) (ht' : t' ≠ .all)
    (hne : t ≠ t') : ¬mayReturn env ti t' := by
  cases ti with
  | none => simp [hasType] at htype
  | some ti =>
    intro hmay
    have hret : parseReturns env (some ti) t' ≠ .notEqual := by simpa [mayReturn] using hmay
    obtain ⟨r, heq, hr⟩ := (isType_iff ti t).1 h
    rcases (parseReturns_ne_iff env ti ht').1 hret with hno | ⟨r', hr', hspec⟩
    · rw [htype] at hno
      simp at hno
    · rw [heq, List.mem_singleton] at hr'
      rw [hr', hr] at hspec
      exact hne hspec

/-- When one operand always has the type of `v` and the other may have the type of `w`, one order
of the two values is admitted. -/
theorem eval_eq_of_agree (hagree : SpecialisedAgree env lti rti) (hl : hasType lti)
    (hr : hasType rti) {w : Scalar} (his : EitherIs lti rti v.getType)
    (hmay : EitherMay env lti rti w.getType) (hne : v.getType ≠ w.getType) :
    evalEquals env lti rti v w = softEqual v w ∨ evalEquals env lti rti w v = softEqual w v := by
  have hall : w.getType ≠ .all := by cases w <;> simp [Scalar.getType]
  rcases his with his | his
  · have hw := hmay.resolve_left (not_mayReturn_of_isType hl his hall hne)
    exact .inl (hagree v w (admits_of_isType his) (admits_of_mayReturn hr hw)).1
  · have hw := hmay.resolve_right (not_mayReturn_of_isType hr his hall hne)
    exact .inr (hagree w v (admits_of_mayReturn hl hw) (admits_of_isType his)).1

theorem noneOverlooked_of_agree (hagree : SpecialisedAgree env lti rti) :
    NoneOverlooked env lti rti := by
  intro hs hn hfloat
  have hl : hasType lti := hasType_of_not_mayReturn fun h => hs (.inl h)
  have hr : hasType rti := hasType_of_not_mayReturn fun h => hs (.inr h)
  have hpfunc := equalsPfunc_eq hs hn
  rw [if_neg hfloat] at hpfunc
  -- An installed evaluator that is wrong on two values in both orders cannot see their types.
  have hwrong (f : EqualsFunc) (hf : equalsPfunc env lti rti = some f) (v w : Scalar)
      (hne : v.getType ≠ w.getType) (his : EitherIs lti rti v.getType)
      (hvw : f.eval v w ≠ softEqual v w) (hwv : f.eval w v ≠ softEqual w v) :
      ¬EitherMay env lti rti w.getType := by
    intro hmay
    have heval := eval_eq_of_agree hagree hl hr his hmay hne
    simp only [evalEquals, hf] at heval
    exact heval.elim hvw hwv
  constructor
  · intro hint
    rw [if_pos hint] at hpfunc
    exact hwrong _ hpfunc (.int 1) (.float oneAndHalf) (by decide) hint (by decide) (by decide)
  · intro hint hbool
    rw [if_neg hint, if_pos hbool] at hpfunc
    exact ⟨hwrong _ hpfunc (.bool true) (.float 2) (by decide) hbool (by decide) (by decide),
      hwrong _ hpfunc (.bool true) (.int 2) (by decide) hbool (by decide) (by decide)⟩

end

/-- For two declared types the installed evaluators of `==` and `<` agree with the generic ones on
all values of the types exactly when no higher type is overlooked. -/
theorem specialised_agree_iff (env : ParseEnv) (lti rti : Option Ty) :
    SpecialisedAgree env lti rti ↔ NoneOverlooked env lti rti :=
  ⟨noneOverlooked_of_agree,
    fun h _ _ hl hr => ⟨evalEquals_eq h hl hr, evalLessThan_eq hl hr⟩⟩

/-- `int == *float` compares as integers: `1 == 1.5` is true. -/
theorem specialised_int_disagrees :
    ¬∀ (env : ParseEnv) (lti rti : Option Ty), SpecialisedAgree env lti rti := by
  intro h
  have hagree := h ⟨false, fun _ _ => (.notEqual, false)⟩ (some (.simple .int false))
    (some (.simple .float true))
  have hl : Admits (some (.simple .int false)) (.int 1) :=
    .inr ⟨⟨.type .int, true⟩, by decide, rfl⟩
  have hr : Admits (some (.simple .float true)) (.float oneAndHalf) :=
    .inr ⟨⟨.type .float, false⟩, by decide, rfl⟩
  exact absurd (hagree _ _ hl hr).1 (by decide)

end Qore.Ops
