import Mathlib.Data.List.Forall2
import Qore.Types.Parse

/-!
# `Qore.Types.Equal`: equality of types

`QoreTypeInfo::equal` compares the accept and return lists of two types, and the element types of
complex types in the same way. Types that parse texts into binary values have equal lists, so
different types can be equal; equality is an equivalence all the same.

* `Ty.equal_symm`, `Ty.equal_trans`: equality is symmetric and transitive.
-/

set_option autoImplicit false

namespace Qore.Types

/-! ### Element types -/

/-- The element type of a complex type. -/
def Ty.element? : Ty → Option Ty
  | complexHash vti _ => some vti
  | complexList vti _ => some vti
  | complexSoftList vti _ => some vti
  | _ => none

/-- The element type of a specification. -/
def TypeSpec.element? : TypeSpec → Option Ty
  | complexHash ti => some ti
  | complexList ti => some ti
  | complexSoftList ti => some ti
  | _ => none

/-- Induction over the element types. -/
theorem Ty.element_induction {P : Ty → Prop}
    (step : ∀ ti : Ty, (∀ vti, ti.element? = some vti → P vti) → P ti) (ti : Ty) : P ti := by
  induction ti with
  | complexHash vti on ih | complexList vti on ih | complexSoftList vti on ih =>
    refine step _ ?_
    rintro _ ⟨⟩
    exact ih
  | _ => exact step _ (by simp [element?])

/-- The specifications of the accept list. -/
def Ty.acceptSpecs (ti : Ty) : List TypeSpec := ti.accepts.map (·.spec)

/-- The specifications of the return list. -/
def Ty.returnSpecs (ti : Ty) : List TypeSpec := ti.returns.map (·.spec)

/-- A type names its own element type only. -/
def Ty.ownElement (ti : Ty) (spec : TypeSpec) : Bool :=
  match spec.element? with
  | none => true
  | some vti => ti.element? = some vti

/-- The specifications of a type name its own element type. -/
theorem Ty.specs_ownElement (ti : Ty) :
    ∀ spec ∈ ti.acceptSpecs ++ ti.returnSpecs, ti.ownElement spec = true := by
  have hall : (ti.acceptSpecs ++ ti.returnSpecs).all ti.ownElement = true := by
    cases ti with
    | simple s on => cases s <;> cases on <;> rfl
    | complexSoftList vti on => cases vti <;> cases on <;> simp [acceptSpecs, returnSpecs,
        Ty.accepts, Ty.returns, returnVec, orNothingAccepts, orNothingReturns, Ty.ownElement,
        TypeSpec.element?, Ty.element?, AcceptSpec.plain, AcceptSpec.mapped]
    | hashDecl _ on | cls _ on | complexHash _ on | complexList _ on =>
      cases on <;> simp [acceptSpecs, returnSpecs, Ty.accepts, Ty.returns, returnVec,
        orNothingAccepts, orNothingReturns, Ty.ownElement, TypeSpec.element?, Ty.element?,
        AcceptSpec.plain, AcceptSpec.mapped]
    | _ => rfl
  exact List.all_eq_true.1 hall

theorem Ty.element?_of_mem {ti vti : Ty} {spec : TypeSpec}
    (h : spec ∈ ti.acceptSpecs ++ ti.returnSpecs) (hvti : spec.element? = some vti) :
    ti.element? = some vti := by
  have hown := ti.specs_ownElement spec h
  simpa only [ownElement, hvti, decide_eq_true_eq] using hown

/-- `QoreTypeInfo::equal` compares with the element type of the first type. -/
theorem Ty.equal_eq (ti : Ty) : ti.equal = ti.equalWith ti.elemEqual := by
  cases ti <;> rfl

theorem Ty.elemEqual_of_element? {ti vti : Ty} (h : ti.element? = some vti) :
    ti.elemEqual = vti.equal := by
  cases ti with
  | complexHash _ _ | complexList _ _ | complexSoftList _ _ =>
    simp only [element?, Option.some.injEq] at h
    rw [← h]
    rfl
  | _ => simp [element?] at h

/-! ### Equal specifications -/

/-- `QoreTypeSpec::operator==`. -/
def TypeSpec.Equal : TypeSpec → TypeSpec → Prop
  | .complexHash a, .complexHash b => a.equal b
  | .complexList a, .complexList b => a.equal b
  | .complexSoftList a, .complexSoftList b => a.equal b
  | a, b => a = b

/-- The specifications of two lists are equal one by one. -/
abbrev SpecsEqual : List TypeSpec → List TypeSpec → Prop := List.Forall₂ TypeSpec.Equal

variable {a b : TypeSpec}

theorem TypeSpec.eq_of_equal (ha : a.element? = none) (h : a.Equal b) : a = b := by
  cases a with
  | complexHash _ | complexList _ | complexSoftList _ => simp [element?] at ha
  | _ => simpa only [TypeSpec.Equal] using h

theorem TypeSpec.equal_iff {elem : Ty → Bool}
    (helem : ∀ vti, a.element? = some vti → elem = vti.equal) (b : TypeSpec) :
    a.equal elem b = true ↔ a.Equal b := by
  cases a with
  | complexHash vti | complexList vti | complexSoftList vti =>
    have hvti := helem vti rfl
    cases b <;> simp [TypeSpec.equal, TypeSpec.Equal, hvti]
  | _ => cases b <;> simp [TypeSpec.equal, TypeSpec.Equal]

theorem specsEqual_iff {elem : Ty → Bool} (as : List TypeSpec)
    (helem : ∀ a ∈ as, ∀ vti, a.element? = some vti → elem = vti.equal) (bs : List TypeSpec) :
    specsEqual elem as bs = true ↔ SpecsEqual as bs := by
  induction as generalizing bs with
  | nil => cases bs <;> simp [specsEqual]
  | cons a as ih =>
    cases bs with
    | nil => simp [specsEqual]
    | cons b bs =>
      have hhead := TypeSpec.equal_iff (helem a (by simp)) b
      have htail := ih (fun a' ha' => helem a' (by simp [ha'])) bs
      simp only [specsEqual, Bool.and_eq_true, hhead, htail, List.forall₂_cons]

/-- What `QoreTypeInfo::equal` decides: two types are the same, have equal specifications, or are
both unknown. -/
theorem Ty.equal_iff (a b : Ty) :
    a.equal b = true ↔ a = b ∨
      (hasType (some a) = true ∧ hasType (some b) = true ∧
        SpecsEqual a.acceptSpecs b.acceptSpecs ∧ SpecsEqual a.returnSpecs b.returnSpecs) ∨
      (hasType (some a) = false ∧ hasType (some b) = false) := by
  have helem : ∀ spec ∈ a.acceptSpecs ++ a.returnSpecs, ∀ vti, spec.element? = some vti →
      a.elemEqual = vti.equal :=
    fun spec hspec vti hvti => elemEqual_of_element? (element?_of_mem hspec hvti)
  have haccepts := specsEqual_iff a.acceptSpecs
    (fun spec hspec => helem spec (List.mem_append_left _ hspec)) b.acceptSpecs
  have hreturns := specsEqual_iff a.returnSpecs
    (fun spec hspec => helem spec (List.mem_append_right _ hspec)) b.returnSpecs
  rw [equal_eq, equalWith, ← haccepts, ← hreturns]
  by_cases heq : a = b
  · simp [heq]
  · simp only [heq, false_or]
    cases hasType (some a) <;> cases hasType (some b) <;>
      simp [acceptSpecs, returnSpecs]

theorem Ty.equal_refl (ti : Ty) : ti.equal ti = true := (equal_iff ti ti).2 (.inl rfl)

/-! ### Equality is an equivalence -/

/-- Equality of types is symmetric and transitive from a type on. -/
def Ty.EqualLaws (a : Ty) : Prop :=
  (∀ b, a.equal b = true → b.equal a = true) ∧
    ∀ b c, a.equal b = true → b.equal c = true → a.equal c = true

theorem TypeSpec.Equal.symm (hlaws : ∀ vti, a.element? = some vti → vti.EqualLaws) (h : a.Equal b) :
    b.Equal a := by
  cases a with
  | complexHash vti | complexList vti | complexSoftList vti =>
    have hsymm := (hlaws vti rfl).1
    cases b <;> simp only [TypeSpec.Equal, reduceCtorEq] at h ⊢
    exact hsymm _ h
  | _ => cases b <;> simp_all [TypeSpec.Equal]

theorem TypeSpec.Equal.trans {c : TypeSpec} (hlaws : ∀ vti, a.element? = some vti → vti.EqualLaws)
    (hab : a.Equal b) (hbc : b.Equal c) :
    a.Equal c := by
  cases a with
  | complexHash vti | complexList vti | complexSoftList vti =>
    have htrans := (hlaws vti rfl).2
    cases b <;> simp only [TypeSpec.Equal, reduceCtorEq] at hab
    cases c <;> simp only [TypeSpec.Equal, reduceCtorEq] at hbc ⊢
    exact htrans _ _ hab hbc
  | _ => cases b <;> cases c <;> simp_all [TypeSpec.Equal]

theorem SpecsEqual.symm {as bs : List TypeSpec}
    (hlaws : ∀ a ∈ as, ∀ vti, a.element? = some vti → vti.EqualLaws) (h : SpecsEqual as bs) :
    SpecsEqual bs as := by
  induction h with
  | nil => exact .nil
  | cons hab _ ih =>
    refine .cons (hab.symm (hlaws _ (by simp))) (ih fun a ha => hlaws a (by simp [ha]))

theorem SpecsEqual.trans {as bs cs : List TypeSpec}
    (hlaws : ∀ a ∈ as, ∀ vti, a.element? = some vti → vti.EqualLaws) (h : SpecsEqual as bs)
    (h' : SpecsEqual bs cs) : SpecsEqual as cs := by
  induction h generalizing cs with
  | nil => exact h'
  | cons hab _ ih =>
    obtain ⟨c, cs, hbc, hrest, rfl⟩ := List.forall₂_cons_left_iff.1 h'
    exact .cons (hab.trans (hlaws _ (by simp)) hbc) (ih (fun a ha => hlaws a (by simp [ha])) hrest)

/-- The comparison of a type only looks at types like it and at element types. -/
theorem Ty.equalLaws (a : Ty) : a.EqualLaws := by
  induction a using Ty.element_induction with
  | step a ih =>
    have hlaws : ∀ spec ∈ a.acceptSpecs ++ a.returnSpecs, ∀ vti, spec.element? = some vti →
        vti.EqualLaws := fun spec hspec vti hvti => ih vti (element?_of_mem hspec hvti)
    have haccepts := fun spec hspec => hlaws spec (List.mem_append_left _ hspec)
    have hreturns := fun spec hspec => hlaws spec (List.mem_append_right _ hspec)
    refine ⟨fun b hab => ?_, fun b c hab hbc => ?_⟩
    · rw [equal_iff] at hab ⊢
      obtain rfl | ⟨ha, hb, hacc, hret⟩ | ⟨ha, hb⟩ := hab
      · exact .inl rfl
      · exact .inr (.inl ⟨hb, ha, hacc.symm haccepts, hret.symm hreturns⟩)
      · exact .inr (.inr ⟨hb, ha⟩)
    · rw [equal_iff] at hab hbc ⊢
      obtain rfl | ⟨ha, hb, hacc, hret⟩ | ⟨ha, hb⟩ := hab
      · exact hbc
      · obtain rfl | ⟨-, hc, hacc', hret'⟩ | ⟨hb', -⟩ := hbc
        · exact .inr (.inl ⟨ha, hb, hacc, hret⟩)
        · exact .inr (.inl ⟨ha, hc, hacc.trans haccepts hacc', hret.trans hreturns hret'⟩)
        · simp [hb] at hb'
      · obtain rfl | ⟨hb', -⟩ | ⟨-, hc⟩ := hbc
        · exact .inr (.inr ⟨ha, hb⟩)
        · simp [hb] at hb'
        · exact .inr (.inr ⟨ha, hc⟩)

theorem Ty.equal_symm {a b : Ty} (h : a.equal b = true) : b.equal a = true := a.equalLaws.1 b h

theorem Ty.equal_trans {a b c : Ty} (hab : a.equal b = true) (hbc : b.equal c = true) :
    a.equal c = true := a.equalLaws.2 b c hab hbc

/-- Equal types are both known or both unknown. -/
theorem Ty.hasType_of_equal {a b : Ty} (h : a.equal b = true) :
    hasType (some a) = hasType (some b) := by
  obtain rfl | ⟨ha, hb, -, -⟩ | ⟨ha, hb⟩ := (equal_iff a b).1 h
  · rfl
  · rw [ha, hb]
  · rw [ha, hb]

/-- A pointer to a type is equal to another one when both are equal to a third. -/
theorem typesEqual_of_equal {a b : Ty} {c : Option Ty} (hab : a.equal b = true)
    (hac : typesEqual (some a) c = true) : typesEqual (some b) c = true := by
  cases c with
  | none => simpa only [typesEqual, Ty.hasType_of_equal hab] using hac
  | some c => exact Ty.equal_trans (Ty.equal_symm hab) hac

end Qore.Types
