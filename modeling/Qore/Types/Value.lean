import Qore.Date.Compare
import Qore.Types.Equal

/-!
# `Qore.Types.Value`: run-time values and their types

A list or a hash carries the type it was created or folded with (`complexTypeInfo`), a hash may
also carry a hashdecl. A value is an instance of a declared type when one of the specifications the
type returns describes it and every typed container in it holds what its own type says.

* `Ty.describes_of_equal`: types that `QoreTypeInfo::equal` identifies describe the same values.
* `Value.wellTyped_strip`: a copy without complex types is well typed.
-/

set_option autoImplicit false

namespace Qore.Types

open Qore.Date

/-- `QoreValue` and the nodes it refers to. An object has its class and the classes this is derived
from, and is not `valid` once it is deleted. `unique` says whether a list or a hash is referenced
once. A weak reference shows the object, list or hash it refers to. -/
inductive Value
  | nothing
  | null
  | bool (b : Bool)
  | int (i : Int64)
  | float (f : Rat)
  | number (x : Rat)
  | string (s : String)
  | date (d : DateTime)
  | binary (bytes : List UInt8)
  | closure (id : Nat)
  | callref (id : Nat)
  | object (qc : Nat) (bases : List Nat) (valid : Bool)
  | list (unique : Bool) (complexTypeInfo : Option Ty) (entry : List Value)
  | hash (unique : Bool) (hashdecl : Option Nat) (complexTypeInfo : Option Ty)
      (members : List (String × Value))
  | weakObject (qc : Nat) (bases : List Nat) (valid : Bool)
  | weakList (unique : Bool) (complexTypeInfo : Option Ty) (entry : List Value)
  | weakHash (unique : Bool) (hashdecl : Option Nat) (complexTypeInfo : Option Ty)
      (members : List (String × Value))

/-- `QoreValue::getType`. -/
def Value.getType : Value → NT
  | nothing => .nothing
  | null => .null
  | bool _ => .boolean
  | int _ => .int
  | float _ => .float
  | number _ => .number
  | string _ => .string
  | date _ => .date
  | binary _ => .binary
  | closure _ => .runtimeClosure
  | callref _ => .funcref
  | object .. => .object
  | list .. => .list
  | hash .. => .hash
  | weakObject .. => .weakref
  | weakList .. => .weakrefList
  | weakHash .. => .weakrefHash

/-! ### Types of lists and hashes -/

/-- `QoreTypeSpec::getComplexList`. -/
def TypeSpec.getComplexList : TypeSpec → Option Ty
  | complexList ti => some ti
  | complexSoftList ti => some ti
  | _ => none

/-- `QoreTypeSpec::getComplexHash`. -/
def TypeSpec.getComplexHash : TypeSpec → Option Ty
  | complexHash ti => some ti
  | _ => none

/-- The first specification of the return list of a known type. -/
def Ty.firstReturn (ti : Ty) : Option TypeSpec :=
  if hasType (some ti) then ti.returns.head?.map (·.spec) else none

/-- `QoreTypeInfo::getComplexListValueType`. -/
def getComplexListValueType (ti : Ty) : Option Ty := ti.firstReturn.bind (·.getComplexList)

/-- `QoreTypeInfo::getComplexHashValueType`. -/
def getComplexHashValueType (ti : Ty) : Option Ty := ti.firstReturn.bind (·.getComplexHash)

/-- `qore_list_private::getValueTypeInfo`, from the `complexTypeInfo` of the list. -/
def listValueType (complexTypeInfo : Option Ty) : Option Ty :=
  complexTypeInfo.bind getComplexListValueType

/-- `qore_hash_private::getValueTypeInfo`, from the `complexTypeInfo` of the hash. -/
def hashValueType (complexTypeInfo : Option Ty) : Option Ty :=
  complexTypeInfo.bind getComplexHashValueType

/-- `qore_hash_private::getTypeInfo`. -/
def hashTypeInfo (hashdecl : Option Nat) (complexTypeInfo : Option Ty) : Ty :=
  match hashdecl with
  | some hd => .hashDecl hd false
  | none => complexTypeInfo.getD (.simple .hash false)

/-- `getTypeInfoForValue`. -/
def Value.getTypeInfo : Value → Option Ty
  | object qc _ _ => some (.cls qc false)
  | weakObject qc _ _ => some (.cls qc false)
  | hash _ hd cti _ => some (hashTypeInfo hd cti)
  | weakHash _ hd cti _ => some (hashTypeInfo hd cti)
  | list _ cti _ => some (cti.getD (.simple .list false))
  | weakList _ cti _ => some (cti.getD (.simple .list false))
  | v => getTypeInfoForType v.getType

/-! ### Copies without type information -/

/-- `has_complex_type`. -/
def Value.hasComplexType : Value → Bool
  | list _ cti _ => listValueType cti ≠ none ∧ listValueType cti ≠ some .any
  | hash _ hd cti _ => hd.isSome ∨ hashValueType cti ≠ none ∧ hashValueType cti ≠ some .any
  | _ => false

mutual

/-- `copy_strip_complex_types`. A container without a complex type holds no complex types. -/
def Value.strip : Value → Value
  | .list u cti es =>
    if (Value.list u cti es).hasComplexType then .list true none (Value.stripList es)
    else .list u cti es
  | .hash u hd cti kvs =>
    if (Value.hash u hd cti kvs).hasComplexType then .hash true none none (Value.stripMembers kvs)
    else .hash u hd cti kvs
  | v => v

/-- The loop of `do_copy_strip` over a list. -/
def Value.stripList : List Value → List Value
  | [] => []
  | v :: vs => v.strip :: Value.stripList vs

/-- The loop of `do_copy_strip` over a hash. -/
def Value.stripMembers : List (String × Value) → List (String × Value)
  | [] => []
  | kv :: kvs => Value.stripMember kv :: Value.stripMembers kvs

/-- One member of a hash. -/
def Value.stripMember : String × Value → String × Value
  | (k, v) => (k, v.strip)

end

@[simp] theorem Value.getType_strip (v : Value) : v.strip.getType = v.getType := by
  cases v with
  | list u cti es =>
    rw [Value.strip]
    split <;> rfl
  | hash u hd cti kvs =>
    rw [Value.strip]
    split <;> rfl
  | _ => simp only [Value.strip]

/-! ### Instances -/

/-- A value is described by a specification. The elements of an unknown type may be anything, so a
`list<auto>` is any list; otherwise the container has the element type. -/
def TypeSpec.Describes : TypeSpec → Value → Prop
  | .type t, v => t = .all ∨ v.getType = t
  | .cls qc, v => ∃ c bases valid, v = .object c bases valid ∧ (qc = c ∨ qc ∈ bases)
  | .hashDecl hd, v => ∃ u cti kvs, v = .hash u (some hd) cti kvs
  | .complexHash ti, v =>
    ∃ u hd cti kvs, v = .hash u hd cti kvs ∧
      (hasType (some ti) = false ∨ typesEqual (some ti) (hashValueType cti) = true)
  | .complexList ti, v | .complexSoftList ti, v =>
    ∃ u cti es, v = .list u cti es ∧
      (hasType (some ti) = false ∨ typesEqual (some ti) (listValueType cti) = true)
  | .emptyList, v => ∃ u cti, v = .list u cti []
  | .emptyHash, v => ∃ u hd cti, v = .hash u hd cti []

/-- A value is described by one of the specifications a type returns. -/
def Ty.Describes (ti : Ty) (v : Value) : Prop := ∃ spec ∈ ti.returnSpecs, spec.Describes v

mutual

/-- A container is described by its own type, and its elements by its element type. -/
def Value.WellTyped : Value → Prop
  | .list u cti es =>
    (∀ ti, cti = some ti → ti.Describes (.list u cti es)) ∧
      (∀ vti, listValueType cti = some vti → ∀ e ∈ es, vti.Describes e) ∧ Value.WellTypedList es
  | .hash u hd cti kvs =>
    (hashTypeInfo hd cti).Describes (.hash u hd cti kvs) ∧
      (∀ vti, hashValueType cti = some vti → ∀ kv ∈ kvs, vti.Describes kv.2) ∧
        Value.WellTypedMembers kvs
  | _ => True

/-- The elements of a list are well typed. -/
def Value.WellTypedList : List Value → Prop
  | [] => True
  | v :: vs => v.WellTyped ∧ Value.WellTypedList vs

/-- The members of a hash are well typed. -/
def Value.WellTypedMembers : List (String × Value) → Prop
  | [] => True
  | kv :: kvs => Value.WellTypedMember kv ∧ Value.WellTypedMembers kvs

/-- One member of a hash. -/
def Value.WellTypedMember : String × Value → Prop
  | (_, v) => v.WellTyped

end

/-- A value is an instance of a type. -/
def Ty.Instance (ti : Ty) (v : Value) : Prop := ti.Describes v ∧ v.WellTyped

@[simp] theorem Value.wellTypedList_iff (vs : List Value) :
    Value.WellTypedList vs ↔ ∀ v ∈ vs, v.WellTyped := by
  induction vs with
  | nil => simp [Value.WellTypedList]
  | cons v vs ih => simp [Value.WellTypedList, ih]

@[simp] theorem Value.wellTypedMembers_iff (kvs : List (String × Value)) :
    Value.WellTypedMembers kvs ↔ ∀ kv ∈ kvs, kv.2.WellTyped := by
  induction kvs with
  | nil => simp [Value.WellTypedMembers]
  | cons kv kvs ih =>
    obtain ⟨k, v⟩ := kv
    simp [Value.WellTypedMembers, Value.WellTypedMember, ih]

theorem Value.wellTyped_list (u : Bool) (cti : Option Ty) (es : List Value) :
    (Value.list u cti es).WellTyped ↔
      (∀ ti, cti = some ti → ti.Describes (.list u cti es)) ∧
        (∀ vti, listValueType cti = some vti → ∀ e ∈ es, vti.Describes e) ∧
          ∀ e ∈ es, e.WellTyped := by
  rw [Value.WellTyped, wellTypedList_iff]

theorem Value.wellTyped_hash (u : Bool) (hd : Option Nat) (cti : Option Ty)
    (kvs : List (String × Value)) :
    (Value.hash u hd cti kvs).WellTyped ↔
      (hashTypeInfo hd cti).Describes (.hash u hd cti kvs) ∧
        (∀ vti, hashValueType cti = some vti → ∀ kv ∈ kvs, vti.Describes kv.2) ∧
          ∀ kv ∈ kvs, kv.2.WellTyped := by
  rw [Value.WellTyped, wellTypedMembers_iff]

/-! ### Descriptions -/

variable {ti : Ty}

theorem Ty.unknown (h : hasType (some ti) = false) : ti = .any ∨ ti = .auto := by
  have hnot := mt (hasType_iff (some ti)).2 (by simp [h])
  simpa [or_iff_not_imp_left] using hnot

/-- An unknown type describes every value. -/
theorem Ty.describes_of_not_hasType (h : hasType (some ti) = false) (v : Value) :
    ti.Describes v := by
  obtain rfl | rfl := unknown h
  · exact ⟨.type .all, by simp [returnSpecs, Ty.returns], .inl rfl⟩
  · exact ⟨.type .all, by simp [returnSpecs, Ty.returns], .inl rfl⟩

/-- What is known about an element type stays so for an equal one. -/
theorem elementType_of_equal {a b : Ty} {c : Option Ty} (hab : a.equal b = true)
    (h : hasType (some a) = false ∨ typesEqual (some a) c = true) :
    hasType (some b) = false ∨ typesEqual (some b) c = true := by
  obtain hunknown | heq := h
  · exact .inl (Ty.hasType_of_equal hab ▸ hunknown)
  · exact .inr (typesEqual_of_equal hab heq)

variable {v : Value}

theorem TypeSpec.Equal.describes {a b : TypeSpec} (hab : a.Equal b) (h : a.Describes v) :
    b.Describes v := by
  cases a with
  | complexHash ti =>
    cases b <;> simp only [TypeSpec.Equal, reduceCtorEq] at hab
    obtain ⟨u, hd, cti, kvs, rfl, hcti⟩ := h
    exact ⟨u, hd, cti, kvs, rfl, elementType_of_equal hab hcti⟩
  | complexList ti | complexSoftList ti =>
    cases b <;> simp only [TypeSpec.Equal, reduceCtorEq] at hab
    obtain ⟨u, cti, es, rfl, hcti⟩ := h
    exact ⟨u, cti, es, rfl, elementType_of_equal hab hcti⟩
  | _ => exact TypeSpec.eq_of_equal rfl hab ▸ h

/-- Equal types describe the same values. -/
theorem Ty.describes_of_equal {a b : Ty} (hab : a.equal b = true) (h : a.Describes v) :
    b.Describes v := by
  obtain rfl | ⟨-, -, -, hreturns⟩ | ⟨-, hb⟩ := (equal_iff a b).1 hab
  · exact h
  · obtain ⟨spec, hspec, hdesc⟩ := h
    obtain ⟨i, hi, rfl⟩ := List.getElem_of_mem hspec
    have hi' : i < b.returnSpecs.length := hreturns.length_eq ▸ hi
    exact ⟨b.returnSpecs[i], List.getElem_mem hi', (hreturns.get hi hi').describes hdesc⟩
  · exact describes_of_not_hasType hb v

/-- A list without a type is well typed when its elements are. -/
theorem Value.wellTyped_untypedList {u : Bool} {es : List Value} (h : ∀ e ∈ es, e.WellTyped) :
    (Value.list u none es).WellTyped := by
  rw [wellTyped_list]
  exact ⟨by simp, by simp [listValueType], h⟩

/-- A hash without a type is well typed when its members are. -/
theorem Value.wellTyped_untypedHash {u : Bool} {kvs : List (String × Value)}
    (h : ∀ kv ∈ kvs, kv.2.WellTyped) : (Value.hash u none none kvs).WellTyped := by
  rw [wellTyped_hash]
  refine ⟨⟨.type .hash, ?_, .inr rfl⟩, by simp [hashValueType], h⟩
  exact List.mem_singleton_self _

mutual

/-- A copy without complex types is well typed. -/
theorem Value.wellTyped_strip : (v : Value) → v.WellTyped → v.strip.WellTyped
  | .list u cti es, h => by
    rw [Value.strip]
    split
    · exact wellTyped_untypedList (wellTyped_stripList es ((wellTyped_list u cti es).1 h).2.2)
    · exact h
  | .hash u hd cti kvs, h => by
    rw [Value.strip]
    split
    · exact wellTyped_untypedHash
        (wellTyped_stripMembers kvs ((wellTyped_hash u hd cti kvs).1 h).2.2)
    · exact h
  | .nothing, h | .null, h | .bool _, h | .int _, h | .float _, h | .number _, h | .string _, h
  | .date _, h | .binary _, h | .closure _, h | .callref _, h | .object .., h
  | .weakObject .., h | .weakList .., h | .weakHash .., h => by simpa only [Value.strip] using h

theorem Value.wellTyped_stripList : (es : List Value) → (∀ e ∈ es, e.WellTyped) →
    ∀ e ∈ Value.stripList es, e.WellTyped
  | [], _ => by simp [Value.stripList]
  | v :: vs, h => by
    have hv := wellTyped_strip v (h v (by simp))
    have hvs := wellTyped_stripList vs fun e he => h e (by simp [he])
    simpa [Value.stripList, hv] using hvs

theorem Value.wellTyped_stripMembers : (kvs : List (String × Value)) →
    (∀ kv ∈ kvs, kv.2.WellTyped) → ∀ kv ∈ Value.stripMembers kvs, kv.2.WellTyped
  | [], _ => by simp [Value.stripMembers]
  | kv :: kvs, h => by
    have hkv := wellTyped_stripMember kv (h kv (by simp))
    have hkvs := wellTyped_stripMembers kvs fun kv' hkv' => h kv' (by simp [hkv'])
    intro kv' hkv'
    rw [Value.stripMembers, List.mem_cons] at hkv'
    obtain rfl | hkv' := hkv'
    · exact hkv
    · exact hkvs kv' hkv'

theorem Value.wellTyped_stripMember : (kv : String × Value) → kv.2.WellTyped →
    (Value.stripMember kv).2.WellTyped
  | (_, v), h => by
    rw [Value.stripMember]
    exact wellTyped_strip v h

end

/-- Weak references, which no known type describes. -/
def Value.isWeak : Value → Bool
  | weakObject .. | weakList .. | weakHash .. => true
  | _ => false

/-- A value other than a weak reference is described by its own type. -/
theorem Value.describes_getTypeInfo (hv : v.WellTyped) (hweak : v.isWeak = false)
    (h : v.getTypeInfo = some ti) : ti.Describes v := by
  cases v with
  | list u cti es =>
    have hown := ((wellTyped_list u cti es).1 hv).1
    cases cti with
    | none =>
      simp only [getTypeInfo, Option.getD_none, Option.some.injEq] at h
      subst h
      exact ⟨.type .list, List.mem_singleton_self _, .inr rfl⟩
    | some cti =>
      simp only [getTypeInfo, Option.getD_some, Option.some.injEq] at h
      exact h ▸ hown cti rfl
  | hash u hd cti kvs =>
    simp only [getTypeInfo, Option.some.injEq] at h
    exact h ▸ ((wellTyped_hash u hd cti kvs).1 hv).1
  | object qc bases valid =>
    simp only [getTypeInfo, Option.some.injEq] at h
    subst h
    exact ⟨.cls qc, List.mem_singleton_self _, qc, bases, valid, rfl, .inl rfl⟩
  | weakObject | weakList | weakHash => simp [isWeak] at hweak
  | closure _ =>
    simp only [getTypeInfo, getType, getTypeInfoForType, Option.some.injEq] at h
    subst h
    exact ⟨.type .runtimeClosure, by decide, .inr rfl⟩
  | callref _ =>
    simp only [getTypeInfo, getType, getTypeInfoForType, Option.some.injEq] at h
    subst h
    exact ⟨.type .funcref, by decide, .inr rfl⟩
  | _ =>
    simp only [getTypeInfo, getType, getTypeInfoForType, Option.some.injEq] at h
    subst h
    exact ⟨_, List.mem_singleton_self _, .inr rfl⟩

end Qore.Types
