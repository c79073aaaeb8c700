import Qore.Types.Accept
import Qore.Types.Cover

/-!
# `Qore.Types.Assign`: what an assignment leaves

`acceptInput` converts a value in place. What it leaves is an instance of the type whenever the
elements of a container become instances of the element type; the specifications of run-time types
leave values of a type that the return list names. Errors are described by a parameter: an
assignment fails with one of the errors allowed for the elements or because a text is not a valid
encoding of a binary value.

* `Ty.acceptInputIntern_outcome`: one assignment, from the assignments of the elements.
-/

set_option autoImplicit false

namespace Qore.Types

/-! ### The types -/

/-- The types that parse a text into a binary value. -/
def Simple.parsesText : Simple → Bool
  | hexbinary | base64binary | base64urlbinary => true
  | _ => false

/-- Simple types, lists, hashes and hashdecls of any depth. The "or nothing" types that parse a
text are left out, their return list names a hash. -/
def Ty.Supported : Ty → Bool
  | cls .. | emptyHash | emptyList => false
  | simple s on => !(on && s.parsesText)
  | complexHash vti _ | complexList vti _ | complexSoftList vti _ => vti.Supported
  | _ => true

/-- An assignment leaves an instance of the type or fails with one of the errors `P`. -/
def Ty.Outcome (ti : Ty) (P : AcceptError → Prop) : Except AcceptError Value → Prop
  | .ok w => ti.Instance w
  | .error e => P e

/-- A text is not a valid encoding of a binary value. -/
def AcceptError.IsText (e : AcceptError) : Prop := ∃ map, e = .text map

/-- The run-time type of what a specification of a run-time type leaves: that of the value or of its
conversion. -/
def AcceptSpec.resultType (a : AcceptSpec) : Option NT :=
  match a.spec, a.map with
  | .type .all, none => none
  | .type t, none => some t
  | .type .hash, some .plainHash => some .hash
  | .type .list, some .plainList => some .list
  | .type _, some .assignNothing => some .nothing
  | .type _, some .toMilliseconds => some .int
  | .type _, some (.newList none) => some .list
  | .type _, some (.wrapList none) => some .list
  | .type _, some .parseHex => some .binary
  | .type _, some .parseBase64 => some .binary
  | .type _, some .parseBase64Url => some .binary
  | .type _, some (.convert t) =>
    if t ∈ [.int, .float, .number, .boolean, .string, .date, .binary] then some t else none
  | _, _ => none

section
variable {env : RunEnv} {P : AcceptError → Prop} {elem : Value → Except AcceptError Value}
  {runtime : Value → Match} {T : Ty} {assign : Value → Except AcceptError Value} {v : Value}
  {vti : Ty} {u : Bool} {kvs : List (String × Value)}

theorem getType_convertTo {t : NT} (ht : t ∈ [.int, .float, .number, .boolean, .string, .date, .binary])
    (v : Value) : (convertTo env t v).getType = t ∧ (convertTo env t v).WellTyped := by
  simp only [List.mem_cons, List.not_mem_nil, or_false] at ht
  obtain rfl | rfl | rfl | rfl | rfl | rfl | rfl := ht <;>
    simp [convertTo, Value.getType, Value.WellTyped]

theorem TypeSpec.accept_type (t : NT) (v : Value) : (TypeSpec.type t).accept env elem runtime T v =
      if t = .all ∨ t = v.getType then some (.ok v) else none := by
  simp only [TypeSpec.accept]

/-- What is left of a value: a value of the type, or the rejection of a text. -/
def LeavesType (t : NT) : Except AcceptError Value → Prop
  | .ok w => w.getType = t ∧ w.WellTyped
  | .error e => e.IsText

theorem leavesType_parseText {map : TypeMap}
    (hmap : map = .parseHex ∨ map = .parseBase64 ∨ map = .parseBase64Url) (v : Value) :
    LeavesType .binary (map.apply env assign v) := by
  obtain rfl | rfl | rfl := hmap <;>
  · cases v with
    | string s =>
      simp only [TypeMap.apply]
      split
      · exact ⟨rfl, by simp [Value.WellTyped]⟩
      · exact ⟨_, rfl⟩
    | _ => exact ⟨_, rfl⟩

theorem leavesType_apply {ut t : NT} {map : TypeMap} {exact : Bool}
    (ht : AcceptSpec.resultType ⟨.type ut, some map, exact⟩ = some t) (hv : v.WellTyped)
    (hut : ut = .all ∨ ut = v.getType) :
    LeavesType t (map.apply env assign v) := by
  have hstrip {u : NT} (hu : u ≠ .all) (heq : ut = u) : LeavesType u (.ok v.strip) := by
    have hget : u = v.getType := heq ▸ hut.resolve_left (heq ▸ hu)
    exact ⟨v.getType_strip.trans hget.symm, v.wellTyped_strip hv⟩
  cases map with
  | assignNothing =>
    cases ut <;> simp only [AcceptSpec.resultType, Option.some.injEq] at ht <;> rw [← ht] <;>
      exact ⟨rfl, trivial⟩
  | plainHash =>
    cases ut <;> simp only [AcceptSpec.resultType, Option.some.injEq, reduceCtorEq] at ht
    exact ht ▸ hstrip (by decide) rfl
  | plainList =>
    cases ut <;> simp only [AcceptSpec.resultType, Option.some.injEq, reduceCtorEq] at ht
    exact ht ▸ hstrip (by decide) rfl
  | parseHex =>
    have ht : NT.binary = t := by cases ut <;> simpa [AcceptSpec.resultType] using ht
    exact ht ▸ leavesType_parseText (by simp) v
  | parseBase64 =>
    have ht : NT.binary = t := by cases ut <;> simpa [AcceptSpec.resultType] using ht
    exact ht ▸ leavesType_parseText (by simp) v
  | parseBase64Url =>
    have ht : NT.binary = t := by cases ut <;> simpa [AcceptSpec.resultType] using ht
    exact ht ▸ leavesType_parseText (by simp) v
  | convert u =>
    have ht : u ∈ [.int, .float, .number, .boolean, .string, .date, .binary] ∧ u = t := by
      cases ut <;> simpa only [AcceptSpec.resultType, Option.ite_none_right_eq_some,
        Option.some.injEq] using ht
    exact ht.2 ▸ getType_convertTo ht.1 v
  | toMilliseconds =>
    have ht : NT.int = t := by cases ut <;> simpa [AcceptSpec.resultType] using ht
    exact ht ▸ ⟨rfl, trivial⟩
  | newList vti =>
    cases vti with
    | none =>
      have ht : NT.list = t := by cases ut <;> simpa [AcceptSpec.resultType] using ht
      exact ht ▸ ⟨rfl, Value.wellTyped_untypedList (by simp)⟩
    | some vti => cases ut <;> simp [AcceptSpec.resultType] at ht
  | wrapList vti =>
    cases vti with
    | none =>
      have ht : NT.list = t := by cases ut <;> simpa [AcceptSpec.resultType] using ht
      exact ht ▸ ⟨rfl, Value.wellTyped_untypedList (by simpa using v.wellTyped_strip hv)⟩
    | some vti => cases ut <;> simp [AcceptSpec.resultType] at ht
  | softList _ _ => cases ut <;> simp [AcceptSpec.resultType] at ht
  | complexListFromValue _ => cases ut <;> simp [AcceptSpec.resultType] at ht

/-- A specification of a run-time type leaves a value of its result type, or rejects a text. -/
theorem AcceptSpec.acceptInput_resultType {a : AcceptSpec} {t : NT} (ha : a.resultType = some t)
    (hv : v.WellTyped) {r : Except AcceptError Value}
    (h : a.acceptInput env elem assign runtime T v = some r) : LeavesType t r := by
  obtain ⟨spec, map, exact⟩ := a
  cases spec with
  | type ut =>
    simp only [AcceptSpec.acceptInput, TypeSpec.accept_type] at h
    by_cases hut : ut = .all ∨ ut = v.getType
    · rw [if_pos hut] at h
      cases map with
      | none =>
        have ht : ut ≠ .all ∧ ut = t := by
          cases ut <;> simp only [resultType, Option.some.injEq, reduceCtorEq] at ha <;>
            exact ⟨by decide, ha⟩
        simp only [Option.some.injEq] at h
        exact h ▸ ⟨(hut.resolve_left ht.1).symm.trans ht.2, hv⟩
      | some map =>
        simp only [Except.bind, Option.some.injEq] at h
        exact h ▸ leavesType_apply ha hv hut
    · simp [if_neg hut] at h
  | _ => cases map <;> simp [resultType] at ha

/-! ### Containers -/

/-- The lists of a type are those whose element type is the given one. -/
structure Ty.HoldsLists (T vti : Ty) : Prop where
  valueType : listValueType (some T) = some vti
  describes : ∀ u cti es, hasType (some vti) = false ∨
    typesEqual (some vti) (listValueType cti) = true → T.Describes (.list u cti es)

/-- The hashes of a type are those whose element type is the given one. -/
structure Ty.HoldsHashes (T vti : Ty) : Prop where
  valueType : hashValueType (some T) = some vti
  describes : ∀ u hd cti kvs, hasType (some vti) = false ∨
    typesEqual (some vti) (hashValueType cti) = true → T.Describes (.hash u hd cti kvs)

theorem Ty.holdsLists_complexList (vti : Ty) (on : Bool) : (complexList vti on).HoldsLists vti where
  valueType := by cases on <;> rfl
  describes u cti es h := ⟨.complexList vti, by cases on <;> simp [returnSpecs, returns, returnVec,
    orNothingReturns], u, cti, es, rfl, h⟩

theorem Ty.holdsLists_complexSoftList (vti : Ty) (on : Bool) :
    (complexSoftList vti on).HoldsLists vti where
  valueType := by cases vti <;> cases on <;> rfl
  describes u cti es h := by
    have hspec : TypeSpec.complexList vti ∈ (complexSoftList vti on).returnSpecs ∨
        TypeSpec.complexSoftList vti ∈ (complexSoftList vti on).returnSpecs := by
      cases vti <;> cases on <;> simp [returnSpecs, returns, returnVec, orNothingReturns]
    obtain hspec | hspec := hspec
    · exact ⟨_, hspec, u, cti, es, rfl, h⟩
    · exact ⟨_, hspec, u, cti, es, rfl, h⟩

theorem Ty.holdsHashes_complexHash (vti : Ty) (on : Bool) :
    (complexHash vti on).HoldsHashes vti where
  valueType := by cases on <;> rfl
  describes u hd cti kvs h := ⟨.complexHash vti, by cases on <;> simp [returnSpecs, returns,
    returnVec, orNothingReturns], u, hd, cti, kvs, rfl, h⟩

theorem Ty.valueTypeIntern_complexHash (vti : Ty) (on : Bool) :
    (complexHash vti on).valueTypeIntern = .complexHash vti false := by
  cases on <;> rfl

theorem Ty.valueTypeIntern_complexList (vti : Ty) (on : Bool) :
    (complexList vti on).valueTypeIntern = .complexList vti false := by
  cases on <;> rfl

theorem Ty.valueTypeIntern_complexSoftList (vti : Ty) (on : Bool) :
    (complexSoftList vti on).valueTypeIntern = .complexList vti false := by
  cases vti <;> cases on <;> rfl

/-- The type of a copy holds the same lists. -/
theorem Ty.HoldsLists.valueType_holds (h : T.HoldsLists vti)
    (hT : T.valueTypeIntern = .complexList vti false) : T.valueType.HoldsLists vti := by
  unfold Ty.valueType
  split
  · exact hT ▸ holdsLists_complexList vti false
  · exact h

theorem Ty.HoldsHashes.valueType_holds (h : T.HoldsHashes vti)
    (hT : T.valueTypeIntern = .complexHash vti false) : T.valueType.HoldsHashes vti := by
  unfold Ty.valueType
  split
  · exact hT ▸ holdsHashes_complexHash vti false
  · exact h

/-- A list that got the type is an instance of the types that hold the same lists. -/
theorem Ty.HoldsLists.instance_of_elements {cti : Ty} (hT : T.HoldsLists vti)
    (hcti : cti.HoldsLists vti) {es : List Value} (hes : ∀ e ∈ es, vti.Instance e) :
    T.Instance (.list u (some cti) es) := by
  have heq : typesEqual (some vti) (listValueType (some cti)) = true := by
    rw [hcti.valueType]
    exact Ty.equal_refl vti
  refine ⟨hT.describes u _ es (.inr heq), (Value.wellTyped_list ..).2 ⟨?_, ?_, ?_⟩⟩
  · rintro _ ⟨⟩
    exact hcti.describes u _ es (.inr heq)
  · intro vti' hvti' e he
    rw [hcti.valueType, Option.some.injEq] at hvti'
    exact hvti' ▸ (hes e he).1
  · exact fun e he => (hes e he).2

/-- A hash that got the type is an instance of the types that hold the same hashes. -/
theorem Ty.HoldsHashes.instance_of_members {cti : Ty} (hT : T.HoldsHashes vti)
    (hcti : cti.HoldsHashes vti) {hd : Option Nat} (hkvs : ∀ kv ∈ kvs, vti.Instance kv.2) :
    T.Instance (.hash u hd (some cti) kvs) := by
  have heq : typesEqual (some vti) (hashValueType (some cti)) = true := by
    rw [hcti.valueType]
    exact Ty.equal_refl vti
  refine ⟨hT.describes u hd _ kvs (.inr heq), (Value.wellTyped_hash ..).2 ⟨?_, ?_, ?_⟩⟩
  · cases hd with
    | none => exact hcti.describes u none _ kvs (.inr heq)
    | some hd => exact ⟨.hashDecl hd, List.mem_singleton_self _, u, _, kvs, rfl⟩
  · intro vti' hvti' kv hkv
    rw [hcti.valueType, Option.some.injEq] at hvti'
    exact hvti' ▸ (hkvs kv hkv).1
  · exact fun kv hkv => (hkvs kv hkv).2

/-! ### Folding -/

/-- Folding a list folds every element or fails with the error of one. -/
theorem foldEntries_outcome (elem : Value → Except AcceptError Value) (vti : Ty) (es : List Value)
    (hes : ∀ e ∈ es, vti.Outcome P (elem e)) :
    match foldEntries elem es with
    | .ok ws => ∀ w ∈ ws, vti.Instance w
    | .error e => P e := by
  induction es with
  | nil => simp [foldEntries]
  | cons e es ih =>
    have he := hes e (by simp)
    have ih := ih fun e' he' => hes e' (by simp [he'])
    simp only [foldEntries]
    cases helem : elem e with
    | error err =>
      rw [helem] at he
      exact he
    | ok w =>
      rw [helem] at he
      cases hfold : foldEntries elem es with
      | error err =>
        rw [hfold] at ih
        exact ih
      | ok ws =>
        rw [hfold] at ih
        exact List.forall_mem_cons.2 ⟨he, ih⟩

theorem foldMembers_outcome (elem : Value → Except AcceptError Value) (vti : Ty)
    (kvs : List (String × Value)) (hkvs : ∀ kv ∈ kvs, vti.Outcome P (elem kv.2)) :
    match foldMembers elem kvs with
    | .ok ws => ∀ kw ∈ ws, vti.Instance kw.2
    | .error e => P e := by
  induction kvs with
  | nil => simp [foldMembers]
  | cons kv kvs ih =>
    obtain ⟨k, v⟩ := kv
    have hv := hkvs (k, v) (by simp)
    have ih := ih fun kv' hkv' => hkvs kv' (by simp [hkv'])
    simp only [foldMembers]
    cases helem : elem v with
    | error err =>
      rw [helem] at hv
      exact hv
    | ok w =>
      rw [helem] at hv
      cases hfold : foldMembers elem kvs with
      | error err =>
        rw [hfold] at ih
        exact ih
      | ok ws =>
        rw [hfold] at ih
        exact List.forall_mem_cons.2 ⟨hv, ih⟩

/-- The elements of a list fold into a type, also when the list has to be copied. -/
def FoldsInto (P : AcceptError → Prop) (elem : Value → Except AcceptError Value) (vti : Ty)
    (e : Value) : Prop :=
  vti.Outcome P (elem e) ∧ vti.Outcome P (elem e.share)

theorem acceptInputComplexList_outcome (hT : T.HoldsLists vti)
    (hintern : T.valueTypeIntern = .complexList vti false) {cti : Option Ty} {es : List Value}
    (hv : (Value.list u cti es).WellTyped) (hes : ∀ e ∈ es, FoldsInto P elem vti e) :
    T.Outcome P (acceptInputComplexList elem T vti u cti es) := by
  unfold acceptInputComplexList
  split
  · next heq => exact ⟨hT.describes u cti es (.inr heq), hv⟩
  · split
    · have hfold := foldEntries_outcome elem vti es fun e he => (hes e he).1
      cases hws : foldEntries elem es with
      | error err =>
        rw [hws] at hfold
        exact hfold
      | ok ws =>
        rw [hws] at hfold
        exact hT.instance_of_elements hT hfold
    · have hfold := foldEntries_outcome (P := P) elem vti (es.map Value.share)
        (by simpa using fun e he => (hes e he).2)
      cases hws : foldEntries elem (es.map Value.share) with
      | error err =>
        rw [hws] at hfold
        exact hfold
      | ok ws =>
        rw [hws] at hfold
        exact hT.instance_of_elements (hT.valueType_holds hintern) hfold

theorem acceptInputComplexHash_outcome (hT : T.HoldsHashes vti)
    (hintern : T.valueTypeIntern = .complexHash vti false) {hd : Option Nat} {cti : Option Ty}
    (hv : (Value.hash u hd cti kvs).WellTyped) (hkvs : ∀ kv ∈ kvs, FoldsInto P elem vti kv.2) :
    T.Outcome P (acceptInputComplexHash elem T vti u hd cti kvs) := by
  unfold acceptInputComplexHash
  split
  · next heq => exact ⟨hT.describes u hd cti kvs (.inr heq), hv⟩
  · split
    · have hfold := foldMembers_outcome elem vti kvs fun kv hkv => (hkvs kv hkv).1
      cases hws : foldMembers elem kvs with
      | error err =>
        rw [hws] at hfold
        exact hfold
      | ok ws =>
        rw [hws] at hfold
        exact hT.instance_of_members hT hfold
    · have hfold := foldMembers_outcome (P := P) elem vti
        (kvs.map fun kv => (kv.1, kv.2.share)) (by
          intro kv' hkv'
          obtain ⟨kv, hkv, rfl⟩ := List.mem_map.1 hkv'
          exact (hkvs kv hkv).2)
      cases hws : foldMembers elem (kvs.map fun kv => (kv.1, kv.2.share)) with
      | error err =>
        rw [hws] at hfold
        exact hfold
      | ok ws =>
        rw [hws] at hfold
        exact hT.instance_of_members (hT.valueType_holds hintern) hfold

/-! ### Soft lists -/

/-- A type whose return list starts with that of another one describes what this describes. -/
theorem describes_of_specsCover {S : Ty}
    (h : specsCover T.elemEqual T.returnSpecs S.returnSpecs = true) (hS : S.Describes v) :
    T.Describes v := by
  obtain ⟨spec, hspec, hdesc⟩ := hS
  have hcovers (as bs : List TypeSpec) (has : ∀ a ∈ as, a ∈ T.returnSpecs)
      (hcover : specsCover T.elemEqual as bs = true) : ∀ b ∈ bs, ∃ a ∈ as, a.Equal b := by
    induction bs generalizing as with
    | nil => simp
    | cons b bs ih =>
      cases as with
      | nil => simp [specsCover] at hcover
      | cons a as =>
        simp only [specsCover, Bool.and_eq_true] at hcover
        have hab : a.Equal b := (TypeSpec.equal_iff (fun vti hvti =>
          Ty.elemEqual_of_element? (Ty.element?_of_mem
            (List.mem_append_right _ (has a (by simp))) hvti)) b).1 hcover.1
        have hrest := ih as (fun a' ha' => has a' (by simp [ha'])) hcover.2
        intro b' hb'
        obtain rfl | hb' := List.mem_cons.1 hb'
        · exact ⟨a, by simp, hab⟩
        · obtain ⟨a', ha', hab'⟩ := hrest b' hb'
          exact ⟨a', by simp [ha'], hab'⟩
  obtain ⟨a, ha, hab⟩ := hcovers _ _ (fun _ h => h) h spec hspec
  exact ⟨a, ha, (hab.symm fun vti _ => vti.equalLaws).describes hdesc⟩

/-- A type that starts with the specifications of another one describes what this describes. -/
theorem describes_of_superSetOf {S : Ty} (h : superSetOf T (some S) = true) (hS : S.Describes v) :
    T.Describes v := by
  unfold superSetOf at h
  split at h
  · have hcover : specsCover T.elemEqual T.returnSpecs S.returnSpecs = true := by
      simpa [Ty.returnSpecs] using (Bool.and_eq_true _ _ ▸ h).2
    exact describes_of_specsCover hcover hS
  · next hunknown => exact Ty.describes_of_not_hasType (by simpa using hunknown) v

/-- The lists of a type that equals `list<vti>` have an equal element type. -/
theorem listValueType_of_equal {lti : Ty} (h : (Ty.complexList vti false).equal lti = true) :
    typesEqual (some vti) (listValueType (some lti)) = true := by
  obtain rfl | ⟨-, hlti, -, hreturns⟩ | ⟨hunknown, -⟩ := (Ty.equal_iff _ _).1 h
  · exact Ty.equal_refl vti
  · have hspecs : (Ty.complexList vti false).returnSpecs = [.complexList vti] := rfl
    obtain ⟨spec, specs, hspec, hrest, heq⟩ := List.forall₂_cons_left_iff.1 hreturns
    have hhead : lti.firstReturn = some spec := by
      have hret : lti.returns.head?.map (·.spec) = some spec := by
        rw [← List.head?_map]
        show lti.returnSpecs.head? = some spec
        rw [heq]
        rfl
      simp only [Ty.firstReturn, hlti, if_true, hret]
    cases spec <;> simp only [TypeSpec.Equal, reduceCtorEq] at hspec
    simp only [listValueType, Option.bind_some, getComplexListValueType, hhead,
      TypeSpec.getComplexList]
    exact hspec
  · simp [hasType, Ty.acceptsAll, Ty.accepts, TypeSpec.getType] at hunknown

/-- An assignment to an unknown element type takes every value. -/
theorem assignWith_outcome (hv : v.WellTyped) (helem : vti.Outcome P (elem v)) :
    vti.Outcome P (assignWith elem vti v) := by
  unfold assignWith
  split
  · exact helem
  · next hunknown =>
    refine ⟨Ty.describes_of_not_hasType (by simpa using hunknown) _, ?_⟩
    unfold acceptUntyped
    split
    · exact hv
    · exact v.wellTyped_strip hv

/-- A value becomes a list of elements of a type when its elements, or it itself, do. -/
theorem newComplexListFromValue_outcome (hT : T.HoldsLists vti) (hv : v.WellTyped)
    (hlist : ∀ u cti es, v = .list u cti es → ∀ e ∈ es,
      FoldsInto P (fun e => if superSetOf vti e.getTypeInfo then .ok e else assign e) vti e)
    (hself : v.getType ≠ .list → v.getType ≠ .nothing → vti.Outcome P (assign v)) :
    T.Outcome P (newComplexListFromValue assign vti v) := by
  have hnew := Ty.holdsLists_complexList vti false
  have hsingle (hself : vti.Outcome P (assign v)) :
      T.Outcome P (do let w ← assign v; return .list true (some (.complexList vti false)) [w]) := by
    cases hassign : assign v with
    | error err =>
      rw [hassign] at hself
      exact hself
    | ok w =>
      rw [hassign] at hself
      refine hT.instance_of_elements hnew fun e he => ?_
      rw [List.mem_singleton.1 he]
      exact hself
  cases v with
  | list u cti es =>
    rw [newComplexListFromValue]
    split
    · next heq =>
      cases cti with
      | none => simp at heq
      | some lti => exact ⟨hT.describes u _ es (.inr (listValueType_of_equal (by simpa using heq))), hv⟩
    · have hes := hlist u cti es rfl
      have hfold := foldEntries_outcome (P := P)
        (fun e => if superSetOf vti e.getTypeInfo then .ok e else assign e) vti
        (if u then es else es.map Value.share) (by
          intro e he
          cases u with
          | true => exact (hes e he).1
          | false =>
            obtain ⟨e', he', rfl⟩ := List.mem_map.1 he
            exact (hes e' he').2)
      cases hws : foldEntries (fun e => if superSetOf vti e.getTypeInfo then .ok e else assign e)
          (if u then es else es.map Value.share) with
      | error err =>
        rw [hws] at hfold
        exact hfold
      | ok ws =>
        rw [hws] at hfold
        exact hT.instance_of_elements hnew hfold
  | nothing => exact hT.instance_of_elements hnew (by simp)
  | _ => exact hsingle (hself (by simp [Value.getType]) (by simp [Value.getType]))

/-! ### The accept list -/

/-- The values in a list or a hash. -/
def Value.children : Value → List Value
  | list _ _ es => es
  | hash _ _ _ kvs => kvs.map (·.2)
  | _ => []

/-- `acceptInputIntern` of the element type. -/
def Ty.elemAssign (env : RunEnv) (ti : Ty) : Value → Except AcceptError Value :=
  match ti.element? with
  | some vti => vti.acceptInputIntern env
  | none => fun n => .error (.type ti n.getType)

theorem Ty.acceptInputIntern_eq (ti : Ty) :
    ti.acceptInputIntern env =
      ti.acceptInputInternWith env (ti.elemAssign env) (ti.element?.getD .any) := by
  cases ti <;> rfl

/-- The loop over the accept list stops at the first specification that accepts the value. -/
theorem acceptInputLoop_cases (as : List AcceptSpec) :
    ((∀ a ∈ as, a.acceptInput env elem assign runtime T v = none) ∧
      acceptInputLoop env elem assign runtime T v as = .error (.type T v.getType)) ∨
    ∃ a ∈ as, a.acceptInput env elem assign runtime T v =
      some (acceptInputLoop env elem assign runtime T v as) := by
  induction as with
  | nil => exact .inl ⟨by simp, rfl⟩
  | cons a as ih =>
    rw [acceptInputLoop]
    cases ha : a.acceptInput env elem assign runtime T v with
    | some r => exact .inr ⟨a, by simp, ha⟩
    | none =>
      obtain ⟨hnone, hloop⟩ | ⟨a', ha', hloop⟩ := ih
      · exact .inl ⟨by simpa [ha] using hnone, hloop⟩
      · exact .inr ⟨a', by simp [ha'], hloop⟩

section
variable {elem : Value → Except AcceptError Value} {runtime : Value → Match} {T vti : Ty} {v : Value}
  {assign : Value → Except AcceptError Value} {a : AcceptSpec} {r : Except AcceptError Value}
  {on : Bool}

/-- A result type that the return list names is an outcome. -/
theorem AcceptSpec.outcome_of_resultType (hP : ∀ map, P (.text map)) {t : NT}
    (ha : a.resultType = some t) (ht : TypeSpec.type t ∈ T.returnSpecs) (hv : v.WellTyped)
    (h : a.acceptInput env elem assign runtime T v = some r) :
    T.Outcome P r := by
  have hleaves := acceptInput_resultType ha hv h
  cases r with
  | ok w => exact ⟨⟨.type t, ht, .inr hleaves.1⟩, hleaves.2⟩
  | error e =>
    obtain ⟨map, rfl⟩ := hleaves
    exact hP map

/-- Every specification of a type has a result type that the return list names. -/
def Ty.resultsReturned (T : Ty) : Bool :=
  T.accepts.all fun a =>
    match a.resultType with
    | some t => T.returnSpecs.contains (.type t)
    | none => false

theorem Ty.outcome_of_resultsReturned (hP : ∀ map, P (.text map)) (hT : T.resultsReturned = true)
    (hv : v.WellTyped) (ha : a ∈ T.accepts) (h : a.acceptInput env elem assign runtime T v = some r) :
    T.Outcome P r := by
  have hresult := List.all_eq_true.1 hT a ha
  cases ht : a.resultType with
  | none => simp [ht] at hresult
  | some t =>
    simp only [ht, List.contains_iff_mem] at hresult
    exact a.outcome_of_resultType hP ht hresult hv h

/-- The end of the accept list of an "or nothing" type leaves `NOTHING`. -/
theorem outcome_of_orNothing (hP : ∀ map, P (.text map))
    (hT : TypeSpec.type .nothing ∈ T.returnSpecs) (hv : v.WellTyped) (ha : a ∈ orNothingAccepts)
    (h : a.acceptInput env elem assign runtime T v = some r) : T.Outcome P r := by
  have ht : a.resultType = some .nothing := by
    simp only [orNothingAccepts, List.mem_cons, List.not_mem_nil, or_false] at ha
    obtain rfl | rfl := ha <;> rfl
  exact a.outcome_of_resultType hP ht hT hv h

theorem Ty.nothing_mem_returnSpecs (vti : Ty) :
    TypeSpec.type .nothing ∈ (complexHash vti true).returnSpecs ∧
      TypeSpec.type .nothing ∈ (complexList vti true).returnSpecs ∧
      TypeSpec.type .nothing ∈ (complexSoftList vti true).returnSpecs := by
  refine ⟨by simp [returnSpecs, returns, returnVec, orNothingReturns],
    by simp [returnSpecs, returns, returnVec, orNothingReturns], ?_⟩
  cases vti <;> simp [returnSpecs, returns, returnVec, orNothingReturns]

theorem Ty.complexHash_outcome (hP : ∀ map, P (.text map)) (hv : v.WellTyped)
    (hweak : v.isWeak = false) (helem : vti ≠ .auto → ∀ e ∈ v.children, FoldsInto P elem vti e)
    (ha : a ∈ (complexHash vti on).accepts)
    (h : a.acceptInput env elem (assignWith elem vti) runtime (complexHash vti on) v = some r) :
    (complexHash vti on).Outcome P r := by
  have hT := holdsHashes_complexHash vti on
  obtain rfl | ha := List.mem_cons.1 ha
  · simp only [AcceptSpec.acceptInput] at h
    cases v with
    | hash u hd cti kvs =>
      by_cases hauto : vti = .auto
      · simp only [TypeSpec.accept, if_pos hauto, Option.some.injEq] at h
        exact h ▸ ⟨hT.describes u hd cti kvs (.inl (hauto ▸ rfl)), hv⟩
      · simp only [TypeSpec.accept, if_neg hauto, Option.some.injEq] at h
        have hkvs : ∀ kv ∈ kvs, FoldsInto P elem vti kv.2 :=
          fun kv hkv => helem hauto kv.2 (List.mem_map_of_mem hkv)
        exact h ▸ acceptInputComplexHash_outcome hT (valueTypeIntern_complexHash vti on) hv hkvs
    | weakHash => simp [Value.isWeak] at hweak
    | _ => simp [TypeSpec.accept] at h
  · cases on with
    | false => simp at ha
    | true => exact outcome_of_orNothing hP (nothing_mem_returnSpecs vti).1 hv ha h

theorem Ty.complexList_outcome (hP : ∀ map, P (.text map)) (hv : v.WellTyped)
    (helem : vti ≠ .auto → ∀ e ∈ v.children, FoldsInto P elem vti e)
    (ha : a ∈ (complexList vti on).accepts)
    (h : a.acceptInput env elem (assignWith elem vti) runtime (complexList vti on) v = some r) :
    (complexList vti on).Outcome P r := by
  have hT := holdsLists_complexList vti on
  obtain rfl | ha := List.mem_cons.1 ha
  · simp only [AcceptSpec.acceptInput] at h
    cases v with
    | list u cti es =>
      by_cases hauto : vti = .auto
      · simp only [TypeSpec.accept, if_pos hauto, Option.some.injEq] at h
        exact h ▸ ⟨hT.describes u cti es (.inl (hauto ▸ rfl)), hv⟩
      · simp only [TypeSpec.accept, if_neg hauto, Option.some.injEq] at h
        exact h ▸ acceptInputComplexList_outcome hT (valueTypeIntern_complexList vti on) hv
          (helem hauto)
    | _ => simp [TypeSpec.accept] at h
  · cases on with
    | false => simp at ha
    | true => exact outcome_of_orNothing hP (nothing_mem_returnSpecs vti).2.1 hv ha h

/-! ### Soft lists and hashdecls -/

theorem Ty.describes_share {ti : Ty} {v : Value} (h : ti.Describes v) : ti.Describes v.share := by
  obtain ⟨spec, hspec, hdesc⟩ := h
  refine ⟨spec, hspec, ?_⟩
  cases spec with
  | type t =>
    have hget : v.share.getType = v.getType := by cases v <;> rfl
    exact hdesc.imp_right hget.trans
  | cls qc =>
    obtain ⟨c, bases, valid, rfl, h⟩ := hdesc
    exact ⟨c, bases, valid, rfl, h⟩
  | hashDecl hd =>
    obtain ⟨u, cti, kvs, rfl⟩ := hdesc
    exact ⟨false, cti, kvs, rfl⟩
  | complexHash ti =>
    obtain ⟨u, hd, cti, kvs, rfl, h⟩ := hdesc
    exact ⟨false, hd, cti, kvs, rfl, h⟩
  | complexList ti | complexSoftList ti =>
    obtain ⟨u, cti, es, rfl, h⟩ := hdesc
    exact ⟨false, cti, es, rfl, h⟩
  | emptyList =>
    obtain ⟨u, cti, rfl⟩ := hdesc
    exact ⟨false, cti, rfl⟩
  | emptyHash =>
    obtain ⟨u, hd, cti, rfl⟩ := hdesc
    exact ⟨false, hd, cti, rfl⟩

theorem Value.wellTyped_share {v : Value} (h : v.WellTyped) : v.share.WellTyped := by
  cases v with
  | list u cti es =>
    obtain ⟨hown, hrest⟩ := (wellTyped_list u cti es).1 h
    exact (wellTyped_list ..).2 ⟨fun ti hti => Ty.describes_share (hown ti hti), hrest⟩
  | hash u hd cti kvs =>
    obtain ⟨hown, hrest⟩ := (wellTyped_hash u hd cti kvs).1 h
    exact (wellTyped_hash ..).2 ⟨Ty.describes_share hown, hrest⟩
  | _ => exact h

/-- The elements of a well typed container are well typed. -/
theorem Value.wellTyped_child {v e : Value} (hv : v.WellTyped) (he : e ∈ v.children) :
    e.WellTyped := by
  cases v with
  | list u cti es => exact ((wellTyped_list u cti es).1 hv).2.2 e he
  | hash u hd cti kvs =>
    obtain ⟨kv, hkv, rfl⟩ := List.mem_map.1 he
    exact ((wellTyped_hash u hd cti kvs).1 hv).2.2 kv hkv
  | _ => simp [children] at he

/-- An element that needs no conversion is taken as it is, any other one is assigned. -/
def takeOrAssign (assign : Value → Except AcceptError Value) (vti : Ty) (e : Value) :
    Except AcceptError Value :=
  if superSetOf vti e.getTypeInfo then .ok e else assign e

theorem takeOrAssign_outcome {e : Value} (he : e.WellTyped) (hweak : e.isWeak = false)
    (hassign : vti.Outcome P (assign e)) :
    vti.Outcome P (takeOrAssign assign vti e) := by
  unfold takeOrAssign
  split
  · next hsuper =>
    refine ⟨?_, he⟩
    cases hti : e.getTypeInfo with
    | none =>
      rw [hti, superSetOf] at hsuper
      split at hsuper <;> simp [hasType] at hsuper
    | some ti => exact describes_of_superSetOf (hti ▸ hsuper) (Value.describes_getTypeInfo he hweak hti)
  · exact hassign

/-- Folding either takes the list as it is or gives it the element type. -/
theorem acceptInputComplexList_ok {u : Bool} {cti : Option Ty} {es : List Value} {w : Value}
    (hT : T.HoldsLists vti) (hintern : T.valueTypeIntern = .complexList vti false)
    (h : acceptInputComplexList elem T vti u cti es = .ok w) :
    w = .list u cti es ∨ ∃ u' cti' es', w = .list u' cti' es' ∧ listValueType cti' = some vti := by
  unfold acceptInputComplexList at h
  split at h
  · exact .inl (Except.ok.inj h).symm
  · split at h
    · cases hws : foldEntries elem es with
      | error err =>
        rw [hws] at h
        cases h
      | ok ws =>
        rw [hws] at h
        exact .inr ⟨true, some T, ws, (Except.ok.inj h).symm, hT.valueType⟩
    · cases hws : foldEntries elem (es.map Value.share) with
      | error err =>
        rw [hws] at h
        cases h
      | ok ws =>
        rw [hws] at h
        exact .inr ⟨true, _, ws, (Except.ok.inj h).symm, (hT.valueType_holds hintern).valueType⟩

/-- What a soft list does to a value, its elements and the value itself being assignable to the
element type. -/
theorem softList_outcome (env : RunEnv) (on : Bool) (hv : v.WellTyped)
    (helem : ∀ e ∈ v.children, FoldsInto P elem vti e)
    (hnoweak : ∀ e ∈ v.children, e.isWeak = false)
    (hself : v.getType ≠ .list → vti.Outcome P (elem v)) :
    (Ty.complexSoftList vti on).Outcome P (newComplexListFromValue (assignWith elem vti) vti v) ∧
      (Ty.complexSoftList vti on).Outcome P
        ((TypeMap.softList vti on).apply env (assignWith elem vti) v) := by
  have hT := Ty.holdsLists_complexSoftList vti on
  have hnew : (Ty.complexSoftList vti on).Outcome P
      (newComplexListFromValue (assignWith elem vti) vti v) := by
    refine newComplexListFromValue_outcome hT hv ?_ fun hlist _ => assignWith_outcome hv (hself hlist)
    rintro u cti es rfl e he
    have hwell := Value.wellTyped_child hv he
    have hshare : e.share.isWeak = false := by
      have := hnoweak e he
      cases e <;> simp_all [Value.isWeak, Value.share]
    exact ⟨takeOrAssign_outcome hwell (hnoweak e he) (assignWith_outcome hwell (helem e he).1),
      takeOrAssign_outcome (Value.wellTyped_share hwell) hshare
        (assignWith_outcome (Value.wellTyped_share hwell) (helem e he).2)⟩
  refine ⟨hnew, ?_⟩
  cases v with
  | nothing =>
    cases on with
    | true => exact ⟨⟨_, (Ty.nothing_mem_returnSpecs vti).2.2, .inr rfl⟩, trivial⟩
    | false => exact hnew
  | list u cti es =>
    simp only [TypeMap.apply]
    split
    · next heq =>
      refine ⟨hT.describes u cti es (.inr ?_), hv⟩
      rw [heq]
      exact Ty.equal_refl vti
    · exact hnew
  | _ => simpa only [TypeMap.apply] using hnew

theorem Ty.accepts_complexSoftList (hauto : vti ≠ .auto) (on : Bool) :
    (complexSoftList vti on).accepts =
      ⟨.complexSoftList vti, some (.softList vti on), true⟩ ::
        .mapped .list (.complexListFromValue vti) ::
        if on then orNothingAccepts else [.mapped .nothing (.newList (some vti))] := by
  cases vti with
  | auto => exact absurd rfl hauto
  | _ => rfl

/-- A conversion to a list with one element or none. -/
theorem Ty.newOrWrapList_outcome {t : NT} {map : TypeMap}
    (hmap : map = .newList (some vti) ∨ map = .wrapList (some vti) ∧ vti.Instance v)
    (h : (AcceptSpec.mapped t map).acceptInput env elem assign runtime (complexSoftList vti on) v =
      some r) : (complexSoftList vti on).Outcome P r := by
  have hT := holdsLists_complexSoftList vti on
  have hnew := holdsLists_complexList vti false
  simp only [AcceptSpec.acceptInput, AcceptSpec.mapped, TypeSpec.accept_type] at h
  split at h
  · simp at h
  · next heq =>
    split at heq
    · simp only [Option.some.injEq] at heq h
      rw [← h, ← heq]
      obtain rfl | ⟨rfl, hv⟩ := hmap
      · exact hT.instance_of_elements hnew (by simp)
      · refine hT.instance_of_elements hnew fun e he => ?_
        rw [List.mem_singleton.1 he]
        exact hv
    · simp at heq

/-- The first specification folds a list and then converts what is not of the type yet. -/
theorem Ty.softListHead_outcome (hauto : vti ≠ .auto) (hv : v.WellTyped)
    (helem : ∀ e ∈ v.children, FoldsInto P elem vti e) (hsoft : (complexSoftList vti on).Outcome P
      ((TypeMap.softList vti on).apply env (assignWith elem vti) v))
    (h : AcceptSpec.acceptInput env elem (assignWith elem vti) runtime (complexSoftList vti on)
      ⟨.complexSoftList vti, some (.softList vti on), true⟩ v = some r) :
    (complexSoftList vti on).Outcome P r := by
  have hT := holdsLists_complexSoftList vti on
  have hintern := valueTypeIntern_complexSoftList vti on
  simp only [AcceptSpec.acceptInput] at h
  cases v with
  | list u cti es =>
    simp only [TypeSpec.accept, if_neg hauto, Option.some.injEq] at h
    have hfold := acceptInputComplexList_outcome hT hintern hv helem
    cases hw : acceptInputComplexList elem (complexSoftList vti on) vti u cti es with
    | error err =>
      rw [hw] at h hfold
      exact h ▸ hfold
    | ok w =>
      rw [hw] at h hfold
      obtain rfl | ⟨u', cti', es', rfl, hlvt⟩ := acceptInputComplexList_ok hT hintern hw
      · exact h ▸ hsoft
      · simp only [Except.bind, TypeMap.apply, if_pos hlvt] at h
        exact h ▸ hfold
  | _ =>
    simp only [TypeSpec.accept] at h
    split at h
    · simp at h
    · next heq =>
      split at heq
      · simp only [Option.some.injEq] at heq h
        rw [← h, ← heq]
        exact hsoft
      · simp at heq

theorem Ty.complexSoftList_outcome (hP : ∀ map, P (.text map)) (hv : v.WellTyped)
    (helem : vti ≠ .auto → ∀ e ∈ v.children, FoldsInto P elem vti e)
    (hnoweak : vti ≠ .auto → ∀ e ∈ v.children, e.isWeak = false)
    (hself : vti ≠ .auto → v.getType ≠ .list → vti.Outcome P (elem v))
    (ha : a ∈ (complexSoftList vti on).accepts)
    (h : a.acceptInput env elem (assignWith elem vti) runtime (complexSoftList vti on) v = some r) :
    (complexSoftList vti on).Outcome P r := by
  have hT := holdsLists_complexSoftList vti on
  by_cases hauto : vti = .auto
  · -- the elements of `softlist<auto>` are not converted
    have hauto' : vti.Instance v := ⟨describes_of_not_hasType (hauto ▸ rfl) v, hv⟩
    have hhead {exact : Bool} (ha : a = ⟨.complexList .auto, none, exact⟩) :
        (complexSoftList vti on).Outcome P r := by
      subst ha
      simp only [AcceptSpec.acceptInput] at h
      cases v with
      | list u cti es =>
        simp only [TypeSpec.accept, if_true, Option.some.injEq] at h
        exact h ▸ ⟨hT.describes u cti es (.inl (hauto ▸ rfl)), hv⟩
      | _ => simp [TypeSpec.accept] at h
    subst hauto
    cases on with
    | false =>
      simp only [accepts, List.mem_cons, List.not_mem_nil, or_false] at ha
      obtain ha | rfl | rfl := ha
      · exact hhead ha
      · exact newOrWrapList_outcome (.inl rfl) h
      · exact newOrWrapList_outcome (.inr ⟨rfl, hauto'⟩) h
    | true =>
      simp only [accepts, List.cons_append, List.mem_cons, List.mem_append, List.not_mem_nil,
        or_false] at ha
      obtain ha | ha | rfl := ha
      · exact hhead ha
      · exact outcome_of_orNothing hP (nothing_mem_returnSpecs .auto).2.2 hv ha h
      · exact newOrWrapList_outcome (.inr ⟨rfl, hauto'⟩) h
  · have hsoft := softList_outcome env on hv (helem hauto) (hnoweak hauto)
      (hself hauto)
    rw [accepts_complexSoftList hauto, List.mem_cons, List.mem_cons] at ha
    obtain rfl | rfl | ha := ha
    · exact softListHead_outcome hauto hv (helem hauto) hsoft.2 h
    · simp only [AcceptSpec.acceptInput, AcceptSpec.mapped, TypeSpec.accept_type] at h
      by_cases hlist : NT.list = .all ∨ NT.list = v.getType
      · rw [if_pos hlist] at h
        exact Option.some.inj h ▸ hsoft.1
      · rw [if_neg hlist] at h
        cases h
    · cases on with
      | true => exact outcome_of_orNothing hP (nothing_mem_returnSpecs vti).2.2 hv ha h
      | false =>
        rw [List.mem_singleton.1 ha] at h
        exact newOrWrapList_outcome (.inl rfl) h

theorem Ty.hashDecl_outcome (hP : ∀ map, P (.text map)) {hd : Nat} (hv : v.WellTyped)
    (hweak : v.isWeak = false) (ha : a ∈ (hashDecl hd on).accepts)
    (h : a.acceptInput env elem assign runtime (hashDecl hd on) v = some r) :
    (hashDecl hd on).Outcome P r := by
  obtain rfl | ha := List.mem_cons.1 ha
  · simp only [AcceptSpec.acceptInput] at h
    have hspec : TypeSpec.hashDecl hd ∈ (hashDecl hd on).returnSpecs := by
      cases on <;> simp [returnSpecs, returns, returnVec, orNothingReturns]
    cases v with
    | hash u hd' cti kvs =>
      by_cases heq : hd' = some hd
      · simp only [TypeSpec.accept, if_pos heq, Option.some.injEq] at h
        exact h ▸ ⟨⟨_, hspec, u, cti, kvs, heq ▸ rfl⟩, hv⟩
      · simp [TypeSpec.accept, if_neg heq] at h
    | weakHash => simp [Value.isWeak] at hweak
    | _ => simp [TypeSpec.accept] at h
  · cases on with
    | false => simp at ha
    | true =>
      have hspec : TypeSpec.type .nothing ∈ (hashDecl hd true).returnSpecs := by
        simp [returnSpecs, returns, returnVec, orNothingReturns]
      exact outcome_of_orNothing hP hspec hv ha h

end

/-! ### Assignments -/

theorem accept_of_acceptInput_none {a : AcceptSpec}
    (h : a.acceptInput env elem assign runtime T v = none) :
    a.spec.accept env elem runtime T v = none := by
  unfold AcceptSpec.acceptInput at h
  split at h
  · next heq => exact heq
  · split at h <;> cases h

/-- An assignment is that of the first specification that accepts the value. -/
theorem Ty.acceptInputIntern_cases (env : RunEnv) (T : Ty) (v : Value) :
    ((∀ a ∈ T.accepts, a.acceptInput env (T.elemAssign env)
          (assignWith (T.elemAssign env) (T.element?.getD .any))
          ((T.element?.getD .any).runtimeAcceptsValue env) T v = none) ∧
      T.acceptInputIntern env v = .error (.type T v.getType)) ∨
    ∃ a ∈ T.accepts, a.acceptInput env (T.elemAssign env)
        (assignWith (T.elemAssign env) (T.element?.getD .any))
        ((T.element?.getD .any).runtimeAcceptsValue env) T v =
      some (T.acceptInputIntern env v) := by
  rw [acceptInputIntern_eq, acceptInputInternWith]
  exact acceptInputLoop_cases T.accepts

/-- Some specification of a type accepts a value. -/
def Ty.Takes (env : RunEnv) (T : Ty) (v : Value) : Prop :=
  ∃ a ∈ T.accepts, a.spec.accept env (T.elemAssign env)
    ((T.element?.getD .any).runtimeAcceptsValue env) T v ≠ none

/-- What an assignment to a known or unknown type leaves is an instance of the type, when this is so
for the elements of a container and, for soft lists, for the value itself. -/
theorem Ty.acceptInputIntern_outcome (hP : ∀ map, P (.text map)) (hT : T.Supported = true)
    (hv : v.WellTyped) (hweak : hasType (some T) = true → v.isWeak = false)
    (helem : ∀ vti, T.element? = some vti → vti ≠ .auto → ∀ e ∈ v.children,
      FoldsInto P (vti.acceptInputIntern env) vti e)
    (hsoft : ∀ vti on, T = .complexSoftList vti on → vti ≠ .auto →
      (∀ e ∈ v.children, e.isWeak = false) ∧
        (v.getType ≠ .list → vti.Outcome P (vti.acceptInputIntern env v)))
    (hreject : ¬T.Takes env v → P (.type T v.getType)) :
    T.Outcome P (T.acceptInputIntern env v) := by
  obtain ⟨hnone, hloop⟩ | ⟨a, ha, hloop⟩ := T.acceptInputIntern_cases env v
  · rw [hloop]
    refine hreject ?_
    rintro ⟨a, ha, hspec⟩
    exact hspec (accept_of_acceptInput_none (hnone a ha))
  · cases T with
    | complexHash vti on =>
      exact complexHash_outcome hP hv (hweak (by cases on <;> rfl)) (helem vti rfl) ha hloop
    | complexList vti on => exact complexList_outcome hP hv (helem vti rfl) ha hloop
    | complexSoftList vti on =>
      exact complexSoftList_outcome hP hv (helem vti rfl)
        (fun hauto => (hsoft vti on rfl hauto).1) (fun hauto => (hsoft vti on rfl hauto).2) ha hloop
    | hashDecl hd on => exact hashDecl_outcome hP hv (hweak (by cases on <;> rfl)) ha hloop
    | any | auto =>
      rw [List.mem_singleton.1 ha] at hloop
      refine Option.some.inj hloop ▸ ⟨describes_of_not_hasType rfl v, hv⟩
    | cls | emptyHash | emptyList => simp [Supported] at hT
    | simple s on =>
      refine outcome_of_resultsReturned hP ?_ hv ha hloop
      cases s <;> cases on <;> first | rfl | simp [Supported, Simple.parsesText] at hT
    | _ => exact outcome_of_resultsReturned hP rfl hv ha hloop

end

end Qore.Types
