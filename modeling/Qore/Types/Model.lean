/-!
# `Qore.Types.Model`: type information

`QoreTypeInfo` describes a declared type by two lists: the specifications of the values it accepts,
each with an optional conversion function, and the specifications of the values it returns. The
type infos of the source are unique objects, so equality of pointers is equality of `Ty` here; a
null pointer is `none`. The types of references, which are types of parameters, are added in
`Qore.Types.Variant`.

* `Ty.accepts`, `Ty.returns`: the two lists of every type.
* `hasType_iff`: only `any`, `auto` and a missing type have no type.
-/

set_option autoImplicit false

namespace Qore.Types

/-- `qore_type_t`: the codes of the run-time types, and `NT_ALL`. -/
inductive NT
  | nothing
  | int
  | float
  | string
  | date
  | boolean
  | null
  | binary
  | list
  | hash
  | object
  | all
  | runtimeClosure
  | funcref
  | number
  | weakref
  | weakrefHash
  | weakrefList
  deriving DecidableEq, Repr

/-- `qore_type_result_e`, from the worst to the best match. -/
inductive Match
  | notEqual
  | wildcard
  | ambiguous
  | near
  | ident
  deriving DecidableEq, Repr

/-- The built-in types that have an "or nothing" variant. -/
inductive Simple
  | int
  | string
  | bool
  | float
  | number
  | binary
  | list
  | hash
  | object
  | date
  | code
  | data
  | null
  | softint
  | softfloat
  | softnumber
  | softbool
  | softstring
  | softdate
  | softlist
  | softbinary
  | hexbinary
  | base64binary
  | base64urlbinary
  | timeout
  deriving DecidableEq, Repr

/-- The type infos. Hashdecls and classes are numbered; two hashdecls with the same name and the
same members are one. `complexHash`, `complexList` and `complexSoftList` are the types of
`qore_get_complex_hash_type` and its siblings, so `softlist<auto>` is `complexSoftList auto`. -/
inductive Ty
  | any
  | auto
  | nothing
  | closure
  | callref
  | emptyHash
  | emptyList
  | intOrFloat
  | intFloatOrNumber
  | floatOrNumber
  | simple (s : Simple) (orNothing : Bool)
  | hashDecl (hd : Nat) (orNothing : Bool)
  | cls (qc : Nat) (orNothing : Bool)
  | complexHash (vti : Ty) (orNothing : Bool)
  | complexList (vti : Ty) (orNothing : Bool)
  | complexSoftList (vti : Ty) (orNothing : Bool)
  deriving DecidableEq, Repr

/-- `QoreTypeSpec`. -/
inductive TypeSpec
  | type (t : NT)
  | cls (qc : Nat)
  | hashDecl (hd : Nat)
  | complexHash (ti : Ty)
  | complexList (ti : Ty)
  | complexSoftList (ti : Ty)
  | emptyList
  | emptyHash
  deriving DecidableEq, Repr

/-- `QoreTypeSpec::getType`. -/
def TypeSpec.getType : TypeSpec → NT
  | type t => t
  | emptyList => .list
  | emptyHash => .hash
  | cls _ => .object
  | complexHash _ => .hash
  | hashDecl _ => .hash
  | complexList _ => .list
  | complexSoftList _ => .list

/-- The conversion functions (`q_type_map_t`) of the accept lists. -/
inductive TypeMap
  /-- The value becomes `NOTHING`. -/
  | assignNothing
  /-- `map_get_plain_hash`. -/
  | plainHash
  /-- `map_get_plain_list`. -/
  | plainList
  /-- `QoreStringNode::parseHex`. -/
  | parseHex
  /-- `QoreStringNode::parseBase64`. -/
  | parseBase64
  /-- `QoreStringNode::parseBase64Url`. -/
  | parseBase64Url
  /-- The conversion to a scalar type (`getAsBigInt`, `getAsFloat` and so on). -/
  | convert (t : NT)
  /-- The conversion of a relative date to milliseconds. -/
  | toMilliseconds
  /-- A new empty list, of elements of the type when there is one. -/
  | newList (vti : Option Ty)
  /-- A new list with the value as its element. -/
  | wrapList (vti : Option Ty)
  /-- The conversion of `softlist<vti>`: `newComplexListFromValue` unless the value already is a
  list of this type. -/
  | softList (vti : Ty) (orNothing : Bool)
  /-- `newComplexListFromValue`. -/
  | complexListFromValue (vti : Ty)
  deriving DecidableEq, Repr

/-- `QoreAcceptSpec`. -/
structure AcceptSpec where
  spec : TypeSpec
  map : Option TypeMap
  exact : Bool
  deriving DecidableEq, Repr

/-- `QoreReturnSpec`. -/
structure ReturnSpec where
  spec : TypeSpec
  exact : Bool
  deriving DecidableEq, Repr

/-! ### The lists -/

/-- An accept specification of a type without conversion. -/
def AcceptSpec.plain (t : NT) : AcceptSpec := ⟨.type t, none, false⟩

/-- An accept specification of a type with a conversion. -/
def AcceptSpec.mapped (t : NT) (map : TypeMap) : AcceptSpec := ⟨.type t, some map, false⟩

/-- The end of the accept list of every "or nothing" type. -/
def orNothingAccepts : List AcceptSpec :=
  [.plain .nothing, .mapped .null .assignNothing]

/-- `QoreBaseTypeInfo` and `QoreBaseOrNothingTypeInfo`. -/
def baseAccepts (t : NT) (orNothing : Bool) : List AcceptSpec :=
  ⟨.type t, none, !orNothing⟩ :: if orNothing then orNothingAccepts else []

/-- The accept list of a soft type: the type itself, what is converted to it, and `NULL`, which
gives the default value of the type or, for an "or nothing" type, `NOTHING`. -/
def softAccepts (t : NT) (from_ : List NT) (orNothing : Bool) : List AcceptSpec :=
  ⟨.type t, none, !orNothing⟩ :: from_.map (fun s => .mapped s (.convert t)) ++
    if orNothing then orNothingAccepts else [.mapped .null (.convert t)]

/-- `QoreHexBinaryTypeInfo` and its siblings. Here the "or nothing" variant is exact too. -/
def textBinaryAccepts (map : TypeMap) (orNothing : Bool) : List AcceptSpec :=
  ⟨.type .binary, none, true⟩ :: .mapped .string map ::
    if orNothing then orNothingAccepts else []

/-- The accept list of a built-in type. -/
def Simple.accepts : Simple → Bool → List AcceptSpec
  | int, on => baseAccepts .int on
  | string, on => baseAccepts .string on
  | bool, on => baseAccepts .boolean on
  | binary, on => baseAccepts .binary on
  | object, on => baseAccepts .object on
  | date, on => baseAccepts .date on
  | null, on => baseAccepts .null on
  | float, on =>
    ⟨.type .float, none, !on⟩ :: .mapped .int (.convert .float) ::
      if on then orNothingAccepts else []
  | number, on =>
    ⟨.type .number, none, !on⟩ :: .mapped .float (.convert .number) ::
      .mapped .int (.convert .number) :: if on then orNothingAccepts else []
  | list, on => ⟨.type .list, some .plainList, !on⟩ :: if on then orNothingAccepts else []
  | hash, on => ⟨.type .hash, some .plainHash, !on⟩ :: if on then orNothingAccepts else []
  | code, on =>
    .plain .runtimeClosure :: .plain .funcref :: if on then orNothingAccepts else []
  | data, on => .plain .string :: .plain .binary :: if on then orNothingAccepts else []
  | softint, on => softAccepts .int [.float, .string, .date, .boolean, .number] on
  | softfloat, on => softAccepts .float [.int, .string, .date, .boolean, .number] on
  | softnumber, on => softAccepts .number [.float, .int, .string, .date, .boolean] on
  | softbool, on => softAccepts .boolean [.float, .int, .string, .date, .number] on
  | softstring, on => softAccepts .string [.boolean, .float, .int, .date, .number] on
  | softdate, on => softAccepts .date [.string, .boolean, .float, .int, .number] on
  | softlist, false =>
    [⟨.type .list, some .plainList, true⟩, .mapped .nothing (.newList none),
      .mapped .all (.wrapList none)]
  | softlist, true =>
    ⟨.type .list, some .plainList, false⟩ :: orNothingAccepts ++ [.mapped .all (.wrapList none)]
  | softbinary, on =>
    ⟨.type .binary, none, true⟩ :: .mapped .string (.convert .binary) ::
      if on then orNothingAccepts else [.mapped .null (.convert .binary)]
  | hexbinary, on => textBinaryAccepts .parseHex on
  | base64binary, on => textBinaryAccepts .parseBase64 on
  | base64urlbinary, on => textBinaryAccepts .parseBase64Url on
  | timeout, on =>
    .plain .int :: .mapped .date .toMilliseconds :: if on then orNothingAccepts else []

/-- The run-time types of the return list of a built-in type, without `NOTHING`. The return lists
of `*hexbinary`, `*base64binary` and `*base64urlbinary` name a hash. -/
def Simple.returnTypes : Simple → Bool → List NT
  | int, _ => [.int]
  | string, _ => [.string]
  | bool, _ => [.boolean]
  | float, _ => [.float]
  | number, _ => [.number]
  | binary, _ => [.binary]
  | list, _ => [.list]
  | hash, _ => [.hash]
  | object, _ => [.object]
  | date, _ => [.date]
  | code, _ => [.runtimeClosure, .funcref]
  | data, _ => [.string, .binary]
  | null, _ => [.null]
  | softint, _ => [.int]
  | softfloat, _ => [.float]
  | softnumber, _ => [.number]
  | softbool, _ => [.boolean]
  | softstring, _ => [.string]
  | softdate, _ => [.date]
  | softlist, _ => [.list]
  | softbinary, _ => [.binary]
  | hexbinary, on => if on then [.hash] else [.binary]
  | base64binary, on => if on then [.hash] else [.binary]
  | base64urlbinary, on => if on then [.hash] else [.binary]
  | timeout, _ => [.int]

/-- A return list with one specification is exact, one with several is not. -/
def returnVec : List TypeSpec → List ReturnSpec
  | [spec] => [⟨spec, true⟩]
  | specs => specs.map fun spec => ⟨spec, false⟩

/-- `NOTHING` at the end of the return list of an "or nothing" type. -/
def orNothingReturns (orNothing : Bool) : List TypeSpec := if orNothing then [.type .nothing] else []

/-- The accept list of a type. -/
def Ty.accepts : Ty → List AcceptSpec
  | any => [.plain .all]
  | auto => [.plain .all]
  | nothing => baseAccepts .nothing false
  | closure => baseAccepts .runtimeClosure false
  | callref => baseAccepts .funcref false
  | emptyHash => [⟨.type .hash, some .plainHash, true⟩]
  | emptyList => [⟨.type .list, none, true⟩]
  | intOrFloat => [.plain .int, .plain .float]
  | intFloatOrNumber => [.plain .int, .plain .float, .plain .number]
  | floatOrNumber => [.plain .float, .plain .number]
  | simple s on => s.accepts on
  | hashDecl hd on => ⟨.hashDecl hd, none, !on⟩ :: if on then orNothingAccepts else []
  | cls qc on => ⟨.cls qc, none, !on⟩ :: if on then orNothingAccepts else []
  -- The "or nothing" variant of a complex hash is exact too, that of a complex list is not.
  | complexHash vti on => ⟨.complexHash vti, none, true⟩ :: if on then orNothingAccepts else []
  | complexList vti on => ⟨.complexList vti, none, !on⟩ :: if on then orNothingAccepts else []
  | complexSoftList auto false =>
    [⟨.complexList auto, none, true⟩, .mapped .nothing (.newList (some auto)),
      .mapped .all (.wrapList (some auto))]
  | complexSoftList auto true =>
    ⟨.complexList auto, none, false⟩ :: orNothingAccepts ++
      [.mapped .all (.wrapList (some auto))]
  | complexSoftList vti on =>
    ⟨.complexSoftList vti, some (.softList vti on), true⟩ ::
      .mapped .list (.complexListFromValue vti) ::
      if on then orNothingAccepts else [.mapped .nothing (.newList (some vti))]

/-- The return list of a type. -/
def Ty.returns : Ty → List ReturnSpec
  | any => [⟨.type .all, false⟩]
  | auto => [⟨.type .all, false⟩]
  | nothing => returnVec [.type .nothing]
  | closure => returnVec [.type .runtimeClosure]
  | callref => returnVec [.type .funcref]
  | emptyHash => returnVec [.emptyHash]
  | emptyList => returnVec [.emptyList]
  | intOrFloat => returnVec [.type .int, .type .float]
  | intFloatOrNumber => returnVec [.type .int, .type .float, .type .number]
  | floatOrNumber => returnVec [.type .float, .type .number]
  | simple s on => returnVec ((s.returnTypes on).map .type ++ orNothingReturns on)
  | hashDecl hd on => returnVec (.hashDecl hd :: orNothingReturns on)
  | cls qc on => returnVec (.cls qc :: orNothingReturns on)
  | complexHash vti on => returnVec (.complexHash vti :: orNothingReturns on)
  | complexList vti on => returnVec (.complexList vti :: orNothingReturns on)
  | complexSoftList auto on => returnVec (.complexList auto :: orNothingReturns on)
  | complexSoftList vti on => returnVec (.complexSoftList vti :: orNothingReturns on)

/-! ### Queries -/

/-- The first run-time type of the accept list. -/
def Ty.acceptsAll (ti : Ty) : Bool :=
  match ti.accepts with
  | [] => false
  | a :: _ => a.spec.getType = .all

/-- `QoreTypeInfo::hasType`. -/
def hasType : Option Ty → Bool
  | none => false
  | some ti => !ti.acceptsAll

/-- `QoreTypeInfo::isType`: the type returns the given run-time type only. -/
def isType : Option Ty → NT → Bool
  | none, _ => false
  | some ti, t =>
    match ti.returns with
    | [r] => t = r.spec.getType
    | _ => false

/-- A value of a run-time type is returned by a declared type. -/
def Ty.Returns (ti : Ty) (t : NT) : Prop := ∃ r ∈ ti.returns, r.spec.getType = t

/-- Only `any`, `auto` and a missing type have no type. -/
theorem hasType_iff (ti : Option Ty) :
    hasType ti = true ↔ ti ≠ none ∧ ti ≠ some .any ∧ ti ≠ some .auto := by
  cases ti with
  | none => simp [hasType]
  | some ti =>
    cases ti with
    | simple s on => cases s <;> cases on <;> simp [hasType] <;> decide
    | complexSoftList vti on => cases vti <;> cases on <;> simp [hasType] <;> rfl
    | _ => simp [hasType] <;> rfl

theorem isType_iff (ti : Ty) (t : NT) :
    isType (some ti) t = true ↔ ∃ r, ti.returns = [r] ∧ r.spec.getType = t := by
  simp only [isType]
  split
  · next r heq => simp [heq, eq_comm]
  · next hne =>
    refine iff_of_false (by simp) ?_
    rintro ⟨r, heq, -⟩
    exact hne r heq

/-- A known type never returns a value of any type. -/
theorem getType_ne_all {ti : Ty} (h : hasType (some ti)) {r : ReturnSpec} (hr : r ∈ ti.returns) :
    r.spec.getType ≠ .all := by
  have hall : ti.returns.all (fun r => r.spec.getType ≠ .all) = true := by
    cases ti with
    | any => exact absurd h (by decide)
    | auto => exact absurd h (by decide)
    | simple s on => cases s <;> cases on <;> rfl
    | complexSoftList vti on => cases vti <;> cases on <;> rfl
    | hashDecl _ on | cls _ on | complexHash _ on | complexList _ on => cases on <;> rfl
    | _ => rfl
  simpa using List.all_eq_true.1 hall r hr

end Qore.Types
