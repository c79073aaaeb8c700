import Qore.Types.Value

/-!
# `Qore.Types.Accept`: assignment and overload resolution at run time

`QoreTypeSpec::acceptInput` tests a value against an accept specification and converts it in place;
`runtimeAcceptsValue` rates how well a value fits a type without changing it. Both work through the
accept list of the type and, for complex types, recur on the element type.
-/

set_option autoImplicit false

namespace Qore.Types

open Qore.Date

/-- The exceptions of an assignment. -/
inductive AcceptError
  /-- `doTypeException`: the type expects another value. -/
  | type (expected : Ty) (got : NT)
  /-- `doPrivateClassException`: the class is privately inherited. -/
  | privateClass (expected : Ty)
  /-- The text is not a valid encoding of a binary value. -/
  | text (map : TypeMap)
  deriving DecidableEq, Repr

/-- What run-time checks depend on besides the types: the parse options in force, the conversions
between scalar values, which always succeed, the parsers of texts, and the relation of classes
(`type_spec_accept_object` says whether an object's class is derived from a class and whether it is
accessible). -/
structure RunEnv where
  parse : ParseEnv
  toInt : Value → Int64
  toFloat : Value → Rat
  toNumber : Value → Rat
  toBool : Value → Bool
  toText : Value → String
  toDate : Value → DateTime
  toBinary : Value → List UInt8
  relativeMilliseconds : Value → Int64
  parseText : TypeMap → String → Option (List UInt8)
  acceptObject : Nat → Nat → Option Bool
  runtimeCheckCompatibleClass : Nat → Nat → Match

/-! ### Type queries -/

/-- `QoreTypeSpec::matchType` finds a match, given `parseAcceptsReturns` of the element type. -/
def TypeSpec.matchesType (elem : NT → Bool) : TypeSpec → NT → Bool
  | .type u, t => u = .all ∨ u = t
  | .cls _, t => t = .object
  | .hashDecl _, t => t = .hash
  | .complexHash _, t => t = .hash
  | .complexList _, t => t = .list
  | .complexSoftList _, t => t = .list ∨ elem t
  | .emptyList, t => t = .list
  | .emptyHash, t => t = .hash

/-- `QoreTypeInfo::parseAcceptsReturns`, given that of the element type. -/
def Ty.parseAcceptsReturnsWith (elem : NT → Bool) (ti : Ty) (t : NT) : Bool :=
  if hasType (some ti) then
    ti.accepts.any (fun a => a.spec.matchesType elem t) &&
      ti.returns.any (fun r => r.spec.matchesType elem t)
  else true

/-- `QoreTypeInfo::parseAcceptsReturns`. -/
def Ty.parseAcceptsReturns : Ty → NT → Bool
  | complexHash vti on => (complexHash vti on).parseAcceptsReturnsWith vti.parseAcceptsReturns
  | complexList vti on => (complexList vti on).parseAcceptsReturnsWith vti.parseAcceptsReturns
  | complexSoftList vti on =>
    (complexSoftList vti on).parseAcceptsReturnsWith vti.parseAcceptsReturns
  | ti => ti.parseAcceptsReturnsWith fun _ => false

/-- `get_value_type_intern` for the types of lists and hashes. -/
def Ty.valueTypeIntern (ti : Ty) : Ty :=
  match ti.firstReturn with
  | some (.hashDecl hd) => .hashDecl hd false
  | some (.cls qc) => .cls qc false
  | some (.complexHash vti) => .complexHash vti false
  | some (.complexList vti) => .complexList vti false
  | some (.complexSoftList vti) => .complexList vti false
  | _ => .auto

/-- `get_value_type`. -/
def Ty.valueType (ti : Ty) : Ty :=
  if ti.parseAcceptsReturns .nothing then ti.valueTypeIntern else ti

/-- The specifications of the second list start the first one. -/
def specsCover (elem : Ty → Bool) : List TypeSpec → List TypeSpec → Bool
  | _, [] => true
  | a :: as, b :: bs => a.equal elem b && specsCover elem as bs
  | [], _ :: _ => false

/-- `QoreTypeInfo::superSetOf`. -/
def superSetOf (first : Ty) (second : Option Ty) : Bool :=
  if hasType (some first) then
    match second with
    | none => false
    | some second =>
      hasType (some second) &&
        specsCover first.elemEqual (first.accepts.map (·.spec)) (second.accepts.map (·.spec)) &&
        specsCover first.elemEqual (first.returns.map (·.spec)) (second.returns.map (·.spec))
  else hasType second

/-! ### Rating a value -/

section
variable (env : RunEnv)

/-- `QoreTypeInfo::parseAccepts(first, second)` finds a match. -/
def elementsMatch (ti : Ty) : Option Ty → Bool
  | none => false
  | some vti => hasType (some vti) ∧ (parseAccepts env.parse ti vti).1 ≠ .notEqual

/-- A match that is only perfect for an exact specification. -/
def exactMatch (exact : Bool) : Match := if exact then .ident else .ambiguous

/-- The case of a class in `runtimeAcceptsValue`: a deleted object has no match. -/
def ratesObject (qc objClass : Nat) (valid exact : Bool) : Match :=
  match env.runtimeCheckCompatibleClass qc objClass with
  | .notEqual => .notEqual
  | rv => if !valid then .notEqual else if rv = .ident then exactMatch exact else .ambiguous

/-- The cases of lists in `runtimeAcceptsValue`: `isList` for a list or a weak reference to one,
`soft` is `runtimeAcceptsValue` of the element type of a soft list. -/
def ratesList (ti : Ty) (isList : Bool) (vti : Option Ty) (exact : Bool) (soft : Match) : Match :=
  if isList ∧ ti = .auto then .near
  else if elementsMatch env ti vti then exactMatch exact
  else if soft = .ident then .near
  else soft

/-- `QoreTypeSpec::runtimeAcceptsValue`, given that of the element type. -/
def TypeSpec.runtimeAcceptsValue (elem : Value → Match) (spec : TypeSpec) (n : Value)
    (exact : Bool) : Match :=
  match spec, n with
  | .cls qc, .object c _ valid => ratesObject env qc c valid exact
  | .cls qc, .weakObject c _ valid => ratesObject env qc c valid exact
  | .cls _, _ => .notEqual
  | .hashDecl hd, .hash _ hd' _ _ => if hd' = some hd then exactMatch exact else .notEqual
  | .hashDecl hd, .weakHash _ hd' _ _ => if hd' = some hd then exactMatch exact else .notEqual
  | .hashDecl _, _ => .notEqual
  | .complexHash ti, .hash _ _ cti _ => ratesList env ti true (hashValueType cti) exact .notEqual
  | .complexHash ti, .weakHash _ _ cti _ =>
    ratesList env ti true (hashValueType cti) exact .notEqual
  | .complexHash _, _ => .notEqual
  | .complexList ti, .list _ cti _ => ratesList env ti true (listValueType cti) exact .notEqual
  | .complexList ti, .weakList _ cti _ => ratesList env ti true (listValueType cti) exact .notEqual
  | .complexList _, _ => .notEqual
  | .complexSoftList ti, .list u cti es =>
    ratesList env ti true (listValueType cti) exact (elem (.list u cti es))
  | .complexSoftList ti, .weakList u cti es =>
    ratesList env ti true (listValueType cti) exact (elem (.weakList u cti es))
  | .complexSoftList ti, n => ratesList env ti false none exact (elem n)
  | .emptyList, n => ratesType .list n exact
  | .emptyHash, n => ratesType .hash n exact
  | .type t, n => ratesType t n exact
where
  /-- The cases of a run-time type: a typed container is not a perfect match. -/
  ratesType (t : NT) (n : Value) (exact : Bool) : Match :=
    match t, n with
    | .hash, .hash _ hd cti _ => if hd.isSome ∨ cti.isSome then .near else exactMatch exact
    | .hash, .weakHash _ hd cti _ => if hd.isSome ∨ cti.isSome then .near else exactMatch exact
    | .list, .list _ cti _ => if cti.isSome then .near else exactMatch exact
    | .list, .weakList _ cti _ => if cti.isSome then .near else exactMatch exact
    | t, n => if t = .all ∨ t = n.getType then exactMatch exact else .notEqual

/-- The loop of `QoreTypeInfo::runtimeAcceptsValue` over the accept list. -/
def runtimeLoop (elem : Value → Match) (n : Value) : List AcceptSpec → Match
  | [] => .notEqual
  | a :: as =>
    let rv := a.spec.runtimeAcceptsValue env elem n a.exact
    if rv ≠ .notEqual then rv else runtimeLoop elem n as

/-- `QoreTypeInfo::runtimeAcceptsValue` on pointers, given that of the element type. -/
def Ty.runtimeAcceptsValueWith (elem : Value → Match) (ti : Ty) (n : Value) : Match :=
  if hasType (some ti) then runtimeLoop env elem n ti.accepts else .wildcard

/-- `QoreTypeInfo::runtimeAcceptsValue`. -/
def Ty.runtimeAcceptsValue : Ty → Value → Match
  | complexHash vti on => (complexHash vti on).runtimeAcceptsValueWith env vti.runtimeAcceptsValue
  | complexList vti on => (complexList vti on).runtimeAcceptsValueWith env vti.runtimeAcceptsValue
  | complexSoftList vti on =>
    (complexSoftList vti on).runtimeAcceptsValueWith env vti.runtimeAcceptsValue
  | ti => ti.runtimeAcceptsValueWith env fun _ => .notEqual

/-! ### Accepting a value -/

/-- A value in a copied container has a second reference. -/
def Value.share : Value → Value
  | .list _ cti es => .list false cti es
  | .hash _ hd cti kvs => .hash false hd cti kvs
  | v => v

/-- The loop that folds the members of a hash. -/
def foldMembers (elem : Value → Except AcceptError Value) :
    List (String × Value) → Except AcceptError (List (String × Value))
  | [] => .ok []
  | (k, v) :: kvs => do
    let w ← elem v
    let kvs ← foldMembers elem kvs
    return (k, w) :: kvs

/-- The loop that folds the elements of a list. -/
def foldEntries (elem : Value → Except AcceptError Value) :
    List Value → Except AcceptError (List Value)
  | [] => .ok []
  | v :: vs => do
    let w ← elem v
    let vs ← foldEntries elem vs
    return w :: vs

/-- `QoreTypeSpec::acceptInputComplexHash`: a hash of another type is folded into the type, in
place when it is referenced once and else in a copy. -/
def acceptInputComplexHash (elem : Value → Except AcceptError Value) (typeInfo ti : Ty)
    (unique : Bool) (hd : Option Nat) (cti : Option Ty) (kvs : List (String × Value)) :
    Except AcceptError Value :=
  if typesEqual (some ti) (hashValueType cti) then .ok (.hash unique hd cti kvs)
  else if unique then do
    let kvs ← foldMembers elem kvs
    return .hash true hd (some typeInfo) kvs
  else do
    let kvs ← foldMembers elem (kvs.map fun kv => (kv.1, kv.2.share))
    return .hash true none (some typeInfo.valueType) kvs

/-- `QoreTypeSpec::acceptInputComplexHash` for a weak reference: only a copy replaces the
reference. -/
def acceptInputWeakHash (elem : Value → Except AcceptError Value) (typeInfo ti : Ty)
    (unique : Bool) (hd : Option Nat) (cti : Option Ty) (kvs : List (String × Value)) :
    Except AcceptError Value :=
  if typesEqual (some ti) (hashValueType cti) then .ok (.weakHash unique hd cti kvs)
  else if unique then do
    let kvs ← foldMembers elem kvs
    return .weakHash true hd (some typeInfo) kvs
  else do
    let kvs ← foldMembers elem (kvs.map fun kv => (kv.1, kv.2.share))
    return .hash true none (some typeInfo.valueType) kvs

/-- `QoreTypeSpec::acceptInputComplexList`. -/
def acceptInputComplexList (elem : Value → Except AcceptError Value) (typeInfo ti : Ty)
    (unique : Bool) (cti : Option Ty) (es : List Value) : Except AcceptError Value :=
  if typesEqual (some ti) (listValueType cti) then .ok (.list unique cti es)
  else if unique then do
    let es ← foldEntries elem es
    return .list true (some typeInfo) es
  else do
    let es ← foldEntries elem (es.map Value.share)
    return .list true (some typeInfo.valueType) es

/-- An assignment to a type that is not known: only `auto` keeps complex types. -/
def acceptUntyped (ti : Ty) (n : Value) : Value := if ti = .auto then n else n.strip

/-- `qore_list_private::newComplexListFromValue` for `list<vti>`, given `acceptAssignment` of the
element type. -/
def newComplexListFromValue (assign : Value → Except AcceptError Value) (vti : Ty) :
    Value → Except AcceptError Value
  | .list u cti es =>
    if (cti.any fun lti => (Ty.complexList vti false).equal lti) then .ok (.list u cti es)
    else do
      let es ← foldEntries (fun e => if superSetOf vti e.getTypeInfo then .ok e else assign e)
        (if u then es else es.map Value.share)
      return .list true (some (.complexList vti false)) es
  | .nothing => .ok (.list true (some (.complexList vti false)) [])
  | v => do
    let w ← assign v
    return .list true (some (.complexList vti false)) [w]

/-- The conversion of a value to a scalar type. -/
def convertTo : NT → Value → Value
  | .int, n => .int (env.toInt n)
  | .float, n => .float (env.toFloat n)
  | .number, n => .number (env.toNumber n)
  | .boolean, n => .bool (env.toBool n)
  | .string, n => .string (env.toText n)
  | .date, n => .date (env.toDate n)
  | .binary, n => .binary (env.toBinary n)
  | _, n => n

/-- The effect of a conversion function, given `acceptAssignment` of the element type. -/
def TypeMap.apply (assign : Value → Except AcceptError Value) :
    TypeMap → Value → Except AcceptError Value
  | .assignNothing, _ => .ok .nothing
  | .plainHash, n => .ok n.strip
  | .plainList, n => .ok n.strip
  | .convert t, n => .ok (convertTo env t n)
  | .toMilliseconds, n => .ok (.int (env.relativeMilliseconds n))
  | .newList vti, _ => .ok (.list true (vti.map fun t => .complexList t false) [])
  -- `QoreListNode::push` strips the element of a list without a type.
  | .wrapList none, n => .ok (.list true none [n.strip])
  | .wrapList (some vti), n => .ok (.list true (some (.complexList vti false)) [n])
  | .softList vti on, n =>
    match n with
    | .nothing => if on then .ok .nothing else newComplexListFromValue assign vti .nothing
    | .list u cti es =>
      if listValueType cti = some vti then .ok (.list u cti es)
      else newComplexListFromValue assign vti (.list u cti es)
    | n => newComplexListFromValue assign vti n
  | .complexListFromValue vti, n => newComplexListFromValue assign vti n
  -- `parseHex`, `parseBase64` and `parseBase64Url`
  | map, .string s =>
    match env.parseText map s with
    | some bytes => .ok (.binary bytes)
    | none => .error (.text map)
  | map, _ => .error (.text map)

/-- `QoreTypeSpec::acceptInput` before the conversion: `none` when the value is not accepted.
`elem` is `acceptInputIntern` and `runtime` `runtimeAcceptsValue` of the element type. -/
def TypeSpec.accept (elem : Value → Except AcceptError Value) (runtime : Value → Match)
    (typeInfo : Ty) (spec : TypeSpec) (n : Value) : Option (Except AcceptError Value) :=
  match spec, n with
  | .cls qc, .object c _ _ => acceptObject qc c
  | .cls qc, .weakObject c _ _ => acceptObject qc c
  | .cls _, _ => none
  | .hashDecl hd, .hash _ hd' _ _ => if hd' = some hd then some (.ok n) else none
  | .hashDecl hd, .weakHash _ hd' _ _ => if hd' = some hd then some (.ok n) else none
  | .hashDecl _, _ => none
  | .complexHash ti, .hash u hd cti kvs =>
    if ti = .auto then some (.ok n)
    else some (acceptInputComplexHash elem typeInfo ti u hd cti kvs)
  | .complexHash ti, .weakHash u hd cti kvs =>
    if ti = .auto then some (.ok n)
    else some (acceptInputWeakHash elem typeInfo ti u hd cti kvs)
  | .complexHash _, _ => none
  | .complexList ti, .list u cti es =>
    if ti = .auto then some (.ok n)
    else some (acceptInputComplexList elem typeInfo ti u cti es)
  | .complexList _, _ => none
  | .complexSoftList ti, .list u cti es =>
    if ti = .auto then some (.ok n)
    else some (acceptInputComplexList elem typeInfo ti u cti es)
  | .complexSoftList _, n => if runtime n ≠ .notEqual then some (.ok n) else none
  | .emptyList, n => if n.getType = .list then some (.ok n) else none
  | .emptyHash, n => if n.getType = .hash then some (.ok n) else none
  | .type t, n => if t = .all ∨ t = n.getType then some (.ok n) else none
where
  /-- `type_spec_accept_object`. -/
  acceptObject (qc c : Nat) : Option (Except AcceptError Value) :=
    match env.acceptObject qc c with
    | none => none
    | some true => some (.ok n)
    | some false => some (.error (.privateClass typeInfo))

/-- `QoreTypeSpec::acceptInput`: the conversion function is applied to an accepted value. -/
def AcceptSpec.acceptInput (elem assign : Value → Except AcceptError Value)
    (runtime : Value → Match) (typeInfo : Ty) (a : AcceptSpec) (n : Value) :
    Option (Except AcceptError Value) :=
  match a.spec.accept env elem runtime typeInfo n with
  | none => none
  | some r =>
    match a.map with
    | none => some r
    | some map => some (r.bind (map.apply env assign))

/-- The loop of `QoreTypeInfo::acceptInputIntern` over the accept list. -/
def acceptInputLoop (elem assign : Value → Except AcceptError Value) (runtime : Value → Match)
    (typeInfo : Ty) (n : Value) : List AcceptSpec → Except AcceptError Value
  | [] => .error (.type typeInfo n.getType)
  | a :: as =>
    match a.acceptInput env elem assign runtime typeInfo n with
    | some r => r
    | none => acceptInputLoop elem assign runtime typeInfo n as

/-- An assignment to the element type: only a known type checks the value. -/
def assignWith (elem : Value → Except AcceptError Value) (ti : Ty) (n : Value) :
    Except AcceptError Value :=
  if hasType (some ti) then elem n else .ok (acceptUntyped ti n)

/-- `QoreTypeInfo::acceptInputIntern`, given that of the element type. -/
def Ty.acceptInputInternWith (elem : Value → Except AcceptError Value) (ti vti : Ty) (n : Value) :
    Except AcceptError Value :=
  acceptInputLoop env elem (assignWith elem vti) (vti.runtimeAcceptsValue env) ti n ti.accepts

/-- `QoreTypeInfo::acceptInputIntern`. -/
def Ty.acceptInputIntern : Ty → Value → Except AcceptError Value
  | complexHash vti on => (complexHash vti on).acceptInputInternWith env vti.acceptInputIntern vti
  | complexList vti on => (complexList vti on).acceptInputInternWith env vti.acceptInputIntern vti
  | complexSoftList vti on =>
    (complexSoftList vti on).acceptInputInternWith env vti.acceptInputIntern vti
  | ti => ti.acceptInputInternWith env (fun n => .error (.type ti n.getType)) .any

/-- `QoreTypeInfo::acceptAssignment`, `acceptInputParam` and their siblings. -/
def Ty.acceptInput (ti : Ty) (n : Value) : Except AcceptError Value :=
  assignWith (ti.acceptInputIntern env) ti n

end

end Qore.Types
