import Qore.Types.Model

/-!
# `Qore.Types.Parse`: matching types when a program is parsed

`QoreTypeInfo::parseAccepts` compares every return specification of a type with the accept
specifications of another one. Besides the match it leaves two flags: whether a value may not match
at run time, and whether a value may need a conversion. Complex types compare their element types
in the same way; the recursion is on the accepting type.
-/

set_option autoImplicit false

namespace Qore.Types

/-- What matching depends on besides the types: the parse option `PO_STRICT_TYPES` and
`parseCheckCompatibleClass`, which gives the match of two classes and whether it may fail at run
time. -/
structure ParseEnv where
  strictTypes : Bool
  parseCheckCompatibleClass : Nat → Nat → Match × Bool

/-- The flags `may_not_match` and `may_need_filter`. -/
structure Flags where
  mayNotMatch : Bool
  mayNeedFilter : Bool
  deriving DecidableEq, Repr

/-- Both flags unset. -/
def Flags.clear : Flags := ⟨false, false⟩

/-- The result of a match with its flags. -/
abbrev Matched := Match × Flags

/-! ### Equality of types -/

/-- `QoreTypeSpec::operator==`, given the comparison with the element type of the first one. -/
def TypeSpec.equal (elem : Ty → Bool) : TypeSpec → TypeSpec → Bool
  | .complexHash _, .complexHash b => elem b
  | .complexList _, .complexList b => elem b
  | .complexSoftList _, .complexSoftList b => elem b
  | a, b => a = b

/-- `typespec_vec_compare`. -/
def specsEqual (elem : Ty → Bool) : List TypeSpec → List TypeSpec → Bool
  | [], [] => true
  | a :: as, b :: bs => a.equal elem b && specsEqual elem as bs
  | _, _ => false

/-- `QoreTypeInfo::equal`, given the comparison with the element type of the first one. -/
def Ty.equalWith (elem : Ty → Bool) (a b : Ty) : Bool :=
  if a = b then true
  else if hasType (some a) && hasType (some b) then
    specsEqual elem (a.accepts.map (·.spec)) (b.accepts.map (·.spec)) &&
      specsEqual elem (a.returns.map (·.spec)) (b.returns.map (·.spec))
  else !hasType (some a) && !hasType (some b)

/-- `QoreTypeInfo::equal`. -/
def Ty.equal : Ty → Ty → Bool
  | complexHash vti on => (complexHash vti on).equalWith vti.equal
  | complexList vti on => (complexList vti on).equalWith vti.equal
  | complexSoftList vti on => (complexSoftList vti on).equalWith vti.equal
  | a => a.equalWith fun _ => false

/-- `QoreTypeInfo::equal` with the element type of a complex type. -/
def Ty.elemEqual : Ty → Ty → Bool
  | complexHash vti _ => vti.equal
  | complexList vti _ => vti.equal
  | complexSoftList vti _ => vti.equal
  | _ => fun _ => false

/-- `QoreTypeInfo::equal` on pointers. -/
def typesEqual : Option Ty → Option Ty → Bool
  | some a, some b => a.equal b
  | a, b => !hasType a && !hasType b

/-! ### Specifications -/

/-- `getTypeInfoForType`. The names of closures and call references are mapped to `code`, and
`auto` is registered after `any`. -/
def getTypeInfoForType : NT → Option Ty
  | .nothing => some .nothing
  | .int => some (.simple .int false)
  | .float => some (.simple .float false)
  | .string => some (.simple .string false)
  | .date => some (.simple .date false)
  | .boolean => some (.simple .bool false)
  | .null => some (.simple .null false)
  | .binary => some (.simple .binary false)
  | .list => some (.simple .list false)
  | .hash => some (.simple .hash false)
  | .object => some (.simple .object false)
  | .all => some .auto
  | .runtimeClosure => some (.simple .code false)
  | .funcref => some (.simple .code false)
  | .number => some (.simple .number false)
  | .weakref => none
  | .weakrefHash => none
  | .weakrefList => none

/-- `QoreTypeSpec::getTypeInfo`. -/
def TypeSpec.getTypeInfo : TypeSpec → Option Ty
  | type t => getTypeInfoForType t
  | cls qc => some (.cls qc false)
  | hashDecl hd => some (.hashDecl hd false)
  | complexHash ti => some (.complexHash ti false)
  | complexList ti => some (.complexList ti false)
  | complexSoftList ti => some (.complexList ti false)
  | emptyList => some .emptyList
  | emptyHash => some .emptyHash

section
variable (env : ParseEnv)

/-- A value that may not match at run time: no match with `%strict-types`. -/
def mayMatch (fl : Flags) : Matched :=
  if env.strictTypes then (.notEqual, fl) else (.ambiguous, { fl with mayNotMatch := true })

/-- `QoreTypeSpec::checkMatchType` for the run-time type `ut`. -/
def checkMatchType (ut : NT) (t : TypeSpec) (fl : Flags) : Matched :=
  if ut = .all then (if t.getType = .all then .near else .wildcard, fl)
  else if t.getType = .all then mayMatch env fl
  else if ut = t.getType then
    match t with
    | .type _ | .emptyList | .emptyHash => (.ident, fl)
    | _ => if ut = .list ∨ ut = .hash then (.near, fl) else (.ident, fl)
  else (.notEqual, fl)

/-- `match_type`. `elem` is `parseAccepts` of `thisType`; equal pointers are identical types. -/
def matchType (elem : Option Ty → Flags → Matched) (thisType : Ty) (thatType : Option Ty)
    (fl : Flags) : Matched :=
  let (res, fl) := if some thisType = thatType then (.ident, fl) else elem thatType fl
  if fl.mayNotMatch && env.strictTypes then (.notEqual, fl)
  else if res = .ident ∧ !fl.mayNeedFilter ∧ !typesEqual (some thisType) thatType then
    (.ambiguous, { fl with mayNeedFilter := true })
  else (res, fl)

/-- The cases of `QoreTypeSpec::match` for complex lists. -/
def matchComplexList (elem : Option Ty → Flags → Matched) (soft : Bool) (ti : Ty) (t : TypeSpec)
    (fl : Flags) : Matched :=
  match t with
  | .complexSoftList ti' | .complexList ti' =>
    if ti = .auto then (.near, fl) else matchType env elem ti (some ti') fl
  | .emptyList => (.near, fl)
  | .type .list => if ti = .auto then (.near, fl) else matchElement
  | .type .all => mayMatch env fl
  | _ => matchElement
where
  /-- A soft list also matches what its element type matches. -/
  matchElement : Matched :=
    if soft then matchType env elem ti t.getTypeInfo fl else (.notEqual, fl)

/-- `QoreTypeSpec::match`: `spec` is the expecting specification, `t` the one to match. `elem` is
`parseAccepts` of the element type of `spec`. -/
def TypeSpec.match (elem : Option Ty → Flags → Matched) (spec t : TypeSpec) (fl : Flags) :
    Matched :=
  match spec with
  | .cls qc =>
    match t with
    | .cls qc' =>
      let (res, may) := env.parseCheckCompatibleClass qc' qc
      (res, { fl with mayNotMatch := fl.mayNotMatch || may })
    | _ => if t.getType = .all ∨ t.getType = .object then mayMatch env fl else (.notEqual, fl)
  | .hashDecl hd =>
    match t with
    | .hashDecl hd' => (if hd' = hd then .ident else .notEqual, fl)
    | .type nt => if nt = .all ∨ nt = .hash then mayMatch env fl else (.notEqual, fl)
    | _ => (.notEqual, fl)
  | .complexHash ti =>
    match t with
    | .complexHash ti' =>
      if ti = .auto then (.near, fl) else matchType env elem ti (some ti') fl
    | .emptyHash => (.near, fl)
    | .hashDecl _ => (if ti = .auto then .near else .notEqual, fl)
    | .type nt =>
      if nt = .hash ∧ ti = .auto then (.near, fl)
      else if nt = .all then mayMatch env fl else (.notEqual, fl)
    | _ => (.notEqual, fl)
  | .complexList ti => matchComplexList env elem false ti t fl
  | .complexSoftList ti => matchComplexList env elem true ti t fl
  | .type ut => checkMatchType env ut t fl
  | .emptyList => checkMatchType env .list t fl
  | .emptyHash => checkMatchType env .hash t fl

/-! ### Types -/

/-- The variables of the loops of `parseAccepts`: the flags, `t_no_match` and `ok`. -/
structure Loop where
  flags : Flags
  tNoMatch : Bool
  ok : Bool
  deriving DecidableEq, Repr

/-- A conversion function sets `may_need_filter`. -/
def Flags.filtered (fl : Flags) (map : Option TypeMap) : Flags :=
  { fl with mayNeedFilter := fl.mayNeedFilter || map.isSome }

/-- `QoreTypeInfo::parseAcceptsIntern`. -/
def parseAcceptsIntern (elem : Option Ty → Flags → Matched) (a : AcceptSpec) (r : ReturnSpec)
    (l : Loop) : Match × Loop :=
  let (res, fl) := a.spec.match env elem r.spec l.flags
  if res = .ident ∧ a.exact ∧ r.exact then (.ident, { l with flags := fl.filtered a.map })
  else if res = .notEqual then (.notEqual, { l with flags := fl })
  else
    let fl := fl.filtered a.map
    if l.tNoMatch then
      (if !l.ok ∧ fl.mayNotMatch then res else .notEqual,
        { flags := fl, tNoMatch := false, ok := true })
    else (.notEqual, { l with flags := fl })

/-- The loop over the accept list for one return specification; the match when `parseAccepts` is
left. -/
def acceptLoop (elem : Option Ty → Flags → Matched) (r : ReturnSpec) :
    List AcceptSpec → Loop → Option Match × Loop
  | [], l => (none, l)
  | a :: as, l =>
    let (res, l) := parseAcceptsIntern env elem a r l
    if res = .ident then (some .ident, l)
    else if res = .notEqual then acceptLoop elem r as l
    else if l.flags.mayNotMatch then (some res, l) else (none, l)

/-- The loop over the return list. -/
def returnLoop (elem : Option Ty → Flags → Matched) (as : List AcceptSpec) :
    List ReturnSpec → Flags → Bool → Matched
  | [], fl, ok => if ok then (.ambiguous, fl) else (.notEqual, { fl with mayNotMatch := false })
  | r :: rs, fl, ok =>
    match acceptLoop env elem r as { flags := fl, tNoMatch := true, ok } with
    | (some res, l) => (res, l.flags)
    | (none, l) =>
      if l.tNoMatch ∧ !l.flags.mayNotMatch then
        if env.strictTypes then (.notEqual, l.flags)
        else if l.ok then (.ambiguous, { l.flags with mayNotMatch := true })
        else returnLoop elem as rs { l.flags with mayNotMatch := true } l.ok
      else returnLoop elem as rs l.flags l.ok

/-- `QoreTypeInfo::isComplex`. -/
def isComplex : Option Ty → Bool
  | none => false
  | some ti => ti.returns.any fun r =>
      match r.spec with
      | .hashDecl _ | .complexHash _ | .complexList _ | .complexSoftList _ => true
      | _ => false

/-- `QoreTypeInfo::parseAccepts` with its flags, given that of the element type. -/
def Ty.parseAcceptsWith (elem : Option Ty → Flags → Matched) (first : Ty) (second : Option Ty)
    (fl : Flags) : Matched :=
  if first = .auto then (.wildcard, fl)
  else if !hasType (some first) then
    (.wildcard, { fl with mayNeedFilter := fl.mayNeedFilter || isComplex second })
  else
    match second with
    | none => unknown
    | some second =>
      if !hasType (some second) then unknown
      else if second.returns.length > first.accepts.length then
        if env.strictTypes then (.notEqual, fl)
        else returnLoop env elem first.accepts second.returns { fl with mayNotMatch := true } false
      else returnLoop env elem first.accepts second.returns fl false
where
  /-- Nothing is known about the second type. -/
  unknown : Matched :=
    mayMatch env
      { fl with mayNeedFilter := fl.mayNeedFilter || first.accepts.any (·.map.isSome) }

/-- `QoreTypeInfo::parseAccepts` with its flags. -/
def Ty.parseAccepts : Ty → Option Ty → Flags → Matched
  | complexHash vti on => (complexHash vti on).parseAcceptsWith env vti.parseAccepts
  | complexList vti on => (complexList vti on).parseAcceptsWith env vti.parseAccepts
  | complexSoftList vti on => (complexSoftList vti on).parseAcceptsWith env vti.parseAccepts
  | first => first.parseAcceptsWith env fun _ fl => (.notEqual, fl)

/-- `QoreTypeInfo::parseAccepts(first, second, may_not_match)`: the match and the flag. -/
def parseAccepts (first second : Ty) : Match × Bool :=
  if first = second then (.ident, false)
  else
    let (res, fl) := first.parseAccepts env (some second) .clear
    (res, fl.mayNotMatch)

/-- `QoreTypeInfo::parseReturns`. -/
def parseReturns (ti : Option Ty) (t : NT) : Match :=
  match ti with
  | none => .wildcard
  | some ti =>
    if !hasType (some ti) then .wildcard
    else
      match ti.returns with
      | [r] => specMatch r
      | rs =>
        match rs.find? fun r => specMatch r ≠ .notEqual with
        | none => .notEqual
        | some r => if r.exact then .ident else .ambiguous
where
  specMatch (r : ReturnSpec) : Match :=
    ((TypeSpec.type t).match env (fun _ fl => (.notEqual, fl)) r.spec .clear).1

/-- The match of a run-time type with a specification of a known type. -/
theorem specMatch_ne_iff {t : NT} {r : ReturnSpec} (ht : t ≠ .all) (hr : r.spec.getType ≠ .all) :
    parseReturns.specMatch env t r ≠ .notEqual ↔ r.spec.getType = t := by
  simp only [parseReturns.specMatch, TypeSpec.match, checkMatchType, if_neg ht, if_neg hr]
  by_cases heq : t = r.spec.getType
  · rw [if_pos heq]
    refine iff_of_true ?_ heq.symm
    split
    case h_4 => split <;> simp
    all_goals simp
  · rw [if_neg heq]
    exact iff_of_false (by simp) fun h => heq h.symm

/-- A type may return a run-time type when nothing is known about it or its return list names
it. -/
theorem parseReturns_ne_iff (ti : Ty) {t : NT} (ht : t ≠ .all) :
    parseReturns env (some ti) t ≠ .notEqual ↔ hasType (some ti) = false ∨ ti.Returns t := by
  unfold parseReturns
  by_cases htype : hasType (some ti) = true
  · have hspec (r : ReturnSpec) (hr : r ∈ ti.returns) :
        parseReturns.specMatch env t r ≠ .notEqual ↔ r.spec.getType = t :=
      specMatch_ne_iff env ht (getType_ne_all htype hr)
    have hreturns : (∃ r ∈ ti.returns, parseReturns.specMatch env t r ≠ .notEqual) ↔
        ti.Returns t := by
      constructor
      · rintro ⟨r, hr, h⟩
        exact ⟨r, hr, (hspec r hr).1 h⟩
      · rintro ⟨r, hr, h⟩
        exact ⟨r, hr, (hspec r hr).2 h⟩
    simp only [htype, Bool.not_true, Bool.false_eq_true, if_false, false_or, reduceCtorEq]
    rw [← hreturns]
    split
    · next r heq => simp [heq]
    · cases hfind : ti.returns.find? fun r => parseReturns.specMatch env t r ≠ .notEqual with
      | none =>
        simp only [List.find?_eq_none, decide_eq_true_eq] at hfind
        exact iff_of_false (by simp) fun h => h.elim fun r hr => hfind r hr.1 hr.2
      | some r =>
        have hmem := List.mem_of_find?_eq_some hfind
        have hr : parseReturns.specMatch env t r ≠ .notEqual := by
          simpa using List.find?_some hfind
        refine iff_of_true ?_ ⟨r, hmem, hr⟩
        dsimp only
        split <;> simp
  · simp [htype]

end

end Qore.Types
