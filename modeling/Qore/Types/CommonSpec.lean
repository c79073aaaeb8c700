import Mathlib
import Qore.Types.Common

/-!
# `Qore.Types.CommonSpec`: what the common type admits

A step of `matchCommonType` leaves a type that admits the instances of both types, with two
exceptions. The "or nothing" types that parse texts return a hash, so widening one of them to
`NOTHING` forgets the binary values; and a soft list whose elements may be `NOTHING` passes for a
type that may be `NOTHING` itself, so after `NOTHING` it is taken as it is. What is forgotten stays
forgotten as long as the following types merge into the type.

* `matchCommonType_below`: the other steps.
* `commonType_admits_iff`: the fold over any sequence of types.
-/

set_option autoImplicit false

namespace Qore.Types

/-! ### Statement -/

/-- The values of an element with the type; without a type it may be anything. -/
def InstanceOf : Option Ty → Value → Prop
  | none, v => v.WellTyped
  | some ti, v => ti.Instance v

/-- No type, a type that accepts anything, or a type that admits every instance of the types. -/
def AdmitsAll (ctype : Option Ty) (ts : List (Option Ty)) : Prop :=
  hasType ctype = false ∨ ∃ c, ctype = some c ∧ ∀ t ∈ ts, ∀ v, InstanceOf t v → c.Instance v

/-- The types that parse a text into a binary value, without or with their "or nothing" part. -/
def Ty.textBinary (orNothing : Bool) : Ty → Bool
  | .simple s on => s.parsesText && on == orNothing
  | _ => false

/-- Only values of a run-time type are returned. -/
def Ty.Only (t : NT) (ti : Ty) : Prop := ti.returnSpecs = [.type t]

instance (t : NT) (ti : Ty) : Decidable (ti.Only t) :=
  inferInstanceAs (Decidable (ti.returnSpecs = [.type t]))

/-- A soft list whose elements may be `NOTHING`. -/
def Ty.softOfNothing : Ty → Bool
  | .complexSoftList vti false => vti ≠ .auto && vti.parseAcceptsReturns .nothing
  | _ => false

/-- Only lists are returned. -/
def Ty.OnlyLists (ti : Ty) : Prop :=
  ti.returns.length = 1 ∧ ti.baseTypeInfo = some (.simple .list false)

/-- A sequence that starts in some way and goes on with elements of some kind. -/
def GoesOn {α : Type} (start : List α → Prop) (keep : α → Prop) (ts : List α) : Prop :=
  ∃ p q, ts = p ++ q ∧ start p ∧ ∀ t ∈ q, keep t

/-- Only `NOTHING`, once or more often. -/
def OnlyNothing (ts : List (Option Ty)) : Prop := ∃ k, ts = List.replicate (k + 1) (some .nothing)

/-- Types of binary values of which the last one parses texts and does not follow `softbinary`. -/
def EndsInText (ts : List (Option Ty)) : Prop :=
  ∃ p ti, ts = p ++ [some ti] ∧ ti.textBinary false = true ∧
    (∀ t ∈ p, ∃ ti, t = some ti ∧ ti.Only .binary) ∧
      p.getLast? ≠ some (some (.simple .softbinary false))

/-- A type that parses texts meets `NOTHING`. -/
def MeetsNothing (ts : List (Option Ty)) : Prop :=
  (∃ p, ts = p ++ [some .nothing] ∧ EndsInText p) ∨
    ∃ p ti, ts = p ++ [some ti] ∧ OnlyNothing p ∧ ti.textBinary false = true

/-- A soft list whose elements may be `NOTHING` follows `NOTHING`. -/
def SoftAfterNothing (ts : List (Option Ty)) : Prop :=
  ∃ p ti, ts = p ++ [some ti] ∧ OnlyNothing p ∧ ti.softOfNothing = true

/-- The binary values are forgotten. -/
def LosesBinary : List (Option Ty) → Prop :=
  GoesOn MeetsNothing fun t => ∃ ti, t = some ti ∧ ti.textBinary true = true

/-- `NOTHING` is forgotten. -/
def LosesNothing : List (Option Ty) → Prop :=
  GoesOn SoftAfterNothing fun t => ∃ ti, t = some ti ∧ ti.OnlyLists

/-! ### Sequences -/

theorem goesOn_concat {α : Type} {start : List α → Prop} {keep : α → Prop} {ts : List α} {t : α} :
    GoesOn start keep (ts ++ [t]) ↔ start (ts ++ [t]) ∨ GoesOn start keep ts ∧ keep t := by
  constructor
  · rintro ⟨p, q, heq, hp, hq⟩
    induction q using List.reverseRecOn with
    | nil =>
      rw [List.append_nil] at heq
      exact .inl (heq ▸ hp)
    | append_singleton q t' _ =>
      rw [← List.append_assoc] at heq
      obtain ⟨rfl, hlast⟩ := List.append_inj' heq rfl
      obtain rfl : t = t' := by simpa using hlast
      exact .inr ⟨⟨p, q, rfl, hp, fun t'' ht'' => hq t'' (by simp [ht''])⟩, hq t (by simp)⟩
  · rintro (hstart | ⟨⟨p, q, rfl, hp, hq⟩, ht⟩)
    · exact ⟨_, [], by simp, hstart, by simp⟩
    · refine ⟨p, q ++ [t], by simp, hp, ?_⟩
      simpa [or_imp, forall_and] using ⟨hq, ht⟩

/-! ### Return lists -/

@[simp] theorem map_spec_returnVec (specs : List TypeSpec) :
    (returnVec specs).map (·.spec) = specs := by
  unfold returnVec
  split
  · rfl
  · rw [List.map_map]
    exact List.map_id specs

theorem Ty.returnSpecs_complexSoftList {vti : Ty} (hauto : vti ≠ .auto) (on : Bool) :
    (complexSoftList vti on).returnSpecs = .complexSoftList vti :: orNothingReturns on := by
  cases vti with
  | auto => exact absurd rfl hauto
  | _ => exact map_spec_returnVec _

/-- A soft list may be `NOTHING` by `parseAcceptsReturns` when its elements may be. -/
theorem Ty.parseAcceptsReturns_complexSoftList {vti : Ty} (hauto : vti ≠ .auto) :
    (complexSoftList vti false).parseAcceptsReturns .nothing = vti.parseAcceptsReturns .nothing := by
  have hknown : hasType (some (complexSoftList vti false)) = true := by
    cases vti <;> rfl
  have hreturns : ((complexSoftList vti false).returns.any fun r =>
      r.spec.matchesType vti.parseAcceptsReturns .nothing) = vti.parseAcceptsReturns .nothing := by
    have hany := List.any_map (f := (·.spec)) (l := (complexSoftList vti false).returns)
      (p := fun spec : TypeSpec => spec.matchesType vti.parseAcceptsReturns .nothing)
    rw [show (complexSoftList vti false).returns.map (·.spec) = _ from
      returnSpecs_complexSoftList hauto false] at hany
    exact hany.symm.trans (by simp [orNothingReturns, TypeSpec.matchesType])
  rw [parseAcceptsReturns, parseAcceptsReturnsWith, if_pos hknown, hreturns,
    accepts_complexSoftList hauto]
  simp [TypeSpec.matchesType, AcceptSpec.mapped]

variable {ti : Ty}

/-- `NOTHING` is the only type that returns nothing else. -/
theorem isType_nothing_iff : isType (some ti) .nothing = true ↔ ti = .nothing := by
  constructor
  · intro h
    cases ti with
    | nothing => rfl
    | simple s on => cases s <;> cases on <;> exact absurd h (by decide)
    | complexSoftList vti on => cases vti <;> cases on <;> cases h
    | hashDecl _ on | cls _ on | complexHash _ on | complexList _ on => cases on <;> cases h
    | _ => exact absurd h (by decide)
  · rintro rfl
    rfl

/-- The "or nothing" variant of a type returns what the type returns, and `NOTHING`. -/
theorem getOrNothingType_returns (hti : hasType (some ti) = true)
    (htext : ti.textBinary false = false) (hnothing : ti ≠ .nothing) :
    getOrNothingType ti = .auto ∨
      ti.returnSpecs ⊆ (getOrNothingType ti).returnSpecs ∧
        .type .nothing ∈ (getOrNothingType ti).returnSpecs := by
  cases ti with
  | any => exact absurd hti (by decide)
  | auto => exact .inl rfl
  | nothing => exact absurd rfl hnothing
  | simple s on => cases s <;> cases on <;> revert htext <;> decide
  | complexSoftList vti on =>
    by_cases hauto : vti = .auto
    · subst hauto
      cases on
      · exact .inr (by decide)
      · exact .inl rfl
    · have hget : getOrNothingType (.complexSoftList vti false) = .complexSoftList vti true := by
        cases vti with
        | auto => exact absurd rfl hauto
        | _ => rfl
      cases on
      · rw [hget, Ty.returnSpecs_complexSoftList hauto, Ty.returnSpecs_complexSoftList hauto]
        exact .inr (by simp [orNothingReturns])
      · exact .inl (by cases vti <;> rfl)
  | hashDecl _ on | cls _ on | complexHash _ on | complexList _ on =>
    cases on
    · exact .inr (by simp [getOrNothingType, typeinfoMap, Ty.uniqueReturn, Ty.returnSpecs,
        Ty.returns, orNothingReturns, returnVec, hti])
    · exact .inl rfl
  | _ => exact .inl rfl

/-- A type that may be `NOTHING` by `parseAcceptsReturns` returns `NOTHING`, but for the soft lists
of such types. -/
theorem nothing_mem_of_parseAcceptsReturns (hti : hasType (some ti) = true)
    (hsoft : ti.softOfNothing = false) (h : ti.parseAcceptsReturns .nothing = true) :
    .type .nothing ∈ ti.returnSpecs := by
  cases ti with
  | any | auto => exact absurd hti (by decide)
  | simple s on => cases s <;> cases on <;> revert h <;> decide
  | complexSoftList vti on =>
    cases on
    · by_cases hauto : vti = .auto
      · subst hauto
        exact absurd h (by decide)
      · rw [Ty.parseAcceptsReturns_complexSoftList hauto] at h
        simp [Ty.softOfNothing, hauto, h] at hsoft
    · exact (Ty.nothing_mem_returnSpecs vti).2.2
  | hashDecl _ on | cls _ on | complexHash _ on | complexList _ on =>
    cases on
    · simp [Ty.parseAcceptsReturns, Ty.parseAcceptsReturnsWith, hti, Ty.accepts, Ty.returns,
        returnVec, orNothingReturns, TypeSpec.matchesType] at h
    · simp [Ty.returnSpecs, Ty.returns, orNothingReturns]
  | _ => revert h; decide

/-! ### Descriptions -/

/-- Every value one type describes is described by the other one. -/
def Ty.Below (a b : Ty) : Prop := ∀ v, a.Describes v → b.Describes v

theorem Ty.below_refl (ti : Ty) : ti.Below ti := fun _ h => h

theorem Ty.below_of_subset {a b : Ty} (h : a.returnSpecs ⊆ b.returnSpecs) : a.Below b := by
  rintro _ ⟨spec, hspec, hdesc⟩
  exact ⟨spec, h hspec, hdesc⟩

/-- A type that returns `NOTHING` describes it. -/
theorem Ty.nothing_below (h : .type .nothing ∈ ti.returnSpecs) : Ty.nothing.Below ti :=
  below_of_subset (by simpa [returnSpecs, returns, returnVec] using h)

variable {v : Value}

/-- Every list is a `list<auto>`. -/
theorem Value.describes_autoList (h : v.getType = .list) :
    (Ty.complexList .auto false).Describes v := by
  obtain ⟨u, cti, es, rfl⟩ : ∃ u cti es, v = .list u cti es := by
    cases v <;> simp [getType] at h ⊢
  exact ⟨.complexList .auto, by decide, u, cti, es, rfl, .inl rfl⟩

/-- Every hash is a `hash<auto>`. -/
theorem Value.describes_autoHash (h : v.getType = .hash) :
    (Ty.complexHash .auto false).Describes v := by
  obtain ⟨u, hd, cti, kvs, rfl⟩ : ∃ u hd cti kvs, v = .hash u hd cti kvs := by
    cases v <;> simp [getType] at h ⊢
  exact ⟨.complexHash .auto, by decide, u, hd, cti, kvs, rfl, .inl rfl⟩

/-- A specification is below its base type, also when this keeps complex types. -/
theorem TypeSpec.describes_base {spec : TypeSpec} {b : Ty}
    (hb : keepComplex spec.getBaseTypeInfo = some b) (hv : spec.Describes v) :
    b.Describes v := by
  cases spec with
  | type t =>
    cases t with
    | list =>
      obtain rfl := Option.some.inj hb
      exact Value.describes_autoList (by simpa [Describes] using hv)
    | hash =>
      obtain rfl := Option.some.inj hb
      exact Value.describes_autoHash (by simpa [Describes] using hv)
    | all =>
      obtain rfl := Option.some.inj hb
      exact ⟨.type .all, by decide, hv⟩
    | runtimeClosure =>
      obtain rfl := Option.some.inj hb
      exact ⟨.type .runtimeClosure, by decide, hv⟩
    | funcref =>
      obtain rfl := Option.some.inj hb
      exact ⟨.type .funcref, by decide, hv⟩
    | weakref | weakrefHash | weakrefList => cases hb
    | _ =>
      obtain rfl := Option.some.inj hb
      exact ⟨_, List.mem_singleton_self _, hv⟩
  | cls qc =>
    obtain rfl := Option.some.inj hb
    obtain ⟨c, bases, valid, rfl, -⟩ := hv
    exact ⟨.type .object, List.mem_singleton_self _, .inr rfl⟩
  | hashDecl hd =>
    obtain rfl := Option.some.inj hb
    obtain ⟨u, cti, kvs, rfl⟩ := hv
    exact Value.describes_autoHash rfl
  | complexHash ti =>
    obtain rfl := Option.some.inj hb
    obtain ⟨u, hd, cti, kvs, rfl, -⟩ := hv
    exact Value.describes_autoHash rfl
  | complexList ti | complexSoftList ti =>
    obtain rfl := Option.some.inj hb
    obtain ⟨u, cti, es, rfl, -⟩ := hv
    exact Value.describes_autoList rfl
  | emptyList | emptyHash =>
    obtain rfl := Option.some.inj hb
    exact ⟨_, List.mem_singleton_self _, hv⟩

/-- A type that returns one specification is below its base type. -/
theorem Ty.below_base {b : Ty} (hone : ti.returns.length ≤ 1)
    (hb : keepComplex ti.baseTypeInfo = some b) : ti.Below b := by
  rintro v ⟨spec, hspec, hdesc⟩
  have hspecs : ti.returnSpecs = [spec] := by
    have hlength : ti.returnSpecs.length ≤ 1 := by simpa [returnSpecs] using hone
    rcases hsp : ti.returnSpecs with _ | ⟨spec', _ | ⟨spec'', specs⟩⟩
    · simp [hsp] at hspec
    · simpa [hsp, eq_comm] using hspec
    · simp [hsp] at hlength
  rw [baseTypeInfo, hspecs] at hb
  exact TypeSpec.describes_base hb hdesc

/-! ### One step -/

/-- A type that parses texts meets `NOTHING`. -/
def LossyBinary (c n : Ty) : Prop :=
  c.textBinary false = true ∧ n = .nothing ∨ c = .nothing ∧ n.textBinary false = true

/-- A soft list whose elements may be `NOTHING` follows `NOTHING`. -/
def LossyNothing (c n : Ty) : Prop := c = .nothing ∧ n.softOfNothing = true

/-- The result of a step admits the values of both types, unless it is an unknown type. -/
def Widens (c n : Ty) (r : Option Ty) : Prop :=
  hasType r = false ∨ ∃ c', r = some c' ∧ c.Below c' ∧ n.Below c'

section
variable (env : ParseEnv) {c n : Ty} {t : Option Ty} {ti : Ty} {ts : List (Option Ty)}

theorem parseReturns_nothing_iff (hc : hasType (some c) = true) :
    parseReturns env (some c) .nothing = .notEqual ↔ .type .nothing ∉ c.returnSpecs := by
  have hspec (spec : TypeSpec) : spec.getType = .nothing ↔ spec = .type .nothing := by
    cases spec <;> simp [TypeSpec.getType]
  have hreturns := parseReturns_ne_iff env c (t := .nothing) (by decide)
  simp only [hc, Bool.true_eq_false, false_or, Ty.Returns, hspec] at hreturns
  rw [← not_iff_not, not_not, Ty.returnSpecs, List.mem_map]
  exact hreturns

theorem widens_orNothing {on : Ty} (h : on = .auto ∨ c.Below on ∧ n.Below on) :
    Widens c n (widened on).1 := by
  obtain rfl | hbelow := h
  · exact .inl rfl
  · exact .inr ⟨on, rfl, hbelow⟩

theorem matchBaseType_widens (c n : Ty) : Widens c n (matchBaseType c n).1 := by
  unfold matchBaseType
  split_ifs with hseveral hbase
  · exact .inl rfl
  · cases hb : keepComplex c.baseTypeInfo with
    | none => exact .inl rfl
    | some b =>
      exact .inr ⟨b, rfl, Ty.below_base (by omega) hb, Ty.below_base (by omega) (hbase ▸ hb)⟩
  · exact .inl rfl

theorem exists_of_hasType (h : hasType t = true) : ∃ ti, t = some ti := by
  cases t with
  | none => cases h
  | some ti => exact ⟨ti, rfl⟩

/-- A step leaves a known type only when both types are known. -/
theorem known_of_matchCommonType {c n : Option Ty}
    (h : hasType (matchCommonType env c n).1 = true) : hasType c = true ∧ hasType n = true := by
  by_contra hunknown
  rw [not_and_or, Bool.not_eq_true, Bool.not_eq_true] at hunknown
  rw [matchCommonType_of_unknown env hunknown] at h
  cases h

/-- What a step between two known types can leave. -/
theorem matchCommonType_cases (hc : hasType (some c) = true) (hn : hasType (some n) = true)
    {r : Option Ty} (h : (matchCommonType env (some c) (some n)).1 = r) :
    c = n ∧ r = some n ∨
      c ≠ n ∧ n = .nothing ∧ .type .nothing ∉ c.returnSpecs ∧ r = some (getOrNothingType c) ∨
      c ≠ n ∧ c = .nothing ∧ r = some (getOrNothingTypeCheck n) ∨
      n.superSetOf c = true ∧ r = some n ∨ r = (matchBaseType c n).1 := by
  subst h
  unfold matchCommonType
  dsimp only
  split_ifs with hany heq hunknown _ hwiden hnothing hsuper
  · rw [hany] at hc
    cases hc
  · exact .inl ⟨heq, by rw [heq]⟩
  · simp [hn] at hunknown
  · simp [hn] at hunknown
  · exact .inr (.inl ⟨heq, isType_nothing_iff.1 hwiden.2,
      (parseReturns_nothing_iff env hc).1 hwiden.1, rfl⟩)
  · exact .inr (.inr (.inl ⟨heq, isType_nothing_iff.1 hnothing, rfl⟩))
  · exact .inr (.inr (.inr (.inl ⟨hsuper, rfl⟩)))
  · exact .inr (.inr (.inr (.inr rfl)))

/-- A step between two known types admits what both admit, with the two exceptions. -/
theorem matchCommonType_widens (hc : hasType (some c) = true) (hn : hasType (some n) = true)
    (hbinary : ¬LossyBinary c n) (hnothing : ¬LossyNothing c n) :
    Widens c n (matchCommonType env (some c) (some n)).1 := by
  obtain ⟨rfl, hr⟩ | ⟨hne, rfl, -, hr⟩ | ⟨hne, rfl, hr⟩ | ⟨hsuper, hr⟩ | hr :=
    matchCommonType_cases env hc hn rfl
  all_goals rw [hr]
  · exact .inr ⟨c, rfl, c.below_refl, c.below_refl⟩
  · have htext : c.textBinary false = false := by
      simpa using fun h => hbinary (.inl ⟨h, rfl⟩)
    exact widens_orNothing ((getOrNothingType_returns hc htext hne).imp_right fun h =>
      ⟨Ty.below_of_subset h.1, Ty.nothing_below h.2⟩)
  · unfold getOrNothingTypeCheck
    split
    · next hreturns =>
      have hsoft : n.softOfNothing = false := by simpa using fun h => hnothing ⟨rfl, h⟩
      exact widens_orNothing (.inr
        ⟨Ty.nothing_below (nothing_mem_of_parseAcceptsReturns hn hsoft hreturns), n.below_refl⟩)
    · have htext : n.textBinary false = false := by
        simpa using fun h => hbinary (.inr ⟨rfl, h⟩)
      exact widens_orNothing ((getOrNothingType_returns hn htext (Ne.symm hne)).imp_right fun h =>
        ⟨Ty.nothing_below h.2, Ty.below_of_subset h.1⟩)
  · have hcover := (Bool.and_eq_true _ _ ▸ hsuper).2
    exact .inr ⟨n, rfl, fun v => describes_of_specsCover hcover, n.below_refl⟩
  · exact matchBaseType_widens c n

/-! ### What a step leaves -/

theorem Ty.returnSpecs_ne_nil (ti : Ty) : ti.returnSpecs ≠ [] := by
  cases ti with
  | simple s on => cases s <;> cases on <;> decide
  | complexSoftList vti on => cases vti <;> cases on <;> exact List.cons_ne_nil _ _
  | hashDecl _ on | cls _ on | complexHash _ on | complexList _ on =>
    cases on <;> exact List.cons_ne_nil _ _
  | _ => decide

/-- An "or nothing" variant returns several specifications. -/
theorem getOrNothingType_several (hany : ti ≠ .any) (hnothing : ti ≠ .nothing) :
    getOrNothingType ti = .auto ∨ 1 < (getOrNothingType ti).returnSpecs.length := by
  cases ti with
  | any => exact absurd rfl hany
  | nothing => exact absurd rfl hnothing
  | simple s on => cases s <;> cases on <;> decide
  | complexSoftList vti on =>
    cases on with
    | false => cases vti <;> exact .inr (Nat.le_refl 2)
    | true => cases vti <;> exact .inl rfl
  | hashDecl _ on | cls _ on | complexHash _ on | complexList _ on =>
    cases on with
    | false => exact .inr (Nat.le_refl 2)
    | true => exact .inl rfl
  | _ => exact .inl rfl

theorem not_only_getOrNothingType {t : NT} (ht : t ≠ .all) (hany : ti ≠ .any)
    (hnothing : ti ≠ .nothing) : ¬(getOrNothingType ti).Only t := by
  intro h
  obtain hauto | hseveral := getOrNothingType_several hany hnothing
  · rw [hauto] at h
    exact ht (by simpa [Ty.Only, Ty.returnSpecs, Ty.returns, eq_comm] using h)
  · rw [h] at hseveral
    simp at hseveral

/-- `NOTHING` and binary values are base types of themselves only. -/
theorem eq_type_of_keepComplex {spec : TypeSpec} {b : Ty} {t : NT}
    (ht : t = .nothing ∨ t = .binary) (hb : keepComplex spec.getBaseTypeInfo = some b)
    (honly : b.Only t) : spec = .type t := by
  cases spec with
  | type u =>
    cases u with
    | nothing | binary =>
      obtain rfl := Option.some.inj hb
      obtain rfl | rfl := ht
      all_goals first | rfl | exact absurd honly (by decide)
    | weakref | weakrefHash | weakrefList => cases hb
    | _ =>
      obtain rfl := Option.some.inj hb
      obtain rfl | rfl := ht
      all_goals exact absurd honly (by decide)
  | _ =>
    obtain rfl := Option.some.inj hb
    obtain rfl | rfl := ht
    all_goals exact absurd honly (by decide)

theorem only_of_base {b : Ty} {t : NT} (ht : t = .nothing ∨ t = .binary)
    (hone : ti.returns.length ≤ 1) (hb : keepComplex ti.baseTypeInfo = some b) (honly : b.Only t) :
    ti.Only t := by
  have hlength : ti.returnSpecs.length ≤ 1 := by simpa [Ty.returnSpecs] using hone
  rcases hspecs : ti.returnSpecs with _ | ⟨spec, _ | ⟨spec', specs⟩⟩
  · exact absurd hspecs ti.returnSpecs_ne_nil
  · rw [Ty.baseTypeInfo, hspecs] at hb
    rw [Ty.Only, hspecs, eq_type_of_keepComplex ht hb honly]
  · simp [hspecs] at hlength

/-- A type covered by one that returns a run-time type only returns only this. -/
theorem only_of_specsCover {elem : Ty → Bool} {t : NT} (hn : n.Only t)
    (h : specsCover elem n.returnSpecs c.returnSpecs = true) : c.Only t := by
  rw [hn] at h
  rcases hspecs : c.returnSpecs with _ | ⟨spec, _ | ⟨spec', specs⟩⟩
  · exact absurd hspecs c.returnSpecs_ne_nil
  · rw [hspecs] at h
    have hequal : (TypeSpec.type t).equal elem spec = true := by simpa [specsCover] using h
    have hspec : TypeSpec.type t = spec := by simpa [TypeSpec.equal] using hequal
    rw [Ty.Only, hspecs, ← hspec]
  · simp [hspecs, specsCover] at h

theorem not_softOfNothing_of_only {t : NT} (h : ti.Only t) : ti.softOfNothing = false := by
  cases ti with
  | complexSoftList vti on =>
    by_cases hauto : vti = .auto
    · subst hauto
      cases on <;> rfl
    · rw [Ty.Only, Ty.returnSpecs_complexSoftList hauto] at h
      cases h
  | _ => rfl

theorem only_nothing_iff : ti.Only .nothing ↔ ti = .nothing := by
  constructor
  · intro h
    refine isType_nothing_iff.1 ((isType_iff ti .nothing).2 ?_)
    obtain ⟨r, hr, hspec⟩ := List.map_eq_singleton_iff.1 h
    exact ⟨r, hr, by rw [hspec]; rfl⟩
  · rintro rfl
    rfl

theorem not_only_of_unknown {t : NT} (ht : t ≠ .all) (h : hasType (some ti) = false) :
    ¬ti.Only t := by
  obtain rfl | rfl := Ty.unknown h
  all_goals simpa [Ty.Only, Ty.returnSpecs, Ty.returns, eq_comm] using ht

/-- A step leaves only `NOTHING`, or only binary values, when both types return only these. -/
theorem only_of_matchCommonType {c n : Option Ty} {t : NT} (ht : t = .nothing ∨ t = .binary)
    (h : (matchCommonType env c n).1 = some ti) (hti : ti.Only t) :
    ∃ c' n' : Ty, c = some c' ∧ n = some n' ∧ c'.Only t ∧ n'.Only t := by
  have hall : t ≠ .all := by
    rintro rfl
    simp at ht
  have hknown : hasType (some ti) = true := by
    by_contra hunknown
    exact not_only_of_unknown hall (by simpa using hunknown) hti
  have hboth := known_of_matchCommonType env (h ▸ hknown)
  obtain ⟨c, rfl⟩ := exists_of_hasType hboth.1
  obtain ⟨n, rfl⟩ := exists_of_hasType hboth.2
  refine ⟨c, n, rfl, rfl, ?_⟩
  have hany {ti : Ty} (h : hasType (some ti) = true) : ti ≠ .any := by
    rintro rfl
    cases h
  obtain ⟨rfl, hr⟩ | ⟨hne, rfl, -, hr⟩ | ⟨hne, rfl, hr⟩ | ⟨hsuper, hr⟩ | hr :=
    matchCommonType_cases env hboth.1 hboth.2 h
  · obtain rfl := Option.some.inj hr
    exact ⟨hti, hti⟩
  · obtain rfl := Option.some.inj hr
    exact absurd hti (not_only_getOrNothingType hall (hany hboth.1) hne)
  · obtain rfl := Option.some.inj hr
    unfold getOrNothingTypeCheck at hti
    split at hti
    · next hreturns =>
      have hnothing := nothing_mem_of_parseAcceptsReturns hboth.2 (not_softOfNothing_of_only hti)
        hreturns
      obtain rfl : .nothing = t := by simpa [show n.returnSpecs = _ from hti] using hnothing
      exact absurd (only_nothing_iff.1 hti) (Ne.symm hne)
    · exact absurd hti (not_only_getOrNothingType hall (hany hboth.2) (Ne.symm hne))
  · obtain rfl := Option.some.inj hr
    exact ⟨only_of_specsCover hti (Bool.and_eq_true _ _ ▸ hsuper).2, hti⟩
  · unfold matchBaseType at hr
    split_ifs at hr with hseveral hbase
    · obtain rfl := Option.some.inj hr
      cases hknown
    · exact ⟨only_of_base ht (by omega) hr.symm hti,
        only_of_base ht (by omega) (hbase ▸ hr.symm) hti⟩
    · obtain rfl := Option.some.inj hr
      cases hknown

/-! ### Sequences of `NOTHING` and of binary types -/

theorem onlyNothing_concat :
    OnlyNothing (ts ++ [t]) ↔ (ts = [] ∨ OnlyNothing ts) ∧ t = some .nothing := by
  constructor
  · rintro ⟨k, h⟩
    rw [List.replicate_succ'] at h
    obtain ⟨hts, ht⟩ := List.append_inj' h rfl
    refine ⟨?_, by simpa using ht⟩
    cases k with
    | zero => exact .inl hts
    | succ k => exact .inr ⟨k, hts⟩
  · rintro ⟨rfl | ⟨k, rfl⟩, rfl⟩
    · exact ⟨0, rfl⟩
    · exact ⟨k + 1, List.replicate_succ'.symm⟩

/-- The fold leaves `NOTHING` after `NOTHING` only. -/
theorem commonType_eq_nothing_iff : commonType env ts = some .nothing ↔ OnlyNothing ts := by
  induction ts using List.reverseRecOn with
  | nil => exact iff_of_false (by simp [commonType]) fun h => h.elim fun k h => by simp at h
  | append_singleton ts t ih =>
    rw [onlyNothing_concat]
    by_cases hts : ts = []
    · subst hts
      simp [commonType]
    · rw [commonType_concat env hts, ← ih]
      constructor
      · intro h
        obtain ⟨c, n, hc, rfl, hconly, hnonly⟩ := only_of_matchCommonType env (.inl rfl) h rfl
        exact ⟨.inr (by rw [hc, only_nothing_iff.1 hconly]), by rw [only_nothing_iff.1 hnonly]⟩
      · rintro ⟨h, rfl⟩
        rw [h.resolve_left hts]
        rfl

/-- The types of binary values. -/
theorem only_binary_cases (h : ti.Only .binary) : ∃ s, ti = .simple s false ∧
      (s = .binary ∨ s = .softbinary ∨ s = .hexbinary ∨ s = .base64binary ∨
        s = .base64urlbinary) := by
  cases ti with
  | simple s on =>
    cases s <;> cases on <;> first | exact absurd h (by decide) | exact ⟨_, rfl, by simp⟩
  | complexSoftList vti on => cases vti <;> cases on <;> cases h
  | hashDecl _ on | cls _ on | complexHash _ on | complexList _ on => cases on <;> cases h
  | _ => exact absurd h (by decide)

/-- Merging types of binary values takes the new type, but for a type that parses texts after
`softbinary`. -/
theorem matchCommonType_binary (hc : c.Only .binary) (hn : n.Only .binary) :
    (matchCommonType env (some c) (some n)).1 =
      some (if n.textBinary false ∧ c = .simple .softbinary false then .simple .binary false
        else n) := by
  obtain ⟨s, rfl, rfl | rfl | rfl | rfl | rfl⟩ := only_binary_cases hc <;>
    obtain ⟨s', rfl, rfl | rfl | rfl | rfl | rfl⟩ := only_binary_cases hn <;> rfl

/-- Only types of binary values. -/
def AllBinary (ts : List (Option Ty)) : Prop := ∀ t ∈ ts, ∃ ti, t = some ti ∧ ti.Only .binary

/-- Types of binary values leave such a type, and `softbinary` when it is the last one. -/
theorem commonType_of_allBinary (hne : ts ≠ []) (h : AllBinary ts) :
    ∃ c, commonType env ts = some c ∧ c.Only .binary ∧
      (c = .simple .softbinary false ↔ ts.getLast? = some (some (.simple .softbinary false))) := by
  induction ts using List.reverseRecOn with
  | nil => exact absurd rfl hne
  | append_singleton ts t ih =>
    obtain ⟨n, rfl, hn⟩ := h t (by simp)
    simp only [List.getLast?_append, List.getLast?_singleton, Option.some_or, Option.some.injEq]
    by_cases hts : ts = []
    · subst hts
      exact ⟨n, rfl, hn, Iff.rfl⟩
    · obtain ⟨c, hc, hconly, -⟩ := ih hts fun t' ht' => h t' (by simp [ht'])
      refine ⟨_, by rw [commonType_concat env hts, hc, matchCommonType_binary env hconly hn], ?_⟩
      split
      · next htext =>
        refine ⟨rfl, iff_of_false (by decide) ?_⟩
        rintro rfl
        exact absurd htext.1 (by decide)
      · exact ⟨hn, Iff.rfl⟩

/-- A common type of binary values comes from types of binary values. -/
theorem allBinary_of_commonType (h : commonType env ts = some c) (hc : c.Only .binary) :
    AllBinary ts := by
  induction ts using List.reverseRecOn generalizing c with
  | nil => cases h
  | append_singleton ts t ih =>
    by_cases hts : ts = []
    · subst hts
      rintro t' ht'
      obtain rfl : t' = t := by simpa using ht'
      exact ⟨c, h, hc⟩
    · rw [commonType_concat env hts] at h
      obtain ⟨c', n, hc', rfl, hconly, hnonly⟩ := only_of_matchCommonType env (.inr rfl) h hc
      intro t' ht'
      obtain ht' | ht' := List.mem_append.1 ht'
      · exact ih hc' hconly t' ht'
      · exact ⟨n, by simpa using ht', hnonly⟩

theorem only_of_textBinary (h : ti.textBinary false = true) : ti.Only .binary := by
  cases ti with
  | simple s on => cases s <;> cases on <;> first | exact absurd h (by decide) | rfl
  | _ => cases h

/-- The fold leaves a type that parses texts when the sequence ends in one. -/
theorem textBinary_commonType_iff :
    (∃ c, commonType env ts = some c ∧ c.textBinary false = true) ↔ EndsInText ts := by
  constructor
  · rintro ⟨c, hc, htext⟩
    have hall := allBinary_of_commonType env hc (only_of_textBinary htext)
    induction ts using List.reverseRecOn with
    | nil => cases hc
    | append_singleton ts t _ =>
      obtain ⟨n, rfl, hn⟩ := hall t (by simp)
      have hinit : AllBinary ts := fun t' ht' => hall t' (by simp [ht'])
      by_cases hts : ts = []
      · subst hts
        obtain rfl : n = c := by simpa [commonType] using hc
        exact ⟨[], n, rfl, htext, by simp, by simp⟩
      · obtain ⟨c', hc', hconly, hsoft⟩ := commonType_of_allBinary env hts hinit
        rw [commonType_concat env hts, hc', matchCommonType_binary env hconly hn,
          Option.some.injEq] at hc
        split at hc
        · subst hc
          cases htext
        · next hnot =>
          subst hc
          exact ⟨ts, n, rfl, htext, hinit, fun hlast => hnot ⟨htext, hsoft.2 hlast⟩⟩
  · rintro ⟨p, n, rfl, htext, hinit, hlast⟩
    by_cases hp : p = []
    · subst hp
      exact ⟨n, rfl, htext⟩
    · obtain ⟨c, hc, hconly, hsoft⟩ := commonType_of_allBinary env hp hinit
      have hn := only_of_textBinary htext
      refine ⟨n, ?_, htext⟩
      rw [commonType_concat env hp, hc, matchCommonType_binary env hconly hn,
        if_neg fun h => hlast (hsoft.1 h.2)]

/-! ### Where something is forgotten -/

theorem meetsNothing_concat : MeetsNothing (ts ++ [t]) ↔
      ∃ c n, commonType env ts = some c ∧ t = some n ∧ LossyBinary c n := by
  constructor
  · rintro (⟨p, heq, htext⟩ | ⟨p, ti, heq, hnothing, htext⟩)
    · obtain ⟨rfl, ht⟩ := List.append_inj' heq rfl
      obtain ⟨c, hc, htext⟩ := (textBinary_commonType_iff env).2 htext
      exact ⟨c, .nothing, hc, by simpa using ht, .inl ⟨htext, rfl⟩⟩
    · obtain ⟨rfl, ht⟩ := List.append_inj' heq rfl
      exact ⟨.nothing, ti, (commonType_eq_nothing_iff env).2 hnothing, by simpa using ht,
        .inr ⟨rfl, htext⟩⟩
  · rintro ⟨c, n, hc, rfl, ⟨htext, rfl⟩ | ⟨rfl, htext⟩⟩
    · exact .inl ⟨ts, rfl, (textBinary_commonType_iff env).1 ⟨c, hc, htext⟩⟩
    · exact .inr ⟨ts, n, rfl, (commonType_eq_nothing_iff env).1 hc, htext⟩

theorem softAfterNothing_concat : SoftAfterNothing (ts ++ [t]) ↔
      ∃ c n, commonType env ts = some c ∧ t = some n ∧ LossyNothing c n := by
  constructor
  · rintro ⟨p, ti, heq, hnothing, hsoft⟩
    obtain ⟨rfl, ht⟩ := List.append_inj' heq rfl
    exact ⟨.nothing, ti, (commonType_eq_nothing_iff env).2 hnothing, by simpa using ht, rfl, hsoft⟩
  · rintro ⟨c, n, hc, rfl, rfl, hsoft⟩
    exact ⟨ts, n, rfl, (commonType_eq_nothing_iff env).1 hc, hsoft⟩

/-- The types that parse texts. -/
theorem textBinary_cases {on : Bool} (h : ti.textBinary on = true) :
    ∃ s, ti = .simple s on ∧ (s = .hexbinary ∨ s = .base64binary ∨ s = .base64urlbinary) := by
  cases ti with
  | simple s on' =>
    obtain ⟨hs, rfl⟩ : s.parsesText = true ∧ on' = on := by simpa [Ty.textBinary] using h
    cases s <;> first | exact absurd hs (by decide) | exact ⟨_, rfl, by simp⟩
  | _ => cases h

/-- A type that parses texts becomes its "or nothing" variant when it meets `NOTHING`. -/
theorem matchCommonType_lossyBinary (h : LossyBinary c n) :
    ∃ c', (matchCommonType env (some c) (some n)).1 = some c' ∧ c'.textBinary true = true := by
  obtain ⟨htext, rfl⟩ | ⟨rfl, htext⟩ := h <;>
    obtain ⟨s, rfl, rfl | rfl | rfl⟩ := textBinary_cases htext <;> exact ⟨_, rfl, rfl⟩

/-- The "or nothing" types that parse texts take the place of each other. -/
theorem matchCommonType_textBinary (hc : c.textBinary true = true) (hn : n.textBinary true = true) :
    (matchCommonType env (some c) (some n)).1 = some n := by
  obtain ⟨s, rfl, rfl | rfl | rfl⟩ := textBinary_cases hc <;>
    obtain ⟨s', rfl, rfl | rfl | rfl⟩ := textBinary_cases hn <;> rfl

/-- Only they cover one of them. -/
theorem textBinary_of_superSetOf (hc : c.textBinary true = true) (h : n.superSetOf c = true) :
    n.textBinary true = true := by
  obtain ⟨s, rfl, hs⟩ := textBinary_cases hc
  cases n with
  | simple s' on =>
    obtain rfl | rfl | rfl := hs <;> cases s' <;> cases on <;> first | rfl | cases h
  | complexSoftList vti on =>
    obtain rfl | rfl | rfl := hs <;> cases vti <;> cases on <;> cases h
  | hashDecl _ on | cls _ on | complexHash _ on | complexList _ on =>
    obtain rfl | rfl | rfl := hs <;> cases on <;> cases h
  | _ => obtain rfl | rfl | rfl := hs <;> cases h

/-- No other known type is merged into one of these. -/
theorem matchCommonType_of_textBinary (hc : c.textBinary true = true) (hn : hasType (some n) = true)
    (hnot : n.textBinary true = false) :
    hasType (matchCommonType env (some c) (some n)).1 = false := by
  have hreturns : 1 < c.returns.length ∧ .type .nothing ∈ c.returnSpecs ∧
      hasType (some c) = true ∧ c ≠ .nothing := by
    obtain ⟨s, rfl, rfl | rfl | rfl⟩ := textBinary_cases hc <;> decide
  obtain ⟨hseveral, hnothing, hknown, hcn⟩ := hreturns
  obtain ⟨rfl, -⟩ | ⟨-, -, hnot', -⟩ | ⟨-, hcn', -⟩ | ⟨hsuper, -⟩ | hr :=
    matchCommonType_cases env hknown hn rfl
  · rw [hc] at hnot
    cases hnot
  · exact absurd hnothing hnot'
  · exact absurd hcn' hcn
  · rw [textBinary_of_superSetOf hc hsuper] at hnot
    cases hnot
  · rw [hr, matchBaseType, if_pos (.inl hseveral)]
    rfl

theorem Ty.OnlyLists.known (h : ti.OnlyLists) :
    hasType (some ti) = true ∧ ti ≠ .nothing ∧ ti.textBinary false = false := by
  have hlist := h.2
  refine ⟨?_, ?_, ?_⟩
  · by_contra hunknown
    obtain rfl | rfl := Ty.unknown (by simpa using hunknown) <;> cases hlist
  · rintro rfl
    cases hlist
  · by_contra htext
    obtain ⟨s, rfl, rfl | rfl | rfl⟩ := textBinary_cases (Bool.eq_true_of_not_eq_false htext) <;>
      cases hlist

/-- After `NOTHING`, `get_or_nothing_type_check` gives the common type. -/
theorem matchCommonType_nothing (hn : hasType (some n) = true) (hne : n ≠ .nothing) :
    (matchCommonType env (some .nothing) (some n)).1 = some (getOrNothingTypeCheck n) := by
  have hwiden : ¬(parseReturns env (some .nothing) .nothing = .notEqual ∧
      isType (some n) .nothing = true) := fun h => hne (isType_nothing_iff.1 h.2)
  unfold matchCommonType
  dsimp only
  rw [if_neg (by decide), if_neg (Ne.symm hne), if_neg (by simp [hn]), if_neg hwiden,
    if_pos (isType_nothing_iff.2 rfl)]
  rfl

/-- A soft list after `NOTHING` is taken as it is. -/
theorem matchCommonType_lossyNothing (h : LossyNothing c n) :
    (matchCommonType env (some c) (some n)).1 = some n ∧ n.OnlyLists := by
  obtain ⟨rfl, hsoft⟩ := h
  cases n with
  | complexSoftList vti on =>
    cases on with
    | true => cases hsoft
    | false =>
      obtain ⟨hauto, helem⟩ : vti ≠ .auto ∧ vti.parseAcceptsReturns .nothing = true := by
        simpa [Ty.softOfNothing] using hsoft
      have hreturns := Ty.returnSpecs_complexSoftList hauto false
      have hlists : Ty.OnlyLists (.complexSoftList vti false) := by
        refine ⟨by simpa [Ty.returnSpecs, orNothingReturns] using congrArg List.length hreturns, ?_⟩
        rw [Ty.baseTypeInfo, hreturns]
        rfl
      refine ⟨?_, hlists⟩
      rw [matchCommonType_nothing env (Ty.OnlyLists.known hlists).1 (by simp), getOrNothingTypeCheck,
        if_pos (by rw [Ty.parseAcceptsReturns_complexSoftList hauto, helem])]
  | _ => cases hsoft

theorem matchCommonType_onlyLists (hc : c.OnlyLists) (hn : n.OnlyLists) :
    ∃ c', (matchCommonType env (some c) (some n)).1 = some c' ∧ c'.OnlyLists := by
  obtain ⟨-, hr⟩ | ⟨-, hnothing, -, -⟩ | ⟨-, hnothing, -⟩ | ⟨-, hr⟩ | hr :=
    matchCommonType_cases env hc.known.1 hn.known.1 rfl
  · exact ⟨n, hr, hn⟩
  · exact absurd hnothing hn.known.2.1
  · exact absurd hnothing hc.known.2.1
  · exact ⟨n, hr, hn⟩
  · have hone : ¬(1 < c.returns.length ∨ 1 < n.returns.length) := by
      have := hc.1
      have := hn.1
      omega
    rw [hr, matchBaseType, if_neg hone, if_pos (by rw [hc.2, hn.2]), hc.2]
    exact ⟨.complexList .auto false, rfl, rfl, rfl⟩

theorem TypeSpec.base_of_equal {elem : Ty → Bool} {a b : TypeSpec} (h : a.equal elem b = true) :
    a.getBaseTypeInfo = b.getBaseTypeInfo := by
  cases a <;> cases b <;> simp_all [equal, getBaseTypeInfo]

/-- A type that covers a type of lists returns lists only, or `NOTHING` too. -/
theorem nothing_mem_of_superSetOf (hc : c.OnlyLists) (hn : ¬n.OnlyLists) (h : n.superSetOf c = true) :
    .type .nothing ∈ n.returnSpecs := by
  have hcover := (Bool.and_eq_true _ _ ▸ h).2
  have hbase : n.baseTypeInfo = some (.simple .list false) := by
    obtain ⟨spec, specs, hcs⟩ := List.exists_cons_of_ne_nil c.returnSpecs_ne_nil
    obtain ⟨spec', specs', hns⟩ := List.exists_cons_of_ne_nil n.returnSpecs_ne_nil
    rw [hcs, hns] at hcover
    have hequal : spec'.equal n.elemEqual spec = true := (Bool.and_eq_true _ _ ▸ hcover).1
    rw [Ty.baseTypeInfo, hns, ← hc.2, Ty.baseTypeInfo, hcs]
    exact TypeSpec.base_of_equal hequal
  have hseveral : n.returns.length ≠ 1 := fun hone => hn ⟨hone, hbase⟩
  cases n with
  | simple s on =>
    cases s <;> cases on <;>
      first | exact absurd rfl hseveral | exact absurd hbase (by decide) | decide
  | complexSoftList vti on =>
    cases on with
    | false => cases vti <;> exact absurd rfl hseveral
    | true => exact (Ty.nothing_mem_returnSpecs vti).2.2
  | complexList vti on =>
    cases on with
    | false => exact absurd rfl hseveral
    | true => exact (Ty.nothing_mem_returnSpecs vti).2.1
  | hashDecl _ on | cls _ on | complexHash _ on => cases on <;> cases hbase
  | _ => cases hbase

theorem nothing_mem_of_onlyLists {c' : Ty} (hc : c.OnlyLists) (hn : hasType (some n) = true)
    (hnot : ¬n.OnlyLists) (h : (matchCommonType env (some c) (some n)).1 = some c')
    (hc' : hasType (some c') = true) : .type .nothing ∈ c'.returnSpecs := by
  obtain ⟨rfl, -⟩ | ⟨-, -, -, hr⟩ | ⟨-, hnothing, -⟩ | ⟨hsuper, hr⟩ | hr :=
    matchCommonType_cases env hc.known.1 hn h
  · exact absurd hc hnot
  · obtain rfl := Option.some.inj hr
    obtain hauto | hreturns := getOrNothingType_returns hc.known.1 hc.known.2.2 hc.known.2.1
    · rw [hauto] at hc'
      cases hc'
    · exact hreturns.2
  · exact absurd hnothing hc.known.2.1
  · obtain rfl := Option.some.inj hr
    exact nothing_mem_of_superSetOf hc hnot hsuper
  · unfold matchBaseType at hr
    split_ifs at hr with hseveral hbase
    · obtain rfl := Option.some.inj hr
      cases hc'
    · have hone : n.returns.length = 1 := by
        have := n.returnSpecs_ne_nil
        have hpos : n.returns.length ≠ 0 := by simpa [Ty.returnSpecs] using this
        omega
      exact absurd ⟨hone, hbase ▸ hc.2⟩ hnot
    · obtain rfl := Option.some.inj hr
      cases hc'

/-! ### The fold -/

/-- The common type admits the instances of the types but for `NOTHING`. -/
def AdmitsOthers (c : Ty) (ts : List (Option Ty)) : Prop :=
  ∀ t ∈ ts, t ≠ some .nothing → ∀ v, InstanceOf t v → c.Instance v

/-- What the fold has found: everything is admitted, or the binary values are forgotten, or
`NOTHING` is. -/
inductive Folded (env : ParseEnv) (ts : List (Option Ty)) : Prop
  | admits (h : AdmitsAll (commonType env ts) ts) (hbinary : ¬LosesBinary ts)
      (hnothing : ¬LosesNothing ts)
  | binary (h : LosesBinary ts) (c : Ty) (hc : commonType env ts = some c)
      (htext : c.textBinary true = true) (hnothing : ¬LosesNothing ts)
  | nothing (h : LosesNothing ts) (c : Ty) (hc : commonType env ts = some c)
      (hlists : c.OnlyLists) (hothers : AdmitsOthers c ts) (hbinary : ¬LosesBinary ts)

theorem losesBinary_concat : LosesBinary (ts ++ [t]) ↔
      (∃ c n, commonType env ts = some c ∧ t = some n ∧ LossyBinary c n) ∨
        LosesBinary ts ∧ ∃ n, t = some n ∧ n.textBinary true = true := by
  rw [LosesBinary, goesOn_concat, meetsNothing_concat env]

theorem losesNothing_concat : LosesNothing (ts ++ [t]) ↔
      (∃ c n, commonType env ts = some c ∧ t = some n ∧ LossyNothing c n) ∨
        LosesNothing ts ∧ ∃ n, t = some n ∧ n.OnlyLists := by
  rw [LosesNothing, goesOn_concat, softAfterNothing_concat env]

theorem LossyBinary.not_lossyNothing (h : LossyBinary c n) : ¬LossyNothing c n := by
  rintro ⟨rfl, hsoft⟩
  obtain ⟨htext, -⟩ | ⟨-, htext⟩ := h
  · cases htext
  · obtain ⟨s, rfl, -⟩ := textBinary_cases htext
    cases hsoft

theorem Ty.Below.instance {a b : Ty} (h : a.Below b) {v : Value} (hv : a.Instance v) :
    b.Instance v := ⟨h v hv.1, hv.2⟩

/-- Everything is admitted until a step forgets something. -/
theorem Folded.concat_admits (hts : ts ≠ []) (h : AdmitsAll (commonType env ts) ts)
    (hbinary : ¬LosesBinary ts) (hnothing : ¬LosesNothing ts) (t : Option Ty) :
    Folded env (ts ++ [t]) := by
  have hstep := commonType_concat env hts t
  by_cases hlossy : ∃ c n, commonType env ts = some c ∧ t = some n ∧ LossyBinary c n
  · obtain ⟨c, n, hc, rfl, hcn⟩ := hlossy
    obtain ⟨c', hc', htext⟩ := matchCommonType_lossyBinary env hcn
    refine .binary ((losesBinary_concat env).2 (.inl ⟨c, n, hc, rfl, hcn⟩)) c'
      (by rw [hstep, hc, hc']) htext ?_
    rw [losesNothing_concat env]
    rintro (⟨c₂, n₂, hc₂, hn₂, hcn₂⟩ | ⟨hloses, -⟩)
    · obtain rfl := Option.some.inj (hc.symm.trans hc₂)
      obtain rfl := Option.some.inj hn₂
      exact hcn.not_lossyNothing hcn₂
    · exact hnothing hloses
  by_cases hsoft : ∃ c n, commonType env ts = some c ∧ t = some n ∧ LossyNothing c n
  · obtain ⟨c, n, hc, rfl, hcn⟩ := hsoft
    obtain ⟨hn, hlists⟩ := matchCommonType_lossyNothing env hcn
    refine .nothing ((losesNothing_concat env).2 (.inl ⟨c, n, hc, rfl, hcn⟩)) n
      (by rw [hstep, hc, hn]) hlists ?_ ?_
    · obtain ⟨k, rfl⟩ := (commonType_eq_nothing_iff env).1 (hcn.1 ▸ hc)
      intro t' ht' hne v hv
      obtain ht' | ht' := List.mem_append.1 ht'
      · exact absurd (List.eq_of_mem_replicate ht') hne
      · obtain rfl : t' = some n := by simpa using ht'
        exact hv
    · rw [losesBinary_concat env]
      rintro (hlossy' | ⟨hloses, -⟩)
      · exact hlossy hlossy'
      · exact hbinary hloses
  refine .admits ?_ ?_ ?_
  · by_cases hknown : hasType (commonType env (ts ++ [t])) = true
    · rw [hstep] at hknown ⊢
      obtain ⟨hct, hnt⟩ := known_of_matchCommonType env hknown
      obtain ⟨c, hc⟩ := exists_of_hasType hct
      obtain ⟨n, rfl⟩ := exists_of_hasType hnt
      rw [hc] at hct hknown ⊢
      have hwidens := matchCommonType_widens env hct hnt (fun h => hlossy ⟨c, n, hc, rfl, h⟩)
        fun h => hsoft ⟨c, n, hc, rfl, h⟩
      obtain hunknown | ⟨c', hc', hcc', hnc'⟩ := hwidens
      · exact .inl hunknown
      · obtain hunknown | ⟨c₂, hc₂, hall⟩ := h
        · rw [hc, hct] at hunknown
          cases hunknown
        · obtain rfl := Option.some.inj (hc.symm.trans hc₂)
          refine .inr ⟨c', hc', fun t' ht' v hv => ?_⟩
          obtain ht' | ht' := List.mem_append.1 ht'
          · exact hcc'.instance (hall t' ht' v hv)
          · obtain rfl : t' = some n := by simpa using ht'
            exact hnc'.instance hv
    · exact .inl (by simpa using hknown)
  · rw [losesBinary_concat env]
    exact fun h => h.elim hlossy fun h => hbinary h.1
  · rw [losesNothing_concat env]
    exact fun h => h.elim hsoft fun h => hnothing h.1

/-- Binary values stay forgotten until the fold gives up. -/
theorem Folded.concat_binary (hts : ts ≠ []) (h : LosesBinary ts) (hc : commonType env ts = some c)
    (htext : c.textBinary true = true) (hnothing : ¬LosesNothing ts) (t : Option Ty) :
    Folded env (ts ++ [t]) := by
  have hstep := commonType_concat env hts t
  have hcn : c ≠ .nothing := by
    rintro rfl
    cases htext
  have hlost : ¬LosesNothing (ts ++ [t]) := by
    rw [losesNothing_concat env]
    rintro (⟨c₂, n, hc₂, -, hlossy⟩ | ⟨hloses, -⟩)
    · exact hcn (Option.some.inj (hc.symm.trans (hlossy.1 ▸ hc₂)))
    · exact hnothing hloses
  by_cases ht : ∃ n, t = some n ∧ n.textBinary true = true
  · obtain ⟨n, rfl, hn⟩ := ht
    exact .binary ((losesBinary_concat env).2 (.inr ⟨h, n, rfl, hn⟩)) n
      (by rw [hstep, hc, matchCommonType_textBinary env htext hn]) hn hlost
  · refine .admits (.inl ?_) ?_ hlost
    · rw [hstep, hc]
      by_cases hknown : hasType t = true
      · obtain ⟨n, rfl⟩ := exists_of_hasType hknown
        exact matchCommonType_of_textBinary env htext hknown (by simpa using fun h => ht ⟨n, rfl, h⟩)
      · exact matchCommonType_of_unknown env (.inr (by simpa using hknown))
    · rw [losesBinary_concat env]
      rintro (⟨c₂, n, hc₂, -, hlossy⟩ | ⟨-, hkeep⟩)
      · obtain rfl := Option.some.inj (hc.symm.trans hc₂)
        obtain ⟨hplain, -⟩ | ⟨hnothing', -⟩ := hlossy
        · obtain ⟨s, rfl, -⟩ := textBinary_cases htext
          simp [Ty.textBinary] at hplain
        · exact hcn hnothing'
      · exact ht hkeep

/-- `NOTHING` stays forgotten among lists. -/
theorem Folded.concat_nothing (hts : ts ≠ []) (h : LosesNothing ts)
    (hc : commonType env ts = some c) (hlists : c.OnlyLists) (hothers : AdmitsOthers c ts)
    (hbinary : ¬LosesBinary ts) (t : Option Ty) : Folded env (ts ++ [t]) := by
  have hstep := commonType_concat env hts t
  have hplain : ∀ n, ¬LossyBinary c n ∧ ¬LossyNothing c n := by
    refine fun n => ⟨?_, fun hlossy => hlists.known.2.1 hlossy.1⟩
    rintro (⟨htext, -⟩ | ⟨hnothing, -⟩)
    · rw [hlists.known.2.2] at htext
      cases htext
    · exact hlists.known.2.1 hnothing
  have hlost : ¬LosesBinary (ts ++ [t]) := by
    rw [losesBinary_concat env]
    rintro (⟨c₂, n, hc₂, -, hlossy⟩ | ⟨hloses, -⟩)
    · obtain rfl := Option.some.inj (hc.symm.trans hc₂)
      exact (hplain n).1 hlossy
    · exact hbinary hloses
  -- What the step admits, when it leaves a known type.
  have hadmits {n c' : Ty} (ht : t = some n) (hc' : commonType env (ts ++ [t]) = some c')
      (hknown : hasType (some c') = true) : AdmitsOthers c' (ts ++ [t]) ∧ hasType (some n) = true ∧
        (matchCommonType env (some c) (some n)).1 = some c' := by
    subst ht
    rw [hstep, hc] at hc'
    have hn := (known_of_matchCommonType env (hc'.symm ▸ hknown)).2
    have hwidens := matchCommonType_widens env hlists.known.1 hn (hplain n).1 (hplain n).2
    rw [hc'] at hwidens
    obtain hunknown | ⟨c₂, hc₂, hbelow, hbelow'⟩ := hwidens
    · rw [hknown] at hunknown
      cases hunknown
    · obtain rfl := Option.some.inj hc₂
      refine ⟨fun t' ht' hne v hv => ?_, hn, hc'⟩
      obtain ht' | ht' := List.mem_append.1 ht'
      · exact hbelow.instance (hothers t' ht' hne v hv)
      · obtain rfl : t' = some n := by simpa using ht'
        exact hbelow'.instance hv
  by_cases ht : ∃ n, t = some n ∧ n.OnlyLists
  · obtain ⟨n, rfl, hn⟩ := ht
    obtain ⟨c', hc', hlists'⟩ := matchCommonType_onlyLists env hlists hn
    have hcommon : commonType env (ts ++ [some n]) = some c' := by rw [hstep, hc, hc']
    exact .nothing ((losesNothing_concat env).2 (.inr ⟨h, n, rfl, hn⟩)) c' hcommon hlists'
      (hadmits rfl hcommon hlists'.known.1).1 hlost
  · refine .admits ?_ hlost ?_
    · by_cases hknown : hasType (commonType env (ts ++ [t])) = true
      · obtain ⟨c', hc'⟩ := exists_of_hasType hknown
        have hboth := known_of_matchCommonType env (hstep ▸ hknown)
        obtain ⟨n, rfl⟩ := exists_of_hasType hboth.2
        obtain ⟨hothers', hn, hmatch⟩ := hadmits rfl hc' (hc' ▸ hknown)
        have hnothing := Ty.nothing_below (nothing_mem_of_onlyLists env hlists hn
          (fun h => ht ⟨n, rfl, h⟩) hmatch (hc' ▸ hknown))
        refine .inr ⟨c', hc', fun t' ht' v hv => ?_⟩
        by_cases hne : t' = some .nothing
        · subst hne
          exact hnothing.instance hv
        · exact hothers' t' ht' hne v hv
      · exact .inl (by simpa using hknown)
    · rw [losesNothing_concat env]
      rintro (⟨c₂, n, hc₂, -, hlossy⟩ | ⟨-, hkeep⟩)
      · obtain rfl := Option.some.inj (hc.symm.trans hc₂)
        exact (hplain n).2 hlossy
      · exact ht hkeep

theorem not_goesOn_nil {α : Type} {start : List α → Prop} {keep : α → Prop} (h : ¬start []) :
    ¬GoesOn start keep [] := by
  rintro ⟨p, q, heq, hp, -⟩
  obtain ⟨rfl, -⟩ := List.append_eq_nil_iff.1 heq.symm
  exact h hp

theorem not_losesBinary_nil : ¬LosesBinary [] :=
  not_goesOn_nil (by rintro (⟨p, heq, -⟩ | ⟨p, ti, heq, -⟩) <;> simp at heq)

theorem not_losesNothing_nil : ¬LosesNothing [] :=
  not_goesOn_nil (by rintro ⟨p, ti, heq, -⟩; simp at heq)

/-- The fold over a sequence of types. -/
theorem folded (ts : List (Option Ty)) : Folded env ts := by
  induction ts using List.reverseRecOn with
  | nil => exact .admits (.inl rfl) not_losesBinary_nil not_losesNothing_nil
  | append_singleton ts t ih =>
    by_cases hts : ts = []
    · subst hts
      refine .admits ?_ ?_ ?_
      · cases t with
        | none => exact .inl rfl
        | some ti => exact .inr ⟨ti, rfl, by simp [InstanceOf]⟩
      · rw [losesBinary_concat env]
        rintro (⟨c, n, hc, -⟩ | ⟨hloses, -⟩)
        · cases hc
        · exact not_losesBinary_nil hloses
      · rw [losesNothing_concat env]
        rintro (⟨c, n, hc, -⟩ | ⟨hloses, -⟩)
        · cases hc
        · exact not_losesNothing_nil hloses
    · cases ih with
      | admits h hbinary hnothing => exact .concat_admits env hts h hbinary hnothing t
      | binary h c hc htext hnothing => exact .concat_binary env hts h hc htext hnothing t
      | nothing h c hc hlists hothers hbinary =>
        exact .concat_nothing env hts h hc hlists hothers hbinary t

/-- A type of lists does not describe `NOTHING`. -/
theorem Ty.OnlyLists.not_describes_nothing (h : ti.OnlyLists) : ¬ti.Describes .nothing := by
  intro hdesc
  have hbase : keepComplex ti.baseTypeInfo = some (.complexList .auto false) := by rw [h.2]; rfl
  obtain ⟨spec, hspec, hlist⟩ := Ty.below_base (Nat.le_of_eq h.1) hbase _ hdesc
  obtain rfl : spec = .complexList .auto := by
    simpa [Ty.returnSpecs, Ty.returns, orNothingReturns, returnVec] using hspec
  obtain ⟨u, cti, es, heq, -⟩ := hlist
  cases heq

/-- The "or nothing" types that parse texts do not describe binary values. -/
theorem not_describes_binary (h : ti.textBinary true = true) (bytes : List UInt8) :
    ¬ti.Describes (.binary bytes) := by
  have hspecs : ti.returnSpecs = [.type .hash, .type .nothing] := by
    obtain ⟨s, rfl, rfl | rfl | rfl⟩ := textBinary_cases h <;> rfl
  rintro ⟨spec, hspec, hdesc⟩
  rw [hspecs] at hspec
  obtain rfl | rfl := List.mem_pair.1 hspec <;>
    simp [TypeSpec.Describes, Value.getType] at hdesc

/-- Where binary values are forgotten, there is a type that has them. -/
theorem exists_text_of_losesBinary (h : LosesBinary ts) :
    ∃ ti, some ti ∈ ts ∧ ti.textBinary false = true := by
  obtain ⟨p, q, rfl, ⟨p', rfl, p'', ti, rfl, htext, -⟩ | ⟨p', ti, rfl, -, htext⟩, -⟩ := h
  · exact ⟨ti, by simp, htext⟩
  · exact ⟨ti, by simp, htext⟩

theorem nothing_mem_of_losesNothing (h : LosesNothing ts) : some .nothing ∈ ts := by
  obtain ⟨p, q, rfl, ⟨p', ti, rfl, ⟨k, rfl⟩, -⟩, -⟩ := h
  simp [List.replicate_succ]

/-- The common type of a sequence of types admits every instance of each of them exactly when
neither the binary values nor `NOTHING` are forgotten. -/
theorem commonType_admits_iff (ts : List (Option Ty)) :
    AdmitsAll (commonType env ts) ts ↔ ¬LosesBinary ts ∧ ¬LosesNothing ts := by
  cases folded env ts with
  | admits h hbinary hnothing => exact iff_of_true h ⟨hbinary, hnothing⟩
  | binary h c hc htext hnothing =>
    refine iff_of_false ?_ fun hnot => hnot.1 h
    rw [hc]
    rintro (hunknown | ⟨c', hc', hall⟩)
    · obtain ⟨s, rfl, rfl | rfl | rfl⟩ := textBinary_cases htext <;> cases hunknown
    · obtain rfl := Option.some.inj hc'
      obtain ⟨ti, hmem, hti⟩ := exists_text_of_losesBinary h
      have hspecs : ti.returnSpecs = [.type .binary] := only_of_textBinary hti
      have hinstance : ti.Instance (.binary []) :=
        ⟨⟨.type .binary, by simp [hspecs], .inr rfl⟩, by simp [Value.WellTyped]⟩
      exact not_describes_binary htext [] (hall _ hmem _ hinstance).1
  | nothing h c hc hlists hothers hbinary =>
    refine iff_of_false ?_ fun hnot => hnot.2 h
    rw [hc]
    rintro (hunknown | ⟨c', hc', hall⟩)
    · rw [hlists.known.1] at hunknown
      cases hunknown
    · obtain rfl := Option.some.inj hc'
      have hinstance : Ty.nothing.Instance .nothing :=
        ⟨⟨.type .nothing, List.mem_singleton_self _, .inr rfl⟩, by simp [Value.WellTyped]⟩
      exact hlists.not_describes_nothing
        (hall _ (nothing_mem_of_losesNothing h) _ hinstance).1

end

/-- `softlist<*int>`. -/
def softListOfIntOrNothing : Ty := .complexSoftList (.simple .int true) false

/-- Without `%strict-types`, and without classes. -/
def laxEnv : ParseEnv := ⟨false, fun _ _ => (.notEqual, false)⟩

/-- `NOTHING` and then a `softlist<*int>`: the common type is `softlist<*int>`, the other way round
it is `*softlist<*int>`. -/
theorem commonType_forgets_nothing :
    commonType laxEnv [some softListOfIntOrNothing, some .nothing] =
        some (.complexSoftList (.simple .int true) true) ∧
      ¬AdmitsAll (commonType laxEnv [some .nothing, some softListOfIntOrNothing])
        [some .nothing, some softListOfIntOrNothing] := by
  have hlists : softListOfIntOrNothing.OnlyLists := ⟨rfl, rfl⟩
  refine ⟨rfl, ?_⟩
  rintro (hunknown | ⟨c, hc, hall⟩)
  · cases hunknown
  · obtain rfl := Option.some.inj hc
    have hinstance : Ty.nothing.Instance .nothing :=
      ⟨⟨.type .nothing, List.mem_singleton_self _, .inr rfl⟩, by simp [Value.WellTyped]⟩
    exact hlists.not_describes_nothing (hall (some .nothing) (by simp) _ hinstance).1

end Qore.Types
