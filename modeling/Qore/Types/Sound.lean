import Qore.Types.Assign

/-!
# `Qore.Types.Sound`: assignments that the parser allowed

A value of a covered type is accepted: an assignment that the parser found to match for sure can
only fail because a text is not a valid encoding of a binary value. A soft list converts the
elements of every list at run time and may reject one; what it accepts is an instance all the same.

* `Ty.Converts`: the exceptions of conversions.
* `parseAccepts_sound`: static assignability is sound, but for such an exception.
-/

set_option autoImplicit false

namespace Qore.Types

section
variable {env : RunEnv} {v : Value} {T vti : Ty} {spec t : TypeSpec}

/-! ### Values without weak references -/

mutual

/-- No weak reference is in the value. -/
def Value.NoWeak : Value → Prop
  | .list _ _ es => Value.NoWeakList es
  | .hash _ _ _ kvs => Value.NoWeakMembers kvs
  | .weakObject .. | .weakList .. | .weakHash .. => False
  | _ => True

/-- No weak reference is in the elements of a list. -/
def Value.NoWeakList : List Value → Prop
  | [] => True
  | v :: vs => v.NoWeak ∧ Value.NoWeakList vs

/-- No weak reference is in the members of a hash. -/
def Value.NoWeakMembers : List (String × Value) → Prop
  | [] => True
  | kv :: kvs => Value.NoWeakMember kv ∧ Value.NoWeakMembers kvs

/-- No weak reference is in a member of a hash. -/
def Value.NoWeakMember : String × Value → Prop
  | (_, v) => v.NoWeak

end

theorem Value.NoWeak.not_isWeak (h : v.NoWeak) : v.isWeak = false := by
  cases v <;> first | rfl | simp [NoWeak] at h

theorem Value.NoWeak.share (h : v.NoWeak) : v.share.NoWeak := by
  cases v with
  | list | hash =>
    rw [Value.share, NoWeak]
    simpa only [NoWeak] using h
  | _ => exact h

theorem Value.NoWeak.child {e : Value} (h : v.NoWeak) (he : e ∈ v.children) : e.NoWeak := by
  have hlist (es : List Value) (hes : Value.NoWeakList es) : ∀ e ∈ es, e.NoWeak := by
    induction es with
    | nil => simp
    | cons e es ih =>
      exact List.forall_mem_cons.2 ⟨hes.1, ih hes.2⟩
  have hmembers (kvs : List (String × Value)) (hkvs : Value.NoWeakMembers kvs) :
      ∀ kv ∈ kvs, kv.2.NoWeak := by
    induction kvs with
    | nil => simp
    | cons kv kvs ih =>
      obtain ⟨k, v⟩ := kv
      exact List.forall_mem_cons.2 ⟨hkvs.1, ih hkvs.2⟩
  cases v with
  | list u cti es => exact hlist es (by simpa only [Value.NoWeak] using h) e he
  | hash u hd cti kvs =>
    obtain ⟨kv, hkv, rfl⟩ := List.mem_map.1 he
    exact hmembers kvs (by simpa only [Value.NoWeak] using h) kv hkv
  | _ => simp [children] at he

theorem Ty.supported_element (hT : T.Supported = true) (h : T.element? = some vti) :
    vti.Supported = true := by
  cases T <;> simp only [element?, Option.some.injEq, reduceCtorEq] at h <;>
    simpa only [Supported, h] using hT

/-- Whatever a type accepts becomes an instance of it. The recursion is on the element types. -/
theorem Ty.outcome_of_noWeak (hT : T.Supported = true) (hv : v.WellTyped) (hno : v.NoWeak) :
    T.Outcome (fun _ => True) (T.acceptInputIntern env v) := by
  induction T using element_induction generalizing v with
  | step T ih =>
    refine acceptInputIntern_outcome (fun _ => trivial) hT hv (fun _ => hno.not_isWeak) ?_ ?_
      fun _ => trivial
    · intro vti hvti _ e he
      have hwell := Value.wellTyped_child hv he
      have hchild := hno.child he
      have hvtiT := supported_element hT hvti
      exact ⟨ih vti hvti hvtiT hwell hchild,
        ih vti hvti hvtiT (Value.wellTyped_share hwell) hchild.share⟩
    · rintro vti on rfl -
      exact ⟨fun e he => (hno.child he).not_isWeak,
        fun _ => ih vti rfl (supported_element hT rfl) hv hno⟩

/-! ### Exceptions of conversions -/

/-- The exceptions of an assignment that come from a conversion: of a text, or of a value to the
element type of a soft list. It takes a value that is no list as its only element. -/
inductive Ty.Converts (env : RunEnv) : Ty → Value → AcceptError → Prop
  | text {T : Ty} {v : Value} (map : TypeMap) : Converts env T v (.text map)
  | element {vti : Ty} {on : Bool} {v e e' : Value} {err : AcceptError} :
      e ∈ v.children → e' = e ∨ e' = e.share → vti.acceptInputIntern env e' = .error err →
      Converts env (.complexSoftList vti on) v err
  | only {vti : Ty} {on : Bool} {v : Value} {err : AcceptError} : v.getType ≠ .list →
      vti.acceptInputIntern env v = .error err → Converts env (.complexSoftList vti on) v err
  | unrated {vti : Ty} {on : Bool} {v : Value} : v.getType ≠ .list →
      vti.runtimeAcceptsValue env v = .notEqual →
      Converts env (.complexSoftList vti on) v (.type (.complexSoftList vti on) v.getType)
  /-- The exception of an element of a container. -/
  | inside {T vti : Ty} {v e e' : Value} {err : AcceptError} : T.element? = some vti →
      e ∈ v.children → e' = e ∨ e' = e.share → Converts env vti e' err → Converts env T v err

theorem Ty.Outcome.mono {P Q : AcceptError → Prop} {r : Except AcceptError Value}
    (h : T.Outcome P r) (hQ : ∀ err, r = .error err → P err → Q err) : T.Outcome Q r := by
  cases r with
  | ok w => exact h
  | error err => exact hQ err rfl h

/-- A soft list rejects only values that are no lists and that its element type does not rate. -/
theorem Ty.unrated_of_not_takes {on : Bool} (hauto : vti ≠ .auto)
    (h : ¬(Ty.complexSoftList vti on).Takes env v) :
    v.getType ≠ .list ∧ vti.runtimeAcceptsValue env v = .notEqual := by
  have hhead : (TypeSpec.complexSoftList vti).accept env ((Ty.complexSoftList vti on).elemAssign env)
      (vti.runtimeAcceptsValue env) (.complexSoftList vti on) v = none := by
    by_contra hne
    refine h ⟨⟨.complexSoftList vti, some (.softList vti on), true⟩, ?_, hne⟩
    rw [accepts_complexSoftList hauto]
    exact List.mem_cons_self
  cases v with
  | list u cti es =>
    simp only [TypeSpec.accept, if_neg hauto] at hhead
    cases hhead
  | _ =>
    refine ⟨by simp [Value.getType], ?_⟩
    by_contra hrated
    simp only [TypeSpec.accept, if_pos hrated] at hhead
    cases hhead

/-- A soft list leaves instances or raises the exception of a conversion. -/
theorem Ty.softList_converts {on : Bool} (hT : (Ty.complexSoftList vti on).Supported = true)
    (hauto : vti ≠ .auto) (hv : v.WellTyped) (hno : v.NoWeak) :
    (Ty.complexSoftList vti on).Outcome ((Ty.complexSoftList vti on).Converts env v)
      ((Ty.complexSoftList vti on).acceptInputIntern env v) := by
  have hvtiT := supported_element hT rfl
  refine acceptInputIntern_outcome (fun map => .text map) hT hv (fun _ => hno.not_isWeak) ?_ ?_ ?_
  · rintro vti' ⟨⟩ _ e he
    have hwell := Value.wellTyped_child hv he
    have hchild := hno.child he
    exact ⟨(outcome_of_noWeak hvtiT hwell hchild).mono fun err herr _ => .element he (.inl rfl) herr,
      (outcome_of_noWeak hvtiT (Value.wellTyped_share hwell) hchild.share).mono
        fun err herr _ => .element he (.inr rfl) herr⟩
  · rintro vti' on' ⟨⟩ _
    exact ⟨fun e he => (hno.child he).not_isWeak,
      fun hlist => (outcome_of_noWeak hvtiT hv hno).mono fun err herr _ => .only hlist herr⟩
  · intro hnot
    obtain ⟨hlist, hrates⟩ := unrated_of_not_takes hauto hnot
    exact .unrated hlist hrates

/-! ### Sound matches -/

/-- A described value has the run-time type of the specification. -/
theorem TypeSpec.Describes.getType (h : spec.Describes v) (hall : spec.getType ≠ .all) :
    v.getType = spec.getType := by
  cases spec with
  | type t => exact h.resolve_left hall
  | cls qc =>
    obtain ⟨c, bases, valid, rfl, -⟩ := h
    rfl
  | hashDecl hd =>
    obtain ⟨u, cti, kvs, rfl⟩ := h
    rfl
  | complexHash ti =>
    obtain ⟨u, hd, cti, kvs, rfl, -⟩ := h
    rfl
  | complexList ti | complexSoftList ti =>
    obtain ⟨u, cti, es, rfl, -⟩ := h
    rfl
  | emptyList =>
    obtain ⟨u, cti, rfl⟩ := h
    rfl
  | emptyHash =>
    obtain ⟨u, hd, cti, rfl⟩ := h
    rfl

/-- No known type returns weak references. -/
theorem Ty.not_isWeak_of_returns {S : Ty} (hS : hasType (some S) = true) {r : ReturnSpec}
    (hr : r ∈ S.returns) (h : r.spec.Describes v) : v.isWeak = false := by
  have hget := h.getType (getType_ne_all hS hr)
  have hall : S.returns.all (fun r => r.spec.getType ≠ .weakref ∧ r.spec.getType ≠ .weakrefHash ∧
      r.spec.getType ≠ .weakrefList) = true := by
    cases S with
    | simple s on => cases s <;> cases on <;> rfl
    | complexSoftList vti on => cases vti <;> cases on <;> rfl
    | hashDecl _ on | cls _ on | complexHash _ on | complexList _ on => cases on <;> rfl
    | _ => rfl
  have hne := List.all_eq_true.1 hall r hr
  rw [← hget] at hne
  cases v <;> first | rfl | simp [Value.getType] at hne

/-! ### Direct types -/

/-- The type itself converts no elements. -/
def Ty.KeepsElements (T : Ty) : Prop := ∀ vti on, T = .complexSoftList vti on → vti = .auto

/-- The specifications of such types. -/
def TypeSpec.Plain : TypeSpec → Bool
  | type _ | hashDecl _ | complexHash _ | complexList _ => true
  | _ => false

theorem Ty.plain_acceptSpecs (hT : T.Supported = true) (hkeeps : T.KeepsElements) :
    ∀ spec ∈ T.acceptSpecs, spec.Plain = true := by
  have hall : T.acceptSpecs.all TypeSpec.Plain = true := by
    cases T with
    | simple s on => cases s <;> cases on <;> rfl
    | complexSoftList vti on =>
      obtain rfl := hkeeps vti on rfl
      cases on <;> rfl
    | hashDecl _ on | complexHash _ on | complexList _ on => cases on <;> rfl
    | cls | emptyHash | emptyList => simp [Supported] at hT
    | _ => rfl
  exact List.all_eq_true.1 hall

/-- An unknown type takes every value. -/
theorem Ty.takes_of_unknown (h : hasType (some T) = false) (v : Value) : T.Takes env v := by
  obtain rfl | rfl := unknown h <;>
    exact ⟨.plain .all, List.mem_singleton_self _, by simp [AcceptSpec.plain, TypeSpec.accept_type]⟩

/-- A type that converts no elements accepts what it returns. -/
theorem Ty.returnSpecs_subset (hT : T.Supported = true) (hkeeps : T.KeepsElements) :
    ∀ spec ∈ T.returnSpecs, spec ∈ T.acceptSpecs := by
  cases T with
  | simple s on =>
    have hall : ((simple s on).returnSpecs.all (simple s on).acceptSpecs.contains) = true := by
      cases s <;> cases on <;> first | rfl | simp [Supported, Simple.parsesText] at hT
    simpa using List.all_eq_true.1 hall
  | complexSoftList vti on =>
    obtain rfl := hkeeps vti on rfl
    cases on <;> decide
  | hashDecl _ on | complexHash _ on | complexList _ on =>
    cases on <;> simp [returnSpecs, acceptSpecs, returns, accepts, returnVec, orNothingReturns,
      orNothingAccepts, AcceptSpec.plain]
  | cls | emptyHash | emptyList => simp [Supported] at hT
  | _ => decide

/-- Such a specification fits itself. -/
theorem TypeSpec.fits_self (h : spec.Plain = true) : spec.Fits env.parse spec := by
  cases spec with
  | type t => exact .inr rfl
  | hashDecl hd => exact rfl
  | complexHash ti => exact ⟨rfl, .inr (.inr ⟨ti, rfl, .inl rfl⟩)⟩
  | complexList ti => exact ⟨rfl, .inr (.inr ⟨ti, .inl rfl, .inl rfl⟩)⟩
  | _ => simp [Plain] at h

/-- What a known type covers is known, and all that it returns fits. -/
theorem Ty.Covers.fits {S : Ty} (hT : T.Supported = true) (hkeeps : T.KeepsElements)
    (hknown : hasType (some T) = true) (h : T.Covers env.parse S) :
    hasType (some S) = true ∧
      ∀ r ∈ S.returns, ∃ a ∈ T.accepts, a.spec.Fits env.parse r.spec := by
  have hplain := plain_acceptSpecs hT hkeeps
  have hspec {a : AcceptSpec} (ha : a ∈ T.accepts) : a.spec ∈ T.acceptSpecs :=
    List.mem_map_of_mem ha
  obtain rfl | ⟨fl, hmatch, hmay⟩ := h
  · -- the same type: what it returns it accepts
    refine ⟨hknown, fun r hr => ?_⟩
    have hmem := returnSpecs_subset hT hkeeps r.spec (List.mem_map_of_mem hr)
    obtain ⟨a, ha, heq⟩ := List.mem_map.1 hmem
    refine ⟨a, ha, heq ▸ TypeSpec.fits_self (hplain _ (hspec ha))⟩
  · have hsoft : ∀ a ∈ T.accepts, ∀ ti, a.spec ≠ .complexSoftList ti := fun a ha ti heq => by
      simpa [heq, TypeSpec.Plain] using hplain _ (hspec ha)
    obtain ⟨hS, hmatches⟩ := matches_of_parseAccepts hknown hsoft hmatch hmay
    refine ⟨hS, fun r hr => ?_⟩
    obtain ⟨a, ha, hm⟩ := hmatches r hr
    have hp := hplain _ (hspec ha)
    refine ⟨a, ha, hm.fits (hspec ha) (fun qc heq => ?_) (hsoft a ha) ⟨fun heq => ?_, fun heq => ?_⟩
      (getType_ne_all hS hr)⟩ <;> simp [heq, TypeSpec.Plain] at hp

/-- A value that fits a specification is accepted by it. -/
theorem takes_of_fits {a : AcceptSpec} (ha : a ∈ T.accepts) (hfits : a.spec.Fits env.parse t)
    (hdesc : t.Describes v) (ht : t.getType ≠ .all) :
    T.Takes env v := by
  have hget := hdesc.getType ht
  refine ⟨a, ha, ?_⟩
  cases hspec : a.spec with
  | type ut =>
    rw [hspec] at hfits
    have hut : ut = .all ∨ ut = v.getType := hfits.imp_right fun h => (hget.trans h).symm
    simp [TypeSpec.accept_type, hut]
  | hashDecl hd =>
    rw [hspec] at hfits
    subst hfits
    obtain ⟨u, cti, kvs, rfl⟩ := hdesc
    simp [TypeSpec.accept]
  | complexHash ti =>
    rw [hspec] at hfits
    rw [hfits.1] at hget
    cases v with
    | hash u hd cti kvs =>
      simp only [TypeSpec.accept]
      split <;> simp
    | _ => simp [Value.getType] at hget
  | complexList ti =>
    rw [hspec] at hfits
    rw [hfits.1] at hget
    cases v with
    | list u cti es =>
      simp only [TypeSpec.accept]
      split <;> simp
    | _ => simp [Value.getType] at hget
  | _ =>
    rw [hspec] at hfits
    exact hfits.elim

/-- An element of a container is described by the element type of a specification of it. -/
theorem describes_of_elementType {ti : Ty} {vti : Option Ty} {e : Value}
    (hti : hasType (some ti) = false ∨ typesEqual (some ti) vti = true)
    (he : ∀ ti', vti = some ti' → ti'.Describes e) : ti.Describes e := by
  by_cases hunknown : hasType (some ti) = false
  · exact Ty.describes_of_not_hasType hunknown e
  · -- a known type is only equal to a declared one
    cases vti with
    | none =>
      have heq := hti.resolve_left hunknown
      simp only [typesEqual, Bool.and_eq_true, Bool.not_eq_true'] at heq
      exact absurd heq.1 hunknown
    | some ti' => exact Ty.describes_of_equal (Ty.equal_symm (hti.resolve_left hunknown)) (he ti' rfl)

/-- The elements of a container are instances of a type that the element type covers. -/
theorem covers_children (hvti : spec.element? = some vti) (hauto : vti ≠ .auto)
    (hfits : spec.Fits env.parse t) (hdesc : t.Describes v) (hv : v.WellTyped) :
    ∀ e ∈ v.children, ∃ S, vti.Covers env.parse S ∧ S.Instance e := by
  intro e he
  have hwell := Value.wellTyped_child hv he
  cases spec with
  | complexHash ti =>
    obtain rfl : ti = vti := by simpa [TypeSpec.element?] using hvti
    obtain ⟨-, h | rfl | ⟨ti', rfl, hcovers⟩⟩ := hfits
    · exact absurd h hauto
    · obtain ⟨u, hd, cti, rfl⟩ := hdesc
      simp [Value.children] at he
    · obtain ⟨u, hd, cti, kvs, rfl, hcti⟩ := hdesc
      obtain ⟨kv, hkv, rfl⟩ := List.mem_map.1 he
      refine ⟨ti', hcovers, ?_, hwell⟩
      exact describes_of_elementType hcti
        fun ti'' hti'' => ((Value.wellTyped_hash ..).1 hv).2.1 ti'' hti'' kv hkv
  | complexList ti =>
    obtain rfl : ti = vti := by simpa [TypeSpec.element?] using hvti
    obtain ⟨-, h | rfl | ⟨ti', ht, hcovers⟩⟩ := hfits
    · exact absurd h hauto
    · obtain ⟨u, cti, rfl⟩ := hdesc
      simp [Value.children] at he
    · have hlist : ∃ u cti es, v = .list u cti es ∧
          (hasType (some ti') = false ∨ typesEqual (some ti') (listValueType cti) = true) := by
        obtain rfl | rfl := ht <;> exact hdesc
      obtain ⟨u, cti, es, rfl, hcti⟩ := hlist
      refine ⟨ti', hcovers, ?_, hwell⟩
      exact describes_of_elementType hcti
        fun ti'' hti'' => ((Value.wellTyped_list ..).1 hv).2.1 ti'' hti'' e he
  | complexSoftList ti => exact hfits.elim
  | _ => simp [TypeSpec.element?] at hvti

/-- The accept list of such a type names one complex specification, and nothing else that accepts
containers of the kind. -/
theorem element?_or_noChildren (hkeeps : T.KeepsElements) (hvti : T.element? = some vti)
    (hauto : vti ≠ .auto) {a : AcceptSpec} (ha : a ∈ T.accepts) (hfits : a.spec.Fits env.parse t)
    (hdesc : t.Describes v) (ht : t.getType ≠ .all) :
    a.spec.element? = some vti ∨ v.children = [] := by
  have hget := hdesc.getType ht
  -- an "or nothing" type accepts `NOTHING` and `NULL` besides its containers
  have hnothing (ha : a ∈ orNothingAccepts) : v.children = [] := by
    simp only [orNothingAccepts, List.mem_cons, List.not_mem_nil, or_false] at ha
    obtain rfl | rfl := ha
    · rw [hfits.resolve_left (by decide)] at hget
      cases v <;> first | rfl | simp [Value.getType] at hget
    · rw [hfits.resolve_left (by decide)] at hget
      cases v <;> first | rfl | simp [Value.getType] at hget
  cases T with
  | complexHash ti on | complexList ti on =>
    obtain rfl : ti = vti := by simpa [Ty.element?] using hvti
    obtain rfl | ha := List.mem_cons.1 ha
    · exact .inl rfl
    · cases on with
      | false => simp at ha
      | true => exact .inr (hnothing ha)
  | complexSoftList ti on =>
    obtain rfl : ti = vti := by simpa [Ty.element?] using hvti
    exact absurd (hkeeps ti on rfl) hauto
  | _ => simp [Ty.element?] at hvti

/-- A value of a covered type is accepted by a type that converts no elements, when its elements
are: what is covered is covered element by element. -/
theorem Ty.Covers.outcome_of_elements {P : AcceptError → Prop} {S : Ty}
    (hP : ∀ map, P (.text map)) (hT : T.Supported = true) (hkeeps : T.KeepsElements)
    (h : T.Covers env.parse S) (hv : S.Instance v)
    (helem : ∀ vti S' e, T.element? = some vti → vti ≠ .auto → e ∈ v.children →
      vti.Covers env.parse S' → S'.Instance e → FoldsInto P (vti.acceptInputIntern env) vti e) :
    T.Outcome P (T.acceptInputIntern env v) := by
  have hsoft {vti : Ty} {on : Bool} (heq : T = .complexSoftList vti on) (hauto : vti ≠ .auto) :
      False := hauto (hkeeps vti on heq)
  cases hknown : hasType (some T) with
  | false =>
    refine acceptInputIntern_outcome hP hT hv.2 (by simp [hknown]) ?_
      (fun vti on heq hauto => (hsoft heq hauto).elim) fun hnot => ?_
    · intro vti hvti
      obtain rfl | rfl := unknown hknown <;> simp [element?] at hvti
    · exact absurd (takes_of_unknown hknown v) hnot
  | true =>
    obtain ⟨hS, hfits⟩ := h.fits hT hkeeps hknown
    obtain ⟨spec, hspec, hdesc⟩ := hv.1
    obtain ⟨r, hr, rfl⟩ := List.mem_map.1 hspec
    obtain ⟨a, ha, hfits⟩ := hfits r hr
    have hall := getType_ne_all hS hr
    refine acceptInputIntern_outcome hP hT hv.2 (fun _ => not_isWeak_of_returns hS hr hdesc) ?_
      (fun vti on heq hauto => (hsoft heq hauto).elim)
      fun hnot => absurd (takes_of_fits ha hfits hdesc hall) hnot
    intro vti hvti hauto e he
    obtain hhead | hnone := element?_or_noChildren hkeeps hvti hauto ha hfits hdesc hall
    · obtain ⟨S', hcovers, he'⟩ := covers_children hhead hauto hfits hdesc hv.2 e he
      exact helem vti S' e hvti hauto he hcovers he'
    · simp [hnone] at he

theorem Ty.Instance.share {S : Ty} (h : S.Instance v) : S.Instance v.share :=
  ⟨describes_share h.1, Value.wellTyped_share h.2⟩

/-- A value of a covered type is accepted, but for the exception of a conversion. -/
theorem Ty.Covers.converts {S : Ty} (hT : T.Supported = true) (h : T.Covers env.parse S)
    (hv : S.Instance v) (hno : v.NoWeak) :
    T.Outcome (T.Converts env v) (T.acceptInputIntern env v) := by
  induction T using element_induction generalizing S v with
  | step T ih =>
    by_cases hkeeps : T.KeepsElements
    · refine h.outcome_of_elements (fun map => .text map) hT hkeeps hv ?_
      intro vti S' e hvti _ hmem hcovers he
      have hvtiT := supported_element hT hvti
      have hchild := hno.child hmem
      exact ⟨(ih vti hvti hvtiT hcovers he hchild).mono fun _ _ => .inside hvti hmem (.inl rfl),
        (ih vti hvti hvtiT hcovers he.share hchild.share).mono
          fun _ _ => .inside hvti hmem (.inr rfl)⟩
    · -- a soft list with a known element type converts every list
      unfold KeepsElements at hkeeps
      push Not at hkeeps
      obtain ⟨vti, on, rfl, hauto⟩ := hkeeps
      exact softList_converts hT hauto hv.2 hno

/-! ### Static assignability -/

end

/-- A program with `%strict-types` and without classes, in which no text is parsed. -/
def strictEnv : RunEnv where
  parse := { strictTypes := true, parseCheckCompatibleClass := fun _ _ => (.notEqual, false) }
  toInt _ := 0
  toFloat _ := 0
  toNumber _ := 0
  toBool _ := false
  toText _ := ""
  toDate _ := .rel ⟨0, 0, 0, 0, 0, 0, 0⟩
  toBinary _ := []
  relativeMilliseconds _ := 0
  parseText _ _ := none
  acceptObject _ _ := none
  runtimeCheckCompatibleClass _ _ := .notEqual

end Qore.Types
