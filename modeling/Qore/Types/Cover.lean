import Qore.Types.Equal

/-!
# `Qore.Types.Cover`: what a match without `may_not_match` says

`parseAccepts` goes through the return list of one type and looks for accept specifications of the
other, setting flags on the way. When it ends with a match and with `may_not_match` unset, every
return specification was matched for sure by some accept specification.

A failed comparison of element types unsets `may_not_match` again. This is harmless because only
the first return specification of a type has an element type, and whatever is set later stays set.

* `Ty.matches_of_parseAccepts`: a match for sure is one for every return specification.
-/

set_option autoImplicit false

namespace Qore.Types

section
variable (env : ParseEnv)

/-- A specification matches another one and `may_not_match` is not set. -/
def TypeSpec.Matches (elem : Option Ty → Flags → Matched) (spec t : TypeSpec) : Prop :=
  ∃ fl, (spec.match env elem t fl).1 ≠ .notEqual ∧
    (spec.match env elem t fl).2.mayNotMatch = false

/-- A type accepts another one for sure. -/
def Ty.Covers (T S : Ty) : Prop :=
  T = S ∨ ∃ fl, (T.parseAccepts env (some S) fl).1 ≠ .notEqual ∧
    (T.parseAccepts env (some S) fl).2.mayNotMatch = false

/-- A comparison with `t` never unsets `may_not_match`. -/
def KeepsMayNotMatch (elem : Option Ty → Flags → Matched) (as : List AcceptSpec)
    (t : TypeSpec) : Prop :=
  ∀ a ∈ as, ∀ fl, fl.mayNotMatch = true → (a.spec.match env elem t fl).2.mayNotMatch = true

variable {env} {fl : Flags} {elem : Option Ty → Flags → Matched} {t : TypeSpec} {r : ReturnSpec}
  {as : List AcceptSpec} {l : Loop} {ti : Ty}

theorem mayMatch_mayNotMatch (fl : Flags) (h : fl.mayNotMatch = true) :
    (mayMatch env fl).2.mayNotMatch = true := by
  unfold mayMatch
  split
  · exact h
  · rfl

/-- What may not match is never matched for sure. -/
theorem mayMatch_not_sure (fl : Flags) (hmatch : (mayMatch env fl).1 ≠ .notEqual) :
    (mayMatch env fl).2.mayNotMatch = true := by
  unfold mayMatch at hmatch ⊢
  split at hmatch
  · exact absurd rfl hmatch
  · next hstrict => rw [if_neg hstrict]

theorem checkMatchType_mayNotMatch (ut : NT) (t : TypeSpec) (h : fl.mayNotMatch = true) :
    (checkMatchType env ut t fl).2.mayNotMatch = true := by
  unfold checkMatchType
  split
  · exact h
  · split
    · exact mayMatch_mayNotMatch fl h
    · split
      · split
        case h_4 => split <;> exact h
        all_goals exact h
      · exact h

/-- Only the comparison of element types may unset `may_not_match`. -/
theorem TypeSpec.match_mayNotMatch {spec : TypeSpec} (hsoft : ∀ ti, spec ≠ .complexSoftList ti)
    (ht : t.element? = none) (h : fl.mayNotMatch = true) :
    (spec.match env elem t fl).2.mayNotMatch = true := by
  cases spec with
  | complexSoftList ti => exact absurd rfl (hsoft ti)
  | type _ | emptyList | emptyHash => exact checkMatchType_mayNotMatch _ t h
  | cls qc =>
    simp only [TypeSpec.match]
    split
    · simp [h]
    · split
      · exact mayMatch_mayNotMatch fl h
      · exact h
  | hashDecl hd =>
    simp only [TypeSpec.match]
    split
    · exact h
    · split
      · exact mayMatch_mayNotMatch fl h
      · exact h
    · exact h
  | complexHash ti =>
    simp only [TypeSpec.match]
    split
    · simp [element?] at ht
    · exact h
    · exact h
    · split
      · exact h
      · split
        · exact mayMatch_mayNotMatch fl h
        · exact h
    · exact h
  | complexList ti =>
    simp only [TypeSpec.match, matchComplexList, matchComplexList.matchElement,
      Bool.false_eq_true, if_false]
    split
    · simp [element?] at ht
    · simp [element?] at ht
    · exact h
    · split <;> exact h
    · exact mayMatch_mayNotMatch fl h
    · exact h

/-! ### The loops -/

/-- What one comparison does: a perfect match, no match, or a match that is remembered and ends the
loop when it is the first one and may fail at run time. -/
theorem parseAcceptsIntern_cases (env : ParseEnv) (elem : Option Ty → Flags → Matched) (a : AcceptSpec)
    (r : ReturnSpec) (l : Loop) :
    ∃ res fl, a.spec.match env elem r.spec l.flags = (res, fl) ∧
      ((res = .ident ∧ r.exact = true ∧
          parseAcceptsIntern env elem a r l = (.ident, { l with flags := fl.filtered a.map })) ∨
        (res = .notEqual ∧ parseAcceptsIntern env elem a r l = (.notEqual, { l with flags := fl })) ∨
        (res ≠ .notEqual ∧ l.tNoMatch = false ∧
          parseAcceptsIntern env elem a r l =
            (.notEqual, { l with flags := fl.filtered a.map })) ∨
        (res ≠ .notEqual ∧ (l.ok = false ∧ fl.mayNotMatch = true) ∧
          parseAcceptsIntern env elem a r l =
            (res, { flags := fl.filtered a.map, tNoMatch := false, ok := true })) ∨
        (res ≠ .notEqual ∧ (l.ok = true ∨ fl.mayNotMatch = false) ∧
          parseAcceptsIntern env elem a r l =
            (.notEqual, { flags := fl.filtered a.map, tNoMatch := false, ok := true }))) := by
  cases hmatch : a.spec.match env elem r.spec l.flags with
  | mk res fl =>
    refine ⟨res, fl, rfl, ?_⟩
    simp only [parseAcceptsIntern, hmatch]
    by_cases hident : res = .ident ∧ a.exact ∧ r.exact
    · exact .inl ⟨hident.1, hident.2.2, by rw [if_pos hident]⟩
    · rw [if_neg hident]
      by_cases hnot : res = .notEqual
      · exact .inr (.inl ⟨hnot, by rw [if_pos hnot]⟩)
      · rw [if_neg hnot]
        cases htno : l.tNoMatch with
        | false => exact .inr (.inr (.inl ⟨hnot, rfl, by simp⟩))
        | true =>
          by_cases hends : l.ok = false ∧ fl.mayNotMatch = true
          · exact .inr (.inr (.inr (.inl ⟨hnot, hends, by simp [Flags.filtered, hends]⟩)))
          · have hends' : l.ok = true ∨ fl.mayNotMatch = false := by
              simpa only [not_and_or, Bool.not_eq_false, Bool.not_eq_true] using hends
            refine .inr (.inr (.inr (.inr ⟨hnot, hends', ?_⟩)))
            obtain hok | hmay := hends'
            · simp [Flags.filtered, hok]
            · simp [Flags.filtered, hmay]

theorem acceptLoop_mayNotMatch (hkeeps : KeepsMayNotMatch env elem as r.spec)
    (h : l.flags.mayNotMatch = true) :
    (acceptLoop env elem r as l).2.flags.mayNotMatch = true := by
  induction as generalizing l with
  | nil => exact h
  | cons a as ih =>
    have hrest : KeepsMayNotMatch env elem as r.spec := fun a' ha' => hkeeps a' (by simp [ha'])
    have hfl := hkeeps a (by simp) l.flags h
    obtain ⟨res, fl, heq, hcases⟩ := parseAcceptsIntern_cases env elem a r l
    rw [heq] at hfl
    have hfiltered : (fl.filtered a.map).mayNotMatch = true := hfl
    rw [acceptLoop]
    obtain ⟨-, -, hstep⟩ | ⟨-, hstep⟩ | ⟨-, -, hstep⟩ | ⟨hres, -, hstep⟩ | ⟨-, -, hstep⟩ := hcases
    · simp only [hstep, if_true, hfiltered]
    · simp only [hstep, reduceCtorEq, if_false, if_true]
      exact ih hrest hfl
    · simp only [hstep, reduceCtorEq, if_false, if_true]
      exact ih hrest hfiltered
    · simp only [hstep, if_neg hres, hfiltered, if_true]
      split <;> exact hfiltered
    · simp only [hstep, reduceCtorEq, if_false, if_true]
      exact ih hrest hfiltered

/-- What ends the loop over the accept list either may not match or is perfect. -/
theorem acceptLoop_some {l' : Loop} {res : Match} (h : acceptLoop env elem r as l = (some res, l'))
    (hmay : l'.flags.mayNotMatch = false) :
    r.exact = true ∧ ∃ a ∈ as, a.spec.Matches env elem r.spec := by
  induction as generalizing l with
  | nil => simp [acceptLoop] at h
  | cons a as ih =>
    have hrest {m : Loop} (h : acceptLoop env elem r as m = (some res, l')) :
        r.exact = true ∧ ∃ a' ∈ a :: as, a'.spec.Matches env elem r.spec := by
      obtain ⟨hexact, a', ha', hm⟩ := ih h
      exact ⟨hexact, a', by simp [ha'], hm⟩
    obtain ⟨res', fl, heq, hcases⟩ := parseAcceptsIntern_cases env elem a r l
    rw [acceptLoop] at h
    obtain ⟨hres, hexact, hstep⟩ | ⟨-, hstep⟩ | ⟨-, -, hstep⟩ | ⟨hres, hends, hstep⟩ |
      ⟨-, -, hstep⟩ := hcases
    · simp only [hstep, if_true, Prod.mk.injEq] at h
      obtain ⟨-, rfl⟩ := h
      refine ⟨hexact, a, by simp, l.flags, ?_, ?_⟩
      · simp [heq, hres]
      · rw [heq]
        exact hmay
    · simp only [hstep, reduceCtorEq, if_false, if_true] at h
      exact hrest h
    · simp only [hstep, reduceCtorEq, if_false, if_true] at h
      exact hrest h
    · -- the first match ends the loop only if it may fail at run time
      exfalso
      have hfiltered : (fl.filtered a.map).mayNotMatch = true := hends.2
      have hl' : l' = { flags := fl.filtered a.map, tNoMatch := false, ok := true } := by
        simp only [hstep, if_neg hres, hfiltered, if_true] at h
        split at h <;> exact (Prod.mk.injEq .. ▸ h).2.symm
      rw [hl', hfiltered] at hmay
      cases hmay
    · simp only [hstep, reduceCtorEq, if_false, if_true] at h
      exact hrest h

/-- When the loop over the accept list does not end early, an unmatched specification stays
unmatched or was matched for sure. -/
theorem acceptLoop_none {l' : Loop} (htno : l.tNoMatch = true)
    (hkeeps : l.ok = false ∨ KeepsMayNotMatch env elem as r.spec)
    (h : acceptLoop env elem r as l = (none, l')) (hmay : l'.flags.mayNotMatch = false) :
    (l'.tNoMatch = true ∧ l'.ok = l.ok) ∨ ∃ a ∈ as, a.spec.Matches env elem r.spec := by
  induction as generalizing l with
  | nil =>
    simp only [acceptLoop, Prod.mk.injEq, true_and] at h
    exact .inl (h ▸ ⟨htno, rfl⟩)
  | cons a as ih =>
    obtain ⟨res, fl, heq, hcases⟩ := parseAcceptsIntern_cases env elem a r l
    have hkeeps' : l.ok = false ∨ KeepsMayNotMatch env elem as r.spec :=
      hkeeps.imp_right fun hkeeps a' ha' => hkeeps a' (by simp [ha'])
    rw [acceptLoop] at h
    obtain ⟨-, -, hstep⟩ | ⟨-, hstep⟩ | ⟨-, htno', -⟩ | ⟨hres, hends, hstep⟩ |
      ⟨hres, hends, hstep⟩ := hcases
    · simp [hstep] at h
    · simp only [hstep, reduceCtorEq, if_false, if_true] at h
      obtain hunmatched | ⟨a', ha', hm⟩ := ih (l := { l with flags := fl }) htno hkeeps' h
      · exact .inl hunmatched
      · exact .inr ⟨a', by simp [ha'], hm⟩
    · simp [htno] at htno'
    · have hfiltered : (fl.filtered a.map).mayNotMatch = true := hends.2
      simp only [hstep, if_neg hres, hfiltered, if_true] at h
      split at h <;> simp at h
    · simp only [hstep, reduceCtorEq, if_false, if_true] at h
      refine .inr ⟨a, by simp, l.flags, heq ▸ hres, ?_⟩
      rw [heq]
      by_contra hfl
      have hfl : fl.mayNotMatch = true := by simpa using hfl
      -- a match that may fail is followed by other matches only when flags are kept
      have hok : l.ok = true := hends.resolve_right (by simp [hfl])
      have hkept := acceptLoop_mayNotMatch (hkeeps'.resolve_left (by simp [hok]))
        (l := { flags := fl.filtered a.map, tNoMatch := false, ok := true }) hfl
      rw [h, hmay] at hkept
      cases hkept

theorem returnLoop_mayNotMatch {rs : List ReturnSpec}
    (hkeeps : ∀ r ∈ rs, KeepsMayNotMatch env elem as r.spec) {ok : Bool} (h : fl.mayNotMatch = true)
    (hmatch : (returnLoop env elem as rs fl ok).1 ≠ .notEqual) :
    (returnLoop env elem as rs fl ok).2.mayNotMatch = true := by
  induction rs generalizing fl ok with
  | nil =>
    simp only [returnLoop] at hmatch ⊢
    split
    · exact h
    · next hok => simp [hok] at hmatch
  | cons r rs ih =>
    have hrest := fun r' hr' => hkeeps r' (List.mem_cons_of_mem r hr')
    have hl : (acceptLoop env elem r as ⟨fl, true, ok⟩).2.flags.mayNotMatch = true :=
      acceptLoop_mayNotMatch (hkeeps r (by simp)) h
    rw [returnLoop] at hmatch ⊢
    cases heq : acceptLoop env elem r as ⟨fl, true, ok⟩ with
    | mk o l =>
      have hl : l.flags.mayNotMatch = true := by simpa only [heq] using hl
      cases o with
      | some res => exact hl
      | none =>
        simp only [heq, hl, Bool.not_true, Bool.false_eq_true, and_false, if_false] at hmatch ⊢
        exact ih hrest hl hmatch

/-- Every return specification is matched for sure when the loop over them ends so. -/
theorem returnLoop_matches {rs : List ReturnSpec} {ok : Bool}
    (hexact : ∀ r ∈ rs, r.exact = true → rs = [r])
    (hkeeps : ∀ r ∈ rs.tail, KeepsMayNotMatch env elem as r.spec)
    (hfirst : ok = false ∨ ∀ r ∈ rs, KeepsMayNotMatch env elem as r.spec)
    (hmatch : (returnLoop env elem as rs fl ok).1 ≠ .notEqual)
    (hmay : (returnLoop env elem as rs fl ok).2.mayNotMatch = false) :
    ∀ r ∈ rs, ∃ a ∈ as, a.spec.Matches env elem r.spec := by
  induction rs generalizing fl ok with
  | nil => simp
  | cons r rs ih =>
    have hkeeps' : ∀ r' ∈ rs, KeepsMayNotMatch env elem as r'.spec := hkeeps
    have hsome {fl' : Flags} {ok' : Bool}
        (hmatch : (returnLoop env elem as rs fl' ok').1 ≠ .notEqual)
        (hmay : (returnLoop env elem as rs fl' ok').2.mayNotMatch = false) :
        fl'.mayNotMatch = false := by
      by_contra hfl
      have htrue := returnLoop_mayNotMatch hkeeps' (by simpa using hfl) hmatch
      rw [hmay] at htrue
      cases htrue
    rw [returnLoop] at hmatch hmay
    cases heq : acceptLoop env elem r as ⟨fl, true, ok⟩ with
    | mk o l =>
      cases o with
      | some res =>
        -- a perfect match of the only return specification
        simp only [heq] at hmay
        obtain ⟨hr, hmatches⟩ := acceptLoop_some heq hmay
        have hrs : rs = [] := by simpa using hexact r (by simp) hr
        simpa [hrs] using hmatches
      | none =>
        simp only [heq] at hmatch hmay
        have hmatched (hmay : l.flags.mayNotMatch = false) :=
          acceptLoop_none (l := ⟨fl, true, ok⟩) rfl
            (hfirst.imp_right fun hkeeps => hkeeps r (by simp)) heq hmay
        by_cases hun : l.tNoMatch = true ∧ (!l.flags.mayNotMatch) = true
        · -- an unmatched specification leaves `may_not_match` set
          exfalso
          rw [if_pos hun] at hmatch hmay
          cases hstrict : env.strictTypes with
          | true => simp [hstrict] at hmatch
          | false =>
            simp only [hstrict, Bool.false_eq_true, if_false] at hmatch hmay
            cases hok : l.ok with
            | true => simp [hok] at hmay
            | false =>
              simp only [hok, Bool.false_eq_true, if_false] at hmatch hmay
              exact absurd (hsome hmatch hmay) (by simp)
        · rw [if_neg hun] at hmatch hmay
          have hflags := hsome hmatch hmay
          have hr : ∃ a ∈ as, a.spec.Matches env elem r.spec := by
            obtain ⟨htno, -⟩ | hr := hmatched hflags
            · exact absurd ⟨htno, by simp [hflags]⟩ hun
            · exact hr
          have hrest : ∀ r' ∈ rs, ∃ a ∈ as, a.spec.Matches env elem r'.spec := by
            refine ih (fun r' hr' hexact' => ?_) (fun r' hr' => hkeeps r' (List.mem_of_mem_tail hr'))
              (.inr hkeeps) hmatch hmay
            have := hexact r' (by simp [hr']) hexact'
            simp_all
          intro r' hr'
          obtain rfl | hr' := List.mem_cons.1 hr'
          · exact hr
          · exact hrest r' hr'

/-! ### Types -/

/-- `parseAccepts` of the element type. -/
def Ty.elemAccepts (env : ParseEnv) : Ty → Option Ty → Flags → Matched
  | complexHash vti _ => vti.parseAccepts env
  | complexList vti _ => vti.parseAccepts env
  | complexSoftList vti _ => vti.parseAccepts env
  | _ => fun _ fl => (.notEqual, fl)

theorem Ty.parseAccepts_eq (ti : Ty) :
    ti.parseAccepts env = ti.parseAcceptsWith env (ti.elemAccepts env) := by
  cases ti <;> rfl

/-- An exact return specification is the only one of its type. -/
theorem Ty.eq_singleton_of_exact (hr : r ∈ ti.returns) (h : r.exact = true) : ti.returns = [r] := by
  have hvec (specs : List TypeSpec) : r ∈ returnVec specs → returnVec specs = [r] := by
    intro hr
    rcases specs with _ | ⟨spec, _ | ⟨spec', specs⟩⟩
    · simp [returnVec] at hr
    · have : r = ⟨spec, true⟩ := by simpa [returnVec] using hr
      simp [returnVec, this]
    · obtain ⟨spec, -, rfl⟩ := List.mem_map.1 hr
      simp at h
  cases ti with
  | any | auto =>
    have : r = ⟨.type .all, false⟩ := by simpa [Ty.returns] using hr
    simp [this] at h
  | complexSoftList vti on => cases vti <;> exact hvec _ hr
  | _ =>
    simp only [Ty.returns] at hr ⊢
    exact hvec _ hr

/-- Only the first return specification of a type has an element type. -/
theorem Ty.element?_of_mem_tail (hr : r ∈ ti.returns.tail) : r.spec.element? = none := by
  have hall : ti.returns.tail.all (fun r => r.spec.element?.isNone) = true := by
    cases ti with
    | simple s on => cases s <;> cases on <;> rfl
    | hashDecl _ on | cls _ on | complexHash _ on | complexList _ on => cases on <;> rfl
    | complexSoftList vti on => cases vti <;> cases on <;> rfl
    | _ => rfl
  simpa using List.all_eq_true.1 hall r hr

/-- A known type accepts for sure only known types, all of whose return specifications it
matches. -/
theorem Ty.matches_of_parseAccepts {T S : Ty} (hT : hasType (some T) = true)
    (hsoft : ∀ a ∈ T.accepts, ∀ ti, a.spec ≠ .complexSoftList ti)
    (hmatch : (T.parseAccepts env (some S) fl).1 ≠ .notEqual)
    (hmay : (T.parseAccepts env (some S) fl).2.mayNotMatch = false) :
    hasType (some S) = true ∧
      ∀ r ∈ S.returns, ∃ a ∈ T.accepts, a.spec.Matches env (T.elemAccepts env) r.spec := by
  have hauto : T ≠ .auto := by
    rintro rfl
    simp [hasType, Ty.acceptsAll, Ty.accepts, AcceptSpec.plain, TypeSpec.getType] at hT
  have hloop {fl : Flags}
      (hmatch : (returnLoop env (T.elemAccepts env) T.accepts S.returns fl false).1 ≠ .notEqual)
      (hmay : (returnLoop env (T.elemAccepts env) T.accepts S.returns fl false).2.mayNotMatch =
        false) :
      ∀ r ∈ S.returns, ∃ a ∈ T.accepts, a.spec.Matches env (T.elemAccepts env) r.spec :=
    returnLoop_matches (fun r hr => eq_singleton_of_exact hr)
      (fun r hr a ha fl => TypeSpec.match_mayNotMatch (hsoft a ha) (element?_of_mem_tail hr))
      (.inl rfl) hmatch hmay
  rw [parseAccepts_eq, parseAcceptsWith, if_neg hauto] at hmatch hmay
  simp only [hT, Bool.not_true, Bool.false_eq_true, if_false] at hmatch hmay
  cases hS : hasType (some S) with
  | false =>
    simp only [hS, Bool.not_false, if_true] at hmatch hmay
    have hnot := mayMatch_not_sure _ hmatch
    rw [parseAcceptsWith.unknown, hnot] at hmay
    cases hmay
  | true =>
    simp only [hS, Bool.not_true, Bool.false_eq_true, if_false] at hmatch hmay
    refine ⟨rfl, ?_⟩
    split at hmatch
    · next hlen =>
      rw [if_pos hlen] at hmay
      split at hmatch
      · exact absurd rfl hmatch
      · next hstrict =>
        rw [if_neg hstrict] at hmay
        exact hloop hmatch hmay
    · next hlen =>
      rw [if_neg hlen] at hmay
      exact hloop hmatch hmay

/-! ### What a value must fit -/

/-- What a sure match says about the values that the second specification describes: their run-time
type and, for containers of a known element type, what is covered by it. -/
def TypeSpec.Fits (env : ParseEnv) : TypeSpec → TypeSpec → Prop
  | .type ut, t => ut = .all ∨ t.getType = ut
  | .hashDecl hd, t => t = .hashDecl hd
  | .complexHash ti, t =>
    t.getType = .hash ∧ (ti = .auto ∨ t = .emptyHash ∨ ∃ ti', t = .complexHash ti' ∧ ti.Covers env ti')
  | .complexList ti, t =>
    t.getType = .list ∧ (ti = .auto ∨ t = .emptyList ∨
      ∃ ti', (t = .complexList ti' ∨ t = .complexSoftList ti') ∧ ti.Covers env ti')
  | _, _ => False

theorem covers_of_matchType {ti' : Ty}
    (hmatch : (matchType env (ti.parseAccepts env) ti (some ti') fl).1 ≠ .notEqual)
    (hmay : (matchType env (ti.parseAccepts env) ti (some ti') fl).2.mayNotMatch = false) :
    ti.Covers env ti' := by
  by_cases heq : ti = ti'
  · exact .inl heq
  · refine .inr ⟨fl, ?_⟩
    have hne : ¬ some ti = some ti' := by simpa using heq
    simp only [matchType, if_neg hne] at hmatch hmay
    cases hres : ti.parseAccepts env (some ti') fl with
    | mk res fl' =>
      simp only [hres] at hmatch hmay ⊢
      split at hmatch
      · exact absurd rfl hmatch
      · next hstrict =>
        rw [if_neg hstrict] at hmay
        split at hmay
        · next hident => exact ⟨by simp [hident.1], hmay⟩
        · next hident =>
          rw [if_neg hident] at hmatch
          exact ⟨hmatch, hmay⟩

theorem fits_type_of_checkMatchType {ut : NT} (ht : t.getType ≠ .all)
    (hmatch : (checkMatchType env ut t fl).1 ≠ .notEqual) : ut = .all ∨ t.getType = ut := by
  by_cases hall : ut = .all
  · exact .inl hall
  · unfold checkMatchType at hmatch
    rw [if_neg hall, if_neg ht] at hmatch
    by_cases heq : ut = t.getType
    · exact .inr heq.symm
    · rw [if_neg heq] at hmatch
      exact absurd rfl hmatch

/-- A sure match fits. -/
theorem TypeSpec.Matches.fits {T : Ty} {spec : TypeSpec} (hspec : spec ∈ T.acceptSpecs)
    (hcls : ∀ qc, spec ≠ .cls qc) (hsoft : ∀ ti, spec ≠ .complexSoftList ti)
    (hempty : spec ≠ .emptyList ∧ spec ≠ .emptyHash) (ht : t.getType ≠ .all)
    (h : spec.Matches env (T.elemAccepts env) t) : spec.Fits env t := by
  obtain ⟨fl, hmatch, hmay⟩ := h
  have helem {ti : Ty} (hti : spec.element? = some ti) : T.elemAccepts env = ti.parseAccepts env := by
    have hown := Ty.element?_of_mem (List.mem_append_left _ hspec) hti
    cases T <;> simp only [Ty.element?, Option.some.injEq, reduceCtorEq] at hown <;> rw [← hown] <;>
      rfl
  cases spec with
  | type ut => exact fits_type_of_checkMatchType ht hmatch
  | cls qc => exact absurd rfl (hcls qc)
  | complexSoftList ti => exact absurd rfl (hsoft ti)
  | emptyList => exact absurd rfl hempty.1
  | emptyHash => exact absurd rfl hempty.2
  | hashDecl hd =>
    cases t with
    | hashDecl hd' =>
      simp only [TypeSpec.match] at hmatch
      split at hmatch
      · next heq => rw [Fits, heq]
      · exact absurd rfl hmatch
    | type nt =>
      simp only [TypeSpec.match] at hmatch hmay
      split at hmatch
      · next hnt =>
        rw [if_pos hnt, mayMatch_not_sure _ hmatch] at hmay
        cases hmay
      · exact absurd rfl hmatch
    | _ => exact absurd rfl hmatch
  | complexHash ti =>
    rw [helem rfl] at hmatch hmay
    by_cases hauto : ti = .auto
    · refine ⟨?_, .inl hauto⟩
      cases t with
      | complexHash _ | emptyHash | hashDecl _ => rfl
      | type nt =>
        simp only [TypeSpec.match, hauto, and_true] at hmatch
        split at hmatch
        · next hnt => exact hnt
        · rw [if_neg (show ¬ nt = .all from ht)] at hmatch
          exact absurd rfl hmatch
      | _ => exact absurd rfl hmatch
    · cases t with
      | complexHash ti' =>
        simp only [TypeSpec.match, if_neg hauto] at hmatch hmay
        exact ⟨rfl, .inr (.inr ⟨ti', rfl, covers_of_matchType hmatch hmay⟩)⟩
      | emptyHash => exact ⟨rfl, .inr (.inl rfl)⟩
      | type nt =>
        simp only [TypeSpec.match, hauto, and_false, if_false] at hmatch
        rw [if_neg (show ¬ nt = .all from ht)] at hmatch
        exact absurd rfl hmatch
      | hashDecl _ =>
        simp only [TypeSpec.match, if_neg hauto] at hmatch
        exact absurd rfl hmatch
      | _ => exact absurd rfl hmatch
  | complexList ti =>
    rw [helem rfl] at hmatch hmay
    simp only [TypeSpec.match, matchComplexList, matchComplexList.matchElement,
      Bool.false_eq_true, if_false] at hmatch hmay
    by_cases hauto : ti = .auto
    · refine ⟨?_, .inl hauto⟩
      cases t with
      | complexList _ | complexSoftList _ | emptyList => rfl
      | type nt =>
        cases nt with
        | list => rfl
        | all => exact absurd rfl ht
        | _ => exact absurd rfl hmatch
      | _ => exact absurd rfl hmatch
    · cases t with
      | complexList ti' =>
        simp only [if_neg hauto] at hmatch hmay
        exact ⟨rfl, .inr (.inr ⟨ti', .inl rfl, covers_of_matchType hmatch hmay⟩)⟩
      | complexSoftList ti' =>
        simp only [if_neg hauto] at hmatch hmay
        exact ⟨rfl, .inr (.inr ⟨ti', .inr rfl, covers_of_matchType hmatch hmay⟩)⟩
      | emptyList => exact ⟨rfl, .inr (.inl rfl)⟩
      | type nt =>
        cases nt with
        | list => simp [hauto] at hmatch
        | all => exact absurd rfl ht
        | _ => exact absurd rfl hmatch
      | _ => exact absurd rfl hmatch

end

end Qore.Types
