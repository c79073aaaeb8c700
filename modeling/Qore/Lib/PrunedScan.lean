import Mathlib

/-!
# `Qore.Lib.PrunedScan`: a search for the best element that prunes

A scan over a list keeps the best candidate found so far. Before an element is rated it is compared
with the rank of that candidate, and skipped when it does not look good enough. An element is hidden
when a candidate in front of it, not hidden itself, makes the scan skip it; the scan returns the
best of the others.

* `scan_spec`: the result is the best candidate that is not hidden.
* `isBest_scan_iff`: the result is the best of all candidates exactly when one of these is not
  hidden.
* `scan_orders_iff`: a best candidate is found in every order exactly when some best one is hidden by
  no other candidate.
-/

set_option autoImplicit false

namespace Qore.Lib

variable {α ρ : Type} [LinearOrder ρ] (rank : α → Option ρ) (skip : α → ρ → Bool) {a : α} {r : ρ}
  {as : List α}

/-- One step of the scan, from the best candidate so far. -/
def scanStep (best : Option (α × ρ)) (a : α) : Option (α × ρ) :=
  match best with
  | none => (rank a).map fun q => (a, q)
  | some (b, r) =>
    if skip a r then some (b, r)
    else
      match rank a with
      | none => some (b, r)
      | some q => if r < q then some (a, q) else some (b, r)

/-- The scan. -/
def scan (as : List α) : Option (α × ρ) := as.foldl (scanStep rank skip) none

/-- A candidate makes the scan skip an element. -/
def hides (u a : α) : Bool := (rank u).any fun q => skip a q

/-- The elements that are not hidden by one in front of them that is not hidden itself. -/
def unhidden (as : List α) : List α :=
  as.foldl (fun us a => if us.any fun u => hides rank skip u a then us else us ++ [a]) []

/-- A candidate of the list with the highest rank. -/
def IsBest (as : List α) (b : α) : Prop :=
  b ∈ as ∧ ∃ r, rank b = some r ∧ ∀ a ∈ as, ∀ q, rank a = some q → q ≤ r

/-- What the scan has found: nothing, or the best one of the elements. -/
def Found (us : List α) : Option (α × ρ) → Prop
  | none => ∀ u ∈ us, rank u = none
  | some (b, r) => b ∈ us ∧ rank b = some r ∧ ∀ u ∈ us, ∀ q, rank u = some q → q ≤ r

theorem scanStep_of_none (h : rank a = none) (best : Option (α × ρ)) :
    scanStep rank skip best a = best := by
  cases best with
  | none => simp [scanStep, h]
  | some best => simp [scanStep, h]

theorem scanStep_skip {b : α} (hskip : skip a r = true) :
    scanStep rank skip (some (b, r)) a = some (b, r) := by
  simp [scanStep, hskip]

theorem scanStep_take {b : α} {q : ρ} (hskip : skip a r = false) (hq : rank a = some q)
    (hlt : r < q) : scanStep rank skip (some (b, r)) a = some (a, q) := by
  simp [scanStep, hskip, hq, hlt]

theorem scanStep_keep {q : ρ} (hq : rank a = some q) (hle : ¬r < q) (b : α) :
    scanStep rank skip (some (b, r)) a = some (b, r) := by
  simp [scanStep, hq, hle]

/-- A candidate with the highest rank of all stays the best one. -/
theorem foldl_scanStep_of_top (htop : ∀ a q, rank a = some q → q ≤ r) (b : α) (as : List α) :
    as.foldl (scanStep rank skip) (some (b, r)) = some (b, r) := by
  induction as with
  | nil => rfl
  | cons a as ih =>
    have hstep : scanStep rank skip (some (b, r)) a = some (b, r) := by
      cases hq : rank a with
      | none => exact scanStep_of_none rank skip hq _
      | some q => exact scanStep_keep rank skip hq (htop a q hq).not_gt b
    rw [List.foldl_cons, hstep, ih]

omit [LinearOrder ρ] in
theorem unhidden_concat (as : List α) (a : α) :
    unhidden rank skip (as ++ [a]) =
      if (unhidden rank skip as).any fun u => hides rank skip u a then unhidden rank skip as
      else unhidden rank skip as ++ [a] := by
  simp [unhidden]

theorem scan_concat (as : List α) (a : α) :
    scan rank skip (as ++ [a]) = scanStep rank skip (scan rank skip as) a := by
  simp [scan]

omit [LinearOrder ρ] in
theorem mem_of_unhidden (h : a ∈ unhidden rank skip as) : a ∈ as := by
  induction as using List.reverseRecOn with
  | nil => exact h
  | append_singleton as b ih =>
    rw [unhidden_concat] at h
    split at h
    · exact List.mem_append_left _ (ih h)
    · obtain h | h := List.mem_append.1 h
      · exact List.mem_append_left _ (ih h)
      · exact List.mem_append_right _ h

omit [LinearOrder ρ] in
/-- An element is hidden by one that is not hidden itself. -/
theorem unhidden_or (ha : a ∈ as) :
    a ∈ unhidden rank skip as ∨ ∃ u ∈ unhidden rank skip as, hides rank skip u a = true := by
  induction as using List.reverseRecOn with
  | nil => cases ha
  | append_singleton as b ih =>
    rw [unhidden_concat]
    split
    · next hany =>
      obtain hmem | hb := List.mem_append.1 ha
      · exact ih hmem
      · obtain rfl : a = b := by simpa using hb
        exact Or.inr (List.any_eq_true.1 hany)
    · obtain hmem | hb := List.mem_append.1 ha
      · exact (ih hmem).imp (List.mem_append_left _) fun ⟨u, hu, hhides⟩ =>
          ⟨u, List.mem_append_left _ hu, hhides⟩
      · exact Or.inl (List.mem_append_right _ hb)

omit [LinearOrder ρ] in
/-- An element that nothing in the list hides is not hidden. -/
theorem mem_unhidden (ha : a ∈ as) (h : ∀ u ∈ as, u ≠ a → hides rank skip u a = false) :
    a ∈ unhidden rank skip as := by
  obtain hfree | ⟨u, hu, hhides⟩ := unhidden_or rank skip ha
  · exact hfree
  · by_contra hnot
    rw [h u (mem_of_unhidden rank skip hu) fun heq => hnot (heq ▸ hu)] at hhides
    cases hhides

omit [LinearOrder ρ] in
theorem head_mem_unhidden (u : α) (as : List α) : u ∈ unhidden rank skip (u :: as) := by
  induction as using List.reverseRecOn with
  | nil => simp [unhidden]
  | append_singleton as c ih =>
    rw [← List.cons_append, unhidden_concat]
    split
    · exact ih
    · exact List.mem_append_left _ ih

omit [LinearOrder ρ] in
/-- What the first element of the list hides is not found. -/
theorem hides_head_of_unhidden {u : α} (h : a ∈ unhidden rank skip (u :: as)) :
    a = u ∨ hides rank skip u a = false := by
  induction as using List.reverseRecOn with
  | nil => exact Or.inl (by simpa [unhidden] using h)
  | append_singleton as b ih =>
    rw [← List.cons_append, unhidden_concat] at h
    split at h
    · exact ih h
    · next hany =>
      obtain h | h := List.mem_append.1 h
      · exact ih h
      · obtain rfl : a = b := by simpa using h
        rw [List.any_eq_true] at hany
        exact Or.inr (Bool.eq_false_iff.2 fun hhides =>
          hany ⟨u, head_mem_unhidden rank skip u as, hhides⟩)

/-- Nothing is found exactly when there is no candidate. -/
theorem scan_eq_none_iff (as : List α) :
    scan rank skip as = none ↔ ∀ a ∈ as, rank a = none := by
  induction as using List.reverseRecOn with
  | nil => simp [scan]
  | append_singleton as a ih =>
    rw [scan_concat]
    cases hscan : scan rank skip as with
    | none =>
      have hnone : ∀ b ∈ as, rank b = none := ih.1 hscan
      simpa [scanStep, or_imp, forall_and] using fun _ => hnone
    | some best =>
      have hsome : ¬ ∀ a ∈ as, rank a = none := fun h => by simp [ih.2 h] at hscan
      constructor
      · intro h
        simp only [scanStep] at h
        split at h
        · cases h
        · split at h
          · cases h
          · split at h <;> cases h
      · intro h
        exact absurd (fun a ha => h a (List.mem_append_left _ ha)) hsome

section
-- An element that is skipped for a candidate is skipped for a better one.
variable (hmono : ∀ a r q, skip a r = true → r ≤ q → skip a q = true) {as : List α}
include hmono

/-- The scan skips an element exactly when it is hidden. -/
theorem skip_iff_hidden {us : List α} {b : α} {r : ρ} (h : Found rank us (some (b, r))) (a : α) :
    skip a r = true ↔ (us.any fun u => hides rank skip u a) = true := by
  obtain ⟨hb, hr, hmax⟩ := h
  rw [List.any_eq_true]
  constructor
  · intro hskip
    exact ⟨b, hb, by simpa [hides, hr] using hskip⟩
  · rintro ⟨u, hu, hhides⟩
    cases hq : rank u with
    | none => simp [hides, hq] at hhides
    | some q => exact hmono a q r (by simpa [hides, hq] using hhides) (hmax u hu q hq)

/-- The scan finds the best element that is not hidden. -/
theorem scan_spec (as : List α) : Found rank (unhidden rank skip as) (scan rank skip as) := by
  induction as using List.reverseRecOn with
  | nil => simp [scan, unhidden, Found]
  | append_singleton as a ih =>
    rw [scan_concat, unhidden_concat]
    cases hscan : scan rank skip as with
    | none =>
      rw [hscan] at ih
      have hnone : ((unhidden rank skip as).any fun u => hides rank skip u a) = false := by
        simp only [List.any_eq_false, hides]
        intro u hu
        simp [ih u hu]
      rw [hnone]
      cases hq : rank a with
      | none =>
        simpa [scanStep, hq, Found, or_imp, forall_and] using ih
      | some q =>
        simp only [scanStep, hq, Option.map_some, Bool.false_eq_true, if_false]
        refine ⟨by simp, hq, fun u hu q' hq' => ?_⟩
        obtain hu | hu := List.mem_append.1 hu
        · rw [ih u hu] at hq'
          cases hq'
        · obtain rfl : u = a := by simpa using hu
          rw [hq] at hq'
          exact (Option.some.inj hq').ge
    | some best =>
      obtain ⟨b, r⟩ := best
      rw [hscan] at ih
      have hskip := skip_iff_hidden rank skip hmono ih a
      by_cases hs : skip a r = true
      · rw [if_pos (hskip.1 hs)]
        simpa [scanStep, hs] using ih
      · rw [if_neg fun hany => hs (hskip.2 hany)]
        obtain ⟨hb, hr, hmax⟩ := ih
        cases hq : rank a with
        | none =>
          simp only [scanStep, if_neg hs, hq]
          refine ⟨List.mem_append_left _ hb, hr, fun u hu q' hq' => ?_⟩
          obtain hu | hu := List.mem_append.1 hu
          · exact hmax u hu q' hq'
          · obtain rfl : u = a := by simpa using hu
            rw [hq] at hq'
            cases hq'
        | some q =>
          have hlast {r' : ρ} (hle : r ≤ r') (hqle : q ≤ r') :
              ∀ u ∈ unhidden rank skip as ++ [a], ∀ q', rank u = some q' → q' ≤ r' := by
            intro u hu q' hq'
            obtain hu | hu := List.mem_append.1 hu
            · exact (hmax u hu q' hq').trans hle
            · obtain rfl : u = a := by simpa using hu
              rw [hq] at hq'
              exact (Option.some.inj hq').ge.trans hqle
          simp only [scanStep, if_neg hs, hq]
          split
          · next hlt => exact ⟨by simp, hq, hlast hlt.le le_rfl⟩
          · next hnlt => exact ⟨List.mem_append_left _ hb, hr, hlast le_rfl (not_lt.1 hnlt)⟩

omit hmono in
/-- A list with a candidate has a best one. -/
theorem exists_isBest {a : α} {q : ρ} (ha : a ∈ as) (hq : rank a = some q) :
    ∃ b, IsBest rank as b := by
  let never : α → ρ → Bool := fun _ _ => false
  have hspec := scan_spec rank never (fun _ _ _ h _ => h) as
  cases hscan : scan rank never as with
  | none =>
    rw [(scan_eq_none_iff rank never as).1 hscan a ha] at hq
    cases hq
  | some found =>
    obtain ⟨b, r⟩ := found
    rw [hscan] at hspec
    obtain ⟨hb, hr, hmax⟩ := hspec
    have hfree {u c : α} : hides rank never u c = false := by
      cases h : rank u <;> simp [hides, h, never]
    exact ⟨b, mem_of_unhidden rank never hb, r, hr, fun c hc =>
      hmax c (mem_unhidden rank never hc fun _ _ _ => hfree)⟩

/-- The scan finds the best candidate exactly when one of the best is not hidden. -/
theorem isBest_scan_iff {b : α} {r : ρ} (h : scan rank skip as = some (b, r)) :
    IsBest rank as b ↔ ∃ u ∈ unhidden rank skip as, IsBest rank as u := by
  have hfound := scan_spec rank skip hmono as
  rw [h] at hfound
  obtain ⟨hb, hr, hmax⟩ := hfound
  constructor
  · exact fun hbest => ⟨b, hb, hbest⟩
  · rintro ⟨u, hu, -, q, hq, hall⟩
    refine ⟨mem_of_unhidden rank skip hb, r, hr, fun a ha q' hq' => ?_⟩
    exact (hall a ha q' hq').trans (hmax u hu q hq)

omit hmono in
theorem IsBest.perm {as' : List α} {b : α} (hperm : as'.Perm as) (h : IsBest rank as b) :
    IsBest rank as' b := by
  obtain ⟨hmem, r, hr, hmax⟩ := h
  exact ⟨hperm.mem_iff.2 hmem, r, hr, fun a ha => hmax a (hperm.mem_iff.1 ha)⟩

omit hmono in
/-- A best candidate that only the best ones hide is not hidden, or one of these is not. -/
theorem exists_unhidden_isBest {b : α} (hbest : IsBest rank as b)
    (hfree : ∀ u ∈ as, ¬IsBest rank as u → hides rank skip u b = false) :
    ∃ u ∈ unhidden rank skip as, IsBest rank as u := by
  obtain hb | ⟨u, hu, hhides⟩ := unhidden_or rank skip hbest.1
  · exact ⟨b, hb, hbest⟩
  · refine ⟨u, hu, by_contra fun hnot => ?_⟩
    rw [hfree u (mem_of_unhidden rank skip hu) hnot] at hhides
    cases hhides

/-- A best candidate is found in every order exactly when some best one is hidden by no other
candidate. -/
theorem scan_orders_iff {a : α} {q : ρ} (ha : a ∈ as) (hq : rank a = some q) :
    (∀ as', as'.Perm as → ∀ b r, scan rank skip as' = some (b, r) → IsBest rank as b) ↔
      ∃ b, IsBest rank as b ∧ ∀ u ∈ as, ¬IsBest rank as u → hides rank skip u b = false := by
  classical
  constructor
  · intro h
    obtain ⟨c, hc⟩ := exists_isBest rank ha hq
    by_cases hother : ∃ u ∈ as, ¬IsBest rank as u ∧ ∃ q, rank u = some q
    · -- the best one of the other candidates stands in front
      let others : α → Option ρ := fun u => if IsBest rank as u then none else rank u
      obtain ⟨u, hu, hnot, q, hq⟩ := hother
      have hcand : others u = some q := by simp [others, hnot, hq]
      obtain ⟨u, hu, r, hr, hmax⟩ := exists_isBest others hu hcand
      have hnot : ¬IsBest rank as u := fun hbest => by simp [others, hbest] at hr
      have hur : rank u = some r := by simpa [others, hnot] using hr
      have hperm : (u :: as.erase u).Perm as := (List.perm_cons_erase hu).symm
      cases hscan : scan rank skip (u :: as.erase u) with
      | none =>
        rw [(scan_eq_none_iff rank skip _).1 hscan u List.mem_cons_self] at hur
        cases hur
      | some found =>
        obtain ⟨b, s⟩ := found
        have hb := h _ hperm b s hscan
        have hfound := scan_spec rank skip hmono (u :: as.erase u)
        rw [hscan] at hfound
        refine ⟨b, hb, fun v hv hvnot => ?_⟩
        obtain rfl | hfree := hides_head_of_unhidden rank skip hfound.1
        · exact absurd hb hnot
        rw [Bool.eq_false_iff]
        intro hhides
        obtain ⟨p, hp, hskip⟩ : ∃ p, rank v = some p ∧ skip b p = true := by
          simpa [hides, Option.any_eq_true] using hhides
        have hle : p ≤ r := hmax v hv p (by simp [others, hvnot, hp])
        simp [hides, hur, hmono b p r hskip hle] at hfree
    · refine ⟨c, hc, fun u hu hnot => ?_⟩
      have hnone : rank u = none := Option.eq_none_iff_forall_ne_some.2 fun q hq =>
        hother ⟨u, hu, hnot, q, hq⟩
      simp [hides, hnone]
  · rintro ⟨b, hb, hfree⟩ as' hperm c r hscan
    have hfree' : ∀ u ∈ as', ¬IsBest rank as' u → hides rank skip u b = false := fun u hu hnot =>
      hfree u (hperm.mem_iff.1 hu) fun hbest => hnot (hbest.perm rank hperm)
    have hc := (isBest_scan_iff rank skip hmono hscan).2
      (exists_unhidden_isBest rank skip (hb.perm rank hperm) hfree')
    exact hc.perm rank hperm.symm

/-- A single best candidate is found in every order exactly when no other one hides it. -/
theorem scan_perm_iff {b : α} (hbest : IsBest rank as b) (hunique : ∀ a, IsBest rank as a → a = b) :
    (∀ as', as'.Perm as → (scan rank skip as').map Prod.fst = some b) ↔
      ∀ u ∈ as, u ≠ b → hides rank skip u b = false := by
  obtain ⟨hmem, q, hq, -⟩ := id hbest
  have horders := scan_orders_iff rank skip hmono hmem hq
  constructor
  · intro h u hu hne
    obtain ⟨c, hc, hfree⟩ := horders.1 fun as' hperm c r hscan => by
      have hcb : some c = some b := by simpa [hscan] using h as' hperm
      exact Option.some.inj hcb ▸ hbest
    exact hunique c hc ▸ hfree u hu fun hu => hne (hunique u hu)
  · intro h as' hperm
    have hfound := horders.2
      ⟨b, hbest, fun u hu hnot => h u hu fun heq => hnot (heq ▸ hbest)⟩ as' hperm
    cases hscan : scan rank skip as' with
    | none =>
      rw [(scan_eq_none_iff rank skip as').1 hscan b (hperm.mem_iff.2 hmem)] at hq
      cases hq
    | some found => exact congrArg some (hunique _ (hfound _ _ hscan))

end

end Qore.Lib
