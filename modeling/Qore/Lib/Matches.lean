import Mathlib.Data.List.Basic
import Mathlib.Data.List.Infix
import Qore.Lib.Words

/-!
# `Qore.Lib.Matches`: where a text occurs in another

`firstMatch` and `lastIdx` search a text forwards and backwards; `IsLast` says what the second
finds.

When characters are spelled with words, and the first letter of a word shows that a word begins
there (`Sync`), a text occurs in another exactly where its characters occur:

* `spell_isPrefix_iff`: at the beginning of a character.
* `not_match_inside`: nothing occurs inside a character.
* `firstMatch_spell`: the first occurrence is the same.
* `exists_of_match`: every occurrence is at the beginning of a character.
-/

set_option autoImplicit false

namespace Qore.Lib.Matches

open Qore.Lib.Words

/-- The last position up to `n` where `p` holds. -/
def lastIdx (p : Nat → Prop) [DecidablePred p] : Nat → Option Nat
  | 0 => if p 0 then some 0 else none
  | n + 1 => if p (n + 1) then some (n + 1) else lastIdx p n

section
variable {α : Type*} [DecidableEq α]

/-- The first position where `little` occurs in `big`. -/
def firstMatch (big little : List α) : Option Nat :=
  match big with
  | [] => if little = [] then some 0 else none
  | x :: big => if little <+: x :: big then some 0 else (firstMatch big little).map (· + 1)

theorem firstMatch_cons (x : α) (big little : List α) :
    firstMatch (x :: big) little =
      if little <+: x :: big then some 0 else (firstMatch big little).map (· + 1) := by
  rw [firstMatch]

theorem firstMatch_eq_none_iff (big little : List α) :
    firstMatch big little = none ↔ ∀ i, ¬ little <+: big.drop i := by
  induction big with
  | nil =>
    cases little with
    | nil => simp [firstMatch]
    | cons y little => simp [firstMatch]
  | cons x big ih =>
    rw [firstMatch_cons]
    by_cases h : little <+: x :: big
    · rw [if_pos h]
      constructor
      · intro hnone
        cases hnone
      · intro hall
        exact absurd h (hall 0)
    · rw [if_neg h, Option.map_eq_none_iff, ih]
      constructor
      · intro hall i
        cases i with
        | zero => exact h
        | succ i => exact hall i
      · intro hall i
        exact hall (i + 1)

theorem firstMatch_le {big little : List α} {i : Nat} (h : firstMatch big little = some i) :
    i ≤ big.length := by
  induction big generalizing i with
  | nil =>
    rw [firstMatch] at h
    split at h
    · have := Option.some.inj h
      omega
    · cases h
  | cons x big ih =>
    rw [firstMatch_cons] at h
    split at h
    · have := Option.some.inj h
      omega
    · obtain ⟨j, hj, rfl⟩ := Option.map_eq_some_iff.mp h
      have := ih hj
      rw [List.length_cons]
      omega

/-- Nothing occurs before the rest `r` of the text. -/
theorem firstMatch_append (w r little : List α)
    (h : ∀ k, k < w.length → ¬ little <+: (w ++ r).drop k) :
    firstMatch (w ++ r) little = (firstMatch r little).map (· + w.length) := by
  induction w with
  | nil => simp
  | cons x w ih =>
    have hfirst : ¬ little <+: x :: (w ++ r) := h 0 (by simp)
    have hrest := ih fun k hk => h (k + 1) (by simpa using hk)
    rw [List.cons_append, firstMatch_cons, if_neg hfirst, hrest, Option.map_map]
    rfl

end

/-! ## The last position -/

/-- The last position where `p` holds. -/
def IsLast (p : Nat → Prop) : Option Nat → Prop
  | none => ∀ i, ¬ p i
  | some i => p i ∧ ∀ j, i < j → ¬ p j

theorem IsLast.unique {p : Nat → Prop} {r r' : Option Nat} (h : IsLast p r) (h' : IsLast p r') :
    r = r' := by
  cases r with
  | none =>
    cases r' with
    | none => rfl
    | some j => exact absurd h'.1 (h j)
  | some i =>
    cases r' with
    | none => exact absurd h.1 (h' i)
    | some j =>
      rcases Nat.lt_trichotomy i j with hlt | rfl | hgt
      · exact absurd h'.1 (h.2 j hlt)
      · rfl
      · exact absurd h.1 (h'.2 i hgt)

theorem lastIdx_isLast (p : Nat → Prop) [DecidablePred p] (n : Nat) :
    IsLast (fun i => i ≤ n ∧ p i) (lastIdx p n) := by
  induction n with
  | zero =>
    by_cases h : p 0
    · rw [lastIdx, if_pos h]
      exact ⟨⟨Nat.le_refl _, h⟩, fun j hj hp => by omega⟩
    · rw [lastIdx, if_neg h]
      rintro i ⟨hi, hp⟩
      have : i = 0 := by omega
      exact h (this ▸ hp)
  | succ n ih =>
    by_cases h : p (n + 1)
    · rw [lastIdx, if_pos h]
      exact ⟨⟨Nat.le_refl _, h⟩, fun j hj hp => by omega⟩
    · -- the position `n + 1` does not count
      have hcong : ∀ i, (i ≤ n ∧ p i) ↔ (i ≤ n + 1 ∧ p i) := by
        intro i
        constructor
        · exact fun hi => ⟨by omega, hi.2⟩
        · rintro ⟨hi, hp⟩
          have hne : i ≠ n + 1 := by
            rintro rfl
            exact h hp
          exact ⟨by omega, hp⟩
      rw [lastIdx, if_neg h]
      simpa only [hcong] using ih

/-! ## Characters that are spelled with words -/

variable {β γ : Type*} {next : List β → Int} {enc : γ → List β} {first : β → Prop} {ns : List γ}

/-- The words are found, they are different for different characters, and their first letters are
the letters that are `first`. -/
structure Sync (next : List β → Int) (enc : γ → List β) (first : β → Prop) : Prop where
  scans : ∀ c, Scans next (enc c)
  inj : Function.Injective enc
  first_iff : ∀ c i x, (enc c)[i]? = some x → (first x ↔ i = 0)

/-- At the beginning of a character, the words of the characters occur where the characters do. -/
theorem spell_isPrefix_iff (h : Sync next enc first) (ns ds : List γ) :
    spell enc ns <+: spell enc ds ↔ ns <+: ds := by
  induction ns generalizing ds with
  | nil => simp
  | cons n ns ih =>
    cases ds with
    | nil =>
      constructor
      · intro hpre
        have hnil : spell enc (n :: ns) = [] := List.prefix_nil.mp hpre
        exact absurd ((spell_eq_nil_iff h.scans _).mp hnil) (List.cons_ne_nil n ns)
      · intro hpre
        exact absurd (List.prefix_nil.mp hpre) (List.cons_ne_nil n ns)
    | cons d ds =>
      rw [List.cons_prefix_cons, ← ih ds, spell_cons, spell_cons]
      constructor
      · rintro ⟨t, ht⟩
        -- both first words are the first word of the text
        have hn := (h.scans n).next_append (spell enc ns ++ t)
        have hd := (h.scans d).next_append (spell enc ds)
        rw [← List.append_assoc, ht, hd] at hn
        have hlen : (enc n).length = (enc d).length := by exact_mod_cast hn.symm
        rw [List.append_assoc] at ht
        obtain ⟨hword, hrest⟩ := List.append_inj ht hlen
        exact ⟨h.inj hword, t, hrest⟩
      · rintro ⟨rfl, hpre⟩
        exact (List.prefix_append_right_inj _).mpr hpre

/-- The first letter of a text that is not empty. -/
theorem first_of_isPrefix (h : Sync next enc first) (hns : ns ≠ []) {t : List β}
    (hpre : spell enc ns <+: t) : ∃ x r, t = x :: r ∧ first x := by
  cases ns with
  | nil => exact absurd rfl hns
  | cons n ns =>
    have hpos := (h.scans n).pos
    cases hn : enc n with
    | nil => simp [hn] at hpos
    | cons x w =>
      obtain ⟨r, hr⟩ := hpre
      rw [spell_cons, hn] at hr
      refine ⟨x, _, hr.symm, (h.first_iff n 0 x ?_).mpr rfl⟩
      rw [hn]
      rfl

/-- Nothing occurs inside a character. -/
theorem not_match_inside (h : Sync next enc first) (hns : ns ≠ []) (c : γ) (r : List β) {k : Nat}
    (hk0 : 0 < k) (hk : k < (enc c).length) :
    ¬ spell enc ns <+: (enc c ++ r).drop k := by
  intro hpre
  obtain ⟨x, t, ht, hx⟩ := first_of_isPrefix h hns hpre
  have hget : (enc c)[k]? = some x := by
    have hhead : ((enc c ++ r).drop k)[0]? = some x := by rw [ht]; rfl
    rw [List.getElem?_drop, Nat.add_zero, List.getElem?_append_left hk] at hhead
    exact hhead
  have := (h.first_iff c k x hget).mp hx
  omega

/-- The first occurrence is at the same character. -/
theorem firstMatch_spell [DecidableEq β] [DecidableEq γ] (h : Sync next enc first) (hns : ns ≠ [])
    (hs : List γ) :
    firstMatch (spell enc hs) (spell enc ns) =
      (firstMatch hs ns).map fun i => (spell enc (hs.take i)).length := by
  induction hs with
  | nil =>
    have hne : spell enc ns ≠ [] := mt (spell_eq_nil_iff h.scans ns).mp hns
    simp [firstMatch, hns, hne]
  | cons c hs ih =>
    have hbegin : spell enc ns <+: spell enc (c :: hs) ↔ ns <+: c :: hs :=
      spell_isPrefix_iff h ns (c :: hs)
    by_cases hpre : ns <+: c :: hs
    · -- it occurs at this character
      have hpos := (h.scans c).pos
      rw [firstMatch_cons c, if_pos hpre]
      cases hc : enc c with
      | nil => simp [hc] at hpos
      | cons x w =>
        rw [spell_cons, hc] at hbegin ⊢
        rw [List.cons_append, firstMatch_cons, if_pos (by simpa using hbegin.mpr hpre)]
        rfl
    · rw [firstMatch_cons c, if_neg hpre, spell_cons, firstMatch_append, ih,
        Option.map_map, Option.map_map]
      · congr 1
        funext i
        simp only [Function.comp, List.take_succ_cons, spell_cons, List.length_append]
        omega
      · intro k hk hmatch
        rcases Nat.eq_zero_or_pos k with rfl | hpos
        · exact hpre (hbegin.mp hmatch)
        · exact not_match_inside h hns c (spell enc hs) hpos hk hmatch

/-- Every occurrence begins at a character. -/
theorem exists_of_match (h : Sync next enc first) (hns : ns ≠ []) (hs : List γ) (b : Nat)
    (hmatch : spell enc ns <+: (spell enc hs).drop b) :
    ∃ i, b = (spell enc (hs.take i)).length ∧ ns <+: hs.drop i ∧ i + ns.length ≤ hs.length := by
  induction hs generalizing b with
  | nil =>
    rw [spell_nil, List.drop_nil] at hmatch
    exact absurd ((spell_eq_nil_iff h.scans ns).mp (List.prefix_nil.mp hmatch)) hns
  | cons c hs ih =>
    rcases Nat.eq_zero_or_pos b with rfl | hpos
    · have hpre := (spell_isPrefix_iff h ns (c :: hs)).mp hmatch
      exact ⟨0, rfl, hpre, by simpa using hpre.length_le⟩
    · by_cases hlt : b < (enc c).length
      · exact absurd hmatch (not_match_inside h hns c (spell enc hs) hpos hlt)
      · rw [spell_cons, List.drop_append, List.drop_eq_nil_of_le (by omega), List.nil_append] at hmatch
        obtain ⟨i, hi, hpre, hle⟩ := ih _ hmatch
        refine ⟨i + 1, ?_, hpre, by rw [List.length_cons]; omega⟩
        rw [List.take_succ_cons, spell_cons, List.length_append]
        omega

end Qore.Lib.Matches
