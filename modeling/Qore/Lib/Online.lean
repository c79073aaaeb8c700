import Mathlib.Data.List.Basic
import Mathlib.Data.List.Infix
import Mathlib.Logic.Relation

/-!
# `Qore.Lib.Online`: a text that is looked for in a stream

A matcher reads a stream letter by letter and keeps the number of letters of the text `pat` that it
has matched last.

* `Matched pat read j`: `j` is the length of the longest beginning of `pat`, shorter than `pat`, that
  ends what was read. A matcher with this number misses no occurrence: `Matched.full`,
  `Matched.next` and `Matched.miss` say what the next letter does.
* `Restart pat text a`: a matcher that after a wrong letter begins again behind it begins at `a`. It
  finds the first occurrence if and only if it begins there: `Attempt.found_iff`, `Attempt.end_iff`.
-/

set_option autoImplicit false

namespace Qore.Lib.Online

variable {α : Type*} {pat read : List α} {text : List α} {a b : Nat}

/-! ## Occurrences -/

/-- Every occurrence of `pat` stands at the end of the text. -/
def OnlyAtEnd (pat text : List α) : Prop := ∀ before after, text = before ++ pat ++ after → after = []

/-- A new letter completes at most the occurrence that it ends. -/
theorem onlyAtEnd_snoc (h : ¬pat <:+: read) (c : α) : OnlyAtEnd pat (read ++ [c]) := by
  intro before after heq
  rcases List.eq_nil_or_concat after with rfl | ⟨init, d, rfl⟩
  · rfl
  · rw [List.concat_eq_append, ← List.append_assoc] at heq
    obtain ⟨hread, -⟩ := List.append_inj' heq rfl
    exact absurd ⟨before, init, hread.symm⟩ h

theorem onlyAtEnd_of_not_infix (h : ¬pat <:+: read) : OnlyAtEnd pat read :=
  fun before after heq => absurd ⟨before, after, heq.symm⟩ h

/-- A text with an occurrence has a first one. -/
theorem exists_first (h : pat <:+: text) :
    ∃ before after, text = before ++ pat ++ after ∧ OnlyAtEnd pat (before ++ pat) := by
  induction text using List.reverseRecOn with
  | nil =>
    obtain rfl := List.infix_nil.mp h
    exact ⟨[], [], rfl, fun _ after heq => (List.append_eq_nil_iff.mp heq.symm).2⟩
  | append_singleton init c ih =>
    by_cases hinit : pat <:+: init
    · obtain ⟨before, after, rfl, honly⟩ := ih hinit
      exact ⟨before, after ++ [c], List.append_assoc .., honly⟩
    · have honly := onlyAtEnd_snoc hinit c
      obtain ⟨before, after, heq⟩ := h
      obtain rfl := honly before after heq.symm
      rw [List.append_nil] at heq
      exact ⟨before, [], by rw [heq, List.append_nil], heq ▸ honly⟩

/-- There is at most one first occurrence. -/
theorem onlyAtEnd_unique {before before' after after' : List α} (h : OnlyAtEnd pat (before ++ pat))
    (h' : OnlyAtEnd pat (before' ++ pat))
    (heq : before ++ pat ++ after = before' ++ pat ++ after') : before = before' := by
  have hpre : before ++ pat <+: before' ++ pat ++ after' := heq ▸ List.prefix_append _ _
  obtain ⟨t, ht⟩ | ⟨t, ht⟩ := List.prefix_or_prefix_of_prefix hpre (List.prefix_append _ _)
  · obtain rfl := h' before t ht.symm
    rw [List.append_nil] at ht
    exact List.append_cancel_right ht
  · obtain rfl := h before' t ht.symm
    rw [List.append_nil] at ht
    exact (List.append_cancel_right ht).symm

/-- A beginning of `pat` that ends a text is longer by the last letter. -/
theorem take_succ_suffix_iff {i : Nat} (hi : i < pat.length) (c : α) :
    pat.take (i + 1) <:+ read ++ [c] ↔ pat.take i <:+ read ∧ pat[i]? = some c := by
  rw [List.take_add_one, List.getElem?_eq_getElem hi, Option.toList_some]
  constructor
  · rintro ⟨t, ht⟩
    rw [← List.append_assoc] at ht
    obtain ⟨hread, hc⟩ := List.append_inj' ht rfl
    exact ⟨⟨t, hread⟩, congrArg some (List.cons.inj hc).1⟩
  · rintro ⟨⟨t, rfl⟩, hc⟩
    rw [Option.some.inj hc, List.append_assoc]
    exact List.suffix_append _ _

/-- The same for all of `pat`. -/
theorem suffix_snoc_iff {i : Nat} (hi : i + 1 = pat.length) (c : α) :
    pat <:+ read ++ [c] ↔ pat.take i <:+ read ∧ pat[i]? = some c := by
  rw [← take_succ_suffix_iff (by omega), hi, List.take_length]

/-! ## The longest beginning -/

/-- The longest beginning of `pat`, shorter than `pat`, that ends what was read. -/
structure Matched (pat read : List α) (j : Nat) : Prop where
  lt : j < pat.length
  suffix : pat.take j <:+ read
  longest : ∀ i, i < pat.length → pat.take i <:+ read → i ≤ j

namespace Matched

variable {j : Nat} {c : α}

/-- Nothing was read. -/
theorem nil (hpat : pat ≠ []) : Matched pat [] 0 where
  lt := List.length_pos_iff.mpr hpat
  suffix := List.suffix_rfl
  longest := by
    intro i hi hsuffix
    have hlen := hsuffix.length_le
    rw [List.length_take, List.length_nil] at hlen
    omega

/-- The last letter of `pat`. -/
theorem full (h : Matched pat read j) (hc : pat[j]? = some c) (hj : j + 1 = pat.length) :
    pat <:+ read ++ [c] :=
  (suffix_snoc_iff hj c).mpr ⟨h.suffix, hc⟩

/-- An occurrence ends only with the last letter of `pat`. -/
theorem not_full (h : Matched pat read j) (hc : pat[j]? = some c → j + 1 ≠ pat.length) :
    ¬pat <:+ read ++ [c] := by
  intro hsuffix
  obtain ⟨n, hn⟩ : ∃ n, n + 1 = pat.length := ⟨pat.length - 1, by have := h.lt; omega⟩
  obtain ⟨hn', hlast⟩ := (suffix_snoc_iff hn c).mp hsuffix
  have hle := h.longest n (by omega) hn'
  have hlt := h.lt
  have hjn : j = n := by omega
  subst hjn
  exact hc hlast hn

/-- A letter of `pat` that is not the last one. -/
theorem next (h : Matched pat read j) (hc : pat[j]? = some c) (hj : j + 1 < pat.length) :
    Matched pat (read ++ [c]) (j + 1) where
  lt := hj
  suffix := (take_succ_suffix_iff h.lt c).mpr ⟨h.suffix, hc⟩
  longest := by
    intro i hi hsuffix
    cases i with
    | zero => omega
    | succ i =>
      have hle := h.longest i (by omega) ((take_succ_suffix_iff (by omega) c).mp hsuffix).1
      omega

/-- After a wrong letter, the longest beginning is one that is not longer than before. -/
theorem miss (h : Matched pat read j) (hc : pat[j]? ≠ some c) {k : Nat} (hk : k ≤ j)
    (hsuffix : pat.take k <:+ read ++ [c])
    (hmax : ∀ i, i ≤ j → pat.take i <:+ read ++ [c] → i ≤ k) : Matched pat (read ++ [c]) k where
  lt := Nat.lt_of_le_of_lt hk h.lt
  suffix := hsuffix
  longest := by
    intro i hi hi'
    refine hmax i ?_ hi'
    cases i with
    | zero => exact Nat.zero_le j
    | succ i =>
      obtain ⟨hprev, hlast⟩ := (take_succ_suffix_iff (by omega) c).mp hi'
      have hle := h.longest i (by omega) hprev
      have hne : i ≠ j := by
        rintro rfl
        exact hc hlast
      omega

end Matched

/-! ## A matcher that begins again behind a wrong letter -/

/-- After the attempt that begins at `a`, the next one begins at `b`: behind the letter that is not
the one of `pat`. -/
def Next (pat text : List α) (a b : Nat) : Prop :=
  ∃ m c, m < pat.length ∧ pat.take m <+: text.drop a ∧ text[a + m]? = some c ∧ pat[m]? ≠ some c ∧
    b = a + m + 1

/-- An attempt begins at `a`. -/
def Restart (pat text : List α) (a : Nat) : Prop := Relation.ReflTransGen (Next pat text) 0 a

/-- The first occurrence of `pat`, if there is one, begins where an attempt begins. -/
def FirstAtRestart (pat text : List α) : Prop :=
  ∀ before after, text = before ++ pat ++ after → OnlyAtEnd pat (before ++ pat) →
    Restart pat text before.length

theorem Next.unique {b' : Nat} (h : Next pat text a b) (h' : Next pat text a b') : b = b' := by
  obtain ⟨m, c, hm, hpre, hc, hne, rfl⟩ := h
  obtain ⟨m', c', hm', hpre', hc', hne', rfl⟩ := h'
  -- the letter where the shorter attempt fails is a letter of the longer one
  have hletter {m m' : Nat} {c : α} (hlt : m < m') (hm' : m' < pat.length)
      (hpre' : pat.take m' <+: text.drop a) (hc : text[a + m]? = some c) : pat[m]? = some c := by
    obtain ⟨t, ht⟩ := hpre'
    have hget : (text.drop a)[m]? = some c := by rw [List.getElem?_drop, hc]
    rw [← ht, List.getElem?_append_left (by rw [List.length_take]; omega),
      List.getElem?_take_of_lt hlt] at hget
    exact hget
  obtain hlt | heq | hgt := Nat.lt_trichotomy m m'
  · exact absurd (hletter hlt hm' hpre' hc) hne
  · rw [heq]
  · exact absurd (hletter hgt hm hpre hc') hne'

/-- The attempts follow each other: an attempt that no other one follows is the last one. -/
theorem Restart.last (ha : Restart pat text a) (hb : Restart pat text b)
    (hlast : ∀ c, ¬Next pat text a c) (hlast' : ∀ c, ¬Next pat text b c) :
    a = b := by
  have hunique : Relator.RightUnique (Next pat text) := fun _ _ _ h h' => h.unique h'
  obtain hab | hba := Relation.ReflTransGen.total_of_right_unique hunique ha hb
  · obtain heq | ⟨c, hc, -⟩ := hab.cases_head
    · exact heq
    · exact absurd hc (hlast c)
  · obtain heq | ⟨c, hc, -⟩ := hba.cases_head
    · exact heq.symm
    · exact absurd hc (hlast' c)

theorem Next.lt (h : Next pat text a b) : a < b := by
  obtain ⟨m, c, -, -, -, -, rfl⟩ := h
  omega

/-- Later attempts begin behind earlier ones. -/
theorem le_of_reaches (h : Relation.ReflTransGen (Next pat text) a b) : a ≤ b := by
  induction h with
  | refl => exact Nat.le_refl a
  | tail _ hnext ih => exact ih.trans (Nat.le_of_lt hnext.lt)

theorem Next.append (h : Next pat read a b) (more : List α) : Next pat (read ++ more) a b := by
  obtain ⟨m, c, hm, hpre, hc, hne, rfl⟩ := h
  have hlt := (List.getElem?_eq_some_iff.mp hc).1
  refine ⟨m, c, hm, hpre.trans ?_, ?_, hne, rfl⟩
  · rw [List.drop_append_of_le_length (by omega)]
    exact List.prefix_append _ _
  · rw [List.getElem?_append_left hlt, hc]

/-- What follows does not change the attempts. -/
theorem Restart.append (h : Restart pat read a) (more : List α) : Restart pat (read ++ more) a := by
  induction h with
  | refl => exact .refl
  | tail _ hnext ih => exact ih.tail (hnext.append more)

/-- An attempt that matches the whole of `pat` is not followed by another one. -/
theorem not_next_of_prefix (h : pat <+: text.drop a) : ¬Next pat text a b := by
  rintro ⟨m, c, hm, -, hc, hne, -⟩
  obtain ⟨t, ht⟩ := h
  have hget : (text.drop a)[m]? = some c := by rw [List.getElem?_drop, hc]
  rw [← ht, List.getElem?_append_left hm] at hget
  exact hne hget

/-- Neither is one that goes on to the end of the text. -/
theorem not_next_of_end {m : Nat} (h : text.drop a = pat.take m) : ¬Next pat text a b := by
  rintro ⟨m', c, -, -, hc, hne, -⟩
  have hget : (text.drop a)[m']? = some c := by rw [List.getElem?_drop, hc]
  rw [h] at hget
  have hlt := (List.getElem?_eq_some_iff.mp hget).1
  rw [List.length_take] at hlt
  rw [List.getElem?_take_of_lt (by omega)] at hget
  exact hne hget

/-- An attempt goes on at the end of what was read, where it has matched `m` letters. -/
structure Attempt (pat read : List α) (m : Nat) : Prop where
  lt : m < pat.length
  restart : Restart pat read (read.length - m)
  suffix : pat.take m <:+ read

namespace Attempt

variable {m : Nat} {c : α}

/-- Nothing was read. -/
theorem nil (hpat : pat ≠ []) : Attempt pat [] 0 where
  lt := List.length_pos_iff.mpr hpat
  restart := .refl
  suffix := List.suffix_rfl

theorem le_length (h : Attempt pat read m) : m ≤ read.length := by
  have hlen := h.suffix.length_le
  have hlt := h.lt
  rw [List.length_take] at hlen
  omega

theorem drop_eq (h : Attempt pat read m) : read.drop (read.length - m) = pat.take m := by
  have hsuffix := List.suffix_iff_eq_drop.mp h.suffix
  rw [List.length_take_of_le (Nat.le_of_lt h.lt)] at hsuffix
  exact hsuffix.symm

/-- A letter of `pat` that is not the last one. -/
theorem next (h : Attempt pat read m) (hc : pat[m]? = some c) (hm : m + 1 < pat.length) :
    Attempt pat (read ++ [c]) (m + 1) where
  lt := hm
  restart := by
    have hlen : (read ++ [c]).length - (m + 1) = read.length - m := by
      rw [List.length_append, List.length_singleton]
      omega
    rw [hlen]
    exact h.restart.append [c]
  suffix := (take_succ_suffix_iff h.lt c).mpr ⟨h.suffix, hc⟩

/-- After a wrong letter an attempt begins at the end. -/
theorem miss (h : Attempt pat read m) (hc : pat[m]? ≠ some c) :
    Attempt pat (read ++ [c]) 0 where
  lt := Nat.lt_of_le_of_lt (Nat.zero_le m) h.lt
  restart := by
    have hle := h.le_length
    refine (h.restart.append [c]).tail ⟨m, c, h.lt, ?_, ?_, hc, ?_⟩
    · rw [List.drop_append_of_le_length (Nat.sub_le ..), h.drop_eq]
      exact List.prefix_append _ _
    · rw [Nat.sub_add_cancel hle, List.getElem?_append_right le_rfl, Nat.sub_self]
      rfl
    · rw [List.length_append, List.length_singleton]
      omega
  suffix := List.nil_suffix

/-- The matcher stops with the last letter of `pat`: what it has read ends with the first occurrence
if and only if the first occurrence begins where an attempt begins. -/
theorem found_iff (h : Attempt pat read m) (hc : pat[m]? = some c) (hm : m + 1 = pat.length)
    (rest : List α) :
    OnlyAtEnd pat (read ++ [c]) ↔ FirstAtRestart pat (read ++ [c] ++ rest) := by
  obtain ⟨before, hbefore⟩ := (suffix_snoc_iff hm c).mpr ⟨h.suffix, hc⟩
  have hlen : before.length = read.length - m := by
    have hlen := congrArg List.length hbefore
    rw [List.length_append, List.length_append, List.length_singleton] at hlen
    omega
  have hrestart : Restart pat (read ++ [c] ++ rest) before.length := by
    rw [hlen, List.append_assoc]
    exact h.restart.append ([c] ++ rest)
  have hfound : pat <+: (read ++ [c] ++ rest).drop before.length := by
    rw [← hbefore, List.append_assoc, List.drop_left]
    exact List.prefix_append _ _
  have htext : read ++ [c] ++ rest = before ++ pat ++ rest := by rw [hbefore]
  constructor
  · intro honly before' after' heq honly'
    rw [← hbefore] at honly
    rw [← onlyAtEnd_unique honly honly' (htext.symm.trans heq)]
    exact hrestart
  · intro hfirst
    obtain ⟨before', after', heq, honly'⟩ := exists_first ⟨before, rest, htext.symm⟩
    have hfound' : pat <+: (read ++ [c] ++ rest).drop before'.length := by
      rw [heq, List.append_assoc, List.drop_left]
      exact List.prefix_append _ _
    have hsame := hrestart.last (hfirst before' after' heq honly')
      (fun _ => not_next_of_prefix hfound) (fun _ => not_next_of_prefix hfound')
    rw [htext, List.append_assoc, List.append_assoc] at heq
    obtain ⟨rfl, -⟩ := List.append_inj heq hsame
    rw [← hbefore]
    exact honly'

/-- The matcher comes to the end of the text: there is no occurrence if and only if the first one, if
there were one, would begin where an attempt begins. -/
theorem end_iff (h : Attempt pat read m) : ¬pat <:+: read ↔ FirstAtRestart pat read := by
  constructor
  · exact fun hno before after heq _ => absurd ⟨before, after, heq.symm⟩ hno
  · intro hfirst hinfix
    obtain ⟨before, after, heq, honly⟩ := exists_first hinfix
    have hfound : pat <+: read.drop before.length := by
      rw [heq, List.append_assoc, List.drop_left]
      exact List.prefix_append _ _
    have hsame := h.restart.last (hfirst before after heq honly)
      (fun _ => not_next_of_end h.drop_eq) (fun _ => not_next_of_prefix hfound)
    -- less than the whole of `pat` is left there
    rw [← hsame, h.drop_eq] at hfound
    have hle := hfound.length_le
    have hlt := h.lt
    rw [List.length_take] at hle
    omega

end Attempt

end Qore.Lib.Online
