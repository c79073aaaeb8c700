import Mathlib
import Qore.Lib.Matches

/-!
# `Qore.Lib.Pieces`: cutting a text where another one occurs

`pieces q s` cuts a text `s` at the occurrences of `q`, each time at the first one behind the last
cut. `lead q s` counts how often the text begins with `q`.

A reader that sees the text only up to the next occurrence of `eol` finds an occurrence of `q`, and
counts how often the text begins with it, as if it saw all of the text, when the two have no letter
in common.

* `firstMatch_left` and `firstMatch_right`: the first occurrence in the beginning of a text.
* `pieces_drop`: the pieces of what is left of a text.
* `lead_left`: the count in the beginning of a text.
-/

set_option autoImplicit false

namespace Qore.Lib.Matches

section
variable {α : Type*} [DecidableEq α] {s q : List α} {i : Nat} {a b : List α}

/-! ## First occurrences -/

theorem firstMatch_eq_some_iff :
    firstMatch s q = some i ↔ q <+: s.drop i ∧ ∀ j, j < i → ¬q <+: s.drop j := by
  induction s generalizing i with
  | nil =>
    rw [firstMatch]
    by_cases hq : q = []
    · rw [if_pos hq, hq]
      constructor
      · intro h
        cases h
        exact ⟨List.nil_prefix, fun j hj => absurd hj (Nat.not_lt_zero j)⟩
      · intro h
        cases i with
        | zero => rfl
        | succ i => exact absurd List.nil_prefix (h.2 0 (Nat.succ_pos i))
    · rw [if_neg hq]
      refine iff_of_false (by rintro ⟨⟩) fun h => ?_
      rw [List.drop_nil, List.prefix_nil] at h
      exact hq h.1
  | cons x s ih =>
    rw [firstMatch_cons]
    by_cases h : q <+: x :: s
    · rw [if_pos h]
      constructor
      · intro heq
        cases heq
        exact ⟨h, fun j hj => absurd hj (Nat.not_lt_zero j)⟩
      · intro hi
        cases i with
        | zero => rfl
        | succ i => exact absurd h (hi.2 0 (Nat.succ_pos i))
    · rw [if_neg h]
      cases i with
      | zero =>
        refine iff_of_false (fun heq => ?_) fun hi => h hi.1
        obtain ⟨j, -, hj⟩ := Option.map_eq_some_iff.mp heq
        omega
      | succ i =>
        rw [Option.map_eq_some_iff]
        constructor
        · rintro ⟨j, hj, hji⟩
          obtain rfl : j = i := by omega
          refine ⟨(ih.mp hj).1, fun k hk => ?_⟩
          cases k with
          | zero => exact h
          | succ k => exact (ih.mp hj).2 k (by omega)
        · rintro ⟨hi, hfirst⟩
          exact ⟨i, ih.mpr ⟨hi, fun j hj => hfirst (j + 1) (by omega)⟩, rfl⟩

/-- An occurrence is not longer than the text. -/
theorem firstMatch_add_le (h : firstMatch s q = some i) : i + q.length ≤ s.length := by
  have hle := firstMatch_le h
  have hlen := (firstMatch_eq_some_iff.mp h).1.length_le
  rw [List.length_drop] at hlen
  omega

/-- At its first occurrence a text can be taken apart. -/
theorem firstMatch_append_eq (h : firstMatch s q = some i) :
    s = s.take i ++ (q ++ s.drop (i + q.length)) := by
  obtain ⟨t, ht⟩ := (firstMatch_eq_some_iff.mp h).1
  have hdrop : s.drop (i + q.length) = t := by
    rw [← List.drop_drop, ← ht, List.drop_left]
  rw [hdrop, ht, List.take_append_drop]

omit [DecidableEq α] in
/-- A prefix of a text that is long enough is a prefix of its beginning. -/
theorem prefix_left (h : q <+: a ++ b) (hlen : q.length ≤ a.length) : q <+: a :=
  List.prefix_of_prefix_length_le h (List.prefix_append a b) hlen

/-- The first occurrence in the beginning of a text is the first one. -/
theorem firstMatch_right (h : firstMatch a q = some i) (b : List α) :
    firstMatch (a ++ b) q = some i := by
  have hle := firstMatch_add_le h
  obtain ⟨hocc, hfirst⟩ := firstMatch_eq_some_iff.mp h
  rw [firstMatch_eq_some_iff]
  constructor
  · rw [List.drop_append_of_le_length (by omega)]
    exact hocc.trans (List.prefix_append _ _)
  · intro j hj hpre
    rw [List.drop_append_of_le_length (by omega)] at hpre
    exact hfirst j hj (prefix_left hpre (by rw [List.length_drop]; omega))

/-- The first occurrence is found in the beginning of a text that contains it. -/
theorem firstMatch_left (h : firstMatch (a ++ b) q = some i) (hlen : i + q.length ≤ a.length) :
    firstMatch a q = some i := by
  obtain ⟨hocc, hfirst⟩ := firstMatch_eq_some_iff.mp h
  rw [firstMatch_eq_some_iff]
  constructor
  · rw [List.drop_append_of_le_length (by omega)] at hocc
    exact prefix_left hocc (by rw [List.length_drop]; omega)
  · intro j hj hpre
    refine hfirst j hj ?_
    rw [List.drop_append_of_le_length (by omega)]
    exact hpre.trans (List.prefix_append _ _)

/-- The first occurrence behind some letters before it. -/
theorem firstMatch_drop {k : Nat} (h : firstMatch s q = some i) (hk : k ≤ i) :
    firstMatch (s.drop k) q = some (i - k) := by
  obtain ⟨hocc, hfirst⟩ := firstMatch_eq_some_iff.mp h
  rw [firstMatch_eq_some_iff]
  constructor
  · rw [List.drop_drop]
    have : k + (i - k) = i := by omega
    rwa [this]
  · intro j hj
    rw [List.drop_drop]
    exact hfirst (k + j) (by omega)

theorem firstMatch_none_drop (h : firstMatch s q = none) (k : Nat) :
    firstMatch (s.drop k) q = none := by
  rw [firstMatch_eq_none_iff] at h ⊢
  intro i
  rw [List.drop_drop]
  exact h (k + i)

/-- The first occurrence of a letter behind text without it. -/
theorem firstMatch_singleton {a : α} (hs : a ∉ s) (t : List α) :
    firstMatch (s ++ ([a] ++ t)) [a] = some s.length := by
  rw [firstMatch_eq_some_iff]
  constructor
  · rw [List.drop_left]
    exact List.prefix_append ..
  · intro j hj hpre
    rw [List.drop_append_of_le_length (by omega), List.drop_eq_getElem_cons hj] at hpre
    obtain ⟨u, hu⟩ := hpre
    have ha : a = s[j] := (List.cons.inj hu).1
    exact hs (ha ▸ List.getElem_mem hj)

theorem firstMatch_singleton_eq_none_iff {a : α} : firstMatch s [a] = none ↔ a ∉ s := by
  constructor
  · intro h ha
    obtain ⟨t, u, rfl⟩ := List.append_of_mem ha
    have hnot := (firstMatch_eq_none_iff _ _).mp h t.length
    rw [List.drop_left] at hnot
    exact hnot ⟨u, rfl⟩
  · intro hnot
    rw [firstMatch_eq_none_iff]
    rintro i ⟨u, hu⟩
    refine hnot (List.mem_of_mem_drop (i := i) ?_)
    rw [← hu]
    exact List.mem_cons_self ..

/-! ## Pieces -/

/-- The text cut at the occurrences of `q`. -/
def pieces (q s : List α) : List (List α) :=
  match heq : firstMatch s q with
  | none => [s]
  | some i =>
    if h : q = [] then [s] else s.take i :: pieces q (s.drop (i + q.length))
termination_by s.length
decreasing_by
  have hle := firstMatch_add_le heq
  have hpos := List.length_pos_iff.mpr h
  rw [List.length_drop]
  omega

section
variable {q : List α} (hq : q ≠ []) {s : List α}
include hq

omit hq in
theorem pieces_none (h : firstMatch s q = none) : pieces q s = [s] := by
  rw [pieces, h]

theorem pieces_some {i : Nat} (h : firstMatch s q = some i) :
    pieces q s = s.take i :: pieces q (s.drop (i + q.length)) := by
  rw [pieces, h]
  exact dif_neg hq

theorem pieces_ne_nil (s : List α) : pieces q s ≠ [] := by
  cases h : firstMatch s q with
  | none => simp [pieces_none h]
  | some i => simp [pieces_some hq h]

/-- The first piece is a prefix, and what follows begins with `q` and has the other pieces. -/
theorem pieces_eq_cons {r : List α} {ls : List (List α)} (h : pieces q s = r :: ls) :
    (ls = [] → s = r) ∧ (ls ≠ [] → ∃ t, s = r ++ (q ++ t) ∧ pieces q t = ls) := by
  cases hs : firstMatch s q with
  | none =>
    rw [pieces_none hs] at h
    injection h with hr hls
    exact ⟨fun _ => hr, fun hne => absurd hls.symm hne⟩
  | some i =>
    rw [pieces_some hq hs] at h
    injection h with hr hls
    refine ⟨fun hnil => ?_, fun _ => ⟨_, ?_, hls⟩⟩
    · rw [hnil] at hls
      exact absurd hls (pieces_ne_nil hq _)
    · rw [← hr]
      exact firstMatch_append_eq hs

/-- The pieces of what is left of a text when some letters of its first piece are gone. -/
theorem pieces_drop {r : List α} {ls : List (List α)} (h : pieces q s = r :: ls) {k : Nat}
    (hk : k ≤ r.length) : pieces q (s.drop k) = r.drop k :: ls := by
  cases hs : firstMatch s q with
  | none =>
    rw [pieces_none hs] at h
    injection h with hr hls
    rw [pieces_none (firstMatch_none_drop hs k), hr, hls]
  | some i =>
    rw [pieces_some hq hs] at h
    injection h with hr hls
    rw [← hr, List.length_take] at hk
    have hrest : (s.drop k).drop (i - k + q.length) = s.drop (i + q.length) := by
      rw [List.drop_drop]
      congr 1
      omega
    rw [pieces_some hq (firstMatch_drop hs (by omega)), hrest, hls, ← hr, List.drop_take]

/-- The pieces, joined with what the text was cut at, are the text. -/
theorem intercalate_pieces (s : List α) : q.intercalate (pieces q s) = s := by
  fun_induction pieces q s with
  | case1 s h => exact List.intercalate_singleton
  | case2 s i h hnil => exact absurd hnil hq
  | case3 s i h _ ih =>
    rw [List.intercalate_cons_of_ne_nil (pieces_ne_nil hq _), ih, List.append_assoc]
    exact (firstMatch_append_eq h).symm

/-- `q` does not occur in a piece. -/
theorem firstMatch_of_mem_pieces {t : List α} (h : t ∈ pieces q s) : firstMatch t q = none := by
  fun_induction pieces q s with
  | case1 s hnone => rwa [List.mem_singleton.mp h]
  | case2 s i _ hnil => exact absurd hnil hq
  | case3 s i hsome _ ih =>
    rcases List.mem_cons.mp h with rfl | h
    · rw [firstMatch_eq_none_iff]
      intro j hpre
      have hlen := hpre.length_le
      have hpos := List.length_pos_iff.mpr hq
      rw [List.length_drop, List.length_take] at hlen
      refine (firstMatch_eq_some_iff.mp hsome).2 j (by omega) (hpre.trans ?_)
      rw [List.drop_take]
      exact List.take_prefix ..
    · exact ih h

end

/-! ## Leading occurrences -/

/-- How often the text begins with `q`, and what follows. -/
def lead (q s : List α) : Nat × List α :=
  if h : q ≠ [] ∧ q <+: s then
    ((lead q (s.drop q.length)).1 + 1, (lead q (s.drop q.length)).2)
  else (0, s)
termination_by s.length
decreasing_by
  have hle := h.2.length_le
  have hpos := List.length_pos_iff.mpr h.1
  rw [List.length_drop]
  omega

section
variable {q : List α} (hq : q ≠ [])

theorem lead_of_notPrefix {s : List α} (h : ¬q <+: s) : lead q s = (0, s) := by
  rw [lead, dif_neg fun h' => h h'.2]

include hq

theorem lead_append (s : List α) : lead q (q ++ s) = ((lead q s).1 + 1, (lead q s).2) := by
  rw [lead, dif_pos ⟨hq, List.prefix_append q s⟩, List.drop_left]

omit hq in
theorem lead_length (s : List α) :
    (lead q s).1 * q.length + (lead q s).2.length = s.length := by
  fun_induction lead q s with
  | case1 s h ih =>
    have hle := h.2.length_le
    rw [List.length_drop] at ih
    show ((lead q (s.drop q.length)).1 + 1) * q.length + (lead q (s.drop q.length)).2.length = _
    rw [Nat.add_mul]
    omega
  | case2 => simp

omit hq in
theorem lead_drop (s : List α) : s.drop ((lead q s).1 * q.length) = (lead q s).2 := by
  fun_induction lead q s with
  | case1 s h ih =>
    rw [← ih, List.drop_drop]
    congr 1
    rw [Nat.add_mul]
    omega
  | case2 => simp

omit hq

/-- `n` copies of a text. -/
def copies (n : Nat) (q : List α) : List α := (List.replicate n q).flatten

omit [DecidableEq α] in
theorem copies_succ (n : Nat) (q : List α) : copies (n + 1) q = q ++ copies n q := by
  unfold copies
  rw [List.replicate_succ, List.flatten_cons]

omit [DecidableEq α] in
theorem copies_add (m n : Nat) (q : List α) : copies (m + n) q = copies m q ++ copies n q := by
  unfold copies
  rw [List.replicate_add, List.flatten_append]

end

/-! ## What a part of the text shows -/

/-- The rest of a text behind what is seen of it: nothing, or something that begins with a letter
that `q` does not have. -/
def Unseen (q b : List α) : Prop := b = [] ∨ ∃ x t, b = x :: t ∧ x ∉ q

omit [DecidableEq α] in
/-- `q` is not a prefix that begins in the seen part and ends behind it. -/
theorem Unseen.prefix_iff (h : Unseen q b) : q <+: a ++ b ↔ q <+: a := by
  constructor
  · intro hpre
    by_cases hlen : q.length ≤ a.length
    · exact prefix_left hpre hlen
    · rcases h with rfl | ⟨x, t, rfl, hx⟩
      · rwa [List.append_nil] at hpre
      · obtain ⟨s, hs⟩ := hpre
        -- the letter behind `a` is one of `q`
        have hget : (q ++ s)[a.length]? = some x := by
          rw [hs, List.getElem?_append_right (Nat.le_refl _), Nat.sub_self]
          rfl
        rw [List.getElem?_append_left (by omega)] at hget
        exact absurd (List.mem_of_getElem? hget) hx
  · exact fun hpre => hpre.trans (List.prefix_append a b)

omit [DecidableEq α] in
/-- `q` does not occur across a part of the text that has none of its letters. -/
theorem occurs_apart {w e t : List α} (hq : q ≠ []) (hne : e ≠ []) (he : ∀ x ∈ e, x ∉ q) {p : Nat}
    (h : q <+: (w ++ (e ++ t)).drop p) : p + q.length ≤ w.length ∨ w.length + e.length ≤ p := by
  by_contra hnot
  rw [not_or] at hnot
  have hqpos := List.length_pos_iff.mpr hq
  have hepos := List.length_pos_iff.mpr hne
  obtain ⟨s, hs⟩ := h
  -- the first letter that both parts have
  obtain ⟨m, hm⟩ : ∃ m, max p w.length = m := ⟨_, rfl⟩
  have hw : (w ++ (e ++ t))[m]? = e[m - w.length]? := by
    rw [List.getElem?_append_right (by omega), List.getElem?_append_left (by omega)]
  have hq : (w ++ (e ++ t))[m]? = q[m - p]? := by
    have hpm : p + (m - p) = m := by omega
    rw [← hpm, ← List.getElem?_drop, ← hs, List.getElem?_append_left (by omega), hpm]
  have hlt : m - w.length < e.length := by omega
  have hsome : e[m - w.length]? = some (e.get ⟨m - w.length, hlt⟩) := List.getElem?_eq_getElem hlt
  rw [hw, hsome] at hq
  exact he _ (List.get_mem e ⟨m - w.length, hlt⟩) (List.mem_of_getElem? hq.symm)

theorem lead_left (h : Unseen q b) :
    (lead q (a ++ b)).1 = (lead q a).1 ∧ (lead q (a ++ b)).2 = (lead q a).2 ++ b := by
  fun_induction lead q a with
  | case1 a ha ih =>
    obtain ⟨t, rfl⟩ := ha.2
    rw [List.drop_left] at ih ⊢
    rw [List.append_assoc, lead_append ha.1]
    exact ⟨by rw [ih.1], ih.2⟩
  | case2 a ha =>
    rw [lead, dif_neg fun h' => ha ⟨h'.1, h.prefix_iff.mp h'.2⟩]
    exact ⟨rfl, rfl⟩

end

end Qore.Lib.Matches
