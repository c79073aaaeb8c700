import Mathlib.Data.List.Basic

/-!
# `Qore.Lib.Find`: the first and the last place of a letter

* `find c pos s`: the first place of `c` in `s` from `pos` on; `find_spec` cuts `s` there.
* `rfind c s`: the last place; `rfind_spec`.
* `findSub sub s`: the first place of a text.
-/

set_option autoImplicit false

namespace Qore.Lib

variable {α : Type*} [DecidableEq α]

/-- The first place of `c` from `pos` on. -/
def find (c : α) (pos : Nat) (s : List α) : Option Nat :=
  ((s.drop pos).idxOf? c).map (· + pos)

/-- The last place of `c`. -/
def rfind (c : α) (s : List α) : Option Nat := (s.reverse.idxOf? c).map (s.length - 1 - ·)

/-- The first place of the text `sub`. -/
def findSub (sub : List α) : List α → Option Nat
  | [] => if sub = [] then some 0 else none
  | c :: s => if sub <+: c :: s then some 0 else (findSub sub s).map (· + 1)

variable {c : α} {s : List α} {pos i : Nat} {a : List α}

theorem idxOf?_append_cons (ha : c ∉ a) (r : List α) : (a ++ c :: r).idxOf? c = some a.length := by
  induction a with
  | nil => simp [List.idxOf?_cons]
  | cons b a ih =>
    obtain ⟨hb, ha'⟩ := not_or.mp (fun h => ha (List.mem_cons.mpr h))
    rw [List.cons_append, List.idxOf?_cons, if_neg (by simpa using Ne.symm hb), ih ha']
    rfl

/-- What follows a letter. -/
theorem drop_length_succ {β : Type*} (a : List β) (c : β) (r : List β) :
    (a ++ c :: r).drop (a.length + 1) = r := by
  simp

/-! ### From the left -/

/-- The letter that stands first from `pos` on. -/
theorem find_append_cons (hpos : pos ≤ a.length) (ha : c ∉ a.drop pos) (r : List α) :
    find c pos (a ++ c :: r) = some a.length := by
  unfold find
  rw [List.drop_append_of_le_length hpos, idxOf?_append_cons ha, Option.map_some,
    List.length_drop, Nat.sub_add_cancel hpos]

theorem find_eq_none_iff : find c pos s = none ↔ c ∉ s.drop pos := by
  unfold find
  rw [Option.map_eq_none_iff, List.idxOf?_eq_none_iff]

theorem find_eq_none (h : c ∉ s) : find c pos s = none :=
  find_eq_none_iff.mpr fun hmem => h (List.mem_of_mem_drop hmem)

/-- The first place cuts the text. -/
theorem find_spec (h : find c pos s = some i) :
    ∃ a r, s = a ++ c :: r ∧ a.length = i ∧ pos ≤ i ∧ c ∉ a.drop pos := by
  have hmem : c ∈ s.drop pos := by
    by_contra hno
    rw [find_eq_none_iff.mpr hno] at h
    cases h
  obtain ⟨b, r, hsplit, hb⟩ := List.eq_append_cons_of_mem hmem
  have hpos : pos ≤ s.length := by
    by_contra hlt
    rw [List.drop_eq_nil_of_le (by omega)] at hmem
    cases hmem
  have hlen : (s.take pos).length = pos := List.length_take_of_le hpos
  have hs : s = s.take pos ++ b ++ c :: r := by
    rw [List.append_assoc, ← hsplit, List.take_append_drop]
  have hdrop : (s.take pos ++ b).drop pos = b := by
    rw [List.drop_append_of_le_length (by omega), List.drop_eq_nil_of_le (by omega),
      List.nil_append]
  have hle : pos ≤ (s.take pos ++ b).length := by
    rw [List.length_append]
    omega
  have hfind := find_append_cons hle (by rwa [hdrop]) r
  rw [← hs, h] at hfind
  exact ⟨_, r, hs, (Option.some.inj hfind).symm, Option.some.inj hfind ▸ hle, by rwa [hdrop]⟩

theorem le_of_find (h : find c pos s = some i) : pos ≤ i := by
  obtain ⟨-, -, -, -, hle, -⟩ := find_spec h
  exact hle

/-- A search that begins behind the first part of a text. -/
theorem find_append_length (a : List α) :
    find c a.length (a ++ s) = (find c 0 s).map (· + a.length) := by
  unfold find
  rw [List.drop_left, List.drop_zero, Option.map_map]
  rfl

/-- The first letter that a test accepts cuts the text. -/
theorem findIdx?_spec {β : Type*} {p : β → Bool} {s : List β} (h : s.findIdx? p = some i) :
    ∃ a c r, s = a ++ c :: r ∧ a.length = i ∧ p c = true ∧ ∀ d ∈ a, p d = false := by
  induction s generalizing i with
  | nil => cases h
  | cons b s ih =>
    rw [List.findIdx?_cons] at h
    split at h
    · rename_i hb
      cases h
      exact ⟨[], b, s, rfl, rfl, hb, List.forall_mem_nil _⟩
    · rename_i hb
      obtain ⟨j, hj, rfl⟩ := Option.map_eq_some_iff.mp h
      obtain ⟨a, c, r, rfl, rfl, hc, ha⟩ := ih hj
      exact ⟨b :: a, c, r, rfl, rfl, hc, List.forall_mem_cons.mpr ⟨eq_false_of_ne_true hb, ha⟩⟩

/-- A letter that is not in the first part of a text stands behind it. -/
theorem le_of_find_append (ha : c ∉ a) (h : find c pos (a ++ s) = some i) : a.length ≤ i := by
  obtain ⟨b, r, hsplit, rfl, -, -⟩ := find_spec h
  by_contra hlt
  have hget : (a ++ s)[b.length]? = some c := by
    rw [hsplit, List.getElem?_append_right (Nat.le_refl _), Nat.sub_self]
    rfl
  rw [List.getElem?_append_left (by omega)] at hget
  exact ha (List.mem_of_getElem? hget)

/-- The same in front of another letter. -/
theorem lt_of_find_append {d : α} (ha : c ∉ a) (hd : c ≠ d) (h : find c pos (a ++ d :: s) = some i) :
    a.length < i := by
  have hsplit : a ++ d :: s = (a ++ [d]) ++ s := by simp
  have ha' : c ∉ a ++ [d] := by
    rw [List.mem_append, List.mem_singleton]
    exact fun hmem => hmem.elim ha hd
  rw [hsplit] at h
  have hle := le_of_find_append ha' h
  rw [List.length_append, List.length_singleton] at hle
  exact hle

/-! ### From the right -/

/-- The letter that stands last. -/
theorem rfind_append_cons (a : List α) {r : List α} (hr : c ∉ r) :
    rfind c (a ++ c :: r) = some a.length := by
  unfold rfind
  have hreverse : (a ++ c :: r).reverse = r.reverse ++ c :: a.reverse := by simp
  have hr' : c ∉ r.reverse := fun h => hr (List.mem_reverse.mp h)
  rw [hreverse, idxOf?_append_cons hr', Option.map_some, List.length_append, List.length_cons,
    List.length_reverse]
  congr 1
  omega

theorem rfind_eq_none_iff : rfind c s = none ↔ c ∉ s := by
  unfold rfind
  rw [Option.map_eq_none_iff, List.idxOf?_eq_none_iff, List.mem_reverse]

/-- The last place cuts the text. -/
theorem rfind_spec (h : rfind c s = some i) : ∃ a r, s = a ++ c :: r ∧ a.length = i ∧ c ∉ r := by
  have hmem : c ∈ s.reverse := by
    by_contra hno
    rw [List.mem_reverse, ← rfind_eq_none_iff, h] at hno
    cases hno
  obtain ⟨b, a, hsplit, hb⟩ := List.eq_append_cons_of_mem hmem
  have hs : s = a.reverse ++ c :: b.reverse := by
    rw [← List.reverse_reverse s, hsplit]
    simp
  have hb' : c ∉ b.reverse := fun hb' => hb (List.mem_reverse.mp hb')
  have hfind := rfind_append_cons a.reverse hb'
  rw [← hs, h] at hfind
  exact ⟨_, _, hs, (Option.some.inj hfind).symm, hb'⟩

/-- A letter has a last place. -/
theorem exists_rfind (h : c ∈ s) : ∃ i, rfind c s = some i :=
  Option.ne_none_iff_exists'.mp fun hnone => rfind_eq_none_iff.mp hnone h

/-- In the second part of a text the last place is that of this part. -/
theorem rfind_append_right (a : List α) (h : c ∈ s) :
    ∃ i, rfind c (a ++ s) = some (a.length + i) ∧ i < s.length := by
  obtain ⟨i, hi⟩ := exists_rfind h
  obtain ⟨b, r, rfl, rfl, hr⟩ := rfind_spec hi
  refine ⟨b.length, ?_, by simp⟩
  rw [← List.append_assoc, rfind_append_cons _ hr, List.length_append]

/-- Otherwise it is in the first part. -/
theorem lt_of_rfind_append (h : c ∉ s) (hi : rfind c (a ++ s) = some i) : i < a.length := by
  have hmem : c ∈ a := by
    by_contra hno
    have hnone : rfind c (a ++ s) = none :=
      rfind_eq_none_iff.mpr fun hmem => (List.mem_append.mp hmem).elim hno h
    rw [hnone] at hi
    cases hi
  obtain ⟨j, hj⟩ := exists_rfind hmem
  obtain ⟨b, r, rfl, rfl, hr⟩ := rfind_spec hj
  have hr' : c ∉ r ++ s := fun hmem => (List.mem_append.mp hmem).elim hr h
  rw [List.append_assoc, List.cons_append, rfind_append_cons b hr'] at hi
  cases hi
  simp

/-! ### Texts -/

/-- A text whose first letter does not stand before it. -/
theorem findSub_append {sub : List α} (ha : c ∉ a) (r : List α) :
    findSub (c :: sub) (a ++ c :: sub ++ r) = some a.length := by
  induction a with
  | nil =>
    have hpre : c :: sub <+: c :: (sub ++ r) := List.prefix_append (c :: sub) r
    rw [List.nil_append, List.cons_append, findSub, if_pos hpre, List.length_nil]
  | cons b a ih =>
    obtain ⟨hb, ha'⟩ := not_or.mp (fun h => ha (List.mem_cons.mpr h))
    have hno : ¬c :: sub <+: b :: (a ++ c :: sub ++ r) :=
      fun h => hb (List.cons_prefix_cons.mp h).1
    rw [List.cons_append, List.cons_append, findSub, if_neg hno, ih ha']
    rfl

end Qore.Lib
