import Mathlib.Data.List.Basic

/-!
# `Qore.Lib.Span`: positions between two bounds

The integers from one bound to another, upwards or downwards, and the elements of a list at such
positions. Positions outside of the list select nothing, so the bounds of a selection can be moved
into the list.

* `filterMap_up_clamp`, `filterMap_down_clamp`: positions without an element can be left out.
* `filterMap_up_eq`, `filterMap_down_eq`: the selection as a part of the list.
-/

set_option autoImplicit false

namespace Qore.Lib.Span

/-- The integers from `a` up to `b`. -/
def up (a b : Int) : List Int := (List.range (b + 1 - a).toNat).map fun i : Nat => a + (i : Int)

/-- The integers from `a` down to `b`. -/
def down (a b : Int) : List Int := (List.range (a + 1 - b).toNat).map fun i : Nat => a - (i : Int)

/-- The integers from `m` to `k` in either direction. -/
def span (m k : Int) : List Int := if m ≤ k then up m k else down m k

section
variable {α β : Type} {a b i : Int} {f : Int → Option β} {m k : Int} (xs : List α)

/-- The element at a position. -/
def elemAt (xs : List α) (i : Int) : Option α := if i < 0 then none else xs[i.toNat]?

/-- The elements at the positions from `m` to `k`. -/
def slice (xs : List α) (m k : Int) : List α := (span m k).filterMap (elemAt xs)

/-! ### Upwards -/

theorem up_nil (h : b < a) : up a b = [] := by
  unfold up
  rw [Int.toNat_of_nonpos (by omega)]
  rfl

theorem up_cons (h : a ≤ b) : up a b = a :: up (a + 1) b := by
  unfold up
  have hn : (b + 1 - a).toNat = (b + 1 - (a + 1)).toNat + 1 := by omega
  rw [hn, List.range_succ_eq_map, List.map_cons, List.map_map]
  rw [List.cons.injEq]
  refine ⟨by omega, List.map_congr_left fun i _ => ?_⟩
  show a + ((i + 1 : Nat) : Int) = _
  omega

@[simp] theorem length_up (a b : Int) : (up a b).length = (b + 1 - a).toNat := by simp [up]

@[simp] theorem mem_up : i ∈ up a b ↔ a ≤ i ∧ i ≤ b := by
  simp only [up, List.mem_map, List.mem_range]
  constructor
  · rintro ⟨j, hj, rfl⟩
    omega
  · intro h
    exact ⟨(i - a).toNat, by omega, by omega⟩

/-- The positions are split before `c`. -/
theorem up_append {c : Int} (hac : a ≤ c) (hcb : c ≤ b + 1) : up a b = up a (c - 1) ++ up c b := by
  obtain ⟨n, rfl⟩ : ∃ n : Nat, c = a + n := ⟨(c - a).toNat, by omega⟩
  induction n generalizing a with
  | zero =>
    have hnil : up a (a + ((0 : Nat) : Int) - 1) = [] := up_nil (by omega)
    rw [hnil, List.nil_append]
    congr 1
    omega
  | succ n ih =>
    have hrest := @ih (a + 1) (by omega) (by omega)
    have hc : a + 1 + (n : Int) = a + ((n + 1 : Nat) : Int) := by omega
    rw [hc] at hrest
    have hfirst : up a (a + ((n + 1 : Nat) : Int) - 1) =
        a :: up (a + 1) (a + ((n + 1 : Nat) : Int) - 1) := up_cons (by omega)
    rw [up_cons (show a ≤ b by omega), hrest, hfirst, List.cons_append]

theorem filterMap_up_nil (h : ∀ i, a ≤ i → i ≤ b → f i = none) : (up a b).filterMap f = [] := by
  rw [List.filterMap_eq_nil_iff]
  intro i hi
  rw [mem_up] at hi
  exact h i hi.1 hi.2

/-- Positions before `lo` and behind `hi` select nothing. -/
theorem filterMap_up_clamp {lo hi : Int} (hlo : ∀ i, i < lo → f i = none)
    (hhi : ∀ i, hi < i → f i = none) (a b : Int) :
    (up a b).filterMap f = (up (max a lo) (min b hi)).filterMap f := by
  by_cases hne : max a lo ≤ min b hi
  · -- three parts, of which the outer ones are empty
    have hfirst : (up a (max a lo - 1)).filterMap f = [] :=
      filterMap_up_nil fun i _ h => hlo i (by omega)
    have hlast : (up (min b hi + 1) b).filterMap f = [] :=
      filterMap_up_nil fun i h _ => hhi i (by omega)
    have hsplit : up a b = up a (max a lo - 1) ++ up (max a lo) b :=
      up_append (by omega) (by omega)
    have hsplit' : up (max a lo) b = up (max a lo) (min b hi + 1 - 1) ++ up (min b hi + 1) b :=
      up_append (by omega) (by omega)
    rw [hsplit, hsplit', List.filterMap_append, List.filterMap_append, hfirst, hlast,
      List.nil_append, List.append_nil]
    have hend : min b hi + 1 - 1 = min b hi := by omega
    rw [hend]
  · rw [up_nil (a := max a lo) (by omega)]
    refine filterMap_up_nil fun i ha hb => ?_
    by_cases hi' : i < lo
    · exact hlo i hi'
    · exact hhi i (by omega)

theorem elemAt_of_neg (h : i < 0) : elemAt xs i = none := if_pos h

theorem elemAt_of_ge (h : (xs.length : Int) - 1 < i) : elemAt xs i = none := by
  unfold elemAt
  split
  · rfl
  · exact List.getElem?_eq_none (by omega)

/-- Positions from `a` on select a part of the list. -/
theorem filterMap_up_eq (ha : 0 ≤ a) (b : Int) :
    (up a b).filterMap (elemAt xs) = (xs.drop a.toNat).take (b + 1 - a).toNat := by
  obtain ⟨n, hn⟩ : ∃ n : Nat, (b + 1 - a).toNat = n := ⟨_, rfl⟩
  induction n generalizing a with
  | zero =>
    rw [hn, up_nil (by omega), List.take_zero]
    rfl
  | succ n ih =>
    have hrest := @ih (a + 1) (by omega) (by omega)
    have hlen : (b + 1 - (a + 1)).toNat = n := by omega
    have hnext : (a + 1).toNat = a.toNat + 1 := by omega
    rw [hlen, hnext] at hrest
    rw [up_cons (by omega), List.filterMap_cons, hrest, hn]
    have hget : elemAt xs a = xs[a.toNat]? := if_neg (by omega)
    rw [hget]
    cases hx : xs[a.toNat]? with
    | none =>
      have hle : xs.length ≤ a.toNat := List.getElem?_eq_none_iff.mp hx
      simp [List.drop_eq_nil_of_le, hle, Nat.le_succ_of_le hle]
    | some x =>
      obtain ⟨hlt, rfl⟩ := List.getElem?_eq_some_iff.mp hx
      rw [List.drop_eq_getElem_cons hlt, List.take_succ_cons]

/-- A position counted from the other end. -/
theorem elemAt_reverse (i : Int) : elemAt xs.reverse i = elemAt xs (xs.length - 1 - i) := by
  by_cases hneg : i < 0
  · rw [elemAt_of_neg _ hneg, elemAt_of_ge _ (by omega)]
  · by_cases hge : (xs.length : Int) - 1 < i
    · rw [elemAt_of_ge _ (by rw [List.length_reverse]; omega), elemAt_of_neg _ (by omega)]
    · unfold elemAt
      rw [if_neg hneg, if_neg (by omega), List.getElem?_reverse (by omega)]
      congr 1
      omega

/-- When every position has an element, no position is left out. -/
theorem mapM_elemAt {xs : List α} {ps : List Int} (h : ∀ i ∈ ps, 0 ≤ i ∧ i < xs.length) :
    ps.mapM (elemAt xs) = some (ps.filterMap (elemAt xs)) := by
  induction ps with
  | nil => rfl
  | cons i ps ih =>
    have hi := h i (by simp)
    have hget : elemAt xs i = some (xs.get ⟨i.toNat, by omega⟩) := by
      unfold elemAt
      rw [if_neg (by omega), List.getElem?_eq_getElem (by omega)]
      rfl
    rw [List.mapM_cons, ih fun j hj => h j (List.mem_cons_of_mem i hj), List.filterMap_cons, hget]
    rfl

/-! ### Downwards -/

theorem down_nil (h : a < b) : down a b = [] := by
  unfold down
  rw [Int.toNat_of_nonpos (by omega)]
  rfl

theorem down_cons (h : b ≤ a) : down a b = a :: down (a - 1) b := by
  unfold down
  have hn : (a + 1 - b).toNat = (a - 1 + 1 - b).toNat + 1 := by omega
  rw [hn, List.range_succ_eq_map, List.map_cons, List.map_map]
  rw [List.cons.injEq]
  refine ⟨by omega, List.map_congr_left fun i _ => ?_⟩
  show a - ((i + 1 : Nat) : Int) = _
  omega

@[simp] theorem length_down (a b : Int) : (down a b).length = (a + 1 - b).toNat := by simp [down]

@[simp] theorem mem_down : i ∈ down a b ↔ b ≤ i ∧ i ≤ a := by
  simp only [down, List.mem_map, List.mem_range]
  constructor
  · rintro ⟨j, hj, rfl⟩
    omega
  · intro h
    exact ⟨(a - i).toNat, by omega, by omega⟩

/-- Downwards is upwards in reverse. -/
theorem down_eq_reverse (a b : Int) : down a b = (up b a).reverse := by
  obtain ⟨n, hn⟩ : ∃ n : Nat, (a + 1 - b).toNat = n := ⟨_, rfl⟩
  induction n generalizing a with
  | zero =>
    rw [down_nil (by omega), up_nil (by omega)]
    rfl
  | succ n ih =>
    have hsplit : up b a = up b (a - 1) ++ up a a := up_append (by omega) (by omega)
    have hlast : up a a = [a] := by rw [up_cons (Int.le_refl a), up_nil (by omega)]
    rw [down_cons (by omega), ih (a - 1) (by omega), hsplit, hlast, List.reverse_append]
    rfl

theorem filterMap_down (f : Int → Option β) (a b : Int) :
    (down a b).filterMap f = ((up b a).filterMap f).reverse := by
  rw [down_eq_reverse, List.filterMap_reverse]

theorem filterMap_down_clamp {lo hi : Int} (hlo : ∀ i, i < lo → f i = none)
    (hhi : ∀ i, hi < i → f i = none) (a b : Int) :
    (down a b).filterMap f = (down (min a hi) (max b lo)).filterMap f := by
  rw [filterMap_down, filterMap_down, filterMap_up_clamp hlo hhi]

theorem filterMap_down_eq (a : Int) (hb : 0 ≤ b) :
    (down a b).filterMap (elemAt xs) = ((xs.drop b.toNat).take (a + 1 - b).toNat).reverse := by
  rw [filterMap_down, filterMap_up_eq xs hb]

/-- Upwards from one end is downwards from the other. -/
theorem filterMap_up_reverse (a b : Int) : (up a b).filterMap (elemAt xs.reverse) =
      (down (xs.length - 1 - a) (xs.length - 1 - b)).filterMap (elemAt xs) := by
  obtain ⟨n, hn⟩ : ∃ n : Nat, (b + 1 - a).toNat = n := ⟨_, rfl⟩
  induction n generalizing a with
  | zero => rw [up_nil (by omega), down_nil (by omega)]; rfl
  | succ n ih =>
    have hrest := ih (a + 1) (by omega)
    have hnext : (xs.length : Int) - 1 - (a + 1) = xs.length - 1 - a - 1 := by omega
    rw [hnext] at hrest
    rw [up_cons (by omega), down_cons (by omega), List.filterMap_cons, List.filterMap_cons,
      elemAt_reverse, hrest]

/-! ### Both directions -/

theorem span_of_le (h : m ≤ k) : span m k = up m k := if_pos h

/-- A single position is the same in both directions. -/
theorem span_of_ge (h : k ≤ m) : span m k = down m k := by
  unfold span
  split
  · obtain rfl : m = k := by omega
    rw [up_cons (Int.le_refl m), up_nil (by omega), down_cons (Int.le_refl m), down_nil (by omega)]
  · rfl

@[simp] theorem mem_span : i ∈ span m k ↔ m ≤ i ∧ i ≤ k ∨ k ≤ i ∧ i ≤ m := by
  unfold span
  split
  · rw [mem_up]
    omega
  · rw [mem_down]
    omega

@[simp] theorem length_span (m k : Int) : (span m k).length = (k - m).natAbs + 1 := by
  unfold span
  split
  · rw [length_up]
    omega
  · rw [length_down]
    omega

end

end Qore.Lib.Span
