import Mathlib.Order.Defs.Unbundled

/-!
# `Qore.Lib.Merging`: the order of equal elements in a merge

`List.merge` takes the element of the first list when the elements at the front compare equal. So
it keeps the order of the elements of a class (`filter_merge`), when the first list is sorted.

`SortedBy` and `Stable` say what a sort and a stable sort give. A sort that splits a list, sorts
the parts and merges them is stable (`Stable.merge`).
-/

set_option autoImplicit false

namespace Qore.Lib

section
variable {α : Type}

/-- The elements of `xs`, each as often, in the order `r`. -/
structure SortedBy (r : α → α → Prop) (out xs : List α) : Prop where
  perm : out.Perm xs
  pairwise : out.Pairwise r

/-- The elements of each class are in the same order as in `xs`. -/
def Stable (same : α → α → Bool) (out xs : List α) : Prop :=
  ∀ a, out.filter (same a) = xs.filter (same a)

variable {le : α → α → Bool} {xs : List α}

/-- When the front of `ys` goes first and is in the class `p`, no element of the sorted list
`x :: xs` is in it. -/
theorem filter_eq_nil_of_lt (trans : ∀ a b c, le a b → le b c → le a c) {p : α → Bool}
    (hp : ∀ a b, p a → p b → le a b) {x y : α} (hx : (x :: xs).Pairwise (le · ·)) (hlt : ¬le x y)
    (hy : p y) : (x :: xs).filter p = [] := by
  rw [List.filter_eq_nil_iff]
  intro z hz hpz
  have hzy : le z y := hp z y hpz hy
  rcases List.mem_cons.mp hz with rfl | hz
  · exact hlt hzy
  · exact hlt (trans x z y (List.rel_of_pairwise_cons hx hz) hzy)

/-- A merge keeps the order of the elements of a class. -/
theorem filter_merge (trans : ∀ a b c, le a b → le b c → le a c) {p : α → Bool}
    (hp : ∀ a b, p a → p b → le a b) (ys : List α) (hx : xs.Pairwise (le · ·)) :
    (List.merge xs ys le).filter p = xs.filter p ++ ys.filter p := by
  induction xs generalizing ys with
  | nil => rw [List.nil_merge, List.filter_nil, List.nil_append]
  | cons x xs ih =>
    induction ys with
    | nil => rw [List.merge_right, List.filter_nil, List.append_nil]
    | cons y ys ihy =>
      by_cases hle : le x y
      · rw [List.cons_merge_cons_pos _ _ _ hle, List.filter_cons, List.filter_cons,
          ih _ (List.Pairwise.of_cons hx)]
        split <;> rfl
      · rw [List.cons_merge_cons_neg _ _ _ hle]
        by_cases hy : p y
        · -- the class has no element in the first list, so its order is that of `y :: ys`
          have hnone := filter_eq_nil_of_lt trans hp hx hle hy
          rw [List.filter_cons_of_pos hy, ihy, hnone, List.nil_append, List.nil_append,
            List.filter_cons_of_pos hy]
        · rw [List.filter_cons_of_neg hy, List.filter_cons_of_neg hy, ihy]

theorem SortedBy.refl {r : α → α → Prop} (h : xs.length ≤ 1) : SortedBy r xs xs := by
  refine ⟨.refl _, ?_⟩
  rcases xs with _ | ⟨x, _ | ⟨y, ys⟩⟩
  · exact .nil
  · exact List.pairwise_singleton _ x
  · simp at h

theorem Stable.refl (same : α → α → Bool) (xs : List α) : Stable same xs xs := fun _ => rfl

section
variable {l r left right : List α}

/-- Sorted parts make a sorted list. -/
theorem SortedBy.merge (trans : ∀ a b c, le a b → le b c → le a c)
    (total : ∀ a b, le a b || le b a) (hl : SortedBy (le · ·) l left)
    (hr : SortedBy (le · ·) r right) :
    SortedBy (le · ·) (List.merge l r le) (left ++ right) :=
  ⟨(List.merge_perm_append le).trans (hl.perm.append hr.perm),
    List.pairwise_merge trans total l r hl.pairwise hr.pairwise⟩

/-- Stably sorted parts make a stably sorted list. -/
theorem Stable.merge {same : α → α → Bool} (trans : ∀ a b c, le a b → le b c → le a c)
    (hsame : ∀ a b c, same a b → same a c → le b c) (hsorted : l.Pairwise (le · ·))
    (hl : Stable same l left) (hr : Stable same r right) :
    Stable same (List.merge l r le) (left ++ right) := by
  intro a
  rw [filter_merge trans (hsame a) r hsorted, hl a, hr a, List.filter_append]

end

end

end Qore.Lib
