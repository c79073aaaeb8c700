import Mathlib.Logic.Relation
import Mathlib.Data.List.Basic
import Mathlib.Data.List.Count

/-!
# `Qore.Lib.Digraph`: components of a directed graph that grows edge by edge

`Reach`, `Same` and `OnCycle` are reachability, membership in one strongly connected
component, and membership in a component that contains a cycle, for any relation. A
vertex with no edge is in its own component and on no cycle.

A traversal sees a multigraph as a list of edges and adds one edge at a time to the front
of it. `Adj` reads such a list as a relation. The theorems say what one more edge
`(p, f)` changes:

* `reach_cons`: a new path goes through the new edge once.
* `same_cons` and `onCycle_cons`: the vertices on an old path from `f` to `p`
  (`Between`) become one component with a cycle; every other component stays.
-/

set_option autoImplicit false

namespace Qore.Lib.Digraph

variable {α : Type*}

/-- `b` is reachable from `a`, in any number of steps. -/
def Reach (R : α → α → Prop) : α → α → Prop := Relation.ReflTransGen R

/-- `a` and `b` are in one strongly connected component. -/
def Same (R : α → α → Prop) (a b : α) : Prop := Reach R a b ∧ Reach R b a

/-- `a` is on a cycle; one edge from `a` to itself is a cycle. -/
def OnCycle (R : α → α → Prop) (a : α) : Prop := ∃ b, R a b ∧ Reach R b a

/-- `x` is on a path from `f` to `p`. -/
def Between (R : α → α → Prop) (f p x : α) : Prop := Reach R f x ∧ Reach R x p

section
variable {R R' : α → α → Prop} {a b c : α}

theorem Reach.refl (R : α → α → Prop) (a : α) : Reach R a a := Relation.ReflTransGen.refl

theorem Reach.trans (h : Reach R a b) (h' : Reach R b c) : Reach R a c :=
  Relation.ReflTransGen.trans h h'

theorem Reach.of_edge (h : R a b) : Reach R a b := Relation.ReflTransGen.single h

theorem Reach.mono (hR : ∀ x y, R x y → R' x y) (h : Reach R a b) : Reach R' a b :=
  Relation.ReflTransGen.mono hR _ _ h

/-- A set that is closed under the edges is closed under reachability. -/
theorem Reach.closed {S : α → Prop} (hS : ∀ x y, R x y → S x → S y) (h : Reach R a b)
    (ha : S a) : S b := by
  induction h with
  | refl => exact ha
  | tail _ hbc ih => exact hS _ _ hbc ih

/-- On a closed set, two relations that agree there have the same paths. -/
theorem Reach.congr_on {S : α → Prop} (hS : ∀ x y, R x y → S x → S y)
    (hRR : ∀ x y, S x → R x y → R' x y) (h : Reach R a b) (ha : S a) : Reach R' a b := by
  induction h with
  | refl => exact Reach.refl R' a
  | tail hab hbc ih => exact ih.trans (Reach.of_edge (hRR _ _ (Reach.closed hS hab ha) hbc))

/-- A vertex without an edge out of it reaches only itself. -/
theorem Reach.eq_of_no_edge (hno : ∀ x, ¬ R a x) (h : Reach R a b) : a = b := by
  rcases Relation.ReflTransGen.cases_head h with rfl | ⟨c, hc, -⟩
  · rfl
  · exact absurd hc (hno c)

theorem Same.refl (R : α → α → Prop) (a : α) : Same R a a := ⟨Reach.refl R a, Reach.refl R a⟩

theorem Same.symm (h : Same R a b) : Same R b a := ⟨h.2, h.1⟩

theorem Same.trans (h : Same R a b) (h' : Same R b c) : Same R a c :=
  ⟨h.1.trans h'.1, h'.2.trans h.2⟩

/-- Two different vertices of one component are on a cycle. -/
theorem Same.onCycle (h : Same R a b) (hne : a ≠ b) : OnCycle R a := by
  rcases Relation.ReflTransGen.cases_head h.1 with rfl | ⟨c, hac, hcb⟩
  · exact absurd rfl hne
  · exact ⟨c, hac, Reach.trans hcb h.2⟩

/-- A component is on a cycle as a whole. -/
theorem OnCycle.of_same (h : OnCycle R a) (hs : Same R a b) : OnCycle R b := by
  by_cases hab : b = a
  · exact hab ▸ h
  · exact hs.symm.onCycle hab

/-- An edge inside one component puts its target on a cycle. -/
theorem OnCycle.of_edge (he : R a b) (hs : Same R a b) : OnCycle R b :=
  OnCycle.of_same ⟨b, he, hs.2⟩ hs

end

/-! ### One more edge -/

/-- The relation of an edge list. -/
def Adj (E : List (α × α)) (a b : α) : Prop := (a, b) ∈ E

section
variable {E : List (α × α)} {p f a b : α}

theorem Adj.cons (e : α × α) (x y : α) (h : Adj E x y) : Adj (e :: E) x y :=
  List.mem_cons_of_mem e h

theorem adj_cons_self : Adj ((p, f) :: E) p f := List.mem_cons_self

/-- A path in the larger graph either avoids the new edge, or reaches its source on old
edges and leaves its target on old edges. -/
theorem reach_cons :
    Reach (Adj ((p, f) :: E)) a b ↔
      Reach (Adj E) a b ∨ (Reach (Adj E) a p ∧ Reach (Adj E) f b) := by
  constructor
  · intro h
    induction h with
    | refl => exact Or.inl (Reach.refl _ a)
    | @tail b c _ hbc ih =>
      rcases List.mem_cons.mp hbc with heq | hold
      · obtain ⟨rfl, rfl⟩ := Prod.mk.inj heq
        rcases ih with hab | ⟨hap, -⟩
        · exact Or.inr ⟨hab, Reach.refl _ c⟩
        · exact Or.inr ⟨hap, Reach.refl _ c⟩
      · rcases ih with hab | ⟨hap, hfb⟩
        · exact Or.inl (hab.trans (Reach.of_edge hold))
        · exact Or.inr ⟨hap, hfb.trans (Reach.of_edge hold)⟩
  · rintro (h | ⟨hap, hfb⟩)
    · exact h.mono (Adj.cons _)
    · exact (hap.mono (Adj.cons _)).trans
        ((Reach.of_edge adj_cons_self).trans (hfb.mono (Adj.cons _)))

/-- The new edge merges the components on the old paths from its target to its source. -/
theorem same_cons :
    Same (Adj ((p, f) :: E)) a b ↔
      Same (Adj E) a b ∨ (Between (Adj E) f p a ∧ Between (Adj E) f p b) := by
  constructor
  · rintro ⟨hab, hba⟩
    rcases reach_cons.mp hab with h1 | ⟨hap, hfb⟩ <;>
      rcases reach_cons.mp hba with h2 | ⟨hbp, hfa⟩
    · exact Or.inl ⟨h1, h2⟩
    · exact Or.inr ⟨⟨hfa, h1.trans hbp⟩, ⟨hfa.trans h1, hbp⟩⟩
    · exact Or.inr ⟨⟨hfb.trans h2, hap⟩, ⟨hfb, h2.trans hap⟩⟩
    · exact Or.inr ⟨⟨hfa, hap⟩, ⟨hfb, hbp⟩⟩
  · rintro (h | ⟨⟨hfa, hap⟩, ⟨hfb, hbp⟩⟩)
    · exact ⟨h.1.mono (Adj.cons _), h.2.mono (Adj.cons _)⟩
    · exact ⟨reach_cons.mpr (Or.inr ⟨hap, hfb⟩), reach_cons.mpr (Or.inr ⟨hbp, hfa⟩)⟩

theorem same_cons_of_same (e : α × α) (h : Same (Adj E) a b) : Same (Adj (e :: E)) a b :=
  ⟨h.1.mono (Adj.cons e), h.2.mono (Adj.cons e)⟩

/-- The new edge puts the vertices between its target and its source on a cycle. -/
theorem onCycle_cons :
    OnCycle (Adj ((p, f) :: E)) a ↔ OnCycle (Adj E) a ∨ Between (Adj E) f p a := by
  constructor
  · rintro ⟨b, hab, hba⟩
    rcases reach_cons.mp hba with h | ⟨hbp, hfa⟩
    · rcases List.mem_cons.mp hab with heq | hold
      · obtain ⟨rfl, rfl⟩ := Prod.mk.inj heq
        exact Or.inr ⟨h, Reach.refl _ a⟩
      · exact Or.inl ⟨b, hold, h⟩
    · rcases List.mem_cons.mp hab with heq | hold
      · obtain ⟨rfl, rfl⟩ := Prod.mk.inj heq
        exact Or.inr ⟨hfa, Reach.refl _ a⟩
      · exact Or.inr ⟨hfa, (Reach.of_edge hold).trans hbp⟩
  · rintro (⟨b, hab, hba⟩ | ⟨hfa, hap⟩)
    · exact ⟨b, Adj.cons _ _ _ hab, hba.mono (Adj.cons _)⟩
    · rcases Relation.ReflTransGen.cases_head hap with rfl | ⟨c, hac, hcp⟩
      · exact ⟨f, adj_cons_self, hfa.mono (Adj.cons _)⟩
      · exact ⟨c, Adj.cons _ _ _ hac, reach_cons.mpr (Or.inr ⟨hcp, hfa⟩)⟩

/-- When the new edge closes no cycle, the components stay as they are. -/
theorem same_cons_of_not_reach (h : ¬ Reach (Adj E) f p) :
    Same (Adj ((p, f) :: E)) a b ↔ Same (Adj E) a b := by
  rw [same_cons]
  exact or_iff_left fun hb => h (hb.1.1.trans hb.1.2)

theorem onCycle_cons_of_not_reach (h : ¬ Reach (Adj E) f p) :
    OnCycle (Adj ((p, f) :: E)) a ↔ OnCycle (Adj E) a := by
  rw [onCycle_cons]
  exact or_iff_left fun hb => h (hb.1.trans hb.2)

end

end Qore.Lib.Digraph
