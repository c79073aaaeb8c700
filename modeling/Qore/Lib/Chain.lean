import Mathlib.Data.List.Induction
import Mathlib.Data.List.Nodup
import Mathlib.Logic.Function.Basic

/-!
# `Qore.Lib.Chain`: doubly linked lists in a memory of nodes

A memory gives for each address a node with a value and two links. `Linked nodes p l n` says
that the pairs of an address and a value in `l` are nodes that are linked in this order, where
the first node points back to `p` and the last one points on to `n`.

* `linked_append` cuts a chain in two.
* `Linked.update_off` is the frame rule: a write outside the chain keeps it.
* `Linked.relink_next` and `Linked.relink_prev` replace the link at one end.
-/

set_option autoImplicit false

namespace Qore.Lib.Chain

/-- A node of a doubly linked list. -/
structure Node (A V : Type*) where
  node : V
  prev : Option A
  next : Option A

variable {A V : Type*}

/-- The address of the first node, or what comes after an empty chain. -/
def first : List (A × V) → Option A → Option A
  | [], n => n
  | (a, _) :: _, _ => some a

/-- The address of the last node, or what comes before an empty chain. -/
def last : Option A → List (A × V) → Option A
  | p, [] => p
  | _, (a, _) :: l => last (some a) l

/-- The nodes of `l` are linked in both directions, from `p` to `n`. -/
def Linked (nodes : A → Option (Node A V)) : Option A → List (A × V) → Option A → Prop
  | _, [], _ => True
  | p, (a, v) :: l, n => nodes a = some ⟨v, p, first l n⟩ ∧ Linked nodes (some a) l n

theorem first_append (l m : List (A × V)) (n : Option A) :
    first (l ++ m) n = first l (first m n) := by
  cases l with
  | nil => rfl
  | cons x l => rfl

/-- What comes after a chain does not change its first node. -/
theorem first_concat_append (l m : List (A × V)) (x : A × V) (n n' : Option A) :
    first (l ++ [x] ++ m) n = first (l ++ [x]) n' := by
  cases l with
  | nil => rfl
  | cons y l => rfl

theorem last_append (l m : List (A × V)) (p : Option A) :
    last p (l ++ m) = last (last p l) m := by
  induction l generalizing p with
  | nil => rfl
  | cons x l ih =>
    show last (some x.1) (l ++ m) = last (last (some x.1) l) m
    exact ih (some x.1)

@[simp] theorem last_concat (l : List (A × V)) (a : A) (v : V) (p : Option A) :
    last p (l ++ [(a, v)]) = some a := by
  rw [last_append]
  rfl

/-- The first node of a list that is not empty. -/
theorem first_eq_none {l : List (A × V)} : first l none = none ↔ l = [] := by
  cases l with
  | nil => simp [first]
  | cons x l => simp [first]

variable {nodes : A → Option (Node A V)} {p n : Option A} {l m : List (A × V)}

/-- A chain is cut in two at any place. -/
theorem linked_append :
    Linked nodes p (l ++ m) n ↔ Linked nodes p l (first m n) ∧ Linked nodes (last p l) m n := by
  induction l generalizing p with
  | nil => simp [Linked, last]
  | cons x l ih =>
    show (nodes x.1 = some ⟨x.2, p, first (l ++ m) n⟩ ∧ Linked nodes (some x.1) (l ++ m) n) ↔
      (nodes x.1 = some ⟨x.2, p, first l (first m n)⟩ ∧ Linked nodes (some x.1) l (first m n)) ∧
        Linked nodes (last (some x.1) l) m n
    rw [ih, first_append, and_assoc]

/-- A chain depends on its own nodes only. -/
theorem Linked.congr {nodes' : A → Option (Node A V)}
    (heq : ∀ a ∈ l.map Prod.fst, nodes' a = nodes a) (h : Linked nodes p l n) :
    Linked nodes' p l n := by
  induction l generalizing p with
  | nil => trivial
  | cons x l ih =>
    have hx : nodes' x.1 = nodes x.1 := heq x.1 (by simp)
    exact ⟨hx.trans h.1, ih (fun a ha => heq a (List.mem_cons_of_mem _ ha)) h.2⟩

variable [DecidableEq A]

/-- A write outside the chain keeps it. -/
theorem Linked.update_off {a : A} (ha : a ∉ l.map Prod.fst) (x : Option (Node A V))
    (h : Linked nodes p l n) : Linked (Function.update nodes a x) p l n := by
  refine h.congr fun b hb => Function.update_of_ne ?_ _ _
  rintro rfl
  exact ha hb

/-- The last node gets another link to the next one. -/
theorem Linked.relink_next {a : A} {v : V} (ha : a ∉ l.map Prod.fst)
    (h : Linked nodes p (l ++ [(a, v)]) n) (n' : Option A) :
    Linked (Function.update nodes a ((nodes a).map fun w => { w with next := n' }))
      p (l ++ [(a, v)]) n' := by
  obtain ⟨hl, hlast, -⟩ := linked_append.mp h
  refine linked_append.mpr ⟨hl.update_off ha _, ?_, trivial⟩
  rw [Function.update_self, hlast]
  rfl

/-- The first node gets another link to the previous one. -/
theorem Linked.relink_prev {a : A} {v : V} (ha : a ∉ l.map Prod.fst)
    (h : Linked nodes p ((a, v) :: l) n) (p' : Option A) :
    Linked (Function.update nodes a ((nodes a).map fun w => { w with prev := p' }))
      p' ((a, v) :: l) n := by
  refine ⟨?_, h.2.update_off ha _⟩
  rw [Function.update_self, h.1]
  rfl

end Qore.Lib.Chain
