import Mathlib.Data.List.Chain
import Mathlib.Data.Fintype.Card
import Mathlib.Algebra.BigOperators.Group.Finset.Piecewise
import Mathlib.Algebra.Order.BigOperators.Group.Finset
import Qore.Lib.Digraph

/-!
# `Qore.Lib.Dfs`: depth-first traversal of a multigraph, one event at a time

`traversal` is the depth-first traversal of a multigraph `g` (for each vertex the list of
its successors, with repetitions) from a start vertex, written out as a list of events: a
reference to a vertex is followed, or the current vertex is left. A vertex without
successors is never entered. `run` replays the events on a `State`: the edges followed so
far, the visited vertices, and the current path, its last vertex first.

The path carries an invariant (`Inv`) that does not mention visiting times:

* `returns`: a vertex that reaches the path is in one component with a vertex of the path;
* `entering`: an edge that enters the component of a path vertex from outside is the path's
  own edge into that vertex, and it was followed once.

From it follow the two facts that an incremental component algorithm needs.
`Inv.between_iff`: an edge from the end of the path back to the component of the path vertex
`w` merges exactly the components of the path from `w` on. `Inv.internal_back`: it makes
internal exactly itself and the path's own edges between different components from `w` on.
`traversal_spec` says what a whole traversal has seen: the vertices reachable from the start,
and every edge out of them as often as the multigraph has it.
-/

set_option autoImplicit false

namespace Qore.Lib.Dfs

open Qore.Lib.Digraph

variable {α : Type*} {l : List α} {u w : α} {above below : List α} {E : List (α × α)} {p f : α}

/-- One event of a traversal. -/
inductive Event (α : Type*)
  | ref (f : α)
  | leave
  deriving DecidableEq

/-- What a traversal has seen so far. -/
structure State (α : Type*) where
  /-- The edges followed, the latest first. -/
  edges : List (α × α)
  /-- The vertices visited. -/
  visited : List α
  /-- The current path, the current vertex first. -/
  stack : List α

/-- The state before the first event. -/
def State.init : State α := ⟨[], [], []⟩

/-- The edges after a reference to `f` from the current vertex; the start vertex has no
edge into it. -/
def State.follow (s : State α) (f : α) : List (α × α) :=
  match s.stack with
  | [] => s.edges
  | p :: _ => (p, f) :: s.edges

/-- The multigraph as a relation. -/
def Refers (g : α → List α) (a b : α) : Prop := b ∈ g a

section
variable [DecidableEq α]

/-- One event. A reference to a new vertex visits it, and enters it when it has
successors. -/
def step (g : α → List α) (s : State α) : Event α → State α
  | .ref f =>
    if f ∈ s.visited then { s with edges := s.follow f }
    else if g f = [] then { s with edges := s.follow f, visited := f :: s.visited }
    else ⟨s.follow f, f :: s.visited, f :: s.stack⟩
  | .leave => { s with stack := s.stack.tail }

/-- The state after a list of events. -/
def run (g : α → List α) (s : State α) (es : List (Event α)) : State α := es.foldl (step g) s

/-- Visit the vertices of a list in order, collecting the events and the visited vertices. -/
def visitList (visit : List α → α → Option (List (Event α) × List α)) :
    List α → List α → Option (List (Event α) × List α)
  | [], vis => some ([], vis)
  | f :: fs, vis =>
    match visit vis f with
    | none => none
    | some (es, vis') =>
      match visitList visit fs vis' with
      | none => none
      | some (es', vis'') => some (es ++ es', vis'')

/-- The events of one depth-first visit, and the vertices visited after it. The number
bounds the depth. -/
def visit (g : α → List α) : Nat → List α → α → Option (List (Event α) × List α)
  | 0, _, _ => none
  | n + 1, vis, f =>
    if f ∈ vis then some ([.ref f], vis)
    else if g f = [] then some ([.ref f], f :: vis)
    else
      match visitList (visit g n) (g f) (f :: vis) with
      | none => none
      | some (es, vis') => some (.ref f :: (es ++ [.leave]), vis')

/-- The traversal from `start`. The depth bound is never reached (`visit_isSome`). -/
def traversal [Fintype α] (g : α → List α) (start : α) : List (Event α) :=
  match visit g (Fintype.card α + 1) [] start with
  | none => []
  | some (es, _) => es

end

/-! ### Lists -/

/-- A count splits along a stronger predicate. -/
theorem countP_split {β : Type*} (P Q : β → Bool) (hPQ : ∀ x, P x = true → Q x = true) :
    ∀ l : List β, l.countP Q = l.countP P + l.countP fun x => Q x && !P x := by
  intro l
  induction l with
  | nil => rfl
  | cons x l ih =>
    have hx := hPQ x
    simp only [List.countP_cons, ih]
    cases hP : P x with
    | true => simp [hx hP]; omega
    | false =>
      cases hQ : Q x with
      | true => simp; omega
      | false => simp

/-- A list without repetitions splits at an element in one way. -/
theorem split_unique {pre post pre' post' : List α} {x : α} (hl : l.Nodup)
    (h : l = pre ++ x :: post) (h' : l = pre' ++ x :: post') : pre = pre' ∧ post = post' := by
  have hnd := hl
  rw [h] at hnd
  have hpre : x ∉ pre := fun hm => List.disjoint_of_nodup_append hnd hm (by simp)
  have hpost : x ∉ post := (List.nodup_cons.mp (List.Nodup.of_append_right hnd)).1
  have hsplit : pre ++ x :: post = pre' ++ x :: post' := h.symm.trans h'
  obtain ⟨h1, -, h2⟩ := (List.append_cons_inj_of_notMem hpre hpost).mp hsplit
  exact ⟨h1, h2⟩

/-- The path predecessor of a vertex is unique. -/
theorem infix_unique (hl : l.Nodup) {a a' : α} (h : [u, a] <:+: l) (h' : [u, a'] <:+: l) :
    a = a' := by
  obtain ⟨pre, post, hpre⟩ := h
  obtain ⟨pre', post', hpre'⟩ := h'
  have h1 : l = pre ++ u :: a :: post := by simp [← hpre]
  have h2 : l = pre' ++ u :: a' :: post' := by simp [← hpre']
  have hpost := (split_unique hl h1 h2).2
  exact (List.cons.inj hpost).1

/-- The last element of a path has no predecessor in it. -/
theorem not_infix_last {a : α} (hl : (l ++ [u]).Nodup) : ¬ [u, a] <:+: l ++ [u] := by
  rintro ⟨pre, post, hpre⟩
  have h1 : l ++ [u] = pre ++ u :: a :: post := by simp [← hpre]
  have hpost := (split_unique hl rfl h1).2
  simp at hpost

/-- An element before the last has a predecessor in the path. -/
theorem exists_infix_of_mem (hu : u ∈ l) : ∃ a, [u, a] <:+: l ++ [w] := by
  obtain ⟨pre, post, rfl⟩ := List.append_of_mem hu
  cases post with
  | nil => exact ⟨w, pre, [], by simp⟩
  | cons a post => exact ⟨a, pre, post ++ [w], by simp⟩

/-- The first element of a list with a property. -/
theorem exists_first {P : α → Prop} (h : ∃ w ∈ l, P w) :
    ∃ above w below, l = above ++ w :: below ∧ P w ∧ ∀ v ∈ above, ¬ P v := by
  induction l with
  | nil => simp at h
  | cons x l ih =>
    by_cases hx : P x
    · exact ⟨[], x, l, rfl, hx, by simp⟩
    · obtain ⟨w, hw, hP⟩ := h
      have hwl : w ∈ l := (List.mem_cons.mp hw).resolve_left fun heq => hx (heq ▸ hP)
      obtain ⟨above, w', below, rfl, hw', hno⟩ := ih ⟨w, hwl, hP⟩
      refine ⟨x :: above, w', below, rfl, hw', fun v hv => ?_⟩
      cases List.mem_cons.mp hv with
      | inl heq => exact heq ▸ hx
      | inr hv => exact hno v hv

/-- The part before the first element with a property is unique. -/
theorem first_unique {P : α → Prop} {above' below' : List α} {w' : α}
    (h : above ++ w :: below = above' ++ w' :: below') (hw : P w) (hno : ∀ v ∈ above, ¬ P v)
    (hw' : P w') (hno' : ∀ v ∈ above', ¬ P v) : above = above' := by
  induction above generalizing above' with
  | nil =>
    cases above' with
    | nil => rfl
    | cons x above' =>
      obtain ⟨rfl, -⟩ := List.cons.inj h
      exact absurd hw (hno' w (by simp))
  | cons x above ih =>
    cases above' with
    | nil =>
      obtain ⟨rfl, -⟩ := List.cons.inj h
      exact absurd hw' (hno x (by simp))
    | cons x' above' =>
      obtain ⟨rfl, htail⟩ := List.cons.inj h
      rw [ih htail (fun v hv => hno v (List.mem_cons_of_mem _ hv))
        fun v hv => hno' v (List.mem_cons_of_mem _ hv)]

/-! ### Internal edges

An edge is internal when it stays inside one component. `internal E u` counts the internal
edges into `u`. -/

open Classical in
/-- The edge `e` goes into `u` from the component of `u`. -/
noncomputable def isInternal (E : List (α × α)) (u : α) (e : α × α) : Bool :=
  decide (e.2 = u ∧ Same (Adj E) e.1 u)

/-- The number of edges into `u` from its own component. -/
noncomputable def internal (E : List (α × α)) (u : α) : Nat := E.countP (isInternal E u)

theorem isInternal_iff {e : α × α} : isInternal E u e = true ↔ e.2 = u ∧ Same (Adj E) e.1 u := by
  simp only [isInternal, decide_eq_true_eq]

/-- A vertex off every cycle has no internal edge. -/
theorem internal_eq_zero (h : ¬ OnCycle (Adj E) u) : internal E u = 0 := by
  rw [internal, List.countP_eq_zero]
  rintro ⟨a, b⟩ hab hint
  obtain ⟨rfl, hs⟩ := isInternal_iff.mp hint
  exact h (OnCycle.of_edge hab hs)

/-- An edge that closes no cycle makes no edge internal. -/
theorem internal_of_not_reach (h : ¬ Reach (Adj E) f p) (u : α) :
    internal ((p, f) :: E) u = internal E u := by
  have hsame : ∀ e, isInternal ((p, f) :: E) u e = isInternal E u e := fun e => by
    rw [Bool.eq_iff_iff, isInternal_iff, isInternal_iff, same_cons_of_not_reach h]
  have hpf : isInternal E u (p, f) = false := by
    rw [Bool.eq_false_iff]
    intro hint
    obtain ⟨rfl, hs⟩ := isInternal_iff.mp hint
    exact h hs.2
  rw [internal, internal, List.countP_cons, hsame (p, f), hpf]
  simp [funext hsame]

/-! ### The invariant of the path -/

/-- The invariant of a traversal, over its edges, visited vertices and path. -/
structure Inv (s : State α) [DecidableEq α] : Prop where
  nodup : s.stack.Nodup
  chain : s.stack.IsChain fun c d => (d, c) ∈ s.edges
  stack_visited : ∀ v ∈ s.stack, v ∈ s.visited
  edge_visited : ∀ a b, (a, b) ∈ s.edges → a ∈ s.visited ∧ b ∈ s.visited
  returns : ∀ u, ∀ v ∈ s.stack, Reach (Adj s.edges) u v → ∃ w ∈ s.stack, Same (Adj s.edges) u w
  entering : ∀ a b, (a, b) ∈ s.edges → ¬ Same (Adj s.edges) a b →
    (∃ v ∈ s.stack, Same (Adj s.edges) b v) → [b, a] <:+: s.stack ∧ s.edges.count (a, b) = 1

/-- Along a chain of edges, every vertex reaches the first one. -/
theorem reach_head_of_chain : ∀ (p : α) (l : List α), (p :: l).IsChain (fun c d => (d, c) ∈ E) →
      ∀ v ∈ p :: l, Reach (Adj E) v p := by
  intro p l
  induction l generalizing p with
  | nil =>
    intro _ v hv
    rw [List.mem_singleton.mp hv]
    exact Reach.refl _ p
  | cons d l ih =>
    intro h v hv
    rw [List.isChain_cons_cons] at h
    rcases List.mem_cons.mp hv with rfl | hv
    · exact Reach.refl _ v
    · exact (ih d h.2 v hv).trans (Reach.of_edge h.1)

variable [DecidableEq α] {s : State α} {rest : List α} (g : α → List α)

/-- A vertex of the path reaches every vertex that is later on the path. -/
theorem Inv.reach_of_split (h : Inv s) (hs : s.stack = above ++ w :: below) {v : α}
    (hv : v ∈ w :: below) (hu : u ∈ above ++ [w]) : Reach (Adj s.edges) v u := by
  have hc := h.chain
  rw [hs] at hc
  have hvw : Reach (Adj s.edges) v w :=
    reach_head_of_chain w below (List.isChain_append.mp hc).2.1 v hv
  rcases List.mem_append.mp hu with hu | hu
  · obtain ⟨pre, post, rfl⟩ := List.append_of_mem hu
    have hc' : (u :: (post ++ w :: below)).IsChain fun c d => (d, c) ∈ s.edges := by
      rw [List.append_assoc, List.cons_append] at hc
      exact (List.isChain_append.mp hc).2.1
    exact hvw.trans (reach_head_of_chain u _ hc' w (by simp))
  · rw [List.mem_singleton.mp hu]
    exact hvw

/-- Every vertex of the path reaches its end. -/
theorem Inv.reach_top (h : Inv s) (hs : s.stack = p :: rest) {v : α} (hv : v ∈ s.stack) :
    Reach (Adj s.edges) v p := by
  have hc := h.chain
  rw [hs] at hc hv
  exact reach_head_of_chain p rest hc v hv

/-- An edge back to the component of the path vertex `w` merges exactly the components of
the path from `w` to its end. -/
theorem Inv.between_iff (h : Inv s) (hp : s.stack = p :: rest) (hs : s.stack = above ++ w :: below)
    (hf : Same (Adj s.edges) f w) (x : α) :
    Between (Adj s.edges) f p x ↔ ∃ v ∈ above ++ [w], Same (Adj s.edges) x v := by
  have hmem : ∀ v ∈ above ++ [w], v ∈ s.stack := by
    intro v hv
    rw [hs]
    rcases List.mem_append.mp hv with hv | hv
    · exact List.mem_append_left _ hv
    · exact List.mem_append_right _ (by simp [List.mem_singleton.mp hv])
  constructor
  · rintro ⟨hfx, hxp⟩
    obtain ⟨v, hv, hxv⟩ := h.returns x p (by simp [hp]) hxp
    by_cases hseg : v ∈ above ++ [w]
    · exact ⟨v, hseg, hxv⟩
    · -- `v` is before `w`: then `x` is in the component of `w` already.
      have hvb : v ∈ w :: below := by
        rw [hs] at hv
        simp only [List.mem_append, List.mem_cons, not_or] at hv hseg ⊢
        tauto
      have hvw : Reach (Adj s.edges) v w := h.reach_of_split hs hvb (by simp)
      exact ⟨w, by simp, ⟨hxv.1.trans hvw, hf.2.trans hfx⟩⟩
  · rintro ⟨v, hv, hxv⟩
    have hwv : Reach (Adj s.edges) w v := h.reach_of_split hs (by simp) hv
    exact ⟨hf.1.trans (hwv.trans hxv.2), hxv.1.trans (h.reach_top hp (hmem v hv))⟩

/-- A vertex whose component is not on the path does not reach the path. -/
theorem Inv.not_reach (h : Inv s) (hp : s.stack = p :: rest)
    (hf : ∀ w ∈ s.stack, ¬ Same (Adj s.edges) f w) : ¬ Reach (Adj s.edges) f p := by
  intro hr
  obtain ⟨w, hw, hfw⟩ := h.returns f p (by simp [hp]) hr
  exact hf w hw hfw

/-! ### The events keep the invariant -/

/-- A vertex that reaches the path in the larger graph reached it before. -/
theorem Inv.returns_cons (h : Inv s) (hp : s.stack = p :: rest) (f : α) {v : α} (hv : v ∈ s.stack)
    (hr : Reach (Adj ((p, f) :: s.edges)) u v) :
    ∃ w ∈ s.stack, Same (Adj ((p, f) :: s.edges)) u w := by
  obtain ⟨w, hw, hs⟩ : ∃ w ∈ s.stack, Same (Adj s.edges) u w := by
    rcases reach_cons.mp hr with hr | ⟨hr, -⟩
    · exact h.returns u v hv hr
    · exact h.returns u p (by simp [hp]) hr
  exact ⟨w, hw, same_cons_of_same _ hs⟩

/-- Following an edge to a visited vertex. When the edge closes a cycle, it is inside the
merged component; otherwise no component changes and the edge enters no component of the
path. -/
theorem Inv.follow_visited (h : Inv s) (hp : s.stack = p :: rest) (hf : f ∈ s.visited) :
    Inv { s with edges := (p, f) :: s.edges } where
  nodup := h.nodup
  chain := h.chain.imp fun _ _ hcd => List.mem_cons_of_mem _ hcd
  stack_visited := h.stack_visited
  edge_visited a b hab := by
    rcases List.mem_cons.mp hab with heq | hab
    · obtain ⟨rfl, rfl⟩ := Prod.mk.inj heq
      exact ⟨h.stack_visited a (by simp [hp]), hf⟩
    · exact h.edge_visited a b hab
  returns u v hv hr := h.returns_cons hp f hv hr
  entering a b hab hns hin := by
    by_cases hr : Reach (Adj s.edges) f p
    · -- The new edge is internal, so `(a, b)` is an old edge of an old component.
      have hpf : Same (Adj ((p, f) :: s.edges)) p f :=
        same_cons.mpr (Or.inr ⟨⟨hr, Reach.refl _ p⟩, ⟨Reach.refl _ f, hr⟩⟩)
      have hne : (a, b) ≠ (p, f) := fun heq => by
        obtain ⟨rfl, rfl⟩ := Prod.mk.inj heq
        exact hns hpf
      have hold : (a, b) ∈ s.edges := List.mem_of_ne_of_mem hne hab
      have hin' : ∃ v ∈ s.stack, Same (Adj s.edges) b v := by
        obtain ⟨v, hv, hbv⟩ := hin
        rcases same_cons.mp hbv with hbv | ⟨hb, -⟩
        · exact ⟨v, hv, hbv⟩
        · exact h.returns b p (by simp [hp]) hb.2
      obtain ⟨hinf, hcount⟩ := h.entering a b hold (fun hs => hns (same_cons_of_same _ hs)) hin'
      exact ⟨hinf, by rw [List.count_cons_of_ne hne.symm, hcount]⟩
    · rw [same_cons_of_not_reach hr] at hns
      obtain ⟨v, hv, hbv⟩ := hin
      rw [same_cons_of_not_reach hr] at hbv
      have hne : (a, b) ≠ (p, f) := fun heq => by
        obtain ⟨rfl, rfl⟩ := Prod.mk.inj heq
        exact hr (hbv.1.trans (h.reach_top hp hv))
      have hold : (a, b) ∈ s.edges := List.mem_of_ne_of_mem hne hab
      obtain ⟨hinf, hcount⟩ := h.entering a b hold hns ⟨v, hv, hbv⟩
      exact ⟨hinf, by rw [List.count_cons_of_ne hne.symm, hcount]⟩

/-- A vertex that is not visited has no edge yet. -/
theorem Inv.isolated (h : Inv s) (hf : f ∉ s.visited) {x : α} :
    (f, x) ∉ s.edges ∧ (x, f) ∉ s.edges :=
  ⟨fun he => hf (h.edge_visited _ _ he).1, fun he => hf (h.edge_visited _ _ he).2⟩

theorem Inv.reach_new (h : Inv s) {x : α} (hf : f ∉ s.visited) (hr : Reach (Adj s.edges) f x) :
    f = x :=
  Reach.eq_of_no_edge (fun _ he => (h.isolated hf).1 he) hr

/-- Following an edge to a new vertex merges nothing. -/
theorem Inv.not_reach_new (h : Inv s) (hp : s.stack = p :: rest) (hf : f ∉ s.visited) :
    ¬ Reach (Adj s.edges) f p := by
  intro hr
  have hfp : f = p := h.reach_new hf hr
  exact hf (hfp ▸ h.stack_visited p (by simp [hp]))

/-- Following an edge to a new vertex that is not entered. -/
theorem Inv.follow_leaf (h : Inv s) (hp : s.stack = p :: rest) (hf : f ∉ s.visited) :
    Inv ⟨(p, f) :: s.edges, f :: s.visited, s.stack⟩ where
  nodup := h.nodup
  chain := h.chain.imp fun _ _ hcd => List.mem_cons_of_mem _ hcd
  stack_visited v hv := List.mem_cons_of_mem _ (h.stack_visited v hv)
  edge_visited a b hab := by
    rcases List.mem_cons.mp hab with heq | hab
    · obtain ⟨rfl, rfl⟩ := Prod.mk.inj heq
      exact ⟨List.mem_cons_of_mem _ (h.stack_visited a (by simp [hp])), by simp⟩
    · obtain ⟨ha, hb⟩ := h.edge_visited a b hab
      exact ⟨List.mem_cons_of_mem _ ha, List.mem_cons_of_mem _ hb⟩
  returns u v hv hr := h.returns_cons hp f hv hr
  entering a b hab hns hin := by
    have hr := h.not_reach_new hp hf
    rw [same_cons_of_not_reach hr] at hns
    obtain ⟨v, hv, hbv⟩ := hin
    rw [same_cons_of_not_reach hr] at hbv
    have hne : (a, b) ≠ (p, f) := fun heq => by
      obtain ⟨rfl, rfl⟩ := Prod.mk.inj heq
      exact hr (hbv.1.trans (h.reach_top hp hv))
    have hold : (a, b) ∈ s.edges := List.mem_of_ne_of_mem hne hab
    obtain ⟨hinf, hcount⟩ := h.entering a b hold hns ⟨v, hv, hbv⟩
    exact ⟨hinf, by rw [List.count_cons_of_ne hne.symm, hcount]⟩

/-- Entering a new vertex: its only edge is the one just followed. -/
theorem Inv.follow_enter (h : Inv s) (hp : s.stack = p :: rest) (hf : f ∉ s.visited) :
    Inv ⟨(p, f) :: s.edges, f :: s.visited, f :: s.stack⟩ where
  nodup := List.nodup_cons.mpr ⟨fun hm => hf (h.stack_visited f hm), h.nodup⟩
  chain := by
    have hc : s.stack.IsChain fun c d => (d, c) ∈ (p, f) :: s.edges :=
      h.chain.imp fun _ _ hcd => List.mem_cons_of_mem _ hcd
    rw [hp] at hc ⊢
    exact List.isChain_cons_cons.mpr ⟨by simp, hc⟩
  stack_visited v hv := by
    rcases List.mem_cons.mp hv with rfl | hv
    · simp
    · exact List.mem_cons_of_mem _ (h.stack_visited v hv)
  edge_visited := (h.follow_leaf hp hf).edge_visited
  returns u v hv hr := by
    rcases List.mem_cons.mp hv with rfl | hv
    · rcases reach_cons.mp hr with hr | ⟨hr, -⟩
      · -- Only the new vertex itself reached it before.
        have huv : u = v := by
          rcases Relation.ReflTransGen.cases_tail hr with heq | ⟨c, -, hc⟩
          · exact heq.symm
          · exact absurd hc (h.isolated hf).2
        exact ⟨v, by simp, huv ▸ Same.refl _ u⟩
      · obtain ⟨w, hw, hs⟩ := h.returns u p (by simp [hp]) hr
        exact ⟨w, List.mem_cons_of_mem _ hw, same_cons_of_same _ hs⟩
    · obtain ⟨w, hw, hs⟩ := h.returns_cons hp f hv hr
      exact ⟨w, List.mem_cons_of_mem _ hw, hs⟩
  entering a b hab hns hin := by
    have hr := h.not_reach_new hp hf
    by_cases hbf : b = f
    · subst hbf
      -- The edge just followed is the only edge into the new vertex.
      have hap : a = p := by
        rcases List.mem_cons.mp hab with heq | hab
        · exact (Prod.mk.inj heq).1
        · exact absurd hab (h.isolated hf).2
      subst hap
      refine ⟨⟨[], rest, by simp [hp]⟩, ?_⟩
      rw [List.count_cons_self, List.count_eq_zero.mpr (h.isolated hf).2]
    · obtain ⟨v, hv, hbv⟩ := hin
      have hbv' : Same (Adj s.edges) b v := (same_cons_of_not_reach hr).mp hbv
      have hvs : v ∈ s.stack := by
        rcases List.mem_cons.mp hv with rfl | hv
        · exact absurd (h.reach_new hf hbv'.2).symm hbf
        · exact hv
      obtain ⟨hinf, hcount⟩ := (h.follow_leaf hp hf).entering a b hab hns ⟨v, hvs, hbv⟩
      exact ⟨List.infix_cons hinf, hcount⟩

/-- Leaving the current vertex: a component that reaches the rest of the path has a vertex
there. -/
theorem Inv.leave (h : Inv s) : Inv { s with stack := s.stack.tail } := by
  cases hs : s.stack with
  | nil =>
    have heq : ({ s with stack := [] } : State α) = s := by rw [← hs]
    simpa [heq] using h
  | cons p rest =>
    have hc := h.chain
    rw [hs] at hc
    have hmem : ∀ v ∈ rest, v ∈ s.stack := fun v hv => by rw [hs]; exact List.mem_cons_of_mem _ hv
    -- A vertex of the rest that the current vertex reaches is in its component.
    have hback : ∀ v ∈ rest, Reach (Adj s.edges) p v → Same (Adj s.edges) p v :=
      fun v hv hr => ⟨hr, h.reach_top hs (hmem v hv)⟩
    refine ⟨?_, hc.tail, fun v hv => h.stack_visited v (hmem v hv), h.edge_visited, ?_, ?_⟩
    · exact (List.nodup_cons.mp (hs ▸ h.nodup)).2
    · intro u v hv hr
      obtain ⟨w, hw, huw⟩ := h.returns u v (hmem v hv) hr
      rw [hs] at hw
      rcases List.mem_cons.mp hw with rfl | hw
      · exact ⟨v, hv, huw.trans (hback v hv (huw.2.trans hr))⟩
      · exact ⟨w, hw, huw⟩
    · rintro a b hab hns ⟨v, hv, hbv⟩
      obtain ⟨hinf, hcount⟩ := h.entering a b hab hns ⟨v, hmem v hv, hbv⟩
      refine ⟨?_, hcount⟩
      rw [hs] at hinf
      rcases List.infix_cons_iff.mp hinf with hpre | hinf
      · -- The edge into the current vertex: `b` reaches `v`, and `v` reaches `a`.
        obtain ⟨t, ht⟩ := hpre
        obtain ⟨rfl, hrest⟩ : b = p ∧ a :: t = rest := by simpa using ht
        subst hrest
        have hva : Reach (Adj s.edges) v a := reach_head_of_chain a t hc.tail v hv
        exact absurd ⟨Reach.of_edge hab, hbv.1.trans hva⟩ hns
      · exact hinf

/-- Following a reference with an empty path: the traversal starts, or nothing happens. -/
theorem Inv.start (h : Inv s) (hf : f ∉ s.visited) : Inv ⟨s.edges, f :: s.visited, [f]⟩ where
  nodup := by simp
  chain := by simp
  stack_visited v hv := by simp [List.mem_singleton.mp hv]
  edge_visited a b hab := by
    obtain ⟨ha, hb⟩ := h.edge_visited a b hab
    exact ⟨List.mem_cons_of_mem _ ha, List.mem_cons_of_mem _ hb⟩
  returns u v hv hr := by
    rw [List.mem_singleton.mp hv] at hr
    rcases Relation.ReflTransGen.cases_tail hr with heq | ⟨c, -, hc⟩
    · exact ⟨f, by simp, heq ▸ Same.refl (Adj s.edges) f⟩
    · exact absurd hc (h.isolated hf).2
  entering a b hab _ hin := by
    obtain ⟨v, hv, hbv⟩ := hin
    rw [List.mem_singleton.mp hv] at hbv
    have hbf : f = b := h.reach_new hf hbv.2
    subst hbf
    exact absurd hab (h.isolated hf).2

theorem Inv.start_leaf (h : Inv s) (hs : s.stack = []) (f : α) :
    Inv ⟨s.edges, f :: s.visited, s.stack⟩ where
  nodup := h.nodup
  chain := h.chain
  stack_visited v hv := by simp [hs] at hv
  edge_visited a b hab := by
    obtain ⟨ha, hb⟩ := h.edge_visited a b hab
    exact ⟨List.mem_cons_of_mem _ ha, List.mem_cons_of_mem _ hb⟩
  returns u v hv _ := by simp [hs] at hv
  entering a b _ _ hin := by
    obtain ⟨v, hv, -⟩ := hin
    simp [hs] at hv

/-- Every event keeps the invariant. -/
theorem Inv.step (h : Inv s) (g : α → List α) (e : Event α) : Inv (step g s e) := by
  cases e with
  | leave => exact h.leave
  | ref f =>
    cases hs : s.stack with
    | nil =>
      have hfol : s.follow f = s.edges := by simp [State.follow, hs]
      simp only [Dfs.step, hfol]
      split
      · exact h
      · rename_i hf
        split
        · exact h.start_leaf hs f
        · rw [hs]
          exact h.start hf
    | cons p rest =>
      have hfol : s.follow f = (p, f) :: s.edges := by simp [State.follow, hs]
      simp only [Dfs.step, hfol]
      split
      · exact h.follow_visited hs ‹_›
      · split
        · exact h.follow_leaf hs ‹_›
        · exact h.follow_enter hs ‹_›

theorem Inv.init : Inv (State.init : State α) where
  nodup := List.nodup_nil
  chain := List.isChain_nil
  stack_visited v hv := by simp [State.init] at hv
  edge_visited a b hab := by simp [State.init] at hab
  returns u v hv _ := by simp [State.init] at hv
  entering a b hab _ _ := by simp [State.init] at hab

/-- A run of events keeps the invariant. -/
theorem Inv.run (es : List (Event α)) : ∀ s : State α, Inv s → Inv (run g s es) := by
  induction es with
  | nil => intro s h; exact h
  | cons e es ih => intro s h; exact ih _ (h.step g e)

/-- The edge of the path that enters `u` between the components from `w` on. -/
def Crossing (E : List (α × α)) (seg : List α) (u : α) : Prop :=
  ∃ a, [u, a] <:+: seg ∧ ¬ Same (Adj E) a u

/-- Two neighbours on the path that both lie between the target and the source of a closing
edge, in different components, are neighbours in the segment from `w` on. -/
theorem Inv.infix_segment (h : Inv s) {a : α} (hp : s.stack = p :: rest)
    (hs : s.stack = above ++ w :: below) (hf : Same (Adj s.edges) f w) (hua : [u, a] <:+: s.stack)
    (hns : ¬ Same (Adj s.edges) a u) (ha : Between (Adj s.edges) f p a) :
    [u, a] <:+: above ++ [w] := by
  obtain ⟨pre, post, heq⟩ := hua
  have hsplit : s.stack = (pre ++ [u]) ++ a :: post := by simp [← heq]
  have hmem : a ∈ above ++ w :: below := by rw [← hs, hsplit]; simp
  have hcases : a ∈ above ++ [w] ∨ a ∈ below := by
    simp only [List.mem_append, List.mem_cons, List.not_mem_nil, or_false] at hmem ⊢
    tauto
  cases hcases with
  | inl hseg =>
    obtain ⟨c1, c2, hc⟩ := List.append_of_mem hseg
    have hfull : s.stack = c1 ++ a :: (c2 ++ below) := by
      rw [hs, show above ++ w :: below = (above ++ [w]) ++ below by simp, hc]
      simp
    obtain ⟨rfl, -⟩ := split_unique h.nodup hsplit hfull
    exact ⟨pre, c2, by simp [hc]⟩
  | inr hbelow =>
    -- `a` is before `w`, and so is `u`: both are in the component of `w`.
    exfalso
    obtain ⟨b1, b2, rfl⟩ := List.append_of_mem hbelow
    have hfull : s.stack = (above ++ w :: b1) ++ a :: b2 := by rw [hs]; simp
    have hu : u ∈ w :: b1 := by
      have hl := congrArg List.getLast? (split_unique h.nodup hsplit hfull).1
      rw [List.getLast?_append_cons, List.getLast?_append_cons] at hl
      exact List.mem_of_getLast? hl.symm
    obtain ⟨v, hv, hav⟩ := (h.between_iff hp hs hf a).mp ha
    have hwa : Reach (Adj s.edges) w a := (h.reach_of_split hs (by simp) hv).trans hav.2
    have huw : Reach (Adj s.edges) u w := by
      refine h.reach_of_split hs ?_ (by simp)
      simp only [List.mem_cons, List.mem_append] at hu ⊢
      tauto
    exact hns ⟨h.reach_of_split hsplit (by simp) (by simp), huw.trans hwa⟩

open Classical in
/-- A closing edge makes internal exactly itself and the edges of the path that cross
between components from `w` on. -/
theorem Inv.internal_back (h : Inv s) (hp : s.stack = p :: rest)
    (hs : s.stack = above ++ w :: below) (hf : Same (Adj s.edges) f w) (u : α) :
    internal ((p, f) :: s.edges) u = internal s.edges u + (if u = f then 1 else 0) +
      (if Crossing s.edges (above ++ [w]) u then 1 else 0) := by
  have hfp : Reach (Adj s.edges) f p :=
    hf.1.trans (h.reach_top hp (by rw [hs]; simp))
  have hnew : isInternal ((p, f) :: s.edges) u (p, f) = decide (u = f) := by
    rw [Bool.eq_iff_iff, isInternal_iff, decide_eq_true_eq]
    constructor
    · exact fun hi => hi.1.symm
    · rintro rfl
      exact ⟨rfl, same_cons.mpr (Or.inr ⟨⟨hfp, Reach.refl _ p⟩, ⟨Reach.refl _ u, hfp⟩⟩)⟩
  -- The old edges split into the internal ones and those that become internal now.
  have hold : ∀ e, isInternal s.edges u e = true →
      isInternal ((p, f) :: s.edges) u e = true := fun e hi => by
    obtain ⟨h1, h2⟩ := isInternal_iff.mp hi
    exact isInternal_iff.mpr ⟨h1, same_cons_of_same _ h2⟩
  have hcross : (s.edges.countP fun e =>
      isInternal ((p, f) :: s.edges) u e && !isInternal s.edges u e) =
        if Crossing s.edges (above ++ [w]) u then 1 else 0 := by
    have hbecome : ∀ a b, (a, b) ∈ s.edges →
        ((isInternal ((p, f) :: s.edges) u (a, b) && !isInternal s.edges u (a, b)) = true ↔
          b = u ∧ [u, a] <:+: above ++ [w] ∧ ¬ Same (Adj s.edges) a u) := by
      intro a b hab
      rw [Bool.and_eq_true, Bool.not_eq_true', Bool.eq_false_iff, ne_eq, isInternal_iff,
        isInternal_iff]
      constructor
      · rintro ⟨⟨rfl, hnew⟩, hno⟩
        have hns : ¬ Same (Adj s.edges) a b := fun hs' => hno ⟨rfl, hs'⟩
        obtain ⟨ha, hb⟩ := (same_cons.mp hnew).resolve_left hns
        have hin := h.returns b p (by simp [hp]) hb.2
        exact ⟨rfl, h.infix_segment hp hs hf (h.entering a b hab hns hin).1 hns ha, hns⟩
      · rintro ⟨rfl, hinf, hns⟩
        have hmem : a ∈ above ++ [w] ∧ b ∈ above ++ [w] :=
          ⟨hinf.subset (by simp), hinf.subset (by simp)⟩
        refine ⟨⟨rfl, same_cons.mpr (Or.inr ⟨?_, ?_⟩)⟩, fun hs' => hns hs'.2⟩
        · exact (h.between_iff hp hs hf a).mpr ⟨a, hmem.1, Same.refl _ a⟩
        · exact (h.between_iff hp hs hf b).mpr ⟨b, hmem.2, Same.refl _ b⟩
    have hseg : above ++ [w] <:+: s.stack := ⟨[], below, by rw [hs]; simp⟩
    by_cases hc : Crossing s.edges (above ++ [w]) u
    · obtain ⟨a, hinf, hns⟩ := hc
      rw [if_pos ⟨a, hinf, hns⟩]
      have hau : (a, u) ∈ s.edges := by
        have hch := h.chain.infix (hinf.trans hseg)
        simpa using hch
      have hin : ∃ v ∈ s.stack, Same (Adj s.edges) u v :=
        ⟨u, (hinf.trans hseg).subset (by simp), Same.refl _ u⟩
      rw [← (h.entering a u hau hns hin).2, List.count]
      refine List.countP_congr ?_
      rintro ⟨a', b⟩ hab
      rw [hbecome a' b hab, beq_iff_eq, Prod.mk.injEq]
      constructor
      · rintro ⟨rfl, hinf', -⟩
        exact ⟨infix_unique h.nodup (hinf'.trans hseg) (hinf.trans hseg), rfl⟩
      · rintro ⟨rfl, rfl⟩
        exact ⟨rfl, hinf, hns⟩
    · rw [if_neg hc, List.countP_eq_zero]
      rintro ⟨a, b⟩ hab hi
      obtain ⟨-, hinf, hns⟩ := (hbecome a b hab).mp hi
      exact hc ⟨a, hinf, hns⟩
  rw [internal, List.countP_cons, hnew, countP_split _ _ hold, hcross, internal]
  simp only [decide_eq_true_eq]
  omega

/-! ### What a traversal has seen -/

/-- `s'` is `s` after following the references `fs` from the current vertex and visiting
everything new behind them: the new vertices have all their edges, the current vertex has
the edges to `fs` in addition, and nothing else has changed. -/
structure Seen (g : α → List α) (s s' : State α) (fs : List α) : Prop where
  stack : s'.stack = s.stack
  visited : ∀ x ∈ s.visited, x ∈ s'.visited
  targets : ∀ f ∈ fs, f ∈ s'.visited
  behind : ∀ x ∈ s'.visited, x ∈ s.visited ∨ ∃ f ∈ fs, Reach (Refers g) f x
  count : ∀ a b, s'.edges.count (a, b) = s.edges.count (a, b) +
    (if a ∈ s'.visited ∧ a ∉ s.visited then (g a).count b else 0) +
    (if s.stack.head? = some a then fs.count b else 0)

theorem Seen.nil (s : State α) : Seen g s s [] where
  stack := rfl
  visited _ hx := hx
  targets f hf := by simp at hf
  behind x hx := Or.inl hx
  count a b := by simp

/-- Following two references one after the other. -/
theorem Seen.cons {g : α → List α} {s1 s2 : State α} {fs : List α} (h1 : Seen g s s1 [f])
    (h2 : Seen g s1 s2 fs) :
    Seen g s s2 (f :: fs) where
  stack := h2.stack.trans h1.stack
  visited x hx := h2.visited x (h1.visited x hx)
  targets x hx := by
    rcases List.mem_cons.mp hx with rfl | hx
    · exact h2.visited x (h1.targets x (by simp))
    · exact h2.targets x hx
  behind x hx := by
    rcases h2.behind x hx with hx | ⟨f', hf', hr⟩
    · rcases h1.behind x hx with hx | ⟨f', hf', hr⟩
      · exact Or.inl hx
      · exact Or.inr ⟨f', by simp [List.mem_singleton.mp hf'], hr⟩
    · exact Or.inr ⟨f', List.mem_cons_of_mem _ hf', hr⟩
  count a b := by
    have hnew : (if a ∈ s2.visited ∧ a ∉ s.visited then (g a).count b else 0) =
        (if a ∈ s1.visited ∧ a ∉ s.visited then (g a).count b else 0) +
          (if a ∈ s2.visited ∧ a ∉ s1.visited then (g a).count b else 0) := by
      by_cases h0 : a ∈ s.visited
      · simp [h0, h1.visited a h0]
      · by_cases h1' : a ∈ s1.visited
        · simp [h0, h1', h2.visited a h1']
        · simp [h0, h1']
    have htop : (if s.stack.head? = some a then (f :: fs).count b else 0) =
        (if s.stack.head? = some a then [f].count b else 0) +
          (if s.stack.head? = some a then fs.count b else 0) := by
      rw [List.count_cons, List.count_singleton']
      split
      · simp only [beq_iff_eq, eq_comm (a := f)]; omega
      · rfl
    rw [h2.count, h1.count, h1.stack, hnew, htop]
    omega

/-- Following a reference adds one edge out of the current vertex. -/
theorem count_follow (s : State α) (f a b : α) :
    (s.follow f).count (a, b) =
      s.edges.count (a, b) + (if s.stack.head? = some a then [f].count b else 0) := by
  cases hs : s.stack with
  | nil => simp [State.follow, hs]
  | cons p rest =>
    simp only [State.follow, hs, List.head?_cons, Option.some.injEq]
    by_cases hpa : p = a
    · by_cases hfb : f = b
      · simp [hpa, hfb]
      · simp [hpa, hfb]
    · simp [hpa]

/-- A reference to a visited vertex adds its edge. -/
theorem Seen.known (hf : f ∈ s.visited) : Seen g s (step g s (.ref f)) [f] where
  stack := by simp [step, hf]
  visited x hx := by simpa [step, hf] using hx
  targets x hx := by simp [step, hf, List.mem_singleton.mp hx]
  behind x hx := Or.inl (by simpa [step, hf] using hx)
  count a b := by
    have hno : ¬ (a ∈ s.visited ∧ a ∉ s.visited) := fun h => h.2 h.1
    simp only [step, hf, if_true, count_follow, hno, if_false, Nat.add_zero]

/-- A reference to a new vertex, a visit of its successors, and the way back. A vertex
without successors is the case `s1 = s2`. -/
theorem Seen.new {g : α → List α} {s1 s2 s3 : State α} (hf : f ∉ s.visited)
    (hvis : s1.visited = f :: s.visited) (hedges : s1.edges = s.follow f) (h : Seen g s1 s2 (g f))
    (hhead : g f ≠ [] → s1.stack.head? = some f)
    (htop : ∀ p, s.stack.head? = some p → p ∈ s.visited) (hs3 : s3.stack = s.stack)
    (hv3 : s3.visited = s2.visited) (he3 : s3.edges = s2.edges) :
    Seen g s s3 [f] where
  stack := hs3
  visited x hx := by
    rw [hv3]
    exact h.visited x (by rw [hvis]; exact List.mem_cons_of_mem _ hx)
  targets x hx := by
    rw [hv3]
    exact h.visited x (by rw [hvis, List.mem_singleton.mp hx]; simp)
  behind x hx := by
    rw [hv3] at hx
    rcases h.behind x hx with hx | ⟨f', hf', hr⟩
    · rw [hvis] at hx
      rcases List.mem_cons.mp hx with rfl | hx
      · exact Or.inr ⟨x, by simp, Reach.refl _ x⟩
      · exact Or.inl hx
    · exact Or.inr ⟨f, by simp, (Reach.of_edge hf').trans hr⟩
  count a b := by
    have hmem : f ∈ s2.visited := h.visited f (by rw [hvis]; simp)
    have hfol : s1.edges.count (a, b) =
        s.edges.count (a, b) + (if s.stack.head? = some a then [f].count b else 0) := by
      rw [hedges, count_follow]
    rw [he3, hv3, h.count, hfol, hvis]
    by_cases haf : a = f
    · -- The new vertex has all its edges, and none of them before.
      subst haf
      have hna : s.stack.head? ≠ some a := fun hp => hf (htop a hp)
      simp only [List.mem_cons, true_or, not_true_eq_false, and_false, if_false, hmem, hf,
        not_false_eq_true, and_self, if_true, hna]
      by_cases hga : g a = []
      · simp [hga]
      · simp [hhead hga]
    · have hnt : (if s1.stack.head? = some a then (g f).count b else 0) = 0 := by
        by_cases hgf : g f = []
        · simp [hgf]
        · rw [hhead hgf]
          simp [Ne.symm haf]
      simp only [List.mem_cons, haf, false_or, hnt]
      omega

/-- A visit follows its reference and sees everything behind it. -/
theorem visit_seen : ∀ (n : Nat) (s : State α) (f : α) (es : List (Event α)) (vis' : List α),
      (∀ p, s.stack.head? = some p → p ∈ s.visited) →
      visit g n s.visited f = some (es, vis') →
        Seen g s (run g s es) [f] ∧ (run g s es).visited = vis' := by
  intro n
  induction n with
  | zero => intro s f es vis' _ h; simp [visit] at h
  | succ n ih =>
    -- The list version follows from the induction hypothesis, one reference at a time.
    have hlist : ∀ (fs : List α) (s : State α) (es : List (Event α)) (vis' : List α),
        (∀ p, s.stack.head? = some p → p ∈ s.visited) →
        visitList (visit g n) fs s.visited = some (es, vis') →
          Seen g s (run g s es) fs ∧ (run g s es).visited = vis' := by
      intro fs
      induction fs with
      | nil =>
        intro s es vis' _ h
        obtain ⟨rfl, rfl⟩ := h
        exact ⟨Seen.nil g s, rfl⟩
      | cons f fs ihl =>
        intro s es vis' htop h
        simp only [visitList] at h
        cases h1 : visit g n s.visited f with
        | none => simp [h1] at h
        | some r =>
          obtain ⟨es1, v1⟩ := r
          simp only [h1] at h
          obtain ⟨hseen1, hv1⟩ := ih s f es1 v1 htop h1
          cases h2 : visitList (visit g n) fs v1 with
          | none => simp [h2] at h
          | some r =>
            obtain ⟨es2, v2⟩ := r
            simp only [h2, Option.some.injEq, Prod.mk.injEq] at h
            obtain ⟨rfl, rfl⟩ := h
            rw [← hv1] at h2
            obtain ⟨hseen2, hv2⟩ := ihl (run g s es1) es2 v2
              (fun p hp => hseen1.visited p (htop p (hseen1.stack ▸ hp))) h2
            have hrun : run g s (es1 ++ es2) = run g (run g s es1) es2 := by
              simp [run, List.foldl_append]
            rw [hrun]
            exact ⟨hseen1.cons hseen2, hv2⟩
    intro s f es vis' htop h
    simp only [visit] at h
    by_cases hf : f ∈ s.visited
    · simp only [hf, if_true, Option.some.injEq, Prod.mk.injEq] at h
      obtain ⟨rfl, rfl⟩ := h
      exact ⟨Seen.known g hf, by simp [run, step, hf]⟩
    · rw [if_neg hf] at h
      by_cases hg : g f = []
      · simp only [hg, if_true, Option.some.injEq, Prod.mk.injEq] at h
        obtain ⟨rfl, rfl⟩ := h
        have hstep : run g s [.ref f] = ⟨s.follow f, f :: s.visited, s.stack⟩ := by
          simp [run, step, hf, hg]
        rw [hstep]
        exact ⟨Seen.new hf rfl rfl (hg ▸ Seen.nil g _) (fun h => absurd hg h) htop rfl rfl rfl,
          rfl⟩
      · rw [if_neg hg] at h
        cases h1 : visitList (visit g n) (g f) (f :: s.visited) with
        | none => simp [h1] at h
        | some r =>
          obtain ⟨es1, v1⟩ := r
          simp only [h1, Option.some.injEq, Prod.mk.injEq] at h
          obtain ⟨rfl, rfl⟩ := h
          have hstep : run g s (.ref f :: (es1 ++ [.leave])) =
              step g (run g ⟨s.follow f, f :: s.visited, f :: s.stack⟩ es1) .leave := by
            simp [run, step, hf, hg, List.foldl_append]
          obtain ⟨hseen, hv⟩ := hlist (g f) ⟨s.follow f, f :: s.visited, f :: s.stack⟩ es1 v1
            (fun p hp => by simp at hp; simp [hp]) h1
          rw [hstep]
          refine ⟨Seen.new hf rfl rfl hseen (fun _ => rfl) htop ?_ rfl rfl, hv⟩
          simp [step, hseen.stack]

/-- The number of vertices not visited. -/
def unseen [Fintype α] (vis : List α) : Nat := (Finset.univ.filter fun x => x ∉ vis).card

theorem unseen_mono [Fintype α] {vis vis' : List α} (h : ∀ x ∈ vis, x ∈ vis') :
    unseen vis' ≤ unseen vis := by
  refine Finset.card_le_card ?_
  intro x hx
  simp only [Finset.mem_filter, Finset.mem_univ, true_and] at hx ⊢
  exact fun hm => hx (h x hm)

theorem unseen_cons_lt [Fintype α] {vis : List α} (hf : f ∉ vis) :
    unseen (f :: vis) < unseen vis := by
  refine Finset.card_lt_card ⟨?_, ?_⟩
  · intro x hx
    simp only [Finset.mem_filter, Finset.mem_univ, true_and, List.mem_cons, not_or] at hx ⊢
    exact hx.2
  · intro h
    have hm := h (by simpa using hf : f ∈ Finset.univ.filter fun x => x ∉ vis)
    simp at hm

/-- The depth bound is never reached: each level of a visit adds a vertex. -/
theorem visit_isSome [Fintype α] : ∀ (n : Nat) (vis : List α) (f : α), unseen vis < n →
      ∃ es vis', visit g n vis f = some (es, vis') ∧ ∀ x ∈ vis, x ∈ vis' := by
  intro n
  induction n with
  | zero => intro vis f h; omega
  | succ n ih =>
    have hlist : ∀ (fs vis : List α), unseen vis < n →
        ∃ es vis', visitList (visit g n) fs vis = some (es, vis') ∧ ∀ x ∈ vis, x ∈ vis' := by
      intro fs
      induction fs with
      | nil => intro vis _; exact ⟨[], vis, rfl, fun _ hx => hx⟩
      | cons f fs ihl =>
        intro vis h
        obtain ⟨es1, v1, h1, hm1⟩ := ih vis f h
        obtain ⟨es2, v2, h2, hm2⟩ := ihl v1 (Nat.lt_of_le_of_lt (unseen_mono hm1) h)
        exact ⟨es1 ++ es2, v2, by simp [visitList, h1, h2], fun x hx => hm2 x (hm1 x hx)⟩
    intro vis f h
    by_cases hf : f ∈ vis
    · exact ⟨[.ref f], vis, by simp [visit, hf], fun _ hx => hx⟩
    · by_cases hg : g f = []
      · exact ⟨[.ref f], f :: vis, by simp [visit, hf, hg], fun _ hx => List.mem_cons_of_mem _ hx⟩
      · have hlt := unseen_cons_lt hf
        obtain ⟨es, v, h1, hm⟩ := hlist (g f) (f :: vis) (by omega)
        exact ⟨.ref f :: (es ++ [.leave]), v, by simp [visit, hf, hg, h1],
          fun x hx => hm x (List.mem_cons_of_mem _ hx)⟩

/-- The state at the end of the traversal from `start`. -/
def traversed [Fintype α] (g : α → List α) (start : α) : State α :=
  run g State.init (traversal g start)

/-- The traversal leaves an empty path, has visited exactly the vertices reachable from the
start, and has followed each of their edges as often as the multigraph has it. -/
theorem traversal_spec [Fintype α] (start : α) : (traversed g start).stack = [] ∧
    (∀ x, x ∈ (traversed g start).visited ↔ Reach (Refers g) start x) ∧
    (∀ a b, (traversed g start).edges.count (a, b) =
      if a ∈ (traversed g start).visited then (g a).count b else 0) := by
  have hcard : unseen ([] : List α) < Fintype.card α + 1 := by
    simp [unseen, Finset.card_univ]
  obtain ⟨es, vis', hvisit, -⟩ := visit_isSome g (Fintype.card α + 1) [] start hcard
  have htrav : traversed g start = run g State.init es := by
    simp [traversed, traversal, hvisit]
  obtain ⟨hseen, -⟩ := visit_seen g (Fintype.card α + 1) State.init start es vis'
    (fun p hp => by simp [State.init] at hp) hvisit
  rw [← htrav] at hseen
  have hcount : ∀ a b, (traversed g start).edges.count (a, b) =
      if a ∈ (traversed g start).visited then (g a).count b else 0 := by
    intro a b
    rw [hseen.count]
    simp [State.init]
  have hinv : Inv (traversed g start) := Inv.run g _ _ Inv.init
  refine ⟨hseen.stack, fun x => ⟨fun hx => ?_, fun hr => ?_⟩, hcount⟩
  · rcases hseen.behind x hx with hx | ⟨f, hf, hr⟩
    · simp [State.init] at hx
    · exact List.mem_singleton.mp hf ▸ hr
  · -- The visited vertices are closed: an edge that was followed ends in one.
    refine Reach.closed (S := (· ∈ (traversed g start).visited)) ?_ hr
      (hseen.targets start (by simp))
    intro a b hab ha
    have hpos : 0 < (traversed g start).edges.count (a, b) := by
      rw [hcount, if_pos ha]
      exact List.count_pos_iff.mpr hab
    exact (hinv.edge_visited a b (List.count_pos_iff.mp hpos)).2

/-! ### The components of the multigraph

Behind the start vertex the edges followed are the edges of the multigraph, so the
components and the internal edges of the traversal are those of the multigraph. -/

section
variable [Fintype α] (g : α → List α) (start : α) {a : α}

theorem mem_traversed_edges {b : α} :
    (a, b) ∈ (traversed g start).edges ↔ Reach (Refers g) start a ∧ b ∈ g a := by
  obtain ⟨-, hvis, hcount⟩ := traversal_spec g start
  rw [← List.count_pos_iff, hcount, ← hvis]
  by_cases ha : a ∈ (traversed g start).visited
  · rw [if_pos ha, List.count_pos_iff]
    exact ⟨fun hb => ⟨ha, hb⟩, fun hb => hb.2⟩
  · simp [ha]

theorem traversed_reach {b : α} (ha : Reach (Refers g) start a) :
    Reach (Adj (traversed g start).edges) a b ↔ Reach (Refers g) a b := by
  constructor
  · exact Reach.mono fun x y hxy => ((mem_traversed_edges g start).mp hxy).2
  · intro h
    refine Reach.congr_on (S := Reach (Refers g) start) ?_ ?_ h ha
    · exact fun x y hxy hx => hx.trans (Reach.of_edge hxy)
    · exact fun x y hx hxy => (mem_traversed_edges g start).mpr ⟨hx, hxy⟩

theorem traversed_same {b : α} (ha : Reach (Refers g) start a) :
    Same (Adj (traversed g start).edges) a b ↔ Same (Refers g) a b := by
  constructor
  · rintro ⟨hab, hba⟩
    have hab' := (traversed_reach g start ha).mp hab
    exact ⟨hab', (traversed_reach g start (ha.trans hab')).mp hba⟩
  · rintro ⟨hab, hba⟩
    exact ⟨(traversed_reach g start ha).mpr hab,
      (traversed_reach g start (ha.trans hab)).mpr hba⟩

theorem traversed_onCycle (ha : Reach (Refers g) start a) :
    OnCycle (Adj (traversed g start).edges) a ↔ OnCycle (Refers g) a := by
  constructor
  · rintro ⟨b, hab, hba⟩
    have hab' := ((mem_traversed_edges g start).mp hab).2
    exact ⟨b, hab', (traversed_reach g start (ha.trans (Reach.of_edge hab'))).mp hba⟩
  · rintro ⟨b, hab, hba⟩
    exact ⟨b, (mem_traversed_edges g start).mpr ⟨ha, hab⟩,
      (traversed_reach g start (ha.trans (Reach.of_edge hab))).mpr hba⟩

/-- Counting edges into `u` from a set, source by source. -/
theorem countP_eq_sum (E : List (α × α)) (u : α) (P : α → Bool) :
    E.countP (fun e => decide (e.2 = u) && P e.1) =
      ∑ a, if P a then E.count (a, u) else 0 := by
  induction E with
  | nil => simp
  | cons e E ih =>
    obtain ⟨x, y⟩ := e
    have hsplit : ∀ a, (if P a then ((x, y) :: E).count (a, u) else 0) =
        (if P a then E.count (a, u) else 0) + (if x = a then (if y = u ∧ P x then 1 else 0) else 0) := by
      intro a
      by_cases hxa : x = a
      · subst hxa
        by_cases hyu : y = u
        · cases hP : P x <;> simp [hyu]
        · cases hP : P x <;> simp [hyu]
      · simp [hxa]
    rw [List.countP_cons, ih, Finset.sum_congr rfl fun a _ => hsplit a, Finset.sum_add_distrib,
      Finset.sum_ite_eq Finset.univ x]
    simp

open Classical in
/-- The number of references to `u` held by the members of its component. -/
noncomputable def componentRefs (u : α) : Nat :=
  ∑ a ∈ Finset.univ.filter (fun a => Same (Refers g) a u), (g a).count u

/-- The internal edges of the traversal are the references inside the component. -/
theorem traversed_internal {u : α} (hu : Reach (Refers g) start u) :
    internal (traversed g start).edges u = componentRefs g u := by
  classical
  obtain ⟨-, hvis, hcount⟩ := traversal_spec g start
  have hpred : ∀ e : α × α, isInternal (traversed g start).edges u e =
      (decide (e.2 = u) && decide (Same (Refers g) e.1 u)) := by
    intro e
    have hsame : Same (Adj (traversed g start).edges) e.1 u ↔ Same (Refers g) e.1 u :=
      ⟨fun h => ((traversed_same g start hu).mp h.symm).symm,
        fun h => ((traversed_same g start hu).mpr h.symm).symm⟩
    rw [Bool.eq_iff_iff, isInternal_iff, hsame]
    simp
  rw [internal, funext hpred, countP_eq_sum _ u fun a => decide (Same (Refers g) a u),
    componentRefs, Finset.sum_filter]
  refine Finset.sum_congr rfl fun a _ => ?_
  by_cases ha : Same (Refers g) a u
  · have hr : Reach (Refers g) start a := hu.trans ha.2
    simp [ha, hcount, (hvis a).mpr hr]
  · simp [ha]

end

end Qore.Lib.Dfs
