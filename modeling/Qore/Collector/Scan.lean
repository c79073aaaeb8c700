import Qore.Lib.Dfs
import Qore.Collector.Merge

/-!
# `Qore.Collector.Scan`: the scan follows the components of the traversal

`checkIntern` is a depth-first traversal of the references. `onEvent` is what it does at one
event of the traversal (`Qore.Lib.Dfs`), and `checkIntern_run` says that the recursion is the
replay of these events.

`Rel h s st` relates the transaction `st` to the traversal state `s`: the path, the scanned
objects, the components found so far, and a bound of the counts.

* `Rel.onEvent`: every event keeps `Rel`. So the sets of the transaction are at every point
  the components with a cycle of the edges followed so far, and a count is at most the
  number of internal references.
* `Exact` says that the counts are the numbers of internal references. `Rel.exact_iff` says
  that an event keeps it except when it is `Lossy`: a reference that closes a cycle through a
  path on which objects of other, already finished cycles lie. For these the scan does not
  count the path's own reference into the finished cycle.
-/

set_option autoImplicit false

namespace Qore.Collector

open RSetHelper
open Qore.Lib
open Qore.Lib.Digraph
open Qore.Lib.Dfs (Event State Inv internal Crossing)

variable {Obj : Type}

/-- Neighbours on the path of which one is on no cycle are in different components. -/
theorem crossing_of_not_onCycle {E : List (Obj × Obj)} {path : List Obj} (hnd : path.Nodup)
    {u a : Obj} (hua : [u, a] <:+: path) (hno : ¬ (OnCycle (Adj E) u ∧ OnCycle (Adj E) a)) :
    ¬ Same (Adj E) a u := by
  intro hs
  have hne : a ≠ u := by
    have hnd' := hnd.sublist hua.sublist
    simp at hnd'
    exact Ne.symm hnd'
  exact hno ⟨hs.symm.onCycle hne.symm, hs.onCycle hne⟩

/-- The chain that `checkIntern` finds is the part of the path after the last object with the
property. -/
theorem chainAfter_split (P : Obj → Bool) (above below : List Obj) (w : Obj)
    (hw : P w = true) (hno : ∀ v ∈ above, P v = false) :
    chainAfter P (above ++ w :: below) = some above.reverse := by
  have htake : (above ++ w :: below).takeWhile (fun o => !P o) = above := by
    rw [List.takeWhile_append_of_pos (fun v hv => by simp [hno v hv]),
      List.takeWhile_cons_of_neg (by simp [hw]), List.append_nil]
  have hany : (above ++ w :: below).any P = true := by simp [hw]
  rw [chainAfter, hany, htake]
  rfl

/-- A path that leaves the component of `w` and meets a cycle enters that cycle from another
component. -/
theorem exists_entry {E : List (Obj × Obj)} {w : Obj} {above : List Obj}
    (hno : ∀ v ∈ above, ¬ Same (Adj E) w v) (hc : ∃ c ∈ above, OnCycle (Adj E) c) :
    ∃ u a, [u, a] <:+: above ++ [w] ∧ u ∈ above ∧ OnCycle (Adj E) u ∧ ¬ Same (Adj E) a u := by
  induction above with
  | nil => simp at hc
  | cons x above ih =>
    by_cases hrest : ∃ c ∈ above, OnCycle (Adj E) c
    · obtain ⟨u, a, hua, hu, hcyc, hns⟩ := ih (fun v hv => hno v (List.mem_cons_of_mem _ hv)) hrest
      exact ⟨u, a, List.infix_cons hua, List.mem_cons_of_mem _ hu, hcyc, hns⟩
    · obtain ⟨c, hc, hcyc⟩ := hc
      have hcx : c = x := (List.mem_cons.mp hc).resolve_right fun hm => hrest ⟨c, hm, hcyc⟩
      subst hcx
      cases above with
      | nil => exact ⟨c, w, ⟨[], [], rfl⟩, by simp, hcyc, hno c (by simp)⟩
      | cons a above =>
        refine ⟨c, a, ⟨[], above ++ [w], by simp⟩, by simp, hcyc, fun hs => ?_⟩
        exact hrest ⟨a, by simp, hcyc.of_same hs.symm⟩

/-- The reference to `f` loses a count. Either `f` is on the path, and on the path from `f`
on two neighbours belong to two different finished cycles. Or `f` is not on the path, the
path enters the cycle of `f` last at `w`, and an object after `w` is on a cycle. -/
def Lossy (s : State Obj) (f : Obj) : Prop :=
  (∃ above below u a, s.stack = above ++ f :: below ∧ [u, a] <:+: above ++ [f] ∧
    OnCycle (Adj s.edges) u ∧ OnCycle (Adj s.edges) a ∧ ¬ Same (Adj s.edges) a u) ∨
  (f ∉ s.stack ∧ ∃ above w below c, s.stack = above ++ w :: below ∧ Same (Adj s.edges) f w ∧
    (∀ v ∈ above, ¬ Same (Adj s.edges) f v) ∧ c ∈ above ∧ OnCycle (Adj s.edges) c)

/-- Off the path, an event loses a count exactly when the chain after the last object of the
component of `f` meets a cycle. -/
theorem lossy_chain_iff {s : State Obj} {above below : List Obj} {f w : Obj} (hf : f ∉ s.stack)
    (hs : s.stack = above ++ w :: below) (hfw : Same (Adj s.edges) f w)
    (hno : ∀ v ∈ above, ¬ Same (Adj s.edges) f v) :
    Lossy s f ↔ ∃ c ∈ above, OnCycle (Adj s.edges) c := by
  constructor
  · rintro (⟨above', below', -, -, hs', -⟩ | ⟨-, above', w', below', c, hs', hfw', hno', hc, hcyc⟩)
    · exact absurd (by simp [hs']) hf
    · have heq : above = above' := Dfs.first_unique (hs.symm.trans hs') hfw hno hfw' hno'
      exact ⟨c, heq ▸ hc, hcyc⟩
  · rintro ⟨c, hc, hcyc⟩
    exact Or.inr ⟨hf, above, w, below, c, hs, hfw, hno, hc, hcyc⟩

variable [DecidableEq Obj]

/-! ### The relation -/

/-- The transaction `st` has seen what the traversal `s` has seen. -/
structure Rel (h : Heap Obj) (s : State Obj) (st : RSetHelper Obj) : Prop where
  inv : Inv s
  wf : WF h st
  ovec : st.ovec = s.stack
  scanned : ∀ o, (st.fomap o).isSome ↔ o ∈ s.visited
  ok : ∀ o, (st.stat o).ok = true → o ∉ s.stack ∧ ∀ x, (o, x) ∉ s.edges
  cycle : ∀ o, (st.stat o).rset.isSome ↔ OnCycle (Adj s.edges) o
  same : ∀ a b, (st.stat a).rset.isSome →
    ((st.stat a).rset = (st.stat b).rset ↔ Same (Adj s.edges) a b)
  bound : ∀ o, (st.stat o).rcount ≤ internal s.edges o

/-- Every count is the number of internal references. -/
def Exact (s : State Obj) (st : RSetHelper Obj) : Prop :=
  ∀ o, (st.stat o).rcount = internal s.edges o

section
variable {h : Heap Obj} {s : State Obj} {st st' : RSetHelper Obj} {path : List Obj} {p f : Obj}
  {rest : List Obj} {w : Obj} {above below : List Obj} (g : Obj → List Obj)

theorem Rel.none_iff (hr : Rel h s st) (o : Obj) :
    (st.stat o).rset = none ↔ ¬ OnCycle (Adj s.edges) o := by
  rw [← hr.cycle o]
  cases (st.stat o).rset <;> simp

/-- Touching a list of objects is being in the component of one of them. -/
theorem Rel.touches_iff (hr : Rel h s st) {rset : Option RSetId} (o : Obj) :
    Touches st rset path o ↔
      ((st.stat o).rset.isSome ∧ (st.stat o).rset = rset) ∨ ∃ v ∈ path, Same (Adj s.edges) o v := by
  refine or_congr_right ⟨?_, ?_⟩
  · rintro ⟨v, hv, rfl | ⟨hsome, heq⟩⟩
    · exact ⟨o, hv, Same.refl _ o⟩
    · exact ⟨v, hv, (hr.same o v hsome).mp heq⟩
  · rintro ⟨v, hv, hs⟩
    by_cases hov : o = v
    · exact ⟨v, hv, Or.inl hov⟩
    · have hsome : (st.stat o).rset.isSome := (hr.cycle o).mpr (hs.onCycle hov)
      exact ⟨v, hv, Or.inr ⟨hsome, (hr.same o v hsome).mpr hs⟩⟩

/-- An edge that closes no cycle changes nothing. -/
theorem Rel.still (hr : Rel h s st) (hp : s.stack = p :: rest) (hf : f ∈ s.visited)
    (hno : ¬ Reach (Adj s.edges) f p) :
    Rel h { s with edges := (p, f) :: s.edges } st where
  inv := hr.inv.follow_visited hp hf
  wf := hr.wf
  ovec := hr.ovec
  scanned := hr.scanned
  ok o ho := by
    obtain ⟨hstack, hedges⟩ := hr.ok o ho
    refine ⟨hstack, fun x hx => ?_⟩
    rcases List.mem_cons.mp hx with heq | hx
    · exact hstack ((Prod.mk.inj heq).1 ▸ by simp [hp])
    · exact hedges x hx
  cycle o := by rw [hr.cycle o, onCycle_cons_of_not_reach hno]
  same a b ha := by rw [hr.same a b ha, same_cons_of_not_reach hno]
  bound o := by
    rw [Dfs.internal_of_not_reach hno]
    exact hr.bound o

open Classical in
/-- The references that become internal when the edge to `f` closes a cycle through the path
from `w` on. -/
noncomputable def closedRefs (s : State Obj) (f : Obj) (path : List Obj) (u : Obj) : Nat :=
  (if u = f then 1 else 0) + (if Crossing s.edges path u then 1 else 0)

/-- An edge that closes a cycle: the components of the path from `w` on have become one set,
and no count went up by more than the references that became internal. -/
theorem Rel.close (hr : Rel h s st) (hp : s.stack = p :: rest) (hs : s.stack = above ++ w :: below)
    (hf : f ∈ s.visited) (hfw : Same (Adj s.edges) f w) {H : Obj → Prop} {r : RSetId}
    {inc : Obj → Nat} (hj : Join h st st' H r inc)
    (hH : ∀ o, H o ↔ ∃ v ∈ above ++ [w], Same (Adj s.edges) o v)
    (hinc : ∀ u, inc u ≤ closedRefs s f (above ++ [w]) u) :
    Rel h { s with edges := (p, f) :: s.edges } st' ∧
      (Exact { s with edges := (p, f) :: s.edges } st' ↔
        Exact s st ∧ ∀ u, inc u = closedRefs s f (above ++ [w]) u) := by
  have hbetween : ∀ o, Between (Adj s.edges) f p o ↔ H o := fun o => by
    rw [hr.inv.between_iff hp hs hfw, hH]
  have hinternal : ∀ u, internal ((p, f) :: s.edges) u =
      internal s.edges u + closedRefs s f (above ++ [w]) u := fun u => by
    rw [hr.inv.internal_back hp hs hfw, closedRefs, Nat.add_assoc]
  have hrset : ∀ o, ((st'.stat o).rset.isSome ↔ H o ∨ OnCycle (Adj s.edges) o) := by
    intro o
    by_cases ho : H o
    · simp [hj.hit o ho, ho]
    · rw [(hj.miss o ho).1, hr.cycle o]
      exact ⟨Or.inr, fun hc => hc.resolve_left ho⟩
  constructor
  · refine ⟨hr.inv.follow_visited hp hf, hj.wf, hj.frame.ovec.trans hr.ovec, fun o => ?_,
      fun o ho => ?_, fun o => ?_, fun a b ha => ?_, fun o => ?_⟩
    · rw [hj.frame.scanned]
      exact hr.scanned o
    · rw [hj.frame.ok] at ho
      obtain ⟨hstack, hedges⟩ := hr.ok o ho
      refine ⟨hstack, fun x hx => ?_⟩
      rcases List.mem_cons.mp hx with heq | hx
      · exact hstack ((Prod.mk.inj heq).1 ▸ by simp [hp])
      · exact hedges x hx
    · rw [hrset, onCycle_cons, hbetween, or_comm]
    · -- Two objects of the closed path, two other objects, or one of each.
      rw [same_cons, hbetween, hbetween]
      by_cases hHa : H a
      · by_cases hHb : H b
        · simp [hj.hit a hHa, hj.hit b hHb, hHa, hHb]
        · have hns : ¬ Same (Adj s.edges) a b := by
            intro hab
            obtain ⟨v, hv, hav⟩ := (hH a).mp hHa
            exact hHb ((hH b).mpr ⟨v, hv, hab.symm.trans hav⟩)
          rw [hj.hit a hHa, (hj.miss b hHb).1]
          have hne := (hj.miss b hHb).2
          simp [hHb, hns, Ne.symm hne]
      · rw [(hj.miss a hHa).1] at ha ⊢
        by_cases hHb : H b
        · have hns : ¬ Same (Adj s.edges) a b := by
            intro hab
            obtain ⟨v, hv, hbv⟩ := (hH b).mp hHb
            exact hHa ((hH a).mpr ⟨v, hv, hab.trans hbv⟩)
          rw [hj.hit b hHb]
          simp [hHa, hns, (hj.miss a hHa).2]
        · rw [(hj.miss b hHb).1, hr.same a b ha]
          simp [hHa]
    · show (st'.stat o).rcount ≤ internal ((p, f) :: s.edges) o
      rw [hj.rcount, hinternal]
      exact Nat.add_le_add (hr.bound o) (hinc o)
  · constructor
    · intro hex
      have hsum : ∀ o, (st.stat o).rcount = internal s.edges o ∧
          inc o = closedRefs s f (above ++ [w]) o := by
        intro o
        have h1 : (st'.stat o).rcount = internal ((p, f) :: s.edges) o := hex o
        rw [hj.rcount, hinternal] at h1
        have h2 := hr.bound o
        have h3 := hinc o
        omega
      exact ⟨fun o => (hsum o).1, fun o => (hsum o).2⟩
    · rintro ⟨hex, heq⟩ o
      show (st'.stat o).rcount = internal ((p, f) :: s.edges) o
      rw [hj.rcount, hinternal, hex o, heq o]

/-! ### A reference back to the path -/

open Classical in
/-- What the scan counts when the reference goes back to `f` on the path: the reference
itself, and the path's references into and out of objects on no cycle. -/
noncomputable def backInc (s : State Obj) (f : Obj) (path : List Obj) (u : Obj) : Nat :=
  (if u = f then 1 else 0) +
    (if ∃ a, [u, a] <:+: path ∧ ¬ (OnCycle (Adj s.edges) u ∧ OnCycle (Adj s.edges) a) then 1 else 0)

theorem backInc_le (hnd : path.Nodup) (f u : Obj) : backInc s f path u ≤ closedRefs s f path u := by
  refine Nat.add_le_add_left ?_ _
  by_cases hu : ∃ a, [u, a] <:+: path ∧ ¬ (OnCycle (Adj s.edges) u ∧ OnCycle (Adj s.edges) a)
  · obtain ⟨a, hua, hno⟩ := hu
    have hc : Crossing s.edges path u := ⟨a, hua, crossing_of_not_onCycle hnd hua hno⟩
    rw [if_pos ⟨a, hua, hno⟩, if_pos hc]
  · rw [if_neg hu]
    exact Nat.zero_le _

/-- Nothing is lost when no two neighbours of the path are on two different cycles. -/
theorem backInc_eq_iff (hnd : path.Nodup) (f : Obj) :
    (∀ u, backInc s f path u = closedRefs s f path u) ↔
      ¬ ∃ u a, [u, a] <:+: path ∧ OnCycle (Adj s.edges) u ∧ OnCycle (Adj s.edges) a ∧
        ¬ Same (Adj s.edges) a u := by
  constructor
  · rintro heq ⟨u, a, hua, hu, ha, hns⟩
    have hno : ¬ ∃ b, [u, b] <:+: path ∧
        ¬ (OnCycle (Adj s.edges) u ∧ OnCycle (Adj s.edges) b) := by
      rintro ⟨b, hub, hb⟩
      exact hb ⟨hu, Dfs.infix_unique hnd hua hub ▸ ha⟩
    have hc : Crossing s.edges path u := ⟨a, hua, hns⟩
    have hlt := heq u
    rw [backInc, closedRefs, if_neg hno, if_pos hc] at hlt
    omega
  · intro hno u
    refine Nat.le_antisymm (backInc_le hnd f u) (Nat.add_le_add_left ?_ _)
    by_cases hc : Crossing s.edges path u
    · obtain ⟨a, hua, hns⟩ := id hc
      have hout : ¬ (OnCycle (Adj s.edges) u ∧ OnCycle (Adj s.edges) a) :=
        fun hb => hno ⟨u, a, hua, hb.1, hb.2, hns⟩
      rw [if_pos hc, if_pos ⟨a, hua, hout⟩]
    · rw [if_neg hc]
      exact Nat.zero_le _

/-- The counts of the closing loop. -/
theorem Rel.finalizeInc_eq (hr : Rel h s st) (hnd : (above ++ [f]).Nodup) (u : Obj) :
    finalizeInc st (above ++ [f]) u +
      (if u = f ∧ (st.stat f).rset.isSome then 1 else 0) = backInc s f (above ++ [f]) u := by
  have hpred : (∃ a, [u, a] <:+: above ++ [f] ∧
        ¬ (OnCycle (Adj s.edges) u ∧ OnCycle (Adj s.edges) a)) ↔
      u ∈ above ∧ ((st.stat u).rset = none ∨
        ∃ a, [u, a] <:+: above ++ [f] ∧ (st.stat a).rset = none) := by
    constructor
    · rintro ⟨a, hua, hno⟩
      have hu : u ∈ above ++ [f] := hua.subset (by simp)
      have huf : u ≠ f := fun heq => Dfs.not_infix_last hnd (heq ▸ hua)
      refine ⟨by simpa [huf] using hu, ?_⟩
      rw [not_and_or] at hno
      cases hno with
      | inl hu => exact Or.inl ((hr.none_iff u).mpr hu)
      | inr ha => exact Or.inr ⟨a, hua, (hr.none_iff a).mpr ha⟩
    · rintro ⟨hu, hn | ⟨a, hua, hn⟩⟩
      · obtain ⟨a, hua⟩ := Dfs.exists_infix_of_mem (w := f) hu
        exact ⟨a, hua, fun hb => (hr.none_iff u).mp hn hb.1⟩
      · exact ⟨a, hua, fun hb => (hr.none_iff a).mp hn hb.2⟩
  by_cases huf : u = f
  · subst huf
    have hni : u ∉ above := fun hm => List.disjoint_of_nodup_append hnd hm (by simp)
    have hno : ¬ ∃ a, [u, a] <:+: above ++ [u] ∧ (st.stat a).rset = none := by
      rintro ⟨a, hua, -⟩
      exact Dfs.not_infix_last hnd hua
    rw [backInc, if_neg (mt hpred.mp fun hc => hni hc.1), finalizeInc]
    cases hu : (st.stat u).rset with
    | none => simp
    | some r =>
      have hout : ¬ (u ∈ above ++ [u] ∧ (some r = none ∨
          ∃ a, [u, a] <:+: above ++ [u] ∧ (st.stat a).rset = none)) := by
        rintro ⟨-, h0 | h0⟩
        · simp at h0
        · exact hno h0
      rw [if_neg hout]
      simp
  · have hmem : u ∈ above ++ [f] ↔ u ∈ above := by simp [huf]
    have hnf : ¬ (u = f ∧ (st.stat f).rset.isSome = true) := fun hc => huf hc.1
    rw [finalizeInc, backInc, if_neg huf, if_neg hnf, Nat.zero_add, Nat.add_zero]
    by_cases hc : u ∈ above ∧ ((st.stat u).rset = none ∨
        ∃ a, [u, a] <:+: above ++ [f] ∧ (st.stat a).rset = none)
    · rw [if_pos (by rwa [hmem]), if_pos (hpred.mpr hc)]
    · rw [if_neg (by rwa [hmem]), if_neg (mt hpred.mp hc)]

/-- On the path, an event loses a count exactly when two neighbours from `f` on are on two
different cycles. -/
theorem Rel.lossy_back_iff (hr : Rel h s st) (hs : s.stack = above ++ f :: below) :
    Lossy s f ↔ ∃ u a, [u, a] <:+: above ++ [f] ∧ OnCycle (Adj s.edges) u ∧
      OnCycle (Adj s.edges) a ∧ ¬ Same (Adj s.edges) a u := by
  constructor
  · rintro (⟨above', below', u, a, hs', hrest⟩ | ⟨hf, -⟩)
    · obtain ⟨rfl, -⟩ := Dfs.split_unique hr.inv.nodup hs hs'
      exact ⟨u, a, hrest⟩
    · exact absurd (by simp [hs]) hf
  · rintro ⟨u, a, hrest⟩
    exact Or.inl ⟨above, below, u, a, hs, hrest⟩

/-- A reference back to an object of the path. -/
theorem Rel.back (hr : Rel h s st) (g : Obj → List Obj) (hp : s.stack = p :: rest)
    (hf : f ∈ s.stack) :
    ∃ st', checkScanned (singleThreaded g) h st f = (false, st') ∧
      Rel h { s with edges := (p, f) :: s.edges } st' ∧
      (Exact { s with edges := (p, f) :: s.edges } st' ↔ Exact s st ∧ ¬ Lossy s f) := by
  obtain ⟨above, below, hs⟩ := List.append_of_mem hf
  have hvis : f ∈ s.visited := hr.inv.stack_visited f hf
  have hsf : (st.fomap f).isSome := (hr.scanned f).mpr hvis
  have hmem : ∀ x ∈ above ++ [f], x ∈ s.stack := fun x hx => by
    rw [hs]
    simp only [List.mem_append, List.mem_cons] at hx ⊢
    tauto
  have hscan : ∀ x ∈ above ++ [f], (st.fomap x).isSome := fun x hx =>
    (hr.scanned x).mpr (hr.inv.stack_visited x (hmem x hx))
  have hnd : (above ++ [f]).Nodup := by
    have hnd := hr.inv.nodup
    rw [hs, show above ++ f :: below = (above ++ [f]) ++ below by simp] at hnd
    exact hnd.of_append_left
  have hok : (st.stat f).ok = false := by
    rw [Bool.eq_false_iff]
    exact fun ho => (hr.ok f ho).1 hf
  have hin : st.inCurrentSet f = true := by simp [inCurrentSet, hr.ovec, hf]
  have hcyc := hr.wf.inCycle f
  -- In both branches the loop runs from the end of the path, and the counts are `backInc`.
  obtain ⟨r, st', hcheck, hj⟩ : ∃ r st', checkScanned (singleThreaded g) h st f = (false, st') ∧
      Join h st st' (Touches st (st.stat f).rset (above ++ [f])) r
        (backInc s f (above ++ [f])) := by
    cases hrf : (st.stat f).rset with
    | none =>
      obtain ⟨r, st', heq, hj⟩ := finalizeCurrent_join g f below above st none hr.wf hscan
        hnd (fun r hr => by simp at hr)
      refine ⟨r, st', ?_, hj.congr (fun _ => Iff.rfl) fun u => ?_⟩
      · rw [hrf] at hcyc
        simp only [checkScanned, hok, hcyc, hin, hrf, hr.ovec, hs, heq]
        rfl
      · rw [← hr.finalizeInc_eq hnd u, hrf]
        simp
    | some rf =>
      obtain ⟨r, st', heq, hj⟩ := finalizeCurrent_join g f below above (st.incRcount f)
        (some rf) (hr.wf.incRcount f) (fun x hx => by
          rw [RSetHelper.incRcount, scanned_modify]; exact hscan x hx)
        hnd ((hrf ▸ hr.wf.current f).incRcount f)
      refine ⟨r, st', ?_, (hj.of_incRcount hsf).congr (fun _ => Iff.rfl) fun u => ?_⟩
      · rw [hrf] at hcyc
        simp only [checkScanned, hok, hcyc, hin, hrf, hr.ovec, hs, heq]
        rfl
      · have hrs : ∀ x, ((st.incRcount f).stat x).rset = (st.stat x).rset :=
          fun x => stat_modify_field f x _ RSetStat.rset fun _ => rfl
        have hfin : finalizeInc (st.incRcount f) (above ++ [f]) u =
            finalizeInc st (above ++ [f]) u := by
          classical exact if_congr (by simp only [hrs]) rfl rfl
        rw [← hr.finalizeInc_eq hnd u, hrf, hfin, Nat.add_comm]
        simp
  obtain ⟨hrel, hexact⟩ := hr.close hp hs hvis (Same.refl _ f) hj
    (fun o => by
      rw [hr.touches_iff o]
      constructor
      · rintro (⟨hsome, heq⟩ | hv)
        · exact ⟨f, by simp, (hr.same o f hsome).mp heq⟩
        · exact hv
      · exact Or.inr)
    (fun u => backInc_le hnd f u)
  refine ⟨st', hcheck, hrel, ?_⟩
  rw [hexact, backInc_eq_iff hnd f, hr.lossy_back_iff hs]

/-! ### A reference to a finished cycle -/

/-- The counts of the chain after an object of the path. -/
theorem chainInc_reverse (st : RSetHelper Obj) (f : Obj) (above : List Obj) (u : Obj) :
    chainInc st f above.reverse u = (if u ∈ above ∧ (st.stat u).rset = none then 1 else 0) +
      (if u = f ∧ ∃ l, above.head? = some l ∧ (st.stat l).rset = none then 1 else 0) := by
  rw [chainInc, List.getLast?_reverse]
  simp only [List.mem_reverse]

theorem Rel.chainInc_le (hr : Rel h s st) (hnd : (above ++ [w]).Nodup) (u : Obj) :
    chainInc st f above.reverse u ≤ closedRefs s f (above ++ [w]) u := by
  rw [chainInc_reverse, closedRefs, Nat.add_comm]
  refine Nat.add_le_add ?_ ?_
  · by_cases huf : u = f
    · simp only [huf, true_and, if_true]
      split <;> omega
    · simp [huf]
  · by_cases hu : u ∈ above ∧ (st.stat u).rset = none
    · obtain ⟨a, hua⟩ := Dfs.exists_infix_of_mem (w := w) hu.1
      have hno := crossing_of_not_onCycle hnd hua fun hb => (hr.none_iff u).mp hu.2 hb.1
      have hc : Crossing s.edges (above ++ [w]) u := ⟨a, hua, hno⟩
      rw [if_pos hu, if_pos hc]
    · rw [if_neg hu]
      exact Nat.zero_le _

/-- Nothing is lost when no object of the chain is on a cycle. -/
theorem Rel.chainInc_eq_iff (hr : Rel h s st) (hf : f ∉ above) (hne : above ≠ [])
    (hnd : (above ++ [w]).Nodup) (hno : ∀ v ∈ above, ¬ Same (Adj s.edges) w v) :
    (∀ u, chainInc st f above.reverse u = closedRefs s f (above ++ [w]) u) ↔
      ¬ ∃ c ∈ above, OnCycle (Adj s.edges) c := by
  constructor
  · intro heq hc
    -- The path's reference into the last cycle before `w` is not counted.
    obtain ⟨u, a, hua, hu, hcyc, hns⟩ := exists_entry hno hc
    have huf : u ≠ f := fun h0 => hf (h0 ▸ hu)
    have hc : Crossing s.edges (above ++ [w]) u := ⟨a, hua, hns⟩
    have hset : ¬ (u ∈ above ∧ (st.stat u).rset = none) :=
      fun hn => (hr.none_iff u).mp hn.2 hcyc
    have hsum := heq u
    rw [chainInc_reverse, closedRefs, if_neg hset, if_neg huf, if_pos hc,
      if_neg fun hn => huf hn.1] at hsum
    omega
  · intro hnc u
    have hnone : ∀ v ∈ above, (st.stat v).rset = none := fun v hv =>
      (hr.none_iff v).mpr fun hc => hnc ⟨v, hv, hc⟩
    have hcross : Crossing s.edges (above ++ [w]) u ↔ u ∈ above := by
      constructor
      · rintro ⟨a, hua, -⟩
        have hu : u ∈ above ++ [w] := hua.subset (by simp)
        have huw : u ≠ w := fun h0 => Dfs.not_infix_last hnd (h0 ▸ hua)
        simpa [huw] using hu
      · intro hu
        obtain ⟨a, hua⟩ := Dfs.exists_infix_of_mem (w := w) hu
        exact ⟨a, hua, crossing_of_not_onCycle hnd hua
          fun hb => (hr.none_iff u).mp (hnone u hu) hb.1⟩
    obtain ⟨p, rest, rfl⟩ := List.exists_cons_of_ne_nil hne
    rw [chainInc_reverse, closedRefs]
    have hp := hnone p (by simp)
    by_cases hu : u ∈ p :: rest
    · have huf : u ≠ f := fun h0 => hf (h0 ▸ hu)
      rw [if_pos ⟨hu, hnone u hu⟩, if_pos (hcross.mpr hu), if_neg huf, if_neg fun hn => huf hn.1]
    · rw [if_neg fun hn => hu hn.1, if_neg (mt hcross.mp hu)]
      simp [hp]

/-- A reference to an object on a finished cycle that is not on the path, with the last object
`w` of the path in the same component. -/
theorem Rel.chain (hr : Rel h s st) (g : Obj → List Obj) (hp : s.stack = p :: rest)
    (hf : f ∈ s.visited) (hfs : f ∉ s.stack) (hs : s.stack = above ++ w :: below)
    (hfw : Same (Adj s.edges) f w) (hno : ∀ v ∈ above, ¬ Same (Adj s.edges) f v) :
    ∃ st', checkScanned (singleThreaded g) h st f = (false, st') ∧
      Rel h { s with edges := (p, f) :: s.edges } st' ∧
      (Exact { s with edges := (p, f) :: s.edges } st' ↔ Exact s st ∧ ¬ Lossy s f) := by
  have hwf : f ≠ w := fun heq => hfs (by rw [hs, heq]; simp)
  have hcycf : OnCycle (Adj s.edges) f := hfw.onCycle hwf
  have hsome : (st.stat f).rset.isSome := (hr.cycle f).mpr hcycf
  have hsf : (st.fomap f).isSome := (hr.scanned f).mpr hf
  have hcyc : (st.stat f).inCycle = true := by rw [hr.wf.inCycle f, hsome]
  have hout : st.inCurrentSet f = false := by simp [inCurrentSet, hr.ovec, hfs]
  have hok : (st.stat f).ok = false := by
    rw [Bool.eq_false_iff]
    intro ho
    obtain ⟨b, hb, -⟩ := hcycf
    exact (hr.ok f ho).2 b hb
  have hset : ∀ v, (st.stat v).rset = (st.stat f).rset ↔ Same (Adj s.edges) f v := fun v => by
    rw [eq_comm, hr.same f v hsome]
  have hovec : st.ovec = above ++ w :: below := hr.ovec.trans hs
  have hmem : ∀ v ∈ above, v ∈ s.stack := fun v hv => by rw [hs]; exact List.mem_append_left _ hv
  have htouch : ∀ o, Touches st (st.stat f).rset above.reverse o ↔
      ∃ v ∈ above ++ [w], Same (Adj s.edges) o v := by
    intro o
    rw [hr.touches_iff o]
    constructor
    · rintro (⟨ho, heq⟩ | ⟨v, hv, hov⟩)
      · exact ⟨w, by simp, ((hset o).mp heq).symm.trans hfw⟩
      · exact ⟨v, by simp [List.mem_reverse.mp hv], hov⟩
    · rintro ⟨v, hv, hov⟩
      rcases List.mem_append.mp hv with hv | hv
      · exact Or.inr ⟨v, by simpa using hv, hov⟩
      · have hfo : Same (Adj s.edges) f o := hfw.trans (List.mem_singleton.mp hv ▸ hov.symm)
        have heq := (hset o).mpr hfo
        exact Or.inl ⟨by rw [heq]; exact hsome, heq⟩
  have hlossy := lossy_chain_iff hfs hs hfw hno
  cases above with
  | nil =>
    -- The current object is in the component of `f`: only the reference itself is counted.
    obtain ⟨rfl, rfl⟩ : p = w ∧ rest = below := List.cons.inj (hp.symm.trans hs)
    obtain ⟨rf, hrf⟩ := Option.isSome_iff_exists.mp hsome
    have hj : Join h st (st.incRcount f) (Touches st (st.stat f).rset []) rf fun x =>
        (if x = f then 1 else 0) + 0 := by
      rw [hrf]
      exact Join.of_incRcount hsf (Join.touches_nil (hr.wf.incRcount f)
        ((hrf ▸ hr.wf.current f).incRcount f))
    have hclosed : ∀ u, (if u = f then 1 else 0) + 0 = closedRefs s f [p] u := by
      intro u
      have hnc : ¬ Crossing s.edges [p] u := by
        rintro ⟨a, hua, -⟩
        exact absurd hua.length_le (by simp)
      rw [closedRefs, if_neg hnc]
    obtain ⟨hrel, hexact⟩ := hr.close hp hs hf hfw hj htouch fun u => (hclosed u).le
    refine ⟨st.incRcount f, ?_, hrel, ?_⟩
    · have hback : (st.stat p).rset = (st.stat f).rset := (hset p).mpr hfw
      simp [checkScanned, hok, hcyc, hout, hr.ovec, hp, hback]
    · rw [hexact, hlossy]
      simp only [List.not_mem_nil, false_and, exists_false, not_false_eq_true, and_true]
      exact ⟨fun hx => hx.1, fun hx => ⟨hx, hclosed⟩⟩
  | cons q above =>
    obtain ⟨rfl, -⟩ : p = q ∧ rest = above ++ w :: below := List.cons.inj (hp.symm.trans hs)
    have hni : f ∉ p :: above := fun hm => hfs (hmem f hm)
    have hnd : ((p :: above) ++ [w]).Nodup := by
      have hnd := hr.inv.nodup
      rw [hs, show (p :: above) ++ w :: below = ((p :: above) ++ [w]) ++ below by simp] at hnd
      exact hnd.of_append_left
    obtain ⟨r, st', heq, hj⟩ := makeChain_join g f (p :: above).reverse st hr.wf hsome hsf
      (fun x hx => (hr.scanned x).mpr (hr.inv.stack_visited x (hmem x (List.mem_reverse.mp hx))))
      (List.nodup_reverse.mpr hnd.of_append_left) fun hm => hni (List.mem_reverse.mp hm)
    obtain ⟨hrel, hexact⟩ := hr.close hp hs hf hfw hj htouch fun u => hr.chainInc_le hnd u
    refine ⟨st', ?_, hrel, ?_⟩
    · have hback : (st.stat p).rset ≠ (st.stat f).rset := fun h0 =>
        hno p (by simp) ((hset p).mp h0)
      have hchain := chainAfter_split (fun o => decide ((st.stat o).rset = (st.stat f).rset))
        (p :: above) below w (by simpa using (hset w).mpr hfw)
        (fun v hv => by simpa using fun h0 => hno v hv ((hset v).mp h0))
      rw [List.cons_append] at hovec hchain
      simp only [checkScanned, hok, hcyc, hout, hovec, hback, hchain, heq]
      rfl
    · rw [hexact, hlossy, hr.chainInc_eq_iff hni (by simp) hnd
        fun v hv hwv => hno v hv (hfw.trans hwv)]

/-! ### The events -/

/-- A reference to an object whose component is not on the path. -/
theorem Rel.elsewhere (hr : Rel h s st) (hp : s.stack = p :: rest) (hf : f ∈ s.visited)
    (hno : ∀ w ∈ s.stack, ¬ Same (Adj s.edges) f w) :
    Rel h { s with edges := (p, f) :: s.edges } st ∧
      (Exact { s with edges := (p, f) :: s.edges } st ↔ Exact s st ∧ ¬ Lossy s f) := by
  have hreach := hr.inv.not_reach hp hno
  refine ⟨hr.still hp hf hreach, ?_⟩
  have hlossy : ¬ Lossy s f := by
    rintro (⟨above, below, -, -, hs, -⟩ | ⟨-, above, w, below, -, hs, hfw, -⟩)
    · exact hno f (by simp [hs]) (Same.refl _ f)
    · exact hno w (by simp [hs]) hfw
  simp only [Exact, Dfs.internal_of_not_reach hreach, hlossy, not_false_eq_true, and_true]

/-- A reference to a scanned object. -/
theorem Rel.known (hr : Rel h s st) (g : Obj → List Obj) (hp : s.stack = p :: rest)
    (hf : f ∈ s.visited) :
    ∃ st', checkScanned (singleThreaded g) h st f = (false, st') ∧
      Rel h { s with edges := (p, f) :: s.edges } st' ∧
      (Exact { s with edges := (p, f) :: s.edges } st' ↔ Exact s st ∧ ¬ Lossy s f) := by
  by_cases hfs : f ∈ s.stack
  · exact hr.back g hp hfs
  · by_cases hin : ∃ w ∈ s.stack, Same (Adj s.edges) f w
    · obtain ⟨above, w, below, hs, hfw, hno⟩ := Dfs.exists_first hin
      exact hr.chain g hp hf hfs hs hfw hno
    · -- No branch of the source does anything.
      have hno : ∀ w ∈ s.stack, ¬ Same (Adj s.edges) f w := fun w hw hs => hin ⟨w, hw, hs⟩
      refine ⟨st, ?_, hr.elsewhere hp hf hno⟩
      have hout : st.inCurrentSet f = false := by simp [inCurrentSet, hr.ovec, hfs]
      have hovec : st.ovec = p :: rest := hr.ovec.trans hp
      by_cases hok : (st.stat f).ok = true
      · simp [checkScanned, hok]
      · cases hrf : (st.stat f).rset with
        | none =>
          have hcyc : (st.stat f).inCycle = false := by rw [hr.wf.inCycle f, hrf]; rfl
          simp [checkScanned, hok, hcyc, hout]
        | some rf =>
          have hsome : (st.stat f).rset.isSome := by simp [hrf]
          have hcyc : (st.stat f).inCycle = true := by rw [hr.wf.inCycle f, hsome]
          have hne : ∀ v ∈ p :: rest, (st.stat v).rset ≠ some rf := by
            intro v hv heq
            exact hno v (hp ▸ hv) ((hr.same f v hsome).mp (hrf.trans heq.symm))
          obtain ⟨R, hR, -, hRm⟩ := hr.wf.holds f rf hrf
          have h1 : (p :: rest).any (fun o => decide ((st.stat o).rset = some rf)) = false := by
            simpa using hne
          have h2 : (p :: rest).any (st.inRSetOf (st.stat f)) = false := by
            rw [List.any_eq_false]
            intro v hv
            simpa [inRSetOf, hrf, members, hR, hRm] using hne v hv
          simp [checkScanned, hok, hcyc, hout, hovec, hrf, hne p (by simp), chainAfter, h1, h2]

/-- An object that is not scanned has the default record. -/
theorem stat_insert (hf : st.fomap f = none) (o : Obj) : (st.insert f).stat o = st.stat o := by
  by_cases ho : o = f
  · simp [ho, stat, RSetHelper.insert, hf]
  · simp [stat, RSetHelper.insert, ho]

theorem scanned_insert (f o : Obj) :
    ((st.insert f).fomap o).isSome ↔ o = f ∨ (st.fomap o).isSome := by
  by_cases ho : o = f
  · simp [ho, RSetHelper.insert]
  · simp [RSetHelper.insert, ho]

theorem WF.insert (hwf : WF h st) (hf : st.fomap f = none) : WF h (st.insert f) := by
  have hstat := stat_insert hf
  have hholds : ∀ r, Holds st r → Holds (st.insert f) r := by
    rintro r ⟨R, hR, hv, hm⟩
    exact ⟨R, hR, hv, fun x => by rw [hstat, hm]⟩
  refine ⟨fun o => by rw [hstat]; exact hwf.inCycle o, fun o r hr => ?_, fun o r hr => ?_, hwf.old,
    hwf.inval, hwf.next_le, fun o => ?_, ?_⟩
  · exact hwf.range o r (hstat o ▸ hr)
  · exact hholds r (hwf.holds o r (hstat o ▸ hr))
  · rw [scanned_insert, ← hwf.order o]
    exact List.mem_cons
  · refine List.nodup_cons.mpr ⟨fun hm => ?_, hwf.nodup⟩
    rw [hwf.order f, hf] at hm
    simp at hm

/-- A reference to a new object changes no component and no count. -/
theorem Rel.follow_new (hr : Rel h s st) (hf : f ∉ s.visited) :
    (∀ a b, Same (Adj (s.follow f)) a b ↔ Same (Adj s.edges) a b) ∧
    (∀ a, OnCycle (Adj (s.follow f)) a ↔ OnCycle (Adj s.edges) a) ∧
    (∀ u, internal (s.follow f) u = internal s.edges u) ∧
    (∀ a b, (a, b) ∈ s.follow f → (a, b) ∈ s.edges ∨ a ∈ s.stack) ∧ ¬ Lossy s f := by
  have hlossy : ¬ Lossy s f := by
    rintro (⟨above, below, -, -, hs, -⟩ | ⟨-, above, w, below, -, hs, hfw, -⟩)
    · exact hf (hr.inv.stack_visited f (by simp [hs]))
    · have hw : w ∈ s.stack := by simp [hs]
      exact hf (hr.inv.reach_new hf hfw.1 ▸ hr.inv.stack_visited w hw)
  cases hs : s.stack with
  | nil =>
    have hfol : s.follow f = s.edges := by simp [State.follow, hs]
    rw [hfol]
    exact ⟨fun _ _ => Iff.rfl, fun _ => Iff.rfl, fun _ => rfl, fun _ _ => Or.inl, hlossy⟩
  | cons p rest =>
    have hfol : s.follow f = (p, f) :: s.edges := by simp [State.follow, hs]
    have hno := hr.inv.not_reach_new hs hf
    rw [hfol]
    refine ⟨fun _ _ => same_cons_of_not_reach hno, fun _ => onCycle_cons_of_not_reach hno,
      fun u => Dfs.internal_of_not_reach hno u, fun a b hab => ?_, hlossy⟩
    rcases List.mem_cons.mp hab with heq | hab
    · exact Or.inr ((Prod.mk.inj heq).1 ▸ by simp)
    · exact Or.inl hab

/-- What the scan does at one event of the traversal. -/
def onEvent (g : Obj → List Obj) (h : Heap Obj) (st : RSetHelper Obj) :
    Event Obj → RSetHelper Obj
  | .ref f =>
    if (st.fomap f).isSome then (checkScanned (singleThreaded g) h st f).2
    else if (singleThreaded g).needsScan f then (st.insert f).push f
    else (st.insert f).markOk f
  | .leave => st.pop

/-- The event loses a count. -/
def LossyEvent (s : State Obj) : Event Obj → Prop
  | .ref f => Lossy s f
  | .leave => False

/-- A reference to a new object. -/
theorem Rel.new (hr : Rel h s st) (g : Obj → List Obj) (hf : f ∉ s.visited) :
    Rel h (Dfs.step g s (.ref f)) (onEvent g h st (.ref f)) ∧
      (Exact (Dfs.step g s (.ref f)) (onEvent g h st (.ref f)) ↔ Exact s st ∧ ¬ Lossy s f) := by
  obtain ⟨hsame, hcycle, hinternal, hedge, hlossy⟩ := hr.follow_new hf
  have hnone : st.fomap f = none := by
    have hns := mt (hr.scanned f).mp hf
    simpa using hns
  have hstat := stat_insert hnone
  have hinv := hr.inv.step g (.ref f)
  have hwf := hr.wf.insert hnone
  have hscan : ∀ o, ((st.insert f).fomap o).isSome ↔ o ∈ f :: s.visited := fun o => by
    rw [scanned_insert, hr.scanned o, List.mem_cons]
  by_cases hg : g f = []
  · have hstep : Dfs.step g s (.ref f) = ⟨s.follow f, f :: s.visited, s.stack⟩ := by
      simp [Dfs.step, hf, hg]
    have hev : onEvent g h st (.ref f) = (st.insert f).markOk f := by
      simp [onEvent, hnone, Env.needsScan, singleThreaded, hg]
    have hfield : ∀ {β : Type} (field : RSetStat → β) (o : Obj),
        (∀ t : RSetStat, field { t with ok := true } = field t) →
        field (((st.insert f).markOk f).stat o) = field (st.stat o) := fun field o hfd => by
      rw [← hstat o]
      exact stat_modify_field f o _ field hfd
    rw [hstep] at hinv ⊢
    rw [hev]
    refine ⟨⟨hinv, hwf.congr rfl rfl rfl rfl (fun o => scanned_modify f o _) (fun o => ?_)
      (fun o => ?_), hr.ovec, fun o => ?_, fun o ho => ?_, fun o => ?_, fun a b ha => ?_,
      fun o => ?_⟩, ?_⟩
    · rw [hfield RSetStat.inCycle o fun _ => rfl, hstat]
    · rw [hfield RSetStat.rset o fun _ => rfl, hstat]
    · rw [← hscan o]
      exact Bool.eq_iff_iff.mp (scanned_modify f o _)
    · -- The new object is not on the path and has no edge out of it.
      by_cases hof : o = f
      · subst hof
        have hstack : o ∉ s.stack := fun hm => hf (hr.inv.stack_visited o hm)
        refine ⟨hstack, fun x hx => ?_⟩
        rcases hedge o x hx with hx | hx
        · exact (hr.inv.isolated hf).1 hx
        · exact hstack hx
      · have hko : (st.stat o).ok = true := by
          rw [← hstat o, ← stat_modify_ne hof fun t => { t with ok := true }]
          exact ho
        obtain ⟨hstack, hedges⟩ := hr.ok o hko
        refine ⟨hstack, fun x hx => ?_⟩
        rcases hedge o x hx with hx | hx
        · exact hedges x hx
        · exact hstack hx
    · rw [hfield RSetStat.rset o fun _ => rfl, hr.cycle, hcycle]
    · rw [hfield RSetStat.rset a fun _ => rfl] at ha ⊢
      rw [hfield RSetStat.rset b fun _ => rfl, hr.same a b ha, hsame]
    · rw [hfield RSetStat.rcount o fun _ => rfl, hinternal]
      exact hr.bound o
    · simp only [Exact, hinternal, hlossy, not_false_eq_true, and_true]
      exact forall_congr' fun o => by rw [hfield RSetStat.rcount o fun _ => rfl]
  · have hstep : Dfs.step g s (.ref f) = ⟨s.follow f, f :: s.visited, f :: s.stack⟩ := by
      simp [Dfs.step, hf, hg]
    have hev : onEvent g h st (.ref f) = (st.insert f).push f := by
      simp [onEvent, hnone, Env.needsScan, singleThreaded, hg]
    have hpush : ∀ o, ((st.insert f).push f).stat o = st.stat o := fun o => hstat o
    rw [hstep] at hinv ⊢
    rw [hev]
    refine ⟨⟨hinv, hwf.congr rfl rfl rfl rfl (fun _ => rfl) (fun _ => rfl) fun _ => rfl, ?_, hscan,
      fun o ho => ?_, fun o => ?_, fun a b ha => ?_, fun o => ?_⟩, ?_⟩
    · rw [← hr.ovec]
      rfl
    · rw [hpush] at ho
      obtain ⟨hstack, hedges⟩ := hr.ok o ho
      have hof : o ≠ f := by
        rintro rfl
        have hnew : st.stat o = RSetStat.new := by simp [stat, hnone]
        rw [hnew] at ho
        simp [RSetStat.new] at ho
      refine ⟨by simp [hof, hstack], fun x hx => ?_⟩
      rcases hedge o x hx with hx | hx
      · exact hedges x hx
      · exact hstack hx
    · rw [hpush, hr.cycle, hcycle]
    · rw [hpush] at ha ⊢
      rw [hpush, hr.same a b ha, hsame]
    · rw [hpush, hinternal]
      exact hr.bound o
    · simp only [Exact, hinternal, hlossy, not_false_eq_true, and_true, hpush]

/-- With an empty path a scanned object is left alone. -/
theorem checkScanned_nil (hovec : st.ovec = []) :
    checkScanned (singleThreaded g) h st f = (false, st) := by
  simp only [checkScanned, inCurrentSet, hovec, List.not_mem_nil, decide_false]
  split
  · rfl
  · split <;> rfl

/-- A reference to a scanned object meets no lock conflict. -/
theorem Rel.no_conflict (hr : Rel h s st) (g : Obj → List Obj) (hf : f ∈ s.visited) :
    (checkScanned (singleThreaded g) h st f).1 = false := by
  by_cases hs : s.stack = []
  · rw [checkScanned_nil g (hr.ovec.trans hs)]
  · obtain ⟨p, rest, hs⟩ := List.exists_cons_of_ne_nil hs
    obtain ⟨st', heq, -⟩ := hr.known g hs hf
    rw [heq]

/-- Every event keeps the relation, and keeps the counts exact unless it loses one. -/
theorem Rel.event (hr : Rel h s st) (g : Obj → List Obj) (e : Event Obj) :
    Rel h (Dfs.step g s e) (onEvent g h st e) ∧
      (Exact (Dfs.step g s e) (onEvent g h st e) ↔ Exact s st ∧ ¬ LossyEvent s e) := by
  cases e with
  | leave =>
    have hovec : (onEvent g h st .leave).ovec = s.stack.tail := by rw [← hr.ovec]; rfl
    have htail : ∀ o ∈ s.stack.tail, o ∈ s.stack := fun o ho => List.mem_of_mem_tail ho
    exact ⟨⟨hr.inv.leave, hr.wf.congr rfl rfl rfl rfl (fun _ => rfl) (fun _ => rfl) fun _ => rfl,
      hovec, hr.scanned, fun o ho => ⟨fun hm => (hr.ok o ho).1 (htail o hm), (hr.ok o ho).2⟩,
      hr.cycle, hr.same, hr.bound⟩, by simp [LossyEvent, Exact, Dfs.step, onEvent, pop, stat]⟩
  | ref f =>
    by_cases hf : f ∈ s.visited
    · have hscan : (st.fomap f).isSome := (hr.scanned f).mpr hf
      have hev : onEvent g h st (.ref f) = (checkScanned (singleThreaded g) h st f).2 := by
        simp [onEvent, hscan]
      have hstep : Dfs.step g s (.ref f) = { s with edges := s.follow f } := by
        simp [Dfs.step, hf]
      rw [hev, hstep]
      by_cases hs : s.stack = []
      · -- The start object is not scanned twice; nothing would happen.
        have hfol : s.follow f = s.edges := by simp [State.follow, hs]
        have hlossy : ¬ Lossy s f := by
          rintro (⟨above, below, -, -, hs', -⟩ | ⟨-, above, w, below, -, hs', -⟩) <;> simp [hs] at hs'
        rw [checkScanned_nil g (hr.ovec.trans hs), hfol]
        exact ⟨hr, by simp [LossyEvent, hlossy, Exact]⟩
      · obtain ⟨p, rest, hs⟩ := List.exists_cons_of_ne_nil hs
        have hfol : s.follow f = (p, f) :: s.edges := by simp [State.follow, hs]
        obtain ⟨st', heq, hrel, hexact⟩ := hr.known g hs hf
        rw [heq, hfol]
        exact ⟨hrel, hexact⟩
    · exact hr.new g hf

/-- A run of events. -/
theorem Rel.events (es : List (Event Obj)) : ∀ (s : State Obj) (st : RSetHelper Obj), Rel h s st →
      Rel h (Dfs.run g s es) (es.foldl (onEvent g h) st) ∧
      (Exact (Dfs.run g s es) (es.foldl (onEvent g h) st) ↔
        Exact s st ∧ ∀ pre e post, es = pre ++ e :: post → ¬ LossyEvent (Dfs.run g s pre) e) := by
  induction es with
  | nil => intro s st hr; exact ⟨hr, by simp [Dfs.run]⟩
  | cons e es ih =>
    intro s st hr
    obtain ⟨hrel, hexact⟩ := hr.event g e
    obtain ⟨hrel', hexact'⟩ := ih _ _ hrel
    refine ⟨hrel', ?_⟩
    rw [show Dfs.run g s (e :: es) = Dfs.run g (Dfs.step g s e) es from rfl, List.foldl_cons, hexact',
      hexact, and_assoc]
    refine and_congr_right fun _ => ⟨?_, ?_⟩
    · rintro ⟨h1, h2⟩ pre e' post heq
      cases pre with
      | nil =>
        obtain ⟨rfl, -⟩ := List.cons.inj heq
        exact h1
      | cons e0 pre =>
        obtain ⟨rfl, htail⟩ := List.cons.inj heq
        exact h2 pre e' post htail
    · intro hall
      exact ⟨hall [] e es rfl, fun pre e' post heq => hall (e :: pre) e' post (by rw [heq]; rfl)⟩

/-- `checkIntern` replays the events of the depth-first visit, and meets no lock conflict. -/
theorem checkIntern_run :
    ∀ (n : Nat) (s : State Obj) (st : RSetHelper Obj) (f : Obj) (es : List (Event Obj))
      (vis' : List Obj), Rel h s st → Dfs.visit g n s.visited f = some (es, vis') →
        checkIntern (singleThreaded g) h n st f = some (false, es.foldl (onEvent g h) st) := by
  intro n
  induction n with
  | zero => intro s st f es vis' _ hv; simp [Dfs.visit] at hv
  | succ n ih =>
    -- The members are scanned one after the other.
    have hlist : ∀ (fs : List Obj) (s : State Obj) (st : RSetHelper Obj) (es : List (Event Obj))
        (vis' : List Obj), Rel h s st → Dfs.visitList (Dfs.visit g n) fs s.visited = some (es, vis') →
          scanMembers (checkIntern (singleThreaded g) h n) fs st =
            some (false, es.foldl (onEvent g h) st) := by
      intro fs
      induction fs with
      | nil =>
        intro s st es vis' _ hv
        simp only [Dfs.visitList, Option.some.injEq, Prod.mk.injEq] at hv
        rw [← hv.1]
        rfl
      | cons f fs ihl =>
        intro s st es vis' hr hv
        simp only [Dfs.visitList] at hv
        cases h1 : Dfs.visit g n s.visited f with
        | none => simp [h1] at hv
        | some r =>
          obtain ⟨es1, v1⟩ := r
          simp only [h1] at hv
          cases h2 : Dfs.visitList (Dfs.visit g n) fs v1 with
          | none => simp [h2] at hv
          | some r =>
            obtain ⟨es2, v2⟩ := r
            simp only [h2, Option.some.injEq, Prod.mk.injEq] at hv
            have hvis : (Dfs.run g s es1).visited = v1 := (Dfs.visit_seen g n s f es1 v1
              (fun p hp => hr.inv.stack_visited p (List.mem_of_mem_head? hp)) h1).2
            have hrest := ihl (Dfs.run g s es1) (es1.foldl (onEvent g h) st) es2 v2
              (Rel.events g es1 s st hr).1 (by rw [hvis]; exact h2)
            rw [scanMembers, ih s st f es1 v1 hr h1, ← hv.1, List.foldl_append]
            exact hrest
    intro s st f es vis' hr hv
    have hvalid : (singleThreaded g).isValid f = true := rfl
    have hlock : (!st.hasRSectionLock f && (singleThreaded g).locked f) = false := by
      simp [singleThreaded]
    by_cases hf : f ∈ s.visited
    · have hscan : (st.fomap f).isSome := (hr.scanned f).mpr hf
      simp only [Dfs.visit, hf, if_true, Option.some.injEq, Prod.mk.injEq] at hv
      rw [← hv.1]
      have hconf : checkScanned (singleThreaded g) h st f =
          (false, (checkScanned (singleThreaded g) h st f).2) := by
        rw [← hr.no_conflict g hf]
      rw [checkIntern, checkObject, hlock, hvalid, hscan, hconf]
      simp only [List.foldl_cons, List.foldl_nil, onEvent, hscan, if_true]
      rfl
    · have hscan : (st.fomap f).isSome = false := by
        have hns := mt (hr.scanned f).mp hf
        simpa using hns
      by_cases hg : g f = []
      · simp only [Dfs.visit, hf, if_false, hg, if_true, Option.some.injEq, Prod.mk.injEq] at hv
        rw [← hv.1, checkIntern, checkObject, hlock, hvalid, hscan]
        simp [onEvent, hscan, Env.needsScan, singleThreaded, hg]
      · simp only [Dfs.visit, hf, if_false, hg] at hv
        cases h1 : Dfs.visitList (Dfs.visit g n) (g f) (f :: s.visited) with
        | none => simp [h1] at hv
        | some r =>
          obtain ⟨es1, v1⟩ := r
          simp only [h1, Option.some.injEq, Prod.mk.injEq] at hv
          have hev : onEvent g h st (.ref f) = (st.insert f).push f := by
            simp [onEvent, hscan, Env.needsScan, singleThreaded, hg]
          have hstep : (Dfs.step g s (.ref f)).visited = f :: s.visited := by
            simp [Dfs.step, hf, hg]
          have hmembers := hlist (g f) _ _ es1 v1 (hr.event g (.ref f)).1 (by rw [hstep]; exact h1)
          rw [hev] at hmembers
          have hneeds : (singleThreaded g).needsScan f = true := by
            simp [Env.needsScan, singleThreaded, hg]
          have hrefs : (singleThreaded g).refs f = g f := rfl
          rw [← hv.1, checkIntern, checkObject, hlock, hvalid, hscan, hneeds, hrefs]
          simp only [hmembers, List.foldl_cons, hev, List.foldl_append, List.foldl_nil]
          rfl

end

end Qore.Collector
