import Mathlib
import Qore.Collector.Scan

/-!
# `Qore.Collector.Commit`: what a committed scan leaves in the heap

`commit` stores the record of every scanned object and gives up the old sets. `Committed`
says what the heap holds after it:

* a scanned object has the set and the count of its record, and every other object what it
  had before;
* a set of the transaction is as the transaction left it;
* an old set is as before, or invalid and empty; it is invalid when an object that pointed to
  it was scanned.

`run_committed` puts this together with the scan: one attempt on a multigraph of valid
objects, without other threads, always commits, and its records follow the traversal.
-/

set_option autoImplicit false

namespace Qore.Collector

open RSetHelper
open Qore.Lib
open Qore.Lib.Digraph
open Qore.Lib.Dfs (State Event traversal traversed internal)

variable {Obj : Type} {h : Heap Obj} {st : RSetHelper Obj}

/-! ### The operations of the commit -/

/-- Invalidation empties a valid set. -/
theorem RSet.invalidate_cases (R : RSet Obj) :
    (R.valid = false ∧ R.invalidate = R) ∨ (R.invalidate.set = ∅ ∧ R.invalidate.valid = false) := by
  cases hv : R.valid with
  | false => exact Or.inl ⟨rfl, by simp [RSet.invalidate, hv]⟩
  | true => exact Or.inr (by simp [RSet.invalidate, hv])

/-- `invalidateDeref` on the heap: the set is deleted or invalid, every other one is kept. -/
theorem invalidateDeref_sets (hd : HeapData Obj) (old r : RSetId) (R' : RSet Obj)
    (hR' : (hd.invalidateDeref old).sets r = some R') :
    ∃ R, hd.sets r = some R ∧ ((r ≠ old ∧ R' = R) ∨
      (r = old ∧ ((R.valid = false ∧ R'.set = R.set ∧ R'.valid = R.valid) ∨
        (R'.set = ∅ ∧ R'.valid = false)))) := by
  unfold HeapData.invalidateDeref at hR'
  cases hs : hd.sets old with
  | none =>
    simp only [hs] at hR'
    have hne : r ≠ old := fun heq => by rw [heq, hs] at hR'; simp at hR'
    exact ⟨R', hR', Or.inl ⟨hne, rfl⟩⟩
  | some R =>
    simp only [hs] at hR'
    by_cases hr : r = old
    · subst hr
      rw [Function.update_self] at hR'
      split at hR'
      · simp at hR'
      · obtain rfl := Option.some.inj hR'
        refine ⟨R, hs, Or.inr ⟨rfl, ?_⟩⟩
        rcases R.invalidate_cases with ⟨hv, heq⟩ | hinv
        · exact Or.inl ⟨hv, by rw [heq], by rw [heq]⟩
        · exact Or.inr hinv
    · rw [Function.update_of_ne hr] at hR'
      exact ⟨R', hR', Or.inl ⟨hr, rfl⟩⟩

theorem invalidateDeref_sets_ne (hd : HeapData Obj) {old r : RSetId} (hr : r ≠ old) :
    (hd.invalidateDeref old).sets r = hd.sets r := by
  unfold HeapData.invalidateDeref
  cases hd.sets old with
  | none => rfl
  | some R => simp [hr]

theorem refRSet_sets (hd : HeapData Obj) (r r' : RSetId) :
    (hd.refRSet r).sets r' = if r = r' then (hd.sets r').map fun R => { R with acnt := R.acnt + 1 }
      else hd.sets r' := by
  by_cases hr : r = r'
  · simp [HeapData.refRSet, hr]
  · simp [HeapData.refRSet, hr, Ne.symm hr]

/-! ### The loop of the commit -/

variable [DecidableEq Obj]

/-- The heap after the records of the objects `l` are stored. -/
structure Committed (h : Heap Obj) (st : RSetHelper Obj) (l : List Obj) (hd : HeapData Obj) :
    Prop where
  rset : ∀ o, hd.rset o = if o ∈ l then (st.stat o).rset else h.rset o
  rcount : ∀ o, hd.rcount o = if o ∈ l then (st.stat o).rcount else h.rcount o
  next : hd.next = st.next
  new : ∀ r R, h.next ≤ r → st.sets r = some R →
    ∃ R', hd.sets r = some R' ∧ R'.set = R.set ∧ R'.valid = R.valid
  old : ∀ r R', r < h.next → hd.sets r = some R' →
    (∃ R, h.sets r = some R ∧ R'.set = R.set ∧ R'.valid = R.valid ∧
      ((∃ o ∈ l, h.rset o = some r) → R.valid = false)) ∨
    (R'.set = ∅ ∧ R'.valid = false)

/-- The invalidation of the queued sets touches only old sets. -/
theorem Committed.base (hwf : WF h st) :
    Committed h st [] { h.toHeapData with
      sets := fun r => if r ∈ st.trInvalidate then (st.sets r).map RSet.invalidate else st.sets r
      next := st.next } where
  rset o := by simp
  rcount o := by simp
  next := rfl
  new r R hr hR := by
    have hni : r ∉ st.trInvalidate := fun hm => absurd (hwf.inval r hm) (Nat.not_lt.mpr hr)
    exact ⟨R, by simp [hni, hR], rfl, rfl⟩
  old r R' hr hR' := by
    by_cases hm : r ∈ st.trInvalidate
    · simp only [hm, if_true, Option.map_eq_some_iff] at hR'
      obtain ⟨R, hR, rfl⟩ := hR'
      rcases R.invalidate_cases with ⟨hv, heq⟩ | hinv
      · exact Or.inl ⟨R, hwf.old r hr ▸ hR, by rw [heq], by rw [heq], by simp⟩
      · exact Or.inr hinv
    · simp only [hm, if_false] at hR'
      exact Or.inl ⟨R', hwf.old r hr ▸ hR', rfl, rfl, by simp⟩

/-- Storing one record: the old set of the object is given up. -/
theorem Committed.cons (hwf : WF h st) {l : List Obj} {hd : HeapData Obj}
    (hc : Committed h st l hd) {o : Obj} (ho : o ∉ l) :
    Committed h st (o :: l) (hd.setRSet o (st.stat o).rset (st.stat o).rcount) := by
  have hold : hd.rset o = h.rset o := by rw [hc.rset o, if_neg ho]
  -- The sets after the old one is given up, before the new one is referenced.
  set sets1 : RSetId → Option (RSet Obj) :=
    (h.rset o).elim hd.sets fun old => (hd.invalidateDeref old).sets with hsets1
  have hnew1 : ∀ r, h.next ≤ r → sets1 r = hd.sets r := by
    intro r hr
    cases hro : h.rset o with
    | none => simp [hsets1, hro]
    | some old =>
      have hne : r ≠ old := (Nat.ne_of_lt (Nat.lt_of_lt_of_le (h.rset_lt o old hro) hr)).symm
      simp only [hsets1, hro, Option.elim_some, invalidateDeref_sets_ne hd hne]
  -- The reference to the new set changes no old set, and no members.
  have hsets : ∀ r, (hd.setRSet o (st.stat o).rset (st.stat o).rcount).sets r =
      if (st.stat o).rset = some r then (sets1 r).map fun R => { R with acnt := R.acnt + 1 }
      else sets1 r := by
    intro r
    unfold HeapData.setRSet
    rw [hold]
    cases hro : h.rset o <;> cases hrs : (st.stat o).rset <;>
      simp [hsets1, hro, refRSet_sets]
  have hfields : (hd.setRSet o (st.stat o).rset (st.stat o).rcount).rset =
        Function.update hd.rset o (st.stat o).rset ∧
      (hd.setRSet o (st.stat o).rset (st.stat o).rcount).rcount =
        Function.update hd.rcount o (st.stat o).rcount ∧
      (hd.setRSet o (st.stat o).rset (st.stat o).rcount).next = hd.next := by
    unfold HeapData.setRSet
    rw [hold]
    cases hro : h.rset o with
    | none => cases (st.stat o).rset <;> exact ⟨rfl, rfl, rfl⟩
    | some old =>
      have hd' : (hd.invalidateDeref old).rset = hd.rset ∧
          (hd.invalidateDeref old).rcount = hd.rcount ∧
          (hd.invalidateDeref old).next = hd.next := by
        unfold HeapData.invalidateDeref
        cases hd.sets old <;> exact ⟨rfl, rfl, rfl⟩
      cases (st.stat o).rset <;> simp [HeapData.refRSet, hd']
  refine ⟨fun x => ?_, fun x => ?_, hfields.2.2.trans hc.next, fun r R hr hR => ?_,
    fun r R' hr hR' => ?_⟩
  · rw [hfields.1, Function.update_apply]
    by_cases hx : x = o
    · simp [hx]
    · simp [hx, hc.rset x]
  · rw [hfields.2.1, Function.update_apply]
    by_cases hx : x = o
    · simp [hx]
    · simp [hx, hc.rcount x]
  · obtain ⟨R1, hR1, hset, hvalid⟩ := hc.new r R hr hR
    rw [hsets, hnew1 r hr, hR1]
    split
    · exact ⟨_, rfl, hset, hvalid⟩
    · exact ⟨R1, rfl, hset, hvalid⟩
  · have hne : (st.stat o).rset ≠ some r := fun heq =>
      absurd (hwf.range o r heq).1 (Nat.not_le.mpr hr)
    rw [hsets, if_neg hne] at hR'
    -- The set of the object itself becomes invalid, any other one keeps its state.
    cases hro : h.rset o with
    | none =>
      simp only [hsets1, hro] at hR'
      rcases hc.old r R' hr hR' with ⟨R, hR, hset, hvalid, himp⟩ | hinv
      · refine Or.inl ⟨R, hR, hset, hvalid, ?_⟩
        rintro ⟨x, hx, hxr⟩
        rcases List.mem_cons.mp hx with rfl | hx
        · rw [hro] at hxr
          simp at hxr
        · exact himp ⟨x, hx, hxr⟩
      · exact Or.inr hinv
    | some old =>
      simp only [hsets1, hro] at hR'
      obtain ⟨R1, hR1, hcase⟩ := invalidateDeref_sets hd old r R' hR'
      rcases hc.old r R1 hr hR1 with ⟨R, hR, hset, hvalid, himp⟩ | hinv
      · rcases hcase with ⟨hrold, rfl⟩ | ⟨rfl, ⟨hv1, hset1, hvalid1⟩ | hinv1⟩
        · refine Or.inl ⟨R, hR, hset, hvalid, ?_⟩
          rintro ⟨x, hx, hxr⟩
          rcases List.mem_cons.mp hx with rfl | hx
          · rw [hro] at hxr
            exact absurd (Option.some.inj hxr).symm hrold
          · exact himp ⟨x, hx, hxr⟩
        · exact Or.inl ⟨R, hR, hset1.trans hset, hvalid1.trans hvalid,
            fun _ => hvalid.symm.trans hv1⟩
        · exact Or.inr hinv1
      · rcases hcase with ⟨-, rfl⟩ | ⟨-, ⟨-, hset1, hvalid1⟩ | hinv1⟩
        · exact Or.inr hinv
        · exact Or.inr ⟨hset1.trans hinv.1, hvalid1.trans hinv.2⟩
        · exact Or.inr hinv1

/-- The whole commit. -/
theorem commit_committed (hwf : WF h st) : Committed h st st.order (st.commit h) := by
  have hall : ∀ l : List Obj, l.Nodup → Committed h st l
      (l.foldr (fun o hd => hd.setRSet o (st.stat o).rset (st.stat o).rcount)
        { h.toHeapData with
          sets := fun r =>
            if r ∈ st.trInvalidate then (st.sets r).map RSet.invalidate else st.sets r
          next := st.next }) := by
    intro l
    induction l with
    | nil => intro _; exact Committed.base hwf
    | cons o l ih =>
      intro hnd
      obtain ⟨ho, hnd'⟩ := List.nodup_cons.mp hnd
      exact Committed.cons hwf (ih hnd') ho
  exact hall st.order hwf.nodup

/-! ### One attempt -/

theorem Rel.init (h : Heap Obj) : Rel h State.init (RSetHelper.init h) := by
  have hstat : ∀ o, (RSetHelper.init h).stat o = RSetStat.new := fun _ => rfl
  have hcyc : ∀ o : Obj, ¬ OnCycle (Adj ([] : List (Obj × Obj))) o := by
    rintro o ⟨b, hb, -⟩
    simp [Adj] at hb
  refine ⟨Dfs.Inv.init, ⟨fun o => by rw [hstat]; rfl, fun o r hr => ?_, fun o r hr => ?_,
    fun r _ => rfl, fun r hr => ?_, Nat.le_refl _, fun o => ?_, List.nodup_nil⟩, rfl, fun o => ?_,
    fun o ho => ?_, fun o => ?_, fun a b ha => ?_, fun o => ?_⟩
  · simp [hstat, RSetStat.new] at hr
  · simp [hstat, RSetStat.new] at hr
  · simp [RSetHelper.init] at hr
  · simp [RSetHelper.init]
  · simp [RSetHelper.init, State.init]
  · simp [hstat, RSetStat.new] at ho
  · exact iff_of_false (by simp [hstat, RSetStat.new]) (hcyc o)
  · simp [hstat, RSetStat.new] at ha
  · simp [hstat, RSetStat.new]

/-- No reference of the traversal from `start` loses a count. -/
def Lossless [Fintype Obj] (g : Obj → List Obj) (start : Obj) : Prop :=
  ∀ pre f post, traversal g start = pre ++ .ref f :: post →
    ¬ Lossy (Dfs.run g State.init pre) f

/-- One attempt commits a transaction that has followed the whole traversal. -/
theorem run_committed [Fintype Obj] (g : Obj → List Obj) (h : Heap Obj) (start : Obj) :
    ∃ st, RSetHelper.run (singleThreaded g) h start = some (.done (st.commit h)) ∧
      Rel h (traversed g start) st ∧ (Exact (traversed g start) st ↔ Lossless g start) := by
  have hcard : Dfs.unseen ([] : List Obj) < Fintype.card Obj + 1 := by
    simp [Dfs.unseen, Finset.card_univ]
  obtain ⟨es, vis', hvisit, -⟩ := Dfs.visit_isSome g (Fintype.card Obj + 1) [] start hcard
  have htrav : traversal g start = es := by simp [traversal, hvisit]
  have hcheck := checkIntern_run g (Fintype.card Obj + 1) State.init (RSetHelper.init h) start es
    vis' (Rel.init h) hvisit
  obtain ⟨hrel, hexact⟩ := Rel.events g es State.init (RSetHelper.init h) (Rel.init h)
  have hinit : Exact State.init (RSetHelper.init h) := fun o => by
    simp [State.init, internal, stat, RSetHelper.init, RSetStat.new]
  refine ⟨es.foldl (onEvent g h) (RSetHelper.init h), ?_, ?_, ?_⟩
  · unfold RSetHelper.run attempt
    rw [hcheck]
    rfl
  · rw [traversed, htrav]
    exact hrel
  · rw [traversed, htrav, hexact, Lossless, htrav]
    constructor
    · exact fun hall pre f post heq => hall.2 pre (.ref f) post heq
    · refine fun hall => ⟨hinit, fun pre e post heq => ?_⟩
      cases e with
      | ref f => exact hall pre f post heq
      | leave => exact fun hno => hno

/-- The committed data is a heap again. -/
theorem Committed.rset_lt (hwf : WF h st) {hd : HeapData Obj} (hc : Committed h st st.order hd)
    (o : Obj) (r : RSetId) (hr : hd.rset o = some r) : r < hd.next := by
  rw [hc.next]
  rw [hc.rset] at hr
  split at hr
  · exact (hwf.range o r hr).2
  · exact Nat.lt_of_lt_of_le (h.rset_lt o r hr) hwf.next_le

end Qore.Collector
