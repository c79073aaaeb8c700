import Mathlib
import Qore.Collector.Commit

/-!
# `Qore.Collector.Correct`: soundness of the collector, and when it is complete

The objects form a multigraph `g`: one entry of `g p` for each reference to an object that
the scan finds in the members of `p`. A reference count counts these references and the ones
held outside every object (`ext`).

* `scan_sound`: after a scan every recursive set lies in one component, and a count is at
  most the number of references from the set. So `canDelete` answers 1 only for a set without
  references from outside.
* `scan_complete_iff`: the sets are the components with a cycle, but the counts are exact only
  if no reference of the traversal is `Lossy`. `scan_twoSelfReferences` is a component
  of two objects whose counts stay too small.
-/

set_option autoImplicit false

namespace Qore.Collector

open RSetHelper
open Qore.Lib
open Qore.Lib.Digraph
open Qore.Lib.Dfs (State Refers traversed internal componentRefs)

variable {Obj : Type}

/-- `canDelete` answers 1 only when every count of the set is the reference count. -/
theorem canDelete_one_iff {g : Obj → List Obj} {rcount : Obj → Nat} {R : RSet Obj}
    (refs : Obj → Nat) (refCopy rc : Nat) :
    (R.canDelete (singleThreaded g) rcount refs refCopy rc).1 = 1 ↔
      R.valid = true ∧ refCopy = rc ∧ ∀ o ∈ R.set, rcount o = refs o := by
  unfold RSet.canDelete
  rw [if_neg (by simp [singleThreaded])]
  by_cases hv : R.valid = true
  · rw [if_neg (by simp [hv])]
    by_cases hrc : refCopy = rc
    · rw [if_neg (by simp [hrc])]
      split
      · -- A member whose count differs: the answer is 0.
        rename_i hex
        obtain ⟨o, ho, hbad⟩ := hex
        have hno : rcount o ≠ refs o := by simpa [singleThreaded] using hbad
        exact iff_of_false (by simp) fun hc => hno (hc.2.2 o ho)
      · rename_i hex
        refine iff_of_true rfl ⟨hv, hrc, fun o ho => ?_⟩
        by_contra hno
        exact hex ⟨o, ho, Or.inr hno⟩
    · rw [if_pos hrc]
      exact iff_of_false (by simp) fun hc => hrc hc.2.1
  · rw [if_pos (by simp [hv])]
    exact iff_of_false (by simp) fun hc => hv hc.1

variable [DecidableEq Obj]

/-- The number of references to `o` that the objects of `S` hold. -/
def refsFrom (g : Obj → List Obj) (S : Finset Obj) (o : Obj) : Nat := ∑ a ∈ S, (g a).count o

/-- The reference count of an object: `ext o` references from outside every object, and the
references in the members of the objects. -/
def references [Fintype Obj] (g : Obj → List Obj) (ext : Obj → Nat) (o : Obj) : Nat :=
  ext o + refsFrom g Finset.univ o

/-- A set inside one component whose counts do not exceed the references from the set. -/
structure SoundSet (g : Obj → List Obj) (rcount : Obj → Nat) (R : RSet Obj) : Prop where
  component : ∀ a ∈ R.set, ∀ b ∈ R.set, Same (Refers g) a b
  count : ∀ o ∈ R.set, rcount o ≤ refsFrom g R.set o

/-- Every set that an object points to is sound, holds only objects that point to it, and is
empty when it is invalid. -/
def Sound (g : Obj → List Obj) (h : HeapData Obj) : Prop :=
  ∀ o r R, h.rset o = some r → h.sets r = some R →
    (∀ x ∈ R.set, h.rset x = some r) ∧ (R.valid = false → R.set = ∅) ∧ SoundSet g h.rcount R

section
variable [Fintype Obj] {g : Obj → List Obj} {rcount : Obj → Nat} {R : RSet Obj}

/-- The references to an object split into those from a set and those from the other
objects. -/
theorem refsFrom_univ (g : Obj → List Obj) (S : Finset Obj) (o : Obj) :
    refsFrom g Finset.univ o = refsFrom g S o + refsFrom g Sᶜ o :=
  (Finset.sum_add_sum_compl S _).symm

/-- `canDelete` answers 1 for a sound set only when all references to its members come from
the set. -/
theorem SoundSet.canDelete (hs : SoundSet g rcount R) {ext : Obj → Nat} {refCopy rc : Nat}
    (hdel : (R.canDelete (singleThreaded g) rcount (references g ext) refCopy rc).1 = 1)
    {x : Obj} (hx : x ∈ R.set) : ext x = 0 ∧ ∀ p, x ∈ g p → p ∈ R.set := by
  have heq := ((canDelete_one_iff _ _ _).mp hdel).2.2 x hx
  have hle := hs.count x hx
  rw [references, refsFrom_univ g R.set x] at heq
  have hout : refsFrom g (R.set)ᶜ x = 0 := by omega
  refine ⟨by omega, fun p hp => ?_⟩
  by_contra hpn
  have hzero : (g p).count x = 0 :=
    Finset.sum_eq_zero_iff.mp hout p (Finset.mem_compl.mpr hpn)
  exact (List.count_pos_iff.mpr hp).ne' hzero

/-! ### The sets of a committed scan -/

section
variable {h : Heap Obj} {start : Obj} {st : RSetHelper Obj}

/-- What a committed scan says of one scanned object. -/
structure Scanned (g : Obj → List Obj) (hd : HeapData Obj) (o : Obj) : Prop where
  none_iff : hd.rset o = none ↔ ¬ OnCycle (Refers g) o
  set : ∀ r, hd.rset o = some r → ∃ R, hd.sets r = some R ∧ R.valid = true ∧
    ∀ x, x ∈ R.set ↔ Same (Refers g) o x
  count : hd.rcount o ≤ componentRefs g o

/-- Objects of one component have the same set, and no others have. -/
theorem Rel.committed_same (hr : Rel h (traversed g start) st) {a b : Obj}
    (ha : Reach (Refers g) start a) (hsome : (st.stat a).rset.isSome) :
    (st.stat a).rset = (st.stat b).rset ↔ Same (Refers g) a b := by
  rw [hr.same a b hsome, Dfs.traversed_same g start ha]

theorem Rel.scanned_iff (hr : Rel h (traversed g start) st) (o : Obj) :
    o ∈ st.order ↔ Reach (Refers g) start o := by
  rw [hr.wf.order o, hr.scanned o]
  exact (Dfs.traversal_spec g start).2.1 o

/-- A committed scan has the components with a cycle as its sets. -/
theorem Rel.scanned_committed (hr : Rel h (traversed g start) st) {o : Obj}
    (ho : Reach (Refers g) start o) : Scanned g (st.commit h) o := by
  have hc := commit_committed hr.wf
  have hrset : (st.commit h).rset o = (st.stat o).rset := by
    rw [hc.rset o, if_pos ((hr.scanned_iff o).mpr ho)]
  have hcount : (st.commit h).rcount o = (st.stat o).rcount := by
    rw [hc.rcount o, if_pos ((hr.scanned_iff o).mpr ho)]
  refine ⟨?_, fun r hro => ?_, ?_⟩
  · rw [hrset, hr.none_iff o, Dfs.traversed_onCycle g start ho]
  · rw [hrset] at hro
    obtain ⟨R, hR, hv, hm⟩ := hr.wf.holds o r hro
    obtain ⟨R', hR', hset, hvalid⟩ := hc.new r R (hr.wf.range o r hro).1 hR
    refine ⟨R', hR', hvalid.trans hv, fun x => ?_⟩
    rw [hset, hm x, ← hr.committed_same ho (by simp [hro]), hro, eq_comm]
  · rw [hcount, ← Dfs.traversed_internal g start ho]
    exact hr.bound o

/-- The references inside a component are those from its set. -/
theorem componentRefs_eq {o : Obj} (hR : ∀ x, x ∈ R.set ↔ Same (Refers g) o x) :
    componentRefs g o = refsFrom g R.set o := by
  classical
  refine Finset.sum_congr ?_ fun _ _ => rfl
  ext x
  rw [Finset.mem_filter, hR]
  exact ⟨fun hx => hx.2.symm, fun hx => ⟨Finset.mem_univ x, hx.symm⟩⟩

/-- The set of a scanned object is sound, and its members point to it. -/
theorem Rel.soundSet (hr : Rel h (traversed g start) st) {o : Obj} {r : RSetId}
    (ho : Reach (Refers g) start o) (hro : (st.commit h).rset o = some r) :
    ∃ R, (st.commit h).sets r = some R ∧ R.valid = true ∧ o ∈ R.set ∧
      (∀ x ∈ R.set, (st.commit h).rset x = some r) ∧ SoundSet g (st.commit h).rcount R := by
  have hc := commit_committed hr.wf
  obtain ⟨R, hR, hv, hm⟩ := (hr.scanned_committed ho).set r hro
  have hreach : ∀ x ∈ R.set, Reach (Refers g) start x := fun x hx => ho.trans ((hm x).mp hx).1
  refine ⟨R, hR, hv, (hm o).mpr (Same.refl _ o), fun x hx => ?_, fun a ha b hb => ?_, fun x hx => ?_⟩
  · have hso := hc.rset o
    rw [if_pos ((hr.scanned_iff o).mpr ho)] at hso
    have hsome : (st.stat o).rset.isSome := by rw [← hso, hro]; rfl
    rw [hc.rset x, if_pos ((hr.scanned_iff x).mpr (hreach x hx)),
      ← (hr.committed_same ho hsome).mpr ((hm x).mp hx), ← hso, hro]
  · exact ((hm a).mp ha).symm.trans ((hm b).mp hb)
  · have hx' : ∀ y, y ∈ R.set ↔ Same (Refers g) x y := fun y => by
      rw [hm y]
      exact ⟨fun hy => ((hm x).mp hx).symm.trans hy, fun hy => ((hm x).mp hx).trans hy⟩
    rw [← componentRefs_eq hx']
    exact (hr.scanned_committed (hreach x hx)).count

/-- A scan keeps the sets of a sound heap sound: the sets of the objects behind the start are
new, and an old set either has no scanned member or is empty now. -/
theorem Rel.sound (hr : Rel h (traversed g start) st) (hs : Sound g h.toHeapData) :
    Sound g (st.commit h) := by
  intro o r R hro hR
  have hc := commit_committed hr.wf
  by_cases ho : Reach (Refers g) start o
  · obtain ⟨R', hR', hv, -, hm, hsound⟩ := hr.soundSet ho hro
    obtain rfl : R' = R := Option.some.inj (hR'.symm.trans hR)
    exact ⟨hm, fun hf => absurd (hv.symm.trans hf) (by simp), hsound⟩
  · rw [hc.rset o, if_neg (mt (hr.scanned_iff o).mp ho)] at hro
    rcases hc.old r R (h.rset_lt o r hro) hR with ⟨R0, hR0, hset, hvalid, hinv⟩ | ⟨hset, -⟩
    · obtain ⟨hm, hempty, hsound⟩ := hs o r R0 hro hR0
      have hout : ∀ x ∈ R0.set, x ∉ st.order := by
        intro x hx hxo
        have h0 := hempty (hinv ⟨x, hxo, hm x hx⟩)
        simp [h0] at hx
      rw [hset, hvalid]
      refine ⟨fun x hx => ?_, hempty, ?_, fun x hx => ?_⟩
      · rw [hc.rset x, if_neg (hout x hx)]
        exact hm x hx
      · rw [hset]
        exact hsound.component
      · rw [hset] at hx ⊢
        rw [hc.rcount x, if_neg (hout x hx)]
        exact hsound.count x hx
    · rw [hset]
      exact ⟨by simp, fun _ => rfl, by rw [hset]; simp, by rw [hset]; simp⟩

end

/-- Soundness of the collector. One attempt on any multigraph of valid objects commits. After
it the set of a scanned object lies in one component, its counts do not exceed the references
from the set, and `canDelete` answers 1 for it only when no reference to a member comes from
outside the set. When every set of the heap was sound before, every set is sound now. -/
theorem scan_sound (g : Obj → List Obj) (h : Heap Obj) (start : Obj) :
    ∃ h' : Heap Obj, RSetHelper.run (singleThreaded g) h start = some (.done h'.toHeapData) ∧
      (∀ o r, Reach (Refers g) start o → h'.rset o = some r →
        ∃ R, h'.sets r = some R ∧ R.valid = true ∧ o ∈ R.set ∧
          (∀ a ∈ R.set, ∀ b ∈ R.set, Same (Refers g) a b) ∧
          (∀ x ∈ R.set, h'.rset x = some r ∧ h'.rcount x ≤ refsFrom g R.set x) ∧
          ∀ ext refCopy rc,
            (R.canDelete (singleThreaded g) h'.rcount (references g ext) refCopy rc).1 = 1 →
            ∀ x ∈ R.set, ext x = 0 ∧ ∀ p, x ∈ g p → p ∈ R.set) ∧
      (Sound g h.toHeapData → Sound g h'.toHeapData) := by
  obtain ⟨st, hrun, hr, -⟩ := run_committed g h start
  have hc := commit_committed hr.wf
  refine ⟨⟨st.commit h, hc.rset_lt hr.wf⟩, hrun, fun o r ho hro => ?_, hr.sound⟩
  obtain ⟨R, hR, hv, hmem, hm, hsound⟩ := hr.soundSet ho hro
  exact ⟨R, hR, hv, hmem, hsound.component, fun x hx => ⟨hm x hx, hsound.count x hx⟩,
    fun ext refCopy rc hdel x hx => hsound.canDelete hdel hx⟩

/-! ### Completeness -/

/-- What a complete scan from `start` leaves in the heap. -/
structure Complete (g : Obj → List Obj) (start : Obj) (hd : HeapData Obj) : Prop where
  same : ∀ a b, Reach (Refers g) start a → Reach (Refers g) start b →
    ((∃ r, hd.rset a = some r ∧ hd.rset b = some r) ↔ Same (Refers g) a b ∧ OnCycle (Refers g) a)
  count : ∀ o, Reach (Refers g) start o → OnCycle (Refers g) o → hd.rcount o = componentRefs g o
  acyclic : ∀ o, Reach (Refers g) start o → ¬ OnCycle (Refers g) o →
    hd.rset o = none ∧ hd.rcount o = 0
  collected : ∀ o ext, Reach (Refers g) start o → OnCycle (Refers g) o →
    (∀ x, Same (Refers g) o x → ext x = 0 ∧ ∀ p, x ∈ g p → Same (Refers g) o p) →
    ∃ r R, hd.rset o = some r ∧ hd.sets r = some R ∧
      (R.canDelete (singleThreaded g) hd.rcount (references g ext) (references g ext o)
        (hd.rcount o)).1 = 1

/-- An object on no cycle has no reference from its component. -/
theorem componentRefs_of_acyclic {g : Obj → List Obj} {o : Obj} (ho : ¬ OnCycle (Refers g) o) :
    componentRefs g o = 0 := by
  classical
  rw [componentRefs, Finset.sum_eq_zero_iff]
  intro a ha
  rw [List.count_eq_zero]
  intro hoa
  exact ho (OnCycle.of_edge hoa (Finset.mem_filter.mp ha).2)

/-- The sets are always complete; only the counts can be too small. -/
theorem Rel.complete_iff {h : Heap Obj} {start : Obj} {st : RSetHelper Obj}
    (hr : Rel h (traversed g start) st) :
    Complete g start (st.commit h) ↔ Exact (traversed g start) st := by
  have hc := commit_committed hr.wf
  have hrcount : ∀ o, Reach (Refers g) start o → (st.commit h).rcount o = (st.stat o).rcount :=
    fun o ho => by rw [hc.rcount o, if_pos ((hr.scanned_iff o).mpr ho)]
  have hinternal := fun o => Dfs.traversed_internal g start (u := o)
  constructor
  · intro hcomp o
    by_cases ho : Reach (Refers g) start o
    · rw [← hrcount o ho, hinternal o ho]
      by_cases hcyc : OnCycle (Refers g) o
      · exact hcomp.count o ho hcyc
      · rw [(hcomp.acyclic o ho hcyc).2, componentRefs_of_acyclic hcyc]
    · -- An object that was not scanned has no edges.
      have hno : ¬ OnCycle (Adj (traversed g start).edges) o := by
        rintro ⟨b, hb, -⟩
        exact ho ((Dfs.mem_traversed_edges g start).mp hb).1
      have hle := hr.bound o
      rw [Dfs.internal_eq_zero hno] at hle ⊢
      omega
  · intro hex
    have hcount : ∀ o, Reach (Refers g) start o → (st.commit h).rcount o = componentRefs g o :=
      fun o ho => by rw [hrcount o ho, hex o, hinternal o ho]
    refine ⟨fun a b ha hb => ?_, fun o ho _ => hcount o ho, fun o ho hcyc => ?_,
      fun o ext ho hcyc hclosed => ?_⟩
    · have hra : (st.commit h).rset a = (st.stat a).rset := by
        rw [hc.rset a, if_pos ((hr.scanned_iff a).mpr ha)]
      have hrb : (st.commit h).rset b = (st.stat b).rset := by
        rw [hc.rset b, if_pos ((hr.scanned_iff b).mpr hb)]
      have hcyc := (hr.cycle a).trans (Dfs.traversed_onCycle g start ha)
      rw [hra, hrb]
      constructor
      · rintro ⟨r, h1, h2⟩
        have hsome : (st.stat a).rset.isSome := by simp [h1]
        exact ⟨(hr.committed_same ha hsome).mp (h1.trans h2.symm), hcyc.mp hsome⟩
      · rintro ⟨hab, hcy⟩
        have hsome := hcyc.mpr hcy
        obtain ⟨r, h1⟩ := Option.isSome_iff_exists.mp hsome
        exact ⟨r, h1, ((hr.committed_same ha hsome).mpr hab).symm.trans h1⟩
    · exact ⟨(hr.scanned_committed ho).none_iff.mpr hcyc,
        (hcount o ho).trans (componentRefs_of_acyclic hcyc)⟩
    · obtain ⟨r, hro⟩ : ∃ r, (st.commit h).rset o = some r := by
        rw [← Option.ne_none_iff_exists']
        exact fun h0 => (hr.scanned_committed ho).none_iff.mp h0 hcyc
      obtain ⟨R, hR, hv, hm⟩ := (hr.scanned_committed ho).set r hro
      -- All references to a member come from the set.
      have hall : ∀ x ∈ R.set, (st.commit h).rcount x = references g ext x := by
        intro x hx
        have hox := (hm x).mp hx
        have hx' : ∀ y, y ∈ R.set ↔ Same (Refers g) x y := fun y => by
          rw [hm y]
          exact ⟨fun hy => hox.symm.trans hy, fun hy => hox.trans hy⟩
        have hout : refsFrom g (R.set)ᶜ x = 0 := by
          rw [refsFrom, Finset.sum_eq_zero_iff]
          intro p hp
          rw [List.count_eq_zero]
          intro hpx
          exact Finset.mem_compl.mp hp ((hm p).mpr ((hclosed x hox).2 p hpx))
        rw [hcount x (ho.trans hox.1), componentRefs_eq hx', references, refsFrom_univ g R.set x,
          hout, (hclosed x hox).1]
        omega
      refine ⟨r, R, hro, hR, (canDelete_one_iff _ _ _).mpr ⟨hv, ?_, hall⟩⟩
      exact (hall o ((hm o).mpr (Same.refl _ o))).symm

/-- Completeness of the collector: one attempt always commits, and it is complete exactly when
no reference of the depth-first traversal closes a cycle across finished cycles
(`Lossless`). -/
theorem scan_complete_iff (g : Obj → List Obj) (h : Heap Obj) (start : Obj) :
    ∃ h' : Heap Obj, RSetHelper.run (singleThreaded g) h start = some (.done h'.toHeapData) ∧
      (Complete g start h'.toHeapData ↔ Lossless g start) := by
  obtain ⟨st, hrun, hr, hexact⟩ := run_committed g h start
  exact ⟨⟨st.commit h, (commit_committed hr.wf).rset_lt hr.wf⟩, hrun,
    hr.complete_iff.trans hexact⟩

/-- Two objects, each with a reference to itself and one to the other. -/
def twoSelfReferences : Fin 2 → List (Fin 2)
  | 0 => [0, 1]
  | 1 => [1, 0]

/-- The scan from the first of them counts one reference to the second, which has two: the
reference to itself and the one from the first object, whose cycle was finished before. -/
theorem scan_twoSelfReferences :
    ∃ hd, RSetHelper.run (singleThreaded twoSelfReferences) (Heap.empty (Fin 2)) 0 =
        some (.done hd) ∧ hd.rcount 1 = 1 ∧ componentRefs twoSelfReferences 1 = 2 ∧
      ¬ Complete twoSelfReferences 0 hd := by
  have hrefs : componentRefs twoSelfReferences 1 = 2 := by
    have hall : ∀ a : Fin 2, Same (Refers twoSelfReferences) a 1 := by
      have h01 : Refers twoSelfReferences 0 1 := by unfold Refers; decide
      have h10 : Refers twoSelfReferences 1 0 := by unfold Refers; decide
      intro a
      fin_cases a
      · exact ⟨Reach.of_edge h01, Reach.of_edge h10⟩
      · exact Same.refl _ 1
    classical
    rw [componentRefs, Finset.filter_true_of_mem fun a _ => hall a]
    rfl
  have hreach : Reach (Refers twoSelfReferences) 0 1 := Reach.of_edge (by unfold Refers; decide)
  have hcyc : OnCycle (Refers twoSelfReferences) 1 := ⟨1, by unfold Refers; decide, Reach.refl _ 1⟩
  have hcount : ((RSetHelper.run (singleThreaded twoSelfReferences) (Heap.empty (Fin 2)) 0).bind
      fun out => out.heap?.map fun hd => hd.rcount 1) = some 1 := by decide
  cases hrun : RSetHelper.run (singleThreaded twoSelfReferences) (Heap.empty (Fin 2)) 0 with
  | none => simp [hrun] at hcount
  | some out =>
    cases out with
    | conflict => simp [hrun, RSetHelper.Outcome.heap?] at hcount
    | done hd =>
      have h1 : hd.rcount 1 = 1 := by simpa [hrun, RSetHelper.Outcome.heap?] using hcount
      refine ⟨hd, rfl, h1, hrefs, fun hcomp => ?_⟩
      have h2 := hcomp.count 1 hreach hcyc
      omega

end

end Qore.Collector
