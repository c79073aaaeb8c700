import Mathlib
import Qore.Collector.Locks
import Qore.Collector.Tags
import Qore.Lib.Lts

/-!
# `Qore.Collector.Rollback`: what a conflict leaves behind

`Inv` is the invariant of an attempt: the thread has the rsection locks of the objects in `fomap`
and in `tr_out` and no others, the records and the sets agree (`Tagged`), and the two ledgers are
right. Every function keeps it, with or without a conflict, so `rollback` finds what it needs.

* `check_keeps`: the walk keeps the invariant.
* `rollback_clean`: after `rollback` no lock is held, the sets of the attempt are deleted, and the
  helper is as at its construction but for `closure_set`.
* `rollback_forgets_iff`: a restarted scan forgets everything exactly when the attempt has met no
  closure that needs a scan: `rollback` does not clear `closure_set`.
-/

set_option autoImplicit false

namespace Qore.Collector

open Qore.Lib

namespace Transaction

variable {Obj Con Clo : Type} [LinearOrder Obj]

/-- The locks of the thread are those of `fomap`, of `tr_out`, and the `extra` ones of a function
that has not returned. -/
structure Locked (env : ScanEnv Obj Con Clo) (extra : Finset Obj) (st : Transaction Obj Clo) :
    Prop where
  ledger : Ledger.held st.locks = some st.held
  held : ∀ o, o ∈ st.held ↔ (st.fomap o).isSome = true ∨ o ∈ st.trOut ∨ o ∈ extra
  out : ∀ o ∈ st.trOut, st.fomap o = none
  extra : ∀ o ∈ extra, st.fomap o = none ∧ o ∉ st.trOut
  valid : ∀ o, (st.fomap o).isSome = true ∨ o ∈ st.trOut → env.isValid o = true

/-- The ledger of the addresses lists the sets of the attempt. -/
def Allocated (h : Heap Obj) (st : Transaction Obj Clo) : Prop :=
  ∃ live, Ledger.held st.allocs = some live ∧ ∀ r, r ∈ live ↔ h.next ≤ r ∧ (st.sets r).isSome = true

/-- The invariant of an attempt on the heap `h`. -/
structure Inv (env : ScanEnv Obj Con Clo) (h : Heap Obj) (extra : Finset Obj) (st : Transaction Obj Clo) :
    Prop where
  locked : Locked env extra st
  tagged : Tagged h none st.toRSetHelper
  allocated : Allocated h st

/-- The start of an attempt with a helper that takes some closures for scanned. -/
def startWith (h : Heap Obj) (closures : Finset Clo) : Transaction Obj Clo :=
  { (start h init : Transaction Obj Clo) with closureSet := closures }

/-- What a change of the sets keeps. -/
structure Keeps (st st' : Transaction Obj Clo) : Prop where
  records : SameRecords st.toRSetHelper st'.toRSetHelper
  closureSet : st'.closureSet = st.closureSet

/-- What a step of the walk keeps: nothing that is scanned is forgotten. -/
structure Grows (st st' : Transaction Obj Clo) : Prop where
  order : st.order <:+ st'.order
  closureSet : st.closureSet ⊆ st'.closureSet

section
variable {env : ScanEnv Obj Con Clo} {h : Heap Obj} {extra : Finset Obj}
  {st st' st'' : Transaction Obj Clo} {conflict : Bool} {o : Obj} {os : List Obj} {obj : Obj}

omit [LinearOrder Obj] in
theorem Keeps.refl (st : Transaction Obj Clo) : Keeps st st := ⟨SameRecords.refl _, rfl⟩

omit [LinearOrder Obj] in
theorem Keeps.trans (h1 : Keeps st st') (h2 : Keeps st' st'') : Keeps st st'' :=
  ⟨h1.records.trans h2.records, h2.closureSet.trans h1.closureSet⟩

omit [LinearOrder Obj] in
theorem Grows.refl (st : Transaction Obj Clo) : Grows st st := ⟨List.suffix_rfl, Finset.Subset.refl _⟩

omit [LinearOrder Obj] in
theorem Grows.trans (h1 : Grows st st') (h2 : Grows st' st'') : Grows st st'' :=
  ⟨h1.order.trans h2.order, h1.closureSet.trans h2.closureSet⟩

omit [LinearOrder Obj] in
theorem Keeps.grows (hk : Keeps st st') : Grows st st' :=
  ⟨by rw [hk.records.order], by rw [hk.closureSet]⟩

/-! ### The locks -/

theorem tryLock_cases (hcall : st.tryLock env o = (conflict, st')) :
    conflict = true ∧ st' = st ∧ o ∉ st.held ∨
      conflict = false ∧ (o ∈ st.held ∧ st' = st ∨ o ∉ st.held ∧ st' = st.lock o) := by
  unfold tryLock at hcall
  split_ifs at hcall with hheld hlocked
  · cases hcall
    exact Or.inr ⟨rfl, Or.inl ⟨hheld, rfl⟩⟩
  · cases hcall
    exact Or.inl ⟨rfl, rfl, hheld⟩
  · cases hcall
    exact Or.inr ⟨rfl, Or.inr ⟨hheld, rfl⟩⟩

namespace Locked

variable {o : Obj}

theorem notMem (hl : Locked env extra st) (ho : o ∉ st.held) :
    st.fomap o = none ∧ o ∉ st.trOut ∧ o ∉ extra := by
  rw [hl.held o, not_or, not_or, Option.not_isSome_iff_eq_none] at ho
  exact ho

theorem lock (hl : Locked env extra st) (ho : o ∉ st.held) :
    Locked env (insert o extra) (st.lock o) := by
  obtain ⟨hfomap, hout, -⟩ := hl.notMem ho
  refine ⟨Ledger.held_acquire hl.ledger ho, fun x => ?_, hl.out, fun x hx => ?_, hl.valid⟩
  · show x ∈ insert o st.held ↔ _
    rw [Finset.mem_insert, Finset.mem_insert, hl.held x]
    show _ ↔ (st.fomap x).isSome = true ∨ x ∈ st.trOut ∨ _
    tauto
  · rcases Finset.mem_insert.mp hx with rfl | hx
    · exact ⟨hfomap, hout⟩
    · exact hl.extra x hx

theorem unlock (hl : Locked env extra st) (ho : o ∈ extra) :
    Locked env (extra.erase o) (st.unlock o) := by
  obtain ⟨hfomap, hout⟩ := hl.extra o ho
  have hheld : o ∈ st.held := (hl.held o).mpr (Or.inr (Or.inr ho))
  refine ⟨Ledger.held_release hl.ledger hheld, fun x => ?_, hl.out,
    fun x hx => hl.extra x (Finset.mem_of_mem_erase hx), hl.valid⟩
  show x ∈ st.held.erase o ↔ (st.fomap x).isSome = true ∨ x ∈ st.trOut ∨ x ∈ extra.erase o
  rw [Finset.mem_erase, Finset.mem_erase, hl.held x]
  by_cases hx : x = o
  · rw [hx, hfomap]
    simp [hout]
  · simp [hx]

/-- A change of the records that scans no object. -/
theorem congr (hl : Locked env extra st) (hheld : st'.held = st.held) (hlocks : st'.locks = st.locks)
    (hout : st'.trOut = st.trOut) (hfomap : ∀ o, (st'.fomap o).isSome = (st.fomap o).isSome) :
    Locked env extra st' := by
  have hnone : ∀ o, st.fomap o = none → st'.fomap o = none := by
    intro o ho
    rw [← Option.not_isSome_iff_eq_none, hfomap, ho]
    simp
  refine ⟨by rw [hlocks, hheld]; exact hl.ledger, fun o => ?_, fun o ho => ?_, fun o ho => ?_,
    fun o ho => ?_⟩
  · rw [hheld, hfomap, hout]
    exact hl.held o
  · exact hnone o (hl.out o (hout ▸ ho))
  · rw [hout]
    exact ⟨hnone o (hl.extra o ho).1, (hl.extra o ho).2⟩
  · rw [hfomap, hout] at ho
    exact hl.valid o ho

/-- A valid object whose lock is held is scanned. -/
theorem scan (hl : Locked env extra st) {obj : Obj} (hobj : obj ∈ st.held)
    (hextra : ∀ o ∈ extra, o = obj) (hvalid : env.isValid obj = true) (hheld : st'.held = st.held)
    (hlocks : st'.locks = st.locks) (hout : st'.trOut = st.trOut.erase obj)
    (hfomap : ∀ o, (st'.fomap o).isSome = (decide (o = obj) || (st.fomap o).isSome)) :
    Locked env ∅ st' := by
  refine ⟨by rw [hlocks, hheld]; exact hl.ledger, fun o => ?_, fun o ho => ?_,
    fun o ho => absurd ho (Finset.notMem_empty o), fun o ho => ?_⟩
  · rw [hheld, hfomap, hout]
    by_cases hoo : o = obj
    · rw [hoo]
      simp [hobj]
    · have hno : o ∉ extra := fun hmem => hoo (hextra o hmem)
      rw [hl.held o]
      simp [hoo, hno]
  · rw [hout, Finset.mem_erase] at ho
    rw [← Option.not_isSome_iff_eq_none, hfomap, hl.out o ho.2]
    simp [ho.1]
  · by_cases hoo : o = obj
    · rw [hoo]
      exact hvalid
    · rw [hfomap, hout, Finset.mem_erase] at ho
      exact hl.valid o (ho.imp (fun hs => by simpa [hoo] using hs) And.right)

end Locked

/-- A step that changes the locks only. -/
structure LocksOnly (st st' : Transaction Obj Clo) : Prop where
  helper : st'.toRSetHelper = st.toRSetHelper
  closureSet : st'.closureSet = st.closureSet
  allocs : st'.allocs = st.allocs

omit [LinearOrder Obj] in
theorem LocksOnly.refl (st : Transaction Obj Clo) : LocksOnly st st := ⟨rfl, rfl, rfl⟩

omit [LinearOrder Obj] in
theorem LocksOnly.trans (h1 : LocksOnly st st') (h2 : LocksOnly st' st'') : LocksOnly st st'' :=
  ⟨h2.helper.trans h1.helper, h2.closureSet.trans h1.closureSet, h2.allocs.trans h1.allocs⟩

theorem LocksOnly.lock (o : Obj) (st : Transaction Obj Clo) : LocksOnly st (st.lock o) :=
  ⟨rfl, rfl, rfl⟩

theorem LocksOnly.unlock (o : Obj) (st : Transaction Obj Clo) : LocksOnly st (st.unlock o) :=
  ⟨rfl, rfl, rfl⟩

/-- The loop of `removeInvalidate` holds the locks of `rovec`, whose objects are valid. -/
theorem lockMembers_keeps {rovec rovec' : List Obj} (hl : Locked env rovec.toFinset st)
    (hnodup : rovec.Nodup) (hvalid : ∀ o ∈ rovec, env.isValid o = true)
    (hcall : lockMembers env os rovec st = (conflict, rovec', st')) :
    Locked env rovec'.toFinset st' ∧ rovec'.Nodup ∧ (∀ o ∈ rovec', env.isValid o = true) ∧
      LocksOnly st st' := by
  induction os generalizing rovec st with
  | nil =>
    cases hcall
    exact ⟨hl, hnodup, hvalid, LocksOnly.refl _⟩
  | cons ri rest ih =>
    rw [lockMembers] at hcall
    split at hcall
    · exact ih hl hnodup hvalid hcall
    · rename_i hheld
      split at hcall
      · rename_i st1 htry
        cases hcall
        rcases tryLock_cases htry with ⟨-, rfl, -⟩ | ⟨hfalse, -⟩
        · exact ⟨hl, hnodup, hvalid, LocksOnly.refl _⟩
        · cases hfalse
      · rename_i st1 htry
        rcases tryLock_cases htry with ⟨htrue, -⟩ | ⟨-, ⟨hmem, -⟩ | ⟨-, rfl⟩⟩
        · cases htrue
        · exact absurd hmem hheld
        · have hnew : ri ∉ rovec := fun hmem =>
            (hl.notMem hheld).2.2 (List.mem_toFinset.mpr hmem)
          have hlock := hl.lock hheld
          split at hcall
          · -- an object that is being deleted is released at once
            have hback : Locked env rovec.toFinset ((st.lock ri).unlock ri) := by
              have hun := hlock.unlock (Finset.mem_insert_self ri _)
              rwa [Finset.erase_insert (fun hmem => hnew (List.mem_toFinset.mp hmem))] at hun
            obtain ⟨hl', hnodup', hvalid', honly⟩ := ih hback hnodup hvalid hcall
            exact ⟨hl', hnodup', hvalid', (LocksOnly.lock ri st).trans ((LocksOnly.unlock ri _).trans honly)⟩
          · rename_i hri
            have hset : (rovec ++ [ri]).toFinset = insert ri rovec.toFinset := by
              ext x
              simp
            rw [← hset] at hlock
            have hnodup1 : (rovec ++ [ri]).Nodup := List.nodup_append_comm.mp
              (List.nodup_cons.mpr ⟨hnew, hnodup⟩)
            have hvalid1 : ∀ o ∈ rovec ++ [ri], env.isValid o = true := by
              intro o ho
              rcases List.mem_append.mp ho with ho | ho
              · exact hvalid o ho
              · rw [List.mem_singleton.mp ho]
                simpa using hri
            obtain ⟨hl', hnodup', hvalid', honly⟩ := ih hlock hnodup1 hvalid1 hcall
            exact ⟨hl', hnodup', hvalid', (LocksOnly.lock ri st).trans honly⟩

/-- The release of the locks of a list. -/
theorem unlockAll_keeps (hl : Locked env os.toFinset st) (hnodup : os.Nodup) :
    Locked env ∅ (os.foldl (fun st o => st.unlock o) st) ∧
      LocksOnly st (os.foldl (fun st o => st.unlock o) st) := by
  induction os generalizing st with
  | nil => exact ⟨hl, LocksOnly.refl _⟩
  | cons o os ih =>
    obtain ⟨hnot, hrest⟩ := List.nodup_cons.mp hnodup
    have hun := hl.unlock (List.mem_toFinset.mpr List.mem_cons_self)
    have hset : (o :: os).toFinset.erase o = os.toFinset := by
      rw [List.toFinset_cons, Finset.erase_insert (fun hmem => hnot (List.mem_toFinset.mp hmem))]
    rw [hset] at hun
    obtain ⟨hl', honly⟩ := ih hun hrest
    exact ⟨hl', (LocksOnly.unlock o st).trans honly⟩

/-- `removeInvalidate` takes the locks of the objects that it adds to `tr_out`, or none. -/
theorem removeInvalidate_keeps (hl : Locked env ∅ st) {ors : RSetId}
    (hcall : removeInvalidate env st ors = (conflict, st')) :
    Locked env ∅ st' ∧ st'.fomap = st.fomap ∧ st'.sets = st.sets ∧ st'.next = st.next ∧
      st'.allocs = st.allocs ∧ Keeps st st' := by
  have hstart : Locked env ([] : List Obj).toFinset st := hl
  have hsame : Locked env ∅ st ∧ st.fomap = st.fomap ∧ st.sets = st.sets ∧ st.next = st.next ∧
      st.allocs = st.allocs ∧ Keeps st st := ⟨hl, rfl, rfl, rfl, rfl, Keeps.refl st⟩
  unfold removeInvalidate at hcall
  split at hcall
  · cases hcall
    exact hsame
  · rename_i R hR
    split at hcall
    · cases hcall
      exact hsame
    · split at hcall
      · rename_i rovec st1 hloop
        cases hcall
        obtain ⟨hl1, hnodup, -, honly1⟩ := lockMembers_keeps hstart List.nodup_nil
          (fun _ hmem => absurd hmem List.not_mem_nil) hloop
        obtain ⟨hl2, honly2⟩ := unlockAll_keeps hl1 hnodup
        have honly := honly1.trans honly2
        refine ⟨hl2, ?_, ?_, ?_, honly.allocs, ⟨?_, honly.closureSet⟩⟩
        · rw [honly.helper]
        · rw [honly.helper]
        · rw [honly.helper]
        · rw [honly.helper]
          exact SameRecords.refl _
      · rename_i rovec st1 hloop
        cases hcall
        obtain ⟨hl1, hnodup, hvalid, honly⟩ := lockMembers_keeps hstart List.nodup_nil
          (fun _ hmem => absurd hmem List.not_mem_nil) hloop
        have hall : rovec.filter env.isValid = rovec := List.filter_eq_self.mpr hvalid
        rw [hall]
        refine ⟨⟨hl1.ledger, fun o => ?_, fun o ho => ?_, fun o ho => absurd ho (Finset.notMem_empty o),
          fun o ho => ?_⟩, ?_, ?_, ?_, honly.allocs, ⟨?_, honly.closureSet⟩⟩
        · show o ∈ st1.held ↔ (st1.fomap o).isSome = true ∨ o ∈ st1.trOut ∪ rovec.toFinset ∨ o ∈ ∅
          rw [hl1.held o, Finset.mem_union]
          simp
        · rcases Finset.mem_union.mp ho with ho | ho
          · exact hl1.out o ho
          · exact (hl1.extra o ho).1
        · rcases ho with ho | ho
          · exact hl1.valid o (Or.inl ho)
          · rcases Finset.mem_union.mp ho with ho | ho
            · exact hl1.valid o (Or.inr ho)
            · exact hvalid o (List.mem_toFinset.mp ho)
        · show st1.fomap = st.fomap
          rw [honly.helper]
        · show st1.sets = st.sets
          rw [honly.helper]
        · show st1.next = st.next
          rw [honly.helper]
        · have hrec : SameRecords st.toRSetHelper st1.toRSetHelper := by
            rw [honly.helper]
            exact SameRecords.refl _
          exact ⟨hrec.ovec, hrec.order, hrec.scanned⟩

/-! ### The sets -/

omit [LinearOrder Obj] in
theorem Allocated.congr (ha : Allocated h st) (hallocs : st'.allocs = st.allocs)
    (hsets : ∀ r, (st'.sets r).isSome = (st.sets r).isSome) : Allocated h st' := by
  obtain ⟨live, hlive, hmem⟩ := ha
  refine ⟨live, by rw [hallocs]; exact hlive, fun r => ?_⟩
  rw [hsets]
  exact hmem r

/-- A change of one record that keeps its set. -/
theorem Inv.modifyStat (hi : Inv env h ∅ st) (o : Obj) {f : RSetStat → RSetStat}
    (hrset : ∀ s, (f s).rset = s.rset)
    (hcycle : ∀ s, (f s).inCycle = true → s.inCycle = true ∨ (st.stat o).rset.isSome = true) :
    Inv env h ∅ (st.modify fun st => st.modifyStat o f) ∧ Keeps st (st.modify fun st => st.modifyStat o f) :=
  ⟨⟨hi.locked.congr rfl rfl rfl fun x => scanned_modify o x f,
    hi.tagged.modifyStat o hrset hcycle, hi.allocated.congr rfl fun _ => rfl⟩,
    ⟨⟨rfl, rfl, fun x => scanned_modify o x f⟩, rfl⟩⟩

theorem Inv.incRcount (hi : Inv env h ∅ st) (o : Obj) :
    Inv env h ∅ (st.modify fun st => st.incRcount o) ∧ Keeps st (st.modify fun st => st.incRcount o) :=
  hi.modifyStat o (fun _ => rfl) fun _ hs => Or.inl hs

theorem incRcount_rset (o x : Obj) :
    ((st.modify fun st => st.incRcount o).stat x).rset = (st.stat x).rset :=
  stat_modify_field o x _ RSetStat.rset fun _ => rfl

/-- `addToRSet` puts an object without a set into the set `r`, also when it reports a conflict. -/
theorem addToRSet_keeps {fresh : Option RSetId} (hl : Locked env ∅ st)
    (ht : Tagged h fresh st.toRSetHelper) (ha : Allocated h st) {oi : Obj} {r : RSetId}
    (hfresh : fresh = none ∨ fresh = some r) (hs : (st.fomap oi).isSome)
    (hnone : (st.stat oi).rset = none) (hr : Alive h st.toRSetHelper (some r))
    (hcall : addToRSet env h st oi r = (conflict, st')) :
    Inv env h ∅ st' ∧ Keeps st st' ∧
      ∀ x, (st'.stat x).rset = if x = oi then some r else (st.stat x).rset := by
  obtain ⟨ht1, hsame1, hrset1⟩ := ht.add hfresh hs hnone hr
  set st1 := st.modify (fun st => (st.setRset oi (some r)).insertRSet r oi) with hst1
  have hsets1 : ∀ r', (st1.sets r').isSome = (st.sets r').isSome := by
    intro r'
    show (Function.update st.sets r _ r').isSome = _
    by_cases hrr : r' = r
    · rw [hrr, Function.update_self, Option.isSome_map]
      rfl
    · rw [Function.update_of_ne hrr]
  have hi1 : Inv env h ∅ st1 :=
    ⟨hl.congr rfl rfl rfl hsame1.scanned, ht1, ha.congr rfl hsets1⟩
  have hk1 : Keeps st st1 := ⟨hsame1, rfl⟩
  -- the old set of the object changes `tr_out` and `tr_invalidate` only
  obtain ⟨c, st2, hinval⟩ : ∃ c st2, invalidateOld env h st1 oi = (c, st2) := ⟨_, _, rfl⟩
  have h2 : Inv env h ∅ st2 ∧ Keeps st1 st2 ∧ st2.fomap = st1.fomap := by
    unfold invalidateOld at hinval
    split at hinval
    · cases hinval
      exact ⟨hi1, Keeps.refl _, rfl⟩
    · obtain ⟨hl2, hfomap, hsets, hnext, hallocs, hk2⟩ := removeInvalidate_keeps hi1.locked hinval
      exact ⟨⟨hl2, hi1.tagged.congr hk2.records hfomap hsets hnext,
        hi1.allocated.congr hallocs fun r' => by rw [hsets]⟩, hk2, hfomap⟩
  obtain ⟨hi2, hk2, hfomap2⟩ := h2
  have hrset2 : ∀ x, (st2.stat x).rset = if x = oi then some r else (st.stat x).rset := by
    intro x
    have hstat : st2.stat x = st1.stat x := by rw [RSetHelper.stat, hfomap2, RSetHelper.stat]
    rw [hstat]
    exact hrset1 x
  unfold addToRSet at hcall
  dsimp only at hcall
  rw [← hst1, hinval] at hcall
  cases c with
  | true =>
    cases hcall
    exact ⟨hi2, hk1.trans hk2, hrset2⟩
  | false =>
    cases hcall
    have hoi : (st2.stat oi).rset.isSome = true := by
      rw [hrset2, if_pos rfl]
      rfl
    obtain ⟨hi3, hk3⟩ := hi2.modifyStat oi
      (f := fun s => { s with inCycle := true, rcount := s.rcount + 1 })
      (fun _ => rfl) fun _ _ => Or.inr hoi
    refine ⟨hi3, (hk1.trans hk2).trans hk3, fun x => ?_⟩
    rw [← hrset2 x]
    exact stat_modify_field oi x _ RSetStat.rset fun _ => rfl

/-- Two sets become one. -/
theorem assimilate_keeps (hi : Inv env h ∅ st) {into old : RSetId} (hne : into ≠ old)
    (hinto : Alive h st.toRSetHelper (some into)) (hold : Alive h st.toRSetHelper (some old)) :
    Inv env h ∅ (st.assimilate into old) ∧ Keeps st (st.assimilate into old) ∧
      ∀ x, ((st.assimilate into old).stat x).rset =
        if (st.stat x).rset = some old then some into else (st.stat x).rset := by
  obtain ⟨ht, hsame, hrset⟩ := hi.tagged.assimilate hne hinto hold
  obtain ⟨live, hlive, hmem⟩ := hi.allocated
  refine ⟨⟨hi.locked.congr rfl rfl rfl hsame.scanned, ht, live.erase old,
    Ledger.held_release hlive ((hmem old).mpr (hold old rfl)), fun r => ?_⟩, ⟨hsame, rfl⟩, hrset⟩
  show _ ↔ h.next ≤ r ∧ (Function.update (Function.update st.sets into _) old none r).isSome = true
  rw [Finset.mem_erase, hmem]
  by_cases hro : r = old
  · rw [hro, Function.update_self]
    simp
  · rw [Function.update_of_ne hro]
    by_cases hri : r = into
    · rw [hri, Function.update_self, Option.isSome_map]
      exact ⟨fun hr => hr.2, fun hr => ⟨hne, hr⟩⟩
    · rw [Function.update_of_ne hri]
      exact ⟨fun hr => hr.2, fun hr => ⟨hro, hr⟩⟩

/-- `mergeRSet` answers a set of the attempt, into which the current set goes. -/
theorem mergeRSet_keeps (hi : Inv env h ∅ st) {oi : Obj} {rset rset' : Option RSetId}
    (halive : Alive h st.toRSetHelper rset) (hcall : mergeRSet st oi rset = (rset', st')) :
    Inv env h ∅ st' ∧ Keeps st st' ∧ Alive h st'.toRSetHelper rset' ∧
      ∀ r, rset = some r → ∃ r', rset' = some r' ∧
        ∀ x, (st.stat x).rset = some r → (st'.stat x).rset = some r' := by
  unfold mergeRSet at hcall
  split at hcall
  · cases hcall
    exact ⟨hi, Keeps.refl _, hi.tagged.alive oi, fun _ hnone => (by cases hnone)⟩
  · cases hcall
    exact ⟨hi, Keeps.refl _, halive, fun r hr => ⟨r, hr, fun _ hx => hx⟩⟩
  · rename_i r ro hro
    have hro' : Alive h st.toRSetHelper (some ro) := hro ▸ hi.tagged.alive oi
    split_ifs at hcall with heq hsize
    · cases hcall
      exact ⟨hi, Keeps.refl _, halive, fun r' hr' => ⟨r', hr', fun _ hx => hx⟩⟩
    · cases hcall
      obtain ⟨hi', hk, hrset⟩ := assimilate_keeps hi heq halive hro'
      have hkept : ∀ x, (st.stat x).rset = some r →
          ((st.assimilate r ro).stat x).rset = some r := by
        intro x hx
        rw [hrset, hx]
        split <;> rfl
      refine ⟨hi', hk, fun r' hr' => ?_, fun r' hr' => ⟨r, rfl, fun x hx => ?_⟩⟩
      rotate_left
      · exact hkept x (hx.trans hr'.symm)
      cases hr'
      have hself : ((st.assimilate r ro).stat oi).rset = some r := by
        rw [hrset, if_pos hro]
      exact hi'.tagged.tagged oi r hself
    · cases hcall
      obtain ⟨hi', hk, hrset⟩ := assimilate_keeps hi (Ne.symm heq) hro' halive
      refine ⟨hi', hk, fun r' hr' => ?_, fun r' hr' => ⟨ro, rfl, fun x hx => ?_⟩⟩
      · cases hr'
        have hself : ((st.assimilate ro r).stat oi).rset = some ro := by
          rw [hrset, hro]
          split <;> rfl
        exact hi'.tagged.tagged oi ro hself
      · rw [hrset, if_pos (hx.trans hr'.symm)]

omit [LinearOrder Obj] in
theorem Keeps.scanned (hk : Keeps st st') (hos : ∀ o ∈ os, (st.fomap o).isSome = true) :
    ∀ o ∈ os, (st'.fomap o).isSome = true :=
  fun o ho => (hk.records.scanned o).trans (hos o ho)

/-- The loop of `makeChain`, for an object with a set. -/
theorem makeChain_keeps (fi : Obj) :
    ∀ (chain : List Obj) (st : Transaction Obj Clo), Inv env h ∅ st →
      (∀ c ∈ chain, (st.fomap c).isSome = true) → (st.stat fi).rset.isSome = true →
      ∀ conflict st', makeChain env h chain fi st = (conflict, st') → Inv env h ∅ st' ∧ Keeps st st' := by
  intro chain
  induction chain with
  | nil =>
    intro st hi _ _ conflict st' hcall
    cases hcall
    exact ⟨hi, Keeps.refl _⟩
  | cons c cs ih =>
    intro st hi hchain hfi conflict st' hcall
    obtain ⟨hc, hcs⟩ := List.forall_mem_cons.mp hchain
    obtain ⟨r, hr⟩ := Option.isSome_iff_exists.mp hfi
    rw [makeChain] at hcall
    split at hcall
    · -- the object joins the set of the chain
      rename_i r' hnone hr'
      obtain ⟨b, st1, hadd⟩ : ∃ b st1, addToRSet env h st c r' = (b, st1) := ⟨_, _, rfl⟩
      obtain ⟨hi1, hk1, hrset1⟩ := addToRSet_keeps hi.locked hi.tagged hi.allocated (Or.inl rfl) hc
        hnone (hr' ▸ hi.tagged.alive fi) hadd
      have hfi1 : (st1.stat fi).rset.isSome = true := by
        rw [hrset1]
        split
        · rfl
        · exact hfi
      rw [hadd] at hcall
      cases b with
      | true =>
        cases hcall
        exact ⟨hi1, hk1⟩
      | false =>
        rw [if_neg (by simp)] at hcall
        split at hcall
        · obtain ⟨hi2, hk2⟩ := hi1.incRcount fi
          have hk12 := hk1.trans hk2
          obtain ⟨hi3, hk3⟩ := ih _ hi2 (hk12.scanned hcs) (by rw [incRcount_rset]; exact hfi1) _ _ hcall
          exact ⟨hi3, hk12.trans hk3⟩
        · obtain ⟨hi3, hk3⟩ := ih _ hi1 (hk1.scanned hcs) hfi1 _ _ hcall
          exact ⟨hi3, hk1.trans hk3⟩
    · -- the set of the object and the set of the chain become one
      obtain ⟨rset', st1, hmerge⟩ : ∃ rset' st1, mergeRSet st c (st.stat fi).rset = (rset', st1) :=
        ⟨_, _, rfl⟩
      obtain ⟨hi1, hk1, -, hmoved⟩ := mergeRSet_keeps hi (hi.tagged.alive fi) hmerge
      obtain ⟨r1, rfl, hall⟩ := hmoved r hr
      have hfi1 : (st1.stat fi).rset = some r1 := hall fi hr
      dsimp only at hcall
      rw [hmerge] at hcall
      -- the object has got the set of the chain with all the others of its set
      have hsame : (st1.modify fun st => st.setRset fi (some r1)) = st1 := by
        have hset : st1.toRSetHelper.setRset fi (some r1) = st1.toRSetHelper := setRset_self hfi1
        rw [modify, hset]
      rw [hsame] at hcall
      obtain ⟨hi2, hk2⟩ := ih st1 hi1 (hk1.scanned hcs) (by rw [hfi1]; rfl) _ _ hcall
      exact ⟨hi2, hk1.trans hk2⟩

/-- The loop that closes a cycle. -/
theorem finalizeCurrent_keeps (obj : Obj) :
    ∀ (path : List Obj) (rset : Option RSetId) (st : Transaction Obj Clo), Inv env h ∅ st →
      (∀ o ∈ path, (st.fomap o).isSome = true) → Alive h st.toRSetHelper rset →
      ∀ conflict st', finalizeCurrent env h obj path rset st = (conflict, st') →
        Inv env h ∅ st' ∧ Keeps st st' := by
  intro path
  induction path with
  | nil =>
    intro rset st hi _ _ conflict st' hcall
    cases hcall
    exact ⟨hi, Keeps.refl _⟩
  | cons oi below ih =>
    intro rset st hi hpath halive conflict st' hcall
    obtain ⟨hoi, hbelow⟩ := List.forall_mem_cons.mp hpath
    unfold finalizeCurrent at hcall
    split at hcall
    · -- the object joins the current set, which can be new
      rename_i hnone
      have hadded : ∀ {r : RSetId} {b : Bool} {st0 st1 : Transaction Obj Clo}, Keeps st st0 →
          Inv env h ∅ st1 ∧ Keeps st0 st1 ∧
            (∀ x, (st1.stat x).rset = if x = oi then some r else (st0.stat x).rset) →
          (if b = true then (true, st1)
            else if oi = obj then (false, st1)
            else finalizeCurrent env h obj below (some r) st1) = (conflict, st') →
          Inv env h ∅ st' ∧ Keeps st st' := by
        rintro r b st0 st1 hk0 ⟨hi1, hk1, hrset1⟩ hrest
        have hk01 := hk0.trans hk1
        have halive1 : Alive h st1.toRSetHelper (some r) := by
          have hself : (st1.stat oi).rset = some r := by rw [hrset1, if_pos rfl]
          exact hself ▸ hi1.tagged.alive oi
        split_ifs at hrest
        · cases hrest
          exact ⟨hi1, hk01⟩
        · cases hrest
          exact ⟨hi1, hk01⟩
        · obtain ⟨hi2, hk2⟩ := ih (some r) st1 hi1 (hk01.scanned hbelow) halive1 _ _ hrest
          exact ⟨hi2, hk01.trans hk2⟩
      cases rset with
      | some r =>
        obtain ⟨b, st1, hadd⟩ : ∃ b st1, addToRSet env h st oi r = (b, st1) := ⟨_, _, rfl⟩
        dsimp only at hcall
        rw [hadd] at hcall
        exact hadded (Keeps.refl st) (addToRSet_keeps hi.locked hi.tagged hi.allocated (Or.inl rfl)
          hoi hnone halive hadd) hcall
      | none =>
        obtain ⟨b, st1, hadd⟩ : ∃ b st1, addToRSet env h st.newRSet oi st.next = (b, st1) :=
          ⟨_, _, rfl⟩
        dsimp only at hcall
        rw [hadd] at hcall
        have hk0 : Keeps st st.newRSet := ⟨⟨rfl, rfl, fun _ => rfl⟩, rfl⟩
        have hself : st.newRSet.sets st.next = some ⟨∅, 0, true⟩ := Function.update_self _ _ _
        have hfree : st.sets st.next = none := hi.tagged.free _ (Nat.le_refl _)
        have halloc : Allocated h st.newRSet := by
          obtain ⟨live, hlive, hmem⟩ := hi.allocated
          have hnew : st.next ∉ live := by
            rw [hmem, hfree]
            simp
          refine ⟨insert st.next live, Ledger.held_acquire hlive hnew, fun r => ?_⟩
          rw [Finset.mem_insert, hmem]
          by_cases hr : r = st.next
          · rw [hr, hself]
            exact ⟨fun _ => ⟨hi.tagged.next_le, rfl⟩, fun _ => Or.inl rfl⟩
          · have hsets : st.newRSet.sets r = st.sets r := Function.update_of_ne hr _ _
            rw [hsets]
            exact ⟨fun hor => hor.resolve_left hr, Or.inr⟩
        have halive0 : Alive h st.newRSet.toRSetHelper (some st.next) := by
          intro r hr
          cases hr
          rw [hself]
          exact ⟨hi.tagged.next_le, rfl⟩
        have hlocked : Locked env ∅ st.newRSet := hi.locked.congr rfl rfl rfl fun _ => rfl
        exact hadded hk0 (addToRSet_keeps hlocked hi.tagged.newRSet halloc (Or.inr rfl) hoi hnone
          halive0 hadd) hcall
    · -- the set of the object and the current set become one
      obtain ⟨st0, hst0⟩ : ∃ st0, (if (st.parentOut below && decide (oi ≠ obj)) = true then
          st.modify fun st => st.incRcount oi else st) = st0 := ⟨_, rfl⟩
      have h0 : Inv env h ∅ st0 ∧ Keeps st st0 ∧ Alive h st0.toRSetHelper rset := by
        split at hst0
        · obtain ⟨hi0, hk0⟩ := hi.incRcount oi
          rw [← hst0]
          exact ⟨hi0, hk0, halive⟩
        · rw [← hst0]
          exact ⟨hi, Keeps.refl _, halive⟩
      obtain ⟨hi0, hk0, halive0⟩ := h0
      obtain ⟨rset', st1, hmerge⟩ : ∃ rset' st1, mergeRSet st0 oi rset = (rset', st1) := ⟨_, _, rfl⟩
      obtain ⟨hi1, hk1, halive1, -⟩ := mergeRSet_keeps hi0 halive0 hmerge
      have hk01 := hk0.trans hk1
      dsimp only at hcall
      rw [hst0, hmerge] at hcall
      split at hcall
      · cases hcall
        exact ⟨hi1, hk01⟩
      · obtain ⟨hi2, hk2⟩ := ih rset' st1 hi1 (hk01.scanned hbelow) halive1 _ _ hcall
        exact ⟨hi2, hk01.trans hk2⟩

omit [LinearOrder Obj] in
/-- The chain that `makeChain` goes through is a part of `ovec`. -/
theorem mem_of_chainAfter {p : Obj → Bool} {ovec chain : List Obj}
    (hchain : RSetHelper.chainAfter p ovec = some chain) (ho : o ∈ chain) : o ∈ ovec := by
  unfold RSetHelper.chainAfter at hchain
  split at hchain
  · cases hchain
    exact (List.takeWhile_sublist _).subset (List.mem_reverse.mp ho)
  · cases hchain

/-- The branch for an object that was scanned before. -/
theorem checkScanned_keeps (hi : Inv env h ∅ st)
    (hcall : checkScanned env h st obj = (conflict, st')) : Inv env h ∅ st' ∧ Keeps st st' := by
  have hovec : ∀ o ∈ st.ovec, (st.fomap o).isSome = true := hi.tagged.ovec
  unfold checkScanned at hcall
  dsimp only at hcall
  split at hcall
  · cases hcall
    exact ⟨hi, Keeps.refl _⟩
  · split at hcall
    · rename_i hcycle
      have hsome : (st.stat obj).rset.isSome = true := hi.tagged.cycle obj hcycle
      obtain ⟨hi1, hk1⟩ := hi.incRcount obj
      split at hcall
      · obtain ⟨hi2, hk2⟩ := finalizeCurrent_keeps obj st.ovec _ _ hi1 (hk1.scanned hovec)
          (hi.tagged.alive obj) _ _ hcall
        exact ⟨hi2, hk1.trans hk2⟩
      · split at hcall
        · cases hcall
          exact ⟨hi, Keeps.refl _⟩
        · split at hcall
          · cases hcall
            exact ⟨hi1, hk1⟩
          · split at hcall
            · rename_i chain hchain
              exact makeChain_keeps obj chain st hi (fun c hc => hovec c (mem_of_chainAfter hchain hc))
                hsome _ _ hcall
            · split at hcall
              · rename_i chain hchain
                exact makeChain_keeps obj chain st hi
                  (fun c hc => hovec c (mem_of_chainAfter hchain hc)) hsome _ _ hcall
              · cases hcall
                exact ⟨hi, Keeps.refl _⟩
    · split at hcall
      · exact finalizeCurrent_keeps obj st.ovec _ _ hi hovec (hi.tagged.alive obj) _ _ hcall
      · cases hcall
        exact ⟨hi, Keeps.refl _⟩

/-! ### The walk -/

/-- A new object, once its lock is held. -/
theorem Inv.scan (hi : Inv env h extra st) (hobj : obj ∈ st.held) (hextra : ∀ o ∈ extra, o = obj)
    (hvalid : env.isValid obj = true) (hnone : st.fomap obj = none) :
    Inv env h ∅ (st.modify fun st => (st.insert obj).push obj) ∧
      Inv env h ∅ (st.modify fun st => (st.insert obj).markOk obj) := by
  have hins : ∀ o, ((st.insert obj).fomap o).isSome = (decide (o = obj) || (st.fomap o).isSome) := by
    intro o
    by_cases ho : o = obj <;> simp [RSetHelper.insert, ho]
  have hmark : ∀ o, (((st.insert obj).markOk obj).fomap o).isSome =
      (decide (o = obj) || (st.fomap o).isSome) := fun o => (scanned_modify obj o _).trans (hins o)
  have htagged : Tagged h none (st.insert obj) := hi.tagged.insert hnone
  exact ⟨⟨hi.locked.scan hobj hextra hvalid rfl rfl rfl hins,
      htagged.push (by rw [hins]; simp), hi.allocated.congr rfl fun _ => rfl⟩,
    ⟨hi.locked.scan hobj hextra hvalid rfl rfl rfl hmark, htagged.markOk obj,
      hi.allocated.congr rfl fun _ => rfl⟩⟩

/-- The check of an object, whose lock the caller may have taken just before. -/
theorem checkObject_keeps {scan : Transaction Obj Clo → Option (Bool × Transaction Obj Clo)}
    (hscan : ∀ st conflict st', Inv env h ∅ st → scan st = some (conflict, st') →
      Inv env h ∅ st' ∧ Grows st st') (hi : Inv env h extra st)
    (hextra : extra = ∅ ∨ extra = {obj} ∧ env.isValid obj = true)
    (hcall : checkObject env h scan st obj = some (conflict, st')) :
    Inv env h ∅ st' ∧ Grows st st' ∧ (obj ∈ extra → obj :: st.order <:+ st'.order) := by
  have hone : ∀ o ∈ extra, o = obj := by
    rcases hextra with rfl | ⟨rfl, -⟩
    · exact fun o ho => absurd ho (Finset.notMem_empty o)
    · exact fun o ho => Finset.mem_singleton.mp ho
  unfold checkObject at hcall
  split at hcall
  · -- the lock is not free, so the caller has not got it
    rename_i st1 htry
    cases hcall
    rcases tryLock_cases htry with ⟨-, rfl, hheld⟩ | ⟨hfalse, -⟩
    · have hnot : obj ∉ extra := (hi.locked.notMem hheld).2.2
      rcases hextra with rfl | ⟨rfl, -⟩
      · exact ⟨hi, Grows.refl _, fun ho => absurd ho hnot⟩
      · exact absurd (Finset.mem_singleton_self obj) hnot
    · cases hfalse
  · rename_i st1 htry
    -- the lock is held now, in the name of this call unless the object was known
    have h1 : ∃ extra1, Inv env h extra1 st1 ∧ obj ∈ st1.held ∧ (∀ o ∈ extra1, o = obj) ∧
        (obj ∉ extra1 → extra = ∅ ∧ ((st1.fomap obj).isSome = true ∨ obj ∈ st1.trOut)) ∧
        (obj ∈ extra → obj ∈ extra1) ∧ LocksOnly st st1 := by
      rcases tryLock_cases htry with ⟨htrue, -⟩ | ⟨-, ⟨hheld, rfl⟩ | ⟨hheld, rfl⟩⟩
      · cases htrue
      · refine ⟨extra, hi, hheld, hone, fun hno => ⟨?_, ?_⟩, id, LocksOnly.refl _⟩
        · rcases hextra with rfl | ⟨rfl, -⟩
          · rfl
          · exact absurd (Finset.mem_singleton_self obj) hno
        · rcases (hi.locked.held obj).mp hheld with hs | hs | hs
          · exact Or.inl hs
          · exact Or.inr hs
          · exact absurd hs hno
      · have hlock := hi.locked.lock hheld
        refine ⟨insert obj extra, ⟨hlock, hi.tagged, hi.allocated⟩, Finset.mem_insert_self _ _, ?_,
          fun hno => absurd (Finset.mem_insert_self _ _) hno, fun ho => Finset.mem_insert_of_mem ho,
          LocksOnly.lock obj st⟩
        intro o ho
        rcases Finset.mem_insert.mp ho with ho | ho
        · exact ho
        · exact hone o ho
    obtain ⟨extra1, hi1, hobj, hone1, hknown, hsub, honly⟩ := h1
    have hgrow : Grows st st1 := ⟨by rw [honly.helper], by rw [honly.closureSet]⟩
    have horder : st1.order = st.order := by rw [honly.helper]
    split at hcall
    · -- an invalid object is not known
      rename_i hinvalid
      have hmem : obj ∈ extra1 := by
        by_contra hno
        rw [hi1.locked.valid obj (hknown hno).2] at hinvalid
        cases hinvalid
      have hset : extra1.erase obj = ∅ := by
        ext o
        simp only [Finset.mem_erase, Finset.notMem_empty, iff_false, not_and]
        exact fun hne ho => hne (hone1 o ho)
      have hun := hi1.locked.unlock hmem
      rw [hset] at hun
      cases hcall
      refine ⟨⟨hun, hi1.tagged, hi1.allocated⟩, hgrow.trans ⟨List.suffix_rfl, Finset.Subset.refl _⟩,
        fun ho => ?_⟩
      rcases hextra with rfl | ⟨-, hvalid⟩
      · exact absurd ho (Finset.notMem_empty obj)
      · rw [hvalid] at hinvalid
        cases hinvalid
    · rename_i hvalid
      have hvalid : env.isValid obj = true := by simpa using hvalid
      split at hcall
      · -- a known object
        rename_i hs
        have hno : obj ∉ extra1 := fun hmem => by
          rw [(hi1.locked.extra obj hmem).1] at hs
          cases hs
        have hempty : extra1 = ∅ := by
          ext o
          simp only [Finset.notMem_empty, iff_false]
          exact fun ho => hno (hone1 o ho ▸ ho)
        rw [hempty] at hi1
        obtain ⟨hi2, hk2⟩ := checkScanned_keeps hi1 (Option.some.inj hcall)
        exact ⟨hi2, hgrow.trans hk2.grows, fun ho => absurd (hsub ho) hno⟩
      · rename_i hs
        have hnone : st1.fomap obj = none := by simpa using hs
        obtain ⟨hpush, hmark⟩ := hi1.scan hobj hone1 hvalid hnone
        split at hcall
        · cases hcall
          refine ⟨hmark, hgrow.trans ⟨List.suffix_cons obj _, Finset.Subset.refl _⟩, fun _ => ?_⟩
          show obj :: st.order <:+ obj :: st1.order
          rw [horder]
        · have hgrow2 : ∀ {st2}, Grows (st1.modify fun st => (st.insert obj).push obj) st2 →
              Grows st st2 ∧ obj :: st.order <:+ st2.order := by
            intro st2 hg
            have hg1 : Grows st1 (st1.modify fun st => (st.insert obj).push obj) :=
              ⟨List.suffix_cons obj _, Finset.Subset.refl _⟩
            refine ⟨hgrow.trans (hg1.trans hg), ?_⟩
            rw [← horder]
            exact hg.order
          split at hcall
          · cases hcall
          · rename_i st2 hs2
            cases hcall
            obtain ⟨hi2, hg2⟩ := hscan _ _ _ hpush hs2
            exact ⟨hi2, (hgrow2 hg2).1, fun _ => (hgrow2 hg2).2⟩
          · rename_i st2 hs2
            cases hcall
            obtain ⟨hi2, hg2⟩ := hscan _ _ _ hpush hs2
            exact ⟨⟨hi2.locked.congr rfl rfl rfl fun _ => rfl, hi2.tagged.pop,
                hi2.allocated.congr rfl fun _ => rfl⟩,
              (hgrow2 hg2).1.trans ⟨List.suffix_rfl, Finset.Subset.refl _⟩, fun _ => (hgrow2 hg2).2⟩

/-- A list of checks. -/
theorem scanAll_keeps {α : Type} {check : Transaction Obj Clo → α → Option (Bool × Transaction Obj Clo)}
    (as : List α) (hcheck : ∀ a ∈ as, ∀ st conflict st', Inv env h ∅ st →
      check st a = some (conflict, st') → Inv env h ∅ st' ∧ Grows st st') :
    ∀ st conflict st', Inv env h ∅ st → scanAll check as st = some (conflict, st') →
      Inv env h ∅ st' ∧ Grows st st' := by
  induction as with
  | nil =>
    intro st conflict st' hi hcall
    cases hcall
    exact ⟨hi, Grows.refl _⟩
  | cons a as ih =>
    intro st conflict st' hi hcall
    obtain ⟨ha, has⟩ := List.forall_mem_cons.mp hcheck
    rw [scanAll] at hcall
    split at hcall
    · cases hcall
    · rename_i st1 h1
      cases hcall
      exact ha _ _ _ hi h1
    · rename_i st1 h1
      obtain ⟨hi1, hg1⟩ := ha _ _ _ hi h1
      obtain ⟨hi2, hg2⟩ := ih has st1 conflict st' hi1 hcall
      exact ⟨hi2, hg1.trans hg2⟩

/-- A captured variable: the scan of a variable that was not known inserts it into `fomap`, so the
destructor of `RSectionScanHelper` has nothing to do. -/
theorem checkCaptured_keeps
    {check : Transaction Obj Clo → Obj → Option (Bool × Transaction Obj Clo)} {v : Obj}
    (hcheck : ∀ extra st conflict st', Inv env h extra st → (extra = ∅ ∨ extra = {v}) →
      check st v = some (conflict, st') →
      Inv env h ∅ st' ∧ Grows st st' ∧ (v ∈ extra → v :: st.order <:+ st'.order))
    (hi : Inv env h ∅ st) (hcall : checkCaptured env check st v = some (conflict, st')) :
    Inv env h ∅ st' ∧ Grows st st' := by
  unfold checkCaptured at hcall
  split_ifs at hcall with hscan hheld
  · cases hcall
    exact ⟨hi, Grows.refl _⟩
  · obtain ⟨hi1, hg1, -⟩ := hcheck ∅ st conflict st' hi (Or.inl rfl) hcall
    exact ⟨hi1, hg1⟩
  · split at hcall
    · rename_i st1 htry
      cases hcall
      rcases tryLock_cases htry with ⟨-, rfl, -⟩ | ⟨hfalse, -⟩
      · exact ⟨hi, Grows.refl _⟩
      · cases hfalse
    · rename_i st1 htry
      rcases tryLock_cases htry with ⟨htrue, -⟩ | ⟨-, ⟨hmem, -⟩ | ⟨-, rfl⟩⟩
      · cases htrue
      · exact absurd hmem hheld
      · have hlock : Inv env h {v} (st.lock v) := ⟨hi.locked.lock hheld, hi.tagged, hi.allocated⟩
        dsimp only at hcall
        split at hcall
        · cases hcall
        · rename_i c st2 h2
          obtain ⟨hi2, hg2, hnew⟩ := hcheck {v} _ c st2 hlock (Or.inr rfl) h2
          have hsuffix := hnew (Finset.mem_singleton_self v)
          have hsize : st2.order.length ≠ (st.lock v).order.length := by
            have hle := hsuffix.length_le
            rw [List.length_cons] at hle
            omega
          have hknown : (st2.fomap v).isSome = true :=
            (hi2.tagged.order v).mp (hsuffix.subset List.mem_cons_self)
          rw [if_neg hsize, add, if_pos hknown] at hcall
          cases hcall
          have hg : Grows st (st.lock v) := ⟨List.suffix_rfl, Finset.Subset.refl _⟩
          exact ⟨hi2, hg.trans hg2⟩

variable [DecidableEq Clo]

/-- Every value that the walk checks, with the lock of an object that the caller may have taken. -/
theorem check_keeps' : ∀ (fuel : Nat) (node : Node Obj Con Clo) (extra : Finset Obj)
    (st : Transaction Obj Clo) (conflict : Bool) (st' : Transaction Obj Clo), Inv env h extra st →
    (extra = ∅ ∨ ∃ o, node = .object o ∧ extra = {o} ∧ env.isValid o = true) →
    check env h fuel st node = some (conflict, st') →
      Inv env h ∅ st' ∧ Grows st st' ∧
        ∀ o, node = .object o → o ∈ extra → o :: st.order <:+ st'.order := by
  intro fuel
  induction fuel with
  | zero =>
    intro node extra st conflict st' _ _ hcall
    cases hcall
  | succ fuel ih =>
    intro node extra st conflict st' hi hextra hcall
    have hall : ∀ (nodes : List (Node Obj Con Clo)) (st : Transaction Obj Clo) (conflict : Bool)
        (st' : Transaction Obj Clo), Inv env h ∅ st →
        scanAll (check env h fuel) nodes st = some (conflict, st') →
        Inv env h ∅ st' ∧ Grows st st' := fun nodes => by
      refine scanAll_keeps nodes fun a _ st conflict st' hi hcall => ?_
      obtain ⟨hi', hg, -⟩ := ih a ∅ st conflict st' hi (Or.inl rfl) hcall
      exact ⟨hi', hg⟩
    cases node with
    | object o =>
      have hextra' : extra = ∅ ∨ extra = {o} ∧ env.isValid o = true := by
        rcases hextra with he | ⟨o', ho', he⟩
        · exact Or.inl he
        · cases ho'
          exact Or.inr he
      obtain ⟨hi', hg, hnew⟩ := checkObject_keeps (hall (env.members o)) hi hextra' hcall
      refine ⟨hi', hg, fun o' ho' hmem => ?_⟩
      cases ho'
      exact hnew hmem
    | container c =>
      have he : extra = ∅ := hextra.resolve_right (by rintro ⟨o, ho, -⟩; cases ho)
      rw [he] at hi
      rw [check] at hcall
      split at hcall
      · cases hcall
        exact ⟨hi, Grows.refl _, (by rintro _ ⟨⟩)⟩
      · obtain ⟨hi', hg⟩ := hall _ _ _ _ hi hcall
        exact ⟨hi', hg, (by rintro _ ⟨⟩)⟩
    | closure c =>
      have he : extra = ∅ := hextra.resolve_right (by rintro ⟨o, ho, -⟩; cases ho)
      rw [he] at hi
      rw [check] at hcall
      split_ifs at hcall
      · cases hcall
        exact ⟨hi, Grows.refl _, (by rintro _ ⟨⟩)⟩
      · cases hcall
        exact ⟨hi, Grows.refl _, (by rintro _ ⟨⟩)⟩
      · have hi1 : Inv env h ∅ { st with closureSet := insert c st.closureSet } :=
          ⟨hi.locked.congr rfl rfl rfl fun _ => rfl, hi.tagged, hi.allocated.congr rfl fun _ => rfl⟩
        have hcap : ∀ v ∈ env.captured c, ∀ st conflict st', Inv env h ∅ st →
            checkCaptured env (fun st v => check env h fuel st (.object v)) st v =
              some (conflict, st') → Inv env h ∅ st' ∧ Grows st st' := by
          intro v hv st conflict st' hi hcall
          have hvalid := env.captured_isValid c v hv
          refine checkCaptured_keeps (fun extra st conflict st' hi he hcall => ?_) hi hcall
          obtain ⟨hi', hg, hnew⟩ := ih (.object v) extra st conflict st' hi
            (he.imp_right fun he => ⟨v, rfl, he, hvalid⟩) hcall
          exact ⟨hi', hg, hnew v rfl⟩
        obtain ⟨hi', hg⟩ := scanAll_keeps _ hcap _ _ _ hi1 hcall
        have hg1 : Grows st { st with closureSet := insert c st.closureSet } :=
          ⟨List.suffix_rfl, Finset.subset_insert c st.closureSet⟩
        exact ⟨hi', hg1.trans hg, (by rintro _ ⟨⟩)⟩
    | other =>
      have he : extra = ∅ := hextra.resolve_right (by rintro ⟨o, ho, -⟩; cases ho)
      rw [he] at hi
      cases hcall
      exact ⟨hi, Grows.refl _, (by rintro _ ⟨⟩)⟩

/-- The walk keeps the invariant, with and without a conflict. -/
theorem check_keeps {fuel : Nat} {node : Node Obj Con Clo} (hi : Inv env h ∅ st)
    (hcall : check env h fuel st node = some (conflict, st')) : Inv env h ∅ st' ∧ Grows st st' := by
  obtain ⟨hi', hg, -⟩ := check_keeps' fuel node ∅ st conflict st' hi (Or.inl rfl) hcall
  exact ⟨hi', hg⟩

/-! ### The rollback -/

omit [DecidableEq Clo] in
/-- `pop` takes one member out of a set that is not empty. -/
theorem pop_card {R : RSet Obj} (hR : R.set.Nonempty) : R.pop.set.card + 1 = R.set.card := by
  rw [RSet.pop, dif_pos hR]
  exact Finset.card_erase_add_one (Finset.min'_mem R.set hR)

/-- The loop of `rollback` when the entries of `left` are still to come: every set of the attempt
has as many members as `left` has entries with it. -/
structure Unwound (h : Heap Obj) (left : List Obj) (st : Transaction Obj Clo) : Prop where
  locks : Ledger.held st.locks = some st.held
  held : ∀ o ∈ left, o ∈ st.held
  nodup : left.Nodup
  old : ∀ r < h.next, st.sets r = h.sets r
  card : ∀ r R, h.next ≤ r → st.sets r = some R →
    R.set.card = left.countP (fun o => decide ((st.stat o).rset = some r)) ∧ R.set.Nonempty
  tagged : ∀ o ∈ left, ∀ r, (st.stat o).rset = some r → h.next ≤ r ∧ (st.sets r).isSome = true
  allocated : Allocated h st

/-- What the loop of `rollback` does not change. -/
structure Unwinds (os : List Obj) (st st' : Transaction Obj Clo) : Prop where
  fomap : st'.fomap = st.fomap
  trOut : st'.trOut = st.trOut
  closureSet : st'.closureSet = st.closureSet
  held : st'.held = st.held \ os.toFinset

omit [DecidableEq Clo] in
/-- One entry is unlocked, and its set has lost one member, or is deleted with its last one. -/
theorem Unwound.entry {left : List Obj} (hu : Unwound h (o :: left) st) :
    Unwound h left (rollbackEntry st o) ∧ Unwinds [o] st (rollbackEntry st o) := by
  obtain ⟨hnot, hnodup⟩ := List.nodup_cons.mp hu.nodup
  have ho : o ∈ st.held := hu.held o List.mem_cons_self
  have hlocks : Ledger.held (.release o :: st.locks) = some (st.held.erase o) :=
    Ledger.held_release hu.locks ho
  have hheld : ∀ x ∈ left, x ∈ st.held.erase o := fun x hx =>
    Finset.mem_erase.mpr ⟨fun hxo => hnot (hxo ▸ hx), hu.held x (List.mem_cons_of_mem o hx)⟩
  have hset : st.held.erase o = st.held \ [o].toFinset := by
    ext x
    simp [and_comm]
  cases hr : (st.stat o).rset with
  | none =>
    have hentry : rollbackEntry st o = st.unlock o := by
      rw [rollbackEntry, hr]
    rw [hentry]
    refine ⟨⟨hlocks, hheld, hnodup, hu.old, fun r R hle hR => ?_,
      fun x hx => hu.tagged x (List.mem_cons_of_mem o hx), hu.allocated⟩, rfl, rfl, rfl, hset⟩
    obtain ⟨hcard, hne⟩ := hu.card r R hle hR
    rw [List.countP_cons_of_neg (by simp [hr])] at hcard
    exact ⟨hcard, hne⟩
  | some r =>
    obtain ⟨hle, hsome⟩ := hu.tagged o List.mem_cons_self r hr
    obtain ⟨R, hR⟩ := Option.isSome_iff_exists.mp hsome
    obtain ⟨hcard, hne⟩ := hu.card r R hle hR
    rw [List.countP_cons_of_pos (by simp [hr])] at hcard
    have hpop := pop_card hne
    -- the other sets do not change
    have hother : ∀ (v : Option (RSet Obj)) (r' : RSetId), r' ≠ r →
        Function.update st.sets r v r' = st.sets r' := fun v r' hr' => Function.update_of_ne hr' _ _
    have hcount : ∀ r' ≠ r, (o :: left).countP (fun x => decide ((st.stat x).rset = some r')) =
        left.countP (fun x => decide ((st.stat x).rset = some r')) := fun r' hr' =>
      List.countP_cons_of_neg (by simp [hr, Ne.symm hr'])
    by_cases hempty : R.pop.set = ∅
    · -- the last entry with the set
      have hentry : rollbackEntry st o = { st with
          sets := Function.update st.sets r none
          allocs := .release r :: st.allocs
          held := st.held.erase o
          locks := .release o :: st.locks } := by
        rw [rollbackEntry, hr]
        dsimp only
        rw [popRSet, hR]
        dsimp only
        rw [if_pos hempty]
        rfl
      have hzero : left.countP (fun x => decide ((st.stat x).rset = some r)) = 0 := by
        rw [hempty, Finset.card_empty] at hpop
        omega
      rw [hentry]
      refine ⟨⟨hlocks, hheld, hnodup, fun r' hr' => ?_, fun r' R' hle' hR' => ?_,
        fun x hx r' hr' => ?_, ?_⟩, rfl, rfl, rfl, hset⟩
      · exact (hother none r' (Nat.ne_of_lt (Nat.lt_of_lt_of_le hr' hle))).trans (hu.old r' hr')
      · by_cases hrr : r' = r
        · have hself : Function.update st.sets r none r = none := Function.update_self _ _ _
          rw [hrr] at hR'
          cases hself.symm.trans hR'
        · obtain ⟨hcard', hne'⟩ := hu.card r' R' hle' ((hother none r' hrr).symm.trans hR')
          rw [hcount r' hrr] at hcard'
          exact ⟨hcard', hne'⟩
      · have hrr : r' ≠ r := by
          rintro rfl
          rw [List.countP_eq_zero] at hzero
          exact hzero x hx (decide_eq_true hr')
        show h.next ≤ r' ∧ (Function.update st.sets r none r').isSome = true
        rw [hother none r' hrr]
        exact hu.tagged x (List.mem_cons_of_mem o hx) r' hr'
      · obtain ⟨live, hlive, hmem⟩ := hu.allocated
        refine ⟨live.erase r, Ledger.held_release hlive ((hmem r).mpr ⟨hle, hsome⟩), fun r' => ?_⟩
        show _ ↔ h.next ≤ r' ∧ (Function.update st.sets r none r').isSome = true
        rw [Finset.mem_erase, hmem]
        by_cases hrr : r' = r
        · rw [hrr, Function.update_self]
          simp
        · rw [hother none r' hrr]
          exact ⟨fun hm => hm.2, fun hm => ⟨hrr, hm⟩⟩
    · have hentry : rollbackEntry st o = { st with
          sets := Function.update st.sets r (some R.pop)
          held := st.held.erase o
          locks := .release o :: st.locks } := by
        rw [rollbackEntry, hr]
        dsimp only
        rw [popRSet, hR]
        dsimp only
        rw [if_neg hempty]
        rfl
      have hself : Function.update st.sets r (some R.pop) r = some R.pop := Function.update_self _ _ _
      have hisSome : ∀ r', (Function.update st.sets r (some R.pop) r').isSome =
          (st.sets r').isSome := by
        intro r'
        by_cases hrr : r' = r
        · rw [hrr, hself, hR]
          rfl
        · rw [hother _ r' hrr]
      rw [hentry]
      refine ⟨⟨hlocks, hheld, hnodup, fun r' hr' => ?_, fun r' R' hle' hR' => ?_,
        fun x hx r' hr' => ?_, hu.allocated.congr rfl hisSome⟩, rfl, rfl, rfl, hset⟩
      · exact (hother _ r' (Nat.ne_of_lt (Nat.lt_of_lt_of_le hr' hle))).trans (hu.old r' hr')
      · by_cases hrr : r' = r
        · rw [hrr] at hR' ⊢
          cases hself.symm.trans hR'
          exact ⟨by
            show R.pop.set.card = left.countP fun x => decide ((st.stat x).rset = some r)
            omega, Finset.nonempty_iff_ne_empty.mpr hempty⟩
        · obtain ⟨hcard', hne'⟩ := hu.card r' R' hle' ((hother _ r' hrr).symm.trans hR')
          rw [hcount r' hrr] at hcard'
          exact ⟨hcard', hne'⟩
      · show h.next ≤ r' ∧ (Function.update st.sets r (some R.pop) r').isSome = true
        rw [hisSome]
        exact hu.tagged x (List.mem_cons_of_mem o hx) r' hr'

omit [DecidableEq Clo] in
/-- The whole loop. -/
theorem Unwound.loop {left : List Obj} (hu : Unwound h left st) :
    Unwound h [] (left.foldl rollbackEntry st) ∧ Unwinds left st (left.foldl rollbackEntry st) := by
  induction left generalizing st with
  | nil => exact ⟨hu, rfl, rfl, rfl, by simp⟩
  | cons o left ih =>
    obtain ⟨hu1, hw1⟩ := hu.entry
    obtain ⟨hu2, hw2⟩ := ih hu1
    refine ⟨hu2, hw2.fomap.trans hw1.fomap, hw2.trOut.trans hw1.trOut,
      hw2.closureSet.trans hw1.closureSet, ?_⟩
    show (left.foldl rollbackEntry (rollbackEntry st o)).held = _
    rw [hw2.held, hw1.held]
    ext x
    simp only [Finset.mem_sdiff, List.mem_toFinset, List.mem_cons, List.not_mem_nil, or_false]
    tauto

omit [DecidableEq Clo] in
/-- The unlocks of a list. -/
theorem unlock_foldl (os : List Obj) (st : Transaction Obj Clo) :
    os.foldl (fun st o => st.unlock o) st = { st with
      held := st.held \ os.toFinset
      locks := Ledger.releaseAll os st.locks } := by
  induction os generalizing st with
  | nil => simp [Ledger.releaseAll]
  | cons o os ih =>
    rw [List.foldl_cons, ih, Ledger.releaseAll, Ledger.releaseAll, List.foldl_cons]
    have hset : (st.unlock o).held \ os.toFinset = st.held \ (o :: os).toFinset := by
      ext x
      show x ∈ st.held.erase o \ os.toFinset ↔ _
      simp only [Finset.mem_sdiff, Finset.mem_erase, List.mem_toFinset, List.mem_cons]
      tauto
    rw [hset]
    rfl

omit [DecidableEq Clo] in
theorem Inv.unwound (hi : Inv env h ∅ st) : Unwound h st.order st := by
  refine ⟨hi.locked.ledger, fun o ho => ?_, hi.tagged.nodup, hi.tagged.old, fun r R hle hR => ?_,
    fun o _ r hr => hi.tagged.tagged o r hr, hi.allocated⟩
  · exact (hi.locked.held o).mpr (Or.inl ((hi.tagged.order o).mp ho))
  · exact ⟨hi.tagged.card_eq hle hR, hi.tagged.nonempty r R hle hR (by simp)⟩

/-- After `rollback` the locks and the sets of the attempt are gone. -/
structure Released (h : Heap Obj) (st : Transaction Obj Clo) : Prop where
  locks : Ledger.held st.locks = some ∅
  allocs : Ledger.held st.allocs = some ∅
  sets : st.sets = (start h (init : Transaction Obj Clo)).sets

omit [DecidableEq Clo] in
/-- `rollback` releases every lock and every set of the attempt exactly once. It leaves the helper
as at its construction but for the closures. -/
theorem rollback_clean (hi : Inv env h ∅ st) :
    Released h st.rollback ∧
      ∀ h', start h' st.rollback = startWith h' st.closureSet := by
  obtain ⟨hu, hw⟩ := hi.unwound.loop
  set st1 := st.order.foldl rollbackEntry st with hst1
  have hrollback : st.rollback = { st1 with
      held := st1.held \ st1.trOut.sort.toFinset
      locks := Ledger.releaseAll st1.trOut.sort st1.locks
      fomap := fun _ => none, order := [], ovec := [], trOut := ∅, trInvalidate := ∅ } := by
    rw [rollback, ← hst1, unlock_foldl]
  -- what is left after the loop are the locks of `tr_out`
  have hheld1 : st1.held = st.trOut := by
    rw [hw.held]
    ext o
    rw [Finset.mem_sdiff, List.mem_toFinset, hi.tagged.order, hi.locked.held]
    constructor
    · rintro ⟨ho | ho | ho, hno⟩
      · exact absurd ho hno
      · exact ho
      · exact absurd ho (Finset.notMem_empty o)
    · intro ho
      refine ⟨Or.inr (Or.inl ho), ?_⟩
      rw [hi.locked.out o ho]
      simp
  have hheld2 : st1.held \ st1.trOut.sort.toFinset = ∅ := by
    rw [Finset.sort_toFinset, hheld1, hw.trOut, Finset.sdiff_self]
  have hsets : ∀ r, h.next ≤ r → st1.sets r = none := by
    intro r hle
    cases hR : st1.sets r with
    | none => rfl
    | some R =>
      obtain ⟨hcard, hne⟩ := hu.card r R hle hR
      rw [List.countP_nil, Finset.card_eq_zero] at hcard
      rw [hcard] at hne
      exact absurd hne Finset.not_nonempty_empty
  refine ⟨⟨?_, ?_, ?_⟩, fun h' => ?_⟩
  · rw [hrollback]
    have hmem : ∀ o ∈ st1.trOut.sort, o ∈ st1.held := by
      intro o ho
      rw [hheld1, ← hw.trOut]
      exact (Finset.mem_sort _).mp ho
    exact (Ledger.held_releaseAll (Finset.sort_nodup _ _) hu.locks hmem).trans (by rw [hheld2])
  · rw [hrollback]
    obtain ⟨live, hlive, hmem⟩ := hu.allocated
    have hempty : live = ∅ := by
      ext r
      rw [hmem]
      simp only [Finset.notMem_empty, iff_false, not_and]
      intro hle
      rw [hsets r hle]
      simp
    rw [← hempty]
    exact hlive
  · rw [hrollback]
    funext r
    show st1.sets r = if r < h.next then h.sets r else none
    split
    · rename_i hlt
      exact hu.old r hlt
    · rename_i hge
      exact hsets r (Nat.le_of_not_lt hge)
  · rw [hrollback]
    dsimp only [start, startWith, init]
    rw [hheld2, hw.closureSet]

omit [DecidableEq Clo] in
/-- An attempt starts with the invariant. -/
theorem inv_startWith (closures : Finset Clo) :
    Inv env h ∅ (startWith h closures) := by
  have hfree : ∀ r, h.next ≤ r → (if r < h.next then h.sets r else none) = none := fun r hle =>
    if_neg (Nat.not_lt_of_le hle)
  refine ⟨⟨rfl, fun o => ?_, fun o ho => absurd ho (Finset.notMem_empty o),
    fun o ho => absurd ho (Finset.notMem_empty o), fun o ho => ?_⟩, ⟨fun o => ?_, List.nodup_nil,
    fun o ho => absurd ho List.not_mem_nil, fun r hr => if_pos hr, Nat.le_refl _, hfree,
    fun r R hle hR => ?_, fun x r hr => (by cases hr), fun r R hle hR => ?_, fun x hx => (by cases hx)⟩,
    ∅, rfl, fun r => ?_⟩
  · simp [startWith, start, init]
  · simp [startWith, start, init] at ho
  · simp [startWith, start, init]
  · cases (hfree r hle).symm.trans hR
  · cases (hfree r hle).symm.trans hR
  · show r ∈ (∅ : Finset RSetId) ↔ h.next ≤ r ∧ (if r < h.next then h.sets r else none).isSome = true
    simp only [Finset.notMem_empty, false_iff, not_and]
    intro hle
    rw [hfree r hle]
    simp

end

/-! ### Every restart -/

/-- The helper at the start of an attempt to scan `obj`: a new one, or what a rollback has left.
The other threads can have changed anything between two attempts. -/
inductive Started (Con : Type) [DecidableEq Clo] (obj : Obj) : Transaction Obj Clo → Prop
  | first : Started Con obj init
  | again {env : ScanEnv Obj Con Clo} {h : Heap Obj} {fuel : Nat} {st st' : Transaction Obj Clo} :
      Started Con obj st → check env h fuel (start h st) (.object obj) = some (true, st') →
      Started Con obj st'.rollback

/-- What `rollback` has to do after a conflict that has left `st`. -/
structure Forgets (Con : Type) [DecidableEq Clo] (h : Heap Obj) (st : Transaction Obj Clo) :
    Prop where
  /-- The size of each set is the number of the entries of `fomap` with it. -/
  sizes : ∀ r R, h.next ≤ r → st.sets r = some R →
    R.set.card = st.order.countP fun o => decide ((st.stat o).rset = some r)
  /-- Every lock is released once, and every set of the attempt is deleted once. -/
  released : Released h st.rollback
  /-- The helper is as at its construction. -/
  initial : ∀ h', start h' st.rollback = start h' init
  /-- The repeated scan has the result of an undisturbed one. -/
  repeated : ∀ (env : ScanEnv Obj Con Clo) (h' : Heap Obj) (fuel : Nat) (obj : Obj),
    attempt env h' fuel st.rollback obj = attempt env h' fuel init obj

variable [DecidableEq Clo]

/-- Every attempt starts like the first one but for the closures that it takes for scanned. -/
theorem Started.exists_startWith {obj : Obj} {st : Transaction Obj Clo} (hst : Started Con obj st)
    (h : Heap Obj) : ∃ closures, start h st = startWith h closures := by
  induction hst generalizing h with
  | first => exact ⟨∅, rfl⟩
  | @again env h1 fuel st st' _ hcall ih =>
    obtain ⟨closures, hstart⟩ := ih h1
    rw [hstart] at hcall
    obtain ⟨hi, -⟩ := check_keeps (inv_startWith closures) hcall
    exact ⟨st'.closureSet, (rollback_clean hi).2 h⟩

/-- After a conflict at any point, `rollback` forgets everything if and only if neither this
attempt nor an earlier one has met a closure that needs a scan. -/
theorem rollback_forgets_iff (env : ScanEnv Obj Con Clo) (h : Heap Obj) (fuel : Nat) (obj : Obj)
    (st st' : Transaction Obj Clo) (hst : Started Con obj st)
    (hcall : check env h fuel (start h st) (.object obj) = some (true, st')) :
    Forgets Con h st' ↔ st'.closureSet = ∅ := by
  obtain ⟨closures, hstart⟩ := hst.exists_startWith h
  rw [hstart] at hcall
  obtain ⟨hi, -⟩ := check_keeps (inv_startWith closures) hcall
  obtain ⟨hreleased, hclean⟩ := rollback_clean hi
  constructor
  · intro hf
    have hsame := (hclean h).symm.trans (hf.initial h)
    exact congrArg closureSet hsame
  · intro hempty
    have hinit : ∀ h', start h' st'.rollback = start h' init := by
      intro h'
      rw [hclean, hempty]
      rfl
    refine ⟨fun r R hle hR => hi.tagged.card_eq hle hR, hreleased, hinit, fun env' h' fuel' obj' => ?_⟩
    rw [attempt, hinit, attempt]

attribute [local instance] Lts.neZero_one Lts.neZero_two in
/-- Object 0 refers to itself, and then to object 1, whose lock another thread has. -/
def selfAndLocked : ScanEnv (Fin 2) (Fin 0) (Fin 1) where
  members o := if o = 0 then [.object 0, .object 1] else []
  contents c := c.elim0
  captured _ := []
  objectNeedsScan _ := true
  containerNeedsScan _ := true
  closureNeedsScan _ := true
  isValid _ := true
  captured_isValid _ _ _ := rfl
  locked _ o := decide (o = 1)

theorem rollback_forgets_selfAndLocked :
    ∃ st', check selfAndLocked (Heap.empty (Fin 2)) 3 (start (Heap.empty (Fin 2)) init) (.object 0) =
        some (true, st') ∧ (st'.stat 0).rset = some 0 ∧ Forgets (Fin 0) (Heap.empty (Fin 2)) st' := by
  have hrun : (check selfAndLocked (Heap.empty (Fin 2)) 3 (start (Heap.empty (Fin 2)) init)
      (.object 0)).map (fun r => (r.1, (r.2.stat 0).rset, r.2.closureSet)) =
        some (true, some 0, ∅) := by
    decide
  obtain ⟨⟨conflict, st'⟩, hr, hout⟩ := Option.map_eq_some_iff.mp hrun
  simp only [Prod.mk.injEq] at hout
  obtain ⟨rfl, hset, hclosures⟩ := hout
  exact ⟨st', hr, hset, (rollback_forgets_iff selfAndLocked (Heap.empty (Fin 2)) 3 0 init st' .first
    hr).mpr hclosures⟩

/-- The set of an object that an attempt has committed. -/
def Result.rsetOf {Obj Clo : Type} (o : Obj) : Result Obj Clo → Option RSetId
  | .restart _ => none
  | .done h => h.rset o

attribute [local instance] Lts.neZero_one Lts.neZero_two in
/-- Object 0 holds a closure and then object 1, and a variable of the closure holds object 0.
Another thread can have the lock of object 1. -/
def callback (busy : Bool) : ScanEnv (Fin 3) (Fin 0) (Fin 1) where
  members o := if o = 0 then [.closure 0, .object 1] else if o = 2 then [.object 0] else []
  contents c := c.elim0
  captured _ := [2]
  objectNeedsScan o := decide (o ≠ 1)
  containerNeedsScan _ := true
  closureNeedsScan _ := true
  isValid _ := true
  captured_isValid _ _ _ := rfl
  locked _ o := busy && decide (o = 1)

/-- An undisturbed scan finds the cycle through the closure. After a conflict on object 1 and the
rollback, the closure counts as scanned, and the repeated scan commits no set. -/
theorem rollback_keeps_closures :
    ∃ st', check (callback true) (Heap.empty (Fin 3)) 5 (start (Heap.empty (Fin 3)) init)
        (.object 0) = some (true, st') ∧
      (attempt (callback false) (Heap.empty (Fin 3)) 5 init 0).map (Result.rsetOf 0) =
        some (some 0) ∧
      (attempt (callback false) (Heap.empty (Fin 3)) 5 st'.rollback 0).map (Result.rsetOf 0) =
        some none ∧
      ¬Forgets (Fin 0) (Heap.empty (Fin 3)) st' := by
  have hrun : (check (callback true) (Heap.empty (Fin 3)) 5 (start (Heap.empty (Fin 3)) init)
      (.object 0)).map (fun r => (r.1, r.2.closureSet)) = some (true, {0}) := by
    decide
  obtain ⟨⟨conflict, st'⟩, hr, hout⟩ := Option.map_eq_some_iff.mp hrun
  obtain ⟨rfl, hclosures⟩ := Prod.mk.inj hout
  have hinv : Inv (callback true) (Heap.empty (Fin 3)) ∅ st' :=
    (check_keeps (inv_startWith ∅) (hr : check _ _ 5 (startWith (Heap.empty (Fin 3)) ∅) _ = _)).1
  have hundisturbed : (attempt (callback false) (Heap.empty (Fin 3)) 5 init 0).map
      (Result.rsetOf 0) = some (some 0) := by
    decide
  have hrepeated : (attempt (callback false) (Heap.empty (Fin 3)) 5 st'.rollback 0).map
      (Result.rsetOf 0) = some none := by
    have hstart : start (Heap.empty (Fin 3)) st'.rollback = startWith (Heap.empty (Fin 3)) {0} := by
      rw [(rollback_clean hinv).2, hclosures]
    rw [attempt, hstart]
    decide
  refine ⟨st', hr, hundisturbed, hrepeated, fun hf => ?_⟩
  rw [hf.repeated, hundisturbed] at hrepeated
  cases hrepeated

end Transaction

end Qore.Collector
