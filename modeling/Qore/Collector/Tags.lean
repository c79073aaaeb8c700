import Qore.Collector.Merge

/-!
# `Qore.Collector.Tags`: the sets of an attempt that can fail

A lock conflict can end an attempt in the middle of a merge. `WF` of `Qore.Collector.Merge` does
not hold there: the object that `addToRSet` has added is not yet marked as in a cycle. `Tagged` is
what holds at every point: the records and the sets of the attempt agree.

* `Tagged.add`, `Tagged.newRSet` and `Tagged.assimilate`: the changes of the sets.
* `Tagged.insert`, `Tagged.push`, `Tagged.markOk` and `Tagged.pop`: the changes of the containers.
* `Tagged.card_eq`: a set has as many members as `fomap` has entries with it.
-/

set_option autoImplicit false

namespace Qore.Collector

open RSetHelper

variable {Obj : Type}

/-- The invariant of an attempt on the heap `h`. The set `fresh` can be empty. -/
structure Tagged (h : Heap Obj) (fresh : Option RSetId) (st : RSetHelper Obj) : Prop where
  order : ∀ o, o ∈ st.order ↔ (st.fomap o).isSome
  nodup : st.order.Nodup
  ovec : ∀ o ∈ st.ovec, (st.fomap o).isSome
  old : ∀ r < h.next, st.sets r = h.sets r
  next_le : h.next ≤ st.next
  free : ∀ r, st.next ≤ r → st.sets r = none
  members : ∀ r R, h.next ≤ r → st.sets r = some R → ∀ x, x ∈ R.set ↔ (st.stat x).rset = some r
  tagged : ∀ x r, (st.stat x).rset = some r → h.next ≤ r ∧ (st.sets r).isSome
  nonempty : ∀ r R, h.next ≤ r → st.sets r = some R → fresh ≠ some r → R.set.Nonempty
  cycle : ∀ x, (st.stat x).inCycle = true → (st.stat x).rset.isSome = true

/-- A set of the attempt. -/
def Alive (h : Heap Obj) (st : RSetHelper Obj) (rset : Option RSetId) : Prop :=
  ∀ r, rset = some r → h.next ≤ r ∧ (st.sets r).isSome

/-- What no change of the sets touches. -/
structure SameRecords (st st' : RSetHelper Obj) : Prop where
  ovec : st'.ovec = st.ovec
  order : st'.order = st.order
  scanned : ∀ o, (st'.fomap o).isSome = (st.fomap o).isSome

namespace SameRecords

variable {st st' st'' : RSetHelper Obj}

theorem refl (st : RSetHelper Obj) : SameRecords st st := ⟨rfl, rfl, fun _ => rfl⟩

theorem trans (h1 : SameRecords st st') (h2 : SameRecords st' st'') : SameRecords st st'' :=
  ⟨h2.ovec.trans h1.ovec, h2.order.trans h1.order, fun o => (h2.scanned o).trans (h1.scanned o)⟩

end SameRecords

section
variable {h : Heap Obj} {fresh : Option RSetId} {st st' : RSetHelper Obj}

theorem scanned_of_rset {x : Obj} {r : RSetId} (hr : (st.stat x).rset = some r) :
    (st.fomap x).isSome := by
  cases hs : st.fomap x with
  | none =>
    rw [stat, hs] at hr
    cases hr
  | some s => rfl

namespace Tagged

theorem alive (ht : Tagged h fresh st) (o : Obj) : Alive h st (st.stat o).rset :=
  fun r hr => ht.tagged o r hr

/-- A change of `trInvalidate` and of `trOut`. -/
theorem congr (ht : Tagged h fresh st) (hsame : SameRecords st st') (hfomap : st'.fomap = st.fomap)
    (hsets : st'.sets = st.sets) (hnext : st'.next = st.next) : Tagged h fresh st' := by
  have hstat : ∀ x, st'.stat x = st.stat x := fun x => by rw [stat, hfomap, stat]
  refine ⟨?_, by rw [hsame.order]; exact ht.nodup, ?_, by rw [hsets]; exact ht.old,
    by rw [hnext]; exact ht.next_le, by rw [hsets, hnext]; exact ht.free, ?_, ?_,
    by rw [hsets]; exact ht.nonempty, fun x => by rw [hstat]; exact ht.cycle x⟩
  · intro o
    rw [hsame.order, hsame.scanned]
    exact ht.order o
  · intro o ho
    rw [hsame.scanned]
    exact ht.ovec o (hsame.ovec ▸ ho)
  · intro r R hr hR x
    rw [hstat]
    exact ht.members r R hr (hsets ▸ hR) x
  · intro x r hr
    rw [hsets]
    exact ht.tagged x r (hstat x ▸ hr)

/-- The members of a set and the entries of `fomap` with it are as many. -/
theorem card_eq [DecidableEq Obj] (ht : Tagged h fresh st) {r : RSetId} {R : RSet Obj}
    (hr : h.next ≤ r) (hR : st.sets r = some R) :
    R.set.card = st.order.countP fun o => decide ((st.stat o).rset = some r) := by
  have hset : R.set = (st.order.filter fun o => decide ((st.stat o).rset = some r)).toFinset := by
    ext x
    rw [ht.members r R hr hR x, List.mem_toFinset, List.mem_filter, decide_eq_true_iff]
    exact ⟨fun hx => ⟨(ht.order x).mpr (scanned_of_rset hx), hx⟩, fun hx => hx.2⟩
  rw [hset, List.toFinset_card_of_nodup (ht.nodup.filter _), List.countP_eq_length_filter]

variable [DecidableEq Obj]

/-- A change of one record that keeps its set. -/
theorem modifyStat (ht : Tagged h fresh st) (o : Obj) {f : RSetStat → RSetStat}
    (hrset : ∀ s, (f s).rset = s.rset)
    (hcycle : ∀ s, (f s).inCycle = true → s.inCycle = true ∨ (st.stat o).rset.isSome = true) :
    Tagged h fresh (st.modifyStat o f) := by
  have hkeep : ∀ x, ((st.modifyStat o f).stat x).rset = (st.stat x).rset := fun x =>
    stat_modify_field o x f RSetStat.rset hrset
  refine ⟨fun x => ?_, ht.nodup, fun x hx => ?_, ht.old, ht.next_le, ht.free, fun r R hr hR x => ?_,
    fun x r hr => ht.tagged x r (hkeep x ▸ hr), ht.nonempty, fun x hx => ?_⟩
  · rw [scanned_modify]
    exact ht.order x
  · rw [scanned_modify]
    exact ht.ovec x hx
  · rw [hkeep]
    exact ht.members r R hr hR x
  · rw [hkeep]
    by_cases hxo : x = o
    · subst hxo
      cases hs : st.fomap x with
      | none =>
        rw [stat, RSetHelper.modifyStat] at hx
        simp [hs, RSetStat.new] at hx
      | some s =>
        rw [stat_modify_self (by rw [hs]; rfl)] at hx
        rcases hcycle _ hx with hold | hsome
        · exact ht.cycle x hold
        · exact hsome
    · rw [stat_modify_ne hxo] at hx
      exact ht.cycle x hx

omit [DecidableEq Obj] in
/-- `new RSet`: the new set is empty. -/
theorem newRSet (ht : Tagged h none st) : Tagged h (some st.next) st.newRSet := by
  have hne : ∀ r, r < st.next → st.newRSet.sets r = st.sets r := fun r hr =>
    Function.update_of_ne (Nat.ne_of_lt hr) _ _
  have hself : st.newRSet.sets st.next = some ⟨∅, 0, true⟩ := Function.update_self _ _ _
  have hlt : ∀ r, (st.sets r).isSome → r < st.next := by
    intro r hr
    by_contra hge
    rw [ht.free r (Nat.le_of_not_lt hge)] at hr
    cases hr
  refine ⟨ht.order, ht.nodup, ht.ovec, fun r hr => ?_, Nat.le_succ_of_le ht.next_le, fun r hr => ?_,
    fun r R hr hR x => ?_, fun x r hr => ?_, fun r R hr hR hfresh => ?_, ht.cycle⟩
  · rw [hne r (Nat.lt_of_lt_of_le hr ht.next_le)]
    exact ht.old r hr
  · have hgt : st.next < r := hr
    exact (Function.update_of_ne (Nat.ne_of_gt hgt) _ _).trans (ht.free r (Nat.le_of_lt hgt))
  · show x ∈ R.set ↔ (st.stat x).rset = some r
    by_cases hrn : r = st.next
    · rw [hrn, hself, Option.some.injEq] at hR
      rw [← hR]
      refine ⟨fun hx => absurd hx (Finset.notMem_empty x), fun hx => ?_⟩
      exact absurd hrn (Nat.ne_of_lt (hlt r (ht.tagged x r hx).2))
    · have hsets : st.newRSet.sets r = st.sets r := Function.update_of_ne hrn _ _
      exact ht.members r R hr (hsets ▸ hR) x
  · obtain ⟨hle, hsome⟩ := ht.tagged x r hr
    rw [hne r (hlt r hsome)]
    exact ⟨hle, hsome⟩
  · have hrn : r ≠ st.next := fun hrn => hfresh (by rw [hrn])
    have hsets : st.newRSet.sets r = st.sets r := Function.update_of_ne hrn _ _
    exact ht.nonempty r R hr (hsets ▸ hR) (by simp)

/-- An object without a set joins the set `r`. -/
theorem add (ht : Tagged h fresh st) {oi : Obj} {r : RSetId} (hfresh : fresh = none ∨ fresh = some r)
    (hs : (st.fomap oi).isSome) (hnone : (st.stat oi).rset = none) (hr : Alive h st (some r)) :
    Tagged h none ((st.setRset oi (some r)).insertRSet r oi) ∧
      SameRecords st ((st.setRset oi (some r)).insertRSet r oi) ∧
      ∀ x, (((st.setRset oi (some r)).insertRSet r oi).stat x).rset =
        if x = oi then some r else (st.stat x).rset := by
  obtain ⟨hle, hsome⟩ := hr r rfl
  obtain ⟨Q, hQ⟩ := Option.isSome_iff_exists.mp hsome
  set st' := (st.setRset oi (some r)).insertRSet r oi with hst'
  have hstat : ∀ x, st'.stat x = if x = oi then { st.stat x with rset := some r } else st.stat x := by
    intro x
    by_cases hx : x = oi
    · rw [if_pos hx, hx]
      exact stat_modify_self hs _
    · rw [if_neg hx]
      exact stat_modify_ne hx _
  have hrset : ∀ x, (st'.stat x).rset = if x = oi then some r else (st.stat x).rset := by
    intro x
    rw [hstat]
    split <;> rfl
  have hscanned : ∀ x, (st'.fomap x).isSome = (st.fomap x).isSome := fun x => scanned_modify oi x _
  have hself : st'.sets r = some { Q with set := Insert.insert oi Q.set } := by
    show Function.update st.sets r ((st.sets r).map _) r = _
    rw [Function.update_self, hQ]
    rfl
  have hother : ∀ r', r' ≠ r → st'.sets r' = st.sets r' := fun r' hr' =>
    Function.update_of_ne hr' _ _
  refine ⟨⟨fun x => ?_, ht.nodup, fun x hx => ?_, fun r' hr' => ?_, ht.next_le, fun r' hr' => ?_,
    fun r' R hr' hR x => ?_, fun x r' hr' => ?_, fun r' R hr' hR _ => ?_, fun x hx => ?_⟩,
    ⟨rfl, rfl, hscanned⟩, hrset⟩
  · rw [hscanned]
    exact ht.order x
  · rw [hscanned]
    exact ht.ovec x hx
  · rw [hother r' (Nat.ne_of_lt (Nat.lt_of_lt_of_le hr' hle))]
    exact ht.old r' hr'
  · by_cases hrr : r' = r
    · rw [ht.free r (hrr ▸ hr')] at hsome
      cases hsome
    · rw [hother r' hrr]
      exact ht.free r' hr'
  · rw [hrset]
    by_cases hrr : r' = r
    · rw [hrr, hself, Option.some.injEq] at hR
      rw [← hR, Finset.mem_insert, ht.members r Q hle hQ x, hrr]
      by_cases hx : x = oi <;> simp [hx]
    · rw [hother r' hrr] at hR
      rw [ht.members r' R hr' hR x]
      by_cases hx : x = oi
      · simp [hx, hnone, Ne.symm hrr]
      · simp [hx]
  · rw [hrset] at hr'
    by_cases hrr : r' = r
    · rw [hrr, hself]
      exact ⟨hle, rfl⟩
    · have hx : x ≠ oi := by
        rintro rfl
        rw [if_pos rfl] at hr'
        exact hrr (Option.some.inj hr').symm
      rw [if_neg hx] at hr'
      rw [hother r' hrr]
      exact ht.tagged x r' hr'
  · by_cases hrr : r' = r
    · rw [hrr, hself, Option.some.injEq] at hR
      rw [← hR]
      exact Finset.insert_nonempty oi Q.set
    · rw [hother r' hrr] at hR
      refine ht.nonempty r' R hr' hR ?_
      rcases hfresh with hf | hf
      · rw [hf]
        simp
      · rw [hf]
        exact fun heq => hrr (Option.some.inj heq).symm
  · rw [hrset]
    split
    · rfl
    · rename_i hxo
      rw [hstat, if_neg hxo] at hx
      exact ht.cycle x hx

/-- The members of `old` move to `into`, and `old` is deleted. -/
theorem assimilate (ht : Tagged h none st) {into old : RSetId} (hne : into ≠ old)
    (hinto : Alive h st (some into)) (hold : Alive h st (some old)) :
    Tagged h none (st.assimilate into old) ∧ SameRecords st (st.assimilate into old) ∧
      ∀ x, ((st.assimilate into old).stat x).rset =
        if (st.stat x).rset = some old then some into else (st.stat x).rset := by
  obtain ⟨hle, hsome⟩ := hinto into rfl
  obtain ⟨R, hR⟩ := Option.isSome_iff_exists.mp hsome
  obtain ⟨hle', hsome'⟩ := hold old rfl
  obtain ⟨Q, hQ⟩ := Option.isSome_iff_exists.mp hsome'
  have hmem : ∀ x, x ∈ st.members old ↔ (st.stat x).rset = some old := fun x => by
    rw [← ht.members old Q hle' hQ x, RSetHelper.members, hQ]
  set st' := st.assimilate into old with hst'
  have hrec : ∀ x, st'.fomap x = if x ∈ st.members old
      then (st.fomap x).map fun s => { s with rset := some into } else st.fomap x := fun _ => rfl
  have hstat : ∀ x, st'.stat x = if (st.stat x).rset = some old
      then { st.stat x with rset := some into } else st.stat x := by
    intro x
    by_cases hx : (st.stat x).rset = some old
    · obtain ⟨s, hs⟩ := Option.isSome_iff_exists.mp (scanned_of_rset hx)
      rw [if_pos hx, stat, hrec, if_pos ((hmem x).mpr hx), stat, hs]
      rfl
    · rw [if_neg hx, stat, hrec, if_neg (fun hm => hx ((hmem x).mp hm)), stat]
  have hrset : ∀ x, (st'.stat x).rset =
      if (st.stat x).rset = some old then some into else (st.stat x).rset := by
    intro x
    rw [hstat]
    split <;> rfl
  have hscanned : ∀ x, (st'.fomap x).isSome = (st.fomap x).isSome := by
    intro x
    rw [hrec]
    split
    · rw [Option.isSome_map]
    · rfl
  have hsets : ∀ r, st'.sets r = if r = old then none
      else if r = into then some { R with set := R.set ∪ st.members old } else st.sets r := by
    intro r
    rw [hst']
    unfold RSetHelper.assimilate
    dsimp only
    rw [hR, Option.map_some]
    by_cases h1 : r = old
    · rw [if_pos h1, h1, Function.update_self]
    · rw [if_neg h1, Function.update_of_ne h1]
      by_cases h2 : r = into
      · rw [if_pos h2, h2, Function.update_self]
      · rw [if_neg h2, Function.update_of_ne h2]
  refine ⟨⟨fun x => ?_, ht.nodup, fun x hx => ?_, fun r hr => ?_, ht.next_le, fun r hr => ?_,
    fun r S hr hS x => ?_, fun x r hr => ?_, fun r S hr hS _ => ?_, fun x hx => ?_⟩,
    ⟨rfl, rfl, hscanned⟩, hrset⟩
  · rw [hscanned]
    exact ht.order x
  · rw [hscanned]
    exact ht.ovec x hx
  · rw [hsets, if_neg (Nat.ne_of_lt (Nat.lt_of_lt_of_le hr hle')),
      if_neg (Nat.ne_of_lt (Nat.lt_of_lt_of_le hr hle))]
    exact ht.old r hr
  · have hnone : st.sets r = none := ht.free r hr
    rw [hsets]
    split
    · rfl
    · rw [if_neg (fun heq => by rw [← heq, hnone] at hsome; cases hsome)]
      exact hnone
  · rw [hsets] at hS
    rw [hrset]
    split at hS
    · cases hS
    · rename_i hro
      split at hS
      · rename_i hri
        cases hS
        rw [Finset.mem_union, ht.members into R hle hR x, hmem, hri]
        by_cases hx : (st.stat x).rset = some old
        · simp [hx]
        · simp [hx]
      · rename_i hri
        rw [ht.members r S hr hS x]
        by_cases hx : (st.stat x).rset = some old
        · simp [hx, Ne.symm hro, Ne.symm hri]
        · simp [hx]
  · rw [hrset] at hr
    rw [hsets]
    split at hr
    · cases hr
      rw [if_neg hne, if_pos rfl]
      exact ⟨hle, rfl⟩
    · rename_i hxo
      have hro : r ≠ old := fun heq => hxo (heq ▸ hr)
      rw [if_neg hro]
      split
      · rename_i hri
        rw [hri]
        exact ⟨hle, rfl⟩
      · exact ht.tagged x r hr
  · rw [hsets] at hS
    split at hS
    · cases hS
    · split at hS
      · cases hS
        exact (ht.nonempty into R hle hR (by simp)).mono Finset.subset_union_left
      · exact ht.nonempty r S hr hS (by simp)
  · rw [hrset]
    split
    · rfl
    · rename_i hxo
      rw [hstat, if_neg hxo] at hx
      exact ht.cycle x hx

/-! ### The containers -/

/-- A new object is scanned, without a set. -/
theorem insert (ht : Tagged h fresh st) {o : Obj} (ho : st.fomap o = none) :
    Tagged h fresh (st.insert o) := by
  have hstat : ∀ x, (st.insert o).stat x = st.stat x := by
    intro x
    by_cases hx : x = o
    · rw [hx]
      simp [stat, RSetHelper.insert, ho]
    · simp [stat, RSetHelper.insert, hx]
  have hscanned : ∀ x, ((st.insert o).fomap x).isSome = (decide (x = o) || (st.fomap x).isSome) := by
    intro x
    by_cases hx : x = o <;> simp [RSetHelper.insert, hx]
  refine ⟨fun x => ?_, ?_, fun x hx => ?_, ht.old, ht.next_le, ht.free, fun r R hr hR x => ?_,
    fun x r hr => ht.tagged x r (hstat x ▸ hr), ht.nonempty, fun x => ?_⟩
  · show x ∈ o :: st.order ↔ _
    rw [hscanned, List.mem_cons, ht.order x]
    simp
  · refine List.nodup_cons.mpr ⟨fun hm => ?_, ht.nodup⟩
    rw [ht.order, ho] at hm
    cases hm
  · rw [hscanned, ht.ovec x hx, Bool.or_true]
  · rw [hstat]
    exact ht.members r R hr hR x
  · rw [hstat]
    exact ht.cycle x

/-- A scanned object is put at the back of `ovec`. -/
theorem push (ht : Tagged h fresh st) {o : Obj} (ho : (st.fomap o).isSome) :
    Tagged h fresh (st.push o) :=
  ⟨ht.order, ht.nodup, fun x hx => (List.mem_cons.mp hx).elim (fun hxo => hxo ▸ ho) (ht.ovec x),
    ht.old, ht.next_le, ht.free, ht.members, ht.tagged, ht.nonempty, ht.cycle⟩

omit [DecidableEq Obj] in
theorem pop (ht : Tagged h fresh st) : Tagged h fresh st.pop :=
  ⟨ht.order, ht.nodup, fun x hx => ht.ovec x (List.mem_of_mem_tail hx), ht.old, ht.next_le, ht.free,
    ht.members, ht.tagged, ht.nonempty, ht.cycle⟩

theorem markOk (ht : Tagged h fresh st) (o : Obj) : Tagged h fresh (st.markOk o) := by
  have hm : Tagged h fresh (st.modifyStat o fun s => { s with ok := true }) :=
    ht.modifyStat o (fun _ => rfl) fun _ hs => Or.inl hs
  exact hm.congr ⟨rfl, rfl, fun _ => rfl⟩ rfl rfl rfl

end Tagged

end

end Qore.Collector
