import Mathlib.Data.List.Infix
import Qore.Collector.Model

/-!
# `Qore.Collector.Merge`: what the merging loops do to the sets and the counts

`WF` is the invariant that ties the records of a transaction to its sets: an object is in a
cycle exactly when it has a set, the members of a set are the objects that point to it, and
the sets of the transaction are new. `Join h st st' H r inc` says that `st'` is `st` with
every object of `H` in the one set `r`, every other object as before, and the counts raised
by `inc`.

The loops of the source are then each one `Join`:

* `addToRSet_join` and `mergeRSet_join`: one object joins the current set.
* `finalizeCurrent_join`: the loop that closes a cycle joins the sets of the path from its
  end to the object (`Touches`) and raises the counts by `finalizeInc`.
* `makeChain_join`: the chain to an earlier cycle joins the sets of the chain to it and
  raises the counts by `chainInc`.

With one thread no lock conflict happens, so every function answers `false`.
-/

set_option autoImplicit false

namespace Qore.Collector

open RSetHelper

variable {Obj : Type} {st st' : RSetHelper Obj} {h : Heap Obj} {r : RSetId} {inc : Obj → Nat}
  {path : List Obj} {o : Obj}

/-! ### The invariant of a transaction -/

/-- The set `r` is allocated and valid, and its members are the objects that point to it. -/
def Holds (st : RSetHelper Obj) (r : RSetId) : Prop :=
  ∃ R, st.sets r = some R ∧ R.valid = true ∧ ∀ x, x ∈ R.set ↔ (st.stat x).rset = some r

/-- The invariant of a transaction that started on the heap `h`. -/
structure WF (h : Heap Obj) (st : RSetHelper Obj) : Prop where
  inCycle : ∀ o, (st.stat o).inCycle = (st.stat o).rset.isSome
  range : ∀ o r, (st.stat o).rset = some r → h.next ≤ r ∧ r < st.next
  holds : ∀ o r, (st.stat o).rset = some r → Holds st r
  old : ∀ r, r < h.next → st.sets r = h.sets r
  inval : ∀ r ∈ st.trInvalidate, r < h.next
  next_le : h.next ≤ st.next
  order : ∀ o, o ∈ st.order ↔ (st.fomap o).isSome
  nodup : st.order.Nodup

/-- A change of the other fields of a transaction, or of the `ok` flags. -/
theorem WF.congr {st1 : RSetHelper Obj} (hwf : WF h st1) (hsets : st.sets = st1.sets)
    (hnext : st.next = st1.next) (hinval : st.trInvalidate = st1.trInvalidate)
    (horder : st.order = st1.order) (hscan : ∀ o, (st.fomap o).isSome = (st1.fomap o).isSome)
    (hcyc : ∀ o, (st.stat o).inCycle = (st1.stat o).inCycle)
    (hrset : ∀ o, (st.stat o).rset = (st1.stat o).rset) : WF h st := by
  refine ⟨fun o => by rw [hcyc, hrset]; exact hwf.inCycle o, fun o r hr => ?_, fun o r hr => ?_,
    by rw [hsets]; exact hwf.old, by rw [hinval]; exact hwf.inval, by rw [hnext]; exact hwf.next_le,
    fun o => by rw [horder, hscan]; exact hwf.order o, by rw [horder]; exact hwf.nodup⟩
  · rw [hnext]
    exact hwf.range o r (hrset o ▸ hr)
  · obtain ⟨R, hR, hv, hm⟩ := hwf.holds o r (hrset o ▸ hr)
    exact ⟨R, hsets ▸ hR, hv, fun x => by rw [hrset, hm]⟩

/-- What no merging loop changes. -/
structure Frame (st st' : RSetHelper Obj) : Prop where
  ovec : st'.ovec = st.ovec
  order : st'.order = st.order
  scanned : ∀ o, (st'.fomap o).isSome = (st.fomap o).isSome
  ok : ∀ o, (st'.stat o).ok = (st.stat o).ok

theorem Frame.refl (st : RSetHelper Obj) : Frame st st := ⟨rfl, rfl, fun _ => rfl, fun _ => rfl⟩

theorem Frame.trans {st'' : RSetHelper Obj} (h1 : Frame st st') (h2 : Frame st' st'') :
    Frame st st'' :=
  ⟨h2.ovec.trans h1.ovec, h2.order.trans h1.order, fun o => (h2.scanned o).trans (h1.scanned o),
    fun o => (h2.ok o).trans (h1.ok o)⟩

/-- `st'` is `st` with the objects of `H` in the set `r` and the counts raised by `inc`. -/
structure Join (h : Heap Obj) (st st' : RSetHelper Obj) (H : Obj → Prop) (r : RSetId)
    (inc : Obj → Nat) : Prop where
  frame : Frame st st'
  wf : WF h st'
  holds : Holds st' r
  range : h.next ≤ r ∧ r < st'.next
  hit : ∀ o, H o → (st'.stat o).rset = some r
  miss : ∀ o, ¬ H o → (st'.stat o).rset = (st.stat o).rset ∧ (st.stat o).rset ≠ some r
  rcount : ∀ o, (st'.stat o).rcount = (st.stat o).rcount + inc o

/-- The object is on the list, or in the current set `rset`, or in the set of an object on
the list. -/
def Touches (st : RSetHelper Obj) (rset : Option RSetId) (path : List Obj) (o : Obj) : Prop :=
  ((st.stat o).rset.isSome ∧ (st.stat o).rset = rset) ∨
    ∃ p ∈ path, o = p ∨ ((st.stat o).rset.isSome ∧ (st.stat o).rset = (st.stat p).rset)

/-- The current set is either none or an allocated one. -/
def Current (h : Heap Obj) (st : RSetHelper Obj) (rset : Option RSetId) : Prop :=
  ∀ r, rset = some r → Holds st r ∧ h.next ≤ r ∧ r < st.next

theorem WF.current (hwf : WF h st) (o : Obj) : Current h st (st.stat o).rset :=
  fun r hr => ⟨hwf.holds o r hr, hwf.range o r hr⟩

theorem Join.current {H : Obj → Prop} (hj : Join h st st' H r inc) : Current h st' (some r) := by
  intro r' hr
  obtain rfl : r = r' := by simpa using hr
  exact ⟨hj.holds, hj.range⟩

/-- A join without a change: the set is there already. -/
theorem Join.refl (hwf : WF h st) (hcur : Current h st (some r)) :
    Join h st st (fun o => (st.stat o).rset = some r) r fun _ => 0 :=
  ⟨Frame.refl st, hwf, (hcur r rfl).1, (hcur r rfl).2, fun _ ho => ho, fun _ ho => ⟨rfl, ho⟩,
    fun _ => rfl⟩

theorem Join.congr {H H' : Obj → Prop} {inc' : Obj → Nat} (hj : Join h st st' H r inc)
    (hH : ∀ o, H o ↔ H' o) (hinc : ∀ o, inc o = inc' o) :
    Join h st st' H' r inc' := by
  obtain rfl : H = H' := funext fun o => propext (hH o)
  obtain rfl : inc = inc' := funext hinc
  exact hj

/-- The join with an empty list. -/
theorem Join.touches_nil (hwf : WF h st) (hcur : Current h st (some r)) :
    Join h st st (Touches st (some r) []) r fun _ => 0 := by
  refine (Join.refl hwf hcur).congr (fun x => ?_) fun _ => rfl
  constructor
  · exact fun hx => Or.inl ⟨by simp [hx], hx⟩
  · rintro (hx | ⟨p, hp, -⟩)
    · exact hx.2
    · simp at hp

/-- A first object joins the current set, then the rest of the list joins the result. -/
theorem Join.cons {st1 st2 : RSetHelper Obj} {rset : Option RSetId} {oi : Obj} {r1 r2 : RSetId}
    {inc1 inc2 : Obj → Nat} (h1 : Join h st st1 (Touches st rset [oi]) r1 inc1)
    (h2 : Join h st1 st2 (Touches st1 (some r1) path) r2 inc2) :
    Join h st st2 (Touches st rset (oi :: path)) r2 fun o => inc1 o + inc2 o := by
  -- After the first step an object keeps its set or is in `r1`.
  have hstep : ∀ o, Touches st rset (oi :: path) o ↔
      Touches st rset [oi] o ∨ Touches st1 (some r1) path o := by
    intro o
    by_cases ho : Touches st rset [oi] o
    · refine ⟨fun _ => Or.inl ho, fun _ => ?_⟩
      rcases ho with ho | ⟨p, hp, ho⟩
      · exact Or.inl ho
      · exact Or.inr ⟨p, by simp [List.mem_singleton.mp hp], ho⟩
    · obtain ⟨hrs, hne⟩ := h1.miss o ho
      constructor
      · rintro (hleft | ⟨p, hp, hop⟩)
        · exact absurd (Or.inl hleft) ho
        · rcases List.mem_cons.mp hp with rfl | hp
          · exact absurd (Or.inr ⟨p, by simp, hop⟩) ho
          · rcases hop with rfl | ⟨hsome, heq⟩
            · exact Or.inr (Or.inr ⟨o, hp, Or.inl rfl⟩)
            · have hpn : ¬ Touches st rset [oi] p := by
                rintro (⟨-, hpr⟩ | ⟨q, hq, rfl | ⟨-, hpq⟩⟩)
                · exact ho (Or.inl ⟨hsome, heq.trans hpr⟩)
                · exact ho (Or.inr ⟨p, hq, Or.inr ⟨hsome, heq⟩⟩)
                · exact ho (Or.inr ⟨q, hq, Or.inr ⟨hsome, heq.trans hpq⟩⟩)
              refine Or.inr (Or.inr ⟨p, hp, Or.inr ?_⟩)
              rw [hrs, (h1.miss p hpn).1]
              exact ⟨hsome, heq⟩
      · rintro (hfirst | ⟨-, heq⟩ | ⟨p, hp, hop⟩)
        · exact absurd hfirst ho
        · exact absurd (hrs.symm.trans heq) hne
        · rcases hop with rfl | ⟨hsome, heq⟩
          · exact Or.inr ⟨o, List.mem_cons_of_mem _ hp, Or.inl rfl⟩
          · by_cases hpt : Touches st rset [oi] p
            · exact absurd (hrs.symm.trans (heq.trans (h1.hit p hpt))) hne
            · rw [hrs, (h1.miss p hpt).1] at heq
              rw [hrs] at hsome
              exact Or.inr ⟨p, List.mem_cons_of_mem _ hp, Or.inr ⟨hsome, heq⟩⟩
  refine ⟨h1.frame.trans h2.frame, h2.wf, h2.holds, h2.range, fun o ho => ?_, fun o ho => ?_,
    fun o => ?_⟩
  · rcases (hstep o).mp ho with hfirst | hsecond
    · exact h2.hit o (Or.inl ⟨by simp [h1.hit o hfirst], h1.hit o hfirst⟩)
    · exact h2.hit o hsecond
  · rw [hstep, not_or] at ho
    obtain ⟨hrs, -⟩ := h1.miss o ho.1
    obtain ⟨hrs2, hne2⟩ := h2.miss o ho.2
    exact ⟨hrs2.trans hrs, hrs ▸ hne2⟩
  · rw [h2.rcount, h1.rcount]
    omega

/-- Only the object that is added can gain a set in one step. -/
theorem Join.none_iff {rset : Option RSetId} {oi : Obj}
    (hj : Join h st st' (Touches st rset [oi]) r inc) {x : Obj} (hx : x ≠ oi) :
    (st'.stat x).rset = none ↔ (st.stat x).rset = none := by
  by_cases ht : Touches st rset [oi] x
  · have hsome : (st.stat x).rset.isSome := by
      rcases ht with ⟨h1, -⟩ | ⟨p, hp, rfl | ⟨h1, -⟩⟩
      · exact h1
      · exact absurd (List.mem_singleton.mp hp) hx
      · exact h1
    obtain ⟨r', hr'⟩ := Option.isSome_iff_exists.mp hsome
    rw [hj.hit x ht, hr']
    simp
  · rw [(hj.miss x ht).1]

/-- A new set has no members yet. -/
theorem WF.newRSet (hwf : WF h st) : WF h st.newRSet ∧ Current h st.newRSet (some st.next) := by
  have hne : ∀ r, r < st.next → r ≠ st.next := fun r hr => Nat.ne_of_lt hr
  have hsets : st.newRSet.sets = Function.update st.sets st.next (some ⟨∅, 0, true⟩) := rfl
  refine ⟨⟨hwf.inCycle, fun x r hr => ?_, fun x r hr => ?_, fun r hr => ?_, hwf.inval, ?_,
    hwf.order, hwf.nodup⟩, fun r hr => ?_⟩
  · obtain ⟨h1, h2⟩ := hwf.range x r hr
    exact ⟨h1, Nat.lt_succ_of_lt h2⟩
  · obtain ⟨R, hR, hv, hm⟩ := hwf.holds x r hr
    refine ⟨R, ?_, hv, hm⟩
    rw [hsets, Function.update_of_ne (hne r (hwf.range x r hr).2), hR]
  · rw [hsets, Function.update_of_ne (hne r (Nat.lt_of_lt_of_le hr hwf.next_le)), hwf.old r hr]
  · exact Nat.le_succ_of_le hwf.next_le
  · obtain rfl : st.next = r := by simpa using hr
    refine ⟨⟨⟨∅, 0, true⟩, by simp [RSetHelper.newRSet], rfl, fun x => ?_⟩, hwf.next_le,
      Nat.lt_succ_self _⟩
    simp only [Finset.notMem_empty, false_iff]
    exact fun hx => hne _ (hwf.range x _ hx).2 rfl

theorem Join.of_newRSet (hwf : WF h st)
    (hj : Join h st.newRSet st' (Touches st.newRSet (some st.next) path) r inc) :
    Join h st st' (Touches st none path) r inc := by
  have htouch : ∀ x, Touches st.newRSet (some st.next) path x ↔ Touches st none path x := by
    intro x
    have hstat : ∀ y, st.newRSet.stat y = st.stat y := fun _ => rfl
    have hno : ¬ ((st.stat x).rset.isSome ∧ (st.stat x).rset = some st.next) :=
      fun hx => Nat.lt_irrefl _ (hwf.range x _ hx.2).2
    have hno' : ¬ ((st.stat x).rset.isSome ∧ (st.stat x).rset = none) := by
      rintro ⟨h1, h2⟩
      simp [h2] at h1
    simp only [Touches, hstat]
    rw [or_iff_right hno, or_iff_right hno']
  exact ⟨⟨hj.frame.ovec, hj.frame.order, hj.frame.scanned, hj.frame.ok⟩, hj.wf, hj.holds, hj.range,
    fun x hx => hj.hit x ((htouch x).mpr hx), fun x hx => hj.miss x fun hm => hx ((htouch x).mp hm),
    hj.rcount⟩

/-- Neighbours on a list are at its front or in its tail. -/
theorem pair_infix_cons {c a : Obj} :
    [o, a] <:+: c :: path ↔ (o = c ∧ path.head? = some a) ∨ [o, a] <:+: path := by
  rw [List.infix_cons_iff, List.cons_prefix_cons]
  cases path with
  | nil => simp
  | cons b path => simp [List.cons_prefix_cons, eq_comm]

/-! ### Records -/

variable [DecidableEq Obj]

theorem stat_modify_self (hs : (st.fomap o).isSome) (f : RSetStat → RSetStat) :
    (st.modifyStat o f).stat o = f (st.stat o) := by
  obtain ⟨s, hs⟩ := Option.isSome_iff_exists.mp hs
  simp [stat, modifyStat, hs]

theorem stat_modify_ne {x : Obj} (hx : x ≠ o) (f : RSetStat → RSetStat) :
    (st.modifyStat o f).stat x = st.stat x := by
  simp [stat, modifyStat, hx]

theorem scanned_modify (o x : Obj) (f : RSetStat → RSetStat) :
    ((st.modifyStat o f).fomap x).isSome = (st.fomap x).isSome := by
  by_cases hx : x = o
  · subst hx
    simp [modifyStat]
  · simp [modifyStat, hx]

/-- A change that keeps a field of a record keeps it for every object. -/
theorem stat_modify_field {β : Type} (o x : Obj) (f : RSetStat → RSetStat) (field : RSetStat → β)
    (hf : ∀ s, field (f s) = field s) : field ((st.modifyStat o f).stat x) = field (st.stat x) := by
  by_cases hx : x = o
  · subst hx
    cases hs : st.fomap x with
    | none => simp [stat, modifyStat, hs]
    | some s => simp [stat, modifyStat, hs, hf]
  · rw [stat_modify_ne hx]

/-! ### One object joins the current set -/

section
variable (g : Obj → List Obj) {h : Heap Obj} {oi : Obj} {r : RSetId} {rset : Option RSetId}
  {inc : Obj → Nat}

/-- With one thread no lock conflict happens, and only old sets are queued. -/
theorem removeInvalidate_single (st : RSetHelper Obj) (ors : RSetId) :
    ∃ ti tout, removeInvalidate (singleThreaded g) st ors =
        (false, { st with trInvalidate := ti, trOut := tout }) ∧
      ∀ r ∈ ti, r ∈ st.trInvalidate ∨ r = ors := by
  unfold removeInvalidate
  cases hs : st.sets ors with
  | none => exact ⟨st.trInvalidate, st.trOut, rfl, fun r hr => Or.inl hr⟩
  | some R =>
    dsimp only
    split
    · exact ⟨st.trInvalidate, st.trOut, rfl, fun r hr => Or.inl hr⟩
    · rw [if_neg (by simp [singleThreaded])]
      exact ⟨_, _, rfl, fun r hr => (Finset.mem_insert.mp hr).symm⟩

/-- `addToRSet` puts one object that had no set into the set `r` and counts one reference. -/
theorem addToRSet_join (hwf : WF h st) (hs : (st.fomap oi).isSome)
    (hnone : (st.stat oi).rset = none) (hcur : Current h st (some r)) :
    ∃ st', addToRSet (singleThreaded g) h st oi r = (false, st') ∧
      Join h st st' (Touches st (some r) [oi]) r fun o => if o = oi then 1 else 0 := by
  obtain ⟨⟨R, hR, hRv, hRm⟩, hlo, hhi⟩ := hcur r rfl
  -- The state after the set operations and the invalidation queue.
  obtain ⟨ti, tout, hadd, hti⟩ : ∃ ti tout, addToRSet (singleThreaded g) h st oi r =
      (false, ({ (st.setRset oi (some r)).insertRSet r oi with
        trInvalidate := ti, trOut := tout } : RSetHelper Obj).modifyStat oi fun s =>
          { s with inCycle := true, rcount := s.rcount + 1 }) ∧
      ∀ x ∈ ti, x < h.next := by
    unfold addToRSet
    cases ho : h.rset oi with
    | none => exact ⟨st.trInvalidate, st.trOut, rfl, hwf.inval⟩
    | some ors =>
      obtain ⟨ti, tout, heq, hti⟩ :=
        removeInvalidate_single g ((st.setRset oi (some r)).insertRSet r oi) ors
      refine ⟨ti, tout, by simp only [heq]; rfl, fun x hx => ?_⟩
      rcases hti x hx with hx | rfl
      · exact hwf.inval x hx
      · exact h.rset_lt oi x ho
  refine ⟨_, hadd, ?_⟩
  set st' := ({ (st.setRset oi (some r)).insertRSet r oi with
    trInvalidate := ti, trOut := tout } : RSetHelper Obj).modifyStat oi fun s =>
      { s with inCycle := true, rcount := s.rcount + 1 } with hst'
  obtain ⟨s, hsome⟩ := Option.isSome_iff_exists.mp hs
  have hstat : st.stat oi = s := by simp [stat, hsome]
  have hself : st'.stat oi = { s with rset := some r, inCycle := true, rcount := s.rcount + 1 } := by
    simp [hst', stat, RSetHelper.modifyStat, setRset, insertRSet, hsome]
  have hother : ∀ x, x ≠ oi → st'.stat x = st.stat x := fun x hx => by
    simp [hst', stat, RSetHelper.modifyStat, setRset, insertRSet, hx]
  have hsets : st'.sets = Function.update st.sets r (some { R with set := insert oi R.set }) := by
    simp [hst', RSetHelper.modifyStat, setRset, insertRSet, hR]
  have hrset : ∀ x, (st'.stat x).rset = if x = oi then some r else (st.stat x).rset := fun x => by
    by_cases hx : x = oi
    · simp [hx, hself]
    · simp [hx, hother x hx]
  have htouch : ∀ x, Touches st (some r) [oi] x ↔ x = oi ∨ (st.stat x).rset = some r := by
    intro x
    constructor
    · rintro (⟨-, hx⟩ | ⟨p, hp, rfl | ⟨hx, heq⟩⟩)
      · exact Or.inr hx
      · exact Or.inl (List.mem_singleton.mp hp)
      · rw [heq, List.mem_singleton.mp hp, hnone] at hx
        simp at hx
    · rintro (rfl | hx)
      · exact Or.inr ⟨x, by simp, Or.inl rfl⟩
      · exact Or.inl ⟨by simp [hx], hx⟩
  have hholds : Holds st' r := by
    refine ⟨{ R with set := insert oi R.set }, by simp [hsets], hRv, fun x => ?_⟩
    rw [hrset, Finset.mem_insert, hRm]
    by_cases hx : x = oi <;> simp [hx]
  refine ⟨⟨rfl, rfl, fun x => ?_, fun x => ?_⟩, ⟨fun x => ?_, fun x r' hr => ?_, fun x r' hr => ?_,
    fun r' hr => ?_, hti, hwf.next_le, fun x => ?_, hwf.nodup⟩, hholds, ⟨hlo, hhi⟩,
    fun x hx => ?_, fun x hx => ?_, fun x => ?_⟩
  · simp [hst', RSetHelper.modifyStat, setRset, insertRSet, Function.update_apply]
    split <;> simp_all
  · by_cases hx : x = oi
    · rw [hx, hself, hstat]
    · rw [hother x hx]
  · by_cases hx : x = oi
    · simp [hx, hself]
    · rw [hother x hx]; exact hwf.inCycle x
  · rw [hrset] at hr
    split at hr
    · obtain rfl : r = r' := by simpa using hr
      exact ⟨hlo, hhi⟩
    · exact hwf.range x r' hr
  · by_cases hrr : r' = r
    · exact hrr ▸ hholds
    · rw [hrset] at hr
      split at hr
      · exact absurd (by simpa using hr.symm) hrr
      · obtain ⟨R', hR', hv', hm'⟩ := hwf.holds x r' hr
        refine ⟨R', by rw [hsets, Function.update_of_ne hrr, hR'], hv', fun y => ?_⟩
        rw [hm', hrset]
        split
        · rename_i hy
          rw [hy, hnone]
          simp [Ne.symm hrr]
        · rfl
  · have hne : r' ≠ r := Nat.ne_of_lt (Nat.lt_of_lt_of_le hr hlo)
    rw [hsets, Function.update_of_ne hne, hwf.old r' hr]
  · rw [show st'.order = st.order from rfl, hwf.order x]
    simp [hst', RSetHelper.modifyStat, setRset, insertRSet, Function.update_apply]
    split <;> simp_all
  · rw [hrset]
    rcases (htouch x).mp hx with rfl | hx
    · simp
    · split
      · rfl
      · exact hx
  · rw [htouch, not_or] at hx
    rw [hrset, if_neg hx.1]
    exact ⟨rfl, hx.2⟩
  · by_cases hx : x = oi
    · subst hx
      simp [hself, hstat]
    · simp [hother x hx, hx]

/-- Two sets become one: the objects of `old` move to `into`, and `old` is deleted. -/
theorem assimilate_join (hwf : WF h st) {into old : RSetId} (hne : into ≠ old)
    (hinto : Current h st (some into)) (hold : Current h st (some old)) :
    Join h st (st.assimilate into old)
      (fun o => (st.stat o).rset = some into ∨ (st.stat o).rset = some old) into fun _ => 0 := by
  obtain ⟨⟨R, hR, hRv, hRm⟩, hlo, hhi⟩ := hinto into rfl
  obtain ⟨⟨Q, hQ, -, hQm⟩, hlo', -⟩ := hold old rfl
  have hmem : ∀ x, x ∈ st.members old ↔ (st.stat x).rset = some old := fun x => by
    rw [← hQm x, members, hQ]
  set st' := st.assimilate into old with hst'
  have hrec : ∀ x, st'.fomap x = if x ∈ st.members old
      then (st.fomap x).map fun s => { s with rset := some into } else st.fomap x := fun _ => rfl
  have hstat : ∀ x, st'.stat x = if (st.stat x).rset = some old
      then { st.stat x with rset := some into } else st.stat x := by
    intro x
    by_cases hx : (st.stat x).rset = some old
    · rw [if_pos hx, stat, hrec, if_pos ((hmem x).mpr hx)]
      cases hf : st.fomap x with
      | none => simp [stat, hf, RSetStat.new] at hx
      | some s => simp [stat, hf]
    · rw [if_neg hx, stat, hrec, if_neg (fun hm => hx ((hmem x).mp hm)), stat]
  have hrset : ∀ x, (st'.stat x).rset =
      if (st.stat x).rset = some old then some into else (st.stat x).rset := fun x => by
    rw [hstat]
    split <;> rfl
  have hsets : st'.sets = Function.update (Function.update st.sets into
      (some { R with set := R.set ∪ st.members old })) old none := by
    rw [hst', assimilate]
    simp [hR]
  have hholds : Holds st' into := by
    refine ⟨{ R with set := R.set ∪ st.members old }, ?_, hRv, fun x => ?_⟩
    · rw [hsets, Function.update_of_ne hne, Function.update_self]
    · rw [hrset, Finset.mem_union, hRm, hmem]
      split
      · rename_i hx
        simp [hx]
      · rename_i hx
        simp [hx]
  refine ⟨⟨rfl, rfl, fun x => ?_, fun x => ?_⟩, ⟨fun x => ?_, fun x r' hr => ?_, fun x r' hr => ?_,
    fun r' hr => ?_, hwf.inval, hwf.next_le, fun x => ?_, hwf.nodup⟩, hholds, ⟨hlo, hhi⟩,
    fun x hx => ?_, fun x hx => ?_, fun x => ?_⟩
  · rw [hrec]
    split <;> simp
  · rw [hstat]
    split <;> rfl
  · rw [hrset, hstat]
    split
    · rename_i hx
      rw [hwf.inCycle x, hx]
      rfl
    · exact hwf.inCycle x
  · rw [hrset] at hr
    split at hr
    · obtain rfl : into = r' := by simpa using hr
      exact ⟨hlo, hhi⟩
    · exact hwf.range x r' hr
  · by_cases hrr : r' = into
    · exact hrr ▸ hholds
    · rw [hrset] at hr
      split at hr
      · exact absurd (by simpa using hr.symm) hrr
      · rename_i hxo
        have hro : r' ≠ old := fun heq => hxo (heq ▸ hr)
        obtain ⟨R', hR', hv', hm'⟩ := hwf.holds x r' hr
        refine ⟨R', ?_, hv', fun y => ?_⟩
        · rw [hsets, Function.update_of_ne hro, Function.update_of_ne hrr, hR']
        · rw [hm', hrset]
          split
          · rename_i hy
            rw [hy]
            simp [Ne.symm hro, Ne.symm hrr]
          · rfl
  · have h1 : r' ≠ into := Nat.ne_of_lt (Nat.lt_of_lt_of_le hr hlo)
    have h2 : r' ≠ old := Nat.ne_of_lt (Nat.lt_of_lt_of_le hr hlo')
    rw [hsets, Function.update_of_ne h2, Function.update_of_ne h1, hwf.old r' hr]
  · rw [show st'.order = st.order from rfl, hwf.order x, hrec]
    split <;> simp
  · rw [hrset]
    rcases hx with hx | hx
    · split
      · rfl
      · exact hx
    · rw [if_pos hx]
  · rw [not_or] at hx
    rw [hrset, if_neg hx.2]
    exact ⟨rfl, hx.1⟩
  · rw [hstat]
    split <;> rfl

/-- `mergeRSet` joins the set of one object with the current set. -/
theorem mergeRSet_join (hwf : WF h st) {ro : RSetId} (hoi : (st.stat oi).rset = some ro)
    (hcur : Current h st rset) :
    ∃ r st', mergeRSet st oi rset = (some r, st') ∧
      Join h st st' (Touches st rset [oi]) r fun _ => 0 := by
  have hro : Current h st (some ro) := hoi ▸ hwf.current oi
  have htouch : ∀ x, Touches st rset [oi] x ↔
      (st.stat x).rset = some ro ∨ ((st.stat x).rset.isSome ∧ (st.stat x).rset = rset) := by
    intro x
    constructor
    · rintro (hx | ⟨p, hp, rfl | ⟨-, heq⟩⟩)
      · exact Or.inr hx
      · exact Or.inl (List.mem_singleton.mp hp ▸ hoi)
      · exact Or.inl (by rw [heq, List.mem_singleton.mp hp, hoi])
    · rintro (hx | hx)
      · exact Or.inr ⟨oi, by simp, Or.inr ⟨by simp [hx], hx.trans hoi.symm⟩⟩
      · exact Or.inl hx
  cases rset with
  | none =>
    refine ⟨ro, st, by simp [mergeRSet, hoi], (Join.refl hwf hro).congr (fun x => ?_) fun _ => rfl⟩
    rw [htouch]
    cases hx : (st.stat x).rset <;> simp
  | some r =>
    by_cases hr : r = ro
    · subst hr
      refine ⟨r, st, by simp [mergeRSet, hoi], (Join.refl hwf hro).congr (fun x => ?_) fun _ => rfl⟩
      rw [htouch]
      exact ⟨Or.inl, fun hx => hx.elim id And.right⟩
    · by_cases hsize : (st.members r).card > (st.members ro).card
      · refine ⟨r, st.assimilate r ro, by simp [mergeRSet, hoi, hr, hsize],
          (assimilate_join hwf hr hcur hro).congr (fun x => ?_) fun _ => rfl⟩
        rw [htouch]
        constructor
        · rintro (hx | hx)
          · exact Or.inr ⟨by simp [hx], hx⟩
          · exact Or.inl hx
        · exact fun hx => hx.elim Or.inr fun hx => Or.inl hx.2
      · refine ⟨ro, st.assimilate ro r, by simp [mergeRSet, hoi, hr, hsize],
          (assimilate_join hwf (Ne.symm hr) hro hcur).congr (fun x => ?_) fun _ => rfl⟩
        rw [htouch]
        exact ⟨fun hx => hx.imp_right fun hx => ⟨by simp [hx], hx⟩, fun hx => hx.imp_right And.right⟩

/-- Raising one count before a join. -/
theorem WF.incRcount (hwf : WF h st) (o : Obj) : WF h (st.incRcount o) := by
  have hrs : ∀ x, ((st.incRcount o).stat x).rset = (st.stat x).rset :=
    fun x => stat_modify_field o x _ RSetStat.rset fun _ => rfl
  have hholds : ∀ r, Holds st r → Holds (st.incRcount o) r := by
    rintro r ⟨R, hR, hv, hm⟩
    exact ⟨R, hR, hv, fun x => by rw [hrs, hm]⟩
  refine ⟨fun x => ?_, fun x r hr => hwf.range x r (hrs x ▸ hr),
    fun x r hr => hholds r (hwf.holds x r (hrs x ▸ hr)), hwf.old, hwf.inval, hwf.next_le,
    fun x => ?_, hwf.nodup⟩
  · rw [hrs, ← hwf.inCycle x]
    exact stat_modify_field o x _ RSetStat.inCycle fun _ => rfl
  · rw [RSetHelper.incRcount, scanned_modify]
    exact hwf.order x

theorem Current.incRcount (hcur : Current h st rset) (o : Obj) :
    Current h (st.incRcount o) rset := by
  intro r hr
  obtain ⟨⟨R, hR, hv, hm⟩, hrange⟩ := hcur r hr
  have hrs : ∀ x, ((st.incRcount o).stat x).rset = (st.stat x).rset :=
    fun x => stat_modify_field o x _ RSetStat.rset fun _ => rfl
  exact ⟨⟨R, hR, hv, fun x => by rw [hm, hrs]⟩, hrange⟩

theorem touches_incRcount (o : Obj) (rset : Option RSetId) (path : List Obj) (x : Obj) :
    Touches (st.incRcount o) rset path x ↔ Touches st rset path x := by
  have hrs : ∀ x, ((st.incRcount o).stat x).rset = (st.stat x).rset :=
    fun x => stat_modify_field o x _ RSetStat.rset fun _ => rfl
  simp only [Touches, hrs]

theorem Join.of_incRcount {o : Obj} (ho : (st.fomap o).isSome) {path : List Obj}
    (hj : Join h (st.incRcount o) st' (Touches (st.incRcount o) rset path) r inc) :
    Join h st st' (Touches st rset path) r fun x => (if x = o then 1 else 0) + inc x := by
  have hrs : ∀ x, ((st.incRcount o).stat x).rset = (st.stat x).rset :=
    fun x => stat_modify_field o x _ RSetStat.rset fun _ => rfl
  refine ⟨⟨hj.frame.ovec, hj.frame.order, fun x => ?_, fun x => ?_⟩, hj.wf, hj.holds, hj.range,
    fun x hx => hj.hit x ((touches_incRcount o rset path x).mpr hx), fun x hx => ?_, fun x => ?_⟩
  · rw [hj.frame.scanned, RSetHelper.incRcount, scanned_modify]
  · rw [hj.frame.ok]
    exact stat_modify_field o x _ RSetStat.ok fun _ => rfl
  · rw [← hrs x]
    exact hj.miss x fun hm => hx ((touches_incRcount o rset path x).mp hm)
  · rw [hj.rcount]
    by_cases hx : x = o
    · rw [hx, RSetHelper.incRcount, stat_modify_self ho, if_pos rfl]
      dsimp only
      omega
    · rw [RSetHelper.incRcount, stat_modify_ne hx, if_neg hx, Nat.zero_add]

/-! ### The loops -/

open Classical in
/-- The counts that the closing loop raises: by one for an object that had no set, and by one
for an object with a set whose predecessor on the path had none. -/
noncomputable def finalizeInc (st : RSetHelper Obj) (path : List Obj) (o : Obj) : Nat :=
  if o ∈ path ∧ ((st.stat o).rset = none ∨ ∃ a, [o, a] <:+: path ∧ (st.stat a).rset = none)
  then 1 else 0

/-- The counts of the loop, step by step. -/
theorem finalizeInc_cons {path : List Obj} (hnd : (oi :: path).Nodup)
    (hj : Join h st st' (Touches st rset [oi]) r inc) (o : Obj) :
    finalizeInc st (oi :: path) o = (if o = oi then
      (if (st.stat oi).rset = none ∨ ∃ a, path.head? = some a ∧ (st.stat a).rset = none then 1
        else 0) else 0) + finalizeInc st' path o := by
  have hni : oi ∉ path := (List.nodup_cons.mp hnd).1
  have hinf : ∀ a, [o, a] <:+: path → o ∈ path ∧ a ∈ path := fun a ha =>
    ⟨ha.subset (by simp), ha.subset (by simp)⟩
  by_cases ho : o = oi
  · subst ho
    have hrest : finalizeInc st' path o = 0 := by
      rw [finalizeInc, if_neg fun hm => hni hm.1]
    have hhead : (∃ a, [o, a] <:+: o :: path ∧ (st.stat a).rset = none) ↔
        ∃ a, path.head? = some a ∧ (st.stat a).rset = none := by
      constructor
      · rintro ⟨a, ha, hn⟩
        rcases pair_infix_cons.mp ha with ⟨-, hh⟩ | hi
        · exact ⟨a, hh, hn⟩
        · exact absurd (hinf a hi).1 hni
      · rintro ⟨a, hh, hn⟩
        exact ⟨a, pair_infix_cons.mpr (Or.inl ⟨rfl, hh⟩), hn⟩
    rw [hrest, if_pos rfl, finalizeInc]
    simp only [List.mem_cons, true_or, true_and, hhead, Nat.add_zero]
  · have hiff : (o ∈ oi :: path ∧ ((st.stat o).rset = none ∨
          ∃ a, [o, a] <:+: oi :: path ∧ (st.stat a).rset = none)) ↔
        (o ∈ path ∧ ((st'.stat o).rset = none ∨
          ∃ a, [o, a] <:+: path ∧ (st'.stat a).rset = none)) := by
      have hex : (∃ a, [o, a] <:+: oi :: path ∧ (st.stat a).rset = none) ↔
          ∃ a, [o, a] <:+: path ∧ (st'.stat a).rset = none := by
        constructor
        · rintro ⟨a, ha, hn⟩
          rcases pair_infix_cons.mp ha with ⟨hoi, -⟩ | hi
          · exact absurd hoi ho
          · have hai : a ≠ oi := fun heq => hni (heq ▸ (hinf a hi).2)
            exact ⟨a, hi, (hj.none_iff hai).mpr hn⟩
        · rintro ⟨a, hi, hn⟩
          have hai : a ≠ oi := fun heq => hni (heq ▸ (hinf a hi).2)
          exact ⟨a, pair_infix_cons.mpr (Or.inr hi), (hj.none_iff hai).mp hn⟩
      rw [hex, hj.none_iff ho, List.mem_cons, or_iff_right ho]
    rw [if_neg ho, Nat.zero_add, finalizeInc, finalizeInc]
    split
    · rw [if_pos (hiff.mp ‹_›)]
    · rw [if_neg fun hc => absurd (hiff.mpr hc) ‹_›]

/-- One round of the closing loop: the object joins the current set, and its count goes up
when it had no set, or when the object before it has none. -/
theorem finalizeCurrent_round (oi obj : Obj) (below : List Obj) (hwf : WF h st)
    (hs : (st.fomap oi).isSome) (hcur : Current h st rset) :
    ∃ r st', finalizeCurrent (singleThreaded g) h obj (oi :: below) rset st =
        (if oi = obj then (false, st')
          else finalizeCurrent (singleThreaded g) h obj below (some r) st') ∧
      Join h st st' (Touches st rset [oi]) r fun o => if o = oi then
        (if (st.stat oi).rset = none ∨
            (oi ≠ obj ∧ ∃ a, below.head? = some a ∧ (st.stat a).rset = none) then 1 else 0)
        else 0 := by
  cases hoi : (st.stat oi).rset with
  | none =>
    cases rset with
    | none =>
      obtain ⟨hwf', hcur'⟩ := hwf.newRSet
      obtain ⟨st', hadd, hj⟩ := addToRSet_join g hwf' (show (st.newRSet.fomap oi).isSome from hs)
        hoi hcur'
      refine ⟨st.next, st', by simp [finalizeCurrent, hoi, hadd], ?_⟩
      exact (Join.of_newRSet hwf hj).congr (fun _ => Iff.rfl) fun o => by simp
    | some r =>
      obtain ⟨st', hadd, hj⟩ := addToRSet_join g hwf hs hoi hcur
      refine ⟨r, st', by simp [finalizeCurrent, hoi, hadd], ?_⟩
      exact hj.congr (fun _ => Iff.rfl) fun o => by simp
  | some ro =>
    -- The parent is out of every cycle when it has no set.
    have hparent : (oi ≠ obj ∧ ∃ a, below.head? = some a ∧ (st.stat a).rset = none) ↔
        (st.parentOut below && decide (oi ≠ obj)) = true := by
      rw [Bool.and_eq_true, decide_eq_true_eq, and_comm]
      refine and_congr_left fun _ => ?_
      cases below with
      | nil => simp [parentOut]
      | cons a below => simp [parentOut, hwf.inCycle a]
    by_cases hinc : oi ≠ obj ∧ ∃ a, below.head? = some a ∧ (st.stat a).rset = none
    · have hoi' : ((st.incRcount oi).stat oi).rset = some ro := by
        rw [← hoi]
        exact stat_modify_field oi oi _ RSetStat.rset fun _ => rfl
      obtain ⟨r, st', hm, hj⟩ := mergeRSet_join (hwf.incRcount oi) hoi' (hcur.incRcount oi)
      refine ⟨r, st', ?_, (hj.of_incRcount hs).congr (fun _ => Iff.rfl) fun o => ?_⟩
      · simp only [finalizeCurrent, hoi, hparent.mp hinc, if_true, hm]
      · rw [if_pos (Or.inr hinc), Nat.add_zero]
    · obtain ⟨r, st', hm, hj⟩ := mergeRSet_join hwf hoi hcur
      refine ⟨r, st', ?_, hj.congr (fun _ => Iff.rfl) fun o => ?_⟩
      · simp only [finalizeCurrent, hoi, if_neg (mt hparent.mpr hinc), hm]
      · have hno : ¬ (some ro = none ∨
            (oi ≠ obj ∧ ∃ a, below.head? = some a ∧ (st.stat a).rset = none)) :=
          fun hc => hc.elim (fun h0 => by simp at h0) hinc
        rw [if_neg hno, ite_self]

/-- The closing loop joins the sets of the path down to `obj`. -/
theorem finalizeCurrent_join (obj : Obj) (below : List Obj) :
    ∀ (above : List Obj) (st : RSetHelper Obj) (rset : Option RSetId), WF h st →
      (∀ x ∈ above ++ [obj], (st.fomap x).isSome) → (above ++ [obj]).Nodup →
      Current h st rset →
      ∃ r st', finalizeCurrent (singleThreaded g) h obj (above ++ obj :: below) rset st =
          (false, st') ∧
        Join h st st' (Touches st rset (above ++ [obj])) r (finalizeInc st (above ++ [obj])) := by
  intro above
  induction above with
  | nil =>
    intro st rset hwf hs hnd hcur
    obtain ⟨r, st', heq, hj⟩ := finalizeCurrent_round g obj obj below hwf
      (hs obj (by simp)) hcur
    refine ⟨r, st', by simpa using heq, hj.congr (fun _ => Iff.rfl) fun o => ?_⟩
    rw [List.nil_append, finalizeInc_cons hnd hj]
    simp [finalizeInc]
  | cons oi above ih =>
    intro st rset hwf hs hnd hcur
    have hne : oi ≠ obj := fun heq => (List.nodup_cons.mp hnd).1 (by simp [heq])
    obtain ⟨r1, st1, heq1, hj1⟩ := finalizeCurrent_round g oi obj
      (above ++ obj :: below) hwf (hs oi (by simp)) hcur
    obtain ⟨r2, st2, heq2, hj2⟩ := ih st1 (some r1) hj1.wf
      (fun x hx => by rw [hj1.frame.scanned]; exact hs x (by simp at hx ⊢; tauto))
      (List.nodup_cons.mp hnd).2 hj1.current
    refine ⟨r2, st2, ?_, (hj1.cons hj2).congr (fun _ => Iff.rfl) fun o => ?_⟩
    · rw [List.cons_append, heq1, if_neg hne, heq2]
    · have hhead : (above ++ obj :: below).head? = (above ++ [obj]).head? := by
        cases above <;> rfl
      rw [List.cons_append] at hnd ⊢
      rw [finalizeInc_cons hnd hj1]
      simp only [hhead, hne, ne_eq, not_false_eq_true, true_and]

/-- The counts that a chain raises: by one for an object that had no set, and by one for the
target when the end of the chain had none. -/
def chainInc (st : RSetHelper Obj) (fi : Obj) (chain : List Obj) (o : Obj) : Nat :=
  (if o ∈ chain ∧ (st.stat o).rset = none then 1 else 0) +
    (if o = fi ∧ ∃ l, chain.getLast? = some l ∧ (st.stat l).rset = none then 1 else 0)

/-- Storing the set that an object has already. -/
theorem setRset_self {o : Obj} (hr : (st.stat o).rset = some r) : st.setRset o (some r) = st := by
  have hmap : (st.fomap o).map (fun s => { s with rset := some r }) = st.fomap o := by
    cases hs : st.fomap o with
    | none => rfl
    | some s =>
      have hsr : s.rset = some r := by simpa [stat, hs] using hr
      simp [← hsr]
  rw [setRset, modifyStat, hmap, Function.update_eq_self]

/-- The counts of a chain, step by step. The target counts at the end of the chain. -/
theorem chainInc_cons {fi c : Obj} {cs : List Obj} (hnd : (c :: cs).Nodup)
    (hj : Join h st st' (Touches st rset [c]) r inc) (o : Obj) :
    chainInc st fi (c :: cs) o = (if o = c ∧ (st.stat c).rset = none then 1 else 0) +
      (if o = fi ∧ cs = [] ∧ (st.stat c).rset = none then 1 else 0) + chainInc st' fi cs o := by
  have hni : c ∉ cs := (List.nodup_cons.mp hnd).1
  have hchain : (if o ∈ c :: cs ∧ (st.stat o).rset = none then 1 else 0) =
      (if o = c ∧ (st.stat c).rset = none then 1 else 0) +
        (if o ∈ cs ∧ (st'.stat o).rset = none then 1 else 0) := by
    by_cases ho : o = c
    · subst ho
      simp [hni]
    · simp [ho, hj.none_iff ho]
  have hlast : (∃ l, (c :: cs).getLast? = some l ∧ (st.stat l).rset = none) ↔
      (cs = [] ∧ (st.stat c).rset = none) ∨
        ∃ l, cs.getLast? = some l ∧ (st'.stat l).rset = none := by
    cases cs with
    | nil => simp
    | cons d ds =>
      have hmem : ∀ l, (d :: ds).getLast? = some l → l ≠ c := fun l hl heq =>
        hni (heq ▸ List.mem_of_getLast? hl)
      constructor
      · rintro ⟨l, hl, hn⟩
        exact Or.inr ⟨l, hl, (hj.none_iff (hmem l hl)).mpr hn⟩
      · rintro (⟨h0, -⟩ | ⟨l, hl, hn⟩)
        · exact absurd h0 (by simp)
        · exact ⟨l, hl, (hj.none_iff (hmem l hl)).mp hn⟩
  have htarget : (if o = fi ∧ ∃ l, (c :: cs).getLast? = some l ∧ (st.stat l).rset = none
      then 1 else 0) = (if o = fi ∧ cs = [] ∧ (st.stat c).rset = none then 1 else 0) +
        (if o = fi ∧ ∃ l, cs.getLast? = some l ∧ (st'.stat l).rset = none then 1 else 0) := by
    by_cases ho : o = fi
    · by_cases hcs : cs = []
      · simp [ho, hcs]
      · simp only [ho, true_and, hlast, hcs, false_and, false_or, if_false, Nat.zero_add]
    · simp [ho]
  rw [chainInc, chainInc, hchain, htarget]
  omega

/-- The chain joins the sets of its objects to the set of the target. -/
theorem makeChain_join (fi : Obj) :
    ∀ (cs : List Obj) (st : RSetHelper Obj), WF h st → (st.stat fi).rset.isSome →
      (st.fomap fi).isSome → (∀ x ∈ cs, (st.fomap x).isSome) → cs.Nodup → fi ∉ cs →
      ∃ r st', makeChain (singleThreaded g) h cs fi st = (false, st') ∧
        Join h st st' (Touches st (st.stat fi).rset cs) r (chainInc st fi cs) := by
  intro cs
  induction cs with
  | nil =>
    intro st hwf hfi _ _ _ _
    obtain ⟨rf, hrf⟩ := Option.isSome_iff_exists.mp hfi
    rw [hrf]
    exact ⟨rf, st, rfl, (Join.touches_nil hwf (hrf ▸ hwf.current fi)).congr (fun _ => Iff.rfl)
      fun x => by simp [chainInc]⟩
  | cons c cs ih =>
    intro st hwf hfi hsf hs hnd hni
    obtain ⟨rf, hrf⟩ := Option.isSome_iff_exists.mp hfi
    obtain ⟨hcn, hnd'⟩ := List.nodup_cons.mp hnd
    obtain ⟨hfc, hni'⟩ := not_or.mp (mt List.mem_cons.mpr hni)
    have hcur : Current h st (some rf) := hrf ▸ hwf.current fi
    have htouch : Touches st (some rf) [c] fi := Or.inl ⟨hfi, hrf⟩
    -- The rest of the chain, after `c` has joined the set of the target.
    have hrest : ∀ (r1 : RSetId) (st1 : RSetHelper Obj) (inc : Obj → Nat),
        Join h st st1 (Touches st (some rf) [c]) r1 inc →
        ∃ r st', makeChain (singleThreaded g) h cs fi st1 = (false, st') ∧
          Join h st st' (Touches st (some rf) (c :: cs)) r fun o =>
            inc o + chainInc st1 fi cs o := by
      intro r1 st1 inc hj
      have hfi1 : (st1.stat fi).rset = some r1 := hj.hit fi htouch
      obtain ⟨r, st', heq, hj'⟩ := ih st1 hj.wf (by simp [hfi1])
        (by rw [hj.frame.scanned]; exact hsf)
        (fun x hx => by rw [hj.frame.scanned]; exact hs x (List.mem_cons_of_mem _ hx)) hnd' hni'
      rw [hfi1] at hj'
      exact ⟨r, st', heq, hj.cons hj'⟩
    rw [hrf]
    cases hc : (st.stat c).rset with
    | none =>
      obtain ⟨st1, hadd, hj1⟩ := addToRSet_join g hwf (hs c (by simp)) hc hcur
      cases cs with
      | nil =>
        -- The end of the chain: the reference to the target is counted too.
        have hsf1 : (st1.fomap fi).isSome := by rw [hj1.frame.scanned]; exact hsf
        refine ⟨rf, st1.incRcount fi, by simp [makeChain, hc, hrf, hadd], ?_⟩
        have hj2 : Join h st1 (st1.incRcount fi) (Touches st1 (some rf) []) rf fun x =>
            (if x = fi then 1 else 0) + 0 :=
          Join.of_incRcount hsf1
            (Join.touches_nil (hj1.wf.incRcount fi) (hj1.current.incRcount fi))
        refine (hj1.cons hj2).congr (fun _ => Iff.rfl) fun o => ?_
        rw [chainInc_cons hnd hj1]
        simp [chainInc, hc]
      | cons d ds =>
        obtain ⟨r, st', heq, hj⟩ := hrest rf st1 _ hj1
        refine ⟨r, st', ?_, hj.congr (fun _ => Iff.rfl) fun o => ?_⟩
        · simpa [makeChain, hc, hrf, hadd] using heq
        · rw [chainInc_cons hnd hj1]
          simp [hc]
    | some rc =>
      obtain ⟨r1, st1, hm, hj1⟩ := mergeRSet_join hwf hc hcur
      obtain ⟨r, st', heq, hj⟩ := hrest r1 st1 _ hj1
      refine ⟨r, st', ?_, hj.congr (fun _ => Iff.rfl) fun o => ?_⟩
      · rw [makeChain, hc, hrf]
        simp only [hm, setRset_self (hj1.hit fi htouch), heq]
      · rw [chainInc_cons hnd hj1]
        simp [hc]

end

end Qore.Collector
