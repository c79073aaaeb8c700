import Qore.ListNode.Sorted

/-!
# `Qore.ListNode.Raise`: a sort that ends with an exception

When a comparison raises an exception, the working list and its temporary lists are dereferenced as
they are. `mergesort` moves its entries between these lists, so together they own the references of
the original list.

`qsort` copies entries over the free place and has the pivot in a local variable. Between the first
copy of a partition and its end, one entry is in the list twice and the pivot is not in it.

* `mergesort_ends`: the lists that `mergesort` leaves behind own the references.
* `sort_raise_iff`: when the list that `qsort` leaves behind does.
-/

set_option autoImplicit false

namespace Qore.ListNode.Order

open Qore.Lib

variable {V : Type}

section
variable {rc : Nat → V → V → Option Int} {ascending : Bool} {nothing : V} {isNode : V → Bool}
  {h : Hole V} {rv : List V}

/-- Two collections of entries have the same references. Only the values for which `isNode` holds
are references. -/
def SameRefs (isNode : V → Bool) (xs ys : List V) : Prop :=
  (xs.filter isNode).Perm (ys.filter isNode)

/-! ### `mergesort` -/

/-- The invariant of the merge: the entries that were not moved are still in their list, and the
places of the others are clear. -/
structure Merge.Ok (isNode : V → Bool) (entry : List V) (m : Merge V) : Prop where
  perm : (m.this ++ (m.l.drop m.li ++ m.r.drop m.ri)).Perm entry
  left : ∀ v ∈ m.l.take m.li, isNode v = false
  right : ∀ v ∈ m.r.take m.ri, isNode v = false

theorem filter_eq_drop {l : List V} {i : Nat} (h : ∀ v ∈ l.take i, isNode v = false) :
    l.filter isNode = (l.drop i).filter isNode := by
  have hnone : (l.take i).filter isNode = [] := by
    rw [List.filter_eq_nil_iff]
    intro v hv
    rw [h v hv]
    exact Bool.false_ne_true
  calc l.filter isNode = (l.take i ++ l.drop i).filter isNode := by rw [List.take_append_drop]
    _ = (l.drop i).filter isNode := by rw [List.filter_append, hnone, List.nil_append]

/-- The lists of a merge own the references of the entries. -/
theorem Merge.Ok.refs {entry : List V} {m : Merge V} (h : m.Ok isNode entry) :
    SameRefs isNode (m.this ++ (m.l ++ m.r)) entry := by
  have hperm := h.perm.filter isNode
  unfold SameRefs
  rw [List.filter_append, List.filter_append, filter_eq_drop h.left, filter_eq_drop h.right,
    ← List.filter_append, ← List.filter_append]
  exact hperm

/-- One more place is clear. -/
theorem take_set_clear (hnothing : isNode nothing = false) {l : List V} {i : Nat}
    (h : ∀ v ∈ l.take i, isNode v = false) :
    ∀ v ∈ (l.set i nothing).take (i + 1), isNode v = false := by
  intro v hv
  rw [List.take_add_one, List.mem_append, List.take_set_of_le (Nat.le_refl i)] at hv
  rcases hv with hv | hv
  · exact h v hv
  · rw [Option.mem_toList, List.getElem?_set_self'] at hv
    obtain ⟨-, -, rfl⟩ := Option.map_eq_some_iff.mp hv
    exact hnothing

/-- What a stop of `mergesort` leaves behind. -/
def Owned (rc : Nat → V → V → Option Int) (isNode : V → Bool) (entry : List V)
    (stop : Stop (Temps V)) : Prop :=
  ∃ t, FailedIn rc t stop ∧ SameRefs isNode (t.this ++ t.temps) entry

theorem mergeLoop_ends (hnothing : isNode nothing = false) {entry : List V} {n : Nat} {m : Merge V}
    (hm : m.Ok isNode entry) (hn : (m.l.length - m.li) + (m.r.length - m.ri) ≤ n) :
    Ends (mergeLoop rc ascending nothing n m)
      (fun m' => (m'.this ++ (m'.l.drop m'.li ++ m'.r.drop m'.ri)).Perm entry)
      (Owned rc isNode entry) := by
  induction n generalizing m with
  | zero =>
    unfold mergeLoop
    rw [List.getElem?_eq_none (show m.l.length ≤ m.li by omega)]
    exact .ok hm.perm
  | succ n ih =>
    unfold mergeLoop
    cases hlv : m.l[m.li]? with
    | none => exact .ok hm.perm
    | some lv =>
      cases hrv : m.r[m.ri]? with
      | none => exact .ok hm.perm
      | some rv =>
        have hli := (List.getElem?_eq_some_iff.mp hlv).1
        have hri := (List.getElem?_eq_some_iff.mp hrv).1
        have hperm := hm.perm
        rw [drop_eq_cons hlv, drop_eq_cons hrv] at hperm
        dsimp only
        cases hrc : rc m.k lv rv with
        | none => exact .error ⟨⟨m.this, m.l ++ m.r⟩, ⟨⟨m.k, lv, rv, hrc⟩, rfl⟩, hm.refs⟩
        | some res =>
          dsimp only
          split
          · refine ih ⟨?_, take_set_clear hnothing hm.left, hm.right⟩
              (by simp only [List.length_set]; omega)
            rw [drop_set_succ, drop_eq_cons hrv, List.append_assoc]
            exact hperm
          · refine ih ⟨?_, hm.left, take_set_clear hnothing hm.right⟩
              (by simp only [List.length_set]; omega)
            rw [drop_set_succ, drop_eq_cons hlv, List.append_assoc]
            have hmove : ([rv] ++ (lv :: m.l.drop (m.li + 1) ++ m.r.drop (m.ri + 1))).Perm
                (lv :: m.l.drop (m.li + 1) ++ rv :: m.r.drop (m.ri + 1)) := by
              rw [List.singleton_append]
              exact List.perm_middle.symm
            exact (hmove.append_left _).trans hperm

/-- A call for a temporary list fails: the list itself has no entries, and the other temporary list
has its own. -/
theorem holding_ends {α : Type} {P : α → Prop} {own other entry : List V}
    {x : Except (Stop (Temps V)) α} (hx : Ends x P (Owned rc isNode own))
    (hentry : SameRefs isNode (own ++ other) entry) :
    Ends (holding other x) P (Owned rc isNode entry) := by
  cases x with
  | ok a => exact hx
  | error stop =>
    obtain ⟨t, ⟨hfailed, rfl⟩, hrefs⟩ := hx
    refine .error ⟨⟨[], t.this ++ other ++ t.temps⟩, ⟨hfailed, rfl⟩, ?_⟩
    unfold SameRefs at hrefs hentry ⊢
    rw [List.filter_append] at hrefs hentry
    rw [List.nil_append, List.filter_append, List.filter_append]
    calc (t.this.filter isNode ++ other.filter isNode ++ t.temps.filter isNode).Perm
          (t.this.filter isNode ++ (t.temps.filter isNode ++ other.filter isNode)) := by
            rw [List.append_assoc]
            exact List.perm_append_comm.append_left _
      _ |>.Perm (own.filter isNode ++ other.filter isNode) := by
            rw [← List.append_assoc]
            exact hrefs.append_right _
      _ |>.Perm (entry.filter isNode) := hentry

/-- `mergesort` returns the entries, or leaves lists behind that own their references. -/
theorem mergesort_ends (hnothing : isNode nothing = false) {n : Nat} {this : List V} {k : Nat}
    (hn : this.length < n) :
    Ends (mergesort rc ascending nothing n this k) (fun p => p.1.Perm this)
      (Owned rc isNode this) := by
  induction n generalizing this k with
  | zero => omega
  | succ n ih =>
    unfold mergesort
    split <;> rename_i hone
    · exact .ok (.refl _)
    · have hsplit := List.take_append_drop (this.length / 2) this
      have hrefl : SameRefs isNode (this.take (this.length / 2) ++ this.drop (this.length / 2))
          this := by rw [hsplit]; exact .refl _
      have hleft := @ih (this.take (this.length / 2)) k
        (by rw [List.length_take]; omega)
      refine (holding_ends hleft hrefl).bind fun p hp => ?_
      obtain ⟨l, k1⟩ := p
      have hright := @ih (this.drop (this.length / 2)) k1
        (by rw [List.length_drop]; omega)
      have hrest : (this.drop (this.length / 2) ++ l).Perm this :=
        (List.perm_append_comm.trans (hp.append_right _)).trans (by rw [hsplit])
      refine (holding_ends hright (hrest.filter isNode)).bind fun p hp' => ?_
      obtain ⟨r, k2⟩ := p
      have hm : Merge.Ok isNode this ⟨[], l, r, 0, 0, k2⟩ := by
        refine ⟨?_, by simp, by simp⟩
        exact (hp.append hp').trans (by rw [hsplit])
      refine (mergeLoop_ends hnothing hm (by dsimp only; omega)).bind fun m hperm => ?_
      rw [drainLoop_eq nothing (by omega)]
      refine (Ends.ok (P := (· = m.this ++ m.l.drop m.li)) rfl).bind fun out hout => ?_
      rw [hout, drainLoop_eq nothing (by omega)]
      refine (Ends.ok (P := (· = m.this ++ m.l.drop m.li ++ m.r.drop m.ri)) rfl).bind
        fun out hout => .ok ?_
      rw [hout, List.append_assoc]
      exact hperm

/-! ### `qsort` -/

/-- The entry in the free place is the pivot, or neither of the two is a reference. -/
def Hole.Unmoved (isNode : V → Bool) (h : Hole V) : Prop :=
  ∃ v, h.entry[h.hole]? = some v ∧ (v = h.pivot ∨ (isNode v = false ∧ isNode h.pivot = false))

/-- The list with a free place owns the references when the free place does not matter. -/
theorem Held.sameRefs_iff {e0 : List V} (hh : Held e0 h) :
    SameRefs isNode h.entry e0 ↔ h.Unmoved isNode := by
  have hplace := hh.place
  have hv : h.entry[h.hole]? = some h.entry[h.hole] := List.getElem?_eq_getElem hplace
  have hfree := set_filter_perm_iff (p := isNode) (b := h.pivot) hv
  have hrest : SameRefs isNode (h.entry.set h.hole h.pivot) e0 := hh.perm.filter isNode
  constructor
  · intro hrefs
    exact ⟨_, hv, hfree.mp (hrefs.trans hrest.symm)⟩
  · rintro ⟨v, hv', hunmoved⟩
    rw [hv, Option.some.injEq] at hv'
    subst hv'
    exact (hfree.mpr hunmoved).trans hrest

/-- `qsort` stopped at an exception with a list that has a free place. -/
theorem qsort_held {left right k : Nat} (hle : left ≤ right) (hlen : right < rv.length)
    (hraised : qsort rc ascending (right - left + 1) rv left right k = .error (.raised h)) :
    Held rv h := by
  have hends := qsort_ends (@Decides.trivial _ rc ascending) (fun _ _ _ _ _ => True.intro) (k := k)
    hle hlen (Nat.lt_succ_self (right - left))
  rw [hraised] at hends
  obtain ⟨h', ⟨-, hstop⟩, hheld⟩ := hends
  cases hstop
  exact hheld

/-! ### A comparison that fails after the first copy -/

/-- Comparisons that let the first scan stop after `n` entries and raise an exception then. -/
def failAfter (ascending : Bool) (n k : Nat) : Option Int :=
  if k < n then some (if ascending then 0 else -1)
  else if k = n then some (if ascending then -1 else 0)
  else none

/-- The first scan comes to the place `j`. -/
theorem scanRight_failAfter {c : Frame V} {entry : List V} {j d : Nat} (hlo : c.lHold = 0)
    (hj : 0 < j) (hhi : j + d ≤ c.rHold) (hlen : j + d < entry.length) {n k : Nat}
    (hn : k + d = n) :
    scanRight (fun k _ _ => failAfter ascending n k) ascending c entry 0 (j + d) k =
      .ok (j, n + 1) := by
  induction d generalizing k with
  | zero =>
    have hget : entry[j]? = some entry[j] := List.getElem?_eq_getElem hlen
    have hk : k = n := hn
    subst hk
    unfold scanRight compare Frame.read
    rw [if_pos ⟨by omega, hhi⟩, Nat.add_zero, hget]
    unfold failAfter
    cases ascending <;> simp [bind, Except.bind, passRight, pure, Except.pure]
  | succ d ih =>
    have hget : entry[j + (d + 1)]? = some entry[j + (d + 1)] := List.getElem?_eq_getElem hlen
    have hstep := ih (by omega) (by omega) (k := k + 1) (by omega)
    unfold scanRight compare Frame.read
    rw [if_pos ⟨by omega, hhi⟩, hget]
    have hk : failAfter ascending n k = some (if ascending then 0 else -1) :=
      if_pos (by omega)
    simp only [bind, Except.bind, hk]
    rw [if_pos ⟨by omega, by cases ascending <;> rfl⟩]
    exact hstep

/-- The entry at `j` is copied to the first place, and the next comparison fails. -/
theorem partition_failAfter {pivot v : V} {n j : Nat} (hj : 0 < j) (hv : rv[j]? = some v)
    (hn : rv.length = n + 2) :
    partition (fun k _ _ => failAfter ascending (n + 1 - j) k) ascending ⟨0, n + 1, pivot⟩ (n + 1) rv
      0 (n + 1) 0 = .error (.raised ⟨rv.set 0 v, j, pivot⟩) := by
  have hlen := (List.getElem?_eq_some_iff.mp hv).1
  have hscan := @scanRight_failAfter _ ascending ⟨0, n + 1, pivot⟩ rv j (n + 1 - j) rfl hj
    (by dsimp only; omega) (by omega) _ 0 (Nat.zero_add _)
  rw [show j + (n + 1 - j) = n + 1 by omega] at hscan
  have hone : 1 < (rv.set 0 v).length := by
    rw [List.length_set]
    omega
  have hget : (rv.set 0 v)[1]? = some (rv.set 0 v)[1] := List.getElem?_eq_getElem hone
  have hfail : failAfter ascending (n + 1 - j) (n + 1 - j + 1) = none := by
    unfold failAfter
    rw [if_neg (by omega), if_neg (by omega)]
  have hstop : ∀ m, scanLeft (fun k _ _ => failAfter ascending (n + 1 - j) k) ascending
      ⟨0, n + 1, pivot⟩ (rv.set 0 v) j m 1 (n + 1 - j + 1) =
        .error (.raised ⟨rv.set 0 v, j, pivot⟩) := by
    intro m
    unfold scanLeft compare Frame.read
    rw [if_pos ⟨Nat.zero_le _, by dsimp only; omega⟩, hget]
    simp only [bind, Except.bind, hfail]
  have hfill : fillLeft ⟨0, n + 1, pivot⟩ rv 0 j = .ok (rv.set 0 v, 1) := by
    unfold fillLeft Frame.read Frame.write
    have hzero : 0 < rv.length := by omega
    rw [if_pos (by omega), if_pos ⟨Nat.zero_le _, by dsimp only; omega⟩, hv]
    simp [bind, Except.bind, hzero, pure, Except.pure]
  unfold partition
  rw [if_pos (Nat.succ_pos n)]
  simp only [bind, Except.bind, hscan, hfill, hstop]

theorem qsort_failAfter {j : Nat} (hj : 0 < j) (hlen : j < rv.length) :
    ∃ (rc : Nat → V → V → Option Int) (h : Hole V),
      qsort rc ascending (rv.length - 1 - 0 + 1) rv 0 (rv.length - 1) 0 = .error (.raised h) ∧
      h.entry[h.hole]? = rv[j]? ∧ rv[0]? = some h.pivot := by
  obtain ⟨n, hn⟩ : ∃ n, rv.length = n + 2 := ⟨rv.length - 2, by omega⟩
  have hzero : 0 < rv.length := by omega
  have hfirst : rv[0]? = some rv[0] := List.getElem?_eq_getElem hzero
  have hget : rv[j]? = some rv[j] := List.getElem?_eq_getElem hlen
  refine ⟨fun k _ _ => failAfter ascending (n + 1 - j) k, ⟨rv.set 0 rv[j], j, rv[0]⟩, ?_, ?_, hfirst⟩
  · rw [show rv.length - 1 = n + 1 by omega, Nat.sub_zero]
    unfold qsort
    rw [hfirst]
    simp only [bind, Except.bind, Nat.sub_zero, partition_failAfter hj hget hn]
  · dsimp only
    rw [List.getElem?_set_ne (by omega)]

/-- The lists for which no exception can corrupt the references: no entry is one, or all entries are
the same value. -/
def Plain (isNode : V → Bool) (rv : List V) : Prop :=
  (∀ v ∈ rv, isNode v = false) ∨ ∀ v ∈ rv, rv[0]? = some v

/-- In a list that is not plain, some entry differs from the first one, and one of the two is a
reference. -/
theorem exists_of_not_plain (h : ¬Plain isNode rv) :
    ∃ j v w, 0 < j ∧ rv[0]? = some v ∧ rv[j]? = some w ∧ w ≠ v ∧
      (isNode w = true ∨ isNode v = true) := by
  unfold Plain at h
  push Not at h
  obtain ⟨⟨a, ha, hanode⟩, b, hb, hbne⟩ := h
  have hanode : isNode a = true := by simpa using hanode
  have hzero : 0 < rv.length := List.length_pos_of_mem ha
  have hfirst : rv[0]? = some rv[0] := List.getElem?_eq_getElem hzero
  rw [hfirst, ne_eq, Option.some.injEq] at hbne
  obtain ⟨i, hi, rfl⟩ := List.mem_iff_getElem.mp ha
  obtain ⟨j, hj, rfl⟩ := List.mem_iff_getElem.mp hb
  by_cases hnode : isNode rv[0] = true
  · refine ⟨j, _, _, ?_, hfirst, List.getElem?_eq_getElem hj, Ne.symm hbne, .inr hnode⟩
    rcases Nat.eq_zero_or_pos j with rfl | hpos
    · exact absurd rfl hbne
    · exact hpos
  · -- the first entry is no reference, so the one at `i` is another one
    refine ⟨i, _, _, ?_, hfirst, List.getElem?_eq_getElem hi, ?_, .inl hanode⟩
    · rcases Nat.eq_zero_or_pos i with rfl | hpos
      · exact absurd hanode hnode
      · exact hpos
    · intro heq
      exact hnode (heq ▸ hanode)

/-- In a plain list the free place does not matter. -/
theorem Held.unmoved_of_plain (hh : Held rv h) (hplain : Plain isNode rv) : h.Unmoved isNode := by
  have hplace := hh.place
  have hv : h.entry[h.hole]? = some h.entry[h.hole] := List.getElem?_eq_getElem hplace
  have hmem : h.entry[h.hole] ∈ rv := hh.mem _ (List.getElem_mem hplace)
  have hpivot : h.pivot ∈ rv := hh.perm.mem_iff.mp (List.mem_set hplace _)
  refine ⟨_, hv, ?_⟩
  rcases hplain with hnone | hsame
  · exact .inr ⟨hnone _ hmem, hnone _ hpivot⟩
  · have heq := (hsame _ hmem).symm.trans (hsame _ hpivot)
    exact .inl (Option.some.inj heq)

/-- A sort that ends with an exception. The lists that `mergesort` leaves behind have each
reference of the original list once. The list that `qsort` leaves behind has them exactly when the
entry in the free place is the pivot or neither of the two is a reference. So every exception keeps
the references exactly when the list has none, or only equal ones. -/
theorem sort_raise_iff (hnothing : isNode nothing = false) (ascending : Bool) (rv : List V) :
    (∀ (rc : Nat → V → V → Option Int) (k : Nat) (t : Temps V),
      mergesort rc ascending nothing (rv.length + 1) rv k = .error (.raised t) →
      SameRefs isNode (t.this ++ t.temps) rv) ∧
    (∀ (rc : Nat → V → V → Option Int) (left right k : Nat) (h : Hole V), left ≤ right →
      right < rv.length →
      qsort rc ascending (right - left + 1) rv left right k = .error (.raised h) →
      (SameRefs isNode h.entry rv ↔ h.Unmoved isNode)) ∧
    (rv ≠ [] →
      ((∀ (rc : Nat → V → V → Option Int) (h : Hole V),
        qsort rc ascending (rv.length - 1 - 0 + 1) rv 0 (rv.length - 1) 0 = .error (.raised h) →
        SameRefs isNode h.entry rv) ↔ Plain isNode rv)) := by
  refine ⟨fun rc k t hraised => ?_, fun rc left right k h hle hlen hraised => ?_, fun hne => ?_⟩
  · have hends := @mergesort_ends _ rc ascending _ _ hnothing _ _ k
      (Nat.lt_succ_self rv.length)
    rw [hraised] at hends
    obtain ⟨t', ⟨-, hstop⟩, hrefs⟩ := hends
    cases hstop
    exact hrefs
  · exact (qsort_held hle hlen hraised).sameRefs_iff
  · have hlen := List.length_pos_of_ne_nil hne
    constructor
    · intro hall
      by_contra hplain
      obtain ⟨j, v, w, hj, hv, hw, hneq, hnode⟩ := exists_of_not_plain hplain
      have hjlen := (List.getElem?_eq_some_iff.mp hw).1
      obtain ⟨rc, h, hraised, hentry, hpivot⟩ := @qsort_failAfter _ ascending _ _ hj hjlen
      have hheld := qsort_held (Nat.zero_le _) (by omega) hraised
      obtain ⟨x, hx, hunmoved⟩ := hheld.sameRefs_iff.mp (hall rc h hraised)
      rw [hentry, hw, Option.some.injEq] at hx
      rw [hv, Option.some.injEq] at hpivot
      subst hx hpivot
      rcases hunmoved with rfl | ⟨hw', hv'⟩
      · exact hneq rfl
      · rw [hw', hv'] at hnode
        simp at hnode
    · intro hplain rc h hraised
      have hheld := qsort_held (Nat.zero_le _) (by omega) hraised
      exact hheld.sameRefs_iff.mpr (hheld.unmoved_of_plain hplain)

end

/-- Two objects, the second of which goes first: the second comparison raises an exception, and the
list has the second object twice. -/
theorem sort_raise_lost :
    ∃ h : Hole Nat,
      qsort (fun k _ _ => if k = 0 then some (-1) else none) true 2 [1, 2] 0 1 0 =
        .error (.raised h) ∧
      ¬SameRefs (fun v => v != 0) h.entry [1, 2] := by
  refine ⟨⟨[2, 2], 1, 1⟩, by decide, ?_⟩
  unfold SameRefs
  decide

theorem sort_raise_objects :
    (∀ (rc : Nat → Nat → Nat → Option Int) (k : Nat) (t : Temps Nat),
      mergesort rc true 0 3 [1, 2] k = .error (.raised t) →
      SameRefs (fun v => v != 0) (t.this ++ t.temps) [1, 2]) ∧
    (∀ (rc : Nat → Nat → Nat → Option Int) (left right k : Nat) (h : Hole Nat), left ≤ right →
      right < 2 → qsort rc true (right - left + 1) [1, 2] left right k = .error (.raised h) →
      (SameRefs (fun v => v != 0) h.entry [1, 2] ↔ h.Unmoved fun v => v != 0)) ∧
    ([1, 2] ≠ [] →
      ((∀ (rc : Nat → Nat → Nat → Option Int) (h : Hole Nat),
        qsort rc true (2 - 1 - 0 + 1) [1, 2] 0 (2 - 1) 0 = .error (.raised h) →
        SameRefs (fun v => v != 0) h.entry [1, 2]) ↔ Plain (fun v => v != 0) [1, 2])) :=
  sort_raise_iff rfl true [1, 2]

end Qore.ListNode.Order
