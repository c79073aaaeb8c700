import Qore.Lib.Merging
import Qore.ListNode.Order

/-!
# `Qore.ListNode.Sorted`: what the sorts return

A comparator is a total preorder when its results, less than 0, 0 or more than 0, are those of one
(`Comparator.Orders`). Then no sort fails.

* `mergesort_sorted`: `mergesort` returns the entries in order and keeps the order of equal ones.
* `sort_correct`: `sort`, `sortDescending` and the stable sorts.
-/

set_option autoImplicit false

namespace Qore.ListNode.Order

open Qore.Lib

variable {V : Type}

/-! ### `mergesort` -/

/-- The next entry of a list, and those after it when it was cleared. -/
theorem drop_eq_cons {l : List V} {i : Nat} {v : V} (h : l[i]? = some v) :
    l.drop i = v :: l.drop (i + 1) := by
  obtain ⟨hi, rfl⟩ := List.getElem?_eq_some_iff.mp h
  exact List.drop_eq_getElem_cons hi

theorem drop_set_succ (l : List V) (i : Nat) (v : V) : (l.set i v).drop (i + 1) = l.drop (i + 1) :=
  List.drop_set_of_lt (Nat.lt_succ_self i)

theorem drainLoop_eq (nothing : V) {n : Nat} {this l : List V} {li : Nat}
    (hn : l.length - li ≤ n) : drainLoop nothing n this l li = .ok (this ++ l.drop li) := by
  induction n generalizing this l li with
  | zero =>
    unfold drainLoop
    rw [List.getElem?_eq_none (by omega), List.drop_eq_nil_of_le (by omega), List.append_nil]
  | succ n ih =>
    unfold drainLoop
    cases hv : l[li]? with
    | none =>
      rw [List.drop_eq_nil_of_le (List.getElem?_eq_none_iff.mp hv), List.append_nil]
    | some v =>
      dsimp only
      rw [ih (by rw [List.length_set]; omega), drop_set_succ, drop_eq_cons hv, List.append_assoc]
      rfl

section
variable {rc : Nat → V → V → Option Int} {ascending : Bool} {nothing : V}

/-- Comparisons that never fail and prefer the left list as `le` does. -/
def Prefers (rc : Nat → V → V → Option Int) (ascending : Bool) (le : V → V → Bool) : Prop :=
  ∀ k a b, ∃ res, rc k a b = some res ∧ leftFirst ascending res = le a b

/-- The entries that the merge still returns when it has come to `m`. -/
def Merge.merged (le : V → V → Bool) (m : Merge V) : List V :=
  m.this ++ List.merge (m.l.drop m.li) (m.r.drop m.ri) le

theorem mergeLoop_eq {le : V → V → Bool} (hle : Prefers rc ascending le) {n : Nat} {m : Merge V}
    (hn : (m.l.length - m.li) + (m.r.length - m.ri) ≤ n) :
    ∃ m', mergeLoop rc ascending nothing n m = .ok m' ∧
      m'.this ++ m'.l.drop m'.li ++ m'.r.drop m'.ri = m.merged le := by
  induction n generalizing m with
  | zero =>
    have hnone : m.l[m.li]? = none := List.getElem?_eq_none (by omega)
    refine ⟨m, ?_, ?_⟩
    · unfold mergeLoop
      rw [hnone]
    · unfold Merge.merged
      rw [List.drop_eq_nil_of_le (show m.l.length ≤ m.li by omega), List.nil_merge,
        List.append_nil]
  | succ n ih =>
    unfold mergeLoop
    cases hlv : m.l[m.li]? with
    | none =>
      refine ⟨m, rfl, ?_⟩
      unfold Merge.merged
      rw [List.drop_eq_nil_of_le (List.getElem?_eq_none_iff.mp hlv), List.nil_merge,
        List.append_nil]
    | some lv =>
      cases hrv : m.r[m.ri]? with
      | none =>
        refine ⟨m, rfl, ?_⟩
        unfold Merge.merged
        rw [List.drop_eq_nil_of_le (List.getElem?_eq_none_iff.mp hrv), List.merge_right,
          List.append_nil]
      | some rv =>
        obtain ⟨res, hrc, hfirst⟩ := hle m.k lv rv
        have hli := (List.getElem?_eq_some_iff.mp hlv).1
        have hri := (List.getElem?_eq_some_iff.mp hrv).1
        dsimp only
        rw [hrc]
        dsimp only
        rw [hfirst]
        split <;> rename_i hleft
        · obtain ⟨m', hm', heq⟩ := ih (m := { m with
            this := m.this ++ [lv], l := m.l.set m.li nothing, li := m.li + 1, k := m.k + 1 })
            (by simp only [List.length_set]; omega)
          refine ⟨m', hm', heq.trans ?_⟩
          simp only [Merge.merged]
          rw [drop_set_succ, drop_eq_cons hlv, drop_eq_cons hrv,
            List.cons_merge_cons_pos le _ _ hleft, List.append_assoc]
          rfl
        · obtain ⟨m', hm', heq⟩ := ih (m := { m with
            this := m.this ++ [rv], r := m.r.set m.ri nothing, ri := m.ri + 1, k := m.k + 1 })
            (by simp only [List.length_set]; omega)
          refine ⟨m', hm', heq.trans ?_⟩
          simp only [Merge.merged]
          rw [drop_set_succ, drop_eq_cons hlv, drop_eq_cons hrv,
            List.cons_merge_cons_neg le _ _ hleft, List.append_assoc]
          rfl

/-- A comparison that never fails gives a stably sorted list. -/
theorem mergesort_sorted {le : V → V → Bool} {same : V → V → Bool}
    (hle : Prefers rc ascending le) (trans : ∀ a b c, le a b → le b c → le a c)
    (total : ∀ a b, le a b || le b a) (hsame : ∀ a b c, same a b → same a c → le b c) {n : Nat}
    {this : List V} {k : Nat} (hn : this.length < n) :
    ∃ out k', mergesort rc ascending nothing n this k = .ok (out, k') ∧
      SortedBy (le · ·) out this ∧ Stable same out this := by
  induction n generalizing this k with
  | zero => omega
  | succ n ih =>
    unfold mergesort
    split <;> rename_i hone
    · exact ⟨this, k, rfl, .refl hone, .refl same this⟩
    · obtain ⟨l, k1, hl, hlsorted, hlstable⟩ := @ih (this.take (this.length / 2)) k
        (by rw [List.length_take]; omega)
      obtain ⟨r, k2, hr, hrsorted, hrstable⟩ := @ih (this.drop (this.length / 2)) k1
        (by rw [List.length_drop]; omega)
      obtain ⟨m, hm, hmerged⟩ := @mergeLoop_eq _ _ _ nothing _ hle
        (l.length + r.length) ⟨[], l, r, 0, 0, k2⟩ (by dsimp only; omega)
      have hout : m.this ++ m.l.drop m.li ++ m.r.drop m.ri = List.merge l r le := by
        rw [hmerged]
        rfl
      refine ⟨List.merge l r le, m.k, ?_, ?_, ?_⟩
      · simp only [hl, holding, bind, Except.bind, hr, hm]
        rw [drainLoop_eq nothing (by omega)]
        dsimp only
        rw [drainLoop_eq nothing (by omega), hout]
        rfl
      · have hmerge := hlsorted.merge trans total hrsorted
        rwa [List.take_append_drop] at hmerge
      · have hmerge := hlstable.merge trans hsame hlsorted.pairwise hrstable
        rwa [List.take_append_drop] at hmerge

end

/-! ### The sorts return the entries in order -/

/-- The comparator never fails, and `order` is its result: less than 0, 0 or more than 0 as a total
preorder has it. A call reference has to return −1, 0 or 1, so its result fits an `int`, and the
result of `doComparison` is one. -/
structure Comparator.Orders (cmp : Comparator V) (order : V → V → Int) : Prop where
  result : ∀ k a b, cmp.result k a b = some (order a b)
  fits : ∀ a b, FitsInt (order a b)
  swap : ∀ a b, 0 ≤ order a b ↔ order b a ≤ 0
  trans : ∀ a b c, order a b ≤ 0 → order b c ≤ 0 → order a c ≤ 0

/-- `a` may stand before `b`. -/
def before (order : V → V → Int) (ascending : Bool) (a b : V) : Bool :=
  leftFirst ascending (order a b)

/-- `a` and `b` compare equal. -/
def equal (order : V → V → Int) (a b : V) : Bool := order a b == 0

section
variable {cmp : Comparator V} {order : V → V → Int} {ascending : Bool}

theorem before_true (a b : V) : before order true a b = true ↔ order a b ≤ 0 := by
  simp [before, leftFirst]

theorem before_false (a b : V) : before order false a b = true ↔ 0 ≤ order a b := by
  simp [before, leftFirst]

theorem Comparator.Orders.rc (h : cmp.Orders order) (k : Nat) (a b : V) :
    cmp.rc k a b = some (order a b) := by
  have hresult := h.result k a b
  cases cmp with
  | call execValue =>
    show (execValue k a b).map truncInt = _
    rw [show execValue k a b = _ from hresult, Option.map_some, truncInt_of_fits (h.fits a b)]
  | values doComparison => exact hresult

theorem Comparator.Orders.before_trans (h : cmp.Orders order) (a b c : V)
    (hab : before order ascending a b) (hbc : before order ascending b c) :
    before order ascending a c := by
  cases ascending with
  | true =>
    rw [before_true] at *
    exact h.trans a b c hab hbc
  | false =>
    rw [before_false] at *
    exact (h.swap a c).mpr (h.trans c b a ((h.swap b c).mp hbc) ((h.swap a b).mp hab))

theorem Comparator.Orders.before_total (h : cmp.Orders order) (a b : V) :
    before order ascending a b || before order ascending b a := by
  rw [Bool.or_eq_true]
  have hswap := h.swap a b
  cases ascending with
  | true =>
    rw [before_true, before_true]
    omega
  | false =>
    rw [before_false, before_false, h.swap b a]
    omega

/-- Entries that are equal to the same one may stand in any order. -/
theorem Comparator.Orders.before_of_equal (h : cmp.Orders order) (a b c : V)
    (hab : equal order a b) (hac : equal order a c) : before order ascending b c := by
  have hab : order a b = 0 := by simpa [equal] using hab
  have hac : order a c = 0 := by simpa [equal] using hac
  have hba : order b a ≤ 0 := (h.swap a b).mp (by omega)
  have hca : order c a ≤ 0 := (h.swap a c).mp (by omega)
  cases ascending with
  | true =>
    rw [before_true]
    exact h.trans b a c hba (by omega)
  | false =>
    rw [before_false, h.swap]
    exact h.trans c a b hca (by omega)

theorem Comparator.Orders.prefers (h : cmp.Orders order) :
    Prefers cmp.rc ascending (before order ascending) :=
  fun k a b => ⟨order a b, h.rc k a b, rfl⟩

theorem Comparator.Orders.decides (h : cmp.Orders order) :
    Decides cmp.rc ascending fun a b => before order ascending a b = true := by
  refine ⟨fun {k a b res} hres => ?_, fun {k a b res} hres => ?_⟩
  · rw [h.rc k a b, Option.some.injEq] at hres
    subst hres
    have hswap := h.swap a b
    cases ascending <;> simp only [before_true, before_false, passRight] <;> split <;>
      simp_all <;> omega
  · rw [h.rc k a b, Option.some.injEq] at hres
    subst hres
    have hback := h.swap b a
    cases ascending <;> simp only [before_true, before_false, passLeft] <;> split <;>
      simp_all <;> omega

/-- Entries in order at any two places are in order. -/
theorem Sorted.sortedBy {r : V → V → Prop} {entry out : List V} {hi : Nat}
    (h : Sorted r 0 hi entry out) (hhi : hi = entry.length) : SortedBy r out entry := by
  refine ⟨h.perm, List.pairwise_iff_getElem.mpr fun i j hi hj hij => ?_⟩
  have hlen := h.perm.length_eq
  exact h.sorted i j _ _ (Nat.zero_le _) hij (by omega) (List.getElem?_eq_getElem hi)
    (List.getElem?_eq_getElem hj)

theorem Comparator.Orders.not_failed (h : cmp.Orders order) :
    ¬∃ k a b, cmp.rc k a b = none := by
  rintro ⟨k, a, b, hnone⟩
  rw [h.rc k a b] at hnone
  cases hnone

theorem Comparator.Orders.mergesort_sorted (h : cmp.Orders order) (ascending : Bool) (nothing : V)
    (rv : List V) :
    ∃ out k, mergesort cmp.rc ascending nothing (rv.length + 1) rv 0 = .ok (out, k) ∧
      SortedBy (before order ascending · ·) out rv ∧ Stable (equal order) out rv :=
  Order.mergesort_sorted h.prefers h.before_trans h.before_total h.before_of_equal
    (Nat.lt_succ_self _)

theorem Comparator.Orders.qsort_sorted (h : cmp.Orders order) (ascending : Bool) {rv : List V}
    (hlen : rv.length ≠ 0) :
    ∃ out k, qsort cmp.rc ascending rv.length rv 0 (rv.length - 1) 0 = .ok (out, k) ∧
      SortedBy (before order ascending · ·) out rv := by
  have hends : Ends (qsort cmp.rc ascending rv.length rv 0 (rv.length - 1) 0) _ fun _ => False :=
    (qsort_ends h.decides h.before_trans (Nat.zero_le _) (by omega) (by omega)).mono
      (fun _ hp => hp) fun stop hstop => h.not_failed hstop.choose_spec.1.1
  obtain ⟨⟨out, k⟩, hout, hsorted⟩ := hends.exists_ok
  exact ⟨out, k, hout, hsorted.sortedBy (by omega)⟩

/-- The scans of `qsort` stay within the bounds of its part of the list, whatever the comparisons
return. -/
theorem qsort_in_bounds (rc : Nat → V → V → Option Int) {rv : List V} {left right : Nat} (k : Nat)
    (hle : left ≤ right) (hlen : right < rv.length) :
    qsort rc ascending (right - left + 1) rv left right k ≠ .error .fault := by
  have hends := qsort_ends (@Decides.trivial _ rc ascending) (fun _ _ _ _ _ => True.intro) (k := k)
    hle hlen (Nat.lt_succ_self (right - left))
  intro hfault
  rw [hfault] at hends
  obtain ⟨h, ⟨-, hstop⟩, -⟩ := hends
  cases hstop

/-- With a comparison that is a total preorder and never fails, each sort returns the entries in
ascending or descending order, and the stable sorts keep the order of equal entries. The scans of
`qsort` stay within its part of the list, also with other comparisons. -/
theorem sort_correct (h : cmp.Orders order) (nothing : V) (ascending : Bool) (rv : List V) :
    (∃ out, sort nothing cmp ascending rv = .ok out ∧
      SortedBy (before order ascending · ·) out rv) ∧
    (∃ out, sortStable nothing cmp ascending rv = .ok out ∧
      SortedBy (before order ascending · ·) out rv ∧ Stable (equal order) out rv) ∧
    (∀ (rc : Nat → V → V → Option Int) (left right k : Nat), left ≤ right → right < rv.length →
      qsort rc ascending (right - left + 1) rv left right k ≠ .error .fault) := by
  refine ⟨?_, ?_, fun rc left right k hle hlen => qsort_in_bounds rc k hle hlen⟩
  · unfold sort
    split <;> rename_i hzero
    · exact ⟨rv, rfl, .refl (by omega)⟩
    · split
      · obtain ⟨out, k, hout, hsorted, -⟩ := h.mergesort_sorted ascending nothing rv
        exact ⟨out, by rw [hout]; rfl, hsorted⟩
      · obtain ⟨out, k, hout, hsorted⟩ := h.qsort_sorted ascending hzero
        exact ⟨out, by rw [hout]; rfl, hsorted⟩
  · unfold sortStable
    split <;> rename_i hzero
    · exact ⟨rv, rfl, .refl (by omega), .refl _ _⟩
    · obtain ⟨out, k, hout, hsorted, hstable⟩ :=
        h.mergesort_sorted ascending nothing rv
      exact ⟨out, by rw [hout]; rfl, hsorted, hstable⟩

/-- `l.id <=> r.id`, for values that are an id and something else. -/
def compareIds (l r : Int × Nat) : Int := if l.1 < r.1 then -1 else if l.1 = r.1 then 0 else 1

theorem compareIds_orders : (Comparator.call fun _ l r => some (compareIds l r)).Orders compareIds := by
  refine ⟨fun _ _ _ => rfl, fun a b => ?_, fun a b => ?_, fun a b c => ?_⟩
  · unfold FitsInt compareIds
    split_ifs <;> omega
  · unfold compareIds
    split_ifs <;> omega
  · unfold compareIds
    split_ifs <;> omega

theorem sort_correct_ids :
    (∃ out, sort (0, 0) (.call fun _ l r => some (compareIds l r)) false [(1, 0), (2, 1), (1, 2)] =
        .ok out ∧
      SortedBy (before compareIds false · ·) out [(1, 0), (2, 1), (1, 2)]) ∧
    (∃ out, sortStable (0, 0) (.call fun _ l r => some (compareIds l r)) false
        [(1, 0), (2, 1), (1, 2)] = .ok out ∧
      SortedBy (before compareIds false · ·) out [(1, 0), (2, 1), (1, 2)] ∧
      Stable (equal compareIds) out [(1, 0), (2, 1), (1, 2)]) ∧
    (∀ (rc : Nat → Int × Nat → Int × Nat → Option Int) (left right k : Nat), left ≤ right →
      right < 3 → qsort rc false (right - left + 1) [(1, 0), (2, 1), (1, 2)] left right k ≠
        .error .fault) :=
  sort_correct compareIds_orders (0, 0) false [(1, 0), (2, 1), (1, 2)]

/-- Descending, `sort` turns the equal entries around and `sortStable` does not. -/
example : sort (0, 0) (.call fun _ l r => some (compareIds l r)) false [(1, 0), (2, 1), (1, 2)] =
      .ok [(2, 1), (1, 2), (1, 0)] ∧
    sortStable (0, 0) (.call fun _ l r => some (compareIds l r)) false [(1, 0), (2, 1), (1, 2)] =
      .ok [(2, 1), (1, 0), (1, 2)] := by decide

end

end Qore.ListNode.Order
