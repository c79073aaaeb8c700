import Qore.Lib.CInt
import Qore.Lib.Outcome

/-!
# `Qore.ListNode.Order`: the sorts with the values that they compare

A comparison can run user code, so its result depends on the number of the call and on the values.
`Qore.ListNode.Sort` adds the scan count.

A sort stops with the lists that it leaves behind when a comparison raises an exception. It stops
with `fault` when it reads or writes outside the part of the list that it sorts, or when a loop
takes more rounds than the part has entries.

* `partition_ends`: the invariant of the partition, with the free place that moves between its ends.
* `qsort_ends`: `qsort` sorts its part of the list, or leaves a list with a free place behind.
-/

set_option autoImplicit false

namespace Qore.ListNode.Order

open Qore.Lib

variable {V : Type}

/-! ### Comparisons -/

/-- What a sort compares values with: a call reference, whose result is a 64-bit integer, or
`QoreLogicalComparisonOperatorNode::doComparison`. `none` is an exception. -/
inductive Comparator (V : Type) where
  | call (execValue : Nat → V → V → Option Int)
  | values (doComparison : Nat → V → V → Option Int)

/-- The result of the `k`-th comparison. -/
def Comparator.result : Comparator V → Nat → V → V → Option Int
  | .call execValue => execValue
  | .values doComparison => doComparison

/-- `rc` after the `k`-th comparison. The result of a call is converted to `int`. -/
def Comparator.rc : Comparator V → Nat → V → V → Option Int
  | .call execValue => fun k a b => (execValue k a b).map truncInt
  | .values doComparison => doComparison

/-- Why a sort stops: a comparison raised an exception when the sort was in the state `s`, or the
sort left its bounds. -/
inductive Stop (S : Type) where
  | raised (s : S)
  | fault
  deriving DecidableEq

/-! ### `qsort` -/

/-- What `qsort` keeps while it partitions: the bounds of its part of the list and the pivot. -/
structure Frame (V : Type) where
  lHold : Nat
  rHold : Nat
  pivot : V

/-- What `qsort` leaves behind at an exception: the entries, the place whose entry was copied to
another one, and the pivot, which is in a local variable. -/
structure Hole (V : Type) where
  entry : List V
  hole : Nat
  pivot : V
  deriving DecidableEq

/-- The part of the list has a place `i`. -/
def Frame.Has (c : Frame V) (entry : List V) (i : Nat) : Prop :=
  c.lHold ≤ i ∧ i ≤ c.rHold ∧ i < entry.length

/-- Read `entry[i]`. -/
def Frame.read {S : Type} (c : Frame V) (entry : List V) (i : Nat) : Except (Stop S) V :=
  if c.lHold ≤ i ∧ i ≤ c.rHold then
    match entry[i]? with
    | some v => .ok v
    | none => .error .fault
  else .error .fault

/-- `entry[i] = v`. -/
def Frame.write {S : Type} (c : Frame V) (entry : List V) (i : Nat) (v : V) :
    Except (Stop S) (List V) :=
  if c.lHold ≤ i ∧ i ≤ c.rHold ∧ i < entry.length then .ok (entry.set i v) else .error .fault

section
variable (rc : Nat → V → V → Option Int) (ascending : Bool)

/-- The condition under which `right` goes down. -/
def passRight (rc : Int) : Bool := (decide (rc ≥ 0) && ascending) || (decide (rc < 0) && !ascending)

/-- The condition under which `left` goes up. -/
def passLeft (rc : Int) : Bool := (decide (rc ≤ 0) && ascending) || (decide (rc > 0) && !ascending)

/-- The `k`-th comparison, of `entry[i]` with the pivot. -/
def compare (c : Frame V) (entry : List V) (hole i k : Nat) : Except (Stop (Hole V)) Int := do
  let v ← c.read entry i
  match rc k v c.pivot with
  | none => .error (.raised ⟨entry, hole, c.pivot⟩)
  | some res => .ok res

/-- The loop that moves `right` down. -/
def scanRight (c : Frame V) (entry : List V) (left : Nat) :
    Nat → Nat → Except (Stop (Hole V)) (Nat × Nat)
  | right, k => do
    let res ← compare rc c entry left right k
    if left < right ∧ passRight ascending res = true then
      match right with
      | 0 => .error .fault
      | right + 1 => scanRight c entry left right (k + 1)
    else return (right, k + 1)

/-- The loop that moves `left` up, at most `n` times. The free place is at `right`. -/
def scanLeft (c : Frame V) (entry : List V) (right : Nat) :
    Nat → Nat → Nat → Except (Stop (Hole V)) (Nat × Nat)
  | n, left, k => do
    let res ← compare rc c entry right left k
    if left < right ∧ passLeft ascending res = true then
      match n with
      | 0 => .error .fault
      | n + 1 => scanLeft c entry right n (left + 1) (k + 1)
    else return (left, k + 1)

/-- `entry[left] = entry[right]; ++left;`, unless both are the same place. -/
def fillLeft (c : Frame V) (entry : List V) (left right : Nat) :
    Except (Stop (Hole V)) (List V × Nat) :=
  if left ≠ right then do
    let v ← c.read entry right
    let entry ← c.write entry left v
    return (entry, left + 1)
  else return (entry, left)

/-- `entry[right] = entry[left]; --right;`, unless both are the same place. -/
def fillRight (c : Frame V) (entry : List V) (left right : Nat) :
    Except (Stop (Hole V)) (List V × Nat) :=
  if left ≠ right then do
    let v ← c.read entry left
    let entry ← c.write entry right v
    return (entry, right - 1)
  else return (entry, right)

/-- The outer loop of `qsort`, at most `n` times: the entries, the free place and the number of the
next comparison. -/
def partition (c : Frame V) :
    Nat → List V → Nat → Nat → Nat → Except (Stop (Hole V)) (List V × Nat × Nat)
  | n, entry, left, right, k =>
    if left < right then
      match n with
      | 0 => .error .fault
      | n + 1 => do
        let (right, k) ← scanRight rc ascending c entry left right k
        let (entry, left) ← fillLeft c entry left right
        let (left, k) ← scanLeft rc ascending c entry right (right - left) left k
        let (entry, right) ← fillRight c entry left right
        partition c n entry left right k
    else return (entry, left, k)

/-- `qsort` of the entries from `left` to `right`, of which there are at most `n`. -/
def qsort : Nat → List V → Nat → Nat → Nat → Except (Stop (Hole V)) (List V × Nat)
  | 0, _, _, _, _ => .error .fault
  | n + 1, entry, left, right, k => do
    let pivot ← match entry[left]? with
      | some v => .ok v
      | none => .error .fault
    let c : Frame V := ⟨left, right, pivot⟩
    let (entry, tLeft, k) ← partition rc ascending c (right - left) entry left right k
    let entry ← c.write entry tLeft pivot
    let (entry, k) ←
      (if left < tLeft then qsort n entry left (tLeft - 1) k else pure (entry, k))
    if right > tLeft then qsort n entry (tLeft + 1) right k else pure (entry, k)

/-! ### `mergesort` -/

/-- The result of a comparison keeps the entry of the left list first. -/
def leftFirst (rc : Int) : Bool := (ascending && decide (rc ≤ 0)) || (!ascending && decide (rc ≥ 0))

/-- What `mergesort` leaves behind at an exception: the entries of the list and those of the
temporary lists, also of the calls inside it. -/
structure Temps (V : Type) where
  this : List V
  temps : List V
  deriving DecidableEq

/-- The lists and positions of the merge. -/
structure Merge (V : Type) where
  this : List V
  l : List V
  r : List V
  li : Nat
  ri : Nat
  k : Nat

/-- The first loop of the merge, at most `n` times. `getAndClear` leaves `nothing` in the place. -/
def mergeLoop (nothing : V) : Nat → Merge V → Except (Stop (Temps V)) (Merge V)
  | n, m =>
    match m.l[m.li]?, m.r[m.ri]? with
    | some lv, some rv =>
      match rc m.k lv rv with
      | none => .error (.raised ⟨m.this, m.l ++ m.r⟩)
      | some res =>
        match n with
        | 0 => .error .fault
        | n + 1 =>
          if leftFirst ascending res then
            mergeLoop nothing n { m with
              this := m.this ++ [lv], l := m.l.set m.li nothing, li := m.li + 1, k := m.k + 1 }
          else
            mergeLoop nothing n { m with
              this := m.this ++ [rv], r := m.r.set m.ri nothing, ri := m.ri + 1, k := m.k + 1 }
    | _, _ => .ok m

/-- The loops that push what is left of one list, at most `n` times. -/
def drainLoop (nothing : V) : Nat → List V → List V → Nat → Except (Stop (Temps V)) (List V)
  | n, this, l, li =>
    match l[li]? with
    | some v =>
      match n with
      | 0 => .error .fault
      | n + 1 => drainLoop nothing n (this ++ [v]) (l.set li nothing) (li + 1)
    | none => .ok this

/-- A call for a temporary list, while the other one has the entries `other` and the list itself
has none. -/
def holding {α : Type} (other : List V) : Except (Stop (Temps V)) α → Except (Stop (Temps V)) α
  | .ok a => .ok a
  | .error (.raised s) => .error (.raised ⟨[], s.this ++ other ++ s.temps⟩)
  | .error .fault => .error .fault

/-- `mergesort` on a list of less than `n` entries, from the `k`-th comparison on. -/
def mergesort (nothing : V) : Nat → List V → Nat → Except (Stop (Temps V)) (List V × Nat)
  | 0, _, _ => .error .fault
  | n + 1, this, k =>
    if this.length ≤ 1 then .ok (this, k)
    else do
      let mid := this.length / 2
      let l := this.take mid
      let r := this.drop mid
      let (l, k) ← holding r (mergesort nothing n l k)
      let (r, k) ← holding l (mergesort nothing n r k)
      let m ← mergeLoop rc ascending nothing (l.length + r.length)
        { this := [], l, r, li := 0, ri := 0, k }
      let this ← drainLoop nothing m.l.length m.this m.l m.li
      let this ← drainLoop nothing m.r.length this m.r m.ri
      return (this, m.k)

end

/-! ### The sorts -/

/-- The entries that are dereferenced after an exception, of all lists. -/
def released {S α : Type} (f : S → List V) : Except (Stop S) (List V × α) →
    Except (Stop (List V)) (List V)
  | .ok res => .ok res.1
  | .error (.raised s) => .error (.raised (f s))
  | .error .fault => .error .fault

/-- `QORE_QUICKSORT_LIMIT`. -/
def quicksortLimit : Nat := 1000

/-- `QoreListNode::sort` and `sortDescending`, on the copy `rv` of the list. -/
def sort (nothing : V) (cmp : Comparator V) (ascending : Bool) (rv : List V) :
    Except (Stop (List V)) (List V) :=
  if rv.length = 0 then .ok rv
  else if rv.length > quicksortLimit then
    released (fun s => s.this ++ s.temps)
      (mergesort cmp.rc ascending nothing (rv.length + 1) rv 0)
  else released Hole.entry (qsort cmp.rc ascending rv.length rv 0 (rv.length - 1) 0)

/-- `QoreListNode::sortStable` and `sortDescendingStable`, on the copy `rv` of the list. -/
def sortStable (nothing : V) (cmp : Comparator V) (ascending : Bool) (rv : List V) :
    Except (Stop (List V)) (List V) :=
  if rv.length = 0 then .ok rv
  else
    released (fun s => s.this ++ s.temps)
      (mergesort cmp.rc ascending nothing (rv.length + 1) rv 0)

/-! ### The scans -/

section
variable {rc : Nat → V → V → Option Int} {ascending : Bool} {r : V → V → Prop} {i lo hi : Nat}
  {e0 : List V}

/-- What the conditions of the two scans say about the order: an entry that is passed may stay on
its side of the pivot, and one that is not may go to the other side. -/
structure Decides (rc : Nat → V → V → Option Int) (ascending : Bool) (r : V → V → Prop) :
    Prop where
  right : ∀ {k : Nat} {a b : V} {res : Int}, rc k a b = some res →
    if passRight ascending res = true then r b a else r a b
  left : ∀ {k : Nat} {a b : V} {res : Int}, rc k a b = some res →
    if passLeft ascending res = true then r a b else r b a

/-- Every comparison decides the relation that always holds. -/
theorem Decides.trivial : Decides rc ascending fun _ _ => True :=
  ⟨fun _ => by split <;> exact True.intro, fun _ => by split <;> exact True.intro⟩

/-- A comparison failed, and the sort was in the state `s`. -/
def FailedIn {S : Type} (rc : Nat → V → V → Option Int) (s : S) (stop : Stop S) : Prop :=
  (∃ k a b, rc k a b = none) ∧ stop = .raised s

theorem read_ends {S : Type} {Q : Stop S → Prop} {c : Frame V} {entry : List V} (h : c.Has entry i) :
    Ends (c.read entry i) (fun v => entry[i]? = some v) Q := by
  have hi := h.2.2
  unfold Frame.read
  rw [if_pos ⟨h.1, h.2.1⟩, List.getElem?_eq_getElem hi]
  exact .ok rfl

theorem write_ends {S : Type} {Q : Stop S → Prop} {c : Frame V} {entry : List V} (h : c.Has entry i)
    (v : V) : Ends (c.write entry i v) (· = entry.set i v) Q := by
  unfold Frame.write
  rw [if_pos ⟨h.1, h.2⟩]
  exact .ok rfl

theorem compare_ends {c : Frame V} {entry : List V} {hole k : Nat} (h : c.Has entry i) :
    Ends (compare rc c entry hole i k)
      (fun res => ∃ v, entry[i]? = some v ∧ rc k v c.pivot = some res)
      (FailedIn rc ⟨entry, hole, c.pivot⟩) := by
  refine (read_ends h).bind fun v hv => ?_
  cases hrc : rc k v c.pivot with
  | none => exact .error ⟨⟨k, v, c.pivot, hrc⟩, rfl⟩
  | some res => exact .ok ⟨v, hv, hrc⟩

/-- The places that the first scan passes, and the place at which it stops. -/
theorem scanRight_ends (hr : Decides rc ascending r) {c : Frame V} {entry : List V}
    {left right k : Nat} (hlo : c.lHold ≤ left) (hle : left ≤ right) (hhi : right ≤ c.rHold)
    (hlen : right < entry.length) :
    Ends (scanRight rc ascending c entry left right k)
      (fun p => left ≤ p.1 ∧ p.1 ≤ right ∧
        (∀ i v, p.1 < i → i ≤ right → entry[i]? = some v → r c.pivot v) ∧
        (left < p.1 → ∀ v, entry[p.1]? = some v → r v c.pivot))
      (FailedIn rc ⟨entry, left, c.pivot⟩) := by
  induction right generalizing k with
  | zero =>
    refine (compare_ends ⟨by omega, hhi, hlen⟩).bind fun res _ => ?_
    exact .ok ⟨hle, Nat.le_refl _, fun i v hi hi' => by omega, fun hlt => by omega⟩
  | succ right ih =>
    refine (compare_ends ⟨by omega, hhi, hlen⟩).bind fun res hres => ?_
    obtain ⟨v, hv, hrc⟩ := hres
    have hdecides := hr.right hrc
    split <;> rename_i hpass
    · rw [if_pos hpass.2] at hdecides
      refine (ih (by omega) (by omega) (by omega)).mono (fun p hp => ?_) fun _ h => h
      obtain ⟨hlow, hhigh, habove, hstop⟩ := hp
      refine ⟨hlow, by omega, fun i w hi hi' hw => ?_, hstop⟩
      rcases Nat.lt_or_eq_of_le hi' with hlt | rfl
      · exact habove i w hi (by omega) hw
      · rw [hv, Option.some.injEq] at hw
        exact hw ▸ hdecides
    · refine .ok ⟨hle, Nat.le_refl _, fun i v hi hi' => by omega, fun hlt w hw => ?_⟩
      rw [hv, Option.some.injEq] at hw
      rw [if_neg fun hpr => hpass ⟨hlt, hpr⟩] at hdecides
      exact hw ▸ hdecides

/-- The places that the second scan passes, and the place at which it stops. -/
theorem scanLeft_ends (hr : Decides rc ascending r) {c : Frame V} {entry : List V}
    {n left right k : Nat} (hlo : c.lHold ≤ left) (hle : left ≤ right) (hhi : right ≤ c.rHold)
    (hlen : right < entry.length) (hn : right - left ≤ n) :
    Ends (scanLeft rc ascending c entry right n left k)
      (fun p => left ≤ p.1 ∧ p.1 ≤ right ∧
        (∀ i v, left ≤ i → i < p.1 → entry[i]? = some v → r v c.pivot) ∧
        (p.1 < right → ∀ v, entry[p.1]? = some v → r c.pivot v))
      (FailedIn rc ⟨entry, right, c.pivot⟩) := by
  induction n generalizing left k with
  | zero =>
    refine (compare_ends ⟨by omega, by omega, by omega⟩).bind fun res _ => ?_
    rw [if_neg (by omega)]
    exact .ok ⟨Nat.le_refl _, hle, fun i v hi hi' => by omega, fun hlt => by dsimp only at hlt; omega⟩
  | succ n ih =>
    refine (compare_ends ⟨by omega, by omega, by omega⟩).bind fun res hres => ?_
    obtain ⟨v, hv, hrc⟩ := hres
    have hdecides := hr.left hrc
    split <;> rename_i hpass
    · rw [if_pos hpass.2] at hdecides
      refine (ih (by omega) (by omega) (by omega)).mono (fun p hp => ?_) fun _ h => h
      obtain ⟨hlow, hhigh, hbelow, hstop⟩ := hp
      refine ⟨by omega, hhigh, fun i w hi hi' hw => ?_, hstop⟩
      rcases Nat.lt_or_eq_of_le hi with hlt | rfl
      · exact hbelow i w hlt hi' hw
      · rw [hv, Option.some.injEq] at hw
        exact hw ▸ hdecides
    · refine .ok ⟨Nat.le_refl _, hle, fun i v hi hi' => by dsimp only at hi'; omega,
        fun hlt w hw => ?_⟩
      rw [hv, Option.some.injEq] at hw
      rw [if_neg fun hpl => hpass ⟨hlt, hpl⟩] at hdecides
      exact hw ▸ hdecides

/-! ### The partition -/

/-- The entries of the places from `lo` up to `hi` changed, and only among themselves. -/
structure Within (lo hi : Nat) (e0 entry : List V) : Prop where
  length : entry.length = e0.length
  frame : ∀ i, i < lo ∨ hi ≤ i → entry[i]? = e0[i]?
  source : ∀ i v, lo ≤ i → i < hi → entry[i]? = some v → ∃ j, lo ≤ j ∧ j < hi ∧ e0[j]? = some v

theorem Within.refl (lo hi : Nat) (entry : List V) : Within lo hi entry entry :=
  ⟨rfl, fun _ _ => rfl, fun i _ hlo hhi hv => ⟨i, hlo, hhi, hv⟩⟩

theorem Within.mono {lo' hi' : Nat} {entry : List V} (h : Within lo hi e0 entry) (hlo : lo' ≤ lo)
    (hhi : hi ≤ hi') : Within lo' hi' e0 entry := by
  refine ⟨h.length, fun i hi => h.frame i (by omega), fun i v hge hlt hv => ?_⟩
  by_cases hin : lo ≤ i ∧ i < hi
  · obtain ⟨j, hj, hj', hv⟩ := h.source i v hin.1 hin.2 hv
    exact ⟨j, by omega, by omega, hv⟩
  · exact ⟨i, hge, hlt, by rw [← h.frame i (by omega), hv]⟩

theorem Within.trans {e1 e2 : List V} (h1 : Within lo hi e0 e1) (h2 : Within lo hi e1 e2) :
    Within lo hi e0 e2 := by
  refine ⟨h2.length.trans h1.length, fun i hi => (h2.frame i hi).trans (h1.frame i hi),
    fun i v hi hi' hv => ?_⟩
  obtain ⟨j, hj, hj', hv⟩ := h2.source i v hi hi' hv
  exact h1.source j v hj hj' hv

/-- An entry of the part is written to another place of it. -/
theorem Within.set {entry : List V} {v : V} (h : Within lo hi e0 entry) (hlo : lo ≤ i)
    (hhi : i < hi) (hv : ∃ j, lo ≤ j ∧ j < hi ∧ e0[j]? = some v) :
    Within lo hi e0 (entry.set i v) := by
  refine ⟨by rw [List.length_set, h.length], fun j hj => ?_, fun j w hj hj' hw => ?_⟩
  · rw [List.getElem?_set_ne (by omega), h.frame j hj]
  · rw [List.getElem?_set] at hw
    split at hw
    · split at hw
      · rw [Option.some.injEq] at hw
        exact hw ▸ hv
      · cases hw
    · exact h.source j w hj hj' hw

/-- What holds of a list with a free place: with the pivot in that place it has the entries of `e0`
again. -/
structure Held (e0 : List V) (h : Hole V) : Prop where
  place : h.hole < h.entry.length
  perm : (h.entry.set h.hole h.pivot).Perm e0
  mem : ∀ v ∈ h.entry, v ∈ e0

theorem Held.of_perm {e1 : List V} {h : Hole V} (hh : Held e1 h) (hperm : e1.Perm e0) : Held e0 h :=
  ⟨hh.place, hh.perm.trans hperm, fun v hv => hperm.mem_iff.mp (hh.mem v hv)⟩

/-- The free place moves to the place that its new entry comes from. -/
theorem Held.move {entry : List V} {j : Nat} {pivot v : V} (hh : Held e0 ⟨entry, i, pivot⟩)
    (hij : i ≠ j) (hv : entry[j]? = some v) : Held e0 ⟨entry.set i v, j, pivot⟩ := by
  obtain ⟨hj, hget⟩ := List.getElem?_eq_some_iff.mp hv
  have hgetD : entry.getD j pivot = v := by
    rw [List.getD_eq_getElem?_getD, hv, Option.getD_some]
  have hmove := set_move_perm (d := pivot) hh.place hj hij pivot
  rw [hgetD] at hmove
  refine ⟨by simpa using hj, hmove.trans hh.perm, fun w hw => ?_⟩
  rcases List.mem_or_eq_of_mem_set hw with hw | rfl
  · exact hh.mem w hw
  · exact hh.mem w (List.mem_of_getElem? hv)

/-- The invariant of the partition: the entries below `left` and above `right` are on their side of
the pivot. -/
structure Parted (r : V → V → Prop) (c : Frame V) (e0 entry : List V) (left right : Nat) :
    Prop where
  within : Within c.lHold (c.rHold + 1) e0 entry
  below : ∀ i v, c.lHold ≤ i → i < left → entry[i]? = some v → r v c.pivot
  above : ∀ i v, right < i → i ≤ c.rHold → entry[i]? = some v → r c.pivot v

/-- What a stop of `qsort` leaves behind. -/
def Stopped (rc : Nat → V → V → Option Int) (e0 : List V) (stop : Stop (Hole V)) : Prop :=
  ∃ h, FailedIn rc h stop ∧ Held e0 h

section
variable {rc : Nat → V → V → Option Int} {ascending : Bool} {r : V → V → Prop} {c : Frame V}
  {e0 entry : List V} {left right : Nat}

theorem fillLeft_ends (hlo : c.lHold ≤ left) (hle : left ≤ right) (hhi : right ≤ c.rHold)
    (hparted : Parted r c e0 entry left right) (hh : Held e0 ⟨entry, left, c.pivot⟩)
    (hlen : right < entry.length)
    (hstop : left < right → ∀ v, entry[right]? = some v → r v c.pivot) :
    Ends (fillLeft c entry left right)
      (fun p => (left ≤ p.2 ∧ p.2 ≤ right ∧ (left < right → left < p.2)) ∧
        p.1.length = entry.length ∧
        Parted r c e0 p.1 p.2 right ∧ Held e0 ⟨p.1, right, c.pivot⟩)
      (Stopped rc e0) := by
  unfold fillLeft
  split <;> rename_i hne
  · refine (read_ends ⟨by omega, hhi, hlen⟩).bind fun v hv => ?_
    refine (write_ends ⟨hlo, by omega, by omega⟩ v).bind fun e1 he1 => ?_
    subst he1
    have hsource := hparted.within.source right v (by omega) (by omega) hv
    refine .ok ⟨⟨Nat.le_succ _, by dsimp only; omega, fun _ => Nat.lt_succ_self _⟩,
      List.length_set, ⟨hparted.within.set hlo (by omega) hsource, ?_, ?_⟩, hh.move hne hv⟩
    · -- below the new `left` is the place that was written
      intro i w hi hi' hw
      by_cases hsame : i = left
      · subst hsame
        rw [List.getElem?_set_self (by omega), Option.some.injEq] at hw
        exact hw ▸ hstop (by omega) v hv
      · rw [List.getElem?_set_ne (Ne.symm hsame)] at hw
        exact hparted.below i w hi (by omega) hw
    · intro i w hi hi' hw
      rw [List.getElem?_set_ne (by omega)] at hw
      exact hparted.above i w hi hi' hw
  · rw [not_ne_iff] at hne
    subst hne
    exact .ok ⟨⟨Nat.le_refl _, hle, fun hlt => hlt⟩, rfl, hparted, hh⟩

theorem fillRight_ends (hlo : c.lHold ≤ left) (hle : left ≤ right) (hhi : right ≤ c.rHold)
    (hparted : Parted r c e0 entry left right) (hh : Held e0 ⟨entry, right, c.pivot⟩)
    (hlen : right < entry.length)
    (hstop : left < right → ∀ v, entry[left]? = some v → r c.pivot v) :
    Ends (fillRight c entry left right)
      (fun p => (left ≤ p.2 ∧ p.2 ≤ right) ∧ p.1.length = entry.length ∧
        Parted r c e0 p.1 left p.2 ∧ Held e0 ⟨p.1, left, c.pivot⟩)
      (Stopped rc e0) := by
  unfold fillRight
  split <;> rename_i hne
  · refine (read_ends ⟨hlo, by omega, by omega⟩).bind fun v hv => ?_
    refine (write_ends ⟨by omega, hhi, hlen⟩ v).bind fun e1 he1 => ?_
    subst he1
    have hsource := hparted.within.source left v (by omega) (by omega) hv
    refine .ok ⟨⟨by dsimp only; omega, Nat.sub_le _ _⟩, List.length_set,
      ⟨hparted.within.set (by omega) (by omega) hsource, ?_, ?_⟩, hh.move (Ne.symm hne) hv⟩
    · intro i w hi hi' hw
      rw [List.getElem?_set_ne (by omega)] at hw
      exact hparted.below i w hi hi' hw
    · -- above the new `right` is the place that was written
      intro i w hi hi' hw
      by_cases hsame : i = right
      · subst hsame
        rw [List.getElem?_set_self (by omega), Option.some.injEq] at hw
        exact hw ▸ hstop (by omega) v hv
      · rw [List.getElem?_set_ne (Ne.symm hsame)] at hw
        exact hparted.above i w (by omega) hi' hw
  · rw [not_ne_iff] at hne
    subst hne
    exact .ok ⟨⟨Nat.le_refl _, Nat.le_refl _⟩, rfl, hparted, hh⟩

/-- The rounds of the partition. Each one brings `left` and `right` closer. -/
theorem partition_ends (hr : Decides rc ascending r) {n k : Nat} (hlo : c.lHold ≤ left)
    (hle : left ≤ right) (hhi : right ≤ c.rHold) (hlen : c.rHold < entry.length)
    (hn : right - left ≤ n) (hparted : Parted r c e0 entry left right)
    (hh : Held e0 ⟨entry, left, c.pivot⟩) :
    Ends (partition rc ascending c n entry left right k)
      (fun p => (c.lHold ≤ p.2.1 ∧ p.2.1 ≤ c.rHold) ∧ Parted r c e0 p.1 p.2.1 p.2.1 ∧
        Held e0 ⟨p.1, p.2.1, c.pivot⟩)
      (Stopped rc e0) := by
  induction n generalizing entry left right k with
  | zero =>
    unfold partition
    rw [if_neg (by omega)]
    obtain rfl : left = right := by omega
    exact .ok ⟨⟨hlo, hhi⟩, hparted, hh⟩
  | succ n ih =>
    unfold partition
    split <;> rename_i hlt
    · have hright : Ends _ _ (Stopped rc e0) :=
        (scanRight_ends hr (k := k) hlo hle hhi (by omega)).mono (fun _ h => h) fun s hs =>
          ⟨_, hs, hh⟩
      refine hright.bind fun p hp => ?_
      obtain ⟨r1, k1⟩ := p
      obtain ⟨hlow, hhigh, habove, hstop⟩ := hp
      have hparted1 : Parted r c e0 entry left r1 := by
        refine ⟨hparted.within, hparted.below, fun i v hi hi' hv => ?_⟩
        by_cases hin : i ≤ right
        · exact habove i v hi hin hv
        · exact hparted.above i v (by omega) hi' hv
      refine (fillLeft_ends hlo hlow (by omega) hparted1 hh (by omega) hstop).bind fun p hp => ?_
      obtain ⟨e1, l1⟩ := p
      obtain ⟨⟨hl1, hl1', hmoved⟩, hlen1, hparted2, hh2⟩ := hp
      dsimp only at hl1 hl1' hmoved hlen1 hparted2 hh2 ⊢
      have hleft : Ends _ _ (Stopped rc e0) :=
        (@scanLeft_ends _ _ _ _ hr c e1 _ _ _ k1 (by omega) hl1' (by omega) (by omega)
          (Nat.le_refl _)).mono (fun _ h => h) fun s hs => ⟨_, hs, hh2⟩
      refine hleft.bind fun p hp => ?_
      obtain ⟨l2, k2⟩ := p
      obtain ⟨hl2, hl2', hbelow, hstop2⟩ := hp
      have hparted3 : Parted r c e0 e1 l2 r1 := by
        refine ⟨hparted2.within, fun i v hi hi' hv => ?_, hparted2.above⟩
        by_cases hin : l1 ≤ i
        · exact hbelow i v hin hi' hv
        · exact hparted2.below i v hi (by omega) hv
      refine (fillRight_ends (by omega) hl2' (by omega) hparted3 hh2 (by omega) hstop2).bind
        fun p hp => ?_
      obtain ⟨⟨hr2, hr2'⟩, hlen2, hparted4, hh4⟩ := hp
      exact ih (by omega) hr2 (by omega) (by omega) (by omega) hparted4 hh4
    · obtain rfl : left = right := by omega
      exact .ok ⟨⟨hlo, hhi⟩, hparted, hh⟩

end

end

/-! ### `qsort` sorts its part of the list -/

/-- The places from `lo` up to `hi` have the same entries in the order `r`, and the others were not
touched. -/
structure Sorted (r : V → V → Prop) (lo hi : Nat) (e0 entry : List V) : Prop where
  perm : entry.Perm e0
  within : Within lo hi e0 entry
  sorted : ∀ i j a b, lo ≤ i → i < j → j < hi → entry[i]? = some a → entry[j]? = some b → r a b

theorem Sorted.empty (r : V → V → Prop) {lo hi : Nat} (h : hi ≤ lo) (entry : List V) :
    Sorted r lo hi entry entry :=
  ⟨.refl _, .refl _ _ _, fun i j _ _ hi hij hj => by omega⟩

section
variable {rc : Nat → V → V → Option Int} {ascending : Bool} {r : V → V → Prop}

/-- The pivot is in its place, and the parts on both sides of it were sorted. -/
theorem Sorted.join (trans : ∀ a b c, r a b → r b c → r a c) {lo hi t : Nat} {pivot : V}
    {e0 e1 e2 e3 : List V} (hlo : lo ≤ t) (hhi : t < hi) (hperm : e1.Perm e0)
    (hparted : Parted r ⟨lo, hi - 1, pivot⟩ e0 e1 t t) (hpivot : e1[t]? = some pivot)
    (hleft : Sorted r lo t e1 e2) (hright : Sorted r (t + 1) hi e2 e3) :
    Sorted r lo hi e0 e3 := by
  have hlast : hi - 1 + 1 = hi := by omega
  have hwithin : Within lo hi e0 e1 := hlast ▸ hparted.within
  -- the entries of the left part, and those of the right part
  have hbelow : ∀ i v, lo ≤ i → i < t → e3[i]? = some v → r v pivot := by
    intro i v hi hi' hv
    rw [hright.within.frame i (by omega)] at hv
    obtain ⟨j, hj, hj', hv⟩ := hleft.within.source i v hi hi' hv
    exact hparted.below j v hj hj' hv
  have habove : ∀ i v, t < i → i < hi → e3[i]? = some v → r pivot v := by
    intro i v hi hi' hv
    obtain ⟨j, hj, hj', hv⟩ := hright.within.source i v hi hi' hv
    rw [hleft.within.frame j (by omega)] at hv
    exact hparted.above j v hj (by dsimp only; omega) hv
  have hmiddle : e3[t]? = some pivot := by
    rw [hright.within.frame t (by omega), hleft.within.frame t (by omega), hpivot]
  refine ⟨(hright.perm.trans hleft.perm).trans hperm,
    (hwithin.trans (hleft.within.mono (Nat.le_refl _) (by omega))).trans
      (hright.within.mono (by omega) (Nat.le_refl _)), fun i j a b hi hij hj ha hb => ?_⟩
  rcases Nat.lt_trichotomy i t with hit | rfl | hit
  · rcases Nat.lt_trichotomy j t with hjt | rfl | hjt
    · rw [hright.within.frame i (by omega)] at ha
      rw [hright.within.frame j (by omega)] at hb
      exact hleft.sorted i j a b hi hij hjt ha hb
    · rw [hmiddle, Option.some.injEq] at hb
      exact hb ▸ hbelow i a hi hit ha
    · exact trans a pivot b (hbelow i a hi hit ha) (habove j b hjt hj hb)
  · rw [hmiddle, Option.some.injEq] at ha
    exact ha ▸ habove j b hij hj hb
  · exact hright.sorted i j a b hit hij hj ha hb

theorem qsort_ends (hr : Decides rc ascending r) (trans : ∀ a b c, r a b → r b c → r a c)
    {n : Nat} {entry : List V} {left right k : Nat} (hle : left ≤ right)
    (hlen : right < entry.length) (hn : right - left < n) :
    Ends (qsort rc ascending n entry left right k)
      (fun p => Sorted r left (right + 1) entry p.1) (Stopped rc entry) := by
  induction n generalizing entry left right k with
  | zero => omega
  | succ n ih =>
    unfold qsort
    have hleft : left < entry.length := by omega
    obtain ⟨pivot, hpivot⟩ : ∃ v, entry[left]? = some v :=
      ⟨entry[left], List.getElem?_eq_getElem hleft⟩
    rw [hpivot]
    show Ends (do
      let (entry, tLeft, k) ← partition rc ascending ⟨left, right, pivot⟩ (right - left) entry
        left right k
      _) _ _
    -- at first the pivot is in the place that counts as free
    have hheld : Held entry ⟨entry, left, pivot⟩ := by
      refine ⟨hleft, ?_, fun v hv => hv⟩
      have hset : entry.set left pivot = entry := by
        obtain ⟨hlt, rfl⟩ := List.getElem?_eq_some_iff.mp hpivot
        exact List.set_getElem_self hlt
      rw [hset]
    have hparted : Parted r ⟨left, right, pivot⟩ entry entry left right :=
      ⟨.refl _ _ _, fun i v hi hi' => by dsimp only at hi; omega,
        fun i v hi hi' => by dsimp only at hi'; omega⟩
    refine (partition_ends hr (Nat.le_refl _) hle (Nat.le_refl _) hlen (Nat.le_refl _) hparted
      hheld).bind fun p hp => ?_
    obtain ⟨e1, t, k1⟩ := p
    obtain ⟨⟨hlo, hhi⟩, hparted1, hheld1⟩ := hp
    dsimp only at hlo hhi hparted1 hheld1 ⊢
    have hlen1 : t < e1.length := hheld1.place
    refine (write_ends ⟨hlo, hhi, hlen1⟩ pivot).bind fun e2 he2 => ?_
    subst he2
    have hperm : (e1.set t pivot).Perm entry := hheld1.perm
    have hparted2 : Parted r ⟨left, right, pivot⟩ entry (e1.set t pivot) t t := by
      refine ⟨hparted1.within.set hlo (by dsimp only; omega) ⟨left, Nat.le_refl _, ?_, hpivot⟩,
        fun i v hi hi' hv => ?_, fun i v hi hi' hv => ?_⟩
      · dsimp only
        omega
      · rw [List.getElem?_set_ne (by omega)] at hv
        exact hparted1.below i v hi hi' hv
      · rw [List.getElem?_set_ne (by omega)] at hv
        exact hparted1.above i v hi hi' hv
    have hfirst : Ends
        (if left < t then qsort rc ascending n (e1.set t pivot) left (t - 1) k1
          else pure (e1.set t pivot, k1))
        (fun p => Sorted r left t (e1.set t pivot) p.1) (Stopped rc entry) := by
      split <;> rename_i hlt
      · have hlast : t - 1 + 1 = t := by omega
        refine (ih (by omega) (by rw [List.length_set]; omega) (by omega)).mono
          (fun p hp => hlast ▸ hp) ?_
        rintro s ⟨h, hfailed, hh⟩
        exact ⟨h, hfailed, hh.of_perm hperm⟩
      · exact .ok (.empty r (by omega) _)
    refine hfirst.bind fun p hp => ?_
    obtain ⟨e3, k2⟩ := p
    dsimp only at hp ⊢
    have hlen3 : e3.length = entry.length := (hp.perm.trans hperm).length_eq
    have hjoin : ∀ e4, Sorted r (t + 1) (right + 1) e3 e4 → Sorted r left (right + 1) entry e4 :=
      fun e4 h4 => Sorted.join trans hlo (by omega) hperm hparted2
        (List.getElem?_set_self hlen1) hp h4
    split <;> rename_i hlt
    · refine (ih (by omega) (by omega) (by omega)).mono (fun p hp => hjoin _ hp) ?_
      rintro s ⟨h, hfailed, hh⟩
      exact ⟨h, hfailed, hh.of_perm (hp.perm.trans hperm)⟩
    · exact .ok (hjoin e3 (.empty r (by omega) _))

end

end Qore.ListNode.Order
