import Qore.Lib.Lts
import Qore.ListNode.Sort

/-!
# `Qore.ListNode.ScanCount`: the scan count over runs

A value is nothing, a list, or anything else (an object, a hash, a closure, a plain value), of
which only `needs_scan` matters. The state of the system is a collection of values. An action adds
a value to it, makes an empty list, or calls a method on one of the lists, with one of the values
as the argument. What the method returns is added to the values. Lists are values: an operation
that modifies a list asks for the only reference to it.

* `scanCounts_always`: in a run whose steps meet `Method.Ok`, no count underflows, every count is
  the number of entries that need a scan, and a value needs a scan exactly when it reaches
  something that the cycle collector has to see.
* `scanCounts_fails`: a reversed list has the count 0, and a sorted list can have twice its count.
-/

set_option autoImplicit false

namespace Qore.ListNode

open Qore.Lib
open ListPriv
open Qore.ListNode.Order (Stop quicksortLimit)

/-- A value: nothing, a list, or a value of another type. -/
inductive Value (N T : Type)
  | nothing
  | node (n : N)
  | list (entry : List (Value N T)) (objCount : Nat) (complexTypeInfo : Option T)

namespace Value

variable {N T : Type}

/-- The list of a value of type `NT_LIST`. -/
def asList : Value N T → Option (ListPriv (Value N T) T)
  | .list entry objCount complexTypeInfo => some { entry, objCount, complexTypeInfo }
  | _ => none

def ofList (l : ListPriv (Value N T) T) : Value N T := .list l.entry l.objCount l.complexTypeInfo

end Value

/-- The types: what the list code asks of them. -/
structure Types (N T : Type) where
  /-- `needs_scan` for a value that is not a list -/
  scans : N → Bool
  /-- `acceptAssignment` for the element type; `none` is an exception -/
  accept : T → Value N T → Option (Value N T)
  /-- `copy_strip_complex_types` for a value that is not a list -/
  stripNode : N → N
  /-- `has_complex_type` for a list of this type -/
  complex : T → Bool
  newElementType : Option T → Option T → Option T
  autoType : Option T

namespace Types

variable {N T : Type} (types : Types N T)

/-- `needs_scan`. -/
def needsScan : Value N T → Bool
  | .nothing => false
  | .node n => types.scans n
  | .list _ objCount _ => decide (objCount ≠ 0)

mutual
/-- `copy_strip_complex_types`: a list with a complex type is pushed entry by entry to a plain
list. `push` strips an entry a second time, which finds nothing left to strip. -/
def strip : Value N T → Value N T
  | .nothing => .nothing
  | .node n => .node (types.stripNode n)
  | .list entry objCount ty =>
    if ty.any types.complex then
      .list (stripAll entry)
        ((stripAll entry).foldl (fun c v => if needsScan types v then incCount c else c) 0) none
    else .list entry objCount ty

/-- The entries of a stripped list. -/
def stripAll : List (Value N T) → List (Value N T)
  | [] => []
  | v :: vs => strip v :: stripAll vs
end

/-- The environment of the list code. -/
def env : Env (Value N T) T where
  nothing := .nothing
  needsScan := types.needsScan
  needsScan_nothing := rfl
  asList := Value.asList
  ofList := Value.ofList
  accept := types.accept
  strip := types.strip
  newElementType := types.newElementType
  autoType := types.autoType

end Types

/-! ### The system -/

/-- The operations on a list. -/
inductive Method
  | push
  | insert (freed : Option Bool)
  | setEntry (index : Nat)
  | pop
  | shift
  | splice (offset : Int) (extract : Bool)
  | spliceLen (offset len : Int) (extract : Bool)
  | spliceValue (offset len : Int) (extract : Bool)
  | merge
  | copy (strip : Bool)
  | concatenate
  | reverse
  | swap (offset : Nat)
  | takeExists (offset : Nat)
  | getAndClear (offset : Nat)
  | sort (answers : Nat → Option Int) (ascending : Bool)
  | sortStable (answers : Nat → Option Int) (ascending : Bool)

namespace Method

variable {V T : Type} (env : Env V T)

/-- The list that a sort returns, if it does not raise an exception. -/
def sorted (l : ListPriv V T) : Except (Stop Unit) (ListPriv V T) → Option (ListPriv V T × List V)
  | .ok l' => some (l, [env.ofList l'])
  | .error (.raised ()) => some (l, [])
  | .error .fault => none

/-- The list after a call with the argument `v`, and the values that the call returns. -/
def apply (l : ListPriv V T) (v : V) : Method → Option (ListPriv V T × List V)
  | .push => some ((l.push env v).1, [])
  | .insert freed => some ((l.insert env v freed).1, [])
  | .setEntry index => (l.setEntry env index v).map fun l' => (l', [])
  | .pop => (l.pop env).map fun res => (res.1, [res.2])
  | .shift => (l.shift env).map fun res => (res.1, [res.2])
  | .splice offset extract =>
    (l.splice env offset extract).map fun res => (res.1, (res.2.map env.ofList).toList)
  | .spliceLen offset len extract =>
    (l.spliceLen env offset len extract).map fun res => (res.1, (res.2.map env.ofList).toList)
  | .spliceValue offset len extract =>
    (l.spliceValue env offset len v extract).map fun res =>
      match res with
      | none => (l, [])
      | some (l', rv) => (l', (rv.map env.ofList).toList)
  | .merge =>
    match env.asList v with
    | some m => some ((ListPriv.merge env l m.entry).1, [])
    | none => some (l, [])
  | .copy strip => some (l, [env.ofList (l.copy env strip)])
  | .concatenate =>
    match env.asList v with
    | some m => some (l, [env.ofList (l.concatenate env m)])
    | none => some (l, [])
  | .reverse => some (l, [env.ofList (l.reverse env)])
  | .swap offset => (l.swap env offset v).map fun res => (res.1, [res.2])
  | .takeExists offset => (l.takeExists env offset).map fun res => (res.1, [res.2])
  | .getAndClear offset => (l.getAndClear env offset).map fun res => (res.1, [res.2])
  | .sort answers ascending => sorted env l (ListNode.sort env (fun k _ _ => answers k) ascending l)
  | .sortStable answers ascending =>
    sorted env l (ListNode.sortStable env (fun k _ _ => answers k) ascending l)

/-- The condition under which a call keeps the counts right. `reverse` does not count,
`mergesort` counts twice, and `insert` and the splice of a single value count the value as it was
before the conversion, which for `insert` must not release it. The list has fewer than 2^32 entries,
also after `setEntry` and `swap`. -/
def Ok (l : ListPriv V T) (v : V) : Method → Prop
  | .insert freed => (l.checkVal env v = none ∨ freed = none) ∧ KeepsScan env l v
  | .setEntry index => Small l ∧ index + 1 < 4294967296
  | .swap offset => Small l ∧ offset + 1 < 4294967296
  | .spliceValue _ _ _ => Small l ∧ (env.asList v = none → KeepsScan env l v)
  | .reverse => ∀ w ∈ l.entry, env.needsScan w = false
  | .sort _ _ => l.entry.length ≤ quicksortLimit ∨ ∀ w ∈ l.entry, env.needsScan w = false
  | .sortStable _ _ => l.entry.length ≤ 1 ∨ ∀ w ∈ l.entry, env.needsScan w = false
  | _ => Small l

end Method

/-- The values, and whether a count went below zero. -/
structure State (N T : Type) where
  vals : List (Value N T)
  underflow : Bool

/-- The actions. -/
inductive Act (N T : Type)
  | node (n : N)
  | newList (complexTypeInfo : Option T)
  | call (l arg : Nat) (m : Method)

section
variable {N T : Type} (types : Types N T)

/-- One action. -/
def step (s : State N T) : Act N T → Option (State N T × Unit)
  | .node n => some ({ s with vals := s.vals ++ [.node n] }, ())
  | .newList ty => some ({ s with vals := s.vals ++ [.list [] 0 ty] }, ())
  | .call l arg m =>
    match (s.vals.getD l .nothing).asList with
    | none => none
    | some lst =>
      match m.apply types.env lst (s.vals.getD arg .nothing) with
      | none => some ({ s with underflow := true }, ())
      | some (lst', new) => some ({ s with vals := s.vals.set l (.ofList lst') ++ new }, ())

/-- The state before the first action. -/
def State.init : State N T := { vals := [], underflow := false }

/-- The condition on an action in a state. -/
def Act.Ok (s : State N T) : Act N T → Prop
  | .call l arg m => ∀ lst, (s.vals.getD l .nothing).asList = some lst →
      m.Ok types.env lst (s.vals.getD arg .nothing)
  | _ => True

end

/-! ### One call -/

section
variable {V T : Type} {env : Env V T} {P : V → Prop} {l : ListPriv V T}

/-- `reverse` is right for a list in which nothing needs a scan. -/
theorem reverse_good (h : Good env P l) (hplain : ∀ v ∈ l.entry, env.needsScan v = false) :
    Good env P (l.reverse env) := by
  refine ⟨?_, fun v hv => h.all v (List.mem_reverse.mp hv)⟩
  have hzero : l.entry.reverse.countP env.needsScan = 0 := by
    rw [List.countP_eq_zero]
    intro v hv
    rw [hplain v (List.mem_reverse.mp hv)]
    exact Bool.false_ne_true
  show 0 = l.entry.reverse.countP env.needsScan % 4294967296
  rw [hzero]

theorem extend_length_lt (hs : Small l) {num : Nat} (hnum : num + 1 < 4294967296) :
    (l.extend env num).entry.length < 4294967296 := by
  unfold ListPriv.extend ListPriv.resize
  split
  · rw [if_neg (by omega)]
    simp
    omega
  · exact hs

theorem checkOffset_le (l : ListPriv V T) (offset : Int) :
    l.checkOffset offset ≤ l.entry.length := by
  unfold ListPriv.checkOffset
  split
  · omega
  · split <;> omega

theorem forall_mem_ofList (hP : Closed env P) {rv : Option (ListPriv V T)}
    (h : ∀ r, rv = some r → Good env P r) : ∀ w ∈ (rv.map env.ofList).toList, P w := by
  intro w hw
  rw [Option.mem_toList, Option.map_eq_some_iff] at hw
  obtain ⟨r, hr, rfl⟩ := hw
  exact hP.ofList (h r hr)

/-- Nothing is removed at the end of the list. -/
theorem spliceAtEnd_good (h : Good env P l) (extract : Bool) :
    ∃ l' rv, some (l, if extract then some l.getCopy else none) = some (l', rv) ∧ Good env P l' ∧
      ∀ r, rv = some r → Good env P r := by
  refine ⟨l, _, rfl, h, fun r hr => ?_⟩
  cases extract
  · cases hr
  · rw [← Option.some.inj hr]
    exact Good.getCopy

theorem splice_good (h : Good env P l) (hs : Small l) (offset : Int) (extract : Bool) :
    ∃ l' rv, l.splice env offset extract = some (l', rv) ∧ Good env P l' ∧
      ∀ r, rv = some r → Good env P r := by
  unfold ListPriv.splice
  dsimp only
  split
  · exact spliceAtEnd_good h extract
  · exact spliceIntern_good h hs (checkOffset_le l offset) _ extract

theorem spliceLen_good (h : Good env P l) (hs : Small l) (offset len : Int) (extract : Bool) :
    ∃ l' rv, l.spliceLen env offset len extract = some (l', rv) ∧
      Good env P l' ∧ ∀ r, rv = some r → Good env P r := by
  unfold ListPriv.spliceLen
  dsimp only
  split
  · exact spliceAtEnd_good h extract
  · exact spliceIntern_good h hs (checkOffset_le l offset) _ extract

theorem sorted_good (hP : Closed env P) (h : Good env P l)
    {x : Except (Stop Unit) (ListPriv V T)} (hx : Ends x (Good env P) (· ≠ .fault)) :
    ∃ l' new, Method.sorted env l x = some (l', new) ∧ Good env P l' ∧ ∀ w ∈ new, P w := by
  match x, hx with
  | .ok l', hl' => exact ⟨l, _, rfl, h, by simpa using hP.ofList hl'⟩
  | .error (.raised ()), _ => exact ⟨l, [], rfl, h, by simp⟩
  | .error .fault, hx => exact (hx rfl).elim

/-- A call that meets its condition does not underflow and leaves good lists. -/
theorem apply_good (hP : Closed env P) (h : Good env P l) {v : V} (hv : P v) {m : Method}
    (hok : m.Ok env l v) : ∃ l' new, m.apply env l v = some (l', new) ∧
      Good env P l' ∧ ∀ w ∈ new, P w := by
  cases m with
  | push => exact ⟨_, _, rfl, h.push hP hv, by simp⟩
  | insert freed => exact ⟨_, _, rfl, h.insert hP hv hok.1 hok.2, by simp⟩
  | setEntry index =>
    obtain ⟨l', hres, hl'⟩ := setEntry_good hP h (extend_length_lt hok.1 hok.2) hv
    exact ⟨l', [], by rw [Method.apply, hres]; rfl, hl', by simp⟩
  | pop =>
    obtain ⟨l', w, hres, hl', hw⟩ := pop_good hP h hok
    exact ⟨l', [w], by rw [Method.apply, hres]; rfl, hl', by simpa using hw⟩
  | shift =>
    obtain ⟨l', w, hres, hl', hw⟩ := shift_good hP h hok
    exact ⟨l', [w], by rw [Method.apply, hres]; rfl, hl', by simpa using hw⟩
  | splice offset extract =>
    obtain ⟨l', rv, hres, hl', hrv⟩ := splice_good h hok offset extract
    exact ⟨l', _, by rw [Method.apply, hres]; rfl, hl', forall_mem_ofList hP hrv⟩
  | spliceLen offset len extract =>
    obtain ⟨l', rv, hres, hl', hrv⟩ := spliceLen_good h hok offset len extract
    exact ⟨l', _, by rw [Method.apply, hres]; rfl, hl', forall_mem_ofList hP hrv⟩
  | spliceValue offset len extract =>
    obtain ⟨res, hres, hgood⟩ := spliceInternValue_good hP h hok.1 (checkOffset_le l offset)
      (l.checkLen (l.checkOffset offset) len) hv hok.2 extract
    have hmethod : Method.apply env l v (.spliceValue offset len extract) =
        (l.spliceInternValue env (l.checkOffset offset)
          (l.checkLen (l.checkOffset offset) len) v extract).map _ := rfl
    rw [hmethod, hres, Option.map_some]
    cases res with
    | none => exact ⟨l, [], rfl, h, by simp⟩
    | some lr =>
      obtain ⟨hl', hrv⟩ := hgood lr.1 lr.2 rfl
      exact ⟨lr.1, _, rfl, hl', forall_mem_ofList hP hrv⟩
  | merge =>
    unfold Method.apply
    cases hlist : env.asList v with
    | none => exact ⟨l, [], rfl, h, by simp⟩
    | some m => exact ⟨_, [], rfl, h.merge hP (hP.asList hv hlist).all, by simp⟩
  | copy strip => exact ⟨l, _, rfl, h, by simpa using hP.ofList (h.copy hP strip)⟩
  | concatenate =>
    unfold Method.apply
    cases hlist : env.asList v with
    | none => exact ⟨l, [], rfl, h, by simp⟩
    | some m =>
      exact ⟨l, _, rfl, h, by simpa using hP.ofList (h.concatenate hP (hP.asList hv hlist))⟩
  | reverse => exact ⟨l, _, rfl, h, by simpa using hP.ofList (reverse_good h hok)⟩
  | swap offset =>
    obtain ⟨l', w, hres, hl', hw⟩ := swap_good hP h (extend_length_lt hok.1 hok.2) hv
    exact ⟨l', [w], by rw [Method.apply, hres]; rfl, hl', by simpa using hw⟩
  | takeExists offset =>
    obtain ⟨l', w, hres, hl', hw⟩ := getAndClear_good hP h hok offset
    exact ⟨l', [w], by rw [Method.apply, ListPriv.takeExists, hres]; rfl, hl', by simpa using hw⟩
  | getAndClear offset =>
    obtain ⟨l', w, hres, hl', hw⟩ := getAndClear_good hP h hok offset
    exact ⟨l', [w], by rw [Method.apply, hres]; rfl, hl', by simpa using hw⟩
  | sort answers ascending => exact sorted_good hP h (sort_good hP h hok)
  | sortStable answers ascending => exact sorted_good hP h (sortStable_good hP h hok)

end

/-! ### Values and runs -/

section
variable {N T : Type} {types : Types N T} {s : State N T}

/-- The count of every list in the value is right, as an `unsigned`. -/
inductive Counted (types : Types N T) : Value N T → Prop
  | nothing : Counted types .nothing
  | node (n : N) : Counted types (.node n)
  | list {entry : List (Value N T)} {objCount : Nat} {ty : Option T}
      (count : objCount = entry.countP types.needsScan % 4294967296)
      (all : ∀ v ∈ entry, Counted types v) : Counted types (.list entry objCount ty)

/-- The count of every list in the value is the number of its entries that need a scan. -/
inductive Exact (types : Types N T) : Value N T → Prop
  | nothing : Exact types .nothing
  | node (n : N) : Exact types (.node n)
  | list {entry : List (Value N T)} {objCount : Nat} {ty : Option T}
      (count : objCount = entry.countP types.needsScan)
      (all : ∀ v ∈ entry, Exact types v) : Exact types (.list entry objCount ty)

/-- Every list in the value has fewer than 2^32 entries. -/
inductive AllSmall : Value N T → Prop
  | nothing : AllSmall .nothing
  | node (n : N) : AllSmall (.node n)
  | list {entry : List (Value N T)} {objCount : Nat} {ty : Option T}
      (small : entry.length < 4294967296)
      (all : ∀ v ∈ entry, AllSmall v) : AllSmall (.list entry objCount ty)

/-- The value reaches one that the cycle collector has to see. -/
inductive Reaches (types : Types N T) : Value N T → Prop
  | node {n : N} (h : types.scans n = true) : Reaches types (.node n)
  | list {entry : List (Value N T)} {objCount : Nat} {ty : Option T} {v : Value N T}
      (mem : v ∈ entry) (h : Reaches types v) : Reaches types (.list entry objCount ty)

theorem Counted.exact {v : Value N T} (h : Counted types v) (hs : AllSmall v) : Exact types v := by
  induction h with
  | nothing => exact .nothing
  | node n => exact .node n
  | list count all ih =>
    cases hs with
    | list small hall =>
      refine .list ?_ fun v hv => ih v hv (hall v hv)
      rw [count, Nat.mod_eq_of_lt (Nat.lt_of_le_of_lt List.countP_le_length small)]

/-- A container is skipped by the collector exactly when nothing in it has to be seen. -/
theorem Exact.needsScan_iff {v : Value N T} (h : Exact types v) :
    types.needsScan v = true ↔ Reaches types v := by
  induction h with
  | nothing => exact iff_of_false Bool.false_ne_true (fun h => by cases h)
  | node n =>
    refine ⟨.node, fun h => ?_⟩
    cases h with
    | node h => exact h
  | @list entry objCount ty count all ih =>
    have hpos : types.needsScan (.list entry objCount ty) = true ↔
        0 < entry.countP types.needsScan := by
      show decide (objCount ≠ 0) = true ↔ _
      rw [decide_eq_true_iff, count]
      omega
    rw [hpos, List.countP_pos_iff]
    constructor
    · rintro ⟨v, hv, hscan⟩
      exact .list hv ((ih v hv).mp hscan)
    · intro h
      cases h with
      | list mem h => exact ⟨_, mem, (ih _ mem).mpr h⟩

mutual
theorem counted_strip : ∀ {v : Value N T}, Counted types v → Counted types (types.strip v)
  | .nothing, _ => by
    unfold Types.strip
    exact .nothing
  | .node n, _ => by
    unfold Types.strip
    exact .node _
  | .list entry objCount ty, h => by
    unfold Types.strip
    split
    · cases h with
      | list count all =>
        refine .list ?_ (counted_stripAll all)
        have hfold := foldl_addScan types.env (types.stripAll entry) 0
        rw [Nat.zero_add] at hfold
        exact hfold
    · exact h

theorem counted_stripAll : ∀ {vs : List (Value N T)}, (∀ v ∈ vs, Counted types v) →
    ∀ w ∈ types.stripAll vs, Counted types w
  | [], _, w, hw => by
    unfold Types.stripAll at hw
    cases hw
  | v :: vs, h, w, hw => by
    unfold Types.stripAll at hw
    rcases List.mem_cons.mp hw with rfl | hw
    · exact counted_strip (h v (by simp))
    · exact counted_stripAll (fun u hu => h u (by simp [hu])) w hw
end

/-- Conversions build their lists with the operations of this model: from values with right
counts they make values with right counts. -/
def Types.AcceptCounted (types : Types N T) : Prop :=
  ∀ ty v w, Counted types v → types.accept ty v = some w → Counted types w

theorem closed_counted (h : types.AcceptCounted) : Closed types.env (Counted types) where
  nothing := .nothing
  accept := fun {ty v w} hv hw => h ty v w hv hw
  strip := counted_strip
  asList := by
    intro v l hv hl
    cases hv with
    | nothing => cases hl
    | node n => cases hl
    | list count all =>
      cases hl
      exact ⟨count, all⟩
  ofList := fun h => .list h.count h.all

/-- No count went below zero, and every count in the state is right. -/
def State.Counted (types : Types N T) (s : State N T) : Prop :=
  s.underflow = false ∧ ∀ v ∈ s.vals, ListNode.Counted types v

theorem State.Counted.getD (h : s.Counted types) (i : Nat) :
    ListNode.Counted types (s.vals.getD i .nothing) := by
  by_cases hi : i < s.vals.length
  · exact h.2 _ (getD_mem hi _)
  · rw [List.getD_eq_getElem?_getD, List.getElem?_eq_none (by omega)]
    exact .nothing

/-- A step that meets its condition keeps the counts right. -/
theorem step_counted (hacc : types.AcceptCounted) {s' : State N T} {a : Act N T} {b : Unit}
    (h : s.Counted types) (hok : a.Ok types s) (hstep : step types s a = some (s', b)) :
    s'.Counted types := by
  have hP := closed_counted hacc
  have hadd : ∀ {vs : List (Value N T)} {new : List (Value N T)},
      (∀ v ∈ vs, ListNode.Counted types v) → (∀ v ∈ new, ListNode.Counted types v) →
      ∀ v ∈ vs ++ new, ListNode.Counted types v := by
    intro vs new hvs hnew v hv
    exact (List.mem_append.mp hv).elim (hvs v) (hnew v)
  cases a with
  | node n =>
    cases hstep
    exact ⟨h.1, hadd h.2 (by simpa using Counted.node n)⟩
  | newList ty =>
    cases hstep
    have hempty : ListNode.Counted types (.list [] 0 ty) := .list rfl (by simp)
    exact ⟨h.1, hadd h.2 (by simpa using hempty)⟩
  | call l arg m =>
    unfold step at hstep
    dsimp only at hstep
    cases hlist : (s.vals.getD l .nothing).asList with
    | none =>
      rw [hlist] at hstep
      cases hstep
    | some lst =>
      have hgood := hP.asList (h.getD l) hlist
      obtain ⟨lst', new, happly, hlst', hnew⟩ := apply_good hP hgood (h.getD arg) (hok lst hlist)
      rw [hlist] at hstep
      dsimp only at hstep
      rw [happly] at hstep
      cases hstep
      refine ⟨h.1, hadd (fun v hv => ?_) hnew⟩
      rcases List.mem_or_eq_of_mem_set hv with hv | rfl
      · exact h.2 v hv
      · exact hP.ofList hlst'

/-- What the collector relies on: no count went below zero, and in the values with lists of fewer
than 2^32 entries every count is the number of entries that need a scan, so that a value needs a
scan exactly when it reaches something that has to be seen. -/
def ScanCounts (types : Types N T) (s : State N T) : Prop :=
  s.underflow = false ∧ ∀ v ∈ s.vals, AllSmall v →
    Exact types v ∧ (types.needsScan v = true ↔ Reaches types v)

theorem State.Counted.scanCounts (h : s.Counted types) : ScanCounts types s :=
  ⟨h.1, fun v hv hs => ⟨(h.2 v hv).exact hs, ((h.2 v hv).exact hs).needsScan_iff⟩⟩

/-- In every run whose calls meet their condition the scan counts are right in every state. -/
theorem scanCounts_always (hacc : types.AcceptCounted) (as : List (Act N T))
    (h : Lts.Along (step types) (fun s a => a.Ok types s) State.init as) :
    Lts.Always (step types) (ScanCounts types) State.init as := by
  have hinit : State.Counted types State.init := ⟨rfl, by simp [State.init]⟩
  have halways := Lts.always_of_along (fun s a s' b hQ hP hstep => step_counted hacc hQ hP hstep)
    as State.init hinit h
  exact Lts.Always.mono (fun s hs => hs.scanCounts) as State.init halways

end

/-! ### Runs with an object -/

/-- Values that are objects (`true`) or plain data (`false`), and no conversions. -/
def plainTypes : Types Bool Unit where
  scans := id
  accept := fun _ v => some v
  stripNode := id
  complex := fun _ => false
  newElementType := fun ty _ => ty
  autoType := some ()

theorem plainTypes_acceptCounted : plainTypes.AcceptCounted := by
  intro ty v w hv hw
  cases hw
  exact hv

/-- An object is pushed to a list, moved around and taken out. -/
def keptRun : List (Act Bool Unit) :=
  [.node true, .newList none, .call 1 0 .push, .call 1 0 .push, .call 1 0 (.splice 1 true),
    .call 1 0 .shift]

/-- A check for the condition of the calls of this run. -/
def keptCheck (s : State Bool Unit) : Act Bool Unit → Bool
  | .call l _ .push => ((s.vals.getD l .nothing).asList.map fun lst => lst.entry.length).getD 0 < 9
  | .call l _ .shift => ((s.vals.getD l .nothing).asList.map fun lst => lst.entry.length).getD 0 < 9
  | .call l _ (.splice _ _) =>
    ((s.vals.getD l .nothing).asList.map fun lst => lst.entry.length).getD 0 < 9
  | .call _ _ _ => false
  | _ => true

theorem keptRun_counts : Lts.Always (step plainTypes) (ScanCounts plainTypes) State.init keptRun := by
  apply scanCounts_always plainTypes_acceptCounted
  refine Lts.along_of_check (p := keptCheck) ?_ _ _ (by decide)
  intro s a h
  cases a with
  | node n => trivial
  | newList ty => trivial
  | call l arg m =>
    intro lst hlst
    cases m <;> simp only [keptCheck, hlst, Bool.false_eq_true] at h
    all_goals
      show lst.entry.length < 4294967296
      simp at h
      omega

/-- A list with an object, reversed. -/
def reversedRun : List (Act Bool Unit) :=
  [.node true, .newList none, .call 1 0 .push, .call 1 0 .reverse]

/-- Two objects, sorted by `sortStable`. -/
def sortedRun : List (Act Bool Unit) :=
  [.node true, .newList none, .call 1 0 .push, .call 1 0 .push,
    .call 1 0 (.sortStable (fun _ => some 0) true)]

/-- A state with a list of objects whose count is not their number. -/
theorem not_scanCounts {s : State Bool Unit} {entry : List (Value Bool Unit)} {objCount : Nat}
    (hmem : .list entry objCount none ∈ s.vals) (hall : ∀ v ∈ entry, v = .node true)
    (hlen : entry.length < 4294967296) (hne : objCount ≠ entry.length) :
    ¬ScanCounts plainTypes s := by
  intro h
  have hsmall : AllSmall (.list entry objCount (none : Option Unit)) := by
    refine .list hlen fun v hv => ?_
    rw [hall v hv]
    exact .node true
  cases (h.2 _ hmem hsmall).1 with
  | list count all =>
    have hcount : entry.countP plainTypes.needsScan = entry.length := by
      rw [List.countP_eq_length]
      intro v hv
      rw [hall v hv]
      rfl
    exact hne (count.trans hcount)

/-- The values after `reversedRun`. The last one is the reversed list. -/
def reversedState : State Bool Unit :=
  { vals := [.node true, .list [.node true] 1 none, .list [.node true] 0 none]
    underflow := false }

/-- The values after `sortedRun`. The last one is the sorted list. -/
def sortedState : State Bool Unit :=
  { vals := [.node true, .list [.node true, .node true] 2 none,
      .list [.node true, .node true] 4 none]
    underflow := false }

/-- `reverse` loses the count: the reversed list holds an object and does not need a scan.
`sortStable` counts the entries of the sorted list twice. -/
theorem scanCounts_fails :
    (Lts.run (step plainTypes) State.init reversedRun).map Prod.fst = some reversedState ∧
    ¬ScanCounts plainTypes reversedState ∧
    (Lts.run (step plainTypes) State.init sortedRun).map Prod.fst = some sortedState ∧
    ¬ScanCounts plainTypes sortedState := by
  refine ⟨rfl, ?_, rfl, ?_⟩
  · exact not_scanCounts (s := reversedState) (.tail _ (.tail _ (.head _))) (by simp) (by simp)
      (by simp)
  · exact not_scanCounts (s := sortedState) (.tail _ (.tail _ (.head _))) (by simp) (by simp)
      (by simp)

end Qore.ListNode
