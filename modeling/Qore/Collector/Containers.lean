import Mathlib
import Qore.Collector.Correct

/-!
# `Qore.Collector.Containers`: the scan through lists and hashes

The members of an object hold values, and a value can be a list or a hash that holds further
values. These containers are counted and can be shared. `checkNode` is
`RSetHelper::checkIntern(AbstractQoreNode*)`, which walks through them and does not look at
their reference counts.

* `runHeap_eq`: the scan of a value heap is the scan of the multigraph that has one edge for
  each way through containers from one object to another (`ValueHeap.refs`).
* `scan_containers_safe`: the counts stay below the reference counts, and `canDelete` answers
  1 only for objects that no variable reaches, when each container between two objects of one
  component has one holder. `scan_sharedList` is a list with two holders: the object in it is
  given up although a variable reaches it.
-/

set_option autoImplicit false

namespace Qore.Collector

open RSetHelper
open Qore.Lib
open Qore.Lib.Digraph
open Qore.Lib.Dfs (Refers componentRefs)

/-- A value in a member or in a container: an object, a container, or anything else. -/
inductive Value (Obj Con : Type)
  | object (o : Obj)
  | container (c : Con)
  | other
  deriving DecidableEq

/-- The object of a value. -/
def Value.asObject {Obj Con : Type} : Value Obj Con → Option Obj
  | .object o => some o
  | _ => none

/-- The container of a value. -/
def Value.asContainer {Obj Con : Type} : Value Obj Con → Option Con
  | .container c => some c
  | _ => none

/-- The node type of a container. -/
inductive ContainerType
  | list
  | hash
  deriving DecidableEq

/-- The members of the objects and the contents of the containers. Copy-on-write keeps a
container out of itself, so every container has a rank below `depth` and holds only
containers of smaller rank. -/
structure ValueHeap (Obj Con : Type) where
  members : Obj → List (Value Obj Con)
  type : Con → ContainerType
  contents : Con → List (Value Obj Con)
  rank : Con → Nat
  depth : Nat
  rank_lt : ∀ c d, Value.container d ∈ contents c → rank d < rank c
  rank_lt_depth : ∀ c, rank c < depth

namespace ValueHeap

variable {Obj Con : Type} (vh : ValueHeap Obj Con) {c : Con} (n : Nat)
  (check : RSetHelper Obj → Obj → Option (Bool × RSetHelper Obj))

/-- `needs_scan`: an object always does, and a container does when its scan count, the number
of entries that need a scan, is not zero. The number bounds the depth. -/
def needsScan : Nat → Value Obj Con → Bool
  | _, .object _ => true
  | _, .other => false
  | 0, .container _ => false
  | n + 1, .container c => (vh.contents c).countP (needsScan n) ≠ 0

/-- `qore_object_private::needsScan(true)`: the scan count of the object. -/
def objectNeedsScan (o : Obj) : Bool := (vh.members o).countP (vh.needsScan vh.depth) ≠ 0

/-- `RSetHelper::checkIntern(AbstractQoreNode*)`, with `checkIntern(RObject&)` as an argument.
The entries of a list and of a hash are checked in the same way. -/
def checkNode (check : RSetHelper Obj → Obj → Option (Bool × RSetHelper Obj)) :
    Nat → RSetHelper Obj → Value Obj Con → Option (Bool × RSetHelper Obj)
  | n, st, v =>
    if !vh.needsScan n v then some (false, st)
    else
      match n, v with
      | _, .object o => check st o
      | _, .other => some (false, st)
      | 0, .container _ => none
      | n + 1, .container c =>
        match vh.type c with
        | .list => scanMembers (checkNode check n) (vh.contents c) st
        | .hash => scanMembers (checkNode check n) (vh.contents c) st

/-- `checkIntern(RObject&)` over the values of the objects. -/
def checkInternHeap [DecidableEq Obj] (env : Env Obj) (h : Heap Obj) :
    Nat → RSetHelper Obj → Obj → Option (Bool × RSetHelper Obj)
  | 0, _, _ => none
  | fuel + 1, st, obj =>
    checkObject env h vh.objectNeedsScan
      (fun o st => scanMembers (vh.checkNode (checkInternHeap env h fuel) vh.depth)
        (vh.members o) st) st obj

/-! ### The multigraph of a value heap -/

/-- The values that the walk through a value meets, in its order. -/
def walk : Nat → Value Obj Con → List (Value Obj Con)
  | 0, v => [v]
  | _ + 1, .object o => [.object o]
  | _ + 1, .other => [.other]
  | n + 1, .container c => .container c :: (vh.contents c).flatMap (walk n)

/-- The objects that the walk finds. -/
def found (n : Nat) (v : Value Obj Con) : List Obj := (vh.walk n v).filterMap Value.asObject

/-- The containers that the walk visits, with repetitions. -/
def visits (n : Nat) (v : Value Obj Con) : List Con := (vh.walk n v).filterMap Value.asContainer

/-- The references that the scan finds in the members of an object. -/
def refs (o : Obj) : List Obj := (vh.members o).flatMap (vh.found vh.depth)

/-- The containers that the scan visits between an object and its references. -/
def between (o : Obj) : List Con := (vh.members o).flatMap (vh.visits vh.depth)

theorem walk_object (o : Obj) : vh.walk n (.object o) = [.object o] := by
  cases n <;> rfl

theorem walk_other : vh.walk n (.other : Value Obj Con) = [.other] := by
  cases n <;> rfl

theorem found_object (o : Obj) : vh.found n (.object o) = [o] := by
  rw [found, walk_object]
  rfl

theorem found_other : vh.found n (.other : Value Obj Con) = [] := by
  rw [found, walk_other]
  rfl

theorem visits_object (o : Obj) : vh.visits n (.object o) = [] := by
  rw [visits, walk_object]
  rfl

theorem visits_other : vh.visits n (.other : Value Obj Con) = [] := by
  rw [visits, walk_other]
  rfl

theorem found_container (c : Con) :
    vh.found (n + 1) (.container c) = (vh.contents c).flatMap (vh.found n) := by
  rw [found, walk, List.filterMap_cons, List.filterMap_flatMap]
  rfl

theorem visits_container (c : Con) :
    vh.visits (n + 1) (.container c) = c :: (vh.contents c).flatMap (vh.visits n) := by
  rw [visits, walk, List.filterMap_cons, List.filterMap_flatMap]
  rfl

/-- A value needs a scan when the walk finds an object. -/
theorem needsScan_iff : ∀ v, vh.needsScan n v = true ↔ vh.found n v ≠ [] := by
  induction n with
  | zero =>
    intro v
    cases v with
    | object o => simp [needsScan, found_object]
    | other => simp [needsScan, found_other]
    | container c => simp [needsScan, found, walk, Value.asObject]
  | succ n ih =>
    intro v
    cases v with
    | object o => simp [needsScan, found_object]
    | other => simp [needsScan, found_other]
    | container c =>
      simp only [needsScan, found_container, ne_eq, decide_not, Bool.not_eq_true', decide_eq_false_iff_not,
        List.countP_eq_zero, List.flatMap_eq_nil_iff, ih, not_not]

theorem objectNeedsScan_eq (env : Env Obj) (henv : env.refs = vh.refs) :
    vh.objectNeedsScan = env.needsScan := by
  funext o
  rw [Bool.eq_iff_iff]
  simp only [objectNeedsScan, Env.needsScan, henv, refs, ne_eq, decide_not, Bool.not_eq_true',
    decide_eq_false_iff_not, List.countP_eq_zero, List.isEmpty_eq_false_iff, List.flatMap_eq_nil_iff,
    vh.needsScan_iff, not_not]

/-- The rank of a value is below `n`. -/
def RankLt (n : Nat) : Value Obj Con → Prop
  | .container c => vh.rank c < n
  | _ => True

theorem rankLt_contents {n : Nat} (hc : vh.rank c < n + 1) {v : Value Obj Con}
    (hv : v ∈ vh.contents c) : vh.RankLt n v := by
  cases v with
  | object o => trivial
  | other => trivial
  | container d =>
    have hlt := vh.rank_lt c d hv
    show vh.rank d < n
    omega

theorem rankLt_depth (v : Value Obj Con) : vh.RankLt vh.depth v := by
  cases v with
  | object o => trivial
  | other => trivial
  | container c => exact vh.rank_lt_depth c

/-- The depth bound does not matter above the rank. -/
theorem walk_stable : ∀ (m : Nat) (v : Value Obj Con), vh.RankLt n v → vh.RankLt m v →
    vh.walk n v = vh.walk m v := by
  induction n with
  | zero =>
    intro m v hn _
    cases v with
    | object o => rw [walk_object, walk_object]
    | other => rw [walk_other, walk_other]
    | container c => exact absurd hn (Nat.not_lt_zero _)
  | succ n ih =>
    intro m v hn hm
    cases v with
    | object o => rw [walk_object, walk_object]
    | other => rw [walk_other, walk_other]
    | container c =>
      cases m with
      | zero => exact absurd hm (Nat.not_lt_zero _)
      | succ m =>
        rw [walk, walk]
        congr 1
        rw [List.flatMap_def, List.flatMap_def]
        congr 1
        exact List.map_congr_left fun v hv =>
          ih m v (vh.rankLt_contents hn hv) (vh.rankLt_contents hm hv)

/-- The objects in a container are in every container that holds it. -/
theorem mem_found_of_holds {d : Con} (hcd : .container c ∈ vh.contents d) {o : Obj}
    (ho : o ∈ vh.found vh.depth (.container c)) : o ∈ vh.found vh.depth (.container d) := by
  obtain ⟨n, hn⟩ : ∃ n, vh.depth = n + 1 :=
    ⟨vh.depth - 1, by have := vh.rank_lt_depth d; omega⟩
  have hrank : vh.rank c < n := by
    have h1 := vh.rank_lt d c hcd
    have h2 := vh.rank_lt_depth d
    omega
  have hstable : vh.found vh.depth (.container c) = vh.found n (.container c) := by
    rw [found, found, vh.walk_stable vh.depth n (.container c) (vh.rankLt_depth _) hrank]
  rw [hn, found_container, List.mem_flatMap]
  exact ⟨.container c, hcd, hstable ▸ ho⟩

/-- An object in a slot of a container is found in it. -/
theorem mem_found_of_slot {o : Obj} (ho : .object o ∈ vh.contents c) :
    o ∈ vh.found vh.depth (.container c) := by
  obtain ⟨n, hn⟩ : ∃ n, vh.depth = n + 1 :=
    ⟨vh.depth - 1, by have := vh.rank_lt_depth c; omega⟩
  rw [hn, found_container, List.mem_flatMap]
  exact ⟨.object o, ho, by rw [found_object]; simp⟩

/-- Two lists of checks one after the other. -/
theorem scanMembers_append {α : Type}
    (check : RSetHelper Obj → α → Option (Bool × RSetHelper Obj)) (xs ys : List α)
    (st : RSetHelper Obj) :
    scanMembers check (xs ++ ys) st = (match scanMembers check xs st with
      | none => none
      | some (true, st) => some (true, st)
      | some (false, st) => scanMembers check ys st) := by
  induction xs generalizing st with
  | nil => rfl
  | cons x xs ih =>
    simp only [List.cons_append, scanMembers]
    cases check st x with
    | none => rfl
    | some r =>
      obtain ⟨b, st'⟩ := r
      cases b with
      | true => rfl
      | false => exact ih st'

/-- Checks of values that are checks of lists of objects. -/
theorem scanMembers_flatMap {α : Type} (node : RSetHelper Obj → α → Option (Bool × RSetHelper Obj))
    (f : α → List Obj) (vs : List α)
    (hnode : ∀ v ∈ vs, ∀ st, node st v = scanMembers check (f v) st) (st : RSetHelper Obj) :
    scanMembers node vs st = scanMembers check (vs.flatMap f) st := by
  induction vs generalizing st with
  | nil => rfl
  | cons v vs ih =>
    have ih' := ih fun w hw => hnode w (List.mem_cons_of_mem _ hw)
    rw [List.flatMap_cons, scanMembers_append, scanMembers, hnode v (by simp)]
    cases scanMembers check (f v) st with
    | none => rfl
    | some r =>
      obtain ⟨b, st'⟩ := r
      cases b with
      | true => rfl
      | false => exact ih' st'

/-- The walk through a value checks the objects that it finds. -/
theorem checkNode_eq (n : Nat) : ∀ (v : Value Obj Con) (st : RSetHelper Obj), vh.RankLt n v →
      vh.checkNode check n st v = scanMembers check (vh.found n v) st := by
  induction n with
  | zero =>
    intro v st hv
    cases v with
    | object o =>
      simp only [checkNode, needsScan, found_object, scanMembers]
      cases check st o with
      | none => rfl
      | some r => obtain ⟨b, st'⟩ := r; cases b <;> rfl
    | other => simp [checkNode, needsScan, found_other, scanMembers]
    | container c => exact absurd hv (Nat.not_lt_zero _)
  | succ n ih =>
    intro v st hv
    cases v with
    | object o =>
      simp only [checkNode, needsScan, found_object, scanMembers]
      cases check st o with
      | none => rfl
      | some r => obtain ⟨b, st'⟩ := r; cases b <;> rfl
    | other => simp [checkNode, needsScan, found_other, scanMembers]
    | container c =>
      have hwalk : scanMembers (vh.checkNode check n) (vh.contents c) st =
          scanMembers check (vh.found (n + 1) (.container c)) st := by
        rw [found_container]
        exact scanMembers_flatMap check _ (vh.found n) _
          (fun w hw st => ih w st (vh.rankLt_contents hv hw)) st
      by_cases hneeds : vh.needsScan (n + 1) (.container c) = true
      · cases htype : vh.type c <;> simp [checkNode, hneeds, htype, hwalk]
      · have hnil : vh.found (n + 1) (.container c) = [] := by
          by_contra hne
          exact hneeds ((vh.needsScan_iff _ _).mpr hne)
        simp [checkNode, hneeds, hnil, scanMembers]

section
variable [DecidableEq Obj]

/-- The scan of a value heap is the scan of its multigraph. -/
theorem checkInternHeap_eq (env : Env Obj) (henv : env.refs = vh.refs) (h : Heap Obj) :
    ∀ (n : Nat) (st : RSetHelper Obj) (o : Obj),
      vh.checkInternHeap env h n st o = checkIntern env h n st o := by
  intro n
  induction n with
  | zero => intro st o; rfl
  | succ n ih =>
    intro st o
    have hcheck : vh.checkInternHeap env h n = checkIntern env h n :=
      funext fun st => funext fun o => ih st o
    have hscan : (fun o st => scanMembers (vh.checkNode (vh.checkInternHeap env h n) vh.depth)
        (vh.members o) st) = fun o st => scanMembers (checkIntern env h n) (env.refs o) st := by
      funext o st
      rw [hcheck, henv]
      exact scanMembers_flatMap _ _ (vh.found vh.depth) _
        (fun v _ st => vh.checkNode_eq _ _ v st (vh.rankLt_depth v)) st
    rw [checkInternHeap, checkIntern, vh.objectNeedsScan_eq env henv, hscan]

/-- One attempt of the scan of a value heap, without other threads. -/
def runHeap [Fintype Obj] (h : Heap Obj) (obj : Obj) : Option (Outcome Obj) :=
  attempt (singleThreaded vh.refs) h
    (vh.checkInternHeap (singleThreaded vh.refs) h (Fintype.card Obj + 1)) obj

theorem runHeap_eq [Fintype Obj] (h : Heap Obj) (obj : Obj) :
    vh.runHeap h obj = RSetHelper.run (singleThreaded vh.refs) h obj := by
  rw [runHeap, RSetHelper.run]
  congr 1
  funext st o
  exact vh.checkInternHeap_eq _ rfl h _ st o

end

/-! ### Counting along the walk -/

section
variable [DecidableEq Obj] [DecidableEq Con] (n : Nat)

theorem count_found (v : Value Obj Con) (o : Obj) :
    (vh.found n v).count o = (vh.walk n v).count (.object o) := by
  rw [found]
  induction vh.walk n v with
  | nil => rfl
  | cons w ws ih => cases w <;> simp [List.filterMap_cons, Value.asObject, List.count_cons, ih]

theorem count_visits (v : Value Obj Con) (c : Con) :
    (vh.visits n v).count c = (vh.walk n v).count (.container c) := by
  rw [visits]
  induction vh.walk n v with
  | nil => rfl
  | cons w ws ih => cases w <;> simp [List.filterMap_cons, Value.asContainer, List.count_cons, ih]

variable [Fintype Con]

/-- The counts along the walks through a list of values, from those of each value. -/
theorem count_walks (w : Value Obj Con) (vs : List (Value Obj Con))
    (hvs : ∀ v ∈ vs, (vh.walk n v).count w = (if v = w then 1 else 0) +
      ∑ c, (vh.visits n v).count c * (vh.contents c).count w) :
    (vs.flatMap (vh.walk n)).count w = vs.count w +
      ∑ c, (vs.flatMap (vh.visits n)).count c * (vh.contents c).count w := by
  induction vs with
  | nil => simp
  | cons v vs ih =>
    have ih' := ih fun x hx => hvs x (List.mem_cons_of_mem _ hx)
    have hv := hvs v (by simp)
    simp only [List.flatMap_cons, List.count_append, Nat.add_mul, Finset.sum_add_distrib, hv, ih',
      List.count_cons, beq_iff_eq]
    omega

/-- A value is met once as the start of the walk, and once for each slot of each visit of a
container. -/
theorem count_walk (w : Value Obj Con) :
    ∀ v : Value Obj Con, vh.RankLt n v → (vh.walk n v).count w = (if v = w then 1 else 0) +
      ∑ c, (vh.visits n v).count c * (vh.contents c).count w := by
  induction n with
  | zero =>
    intro v hv
    cases v with
    | object p => simp [visits_object, walk_object, List.count_singleton', eq_comm]
    | other => simp [visits_other, walk_other, List.count_singleton', eq_comm]
    | container c => exact absurd hv (Nat.not_lt_zero _)
  | succ n ih =>
    intro v hv
    cases v with
    | object p => simp [visits_object, walk_object, List.count_singleton', eq_comm]
    | other => simp [visits_other, walk_other, List.count_singleton', eq_comm]
    | container d =>
      have hcontents := vh.count_walks n w (vh.contents d)
        fun v hx => ih v (vh.rankLt_contents hv hx)
      have hself : ∑ c, (if d = c then 1 else 0) * (vh.contents c).count w =
          (vh.contents d).count w := by
        simp
      simp only [walk, visits_container, List.count_cons, beq_iff_eq, Nat.add_mul,
        Finset.sum_add_distrib, hself, hcontents]
      omega

/-- The references of an object: the slots of its members, and the slots of each container
between, as often as it is visited. -/
theorem count_refs (p o : Obj) : (vh.refs p).count o = (vh.members p).count (.object o) +
    ∑ c, (vh.between p).count c * (vh.contents c).count (.object o) := by
  have hwalk := vh.count_walks vh.depth (.object o) (vh.members p)
    fun v _ => vh.count_walk vh.depth (.object o) v (vh.rankLt_depth v)
  rw [between, ← hwalk, refs, List.count_flatMap, List.count_flatMap]
  congr 1
  exact List.map_congr_left fun v _ => vh.count_found vh.depth v o

/-- The visits of a container: the slots of the members that hold it, and its slots in the
containers between. -/
theorem count_between (p : Obj) (c : Con) :
    (vh.between p).count c = (vh.members p).count (.container c) +
      ∑ d, (vh.between p).count d * (vh.contents d).count (.container c) := by
  have hwalk := vh.count_walks vh.depth (.container c) (vh.members p)
    fun v _ => vh.count_walk vh.depth (.container c) v (vh.rankLt_depth v)
  rw [show ∑ d, (vh.between p).count d * (vh.contents d).count (.container c) =
    ∑ d, ((vh.members p).flatMap (vh.visits vh.depth)).count d *
      (vh.contents d).count (.container c) from rfl, ← hwalk, between, List.count_flatMap,
    List.count_flatMap]
  congr 1
  exact List.map_congr_left fun v _ => vh.count_visits vh.depth v c

/-- How often the scan of the objects `S` visits a container. -/
def visitsFrom (S : Finset Obj) (c : Con) : Nat := ∑ p ∈ S, (vh.between p).count c

theorem visitsFrom_eq (S : Finset Obj) (c : Con) :
    vh.visitsFrom S c = ∑ p ∈ S, (vh.members p).count (.container c) +
      ∑ d, vh.visitsFrom S d * (vh.contents d).count (.container c) := by
  simp only [visitsFrom, Finset.sum_mul]
  rw [Finset.sum_comm, ← Finset.sum_add_distrib]
  exact Finset.sum_congr rfl fun p _ => vh.count_between p c

theorem refsFrom_eq (S : Finset Obj) (o : Obj) :
    refsFrom vh.refs S o = ∑ p ∈ S, (vh.members p).count (.object o) +
      ∑ c, vh.visitsFrom S c * (vh.contents c).count (.object o) := by
  simp only [refsFrom, visitsFrom, Finset.sum_mul]
  rw [Finset.sum_comm, ← Finset.sum_add_distrib]
  exact Finset.sum_congr rfl fun p _ => vh.count_refs p o

end

/-! ### Slots and holders

`ext v` is the number of variables outside every object that hold the value `v`. -/

section
variable [DecidableEq Obj] [DecidableEq Con] [Fintype Obj] [Fintype Con]
  (ext : Value Obj Con → Nat) {S : Finset Obj}

/-- The number of slots that hold a value: variables, members of objects, and entries of
containers, once for each container. -/
def holders (v : Value Obj Con) : Nat :=
  ext v + ∑ p, (vh.members p).count v + ∑ c, (vh.contents c).count v

/-- The reference count of an object. -/
def references (o : Obj) : Nat := vh.holders ext (.object o)

/-- One value holds another. -/
def Points : Value Obj Con → Value Obj Con → Prop
  | .object p, v => v ∈ vh.members p
  | .container c, v => v ∈ vh.contents c
  | .other, _ => False

/-- A variable reaches the value. -/
def Live (v : Value Obj Con) : Prop := ∃ root, 0 < ext root ∧ Reach vh.Points root v

/-- Each container that the scan from `start` visits between two objects of one component has
one holder. -/
def Unshared (start : Obj) : Prop :=
  ∀ p o c, Reach (Refers vh.refs) start p → Same (Refers vh.refs) p o → c ∈ vh.between p →
    o ∈ vh.found vh.depth (.container c) → vh.holders ext (.container c) = 1

variable {start : Obj} (hun : vh.Unshared ext start)
include hun

/-- A single holder is visited at most once, so the container is. -/
theorem Unshared.visitsFrom_le {o : Obj} (ho : Reach (Refers vh.refs) start o)
    (hS : ∀ p ∈ S, Same (Refers vh.refs) p o) :
    ∀ (k : Nat) (c : Con), vh.depth - vh.rank c ≤ k → o ∈ vh.found vh.depth (.container c) →
      vh.visitsFrom S c ≤ 1 := by
  intro k
  induction k with
  | zero =>
    intro c hk _
    have hlt := vh.rank_lt_depth c
    omega
  | succ k ih =>
    intro c hk hoc
    by_cases hzero : vh.visitsFrom S c = 0
    · omega
    · obtain ⟨p, hp, hpc⟩ := Finset.exists_ne_zero_of_sum_ne_zero hzero
      have hone := hun p o c (ho.trans (hS p hp).2) (hS p hp)
        (List.count_pos_iff.mp (Nat.pos_of_ne_zero hpc)) hoc
      -- A container that holds `c` has a larger rank and is visited at most once.
      have hheld : ∑ d, vh.visitsFrom S d * (vh.contents d).count (.container c) ≤
          ∑ d, (vh.contents d).count (.container c) := by
        refine Finset.sum_le_sum fun d _ => ?_
        by_cases hdc : .container c ∈ vh.contents d
        · have hrank := vh.rank_lt d c hdc
          have hd := ih d (by omega) (vh.mem_found_of_holds hdc hoc)
          exact (Nat.mul_le_mul_right _ hd).trans (by omega)
        · rw [List.count_eq_zero.mpr hdc]
          omega
      have hmembers : ∑ p ∈ S, (vh.members p).count (.container c) ≤
          ∑ p, (vh.members p).count (.container c) :=
        Finset.sum_le_sum_of_subset (Finset.subset_univ S)
      rw [vh.visitsFrom_eq S c]
      rw [holders] at hone
      omega

/-- The references from a component do not exceed the reference count; when they are all of
it, every slot that holds the object is inside. -/
theorem Unshared.refsFrom_le {o : Obj} (ho : Reach (Refers vh.refs) start o)
    (hS : ∀ p ∈ S, Same (Refers vh.refs) p o) :
    refsFrom vh.refs S o ≤ vh.references ext o ∧
      (refsFrom vh.refs S o = vh.references ext o → ext (.object o) = 0 ∧
        (∀ p, .object o ∈ vh.members p → p ∈ S) ∧
        ∀ c, .object o ∈ vh.contents c → vh.visitsFrom S c ≠ 0) := by
  have hslot : ∀ c ∈ Finset.univ, vh.visitsFrom S c * (vh.contents c).count (.object o) ≤
      (vh.contents c).count (.object o) := by
    intro c _
    by_cases hc : .object o ∈ vh.contents c
    · have hle := hun.visitsFrom_le vh ext ho hS _ c (Nat.le_refl _) (vh.mem_found_of_slot hc)
      exact (Nat.mul_le_mul_right _ hle).trans (by omega)
    · rw [List.count_eq_zero.mpr hc]
      omega
  have hsum := Finset.sum_le_sum hslot
  have hsplit := Finset.sum_add_sum_compl S fun p => (vh.members p).count (.object o)
  have hrefs := vh.refsFrom_eq S o
  have hholders : vh.references ext o = ext (.object o) + ∑ p, (vh.members p).count (.object o) +
      ∑ c, (vh.contents c).count (.object o) := rfl
  refine ⟨by omega, fun heq => ⟨by omega, fun p hp => ?_, fun c hc hzero => ?_⟩⟩
  · by_contra hpn
    have hout : ∑ p ∈ Sᶜ, (vh.members p).count (.object o) = 0 := by omega
    have hp0 := Finset.sum_eq_zero_iff.mp hout p (Finset.mem_compl.mpr hpn)
    exact List.count_eq_zero.mp hp0 hp
  · have hall : ∑ c, vh.visitsFrom S c * (vh.contents c).count (.object o) =
        ∑ c, (vh.contents c).count (.object o) := by omega
    have hc0 := (Finset.sum_eq_sum_iff_of_le hslot).mp hall c (Finset.mem_univ c)
    rw [hzero, Nat.zero_mul] at hc0
    exact List.count_eq_zero.mp hc0.symm hc

/-- An object of `S`, or a container that the scan visits between two objects of `S`. -/
def Inside (S : Finset Obj) : Value Obj Con → Prop
  | .object x => x ∈ S
  | .container c => vh.visitsFrom S c ≠ 0 ∧ ∃ x ∈ S, x ∈ vh.found vh.depth (.container c)
  | .other => False

/-- The one holder of an inside container is inside. -/
theorem Unshared.inside_container (hreach : ∀ p ∈ S, Reach (Refers vh.refs) start p)
    (hS : ∀ p ∈ S, ∀ x ∈ S, Same (Refers vh.refs) p x) {c : Con} (hc : vh.Inside S (.container c)) :
    ext (.container c) = 0 ∧ ∀ v, vh.Points v (.container c) → vh.Inside S v := by
  obtain ⟨hvisit, x, hx, hxc⟩ := hc
  have hone : vh.holders ext (.container c) = 1 := by
    obtain ⟨p, hp, hpc⟩ := Finset.exists_ne_zero_of_sum_ne_zero hvisit
    exact hun p x c (hreach p hp) (hS p hp x hx) (List.count_pos_iff.mp (Nat.pos_of_ne_zero hpc)) hxc
  rw [holders] at hone
  have hsplit := Finset.sum_add_sum_compl S fun p => (vh.members p).count (.container c)
  rw [vh.visitsFrom_eq S c] at hvisit
  by_cases hmem : ∑ p ∈ S, (vh.members p).count (.container c) = 0
  · -- The holder is a container that is visited itself.
    rw [hmem, Nat.zero_add] at hvisit
    obtain ⟨d, -, hd⟩ := Finset.exists_ne_zero_of_sum_ne_zero hvisit
    obtain ⟨hd1, hd2⟩ := Nat.mul_ne_zero_iff.mp hd
    have hdle := Finset.single_le_sum (f := fun d => (vh.contents d).count (.container c))
      (fun _ _ => Nat.zero_le _) (Finset.mem_univ d)
    refine ⟨by omega, fun v hv => ?_⟩
    cases v with
    | other => exact hv.elim
    | object p =>
      have hple := Finset.single_le_sum (f := fun p => (vh.members p).count (.container c))
        (fun _ _ => Nat.zero_le _) (Finset.mem_univ p)
      have hpos := List.count_pos_iff.mpr hv
      omega
    | container d' =>
      have hpos := List.count_pos_iff.mpr hv
      have hdd : d' = d := by
        by_contra hne
        have hpair := Finset.add_le_sum (f := fun d => (vh.contents d).count (.container c))
          (fun _ _ => Nat.zero_le _) (Finset.mem_univ d') (Finset.mem_univ d) hne
        omega
      rw [hdd] at hv ⊢
      exact ⟨hd1, x, hx, vh.mem_found_of_holds hv hxc⟩
  · -- The holder is an object of the component.
    refine ⟨by omega, fun v hv => ?_⟩
    cases v with
    | other => exact hv.elim
    | object p =>
      by_contra hpn
      have hple := Finset.single_le_sum (f := fun p => (vh.members p).count (.container c))
        (fun _ _ => Nat.zero_le _) (Finset.mem_compl.mpr hpn)
      have hpos := List.count_pos_iff.mpr hv
      omega
    | container d =>
      have hdle := Finset.single_le_sum (f := fun d => (vh.contents d).count (.container c))
        (fun _ _ => Nat.zero_le _) (Finset.mem_univ d)
      have hpos := List.count_pos_iff.mpr hv
      omega

/-- When all reference counts of a component come from inside, no variable reaches it. -/
theorem Unshared.not_live (hreach : ∀ p ∈ S, Reach (Refers vh.refs) start p)
    (hS : ∀ p ∈ S, ∀ x ∈ S, Same (Refers vh.refs) p x)
    (hfull : ∀ x ∈ S, refsFrom vh.refs S x = vh.references ext x) {x : Obj} (hx : x ∈ S) :
    ¬ vh.Live ext (.object x) := by
  -- what holds something inside is inside
  have hstep : ∀ v w, vh.Points v w → vh.Inside S w → vh.Inside S v := by
    intro v w hvw hw
    cases w with
    | other => exact hw.elim
    | container c => exact (hun.inside_container vh ext hreach hS hw).2 v hvw
    | object y =>
      obtain ⟨-, hmem, hcon⟩ := (hun.refsFrom_le vh ext (hreach y hw) fun p hp => hS p hp y hw).2
        (hfull y hw)
      cases v with
      | other => exact hvw.elim
      | object p => exact hmem p hvw
      | container c => exact ⟨hcon c hvw, y, hw, vh.mem_found_of_slot hvw⟩
  have hback : ∀ v, Reach vh.Points v (.object x) → vh.Inside S v := by
    intro v hv
    induction hv using Relation.ReflTransGen.head_induction_on with
    | refl => exact hx
    | head hab _ ih => exact hstep _ _ hab ih
  rintro ⟨root, hroot, hpath⟩
  -- so a variable would hold something inside, whose counts are used up
  have hin := hback root hpath
  cases root with
  | other => exact hin.elim
  | object y =>
    have h0 := ((hun.refsFrom_le vh ext (hreach y hin) fun p hp => hS p hp y hin).2 (hfull y hin)).1
    omega
  | container c =>
    have h0 := (hun.inside_container vh ext hreach hS hin).1
    omega

omit hun

/-! ### The scan of a value heap -/

/-- The counts of the scanned objects do not exceed their reference counts, and `canDelete`
answers 1 only for a set that no variable reaches. -/
structure Safe (start : Obj) (hd : HeapData Obj) : Prop where
  count : ∀ o, Reach (Refers vh.refs) start o → hd.rcount o ≤ vh.references ext o
  canDelete : ∀ o r R, Reach (Refers vh.refs) start o → hd.rset o = some r → hd.sets r = some R →
    ∀ refCopy rc,
      (R.canDelete (singleThreaded vh.refs) hd.rcount (vh.references ext) refCopy rc).1 = 1 →
      ∀ x ∈ R.set, ¬ vh.Live ext (.object x)

/-- The scan of a value heap always commits, and it is safe when each container between two
objects of one component has one holder. -/
theorem scan_containers_safe (h : Heap Obj) (start : Obj) (hun : vh.Unshared ext start) :
    ∃ h' : Heap Obj, vh.runHeap h start = some (.done h'.toHeapData) ∧
      vh.Safe ext start h'.toHeapData := by
  obtain ⟨st, hrun, hr, -⟩ := run_committed vh.refs h start
  rw [vh.runHeap_eq]
  refine ⟨⟨st.commit h, (commit_committed hr.wf).rset_lt hr.wf⟩, hrun, fun o ho => ?_,
    fun o r R ho hro hR refCopy rc hdel x hx => ?_⟩
  · show (st.commit h).rcount o ≤ vh.references ext o
    by_cases hset : (st.commit h).rset o = none
    · -- an object on no cycle counts nothing
      have hle := (hr.scanned_committed ho).count
      rw [componentRefs_of_acyclic ((hr.scanned_committed ho).none_iff.mp hset)] at hle
      omega
    · obtain ⟨r, hro⟩ := Option.ne_none_iff_exists'.mp hset
      obtain ⟨R, -, -, hmem, -, hsound⟩ := hr.soundSet ho hro
      exact (hsound.count o hmem).trans
        (hun.refsFrom_le vh ext ho fun p hp => hsound.component p hp o hmem).1
  · obtain ⟨R', hR', -, hmem, -, hsound⟩ := hr.soundSet ho hro
    obtain rfl : R' = R := Option.some.inj (hR'.symm.trans hR)
    have heq := ((canDelete_one_iff _ _ _).mp hdel).2.2
    have hreach : ∀ p ∈ R'.set, Reach (Refers vh.refs) start p :=
      fun p hp => ho.trans (hsound.component o hmem p hp).1
    refine hun.not_live vh ext hreach hsound.component (fun y hy => ?_) hx
    have hle := (hun.refsFrom_le vh ext (hreach y hy) fun p hp => hsound.component p hp y hy).1
    have hcount := hsound.count y hy
    have hy' : (st.commit h).rcount y = vh.references ext y := heq y hy
    omega

end

/-- One object with `k` members that hold the same list, which holds the object. -/
def ownList (k : Nat) : ValueHeap (Fin 1) (Fin 1) where
  members _ := List.replicate k (.container 0)
  type _ := .list
  contents _ := [.object 0]
  rank _ := 0
  depth := 1
  rank_lt c d h := by simp at h
  rank_lt_depth _ := Nat.one_pos

/-- A list with one holder. -/
theorem scan_ownList_safe : ∃ h' : Heap (Fin 1),
    (ownList 1).runHeap (Heap.empty (Fin 1)) 0 = some (.done h'.toHeapData) ∧
      (ownList 1).Safe (fun _ => 0) 0 h'.toHeapData :=
  scan_containers_safe (ownList 1) (fun _ => 0) (Heap.empty (Fin 1)) 0 fun p o c _ _ _ _ => by
    have hall : ∀ c : Fin 1, (ownList 1).holders (fun _ => 0) (.container c) = 1 := by decide
    exact hall c

/-- A list held by its own object and by a variable: `canDelete` answers 1 although the
variable reaches the object. With three members that hold the list, and a variable that holds
the object, the count is 3 and the reference count 2. -/
theorem scan_sharedList :
    (∃ hd, (ownList 1).runHeap (Heap.empty (Fin 1)) 0 = some (.done hd) ∧
      ¬ (ownList 1).Safe (fun v => if v = .container 0 then 1 else 0) 0 hd) ∧
    (∃ hd, (ownList 3).runHeap (Heap.empty (Fin 1)) 0 = some (.done hd) ∧ hd.rcount 0 = 3 ∧
      (ownList 3).references (fun v => if v = .object 0 then 1 else 0) 0 = 2) := by
  set ext : Value (Fin 1) (Fin 1) → Nat := fun v => if v = .container 0 then 1 else 0 with hext
  constructor
  · have hout : (((ownList 1).runHeap (Heap.empty (Fin 1)) 0).bind fun out => out.heap?.map fun hd =>
        (hd.rset 0, (hd.sets 0).map fun R =>
          (R.set, (R.canDelete (singleThreaded (ownList 1).refs) hd.rcount
            ((ownList 1).references ext) 1 1).1))) = some (some 0, some ({0}, 1)) := by decide
    cases hrun : (ownList 1).runHeap (Heap.empty (Fin 1)) 0 with
    | none => simp [hrun] at hout
    | some out =>
      cases out with
      | conflict => simp [hrun, RSetHelper.Outcome.heap?] at hout
      | done hd =>
        simp only [hrun, Option.bind_some, RSetHelper.Outcome.heap?, Option.map_some,
          Option.some.injEq, Prod.mk.injEq, Option.map_eq_some_iff] at hout
        obtain ⟨hrset, R, hR, hset, hdel⟩ := hout
        refine ⟨hd, rfl, fun hsafe => ?_⟩
        refine hsafe.canDelete 0 0 R (Reach.refl _ 0) hrset hR 1 1 hdel 0 (by simp [hset]) ?_
        exact ⟨.container 0, by simp [hext], Reach.of_edge (by simp [Points, ownList])⟩
  · have hout : (((ownList 3).runHeap (Heap.empty (Fin 1)) 0).bind fun out =>
        out.heap?.map fun hd => hd.rcount 0) = some 3 := by decide
    cases hrun : (ownList 3).runHeap (Heap.empty (Fin 1)) 0 with
    | none => simp [hrun] at hout
    | some out =>
      cases out with
      | conflict => simp [hrun, RSetHelper.Outcome.heap?] at hout
      | done hd =>
        exact ⟨hd, rfl, by simpa [hrun, RSetHelper.Outcome.heap?] using hout, by decide⟩

end ValueHeap

end Qore.Collector
