import Mathlib.Data.Fintype.Card
import Mathlib.Data.Finset.Basic
import Mathlib.Logic.Function.Basic

/-!
# `Qore.Collector.Model`: the recursive-reference scan

The model of `lib/RSet.cpp` and `include/qore/intern/RSet.h`. Qore counts references, and a
cycle of objects keeps itself alive. To find such cycles, `RSetHelper` walks the objects
reachable from one object, sorts the objects on cycles into recursive sets (`RSet`) and
counts for each of them the references from its set (`rcount`). `RSet::canDelete` compares
these counts with the reference counts.

* `Env` is what a scan reads of the objects: the references found in an object's members in
  the order of the scan, `isValid`, whether another thread holds the object's rsection lock,
  and `q_disable_gc`.
* `HeapData` is what a scan writes: the committed `rset`, `rcount` and `rcycle` of each
  object and the allocated `RSet`s. `Heap` adds that the committed pointers are allocated.
* `RSetHelper` is the transaction. `ovec` holds its back element first. `fomap` is a
  `std::map`; `order` lists its keys.
* `checkIntern` and the functions it calls return `true` on a lock conflict, as the source
  does. Its fuel bounds the depth of the recursion, and `run` gives it enough. The walk
  through lists and hashes to the objects in them is in `Qore.Collector.Containers`.

The set operations of `RSet` (`vector_set_t`) are those of `Finset`, and a loop over such a
set that does the same to every member is one pointwise update. Real references (`rrefs`)
are not in the model: `needsScan` answers `false` while an object has them, so such an object
has an empty `refs` here. The weak references of the objects (`tRefs`) decide only when the
memory of a deleted object is released, and no modelled function reads them.
-/

set_option autoImplicit false

namespace Qore.Collector

/-- The address of an `RSet`. -/
abbrev RSetId := Nat

/-- `class RSet`: the members, the number of objects that point to it, and `valid`. -/
structure RSet (Obj : Type) where
  set : Finset Obj
  acnt : Nat
  valid : Bool

/-- `struct RSetStat`: what a transaction knows of one scanned object. -/
structure RSetStat where
  rset : Option RSetId
  rcount : Nat
  inCycle : Bool
  ok : Bool
  deriving DecidableEq

/-- `RSetStat::RSetStat()`. -/
def RSetStat.new : RSetStat := ⟨none, 0, false, false⟩

/-- What a scan reads of the objects. -/
structure Env (Obj : Type) where
  /-- The references that `scanMembers` finds, in its order. -/
  refs : Obj → List Obj
  isValid : Obj → Bool
  /-- Another thread holds the rsection lock of the object. -/
  locked : Obj → Bool
  /-- `q_disable_gc`. -/
  disableGc : Bool

/-- `qore_object_private::needsScan(true)`: the scan count of the object is not zero. -/
def Env.needsScan {Obj : Type} (env : Env Obj) (o : Obj) : Bool := !(env.refs o).isEmpty

/-- Valid objects, one thread, and the collector enabled. -/
def singleThreaded {Obj : Type} (g : Obj → List Obj) : Env Obj :=
  ⟨g, fun _ => true, fun _ => false, false⟩

/-- The committed state of the objects and the allocated `RSet`s; `next` is the next free
address. -/
structure HeapData (Obj : Type) where
  rset : Obj → Option RSetId
  rcount : Obj → Nat
  rcycle : Obj → Nat
  sets : RSetId → Option (RSet Obj)
  next : RSetId

/-- A heap whose objects point only to allocated `RSet`s. -/
structure Heap (Obj : Type) extends HeapData Obj where
  rset_lt : ∀ o r, rset o = some r → r < next

/-- The heap before any scan. -/
def Heap.empty (Obj : Type) : Heap Obj :=
  ⟨⟨fun _ => none, fun _ => 0, fun _ => 0, fun _ => none, 0⟩, fun _ _ h => by simp at h⟩

/-- `class RSetHelper`, with the `RSet`s it can change. -/
structure RSetHelper (Obj : Type) where
  fomap : Obj → Option RSetStat
  order : List Obj
  ovec : List Obj
  sets : RSetId → Option (RSet Obj)
  next : RSetId
  trInvalidate : Finset RSetId
  trOut : Finset Obj

namespace RSetHelper

variable {Obj : Type} [DecidableEq Obj]

/-- The empty transaction on a heap. -/
def init (h : Heap Obj) : RSetHelper Obj := ⟨fun _ => none, [], [], h.sets, h.next, ∅, ∅⟩

/-- The record of a scanned object. -/
def stat (st : RSetHelper Obj) (o : Obj) : RSetStat := (st.fomap o).getD RSetStat.new

/-- Change the record of a scanned object. -/
def modifyStat (st : RSetHelper Obj) (o : Obj) (f : RSetStat → RSetStat) : RSetHelper Obj :=
  { st with fomap := Function.update st.fomap o ((st.fomap o).map f) }

/-- `++oi->second.rcount`. -/
def incRcount (st : RSetHelper Obj) (o : Obj) : RSetHelper Obj :=
  st.modifyStat o fun s => { s with rcount := s.rcount + 1 }

/-- `oi->second.rset = rset`. -/
def setRset (st : RSetHelper Obj) (o : Obj) (r : Option RSetId) : RSetHelper Obj :=
  st.modifyStat o fun s => { s with rset := r }

/-- The scanning thread holds the rsection lock of every object in `fomap` or `tr_out`. -/
def hasRSectionLock (st : RSetHelper Obj) (o : Obj) : Bool :=
  (st.fomap o).isSome || decide (o ∈ st.trOut)

/-- `inCurrentSet`. -/
def inCurrentSet (st : RSetHelper Obj) (o : Obj) : Bool := decide (o ∈ st.ovec)

/-- The members of a set. -/
def members (st : RSetHelper Obj) (r : RSetId) : Finset Obj :=
  match st.sets r with
  | none => ∅
  | some R => R.set

/-- `rset->insert(o)`. -/
def insertRSet (st : RSetHelper Obj) (r : RSetId) (o : Obj) : RSetHelper Obj :=
  { st with
      sets := Function.update st.sets r
        ((st.sets r).map fun R => { R with set := insert o R.set }) }

/-- `new RSet`. -/
def newRSet (st : RSetHelper Obj) : RSetHelper Obj :=
  { st with sets := Function.update st.sets st.next (some ⟨∅, 0, true⟩), next := st.next + 1 }

/-- `removeInvalidate`: queue an active old set for invalidation, and its members that are
not locked yet for the unlock at the end. The locks already taken are released when one of
them cannot be taken. -/
def removeInvalidate (env : Env Obj) (st : RSetHelper Obj) (ors : RSetId) :
    Bool × RSetHelper Obj :=
  match st.sets ors with
  | none => (false, st)
  | some R =>
    if R.valid = false then (false, st)
    else if ∃ o ∈ R.set, st.hasRSectionLock o = false ∧ env.locked o = true then (true, st)
    else
      (false, { st with
        trInvalidate := insert ors st.trInvalidate
        trOut := st.trOut ∪
          R.set.filter fun o => st.hasRSectionLock o = false ∧ env.isValid o = true })

/-- `addToRSet`: finalize `oi` with the set `r`, queue its old set, count one reference. -/
def addToRSet (env : Env Obj) (h : Heap Obj) (st : RSetHelper Obj) (oi : Obj) (r : RSetId) :
    Bool × RSetHelper Obj :=
  let st := (st.setRset oi (some r)).insertRSet r oi
  let inval := match h.rset oi with
    | none => (false, st)
    | some ors => removeInvalidate env st ors
  if inval.1 then (true, inval.2)
  else (false, inval.2.modifyStat oi fun s => { s with inCycle := true, rcount := s.rcount + 1 })

/-- The loop of `mergeRSet`: `into` takes the members of `old`, which is deleted. -/
def assimilate (st : RSetHelper Obj) (into old : RSetId) : RSetHelper Obj :=
  let taken := st.members old
  { st with
      fomap := fun o =>
        if o ∈ taken then (st.fomap o).map fun s => { s with rset := some into } else st.fomap o
      sets := Function.update
        (Function.update st.sets into
          ((st.sets into).map fun R => { R with set := R.set ∪ taken })) old none }

/-- `mergeRSet`: join the set of `oi` with the current set; the larger one survives. -/
def mergeRSet (st : RSetHelper Obj) (oi : Obj) (rset : Option RSetId) :
    Option RSetId × RSetHelper Obj :=
  match rset, (st.stat oi).rset with
  | none, r => (r, st)
  | some r, none => (some r, st)
  | some r, some ro =>
    if r = ro then (some r, st)
    else if (st.members r).card > (st.members ro).card then (some r, st.assimilate r ro)
    else (some ro, st.assimilate ro r)

/-- The loop of `makeChain` over the objects of `ovec` after index `i`, in index order. The
reference parameter of `mergeRSet` is `fi->second.rset`. -/
def makeChain (env : Env Obj) (h : Heap Obj) :
    List Obj → Obj → RSetHelper Obj → Bool × RSetHelper Obj
  | [], _, st => (false, st)
  | c :: cs, fi, st =>
    match (st.stat c).rset, (st.stat fi).rset with
    | none, some r =>
      let added := addToRSet env h st c r
      if added.1 then (true, added.2)
      else makeChain env h cs fi (if cs.isEmpty then added.2.incRcount fi else added.2)
    | _, rset =>
      let merged := mergeRSet st c rset
      makeChain env h cs fi (merged.2.setRset fi merged.1)

/-- `i > 0 && !ovec[i-1]->second.in_cycle`, for the part of `ovec` before index `i`. -/
def parentOut (st : RSetHelper Obj) : List Obj → Bool
  | [] => false
  | parent :: _ => !(st.stat parent).inCycle

/-- The last loop of `checkIntern`, from the back of `ovec` down to `obj`, with the local
`rset`. -/
def finalizeCurrent (env : Env Obj) (h : Heap Obj) (obj : Obj) :
    List Obj → Option RSetId → RSetHelper Obj → Bool × RSetHelper Obj
  | [], _, st => (false, st)
  | oi :: below, rset, st =>
    match (st.stat oi).rset with
    | none =>
      let current : RSetId × RSetHelper Obj := match rset with
        | none => (st.next, st.newRSet)
        | some r => (r, st)
      let added := addToRSet env h current.2 oi current.1
      if added.1 then (true, added.2)
      else if oi = obj then (false, added.2)
      else finalizeCurrent env h obj below (some current.1) added.2
    | some _ =>
      let st := if st.parentOut below && decide (oi ≠ obj) then st.incRcount oi else st
      let merged := mergeRSet st oi rset
      if oi = obj then (false, merged.2)
      else finalizeCurrent env h obj below merged.1 merged.2

/-- The part of `ovec` after the last object that `p` holds of, in index order. -/
def chainAfter (p : Obj → Bool) (ovec : List Obj) : Option (List Obj) :=
  if ovec.any p then some (ovec.takeWhile fun o => !p o).reverse else none

/-- `fi->second.rset->find(o) != fi->second.rset->end()`. -/
def inRSetOf (st : RSetHelper Obj) (fi : RSetStat) (o : Obj) : Bool :=
  match fi.rset with
  | none => false
  | some r => decide (o ∈ st.members r)

/-- The branch of `checkIntern` for an object that was scanned before. -/
def checkScanned (env : Env Obj) (h : Heap Obj) (st : RSetHelper Obj) (obj : Obj) :
    Bool × RSetHelper Obj :=
  let fi := st.stat obj
  if fi.ok then (false, st)
  else if fi.inCycle then
    if st.inCurrentSet obj then
      finalizeCurrent env h obj st.ovec fi.rset (st.incRcount obj)
    else match st.ovec with
      | [] => (false, st)
      | back :: _ =>
        if (st.stat back).rset = fi.rset then (false, st.incRcount obj)
        else match chainAfter (fun o => decide ((st.stat o).rset = fi.rset)) st.ovec with
          | some chain => makeChain env h chain obj st
          | none =>
            match chainAfter (st.inRSetOf fi) st.ovec with
            | some chain => makeChain env h chain obj st
            | none => (false, st)
  else if st.inCurrentSet obj then finalizeCurrent env h obj st.ovec fi.rset st
  else (false, st)

/-- `fomap.insert`. -/
def insert (st : RSetHelper Obj) (obj : Obj) : RSetHelper Obj :=
  { st with
      fomap := Function.update st.fomap obj (some RSetStat.new)
      order := obj :: st.order }

/-- `ovec.push_back`, and the removal from the invalidation set. -/
def push (st : RSetHelper Obj) (obj : Obj) : RSetHelper Obj :=
  { st with ovec := obj :: st.ovec, trOut := st.trOut.erase obj }

/-- An object that is not iterated: it is marked `ok` and removed from the invalidation
set. -/
def markOk (st : RSetHelper Obj) (obj : Obj) : RSetHelper Obj :=
  { st.modifyStat obj fun s => { s with ok := true } with trOut := st.trOut.erase obj }

/-- `ovec.pop_back`. -/
def pop (st : RSetHelper Obj) : RSetHelper Obj := { st with ovec := st.ovec.tail }

/-- `scanMembers`: check the members in order, up to the first lock conflict. -/
def scanMembers {α : Type} (check : RSetHelper Obj → α → Option (Bool × RSetHelper Obj)) :
    List α → RSetHelper Obj → Option (Bool × RSetHelper Obj)
  | [], st => some (false, st)
  | o :: os, st =>
    match check st o with
    | none => none
    | some (true, st) => some (true, st)
    | some (false, st) => scanMembers check os st

/-- `checkIntern(RObject&)`, with the scan of the members as an argument. -/
def checkObject (env : Env Obj) (h : Heap Obj) (needsScan : Obj → Bool)
    (scan : Obj → RSetHelper Obj → Option (Bool × RSetHelper Obj)) (st : RSetHelper Obj)
    (obj : Obj) : Option (Bool × RSetHelper Obj) :=
  if !st.hasRSectionLock obj && env.locked obj then some (true, st)
  else if !env.isValid obj then some (false, st)
  else if (st.fomap obj).isSome then some (checkScanned env h st obj)
  else if !needsScan obj then some (false, (st.insert obj).markOk obj)
  else
    match scan obj ((st.insert obj).push obj) with
    | none => none
    | some (true, st) => some (true, st)
    | some (false, st) => some (false, st.pop)

/-- `checkIntern(RObject&)` over the references of the objects; the fuel bounds the depth. -/
def checkIntern (env : Env Obj) (h : Heap Obj) :
    Nat → RSetHelper Obj → Obj → Option (Bool × RSetHelper Obj)
  | 0, _, _ => none
  | fuel + 1, st, obj =>
    checkObject env h env.needsScan
      (fun o st => scanMembers (checkIntern env h fuel) (env.refs o) st) st obj

end RSetHelper

/-! ### The commit -/

/-- `RSet::invalidate`. -/
def RSet.invalidate {Obj : Type} (R : RSet Obj) : RSet Obj :=
  if R.valid then { R with set := ∅, valid := false } else R

namespace HeapData

variable {Obj : Type} [DecidableEq Obj]

/-- `RSet::invalidateDeref`: the last reference deletes the set. -/
def invalidateDeref (h : HeapData Obj) (r : RSetId) : HeapData Obj :=
  match h.sets r with
  | none => h
  | some R =>
    { h with
        sets := Function.update h.sets r
          (if R.acnt ≤ 1 then none else some { R.invalidate with acnt := R.acnt - 1 }) }

/-- `RSet::ref`. -/
def refRSet (h : HeapData Obj) (r : RSetId) : HeapData Obj :=
  { h with
      sets := Function.update h.sets r
        ((h.sets r).map fun R => { R with acnt := R.acnt + 1 }) }

/-- `RObject::setRSet`. -/
def setRSet (h : HeapData Obj) (o : Obj) (rs : Option RSetId) (rcnt : Nat) : HeapData Obj :=
  let h := match h.rset o with
    | none => h
    | some old => h.invalidateDeref old
  let h := { h with
    rset := Function.update h.rset o rs
    rcount := Function.update h.rcount o rcnt
    rcycle := Function.update h.rcycle o (h.rcycle o + 1) }
  match rs with
  | none => h
  | some r => h.refRSet r

end HeapData

namespace RSetHelper

variable {Obj : Type} [DecidableEq Obj]

/-- `commit`: invalidate the queued sets, then store the result of every scanned object. -/
def commit (h : Heap Obj) (st : RSetHelper Obj) : HeapData Obj :=
  st.order.foldr (fun o h => h.setRSet o (st.stat o).rset (st.stat o).rcount)
    { h.toHeapData with
      sets := fun r => if r ∈ st.trInvalidate then (st.sets r).map RSet.invalidate else st.sets r
      next := st.next }

/-- The result of one attempt of the constructor `RSetHelper(RObject&)`. A conflict is rolled
back and the attempt is repeated. -/
inductive Outcome (Obj : Type)
  | conflict
  | done (h : HeapData Obj)

/-- What the attempt leaves, unless there was a conflict. -/
def Outcome.heap? : Outcome Obj → Option (HeapData Obj)
  | .conflict => none
  | .done h => some h

/-- One attempt of `RSetHelper::RSetHelper(RObject&)` for an object without real references,
with `checkIntern` as an argument. -/
def attempt (env : Env Obj) (h : Heap Obj)
    (check : RSetHelper Obj → Obj → Option (Bool × RSetHelper Obj)) (obj : Obj) :
    Option (Outcome Obj) :=
  if env.disableGc then some (.done h.toHeapData)
  else
    match check (init h) obj with
    | none => none
    | some (true, _) => some .conflict
    | some (false, st) =>
      some (.done (if env.isValid obj then st.commit h else h.toHeapData))

/-- One attempt over the references of the objects. The fuel is the number of objects. -/
def run [Fintype Obj] (env : Env Obj) (h : Heap Obj) (obj : Obj) : Option (Outcome Obj) :=
  attempt env h (checkIntern env h (Fintype.card Obj + 1)) obj

end RSetHelper

/-- `RSet::canDelete` with the reference counts of the objects: the answer, and the set after
the call. -/
def RSet.canDelete {Obj : Type} (R : RSet Obj) (env : Env Obj) (rcountOf refs : Obj → Nat)
    (refCopy rcount : Nat) : Int × RSet Obj :=
  if env.disableGc then (0, R)
  else if !R.valid then (-1, R)
  else if refCopy ≠ rcount then (0, R)
  else if ∃ o ∈ R.set, env.isValid o = false ∨ rcountOf o ≠ refs o then (0, R)
  else (1, R.invalidate)

end Qore.Collector
