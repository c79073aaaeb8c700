import Mathlib.Data.Finset.Sort
import Qore.Collector.Model
import Qore.Lib.Ledger

/-!
# `Qore.Collector.Locks`: the scan with its locks and its closures

`Qore.Collector.Model` reads the rsection locks off `fomap` and `tr_out`, and it does not follow
closures. Here the lock functions of `lib/RSection.cpp`, the closure case of `checkIntern` and
`RSectionScanHelper` are in the model, and so is `rollback`.

* `ScanEnv` is what the scan reads: the values in the objects, in the containers and in the
  captured variables, and what other threads do with the locks.
* `Transaction` is `RSetHelper` with the rsection locks of the thread and with `closure_set`. Two
  ledgers list the uses of the locks and of the addresses of the `RSet`s in one attempt.
* `Transaction.check` is `checkIntern`, and `attempt` one round of the loop of the constructor.

The functions that only read or change the records of the transaction are those of
`Qore.Collector.Model`.
-/

set_option autoImplicit false

namespace Qore.Collector

open Qore.Lib
open Qore.Lib.Ledger (Use)

/-- A value that the scan meets: an `RObject` (an object, or the variable that a reference leads
to), a list or a hash, a closure, or anything else. -/
inductive Node (Obj Con Clo : Type)
  | object (o : Obj)
  | container (c : Con)
  | closure (c : Clo)
  | other
  deriving DecidableEq

/-- What a scan reads. An `RObject` is an object or a closure-bound variable, and a variable has
no status: it is always valid. The scan holds the rsection lock of whatever it reads, so nothing of
this changes during a scan but the locks: `locked` depends on what the scan has done before. -/
structure ScanEnv (Obj Con Clo : Type) where
  /-- The values that `scanMembers` finds, in its order. -/
  members : Obj → List (Node Obj Con Clo)
  contents : Con → List (Node Obj Con Clo)
  /-- The variables of a closure, in the order of its map. -/
  captured : Clo → List Obj
  objectNeedsScan : Obj → Bool
  containerNeedsScan : Con → Bool
  closureNeedsScan : Clo → Bool
  isValid : Obj → Bool
  captured_isValid : ∀ c, ∀ v ∈ captured c, isValid v = true
  /-- Another thread holds the rsection lock of the object. -/
  locked : List (Use Obj) → Obj → Bool

/-- `class RSetHelper`, with the rsection locks of the thread. -/
structure Transaction (Obj Clo : Type) extends RSetHelper Obj where
  held : Finset Obj
  closureSet : Finset Clo
  locks : List (Use Obj)
  allocs : List (Use RSetId)

/-- `RSet::pop`: the first element is removed. -/
def RSet.pop {Obj : Type} [LinearOrder Obj] (R : RSet Obj) : RSet Obj :=
  if h : R.set.Nonempty then { R with set := R.set.erase (R.set.min' h) } else R

namespace Transaction

variable {Obj Con Clo : Type}

/-- `RSetHelper::RSetHelper` before the first attempt. -/
def init : Transaction Obj Clo :=
  ⟨⟨fun _ => none, [], [], fun _ => none, 0, ∅, ∅⟩, ∅, ∅, [], []⟩

/-- The start of an attempt: the `RSet`s are those of the heap, and the addresses from `next` on
are free. -/
def start (h : Heap Obj) (st : Transaction Obj Clo) : Transaction Obj Clo :=
  { st with
    sets := fun r => if r < h.next then h.sets r else none
    next := h.next
    locks := []
    allocs := [] }

variable [LinearOrder Obj]

/-! ### The locks -/

/-- The rsection lock is free, and the thread takes it. -/
def lock (o : Obj) (st : Transaction Obj Clo) : Transaction Obj Clo :=
  { st with held := insert o st.held, locks := .acquire o :: st.locks }

/-- `rSectionUnlock`. -/
def unlock (o : Obj) (st : Transaction Obj Clo) : Transaction Obj Clo :=
  { st with held := st.held.erase o, locks := .release o :: st.locks }

/-- `tryRSectionLockNotifyWaitRead`: true when another thread has the lock. -/
def tryLock (env : ScanEnv Obj Con Clo) (o : Obj) (st : Transaction Obj Clo) :
    Bool × Transaction Obj Clo :=
  if o ∈ st.held then (false, st)
  else if env.locked st.locks o then (true, st)
  else (false, st.lock o)

/-- The loop of `removeInvalidate` over the members of the old set, with `rovec`. -/
def lockMembers (env : ScanEnv Obj Con Clo) :
    List Obj → List Obj → Transaction Obj Clo → Bool × List Obj × Transaction Obj Clo
  | [], rovec, st => (false, rovec, st)
  | ri :: rest, rovec, st =>
    if ri ∈ st.held then lockMembers env rest rovec st
    else
      match st.tryLock env ri with
      | (true, st) => (true, rovec, st)
      | (false, st) =>
        if !env.isValid ri then lockMembers env rest rovec (st.unlock ri)
        else lockMembers env rest (rovec ++ [ri]) st

/-- `removeInvalidate`. -/
def removeInvalidate (env : ScanEnv Obj Con Clo) (st : Transaction Obj Clo) (ors : RSetId) :
    Bool × Transaction Obj Clo :=
  match st.sets ors with
  | none => (false, st)
  | some R =>
    if R.valid = false then (false, st)
    else
      match lockMembers env R.set.sort [] st with
      | (true, rovec, st) => (true, rovec.foldl (fun st o => st.unlock o) st)
      | (false, rovec, st) =>
        (false, { st with
          trInvalidate := insert ors st.trInvalidate
          trOut := st.trOut ∪ (rovec.filter env.isValid).toFinset })

/-! ### The sets -/

/-- A change of the records. -/
def modify (f : RSetHelper Obj → RSetHelper Obj) (st : Transaction Obj Clo) : Transaction Obj Clo :=
  { st with toRSetHelper := f st.toRSetHelper }

/-- `new RSet`. -/
def newRSet (st : Transaction Obj Clo) : Transaction Obj Clo :=
  { st.modify RSetHelper.newRSet with allocs := .acquire st.next :: st.allocs }

/-- The old set of an object that gets a new one. -/
def invalidateOld (env : ScanEnv Obj Con Clo) (h : Heap Obj) (st : Transaction Obj Clo) (oi : Obj) :
    Bool × Transaction Obj Clo :=
  match h.rset oi with
  | none => (false, st)
  | some ors => removeInvalidate env st ors

/-- `addToRSet`. -/
def addToRSet (env : ScanEnv Obj Con Clo) (h : Heap Obj) (st : Transaction Obj Clo) (oi : Obj)
    (r : RSetId) : Bool × Transaction Obj Clo :=
  let st := st.modify fun st => (st.setRset oi (some r)).insertRSet r oi
  let inval := invalidateOld env h st oi
  if inval.1 then (true, inval.2)
  else (false, inval.2.modify fun st =>
    st.modifyStat oi fun s => { s with inCycle := true, rcount := s.rcount + 1 })

/-- The loop of `mergeRSet`: `into` takes the members of `old`, which is deleted. -/
def assimilate (st : Transaction Obj Clo) (into old : RSetId) : Transaction Obj Clo :=
  { st.modify fun st => st.assimilate into old with allocs := .release old :: st.allocs }

/-- `mergeRSet`. -/
def mergeRSet (st : Transaction Obj Clo) (oi : Obj) (rset : Option RSetId) :
    Option RSetId × Transaction Obj Clo :=
  match rset, (st.stat oi).rset with
  | none, r => (r, st)
  | some r, none => (some r, st)
  | some r, some ro =>
    if r = ro then (some r, st)
    else if (st.members r).card > (st.members ro).card then (some r, st.assimilate r ro)
    else (some ro, st.assimilate ro r)

/-- The loop of `makeChain`. -/
def makeChain (env : ScanEnv Obj Con Clo) (h : Heap Obj) :
    List Obj → Obj → Transaction Obj Clo → Bool × Transaction Obj Clo
  | [], _, st => (false, st)
  | c :: cs, fi, st =>
    match (st.stat c).rset, (st.stat fi).rset with
    | none, some r =>
      let added := addToRSet env h st c r
      if added.1 then (true, added.2)
      else makeChain env h cs fi
        (if cs.isEmpty then added.2.modify fun st => st.incRcount fi else added.2)
    | _, rset =>
      let merged := mergeRSet st c rset
      makeChain env h cs fi (merged.2.modify fun st => st.setRset fi merged.1)

/-- The last loop of `checkIntern`. -/
def finalizeCurrent (env : ScanEnv Obj Con Clo) (h : Heap Obj) (obj : Obj) :
    List Obj → Option RSetId → Transaction Obj Clo → Bool × Transaction Obj Clo
  | [], _, st => (false, st)
  | oi :: below, rset, st =>
    match (st.stat oi).rset with
    | none =>
      let current : RSetId × Transaction Obj Clo := match rset with
        | none => (st.next, st.newRSet)
        | some r => (r, st)
      let added := addToRSet env h current.2 oi current.1
      if added.1 then (true, added.2)
      else if oi = obj then (false, added.2)
      else finalizeCurrent env h obj below (some current.1) added.2
    | some _ =>
      let st := if st.parentOut below && decide (oi ≠ obj) then st.modify fun st => st.incRcount oi
        else st
      let merged := mergeRSet st oi rset
      if oi = obj then (false, merged.2)
      else finalizeCurrent env h obj below merged.1 merged.2

/-- The branch of `checkIntern` for an object that was scanned before. -/
def checkScanned (env : ScanEnv Obj Con Clo) (h : Heap Obj) (st : Transaction Obj Clo) (obj : Obj) :
    Bool × Transaction Obj Clo :=
  let fi := st.stat obj
  if fi.ok then (false, st)
  else if fi.inCycle then
    if st.inCurrentSet obj then
      finalizeCurrent env h obj st.ovec fi.rset (st.modify fun st => st.incRcount obj)
    else match st.ovec with
      | [] => (false, st)
      | back :: _ =>
        if (st.stat back).rset = fi.rset then (false, st.modify fun st => st.incRcount obj)
        else match RSetHelper.chainAfter (fun o => decide ((st.stat o).rset = fi.rset)) st.ovec with
          | some chain => makeChain env h chain obj st
          | none =>
            match RSetHelper.chainAfter (st.inRSetOf fi) st.ovec with
            | some chain => makeChain env h chain obj st
            | none => (false, st)
  else if st.inCurrentSet obj then finalizeCurrent env h obj st.ovec fi.rset st
  else (false, st)

/-! ### The walk -/

/-- A check of a list of values in order, up to the first lock conflict. -/
def scanAll {α : Type} (check : Transaction Obj Clo → α → Option (Bool × Transaction Obj Clo)) :
    List α → Transaction Obj Clo → Option (Bool × Transaction Obj Clo)
  | [], st => some (false, st)
  | a :: as, st =>
    match check st a with
    | none => none
    | some (true, st) => some (true, st)
    | some (false, st) => scanAll check as st

/-- `checkIntern(RObject&)`, with the scan of the members as an argument. -/
def checkObject (env : ScanEnv Obj Con Clo) (h : Heap Obj)
    (scan : Transaction Obj Clo → Option (Bool × Transaction Obj Clo)) (st : Transaction Obj Clo)
    (obj : Obj) : Option (Bool × Transaction Obj Clo) :=
  match st.tryLock env obj with
  | (true, st) => some (true, st)
  | (false, st) =>
    if !env.isValid obj then some (false, st.unlock obj)
    else if (st.fomap obj).isSome then some (checkScanned env h st obj)
    else if !env.objectNeedsScan obj then
      some (false, st.modify fun st => (st.insert obj).markOk obj)
    else
      match scan (st.modify fun st => (st.insert obj).push obj) with
      | none => none
      | some (true, st) => some (true, st)
      | some (false, st) => some (false, st.modify RSetHelper.pop)

/-- `RSetHelper::add`. -/
def add (o : Obj) (st : Transaction Obj Clo) : Transaction Obj Clo :=
  if (st.fomap o).isSome then st else { st with trOut := insert o st.trOut }

/-- One captured variable, with `RSectionScanHelper`: its destructor unlocks the variable when the
scan has found nothing. -/
def checkCaptured (env : ScanEnv Obj Con Clo)
    (check : Transaction Obj Clo → Obj → Option (Bool × Transaction Obj Clo))
    (st : Transaction Obj Clo) (v : Obj) : Option (Bool × Transaction Obj Clo) :=
  if !env.objectNeedsScan v then some (false, st)
  else if v ∈ st.held then check st v
  else
    match st.tryLock env v with
    | (true, st) => some (true, st)
    | (false, st) =>
      let size := st.order.length
      match check st v with
      | none => none
      | some (conflict, st) =>
        some (conflict, if st.order.length = size then st.unlock v else st.add v)

/-- `checkIntern`. The fuel bounds the depth of the recursion. -/
def check (env : ScanEnv Obj Con Clo) [DecidableEq Clo] (h : Heap Obj) :
    Nat → Transaction Obj Clo → Node Obj Con Clo → Option (Bool × Transaction Obj Clo)
  | 0, _, _ => none
  | fuel + 1, st, .object o => checkObject env h (scanAll (check env h fuel) (env.members o)) st o
  | fuel + 1, st, .container c =>
    if !env.containerNeedsScan c then some (false, st)
    else scanAll (check env h fuel) (env.contents c) st
  | fuel + 1, st, .closure c =>
    if !env.closureNeedsScan c then some (false, st)
    else if c ∈ st.closureSet then some (false, st)
    else
      scanAll (checkCaptured env fun st v => check env h fuel st (.object v)) (env.captured c)
        { st with closureSet := insert c st.closureSet }
  | _ + 1, st, .other => some (false, st)

/-! ### The ends of an attempt -/

/-- `r->pop()` in `rollback`: the set is deleted with its last element. -/
def popRSet (r : RSetId) (st : Transaction Obj Clo) : Transaction Obj Clo :=
  match st.sets r with
  | none => st
  | some R =>
    if R.pop.set = ∅ then
      { st with sets := Function.update st.sets r none, allocs := .release r :: st.allocs }
    else { st with sets := Function.update st.sets r (some R.pop) }

/-- The loop of `rollback` over `fomap`. -/
def rollbackEntry (st : Transaction Obj Clo) (o : Obj) : Transaction Obj Clo :=
  match (st.stat o).rset with
  | none => st.unlock o
  | some r => (st.popRSet r).unlock o

/-- `rollback`. The four containers are cleared that the source clears. -/
def rollback (st : Transaction Obj Clo) : Transaction Obj Clo :=
  let st := st.order.foldl rollbackEntry st
  let st := st.trOut.sort.foldl (fun st o => st.unlock o) st
  { st with fomap := fun _ => none, order := [], ovec := [], trOut := ∅, trInvalidate := ∅ }

/-- The result of an attempt. -/
inductive Result (Obj Clo : Type)
  | restart (st : Transaction Obj Clo)
  | done (h : HeapData Obj)

/-- One round of the loop of `RSetHelper::RSetHelper(RObject&)`, with the helper that the round
before has left. -/
def attempt (env : ScanEnv Obj Con Clo) [DecidableEq Clo] (h : Heap Obj) (fuel : Nat)
    (st : Transaction Obj Clo) (obj : Obj) : Option (Result Obj Clo) :=
  match check env h fuel (start h st) (.object obj) with
  | none => none
  | some (true, st) => some (.restart st.rollback)
  | some (false, st) =>
    some (.done (if env.isValid obj then st.toRSetHelper.commit h else h.toHeapData))

end Transaction

end Qore.Collector
