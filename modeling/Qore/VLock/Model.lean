import Mathlib.Data.Finset.Sort
import Mathlib.Logic.Function.Basic
import Qore.Lib.Lts

/-!
# `Qore.VLock.Model`: the locks of a program and the search for deadlocks

Any number of threads use any number of `Mutex`, `Gate` and `RWLock` objects. Each thread has a
`VLock`: the list of the locks that it holds and `waiting_on`, the lock that it waits for.
`VLock::waitOn` writes `waiting_on`, reads the `waiting_on` of each owner of the lock, and looks
for what it reads in its own list.

A step is what a thread does between two points where others can be seen. A call that does not
wait is one step, since it is made under the lock's `asl_lock`. A call that waits is

* `Pc.test`: the head of the loop in `grabImpl` and in `grab_read_lock_intern`,
* `Pc.store`, `Pc.load`, `Pc.search`: the steps of `waitOn`,
* `Pc.blocked`: inside the condition wait, which gives `asl_lock` back and may end at any time,
* `Pc.leave`: `asl_lock` is taken again, and `waiting_on` is still set.

A thread is a number, and so is a lock; `kind` says what the lock is. A function is `none` where
the code follows a pointer that is not set or where an assertion fails.
-/

set_option autoImplicit false

namespace Qore.VLock

/-- The classes of locks. -/
inductive Kind
  | mutex
  | gate
  | rwlock
  deriving DecidableEq

/-- `tid`: a thread, or one of the values of `lock_status_e`. -/
inductive Tid
  | deleted
  | unlocked
  | owner (t : Nat)
  deriving DecidableEq

/-- The read lock, and the write lock or the only lock. -/
inductive Mode
  | read
  | write
  deriving DecidableEq

/-- The fields of `AbstractSmartLock`, `VRMutex` (`count`) and `RWLock` (`tmap`, `vmap`,
`num_readers`), and the thread that has `asl_lock`. The maps are from threads; the `VLock` of a
thread is named by the thread. -/
structure Lock where
  tid : Tid
  vl : Option Nat
  count : Nat
  tmap : Nat → Option Nat
  vmap : Finset Nat
  numReaders : Int
  asl : Option Nat

/-- What a call wants: a lock, how often (a reader that returns from a condition wait takes all
its read locks back), and the timeout. -/
structure Job where
  mode : Mode
  times : Nat
  timeoutMs : Int

/-- The timeout that `VLock::waitOn` gets, as an `int`; 0 is no timeout. -/
def Job.limit (job : Job) : Int := job.timeoutMs.bmod (2 ^ 32)

/-- Where a thread is. -/
inductive Pc
  | idle
  | test (l : Nat) (job : Job) (waited : Bool)
  | store (l : Nat) (job : Job) (owners : List Nat)
  | load (l : Nat) (job : Job) (todo : List Nat)
  | search (l : Nat) (job : Job) (u : Nat) (found : Option Nat) (todo : List Nat)
  | blocked (l : Nat) (job : Job)
  | leave (l : Nat) (job : Job) (rc : Int)
  | condition (l : Nat) (mode : Mode) (times : Nat)

/-- A thread with its `VLock`. -/
structure Thread where
  list : List Nat
  waitingOn : Option Nat
  pc : Pc

/-- The locks and the threads. -/
structure State where
  lock : Nat → Lock
  thread : Nat → Thread

/-- The exceptions. -/
inductive Exception
  | lockTwice (t : Nat)
  | readLockInWriteLock (t : Nat)
  | readUnlockInWriteLock (t : Nat)
  | readUnlockNotHeld (t : Nat)
  | deleted (t : Nat)
  | exitDeleted (t : Nat)
  | notLocked (t : Nat)
  | heldBy (t u : Nat)
  | waitUnlocked
  | waitHeldBy (t u : Nat)
  | waitDeleted (t : Nat)
  | waitNotHeld (t : Nat)
  | cannotWait
  | deadlock (u t : Nat) (timeout : Bool)
  | terminated (t : Nat)
  | deletedWhileHolding (t : Nat)
  | deletedWhileHeldBy (t u : Nat)
  deriving DecidableEq

/-- What a step tells: nothing yet, 0, a count or -1 without an exception, or an exception. -/
inductive Out
  | none
  | ok
  | rc (n : Int)
  | raised (e : Exception)
  deriving DecidableEq

namespace State

/-- Unlocked locks and idle threads. -/
def init : State where
  lock := fun _ => { tid := .unlocked, vl := none, count := 0, tmap := fun _ => none, vmap := ∅,
                     numReaders := 0, asl := none }
  thread := fun _ => { list := [], waitingOn := none, pc := .idle }

/-- Change one lock. -/
def setLock (s : State) (l : Nat) (f : Lock → Lock) : State :=
  { s with lock := Function.update s.lock l (f (s.lock l)) }

/-- Change one thread. -/
def setThread (s : State) (t : Nat) (f : Thread → Thread) : State :=
  { s with thread := Function.update s.thread t (f (s.thread t)) }

/-- The thread goes on at another place. -/
def goto (s : State) (t : Nat) (pc : Pc) : State := s.setThread t fun th => { th with pc }

/-- Take or give back `asl_lock`. -/
def setAsl (s : State) (l : Nat) (asl : Option Nat) : State := s.setLock l fun k => { k with asl }

/-- `VLock::push`. -/
def push (s : State) (t l : Nat) : State := s.setThread t fun th => { th with list := th.list ++ [l] }

/-- `VLock::pop`, which takes the last entry of the lock. -/
def pop (s : State) (t l : Nat) : Option State :=
  if l ∈ (s.thread t).list then
    some (s.setThread t fun th => { th with list := (th.list.reverse.erase l).reverse })
  else none

/-! ### Taking and giving back -/

/-- `mark_and_push`. -/
def markAndPush (s : State) (t l : Nat) : State :=
  (s.push t l).setLock l fun k => { k with tid := .owner t, vl := some t }

/-- `release_and_signal`. -/
def releaseAndSignal (s : State) (l : Nat) : Option State := do
  let u ← (s.lock l).vl
  let s ← s.pop u l
  let tid := match (s.lock l).tid with
    | .owner _ => .unlocked
    | tid => tid
  return s.setLock l fun k => { k with tid, vl := none }

/-- `set_initial_read_lock_intern`. -/
def setInitialReadLock (s : State) (t l : Nat) : State :=
  (s.setLock l fun k =>
    { k with tmap := Function.update k.tmap t (some 1), vmap := insert t k.vmap }).push t l

/-- `mark_read_lock_intern`. -/
def markReadLock (s : State) (t l : Nat) : State :=
  let s := s.setLock l fun k => { k with numReaders := k.numReaders + 1 }
  match (s.lock l).tmap t with
  | none => s.setInitialReadLock t l
  | some n => s.setLock l fun k => { k with tmap := Function.update k.tmap t (some (n + 1)) }

/-- `mark_read_lock_intern`, several times. -/
def markReadLocks (t l : Nat) : Nat → State → State
  | 0, s => s
  | n + 1, s => markReadLocks t l n (s.markReadLock t l)

/-- `cleanup_read_lock_intern`, for the entry `n` of the thread in `tmap`. -/
def cleanupReadLock (s : State) (t l n : Nat) : Option State :=
  if n - 1 = 0 then do
    if t ∈ (s.lock l).vmap then
      let s ← s.pop t l
      return s.setLock l fun k =>
        { k with tmap := Function.update k.tmap t none, vmap := k.vmap.erase t }
    else none
  else some (s.setLock l fun k => { k with tmap := Function.update k.tmap t (some (n - 1)) })

/-- `release_read_lock_intern`, for the entry `n` of the thread in `tmap`. -/
def releaseReadLock (s : State) (t l n : Nat) : Option State :=
  (s.setLock l fun k => { k with numReaders := k.numReaders - 1 }).cleanupReadLock t l n

/-- The loop of `externWaitImpl` over the read locks of a thread. -/
def releaseReadLocks (t l : Nat) : Nat → State → Option State
  | 0, s => some s
  | n + 1, s => do
    let s ← s.releaseReadLock t l (n + 1)
    releaseReadLocks t l n s

/-! ### The loop of a call that may wait -/

/-- The call ends: `asl_lock` is given back. -/
def finish (s : State) (t l : Nat) : State := (s.setAsl l none).goto t .idle

/-- The owners that `waitOn` is called with: `vl` when `tid` is set, else `vmap`, in the order of
the map. -/
def owners (k : Lock) : Option (List Nat) :=
  match k.tid with
  | .owner _ => k.vl.map fun u => [u]
  | _ => some (k.vmap.sort (· ≤ ·))

/-- To `waitOn`. -/
def toWait (s : State) (t l : Nat) (job : Job) : Option (State × Out) := do
  let us ← owners (s.lock l)
  return (s.goto t (.store l job us), .none)

/-- `grabImpl` of `SmartMutex` in its loop, with `grab_intern`. -/
def testMutex (s : State) (t l : Nat) (job : Job) : Option (State × Out) :=
  match (s.lock l).tid with
  | .owner _ => s.toWait t l job
  | .deleted => some (s.finish t l, .raised (.deleted t))
  | .unlocked => some ((s.markAndPush t l).finish t l, .ok)

/-- `grabImpl` of `VRMutex`: the count is raised, and the first of a thread marks the lock. -/
def testGate (s : State) (t l : Nat) (job : Job) : Option (State × Out) :=
  let raised := s.setLock l fun k => { k with count := k.count + 1 }
  match (s.lock l).tid with
  | .deleted => some (s.finish t l, .raised (.deleted t))
  | .unlocked =>
    if (s.lock l).count = 0 then some ((raised.markAndPush t l).finish t l, .ok)
    else some (raised.finish t l, .rc (s.lock l).count)
  | .owner u =>
    if u = t then
      if (s.lock l).count = 0 then some ((raised.markAndPush t l).finish t l, .ok)
      else some (raised.finish t l, .rc (s.lock l).count)
    else s.toWait t l job

/-- `grabImpl` of `RWLock`. -/
def testWrite (s : State) (t l : Nat) (job : Job) : Option (State × Out) :=
  match (s.lock l).tid with
  | .owner _ => s.toWait t l job
  | .deleted => some (s.finish t l, .raised (.deleted t))
  | .unlocked =>
    if (s.lock l).numReaders ≠ 0 then s.toWait t l job
    else some ((s.markAndPush t l).finish t l, .ok)

/-- `grab_read_lock_intern`; after a wait it does not look for an entry in `tmap`. A thread that
comes back from a condition wait calls it once for each read lock. -/
def testRead (s : State) (t l : Nat) (job : Job) (waited : Bool) : Option (State × Out) :=
  match (s.lock l).tid with
  | .owner _ => s.toWait t l job
  | .deleted => some (s.finish t l, .raised (.deleted t))
  | .unlocked =>
    let first := if waited then
        (s.setLock l fun k => { k with numReaders := k.numReaders + 1 }).setInitialReadLock t l
      else s.markReadLock t l
    some ((markReadLocks t l (job.times - 1) first).finish t l, .ok)

/-- The head of the loop. -/
def test (kind : Kind) (s : State) (t l : Nat) (job : Job) (waited : Bool) : Option (State × Out) :=
  match kind, job.mode with
  | .mutex, _ => s.testMutex t l job
  | .gate, _ => s.testGate t l job
  | .rwlock, .write => s.testWrite t l job
  | .rwlock, .read => s.testRead t l job waited

/-- The next step of a call that is under way. -/
def advance (kind : Nat → Kind) (s : State) (t : Nat) : Option (State × Out) :=
  match (s.thread t).pc with
  | .test l job waited => s.test (kind l) t l job waited
  | .store l job us =>
    -- `assert(!waiting_on.load())`
    match (s.thread t).waitingOn with
    | some _ => none
    | none => some (s.setThread t fun th => { th with waitingOn := some l, pc := .load l job us }, .none)
  | .load l job (u :: todo) =>
    some (s.goto t (.search l job u (s.thread u).waitingOn todo), .none)
  | .load l job [] => some ((s.setAsl l none).goto t (.blocked l job), .none)
  | .search l job u found todo =>
    match found with
    | none => some (s.goto t (.load l job todo), .none)
    | some g =>
      if g ∈ (s.thread t).list then
        some (s.goto t (.leave l job (-1)), .raised (.deadlock u t (decide (job.limit ≠ 0))))
      else some (s.goto t (.load l job todo), .none)
  | .leave l job rc =>
    let s := s.setThread t fun th => { th with waitingOn := none }
    if rc ≠ 0 then some (s.finish t l, .rc (-1)) else some (s.goto t (.test l job true), .none)
  | _ => none

/-! ### The calls -/

/-- A thread that is in no call, and a lock whose `asl_lock` is free. -/
def Free (s : State) (t l : Nat) : Prop :=
  match (s.thread t).pc with
  | .idle => (s.lock l).asl = none
  | _ => False

instance (s : State) (t l : Nat) : Decidable (s.Free t l) := by
  unfold Free
  split <;> infer_instance

/-- The start of a call that may wait. -/
def enter (s : State) (t l : Nat) (job : Job) : State :=
  (s.setAsl l (some t)).goto t (.test l job false)

/-- `grab`. -/
def grab (kind : Kind) (s : State) (t l : Nat) (timeoutMs : Int) : State × Out :=
  match kind with
  | .gate => (s.enter t l ⟨.write, 1, timeoutMs⟩, .none)
  | _ =>
    if (s.lock l).tid = .owner t then (s, .raised (.lockTwice t))
    else (s.enter t l ⟨.write, 1, timeoutMs⟩, .none)

/-- `readLock`. -/
def readLock (s : State) (t l : Nat) (timeoutMs : Int) : State × Out :=
  if (s.lock l).tid = .owner t then (s, .raised (.readLockInWriteLock t))
  else (s.enter t l ⟨.read, 1, timeoutMs⟩, .none)

/-- `tryGrab`. -/
def tryGrab (kind : Kind) (s : State) (t l : Nat) : State × Out :=
  let k := s.lock l
  match kind with
  | .mutex => if k.tid ≠ .unlocked then (s, .rc (-1)) else (s.markAndPush t l, .ok)
  | .gate =>
    if k.tid ≠ .owner t ∧ k.tid ≠ .unlocked then (s, .rc (-1))
    else
      let raised := s.setLock l fun k => { k with count := k.count + 1 }
      if k.count = 0 then (raised.markAndPush t l, .ok) else (raised, .rc k.count)
  | .rwlock =>
    if k.tid ≠ .unlocked ∨ k.numReaders ≠ 0 then (s, .rc (-1)) else (s.markAndPush t l, .ok)

/-- `tryReadLock`. -/
def tryReadLock (s : State) (t l : Nat) : State × Out :=
  if (s.lock l).tid ≠ .unlocked then (s, .rc (-1)) else (s.markReadLock t l, .ok)

/-- The end of a release of a gate by its owner, whose count is not 0: the lock is released with
the last one. -/
def lowerCount (s : State) (l : Nat) : Option (State × Out) :=
  match (s.lock l).count with
  | 0 => none
  | 1 => do
    let s ← (s.setLock l fun k => { k with count := 0 }).releaseAndSignal l
    return (s, .ok)
  | n + 1 => some (s.setLock l fun k => { k with count := n }, .rc (-1))

/-- `release(ExceptionSink*)`. -/
def release (kind : Kind) (s : State) (t l : Nat) : Option (State × Out) :=
  match (s.lock l).tid with
  | .unlocked => some (s, .raised (.notLocked t))
  | .deleted =>
    match kind with
    | .mutex => some (s, .raised (.notLocked t))
    | .gate => some (s, .raised (.exitDeleted t))
    | .rwlock => some (s, .raised (.deleted t))
  | .owner u =>
    if u ≠ t then some (s, .raised (.heldBy t u))
    else
      match kind with
      | .gate => s.lowerCount l
      | _ => do
        let s ← s.releaseAndSignal l
        return (s, .ok)

/-- `release()`, which gives back the lock of any thread, and `VRMutex::exit`. -/
def releaseAny (kind : Kind) (s : State) (t l : Nat) : Option (State × Out) :=
  match kind with
  | .mutex =>
    match (s.lock l).tid with
    | .owner _ => do
      let s ← s.releaseAndSignal l
      return (s, .ok)
    | _ => some (s, .rc (-1))
  | .gate => if (s.lock l).tid = .owner t then s.lowerCount l else none
  | .rwlock =>
    if (s.lock l).numReaders ≠ 0 then do
      let n ← (s.lock l).tmap t
      let s ← s.releaseReadLock t l n
      return (s, .rc (-1))
    else
      match (s.lock l).tid with
      | .owner _ => do
        let s ← s.releaseAndSignal l
        return (s, .ok)
      | _ => some (s, .rc (-1))

/-- `readUnlock`. -/
def readUnlock (s : State) (t l : Nat) : Option (State × Out) :=
  if (s.lock l).tid = .owner t then some (s, .raised (.readUnlockInWriteLock t))
  else if (s.lock l).tid = .deleted then some (s, .raised (.deleted t))
  else
    match (s.lock l).tmap t with
    | none => some (s, .raised (.readUnlockNotHeld t))
    | some n => do
      let s ← s.releaseReadLock t l n
      return (s, .ok)

/-- `externWaitImpl` up to the condition wait: all the locks of the thread are released. -/
def externWait (kind : Kind) (s : State) (t l : Nat) : Option (State × Out) :=
  match kind with
  | .gate => some (s, .raised .cannotWait)
  | _ =>
    if (s.lock l).tid = .owner t then do
      let s ← s.releaseAndSignal l
      return (s.goto t (.condition l .write 1), .none)
    else if kind = .mutex then
      match (s.lock l).tid with
      | .owner u => some (s, .raised (.waitHeldBy t u))
      | _ => some (s, .raised .waitUnlocked)
    else if (s.lock l).tid = .deleted then some (s, .raised (.waitDeleted t))
    else
      match (s.lock l).tmap t with
      | none => some (s, .raised (.waitNotHeld t))
      | some n => do
        let s ← releaseReadLocks t l n s
        return (s.goto t (.condition l .read n), .none)

/-- `cleanup`: the thread exits with the lock in its thread resource list. -/
def cleanup (kind : Kind) (s : State) (t l : Nat) : Option (State × Out) :=
  match kind with
  | .rwlock =>
    if (s.lock l).numReaders ≠ 0 then
      if t ∈ (s.lock l).vmap then do
        let s ← s.pop t l
        let n ← (s.lock l).tmap t
        return (s.setLock l fun k => { k with
          vmap := k.vmap.erase t, tmap := Function.update k.tmap t none,
          numReaders := k.numReaders - n }, .raised (.terminated t))
      else none
    else
      match (s.lock l).tid with
      | .owner u =>
        if u ≠ t then none
        else do
          let s ← s.releaseAndSignal l
          return (s, .raised (.terminated t))
      | _ => some (s, .ok)
  | _ =>
    if (s.lock l).tid = .owner t then do
      let s ← s.releaseAndSignal l
      return (if kind = .gate then s.setLock l fun k => { k with count := 0 } else s,
        .raised (.terminated t))
    else some (s, .ok)

/-- The loop of `RWLock::destructorImpl` over the readers. -/
def popAll (l : Nat) : List Nat → State → Option State
  | [], s => some s
  | u :: us, s => do
    let s ← s.pop u l
    popAll l us s

/-- `destructor`. -/
def destructor (s : State) (t l : Nat) : Option (State × Out) := do
  let s ← popAll l ((s.lock l).vmap.sort (· ≤ ·)) s
  let s := s.setLock l fun k => { k with numReaders := 0, vmap := ∅, tmap := fun _ => none }
  match (s.lock l).tid with
  | .owner u =>
    let v ← (s.lock l).vl
    let s ← s.pop v l
    return (s.setLock l fun k => { k with tid := .deleted },
      .raised (if u = t then .deletedWhileHolding t else .deletedWhileHeldBy t u))
  | _ => return (s.setLock l fun k => { k with tid := .deleted }, .ok)

end State

/-- The steps of the threads. -/
inductive Action
  | grab (t l : Nat) (timeoutMs : Int)
  | readLock (t l : Nat) (timeoutMs : Int)
  | tryGrab (t l : Nat)
  | tryReadLock (t l : Nat)
  | release (t l : Nat)
  | releaseAny (t l : Nat)
  | readUnlock (t l : Nat)
  | externWait (t l : Nat)
  | cleanup (t l : Nat)
  | destructor (t l : Nat)
  /-- The next step of a call that is under way. -/
  | advance (t : Nat)
  /-- The condition wait of `waitOn` ends, with a signal or with a timeout. -/
  | wake (t : Nat) (timedOut : Bool)
  /-- The wait on a `Condition` ends. -/
  | condWake (t : Nat)

namespace State

/-- One step. The read lock is only there for an `RWLock`. -/
def step (kind : Nat → Kind) (s : State) : Action → Option (State × Out)
  | .grab t l timeoutMs => if s.Free t l then some (s.grab (kind l) t l timeoutMs) else none
  | .readLock t l timeoutMs =>
    if s.Free t l ∧ kind l = .rwlock then some (s.readLock t l timeoutMs) else none
  | .tryGrab t l => if s.Free t l then some (s.tryGrab (kind l) t l) else none
  | .tryReadLock t l =>
    if s.Free t l ∧ kind l = .rwlock then some (s.tryReadLock t l) else none
  | .release t l => if s.Free t l then s.release (kind l) t l else none
  | .releaseAny t l => if s.Free t l then s.releaseAny (kind l) t l else none
  | .readUnlock t l => if s.Free t l ∧ kind l = .rwlock then s.readUnlock t l else none
  | .externWait t l => if s.Free t l then s.externWait (kind l) t l else none
  | .cleanup t l => if s.Free t l then s.cleanup (kind l) t l else none
  | .destructor t l => if s.Free t l then s.destructor t l else none
  | .advance t => s.advance kind t
  | .wake t timedOut =>
    match (s.thread t).pc with
    | .blocked l job =>
      if (s.lock l).asl ≠ none then none
      else if timedOut ∧ job.limit ≤ 0 then none
      else some ((s.setAsl l (some t)).goto t (.leave l job (if timedOut then -1 else 0)), .none)
    | _ => none
  | .condWake t =>
    match (s.thread t).pc with
    | .condition l mode times =>
      if (s.lock l).asl ≠ none then none
      else some (s.enter t l ⟨mode, times, 0⟩, .none)
    | _ => none

end State

end Qore.VLock
