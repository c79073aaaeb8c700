import Mathlib
import Qore.Lib.Lts
import Qore.Lib.Monitor

/-!
# `Qore.SmartLock.Model`: the read-write lock

The model of `lib/RWLock.cpp` and of the parts of `lib/AbstractSmartLock.cpp` that it inherits.

* `RWLock` has the fields of both classes: `tid` and `vl` for the write side, `tmap`, `vmap`
  and `numReaders` for the read side, the counters of waiting threads, and `cmap`, the condition
  variables that threads wait on with this lock.
* `State` adds the threads inside a condition wait (`Qore.Lib.Monitor`) and the thread resource
  lists: `resources t` says that the lock is registered in thread `t`, so that `cleanup` is run
  when the thread exits.
* `step` performs one critical section of `asl_lock`. A call that waits is continued by
  `resume`.

A `VLock` is named by its thread. Its search for a deadlock also looks at other locks, so its
answer is a part of the action: the thread with which the caller would deadlock. The deadlock
of a reader that asks for the write lock is found in this lock alone.
-/

set_option autoImplicit false

namespace Qore.SmartLock

open Qore.Lib
open Qore.Lib.Monitor (Wake Wait Threads signal broadcast expire)

/-- `tid`: a thread, or one of the values of `lock_status_e`. -/
inductive Tid (T : Type)
  | deleted
  | unlocked
  | owner (t : T)
  deriving DecidableEq

/-- The read lock and the write lock. -/
inductive Kind
  | read
  | write
  deriving DecidableEq

/-- The condition variables: `read`, `asl_cond`, and those of `Condition` objects. -/
inductive Cond (C : Type)
  | read
  | write
  | user (c : C)
  deriving DecidableEq

/-- What a waiting thread is doing: a lock call, the wait on a `Condition` with the lock
released, or the return to the lock after such a wait. A reader has `count` read locks, and
`left` of them are still to be taken back. -/
inductive Job (C : Type)
  | lock (kind : Kind) (timeoutMs : Int)
  | wait (kind : Kind) (count : Nat) (c : C) (timeoutMs : Int)
  | regrab (kind : Kind) (count left : Nat) (timedOut : Bool)

/-- `class RWLock`. -/
structure RWLock (T C : Type) where
  tid : Tid T
  vl : Option T
  waiting : Nat
  readRequests : Nat
  preferWriters : Bool
  tmap : T → Option Nat
  vmap : T → Option T
  numReaders : Int
  cmap : C → Option Nat

/-- The lock, the waiting threads, and the thread resource lists. -/
structure State (T C : Type) where
  lock : RWLock T C
  threads : Threads T (Cond C) (Job C)
  resources : T → Bool

/-- The exceptions. -/
inductive Exception (T : Type)
  | readLockInWriteLock (t : T)
  | readUnlockInWriteLock (t : T)
  | readUnlockNotHeld (t : T)
  | writeLockTwice (t : T)
  | writeUnlockNotHeld (t : T)
  | writeUnlockHeldBy (t owner : T)
  | deletedInOtherThread
  | waitDeleted (t : T)
  | waitNotHeld (t : T)
  | deadlock (other t : T) (timeout : Bool)
  | terminated (t : T)
  | deletedInWait (t : T)
  | deletedWhileHolding (t : T)
  | deletedWhileHeldBy (t owner : T)

/-- What a call returns: 0, -1 without an exception from a try or a timeout, the return of a
condition wait with the lock taken back, or exceptions. -/
inductive Outcome (T : Type)
  | ok
  | unavailable
  | timedOut
  | reacquired (kind : Kind) (count : Nat) (timedOut : Bool)
  | raised (es : List (Exception T))

/-- The calls. -/
inductive Op
  | readLock
  | writeLock
  | tryReadLock
  | tryWriteLock
  | readUnlock
  | writeUnlock
  | wait
  | signal
  | cleanup
  | destructor
  deriving DecidableEq

/-- A critical section is a part of a call of a thread, which returns or not. -/
structure Label (T : Type) where
  thread : T
  op : Op
  result : Option (Outcome T)

/-- `RWLock(bool p)`, and no thread in a call. -/
def State.init (T C : Type) (preferWriters : Bool) : State T C :=
  ⟨⟨.unlocked, none, 0, 0, preferWriters, fun _ => none, fun _ => none, 0, fun _ => none⟩,
    fun _ => none, fun _ => false⟩

/-- The call that a waiting thread is in. -/
def Job.op {C : Type} : Job C → Op
  | .lock .read _ => .readLock
  | .lock .write _ => .writeLock
  | .wait _ _ _ _ => .wait
  | .regrab _ _ _ _ => .wait

/-- The timeout that `VLock::waitOn` gets, as an `int`. -/
def Job.waitOnTimeout {C : Type} : Job C → Int
  | .lock _ timeoutMs => timeoutMs.bmod (2 ^ 32)
  | _ => 0

/-- The wait of the thread has a time limit. `QoreCondition::wait2` waits without a limit for a
negative timeout. In the wait of a reader on a `Condition` the timeout is an `int` again. -/
def Job.canExpire {C : Type} : Job C → Bool
  | .lock _ timeoutMs => decide (0 < timeoutMs.bmod (2 ^ 32))
  | .wait .write _ _ timeoutMs => decide (0 < timeoutMs)
  | .wait .read _ _ timeoutMs => decide (timeoutMs ≠ 0 ∧ 0 ≤ timeoutMs.bmod (2 ^ 32))
  | .regrab _ _ _ _ => false

section
variable {T C : Type} [DecidableEq T] [DecidableEq C]

/-! ### The read side -/

/-- `set_initial_read_lock_intern`. -/
def setInitialReadLockIntern (t : T) (s : State T C) : State T C :=
  { s with
    lock := { s.lock with
      tmap := Function.update s.lock.tmap t (some 1)
      vmap := Function.update s.lock.vmap t (some t) }
    resources := Function.update s.resources t true }

/-- `mark_read_lock_intern`. -/
def markReadLockIntern (t : T) (s : State T C) : State T C :=
  let s := { s with lock := { s.lock with numReaders := s.lock.numReaders + 1 } }
  match s.lock.tmap t with
  | none => setInitialReadLockIntern t s
  | some n => { s with lock := { s.lock with tmap := Function.update s.lock.tmap t (some (n + 1)) } }

/-- `cleanup_read_lock_intern`, for the entry `n` of the thread in `tmap`: the last read lock
was released, or not. -/
def cleanupReadLockIntern (t : T) (n : Nat) (lock : RWLock T C) : RWLock T C × Bool :=
  if n - 1 = 0 then
    ({ lock with tmap := Function.update lock.tmap t none, vmap := Function.update lock.vmap t none },
      true)
  else ({ lock with tmap := Function.update lock.tmap t (some (n - 1)) }, false)

/-- How a lock function ends: the lock is taken, the thread waits, or there is an exception. -/
inductive Grab (T : Type)
  | ok
  | block
  | fail (e : Exception T)

/-- The thread waits on a condition variable. -/
def blockOn (t : T) (c : Cond C) (job : Job C) (s : State T C) : State T C :=
  { s with threads := Function.update s.threads t (some ⟨c, job, .blocked⟩) }

/-- `grab_read_lock_intern`. `waited` says that the thread has been in the loop, which then ends
with `set_initial_read_lock_intern`. `++readRequests` stays when the thread waits. -/
def grabReadLockIntern (t : T) (job : Job C) (waited : Bool) (deadlock : Option T)
    (s : State T C) : State T C × Grab T :=
  match s.lock.tid with
  | .owner _ =>
    match deadlock with
    | some u => (s, .fail (.deadlock u t (decide (job.waitOnTimeout ≠ 0))))
    | none =>
      (blockOn t .read job { s with lock := { s.lock with readRequests := s.lock.readRequests + 1 } },
        .block)
  | .deleted => (s, .fail .deletedInOtherThread)
  | .unlocked =>
    if waited then
      (setInitialReadLockIntern t
        { s with lock := { s.lock with numReaders := s.lock.numReaders + 1 } }, .ok)
    else (markReadLockIntern t s, .ok)

/-! ### The write side -/

/-- `grabImpl` without its first check: the head of the loop. `++waiting` stays when the thread
waits. A thread in `vmap` waits for itself. -/
def grabImpl (t : T) (job : Job C) (deadlock : Option T) (s : State T C) : State T C × Grab T :=
  let timeout := decide (job.waitOnTimeout ≠ 0)
  let wait : State T C × Grab T :=
    (blockOn t .write job { s with lock := { s.lock with waiting := s.lock.waiting + 1 } }, .block)
  match s.lock.tid with
  | .owner _ =>
    match deadlock with
    | some u => (s, .fail (.deadlock u t timeout))
    | none => wait
  | .deleted => (s, .fail .deletedInOtherThread)
  | .unlocked =>
    if s.lock.numReaders ≠ 0 then
      match deadlock with
      | some u => (s, .fail (.deadlock u t timeout))
      | none => if (s.lock.vmap t).isSome then (s, .fail (.deadlock t t timeout)) else wait
    else (s, .ok)

/-- `grab_intern`. -/
def grabIntern (t : T) (s : State T C) : State T C :=
  { s with
    lock := { s.lock with tid := .owner t, vl := some t }
    resources := Function.update s.resources t true }

/-- The lock functions with what they do when they succeed. -/
def acquire (kind : Kind) (t : T) (job : Job C) (waited : Bool) (deadlock : Option T)
    (s : State T C) : State T C × Grab T :=
  match kind with
  | .read => grabReadLockIntern t job waited deadlock s
  | .write =>
    match grabImpl t job deadlock s with
    | (s, .ok) => (grabIntern t s, .ok)
    | r => r

/-- What a call returns at the end of a lock function. -/
def answer (t : T) (op : Op) : State T C × Grab T → State T C × Label T
  | (s, .ok) => (s, ⟨t, op, some .ok⟩)
  | (s, .block) => (s, ⟨t, op, none⟩)
  | (s, .fail e) => (s, ⟨t, op, some (.raised [e])⟩)

variable [Fintype T]

/-- `signal` on a condition variable when its counter is not 0. -/
def signalIf (n : Nat) (c : Cond C) (choice : Option T) (thr : Threads T (Cond C) (Job C)) :
    Option (Threads T (Cond C) (Job C)) :=
  if n ≠ 0 then signal c choice thr else some thr

/-- `broadcast` on a condition variable when its counter is not 0. -/
def broadcastIf (n : Nat) (c : Cond C) (thr : Threads T (Cond C) (Job C)) :
    Threads T (Cond C) (Job C) :=
  if n ≠ 0 then broadcast c thr else thr

/-- `signalImpl`. -/
def signalImpl (lock : RWLock T C) (choice : Option T) (thr : Threads T (Cond C) (Job C)) :
    Option (Threads T (Cond C) (Job C)) :=
  if lock.preferWriters then
    if lock.waiting ≠ 0 then signal .write choice thr
    else some (broadcastIf lock.readRequests .read thr)
  else if lock.readRequests ≠ 0 then some (broadcast .read thr)
  else signalIf lock.waiting .write choice thr

/-- `release_and_signal`. -/
def releaseAndSignal (choice : Option T) (s : State T C) : Option (State T C) :=
  let tid := match s.lock.tid with
    | .owner _ => .unlocked
    | tid => tid
  let lock := { s.lock with tid := tid, vl := none }
  match signalImpl lock choice s.threads with
  | none => none
  | some thr => some { s with lock := lock, threads := thr }

/-- `release_intern`. -/
def releaseIntern (t : T) (choice : Option T) (s : State T C) : Option (State T C) :=
  releaseAndSignal choice { s with resources := Function.update s.resources t false }

/-- `release_read_lock_intern`, for the entry `n` of the thread in `tmap`. -/
def releaseReadLockIntern (t : T) (n : Nat) (choice : Option T) (s : State T C) :
    Option (State T C) :=
  let lock := { s.lock with numReaders := s.lock.numReaders - 1 }
  let thr := if lock.numReaders = 0 then signalIf lock.waiting .write choice s.threads
    else some s.threads
  match thr with
  | none => none
  | some thr =>
    let (lock, last) := cleanupReadLockIntern t n lock
    some { lock := lock, threads := thr,
           resources := if last then Function.update s.resources t false else s.resources }

/-- The loop of `externWaitImpl` that releases the read locks of a thread. -/
def releaseReadLocks (t : T) (choice : Option T) : Nat → State T C → Option (State T C)
  | 0, s => some s
  | n + 1, s =>
    match releaseReadLockIntern t (n + 1) choice s with
    | none => none
    | some s => releaseReadLocks t choice n s

/-! ### The calls -/

/-- `readLock`. -/
def readLock (t : T) (timeoutMs : Int) (deadlock : Option T) (s : State T C) :
    State T C × Label T :=
  if s.lock.tid = .owner t then (s, ⟨t, .readLock, some (.raised [.readLockInWriteLock t])⟩)
  else answer t .readLock (acquire .read t (.lock .read timeoutMs) false deadlock s)

/-- `grab`. -/
def writeLock (t : T) (timeoutMs : Int) (deadlock : Option T) (s : State T C) :
    State T C × Label T :=
  if s.lock.tid = .owner t then (s, ⟨t, .writeLock, some (.raised [.writeLockTwice t])⟩)
  else answer t .writeLock (acquire .write t (.lock .write timeoutMs) false deadlock s)

/-- `tryReadLock`. -/
def tryReadLock (t : T) (s : State T C) : State T C × Label T :=
  if s.lock.tid ≠ .unlocked then (s, ⟨t, .tryReadLock, some .unavailable⟩)
  else (markReadLockIntern t s, ⟨t, .tryReadLock, some .ok⟩)

/-- `tryGrab`. -/
def tryWriteLock (t : T) (s : State T C) : State T C × Label T :=
  if s.lock.tid ≠ .unlocked ∨ s.lock.numReaders ≠ 0 then
    (s, ⟨t, .tryWriteLock, some .unavailable⟩)
  else (grabIntern t s, ⟨t, .tryWriteLock, some .ok⟩)

/-- `readUnlock`. -/
def readUnlock (t : T) (choice : Option T) (s : State T C) : Option (State T C × Label T) :=
  let fail (e : Exception T) := some (s, (⟨t, .readUnlock, some (.raised [e])⟩ : Label T))
  if s.lock.tid = .owner t then fail (.readUnlockInWriteLock t)
  else if s.lock.tid = .deleted then fail .deletedInOtherThread
  else
    match s.lock.tmap t with
    | none => fail (.readUnlockNotHeld t)
    | some n =>
      match releaseReadLockIntern t n choice s with
      | none => none
      | some s => some (s, ⟨t, .readUnlock, some .ok⟩)

/-- `release(ExceptionSink*)`. -/
def writeUnlock (t : T) (choice : Option T) (s : State T C) : Option (State T C × Label T) :=
  let fail (e : Exception T) := some (s, (⟨t, .writeUnlock, some (.raised [e])⟩ : Label T))
  match s.lock.tid with
  | .deleted => fail .deletedInOtherThread
  | .unlocked => fail (.writeUnlockNotHeld t)
  | .owner u =>
    if u ≠ t then fail (.writeUnlockHeldBy t u)
    else
      match releaseIntern t choice s with
      | none => none
      | some s => some (s, ⟨t, .writeUnlock, some .ok⟩)

/-- An entry of `cmap` is added or counted up. -/
def incCond (c : C) (cmap : C → Option Nat) : C → Option Nat :=
  Function.update cmap c (some (match cmap c with | none => 1 | some n => n + 1))

/-- An entry of `cmap` is counted down and erased at 0. -/
def decCond (c : C) (cmap : C → Option Nat) : C → Option Nat :=
  match cmap c with
  | none => cmap
  | some n => Function.update cmap c (if n - 1 = 0 then none else some (n - 1))

/-- `externWaitImpl` up to the wait. -/
def externWait (t : T) (c : C) (timeoutMs : Int) (choice : Option T) (s : State T C) :
    Option (State T C × Label T) :=
  let fail (e : Exception T) := some (s, (⟨t, .wait, some (.raised [e])⟩ : Label T))
  let counted : State T C := { s with lock := { s.lock with cmap := incCond c s.lock.cmap } }
  if s.lock.tid = .owner t then
    match releaseIntern t choice counted with
    | none => none
    | some s => some (blockOn t (.user c) (.wait .write 1 c timeoutMs) s, ⟨t, .wait, none⟩)
  else if s.lock.tid = .deleted then fail (.waitDeleted t)
  else
    match s.lock.tmap t with
    | none => fail (.waitNotHeld t)
    | some n =>
      match releaseReadLocks t choice n counted with
      | none => none
      | some s => some (blockOn t (.user c) (.wait .read n c timeoutMs) s, ⟨t, .wait, none⟩)

/-- The loop of `externWaitImpl` that takes the read locks of a thread back. -/
def regrabReadLocks (t : T) (count : Nat) (timedOut waited : Bool) (deadlock : Option T) :
    Nat → State T C → State T C × Label T
  | 0, s => (s, ⟨t, .wait, some (.reacquired .read count timedOut)⟩)
  | left + 1, s =>
    match acquire .read t (.regrab .read count (left + 1) timedOut) waited deadlock s with
    | (s, .ok) => regrabReadLocks t count timedOut false deadlock left s
    | r => answer t .wait r

/-- `externWaitImpl` from `grabImpl` on. -/
def regrabWriteLock (t : T) (timedOut waited : Bool) (deadlock : Option T) (s : State T C) :
    State T C × Label T :=
  match acquire .write t (.regrab .write 1 1 timedOut) waited deadlock s with
  | (s, .ok) => (s, ⟨t, .wait, some (.reacquired .write 1 timedOut)⟩)
  | r => answer t .wait r

/-- The end of a condition wait: the counters. -/
def leave (t : T) (c : Cond C) (s : State T C) : State T C :=
  let s := { s with threads := Function.update s.threads t none }
  match c with
  | .read => { s with lock := { s.lock with readRequests := s.lock.readRequests - 1 } }
  | .write => { s with lock := { s.lock with waiting := s.lock.waiting - 1 } }
  | .user c => { s with lock := { s.lock with cmap := decCond c s.lock.cmap } }

/-- The rest of a call after its condition wait. -/
def resume (t : T) (deadlock : Option T) (s : State T C) : Option (State T C × Label T) :=
  match s.threads t with
  | none => none
  | some w =>
    if w.wake = .blocked then none
    else
      let timedOut := decide (w.wake = .timedOut)
      let s := leave t w.cond s
      match w.job with
      | .lock kind timeoutMs =>
        if timedOut then some (s, ⟨t, w.job.op, some .timedOut⟩)
        else some (answer t w.job.op (acquire kind t (.lock kind timeoutMs) true deadlock s))
      | .wait .write _ _ _ => some (regrabWriteLock t timedOut false deadlock s)
      | .wait .read count _ _ => some (regrabReadLocks t count timedOut false deadlock count s)
      | .regrab .write _ _ rc => some (regrabWriteLock t rc true deadlock s)
      | .regrab .read count left rc => some (regrabReadLocks t count rc true deadlock left s)

/-- `cleanup` and `cleanupImpl`: the thread exits with the lock in its thread resource list. -/
def cleanup (t : T) (choice : Option T) (s : State T C) : Option (State T C × Label T) :=
  if s.resources t then
    let s := { s with resources := Function.update s.resources t false }
    let done (s : State T C) := some (s, (⟨t, .cleanup, some (.raised [.terminated t])⟩ : Label T))
    if s.lock.numReaders ≠ 0 then
      match s.lock.vmap t, s.lock.tmap t with
      | some _, some n =>
        let lock := { s.lock with numReaders := s.lock.numReaders - n }
        let thr := if lock.numReaders = 0 then signalIf lock.waiting .write choice s.threads
          else some s.threads
        match thr with
        | none => none
        | some thr =>
          done { s with
            lock := { lock with
              vmap := Function.update lock.vmap t none
              tmap := Function.update lock.tmap t none }
            threads := thr }
      | _, _ => none
    else
      match s.lock.tid with
      | .owner _ =>
        let lock := { s.lock with tid := .unlocked, vl := none }
        match signalImpl lock choice s.threads with
        | none => none
        | some thr => done { s with lock := lock, threads := thr }
      | _ => some (s, ⟨t, .cleanup, some .ok⟩)
  else none

variable [Fintype C]

/-- The broadcast of `destructorImpl` on the condition variables in `cmap`. -/
def broadcastConds (cmap : C → Option Nat) (thr : Threads T (Cond C) (Job C)) :
    Threads T (Cond C) (Job C) := fun t =>
  (thr t).map fun w =>
    match w.cond with
    | .user c => if (cmap c).isSome ∧ w.wake = .blocked then { w with wake := .signalled } else w
    | _ => w

/-- `destructor` and `destructorImpl`. -/
def destructor (t : T) (s : State T C) : State T C × Label T :=
  let inWait := decide (∃ c, (s.lock.cmap c).isSome)
  let thr := if inWait then broadcastConds s.lock.cmap s.threads else s.threads
  let thr := if s.lock.numReaders ≠ 0 then broadcast .write thr else thr
  let es : List (Exception T) := if inWait then [.deletedInWait t] else []
  let lock := { s.lock with numReaders := 0, vmap := fun _ => none, tmap := fun _ => none }
  match s.lock.tid with
  | .owner u =>
    let e : Exception T := if t = u then .deletedWhileHolding t else .deletedWhileHeldBy t u
    ({ lock := { lock with tid := .deleted }
       threads := broadcastIf lock.readRequests .read (broadcastIf lock.waiting .write thr)
       resources := if t = u then Function.update s.resources t false else s.resources },
      ⟨t, .destructor, some (.raised (es ++ [e]))⟩)
  | _ =>
    ({ s with lock := { lock with tid := .deleted }, threads := thr },
      ⟨t, .destructor, some (if es.isEmpty then .ok else .raised es)⟩)

/-- The critical sections of the lock, the expiry of a wait, and the calls of `signal` and
`broadcast` of a `Condition`. -/
inductive Action (T C : Type)
  | readLock (t : T) (timeoutMs : Int) (deadlock : Option T)
  | writeLock (t : T) (timeoutMs : Int) (deadlock : Option T)
  | tryReadLock (t : T)
  | tryWriteLock (t : T)
  | readUnlock (t : T) (choice : Option T)
  | writeUnlock (t : T) (choice : Option T)
  | wait (t : T) (c : C) (timeoutMs : Int) (choice : Option T)
  | resume (t : T) (deadlock : Option T)
  | expire (t : T)
  | signal (t : T) (c : C) (choice : Option T)
  | broadcast (t : T) (c : C)
  | cleanup (t : T) (choice : Option T)
  | destructor (t : T)

/-- The thread that acts. -/
def Action.thread : Action T C → T
  | .readLock t _ _ => t
  | .writeLock t _ _ => t
  | .tryReadLock t => t
  | .tryWriteLock t => t
  | .readUnlock t _ => t
  | .writeUnlock t _ => t
  | .wait t _ _ _ => t
  | .resume t _ => t
  | .expire t => t
  | .signal t _ _ => t
  | .broadcast t _ => t
  | .cleanup t _ => t
  | .destructor t => t

/-- One critical section. A thread inside a condition wait does nothing else. -/
def step (s : State T C) (a : Action T C) : Option (State T C × Label T) :=
  match a with
  | .resume t deadlock => resume t deadlock s
  | .expire t =>
    match s.threads t with
    | none => none
    | some w =>
      if w.job.canExpire then
        match expire t s.threads with
        | none => none
        | some thr => some ({ s with threads := thr }, ⟨t, w.job.op, none⟩)
      else none
  | _ =>
    if (s.threads a.thread).isSome then none
    else
      match a with
      | .readLock t timeoutMs deadlock => some (readLock t timeoutMs deadlock s)
      | .writeLock t timeoutMs deadlock => some (writeLock t timeoutMs deadlock s)
      | .tryReadLock t => some (tryReadLock t s)
      | .tryWriteLock t => some (tryWriteLock t s)
      | .readUnlock t choice => readUnlock t choice s
      | .writeUnlock t choice => writeUnlock t choice s
      | .wait t c timeoutMs choice => externWait t c timeoutMs choice s
      | .signal t c choice =>
        match Monitor.signal (.user c) choice s.threads with
        | none => none
        | some thr => some ({ s with threads := thr }, ⟨t, .signal, some .ok⟩)
      | .broadcast t c =>
        some ({ s with threads := Monitor.broadcast (.user c) s.threads }, ⟨t, .signal, some .ok⟩)
      | .cleanup t choice => cleanup t choice s
      | .destructor t => some (destructor t s)
      | .resume _ _ => none
      | .expire _ => none

end

end Qore.SmartLock
