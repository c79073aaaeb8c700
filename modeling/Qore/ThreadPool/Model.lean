import Mathlib.Logic.Function.Basic
import Qore.Lib.CInt
import Qore.Lib.Lts

/-!
# `Qore.ThreadPool.Model`: the thread pool

A `ThreadPool` has a thread of its own (`ThreadPool::worker`) that takes the tasks from the queue
`q` and gives them to workers (`ThreadPoolThread`), each with its own thread
(`ThreadPoolThread::worker`). `ah` is the list of the workers with a task and `fh` the list of
the idle ones.

There is one lock for the pool and one for each worker. A step is what a thread does under a lock
between two points where others can be seen.

* `Pc` is where the thread of the pool is. It has the lock of the pool from its first loop to the
  end of the walk over `fh`, except while it waits (`Pc.locked`).
* `WPc` is where the thread of a worker is. It has the lock of the worker at the head of its loop,
  after a task, and while it ends (`WPc.locked`).
* The calls `submit`, `stop`, `stopWait` and `done` are made under the lock of the pool and are
  one step up to a wait.

A condition wait ends after a signal or, if it has one, after its timeout. A signal that finds
nobody waiting is lost.

A walk over a list without the lock keeps the part of the list that it still has to visit. This
is right as long as it is the end of the list, and the walk checks that it is. `failed` is set
when an assertion fails, when a pointer or an iterator is used that is not valid any more, and
when the front of an empty list is taken. The build with assertions is modelled.

The fields `ran`, `finished`, `cancelled` and `stopCalled` are the history of the calls. A worker
and a task are numbers, in the order in which they are made.
-/

set_option autoImplicit false

namespace Qore.ThreadPool

open Qore.Lib

/-- The arguments of `ThreadPool::constructor`, 64 bits wide. -/
structure Args where
  max : Int := 0
  minidle : Int := 0
  maxidle : Int := 0
  releaseMs : Int := 5000

/-- The exceptions of the pool. -/
inductive Exception
  | minidleAboveMax (minidle max : Int)
  | maxidleAboveMax (maxidle max : Int)
  | minidleAboveMaxidle (minidle maxidle : Int)
  | releaseNegative (releaseMs : Int)
  | noThread
  | destroyed (method : String)
  | stopWaitAfterStop
  deriving DecidableEq

/-- The fields of `ThreadPool` that do not change. -/
structure Config where
  max : Nat
  minidle : Nat
  maxidle : Nat
  releaseMs : Int
  deriving DecidableEq

/-- The C++ constructor, on values of type `int`: a negative `max` or `minidle` becomes 0, and
`maxidle` is `minidle` unless it is positive. -/
def newThreadPool (max minidle maxidle releaseMs : Int) : Config where
  max := max.toNat
  minidle := minidle.toNat
  maxidle := if maxidle ≤ 0 then minidle.toNat else maxidle.toNat
  releaseMs := releaseMs

/-- `ThreadPool::constructor`. The tests are made on 64 bits, and the values go on to the C++
constructor as `int`. `started` says whether the thread of the pool could be created. -/
def constructor (a : Args) (started : Bool) : Except Exception Config :=
  if 0 < a.max ∧ a.max < a.minidle then .error (.minidleAboveMax a.minidle a.max)
  else if 0 < a.max ∧ a.max < a.maxidle then .error (.maxidleAboveMax a.maxidle a.max)
  else if 0 < a.maxidle ∧ a.maxidle < a.minidle then
    .error (.minidleAboveMaxidle a.minidle a.maxidle)
  else if a.releaseMs < 0 then .error (.releaseNegative a.releaseMs)
  else if started then
    .ok (newThreadPool (truncInt a.max) (truncInt a.minidle) (truncInt a.maxidle)
      (truncInt a.releaseMs))
  else .error .noThread

/-- Where the thread of a worker is. -/
inductive WPc
  /-- The worker is not made yet. -/
  | unborn
  /-- The thread is started and has not taken the lock. -/
  | begin
  /-- At the head of the loop. -/
  | top
  /-- In `c.wait(m)`. -/
  | sleeping (signalled : Bool)
  /-- In `task->run()`. -/
  | running
  /-- The task is deleted. -/
  | afterRun
  /-- After the loop. -/
  | ending
  /-- `stopped` is set; the thread of the pool deletes the worker. -/
  | ended
  /-- The worker is deleted. -/
  | gone
  deriving DecidableEq

/-- The places where the thread of a worker has the lock of the worker. -/
def WPc.locked : WPc → Bool
  | .top | .afterRun | .ending => true
  | _ => false

/-- The places where the worker exists. -/
def WPc.alive : WPc → Bool
  | .unborn | .gone => false
  | _ => true

/-- The effect of `c.signal()`. -/
def WPc.signal : WPc → WPc
  | .sleeping _ => .sleeping true
  | pc => pc

/-- The fields of `ThreadPoolThread`. `pos` is the node of `ah`, and `stopCond` says whether that
condition variable is made. -/
structure Worker where
  task : Option Nat
  stopCond : Bool
  pos : Option Nat
  stopflag : Bool
  stopped : Bool
  pc : WPc

/-- A node of `ah`. -/
structure Node where
  id : Nat
  worker : Nat
  deriving DecidableEq

/-- Where the thread of the pool is, in `ThreadPool::worker` and `getThreadUnlocked`. -/
inductive Pc
  /-- The thread is started and has not taken the lock. -/
  | start
  /-- The first loop, with its counter. -/
  | init (i : Nat)
  /-- The head of the main loop. -/
  | loop
  /-- In `cond.wait(m, release_ms)`. -/
  | waitTimed (signalled : Bool)
  /-- In `cond.wait(m)` with an empty queue. -/
  | waitPlain (signalled : Bool)
  /-- Before `tpt->stop()` for a worker that is released. -/
  | release (w : Nat)
  /-- At the test of `stopflag` after the wait. -/
  | test
  /-- At the head of the loop over the queue. -/
  | serve
  /-- At the head of the loop in `getThreadUnlocked`. -/
  | getThread
  /-- In `cond.wait(m)` in `getThreadUnlocked`. -/
  | waitThread (signalled : Bool)
  /-- Before `tpt->submit(q.front())`. -/
  | give (w : Nat)
  /-- At the head of the loop that adds idle workers. -/
  | fill
  /-- In the walk over `fh`. -/
  | stopFree (rest : List Nat)
  /-- The lock is free, at the test of `detach`. -/
  | choose
  /-- In the walk over `ah` with `stop`. -/
  | stopBusy (rest : List Node)
  /-- In the walk over `ah` with `stopWait`. -/
  | stopWait (rest : List Node)
  /-- In `stopWait`, before its lock is taken. -/
  | stopWaitLock (rest : List Node)
  /-- In the walk over `ah` with `stopConfirm`. -/
  | stopConfirm (rest : List Node)
  /-- Before the lock is taken again. -/
  | finish
  /-- In the walk over the copy of the queue. -/
  | cancel (tasks : List Nat)
  /-- The thread has ended. -/
  | dead
  deriving DecidableEq

/-- The places where the thread of the pool has the lock of the pool. -/
def Pc.locked : Pc → Bool
  | .init _ | .loop | .release _ | .test | .serve | .getThread | .give _ | .fill
  | .stopFree _ => true
  | _ => false

/-- The effect of `cond.signal()`; only the thread of the pool waits there. -/
def Pc.signal : Pc → Pc
  | .waitTimed _ => .waitTimed true
  | .waitPlain _ => .waitPlain true
  | .waitThread _ => .waitThread true
  | pc => pc

/-- The pool with its workers, and the history. `inStop` and `inStopWait` are the numbers of
calls that wait for `stopped`. -/
structure State where
  pc : Pc
  ah : List Node
  fh : List Nat
  q : List Nat
  waiting : Bool
  shutdown : Bool
  stopflag : Bool
  stopped : Bool
  detach : Bool
  worker : Nat → Worker
  nextWorker : Nat
  nextNode : Nat
  nextTask : Nat
  inStop : Nat
  inStopWait : Nat
  ran : Nat → List Nat
  finished : Nat → List Nat
  cancelled : Nat → Nat
  stopCalled : Bool
  failed : Bool

namespace State

/-- The pool after its constructor. -/
def init : State where
  pc := .start
  ah := []
  fh := []
  q := []
  waiting := false
  shutdown := false
  stopflag := false
  stopped := false
  detach := false
  worker := fun _ => { task := none, stopCond := false, pos := none, stopflag := false,
                       stopped := false, pc := .unborn }
  nextWorker := 0
  nextNode := 0
  nextTask := 0
  inStop := 0
  inStopWait := 0
  ran := fun _ => []
  finished := fun _ => []
  cancelled := fun _ => 0
  stopCalled := false
  failed := false

/-- Change one worker. -/
def setWorker (s : State) (w : Nat) (f : Worker → Worker) : State :=
  { s with worker := Function.update s.worker w (f (s.worker w)) }

/-- An assertion. -/
def check (s : State) (b : Bool) : State := { s with failed := s.failed || !b }

/-- `new ThreadPoolThread`: the thread starts. -/
def newThread (s : State) : State :=
  { s.setWorker s.nextWorker fun r => { r with pc := .begin } with nextWorker := s.nextWorker + 1 }

/-- `addIdleWorker`, when the thread could be created. -/
def addIdleWorker (s : State) : State :=
  let s' := s.newThread
  { s'.setWorker s.nextWorker fun r => { r with pos := none } with fh := s'.fh ++ [s.nextWorker] }

/-- The end of `getThreadUnlocked`: the worker goes to the end of `ah`. -/
def allocate (s : State) (w : Nat) : State :=
  { s.setWorker w fun r => { r with pos := some s.nextNode } with
    ah := s.ah ++ [⟨s.nextNode, w⟩]
    nextNode := s.nextNode + 1 }

/-- `ThreadPoolThread::submit`. -/
def submitTo (s : State) (w k : Nat) : State :=
  let r := s.worker w
  (s.check (r.pc.alive && !r.stopflag && r.task.isNone)).setWorker w fun r =>
    { r with task := some k, pc := r.pc.signal }

/-- `ThreadPoolThread::stop`. -/
def stopWorker (s : State) (w : Nat) : State :=
  let r := s.worker w
  (s.check (r.pc.alive && !r.stopflag)).setWorker w fun r =>
    { r with stopflag := true, pc := r.pc.signal }

/-- `ThreadPoolThread::stopWait` up to its lock. -/
def makeStopCond (s : State) (w : Nat) : State :=
  let r := s.worker w
  (s.check (r.pc.alive && !r.stopCond)).setWorker w fun r => { r with stopCond := true }

/-- `ThreadPoolThread::stopConfirm`, when `stopped` is set. -/
def confirm (s : State) (w : Nat) : State :=
  let r := s.worker w
  (s.check (r.pc.alive && r.task.isNone)).setWorker w fun r => { r with pc := .gone }

/-- The test whether a thread can be allocated at once in `getThreadUnlocked`. -/
def canAllocate (cfg : Config) (s : State) : Bool :=
  !s.fh.isEmpty || cfg.max == 0 || s.ah.length != cfg.max

/-- A step of the thread of the pool. `b` answers whether a thread could be created, or whether
the wait ended by its timeout. -/
def poolStep (cfg : Config) (s : State) (b : Bool) : Option State :=
  match s.pc with
  | .start => some { s with pc := .init 0 }
  | .init i =>
    if i < cfg.minidle then
      if b then some { s.addIdleWorker with pc := .init (i + 1) }
      else some { s with pc := .loop }
    else some { s with pc := .loop }
  | .loop =>
    if s.stopflag then some { s with pc := .stopFree s.fh }
    else if s.q.isEmpty then
      if s.shutdown then some { s with stopflag := true, pc := .stopFree s.fh }
      else if cfg.releaseMs ≠ 0 ∧ cfg.minidle < s.fh.length then
        some { s with pc := .waitTimed false }
      else some { s with pc := .waitPlain false }
    else some { s with pc := .test }
  | .waitTimed signalled =>
    if b then
      if s.q.isEmpty then
        match s.fh with
        | [] => some (s.check false)
        | w :: fh => some { s with fh := fh, pc := .release w }
      else some { s with pc := .test }
    else if signalled then some { s with pc := .test }
    else none
  | .waitPlain signalled => if signalled then some { s with pc := .test } else none
  | .release w =>
    if (s.worker w).pc.locked then none else some { s.stopWorker w with pc := .loop }
  | .test => if s.stopflag then some { s with pc := .stopFree s.fh } else some { s with pc := .serve }
  | .serve => if s.q.isEmpty then some { s with pc := .fill } else some { s with pc := .getThread }
  | .getThread =>
    if !s.stopflag && !s.canAllocate cfg then
      some { s with waiting := true, pc := .waitThread false }
    else if s.stopflag then some { s with pc := .fill }
    else
      match s.fh with
      | w :: fh => some { ({ s with fh := fh }).allocate w with pc := .give w }
      | [] =>
        if b then some { s.newThread.allocate s.nextWorker with pc := .give s.nextWorker }
        else some { s with pc := .fill }
  | .waitThread signalled =>
    if signalled then some { s with waiting := false, pc := .getThread } else none
  | .give w =>
    if (s.worker w).pc.locked then none
    else
      match s.q with
      | [] => some (s.check false)
      | k :: q => some { s.submitTo w k with q := q, pc := .serve }
  | .fill =>
    if s.fh.length < cfg.minidle ∧ (cfg.max = 0 ∨ s.fh.length + s.ah.length < cfg.max) then
      if b then some s.addIdleWorker else some { s with pc := .loop }
    else some { s with pc := .loop }
  | .stopFree rest =>
    match rest with
    | [] => some { s with pc := .choose }
    | w :: rest' =>
      if (s.worker w).pc.locked then none
      else some { (s.check (decide (rest <:+ s.fh))).stopWorker w with pc := .stopFree rest' }
  | .choose =>
    if s.detach then some { s with pc := .stopBusy s.ah } else some { s with pc := .stopWait s.ah }
  | .stopBusy rest =>
    match rest with
    | [] => some { s with pc := .finish }
    | n :: rest' =>
      if (s.worker n.worker).pc.locked then none
      else some { (s.check (decide (rest <:+ s.ah))).stopWorker n.worker with pc := .stopBusy rest' }
  | .stopWait rest =>
    match rest with
    | [] => some { s with pc := .stopConfirm s.ah }
    | n :: _ =>
      some { (s.check (decide (rest <:+ s.ah))).makeStopCond n.worker with pc := .stopWaitLock rest }
  | .stopWaitLock rest =>
    match rest with
    | [] => some (s.check false)
    | n :: rest' =>
      if (s.worker n.worker).pc.locked then none
      else some { (s.check (decide (rest <:+ s.ah))).stopWorker n.worker with pc := .stopWait rest' }
  | .stopConfirm rest =>
    match rest with
    | [] => some { s with pc := .finish }
    | n :: rest' =>
      let r := s.worker n.worker
      if r.pc.locked then none
      -- the assertions come before the wait
      else if !r.stopflag || !r.stopCond then some (s.check false)
      else if !r.stopped then none
      else some { (s.check (decide (rest <:+ s.ah))).confirm n.worker with pc := .stopConfirm rest' }
  | .finish =>
    some { s with ah := [], fh := [], stopped := true, q := [], pc := .cancel s.q }
  | .cancel tasks =>
    match tasks with
    | [] => some { s with pc := .dead }
    | k :: rest =>
      some { s with cancelled := Function.update s.cancelled k (s.cancelled k + 1), pc := .cancel rest }
  | .dead => none

/-- The worker begins to run its task. -/
def startTask (s : State) (w k : Nat) : State :=
  { s.setWorker w fun r => { r with pc := .running } with
    ran := Function.update s.ran k (s.ran k ++ [w]) }

/-- The task has run and is deleted. -/
def endTask (s : State) (w k : Nat) : State :=
  { s.setWorker w fun r => { r with task := none, pc := .afterRun } with
    finished := Function.update s.finished k (s.finished k ++ [w]) }

/-- The test in `done` whether the worker goes back to the idle list. -/
def requeues (cfg : Config) (s : State) : Bool :=
  (cfg.maxidle == 0 && cfg.releaseMs != 0) || decide (s.fh.length < cfg.maxidle) ||
    decide (s.fh.length < s.q.length)

/-- The test in `done` whether the thread of the pool is signalled. -/
def signalsDone (cfg : Config) (s : State) : Bool :=
  s.waiting || (cfg.releaseMs != 0 && decide (cfg.minidle < s.fh.length))

/-- `ah.erase(i)` for the iterator of the worker. It must be in the list. -/
def erasePos (s : State) (w : Nat) : State :=
  let pos := (s.worker w).pos
  let s := s.check (s.ah.any fun n => some n.id == pos)
  { s with ah := s.ah.eraseP fun n => some n.id == pos }

/-- `done`, and what the worker does with its answer. -/
def done (cfg : Config) (s : State) (w : Nat) : State :=
  if s.stopflag then s.setWorker w fun r => { r with pc := .top }
  else
    let s := s.erasePos w
    if s.requeues cfg then
      let s := { s with fh := s.fh ++ [w] }
      let s := if s.signalsDone cfg then { s with pc := s.pc.signal } else s
      s.setWorker w fun r => { r with pc := .top }
    else s.setWorker w fun r => { r with pc := .ending }

/-- A step of the thread of a worker. -/
def workerStep (cfg : Config) (s : State) (w : Nat) : Option State :=
  let r := s.worker w
  match r.pc with
  | .unborn => none
  | .begin => some (s.setWorker w fun r => { r with pc := .top })
  | .top =>
    match r.task with
    | some k => some (s.startTask w k)
    | none =>
      if r.stopflag then some (s.setWorker w fun r => { r with pc := .ending })
      else some (s.setWorker w fun r => { r with pc := .sleeping false })
  | .sleeping signalled =>
    if signalled then
      match r.task with
      | some k => some (s.startTask w k)
      | none =>
        -- `assert(task)` comes after the test of `stopflag`
        if r.stopflag then some (s.setWorker w fun r => { r with pc := .ending })
        else some (s.check false)
    else none
  | .running =>
    match r.task with
    | some k => some (s.endTask w k)
    | none => some (s.check false)
  | .afterRun =>
    if r.stopflag then some (s.setWorker w fun r => { r with pc := .ending })
    else if s.pc.locked then none
    else some (s.done cfg w)
  | .ending =>
    if r.stopCond then some (s.setWorker w fun r => { r with stopped := true, pc := .ended })
    else some ((s.check r.task.isNone).setWorker w fun r => { r with pc := .gone })
  | .ended => none
  | .gone => none

/-- `submit`: the task that is accepted, or the exception. -/
def submit (s : State) : State × Except Exception Nat :=
  if s.shutdown then (s, .error (.destroyed "submit"))
  else
    ({ s with
       pc := if s.q.isEmpty then s.pc.signal else s.pc
       q := s.q ++ [s.nextTask]
       nextTask := s.nextTask + 1 }, .ok s.nextTask)

/-- `stop` up to its wait. -/
def stop (s : State) : State :=
  let s := { s with stopCalled := true, inStop := s.inStop + 1 }
  if s.stopflag then s
  else { s with detach := true, shutdown := true, stopflag := true, pc := s.pc.signal }

/-- `stopWait` up to its wait. -/
def stopWait (s : State) : State × Except Exception Unit :=
  if s.detach && !s.stopped then (s, .error .stopWaitAfterStop)
  else
    let s := { s with inStopWait := s.inStopWait + 1 }
    if s.shutdown then (s, .ok ())
    else ({ s with shutdown := true, pc := s.pc.signal }, .ok ())

end State

/-- A call of the pool, or a step of one of its threads. -/
inductive Action
  | submit
  | stop
  | stopReturn
  | stopWait
  | stopWaitReturn
  | pool (b : Bool)
  | worker (w : Nat)
  deriving DecidableEq

/-- What a step tells the caller. -/
inductive Out
  | none
  | accepted (k : Nat)
  | raised (e : Exception)
  | returned
  deriving DecidableEq

/-- A step. A call needs the lock of the pool. The waits of `stop` and `stopWait` end when
`stopped` is set. -/
def step (cfg : Config) (s : State) : Action → Option (State × Out)
  | .pool b => (s.poolStep cfg b).map (·, .none)
  | .worker w => (s.workerStep cfg w).map (·, .none)
  | .submit =>
    if s.pc.locked then none
    else
      match s.submit with
      | (s', .ok k) => some (s', .accepted k)
      | (s', .error e) => some (s', .raised e)
  | .stop => if s.pc.locked then none else some (s.stop, .none)
  | .stopReturn =>
    if s.pc.locked || s.inStop == 0 || !s.stopped then none
    else some ({ s with inStop := s.inStop - 1 }, .returned)
  | .stopWait =>
    if s.pc.locked then none
    else
      match s.stopWait with
      | (s', .ok _) => some (s', .none)
      | (s', .error e) => some (s', .raised e)
  | .stopWaitReturn =>
    if s.pc.locked || s.inStopWait == 0 || !s.stopped then none
    else some ({ s with inStopWait := s.inStopWait - 1 }, .returned)

end Qore.ThreadPool
