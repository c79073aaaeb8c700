import Mathlib
import Qore.Lib.Lts
import Qore.Lib.Monitor
import Qore.Pool.Datasource

/-!
# `Qore.Pool.Model`: the pool of connections

The model of `lib/DatasourcePool.cpp` and `intern/DatasourcePool.h`.

* `DatasourcePool` has the fields of the class: the connections, `tmap` from the threads to
  their connections, `freeList`, the limits and the warning callback.
* A thread in a call of the pool has a stack of frames (`Frame`). A stack has more than one
  frame when the warning callback, which `getDS` runs after a wait, calls the pool again. The
  phase of a frame says where its call is: in the condition wait of `getDSIntern`, in
  `checkWait`, before the connection is opened, before the action itself, or before `freeDS`.
* `State` adds the threads inside a condition wait (`Qore.Lib.Monitor`) and the thread resource
  lists. `starter` is a history variable: the thread that has started the transaction of a
  connection. `broken` records that an iterator at the end of `tmap` was dereferenced.
* `step` performs one critical section of the pool's lock, or the calls into one connection
  between two of them.
-/

set_option autoImplicit false

namespace Qore.Pool

open Qore.Lib.Monitor (Threads signal expire)

/-- The command of an action helper: `DAH_NOCHANGE`, `DAH_ACQUIRE` or `DAH_RELEASE`. -/
inductive Cmd
  | nochange
  | acquire
  | release
  deriving DecidableEq

/-- The methods of an `SQLStatement`. `close` also stands for `prepare`, `prepareRaw`, `getSQL` and
`currentThreadInTransaction`, `use` for those that bind, execute, describe and fetch. -/
inductive StatementMethod
  | close
  | use
  | beginTransaction
  | commit
  | rollback
  deriving DecidableEq

/-- The command that the method gives to its `DBActionHelper`. -/
def StatementMethod.cmd : StatementMethod → Cmd
  | .close => .nochange
  | .use | .beginTransaction => .acquire
  | .commit | .rollback => .release

/-- What the method does with its connection. -/
def StatementMethod.run (d : Replies) (ds : Datasource) :
    StatementMethod → Datasource × Option DsError
  | .close => ds.closeStatement d
  | .use => ds.statementCalls d.statement
  | .beginTransaction => ds.beginTransaction d.begin
  | .commit | .rollback =>
    let (ds, e) := ds.closeStatement d
    let (ds, e') := ds.endIntern d.call
    (ds, e.or e')

/-- The actions that use a connection: through a `DatasourcePoolActionHelper`, or through the
`DBActionHelper` of a statement, with the connection that the statement is bound to. -/
inductive Op
  | select
  | selectRow
  | selectRows
  | describe
  | getServerVersion
  | getDriverRealName
  | getConfigHash
  | getConfigString
  | beginTransaction
  | exec
  | execRaw
  | commit
  | rollback
  | statement (m : StatementMethod) (bound : Option Nat)
  deriving DecidableEq

/-- The command that the action gives to its helper. -/
def Op.cmd : Op → Cmd
  | .beginTransaction | .exec | .execRaw => .acquire
  | .commit | .rollback => .release
  | .statement m _ => m.cmd
  | _ => .nochange

/-- What the action does with its connection. -/
def Op.run (d : Replies) (ds : Datasource) : Op → Datasource × Option DsError
  | .select | .selectRow | .selectRows | .describe => ds.query d
  | .getServerVersion | .getDriverRealName => ds.call d.call
  | .getConfigHash | .getConfigString => (ds, none)
  | .beginTransaction => ds.beginTransaction d.begin
  | .exec | .execRaw => ds.execInternal d
  | .commit => ds.commit d
  | .rollback => ds.rollback d
  | .statement m _ => m.run d ds

/-- The statement is bound to another connection than the one of the thread. -/
def Op.boundElsewhere (i : Nat) : Op → Bool
  | .statement _ (some j) => decide (j ≠ i)
  | _ => false

/-- Where an action is, with the connection that `getDS` works on. -/
inductive Phase
  | waiting
  | warn (i waitTotal : Nat)
  | config (i : Nat)
  | callback (i : Nat)
  | checked (i : Nat) (failed : Bool)
  | opening (i : Nat)
  | body (i : Nat)
  | freeing (raised : Bool)

/-- A call of the pool that has not returned: an action with the flag `new_ds`, `cleanup` after
the rollback, or `destructor` before `freeDS`. -/
inductive Frame
  | action (op : Op) (newDs : Bool) (phase : Phase)
  | cleanup (i : Nat)
  | destructor

/-- `class DatasourcePool`. -/
structure DatasourcePool (T : Type) where
  pool : Nat → Datasource
  tidList : Nat → Option T
  tmap : T → Option Nat
  freeList : List Nat
  max : Nat
  cmax : Nat
  waitCount : Nat
  tlWarningMs : Nat
  tlTimeoutMs : Nat
  warningCallback : Bool
  valid : Bool

/-- A waiting thread: the time that it has waited so far, and whether its wait has a limit. -/
structure Job where
  waitTotal : Nat
  timed : Bool

/-- The pool, the stacks of the threads, the waiting threads, the thread resource lists, and the
two history variables. -/
structure State (T : Type) where
  dsp : DatasourcePool T
  frames : T → List Frame
  threads : Threads T Unit Job
  resources : T → Bool
  starter : Nat → Option T
  broken : Bool

/-- The exceptions. -/
inductive Exception (T : Type)
  | datasource (e : DsError)
  | deletedInWait (t : T)
  | timeout (t : T) (timeoutMs max : Nat)
  | terminated (t : T) (i : Nat)
  | deletedInUse (t : T) (user : Option T) (i cmax : Nat)
  | deletedInTransaction (t : T)
  | warningMs (ms : Int)
  | otherThread

/-- A step of a thread: the exceptions that it raises, and whether a call returns. -/
structure Label (T : Type) where
  thread : T
  raised : List (Exception T)
  returned : Bool

/-! ### The constructor -/

section
variable {T : Type}

/-- The loop of `init`, which opens a number of further connections. `opens` are the replies of
the driver. -/
def initLoop (opens : Nat → Reply) : Nat → DatasourcePool T → Option (DatasourcePool T)
  | 0, p => some { p with cmax := p.cmax + 1, valid := true }
  | n + 1, p =>
    let i := p.cmax + 1
    match Datasource.config.openDatasource (opens i) with
    | (_, some _) => none
    | (ds, none) =>
      initLoop opens n
        { p with cmax := i, pool := Function.update p.pool i ds, freeList := p.freeList ++ [i] }

/-- `init`: the first connection is opened, and then the others up to `min`. -/
def init (min max : Nat) (opens : Nat → Reply) : Option (DatasourcePool T) :=
  match Datasource.config.openDatasource (opens 0) with
  | (_, some _) => none
  | (ds, none) =>
    initLoop opens (min - 1)
      { pool := Function.update (fun _ => Datasource.config) 0 ds, tidList := fun _ => none
        tmap := fun _ => none, freeList := [0], max := max, cmax := 0, waitCount := 0
        tlWarningMs := 0, tlTimeoutMs := 120000, warningCallback := false, valid := false }

/-- A new pool, and no thread in a call. -/
def State.start (p : DatasourcePool T) : State T :=
  ⟨p, fun _ => [], fun _ => none, fun _ => false, fun _ => none, false⟩

end

/-! ### The stack of a thread -/

/-- The call under a frame that returns: `checkWait` goes on after `getConfigString`. -/
def returnTo (raised : Bool) : List Frame → List Frame
  | .action op newDs (.config i) :: fs =>
    .action op newDs (if raised then .checked i true else .callback i) :: fs
  | fs => fs

/-- The thread runs code outside the pool: it is in no call, or in the warning callback. -/
def outside : List Frame → Bool
  | [] => true
  | .action _ _ (.callback _) :: _ => true
  | _ => false

/-- The thread can start an action. `checkWait` itself calls `getConfigString`. -/
def canCall (op : Op) : List Frame → Bool
  | .action _ _ (.config _) :: _ => decide (op = .getConfigString)
  | fs => outside fs

section
variable {T : Type} [DecidableEq T]

def setFrames (t : T) (fs : List Frame) (s : State T) : State T :=
  { s with frames := Function.update s.frames t fs }

/-- A call of the thread returns to the frames `fs`. -/
def finish (t : T) (raised : Bool) (fs : List Frame) (s : State T) : State T :=
  setFrames t (returnTo raised fs) s

/-- The connection `i` after calls of the thread `t`. -/
def setDatasource (t : T) (i : Nat) (ds : Datasource) (s : State T) : State T :=
  { s with
    dsp := { s.dsp with pool := Function.update s.dsp.pool i ds }
    starter := Function.update s.starter i
      (if ds.inTransaction then
        (if (s.dsp.pool i).inTransaction then s.starter i else some t) else none) }

/-! ### Allocation -/

/-- `tmap[tid] = i` with `tid_list[i] = tid` and `set_thread_resource`. -/
def assign (t : T) (i : Nat) (s : State T) : State T :=
  { s with
    dsp := { s.dsp with
      tmap := Function.update s.dsp.tmap t (some i)
      tidList := Function.update s.dsp.tidList i (some t) }
    resources := Function.update s.resources t true }

/-- The call after `getDSIntern`: `checkWait` is called after a wait only. -/
def allocated (i waitTotal : Nat) : Phase :=
  if waitTotal ≠ 0 then .warn i waitTotal else .opening i

/-- The loop of `getDSIntern` from its head on, for a thread without a connection that is in the
action `op` over the frames `fs`. -/
def getDSLoop (t : T) (op : Op) (waitTotal : Nat) (fs : List Frame) (s : State T) : State T :=
  match s.dsp.freeList with
  | i :: rest =>
    setFrames t (.action op true (allocated i waitTotal) :: fs)
      (assign t i { s with dsp := { s.dsp with freeList := rest } })
  | [] =>
    if s.dsp.cmax < s.dsp.max then
      let i := s.dsp.cmax
      setFrames t (.action op true (allocated i waitTotal) :: fs)
        (assign t i { s with
          dsp := { s.dsp with
            pool := Function.update s.dsp.pool i Datasource.config
            cmax := i + 1 }
          starter := Function.update s.starter i none })
    else
      let wait : Job := ⟨waitTotal, decide (s.dsp.tlTimeoutMs ≠ 0)⟩
      setFrames t (.action op true .waiting :: fs)
        { s with
          dsp := { s.dsp with waitCount := s.dsp.waitCount + 1 }
          threads := Function.update s.threads t (some ⟨(), wait, .blocked⟩) }

/-- The constructor of the helper: `getDS` up to the end of its first critical section. -/
def getDS (t : T) (op : Op) (s : State T) : State T :=
  match s.dsp.tmap t with
  | some i => setFrames t (.action op false (.opening i) :: s.frames t) s
  | none => getDSLoop t op 0 (s.frames t) s

/-- The thread leaves its condition wait. -/
def leaveWait (t : T) (s : State T) : State T :=
  { s with
    dsp := { s.dsp with waitCount := s.dsp.waitCount - 1 }
    threads := Function.update s.threads t none }

/-- `getDSIntern` after its condition wait. -/
def resume (t : T) (micros : Nat) (s : State T) : Option (State T × Label T) :=
  match s.threads t, s.frames t with
  | some w, .action op _ .waiting :: fs =>
    if w.wake = .blocked then none
    else
      let s := leaveWait t s
      if !s.dsp.valid then some (finish t true fs s, ⟨t, [.deletedInWait t], true⟩)
      else if w.wake = .timedOut ∧ s.dsp.tlTimeoutMs ≠ 0 then
        some (finish t true fs s, ⟨t, [.timeout t s.dsp.tlTimeoutMs s.dsp.max], true⟩)
      else some (getDSLoop t op (w.job.waitTotal + micros) fs s, ⟨t, [], false⟩)
  | _, _ => none

/-- `remove_thread_resource`. -/
def removeThreadResource (t : T) (s : State T) : State T :=
  { s with resources := Function.update s.resources t false }

variable [Fintype T]

/-- `if (wait_count) signal();`. -/
def signalWaiting (choice : Option T) (s : State T) : Option (State T) :=
  if s.dsp.waitCount ≠ 0 then
    match signal () choice s.threads with
    | none => none
    | some thr => some { s with threads := thr }
  else some s

/-- `free_list.push_back(i)`, `tmap.erase` and the signal. -/
def giveBack (t : T) (i : Nat) (choice : Option T) (s : State T) : Option (State T) :=
  signalWaiting choice
    { s with dsp := { s.dsp with
      freeList := s.dsp.freeList ++ [i], tmap := Function.update s.dsp.tmap t none } }

/-- `freeDS`. It does not check that the thread has a connection. -/
def freeDS (t : T) (choice : Option T) (s : State T) : Option (State T) :=
  let s := removeThreadResource t s
  match s.dsp.tmap t with
  | some i => giveBack t i choice s
  | none => some { s with broken := true }

/-! ### The steps of a call -/

/-- `checkWait` up to its call of `getConfigString`. -/
def checkWait (t : T) (s : State T) : Option (State T × Label T) :=
  match s.frames t with
  | .action op newDs (.warn i waitTotal) :: fs =>
    let phase := if !s.dsp.warningCallback || decide (waitTotal / 1000 < s.dsp.tlWarningMs) then
      .opening i else .config i
    some (setFrames t (.action op newDs phase :: fs) s, ⟨t, [], false⟩)
  | _ => none

/-- The warning callback returns to `checkWait`. -/
def callbackEnd (t : T) (raised : Bool) (s : State T) : Option (State T × Label T) :=
  match s.frames t with
  | .action op newDs (.callback i) :: fs =>
    some (setFrames t (.action op newDs (.checked i raised) :: fs) s, ⟨t, [], false⟩)
  | _ => none

/-- `checkWait` returns to `getDS`. -/
def checkWaitEnd (t : T) (s : State T) : Option (State T × Label T) :=
  match s.frames t with
  | .action op newDs (.checked i failed) :: fs =>
    let phase := if failed then .freeing true else .opening i
    some (setFrames t (.action op newDs phase :: fs) s, ⟨t, [], false⟩)
  | _ => none

/-- `getDS` opens the connection. -/
def openDS (t : T) (r : Reply) (s : State T) : Option (State T × Label T) :=
  match s.frames t with
  | .action op newDs (.opening i) :: fs =>
    match (s.dsp.pool i).openDatasource r with
    | (ds, none) =>
      some (setFrames t (.action op newDs (.body i) :: fs) (setDatasource t i ds s), ⟨t, [], false⟩)
    | (ds, some e) =>
      some (setFrames t (.action op newDs (.freeing true) :: fs) (setDatasource t i ds s),
        ⟨t, [.datasource e], false⟩)
  | _ => none

/-- The command of the helper after the action: `beginTransaction` calls `releaseNew` when it has
failed. -/
def Op.endCmd (op : Op) (newDs raised : Bool) : Cmd :=
  if op = .beginTransaction ∧ raised ∧ newDs then .release else op.cmd

/-- The destructor of the helper calls `freeDS`. -/
def releases (cmd : Cmd) (newDs keepLock : Bool) (ds : Datasource) : Bool :=
  decide (cmd = .release) || ds.connectionAborted ||
    (newDs && decide (cmd = .nochange) && !keepLock)

/-- The end of the action: whether its helper calls `freeDS`, or `helperEndActionImpl` with
`DAH_RELEASE`, and its connection. -/
def Op.helperEnd (op : Op) (newDs raised : Bool) (ds : Datasource) : Bool × Datasource :=
  match op with
  | .statement m _ =>
    (decide (m.cmd = .release) || ds.connectionAborted || !ds.isOpen ||
      (newDs && decide (m.cmd = .nochange)), ds)
  | _ =>
    let (keepLock, ds) := ds.takeKeepLock
    (releases (op.endCmd newDs raised) newDs keepLock ds, ds)

/-- The action itself, and the destructor of its helper up to `freeDS`. The constructor of a
`DBActionHelper` releases the connection when the statement is bound to another one. -/
def body (t : T) (d : Replies) (s : State T) : Option (State T × Label T) :=
  match s.frames t with
  | .action op newDs (.body i) :: fs =>
    if op.boundElsewhere i then
      some (setFrames t (.action op newDs (.freeing true) :: fs) s, ⟨t, [.otherThread], false⟩)
    else
      let (ds, e) := op.run d (s.dsp.pool i)
      let raised := e.isSome
      let (release, ds) := op.helperEnd newDs raised ds
      let s := setDatasource t i ds s
      let es := e.toList.map .datasource
      if release then
        some (setFrames t (.action op newDs (.freeing raised) :: fs) s, ⟨t, es, false⟩)
      else some (finish t raised fs s, ⟨t, es, true⟩)
  | _ => none

/-- `freeDS` as the last step of a call. -/
def free (t : T) (choice : Option T) (s : State T) : Option (State T × Label T) :=
  let done (raised : Bool) (fs : List Frame) : Option (State T × Label T) :=
    match freeDS t choice s with
    | none => none
    | some s => some (finish t raised fs s, ⟨t, [], true⟩)
  match s.frames t with
  | .action _ _ (.freeing raised) :: fs => done raised fs
  | .destructor :: fs => done false fs
  | _ => none

/-- `cleanup` up to the rollback: the thread ends with the pool in its thread resource list. -/
def cleanup (t : T) (d : Replies) (s : State T) : Option (State T × Label T) :=
  if s.resources t && outside (s.frames t) then
    let s := removeThreadResource t s
    match s.dsp.tmap t with
    | none => some ({ s with broken := true }, ⟨t, [], true⟩)
    | some i =>
      let (ds, e) := (s.dsp.pool i).rollback d
      some (setFrames t (.cleanup i :: s.frames t) (setDatasource t i ds s),
        ⟨t, .terminated t i :: e.toList.map .datasource, false⟩)
  else none

/-- The rest of `cleanup`. -/
def cleanupEnd (t : T) (choice : Option T) (s : State T) : Option (State T × Label T) :=
  match s.frames t with
  | .cleanup i :: fs =>
    match giveBack t i choice s with
    | none => none
    | some s => some (finish t false fs s, ⟨t, [], true⟩)
  | _ => none

/-- The exceptions of `destructor` for the connections that other threads use. -/
def usedByOthers (t : T) (p : DatasourcePool T) : List (Exception T) :=
  ((List.range p.cmax).filter fun j =>
      decide (p.tmap t ≠ some j) && (p.pool j).inTransaction).map fun j =>
    .deletedInUse t (p.tidList j) j p.cmax

/-- `destructor` up to `freeDS`. -/
def destructor (t : T) (d : Replies) (s : State T) : Option (State T × Label T) :=
  if outside (s.frames t) then
    let s := { s with dsp := { s.dsp with valid := false } }
    let es := usedByOthers t s.dsp
    match s.dsp.tmap t with
    | none => some (s, ⟨t, es, true⟩)
    | some i =>
      if (s.dsp.pool i).inTransaction then
        let (ds, e) := (s.dsp.pool i).rollback d
        some (setFrames t (.destructor :: s.frames t) (setDatasource t i ds s),
          ⟨t, es ++ .deletedInTransaction t :: e.toList.map .datasource, false⟩)
      else some (s, ⟨t, es, true⟩)
  else none

/-! ### The actions -/

/-- The start of an action, the steps of a call, the expiry of a wait, and the calls that set the
warning callback and the time limit. -/
inductive Action (T : Type)
  | call (t : T) (op : Op)
  | resume (t : T) (micros : Nat)
  | expire (t : T)
  | checkWait (t : T)
  | callbackEnd (t : T) (raised : Bool)
  | checkWaitEnd (t : T)
  | openDS (t : T) (r : Reply)
  | body (t : T) (d : Replies)
  | free (t : T) (choice : Option T)
  | cleanup (t : T) (d : Replies)
  | cleanupEnd (t : T) (choice : Option T)
  | destructor (t : T) (d : Replies)
  | setWarningCallback (t : T) (ms : Int)
  | clearWarningCallback (t : T)
  | setErrorTimeout (t : T) (ms : Nat)

/-- `setWarningCallback`. The threshold is stored in an `unsigned`. -/
def setWarningCallback (t : T) (ms : Int) (s : State T) : State T × Label T :=
  if ms ≤ 0 then (s, ⟨t, [.warningMs ms], true⟩)
  else
    ({ s with dsp := { s.dsp with warningCallback := true, tlWarningMs := ms.toNat % 2 ^ 32 } },
      ⟨t, [], true⟩)

/-- `clearWarningCallback`. -/
def clearWarningCallback (t : T) (s : State T) : State T × Label T :=
  if s.dsp.warningCallback then
    ({ s with dsp := { s.dsp with warningCallback := false, tlWarningMs := 0 } }, ⟨t, [], true⟩)
  else (s, ⟨t, [], true⟩)

/-- `setErrorTimeout`. -/
def setErrorTimeout (t : T) (ms : Nat) (s : State T) : State T × Label T :=
  ({ s with dsp := { s.dsp with tlTimeoutMs := ms % 2 ^ 32 } }, ⟨t, [], true⟩)

/-- One step of a thread. -/
def step (s : State T) : Action T → Option (State T × Label T)
  | .call t op =>
    if canCall op (s.frames t) then some (getDS t op s, ⟨t, [], false⟩) else none
  | .resume t micros => resume t micros s
  | .expire t =>
    match s.threads t with
    | none => none
    | some w =>
      if w.job.timed then
        match expire t s.threads with
        | none => none
        | some thr => some ({ s with threads := thr }, ⟨t, [], false⟩)
      else none
  | .checkWait t => checkWait t s
  | .callbackEnd t raised => callbackEnd t raised s
  | .checkWaitEnd t => checkWaitEnd t s
  | .openDS t r => openDS t r s
  | .body t d => body t d s
  | .free t choice => free t choice s
  | .cleanup t d => cleanup t d s
  | .cleanupEnd t choice => cleanupEnd t choice s
  | .destructor t d => destructor t d s
  | .setWarningCallback t ms =>
    if outside (s.frames t) then some (setWarningCallback t ms s) else none
  | .clearWarningCallback t =>
    if outside (s.frames t) then some (clearWarningCallback t s) else none
  | .setErrorTimeout t ms =>
    if outside (s.frames t) then some (setErrorTimeout t ms s) else none

end

end Qore.Pool
