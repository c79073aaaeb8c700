import Qore.Lib.Chain
import Qore.Lib.Deque
import Qore.Lib.Lts
import Qore.Lib.Monitor

/-!
# `Qore.Queue.Model`: the thread-safe queue

The model of `lib/QoreQueue.cpp` and `include/qore/intern/QoreQueueIntern.h`.

* `QoreQueue` is `qore_queue_private`: a doubly linked list of nodes with `head`, `tail` and
  `len`, the error, and the counters of waiting threads. `nodes` is the part of the memory
  that holds the nodes, and a new node has a new address.
* `State` adds the threads. A call that has to wait leaves its thread in a condition wait
  (`Qore.Lib.Monitor`), and `resume` is the section of code after the wait, when the thread
  has the lock again.
* `step` performs one critical section. Its `Label` gives the event on the deque
  (`Qore.Lib.Deque`), what the call returns if it does, and the notification of the owning
  object about values that need a scan.

A thread that waits with a timeout can be woken by its expiry (`Action.expire`). The choice
of the thread that a signal wakes is part of the action. `len` is an unbounded integer here,
as a queue cannot hold 2^31 nodes.
-/

set_option autoImplicit false

namespace Qore.Queue

open Qore.Lib
open Qore.Lib.Monitor (Wake Wait Threads signal broadcast expire)

/-- The address of a node. -/
abbrev Addr := Nat

/-- `class QoreQueueNode`. -/
abbrev Node (V : Type) := Chain.Node Addr V

/-- `read_cond` and `write_cond`. -/
inductive Cond
  | read
  | write
  deriving DecidableEq

/-- The calls that can wait. -/
inductive Job (V : Type)
  | push (v : V)
  | insert (v : V)
  | shift
  | pop

/-- A call with its arguments. `self` says that the owning object is given. -/
structure Call (V : Type) where
  job : Job V
  self : Bool
  timeoutMs : Int

/-- `class qore_queue_private`. -/
structure QoreQueue (V : Type) where
  nodes : Addr → Option (Node V)
  free : Addr
  head : Option Addr
  tail : Option Addr
  err : String
  desc : String
  len : Int
  max : Int
  readWaiting : Nat
  writeWaiting : Nat
  scanCount : Int

/-- `Queue_Deleted`. -/
def queueDeleted : Int := -1

/-- The queue and the waiting threads. -/
structure State (T V : Type) where
  q : QoreQueue V
  threads : Threads T Cond (Call V)

/-- What a call returns, with the exceptions it raises as pairs of a code and a description.
`failed` is the return without an exception of `checkWriteIntern` on a deleted queue. -/
inductive Outcome (V : Type)
  | done
  | value (v : V)
  | timeout
  | raised (exceptions : List (String × String))
  | failed

/-- The exception of a call that finds the queue deleted. -/
def Outcome.deleted {V : Type} : Outcome V :=
  .raised [("QUEUE-ERROR", "Queue has been deleted in another thread")]

/-- The exception of the destructor for each kind of waiting threads. -/
def deletedWhile (n : Nat) (kind : String) : List (String × String) :=
  if n = 0 then []
  else [("QUEUE-ERROR", "Queue deleted while there " ++ (if n = 1 then "is" else "are") ++ " " ++
    toString n ++ " waiting thread" ++ (if n = 1 then "" else "s") ++ " for " ++ kind)]

/-- One critical section: the call it is a part of when it is one of the calls that can wait,
what it does to the deque, what the call returns, and what it tells the owning object: 1 for
`incScanPrivateData`, -1 for `decScanPrivateData`. -/
structure Label (V : Type) where
  job : Option (Job V)
  event : Deque.Event (Addr × V)
  result : Option (Outcome V)
  scan : Int

/-- `qore_queue_private(int n_max)`. -/
def QoreQueue.new (V : Type) (max : Int) : QoreQueue V :=
  ⟨fun _ => none, 0, none, none, "", "", 0, max, 0, 0, 0⟩

/-- A new queue, and no thread in a call. -/
def State.init (T V : Type) (max : Int) : State T V := ⟨QoreQueue.new V max, fun _ => none⟩

namespace QoreQueue

variable {V : Type}

/-! ### The linked list -/

/-- `new QoreQueueNode(v, prev, next)`. -/
def alloc (q : QoreQueue V) (v : V) (prev next : Option Addr) : QoreQueue V :=
  { q with nodes := Function.update q.nodes q.free (some ⟨v, prev, next⟩), free := q.free + 1 }

/-- `delete n`. -/
def delete (q : QoreQueue V) (a : Addr) : QoreQueue V :=
  { q with nodes := Function.update q.nodes a none }

/-- `a->next = n`. -/
def setNext (q : QoreQueue V) (a n : Option Addr) : QoreQueue V :=
  match a with
  | none => q
  | some a =>
    { q with nodes := Function.update q.nodes a ((q.nodes a).map fun w => { w with next := n }) }

/-- `a->prev = n`. -/
def setPrev (q : QoreQueue V) (a n : Option Addr) : QoreQueue V :=
  match a with
  | none => q
  | some a =>
    { q with nodes := Function.update q.nodes a ((q.nodes a).map fun w => { w with prev := n }) }

/-- `pushNode`. -/
def pushNode (q : QoreQueue V) (v : V) : QoreQueue V :=
  let qn := q.free
  if q.head = none then
    { q.alloc v none none with head := some qn, tail := some qn, len := q.len + 1 }
  else
    { (q.alloc v q.tail none).setNext q.tail (some qn) with tail := some qn, len := q.len + 1 }

/-- `insertIntern`, without the signal. -/
def insertNode (q : QoreQueue V) (v : V) : QoreQueue V :=
  let qn := q.free
  if q.head = none then
    { q.alloc v none none with head := some qn, tail := some qn, len := q.len + 1 }
  else
    { (q.alloc v none q.head).setPrev q.head (some qn) with head := some qn, len := q.len + 1 }

/-- The part of `shift` that takes the first node off the list. -/
def takeHead (q : QoreQueue V) : Option ((Addr × V) × QoreQueue V) :=
  match q.head with
  | none => none
  | some n =>
    match q.nodes n with
    | none => none
    | some w =>
      let q := { q with head := w.next }
      let q := if q.head = none then { q with tail := none } else q.setPrev q.head none
      some ((n, w.node), { q.delete n with len := q.len - 1 })

/-- The part of `pop` that takes the last node off the list. -/
def takeTail (q : QoreQueue V) : Option ((Addr × V) × QoreQueue V) :=
  match q.tail with
  | none => none
  | some n =>
    match q.nodes n with
    | none => none
    | some w =>
      let q := { q with tail := w.prev }
      let q := if q.tail = none then { q with head := none } else q.setNext q.tail none
      some ((n, w.node), { q.delete n with len := q.len - 1 })

/-- The loop of `clearIntern`: delete the nodes from `head` on. The fuel bounds the number of
nodes. -/
def deleteNodes : Nat → QoreQueue V → Option (List (Addr × V) × QoreQueue V)
  | 0, q => if q.head = none then some ([], q) else none
  | fuel + 1, q =>
    match q.head with
    | none => some ([], q)
    | some a =>
      match q.nodes a with
      | none => none
      | some w =>
        match deleteNodes fuel { q.delete a with head := w.next } with
        | none => none
        | some (l, q') => some ((a, w.node) :: l, q')

/-- `clearIntern`: the deleted values and the empty list. -/
def clearIntern (q : QoreQueue V) : Option (List (Addr × V) × QoreQueue V) :=
  match deleteNodes q.free q with
  | none => none
  | some (l, q) => some (l, { q with head := none, tail := none, scanCount := 0 })

/-! ### The checks before and after a wait -/

/-- `checkWriteIntern`: the reason for which the call cannot go on. -/
def checkWriteIntern (q : QoreQueue V) (alwaysError : Bool) : Option (Outcome V) :=
  if q.len = queueDeleted then some (if alwaysError then .deleted else .failed)
  else if q.err ≠ "" then some (.raised [(q.err, q.desc)])
  else none

/-- The head of the loop of a wait function: the call goes on, returns, or waits. -/
inductive Wait (V : Type)
  | go
  | block
  | stop (out : Outcome V)

/-- The loops of `waitReadIntern` and `waitWriteIntern`, up to the wait. -/
def waitIntern (q : QoreQueue V) (must : Bool) (timeoutMs : Int) : Wait V :=
  if must then
    if q.err ≠ "" then .stop (.raised [(q.err, q.desc)])
    else if timeoutMs ≥ 0 then .block
    else .stop .timeout
  else if q.err ≠ "" then .stop (.raised [(q.err, q.desc)])
  else .go

/-- `waitReadIntern`. -/
def waitReadIntern (q : QoreQueue V) (timeoutMs : Int) : Wait V :=
  q.waitIntern (q.head = none) timeoutMs

/-- `waitWriteIntern`. -/
def waitWriteIntern (q : QoreQueue V) (timeoutMs : Int) : Wait V :=
  q.waitIntern (q.max > 0 ∧ q.len ≥ q.max) timeoutMs

end QoreQueue

/-- The condition that a call waits on. -/
def Job.cond {V : Type} : Job V → Cond
  | .push _ => .write
  | .insert _ => .write
  | .shift => .read
  | .pop => .read

/-- `checkWriteIntern` at the start of a call: `shift` and `pop` report a deleted queue. -/
def Job.alwaysError {V : Type} : Job V → Bool
  | .push _ => false
  | .insert _ => false
  | .shift => true
  | .pop => true

/-- The wait function of a call. -/
def QoreQueue.waitFor {V : Type} (q : QoreQueue V) (c : Call V) : QoreQueue.Wait V :=
  match c.job.cond with
  | .read => q.waitReadIntern c.timeoutMs
  | .write => q.waitWriteIntern c.timeoutMs

/-- `++read_waiting` and `++write_waiting`. -/
def QoreQueue.incWaiting {V : Type} (q : QoreQueue V) : Cond → QoreQueue V
  | .read => { q with readWaiting := q.readWaiting + 1 }
  | .write => { q with writeWaiting := q.writeWaiting + 1 }

/-- `--read_waiting` and `--write_waiting`. -/
def QoreQueue.decWaiting {V : Type} (q : QoreQueue V) : Cond → QoreQueue V
  | .read => { q with readWaiting := q.readWaiting - 1 }
  | .write => { q with writeWaiting := q.writeWaiting - 1 }

section
variable {T V : Type} [Fintype T] [DecidableEq T]

/-- `if (read_waiting) read_cond.signal()`, and the same for writing. -/
def signalIf (n : Nat) (c : Cond) (choice : Option T) (thr : Threads T Cond (Call V)) :
    Option (Threads T Cond (Call V)) :=
  if n ≠ 0 then signal c choice thr else some thr

variable (needsScan : V → Bool)

/-- `pushIntern` and `insertIntern` in `push` and `insert`: store the value, wake a reader,
count a value that needs a scan. -/
def store (node : QoreQueue V → V → QoreQueue V) (event : Addr × V → Deque.Event (Addr × V)) (v : V)
    (c : Call V) (choice : Option T) (s : State T V) : Option (State T V × Label V) :=
  let q := node s.q v
  match signalIf q.readWaiting .read choice s.threads with
  | none => none
  | some thr =>
    let scanCount := if c.self && needsScan v then q.scanCount + 1 else q.scanCount
    let inc := c.self && needsScan v && decide (scanCount = 1)
    some (⟨{ q with scanCount := scanCount }, thr⟩,
      ⟨some c.job, event (s.q.free, v), some .done, if inc then 1 else 0⟩)

/-- The removal in `shift` and `pop`: take the node off, wake a writer. The test of the taken
node with `needs_scan(n)` reads the pointer to the node as a boolean value, which never needs
a scan, so the count of such values stays. -/
def take (node : QoreQueue V → Option ((Addr × V) × QoreQueue V))
    (event : Addr × V → Deque.Event (Addr × V)) (c : Call V) (choice : Option T) (s : State T V) :
    Option (State T V × Label V) :=
  match node s.q with
  | none => none
  | some (x, q) =>
    match signalIf q.writeWaiting .write choice s.threads with
    | none => none
    | some thr => some (⟨q, thr⟩, ⟨some c.job, event x, some (.value x.2), 0⟩)

/-- The rest of a call after its wait function has returned 0. -/
def perform (c : Call V) (choice : Option T) (s : State T V) : Option (State T V × Label V) :=
  match c.job with
  | .push v => store needsScan QoreQueue.pushNode .pushBack v c choice s
  | .insert v => store needsScan QoreQueue.insertNode .pushFront v c choice s
  | .shift => take QoreQueue.takeHead .popFront c choice s
  | .pop => take QoreQueue.takeTail .popBack c choice s

/-- A call from the loop of its wait function on. -/
def proceed (t : T) (c : Call V) (choice : Option T) (s : State T V) :
    Option (State T V × Label V) :=
  match s.q.waitFor c with
  | .go => perform needsScan c choice s
  | .stop out => some (s, ⟨some c.job, .skip, some out, 0⟩)
  | .block =>
    some (⟨s.q.incWaiting c.job.cond,
      Function.update s.threads t (some ⟨c.job.cond, c, .blocked⟩)⟩, ⟨some c.job, .skip, none, 0⟩)

/-- The critical sections. -/
inductive Action (T V : Type)
  | call (t : T) (c : Call V) (choice : Option T)
  | resume (t : T) (choice : Option T)
  | expire (t : T)
  | clear (choice : Option T)
  | setError (err desc : String)
  | clearError
  | destructor

/-- `clear`. With the assertions disabled it returns when a reader is counted as waiting. -/
def clear (choice : Option T) (s : State T V) : Option (State T V × Label V) :=
  match s.q.checkWriteIntern false with
  | some out => some (s, ⟨none, .skip, some out, 0⟩)
  | none =>
    if s.q.readWaiting ≠ 0 then some (s, ⟨none, .skip, some .done, 0⟩)
    else
      match s.q.clearIntern with
      | none => none
      | some (l, q) =>
        match signalIf q.writeWaiting .write choice s.threads with
        | none => none
        | some thr =>
          some (⟨{ q with len := 0 }, thr⟩,
            ⟨none, .discard l, some .done, if s.q.scanCount ≠ 0 then -1 else 0⟩)

/-- `setError`. -/
def setError (err desc : String) (s : State T V) : Option (State T V × Label V) :=
  if s.q.len = queueDeleted then some (s, ⟨none, .skip, some .done, 0⟩)
  else
    match s.q.clearIntern with
    | none => none
    | some (l, q) =>
      let thr := if q.readWaiting ≠ 0 then broadcast .read s.threads else s.threads
      let thr := if q.writeWaiting ≠ 0 then broadcast .write thr else thr
      some (⟨{ q with err := err, desc := desc, len := 0 }, thr⟩,
        ⟨none, .discard l, some .done, if s.q.scanCount ≠ 0 then -1 else 0⟩)

/-- `clearError`. -/
def clearError (s : State T V) : State T V × Label V :=
  if s.q.len = queueDeleted then (s, ⟨none, .skip, some .done, 0⟩)
  else (⟨{ s.q with err := "", desc := "" }, s.threads⟩, ⟨none, .skip, some .done, 0⟩)

/-- `destructor`. -/
def destructor (s : State T V) : Option (State T V × Label V) :=
  let thr := if s.q.readWaiting ≠ 0 then broadcast .read s.threads else s.threads
  let thr := if s.q.writeWaiting ≠ 0 then broadcast .write thr else thr
  match s.q.clearIntern with
  | none => none
  | some (l, q) =>
    let raised := deletedWhile s.q.readWaiting "reading" ++ deletedWhile s.q.writeWaiting "writing"
    some (⟨{ q with len := queueDeleted, desc := "" }, thr⟩,
      ⟨none, .discard l, some (if raised.isEmpty then .done else .raised raised), 0⟩)

/-- The rest of a call after its condition wait: the thread has the lock again. -/
def resume (t : T) (choice : Option T) (s : State T V) : Option (State T V × Label V) :=
  match s.threads t with
  | none => none
  | some w =>
    let s : State T V := ⟨s.q.decWaiting w.cond, Function.update s.threads t none⟩
    match w.wake with
    | .blocked => none
    | .timedOut => some (s, ⟨some w.job.job, .skip, some .timeout, 0⟩)
    | .signalled =>
      if s.q.len = queueDeleted then some (s, ⟨some w.job.job, .skip, some .deleted, 0⟩)
      else proceed needsScan t w.job choice s

/-- The start of a call, from `checkWriteIntern` on. -/
def call (t : T) (c : Call V) (choice : Option T) (s : State T V) :
    Option (State T V × Label V) :=
  match s.threads t with
  | some _ => none
  | none =>
    match s.q.checkWriteIntern c.job.alwaysError with
    | some out => some (s, ⟨some c.job, .skip, some out, 0⟩)
    | none => proceed needsScan t c choice s

/-- A timeout ends the wait of a call with a positive timeout. -/
def timeout (t : T) (s : State T V) : Option (State T V × Label V) :=
  match s.threads t with
  | none => none
  | some w =>
    if w.job.timeoutMs > 0 then
      match expire t s.threads with
      | none => none
      | some thr => some (⟨s.q, thr⟩, ⟨some w.job.job, .skip, none, 0⟩)
    else none

/-- One critical section of the queue, or the expiry of a wait. -/
def step (s : State T V) : Action T V → Option (State T V × Label V)
  | .call t c choice => call needsScan t c choice s
  | .resume t choice => resume needsScan t choice s
  | .expire t => timeout t s
  | .clear choice => clear choice s
  | .setError err desc => setError err desc s
  | .clearError => some (clearError s)
  | .destructor => destructor s

end

end Qore.Queue
