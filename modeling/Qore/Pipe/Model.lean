import Mathlib.Data.List.Basic

/-!
# `Qore.Pipe.Model`: the stream pipe

`StreamPipe`, `PipeInputStream` and `PipeOutputStream`. One writer and one reader share a ring
buffer under a mutex. A call holds the mutex from its start to its end, but for its waits, so the
steps of the system are the sections of code between two waits. A wait can end at any time: the
system has every behaviour that the condition variables allow.

A division by zero, a copy outside of the buffer and a loop iteration that moves nothing are a
`Fault`. The state has a record of what the streams did: the bytes that were written and read, the
last byte that `peek` returned, and whether an end of stream or a `peek` was wrong.
-/

set_option autoImplicit false

namespace Qore.Pipe

/-- What must not happen inside a call. -/
inductive Fault
  | divByZero
  | outOfBounds
  | noProgress
  deriving DecidableEq

/-- The error code and the description of an exception. -/
abbrev Error := String × String

/-- `StreamPipe`. The bytes are of any type. -/
structure StreamPipe (B : Type) where
  buffer : List B
  broken : Bool
  outputClosed : Bool
  closeFinished : Bool
  size : Int
  count : Int
  readPtr : Int
  timeout : Int
  /-- The exception of `reportError`; the inner `none` stands for a hash without the strings. -/
  exception : Option (Option Error)

namespace StreamPipe

variable {B : Type}

/-- The constructor. The buffer has 4096 bytes when `bufferSize` is not positive, and `size` is
`bufferSize` also then. -/
def new (zero : B) (syncClose : Bool) (timeout bufferSize : Int) : StreamPipe B where
  buffer := List.replicate (if bufferSize > 0 then bufferSize else 4096).toNat zero
  broken := false
  outputClosed := false
  closeFinished := !syncClose
  size := bufferSize
  count := 0
  readPtr := 0
  timeout := timeout
  exception := none

/-- `rethrow`. -/
def rethrow (exception : Option Error) : Error :=
  exception.getD
    ("PIPE-ERROR", "an unexpected error occurred during the background operation")

def brokenError : Error :=
  ("BROKEN-PIPE-ERROR", "one of the streams of the pipe has been destroyed")

def closedError : Error :=
  ("OUTPUT-STREAM-CLOSED-ERROR", "this PipeOutputStream object has been already closed")

def timeoutError : Error := ("TIMEOUT-ERROR", "operation timed out")

/-- What the loop of `read` and `peek` finds. -/
inductive Check
  | raise (e : Error)
  | ready
  | eof
  | wait

/-- One round of the first loop of `read`, and of the loop of `peek`. -/
def checkRead (p : StreamPipe B) : Check :=
  match p.exception with
  | some ex => .raise (rethrow ex)
  | none =>
    if p.broken then .raise brokenError
    else if p.count > 0 then .ready
    else if p.outputClosed then .eof
    else .wait

/-- The second loop of `PipeInputStream::read`, with at most `n` rounds. -/
def readLoop : Nat → StreamPipe B → Int → List B → Except Fault (StreamPipe B × List B)
  | n, p, limit, dst =>
    if p.count > 0 ∧ limit > 0 then
      let willRead := min limit (min p.count (p.size - p.readPtr))
      if willRead ≤ 0 then .error .noProgress
      else if p.readPtr < 0 ∨ p.readPtr + willRead > p.buffer.length then .error .outOfBounds
      else if p.size = 0 then .error .divByZero
      else
        match n with
        | 0 => .error .noProgress
        | n + 1 =>
          readLoop n
            { p with
              count := p.count - willRead
              readPtr := (p.readPtr + willRead).tmod p.size }
            (limit - willRead)
            (dst ++ (p.buffer.drop p.readPtr.toNat).take willRead.toNat)
    else .ok (p, dst)

/-- The checks at the start of each round of the loop of `write`. -/
def checkWrite (p : StreamPipe B) : Option Error :=
  match p.exception with
  | some ex => some (rethrow ex)
  | none =>
    if p.outputClosed then some closedError
    else if p.broken then some brokenError
    else none

/-- How the loop of `write` ends: with the bytes that are not written. -/
inductive WriteEnd (B : Type)
  | done
  | raise (e : Error) (rest : List B)
  | wait (rest : List B)

/-- The loop of `PipeOutputStream::write`, with at most `n` copies, up to a wait. -/
def writeLoop : Nat → StreamPipe B → List B → Except Fault (StreamPipe B × WriteEnd B)
  | n, p, src =>
    if src.length > 0 then
      match p.checkWrite with
      | some e => .ok (p, .raise e src)
      | none =>
        let canWrite := p.size - p.count
        if canWrite > 0 then
          if p.size = 0 then .error .divByZero
          else
            let writePtr := (p.readPtr + p.count).tmod p.size
            let willWrite := min (src.length : Int) (min canWrite (p.size - writePtr))
            if willWrite ≤ 0 then .error .noProgress
            else if writePtr < 0 ∨ writePtr + willWrite > p.buffer.length then
              .error .outOfBounds
            else
              match n with
              | 0 => .error .noProgress
              | n + 1 =>
                writeLoop n
                  { p with
                    buffer := p.buffer.take writePtr.toNat ++ src.take willWrite.toNat ++
                      p.buffer.drop (writePtr.toNat + willWrite.toNat)
                    count := p.count + willWrite }
                  (src.drop willWrite.toNat)
        else .ok (p, .wait src)
    else .ok (p, .done)

/-- How the loop of `close` ends. -/
inductive CloseEnd
  | done
  | raise (e : Error)
  | wait

/-- One round of the loop of `PipeOutputStream::close`. -/
def checkClose (p : StreamPipe B) : CloseEnd :=
  if p.closeFinished then .done
  else
    match p.exception with
    | some ex => .raise (rethrow ex)
    | none => .wait

end StreamPipe

/-! ### The system -/

/-- Where the writer is. -/
inductive Writer (B : Type)
  | idle
  | writing (rest : List B)
  | closing
  | gone

/-- The bytes that a waiting `write` still has to write. -/
def Writer.rest {B : Type} : Writer B → List B
  | .writing rest => rest
  | _ => []

/-- Where the reader is. -/
inductive Reader
  | idle
  | reading (limit : Int)
  | peeking
  | gone

/-- The pipe, the two threads and the record. -/
structure State (B : Type) where
  pipe : StreamPipe B
  writer : Writer B
  reader : Reader
  /-- The bytes of all calls of `write`, without what a call that raised an exception did not
  write. -/
  written : List B
  /-- The bytes that `read` returned. -/
  received : List B
  /-- The result of the last `peek`, when no `read` came after it. -/
  peeked : Option B
  /-- An end of stream was reported before the writer closed or before every byte was read. -/
  earlyEof : Bool
  /-- A `read` returned another byte first than the last `peek`. -/
  wrongPeek : Bool
  fault : Option Fault

/-- What a step returns to the caller. -/
inductive Event (B : Type)
  | finished
  | blocked
  | bytes (bs : List B)
  | byte (b : B)
  | eof
  | raised (e : Error)
  | fault (f : Fault)

/-- The steps of the two threads. A wait ends with or without a timeout. -/
inductive Act (B : Type)
  | write (chunk : List B)
  | close
  | wakeWriter (timedOut : Bool)
  | destroyOutput
  | read (limit : Int)
  | peek
  | wakeReader (timedOut : Bool)
  | finishClose
  | destroyInput
  | reportError (ex : Option Error)

namespace State

variable {B : Type} [DecidableEq B]

/-- The state before the first step. -/
def init (zero : B) (syncClose : Bool) (timeout bufferSize : Int) : State B where
  pipe := .new zero syncClose timeout bufferSize
  writer := .idle
  reader := .idle
  written := []
  received := []
  peeked := none
  earlyEof := false
  wrongPeek := false
  fault := none

/-- The report of an end of stream. -/
def reportEof (s : State B) : State B :=
  { s with
    reader := .idle
    earlyEof := s.earlyEof || !(s.pipe.outputClosed && decide (s.received = s.written)) }

/-- `PipeInputStream::read` from the start of its loop on. -/
def read (s : State B) (limit : Int) : State B × Event B :=
  match s.pipe.checkRead with
  | .raise e => ({ s with reader := .idle }, .raised e)
  | .wait => ({ s with reader := .reading limit }, .blocked)
  | .eof => (s.reportEof, .eof)
  | .ready =>
    match StreamPipe.readLoop limit.toNat s.pipe limit [] with
    | .error f => ({ s with reader := .idle, fault := some f }, .fault f)
    | .ok (pipe, bs) =>
      ({ s with
          pipe, reader := .idle, received := s.received ++ bs, peeked := none
          wrongPeek := s.wrongPeek || s.peeked.any fun b => decide (bs.head? ≠ some b) }, .bytes bs)

/-- `PipeInputStream::peek` from the start of its loop on. -/
def peek (s : State B) : State B × Event B :=
  match s.pipe.checkRead with
  | .raise e => ({ s with reader := .idle }, .raised e)
  | .wait => ({ s with reader := .peeking }, .blocked)
  | .eof => (s.reportEof, .eof)
  | .ready =>
    match s.pipe.buffer[s.pipe.readPtr.toNat]? with
    | some b => ({ s with reader := .idle, peeked := some b }, .byte b)
    | none => ({ s with reader := .idle, fault := some .outOfBounds }, .fault .outOfBounds)

/-- `PipeOutputStream::write` from the start of its loop on, with the bytes `src` to write. -/
def write (s : State B) (src : List B) : State B × Event B :=
  match StreamPipe.writeLoop src.length s.pipe src with
  | .error f => ({ s with writer := .idle, fault := some f }, .fault f)
  | .ok (pipe, .done) => ({ s with pipe, writer := .idle }, .finished)
  | .ok (pipe, .wait rest) => ({ s with pipe, writer := .writing rest }, .blocked)
  | .ok (pipe, .raise e rest) =>
    ({ s with
        pipe, writer := .idle
        written := s.written.take (s.written.length - rest.length) }, .raised e)

/-- The loop of `PipeOutputStream::close`. -/
def closeWait (s : State B) : State B × Event B :=
  match s.pipe.checkClose with
  | .done => ({ s with writer := .idle }, .finished)
  | .raise e => ({ s with writer := .idle }, .raised e)
  | .wait => ({ s with writer := .closing }, .blocked)

/-- `PipeOutputStream::close`. -/
def close (s : State B) : State B × Event B :=
  if s.pipe.outputClosed then (s, .raised StreamPipe.closedError)
  else closeWait { s with pipe := { s.pipe with outputClosed := true } }

/-- The end of a wait of the writer. -/
def wakeWriter (s : State B) (timedOut : Bool) : Option (State B × Event B) :=
  match s.writer with
  | .writing rest =>
    if timedOut then
      if s.pipe.timeout < 0 then none
      else some ({ s with
          writer := .idle
          written := s.written.take (s.written.length - rest.length) },
        .raised StreamPipe.timeoutError)
    else some (s.write rest)
  | .closing =>
    if timedOut then
      if s.pipe.timeout < 0 then none
      else some ({ s with writer := .idle }, .raised StreamPipe.timeoutError)
    else some s.closeWait
  | _ => none

/-- The end of a wait of the reader. -/
def wakeReader (s : State B) (timedOut : Bool) : Option (State B × Event B) :=
  match s.reader with
  | .reading limit =>
    if timedOut then
      if s.pipe.timeout < 0 then none
      else some ({ s with reader := .idle }, .raised StreamPipe.timeoutError)
    else some (s.read limit)
  | .peeking =>
    if timedOut then
      if s.pipe.timeout < 0 then none
      else some ({ s with reader := .idle }, .raised StreamPipe.timeoutError)
    else some s.peek
  | _ => none

/-- One step. A thread calls a method when it is not inside of one and its stream exists; `read`
asserts a positive limit. -/
def step (s : State B) : Act B → Option (State B × Event B)
  | .write chunk =>
    match s.writer with
    | .idle => some (write { s with written := s.written ++ chunk } chunk)
    | _ => none
  | .close =>
    match s.writer with
    | .idle => some s.close
    | _ => none
  | .wakeWriter timedOut => s.wakeWriter timedOut
  | .destroyOutput =>
    match s.writer with
    | .idle => some ({ s with
        writer := .gone
        pipe := { s.pipe with
          broken := if s.pipe.outputClosed then s.pipe.broken else true } }, .finished)
    | _ => none
  | .read limit =>
    match s.reader with
    | .idle => if limit > 0 then some (s.read limit) else none
    | _ => none
  | .peek =>
    match s.reader with
    | .idle => some s.peek
    | _ => none
  | .wakeReader timedOut => s.wakeReader timedOut
  | .finishClose =>
    match s.reader with
    | .idle => some ({ s with pipe := { s.pipe with closeFinished := true } }, .finished)
    | _ => none
  | .destroyInput =>
    match s.reader with
    | .idle => some ({ s with reader := .gone, pipe := { s.pipe with broken := true } }, .finished)
    | _ => none
  | .reportError ex => some ({ s with pipe := { s.pipe with exception := some ex } }, .finished)

end State

end Qore.Pipe
