import Mathlib
import Qore.Lib.CInt
import Qore.Lib.Program

/-!
# `Qore.Stream.Reader`: readers of byte streams

`StreamReader` takes every byte from its input stream, and `BufferedStreamReader` keeps a buffer in
between. Both have their own `readData` and `peek`; everything else is built on these two.

An exception has its two texts. `Fault.assertion` is a failed assertion, `Fault.undefined` an access
through a null pointer or outside of a string, and `Fault.endless` a loop that goes on after as many
passes as there are bytes.
-/

set_option autoImplicit false

namespace Qore.Stream

open Qore.Lib

/-! ## Input streams -/

/-- An input stream: the bytes that are left, and how many of them the next calls give at most. -/
structure InputStream where
  rest : List UInt8
  chunk : Nat → Nat

/-- `InputStream::read`. There is at least one byte before the end of the stream. -/
def InputStream.read (is : InputStream) (limit : Nat) : List UInt8 × InputStream :=
  let n := min limit (max 1 (is.chunk 0))
  (is.rest.take n, { rest := is.rest.drop n, chunk := fun i => is.chunk (i + 1) })

theorem InputStream.length_read_le (is : InputStream) (limit : Nat) :
    (is.read limit).1.length ≤ limit := by
  unfold InputStream.read
  rw [List.length_take]
  omega

/-- A `char` as an `int64`. -/
def signedChar (c : UInt8) : Int := if c.toNat < 128 then c.toNat else c.toNat - 256

/-- The first `char` of a buffer. -/
def firstChar (buf : List UInt8) : Int := signedChar (buf.headD 0)

/-- The next byte, or -1 at the end of the stream: what `peek` is for. -/
def nextByte : List UInt8 → Int
  | [] => -1
  | c :: _ => c.toNat

/-! ## Failures -/

/-- An exception. -/
structure Exception where
  err : String
  desc : String
  deriving DecidableEq

inductive Fault
  | exception (e : Exception)
  | assertion
  | undefined
  | endless
  deriving DecidableEq

/-- The exception of `StreamReader::readData` at the end of the stream. -/
def endOfStream (limit read : Nat) : Exception where
  err := "END-OF-STREAM-ERROR"
  desc := "there is not enough data available in the stream; " ++ toString limit ++ " byte" ++
    (if limit = 1 then " was" else "s were") ++ " requested, but only " ++ toString read ++
    " could be read"

/-- The exception of `BufferedStreamReader::readData` at the end of the stream. -/
def endOfStreamBuffered (limit read : Nat) : Exception where
  err := "END-OF-STREAM-ERROR"
  desc := "there is not enough data available in the stream; " ++ toString limit ++
    " bytes were requested, and " ++ toString read ++ " were read"

/-- The exception of `readNullTerminatedString`. -/
def noNull (size : Nat) : Exception where
  err := "END-OF-STREAM-ERROR"
  desc := toString size ++ " byte" ++ (if size = 1 then "" else "s") ++
    " read of null-terminated string; end of stream encountered without a null"

/-- The exception of `readExactString`. -/
def shortString (read size : Nat) : Exception where
  err := "END-OF-STREAM-ERROR"
  desc := toString read ++ " byte" ++ (if read = 1 then "" else "s") ++ " read of " ++
    toString size ++ "-byte string; end of stream encountered"

/-- The exception of `peekCheck` at the end of the stream. -/
def peekAtEnd : Exception where
  err := "END-OF-STREAM-ERROR"
  desc := "there is not enough data available in the stream; 1 byte was requested, and 0 were read"

/-! ## The readers -/

/-- What the calls of a reader use. -/
structure Reader (σ : Type) where
  readData : (limit : Nat) → (requireAll : Bool) → Program σ Fault (List UInt8)
  peek : Program σ Fault Int
  /-- The bytes that have not been read. -/
  unread : σ → List UInt8

/-- `StreamReader::peekCheck`. A negative value other than -1 comes with an exception, as is
asserted. -/
def Reader.peekCheck {σ : Type} (r : Reader σ) : Program σ Fault Int :=
  r.peek.bind fun rc =>
    if rc < 0 then
      if rc = -1 then .throw (.exception peekAtEnd) else .throw .assertion
    else .pure rc

namespace StreamReader

/-- The loop of `StreamReader::readData`. -/
def readLoop (limit : Nat) (requireAll : Bool) (read : List UInt8) (is : InputStream) :
    Except Fault (List UInt8) × InputStream :=
  match h : is.read (limit - read.length) with
  | ([], is') =>
    (if requireAll then .error (.exception (endOfStream limit read.length)) else .ok read, is')
  | (c :: cs, is') =>
    if (read ++ c :: cs).length = limit then (.ok (read ++ c :: cs), is')
    else readLoop limit requireAll (read ++ c :: cs) is'
termination_by limit - read.length
decreasing_by
  have hlen := is.length_read_le (limit - read.length)
  rw [h] at hlen
  simp only [List.length_append, List.length_cons] at hlen ⊢
  omega

/-- `StreamReader::readData`. -/
def readData (limit : Nat) (requireAll : Bool) : Program InputStream Fault (List UInt8) :=
  fun is => if limit = 0 then (.error .assertion, is) else readLoop limit requireAll [] is

end StreamReader

/-- `StreamReader`. -/
def streamReader : Reader InputStream where
  readData := StreamReader.readData
  peek := fun is => (.ok (nextByte is.rest), is)
  unread := InputStream.rest

/-- `BufferedStreamReader`; the buffer holds the bytes that count. -/
structure BufferedStreamReader where
  is : InputStream
  buf : List UInt8

namespace BufferedStreamReader

/-- `BufferedStreamReader::fillBuffer`. -/
def fillBuffer (bufCapacity bytes : Nat) : Program BufferedStreamReader Fault (List UInt8) :=
  fun s =>
    if bytes = 0 ∨ bufCapacity < s.buf.length + bytes then (.error .assertion, s)
    else
      let (rc, is) := s.is.read bytes
      (.ok rc, { is := is, buf := s.buf ++ rc })

/-- `BufferedStreamReader::shiftBuffer`. -/
def shiftBuffer (bytes : Nat) : Program BufferedStreamReader Fault Unit := fun s =>
  if s.buf.length < bytes ∨ bytes = 0 then (.error .assertion, s)
  else (.ok (), { s with buf := s.buf.drop bytes })

/-- The second loop of `readData`, through the buffer; it has read all but `toRead` bytes. -/
def fillLoop (bufCapacity limit : Nat) (requireAll : Bool) (read : List UInt8)
    (s : BufferedStreamReader) : Except Fault (List UInt8) × BufferedStreamReader :=
  let toRead := limit - read.length
  if toRead = 0 then (.ok read, s)
  else if s.buf ≠ [] then (.error .assertion, s)
  else
    match fillBuffer bufCapacity bufCapacity s with
    | (.error e, s) => (.error e, s)
    | (.ok [], s) =>
      (if requireAll then .error (.exception (endOfStreamBuffered limit read.length)) else .ok read,
        s)
    | (.ok (c :: cs), s) =>
      let len := min (c :: cs).length toRead
      match shiftBuffer len s with
      | (.error e, s) => (.error e, s)
      | (.ok (), s) =>
        let read' := read ++ (c :: cs).take len
        if limit - read'.length ≠ 0 ∧ s.buf ≠ [] then (.error .assertion, s)
        else fillLoop bufCapacity limit requireAll read' s
termination_by limit - read.length
decreasing_by
  simp only [List.length_append, List.length_take, List.length_cons]
  omega

/-- The first loop of `readData`, which reads into the target. -/
def directLoop (bufCapacity limit : Nat) (requireAll : Bool) (read : List UInt8)
    (s : BufferedStreamReader) : Except Fault (List UInt8) × BufferedStreamReader :=
  let toRead := limit - read.length
  if toRead ≤ bufCapacity / 2 then fillLoop bufCapacity limit requireAll read s
  else
    match s.is.read toRead with
    | ([], is) =>
      if requireAll then
        (.error (.exception (endOfStreamBuffered limit read.length)), { s with is := is })
      else fillLoop bufCapacity limit requireAll read { s with is := is }
    | (c :: cs, is) =>
      directLoop bufCapacity limit requireAll (read ++ c :: cs) { s with is := is }
termination_by limit - read.length
decreasing_by
  simp only [List.length_append, List.length_cons]
  omega

/-- `BufferedStreamReader::readData`. -/
def readData (bufCapacity limit : Nat) (requireAll : Bool) :
    Program BufferedStreamReader Fault (List UInt8) := fun s =>
  if limit = 0 then (.error .assertion, s)
  else if s.buf = [] then directLoop bufCapacity limit requireAll [] s
  else
    let read := s.buf.take (min limit s.buf.length)
    if limit < s.buf.length then
      match shiftBuffer limit s with
      | (.error e, s) => (.error e, s)
      | (.ok (), s) => (.ok read, s)
    else if limit - read.length = 0 then (.ok read, { s with buf := [] })
    else directLoop bufCapacity limit requireAll read { s with buf := [] }

/-- `BufferedStreamReader::peek`, which keeps the number of bytes in an `int`. -/
def peek (bufCapacity : Nat) : Program BufferedStreamReader Fault Int := fun s =>
  if s.buf = [] then
    match fillBuffer bufCapacity bufCapacity s with
    | (.error e, s) => (.error e, s)
    | (.ok data, s) =>
      let rc := truncInt data.length
      if rc = 0 then (.ok (-1), s)
      else if rc < 0 then (.ok (-2), s)
      else (.ok (firstChar s.buf), s)
  else (.ok (firstChar s.buf), s)

end BufferedStreamReader

/-- `BufferedStreamReader`. -/
def bufferedStreamReader (bufCapacity : Nat) : Reader BufferedStreamReader where
  readData := BufferedStreamReader.readData bufCapacity
  peek := BufferedStreamReader.peek bufCapacity
  unread := fun s => s.buf ++ s.is.rest

/-! ## The calls -/

/-- What a call gives. -/
inductive Value
  | nothing
  | binary (bytes : List UInt8)
  | string (bytes : List UInt8)
  | int (i : Int)
  deriving DecidableEq

/-- What the calls need to know of a character encoding. -/
structure Encoding where
  isAsciiCompat : Bool
  /-- The line feed. -/
  newline : List UInt8
  /-- `q_remove_bom_utf16` -/
  removeBomUtf16 : List UInt8 → List UInt8

/-- `StreamReader::STREAMREADER_BUFFER_SIZE`. -/
def streamReaderBufferSize : Nat := 4096

section
variable {σ : Type} (r : Reader σ)

/-- A loop that reads at least one byte in every pass but the last one. -/
def Reader.loop {α β : Type} (step : β → Program σ Fault (β ⊕ α)) (b : β) : Program σ Fault α :=
  fun s => Program.iterate step .endless ((r.unread s).length + 1) b s

/-- A pass of `StreamReader::readBinary` and `q_read_string_all` when there is no limit. -/
def Reader.readAllStep (b : List UInt8) : Program σ Fault (List UInt8 ⊕ List UInt8) :=
  (r.readData streamReaderBufferSize false).bind fun c =>
    .pure (if c = [] then .inr b else .inl (b ++ c))

/-- A pass of `StreamReader::readBinary` with a limit. -/
def Reader.readBinaryStep (b : List UInt8 × Nat) :
    Program σ Fault (List UInt8 × Nat ⊕ List UInt8) :=
  if b.2 = 0 then .pure (.inr b.1)
  else
    (r.readData (min b.2 streamReaderBufferSize) false).bind fun c =>
      .pure (if c = [] then .inr b.1 else .inl (b.1 ++ c, b.2 - c.length))

/-- `StreamReader::readBinary`. A limit below `-1` reads nothing. -/
def Reader.readBinary (limit : Int) : Program σ Fault Value :=
  if limit = 0 then .pure .nothing
  else
    (if limit = -1 then r.loop r.readAllStep [] else r.loop r.readBinaryStep ([], limit.toNat)).bind
      fun b => .pure (if b = [] then .nothing else .binary b)

/-- A pass of `q_read_string` for an encoding with one byte for each character. -/
def Reader.readStringStep (size : Nat) (str : List UInt8) :
    Program σ Fault (List UInt8 ⊕ List UInt8) :=
  (r.readData (size - str.length) false).bind fun c =>
    .pure (if c = [] ∨ (str ++ c).length = size then .inr (str ++ c) else .inl (str ++ c))

/-- `StreamReader::readString` for an encoding with one byte for each character. -/
def Reader.readString (size : Int) : Program σ Fault Value :=
  if size = 0 then .pure .nothing
  else
    (if size < 0 then r.loop r.readAllStep [] else r.loop (r.readStringStep size.toNat) []).bind
      fun str => .pure (if str = [] then .nothing else .string str)

/-- The search for the longest part of the line end that the string ends with. -/
def eolMatch (eol str : List UInt8) : Nat → Nat
  | 0 => 0
  | i + 1 =>
    if (eol ++ [0]).take (i + 1) = str.drop (str.length - (i + 1)) then i + 1
    else eolMatch eol str i

/-- A pass of `StreamReader::readLineEol`: the string so far and `eolpos`. A line end is read up to
its terminating null. -/
def Reader.readLineEolStep (enc : Encoding) (eol : List UInt8) (trim : Bool)
    (b : List UInt8 × Nat) : Program σ Fault (List UInt8 × Nat ⊕ Value) :=
  (r.readData 1 false).bind fun
    | [] => .pure (.inr (if b.1 = [] then .nothing else .string (enc.removeBomUtf16 b.1)))
    | c :: _ =>
      let str := b.1 ++ [c]
      match (eol ++ [0]).drop b.2 with
      | [] => .throw .undefined
      | e :: _ =>
        if e = c then
          if b.2 + 1 = eol.length then
            let str := if trim then str.take (str.length - (b.2 + 1)) else str
            .pure (.inr (.string (enc.removeBomUtf16 str)))
          else .pure (.inl (str, b.2 + 1))
        else .pure (.inl (str, eolMatch eol str b.2))

/-- `StreamReader::readLineEol`. -/
def Reader.readLineEol (enc : Encoding) (eol : List UInt8) (trim : Bool) : Program σ Fault Value :=
  r.loop (r.readLineEolStep enc eol trim) ([], 0)

/-- The end of a line after a carriage return. -/
def Reader.readLineFeed (trim : Bool) (str : List UInt8) : Program σ Fault Value :=
  r.peek.bind fun p =>
    if p = 10 then
      (r.readData 1 true).bind fun _ => .pure (.string (if trim then str else str ++ [10]))
    else .pure (.string str)

/-- A pass of `StreamReader::readLine` without a line end. -/
def Reader.readLineStep (trim : Bool) (str : List UInt8) :
    Program σ Fault (List UInt8 ⊕ Value) :=
  (r.readData 1 false).bind fun
    | [] => .pure (.inr (if str = [] then .nothing else .string str))
    | c :: _ =>
      if c = 10 then .pure (.inr (.string (if trim then str else str ++ [c])))
      else if c = 13 then
        (r.readLineFeed trim (if trim then str else str ++ [c])).bind fun v => .pure (.inr v)
      else .pure (.inl (str ++ [c]))

/-- `StreamReader::readLine`. The line end is in the encoding of the stream. -/
def Reader.readLine (enc : Encoding) (eol : Option (List UInt8)) (trim : Bool) :
    Program σ Fault Value :=
  match eol with
  | some eol => r.readLineEol enc eol trim
  | none =>
    if enc.isAsciiCompat then r.loop (r.readLineStep trim) []
    else r.readLineEol enc enc.newline trim

/-- A pass of `StreamReader::readNullTerminatedString`. -/
def Reader.readNullTerminatedStep (str : List UInt8) : Program σ Fault (List UInt8 ⊕ Value) :=
  (r.readData 1 false).bind fun
    | [] => .throw (.exception (noNull str.length))
    | c :: _ => .pure (if c = 0 then .inr (.string str) else .inl (str ++ [c]))

/-- `StreamReader::readNullTerminatedString`. -/
def Reader.readNullTerminatedString : Program σ Fault Value :=
  r.loop r.readNullTerminatedStep []

/-- `StreamReader::readExactString`. The string is a null pointer when nothing is read. -/
def Reader.readExactString (size : Nat) : Program σ Fault Value :=
  (r.readString size).bind fun
    | .string str =>
      if str.length < size then .throw (.exception (shortString str.length size))
      else .pure (.string str)
    | _ => .throw .undefined

/-- The number that bytes stand for, the first one being the highest. -/
def ofBytes (bytes : List UInt8) : Nat := bytes.foldl (fun n b => n * 256 + b.toNat) 0

/-- A two's complement number of a width in bytes. -/
def toSigned (width n : Nat) : Int := if n < 2 ^ (8 * width - 1) then n else n - 2 ^ (8 * width)

/-- The functions that read integers. -/
def Reader.readInt (width : Nat) (signed lsb : Bool) : Program σ Fault Value :=
  (r.readData width true).bind fun bytes =>
    let n := ofBytes (if lsb then bytes.reverse else bytes)
    .pure (.int (if signed then toSigned width n else n))

def Reader.readi1 : Program σ Fault Value := r.readInt 1 true false
def Reader.readi2 : Program σ Fault Value := r.readInt 2 true false
def Reader.readi4 : Program σ Fault Value := r.readInt 4 true false
def Reader.readi8 : Program σ Fault Value := r.readInt 8 true false
def Reader.readi2LSB : Program σ Fault Value := r.readInt 2 true true
def Reader.readi4LSB : Program σ Fault Value := r.readInt 4 true true
def Reader.readi8LSB : Program σ Fault Value := r.readInt 8 true true
def Reader.readu1 : Program σ Fault Value := r.readInt 1 false false
def Reader.readu2 : Program σ Fault Value := r.readInt 2 false false
def Reader.readu4 : Program σ Fault Value := r.readInt 4 false false
def Reader.readu2LSB : Program σ Fault Value := r.readInt 2 false true
def Reader.readu4LSB : Program σ Fault Value := r.readInt 4 false true

/-- `StreamReader::read`. The limit is asserted to be positive. -/
def Reader.read (limit : Nat) (requireAll : Bool) : Program σ Fault Value :=
  (r.readData limit requireAll).bind fun bytes => .pure (.binary bytes)

/-- A call of a reader. -/
inductive Call
  | readBinary (limit : Int)
  | readString (size : Int)
  | readLine (eol : Option (List UInt8)) (trim : Bool)
  | readNullTerminatedString
  | readExactString (size : Nat)
  | readi1 | readi2 | readi4 | readi8
  | readi2LSB | readi4LSB | readi8LSB
  | readu1 | readu2 | readu4
  | readu2LSB | readu4LSB
  | read (limit : Nat) (hlimit : 0 < limit) (requireAll : Bool)

def Reader.call (enc : Encoding) : Call → Program σ Fault Value
  | .readBinary limit => r.readBinary limit
  | .readString size => r.readString size
  | .readLine eol trim => r.readLine enc eol trim
  | .readNullTerminatedString => r.readNullTerminatedString
  | .readExactString size => r.readExactString size
  | .readi1 => r.readi1
  | .readi2 => r.readi2
  | .readi4 => r.readi4
  | .readi8 => r.readi8
  | .readi2LSB => r.readi2LSB
  | .readi4LSB => r.readi4LSB
  | .readi8LSB => r.readi8LSB
  | .readu1 => r.readu1
  | .readu2 => r.readu2
  | .readu4 => r.readu4
  | .readu2LSB => r.readu2LSB
  | .readu4LSB => r.readu4LSB
  | .read limit _ requireAll => r.read limit requireAll

end

/-- A sequence of calls: what they give, and the state that they leave. -/
def Reader.calls {σ : Type} (r : Reader σ) (enc : Encoding) :
    List Call → σ → List (Except Fault Value) × σ
  | [], s => ([], s)
  | c :: cs, s =>
    let (v, s) := r.call enc c s
    let (vs, s) := r.calls enc cs s
    (v :: vs, s)

end Qore.Stream
