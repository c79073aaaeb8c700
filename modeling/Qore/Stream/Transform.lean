import Qore.Lib.Conversion
import Qore.Stream.Reader

/-!
# `Qore.Stream.Transform`: streams that convert character encodings

`TransformInputStream` and `TransformOutputStream` apply a `Transform` to what they read and write.
`EncodingConvertor` is one: it keeps bytes that it could not convert yet in `inBuf` and converted
bytes in `outBuf`. `iconv` is a parameter.

`apply` is called without a source when no more input is available.
-/

set_option autoImplicit false

namespace Qore.Stream

open Qore.Lib

/-- `EncodingConvertor::BUFSIZE`. -/
@[irreducible] def convertorBufsize : Nat := 4096

/-- `Transform::outputBufferSize`. -/
@[irreducible] def outputBufferSize : Nat := 1024

/-- `Transform::inputBufferSize`. -/
@[irreducible] def inputBufferSize : Nat := 4096

/-- The bytes read from the source, and the bytes written to the target. -/
structure Applied where
  read : Nat
  written : List UInt8

/-! ## Reading -/

/-- A `Transform`, with the sizes of the buffers that it asks for. `apply` gets no source when `src`
is empty. `assertion` is how an assertion of the stream fails that uses it. -/
structure Transform (τ ε : Type) where
  inputBufferSize : Nat
  outputBufferSize : Nat
  apply : (src : List UInt8) → (dstLen : Nat) → τ → Except ε Applied × τ
  assertion : ε
  read_le : ∀ {src dstLen t a t'}, apply src dstLen t = (.ok a, t') → a.read ≤ src.length
  written_le : ∀ {src dstLen t a t'}, apply src dstLen t = (.ok a, t') → a.written.length ≤ dstLen

/-- A `TransformInputStream` with any transform; `outBuf` has the bytes that are left in it. -/
structure TransformStream (τ : Type) where
  is : InputStream
  t : τ
  buf : List UInt8
  outBuf : List UInt8
  eof : Bool

namespace TransformStream

variable {τ ε : Type} (T : Transform τ ε)

/-- The part of a pass of `read` that fills the input buffer. -/
def fill (s : TransformStream τ) : TransformStream τ :=
  if s.eof = false ∧ 0 < T.inputBufferSize - s.buf.length then
    let (data, is) := s.is.read (T.inputBufferSize - s.buf.length)
    if data = [] then { s with is := is, eof := true }
    else { s with is := is, buf := s.buf ++ data }
  else s

theorem length_fill (s : TransformStream τ) :
    (s.fill T).buf.length + (s.fill T).is.rest.length = s.buf.length + s.is.rest.length := by
  unfold fill InputStream.read
  dsimp only
  split
  · split
    · rename_i hnil
      have hlen := congrArg List.length hnil
      rw [List.length_take, List.length_nil] at hlen
      show s.buf.length + (s.is.rest.drop _).length = _
      rw [List.length_drop]
      omega
    · show (s.buf ++ s.is.rest.take _).length + (s.is.rest.drop _).length = _
      rw [List.length_append, List.length_take, List.length_drop]
      omega
  · rfl

/-- A pass of the loop of `read`: whether there is something in the output buffer or the stream has
ended, or the state for the next pass. -/
def pass (s : TransformStream τ) :
    (Except ε Bool × TransformStream τ) ⊕ TransformStream τ :=
  let f := s.fill T
  if f.eof = false ∧ f.buf = [] then .inl (.error T.assertion, f)
  else
    match T.apply f.buf T.outputBufferSize f.t with
    | (.error e, t) => .inl (.error e, { f with t := t })
    | (.ok a, t) =>
      if a.written ≠ [] then
        .inl (.ok true, { f with t := t, buf := f.buf.drop a.read, outBuf := a.written })
      else if a.read = 0 then
        if f.eof = false ∨ f.buf ≠ [] then .inl (.error T.assertion, { f with t := t })
        else .inl (.ok false, { f with t := t })
      else .inr { f with t := t, buf := f.buf.drop a.read }

/-- A pass that is not the last one has read something. -/
theorem length_pass_lt {s s' : TransformStream τ} (h : s.pass T = .inr s') :
    s'.buf.length + s'.is.rest.length < s.buf.length + s.is.rest.length := by
  have hlen := s.length_fill T
  unfold pass at h
  dsimp only at h
  split at h
  · cases h
  · split at h
    · cases h
    · rename_i a t happly
      have hread := T.read_le happly
      split at h
      · cases h
      · split at h
        · split at h <;> cases h
        · cases h
          show ((s.fill T).buf.drop a.read).length + (s.fill T).is.rest.length < _
          rw [List.length_drop]
          omega

/-- The loop of `read`. -/
def convert (s : TransformStream τ) : Except ε Bool × TransformStream τ :=
  match h : s.pass T with
  | .inl r => r
  | .inr s' => convert s'
termination_by s.buf.length + s.is.rest.length
decreasing_by exact length_pass_lt T h

/-- `TransformInputStream::readFromBuffer`. -/
def readFromBuffer (limit : Nat) (s : TransformStream τ) :
    Except ε (List UInt8) × TransformStream τ :=
  if s.outBuf = [] then (.error T.assertion, s)
  else
    let toCopy := min s.outBuf.length limit
    (.ok (s.outBuf.take toCopy), { s with outBuf := s.outBuf.drop toCopy })

/-- `TransformInputStream::read`; no bytes at the end of the stream. -/
def read (limit : Nat) (s : TransformStream τ) : Except ε (List UInt8) × TransformStream τ :=
  if s.outBuf ≠ [] then s.readFromBuffer T limit
  else
    match s.convert T with
    | (.error e, s') => (.error e, s')
    | (.ok false, s') => (.ok [], s')
    | (.ok true, s') => s'.readFromBuffer T limit

/-- Repeated reads up to the end of the stream or an exception: the bytes that are delivered, and
the exception. `none` when `n` reads are not enough. -/
def readAll : Nat → (limits : Nat → Nat) → TransformStream τ → Option (List UInt8 × Option ε)
  | 0, _, _ => none
  | n + 1, limits, s =>
    match s.read T (limits 0) with
    | (.error e, _) => some ([], some e)
    | (.ok [], _) => some ([], none)
    | (.ok (b :: bs), s') =>
      (readAll n (fun i => limits (i + 1)) s').map fun (bytes, e) => (b :: bs ++ bytes, e)

/-- A stream that has not been read yet. -/
def new (t : τ) (data : List UInt8) (chunk : Nat → Nat) : TransformStream τ where
  is := ⟨data, chunk⟩
  t := t
  buf := []
  outBuf := []
  eof := false

end TransformStream

/-! ## Writing -/

/-- `TransformOutputStream`; `os` has the bytes that have been written to the output stream. -/
structure TransformOutputStream (τ : Type) where
  os : List UInt8
  t : τ

namespace TransformOutputStream

variable {τ ε : Type} (T : Transform τ ε)

/-- `TransformOutputStream::write`. `none` when `n` passes are not enough. -/
def write : Nat → (src : List UInt8) → TransformOutputStream τ →
    Option (Except ε Unit × TransformOutputStream τ)
  | 0, _, _ => none
  | n + 1, src, s =>
    if src = [] then some (.ok (), s)
    else
      match T.apply src T.outputBufferSize s.t with
      | (.error e, t) => some (.error e, { s with t := t })
      | (.ok a, t) => write n (src.drop a.read) ⟨s.os ++ a.written, t⟩

/-- `TransformOutputStream::close`. -/
def close : Nat → TransformOutputStream τ → Option (Except ε Unit × TransformOutputStream τ)
  | 0, _ => none
  | n + 1, s =>
    match T.apply [] T.outputBufferSize s.t with
    | (.error e, t) => some (.error e, { s with t := t })
    | (.ok a, t) =>
      if a.written = [] then some (.ok (), { s with t := t })
      else close n ⟨s.os ++ a.written, t⟩

end TransformOutputStream

/-! ## The converter -/

/-- Why a stream fails. -/
inductive TransformFault
  /-- `IconvHelper::reportIllegalSequence` -/
  | illegalSequence (offset : Nat)
  | assertion
  deriving DecidableEq

/-- `EncodingConvertor`; `conv` is the state of `iconv`. -/
structure EncodingConvertor (c : Conversion convertorBufsize) where
  conv : c.State
  inBuf : List UInt8
  outBuf : List UInt8

section
variable {c : Conversion convertorBufsize} (iconv : Converter c)

/-- A pass of `apply` that copies something leaves less to do. -/
theorem length_drop_add_lt {src : List UInt8} {space dstLen size : Nat}
    (h : ¬(min src.length space = 0 ∧ min dstLen size = 0)) :
    (src.drop (min src.length space)).length + (dstLen - min dstLen size) <
      src.length + dstLen := by
  rw [List.length_drop]
  omega

/-- `EncodingConvertor::apply`. The bytes in `src` are those that have not been copied yet, and
`dstLen` is the room that is left. -/
def EncodingConvertor.apply (flush : Bool) (src : List UInt8) (dstLen : Nat)
    (t : EncodingConvertor c) : Except TransformFault Applied × EncodingConvertor c :=
  let r := min src.length (convertorBufsize - t.inBuf.length)
  let inBuf := t.inBuf ++ src.take r
  let reply := iconv.call t.conv inBuf (convertorBufsize - t.outBuf.length)
  if reply.status = .illegal ∨ reply.status = .incomplete ∧ flush then
    (.error (.illegalSequence reply.consumed), { t with conv := reply.state, inBuf := inBuf })
  else
    let outBuf := t.outBuf ++ reply.out
    let w := min dstLen outBuf.length
    let t' : EncodingConvertor c := ⟨reply.state, inBuf.drop reply.consumed, outBuf.drop w⟩
    if r = 0 ∧ w = 0 then (.ok ⟨0, []⟩, t')
    else
      match EncodingConvertor.apply flush (src.drop r) (dstLen - w) t' with
      | (.error e, t'') => (.error e, t'')
      | (.ok a, t'') => (.ok ⟨r + a.read, outBuf.take w ++ a.written⟩, t'')
termination_by src.length + dstLen
decreasing_by
  rename_i h
  exact length_drop_add_lt h

/-- Not more is read than there is, and not more is written than there is room for. -/
theorem EncodingConvertor.apply_le (flush : Bool) (src : List UInt8) (dstLen : Nat)
    (t : EncodingConvertor c) {a : Applied} {t' : EncodingConvertor c}
    (h : apply iconv flush src dstLen t = (.ok a, t')) :
    a.read ≤ src.length ∧ a.written.length ≤ dstLen := by
  fun_induction apply iconv flush src dstLen t generalizing a t' with
  | case1 => cases h
  | case2 =>
    cases h
    exact ⟨Nat.zero_le _, Nat.zero_le _⟩
  | case3 => cases h
  | case4 src dstLen t r inBuf reply hstatus outBuf w =>
    rename_i happly ih
    cases h
    obtain ⟨hread, hwritten⟩ := ih happly
    rw [List.length_drop] at hread
    constructor
    · show r + _ ≤ _
      omega
    · show (outBuf.take w ++ _).length ≤ dstLen
      rw [List.length_append, List.length_take]
      omega

/-- `EncodingConvertor` as a transform. -/
def convertorTransform : Transform (EncodingConvertor c) TransformFault where
  inputBufferSize := inputBufferSize
  outputBufferSize := outputBufferSize
  apply := fun src dstLen t => EncodingConvertor.apply iconv src.isEmpty src dstLen t
  assertion := .assertion
  read_le h := (EncodingConvertor.apply_le iconv _ _ _ _ h).1
  written_le h := (EncodingConvertor.apply_le iconv _ _ _ _ h).2

end

end Qore.Stream
