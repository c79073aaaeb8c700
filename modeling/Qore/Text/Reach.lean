import Mathlib
import Qore.Date.Info
import Qore.Text.Base64
import Qore.Text.Search

/-!
# `Qore.Text.Reach`: the representation of a string, over whole runs

A `QoreString` is made by a constructor and changed by calls. `Ctor.build` and `Op.step` model these
with all that they write into the buffer; a write outside of the buffer gives `none`.

A string is well formed if it has no buffer and no length, or if its length is less than the
allocated size and a zero follows the text. Most constructors and calls always leave a well-formed
string. `Ctor.Ok` and `Op.Ok` say when the others do:

* a date has to be printed in 14 characters, and a binary object must not be empty;
* `concat(str, size)` makes room for the length of the other string instead of its own;
* `replace` does not check its offset;
* `set` and `concatEncode` ask for room with a number of 32 bits;
* `sprintf` and `snprintf` add a number to the length that may be -1 or too large.

`run_wellFormed` is about all runs whose calls meet these conditions.
-/

set_option autoImplicit false

namespace Qore.Text

open Qore.Lib Qore.Lib.Cells Qore.Lib.Words Qore.Date

/-! ## Trimming -/

section
variable (M : Memory UInt8)

/-- `memmove(buf, buf + i, len + 1 - i); len -= i`. -/
def Str.cutFront (s : Str UInt8) (i : Nat) : Option (Str UInt8) := do
  let t ← s.memmove M 0 i (s.len + 1 - i)
  some (t.setLen (t.len - i))

/-- `default_whitespace`. -/
def defaultWhitespace : List Nat := [32, 9, 10, 13, 11]

/-- The argument of `trim(char)` and of `trim(const char*)`; the latter may be null. -/
inductive TrimChars
  | char (c : UInt8)
  | chars (cs : Option (List UInt8))

/-- The condition of the loops: `strchr` also finds the zero that ends its argument. -/
def TrimChars.matches : TrimChars → UInt8 → Bool
  | .char c, b => b = c
  | .chars none, b => b.toNat ∈ defaultWhitespace
  | .chars (some cs), b => b ∈ cs ∨ b = 0

/-- `trim_trailing(char)` and `trim_trailing(const char*)`. -/
def Str.trimTrailing (s : Str UInt8) (c : TrimChars) : Option (Str UInt8) :=
  if s.len = 0 then some s else s.terminate M (s.text.reverse.dropWhile c.matches).length

/-- `trim_leading(char)` and `trim_leading(const char*)`. -/
def Str.trimLeading (s : Str UInt8) (c : TrimChars) : Option (Str UInt8) :=
  let i := (s.text.takeWhile c.matches).length
  if s.len = 0 ∨ i = 0 then some s else s.cutFront M i

/-- `trim_single_trailing`. -/
def Str.trimSingleTrailing (s : Str UInt8) (c : UInt8) : Option (Str UInt8) :=
  if s.text.getLast? = some c then s.terminate M (s.len - 1) else some s

/-- `trim_single_leading`. -/
def Str.trimSingleLeading (s : Str UInt8) (c : UInt8) : Option (Str UInt8) :=
  if s.text.head? = some c then s.cutFront M 1 else some s

/-- The characters to trim, as codes; `none` when an exception is raised. -/
def trimCodes : Option (List UInt8 × Encoding) → Option (List Nat)
  | none => some defaultWhitespace
  | some (chars, e) => e.getUnicodeCharArray chars

/-- `trimLeading(xsink, chars)`; the second component tells whether an exception was raised. -/
def Str.trimLeadingCodes (s : Str UInt8) (e : Encoding) (chars : Option (List UInt8 × Encoding)) :
    Option (Str UInt8 × Bool) :=
  if s.len = 0 then some (s, false)
  else
    match trimCodes chars with
    | none => some (s, true)
    | some cvec =>
      match e.leadingBytes cvec s.text with
      | none => some (s, true)
      | some i => (s.cutFront M i).map (·, false)

/-- `getLength(buf, buf + len, xsink)`; `strlen` with one byte for each character. -/
def Str.charLength (s : Str UInt8) (e : Encoding) : Option Nat :=
  match e.next with
  | none => some (s.buf.takeWhile (· ≠ M.zero)).length
  | some next => if (countWords next s.text).2 then none else some (countWords next s.text).1

/-- The loop of `trimTrailing`, with `i` characters before the end. -/
def Str.trailingLoop (e : Encoding) (cvec : List Nat) : Nat → Str UInt8 → Option (Str UInt8)
  | 0, s => some s
  | i + 1, s =>
    match e.getByteLen s.text i with
    | none => some s
    | some bpos =>
      match e.getUnicode (s.text.drop bpos) with
      | none => some s
      | some (c, _) =>
        if c ≠ 0 ∧ c ∉ cvec then some s
        else do
          let s ← s.terminate M bpos
          Str.trailingLoop e cvec i s

/-- `trimTrailing(xsink, chars)`. -/
def Str.trimTrailingCodes (s : Str UInt8) (e : Encoding)
    (chars : Option (List UInt8 × Encoding)) : Option (Str UInt8) :=
  if s.len = 0 then some s
  else
    match trimCodes chars with
    | none => some s
    | some cvec =>
      match s.charLength M e with
      | none => some s
      | some i => Str.trailingLoop M e cvec i s

/-! ## Setting and replacing -/

/-- `set(const char*, enc)`; null sets an empty text. -/
def Str.setCStr (s : Str UInt8) : Option (List UInt8) → Option (Str UInt8)
  | none => if s.allocated = 0 then some (s.setLen 0) else (s.setLen 0).put 0 [M.zero]
  | some str => (s.setLen 0).concatCStr M str

/-- `set(const char*, size_t)`. -/
def Str.setMem (s : Str UInt8) : Option (List UInt8) → Option (Str UInt8)
  | none => if s.allocated = 0 then some (s.setLen 0) else (s.setLen 0).put 0 [M.zero]
  | some str => (s.setLen 0).concatMem M str

/-- `set(const QoreString*)` and `set(const std::string&, enc)`, which copy the zero too. -/
def Str.setStr (s : Str UInt8) (str : List UInt8) : Option (Str UInt8) :=
  ((s.setLen str.length).allocate M (str.length + 1)).put 0 (str ++ [M.zero])

/-- The constructor and `set` that take a buffer over. -/
def Str.adopt (nbuf : List UInt8) (nlen : Nat) : Option (Str UInt8) :=
  let s : Str UInt8 := ⟨nbuf, nlen, 0⟩
  if nbuf.length = nlen then (s.checkChar M nlen).put nlen [M.zero] else some s

/-- `replace`; the offset is not checked. -/
def Str.replace (s : Str UInt8) (offset dlen : Nat) (str : List UInt8) : Option (Str UInt8) :=
  if str.length = 0 then (s.spliceSimple M offset dlen none).map Prod.fst
  else (s.spliceSimpleStr M offset dlen str none).map Prod.fst

/-! ## Appending parts -/

/-- The bytes of `concat(str, size, xsink)`; `none` when an exception is raised. With one byte for
each character the size is not compared with the length of the other string. -/
def partSize (e : Encoding) (str : List UInt8) (size : Nat) : Option Nat :=
  match e.next with
  | none => some size
  | some _ => e.getByteLen str size

/-- `concat(str, size, xsink)`: the room is computed with the length of the other string. -/
def Str.concatSize (s : Str UInt8) (e : Encoding) (str : List UInt8) (size : Nat) :
    Option (Str UInt8) :=
  if str.length = 0 then some s
  else
    match partSize e str size with
    | none => some s
    | some size => s.concatWith M (str.length + size + strClassExtra)
        (fetch M.junk (source M str).buf 0 size)

/-- `concat(str, pos, xsink)`. -/
def Str.concatFrom (s : Str UInt8) (e : Encoding) (str : List UInt8) (pos : Int) :
    Option (Str UInt8) :=
  match e.next with
  | none => (s.concatPos M (source M str) pos).map Prod.fst
  | some next => (s.concatPosMulti M next (source M str) pos).map Prod.fst

/-- `concat(str, pos, len, xsink)`. -/
def Str.concatPart (s : Str UInt8) (e : Encoding) (str : List UInt8) (pos len : Int) :
    Option (Str UInt8) :=
  match e.next with
  | none => (s.concatPosLen M (source M str) pos len).map Prod.fst
  | some next => (s.concatPosLenMulti M next (source M str) pos len).map Prod.fst

/-- `splice`, `extract` and `substr`. -/
def Str.cut (s : Str UInt8) (e : Encoding) (op : CutOp UInt8) : Option (Str UInt8) :=
  match e.next with
  | none => (op.simple M s).map Prod.fst
  | some next => (op.complex M next s).map Prod.fst

end

/-! ## Constructors and calls -/

/-- A string. -/
structure QoreString where
  str : Str UInt8
  encoding : Encoding

/-- A constructor of `QoreString` with its arguments. -/
inductive Ctor
  /-- `QoreString()` and `QoreString(enc)` -/
  | empty
  /-- `QoreString(const char*)` and `QoreString(const char*, enc)` -/
  | cstr (str : Option (List UInt8))
  /-- `QoreString(const std::string&, enc)` -/
  | stdString (str : List UInt8)
  /-- `QoreString(const char*, size_t, enc)` -/
  | mem (str : List UInt8)
  /-- `QoreString(const QoreString*)` and `QoreString(const QoreString&)` -/
  | copy (str : List UInt8)
  /-- `QoreString(const QoreString*, size_t)` -/
  | copySize (str : List UInt8) (size : Nat)
  /-- `QoreString(char)` -/
  | char (c : UInt8)
  /-- `QoreString(int64)` -/
  | int64 (i : Int64)
  /-- `QoreString(bool)` -/
  | bool (b : Bool)
  /-- `QoreString(const DateTime*)`, with the fields that `getInfo` finds -/
  | date (info : SimpleTm)
  /-- `QoreString(const BinaryNode*)` and `QoreString(const BinaryNode*, size_t)` -/
  | binary (b : List UInt8) (maxlinelen : Nat)
  /-- `QoreString(char*, size_t, size_t, enc)` -/
  | adopt (nbuf : List UInt8) (nlen : Nat)

/-- A call that changes a string. Other strings are given by their text, converted to the encoding of
the string where the program does so; when that fails, there is no call. -/
inductive Op
  /-- `concat(char)` -/
  | concatChar (c : UInt8)
  /-- `concat(const char*)` and `operator+=` -/
  | concatCStr (str : Option (List UInt8))
  /-- `concat(const char*, size_t)` and `concat(const std::string&)` -/
  | concatMem (str : List UInt8)
  /-- `concat(const QoreString*)` and `concat(const QoreString*, xsink)` -/
  | concatStr (str : List UInt8)
  /-- `concat(const QoreString*, size_t, xsink)` -/
  | concatSize (str : List UInt8) (size : Nat)
  /-- `concat(const QoreString&, pos, xsink)` -/
  | concatFrom (str : List UInt8) (pos : Int)
  /-- `concat(const QoreString&, pos, len, xsink)` -/
  | concatPart (str : List UInt8) (pos len : Int)
  | addch (c : UInt8) (times : Nat)
  | insertch (c : UInt8) (pos times : Nat)
  | insert (str : List UInt8) (pos : Nat)
  | prepend (str : List UInt8)
  /-- `splice` and `extract` -/
  | cut (op : CutOp UInt8)
  | replace (offset dlen : Nat) (str : List UInt8)
  /-- `trim(char)` and `trim(const char*)` -/
  | trim (c : TrimChars)
  | trimLeading (c : TrimChars)
  | trimTrailing (c : TrimChars)
  | trimSingleLeading (c : UInt8)
  | trimSingleTrailing (c : UInt8)
  /-- `trim(xsink, chars)` -/
  | trimCodes (chars : Option (List UInt8 × Encoding))
  /-- `trimLeading(xsink, chars)` -/
  | trimLeadingCodes (chars : Option (List UInt8 × Encoding))
  /-- `trimTrailing(xsink, chars)` -/
  | trimTrailingCodes (chars : Option (List UInt8 × Encoding))
  | terminate (size : Nat)
  /-- `set(const char*, enc)` -/
  | setCStr (str : Option (List UInt8)) (e : Encoding)
  /-- `set(const char*, size_t)` -/
  | setMem (str : Option (List UInt8))
  /-- `set(const QoreString*)`, `set(const std::string&, enc)` and `operator=` -/
  | setStr (str : List UInt8) (e : Encoding)
  /-- `set(char*, size_t, size_t, enc)` -/
  | adopt (nbuf : List UInt8) (nlen : Nat) (e : Encoding)
  /-- `sprintf`, with the length of the format and the formatted text -/
  | sprintf (fmtlen : Nat) (out : List UInt8)
  | snprintf (size : Nat) (out : List UInt8)
  | concatHex (binbuf : List UInt8)
  | concatBase64 (bbuf : List UInt8) (maxlinelen : Nat) (urlEncode : Bool)
  | concatEncode (str : List UInt8) (strEncoding : Encoding) (code : Nat)

section
variable (M : Memory UInt8)

/-- `MAX_BIGINT_STRING_LEN`. -/
def maxBigintStringLen : Nat := 48

/-- A new buffer of `n` cells with a text and the zero. -/
def Str.ofCells (n : Nat) (str : List UInt8) : Option (Str UInt8) := do
  let s ← (Str.malloc M n).put 0 str
  s.endAt M str.length

/-- `"%04d%02d%02d%02d%02d%02d"`. -/
def dateText (info : SimpleTm) : List UInt8 :=
  paddedInt 4 info.year ++ (paddedInt 2 info.month ++ (paddedInt 2 info.day ++
    (paddedInt 2 info.hour ++ (paddedInt 2 info.minute ++ paddedInt 2 info.second))))

/-- The string that a constructor makes. -/
def Ctor.build : Ctor → Option (Str UInt8)
  | .empty => Str.new M
  | .cstr none => Str.new M
  | .cstr (some str) => (Str.malloc M strClassBlock).concatCStr M str
  | .stdString str => Str.ofCells M (str.length + 1 + strClassBlock) str
  | .mem str => Str.ofCells M (str.length + strClassExtra) str
  | .copy str => Str.ofCells M (cacheLines (str.length + strClassExtra)) str
  | .copySize str size =>
    Str.ofCells M ((if str.length ≤ size then str.length else size) + strClassExtra) (str.take size)
  | .char c => Str.ofCells M strClassBlock [c]
  | .int64 i => do
    let (s, len) ← (Str.malloc M (maxBigintStringLen + 1)).cVsnprintf M maxBigintStringLen
      (paddedInt 0 i.toInt)
    let s ← s.put maxBigintStringLen [M.zero]
    some (s.setLen (toSize len))
  | .bool b => Str.ofCells M 2 (ascii (if b then "1" else "0"))
  | .date info => do
    let s ← (Str.malloc M 15).put 0 (dateText info ++ [M.zero])
    some (s.setLen (dateText info).length)
  | .binary b maxlinelen =>
    (Str.malloc M (b.length + b.length * 4 / 10 + 10)).concatBase64 M b maxlinelen false
  | .adopt nbuf nlen => Str.adopt M nbuf nlen

/-- The string after a call. -/
def Op.apply (q : QoreString) : Op → Option (Str UInt8)
  | .concatChar c => q.str.concatChar M c
  | .concatCStr none => some q.str
  | .concatCStr (some str) => q.str.concatCStr M str
  | .concatMem str => q.str.concatMem M str
  | .concatStr str => q.str.concatStr M str
  | .concatSize str size => q.str.concatSize M q.encoding str size
  | .concatFrom str pos => q.str.concatFrom M q.encoding str pos
  | .concatPart str pos len => q.str.concatPart M q.encoding str pos len
  | .addch c times => q.str.concatMem M (List.replicate times c)
  | .insertch c pos times => q.str.insertch M c pos times
  | .insert str pos => q.str.insert M str pos
  | .prepend str => q.str.prepend M str
  | .cut op => q.str.cut M q.encoding op
  | .replace offset dlen str => q.str.replace M offset dlen str
  | .trim c => do
    let s ← q.str.trimTrailing M c
    s.trimLeading M c
  | .trimLeading c => q.str.trimLeading M c
  | .trimTrailing c => q.str.trimTrailing M c
  | .trimSingleLeading c => q.str.trimSingleLeading M c
  | .trimSingleTrailing c => q.str.trimSingleTrailing M c
  | .trimCodes chars => do
    let (s, failed) ← q.str.trimLeadingCodes M q.encoding chars
    if failed then some s else s.trimTrailingCodes M q.encoding chars
  | .trimLeadingCodes chars => (q.str.trimLeadingCodes M q.encoding chars).map Prod.fst
  | .trimTrailingCodes chars => q.str.trimTrailingCodes M q.encoding chars
  | .terminate size => q.str.terminate M size
  | .setCStr str _ => q.str.setCStr M str
  | .setMem str => q.str.setMem M str
  | .setStr str _ => q.str.setStr M str
  | .adopt nbuf nlen _ => Str.adopt M nbuf nlen
  | .sprintf fmtlen out => q.str.sprintf M fmtlen out
  | .snprintf size out => q.str.snprintf M size out
  | .concatHex binbuf => q.str.concatHex M binbuf
  | .concatBase64 bbuf maxlinelen urlEncode => q.str.concatBase64 M bbuf maxlinelen urlEncode
  | .concatEncode str strEncoding code => q.str.concatEncode M q.encoding str strEncoding code

/-- The encoding after a call. -/
def Op.encoding (q : QoreString) : Op → Encoding
  | .setCStr _ e | .setStr _ e | .adopt _ _ e => e
  | _ => q.encoding

/-- A call. -/
def Op.step (q : QoreString) (op : Op) : Option QoreString :=
  (op.apply M q).map (⟨·, op.encoding q⟩)

end

/-! ## The conditions -/

/-- The promise of the caller whose buffer is taken over. -/
def Adoptable (nbuf : List UInt8) (nlen : Nat) : Prop :=
  nlen ≤ nbuf.length ∧ (nlen < nbuf.length → nbuf[nlen]? = some 0)

/-- The fields of a date that have the width of the format. -/
structure FourDigits (info : SimpleTm) : Prop where
  year : -999 ≤ info.year ∧ info.year ≤ 9999
  month : -9 ≤ info.month ∧ info.month ≤ 99
  day : -9 ≤ info.day ∧ info.day ≤ 99
  hour : -9 ≤ info.hour ∧ info.hour ≤ 99
  minute : -9 ≤ info.minute ∧ info.minute ≤ 99
  second : -9 ≤ info.second ∧ info.second ≤ 99

/-- When a constructor makes a well-formed string. -/
def Ctor.Ok : Ctor → Prop
  | .date info => FourDigits info
  | .binary b _ => b ≠ []
  | .adopt nbuf nlen => Adoptable nbuf nlen
  | _ => True

/-- The allocated size after `check_char`. -/
def checkedSize (allocated i : Nat) : Nat := if allocated ≤ i then grownSize i else allocated

/-- When a call keeps a string well formed. -/
def Op.Ok (q : QoreString) : Op → Prop
  | .concatSize str size => ∀ n, str ≠ [] → partSize q.encoding str size = some n →
      q.str.len + n < checkedSize q.str.allocated (str.length + n + strClassExtra)
  | .replace offset _ _ => offset ≤ q.str.len
  | .setStr str _ => str.length < allocateSize q.str.allocated (str.length + 1)
  | .adopt nbuf nlen _ => Adoptable nbuf nlen
  | .sprintf _ out => out.length < 2 ^ 31
  | .snprintf size out => out.length < size ∧ out.length < 2 ^ 31 ∧
      q.str.len + out.length < snprintfSize q.str.allocated q.str.len size
  | .concatEncode str _ code => str ≠ [] → code ≠ 0 →
      q.str.len < allocateSize q.str.allocated (encodeNeed q.str.len str.length)
  | _ => True

/-- The representation invariant. -/
def WellFormed (s : Str UInt8) : Prop :=
  (s.allocated = 0 ∧ s.len = 0) ∨ (s.len < s.allocated ∧ s.buf[s.len]? = some 0)

/-- The strings that runs reach, where the constructor meets `C` and each call meets `P` in the state
before it. What memory holds that was not written may be different in each call. -/
inductive Reached (C : Ctor → Prop) (P : QoreString → Op → Prop) : QoreString → Prop
  | build {c : Ctor} {s : Str UInt8} (junk : Nat → UInt8) (e : Encoding) (hc : C c)
      (h : c.build (byteMemory junk) = some s) : Reached C P ⟨s, e⟩
  | step {q t : QoreString} {op : Op} (junk : Nat → UInt8) (hq : Reached C P q) (hop : P q op)
      (h : op.step (byteMemory junk) q = some t) : Reached C P t

/-- Every constructor and every call writes inside of the buffer, and every string that is reached is
well formed. -/
def RepresentationKept (junk : Nat → UInt8) (C : Ctor → Prop) (P : QoreString → Op → Prop) : Prop :=
  (∀ c, C c → (c.build (byteMemory junk)).isSome) ∧
    ∀ q, Reached C P q → WellFormed q.str ∧ ∀ op, P q op → (op.step (byteMemory junk) q).isSome

/-! ## Calls that always keep the text -/

section
variable {M : Memory UInt8} {s : Str UInt8} {xs : List UInt8}

/-- The zero is written at an index of the buffer. -/
theorem endAt_keeps {n : Nat} (hn : n < s.allocated) : Keeps M id (s.endAt M n) := by
  unfold Str.allocated at hn
  exact (endAt_yields s (s.buf.take n) (s.buf.drop n) (List.take_append_drop n s.buf).symm
    (by rw [List.length_drop]; omega) (List.length_take_of_le (Nat.le_of_lt hn)).symm).keeps

theorem terminate_keeps (h : Holds M s xs) (size : Nat) : Keeps M id (s.terminate M size) := by
  unfold Str.terminate
  split
  · exact endAt_keeps (s.lt_allocated_checkChar size)
  · have hlt := h.lt_allocated
    exact endAt_keeps (by omega)

theorem cutFront_keeps (h : Holds M s xs) {i : Nat} (hi : i ≤ s.len) :
    Keeps M id (s.cutFront M i) := by
  have hlen := h.len_eq
  obtain ⟨r, hbuf, -⟩ := h
  have htake : (xs.take i).length = i := List.length_take_of_le (by omega)
  have hdrop : (xs.drop i ++ [M.zero]).length = s.len + 1 - i := by
    rw [List.length_append, List.length_drop, List.length_singleton]
    omega
  -- the text behind `i` moves to the front, together with the zero
  obtain ⟨t, m, q, hmove, htbuf, hm, -, htl, -⟩ := memmove_gap (M := M) s [] (xs.take i)
    (xs.drop i ++ [M.zero]) r 0 (s.len + 1 - i)
    (by
      rw [hbuf, List.nil_append, List.append_assoc, ← List.append_assoc, List.take_append_drop]
      rfl)
    (Nat.le_of_eq hdrop) (by omega)
  rw [List.length_nil, Nat.zero_add, Nat.zero_add, htake] at hmove
  rw [Str.cutFront, hmove]
  refine ⟨t.setLen (t.len - i), xs.drop i, rfl, q, ?_, ?_⟩
  · show t.buf = xs.drop i ++ M.zero :: q
    rw [htbuf, List.length_eq_zero_iff.mp hm]
    simp
  · show t.len - i = _
    rw [htl, hlen, List.length_drop]

theorem length_text (h : Holds M s xs) : s.text.length = s.len := by
  rw [h.fills.text_eq, h.len_eq]

theorem trimTrailing_keeps (h : Holds M s xs) (c : TrimChars) :
    Keeps M id (s.trimTrailing M c) := by
  unfold Str.trimTrailing
  split
  · exact h.keeps
  · exact terminate_keeps h _

theorem trimLeading_keeps (h : Holds M s xs) (c : TrimChars) : Keeps M id (s.trimLeading M c) := by
  unfold Str.trimLeading
  dsimp only
  split
  · exact h.keeps
  · refine cutFront_keeps h ?_
    rw [← length_text h]
    exact (List.takeWhile_prefix _).length_le

theorem trimSingleTrailing_keeps (h : Holds M s xs) (c : UInt8) :
    Keeps M id (s.trimSingleTrailing M c) := by
  unfold Str.trimSingleTrailing
  split
  · exact terminate_keeps h _
  · exact h.keeps

theorem trimSingleLeading_keeps (h : Holds M s xs) (c : UInt8) :
    Keeps M id (s.trimSingleLeading M c) := by
  unfold Str.trimSingleLeading
  split
  · rename_i hhead
    refine cutFront_keeps h ?_
    rw [← length_text h]
    exact List.length_pos_of_ne_nil fun hnil => by simp [hnil] at hhead
  · exact h.keeps

theorem trimLeadingCodes_keeps (h : Holds M s xs) (e : Encoding)
    (chars : Option (List UInt8 × Encoding)) :
    Keeps M Prod.fst (s.trimLeadingCodes M e chars) := by
  unfold Str.trimLeadingCodes
  split
  · exact ⟨_, xs, rfl, h⟩
  · split
    · exact ⟨_, xs, rfl, h⟩
    · split
      · exact ⟨_, xs, rfl, h⟩
      · rename_i i hi
        have hle := Encoding.leadingBytes_le _ _ _ hi
        rw [length_text h] at hle
        exact (cutFront_keeps h hle).map fun _ => rfl

/-- Each round of the loop may cut the text off. -/
theorem trailingLoop_keeps (e : Encoding) (cvec : List Nat) (i : Nat) :
    ∀ {s : Str UInt8} {xs : List UInt8}, Holds M s xs →
      Keeps M id (Str.trailingLoop M e cvec i s) := by
  induction i with
  | zero =>
    intro s xs h
    exact h.keeps
  | succ i ih =>
    intro s xs h
    rw [Str.trailingLoop]
    split
    · exact h.keeps
    · split
      · exact h.keeps
      · split
        · exact h.keeps
        · exact (terminate_keeps h _).bind fun t ys ht => ih ht

theorem trimTrailingCodes_keeps (h : Holds M s xs) (e : Encoding)
    (chars : Option (List UInt8 × Encoding)) :
    Keeps M id (s.trimTrailingCodes M e chars) := by
  unfold Str.trimTrailingCodes
  split
  · exact h.keeps
  · split
    · exact h.keeps
    · split
      · exact h.keeps
      · exact trailingLoop_keeps e _ _ h

/-- The text is emptied first. -/
theorem fills_setLen_zero (s : Str UInt8) : Fills (s.setLen 0) [] := ⟨s.buf, rfl, rfl⟩

theorem setNull_keeps (h : Holds M s xs) :
    Keeps M id (if s.allocated = 0 then some (s.setLen 0) else (s.setLen 0).put 0 [M.zero]) := by
  have hlt := h.lt_allocated
  rw [if_neg (by omega)]
  exact endAt_keeps (s := s) (n := 0) (by omega)

theorem setCStr_keeps (h : Holds M s xs) (str : Option (List UInt8)) :
    Keeps M id (s.setCStr M str) := by
  cases str with
  | none => exact setNull_keeps h
  | some str => exact (concatCStr_holds (fills_setLen_zero s) str).keeps

theorem setMem_keeps (h : Holds M s xs) (str : Option (List UInt8)) :
    Keeps M id (s.setMem M str) := by
  cases str with
  | none => exact setNull_keeps h
  | some str => exact (concatMem_holds (fills_setLen_zero s) str).keeps

theorem insertCells_keeps (h : Holds M s xs) (ys : List UInt8) {pos : Nat} (hpos : pos ≤ s.len) :
    Keeps M id (s.insertCells M ys pos) := by
  have hlen := h.len_eq
  have hsplit : Holds M s (xs.take pos ++ xs.drop pos) := by rwa [List.take_append_drop]
  obtain ⟨m, hm⟩ := insertCells_holds hsplit ys
  rw [List.length_take_of_le (by omega)] at hm
  exact hm.keeps

theorem insertch_keeps (h : Holds M s xs) (c : UInt8) (pos times : Nat) :
    Keeps M id (s.insertch M c pos times) := by
  unfold Str.insertch
  split
  · exact h.keeps
  · exact insertCells_keeps h _ (by omega)

theorem insert_keeps (h : Holds M s xs) (str : List UInt8) (pos : Nat) :
    Keeps M id (s.insert M str pos) := by
  unfold Str.insert
  split
  · exact h.keeps
  · exact insertCells_keeps h _ (by omega)

/-! ## Parts of other strings -/

theorem concatIntern_keeps (h : Holds M s xs) (str : Str UInt8) (pos plen : Nat) :
    Keeps M Prod.fst (s.concatIntern M str pos plen) :=
  (concatMem_holds h.fills _).keeps.map fun _ => rfl

theorem concatSimple_keeps (h : Holds M s xs) (str : Str UInt8) (pos : Int) :
    Keeps M Prod.fst (s.concatSimple M str pos) := by
  unfold Str.concatSimple
  split
  · exact concatIntern_keeps h _ _ _
  · split
    · exact ⟨_, xs, rfl, h⟩
    · exact concatIntern_keeps h _ _ _

theorem concatFrom_keeps (h : Holds M s xs) (e : Encoding) (str : List UInt8) (pos : Int) :
    Keeps M id (s.concatFrom M e str pos) := by
  unfold Str.concatFrom
  split
  · refine Keeps.map (f := Prod.fst) ?_ fun _ => rfl
    unfold Str.concatPos
    split
    · exact ⟨_, xs, rfl, h⟩
    · exact concatSimple_keeps h _ _
  · refine Keeps.map (f := Prod.fst) ?_ fun _ => rfl
    unfold Str.concatPosMulti
    split
    · exact ⟨_, xs, rfl, h⟩
    · split
      · exact ⟨_, xs, rfl, h⟩
      · split
        · exact ⟨_, xs, rfl, h⟩
        · exact concatIntern_keeps h _ _ _

theorem concatPart_keeps (h : Holds M s xs) (e : Encoding) (str : List UInt8) (pos len : Int) :
    Keeps M id (s.concatPart M e str pos len) := by
  unfold Str.concatPart
  split
  · refine Keeps.map (f := Prod.fst) ?_ fun _ => rfl
    unfold Str.concatPosLen
    split
    · exact ⟨_, xs, rfl, h⟩
    · exact concatSimple_keeps h _ _
  · refine Keeps.map (f := Prod.fst) ?_ fun _ => rfl
    unfold Str.concatPosLenMulti
    split
    · exact ⟨_, xs, rfl, h⟩
    · split
      · exact ⟨_, xs, rfl, h⟩
      · split
        · exact ⟨_, xs, rfl, h⟩
        · split
          · exact ⟨_, xs, rfl, h⟩
          · split
            · exact ⟨_, xs, rfl, h⟩
            · exact concatIntern_keeps h _ _ _

/-! ## Cutting any bytes -/

theorem Cut.keeps {r : Option (Str UInt8 × Option (Str UInt8))} {extract : Option (Str UInt8)}
    {d : List UInt8} {moved : Nat → Prop} (h : Cut M r extract xs d moved) : Keeps M Prod.fst r := by
  obtain ⟨t, e, hr, ht, -⟩ := h
  exact ⟨(t, e), xs, hr, ht⟩

/-- A new string is given to extract to. -/
theorem newExtract_keeps {f : Option (Str UInt8) → Option (Str UInt8 × Option (Str UInt8))}
    (h : ∀ extract, Extracted M extract [] → Keeps M Prod.fst (f extract)) :
    Keeps M Prod.fst ((Str.new M).bind fun e => f (some e)) := by
  obtain ⟨e, hnew, hempty, -⟩ := new_yields (M := M)
  rw [hnew, Option.bind_some]
  exact h (some e) fun x hx => Option.some.inj hx ▸ hempty

theorem extracted_none : Extracted M none [] := fun e he => by cases he

/-- The new string of `substr`. -/
theorem substrCopy_isSome (ys : List UInt8) :
    ∃ e, (do
      let ns ← Str.new M
      let ns ← ns.concatMem M ys
      some (some ns)) = some e := by
  obtain ⟨e, hnew, hempty, -⟩ := new_yields (M := M)
  obtain ⟨e', he', -, -⟩ := concatMem_holds (M := M) hempty.fills ys
  exact ⟨some e', by rw [hnew]; simp only [Option.bind_eq_bind, Option.bind_some, he']⟩

/-- `substr` leaves the string alone. -/
theorem substr_keeps (h : Holds M s xs) {r : Option (Option (Str UInt8))} (hr : ∃ e, r = some e) :
    Keeps M Prod.fst (r.map (s, ·)) := by
  obtain ⟨e, rfl⟩ := hr
  exact ⟨(s, e), xs, rfl, h⟩

theorem simple_keeps (h : Holds M s xs) (op : CutOp UInt8) : Keeps M Prod.fst (op.simple M s) := by
  have hnum : ∀ o n : Int, ∀ extract, Extracted M extract [] →
      Keeps M Prod.fst (s.cutNum M o n extract) := fun o n _ he => (cutNum_cut h o n he).keeps
  have hstr : ∀ (o n : Int) (str : List UInt8), ∀ extract, Extracted M extract [] →
      Keeps M Prod.fst (s.cutStr M o n str extract) := fun o n str _ he =>
    (cutStr_cut h o n str he).keeps
  -- with a value, an empty text is no replacement
  have hval : ∀ (o n : Int) (str : List UInt8), ∀ extract, Extracted M extract [] →
      Keeps M Prod.fst (if str.length = 0 then s.cutNum M o n extract
        else s.cutStr M o n str extract) := by
    intro o n str extract he
    split
    · exact hnum o n extract he
    · exact hstr o n str extract he
  cases op with
  | substr o =>
    refine substr_keeps h ?_
    unfold Str.substrSimple
    dsimp only
    split
    · exact ⟨none, rfl⟩
    · exact substrCopy_isSome _
  | substrLen o l =>
    refine substr_keeps h ?_
    unfold Str.substrSimpleLen
    dsimp only
    split
    · exact ⟨none, rfl⟩
    · exact substrCopy_isSome _
  | splice o => exact (cutEnd_cut h o.toInt extracted_none).keeps
  | spliceNum o n => exact hnum _ _ none extracted_none
  | spliceStr o n str => exact hstr _ _ str none extracted_none
  | spliceVal o n str => exact hval _ _ str none extracted_none
  | extract o => exact newExtract_keeps fun e he => (cutEnd_cut h o.toInt he).keeps
  | extractNum o n => exact newExtract_keeps (hnum _ _)
  | extractVal o n str => exact newExtract_keeps (hval _ _ str)

section
variable {next : List UInt8 → Int} (hnext : ∀ p, p ≠ [] → next p ≤ p.length)
  {extract : Option (Str UInt8)}
include hnext

/-- The text is cut off at a position in bytes. -/
theorem spliceComplex_keeps (h : Holds M s xs) (offset : Int) (he : Extracted M extract []) :
    Keeps M Prod.fst (s.spliceComplex M next offset extract) := by
  unfold Str.spliceComplex
  dsimp only
  split
  · exact ⟨_, xs, rfl, h⟩
  · split
    · exact ⟨_, xs, rfl, h⟩
    · generalize (if offset < 0 then (if ((countWords next s.text).1 : Int) + offset < 0 then 0
        else ((countWords next s.text).1 : Int) + offset) else offset) = o
      have hpos : (if o ≠ 0 then lettersOf next s.text o.toNat else (0, false)).1 ≤ s.len := by
        split
        · rw [← length_text h]
          exact lettersOf_le hnext _ _
        · exact Nat.zero_le _
      generalize (if o ≠ 0 then lettersOf next s.text o.toNat else (0, false)) = r at hpos
      obtain ⟨n, invalid⟩ := r
      split
      · exact ⟨_, xs, rfl, h⟩
      · have hlt := h.lt_allocated
        have hend : ∀ e' : Option (Str UInt8), Keeps M Prod.fst ((s.endAt M n).bind fun t => some (t, e')) := fun e' =>
          (endAt_keeps (by omega)).bind fun t ys ht => ⟨_, ys, rfl, ht⟩
        cases extract with
        | none => exact hend none
        | some e =>
          dsimp only
          split
          · obtain ⟨e', he', -, -⟩ := concatCStr_holds (M := M) (he e rfl).fills
              ((s.buf.drop n).takeWhile (· ≠ M.zero))
            rw [he']
            exact hend (some e')
          · exact hend (some e)

theorem spliceComplexNum_keeps (h : Holds M s xs) (offset num : Int) (he : Extracted M extract []) :
    Keeps M Prod.fst (s.spliceComplexNum M next offset num extract) := by
  unfold Str.spliceComplexNum
  dsimp only
  split
  · exact ⟨_, xs, rfl, h⟩
  · split
    · exact ⟨_, xs, rfl, h⟩
    · rename_i hbehind
      split
      · exact ⟨_, xs, rfl, h⟩
      · rename_i o e n hrange
        obtain ⟨rfl, hle, -, -⟩ := byteRange_eq_some hnext (by split <;> [split; skip] <;> omega) hrange
        rw [length_text h] at hle
        rw [spliceSimple_of_range s o n extract hle]
        exact (spliceSimple_take_drop h (by have := h.len_eq; omega) n he).keeps

theorem spliceComplexStr_keeps (h : Holds M s xs) (offset num : Int) (str : List UInt8)
    (he : Extracted M extract []) :
    Keeps M Prod.fst (s.spliceComplexStr M next offset num str extract) := by
  unfold Str.spliceComplexStr
  dsimp only
  split
  · exact ⟨_, xs, rfl, h⟩
  · split
    · exact ⟨_, xs, rfl, h⟩
    · rename_i o e n hrange
      have hoff : (if ((countWords next s.text).1 : Int) ≤ offset then
          ((countWords next s.text).1 : Int)
        else if offset < 0 then (if ((countWords next s.text).1 : Int) + offset < 0 then 0
          else ((countWords next s.text).1 : Int) + offset) else offset).toNat ≤
          (countWords next s.text).1 := by
        split
        · omega
        · split
          · split <;> omega
          · omega
      obtain ⟨rfl, hle, -, -⟩ := byteRange_eq_some hnext hoff hrange
      rw [length_text h] at hle
      rw [spliceSimpleStr_of_range s o n str extract hle]
      exact (spliceSimpleStr_take_drop h (by have := h.len_eq; omega) n str he).keeps

theorem complex_keeps (h : Holds M s xs) (op : CutOp UInt8) :
    Keeps M Prod.fst (op.complex M next s) := by
  have hnum : ∀ o n : Int, ∀ extract, Extracted M extract [] →
      Keeps M Prod.fst (s.spliceComplexNum M next o n extract) := fun o n _ he =>
    spliceComplexNum_keeps hnext h o n he
  have hstr : ∀ (o n : Int) (str : List UInt8), ∀ extract, Extracted M extract [] →
      Keeps M Prod.fst (s.spliceComplexStr M next o n str extract) := fun o n str _ he =>
    spliceComplexStr_keeps hnext h o n str he
  have hval : ∀ (o n : Int) (str : List UInt8), ∀ extract, Extracted M extract [] →
      Keeps M Prod.fst (if str.length = 0 then s.spliceComplexNum M next o n extract
        else s.spliceComplexStr M next o n str extract) := by
    intro o n str extract he
    split
    · exact hnum o n extract he
    · exact hstr o n str extract he
  cases op with
  | substr o =>
    refine substr_keeps h ?_
    unfold Str.substrComplex
    dsimp only
    generalize (if o.toInt < 0 then ((countWords next s.text).1 : Int) + o.toInt else o.toInt) = k
    split
    · exact ⟨none, rfl⟩
    · split
      · exact ⟨none, rfl⟩
      · exact substrCopy_isSome _
  | substrLen o l =>
    refine substr_keeps h ?_
    unfold Str.substrComplexLen
    dsimp only
    generalize (if o.toInt < 0 then truncInt ((countWords next s.text).1 : Int) + o.toInt
      else o.toInt) = k
    split
    · exact ⟨none, rfl⟩
    · split
      · exact ⟨none, rfl⟩
      · generalize (if l.toInt < 0 then _ else l.toInt) = n
        split
        · exact ⟨none, rfl⟩
        · split
          · exact ⟨none, rfl⟩
          · exact substrCopy_isSome _
  | splice o => exact spliceComplex_keeps hnext h _ extracted_none
  | spliceNum o n => exact hnum _ _ none extracted_none
  | spliceStr o n str => exact hstr _ _ str none extracted_none
  | spliceVal o n str => exact hval _ _ str none extracted_none
  | extract o => exact newExtract_keeps fun e he => spliceComplex_keeps hnext h _ he
  | extractNum o n => exact newExtract_keeps (hnum _ _)
  | extractVal o n str => exact newExtract_keeps (hval _ _ str)

end

theorem cut_keeps (h : Holds M s xs) (e : Encoding) (op : CutOp UInt8) :
    Keeps M id (s.cut M e op) := by
  unfold Str.cut
  split
  · exact (simple_keeps h op).map fun _ => rfl
  · rename_i next hnext
    exact (complex_keeps (Encoding.next_le hnext) h op).map fun _ => rfl

/-! ## Calls with a condition -/

theorem Str.allocated_checkChar (s : Str UInt8) (i : Nat) :
    (s.checkChar M i).allocated = checkedSize s.allocated i := by
  unfold Str.checkChar checkedSize
  split
  · exact Str.realloc_allocated _ _
  · rfl

theorem concatSize_keeps (h : Holds M s xs) (e : Encoding) (str : List UInt8) (size : Nat)
    (hroom : ∀ n, str ≠ [] → partSize e str size = some n →
      s.len + n < checkedSize s.allocated (str.length + n + strClassExtra)) :
    Keeps M id (s.concatSize M e str size) := by
  unfold Str.concatSize
  split
  · exact h.keeps
  · rename_i hne
    split
    · exact h.keeps
    · rename_i n hn
      refine (concatWith_holds h.fills ?_).keeps
      rw [length_fetch, Str.allocated_checkChar]
      exact hroom n (by simpa using hne) hn

theorem replace_keeps (h : Holds M s xs) {offset : Nat} (hoff : offset ≤ s.len) (dlen : Nat)
    (str : List UInt8) : Keeps M id (s.replace M offset dlen str) := by
  have ho : offset ≤ xs.length := by rwa [← h.len_eq]
  unfold Str.replace
  split
  · exact (spliceSimple_take_drop h ho dlen extracted_none).keeps.map fun _ => rfl
  · exact (spliceSimpleStr_take_drop h ho dlen str extracted_none).keeps.map fun _ => rfl

/-- A text and its zero are written at the beginning of the buffer. -/
theorem putFront (s : Str UInt8) (str : List UInt8) (hroom : str.length < s.allocated) :
    ∃ r, s.put 0 (str ++ [M.zero]) = some { s with buf := str ++ M.zero :: r } ∧
      (str ++ M.zero :: r).length = s.allocated := by
  have hlong : (str ++ [M.zero]).length ≤ s.buf.length := by
    rw [List.length_append, List.length_singleton]
    exact hroom
  have hput : s.put 0 (str ++ [M.zero]) = _ := put_append s [] s.buf _ rfl rfl hlong
  refine ⟨s.buf.drop (str ++ [M.zero]).length, ?_, ?_⟩
  · rw [hput]
    simp
  · rw [List.length_append, List.length_cons, List.length_drop]
    rw [List.length_append, List.length_singleton] at hlong ⊢
    unfold Str.allocated
    omega

theorem setStr_keeps (s : Str UInt8) {str : List UInt8}
    (hroom : str.length < allocateSize s.allocated (str.length + 1)) :
    Keeps M id (s.setStr M str) := by
  obtain ⟨r, hput, -⟩ := putFront (M := M) ((s.setLen str.length).allocate M (str.length + 1))
    str (by rwa [Str.allocated_allocate])
  rw [Str.setStr, hput]
  exact ⟨_, str, rfl, r, rfl, Str.allocate_len _ _⟩

theorem adopt_keeps {nbuf : List UInt8} {nlen : Nat} (hle : nlen ≤ nbuf.length)
    (hzero : nlen < nbuf.length → nbuf[nlen]? = some M.zero) :
    Keeps M id (Str.adopt M nbuf nlen) := by
  unfold Str.adopt
  dsimp only
  split
  · have hlen : (Str.checkChar M ⟨nbuf, nlen, 0⟩ nlen).len = nlen := Str.checkChar_len _ _
    have hroom := Str.lt_allocated_checkChar (M := M) ⟨nbuf, nlen, 0⟩ nlen
    generalize Str.checkChar M ⟨nbuf, nlen, 0⟩ nlen = t at hlen hroom ⊢
    have hend : Keeps M id (t.put t.len [M.zero]) := endAt_keeps (by rwa [hlen])
    rwa [hlen] at hend
  · rename_i hne
    have hlt : nlen < nbuf.length := by omega
    obtain ⟨xs, hxs⟩ : ∃ xs, Holds M ⟨nbuf, nlen, 0⟩ xs := holds_iff.mpr ⟨hlt, hzero hlt⟩
    exact hxs.keeps

/-! ## Constructors -/

theorem malloc_allocated (n : Nat) : (Str.malloc M n).allocated = n := length_resize _ _

theorem fills_malloc (n : Nat) : Fills (Str.malloc M n) [] := ⟨_, rfl, rfl⟩

theorem ofCells_keeps {n : Nat} {str : List UInt8} (hn : str.length < n) :
    Keeps M id (Str.ofCells M n str) := by
  have hlen : (resize M.junk ([] : List UInt8) n).length = n := length_resize _ _
  have hput : (Str.malloc M n).put 0 str = _ :=
    put_append (Str.malloc M n) [] (resize M.junk [] n) str rfl rfl (by omega)
  rw [Str.ofCells, hput]
  refine endAt_keeps ?_
  show str.length < (str ++ (resize M.junk [] n).drop str.length).length
  rw [List.length_append, List.length_drop]
  omega

/-- A field that is not too large has its width. -/
theorem length_paddedInt {w : Nat} (hw : 1 < w) {x : Int} (hlo : -(10 ^ (w - 1) : Nat) < x)
    (hhi : x < (10 ^ w : Nat)) : (paddedInt w x).length = w := by
  unfold paddedInt
  split
  · have hdigits := length_decimal_le (n := x.natAbs) (k := w - 1) (by omega) (by omega)
    simp only [List.length_append, List.length_replicate, show (ascii "-").length = 1 by decide]
    omega
  · have hdigits := length_decimal_le (n := x.natAbs) (k := w) (by omega) (by omega)
    simp only [List.nil_append, List.length_append, List.length_replicate, List.length_nil]
    omega

theorem FourDigits.length_dateText {info : SimpleTm} (h : FourDigits info) :
    (dateText info).length = 14 := by
  have htwo : ∀ x : Int, -9 ≤ x ∧ x ≤ 99 → (paddedInt 2 x).length = 2 := fun x hx =>
    length_paddedInt (by decide) (by norm_num; omega) (by norm_num; omega)
  have hfour : (paddedInt 4 info.year).length = 4 :=
    length_paddedInt (by decide) (by have := h.year; norm_num; omega)
      (by have := h.year; norm_num; omega)
  simp only [dateText, List.length_append, hfour, htwo _ h.month, htwo _ h.day, htwo _ h.hour,
    htwo _ h.minute, htwo _ h.second]

/-- The text of an `int64`. -/
theorem length_int64Text (i : Int64) : (paddedInt 0 i.toInt).length ≤ 20 := by
  have hlo := i.le_toInt
  have hhi := i.toInt_lt
  have hdigits := length_decimal_le (n := i.toInt.natAbs) (k := 19) (by decide) (by omega)
  unfold paddedInt
  split
  · simp only [List.length_append, List.length_replicate, show (ascii "-").length = 1 by decide]
    omega
  · simp only [List.nil_append, List.length_append, List.length_replicate, List.length_nil]
    omega

/-- A cell behind the zero is written. -/
theorem put_behind (s : Str UInt8) (xs : List UInt8) {r : List UInt8} (hbuf : s.buf = xs ++ M.zero :: r) {i : Nat}
    (hi : xs.length < i) (hlt : i < s.allocated) (c : UInt8) :
    ∃ r', s.put i [c] = some { s with buf := xs ++ M.zero :: r' } := by
  rw [Str.allocated, hbuf, List.length_append, List.length_cons] at hlt
  have hput := put_append s (xs ++ M.zero :: r.take (i - xs.length - 1))
    (r.drop (i - xs.length - 1)) [c] (n := i) (by rw [hbuf]; simp)
    (by
      simp only [List.length_append, List.length_cons, List.length_take]
      omega)
    (by
      rw [List.length_singleton, List.length_drop]
      omega)
  rw [hput]
  exact ⟨r.take (i - xs.length - 1) ++ ([c] ++ (r.drop (i - xs.length - 1)).drop 1), by simp⟩

/-- The constructor for an `int64` writes a zero after the text, and one at the end of the buffer. -/
theorem int64_keeps (i : Int64) : Keeps M id (Ctor.build M (.int64 i)) := by
  have hshort := length_int64Text i
  generalize htext : paddedInt 0 i.toInt = text at hshort
  have htake : text.take (maxBigintStringLen - 1) = text :=
    List.take_of_length_le (show text.length ≤ 47 by omega)
  have hsize : (Str.malloc M (maxBigintStringLen + 1)).allocated = 49 := malloc_allocated _
  obtain ⟨r, hfirst, hlen⟩ := putFront (M := M) (Str.malloc M (maxBigintStringLen + 1)) text
    (by omega)
  obtain ⟨r', hlast⟩ := put_behind (M := M)
    { Str.malloc M (maxBigintStringLen + 1) with buf := text ++ M.zero :: r } text rfl
    (i := maxBigintStringLen) (show text.length < 48 by omega)
    (show 48 < (text ++ M.zero :: r).length by omega) M.zero
  have hstep : (Str.malloc M (maxBigintStringLen + 1)).cVsnprintf M maxBigintStringLen text =
      some ({ Str.malloc M (maxBigintStringLen + 1) with buf := text ++ M.zero :: r },
        (text.length : Int)) := by
    unfold Str.cVsnprintf
    rw [if_neg (by decide), htake, if_pos (by omega)]
    show ((Str.malloc M (maxBigintStringLen + 1)).put 0 (text ++ [M.zero])).bind _ = _
    rw [hfirst, Option.bind_some]
  unfold Ctor.build
  dsimp only
  rw [htext, hstep, Option.bind_eq_bind, Option.bind_some]
  rw [hlast]
  refine ⟨_, text, rfl, r', rfl, ?_⟩
  show toSize (text.length : Int) = text.length
  rw [toSize_of_nonneg (by omega)]
  omega

end

section
variable (junk : Nat → UInt8)

/-- A constructor that meets its condition. -/
theorem Ctor.Ok.keeps {c : Ctor} (h : c.Ok) :
    Keeps (byteMemory junk) id (c.build (byteMemory junk)) := by
  cases c with
  | empty => exact new_yields.keeps
  | cstr str =>
    cases str with
    | none => exact new_yields.keeps
    | some str => exact (concatCStr_holds (fills_malloc strClassBlock) str).keeps
  | stdString str => exact ofCells_keeps (by omega)
  | mem str => exact ofCells_keeps (by unfold strClassExtra; omega)
  | copy str =>
    have hcache := lt_cacheLines (str.length + strClassExtra)
    exact ofCells_keeps (by omega)
  | copySize str size =>
    refine ofCells_keeps ?_
    rw [List.length_take]
    unfold strClassExtra
    split <;> omega
  | char c => exact ofCells_keeps (show 1 < 64 by decide)
  | int64 i => exact int64_keeps i
  | bool b =>
    refine ofCells_keeps ?_
    cases b <;> decide
  | date info =>
    have hlen := FourDigits.length_dateText h
    obtain ⟨r, hput, -⟩ := putFront (M := byteMemory junk) (Str.malloc (byteMemory junk) 15)
      (dateText info) (by rw [malloc_allocated]; omega)
    unfold Ctor.build
    dsimp only
    rw [hput]
    exact ⟨_, dateText info, rfl, r, rfl, rfl⟩
  | binary b maxlinelen =>
    obtain ⟨t, ht, hholds⟩ := @base64Loop_fills (byteMemory junk) maxlinelen false b _ ([], 0)
      (fills_malloc (b.length + b.length * 4 / 10 + 10)) (Nat.succ_pos _) fun hnil => absurd hnil h
    exact ⟨t, _, ht, hholds⟩
  | adopt nbuf nlen => exact adopt_keeps h.1 h.2

/-- A call that meets its condition keeps a text at the beginning of the buffer, and a zero after it. -/
theorem Op.Ok.keeps {q : QoreString} {op : Op} (h : op.Ok q) {xs : List UInt8}
    (hq : Holds (byteMemory junk) q.str xs) :
    Keeps (byteMemory junk) id (op.apply (byteMemory junk) q) := by
  cases op with
  | concatChar c => exact (concatChar_holds hq c).keeps
  | concatCStr str =>
    cases str with
    | none => exact hq.keeps
    | some str => exact (concatCStr_holds hq.fills str).keeps
  | concatMem str => exact (concatMem_holds hq.fills str).keeps
  | concatStr str => exact (concatStr_holds hq str).keeps
  | concatSize str size => exact concatSize_keeps hq q.encoding str size h
  | concatFrom str pos => exact concatFrom_keeps hq q.encoding str pos
  | concatPart str pos len => exact concatPart_keeps hq q.encoding str pos len
  | addch c times => exact (concatMem_holds hq.fills _).keeps
  | insertch c pos times => exact insertch_keeps hq c pos times
  | insert str pos => exact insert_keeps hq str pos
  | prepend str =>
    obtain ⟨m, hm⟩ := prepend_holds hq str
    exact hm.keeps
  | cut op => exact cut_keeps hq q.encoding op
  | replace offset dlen str => exact replace_keeps hq h dlen str
  | trim c => exact (trimTrailing_keeps hq c).bind fun t ys ht => trimLeading_keeps ht c
  | trimLeading c => exact trimLeading_keeps hq c
  | trimTrailing c => exact trimTrailing_keeps hq c
  | trimSingleLeading c => exact trimSingleLeading_keeps hq c
  | trimSingleTrailing c => exact trimSingleTrailing_keeps hq c
  | trimCodes chars =>
    refine (trimLeadingCodes_keeps hq q.encoding chars).bind fun r ys hr => ?_
    dsimp only
    split
    · exact Holds.keeps hr
    · exact trimTrailingCodes_keeps hr q.encoding chars
  | trimLeadingCodes chars => exact (trimLeadingCodes_keeps hq q.encoding chars).map fun _ => rfl
  | trimTrailingCodes chars => exact trimTrailingCodes_keeps hq q.encoding chars
  | terminate size => exact terminate_keeps hq size
  | setCStr str e => exact setCStr_keeps hq str
  | setMem str => exact setMem_keeps hq str
  | setStr str e => exact setStr_keeps q.str h
  | adopt nbuf nlen e => exact adopt_keeps h.1 h.2
  | sprintf fmtlen out =>
    obtain ⟨t, ht, hholds⟩ := sprintf_holds hq fmtlen h
    exact ⟨t, _, ht, hholds⟩
  | snprintf size out =>
    obtain ⟨t, ht, hholds⟩ := snprintf_holds hq h.1 h.2.1 h.2.2
    exact ⟨t, _, ht, hholds⟩
  | concatHex binbuf =>
    obtain ⟨t, ht, hholds⟩ := concatHex_holds hq binbuf
    exact ⟨t, _, ht, hholds⟩
  | concatBase64 bbuf maxlinelen urlEncode =>
    obtain ⟨t, ht, hholds⟩ := concatBase64_holds hq bbuf maxlinelen urlEncode
    exact ⟨t, _, ht, hholds⟩
  | concatEncode str strEncoding code =>
    exact concatEncode_keeps hq q.encoding str strEncoding code h

end

/-! ## Runs -/

/-- What every string of a run with the conditions holds. -/
theorem Reached.holds {q : QoreString} (h : Reached Ctor.Ok (fun q op => op.Ok q) q) :
    ∃ xs, Holds (byteMemory fun _ => 0) q.str xs := by
  -- the invariant of the run is that the buffer holds some text; it has a zero, and so a cell
  induction h with
  | build junk e hc hbuild =>
    obtain ⟨t, xs, ht, hholds⟩ := hc.keeps junk
    rw [hbuild] at ht
    obtain rfl := Option.some.inj ht
    exact ⟨xs, hholds⟩
  | step junk hq hop hstep ih =>
    obtain ⟨xs, hxs⟩ := ih
    obtain ⟨t, ys, ht, hholds⟩ := Op.Ok.keeps junk hop hxs
    rw [Op.step, ht] at hstep
    obtain rfl := Option.some.inj hstep
    exact ⟨ys, hholds⟩

/-- In every run whose constructor and calls meet the conditions, all writes are inside of the buffer
and all strings are well formed. -/
theorem representation_kept (junk : Nat → UInt8) :
    RepresentationKept junk Ctor.Ok fun q op => op.Ok q := by
  refine ⟨fun c hc => ?_, fun q hq => ⟨?_, fun op hop => ?_⟩⟩
  · obtain ⟨t, xs, ht, -⟩ := hc.keeps junk
    rw [ht]
    rfl
  · exact .inr (holds_iff.mp hq.holds)
  · obtain ⟨xs, hxs⟩ := hq.holds
    obtain ⟨t, ys, ht, -⟩ := Op.Ok.keeps junk hop hxs
    rw [Op.step, ht]
    rfl

/-- A date of the year 2024, to which a part of a string is appended. -/
theorem representation_kept_sample :
    ∃ q, Reached Ctor.Ok (fun q op => op.Ok q) q ∧ q.str.len = 17 ∧ WellFormed q.str := by
  have hdate : Ctor.Ok (.date ⟨2024, 2, 29, 23, 59, 59, 0⟩) :=
    ⟨by decide, by decide, by decide, by decide, by decide, by decide⟩
  have hbuild : ∃ s, Ctor.build (byteMemory fun _ => 0) (.date ⟨2024, 2, 29, 23, 59, 59, 0⟩) = some s ∧
      s.len = 14 ∧ s.allocated = 15 := ⟨_, rfl, by decide, by decide⟩
  obtain ⟨s, hs, hlen, hsize⟩ := hbuild
  have hq : Reached Ctor.Ok (fun q op => op.Ok q) ⟨s, .utf8⟩ := .build _ .utf8 hdate hs
  have hop : Op.Ok ⟨s, .utf8⟩ (.concatMem (ascii "UTC")) := trivial
  obtain ⟨t, ht⟩ := Option.isSome_iff_exists.mp
    (((representation_kept fun _ => 0).2 _ hq).2 _ hop)
  have ht' : Reached Ctor.Ok (fun q op => op.Ok q) t := .step _ hq hop ht
  refine ⟨t, ht', ?_, ((representation_kept fun _ => 0).2 t ht').1⟩
  obtain ⟨u, hu, rfl⟩ := Option.map_eq_some_iff.mp ht
  obtain ⟨xs, hxs⟩ := hq.holds
  obtain ⟨v, hv, hv', -⟩ := concatMem_holds (M := byteMemory fun _ => 0) hxs.fills (ascii "UTC")
  obtain rfl := Option.some.inj (hv.symm.trans hu)
  have hxlen := hxs.len_eq
  rw [hv'.len_eq, List.length_append, ← hxlen, show (ascii "UTC").length = 3 by decide]
  exact congrArg (· + 3) hlen

set_option maxRecDepth 20000 in
/-- The year 10000 does not fit in the buffer, no zero is written for an empty binary object, and
`concat(str, size)` writes behind the buffer of a string that is longer than the other. -/
theorem representation_not_kept :
    ¬RepresentationKept (fun _ => 1) (fun _ => True) (fun _ _ => True) ∧
    (Ctor.build (byteMemory fun _ => 1) (.date ⟨10000, 1, 1, 0, 0, 0, 0⟩)).isNone ∧
    (∃ s, Ctor.build (byteMemory fun _ => 1) (.binary [] 0) = some s ∧ ¬WellFormed s) ∧
    ((Ctor.build (byteMemory fun _ => 1) (.mem (List.replicate 200 97))).bind fun s =>
      Op.apply (byteMemory fun _ => 1) ⟨s, .single fun _ => 0⟩
        (.concatSize (List.replicate 60 98) 60)).isNone := by
  have hdate : (Ctor.build (byteMemory fun _ => 1) (.date ⟨10000, 1, 1, 0, 0, 0, 0⟩)).isNone := by
    decide
  refine ⟨?_, hdate, ⟨_, rfl, ?_⟩, by decide⟩
  · rintro ⟨hbuild, -⟩
    have hsome := hbuild (.date ⟨10000, 1, 1, 0, 0, 0, 0⟩) trivial
    rw [Option.isNone_iff_eq_none.mp hdate] at hsome
    cases hsome
  · unfold WellFormed
    decide

end Qore.Text
