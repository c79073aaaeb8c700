import Mathlib
import Qore.Lib.Loop

/-!
# `Qore.TextWrap.Model`: the lines of a wrapped text

`TextWrapper::_wrap_chunks` puts chunks, which are words and the whitespace between them, on lines
of a limited width. A text is the list of its characters. The source reverses the list of the chunks
and takes them from its end; here the next chunk is the head of the list.

The outer loop is `wrapLine`: it begins a line, fills it (`fill`), cuts a chunk that is too long for
any line (`handleLongWord`) and drops whitespace at both ends of the line.
-/

set_option autoImplicit false

namespace Qore.TextWrap

open Qore.Lib

/-- The characters of a string. -/
abbrev Text := List Char

/-! ### Strings -/

/-- `default_whitespace`: blank, tab, newline, carriage return and vertical tab. -/
def defaultWhitespace : List Nat := [32, 9, 10, 13, 11]

/-- A character that the trim functions remove; this includes the null character. -/
def isSpace (c : Char) : Bool := c.toNat = 0 || c.toNat ∈ defaultWhitespace

def ltrim (s : Text) : Text := s.dropWhile isSpace

def rtrim (s : Text) : Text := s.rdropWhile isSpace

def trim (s : Text) : Text := rtrim (ltrim s)

/-- A string as a condition. -/
def asBool (s : Text) : Bool := s ≠ [] && s ≠ ['0']

/-- The place of an offset that counts from the end where it is negative. -/
def startOf (s : Text) (start : Int) : Int := if start < 0 then s.length + start else start

/-- `<string>::substr(start)`. -/
def substr (s : Text) (start : Int) : Text :=
  if startOf s start < 0 ∨ s.length ≤ startOf s start then [] else s.drop (startOf s start).toNat

/-- `<string>::substr(start, len)`. -/
def substrLen (s : Text) (start len : Int) : Text :=
  if startOf s start < 0 ∨ s.length ≤ startOf s start then []
  else
    let length := if len < 0 then max 0 (s.length - startOf s start + len) else len
    (s.drop (startOf s start).toNat).take length.toNat

/-! ### The wrapper -/

/-- The members of a `TextWrapper` that `_wrap_chunks` reads. -/
structure TextWrapper where
  width : Int
  initialIndent : Text
  subsequentIndent : Text
  breakLongWords : Bool
  dropWhitespace : Bool
  maxLines : Option Int
  placeholder : Text

/-- The `VALUE-ERROR` exceptions: "invalid width %y (must be > 0)" and "placeholder too large for
max width". -/
inductive WrapError
  | invalidWidth (width : Int)
  | placeholderTooLarge
  deriving DecidableEq, Repr

/-- The variables of the outer loop. -/
structure State where
  chunks : List Text
  lines : List Text
  deriving DecidableEq, Repr

/-- The chunks that are left, the chunks of the current line and `cur_len`. -/
structure Progress where
  chunks : List Text
  curLine : List Text
  curLen : Int
  deriving DecidableEq, Repr

/-- The inner loop: chunks go to the line as long as they fit. -/
def fill (width : Int) : List Text → List Text → Int → Progress
  | [], curLine, curLen => ⟨[], curLine, curLen⟩
  | chunk :: chunks, curLine, curLen =>
    if curLen + chunk.length ≤ width then fill width chunks (curLine ++ [chunk]) (curLen + chunk.length)
    else ⟨chunk :: chunks, curLine, curLen⟩

namespace TextWrapper
variable (w : TextWrapper)

/-- The tests in front of the loop. -/
def check : Except WrapError Unit :=
  if w.width ≤ 0 then .error (.invalidWidth w.width)
  else
    match w.maxLines with
    | none => .ok ()
    | some maxLines =>
      let indent := if maxLines > 1 then w.subsequentIndent else w.initialIndent
      if (indent.length : Int) + (ltrim w.placeholder).length > w.width then
        .error .placeholderTooLarge
      else .ok ()

/-- The prefix of the line that begins. -/
def indentOf (lines : List Text) : Text :=
  if lines = [] then w.initialIndent else w.subsequentIndent

/-- Whitespace in front of a line is dropped, but not in front of the first one. -/
def dropFirst (s : State) : List Text :=
  match s.chunks with
  | [] => []
  | chunk :: chunks =>
    if w.dropWhitespace ∧ trim chunk = [] ∧ s.lines ≠ [] then chunks else chunk :: chunks

/-- `_handle_long_word`, for the chunk `chunk` in front of `chunks`. -/
def handleLongWord (chunk : Text) (chunks curLine : List Text) (curLen width : Int) :
    List Text × List Text :=
  let spaceLeft := if width < 1 then 1 else width - curLen
  if w.breakLongWords then
    (substr chunk spaceLeft :: chunks, curLine ++ [substrLen chunk 0 spaceLeft])
  else if curLine = [] then (chunks, curLine ++ [chunk])
  else (chunk :: chunks, curLine)

/-- The next chunk is too long for any line. -/
def breakWord (width : Int) (p : Progress) : Progress :=
  match p.chunks with
  | [] => p
  | chunk :: chunks =>
    if chunk.length > width then
      let (chunks, curLine) := w.handleLongWord chunk chunks p.curLine p.curLen width
      ⟨chunks, curLine, (curLine.map fun c => (c.length : Int)).sum⟩
    else p

/-- Whitespace at the end of a line is dropped. -/
def dropLast (p : Progress) : Progress :=
  match p.curLine.getLast? with
  | none => p
  | some last =>
    if w.dropWhitespace ∧ trim last = [] then
      { p with curLine := p.curLine.dropLast, curLen := p.curLen - last.length }
    else p

/-- The line is not the last one that may be written, or nothing comes after it. -/
def fits (lines : List Text) (width : Int) (p : Progress) : Bool :=
  match w.maxLines with
  | none => true
  | some maxLines =>
    (lines.length : Int) + 1 < maxLines ||
      ((p.chunks = [] ||
          w.dropWhitespace && p.chunks.length = 1 && !asBool (trim (p.chunks.headD []))) &&
        p.curLen ≤ width)

/-- Chunks are taken from the end of the line, here the head of the list, until the placeholder
fits. -/
def shorten (width : Int) : List Text → Int → Option (List Text)
  | [], _ => none
  | last :: before, curLen =>
    if asBool (trim last) ∧ curLen + w.placeholder.length ≤ width then
      some ((last :: before).reverse ++ [w.placeholder])
    else shorten width before (curLen - last.length)

/-- The lines when the last one gets the placeholder. -/
def truncated (lines : List Text) (indent : Text) (width : Int) (p : Progress) : List Text :=
  match w.shorten width p.curLine.reverse p.curLen with
  | some line => lines ++ [indent ++ line.flatten]
  | none =>
    match lines.getLast? with
    | some last =>
      if ((rtrim last).length : Int) + w.placeholder.length ≤ w.width then
        lines.dropLast ++ [rtrim last ++ w.placeholder]
      else lines ++ [indent ++ ltrim w.placeholder]
    | none => lines ++ [indent ++ ltrim w.placeholder]

/-- The chunks of the line that begins in the state `s`. -/
def lineOf (s : State) : Progress :=
  let width := w.width - (w.indentOf s.lines).length
  w.dropLast (w.breakWord width (fill width (w.dropFirst s) [] 0))

/-- One round of the outer loop. -/
def wrapLine (s : State) : State ⊕ List Text :=
  if s.chunks = [] then .inr s.lines
  else
    let indent := w.indentOf s.lines
    let width := w.width - indent.length
    let p := w.lineOf s
    if p.curLine = [] then .inl ⟨p.chunks, s.lines⟩
    else if w.fits s.lines width p then .inl ⟨p.chunks, s.lines ++ [indent ++ p.curLine.flatten]⟩
    else .inr (w.truncated s.lines indent width p)

/-- `_wrap_chunks`, with at most `fuel` rounds of the outer loop. -/
def wrapChunks (fuel : Nat) (chunks : List Text) : Option (Except WrapError (List Text)) :=
  match w.check with
  | .error e => some (.error e)
  | .ok () => (loop w.wrapLine fuel ⟨chunks, []⟩).map .ok

end TextWrapper

end Qore.TextWrap
