import Qore.Lib.Span
import Qore.Text.CutSpec
import Qore.Text.Encoding

/-!
# `Qore.Slice.Range`: slices `x[m..k]`

`QoreSquareBracketsRangeOperatorNode::evalImpl` reads a range of positions from a list, a string or
a binary value. `getEffectiveRange` moves the bounds into the value and says whether the range is
empty; what follows from that is left to the branch of each type.

The entries of a list are `none` for `NOTHING`. `Result.undefined` is a loop that does not end, or a
read outside of an allocated block.
-/

set_option autoImplicit false

namespace Qore.Slice

open Qore.Lib Qore.Lib.Span Qore.Lib.Words Qore.Text

/-! ## The model -/

/-- A list. An entry passes the check of its own list, and positions are an `int64`. -/
structure ListNode (V : Type) where
  entry : List (Option V)
  /-- `qore_list_private::checkVal`: the value as a list of this type takes it, `none` for an
  exception. -/
  checkVal : Option V → Option (Option V)
  checked : ∀ v ∈ entry, checkVal v = some v
  size_lt : entry.length < 2 ^ 63

/-- A string that is valid in its encoding. -/
inductive ValidText
  | single (convert : UInt8 → Nat) (bytes : List UInt8)
  | utf8 (cs : List Char)

def ValidText.encoding : ValidText → Encoding
  | single convert _ => .single convert
  | utf8 _ => .utf8

def ValidText.bytes : ValidText → List UInt8
  | single _ bytes => bytes
  | utf8 cs => Text.utf8 cs

/-- The operand of a slice. -/
inductive Operand (V : Type)
  | list (l : ListNode V)
  | string (t : ValidText)
  | binary (bytes : List UInt8)

/-- What a slice evaluates to. -/
inductive Result (V : Type)
  | list (entry : List (Option V))
  | string (text : List UInt8)
  | binary (bytes : List UInt8)
  | nothing
  | exception
  | undefined
  deriving DecidableEq

/-- The bounds that `getEffectiveRange` leaves, and whether the range is not empty. -/
structure EffectiveRange where
  nonempty : Bool
  start : Int
  stop : Int
  deriving DecidableEq

/-- The lower bound; `none` is `NOTHING`. -/
def lower (startIndex : Option Int64) : Int := startIndex.elim 0 Int64.toInt

/-- The upper bound for a value of a size. -/
def upper (size : Nat) (stopIndex : Option Int64) : Int :=
  stopIndex.elim ((size : Int) - 1) Int64.toInt

/-- `QoreSquareBracketsRangeOperatorNode::getEffectiveRange`. -/
def getEffectiveRange (isList : Bool) (size : Nat) (startIndex stopIndex : Option Int64) :
    EffectiveRange :=
  let start := lower startIndex
  let stop := upper size stopIndex
  if startIndex = none ∧ stop < 0 ∨ stopIndex = none ∧ (size : Int) - 1 < start then
    ⟨false, start, stop⟩
  else if start < stop then
    if (size : Int) - 1 < start ∨ stop < 0 then ⟨false, start, stop⟩
    else
      ⟨true, if start < 0 then 0 else start,
        if !isList ∧ (size : Int) - 1 < stop then (size : Int) - 1 else stop⟩
  else if (size : Int) - 1 < stop ∨ start < 0 then ⟨false, start, stop⟩
  else
    ⟨true, if !isList ∧ (size : Int) - 1 < start then (size : Int) - 1 else start,
      if stop < 0 then 0 else stop⟩

section
variable {V : Type}

/-- `QoreListNode::getReferencedEntry`; a negative position is a large one for it. -/
def ListNode.getReferencedEntry (l : ListNode V) (i : Int) : Option V := (elemAt l.entry i).join

/-- The values of `i` in the loop of the list branch. Behind the largest and before the smallest
integer the counter overflows. -/
def loopPositions (start stop : Int) : Option (List Int) :=
  if start < stop then (if stop = 2 ^ 63 - 1 then none else some (up start stop))
  else if stop = -2 ^ 63 then none
  else some (down start stop)

/-- The branch for lists. -/
def ListNode.evalRange (l : ListNode V) (r : EffectiveRange) : Result V :=
  match loopPositions r.start r.stop with
  | none => .undefined
  | some ps =>
    match (ps.map l.getReferencedEntry).mapM l.checkVal with
    | none => .exception
    | some entry => .list entry

/-- `strncpy`. -/
def strncpy (p : List UInt8) (n : Nat) : List UInt8 :=
  let w := (p.take n).takeWhile (· ≠ 0)
  w ++ List.replicate (n - w.length) 0

/-- The loop of `concat_reverse`, which fills the target from its end. -/
def reverseLoop (next : List UInt8 → Int) : Nat → List UInt8 → List UInt8
  | 0, _ => []
  | fuel + 1, p =>
    if p = [] then []
    else
      let bl := if (lettersOf next p 1).2 then 1 else (lettersOf next p 1).1
      reverseLoop next fuel (p.drop bl) ++ strncpy p bl

/-- `QoreStringNode::reverse`. A character has at least one byte, so the loop ends. -/
def reverse (e : Encoding) (text : List UInt8) : List UInt8 :=
  match e.next with
  | none => text.reverse
  | some next => reverseLoop next text.length text

/-- `QoreStringNode::substr`: no text for a null pointer. -/
def substr (junk : Nat → UInt8) (e : Encoding) (text : List UInt8) (offset length : Int) :
    Option (Option (List UInt8)) :=
  let s := source (byteMemory junk) text
  let r := match e.next with
    | none => s.substrSimpleLen (byteMemory junk) offset length
    | some next => s.substrComplexLen (byteMemory junk) next offset length
  r.map (·.map Str.text)

/-- The value of a call of `substr`. -/
def Result.ofSubstr : Option (Option (List UInt8)) → Result V
  | none => .undefined
  | some none => .nothing
  | some (some text) => .string text

/-- The branch for strings; `size` is in bytes. -/
def evalString (junk : Nat → UInt8) (e : Encoding) (text : List UInt8) (r : EffectiveRange) :
    Result V :=
  if !r.nonempty then .string []
  else if r.start < r.stop then .ofSubstr (substr junk e text r.start (r.stop - r.start + 1))
  else
    .ofSubstr
      (substr junk e (reverse e text) (text.length - r.start - 1) (r.start - r.stop + 1))

/-- The bytes at a position of a block. -/
def readBytes (bytes : List UInt8) (start length : Int) : Option (List UInt8) :=
  if 0 ≤ start ∧ start + length ≤ bytes.length then
    some ((bytes.drop start.toNat).take length.toNat)
  else none

/-- The branch for binary values. -/
def evalBinary (bytes : List UInt8) (r : EffectiveRange) : Result V :=
  if !r.nonempty then .binary []
  else
    match if r.start < r.stop then readBytes bytes r.start (r.stop - r.start + 1)
      else (down r.start r.stop).mapM (elemAt bytes) with
    | none => .undefined
    | some bin => .binary bin

/-- `QoreSquareBracketsRangeOperatorNode::evalImpl`. -/
def evalImpl (junk : Nat → UInt8) (x : Operand V) (m k : Option Int64) : Result V :=
  match x with
  | .list l => l.evalRange (getEffectiveRange true l.entry.length m k)
  | .string t =>
    evalString junk t.encoding t.bytes (getEffectiveRange false t.bytes.length m k)
  | .binary bytes => evalBinary bytes (getEffectiveRange false bytes.length m k)

end

end Qore.Slice
