import Mathlib
import Qore.Lib.Pieces

/-!
# `Qore.Text.Split`: splitting a text into quoted fields

`split_with_quote` splits a text at a separator, where fields that begin with a quote end at the
next quote that is not doubled and has no backslash before it. When such a field goes on behind the
text, further lines are taken from a line iterator.

The reading position is modelled by the bytes behind it. The byte before it, which is looked at when
a quote is found at once, is always the last one of a quote. `SplitFault.undefined` stands for a text
length that is decreased below zero.
-/

set_option autoImplicit false

namespace Qore.Text

open Qore.Lib.Matches

/-- The arguments of `split_with_quote`, when the quote is neither empty nor longer than the
separator. The quote and the line end are added to texts as C strings. -/
structure SplitArgs where
  sep : List UInt8
  quote : List UInt8
  eol : List UInt8
  /-- `QoreString::trim` when `trim_unquoted` is set (`none` where it raises an exception), else what
  leaves the text as it is. -/
  trim : List UInt8 → Option (List UInt8)
  quote_ne : quote ≠ []
  quote_le : quote.length ≤ sep.length
  quote_null : 0 ∉ quote
  eol_null : 0 ∉ eol

/-- The descriptions of `SPLIT-ERROR`. -/
inductive SplitError
  /-- `field with text must begin with an add number of quotes` -/
  | evenQuotes (n : Nat)
  /-- `cannot find closing quote`, and whether there is a line iterator -/
  | noClosingQuote (field : Nat) (iterator : Bool)
  /-- `separator pattern does not follow end quote` -/
  | noSeparator (field : Nat)
  deriving DecidableEq

inductive SplitFault
  | splitError (e : SplitError)
  /-- The line iterator has no current line. -/
  | invalidIterator
  /-- The exception of `QoreString::trim`. -/
  | trimFailed
  | undefined
  deriving DecidableEq

/-- The lines that a line iterator still has; `none` without an iterator. -/
abbrev Lines := Option (List (List UInt8))

namespace SplitArgs

section
variable (a : SplitArgs)

/-- The bytes that are left to read. Each line counts one more. -/
def left (rest : List UInt8) (h : Lines) : Nat :=
  rest.length + ((h.getD []).map fun line => a.eol.length + line.length + 1).sum

/-- `count_quotes`: how many quotes follow, and what is left behind them. -/
def countQuotes (rest : List UInt8) : Nat × List UInt8 := lead a.quote rest

/-- The byte before a quote that is found after `text` is a backslash. -/
def escaped (text : List UInt8) : Bool := (a.quote ++ text).getLast? = some 92

/-- The loop that reads the rest of a quoted field, of which `field` has been read. -/
def quotedField (l : Nat) (field rest : List UInt8) (h : Lines) :
    Except SplitFault (List UInt8 × List UInt8 × Lines) :=
  if rest = [] then .ok (field, rest, h)
  else
    match heq : firstMatch rest a.quote with
    | none =>
      match h with
      | none => .error (.splitError (.noClosingQuote (l + 1) false))
      | some [] => .error (.splitError (.noClosingQuote (l + 1) true))
      | some (line :: lines) => quotedField l field (rest ++ a.eol ++ line) (some lines)
    | some p =>
      let text := rest.take p
      let rest' := rest.drop (p + a.quote.length)
      if a.escaped text then
        if p = 0 then .error .undefined
        else quotedField l (field ++ text.dropLast ++ a.quote) rest' h
      else
        let c := a.countQuotes rest'
        let numQuotes := c.1 + 1
        let field := field ++ text ++ copies (numQuotes / 2) a.quote
        if numQuotes % 2 = 1 then .ok (field, c.2, h) else quotedField l field c.2 h
termination_by a.left rest h
decreasing_by
  · simp only [left, List.length_append, Option.getD_some, List.map_cons, List.sum_cons]
    omega
  · have hle := firstMatch_add_le heq
    have hpos := List.length_pos_iff.mpr a.quote_ne
    simp only [left, List.length_drop]
    omega
  · have hle := firstMatch_add_le heq
    have hpos := List.length_pos_iff.mpr a.quote_ne
    have hlead := lead_length (q := a.quote) (rest.drop (p + a.quote.length))
    rw [List.length_drop] at hlead
    show (lead a.quote (rest.drop (p + a.quote.length))).2.length + _ < rest.length + _
    omega

theorem length_countQuotes_le (rest : List UInt8) :
    (a.countQuotes rest).2.length ≤ rest.length := by
  have hlead := lead_length (q := a.quote) rest
  show (lead a.quote rest).2.length ≤ _
  omega

/-- Quotes that are counted are not left. -/
theorem length_countQuotes_lt {rest : List UInt8} (h : (a.countQuotes rest).1 ≠ 0) :
    (a.countQuotes rest).2.length < rest.length := by
  have hlead := lead_length (q := a.quote) rest
  have hpos := List.length_pos_iff.mpr a.quote_ne
  have hmul : 0 < (lead a.quote rest).1 * a.quote.length :=
    Nat.mul_pos (Nat.pos_of_ne_zero h) hpos
  show (lead a.quote rest).2.length < _
  omega

/-- A quoted field does not add anything to read. -/
theorem left_quotedField {l : Nat} {field rest f r : List UInt8} {h h' : Lines}
    (heq : a.quotedField l field rest h = .ok (f, r, h')) : a.left r h' ≤ a.left rest h := by
  have hdrop : ∀ {rest rest' : List UInt8} (h : Lines), rest'.length ≤ rest.length →
      a.left rest' h ≤ a.left rest h := fun h hle => Nat.add_le_add_right hle _
  fun_induction quotedField a l field rest h with
  | case1 =>
    cases heq
    exact Nat.le_refl _
  | case2 => cases heq
  | case3 => cases heq
  | case4 field rest _ _ line lines ih =>
    refine (ih heq).trans ?_
    simp only [left, List.length_append, Option.getD_some, List.map_cons, List.sum_cons]
    omega
  | case5 => cases heq
  | case6 field rest h _ p _ _ rest' _ _ ih =>
    refine (ih heq).trans (hdrop h ?_)
    rw [List.length_drop]
    omega
  | case7 field rest h _ p _ _ rest' _ c numQuotes field' _ =>
    simp only [Except.ok.injEq, Prod.mk.injEq] at heq
    obtain ⟨-, hr, hh⟩ := heq
    rw [← hr, ← hh]
    refine hdrop h ((a.length_countQuotes_le rest').trans ?_)
    rw [List.length_drop]
    omega
  | case8 field rest h _ p _ _ rest' _ c numQuotes field' _ ih =>
    refine (ih heq).trans (hdrop h ((a.length_countQuotes_le rest').trans ?_))
    rw [List.length_drop]
    omega

/-- `split_with_quote`; `l` is the list of the fields so far. -/
def splitWithQuote (l : List (List UInt8)) (rest : List UInt8) (h : Lines) :
    Except SplitFault (List (List UInt8)) :=
  if rest = [] then .ok l
  else
    let c := a.countQuotes rest
    if c.1 ≠ 0 then
      if c.1 = 2 ∧ (c.2 = [] ∨ a.sep <+: c.2) then
        if c.2 = [] then .ok (l ++ [[]]) else splitWithQuote (l ++ [[]]) (c.2.drop a.sep.length) h
      else if c.1 % 2 = 0 then .error (.splitError (.evenQuotes c.1))
      else
        match heq : a.quotedField l.length (copies ((c.1 - 1) / 2) a.quote) c.2 h with
        | .error e => .error e
        | .ok (field, r, h') =>
          if r ≠ [] ∧ ¬a.sep <+: r then .error (.splitError (.noSeparator (l.length + 1)))
          else if r = [] then .ok (l ++ [field])
          else splitWithQuote (l ++ [field]) (r.drop a.sep.length) h'
    else
      match heq : firstMatch rest a.sep with
      | none =>
        match a.trim rest with
        | none => .error .trimFailed
        | some field => .ok (l ++ [field])
      | some p =>
        match a.trim (rest.take p) with
        | none => .error .trimFailed
        | some field => splitWithQuote (l ++ [field]) (rest.drop (p + a.sep.length)) h
termination_by a.left rest h
decreasing_by
  · rename_i hne _ _
    have hlt := a.length_countQuotes_lt hne
    refine Nat.add_lt_add_right ?_ _
    rw [List.length_drop]
    omega
  · rename_i hne _ _ _ _
    have hlt : a.left (a.countQuotes rest).2 h < a.left rest h :=
      Nat.add_lt_add_right (a.length_countQuotes_lt hne) _
    have hle := a.left_quotedField heq
    have hdrop : a.left (r.drop a.sep.length) h' ≤ a.left r h' := by
      refine Nat.add_le_add_right ?_ _
      rw [List.length_drop]
      omega
    exact Nat.lt_of_le_of_lt (hdrop.trans hle) hlt
  · have hle := firstMatch_add_le heq
    have hpos := List.length_pos_iff.mpr a.quote_ne
    have hsep := a.quote_le
    refine Nat.add_lt_add_right ?_ _
    rw [List.length_drop]
    omega

end

end SplitArgs

/-! ## Lines -/

/-- The lines of a text. A line iterator gives no empty line at the end of the text. -/
def linesOf (eol text : List UInt8) : List (List UInt8) :=
  let lines := pieces eol text
  if lines.getLast? = some [] then lines.dropLast else lines

/-- `split_with_quote` for a text, or for the current line of a line iterator over the lines of the
text (`AbstractLineIterator::getSplitLine`). -/
def SplitArgs.split (a : SplitArgs) (byLine : Bool) (text : List UInt8) :
    Except SplitFault (List (List UInt8)) :=
  if byLine then
    match linesOf a.eol text with
    | [] => .error .invalidIterator
    | line :: lines => a.splitWithQuote [] line (some lines)
  else a.splitWithQuote [] text none

end Qore.Text
