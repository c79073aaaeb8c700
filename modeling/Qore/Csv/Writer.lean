import Mathlib.Data.List.TakeWhile
import Qore.Text.SplitSpec

/-!
# `Qore.Csv.Writer`: lines of a CSV file

`prepareRawLineIntern` of `AbstractCsvWriter` makes a line of string values, with the default
separator, quote and escape character, and `getLineAndSplit` of `AbstractCsvIterator` reads it.

Values are valid in their encoding, so `find` and `replace`, which convert between bytes and
characters, see the same as a search of the bytes.
-/

set_option autoImplicit false

namespace Qore.Csv

open Qore.Lib.Matches Qore.Text

def separator : List UInt8 := [44]

def quote : List UInt8 := [34]

/-- `m_quoteEscapeChar` -/
def quoteEscapeChar : List UInt8 := [92]

/-- `EOLS` -/
inductive Eol
  | unix
  | win
  | macintosh
  deriving DecidableEq

def Eol.bytes : Eol → List UInt8
  | unix => [10]
  | win => [13, 10]
  | macintosh => [13]

/-! ## Strings -/

/-- The loop of `replace`. What is left behind the last pattern is added as a C string. -/
def replaceLoop (pattern target : List UInt8) (hne : pattern ≠ []) (cstr : List UInt8) :
    List UInt8 :=
  match heq : firstMatch cstr pattern with
  | none => cstr.takeWhile (· ≠ 0)
  | some p => cstr.take p ++ target ++ replaceLoop pattern target hne (cstr.drop (p + pattern.length))
termination_by cstr.length
decreasing_by
  have hle := firstMatch_add_le heq
  have hpos := List.length_pos_iff.mpr hne
  rw [List.length_drop]
  omega

/-- `replace`, with the default `start` and `end`. -/
def replace (str source target : List UInt8) : List UInt8 :=
  if h : source = [] ∨ str = [] then str
  else replaceLoop source target (fun hnil => h (.inl hnil)) str

/-- `strmul` of a text with one byte for each character. -/
def strmul (str : List UInt8) (smul offset : Nat) : List UInt8 :=
  let ret := copies smul str
  ret.take (ret.length - offset)

/-- `vsprintf`, as far as the format only has `%s` and one argument for each. -/
def vsprintf : (fmt : List UInt8) → (args : List (List UInt8)) → List UInt8
  | 37 :: 115 :: fmt, arg :: args => arg ++ vsprintf fmt args
  | b :: fmt, args => b :: vsprintf fmt args
  | [], _ => []

/-- `foldl $1 + separator + $2, l` -/
def foldSeparator : (l : List (List UInt8)) → List UInt8
  | [] => []
  | v :: l => l.foldl (fun a b => a ++ separator ++ b) v

/-! ## Lines -/

/-- `"%s",` -/
def baseTemplate : List UInt8 := quote ++ [37, 115] ++ quote ++ separator

/-- What is written for a value with `optimal_quotes`. -/
def optimal (v : List UInt8) : List UInt8 :=
  if (firstMatch v quote).isSome then
    vsprintf [34, 37, 115, 34] [replace v quote (quoteEscapeChar ++ quote)]
  else if (firstMatch v separator).isSome then vsprintf [34, 37, 115, 34] [v]
  else v

/-- `AbstractCsvWriter::prepareRawLineIntern` for a list of strings. -/
def prepareRawLineIntern (optimalQuotes : Bool) (eol : Eol) (values : List (List UInt8)) :
    List UInt8 :=
  if !optimalQuotes then
    let template := strmul baseTemplate values.length 1 ++ eol.bytes
    let row := values.map fun v => replace v quote (quoteEscapeChar ++ quote)
    vsprintf template row
  else foldSeparator (values.map optimal) ++ eol.bytes

/-- The arguments of `getSplitLine`, with `trim_unquoted` off. -/
def splitArgs (eol : Eol) : Quoting where
  sep := separator
  quote := quote
  eol := eol.bytes
  trim := some
  quote_ne := by decide
  quote_le := by decide
  quote_null := by decide
  eol_null := by cases eol <;> decide
  eol_ne := by cases eol <;> decide
  eol_quote := by cases eol <;> simp [Eol.bytes, quote]

/-- `AbstractCsvIterator::getLineAndSplit`, at the first line of a text. -/
def getLineAndSplit (eol : Eol) (text : List UInt8) : Except SplitFault (List (List UInt8)) :=
  (splitArgs eol).split true text

/-! ## What is written -/

/-- `replace` puts the target between the pieces of the text. -/
theorem replaceLoop_eq {pattern : List UInt8} (target : List UInt8) (hne : pattern ≠ [])
    (cstr : List UInt8) : ∃ ps p, pieces pattern cstr = ps ++ [p] ∧
      replaceLoop pattern target hne cstr = target.intercalate (ps ++ [p.takeWhile (· ≠ 0)]) := by
  fun_induction replaceLoop pattern target hne cstr with
  | case1 cstr h => exact ⟨[], cstr, pieces_none h, List.intercalate_singleton.symm⟩
  | case2 cstr i h ih =>
    obtain ⟨ps, p, hp, heq⟩ := ih
    refine ⟨cstr.take i :: ps, p, by rw [pieces_some hne h, hp, List.cons_append], ?_⟩
    rw [List.cons_append, List.intercalate_cons_of_ne_nil (by simp), heq, List.append_assoc]

theorem vsprintf_cons {b : UInt8} (hb : b ≠ 37) (fmt : List UInt8) (args : List (List UInt8)) :
    vsprintf (b :: fmt) args = b :: vsprintf fmt args := by
  rw [vsprintf]
  rintro _ _ _ rfl heq
  exact absurd heq hb

/-- A format without specifications. -/
theorem vsprintf_plain {fmt : List UInt8} (h : 37 ∉ fmt) (args : List (List UInt8)) :
    vsprintf fmt args = fmt := by
  induction fmt with
  | nil => cases args <;> rfl
  | cons b fmt ih =>
    rw [List.mem_cons, not_or] at h
    rw [vsprintf_cons (Ne.symm h.1), ih h.2]

/-- A value between quotes. -/
def quoted (x : List UInt8) : List UInt8 := quote ++ (x ++ quote)

theorem vsprintf_quoted (x : List UInt8) (fmt : List UInt8) (args : List (List UInt8)) :
    vsprintf (34 :: 37 :: 115 :: 34 :: fmt) (x :: args) = quoted x ++ vsprintf fmt args := by
  show 34 :: (x ++ (34 :: vsprintf fmt args)) = _
  unfold quoted quote
  simp

/-- The template without its last separator makes the quoted values, joined with the separator. -/
theorem vsprintf_template {x : List UInt8} (xs : List (List UInt8)) (eol : Eol) :
    vsprintf (strmul baseTemplate (x :: xs).length 1 ++ eol.bytes) (x :: xs) =
      separator.intercalate ((x :: xs).map quoted) ++ eol.bytes := by
  have htemplate : ∀ n, strmul baseTemplate (n + 1) 1 = copies n baseTemplate ++ [34, 37, 115, 34] := by
    intro n
    have hone : copies 1 baseTemplate = [34, 37, 115, 34] ++ [44] := rfl
    unfold strmul
    rw [copies_add, hone, ← List.append_assoc]
    dsimp only
    rw [List.length_append, List.length_singleton, Nat.add_sub_cancel, List.take_left]
  rw [List.length_cons, htemplate]
  induction xs generalizing x with
  | nil =>
    have heol : vsprintf eol.bytes [] = eol.bytes := vsprintf_plain (by cases eol <;> decide) []
    have hquoted := vsprintf_quoted x eol.bytes []
    rw [heol] at hquoted
    rw [List.map_singleton, List.intercalate_singleton]
    exact hquoted
  | cons y xs ih =>
    rw [List.length_cons, copies_succ, List.map_cons,
      List.intercalate_cons_of_ne_nil (by simp), List.append_assoc, List.append_assoc]
    refine (vsprintf_quoted x _ _).trans ?_
    rw [List.append_assoc, List.append_assoc, ← ih]
    refine congrArg (quoted x ++ ·) ?_
    rw [List.append_assoc]
    exact vsprintf_cons (b := 44) (by decide) _ _

theorem foldSeparator_eq (l : List (List UInt8)) : foldSeparator l = separator.intercalate l := by
  have hfold : ∀ (l : List (List UInt8)) (v : List UInt8),
      l.foldl (fun a b => a ++ separator ++ b) v = separator.intercalate (v :: l) := by
    intro l
    induction l with
    | nil => exact fun v => List.intercalate_singleton.symm
    | cons w l ih =>
      intro v
      rw [List.foldl_cons, ih, List.intercalate_cons_of_ne_nil (List.cons_ne_nil w l)]
      cases l with
      | nil => rw [List.intercalate_singleton, List.intercalate_singleton]
      | cons u l =>
        rw [List.intercalate_cons_of_ne_nil (List.cons_ne_nil u l),
          List.intercalate_cons_of_ne_nil (List.cons_ne_nil u l)]
        simp only [List.append_assoc]
  cases l with
  | nil => rfl
  | cons v l => exact hfold l v

/-- `replace` is called for the value. -/
def isReplaced (optimalQuotes : Bool) (v : List UInt8) : Bool :=
  !optimalQuotes || (firstMatch v quote).isSome

/-- The value is written between quotes. -/
def isQuoted (optimalQuotes : Bool) (v : List UInt8) : Bool :=
  isReplaced optimalQuotes v || (firstMatch v separator).isSome

/-- What is written between quotes. -/
def content (optimalQuotes : Bool) (v : List UInt8) : List UInt8 :=
  if isReplaced optimalQuotes v then replace v quote (quoteEscapeChar ++ quote) else v

/-- What is written for a value. -/
def written (optimalQuotes : Bool) (v : List UInt8) : List UInt8 :=
  if isQuoted optimalQuotes v then quoted (content optimalQuotes v) else v

theorem optimal_eq (v : List UInt8) : optimal v = written true v := by
  unfold optimal written content isQuoted isReplaced
  cases (firstMatch v quote).isSome with
  | true => rfl
  | false => rfl

/-- A line is what is written for its values, joined with the separator. -/
theorem prepareRawLineIntern_eq (optimalQuotes : Bool) (eol : Eol) {values : List (List UInt8)}
    (hne : values ≠ []) : prepareRawLineIntern optimalQuotes eol values =
      separator.intercalate (values.map (written optimalQuotes)) ++ eol.bytes := by
  cases optimalQuotes with
  | true =>
    show foldSeparator (values.map optimal) ++ eol.bytes = _
    rw [foldSeparator_eq, List.map_congr_left fun v _ => optimal_eq v]
  | false =>
    obtain ⟨v, values, rfl⟩ := List.exists_cons_of_ne_nil hne
    let row := fun v => replace v quote (quoteEscapeChar ++ quote)
    have htemplate := vsprintf_template (x := row v) (values.map row) eol
    rw [← List.map_cons (f := row), List.length_map, List.map_map] at htemplate
    exact htemplate

/-- The content is the pieces of the value between its quotes, with an escaped quote between two of
them. The last one ends at a null byte when `replace` is called. -/
theorem content_eq (optimalQuotes : Bool) (v : List UInt8) :
    ∃ ps p p', pieces quote v = ps ++ [p] ∧
      content optimalQuotes v = (quoteEscapeChar ++ quote).intercalate (ps ++ [p']) ∧ p' <+: p ∧
      (p' = p ↔ (isReplaced optimalQuotes v = true → 0 ∉ p)) := by
  unfold content
  cases hr : isReplaced optimalQuotes v with
  | true =>
    have hnull : ∀ p : List UInt8, p.takeWhile (· ≠ 0) = p ↔ (True → 0 ∉ p) := by
      intro p
      rw [List.takeWhile_eq_self_iff]
      constructor
      · exact fun hall _ hmem => absurd (hall 0 hmem) (by decide)
      · exact fun hnot b hb => decide_eq_true fun heq => hnot trivial (heq ▸ hb)
    simp only [if_true]
    unfold replace
    by_cases hnil : v = []
    · subst hnil
      exact ⟨[], [], [], pieces_none (by decide), rfl, List.prefix_refl _, by simp⟩
    · rw [dif_neg (by simp [hnil, quote])]
      obtain ⟨ps, p, hp, heq⟩ := replaceLoop_eq (quoteEscapeChar ++ quote) (by decide : quote ≠ []) v
      exact ⟨ps, p, _, hp, heq, List.takeWhile_prefix _, hnull p⟩
  | false =>
    unfold isReplaced at hr
    rw [Bool.or_eq_false_iff, Option.isSome_eq_false_iff, Option.isNone_iff_eq_none] at hr
    exact ⟨[], v, v, pieces_none hr.2, List.intercalate_singleton.symm, List.prefix_refl _, by simp⟩

end Qore.Csv
