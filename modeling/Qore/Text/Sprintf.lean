import Qore.Lib.Outcome
import Qore.Text.Base64
import Mathlib.Logic.Relation

/-!
# `Qore.Text.Sprintf`: format specifications

`qore_sprintf_intern` copies a format string and lets `process_opt` handle each `%`. That function
reads flags, a width and a precision, and for numbers it writes the specification again into a
buffer of 20 bytes for the `sprintf` of the C library. What this and the other conversions give is a
parameter (`render`).

The memory of the format ends with its terminator; reading behind it, writing behind the buffer and
an `int` beyond its range are `Fault.undefined`.

* `getNumber_eq`, `readOpts_eq`: what is read, on any format.
* `processOpt_eq`: a specification is handled exactly when it fits (`Spec.Fits`).
* `sprintfLoop_args`: the calls take the arguments in order.
* `sprintf_inBounds_iff`: when everything stays in bounds.
-/

set_option autoImplicit false

namespace Qore.Text

open Qore.Lib
open Qore.Stream (Fault Exception)

/-- The values that are arguments. -/
structure Values (α : Type) where
  /-- `QoreValue()`. -/
  nothing : α
  isNothing : α → Bool
  /-- The type is `NT_NUMBER`. -/
  isNumber : α → Bool
  /-- The bytes of a value of the type `NT_STRING`. -/
  string? : α → Option (List UInt8)
  /-- The entries of a value of the type `NT_LIST`. -/
  list? : α → Option (List α)

/-! ### Reading a specification -/

/-- `isdigit`. -/
def isdigit (c : UInt8) : Bool := byteOf '0' ≤ c && c ≤ byteOf '9'

/-- The largest `int`. -/
def intMax : Nat := 2 ^ 31 - 1

/-- `get_number`. -/
def getNumber : Nat → List UInt8 → Except Fault (Nat × List UInt8)
  | _, [] => .error .undefined
  | num, c :: param =>
    if isdigit c then
      if intMax < num * 10 + (c.toNat - 48) then .error .undefined
      else getNumber (num * 10 + (c.toNat - 48)) param
    else .ok (num, c :: param)

/-- The print options. -/
structure Opts where
  justifyLeft : Bool := false
  includePlus : Bool := false
  spaceFill : Bool := false
  zeroFill : Bool := false

/-- The characters of the options. -/
def isOpt (c : UInt8) : Bool :=
  c = byteOf '-' || c = byteOf '+' || c = byteOf ' ' || c = byteOf '0'

/-- One round of the loop that reads options. -/
def Opts.add (opts : Opts) (c : UInt8) : Opts :=
  if c = byteOf '-' then { opts with justifyLeft := true }
  else if c = byteOf '+' then { opts with includePlus := true }
  else if c = byteOf ' ' then { opts with spaceFill := true, zeroFill := false }
  else { opts with zeroFill := true, spaceFill := false }

/-- The loop that reads options. -/
def readOpts : Opts → List UInt8 → Except Fault (Opts × List UInt8)
  | _, [] => .error .undefined
  | opts, c :: param =>
    if isOpt c then readOpts (opts.add c) param else .ok (opts, c :: param)

/-- The width; `none` is -1. -/
def readWidth : List UInt8 → Except Fault (Option Nat × List UInt8)
  | [] => .error .undefined
  | c :: param =>
    if isdigit c then do
      let (width, param) ← getNumber 0 (c :: param)
      return (some width, param)
    else .ok (none, c :: param)

/-- The precision; `none` is -1. -/
def readDecimals : List UInt8 → Except Fault (Option Nat × List UInt8)
  | [] => .error .undefined
  | c :: param =>
    if c = byteOf '.' then do
      let (decimals, param) ← getNumber 0 param
      return (some decimals, param)
    else .ok (none, c :: param)

/-! ### The conversions -/

/-- The start of the C format, up to the width. -/
def fmtStart (opts : Opts) (width : Option Nat) : List UInt8 :=
  byteOf '%' :: (if opts.justifyLeft then [byteOf '-'] else []) ++
    (if opts.includePlus then [byteOf '+'] else []) ++
    match width with
    | none => []
    | some width =>
      (if opts.spaceFill then [byteOf ' '] else if opts.zeroFill then [byteOf '0'] else []) ++
        decimal width

/-- The C format of an integer. -/
def intFmt (opts : Opts) (width : Option Nat) (p : UInt8) : List UInt8 :=
  fmtStart opts width ++ [byteOf 'l', byteOf 'l', p]

/-- The C format of a floating-point value. For a number, `QORE_MPFR_SPRINTF_ARG` is one more
character. -/
def floatFmt (opts : Opts) (width decimals : Option Nat) (number : Bool) (p : UInt8) : List UInt8 :=
  fmtStart opts width ++
    (match decimals with
      | none => []
      | some decimals => byteOf '.' :: decimal decimals) ++
    (if number then [byteOf 'R'] else []) ++ [p]

/-- What a conversion calls to make its text. `terminate` is the size to which the text is cut. -/
inductive Call (α : Type) where
  | string (arg : α) (type : Nat) (opts : Opts) (char_width : Bool) (width : Option Nat)
  | integer (arg : α) (fmt : List UInt8) (terminate : Option Nat)
  | float (arg : α) (fmt : List UInt8) (terminate : Option Nat)
  | node (arg : α) (format : Int)

/-- The argument that is converted. -/
def Call.arg {α : Type} : Call α → α
  | .string arg _ _ _ _ => arg
  | .integer arg _ _ => arg
  | .float arg _ _ => arg
  | .node arg _ => arg

/-- The conversions of integers. -/
def isIntConv (p : UInt8) : Bool :=
  p = byteOf 'p' || p = byteOf 'd' || p = byteOf 'o' || p = byteOf 'x' || p = byteOf 'X'

/-- The conversions of floating-point values. -/
def isFloatConv (p : UInt8) : Bool :=
  p = byteOf 'A' || p = byteOf 'a' || p = byteOf 'G' || p = byteOf 'g' || p = byteOf 'F' ||
    p = byteOf 'f' || p = byteOf 'E' || p = byteOf 'e'

/-- The conversion, without regard to the buffer; `none` when the character is not understood. -/
def conversion {α : Type} (V : Values α) (qv : α) (type : Nat) (opts : Opts)
    (width decimals : Option Nat) (p : UInt8) : Option (Call α) :=
  if p = byteOf 's' then some (.string qv type opts false width)
  else if p = byteOf 'w' then some (.string qv type opts true width)
  else if isIntConv p then
    some (.integer qv (intFmt opts width (if p = byteOf 'p' then byteOf 'x' else p))
      (if type ≠ 0 then width else none))
  else if isFloatConv p then
    some (.float qv (floatFmt opts width decimals (V.isNumber qv) p)
      (if type ≠ 0 then width else none))
  else if p = byteOf 'n' then some (.node qv (-1))
  else if p = byteOf 'N' then some (.node qv (width.getD 0))
  else if p = byteOf 'y' then some (.node qv (-2))
  else none

/-- The C format that a call wrote, with its terminator, is in the buffer `fmt[20]`. -/
def Call.checkFmt {α : Type} : Call α → Except Fault Unit
  | .integer _ fmt _ | .float _ fmt _ => if 20 < fmt.length + 1 then .error .undefined else .ok ()
  | .string .. | .node .. => .ok ()

section
variable {α : Type} (V : Values α)

/-- `process_opt`, on the memory from `%` on: the number of characters to skip, `arg_used`, and the
conversion, or `none` for a percent sign. -/
def processOpt (str : List UInt8) (qv : α) (type : Nat) :
    Except Fault (Nat × Bool × Option (Call α)) :=
  match str.drop 1 with
  | [] => .error .undefined
  | c :: param =>
    if c = byteOf '%' then .ok (1, false, none)
    else do
      let (opts, param) ← readOpts {} (c :: param)
      let (width, param) ← readWidth param
      let (decimals, param) ← readDecimals param
      match param with
      | [] => .error .undefined
      | p :: _ =>
        match conversion V qv type opts width decimals p with
        -- if the format argument is not understood, just consume the `%`
        | none => return (0, false, none)
        | some call =>
          call.checkFmt
          return (str.length - param.length, true, some call)

/-! ### The format -/

/-- `i += process_opt(…)` and `++i`; the result is an `int`. -/
def nextIndex (i k : Nat) : Nat := (i + toSize (truncInt k) + 1) % 2 ^ 64

variable (render : Call α → Except Exception (List UInt8)) (broken_sprintf : Bool)
  (fmt : List UInt8) (arg_list : List α) (arg_size type : Nat)

/-- The loop of `qore_sprintf_intern`: the calls that are made, and the text that is appended. -/
def sprintfLoop : Nat → Nat → Nat → List (Call α) × Except Fault (List UInt8)
  | 0, _, _ => ([], .error .endless)
  | fuel + 1, i, arg_offset =>
    if i < fmt.length then
      match (fmt ++ [0]).drop i with
      | [] => ([], .error .undefined)
      | c :: p =>
        if c = byteOf '%' ∧ (broken_sprintf = false ∨ arg_offset < arg_size) then
          let use_arg : Bool := arg_offset < arg_size
          let param_value := if use_arg then arg_list.getD arg_offset V.nothing else V.nothing
          let arg_offset := if use_arg then arg_offset + 1 else arg_offset
          match processOpt V (c :: p) param_value type with
          | .error e => ([], .error e)
          | .ok (k, arg_used, call) =>
            let arg_offset := if use_arg && !arg_used then arg_offset - 1 else arg_offset
            match call with
            | none =>
              let r := sprintfLoop fuel (nextIndex i k) arg_offset
              (r.1, r.2.map fun text => byteOf '%' :: text)
            | some call =>
              match render call with
              | .error e => ([call], .error (.exception e))
              | .ok piece =>
                let r := sprintfLoop fuel (nextIndex i k) arg_offset
                (call :: r.1, r.2.map fun text => piece ++ text)
        else if c = byteOf '%' then
          match p with
          | [] => ([], .error .undefined)
          | d :: _ =>
            let r := sprintfLoop fuel (if d = byteOf '%' then i + 2 else i + 1) arg_offset
            (r.1, r.2.map fun text => c :: text)
        else
          let r := sprintfLoop fuel (i + 1) arg_offset
          (r.1, r.2.map fun text => c :: text)
    else ([], .ok [])

end

/-- The arguments of `qore_sprintf_intern`. -/
structure SprintfArgs (α : Type) where
  fmt : List UInt8
  arg_list : List α
  arg_offset : Nat
  field : Nat
  /-- `none` is -1. -/
  last_arg : Option Nat
  ignore_broken_sprintf : Bool

/-- `arg_size`. -/
def SprintfArgs.argSize {α : Type} (a : SprintfArgs α) : Nat :=
  match a.last_arg with
  | none => a.arg_list.length
  | some last_arg => min last_arg a.arg_list.length

/-- `broken_sprintf`; `po` tells whether the program has the option `PO_BROKEN_SPRINTF`. -/
def SprintfArgs.brokenSprintf {α : Type} (a : SprintfArgs α) (po : Bool) : Bool :=
  if a.ignore_broken_sprintf then false else po

section
variable {α : Type} (V : Values α)

/-- The arguments that `q_sprintf` passes on; `none` when it returns an empty string. -/
def qSprintfArgs (params : List α) (field offset : Nat) : Option (SprintfArgs α) :=
  (V.string? (params.getD offset V.nothing)).map fun fmt => {
    fmt := fmt
    arg_list := params
    arg_offset := offset + 1
    field := field
    last_arg := none
    ignore_broken_sprintf := false }

/-- The arguments that `q_vsprintf` passes on. -/
def qVsprintfArgs (params : List α) (field offset : Nat) : Option (SprintfArgs α) :=
  (V.string? (params.getD offset V.nothing)).map fun fmt =>
    let pv := params.getD (offset + 1) V.nothing
    match V.list? pv with
    | some arg_list => {
        fmt := fmt
        arg_list := arg_list
        arg_offset := 0
        field := field
        last_arg := none
        ignore_broken_sprintf := arg_list.isEmpty }
    | none =>
      if V.isNothing pv then {
        fmt := fmt
        arg_list := []
        arg_offset := 0
        field := field
        last_arg := some 0
        ignore_broken_sprintf := false }
      else {
        fmt := fmt
        arg_list := params
        arg_offset := offset + 1
        field := field
        last_arg := some (offset + 2)
        ignore_broken_sprintf := false }

/-- `qore_sprintf_intern`, for a number of rounds of its loop. -/
def qoreSprintfIntern (render : Call α → Except Exception (List UInt8)) (po : Bool)
    (a : SprintfArgs α) (fuel : Nat) : List (Call α) × Except Fault (List UInt8) :=
  sprintfLoop V render (a.brokenSprintf po) a.fmt a.arg_list a.argSize a.field fuel 0 a.arg_offset

/-- The arguments that `q_sprintf`, or with `v` `q_vsprintf`, passes on. -/
def formatArgs (v : Bool) (params : List α) (field offset : Nat) : Option (SprintfArgs α) :=
  if v then qVsprintfArgs V params field offset else qSprintfArgs V params field offset

/-- `q_sprintf`, and with `v` `q_vsprintf`. -/
def qSprintf (v : Bool) (render : Call α → Except Exception (List UInt8)) (po : Bool)
    (params : List α) (field offset fuel : Nat) : List (Call α) × Except Fault (List UInt8) :=
  match formatArgs V v params field offset with
  | none => ([], .ok [])
  | some a => qoreSprintfIntern V render po a fuel

end

/-! ### A specification, without bounds -/

/-- The number with these digits, after `n`. -/
def digitsNum (n : Nat) (ds : List UInt8) : Nat := ds.foldl (fun n c => n * 10 + (c.toNat - 48)) n

/-- A specification: the numbers without a bound, and the text from the conversion on. -/
structure Spec where
  opts : Opts
  width : Option Nat
  decimals : Option Nat
  rest : List UInt8

/-- The specification of which `q` follows the percent sign. -/
def Spec.read (q : List UInt8) : Spec :=
  let p := q.dropWhile isOpt
  let rest := p.dropWhile isdigit
  let opts := (q.takeWhile isOpt).foldl Opts.add {}
  let width := if p.takeWhile isdigit = [] then none else some (digitsNum 0 (p.takeWhile isdigit))
  if rest.head? = some (byteOf '.') then
    { opts := opts
      width := width
      decimals := some (digitsNum 0 ((rest.drop 1).takeWhile isdigit))
      rest := (rest.drop 1).dropWhile isdigit }
  else { opts := opts, width := width, decimals := none, rest := rest }

/-- The width and the precision are `int`s, and the C format of a floating-point value with its
terminator is not longer than 20 bytes. -/
structure Spec.Fits (s : Spec) (number : Bool) : Prop where
  width : ∀ width, s.width = some width → width ≤ intMax
  decimals : ∀ decimals, s.decimals = some decimals → decimals ≤ intMax
  format : ∀ p, s.rest.head? = some p → isFloatConv p = true →
    (floatFmt s.opts s.width s.decimals number p).length + 1 ≤ 20

/-! ### What is read -/

variable {q : List UInt8}

theorem zero_mem_dropWhile {P : UInt8 → Bool} (hP : P 0 = false) (hq : 0 ∈ q) :
    0 ∈ q.dropWhile P := by
  induction q with
  | nil => cases hq
  | cons c q ih =>
    by_cases hc : P c = true
    · rw [List.dropWhile_cons_of_pos hc]
      rcases List.mem_cons.mp hq with rfl | hq
      · rw [hP] at hc
        cases hc
      · exact ih hq
    · rwa [List.dropWhile_cons_of_neg hc]

theorem readOpts_eq (opts : Opts) (hq : 0 ∈ q) :
    readOpts opts q = .ok ((q.takeWhile isOpt).foldl Opts.add opts, q.dropWhile isOpt) := by
  induction q generalizing opts with
  | nil => cases hq
  | cons c q ih =>
    by_cases hc : isOpt c = true
    · have hq : 0 ∈ q := by
        rcases List.mem_cons.mp hq with rfl | hq
        · exact absurd hc (by decide)
        · exact hq
      rw [readOpts, if_pos hc, ih _ hq, List.takeWhile_cons_of_pos hc,
        List.dropWhile_cons_of_pos hc, List.foldl_cons]
    · rw [readOpts, if_neg hc, List.takeWhile_cons_of_neg hc, List.dropWhile_cons_of_neg hc,
        List.foldl_nil]

theorem le_digitsNum (ds : List UInt8) : ∀ n, n ≤ digitsNum n ds := by
  induction ds with
  | nil => exact fun n => le_rfl
  | cons d ds ih =>
    intro n
    have := ih (n * 10 + (d.toNat - 48))
    unfold digitsNum at this ⊢
    rw [List.foldl_cons]
    omega

/-- `get_number` overflows exactly when the whole number is no `int`. -/
theorem getNumber_eq (n : Nat) (hq : 0 ∈ q) : getNumber n q =
      if intMax < digitsNum n (q.takeWhile isdigit) ∧ q.takeWhile isdigit ≠ [] then
        .error .undefined
      else .ok (digitsNum n (q.takeWhile isdigit), q.dropWhile isdigit) := by
  induction q generalizing n with
  | nil => cases hq
  | cons c q ih =>
    by_cases hc : isdigit c = true
    · have hq : 0 ∈ q := by
        rcases List.mem_cons.mp hq with rfl | hq
        · exact absurd hc (by decide)
        · exact hq
      rw [getNumber, if_pos hc, ih _ hq, List.takeWhile_cons_of_pos hc,
        List.dropWhile_cons_of_pos hc]
      have hnum : digitsNum n (c :: q.takeWhile isdigit) =
          digitsNum (n * 10 + (c.toNat - 48)) (q.takeWhile isdigit) := rfl
      have hle := le_digitsNum (q.takeWhile isdigit) (n * 10 + (c.toNat - 48))
      rw [hnum]
      by_cases hlt : intMax < n * 10 + (c.toNat - 48)
      · rw [if_pos hlt, if_pos ⟨by omega, List.cons_ne_nil _ _⟩]
      · rw [if_neg hlt]
        by_cases hnil : q.takeWhile isdigit = []
        · rw [hnil] at hnum ⊢
          rw [if_neg (by simp), if_neg]
          exact fun h => hlt h.1
        · simp [hnil]
    · rw [getNumber, if_neg hc, List.takeWhile_cons_of_neg hc, List.dropWhile_cons_of_neg hc,
        if_neg (by simp)]
      rfl

/-- The width, without a bound. -/
def widthOf (q : List UInt8) : Option Nat :=
  if q.takeWhile isdigit = [] then none else some (digitsNum 0 (q.takeWhile isdigit))

theorem readWidth_eq (hq : 0 ∈ q) :
    readWidth q = if (widthOf q).all (· ≤ intMax) then .ok (widthOf q, q.dropWhile isdigit)
      else .error .undefined := by
  cases q with
  | nil => cases hq
  | cons c q =>
    rw [readWidth]
    unfold widthOf
    by_cases hc : isdigit c = true
    · have hne : (c :: q).takeWhile isdigit ≠ [] := by
        rw [List.takeWhile_cons_of_pos hc]
        exact List.cons_ne_nil _ _
      rw [if_pos hc, if_neg hne, getNumber_eq 0 hq]
      by_cases hle : digitsNum 0 ((c :: q).takeWhile isdigit) ≤ intMax
      · rw [if_neg fun h => absurd h.1 (Nat.not_lt.mpr hle), if_pos (by simpa using hle)]
        rfl
      · rw [if_pos ⟨Nat.not_le.mp hle, hne⟩, if_neg (by simpa using hle)]
        rfl
    · rw [if_neg hc, List.takeWhile_cons_of_neg hc, List.dropWhile_cons_of_neg hc]
      rfl

/-- The precision, without a bound. -/
def decimalsOf (q : List UInt8) : Option Nat :=
  if q.head? = some (byteOf '.') then some (digitsNum 0 ((q.drop 1).takeWhile isdigit)) else none

/-- The text behind the precision. -/
def afterDecimals (q : List UInt8) : List UInt8 :=
  if q.head? = some (byteOf '.') then (q.drop 1).dropWhile isdigit else q

theorem zero_mem_afterDecimals (hq : 0 ∈ q) : 0 ∈ afterDecimals q := by
  unfold afterDecimals
  split
  case isTrue hdot =>
    cases q with
    | nil => cases hq
    | cons c q =>
      obtain rfl : c = byteOf '.' := by simpa using hdot
      refine zero_mem_dropWhile (by decide) ?_
      simpa [byteOf] using hq
  case isFalse => exact hq

theorem readDecimals_eq (hq : 0 ∈ q) :
    readDecimals q = if (decimalsOf q).all (· ≤ intMax) then .ok (decimalsOf q, afterDecimals q)
      else .error .undefined := by
  cases q with
  | nil => cases hq
  | cons c q =>
    rw [readDecimals]
    unfold decimalsOf afterDecimals
    by_cases hc : c = byteOf '.'
    · subst hc
      have hq : 0 ∈ q := by simpa [byteOf] using hq
      rw [if_pos rfl, getNumber_eq 0 hq]
      by_cases hle : digitsNum 0 (q.takeWhile isdigit) ≤ intMax
      · rw [if_neg fun h => absurd h.1 (Nat.not_lt.mpr hle), if_pos (by simpa using hle)]
        rfl
      · have hne : q.takeWhile isdigit ≠ [] := by
          intro hnil
          rw [hnil] at hle
          exact hle (Nat.zero_le _)
        rw [if_pos ⟨Nat.not_le.mp hle, hne⟩, if_neg (by simpa using hle)]
        rfl
    · have hhead : (c :: q).head? ≠ some (byteOf '.') := by simpa using hc
      rw [if_neg hc, if_neg hhead, if_neg hhead]
      rfl

/-- The parts of a specification, one after the other. -/
theorem Spec.read_eq (q : List UInt8) : Spec.read q = {
    opts := (q.takeWhile isOpt).foldl Opts.add {}
    width := widthOf (q.dropWhile isOpt)
    decimals := decimalsOf ((q.dropWhile isOpt).dropWhile isdigit)
    rest := afterDecimals ((q.dropWhile isOpt).dropWhile isdigit) } := by
  unfold Spec.read decimalsOf afterDecimals widthOf
  dsimp only
  split <;> rfl

/-! ### Room for the C format -/

theorem length_fmtStart_le (opts : Opts) {width : Option Nat}
    (hwidth : ∀ w, width = some w → w ≤ intMax) : (fmtStart opts width).length ≤ 14 := by
  have hdigits : ∀ w, width = some w → (decimal w).length ≤ 10 := by
    intro w hw
    have hlt : w < 10 ^ 10 := by
      have := hwidth w hw
      unfold intMax at this
      omega
    unfold decimal
    rw [List.length_map]
    exact (Nat.length_toDigits_le_iff (b := 10) (by decide) (by decide)).mpr hlt
  have hbit (b : Bool) (c : UInt8) : (if b then [c] else []).length ≤ 1 := by
    cases b <;> simp
  have h1 := hbit opts.justifyLeft (byteOf '-')
  have h2 := hbit opts.includePlus (byteOf '+')
  have h3 : (if opts.spaceFill then [byteOf ' '] else
      if opts.zeroFill then [byteOf '0'] else []).length ≤ 1 := by
    split
    · simp
    · exact hbit opts.zeroFill (byteOf '0')
  unfold fmtStart
  cases width with
  | none =>
    simp only [List.length_append, List.length_cons, List.length_nil]
    omega
  | some w =>
    have h4 := hdigits w rfl
    simp only [List.length_append, List.length_cons]
    omega

/-- The format of an integer always fits. -/
theorem length_intFmt_le {opts : Opts} {width : Option Nat} (p : UInt8)
    (hwidth : ∀ w, width = some w → w ≤ intMax) : (intFmt opts width p).length + 1 ≤ 20 := by
  have := length_fmtStart_le opts hwidth
  unfold intFmt
  rw [List.length_append]
  simp only [List.length_cons, List.length_nil]
  omega

section
variable {α : Type} {V : Values α} {qv : α} {type : Nat}

theorem conversion_arg {opts : Opts} {width decimals : Option Nat} {p : UInt8} {call : Call α}
    (h : conversion V qv type opts width decimals p = some call) : call.arg = qv := by
  unfold conversion at h
  split at h
  · cases h; rfl
  split at h
  · cases h; rfl
  split at h
  · cases h; rfl
  split at h
  · cases h; rfl
  split at h
  · cases h; rfl
  split at h
  · cases h; rfl
  split at h
  · cases h; rfl
  · cases h

/-- The letter of a floating-point value is always a conversion. -/
theorem isFloatConv_of_conversion_none {opts : Opts} {width decimals : Option Nat} {p : UInt8}
    (h : conversion V qv type opts width decimals p = none) : isFloatConv p = false := by
  cases hfloat : isFloatConv p with
  | false => rfl
  | true =>
    -- it is none of the letters that are looked at before
    have hbefore : p ≠ byteOf 's' ∧ p ≠ byteOf 'w' ∧ ¬isIntConv p = true := by
      simp only [isFloatConv, Bool.or_eq_true, decide_eq_true_eq, or_assoc] at hfloat
      obtain rfl | rfl | rfl | rfl | rfl | rfl | rfl | rfl := hfloat <;> decide
    obtain ⟨hs, hw, hint⟩ := hbefore
    rw [conversion, if_neg hs, if_neg hw, if_neg hint, if_pos hfloat] at h
    cases h

/-- The check of the buffer only depends on the format of a floating-point value. -/
theorem checkFmt_conversion {opts : Opts} {width decimals : Option Nat} {p : UInt8} {call : Call α}
    (hwidth : ∀ w, width = some w → w ≤ intMax)
    (h : conversion V qv type opts width decimals p = some call) :
    call.checkFmt = if isFloatConv p = true ∧
        20 < (floatFmt opts width decimals (V.isNumber qv) p).length + 1 then .error .undefined
      else .ok () := by
  have hother {P : Prop} [Decidable P] (hp : isFloatConv p = false) :
      (if isFloatConv p = true ∧ P then (.error .undefined : Except Fault Unit) else .ok ()) =
        .ok () := by
    rw [hp]
    exact if_neg fun h => Bool.false_ne_true h.1
  unfold conversion at h
  split at h
  case isTrue hp => cases h; subst hp; exact (hother (by decide)).symm
  split at h
  case isTrue hp => cases h; subst hp; exact (hother (by decide)).symm
  split at h
  case isTrue hp =>
    cases h
    have hfloat : isFloatConv p = false := by
      simp only [isIntConv, Bool.or_eq_true, decide_eq_true_eq] at hp
      obtain (((rfl | rfl) | rfl) | rfl) | rfl := hp <;> decide
    rw [hother hfloat]
    exact if_neg (Nat.not_lt.mpr (length_intFmt_le _ hwidth))
  split at h
  case isTrue hp =>
    cases h
    unfold Call.checkFmt
    simp only [hp, true_and]
  case isFalse hp =>
    have hfloat : isFloatConv p = false := by simpa using hp
    rw [hother hfloat]
    split at h
    · cases h; rfl
    split at h
    · cases h; rfl
    split at h
    · cases h; rfl
    · cases h

/-- The result of `process_opt` for a specification that fits. -/
def Spec.result (s : Spec) (V : Values α) (str : List UInt8) (qv : α) (type : Nat) :
    Nat × Bool × Option (Call α) :=
  match conversion V qv type s.opts s.width s.decimals (s.rest.headD 0) with
  | none => (0, false, none)
  | some call => (str.length - s.rest.length, true, some call)

/-- `process_opt` handles a specification exactly when it fits. -/
theorem processOpt_eq {α : Type} (V : Values α) (qv : α) (type : Nat) {c : UInt8}
    {q : List UInt8} (hc : c ≠ byteOf '%') (hq : 0 ∈ c :: q) :
    ((Spec.read (c :: q)).Fits (V.isNumber qv) →
      processOpt V (byteOf '%' :: c :: q) qv type =
        .ok ((Spec.read (c :: q)).result V (byteOf '%' :: c :: q) qv type)) ∧
    (¬(Spec.read (c :: q)).Fits (V.isNumber qv) →
      processOpt V (byteOf '%' :: c :: q) qv type = .error .undefined) := by
  have hq1 := zero_mem_dropWhile (P := isOpt) (by decide) hq
  have hq2 := zero_mem_dropWhile (P := isdigit) (by decide) hq1
  have hq3 := zero_mem_afterDecimals hq2
  have hwidth := readWidth_eq hq1
  have hdecimals := readDecimals_eq hq2
  have hopts := readOpts_eq {} hq
  rw [Spec.read_eq]
  generalize hw : widthOf ((c :: q).dropWhile isOpt) = width at hwidth ⊢
  generalize hd : decimalsOf (((c :: q).dropWhile isOpt).dropWhile isdigit) = decimals
    at hdecimals ⊢
  generalize hr : afterDecimals (((c :: q).dropWhile isOpt).dropWhile isdigit) = rest
    at hdecimals hq3 ⊢
  generalize ((c :: q).takeWhile isOpt).foldl Opts.add {} = opts at hopts ⊢
  have hrun : processOpt V (byteOf '%' :: c :: q) qv type = (do
      let (width, param) ← readWidth ((c :: q).dropWhile isOpt)
      let (decimals, param) ← readDecimals param
      match param with
      | [] => .error .undefined
      | p :: _ =>
        match conversion V qv type opts width decimals p with
        | none => return (0, false, none)
        | some call =>
          call.checkFmt
          return ((byteOf '%' :: c :: q).length - param.length, true, some call)) := by
    unfold processOpt
    simp only [List.drop_succ_cons, List.drop_zero]
    rw [if_neg hc, hopts]
    rfl
  cases rest with
  | nil => cases hq3
  | cons p rest =>
  rw [hrun, hwidth]
  by_cases h1 : width.all (· ≤ intMax) = true
  · have hw : ∀ w, width = some w → w ≤ intMax := by
      intro w heq
      rw [heq] at h1
      simpa using h1
    rw [if_pos h1, ok_bind]
    dsimp only
    rw [hdecimals]
    by_cases h2 : decimals.all (· ≤ intMax) = true
    · have hd : ∀ d, decimals = some d → d ≤ intMax := by
        intro d heq
        rw [heq] at h2
        simpa using h2
      rw [if_pos h2, ok_bind]
      unfold Spec.result
      simp only [List.headD_cons]
      cases hconv : conversion V qv type opts width decimals p with
      | none =>
        have hfloat := isFloatConv_of_conversion_none hconv
        refine ⟨fun _ => rfl, fun hno => (hno ⟨hw, hd, fun p' hp' hfl => ?_⟩).elim⟩
        obtain rfl : p = p' := by simpa using hp'
        rw [hfloat] at hfl
        cases hfl
      | some call =>
        dsimp only
        rw [checkFmt_conversion hw hconv]
        constructor
        · intro hfits
          rw [if_neg]
          · rfl
          · rintro ⟨hfl, hlong⟩
            exact absurd (hfits.format p rfl hfl) (Nat.not_le.mpr hlong)
        · intro hno
          rw [if_pos]
          · rfl
          · by_contra hfit
            refine hno ⟨hw, hd, fun p' hp' hfl => ?_⟩
            obtain rfl : p = p' := by simpa using hp'
            exact Nat.not_lt.mp fun hlong => hfit ⟨hfl, hlong⟩
    · rw [if_neg h2]
      refine ⟨fun hfits => (h2 ?_).elim, fun _ => rfl⟩
      cases hdec : decimals with
      | none => rfl
      | some d =>
        have := hfits.decimals d hdec
        simpa using this
  · rw [if_neg h1]
    refine ⟨fun hfits => (h1 ?_).elim, fun _ => rfl⟩
    cases hwid : width with
    | none => rfl
    | some w =>
      have := hfits.width w hwid
      simpa using this

end

/-! ### The steps of the loop -/

section
variable {α : Type} (V : Values α) (render : Call α → Except Exception (List UInt8))
  (broken_sprintf : Bool) (fmt : List UInt8) (arg_list : List α) (arg_size type : Nat)

/-- The argument at an offset. -/
def argAt (arg_offset : Nat) : α :=
  if arg_offset < arg_size then arg_list.getD arg_offset V.nothing else V.nothing

/-- The memory at the index, when `process_opt` is called there and it is not `%%`. -/
def specAt (st : Nat × Nat) : Option (List UInt8) :=
  if st.1 < fmt.length then
    match (fmt ++ [0]).drop st.1 with
    | c :: p =>
      if c = byteOf '%' ∧ (broken_sprintf = false ∨ st.2 < arg_size) ∧
          p.head? ≠ some (byteOf '%') then some p
      else none
    | [] => none
  else none

/-- The specification at the index and the offset, if there is one, fits. -/
def FitsAt (st : Nat × Nat) : Prop :=
  ∀ p, specAt broken_sprintf fmt arg_size st = some p →
    (Spec.read p).Fits (V.isNumber (argAt V arg_list arg_size st.2))

/-- The index and the offset of the next round; `none` at the end of the format and after an
exception. -/
def nextState (st : Nat × Nat) : Option (Nat × Nat) :=
  if st.1 < fmt.length then
    match (fmt ++ [0]).drop st.1 with
    | c :: p =>
      if c = byteOf '%' ∧ (broken_sprintf = false ∨ st.2 < arg_size) then
        if p.head? = some (byteOf '%') then some (nextIndex st.1 1, st.2)
        else
          let r := (Spec.read p).result V (c :: p) (argAt V arg_list arg_size st.2) type
          match r.2.2 with
          | none => some (nextIndex st.1 r.1, st.2)
          | some call =>
            match render call with
            | .error _ => none
            | .ok _ => some (nextIndex st.1 r.1, if st.2 < arg_size then st.2 + 1 else st.2)
      else if c = byteOf '%' then
        some (if p.head? = some (byteOf '%') then st.1 + 2 else st.1 + 1, st.2)
      else some (st.1 + 1, st.2)
    | [] => none
  else none

/-- The run from an index and an offset. -/
def runFrom (st : Nat × Nat) (fuel : Nat) : List (Call α) × Except Fault (List UInt8) :=
  sprintfLoop V render broken_sprintf fmt arg_list arg_size type fuel st.1 st.2

/-- One round of the loop. Either the specification does not fit, or the run ends, or it goes on
with the next state after at most one call, which has the argument at the offset. -/
inductive Round (st : Nat × Nat) : Prop
  | unfit (hfits : ¬FitsAt V broken_sprintf fmt arg_list arg_size st)
      (hrun : ∀ fuel, runFrom V render broken_sprintf fmt arg_list arg_size type st (fuel + 1) =
        ([], .error .undefined))
  | stop (calls : List (Call α)) (r : Except Fault (List UInt8))
      (hfits : FitsAt V broken_sprintf fmt arg_list arg_size st)
      (hnext : nextState V render broken_sprintf fmt arg_list arg_size type st = none)
      (hrun : ∀ fuel, runFrom V render broken_sprintf fmt arg_list arg_size type st (fuel + 1) =
        (calls, r))
      (hr : r ≠ .error .undefined)
      (hcalls : calls = [] ∨ ∃ call, calls = [call] ∧
        call.arg = argAt V arg_list arg_size st.2)
  | go (next : Nat × Nat) (calls : List (Call α)) (piece : List UInt8)
      (hfits : FitsAt V broken_sprintf fmt arg_list arg_size st)
      (hnext : nextState V render broken_sprintf fmt arg_list arg_size type st = some next)
      (hrun : ∀ fuel, runFrom V render broken_sprintf fmt arg_list arg_size type st (fuel + 1) =
        (calls ++ (runFrom V render broken_sprintf fmt arg_list arg_size type next fuel).1,
          (runFrom V render broken_sprintf fmt arg_list arg_size type next fuel).2.map
            fun text => piece ++ text))
      (hcalls : calls = [] ∧ next.2 = st.2 ∨ ∃ call, calls = [call] ∧
        call.arg = argAt V arg_list arg_size st.2 ∧
        next.2 = if st.2 < arg_size then st.2 + 1 else st.2)

/-- A round that calls `process_opt`. -/
theorem runFrom_percent (fuel : Nat) {i off : Nat} {p : List UInt8} (hi : i < fmt.length)
    (hmem : (fmt ++ [0]).drop i = byteOf '%' :: p)
    (hargs : broken_sprintf = false ∨ off < arg_size) :
    runFrom V render broken_sprintf fmt arg_list arg_size type (i, off) (fuel + 1) =
      match processOpt V (byteOf '%' :: p) (argAt V arg_list arg_size off) type with
      | .error e => ([], .error e)
      | .ok (k, arg_used, call) =>
        let next := (nextIndex i k, if off < arg_size ∧ arg_used = true then off + 1 else off)
        match call with
        | none =>
          let r := runFrom V render broken_sprintf fmt arg_list arg_size type next fuel
          (r.1, r.2.map fun text => byteOf '%' :: text)
        | some call =>
          match render call with
          | .error e => ([call], .error (.exception e))
          | .ok piece =>
            let r := runFrom V render broken_sprintf fmt arg_list arg_size type next fuel
            (call :: r.1, r.2.map fun text => piece ++ text) := by
  have harg : (if decide (off < arg_size) = true then arg_list.getD off V.nothing
      else V.nothing) = argAt V arg_list arg_size off := by
    unfold argAt
    simp only [decide_eq_true_eq]
  have hoff (arg_used : Bool) : (if (decide (off < arg_size) && !arg_used) = true then
      (if decide (off < arg_size) = true then off + 1 else off) - 1
      else if decide (off < arg_size) = true then off + 1 else off) =
      if off < arg_size ∧ arg_used = true then off + 1 else off := by
    by_cases hlt : off < arg_size <;> cases arg_used <;> simp [hlt]
  unfold runFrom
  rw [sprintfLoop, if_pos hi, hmem]
  dsimp only
  rw [if_pos ⟨rfl, hargs⟩, harg]
  cases processOpt V (byteOf '%' :: p) (argAt V arg_list arg_size off) type with
  | error e => rfl
  | ok r =>
    dsimp only
    rw [hoff]

theorem round (st : Nat × Nat) :
    Round V render broken_sprintf fmt arg_list arg_size type st := by
  obtain ⟨i, off⟩ := st
  by_cases hi : i < fmt.length
  case neg =>
    refine .stop [] (.ok []) ?_ ?_ (fun fuel => ?_) (by simp) (.inl rfl)
    · intro p hp
      unfold specAt at hp
      rw [if_neg hi] at hp
      cases hp
    · unfold nextState
      rw [if_neg hi]
    · unfold runFrom
      rw [sprintfLoop, if_neg hi]
  -- the memory at the index has the terminator behind it
  obtain ⟨c, p, hmem, hzero⟩ : ∃ c p, (fmt ++ [0]).drop i = c :: p ∧ 0 ∈ p := by
    have hlen : i < fmt.length := hi
    refine ⟨fmt[i], fmt.drop (i + 1) ++ [0], ?_, by simp⟩
    rw [List.drop_append_of_le_length (Nat.le_of_lt hlen), List.drop_eq_getElem_cons hlen]
    rfl
  by_cases hspec : c = byteOf '%' ∧ (broken_sprintf = false ∨ off < arg_size)
  case neg =>
    have hfits : FitsAt V broken_sprintf fmt arg_list arg_size (i, off) := by
      intro q hq
      unfold specAt at hq
      rw [if_pos hi, hmem] at hq
      dsimp only at hq
      rw [if_neg fun h => hspec ⟨h.1, h.2.1⟩] at hq
      cases hq
    by_cases hc : c = byteOf '%'
    · cases p with
      | nil => cases hzero
      | cons d p =>
        refine .go (if d = byteOf '%' then i + 2 else i + 1, off) [] [c] hfits ?_
          (fun fuel => ?_) (.inl ⟨rfl, rfl⟩)
        · unfold nextState
          rw [if_pos hi, hmem]
          dsimp only
          rw [if_neg hspec, if_pos hc]
          simp only [List.head?_cons, Option.some.injEq]
        · unfold runFrom
          rw [sprintfLoop, if_pos hi, hmem]
          dsimp only
          rw [if_neg hspec, if_pos hc]
          rfl
    · refine .go (i + 1, off) [] [c] hfits ?_ (fun fuel => ?_) (.inl ⟨rfl, rfl⟩)
      · unfold nextState
        rw [if_pos hi, hmem]
        dsimp only
        rw [if_neg hspec, if_neg hc]
      · unfold runFrom
        rw [sprintfLoop, if_pos hi, hmem]
        dsimp only
        rw [if_neg hspec, if_neg hc]
        rfl
  obtain ⟨rfl, hargs⟩ := hspec
  cases p with
  | nil => cases hzero
  | cons d p =>
  have hrun (fuel : Nat) := runFrom_percent V render broken_sprintf fmt arg_list arg_size type
    fuel hi hmem hargs
  by_cases hd : d = byteOf '%'
  · -- `%%`
    subst hd
    refine .go (nextIndex i 1, off) [] [byteOf '%'] ?_ ?_ (fun fuel => ?_) (.inl ⟨rfl, rfl⟩)
    · intro q hq
      unfold specAt at hq
      rw [if_pos hi, hmem] at hq
      dsimp only at hq
      rw [if_neg fun h => h.2.2 rfl] at hq
      cases hq
    · unfold nextState
      rw [if_pos hi, hmem]
      dsimp only
      rw [if_pos ⟨rfl, hargs⟩]
      exact if_pos rfl
    · have hopt : processOpt V (byteOf '%' :: byteOf '%' :: p) (argAt V arg_list arg_size off)
          type = .ok (1, false, none) := rfl
      rw [hrun, hopt]
      simp
  have hhead : (d :: p).head? ≠ some (byteOf '%') := by simpa using hd
  have hat : specAt broken_sprintf fmt arg_size (i, off) = some (d :: p) := by
    unfold specAt
    rw [if_pos hi, hmem]
    dsimp only
    rw [if_pos ⟨rfl, hargs, hhead⟩]
  obtain ⟨hfit, hunfit⟩ := processOpt_eq V (argAt V arg_list arg_size off) type hd hzero
  by_cases hfits : (Spec.read (d :: p)).Fits (V.isNumber (argAt V arg_list arg_size off))
  case neg =>
    refine .unfit (fun h => hfits (h _ hat)) (fun fuel => ?_)
    rw [hrun, hunfit hfits]
  have hfits' : FitsAt V broken_sprintf fmt arg_list arg_size (i, off) := by
    intro q hq
    rw [hat] at hq
    obtain rfl := Option.some.inj hq
    exact hfits
  have hopt := hfit hfits
  have hnext : nextState V render broken_sprintf fmt arg_list arg_size type (i, off) =
      let r := (Spec.read (d :: p)).result V (byteOf '%' :: d :: p) (argAt V arg_list arg_size off)
        type
      match r.2.2 with
      | none => some (nextIndex i r.1, off)
      | some call =>
        match render call with
        | .error _ => none
        | .ok _ => some (nextIndex i r.1, if off < arg_size then off + 1 else off) := by
    unfold nextState
    rw [if_pos hi, hmem]
    dsimp only
    rw [if_pos ⟨rfl, hargs⟩, if_neg hhead]
  unfold Spec.result at hopt hnext
  cases hconv : conversion V (argAt V arg_list arg_size off) type (Spec.read (d :: p)).opts
      (Spec.read (d :: p)).width (Spec.read (d :: p)).decimals
      ((Spec.read (d :: p)).rest.headD 0) with
  | none =>
    rw [hconv] at hopt hnext
    refine .go (nextIndex i 0, off) [] [byteOf '%'] hfits' hnext (fun fuel => ?_) (.inl ⟨rfl, rfl⟩)
    rw [hrun, hopt]
    simp
  | some call =>
    rw [hconv] at hopt hnext
    dsimp only at hopt hnext
    have harg := conversion_arg hconv
    cases hrender : render call with
    | error e =>
      rw [hrender] at hnext
      refine .stop [call] (.error (.exception e)) hfits' hnext (fun fuel => ?_) (by simp)
        (.inr ⟨call, rfl, harg⟩)
      rw [hrun, hopt]
      dsimp only
      rw [hrender]
    | ok piece =>
      rw [hrender] at hnext
      refine .go _ [call] piece hfits' hnext (fun fuel => ?_) (.inr ⟨call, rfl, harg, rfl⟩)
      rw [hrun, hopt]
      dsimp only
      rw [hrender]
      simp

/-- The calls take the arguments in order, each one argument. -/
theorem sprintfLoop_args (fuel : Nat) : ∀ (st : Nat × Nat) (k : Nat) (call : Call α),
    (runFrom V render broken_sprintf fmt arg_list arg_size type st fuel).1[k]? = some call →
      call.arg = argAt V arg_list arg_size (st.2 + k) := by
  induction fuel with
  | zero =>
    intro st k call h
    simp [runFrom, sprintfLoop] at h
  | succ fuel ih =>
    intro st k call h
    cases round V render broken_sprintf fmt arg_list arg_size type st with
    | unfit hfits hrun =>
      rw [hrun] at h
      simp at h
    | stop calls r hfits hnext hrun hr hcalls =>
      rw [hrun] at h
      rcases hcalls with rfl | ⟨c, rfl, harg⟩
      · simp at h
      · cases k with
        | zero =>
          obtain rfl : c = call := by simpa using h
          exact harg
        | succ k => simp at h
    | go next calls piece hfits hnext hrun hcalls =>
      rw [hrun] at h
      rcases hcalls with ⟨rfl, hoff⟩ | ⟨c, rfl, harg, hoff⟩
      · rw [← hoff]
        exact ih next k call h
      · cases k with
        | zero =>
          obtain rfl : c = call := by simpa using h
          exact harg
        | succ k =>
          rw [ih next k call h, hoff]
          -- behind the last argument every argument is `nothing`
          by_cases hlt : st.2 < arg_size
          · rw [if_pos hlt, Nat.add_right_comm, Nat.add_assoc]
          · rw [if_neg hlt]
            unfold argAt
            rw [if_neg (by omega), if_neg (by omega)]

/-- The states that the loop reaches. -/
def StateReached : Nat × Nat → Nat × Nat → Prop :=
  Relation.ReflTransGen fun st next =>
    nextState V render broken_sprintf fmt arg_list arg_size type st = some next

theorem map_eq_undefined_iff {β γ : Type} {f : β → γ} {x : Except Fault β} :
    x.map f = .error .undefined ↔ x = .error .undefined := by
  cases x <;> simp [Except.map]

/-- The loop stays in bounds exactly when every specification that it reaches fits. -/
theorem runFrom_inBounds_iff (st : Nat × Nat) :
    (∀ fuel, (runFrom V render broken_sprintf fmt arg_list arg_size type st fuel).2 ≠
      .error .undefined) ↔
    ∀ next, StateReached V render broken_sprintf fmt arg_list arg_size type st next →
      FitsAt V broken_sprintf fmt arg_list arg_size next := by
  constructor
  · intro h next hreach
    induction hreach using Relation.ReflTransGen.head_induction_on with
    | refl =>
      cases round V render broken_sprintf fmt arg_list arg_size type next with
      | unfit hfits hrun => exact absurd (congrArg Prod.snd (hrun 0)) (h 1)
      | stop calls r hfits => exact hfits
      | go next calls piece hfits => exact hfits
    | @head st mid hstep hreach ih =>
      refine ih fun fuel hbad => ?_
      cases round V render broken_sprintf fmt arg_list arg_size type st with
      | unfit hfits hrun => exact absurd (congrArg Prod.snd (hrun 0)) (h 1)
      | stop calls r hfits hnext => simp [hnext] at hstep
      | go mid' calls piece hfits hnext hrun =>
        obtain rfl : mid' = mid := Option.some.inj (hnext.symm.trans hstep)
        refine h (fuel + 1) ?_
        rw [hrun]
        exact map_eq_undefined_iff.mpr hbad
  · intro h fuel
    induction fuel generalizing st with
    | zero => simp [runFrom, sprintfLoop]
    | succ fuel ih =>
      cases round V render broken_sprintf fmt arg_list arg_size type st with
      | unfit hfits hrun => exact absurd (h st .refl) hfits
      | stop calls r hfits hnext hrun hr =>
        rw [hrun]
        exact hr
      | go next calls piece hfits hnext hrun =>
        rw [hrun]
        intro hbad
        exact ih next (fun t ht => h t (.head hnext ht)) (map_eq_undefined_iff.mp hbad)

end

section
variable {α : Type} (V : Values α)

/-- A run stays in bounds, and its calls take the arguments in order. -/
def InBounds (args : Option (SprintfArgs α)) (r : List (Call α) × Except Fault (List UInt8)) :
    Prop :=
  r.2 ≠ .error .undefined ∧ ∀ k call, r.1[k]? = some call →
    ∃ a, args = some a ∧ call.arg = argAt V a.arg_list a.argSize (a.arg_offset + k)

/-- The index and the offset are reached from the start of the format. -/
def SprintfArgs.Reached (a : SprintfArgs α) (render : Call α → Except Exception (List UInt8))
    (po : Bool) (st : Nat × Nat) : Prop :=
  StateReached V render (a.brokenSprintf po) a.fmt a.arg_list a.argSize a.field (0, a.arg_offset) st

/-- Formatting stays in bounds and takes the arguments in order exactly when every specification
that is reached fits. -/
theorem sprintf_inBounds_iff (v : Bool) (render : Call α → Except Exception (List UInt8))
    (po : Bool) (params : List α) (field offset : Nat) :
    (∀ fuel, InBounds V (formatArgs V v params field offset)
      (qSprintf V v render po params field offset fuel)) ↔
    ∀ a, formatArgs V v params field offset = some a → ∀ st, a.Reached V render po st →
      FitsAt V (a.brokenSprintf po) a.fmt a.arg_list a.argSize st := by
  unfold qSprintf
  cases hargs : formatArgs V v params field offset with
  | none => simp [InBounds]
  | some a =>
    have hiff := runFrom_inBounds_iff V render (a.brokenSprintf po) a.fmt a.arg_list a.argSize
      a.field (0, a.arg_offset)
    constructor
    · rintro h b hb
      obtain rfl := Option.some.inj hb
      exact hiff.mp fun fuel => (h fuel).1
    · intro h fuel
      refine ⟨hiff.mpr (h a rfl) fuel, fun k call hk => ⟨a, rfl, ?_⟩⟩
      exact sprintfLoop_args V render (a.brokenSprintf po) a.fmt a.arg_list a.argSize a.field fuel
        (0, a.arg_offset) k call hk

end

/-- Values that are strings or nothing. -/
def stringValues : Values (Option (List UInt8)) where
  nothing := none
  isNothing := Option.isNone
  isNumber := fun _ => false
  string? := id
  list? := fun _ => none

/-- A width of 8 digits and a precision of 10 digits make a C format of 22 bytes. -/
theorem sprintf_not_inBounds : ¬∀ params fuel,
    InBounds stringValues (formatArgs stringValues false params 0 0)
      (qSprintf stringValues false (fun _ => .ok []) false params 0 0 fuel) := by
  intro h
  have hrun : (qSprintf stringValues false (fun _ => .ok []) false
      [some ("%10000000.1000000000f".toList.map byteOf), none] 0 0 1).2 = .error .undefined := by
    decide
  exact (h _ 1).1 hrun

end Qore.Text
