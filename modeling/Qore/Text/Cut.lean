import Qore.Text.Str

/-!
# `Qore.Text.Cut`: substrings, splicing and extracting

`substr`, `splice` and `extract` exist twice: for encodings with one byte for each character (the
functions `_simple`), and for the others (the functions `_complex`), where positions in characters
are first converted to positions in bytes. `CutOp` is a call of one of them, `CutOp.simple` and
`CutOp.complex` run it.

The first are modelled for cells of any type, so that they run on a sequence of characters too.

* `byteRange_eq_some`: the positions in bytes that the functions `_complex` compute belong together.
* `spliceSimple_of_range`, `spliceSimpleStr_of_range`: with these positions, the functions
  `_complex` do what the functions `_simple` do.
-/

set_option autoImplicit false

namespace Qore.Text

open Qore.Lib Qore.Lib.Cells Qore.Lib.Words

/-- A call that cuts a string. The last argument is the replacement. -/
inductive CutOp (α : Type)
  /-- `substr(offset)` -/
  | substr (offset : Int64)
  /-- `substr(offset, length)` -/
  | substrLen (offset length : Int64)
  /-- `splice(offset)` -/
  | splice (offset : Int64)
  /-- `splice(offset, num)` -/
  | spliceNum (offset num : Int64)
  /-- `splice(offset, num, const QoreString&)` -/
  | spliceStr (offset num : Int64) (str : List α)
  /-- `splice(offset, num, QoreValue)` -/
  | spliceVal (offset num : Int64) (str : List α)
  /-- `extract(offset)` -/
  | extract (offset : Int64)
  /-- `extract(offset, num)` -/
  | extractNum (offset num : Int64)
  /-- `extract(offset, num, QoreValue)` -/
  | extractVal (offset num : Int64) (str : List α)

/-- The call with the replacement in an encoding. -/
def CutOp.encode {γ β : Type} (f : List γ → List β) : CutOp γ → CutOp β
  | .substr o => .substr o
  | .substrLen o l => .substrLen o l
  | .splice o => .splice o
  | .spliceNum o n => .spliceNum o n
  | .spliceStr o n str => .spliceStr o n (f str)
  | .spliceVal o n str => .spliceVal o n (f str)
  | .extract o => .extract o
  | .extractNum o n => .extractNum o n
  | .extractVal o n str => .extractVal o n (f str)

/-! ## Encodings with one byte for each character -/

section
variable {α : Type} (M : Memory α)

/-- The offset of `substr_simple`. -/
def subOffset (len : Nat) (offset : Int) : Nat :=
  if offset < 0 then toSize (len + offset) else offset.toNat

/-- `substr_simple(ns, offset)`, and the new string that `substr` returns; `none` for a null
pointer. -/
def Str.substrSimple (s : Str α) (offset : Int) : Option (Option (Str α)) :=
  let nOffset := subOffset s.len offset
  if s.len ≤ nOffset then some none
  else do
    let ns ← Str.new M
    let ns ← ns.concatMem M (fetch M.junk s.buf nOffset (s.len - nOffset))
    some (some ns)

/-- `substr_simple(ns, offset, length)`. -/
def Str.substrSimpleLen (s : Str α) (offset length : Int) : Option (Option (Str α)) :=
  let nOffset := subOffset s.len offset
  if s.len ≤ nOffset then some none
  else do
    let nLength :=
      if length < 0 then
        let length := ((s.len - nOffset : Nat) : Int) + length
        if length < 0 then 0 else length.toNat
      else if ((s.len - nOffset : Nat) : Int) < length then s.len - nOffset
      else length.toNat
    let ns ← Str.new M
    let ns ← ns.concatMem M (fetch M.junk s.buf nOffset nLength)
    some (some ns)

/-- `splice(offset, num, str)` and `extract(offset, num, str)`, after the conversion of `str`. -/
def Str.cutStr (s : Str α) (offset num : Int) (str : List α) (extract : Option (Str α)) :
    Option (Str α × Option (Str α)) :=
  let (nOffset, nNum) := checkOffsetNum s.len offset num
  if nOffset = s.len then
    if str.length = 0 then some (s, extract) else s.spliceSimpleStr M nOffset 0 str extract
  else s.spliceSimpleStr M nOffset nNum str extract

/-- `splice(offset, num)` and `extract(offset, num)`. -/
def Str.cutNum (s : Str α) (offset num : Int) (extract : Option (Str α)) :
    Option (Str α × Option (Str α)) :=
  let (nOffset, nNum) := checkOffsetNum s.len offset num
  if nOffset = s.len ∨ nNum = 0 then some (s, extract) else s.spliceSimple M nOffset nNum extract

/-- `splice(offset)` and `extract(offset)`. -/
def Str.cutEnd (s : Str α) (offset : Int) (extract : Option (Str α)) :
    Option (Str α × Option (Str α)) :=
  let nOffset := checkOffset s.len offset
  if nOffset = s.len then some (s, extract) else s.spliceSimple M nOffset (s.len - nOffset) extract

/-- The string after a call, and the string that it returns, in an encoding with one byte for each
character. -/
def CutOp.simple (s : Str α) : CutOp α → Option (Str α × Option (Str α))
  | .substr o => (s.substrSimple M o.toInt).map (s, ·)
  | .substrLen o l => (s.substrSimpleLen M o.toInt l.toInt).map (s, ·)
  | .splice o => s.cutEnd M o.toInt none
  | .spliceNum o n => s.cutNum M o.toInt n.toInt none
  | .spliceStr o n str => s.cutStr M o.toInt n.toInt str none
  | .spliceVal o n str =>
    if str.length = 0 then s.cutNum M o.toInt n.toInt none else s.cutStr M o.toInt n.toInt str none
  | .extract o => (Str.new M).bind fun e => s.cutEnd M o.toInt (some e)
  | .extractNum o n => (Str.new M).bind fun e => s.cutNum M o.toInt n.toInt (some e)
  | .extractVal o n str => (Str.new M).bind fun e =>
    if str.length = 0 then s.cutNum M o.toInt n.toInt (some e)
    else s.cutStr M o.toInt n.toInt str (some e)

end

/-! ## Encodings with more bytes -/

section
variable (M : Memory UInt8) (next : List UInt8 → Int)

/-- `substr_complex(ns, offset)`. -/
def Str.substrComplex (s : Str UInt8) (offset : Int) : Option (Option (Str UInt8)) :=
  let (clength, invalid) := countWords next s.text
  if offset < 0 ∧ (invalid ∨ clength + offset < 0 ∨ clength ≤ clength + offset) then some none
  else
    let offset := if offset < 0 then clength + offset else offset
    let (start, invalid) := lettersOf next s.text offset.toNat
    if invalid ∨ start = s.len then some none
    else do
      let ns ← Str.new M
      let ns ← ns.concatMem M (fetch M.junk s.buf start (s.len - start))
      some (some ns)

/-- `substr_complex(ns, offset, length)`; `clength` is an `int`. -/
def Str.substrComplexLen (s : Str UInt8) (offset length : Int) : Option (Option (Str UInt8)) :=
  let (clength, invalid) := countWords next s.text
  let clength := truncInt clength
  if offset < 0 ∧ (invalid ∨ clength + offset < 0 ∨ clength ≤ clength + offset) then some none
  else
    let offset := if offset < 0 then clength + offset else offset
    let (start, invalid) := lettersOf next s.text offset.toNat
    if invalid ∨ start = s.len then some none
    else
      let (rest, invalid) := countWords next (s.text.drop start)
      if length < 0 ∧ invalid then some none
      else
        let length := if length < 0 then (if rest + length < 0 then 0 else rest + length) else length
        let (end_, invalid) := lettersOf next (s.text.drop start) length.toNat
        if invalid then some none
        else do
          let ns ← Str.new M
          let ns ← ns.concatMem M (fetch M.junk s.buf start end_)
          some (some ns)

/-- `splice_complex(offset, xsink, extract)`. -/
def Str.spliceComplex (s : Str UInt8) (offset : Int) (extract : Option (Str UInt8)) :
    Option (Str UInt8 × Option (Str UInt8)) :=
  let (clen, invalid) := countWords next s.text
  if invalid then some (s, extract)
  else if 0 ≤ offset ∧ clen ≤ offset then some (s, extract)
  else
    let offset := if offset < 0 then (if clen + offset < 0 then 0 else clen + offset) else offset
    let (nOffset, invalid) := if offset ≠ 0 then lettersOf next s.text offset.toNat else (0, false)
    if invalid then some (s, extract)
    else do
      -- the text is copied up to the first zero
      let extract ←
        (match extract with
        | some e =>
          if nOffset < s.len then
            (e.concatCStr M ((s.buf.drop nOffset).takeWhile (· ≠ M.zero))).map some
          else some (some e)
        | none => some none)
      let t ← s.endAt M nOffset
      some (t, extract)

/-- The positions in bytes that both other functions compute: `offset`, `end` and `num`; `none` when
an exception is raised. The character positions are not negative and not behind the end. -/
def byteRange (text : List UInt8) (offset num : Nat) : Option (Nat × Nat × Nat) :=
  let (clen, _) := countWords next text
  let end_ := if clen - offset < num then clen else offset + num
  let num := if clen - offset < num then clen - offset else num
  let (offset, invalid) := lettersOf next text offset
  if invalid then none
  else
    let (end_, invalid) := lettersOf next text end_
    if invalid then none
    else
      let (num, invalid) := lettersOf next (text.drop offset) num
      if invalid then none else some (offset, end_, num)

/-- `splice_complex(offset, num, xsink, extract)`. -/
def Str.spliceComplexNum (s : Str UInt8) (offset num : Int) (extract : Option (Str UInt8)) :
    Option (Str UInt8 × Option (Str UInt8)) :=
  let (clen, invalid) := countWords next s.text
  if invalid then some (s, extract)
  else if 0 ≤ offset ∧ clen ≤ offset then some (s, extract)
  else
    let offset := if offset < 0 then (if clen + offset < 0 then 0 else clen + offset) else offset
    let num := if num < 0 then (if clen + num - offset < 0 then 0 else clen + num - offset) else num
    match byteRange next s.text offset.toNat num.toNat with
    | none => some (s, extract)
    | some (offset, end_, num) => do
      let extract ← s.extractTo M extract offset num
      let t ← (if end_ ≠ s.len then s.memmove M offset end_ (sizeSub s.len end_) else some s)
      let t ← t.endAt M (sizeSub t.len num)
      some (t, extract)

/-- `splice_complex(offset, num, str, xsink, extract)`. -/
def Str.spliceComplexStr (s : Str UInt8) (offset num : Int) (str : List UInt8)
    (extract : Option (Str UInt8)) : Option (Str UInt8 × Option (Str UInt8)) :=
  let (clen, invalid) := countWords next s.text
  if invalid then some (s, extract)
  else
    let offset :=
      if clen ≤ offset then (clen : Int)
      else if offset < 0 then (if clen + offset < 0 then 0 else clen + offset) else offset
    let num := if num < 0 then (if clen + num - offset < 0 then 0 else clen + num - offset) else num
    match byteRange next s.text offset.toNat num.toNat with
    | none => some (s, extract)
    | some (offset, end_, num) => do
      let extract ← s.extractTo M extract offset num
      let t ←
        (if num < str.length then
          let t := s.checkChar M (sizeSub s.len num + str.length)
          if end_ ≠ s.len then
            t.memmove M (sizeSub end_ num + str.length) end_ (sizeSub s.len end_)
          else some t
        else if str.length < num then
          s.memmove M (offset + str.length) (offset + num)
            (sizeSub (sizeSub s.len offset) str.length)
        else some s)
      let t ← t.put offset str
      let t ← t.endAt M (sizeSub t.len num + str.length)
      some (t, extract)

/-- The string after a call, and the string that it returns, in an encoding with more bytes. -/
def CutOp.complex (s : Str UInt8) : CutOp UInt8 → Option (Str UInt8 × Option (Str UInt8))
  | .substr o => (s.substrComplex M next o.toInt).map (s, ·)
  | .substrLen o l => (s.substrComplexLen M next o.toInt l.toInt).map (s, ·)
  | .splice o => s.spliceComplex M next o.toInt none
  | .spliceNum o n => s.spliceComplexNum M next o.toInt n.toInt none
  | .spliceStr o n str => s.spliceComplexStr M next o.toInt n.toInt str none
  | .spliceVal o n str =>
    if str.length = 0 then s.spliceComplexNum M next o.toInt n.toInt none
    else s.spliceComplexStr M next o.toInt n.toInt str none
  | .extract o => (Str.new M).bind fun e => s.spliceComplex M next o.toInt (some e)
  | .extractNum o n => (Str.new M).bind fun e => s.spliceComplexNum M next o.toInt n.toInt (some e)
  | .extractVal o n str => (Str.new M).bind fun e =>
    if str.length = 0 then s.spliceComplexNum M next o.toInt n.toInt (some e)
    else s.spliceComplexStr M next o.toInt n.toInt str (some e)

/-! ## From characters to bytes -/

section
variable {M next}

/-- The positions in bytes belong together, and are positions of the text. -/
theorem byteRange_eq_some (hnext : ∀ p, p ≠ [] → next p ≤ p.length) {text : List UInt8}
    {offset num bOffset bEnd bNum : Nat} (hoff : offset ≤ (countWords next text).1)
    (h : byteRange next text offset num = some (bOffset, bEnd, bNum)) :
    bEnd = bOffset + bNum ∧ bOffset + bNum ≤ text.length ∧
      bOffset = (lettersOf next text offset).1 ∧
      bNum = (lettersOf next (text.drop bOffset)
        (min num ((countWords next text).1 - offset))).1 := by
  unfold byteRange at h
  dsimp only at h
  generalize (countWords next text).1 = clen at h hoff ⊢
  -- both ends are counted with the same number of characters
  have hmin : (if clen - offset < num then clen - offset else num) = min num (clen - offset) := by
    split <;> omega
  have hend : (if clen - offset < num then clen else offset + num) =
      offset + min num (clen - offset) := by
    split <;> omega
  rw [hmin, hend] at h
  by_cases hinv : (lettersOf next text offset).2 = true
  · rw [if_pos hinv] at h
    cases h
  · have hadd := @lettersOf_add _ next text offset (min num (clen - offset))
      (by simpa using hinv)
    have hle := lettersOf_le hnext (text.drop (lettersOf next text offset).1)
      (min num (clen - offset))
    have hle' := lettersOf_le hnext text offset
    rw [List.length_drop] at hle
    rw [if_neg hinv, hadd] at h
    split at h
    · cases h
    · simp only [Option.some.injEq, Prod.mk.injEq] at h
      obtain ⟨rfl, rfl, rfl⟩ := h
      exact ⟨rfl, by omega, rfl, rfl⟩

/-- Behind the conversion, the functions for more bytes do what the others do. -/
theorem spliceSimple_of_range (s : Str UInt8) (offset num : Nat) (extract : Option (Str UInt8))
    (h : offset + num ≤ s.len) :
    (do
      let extract ← s.extractTo M extract offset num
      let t ← (if offset + num ≠ s.len then
        s.memmove M offset (offset + num) (sizeSub s.len (offset + num)) else some s)
      let t ← t.endAt M (sizeSub t.len num)
      some (t, extract)) = s.spliceSimple M offset num extract := by
  have hrest : ¬ sizeSub s.len offset < num := by
    rw [sizeSub_of_le (by omega)]
    omega
  unfold Str.spliceSimple
  simp only [if_neg hrest]

theorem spliceSimpleStr_of_range (s : Str UInt8) (offset num : Nat) (str : List UInt8)
    (extract : Option (Str UInt8)) (h : offset + num ≤ s.len) :
    (do
      let extract ← s.extractTo M extract offset num
      let t ←
        (if num < str.length then
          let t := s.checkChar M (sizeSub s.len num + str.length)
          if offset + num ≠ s.len then
            t.memmove M (sizeSub (offset + num) num + str.length) (offset + num)
              (sizeSub s.len (offset + num))
          else some t
        else if str.length < num then
          s.memmove M (offset + str.length) (offset + num)
            (sizeSub (sizeSub s.len offset) str.length)
        else some s)
      let t ← t.put offset str
      let t ← t.endAt M (sizeSub t.len num + str.length)
      some (t, extract)) = s.spliceSimpleStr M offset num str extract := by
  have hrest : ¬ sizeSub s.len offset < num := by
    rw [sizeSub_of_le (by omega)]
    omega
  have hnew : sizeSub s.len num + str.length = s.len + str.length - num := by
    rw [sizeSub_of_le (by omega)]
    omega
  have hdst : sizeSub (offset + num) num + str.length = offset + str.length := by
    rw [sizeSub_of_le (by omega)]
    omega
  unfold Str.spliceSimpleStr
  simp only [if_neg hrest, hdst, hnew]

end

end

end Qore.Text
