import Mathlib
import Qore.Lib.Cells
import Qore.Lib.CInt
import Qore.Lib.Words

/-!
# `Qore.Text.Str`: the buffer of a string

`qore_string_private` keeps a string in a buffer of `allocated` cells, of which the first `len` are
the text; a zero follows the text. Each operation computes the room that it needs, calls
`check_char` and then writes with `memcpy`, `memmove` or `memset`. A write outside the buffer gives
`none` here.

The cells are bytes. The functions for encodings with one byte for each character are written for
any type of cells, so that they can also be run on a sequence of characters. A `size_t` is a `Nat`:
allocation succeeds, and so no size comes near `2^64`; only differences can wrap (`sizeSub`).

`Fills s xs` says that the text before `len` is `xs`, and `Holds s xs` that a zero follows it as
well. The lemmas of this module start from one of them and end with `Holds`:

* `concatWith_holds`: appending, where the room that is asked for is enough.
* `concatCStr_holds`: appending one character after the other.
* `replaceText_holds`: what is common to `insert`, `prepend` and `splice`: the cells behind the
  place are moved, and the new ones are written.
-/

set_option autoImplicit false

namespace Qore.Text

open Qore.Lib Qore.Lib.Cells

/-- What ends a string, and what memory holds that was not written. -/
structure Memory (α : Type) where
  zero : α
  junk : Nat → α

/-- A `qore_string_private`. The buffer is the list of its `allocated` cells. `moved` is not in the
program: it is the end of the cells that the calls of `memmove` have read. -/
structure Str (α : Type) where
  buf : List α
  len : Nat
  moved : Nat

/-- The difference of two `size_t`. -/
def sizeSub (a b : Nat) : Nat := if b ≤ a then a - b else 2 ^ 64 + a - b

theorem sizeSub_of_le {a b : Nat} (h : b ≤ a) : sizeSub a b = a - b := if_pos h

/-- The conversion of a signed value to `size_t`. -/
def toSize (x : Int) : Nat := if 0 ≤ x then x.toNat else (2 ^ 64 + x).toNat

theorem toSize_of_nonneg {x : Int} (h : 0 ≤ x) : toSize x = x.toNat := if_pos h

/-- `check_offset(offset)`. -/
def checkOffset (len : Nat) (offset : Int) : Nat :=
  if offset < 0 then (if len + offset < 0 then 0 else (len + offset).toNat)
  else if (len : Int) < offset then len else offset.toNat

/-- `check_offset(offset, num, n_offset, n_num)`. -/
def checkOffsetNum (len : Nat) (offset num : Int) : Nat × Nat :=
  let nOffset := checkOffset len offset
  if num < 0 then
    let num := len + num - nOffset
    (nOffset, if num < 0 then 0 else num.toNat)
  else (nOffset, num.toNat)

theorem checkOffset_le (len : Nat) (offset : Int) : checkOffset len offset ≤ len := by
  unfold checkOffset
  split
  · split <;> omega
  · split <;> omega

theorem checkOffsetNum_fst (len : Nat) (offset num : Int) :
    (checkOffsetNum len offset num).1 = checkOffset len offset := by
  unfold checkOffsetNum
  split <;> rfl

/-- `STR_CLASS_BLOCK`. -/
def strClassBlock : Nat := 64

/-- `STR_CLASS_EXTRA`. -/
def strClassExtra : Nat := 48

/-- A size filled up to complete cache lines. -/
def cacheLines (n : Nat) : Nat := (n / 16 + 1) * 16

theorem lt_cacheLines (n : Nat) : n < cacheLines n := by
  unfold cacheLines
  omega

section
variable {α : Type} (M : Memory α)

/-- `allocated`. -/
def Str.allocated (s : Str α) : Nat := s.buf.length

/-- The text: the cells before `len`. -/
def Str.text (s : Str α) : List α := s.buf.take s.len

/-- `realloc` of the buffer. -/
def Str.realloc (s : Str α) (n : Nat) : Str α := { s with buf := resize M.junk s.buf n }

/-- `malloc` of a new buffer, for a string without text. -/
def Str.malloc (n : Nat) : Str α := ⟨resize M.junk [] n, 0, 0⟩

/-- The size that `check_char` asks for. -/
def grownSize (i : Nat) : Nat :=
  let d := i >>> 2
  cacheLines (i + if d < strClassBlock then strClassBlock else d)

/-- `check_char`. -/
def Str.checkChar (s : Str α) (i : Nat) : Str α :=
  if s.allocated ≤ i then s.realloc M (grownSize i) else s

/-- `memcpy` to, or assignments of, the cells from index `i` on. -/
def Str.put (s : Str α) (i : Nat) (xs : List α) : Option (Str α) :=
  (blit s.buf i xs).map fun b => { s with buf := b }

/-- `memmove` inside the buffer. -/
def Str.memmove (s : Str α) (dst src n : Nat) : Option (Str α) :=
  (blit s.buf dst (fetch M.junk s.buf src n)).map fun b =>
    { s with buf := b, moved := if n = 0 then s.moved else max s.moved (src + n) }

/-- `len = n`. -/
def Str.setLen (s : Str α) (n : Nat) : Str α := { s with len := n }

/-- `len = n; buf[len] = '\0'`. -/
def Str.endAt (s : Str α) (n : Nat) : Option (Str α) := (s.setLen n).put n [M.zero]

/-! ## Appending -/

/-- What the functions that append have in common: room is made for index `need`, and then the
cells and the zero are written. -/
def Str.concatWith (s : Str α) (need : Nat) (ys : List α) : Option (Str α) := do
  let s ← (s.checkChar M need).put s.len ys
  s.endAt M (s.len + ys.length)

/-- `concat(const char*, size_t)`, and also `concat(const std::string&)` and `concat_intern`. -/
def Str.concatMem (s : Str α) (ys : List α) : Option (Str α) := s.concatWith M (s.len + ys.length) ys

/-- `concat(const qore_string_private*)`, and also `concat(const QoreString*, ExceptionSink*)` after
the conversion. -/
def Str.concatStr (s : Str α) (str : List α) : Option (Str α) :=
  if str.length = 0 then some s else s.concatWith M (str.length + s.len + strClassExtra) str

/-- `concat(char)`. -/
def Str.concatChar (s : Str α) (c : α) : Option (Str α) :=
  if s.allocated ≠ 0 then do
    let s ← s.put s.len [c]
    let s := (s.setLen (s.len + 1)).checkChar M (s.len + 1)
    s.put s.len [M.zero]
  else do
    let s := (s.realloc M strClassBlock).setLen 1
    let s ← s.put 0 [c]
    s.put 1 [M.zero]

/-- The loop of `concat(const char*)`. -/
def Str.concatLoop (s : Str α) : List α → Option (Str α)
  | [] => some s
  | c :: str => do
    let s ← (s.checkChar M s.len).put s.len [c]
    Str.concatLoop (s.setLen (s.len + 1)) str

/-- `concat(const char*)`, with the characters before the zero. -/
def Str.concatCStr (s : Str α) (str : List α) : Option (Str α) := do
  let s ← s.concatLoop M str
  (s.checkChar M s.len).put s.len [M.zero]

/-! ## Inserting and cutting, in cells -/

/-- What `insertch` and `insert` have in common. -/
def Str.insertCells (s : Str α) (ys : List α) (pos : Nat) : Option (Str α) := do
  let t := s.checkChar M (s.len + ys.length)
  let t ← (if pos < t.len then t.memmove M (pos + ys.length) pos (t.len - pos) else some t)
  let t ← t.put pos ys
  t.endAt M (t.len + ys.length)

/-- `insertch`; for the result -1 nothing changes. -/
def Str.insertch (s : Str α) (c : α) (pos times : Nat) : Option (Str α) :=
  if s.len < pos ∨ times = 0 then some s else s.insertCells M (List.replicate times c) pos

/-- `insert`; for the result -1 nothing changes. -/
def Str.insert (s : Str α) (str : List α) (pos : Nat) : Option (Str α) :=
  if s.len < pos then some s else s.insertCells M str pos

/-- `prepend`. -/
def Str.prepend (s : Str α) (str : List α) : Option (Str α) := do
  let t := s.checkChar M (s.len + str.length + 1)
  let t ← t.memmove M str.length 0 (t.len + 1)
  let t ← t.put 0 str
  some (t.setLen (t.len + str.length))

/-- `new QoreString(enc)`. -/
def Str.new : Option (Str α) := (Str.malloc M strClassBlock).put 0 [M.zero]

/-- A string with a text, such as an argument after its conversion. -/
def source (str : List α) : Str α := ⟨str ++ [M.zero], str.length, 0⟩

/-- `extract->concat(buf + offset, num)`, where there is a string to extract to. -/
def Str.extractTo (s : Str α) (extract : Option (Str α)) (offset num : Nat) :
    Option (Option (Str α)) :=
  match extract with
  | some e => if num = 0 then some (some e) else (e.concatMem M (fetch M.junk s.buf offset num)).map some
  | none => some none

/-- `splice_simple(offset, num, extract)`. -/
def Str.spliceSimple (s : Str α) (offset num : Nat) (extract : Option (Str α)) :
    Option (Str α × Option (Str α)) := do
  let rest := sizeSub s.len offset
  let end_ := if rest < num then s.len else offset + num
  let num := if rest < num then rest else num
  let extract ← s.extractTo M extract offset num
  let t ← (if end_ ≠ s.len then s.memmove M offset end_ (sizeSub s.len end_) else some s)
  let t ← t.endAt M (sizeSub t.len num)
  some (t, extract)

/-- `splice_simple(offset, num, str, str_len, extract)`. -/
def Str.spliceSimpleStr (s : Str α) (offset num : Nat) (str : List α) (extract : Option (Str α)) :
    Option (Str α × Option (Str α)) := do
  let rest := sizeSub s.len offset
  let end_ := if rest < num then s.len else offset + num
  let num := if rest < num then rest else num
  let extract ← s.extractTo M extract offset num
  let t ←
    (if num < str.length then
      let t := s.checkChar M (s.len + str.length - num)
      if end_ ≠ s.len then t.memmove M (offset + str.length) (offset + num) (sizeSub s.len end_)
      else some t
    else if str.length < num then
      s.memmove M (offset + str.length) (offset + num) (sizeSub (sizeSub s.len offset) str.length)
    else some s)
  let t ← t.put offset str
  let t ← t.endAt M (sizeSub t.len num + str.length)
  some (t, extract)

/-- `terminate`. -/
def Str.terminate (s : Str α) (size : Nat) : Option (Str α) :=
  (if s.len < size then s.checkChar M size else s).endAt M size

end

/-! ## What the buffer holds -/

section
variable {α : Type} {M : Memory α} {s t : Str α} {xs ys : List α} {a b d : List α}
  {extract : Option (Str α)} {num : Nat}

/-- The cells before `len`. -/
def Fills (s : Str α) (xs : List α) : Prop := ∃ r, s.buf = xs ++ r ∧ s.len = xs.length

/-- The cells before `len`, and the zero at `len`. -/
def Holds (M : Memory α) (s : Str α) (xs : List α) : Prop :=
  ∃ r, s.buf = xs ++ M.zero :: r ∧ s.len = xs.length

theorem Holds.fills (h : Holds M s xs) : Fills s xs := by
  obtain ⟨r, hbuf, hlen⟩ := h
  exact ⟨M.zero :: r, hbuf, hlen⟩

theorem source_holds (M : Memory α) (xs : List α) : Holds M (source M xs) xs := ⟨[], rfl, rfl⟩

theorem Fills.len_eq (h : Fills s xs) : s.len = xs.length := by
  obtain ⟨r, -, hlen⟩ := h
  exact hlen

theorem Holds.len_eq (h : Holds M s xs) : s.len = xs.length := h.fills.len_eq

theorem Fills.text_eq (h : Fills s xs) : s.text = xs := by
  obtain ⟨r, hbuf, hlen⟩ := h
  rw [Str.text, hbuf, hlen, List.take_left]

/-- A string holds one text. -/
theorem Holds.unique (h : Holds M s xs) (h' : Holds M s ys) : xs = ys :=
  h.fills.text_eq.symm.trans h'.fills.text_eq

theorem Holds.lt_allocated (h : Holds M s xs) : s.len < s.allocated := by
  obtain ⟨r, hbuf, hlen⟩ := h
  rw [Str.allocated, hbuf, hlen, List.length_append, List.length_cons]
  omega

/-- The representation invariant of a string with a buffer. -/
theorem holds_iff : (∃ xs, Holds M s xs) ↔ s.len < s.allocated ∧ s.buf[s.len]? = some M.zero := by
  constructor
  · rintro ⟨xs, h⟩
    refine ⟨h.lt_allocated, ?_⟩
    obtain ⟨r, hbuf, hlen⟩ := h
    rw [hbuf, hlen]
    simp
  · rintro ⟨hlt, hzero⟩
    unfold Str.allocated at hlt
    refine ⟨s.buf.take s.len, s.buf.drop (s.len + 1), ?_, by rw [List.length_take]; omega⟩
    have hget : s.buf[s.len] = M.zero := by
      rw [List.getElem?_eq_getElem hlt] at hzero
      exact Option.some.inj hzero
    rw [← hget, ← List.drop_eq_getElem_cons hlt, List.take_append_drop]

/-- The size that is asked for is enough. -/
theorem lt_grownSize (i : Nat) : i < grownSize i := by
  unfold grownSize strClassBlock
  have h := lt_cacheLines (i + if i >>> 2 < 64 then 64 else i >>> 2)
  dsimp only
  omega

theorem Str.lt_allocated_checkChar (s : Str α) (i : Nat) : i < (s.checkChar M i).allocated := by
  unfold Str.checkChar
  split
  · simp only [Str.realloc, Str.allocated, length_resize]
    exact lt_grownSize i
  · omega

/-- `check_char` keeps the cells. -/
theorem Str.checkChar_buf (s : Str α) (i : Nat) : ∃ r, (s.checkChar M i).buf = s.buf ++ r := by
  unfold Str.checkChar
  split
  · rename_i hle
    have hgrown := lt_grownSize i
    obtain ⟨t, ht, -⟩ := @resize_of_le _ M.junk s.buf (grownSize i)
      (by unfold Str.allocated at hle; omega)
    exact ⟨t, ht⟩
  · exact ⟨[], (List.append_nil _).symm⟩

@[simp] theorem Str.checkChar_len (s : Str α) (i : Nat) : (s.checkChar M i).len = s.len := by
  unfold Str.checkChar
  split <;> rfl

@[simp] theorem Str.checkChar_moved (s : Str α) (i : Nat) : (s.checkChar M i).moved = s.moved := by
  unfold Str.checkChar
  split <;> rfl

theorem Fills.checkChar (h : Fills s xs) (i : Nat) : Fills (s.checkChar M i) xs := by
  obtain ⟨r, hbuf, hlen⟩ := h
  obtain ⟨r', hr'⟩ := s.checkChar_buf (M := M) i
  exact ⟨r ++ r', by rw [hr', hbuf, List.append_assoc], by rw [Str.checkChar_len, hlen]⟩

theorem Holds.checkChar (h : Holds M s xs) (i : Nat) : Holds M (s.checkChar M i) xs := by
  obtain ⟨r, hbuf, hlen⟩ := h
  obtain ⟨r', hr'⟩ := s.checkChar_buf (M := M) i
  exact ⟨r ++ r', by rw [hr', hbuf]; simp, by rw [Str.checkChar_len, hlen]⟩

/-! ## Writing -/

/-- An operation succeeds with a string that holds `xs`; the calls of `memmove` so far have read
the cells before `m`. -/
def Yields (M : Memory α) (r : Option (Str α)) (xs : List α) (m : Nat) : Prop :=
  ∃ t, r = some t ∧ Holds M t xs ∧ t.moved = m

theorem put_append (s : Str α) (p q ys : List α) {n : Nat} (hbuf : s.buf = p ++ q)
    (hn : n = p.length) (h : ys.length ≤ q.length) :
    s.put n ys = some { s with buf := p ++ (ys ++ q.drop ys.length) } := by
  rw [Str.put, hbuf, hn, blit_append p q ys h]
  rfl

/-- The zero is written after the text. -/
theorem endAt_yields (s : Str α) (xs r : List α) {n : Nat} (hbuf : s.buf = xs ++ r)
    (hr : 1 ≤ r.length) (hn : n = xs.length) : Yields M (s.endAt M n) xs s.moved := by
  rw [Str.endAt, put_append (s.setLen n) xs r [M.zero] hbuf hn hr]
  exact ⟨_, rfl, ⟨r.drop 1, rfl, hn⟩, rfl⟩

/-- Cells are written after the text, and then the zero. -/
theorem putEnd_yields (s : Str α) (xs ys r : List α) (hbuf : s.buf = xs ++ r)
    (hlen : s.len = xs.length) (hr : ys.length < r.length) :
    Yields M ((s.put s.len ys).bind fun t => t.endAt M (t.len + ys.length)) (xs ++ ys) s.moved := by
  rw [put_append s xs r ys hbuf hlen (by omega), Option.bind_some]
  refine endAt_yields _ (xs ++ ys) (r.drop ys.length) ?_ ?_ ?_
  · exact (List.append_assoc _ _ _).symm
  · rw [List.length_drop]
    omega
  · show s.len + ys.length = (xs ++ ys).length
    rw [List.length_append, hlen]

/-- Appending, where the room is enough. -/
theorem concatWith_holds (h : Fills s xs) {need : Nat}
    (hroom : s.len + ys.length < (s.checkChar M need).allocated) :
    Yields M (s.concatWith M need ys) (xs ++ ys) s.moved := by
  obtain ⟨r, hbuf, hlen⟩ := h.checkChar (M := M) need
  have hr : ys.length < r.length := by
    rw [Str.allocated, hbuf, List.length_append] at hroom
    rw [Str.checkChar_len] at hlen
    omega
  have hput := putEnd_yields (M := M) _ xs ys r hbuf hlen hr
  rw [Str.checkChar_len, Str.checkChar_moved] at hput
  exact hput

theorem concatMem_holds (h : Fills s xs) (ys : List α) :
    Yields M (s.concatMem M ys) (xs ++ ys) s.moved :=
  concatWith_holds h (s.lt_allocated_checkChar _)

theorem concatStr_holds (h : Holds M s xs) (ys : List α) :
    Yields M (s.concatStr M ys) (xs ++ ys) s.moved := by
  unfold Str.concatStr
  split
  · rename_i hnil
    rw [List.length_eq_zero_iff.mp hnil, List.append_nil]
    exact ⟨s, rfl, h, rfl⟩
  · refine concatWith_holds h.fills ?_
    have hroom := s.lt_allocated_checkChar (M := M) (ys.length + s.len + strClassExtra)
    omega

/-- `concat(char)` needs one free cell; the zero need not be there. -/
theorem concatChar_fills (h : Fills s xs) (hroom : s.len < s.allocated) (c : α) :
    Yields M (s.concatChar M c) (xs ++ [c]) s.moved := by
  have hne : s.allocated ≠ 0 := by omega
  obtain ⟨r, hbuf, hlen⟩ := h
  have hr : 1 ≤ r.length := by
    rw [Str.allocated, hbuf, List.length_append] at hroom
    omega
  rw [Str.concatChar, if_pos hne, put_append s xs r [c] hbuf hlen hr]
  -- the text has its new length, and room for the zero is made only now
  have hfills : Fills (Str.setLen { s with buf := xs ++ ([c] ++ r.drop 1) } (s.len + 1))
      (xs ++ [c]) := by
    refine ⟨r.drop 1, ?_, ?_⟩
    · show xs ++ ([c] ++ r.drop 1) = xs ++ [c] ++ r.drop 1
      simp
    · show s.len + 1 = (xs ++ [c]).length
      simp [hlen]
  obtain ⟨r', hbuf', hlen'⟩ := hfills.checkChar (M := M) (s.len + 1)
  have hgrown := Str.lt_allocated_checkChar (M := M)
    (Str.setLen { s with buf := xs ++ ([c] ++ r.drop 1) } (s.len + 1)) (s.len + 1)
  rw [Str.allocated, hbuf', List.length_append, ← hlen', Str.checkChar_len] at hgrown
  have hr' : 1 ≤ r'.length := by
    have : (Str.setLen { s with buf := xs ++ ([c] ++ r.drop 1) } (s.len + 1)).len = s.len + 1 := rfl
    omega
  have hend := put_append _ _ r' [M.zero] hbuf' hlen' hr'
  refine ⟨_, hend, ⟨r'.drop 1, rfl, hlen'⟩, ?_⟩
  exact Str.checkChar_moved _ _

theorem concatChar_holds (h : Holds M s xs) (c : α) :
    Yields M (s.concatChar M c) (xs ++ [c]) s.moved := concatChar_fills h.fills h.lt_allocated c

/-- The loop of `concat(const char*)` fills the cells, and makes room for each. -/
theorem concatLoop_fills (str : List α) : ∀ {s : Str α} {xs : List α}, Fills s xs →
    ∃ t, s.concatLoop M str = some t ∧ Fills t (xs ++ str) ∧ t.moved = s.moved := by
  induction str with
  | nil =>
    intro s xs h
    exact ⟨s, rfl, by rwa [List.append_nil], rfl⟩
  | cons c str ih =>
    intro s xs h
    obtain ⟨r, hbuf, hlen⟩ := h.checkChar (M := M) s.len
    have hroom := s.lt_allocated_checkChar (M := M) s.len
    rw [Str.allocated, hbuf, List.length_append] at hroom
    rw [Str.checkChar_len] at hlen
    have hput := put_append _ xs r [c] hbuf hlen (by rw [List.length_singleton]; omega)
    rw [Str.concatLoop, hput]
    obtain ⟨t, ht, hfills, hmoved⟩ := @ih
      (Str.setLen { s.checkChar M s.len with buf := xs ++ ([c] ++ r.drop 1) } (s.len + 1))
      (xs ++ [c]) ⟨r.drop 1, (List.append_assoc _ _ _).symm, by
        show s.len + 1 = (xs ++ [c]).length
        simp [hlen]⟩
    refine ⟨t, ?_, ?_, ?_⟩
    · simpa using ht
    · simpa using hfills
    · rw [hmoved]
      exact Str.checkChar_moved _ _

theorem concatCStr_holds (h : Fills s xs) (str : List α) :
    Yields M (s.concatCStr M str) (xs ++ str) s.moved := by
  obtain ⟨t, ht, hfills, hmoved⟩ := concatLoop_fills (M := M) str h
  obtain ⟨r, hbuf, hlen⟩ := hfills.checkChar (M := M) t.len
  have hroom := t.lt_allocated_checkChar (M := M) t.len
  rw [Str.allocated, hbuf, List.length_append] at hroom
  rw [Str.checkChar_len] at hlen
  have hend := put_append _ _ r [M.zero] hbuf hlen (by rw [List.length_singleton]; omega)
  rw [Str.concatCStr, ht]
  refine ⟨_, hend, ⟨r.drop 1, rfl, ?_⟩, ?_⟩
  · exact (Str.checkChar_len _ _).trans hlen
  · exact (Str.checkChar_moved _ _).trans hmoved

/-! ## Moving -/

/-- The cells `d` after `a` are to be replaced by `n` others: `memmove` brings what follows them,
`b`, to its new place, perhaps with more cells behind it. -/
theorem memmove_gap (t : Str α) (a d b q : List α) (n k : Nat)
    (hbuf : t.buf = a ++ (d ++ (b ++ q))) (hk : b.length ≤ k)
    (hroom : n + k ≤ d.length + b.length + q.length) :
    ∃ t' m q', t.memmove M (a.length + n) (a.length + d.length) k = some t' ∧
      t'.buf = a ++ (m ++ (b ++ q')) ∧ m.length = n ∧ t'.buf.length = t.buf.length ∧
      t'.len = t.len ∧
      t'.moved = if k = 0 then t.moved else max t.moved (a.length + d.length + k) := by
  obtain ⟨u, hu, hulen⟩ := @fetch_append _ M.junk (a ++ d) b q k hk
  rw [List.append_assoc, List.length_append, ← hbuf] at hu
  have hblit := blit_gap a (d ++ (b ++ q)) (b ++ u) n (by simp only [List.length_append]; omega)
  rw [← hbuf] at hblit
  have hmove : t.memmove M (a.length + n) (a.length + d.length) k =
      some ⟨a ++ ((d ++ (b ++ q)).take n ++ ((b ++ u) ++ (d ++ (b ++ q)).drop (n + (b ++ u).length))),
        t.len, if k = 0 then t.moved else max t.moved (a.length + d.length + k)⟩ := by
    rw [Str.memmove, hu, hblit]
    rfl
  refine ⟨_, (d ++ (b ++ q)).take n, u ++ (d ++ (b ++ q)).drop (n + (b ++ u).length), hmove,
    ?_, ?_, length_of_blit hblit, rfl, rfl⟩
  · show a ++ _ = a ++ _
    simp only [List.append_assoc]
  · rw [List.length_take]
    simp only [List.length_append]
    omega

/-- The cells `m` after `a` are written over, and the zero is put behind `b`. -/
theorem putGap_yields (t : Str α) (a m b q ys : List α) {i : Nat} (n : Nat → Nat)
    (hbuf : t.buf = a ++ (m ++ (b ++ q))) (hi : i = a.length) (hm : m.length = ys.length)
    (hq : 1 ≤ q.length) (hn : n t.len = a.length + ys.length + b.length) :
    Yields M ((t.put i ys).bind fun t => t.endAt M (n t.len)) (a ++ (ys ++ b)) t.moved := by
  have hput := put_append t a (m ++ (b ++ q)) ys hbuf hi (by simp [hm])
  rw [hput, Option.bind_some]
  refine endAt_yields _ (a ++ (ys ++ b)) q ?_ hq ?_
  · show a ++ (ys ++ (m ++ (b ++ q)).drop ys.length) = a ++ (ys ++ b) ++ q
    rw [← hm, List.drop_left]
    simp
  · show n t.len = _
    simp only [List.length_append]
    omega

/-- The room behind the text, when there is enough for index `n`. -/
theorem Holds.checkChar_append (h : Holds M s xs) (n : Nat) :
    ∃ r, (s.checkChar M n).buf = xs ++ (M.zero :: r) ∧ n ≤ xs.length + r.length := by
  obtain ⟨r, hbuf, hlen⟩ := h.checkChar n
  refine ⟨r, hbuf, ?_⟩
  have hroom := s.lt_allocated_checkChar (M := M) n
  rw [Str.allocated, hbuf, List.length_append, List.length_cons] at hroom
  omega

theorem insertCells_holds (h : Holds M s (a ++ b)) (ys : List α) :
    ∃ m, Yields M (s.insertCells M ys a.length) (a ++ (ys ++ b)) m := by
  have hlen : s.len = a.length + b.length := by
    obtain ⟨r, -, hlen⟩ := h
    rw [hlen, List.length_append]
  obtain ⟨r, hbuf, hroom⟩ := h.checkChar_append (s.len + ys.length)
  rw [List.length_append] at hroom
  unfold Str.insertCells
  dsimp only
  by_cases hb : b = []
  · -- nothing is moved
    subst hb
    have hlen' : s.len = a.length := by simpa using hlen
    rw [Str.checkChar_len, if_neg (by omega), Option.bind_eq_bind, Option.bind_some]
    refine ⟨_, putGap_yields _ a ((M.zero :: r).take ys.length) [] ((M.zero :: r).drop ys.length) ys
      (fun l => l + ys.length) ?_ rfl ?_ ?_ ?_⟩
    · rw [hbuf]
      simp
    · rw [List.length_take, List.length_cons]
      omega
    · rw [List.length_drop, List.length_cons]
      omega
    · rw [Str.checkChar_len]
      simp [hlen']
  · have hpos : 0 < b.length := List.length_pos_of_ne_nil hb
    rw [Str.checkChar_len, if_pos (by omega)]
    obtain ⟨t, m, q, hmove, htbuf, hm, htlen, htl, -⟩ := memmove_gap (M := M)
      (s.checkChar M (s.len + ys.length)) a [] b (M.zero :: r) ys.length (s.len - a.length)
      (by simpa using hbuf) (by omega) (by simp only [List.length_nil, List.length_cons]; omega)
    rw [List.length_nil, Nat.add_zero] at hmove
    rw [hmove, Option.bind_eq_bind, Option.bind_some]
    refine ⟨_, putGap_yields t a m b q ys (fun l => l + ys.length) htbuf rfl hm ?_ ?_⟩
    · rw [htbuf, hbuf] at htlen
      simp only [List.length_append, List.length_cons] at htlen
      omega
    · rw [htl, Str.checkChar_len]
      omega

theorem prepend_holds (h : Holds M s xs) (str : List α) :
    ∃ m, Yields M (s.prepend M str) (str ++ xs) m := by
  have hlen : s.len = xs.length := by
    obtain ⟨r, -, hlen⟩ := h
    exact hlen
  obtain ⟨r, hbuf, hroom⟩ := h.checkChar_append (s.len + str.length + 1)
  -- the zero is moved with the text
  obtain ⟨t, m, q, hmove, htbuf, hm, -, htl, -⟩ := memmove_gap (M := M)
    (s.checkChar M (s.len + str.length + 1)) [] [] (xs ++ [M.zero]) r str.length (s.len + 1)
    (by simpa using hbuf) (by simp [hlen])
    (by simp only [List.length_nil, List.length_append, List.length_singleton]; omega)
  rw [List.length_nil, Nat.zero_add, Nat.add_zero] at hmove
  rw [Str.prepend, Str.checkChar_len, hmove]
  have hput : t.put 0 str = _ :=
    put_append t [] (m ++ (xs ++ [M.zero] ++ q)) str htbuf rfl (by simp [hm])
  rw [Option.bind_eq_bind, Option.bind_some, hput]
  refine ⟨_, _, rfl, ⟨q, ?_, ?_⟩, rfl⟩
  · show [] ++ (str ++ (m ++ (xs ++ [M.zero] ++ q)).drop str.length) = str ++ xs ++ M.zero :: q
    rw [← hm, List.drop_left]
    simp
  · show t.len + str.length = (str ++ xs).length
    rw [htl, Str.checkChar_len, hlen, List.length_append]
    omega

/-! ## Cutting -/

/-- `new QoreString(enc)` is empty. -/
theorem new_yields : Yields M (Str.new M) [] 0 := by
  exact ⟨_, rfl, ⟨_, rfl, rfl⟩, rfl⟩

/-- The string that is extracted to, if there is one, holds `d`. -/
def Extracted (M : Memory α) (extract : Option (Str α)) (d : List α) : Prop :=
  ∀ e, extract = some e → Holds M e d

/-- The removed cells are appended to the empty string that was given. -/
theorem extractTo_spec (h : Holds M s (a ++ (d ++ b))) (he : Extracted M extract []) :
    ∃ e, s.extractTo M extract a.length d.length = some e ∧ e.isSome = extract.isSome ∧
      Extracted M e d := by
  obtain ⟨r, hbuf, -⟩ := h
  cases extract with
  | none => exact ⟨none, rfl, rfl, by simp [Extracted]⟩
  | some e =>
    have hread : fetch M.junk s.buf a.length d.length = d := by
      rw [hbuf, fetch_of_le _ _ _ (by simp), List.append_assoc, List.drop_left, List.append_assoc,
        List.take_left]
    unfold Str.extractTo
    dsimp only
    by_cases hd : d.length = 0
    · refine ⟨some e, by rw [if_pos hd], rfl, ?_⟩
      rw [List.length_eq_zero_iff.mp hd]
      exact he
    · obtain ⟨e', he', hholds, -⟩ := concatMem_holds (M := M) (he e rfl).fills d
      refine ⟨some e', by rw [if_neg hd, hread, he']; rfl, rfl, ?_⟩
      intro x hx
      rw [← Option.some.inj hx]
      exact hholds

/-- A text taken apart at an offset and a number of cells. -/
theorem split_three (xs : List α) (offset num : Nat) :
    xs.take offset ++ ((xs.drop offset).take num ++ xs.drop (offset + num)) = xs := by
  rw [← List.drop_drop, List.take_append_drop, List.take_append_drop]

/-- `num` cells are to be cut, or what is left of the text. -/
def Cuts (d b : List α) (num : Nat) : Prop := d.length = num ∨ (d.length ≤ num ∧ b = [])

theorem cuts_take_drop (xs : List α) (offset num : Nat) :
    Cuts ((xs.drop offset).take num) (xs.drop (offset + num)) num := by
  by_cases h : num ≤ xs.length - offset
  · left
    rw [List.length_take, List.length_drop]
    omega
  · right
    refine ⟨List.length_take_le _ _, List.drop_eq_nil_of_le (by omega)⟩

/-- The lengths that both functions compute first. -/
theorem Cuts.lengths (h : Cuts d b num) (a : List α) : let len := a.length + (d.length + b.length)
    let rest := sizeSub len a.length
    (if rest < num then rest else num) = d.length ∧
      (if rest < num then len else a.length + num) = a.length + d.length := by
  dsimp only
  rw [sizeSub_of_le (by omega)]
  rcases h with h | ⟨h, rfl⟩
  · rw [if_neg (by omega), if_neg (by omega)]
    omega
  · rw [List.length_nil]
    split <;> omega

/-- What a cut leaves: the text, the extracted cells, and how far `memmove` has read. -/
def Cut (M : Memory α) (r : Option (Str α × Option (Str α))) (extract : Option (Str α))
    (xs d : List α) (moved : Nat → Prop) : Prop :=
  ∃ t e, r = some (t, e) ∧ Holds M t xs ∧ e.isSome = extract.isSome ∧ Extracted M e d ∧
    moved t.moved

theorem spliceSimple_cut (h : Holds M s (a ++ (d ++ b))) (hnum : Cuts d b num)
    (he : Extracted M extract []) :
    Cut M (s.spliceSimple M a.length num extract) extract (a ++ b) d
      (fun m => m ≤ max s.moved s.len) := by
  obtain ⟨e, he', hsome, hext⟩ := extractTo_spec h he
  obtain ⟨r, hbuf, hlen⟩ := h
  simp only [List.length_append] at hlen
  obtain ⟨hn, hend⟩ := hnum.lengths a
  have hbuf' : s.buf = a ++ (d ++ (b ++ M.zero :: r)) := by rw [hbuf]; simp
  have hfinal : sizeSub s.len d.length = a.length + b.length := by
    rw [sizeSub_of_le (by omega)]
    omega
  unfold Str.spliceSimple
  rw [← hlen] at hn hend
  simp only [hn, hend, he', Option.bind_eq_bind, Option.bind_some]
  by_cases hb : b = []
  · -- the end of the text is cut off
    subst hb
    rw [if_neg (by simp [hlen]), Option.bind_some]
    obtain ⟨t, ht, hholds, hmoved⟩ := endAt_yields (M := M) s a (d ++ M.zero :: r)
      (n := sizeSub s.len d.length) (by simpa using hbuf')
      (by simp only [List.length_append, List.length_cons]; omega) (by simpa using hfinal)
    rw [ht, Option.bind_some]
    exact ⟨t, e, rfl, by simpa using hholds, hsome, hext, by omega⟩
  · have hpos : 0 < b.length := List.length_pos_of_ne_nil hb
    rw [if_pos (by omega), sizeSub_of_le (by omega)]
    obtain ⟨t, m, q, hmove, htbuf, hm, htlen, htl, htm⟩ := memmove_gap (M := M) s a d b (M.zero :: r)
      0 (s.len - (a.length + d.length)) hbuf' (by omega) (by simp only [List.length_cons]; omega)
    rw [Nat.add_zero] at hmove
    rw [hmove, Option.bind_some, htl]
    have hmnil : m = [] := List.length_eq_zero_iff.mp hm
    obtain ⟨t', ht', hholds, hmoved⟩ := endAt_yields (M := M) t (a ++ b) q
      (n := sizeSub s.len d.length) (by simpa [hmnil] using htbuf)
      (by
        rw [htbuf, hbuf', hmnil] at htlen
        simp only [List.length_append, List.length_cons, List.length_nil] at htlen
        omega)
      (by rw [hfinal, List.length_append])
    rw [ht', Option.bind_some]
    refine ⟨t', e, rfl, hholds, hsome, hext, ?_⟩
    rw [hmoved, htm]
    split <;> omega

/-- With a replacement that is shorter than what it replaces, `memmove` reads behind the text. -/
theorem spliceSimpleStr_cut (h : Holds M s (a ++ (d ++ b))) (hnum : Cuts d b num) (str : List α)
    (he : Extracted M extract []) :
    Cut M (s.spliceSimpleStr M a.length num str extract) extract (a ++ (str ++ b)) d
      (fun m => if str.length < d.length then m = max s.moved (s.len + (d.length - str.length))
        else m ≤ max s.moved s.len) := by
  obtain ⟨e, he', hsome, hext⟩ := extractTo_spec h he
  have hgrow := h.checkChar_append (s.len + str.length - d.length)
  obtain ⟨r, hbuf, hlen⟩ := h
  simp only [List.length_append] at hlen
  obtain ⟨hn, hend⟩ := hnum.lengths a
  have hbuf' : s.buf = a ++ (d ++ (b ++ M.zero :: r)) := by rw [hbuf]; simp
  have hfinal : sizeSub s.len d.length + str.length = a.length + str.length + b.length := by
    rw [sizeSub_of_le (by omega)]
    omega
  unfold Str.spliceSimpleStr
  rw [← hlen] at hn hend
  simp only [hn, hend, he', Option.bind_eq_bind, Option.bind_some]
  -- in each case the cells after `a` have the right number when the replacement is written
  have hwrite : ∀ (t : Str α) (m q : List α), t.buf = a ++ (m ++ (b ++ q)) → m.length = str.length →
      1 ≤ q.length → t.len = s.len → (if str.length < d.length then
        t.moved = max s.moved (s.len + (d.length - str.length)) else t.moved ≤ max s.moved s.len) →
      Cut M ((t.put a.length str).bind fun t => (t.endAt M (sizeSub t.len d.length + str.length)).bind
        fun t => some (t, e)) extract (a ++ (str ++ b)) d
        (fun m => if str.length < d.length then m = max s.moved (s.len + (d.length - str.length))
          else m ≤ max s.moved s.len) := by
    intro t m q htbuf hm hq htl hmoved
    obtain ⟨t', ht', hholds, hmoved'⟩ := putGap_yields (M := M) t a m b q str
      (fun l => sizeSub l d.length + str.length) htbuf rfl hm hq (by rw [htl, hfinal])
    rw [← Option.bind_assoc, ht', Option.bind_some]
    exact ⟨t', e, rfl, hholds, hsome, hext, by rwa [hmoved']⟩
  by_cases hlt : d.length < str.length
  · rw [if_pos hlt]
    obtain ⟨r', hbuf2, hroom⟩ := hgrow
    simp only [List.length_append] at hroom
    have hbuf2' : (s.checkChar M (s.len + str.length - d.length)).buf =
        a ++ (d ++ (b ++ M.zero :: r')) := by rw [hbuf2]; simp
    by_cases hb : b = []
    · subst hb
      rw [if_neg (by simp [hlen]), Option.bind_some]
      have hlong : str.length ≤ (d ++ M.zero :: r').length := by
        simp only [List.length_append, List.length_cons, List.length_nil] at hroom ⊢
        omega
      refine hwrite _ ((d ++ M.zero :: r').take str.length) ((d ++ M.zero :: r').drop str.length)
        ?_ ?_ ?_ (Str.checkChar_len _ _) ?_
      · rw [hbuf2']
        simp only [List.nil_append, List.take_append_drop]
      · rw [List.length_take]
        omega
      · rw [List.length_drop]
        simp only [List.length_append, List.length_cons, List.length_nil] at hroom ⊢
        omega
      · rw [if_neg (by omega), Str.checkChar_moved]
        omega
    · have hpos : 0 < b.length := List.length_pos_of_ne_nil hb
      rw [if_pos (by omega), sizeSub_of_le (by omega)]
      obtain ⟨t, m, q, hmove, htbuf, hm, htlen, htl, htm⟩ := memmove_gap (M := M)
        (s.checkChar M (s.len + str.length - d.length)) a d b (M.zero :: r') str.length
        (s.len - (a.length + d.length)) hbuf2' (by omega) (by simp only [List.length_cons]; omega)
      rw [hmove, Option.bind_some]
      refine hwrite t m q htbuf hm ?_ (htl.trans (Str.checkChar_len _ _)) ?_
      · rw [htbuf, hbuf2'] at htlen
        simp only [List.length_append, List.length_cons] at htlen
        omega
      · rw [if_neg (by omega), htm, Str.checkChar_moved]
        split <;> omega
  · rw [if_neg hlt]
    by_cases hgt : str.length < d.length
    · -- `memmove` is called with the length of the text behind the replacement
      rw [if_pos hgt, sizeSub_of_le (show a.length ≤ s.len by omega),
        sizeSub_of_le (show str.length ≤ s.len - a.length by omega)]
      obtain ⟨t, m, q, hmove, htbuf, hm, htlen, htl, htm⟩ := memmove_gap (M := M) s a d b
        (M.zero :: r) str.length (s.len - a.length - str.length) hbuf' (by omega)
        (by simp only [List.length_cons]; omega)
      rw [hmove, Option.bind_some]
      refine hwrite t m q htbuf hm ?_ htl ?_
      · rw [htbuf, hbuf'] at htlen
        simp only [List.length_append, List.length_cons] at htlen
        omega
      · rw [if_pos hgt, htm, if_neg (by omega)]
        congr 1
        omega
    · rw [if_neg hgt, Option.bind_some]
      refine hwrite s d (M.zero :: r) hbuf' (by omega) (by simp) rfl ?_
      rw [if_neg hgt]
      omega

end

end Qore.Text
