import Qore.Text.Utf8

/-!
# `Qore.Text.Encoding`: the encodings of strings

A `QoreEncoding` is a table of functions. There are three sets of them, for UTF-8 and for UTF-16 with
either byte order; every other encoding has one byte for each character and no functions.

An encoding with more bytes is given by the function that finds the length of the next character. It
never finds more than there is (`Encoding.next_le`), and so no byte position that is computed with
`getByteLen` or `getUnicode` leaves the text (`Encoding.getByteLen_le`, `Encoding.getUnicode_le`).
-/

set_option autoImplicit false

namespace Qore.Text

open Qore.Lib.Words

/-- A `QoreEncoding`. `QCS_UTF16` has the functions of `QCS_UTF16BE`. With one byte for each
character, `convert` finds the code of a byte that is not an ASCII character; the program calls
`iconv` for it. -/
inductive Encoding
  | utf8
  | utf16BE
  | utf16LE
  | single (convert : UInt8 → Nat)

/-- The bytes of the UTF-16 character whose first unit has the high byte `c`. -/
def unitsLen (c : UInt8) : Nat := if 0xd8 ≤ c ∧ c < 0xdc then 4 else 2

/-- `q_UTF16BE_get_char_len`. -/
def utf16BEGetCharLen : List UInt8 → Int
  | [] => 0
  | c :: p => if unitsLen c ≤ (c :: p).length then unitsLen c else -unitsLen c

/-- `q_UTF16LE_get_char_len`. -/
def utf16LEGetCharLen : List UInt8 → Int
  | [] => 0
  | [_] => -2
  | b :: c :: p => if unitsLen c ≤ (b :: c :: p).length then unitsLen c else -unitsLen c

/-- The code of two UTF-16 units. -/
def joinUnits (unit unit2 : Nat) : Nat :=
  if 0xd800 ≤ unit ∧ unit ≤ 0xdbff ∧ 0xdc00 ≤ unit2 ∧ unit2 ≤ 0xdfff then
    unit <<< 10 + unit2 - 0x35fdc00
  else unit

/-- `UTF16BE_getUnicode`. -/
def utf16BEGetUnicode (p : List UInt8) : Nat :=
  joinUnits ((byteAt p 0).toNat <<< 8 + (byteAt p 1).toNat)
    ((byteAt p 2).toNat <<< 8 + (byteAt p 3).toNat)

/-- `UTF16LE_getUnicode`. -/
def utf16LEGetUnicode (p : List UInt8) : Nat :=
  joinUnits ((byteAt p 1).toNat <<< 8 + (byteAt p 0).toNat)
    ((byteAt p 3).toNat <<< 8 + (byteAt p 2).toNat)

/-- The function behind `fcharlen`, `flength` and `fend`; `none` where these are null. -/
def Encoding.next : Encoding → Option (List UInt8 → Int)
  | .utf8 => some charLen
  | .utf16BE => some utf16BEGetCharLen
  | .utf16LE => some utf16LEGetCharLen
  | .single _ => none

/-- `isAsciiCompat`. -/
def Encoding.isAsciiCompat : Encoding → Bool
  | .utf16BE | .utf16LE => false
  | .utf8 | .single _ => true

/-- `getByteLen(p, end, c, xsink)`; `none` when an exception is raised. -/
def Encoding.getByteLen (e : Encoding) (p : List UInt8) (c : Nat) : Option Nat :=
  match e.next with
  | none => some (min c p.length)
  | some next => if (lettersOf next p c).2 then none else some (lettersOf next p c).1

/-- The code of the first character, where there is one. -/
def Encoding.firstCode : Encoding → List UInt8 → Nat
  | .utf8, p => utf8GetUnicode p
  | .utf16BE, p => utf16BEGetUnicode p
  | .utf16LE, p => utf16LEGetUnicode p
  | .single convert, p =>
    if (byteAt p 0).toNat < 128 then (byteAt p 0).toNat else convert (byteAt p 0)

/-- `getUnicode(p, end, clen, xsink)`: the code and the length of the first character. -/
def Encoding.getUnicode (e : Encoding) (p : List UInt8) : Option (Nat × Nat) :=
  (e.getByteLen p 1).map (e.firstCode p, ·)

theorem charLen_le (p : List UInt8) (hp : p ≠ []) : charLen p ≤ p.length := by
  rcases p with _ | ⟨b, _ | ⟨b1, _ | ⟨b2, _ | ⟨b3, p⟩⟩⟩⟩
  · exact absurd rfl hp
  all_goals
    simp only [charLen, List.length_cons, List.length_nil]
    split_ifs <;> omega

theorem utf16BEGetCharLen_le (p : List UInt8) : utf16BEGetCharLen p ≤ p.length := by
  fun_cases utf16BEGetCharLen p <;> omega

theorem utf16LEGetCharLen_le (p : List UInt8) : utf16LEGetCharLen p ≤ p.length := by
  fun_cases utf16LEGetCharLen p <;> omega

variable {e : Encoding}

/-- No character is longer than the text that is left. -/
theorem Encoding.next_le {next : List UInt8 → Int} (h : e.next = some next) (p : List UInt8)
    (hp : p ≠ []) : next p ≤ p.length := by
  cases e with
  | utf8 => exact Option.some.inj h ▸ charLen_le p hp
  | utf16BE => exact Option.some.inj h ▸ utf16BEGetCharLen_le p
  | utf16LE => exact Option.some.inj h ▸ utf16LEGetCharLen_le p
  | single convert => cases h

variable {p : List UInt8} {c n : Nat}

/-- A byte position of the text. -/
theorem Encoding.getByteLen_le (h : e.getByteLen p c = some n) : n ≤ p.length := by
  unfold Encoding.getByteLen at h
  split at h
  · rw [← Option.some.inj h]
    exact Nat.min_le_right _ _
  · rename_i next hnext
    split at h
    · cases h
    · rw [← Option.some.inj h]
      exact lettersOf_le (Encoding.next_le hnext) p c

/-- A character takes at least one byte. -/
theorem Encoding.getByteLen_pos (hp : p ≠ []) (h : e.getByteLen p 1 = some n) : 0 < n := by
  cases p with
  | nil => exact absurd rfl hp
  | cons b p =>
    unfold Encoding.getByteLen at h
    split at h
    · rw [← Option.some.inj h, List.length_cons]
      omega
    · rename_i next hnext
      rw [lettersOf] at h
      dsimp only at h
      by_cases hl : next (b :: p) ≤ 0
      · rw [if_pos hl] at h
        cases h
      · rw [if_neg hl] at h
        split at h
        · cases h
        · rw [← Option.some.inj h]
          omega

theorem Encoding.getUnicode_pos (hp : p ≠ []) (h : e.getUnicode p = some (c, n)) : 0 < n := by
  obtain ⟨m, hm, heq⟩ := Option.map_eq_some_iff.mp h
  rw [Prod.mk.injEq] at heq
  exact heq.2 ▸ Encoding.getByteLen_pos hp hm

theorem Encoding.getUnicode_le (h : e.getUnicode p = some (c, n)) : n ≤ p.length := by
  obtain ⟨m, hm, heq⟩ := Option.map_eq_some_iff.mp h
  rw [Prod.mk.injEq] at heq
  exact heq.2 ▸ Encoding.getByteLen_le hm

/-- `getUnicodeCharArray`; `none` when an exception is raised. -/
def Encoding.getUnicodeCharArray (e : Encoding) (p : List UInt8) : Option (List Nat) :=
  if hp : p = [] then some []
  else
    match h : e.getUnicode p with
    | none => none
    | some (c, clen) => (getUnicodeCharArray e (p.drop clen)).map (c :: ·)
  termination_by p.length
  decreasing_by
    have hpos := Encoding.getUnicode_pos hp h
    have hlen := List.length_pos_of_ne_nil hp
    rw [List.length_drop]
    omega

/-- The loop of `trimLeading`: the bytes of the leading characters that are in `cvec` or zero;
`none` when an exception is raised. -/
def Encoding.leadingBytes (e : Encoding) (cvec : List Nat) (p : List UInt8) : Option Nat :=
  if hp : p = [] then some 0
  else
    match h : e.getUnicode p with
    | none => none
    | some (c, clen) =>
      if c ≠ 0 ∧ c ∉ cvec then some 0
      else (leadingBytes e cvec (p.drop clen)).map (clen + ·)
  termination_by p.length
  decreasing_by
    have hpos := Encoding.getUnicode_pos hp h
    have hlen := List.length_pos_of_ne_nil hp
    rw [List.length_drop]
    omega

/-- What is cut off in front is part of the text. -/
theorem Encoding.leadingBytes_le (e : Encoding) (cvec : List Nat) (p : List UInt8)
    (h : e.leadingBytes cvec p = some n) : n ≤ p.length := by
  induction hlen : p.length using Nat.strong_induction_on generalizing p n with
  | _ k ih =>
    unfold Encoding.leadingBytes at h
    split at h
    · rw [← Option.some.inj h]
      exact Nat.zero_le _
    · rename_i hp
      split at h
      · cases h
      · rename_i c clen hget
        split at h
        · rw [← Option.some.inj h]
          exact Nat.zero_le _
        · obtain ⟨m, hm, rfl⟩ := Option.map_eq_some_iff.mp h
          have hpos := Encoding.getUnicode_pos hp hget
          have hle := Encoding.getUnicode_le hget
          have hdrop : (p.drop clen).length < k := by
            rw [List.length_drop]
            omega
          have hrest := ih _ hdrop (p.drop clen) hm rfl
          rw [List.length_drop] at hrest
          omega

end Qore.Text
