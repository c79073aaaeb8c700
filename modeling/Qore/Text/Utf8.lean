import Mathlib
import Qore.Lib.Words

/-!
# `Qore.Text.Utf8`: UTF-8 text

`concatUTF8FromUnicode` writes a character, and three functions read it. `q_UTF8_get_char_len`
finds the length of a character from its first byte, for `getLength` and `getByteLen`;
`UTF8_getUnicode` and `get_unicode_from_utf8` find its code. A byte is a `UInt8`, a code an
`unsigned`.

* `encode_scans`: `q_UTF8_get_char_len` finds each character that the encoder writes.
* `getUnicode_encode`, `getUnicodeFromUtf8_encode`: both readers find the code that was written,
  without the bit 10 of a code of two bytes (`storedCode`): the mask of the encoder is `0x2f`
  where `0x1f` would keep this bit.
* `utf8_roundTrip_iff`: writing and reading agree exactly on the texts that have no character from
  U+0400 to U+07FF.
-/

set_option autoImplicit false

namespace Qore.Text

open Qore.Lib.Words

/-- The bytes that `concatUTF8FromUnicode` appends for a code. -/
def encode (code : Nat) : List UInt8 :=
  if code > 0xffff then
    [.ofNat (0xf0 ||| ((code &&& (0x7 <<< 18)) >>> 18)),
     .ofNat (0x80 ||| ((code &&& (0x3f <<< 12)) >>> 12)),
     .ofNat (0x80 ||| ((code &&& (0x3f <<< 6)) >>> 6)),
     .ofNat (0x80 ||| (code &&& 0x3f))]
  else if code > 0x7ff then
    [.ofNat (0xe0 ||| ((code &&& (0xf <<< 12)) >>> 12)),
     .ofNat (0x80 ||| ((code &&& (0x3f <<< 6)) >>> 6)),
     .ofNat (0x80 ||| (code &&& 0x3f))]
  else if code > 0x7f then
    [.ofNat (0xc0 ||| ((code &&& (0x2f <<< 6)) >>> 6)),
     .ofNat (0x80 ||| (code &&& 0x3f))]
  else [.ofNat code]

/-- `concatUTF8FromUnicode`. -/
def concatUTF8FromUnicode (s : List UInt8) (code : Nat) : List UInt8 := s ++ encode code

/-- The bits of a byte under a mask, as `*p & mask`. -/
def bits (b : UInt8) (mask : Nat) : Nat := b.toNat &&& mask

/-- The highest bit of a byte. -/
theorem bits_high_iff (b : UInt8) : bits b 0x80 ≠ 0 ↔ 127 < b := by
  have hlt := b.toNat_lt
  have hbit : b.toNat &&& 2 ^ 7 = (b.toNat.testBit 7).toNat * 2 ^ 7 := Nat.and_two_pow _ _
  have h127 : (127 : UInt8).toNat = 127 := rfl
  rw [Nat.testBit_eq_decide_div_mod_eq] at hbit
  rw [bits, UInt8.lt_iff_toNat_lt, h127, show (0x80 : Nat) = 2 ^ 7 from rfl, hbit]
  by_cases h : b.toNat / 2 ^ 7 % 2 = 1
  · simp only [h, decide_true, Bool.toNat_true]
    omega
  · simp only [h, decide_false, Bool.toNat_false]
    omega

/-- A byte with all bits of the mask is not below it. -/
theorem le_of_bits {b : UInt8} {mask : Nat} (h : bits b mask = mask) : mask ≤ b.toNat := by
  rw [← h]
  exact Nat.and_le_left

/-- `q_UTF8_get_char_len`, on the bytes from `p` to the end. -/
def charLen : List UInt8 → Int
  | [] => 1
  | b :: p =>
    if bits b 0xc0 = 0xc0 then
      if bits b 0x20 ≠ 0 then
        if bits b 0x10 ≠ 0 then
          match p with
          | b1 :: b2 :: b3 :: _ =>
            if bits b1 0x80 ≠ 0 ∧ bits b2 0x80 ≠ 0 ∧ bits b3 0x80 ≠ 0 then 4 else 0
          | _ => -4
        else
          match p with
          | b1 :: b2 :: _ => if bits b1 0x80 ≠ 0 ∧ bits b2 0x80 ≠ 0 then 3 else 0
          | _ => -3
      else
        match p with
        | b1 :: _ => if bits b1 0x80 ≠ 0 then 2 else 0
        | _ => -2
    else 1

/-- `UTF8_getLength`: the number of characters, and `invalid`. -/
def getLength (s : List UInt8) : Nat × Bool := countWords charLen s

/-- `UTF8_getByteLen`: the number of bytes of the first `l` characters, and `invalid`. -/
def getByteLen (s : List UInt8) (l : Nat) : Nat × Bool := lettersOf charLen s l

/-- The value of a byte that is returned as an `unsigned`; `char` is signed. -/
def signExtend (b : UInt8) : Nat := if b.toNat < 0x80 then b.toNat else b.toNat + 0xffffff00

/-- The byte `p[i]`; the text ends with a zero byte. -/
def byteAt (p : List UInt8) (i : Nat) : UInt8 := p.getD i 0

/-- `UTF8_getUnicode`. -/
def utf8GetUnicode (p : List UInt8) : Nat :=
  if bits (byteAt p 0) 0xc0 = 0xc0 then
    if bits (byteAt p 0) 0x20 ≠ 0 then
      if bits (byteAt p 0) 0x10 ≠ 0 then
        bits (byteAt p 0) 0x07 <<< 18 ||| bits (byteAt p 1) 0x3f <<< 12 |||
          bits (byteAt p 2) 0x3f <<< 6 ||| bits (byteAt p 3) 0x3f
      else
        bits (byteAt p 0) 0x0f <<< 12 ||| bits (byteAt p 1) 0x3f <<< 6 ||| bits (byteAt p 2) 0x3f
    else bits (byteAt p 0) 0x1f <<< 6 ||| bits (byteAt p 1) 0x3f
  else signExtend (byteAt p 0)

/-- `get_unicode_from_utf8`. -/
def getUnicodeFromUtf8 (p : List UInt8) (bl : Nat) : Nat :=
  if bl = 1 then signExtend (byteAt p 0)
  else if bl = 2 then bits (byteAt p 0) 0x1f <<< 6 ||| bits (byteAt p 1) 0x3f
  else if bl = 3 then
    bits (byteAt p 0) 0x0f <<< 12 ||| bits (byteAt p 1) 0x3f <<< 6 ||| bits (byteAt p 2) 0x3f
  else
    bits (byteAt p 0) 0x07 <<< 18 ||| bits (byteAt p 1) 0x3f <<< 12 |||
      bits (byteAt p 2) 0x3f <<< 6 ||| bits (byteAt p 3) 0x3f

/-- `getUnicodePointFromBytePos`: the code and the length of the character at a byte position;
`none` when an exception is raised. -/
def getUnicodePointFromBytePos (s : List UInt8) (offset : Nat) : Option (Nat × Nat) :=
  let p := s.drop offset
  let (clen, invalid) := getByteLen p 1
  if invalid then none else some (utf8GetUnicode p, clen)

/-- `getUnicodeCharArray`, from the byte position `j` on; `none` when an exception is raised. The
loop makes at most as many steps as there are bytes. -/
def getUnicodeCharArray (s : List UInt8) : Nat → Nat → Option (List Nat)
  | 0, _ => some []
  | fuel + 1, j =>
    if j < s.length then
      match getUnicodePointFromBytePos s j with
      | none => none
      | some (c, clen) => (getUnicodeCharArray s fuel (j + clen)).map (c :: ·)
    else some []

/-- `getUnicodePointFromUTF8`; -1 is the `unsigned` value `0xffffffff`. -/
def getUnicodePointFromUTF8 (s : List UInt8) (offset : Int) : Nat :=
  let (clen, invalid) := getLength s
  if invalid then 0xffffffff
  else
    let offset := if offset < 0 then (if clen + offset < 0 then 0 else clen + offset) else offset
    if 0 ≤ offset ∧ clen ≤ offset then 0
    else
      let (pos, invalid) := if offset = 0 then (0, false) else getByteLen s offset.toNat
      if invalid then 0xffffffff
      else
        let (bl, invalid) := getByteLen (s.drop pos) 1
        if invalid then 0xffffffff else getUnicodeFromUtf8 (s.drop pos) bl

/-! ## One character -/

/-- A Unicode scalar value other than 0. -/
def IsScalar (c : Nat) : Prop := 0 < c ∧ c ≤ 0x10ffff ∧ ¬(0xd800 ≤ c ∧ c ≤ 0xdfff)

/-- The code that the encoder keeps. -/
def storedCode (c : Nat) : Nat := if 0x400 ≤ c ∧ c ≤ 0x7ff then c - 0x400 else c

/-- A field of bits, shifted down. -/
theorem and_shift (c m i : Nat) : (c &&& (m <<< i)) >>> i = (c >>> i) &&& m := by
  rw [Nat.shiftRight_and_distrib, Nat.shiftLeft_shiftRight]

theorem and_3f (n : Nat) : n &&& 0x3f = n % 64 := Nat.and_two_pow_sub_one_eq_mod n 6

theorem and_0f (n : Nat) : n &&& 0xf = n % 16 := Nat.and_two_pow_sub_one_eq_mod n 4

theorem and_07 (n : Nat) : n &&& 0x7 = n % 8 := Nat.and_two_pow_sub_one_eq_mod n 3

/-- The mask of the two byte code has no bit 4. -/
theorem and_2f {n : Nat} (h : n < 32) : n &&& 0x2f = n % 16 := by
  have : ∀ n < 32, n &&& 0x2f = n % 16 := by decide
  exact this n h

variable {c : Nat}

/-- The fields of bits of a byte of the encoder. -/
theorem encode_two (h1 : 0x7f < c) (h2 : c ≤ 0x7ff) :
    encode c = [.ofNat (0xc0 ||| c / 64 % 16), .ofNat (0x80 ||| c % 64)] := by
  have h : c / 64 < 32 := by omega
  rw [encode, if_neg (by omega), if_neg (by omega), if_pos h1, and_shift, and_3f,
    Nat.shiftRight_eq_div_pow, show 2 ^ 6 = 64 by rfl, and_2f h]

theorem encode_three (h1 : 0x7ff < c) (h2 : c ≤ 0xffff) :
    encode c = [.ofNat (0xe0 ||| c / 4096 % 16), .ofNat (0x80 ||| c / 64 % 64),
      .ofNat (0x80 ||| c % 64)] := by
  rw [encode, if_neg (by omega), if_pos h1, and_shift, and_shift, and_3f, and_3f, and_0f,
    Nat.shiftRight_eq_div_pow, Nat.shiftRight_eq_div_pow]

theorem encode_four (h1 : 0xffff < c) :
    encode c = [.ofNat (0xf0 ||| c / 262144 % 8), .ofNat (0x80 ||| c / 4096 % 64),
      .ofNat (0x80 ||| c / 64 % 64), .ofNat (0x80 ||| c % 64)] := by
  rw [encode, if_pos h1, and_shift, and_shift, and_shift, and_3f, and_3f, and_3f, and_07,
    Nat.shiftRight_eq_div_pow, Nat.shiftRight_eq_div_pow, Nat.shiftRight_eq_div_pow]

/-- What the readers see of the first byte of two. -/
theorem bits_lead_two : ∀ x < 16, bits (.ofNat (0xc0 ||| x)) 0xc0 = 0xc0 ∧
    bits (.ofNat (0xc0 ||| x)) 0x20 = 0 ∧ bits (.ofNat (0xc0 ||| x)) 0x1f = x := by decide

/-- What the readers see of the first byte of three. -/
theorem bits_lead_three : ∀ x < 16, bits (.ofNat (0xe0 ||| x)) 0xc0 = 0xc0 ∧
    bits (.ofNat (0xe0 ||| x)) 0x20 ≠ 0 ∧ bits (.ofNat (0xe0 ||| x)) 0x10 = 0 ∧
    bits (.ofNat (0xe0 ||| x)) 0x0f = x := by decide

/-- What the readers see of the first byte of four. -/
theorem bits_lead_four : ∀ x < 8, bits (.ofNat (0xf0 ||| x)) 0xc0 = 0xc0 ∧
    bits (.ofNat (0xf0 ||| x)) 0x20 ≠ 0 ∧ bits (.ofNat (0xf0 ||| x)) 0x10 ≠ 0 ∧
    bits (.ofNat (0xf0 ||| x)) 0x07 = x := by decide

/-- What the readers see of a later byte. -/
theorem bits_tail : ∀ x < 64, bits (.ofNat (0x80 ||| x)) 0x80 ≠ 0 ∧
    bits (.ofNat (0x80 ||| x)) 0x3f = x := by decide

/-- What the readers see of a single byte. -/
theorem bits_single : ∀ x < 128, bits (.ofNat x) 0xc0 ≠ 0xc0 ∧ signExtend (.ofNat x) = x := by decide

/-- The sizes of the codes. -/
theorem encode_cases (c : Nat) :
    (c ≤ 0x7f ∧ encode c = [.ofNat c]) ∨ (0x7f < c ∧ c ≤ 0x7ff) ∨ (0x7ff < c ∧ c ≤ 0xffff) ∨
      0xffff < c := by
  by_cases h : c ≤ 0x7f
  · left
    refine ⟨h, ?_⟩
    rw [encode, if_neg (by omega), if_neg (by omega), if_neg (by omega)]
  · omega

/-- Every character that is written is found. -/
theorem encode_scans (c : Nat) : Scans charLen (encode c) := by
  rcases encode_cases c with ⟨h, heq⟩ | ⟨h1, h2⟩ | ⟨h1, h2⟩ | h1
  · rw [heq]
    refine ⟨by simp, fun rest => ?_⟩
    simp [charLen, (bits_single c (by omega)).1]
  · rw [encode_two h1 h2]
    refine ⟨by simp, fun rest => ?_⟩
    have hx := bits_lead_two (c / 64 % 16) (by omega)
    have hy := bits_tail (c % 64) (by omega)
    simp [-UInt8.ofNat_or, charLen, hx.1, hx.2.1, hy.1]
  · rw [encode_three h1 h2]
    refine ⟨by simp, fun rest => ?_⟩
    have hx := bits_lead_three (c / 4096 % 16) (by omega)
    have hy := bits_tail (c / 64 % 64) (by omega)
    have hz := bits_tail (c % 64) (by omega)
    simp [-UInt8.ofNat_or, charLen, hx.1, hx.2.1, hx.2.2.1, hy.1, hz.1]
  · rw [encode_four h1]
    refine ⟨by simp, fun rest => ?_⟩
    have hx := bits_lead_four (c / 262144 % 8) (by omega)
    have hy := bits_tail (c / 4096 % 64) (by omega)
    have hz := bits_tail (c / 64 % 64) (by omega)
    have hw := bits_tail (c % 64) (by omega)
    simp [-UInt8.ofNat_or, charLen, hx.1, hx.2.1, hx.2.2.1, hy.1, hz.1, hw.1]

/-- Two fields of bits that do not meet. -/
theorem shiftLeft_or {a b i : Nat} (h : b < 2 ^ i) : a <<< i ||| b = a * 2 ^ i + b := by
  rw [← Nat.shiftLeft_add_eq_or_of_lt h, Nat.shiftLeft_eq]

variable {x y : Nat} (cs : List Nat)

theorem join_two (hy : y < 64) : x <<< 6 ||| y = x * 64 + y := shiftLeft_or hy

theorem join_three {z : Nat} (hy : y < 64) (hz : z < 64) :
    x <<< 12 ||| y <<< 6 ||| z = x * 4096 + y * 64 + z := by
  have h : x <<< 12 ||| y <<< 6 = (x * 64 + y) <<< 6 := by
    rw [← join_two hy, Nat.shiftLeft_or_distrib, ← Nat.shiftLeft_add]
  rw [h, join_two hz]
  omega

theorem join_four {z w : Nat} (hy : y < 64) (hz : z < 64) (hw : w < 64) :
    x <<< 18 ||| y <<< 12 ||| z <<< 6 ||| w = x * 262144 + y * 4096 + z * 64 + w := by
  have h : x <<< 18 ||| y <<< 12 ||| z <<< 6 = (x * 4096 + y * 64 + z) <<< 6 := by
    rw [← join_three hy hz, Nat.shiftLeft_or_distrib, Nat.shiftLeft_or_distrib, ← Nat.shiftLeft_add,
      ← Nat.shiftLeft_add]
  rw [h, join_two hw]
  omega

/-- `UTF8_getUnicode` reads the code that was stored. -/
theorem getUnicode_encode (hc : c ≤ 0x10ffff) (rest : List UInt8) :
    utf8GetUnicode (encode c ++ rest) = storedCode c := by
  unfold storedCode
  rcases encode_cases c with ⟨h, heq⟩ | ⟨h1, h2⟩ | ⟨h1, h2⟩ | h1
  · have hb := bits_single c (by omega)
    rw [heq, if_neg (by omega)]
    simp [utf8GetUnicode, byteAt, hb.1, hb.2]
  · have hx := bits_lead_two (c / 64 % 16) (by omega)
    have hy := bits_tail (c % 64) (by omega)
    have hread : utf8GetUnicode (encode c ++ rest) = (c / 64 % 16) <<< 6 ||| c % 64 := by
      rw [encode_two h1 h2]
      simp [-UInt8.ofNat_or, utf8GetUnicode, byteAt, hx.1, hx.2.1, hx.2.2, hy.2]
    rw [hread, join_two (by omega)]
    split <;> omega
  · have hx := bits_lead_three (c / 4096 % 16) (by omega)
    have hy := bits_tail (c / 64 % 64) (by omega)
    have hz := bits_tail (c % 64) (by omega)
    have hread : utf8GetUnicode (encode c ++ rest) =
        (c / 4096 % 16) <<< 12 ||| (c / 64 % 64) <<< 6 ||| c % 64 := by
      rw [encode_three h1 h2]
      simp [-UInt8.ofNat_or, utf8GetUnicode, byteAt, hx.1, hx.2.1, hx.2.2.1, hx.2.2.2, hy.2, hz.2]
    rw [hread, join_three (by omega) (by omega), if_neg (by omega)]
    omega
  · have hx := bits_lead_four (c / 262144 % 8) (by omega)
    have hy := bits_tail (c / 4096 % 64) (by omega)
    have hz := bits_tail (c / 64 % 64) (by omega)
    have hw := bits_tail (c % 64) (by omega)
    have hread : utf8GetUnicode (encode c ++ rest) =
        (c / 262144 % 8) <<< 18 ||| (c / 4096 % 64) <<< 12 ||| (c / 64 % 64) <<< 6 ||| c % 64 := by
      rw [encode_four h1]
      simp [-UInt8.ofNat_or, utf8GetUnicode, byteAt, hx.1, hx.2.1, hx.2.2.1, hx.2.2.2, hy.2, hz.2, hw.2]
    rw [hread, join_four (by omega) (by omega) (by omega), if_neg (by omega)]
    omega

/-- `get_unicode_from_utf8` finds the same code. -/
theorem getUnicodeFromUtf8_encode (c : Nat) (rest : List UInt8) :
    getUnicodeFromUtf8 (encode c ++ rest) (encode c).length = utf8GetUnicode (encode c ++ rest) := by
  rcases encode_cases c with ⟨h, heq⟩ | ⟨h1, h2⟩ | ⟨h1, h2⟩ | h1
  · have hb := bits_single c (by omega)
    rw [heq]
    simp [getUnicodeFromUtf8, utf8GetUnicode, byteAt, hb.1]
  · have hx := bits_lead_two (c / 64 % 16) (by omega)
    rw [encode_two h1 h2]
    simp [-UInt8.ofNat_or, getUnicodeFromUtf8, utf8GetUnicode, byteAt, hx.1, hx.2.1]
  · have hx := bits_lead_three (c / 4096 % 16) (by omega)
    rw [encode_three h1 h2]
    simp [-UInt8.ofNat_or, getUnicodeFromUtf8, utf8GetUnicode, byteAt, hx.1, hx.2.1, hx.2.2.1]
  · have hx := bits_lead_four (c / 262144 % 8) (by omega)
    rw [encode_four h1]
    simp [-UInt8.ofNat_or, getUnicodeFromUtf8, utf8GetUnicode, byteAt, hx.1, hx.2.1, hx.2.2.1]

/-! ## A text -/

/-- The bytes of a list of characters, written one after the other. -/
def write (cs : List Nat) : List UInt8 := cs.foldl concatUTF8FromUnicode []

theorem write_eq : write cs = (cs.map encode).flatten := by
  have h : ∀ s, cs.foldl concatUTF8FromUnicode s = s ++ (cs.map encode).flatten := by
    induction cs with
    | nil => intro s; simp
    | cons c cs ih =>
      intro s
      rw [List.foldl_cons, ih, concatUTF8FromUnicode]
      simp
  exact h []

theorem scans_of_mem {cs : List Nat} : ∀ w ∈ cs.map encode, Scans charLen w := by
  intro w hw
  obtain ⟨c, -, rfl⟩ := List.mem_map.mp hw
  exact encode_scans c

theorem getLength_write : getLength (write cs) = (cs.length, false) := by
  rw [getLength, write_eq, countWords_flatten scans_of_mem, List.length_map]

theorem getByteLen_write (n : Nat) :
    getByteLen (write cs) n = ((write (cs.take n)).length, false) := by
  rw [getByteLen, write_eq, lettersOf_flatten scans_of_mem, ← List.map_take, write_eq]

theorem write_append (cs ds : List Nat) : write (cs ++ ds) = write cs ++ write ds := by
  simp [write_eq]

theorem write_cons (c : Nat) (cs : List Nat) : write (c :: cs) = encode c ++ write cs := by
  simp [write_eq]

/-- `getUnicodePointFromBytePos` at a character. -/
theorem getUnicodePointFromBytePos_write (hc : c ≤ 0x10ffff) (pre post : List Nat) :
    getUnicodePointFromBytePos (write (pre ++ c :: post)) (write pre).length =
      some (storedCode c, (encode c).length) := by
  have hlen : getByteLen (write (c :: post)) 1 = ((encode c).length, false) := by
    rw [getByteLen_write]
    simp [write_eq]
  unfold getUnicodePointFromBytePos
  rw [write_append, List.drop_left]
  dsimp only
  rw [hlen]
  simp only [write_cons, getUnicode_encode hc, Bool.false_eq_true, if_false]

/-- The codes are read one after the other. -/
theorem getUnicodeCharArray_write (post : List Nat) (hpost : ∀ c ∈ post, c ≤ 0x10ffff) :
    ∀ (pre : List Nat) (fuel : Nat), (write post).length ≤ fuel →
      getUnicodeCharArray (write (pre ++ post)) fuel (write pre).length =
        some (post.map storedCode) := by
  induction post with
  | nil =>
    intro pre fuel _
    cases fuel with
    | zero => rfl
    | succ fuel =>
      rw [List.append_nil, getUnicodeCharArray, if_neg (by omega)]
      rfl
  | cons c post ih =>
    intro pre fuel hfuel
    have hpos := (encode_scans c).pos
    rw [write_cons, List.length_append] at hfuel
    cases fuel with
    | zero => omega
    | succ fuel =>
      have hlt : (write pre).length < (write (pre ++ c :: post)).length := by
        rw [write_append, write_cons, List.length_append, List.length_append]
        omega
      -- the next character starts after this one
      have hnext : (write pre).length + (encode c).length = (write (pre ++ [c])).length := by
        simp [write_eq]
      have hrest := ih (fun d hd => hpost d (List.mem_cons_of_mem c hd)) (pre ++ [c]) fuel (by omega)
      rw [List.append_assoc, List.singleton_append] at hrest
      rw [getUnicodeCharArray, if_pos hlt,
        getUnicodePointFromBytePos_write (hpost c List.mem_cons_self)]
      simp only [hnext, hrest, Option.map_some, List.map_cons]

/-- `getUnicodePointFromUTF8` at a character. -/
theorem getUnicodePointFromUTF8_write (hc : c ≤ 0x10ffff) (pre post : List Nat) :
    getUnicodePointFromUTF8 (write (pre ++ c :: post)) pre.length = storedCode c := by
  have hpos : (if (pre.length : Int) = 0 then ((0, false) : Nat × Bool)
      else getByteLen (write (pre ++ c :: post)) (pre.length : Int).toNat) =
        ((write pre).length, false) := by
    rw [getByteLen_write, Int.toNat_natCast, List.take_left]
    split
    · rename_i hzero
      have : pre = [] := List.length_eq_zero_iff.mp (by omega)
      rw [this]
      rfl
    · rfl
  have hbl : getByteLen ((write (pre ++ c :: post)).drop (write pre).length) 1 =
      ((encode c).length, false) := by
    rw [write_append, List.drop_left, getByteLen_write]
    simp [write_eq]
  unfold getUnicodePointFromUTF8
  simp only [getLength_write, Bool.false_eq_true, if_false,
    if_neg (show ¬(pre.length : Int) < 0 by omega)]
  have hinside : ¬((0 : Int) ≤ pre.length ∧ ((pre ++ c :: post).length : Int) ≤ pre.length) := by
    simp only [List.length_append, List.length_cons]
    omega
  rw [if_neg hinside, hpos]
  simp only [hbl, Bool.false_eq_true, if_false]
  rw [write_append, List.drop_left, write_cons, getUnicodeFromUtf8_encode, getUnicode_encode hc]

/-- What is written is read again. -/
structure RoundTrip (cs : List Nat) : Prop where
  length : getLength (write cs) = (cs.length, false)
  byteLen : ∀ n, n ≤ cs.length → getByteLen (write cs) n = ((write (cs.take n)).length, false)
  fromBytePos : getUnicodeCharArray (write cs) (write cs).length 0 = some cs
  fromUtf8 : ∀ pre c post, cs = pre ++ c :: post →
    getUnicodePointFromUTF8 (write cs) pre.length = c

theorem storedCode_eq_self_iff (c : Nat) : storedCode c = c ↔ ¬(0x400 ≤ c ∧ c ≤ 0x7ff) := by
  unfold storedCode
  split <;> omega

/-- Writing and reading agree exactly when no character is from U+0400 to U+07FF. -/
theorem utf8_roundTrip_iff (cs : List Nat) (h : ∀ c ∈ cs, IsScalar c) :
    RoundTrip cs ↔ ∀ c ∈ cs, ¬(0x400 ≤ c ∧ c ≤ 0x7ff) := by
  have hle : ∀ c ∈ cs, c ≤ 0x10ffff := fun c hc => (h c hc).2.1
  have harray : getUnicodeCharArray (write cs) (write cs).length 0 = some (cs.map storedCode) :=
    getUnicodeCharArray_write cs hle [] _ le_rfl
  constructor
  · intro hround c hc
    have hmap : cs.map storedCode = cs := Option.some.inj (harray.symm.trans hround.fromBytePos)
    have hself := List.map_inj_left.mp (hmap.trans (List.map_id cs).symm) c hc
    exact (storedCode_eq_self_iff c).mp hself
  · intro hcs
    have hself : ∀ c ∈ cs, storedCode c = c := fun c hc => (storedCode_eq_self_iff c).mpr (hcs c hc)
    refine ⟨getLength_write cs, fun n _ => getByteLen_write cs n, ?_, ?_⟩
    · rw [harray, List.map_congr_left hself]
      exact congrArg some (List.map_id cs)
    · intro pre c post heq
      have hmem : c ∈ cs := by simp [heq]
      rw [heq, getUnicodePointFromUTF8_write (hle c hmem), hself c hmem]

/-- The text `a€😀`. -/
theorem utf8_roundTrip_sample : (∀ c ∈ [0x61, 0x20ac, 0x1f600], IsScalar c) ∧
    RoundTrip [0x61, 0x20ac, 0x1f600] :=
  ⟨by unfold IsScalar; decide,
    (utf8_roundTrip_iff [0x61, 0x20ac, 0x1f600] (by unfold IsScalar; decide)).mpr (by decide)⟩

/-- The letter U+0410 is written as `c0 90`, and read as U+0010. -/
theorem utf8_not_roundTrip_cyrillic : IsScalar 0x410 ∧ ¬RoundTrip [0x410] := by
  refine ⟨by unfold IsScalar; decide, fun hround => ?_⟩
  have h := getUnicodePointFromUTF8_write (c := 0x410) (by decide) [] []
  have h' := hround.fromUtf8 [] 0x410 [] rfl
  rw [List.nil_append] at h
  rw [h] at h'
  exact absurd h' (by decide)

/-! ## Valid UTF-8 -/

/-- The UTF-8 text of a sequence of characters. -/
def utf8 (cs : List Char) : List UInt8 := spell String.utf8EncodeChar cs

/-- The bytes of a character, as the readers see them. -/
theorem bits_utf8_two : ∀ x < 32, bits (.ofNat (x + 192)) 0xc0 = 0xc0 ∧
    bits (.ofNat (x + 192)) 0x20 = 0 := by decide

theorem bits_utf8_three : ∀ x < 16, bits (.ofNat (x + 224)) 0xc0 = 0xc0 ∧
    bits (.ofNat (x + 224)) 0x20 ≠ 0 ∧ bits (.ofNat (x + 224)) 0x10 = 0 := by decide

theorem bits_utf8_four : ∀ x < 8, bits (.ofNat (x + 240)) 0xc0 = 0xc0 ∧
    bits (.ofNat (x + 240)) 0x20 ≠ 0 ∧ bits (.ofNat (x + 240)) 0x10 ≠ 0 := by decide

theorem bits_utf8_tail : ∀ x < 64, bits (.ofNat (x + 128)) 0x80 ≠ 0 := by decide

/-- `q_UTF8_get_char_len` finds every character of UTF-8. -/
theorem utf8_scans (c : Char) : Scans charLen (String.utf8EncodeChar c) := by
  unfold String.utf8EncodeChar
  generalize c.val.toNat = v
  by_cases h1 : v ≤ 127
  · rw [if_pos h1]
    refine ⟨by simp, fun rest => ?_⟩
    simp [charLen, (bits_single v (by omega)).1]
  rw [if_neg h1]
  by_cases h2 : v ≤ 2047
  · rw [if_pos h2]
    refine ⟨by simp, fun rest => ?_⟩
    have hx := bits_utf8_two (v / 64 % 32) (by omega)
    have hy := bits_utf8_tail (v % 64) (by omega)
    simp [-UInt8.ofNat_add, charLen, hx.1, hx.2, hy]
  rw [if_neg h2]
  by_cases h3 : v ≤ 65535
  · rw [if_pos h3]
    refine ⟨by simp, fun rest => ?_⟩
    have hx := bits_utf8_three (v / 4096 % 16) (by omega)
    have hy := bits_utf8_tail (v / 64 % 64) (by omega)
    have hz := bits_utf8_tail (v % 64) (by omega)
    simp [-UInt8.ofNat_add, charLen, hx.1, hx.2.1, hx.2.2, hy, hz]
  · rw [if_neg h3]
    refine ⟨by simp, fun rest => ?_⟩
    have hx := bits_utf8_four (v / 262144 % 8) (by omega)
    have hy := bits_utf8_tail (v / 4096 % 64) (by omega)
    have hz := bits_utf8_tail (v / 64 % 64) (by omega)
    have hw := bits_utf8_tail (v % 64) (by omega)
    simp [-UInt8.ofNat_add, charLen, hx.1, hx.2.1, hx.2.2, hy, hz, hw]

/-- The bytes of the encoder, as sums. -/
theorem or_lead_two : ∀ x < 16, 0xc0 ||| x = x + 192 := by decide

theorem or_lead_three : ∀ x < 16, 0xe0 ||| x = x + 224 := by decide

theorem or_lead_four : ∀ x < 8, 0xf0 ||| x = x + 240 := by decide

theorem or_tail : ∀ x < 64, 0x80 ||| x = x + 128 := by decide

/-- The encoder writes UTF-8, but for the characters whose bit 10 it drops. -/
theorem encode_eq_utf8EncodeChar {c : Char} (h : ¬(0x400 ≤ c.toNat ∧ c.toNat ≤ 0x7ff)) :
    encode c.toNat = String.utf8EncodeChar c := by
  unfold String.utf8EncodeChar
  change ¬(0x400 ≤ c.val.toNat ∧ c.val.toNat ≤ 0x7ff) at h
  show encode c.val.toNat = _
  generalize c.val.toNat = v at h ⊢
  rcases encode_cases v with ⟨h1, heq⟩ | ⟨h1, h2⟩ | ⟨h1, h2⟩ | h1
  · rw [heq, if_pos h1]
  · have hlead : v / 64 % 16 = v / 64 % 32 := by omega
    rw [encode_two h1 h2, if_neg (by omega), if_pos h2, or_lead_two _ (by omega),
      or_tail _ (by omega), hlead]
  · rw [encode_three h1 h2, if_neg (by omega), if_neg (by omega), if_pos h2,
      or_lead_three _ (by omega), or_tail _ (by omega), or_tail _ (by omega)]
  · rw [encode_four h1, if_neg (by omega), if_neg (by omega), if_neg (by omega),
      or_lead_four _ (by omega), or_tail _ (by omega), or_tail _ (by omega), or_tail _ (by omega)]

theorem utf8EncodeChar_injective : Function.Injective String.utf8EncodeChar := by
  intro c d h
  have hc := @ByteArray.utf8DecodeChar?_utf8EncodeChar_append ByteArray.empty c
  have hd := @ByteArray.utf8DecodeChar?_utf8EncodeChar_append ByteArray.empty d
  rw [h, hd] at hc
  exact (Option.some.inj hc).symm

/-- Only the character zero has a zero byte. -/
theorem zero_mem_utf8EncodeChar (c : Char) : (0 : UInt8) ∈ String.utf8EncodeChar c ↔ c = '\x00' := by
  constructor
  · intro h
    have hbyte : ∀ x < 256, (0 : UInt8) = UInt8.ofNat x → x = 0 := by
      intro x hx heq
      have hnat := congrArg UInt8.toNat heq
      simp at hnat
      omega
    have hval : c.val.toNat = 0 := by
      unfold String.utf8EncodeChar at h
      generalize c.val.toNat = v at h
      dsimp only at h
      split at h
      · exact hbyte v (by omega) (by simpa using h)
      -- the bytes of the longer codes have their highest bit
      split at h
      · simp only [List.mem_cons, List.not_mem_nil, or_false] at h
        rcases h with h | h <;>
          · have := hbyte _ (by omega) h
            omega
      split at h
      · simp only [List.mem_cons, List.not_mem_nil, or_false] at h
        rcases h with h | h | h <;>
          · have := hbyte _ (by omega) h
            omega
      · simp only [List.mem_cons, List.not_mem_nil, or_false] at h
        rcases h with h | h | h | h <;>
          · have := hbyte _ (by omega) h
            omega
    exact Char.ext (UInt32.toNat.inj hval)
  · rintro rfl
    decide

theorem zero_mem_utf8 (cs : List Char) : (0 : UInt8) ∈ utf8 cs ↔ '\x00' ∈ cs := by
  simp only [utf8, spell, List.mem_flatten, List.mem_map]
  constructor
  · rintro ⟨w, ⟨c, hc, rfl⟩, hzero⟩
    rwa [← (zero_mem_utf8EncodeChar c).mp hzero]
  · intro h
    exact ⟨_, ⟨_, h, rfl⟩, (zero_mem_utf8EncodeChar _).mpr rfl⟩

end Qore.Text
