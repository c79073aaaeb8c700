import Qore.Lib.CInt
import Qore.Lib.Decimal
import Qore.Stream.Reader
import Qore.Text.Format

/-!
# `Qore.Text.Base64`: base64 and hexadecimal texts

`concatBase64` writes three bytes as four characters and breaks the line after every `maxlinelen`
characters. `parse_base64_intern` reads the characters back and skips line breaks in front of them.
`concatHex` and `parseHex` are there as well.

A text is the list of its bytes; a zero follows them in memory. The length of a text is a `size_t`,
and the functions that read one get it as an `int`. A write behind the end of a buffer and a read
behind the terminator are `Fault.undefined`, as is the overflow of an `int`.

* `concatBase64_holds`, `concatHex_holds`: the buffer of the string gets what the text gets.
* `concatBase64_eq`: the text is the groups of six bits of the bytes with the line breaks in between
  (`wrap`), and the padding.
-/

set_option autoImplicit false

namespace Qore.Text

open Qore.Lib
open Qore.Stream (Fault Exception)

/-- The byte of an ASCII character. -/
def byteOf (c : Char) : UInt8 := UInt8.ofNat c.toNat

/-- A property of all bytes below a bound, from finitely many cases. -/
theorem forall_byte_lt {b : Nat} {P : UInt8 → Prop} (h : ∀ n < b, P (UInt8.ofNat n)) (v : UInt8)
    (hv : v.toNat < b) : P v := by
  have hval := h v.toNat hv
  rw [UInt8.ofNat_toNat] at hval
  exact hval

/-- A property of a byte follows from its cases by hexadecimal digits. -/
theorem forall_byte_digits {k : Nat} {P : UInt8 → Prop}
    (h : ∀ a < k, ∀ l < 16, P (UInt8.ofNat (16 * a + l))) (v : UInt8) (hv : v.toNat < 16 * k) :
    P v := by
  have hval := h (v.toNat / 16) (by omega) (v.toNat % 16) (by omega)
  rwa [Nat.div_add_mod, UInt8.ofNat_toNat] at hval

/-! ### Writing -/

/-- A line break, `"\r\n"`. -/
def crlf : List UInt8 := [13, 10]

/-- The character of six bits. -/
def base64Char (url_encode : Bool) (c : UInt8) : UInt8 :=
  let c := table64.getD c.toNat 0
  if url_encode then
    if c = byteOf '+' then byteOf '-'
    else if c = byteOf '/' then byteOf '_'
    else c
  else c

/-- `base64_concat`, on the string and `linelen`. -/
def base64Concat (maxlinelen : Nat) (url_encode : Bool) (st : List UInt8 × Nat) (c : UInt8) :
    List UInt8 × Nat :=
  let (str, linelen) := st
  let str := str ++ [base64Char url_encode c]
  if url_encode then (str, linelen)
  else
    let linelen := linelen + 1
    if 0 < maxlinelen ∧ linelen = maxlinelen then (str ++ crlf, 0) else (str, linelen)

/-- `=` as often as the last group needs it. -/
def padding (url_encode : Bool) (n : Nat) : List UInt8 :=
  if url_encode then [] else List.replicate n (byteOf '=')

/-- The loop of `concatBase64`. -/
def concatGroups (maxlinelen : Nat) (url_encode : Bool) :
    List UInt8 → List UInt8 × Nat → List UInt8
  | [], st => st.1
  | [p0], st =>
    let st := base64Concat maxlinelen url_encode st (p0 >>> 2)
    let c := (p0 &&& 3) <<< 4
    (base64Concat maxlinelen url_encode st c).1 ++ padding url_encode 2
  | [p0, p1], st =>
    let st := base64Concat maxlinelen url_encode st (p0 >>> 2)
    let c := (p0 &&& 3) <<< 4
    let st := base64Concat maxlinelen url_encode st (c ||| p1 >>> 4)
    let c := (p1 &&& 15) <<< 2
    (base64Concat maxlinelen url_encode st c).1 ++ padding url_encode 1
  | p0 :: p1 :: p2 :: p, st =>
    let st := base64Concat maxlinelen url_encode st (p0 >>> 2)
    let c := (p0 &&& 3) <<< 4
    let st := base64Concat maxlinelen url_encode st (c ||| p1 >>> 4)
    let c := (p1 &&& 15) <<< 2
    let st := base64Concat maxlinelen url_encode st (c ||| p2 >>> 6)
    let st := base64Concat maxlinelen url_encode st (p2 &&& 63)
    concatGroups maxlinelen url_encode p st

/-- `qore_string_private::concatBase64`. -/
def concatBase64 (str bbuf : List UInt8) (maxlinelen : Nat) (url_encode : Bool) : List UInt8 :=
  concatGroups maxlinelen url_encode bbuf (str, 0)

/-- `QoreString::concatBase64Url`; the line length is `(size_t)-1`. -/
def concatBase64Url (str bbuf : List UInt8) : List UInt8 :=
  concatBase64 str bbuf (2 ^ 64 - 1) true

/-- `DO_HEX_CHAR`. -/
def hexChar (b : UInt8) : UInt8 := b + if 9 < b then 87 else 48

/-- `QoreString::concatHex`. -/
def concatHex (str binbuf : List UInt8) : List UInt8 :=
  str ++ binbuf.flatMap fun (p : UInt8) => [hexChar ((p &&& 0xf0) >>> 4), hexChar (p &&& 0x0f)]

/-! ### The buffer -/

section
variable {M : Memory UInt8} {s : Str UInt8} {xs : List UInt8}

/-- `concatHex` on the buffer appends the digits. -/
theorem concatHex_holds (h : Holds M s xs) (binbuf : List UInt8) :
    ∃ t, s.concatHex M binbuf = some t ∧ Holds M t (concatHex xs binbuf) := by
  unfold Str.concatHex concatHex
  induction binbuf generalizing s xs with
  | nil => exact ⟨s, rfl, by rwa [List.flatMap_nil, List.append_nil]⟩
  | cons b bs ih =>
    obtain ⟨t1, ht1, hholds1, -⟩ := concatChar_holds h (doHexChar ((b &&& 0xf0) >>> 4))
    obtain ⟨t2, ht2, hholds2, -⟩ := concatChar_holds hholds1 (doHexChar (b &&& 0x0f))
    obtain ⟨t, ht, hholds⟩ := ih hholds2
    refine ⟨t, ?_, ?_⟩
    · simp only [List.foldlM_cons, ht1, ht2, Option.bind_eq_bind, Option.bind_some]
      exact ht
    · rw [List.append_assoc, List.append_assoc] at hholds
      exact hholds

/-- `base64_concat` on the buffer needs one free cell, and appends the character. -/
theorem base64Concat_fills {st : List UInt8 × Nat} (h : Fills s st.1) (hroom : s.len < s.allocated)
    (c : UInt8) (maxlinelen : Nat) (urlEncode : Bool) :
    ∃ t, s.base64Concat M c st.2 maxlinelen urlEncode =
        some (t, (base64Concat maxlinelen urlEncode st c).2) ∧
      Holds M t (base64Concat maxlinelen urlEncode st c).1 := by
  unfold Str.base64Concat base64Concat
  obtain ⟨t, ht, hholds, -⟩ := concatChar_fills (M := M) h hroom (base64Char urlEncode c)
  cases urlEncode with
  | true => exact ⟨t, congrArg (Option.map (·, st.2)) ht, hholds⟩
  | false =>
    dsimp only
    rw [show s.concatChar M (table64.getD c.toNat 0) = some t from ht, if_neg Bool.false_ne_true,
      if_neg Bool.false_ne_true, Option.bind_eq_bind, Option.bind_some]
    split
    · obtain ⟨u, hu, huholds, -⟩ := concatCStr_holds (M := M) hholds.fills crlf
      exact ⟨u, congrArg (Option.map (·, 0)) hu, huholds⟩
    · exact ⟨t, rfl, hholds⟩

theorem Holds.base64Concat {st : List UInt8 × Nat} (h : Holds M s st.1) (c : UInt8)
    (maxlinelen : Nat) (urlEncode : Bool) :
    ∃ t, s.base64Concat M c st.2 maxlinelen urlEncode =
        some (t, (Text.base64Concat maxlinelen urlEncode st c).2) ∧
      Holds M t (Text.base64Concat maxlinelen urlEncode st c).1 :=
  base64Concat_fills h.fills h.lt_allocated c maxlinelen urlEncode

/-- The loop of `concatBase64` on the buffer, from a string that need not end with a zero. -/
theorem base64Loop_fills (maxlinelen : Nat) (urlEncode : Bool) :
    ∀ (p : List UInt8) {s : Str UInt8} {st : List UInt8 × Nat}, Fills s st.1 →
      s.len < s.allocated → (p = [] → Holds M s st.1) →
      ∃ t, Str.base64Loop M maxlinelen urlEncode p s st.2 = some t ∧
        Holds M t (concatGroups maxlinelen urlEncode p st)
  | [], s, _, _, _, hnil => ⟨s, rfl, hnil rfl⟩
  | [p0], s, st, h, hroom, _ => by
    obtain ⟨t1, ht1, h1⟩ := base64Concat_fills (M := M) h hroom (p0 >>> 2) maxlinelen urlEncode
    obtain ⟨t2, ht2, h2⟩ := h1.base64Concat ((p0 &&& 3) <<< 4) maxlinelen urlEncode
    rw [Str.base64Loop, concatGroups]
    simp only [ht1, ht2, Option.bind_eq_bind, Option.bind_some]
    cases urlEncode with
    | true => exact ⟨t2, rfl, by rwa [padding, if_pos rfl, List.append_nil]⟩
    | false =>
      obtain ⟨u, hu, huholds, -⟩ := concatCStr_holds (M := M) h2.fills (ascii "==")
      exact ⟨u, hu, huholds⟩
  | [p0, p1], s, st, h, hroom, _ => by
    obtain ⟨t1, ht1, h1⟩ := base64Concat_fills (M := M) h hroom (p0 >>> 2) maxlinelen urlEncode
    obtain ⟨t2, ht2, h2⟩ := h1.base64Concat ((p0 &&& 3) <<< 4 ||| p1 >>> 4) maxlinelen urlEncode
    obtain ⟨t3, ht3, h3⟩ := h2.base64Concat ((p1 &&& 15) <<< 2) maxlinelen urlEncode
    rw [Str.base64Loop, concatGroups]
    simp only [ht1, ht2, ht3, Option.bind_eq_bind, Option.bind_some]
    cases urlEncode with
    | true => exact ⟨t3, rfl, by rwa [padding, if_pos rfl, List.append_nil]⟩
    | false =>
      obtain ⟨u, hu, huholds, -⟩ := concatChar_holds h3 61
      exact ⟨u, hu, huholds⟩
  | p0 :: p1 :: p2 :: p, s, st, h, hroom, _ => by
    obtain ⟨t1, ht1, h1⟩ := base64Concat_fills (M := M) h hroom (p0 >>> 2) maxlinelen urlEncode
    obtain ⟨t2, ht2, h2⟩ := h1.base64Concat ((p0 &&& 3) <<< 4 ||| p1 >>> 4) maxlinelen urlEncode
    obtain ⟨t3, ht3, h3⟩ := h2.base64Concat ((p1 &&& 15) <<< 2 ||| p2 >>> 6) maxlinelen urlEncode
    obtain ⟨t4, ht4, h4⟩ := h3.base64Concat (p2 &&& 63) maxlinelen urlEncode
    rw [Str.base64Loop, concatGroups]
    simp only [ht1, ht2, ht3, ht4, Option.bind_eq_bind, Option.bind_some]
    exact base64Loop_fills maxlinelen urlEncode p h4.fills h4.lt_allocated fun _ => h4

/-- `concatBase64` on the buffer appends the text. -/
theorem concatBase64_holds (h : Holds M s xs) (bbuf : List UInt8) (maxlinelen : Nat)
    (urlEncode : Bool) : ∃ t, s.concatBase64 M bbuf maxlinelen urlEncode = some t ∧
      Holds M t (concatBase64 xs bbuf maxlinelen urlEncode) :=
  @base64Loop_fills M maxlinelen urlEncode bbuf s (xs, 0) h.fills h.lt_allocated fun _ => h

end

/-! ### Reading -/

/-- `buf[i]`. -/
def charAt (buf : List UInt8) (i : Nat) : Except Fault UInt8 :=
  match (buf ++ [0])[i]? with
  | some c => .ok c
  | none => .error .undefined

/-- `concatASCII`. -/
def asciiText (c : UInt8) : String :=
  let text := "ascii " ++ String.ofList (Decimal.padded 3 c.toNat)
  if 32 ≤ c ∧ c < 127 then
    text ++ " ('" ++ String.ofList [Char.ofNat c.toNat] ++ "')"
  else text

/-- The value of a base64 character. -/
def base64Value (url : Bool) (c : UInt8) : Option UInt8 :=
  if byteOf 'A' ≤ c ∧ c ≤ byteOf 'Z' then some (c - byteOf 'A')
  else if byteOf 'a' ≤ c ∧ c ≤ byteOf 'z' then some (c - byteOf 'a' + 26)
  else if byteOf '0' ≤ c ∧ c ≤ byteOf '9' then some (c - byteOf '0' + 52)
  else if url then
    if c = byteOf '-' then some 62 else if c = byteOf '_' then some 63 else none
  else if c = byteOf '+' then some 62
  else if c = byteOf '/' then some 63
  else none

/-- `c == '\n' || c == '\r'`. -/
def isBreak (c : UInt8) : Bool := c = 10 ∨ c = 13

/-- `get_base64_value`: the value, and the new `offset`. At the end the value is `(char)-1`. -/
def getBase64Value (buf : List UInt8) (offset : Nat) (end_ok url : Bool) :
    Except Fault (UInt8 × Nat) := do
  let offset := offset + ((buf.drop offset).takeWhile isBreak).length
  let c ← charAt buf offset
  match base64Value url c with
  | some v => return (v, offset)
  | none =>
    if c = 0 then
      if end_ok then return (255, offset)
      else .error (.exception ⟨"BASE64-PARSE-ERROR",
        s!"premature end of base64 string at string byte offset {offset}"⟩)
    else if url then .error (.exception ⟨"BASE64-PARSE-ERROR",
      asciiText c ++ " is an invalid base64-url character according to RFC-4648"⟩)
    else .error (.exception ⟨"BASE64-PARSE-ERROR", asciiText c ++ " is an invalid base64 character"⟩)

/-- `binbuf[blen++] = b`, where `binbuf` has `cap` bytes. -/
def putByte (cap : Nat) (binbuf : List UInt8) (b : UInt8) : Except Fault (List UInt8) :=
  if binbuf.length < cap then .ok (binbuf ++ [b]) else .error .undefined

/-- `buf[pos] == '=' || (url && !buf[pos])`. -/
def endsGroup (url : Bool) (special : UInt8) : Bool := special = byteOf '=' ∨ (url ∧ special = 0)

/-- The loop of `parse_base64_intern`. Every pass moves `pos`. -/
def parseGroups (buf : List UInt8) (len cap : Nat) (url : Bool) :
    Nat → Nat → List UInt8 → Except Fault (List UInt8)
  | 0, _, _ => .error .endless
  | fuel + 1, pos, binbuf =>
    if len ≤ pos then .ok binbuf
    else do
      let (b, pos) ← getBase64Value buf pos true url
      if (← charAt buf pos) = 0 then return binbuf
      let (c, pos) ← getBase64Value buf (pos + 1) false url
      let binbuf ← putByte cap binbuf ((b <<< 2) ||| (c >>> 4))
      let pos := pos + 1
      let special ← charAt buf pos
      if endsGroup url special then return binbuf
      let b := (c &&& 15) <<< 4
      let (c, pos) ← getBase64Value buf pos false url
      let binbuf ← putByte cap binbuf (b ||| (c >>> 2))
      let pos := pos + 1
      let special ← charAt buf pos
      if endsGroup url special then return binbuf
      let b := (c &&& 3) <<< 6
      let (c, pos) ← getBase64Value buf pos false url
      let binbuf ← putByte cap binbuf (b ||| c)
      parseGroups buf len cap url fuel (pos + 1) binbuf

/-- `parse_base64_intern`; `len` is an `int`. A buffer that cannot be allocated has no bytes. -/
def parseBase64Intern (buf : List UInt8) (len : Int) (url : Bool) : Except Fault (List UInt8) :=
  if len = 0 then .ok []
  else
    match checkedInt (len + 3) with
    | none => .error .undefined
    | some n => parseGroups buf (toSize len) n.toNat url (buf.length + 1) 0 []

/-- `QoreString::parseBase64`. -/
def parseBase64 (buf : List UInt8) : Except Fault (List UInt8) :=
  parseBase64Intern buf (truncInt buf.length) false

/-- `QoreString::parseBase64Url`. -/
def parseBase64Url (buf : List UInt8) : Except Fault (List UInt8) :=
  parseBase64Intern buf (truncInt buf.length) true

/-- `binary_to_string`: a zero at the end becomes the terminator. -/
def binaryToString (b : List UInt8) : List UInt8 :=
  if b.getLast? = some 0 then b.dropLast else b

/-- `QoreString::parseBase64UrlToString(qe, xsink)`. The encoding only tags the result. -/
def parseBase64UrlToStringAs (buf : List UInt8) : Except Fault (List UInt8) :=
  (parseBase64Url buf).map binaryToString

/-- `QoreString::parseBase64ToString`. -/
def parseBase64ToString (buf : List UInt8) : Except Fault (List UInt8) :=
  (parseBase64 buf).map binaryToString

/-- `QoreString::parseBase64UrlToString(xsink)`, for the default encoding. -/
def parseBase64UrlToString (buf : List UInt8) : Except Fault (List UInt8) :=
  parseBase64ToString buf

/-- `get_nibble`. -/
def getNibble (c : UInt8) : Except Fault UInt8 :=
  if byteOf '0' ≤ c ∧ c ≤ byteOf '9' then .ok (c - 48)
  else if byteOf 'A' ≤ c ∧ c ≤ byteOf 'F' then .ok (c - 55)
  else if byteOf 'a' ≤ c ∧ c ≤ byteOf 'f' then .ok (c - 87)
  else
    let text := String.ofList [Char.ofNat c.toNat]
    .error (.exception ⟨"PARSE-HEX-ERROR", s!"invalid hex digit found '{text}'"⟩)

/-- The loop of `parseHex`, for `n` pairs of digits. -/
def parseNibbles : Nat → List UInt8 → List UInt8 → Except Fault (List UInt8)
  | 0, _, binbuf => .ok binbuf
  | n + 1, b :: l :: buf, binbuf => do
    let b ← getNibble b
    let l ← getNibble l
    parseNibbles n buf (binbuf ++ [(b <<< 4) ||| l])
  | _ + 1, _, _ => .error .undefined

/-- `parseHex`; `len` is an `int`. -/
def parseHexIntern (buf : List UInt8) (len : Int) : Except Fault (List UInt8) :=
  if len = 0 then .ok []
  else if len.tdiv 2 * 2 ≠ len then
    let digits := if len = 1 then "digit" else "digits"
    .error (.exception ⟨"PARSE-HEX-ERROR",
      s!"cannot parse an odd number of hex digits ({len} {digits})"⟩)
  else parseNibbles (len / 2).toNat buf []

/-- `QoreString::parseHex`. -/
def parseHex (buf : List UInt8) : Except Fault (List UInt8) :=
  parseHexIntern buf (truncInt buf.length)

/-! ### Groups of six bits -/

/-- The values that are written for the bytes. -/
def sextets : List UInt8 → List UInt8
  | [] => []
  | [p0] => [p0 >>> 2, (p0 &&& 3) <<< 4]
  | [p0, p1] => [p0 >>> 2, (p0 &&& 3) <<< 4 ||| p1 >>> 4, (p1 &&& 15) <<< 2]
  | p0 :: p1 :: p2 :: p =>
    (p0 >>> 2) :: ((p0 &&& 3) <<< 4 ||| p1 >>> 4) :: ((p1 &&& 15) <<< 2 ||| p2 >>> 6) ::
      (p2 &&& 63) :: sextets p

/-- How many values `n` bytes have. -/
def sextetCount (n : Nat) : Nat := (4 * n + 2) / 3

/-- How many `=` follow the values of `n` bytes. -/
def padCount (n : Nat) : Nat := (3 - n % 3) % 3

theorem length_sextets (data : List UInt8) : (sextets data).length = sextetCount data.length := by
  unfold sextetCount
  fun_induction sextets data with
  | case1 => rfl
  | case2 => simp
  | case3 => simp
  | case4 p0 p1 p2 p ih =>
    simp only [List.length_cons, ih]
    omega

theorem padCount_add_three (n : Nat) : padCount (n + 3) = padCount n := by
  unfold padCount
  omega

/-- What follows the `i`-th character: a line break at the end of a line. -/
def lineBreak (url : Bool) (m i : Nat) : List UInt8 :=
  if url = false ∧ i % m = 0 then crlf else []

/-- The characters of values with line breaks; `i` characters stand before them. -/
def wrap (url : Bool) (m : Nat) : Nat → List UInt8 → List UInt8
  | _, [] => []
  | i, v :: vs => base64Char url v :: (lineBreak url m (i + 1) ++ wrap url m (i + 1) vs)

/-- `i` characters are written, the text is `str`. -/
def Written (url : Bool) (m i : Nat) (st : List UInt8 × Nat) (str : List UInt8) : Prop :=
  st.1 = str ∧ (url = false → st.2 = i % m)

variable {m : Nat}

theorem succ_mod_eq (hm : 0 < m) (i : Nat) :
    (i + 1) % m = if i % m + 1 = m then 0 else i % m + 1 := by
  have hlt := Nat.mod_lt i hm
  have hdiv := Nat.div_add_mod i m
  split
  · rename_i hlast
    -- the last column: the next one starts a line
    have hsucc : i + 1 = m * (i / m + 1) := by
      rw [Nat.mul_add]
      omega
    rw [hsucc, Nat.mul_mod_right]
  · have hsucc : i + 1 = m * (i / m) + (i % m + 1) := by omega
    rw [hsucc, Nat.mul_add_mod, Nat.mod_eq_of_lt (by omega)]

variable {st : List UInt8 × Nat}

theorem Written.step {url : Bool} {i : Nat} (hm : 0 < m) {str : List UInt8}
    (h : Written url m i st str) (c : UInt8) :
    Written url m (i + 1) (base64Concat m url st c)
      (str ++ base64Char url c :: lineBreak url m (i + 1)) := by
  obtain ⟨str', linelen⟩ := st
  obtain ⟨rfl, hcol⟩ := h
  cases url with
  | true => exact ⟨rfl, fun h => (by cases h)⟩
  | false =>
    -- the code counts the column, the text the characters
    have hcol := hcol rfl
    have hsucc := succ_mod_eq hm i
    dsimp only at hcol
    unfold Written base64Concat lineBreak
    dsimp only
    rw [hcol, if_neg (by decide)]
    by_cases hlast : i % m + 1 = m
    · rw [if_pos hlast] at hsucc
      rw [if_pos ⟨hm, hlast⟩, hsucc, if_pos ⟨rfl, rfl⟩]
      exact ⟨List.append_assoc .., fun _ => rfl⟩
    · rw [if_neg hlast] at hsucc
      rw [if_neg fun h => hlast h.2, hsucc, if_neg fun h => Nat.succ_ne_zero _ h.2]
      exact ⟨rfl, fun _ => rfl⟩

/-- The values with line breaks, and the padding. -/
theorem concatGroups_eq {url : Bool} (hm : 0 < m) (data : List UInt8) {i : Nat} {str : List UInt8}
    (h : Written url m i st str) :
    concatGroups m url data st =
      str ++ (wrap url m i (sextets data) ++ padding url (padCount data.length)) := by
  fun_induction sextets data generalizing i st str with
  | case1 =>
    -- whole groups have no padding
    have hpad : padding url 0 = [] := by cases url <;> rfl
    rw [concatGroups, h.1, wrap, List.nil_append]
    exact (congrArg (str ++ ·) hpad).symm ▸ (List.append_nil str).symm
  | case2 p0 =>
    have hlast := (h.step hm (p0 >>> 2)).step hm ((p0 &&& 3) <<< 4)
    rw [concatGroups]
    rw [hlast.1]
    simp [wrap, padCount]
  | case3 p0 p1 =>
    have hlast := ((h.step hm (p0 >>> 2)).step hm ((p0 &&& 3) <<< 4 ||| p1 >>> 4)).step hm
      ((p1 &&& 15) <<< 2)
    rw [concatGroups]
    rw [hlast.1]
    simp [wrap, padCount]
  | case4 p0 p1 p2 p ih =>
    have hgroup := (((h.step hm (p0 >>> 2)).step hm ((p0 &&& 3) <<< 4 ||| p1 >>> 4)).step hm
      ((p1 &&& 15) <<< 2 ||| p2 >>> 6)).step hm (p2 &&& 63)
    rw [concatGroups]
    rw [ih hgroup]
    simp [wrap, padCount_add_three]

/-- What `concatBase64` writes. -/
theorem concatBase64_eq (hm : 0 < m) (url : Bool) (str data : List UInt8) :
    concatBase64 str data m url =
      str ++ (wrap url m 0 (sextets data) ++ padding url (padCount data.length)) :=
  concatGroups_eq hm data ⟨rfl, fun _ => (Nat.zero_mod m).symm⟩

theorem length_wrap_url (m i : Nat) (vs : List UInt8) : (wrap true m i vs).length = vs.length := by
  induction vs generalizing i with
  | nil => rfl
  | cons v vs ih =>
    rw [wrap, List.length_cons, List.length_cons, lineBreak, if_neg (by simp), List.nil_append, ih]

/-- A line break of two characters after every `m` characters. -/
theorem length_wrap (m i : Nat) (vs : List UInt8) :
    (wrap false m i vs).length + 2 * (i / m) = vs.length + 2 * ((i + vs.length) / m) := by
  induction vs generalizing i with
  | nil =>
    show 0 + 2 * (i / m) = 0 + 2 * ((i + 0) / m)
    rw [Nat.add_zero]
  | cons v vs ih =>
    have ih := ih (i + 1)
    have hsucc : (i + 1) / m = i / m + if m ∣ i + 1 then 1 else 0 := Nat.succ_div
    have hend : i + (vs.length + 1) = i + 1 + vs.length := by omega
    rw [wrap, List.length_cons, List.length_append, List.length_cons, hend, lineBreak]
    rw [hsucc] at ih
    by_cases hdvd : m ∣ i + 1
    · rw [if_pos hdvd] at ih
      rw [if_pos ⟨rfl, Nat.mod_eq_zero_of_dvd hdvd⟩]
      show 2 + _ + 1 + _ = _
      omega
    · rw [if_neg hdvd] at ih
      rw [if_neg fun h => hdvd (Nat.dvd_of_mod_eq_zero h.2)]
      show 0 + _ + 1 + _ = _
      omega

end Qore.Text
