import Mathlib
import Qore.Lib.Outcome
import Qore.Text.Base64
import Qore.Text.Utf8

/-!
# `Qore.Text.Uri`: percent encoding of URLs

`concatEncodeUrl` and `concatEncodeUriRequest` write the bytes of a UTF-8 string, some of them as
`%XX`. The second one tells the path, the query and the fragment apart; in the query a space is a
`+`. `concatDecodeUriIntern` reads both.

The strings have no zero byte but the terminator, and the string that is appended to is in UTF-8
too. The length of a character is a `size_t`, so a negative length is a very large one.

* `concatEncode_safe_iff`: when encoding any bytes ends with an exception or with the text of
  exactly these bytes.
-/

set_option autoImplicit false

namespace Qore.Text

open Qore.Lib Qore.Lib.Words
open Qore.Stream (Fault Exception)

/-! ### Encoding -/

/-- A digit of `%X`. -/
def upperHex (n : Nat) : UInt8 := if n < 10 then UInt8.ofNat (48 + n) else UInt8.ofNat (55 + n)

/-- `sprintf("%%%X", (unsigned)b)`. -/
def percent (b : UInt8) : List UInt8 :=
  if b.toNat < 16 then [byteOf '%', upperHex b.toNat]
  else [byteOf '%', upperHex (b.toNat / 16), upperHex (b.toNat % 16)]

/-- `for (size_t i = 0; i < len; ++i) sprintf("%%%X", (unsigned)p[i]);` on the bytes of the memory
from `p` on. -/
def percentRun : Nat → List UInt8 → Except Fault (List UInt8)
  | 0, _ => .ok []
  | len + 1, b :: p => do
    let text ← percentRun len p
    return percent b ++ text
  | _ + 1, [] => .error .undefined

/-- The character at `p` as `%XX`, and what follows it. `len` is a `size_t`. -/
def percentChar (desc : String) (p : List UInt8) : Except Fault (List UInt8 × List UInt8) := do
  let len := toSize (charLen p)
  if len = 0 then .error (.exception ⟨"INVALID-ENCODING", desc⟩)
  let text ← percentRun len (p ++ [0])
  return (text, p.drop len)

/-- `url_reserved`. -/
def urlReserved : List UInt8 := "!*'();:@&=+$,/?#[]%'".toList.map byteOf

/-- The loop of `concatEncodeUrl`, on the bytes of the string from `p` on. -/
def encodeUrlLoop (encode_all : Bool) : Nat → List UInt8 → List UInt8 → Except Fault (List UInt8)
  | 0, _, _ => .error .endless
  | _ + 1, [], str => .ok str
  | fuel + 1, b :: p, str =>
    if b = 0 then .ok str
    else if b = byteOf '%' then encodeUrlLoop encode_all fuel p (str ++ "%25".toList.map byteOf)
    else if b = byteOf ' ' then encodeUrlLoop encode_all fuel p (str ++ "%20".toList.map byteOf)
    else if 127 < b then do
      let (text, p) ← percentChar "invalid UTF-8 encoding found in string" (b :: p)
      encodeUrlLoop encode_all fuel p (str ++ text)
    else if encode_all ∧ b ∈ urlReserved then encodeUrlLoop encode_all fuel p (str ++ percent b)
    else encodeUrlLoop encode_all fuel p (str ++ [b])

/-- `QoreString::concatEncodeUrl`. -/
def concatEncodeUrl (str url : List UInt8) (encode_all : Bool) : Except Fault (List UInt8) :=
  if url.length = 0 then .ok str else encodeUrlLoop encode_all (url.length + 1) url str

/-- `QUS_PATH`, `QUS_QUERY` and `QUS_FRAGMENT`. -/
inductive Qus where
  | path
  | query
  | fragment
  deriving DecidableEq

/-- The loop of `qore_string_private::concatEncodeUriRequest`, on the bytes of the string from `p`
on. `asserts` tells whether assertions are compiled. -/
def encodeUriLoop (asserts : Bool) :
    Nat → List UInt8 → Qus → List UInt8 → Except Fault (List UInt8)
  | 0, _, _, _ => .error .endless
  | _ + 1, [], _, str => .ok str
  | fuel + 1, b :: p, state, str =>
    if b = 0 then .ok str
    else if b = byteOf '%' then encodeUriLoop asserts fuel p state (str ++ "%25".toList.map byteOf)
    else if 127 < b then do
      let (text, p) ← percentChar "invalid UTF-8 getEncoding() found in string" (b :: p)
      encodeUriLoop asserts fuel p state (str ++ text)
    else
      match state with
      | .path =>
        if b = byteOf '?' then encodeUriLoop asserts fuel p .query (str ++ [b])
        else if b = byteOf '#' then encodeUriLoop asserts fuel p .fragment (str ++ [b])
        else if b = byteOf ' ' then
          encodeUriLoop asserts fuel p state (str ++ "%20".toList.map byteOf)
        else encodeUriLoop asserts fuel p state (str ++ [b])
      | .query =>
        if b = byteOf ' ' then encodeUriLoop asserts fuel p state (str ++ [byteOf '+'])
        else if b = byteOf '+' then
          encodeUriLoop asserts fuel p state (str ++ "%2b".toList.map byteOf)
        else encodeUriLoop asserts fuel p state (str ++ [b])
      | .fragment =>
        -- `assert(state == QUS_PATH)`
        if asserts then .error .assertion
        else if b = byteOf ' ' then
          encodeUriLoop asserts fuel p state (str ++ "%20".toList.map byteOf)
        else encodeUriLoop asserts fuel p state (str ++ [b])

/-- `QoreString::concatEncodeUriRequest`. -/
def concatEncodeUriRequest (asserts : Bool) (str url : List UInt8) : Except Fault (List UInt8) :=
  if url.length = 0 then .ok str else encodeUriLoop asserts (url.length + 1) url .path str

/-! ### Decoding -/

/-- The value of a hexadecimal digit; `none` unless `isxdigit`. -/
def xdigit (c : UInt8) : Option Nat :=
  if byteOf '0' ≤ c ∧ c ≤ byteOf '9' then some (c.toNat - 48)
  else if byteOf 'A' ≤ c ∧ c ≤ byteOf 'F' then some (c.toNat - 55)
  else if byteOf 'a' ≤ c ∧ c ≤ byteOf 'f' then some (c.toNat - 87)
  else none

/-- `getHex`: the value of `%XX`, and what follows. -/
def getHex : List UInt8 → Option (UInt8 × List UInt8)
  | c :: h :: l :: p =>
    if c = byteOf '%' then
      match xdigit h, xdigit l with
      | some h, some l => some (UInt8.ofNat (16 * h + l), p)
      | _, _ => none
    else none
  | _ => none

/-- A `URL-ENCODING-ERROR`. -/
def urlError (desc : String) : Fault := .exception ⟨"URL-ENCODING-ERROR", desc⟩

/-- A character of several bytes, of which the first one is `x1`: all bytes, and what follows. -/
def decodeMulti (x1 : UInt8) (url : List UInt8) : Except Fault (List UInt8 × List UInt8) :=
  match getHex url with
  | none => .error (urlError ("percent encoding indicated a multi-byte UTF-8 character but only " ++
      "one byte was provided"))
  | some (x2, url) =>
    if bits x1 0x20 ≠ 0 then
      match getHex url with
      | none =>
        let count := if bits x1 0x10 ≠ 0 then "four" else "three"
        .error (urlError (s!"percent encoding indicated a {count}-byte UTF-8 character but only " ++
          "two bytes were provided"))
      | some (x3, url) =>
        if bits x1 0x10 ≠ 0 then
          match getHex url with
          | none => .error (urlError ("percent encoding indicated a four-byte UTF-8 character " ++
              "but only three bytes were provided"))
          | some (x4, url) =>
            if ¬(bits x2 0x80 ≠ 0 ∧ bits x3 0x80 ≠ 0 ∧ bits x4 0x80 ≠ 0) then
              .error (urlError "percent encoding gave an invalid four-byte UTF-8 character")
            else .ok ([x1, x2, x3, x4], url)
        else if ¬(bits x2 0x80 ≠ 0 ∧ bits x3 0x80 ≠ 0) then
          .error (urlError "percent encoding gave an invalid three-byte UTF-8 character")
        else .ok ([x1, x2, x3], url)
    else if ¬bits x2 0x80 ≠ 0 then
      .error (urlError "percent encoding gave an invalid two-byte UTF-8 character")
    else .ok ([x1, x2], url)

/-- The loop of `concatDecodeUriIntern`, on the bytes of the string from `url` on. -/
def decodeUriLoop (detect_query : Bool) :
    Nat → List UInt8 → Bool → List UInt8 → Except Fault (List UInt8)
  | 0, _, _, _ => .error .endless
  | _ + 1, [], _, str => .ok str
  | fuel + 1, c :: url, in_query, str =>
    if c = 0 then .ok str
    else
      match getHex (c :: url) with
      | some (x1, url) =>
        if bits x1 0xc0 = 0xc0 then do
          let (text, url) ← decodeMulti x1 url
          decodeUriLoop detect_query fuel url in_query (str ++ text)
        else decodeUriLoop detect_query fuel url in_query (str ++ [x1])
      | none =>
        if detect_query then
          if !in_query then
            decodeUriLoop detect_query fuel url (c = byteOf '?') (str ++ [c])
          else if c = byteOf '+' then
            decodeUriLoop detect_query fuel url in_query (str ++ [byteOf ' '])
          else decodeUriLoop detect_query fuel url (c ≠ byteOf '#') (str ++ [c])
        else decodeUriLoop detect_query fuel url in_query (str ++ [c])

/-- `concatDecodeUriIntern`. -/
def concatDecodeUriIntern (str url : List UInt8) (detect_query : Bool) :
    Except Fault (List UInt8) :=
  decodeUriLoop detect_query (url.length + 1) url false str

/-- `QoreString::concatDecodeUrl`. -/
def concatDecodeUrl (str url : List UInt8) : Except Fault (List UInt8) :=
  concatDecodeUriIntern str url false

/-- `QoreString::concatDecodeUriRequest`. -/
def concatDecodeUriRequest (str url : List UInt8) : Except Fault (List UInt8) :=
  concatDecodeUriIntern str url true

/-! ### The character at a position -/

theorem percentRun_append (w rest : List UInt8) :
    percentRun w.length (w ++ rest) = .ok (w.flatMap percent) := by
  induction w with
  | nil => rfl
  | cons b w ih =>
    rw [List.length_cons, List.cons_append, percentRun, ih]
    rfl

/-- A run over more bytes than there are. -/
theorem percentRun_of_lt {len : Nat} {p : List UInt8} (h : p.length < len) :
    percentRun len p = .error .undefined := by
  induction len generalizing p with
  | zero => cases h
  | succ len ih =>
    cases p with
    | nil => rfl
    | cons b p =>
      rw [percentRun, ih (by simpa using h)]
      rfl

variable {b : UInt8}

theorem lt_of_bits (h : bits b 0x80 ≠ 0) : 127 < b := (bits_high_iff b).1 h

theorem high_of_lead (h : bits b 0xc0 = 0xc0) : 127 < b := by
  exact Nat.lt_of_lt_of_le (by decide) (le_of_bits h)

theorem ne_of_high {c : UInt8} (hb : 127 < b) (hc : c ≤ 127) : b ≠ c := by
  rintro rfl
  exact absurd hb (UInt8.not_lt.mpr hc)

/-- An ASCII byte is a character. -/
theorem scans_ascii (hb : b ≤ 127) : Scans charLen [b] := by
  have hlead : bits b 0xc0 ≠ 0xc0 := fun h => absurd (high_of_lead h) (UInt8.not_lt.mpr hb)
  exact ⟨by simp, fun rest => by simp [charLen, hlead]⟩

/-- The cases of `q_UTF8_get_char_len`: a character, an error, or the text ends in the middle of a
character. -/
theorem charLen_cases (b : UInt8) (p : List UInt8) :
    (∃ w rest, b :: p = w ++ rest ∧ Scans charLen w ∧
      (w = [b] ∨ 127 < b ∧ ∀ x ∈ w, 127 < x)) ∨
    (127 < b ∧ charLen (b :: p) = 0) ∨
    (127 < b ∧ p.length < 3 ∧ -4 ≤ charLen (b :: p) ∧ charLen (b :: p) < 0) := by
  by_cases h1 : bits b 0xc0 = 0xc0
  · have hb := high_of_lead h1
    by_cases h2 : bits b 0x20 ≠ 0
    · by_cases h3 : bits b 0x10 ≠ 0
      · rcases p with _ | ⟨b1, _ | ⟨b2, _ | ⟨b3, rest⟩⟩⟩
        · exact .inr (.inr ⟨hb, by simp [charLen, h1, h2, h3]⟩)
        · exact .inr (.inr ⟨hb, by simp [charLen, h1, h2, h3]⟩)
        · exact .inr (.inr ⟨hb, by simp [charLen, h1, h2, h3]⟩)
        · by_cases h4 : bits b1 0x80 ≠ 0 ∧ bits b2 0x80 ≠ 0 ∧ bits b3 0x80 ≠ 0
          · refine .inl ⟨[b, b1, b2, b3], rest, rfl, ⟨by simp, fun _ => ?_⟩, .inr ⟨hb, ?_⟩⟩
            · simp [charLen, h1, h2, h3, h4]
            · simp [hb, lt_of_bits h4.1, lt_of_bits h4.2.1, lt_of_bits h4.2.2]
          · refine .inr (.inl ⟨hb, ?_⟩)
            simp only [charLen, if_pos h1, if_pos h2, if_pos h3, if_neg h4]
      · rcases p with _ | ⟨b1, _ | ⟨b2, rest⟩⟩
        · exact .inr (.inr ⟨hb, by simp [charLen, h1, h2, not_not.mp h3]⟩)
        · exact .inr (.inr ⟨hb, by simp [charLen, h1, h2, not_not.mp h3]⟩)
        · by_cases h4 : bits b1 0x80 ≠ 0 ∧ bits b2 0x80 ≠ 0
          · refine .inl ⟨[b, b1, b2], rest, rfl, ⟨by simp, fun _ => ?_⟩, .inr ⟨hb, ?_⟩⟩
            · simp [charLen, h1, h2, not_not.mp h3, h4]
            · simp [hb, lt_of_bits h4.1, lt_of_bits h4.2]
          · refine .inr (.inl ⟨hb, ?_⟩)
            simp only [charLen, if_pos h1, if_pos h2, if_neg h3, if_neg h4]
    · cases p with
      | nil => exact .inr (.inr ⟨hb, by simp [charLen, h1, not_not.mp h2]⟩)
      | cons b1 rest =>
        by_cases h4 : bits b1 0x80 ≠ 0
        · refine .inl ⟨[b, b1], rest, rfl, ⟨by simp, fun _ => ?_⟩, .inr ⟨hb, ?_⟩⟩
          · simp [charLen, h1, not_not.mp h2, h4]
          · simp [hb, lt_of_bits h4]
        · refine .inr (.inl ⟨hb, ?_⟩)
          simp only [charLen, if_pos h1, if_neg h2, if_neg h4]
  · refine .inl ⟨[b], p, rfl, ⟨by simp, fun _ => ?_⟩, .inl rfl⟩
    simp [charLen, h1]

variable {w : List UInt8} (desc : String)

/-- A character is encoded byte by byte. -/
theorem percentChar_append (hw : Scans charLen w) (rest : List UInt8) :
    percentChar desc (w ++ rest) = .ok (w.flatMap percent, rest) := by
  have hpos := hw.pos
  have hsize : toSize (charLen (w ++ rest)) = w.length := by
    rw [hw.next_append, toSize_of_nonneg (by omega), Int.toNat_natCast]
  unfold percentChar
  rw [hsize, if_neg (by omega), List.append_assoc, percentRun_append, List.drop_left]
  rfl

variable {p : List UInt8} (pre : List UInt8) (encode_all : Bool) {r : Except Fault (List UInt8)}

theorem percentChar_invalid (h : charLen p = 0) :
    percentChar desc p = .error (.exception ⟨"INVALID-ENCODING", desc⟩) := by
  unfold percentChar
  rw [h]
  rfl

/-- A negative length is a run far beyond the terminator. -/
theorem percentChar_truncated (hp : p.length < 4) (h1 : -4 ≤ charLen p) (h2 : charLen p < 0) :
    percentChar desc p = .error .undefined := by
  have hsize : p.length + 1 < toSize (charLen p) := by
    unfold toSize
    split <;> omega
  unfold percentChar
  rw [if_neg (by omega), percentRun_of_lt (by simpa using hsize)]
  rfl

/-! ### The text that is written -/

/-- A question mark or a hash sign. -/
def isDelim (b : UInt8) : Bool := b = byteOf '?' || b = byteOf '#'

/-- The first question mark or hash sign. -/
def firstDelim (pre : List UInt8) : Option UInt8 := pre.find? isDelim

/-- The part of the URI that the first delimiter starts. -/
def Qus.ofDelim : Option UInt8 → Qus
  | none => .path
  | some b => if b = byteOf '?' then .query else .fragment

/-- The part after another byte. -/
def Qus.next (q : Qus) (b : UInt8) : Qus :=
  match q with
  | .path => if b = byteOf '?' then .query else if b = byteOf '#' then .fragment else .path
  | q => q

/-- The text that `concatEncodeUrl` writes for a byte. -/
def urlPiece (encode_all : Bool) (b : UInt8) : List UInt8 :=
  if 127 < b ∨ b = byteOf '%' ∨ b = byteOf ' ' ∨ encode_all = true ∧ b ∈ urlReserved then percent b
  else [b]

/-- The text that `concatEncodeUriRequest` writes for a byte. -/
def uriPiece (q : Qus) (b : UInt8) : List UInt8 :=
  if 127 < b ∨ b = byteOf '%' then percent b
  else if b = byteOf ' ' then (if q = .query then [byteOf '+'] else percent b)
  else if q = .query ∧ b = byteOf '+' then "%2b".toList.map byteOf
  else [b]

/-- The text that `concatEncodeUriRequest` writes for a string. -/
def uriText : Qus → List UInt8 → List UInt8
  | _, [] => []
  | q, b :: p => uriPiece q b ++ uriText (q.next b) p

theorem ofDelim_append (b : UInt8) :
    Qus.ofDelim (firstDelim (pre ++ [b])) = (Qus.ofDelim (firstDelim pre)).next b := by
  unfold firstDelim
  rw [List.find?_append]
  cases hpre : pre.find? isDelim with
  | none =>
    -- the byte is the first delimiter, or there is none yet
    by_cases h1 : b = byteOf '?'
    · subst h1; decide
    by_cases h2 : b = byteOf '#'
    · subst h2; decide
    simp [isDelim, Qus.ofDelim, Qus.next, h1, h2]
  | some d =>
    rw [Option.some_or]
    unfold Qus.ofDelim Qus.next
    dsimp only
    split <;> rfl

theorem next_of_high {q : Qus} (hb : 127 < b) : q.next b = q := by
  have h1 : b ≠ byteOf '?' := ne_of_high hb (by decide)
  have h2 : b ≠ byteOf '#' := ne_of_high hb (by decide)
  cases q <;> simp [Qus.next, h1, h2]

theorem ofDelim_append_high (hw : ∀ x ∈ w, 127 < x) :
    Qus.ofDelim (firstDelim (pre ++ w)) = Qus.ofDelim (firstDelim pre) := by
  induction w generalizing pre with
  | nil => rw [List.append_nil]
  | cons b w ih =>
    rw [← List.singleton_append, ← List.append_assoc,
      ih _ fun x hx => hw x (List.mem_cons_of_mem b hx), ofDelim_append,
      next_of_high (hw b List.mem_cons_self)]

theorem uriText_append_high (q : Qus) (hw : ∀ x ∈ w, 127 < x) (p : List UInt8) :
    uriText q (w ++ p) = w.flatMap percent ++ uriText q p := by
  induction w with
  | nil => rfl
  | cons b w ih =>
    have hb := hw b List.mem_cons_self
    rw [List.cons_append, uriText, next_of_high hb, ih fun x hx => hw x (List.mem_cons_of_mem b hx),
      List.flatMap_cons, List.append_assoc]
    simp [uriPiece, hb]

theorem urlText_append_high (hw : ∀ x ∈ w, 127 < x) (p : List UInt8) :
    (w ++ p).flatMap (urlPiece encode_all) =
      w.flatMap percent ++ p.flatMap (urlPiece encode_all) := by
  rw [List.flatMap_append]
  congr 1
  refine List.flatMap_congr fun b hb => ?_
  simp [urlPiece, hw b hb]

/-! ### The loops, one character -/

section
variable {encode_all asserts : Bool} {fuel : Nat} {q : Qus} {b : UInt8} {w p str : List UInt8}

theorem encodeUrlLoop_char (hw : Scans charLen w) (hhigh : ∀ x ∈ w, 127 < x) :
    encodeUrlLoop encode_all (fuel + 1) (w ++ p) str =
      encodeUrlLoop encode_all fuel p (str ++ w.flatMap percent) := by
  obtain ⟨b, w', rfl⟩ : ∃ b w', w = b :: w' := List.exists_cons_of_length_pos hw.pos
  have hb : 127 < b := hhigh b List.mem_cons_self
  have h0 : b ≠ 0 := ne_of_high hb (by decide)
  have h1 : b ≠ byteOf '%' := ne_of_high hb (by decide)
  have h2 : b ≠ byteOf ' ' := ne_of_high hb (by decide)
  rw [List.cons_append, encodeUrlLoop, if_neg h0, if_neg h1, if_neg h2, if_pos hb,
    ← List.cons_append, percentChar_append _ hw]
  rfl

theorem encodeUrlLoop_ascii (h0 : b ≠ 0) (hb : ¬127 < b) :
    encodeUrlLoop encode_all (fuel + 1) (b :: p) str =
      encodeUrlLoop encode_all fuel p (str ++ urlPiece encode_all b) := by
  rw [encodeUrlLoop, if_neg h0]
  unfold urlPiece
  by_cases h1 : b = byteOf '%'
  · subst h1
    rfl
  by_cases h2 : b = byteOf ' '
  · subst h2
    rfl
  rw [if_neg h1, if_neg h2, if_neg hb]
  simp only [hb, h1, h2, false_or]
  split <;> rfl

theorem encodeUriLoop_char (hw : Scans charLen w) (hhigh : ∀ x ∈ w, 127 < x) :
    encodeUriLoop asserts (fuel + 1) (w ++ p) q str =
      encodeUriLoop asserts fuel p q (str ++ w.flatMap percent) := by
  obtain ⟨b, w', rfl⟩ : ∃ b w', w = b :: w' := List.exists_cons_of_length_pos hw.pos
  have hb : 127 < b := hhigh b List.mem_cons_self
  have h0 : b ≠ 0 := ne_of_high hb (by decide)
  have h1 : b ≠ byteOf '%' := ne_of_high hb (by decide)
  rw [List.cons_append, encodeUriLoop.eq_def]
  dsimp only
  rw [if_neg h0, if_neg h1, if_pos hb, ← List.cons_append, percentChar_append _ hw]
  rfl

/-- The bytes at which the assertion fails: all but `%` in the fragment. -/
theorem encodeUriLoop_assertion (h0 : b ≠ 0) (hb : ¬127 < b) (h1 : b ≠ byteOf '%') :
    encodeUriLoop true (fuel + 1) (b :: p) .fragment str = .error .assertion := by
  rw [encodeUriLoop.eq_def]
  dsimp only
  rw [if_neg h0, if_neg h1, if_neg hb]
  rfl

theorem encodeUriLoop_ascii (h0 : b ≠ 0) (hb : ¬127 < b)
    (h : asserts = true → q = .fragment → b = byteOf '%') :
    encodeUriLoop asserts (fuel + 1) (b :: p) q str =
      encodeUriLoop asserts fuel p (q.next b) (str ++ uriPiece q b) := by
  rw [encodeUriLoop.eq_def]
  dsimp only
  rw [if_neg h0]
  unfold uriPiece
  by_cases h1 : b = byteOf '%'
  · subst h1
    cases q <;> rfl
  have hraw : ¬(127 < b ∨ b = byteOf '%') := by simp [hb, h1]
  rw [if_neg h1, if_neg hb, if_neg hraw]
  cases q with
  | path =>
    by_cases h2 : b = byteOf '?'
    · subst h2
      rfl
    by_cases h3 : b = byteOf '#'
    · subst h3
      rfl
    by_cases h4 : b = byteOf ' '
    · subst h4
      rfl
    · simp [Qus.next, h2, h3, h4]
  | query =>
    by_cases h4 : b = byteOf ' '
    · subst h4
      rfl
    by_cases h5 : b = byteOf '+'
    · subst h5
      rfl
    · simp [h4, h5, Qus.next]
  | fragment =>
    -- the assertion is not compiled
    have ha : asserts = false := by
      cases asserts with
      | false => rfl
      | true => exact absurd (h rfl rfl) h1
    subst ha
    by_cases h4 : b = byteOf ' '
    · subst h4
      rfl
    · simp [h4, Qus.next]

end

/-! ### Encoding any bytes -/

/-- Where encoding goes wrong, after `pre` and before `p`: the text ends in the middle of a
character, or the assertion about the fragment fails. -/
def Derails (asserts : Bool) (pre p : List UInt8) : Prop :=
  charLen p < 0 ∨ asserts = true ∧ firstDelim pre = some (byteOf '#') ∧
    ∃ b p', p = b :: p' ∧ b ≤ 127 ∧ b ≠ byteOf '%'

theorem ofDelim_eq_fragment_iff :
    Qus.ofDelim (firstDelim pre) = .fragment ↔ firstDelim pre = some (byteOf '#') := by
  cases hpre : firstDelim pre with
  | none => simp [Qus.ofDelim]
  | some d =>
    have hd : isDelim d = true := List.find?_some hpre
    by_cases h1 : d = byteOf '?'
    · subst h1
      decide
    · have h2 : d = byteOf '#' := by simpa [isDelim, h1] using hd
      subst h2
      decide

/-- A character is malformed. -/
def Malformed (_ p : List UInt8) : Prop := charLen p = 0

/-- A result of encoding: something went wrong, or there is an exception or the text. -/
def EncodeOutcome (wrong malformed : Prop) (r : Except Fault (List UInt8))
    (text : List UInt8) : Prop :=
  wrong ∧ (r = .error .undefined ∨ r = .error .assertion) ∨
    ¬wrong ∧ (malformed ∧ (∃ desc, r = .error (.exception ⟨"INVALID-ENCODING", desc⟩)) ∨
      r = .ok text)

theorem EncodeOutcome.congr {wrong wrong' malformed malformed' : Prop} {text text' : List UInt8}
    (h : EncodeOutcome wrong malformed r text) (hwrong : wrong' ↔ wrong)
    (hmalformed : malformed → malformed') (htext : text = text') :
    EncodeOutcome wrong' malformed' r text' := by
  subst htext
  rw [hwrong]
  rcases h with h | ⟨h, ⟨hm, hr⟩ | hr⟩
  · exact .inl h
  · exact .inr ⟨h, .inl ⟨hmalformed hm, hr⟩⟩
  · exact .inr ⟨h, .inr hr⟩

theorem not_derails_of_high {asserts : Bool} {pre : List UInt8} (hb : 127 < b)
    (hlen : 0 ≤ charLen (b :: p)) : ¬Derails asserts pre (b :: p) := by
  rintro (h | ⟨-, -, c, p', heq, hc, -⟩)
  · omega
  · cases heq
    exact absurd hb (UInt8.not_lt.mpr hc)

theorem encodeUrlLoop_outcome (fuel : Nat) : ∀ pre p str : List UInt8, p.length < fuel → 0 ∉ p →
    EncodeOutcome (Reaches charLen (Derails false) pre p) (Reaches charLen Malformed pre p)
      (encodeUrlLoop encode_all fuel p str) (str ++ p.flatMap (urlPiece encode_all)) := by
  induction fuel with
  | zero => intro pre p str hfuel; omega
  | succ fuel ih =>
    intro pre p str hfuel hzero
    cases p with
    | nil =>
      refine .inr ⟨?_, .inr (by simp [encodeUrlLoop])⟩
      rw [reaches_of_nonpos (.inl rfl)]
      simp [Derails, charLen]
    | cons b p =>
      have h0 : b ≠ 0 := fun h => hzero (by simp [h])
      rcases charLen_cases b p with ⟨w, rest, heq, hw, hbytes⟩ | ⟨hb, hlen⟩ | ⟨hb, hshort, h1, h2⟩
      · have hpos := hw.pos
        have hrest : rest.length < fuel := by
          have := congrArg List.length heq
          simp only [List.length_cons, List.length_append] at this hfuel
          omega
        have hzero' : 0 ∉ rest := fun h => hzero (by rw [heq]; exact List.mem_append_right w h)
        have hhere : ¬Derails false pre (w ++ rest) := by
          rintro (h | ⟨h, -⟩)
          · rw [hw.next_append] at h
            omega
          · cases h
        have hreach : Reaches charLen (Derails false) pre (w ++ rest) ↔
            Reaches charLen (Derails false) (pre ++ w) rest := by
          rw [reaches_append hw, or_iff_right hhere]
        have hmalformed (h : Reaches charLen Malformed (pre ++ w) rest) :
            Reaches charLen Malformed pre (w ++ rest) := (reaches_append hw rest).mpr (.inr h)
        by_cases hb : 127 < b
        · have hhigh : ∀ x ∈ w, 127 < x := by
            rcases hbytes with rfl | ⟨-, hhigh⟩
            · simpa using hb
            · exact hhigh
          rw [heq, encodeUrlLoop_char hw hhigh]
          refine (ih (pre ++ w) rest _ hrest hzero').congr hreach hmalformed ?_
          rw [urlText_append_high encode_all hhigh, List.append_assoc]
        · obtain rfl : w = [b] := by
            rcases hbytes with h | ⟨hb', -⟩
            · exact h
            · exact absurd hb' hb
          obtain rfl : p = rest := List.cons.inj heq |>.2
          rw [encodeUrlLoop_ascii h0 hb]
          refine (ih (pre ++ [b]) p _ hrest hzero').congr hreach hmalformed ?_
          rw [List.flatMap_cons, List.append_assoc]
      · -- no character starts here
        refine .inr ⟨?_, .inl ⟨Reaches.here hlen, "invalid UTF-8 encoding found in string", ?_⟩⟩
        · rw [reaches_of_nonpos (.inr (by omega))]
          exact not_derails_of_high hb (by omega)
        · have h1 : b ≠ byteOf '%' := ne_of_high hb (by decide)
          have h2 : b ≠ byteOf ' ' := ne_of_high hb (by decide)
          rw [encodeUrlLoop, if_neg h0, if_neg h1, if_neg h2, if_pos hb,
            percentChar_invalid _ hlen]
          rfl
      · refine .inl ⟨Reaches.here (.inl h2), .inl ?_⟩
        have h3 : b ≠ byteOf '%' := ne_of_high hb (by decide)
        have h4 : b ≠ byteOf ' ' := ne_of_high hb (by decide)
        rw [encodeUrlLoop, if_neg h0, if_neg h3, if_neg h4, if_pos hb,
          percentChar_truncated (p := b :: p) _ (Nat.succ_lt_succ hshort) h1 h2]
        rfl

theorem encodeUriLoop_outcome (asserts : Bool) (fuel : Nat) : ∀ pre p str : List UInt8, p.length < fuel → 0 ∉ p →
    EncodeOutcome (Reaches charLen (Derails asserts) pre p) (Reaches charLen Malformed pre p)
      (encodeUriLoop asserts fuel p (Qus.ofDelim (firstDelim pre)) str)
      (str ++ uriText (Qus.ofDelim (firstDelim pre)) p) := by
  induction fuel with
  | zero => intro pre p str hfuel; omega
  | succ fuel ih =>
    intro pre p str hfuel hzero
    cases p with
    | nil =>
      refine .inr ⟨?_, .inr (by simp [encodeUriLoop, uriText])⟩
      rw [reaches_of_nonpos (.inl rfl)]
      simp [Derails, charLen]
    | cons b p =>
      have h0 : b ≠ 0 := fun h => hzero (by simp [h])
      rcases charLen_cases b p with ⟨w, rest, heq, hw, hbytes⟩ | ⟨hb, hlen⟩ | ⟨hb, hshort, h1, h2⟩
      · have hpos := hw.pos
        have hrest : rest.length < fuel := by
          have := congrArg List.length heq
          simp only [List.length_cons, List.length_append] at this hfuel
          omega
        have hzero' : 0 ∉ rest := fun h => hzero (by rw [heq]; exact List.mem_append_right w h)
        have hreach (hhere : ¬Derails asserts pre (w ++ rest)) :
            Reaches charLen (Derails asserts) pre (w ++ rest) ↔
              Reaches charLen (Derails asserts) (pre ++ w) rest := by
          rw [reaches_append hw, or_iff_right hhere]
        have hmalformed (h : Reaches charLen Malformed (pre ++ w) rest) :
            Reaches charLen Malformed pre (w ++ rest) := (reaches_append hw rest).mpr (.inr h)
        by_cases hb : 127 < b
        · have hhigh : ∀ x ∈ w, 127 < x := by
            rcases hbytes with rfl | ⟨-, hhigh⟩
            · simpa using hb
            · exact hhigh
          have hhere : ¬Derails asserts pre (w ++ rest) := by
            rw [← heq]
            refine not_derails_of_high hb ?_
            rw [heq, hw.next_append]
            omega
          rw [heq, encodeUriLoop_char hw hhigh, uriText_append_high _ hhigh, ← List.append_assoc]
          have hrun := ih (pre ++ w) rest (str ++ w.flatMap percent) hrest hzero'
          rw [ofDelim_append_high pre hhigh] at hrun
          exact hrun.congr (hreach hhere) hmalformed rfl
        · obtain rfl : w = [b] := by
            rcases hbytes with h | ⟨hb', -⟩
            · exact h
            · exact absurd hb' hb
          obtain rfl : p = rest := List.cons.inj heq |>.2
          by_cases hassert : asserts = true ∧ firstDelim pre = some (byteOf '#') ∧ b ≠ byteOf '%'
          · obtain ⟨rfl, hdelim, hne⟩ := hassert
            refine .inl ⟨Reaches.here (.inr ⟨rfl, hdelim, b, p, rfl, UInt8.not_lt.mp hb, hne⟩),
              .inr ?_⟩
            rw [(ofDelim_eq_fragment_iff pre).mpr hdelim, encodeUriLoop_assertion h0 hb hne]
          · have hhere : ¬Derails asserts pre ([b] ++ p) := by
              rintro (h | ⟨ha, hdelim, c, p', hc, -, hne⟩)
              · rw [hw.next_append] at h
                omega
              · cases hc
                exact hassert ⟨ha, hdelim, hne⟩
            have hstep : asserts = true → Qus.ofDelim (firstDelim pre) = .fragment →
                b = byteOf '%' := by
              intro ha hq
              by_contra hne
              exact hassert ⟨ha, (ofDelim_eq_fragment_iff pre).mp hq, hne⟩
            rw [encodeUriLoop_ascii h0 hb hstep, uriText, ← List.append_assoc, ← ofDelim_append]
            exact (ih (pre ++ [b]) p _ hrest hzero').congr (hreach hhere) hmalformed rfl
      · refine .inr ⟨?_, .inl ⟨Reaches.here hlen, "invalid UTF-8 getEncoding() found in string",
          ?_⟩⟩
        · rw [reaches_of_nonpos (.inr (by omega))]
          exact not_derails_of_high hb (by omega)
        · have h1 : b ≠ byteOf '%' := ne_of_high hb (by decide)
          rw [encodeUriLoop.eq_def]
          dsimp only
          rw [if_neg h0, if_neg h1, if_pos hb, percentChar_invalid _ hlen]
          rfl
      · refine .inl ⟨Reaches.here (.inl h2), .inl ?_⟩
        have h3 : b ≠ byteOf '%' := ne_of_high hb (by decide)
        rw [encodeUriLoop.eq_def]
        dsimp only
        rw [if_neg h0, if_neg h3, if_pos hb,
          percentChar_truncated (p := b :: p) _ (Nat.succ_lt_succ hshort) h1 h2]
        rfl

/-- A text that stands for one byte; `plus` tells whether a space may be a `+`. -/
inductive Piece (plus : Bool) : List UInt8 → UInt8 → Prop
  | raw {b : UInt8} (hb : b ≤ 127) (hne : b ≠ byteOf '%') : Piece plus [b] b
  | code {text : List UInt8} {b : UInt8} (h : getHex text = some (b, [])) : Piece plus text b
  | plus (h : plus = true) : Piece plus [byteOf '+'] (byteOf ' ')

/-- The text is made of one piece for each byte. -/
def Encodes (plus : Bool) (text s : List UInt8) : Prop :=
  ∃ pieces, text = pieces.flatten ∧ List.Forall₂ (Piece plus) pieces s

/-- Encoding `s` raises an exception, or appends a text of exactly the bytes of `s`. -/
def EncodesSafely (plus : Bool) (str s : List UInt8) (r : Except Fault (List UInt8)) : Prop :=
  (∃ desc, r = .error (.exception ⟨"INVALID-ENCODING", desc⟩)) ∨
    ∃ text, r = .ok (str ++ text) ∧ Encodes plus text s

/-- A byte from 16 on has two digits, which are read back whatever follows. -/
theorem getHex_percent (hb : 16 ≤ b.toNat) (rest : List UInt8) :
    getHex (percent b ++ rest) = some (b, rest) := by
  have hdigits : ∀ n < 16, xdigit (upperHex n) = some n := by decide
  have hlt := b.toNat_lt
  have hhigh := hdigits (b.toNat / 16) (by omega)
  have hlow := hdigits (b.toNat % 16) (by omega)
  have hval : 16 * (b.toNat / 16) + b.toNat % 16 = b.toNat := Nat.div_add_mod _ _
  unfold percent
  rw [if_neg (by omega)]
  simp only [List.cons_append, List.nil_append, getHex, if_true, hhigh, hlow, hval,
    UInt8.ofNat_toNat]

theorem Piece.percent {plus : Bool} (hb : 16 ≤ b.toNat) : Piece plus (percent b) b :=
  .code (by simpa using getHex_percent hb [])

theorem toNat_of_high (hb : 127 < b) : 128 ≤ b.toNat := by
  have := UInt8.lt_iff_toNat_lt.mp hb
  have h127 : (127 : UInt8).toNat = 127 := rfl
  omega

/-- A reserved character takes two hexadecimal digits. -/
theorem toNat_of_urlReserved (h : b ∈ urlReserved) : 16 ≤ b.toNat := by
  have hall : (urlReserved.all fun c => 16 ≤ c.toNat) = true := by decide
  simpa using List.all_eq_true.1 hall b h

theorem urlPiece_piece (b : UInt8) : Piece false (urlPiece encode_all b) b := by
  unfold urlPiece
  split
  case isTrue h =>
    rcases h with hb | rfl | rfl | ⟨-, hmem⟩
    · exact .percent (Nat.le_trans (by decide) (toNat_of_high hb))
    · exact .percent (by decide)
    · exact .percent (by decide)
    · exact .percent (toNat_of_urlReserved hmem)
  case isFalse h =>
    exact .raw (UInt8.not_lt.mp fun hb => h (.inl hb)) fun hb => h (.inr (.inl hb))

theorem uriPiece_piece (q : Qus) (b : UInt8) : Piece true (uriPiece q b) b := by
  unfold uriPiece
  split
  case isTrue h =>
    rcases h with hb | rfl
    · exact .percent (Nat.le_trans (by decide) (toNat_of_high hb))
    · exact .percent (by decide)
  case isFalse h =>
    split
    case isTrue hspace =>
      subst hspace
      split
      · exact .plus rfl
      · exact .percent (by decide)
    case isFalse =>
      split
      case isTrue hplus =>
        obtain ⟨-, rfl⟩ := hplus
        exact .code (by decide)
      case isFalse =>
        exact .raw (UInt8.not_lt.mp fun hb => h (.inl hb)) fun hb => h (.inr hb)

theorem urlText_encodes (s : List UInt8) : Encodes false (s.flatMap (urlPiece encode_all)) s := by
  refine ⟨s.map (urlPiece encode_all), rfl, ?_⟩
  rw [List.forall₂_map_left_iff, List.forall₂_same]
  exact fun b _ => urlPiece_piece encode_all b

theorem uriText_encodes (s : List UInt8) : ∀ q, Encodes true (uriText q s) s := by
  induction s with
  | nil => exact fun q => ⟨[], rfl, .nil⟩
  | cons b s ih =>
    intro q
    obtain ⟨pieces, htext, hpieces⟩ := ih (q.next b)
    exact ⟨uriPiece q b :: pieces, by rw [uriText, htext, List.flatten_cons],
      .cons (uriPiece_piece q b) hpieces⟩

variable {s : List UInt8}

theorem EncodeOutcome.safe {wrong malformed : Prop} {plus : Bool} {str text : List UInt8}
    (h : EncodeOutcome wrong malformed r (str ++ text)) (htext : Encodes plus text s) :
    EncodesSafely plus str s r ↔ ¬wrong := by
  rcases h with ⟨hwrong, rfl | rfl⟩ | ⟨hwrong, hr⟩
  · simp [EncodesSafely, hwrong]
  · simp [EncodesSafely, hwrong]
  · refine iff_of_true ?_ hwrong
    rcases hr with ⟨-, hr⟩ | hr
    · exact .inl hr
    · exact .inr ⟨text, hr, htext⟩

theorem concatEncodeUrl_outcome (str : List UInt8) (h0 : 0 ∉ s) :
    EncodeOutcome (Reaches charLen (Derails false) [] s)
      (Reaches charLen Malformed [] s) (concatEncodeUrl str s encode_all) (str ++ s.flatMap (urlPiece encode_all)) := by
  have hrun := encodeUrlLoop_outcome encode_all (s.length + 1) [] s str
    (Nat.lt_succ_self _) h0
  unfold concatEncodeUrl
  split
  case isTrue hnil =>
    obtain rfl := List.eq_nil_of_length_eq_zero hnil
    exact hrun
  case isFalse => exact hrun

theorem concatEncodeUriRequest_outcome (asserts : Bool) (str : List UInt8) (h0 : 0 ∉ s) :
    EncodeOutcome (Reaches charLen (Derails asserts) [] s)
      (Reaches charLen Malformed [] s) (concatEncodeUriRequest asserts str s)
      (str ++ uriText .path s) := by
  have hrun := encodeUriLoop_outcome asserts (s.length + 1) [] s str
    (Nat.lt_succ_self _) h0
  unfold concatEncodeUriRequest
  split
  case isTrue hnil =>
    obtain rfl := List.eq_nil_of_length_eq_zero hnil
    exact hrun
  case isFalse => exact hrun

/-- Both functions encode safely exactly when no character is cut off at the end of the string and,
where assertions are compiled, a fragment has no ASCII character but `%`. -/
theorem concatEncode_safe_iff (asserts : Bool) (s : List UInt8) (h0 : 0 ∉ s) :
    (∀ str, (∀ encode_all, EncodesSafely false str s (concatEncodeUrl str s encode_all)) ∧
      EncodesSafely true str s (concatEncodeUriRequest asserts str s)) ↔
    ¬Reaches charLen (Derails asserts) [] s := by
  have hurl (str : List UInt8) (encode_all : Bool) :=
    (concatEncodeUrl_outcome encode_all str h0).safe (urlText_encodes encode_all s)
  have huri (str : List UInt8) :=
    (concatEncodeUriRequest_outcome asserts str h0).safe (uriText_encodes s .path)
  constructor
  · intro h
    exact (huri []).mp (h []).2
  · intro h str
    refine ⟨fun encode_all => (hurl str encode_all).mpr ?_, (huri str).mpr h⟩
    -- what goes wrong without assertions also goes wrong with them
    rintro ⟨ws, p, heq, hws, hlen | ⟨hfalse, -⟩⟩
    · exact h ⟨ws, p, heq, hws, .inl hlen⟩
    · cases hfalse

/-- A letter of two bytes, a space and a sign of three bytes. -/
def manyBytes : List UInt8 :=
  String.utf8EncodeChar 'ä' ++ ([byteOf ' '] ++ (String.utf8EncodeChar '€' ++ []))

theorem concatEncode_safe_manyBytes : 0 ∉ manyBytes ∧ ∀ str,
    (∀ encode_all, EncodesSafely false str manyBytes (concatEncodeUrl str manyBytes encode_all)) ∧
    EncodesSafely true str manyBytes (concatEncodeUriRequest true str manyBytes) := by
  refine ⟨by decide, (concatEncode_safe_iff true manyBytes (by decide)).mpr ?_⟩
  unfold manyBytes
  rw [reaches_append (utf8_scans 'ä'), reaches_append (scans_ascii (by decide)),
    reaches_append (utf8_scans '€'), reaches_of_nonpos (.inl rfl)]
  -- no character is cut off, and no fragment begins
  rintro (h | h | h | h) <;> rcases h with h | ⟨-, h, -⟩ <;> exact absurd h (by decide)

/-- The first byte of a character of two bytes, and no more. -/
theorem concatEncodeUrl_not_safe : ¬∀ asserts s, 0 ∉ s → ∀ str,
    (∀ encode_all, EncodesSafely false str s (concatEncodeUrl str s encode_all)) ∧
      EncodesSafely true str s (concatEncodeUriRequest asserts str s) := by
  intro h
  have hsafe := (h false [0xc3] (by decide) []).1 false
  rcases hsafe with ⟨desc, hdesc⟩ | ⟨text, htext, -⟩
  · cases hdesc
  · cases htext

end Qore.Text
