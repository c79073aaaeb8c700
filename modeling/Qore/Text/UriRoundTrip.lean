import Qore.Text.Uri

/-!
# `Qore.Text.UriRoundTrip`: percent encoding and back

What the functions of `Qore.Text.Uri` read when they read what they wrote, for valid UTF-8.

The encoder of URI requests leaves the path at the first delimiter and stays in the query or in the
fragment from then on. The decoder starts a query at any `?` and ends it at any `#`. So they agree
about a space, or about a plus sign, unless the first delimiter and the last one before it differ.

* `decodeUriLoop_uriText`: the text of a URI request is read as `reread`.
* `decodeUriLoop_urlText`: the text of a URL is read as the same bytes.
* `uri_roundTrip_iff`: when the string comes back.
-/

set_option autoImplicit false

namespace Qore.Text

open Qore.Lib Qore.Lib.Words
open Qore.Stream (Fault)

/-! ### The bytes of a character -/

/-- The bytes of a character of UTF-8, as the decoder checks them. -/
inductive CharBytes : List UInt8 → Prop
  | one {b : UInt8} (hb : b ≤ 127) : CharBytes [b]
  | two {x1 x2 : UInt8} (h1 : bits x1 0xc0 = 0xc0) (h2 : bits x1 0x20 = 0)
      (hx2 : bits x2 0x80 ≠ 0) : CharBytes [x1, x2]
  | three {x1 x2 x3 : UInt8} (h1 : bits x1 0xc0 = 0xc0) (h2 : bits x1 0x20 ≠ 0)
      (h3 : bits x1 0x10 = 0) (hx2 : bits x2 0x80 ≠ 0) (hx3 : bits x3 0x80 ≠ 0) :
      CharBytes [x1, x2, x3]
  | four {x1 x2 x3 x4 : UInt8} (h1 : bits x1 0xc0 = 0xc0) (h2 : bits x1 0x20 ≠ 0)
      (h3 : bits x1 0x10 ≠ 0) (hx2 : bits x2 0x80 ≠ 0) (hx3 : bits x3 0x80 ≠ 0)
      (hx4 : bits x4 0x80 ≠ 0) : CharBytes [x1, x2, x3, x4]

theorem charBytes_utf8EncodeChar (c : Char) : CharBytes (String.utf8EncodeChar c) := by
  unfold String.utf8EncodeChar
  generalize c.val.toNat = v
  by_cases h1 : v ≤ 127
  · rw [if_pos h1]
    refine .one (UInt8.le_iff_toNat_le.mpr ?_)
    have h127 : (127 : UInt8).toNat = 127 := rfl
    rw [UInt8.toNat_ofNat']
    omega
  rw [if_neg h1]
  by_cases h2 : v ≤ 2047
  · rw [if_pos h2]
    have hx := bits_utf8_two (v / 64 % 32) (by omega)
    exact .two hx.1 hx.2 (bits_utf8_tail _ (by omega))
  rw [if_neg h2]
  by_cases h3 : v ≤ 65535
  · rw [if_pos h3]
    have hx := bits_utf8_three (v / 4096 % 16) (by omega)
    exact .three hx.1 hx.2.1 hx.2.2 (bits_utf8_tail _ (by omega)) (bits_utf8_tail _ (by omega))
  · rw [if_neg h3]
    have hx := bits_utf8_four (v / 262144 % 8) (by omega)
    exact .four hx.1 hx.2.1 hx.2.2 (bits_utf8_tail _ (by omega)) (bits_utf8_tail _ (by omega))
      (bits_utf8_tail _ (by omega))

variable {w : List UInt8}

/-- A character is one ASCII byte, or all of its bytes are beyond ASCII. -/
theorem CharBytes.ascii_or_high (h : CharBytes w) :
    (∃ b, b ≤ 127 ∧ w = [b]) ∨ ∀ x ∈ w, 127 < x := by
  cases h with
  | one hb => exact .inl ⟨_, hb, rfl⟩
  | two h1 _ hx2 => exact .inr (by simp [high_of_lead h1, lt_of_bits hx2])
  | three h1 _ _ hx2 hx3 =>
    exact .inr (by simp [high_of_lead h1, lt_of_bits hx2, lt_of_bits hx3])
  | four h1 _ _ hx2 hx3 hx4 =>
    exact .inr (by simp [high_of_lead h1, lt_of_bits hx2, lt_of_bits hx3, lt_of_bits hx4])

theorem utf8_cons (c : Char) (cs : List Char) :
    utf8 (c :: cs) = String.utf8EncodeChar c ++ utf8 cs := rfl

/-- In valid UTF-8 a reader reaches the characters. -/
theorem reaches_utf8 (P : List UInt8 → List UInt8 → Prop) (cs : List Char) :
    ∀ pre, Reaches charLen P pre (utf8 cs) ↔
      ∃ before after, cs = before ++ after ∧ P (pre ++ utf8 before) (utf8 after) := by
  induction cs with
  | nil =>
    intro pre
    show Reaches charLen P pre [] ↔ _
    rw [reaches_of_nonpos (.inl rfl)]
    constructor
    · intro h
      exact ⟨[], [], rfl, by simpa [utf8, spell] using h⟩
    · rintro ⟨before, after, heq, h⟩
      obtain ⟨rfl, rfl⟩ := List.append_eq_nil_iff.mp heq.symm
      simpa [utf8, spell] using h
  | cons c cs ih =>
    intro pre
    rw [utf8_cons, reaches_append (utf8_scans c), ih]
    constructor
    · rintro (h | ⟨before, after, rfl, h⟩)
      · exact ⟨[], c :: cs, rfl, by simpa [utf8, spell] using h⟩
      · exact ⟨c :: before, after, rfl, by rwa [utf8_cons, ← List.append_assoc]⟩
    · rintro ⟨before, after, heq, h⟩
      cases before with
      | nil =>
        obtain rfl : c :: cs = after := heq
        exact .inl (by simpa [utf8, spell] using h)
      | cons d before =>
        obtain ⟨rfl, rfl⟩ := List.cons.inj heq
        exact .inr ⟨before, after, rfl, by rwa [utf8_cons, ← List.append_assoc] at h⟩

/-- Valid UTF-8 has no malformed character. -/
theorem not_malformed_utf8 (cs : List Char) : ¬Reaches charLen Malformed [] (utf8 cs) := by
  rw [reaches_utf8]
  rintro ⟨before, after, -, h⟩
  unfold Malformed at h
  cases after with
  | nil => exact absurd h (by decide)
  | cons c after =>
    have hpos := (utf8_scans c).pos
    rw [utf8_cons, (utf8_scans c).next_append] at h
    omega

/-! ### Reading, one piece -/

/-- Whether the decoder is in a query after a byte that stands for itself. -/
def inQuery (d : Bool) (b : UInt8) : Bool := if d then b ≠ byteOf '#' else b = byteOf '?'

/-- The byte that comes back for `b`; `q` is the part for the encoder, and `d` tells whether the
decoder is in a query. -/
def readBack (q : Qus) (d : Bool) (b : UInt8) : UInt8 :=
  if q = .query ∧ d = false ∧ b = byteOf ' ' then byteOf '+'
  else if q ≠ .query ∧ d = true ∧ b = byteOf '+' then byteOf ' '
  else b

/-- The bytes that come back. -/
def reread : Qus → Bool → List UInt8 → List UInt8
  | _, _, [] => []
  | q, d, b :: p => readBack q d b :: reread (q.next b) (inQuery d b) p

section
variable {detect_query d : Bool} {fuel : Nat} {b : UInt8} {w p str : List UInt8}

theorem getHex_of_ne (hb : b ≠ byteOf '%') : getHex (b :: p) = none := by
  rcases p with _ | ⟨c, _ | ⟨d, p⟩⟩
  · rfl
  · rfl
  · rw [getHex, if_neg hb]

/-- The loop at `%XX` of one byte. -/
theorem decodeUriLoop_code {text : List UInt8} (hhex : getHex (text ++ p) = some (b, p))
    (hb : b ≤ 127) : decodeUriLoop detect_query (fuel + 1) (text ++ p) d str =
      decodeUriLoop detect_query fuel p d (str ++ [b]) := by
  cases htext : text ++ p with
  | nil =>
    rw [htext] at hhex
    cases hhex
  | cons c url =>
    rw [htext] at hhex
    have hc : c = byteOf '%' := by
      by_contra hne
      rw [getHex_of_ne hne] at hhex
      cases hhex
    subst hc
    have hlead : ¬bits b 0xc0 = 0xc0 := fun h => absurd (high_of_lead h) (UInt8.not_lt.mpr hb)
    rw [decodeUriLoop, if_neg (by decide), hhex]
    dsimp only
    rw [if_neg hlead]

/-- The loop at a byte that stands for itself. -/
theorem decodeUriLoop_raw (h0 : b ≠ 0) (hb : b ≠ byteOf '%') :
    decodeUriLoop false (fuel + 1) (b :: p) d str = decodeUriLoop false fuel p d (str ++ [b]) := by
  rw [decodeUriLoop, if_neg h0, getHex_of_ne hb]
  rfl

theorem decodeUriLoop_raw_detect (h0 : b ≠ 0) (hb : b ≠ byteOf '%') :
    decodeUriLoop true (fuel + 1) (b :: p) d str = decodeUriLoop true fuel p (inQuery d b)
      (str ++ [if d = true ∧ b = byteOf '+' then byteOf ' ' else b]) := by
  rw [decodeUriLoop, if_neg h0, getHex_of_ne hb]
  cases d with
  | false => rfl
  | true =>
    by_cases hplus : b = byteOf '+'
    · subst hplus
      rfl
    · simp [hplus, inQuery]

/-- The loop at the code of a character of several bytes. -/
theorem decodeUriLoop_char (hw : CharBytes w) (hhigh : ∀ x ∈ w, 127 < x) :
    decodeUriLoop detect_query (fuel + 1) (w.flatMap percent ++ p) d str =
      decodeUriLoop detect_query fuel p d (str ++ w) := by
  have hhex (x : UInt8) (hx : x ∈ w) (rest : List UInt8) :
      getHex (percent x ++ rest) = some (x, rest) :=
    getHex_percent (Nat.le_trans (by decide) (toNat_of_high (hhigh x hx))) rest
  have hcons (x : UInt8) (hx : x ∈ w) (rest : List UInt8) :
      ∃ url, percent x ++ rest = byteOf '%' :: url := by
    have h16 := toNat_of_high (hhigh x hx)
    unfold percent
    rw [if_neg (by omega)]
    exact ⟨_, rfl⟩
  cases hw with
  | @one b hb => exact absurd (hhigh b (by simp)) (UInt8.not_lt.mpr hb)
  | @two x1 x2 h1 h2 hx2 =>
    have hx1 := hhex x1 (by simp) (percent x2 ++ p)
    obtain ⟨url, hurl⟩ := hcons x1 (by simp) (percent x2 ++ p)
    simp only [List.flatMap_cons, List.flatMap_nil, List.append_assoc, List.nil_append]
    rw [hurl] at hx1 ⊢
    rw [decodeUriLoop, if_neg (by decide), hx1]
    simp only [h1, if_true, decodeMulti, hhex x2 (by simp) p, h2, hx2, ne_eq, not_true_eq_false,
      not_false_eq_true, if_false, ok_bind]
  | @three x1 x2 x3 h1 h2 h3 hx2 hx3 =>
    have hx1 := hhex x1 (by simp) (percent x2 ++ (percent x3 ++ p))
    obtain ⟨url, hurl⟩ := hcons x1 (by simp) (percent x2 ++ (percent x3 ++ p))
    simp only [List.flatMap_cons, List.flatMap_nil, List.append_assoc, List.nil_append]
    rw [hurl] at hx1 ⊢
    rw [decodeUriLoop, if_neg (by decide), hx1]
    simp only [h1, if_true, decodeMulti, hhex x2 (by simp), hhex x3 (by simp), h2, h3, hx2, hx3,
      ne_eq, not_true_eq_false, not_false_eq_true, and_self, if_false, ok_bind]
  | @four x1 x2 x3 x4 h1 h2 h3 hx2 hx3 hx4 =>
    have hx1 := hhex x1 (by simp) (percent x2 ++ (percent x3 ++ (percent x4 ++ p)))
    obtain ⟨url, hurl⟩ := hcons x1 (by simp) (percent x2 ++ (percent x3 ++ (percent x4 ++ p)))
    simp only [List.flatMap_cons, List.flatMap_nil, List.append_assoc, List.nil_append]
    rw [hurl] at hx1 ⊢
    rw [decodeUriLoop, if_neg (by decide), hx1]
    simp only [h1, if_true, decodeMulti, hhex x2 (by simp), hhex x3 (by simp), hhex x4 (by simp),
      h2, h3, hx2, hx3, hx4, ne_eq, not_true_eq_false, not_false_eq_true, and_self, if_false,
      ok_bind]

/-- The text of an ASCII byte of a URL is read as the byte. -/
theorem decodeUriLoop_urlPiece (encode_all : Bool) (h0 : b ≠ 0) (hb : b ≤ 127) :
    decodeUriLoop false (fuel + 1) (urlPiece encode_all b ++ p) d str =
      decodeUriLoop false fuel p d (str ++ [b]) := by
  unfold urlPiece
  split
  case isTrue h =>
    have h16 : 16 ≤ b.toNat := by
      rcases h with hb | rfl | rfl | ⟨-, hmem⟩
      · exact Nat.le_trans (by decide) (toNat_of_high hb)
      · decide
      · decide
      · exact toNat_of_urlReserved hmem
    exact decodeUriLoop_code (getHex_percent h16 p) hb
  case isFalse h => exact decodeUriLoop_raw h0 fun hne => h (.inr (.inl hne))

/-- The text of an ASCII byte of a URI request is read as `readBack`. -/
theorem decodeUriLoop_uriPiece (q : Qus) (h0 : b ≠ 0) (hb : b ≤ 127) :
    decodeUriLoop true (fuel + 1) (uriPiece q b ++ p) d str =
      decodeUriLoop true fuel p (inQuery d b) (str ++ [readBack q d b]) := by
  by_cases h1 : b = byteOf '%'
  · subst h1
    have hpiece : uriPiece q (byteOf '%') = percent (byteOf '%') := rfl
    have hback : readBack q d (byteOf '%') = byteOf '%' := by cases q <;> cases d <;> rfl
    have hquery : inQuery d (byteOf '%') = d := by cases d <;> rfl
    rw [hpiece, hback, hquery, decodeUriLoop_code (getHex_percent (by decide) p) hb]
  by_cases h2 : b = byteOf ' '
  · subst h2
    have hquery : inQuery d (byteOf ' ') = d := by cases d <;> rfl
    by_cases hq : q = .query
    · -- a space of the query is a plus
      subst hq
      have hpiece : uriPiece .query (byteOf ' ') = [byteOf '+'] := by decide
      rw [hpiece, List.singleton_append, decodeUriLoop_raw_detect (by decide) (by decide)]
      cases d <;> rfl
    · have hpiece : uriPiece q (byteOf ' ') = percent (byteOf ' ') := by
        cases q with
        | query => exact absurd rfl hq
        | path => decide
        | fragment => decide
      have hback : readBack q d (byteOf ' ') = byteOf ' ' := by
        cases q with
        | query => exact absurd rfl hq
        | path => cases d <;> decide
        | fragment => cases d <;> decide
      rw [hpiece, hback, hquery, decodeUriLoop_code (getHex_percent (by decide) p) hb]
  by_cases h3 : q = .query ∧ b = byteOf '+'
  · obtain ⟨rfl, rfl⟩ := h3
    have hcode : getHex (uriPiece .query (byteOf '+') ++ p) = some (byteOf '+', p) := rfl
    have hquery : inQuery d (byteOf '+') = d := by cases d <;> rfl
    have hback : readBack .query d (byteOf '+') = byteOf '+' := by cases d <;> decide
    rw [hquery, hback, decodeUriLoop_code hcode hb]
  · have hraw : ¬(127 < b ∨ b = byteOf '%') := by
      rintro (h | h)
      · exact absurd h (UInt8.not_lt.mpr hb)
      · exact h1 h
    have hpiece : uriPiece q b = [b] := by
      unfold uriPiece
      rw [if_neg hraw, if_neg h2, if_neg h3]
    have hback : readBack q d b = if d = true ∧ b = byteOf '+' then byteOf ' ' else b := by
      unfold readBack
      rw [if_neg (fun h => h2 h.2.2)]
      by_cases hplus : b = byteOf '+'
      · have hq : q ≠ .query := fun hq => h3 ⟨hq, hplus⟩
        simp only [hq, ne_eq, not_false_eq_true, true_and]
      · simp only [hplus, and_false, if_false]
    rw [hpiece, hback, List.singleton_append, decodeUriLoop_raw_detect h0 h1]

end

/-! ### Reading the whole text -/

variable {b : UInt8} (pre : List UInt8)

theorem readBack_of_high {q : Qus} {d : Bool} (hb : 127 < b) : readBack q d b = b := by
  have h1 : b ≠ byteOf ' ' := ne_of_high hb (by decide)
  have h2 : b ≠ byteOf '+' := ne_of_high hb (by decide)
  simp [readBack, h1, h2]

theorem inQuery_of_not_delim {d : Bool} (hb : isDelim b = false) : inQuery d b = d := by
  have hne : b ≠ byteOf '?' ∧ b ≠ byteOf '#' := by simpa [isDelim] using hb
  cases d <;> simp [inQuery, hne]

theorem not_isDelim_of_high (hb : 127 < b) : isDelim b = false := by
  have h1 : b ≠ byteOf '?' := ne_of_high hb (by decide)
  have h2 : b ≠ byteOf '#' := ne_of_high hb (by decide)
  simp [isDelim, h1, h2]

theorem reread_append_high (q : Qus) (d : Bool) (hw : ∀ x ∈ w, 127 < x) (p : List UInt8) :
    reread q d (w ++ p) = w ++ reread q d p := by
  induction w with
  | nil => rfl
  | cons b w ih =>
    have hb := hw b List.mem_cons_self
    rw [List.cons_append, reread, readBack_of_high hb, next_of_high hb,
      inQuery_of_not_delim (not_isDelim_of_high hb),
      ih fun x hx => hw x (List.mem_cons_of_mem b hx), List.cons_append]

theorem length_percent_pos (b : UInt8) : 0 < (percent b).length := by
  unfold percent
  split <;> simp

theorem length_urlPiece_pos (encode_all : Bool) (b : UInt8) :
    0 < (urlPiece encode_all b).length := by
  unfold urlPiece
  split
  · exact length_percent_pos b
  · simp

theorem length_uriPiece_pos (q : Qus) (b : UInt8) : 0 < (uriPiece q b).length := by
  have hpercent := length_percent_pos b
  unfold uriPiece
  split
  · exact hpercent
  split
  · split
    · simp
    · exact hpercent
  split
  · decide
  · simp

theorem length_code_pos (hw : 0 < w.length) : 0 < (w.flatMap percent).length := by
  obtain ⟨b, w', rfl⟩ := List.exists_cons_of_length_pos hw
  have := length_percent_pos b
  simp only [List.flatMap_cons, List.length_append]
  omega

/-- A character is not the terminator. -/
theorem ne_zero_of_encode {c : Char} (hc : c ≠ '\x00') (hb : String.utf8EncodeChar c = [b]) :
    b ≠ 0 := by
  rintro rfl
  refine hc ((zero_mem_utf8EncodeChar c).mp ?_)
  rw [hb]
  exact List.mem_singleton_self 0

section
variable {cs : List Char}

/-- The text of a URL is read as the same bytes. -/
theorem decodeUriLoop_urlText (encode_all : Bool) (d : Bool) (h0 : '\x00' ∉ cs) :
    ∀ fuel str, ((utf8 cs).flatMap (urlPiece encode_all)).length < fuel →
      decodeUriLoop false fuel ((utf8 cs).flatMap (urlPiece encode_all)) d str =
        .ok (str ++ utf8 cs) := by
  induction cs with
  | nil =>
    rintro (_ | fuel) str hfuel
    · simp at hfuel
    · show Except.ok str = .ok (str ++ [])
      rw [List.append_nil]
  | cons c cs ih =>
    rintro (_ | fuel) str hfuel
    · simp at hfuel
    have ih := ih fun h => h0 (List.mem_cons_of_mem c h)
    have hc : c ≠ '\x00' := fun h => h0 (h ▸ List.mem_cons_self)
    rw [utf8_cons] at hfuel ⊢
    rcases (charBytes_utf8EncodeChar c).ascii_or_high with ⟨b, hb, hw⟩ | hhigh
    · have hpos := length_urlPiece_pos encode_all b
      rw [hw, List.singleton_append, List.flatMap_cons] at hfuel ⊢
      rw [List.length_append] at hfuel
      rw [decodeUriLoop_urlPiece encode_all (ne_zero_of_encode hc hw) hb, ih fuel _ (by omega),
        List.append_assoc, List.singleton_append]
    · have hpos := length_code_pos (utf8_scans c).pos
      rw [urlText_append_high encode_all hhigh] at hfuel ⊢
      rw [List.length_append] at hfuel
      rw [decodeUriLoop_char (charBytes_utf8EncodeChar c) hhigh, ih fuel _ (by omega),
        List.append_assoc]

/-- The text of a URI request is read as `reread`. -/
theorem decodeUriLoop_uriText (h0 : '\x00' ∉ cs) : ∀ q d fuel str,
    (uriText q (utf8 cs)).length < fuel →
      decodeUriLoop true fuel (uriText q (utf8 cs)) d str = .ok (str ++ reread q d (utf8 cs)) := by
  induction cs with
  | nil =>
    rintro q d (_ | fuel) str hfuel
    · simp at hfuel
    · show Except.ok str = .ok (str ++ [])
      rw [List.append_nil]
  | cons c cs ih =>
    rintro q d (_ | fuel) str hfuel
    · simp at hfuel
    have ih := ih fun h => h0 (List.mem_cons_of_mem c h)
    have hc : c ≠ '\x00' := fun h => h0 (h ▸ List.mem_cons_self)
    rw [utf8_cons] at hfuel ⊢
    rcases (charBytes_utf8EncodeChar c).ascii_or_high with ⟨b, hb, hw⟩ | hhigh
    · have hpos := length_uriPiece_pos q b
      rw [hw, List.singleton_append, uriText] at hfuel ⊢
      rw [List.length_append] at hfuel
      rw [decodeUriLoop_uriPiece q (ne_zero_of_encode hc hw) hb, ih _ _ fuel _ (by omega), reread,
        List.append_assoc, List.singleton_append]
    · have hpos := length_code_pos (utf8_scans c).pos
      rw [uriText_append_high q hhigh] at hfuel ⊢
      rw [List.length_append] at hfuel
      rw [decodeUriLoop_char (charBytes_utf8EncodeChar c) hhigh, ih q d fuel _ (by omega),
        reread_append_high q d hhigh, List.append_assoc]

end

/-! ### When the bytes come back -/

/-- The last question mark or hash sign. -/
def lastDelim (pre : List UInt8) : Option UInt8 := pre.reverse.find? isDelim

/-- The character `c` after `pre` is read as another one: a space where the encoder sees a query and
the decoder does not, or a plus sign where only the decoder sees one. -/
def Misread (pre : List UInt8) (c : Char) : Prop :=
  firstDelim pre = some (byteOf '?') ∧ lastDelim pre = some (byteOf '#') ∧ c = ' ' ∨
    firstDelim pre = some (byteOf '#') ∧ lastDelim pre = some (byteOf '?') ∧ c = '+'

/-- The assertion about the fragment fails at `c`. -/
def Asserted (asserts : Bool) (pre : List UInt8) (c : Char) : Prop :=
  asserts = true ∧ firstDelim pre = some (byteOf '#') ∧ c.toNat ≤ 127 ∧ c ≠ '%'

theorem isDelim_iff : isDelim b = true ↔ b = byteOf '?' ∨ b = byteOf '#' := by
  simp [isDelim]

theorem lastDelim_append (b : UInt8) :
    lastDelim (pre ++ [b]) = if isDelim b then some b else lastDelim pre := by
  unfold lastDelim
  rw [List.reverse_append, List.reverse_singleton, List.singleton_append, List.find?_cons]
  cases isDelim b <;> rfl

theorem lastDelim_append_high (hw : ∀ x ∈ w, 127 < x) : lastDelim (pre ++ w) = lastDelim pre := by
  induction w generalizing pre with
  | nil => rw [List.append_nil]
  | cons b w ih =>
    rw [← List.singleton_append, ← List.append_assoc,
      ih _ fun x hx => hw x (List.mem_cons_of_mem b hx), lastDelim_append,
      not_isDelim_of_high (hw b List.mem_cons_self)]
    rfl

/-- The decoder is in a query when the last delimiter is a question mark. -/
theorem inQuery_lastDelim (b : UInt8) : decide (lastDelim (pre ++ [b]) = some (byteOf '?')) =
      inQuery (decide (lastDelim pre = some (byteOf '?'))) b := by
  rw [lastDelim_append]
  by_cases hb : isDelim b = true
  · rw [if_pos hb]
    generalize decide (lastDelim pre = some (byteOf '?')) = d
    rcases isDelim_iff.mp hb with rfl | rfl
    · cases d <;> rfl
    · cases d <;> rfl
  · rw [if_neg hb, inQuery_of_not_delim (Bool.not_eq_true _ ▸ hb)]

/-- There is a first delimiter if there is a last one. -/
theorem firstDelim_eq_none_iff : firstDelim pre = none ↔ lastDelim pre = none := by
  simp [firstDelim, lastDelim, List.find?_eq_none]

theorem firstDelim_cases : (firstDelim pre = none ∧ lastDelim pre = none) ∨
      (∃ a, firstDelim pre = some a ∧ (a = byteOf '?' ∨ a = byteOf '#')) ∧
        ∃ b, lastDelim pre = some b ∧ (b = byteOf '?' ∨ b = byteOf '#') := by
  cases hfirst : firstDelim pre with
  | none => exact .inl ⟨rfl, (firstDelim_eq_none_iff pre).mp hfirst⟩
  | some a =>
    cases hlast : lastDelim pre with
    | none => simp [(firstDelim_eq_none_iff pre).mpr hlast] at hfirst
    | some b =>
      exact .inr ⟨⟨a, rfl, isDelim_iff.mp (List.find?_some hfirst)⟩,
        b, rfl, isDelim_iff.mp (List.find?_some hlast)⟩

/-- An ASCII character is read back exactly when it is not misread. -/
theorem readBack_eq_iff {c : Char} (hc : String.utf8EncodeChar c = [b]) :
    readBack (Qus.ofDelim (firstDelim pre)) (decide (lastDelim pre = some (byteOf '?'))) b = b ↔
      ¬Misread pre c := by
  have hchar (d : Char) (hd : String.utf8EncodeChar d = [byteOf d]) : b = byteOf d ↔ c = d := by
    constructor
    · rintro rfl
      exact utf8EncodeChar_injective (hc.trans hd.symm)
    · rintro rfl
      exact List.singleton_inj.mp (hc.symm.trans hd)
  have hspace := hchar ' ' (by decide)
  have hplus := hchar '+' (by decide)
  unfold Misread
  rw [← hspace, ← hplus]
  rcases firstDelim_cases pre with ⟨h1, h2⟩ | ⟨⟨x, h1, rfl | rfl⟩, y, h2, rfl | rfl⟩
  · rw [h1, h2]
    simp [readBack, Qus.ofDelim]
  · rw [h1, h2]
    have hne : byteOf '?' ≠ byteOf '#' := by decide
    simp [readBack, Qus.ofDelim, hne]
  · rw [h1, h2]
    have hne : byteOf '#' ≠ byteOf '?' := by decide
    have hother : byteOf '+' ≠ byteOf ' ' := by decide
    by_cases hb : b = byteOf ' '
    · subst hb
      simp [readBack, Qus.ofDelim, hne, hother]
    · simp [readBack, Qus.ofDelim, hne, hb]
  · rw [h1, h2]
    have hne : byteOf '#' ≠ byteOf '?' := by decide
    have hother : byteOf ' ' ≠ byteOf '+' := by decide
    by_cases hb : b = byteOf '+'
    · subst hb
      simp [readBack, Qus.ofDelim, hne, hother]
    · simp [readBack, Qus.ofDelim, hne, hb]
  · rw [h1, h2]
    have hne : byteOf '#' ≠ byteOf '?' := by decide
    simp [readBack, Qus.ofDelim, hne]

/-- The bytes come back exactly when no character is misread. -/
theorem reread_eq_iff (cs : List Char) : ∀ pre : List UInt8,
    reread (Qus.ofDelim (firstDelim pre)) (decide (lastDelim pre = some (byteOf '?'))) (utf8 cs) =
      utf8 cs ↔
    ∀ before c after, cs = before ++ c :: after → ¬Misread (pre ++ utf8 before) c := by
  induction cs with
  | nil =>
    intro pre
    refine iff_of_true rfl ?_
    rintro before c after heq
    simp at heq
  | cons c cs ih =>
    intro pre
    -- the first character comes back, and so do the others
    have hsplit : (∀ before d after, c :: cs = before ++ d :: after →
        ¬Misread (pre ++ utf8 before) d) ↔ ¬Misread pre c ∧ ∀ before d after,
          cs = before ++ d :: after →
            ¬Misread (pre ++ String.utf8EncodeChar c ++ utf8 before) d := by
      constructor
      · intro h
        refine ⟨by simpa [utf8, spell] using h [] c cs rfl, fun before d after heq => ?_⟩
        have := h (c :: before) d after (by rw [heq]; rfl)
        rwa [utf8_cons, ← List.append_assoc] at this
      · rintro ⟨hhead, htail⟩ before d after heq
        cases before with
        | nil =>
          obtain ⟨rfl, rfl⟩ := List.cons.inj heq
          simpa [utf8, spell] using hhead
        | cons e before =>
          obtain ⟨rfl, rfl⟩ := List.cons.inj heq
          rw [utf8_cons, ← List.append_assoc]
          exact htail before d after rfl
    rw [hsplit, utf8_cons]
    rcases (charBytes_utf8EncodeChar c).ascii_or_high with ⟨b, hb, hw⟩ | hhigh
    · rw [hw, List.singleton_append, reread, ← ofDelim_append, ← inQuery_lastDelim, List.cons.injEq,
        readBack_eq_iff pre hw, ih]
    · have hmiss : ¬Misread pre c := by
        rintro (⟨-, -, rfl⟩ | ⟨-, -, rfl⟩)
        · exact absurd hhigh (by decide)
        · exact absurd hhigh (by decide)
      have hih := ih (pre ++ String.utf8EncodeChar c)
      rw [ofDelim_append_high pre hhigh, lastDelim_append_high pre hhigh] at hih
      rw [reread_append_high _ _ hhigh, List.append_right_inj, hih, and_iff_right hmiss]

/-- On valid UTF-8 only the assertion can fail. -/
theorem reaches_derails_iff (asserts : Bool) (cs : List Char) :
    Reaches charLen (Derails asserts) [] (utf8 cs) ↔
      ∃ before c after, cs = before ++ c :: after ∧ Asserted asserts (utf8 before) c := by
  rw [reaches_utf8]
  constructor
  · rintro ⟨before, after, rfl, h⟩
    cases after with
    | nil =>
      rcases h with h | ⟨-, -, b, p', hnil, -⟩
      · exact absurd h (by decide)
      · cases hnil
    | cons c after =>
      refine ⟨before, c, after, rfl, ?_⟩
      rw [utf8_cons] at h
      rcases h with h | ⟨ha, hdelim, b, p', heq, hb, hne⟩
      · rw [(utf8_scans c).next_append] at h
        omega
      rcases (charBytes_utf8EncodeChar c).ascii_or_high with ⟨d, hd, hw⟩ | hhigh
      · rw [hw] at heq
        obtain rfl : d = b := (List.cons.inj heq).1
        refine ⟨ha, hdelim, ?_, ?_⟩
        · by_contra hc
          have hlen := congrArg List.length hw
          rw [String.length_utf8EncodeChar] at hlen
          have hval := Char.utf8Size_eq_one_iff.mp hlen
          exact hc (UInt32.le_iff_toNat_le.mp hval)
        · rintro rfl
          exact hne (List.singleton_inj.mp (hw.symm.trans (by decide)))
      · obtain ⟨d, w', hw⟩ := List.exists_cons_of_length_pos (utf8_scans c).pos
        rw [hw] at heq
        obtain rfl : d = b := (List.cons.inj heq).1
        exact absurd (hhigh d (by simp [hw])) (UInt8.not_lt.mpr hb)
  · rintro ⟨before, c, after, rfl, ha, hdelim, hc, hne⟩
    refine ⟨before, c :: after, rfl, .inr ⟨ha, hdelim, ?_⟩⟩
    have hw : String.utf8EncodeChar c = [byteOf c] := by
      exact if_pos hc
    refine ⟨byteOf c, utf8 after, by rw [utf8_cons, hw]; rfl, ?_, ?_⟩
    · refine UInt8.le_iff_toNat_le.mpr ?_
      have h127 : (127 : UInt8).toNat = 127 := rfl
      unfold byteOf
      rw [UInt8.toNat_ofNat']
      omega
    · intro heq
      have hpercent : String.utf8EncodeChar '%' = [byteOf '%'] := by decide
      exact hne (utf8EncodeChar_injective (hw.trans (heq ▸ hpercent.symm)))

/-- Decoding what was written for `s` appends `s`. -/
def ComesBack (encode decode : List UInt8 → List UInt8 → Except Fault (List UInt8))
    (s : List UInt8) : Prop :=
  ∀ str dest, ∃ text, encode str s = .ok (str ++ text) ∧ decode dest text = .ok (dest ++ s)

theorem EncodeOutcome.ok {wrong malformed : Prop} {r : Except Fault (List UInt8)}
    {text : List UInt8} (h : EncodeOutcome wrong malformed r text) (hwrong : ¬wrong) (hmalformed : ¬malformed) :
    r = .ok text := by
  rcases h with ⟨h, -⟩ | ⟨-, ⟨h, -⟩ | h⟩
  · exact absurd h hwrong
  · exact absurd h hmalformed
  · exact h

/-- The two functions for URLs are inverse. -/
theorem url_comesBack (encode_all : Bool) {cs : List Char} (h0 : '\x00' ∉ cs) :
    ComesBack (fun str s => concatEncodeUrl str s encode_all) concatDecodeUrl (utf8 cs) := by
  intro str dest
  refine ⟨(utf8 cs).flatMap (urlPiece encode_all), ?_, ?_⟩
  · have hzero : 0 ∉ utf8 cs := fun h => h0 ((zero_mem_utf8 cs).mp h)
    refine (concatEncodeUrl_outcome encode_all str hzero).ok ?_ (not_malformed_utf8 cs)
    rw [reaches_derails_iff]
    rintro ⟨before, c, after, -, hfalse, -⟩
    cases hfalse
  · exact decodeUriLoop_urlText encode_all false h0 _ dest (Nat.lt_succ_self _)

/-- The functions for URI requests are inverse on the strings at which the assertion holds and
whose bytes come back. -/
theorem uriRequest_comesBack_iff (asserts : Bool) {cs : List Char} (h0 : '\x00' ∉ cs) :
    ComesBack (concatEncodeUriRequest asserts) concatDecodeUriRequest (utf8 cs) ↔
      ¬Reaches charLen (Derails asserts) [] (utf8 cs) ∧ reread .path false (utf8 cs) = utf8 cs := by
  have hzero : 0 ∉ utf8 cs := fun h => h0 ((zero_mem_utf8 cs).mp h)
  have hdecode (dest : List UInt8) : concatDecodeUriRequest dest (uriText .path (utf8 cs)) =
      .ok (dest ++ reread .path false (utf8 cs)) :=
    decodeUriLoop_uriText h0 .path false _ dest (Nat.lt_succ_self _)
  constructor
  · intro h
    obtain ⟨text, hencode, hback⟩ := h [] []
    rcases concatEncodeUriRequest_outcome asserts [] hzero with
      ⟨-, hr⟩ | ⟨hwrong, ⟨hmalformed, -⟩ | hr⟩
    · rcases hr with hr | hr <;> simp [hr] at hencode
    · exact absurd hmalformed (not_malformed_utf8 cs)
    · obtain rfl : uriText .path (utf8 cs) = text := by simpa using hr.symm.trans hencode
      rw [hdecode] at hback
      exact ⟨hwrong, by simpa using hback⟩
  · rintro ⟨hwrong, hreread⟩ str dest
    refine ⟨uriText .path (utf8 cs), ?_, by rw [hdecode, hreread]⟩
    exact (concatEncodeUriRequest_outcome asserts str hzero).ok hwrong (not_malformed_utf8 cs)

/-- The string comes back from both pairs of functions exactly when no character is misread and the
assertion about the fragment does not fail. -/
theorem uri_roundTrip_iff (asserts : Bool) (cs : List Char) (h0 : '\x00' ∉ cs) :
    (ComesBack (concatEncodeUriRequest asserts) concatDecodeUriRequest (utf8 cs) ∧
      ∀ encode_all,
        ComesBack (fun str s => concatEncodeUrl str s encode_all) concatDecodeUrl (utf8 cs)) ↔
    ∀ before c after, cs = before ++ c :: after →
      ¬Misread (utf8 before) c ∧ ¬Asserted asserts (utf8 before) c := by
  rw [and_iff_left fun encode_all => url_comesBack encode_all h0,
    uriRequest_comesBack_iff asserts h0, reaches_derails_iff]
  have hreread := reread_eq_iff cs []
  have hpath : Qus.ofDelim (firstDelim []) = .path := rfl
  have hquery : decide (lastDelim [] = some (byteOf '?')) = false := rfl
  rw [hpath, hquery] at hreread
  rw [hreread]
  constructor
  · rintro ⟨hassert, hmiss⟩ before c after heq
    exact ⟨hmiss before c after heq, fun h => hassert ⟨before, c, after, heq, h⟩⟩
  · intro h
    refine ⟨?_, fun before c after heq => (h before c after heq).1⟩
    rintro ⟨before, c, after, heq, hassert⟩
    exact (h before c after heq).2 hassert

/-- A space in the query. -/
theorem uri_roundTrip_sample : '\x00' ∉ ['?', ' '] ∧
    ComesBack (concatEncodeUriRequest true) concatDecodeUriRequest (utf8 ['?', ' ']) ∧
    ∀ encode_all, ComesBack (fun str s => concatEncodeUrl str s encode_all) concatDecodeUrl
      (utf8 ['?', ' ']) := by
  refine ⟨by decide, (uri_roundTrip_iff true ['?', ' '] (by decide)).mpr ?_⟩
  intro before c after heq
  rcases before with _ | ⟨x, _ | ⟨y, before⟩⟩
  · obtain ⟨rfl, -⟩ := List.cons.inj heq
    exact ⟨by unfold Misread; decide, by unfold Asserted; decide⟩
  · obtain ⟨rfl, hrest⟩ := List.cons.inj heq
    obtain ⟨rfl, -⟩ := List.cons.inj hrest
    exact ⟨by unfold Misread; decide, by unfold Asserted; decide⟩
  · simp at heq

/-- In `?# ` the space is written as a plus sign, which is not read as a space after the hash
sign. -/
theorem uri_not_roundTrip : ¬∀ asserts cs, '\x00' ∉ cs →
    ComesBack (concatEncodeUriRequest asserts) concatDecodeUriRequest (utf8 cs) ∧
      ∀ encode_all,
        ComesBack (fun str s => concatEncodeUrl str s encode_all) concatDecodeUrl (utf8 cs) := by
  intro h
  obtain ⟨text, hencode, hdecode⟩ := (h true ['?', '#', ' '] (by decide)).1 [] []
  have htext : concatEncodeUriRequest true [] (utf8 ['?', '#', ' ']) =
      .ok ("?#+".toList.map byteOf) := by decide
  rw [htext] at hencode
  obtain rfl : "?#+".toList.map byteOf = text := by simpa using hencode
  revert hdecode
  decide

end Qore.Text
