import Qore.Lib.Decimal
import Qore.Text.Format
import Qore.Text.UriRoundTrip

/-!
# `Qore.Text.Entity`: character references of HTML and XML

`concatEncode` writes some characters of a string as `&name;` or `&#number;`, and `concatDecode`
reads such references. Both strings are in UTF-8.

* `concatEncode_holds`: the buffer of the string gets what the text gets.
* `concatDecodeLoop_piece`: what was written for a character is read as the character.
* `entity_roundTrip`: the string comes back, and its text has no special character outside the
  references.
-/

set_option autoImplicit false

namespace Qore.Text

open Qore.Lib Qore.Lib.Words Qore.Lib.Decimal
open Qore.Stream (Fault Exception)

/-! ### The table -/

/-- `emap.find`: the code of a name. -/
def emapFind (entity : List UInt8) : Option Nat :=
  (xhtmlEntityList.find? fun e => ascii e.2 == entity).map fun e => e.1

/-! ### Encoding -/

/-- `CE_XHTML`. -/
def ceXhtml : Nat := ceHtml ||| ceXml

/-- `CD_HTML`, `CD_XML`, `CD_NUM_REF` and `CD_XHTML`. -/
def cdHtml : Nat := 1 <<< 0

def cdXml : Nat := 1 <<< 1

def cdNumRef : Nat := 1 <<< 2

def cdXhtml : Nat := cdHtml ||| cdXml

/-- `code & flag`. -/
def has (code flag : Nat) : Bool := code &&& flag ≠ 0

/-- `&name;`. -/
def namedRef (name : List UInt8) : List UInt8 := byteOf '&' :: name ++ [byteOf ';']

/-- `sprintf("&#%u;", cp)`. -/
def numericRef (cp : Nat) : List UInt8 :=
  namedRef (byteOf '#' :: (Nat.toDigits 10 cp).map byteOf)

/-- The exception of `QoreEncoding::getByteLen`. -/
def invalidUtf8 : Fault :=
  .exception ⟨"INVALID-ENCODING", "invalid UTF-8 encoding encountered in string"⟩

/-- The loop of `concatEncode`, on the bytes of the string from `i` on. -/
def concatEncodeLoop (asserts : Bool) (code : Nat) :
    List UInt8 → List UInt8 → Except Fault (List UInt8)
  | [], str => .ok str
  | c :: p, str =>
    if bits c 0x80 ≠ 0 then
      match getUnicodePointFromBytePos (c :: p) 0 with
      | none => .error invalidUtf8
      | some (cp, len) =>
        -- `assert(len)` and `assert(cp)`
        if has code ceHtml ∧ asserts = true ∧ (len = 0 ∨ cp = 0) then .error .assertion
        else
          match if has code ceHtml then smap cp else none with
          | some name => concatEncodeLoop asserts code (p.drop (len - 1)) (str ++ namedRef name)
          | none =>
            if has code ceNonascii then
              concatEncodeLoop asserts code (p.drop (len - 1)) (str ++ numericRef cp)
            else concatEncodeLoop asserts code p (str ++ [c])
    else if has code ceHtml && htmlAscii c || has code ceXml && xmlAscii c then
      match smap c.toNat with
      | none => .error (if asserts then .assertion else .undefined)
      | some name => concatEncodeLoop asserts code p (str ++ namedRef name)
    else concatEncodeLoop asserts code p (str ++ [c])
  termination_by p => p.length
  decreasing_by all_goals (simp only [List.length_cons, List.length_drop]; omega)

/-- `concatEncode`. -/
def concatEncode (asserts : Bool) (str s : List UInt8) (code : Nat) : Except Fault (List UInt8) :=
  if s.length = 0 then .ok str
  else if code = 0 then .ok (str ++ s)
  else concatEncodeLoop asserts code s str

/-! ### The buffer -/

theorem and_ne_zero_iff (c : UInt8) : c &&& 0x80 ≠ 0 ↔ bits c 0x80 ≠ 0 := by
  rw [Ne, Ne, ← UInt8.toNat_inj, UInt8.toNat_and]
  exact Iff.rfl

/-- A code has 32 bits. -/
theorem utf8GetUnicode_lt (p : List UInt8) : utf8GetUnicode p < 2 ^ 32 := by
  have hshift : ∀ (b : UInt8) (mask k : Nat), k ≤ 18 → bits b mask <<< k < 2 ^ 32 := by
    intro b mask k hk
    have hlt : bits b mask < 2 ^ 8 := Nat.and_le_left.trans_lt b.toNat_lt
    exact (Nat.shiftLeft_lt hlt).trans_le (Nat.pow_le_pow_right (by decide) (by omega))
  have hbits : ∀ (b : UInt8) (mask : Nat), bits b mask < 2 ^ 32 := fun b mask =>
    hshift b mask 0 (by decide)
  unfold utf8GetUnicode
  split
  · split
    · split
      · exact Nat.or_lt_two_pow (Nat.or_lt_two_pow (Nat.or_lt_two_pow (hshift _ _ _ (by decide))
          (hshift _ _ _ (by decide))) (hshift _ _ _ (by decide))) (hbits _ _)
      · exact Nat.or_lt_two_pow (Nat.or_lt_two_pow (hshift _ _ _ (by decide))
          (hshift _ _ _ (by decide))) (hbits _ _)
    · exact Nat.or_lt_two_pow (hshift _ _ _ (by decide)) (hbits _ _)
  · have hlt := (byteAt p 0).toNat_lt
    unfold signExtend
    split <;> omega

theorem getUnicodePoint_lt {p : List UInt8} {pos cp len : Nat}
    (h : getUnicodePointFromBytePos p pos = some (cp, len)) : cp < 2 ^ 32 := by
  unfold getUnicodePointFromBytePos at h
  dsimp only at h
  split at h
  · cases h
  · cases h
    exact utf8GetUnicode_lt _

/-- The buffer reads UTF-8 as the text does. -/
theorem getUnicode_utf8 (p : List UInt8) :
    Encoding.getUnicode .utf8 p = getUnicodePointFromBytePos p 0 := by
  unfold Encoding.getUnicode Encoding.getByteLen getUnicodePointFromBytePos
  rw [List.drop_zero]
  show Option.map _ (if (getByteLen p 1).2 = true then none else some (getByteLen p 1).1) = _
  dsimp only
  generalize getByteLen p 1 = r
  obtain ⟨n, _ | _⟩ := r <;> rfl

/-- A named entity fits into an `int`. -/
theorem length_named_lt {cp : Nat} {name : List UInt8} (h : smap cp = some name) :
    (ascii "&" ++ name ++ ascii ";").length < 2 ^ 31 := by
  have hshort : name.length ≤ 8 := length_smap h
  rw [List.length_append, List.length_append, show (ascii "&").length = 1 from rfl,
    show (ascii ";").length = 1 from rfl]
  omega

/-- So does a numeric one. -/
theorem length_numeric_lt {cp : Nat} (hcp : cp < 2 ^ 32) :
    (ascii "&#" ++ decimal (cp % 2 ^ 32) ++ ascii ";").length < 2 ^ 31 := by
  have hdigits := length_decimal_le (show 0 < 10 by decide) (show cp < 10 ^ 10 by omega)
  rw [Nat.mod_eq_of_lt hcp, List.length_append, List.length_append,
    show (ascii "&#").length = 2 from rfl, show (ascii ";").length = 1 from rfl]
  omega

section
variable {M : Memory UInt8} {asserts : Bool} {code : Nat}

/-- The loop of `concatEncode` on the buffer appends what the text gets. -/
theorem encodeLoop_holds {p xs out : List UInt8} (hok : concatEncodeLoop asserts code p xs = .ok out) :
    ∀ {s : Str UInt8}, Holds M s xs → ∃ t, s.encodeLoop M .utf8 code p = some t ∧ Holds M t out := by
  -- the flag is looked at as a number
  have hentity : ∀ cp : Nat, (if _ : has code ceHtml = true then smap cp else none) =
      if code &&& ceHtml ≠ 0 then smap cp else none := by
    intro cp
    by_cases hflag : code &&& ceHtml ≠ 0 <;> simp [has, hflag]
  fun_induction concatEncodeLoop asserts code p xs with
  | case1 str =>
    intro s h
    cases hok
    exact ⟨s, by rw [Str.encodeLoop], h⟩
  | case2 | case3 | case7 => cases hok -- the exceptions
  | case4 c p str hbit cp len hget _ name hname ih =>
    -- a character with a name
    intro s h
    have hsmap : smap cp = some name := by
      split at hname
      · exact hname
      · cases hname
    obtain ⟨t1, ht1, h1⟩ := sprintf_holds h 4 (length_named_lt hsmap)
    obtain ⟨t, ht, hholds⟩ := ih hok h1
    rw [hentity] at hname
    refine ⟨t, ?_, hholds⟩
    rw [Str.encodeLoop, if_pos ((and_ne_zero_iff c).mpr hbit), getUnicode_utf8, hget]
    dsimp only
    rw [hname]
    dsimp only
    rw [ht1, Option.bind_eq_bind, Option.bind_some, ht]
  | case5 c p str hbit cp len hget _ hname hnum ih =>
    -- a character by its number
    intro s h
    have hcp := getUnicodePoint_lt hget
    obtain ⟨t1, ht1, h1⟩ := sprintf_holds h 5 (length_numeric_lt hcp)
    rw [Nat.mod_eq_of_lt hcp] at h1
    obtain ⟨t, ht, hholds⟩ := ih hok h1
    rw [hentity] at hname
    simp only [has, decide_eq_true_eq] at hnum
    refine ⟨t, ?_, hholds⟩
    rw [Str.encodeLoop, if_pos ((and_ne_zero_iff c).mpr hbit), getUnicode_utf8, hget]
    dsimp only
    rw [hname, if_pos hnum]
    dsimp only
    rw [ht1, Option.bind_eq_bind, Option.bind_some, ht]
  | case6 c p str hbit cp len hget _ hname hnum ih =>
    -- the first byte of a character that is kept; the others follow in later rounds
    intro s h
    obtain ⟨t1, ht1, h1, -⟩ := concatChar_holds h c
    obtain ⟨t, ht, hholds⟩ := ih hok h1
    rw [hentity] at hname
    simp only [has, decide_eq_true_eq] at hnum
    refine ⟨t, ?_, hholds⟩
    rw [Str.encodeLoop, if_pos ((and_ne_zero_iff c).mpr hbit), getUnicode_utf8, hget]
    dsimp only
    rw [hname, if_neg hnum]
    dsimp only
    rw [ht1, Option.bind_eq_bind, Option.bind_some, ht]
  | case8 c p str hbit hspecial name hname ih =>
    -- ASCII that is replaced: the buffer gets the name in three calls
    intro s h
    obtain ⟨t1, ht1, h1, -⟩ := concatChar_holds h 38
    obtain ⟨t2, ht2, h2, -⟩ := concatCStr_holds (M := M) h1.fills name
    obtain ⟨t3, ht3, h3, -⟩ := concatChar_holds h2 59
    rw [List.append_assoc, List.append_assoc] at h3
    obtain ⟨t, ht, hholds⟩ := ih hok h3
    simp only [has, Bool.or_eq_true, Bool.and_eq_true, decide_eq_true_eq] at hspecial
    refine ⟨t, ?_, hholds⟩
    rw [Str.encodeLoop, if_neg fun hc => hbit ((and_ne_zero_iff c).mp hc), if_pos hspecial, hname]
    simp only [ht1, Option.bind_eq_bind, Option.bind_some, Option.getD_some, ht2, ht3, ht]
  | case9 c p str hbit hspecial ih =>
    intro s h
    obtain ⟨t1, ht1, h1, -⟩ := concatChar_holds h c
    obtain ⟨t, ht, hholds⟩ := ih hok h1
    simp only [has, Bool.or_eq_true, Bool.and_eq_true, decide_eq_true_eq] at hspecial
    refine ⟨t, ?_, hholds⟩
    rw [Str.encodeLoop, if_neg fun hc => hbit ((and_ne_zero_iff c).mp hc), if_neg hspecial, ht1,
      Option.bind_eq_bind, Option.bind_some, ht]

/-- `concatEncode` on the buffer of a string in UTF-8 appends what the text gets. -/
theorem concatEncode_holds {s : Str UInt8} {xs str out : List UInt8} (h : Holds M s xs)
    (hroom : str ≠ [] → code ≠ 0 →
      s.len < allocateSize s.allocated (encodeNeed s.len str.length))
    (hok : concatEncode asserts xs str code = .ok out) :
    ∃ t, s.concatEncode M .utf8 str .utf8 code = some t ∧ Holds M t out := by
  unfold concatEncode at hok
  unfold Str.concatEncode
  split
  · rename_i hnil
    rw [if_pos hnil] at hok
    cases hok
    exact ⟨s, rfl, h⟩
  · rename_i hne
    rw [if_neg hne] at hok
    split
    · rename_i hcode
      rw [if_pos hcode] at hok
      cases hok
      obtain ⟨t, ht, hholds, -⟩ := concatStr_holds h str
      exact ⟨t, ht, hholds⟩
    · rename_i hcode
      rw [if_neg hcode] at hok
      rw [if_neg (by simp [Encoding.isAsciiCompat]), ite_self]
      exact encodeLoop_holds hok (h.allocate (hroom (by simpa using hne) hcode))

end

/-! ### Decoding -/

/-- `strchr(s, c)`, as a distance; the text ends at its first zero byte. -/
def strchr (c : UInt8) : List UInt8 → Option Nat
  | [] => none
  | b :: s => if b = c then some 0 else if b = 0 then none else (strchr c s).map (· + 1)

/-- The value of the digits at the start of a text, after `n`. -/
def digitsValue (base : Nat) : Nat → List UInt8 → Nat
  | n, [] => n
  | n, b :: s =>
    match xdigit b with
    | some d => if d < base then digitsValue base (n * base + d) s else n
    | none => n

/-- `strtoul(s, 0, base)` for the bases 10 and 16. -/
def strtoul (base : Nat) (s : List UInt8) : Nat :=
  let s := s.dropWhile fun b => b = 32 || 9 ≤ b && b ≤ 13
  let neg := byteAt s 0 = byteOf '-'
  let s := if neg ∨ byteAt s 0 = byteOf '+' then s.drop 1 else s
  let hex := base = 16 ∧ byteAt s 0 = byteOf '0' ∧
    (byteAt s 1 = byteOf 'x' ∨ byteAt s 1 = byteOf 'X') ∧ (xdigit (byteAt s 2)).isSome
  let n := digitsValue base 0 (if hex then s.drop 2 else s)
  if 2 ^ 64 ≤ n then 2 ^ 64 - 1 else if neg then (2 ^ 64 - n) % 2 ^ 64 else n

/-- Whether the reference with the code `cp` is decoded. -/
def accepted (code cp : Nat) : Bool :=
  let dall := code &&& cdXhtml = cdXhtml
  if ¬dall ∧ ¬has code cdHtml then cp < 0x80
  else if ¬dall ∧ ¬has code cdXml then cp ≠ 0x27
  else true

section
variable (concatUnicode : List UInt8 → Nat → Option (List UInt8))

/-- A numeric reference, of which `s` follows after `&#`: the string with the character, and the
number of bytes up to the semicolon; or where the loop looks for the next byte. -/
def decodeNumRef (s str : List UInt8) : Except (List UInt8) (List UInt8 × Nat) :=
  match strchr (byteOf ';') s with
  | some e =>
    if e < 8 then
      let code :=
        if byteAt s 0 = byteOf 'x' then strtoul 16 (s.drop 1) % 2 ^ 32 else strtoul 10 s % 2 ^ 32
      match concatUnicode str code with
      | some str => .ok (str, e)
      -- error occurred, so back out
      | none => .error (byteOf '&' :: byteOf '#' :: s)
    else .error s
  | none => .error s

/-- A named reference, of which `s` follows after `&`. -/
def decodeNamedRef (code : Nat) (s str : List UInt8) : Option (List UInt8 × Nat) :=
  match strchr (byteOf ';') s with
  | some e =>
    if e < 16 then
      match emapFind (s.take e) with
      | some cp => if accepted code cp then (concatUnicode str cp).map (·, e) else none
      | none => none
    else none
  | none => none

/-- The reference that may start at `&`, of which `p` follows: the string with the character, and
the bytes of `p` that are read; or where the loop looks for the next byte. -/
def decodeRef (code : Nat) (p str : List UInt8) : Except (List UInt8) (List UInt8 × Nat) :=
  if byteAt p 0 = byteOf '#' then
    if has code cdNumRef then
      match decodeNumRef concatUnicode (p.drop 1) str with
      | .ok (str, e) => .ok (str, e + 2)
      | .error s => .error s
    else .error (byteOf '&' :: p)
  else if byteAt p 0 < 128 ∧ has code cdXhtml then
    match decodeNamedRef concatUnicode code p str with
    | some (str, e) => .ok (str, e + 1)
    | none => .error (byteOf '&' :: p)
  else .error (byteOf '&' :: p)

/-- The loop of `concatDecode`, on the bytes of the string from `i` on. -/
def concatDecodeLoop (code : Nat) : List UInt8 → List UInt8 → Except Fault (List UInt8)
  | [], str => .ok str
  | c :: p, str =>
    if c ≠ byteOf '&' then concatDecodeLoop code p (str ++ [c])
    else
      match decodeRef concatUnicode code p str with
      | .ok (str, k) => concatDecodeLoop code (p.drop k) str
      | .error s =>
        if byteAt s 0 < 0x80 then concatDecodeLoop code p (str ++ [byteAt s 0])
        else
          let (cl, invalid) := getByteLen s 1
          if invalid then .error invalidUtf8
          else concatDecodeLoop code (p.drop (cl - 1)) (str ++ s.take cl)
  termination_by p => p.length
  decreasing_by all_goals (simp only [List.length_cons, List.length_drop]; omega)

/-- `concatDecode`. -/
def concatDecode (str s : List UInt8) (code : Nat) : Except Fault (List UInt8) :=
  if s.length = 0 then .ok str
  else if code = 0 then .ok (str ++ s)
  else concatDecodeLoop concatUnicode code s str

end

/-! ### The table, both ways -/

/-- An entry is found by its key. -/
theorem find?_key {α κ : Type} [BEq κ] [LawfulBEq κ] {f : α → κ} {l : List α} (h : (l.map f).Nodup)
    {a : α} (ha : a ∈ l) : l.find? (fun b => f b == f a) = some a := by
  induction l with
  | nil => cases ha
  | cons b l ih =>
    rw [List.map_cons, List.nodup_cons] at h
    rw [List.find?_cons]
    rcases List.mem_cons.mp ha with rfl | ha
    · rw [beq_self_eq_true]
    · have hne : f b ≠ f a := fun heq => h.1 (heq ▸ List.mem_map_of_mem ha)
      rw [beq_false_of_ne hne]
      exact ih h.2 ha

theorem lookup_eq_find? {α κ : Type} [BEq κ] [LawfulBEq κ] (k : κ) (l : List (κ × α)) :
    l.lookup k = (l.find? fun e => e.1 == k).map fun e => e.2 := by
  induction l with
  | nil => rfl
  | cons e l ih =>
    rw [List.lookup_cons, List.find?_cons]
    by_cases h : e.1 = k
    · subst h
      simp
    · rw [beq_false_of_ne h, beq_false_of_ne (Ne.symm h), ih]

/-- The codes are different. -/
theorem nodup_codes : (xhtmlEntityList.map fun e => e.1).Nodup :=
  (nodup_of_distinct _ _ xhtmlEntityList_fits.2.1).1

theorem nodup_names : (xhtmlEntityList.map fun e => ascii e.2).Nodup :=
  (nodup_of_distinct _ _ xhtmlEntityList_fits.2.2).1.of_map _

variable {e : Nat × String}

theorem smap_of_mem (he : e ∈ xhtmlEntityList) : smap e.1 = some (ascii e.2) := by
  unfold smap
  rw [lookup_eq_find?, find?_key nodup_codes he]
  rfl

theorem emapFind_of_mem (he : e ∈ xhtmlEntityList) : emapFind (ascii e.2) = some e.1 := by
  unfold emapFind
  rw [find?_key nodup_names he]
  rfl

/-- What is found comes from the table. -/
theorem smap_eq_some {cp : Nat} {name : List UInt8} (h : smap cp = some name) :
    ∃ e ∈ xhtmlEntityList, e.1 = cp ∧ ascii e.2 = name := by
  unfold smap at h
  rw [lookup_eq_find?, Option.map_map] at h
  obtain ⟨e, hfind, hname⟩ := Option.map_eq_some_iff.mp h
  exact ⟨e, List.mem_of_find?_eq_some hfind, by simpa using List.find?_some hfind, hname⟩

/-- A byte that may stand between `&` and `;`. -/
def refByte (b : UInt8) : Bool :=
  b < 128 && b ≠ 0 && b ≠ byteOf ';' && b ≠ byteOf '&' && b ≠ byteOf '<' && b ≠ byteOf '>' &&
    b ≠ byteOf '"'

/-- The names are short, start with a letter and end before the semicolon. -/
theorem names_refByte : ∀ e ∈ xhtmlEntityList, (ascii e.2).length < 16 ∧
    byteAt (ascii e.2) 0 ≠ byteOf '#' ∧ (ascii e.2) ≠ [] ∧
    (ascii e.2).all refByte = true := by
  have hbyte : ∀ b : UInt8, nameByte b = true → refByte b = true ∧ b ≠ byteOf '#' := fun b =>
    forall_byte_digits (k := 16) (P := fun b => nameByte b = true → refByte b = true ∧ b ≠ byteOf '#')
      (by decide) b b.toNat_lt
  intro e he
  obtain ⟨-, hne, hlength, hall⟩ := entity_fits he
  refine ⟨by omega, ?_, hne, List.all_eq_true.2 fun b hb => (hbyte b (hall b hb)).1⟩
  obtain ⟨b, w, hw⟩ := List.exists_cons_of_ne_nil hne
  rw [hw]
  exact (hbyte b (hall b (hw ▸ List.mem_cons_self))).2

theorem codes_bound : ∀ e ∈ xhtmlEntityList, e.1 < 10000 := fun _ he => (entity_fits he).1

/-! ### One character of valid UTF-8 -/

/-- The bytes that follow the first one of a character. -/
theorem tail_utf8EncodeChar (c : Char) : ∀ x ∈ (String.utf8EncodeChar c).tail,
    bits x 0x80 ≠ 0 ∧ bits x 0xc0 ≠ 0xc0 := by
  have htail : ∀ x < 64, bits (.ofNat (x + 128)) 0x80 ≠ 0 ∧
      bits (.ofNat (x + 128)) 0xc0 ≠ 0xc0 := by decide
  unfold String.utf8EncodeChar
  generalize c.val.toNat = v
  dsimp only
  split
  · simp
  split
  · simpa using htail (v % 64) (by omega)
  split
  · simpa using And.intro (htail (v / 64 % 64) (by omega)) (htail (v % 64) (by omega))
  · simpa using And.intro (htail (v / 4096 % 64) (by omega))
      (And.intro (htail (v / 64 % 64) (by omega)) (htail (v % 64) (by omega)))

/-- The code of a character is read. -/
theorem utf8GetUnicode_utf8EncodeChar (c : Char) (rest : List UInt8) :
    utf8GetUnicode (String.utf8EncodeChar c ++ rest) = c.toNat := by
  by_cases h : 0x400 ≤ c.toNat ∧ c.toNat ≤ 0x7ff
  · have hlead : ∀ x < 32, bits (.ofNat (x + 192)) 0x1f = x := by decide
    have htail : ∀ x < 64, bits (.ofNat (x + 128)) 0x3f = x := by decide
    have hw : String.utf8EncodeChar c =
        [.ofNat (c.toNat / 64 % 32 + 192), .ofNat (c.toNat % 64 + 128)] := by
      show (if c.toNat ≤ 127 then _ else if c.toNat ≤ 2047 then _ else _) = _
      rw [if_neg (by omega), if_pos h.2]
      simp
    have hx := bits_utf8_two (c.toNat / 64 % 32) (by omega)
    have hread : utf8GetUnicode (String.utf8EncodeChar c ++ rest) =
        (c.toNat / 64 % 32) <<< 6 ||| c.toNat % 64 := by
      rw [hw]
      have hlead := hlead (c.toNat / 64 % 32) (by omega)
      have htail := htail (c.toNat % 64) (by omega)
      simp [-UInt8.ofNat_add, utf8GetUnicode, byteAt, hx.1, hx.2, hlead, htail]
    rw [hread, join_two (by omega)]
    omega
  · have hle : c.toNat ≤ 0x10ffff := by
      rcases c.valid with hlt | ⟨-, hlt⟩
      · exact Nat.le_trans (Nat.le_of_lt hlt) (by decide)
      · exact Nat.le_of_lt_succ hlt
    rw [← encode_eq_utf8EncodeChar h, getUnicode_encode hle, (storedCode_eq_self_iff _).mpr h]

theorem getUnicodePoint_utf8EncodeChar (c : Char) (rest : List UInt8) :
    getUnicodePointFromBytePos (String.utf8EncodeChar c ++ rest) 0 =
      some (c.toNat, (String.utf8EncodeChar c).length) := by
  have hlen : getByteLen (String.utf8EncodeChar c ++ rest) 1 =
      ((String.utf8EncodeChar c).length, false) := by
    unfold getByteLen
    rw [lettersOf_append (utf8_scans c)]
    rfl
  unfold getUnicodePointFromBytePos
  dsimp only
  rw [List.drop_zero, hlen, utf8GetUnicode_utf8EncodeChar]
  rfl

variable {c : Char}

theorem utf8EncodeChar_ascii (hc : c.toNat ≤ 127) : String.utf8EncodeChar c = [byteOf c] := by
  exact if_pos hc

theorem utf8EncodeChar_high (hc : 127 < c.toNat) : ∀ x ∈ String.utf8EncodeChar c, 127 < x := by
  rcases (charBytes_utf8EncodeChar c).ascii_or_high with ⟨b, -, hw⟩ | hhigh
  · have hlen := congrArg List.length hw
    rw [String.length_utf8EncodeChar] at hlen
    have hval := UInt32.le_iff_toNat_le.mp (Char.utf8Size_eq_one_iff.mp hlen)
    exact absurd hval (Nat.not_le.mpr hc)
  · exact hhigh

/-! ### The text that is written -/

/-- Whether `concatEncode` writes an ASCII byte as a reference. -/
def special (code : Nat) (b : UInt8) : Bool :=
  has code ceHtml && htmlAscii b || has code ceXml && xmlAscii b

/-- The text that `concatEncode` writes for a character. -/
def entityText (code : Nat) (c : Char) : List UInt8 :=
  if 127 < c.toNat then
    match if has code ceHtml then smap c.toNat else none with
    | some name => namedRef name
    | none => if has code ceNonascii then numericRef c.toNat else String.utf8EncodeChar c
  else if special code (byteOf c) then namedRef ((smap c.toNat).getD [])
  else [byteOf c]

theorem smap_special {code : Nat} {b : UInt8} (h : special code b = true) :
    ∃ name, smap b.toNat = some name := by
  have hxml : xmlAscii b = true := by
    unfold special xmlAscii at *
    simp only [Bool.or_eq_true, Bool.and_eq_true] at h ⊢
    rcases h with ⟨-, h⟩ | ⟨-, h⟩
    · exact .inl h
    · exact h
  have hcases : b = 34 ∨ b = 38 ∨ b = 60 ∨ b = 62 ∨ b = 39 := by
    simpa [xmlAscii, htmlAscii, or_assoc] using hxml
  rcases hcases with rfl | rfl | rfl | rfl | rfl
  · exact ⟨_, smap_of_mem (e := (34, "quot")) (by decide)⟩
  · exact ⟨_, smap_of_mem (e := (38, "amp")) (by decide)⟩
  · exact ⟨_, smap_of_mem (e := (60, "lt")) (by decide)⟩
  · exact ⟨_, smap_of_mem (e := (62, "gt")) (by decide)⟩
  · exact ⟨_, smap_of_mem (e := (39, "apos")) (by decide)⟩

section
variable {asserts : Bool} {code : Nat}

/-- A byte inside of a character is copied. -/
theorem concatEncodeLoop_tail {x : UInt8} (hx : bits x 0x80 ≠ 0 ∧ bits x 0xc0 ≠ 0xc0)
    (hcode : has code ceNonascii = false) (p str : List UInt8) :
    concatEncodeLoop asserts code (x :: p) str = concatEncodeLoop asserts code p (str ++ [x]) := by
  have hread : getUnicodePointFromBytePos (x :: p) 0 = some (x.toNat + 0xffffff00, 1) := by
    have hscan : Scans charLen [x] := ⟨by simp, fun rest => by simp [charLen, hx.2]⟩
    have hlen : getByteLen ([x] ++ p) 1 = (1, false) := by
      unfold getByteLen
      rw [lettersOf_append hscan]
      rfl
    have hhigh := toNat_of_high (lt_of_bits hx.1)
    have hsign : signExtend x = x.toNat + 0xffffff00 := by
      unfold signExtend
      rw [if_neg (by omega)]
    unfold getUnicodePointFromBytePos
    dsimp only
    rw [List.drop_zero, ← List.singleton_append, hlen]
    simp [utf8GetUnicode, byteAt, hx.2, hsign]
  -- the sign makes it a code beyond the table
  have hnone : (if has code ceHtml then smap (x.toNat + 0xffffff00) else none) = none := by
    split
    · cases hfind : smap (x.toNat + 0xffffff00) with
      | none => rfl
      | some name =>
        obtain ⟨e, he, hcp, -⟩ := smap_eq_some hfind
        have := codes_bound e he
        omega
    · rfl
  rw [concatEncodeLoop, if_pos hx.1, hread]
  dsimp only
  rw [if_neg (by simp), hnone]
  rw [hcode]
  rfl

/-- The text of a character is appended. -/
theorem concatEncodeLoop_char (c : Char) (rest str : List UInt8) :
    concatEncodeLoop asserts code (String.utf8EncodeChar c ++ rest) str =
      concatEncodeLoop asserts code rest (str ++ entityText code c) := by
  by_cases hc : 127 < c.toNat
  · have hread := getUnicodePoint_utf8EncodeChar c rest
    have hhigh := utf8EncodeChar_high hc
    have htail := tail_utf8EncodeChar c
    have hpos := (utf8_scans c).pos
    obtain ⟨b, w, hw⟩ := List.exists_cons_of_length_pos hpos
    rw [hw] at hread hhigh htail
    have hb : bits b 0x80 ≠ 0 := (bits_high_iff b).2 (hhigh b List.mem_cons_self)
    have hdrop : (w ++ rest).drop ((b :: w).length - 1) = rest := by
      rw [List.length_cons, Nat.add_sub_cancel, List.drop_left]
    unfold entityText
    rw [if_pos hc, hw, List.cons_append, concatEncodeLoop, if_pos hb, ← List.cons_append, hread]
    dsimp only
    have hassert : ¬(has code ceHtml = true ∧ asserts = true ∧
        ((b :: w).length = 0 ∨ c.toNat = 0)) := by
      rintro ⟨-, -, h | h⟩
      · simp at h
      · omega
    rw [if_neg hassert, hdrop]
    cases hname : if has code ceHtml then smap c.toNat else none with
    | some name => rfl
    | none =>
      cases hcode : has code ceNonascii with
      | true => rfl
      | false =>
        -- the other bytes are copied one by one
        have hcopy : ∀ (w str : List UInt8), (∀ x ∈ w, bits x 0x80 ≠ 0 ∧ bits x 0xc0 ≠ 0xc0) →
            concatEncodeLoop asserts code (w ++ rest) str =
              concatEncodeLoop asserts code rest (str ++ w) := by
          intro w
          induction w with
          | nil => intro str _; rw [List.nil_append, List.append_nil]
          | cons x w ih =>
            intro str hx
            rw [List.cons_append, concatEncodeLoop_tail (hx x List.mem_cons_self) hcode,
              ih _ fun y hy => hx y (List.mem_cons_of_mem x hy), List.append_assoc,
              List.singleton_append]
        show concatEncodeLoop asserts code (w ++ rest) (str ++ [b]) =
          concatEncodeLoop asserts code rest (str ++ (b :: w))
        rw [hcopy w _ htail, List.append_assoc, List.singleton_append]
  · have hle : c.toNat ≤ 127 := Nat.not_lt.mp hc
    have hnat : (byteOf c).toNat = c.toNat := by
      unfold byteOf
      rw [UInt8.toNat_ofNat']
      omega
    have hbit : ¬bits (byteOf c) 0x80 ≠ 0 := by
      rw [bits_high_iff, UInt8.not_lt, UInt8.le_iff_toNat_le]
      exact hnat.trans_le hle
    unfold entityText
    rw [if_neg hc, utf8EncodeChar_ascii hle, List.singleton_append, concatEncodeLoop, if_neg hbit]
    change (if special code (byteOf c) = true then _ else _) = _
    by_cases hspecial : special code (byteOf c) = true
    · obtain ⟨name, hname⟩ := smap_special hspecial
      rw [if_pos hspecial, if_pos hspecial, hname]
      rw [hnat] at hname
      rw [hname]
      rfl
    · rw [if_neg hspecial, if_neg hspecial]

end

/-! ### Reading the references -/

theorem strchr_append {c : UInt8} {w : List UInt8} (hw : ∀ b ∈ w, b ≠ c ∧ b ≠ 0)
    (rest : List UInt8) : strchr c (w ++ c :: rest) = some w.length := by
  induction w with
  | nil => simp [strchr]
  | cons b w ih =>
    have hb := hw b List.mem_cons_self
    rw [List.cons_append, strchr, if_neg hb.1, if_neg hb.2,
      ih fun x hx => hw x (List.mem_cons_of_mem b hx)]
    rfl

theorem refByte_spec {b : UInt8} (h : refByte b = true) :
    b < 128 ∧ b ≠ 0 ∧ b ≠ byteOf ';' ∧ b ≠ byteOf '&' ∧ b ≠ byteOf '<' ∧ b ≠ byteOf '>' ∧
      b ≠ byteOf '"' := by
  simpa [refByte, and_assoc] using h

/-- A digit, and its value. -/
theorem digit_byte (hc : c.isDigit = true) :
    xdigit (byteOf c) = some (c.toNat - '0'.toNat) ∧ c.toNat - '0'.toNat < 10 ∧
      refByte (byteOf c) = true ∧ byteOf c ≠ byteOf 'x' ∧ byteOf c ≠ byteOf '-' ∧
      byteOf c ≠ byteOf '+' ∧ (byteOf c = 32 || 9 ≤ byteOf c && byteOf c ≤ 13) = false := by
  obtain ⟨h1, h2⟩ := Char.isDigit_iff_toNat.mp hc
  have hcases : ∀ n < 10, xdigit (UInt8.ofNat (48 + n)) = some (48 + n - '0'.toNat) ∧
      48 + n - '0'.toNat < 10 ∧ refByte (UInt8.ofNat (48 + n)) = true ∧
      UInt8.ofNat (48 + n) ≠ byteOf 'x' ∧ UInt8.ofNat (48 + n) ≠ byteOf '-' ∧
      UInt8.ofNat (48 + n) ≠ byteOf '+' ∧
      (UInt8.ofNat (48 + n) = 32 || 9 ≤ UInt8.ofNat (48 + n) && UInt8.ofNat (48 + n) ≤ 13) =
        false := by decide
  have hzero : '0'.toNat = 48 := rfl
  have hnine : '9'.toNat = 57 := rfl
  have h := hcases (c.toNat - 48) (by omega)
  have hval : 48 + (c.toNat - 48) = c.toNat := by omega
  rwa [hval] at h

theorem digitsValue_digits {ds : List Char} (hds : AllDigits ds) (rest : List UInt8) :
    ∀ n, digitsValue 10 n (ds.map byteOf ++ byteOf ';' :: rest) = Nat.ofDigitChars 10 ds n := by
  induction ds with
  | nil => intro n; rfl
  | cons d ds ih =>
    intro n
    obtain ⟨hd, hlt, -⟩ := digit_byte (hds d List.mem_cons_self)
    rw [List.map_cons, List.cons_append, digitsValue, hd]
    dsimp only
    rw [if_pos hlt, ih fun x hx => hds x (List.mem_cons_of_mem d hx), Nat.ofDigitChars_cons,
      Nat.mul_comm]

/-- The decimal digits of a number are read. -/
theorem strtoul_digits {n : Nat} (hn : n < 2 ^ 64) (rest : List UInt8) :
    strtoul 10 ((Nat.toDigits 10 n).map byteOf ++ byteOf ';' :: rest) = n := by
  have hdigits := allDigits_toDigits n
  have hval := value_toDigits n
  unfold value at hval
  obtain ⟨d, ds, hds⟩ := List.exists_cons_of_ne_nil (Nat.toDigits_ne_nil (n := n) (b := 10))
  rw [hds] at hdigits hval ⊢
  obtain ⟨-, -, -, -, hminus, hplus, hspace⟩ := digit_byte (hdigits d List.mem_cons_self)
  have hread := digitsValue_digits hdigits rest 0
  rw [List.map_cons, List.cons_append] at hread ⊢
  unfold strtoul
  rw [List.dropWhile_cons_of_neg (by simpa using hspace)]
  simp only [byteAt, List.getD_cons_zero, hminus, hplus, or_self, if_false, hread, hval,
    Nat.reduceEqDiff, false_and]
  rw [if_neg (by omega)]

section
variable {concatUnicode : List UInt8 → Nat → Option (List UInt8)} {code : Nat}

/-- Bytes without `&` are copied. -/
theorem concatDecodeLoop_raw {w : List UInt8} (hw : ∀ b ∈ w, b ≠ byteOf '&') (p : List UInt8) :
    ∀ str, concatDecodeLoop concatUnicode code (w ++ p) str =
      concatDecodeLoop concatUnicode code p (str ++ w) := by
  induction w with
  | nil => intro str; rw [List.nil_append, List.append_nil]
  | cons b w ih =>
    intro str
    rw [List.cons_append, concatDecodeLoop, if_pos (hw b List.mem_cons_self),
      ih fun x hx => hw x (List.mem_cons_of_mem b hx), List.append_assoc, List.singleton_append]

theorem concatDecodeLoop_named {e : Nat × String} (he : e ∈ xhtmlEntityList)
    (hflag : has code cdXhtml = true) (haccept : accepted code e.1 = true) {str str' : List UInt8}
    (hunicode : concatUnicode str e.1 = some str') (p : List UInt8) :
    concatDecodeLoop concatUnicode code (namedRef (ascii e.2) ++ p) str =
      concatDecodeLoop concatUnicode code p str' := by
  obtain ⟨hlen, hhash, hne, hbytes⟩ := names_refByte e he
  rw [List.all_eq_true] at hbytes
  have hname : ∀ b ∈ ascii e.2, b ≠ byteOf ';' ∧ b ≠ 0 := by
    intro b hb
    obtain ⟨-, h0, hsemi, -⟩ := refByte_spec (hbytes b hb)
    exact ⟨hsemi, h0⟩
  have htext : namedRef (ascii e.2) ++ p = byteOf '&' :: (ascii e.2 ++ byteOf ';' :: p) := by
    simp [namedRef]
  obtain ⟨b, name, hcons⟩ := List.exists_cons_of_ne_nil hne
  have hfirst : byteAt (ascii e.2 ++ byteOf ';' :: p) 0 = byteAt (ascii e.2) 0 := by
    rw [hcons]
    rfl
  have hlow : byteAt (ascii e.2) 0 < 128 := by
    rw [hcons]
    exact (refByte_spec (hbytes b (hcons ▸ List.mem_cons_self))).1
  have hread : decodeNamedRef concatUnicode code (ascii e.2 ++ byteOf ';' :: p) str =
      some (str', (ascii e.2).length) := by
    unfold decodeNamedRef
    rw [strchr_append hname]
    dsimp only
    rw [if_pos hlen, List.take_left, emapFind_of_mem he]
    dsimp only
    rw [if_pos haccept, hunicode]
    rfl
  have href : decodeRef concatUnicode code (ascii e.2 ++ byteOf ';' :: p) str =
      .ok (str', (ascii e.2).length + 1) := by
    unfold decodeRef
    rw [hfirst, if_neg hhash, if_pos ⟨hlow, hflag⟩, hread]
  have hdrop : (ascii e.2 ++ byteOf ';' :: p).drop ((ascii e.2).length + 1) = p := by
    rw [← List.drop_drop, List.drop_left]
    rfl
  rw [htext, concatDecodeLoop, if_neg (by simp), href]
  dsimp only
  rw [hdrop]

theorem concatDecodeLoop_numeric {n : Nat} (hn : n < 10 ^ 7) (hflag : has code cdNumRef = true)
    {str str' : List UInt8} (hunicode : concatUnicode str n = some str') (p : List UInt8) :
    concatDecodeLoop concatUnicode code (numericRef n ++ p) str =
      concatDecodeLoop concatUnicode code p str' := by
  have hdigits := allDigits_toDigits n
  have hlen : ((Nat.toDigits 10 n).map byteOf).length ≤ 7 := by
    rw [List.length_map]
    exact (Nat.length_toDigits_le_iff (b := 10) (by decide) (by decide)).mpr hn
  have hbytes : ∀ b ∈ (Nat.toDigits 10 n).map byteOf, b ≠ byteOf ';' ∧ b ≠ 0 := by
    intro b hb
    obtain ⟨c, hc, rfl⟩ := List.mem_map.mp hb
    obtain ⟨-, h0, hsemi, -⟩ := refByte_spec (digit_byte (hdigits c hc)).2.2.1
    exact ⟨hsemi, h0⟩
  have hfirst : byteAt ((Nat.toDigits 10 n).map byteOf ++ byteOf ';' :: p) 0 ≠ byteOf 'x' := by
    obtain ⟨d, ds, hds⟩ := List.exists_cons_of_ne_nil (Nat.toDigits_ne_nil (n := n) (b := 10))
    rw [hds] at hdigits ⊢
    exact (digit_byte (hdigits d List.mem_cons_self)).2.2.2.1
  have hvalue : strtoul 10 ((Nat.toDigits 10 n).map byteOf ++ byteOf ';' :: p) % 2 ^ 32 = n := by
    rw [strtoul_digits (by omega)]
    omega
  have htext : numericRef n ++ p =
      byteOf '&' :: byteOf '#' :: ((Nat.toDigits 10 n).map byteOf ++ byteOf ';' :: p) := by
    simp [numericRef, namedRef]
  generalize (Nat.toDigits 10 n).map byteOf = ds at hlen hbytes hfirst hvalue htext
  have hread : decodeNumRef concatUnicode (ds ++ byteOf ';' :: p) str = .ok (str', ds.length) := by
    unfold decodeNumRef
    rw [strchr_append hbytes]
    dsimp only
    rw [if_pos (by omega), if_neg hfirst, hvalue, hunicode]
  have href : decodeRef concatUnicode code (byteOf '#' :: (ds ++ byteOf ';' :: p)) str =
      .ok (str', ds.length + 2) := by
    unfold decodeRef
    have hfirst : byteAt (byteOf '#' :: (ds ++ byteOf ';' :: p)) 0 = byteOf '#' := rfl
    rw [if_pos hfirst, if_pos hflag, List.drop_succ_cons, List.drop_zero, hread]
  have hdrop : (byteOf '#' :: (ds ++ byteOf ';' :: p)).drop (ds.length + 2) = p := by
    rw [List.drop_succ_cons, ← List.drop_drop, List.drop_left]
    rfl
  rw [htext, concatDecodeLoop, if_neg (by simp), href]
  dsimp only
  rw [hdrop]

end

/-! ### The modes -/

/-- The sets of references. -/
inductive Markup where
  | html
  | xml
  | xhtml

/-- The argument of `concatEncode`. -/
def Markup.encodeMode (m : Markup) (nonascii : Bool) : Nat :=
  (match m with
    | .html => ceHtml
    | .xml => ceXml
    | .xhtml => ceXhtml) ||| if nonascii then ceNonascii else 0

/-- The argument of `concatDecode` that matches it. -/
def Markup.decodeMode (m : Markup) (nonascii : Bool) : Nat :=
  (match m with
    | .html => cdHtml
    | .xml => cdXml
    | .xhtml => cdXhtml) ||| if nonascii then cdNumRef else 0

/-- A text from `&` to `;`, without special characters between them. -/
def IsReference (text : List UInt8) : Prop :=
  ∃ body, text = namedRef body ∧ ∀ b ∈ body, refByte b = true

/-- A text that stands for itself: no `<`, `>`, `"` and `&`, and with `nonascii` only ASCII. -/
def IsPlain (nonascii : Bool) (text : List UInt8) : Prop :=
  ∀ b ∈ text, b ≠ byteOf '<' ∧ b ≠ byteOf '>' ∧ b ≠ byteOf '"' ∧ b ≠ byteOf '&' ∧
    (nonascii = true → b < 128)

/-- The text is made of references and of plain texts. -/
def Escaped (nonascii : Bool) (text : List UInt8) : Prop :=
  ∃ pieces : List (List UInt8), text = pieces.flatten ∧
    ∀ piece ∈ pieces, IsReference piece ∨ IsPlain nonascii piece

/-- The text of a character is a reference from the table that is decoded, a number, or the
character itself. -/
theorem entityText_cases (m : Markup) (nonascii : Bool) (c : Char) :
    (∃ e ∈ xhtmlEntityList, e.1 = c.toNat ∧
      entityText (m.encodeMode nonascii) c = namedRef (ascii e.2) ∧
      accepted (m.decodeMode nonascii) c.toNat = true) ∨
    (nonascii = true ∧ entityText (m.encodeMode nonascii) c = numericRef c.toNat) ∨
    (entityText (m.encodeMode nonascii) c = String.utf8EncodeChar c ∧
      IsPlain nonascii (String.utf8EncodeChar c)) := by
  have hascii : has (m.encodeMode nonascii) ceNonascii = nonascii := by
    cases m <;> cases nonascii <;> rfl
  by_cases hc : 127 < c.toNat
  · have htext : entityText (m.encodeMode nonascii) c =
        match if has (m.encodeMode nonascii) ceHtml then smap c.toNat else none with
        | some name => namedRef name
        | none => if nonascii then numericRef c.toNat else String.utf8EncodeChar c := by
      unfold entityText
      rw [if_pos hc, hascii]
    cases hname : if has (m.encodeMode nonascii) ceHtml then smap c.toNat else none with
    | some name =>
      rw [hname] at htext
      have hhtml : has (m.encodeMode nonascii) ceHtml = true := by
        by_contra hno
        rw [if_neg hno] at hname
        cases hname
      rw [if_pos hhtml] at hname
      obtain ⟨e, he, hcp, rfl⟩ := smap_eq_some hname
      refine .inl ⟨e, he, hcp, htext, ?_⟩
      -- an XML mode has no names beyond ASCII
      cases m with
      | html =>
        have h39 : c.toNat ≠ 0x27 := by omega
        cases nonascii <;>
          simpa [accepted, has, Markup.decodeMode, cdHtml, cdXml, cdXhtml, cdNumRef]
      | xml => cases nonascii <;> cases hhtml
      | xhtml => cases nonascii <;> rfl
    | none =>
      rw [hname] at htext
      cases nonascii with
      | true => exact .inr (.inl ⟨rfl, htext⟩)
      | false =>
        refine .inr (.inr ⟨htext, fun b hb => ?_⟩)
        have hhigh := utf8EncodeChar_high hc b hb
        exact ⟨ne_of_high hhigh (by decide), ne_of_high hhigh (by decide),
          ne_of_high hhigh (by decide), ne_of_high hhigh (by decide), by simp⟩
  · have hle : c.toNat ≤ 127 := Nat.not_lt.mp hc
    have hnat : (byteOf c).toNat = c.toNat := by
      unfold byteOf
      rw [UInt8.toNat_ofNat']
      omega
    by_cases hspecial : special (m.encodeMode nonascii) (byteOf c) = true
    · obtain ⟨name, hname⟩ := smap_special hspecial
      rw [hnat] at hname
      have htext : entityText (m.encodeMode nonascii) c = namedRef name := by
        unfold entityText
        rw [if_neg hc, if_pos hspecial, hname]
        rfl
      obtain ⟨e, he, hcp, rfl⟩ := smap_eq_some hname
      refine .inl ⟨e, he, hcp, htext, ?_⟩
      cases m with
      | html =>
        -- an HTML mode has no apostrophe
        have h39 : c.toNat ≠ 0x27 := by
          intro h
          have hbyte : byteOf c = 0x27 := by
            unfold byteOf
            rw [h]
            rfl
          rw [hbyte] at hspecial
          cases nonascii <;> exact absurd hspecial (by decide)
        cases nonascii <;>
          simpa [accepted, has, Markup.decodeMode, cdHtml, cdXml, cdXhtml, cdNumRef]
      | xml =>
        have hlt : c.toNat < 0x80 := by omega
        cases nonascii <;>
          simpa [accepted, has, Markup.decodeMode, cdHtml, cdXml, cdXhtml, cdNumRef]
      | xhtml => cases nonascii <;> rfl
    · have htext : entityText (m.encodeMode nonascii) c = [byteOf c] := by
        unfold entityText
        rw [if_neg hc, if_neg hspecial]
      rw [utf8EncodeChar_ascii hle]
      refine .inr (.inr ⟨htext, fun b hb => ?_⟩)
      obtain rfl := List.mem_singleton.mp hb
      -- every mode writes these four characters as references
      have hhtml : htmlAscii (byteOf c) = false := by
        by_contra hyes
        have hyes : htmlAscii (byteOf c) = true := by simpa using hyes
        refine hspecial ?_
        unfold special xmlAscii
        rw [hyes]
        cases m <;> cases nonascii <;> rfl
      have hne : ((byteOf c ≠ 34 ∧ byteOf c ≠ 38) ∧ byteOf c ≠ 60) ∧ byteOf c ≠ 62 := by
        simpa [htmlAscii] using hhtml
      refine ⟨hne.1.2, hne.2, hne.1.1.1, hne.1.1.2, fun _ => ?_⟩
      refine UInt8.lt_iff_toNat_lt.mpr ?_
      rw [hnat]
      exact Nat.lt_succ_of_le hle

theorem isReference_named (he : e ∈ xhtmlEntityList) : IsReference (namedRef (ascii e.2)) :=
  ⟨ascii e.2, rfl, List.all_eq_true.mp (names_refByte e he).2.2.2⟩

theorem isReference_numeric (n : Nat) : IsReference (numericRef n) := by
  refine ⟨_, rfl, fun b hb => ?_⟩
  rcases List.mem_cons.mp hb with rfl | hb
  · decide
  · obtain ⟨c, hc, rfl⟩ := List.mem_map.mp hb
    exact (digit_byte (allDigits_toDigits n c hc)).2.2.1

section
variable {concatUnicode : List UInt8 → Nat → Option (List UInt8)} (m : Markup)

/-- What was written for a character is read as the character. -/
theorem concatDecodeLoop_piece (nonascii : Bool) {c : Char}
    (hunicode : ∀ str, concatUnicode str c.toNat = some (str ++ String.utf8EncodeChar c))
    (p str : List UInt8) :
    concatDecodeLoop concatUnicode (m.decodeMode nonascii)
        (entityText (m.encodeMode nonascii) c ++ p) str =
      concatDecodeLoop concatUnicode (m.decodeMode nonascii) p
        (str ++ String.utf8EncodeChar c) := by
  have hflag : has (m.decodeMode nonascii) cdXhtml = true := by
    cases m <;> cases nonascii <;> rfl
  rcases entityText_cases m nonascii c with
    ⟨e, he, hcp, htext, haccept⟩ | ⟨rfl, htext⟩ | ⟨htext, hplain⟩
  · rw [← hcp] at haccept hunicode
    rw [htext, concatDecodeLoop_named he hflag haccept (hunicode str)]
  · have hnum : has (m.decodeMode true) cdNumRef = true := by cases m <;> rfl
    have hlt : c.toNat < 10 ^ 7 := by
      rcases c.valid with hlt | ⟨-, hlt⟩
      · exact Nat.lt_trans hlt (by decide)
      · exact Nat.lt_trans hlt (by decide)
    rw [htext, concatDecodeLoop_numeric hlt hnum (hunicode str)]
  · rw [htext, concatDecodeLoop_raw fun b hb => (hplain b hb).2.2.2.1]

/-- `concatEncode` appends the texts of the characters. -/
theorem concatEncode_utf8 (asserts : Bool) (m : Markup) (nonascii : Bool) (cs : List Char)
    (str : List UInt8) : concatEncode asserts str (utf8 cs) (m.encodeMode nonascii) =
      .ok (str ++ (cs.map (entityText (m.encodeMode nonascii))).flatten) := by
  have hrun : ∀ str, concatEncodeLoop asserts (m.encodeMode nonascii) (utf8 cs) str =
      .ok (str ++ (cs.map (entityText (m.encodeMode nonascii))).flatten) := by
    induction cs with
    | nil =>
      intro str
      show concatEncodeLoop asserts _ [] str = _
      rw [concatEncodeLoop]
      simp
    | cons c cs ih =>
      intro str
      rw [utf8_cons, concatEncodeLoop_char, ih, List.map_cons, List.flatten_cons,
        List.append_assoc]
  have hmode : m.encodeMode nonascii ≠ 0 := by cases m <;> cases nonascii <;> decide
  have hrun := hrun str
  unfold concatEncode
  split
  case isTrue hnil =>
    rw [List.eq_nil_of_length_eq_zero hnil, concatEncodeLoop] at hrun
    exact hrun
  case isFalse => exact hrun

/-- `concatDecode` reads the texts of the characters. -/
theorem concatDecode_text (nonascii : Bool) {cs : List Char}
    (hunicode : ∀ str, ∀ c ∈ cs, concatUnicode str c.toNat = some (str ++ String.utf8EncodeChar c))
    (dest : List UInt8) : concatDecode concatUnicode dest
        (cs.map (entityText (m.encodeMode nonascii))).flatten (m.decodeMode nonascii) =
      .ok (dest ++ utf8 cs) := by
  have hrun : ∀ dest, concatDecodeLoop concatUnicode (m.decodeMode nonascii)
      (cs.map (entityText (m.encodeMode nonascii))).flatten dest = .ok (dest ++ utf8 cs) := by
    induction cs with
    | nil =>
      intro dest
      show concatDecodeLoop concatUnicode _ [] dest = _
      rw [concatDecodeLoop]
      simp [utf8]
    | cons c cs ih =>
      intro dest
      rw [List.map_cons, List.flatten_cons,
        concatDecodeLoop_piece m nonascii fun str => hunicode str c List.mem_cons_self,
        ih fun str d hd => hunicode str d (List.mem_cons_of_mem c hd), utf8_cons, List.append_assoc]
  have hmode : m.decodeMode nonascii ≠ 0 := by cases m <;> cases nonascii <;> decide
  have hrun := hrun dest
  unfold concatDecode
  split
  case isTrue hnil =>
    rw [List.eq_nil_of_length_eq_zero hnil, concatDecodeLoop] at hrun
    exact hrun
  case isFalse => exact hrun

theorem escaped_text (nonascii : Bool) (cs : List Char) :
    Escaped nonascii (cs.map (entityText (m.encodeMode nonascii))).flatten := by
  refine ⟨_, rfl, fun piece hpiece => ?_⟩
  obtain ⟨c, -, rfl⟩ := List.mem_map.mp hpiece
  rcases entityText_cases m nonascii c with ⟨e, he, -, htext, -⟩ | ⟨-, htext⟩ | ⟨htext, hplain⟩
  · exact .inl (htext ▸ isReference_named he)
  · exact .inl (htext ▸ isReference_numeric c.toNat)
  · exact .inr (htext ▸ hplain)

end

/-- In every mode the string comes back, and its text has special characters and, with `nonascii`,
other characters than ASCII only as references. -/
theorem entity_roundTrip (asserts : Bool) (concatUnicode : List UInt8 → Nat → Option (List UInt8))
    (m : Markup) (nonascii : Bool) (cs : List Char)
    (hunicode : ∀ str, ∀ c ∈ cs, concatUnicode str c.toNat = some (str ++ String.utf8EncodeChar c))
    (str dest : List UInt8) :
    ∃ text, concatEncode asserts str (utf8 cs) (m.encodeMode nonascii) = .ok (str ++ text) ∧
      concatDecode concatUnicode dest text (m.decodeMode nonascii) = .ok (dest ++ utf8 cs) ∧
      Escaped nonascii text :=
  ⟨(cs.map (entityText (m.encodeMode nonascii))).flatten,
    concatEncode_utf8 asserts m nonascii cs str, concatDecode_text m nonascii hunicode dest, escaped_text m nonascii cs⟩

/-- The text `<ä`, with the function of the program. -/
theorem entity_roundTrip_sample :
    (∀ str, ∀ c ∈ ['<', 'ä'], some (concatUTF8FromUnicode str c.toNat) =
      some (str ++ String.utf8EncodeChar c)) ∧
    ∃ text, concatEncode true [] (utf8 ['<', 'ä']) (Markup.html.encodeMode true) =
        .ok ([] ++ text) ∧
      concatDecode (fun str cp => some (concatUTF8FromUnicode str cp)) [] text
        (Markup.html.decodeMode true) = .ok ([] ++ utf8 ['<', 'ä']) ∧ Escaped true text := by
  have hunicode : ∀ str, ∀ c ∈ ['<', 'ä'], some (concatUTF8FromUnicode str c.toNat) =
      some (str ++ String.utf8EncodeChar c) := by
    intro str c hc
    have hencode : encode c.toNat = String.utf8EncodeChar c := by
      rcases List.mem_pair.1 hc with rfl | rfl
      · decide
      · decide
    unfold concatUTF8FromUnicode
    rw [hencode]
  exact ⟨hunicode, entity_roundTrip true (fun str cp => some (concatUTF8FromUnicode str cp)) .html
    true ['<', 'ä'] hunicode [] []⟩

end Qore.Text
