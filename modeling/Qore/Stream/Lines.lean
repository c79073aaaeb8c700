import Mathlib.Data.List.TakeWhile
import Qore.Lib.Online
import Qore.Stream.Buffered

/-!
# `Qore.Stream.Lines`: reading a stream line by line

`Eol.IsLine` says what a line is: the part of the stream up to the first end of line, or what is left
if there is none. `readLine` gives these parts one after the other, whatever reader it uses and
however its stream is split.

* `byteReader_readLineEol`: the position in the end of line that `readLineEol` keeps is the longest
  beginning of it that ends the line so far, so that no end of line is missed, also if it overlaps
  itself.
* `readLine_lines`: the lines of successive calls, and of an `InputStreamLineIterator`. They are the
  parts of the stream, less the end of line with `trim`, and in UTF-16 less a byte order mark.
-/

set_option autoImplicit false

namespace Qore.Stream

open Qore.Lib Qore.Lib.Online Program

/-! ## Encodings -/

/-- The encodings that `readLine` distinguishes. -/
inductive Charset
  | asciiCompat
  | utf16
  | utf16BE
  | utf16LE
  deriving DecidableEq

def Charset.isAsciiCompat : Charset → Bool
  | .asciiCompat => true
  | _ => false

/-- `q_remove_bom_utf16`: the text without a byte order mark, and the encoding with the byte order
that is found. -/
def Charset.removeBomUtf16 : Charset → List UInt8 → List UInt8 × Charset
  | .utf16, 0xfe :: 0xff :: str => (str, .utf16BE)
  | .utf16BE, 0xfe :: 0xff :: str => (str, .utf16BE)
  | .utf16, 0xff :: 0xfe :: str => (str, .utf16LE)
  | .utf16LE, 0xff :: 0xfe :: str => (str, .utf16LE)
  | cs, str => (str, cs)

/-- The line feed without a byte order mark. `bigEndian` is the byte order in which `iconv` writes
UTF-16. -/
def Charset.newline (bigEndian : Bool) : Charset → List UInt8
  | .asciiCompat => [10]
  | .utf16 => if bigEndian then [0, 10] else [10, 0]
  | .utf16BE => [0, 10]
  | .utf16LE => [10, 0]

/-- The encoding for the loops of `readLine`; they leave the byte order mark. -/
def Charset.encoding (bigEndian : Bool) (cs : Charset) : Encoding where
  isAsciiCompat := cs.isAsciiCompat
  newline := cs.newline bigEndian
  removeBomUtf16 := id

/-! ## The calls -/

section
variable {σ : Type} (r : Reader σ)

/-- `StreamReader::readLine`, with the encoding of the stream in the state. The bytes of the end of
line depend on the encoding to which it is converted. -/
def Reader.readLineCs (bigEndian : Bool) (eol : Option (Charset → List UInt8)) (trim : Bool) :
    Program (σ × Charset) Fault Value := fun (s, cs) =>
  match r.readLine (cs.encoding bigEndian) (eol.map (· cs)) trim s with
  | (.ok (.string str), s) => (.ok (.string (cs.removeBomUtf16 str).1), s, (cs.removeBomUtf16 str).2)
  | (v, s) => (v, s, cs)

/-- Successive calls of `readLine`: what they give, and the state that they leave. -/
def Reader.lineCalls (bigEndian : Bool) (eol : Option (Charset → List UInt8)) (trim : Bool) :
    Nat → σ × Charset → List (Except Fault Value) × σ × Charset
  | 0, s => ([], s)
  | n + 1, s =>
    let (v, s) := r.readLineCs bigEndian eol trim s
    let (vs, s) := Reader.lineCalls bigEndian eol trim n s
    (v :: vs, s)

end

/-- An `InputStreamLineIterator` over a reader with the state `reader`. -/
structure InputStreamLineIterator (σ : Type) where
  reader : σ × Charset
  line : Option (List UInt8)
  num : Nat
  validp : Bool

/-- A new iterator; an empty end of line counts as none. -/
def InputStreamLineIterator.new {σ : Type} (reader : σ × Charset) : InputStreamLineIterator σ :=
  ⟨reader, none, 0, false⟩

/-- An end of line: its bytes, and what they are in the encoding of the reader. This can change when
a byte order mark is found. -/
structure EolString where
  bytes : List UInt8
  convert : Charset → List UInt8

/-- `assignEol`. -/
def assignEol (eol : Option EolString) : Option (Charset → List UInt8) :=
  match eol with
  | none => none
  | some eol => if eol.bytes = [] then none else some eol.convert

section
variable {σ : Type} (r : Reader σ)

/-- `InputStreamLineIterator::next`, with `getLine`. -/
def InputStreamLineIterator.next (bigEndian : Bool) (eol : Option EolString) (trim : Bool)
    (it : InputStreamLineIterator σ) : InputStreamLineIterator σ :=
  let (v, reader) := r.readLineCs bigEndian (assignEol eol) trim it.reader
  let line := match v with
    | .ok (.string str) => some str
    | _ => none
  let validp := line.isSome
  ⟨reader, line, if validp then it.num + 1 else 0, validp⟩

/-- `getValue` and `index` after every one of successive calls of `next`; `none` where `next` is
false. -/
def InputStreamLineIterator.values (bigEndian : Bool) (eol : Option EolString) (trim : Bool) :
    Nat → InputStreamLineIterator σ → List (Option (List UInt8 × Nat))
  | 0, _ => []
  | n + 1, it =>
    let it := it.next r bigEndian eol trim
    (if it.validp then it.line.map (·, it.num) else none) ::
      InputStreamLineIterator.values bigEndian eol trim n it

end

/-! ## Lines -/

/-- The end of a line: a text, or one of CR, LF and CR LF. -/
inductive Eol
  | text (eol : List UInt8)
  | newlines

/-- The bytes that are no part of a newline. -/
def plain (c : UInt8) : Bool := c ≠ 10 && c ≠ 13

/-- `raw` is the first line of a stream that goes on with `rest`. -/
def Eol.IsLine : Eol → List UInt8 → List UInt8 → Prop
  | .text eol, raw, rest => raw ≠ [] ∧ OnlyAtEnd eol raw ∧ (eol <:+ raw ∨ rest = [])
  | .newlines, raw, rest => ∃ text term, raw = text ++ term ∧ (∀ c ∈ text, plain c) ∧
      (term = [10] ∨ term = [13, 10] ∨ term = [13] ∧ rest.head? ≠ some 10 ∨
        term = [] ∧ text ≠ [] ∧ rest = [])

/-- The line without its end. -/
def Eol.cut : Eol → List UInt8 → List UInt8
  | .text eol, raw => if eol <:+ raw then raw.take (raw.length - eol.length) else raw
  | .newlines, raw => raw.takeWhile plain

/-- The end of line that `readLine` looks for. -/
def terminator (bigEndian : Bool) (eol : Option (Charset → List UInt8)) (cs : Charset) : Eol :=
  match eol with
  | some eol => .text (eol cs)
  | none => if cs.isAsciiCompat then .newlines else .text (cs.newline bigEndian)

/-! ## The end of line -/

section
variable {eol str : List UInt8} {c : UInt8} {pos : Nat}

/-- The terminating null is not compared. -/
theorem compared_iff (heol : pos ≤ eol.length) :
    (eol ++ [0]).take pos = str.drop (str.length - pos) ↔ eol.take pos <:+ str := by
  have hlen : (eol.take pos).length = pos := by
    rw [List.length_take]
    omega
  rw [List.take_append_of_le_length heol, List.suffix_iff_eq_drop, hlen]

/-- The search finds the longest beginning of the end of line, up to `pos`, that ends the string. -/
theorem eolMatch_spec (heol : pos ≤ eol.length) :
    eolMatch eol str pos ≤ pos ∧ eol.take (eolMatch eol str pos) <:+ str ∧
      ∀ i, i ≤ pos → eol.take i <:+ str → i ≤ eolMatch eol str pos := by
  induction pos with
  | zero => exact ⟨Nat.le_refl 0, List.nil_suffix, fun i hi _ => hi⟩
  | succ pos ih =>
    unfold eolMatch
    split_ifs with hmatch
    · exact ⟨Nat.le_refl _, (compared_iff heol).mp hmatch, fun i hi _ => hi⟩
    · obtain ⟨hle, hsuffix, hmax⟩ := ih (by omega)
      refine ⟨by omega, hsuffix, fun i hi hi' => ?_⟩
      rcases Nat.lt_or_eq_of_le hi with hlt | rfl
      · exact hmax i (by omega) hi'
      · exact absurd ((compared_iff heol).mpr hi') hmatch

/-- After a wrong byte the position is again the longest beginning. -/
theorem matched_eolMatch (h : Matched eol str pos) (hc : eol[pos]? ≠ some c) :
    Matched eol (str ++ [c]) (eolMatch eol (str ++ [c]) pos) := by
  obtain ⟨hle, hsuffix, hmax⟩ := @eolMatch_spec _ (str ++ [c]) _ (Nat.le_of_lt h.lt)
  exact h.miss hc hle hsuffix hmax

end

/-- The value of a call that has read `line`. -/
def lineValue (enc : Encoding) (line : List UInt8) : Value :=
  if line = [] then .nothing else .string (enc.removeBomUtf16 line)

/-- The string of a call of `readLineEol` that has found the end of line. -/
def endedValue (enc : Encoding) (eol : List UInt8) (trim : Bool) (line : List UInt8) : Value :=
  .string (enc.removeBomUtf16 (if trim then line.take (line.length - eol.length) else line))

/-- What the loop of `readLineEol` does when it has read `str`: it ends with the end of line, or at
the end of the stream, where there was none. -/
inductive EndsLine (enc : Encoding) (eol : List UInt8) (trim : Bool) (str bytes : List UInt8) :
    Except Fault Value × List UInt8 → Prop
  | ended (line rest : List UInt8) : bytes = line ++ rest → str ++ line ≠ [] →
      eol <:+ str ++ line → OnlyAtEnd eol (str ++ line) →
      EndsLine enc eol trim str bytes (.ok (endedValue enc eol trim (str ++ line)), rest)
  | missing : ¬eol <:+: str ++ bytes →
      EndsLine enc eol trim str bytes (.ok (lineValue enc (str ++ bytes)), [])

variable {eol str bytes : List UInt8} {r : Except Fault Value × List UInt8} (enc : Encoding)
  (trim : Bool)

/-- A byte more was read. -/
theorem EndsLine.cons {enc : Encoding} {trim : Bool} {c : UInt8}
    (h : EndsLine enc eol trim (str ++ [c]) bytes r) :
    EndsLine enc eol trim str (c :: bytes) r := by
  cases h with
  | ended line rest hbytes hne hsuffix honly =>
    rw [List.append_assoc, List.singleton_append] at hne hsuffix honly
    rw [List.append_assoc, List.singleton_append]
    exact .ended (c :: line) rest (by rw [hbytes, List.cons_append]) hne hsuffix honly
  | missing hnot =>
    rw [List.append_assoc, List.singleton_append] at hnot
    rw [List.append_assoc, List.singleton_append]
    exact .missing hnot

section
variable (enc : Encoding) (eol : List UInt8) (trim : Bool) (str : List UInt8) (pos : Nat)

theorem readLineEolStep_cons {e : UInt8} (he : eol[pos]? = some e) (c : UInt8)
    (bytes : List UInt8) :
    byteReader.readLineEolStep enc eol trim (str, pos) (c :: bytes) =
      (.ok (if e = c then
          (if pos + 1 = eol.length then .inr (endedValue enc eol trim (str ++ [c]))
            else .inl (str ++ [c], pos + 1))
        else .inl (str ++ [c], eolMatch eol (str ++ [c]) pos)), bytes) := by
  obtain ⟨hpos, rfl⟩ := List.getElem?_eq_some_iff.mp he
  unfold Reader.readLineEolStep
  rw [byteReader_bind]
  dsimp only [List.take_succ_cons, List.drop_succ_cons, List.take_zero, List.drop_zero]
  rw [List.drop_append_of_le_length (Nat.le_of_lt hpos), List.drop_eq_getElem_cons hpos]
  dsimp only [List.cons_append]
  split_ifs with hc hend htrim
  · rw [endedValue, if_pos htrim, hend]
    rfl
  · rw [endedValue, if_neg htrim]
    rfl
  · rfl
  · rfl

end

/-- The loop of `readLineEol`: `pos` is the longest beginning of the end of line that ends the string
so far. -/
theorem readLineEol_loop (eol : List UInt8) (trim : Bool) {fuel : Nat} (hfuel : bytes.length < fuel)
    {pos : Nat} (h : Matched eol str pos) (hnot : ¬eol <:+: str) :
    EndsLine enc eol trim str bytes
      (iterate (byteReader.readLineEolStep enc eol trim) .endless fuel (str, pos) bytes) := by
  induction bytes generalizing fuel str pos with
  | nil =>
    cases fuel with
    | zero => omega
    | succ fuel =>
      have hmissing : EndsLine enc eol trim str [] (.ok (lineValue enc (str ++ [])), []) :=
        .missing (by rwa [List.append_nil])
      rw [List.append_nil] at hmissing
      exact hmissing
  | cons c bytes ih =>
    cases fuel with
    | zero => omega
    | succ fuel =>
      obtain ⟨e, he⟩ : ∃ e, eol[pos]? = some e := ⟨_, List.getElem?_eq_getElem h.lt⟩
      have hfuel' : bytes.length < fuel := Nat.lt_of_succ_lt_succ hfuel
      -- an end of line ends with this byte, or there is none so far
      have hgrows : ¬eol <:+ str ++ [c] → ¬eol <:+: str ++ [c] := by
        intro hsuffix hinfix
        rcases List.infix_concat_iff.mp hinfix with h | h
        · exact hsuffix h
        · exact hnot h
      unfold iterate Program.bind
      rw [readLineEolStep_cons enc eol trim str pos he]
      split_ifs with hc hend
      · subst hc
        exact .ended [e] bytes rfl (by simp) (h.full he hend) (onlyAtEnd_snoc hnot e)
      · subst hc
        have hlt : pos + 1 < eol.length := Nat.lt_of_le_of_ne h.lt hend
        exact (ih hfuel' (h.next he hlt) (hgrows (h.not_full fun _ => hend))).cons
      · have hwrong : eol[pos]? ≠ some c := by
          rw [he]
          exact fun heq => hc (Option.some.inj heq)
        exact (ih hfuel' (matched_eolMatch h hwrong)
          (hgrows (h.not_full fun heq => absurd heq hwrong))).cons

theorem byteReader_readLineEol (heol : eol ≠ []) (trim : Bool) (bytes : List UInt8) :
    EndsLine enc eol trim [] bytes (byteReader.readLineEol enc eol trim bytes) := by
  refine readLineEol_loop enc eol trim (Nat.lt_succ_self _) (.nil heol) ?_
  exact fun hinfix => heol (List.infix_nil.mp hinfix)

/-- A call with an end of line gives the first line, or nothing at the end of the stream. -/
theorem readLineEol_line (heol : eol ≠ []) (trim : Bool) (bytes : List UInt8) :
    (∃ raw rest, bytes = raw ++ rest ∧ (Eol.text eol).IsLine raw rest ∧
      byteReader.readLineEol enc eol trim bytes =
        (.ok (.string (enc.removeBomUtf16 (if trim then (Eol.text eol).cut raw else raw))), rest)) ∨
    bytes = [] ∧ byteReader.readLineEol enc eol trim bytes = (.ok .nothing, []) := by
  have hends := byteReader_readLineEol enc heol trim bytes
  generalize byteReader.readLineEol enc eol trim bytes = r at hends
  cases hends with
  | ended line rest hbytes hne hsuffix honly =>
    rw [List.nil_append] at hne hsuffix honly
    refine .inl ⟨line, rest, hbytes, ⟨hne, honly, .inl hsuffix⟩, ?_⟩
    rw [List.nil_append, endedValue, Eol.cut, if_pos hsuffix]
  | missing hnot =>
    rw [List.nil_append, lineValue]
    by_cases hnil : bytes = []
    · rw [if_pos hnil]
      exact .inr ⟨hnil, rfl⟩
    · have hsuffix : ¬eol <:+ bytes := fun h => hnot h.isInfix
      have hcut : (Eol.text eol).cut bytes = bytes := if_neg hsuffix
      refine .inl ⟨bytes, [], (List.append_nil _).symm,
        ⟨hnil, onlyAtEnd_of_not_infix hnot, .inr rfl⟩, ?_⟩
      rw [if_neg hnil, hcut, ite_self]

/-! ## The newlines -/

/-- The newline of a line before `rest`. -/
def IsNewline (term rest : List UInt8) : Prop :=
  term = [10] ∨ term = [13, 10] ∨ term = [13] ∧ rest.head? ≠ some 10

/-- What the loop of `readLine` does when it has read `str`. -/
inductive EndsNewline (trim : Bool) (str bytes : List UInt8) :
    Except Fault Value × List UInt8 → Prop
  | ended (text term rest : List UInt8) : bytes = text ++ (term ++ rest) → (∀ c ∈ text, plain c) →
      IsNewline term rest →
      EndsNewline trim str bytes
        (.ok (.string (str ++ (text ++ if trim then [] else term))), rest)
  | missing : (∀ c ∈ bytes, plain c) →
      EndsNewline trim str bytes
        (.ok (if str ++ bytes = [] then .nothing else .string (str ++ bytes)), [])

/-- A byte more was read. -/
theorem EndsNewline.cons {trim : Bool} {c : UInt8} (hc : plain c)
    (h : EndsNewline trim (str ++ [c]) bytes r) :
    EndsNewline trim str (c :: bytes) r := by
  cases h with
  | ended text term rest hbytes hplain hterm =>
    rw [List.append_assoc, List.singleton_append, ← List.cons_append]
    exact .ended (c :: text) term rest (by rw [hbytes, List.cons_append])
      (List.forall_mem_cons.mpr ⟨hc, hplain⟩) hterm
  | missing hplain =>
    rw [List.append_assoc, List.singleton_append]
    exact .missing (List.forall_mem_cons.mpr ⟨hc, hplain⟩)

/-- The end of a line after a carriage return. -/
theorem readLineFeed_ends (str bytes : List UInt8) :
    ∃ v rest, byteReader.readLineFeed trim (if trim then str else str ++ [13]) bytes = (.ok v, rest) ∧
      EndsNewline trim str (13 :: bytes) (.ok v, rest) := by
  have hcr : ∀ term rest, 13 :: bytes = term ++ rest → IsNewline term rest →
      EndsNewline trim str (13 :: bytes)
        (.ok (.string (str ++ ([] ++ if trim then [] else term))), rest) :=
    fun term rest hbytes => .ended [] term rest hbytes fun c hc => absurd hc List.not_mem_nil
  have hpeek : byteReader.peek bytes = (.ok (nextByte bytes), bytes) := rfl
  by_cases hlf : bytes.head? = some 10
  · obtain ⟨rest, rfl⟩ : ∃ rest, bytes = 10 :: rest := by
      cases bytes with
      | nil => cases hlf
      | cons c rest =>
        obtain rfl := Option.some.inj hlf
        exact ⟨rest, rfl⟩
    refine ⟨_, rest, bind_of_ok hpeek _, ?_⟩
    have hended := hcr [13, 10] rest rfl (.inr (.inl rfl))
    cases trim with
    | true => simpa using hended
    | false => simpa using hended
  · have hfeed : byteReader.readLineFeed trim (if trim then str else str ++ [13]) bytes =
        (.ok (.string (if trim then str else str ++ [13])), bytes) := by
      have hten : nextByte bytes ≠ 10 := by
        cases bytes with
        | nil => decide
        | cons c rest =>
          intro h
          have hc : c.toNat = 10 := Int.ofNat.inj h
          exact hlf (congrArg some (UInt8.toNat_inj.mp hc))
      unfold Reader.readLineFeed
      rw [bind_of_ok hpeek, if_neg hten]
      rfl
    refine ⟨_, bytes, hfeed, ?_⟩
    have hended := hcr [13] bytes rfl (.inr (.inr ⟨rfl, hlf⟩))
    cases trim with
    | true => simpa using hended
    | false => exact hended

theorem readLine_loop {fuel : Nat} (hfuel : bytes.length < fuel) (str : List UInt8) :
    EndsNewline trim str bytes
      (iterate (byteReader.readLineStep trim) .endless fuel str bytes) := by
  induction bytes generalizing fuel str with
  | nil =>
    cases fuel with
    | zero => omega
    | succ fuel =>
      have hmissing : EndsNewline trim str []
          (.ok (if str ++ [] = [] then .nothing else .string (str ++ [])), []) :=
        .missing fun c hc => absurd hc List.not_mem_nil
      rw [List.append_nil] at hmissing
      exact hmissing
  | cons c bytes ih =>
    cases fuel with
    | zero => omega
    | succ fuel =>
      have hfuel' : bytes.length < fuel := Nat.lt_of_succ_lt_succ hfuel
      have hstep : byteReader.readLineStep trim str (c :: bytes) =
          (if c = 10 then Program.pure (.inr (.string (if trim then str else str ++ [c])))
          else if c = 13 then
            (byteReader.readLineFeed trim (if trim then str else str ++ [c])).bind
              fun v => .pure (.inr v)
          else .pure (.inl (str ++ [c]))) bytes := by
        rfl
      unfold iterate Program.bind
      rw [hstep]
      by_cases hlf : c = 10
      · rw [if_pos hlf]
        subst hlf
        have hended := @EndsNewline.ended trim str _ [] [10] bytes rfl
          (fun c hc => absurd hc List.not_mem_nil) (.inl rfl)
        cases trim with
        | true =>
          simp only [if_true, List.append_nil] at hended
          exact hended
        | false => exact hended
      · rw [if_neg hlf]
        by_cases hcr : c = 13
        · rw [if_pos hcr]
          subst hcr
          obtain ⟨v, rest, hfeed, hends⟩ := readLineFeed_ends trim str bytes
          unfold Program.bind
          rw [hfeed]
          exact hends
        · rw [if_neg hcr]
          have hplain : plain c = true := by
            simp [plain, hlf, hcr]
          exact (ih hfuel' (str ++ [c])).cons hplain

/-- A call without an end of line gives the first line, or nothing at the end of the stream. -/
theorem readLine_newlines_line (bytes : List UInt8) :
    (∃ raw rest, bytes = raw ++ rest ∧ Eol.newlines.IsLine raw rest ∧
      byteReader.loop (byteReader.readLineStep trim) [] bytes =
        (.ok (.string (if trim then Eol.newlines.cut raw else raw)), rest)) ∨
    bytes = [] ∧ byteReader.loop (byteReader.readLineStep trim) [] bytes = (.ok .nothing, []) := by
  have hends : EndsNewline trim [] bytes (byteReader.loop (byteReader.readLineStep trim) [] bytes) :=
    readLine_loop trim (Nat.lt_succ_self _) []
  generalize byteReader.loop (byteReader.readLineStep trim) [] bytes = r at hends
  cases hends with
  | ended text term rest hbytes hplain hterm =>
    have hcut : Eol.newlines.cut (text ++ term) = text := by
      have hterm' : term.takeWhile plain = [] := by
        rcases hterm with rfl | rfl | ⟨rfl, -⟩ <;> rfl
      rw [Eol.cut, List.takeWhile_append_of_pos hplain, hterm', List.append_nil]
    refine .inl ⟨text ++ term, rest, by rw [hbytes, List.append_assoc],
      ⟨text, term, rfl, hplain, ?_⟩, ?_⟩
    · rcases hterm with h | h | h
      · exact .inl h
      · exact .inr (.inl h)
      · exact .inr (.inr (.inl h))
    · rw [hcut]
      cases trim with
      | true => simp
      | false => rfl
  | missing hplain =>
    rw [List.nil_append]
    by_cases hnil : bytes = []
    · rw [if_pos hnil]
      exact .inr ⟨hnil, rfl⟩
    · have hcut : Eol.newlines.cut bytes = bytes := List.takeWhile_eq_self_iff.mpr hplain
      refine .inl ⟨bytes, [], (List.append_nil _).symm,
        ⟨bytes, [], (List.append_nil _).symm, hplain, .inr (.inr (.inr ⟨rfl, hnil, rfl⟩))⟩, ?_⟩
      rw [if_neg hnil, hcut, ite_self]

/-! ## Successive lines -/

/-- `readLine` of the bytes gives the first line, or nothing at the end of the stream. -/
theorem readLine_line (bigEndian : Bool) {eol : Option (Charset → List UInt8)}
    (heol : ∀ e ∈ eol, ∀ cs, e cs ≠ []) (trim : Bool) (cs : Charset) (bytes : List UInt8) :
    (∃ raw rest, bytes = raw ++ rest ∧ (terminator bigEndian eol cs).IsLine raw rest ∧
      byteReader.readLine (cs.encoding bigEndian) (eol.map (· cs)) trim bytes =
        (.ok (.string (if trim then (terminator bigEndian eol cs).cut raw else raw)), rest)) ∨
    bytes = [] ∧
      byteReader.readLine (cs.encoding bigEndian) (eol.map (· cs)) trim bytes =
        (.ok .nothing, []) := by
  cases eol with
  | some e => exact readLineEol_line (cs.encoding bigEndian) (heol e rfl cs) trim bytes
  | none =>
    cases cs with
    | asciiCompat => exact readLine_newlines_line trim bytes
    | utf16 =>
      have hne : Charset.utf16.newline bigEndian ≠ [] := by cases bigEndian <;> decide
      exact readLineEol_line _ hne trim bytes
    | utf16BE => exact readLineEol_line _ (List.cons_ne_nil _ _) trim bytes
    | utf16LE => exact readLineEol_line _ (List.cons_ne_nil _ _) trim bytes

/-- The lines of a stream in order, `rest` being what is left: the parts of the stream, and the texts
that are read for them. -/
inductive Lines (term : Charset → Eol) (trim : Bool) :
    Charset → List UInt8 → List (List UInt8) → List (List UInt8) → Charset → List UInt8 → Prop
  | nil (cs : Charset) (bytes : List UInt8) : Lines term trim cs bytes [] [] cs bytes
  | cons {cs cs' cs'' : Charset} {raw text bytes rest : List UInt8}
      {parts texts : List (List UInt8)} : (term cs).IsLine raw bytes →
      cs.removeBomUtf16 (if trim then (term cs).cut raw else raw) = (text, cs') →
      Lines term trim cs' bytes parts texts cs'' rest →
      Lines term trim cs (raw ++ bytes) (raw :: parts) (text :: texts) cs'' rest

section
variable {term : Charset → Eol} {trim : Bool} {cs cs' : Charset} {bytes rest : List UInt8}
  {parts texts : List (List UInt8)}

theorem Eol.IsLine.ne_nil {eol : Eol} {raw : List UInt8} (h : eol.IsLine raw rest) : raw ≠ [] := by
  cases eol with
  | text eol => exact h.1
  | newlines =>
    obtain ⟨text, term, rfl, -, rfl | rfl | ⟨rfl, -⟩ | ⟨-, hne, -⟩⟩ := h
    · simp
    · simp
    · simp
    · exact fun hnil => hne (List.append_eq_nil_iff.mp hnil).1

/-- There is no line in an empty stream. -/
theorem Lines.of_nil (h : Lines term trim cs bytes parts texts cs' rest) (hbytes : bytes = []) :
    texts = [] ∧ cs' = cs ∧ rest = [] := by
  cases h with
  | nil => exact ⟨rfl, rfl, hbytes⟩
  | cons hraw => exact absurd (List.append_eq_nil_iff.mp hbytes).1 hraw.ne_nil

/-- No byte is lost. -/
theorem Lines.flatten_eq (h : Lines term trim cs bytes parts texts cs' rest) :
    bytes = parts.flatten ++ rest := by
  induction h with
  | nil cs bytes => rfl
  | cons _ _ _ ih => rw [List.flatten_cons, List.append_assoc, ← ih]

/-- Without `trim`, and without byte order marks, the texts are the parts. -/
theorem Lines.texts_eq (h : Lines term trim cs bytes parts texts cs' rest) (hcs : cs = .asciiCompat)
    (htrim : trim = false) : texts = parts := by
  induction h with
  | nil cs bytes => rfl
  | cons _ htext _ ih =>
    subst hcs htrim
    obtain ⟨rfl, rfl⟩ := Prod.mk.inj htext
    rw [ih rfl]
    rfl

end

section
variable {σ : Type} {r : Reader σ} {I : σ → Prop} {E : Fault → Fault → Prop}
  {eol : Option (Charset → List UInt8)}

/-- A call of `readLine` on a reader. -/
theorem readLineCs_line (h : Simulates r I E) (bigEndian : Bool) (heol : ∀ e ∈ eol, ∀ cs, e cs ≠ [])
    (trim : Bool) {s : σ} (hs : I s) (cs : Charset) :
    ∃ s', I s' ∧
      ((∃ raw text cs', r.unread s = raw ++ r.unread s' ∧
        (terminator bigEndian eol cs).IsLine raw (r.unread s') ∧
        cs.removeBomUtf16 (if trim then (terminator bigEndian eol cs).cut raw else raw) =
          (text, cs') ∧
        r.readLineCs bigEndian eol trim (s, cs) = (.ok (.string text), s', cs')) ∨
      r.unread s = [] ∧ r.unread s' = [] ∧
        r.readLineCs bigEndian eol trim (s, cs) = (.ok .nothing, s', cs)) := by
  obtain ⟨hout, hI, hrest⟩ :=
    h.readLine (cs.encoding bigEndian) (eol.map (· cs)) trim s (r.unread s) ⟨hs, rfl⟩
  have hline := readLine_line bigEndian heol trim cs (r.unread s)
  rcases hcall : r.readLine (cs.encoding bigEndian) (eol.map (· cs)) trim s with ⟨v, s'⟩
  have hcs : r.readLineCs bigEndian eol trim (s, cs) =
      match (v, s') with
      | (.ok (.string str), s) =>
        (.ok (.string (cs.removeBomUtf16 str).1), s, (cs.removeBomUtf16 str).2)
      | (v, s) => (v, s, cs) := by
    rw [← hcall]
    rfl
  rw [hcall] at hout hI hrest
  refine ⟨s', hI, ?_⟩
  rcases hline with ⟨raw, rest, hbytes, hraw, hread⟩ | ⟨hnil, hread⟩
  · rw [hread] at hout hrest
    subst hrest
    cases hout with
    | ok _ => exact .inl ⟨raw, _, _, hbytes, hraw, rfl, hcs⟩
  · rw [hread] at hout hrest
    cases hout with
    | ok _ => exact .inr ⟨hnil, hrest, hcs⟩

/-- `texts` are read for the lines `parts` by `n` calls, and after the last line nothing. -/
structure Delivers (r : Reader σ) (bigEndian : Bool) (eol : Option (Charset → List UInt8))
    (trim : Bool) (n : Nat) (s : σ × Charset) (parts texts : List (List UInt8))
    (s' : σ × Charset) : Prop where
  lines : Lines (terminator bigEndian eol) trim s.2 (r.unread s.1) parts texts s'.2 (r.unread s'.1)
  count : texts.length ≤ n
  ended : texts.length < n → r.unread s'.1 = []
  calls : r.lineCalls bigEndian eol trim n s =
    (texts.map (fun text => .ok (.string text)) ++
      List.replicate (n - texts.length) (.ok .nothing), s')

theorem exists_delivers (h : Simulates r I E) (bigEndian : Bool) (heol : ∀ e ∈ eol, ∀ cs, e cs ≠ [])
    (trim : Bool) (n : Nat) {s : σ} (hs : I s) (cs : Charset) :
    ∃ parts texts s', Delivers r bigEndian eol trim n (s, cs) parts texts s' := by
  induction n generalizing s cs with
  | zero => exact ⟨[], [], (s, cs), .nil cs _, Nat.le_refl 0, fun hlt => absurd hlt (by simp), rfl⟩
  | succ n ih =>
    obtain ⟨s', hI, ⟨raw, text, cs', hbytes, hraw, htext, hcall⟩ | ⟨hnil, hnil', hcall⟩⟩ :=
      readLineCs_line h bigEndian heol trim hs cs
    · obtain ⟨parts, texts, t, hlines, hle, hend, hcalls⟩ := ih hI cs'
      refine ⟨raw :: parts, text :: texts, t, ?_, ?_, ?_, ?_⟩
      · rw [hbytes]
        exact .cons hraw htext hlines
      · exact Nat.succ_le_succ hle
      · exact fun hlt => hend (Nat.lt_of_succ_lt_succ hlt)
      · unfold Reader.lineCalls
        rw [hcall]
        dsimp only
        rw [hcalls, List.length_cons, Nat.succ_sub_succ]
        rfl
    · -- at the end of the stream every later call gives nothing too
      obtain ⟨parts, texts, t, hlines, -, -, hcalls⟩ := ih hI cs
      rw [hnil'] at hlines
      obtain ⟨rfl, hcs, hrest⟩ := hlines.of_nil rfl
      refine ⟨[], [], t, ?_, Nat.zero_le _, fun _ => hrest, ?_⟩
      · rw [hnil, hcs, hrest]
        exact .nil cs []
      · unfold Reader.lineCalls
        rw [hcall]
        dsimp only
        rw [hcalls]
        rfl

/-- The values of an iterator after the results of calls of `readLine`; `num` lines were read. -/
def valuesOf : Nat → List (Except Fault Value) → List (Option (List UInt8 × Nat))
  | _, [] => []
  | num, .ok (.string text) :: vs => some (text, num + 1) :: valuesOf (num + 1) vs
  | _, _ :: vs => none :: valuesOf 0 vs

theorem values_eq (r : Reader σ) (bigEndian : Bool) (eol : Option EolString) (trim : Bool)
    (n : Nat) (it : InputStreamLineIterator σ) :
    it.values r bigEndian eol trim n =
      valuesOf it.num (r.lineCalls bigEndian (assignEol eol) trim n it.reader).1 := by
  induction n generalizing it with
  | zero => rfl
  | succ n ih =>
    unfold InputStreamLineIterator.values Reader.lineCalls
    dsimp only
    rw [ih]
    unfold InputStreamLineIterator.next
    rcases r.readLineCs bigEndian (assignEol eol) trim it.reader with ⟨v, s⟩
    rcases v with e | v
    · rfl
    · cases v <;> rfl

theorem valuesOf_texts (texts : List (List UInt8)) (k num : Nat) :
    valuesOf num (texts.map (fun text => .ok (.string text)) ++ List.replicate k (.ok .nothing)) =
      (texts.zipIdx (num + 1)).map some ++ List.replicate k none := by
  induction texts generalizing num with
  | nil =>
    induction k generalizing num with
    | zero => rfl
    | succ k ih =>
      exact congrArg (none :: ·) (ih 0)
  | cons text texts ih =>
    exact congrArg (some (text, num + 1) :: ·) (ih (num + 1))

/-- What `n` successive calls of `readLine` read, and `n` steps of an `InputStreamLineIterator`: the
lines of the stream, which together are what was read of it. -/
def ReadsLines (r : Reader σ) (bigEndian : Bool) (eol : Option (Charset → List UInt8)) (trim : Bool)
    (n : Nat) (s : σ × Charset) : Prop :=
  ∃ parts texts s', Delivers r bigEndian eol trim n s parts texts s' ∧
    r.unread s.1 = parts.flatten ++ r.unread s'.1 ∧
    (s.2 = .asciiCompat → trim = false → texts = parts) ∧
    ∀ e, assignEol e = eol →
      (InputStreamLineIterator.new s).values r bigEndian e trim n =
        (texts.zipIdx 1).map some ++ List.replicate (n - texts.length) none

theorem readsLines (h : Simulates r I E) (bigEndian : Bool) (heol : ∀ e ∈ eol, ∀ cs, e cs ≠ [])
    (trim : Bool) (n : Nat) {s : σ} (hs : I s) (cs : Charset) :
    ReadsLines r bigEndian eol trim n (s, cs) := by
  obtain ⟨parts, texts, s', hdelivers⟩ := exists_delivers h bigEndian heol trim n hs cs
  refine ⟨parts, texts, s', hdelivers, hdelivers.lines.flatten_eq, hdelivers.lines.texts_eq, ?_⟩
  rintro e rfl
  rw [values_eq, InputStreamLineIterator.new, hdelivers.calls]
  exact valuesOf_texts texts _ 0

end

/-- Both readers deliver the lines of their streams, for any end of line that is not empty or for
none, and however the streams are split. -/
theorem readLine_lines (bigEndian : Bool) (eol : Option (Charset → List UInt8))
    (heol : ∀ e ∈ eol, ∀ cs, e cs ≠ []) (trim : Bool) (n : Nat) (cs : Charset) :
    (∀ is, ReadsLines streamReader bigEndian eol trim n (is, cs)) ∧
      ∀ bufCapacity, 0 < bufCapacity → bufCapacity < 2 ^ 31 → ∀ s : BufferedStreamReader,
        s.buf.length ≤ bufCapacity → ReadsLines (bufferedStreamReader bufCapacity) bigEndian eol trim n (s, cs) :=
  ⟨fun _ => readsLines streamReader_simulates bigEndian heol trim n trivial cs,
    fun _ hcap hint _ hbuf =>
      readsLines (bufferedStreamReader_simulates hcap hint) bigEndian heol trim n hbuf cs⟩

/-- An end of line that overlaps itself. -/
theorem readLine_lines_overlapping :
    (∀ e ∈ (some fun _ => [97, 97, 98] : Option (Charset → List UInt8)), ∀ cs, e cs ≠ []) ∧
      ReadsLines streamReader true (some fun _ => [97, 97, 98]) false 3
        (⟨[97, 97, 97, 98, 99, 97, 97], fun _ => 2⟩, .asciiCompat) := by
  have hne : ∀ e ∈ (some fun _ => [97, 97, 98] : Option (Charset → List UInt8)), ∀ cs, e cs ≠ [] := by
    rintro _ ⟨⟩ cs
    exact List.cons_ne_nil _ _
  exact ⟨hne, (readLine_lines true _ hne false 3 .asciiCompat).1 _⟩

/-- The reader without a buffer reads a line as the reader of its bytes does. -/
theorem streamReader_readLine (enc : Encoding) (eol : Option (List UInt8)) (trim : Bool)
    (is : InputStream) :
    (streamReader.readLine enc eol trim is).1 = (byteReader.readLine enc eol trim is.rest).1 ∧
      (streamReader.readLine enc eol trim is).2.rest =
        (byteReader.readLine enc eol trim is.rest).2 := by
  obtain ⟨hout, -, hrest⟩ :=
    streamReader_simulates.readLine enc eol trim is is.rest ⟨trivial, rfl⟩
  exact ⟨eq_of_equalFault hout, hrest⟩

/-- A byte order mark is read and belongs to no line. Without an end of line, a carriage return in
UTF-16 ends no line. -/
theorem readLine_utf16_differs :
    (¬∃ (texts : List (List UInt8)) (s' : InputStream × Charset),
      streamReader.lineCalls true (some fun _ => [0, 10]) false 1
        (⟨[0xfe, 0xff, 0, 97, 0, 10], fun _ => 1⟩, .utf16BE) =
          (texts.map (fun text => .ok (.string text)), s') ∧
      texts.flatten ++ s'.1.rest = [0xfe, 0xff, 0, 97, 0, 10]) ∧
    (streamReader.lineCalls true none false 1 (⟨[0, 13, 0, 97], fun _ => 1⟩, .utf16BE)).1 =
      [.ok (.string [0, 13, 0, 97])] := by
  constructor
  · rintro ⟨texts, s', hcalls, hbytes⟩
    obtain ⟨hout, hrest⟩ := streamReader_readLine (Charset.utf16BE.encoding true) (some [0, 10])
      false ⟨[0xfe, 0xff, 0, 97, 0, 10], fun _ => 1⟩
    unfold Reader.lineCalls Reader.readLineCs at hcalls
    dsimp only [Option.map_some] at hcalls
    rcases hcall : streamReader.readLine (Charset.utf16BE.encoding true) (some [0, 10]) false
      ⟨[0xfe, 0xff, 0, 97, 0, 10], fun _ => 1⟩ with ⟨v, is⟩
    rw [hcall] at hcalls hout hrest
    obtain rfl : v = .ok (.string [0xfe, 0xff, 0, 97, 0, 10]) := hout
    obtain ⟨htexts, hs⟩ := Prod.mk.inj hcalls
    have hrest : s'.1.rest = [] := by
      rw [← hs]
      exact hrest
    rw [hrest] at hbytes
    -- one line was read, and it is shorter than the stream
    rcases texts with _ | ⟨text, _ | ⟨text', texts⟩⟩
    · cases htexts
    · cases htexts
      exact absurd hbytes (by decide)
    · cases htexts
  · have hout := (streamReader_readLine (Charset.utf16BE.encoding true) none false
      ⟨[0, 13, 0, 97], fun _ => 1⟩).1
    unfold Reader.lineCalls Reader.readLineCs
    dsimp only [Option.map_none]
    rcases hcall : streamReader.readLine (Charset.utf16BE.encoding true) none false
      ⟨[0, 13, 0, 97], fun _ => 1⟩ with ⟨v, is⟩
    rw [hcall] at hout
    obtain rfl : v = .ok (.string [0, 13, 0, 97]) := hout
    rfl

end Qore.Stream
