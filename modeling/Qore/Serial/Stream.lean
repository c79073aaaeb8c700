import Mathlib.Data.List.TakeWhile
import Mathlib.Tactic.NormNum
import Mathlib.Tactic.Positivity
import Mathlib.Tactic.Ring
import Qore.Lib.CInt
import Qore.Lib.Consume
import Qore.Stream.Buffered

/-!
# `Qore.Serial.Stream`: integers and strings in a serialization stream

A value in the stream of `QoreSerializable` begins with a type code of one byte. An integer has the
smallest of four widths that holds it, with the most significant byte first. Sizes are such integers
too, and a string has its size before its bytes.

The readers work on any reader that follows the reader of its unread bytes (`Simulates`), so on
streams that are split in any way.

* `readIntFromStream_consumes`: an integer is read back.
* `readSized_consumes`: the bytes of a string are read back.
* `deserializeStringFromStream_consumes`: the encoding and the bytes of a string are read back.
-/

set_option autoImplicit false

namespace Qore.Serial

open Qore.Lib Qore.Stream

abbrev Bytes := List UInt8

/-- The bytes of an ASCII text. -/
def ascii (s : List Char) : Bytes := s.map fun c => UInt8.ofNat c.toNat

/-- A C string in a buffer: the bytes before the first NUL. -/
def cstr (bytes : Bytes) : Bytes := bytes.takeWhile (· ≠ 0)

theorem cstr_eq {bytes : Bytes} (h : 0 ∉ bytes) : cstr bytes = bytes := by
  unfold cstr
  rw [List.takeWhile_eq_self_iff]
  intro b hb
  rw [decide_eq_true_eq]
  rintro rfl
  exact h hb

/-! ### Type codes -/

/-- `qore_stream_type`. -/
inductive StreamType where
  | hash | hashdecl | string | utf8String | list | booleanTrue | booleanFalse | int1 | int2 | int4
  | int8 | float | qorenumber | qorebinary | absdate | reldate | sqlnull | nothing
  deriving DecidableEq

namespace StreamType

/-- The value of a type code. -/
def code : StreamType → UInt8
  | hash => 0
  | hashdecl => 1
  | string => 2
  | utf8String => 3
  | list => 4
  | booleanTrue => 5
  | booleanFalse => 6
  | int1 => 7
  | int2 => 8
  | int4 => 9
  | int8 => 10
  | float => 11
  | qorenumber => 12
  | qorebinary => 13
  | absdate => 14
  | reldate => 15
  | sqlnull => 16
  | nothing => 17

/-- The codes in the order of their values. -/
def all : List StreamType :=
  [hash, hashdecl, string, utf8String, list, booleanTrue, booleanFalse, int1, int2, int4, int8, float,
    qorenumber, qorebinary, absdate, reldate, sqlnull, nothing]

/-- The type with a code. -/
def ofCode (c : UInt8) : Option StreamType := all.find? fun t => t.code = c

@[simp]
theorem ofCode_code (t : StreamType) : ofCode t.code = some t := by
  cases t <;> rfl

/-- `code_is_int`. -/
def isInt (t : StreamType) : Bool := t = int1 ∨ t = int2 ∨ t = int4 ∨ t = int8

/-- `code_is_string`. -/
def isString (t : StreamType) : Bool := t = string ∨ t = utf8String

end StreamType

/-! ### Writing -/

/-- The bytes of `x` in two's complement, the most significant one first. -/
def msb : Nat → Int → Bytes
  | 0, _ => []
  | width + 1, x => msb width (x / 256) ++ [UInt8.ofNat (x % 256).toNat]

/-- `serializeIntToStream`. -/
def serializeInt (i : Int) : Bytes :=
  if -128 ≤ i ∧ i ≤ 127 then StreamType.int1.code :: msb 1 i
  else if -32768 ≤ i ∧ i ≤ 32767 then StreamType.int2.code :: msb 2 i
  else if -2147483648 ≤ i ∧ i ≤ 2147483647 then StreamType.int4.code :: msb 4 i
  else StreamType.int8.code :: msb 8 i

/-- The size and the bytes of a string, as every kind of string is written. -/
def serializeSized (str : Bytes) : Bytes := serializeInt str.length ++ str

/-- The code of UTF-8. -/
def utf8 : Bytes := ascii ['U', 'T', 'F', '-', '8']

/-- `serializeStringToStream`. The encoding is its code, or a null pointer. -/
def serializeString (enc : Option Bytes) (str : Bytes) : Bytes :=
  (match enc with
    | some e =>
      if e ≠ utf8 then StreamType.string.code :: serializeSized e else [StreamType.utf8String.code]
    | none => [StreamType.utf8String.code]) ++ serializeSized str

/-! ### Encodings -/

/-- A name for the comparison `strcasecmp`. -/
def lower (name : Bytes) : Bytes := name.map fun b => if 65 ≤ b ∧ b ≤ 90 then b + 32 else b

/-- `QoreEncodingManager`: the codes of the encodings, and other names for them. No two codes are
equal for `strcasecmp`. -/
structure Encodings where
  emap : List Bytes
  amap : List (Bytes × Bytes)
  distinct : emap.Pairwise fun a b => lower a ≠ lower b

/-- `QoreEncodingManager::findCreate`. A name that is not there is the code of a new encoding. -/
def Encodings.findCreate (es : Encodings) (name : Bytes) : Bytes :=
  match es.emap.find? fun c => lower c = lower name with
  | some c => c
  | none =>
    match es.amap.find? fun a => lower a.1 = lower name with
    | some a => a.2
    | none => name

/-- The code of an encoding finds it. -/
theorem Encodings.findCreate_eq (es : Encodings) {code : Bytes} (h : code ∈ es.emap) :
    es.findCreate code = code := by
  have hfind : es.emap.find? (fun c => lower c = lower code) = some code := by
    obtain ⟨before, after, hsplit⟩ := List.append_of_mem h
    have hdistinct := es.distinct
    rw [hsplit, List.pairwise_append] at hdistinct
    rw [hsplit, List.find?_append, List.find?_eq_none.mpr, Option.none_or, List.find?_cons_of_pos]
    · exact decide_eq_true rfl
    · intro c hc
      rw [decide_eq_true_eq]
      exact hdistinct.2.2 c hc code (List.mem_cons_self ..)
  unfold findCreate
  rw [hfind]

/-! ### Reading -/

/-- The exception of the readers. -/
def deserializationError (desc : String) : Fault := .exception ⟨"DESERIALIZATION-ERROR", desc⟩

section
variable {σ : Type} (r : Reader σ)

/-- The integer that a call gives. -/
def intOf (call : Program σ Fault Stream.Value) : Program σ Fault Int := do
  match ← call with
  | .int i => return i
  | _ => Program.throw .undefined

/-- `static_cast<qore_stream_type>(reader.readi1(xsink))`. -/
def readCode : Program σ Fault UInt8 := do
  let i ← intOf r.readi1
  return UInt8.ofNat (i % 256).toNat

/-- `deserializeIntFromStream`. -/
def deserializeIntFromStream : StreamType → Program σ Fault Int
  | .int1 => intOf r.readi1
  | .int2 => intOf r.readi2
  | .int4 => intOf r.readi4
  | .int8 => intOf r.readi8
  | _ => Program.throw .assertion

/-- `readIntFromStream`. -/
def readIntFromStream (type : String) (can_be_negative : Bool) : Program σ Fault Int := do
  let code ← readCode r
  match (StreamType.ofCode code).filter StreamType.isInt with
  | none =>
    let n := code.toNat
    Program.throw (deserializationError
      s!"expecting integer code for the {type} value; got invalid code {n} instead")
  | some t =>
    let value ← deserializeIntFromStream r t
    if !can_be_negative ∧ value < 0 then
      Program.throw (deserializationError s!"stream data gives an invalid {type} value ({value})")
    else return value

/-- A size, and as many bytes. -/
def readSized (type : String) : Program σ Fault Bytes := do
  let size ← readIntFromStream r type false
  if size ≠ 0 then r.readData size.toNat true else return []

/-- `readStringFromStream`. -/
def readStringFromStream : Program σ Fault Bytes := readSized r "string size"

/-- `deserializeStringFromStream`: the code of the encoding, and the bytes. -/
def deserializeStringFromStream (es : Encodings) (code : StreamType) :
    Program σ Fault (Bytes × Bytes) :=
  if code = .string then do
    let enc_str ← readStringFromStream r
    let str ← readStringFromStream r
    return (es.findCreate (cstr enc_str), str)
  else do
    let str ← readStringFromStream r
    return (utf8, str)

end

/-! ### Bytes of integers -/

theorem length_msb (width : Nat) (x : Int) : (msb width x).length = width := by
  induction width generalizing x with
  | zero => rfl
  | succ width ih => rw [msb, List.length_append, ih, List.length_singleton]

/-- The bytes stand for the number modulo a power of 256. -/
theorem ofBytes_msb (width : Nat) (x : Int) : (ofBytes (msb width x) : Int) = x % 256 ^ width := by
  induction width generalizing x with
  | zero =>
    show ((0 : Nat) : Int) = x % 1
    omega
  | succ width ih =>
    have hlast : ofBytes (msb width (x / 256) ++ [UInt8.ofNat (x % 256).toNat]) =
        ofBytes (msb width (x / 256)) * 256 + (x % 256).toNat := by
      unfold ofBytes
      rw [List.foldl_append, List.foldl_cons, List.foldl_nil, UInt8.toNat_ofNat']
      omega
    rw [msb, hlast, pow_succ']
    push_cast
    have hquot : x / 256 / 256 ^ width = x / (256 * 256 ^ width) := Int.ediv_ediv_of_nonneg (by decide)
    rw [ih, Int.toNat_of_nonneg (by omega), Int.emod_def x, Int.emod_def, Int.emod_def x, hquot]
    ring

/-- An integer that the width holds is read back from its bytes. -/
theorem toSigned_msb {width : Nat} (hwidth : 0 < width) {x : Int}
    (hx : -2 ^ (8 * width - 1) ≤ x ∧ x < 2 ^ (8 * width - 1)) :
    toSigned width (ofBytes (msb width x)) = x := by
  obtain ⟨k, hk⟩ : ∃ k, 8 * width = k + 1 := ⟨8 * width - 1, by omega⟩
  have hbase : (256 : Int) ^ width = 2 * 2 ^ k := by
    rw [← pow_succ', ← hk, pow_mul]
    norm_num
  have hbytes := ofBytes_msb width x
  have hsub : 8 * width - 1 = k := by omega
  rw [hbase] at hbytes
  rw [hsub] at hx
  unfold toSigned
  rw [hsub, hk]
  have hpow : ((2 ^ k : Nat) : Int) = 2 ^ k := by push_cast; rfl
  by_cases hneg : x < 0
  · have hmod : x % (2 * 2 ^ k) = x + 2 * 2 ^ k := by
      rw [← Int.add_emod_right, Int.emod_eq_of_lt (by omega) (by omega)]
    omega
  · have hmod : x % (2 * 2 ^ k) = x := Int.emod_eq_of_lt (by omega) (by omega)
    omega

/-! ### Bytes that are read -/

section
variable {σ : Type} {r : Reader σ} {I : σ → Prop} {E : Fault → Fault → Prop} {str : Bytes}

/-- The bytes that a reader has not read. -/
def At (r : Reader σ) (I : σ → Prop) (s : σ) (bytes : Bytes) : Prop := I s ∧ r.unread s = bytes

theorem eq_ok_of_sameOutcome {α : Type} {x : Except Fault α} {a : α}
    (h : Program.SameOutcome E x (.ok a)) : x = .ok a := by
  cases h
  rfl

theorem readData_consumes (hr : Simulates r I E) {bytes : Bytes} (hne : bytes ≠ []) :
    Consumes (At r I) (r.readData bytes.length true) bytes (.ok bytes) := by
  intro s rest h
  have hpos := List.length_pos_of_ne_nil hne
  obtain ⟨hout, hleft⟩ := hr.readData bytes.length true hpos s (bytes ++ rest) h
  have hread : byteReader.readData bytes.length true (bytes ++ rest) = (.ok bytes, rest) := by
    show (if _ then _ else _ : Except Fault Bytes × Bytes) = _
    rw [if_pos (.inl (by simp)), List.take_left, List.drop_left]
  rw [hread] at hout hleft
  exact ⟨eq_ok_of_sameOutcome hout, fun _ _ => hleft⟩

/-- The reader looks at the next byte itself. -/
def PeeksByte (r : Reader σ) (I : σ → Prop) : Prop :=
  ∀ s, I s → r.peek s = (.ok (nextByte (r.unread s)), s)

theorem peekCheck_peeks (hpeek : PeeksByte r I) (b : UInt8) :
    Peeks (At r I) r.peekCheck b b.toNat := by
  rintro s rest ⟨hs, hrest⟩
  have hbyte := hpeek s hs
  rw [hrest] at hbyte
  have hcheck : r.peekCheck s = (.ok (b.toNat : Int), s) := by
    unfold Reader.peekCheck
    rw [Program.bind_of_ok hbyte]
    exact if_neg (show ¬(b.toNat : Int) < 0 by omega) ▸ rfl
  rw [hcheck]
  exact ⟨rfl, hs, hrest⟩

theorem readInt_consumes (hr : Simulates r I E) {width : Nat} (hwidth : 0 < width) {x : Int}
    (hx : -2 ^ (8 * width - 1) ≤ x ∧ x < 2 ^ (8 * width - 1)) :
    Consumes (At r I) (intOf (r.readInt width true false)) (msb width x) (.ok x) := by
  have hlen := length_msb width x
  have hne : msb width x ≠ [] := List.ne_nil_of_length_pos (by omega)
  have hdata := readData_consumes hr hne
  rw [hlen] at hdata
  have hcall : Consumes (At r I) (r.readInt width true false) (msb width x)
      (.ok (Stream.Value.int x)) := by
    have h := hdata.map fun bytes => Stream.Value.int (toSigned width (ofBytes bytes))
    rw [Except.map, toSigned_msb hwidth hx] at h
    exact h
  have h := hcall.bind (f := fun v => match v with
    | .int i => Pure.pure i
    | _ => Program.throw Fault.undefined) (Consumes.pure x)
  rw [List.append_nil] at h
  exact h

/-- A type code is read back. -/
theorem readCode_consumes (hr : Simulates r I E) (t : StreamType) :
    Consumes (At r I) (readCode r) [t.code] (.ok t.code) := by
  have hrange : (t.code.toNat : Int) < 128 := by cases t <;> decide
  have hbytes : msb 1 t.code.toNat = [t.code] := by cases t <;> rfl
  have hback : UInt8.ofNat ((t.code.toNat : Int) % 256).toNat = t.code := by cases t <;> rfl
  have h := (@readInt_consumes σ r I E hr 1 (by decide) t.code.toNat
    ⟨by norm_num, by norm_num; omega⟩).map fun i => UInt8.ofNat (i % 256).toNat
  rw [hbytes, Except.map, hback] at h
  exact h

theorem deserializeIntFromStream_consumes (hr : Simulates r I E) {x : Int}
    (hx : -9223372036854775808 ≤ x ∧ x ≤ 9223372036854775807) :
    ∃ t bytes, t.isInt = true ∧ serializeInt x = t.code :: bytes ∧
      Consumes (At r I) (deserializeIntFromStream r t) bytes (.ok x) := by
  unfold serializeInt
  split
  · exact ⟨.int1, _, rfl, rfl, readInt_consumes hr (by decide) (by norm_num; omega)⟩
  · split
    · exact ⟨.int2, _, rfl, rfl, readInt_consumes hr (by decide) (by norm_num; omega)⟩
    · split
      · exact ⟨.int4, _, rfl, rfl, readInt_consumes hr (by decide) (by norm_num; omega)⟩
      · exact ⟨.int8, _, rfl, rfl, readInt_consumes hr (by decide) (by norm_num; omega)⟩

/-- An integer is read back. -/
theorem readIntFromStream_consumes (hr : Simulates r I E) (type : String) (can_be_negative : Bool)
    {x : Int} (hx : -9223372036854775808 ≤ x ∧ x ≤ 9223372036854775807)
    (hneg : can_be_negative = false → 0 ≤ x) :
    Consumes (At r I) (readIntFromStream r type can_be_negative) (serializeInt x) (.ok x) := by
  obtain ⟨t, bytes, ht, hcode, hvalue⟩ := deserializeIntFromStream_consumes hr hx
  have hfound : (StreamType.ofCode t.code).filter StreamType.isInt = some t := by
    rw [StreamType.ofCode_code, Option.filter_some, if_pos ht]
  have hcheck : ¬(!can_be_negative ∧ x < 0) := by
    rintro ⟨hfalse, hlt⟩
    rw [Bool.not_eq_true'] at hfalse
    have := hneg hfalse
    omega
  rw [hcode]
  refine (readCode_consumes hr t).bind ?_
  rw [hfound]
  rw [← List.append_nil bytes]
  refine hvalue.bind ?_
  rw [if_neg hcheck]
  exact Consumes.pure x

/-- A size is read back. No object in memory is larger than the sizes here. -/
theorem readSize_consumes (hr : Simulates r I E) (type : String) {n : Nat} (hn : n < 2 ^ 63) :
    Consumes (At r I) (readIntFromStream r type false) (serializeInt n) (.ok (n : Int)) :=
  readIntFromStream_consumes hr type false (by norm_num at hn; omega) fun _ => Int.natCast_nonneg _

/-- A size and the bytes behind it are read back. -/
theorem readSized_consumes (hr : Simulates r I E) (type : String) (hlen : str.length < 2 ^ 63) :
    Consumes (At r I) (readSized r type) (serializeSized str) (.ok str) := by
  have hsize := readSize_consumes hr type hlen
  refine hsize.bind ?_
  by_cases hnil : str = []
  · subst hnil
    exact Consumes.pure []
  · have hne : (str.length : Int) ≠ 0 := by
      have := List.length_pos_of_ne_nil hnil
      omega
    rw [if_pos hne]
    exact readData_consumes hr hnil

theorem readStringFromStream_consumes (hr : Simulates r I E) (hlen : str.length < 2 ^ 63) :
    Consumes (At r I) (readStringFromStream r) (serializeSized str) (.ok str) :=
  readSized_consumes hr "string size" hlen

/-- The encoding and the bytes of a string are read back behind the type code. -/
theorem deserializeStringFromStream_consumes (hr : Simulates r I E) (es : Encodings) {enc : Bytes}
    (henc : enc ∈ es.emap) (hnul : 0 ∉ enc) (hsize : enc.length < 2 ^ 63)
    (hlen : str.length < 2 ^ 63) :
    ∃ t bytes, t.isString = true ∧ serializeString (some enc) str = t.code :: bytes ∧
      Consumes (At r I) (deserializeStringFromStream r es t) bytes (.ok (enc, str)) := by
  have hstr := readStringFromStream_consumes hr hlen
  by_cases hutf8 : enc = utf8
  · refine ⟨.utf8String, serializeSized str, rfl, by simp [serializeString, hutf8], ?_⟩
    rw [hutf8]
    exact hstr.map_ok fun str => (utf8, str)
  · have hname := readStringFromStream_consumes hr hsize
    refine ⟨.string, serializeSized enc ++ serializeSized str, rfl,
      by simp [serializeString, hutf8], hname.bind ?_⟩
    rw [cstr_eq hnul, es.findCreate_eq henc]
    exact hstr.map_ok fun str => (enc, str)

end

end Qore.Serial
