import Qore.Date.DurationText
import Qore.Serial.Stream

/-!
# `Qore.Serial.Model`: values in a serialization stream

The functions of `QoreSerializable` that write a value into a stream and read it from a stream.
Values of other types than those of `Value` cannot be written; that is an exception. The bytes that
were written before an exception are not modelled.

Arbitrary-precision numbers, the time zone files, the conversion of encodings and the creation of
typed hashes are parameters (`NumberConv`, `Env`).
-/

set_option autoImplicit false

namespace Qore.Serial

open Qore.Lib Qore.Lib.Decimal Qore.Stream
open Qore.Date (RelTime CString normalizeUnits2 nul printInt concatField)

/-! ### Values -/

/-- The zone of an absolute time: none for UTC, an offset, or a region of a zone file. -/
inductive ZoneRef where
  | utc
  | offset (utcoff : Int)
  | region (name : Bytes)
  deriving DecidableEq

/-- A hashdecl, with the path that finds it. -/
structure HashDecl where
  path : Bytes
  name : String
  deriving DecidableEq

/-- `QoreValue`. A float is the 64 bits of a `double`. The encoding of a string is its code. -/
inductive Value (N : Type) where
  | nothing
  | null
  | bool (b : Bool)
  | int (i : Int64)
  | float (bits : Int64)
  | number (n : N)
  | string (enc : Bytes) (str : Bytes)
  | binary (bytes : Bytes)
  | relDate (t : RelTime)
  | absDate (epoch : Int64) (us : Nat) (zone : ZoneRef)
  | list (entries : List (Value N))
  | hash (thd : Option HashDecl) (members : List (Bytes × Value N))
  | other (typeName : String)

/-- The conversions of `QoreNumberNode`: its text, its precision, and a number from a text with or
without a precision. -/
structure NumberConv (N : Type) where
  toText : N → Bytes
  getPrec : N → Nat
  parse : Bytes → Option Nat → N

/-- What the reader finds around it: encodings with `QCS_DEFAULT` and the conversion to it, whether
`PO_NO_FILESYSTEM` is set, the regions of `QTZM`, and the hashdecls of the program. -/
structure Env (N : Type) where
  conv : NumberConv N
  encodings : Encodings
  qcsDefault : Bytes
  convertEncoding : Bytes → Bytes → Bytes → Except Exception Bytes
  noFilesystem : Bool
  loadRegion : Bool → Bytes → Except Exception ZoneRef
  findHashDecl : Bytes → Option HashDecl
  newHash : HashDecl → List (Bytes × Value N) → Except Exception (Value N)

/-! ### Writing -/

/-- `STATIC_UTC`. -/
def staticUtc : Bytes := ascii ['U', 'T', 'C']

/-- `AbstractQoreZoneInfo::getUTCOffset()`. -/
def getUTCOffset (utcoff : Int) : Int := if utcoff = -1 then 0 else utcoff

/-- The zone of an absolute date. -/
def serializeZone : ZoneRef → Bytes
  | .utc => serializeString none staticUtc
  | .offset utcoff => serializeInt (getUTCOffset utcoff)
  | .region name => serializeString none name

/-- `if (x) { ...; str.sprintf("%d" unit, x); }` in the time part; the second component is `has_t`. -/
def concatTime (str : List Char × Bool) (x : Int) (unit : Char) : List Char × Bool :=
  if x ≠ 0 then ((if str.2 then str.1 else str.1 ++ ['T']) ++ (printInt 0 x ++ [unit]), true)
  else str

/-- The text of a relative date. -/
def relDateText (info : RelTime) : List Char :=
  if info.year ≠ 0 ∨ info.month ≠ 0 ∨ info.day ≠ 0 ∨ info.hour ≠ 0 ∨ info.minute ≠ 0 ∨
      info.second ≠ 0 ∨ info.us ≠ 0 then
    let str := concatField (concatField (concatField [] info.year 'Y') info.month 'M') info.day 'D'
    let str := concatTime (str, false) info.hour 'H'
    let str := concatTime str info.minute 'M'
    let str := concatTime str info.second 'S'
    (concatTime str info.us 'u').1
  else ['0', 'D']

/-- The text of a number. -/
def numberText {N : Type} (conv : NumberConv N) (n : N) : Bytes :=
  let tmp := conv.toText n
  let tmp :=
    if tmp = ascii ['i', 'n', 'f'] then ascii ['@', 'i', 'n', 'f', '@', 'n']
    else if tmp = ascii ['-', 'i', 'n', 'f'] then ascii ['-', '@', 'i', 'n', 'f', '@', 'n']
    else if tmp = ascii ['n', 'a', 'n'] then ascii ['@', 'n', 'a', 'n', '@', 'n']
    else tmp ++ ascii ['n']
  tmp ++ ascii ('{' :: (padded 0 (conv.getPrec n) ++ ['}']))

section
variable {N : Type} (conv : NumberConv N) (qcsDefault : Bytes)

/-- The type code and the hashdecl of a hash. -/
def serializeHashHeader : Option HashDecl → Bytes
  | some thd => StreamType.hashdecl.code :: serializeSized thd.path
  | none => [StreamType.hash.code]

mutual

/-- `serializeValueToStream`. -/
def serializeValue : Value N → Except Exception Bytes
  | .nothing => .ok [StreamType.nothing.code]
  | .null => .ok [StreamType.sqlnull.code]
  | .bool b => .ok [if b then StreamType.booleanTrue.code else StreamType.booleanFalse.code]
  | .int i => .ok (serializeInt i.toInt)
  | .float bits => .ok (StreamType.float.code :: msb 8 bits.toInt)
  | .number n => .ok (StreamType.qorenumber.code :: serializeSized (numberText conv n))
  | .string enc str => .ok (serializeString (some enc) str)
  | .binary bytes => .ok (StreamType.qorebinary.code :: serializeSized bytes)
  | .relDate t => .ok (StreamType.reldate.code :: serializeSized (ascii (relDateText t)))
  | .absDate epoch us zone =>
    .ok (StreamType.absdate.code ::
      (serializeInt epoch.toInt ++ (serializeInt (truncInt us) ++ serializeZone zone)))
  | .list entries => do
    let bytes ← serializeEntries entries
    return StreamType.list.code :: (serializeInt entries.length ++ bytes)
  | .hash thd members => do
    let bytes ← serializeMembers members
    return serializeHashHeader thd ++ (serializeInt members.length ++ bytes)
  | .other typeName =>
    .error ⟨"SERIALIZATION-ERROR",
      s!"cannot serialize type '{typeName}'; type is not supported for serialization"⟩

/-- The loop over the elements of a list. -/
def serializeEntries : List (Value N) → Except Exception Bytes
  | [] => .ok []
  | v :: vs => do
    let bytes ← serializeValue v
    let rest ← serializeEntries vs
    return bytes ++ rest

/-- The loop over the members of a hash. -/
def serializeMembers : List (Bytes × Value N) → Except Exception Bytes
  | [] => .ok []
  | (key, v) :: members => do
    let bytes ← serializeValue v
    let rest ← serializeMembers members
    return serializeString (some qcsDefault) key ++ bytes ++ rest

end

end

/-! ### Reading -/

/-- The character of a byte. -/
def byteChar (b : UInt8) : Char := Char.ofNat b.toNat

theorem byteChar_ne_nul {b : UInt8} (h : b ≠ 0) : byteChar b ≠ nul := by
  intro hnul
  have hvalid : b.toNat.isValidChar := .inl (by have := b.toNat_lt; omega)
  have hval := congrArg Char.toNat hnul
  unfold byteChar nul at hval
  rw [Char.toNat_ofNat, if_pos hvalid] at hval
  exact h (UInt8.toNat_inj.mp hval)

/-- A string with a `P` in front, as `DateTimeNode(str.c_str())` gets it. -/
def prependP (str : Bytes) : CString where
  chars := 'P' :: (cstr str).map byteChar
  noNul := by
    rw [List.mem_cons, not_or]
    refine ⟨by decide, ?_⟩
    intro hmem
    obtain ⟨b, hb, hchar⟩ := List.mem_map.mp hmem
    have hne : b ≠ 0 := by simpa using List.mem_takeWhile_imp hb
    exact byteChar_ne_nul hne hchar

/-- `is_prec`. `atoi` has no value for a number that is not an `int`. -/
def isPrec (str : Bytes) (len : Nat) : Option Nat :=
  match str with
  | [] => some 0
  | c :: p =>
    let ds := p.takeWhile fun b => (byteChar b).isDigit
    if byteChar c ≠ '{' ∨ ds = [] ∨ (p.drop ds.length).head?.map byteChar ≠ some '}' ∨
        ds.length + 2 ≠ len then some 0
    else
      let prec := value (ds.map byteChar)
      if prec ≤ 2147483647 then some prec else none

/-- A number that needs a precision. -/
def withPrec {N : Type} (conv : NumberConv N) (val : Bytes) : Option Nat → Except Fault N
  | none => .error .undefined
  | some prec =>
    if prec ≠ 0 then .ok (conv.parse val (some prec))
    else
      let text := String.ofList (val.map byteChar)
      .error (deserializationError s!"invalid number string '{text}' read from stream")

/-- `*val == '-' || *val == '+'`. -/
def signLength (val : Bytes) : Nat :=
  if val.head?.map byteChar = some '-' ∨ val.head?.map byteChar = some '+' then 1 else 0

/-- `deserializeNumberFromStream`, from the string on. -/
def newNumber {N : Type} (conv : NumberConv N) (tmp : Bytes) : Except Fault N :=
  let val := cstr tmp
  let sign := signLength val
  let special := lower ((val.drop sign).take 5)
  if special = ascii ['@', 'n', 'a', 'n', '@'] ∨ special = ascii ['@', 'i', 'n', 'f', '@'] then
    if (val.drop (5 + sign)).head?.map byteChar = some 'n' then
      if tmp.length = 6 + sign then .ok (conv.parse val none)
      else withPrec conv val (isPrec (val.drop (sign + 6)) (tmp.length - sign - 6))
    else withPrec conv val (some 0)
  else
    let p := val.dropWhile fun b => byteChar b ≠ '{'
    if p ≠ [] then withPrec conv val (isPrec p (tmp.length - (val.length - p.length)))
    else .ok (conv.parse val none)

/-- An outcome that does not depend on the stream. -/
def ofExcept {σ α : Type} : Except Fault α → Program σ Fault α
  | .ok a => Program.pure a
  | .error e => Program.throw e

/-- `xsink->appendLastDescription`. -/
def appendLastDescription {σ α : Type} (text : String) (m : Program σ Fault α) :
    Program σ Fault α := fun s =>
  match m s with
  | (.error (.exception e), s') => (.error (.exception { e with desc := e.desc ++ text }), s')
  | out => out

section
variable {N σ : Type} (env : Env N) (r : Reader σ)

/-- The zone of a region; `is_path` selects how it is loaded. -/
def findRegion (region : Bytes) : Except Exception ZoneRef :=
  let is_path := region.head?.map byteChar = some '.' ∨ region.head?.map byteChar = some '/'
  if is_path ∧ env.noFilesystem then
    let text := String.ofList (region.map byteChar)
    .error ⟨"ILLEGAL-FILESYSTEM-ACCESS", "cannot create a TimeZone object from absolute path " ++
      s!"'{text}' when sandboxing restriction PO_NO_FILESYSTEM is set"⟩
  else env.loadRegion is_path region

/-- `QTZM.findCreateOffsetZone`. -/
def offsetZone (seconds_east : Int) : ZoneRef :=
  if seconds_east = 0 then .utc else .offset seconds_east

/-- The zone of an absolute date, from its type code on. -/
def readZone : Program σ Fault ZoneRef := do
  let zt := UInt8.ofNat (← r.peekCheck).toNat
  if (StreamType.ofCode zt).any StreamType.isInt then
    let seconds_east ← readIntFromStream r "absolute date UTC offset" true
    return offsetZone (truncInt seconds_east)
  else if zt = StreamType.utf8String.code then
    let _ ← readCode r
    let region ← readStringFromStream r
    ofExcept ((findRegion env (cstr region)).mapError .exception)
  else
    let n := zt.toNat
    Program.throw (deserializationError (s!"invalid absolute date zone type {n} read from " ++
      "stream; expecting an integer or UTF-8 string type"))

/-- `DateTimeNode::makeAbsolute`, which takes the microseconds as an `int` and normalises them. -/
def makeAbsolute (zone : ZoneRef) (seconds us : Int) : Value N :=
  let units := normalizeUnits2 .int64 .int seconds (truncInt us) 1000000
  .absDate (Int64.ofInt units.1) units.2.toNat zone

/-- `deserializeAbsDateFromStream`. -/
def deserializeAbsDateFromStream : Program σ Fault (Value N) := do
  let epoch ← readIntFromStream r "absolute date epoch" true
  let us ← readIntFromStream r "absolute date microseconds" true
  let zone ← readZone env r
  return makeAbsolute zone epoch us

/-- `deserializeRelDateFromStream`. An overflow of an `int` and a read behind the end of the string
are undefined. -/
def deserializeRelDateFromStream : Program σ Fault (Value N) := do
  let str ← readStringFromStream r
  match RelTime.setIso8601 (prependP str) with
  | .ok (some t) => return .relDate t
  | _ => Program.throw .undefined

/-- `h->setKeyValue`. -/
def setKeyValue (members : List (Bytes × Value N)) (key : Bytes) (val : Value N) :
    List (Bytes × Value N) :=
  if members.any fun m => m.1 = key then
    members.map fun m => if m.1 = key then (key, val) else m
  else members ++ [(key, val)]

/-- The key of a member, in the default encoding. -/
def readKey : Program σ Fault Bytes := do
  let code ← readCode r
  match (StreamType.ofCode code).filter StreamType.isString with
  | none =>
    let n := code.toNat
    Program.throw (deserializationError
      s!"expecting string type for hash key; got type {n} instead")
  | some t =>
    let (enc, str) ← deserializeStringFromStream r env.encodings t
    if enc = env.qcsDefault then return cstr str
    else
      let str ← ofExcept ((env.convertEncoding enc env.qcsDefault str).mapError .exception)
      return cstr str

/-- The hashdecl of a typed hash. -/
def readHashDecl : Program σ Fault HashDecl := do
  let path_str ← readStringFromStream r
  match env.findHashDecl (cstr path_str) with
  | some thd => return thd
  | none =>
    let text := String.ofList ((cstr path_str).map byteChar)
    Program.throw (deserializationError (s!"stream data indicates that a '{text}' typed hash " ++
      "should be deserialized, but no such typed hash (hashdecl) could be found in the current " ++
      "Program object"))

/-- `deserializeListFromStream`; `readValue` reads an element. -/
def deserializeListFromStream (readValue : Program σ Fault (Value N)) :
    Program σ Fault (Value N) := do
  let size ← readIntFromStream r "list size" false
  let entries ← Program.forN (fun entries => do
    let val ← readValue
    return entries ++ [val]) size.toNat []
  return .list entries

/-- A round of the loop of `deserializeHashFromStream`. -/
def readMember (thd : Option HashDecl) (readValue : Program σ Fault (Value N))
    (members : List (Bytes × Value N)) : Program σ Fault (List (Bytes × Value N)) := do
  let key ← readKey env r
  let val ← match thd with
    | some thd =>
      let name := thd.name
      appendLastDescription s!" (while deserializing hashdecl '{name}')" readValue
    | none => readValue
  return setKeyValue members key val

/-- `deserializeHashFromStream`, from the size on. -/
def readMembers (thd : Option HashDecl) (readValue : Program σ Fault (Value N)) :
    Program σ Fault (Value N) := do
  let size ← readIntFromStream r "hash size" false
  let members ← Program.forN (readMember env r thd readValue) size.toNat []
  match thd with
  | some thd => ofExcept ((env.newHash thd members).mapError .exception)
  | none => return .hash none members

/-- The types that `deserializeValueFromStream` dispatches on; `readValue` reads what is in a list
or a hash. -/
def readByType (readValue : Program σ Fault (Value N)) : StreamType → Program σ Fault (Value N)
  | .hash => readMembers env r none readValue
  | .hashdecl => do
    let thd ← readHashDecl env r
    readMembers env r (some thd) readValue
  | .string => do
    let (enc, str) ← deserializeStringFromStream r env.encodings .string
    return .string enc str
  | .utf8String => do
    let (enc, str) ← deserializeStringFromStream r env.encodings .utf8String
    return .string enc str
  | .int1 => do return .int (Int64.ofInt (← deserializeIntFromStream r .int1))
  | .int2 => do return .int (Int64.ofInt (← deserializeIntFromStream r .int2))
  | .int4 => do return .int (Int64.ofInt (← deserializeIntFromStream r .int4))
  | .int8 => do return .int (Int64.ofInt (← deserializeIntFromStream r .int8))
  | .booleanTrue => return .bool true
  | .booleanFalse => return .bool false
  | .list => deserializeListFromStream r readValue
  | .float => do return .float (Int64.ofInt (← intOf r.readi8))
  | .qorenumber => do
    let tmp ← readStringFromStream r
    let n ← ofExcept (newNumber env.conv tmp)
    return .number n
  | .absdate => deserializeAbsDateFromStream env r
  | .reldate => deserializeRelDateFromStream r
  | .qorebinary => do return .binary (← readSized r "binary object size")
  | .sqlnull => return .null
  | .nothing => return .nothing

/-- `deserializeValueFromStream`, for values that are nested less than `fuel` deep. -/
def deserializeValue : Nat → Program σ Fault (Value N)
  | 0 => Program.throw .endless
  | fuel + 1 => do
    let code ← readCode r
    match StreamType.ofCode code with
    | none =>
      let n := code.toNat
      Program.throw (deserializationError s!"invalid serialization type code {n}")
    | some t => readByType env r (deserializeValue fuel) t

/-- `deserializeValueFromStream`. A value inside of another one takes a byte at least. -/
def deserializeValueFromStream : Program σ Fault (Value N) := fun s =>
  deserializeValue env r ((r.unread s).length + 1) s

end

end Qore.Serial
