import Mathlib
import Qore.Lib.CInt
import Qore.Lib.Find
import Qore.Lib.OrderedMap
import Qore.Text.Fields

/-!
# `Qore.Dbi.Datasource`: datasource strings

`getConfigString` prints the configuration of a datasource as

    driver:user/pass@db(encoding)%host:port{option1,option2=value}

and `parseDatasource` reads such a text, from both ends: first the options, then the driver, the
user and the password, and what stands behind the last `@`. The texts have no zero byte but the
terminator.
-/

set_option autoImplicit false

namespace Qore.Dbi

open Qore.Lib Qore.Text

/-! ## Printing -/

/-- The value of an option. `other` has the text of any other value. -/
inductive Value
  | nothing
  | bool (b : Bool)
  | string (s : List UInt8)
  | other (text : List UInt8)
  deriving DecidableEq

/-- The connection parameters; those that are empty or 0 are not there. -/
structure Settings where
  username : List UInt8
  password : List UInt8
  dbname : List UInt8
  db_encoding : List UInt8
  hostname : List UInt8
  port : Nat

/-- `qore_ds_private`, with the name of the driver. The options are those of the driver when there
is private data, and otherwise those that are pending. -/
structure DsPrivate where
  name : List UInt8
  private_data : Bool
  current : Settings
  pending : Settings
  options : OrderedMap (List UInt8) Value

/-- A part that is printed unless it is empty. -/
def unlessEmpty (before s after : List UInt8) : List UInt8 :=
  if s = [] then [] else before ++ s ++ after

/-- The connection parameters. With private data the `@` is there even without a database name. -/
def Settings.print (s : Settings) (private_data : Bool) : List UInt8 :=
  unlessEmpty [] s.username [] ++ unlessEmpty (ascii "/") s.password [] ++
    (if private_data then ascii "@" ++ s.dbname else unlessEmpty (ascii "@") s.dbname []) ++
    unlessEmpty (ascii "(") s.db_encoding (ascii ")") ++
    unlessEmpty (ascii "%") s.hostname [] ++
    if s.port = 0 then [] else ascii ":" ++ decimal s.port

/-- The text of an option; `none` if it is not printed. -/
def printOption : List UInt8 × Value → Option (List UInt8)
  | (_, .nothing) => none
  | (_, .bool false) => none
  | (key, .bool true) => some key
  | (key, .string s) => some (key ++ ascii "=" ++ s)
  | (key, .other text) => some (key ++ ascii "=" ++ text)

/-- The loop over the options; `first` tells whether one has been printed. -/
def printOptions : Bool → List (List UInt8 × Value) → List UInt8
  | first, [] => if first then ascii "\x7d" else []
  | first, e :: es =>
    match printOption e with
    | none => printOptions first es
    | some text => (if first then ascii "," else ascii "\x7b") ++ text ++ printOptions true es

/-- `qore_ds_private::getConfigString`. -/
def DsPrivate.getConfigString (ds : DsPrivate) : List UInt8 :=
  ds.name ++ ascii ":" ++
    (if ds.private_data then ds.current else ds.pending).print ds.private_data ++
    printOptions false ds.options.entries

/-! ## Parsing -/

/-- The exceptions: all are a `DATASOURCE-PARSE-ERROR`. -/
inductive Error
  /-- "empty text passed to parseDatasource()" -/
  | emptyText
  /-- "missing value after '=' in option specification in '%s'" -/
  | missingValue (ds : List UInt8)
  /-- "option '%s' repeated in '%s'" -/
  | repeated (key ds : List UInt8)
  /-- "missing database name delimited by '@' in '%s'" -/
  | missingDb (ds : List UInt8)
  /-- "missing closing parenthesis in charset specification in '%s'" -/
  | missingParenthesis (ds : List UInt8)
  /-- "missing hostname string after '%%' delimeter in '%s'" -/
  | missingHost (ds : List UInt8)
  /-- "invalid characters present in port number in '%s'" -/
  | invalidPort (ds : List UInt8)
  /-- `assert(port)` -/
  | assertion
  deriving DecidableEq

/-- What is read for an option. -/
inductive OptionValue
  | true
  | string (s : List UInt8)
  deriving DecidableEq

abbrev Options := OrderedMap (List UInt8) OptionValue

/-- The hash that `parseDatasource` returns. -/
@[ext]
structure DatasourceHash where
  type : Option (List UInt8) := none
  user : Option (List UInt8) := none
  pass : Option (List UInt8) := none
  db : Option (List UInt8) := none
  charset : Option (List UInt8) := none
  host : Option (List UInt8) := none
  port : Option Int := none
  options : Option Options := none

/-- `default_whitespace`. -/
def isBlank (c : UInt8) : Bool := [32, 9, 10, 13, 11].contains c

/-- `QoreString::trim()`. -/
def trim (s : List UInt8) : List UInt8 := (s.rdropWhile isBlank).dropWhile isBlank

/-- An option with a value, when the `=` stands at `eq`. -/
def setOption (ds : List UInt8) (opt : Options) (p : List UInt8) (eq : Nat) (value : List UInt8) :
    Except Error Options :=
  if eq = 0 then .error (.missingValue ds)
  else if p.take eq ∈ opt.keys then .error (.repeated (p.take eq) ds)
  else .ok (opt.put .true (trim (p.take eq)) (some (.string (trim value))))

/-- The loop over the options. -/
def parseOptions (ds : List UInt8) (opt : Options) (p : List UInt8) : Except Error Options :=
  if p = [] then .ok opt
  else
    match find (byteOf '=') 0 p, find (byteOf ',') 0 p with
    | none, none => .ok (opt.put .true p (some .true))
    | some eq, none => setOption ds opt p eq (p.drop (eq + 1))
    | none, some oend =>
      parseOptions ds (opt.put .true (p.take oend) (some .true)) (p.drop (oend + 1))
    | some eq, some oend =>
      if oend < eq then
        parseOptions ds (opt.put .true (p.take oend) (some .true)) (p.drop (oend + 1))
      else
        match setOption ds opt p eq ((p.drop (eq + 1)).take (oend - (eq + 1))) with
        | .error e => .error e
        | .ok opt => parseOptions ds opt (p.drop (oend + 1))
termination_by p.length
decreasing_by
  all_goals
    have hpos := List.length_pos_iff.mpr ‹¬p = []›
    rw [List.length_drop]
    omega

/-- The options at the end of the text, and what stands before them. -/
def splitOptions (ds tmp : List UInt8) : Except Error (Option Options × List UInt8) :=
  if 2 < tmp.length ∧ tmp.getLast? = some (byteOf '}') then
    match rfind (byteOf '{') tmp with
    | none => .ok (none, tmp)
    | some p =>
      match parseOptions ds .empty ((tmp.take (tmp.length - 1)).drop (p + 1)) with
      | .error e => .error e
      | .ok opt => .ok (some opt, tmp.take p)
  else .ok (none, tmp)

/-- The driver, unless the `:` belongs to the port at the end. -/
def splitDriver (str : List UInt8) : Option (List UInt8) × List UInt8 :=
  match find (byteOf ':') 0 str with
  | none => (none, str)
  | some p =>
    if (str.take p).any (· ∈ ascii "@/%") then (none, str)
    else (some (str.take p), str.drop (p + 1))

/-- The user before a password: the text before the slash, if this is not the start of a path or in
an option. -/
def splitUser (str : List UInt8) : Option (List UInt8 × List UInt8) :=
  match find (byteOf '/') 0 str with
  | none => none
  | some p =>
    if str.head? = some (byteOf '@') ∧ (p = 1 ∨ p = 2 ∧ str[1]? = some (byteOf '.')) then none
    else if byteOf '}' ∈ str.drop (p + 1) ∧ byteOf '{' ∈ str.take p then none
    else some (str.take p, str.drop (p + 1))

/-- A text, or nothing when it is empty. -/
def nonEmpty (s : List UInt8) : Option (List UInt8) := if s = [] then none else some s

/-- `check_datasource_chars`. -/
def checkDatasourceChars (chars : List UInt8) : List UInt8 → Option Nat
  | [] => none
  | c :: s =>
    -- rule out invalid matches with a ':' with non-digits following
    if c ∈ chars ∧ ¬(c = byteOf ':' ∧ !isdigit (s.headD 0)) then some 0
    else (checkDatasourceChars chars s).map (· + 1)

/-- `atoi` on some digits: `(int)strtol`. -/
def atoi (digits : List UInt8) : Int := truncInt (min (digitsNum 0 digits) (2 ^ 63 - 1))

/-- The port up to the end, so that no unrecognized characters are left. -/
def parsePort (ds : List UInt8) (h : DatasourceHash) (str : List UInt8) :
    Except Error DatasourceHash :=
  let port := atoi (str.takeWhile isdigit)
  if port = 0 then .error .assertion
  else if str.dropWhile isdigit ≠ [] then .error (.invalidPort ds)
  else .ok { h with port := some port }

/-- The host and the port behind a `%`. -/
def parseHost (ds : List UInt8) (h : DatasourceHash) (str : List UInt8) :
    Except Error DatasourceHash :=
  match checkDatasourceChars (ascii ":") str with
  | none =>
    if str = [] then .error (.missingHost ds) else .ok { h with host := some str }
  | some p =>
    if p = 0 then .error (.missingHost ds)
    else parsePort ds { h with host := some (str.take p) } (str.drop (p + 1))

/-- What stands behind the database name `db`, or with the name when `db` is `none`. -/
def parseDb (ds : List UInt8) (h : DatasourceHash) (db : Option (List UInt8)) (str : List UInt8) :
    Except Error DatasourceHash :=
  match checkDatasourceChars (ascii "%:") str with
  | none => .ok { h with db := some (db.getD str) }
  | some p =>
    let h := { h with db := some (db.getD (str.take p)) }
    if str[p]? = some (byteOf '%') then parseHost ds h (str.drop (p + 1))
    else parsePort ds h (str.drop (p + 1))

/-- The charset. -/
def parseCharset (ds : List UInt8) (h : DatasourceHash) (str : List UInt8) :
    Except Error DatasourceHash :=
  match find (byteOf '(') 0 str with
  | none => parseDb ds h none str
  | some p =>
    match find (byteOf ')') p str with
    | none => .error (.missingParenthesis ds)
    | some closing =>
      parseDb ds { h with charset := some ((str.drop (p + 1)).take (closing - (p + 1))) }
        (some (str.take p)) (str.drop (closing + 1))

/-- `parseDatasource`. -/
def parseDatasource (ds : List UInt8) : Except Error DatasourceHash :=
  if ds = [] then .error .emptyText
  else
    match splitOptions ds (trim ds) with
    | .error e => .error e
    | .ok (options, str) =>
      let (type, str) := splitDriver str
      let (user, has_pass, str) :=
        match splitUser str with
        | none => (none, false, str)
        | some (user, str) => (nonEmpty user, true, str)
      -- take last '@' sign in string in case there's one in the password
      match rfind (byteOf '@') str with
      | none => .error (.missingDb ds)
      | some p =>
        let name := nonEmpty (str.take p)
        let h : DatasourceHash :=
          if has_pass then { type, user, pass := name, options }
          else { type, user := name, options }
        parseCharset ds h (str.drop (p + 1))

end Qore.Dbi
