import Qore.Lib.Find
import Qore.Text.Fields
import Qore.Text.Uri

/-!
# `Qore.Url.Parse`: taking URLs apart

`qore_url_private::parse_intern` cuts the scheme, the path, the user name and password, and the port
from the text of a URL, one after the other; `sbuf` is what is left. The text has no zero byte but
the terminator.
-/

set_option autoImplicit false

namespace Qore.Url

open Qore.Lib Qore.Text
open Qore.Stream (Fault)

/-- The options of `parse`: `QURL_KEEP_BRACKETS` and so on. -/
structure Options where
  keepBrackets : Bool := false
  decode : Bool := false
  decodePath : Bool := false
  maintainCase : Bool := false

/-- The parts of a URL; `none` is a null pointer. -/
structure Info where
  protocol : Option (List UInt8) := none
  path : Option (List UInt8) := none
  username : Option (List UInt8) := none
  password : Option (List UInt8) := none
  host : Option (List UInt8) := none
  port : Nat := 0
  deriving DecidableEq

/-- The exceptions; all but the last one are a `PARSE-URL-ERROR`. -/
inductive Error
  /-- "URL '%s' has an invalid empty port specification" -/
  | emptyPort (buf : List UInt8)
  /-- "URL '%s' has an invalid non-numeric character in the port specification (char: '%c' ue: %lld
  sbuf: '%s')" -/
  | nonNumericPort (buf : List UInt8) (c : UInt8) (username_end : Option Nat) (sbuf : List UInt8)
  /-- "URL '%s' has an invalid port value; it must be between 0 and 65535" -/
  | invalidPort (buf : List UInt8)
  /-- "URL '%s' cannot be parsed" -/
  | cannotParse (url : List UInt8)
  | decoding (e : Fault)
  deriving DecidableEq

/-! ### Letters -/

/-- `isalpha`. -/
def isalpha (c : UInt8) : Bool :=
  byteOf 'A' ≤ c && c ≤ byteOf 'Z' || byteOf 'a' ≤ c && c ≤ byteOf 'z'

/-- `tolower`. -/
def tolower (c : UInt8) : UInt8 := if byteOf 'A' ≤ c ∧ c ≤ byteOf 'Z' then c + 32 else c

/-- `QoreString::tolwr`. -/
def tolwr (s : List UInt8) : List UInt8 := s.map tolower

/-- `sbuf[i]`; behind the last byte there is a zero. -/
def charAt (sbuf : List UInt8) (i : Nat) : UInt8 := sbuf.getD i 0

/-! ### The parts -/

/-- The scheme, and what follows. -/
def splitScheme (options : Options) (buf : List UInt8) : Option (List UInt8) × List UInt8 :=
  match findSub (ascii "://") buf with
  | none => (none, buf)
  | some protocol_separator =>
    let protocol := buf.take protocol_separator
    (some (if options.maintainCase then protocol else tolwr protocol),
      buf.drop (protocol_separator + 3))

/-- Windows paths as in `file:///c:/dir`. -/
def isFilePath (sbuf : List UInt8) : Bool :=
  3 ≤ sbuf.length &&
    ((charAt sbuf 0 = byteOf '/' || charAt sbuf 0 = byteOf '\\') &&
      (isalpha (charAt sbuf 1) && charAt sbuf 2 = byteOf ':' && !isdigit (charAt sbuf 3))) &&
    !sbuf.contains (byteOf '@')

/-- Windows paths without a slash before them, and UNC paths. -/
def isUncPath (sbuf : List UInt8) : Bool :=
  2 ≤ sbuf.length &&
    ((isalpha (charAt sbuf 0) && charAt sbuf 1 = byteOf ':' && !isdigit (charAt sbuf 2)) ||
      (charAt sbuf 0 = byteOf '\\' && charAt sbuf 1 = byteOf '\\') ||
      (charAt sbuf 0 = byteOf '/' && charAt sbuf 1 = byteOf '/')) &&
    !sbuf.contains (byteOf '@')

/-- Where the path is looked for: at the last `@` if there is a `:` before it. -/
def searchStart (sbuf : List UInt8) : Nat :=
  match rfind (byteOf '@') sbuf with
  | none => 0
  | some path_start =>
    match find (byteOf ':') 0 sbuf with
    | none => 0
    | some sep => if path_start < sep then 0 else path_start

/-- The first slash from there on, or else the first question mark of all. -/
def firstMark (sbuf : List UInt8) : Option Nat :=
  match find (byteOf '/') (searchStart sbuf) sbuf with
  | some path_start => some path_start
  | none => find (byteOf '?') 0 sbuf

/-- Where the path begins. If there is a `:` and a `@` behind the mark, the search begins again
behind both. -/
def pathStart (sbuf : List UInt8) : Option Nat :=
  match firstMark sbuf with
  | none => none
  | some path_start =>
    match find (byteOf ':') (path_start + 1) sbuf, find (byteOf '@') (path_start + 1) sbuf with
    | some char_pos, some char_pos2 =>
      let char_pos := if char_pos < char_pos2 then char_pos2 else char_pos
      match find (byteOf '/') (char_pos + 1) sbuf with
      | some path_start => some path_start
      | none => find (byteOf '?') (char_pos + 1) sbuf
    | _, _ => some path_start

/-- The path, and what stands before it. -/
def splitPath (sbuf : List UInt8) : Option (List UInt8) × List UInt8 :=
  match pathStart sbuf with
  | none => (none, sbuf)
  | some path_start => (some (sbuf.drop path_start), sbuf.take path_start)

/-- The user name and the password, and what follows. -/
def splitUser (sbuf : List UInt8) :
    Option (List UInt8) × Option (List UInt8) × List UInt8 :=
  match rfind (byteOf '@') sbuf with
  | none => (none, none, sbuf)
  | some username_end =>
    let rest := sbuf.drop (username_end + 1)
    match find (byteOf ':') 0 sbuf with
    | none => (some (sbuf.take username_end), none, rest)
    | some pw_start =>
      if pw_start < username_end then
        (some (sbuf.take pw_start),
          some ((sbuf.drop (pw_start + 1)).take (username_end - (pw_start + 1))), rest)
      else (some (sbuf.take username_end), none, rest)

/-- An IPv6 address in brackets, and what follows. -/
def splitBrackets (options : Options) (sbuf : List UInt8) : Option (List UInt8) × List UInt8 :=
  if sbuf.head? = some (byteOf '[') then
    match find (byteOf ']') 0 sbuf with
    | none => (none, sbuf)
    | some right_bracket =>
      (some (if options.keepBrackets then sbuf.take (right_bracket + 1)
        else (sbuf.drop 1).take (right_bracket - 1)), sbuf.drop (right_bracket + 1))
  else (none, sbuf)

/-- `INT_MAX`. -/
def intMax : Nat := 2 ^ 31 - 1

/-- `UINT16_MAX`. -/
def uint16Max : Nat := 2 ^ 16 - 1

/-- The port and what stands before it; for an invalid port, the number that was stored. -/
def splitPort (buf : List UInt8) (username_end : Option Nat) (sbuf : List UInt8) :
    Except (Nat × Error) (Option Nat × List UInt8) :=
  match rfind (byteOf ':') sbuf with
  | none => .ok (none, sbuf)
  | some port_start =>
    -- see if it's IPv6 localhost (::)
    if port_start ≠ 1 ∨ charAt sbuf 0 ≠ byteOf ':' then
      let port_str := sbuf.drop (port_start + 1)
      if port_str = [] then .error (0, .emptyPort buf)
      else
        match port_str.find? fun c => !isdigit c with
        | some c => .error (0, .nonNumericPort buf c username_end sbuf)
        | none =>
          let port := digitsNum 0 port_str
          -- `std::stoi` throws `std::out_of_range`
          if intMax < port then .error (0, .invalidPort buf)
          else if uint16Max < port then .error (port, .invalidPort buf)
          else .ok (some port, sbuf.take port_start)
    else .ok (none, sbuf)

/-- `QoreString::concatDecodeUrl(const char*)`. -/
def decodeChars : List UInt8 → List UInt8
  | [] => []
  | c :: h :: l :: url =>
    if c = byteOf '%' then
      match xdigit h, xdigit l with
      | some h, some l => UInt8.ofNat (16 * h + l) :: decodeChars url
      | _, _ => c :: decodeChars (h :: l :: url)
    else c :: decodeChars (h :: l :: url)
  | c :: url => c :: decodeChars url

/-- The host: without a port, a scheme and a user it is the beginning of the path. -/
def setHost (info : Info) (has_port : Bool) (sbuf : List UInt8) : Info :=
  if info.host = none ∧ sbuf ≠ [] then
    -- see if the hostname is a UNIX domain socket
    if tolwr (sbuf.take 7) = ascii "socket=" then
      { info with host := some (decodeChars (sbuf.drop 7)) }
    else
      match info.path with
      | some path =>
        if !has_port ∧ info.protocol = none ∧ info.username = none ∧ info.password = none then
          { info with path := some (sbuf ++ path) }
        else { info with host := some sbuf }
      | none => { info with host := some sbuf }
  else info

/-! ### Decoding -/

/-- `decodeString` for a string that is not empty. It gives nothing as soon as there is an
exception. -/
def decodeString (str : Option (List UInt8)) (e : Option Error) :
    Option (List UInt8) × Option Error :=
  match str with
  | none => (none, e)
  | some [] => (some [], e)
  | some (c :: cs) =>
    match concatDecodeUrl [] (c :: cs), e with
    | .ok decoded, none => (some decoded, none)
    | .error fault, none => (none, some (.decoding fault))
    | _, some e => (none, some e)

/-- `decodeStrings`. -/
def decodeStrings (options : Options) (info : Info) : Info × Option Error :=
  let (username, e) := decodeString info.username none
  let (password, e) := decodeString info.password e
  let (host, e) := decodeString info.host e
  let (path, e) := if options.decodePath then decodeString info.path e else (info.path, e)
  ({ info with username := username, password := password, host := host, path := path }, e)

/-- The end of `parse_intern`. -/
def finish (options : Options) (info : Info) : Info × Option Error :=
  if options.decode || options.decodePath then decodeStrings options info else (info, none)

/-! ### All of it -/

/-- `parse_intern` behind the scheme and the special cases. -/
def parseRest (options : Options) (buf : List UInt8) (protocol : Option (List UInt8))
    (sbuf : List UInt8) : Info × Option Error :=
  let (path, sbuf) := splitPath sbuf
  let username_end := rfind (byteOf '@') sbuf
  let (username, password, sbuf) := splitUser sbuf
  let (host, sbuf) := splitBrackets options sbuf
  match splitPort buf username_end sbuf with
  | .error (port, e) =>
    -- `invalidate`
    ({ protocol, username, password, port }, some e)
  | .ok (port, sbuf) =>
    finish options
      (setHost { protocol, path, username, password, host, port := port.getD 0 } port.isSome sbuf)

/-- `qore_url_private::parse_intern`. -/
def parseIntern (options : Options) (buf : List UInt8) : Info × Option Error :=
  if buf = [] then ({}, none)
  else
    let (protocol, sbuf) := splitScheme options buf
    let protocol_lwr := protocol.map tolwr
    if protocol_lwr = some (ascii "file") ∧ isFilePath sbuf then
      finish options { protocol, path := some (sbuf.drop 1) }
    else if (protocol_lwr = none ∨ protocol_lwr = some (ascii "file")) ∧ isUncPath sbuf then
      finish options { protocol, path := some sbuf }
    else parseRest options buf protocol sbuf

/-- `isValid`. -/
def Info.isValid (info : Info) : Bool := info.host.any (· ≠ []) || info.path.any (· ≠ [])

/-- `qore_url_private::parse`: the parts, and the exception. -/
def parse (options : Options) (url : List UInt8) : Info × Option Error :=
  let (info, e) := parseIntern options url
  match e with
  | some e => (info, some e)
  | none => if info.isValid then (info, none) else (info, some (.cannotParse url))

end Qore.Url
