import Mathlib.Data.Nat.Bitwise
import Qore.Serial.Stream

/-!
# `Qore.WebSocket.Frame`: writing and reading WebSocket frames

`ws_encode_message` and `ws_read_message`. Integers are read from the socket with the most
significant byte first, and `chr` gives one byte. The reader is a program over the bytes that are
still to come; a read of a byte that a payload does not have is `Stop.outside`.

* `readMessage_consumes`: up to 2 GiB the reader takes the bytes of a frame and no others, and
  decodes its payload.
* `readMessage_inside`: no read of the reader is outside.
* `frame_roundTrip_iff`: which frames are read back: those whose payload `recvBinary` can take at
  once, except a text frame without a payload.
* `frames_roundTrip`: such frames are read back from a stream of them.
-/

set_option autoImplicit false

namespace Qore.WebSocket

open Qore.Lib
open Qore.Serial (Bytes msb length_msb ofBytes_msb toSigned_msb)
open Qore.Stream (ofBytes toSigned)

/-! ### Messages -/

/-- `data`: a string with its bytes, or a binary. -/
inductive Data where
  | string (bytes : Bytes)
  | binary (bytes : Bytes)

def Data.bytes : Data → Bytes
  | .string bytes | .binary bytes => bytes

/-- A value in memory: `size()` is an `int`. -/
structure Message where
  data : Data
  small : data.bytes.length < 2 ^ 63

abbrev Message.bytes (msg : Message) : Bytes := msg.data.bytes

/-- The bit for the final fragment. -/
def WS_FIN : Nat := 1 <<< 7

def WSOP_Text : Nat := 0x1
def WSOP_Binary : Nat := 0x2
def WSOP_Close : Nat := 0x8
def WSCC_NoStatusRcvd : Nat := 1005

/-- `chr`. -/
def chr (n : Nat) : Bytes := [UInt8.ofNat n]

/-- A key as the loop over `rand` leaves it: four bytes, and not zero. -/
structure Key where
  bytes : Bytes
  length_eq : bytes.length = 4
  ne_zero : bytes ≠ [0, 0, 0, 0]

/-- The loop `udata += chr((data[i] ^ mask[i % 4]))`. An index that is not there gives no bits. -/
def maskLoop (mask : Bytes) : Nat → Bytes → Bytes
  | _, [] => []
  | i, b :: data => (b ^^^ mask.getD (i % 4) 0) :: maskLoop mask (i + 1) data

/-- The size of a message in one of three encodings; `bit` tells whether there is a mask. -/
def encodeSize (size bit : Nat) : Bytes :=
  if size < 126 then chr (size ||| bit)
  else if size < 65536 then chr (126 ||| bit) ++ msb 2 size
  else chr (127 ||| bit) ++ msb 8 size

/-- `ws_encode_message`, with the key that was drawn. -/
def encodeMessage (msg : Message) (op : Int) (mask : Option Key) (fin : Bool) : Bytes :=
  let op : Nat :=
    if op = -1 then
      match msg.data with
      | .string _ => WSOP_Text
      | .binary _ => WSOP_Binary
    else op.toNat
  let frame := if fin then chr (WS_FIN ||| op) else chr op
  let frame := frame ++ encodeSize msg.bytes.length (if mask.isSome then 0x80 else 0)
  match mask with
  | some key =>
    let udata := if msg.bytes ≠ [] then maskLoop key.bytes 0 msg.bytes else msg.bytes
    frame ++ key.bytes ++ if udata ≠ [] then udata else []
  | none => frame ++ if msg.bytes ≠ [] then msg.bytes else []

/-! ### The reader -/

/-- What ends a call: the exceptions, or a read outside the memory of a value. -/
inductive Stop where
  | socketClosed | runtimeOverloadError | runtimeTypeError | outside
  deriving DecidableEq

/-- The bytes that come before the other side closes the connection, and how many of them a call
without a size finds. -/
structure Socket where
  incoming : Bytes
  available : Nat

/-- `qore_socket_private::recvix`. -/
def recvix (len : Nat) : Program Socket Stop Nat := fun s =>
  if len ≤ s.incoming.length then
    (.ok (ofBytes (s.incoming.take len)), { s with incoming := s.incoming.drop len })
  else (.error .socketClosed, { s with incoming := [] })

def recvu1 : Program Socket Stop Nat := recvix 1

def recvu2 : Program Socket Stop Nat := recvix 2

def recvi8 : Program Socket Stop Int := do return toSigned 8 (← recvix 8)

/-- The first `n` bytes, or what there is. -/
def recvBytes (n : Nat) : Program Socket Stop Bytes := fun s =>
  (.ok (s.incoming.take n), { s with incoming := s.incoming.drop n })

/-- `qore_socket_private::recvBinary`. Without a positive size it reads until the end. -/
def recvBinarySized (bufsize : Int) : Program Socket Stop Bytes := fun s =>
  recvBytes (if bufsize > 0 then bufsize.toNat else s.incoming.length) s

/-- `qore_socket_private::recvBinaryAll`. -/
def recvBinaryAll : Program Socket Stop Bytes := fun s => recvBytes s.available s

/-- `Socket::recvBinary`. The size is passed on as an `int`. -/
def recvBinary (size : Int) : Program Socket Stop Bytes :=
  if size > 0 then recvBinarySized (truncInt size) else recvBinaryAll

/-- `get_word_16` on a binary. -/
def getWord16 (b : Bytes) (offset : Int) : Except Stop (Option Nat) :=
  let size := truncInt b.length
  if offset ≥ truncInt (size - 1) ∨ offset < 0 then .ok none
  else
    match b[offset.toNat]?, b[offset.toNat + 1]? with
    | some hi, some lo => .ok (some (hi.toNat * 256 + lo.toNat))
    | _, _ => .error .outside

/-- `WsMsgInfo`. -/
structure WsMsgInfo where
  op : Nat
  masked : Bool
  close : Option Nat
  fin : Bool
  msg : Option Data

/-- What `ws_read_message` has read before the payload. -/
structure Head where
  op : Nat
  fin : Bool
  masked : Bool
  data_len : Int
  mask : Option Bytes

/-- The second byte, without the bit for the mask, and the length behind it. -/
def readLength (b1 : Nat) : Program Socket Stop Int :=
  if b1 < 126 then return b1
  else if b1 = 126 then do return (← recvu2 : Nat)
  else recvi8

/-- A binary that is only read when its size is not 0. -/
def recvIf (size : Int) : Program Socket Stop (Option Bytes) :=
  if size ≠ 0 then do return some (← recvBinary size) else return none

/-- `ws_read_message` up to the mask. -/
def readHead : Program Socket Stop Head := do
  let b0 ← recvu1
  let b1 ← recvu1
  let data_len ← readLength (b1 &&& 0x7f)
  let masked : Bool := (b1 &&& 0x80) ≠ 0
  let mask ← recvIf (if masked then 4 else 0)
  return ⟨b0 &&& 0xf, (b0 &&& WS_FIN) ≠ 0, masked, data_len, mask⟩

/-- The payload without its mask. The variable has no value before the first byte is added. -/
def unmask (mask : Option Bytes) (data : Option Bytes) : Option Bytes :=
  match mask with
  | none | some [] => data
  | some mask =>
    match data with
    | none | some [] => none
    | some data => some (maskLoop mask 0 data)

/-- `ws_read_message` from the opcode on. Only a value has a `toString` with an encoding. -/
def decode (h : Head) (data : Option Bytes) : Except Stop WsMsgInfo :=
  if h.op = WSOP_Close then
    match data with
    | none | some [] =>
      .ok ⟨h.op, h.masked, some WSCC_NoStatusRcvd, h.fin, data.map .binary⟩
    | some data => do
      match ← getWord16 data 0 with
      | none => .error .runtimeTypeError
      | some close =>
        let data := data.drop 2
        return ⟨h.op, h.masked, some close, h.fin, if data ≠ [] then some (.string data) else none⟩
  else if h.op = WSOP_Text then
    match data with
    | none => .error .runtimeOverloadError
    | some data => .ok ⟨h.op, h.masked, none, h.fin, some (.string data)⟩
  else .ok ⟨h.op, h.masked, none, h.fin, data.map .binary⟩

/-- The last part reads nothing. -/
def finish (x : Except Stop WsMsgInfo) : Program Socket Stop WsMsgInfo := fun s => (x, s)

/-- `ws_read_message`. -/
def readMessage : Program Socket Stop WsMsgInfo := do
  let h ← readHead
  let data ← recvIf h.data_len
  finish (decode h (unmask h.mask data))

/-! ### What is read back -/

/-- An opcode other than close. -/
structure Opcode where
  code : Nat
  lt : code < 16
  ne_close : code ≠ WSOP_Close

/-- A payload has a value when it has a byte. -/
def valueOf (data : Bytes) : Option Bytes := if data = [] then none else some data

/-- The opcode, the flags, and the payload, or none if it is empty: a string for the opcode of a text,
else a binary. -/
def Returned (msg : Message) (op : Opcode) (mask : Option Key) (fin : Bool) (info : WsMsgInfo) : Prop :=
  info.op = op.code ∧ info.fin = fin ∧ info.masked = mask.isSome ∧
    info.msg = (valueOf msg.bytes).map (if op.code = WSOP_Text then .string else .binary)

/-- The reader takes the frame and returns what it says, and what follows is left. -/
def RoundTrips (msg : Message) (op : Opcode) (mask : Option Key) (fin : Bool) (s : Socket) : Prop :=
  ∃ info s', readMessage { s with incoming := encodeMessage msg op.code mask fin ++ s.incoming } =
      (.ok info, s') ∧ s'.incoming = s.incoming ∧ Returned msg op mask fin info

/-- The bytes are still to come. -/
def At (s : Socket) (bytes : Bytes) : Prop := s.incoming = bytes

section
variable {bytes : Bytes} {n : Nat}

theorem recvix_consumes (h : bytes.length = n) :
    Consumes At (recvix n) bytes (.ok (ofBytes bytes)) := by
  rintro s rest (hs : s.incoming = bytes ++ rest)
  have hle : n ≤ s.incoming.length := by
    rw [hs, List.length_append]
    omega
  unfold recvix
  rw [if_pos hle, hs, List.take_left' h, List.drop_left' h]
  exact ⟨rfl, fun _ _ => rfl⟩

theorem recvu1_consumes (b : UInt8) : Consumes At recvu1 [b] (.ok b.toNat) := by
  have h := recvix_consumes (show [b].length = 1 from rfl)
  have hvalue : ofBytes [b] = b.toNat := Nat.zero_add _
  rwa [hvalue] at h

theorem recvIf_pos {size : Int} (h : 0 < size) (s : Socket) :
    recvIf size s = ((recvBinarySized (truncInt size) s).1.map some,
      (recvBinarySized (truncInt size) s).2) := by
  unfold recvIf recvBinary
  rw [if_pos (by omega), if_pos h]
  rfl

/-- Some bytes of a size that an `int` holds. -/
theorem recvIf_consumes (h : bytes.length < 2 ^ 31) :
    Consumes At (recvIf bytes.length) bytes
      (.ok (if bytes = [] then none else some bytes)) := by
  cases bytes with
  | nil => exact Consumes.pure _
  | cons b bytes =>
    rintro s rest (hs : s.incoming = b :: bytes ++ rest)
    have hpos : (0 : Int) < ((b :: bytes).length : Nat) := by
      rw [List.length_cons]
      omega
    have hfits : truncInt ((b :: bytes).length : Nat) = (b :: bytes).length :=
      truncInt_of_fits (by unfold FitsInt; omega)
    rw [recvIf_pos hpos, hfits, recvBinarySized, if_pos hpos, recvBytes, Int.toNat_natCast, hs,
      List.take_left' rfl, List.drop_left' rfl]
    exact ⟨rfl, fun _ _ => rfl⟩

/-- The second byte gives the length bits and the bit for the mask. -/
theorem sizeByte (masked : Bool) : ∀ n < 128,
    (UInt8.ofNat (n ||| if masked then 0x80 else 0)).toNat &&& 0x7f = n ∧
      decide ((UInt8.ofNat (n ||| if masked then 0x80 else 0)).toNat &&& 0x80 ≠ 0) = masked := by
  cases masked <;> decide

/-- The first byte gives the opcode and the bit for the final fragment. -/
theorem opByte (fin : Bool) : ∀ op < 16,
    (UInt8.ofNat (if fin then WS_FIN ||| op else op)).toNat &&& 0xf = op ∧
      decide ((UInt8.ofNat (if fin then WS_FIN ||| op else op)).toNat &&& WS_FIN ≠ 0) = fin := by
  cases fin <;> decide

/-- The size is read back from any of its encodings. -/
theorem readLength_consumes {size : Nat} (hsize : size < 2 ^ 63) (bit : Nat) :
    ∃ b tail, b < 128 ∧ encodeSize size bit = UInt8.ofNat (b ||| bit) :: tail ∧
      Consumes At (readLength b) tail (.ok (size : Int)) := by
  unfold encodeSize
  split
  · refine ⟨size, [], by omega, rfl, ?_⟩
    rw [readLength, if_pos (by assumption)]
    exact Consumes.pure _
  split
  · refine ⟨126, msb 2 size, by decide, rfl, ?_⟩
    have hvalue : ofBytes (msb 2 size) = size := by
      have hmod := ofBytes_msb 2 size
      omega
    have hread := (recvix_consumes (length_msb 2 size)).map_ok fun n => (n : Int)
    rwa [hvalue] at hread
  · refine ⟨127, msb 8 size, by decide, rfl, ?_⟩
    have hread := (recvix_consumes (length_msb 8 size)).map_ok (toSigned 8)
    rwa [toSigned_msb (by decide) (by omega)] at hread

end

/-! ### Masks -/

section
variable (mask : Bytes)

theorem length_maskLoop (i : Nat) (data : Bytes) :
    (maskLoop mask i data).length = data.length := by
  induction data generalizing i with
  | nil => rfl
  | cons b data ih => rw [maskLoop, List.length_cons, ih, List.length_cons]

/-- Masking twice with one key gives the bytes back. -/
theorem maskLoop_maskLoop (i : Nat) (data : Bytes) :
    maskLoop mask i (maskLoop mask i data) = data := by
  induction data generalizing i with
  | nil => rfl
  | cons b data ih => rw [maskLoop, maskLoop, ih, UInt8.xor_assoc, UInt8.xor_self, UInt8.xor_zero]

theorem valueOf_of_pos {data : Bytes} (h : data ≠ []) : valueOf data = some data := if_neg h

theorem unmask_some {mask data : Bytes} (hmask : mask ≠ []) :
    unmask (some mask) (valueOf data) = valueOf (maskLoop mask 0 data) := by
  obtain ⟨k, mask, rfl⟩ := List.exists_cons_of_ne_nil hmask
  cases data <;> rfl

end

/-- The payload as it is sent. -/
def wire (mask : Option Key) (data : Bytes) : Bytes :=
  match mask with
  | some key => maskLoop key.bytes 0 data
  | none => data

/-- What comes before the payload. -/
def wireHead (size op : Nat) (mask : Option Key) (fin : Bool) : Bytes :=
  chr (if fin then WS_FIN ||| op else op) ++ (encodeSize size (if mask.isSome then 0x80 else 0) ++
    (mask.map Key.bytes).getD [])

theorem Key.bytes_ne_nil (key : Key) : key.bytes ≠ [] := by
  intro h
  have hlen := key.length_eq
  rw [h] at hlen
  cases hlen

theorem length_wire (mask : Option Key) (data : Bytes) : (wire mask data).length = data.length := by
  cases mask with
  | none => rfl
  | some key => exact length_maskLoop key.bytes 0 data

theorem unmask_wire (mask : Option Key) (data : Bytes) :
    unmask (mask.map Key.bytes) (valueOf (wire mask data)) = valueOf data := by
  cases mask with
  | none => rfl
  | some key =>
    show unmask (some key.bytes) (valueOf (maskLoop key.bytes 0 data)) = _
    rw [unmask_some key.bytes_ne_nil, maskLoop_maskLoop]

section
variable (msg : Message) (op : Opcode) (mask : Option Key) (fin : Bool)

/-- The tests for an empty message change nothing. -/
theorem encodeMessage_eq : encodeMessage msg op.code mask fin =
    wireHead msg.bytes.length op.code mask fin ++ wire mask msg.bytes := by
  have hop : (op.code : Int) ≠ -1 := by omega
  have hval : ∀ data : Bytes, (if data ≠ [] then data else []) = data := by
    intro data
    by_cases h : data = []
    · rw [h]
      rfl
    · exact if_pos h
  have hloop : ∀ key : Bytes, (if msg.bytes ≠ [] then maskLoop key 0 msg.bytes else msg.bytes) =
      maskLoop key 0 msg.bytes := by
    intro key
    by_cases h : msg.bytes = []
    · rw [h]
      rfl
    · exact if_pos h
  unfold encodeMessage wireHead wire
  rw [if_neg hop, Int.toNat_natCast]
  cases mask with
  | none =>
    dsimp only
    rw [hval]
    cases fin <;> simp
  | some key =>
    dsimp only
    rw [hval, hloop]
    cases fin <;> simp

/-- The head of a frame that the reader returns. -/
def headOf (size : Nat) : Head := ⟨op.code, fin, mask.isSome, size, mask.map Key.bytes⟩

theorem readHead_consumes {size : Nat} (hsize : size < 2 ^ 63) :
    Consumes At readHead (wireHead size op.code mask fin) (.ok (headOf op mask fin size)) := by
  obtain ⟨b, tail, hb, hbytes, hread⟩ :=
    readLength_consumes hsize (if mask.isSome then 0x80 else 0)
  obtain ⟨hlow, hbit⟩ := sizeByte mask.isSome b hb
  obtain ⟨hop, hfin⟩ := opByte fin op.code op.lt
  have hmask : Consumes At (recvIf (if mask.isSome then 4 else 0)) ((mask.map Key.bytes).getD [])
      (.ok (mask.map Key.bytes)) := by
    cases mask with
    | none => exact Consumes.pure none
    | some key =>
      have h := recvIf_consumes (show key.bytes.length < 2 ^ 31 by rw [key.length_eq]; decide)
      rw [key.length_eq, if_neg key.bytes_ne_nil] at h
      exact h
  unfold wireHead readHead
  rw [hbytes]
  refine (recvu1_consumes _).bind ?_
  rw [← List.singleton_append]
  refine (recvu1_consumes _).bind ?_
  dsimp only
  rw [hlow]
  refine hread.bind ?_
  rw [hbit]
  have hlast := hmask.map_ok fun m => (⟨op.code, fin, mask.isSome, size, m⟩ : Head)
  rw [hop, hfin]
  exact hlast

/-- The reader takes the bytes of a frame and decodes the payload. -/
theorem readMessage_consumes (hsize : msg.bytes.length < 2 ^ 31) :
    Consumes At readMessage (encodeMessage msg op.code mask fin)
      (decode (headOf op mask fin msg.bytes.length) (valueOf msg.bytes)) := by
  have hdata : Consumes At (recvIf msg.bytes.length) (wire mask msg.bytes)
      (.ok (valueOf (wire mask msg.bytes))) := by
    have h := recvIf_consumes (show (wire mask msg.bytes).length < 2 ^ 31 by rwa [length_wire])
    rwa [length_wire] at h
  rw [encodeMessage_eq]
  refine (readHead_consumes op mask fin msg.small).bind ?_
  rw [← List.append_nil (wire mask msg.bytes)]
  refine hdata.bind ?_
  rintro s rest (hs : s.incoming = rest)
  dsimp only [headOf]
  rw [unmask_wire]
  exact ⟨rfl, fun _ _ => hs⟩

/-- A payload is returned as it is, but a text frame needs one. -/
theorem decode_msg (size : Nat) (data : Option Bytes) :
    decode (headOf op mask fin size) data =
      if op.code = WSOP_Text then
        (data.elim (.error .runtimeOverloadError) fun data =>
          .ok ⟨op.code, mask.isSome, none, fin, some (.string data)⟩)
      else .ok ⟨op.code, mask.isSome, none, fin, data.map .binary⟩ := by
  unfold decode headOf
  rw [if_neg op.ne_close]
  cases data <;> rfl

theorem decode_of_text (htext : op.code = WSOP_Text → msg.bytes ≠ []) :
    ∃ info, decode (headOf op mask fin msg.bytes.length) (valueOf msg.bytes) = .ok info ∧
      Returned msg op mask fin info := by
  unfold Returned
  rw [decode_msg]
  by_cases hempty : msg.bytes = []
  · have hop : op.code ≠ WSOP_Text := fun h => htext h hempty
    rw [if_neg hop, hempty]
    exact ⟨_, rfl, rfl, rfl, rfl, rfl⟩
  · rw [valueOf_of_pos hempty]
    by_cases hop : op.code = WSOP_Text
    · rw [if_pos hop, if_pos hop]
      exact ⟨_, rfl, rfl, rfl, rfl, rfl⟩
    · rw [if_neg hop, if_neg hop]
      exact ⟨_, rfl, rfl, rfl, rfl, rfl⟩

theorem roundTrips_of_small (hsize : msg.bytes.length < 2 ^ 31)
    (htext : op.code = WSOP_Text → msg.bytes ≠ []) (s : Socket) :
    RoundTrips msg op mask fin s := by
  obtain ⟨hout, hleft⟩ := readMessage_consumes msg op mask fin hsize
    { s with incoming := encodeMessage msg op.code mask fin ++ s.incoming } s.incoming rfl
  obtain ⟨info, hinfo, hrest⟩ := decode_of_text msg op mask fin htext
  exact ⟨info, _, Prod.ext (hout.trans hinfo) rfl, hleft info hinfo, hrest⟩

/-- An empty text message is not read back: there is no value to make a string of. -/
theorem not_roundTrips_of_text (hop : op.code = WSOP_Text) (hempty : msg.bytes = []) (s : Socket) :
    ¬RoundTrips msg op mask fin s := by
  rintro ⟨info, s', hrun, -⟩
  have hsize : msg.bytes.length < 2 ^ 31 := by
    rw [hempty]
    decide
  obtain ⟨hout, -⟩ := readMessage_consumes msg op mask fin hsize
    { s with incoming := encodeMessage msg op.code mask fin ++ s.incoming } s.incoming rfl
  rw [hrun, decode_msg, if_pos hop, hempty] at hout
  cases hout

/-- From 2 GiB on, the size that `recvBinary` takes is smaller, or stands for all that comes. -/
theorem length_recvBinarySized {size : Nat} (hsize : 2 ^ 31 ≤ size) {s : Socket}
    (hs : s.incoming.length = size + 1) :
    ∃ data s', recvBinarySized (truncInt size) s = (.ok data, s') ∧ data.length ≠ size := by
  refine ⟨_, _, rfl, ?_⟩
  rw [List.length_take, hs]
  have htrunc : truncInt size < 2 ^ 31 := by
    unfold truncInt
    omega
  split <;> omega

theorem length_unmask {mask : Option Bytes} {data payload : Bytes}
    (h : unmask mask (some data) = some payload) : payload.length = data.length := by
  unfold unmask at h
  split at h
  · cases h
    rfl
  · cases h
    rfl
  · split at h
    · cases h
    · cases h
    · rename_i hdata
      cases hdata
      cases h
      exact length_maskLoop _ _ _

/-- One byte more after a frame of 2 GiB, and the payload has another length. -/
theorem not_roundTrips_of_large (hsize : 2 ^ 31 ≤ msg.bytes.length) {s : Socket}
    (hs : s.incoming.length = 1) : ¬RoundTrips msg op mask fin s := by
  rintro ⟨info, s', hrun, -, -, -, -, hmsg⟩
  -- the head is read as in every frame
  obtain ⟨hhead, hleft⟩ := readHead_consumes op mask fin msg.small
    { s with incoming := encodeMessage msg op.code mask fin ++ s.incoming }
    (wire mask msg.bytes ++ s.incoming) (by rw [encodeMessage_eq, List.append_assoc]; rfl)
  have hrest := hleft _ rfl
  obtain ⟨data, s₂, hdata, hne⟩ := length_recvBinarySized hsize
    (s := (readHead { s with incoming := encodeMessage msg op.code mask fin ++ s.incoming }).2)
    (by rw [hrest, List.length_append, length_wire, hs])
  have hread : recvIf msg.bytes.length
      (readHead { s with incoming := encodeMessage msg op.code mask fin ++ s.incoming }).2 =
      (.ok (some data), s₂) := by
    rw [recvIf_pos (by omega), hdata]
    rfl
  have hdecode := (Program.bind_of_ok (Prod.ext hhead rfl) fun h => (recvIf h.data_len).bind
    fun data => finish (decode h (unmask h.mask data))).trans (Program.bind_of_ok hread _)
  have hinfo := congrArg Prod.fst (hdecode.symm.trans hrun)
  -- no payload has the length of the message
  have key : ∀ d, unmask (mask.map Key.bytes) (some data) = some d → d ≠ msg.bytes := by
    intro d hd heq
    have hlen := length_unmask hd
    rw [heq] at hlen
    exact hne hlen.symm
  have hfull : msg.bytes ≠ [] := by
    intro hnil
    rw [hnil, List.length_nil] at hsize
    omega
  rw [valueOf_of_pos hfull] at hmsg
  replace hinfo : decode (headOf op mask fin msg.bytes.length)
    (unmask (mask.map Key.bytes) (some data)) = .ok info := hinfo
  rw [decode_msg] at hinfo
  by_cases hop : op.code = WSOP_Text
  · rw [if_pos hop] at hinfo hmsg
    cases hd : unmask (mask.map Key.bytes) (some data) with
    | none =>
      rw [hd] at hinfo
      cases hinfo
    | some d =>
      rw [hd] at hinfo
      cases hinfo
      exact key d hd (Data.string.inj (Option.some.inj hmsg))
  · rw [if_neg hop] at hinfo hmsg
    cases hd : unmask (mask.map Key.bytes) (some data) with
    | none =>
      rw [hd] at hinfo
      cases hinfo
      cases hmsg
    | some d =>
      rw [hd] at hinfo
      cases hinfo
      exact key d hd (Data.binary.inj (Option.some.inj hmsg))

end

/-! ### Several frames -/

/-- A frame that is read back. -/
structure Sent where
  msg : Message
  op : Opcode
  mask : Option Key
  fin : Bool
  text : op.code = WSOP_Text → msg.bytes ≠ []
  size : msg.bytes.length < 2 ^ 31

def Sent.encode (f : Sent) : Bytes := encodeMessage f.msg f.op.code f.mask f.fin

/-- A call of `ws_read_message` for each frame. -/
def readMessages : Nat → Program Socket Stop (List WsMsgInfo)
  | 0 => return []
  | n + 1 => do
    let info ← readMessage
    return info :: (← readMessages n)

theorem readMessages_consumes (fs : List Sent) : ∃ infos,
    Consumes At (readMessages fs.length) (fs.map Sent.encode).flatten (.ok infos) ∧
      List.Forall₂ (fun f info => Returned f.msg f.op f.mask f.fin info) fs infos := by
  induction fs with
  | nil => exact ⟨[], Consumes.pure [], .nil⟩
  | cons f fs ih =>
    obtain ⟨infos, hrest, hinfos⟩ := ih
    obtain ⟨info, hinfo, hreturned⟩ := decode_of_text f.msg f.op f.mask f.fin f.text
    have hfirst := readMessage_consumes f.msg f.op f.mask f.fin f.size
    rw [hinfo] at hfirst
    -- the first frame takes its own bytes only, so the others come next
    exact ⟨info :: infos, hfirst.bind (hrest.map_ok fun infos => info :: infos),
      .cons hreturned hinfos⟩

/-- Frames that are sent one after another are read back in their order, and nothing is lost
between them or behind them. -/
theorem frames_roundTrip (fs : List Sent) (s : Socket) : ∃ infos s',
    readMessages fs.length { s with incoming := (fs.map Sent.encode).flatten ++ s.incoming } =
        (.ok infos, s') ∧
      s'.incoming = s.incoming ∧
      List.Forall₂ (fun f info => Returned f.msg f.op f.mask f.fin info) fs infos := by
  obtain ⟨infos, hread, hinfos⟩ := readMessages_consumes fs
  obtain ⟨hout, hleft⟩ := hread
    { s with incoming := (fs.map Sent.encode).flatten ++ s.incoming } s.incoming rfl
  exact ⟨infos, _, Prod.ext hout rfl, hleft infos rfl, hinfos⟩

/-! ### Reads inside the payload -/

/-- The program does not read outside the memory of a value. -/
def Inside {α : Type} (m : Program Socket Stop α) : Prop := ∀ s, (m s).1 ≠ .error .outside

section
variable {α β : Type}

theorem Inside.bind {m : Program Socket Stop α} {f : α → Program Socket Stop β} (hm : Inside m)
    (hf : ∀ a, Inside (f a)) : Inside (m >>= f) := by
  intro s
  show (Program.bind m f s).1 ≠ _
  unfold Program.bind
  have h := hm s
  rcases hms : m s with ⟨e | a, s'⟩
  · rw [hms] at h
    intro heq
    cases heq
    exact h rfl
  · exact hf a s'

theorem recvix_inside (len : Nat) : Inside (recvix len) := by
  intro s
  unfold recvix
  split <;> rintro ⟨⟩

theorem recvIf_inside (size : Int) : Inside (recvIf size) := by
  intro s
  unfold recvIf
  split
  · show ((recvBinary size).bind _ s).1 ≠ _
    unfold recvBinary
    split <;> rintro ⟨⟩
  · rintro ⟨⟩

theorem readHead_inside : Inside readHead := by
  refine (recvix_inside 1).bind fun b0 => (recvix_inside 1).bind fun b1 => ?_
  refine Inside.bind ?_ fun data_len => (recvIf_inside _).bind fun mask s => by rintro ⟨⟩
  unfold readLength
  split
  · rintro s ⟨⟩
  split
  · exact (recvix_inside 2).bind fun _ s => by rintro ⟨⟩
  · exact (recvix_inside 8).bind fun _ s => by rintro ⟨⟩

/-- An offset that passes the test has two bytes behind it, though the size is cut to an `int`. -/
theorem getWord16_inside (b : Bytes) (offset : Int) : getWord16 b offset ≠ .error .outside := by
  unfold getWord16
  dsimp only
  split
  · rintro ⟨⟩
  · rename_i htest
    have hlen : offset.toNat + 1 < b.length := by
      unfold truncInt at htest
      omega
    rw [List.getElem?_eq_getElem (by omega), List.getElem?_eq_getElem hlen]
    rintro ⟨⟩

/-- Whatever comes, the reader returns or raises. -/
theorem readMessage_inside : Inside readMessage := by
  refine readHead_inside.bind fun h => (recvIf_inside _).bind fun data s => ?_
  show decode h (unmask h.mask data) ≠ _
  unfold decode
  split
  · split
    · rintro ⟨⟩
    · rintro ⟨⟩
    · rename_i data _ _
      have hword := getWord16_inside data 0
      cases hcode : getWord16 data 0 with
      | error e =>
        intro heq
        have he : e = .outside := Except.error.inj heq
        exact hword (by rw [hcode, he])
      | ok close => cases close <;> rintro ⟨⟩
  split
  · split <;> rintro ⟨⟩
  · rintro ⟨⟩

end

/-- A frame is read back whatever follows it exactly when it is no empty text message and its
payload is smaller than 2 GiB; and in no case a byte is read that a payload does not have. -/
theorem frame_roundTrip_iff (msg : Message) (op : Opcode) (mask : Option Key) (fin : Bool) :
    ((∀ s, RoundTrips msg op mask fin s) ↔
      ¬(op.code = WSOP_Text ∧ msg.bytes = []) ∧ msg.bytes.length < 2 ^ 31) ∧
    ∀ s, (readMessage s).1 ≠ .error .outside := by
  refine ⟨⟨fun h => ⟨?_, ?_⟩, ?_⟩, readMessage_inside⟩
  -- the variable of an empty text has no value, and no `toString`
  · rintro ⟨hop, hempty⟩
    exact not_roundTrips_of_text msg op mask fin hop hempty ⟨[], 0⟩ (h _)
  -- from 2 GiB on the size is another `int`, and what is read has another length
  · by_contra hsize
    exact not_roundTrips_of_large msg op mask fin (Nat.le_of_not_lt hsize)
      (s := ⟨[0], 0⟩) rfl (h _)
  · rintro ⟨htext, hsize⟩ s
    exact roundTrips_of_small msg op mask fin hsize (fun hop hempty => htext ⟨hop, hempty⟩) s

/-- An empty text message is sent, and the reader raises an exception. -/
theorem not_roundTrips_emptyText :
    ¬∀ s, RoundTrips ⟨.string [], by decide⟩ ⟨WSOP_Text, by decide, by decide⟩ none true s := by
  intro h
  exact not_roundTrips_of_text _ _ none true rfl rfl ⟨[], 0⟩ (h _)

end Qore.WebSocket
