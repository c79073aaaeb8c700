import Qore.Lib.Online
import Qore.Stream.Reader

/-!
# `Qore.Stream.RecvUntil`: receiving up to a delimiter

`SocketRecvUntilBytesPollState::continuePoll` reads byte by byte from the buffer of the socket and
counts how many bytes of the delimiter it has matched. It returns when it has to wait, and is called
again. After a wrong byte it begins again behind it, so that it misses a delimiter that begins
inside a failed attempt.

* `UntilBytes.receive_ends`: repeated calls come to an end, and how.
* `recv_until_bytes_iff`: they stop behind the first occurrence of the delimiter, or report that
  there is none, if and only if the first occurrence begins where an attempt begins.
-/

set_option autoImplicit false

namespace Qore.Stream

open Qore.Lib.Online

/-- `DEFAULT_SOCKET_BUFSIZE`. -/
@[irreducible] def defaultSocketBufsize : Nat := 64 * 1024

def maxNonblockOps : Nat := 10

def sockPollin : Int := 1

def sockPollout : Int := 2

/-! ## The socket -/

/-- Bytes that are received at once. -/
structure Chunk where
  bytes : List UInt8
  nonempty : bytes ≠ []
  length_le : bytes.length ≤ defaultSocketBufsize

/-- What a call of `::recv` gives. `failed` is also for a socket that cannot be made
non-blocking. -/
inductive RecvReply
  | data (chunk : Chunk)
  | again
  | interrupted
  | failed (e : Exception)

/-- What a call of `SSLSocketHelper::doNonBlockingIo` gives. -/
inductive SslReply
  | data (chunk : Chunk)
  | wantRead
  | wantWrite
  | failed (e : Exception)

/-- What comes from the other side. Behind the last reply the connection is closed. -/
inductive Incoming
  | recv (replies : List RecvReply)
  | ssl (replies : List SslReply)

/-- The buffer of the socket has the `buflen` bytes from `bufoffset` on. -/
structure RecvSocket where
  incoming : Incoming
  rbuf : List UInt8
  buflen : Nat
  bufoffset : Nat
  le : bufoffset + buflen ≤ rbuf.length
  empty : buflen = 0 → bufoffset = 0

/-- `qore_socket_private::readByteFromBuffer`. -/
def RecvSocket.readByteFromBuffer (s : RecvSocket) : Option (UInt8 × RecvSocket) :=
  if hzero : s.buflen = 0 then none
  else
    have hle := s.le
    let output := s.rbuf[s.bufoffset]
    if hone : s.buflen = 1 then
      some (output, { s with
        buflen := 0
        bufoffset := 0
        le := Nat.zero_le _
        empty := fun _ => rfl })
    else
      some (output, { s with
        buflen := s.buflen - 1
        bufoffset := s.bufoffset + 1
        le := by omega
        empty := by omega })

/-- The bytes are received at the beginning of the buffer. -/
def RecvSocket.received (s : RecvSocket) (chunk : Chunk) (incoming : Incoming) :
    Except Fault Int × RecvSocket :=
  if h : s.bufoffset ≠ 0 then (.error .assertion, { s with incoming := incoming })
  else
    (.ok 0, {
      incoming := incoming
      rbuf := chunk.bytes ++ s.rbuf.drop chunk.bytes.length
      buflen := chunk.bytes.length
      bufoffset := s.bufoffset
      le := by
        rw [List.length_append]
        omega
      empty := fun _ => not_not.mp h })

/-- The loop of `doRecv` without SSL. -/
def RecvSocket.recvLoop (s : RecvSocket) :
    (loop : Nat) → List RecvReply → Except Fault Int × RecvSocket
  | _, [] => (.ok 0, { s with incoming := .recv [] })
  | _, .data chunk :: rs => s.received chunk (.recv rs)
  | loop, .interrupted :: rs =>
    -- do not allow more than `max_nonblock_ops` loops at a time
    if maxNonblockOps ≤ loop + 1 then (.ok sockPollin, { s with incoming := .recv rs })
    else s.recvLoop (loop + 1) rs
  | _, .again :: rs => (.ok sockPollin, { s with incoming := .recv rs })
  | _, .failed e :: rs => (.error (.exception e), { s with incoming := .recv rs })

/-- `SocketRecvUntilBytesPollState::doRecv`. -/
def RecvSocket.doRecv (s : RecvSocket) : Except Fault Int × RecvSocket :=
  match s.incoming with
  | .recv rs => s.recvLoop 0 rs
  | .ssl [] =>
    if h : s.bufoffset ≠ 0 then (.error .assertion, s)
    else
      (.ok 0, { s with
        buflen := 0
        le := Nat.le_trans (Nat.le_add_right ..) s.le
        empty := fun _ => not_not.mp h })
  | .ssl (.data chunk :: rs) => s.received chunk (.ssl rs)
  | .ssl (.wantRead :: rs) => (.ok sockPollin, { s with incoming := .ssl rs })
  | .ssl (.wantWrite :: rs) => (.ok sockPollout, { s with incoming := .ssl rs })
  | .ssl (.failed e :: rs) => (.error (.exception e), { s with incoming := .ssl rs })

/-! ## The poll state -/

/-- `SocketRecvUntilBytesPollState`. -/
structure UntilBytes where
  sock : RecvSocket
  bin : List UInt8
  matched : Nat

/-- The exception of `continuePoll` at the end of the stream. -/
def remoteClosed : Exception where
  err := "SOCKET-HTTP-ERROR"
  desc := "remote end closed connection while reading chunk"

namespace UntilBytes

variable (bytes : List UInt8)

/-- A pass of the loop of `continuePoll`: what it returns, or the state for the next pass. -/
def pass (s : UntilBytes) : (Except Fault Int × UntilBytes) ⊕ UntilBytes :=
  match s.sock.readByteFromBuffer with
  | none =>
    match s.sock.doRecv with
    | (.error e, sock) => .inl (.error e, { s with sock := sock })
    | (.ok rc, sock) =>
      if rc = 0 then
        if sock.buflen = 0 then .inl (.error (.exception remoteClosed), { s with sock := sock })
        else .inr { s with sock := sock }
      else .inl (.ok rc, { s with sock := sock })
  | some (c, sock) =>
    let bin := s.bin ++ [c]
    if bytes[s.matched]? = some c then
      let s' : UntilBytes := ⟨sock, bin, s.matched + 1⟩
      if s'.matched = bytes.length then .inl (.ok 0, s') else .inr s'
    -- the byte is not compared with the first one of the delimiter
    else .inr ⟨sock, bin, 0⟩

end UntilBytes

/-! ## What is left to receive -/

/-- A reply: bytes, a wait or a failure. -/
inductive Arrival
  | data (chunk : Chunk)
  | wait
  | failed (e : Exception)

def RecvReply.arrival : RecvReply → Arrival
  | .data chunk => .data chunk
  | .again => .wait
  | .interrupted => .wait
  | .failed e => .failed e

def SslReply.arrival : SslReply → Arrival
  | .data chunk => .data chunk
  | .wantRead => .wait
  | .wantWrite => .wait
  | .failed e => .failed e

def Incoming.arrivals : Incoming → List Arrival
  | .recv rs => rs.map RecvReply.arrival
  | .ssl rs => rs.map SslReply.arrival

/-- The bytes up to the end of the stream or a failure. -/
def streamOf : List Arrival → List UInt8
  | [] => []
  | .data chunk :: as => chunk.bytes ++ streamOf as
  | .wait :: as => streamOf as
  | .failed _ :: _ => []

/-- The exception at the end. -/
def endOf : List Arrival → Exception
  | [] => remoteClosed
  | .data _ :: as => endOf as
  | .wait :: as => endOf as
  | .failed e :: _ => e

/-- The number of replies and of their bytes. -/
def repliesSize : List Arrival → Nat
  | [] => 0
  | .data chunk :: as => chunk.bytes.length + 1 + repliesSize as
  | .wait :: as => 1 + repliesSize as
  | .failed _ :: as => 1 + repliesSize as

namespace RecvSocket

variable {s s' : RecvSocket} {as : List Arrival}

/-- The bytes in the buffer. -/
def pending (s : RecvSocket) : List UInt8 := (s.rbuf.drop s.bufoffset).take s.buflen

/-- The bytes that are still to be read. -/
def rest (s : RecvSocket) : List UInt8 := s.pending ++ streamOf s.incoming.arrivals

def size (s : RecvSocket) : Nat := s.buflen + repliesSize s.incoming.arrivals

theorem pending_nil (h : s.buflen = 0) : s.pending = [] := by
  unfold pending
  rw [h, List.take_zero]

/-- A byte is taken from the buffer. -/
theorem readByteFromBuffer_spec {c : UInt8} (h : s.readByteFromBuffer = some (c, s')) :
    s.pending = c :: s'.pending ∧ s'.incoming = s.incoming ∧ s'.buflen < s.buflen := by
  unfold readByteFromBuffer at h
  by_cases hzero : s.buflen = 0
  · rw [dif_pos hzero] at h
    cases h
  rw [dif_neg hzero] at h
  have hle := s.le
  have hlt : s.bufoffset < s.rbuf.length := by omega
  have hpending : s.pending =
      s.rbuf[s.bufoffset] :: (s.rbuf.drop (s.bufoffset + 1)).take (s.buflen - 1) := by
    unfold pending
    obtain ⟨n, hn⟩ := Nat.exists_eq_succ_of_ne_zero hzero
    rw [List.drop_eq_getElem_cons hlt, hn, Nat.succ_eq_add_one, List.take_succ_cons,
      Nat.add_sub_cancel]
  by_cases hone : s.buflen = 1
  · rw [dif_pos hone] at h
    cases h
    refine ⟨?_, rfl, Nat.pos_of_ne_zero hzero⟩
    rw [hpending, hone]
    rfl
  · rw [dif_neg hone] at h
    cases h
    exact ⟨hpending, rfl, Nat.pred_lt hzero⟩

theorem size_readByteFromBuffer {c : UInt8} (h : s.readByteFromBuffer = some (c, s')) :
    s'.size < s.size := by
  obtain ⟨-, hincoming, hlt⟩ := readByteFromBuffer_spec h
  unfold size
  rw [hincoming]
  omega

theorem buflen_of_readByteFromBuffer (h : s.readByteFromBuffer = none) : s.buflen = 0 := by
  unfold readByteFromBuffer at h
  by_contra hzero
  rw [dif_neg hzero] at h
  split at h <;> cases h

/-- What `doRecv` does when the buffer is empty. -/
inductive Receives (s : RecvSocket) : Except Fault Int × RecvSocket → Prop
  | closed {s' : RecvSocket} : s'.buflen = 0 → s.rest = [] →
      endOf s.incoming.arrivals = remoteClosed → Receives s (.ok 0, s')
  | data {s' : RecvSocket} : s'.buflen ≠ 0 → s'.rest = s.rest →
      endOf s'.incoming.arrivals = endOf s.incoming.arrivals → s'.size < s.size →
      Receives s (.ok 0, s')
  | wait {rc : Int} {s' : RecvSocket} : rc ≠ 0 → s'.rest = s.rest →
      endOf s'.incoming.arrivals = endOf s.incoming.arrivals → s'.size < s.size →
      Receives s (.ok rc, s')
  | failed {e : Exception} {s' : RecvSocket} : s.rest = [] → endOf s.incoming.arrivals = e →
      Receives s (.error (.exception e), s')

/-- The same for the replies that are left, in a socket with an empty buffer. -/
theorem received_receives {chunk : Chunk} {incoming : Incoming} (hzero : s.buflen = 0)
    (has : s.incoming.arrivals = .data chunk :: as) (hincoming : incoming.arrivals = as) :
    Receives s (s.received chunk incoming) := by
  have hoffset := s.empty hzero
  have hpos := List.length_pos_iff.mpr chunk.nonempty
  have hrest : s.rest = chunk.bytes ++ streamOf as := by
    unfold rest
    rw [pending_nil hzero, has]
    rfl
  unfold received
  rw [dif_neg (not_not.mpr hoffset)]
  refine .data (Nat.ne_of_gt hpos) ?_ ?_ ?_
  · rw [hrest]
    unfold rest pending
    dsimp only
    rw [hoffset, List.drop_zero, List.take_left, hincoming]
  · dsimp only
    rw [has, hincoming]
    rfl
  · unfold size
    rw [has, hincoming, hzero]
    show chunk.bytes.length + repliesSize as < 0 + (chunk.bytes.length + 1 + repliesSize as)
    omega

theorem wait_receives {incoming : Incoming} {rc : Int} (hrc : rc ≠ 0) (hzero : s.buflen = 0)
    (has : s.incoming.arrivals = .wait :: as) (hincoming : incoming.arrivals = as) :
    Receives s (.ok rc, { s with incoming := incoming }) := by
  refine .wait hrc ?_ ?_ ?_
  · unfold rest
    rw [pending_nil hzero, pending_nil (s := { s with incoming := incoming }) hzero, has, hincoming]
    rfl
  · dsimp only
    rw [has, hincoming]
    rfl
  · unfold size
    rw [has, hincoming]
    show s.buflen + repliesSize as < s.buflen + (1 + repliesSize as)
    omega

theorem failed_receives {e : Exception} (hzero : s.buflen = 0)
    (has : s.incoming.arrivals = .failed e :: as) : Receives s (.error (.exception e), s') := by
  refine .failed ?_ ?_
  · unfold rest
    rw [pending_nil hzero, has]
    rfl
  · rw [has]
    rfl

theorem closed_receives (hzero : s.buflen = 0) (has : s.incoming.arrivals = [])
    (hzero' : s'.buflen = 0) : Receives s (.ok 0, s') := by
  refine .closed hzero' ?_ ?_
  · unfold rest
    rw [pending_nil hzero, has]
    rfl
  · rw [has]
    rfl

/-- An interrupted call is made again. -/
theorem Receives.interrupted {rs : List RecvReply} {r : Except Fault Int × RecvSocket}
    (h : Receives { s with incoming := .recv rs } r) :
    Receives { s with incoming := .recv (.interrupted :: rs) } r := by
  have hrest : rest { s with incoming := .recv (.interrupted :: rs) } =
      rest { s with incoming := .recv rs } := rfl
  have hend : endOf (Incoming.recv (.interrupted :: rs)).arrivals =
      endOf (Incoming.recv rs).arrivals := rfl
  have hsize : size { s with incoming := .recv rs } <
      size { s with incoming := .recv (.interrupted :: rs) } := by
    show s.buflen + _ < s.buflen + (1 + repliesSize (Incoming.recv rs).arrivals)
    dsimp only
    omega
  cases h with
  | closed hzero' hnil hclosed => exact .closed hzero' (hrest.trans hnil) (hend.trans hclosed)
  | data hne hsame hsame' hlt =>
    exact .data hne (hsame.trans hrest.symm) (hsame'.trans hend.symm) (hlt.trans hsize)
  | wait hrc hsame hsame' hlt =>
    exact .wait hrc (hsame.trans hrest.symm) (hsame'.trans hend.symm) (hlt.trans hsize)
  | failed hnil he => exact .failed (hrest.trans hnil) (hend.trans he)

theorem recvLoop_receives (hzero : s.buflen = 0) (rs : List RecvReply) (loop : Nat) :
    Receives { s with incoming := .recv rs } (s.recvLoop loop rs) := by
  induction rs generalizing loop with
  | nil => exact closed_receives hzero rfl hzero
  | cons r rs ih =>
    cases r with
    | data chunk => exact received_receives hzero rfl rfl
    | again => exact wait_receives (by decide) hzero rfl rfl
    | failed e => exact failed_receives hzero rfl
    | interrupted =>
      unfold recvLoop
      split
      · exact wait_receives (by decide) hzero rfl rfl
      · exact (ih (loop + 1)).interrupted

theorem doRecv_receives (hzero : s.buflen = 0) : Receives s s.doRecv := by
  have hoffset := s.empty hzero
  obtain ⟨incoming, rbuf, buflen, bufoffset, hle, hempty⟩ := s
  rcases incoming with rs | rs
  · exact recvLoop_receives hzero rs 0
  · rcases rs with _ | ⟨r, rs⟩
    · unfold doRecv
      rw [dif_neg (not_not.mpr hoffset)]
      exact closed_receives hzero rfl rfl
    · cases r with
      | data chunk => exact received_receives hzero rfl rfl
      | wantRead => exact wait_receives (by decide) hzero rfl rfl
      | wantWrite => exact wait_receives (by decide) hzero rfl rfl
      | failed e => exact failed_receives hzero rfl

end RecvSocket

/-! ## What repeated calls do -/

namespace UntilBytes

variable {bytes : List UInt8} {s s' : UntilBytes}

/-- What a pass does: a byte is read, or the socket receives something. -/
inductive Passes (bytes : List UInt8) (s : UntilBytes) :
    (Except Fault Int × UntilBytes) ⊕ UntilBytes → Prop
  | found {c : UInt8} {sock : RecvSocket} : s.sock.rest = c :: sock.rest →
      bytes[s.matched]? = some c → s.matched + 1 = bytes.length →
      Passes bytes s (.inl (.ok 0, ⟨sock, s.bin ++ [c], s.matched + 1⟩))
  | next {c : UInt8} {sock : RecvSocket} : s.sock.rest = c :: sock.rest →
      endOf sock.incoming.arrivals = endOf s.sock.incoming.arrivals → sock.size < s.sock.size →
      bytes[s.matched]? = some c → s.matched + 1 ≠ bytes.length →
      Passes bytes s (.inr ⟨sock, s.bin ++ [c], s.matched + 1⟩)
  | miss {c : UInt8} {sock : RecvSocket} : s.sock.rest = c :: sock.rest →
      endOf sock.incoming.arrivals = endOf s.sock.incoming.arrivals → sock.size < s.sock.size →
      bytes[s.matched]? ≠ some c → Passes bytes s (.inr ⟨sock, s.bin ++ [c], 0⟩)
  | received {sock : RecvSocket} : sock.rest = s.sock.rest →
      endOf sock.incoming.arrivals = endOf s.sock.incoming.arrivals → sock.size < s.sock.size →
      Passes bytes s (.inr { s with sock := sock })
  | wait {rc : Int} {sock : RecvSocket} : rc ≠ 0 → sock.rest = s.sock.rest →
      endOf sock.incoming.arrivals = endOf s.sock.incoming.arrivals → sock.size < s.sock.size →
      Passes bytes s (.inl (.ok rc, { s with sock := sock }))
  | failed {sock : RecvSocket} : s.sock.rest = [] →
      Passes bytes s
        (.inl (.error (.exception (endOf s.sock.incoming.arrivals)), { s with sock := sock }))

theorem pass_passes (s : UntilBytes) : Passes bytes s (s.pass bytes) := by
  unfold pass
  rcases hread : s.sock.readByteFromBuffer with _ | ⟨c, sock⟩
  · have hreceives := RecvSocket.doRecv_receives (RecvSocket.buflen_of_readByteFromBuffer hread)
    generalize s.sock.doRecv = r at hreceives
    cases hreceives with
    | closed hzero hrest hend =>
      dsimp only
      rw [if_pos rfl, if_pos hzero, ← hend]
      exact .failed hrest
    | data hne hrest hend hlt =>
      dsimp only
      rw [if_pos rfl, if_neg hne]
      exact .received hrest hend hlt
    | wait hrc hrest hend hlt =>
      dsimp only
      rw [if_neg hrc]
      exact .wait hrc hrest hend hlt
    | failed hrest hend =>
      rw [← hend]
      exact .failed hrest
  · obtain ⟨hpending, hincoming, -⟩ := RecvSocket.readByteFromBuffer_spec hread
    have hlt := RecvSocket.size_readByteFromBuffer hread
    have hrest : s.sock.rest = c :: sock.rest := by
      unfold RecvSocket.rest
      rw [hpending, hincoming]
      rfl
    have hend : endOf sock.incoming.arrivals = endOf s.sock.incoming.arrivals := by rw [hincoming]
    dsimp only
    by_cases hc : bytes[s.matched]? = some c
    · rw [if_pos hc]
      by_cases hm : s.matched + 1 = bytes.length
      · rw [if_pos hm]
        exact .found hrest hc hm
      · rw [if_neg hm]
        exact .next hrest hend hlt hc hm
    · rw [if_neg hc]
      exact .miss hrest hend hlt hc

theorem size_pass_lt (h : s.pass bytes = .inr s') : s'.sock.size < s.sock.size := by
  have hpasses : Passes bytes s (s.pass bytes) := pass_passes s
  rw [h] at hpasses
  cases hpasses with
  | next _ _ hlt => exact hlt
  | miss _ _ hlt => exact hlt
  | received _ _ hlt => exact hlt

end UntilBytes

/-- The loop of `continuePoll`. -/
def UntilBytes.pollLoop (bytes : List UInt8) (s : UntilBytes) : Except Fault Int × UntilBytes :=
  match h : s.pass bytes with
  | .inl r => r
  | .inr s' => pollLoop bytes s'
termination_by s.sock.size
decreasing_by exact size_pass_lt h

/-- `SocketRecvUntilBytesPollState::continuePoll`. -/
def UntilBytes.continuePoll (bytes : List UInt8) (s : UntilBytes) :
    Except Fault Int × UntilBytes :=
  if s.matched = bytes.length then (.ok 0, s) else s.pollLoop bytes

theorem UntilBytes.size_pollLoop_lt {bytes : List UInt8} {s s' : UntilBytes} {rc : Int}
    (hrc : rc ≠ 0) (h : s.pollLoop bytes = (.ok rc, s')) : s'.sock.size < s.sock.size := by
  fun_induction pollLoop bytes s with
  | case1 s r hpass =>
    have hpasses : Passes bytes s (s.pass bytes) := pass_passes s
    rw [hpass, h] at hpasses
    cases hpasses with
    | found => exact absurd rfl hrc
    | wait _ _ _ hlt => exact hlt
  | case2 s s₁ hpass ih => exact (ih h).trans (size_pass_lt hpass)

/-- A call that has to wait has received something. -/
theorem UntilBytes.size_continuePoll_lt {bytes : List UInt8} {s s' : UntilBytes} {rc : Int}
    (hrc : rc ≠ 0) (h : s.continuePoll bytes = (.ok rc, s')) : s'.sock.size < s.sock.size := by
  unfold continuePoll at h
  split at h
  · cases h
    exact absurd rfl hrc
  · exact size_pollLoop_lt hrc h

/-- Calls of `continuePoll` until it returns 0 or raises an exception. -/
def UntilBytes.receive (bytes : List UInt8) (s : UntilBytes) : Except Fault Unit × UntilBytes :=
  match h : s.continuePoll bytes with
  | (.error fault, s') => (.error fault, s')
  | (.ok rc, s') => if hrc : rc = 0 then (.ok (), s') else receive bytes s'
termination_by s.sock.size
decreasing_by exact size_continuePoll_lt hrc h

/-- `SocketRecvUntilBytesPollState::SocketRecvUntilBytesPollState`. -/
def UntilBytes.new (sock : RecvSocket) : UntilBytes := ⟨sock, [], 0⟩

namespace UntilBytes

variable {bytes : List UInt8} {s s' : UntilBytes}

/-- The state in the middle of the stream, with what is read in the end, and why reading ends. -/
structure Reading (bytes stream : List UInt8) (e : Exception) (s : UntilBytes) : Prop where
  attempt : Attempt bytes s.bin s.matched
  stream_eq : s.bin ++ s.sock.rest = stream
  end_eq : endOf s.sock.incoming.arrivals = e

/-- How receiving ends: an attempt matches the whole delimiter, or the stream is read. -/
inductive Ends (bytes stream : List UInt8) (e : Exception) :
    Except Fault Unit × UntilBytes → Prop
  | found {read : List UInt8} {c : UInt8} {m : Nat} {s : UntilBytes} : Attempt bytes read m →
      bytes[m]? = some c → m + 1 = bytes.length → s.bin = read ++ [c] →
      s.bin ++ s.sock.rest = stream → Ends bytes stream e (.ok (), s)
  | ended {s : UntilBytes} : Attempt bytes s.bin s.matched → s.bin = stream →
      Ends bytes stream e (.error (.exception e), s)

/-- What `continuePoll` does: receiving ends, or it has to wait. -/
inductive Polls (bytes stream : List UInt8) (e : Exception) (s : UntilBytes) :
    Except Fault Int × UntilBytes → Prop
  | done {s' : UntilBytes} : Ends bytes stream e (.ok (), s') → Polls bytes stream e s (.ok 0, s')
  | failed {fault : Fault} {s' : UntilBytes} : Ends bytes stream e (.error fault, s') →
      Polls bytes stream e s (.error fault, s')
  | wait {rc : Int} {s' : UntilBytes} : rc ≠ 0 → Reading bytes stream e s' →
      s'.sock.size < s.sock.size → Polls bytes stream e s (.ok rc, s')

variable {stream : List UInt8} {e : Exception}

theorem pollLoop_polls (h : Reading bytes stream e s) :
    Polls bytes stream e s (s.pollLoop bytes) := by
  fun_induction pollLoop bytes s with
  | case1 s r hpass =>
    have hpasses : Passes bytes s (s.pass bytes) := pass_passes s
    rw [hpass] at hpasses
    cases hpasses with
    | @found c sock hrest hc hm =>
      refine .done (.found h.attempt hc hm rfl ?_)
      rw [← h.stream_eq, hrest]
      exact List.append_assoc s.bin [c] sock.rest
    | wait hrc hrest hend hlt =>
      exact .wait hrc ⟨h.attempt, by rw [← h.stream_eq, ← hrest], hend.trans h.end_eq⟩ hlt
    | failed hrest =>
      rw [h.end_eq]
      refine .failed (.ended h.attempt ?_)
      rw [← h.stream_eq, hrest, List.append_nil]
  | case2 s s' hpass ih =>
    have hpasses : Passes bytes s (s.pass bytes) := pass_passes s
    have hlt := size_pass_lt hpass
    rw [hpass] at hpasses
    have hnext : Reading bytes stream e s' := by
      cases hpasses with
      | @next c sock hrest hend _ hc hm =>
        have hlt' := h.attempt.lt
        refine ⟨h.attempt.next hc (by omega), ?_, hend.trans h.end_eq⟩
        rw [← h.stream_eq, hrest]
        exact List.append_assoc s.bin [c] sock.rest
      | @miss c sock hrest hend _ hc =>
        refine ⟨h.attempt.miss hc, ?_, hend.trans h.end_eq⟩
        rw [← h.stream_eq, hrest]
        exact List.append_assoc s.bin [c] sock.rest
      | received hrest hend =>
        exact ⟨h.attempt, by rw [← h.stream_eq, ← hrest], hend.trans h.end_eq⟩
    have hpolls := ih hnext
    generalize s'.pollLoop bytes = r at hpolls
    cases hpolls with
    | done hends => exact .done hends
    | failed hends => exact .failed hends
    | wait hrc hreading hlt' => exact .wait hrc hreading (hlt'.trans hlt)

theorem continuePoll_polls (h : Reading bytes stream e s) :
    Polls bytes stream e s (s.continuePoll bytes) := by
  unfold continuePoll
  rw [if_neg (Nat.ne_of_lt h.attempt.lt)]
  exact pollLoop_polls h

/-- Repeated calls come to an end. -/
theorem receive_ends (h : Reading bytes stream e s) : Ends bytes stream e (s.receive bytes) := by
  fun_induction receive bytes s with
  | case1 s fault s' hpoll =>
    have hpolls := continuePoll_polls h
    rw [hpoll] at hpolls
    cases hpolls with
    | failed hends => exact hends
  | case2 s s' hpoll =>
    have hpolls := continuePoll_polls h
    rw [hpoll] at hpolls
    cases hpolls with
    | done hends => exact hends
    | wait hrc => exact absurd rfl hrc
  | case3 s rc s' hpoll hrc ih =>
    have hpolls := continuePoll_polls h
    rw [hpoll] at hpolls
    cases hpolls with
    | done => exact absurd rfl hrc
    | wait _ hreading => exact ih hreading

/-- Receiving stops where it should: behind the first occurrence of the delimiter, of which no byte
more is read, or at the end of a stream without one. -/
def StopsRight (bytes stream : List UInt8) (e : Exception)
    (r : Except Fault Unit × UntilBytes) : Prop :=
  (bytes <:+: stream → r.1 = .ok () ∧ bytes <:+ r.2.bin ∧ OnlyAtEnd bytes r.2.bin ∧
    r.2.bin ++ r.2.sock.rest = stream) ∧
  (¬bytes <:+: stream → r.1 = .error (.exception e))

theorem Ends.stopsRight_iff {r : Except Fault Unit × UntilBytes} (h : Ends bytes stream e r) :
    StopsRight bytes stream e r ↔ FirstAtRestart bytes stream := by
  cases h with
  | @found read c m s hattempt hc hm hbin hstream =>
    have hsuffix : bytes <:+ s.bin :=
      hbin ▸ (suffix_snoc_iff hm c).mpr ⟨hattempt.suffix, hc⟩
    have hoccurs : bytes <:+: stream :=
      hsuffix.isInfix.trans (hstream ▸ (List.prefix_append _ _).isInfix)
    have hiff := hattempt.found_iff hc hm s.sock.rest
    rw [← hbin, hstream] at hiff
    rw [← hiff]
    constructor
    · exact fun hright => (hright.1 hoccurs).2.2.1
    · exact fun honly => ⟨fun _ => ⟨rfl, hsuffix, honly, hstream⟩, fun hno => absurd hoccurs hno⟩
  | @ended s hattempt hbin =>
    have hiff := hattempt.end_iff
    rw [hbin] at hiff
    rw [← hiff]
    constructor
    · intro hright hoccurs
      exact nomatch (hright.1 hoccurs).1
    · exact fun hno => ⟨fun hoccurs => absurd hoccurs hno, fun _ => rfl⟩

end UntilBytes

/-! ## The result -/

/-- Receiving stops right if and only if the first occurrence of the delimiter in the stream begins
where an attempt begins, however the stream is split. -/
theorem recv_until_bytes_iff (bytes : List UInt8) (hbytes : bytes ≠ []) (sock : RecvSocket) :
    UntilBytes.StopsRight bytes sock.rest (endOf sock.incoming.arrivals)
        ((UntilBytes.new sock).receive bytes) ↔
      FirstAtRestart bytes sock.rest := by
  have hreading : UntilBytes.Reading bytes sock.rest (endOf sock.incoming.arrivals)
      (UntilBytes.new sock) := ⟨.nil hbytes, rfl, rfl⟩
  exact (UntilBytes.receive_ends hreading).stopsRight_iff

/-- An empty buffer and some replies without SSL. -/
def RecvSocket.new (replies : List RecvReply) : RecvSocket where
  incoming := .recv replies
  rbuf := []
  buflen := 0
  bufoffset := 0
  le := Nat.le_refl 0
  empty := fun _ => rfl

/-- A short piece of a stream. -/
def Chunk.of (b : UInt8) (bs : List UInt8) (h : bs.length < 64) : Chunk where
  bytes := b :: bs
  nonempty := List.cons_ne_nil b bs
  length_le := by
    unfold defaultSocketBufsize
    rw [List.length_cons]
    omega

theorem recv_until_bytes_crlf :
    ([13, 10] : List UInt8) ≠ [] ∧
    (UntilBytes.StopsRight [13, 10] [65, 13, 10, 66] remoteClosed
        ((UntilBytes.new (.new [.data (.of 65 [13] (by decide)), .again,
          .data (.of 10 [66] (by decide))])).receive [13, 10]) ↔
      FirstAtRestart ([13, 10] : List UInt8) [65, 13, 10, 66]) :=
  ⟨by decide, recv_until_bytes_iff [13, 10] (by decide) (.new [.data (.of 65 [13] (by decide)),
    .again, .data (.of 10 [66] (by decide))])⟩

/-- The empty line behind a carriage return is not found: the attempt at the first byte fails at the
second one, which is the first byte of the delimiter. -/
theorem recv_until_bytes_missed :
    ¬UntilBytes.StopsRight [13, 10, 13, 10] [13, 13, 10, 13, 10] remoteClosed
      ((UntilBytes.new (.new [.data (.of 13 [] (by decide)), .again,
        .data (.of 13 [10, 13, 10] (by decide))])).receive [13, 10, 13, 10]) := by
  have hreading : UntilBytes.Reading [13, 10, 13, 10] [13, 13, 10, 13, 10] remoteClosed
      (UntilBytes.new (.new [.data (.of 13 [] (by decide)), .again,
        .data (.of 13 [10, 13, 10] (by decide))])) := ⟨.nil (by decide), rfl, rfl⟩
  rw [(UntilBytes.receive_ends hreading).stopsRight_iff]
  intro hfirst
  -- the first attempts begin at 0 and at 2
  have hnext : Next [13, 10, 13, 10] ([13, 13, 10, 13, 10] : List UInt8) 0 2 :=
    ⟨1, 13, by decide, by decide, rfl, by decide, rfl⟩
  have honly : OnlyAtEnd ([13, 10, 13, 10] : List UInt8) ([13, 13, 10, 13] ++ [10]) :=
    onlyAtEnd_snoc (by decide) 10
  have hrestart := hfirst [13] [] rfl honly
  obtain h | ⟨b, hb, hreach⟩ := Relation.ReflTransGen.cases_head hrestart
  · exact absurd h (by decide)
  · obtain rfl := hb.unique hnext
    exact absurd (le_of_reaches hreach) (by decide)

end Qore.Stream
