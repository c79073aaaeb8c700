import Mathlib.Data.List.Forall2
import Qore.Stream.Reader

/-!
# `Qore.Stream.Buffered`: the buffer of a reader cannot be seen

`byteReader` reads from a list of bytes and says what a reader is for: every byte is delivered once
and in order. Both readers follow it, however their streams are split.

* `calls_agree`: any sequence of calls gives the same with and without a buffer, and no assertion
  fails. Only the texts that say how many bytes are missing at the end of the stream are different.
-/

set_option autoImplicit false

namespace Qore.Stream

open Qore.Lib Program

/-! ## What a reader is for -/

/-- The reader of a list of bytes. -/
def byteReader : Reader (List UInt8) where
  readData := fun limit requireAll bytes =>
    if limit ≤ bytes.length ∨ requireAll = false then (.ok (bytes.take limit), bytes.drop limit)
    else (.error (.exception (endOfStream limit bytes.length)), [])
  peek := fun bytes => (.ok (nextByte bytes), bytes)
  unread := id

/-- Equal exceptions, and accesses that are undefined in both. -/
inductive EqualFault : Fault → Fault → Prop
  | exception (e : Exception) : EqualFault (.exception e) (.exception e)
  | undefined : EqualFault .undefined .undefined

/-- Faults that are equal but for the text about a missing number of bytes. -/
inductive SameFault : Fault → Fault → Prop
  | equal {e e' : Fault} : EqualFault e e' → SameFault e e'
  | endOfStream (limit read : Nat) :
      SameFault (.exception (endOfStreamBuffered limit read)) (.exception (endOfStream limit read))

/-- Programs of the reader agree with those of the reader of its unread bytes. -/
abbrev Reader.Agree {σ α : Type} (r : Reader σ) (I : σ → Prop) (E : Fault → Fault → Prop)
    (m : Program σ Fault α) (n : Program (List UInt8) Fault α) : Prop :=
  Program.Agree (fun s bytes => I s ∧ r.unread s = bytes) E m n

/-- The reader does what the reader of its unread bytes does. Of the value of `peek`, which is a
`char` in a buffer, only a line feed counts. -/
structure Simulates {σ : Type} (r : Reader σ) (I : σ → Prop) (E : Fault → Fault → Prop) :
    Prop where
  equal : ∀ {e e' : Fault}, EqualFault e e' → E e e'
  readData : ∀ (limit : Nat) (requireAll : Bool), 0 < limit →
    r.Agree I E (r.readData limit requireAll) (byteReader.readData limit requireAll)
  peek : ∀ s, I s → ∃ p s', r.peek s = (.ok p, s') ∧ I s' ∧ r.unread s' = r.unread s ∧
    (p = 10 ↔ nextByte (r.unread s) = 10)

/-! ## The reader without a buffer -/

theorem InputStream.read_nil {is is' : InputStream} {n : Nat} (hn : 0 < n)
    (h : is.read n = ([], is')) : is.rest = [] ∧ is'.rest = [] := by
  injection h with hdata his
  have hlen := congrArg List.length hdata
  rw [List.length_take, List.length_nil] at hlen
  have hnil : is.rest = [] := List.length_eq_zero_iff.mp (by omega)
  refine ⟨hnil, ?_⟩
  rw [← his, hnil]
  exact List.drop_nil

theorem InputStream.read_append {is is' : InputStream} {n : Nat} {data : List UInt8}
    (h : is.read n = (data, is')) : data ++ is'.rest = is.rest := by
  injection h with hdata his
  rw [← hdata, ← his]
  exact List.take_append_drop ..

/-- What `readLoop` does: it reads the bytes up to the limit, or all of them. -/
theorem StreamReader.readLoop_eq {limit : Nat} (requireAll : Bool) (read : List UInt8)
    (is : InputStream) (h : read.length < limit) :
    (readLoop limit requireAll read is).1 =
        (byteReader.readData limit requireAll (read ++ is.rest)).1 ∧
      (readLoop limit requireAll read is).2.rest =
        (byteReader.readData limit requireAll (read ++ is.rest)).2 := by
  fun_induction readLoop limit requireAll read is with
  | case1 read is is' hread =>
    obtain ⟨hnil, hnil'⟩ := InputStream.read_nil (by omega) hread
    have hle : ¬limit ≤ read.length := Nat.not_le.mpr h
    cases requireAll with
    | true => simp [byteReader, hle, hnil, hnil']
    | false => simp [byteReader, hnil, hnil', List.take_of_length_le (Nat.le_of_lt h),
        List.drop_of_length_le (Nat.le_of_lt h)]
  | case2 read is c cs is' hread hlen =>
    have hrest := InputStream.read_append hread
    have hbytes : read ++ is.rest = (read ++ c :: cs) ++ is'.rest := by
      rw [← hrest, List.append_assoc]
    rw [hbytes]
    generalize read ++ c :: cs = bytes at hlen ⊢
    subst hlen
    simp [byteReader]
  | case3 read is c cs is' hread hlen ih =>
    have hrest := InputStream.read_append hread
    have hbound := is.length_read_le (limit - read.length)
    rw [hread] at hbound
    have hbytes : read ++ is.rest = (read ++ c :: cs) ++ is'.rest := by
      rw [← hrest, List.append_assoc]
    rw [hbytes]
    refine ih ?_
    simp only [List.length_append, List.length_cons] at hbound hlen ⊢
    omega

/-- A list of bytes is read with a value or an exception. -/
theorem byteReader_outcome (limit : Nat) (requireAll : Bool) (bytes : List UInt8) :
    SameOutcome EqualFault (byteReader.readData limit requireAll bytes).1
      (byteReader.readData limit requireAll bytes).1 := by
  unfold byteReader
  dsimp only
  split
  · exact .ok _
  · exact .error (.exception _)

theorem streamReader_simulates : Simulates streamReader (fun _ => True) EqualFault where
  equal := id
  readData := by
    rintro limit requireAll hlimit is bytes ⟨-, rfl⟩
    have hloop := StreamReader.readLoop_eq requireAll [] is hlimit
    show SameOutcome _ (StreamReader.readData limit requireAll is).1 _ ∧ _ ∧
      (StreamReader.readData limit requireAll is).2.rest = _
    unfold StreamReader.readData
    rw [if_neg (by omega), hloop.1, hloop.2]
    exact ⟨byteReader_outcome .., trivial, rfl⟩
  peek is _ := ⟨_, is, rfl, trivial, rfl, Iff.rfl⟩

/-! ## The reader with a buffer -/

/-- What the reader of a list of bytes gives, with the exception of the reader with a buffer. -/
def BufferedOutcome (limit : Nat) (requireAll : Bool) (bytes : List UInt8) :
    Except Fault (List UInt8) :=
  if limit ≤ bytes.length ∨ requireAll = false then .ok (bytes.take limit)
  else .error (.exception (endOfStreamBuffered limit bytes.length))

namespace BufferedStreamReader

/-- A part of `readData` that has read some bytes ends as the reader of those bytes and the unread
ones does, and within the capacity. -/
def Reads (bufCapacity limit : Nat) (requireAll : Bool) (bytes : List UInt8)
    (r : Except Fault (List UInt8) × BufferedStreamReader) : Prop :=
  r.1 = BufferedOutcome limit requireAll bytes ∧ r.2.buf ++ r.2.is.rest = bytes.drop limit ∧
    r.2.buf.length ≤ bufCapacity

section
variable {bufCapacity limit : Nat} (requireAll : Bool) {s : BufferedStreamReader}

/-- At the end of the stream, either part of `readData` has read all bytes. -/
theorem reads_of_end {read : List UInt8} (h : read.length < limit) {is : InputStream}
    (hrest : is.rest = []) :
    Reads bufCapacity limit requireAll read
      (if requireAll then .error (.exception (endOfStreamBuffered limit read.length)) else .ok read,
        ⟨is, []⟩) := by
  have hdrop : read.drop limit = [] := List.drop_of_length_le (Nat.le_of_lt h)
  refine ⟨?_, ?_, Nat.zero_le _⟩
  · cases requireAll with
    | true => simp [BufferedOutcome, Nat.not_le.mpr h]
    | false => simp [BufferedOutcome, List.take_of_length_le (Nat.le_of_lt h)]
  · rw [hdrop, hrest]
    rfl

/-- All bytes up to the limit have been read. -/
theorem reads_of_length {read : List UInt8} (h : read.length = limit)
    (hbuf : s.buf.length ≤ bufCapacity) :
    Reads bufCapacity limit requireAll (read ++ (s.buf ++ s.is.rest)) (.ok read, s) := by
  subst h
  refine ⟨?_, ?_, hbuf⟩
  · simp [BufferedOutcome]
  · simp

theorem fillLoop_reads (hcap : 0 < bufCapacity) (read : List UInt8)
    (hbuf : s.buf.length ≤ bufCapacity) (hlen : read.length ≤ limit)
    (hempty : read.length < limit → s.buf = []) :
    Reads bufCapacity limit requireAll (read ++ (s.buf ++ s.is.rest))
      (fillLoop bufCapacity limit requireAll read s) := by
  obtain ⟨n, hn⟩ : ∃ n, limit - read.length = n := ⟨_, rfl⟩
  induction n using Nat.strongRecOn generalizing read s with
  | ind n ih =>
    unfold fillLoop
    by_cases hdone : limit - read.length = 0
    · rw [if_pos hdone]
      exact reads_of_length requireAll (by omega) hbuf
    · have hnil : s.buf = [] := hempty (by omega)
      rw [if_neg hdone, if_neg (by simp [hnil])]
      rcases hread : s.is.read bufCapacity with ⟨data, is⟩
      have hfill : fillBuffer bufCapacity bufCapacity s = (.ok data, ⟨is, data⟩) := by
        unfold fillBuffer
        rw [if_neg (by simp [hnil]; omega), hread, hnil]
        rfl
      have hbytes := InputStream.read_append hread
      have hdata : data.length ≤ bufCapacity := by
        have := s.is.length_read_le bufCapacity
        rwa [hread] at this
      rw [hfill]
      cases data with
      | nil =>
        obtain ⟨hrest, hrest'⟩ := InputStream.read_nil hcap hread
        rw [hnil, hrest, List.append_nil, List.append_nil]
        exact reads_of_end requireAll (by omega) hrest'
      | cons c cs =>
        -- the buffer goes to the target, up to the limit
        obtain ⟨len, hle⟩ : ∃ len, min (c :: cs).length (limit - read.length) = len := ⟨_, rfl⟩
        have hshift : shiftBuffer len ⟨is, c :: cs⟩ = (.ok (), ⟨is, (c :: cs).drop len⟩) := by
          unfold shiftBuffer
          rw [if_neg]
          rw [List.length_cons] at hle ⊢
          omega
        have hread' : (read ++ (c :: cs).take len).length = read.length + len := by
          rw [List.length_append, List.length_take]
          omega
        have hnext : (read ++ (c :: cs).take len).length < limit → (c :: cs).drop len = [] := by
          intro hlt
          exact List.drop_of_length_le (by omega)
        have hassert : ¬(limit - (read ++ (c :: cs).take len).length ≠ 0 ∧
            (c :: cs).drop len ≠ []) := by
          rintro ⟨hlt, hne⟩
          exact hne (hnext (by omega))
        have hall : read ++ (s.buf ++ s.is.rest) =
            (read ++ (c :: cs).take len) ++ ((c :: cs).drop len ++ is.rest) := by
          rw [hnil, ← hbytes, List.nil_append, List.append_assoc,
            ← List.append_assoc ((c :: cs).take len), List.take_append_drop]
        dsimp only
        rw [hle, hshift]
        dsimp only
        rw [if_neg hassert, hall]
        have hpos : 0 < len := by
          rw [List.length_cons] at hle
          omega
        refine ih (limit - (read ++ (c :: cs).take len).length) (by omega) _ ?_ (by omega) hnext rfl
        rw [List.length_drop]
        omega

theorem directLoop_reads (hcap : 0 < bufCapacity) (read : List UInt8) (hempty : s.buf = [])
    (hlen : read.length ≤ limit) :
    Reads bufCapacity limit requireAll (read ++ s.is.rest)
      (directLoop bufCapacity limit requireAll read s) := by
  have hfill : ∀ (read : List UInt8) (is : InputStream), read.length ≤ limit →
      Reads bufCapacity limit requireAll (read ++ is.rest)
        (fillLoop bufCapacity limit requireAll read ⟨is, []⟩) := by
    intro read is hle
    exact fillLoop_reads requireAll hcap read (Nat.zero_le _) hle fun _ => rfl
  obtain ⟨is, buf⟩ := s
  obtain rfl : buf = [] := hempty
  obtain ⟨n, hn⟩ : ∃ n, limit - read.length = n := ⟨_, rfl⟩
  induction n using Nat.strongRecOn generalizing read is with
  | ind n ih =>
    unfold directLoop
    by_cases hhalf : limit - read.length ≤ bufCapacity / 2
    · rw [if_pos hhalf]
      exact hfill read is hlen
    · rw [if_neg hhalf]
      rcases hread : is.read (limit - read.length) with ⟨data, is'⟩
      have hbytes := InputStream.read_append hread
      have hdata := is.length_read_le (limit - read.length)
      rw [hread] at hdata
      cases data with
      | nil =>
        obtain ⟨hrest, hrest'⟩ := InputStream.read_nil (by omega) hread
        rw [hrest, List.append_nil]
        cases requireAll with
        | true => exact reads_of_end true (by omega) hrest'
        | false =>
          -- the end of the stream is found again
          have := hfill read is' hlen
          rwa [hrest', List.append_nil] at this
      | cons c cs =>
        rw [← hbytes, ← List.append_assoc]
        rw [List.length_cons] at hdata
        have hread' : (read ++ c :: cs).length = read.length + (cs.length + 1) := by
          rw [List.length_append, List.length_cons]
        exact ih (limit - (read ++ c :: cs).length) (by omega) _ (by omega) is' rfl

theorem readData_reads (hcap : 0 < bufCapacity) (hlimit : 0 < limit)
    (hbuf : s.buf.length ≤ bufCapacity) :
    Reads bufCapacity limit requireAll (s.buf ++ s.is.rest)
      (readData bufCapacity limit requireAll s) := by
  unfold readData
  rw [if_neg (by omega)]
  by_cases hempty : s.buf = []
  · rw [if_pos hempty, hempty]
    exact directLoop_reads requireAll hcap [] hempty (Nat.zero_le _)
  · have hpos : 0 < s.buf.length := List.length_pos_iff.mpr hempty
    rw [if_neg hempty]
    by_cases hlt : limit < s.buf.length
    · have hshift : shiftBuffer limit s = (.ok (), { s with buf := s.buf.drop limit }) := by
        unfold shiftBuffer
        rw [if_neg (by omega)]
      rw [if_pos hlt, hshift, Nat.min_eq_left (Nat.le_of_lt hlt)]
      have hsplit : s.buf ++ s.is.rest = s.buf.take limit ++ (s.buf.drop limit ++ s.is.rest) := by
        rw [← List.append_assoc, List.take_append_drop]
      rw [hsplit]
      refine reads_of_length requireAll ?_ ?_
      · rw [List.length_take]
        omega
      · rw [List.length_drop]
        omega
    · have hall : s.buf.take (min limit s.buf.length) = s.buf :=
        List.take_of_length_le (by omega)
      rw [if_neg hlt, hall]
      by_cases hexact : limit - s.buf.length = 0
      · rw [if_pos hexact]
        exact reads_of_length requireAll (s := { s with buf := [] }) (by omega) (Nat.zero_le _)
      · rw [if_neg hexact]
        exact directLoop_reads requireAll hcap s.buf (s := { s with buf := [] }) rfl (by omega)

/-- What `peek` does: it gives the first `char`, unless the number of bytes that have filled the
buffer is no positive `int`. No byte is lost. -/
theorem peek_spec (hcap : 0 < bufCapacity) (hbuf : s.buf.length ≤ bufCapacity) :
    ∃ v s', peek bufCapacity s = (.ok v, s') ∧ s'.buf.length ≤ bufCapacity ∧
      s'.buf ++ s'.is.rest = s.buf ++ s.is.rest ∧ (s.buf ++ s.is.rest = [] → v = -1) ∧
      ∀ c rest, s.buf ++ s.is.rest = c :: rest →
        ((s.buf = [] → 0 < truncInt (s.is.read bufCapacity).1.length) → v = signedChar c) ∧
          (s.buf = [] → truncInt (s.is.read bufCapacity).1.length ≤ 0 → v < 0) := by
  unfold peek
  by_cases hempty : s.buf = []
  · rcases hread : s.is.read bufCapacity with ⟨data, is⟩
    have hfill : fillBuffer bufCapacity bufCapacity s = (.ok data, ⟨is, data⟩) := by
      unfold fillBuffer
      rw [if_neg (by simp [hempty]; omega), hread, hempty]
      rfl
    have hbytes := InputStream.read_append hread
    have hdata := s.is.length_read_le bufCapacity
    rw [hread] at hdata
    rw [if_pos hempty, hfill, hempty, List.nil_append, ← hbytes]
    dsimp only
    cases data with
    | nil =>
      obtain ⟨-, hrest⟩ := InputStream.read_nil hcap hread
      refine ⟨-1, ⟨is, []⟩, rfl, Nat.zero_le _, rfl, fun _ => rfl, fun c rest h => ?_⟩
      rw [hrest] at h
      cases h
    | cons c cs =>
      generalize truncInt (c :: cs).length = rc
      by_cases hzero : rc = 0
      · rw [if_pos hzero]
        refine ⟨-1, _, rfl, hdata, rfl, fun _ => rfl, fun c' rest _ => ⟨fun h => ?_, fun _ _ => ?_⟩⟩
        · have := h rfl
          omega
        · decide
      · rw [if_neg hzero]
        by_cases hneg : rc < 0
        · rw [if_pos hneg]
          refine ⟨-2, _, rfl, hdata, rfl, fun h => (by cases h), fun c' rest _ =>
            ⟨fun h => ?_, fun _ _ => ?_⟩⟩
          · have := h rfl
            omega
          · decide
        · rw [if_neg hneg]
          refine ⟨_, _, rfl, hdata, rfl, fun h => (by cases h), fun c' rest h =>
            ⟨fun _ => ?_, fun _ h' => absurd h' (by omega)⟩⟩
          obtain ⟨rfl, -⟩ := List.cons.inj h
          rfl
  · rw [if_neg hempty]
    obtain ⟨c, cs, hcons⟩ := List.exists_cons_of_ne_nil hempty
    refine ⟨_, s, rfl, hbuf, rfl, fun h => absurd (List.append_eq_nil_iff.mp h).1 hempty,
      fun c' rest h => ⟨fun _ => ?_, fun h' => absurd h' hempty⟩⟩
    rw [hcons] at h ⊢
    obtain ⟨rfl, -⟩ := List.cons.inj h
    rfl

end

end BufferedStreamReader

theorem signedChar_eq_iff (c : UInt8) : signedChar c = c.toNat ↔ c.toNat < 128 := by
  unfold signedChar
  split <;> omega

theorem buffered_readData {bufCapacity : Nat} (hcap : 0 < bufCapacity) (limit : Nat)
    (requireAll : Bool) (hlimit : 0 < limit) :
    (bufferedStreamReader bufCapacity).Agree (fun s => s.buf.length ≤ bufCapacity) SameFault
      (BufferedStreamReader.readData bufCapacity limit requireAll)
      (byteReader.readData limit requireAll) := by
  rintro s bytes ⟨hbuf, rfl⟩
  obtain ⟨hout, hrest, hbuf'⟩ := BufferedStreamReader.readData_reads requireAll hcap hlimit hbuf
  show SameOutcome _ (BufferedStreamReader.readData bufCapacity limit requireAll s).1
    (byteReader.readData limit requireAll (s.buf ++ s.is.rest)).1 ∧ _ ∧
    (BufferedStreamReader.readData bufCapacity limit requireAll s).2.buf ++
      (BufferedStreamReader.readData bufCapacity limit requireAll s).2.is.rest =
    (byteReader.readData limit requireAll (s.buf ++ s.is.rest)).2
  rw [hout, hrest]
  generalize s.buf ++ s.is.rest = bytes
  unfold BufferedOutcome byteReader
  dsimp only
  split
  · exact ⟨.ok _, hbuf', rfl⟩
  · rename_i hlt
    exact ⟨.error (.endOfStream ..), hbuf', List.drop_of_length_le (by omega)⟩

/-- A buffer of less than 2 GiB: `peek` then keeps the number of bytes. -/
theorem bufferedStreamReader_simulates {bufCapacity : Nat} (hcap : 0 < bufCapacity)
    (hint : bufCapacity < 2 ^ 31) :
    Simulates (bufferedStreamReader bufCapacity) (fun s => s.buf.length ≤ bufCapacity)
      SameFault where
  equal := .equal
  readData := buffered_readData hcap
  peek s hbuf := by
    obtain ⟨v, s', hpeek, hbuf', hrest, hend, hfirst⟩ := BufferedStreamReader.peek_spec hcap hbuf
    refine ⟨v, s', hpeek, hbuf', hrest, ?_⟩
    show v = 10 ↔ nextByte (s.buf ++ s.is.rest) = 10
    cases hbytes : s.buf ++ s.is.rest with
    | nil =>
      rw [hend hbytes]
      rfl
    | cons c rest =>
      have hv : v = signedChar c := by
        refine (hfirst c rest hbytes).1 fun hempty => ?_
        have hlen := s.is.length_read_le bufCapacity
        have hne : 0 < (s.is.read bufCapacity).1.length := by
          rw [hempty] at hbytes
          rcases hread : s.is.read bufCapacity with ⟨_ | ⟨b, bs⟩, is⟩
          · rw [(InputStream.read_nil hcap hread).1] at hbytes
            cases hbytes
          · exact Nat.succ_pos _
        have hfits : FitsInt (s.is.read bufCapacity).1.length := ⟨by omega, by omega⟩
        rw [truncInt_of_fits hfits]
        omega
      rw [hv]
      show signedChar c = 10 ↔ (c.toNat : Int) = 10
      have hlt := c.toNat_lt
      unfold signedChar
      split <;> omega

/-! ## The calls -/

section
variable {σ : Type} {r : Reader σ} {I : σ → Prop} {E : Fault → Fault → Prop}

/-- Loops agree when their passes do, and the passes that go on read something. -/
theorem Simulates.loop {α β : Type} {step : β → Program σ Fault (β ⊕ α)}
    {step' : β → Program (List UInt8) Fault (β ⊕ α)} (J : β → Prop)
    (hstep : ∀ b, J b → r.Agree I E (step b) (step' b))
    (hreads : ∀ b bytes b' bytes', J b → step' b bytes = (.ok (.inl b'), bytes') →
      J b' ∧ bytes'.length < bytes.length) {b : β} (hb : J b) :
    r.Agree I E (r.loop step b) (byteReader.loop step' b) := by
  intro s bytes hs
  have hloop : r.loop step b s = iterate step .endless (bytes.length + 1) b s := by
    rw [← hs.2]
    rfl
  rw [hloop]
  exact Agree.iterate .endless hstep hreads (bytes.length + 1) hb hs (Nat.lt_succ_self _)

/-- Without the need for all bytes, the reader of a list of bytes has no exceptions. -/
theorem byteReader_bind {α : Type} (limit : Nat) (f : List UInt8 → Program (List UInt8) Fault α)
    (bytes : List UInt8) :
    (byteReader.readData limit false).bind f bytes = f (bytes.take limit) (bytes.drop limit) := by
  have hread : byteReader.readData limit false bytes =
      (.ok (bytes.take limit), bytes.drop limit) := if_pos (.inr rfl)
  unfold Program.bind
  rw [hread]

/-- A pass that has read something leaves less. -/
theorem length_drop_lt {limit : Nat} {bytes : List UInt8} (h : bytes.take limit ≠ []) :
    (bytes.drop limit).length < bytes.length := by
  have hpos := List.length_pos_iff.mpr h
  rw [List.length_take] at hpos
  rw [List.length_drop]
  omega

section
variable (h : Simulates r I E) (enc : Encoding)
include h

theorem Simulates.readAll :
    r.Agree I E (r.loop r.readAllStep []) (byteReader.loop byteReader.readAllStep []) := by
  refine Simulates.loop (fun _ => True) ?_ ?_ trivial
  · intro b _
    exact (h.readData _ _ (by decide)).bind fun c => .pure _
  · intro b bytes b' bytes' _ hstep
    refine ⟨trivial, ?_⟩
    unfold Reader.readAllStep at hstep
    rw [byteReader_bind] at hstep
    injection hstep with hb hbytes
    rw [← hbytes]
    refine length_drop_lt fun hnil => ?_
    rw [hnil, if_pos rfl] at hb
    cases hb

theorem Simulates.readBinary (limit : Int) :
    r.Agree I E (r.readBinary limit) (byteReader.readBinary limit) := by
  unfold Reader.readBinary
  by_cases hzero : limit = 0
  · rw [if_pos hzero, if_pos hzero]
    exact .pure _
  · rw [if_neg hzero, if_neg hzero]
    refine .bind ?_ fun b => .pure _
    by_cases hall : limit = -1
    · rw [if_pos hall, if_pos hall]
      exact h.readAll
    · rw [if_neg hall, if_neg hall]
      refine Simulates.loop (fun _ => True) ?_ ?_ trivial
      · intro b _
        unfold Reader.readBinaryStep
        by_cases hdone : b.2 = 0
        · rw [if_pos hdone, if_pos hdone]
          exact .pure _
        · rw [if_neg hdone, if_neg hdone]
          have hpos : 0 < min b.2 streamReaderBufferSize := by
            have : streamReaderBufferSize = 4096 := rfl
            omega
          exact (h.readData _ _ hpos).bind fun c => .pure _
      · intro b bytes b' bytes' _ hstep
        refine ⟨trivial, ?_⟩
        unfold Reader.readBinaryStep at hstep
        by_cases hdone : b.2 = 0
        · rw [if_pos hdone] at hstep
          cases hstep
        · rw [if_neg hdone, byteReader_bind] at hstep
          injection hstep with hb hbytes
          rw [← hbytes]
          refine length_drop_lt fun hnil => ?_
          rw [hnil, if_pos rfl] at hb
          cases hb

theorem Simulates.readString (size : Int) :
    r.Agree I E (r.readString size) (byteReader.readString size) := by
  unfold Reader.readString
  by_cases hzero : size = 0
  · rw [if_pos hzero, if_pos hzero]
    exact .pure _
  · rw [if_neg hzero, if_neg hzero]
    refine .bind ?_ fun str => .pure _
    by_cases hall : size < 0
    · rw [if_pos hall, if_pos hall]
      exact h.readAll
    · rw [if_neg hall, if_neg hall]
      -- a pass that goes on has read less than the size
      refine Simulates.loop (fun str => str.length < size.toNat) ?_ ?_
        (show 0 < size.toNat by omega)
      · intro str hlt
        exact (h.readData _ _ (by omega)).bind fun c => .pure _
      · intro str bytes str' bytes' hlt hstep
        unfold Reader.readStringStep at hstep
        rw [byteReader_bind] at hstep
        injection hstep with hb hbytes
        by_cases hstop : bytes.take (size.toNat - str.length) = [] ∨
            (str ++ bytes.take (size.toNat - str.length)).length = size.toNat
        · rw [if_pos hstop] at hb
          cases hb
        · rw [if_neg hstop] at hb
          rw [not_or] at hstop
          cases hb
          rw [← hbytes]
          refine ⟨?_, length_drop_lt hstop.1⟩
          have hlen := hstop.2
          rw [List.length_append, List.length_take] at hlen ⊢
          omega

theorem Simulates.readLineEol (eol : List UInt8) (trim : Bool) :
    r.Agree I E (r.readLineEol enc eol trim) (byteReader.readLineEol enc eol trim) := by
  refine Simulates.loop (fun _ => True) ?_ ?_ trivial
  · intro b _
    refine (h.readData _ _ Nat.one_pos).bind fun c => ?_
    cases c with
    | nil => exact .pure _
    | cons c cs =>
      generalize (eol ++ [0]).drop b.2 = es
      cases es with
      | nil => exact .throw (h.equal .undefined)
      | cons e es =>
        dsimp only
        split
        · split
          · exact .pure _
          · exact .pure _
        · exact .pure _
  · intro b bytes b' bytes' _ hstep
    refine ⟨trivial, ?_⟩
    unfold Reader.readLineEolStep at hstep
    rw [byteReader_bind] at hstep
    have hbytes : bytes' = bytes.drop 1 := by
      generalize bytes.drop 1 = rest at hstep
      generalize bytes.take 1 = c at hstep
      generalize (eol ++ [0]).drop b.2 = es at hstep
      cases c with
      | nil => cases hstep
      | cons c cs =>
        cases es with
        | nil => cases hstep
        | cons e es =>
          dsimp only at hstep
          split at hstep
          · split at hstep
            · cases hstep
            · cases hstep
              rfl
          · cases hstep
            rfl
    rw [hbytes]
    refine length_drop_lt fun hnil => ?_
    rw [hnil] at hstep
    cases hstep

theorem Simulates.readLineFeed (trim : Bool) (str : List UInt8) :
    r.Agree I E (r.readLineFeed trim str) (byteReader.readLineFeed trim str) := by
  rintro s bytes ⟨hs, rfl⟩
  obtain ⟨p, s', hpeek, hs', hrest, hp⟩ := h.peek s hs
  unfold Reader.readLineFeed
  rw [bind_of_ok hpeek, bind_of_ok (m := byteReader.peek) rfl]
  by_cases hten : p = 10
  · rw [if_pos hten, if_pos (hp.mp hten)]
    exact (h.readData _ _ Nat.one_pos).bind (fun _ => .pure _) s' _ ⟨hs', hrest⟩
  · rw [if_neg hten, if_neg fun h => hten (hp.mpr h)]
    exact ⟨.ok _, hs', hrest⟩

theorem Simulates.readLine (eol : Option (List UInt8)) (trim : Bool) :
    r.Agree I E (r.readLine enc eol trim) (byteReader.readLine enc eol trim) := by
  cases eol with
  | some eol => exact h.readLineEol enc eol trim
  | none =>
    unfold Reader.readLine
    by_cases hascii : enc.isAsciiCompat
    · rw [if_pos hascii, if_pos hascii]
      refine Simulates.loop (fun _ => True) ?_ ?_ trivial
      · intro str _
        refine (h.readData _ _ Nat.one_pos).bind fun c => ?_
        cases c with
        | nil => exact .pure _
        | cons c cs =>
          dsimp only
          split
          · exact .pure _
          · split
            · exact (h.readLineFeed trim _).bind fun v => .pure _
            · exact .pure _
      · intro str bytes str' bytes' _ hstep
        refine ⟨trivial, ?_⟩
        unfold Reader.readLineStep at hstep
        rw [byteReader_bind] at hstep
        cases hbytes : bytes.take 1 with
        | nil =>
          rw [hbytes] at hstep
          cases hstep
        | cons c cs =>
          rw [hbytes] at hstep
          dsimp only at hstep
          split at hstep
          · cases hstep
          · split at hstep
            · unfold Program.bind at hstep
              split at hstep
              · cases hstep
              · cases hstep
            · cases hstep
              exact length_drop_lt (by simp [hbytes])
    · rw [if_neg hascii, if_neg hascii]
      exact h.readLineEol enc enc.newline trim

theorem Simulates.readNullTerminatedString :
    r.Agree I E r.readNullTerminatedString byteReader.readNullTerminatedString := by
  refine Simulates.loop (fun _ => True) ?_ ?_ trivial
  · intro str _
    refine (h.readData _ _ Nat.one_pos).bind fun c => ?_
    cases c with
    | nil => exact .throw (h.equal (.exception _))
    | cons c cs => exact .pure _
  · intro str bytes str' bytes' _ hstep
    refine ⟨trivial, ?_⟩
    unfold Reader.readNullTerminatedStep at hstep
    rw [byteReader_bind] at hstep
    cases hbytes : bytes.take 1 with
    | nil =>
      rw [hbytes] at hstep
      cases hstep
    | cons c cs =>
      rw [hbytes] at hstep
      injection hstep with _ hrest
      rw [← hrest]
      exact length_drop_lt (by simp [hbytes])

theorem Simulates.readExactString (size : Nat) :
    r.Agree I E (r.readExactString size) (byteReader.readExactString size) := by
  refine (h.readString size).bind fun v => ?_
  cases v with
  | string str =>
    dsimp only
    split
    · exact .throw (h.equal (.exception _))
    · exact .pure _
  | nothing => exact .throw (h.equal .undefined)
  | binary bytes => exact .throw (h.equal .undefined)
  | int i => exact .throw (h.equal .undefined)

theorem Simulates.readInt {width : Nat} (hwidth : 0 < width) (signed lsb : Bool) :
    r.Agree I E (r.readInt width signed lsb) (byteReader.readInt width signed lsb) :=
  (h.readData _ _ hwidth).bind fun _ => .pure _

/-- Every call of the reader agrees with that of the reader of its unread bytes. -/
theorem Simulates.call (c : Call) : r.Agree I E (r.call enc c) (byteReader.call enc c) := by
  cases c with
  | readBinary limit => exact h.readBinary limit
  | readString size => exact h.readString size
  | readLine eol trim => exact h.readLine enc eol trim
  | readNullTerminatedString => exact h.readNullTerminatedString
  | readExactString size => exact h.readExactString size
  | read limit hlimit requireAll => exact (h.readData _ _ hlimit).bind fun _ => .pure _
  | readi1 => exact h.readInt (by decide) true false
  | readi2 => exact h.readInt (by decide) true false
  | readi4 => exact h.readInt (by decide) true false
  | readi8 => exact h.readInt (by decide) true false
  | readi2LSB => exact h.readInt (by decide) true true
  | readi4LSB => exact h.readInt (by decide) true true
  | readi8LSB => exact h.readInt (by decide) true true
  | readu1 => exact h.readInt (by decide) false false
  | readu2 => exact h.readInt (by decide) false false
  | readu4 => exact h.readInt (by decide) false false
  | readu2LSB => exact h.readInt (by decide) false true
  | readu4LSB => exact h.readInt (by decide) false true

/-- What one call keeps, a sequence of calls keeps. -/
theorem Simulates.calls (cs : List Call) {s : σ} (hs : I s) :
    List.Forall₂ (SameOutcome E) (r.calls enc cs s).1
        (byteReader.calls enc cs (r.unread s)).1 ∧
      I (r.calls enc cs s).2 ∧
      r.unread (r.calls enc cs s).2 = (byteReader.calls enc cs (r.unread s)).2 := by
  induction cs generalizing s with
  | nil => exact ⟨.nil, hs, rfl⟩
  | cons c cs ih =>
    obtain ⟨hout, hs', hrest⟩ := h.call enc c s (r.unread s) ⟨hs, rfl⟩
    obtain ⟨houts, hs'', hrest'⟩ := ih hs'
    rw [hrest] at houts hrest'
    exact ⟨.cons hout houts, hs'', hrest'⟩

end

end

/-! ## The result -/

theorem eq_of_equalFault {α : Type} {a b : Except Fault α} (h : SameOutcome EqualFault a b) :
    a = b := by
  cases h with
  | ok a => rfl
  | error h =>
    cases h with
    | exception e => rfl
    | undefined => rfl

/-- A sequence of calls gives the same with and without a buffer, for every size of the buffer that
is an `int`, and however the streams are split, and leaves the same bytes. The calls deliver the bytes as
`byteReader` does. No assertion fails and no call is endless; the exceptions are the same but for
the words around the two numbers when bytes are missing. -/
theorem calls_agree (enc : Encoding) (cs : List Call) (data : List UInt8) (chunk chunk' : Nat → Nat)
    {bufCapacity : Nat} (hcap : 0 < bufCapacity) (hint : bufCapacity < 2 ^ 31) :
    let unbuffered := streamReader.calls enc cs ⟨data, chunk⟩
    let buffered := (bufferedStreamReader bufCapacity).calls enc cs ⟨⟨data, chunk'⟩, []⟩
    List.Forall₂ (SameOutcome SameFault) buffered.1 unbuffered.1 ∧
      buffered.2.buf ++ buffered.2.is.rest = unbuffered.2.rest ∧
      (unbuffered.1, unbuffered.2.rest) = byteReader.calls enc cs data ∧
      (∀ v ∈ unbuffered.1, v ≠ .error .assertion ∧ v ≠ .error .endless) ∧
      buffered.2.buf.length ≤ bufCapacity := by
  intro unbuffered buffered
  obtain ⟨houts, -, hrest⟩ := streamReader_simulates.calls enc cs (s := ⟨data, chunk⟩) trivial
  obtain ⟨houts', hbuf, hrest'⟩ := (bufferedStreamReader_simulates hcap hint).calls enc cs
    (s := ⟨⟨data, chunk'⟩, []⟩) (Nat.zero_le _)
  have heq : unbuffered.1 = (byteReader.calls enc cs data).1 :=
    List.forall₂_eq_eq_eq ▸ houts.imp fun _ _ => eq_of_equalFault
  have hnone : ∀ v ∈ unbuffered.1, v ≠ .error .assertion ∧ v ≠ .error .endless := by
    intro v hv
    have hsame : List.Forall₂ (SameOutcome EqualFault) unbuffered.1 unbuffered.1 := by
      nth_rewrite 2 [heq]
      exact houts
    have hfault := List.forall₂_same.mp hsame v hv
    cases hfault with
    | ok a => exact ⟨(by rintro ⟨⟩), (by rintro ⟨⟩)⟩
    | error h =>
      cases h with
      | exception e => exact ⟨(by rintro ⟨⟩), (by rintro ⟨⟩)⟩
      | undefined => exact ⟨(by rintro ⟨⟩), (by rintro ⟨⟩)⟩
  refine ⟨?_, ?_, ?_, hnone, hbuf⟩
  · rw [heq]
    exact houts'
  · exact hrest'.trans hrest.symm
  · exact Prod.ext heq hrest

/-- An encoding with one byte for each character. -/
def latin1 : Encoding where
  isAsciiCompat := true
  newline := [10]
  removeBomUtf16 := id

theorem calls_agree_readi2 :
    let unbuffered := streamReader.calls latin1 [.readi2, .readi2] ⟨[1, 2, 3], fun _ => 1⟩
    let buffered := (bufferedStreamReader 4).calls latin1 [.readi2, .readi2]
      ⟨⟨[1, 2, 3], fun _ => 2⟩, []⟩
    0 < 4 ∧ 4 < 2 ^ 31 ∧ List.Forall₂ (SameOutcome SameFault) buffered.1 unbuffered.1 ∧
      buffered.2.buf ++ buffered.2.is.rest = unbuffered.2.rest ∧
      (unbuffered.1, unbuffered.2.rest) = byteReader.calls latin1 [.readi2, .readi2] [1, 2, 3] ∧
      (∀ v ∈ unbuffered.1, v ≠ .error .assertion ∧ v ≠ .error .endless) ∧
      buffered.2.buf.length ≤ 4 :=
  ⟨by decide, by decide, calls_agree latin1 [.readi2, .readi2] [1, 2, 3] (fun _ => 1) (fun _ => 2)
    (by decide) (by decide)⟩

/-- The exceptions have different texts when an integer of two bytes is read from one byte. -/
theorem endOfStream_texts_differ :
    (streamReader.call latin1 .readi2 ⟨[1], fun _ => 1⟩).1 ≠
      ((bufferedStreamReader 1).call latin1 .readi2 ⟨⟨[1], fun _ => 1⟩, []⟩).1 := by
  have hunbuffered : (StreamReader.readData 2 true ⟨[1], fun _ => 1⟩).1 =
      .error (.exception (endOfStream 2 1)) :=
    (StreamReader.readLoop_eq true [] ⟨[1], fun _ => 1⟩ (by decide)).1
  have hbuffered : (BufferedStreamReader.readData 1 2 true ⟨⟨[1], fun _ => 1⟩, []⟩).1 =
      .error (.exception (endOfStreamBuffered 2 1)) :=
    (BufferedStreamReader.readData_reads true (by decide) (by decide) (by decide)).1
  have hunbuffered' : (streamReader.call latin1 .readi2 ⟨[1], fun _ => 1⟩).1 = _ :=
    bind_of_error hunbuffered _
  have hbuffered' :
      ((bufferedStreamReader 1).call latin1 .readi2 ⟨⟨[1], fun _ => 1⟩, []⟩).1 = _ :=
    bind_of_error hbuffered _
  rw [hunbuffered', hbuffered']
  decide

end Qore.Stream
