import Qore.Stream.TransformSpec

/-!
# `Qore.Stream.Peek`: looking at the next byte

`peek` returns the next byte as an `int64`, and `-1` at the end of the stream. In both classes the
byte comes from a buffer of `char`, which is signed, so that a byte from 128 on becomes negative.
`BufferedStreamReader::peek` also keeps the number of bytes that it has read in an `int`.

* `BufferedStreamReader.run_iff`: in a sequence of calls all values are right if and only if every
  look at a byte is `PeekFine`: the byte is below 128, and the number of bytes that filled the
  buffer is a positive `int`. `peekCheck` then fails only at the end of the stream.
* `TransformStream.peekTells_iff`: with any transform, the value is right if and only if the byte is
  below 128.
* `TransformStream.run_readsOf`: the reads are the same as without looking.
* `peek_tells_iff`: both.
-/

set_option autoImplicit false

namespace Qore.Stream

open Qore.Lib Program

theorem firstChar_cons (c : UInt8) (cs : List UInt8) : firstChar (c :: cs) = signedChar c := rfl

/-! ## `BufferedStreamReader` -/

/-- A call that looks at the next byte, or that reads. -/
inductive PeekCall
  | peek
  | peekCheck
  | read (limit : Nat) (hlimit : 0 < limit) (requireAll : Bool)

/-- What these calls give. -/
inductive PeekValue
  | int (i : Int)
  | bytes (bytes : List UInt8)
  deriving DecidableEq

def BufferedStreamReader.peekCall (bufCapacity : Nat) :
    PeekCall → Program BufferedStreamReader Fault PeekValue
  | .peek => (peek bufCapacity).bind fun i => .pure (.int i)
  | .peekCheck => (bufferedStreamReader bufCapacity).peekCheck.bind fun i => .pure (.int i)
  | .read limit _ requireAll =>
    (readData bufCapacity limit requireAll).bind fun bytes => .pure (.bytes bytes)

/-- The calls on the bytes that are left. -/
def expectedCall : PeekCall → Program (List UInt8) Fault PeekValue
  | .peek => fun bytes => (.ok (.int (nextByte bytes)), bytes)
  | .peekCheck => fun bytes =>
    (if bytes = [] then .error (.exception peekAtEnd) else .ok (.int (nextByte bytes)), bytes)
  | .read limit _ requireAll =>
    (byteReader.readData limit requireAll).bind fun bytes => .pure (.bytes bytes)

/-- A sequence of calls: what they give, and the state that they leave. -/
def runCalls {σ : Type} (call : PeekCall → Program σ Fault PeekValue) :
    List PeekCall → σ → List (Except Fault PeekValue) × σ
  | [], s => ([], s)
  | c :: cs, s =>
    let (v, s) := call c s
    let (vs, s) := runCalls call cs s
    (v :: vs, s)

/-- The condition for looking at the next byte: if there is one, it is below 128, and if the buffer
has to be filled for it, the number of bytes is a positive `int`. -/
def BufferedStreamReader.PeekFine (bufCapacity : Nat) (s : BufferedStreamReader) : Prop :=
  ∀ c rest, s.buf ++ s.is.rest = c :: rest →
    c.toNat < 128 ∧ (s.buf = [] → 0 < truncInt (s.is.read bufCapacity).1.length)

/-- The condition for a call. -/
def BufferedStreamReader.CallFine (bufCapacity : Nat) (s : BufferedStreamReader) :
    PeekCall → Prop
  | .read .. => True
  | _ => s.PeekFine bufCapacity

/-- The condition for a sequence of calls: it holds in the state before each of them. -/
def BufferedStreamReader.CallsFine (bufCapacity : Nat) :
    List PeekCall → BufferedStreamReader → Prop
  | [], _ => True
  | c :: cs, s => s.CallFine bufCapacity c ∧
    CallsFine bufCapacity cs (peekCall bufCapacity c s).2

namespace BufferedStreamReader

variable {bufCapacity : Nat} {s : BufferedStreamReader}

/-- The value of `peek` is right if and only if its condition holds, and no byte is lost. -/
theorem peek_iff (hcap : 0 < bufCapacity) (hbuf : s.buf.length ≤ bufCapacity) :
    ∃ v s', peek bufCapacity s = (.ok v, s') ∧ s'.buf.length ≤ bufCapacity ∧
      s'.buf ++ s'.is.rest = s.buf ++ s.is.rest ∧
      (v = nextByte (s.buf ++ s.is.rest) ↔ s.PeekFine bufCapacity) := by
  obtain ⟨v, s', hpeek, hbuf', hrest, hend, hfirst⟩ := peek_spec hcap hbuf
  refine ⟨v, s', hpeek, hbuf', hrest, ?_⟩
  unfold PeekFine
  cases hbytes : s.buf ++ s.is.rest with
  | nil => exact ⟨fun _ c rest h => (by cases h), fun _ => hend hbytes⟩
  | cons c rest =>
    obtain ⟨hfine, hnot⟩ := hfirst c rest hbytes
    show v = c.toNat ↔ _
    constructor
    · rintro hv c' rest' heq
      obtain ⟨rfl, -⟩ := List.cons.inj heq
      have hint : s.buf = [] → 0 < truncInt (s.is.read bufCapacity).1.length := by
        intro hempty
        by_contra hle
        have hneg := hnot hempty (by omega)
        omega
      rw [hfine hint] at hv
      exact ⟨(signedChar_eq_iff c).mp hv, hint⟩
    · intro h
      obtain ⟨hc, hint⟩ := h c rest rfl
      rw [hfine hint]
      exact (signedChar_eq_iff c).mpr hc

/-- A call gives what is expected if and only if its condition holds, and no byte is lost. -/
theorem peekCall_spec (hcap : 0 < bufCapacity) (hbuf : s.buf.length ≤ bufCapacity) (c : PeekCall) :
    (SameOutcome SameFault (peekCall bufCapacity c s).1
        (expectedCall c (s.buf ++ s.is.rest)).1 ↔ s.CallFine bufCapacity c) ∧
      (peekCall bufCapacity c s).2.buf.length ≤ bufCapacity ∧
      (peekCall bufCapacity c s).2.buf ++ (peekCall bufCapacity c s).2.is.rest =
        (expectedCall c (s.buf ++ s.is.rest)).2 := by
  cases c with
  | peek =>
    obtain ⟨v, s', hpeek, hbuf', hrest, hfine⟩ := peek_iff hcap hbuf
    have hcall : peekCall bufCapacity .peek s = (.ok (.int v), s') := bind_of_ok hpeek _
    rw [hcall]
    refine ⟨?_, hbuf', hrest⟩
    show _ ↔ s.PeekFine bufCapacity
    rw [← hfine]
    constructor
    · intro h
      cases h with
      | ok _ => rfl
    · rintro rfl
      exact .ok _
  | peekCheck =>
    obtain ⟨v, s', hpeek, hbuf', hrest, hfine⟩ := peek_iff hcap hbuf
    have hcheck : (bufferedStreamReader bufCapacity).peekCheck s =
        (if v < 0 then
          (if v = -1 then .throw (.exception peekAtEnd) else .throw .assertion)
        else .pure v : Program BufferedStreamReader Fault Int) s' := bind_of_ok hpeek _
    show (SameOutcome SameFault _ _ ↔ s.PeekFine bufCapacity) ∧ _
    rw [← hfine]
    cases hbytes : s.buf ++ s.is.rest with
    | nil =>
      -- there is no byte, and `peek` has returned -1
      rw [hbytes] at hfine hrest
      have hv : v = -1 := hfine.mpr fun c rest h =>
        absurd (hbytes.symm.trans h) (List.cons_ne_nil c rest).symm
      rw [if_pos (by omega), if_pos hv] at hcheck
      have hcall : peekCall bufCapacity .peekCheck s = (.error (.exception peekAtEnd), s') := by
        show (bufferedStreamReader bufCapacity).peekCheck.bind _ s = _
        unfold Program.bind
        rw [hcheck]
        rfl
      rw [hcall]
      exact ⟨⟨fun _ => hv, fun _ => .error (.equal (.exception _))⟩, hbuf', hrest⟩
    | cons c rest =>
      rw [hbytes] at hrest
      have hnext : nextByte (c :: rest) = c.toNat := rfl
      by_cases hneg : v < 0
      · obtain ⟨e, he⟩ : ∃ e, (bufferedStreamReader bufCapacity).peekCheck s = (.error e, s') := by
          rw [hcheck, if_pos hneg]
          split
          · exact ⟨_, rfl⟩
          · exact ⟨_, rfl⟩
        have hcall : peekCall bufCapacity .peekCheck s = (.error e, s') := by
          show (bufferedStreamReader bufCapacity).peekCheck.bind _ s = _
          unfold Program.bind
          rw [he]
        rw [hcall, hnext]
        refine ⟨⟨fun h => (by cases h), fun h => ?_⟩, hbuf', hrest⟩
        omega
      · rw [if_neg hneg] at hcheck
        have hcall : peekCall bufCapacity .peekCheck s = (.ok (.int v), s') := bind_of_ok hcheck _
        rw [hcall]
        refine ⟨⟨fun h => ?_, fun h => ?_⟩, hbuf', hrest⟩
        · cases h with
          | ok _ => rfl
        · rw [h]
          exact .ok _
  | read limit hlimit requireAll =>
    -- reading does not depend on what was looked at
    obtain ⟨hout, hI, hrest⟩ := (buffered_readData hcap limit requireAll hlimit).bind (fun bytes => .pure (PeekValue.bytes bytes)) s _ ⟨hbuf, rfl⟩
    exact ⟨⟨fun _ => trivial, fun _ => hout⟩, hI, hrest⟩

/-- All values of a sequence of calls are as expected if and only if the condition holds before
every call; in any case the calls lose no byte. -/
theorem run_iff (hcap : 0 < bufCapacity) (cs : List PeekCall) {s : BufferedStreamReader}
    (hbuf : s.buf.length ≤ bufCapacity) :
    (List.Forall₂ (SameOutcome SameFault) (runCalls (peekCall bufCapacity) cs s).1
        (runCalls expectedCall cs (s.buf ++ s.is.rest)).1 ↔ CallsFine bufCapacity cs s) ∧
      (runCalls (peekCall bufCapacity) cs s).2.buf ++
          (runCalls (peekCall bufCapacity) cs s).2.is.rest =
        (runCalls expectedCall cs (s.buf ++ s.is.rest)).2 := by
  induction cs generalizing s with
  | nil => exact ⟨⟨fun _ => trivial, fun _ => .nil⟩, rfl⟩
  | cons c cs ih =>
    obtain ⟨hout, hbuf', hrest⟩ := peekCall_spec hcap hbuf c
    obtain ⟨hiff, hend⟩ := ih hbuf'
    rw [hrest] at hiff hend
    exact ⟨List.forall₂_cons.trans (and_congr hout hiff), hend⟩

end BufferedStreamReader

/-! ## `TransformInputStream` -/

namespace TransformStream

variable {τ ε : Type} (T : Transform τ ε)

/-- `TransformInputStream::peek`, with the value that it returns. `read` copies what was converted
from the output buffer to its beginning, so that it is in the buffer again. -/
def peekInt (s : TransformStream τ) : Except ε Int × TransformStream τ :=
  if s.outBuf ≠ [] then (.ok (firstChar s.outBuf), s)
  else
    match s.read T T.outputBufferSize with
    | (.error e, s) => (.error e, s)
    | (.ok [], s) => (.ok (-1), { s with eof := true })
    | (.ok (b :: bs), s) => (.ok (firstChar (b :: bs)), { s with outBuf := b :: bs ++ s.outBuf })

end TransformStream

/-- A call on a stream. -/
inductive StreamCall
  | peek
  | read (limit : Nat) (hlimit : 0 < limit)

/-- A sequence of calls up to the first exception: what the reads give, and the exception. -/
def TransformStream.run {τ ε : Type} (T : Transform τ ε) :
    List StreamCall → TransformStream τ → List (List UInt8) × Option ε
  | [], _ => ([], none)
  | .peek :: cs, s =>
    match s.peekInt T with
    | (.error e, _) => ([], some e)
    | (.ok _, s) => TransformStream.run T cs s
  | .read limit _ :: cs, s =>
    match s.read T limit with
    | (.error e, _) => ([], some e)
    | (.ok bytes, s) =>
      let (reads, e) := TransformStream.run T cs s
      (bytes :: reads, e)

/-- The calls without those of `peek`. -/
def readsOf : List StreamCall → List StreamCall
  | [] => []
  | .peek :: cs => readsOf cs
  | .read limit hlimit :: cs => .read limit hlimit :: readsOf cs

namespace TransformStream

variable {τ ε : Type} {T : Transform τ ε} {s s₀ s₁ : TransformStream τ}

/-- What a pass leaves: something in the output buffer, or a transform that has just had nothing to
do. -/
def Leaves (T : Transform τ ε) (s : TransformStream τ) : Bool → Prop
  | true => s.outBuf ≠ [] ∧ s.outBuf.length ≤ T.outputBufferSize
  | false => s.outBuf = [] ∧ s.eof = true ∧ s.buf = [] ∧
      ∃ t, T.apply [] T.outputBufferSize t = (.ok ⟨0, []⟩, s.t)

theorem outBuf_fill (s : TransformStream τ) : (s.fill T).outBuf = s.outBuf := by
  unfold fill
  split
  · dsimp only
    split <;> rfl
  · rfl

theorem pass_spec (hout : s.outBuf = []) :
    match s.pass T with
    | .inl (.ok found, s') => Leaves T s' found
    | .inl (.error _, _) => True
    | .inr s' => s'.outBuf = [] := by
  have hfill : (s.fill T).outBuf = [] := (outBuf_fill s).trans hout
  unfold pass
  generalize s.fill T = f at hfill
  by_cases hassert : f.eof = false ∧ f.buf = []
  · rw [if_pos hassert]
    trivial
  · rw [if_neg hassert]
    rcases happly : T.apply f.buf T.outputBufferSize f.t with ⟨r, t⟩
    cases r with
    | error e => trivial
    | ok a =>
      dsimp only
      by_cases hwritten : a.written = []
      · rw [if_neg (not_not.mpr hwritten)]
        by_cases hread : a.read = 0
        · rw [if_pos hread]
          by_cases hend : f.eof = false ∨ f.buf ≠ []
          · rw [if_pos hend]
            trivial
          · rw [if_neg hend]
            rw [not_or, Bool.not_eq_false, not_not] at hend
            obtain ⟨heof, hbuf⟩ := hend
            refine ⟨hfill, heof, hbuf, f.t, ?_⟩
            rw [hbuf] at happly
            obtain ⟨read, written⟩ := a
            obtain rfl : read = 0 := hread
            obtain rfl : written = [] := hwritten
            exact happly
        · rw [if_neg hread]
          exact hfill
      · rw [if_pos hwritten]
        exact ⟨hwritten, T.written_le happly⟩

/-- What the loop leaves. -/
theorem convert_leaves (hout : s.outBuf = []) {found : Bool} (h : s.convert T = (.ok found, s₁)) :
    Leaves T s₁ found := by
  fun_induction convert T s with
  | case1 s r hpass =>
    subst h
    have hspec := pass_spec (T := T) hout
    rw [hpass] at hspec
    exact hspec
  | case2 s s' hpass ih =>
    have hspec := pass_spec (T := T) hout
    rw [hpass] at hspec
    exact ih hspec h

/-- A transform that has nothing to do at the end of its input has nothing to do then either. -/
def Finishes (T : Transform τ ε) : Prop :=
  ∀ t t', T.apply [] T.outputBufferSize t = (.ok ⟨0, []⟩, t') →
    ∃ t'', T.apply [] T.outputBufferSize t' = (.ok ⟨0, []⟩, t'')

/-- The stream has ended. -/
def AtEnd (T : Transform τ ε) (s : TransformStream τ) : Prop :=
  s.outBuf = [] ∧ ∃ s₁, s.convert T = (.ok false, s₁)

theorem convert_of_inl {r : Except ε Bool × TransformStream τ} (h : s.pass T = .inl r) :
    s.convert T = r := by
  unfold convert
  split
  · rename_i r' hr
    exact Sum.inl.inj (hr.symm.trans h)
  · rename_i s' hr
    rw [h] at hr
    cases hr

/-- Behind the end of the stream there is nothing. -/
theorem atEnd_of_leaves (hT : Finishes T) (h : Leaves T s false) : AtEnd T s := by
  obtain ⟨hout, heof, hbuf, t, ht⟩ := h
  obtain ⟨t', ht'⟩ := hT t s.t ht
  have hfill : s.fill T = s := by
    unfold fill
    rw [if_neg (by simp [heof])]
  have hpass : s.pass T = .inl (.ok false, { s with t := t' }) := by
    unfold pass
    rw [hfill]
    rw [if_neg (by simp [heof]), hbuf, ht']
    simp [heof]
  exact ⟨hout, { s with t := t' }, convert_of_inl hpass⟩

/-! ### Looking and reading -/

theorem readFromBuffer_eq (hout : s.outBuf ≠ []) (limit : Nat) :
    s.readFromBuffer T limit = (.ok (s.outBuf.take (min s.outBuf.length limit)),
      { s with outBuf := s.outBuf.drop (min s.outBuf.length limit) }) :=
  if_neg hout

theorem read_eq_of_outBuf (hout : s.outBuf ≠ []) (limit : Nat) :
    s.read T limit = s.readFromBuffer T limit :=
  if_pos hout

theorem read_eq_of_convert (hout : s.outBuf = []) (limit : Nat) :
    s.read T limit =
      match s.convert T with
      | (.error e, s') => (.error e, s')
      | (.ok false, s') => (.ok [], s')
      | (.ok true, s') => s'.readFromBuffer T limit :=
  if_neg (not_not.mpr hout)

/-- A read of some bytes gives the first byte of the buffer. -/
theorem read_first {b : UInt8} {bs : List UInt8} (hcons : s.outBuf = b :: bs) {limit : Nat}
    (hlimit : 0 < limit) : ∃ bytes, (s.readFromBuffer T limit).1 = .ok (b :: bytes) := by
  obtain ⟨n, hn⟩ : ∃ n, min s.outBuf.length limit = n + 1 := by
    refine ⟨min s.outBuf.length limit - 1, ?_⟩
    rw [hcons, List.length_cons]
    omega
  refine ⟨bs.take n, ?_⟩
  rw [readFromBuffer_eq (hcons ▸ List.cons_ne_nil b bs), hn, hcons]
  rfl

/-- What `peek` does when it has to convert. -/
theorem peekInt_eq (hout : s.outBuf = []) :
    s.peekInt T =
      match s.convert T with
      | (.error e, s') => (.error e, s')
      | (.ok false, s') => (.ok (-1), s')
      | (.ok true, s') => (.ok (firstChar s'.outBuf), s') := by
  have hread := read_eq_of_convert (T := T) hout T.outputBufferSize
  unfold peekInt
  rw [if_neg (not_not.mpr hout), hread]
  rcases hconv : s.convert T with ⟨_ | found, s₁⟩
  · rfl
  · have hleaves := convert_leaves hout hconv
    cases found with
    | false =>
      obtain ⟨-, heof, -⟩ := hleaves
      obtain ⟨is, t, buf, outBuf, eof⟩ := s₁
      obtain rfl : eof = true := heof
      rfl
    | true =>
      -- all of the output buffer is copied to its beginning
      obtain ⟨hne, hle⟩ := hleaves
      obtain ⟨is, t, buf, outBuf, eof⟩ := s₁
      dsimp only at hne hle ⊢
      rw [readFromBuffer_eq hne]
      rw [Nat.min_eq_left hle, List.take_length, List.drop_length]
      cases outBuf with
      | nil => exact absurd rfl hne
      | cons b bs => simp

/-- `StreamReader::peekCheck` for what `peek` has given. -/
def checkPeek : Except ε Int → Except (ε ⊕ Fault) Int
  | .error e => .error (.inl e)
  | .ok rc =>
    if rc < 0 then
      if rc = -1 then .error (.inr (.exception peekAtEnd)) else .error (.inr .assertion)
    else .ok rc

/-- What `peekCheck` is for: the first byte of what a read gives, or an exception at the end of the
stream. -/
def expectedCheck : Except ε (List UInt8) → Except (ε ⊕ Fault) Int
  | .error e => .error (.inl e)
  | .ok [] => .error (.inr (.exception peekAtEnd))
  | .ok (b :: _) => .ok b.toNat

theorem checkPeek_nextByte (r : Except ε (List UInt8)) :
    checkPeek (r.map nextByte) = expectedCheck r := by
  rcases r with e | bytes
  · rfl
  · cases bytes with
    | nil => rfl
    | cons b bytes =>
      show checkPeek (.ok (b.toNat : Int)) = _
      rfl

/-- The value of `peek` is right: it is that of the first byte of any read, or -1 if the read finds
the end of the stream; and `peek` fails as the read does. The same for `peekCheck`. -/
def PeekTells (T : Transform τ ε) (s : TransformStream τ) : Prop :=
  ∀ limit, 0 < limit → (s.peekInt T).1 = (s.read T limit).1.map nextByte ∧
    checkPeek (s.peekInt T).1 = expectedCheck (s.read T limit).1

theorem peekTells_iff_peek (s : TransformStream τ) :
    PeekTells T s ↔ ∀ limit, 0 < limit → (s.peekInt T).1 = (s.read T limit).1.map nextByte := by
  constructor
  · exact fun h limit hlimit => (h limit hlimit).1
  · intro h limit hlimit
    have hpeek := h limit hlimit
    exact ⟨hpeek, by rw [hpeek, checkPeek_nextByte]⟩

/-- If there is a next byte, it is below 128. -/
def ByteFine (T : Transform τ ε) (s : TransformStream τ) : Prop :=
  ∀ b bytes, (s.read T 1).1 = .ok (b :: bytes) → b.toNat < 128

/-- For a buffer that is not empty. -/
theorem firstChar_tells_iff (hout : s.outBuf ≠ []) :
    (∀ limit, 0 < limit → (.ok (firstChar s.outBuf) : Except ε Int) =
        (s.readFromBuffer T limit).1.map nextByte) ↔
      ∀ b bytes, (s.readFromBuffer T 1).1 = .ok (b :: bytes) → b.toNat < 128 := by
  obtain ⟨b, bs, hcons⟩ := List.exists_cons_of_ne_nil hout
  obtain ⟨one, hone⟩ := read_first (T := T) hcons Nat.one_pos
  rw [hcons, firstChar_cons, hone]
  have hbyte : (∀ b' bytes, (.ok (b :: one) : Except ε (List UInt8)) = .ok (b' :: bytes) →
      b'.toNat < 128) ↔ b.toNat < 128 := by
    constructor
    · exact fun h => h b one rfl
    · rintro h b' bytes ⟨⟩
      exact h
  rw [hbyte, ← signedChar_eq_iff]
  constructor
  · intro h
    have hfirst := h 1 Nat.one_pos
    rw [hone] at hfirst
    exact Except.ok.inj hfirst
  · intro h limit hlimit
    obtain ⟨bytes, hread⟩ := read_first (T := T) hcons hlimit
    rw [hread, h]
    rfl

theorem peekTells_iff (s : TransformStream τ) : PeekTells T s ↔ ByteFine T s := by
  rw [peekTells_iff_peek]
  unfold ByteFine
  by_cases hout : s.outBuf = []
  · rw [peekInt_eq hout]
    simp only [read_eq_of_convert hout]
    rcases hconv : s.convert T with ⟨_ | found, s₁⟩
    · exact ⟨fun _ b bytes h => (by cases h), fun _ _ _ => rfl⟩
    · cases found with
      | false => exact ⟨fun _ b bytes h => (by cases h), fun _ _ _ => rfl⟩
      | true => exact firstChar_tells_iff (convert_leaves hout hconv).1
  · have hpeek : s.peekInt T = (.ok (firstChar s.outBuf), s) := if_pos hout
    rw [hpeek]
    simp only [read_eq_of_outBuf hout]
    exact firstChar_tells_iff hout

/-! ### Looking changes nothing -/

/-- `s` is `s₀` after some calls of `peek`: nothing has changed, or the output buffer was filled, or
both are at the end. -/
inductive Peeked (T : Transform τ ε) (s₀ : TransformStream τ) : TransformStream τ → Prop
  | same : Peeked T s₀ s₀
  | filled {s : TransformStream τ} : s₀.outBuf = [] → s₀.convert T = (.ok true, s) → Peeked T s₀ s
  | ended {s : TransformStream τ} : AtEnd T s₀ → AtEnd T s → Peeked T s₀ s

/-- The end stays the end. -/
theorem AtEnd.next (hT : Finishes T) (h : AtEnd T s) {found : Bool}
    (hconv : s.convert T = (.ok found, s₁)) : found = false ∧ AtEnd T s₁ := by
  obtain ⟨hout, s', hend⟩ := h
  have hleaves := convert_leaves hout hend
  rw [hconv] at hend
  obtain ⟨hfound, rfl⟩ := Prod.mk.inj hend
  exact ⟨Except.ok.inj hfound, atEnd_of_leaves hT hleaves⟩

/-- A further `peek`. -/
theorem Peeked.peek (hT : Finishes T) (h : Peeked T s₀ s) {v : Int}
    (hpeek : s.peekInt T = (.ok v, s₁)) : Peeked T s₀ s₁ := by
  by_cases hout : s.outBuf = []
  · rw [peekInt_eq hout] at hpeek
    rcases hconv : s.convert T with ⟨_ | found, s'⟩
    · rw [hconv] at hpeek
      cases hpeek
    · have hs : s' = s₁ := by
        rw [hconv] at hpeek
        cases found <;> exact congrArg Prod.snd hpeek
      subst hs
      have hleaves := convert_leaves hout hconv
      cases h with
      | same =>
        cases found with
        | true => exact .filled hout hconv
        | false => exact .ended ⟨hout, s', hconv⟩ (atEnd_of_leaves hT hleaves)
      | filled hout₀ hconv₀ => exact absurd hout (convert_leaves hout₀ hconv₀).1
      | ended hend₀ hend => exact .ended hend₀ (hend.next hT hconv).2
  · have hsame : s.peekInt T = (.ok (firstChar s.outBuf), s) := if_pos hout
    rw [hsame] at hpeek
    obtain ⟨-, rfl⟩ := Prod.mk.inj hpeek
    exact h

/-- A read at the end. -/
theorem AtEnd.read (hT : Finishes T) (h : AtEnd T s) (limit : Nat) :
    ∃ s', s.read T limit = (.ok [], s') ∧ AtEnd T s' := by
  obtain ⟨hout, s', hconv⟩ := h
  refine ⟨s', ?_, (AtEnd.next hT ⟨hout, s', hconv⟩ hconv).2⟩
  rw [read_eq_of_convert hout, hconv]

/-- A read gives the same as without the calls of `peek`. -/
theorem Peeked.read (hT : Finishes T) (h : Peeked T s₀ s) (limit : Nat) :
    (s₀.read T limit).1 = (s.read T limit).1 ∧
      Peeked T (s₀.read T limit).2 (s.read T limit).2 := by
  cases h with
  | same => exact ⟨rfl, .same⟩
  | filled hout hconv =>
    have hne := (convert_leaves hout hconv).1
    have hread : s₀.read T limit = s.read T limit := by
      rw [read_eq_of_convert hout, hconv, read_eq_of_outBuf hne]
    rw [hread]
    exact ⟨rfl, .same⟩
  | ended hend₀ hend =>
    obtain ⟨s₀', hread₀, hend₀'⟩ := hend₀.read hT limit
    obtain ⟨s', hread, hend'⟩ := hend.read hT limit
    rw [hread₀, hread]
    exact ⟨rfl, .ended hend₀' hend'⟩

/-- Where a `peek` fails, the next read would have failed. -/
theorem Peeked.read_of_failed (h : Peeked T s₀ s) {e : ε} (hpeek : s.peekInt T = (.error e, s₁))
    (limit : Nat) : (s₀.read T limit).1 = .error e := by
  have hout : s.outBuf = [] := by
    by_contra hne
    have hsame : s.peekInt T = (.ok (firstChar s.outBuf), s) := if_pos hne
    rw [hsame] at hpeek
    cases hpeek
  rw [peekInt_eq hout] at hpeek
  cases h with
  | same =>
    rw [read_eq_of_convert hout]
    rcases hconv : s.convert T with ⟨e' | found, s'⟩
    · rw [hconv] at hpeek
      cases hpeek
      rfl
    · rw [hconv] at hpeek
      cases found <;> cases hpeek
  | filled hout₀ hconv₀ => exact absurd hout (convert_leaves hout₀ hconv₀).1
  | ended _ hend =>
    obtain ⟨-, s', hconv⟩ := hend
    rw [hconv] at hpeek
    cases hpeek

theorem run_readsOf_of_failed {e : ε} (h : ∀ limit, (s₀.read T limit).1 = .error e)
    (cs : List StreamCall) :
    (run T (readsOf cs) s₀).1 = [] ∧
      ((run T (readsOf cs) s₀).2 = none ∨ (run T (readsOf cs) s₀).2 = some e) := by
  induction cs with
  | nil => exact ⟨rfl, .inl rfl⟩
  | cons call cs ih =>
    cases call with
    | peek => exact ih
    | read limit hlimit =>
      have hread := h limit
      unfold readsOf run
      rcases hr : s₀.read T limit with ⟨r, s'⟩
      rw [hr] at hread
      obtain rfl : r = .error e := hread
      exact ⟨rfl, .inr rfl⟩

/-- The reads of a sequence of calls give the same without the calls of `peek`. Only an exception
may be raised by a `peek` already, which the next read would have raised. -/
theorem run_readsOf (hT : Finishes T) (cs : List StreamCall) (h : Peeked T s₀ s) :
    (run T (readsOf cs) s₀).1 = (run T cs s).1 ∧
      ((run T (readsOf cs) s₀).2 = none ∨ (run T (readsOf cs) s₀).2 = (run T cs s).2) := by
  induction cs generalizing s₀ s with
  | nil => exact ⟨rfl, .inl rfl⟩
  | cons call cs ih =>
    cases call with
    | peek =>
      rcases hp : s.peekInt T with ⟨e | v, s'⟩
      · have hrun : run T (.peek :: cs) s = ([], some e) := by
          unfold run
          rw [hp]
        rw [hrun]
        exact run_readsOf_of_failed (h.read_of_failed hp) cs
      · have hrun : run T (.peek :: cs) s = run T cs s' := by
          rw [run, hp]
        rw [hrun]
        exact ih (h.peek hT hp)
    | read limit hlimit =>
      obtain ⟨hread, hpeeked⟩ := h.read hT limit
      unfold readsOf run
      rcases hr : s.read T limit with ⟨r, s'⟩
      rcases hr₀ : s₀.read T limit with ⟨r₀, s₀'⟩
      rw [hr, hr₀] at hread hpeeked
      obtain rfl : r₀ = r := hread
      cases r₀ with
      | error e => exact ⟨rfl, .inr rfl⟩
      | ok bytes =>
        obtain ⟨hreads, he⟩ := ih hpeeked
        exact ⟨congrArg (bytes :: ·) hreads, he⟩

end TransformStream

/-! ### The converter of character encodings -/

section
variable {c : Conversion convertorBufsize} (iconv : Converter c) {t' : EncodingConvertor c}

/-- A call of `apply` without a source that does nothing leaves nothing. -/
theorem EncodingConvertor.flushed {dstLen : Nat} (hpos : 0 < dstLen) {t : EncodingConvertor c}
    (h : apply iconv true [] dstLen t = (.ok ⟨0, []⟩, t')) :
    t' = ⟨t'.conv, [], []⟩ ∧ c.head t'.conv [] = .incomplete := by
  unfold apply at h
  have hstopped := @stopped _ iconv [] t (min 0 (convertorBufsize - t.inBuf.length))
  simp only [copied, EncodingConvertor.reply, List.take_nil, List.length_nil, Nat.zero_min,
    List.append_nil] at h hstopped
  generalize iconv.call t.conv t.inBuf (convertorBufsize - t.outBuf.length) = reply at h hstopped
  by_cases hstatus : reply.status = .illegal ∨ reply.status = .incomplete ∧ True
  · rw [if_pos hstatus] at h
    cases h
  rw [if_neg hstatus] at h
  rw [not_or] at hstatus
  generalize t.outBuf ++ reply.out = outBuf at h hstopped
  have hempty (hw : min dstLen outBuf.length = 0) : outBuf = [] :=
    List.length_eq_zero_iff.mp (by omega)
  by_cases hw : min dstLen outBuf.length = 0
  · rw [if_pos ⟨trivial, hw⟩] at h
    obtain ⟨-, rfl⟩ := Prod.mk.inj h
    obtain ⟨hdrop, hend⟩ | ⟨hincomplete, -⟩ | hne := hstopped hstatus.1
    · rw [hdrop, hempty hw, List.drop_nil]
      exact ⟨rfl, hend⟩
    · exact absurd ⟨hincomplete, trivial⟩ hstatus.2
    · exact absurd (hempty hw) hne
  · -- another pass means that something was written
    rw [if_neg fun hstop => hw hstop.2] at h
    split at h
    · cases h
    · rename_i a t'' happly
      obtain ⟨ha, -⟩ := Prod.mk.inj h
      have hwritten : outBuf.take (min dstLen outBuf.length) ++ a.written = [] :=
        congrArg Applied.written (Except.ok.inj ha)
      have hlen := congrArg List.length (List.append_eq_nil_iff.mp hwritten).1
      rw [List.length_take, List.length_nil] at hlen
      omega

/-- An empty converter has nothing to flush. -/
theorem EncodingConvertor.apply_empty {st : c.State} (hend : c.head st [] = .incomplete)
    (dstLen : Nat) :
    apply iconv true [] dstLen ⟨st, [], []⟩ = (.ok ⟨0, []⟩, ⟨st, [], []⟩) := by
  unfold apply
  simp only [List.take_nil, List.append_nil, List.nil_append]
  generalize convertorBufsize - ([] : List UInt8).length = room
  obtain ⟨-, hout, hstate⟩ := (iconv.converts st [] room).eq_of_incomplete hend
  have hillegal : (iconv.call st [] room).status ≠ .illegal := by
    intro h
    have hhead := iconv.illegal h
    rw [hstate, List.drop_nil, hend] at hhead
    cases hhead
  have hincomplete : (iconv.call st [] room).status ≠ .incomplete :=
    fun h => (iconv.incomplete h).1 List.drop_nil
  rw [hout, hstate, if_neg fun h => h.elim hillegal fun h => hincomplete h.1, if_pos (by simp),
    List.drop_nil, List.drop_nil]

theorem convertor_finishes : TransformStream.Finishes (convertorTransform iconv) := by
  intro t t' h
  obtain ⟨ht', hend⟩ := EncodingConvertor.flushed iconv outputBufferSize_pos h
  exact ⟨t', ht' ▸ EncodingConvertor.apply_empty iconv hend outputBufferSize⟩

end

/-! ## Both -/

/-- Looking at the next byte of a `BufferedStreamReader` is right in every call of a sequence if and
only if every byte that is looked at is below 128 and, when the buffer has to be filled, the number
of bytes is a positive `int`. For a `TransformInputStream` in any state it is right if and only if
the next byte is below 128. In both looking changes nothing for the reads; only an exception that
the next read would raise is raised by `peek` already. -/
theorem peek_tells_iff {τ ε : Type} (T : Transform τ ε) (hT : TransformStream.Finishes T) :
    (∀ (bufCapacity : Nat) (s : BufferedStreamReader) (cs : List PeekCall), 0 < bufCapacity →
      s.buf.length ≤ bufCapacity →
      (List.Forall₂ (SameOutcome SameFault)
          (runCalls (BufferedStreamReader.peekCall bufCapacity) cs s).1
          (runCalls expectedCall cs (s.buf ++ s.is.rest)).1 ↔
        BufferedStreamReader.CallsFine bufCapacity cs s) ∧
      (runCalls (BufferedStreamReader.peekCall bufCapacity) cs s).2.buf ++
          (runCalls (BufferedStreamReader.peekCall bufCapacity) cs s).2.is.rest =
        (runCalls expectedCall cs (s.buf ++ s.is.rest)).2) ∧
    (∀ s, TransformStream.PeekTells T s ↔ TransformStream.ByteFine T s) ∧
    ∀ cs s, (TransformStream.run T (readsOf cs) s).1 = (TransformStream.run T cs s).1 ∧
      ((TransformStream.run T (readsOf cs) s).2 = none ∨
        (TransformStream.run T (readsOf cs) s).2 = (TransformStream.run T cs s).2) := by
  refine ⟨fun bufCapacity s cs hcap hbuf => BufferedStreamReader.run_iff hcap cs hbuf, ?_⟩
  exact ⟨TransformStream.peekTells_iff, fun cs s => TransformStream.run_readsOf hT cs .same⟩

/-- A stream reader over bytes that come in pieces of two, and a stream with the converter of EUC-JP
to ISO-2022-JP. -/
theorem peek_tells_hiragana :
    0 < 4096 ∧ ([] : List UInt8).length ≤ 4096 ∧
    TransformStream.Finishes (convertorTransform eucJpToIso2022Jp.greedy) ∧
    (List.Forall₂ (SameOutcome SameFault)
        (runCalls (BufferedStreamReader.peekCall 4096) [.peek, .read 2 Nat.two_pos true, .peekCheck]
          ⟨⟨[65, 66], fun _ => 2⟩, []⟩).1
        (runCalls expectedCall [.peek, .read 2 Nat.two_pos true, .peekCheck] [65, 66]).1 ↔
      BufferedStreamReader.CallsFine 4096 [.peek, .read 2 Nat.two_pos true, .peekCheck]
        ⟨⟨[65, 66], fun _ => 2⟩, []⟩) ∧
    (TransformStream.PeekTells (convertorTransform eucJpToIso2022Jp.greedy)
        (.new ⟨.ascii, [], []⟩ [0xa4, 0xa2] fun _ => 1) ↔
      TransformStream.ByteFine (convertorTransform eucJpToIso2022Jp.greedy)
        (.new ⟨.ascii, [], []⟩ [0xa4, 0xa2] fun _ => 1)) :=
  have hfinishes := convertor_finishes eucJpToIso2022Jp.greedy
  ⟨by decide, by decide, hfinishes,
    ((peek_tells_iff _ hfinishes).1 4096 ⟨⟨[65, 66], fun _ => 2⟩, []⟩
      [.peek, .read 2 Nat.two_pos true, .peekCheck] (by decide) (by decide)).1,
    (peek_tells_iff _ hfinishes).2.1 _⟩

/-- The byte 255 is looked at as -1. -/
theorem peek_not_telling :
    ¬List.Forall₂ (SameOutcome SameFault)
      (runCalls (BufferedStreamReader.peekCall 4096) [.peek, .peekCheck, .read 1 Nat.one_pos true]
        ⟨⟨[255], fun _ => 1⟩, []⟩).1
      (runCalls expectedCall [.peek, .peekCheck, .read 1 Nat.one_pos true] [255]).1 := by
  intro h
  have hfine := (BufferedStreamReader.run_iff (by decide)
    [.peek, .peekCheck, .read 1 Nat.one_pos true]
    (s := ⟨⟨[255], fun _ => 1⟩, []⟩) (by decide)).1.mp h
  have hbyte := (hfine.1 255 [] rfl).1
  exact absurd hbyte (by decide)

end Qore.Stream
