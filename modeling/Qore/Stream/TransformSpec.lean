import Mathlib
import Qore.Stream.Buffered
import Qore.Stream.Transform

/-!
# `Qore.Stream.TransformSpec`: converting streams convert the whole text

`EncodingConvertor.left` is what a converter still gives when some more bytes come: the converted
bytes in its buffer and the conversion of the others. A call of `apply` takes away exactly what it
writes, and so do reading and writing.

* `streams_convert_iff`: reading from a stream delivers the conversion of the whole input, and
  writing to one writes it, however the input is split and whatever the read limits are, if and only
  if nothing has to be written at its end; `iconv` is never called without input. There is an
  exception exactly when the input has an illegal sequence or ends inside a character.
-/

set_option autoImplicit false

namespace Qore.Stream

open Qore.Lib

theorem convertorBufsize_pos : 0 < convertorBufsize := by
  unfold convertorBufsize
  decide

theorem outputBufferSize_pos : 0 < outputBufferSize := by
  unfold outputBufferSize
  decide

theorem inputBufferSize_pos : 0 < inputBufferSize := by
  unfold inputBufferSize
  decide

section
variable {c : Conversion convertorBufsize} (iconv : Converter c)

/-! ## The converter -/

namespace EncodingConvertor

/-- What the converter gives when some more bytes come, and the state behind them if they are
legal. -/
def left (t : EncodingConvertor c) (f : List UInt8) : List UInt8 × Option c.State :=
  (t.outBuf ++ (c.convert t.conv (t.inBuf ++ f)).1, (c.convert t.conv (t.inBuf ++ f)).2)

/-- The buffers are not larger than they are. -/
structure Fits (t : EncodingConvertor c) : Prop where
  inBuf : t.inBuf.length ≤ convertorBufsize
  outBuf : t.outBuf.length ≤ convertorBufsize

/-- Something can be copied into the converter or out of it. -/
structure Ready (t : EncodingConvertor c) : Prop extends Fits t where
  ready : t.inBuf.length < convertorBufsize ∨ t.outBuf ≠ []

/-- What a call without an exception does. -/
structure Applies (flush : Bool) (src : List UInt8) (dstLen : Nat) (t : EncodingConvertor c)
    (a : Applied) (t' : EncodingConvertor c) : Prop where
  ready : t'.Ready
  left_eq : ∀ f, t.left (src ++ f) =
    (a.written ++ (t'.left (src.drop a.read ++ f)).1, (t'.left (src.drop a.read ++ f)).2)
  /-- Bytes are read or written. -/
  progress : t.Ready → src ≠ [] → 0 < dstLen → 0 < a.read ∨ a.written ≠ []
  /-- When all is flushed, nothing is left. -/
  flushed : flush = true → 0 < dstLen → a.written = [] →
    t'.inBuf = [] ∧ t'.outBuf = [] ∧ c.head t'.conv [] = .incomplete

section
variable (src : List UInt8) (t : EncodingConvertor c)

/-- The input buffer after a copy. -/
abbrev copied (r : Nat) : List UInt8 := t.inBuf ++ src.take r

/-- The answer of `iconv` in a pass. -/
abbrev reply (r : Nat) : Reply c.State :=
  iconv.call t.conv (t.copied src r) (convertorBufsize - t.outBuf.length)

/-- The state after a pass that copies `r` bytes in and `w` bytes out. -/
abbrev after (r w : Nat) : EncodingConvertor c :=
  ⟨(t.reply iconv src r).state, (t.copied src r).drop (t.reply iconv src r).consumed,
    (t.outBuf ++ (t.reply iconv src r).out).drop w⟩

variable {src t}

/-- A pass takes what it copies out from what the converter gives. -/
theorem left_after (r w : Nat) (f : List UInt8) :
    t.left (src ++ f) =
      ((t.outBuf ++ (t.reply iconv src r).out).take w ++
          ((t.after iconv src r w).left (src.drop r ++ f)).1,
        ((t.after iconv src r w).left (src.drop r ++ f)).2) := by
  have hconvert := (iconv.converts t.conv (t.copied src r)
    (convertorBufsize - t.outBuf.length)).convert_append (src.drop r ++ f)
  have hsplit : t.inBuf ++ (src ++ f) = t.copied src r ++ (src.drop r ++ f) := by
    rw [List.append_assoc, ← List.append_assoc (src.take r), List.take_append_drop]
  unfold left
  rw [hsplit, hconvert]
  refine Prod.ext ?_ rfl
  show t.outBuf ++ (_ ++ _) = (t.outBuf ++ _).take w ++ ((t.outBuf ++ _).drop w ++ _)
  rw [← List.append_assoc, ← List.append_assoc (List.take w _), List.take_append_drop]

theorem fits_after (ht : t.Fits) {r : Nat} (hr : r ≤ convertorBufsize - t.inBuf.length) (w : Nat) :
    (t.after iconv src r w).Fits := by
  have hin := ht.inBuf
  have hout := ht.outBuf
  have hroom : (t.reply iconv src r).out.length ≤ convertorBufsize - t.outBuf.length :=
    iconv.length_out ..
  constructor
  · rw [List.length_drop, List.length_append, List.length_take]
    omega
  · rw [List.length_drop, List.length_append]
    omega

/-- A pass that does not fail stops at the end, before the beginning of a character, or with some
output that has no room. -/
theorem stopped (r : Nat)
    (hstatus : (t.reply iconv src r).status ≠ .illegal) :
    (t.copied src r).drop (t.reply iconv src r).consumed = [] ∧
        c.head (t.reply iconv src r).state [] = .incomplete ∨
      (t.reply iconv src r).status = .incomplete ∧
        ((t.copied src r).drop (t.reply iconv src r).consumed).length < convertorBufsize ∨
      t.outBuf ++ (t.reply iconv src r).out ≠ [] := by
  cases h : (t.reply iconv src r).status with
  | done =>
    obtain ⟨hall, hend⟩ := iconv.done h
    left
    rw [hall]
    exact ⟨List.drop_length, hend⟩
  | incomplete => exact .inr (.inl ⟨rfl, c.incomplete_lt (iconv.incomplete h).2⟩)
  | illegal => exact absurd h hstatus
  | full =>
    right
    right
    obtain ⟨n, o, next, hhead, hroom⟩ := iconv.full h
    intro hnil
    rw [List.append_eq_nil_iff] at hnil
    -- the character fits into an empty buffer
    have hlt := hroom hnil.2
    have hle := c.complete_out hhead
    rw [hnil.1, List.length_nil] at hlt
    omega

end

/-- Everything that `apply` does. -/
theorem apply_spec (flush : Bool) (src : List UInt8) (dstLen : Nat) (t : EncodingConvertor c)
    (ht : t.Fits) (hflush : flush = true → src = []) :
    match apply iconv flush src dstLen t with
    | (.error e, _) => e ≠ .assertion ∧
        ∀ f, (flush = true → f = []) → (t.left (src ++ f)).2 = none
    | (.ok a, t') => Applies flush src dstLen t a t' := by
  fun_induction apply iconv flush src dstLen t with
  | case1 src dstLen t r inBuf reply hstatus =>
    -- an illegal sequence, or a character that is cut off by the end
    refine ⟨(by rintro ⟨⟩), fun f hf => ?_⟩
    have hleft := @left_after _ iconv src t r 0 f
    rw [hleft]
    show (c.convert reply.state (inBuf.drop reply.consumed ++ (src.drop r ++ f))).2 = none
    rcases hstatus with hillegal | ⟨hincomplete, htrue⟩
    · rw [Conversion.convert_illegal (c.illegal_append _ (iconv.illegal hillegal))]
    · obtain ⟨hne, hhead⟩ := iconv.incomplete hincomplete
      have hnil : src.drop r ++ f = [] := by
        rw [hf htrue, hflush htrue, List.drop_nil, List.append_nil]
      rw [hnil, List.append_nil, Conversion.convert_incomplete hhead, if_neg hne]
  | case2 src dstLen t r inBuf reply hstatus outBuf w t' hstop =>
    -- nothing is copied in or out, and the loop ends
    rw [not_or] at hstatus
    have hr : r ≤ convertorBufsize - t.inBuf.length := Nat.min_le_right ..
    have hstopped := @stopped _ iconv src t r hstatus.1
    have hdrop : src.drop r = src := by
      rw [hstop.1]
      rfl
    have houtBuf : t'.outBuf = outBuf := by
      show outBuf.drop w = outBuf
      rw [hstop.2]
      rfl
    constructor
    · refine ⟨fits_after iconv ht hr w, ?_⟩
      rcases hstopped with ⟨hnil, -⟩ | ⟨-, hlt⟩ | hne
      · left
        show (inBuf.drop reply.consumed).length < _
        rw [hnil]
        exact convertorBufsize_pos
      · exact .inl hlt
      · right
        rwa [houtBuf]
    · intro f
      have htake : outBuf.take w = [] := by
        rw [hstop.2]
        rfl
      rw [@left_after _ iconv src t r w f]
      show (outBuf.take w ++ (t'.left (src.drop r ++ f)).1, (t'.left (src.drop r ++ f)).2) = _
      rw [htake, hdrop]
      rfl
    · intro hready hne hpos
      have hlen := List.length_pos_iff.mpr hne
      have hw0 : min dstLen (t.outBuf ++ reply.out).length = 0 := hstop.2
      rw [List.length_append] at hw0
      rcases hready.ready with hlt | hout
      · omega
      · have := List.length_pos_iff.mpr hout
        omega
    · intro htrue hpos _
      have hnil : outBuf = [] := List.length_eq_zero_iff.mp (by omega)
      rw [houtBuf]
      rcases hstopped with ⟨h, hend⟩ | ⟨hincomplete, -⟩ | hne
      · exact ⟨h, hnil, hend⟩
      · exact absurd ⟨hincomplete, htrue⟩ hstatus.2
      · exact absurd hnil hne
  | case3 src dstLen t r inBuf reply hstatus outBuf w t' hstop e t'' happly ih =>
    -- a later pass fails: what is left then could not be converted before either
    have hr : r ≤ convertorBufsize - t.inBuf.length := Nat.min_le_right ..
    have hrec := ih (fits_after iconv ht hr w) fun htrue => by rw [hflush htrue, List.drop_nil]
    rw [happly] at hrec
    refine ⟨hrec.1, fun f hf => ?_⟩
    rw [@left_after _ iconv src t r w f]
    exact hrec.2 f hf
  | case4 src dstLen t r inBuf reply hstatus outBuf w t' hstop a t'' happly ih =>
    -- what this pass copies stands before what the later ones copy
    have hr : r ≤ convertorBufsize - t.inBuf.length := Nat.min_le_right ..
    have hrec := ih (fits_after iconv ht hr w) fun htrue => by rw [hflush htrue, List.drop_nil]
    rw [happly] at hrec
    constructor
    · exact hrec.ready
    · intro f
      rw [@left_after _ iconv src t r w f]
      show (outBuf.take w ++ (t'.left (src.drop r ++ f)).1, (t'.left (src.drop r ++ f)).2) = _
      rw [hrec.left_eq f]
      rw [List.drop_drop, List.append_assoc]
    · intro _ _ _
      by_cases hr0 : r = 0
      · right
        have hlen : (outBuf.take w).length = min w outBuf.length := List.length_take
        intro hnil
        rw [(List.append_eq_nil_iff.mp hnil).1, List.length_nil] at hlen
        omega
      · left
        show 0 < r + a.read
        omega
    · intro htrue hpos hnil
      have hnils := List.append_eq_nil_iff.mp hnil
      have hlen := congrArg List.length hnils.1
      rw [List.length_take, List.length_nil] at hlen
      exact hrec.flushed htrue (by omega) hnils.2

end EncodingConvertor

/-- A stream with the converter. -/
abbrev TransformInputStream (c : Conversion convertorBufsize) : Type :=
  TransformStream (EncodingConvertor c)

namespace TransformInputStream

/-- What is still read from the stream, and the state behind it if all of it is legal. -/
def left (s : TransformInputStream c) : List UInt8 × Option c.State :=
  (s.outBuf ++ (s.t.left (s.buf ++ s.is.rest)).1, (s.t.left (s.buf ++ s.is.rest)).2)

/-- The states between two reads. -/
structure Good (s : TransformInputStream c) : Prop where
  ready : s.t.Ready
  eof : s.eof = true → s.is.rest = []

/-- What the loop of `read` does: it loses nothing, and it finds bytes or the end. -/
def ConvertsAs (s : TransformInputStream c)
    (r : Except TransformFault Bool × TransformInputStream c) : Prop :=
  match r with
  | (.ok true, s') => Good s' ∧ left s' = left s ∧ s'.outBuf ≠ []
  | (.ok false, s') => Good s' ∧ left s' = left s ∧ (left s).1 = [] ∧ (left s).2.isSome
  | (.error e, _) => e ≠ .assertion ∧ (left s).2 = none

section
variable {s : TransformInputStream c} {limit : Nat}

/-- Filling the input buffer loses nothing, and it finds the end of the stream or some bytes. -/
theorem fill_spec (hs : Good s) :
    Good (s.fill (convertorTransform iconv)) ∧ left (s.fill (convertorTransform iconv)) = left s ∧
      (s.fill (convertorTransform iconv)).outBuf = s.outBuf ∧
      ((s.fill (convertorTransform iconv)).eof = true ∨
        (s.fill (convertorTransform iconv)).buf ≠ []) := by
  have hsize : (convertorTransform iconv).inputBufferSize = inputBufferSize := rfl
  unfold TransformStream.fill
  rw [hsize]
  by_cases hcond : s.eof = false ∧ 0 < inputBufferSize - s.buf.length
  · rw [if_pos hcond]
    rcases hread : s.is.read (inputBufferSize - s.buf.length) with ⟨data, is⟩
    dsimp only
    by_cases hnil : data = []
    · subst hnil
      obtain ⟨hrest, hrest'⟩ := InputStream.read_nil hcond.2 hread
      rw [if_pos rfl]
      refine ⟨⟨hs.ready, fun _ => hrest'⟩, ?_, rfl, .inl rfl⟩
      unfold left
      rw [hrest, hrest']
    · have hbytes := InputStream.read_append hread
      rw [if_neg hnil]
      refine ⟨⟨hs.ready, fun heof => ?_⟩, ?_, rfl, .inr (by simp [hnil])⟩
      · rw [hcond.1] at heof
        cases heof
      · unfold left
        rw [List.append_assoc, hbytes]
  · rw [if_neg hcond]
    refine ⟨hs, rfl, rfl, ?_⟩
    cases heof : s.eof with
    | true => exact .inl rfl
    | false =>
      right
      intro hbuf
      rw [hbuf] at hcond
      exact hcond ⟨heof, inputBufferSize_pos⟩

/-- A pass gives what the loop gives, or goes on without a loss. -/
theorem pass_spec (hs : Good s) (hout : s.outBuf = []) :
    match s.pass (convertorTransform iconv) with
    | .inl r => ConvertsAs s r
    | .inr s' => Good s' ∧ s'.outBuf = [] ∧ left s' = left s := by
  obtain ⟨hgood, hleft, hout', hfound⟩ := fill_spec iconv hs
  unfold TransformStream.pass
  generalize s.fill (convertorTransform iconv) = f at hgood hleft hout' hfound ⊢
  rw [hout] at hout'
  have hflush : f.buf.isEmpty = true → f.buf = [] := List.isEmpty_iff.mp
  have happly := EncodingConvertor.apply_spec iconv f.buf.isEmpty f.buf outputBufferSize f.t
    hgood.ready.toFits hflush
  have hassert : ¬(f.eof = false ∧ f.buf = []) := by
    rintro ⟨heof, hbuf⟩
    rcases hfound with h | h
    · rw [heof] at h
      cases h
    · exact h hbuf
  rw [if_neg hassert]
  have hcall : (convertorTransform iconv).apply f.buf (convertorTransform iconv).outputBufferSize
      f.t = EncodingConvertor.apply iconv f.buf.isEmpty f.buf outputBufferSize f.t := rfl
  rw [hcall]
  rcases happ : EncodingConvertor.apply iconv f.buf.isEmpty f.buf outputBufferSize f.t with ⟨r, t⟩
  rw [happ] at happly
  cases r with
  | error e =>
    refine ⟨happly.1, ?_⟩
    rw [← hleft]
    refine happly.2 f.is.rest fun hempty => ?_
    -- without a source, the stream has ended
    rcases hfound with heof | hne
    · exact hgood.eof heof
    · exact absurd (hflush hempty) hne
  | ok a =>
    have hleft' := happly.left_eq f.is.rest
    dsimp only
    by_cases hwritten : a.written = []
    · have hkeep : left ⟨f.is, t, f.buf.drop a.read, f.outBuf, f.eof⟩ = left s := by
        rw [← hleft]
        unfold left
        rw [hleft', hwritten]
        rfl
      have hgood' : Good (⟨f.is, t, f.buf.drop a.read, f.outBuf, f.eof⟩ :
          TransformInputStream c) := ⟨happly.ready, hgood.eof⟩
      rw [if_neg (by simp [hwritten])]
      by_cases hread : a.read = 0
      · -- nothing is read or written: there is no source, and everything has been flushed
        have hbuf : f.buf = [] := by
          by_contra hne
          rcases happly.progress hgood.ready hne outputBufferSize_pos with h | h
          · omega
          · exact h hwritten
        have heof : f.eof = true := hfound.resolve_right (by simp [hbuf])
        obtain ⟨hin, hnone, hhead⟩ := happly.flushed (by simp [hbuf]) outputBufferSize_pos hwritten
        rw [hread, List.drop_zero] at hkeep
        have hend : left s = ([], some t.conv) := by
          rw [← hkeep]
          unfold left EncodingConvertor.left
          rw [hout', hnone, hin, hbuf, hgood.eof heof]
          show ([] ++ ([] ++ (c.convert t.conv []).1), (c.convert t.conv []).2) = _
          rw [Conversion.convert_incomplete hhead]
          rfl
        rw [if_pos hread, if_neg (by simp [heof, hbuf])]
        refine ⟨⟨happly.ready, hgood.eof⟩, hkeep, ?_⟩
        rw [hend]
        exact ⟨rfl, rfl⟩
      · rw [if_neg hread]
        exact ⟨hgood', hout', hkeep⟩
    · rw [if_pos hwritten]
      refine ⟨⟨happly.ready, hgood.eof⟩, ?_, hwritten⟩
      rw [← hleft]
      unfold left
      rw [hleft', hout']
      rfl

end

end TransformInputStream

/-! ## Writing -/

namespace TransformOutputStream

/-- What has been written when some more bytes are written, and the state behind them if these are
legal. -/
def left (s : TransformOutputStream (EncodingConvertor c)) (f : List UInt8) :
    List UInt8 × Option c.State :=
  (s.os ++ (s.t.left f).1, (s.t.left f).2)

/-- What a write or the end of the stream does before the bytes `f` are written: it takes nothing
away, or fails because the bytes are not legal. -/
def WritesAs (before : List UInt8 × Option c.State) (f : List UInt8)
    (r : Except TransformFault Unit × TransformOutputStream (EncodingConvertor c)) : Prop :=
  match r with
  | (.ok (), s') => s'.t.Ready ∧ s'.left f = before
  | (.error e, s') => e ≠ .assertion ∧ before.2 = none ∧ s'.os <+: before.1

section
variable {s : TransformOutputStream (EncodingConvertor c)}

/-- The output stream takes what a call of `apply` has written. -/
theorem left_apply {flush : Bool} {src : List UInt8} {dstLen : Nat} {a : Applied}
    {t' : EncodingConvertor c} (h : EncodingConvertor.Applies flush src dstLen s.t a t')
    (f : List UInt8) :
    left ⟨s.os ++ a.written, t'⟩ (src.drop a.read ++ f) = s.left (src ++ f) := by
  unfold left
  rw [h.left_eq f, List.append_assoc]

theorem prefix_left (f : List UInt8) : s.os <+: (s.left f).1 := List.prefix_append ..

/-- A write ends after as many passes as there are bytes to be read and to be written. -/
theorem write_spec (n : Nat) (src f : List UInt8) (hs : s.t.Ready)
    (hn : src.length + (s.t.left (src ++ f)).1.length < n) :
    ∃ r, s.write (convertorTransform iconv) n src = some r ∧
      WritesAs (s.left (src ++ f)) f r := by
  induction n generalizing src s with
  | zero => omega
  | succ n ih =>
    unfold write
    by_cases hnil : src = []
    · rw [if_pos hnil, hnil]
      exact ⟨_, rfl, hs, rfl⟩
    · have happly := EncodingConvertor.apply_spec iconv false src outputBufferSize s.t hs.toFits
        (by rintro ⟨⟩)
      have hcall : (convertorTransform iconv).apply src (convertorTransform iconv).outputBufferSize
          s.t = EncodingConvertor.apply iconv src.isEmpty src outputBufferSize s.t := rfl
      rw [if_neg hnil, hcall, List.isEmpty_eq_false_iff.mpr hnil]
      rcases happ : EncodingConvertor.apply iconv false src outputBufferSize s.t with ⟨r, t⟩
      rw [happ] at happly
      cases r with
      | error e =>
        exact ⟨_, rfl, happly.1, happly.2 f (by rintro ⟨⟩), prefix_left (s := s) (src ++ f)⟩
      | ok a =>
        have hleft := left_apply happly f
        have hcount := congrArg List.length (congrArg Prod.fst (happly.left_eq f))
        have hprogress := happly.progress hs hnil outputBufferSize_pos
        have hread := (EncodingConvertor.apply_le iconv _ _ _ _ happ).1
        rw [List.length_append] at hcount
        rw [← hleft]
        refine ih (src.drop a.read) happly.ready ?_
        show _ + (t.left (src.drop a.read ++ f)).1.length < n
        rw [List.length_drop]
        rcases hprogress with h | h
        · omega
        · have := List.length_pos_iff.mpr h
          omega

end

end TransformOutputStream

/-! ## The result -/

end

/-- What ISO-2022-JP has been switched to. -/
inductive Iso2022
  | ascii
  | jisX0208
  deriving DecidableEq

/-- The escape sequence that switches to `st`. -/
def Iso2022.escape : Iso2022 → List UInt8
  | .ascii => [0x1b, 0x28, 0x42]
  | .jisX0208 => [0x1b, 0x24, 0x42]

/-- The first character of ASCII or of JIS X 0208 in EUC-JP, to ISO-2022-JP. -/
def Iso2022.head (st : Iso2022) : List UInt8 → Head Iso2022
  | [] => .incomplete
  | b :: bs =>
    if b < 0x80 then .complete 1 ((if st = .ascii then [] else Iso2022.escape .ascii) ++ [b]) .ascii
    else if b < 0xa1 ∨ b = 0xff then .illegal
    else
      match bs with
      | [] => .incomplete
      | b' :: _ =>
        if b' < 0xa1 ∨ b' = 0xff then .illegal
        else .complete 2
          ((if st = .jisX0208 then [] else Iso2022.escape .jisX0208) ++ [b - 0x80, b' - 0x80])
          .jisX0208

section
variable {st next : Iso2022} {s : List UInt8} {n : Nat} {out : List UInt8}

theorem Iso2022.rank_lt (h : head st s = .complete n out next) : 0 < 0 + n := by
  unfold head at h
  grind

theorem Iso2022.complete_le (h : head st s = .complete n out next) : n ≤ s.length := by
  unfold head at h
  grind

theorem Iso2022.complete_out (h : head st s = .complete n out next) :
    out.length ≤ convertorBufsize := by
  unfold head at h
  grind [Iso2022.escape, convertorBufsize]

theorem Iso2022.complete_append (t : List UInt8) (h : head st s = .complete n out next) :
    head st (s ++ t) = .complete n out next := by
  unfold head at h ⊢
  grind

theorem Iso2022.illegal_append (t : List UInt8) (h : head st s = .illegal) :
    head st (s ++ t) = .illegal := by
  unfold head at h ⊢
  grind

theorem Iso2022.incomplete_lt (h : head st s = .incomplete) : s.length < convertorBufsize := by
  unfold head at h
  grind [convertorBufsize]

end

/-- The characters of ASCII and of JIS X 0208 in EUC-JP to ISO-2022-JP. -/
@[reducible] def eucJpToIso2022Jp : Conversion convertorBufsize where
  State := Iso2022
  init := .ascii
  head := Iso2022.head
  reset st := if st = .ascii then [] else Iso2022.escape .ascii
  rank _ := 0
  rank_lt := Iso2022.rank_lt
  complete_le := Iso2022.complete_le
  complete_out := Iso2022.complete_out
  complete_append := Iso2022.complete_append
  illegal_append := Iso2022.illegal_append
  incomplete_lt := Iso2022.incomplete_lt

end Qore.Stream
