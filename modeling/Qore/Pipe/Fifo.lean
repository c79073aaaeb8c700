import Qore.Lib.Lts
import Qore.Lib.Ring
import Qore.Pipe.Model

/-!
# `Qore.Pipe.Fifo`: the pipe is a queue of bytes

With a positive size the pipe keeps the bytes in order: those that were written are those that
were read, then those in the ring buffer, then those that a waiting `write` still has. The
constructor takes any `bufferSize` but sets `size` to it also when the buffer has 4096 bytes
instead, so with a size that is not positive already the first state is out of bounds.

* `readLoop_spec` and `writeLoop_spec`: the two loops on a ring buffer in bounds.
* `step_inv`: every step keeps `Inv`.
* `fifo_iff`: the pipe works as it should in all runs exactly when `bufferSize` is positive.
-/

set_option autoImplicit false

namespace Qore.Pipe

open Qore.Lib

variable {B : Type} {s s' : State B} {ev : Event B}

namespace StreamPipe

/-- The ring buffer is in bounds. -/
structure InBounds (p : StreamPipe B) : Prop where
  size_eq : p.size = p.buffer.length
  count_mem : 0 ≤ p.count ∧ p.count ≤ p.size
  readPtr_mem : 0 ≤ p.readPtr ∧ p.readPtr < p.size

/-- The bytes in the ring buffer. -/
def contents (p : StreamPipe B) : List B := Ring.contents p.buffer p.readPtr.toNat p.count.toNat

variable {p : StreamPipe B}

theorem InBounds.length_contents (h : p.InBounds) : p.contents.length = p.count.toNat := by
  have hsize := h.size_eq
  have hcount := h.count_mem
  exact Ring.length_contents (by omega)

theorem toNat_tmod {a b : Int} (ha : 0 ≤ a) (hb : 0 ≤ b) : (a.tmod b).toNat = a.toNat % b.toNat := by
  rw [Int.tmod_eq_emod_of_nonneg ha, Int.toNat_emod ha hb]

theorem tmod_mem {a b : Int} (ha : 0 ≤ a) (hb : 0 < b) : 0 ≤ a.tmod b ∧ a.tmod b < b :=
  ⟨Int.tmod_nonneg b ha, Int.tmod_lt_of_pos a hb⟩

/-- The pipe after a copy of `w` bytes out of the buffer. -/
def advance (p : StreamPipe B) (w : Int) : StreamPipe B :=
  { p with count := p.count - w, readPtr := (p.readPtr + w).tmod p.size }

theorem InBounds.advance (h : p.InBounds) {w : Int} (hw : 0 ≤ w) (hcount : w ≤ p.count) :
    (p.advance w).InBounds ∧ (p.advance w).contents = p.contents.drop w.toNat := by
  have hsize := h.size_eq
  have hmem := h.count_mem
  have hptr := h.readPtr_mem
  have hmod := tmod_mem (a := p.readPtr + w) (b := p.size) (by omega) (by omega)
  refine ⟨⟨hsize, ?_, hmod⟩, ?_⟩
  · show 0 ≤ p.count - w ∧ p.count - w ≤ p.size
    omega
  · show Ring.contents p.buffer ((p.readPtr + w).tmod p.size).toNat (p.count - w).toNat = _
    have hlen : p.size.toNat = p.buffer.length := by omega
    have hptr' : (p.readPtr + w).toNat = p.readPtr.toNat + w.toNat := by omega
    have hcount' : (p.count - w).toNat = p.count.toNat - w.toNat := by omega
    rw [toNat_tmod (by omega) (by omega), hlen, hptr', hcount']
    exact Ring.contents_advance (by omega) (by omega)

/-- The second loop of `read` returns the first bytes of the buffer, at most `limit`. -/
theorem readLoop_spec {n : Nat} {limit : Int} (dst : List B) (h : p.InBounds) (hn : limit ≤ n) :
    ∃ p', readLoop n p limit dst = .ok (p', dst ++ p.contents.take limit.toNat) ∧
      p'.InBounds ∧ p'.contents = p.contents.drop limit.toNat ∧
      p' = { p with count := p'.count, readPtr := p'.readPtr } := by
  have hsize := h.size_eq
  have hmem := h.count_mem
  have hptr := h.readPtr_mem
  have hlen := h.length_contents
  induction n generalizing p limit dst with
  | zero =>
    refine ⟨p, ?_, h, ?_, rfl⟩
    · unfold readLoop
      rw [if_neg (by omega), Int.toNat_of_nonpos (by omega), List.take_zero, List.append_nil]
    · rw [Int.toNat_of_nonpos (by omega), List.drop_zero]
  | succ n ih =>
    unfold readLoop
    by_cases hgo : p.count > 0 ∧ limit > 0
    · -- one copy, up to the end of the buffer at most
      obtain ⟨w, hw⟩ : ∃ w, w = min limit (min p.count (p.size - p.readPtr)) := ⟨_, rfl⟩
      obtain ⟨hbounds, hrest⟩ := h.advance (w := w) (by omega) (by omega)
      have hread : (p.buffer.drop p.readPtr.toNat).take w.toNat = p.contents.take w.toNat :=
        Ring.contents_read (by omega) (by omega) (by omega)
      rw [if_pos hgo]
      rw [← hw, if_neg (by omega), if_neg (by omega), if_neg (by omega), hread]
      have hleft : limit - w ≤ n := by omega
      obtain ⟨p', hres, hin, hcont, hframe⟩ := ih (dst ++ p.contents.take w.toNat) hbounds hleft
        hbounds.size_eq hbounds.count_mem hbounds.readPtr_mem hbounds.length_contents
      have hsum : w.toNat + (limit - w).toNat = limit.toNat := by omega
      refine ⟨p', ?_, hin, ?_, ?_⟩
      · rw [← hsum, List.take_add, ← List.append_assoc, ← hrest]
        exact hres
      · rw [hcont, hrest, List.drop_drop, hsum]
      · rw [hframe]
        rfl
    · refine ⟨p, ?_, h, ?_, rfl⟩
      · rw [if_neg hgo]
        by_cases hlimit : limit > 0
        · rw [List.eq_nil_of_length_eq_zero (l := p.contents) (by omega), List.take_nil,
            List.append_nil]
        · rw [Int.toNat_of_nonpos (by omega), List.take_zero, List.append_nil]
      · by_cases hlimit : limit > 0
        · rw [List.eq_nil_of_length_eq_zero (l := p.contents) (by omega), List.drop_nil]
        · rw [Int.toNat_of_nonpos (by omega), List.drop_zero]

/-- The pipe after a copy of the bytes `src` into the buffer. -/
def append (p : StreamPipe B) (src : List B) : StreamPipe B :=
  { p with
    buffer := p.buffer.take ((p.readPtr + p.count).tmod p.size).toNat ++ src ++
      p.buffer.drop (((p.readPtr + p.count).tmod p.size).toNat + src.length)
    count := p.count + src.length }

theorem InBounds.append (h : p.InBounds) (src : List B)
    (hfree : (src.length : Int) ≤ p.size - p.count)
    (hend : (src.length : Int) ≤ p.size - (p.readPtr + p.count).tmod p.size) :
    (p.append src).InBounds ∧ (p.append src).contents = p.contents ++ src := by
  have hsize := h.size_eq
  have hmem := h.count_mem
  have hptr := h.readPtr_mem
  refine ⟨⟨?_, ?_, hptr⟩, ?_⟩
  · show p.size = ((_ ++ src ++ _ : List B).length : Int)
    simp only [List.length_append, List.length_take, List.length_drop]
    omega
  · show 0 ≤ p.count + src.length ∧ p.count + src.length ≤ p.size
    omega
  · show Ring.contents (_ ++ src ++ _) p.readPtr.toNat (p.count + src.length).toNat = _
    have hlen : p.size.toNat = p.buffer.length := by omega
    have hsum : (p.readPtr + p.count).toNat = p.readPtr.toNat + p.count.toNat := by omega
    have hcount : (p.count + src.length).toNat = p.count.toNat + src.length := by omega
    rw [toNat_tmod (by omega) (by omega), hlen, hsum, hcount]
    exact Ring.contents_write (by omega) (by omega) (by omega)

theorem outputClosed_of_checkWrite (h : p.checkWrite = none) : p.outputClosed = false := by
  unfold checkWrite at h
  split at h
  · cases h
  · split at h
    · cases h
    · rename_i hopen
      simpa using hopen

/-- The bytes that are not written when the loop ends. -/
def WriteEnd.rest : WriteEnd B → List B
  | .done => []
  | .raise _ rest => rest
  | .wait rest => rest

/-- The loop of `write` appends the first bytes of `src` and leaves the others. It waits only when
the output is open. -/
theorem writeLoop_spec {n : Nat} {src : List B} (h : p.InBounds) (hn : src.length ≤ n) :
    ∃ p' e, writeLoop n p src = .ok (p', e) ∧ p'.InBounds ∧
      (∃ front, src = front ++ e.rest ∧ p'.contents = p.contents ++ front) ∧
      p' = { p with buffer := p'.buffer, count := p'.count } ∧
      (∀ rest, e = .wait rest → p.outputClosed = false) := by
  induction n generalizing p src with
  | zero =>
    refine ⟨p, .done, ?_, h, ⟨[], ?_, ?_⟩, rfl, by simp⟩
    · unfold writeLoop
      rw [if_neg (by omega)]
    · rw [List.eq_nil_of_length_eq_zero (l := src) (by omega)]
      rfl
    · rw [List.append_nil]
  | succ n ih =>
    unfold writeLoop
    by_cases hgo : src.length > 0
    · rw [if_pos hgo]
      cases hcheck : p.checkWrite with
      | some e => exact ⟨p, .raise e src, rfl, h, ⟨[], rfl, by rw [List.append_nil]⟩, rfl, by simp⟩
      | none =>
        dsimp only
        split
        · rename_i hfree
          -- one copy, up to the end of the buffer at most
          have hmem := h.count_mem
          have hptr := h.readPtr_mem
          have hsize := h.size_eq
          have hmod := tmod_mem (a := p.readPtr + p.count) (b := p.size) (by omega) (by omega)
          obtain ⟨w, hw⟩ : ∃ w, w = min (src.length : Int) (min (p.size - p.count)
            (p.size - (p.readPtr + p.count).tmod p.size)) := ⟨_, rfl⟩
          have hlen : (src.take w.toNat).length = w.toNat := by
            rw [List.length_take]
            omega
          obtain ⟨hbounds, hcont⟩ := h.append (src.take w.toNat) (by omega) (by omega)
          rw [← hw, if_neg (by omega), if_neg (by omega), if_neg (by omega)]
          have happend : p.append (src.take w.toNat) =
              { p with
                buffer := p.buffer.take ((p.readPtr + p.count).tmod p.size).toNat ++
                  src.take w.toNat ++
                  p.buffer.drop (((p.readPtr + p.count).tmod p.size).toNat + w.toNat)
                count := p.count + w } := by
            unfold StreamPipe.append
            rw [hlen, Int.toNat_of_nonneg (by omega)]
          rw [← happend]
          have hleft : (src.drop w.toNat).length ≤ n := by
            rw [List.length_drop]
            omega
          obtain ⟨p', e, hres, hin, ⟨front, hsrc, hfront⟩, hframe, hwait⟩ := ih hbounds hleft
          refine ⟨p', e, hres, hin, ⟨src.take w.toNat ++ front, ?_, ?_⟩, ?_, hwait⟩
          · rw [List.append_assoc, ← hsrc, List.take_append_drop]
          · rw [hfront, hcont, List.append_assoc]
          · rw [hframe]
            rfl
        · refine ⟨p, .wait src, rfl, h, ⟨[], rfl, by rw [List.append_nil]⟩, rfl, ?_⟩
          intro rest _
          exact outputClosed_of_checkWrite hcheck
    · refine ⟨p, .done, ?_, h, ⟨[], ?_, ?_⟩, rfl, by simp⟩
      · rw [if_neg hgo]
      · rw [List.eq_nil_of_length_eq_zero (l := src) (by omega)]
        rfl
      · rw [List.append_nil]

end StreamPipe

/-! ### The invariant -/

/-- A waiting `read` has a positive limit. -/
def Reader.Positive : Reader → Prop
  | .reading limit => 0 < limit
  | _ => True

/-- The ring buffer is in bounds, the bytes are in order and nothing wrong has been reported. -/
structure Inv (s : State B) : Prop where
  bounds : s.pipe.InBounds
  order : s.written = s.received ++ s.pipe.contents ++ s.writer.rest
  closed : s.pipe.outputClosed = true → s.writer.rest = []
  limit : s.reader.Positive
  peeked : ∀ b, s.peeked = some b → s.pipe.contents.head? = some b
  eof : s.earlyEof = false
  peek : s.wrongPeek = false
  fault : s.fault = none

/-- The flags of the pipe do not matter for the bytes. -/
theorem Inv.flags (h : Inv s) (broken outputClosed closeFinished : Bool)
    (exception : Option (Option Error)) (hclosed : outputClosed = true → s.writer.rest = []) :
    Inv { s with pipe := { s.pipe with broken, outputClosed, closeFinished, exception } } :=
  { h with
    bounds := ⟨h.bounds.size_eq, h.bounds.count_mem, h.bounds.readPtr_mem⟩
    closed := hclosed }

/-- What the pipe promises: the bytes read are the first ones of those written, an end of stream
is reported only after the writer closed and every byte was read, `peek` returns the byte that the
next `read` returns, the ring buffer is in bounds, and there is no division by zero, no copy
outside of the buffer and no loop without progress. -/
structure Fifo (s : State B) : Prop where
  in_order : s.received <+: s.written
  eof : s.earlyEof = false
  peek : s.wrongPeek = false
  count_mem : 0 ≤ s.pipe.count ∧ s.pipe.count ≤ s.pipe.size
  readPtr_mem : 0 ≤ s.pipe.readPtr ∧ s.pipe.readPtr < s.pipe.size
  fault : s.fault = none

theorem Inv.fifo (h : Inv s) : Fifo s where
  in_order := by
    rw [h.order, List.append_assoc]
    exact List.prefix_append _ _
  eof := h.eof
  peek := h.peek
  count_mem := h.bounds.count_mem
  readPtr_mem := h.bounds.readPtr_mem
  fault := h.fault

theorem inv_init (zero : B) (syncClose : Bool) (timeout : Int) {bufferSize : Int}
    (hsize : 0 < bufferSize) : Inv (State.init zero syncClose timeout bufferSize) where
  bounds := by
    refine ⟨?_, ⟨Int.le_refl 0, Int.le_of_lt hsize⟩, Int.le_refl 0, hsize⟩
    show bufferSize = ((List.replicate _ zero).length : Int)
    rw [List.length_replicate, if_pos hsize]
    omega
  order := rfl
  closed := fun _ => rfl
  limit := trivial
  peeked := fun b hb => by cases hb
  eof := rfl
  peek := rfl
  fault := rfl

/-! ### The writer -/

theorem take_sub_length (front rest : List B) :
    (front ++ rest).take ((front ++ rest).length - rest.length) = front := by
  rw [List.length_append, Nat.add_sub_cancel]
  exact List.take_left

/-- `write`, from a state in which the bytes `src` follow those in the buffer. -/
theorem write_inv {src : List B} (hbounds : s.pipe.InBounds)
    (horder : s.written = s.received ++ s.pipe.contents ++ src) (hlimit : s.reader.Positive)
    (hpeeked : ∀ b, s.peeked = some b → s.pipe.contents.head? = some b) (heof : s.earlyEof = false)
    (hpeek : s.wrongPeek = false) (hfault : s.fault = none) :
    Inv (s.write src).1 := by
  obtain ⟨p', e, hres, hin, ⟨front, hsrc, hcont⟩, hframe, hwait⟩ :=
    StreamPipe.writeLoop_spec hbounds (le_refl src.length)
  have hpeeked' : ∀ b, s.peeked = some b → p'.contents.head? = some b := by
    intro b hb
    rw [hcont, List.head?_append, hpeeked b hb, Option.some_or]
  have horder' : s.written = s.received ++ p'.contents ++ e.rest := by
    rw [horder, hcont, hsrc]
    simp only [List.append_assoc]
  unfold State.write
  rw [hres]
  cases e with
  | done => exact ⟨hin, horder', fun _ => rfl, hlimit, hpeeked', heof, hpeek, hfault⟩
  | wait rest =>
    refine ⟨hin, horder', ?_, hlimit, hpeeked', heof, hpeek, hfault⟩
    intro hclosed
    have hopen : p'.outputClosed = false := by
      rw [hframe]
      exact hwait rest rfl
    rw [hopen] at hclosed
    cases hclosed
  | raise err rest =>
    refine ⟨hin, ?_, fun _ => rfl, hlimit, hpeeked', heof, hpeek, hfault⟩
    show s.written.take (s.written.length - rest.length) = s.received ++ p'.contents ++ []
    rw [List.append_nil, horder']
    exact take_sub_length (s.received ++ p'.contents) rest

theorem closeWait_inv (h : Inv s) (hrest : s.writer.rest = []) : Inv s.closeWait.1 := by
  have horder : s.written = s.received ++ s.pipe.contents ++ [] := by rw [h.order, hrest]
  unfold State.closeWait
  split <;> exact { h with order := horder, closed := fun _ => rfl }

/-- The state without the bytes of a `write` that ends with an exception. -/
theorem abandon_inv (h : Inv s) : Inv { s with
    writer := .idle
    written := s.written.take (s.written.length - s.writer.rest.length) } := by
  refine { h with order := ?_, closed := fun _ => rfl }
  show s.written.take (s.written.length - s.writer.rest.length) =
    s.received ++ s.pipe.contents ++ []
  rw [List.append_nil, h.order]
  exact take_sub_length (s.received ++ s.pipe.contents) s.writer.rest

theorem wakeWriter_inv {timedOut : Bool} (h : Inv s) (hstep : s.wakeWriter timedOut = some (s', ev)) :
    Inv s' := by
  unfold State.wakeWriter at hstep
  split at hstep
  · rename_i rest hw
    have hrest : s.writer.rest = rest := by rw [hw]; rfl
    split at hstep
    · split at hstep
      · cases hstep
      · have habandon := abandon_inv h
        rw [hrest] at habandon
        cases hstep
        exact habandon
    · have horder := h.order
      rw [hrest] at horder
      have hwrite := write_inv h.bounds horder h.limit h.peeked h.eof h.peek h.fault
      rw [Option.some.inj hstep] at hwrite
      exact hwrite
  · rename_i hw
    have hrest : s.writer.rest = [] := by rw [hw]; rfl
    split at hstep
    · split at hstep
      · cases hstep
      · cases hstep
        refine { h with order := ?_, closed := fun _ => rfl }
        show s.written = s.received ++ s.pipe.contents ++ []
        rw [h.order, hrest]
    · have hclose := closeWait_inv h hrest
      rw [Option.some.inj hstep] at hclose
      exact hclose
  · cases hstep

/-! ### The reader -/

theorem count_pos_of_ready {p : StreamPipe B} (h : p.checkRead = .ready) : p.count > 0 := by
  unfold StreamPipe.checkRead at h
  split at h
  · cases h
  · split at h
    · cases h
    · split at h
      · assumption
      · split at h <;> cases h

theorem closed_of_eof {p : StreamPipe B} (h : p.checkRead = .eof) :
    ¬p.count > 0 ∧ p.outputClosed = true := by
  unfold StreamPipe.checkRead at h
  split at h
  · cases h
  · split at h
    · cases h
    · split at h
      · cases h
      · rename_i hcount
        split at h
        · rename_i hclosed
          exact ⟨hcount, hclosed⟩
        · cases h

variable [DecidableEq B]

/-- Without a `write` in progress and without bytes in the buffer, every byte has been read. -/
theorem reportEof_inv (h : Inv s) (hcheck : s.pipe.checkRead = .eof) : Inv s.reportEof := by
  obtain ⟨hcount, hclosed⟩ := closed_of_eof hcheck
  have hempty : s.pipe.contents = [] := by
    apply List.eq_nil_of_length_eq_zero
    rw [h.bounds.length_contents]
    omega
  have hall : s.received = s.written := by
    rw [h.order, hempty, h.closed hclosed, List.append_nil, List.append_nil]
  refine { h with limit := trivial, eof := ?_ }
  show (s.earlyEof || !(s.pipe.outputClosed && decide (s.received = s.written))) = false
  rw [h.eof, hclosed, decide_eq_true hall]
  rfl

theorem read_inv (h : Inv s) {limit : Int} (hlimit : 0 < limit) : Inv (s.read limit).1 := by
  unfold State.read
  split
  · exact { h with limit := trivial }
  · exact { h with limit := hlimit }
  · rename_i hcheck
    exact reportEof_inv h hcheck
  · rename_i hcheck
    obtain ⟨p', hres, hin, hcont, hframe⟩ :=
      StreamPipe.readLoop_spec [] h.bounds (Int.self_le_toNat limit)
    rw [hres]
    have hclosed : p'.outputClosed = s.pipe.outputClosed := by rw [hframe]
    refine ⟨hin, ?_, ?_, trivial, by simp, h.eof, ?_, h.fault⟩
    · show s.written = s.received ++ ([] ++ s.pipe.contents.take limit.toNat) ++ p'.contents ++
        s.writer.rest
      have hsplit := List.take_append_drop limit.toNat s.pipe.contents
      rw [hcont, List.nil_append, List.append_assoc s.received, hsplit]
      exact h.order
    · show p'.outputClosed = true → _
      rw [hclosed]
      exact h.closed
    · -- the bytes start with the first byte of the buffer, which is the one that `peek` returned
      show (s.wrongPeek || s.peeked.any _) = false
      rw [h.peek, Bool.false_or]
      cases hp : s.peeked with
      | none => rfl
      | some b =>
        have hhead := h.peeked b hp
        have hfirst : (s.pipe.contents.take limit.toNat).head? = some b := by
          rw [List.head?_take, if_neg (by omega), hhead]
        simp [hfirst]

theorem peek_inv (h : Inv s) : Inv s.peek.1 := by
  unfold State.peek
  split
  · exact { h with limit := trivial }
  · exact { h with limit := trivial }
  · rename_i hcheck
    exact reportEof_inv h hcheck
  · rename_i hcheck
    have hpos := count_pos_of_ready hcheck
    have hsize := h.bounds.size_eq
    have hptr := h.bounds.readPtr_mem
    have hstart : s.pipe.buffer[s.pipe.readPtr.toNat]? = s.pipe.contents[0]? :=
      Ring.getElem?_start (by omega) (by omega)
    split
    · rename_i b hb
      refine { h with limit := trivial, peeked := ?_ }
      intro c hc
      rw [← Option.some.inj hc, List.head?_eq_getElem?, ← hstart, hb]
    · rename_i hnone
      rw [List.getElem?_eq_none_iff] at hnone
      omega

theorem wakeReader_inv {timedOut : Bool} (h : Inv s) (hstep : s.wakeReader timedOut = some (s', ev)) :
    Inv s' := by
  unfold State.wakeReader at hstep
  split at hstep
  · rename_i limit hr
    have hlimit := h.limit
    rw [hr] at hlimit
    split at hstep
    · split at hstep
      · cases hstep
      · cases hstep
        exact { h with limit := trivial }
    · have hread := read_inv h hlimit
      rw [Option.some.inj hstep] at hread
      exact hread
  · split at hstep
    · split at hstep
      · cases hstep
      · cases hstep
        exact { h with limit := trivial }
    · have hpeek := peek_inv h
      rw [Option.some.inj hstep] at hpeek
      exact hpeek
  · cases hstep

/-! ### Runs -/

/-- Every step keeps the invariant. -/
theorem step_inv {a : Act B} (h : Inv s) (hstep : s.step a = some (s', ev)) : Inv s' := by
  cases a with
  | write chunk =>
    dsimp only [State.step] at hstep
    split at hstep
    · rename_i hw
      have horder : s.written ++ chunk = s.received ++ s.pipe.contents ++ chunk := by
        rw [h.order, hw]
        simp [Writer.rest]
      have hwrite := write_inv (s := { s with written := s.written ++ chunk }) h.bounds horder
        h.limit h.peeked h.eof h.peek h.fault
      rw [Option.some.inj hstep] at hwrite
      exact hwrite
    · cases hstep
  | close =>
    dsimp only [State.step] at hstep
    split at hstep
    · rename_i hw
      have hrest : s.writer.rest = [] := by rw [hw]; rfl
      unfold State.close at hstep
      split at hstep
      · cases hstep
        exact h
      · have hset := h.flags s.pipe.broken true s.pipe.closeFinished s.pipe.exception
          fun _ => hrest
        have hclose := closeWait_inv hset hrest
        rw [Option.some.inj hstep] at hclose
        exact hclose
    · cases hstep
  | wakeWriter timedOut => exact wakeWriter_inv h hstep
  | destroyOutput =>
    dsimp only [State.step] at hstep
    split at hstep
    · rename_i hw
      cases hstep
      have hset := h.flags (if s.pipe.outputClosed then s.pipe.broken else true)
        s.pipe.outputClosed s.pipe.closeFinished s.pipe.exception h.closed
      refine { hset with order := ?_, closed := fun _ => rfl }
      show s.written = s.received ++ s.pipe.contents ++ []
      rw [h.order, hw]
      rfl
    · cases hstep
  | read limit =>
    dsimp only [State.step] at hstep
    split at hstep
    · split at hstep
      · rename_i hlimit
        have hread := read_inv h hlimit
        rw [Option.some.inj hstep] at hread
        exact hread
      · cases hstep
    · cases hstep
  | peek =>
    dsimp only [State.step] at hstep
    split at hstep
    · have hpeek := peek_inv h
      rw [Option.some.inj hstep] at hpeek
      exact hpeek
    · cases hstep
  | wakeReader timedOut => exact wakeReader_inv h hstep
  | finishClose =>
    dsimp only [State.step] at hstep
    split at hstep
    · cases hstep
      exact h.flags s.pipe.broken s.pipe.outputClosed true s.pipe.exception h.closed
    · cases hstep
  | destroyInput =>
    dsimp only [State.step] at hstep
    split at hstep
    · cases hstep
      have hset := h.flags true s.pipe.outputClosed s.pipe.closeFinished s.pipe.exception h.closed
      exact { hset with limit := trivial }
    · cases hstep
  | reportError ex =>
    cases hstep
    exact h.flags s.pipe.broken s.pipe.outputClosed s.pipe.closeFinished (some ex) h.closed

/-- The pipe keeps its promise in every state of every run exactly when the size of the buffer is
positive. -/
theorem fifo_iff (zero : B) (syncClose : Bool) (timeout bufferSize : Int) :
    (∀ as, Lts.Always State.step Fifo (State.init zero syncClose timeout bufferSize) as) ↔
      0 < bufferSize := by
  constructor
  · intro h
    exact (h []).readPtr_mem.2
  · intro hsize as
    have hsteps : ∀ (s : State B) a s' b, Inv s → s.step a = some (s', b) → Inv s' :=
      fun s a s' b hs hstep => step_inv hs hstep
    have halways := Lts.always_of_step hsteps as _ (inv_init zero syncClose timeout hsize)
    exact Lts.Always.mono (fun s hs => hs.fifo) as _ halways

/-- A pipe with the size 0: its buffer has 4096 bytes, the read pointer is not below the size, and
the first byte that is written waits for space that never comes. -/
theorem zeroSize_fails :
    (State.init (0 : Nat) true (-1) 0).pipe.buffer.length = 4096 ∧
    ¬Fifo (State.init (0 : Nat) true (-1) 0) ∧
    ((State.init (0 : Nat) true (-1) 0).step (.write [1])).map (fun r => r.1.writer.rest) =
      some [1] := by
  refine ⟨List.length_replicate, ?_, rfl⟩
  intro h
  exact absurd h.readPtr_mem.2 (by decide)

end Qore.Pipe
