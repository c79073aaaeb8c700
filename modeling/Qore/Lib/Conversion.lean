import Mathlib.Data.List.Basic

/-!
# `Qore.Lib.Conversion`: converting characters in pieces

A conversion says what stands at the start of some bytes: a character and its bytes in another
encoding, the beginning of a character, or an illegal sequence. It has a state, for byte order marks
and shift sequences, and bytes that are written at the end to leave this state. `convert` applies it
to some bytes, and `whole` to a whole text. A converter applies it to a piece of the text, with room
for some output, and stops at the end, before an incomplete or illegal sequence, or when the next
character does not fit.

* `Converts.convert_eq`: a text can be converted in pieces.
* `Conversion.greedy`: every conversion has a converter.
-/

set_option autoImplicit false

namespace Qore.Lib

/-- What stands at the start of some bytes. A byte order mark is written as a character without
bytes. At the end of the text a character is incomplete. -/
inductive Head (σ : Type)
  | complete (n : Nat) (out : List UInt8) (next : σ)
  | incomplete
  | illegal

/-- A conversion of characters that are shorter than `bound` bytes, to at most `bound` bytes. What
stands at the start of some bytes does not change when more bytes follow, unless it is incomplete.
`reset` is what is written at the end. -/
structure Conversion (bound : Nat) where
  State : Type
  init : State
  head : State → List UInt8 → Head State
  reset : State → List UInt8
  /-- How many characters without bytes can follow. -/
  rank : State → Nat
  rank_lt {st next : State} {s : List UInt8} {n : Nat} {out : List UInt8} :
    head st s = .complete n out next → rank next < rank st + n
  complete_le {st next : State} {s : List UInt8} {n : Nat} {out : List UInt8} :
    head st s = .complete n out next → n ≤ s.length
  complete_out {st next : State} {s : List UInt8} {n : Nat} {out : List UInt8} :
    head st s = .complete n out next → out.length ≤ bound
  complete_append {st next : State} {s : List UInt8} {n : Nat} {out : List UInt8}
    (t : List UInt8) : head st s = .complete n out next → head st (s ++ t) = .complete n out next
  illegal_append {st : State} {s : List UInt8} (t : List UInt8) :
    head st s = .illegal → head st (s ++ t) = .illegal
  incomplete_lt {st : State} {s : List UInt8} : head st s = .incomplete → s.length < bound

namespace Conversion

section
variable {bound : Nat} (c : Conversion bound)

theorem measure_lt {c : Conversion bound} {st next : c.State} {s : List UInt8} {n : Nat}
    {out : List UInt8} (h : c.head st s = .complete n out next) :
    c.rank next + (s.drop n).length < c.rank st + s.length := by
  have hrank := c.rank_lt h
  have hle := c.complete_le h
  rw [List.length_drop]
  omega

/-- The conversion of some bytes, and the state behind them if they are all complete characters.
What stands before a sequence that is not a character is converted. -/
def convert (st : c.State) (s : List UInt8) : List UInt8 × Option c.State :=
  match h : c.head st s with
  | .complete n out next => (out ++ (convert next (s.drop n)).1, (convert next (s.drop n)).2)
  | .incomplete => ([], if s = [] then some st else none)
  | .illegal => ([], none)
termination_by c.rank st + s.length
decreasing_by all_goals exact measure_lt h

/-- The conversion of a whole text, with what is written at its end; and whether it is legal. -/
def whole (s : List UInt8) : List UInt8 × Bool :=
  match c.convert c.init s with
  | (out, some st) => (out ++ c.reset st, true)
  | (out, none) => (out, false)

/-- The first `n` bytes are characters, `out` is their conversion, and `next` is the state behind
them. -/
inductive Converts : c.State → List UInt8 → Nat → List UInt8 → c.State → Prop
  | nil {st : c.State} {s : List UInt8} : Converts st s 0 [] st
  | cons {st st' next : c.State} {s : List UInt8} {n m : Nat} {o out : List UInt8} :
      c.head st s = .complete n o st' → Converts st' (s.drop n) m out next →
        Converts st s (n + m) (o ++ out) next

variable {c} {st next : c.State} {s : List UInt8} {n : Nat} {out : List UInt8}

theorem convert_complete (h : c.head st s = .complete n out next) :
    c.convert st s = (out ++ (c.convert next (s.drop n)).1, (c.convert next (s.drop n)).2) := by
  rw [convert]
  split
  · rename_i n' out' next' h'
    rw [h] at h'
    cases h'
    rfl
  · rename_i h'
    rw [h] at h'
    cases h'
  · rename_i h'
    rw [h] at h'
    cases h'

theorem convert_incomplete (h : c.head st s = .incomplete) :
    c.convert st s = ([], if s = [] then some st else none) := by
  rw [convert]
  split
  · rename_i h'
    rw [h] at h'
    cases h'
  · rfl
  · rename_i h'
    rw [h] at h'
    cases h'

theorem convert_illegal (h : c.head st s = .illegal) : c.convert st s = ([], none) := by
  rw [convert]
  split
  · rename_i h'
    rw [h] at h'
    cases h'
  · rename_i h'
    rw [h] at h'
    cases h'
  · rfl

theorem Converts.le_length (h : c.Converts st s n out next) : n ≤ s.length := by
  induction h with
  | nil => omega
  | @cons st st' next s n m o out hhead _ ih =>
    have hle := c.complete_le hhead
    rw [List.length_drop] at ih
    omega

theorem Converts.append (h : c.Converts st s n out next) (t : List UInt8) :
    c.Converts st (s ++ t) n out next := by
  induction h with
  | nil => exact .nil
  | cons hhead _ ih =>
    rw [← List.drop_append_of_le_length (c.complete_le hhead)] at ih
    exact .cons (c.complete_append t hhead) ih

/-- A text can be converted in pieces. -/
theorem Converts.convert_eq (h : c.Converts st s n out next) :
    c.convert st s = (out ++ (c.convert next (s.drop n)).1, (c.convert next (s.drop n)).2) := by
  induction h with
  | nil => rfl
  | cons hhead _ ih =>
    rw [convert_complete hhead, ih, List.drop_drop, List.append_assoc]

/-- The same with more bytes behind the first piece. -/
theorem Converts.convert_append (h : c.Converts st s n out next) (t : List UInt8) :
    c.convert st (s ++ t) =
      (out ++ (c.convert next (s.drop n ++ t)).1, (c.convert next (s.drop n ++ t)).2) := by
  rw [(h.append t).convert_eq, List.drop_append_of_le_length h.le_length]

/-- Where nothing is complete, nothing is converted. -/
theorem Converts.eq_of_incomplete (hst : c.head st s = .incomplete)
    (h : c.Converts st s n out next) : n = 0 ∧ out = [] ∧ next = st := by
  cases h with
  | nil => exact ⟨rfl, rfl, rfl⟩
  | cons hhead _ =>
    rw [hst] at hhead
    cases hhead

end

end Conversion

/-! ## Converters -/

/-- Why a converter stops. -/
inductive Status
  | done
  | incomplete
  | illegal
  | full
  deriving DecidableEq

structure Reply (σ : Type) where
  consumed : Nat
  out : List UInt8
  state : σ
  status : Status

/-- A converter: in a state it is called with some bytes and the room for its output. It stops for
lack of room only before a character, and when it has no output, this character does not fit. -/
structure Converter {bound : Nat} (c : Conversion bound) where
  call : c.State → List UInt8 → Nat → Reply c.State
  converts (st : c.State) (s : List UInt8) (room : Nat) :
    c.Converts st s (call st s room).consumed (call st s room).out (call st s room).state
  length_out (st : c.State) (s : List UInt8) (room : Nat) : (call st s room).out.length ≤ room
  done {st : c.State} {s : List UInt8} {room : Nat} : (call st s room).status = .done →
    (call st s room).consumed = s.length ∧ c.head (call st s room).state [] = .incomplete
  incomplete {st : c.State} {s : List UInt8} {room : Nat} :
    (call st s room).status = .incomplete → s.drop (call st s room).consumed ≠ [] ∧
      c.head (call st s room).state (s.drop (call st s room).consumed) = .incomplete
  illegal {st : c.State} {s : List UInt8} {room : Nat} : (call st s room).status = .illegal →
    c.head (call st s room).state (s.drop (call st s room).consumed) = .illegal
  full {st : c.State} {s : List UInt8} {room : Nat} : (call st s room).status = .full →
    ∃ n o next,
      c.head (call st s room).state (s.drop (call st s room).consumed) = .complete n o next ∧
        ((call st s room).out = [] → room < o.length)

section
variable {bound : Nat} (c : Conversion bound)

/-- Convert as many characters as fit. -/
def Conversion.greedyCall (st : c.State) (s : List UInt8) (room : Nat) : Reply c.State :=
  match h : c.head st s with
  | .complete n o next =>
    if o.length ≤ room then
      let r := greedyCall next (s.drop n) (room - o.length)
      { r with consumed := n + r.consumed, out := o ++ r.out }
    else ⟨0, [], st, .full⟩
  | .incomplete => ⟨0, [], st, if s = [] then .done else .incomplete⟩
  | .illegal => ⟨0, [], st, .illegal⟩
termination_by c.rank st + s.length
decreasing_by exact Conversion.measure_lt h

/-- Every conversion has a converter. -/
def Conversion.greedy : Converter c where
  call := c.greedyCall
  converts st s room := by
    fun_induction c.greedyCall st s room with
    | case1 st s room n o next hhead hfit r ih => exact .cons hhead ih
    | case2 => exact .nil
    | case3 => exact .nil
    | case4 => exact .nil
  length_out st s room := by
    fun_induction c.greedyCall st s room with
    | case1 st s room n o next hhead hfit r ih =>
      have hrest : r.out.length ≤ room - o.length := ih
      show (o ++ r.out).length ≤ room
      rw [List.length_append]
      omega
    | case2 => exact Nat.zero_le _
    | case3 => exact Nat.zero_le _
    | case4 => exact Nat.zero_le _
  done {st s room} := by
    fun_induction c.greedyCall st s room with
    | case1 st s room n o next hhead hfit r ih =>
      intro hstatus
      have hrest : r.consumed = (s.drop n).length := (ih hstatus).1
      have hle := c.complete_le hhead
      rw [List.length_drop] at hrest
      refine ⟨?_, (ih hstatus).2⟩
      show n + r.consumed = s.length
      omega
    | case2 => exact nofun
    | case3 st s room hhead =>
      intro hstatus
      by_cases hnil : s = []
      · subst hnil
        exact ⟨rfl, hhead⟩
      · rw [if_neg hnil] at hstatus
        cases hstatus
    | case4 => exact nofun
  incomplete {st s room} := by
    fun_induction c.greedyCall st s room with
    | case1 st s room n o next hhead hfit r ih =>
      rw [← List.drop_drop]
      exact ih
    | case2 => exact nofun
    | case3 st s room hhead =>
      intro hstatus
      by_cases hnil : s = []
      · rw [if_pos hnil] at hstatus
        cases hstatus
      · exact ⟨hnil, hhead⟩
    | case4 => exact nofun
  illegal {st s room} := by
    fun_induction c.greedyCall st s room with
    | case1 st s room n o next hhead hfit r ih =>
      rw [← List.drop_drop]
      exact ih
    | case2 => exact nofun
    | case3 st s room hhead =>
      intro hstatus
      split at hstatus <;> cases hstatus
    | case4 st s room hhead => exact fun _ => hhead
  full {st s room} := by
    fun_induction c.greedyCall st s room with
    | case1 st s room n o next hhead hfit r ih =>
      intro hstatus
      obtain ⟨m, p, next', hrest, hroom⟩ := ih hstatus
      refine ⟨m, p, next', ?_, fun hnil => ?_⟩
      · rw [← List.drop_drop]
        exact hrest
      · obtain ⟨rfl, hout⟩ := List.append_eq_nil_iff.mp hnil
        have := hroom hout
        omega
    | case2 st s room n o next hhead hfit =>
      exact fun _ => ⟨n, o, next, hhead, fun _ => Nat.lt_of_not_le hfit⟩
    | case3 st s room hhead =>
      intro hstatus
      split at hstatus <;> cases hstatus
    | case4 => exact nofun

end

end Qore.Lib
