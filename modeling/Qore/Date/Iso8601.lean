import Qore.Date.Seconds
import Qore.Lib.Decimal

/-!
# `Qore.Date.Iso8601`: reading a duration

`qore_relative_time::setIso8601` reads a text of the form `P1Y2M3DT4H5M6.7S` from a C string. Every
read of the model is at a place of the memory that holds the string: the characters, then the
terminator. A read behind the terminator stops the model with `beyond`.

A number after the decimal point is an exact fraction here.

* `loop_items`: what is read from a sequence of numbers with their units.
* `setIso8601_in_bounds_iff`: the texts for which no read is behind the terminator.
-/

set_option autoImplicit false

namespace Qore.Date

open Qore.Lib Qore.Lib.Decimal

/-! ### The reader -/

/-- The terminator. -/
def nul : Char := Char.ofNat 0

/-- The characters of a C string. -/
structure CString where
  chars : List Char
  noNul : nul ∉ chars

/-- The memory from the place of a pointer on. -/
abbrev Cursor := List Char

def CString.memory (s : CString) : Cursor := s.chars ++ [nul]

/-- Why the reader of the model stops: a read behind the terminator, or more rounds of a loop than
there are characters. -/
inductive Stop where
  | beyond
  | unending
  deriving DecidableEq

/-- `*p`. -/
def Cursor.read : Cursor → Except Stop Char
  | [] => .error .beyond
  | c :: _ => .ok c

/-- The loop `while (isdigit(*p)) ++p;`: the digits that it passes. -/
def scanDigits : Cursor → Except Stop (List Char × Cursor)
  | [] => .error .beyond
  | c :: p =>
    if c.isDigit then do
      let (ds, q) ← scanDigits p
      return (c :: ds, q)
    else .ok ([], c :: p)

/-- `rc` after the digits `ds`; `none` when an `int` overflows. -/
def accumulate (rc : Int) : List Char → Option Int
  | [] => some rc
  | c :: ds => do
    let tens ← checkedInt (10 * rc)
    let rc ← checkedInt (tens + (c.toNat - '0'.toNat : Nat))
    accumulate rc ds

/-- A number that was read: its integer part, `none` when an `int` overflows, and its fraction. -/
structure Number where
  val : Option Int
  d : ℚ
  deriving DecidableEq

/-- `rc * sign`. -/
def withSign (neg : Bool) (rc : Option Int) : Option Int :=
  rc.bind fun rc => checkedInt (if neg then -rc else rc)

/-- `get_int_or_float` after the sign. No digit is an error. -/
def getUnsigned (neg : Bool) (p : Cursor) : Except Stop (Option Number × Cursor) := do
  let c ← p.read
  if c.isDigit then
    let (ds, p) ← scanDigits p
    let c ← Cursor.read p
    if c = '.' then
      let (fs, p) ← scanDigits p.tail
      return (some ⟨withSign neg (accumulate 0 ds), fraction fs⟩, p)
    else return (some ⟨withSign neg (accumulate 0 ds), 0⟩, p)
  else return (none, p)

/-- `get_int_or_float`. -/
def getIntOrFloat (p : Cursor) : Except Stop (Option Number × Cursor) := do
  let c ← p.read
  if c = '-' then getUnsigned true p.tail else getUnsigned false p

/-! ### Adding a number to the duration -/

/-- `(int)d`. -/
def truncRat (d : ℚ) : Int := d.num.tdiv d.den

namespace RelTime

/-- `qore_relative_time::addFractionalSecond`; `none` when an `int` overflows. -/
def addFractionalSecond (t : RelTime) (d : ℚ) : Option RelTime := do
  let us ← checkedInt (truncRat (t.us + d * 1000000))
  return { t with us }

/-- `qore_relative_time::addFractionalMinute`. -/
def addFractionalMinute (t : RelTime) (d : ℚ) : Option RelTime := do
  let d := d * 60
  let second ← checkedInt (t.second + truncRat d)
  addFractionalSecond { t with second } (d - truncRat d)

/-- `qore_relative_time::addFractionalHour`. -/
def addFractionalHour (t : RelTime) (d : ℚ) : Option RelTime := do
  let d := d * 60
  let minute ← checkedInt (t.minute + truncRat d)
  addFractionalMinute { t with minute } (d - truncRat d)

/-- `qore_relative_time::addFractionalDay`. -/
def addFractionalDay (t : RelTime) (d : ℚ) : Option RelTime := do
  let d := d * 24
  let hour ← checkedInt (t.hour + truncRat d)
  addFractionalHour { t with hour } (d - truncRat d)

/-- `qore_relative_time::addFractionalMonth`, with 30 days for a month. -/
def addFractionalMonth (t : RelTime) (d : ℚ) : Option RelTime := do
  let d := d * 30
  let day ← checkedInt (t.day + truncRat d)
  addFractionalDay { t with day } (d - truncRat d)

/-- `qore_relative_time::addFractionalYear`, with 365 days for a year. -/
def addFractionalYear (t : RelTime) (d : ℚ) : Option RelTime := do
  let d := d * 365
  let day ← checkedInt (t.day + truncRat d)
  addFractionalDay { t with day } (d - truncRat d)

/-- `if (d) add(d);`. -/
def addIf (add : RelTime → ℚ → Option RelTime) (d : ℚ) (t : RelTime) : Option RelTime :=
  if d = 0 then some t else add t d

/-- The `switch` on the unit of a number; `time` says that the time part has begun. -/
def addUnit (time : Bool) (unit : Char) (val : Int) (d : ℚ) (t : RelTime) : Option RelTime :=
  if unit = 'Y' ∨ unit = 'y' then do
    let year ← checkedInt (t.year + val)
    addIf addFractionalYear d { t with year }
  else if unit = 'M' ∨ unit = 'm' then
    if time then do
      let minute ← checkedInt (t.minute + val)
      addIf addFractionalMinute d { t with minute }
    else do
      let month ← checkedInt (t.month + val)
      addIf addFractionalMonth d { t with month }
  else if unit = 'D' ∨ unit = 'd' then do
    let day ← checkedInt (t.day + val)
    addIf addFractionalDay d { t with day }
  else if unit = 'H' ∨ unit = 'h' then do
    let hour ← checkedInt (t.hour + val)
    addIf addFractionalHour d { t with hour }
  else if unit = 'S' ∨ unit = 's' then do
    let second ← checkedInt (t.second + val)
    addIf addFractionalSecond d { t with second }
  else if unit = 'u' then do
    let us ← checkedInt (t.us + val)
    return { t with us }
  else some t

end RelTime

/-- The units with `if (!time) return;`. -/
def needsTime (unit : Char) : Bool := unit ∈ ['H', 'h', 'S', 's', 'u']

/-- The duration after a number with its unit; `none` after an overflow. -/
def Number.addTo (n : Number) (time : Bool) (unit : Char) (t : Option RelTime) : Option RelTime :=
  t.bind fun t => n.val.bind fun val => t.addUnit time unit val n.d

/-- The time part begins with a `T`. -/
def isMark (c : Char) : Bool := c = 'T' ∨ c = 't'

/-- The loop of `setIso8601`, at most `n` times. The duration is `none` after an overflow. -/
def readUnits : Nat → Bool → Option RelTime → Cursor → Except Stop (Option RelTime)
  | 0, _, _, _ => .error .unending
  | n + 1, time, t, p => do
    let c ← p.read
    let time := time || isMark c
    let p := if isMark c then p.tail else p
    let (num, p) ← getIntOrFloat p
    match num with
    | none => return t
    | some num =>
      let unit ← Cursor.read p
      if needsTime unit && !time then return t
      else readUnits n time (num.addTo time unit t) p.tail

/-- `qore_relative_time::setIso8601`. -/
def RelTime.setIso8601 (s : CString) : Except Stop (Option RelTime) := do
  let p := s.memory
  let c ← p.read
  let p := if c = 'P' ∨ c = 'p' then p.tail else p
  readUnits (s.chars.length + 1) false (some .zero) p

/-- `qore_relative_time::set(const char*)`. A text without a `P` is the digits of a literal, which
other code reads. -/
def RelTime.setText (literal : List Char → Option RelTime) (s : CString) :
    Except Stop (Option RelTime) :=
  match s.chars with
  | [] => .ok (literal [])
  | c :: t => if c = 'P' ∨ c = 'p' then setIso8601 s else .ok (literal (c :: t))

/-! ### Numbers in a text -/

/-- A number as it is written: a sign, digits, and digits after a decimal point. -/
structure Numeral where
  neg : Bool
  int : List Char
  frac : Option (List Char)
  int_ne : int ≠ []
  int_digits : AllDigits int
  frac_digits : ∀ fs, frac = some fs → AllDigits fs

namespace Numeral

/-- The decimal point and the digits after it. -/
def fracText : Option (List Char) → List Char
  | none => []
  | some fs => '.' :: fs

def text (n : Numeral) : List Char :=
  (if n.neg then ['-'] else []) ++ (n.int ++ fracText n.frac)

def number (n : Numeral) : Number :=
  ⟨withSign n.neg (accumulate 0 n.int), (n.frac.map fraction).getD 0⟩

/-- The number ends before the character `c`. -/
def EndsAt (n : Numeral) (c : Char) : Prop := c.isDigit = false ∧ (n.frac = none → c ≠ '.')

end Numeral

theorem nul_not_digit : nul.isDigit = false := by decide

theorem ne_nul_of_digit {c : Char} (h : c.isDigit = true) : c ≠ nul := by
  rintro rfl
  cases h

/-- The digits before another character. -/
theorem scanDigits_append {ds : List Char} (hd : AllDigits ds) {c : Char} {q : Cursor}
    (hc : c.isDigit = false) : scanDigits (ds ++ c :: q) = .ok (ds, c :: q) := by
  induction ds with
  | nil =>
    show (if c.isDigit then _ else _ : Except Stop (List Char × Cursor)) = _
    rw [hc, if_neg Bool.false_ne_true]
  | cons d ds ih =>
    rw [List.cons_append, scanDigits, if_pos (hd d (List.mem_cons_self ..)),
      ih fun e he => hd e (List.mem_cons_of_mem _ he)]
    rfl

variable (t : List Char)

/-- A text is its first digits and what follows them. -/
theorem digits_split : ∃ ds rest, t = ds ++ rest ∧ AllDigits ds ∧
      ∀ c q, rest ++ [nul] = c :: q → c.isDigit = false := by
  induction t with
  | nil =>
    refine ⟨[], [], rfl, by simp [AllDigits], ?_⟩
    rintro c q heq
    rw [List.nil_append, List.cons.injEq] at heq
    rw [← heq.1]
    exact nul_not_digit
  | cons c t ih =>
    cases hc : c.isDigit with
    | false =>
      refine ⟨[], c :: t, rfl, by simp [AllDigits], ?_⟩
      rintro c' q heq
      rw [List.cons_append, List.cons.injEq] at heq
      rw [← heq.1, hc]
    | true =>
      obtain ⟨ds, rest, rfl, hd, hrest⟩ := ih
      refine ⟨c :: ds, rest, rfl, fun e he => ?_, hrest⟩
      rcases List.mem_cons.mp he with rfl | he
      · exact hc
      · exact hd e he

variable (neg : Bool)

/-- A number that is written in the text is read. -/
theorem getUnsigned_digits {int : List Char} {frac : Option (List Char)} (hne : int ≠ [])
    (hint : AllDigits int) (hfrac : ∀ fs, frac = some fs → AllDigits fs) {e : Char} {q : Cursor}
    (he : e.isDigit = false) (hpoint : frac = none → e ≠ '.') :
    getUnsigned neg (int ++ Numeral.fracText frac ++ e :: q) =
      .ok (some ⟨withSign neg (accumulate 0 int), (frac.map fraction).getD 0⟩, e :: q) := by
  obtain ⟨d, ds, rfl⟩ := List.exists_cons_of_ne_nil hne
  have hd : d.isDigit = true := hint d (List.mem_cons_self ..)
  unfold getUnsigned
  cases frac with
  | none =>
    have hscan := scanDigits_append (q := q) hint he
    simp only [Numeral.fracText, List.append_nil, List.cons_append] at hscan ⊢
    simp [Cursor.read, bind, Except.bind, hd, hscan, hpoint rfl, pure, Except.pure]
  | some fs =>
    have hscan := scanDigits_append (c := '.') (q := fs ++ e :: q) hint rfl
    have hfs := scanDigits_append (q := q) (hfrac fs rfl) he
    simp only [Numeral.fracText, List.append_assoc, List.cons_append] at hscan ⊢
    simp [Cursor.read, bind, Except.bind, hd, hscan, hfs, pure, Except.pure]

variable (n : Numeral)

theorem getIntOrFloat_numeral {e : Char} {q : Cursor} (he : n.EndsAt e) :
    getIntOrFloat (n.text ++ e :: q) = .ok (some n.number, e :: q) := by
  have hread := getUnsigned_digits n.neg n.int_ne n.int_digits n.frac_digits (q := q) he.1 he.2
  unfold getIntOrFloat Numeral.text Numeral.number
  cases hneg : n.neg with
  | true =>
    rw [hneg] at hread
    simpa [Cursor.read, bind, Except.bind] using hread
  | false =>
    obtain ⟨d, ds, hint⟩ := List.exists_cons_of_ne_nil n.int_ne
    have hd : d ≠ '-' := by
      rintro rfl
      have hdigit := n.int_digits '-' (by rw [hint]; exact List.mem_cons_self ..)
      cases hdigit
    rw [hneg, hint] at hread
    rw [hint]
    simpa [Cursor.read, bind, Except.bind, hd] using hread

/-- No digit at the start is an error. -/
theorem getUnsigned_none {c : Char} {q : Cursor} (hc : c.isDigit = false) :
    getUnsigned neg (c :: q) = .ok (none, c :: q) := by
  simp [getUnsigned, Cursor.read, bind, Except.bind, hc, pure, Except.pure]

/-- A text starts with no digit, or with a number. -/
theorem numeral_split (t : List Char) : (∃ c q, t ++ [nul] = c :: q ∧ c.isDigit = false) ∨
      ∃ (n : Numeral) (rest : List Char), n.neg = neg ∧
        t = n.int ++ Numeral.fracText n.frac ++ rest ∧
        ∀ e q, rest ++ [nul] = e :: q → n.EndsAt e := by
  obtain ⟨ds, rest, rfl, hd, hrest⟩ := digits_split t
  cases ds with
  | nil =>
    refine .inl ?_
    cases hq : rest ++ [nul] with
    | nil => simp at hq
    | cons c q => exact ⟨c, q, hq, hrest c q hq⟩
  | cons d ds =>
    refine .inr ?_
    by_cases hpoint : ∃ r, rest = '.' :: r
    · -- the digits after the decimal point belong to the number
      obtain ⟨r, rfl⟩ := hpoint
      obtain ⟨fs, rest, rfl, hfs, hrest'⟩ := digits_split r
      refine ⟨⟨neg, d :: ds, some fs, List.cons_ne_nil _ _, hd, ?_⟩, rest, rfl, ?_, ?_⟩
      · rintro fs' ⟨⟩
        exact hfs
      · simp [Numeral.fracText]
      · exact fun e q heq => ⟨hrest' e q heq, fun hnone => by cases hnone⟩
    · refine ⟨⟨neg, d :: ds, none, List.cons_ne_nil _ _, hd, by simp⟩, rest, rfl, ?_, ?_⟩
      · simp [Numeral.fracText]
      · refine fun e q heq => ⟨hrest e q heq, ?_⟩
        rintro - rfl
        cases rest with
        | nil => simp [nul] at heq
        | cons c r =>
          rw [List.cons_append, List.cons.injEq] at heq
          exact hpoint ⟨r, by rw [heq.1]⟩

/-- What is read from a text: an error, or a number that is written there. -/
theorem getIntOrFloat_cases : (∃ q, getIntOrFloat (t ++ [nul]) = .ok (none, q)) ∨
      ∃ (n : Numeral) (rest : List Char), t = n.text ++ rest ∧
        ∀ e q, rest ++ [nul] = e :: q → n.EndsAt e := by
  by_cases hminus : ∃ u, t = '-' :: u
  · obtain ⟨u, rfl⟩ := hminus
    rcases numeral_split true u with ⟨c, q, hq, hc⟩ | ⟨n, rest, hneg, rfl, hends⟩
    · refine .inl ⟨c :: q, ?_⟩
      simp [getIntOrFloat, Cursor.read, bind, Except.bind, hq, getUnsigned_none true hc]
    · exact .inr ⟨n, rest, by simp [Numeral.text, hneg], hends⟩
  · rcases numeral_split false t with ⟨c, q, hq, hc⟩ | ⟨n, rest, hneg, rfl, hends⟩
    · refine .inl ⟨c :: q, ?_⟩
      have hne : c ≠ '-' := by
        rintro rfl
        cases t with
        | nil => simp [nul] at hq
        | cons d u =>
          rw [List.cons_append, List.cons.injEq] at hq
          exact hminus ⟨u, by rw [hq.1]⟩
      simp [getIntOrFloat, Cursor.read, bind, Except.bind, hq, hne, getUnsigned_none false hc]
    · exact .inr ⟨n, rest, by simp [Numeral.text, hneg], hends⟩

theorem Numeral.text_ne_nil : n.text ≠ [] := by
  unfold Numeral.text
  rw [Ne, List.append_eq_nil_iff, List.append_eq_nil_iff]
  exact fun h => n.int_ne h.2.1

/-- A number does not begin with a `T`. -/
theorem Numeral.head_not_mark {c : Char} {q : List Char} (h : n.text = c :: q) :
    isMark c = false := by
  obtain ⟨d, ds, hint⟩ := List.exists_cons_of_ne_nil n.int_ne
  have hdigit : d.isDigit = true := n.int_digits d (by rw [hint]; exact List.mem_cons_self ..)
  unfold Numeral.text at h
  rw [hint] at h
  cases hneg : n.neg with
  | true =>
    simp only [hneg, if_true, List.cons_append, List.cons.injEq] at h
    rw [← h.1]
    rfl
  | false =>
    simp only [hneg, Bool.false_eq_true, if_false, List.nil_append, List.cons_append,
      List.cons.injEq] at h
    rw [← h.1]
    unfold isMark
    rw [decide_eq_false_iff_not]
    rintro (rfl | rfl) <;> cases hdigit

/-! ### Sequences of numbers with their units -/

/-- A number with its unit, and a `T` before it. -/
structure Item where
  mark : Option Char
  numeral : Numeral
  unit : Char

namespace Item

def text (i : Item) : List Char := i.mark.toList ++ (i.numeral.text ++ [i.unit])

/-- The time part has begun after the item. -/
def timeAfter (time : Bool) (i : Item) : Bool := time || i.mark.isSome

/-- The item is read: only a `T` stands before the number, the number ends at the unit, and a unit of
time stands in the time part. -/
structure Ok (time : Bool) (i : Item) : Prop where
  mark : ∀ c, i.mark = some c → isMark c = true
  ends : i.numeral.EndsAt i.unit
  time : needsTime i.unit = true → i.timeAfter time = true

end Item

/-- The items of a text, from the first to the last. -/
def itemsText (items : List Item) : List Char := items.flatMap Item.text

/-- The time part has begun after the items. -/
def timeAfter (time : Bool) : List Item → Bool
  | [] => time
  | i :: items => timeAfter (i.timeAfter time) items

def ItemsOk (time : Bool) : List Item → Prop
  | [] => True
  | i :: items => i.Ok time ∧ ItemsOk (i.timeAfter time) items

/-- The duration after the items. -/
def addItems (time : Bool) (t : Option RelTime) : List Item → Option RelTime
  | [] => t
  | i :: items =>
    addItems (i.timeAfter time) (i.numeral.number.addTo (i.timeAfter time) i.unit t) items

/-- A round that reads a number and its unit. -/
theorem readUnits_number {n : Nat} {time : Bool} {t : Option RelTime} {c unit : Char} {p q : Cursor}
    {num : Number}
    (hread : getIntOrFloat (if isMark c then p else c :: p) = .ok (some num, unit :: q)) :
    readUnits (n + 1) time t (c :: p) =
      if needsTime unit && !(time || isMark c) then .ok t
      else readUnits n (time || isMark c) (num.addTo (time || isMark c) unit t) q := by
  show (getIntOrFloat (if isMark c then p else c :: p) >>= _) = _
  rw [hread]
  rfl

/-- A round that reads no number is the last one. -/
theorem readUnits_none {n : Nat} {time : Bool} {t : Option RelTime} {c : Char} {p q : Cursor}
    (hread : getIntOrFloat (if isMark c then p else c :: p) = .ok (none, q)) :
    readUnits (n + 1) time t (c :: p) = .ok t := by
  show (getIntOrFloat (if isMark c then p else c :: p) >>= _) = _
  rw [hread]
  rfl

/-- One round of the loop reads one item. -/
theorem readUnits_item {i : Item} {time : Bool} (hi : i.Ok time) (n : Nat) (t : Option RelTime)
    (q : Cursor) : readUnits (n + 1) time t (i.text ++ q) =
      readUnits n (i.timeAfter time) (i.numeral.number.addTo (i.timeAfter time) i.unit t) q := by
  obtain ⟨mark, numeral, unit⟩ := i
  obtain ⟨hmark, hends, htime⟩ := hi
  have hread := getIntOrFloat_numeral numeral (q := q) hends
  have hgo : ¬(needsTime unit && !Item.timeAfter time ⟨mark, numeral, unit⟩) = true := by
    intro h
    rw [Bool.and_eq_true, Bool.not_eq_true'] at h
    have := htime h.1
    rw [h.2] at this
    cases this
  cases mark with
  | some m =>
    have hm := hmark m rfl
    have htext : Item.text ⟨some m, numeral, unit⟩ ++ q = m :: (numeral.text ++ unit :: q) := by
      simp [Item.text]
    have hafter : Item.timeAfter time ⟨some m, numeral, unit⟩ = (time || isMark m) := by
      rw [hm]
      rfl
    rw [hafter] at hgo ⊢
    rw [htext, readUnits_number (by rw [if_pos hm]; exact hread), if_neg hgo]
  | none =>
    obtain ⟨c, r, hc⟩ := List.exists_cons_of_ne_nil numeral.text_ne_nil
    have hm := numeral.head_not_mark hc
    have htext : Item.text ⟨none, numeral, unit⟩ ++ q = c :: (r ++ unit :: q) := by
      simp [Item.text, hc]
    have hafter : Item.timeAfter time ⟨none, numeral, unit⟩ = (time || isMark c) := by
      rw [hm]
      rfl
    rw [hc] at hread
    rw [hafter] at hgo ⊢
    rw [htext, readUnits_number (by rw [if_neg (by rw [hm]; exact Bool.false_ne_true)]; exact hread),
      if_neg hgo]

/-- The loop reads a sequence of items. -/
theorem readUnits_items {items : List Item} {time : Bool} (h : ItemsOk time items) (n : Nat)
    (t : Option RelTime) (q : Cursor) :
    readUnits (items.length + n) time t (itemsText items ++ q) =
      readUnits n (timeAfter time items) (addItems time t items) q := by
  induction items generalizing time t with
  | nil =>
    rw [List.length_nil, Nat.zero_add]
    rfl
  | cons i items ih =>
    have htext : itemsText (i :: items) ++ q = i.text ++ (itemsText items ++ q) := by
      simp [itemsText]
    rw [htext, List.length_cons, Nat.add_right_comm, readUnits_item h.1, ih h.2]
    rfl

/-- The loop ends where no number is written. -/
theorem readUnits_nul (n : Nat) (time : Bool) (t : Option RelTime) :
    readUnits (n + 1) time t [nul] = .ok t := by
  refine readUnits_none (q := [nul]) ?_
  rfl

/-! ### Reads within the text -/

/-- The text ends right after a number: items that are read, then a number without a unit. -/
def EndsInNumber (t : List Char) : Prop :=
  ∃ (items : List Item) (mark : Option Char) (n : Numeral),
    t = itemsText items ++ (mark.toList ++ n.text) ∧ ItemsOk false items ∧
      ∀ c, mark = some c → isMark c = true

variable {mark : Option Char}

/-- The number at the end is taken with the terminator as its unit, and the next read is behind
it. -/
theorem readUnits_last {time : Bool} (hmark : ∀ c, mark = some c → isMark c = true)
    (numeral : Numeral) (n : Nat) (t : Option RelTime) :
    readUnits (n + 2) time t (mark.toList ++ numeral.text ++ [nul]) = .error .beyond := by
  have hends : numeral.EndsAt nul := ⟨nul_not_digit, fun _ => by decide⟩
  have hi : Item.Ok time ⟨mark, numeral, nul⟩ :=
    ⟨hmark, hends, fun h => absurd (show needsTime nul = true from h) (by decide)⟩
  have hitem := readUnits_item hi (n + 1) t []
  rw [List.append_nil] at hitem
  rw [List.append_assoc]
  exact hitem

/-- A text is what follows a `T`, or it does not begin with one. -/
theorem mark_split (text : List Char) : ∃ (mark : Option Char) (u : List Char),
    text = mark.toList ++ u ∧ (∀ c, mark = some c → isMark c = true) ∧
      (mark = none → ∀ c q, u ++ [nul] = c :: q → isMark c = false) := by
  cases text with
  | nil =>
    refine ⟨none, [], rfl, by simp, fun _ c q heq => ?_⟩
    rw [List.nil_append, List.cons.injEq] at heq
    rw [← heq.1]
    decide
  | cons c u =>
    cases hc : isMark c with
    | true => exact ⟨some c, u, rfl, by rintro c' ⟨⟩; exact hc, by simp⟩
    | false =>
      refine ⟨none, c :: u, rfl, by simp, fun _ c' q heq => ?_⟩
      rw [List.cons_append, List.cons.injEq] at heq
      rw [← heq.1, hc]

/-- A round that reads no number, for a text that may begin with a `T`. -/
theorem readUnits_stop {u : List Char} {q : Cursor} (hmark : ∀ c, mark = some c → isMark c = true)
    (hnone : mark = none → ∀ c q, u ++ [nul] = c :: q → isMark c = false)
    (hread : getIntOrFloat (u ++ [nul]) = .ok (none, q)) (n : Nat) (time : Bool)
    (t : Option RelTime) : readUnits (n + 1) time t (mark.toList ++ u ++ [nul]) = .ok t := by
  cases mark with
  | some m =>
    have hm := hmark m rfl
    exact readUnits_none (by rw [if_pos hm]; exact hread)
  | none =>
    obtain ⟨c, r, hc⟩ := List.exists_cons_of_ne_nil (show u ++ [nul] ≠ [] by simp)
    have hm := hnone rfl c r hc
    rw [hc] at hread
    show readUnits (n + 1) time t (u ++ [nul]) = _
    rw [hc]
    exact readUnits_none (by rw [hm]; exact hread)

/-- A number with a unit of time ends the loop before the time part. -/
theorem readUnits_early {numeral : Numeral} {unit : Char} {time : Bool}
    (hmark : ∀ c, mark = some c → isMark c = true) (hends : numeral.EndsAt unit)
    (hneeds : needsTime unit = true) (hbefore : (time || mark.isSome) = false) (n : Nat)
    (t : Option RelTime) (q : Cursor) :
    readUnits (n + 1) time t (mark.toList ++ (numeral.text ++ unit :: q)) = .ok t := by
  rw [Bool.or_eq_false_iff, Option.isSome_eq_false_iff, Option.isNone_iff_eq_none] at hbefore
  obtain ⟨rfl, rfl⟩ := hbefore
  have hread := getIntOrFloat_numeral numeral (q := q) hends
  obtain ⟨c, r, hc⟩ := List.exists_cons_of_ne_nil numeral.text_ne_nil
  have hm := numeral.head_not_mark hc
  rw [hc] at hread ⊢
  have hround := @readUnits_number n false t c unit (r ++ unit :: q) q numeral.number
    (by rw [hm]; exact hread)
  rw [hneeds, hm] at hround
  exact hround

/-- The loop ends with a duration, or the text ends right after a number. -/
theorem readUnits_cases (n : Nat) (time : Bool) (t : Option RelTime) (text : List Char)
    (hn : text.length < n) :
    (∃ t', readUnits n time t (text ++ [nul]) = .ok t') ∨
      ∃ (items : List Item) (mark : Option Char) (n : Numeral),
        text = itemsText items ++ (mark.toList ++ n.text) ∧ ItemsOk time items ∧
          ∀ c, mark = some c → isMark c = true := by
  induction n generalizing time t text with
  | zero => omega
  | succ n ih =>
    obtain ⟨mark, u, rfl, hmark, hnone⟩ := mark_split text
    rcases getIntOrFloat_cases u with ⟨q, hread⟩ | ⟨numeral, rest, rfl, hends⟩
    · exact .inl ⟨t, readUnits_stop hmark hnone hread n time t⟩
    · cases rest with
      | nil => exact .inr ⟨[], mark, numeral, by simp [itemsText], trivial, hmark⟩
      | cons unit rest =>
        have hunit : numeral.EndsAt unit := hends unit (rest ++ [nul]) rfl
        have htext : mark.toList ++ (numeral.text ++ unit :: rest) =
            Item.text ⟨mark, numeral, unit⟩ ++ rest := by simp [Item.text]
        by_cases hok : needsTime unit = true ∧ (time || mark.isSome) = false
        · refine .inl ⟨t, ?_⟩
          have hearly := readUnits_early hmark hunit hok.1 hok.2 n t (rest ++ [nul])
          simpa using hearly
        · -- the number and its unit are an item, and the rest is read in the next rounds
          have hi : Item.Ok time ⟨mark, numeral, unit⟩ := by
            refine ⟨hmark, hunit, fun hneeds => ?_⟩
            by_contra htime
            exact hok ⟨hneeds, by simpa [Item.timeAfter] using htime⟩
          have hlen : rest.length < n := by
            simp only [List.length_append, List.length_cons] at hn
            omega
          rw [htext, List.append_assoc, readUnits_item hi]
          rcases ih (Item.timeAfter time ⟨mark, numeral, unit⟩) _ rest hlen with
            hread | ⟨items, last, m, rfl, hitems, hlast⟩
          · exact .inl hread
          · refine .inr ⟨⟨mark, numeral, unit⟩ :: items, last, m, ?_, ⟨hi, hitems⟩, hlast⟩
            simp [itemsText]

/-- The text after a `P`. -/
def afterP : List Char → List Char
  | [] => []
  | c :: t => if c = 'P' ∨ c = 'p' then t else c :: t

theorem setIso8601_eq (s : CString) : RelTime.setIso8601 s =
    readUnits (s.chars.length + 1) false (some .zero) (afterP s.chars ++ [nul]) := by
  obtain ⟨chars, hnul⟩ := s
  cases chars with
  | nil => rfl
  | cons c t =>
    show readUnits _ _ _ (if c = 'P' ∨ c = 'p' then t ++ [nul] else c :: (t ++ [nul])) = _
    by_cases hc : c = 'P' ∨ c = 'p'
    · simp only [afterP, if_pos hc]
    · simp only [afterP, if_neg hc, List.cons_append]

theorem length_afterP : (afterP t).length ≤ t.length := by
  cases t with
  | nil => exact Nat.le_refl _
  | cons c t =>
    by_cases hc : c = 'P' ∨ c = 'p'
    · simp only [afterP, if_pos hc]
      exact Nat.le_succ _
    · simp only [afterP, if_neg hc]
      exact Nat.le_refl _

/-- The items take no more rounds than they have characters. -/
theorem length_itemsText (items : List Item) : items.length ≤ (itemsText items).length := by
  induction items with
  | nil => exact Nat.le_refl _
  | cons i items ih =>
    have hone : 1 ≤ i.text.length := by
      unfold Item.text
      simp only [List.length_append, List.length_singleton]
      omega
    simp only [itemsText, List.flatMap_cons, List.length_append, List.length_cons] at ih ⊢
    omega

/-- `setIso8601` ends without a read behind the terminator exactly when the text does not end right
after a number. -/
theorem RelTime.setIso8601_in_bounds_iff (s : CString) :
    (∃ t, setIso8601 s = .ok t) ↔ ¬EndsInNumber (afterP s.chars) := by
  rw [setIso8601_eq]
  have hlen := length_afterP s.chars
  constructor
  · rintro ⟨t, hread⟩ ⟨items, mark, numeral, htext, hitems, hmark⟩
    have hcount := length_itemsText items
    have hnumeral := List.length_pos_of_ne_nil numeral.text_ne_nil
    rw [htext, List.length_append, List.length_append] at hlen
    -- after the items at least two rounds are left
    obtain ⟨n, hn⟩ : ∃ n, s.chars.length + 1 = items.length + (n + 2) :=
      ⟨s.chars.length - items.length - 1, by omega⟩
    rw [htext, hn, List.append_assoc, readUnits_items hitems, readUnits_last hmark] at hread
    cases hread
  · intro hends
    rcases readUnits_cases (s.chars.length + 1) false (some .zero) (afterP s.chars) (by omega) with
      hread | hlast
    · exact hread
    · exact absurd hlast hends

/-- A text that ends right after a number: the digit is taken with the terminator as its unit. -/
theorem RelTime.setIso8601_beyond :
    setIso8601 ⟨['P', '5'], by decide⟩ = .error .beyond := by decide

end Qore.Date
