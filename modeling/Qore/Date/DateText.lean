import Qore.Date.DurationText
import Qore.Date.Local
import Qore.Date.Micros
import Qore.Lib.Outcome

/-!
# `Qore.Date.DateText`: absolute times as text

The mask `IF` prints a time as `2004-02-01T12:30:00.5+01:00`, with the offset of its zone.
`qore_absolute_time::set(const char*)` is a scanner with optional separators, an optional fraction
and an optional offset. Like the reader of durations, the model reads from the memory of a C string.

* `readOffset_text`, `readMicros_text`, `readTime_text`, `readDate_text`: each part of the scanner
  on its part of a printed time.
* `setText_roundTrip`: a printed time is read back, with a zone of the offset that was printed.
-/

set_option autoImplicit false

namespace Qore.Date

open Qore.Lib Qore.Lib.Decimal
open Qore.Lib.Gregorian (Date)

/-! ### The printer -/

/-- `concatOffset`. The negation of the smallest `int` is not modelled. -/
def concatOffset (utcoffset : Int) (str : List Char) : List Char :=
  let str := str ++ [if utcoffset < 0 then '-' else '+']
  let utcoffset := if utcoffset < 0 then -utcoffset else utcoffset
  let h := utcoffset.tdiv secsPerHour
  let r := utcoffset.tmod secsPerHour
  let m := r.tdiv secsPerMinute
  let str := str ++ (printInt 2 (if h < 0 then -h else h) ++ ':' :: printInt 2 m)
  let s := utcoffset - h * secsPerHour - m * secsPerMinute
  if s ≠ 0 then str ++ ':' :: printInt 2 s else str

/-- `qore_date_private::format` of an absolute time with the mask `IF`. -/
def AbsTime.formatIF (t : AbsTime) : List Char :=
  let i := t.get
  let str := printInt 4 i.year ++ '-' :: (printInt 2 i.month ++ '-' :: (printInt 2 i.day ++
    'T' :: (printInt 2 i.hour ++ ':' :: (printInt 2 i.minute ++ ':' :: printInt 2 i.second))))
  let str := if i.us ≠ 0 then trimZeros (str ++ '.' :: printInt 6 i.us) else str
  concatOffset (t.zone.off t.epoch) str

/-! ### The exceptions of the reader -/

/-- The `INVALID-DATE` exceptions. A character `c` is the one at the cursor, or the terminator. -/
inductive InvalidDate where
  | tooShort
  | year
  | month
  | monthRange (month : Int)
  | afterMonth (c : Char)
  | day
  | dayRange (year month day : Int)
  | hourRange (hour : Int)
  | minute
  | minuteRange (minute : Int)
  | afterMinute (c : Char)
  | secondRange (second : Int)
  | micros (c : Char)
  | offset (c : Char)
  | offsetMinutes (c : Char)
  deriving DecidableEq

/-! ### The reader -/

/-- `get_uint`: -1 for a character that is not a digit. `rc` is the number so far. -/
def getUint : Nat → Int → Cursor → Except Stop (Int × Cursor)
  | 0, rc, p => .ok (rc, p)
  | digits + 1, rc, p => do
    let c ← p.read
    if c.isDigit then getUint digits (10 * rc + (c.toNat - '0'.toNat : Nat)) p.tail
    else return (-1, p)

/-- A part of an offset: a digit, and a second digit if there is one. -/
def getPart (p : Cursor) : Except Stop (Option Int × Cursor) := do
  let c ← p.read
  if c.isDigit then
    let x : Int := (c.toNat - '0'.toNat : Nat)
    let p := p.tail
    let c ← Cursor.read p
    if c.isDigit then return (some (x * 10 + (c.toNat - '0'.toNat : Nat)), p.tail)
    else return (some x, p)
  else return (none, p)

/-- `findCreateOffsetZone(int)`. -/
def findCreateOffsetZone (seconds_east : Int) : Zone :=
  if seconds_east = 0 then Zone.utc else Zone.offset seconds_east

/-- The time after `set`, `none` when an `int` overflows, and the exceptions that were raised. -/
structure Outcome where
  time : Option AbsTime
  raised : List InvalidDate

namespace AbsTime

/-- `set(n_zone, year, month, day, hour, minute, second, us)` at the end of the reader. -/
def setFields (n_zone : Zone) (tm : SimpleTm) (raised : List InvalidDate) : Outcome :=
  { time := set n_zone tm.year tm.month tm.day tm.hour tm.minute tm.second tm.us, raised }

/-- `if (xsink) xsink->raiseException(..);`. -/
def raise (xsink : Bool) (e : InvalidDate) : List InvalidDate := if xsink then [e] else []

/-- The seconds of a UTC offset; `offset` are its hours and minutes. -/
def readOffsetSeconds (offset : Int) (p : Cursor) : Except Stop Int := do
  let c ← p.read
  if c = nul then return offset
  let p := if c = ':' then p.tail else p
  let (utc_s, _) ← getPart p
  return offset + utc_s.getD 0

/-- The minutes and seconds of a UTC offset; `offset` are its hours. -/
def readOffsetMinutes (xsink : Bool) (offset : Int) (p : Cursor) :
    Except Stop (Int × List InvalidDate) := do
  let c ← p.read
  if c = nul then return (offset, [])
  let p := if c = ':' then p.tail else p
  let (utc_m, p) ← getPart p
  match utc_m with
  | none =>
    let c ← Cursor.read p
    return (offset, raise xsink (.offsetMinutes c))
  | some utc_m =>
    let offset ← readOffsetSeconds (offset + utc_m * 60) p
    return (offset, [])

/-- The UTC offset. `raised` are the exceptions before. -/
def readOffset (xsink : Bool) (n_zone : Zone) (tm : SimpleTm) (raised : List InvalidDate)
    (p : Cursor) : Except Stop Outcome := do
  let c ← p.read
  let p := if c = ' ' then p.tail else p
  let c ← Cursor.read p
  if c = 'Z' then return setFields Zone.utc tm raised
  else if c = '+' ∨ c = '-' then
    let mult : Int := if c = '-' then -1 else 1
    let (utc_h, p) ← getPart p.tail
    match utc_h with
    | none =>
      let c ← Cursor.read p
      return setFields n_zone tm (raised ++ raise xsink (.offset c))
    | some utc_h =>
      let (offset, es) ← readOffsetMinutes xsink (utc_h * 3600) p
      -- any zone that was passed is ignored
      return setFields (findCreateOffsetZone (offset * mult)) tm (raised ++ es)
  else return setFields n_zone tm raised

/-- The microseconds of the digits after a decimal point: `us` are those of `dlen` digits. Digits
beyond the sixth are ignored, and missing digits are zeros. -/
def microsOfDigits : Nat → Int → List Char → Int
  | dlen, us, [] => us * 10 ^ (6 - dlen)
  | dlen, us, c :: ds =>
    microsOfDigits (dlen + 1) (if dlen < 6 then us * 10 + (c.toNat - '0'.toNat : Nat) else us) ds

/-- What follows the seconds. -/
def readMicros (xsink : Bool) (n_zone : Zone) (tm : SimpleTm) (raised : List InvalidDate)
    (p : Cursor) : Except Stop Outcome := do
  let c ← p.read
  if c = nul then return setFields n_zone tm raised
  else if c = '.' then
    let p := p.tail
    let c ← Cursor.read p
    if c.isDigit then
      let (ds, p) ← scanDigits p
      let tm := { tm with us := microsOfDigits 0 0 ds }
      let c ← Cursor.read p
      if c = nul then return setFields n_zone tm raised else readOffset xsink n_zone tm raised p
    else return setFields n_zone tm (raised ++ raise xsink (.micros c))
  else readOffset xsink n_zone tm raised p

/-- The seconds, after the separator. -/
def readSecond (xsink : Bool) (n_zone : Zone) (tm : SimpleTm) (raised : List InvalidDate)
    (p : Cursor) : Except Stop Outcome := do
  let (second, p) ← getUint 2 0 p
  if second < 0 then return setFields n_zone tm raised
  let tm := { tm with second }
  if xsink ∧ second > 59 then return setFields n_zone tm (raised ++ [.secondRange second])
  readMicros xsink n_zone tm raised p

/-- The minutes, and the separator before the seconds when there was one before the minutes. A
number above 59 is an exception and is taken nevertheless. -/
def readMinute (xsink needs_sep : Bool) (n_zone : Zone) (tm : SimpleTm) (p : Cursor) :
    Except Stop Outcome := do
  let (minute, p) ← getUint 2 0 p
  if minute < 0 then return setFields n_zone tm (raise xsink .minute)
  let tm := { tm with minute }
  let raised : List InvalidDate := if xsink ∧ minute > 59 then [.minuteRange minute] else []
  if needs_sep then
    let c ← Cursor.read p
    if c = ':' then readSecond xsink n_zone tm raised p.tail
    else if c = nul then return setFields n_zone tm raised
    else return setFields n_zone tm (raised ++ raise xsink (.afterMinute c))
  else readSecond xsink n_zone tm raised p

/-- The hours, after the separator. -/
def readTime (xsink : Bool) (n_zone : Zone) (tm : SimpleTm) (p : Cursor) :
    Except Stop Outcome := do
  let (hour, p) ← getUint 2 0 p
  if hour < 0 then return setFields n_zone tm []
  let tm := { tm with hour }
  if xsink ∧ hour > 23 then return setFields n_zone tm [.hourRange hour]
  let c ← Cursor.read p
  if c = ':' then readMinute xsink true n_zone tm p.tail
  else readMinute xsink false n_zone tm p

/-- What follows the date. -/
def readAfterDate (xsink : Bool) (n_zone : Zone) (tm : SimpleTm) (p : Cursor) :
    Except Stop Outcome := do
  let c ← p.read
  -- `*(p + 1)` is only read after a blank
  let c' ← (if c = ' ' then Cursor.read p.tail else pure c)
  if c = 'Z' ∨ (c = ' ' ∧ c' = 'Z') then return setFields Zone.utc tm []
  else if c = ' ' ∨ c = 't' ∨ c = 'T' ∨ c = '-' then readTime xsink n_zone tm p.tail
  else readTime xsink n_zone tm p

/-- `if (day < 1)` and `if (day > dom)`: the days that the reader rejects. -/
def badDay (tm : SimpleTm) : Bool :=
  tm.day < 1 ∨ (tm.day > 28 ∧ tm.day > getLastDayOfMonth tm.month tm.year)

/-- The day. -/
def readDay (xsink : Bool) (n_zone : Zone) (tm : SimpleTm) (p : Cursor) : Except Stop Outcome := do
  let (day, p) ← getUint 2 0 p
  if day < 0 then return setFields n_zone { tm with day := 1 } (raise xsink .day)
  let tm := { tm with day }
  if xsink ∧ badDay tm then
    return setFields n_zone tm [.dayRange tm.year tm.month day]
  readAfterDate xsink n_zone tm p

/-- The month, and the separator before the day when there was one before the month. -/
def readMonth (xsink needs_sep : Bool) (n_zone : Zone) (tm : SimpleTm) (p : Cursor) :
    Except Stop Outcome := do
  let (month, p) ← getUint 2 0 p
  if month < 0 then return setFields n_zone { tm with month := 1, day := 1 } (raise xsink .month)
  let tm := { tm with month }
  if xsink ∧ (month < 1 ∨ month > 12) then
    return setFields n_zone { tm with day := 1 } [.monthRange month]
  if needs_sep then
    let c ← Cursor.read p
    if c = '-' then readDay xsink n_zone tm p.tail
    else return setFields n_zone { tm with day := 1 } (raise xsink (.afterMonth c))
  else readDay xsink n_zone tm p

/-- `qore_absolute_time::set(const char*)`. -/
def setText (xsink : Bool) (n_zone : Zone) (s : CString) : Except Stop Outcome := do
  -- at least YYYYMMDD
  if s.chars.length < 8 then return ⟨some (setEpoch n_zone 0 0), raise xsink .tooShort⟩
  let (year, p) ← getUint 4 0 s.memory
  if year < 0 then return ⟨some (setEpoch n_zone 0 0), raise xsink .year⟩
  let tm : SimpleTm := ⟨year, 0, 0, 0, 0, 0, 0⟩
  let c ← Cursor.read p
  if c = '-' then readMonth xsink true n_zone tm p.tail
  else readMonth xsink false n_zone tm p

end AbsTime

/-! ### Printed numbers are read -/

@[simp]
theorem read_bind {α : Type} (c : Char) (p : Cursor) (f : Char → Except Stop α) :
    (Cursor.read (c :: p) >>= f) = f c := rfl

theorem printInt_of_nonneg (w : Nat) {x : Int} (h : 0 ≤ x) : printInt w x = padded w x.natAbs := by
  unfold printInt
  rw [if_neg (by omega)]

/-- The digits are read to their value. -/
theorem getUint_append {ds : List Char} (hd : AllDigits ds) (rc : Int) (q : Cursor) :
    getUint ds.length rc (ds ++ q) = .ok (rc * 10 ^ ds.length + value ds, q) := by
  induction ds generalizing rc with
  | nil =>
    have hzero : rc * 10 ^ ([] : List Char).length + value [] = rc := by simp [value]
    rw [hzero]
    rfl
  | cons c ds ih =>
    have hrest : AllDigits ds := fun e he => hd e (List.mem_cons_of_mem _ he)
    have hstep : getUint (c :: ds).length rc (c :: ds ++ q) =
        getUint ds.length (10 * rc + (c.toNat - '0'.toNat : Nat)) (ds ++ q) := by
      show (if c.isDigit then _ else _ : Except Stop (Int × Cursor)) = _
      rw [if_pos (hd c (List.mem_cons_self ..))]
      rfl
    rw [hstep, ih hrest, value_cons]
    congr 2
    rw [List.length_cons, pow_succ]
    push_cast
    ring

theorem getUint_printInt {w : Nat} {x : Int} (hw : 0 < w) (hx : 0 ≤ x ∧ x < 10 ^ w) (q : Cursor) :
    getUint w 0 (printInt w x ++ q) = .ok (x, q) := by
  have hlt : x.natAbs < 10 ^ w := by
    have hcast : ((10 ^ w : Nat) : Int) = 10 ^ w := by push_cast; rfl
    omega
  have hlen := length_padded hw hlt
  have hread := getUint_append (allDigits_padded w x.natAbs) 0 q
  rw [hlen, value_padded, Int.zero_mul, Int.zero_add] at hread
  rw [printInt_of_nonneg w hx.1, hread]
  congr 2
  omega

theorem getPart_printInt {x : Int} (hx : 0 ≤ x ∧ x < 100) (q : Cursor) :
    getPart (printInt 2 x ++ q) = .ok (some x, q) := by
  have hlen : (padded 2 x.natAbs).length = 2 := length_padded (by decide) (by omega)
  obtain ⟨a, b, hab⟩ := List.length_eq_two.mp hlen
  have hdigits := allDigits_padded 2 x.natAbs
  have hvalue := value_padded 2 x.natAbs
  rw [hab] at hdigits hvalue
  have ha := hdigits a (List.mem_cons_self ..)
  have hb := hdigits b (by simp)
  rw [value_cons, value_cons] at hvalue
  have hone : value [] = 0 := rfl
  rw [printInt_of_nonneg 2 hx.1, hab]
  show (if a.isDigit then _ else _ : Except Stop (Option Int × Cursor)) = _
  rw [if_pos ha]
  show (if b.isDigit then _ else _ : Except Stop (Option Int × Cursor)) = _
  rw [if_pos hb]
  simp only [List.length_cons, List.length_nil] at hvalue
  show Except.ok (some _, q) = _
  congr 3
  omega

/-- A printed number has no character that the reader takes for something else. -/
theorem printInt_noNul (w : Nat) (x : Int) : nul ∉ printInt w x := by
  have hdigits : ∀ v n, nul ∉ padded v n := fun v n hmem =>
    ne_nul_of_digit (allDigits_padded v n nul hmem) rfl
  unfold printInt
  split
  · rw [List.mem_cons, not_or]
    exact ⟨by decide, hdigits _ _⟩
  · exact hdigits _ _

/-! ### The offset is read -/

/-- The seconds of an offset, unless they are zero. -/
def offsetSeconds (s : Int) : List Char := if s ≠ 0 then ':' :: printInt 2 s else []

/-- The text of an offset. -/
def offsetText (off : Int) : List Char :=
  (if off < 0 then '-' else '+') :: (printInt 2 (|off| / 3600) ++
    ':' :: (printInt 2 (|off| % 3600 / 60) ++ offsetSeconds (|off| % 60)))

theorem concatOffset_eq (off : Int) (str : List Char) :
    concatOffset off str = str ++ offsetText off := by
  have habs : (if off < 0 then -off else off) = |off| := by
    split <;> rename_i h
    · exact (abs_of_neg h).symm
    · exact (abs_of_nonneg (by omega)).symm
  have hnonneg := abs_nonneg off
  have hh : |off|.tdiv secsPerHour = |off| / 3600 := Int.tdiv_eq_ediv_of_nonneg hnonneg
  have hr : |off|.tmod secsPerHour = |off| % 3600 := Int.tmod_eq_emod_of_nonneg hnonneg
  have hm : (|off| % 3600).tdiv secsPerMinute = |off| % 3600 / 60 :=
    Int.tdiv_eq_ediv_of_nonneg (by omega)
  have hs : |off| - |off| / 3600 * secsPerHour - |off| % 3600 / 60 * secsPerMinute =
      |off| % 60 := by
    have hhour : secsPerHour = 3600 := rfl
    have hminute : secsPerMinute = 60 := rfl
    rw [hhour, hminute]
    omega
  unfold concatOffset offsetText offsetSeconds
  dsimp only
  rw [habs, hh, hr, hm, hs, if_neg (show ¬|off| / 3600 < 0 by omega)]
  by_cases hzero : |off| % 60 = 0
  · rw [if_neg (not_not_intro hzero), if_neg (not_not_intro hzero)]
    simp
  · rw [if_pos hzero, if_pos hzero]
    simp

namespace AbsTime

theorem readOffsetSeconds_text (offset : Int) {s : Int} (hs : 0 ≤ s ∧ s < 60) :
    readOffsetSeconds offset (offsetSeconds s ++ [nul]) = .ok (offset + s) := by
  unfold offsetSeconds
  split <;> rename_i hzero
  · have hpart := getPart_printInt (show 0 ≤ s ∧ s < 100 by omega) [nul]
    unfold readOffsetSeconds
    rw [List.cons_append, read_bind, if_neg (by decide)]
    simp only [if_true, List.tail_cons, hpart, ok_bind]
    rfl
  · rw [not_ne_iff] at hzero
    subst hzero
    rw [Int.add_zero]
    rfl

theorem readOffsetMinutes_text (xsink : Bool) (offset : Int) {m s : Int} (hm : 0 ≤ m ∧ m < 60)
    (hs : 0 ≤ s ∧ s < 60) :
    readOffsetMinutes xsink offset (':' :: (printInt 2 m ++ (offsetSeconds s ++ [nul]))) =
      .ok (offset + m * 60 + s, []) := by
  have hpart := getPart_printInt (show 0 ≤ m ∧ m < 100 by omega) (offsetSeconds s ++ [nul])
  have hseconds := readOffsetSeconds_text (offset + m * 60) hs
  unfold readOffsetMinutes
  rw [read_bind, if_neg (by decide)]
  simp only [if_true, List.tail_cons, hpart, ok_bind, hseconds]
  rfl

/-- The offset of a printed time is read, whatever zone was passed. -/
theorem readOffset_text (xsink : Bool) (n_zone : Zone) (tm : SimpleTm) (raised : List InvalidDate)
    {off : Int} (hoff : |off| < 360000) :
    readOffset xsink n_zone tm raised (offsetText off ++ [nul]) =
      .ok (setFields (findCreateOffsetZone off) tm raised) := by
  have hnonneg := abs_nonneg off
  have hpart := getPart_printInt (show 0 ≤ |off| / 3600 ∧ |off| / 3600 < 100 by omega)
    (':' :: (printInt 2 (|off| % 3600 / 60) ++ (offsetSeconds (|off| % 60) ++ [nul])))
  have hminutes := readOffsetMinutes_text xsink (|off| / 3600 * 3600)
    (show 0 ≤ |off| % 3600 / 60 ∧ |off| % 3600 / 60 < 60 by omega)
    (show 0 ≤ |off| % 60 ∧ |off| % 60 < 60 by omega)
  have hsum : |off| / 3600 * 3600 + |off| % 3600 / 60 * 60 + |off| % 60 = |off| := by omega
  rw [hsum] at hminutes
  have htext : offsetText off ++ [nul] = (if off < 0 then '-' else '+') ::
      (printInt 2 (|off| / 3600) ++ ':' :: (printInt 2 (|off| % 3600 / 60) ++
        (offsetSeconds (|off| % 60) ++ [nul]))) := by
    unfold offsetText
    simp
  unfold readOffset
  rw [htext, read_bind]
  by_cases hneg : off < 0
  · have hback : |off| * -1 = off := by
      rw [abs_of_neg hneg]
      omega
    simp only [if_pos hneg, if_neg (by decide : ¬ '-' = ' '), read_bind,
      if_neg (by decide : ¬ '-' = 'Z'), or_true, if_true, List.tail_cons, hpart, ok_bind, hminutes,
      hback, List.append_nil]
    rfl
  · have hback : |off| * 1 = off := by
      rw [abs_of_nonneg (by omega), Int.mul_one]
    simp only [if_neg hneg, if_neg (by decide : ¬ '+' = ' '), read_bind,
      if_neg (by decide : ¬ '+' = 'Z'), true_or, if_true, if_neg (by decide : ¬ '+' = '-'),
      List.tail_cons, hpart, ok_bind, hminutes, hback, List.append_nil]
    rfl

end AbsTime

/-! ### The microseconds are read -/

/-- The microseconds of a text, unless they are zero. -/
def microsText (us : Int) : List Char := if us ≠ 0 then '.' :: trimmed 6 us else []

theorem microsOfDigits_eq {ds : List Char} {dlen : Nat} (h : dlen + ds.length ≤ 6) (us : Int) :
    AbsTime.microsOfDigits dlen us ds =
      (us * 10 ^ ds.length + value ds) * 10 ^ (6 - (dlen + ds.length)) := by
  induction ds generalizing dlen us with
  | nil =>
    have hzero : us * 10 ^ ([] : List Char).length + value [] = us := by simp [value]
    rw [hzero]
    rfl
  | cons c ds ih =>
    rw [List.length_cons] at h
    have hstep : AbsTime.microsOfDigits dlen us (c :: ds) =
        AbsTime.microsOfDigits (dlen + 1) (us * 10 + (c.toNat - '0'.toNat : Nat)) ds := by
      rw [AbsTime.microsOfDigits, if_pos (by omega)]
    have hlen : dlen + 1 + ds.length = dlen + (c :: ds).length := by
      rw [List.length_cons]
      omega
    rw [hstep, ih (by omega), hlen, value_cons, List.length_cons, pow_succ]
    push_cast
    ring

/-- The zeros that were trimmed are the zeros that are filled in. -/
theorem microsOfDigits_trimmed {us : Int} (hus : 0 ≤ us ∧ us < 1000000) :
    AbsTime.microsOfDigits 0 0 (trimmed 6 us) = us := by
  obtain ⟨k, hk⟩ := trimZeros_append (padded 6 us.natAbs)
  have hlen : (padded 6 us.natAbs).length = 6 := length_padded (by decide) (by omega)
  have hvalue := value_padded 6 us.natAbs
  have htrim : padded 6 us.natAbs = trimmed 6 us ++ List.replicate k '0' := hk
  rw [htrim, List.length_append, List.length_replicate] at hlen
  rw [htrim, value_append, value_replicate, List.length_replicate] at hvalue
  have hwidth : 6 - (0 + (trimmed 6 us).length) = k := by omega
  rw [microsOfDigits_eq (by omega), hwidth, Int.zero_mul, Int.zero_add]
  have hcast : ((value (trimmed 6 us) * 10 ^ k + 0 : Nat) : Int) = us.natAbs := by rw [hvalue]
  push_cast at hcast
  rwa [abs_of_nonneg hus.1, add_zero] at hcast

namespace AbsTime

/-- The offset begins with a sign. -/
theorem offsetText_eq_cons (off : Int) : ∃ c q, offsetText off ++ [nul] = c :: q ∧
    c.isDigit = false ∧ c ≠ nul ∧ c ≠ '.' := by
  refine ⟨_, _, rfl, ?_⟩
  split <;> decide

theorem readMicros_text (xsink : Bool) (n_zone : Zone) {tm : SimpleTm} (hzero : tm.us = 0)
    (raised : List InvalidDate) {us off : Int} (hus : 0 ≤ us ∧ us < 1000000)
    (hoff : |off| < 360000) :
    readMicros xsink n_zone tm raised (microsText us ++ (offsetText off ++ [nul])) =
      .ok (setFields (findCreateOffsetZone off) { tm with us } raised) := by
  obtain ⟨c, q, hsign, hdigit, hnul, hpoint⟩ := offsetText_eq_cons off
  have hoffset := readOffset_text xsink n_zone { tm with us } raised hoff
  rw [hsign] at hoffset ⊢
  unfold microsText
  split <;> rename_i hus0
  · -- a fraction has a digit, because something is left of it
    have hscan := scanDigits_append (q := q) (allDigits_trimmed 6 us) hdigit
    have hmicros := microsOfDigits_trimmed hus
    obtain ⟨d, ds, hds⟩ := List.exists_cons_of_ne_nil (trimmed_ne_nil 6 hus0)
    have hd : d.isDigit = true :=
      allDigits_trimmed 6 us d (by rw [hds]; exact List.mem_cons_self ..)
    rw [hds] at hscan hmicros ⊢
    unfold readMicros
    rw [List.cons_append, read_bind, if_neg (by decide), if_pos rfl, List.tail_cons]
    rw [List.cons_append] at hscan ⊢
    rw [read_bind, if_pos hd, hscan, ok_bind]
    simp only [hmicros, read_bind, if_neg hnul]
    exact hoffset
  · rw [not_ne_iff] at hus0
    subst hus0
    have htm : { tm with us := 0 } = tm := by rw [← hzero]
    rw [htm] at hoffset ⊢
    unfold readMicros
    rw [List.nil_append, read_bind, if_neg hnul, if_neg hpoint]
    exact hoffset

/-! ### The clock and the date are read -/

end AbsTime

/-- The fields of a wall clock that a text has room for. -/
structure SimpleTm.Printable (tm : SimpleTm) : Prop where
  year : 0 ≤ tm.year ∧ tm.year ≤ 9999
  month : 1 ≤ tm.month ∧ tm.month ≤ 12
  day : 1 ≤ tm.day ∧ tm.day ≤ 31
  known : AbsTime.badDay tm = false
  hour : 0 ≤ tm.hour ∧ tm.hour ≤ 23
  minute : 0 ≤ tm.minute ∧ tm.minute ≤ 59
  second : 0 ≤ tm.second ∧ tm.second ≤ 59
  us : 0 ≤ tm.us ∧ tm.us < 1000000

/-- The time of day of a text. -/
def timeText (tm : SimpleTm) (off : Int) : List Char :=
  printInt 2 tm.hour ++ ':' :: (printInt 2 tm.minute ++ ':' :: (printInt 2 tm.second ++
    (microsText tm.us ++ offsetText off)))

/-- The text of a wall clock. -/
def dateText (tm : SimpleTm) (off : Int) : List Char :=
  printInt 4 tm.year ++ '-' :: (printInt 2 tm.month ++ '-' :: (printInt 2 tm.day ++
    'T' :: timeText tm off))

namespace AbsTime

variable {tm : SimpleTm} {off : Int} (xsink : Bool)

theorem readTime_text (n_zone : Zone) (h : tm.Printable) (hoff : |off| < 360000) :
    readTime xsink n_zone { tm with hour := 0, minute := 0, second := 0, us := 0 }
        (timeText tm off ++ [nul]) = .ok (setFields (findCreateOffsetZone off) tm []) := by
  have hhour := h.hour
  have hminute := h.minute
  have hsecond := h.second
  -- every number is read before its separator
  have hread : ∀ {x : Int}, 0 ≤ x ∧ x ≤ 59 → ∀ q, getUint 2 0 (printInt 2 x ++ q) = .ok (x, q) :=
    fun hx => getUint_printInt (by decide) (by omega)
  have hmicros := @readMicros_text xsink n_zone { tm with us := 0 } rfl [] tm.us off h.us hoff
  have htext : timeText tm off ++ [nul] = printInt 2 tm.hour ++ ':' :: (printInt 2 tm.minute ++
      ':' :: (printInt 2 tm.second ++ (microsText tm.us ++ (offsetText off ++ [nul])))) := by
    unfold timeText
    simp
  have hfinal : readSecond xsink n_zone { tm with second := 0, us := 0 } []
      (printInt 2 tm.second ++ (microsText tm.us ++ (offsetText off ++ [nul]))) =
        .ok (setFields (findCreateOffsetZone off) tm []) := by
    unfold readSecond
    rw [hread (by omega), ok_bind]
    dsimp only
    rw [if_neg (by omega), if_neg (by omega)]
    exact hmicros
  have hmiddle : readMinute xsink true n_zone { tm with minute := 0, second := 0, us := 0 }
      (printInt 2 tm.minute ++ ':' :: (printInt 2 tm.second ++
        (microsText tm.us ++ (offsetText off ++ [nul])))) =
        .ok (setFields (findCreateOffsetZone off) tm []) := by
    unfold readMinute
    rw [hread (by omega), ok_bind]
    dsimp only
    rw [if_neg (by omega), if_pos rfl, read_bind, if_pos rfl, if_neg (by omega)]
    exact hfinal
  unfold readTime
  rw [htext, hread (by omega), ok_bind]
  dsimp only
  rw [if_neg (by omega), if_neg (by omega), read_bind, if_pos rfl]
  exact hmiddle

theorem readDay_text (n_zone : Zone) (h : tm.Printable) (hoff : |off| < 360000) :
    readDay xsink n_zone { tm with day := 0, hour := 0, minute := 0, second := 0, us := 0 }
        (printInt 2 tm.day ++ 'T' :: (timeText tm off ++ [nul])) =
      .ok (setFields (findCreateOffsetZone off) tm []) := by
  have hday := h.day
  have hknown : ¬(xsink = true ∧
      badDay { tm with hour := 0, minute := 0, second := 0, us := 0 } = true) := by
    rintro ⟨-, hbad⟩
    have hsame : badDay { tm with hour := 0, minute := 0, second := 0, us := 0 } = badDay tm := rfl
    rw [hsame, h.known] at hbad
    cases hbad
  have htime := readTime_text xsink n_zone h hoff
  unfold readDay
  rw [getUint_printInt (by decide) (by omega), ok_bind]
  dsimp only
  rw [if_neg (by omega), if_neg hknown]
  exact htime

theorem readMonth_text (n_zone : Zone) (h : tm.Printable) (hoff : |off| < 360000) :
    readMonth xsink true n_zone ⟨tm.year, 0, 0, 0, 0, 0, 0⟩ (printInt 2 tm.month ++
        '-' :: (printInt 2 tm.day ++ 'T' :: (timeText tm off ++ [nul]))) =
      .ok (setFields (findCreateOffsetZone off) tm []) := by
  have hmonth := h.month
  have hday := readDay_text xsink n_zone h hoff
  unfold readMonth
  rw [getUint_printInt (by decide) (by omega), ok_bind]
  dsimp only
  rw [if_neg (by omega), if_neg (by omega), if_pos rfl, read_bind, if_pos rfl]
  exact hday

/-- The text of a wall clock with an offset is read without an exception. -/
theorem setText_dateText (n_zone : Zone) (h : tm.Printable) (hoff : |off| < 360000) {s : CString}
    (hs : s.chars = dateText tm off) :
    setText xsink n_zone s = .ok (setFields (findCreateOffsetZone off) tm []) := by
  have hyear := h.year
  have hmonth := readMonth_text xsink n_zone h hoff
  have hmem : s.memory = printInt 4 tm.year ++ '-' :: (printInt 2 tm.month ++
      '-' :: (printInt 2 tm.day ++ 'T' :: (timeText tm off ++ [nul]))) := by
    unfold CString.memory dateText at *
    rw [hs]
    simp
  have hlen : ¬s.chars.length < 8 := by
    have hfour := length_padded_ge 4 tm.year.natAbs
    have hmonth2 := length_padded_ge 2 tm.month.natAbs
    rw [hs, dateText, printInt_of_nonneg 4 hyear.1,
      printInt_of_nonneg 2 (h.month.1.trans' (by decide)),
      printInt_of_nonneg 2 (h.day.1.trans' (by decide))]
    simp only [List.length_append, List.length_cons]
    omega
  unfold setText
  rw [if_neg hlen, hmem, getUint_printInt (by decide) (by omega), ok_bind]
  dsimp only
  rw [if_neg (by omega), read_bind, if_pos rfl]
  exact hmonth

/-! ### The round trip -/

/-- The text of a time is the text of its wall clock and the offset of its zone. -/
theorem formatIF_eq {t : AbsTime} (hus : 0 ≤ t.get.us) :
    t.formatIF = dateText t.get (t.zone.off t.epoch) := by
  unfold formatIF dateText timeText microsText
  rw [concatOffset_eq]
  by_cases hzero : t.get.us = 0
  · rw [if_neg (not_not_intro hzero), if_neg (not_not_intro hzero)]
    simp
  · have hsix : printInt 6 t.get.us = padded 6 t.get.us.natAbs := printInt_of_nonneg 6 hus
    have htrim : ∀ str : List Char, trimZeros (str ++ '.' :: padded 6 t.get.us.natAbs) =
        str ++ '.' :: trimmed 6 t.get.us := by
      intro str
      have hsplit : str ++ '.' :: padded 6 t.get.us.natAbs =
          (str ++ ['.']) ++ padded 6 t.get.us.natAbs := by simp
      rw [hsplit, trimZeros_append_left _ (trimmed_ne_nil 6 hzero)]
      simp [trimmed]
    rw [if_pos hzero, if_pos hzero, hsix, htrim]
    simp

end AbsTime

theorem offsetText_noNul (off : Int) : nul ∉ offsetText off := by
  have hnumber := printInt_noNul 2
  have hseconds : nul ∉ offsetSeconds (|off| % 60) := by
    unfold offsetSeconds
    split
    · rw [List.mem_cons, not_or]
      exact ⟨by decide, hnumber _⟩
    · exact List.not_mem_nil
  unfold offsetText
  simp only [List.mem_cons, List.mem_append, not_or]
  refine ⟨?_, hnumber _, by decide, hnumber _, hseconds⟩
  split <;> decide

namespace AbsTime

theorem formatIF_noNul (t : AbsTime) : nul ∉ t.formatIF := by
  have hnumber := printInt_noNul
  have htrim : ∀ str : List Char, nul ∉ str → nul ∉ trimZeros str := by
    intro str hstr hmem
    obtain ⟨k, hk⟩ := trimZeros_append str
    rw [hk] at hstr
    exact hstr (List.mem_append_left _ hmem)
  have hclock : nul ∉ printInt 4 t.get.year ++ '-' :: (printInt 2 t.get.month ++ '-' ::
      (printInt 2 t.get.day ++ 'T' :: (printInt 2 t.get.hour ++ ':' :: (printInt 2 t.get.minute ++
        ':' :: printInt 2 t.get.second)))) := by
    simp only [List.mem_append, List.mem_cons, not_or]
    exact ⟨hnumber _ _, by decide, hnumber _ _, by decide, hnumber _ _, by decide, hnumber _ _,
      by decide, hnumber _ _, by decide, hnumber _ _⟩
  unfold formatIF
  rw [concatOffset_eq, List.mem_append, not_or]
  refine ⟨?_, offsetText_noNul _⟩
  split
  · refine htrim _ ?_
    rw [List.mem_append, List.mem_cons, not_or, not_or]
    exact ⟨hclock, by decide, hnumber _ _⟩
  · exact hclock

/-- The text of a time. -/
def textIF (t : AbsTime) : CString := ⟨t.formatIF, t.formatIF_noNul⟩

/-- The year that the wall clock of a time shows. -/
def HasLocalYear (t : AbsTime) (y : Int) : Prop :=
  Gregorian.yearStart y ≤ (t.epoch + t.zone.off t.epoch) / 86400 ∧
    (t.epoch + t.zone.off t.epoch) / 86400 < Gregorian.yearStart (y + 1)

instance (t : AbsTime) (y : Int) : Decidable (t.HasLocalYear y) := by
  unfold HasLocalYear; infer_instance

end AbsTime

/-- The day part of the second of a year with four digits fits. -/
theorem epochFits_of_year {d : Date} (h : 0 ≤ d.year ∧ d.year ≤ 9999) :
    EpochFits d.year d.month d.day := by
  have hmonth := positiveMonths_bounds d.month_mem
  have hlen := Gregorian.monthLength_bounds d.year d.month
  have hday := d.day_mem
  have hsecs : secsPerDay = 86400 := rfl
  unfold EpochFits FitsInt epochDays
  rw [leapDaysFromEpoch_eq, lostDays_of_nonneg h.1, hsecs]
  unfold Gregorian.leapsThrough
  split <;> omega

theorem SimpleTm.printable_of {d : Date} (hyear : 0 ≤ d.year ∧ d.year ≤ 9999) {sec us : Int}
    (hsec : 0 ≤ sec ∧ sec < 86400) (hus : 0 ≤ us ∧ us < 1000000) :
    (SimpleTm.of d sec us).Printable := by
  have hlen := Gregorian.monthLength_bounds d.year d.month
  have hday := d.day_mem
  have hknown : AbsTime.badDay (SimpleTm.of d sec us) = false := by
    have hlast := @getLastDayOfMonth_eq d.month d.year d.month_mem
    show decide (d.day < 1 ∨ (d.day > 28 ∧ d.day > getLastDayOfMonth d.month d.year)) = false
    rw [hlast, decide_eq_false_iff_not]
    omega
  exact {
    year := hyear
    month := d.month_mem
    day := show 1 ≤ d.day ∧ d.day ≤ 31 by omega
    known := hknown
    hour := show 0 ≤ sec / 3600 ∧ sec / 3600 ≤ 23 by omega
    minute := show 0 ≤ sec % 3600 / 60 ∧ sec % 3600 / 60 ≤ 59 by omega
    second := show 0 ≤ sec % 60 ∧ sec % 60 ≤ 59 by omega
    us := hus }

theorem off_findCreateOffsetZone (off s : Int) : (findCreateOffsetZone off).off s = off := by
  unfold findCreateOffsetZone
  split <;> rename_i h
  · exact h.symm
  · rfl

namespace AbsTime

/-- A time with a year of four digits and an offset of less than 100 hours is read back from its
text without an exception, whether there is a sink for one or not. The zone of the result has the
offset of the text at every second. -/
theorem setText_roundTrip (xsink : Bool) (n_zone : Zone) {t : AbsTime} {y : Int}
    (hlocal : t.HasLocalYear y) (hy : 0 ≤ y ∧ y ≤ 9999) (hus : t.us < 1000000)
    (hoff : |t.zone.off t.epoch| < 360000) :
    ∃ r, setText xsink n_zone t.textIF = .ok ⟨some r, []⟩ ∧ r.epoch = t.epoch ∧ r.us = t.us ∧
      r.zone = findCreateOffsetZone (t.zone.off t.epoch) ∧
      ∀ s, r.zone.off s = t.zone.off t.epoch := by
  obtain ⟨d, hd⟩ := Gregorian.exists_number_eq ((t.epoch + t.zone.off t.epoch) / 86400)
  obtain ⟨sec, hsec⟩ : ∃ sec, sec = (t.epoch + t.zone.off t.epoch) % 86400 := ⟨_, rfl⟩
  have hrange : 0 ≤ sec ∧ sec < 86400 := by omega
  have hsum : t.epoch + t.zone.off t.epoch = 86400 * d.number + sec := by omega
  have hyear : d.year = y := by
    have hbounds := d.number_bounds
    rw [hd] at hbounds
    exact Gregorian.year_unique hbounds hlocal
  rw [← hyear] at hy
  -- the wall clock
  have hget : t.get = SimpleTm.of d sec t.us := get_date hrange (by omega) hus hsum
  have hprintable := SimpleTm.printable_of hy hrange (show 0 ≤ (t.us : Int) ∧ _ by omega)
  have htext : t.textIF.chars = dateText (SimpleTm.of d sec t.us) (t.zone.off t.epoch) := by
    rw [← hget]
    refine formatIF_eq ?_
    exact Int.natCast_nonneg _
  -- the second that `set` finds
  have hread := setText_dateText xsink n_zone hprintable hoff htext
  have hset := set_date (findCreateOffsetZone (t.zone.off t.epoch)) d sec hus (epochFits_of_year hy)
  have hepoch : localSecs d sec - t.zone.off t.epoch = t.epoch := by
    unfold localSecs
    rw [lostDays_of_nonneg hy.1]
    omega
  rw [off_findCreateOffsetZone, hepoch] at hset
  refine ⟨⟨t.epoch, t.us, findCreateOffsetZone (t.zone.off t.epoch)⟩, ?_, rfl, rfl, rfl,
    off_findCreateOffsetZone _⟩
  rw [hread]
  exact congrArg (fun r => Except.ok (Outcome.mk r [])) hset

/-- Half a second after noon, in a zone half an hour and 30 seconds west of UTC. -/
theorem setText_roundTrip_west :
    ∃ r, setText true Zone.utc (textIF ⟨1075640430, 500000, Zone.offset (-1830)⟩) =
        .ok ⟨some r, []⟩ ∧ r.epoch = 1075640430 ∧ r.us = 500000 ∧
      r.zone = findCreateOffsetZone (-1830) ∧ ∀ s, r.zone.off s = -1830 :=
  setText_roundTrip (y := 2004) true Zone.utc (t := ⟨1075640430, 500000, Zone.offset (-1830)⟩)
    (by decide) (by decide) (by decide) (by decide)

end AbsTime

end Qore.Date
