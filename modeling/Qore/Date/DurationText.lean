import Mathlib
import Qore.Date.Iso8601

/-!
# `Qore.Date.DurationText`: printing a duration

The mask `IF` prints a duration as `P1Y2M3DT4H5M6.7S`. Each part has its own sign. The microseconds
are printed as the fraction of the seconds, also when they are negative: then the text has a sign
after the decimal point, and the reader takes what follows it for the seconds.

* `formatIF_eq`: the text is a sequence of numbers with their units.
* `roundTrip_iff`: the durations that are read back from their text.
-/

set_option autoImplicit false

namespace Qore.Date

open Qore.Lib Qore.Lib.Decimal

/-! ### The printer -/

/-- `sprintf("%d", x)`, or `"%0*d"` for a width of `w`, which counts the sign. -/
def printInt (w : Nat) (x : Int) : List Char :=
  if x < 0 then '-' :: padded (w - 1) x.natAbs else padded w x.natAbs

/-- `if (x) str.sprintf("%d" unit, x);`. -/
def concatField (str : List Char) (x : Int) (unit : Char) : List Char :=
  if x ≠ 0 then str ++ (printInt 0 x ++ [unit]) else str

/-- `qore_date_private::format` of a duration with the mask `IF`. -/
def RelTime.formatIF (i : RelTime) : List Char :=
  let str := concatField ['P'] i.year 'Y'
  let str := concatField str i.month 'M'
  let str := concatField str i.day 'D'
  let str :=
    if i.hour ≠ 0 ∨ i.minute ≠ 0 ∨ i.second ≠ 0 ∨ i.us ≠ 0 then
      let str := str ++ ['T']
      let str := concatField str i.hour 'H'
      let str := concatField str i.minute 'M'
      if i.us ≠ 0 then
        trimZeros (str ++ (printInt 0 i.second ++ '.' :: printInt 6 i.us)) ++ ['S']
      else concatField str i.second 'S'
    else str
  if str.length = 1 then str ++ ['0', 'D'] else str

/-! ### Printed numbers are read back -/

theorem value_cons (c : Char) (ds : List Char) :
    value (c :: ds) = (c.toNat - '0'.toNat) * 10 ^ ds.length + value ds := by
  have happend := value_append [c] ds
  have hone : value [c] = c.toNat - '0'.toNat := by
    unfold value
    rw [Nat.ofDigitChars_cons, Nat.ofDigitChars_nil, Nat.mul_zero, Nat.zero_add]
  rwa [List.singleton_append, hone] at happend

/-- The digits are read to their value, when it is an `int`: no step on the way is larger. -/
theorem accumulate_eq {ds : List Char} (hd : AllDigits ds) {rc : Int} (hrc : 0 ≤ rc)
    (hfits : FitsInt rc) : accumulate rc ds = checkedInt (rc * 10 ^ ds.length + value ds) := by
  induction ds generalizing rc with
  | nil =>
    have hzero : rc * 10 ^ ([] : List Char).length + value [] = rc := by simp [value]
    rw [hzero, checkedInt_of_fits hfits]
    rfl
  | cons c ds ih =>
    have hc := digit_le c (hd c (List.mem_cons_self ..))
    have hrest : AllDigits ds := fun e he => hd e (List.mem_cons_of_mem _ he)
    rw [accumulate, value_cons]
    generalize c.toNat - '0'.toNat = d at hc
    have hsum : rc * 10 ^ (c :: ds).length + ((d * 10 ^ ds.length + value ds : Nat) : Int) =
        (10 * rc + d) * 10 ^ ds.length + value ds := by
      rw [List.length_cons, pow_succ]
      push_cast
      ring
    rw [hsum]
    by_cases hstep : 10 * rc + d ≤ 2147483647
    · have htens : FitsInt (10 * rc) := by
        unfold FitsInt
        omega
      have hnext : FitsInt (10 * rc + d) := by
        unfold FitsInt
        omega
      rw [checkedInt_of_fits htens]
      simp only [Option.bind_eq_bind, Option.bind_some, checkedInt_of_fits hnext]
      exact ih hrest (by omega) hnext
    · have hle : 10 * rc + d ≤ (10 * rc + d) * 10 ^ ds.length :=
        le_mul_of_one_le_right (by omega) (one_le_pow₀ (by decide))
      have hover : ¬FitsInt ((10 * rc + d) * 10 ^ ds.length + value ds) := by
        unfold FitsInt
        omega
      have hnext : ¬FitsInt (10 * rc + d) := by
        unfold FitsInt
        omega
      rw [checkedInt_of_not_fits hover]
      by_cases htens : FitsInt (10 * rc)
      · rw [checkedInt_of_fits htens]
        simp only [Option.bind_eq_bind, Option.bind_some, checkedInt_of_not_fits hnext,
          Option.bind_none]
      · rw [checkedInt_of_not_fits htens]
        rfl

/-- A printed number, with the digits of a fraction or none. -/
def printed (x : Int) (frac : Option (List Char)) (h : ∀ fs, frac = some fs → AllDigits fs) :
    Numeral where
  neg := decide (x < 0)
  int := padded 0 x.natAbs
  frac := frac
  int_ne := padded_ne_nil 0 x.natAbs
  int_digits := allDigits_padded 0 x.natAbs
  frac_digits := h

theorem printed_text (x : Int) {frac : Option (List Char)} (h) :
    (printed x frac h).text = printInt 0 x ++ Numeral.fracText frac := by
  unfold Numeral.text printed printInt
  by_cases hx : x < 0
  · simp [hx]
  · simp [hx]

/-- What is read for a printed number. The digits of the smallest `int` overflow. -/
def readBack (x : Int) : Option Int := if x = -2147483648 then none else some x

theorem printed_val {x : Int} (hx : FitsInt x) {frac : Option (List Char)} (h) :
    (printed x frac h).number.val = readBack x := by
  show withSign (decide (x < 0)) (accumulate 0 (padded 0 x.natAbs)) = _
  rw [accumulate_eq (allDigits_padded 0 x.natAbs) (by decide) (by decide), value_padded,
    Int.zero_mul, Int.zero_add]
  unfold FitsInt at hx
  unfold readBack withSign
  by_cases hmin : x = -2147483648
  · subst hmin
    rfl
  · have habs : FitsInt (x.natAbs : Int) := by
      unfold FitsInt
      omega
    rw [checkedInt_of_fits habs, if_neg hmin, Option.bind_some]
    by_cases hneg : x < 0
    · rw [decide_eq_true hneg, if_pos rfl]
      have heq : -(x.natAbs : Int) = x := by omega
      rw [heq, checkedInt_of_fits hx]
    · rw [decide_eq_false hneg, if_neg Bool.false_ne_true]
      have heq : (x.natAbs : Int) = x := by omega
      rw [heq, checkedInt_of_fits hx]

/-! ### The items of a printed duration -/

/-- `T` before the first item. -/
def markFirst : List Item → List Item
  | [] => []
  | i :: items => { i with mark := some 'T' } :: items

/-- A field, unless it is zero. -/
def fieldItems (x : Int) (unit : Char) : List Item :=
  if x ≠ 0 then [⟨none, printed x none (by simp), unit⟩] else []

theorem concatField_eq (str : List Char) (x : Int) (unit : Char) :
    concatField str x unit = str ++ itemsText (fieldItems x unit) := by
  unfold concatField fieldItems
  split
  · simp [itemsText, Item.text, printed_text, Numeral.fracText]
  · simp [itemsText]

/-- The digits of a number without the zeros at the end. -/
def trimmed (w : Nat) (us : Int) : List Char := trimZeros (padded w us.natAbs)

theorem allDigits_trimmed (w : Nat) (us : Int) : AllDigits (trimmed w us) :=
  allDigits_trimZeros (allDigits_padded w _)

theorem trimmed_ne_nil (w : Nat) {us : Int} (h : us ≠ 0) : trimmed w us ≠ [] :=
  trimZeros_ne_nil (by rw [value_padded]; omega)

/-- The seconds with microseconds that are not negative. -/
def wholeItems (second us : Int) : List Item :=
  [⟨none, printed second (some (trimmed 6 us)) (by rintro fs ⟨⟩; exact allDigits_trimmed 6 us), 'S'⟩]

/-- A decimal point without digits. -/
theorem allDigits_point : ∀ fs : List Char, some [] = some fs → AllDigits fs := by
  rintro fs ⟨⟩
  simp [AllDigits]

/-- The seconds with negative microseconds: the sign after the decimal point is the unit of the
seconds, and the microseconds are a number of seconds. -/
def brokenItems (second us : Int) (h : us < 0) : List Item :=
  [⟨none, printed second (some []) allDigits_point, '-'⟩,
    ⟨none, ⟨false, trimmed 5 us, none, trimmed_ne_nil 5 (Int.ne_of_lt h), allDigits_trimmed 5 us,
      by simp⟩, 'S'⟩]

/-- The seconds of a text. -/
def secondItems (second us : Int) : List Item :=
  if us = 0 then fieldItems second 'S'
  else if h : us < 0 then brokenItems second us h
  else wholeItems second us

theorem trimZeros_second (str : List Char) (second : Int) {us : Int} (h : us ≠ 0) :
    trimZeros (str ++ (printInt 0 second ++ '.' :: printInt 6 us)) ++ ['S'] =
      str ++ itemsText (secondItems second us) := by
  unfold secondItems
  rw [if_neg h]
  by_cases hneg : us < 0
  · have hsplit : str ++ (printInt 0 second ++ '.' :: printInt 6 us) =
        (str ++ printInt 0 second ++ ['.', '-']) ++ padded 5 us.natAbs := by
      simp [printInt, hneg]
    rw [dif_pos hneg, hsplit, trimZeros_append_left _ (trimmed_ne_nil 5 h)]
    have hnumber : Numeral.text (printed second (some []) allDigits_point) =
        printInt 0 second ++ ['.'] := printed_text second _
    simp only [brokenItems, itemsText, List.flatMap_cons, Item.text, hnumber]
    simp [Numeral.text, Numeral.fracText, trimmed]
  · have hsplit : str ++ (printInt 0 second ++ '.' :: printInt 6 us) =
        (str ++ printInt 0 second ++ ['.']) ++ padded 6 us.natAbs := by
      simp [printInt, hneg]
    rw [dif_neg hneg, hsplit, trimZeros_append_left _ (trimmed_ne_nil 6 h)]
    simp [wholeItems, itemsText, Item.text, printed_text, Numeral.fracText, trimmed]

namespace RelTime

/-- The items of the date part. -/
def dateItems (i : RelTime) : List Item :=
  fieldItems i.year 'Y' ++ fieldItems i.month 'M' ++ fieldItems i.day 'D'

/-- The items of the time part. -/
def timeItems (i : RelTime) : List Item :=
  fieldItems i.hour 'H' ++ fieldItems i.minute 'M' ++ secondItems i.second i.us

/-- A duration of no length is printed as no days. -/
def zeroItem : Item := ⟨none, printed 0 none (by simp), 'D'⟩

/-- The items of the text. -/
def items (i : RelTime) : List Item :=
  if i.dateItems ++ i.timeItems = [] then [zeroItem] else i.dateItems ++ markFirst i.timeItems

theorem itemsText_append (xs ys : List Item) :
    itemsText (xs ++ ys) = itemsText xs ++ itemsText ys :=
  List.flatMap_append

theorem fieldItems_eq_nil_iff (x : Int) (unit : Char) : fieldItems x unit = [] ↔ x = 0 := by
  unfold fieldItems
  split <;> simp_all

theorem secondItems_eq_nil_iff (second us : Int) :
    secondItems second us = [] ↔ second = 0 ∧ us = 0 := by
  unfold secondItems
  split
  · rw [fieldItems_eq_nil_iff]
    tauto
  · split <;> simp_all [brokenItems, wholeItems]

theorem timeItems_eq_nil_iff (i : RelTime) :
    i.timeItems = [] ↔ ¬(i.hour ≠ 0 ∨ i.minute ≠ 0 ∨ i.second ≠ 0 ∨ i.us ≠ 0) := by
  unfold timeItems
  rw [List.append_eq_nil_iff, List.append_eq_nil_iff, fieldItems_eq_nil_iff, fieldItems_eq_nil_iff,
    secondItems_eq_nil_iff]
  tauto

theorem fieldItems_mark (x : Int) (unit : Char) : ∀ it ∈ fieldItems x unit, it.mark = none := by
  unfold fieldItems
  split <;> simp

theorem secondItems_mark (second us : Int) : ∀ it ∈ secondItems second us, it.mark = none := by
  unfold secondItems
  split
  · exact fieldItems_mark second 'S'
  · split <;> simp [brokenItems, wholeItems]

/-- No item of a time part has a `T` yet. -/
theorem timeItems_mark (i : RelTime) : ∀ it ∈ i.timeItems, it.mark = none := by
  intro it hit
  rcases List.mem_append.mp hit with hit | hit
  · rcases List.mem_append.mp hit with hit | hit
    · exact fieldItems_mark _ _ it hit
    · exact fieldItems_mark _ _ it hit
  · exact secondItems_mark _ _ it hit

variable {items : List Item}

theorem itemsText_markFirst (hne : items ≠ []) (hmark : ∀ it ∈ items, it.mark = none) :
    itemsText (markFirst items) = 'T' :: itemsText items := by
  cases items with
  | nil => exact absurd rfl hne
  | cons i items =>
    have hi := hmark i (List.mem_cons_self ..)
    simp [markFirst, itemsText, Item.text, hi]

/-- The time part of the text. -/
theorem format_time (i : RelTime) (str : List Char) (h : i.timeItems ≠ []) :
    (let str := str ++ ['T']
      let str := concatField str i.hour 'H'
      let str := concatField str i.minute 'M'
      if i.us ≠ 0 then
        trimZeros (str ++ (printInt 0 i.second ++ '.' :: printInt 6 i.us)) ++ ['S']
      else concatField str i.second 'S') = str ++ itemsText (markFirst i.timeItems) := by
  have hseconds : ∀ str : List Char,
      (if i.us ≠ 0 then
        trimZeros (str ++ (printInt 0 i.second ++ '.' :: printInt 6 i.us)) ++ ['S']
      else concatField str i.second 'S') = str ++ itemsText (secondItems i.second i.us) := by
    intro str
    by_cases hus : i.us = 0
    · rw [if_neg (not_not_intro hus), concatField_eq]
      unfold secondItems
      rw [if_pos hus]
    · rw [if_pos hus, trimZeros_second str i.second hus]
  rw [hseconds, concatField_eq, concatField_eq, itemsText_markFirst h i.timeItems_mark]
  unfold timeItems
  rw [itemsText_append, itemsText_append]
  simp

/-- Text has characters for every item. -/
theorem itemsText_eq_nil_iff (items : List Item) : itemsText items = [] ↔ items = [] := by
  constructor
  · intro h
    have hlen := length_itemsText items
    rw [h] at hlen
    exact List.eq_nil_of_length_eq_zero (Nat.le_zero.mp hlen)
  · rintro rfl
    rfl

/-- The text is a sequence of numbers with their units. -/
theorem formatIF_eq (i : RelTime) : i.formatIF = 'P' :: itemsText i.items := by
  have hdate : ∀ str, concatField (concatField (concatField str i.year 'Y') i.month 'M') i.day 'D' =
      str ++ itemsText i.dateItems := by
    intro str
    rw [concatField_eq, concatField_eq, concatField_eq]
    unfold dateItems
    rw [itemsText_append, itemsText_append]
    simp
  have htime := format_time i (['P'] ++ itemsText i.dateItems)
  have hnil := timeItems_eq_nil_iff i
  unfold formatIF
  dsimp only at htime ⊢
  rw [hdate]
  unfold items
  by_cases ht : i.timeItems = []
  · rw [if_neg (hnil.mp ht), ht]
    by_cases hd : i.dateItems = []
    · rw [hd]
      rfl
    · have hne : itemsText i.dateItems ≠ [] := fun h => hd ((itemsText_eq_nil_iff _).mp h)
      rw [if_neg (by simp; omega), if_neg (by simpa using hd)]
      simp [markFirst]
  · have hsome : i.hour ≠ 0 ∨ i.minute ≠ 0 ∨ i.second ≠ 0 ∨ i.us ≠ 0 := by
      by_contra h
      exact ht (hnil.mpr h)
    rw [if_pos hsome, htime ht]
    have hlen : 1 ≤ (itemsText (markFirst i.timeItems)).length := by
      rw [itemsText_markFirst ht i.timeItems_mark]
      simp
    rw [if_neg (by simp only [List.length_append, List.length_singleton]; omega),
      if_neg (by rw [List.append_eq_nil_iff]; exact fun h => ht h.2), itemsText_append]
    simp

/-! ### The items are read -/

theorem timeAfter_of_mark (h : ∀ it ∈ items, it.mark = none) (time : Bool) :
    timeAfter time items = time := by
  induction items generalizing time with
  | nil => rfl
  | cons i items ih =>
    have hi := h i (List.mem_cons_self ..)
    show timeAfter (time || i.mark.isSome) items = time
    rw [hi, ih fun it hit => h it (List.mem_cons_of_mem _ hit)]
    exact Bool.or_false time

variable {time : Bool}

theorem itemsOk_append {xs ys : List Item} (hx : ItemsOk time xs)
    (hy : ItemsOk (timeAfter time xs) ys) : ItemsOk time (xs ++ ys) := by
  induction xs generalizing time with
  | nil => exact hy
  | cons x xs ih => exact ⟨hx.1, ih hx.2 hy⟩

theorem addItems_append (xs ys : List Item) (time : Bool) (t : Option RelTime) :
    addItems time t (xs ++ ys) = addItems (timeAfter time xs) (addItems time t xs) ys := by
  induction xs generalizing time t with
  | nil => rfl
  | cons x xs ih => exact ih _ _

/-- The `T` has the effect that the time part has begun. -/
theorem addItems_markFirst (items : List Item) (time : Bool) (t : Option RelTime)
    (h : items ≠ []) : addItems time t (markFirst items) = addItems true t items := by
  cases items with
  | nil => exact absurd rfl h
  | cons i items =>
    have hafter : Item.timeAfter time { i with mark := some 'T' } = Item.timeAfter true i := by
      unfold Item.timeAfter
      rw [Option.isSome_some, Bool.or_true, Bool.true_or]
    show addItems (Item.timeAfter time { i with mark := some 'T' }) _ items = _
    rw [hafter]
    rfl

theorem itemsOk_markFirst (time : Bool) (h : ItemsOk true items) :
    ItemsOk time (markFirst items) := by
  cases items with
  | nil => trivial
  | cons i items =>
    have hafter : Item.timeAfter time { i with mark := some 'T' } = Item.timeAfter true i := by
      unfold Item.timeAfter
      rw [Option.isSome_some, Bool.or_true, Bool.true_or]
    refine ⟨⟨?_, h.1.ends, fun _ => ?_⟩, ?_⟩
    · rintro c ⟨⟩
      rfl
    · rw [hafter]
      rfl
    · show ItemsOk (Item.timeAfter time { i with mark := some 'T' }) items
      rw [hafter]
      exact h.2

variable {unit : Char}

/-- The units of fields, in their part. -/
theorem fieldItems_ok (x : Int) (hdigit : unit.isDigit = false) (hpoint : unit ≠ '.')
    (htime : needsTime unit = true → time = true) :
    ItemsOk time (fieldItems x unit) := by
  unfold fieldItems
  split
  · refine ⟨⟨by simp, ⟨hdigit, fun _ => hpoint⟩, fun h => ?_⟩, trivial⟩
    rw [Item.timeAfter, htime h]
    rfl
  · trivial

theorem secondItems_ok (second us : Int) : ItemsOk true (secondItems second us) := by
  unfold secondItems
  split
  · exact fieldItems_ok second rfl (by decide) fun _ => rfl
  · split
    · exact ⟨⟨by simp, ⟨rfl, fun h => by cases h⟩, fun _ => rfl⟩,
        ⟨by simp, ⟨rfl, fun _ => (by decide : 'S' ≠ '.')⟩, fun _ => rfl⟩, trivial⟩
    · exact ⟨⟨by simp, ⟨rfl, fun _ => (by decide : 'S' ≠ '.')⟩, fun _ => rfl⟩, trivial⟩

theorem dateItems_mark (i : RelTime) : ∀ it ∈ i.dateItems, it.mark = none := by
  intro it hit
  rcases List.mem_append.mp hit with hit | hit
  · rcases List.mem_append.mp hit with hit | hit
    · exact fieldItems_mark _ _ it hit
    · exact fieldItems_mark _ _ it hit
  · exact fieldItems_mark _ _ it hit

theorem dateItems_ok (i : RelTime) : ItemsOk false i.dateItems := by
  have hmarks := fun x unit => timeAfter_of_mark (fieldItems_mark x unit) false
  refine itemsOk_append (itemsOk_append ?_ ?_) ?_
  · exact fieldItems_ok _ rfl (by decide) fun h => absurd h (by decide)
  · rw [hmarks]
    exact fieldItems_ok _ rfl (by decide) fun h => absurd h (by decide)
  · rw [timeAfter_of_mark fun it hit => ?_]
    · exact fieldItems_ok _ rfl (by decide) fun h => absurd h (by decide)
    · rcases List.mem_append.mp hit with hit | hit
      · exact fieldItems_mark _ _ it hit
      · exact fieldItems_mark _ _ it hit

theorem timeItems_ok (i : RelTime) : ItemsOk true i.timeItems := by
  have hmarks := fun x unit => timeAfter_of_mark (fieldItems_mark x unit) true
  refine itemsOk_append (itemsOk_append ?_ ?_) ?_
  · exact fieldItems_ok _ rfl (by decide) fun _ => rfl
  · rw [hmarks]
    exact fieldItems_ok _ rfl (by decide) fun _ => rfl
  · rw [timeAfter_of_mark fun it hit => ?_]
    · exact secondItems_ok _ _
    · rcases List.mem_append.mp hit with hit | hit
      · exact fieldItems_mark _ _ it hit
      · exact fieldItems_mark _ _ it hit

/-- A text is the items of its two parts, or no days. -/
theorem parts_ok {date time : List Item} (hdate : ItemsOk false date)
    (hmark : ∀ it ∈ date, it.mark = none) (htime : ItemsOk true time) :
    ItemsOk false (if date ++ time = [] then [zeroItem] else date ++ markFirst time) := by
  split
  · exact ⟨⟨by simp [zeroItem], ⟨rfl, fun _ => by decide⟩, fun h => absurd h (by decide)⟩, trivial⟩
  · refine itemsOk_append hdate ?_
    rw [timeAfter_of_mark hmark]
    exact itemsOk_markFirst false htime

theorem items_ok (i : RelTime) : ItemsOk false i.items :=
  parts_ok i.dateItems_ok i.dateItems_mark i.timeItems_ok

/-- The duration after the two parts of a text: first the date part. -/
theorem addItems_parts {date time : List Item} (hmark : ∀ it ∈ date, it.mark = none) :
    addItems false (some zero) (if date ++ time = [] then [zeroItem] else date ++ markFirst time) =
      addItems true (addItems false (some zero) date) time := by
  split <;> rename_i hnil
  · rw [List.append_eq_nil_iff] at hnil
    rw [hnil.1, hnil.2]
    decide
  · rw [addItems_append, timeAfter_of_mark hmark]
    by_cases ht : time = []
    · rw [ht]
      rfl
    · exact addItems_markFirst _ _ _ ht

theorem addItems_items (i : RelTime) : addItems false (some zero) i.items =
    addItems true (addItems false (some zero) i.dateItems) i.timeItems :=
  addItems_parts i.dateItems_mark

/-! ### The fields are read back -/

variable {t : RelTime} {x : Int}

/-- A number without a fraction changes one field. -/
theorem addItems_field (hx : FitsInt x) (f : Int → RelTime)
    (hadd : ∀ v, FitsInt v → t.addUnit time unit v 0 = some (f v)) (hsame : f 0 = t) :
    addItems time (some t) (fieldItems x unit) = (readBack x).map f := by
  unfold fieldItems
  split <;> rename_i hzero
  · show (Numeral.number (printed x none (by simp))).addTo (time || false) unit (some t) = _
    have hval := @printed_val x hx none (by simp)
    unfold Number.addTo
    rw [hval, Bool.or_false, Option.bind_some]
    unfold readBack
    split
    · rfl
    · exact hadd x hx
  · rw [not_ne_iff] at hzero
    subst hzero
    show some t = some (f 0)
    rw [hsame]

variable {us : Int}

/-- `us += d` for a number of microseconds. -/
theorem addFractionalSecond_eq (t : RelTime) (hus : FitsInt us) (hzero : t.us = 0) :
    t.addFractionalSecond ((us : ℚ) / 10 ^ 6) = some { t with us } := by
  have hexact : ((t.us : ℚ) + (us : ℚ) / 10 ^ 6 * 1000000) = us := by
    rw [hzero]
    ring
  have htrunc : truncRat (us : ℚ) = us := by
    unfold truncRat
    simp
  unfold addFractionalSecond
  rw [hexact, htrunc, checkedInt_of_fits hus]
  rfl

variable {second : Int}

/-- The seconds and the microseconds are read back, when the microseconds are below a second. -/
theorem addItems_second (hsecond : FitsInt second) (hzero : t.second = 0 ∧ t.us = 0)
    (hus : 0 ≤ us ∧ us < 1000000) :
    addItems true (some t) (secondItems second us) =
      (readBack second).map fun second => { t with second, us } := by
  have hadd : ∀ v, FitsInt v → ∀ d, t.addUnit true 'S' v d =
      addIf addFractionalSecond d { t with second := v } := by
    intro v hv d
    show (do
      let second ← checkedInt (t.second + v)
      addIf addFractionalSecond d { t with second }) = _
    rw [hzero.1, Int.zero_add, checkedInt_of_fits hv]
    rfl
  unfold secondItems
  split <;> rename_i hus0
  · subst hus0
    refine addItems_field hsecond (fun second => { t with second, us := 0 }) (fun v hv => ?_) ?_
    · rw [hadd v hv]
      show some { t with second := v } = _
      rw [← hzero.2]
    · cases t
      simp_all
  · rw [dif_neg (by omega)]
    have hlen : (padded 6 us.natAbs).length = 6 := length_padded (by decide) (by omega)
    have hfrac : fraction (trimmed 6 us) = (us : ℚ) / 10 ^ 6 := by
      have hcast : ((us.natAbs : ℕ) : ℚ) = (us : ℚ) := by
        have hnat : ((us.natAbs : ℕ) : Int) = us := by omega
        rw [← Int.cast_natCast, hnat]
      unfold trimmed
      rw [fraction_trimZeros]
      unfold fraction
      rw [value_padded, hlen, hcast]
    have hpos : (us : ℚ) / 10 ^ 6 ≠ 0 := by
      positivity
    show Number.addTo ⟨_, fraction (trimmed 6 us)⟩ true 'S' (some t) = _
    unfold Number.addTo
    rw [Option.bind_some, hfrac]
    have hval := @printed_val second hsecond (some (trimmed 6 us))
      (by rintro fs ⟨⟩; exact allDigits_trimmed 6 us)
    show (Numeral.number (printed second (some (trimmed 6 us)) _)).val.bind _ = _
    rw [hval]
    unfold readBack
    split
    · rfl
    · rw [Option.bind_some, hadd second hsecond]
      unfold addIf
      rw [if_neg hpos]
      have hfits : FitsInt us := by
        unfold FitsInt
        omega
      exact addFractionalSecond_eq { t with second } hfits hzero.2

/-- The fields before the microseconds. -/
def fields (i : RelTime) : List Int := [i.year, i.month, i.day, i.hour, i.minute, i.second]

/-- Every field is an `int`. -/
structure Ints (i : RelTime) : Prop where
  fields : ∀ x ∈ i.fields, FitsInt x
  us : FitsInt i.us

/-- No field has the value whose digits overflow. -/
def NoMin (i : RelTime) : Prop := ∀ x ∈ i.fields, x ≠ -2147483648

variable {i : RelTime}

theorem NoMin.readBack (h : i.NoMin) (hx : x ∈ i.fields) : readBack x = some x :=
  if_neg (h x hx)

/-- The items of the date part set its fields. -/
theorem addItems_dateItems (h : i.Ints) (hmin : i.NoMin) :
    addItems false (some zero) i.dateItems = some ⟨i.year, i.month, i.day, 0, 0, 0, 0⟩ := by
  have hyear := addItems_field (h.fields i.year (by simp [fields]))
    (fun year => ⟨year, 0, 0, 0, 0, 0, 0⟩)
    (fun v hv => show addUnit false 'Y' v 0 zero = _ by
      simp [addUnit, addIf, checkedInt_of_fits hv, zero, ofTime]) rfl
  have hmonth := addItems_field (h.fields i.month (by simp [fields]))
    (fun month => ⟨i.year, month, 0, 0, 0, 0, 0⟩)
    (fun v hv => show addUnit false 'M' v 0 ⟨i.year, 0, 0, 0, 0, 0, 0⟩ = _ by
      simp [addUnit, addIf, checkedInt_of_fits hv]) rfl
  have hday := addItems_field (h.fields i.day (by simp [fields]))
    (fun day => ⟨i.year, i.month, day, 0, 0, 0, 0⟩)
    (fun v hv => show addUnit false 'D' v 0 ⟨i.year, i.month, 0, 0, 0, 0, 0⟩ = _ by
      simp [addUnit, addIf, checkedInt_of_fits hv]) rfl
  have hmarks := fun x unit => timeAfter_of_mark (fieldItems_mark x unit) false
  unfold dateItems
  rw [List.append_assoc, addItems_append, addItems_append, hmarks, hmarks, hyear,
    hmin.readBack (by simp [fields]), Option.map_some, hmonth, hmin.readBack (by simp [fields]),
    Option.map_some, hday, hmin.readBack (by simp [fields]), Option.map_some]

/-- The items of the time part set its fields, when the microseconds are below a second. -/
theorem addItems_timeItems (h : i.Ints) (hmin : i.NoMin) (hus : 0 ≤ i.us ∧ i.us < 1000000) :
    addItems true (some ⟨i.year, i.month, i.day, 0, 0, 0, 0⟩) i.timeItems = some i := by
  have hhour := addItems_field (h.fields i.hour (by simp [fields]))
    (fun hour => ⟨i.year, i.month, i.day, hour, 0, 0, 0⟩)
    (fun v hv => show addUnit true 'H' v 0 ⟨i.year, i.month, i.day, 0, 0, 0, 0⟩ = _ by
      simp [addUnit, addIf, checkedInt_of_fits hv]) rfl
  have hminute := addItems_field (h.fields i.minute (by simp [fields]))
    (fun minute => ⟨i.year, i.month, i.day, i.hour, minute, 0, 0⟩)
    (fun v hv => show addUnit true 'M' v 0 ⟨i.year, i.month, i.day, i.hour, 0, 0, 0⟩ = _ by
      simp [addUnit, addIf, checkedInt_of_fits hv]) rfl
  have hsecond := addItems_second (t := ⟨i.year, i.month, i.day, i.hour, i.minute, 0, 0⟩)
    (h.fields i.second (by simp [fields])) ⟨rfl, rfl⟩ hus
  have hmarks := fun x unit => timeAfter_of_mark (fieldItems_mark x unit) true
  unfold timeItems
  rw [List.append_assoc, addItems_append, addItems_append, hmarks, hmarks, hhour,
    hmin.readBack (by simp [fields]), Option.map_some, hminute, hmin.readBack (by simp [fields]),
    Option.map_some, hsecond, hmin.readBack (by simp [fields]), Option.map_some]

/-! ### Durations that are not read back -/

theorem addItems_none (time : Bool) (items : List Item) : addItems time none items = none := by
  induction items generalizing time with
  | nil => rfl
  | cons i items ih => exact ih _

/-- A number that overflows leaves no duration. -/
theorem addItems_overflow {it : Item} (hit : it ∈ items) (hval : it.numeral.number.val = none)
    (time : Bool) (t : Option RelTime) :
    addItems time t items = none := by
  induction items generalizing time t with
  | nil => cases hit
  | cons i items ih =>
    rcases List.mem_cons.mp hit with rfl | hit
    · show addItems _ (Number.addTo _ _ _ t) items = none
      have hnone : it.numeral.number.addTo (it.timeAfter time) it.unit t = none := by
        unfold Number.addTo
        rw [hval]
        cases t <;> rfl
      rw [hnone, addItems_none]
    · exact ih hit _ _

variable {t' : RelTime}

/-- A field was set, and the others were kept. -/
theorem bind_checkedInt_us {f : Int → RelTime}
    (h : ((checkedInt x).bind fun v => addIf addFractionalSecond 0 (f v)) = some t')
    (hf : ∀ v, (f v).us = t.us) : t'.us = t.us := by
  obtain ⟨v, -, heq⟩ := Option.bind_eq_some_iff.mp h
  unfold addIf at heq
  rw [if_pos rfl, Option.some.injEq] at heq
  rw [← heq, hf]

/-- A number without a fraction and another unit than `u` keeps the microseconds. -/
theorem addUnit_us {v : Int} (hunit : unit ≠ 'u') (h : t.addUnit time unit v 0 = some t') :
    t'.us = t.us := by
  unfold addUnit at h
  split_ifs at h
  all_goals first
    | exact bind_checkedInt_us h fun _ => rfl
    | rw [Option.some.injEq] at h
      rw [h]

/-- Items without a fraction and without the unit `u` keep the microseconds. -/
theorem addItems_us (hitems : ∀ it ∈ items, it.numeral.number.d = 0 ∧ it.unit ≠ 'u')
    (h : addItems time (some t) items = some t') : t'.us = t.us := by
  induction items generalizing time t with
  | nil =>
    rw [addItems, Option.some.injEq] at h
    rw [h]
  | cons i items ih =>
    obtain ⟨hd, hunit⟩ := hitems i (List.mem_cons_self ..)
    have hrest := fun it hit => hitems it (List.mem_cons_of_mem i hit)
    cases hadd : i.numeral.number.addTo (i.timeAfter time) i.unit (some t) with
    | none =>
      rw [addItems, hadd, addItems_none] at h
      cases h
    | some t1 =>
      rw [addItems, hadd] at h
      unfold Number.addTo at hadd
      rw [Option.bind_some] at hadd
      obtain ⟨v, -, hadd⟩ := Option.bind_eq_some_iff.mp hadd
      rw [hd] at hadd
      exact (ih hrest h).trans (addUnit_us hunit hadd)

theorem fieldItems_plain (hunit : unit ≠ 'u') :
    ∀ it ∈ fieldItems x unit, it.numeral.number.d = 0 ∧ it.unit ≠ 'u' := by
  unfold fieldItems
  split
  · intro it hit
    rw [List.mem_singleton] at hit
    subst hit
    exact ⟨rfl, hunit⟩
  · simp

/-- Negative microseconds are lost. -/
theorem brokenItems_plain (h : us < 0) :
    ∀ it ∈ brokenItems second us h, it.numeral.number.d = 0 ∧ it.unit ≠ 'u' := by
  intro it hit
  rcases List.mem_cons.mp hit with rfl | hit
  · refine ⟨?_, (by decide : '-' ≠ 'u')⟩
    show fraction [] = 0
    simp [fraction, value]
  · rw [List.mem_singleton] at hit
    subst hit
    exact ⟨rfl, (by decide : 'S' ≠ 'u')⟩

theorem truncRat_lt {q : ℚ} {n : Int} (h0 : 0 ≤ q) (h : q < n) : truncRat q < n := by
  have hfloor : truncRat q = ⌊q⌋ := by
    unfold truncRat
    rw [Int.tdiv_eq_ediv_of_nonneg (Rat.num_nonneg.mpr h0), Rat.floor_def']
  rw [hfloor]
  exact Int.floor_lt.mpr h

/-- A fraction of the seconds is less than a second of microseconds. -/
theorem addItems_wholeItems (hzero : t.us = 0)
    (h : addItems true (some t) (wholeItems second us) = some t') : t'.us < 1000000 := by
  have hlt := fraction_lt_one (allDigits_trimmed 6 us)
  have hadd : Number.addTo ⟨(Numeral.number (printed second (some (trimmed 6 us))
      (by rintro fs ⟨⟩; exact allDigits_trimmed 6 us))).val, fraction (trimmed 6 us)⟩ true 'S'
      (some t) = some t' := h
  unfold Number.addTo at hadd
  rw [Option.bind_some] at hadd
  obtain ⟨v, -, hadd⟩ := Option.bind_eq_some_iff.mp hadd
  obtain ⟨s, -, hadd⟩ : ∃ s, checkedInt (t.second + v) = some s ∧
      addIf addFractionalSecond (fraction (trimmed 6 us)) { t with second := s } = some t' :=
    Option.bind_eq_some_iff.mp hadd
  unfold addIf at hadd
  split at hadd
  · rw [Option.some.injEq] at hadd
    rw [← hadd]
    show t.us < 1000000
    omega
  · unfold addFractionalSecond at hadd
    obtain ⟨u, hu, hadd⟩ := Option.bind_eq_some_iff.mp hadd
    cases hadd
    obtain ⟨-, rfl⟩ := checkedInt_eq_some_iff.mp hu
    show truncRat ((t.us : ℚ) + fraction (trimmed 6 us) * 1000000) < 1000000
    have hnonneg := fraction_nonneg (trimmed 6 us)
    rw [hzero, Int.cast_zero, zero_add]
    refine truncRat_lt (by linarith) ?_
    push_cast
    linarith

/-- The items before the seconds keep the microseconds at zero. -/
theorem front_plain (i : RelTime) : ∀ it ∈ i.dateItems ++ (fieldItems i.hour 'H' ++
    fieldItems i.minute 'M'), it.numeral.number.d = 0 ∧ it.unit ≠ 'u' := by
  intro it hit
  unfold dateItems at hit
  simp only [List.mem_append] at hit
  rcases hit with ((hit | hit) | hit) | hit | hit
  all_goals exact fieldItems_plain (by decide) it hit

/-- The duration after the items before the seconds, and what the seconds make of it. -/
theorem addItems_split (h : addItems false (some zero) i.items = some t') :
    ∃ t, t.us = 0 ∧ addItems true (some t) (secondItems i.second i.us) = some t' := by
  rw [addItems_items] at h
  unfold timeItems at h
  rw [addItems_append, timeAfter_of_mark] at h
  · cases hfront : addItems true (addItems false (some zero) i.dateItems)
        (fieldItems i.hour 'H' ++ fieldItems i.minute 'M') with
    | none =>
      rw [hfront, addItems_none] at h
      cases h
    | some t =>
      rw [hfront] at h
      cases hdate : addItems false (some zero) i.dateItems with
      | none =>
        rw [hdate, addItems_none] at hfront
        cases hfront
      | some t0 =>
        rw [hdate] at hfront
        have hplain := i.front_plain
        have h0 := addItems_us (fun it hit => hplain it (List.mem_append_left _ hit)) hdate
        have h1 := addItems_us (fun it hit => hplain it (List.mem_append_right _ hit)) hfront
        exact ⟨t, h1.trans h0, h⟩
  · intro it hit
    rcases List.mem_append.mp hit with hit | hit
    · exact fieldItems_mark _ _ it hit
    · exact fieldItems_mark _ _ it hit

/-- A duration that is read back has microseconds of at least zero and below a second. -/
theorem us_of_roundTrip (h : addItems false (some zero) i.items = some i) :
    0 ≤ i.us ∧ i.us < 1000000 := by
  obtain ⟨t, hzero, hseconds⟩ := addItems_split h
  unfold secondItems at hseconds
  split at hseconds <;> rename_i hus0
  · omega
  · split at hseconds <;> rename_i hneg
    · have := addItems_us (brokenItems_plain hneg) hseconds
      omega
    · have := addItems_wholeItems hzero hseconds
      omega

/-- The number `x` is among the items. -/
def Printed (x : Int) (items : List Item) : Prop :=
  ∃ it ∈ items, ∃ frac h, it.numeral = printed x frac h

theorem Printed.mono {xs ys : List Item} (h : Printed x xs) (hsub : xs ⊆ ys) : Printed x ys := by
  obtain ⟨it, hit, hprinted⟩ := h
  exact ⟨it, hsub hit, hprinted⟩

theorem fieldItems_printed (unit : Char) (hne : x ≠ 0) : Printed x (fieldItems x unit) := by
  unfold fieldItems
  rw [if_pos hne]
  exact ⟨_, List.mem_singleton_self _, none, _, rfl⟩

theorem secondItems_printed (us : Int) (hne : second ≠ 0) :
    Printed second (secondItems second us) := by
  unfold secondItems
  split
  · exact fieldItems_printed 'S' hne
  · split
    · exact ⟨_, List.mem_cons_self .., some [], _, rfl⟩
    · exact ⟨_, List.mem_singleton_self _, some (trimmed 6 us), _, rfl⟩

/-- The number of a field is among the items of its part. -/
theorem fields_printed (hx : x ∈ i.fields) (hne : x ≠ 0) :
    Printed x i.dateItems ∨ Printed x i.timeItems := by
  unfold dateItems timeItems
  simp only [fields, List.mem_cons, List.not_mem_nil, or_false] at hx
  rcases hx with rfl | rfl | rfl | rfl | rfl | rfl
  · exact .inl ((fieldItems_printed 'Y' hne).mono (by simp))
  · exact .inl ((fieldItems_printed 'M' hne).mono (by simp))
  · exact .inl ((fieldItems_printed 'D' hne).mono (by simp))
  · exact .inr ((fieldItems_printed 'H' hne).mono (by simp))
  · exact .inr ((fieldItems_printed 'M' hne).mono (by simp))
  · exact .inr ((secondItems_printed i.us hne).mono (by simp))

/-- The digits of the smallest `int` leave no duration. -/
theorem Printed.addItems_eq_none (h : Printed (-2147483648) items) (time : Bool)
    (t : Option RelTime) : addItems time t items = none := by
  obtain ⟨it, hit, frac, hfrac, hnumeral⟩ := h
  refine addItems_overflow hit ?_ time t
  rw [hnumeral, printed_val (by decide)]
  decide

/-! ### The round trip -/

end RelTime

theorem Numeral.text_noNul (n : Numeral) : nul ∉ n.text := by
  have hdigits : ∀ ds, AllDigits ds → nul ∉ ds := fun ds hd hmem => ne_nul_of_digit (hd nul hmem) rfl
  have hfrac : nul ∉ fracText n.frac := by
    cases hfs : n.frac with
    | none => simp [fracText]
    | some fs =>
      rw [fracText, List.mem_cons, not_or]
      exact ⟨by decide, hdigits fs (n.frac_digits fs hfs)⟩
  unfold text
  rw [List.mem_append, List.mem_append, not_or, not_or]
  refine ⟨?_, hdigits _ n.int_digits, hfrac⟩
  split <;> decide

/-- A text of items that are read has no terminator, when no unit is one. -/
theorem itemsText_noNul {items : List Item} {time : Bool} (hok : ItemsOk time items)
    (hunits : ∀ it ∈ items, it.unit ≠ nul) : nul ∉ itemsText items := by
  induction items generalizing time with
  | nil => simp [itemsText]
  | cons i items ih =>
    have hrest := ih hok.2 fun it hit => hunits it (List.mem_cons_of_mem _ hit)
    have hunit := hunits i (List.mem_cons_self ..)
    have hmark : nul ∉ i.mark.toList := by
      rw [Option.mem_toList]
      intro h
      have := hok.1.mark nul h
      revert this
      decide
    rw [itemsText, List.flatMap_cons, List.mem_append, Item.text, List.mem_append, List.mem_append,
      List.mem_singleton]
    rintro ((h | h | h) | h)
    · exact hmark h
    · exact i.numeral.text_noNul h
    · exact hunit h.symm
    · exact hrest h

namespace RelTime

theorem fieldItems_unit (x : Int) {unit : Char} (h : unit ≠ nul) :
    ∀ it ∈ fieldItems x unit, it.unit ≠ nul := by
  unfold fieldItems
  split
  · intro it hit
    rw [List.mem_singleton] at hit
    subst hit
    exact h
  · simp

theorem secondItems_unit (second us : Int) : ∀ it ∈ secondItems second us, it.unit ≠ nul := by
  unfold secondItems
  split
  · exact fieldItems_unit second (by decide)
  · split
    · intro it hit
      simp only [brokenItems, List.mem_cons, List.not_mem_nil, or_false] at hit
      rcases hit with rfl | rfl
      · exact (by decide : '-' ≠ nul)
      · exact (by decide : 'S' ≠ nul)
    · intro it hit
      rw [wholeItems, List.mem_singleton] at hit
      subst hit
      exact (by decide : 'S' ≠ nul)

theorem mem_markFirst {items : List Item} {it : Item} (h : it ∈ markFirst items) :
    ∃ it' ∈ items, it.unit = it'.unit := by
  cases items with
  | nil => cases h
  | cons i items =>
    rcases List.mem_cons.mp h with rfl | h
    · exact ⟨i, List.mem_cons_self .., rfl⟩
    · exact ⟨it, List.mem_cons_of_mem _ h, rfl⟩

theorem items_unit (i : RelTime) : ∀ it ∈ i.items, it.unit ≠ nul := by
  intro it hit
  unfold items at hit
  split at hit
  · rw [List.mem_singleton] at hit
    subst hit
    exact (by decide : 'D' ≠ nul)
  · rcases List.mem_append.mp hit with hit | hit
    · simp only [dateItems, List.mem_append] at hit
      rcases hit with (hit | hit) | hit
      all_goals exact fieldItems_unit _ (by decide) it hit
    · obtain ⟨it', hit', hunit⟩ := mem_markFirst hit
      rw [hunit]
      simp only [timeItems, List.mem_append] at hit'
      rcases hit' with (hit' | hit') | hit'
      · exact fieldItems_unit _ (by decide) it' hit'
      · exact fieldItems_unit _ (by decide) it' hit'
      · exact secondItems_unit _ _ it' hit'

theorem formatIF_noNul (i : RelTime) : nul ∉ i.formatIF := by
  rw [formatIF_eq, List.mem_cons, not_or]
  exact ⟨by decide, itemsText_noNul i.items_ok i.items_unit⟩

/-- The text of a duration. -/
def textIF (i : RelTime) : CString := ⟨i.formatIF, i.formatIF_noNul⟩

/-- Items behind a `P` are read. -/
theorem setIso8601_items {s : CString} {items : List Item} (hs : s.chars = 'P' :: itemsText items)
    (hok : ItemsOk false items) : setIso8601 s = .ok (addItems false (some zero) items) := by
  have hafter : afterP s.chars = itemsText items := by
    rw [hs]
    rfl
  have hcount := length_itemsText items
  have hlen : s.chars.length = (itemsText items).length + 1 := by rw [hs]; rfl
  obtain ⟨n, hn⟩ : ∃ n, s.chars.length + 1 = items.length + (n + 1) :=
    ⟨s.chars.length - items.length, by omega⟩
  rw [setIso8601_eq, hafter, hn, readUnits_items hok, readUnits_nul]

/-- The items of the text are read. -/
theorem setText_textIF (literal : List Char → Option RelTime) (i : RelTime) :
    setText literal i.textIF = .ok (addItems false (some zero) i.items) := by
  have hchars : i.textIF.chars = 'P' :: itemsText i.items := i.formatIF_eq
  have hset : setText literal i.textIF = setIso8601 i.textIF := by
    unfold setText
    rw [hchars]
    rfl
  rw [hset, setIso8601_items hchars i.items_ok]

/-- A duration is read back from its text exactly when its microseconds are at least zero and below
a second, and no other field is the smallest `int`. -/
theorem roundTrip_iff (literal : List Char → Option RelTime) {i : RelTime} (h : i.Ints) :
    setText literal i.textIF = .ok (some i) ↔ (0 ≤ i.us ∧ i.us < 1000000) ∧ i.NoMin := by
  rw [setText_textIF, Except.ok.injEq]
  constructor
  · intro hread
    refine ⟨us_of_roundTrip hread, ?_⟩
    rintro x hx rfl
    rw [addItems_items] at hread
    rcases fields_printed hx (by decide) with hprinted | hprinted
    · rw [hprinted.addItems_eq_none, addItems_none] at hread
      cases hread
    · rw [hprinted.addItems_eq_none] at hread
      cases hread
  · rintro ⟨hus, hmin⟩
    rw [addItems_items, addItems_dateItems h hmin, addItems_timeItems h hmin hus]

/-- 90 minutes less half a second, in the form of `setSeconds`. -/
theorem roundTrip_iff_seconds : setText (fun _ => none) (textIF ⟨0, 0, 0, 1, 29, 59, 500000⟩) =
      .ok (some ⟨0, 0, 0, 1, 29, 59, 500000⟩) ↔
    (0 ≤ (500000 : Int) ∧ (500000 : Int) < 1000000) ∧ NoMin ⟨0, 0, 0, 1, 29, 59, 500000⟩ :=
  roundTrip_iff _ ⟨by simp [fields, FitsInt], by decide⟩

/-- Half a second before: the text is `PT0.-5S`, which is read as 5 seconds. -/
theorem negative_not_read :
    setText (fun _ => none) (textIF ⟨0, 0, 0, 0, 0, 0, -500000⟩) =
      .ok (some ⟨0, 0, 0, 0, 0, 5, 0⟩) ∧
    (⟨0, 0, 0, 0, 0, 5, 0⟩ : RelTime) ≠ ⟨0, 0, 0, 0, 0, 0, -500000⟩ := by
  decide

end RelTime

end Qore.Date
