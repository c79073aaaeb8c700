import Qore.Serial.Model

/-!
# `Qore.Serial.Text`: relative dates and numbers as text

A relative date is written as the text of an ISO-8601 duration without the `P`. The microseconds are
a field of their own with the unit `u`, so every field has its own sign. A number is written as its
text with its precision in braces.

* `setIso8601_relDateText`: a relative date is read back, unless a field is the smallest `int`.
* `newNumber_numberText`: a number is read back.
-/

set_option autoImplicit false

namespace Qore.Serial

open Qore.Lib Qore.Lib.Decimal Qore.Date Qore.Stream

/-! ### Characters and bytes -/

theorem toNat_ascii {c : Char} (h : c.toNat < 128) : (UInt8.ofNat c.toNat).toNat = c.toNat := by
  rw [UInt8.toNat_ofNat']
  omega

theorem byteChar_ascii {c : Char} (h : c.toNat < 128) : byteChar (UInt8.ofNat c.toNat) = c := by
  unfold byteChar
  rw [toNat_ascii h, Char.ofNat_toNat]

/-- Every character is an ASCII character that is not NUL. -/
def IsAscii (text : List Char) : Prop := ∀ c ∈ text, c.toNat < 128 ∧ c ≠ nul

theorem IsAscii.append {xs ys : List Char} (hx : IsAscii xs) (hy : IsAscii ys) :
    IsAscii (xs ++ ys) := by
  intro c hc
  rcases List.mem_append.mp hc with hc | hc
  · exact hx c hc
  · exact hy c hc

theorem isAscii_digits {ds : List Char} (h : AllDigits ds) : IsAscii ds := by
  intro c hc
  have hdigit := h c hc
  have hle : c.toNat ≤ '9'.toNat := (Char.isDigit_iff_toNat.mp hdigit).2
  have hnine : '9'.toNat = 57 := rfl
  exact ⟨by omega, ne_nul_of_digit hdigit⟩

variable {text : List Char}

theorem map_byteChar_ascii (h : IsAscii text) : (ascii text).map byteChar = text := by
  unfold ascii
  rw [List.map_map]
  exact (List.map_congr_left fun c hc => byteChar_ascii (h c hc).1).trans (List.map_id _)

theorem zero_notMem_ascii (h : IsAscii text) : 0 ∉ ascii text := by
  intro hmem
  obtain ⟨c, hc, hzero⟩ := List.mem_map.mp hmem
  obtain ⟨hlt, hne⟩ := h c hc
  have hback := byteChar_ascii hlt
  rw [hzero] at hback
  exact hne hback.symm

/-! ### Relative dates -/

theorem isAscii_printInt (w : Nat) (x : Int) : IsAscii (printInt w x) := by
  have hdigits := fun v n => isAscii_digits (allDigits_padded v n)
  unfold printInt
  split
  · intro c hc
    rcases List.mem_cons.mp hc with rfl | hc
    · exact ⟨by decide, by decide⟩
    · exact hdigits _ _ c hc
  · exact hdigits _ _

namespace RelDate

/-- The items of the time part, with the microseconds. -/
def timeItems (t : RelTime) : List Item :=
  fieldItems t.hour 'H' ++ fieldItems t.minute 'M' ++ fieldItems t.second 'S' ++ fieldItems t.us 'u'

/-- The items of the text. -/
def items (t : RelTime) : List Item :=
  if t.dateItems ++ timeItems t = [] then [RelTime.zeroItem]
  else t.dateItems ++ markFirst (timeItems t)

/-- All fields. -/
def fields (t : RelTime) : List Int := t.fields ++ [t.us]

/-- A field of the time part is added behind the fields before it. -/
theorem concatTime_eq (str : List Char) {items : List Item} (hmark : ∀ it ∈ items, it.mark = none)
    (x : Int) (unit : Char) :
    concatTime (str ++ itemsText (markFirst items), decide (items ≠ [])) x unit =
      (str ++ itemsText (markFirst (items ++ fieldItems x unit)),
        decide (items ++ fieldItems x unit ≠ [])) := by
  have hfield : [] ++ itemsText (fieldItems x unit) = concatField [] x unit :=
    (concatField_eq [] x unit).symm
  unfold concatTime
  unfold concatField at hfield
  by_cases hx : x = 0
  · have hnil : fieldItems x unit = [] := (RelTime.fieldItems_eq_nil_iff x unit).mpr hx
    rw [if_neg (not_not_intro hx), hnil, List.append_nil]
  · have hne : fieldItems x unit ≠ [] := fun h => hx ((RelTime.fieldItems_eq_nil_iff x unit).mp h)
    have hall : items ++ fieldItems x unit ≠ [] := by simp [hne]
    have hmarks : ∀ it ∈ items ++ fieldItems x unit, it.mark = none := by
      intro it hit
      rcases List.mem_append.mp hit with hit | hit
      · exact hmark it hit
      · exact RelTime.fieldItems_mark x unit it hit
    rw [if_pos hx, List.nil_append, List.nil_append] at hfield
    rw [if_pos hx, RelTime.itemsText_markFirst hall hmarks, RelTime.itemsText_append, hfield,
      decide_eq_true hall]
    by_cases hitems : items = []
    · simp [hitems, markFirst, itemsText]
    · rw [RelTime.itemsText_markFirst hitems hmark]
      simp [hitems]

/-- The text of a relative date is a sequence of numbers with their units. -/
theorem relDateText_eq (t : RelTime) : relDateText t = itemsText (items t) := by
  have hdate : concatField (concatField (concatField [] t.year 'Y') t.month 'M') t.day 'D' =
      itemsText t.dateItems := by
    rw [concatField_eq, concatField_eq, concatField_eq]
    unfold RelTime.dateItems
    rw [RelTime.itemsText_append, RelTime.itemsText_append]
    simp
  have hmarks := RelTime.fieldItems_mark
  have happend : ∀ {xs ys : List Item}, (∀ it ∈ xs, it.mark = none) → (∀ it ∈ ys, it.mark = none) →
      ∀ it ∈ xs ++ ys, it.mark = none := by
    intro xs ys hx hy it hit
    rcases List.mem_append.mp hit with hit | hit
    · exact hx it hit
    · exact hy it hit
  -- the time part, field by field
  have hhour := @concatTime_eq (itemsText t.dateItems) [] (by simp) t.hour 'H'
  have hminute := concatTime_eq (itemsText t.dateItems) (hmarks t.hour 'H') t.minute 'M'
  have hsecond := concatTime_eq (itemsText t.dateItems)
    (happend (hmarks t.hour 'H') (hmarks t.minute 'M')) t.second 'S'
  have hus := concatTime_eq (itemsText t.dateItems)
    (happend (happend (hmarks t.hour 'H') (hmarks t.minute 'M')) (hmarks t.second 'S')) t.us 'u'
  have hstart : (itemsText t.dateItems, false) =
      (itemsText t.dateItems ++ itemsText (markFirst []), decide (([] : List Item) ≠ [])) := by
    simp [markFirst, itemsText]
  unfold relDateText items
  dsimp only
  rw [hdate, hstart, hhour, List.nil_append, hminute, hsecond, hus]
  have hnil : t.dateItems ++ timeItems t = [] ↔ ¬(t.year ≠ 0 ∨ t.month ≠ 0 ∨ t.day ≠ 0 ∨
      t.hour ≠ 0 ∨ t.minute ≠ 0 ∨ t.second ≠ 0 ∨ t.us ≠ 0) := by
    unfold RelTime.dateItems timeItems
    simp only [List.append_eq_nil_iff, RelTime.fieldItems_eq_nil_iff]
    tauto
  by_cases h : t.dateItems ++ timeItems t = []
  · rw [if_neg (hnil.mp h), if_pos h]
    rfl
  · rw [if_pos (not_not.mp (fun hn => h (hnil.mpr hn))), if_neg h, RelTime.itemsText_append]
    rfl

theorem timeItems_ok (t : RelTime) : ItemsOk true (timeItems t) := by
  have hmarks := fun x unit => RelTime.timeAfter_of_mark (RelTime.fieldItems_mark x unit) true
  have hok : ∀ x unit, unit.isDigit = false → unit ≠ '.' → ItemsOk true (fieldItems x unit) :=
    fun x unit hdigit hpoint => RelTime.fieldItems_ok x hdigit hpoint fun _ => rfl
  unfold timeItems
  rw [List.append_assoc, List.append_assoc]
  refine RelTime.itemsOk_append (hok _ _ rfl (by decide)) ?_
  rw [hmarks]
  refine RelTime.itemsOk_append (hok _ _ rfl (by decide)) ?_
  rw [hmarks]
  refine RelTime.itemsOk_append (hok _ _ rfl (by decide)) ?_
  rw [hmarks]
  exact hok _ _ rfl (by decide)

theorem items_ok (t : RelTime) : ItemsOk false (items t) :=
  RelTime.parts_ok t.dateItems_ok t.dateItems_mark (timeItems_ok t)

variable {t : RelTime}

/-- The items of the time part set its fields. -/
theorem addItems_timeItems (h : ∀ x ∈ fields t, FitsInt x) (hmin : ∀ x ∈ fields t, x ≠ -2147483648)
    :
    addItems true (some ⟨t.year, t.month, t.day, 0, 0, 0, 0⟩) (timeItems t) = some t := by
  have hmarks := fun x unit => RelTime.timeAfter_of_mark (RelTime.fieldItems_mark x unit) true
  have hback : ∀ x ∈ fields t, readBack x = some x := fun x hx => if_neg (hmin x hx)
  have hhour := RelTime.addItems_field (h t.hour (by simp [fields, RelTime.fields]))
    (fun hour => ⟨t.year, t.month, t.day, hour, 0, 0, 0⟩)
    (fun v hv => show RelTime.addUnit true 'H' v 0 ⟨t.year, t.month, t.day, 0, 0, 0, 0⟩ = _ by
      simp [RelTime.addUnit, RelTime.addIf, checkedInt_of_fits hv]) rfl
  have hminute := RelTime.addItems_field (h t.minute (by simp [fields, RelTime.fields]))
    (fun minute => ⟨t.year, t.month, t.day, t.hour, minute, 0, 0⟩)
    (fun v hv => show RelTime.addUnit true 'M' v 0 ⟨t.year, t.month, t.day, t.hour, 0, 0, 0⟩ = _ by
      simp [RelTime.addUnit, RelTime.addIf, checkedInt_of_fits hv]) rfl
  have hsecond := RelTime.addItems_field (h t.second (by simp [fields, RelTime.fields]))
    (fun second => ⟨t.year, t.month, t.day, t.hour, t.minute, second, 0⟩)
    (fun v hv => show RelTime.addUnit true 'S' v 0
        ⟨t.year, t.month, t.day, t.hour, t.minute, 0, 0⟩ = _ by
      simp [RelTime.addUnit, RelTime.addIf, checkedInt_of_fits hv]) rfl
  have hus := RelTime.addItems_field (h t.us (by simp [fields]))
    (fun us => ⟨t.year, t.month, t.day, t.hour, t.minute, t.second, us⟩)
    (fun v hv => show RelTime.addUnit true 'u' v 0
        ⟨t.year, t.month, t.day, t.hour, t.minute, t.second, 0⟩ = _ by
      simp [RelTime.addUnit, checkedInt_of_fits hv]) rfl
  unfold timeItems
  rw [List.append_assoc, List.append_assoc, RelTime.addItems_append, hmarks, hhour,
    hback _ (by simp [fields, RelTime.fields]), Option.map_some, RelTime.addItems_append, hmarks,
    hminute, hback _ (by simp [fields, RelTime.fields]), Option.map_some, RelTime.addItems_append,
    hmarks, hsecond, hback _ (by simp [fields, RelTime.fields]), Option.map_some, hus,
    hback _ (by simp [fields]), Option.map_some]

/-- The number of a field is among the items of its part. -/
theorem fields_printed {x : Int} (hx : x ∈ fields t) (hne : x ≠ 0) :
    RelTime.Printed x t.dateItems ∨ RelTime.Printed x (timeItems t) := by
  have hprinted := fun unit => RelTime.fieldItems_printed unit hne
  unfold RelTime.dateItems timeItems
  simp only [fields, RelTime.fields, List.mem_append, List.mem_cons, List.not_mem_nil,
    or_false] at hx
  rcases hx with (rfl | rfl | rfl | rfl | rfl | rfl) | rfl
  · exact .inl ((hprinted 'Y').mono (by simp))
  · exact .inl ((hprinted 'M').mono (by simp))
  · exact .inl ((hprinted 'D').mono (by simp))
  · exact .inr ((hprinted 'H').mono (by simp))
  · exact .inr ((hprinted 'M').mono (by simp))
  · exact .inr ((hprinted 'S').mono fun it hit => by simp [hit])
  · exact .inr ((hprinted 'u').mono fun it hit => by simp [hit])

/-- The items of a text give the fields back, unless one of them is the smallest `int`. -/
theorem addItems_items (h : ∀ x ∈ fields t, FitsInt x) : addItems false (some .zero) (items t) =
      if ∀ x ∈ fields t, x ≠ -2147483648 then some t else none := by
  have hparts : addItems false (some .zero) (items t) =
      addItems true (addItems false (some .zero) t.dateItems) (timeItems t) :=
    RelTime.addItems_parts t.dateItems_mark
  rw [hparts]
  split <;> rename_i hmin
  · have hints : t.Ints :=
      ⟨fun x hx => h x (List.mem_append_left _ hx), h t.us (by simp [fields])⟩
    have hno : t.NoMin := fun x hx => hmin x (List.mem_append_left _ hx)
    rw [RelTime.addItems_dateItems hints hno, addItems_timeItems h hmin]
  · obtain ⟨x, hx, rfl⟩ : ∃ x ∈ fields t, x = -2147483648 := by simpa using hmin
    rcases fields_printed hx (by decide) with hprinted | hprinted
    · rw [hprinted.addItems_eq_none, RelTime.addItems_none]
    · rw [hprinted.addItems_eq_none]

/-- A text of items is in ASCII. -/
theorem isAscii_items (t : RelTime) : IsAscii (relDateText t) := by
  have hfield : ∀ {str : List Char} (x : Int) (unit : Char), IsAscii str → unit.toNat < 128 →
      unit ≠ nul → IsAscii (concatField str x unit) := by
    intro str x unit hstr hlt hne
    unfold concatField
    split
    · refine hstr.append ((isAscii_printInt 0 x).append ?_)
      rintro c (_ | ⟨_, ⟨⟩⟩)
      exact ⟨hlt, hne⟩
    · exact hstr
  have htime : ∀ {str : List Char × Bool} (x : Int) (unit : Char), IsAscii str.1 →
      unit.toNat < 128 → unit ≠ nul → IsAscii (concatTime str x unit).1 := by
    intro str x unit hstr hlt hne
    have hmark : IsAscii (if str.2 then str.1 else str.1 ++ ['T']) := by
      split
      · exact hstr
      · refine hstr.append ?_
        rintro c (_ | ⟨_, ⟨⟩⟩)
        exact ⟨by decide, by decide⟩
    unfold concatTime
    split
    · refine hmark.append ((isAscii_printInt 0 x).append ?_)
      rintro c (_ | ⟨_, ⟨⟩⟩)
      exact ⟨hlt, hne⟩
    · exact hstr
  unfold relDateText
  split
  · refine htime _ _ (htime _ _ (htime _ _ (htime _ _ ?_ (by decide) (by decide)) (by decide)
      (by decide)) (by decide) (by decide)) (by decide) (by decide)
    refine hfield _ _ (hfield _ _ (hfield _ _ ?_ (by decide) (by decide)) (by decide)
      (by decide)) (by decide) (by decide)
    intro c hc
    cases hc
  · intro c hc
    fin_cases hc <;> exact ⟨by decide, by decide⟩

theorem length_printInt_le {x : Int} (h : FitsInt x) : (printInt 0 x).length ≤ 11 := by
  have hdigits : (padded 0 x.natAbs).length ≤ 10 := by
    refine length_padded_le (by decide) (by decide) ?_
    unfold FitsInt at h
    omega
  unfold printInt
  split
  · show (padded 0 x.natAbs).length + 1 ≤ 11
    omega
  · omega

/-- A text of seven `int` fields is short. -/
theorem length_relDateText_le (h : ∀ x ∈ fields t, FitsInt x) : (relDateText t).length ≤ 100 := by
  have hfield : ∀ (str : List Char) {x : Int} (unit : Char), FitsInt x →
      (concatField str x unit).length ≤ str.length + 12 := by
    intro str x unit hx
    have hle := length_printInt_le hx
    unfold concatField
    split
    · rw [List.length_append, List.length_append, List.length_singleton]
      omega
    · omega
  have htime : ∀ (str : List Char × Bool) {x : Int} (unit : Char), FitsInt x →
      (concatTime str x unit).1.length ≤ str.1.length + 13 := by
    intro str x unit hx
    have hle := length_printInt_le hx
    have hmark : (if str.2 then str.1 else str.1 ++ ['T']).length ≤ str.1.length + 1 := by
      split
      · omega
      · rw [List.length_append, List.length_singleton]
    unfold concatTime
    split
    · rw [List.length_append, List.length_append, List.length_singleton]
      omega
    · omega
  have hyear := hfield [] 'Y' (h t.year (by simp [fields, RelTime.fields]))
  have hmonth := fun str => hfield str 'M' (h t.month (by simp [fields, RelTime.fields]))
  have hday := fun str => hfield str 'D' (h t.day (by simp [fields, RelTime.fields]))
  have hhour := fun str => htime str 'H' (h t.hour (by simp [fields, RelTime.fields]))
  have hminute := fun str => htime str 'M' (h t.minute (by simp [fields, RelTime.fields]))
  have hsecond := fun str => htime str 'S' (h t.second (by simp [fields, RelTime.fields]))
  have hus := fun str => htime str 'u' (h t.us (by simp [fields]))
  rw [List.length_nil] at hyear
  unfold relDateText
  split
  · refine (hus _).trans ?_
    refine (Nat.add_le_add_right (hsecond _) _).trans ?_
    refine (Nat.add_le_add_right (Nat.add_le_add_right (hminute _) _) _).trans ?_
    refine (Nat.add_le_add_right (Nat.add_le_add_right (Nat.add_le_add_right (hhour _) _) _)
      _).trans ?_
    have hmonth' := hmonth (concatField [] t.year 'Y')
    have hday' := hday (concatField (concatField [] t.year 'Y') t.month 'M')
    dsimp only
    omega
  · decide

end RelDate

/-- A relative date is read back from its text, unless a field is the smallest `int`. -/
theorem setIso8601_relDateText {t : RelTime} (h : ∀ x ∈ RelDate.fields t, FitsInt x) :
    RelTime.setIso8601 (prependP (ascii (relDateText t))) =
      .ok (if ∀ x ∈ RelDate.fields t, x ≠ -2147483648 then some t else none) := by
  have hascii := RelDate.isAscii_items t
  have hchars : (prependP (ascii (relDateText t))).chars =
      'P' :: itemsText (RelDate.items t) := by
    show 'P' :: (cstr (ascii (relDateText t))).map byteChar = _
    rw [cstr_eq (zero_notMem_ascii hascii), map_byteChar_ascii hascii, RelDate.relDateText_eq]
  rw [RelTime.setIso8601_items hchars (RelDate.items_ok t), RelDate.addItems_items h]

/-! ### Numbers -/

/-- What the conversions of numbers promise: a number is given back by its text and its precision,
the precision is a positive `int`, and the text has no NUL, no brace and no `@`. -/
structure NumberConv.Exact {N : Type} (conv : NumberConv N) : Prop where
  parse : ∀ n, conv.parse (numberText conv n) (some (conv.getPrec n)) = n
  prec : ∀ n, 0 < conv.getPrec n ∧ conv.getPrec n ≤ 2147483647
  plain : ∀ n, ∀ b ∈ conv.toText n, b ≠ 0 ∧ byteChar b ≠ '{' ∧ b ≠ 64

/-- A precision in braces. -/
def brace (prec : Nat) : List Char := '{' :: (padded 0 prec ++ ['}'])

theorem isAscii_brace (prec : Nat) : IsAscii (brace prec) := by
  have hdigits := isAscii_digits (allDigits_padded 0 prec)
  intro c hc
  simp only [brace, List.mem_cons, List.mem_append, List.not_mem_nil, or_false] at hc
  rcases hc with rfl | hc | rfl
  · exact ⟨by decide, by decide⟩
  · exact hdigits c hc
  · exact ⟨by decide, by decide⟩

theorem length_ascii (text : List Char) : (ascii text).length = text.length := List.length_map ..

/-- The precision is read. -/
theorem isPrec_brace {prec : Nat} (h : prec ≤ 2147483647) :
    isPrec (ascii (brace prec)) (ascii (brace prec)).length = some prec := by
  have hdigits := allDigits_padded 0 prec
  have hascii := isAscii_digits hdigits
  have hmap := map_byteChar_ascii hascii
  have hbytes : ascii (brace prec) = 123 :: (ascii (padded 0 prec) ++ [125]) := by
    unfold brace
    simp [ascii]
  have htake : (ascii (padded 0 prec) ++ [125]).takeWhile (fun b => (byteChar b).isDigit) =
      ascii (padded 0 prec) := by
    rw [List.takeWhile_append_of_pos]
    · have hend : ([125] : Bytes).takeWhile (fun b => (byteChar b).isDigit) = [] := by decide
      rw [hend, List.append_nil]
    · intro b hb
      have hmem : byteChar b ∈ (ascii (padded 0 prec)).map byteChar := List.mem_map_of_mem hb
      rw [hmap] at hmem
      exact hdigits _ hmem
  have hne : ascii (padded 0 prec) ≠ [] := by
    intro hnil
    have hlen := congrArg List.length hnil
    rw [length_ascii] at hlen
    exact padded_ne_nil 0 prec (List.eq_nil_of_length_eq_zero hlen)
  have hend : (([125] : Bytes).head?.map byteChar) = some '}' := by decide
  have hopen : byteChar 123 = '{' := by decide
  unfold isPrec
  rw [hbytes]
  dsimp only
  rw [htake, List.drop_left, hend, hopen, if_neg, hmap, value_padded, if_pos h]
  simp [hne]

variable {N : Type} {conv : NumberConv N}

/-- A positive precision behind a text without a brace. -/
theorem withPrec_text (hconv : conv.Exact) (n : N) :
    withPrec conv (numberText conv n) (isPrec (ascii (brace (conv.getPrec n)))
      (ascii (brace (conv.getPrec n))).length) = .ok n := by
  have hprec := hconv.prec n
  rw [isPrec_brace hprec.2]
  unfold withPrec
  dsimp only
  rw [if_pos (by omega), hconv.parse]

/-- A text that begins with `@nan@n` or `@inf@n`, and a precision. -/
theorem newNumber_special {base : Bytes} (hlen : base.length = 6 + signLength base)
    (hspecial : lower ((base.drop (signLength base)).take 5) = ascii ['@', 'n', 'a', 'n', '@'] ∨
      lower ((base.drop (signLength base)).take 5) = ascii ['@', 'i', 'n', 'f', '@'])
    (hn : (base.drop (5 + signLength base)).head?.map byteChar = some 'n') (hnul : 0 ∉ base)
    (prec : Nat) :
    newNumber conv (base ++ ascii (brace prec)) = withPrec conv (base ++ ascii (brace prec))
      (isPrec (ascii (brace prec)) (ascii (brace prec)).length) := by
  have hbrace : 2 ≤ (ascii (brace prec)).length := by
    rw [length_ascii, brace, List.length_cons, List.length_append, List.length_singleton]
    omega
  have hval : cstr (base ++ ascii (brace prec)) = base ++ ascii (brace prec) := by
    refine cstr_eq ?_
    rw [List.mem_append, not_or]
    exact ⟨hnul, zero_notMem_ascii (isAscii_brace prec)⟩
  have hhead : (base ++ ascii (brace prec)).head? = base.head? := by
    rw [List.head?_append_of_ne_nil]
    exact List.ne_nil_of_length_pos (by omega)
  have hsign : signLength (base ++ ascii (brace prec)) = signLength base := by
    unfold signLength
    rw [hhead]
  have hfive : ((base ++ ascii (brace prec)).drop (signLength base)).take 5 =
      (base.drop (signLength base)).take 5 := by
    rw [List.drop_append_of_le_length (by omega), List.take_append_of_le_length]
    rw [List.length_drop]
    omega
  have hmark : ((base ++ ascii (brace prec)).drop (5 + signLength base)).head? =
      (base.drop (5 + signLength base)).head? := by
    rw [List.drop_append_of_le_length (by omega), List.head?_append_of_ne_nil]
    exact List.ne_nil_of_length_pos (by rw [List.length_drop]; omega)
  have hrest : (base ++ ascii (brace prec)).drop (signLength base + 6) = ascii (brace prec) := by
    rw [Nat.add_comm, ← hlen, List.drop_left]
  have hsize : (base ++ ascii (brace prec)).length - signLength base - 6 =
      (ascii (brace prec)).length := by
    rw [List.length_append]
    omega
  unfold newNumber
  dsimp only
  rw [hval]
  rw [hsign, hfive, if_pos hspecial, hmark, if_pos hn, hrest, hsize, if_neg]
  omega

/-- `lower` changes no `@`. -/
theorem lower_at {b : UInt8} (h : (if 65 ≤ b ∧ b ≤ 90 then b + 32 else b) = 64) : b = 64 := by
  split at h <;> rename_i hrange
  · have hsum := congrArg UInt8.toNat h
    have hlow := UInt8.le_iff_toNat_le.mp hrange.1
    have hhigh := UInt8.le_iff_toNat_le.mp hrange.2
    simp at hsum hlow hhigh
    omega
  · exact h

theorem at_of_special {val : Bytes}
    (h : lower ((val.drop (signLength val)).take 5) = ascii ('@' :: text)) : 64 ∈ val := by
  have hhead : 64 ∈ lower ((val.drop (signLength val)).take 5) := by
    rw [h]
    exact List.mem_cons_self ..
  obtain ⟨b, hb, hlower⟩ := List.mem_map.mp hhead
  rw [lower_at hlower] at hb
  exact List.mem_of_mem_drop (List.mem_of_mem_take hb)

/-- Another text without a brace, and a precision. -/
theorem newNumber_plain {base : Bytes}
    (hplain : ∀ b ∈ base, b ≠ 0 ∧ byteChar b ≠ '{' ∧ b ≠ 64) (prec : Nat) :
    newNumber conv (base ++ ascii (brace prec)) = withPrec conv (base ++ ascii (brace prec))
      (isPrec (ascii (brace prec)) (ascii (brace prec)).length) := by
  have hbrace : 2 ≤ (ascii (brace prec)).length := by
    rw [length_ascii, brace, List.length_cons, List.length_append, List.length_singleton]
    omega
  have hascii := isAscii_brace prec
  have hval : cstr (base ++ ascii (brace prec)) = base ++ ascii (brace prec) := by
    refine cstr_eq ?_
    rw [List.mem_append, not_or]
    exact ⟨fun h => (hplain 0 h).1 rfl, zero_notMem_ascii hascii⟩
  have hat : 64 ∉ base ++ ascii (brace prec) := by
    rw [List.mem_append, not_or]
    refine ⟨fun h => (hplain 64 h).2.2 rfl, fun h => ?_⟩
    have hchar : byteChar 64 ∈ (ascii (brace prec)).map byteChar := List.mem_map_of_mem h
    rw [map_byteChar_ascii hascii] at hchar
    simp only [brace, List.mem_cons, List.mem_append, List.not_mem_nil, or_false] at hchar
    have hnot : ¬(byteChar 64).isDigit = true := by decide
    rcases hchar with hchar | hchar | hchar
    · revert hchar
      decide
    · exact hnot (allDigits_padded 0 prec _ hchar)
    · revert hchar
      decide
  have hdrop : (base ++ ascii (brace prec)).dropWhile (fun b => byteChar b ≠ '{') =
      ascii (brace prec) := by
    rw [List.dropWhile_append_of_pos fun b hb => decide_eq_true (hplain b hb).2.1]
    rfl
  have hsize : (base ++ ascii (brace prec)).length -
      ((base ++ ascii (brace prec)).length - (ascii (brace prec)).length) =
        (ascii (brace prec)).length := by
    rw [List.length_append]
    omega
  unfold newNumber
  dsimp only
  rw [hval, if_neg, hdrop, hsize, if_pos (List.ne_nil_of_length_pos (by omega))]
  rintro (h | h)
  · exact hat (at_of_special h)
  · exact hat (at_of_special h)

/-- A number is read back from its text. -/
theorem newNumber_numberText (hconv : conv.Exact) (n : N) :
    newNumber conv (numberText conv n) = .ok n := by
  have htext := withPrec_text hconv n
  have hplain := hconv.plain n
  rw [← htext]
  unfold numberText
  dsimp only
  split_ifs
  · exact newNumber_special (by decide) (by decide) (by decide) (by decide) _
  · exact newNumber_special (by decide) (by decide) (by decide) (by decide) _
  · exact newNumber_special (by decide) (by decide) (by decide) (by decide) _
  · refine newNumber_plain ?_ _
    intro b hb
    rcases List.mem_append.mp hb with hb | hb
    · exact hplain b hb
    · rw [show b = 110 from List.mem_singleton.mp hb]
      decide

end Qore.Serial
