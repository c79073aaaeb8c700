import Qore.Date.AddDate
import Qore.Date.Compare

/-!
# `Qore.Date.Duration`: durations

`qore_relative_time::normalize` carries from each unit to the next larger one, once and from small to
large, and gives every neighbouring pair the same sign. A sign that changes at a larger unit is not
carried back, so the parts of a duration can have different signs.

* `canonical_iff`: when the parts of a normalised duration have the same sign.
* `compare_iff`: when `compare`, which compares part after part, finds the order of the lengths.
-/

set_option autoImplicit false

namespace Qore.Date

open Qore.Lib

/-! ### Normalisation -/

/-- `normalize_units` without an overflow: quotient and remainder of the whole amount. -/
theorem normalizeUnits_eq {T1 T2 : IntType} {x y r : Int} (hr : 0 < r) (hy : FitsInt y) :
    normalizeUnits T1 T2 x y r = ((x * r + y).tdiv r, (x * r + y).tmod r) := by
  by_cases hbig : y ≤ -r ∨ y ≥ r
  · have hbound : -r < y.tmod r ∧ y.tmod r < r :=
      ⟨Int.lt_tmod_of_pos y hr, Int.tmod_lt_of_pos y hr⟩
    have hsum := Int.mul_tdiv_add_tmod y r
    have hconvert := tdiv_convert hr hy
    have hcarry : carryUnits T1 T2 x y r = (x + y.tdiv r, y.tmod r) := by
      unfold carryUnits
      dsimp only
      rw [if_pos hbig, (hconvert T1).1, (hconvert T2).2, tmod_eq_sub, Int.mul_comm]
    -- the second half does not carry again
    have hsame : normalizeUnits T1 T2 x y r = normalizeUnits T1 T2 (x + y.tdiv r) (y.tmod r) r := by
      have hstay : carryUnits T1 T2 (x + y.tdiv r) (y.tmod r) r = (x + y.tdiv r, y.tmod r) :=
        if_neg (by omega)
      unfold normalizeUnits
      rw [hcarry, hstay]
    have htotal : (x + y.tdiv r) * r + y.tmod r = x * r + y := by
      rw [Int.add_mul, Int.mul_comm (y.tdiv r)]
      omega
    rw [hsame, normalizeUnits_signs hbound, htotal]
  · exact normalizeUnits_signs (by omega)

namespace RelTime

/-- The microseconds of the seconds. -/
def micros (t : RelTime) : Int := t.second * 1000000 + t.us

/-- The minutes, in seconds, with the whole seconds of the microseconds. -/
def secs (t : RelTime) : Int := t.minute * 60 + t.micros.tdiv 1000000

/-- The hours, in minutes, with the whole minutes of the seconds. -/
def mins (t : RelTime) : Int := t.hour * 60 + t.secs.tdiv 60

/-- No `int` overflows while the time part is normalised. -/
structure Fits (t : RelTime) : Prop where
  us : FitsInt t.us
  second : FitsInt (t.micros.tdiv 1000000)
  minute : FitsInt (t.secs.tdiv 60)

variable {t : RelTime}

/-- The time part of a normalised duration. -/
theorem setFields_eq (h : t.Fits) :
    t.setFields.hour = t.mins.tdiv 60 ∧ t.setFields.minute = t.mins.tmod 60 ∧
      t.setFields.second = t.secs.tmod 60 ∧ t.setFields.us = t.micros.tmod 1000000 := by
  unfold setFields normalize
  simp only [normalizeUnits_eq (show (0 : Int) < 1000000 by decide) h.us]
  have hsecond := h.second
  unfold micros at hsecond
  simp only [normalizeUnits_eq (show (0 : Int) < 60 by decide) hsecond]
  have hminute := h.minute
  unfold secs micros at hminute
  simp only [normalizeUnits_eq (show (0 : Int) < 60 by decide) hminute]
  exact ⟨rfl, rfl, rfl, rfl⟩

/-- The length of the time part in microseconds. -/
def timeMicros (t : RelTime) : Int :=
  t.hour * 3600000000 + t.minute * 60000000 + t.second * 1000000 + t.us

/-- The time part has parts in their ranges and of one sign. -/
structure Canonical (t : RelTime) : Prop where
  us : -1000000 < t.us ∧ t.us < 1000000
  second : -60 < t.second ∧ t.second < 60
  minute : -60 < t.minute ∧ t.minute < 60
  signs : (0 ≤ t.hour ∧ 0 ≤ t.minute ∧ 0 ≤ t.second ∧ 0 ≤ t.us) ∨
    (t.hour ≤ 0 ∧ t.minute ≤ 0 ∧ t.second ≤ 0 ∧ t.us ≤ 0)

/-- Two amounts have opposite signs. -/
def Opposite (x y : Int) : Prop := x < 0 ∧ 0 < y ∨ 0 < x ∧ y < 0

/-- Whatever the carries leave in two units comes from amounts that do not have opposite signs. -/
def Reconciled (t : RelTime) : Prop :=
  ¬(t.us % 1000000 ≠ 0 ∧ t.secs % 60 ≠ 0 ∧ Opposite t.micros t.secs) ∧
  ¬(t.us % 1000000 ≠ 0 ∧ Opposite t.micros t.mins) ∧
  ¬(t.secs % 60 ≠ 0 ∧ Opposite t.secs t.mins)

/-- The sign of a truncated remainder. -/
theorem tmod_sign (x r : Int) :
    (0 < x.tmod r ↔ 0 < x ∧ x % r ≠ 0) ∧ (x.tmod r < 0 ↔ x < 0 ∧ x % r ≠ 0) := by
  have hzero := tmod_eq_zero_iff x r
  by_cases hpos : 0 ≤ x
  · have h0 := Int.tmod_nonneg r hpos
    have hx : x = 0 → x % r = 0 := by
      rintro rfl
      exact Int.zero_emod r
    omega
  · have h0 := Int.tmod_nonneg (a := -x) r (by omega)
    rw [Int.neg_tmod] at h0
    omega

/-- Parts with the signs of three amounts have one sign exactly when no two amounts that are seen in
the parts have opposite signs. -/
theorem signs_iff {H M S h m s u : Int} {p q : Prop}
    (hu : (0 < u ↔ 0 < S ∧ p) ∧ (u < 0 ↔ S < 0 ∧ p))
    (hs : (0 < s ↔ 0 < M ∧ q) ∧ (s < 0 ↔ M < 0 ∧ q)) (hpos : 0 ≤ H → 0 ≤ h ∧ 0 ≤ m)
    (hneg : H ≤ 0 → h ≤ 0 ∧ m ≤ 0) (hsum : 60 * h + m = H) :
    ((0 ≤ h ∧ 0 ≤ m ∧ 0 ≤ s ∧ 0 ≤ u) ∨ (h ≤ 0 ∧ m ≤ 0 ∧ s ≤ 0 ∧ u ≤ 0)) ↔
      ¬(p ∧ q ∧ Opposite S M) ∧ ¬(p ∧ Opposite S H) ∧ ¬(q ∧ Opposite M H) := by
  unfold Opposite
  rcases lt_trichotomy H 0 with hH | hH | hH
  · grind
  · grind
  · grind

theorem us_emod (t : RelTime) : t.micros % 1000000 = t.us % 1000000 := by
  unfold micros
  omega

/-- The carries keep the length. -/
theorem timeMicros_setFields (h : t.Fits) : t.setFields.timeMicros = t.timeMicros := by
  obtain ⟨hhour, hminute, hsecond, hus⟩ := setFields_eq h
  have hmins := Int.mul_tdiv_add_tmod t.mins 60
  have hsecs := Int.mul_tdiv_add_tmod t.secs 60
  have hmicros := Int.mul_tdiv_add_tmod t.micros 1000000
  have hm : t.mins = t.hour * 60 + t.secs.tdiv 60 := rfl
  have hs : t.secs = t.minute * 60 + t.micros.tdiv 1000000 := rfl
  have hu : t.micros = t.second * 1000000 + t.us := rfl
  unfold timeMicros
  omega

/-- The parts of a normalised duration have one sign exactly when the carries are reconciled. -/
theorem canonical_setFields_iff (h : t.Fits) : t.setFields.Canonical ↔ t.Reconciled := by
  obtain ⟨hhour, hminute, hsecond, hus⟩ := setFields_eq h
  have hus_sign := tmod_sign t.micros 1000000
  rw [us_emod] at hus_sign
  -- hours and minutes have the sign of the minutes that were split
  have hsplit : (0 ≤ t.mins → 0 ≤ t.mins.tdiv 60 ∧ 0 ≤ t.mins.tmod 60) ∧
      (t.mins ≤ 0 → t.mins.tdiv 60 ≤ 0 ∧ t.mins.tmod 60 ≤ 0) := by
    rw [tmod_eq_sub, tdiv_eq_ite]
    split <;> omega
  have hiff := signs_iff hus_sign (tmod_sign t.secs 60) hsplit.1 hsplit.2
    (Int.mul_tdiv_add_tmod t.mins 60)
  constructor
  · intro hc
    have hsigns := hc.signs
    rw [hhour, hminute, hsecond, hus] at hsigns
    exact hiff.mp hsigns
  · intro hr
    refine ⟨?_, ?_, ?_, ?_⟩
    · rw [hus]
      exact ⟨Int.lt_tmod_of_pos _ (by decide), Int.tmod_lt_of_pos _ (by decide)⟩
    · rw [hsecond]
      exact ⟨Int.lt_tmod_of_pos _ (by decide), Int.tmod_lt_of_pos _ (by decide)⟩
    · rw [hminute]
      exact ⟨Int.lt_tmod_of_pos _ (by decide), Int.tmod_lt_of_pos _ (by decide)⟩
    · rw [hhour, hminute, hsecond, hus]
      exact hiff.mpr hr

/-- `qore_relative_time::operator+=`, before it normalises. -/
def plus (a b : RelTime) : RelTime :=
  { year := a.year + b.year, month := a.month + b.month, day := a.day + b.day,
    hour := a.hour + b.hour, minute := a.minute + b.minute, second := a.second + b.second,
    us := a.us + b.us }

/-- `qore_relative_time::operator-=`, before it normalises. -/
def minus (a b : RelTime) : RelTime :=
  { year := a.year - b.year, month := a.month - b.month, day := a.day - b.day,
    hour := a.hour - b.hour, minute := a.minute - b.minute, second := a.second - b.second,
    us := a.us - b.us }

/-- `qore_relative_time::operator+=`. -/
def add (a b : RelTime) : RelTime := (a.plus b).normalize false

/-- `qore_relative_time::operator-=`. -/
def sub (a b : RelTime) : RelTime := (a.minus b).normalize false

/-- The fields of a time part are the same. -/
def SameTime (a b : RelTime) : Prop :=
  a.hour = b.hour ∧ a.minute = b.minute ∧ a.second = b.second ∧ a.us = b.us

/-- A canonical time part is determined by its length. -/
theorem Canonical.sameTime {a b : RelTime} (ha : a.Canonical) (hb : b.Canonical)
    (h : a.timeMicros = b.timeMicros) : a.SameTime b := by
  obtain ⟨hau, has, ham, hasign⟩ := ha
  obtain ⟨hbu, hbs, hbm, hbsign⟩ := hb
  unfold timeMicros at h
  unfold SameTime
  rcases hasign with hasign | hasign <;> rcases hbsign with hbsign | hbsign <;> omega

/-- The amounts that are carried have the sign of the parts. -/
theorem Canonical.reconciled (h : t.Canonical) : t.Reconciled := by
  obtain ⟨hu, hs, hm, hsign⟩ := h
  have hmicros : t.micros = t.second * 1000000 + t.us := rfl
  have hsecs : t.secs = t.minute * 60 + t.micros.tdiv 1000000 := rfl
  have hmins : t.mins = t.hour * 60 + t.secs.tdiv 60 := rfl
  rw [tdiv_eq_ite] at hsecs hmins
  unfold Reconciled Opposite
  rcases hsign with hsign | hsign
  · have h1 : 0 ≤ t.micros := by omega
    rw [if_pos h1] at hsecs
    omega
  · have h1 : t.micros ≤ 0 := by omega
    omega

/-- The result of an operation on durations: a canonical time part of a length, which normalising
again does not change. -/
structure Result (t : RelTime) (length : Int) : Prop where
  canonical : t.Canonical
  length_eq : t.timeMicros = length
  idempotent : t.Fits → t.setFields.SameTime t

theorem result_iff (h : t.Fits) : t.setFields.Result t.timeMicros ↔ t.Reconciled := by
  constructor
  · intro hr
    exact (canonical_setFields_iff h).mp hr.canonical
  · intro hr
    have hc := (canonical_setFields_iff h).mpr hr
    refine ⟨hc, timeMicros_setFields h, fun hfits => ?_⟩
    -- the parts of a canonical time have one sign, so there is nothing to reconcile
    have hagain : t.setFields.setFields.Canonical := by
      rw [canonical_setFields_iff hfits]
      exact hc.reconciled
    exact hagain.sameTime hc (timeMicros_setFields hfits)

/-- What `set`, `operator+=` and `operator-=` leave is canonical and has the length it should have
exactly when the carries of the fields, of their sums or of their differences are reconciled. -/
theorem canonical_iff (a b : RelTime) :
    (a.Fits → (a.setFields.Result a.timeMicros ↔ a.Reconciled)) ∧
    ((a.plus b).Fits →
      ((a.add b).Result (a.timeMicros + b.timeMicros) ↔ (a.plus b).Reconciled)) ∧
    ((a.minus b).Fits →
      ((a.sub b).Result (a.timeMicros - b.timeMicros) ↔ (a.minus b).Reconciled)) ∧
    (a.Canonical → b.Canonical → a.timeMicros = b.timeMicros → a.SameTime b) := by
  refine ⟨fun h => result_iff h, fun h => ?_, fun h => ?_, fun ha hb h => ha.sameTime hb h⟩
  · have hsum : (a.plus b).timeMicros = a.timeMicros + b.timeMicros := by
      unfold timeMicros plus
      dsimp only
      omega
    rw [← hsum]
    exact result_iff h
  · have hdiff : (a.minus b).timeMicros = a.timeMicros - b.timeMicros := by
      unfold timeMicros minus
      dsimp only
      omega
    rw [← hdiff]
    exact result_iff h

/-- A duration with a time part only. -/
def ofTime (hour minute second us : Int) : RelTime :=
  { year := 0, month := 0, day := 0, hour, minute, second, us }

/-- 90 minutes and 90 minutes are 3 hours. -/
theorem ninety_canonical : ((ofTime 0 90 0 0).add (ofTime 0 90 0 0)).Canonical :=
  ((canonical_iff (ofTime 0 90 0 0) (ofTime 0 90 0 0)).2.1 ⟨by decide, by decide, by decide⟩).mpr
    (by unfold Reconciled Opposite; decide) |>.canonical

/-- An hour less a second stays an hour and -1 seconds. -/
theorem hour_less_second : (ofTime 1 0 (-1) 0).Fits ∧ ¬(ofTime 1 0 (-1) 0).setFields.Canonical := by
  refine ⟨⟨by decide, by decide, by decide⟩, fun h => ?_⟩
  have hsigns := h.signs
  exact absurd hsigns (by decide)

/-! ### Comparison -/

/-- The hours of a duration, a day having 24, with the whole hours of the minutes. -/
def hours (t : RelTime) : Int := t.day * 24 + t.mins.tdiv 60

/-- No `int` overflows while a duration is normalised for a comparison. -/
structure CompareFits (t : RelTime) : Prop extends Fits t where
  hour : FitsInt (t.mins.tdiv 60)
  day : FitsInt (t.setFields.hours.tdiv 24)

/-- The fields that `compare` sees. -/
theorem normalize_true_eq (hy : t.year = 0) (hm : t.month = 0) (h : t.Fits)
    (hhour : FitsInt (t.mins.tdiv 60)) (hday : FitsInt (t.hours.tdiv 24)) :
    t.normalize true =
      { year := (t.hours.tdiv 24).tdiv 365
        month := ((t.hours.tdiv 24).tmod 365).tdiv 31
        day := ((t.hours.tdiv 24).tmod 365).tmod 31
        hour := t.hours.tmod 24
        minute := t.mins.tmod 60
        second := t.secs.tmod 60
        us := t.micros.tmod 1000000 } := by
  have hdays : FitsInt ((t.hours.tdiv 24).tmod 365) := by
    have hlt := Int.tmod_lt_of_pos (t.hours.tdiv 24) (show (0 : Int) < 365 by decide)
    have hgt := Int.lt_tmod_of_pos (t.hours.tdiv 24) (show (0 : Int) < 365 by decide)
    unfold FitsInt
    omega
  have hmonths : -12 < ((t.hours.tdiv 24).tmod 365).tdiv 31 ∧
      ((t.hours.tdiv 24).tmod 365).tdiv 31 < 12 := by
    have hlt := Int.tmod_lt_of_pos (t.hours.tdiv 24) (show (0 : Int) < 365 by decide)
    have hgt := Int.lt_tmod_of_pos (t.hours.tdiv 24) (show (0 : Int) < 365 by decide)
    rw [tdiv_eq_ite]
    split <;> omega
  -- months and years already have one sign
  have hyears : normalizeUnits .int .int ((t.hours.tdiv 24).tdiv 365)
      (((t.hours.tdiv 24).tmod 365).tdiv 31) 12 =
      ((t.hours.tdiv 24).tdiv 365, ((t.hours.tdiv 24).tmod 365).tdiv 31) := by
    have hsame : (0 < (t.hours.tdiv 24).tdiv 365 → 0 ≤ ((t.hours.tdiv 24).tmod 365).tdiv 31) ∧
        ((t.hours.tdiv 24).tdiv 365 < 0 → ((t.hours.tdiv 24).tmod 365).tdiv 31 ≤ 0) := by
      generalize t.hours.tdiv 24 = d
      rw [tmod_eq_sub, tdiv_eq_ite d, tdiv_eq_ite _ 31]
      split_ifs <;> omega
    have hcarry : carryUnits .int .int ((t.hours.tdiv 24).tdiv 365)
        (((t.hours.tdiv 24).tmod 365).tdiv 31) 12 =
        ((t.hours.tdiv 24).tdiv 365, ((t.hours.tdiv 24).tmod 365).tdiv 31) := if_neg (by omega)
    unfold normalizeUnits
    rw [hcarry]
    dsimp only
    split_ifs <;> first | rfl | omega
  have hsecond := h.second
  have hminute := h.minute
  unfold normalize
  dsimp only
  rw [normalizeUnits_eq (by decide) h.us]
  change FitsInt ((t.second * 1000000 + t.us).tdiv 1000000) at hsecond
  rw [normalizeUnits_eq (by decide) hsecond]
  change FitsInt (t.secs.tdiv 60) at hminute
  rw [show t.minute * 60 + (t.second * 1000000 + t.us).tdiv 1000000 = t.secs from rfl,
    normalizeUnits_eq (by decide) hminute]
  rw [show t.hour * 60 + t.secs.tdiv 60 = t.mins from rfl]
  simp only [if_true]
  rw [normalizeUnits_eq (by decide) hhour]
  rw [show t.day * 24 + t.mins.tdiv 60 = t.hours from rfl, hy, hm,
    normalizeUnits_eq (by decide) hday]
  rw [Int.zero_mul, Int.zero_add, normalizeUnits_eq (by decide) hdays]
  rw [Int.zero_mul, Int.zero_add, hyears]
  rfl

theorem setFields_date (hy : t.year = 0) (hm : t.month = 0) :
    t.setFields.year = 0 ∧ t.setFields.month = 0 ∧ t.setFields.day = t.day := by
  have hzero : normalizeUnits .int .int t.year t.month 12 = (0, 0) := by
    rw [hy, hm]
    decide
  unfold setFields normalize
  simp only [Bool.false_eq_true, if_false, hzero, and_self]

/-- A normalised duration can be normalised again. -/
theorem CompareFits.setFields (h : t.CompareFits) :
    t.setFields.Fits ∧ FitsInt (t.setFields.mins.tdiv 60) := by
  obtain ⟨hhour, hminute, hsecond, hus⟩ := setFields_eq h.toFits
  have hu := Int.tmod_lt_of_pos t.micros (show (0 : Int) < 1000000 by decide)
  have hu' := Int.lt_tmod_of_pos t.micros (show (0 : Int) < 1000000 by decide)
  have hs := Int.tmod_lt_of_pos t.secs (show (0 : Int) < 60 by decide)
  have hs' := Int.lt_tmod_of_pos t.secs (show (0 : Int) < 60 by decide)
  have hm := Int.tmod_lt_of_pos t.mins (show (0 : Int) < 60 by decide)
  have hm' := Int.lt_tmod_of_pos t.mins (show (0 : Int) < 60 by decide)
  have hfits := h.hour
  generalize t.setFields = p at *
  -- less than a minute and less than an hour are carried
  have hcarry : -60 < p.micros.tdiv 1000000 ∧ p.micros.tdiv 1000000 < 60 := by
    unfold micros
    rw [tdiv_eq_ite]
    split <;> omega
  have hcarry' : -60 < p.secs.tdiv 60 ∧ p.secs.tdiv 60 < 60 := by
    unfold secs
    rw [tdiv_eq_ite]
    split <;> omega
  unfold FitsInt at hfits
  refine ⟨⟨?_, ?_, ?_⟩, ?_⟩
  · unfold FitsInt
    omega
  · unfold FitsInt
    omega
  · unfold FitsInt
    omega
  · unfold FitsInt mins
    rw [tdiv_eq_ite]
    split <;> omega

/-- A duration as hours, minutes, seconds and microseconds, after each unit is carried to the next
one. -/
structure Parts where
  hours : Int
  minutes : Int
  seconds : Int
  us : Int

def parts (t : RelTime) : Parts :=
  ⟨t.hours, t.mins.tmod 60, t.secs.tmod 60, t.micros.tmod 1000000⟩

/-- A difference of one unit that the smaller units make up for. -/
def Overcome (d rest unit : Int) : Prop := d = 1 ∧ rest ≤ -unit ∨ d = -1 ∧ unit ≤ rest

/-- Where two durations first differ, the smaller units make up for the difference. -/
def Parts.Outweighed (p q : Parts) : Prop :=
  Overcome (p.hours - q.hours) ((p.minutes - q.minutes) * 60000000 +
      (p.seconds - q.seconds) * 1000000 + (p.us - q.us)) 3600000000 ∨
  p.hours = q.hours ∧
    (Overcome (p.minutes - q.minutes) ((p.seconds - q.seconds) * 1000000 + (p.us - q.us)) 60000000 ∨
      p.minutes = q.minutes ∧ Overcome (p.seconds - q.seconds) (p.us - q.us) 1000000)

/-- Quotient and remainder are compared like the number. -/
theorem compareFields_split {x y k : Int} (hk : 0 < k) (fs : List (Int × Int)) :
    compareFields ((x.tdiv k, y.tdiv k) :: (x.tmod k, y.tmod k) :: fs) =
      compareFields ((x, y) :: fs) := by
  have hx := Int.mul_tdiv_add_tmod x k
  have hy := Int.mul_tdiv_add_tmod y k
  -- the quotient does not fall
  have hmono : ∀ a b : Int, a < b → a.tdiv k ≤ b.tdiv k := fun a b hab =>
    Int.tdiv_le_tdiv hk (Int.le_of_lt hab)
  simp only [compareFields]
  rcases lt_trichotomy x y with hlt | heq | hgt
  · have hle := hmono x y hlt
    rw [if_neg (show ¬x > y by omega), if_pos hlt, if_neg (by omega)]
    split
    · rfl
    · have hq : x.tdiv k = y.tdiv k := by omega
      rw [hq] at hx
      rw [if_neg (by omega), if_pos (by omega)]
  · subst heq
    simp
  · have hle := hmono y x hgt
    split
    · rfl
    · have hq : x.tdiv k = y.tdiv k := by omega
      rw [hq] at hx ⊢
      rw [if_neg (by omega), if_pos (by omega)]

theorem compareFields_cons (f : Int × Int) {fs gs : List (Int × Int)}
    (h : compareFields fs = compareFields gs) :
    compareFields (f :: fs) = compareFields (f :: gs) := by
  simp only [compareFields, h]

/-- `compare` looks at hours, minutes, seconds and microseconds, one after the other. -/
theorem compare_eq_parts {a b : RelTime} (ha : a.year = 0 ∧ a.month = 0)
    (hb : b.year = 0 ∧ b.month = 0) (hfa : a.CompareFits) (hfb : b.CompareFits) :
    a.compare b = compareFields [(a.setFields.parts.hours, b.setFields.parts.hours),
      (a.setFields.parts.minutes, b.setFields.parts.minutes),
      (a.setFields.parts.seconds, b.setFields.parts.seconds),
      (a.setFields.parts.us, b.setFields.parts.us)] := by
  have hda := setFields_date ha.1 ha.2
  have hdb := setFields_date hb.1 hb.2
  obtain ⟨hpa, hha⟩ := hfa.setFields
  obtain ⟨hpb, hhb⟩ := hfb.setFields
  unfold compare
  rw [normalize_true_eq hda.1 hda.2.1 hpa hha hfa.day,
    normalize_true_eq hdb.1 hdb.2.1 hpb hhb hfb.day]
  unfold fieldPairs parts
  generalize a.setFields = p
  generalize b.setFields = q
  -- years, months and days are the days, and days and hours the hours
  rw [compareFields_cons _ (compareFields_split (show (0 : Int) < 31 by decide) _),
    compareFields_split (show (0 : Int) < 365 by decide),
    compareFields_split (show (0 : Int) < 24 by decide)]

theorem getRelativeMicroseconds_parts (hy : t.year = 0) (hm : t.month = 0) (h : t.Fits) :
    t.getRelativeMicroseconds =
      t.setFields.parts.hours * 3600000000 + t.setFields.parts.minutes * 60000000 +
        t.setFields.parts.seconds * 1000000 + t.setFields.parts.us := by
  have hdate := setFields_date hy hm
  have hlength := timeMicros_setFields h
  have hparts : t.setFields.parts.hours * 3600000000 + t.setFields.parts.minutes * 60000000 +
      t.setFields.parts.seconds * 1000000 + t.setFields.parts.us =
      t.setFields.day * 86400000000 + t.setFields.timeMicros := by
    generalize t.setFields = p
    have hmins := Int.mul_tdiv_add_tmod p.mins 60
    have hsecs := Int.mul_tdiv_add_tmod p.secs 60
    have hmicros := Int.mul_tdiv_add_tmod p.micros 1000000
    have hm : p.mins = p.hour * 60 + p.secs.tdiv 60 := rfl
    have hs : p.secs = p.minute * 60 + p.micros.tdiv 1000000 := rfl
    have hu : p.micros = p.second * 1000000 + p.us := rfl
    unfold parts hours timeMicros
    dsimp only
    omega
  rw [hparts, hdate.2.2, hlength]
  unfold getRelativeMicroseconds timeMicros
  omega

/-- `compare` finds the order of the lengths exactly when the first difference is not outweighed by
the smaller units. -/
theorem compare_iff {a b : RelTime} (ha : a.year = 0 ∧ a.month = 0) (hb : b.year = 0 ∧ b.month = 0)
    (hfa : a.CompareFits) (hfb : b.CompareFits) :
    a.compare b = (a.getRelativeMicroseconds - b.getRelativeMicroseconds).sign ↔
      ¬a.setFields.parts.Outweighed b.setFields.parts := by
  rw [compare_eq_parts ha hb hfa hfb, getRelativeMicroseconds_parts ha.1 ha.2 hfa.toFits,
    getRelativeMicroseconds_parts hb.1 hb.2 hfb.toFits]
  have hbounds : ∀ t : RelTime, (-60 < t.parts.minutes ∧ t.parts.minutes < 60) ∧
      (-60 < t.parts.seconds ∧ t.parts.seconds < 60) ∧
      (-1000000 < t.parts.us ∧ t.parts.us < 1000000) := fun t =>
    ⟨⟨Int.lt_tmod_of_pos _ (by decide), Int.tmod_lt_of_pos _ (by decide)⟩,
      ⟨Int.lt_tmod_of_pos _ (by decide), Int.tmod_lt_of_pos _ (by decide)⟩,
      ⟨Int.lt_tmod_of_pos _ (by decide), Int.tmod_lt_of_pos _ (by decide)⟩⟩
  have hp := hbounds a.setFields
  have hq := hbounds b.setFields
  generalize a.setFields.parts = p at hp ⊢
  generalize b.setFields.parts = q at hq ⊢
  have hone : ∀ x : Int, 1 = x.sign ↔ 0 < x := fun x => eq_comm.trans Int.sign_eq_one_iff_pos
  have hneg : ∀ x : Int, -1 = x.sign ↔ x < 0 := fun x => eq_comm.trans Int.sign_eq_neg_one_iff_neg
  have hzero : ∀ x : Int, 0 = x.sign ↔ x = 0 := fun x => eq_comm.trans Int.sign_eq_zero_iff_zero
  unfold Parts.Outweighed Overcome
  simp only [compareFields]
  -- the branch of the first difference
  split_ifs
  · rw [hone]
    omega
  · rw [hneg]
    omega
  · rw [hone]
    omega
  · rw [hneg]
    omega
  · rw [hone]
    omega
  · rw [hneg]
    omega
  · rw [hone]
    omega
  · rw [hneg]
    omega
  · rw [hzero]
    omega

/-- 61 minutes are longer than an hour. -/
theorem compare_minutes : (ofTime 0 61 0 0).compare (ofTime 1 0 0 0) =
    ((ofTime 0 61 0 0).getRelativeMicroseconds - (ofTime 1 0 0 0).getRelativeMicroseconds).sign :=
  (compare_iff ⟨rfl, rfl⟩ ⟨rfl, rfl⟩
    ⟨⟨by decide, by decide, by decide⟩, by decide, by decide⟩
    ⟨⟨by decide, by decide, by decide⟩, by decide, by decide⟩).mpr
    (by unfold Parts.Outweighed Overcome; decide)

/-- A day less a minute is as long as 23 hours and 59 minutes, but compares as longer. -/
theorem compare_wrong :
    RelTime.compare { year := 0, month := 0, day := 1, hour := 0, minute := -1, second := 0, us := 0 }
      (ofTime 23 59 0 0) = 1 ∧
    getRelativeMicroseconds
      { year := 0, month := 0, day := 1, hour := 0, minute := -1, second := 0, us := 0 } =
      (ofTime 23 59 0 0).getRelativeMicroseconds := by
  decide

end RelTime

end Qore.Date
