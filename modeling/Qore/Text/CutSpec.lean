import Mathlib.Data.List.TakeWhile
import Qore.Text.Cut
import Qore.Text.Utf8

/-!
# `Qore.Text.CutSpec`: cutting in characters and in bytes

`cutSpec` says what a call of `substr`, `splice` or `extract` is for, as lists of characters.

* `simple_spec`: the functions for encodings with one byte for each character give what `cutSpec`
  says, when they are run on a sequence of characters.
* `complex_spec`: so do the others, in the encoding, apart from three places. `extract` to the end
  of the text copies a C string; `substr` with a length keeps the number of characters in an `int`;
  and with a replacement that is shorter than what it replaces, `memmove` reads behind the text.
* `cut_agrees_iff`: for UTF-8, the two agree exactly where `CutOp.Fine` excludes these.
-/

set_option autoImplicit false

namespace Qore.Text

open Qore.Lib Qore.Lib.Cells Qore.Lib.Words

/-! ## What the calls are for -/

section
variable {α : Type}

/-- The position where `substr` starts, if it lies inside the text. A negative offset is counted
from `clen`, the number of characters. -/
def subStart (clen : Int) (len : Nat) (offset : Int) : Option Nat :=
  if offset < 0 then (if clen + offset < 0 then none else some (clen + offset).toNat)
  else if len ≤ offset then none else some offset.toNat

/-- The characters from position `k` on, of which `length` are taken, or all but `-length`. -/
def select (xs : List α) (length : Int) (k : Nat) : List α :=
  (xs.drop k).take (if length < 0 then ((xs.length - k : Nat) + length).toNat else length.toNat)

/-- The characters that are replaced. -/
def removed (xs : List α) (offset num : Int) : List α :=
  let (o, n) := checkOffsetNum xs.length offset num
  (xs.drop o).take n

/-- The text with the replacement. -/
def replaced (xs : List α) (offset num : Int) (str : List α) : List α :=
  let (o, n) := checkOffsetNum xs.length offset num
  xs.take o ++ (str ++ xs.drop (o + n))

/-- The text after a call, and the text that it returns. -/
def cutSpec (xs : List α) : CutOp α → List α × Option (List α)
  | .substr o => (xs, (subStart xs.length xs.length o.toInt).map xs.drop)
  | .substrLen o l => (xs, (subStart xs.length xs.length o.toInt).map (select xs l.toInt))
  | .splice o => (xs.take (checkOffset xs.length o.toInt), none)
  | .spliceNum o n => (replaced xs o.toInt n.toInt [], none)
  | .spliceStr o n str => (replaced xs o.toInt n.toInt str, none)
  | .spliceVal o n str => (replaced xs o.toInt n.toInt str, none)
  | .extract o =>
    (xs.take (checkOffset xs.length o.toInt), some (xs.drop (checkOffset xs.length o.toInt)))
  | .extractNum o n => (replaced xs o.toInt n.toInt [], some (removed xs o.toInt n.toInt))
  | .extractVal o n str => (replaced xs o.toInt n.toInt str, some (removed xs o.toInt n.toInt))

/-- `memmove` stays inside the text: what is replaced is not longer than the replacement, in a unit
of length. -/
def CutOp.Within (size : List α → Nat) (xs : List α) : CutOp α → Prop
  | .spliceStr o n str => size (removed xs o.toInt n.toInt) ≤ size str
  | .spliceVal o n str => str = [] ∨ size (removed xs o.toInt n.toInt) ≤ size str
  | .extractVal o n str => str = [] ∨ size (removed xs o.toInt n.toInt) ≤ size str
  | _ => True

instance (size : List α → Nat) (xs : List α) : (op : CutOp α) → Decidable (op.Within size xs)
  | .spliceStr o n str => inferInstanceAs (Decidable (size (removed xs o.toInt n.toInt) ≤ size str))
  | .spliceVal o n str =>
    inferInstanceAs (Decidable (str = [] ∨ size (removed xs o.toInt n.toInt) ≤ size str))
  | .extractVal o n str =>
    inferInstanceAs (Decidable (str = [] ∨ size (removed xs o.toInt n.toInt) ≤ size str))
  | .substr _ | .substrLen _ _ | .splice _ | .spliceNum _ _ | .extract _ | .extractNum _ _ =>
    inferInstanceAs (Decidable True)

/-- What a call returns: nothing, or a string with the text. -/
def Returned (M : Memory α) (e : Option (Str α)) (ys : Option (List α)) : Prop :=
  match e, ys with
  | none, none => True
  | some e, some ys => Holds M e ys
  | _, _ => False

/-- The outcome of a call. -/
def Outcome (M : Memory α) (r : Option (Str α × Option (Str α))) (xs : List α)
    (ys : Option (List α)) (moved : Nat → Prop) : Prop :=
  ∃ t e, r = some (t, e) ∧ Holds M t xs ∧ Returned M e ys ∧ moved t.moved

variable {M : Memory α} {s : Str α} {xs : List α} {r : Option (Str α × Option (Str α))}
  {ys : Option (List α)} {moved : Nat → Prop} {extract : Option (Str α)} {offset : Int}

theorem Outcome.mono {p q : Nat → Prop} (h : Outcome M r xs ys p) (hpq : ∀ m, p m → q m) :
    Outcome M r xs ys q := by
  obtain ⟨t, e, hr, ht, hret, hm⟩ := h
  exact ⟨t, e, hr, ht, hret, hpq _ hm⟩

theorem Returned.unique {e : Option (Str α)} {zs : Option (List α)} (h : Returned M e ys)
    (h' : Returned M e zs) : ys = zs := by
  cases e with
  | none =>
    cases ys with
    | none =>
      cases zs with
      | none => rfl
      | some z => exact h'.elim
    | some y => exact h.elim
  | some e =>
    cases ys with
    | none => exact h.elim
    | some y =>
      cases zs with
      | none => exact h'.elim
      | some z => exact congrArg some (Holds.unique h h')

/-- A call has one outcome. -/
theorem Outcome.unique {xs' : List α} {ys' : Option (List α)} {p q : Nat → Prop}
    (h : Outcome M r xs ys p) (h' : Outcome M r xs' ys' q) :
    xs = xs' ∧ ys = ys' ∧ ∃ m, p m ∧ q m := by
  obtain ⟨t, e, hr, ht, hret, hm⟩ := h
  obtain ⟨t', e', hr', ht', hret', hm'⟩ := h'
  rw [hr] at hr'
  obtain ⟨rfl, rfl⟩ := hr'
  exact ⟨ht.unique ht', hret.unique hret', t.moved, hm, hm'⟩

/-- A cut without a string to extract to. -/
theorem Cut.outcome_none {d : List α} (h : Cut M r none xs d moved) :
    Outcome M r xs none moved := by
  obtain ⟨t, e, hr, ht, hsome, -, hm⟩ := h
  cases e with
  | none => exact ⟨t, none, hr, ht, trivial, hm⟩
  | some e => cases hsome

/-- A cut with a new string to extract to. -/
theorem Cut.outcome_new {f : Option (Str α) → Option (Str α × Option (Str α))} {d : List α}
    (h : ∀ e, Holds M e [] → Cut M (f (some e)) (some e) xs d moved) :
    Outcome M ((Str.new M).bind fun e => f (some e)) xs (some d) moved := by
  obtain ⟨e, hnew, hempty, -⟩ := new_yields (M := M)
  obtain ⟨t, e', hr, ht, hsome, hext, hm⟩ := h e hempty
  rw [hnew, Option.bind_some]
  cases e' with
  | none => cases hsome
  | some e' => exact ⟨t, some e', hr, ht, hext e' rfl, hm⟩

/-! ## The single byte functions -/

/-- Nothing is cut. -/
theorem cut_refl (h : Holds M s xs) (he : Extracted M extract []) (hm : moved s.moved) :
    Cut M (some (s, extract)) extract xs [] moved :=
  ⟨s, extract, rfl, h, rfl, he, hm⟩

theorem spliceSimple_take_drop (h : Holds M s xs) {o : Nat} (ho : o ≤ xs.length) (n : Nat)
    (he : Extracted M extract []) :
    Cut M (s.spliceSimple M o n extract) extract (xs.take o ++ xs.drop (o + n))
      ((xs.drop o).take n) (fun m => m ≤ max s.moved s.len) := by
  have hlen : (xs.take o).length = o := List.length_take_of_le ho
  have hsplit : Holds M s (xs.take o ++ ((xs.drop o).take n ++ xs.drop (o + n))) := by
    rwa [split_three]
  have hcut := spliceSimple_cut hsplit (cuts_take_drop xs o n) he
  rwa [hlen] at hcut

theorem spliceSimpleStr_take_drop (h : Holds M s xs) {o : Nat} (ho : o ≤ xs.length) (n : Nat)
    (str : List α) (he : Extracted M extract []) :
    Cut M (s.spliceSimpleStr M o n str extract) extract (xs.take o ++ (str ++ xs.drop (o + n)))
      ((xs.drop o).take n)
      (fun m => if str.length < ((xs.drop o).take n).length then
          m = max s.moved (s.len + (((xs.drop o).take n).length - str.length))
        else m ≤ max s.moved s.len) := by
  have hlen : (xs.take o).length = o := List.length_take_of_le ho
  have hsplit : Holds M s (xs.take o ++ ((xs.drop o).take n ++ xs.drop (o + n))) := by
    rwa [split_three]
  have hcut := spliceSimpleStr_cut hsplit (cuts_take_drop xs o n) str he
  rwa [hlen] at hcut

theorem cutEnd_cut (h : Holds M s xs) (offset : Int) (he : Extracted M extract []) :
    Cut M (s.cutEnd M offset extract) extract (xs.take (checkOffset xs.length offset))
      (xs.drop (checkOffset xs.length offset)) (fun m => m ≤ max s.moved s.len) := by
  have hlen : s.len = xs.length := h.len_eq
  have ho := checkOffset_le xs.length offset
  unfold Str.cutEnd
  dsimp only
  rw [hlen]
  generalize checkOffset xs.length offset = o at ho ⊢
  split
  · rename_i heq
    rw [heq, List.take_length, List.drop_length]
    exact cut_refl h he (by omega)
  · have hcut := spliceSimple_take_drop h ho (xs.length - o) he
    have htake : (xs.drop o).take (xs.length - o) = xs.drop o :=
      List.take_of_length_le (by rw [List.length_drop])
    rw [Nat.add_sub_cancel' ho, List.drop_length, List.append_nil, htake, hlen] at hcut
    exact hcut

theorem cutNum_cut (h : Holds M s xs) (offset num : Int) (he : Extracted M extract []) :
    Cut M (s.cutNum M offset num extract) extract (replaced xs offset num [])
      (removed xs offset num) (fun m => m ≤ max s.moved s.len) := by
  have hlen : s.len = xs.length := h.len_eq
  have ho : (checkOffsetNum xs.length offset num).1 ≤ xs.length := by
    rw [checkOffsetNum_fst]
    exact checkOffset_le _ _
  unfold Str.cutNum replaced removed
  rw [hlen]
  generalize checkOffsetNum xs.length offset num = p at ho ⊢
  obtain ⟨o, n⟩ := p
  dsimp only at ho ⊢
  rw [List.nil_append]
  split
  · rename_i hnone
    have hd : (xs.drop o).take n = [] := by
      rcases hnone with rfl | rfl
      · simp
      · simp
    have hsplit := split_three xs o n
    rw [hd, List.nil_append] at hsplit
    rw [hd, hsplit]
    exact cut_refl h he (by omega)
  · have hcut := spliceSimple_take_drop h ho n he
    rwa [hlen] at hcut

theorem cutStr_cut (h : Holds M s xs) (offset num : Int) (str : List α)
    (he : Extracted M extract []) :
    Cut M (s.cutStr M offset num str extract) extract (replaced xs offset num str)
      (removed xs offset num)
      (fun m => if str.length < (removed xs offset num).length then
          m = max s.moved (s.len + ((removed xs offset num).length - str.length))
        else m ≤ max s.moved s.len) := by
  have hlen : s.len = xs.length := h.len_eq
  have ho : (checkOffsetNum xs.length offset num).1 ≤ xs.length := by
    rw [checkOffsetNum_fst]
    exact checkOffset_le _ _
  unfold Str.cutStr replaced removed
  rw [hlen]
  generalize checkOffsetNum xs.length offset num = p at ho ⊢
  obtain ⟨o, n⟩ := p
  dsimp only at ho ⊢
  by_cases heq : o = xs.length
  · -- at the end of the text the replacement is appended
    subst heq
    rw [if_pos rfl]
    split
    · rename_i hnil
      rw [List.length_eq_zero_iff.mp hnil]
      simp only [List.take_length, List.drop_length, List.take_nil, List.nil_append]
      rw [List.drop_eq_nil_of_le (by omega), List.append_nil]
      refine cut_refl h he ?_
      rw [if_neg (lt_irrefl _)]
      omega
    · have hcut := spliceSimpleStr_take_drop h (le_refl xs.length) 0 str he
      simp only [Nat.add_zero, List.take_length, List.drop_length, List.take_nil, hlen] at hcut
      simp only [List.take_length, List.drop_length, List.take_nil]
      rw [List.drop_eq_nil_of_le (by omega)]
      exact hcut
  · rw [if_neg heq]
    have hcut := spliceSimpleStr_take_drop h ho n str he
    rwa [hlen] at hcut

/-- A new string with cells of the text. -/
theorem substrNew (h : Holds M s xs) {k n : Nat} (hk : k + n ≤ xs.length) :
    ∃ e, (do
      let ns ← Str.new M
      let ns ← ns.concatMem M (fetch M.junk s.buf k n)
      some (some ns)) = some (some e) ∧ Holds M e ((xs.drop k).take n) := by
  obtain ⟨e, hnew, hempty, -⟩ := new_yields (M := M)
  obtain ⟨r, hbuf, -⟩ := h
  have hread : fetch M.junk s.buf k n = (xs.drop k).take n := by
    rw [hbuf, fetch_of_le _ _ _ (by rw [List.length_append]; omega),
      List.drop_append_of_le_length (by omega),
      List.take_append_of_le_length (by rw [List.length_drop]; omega)]
  obtain ⟨e', he', hholds, -⟩ := concatMem_holds (M := M) hempty.fills ((xs.drop k).take n)
  refine ⟨e', ?_, hholds⟩
  rw [hnew, hread]
  simp only [Option.bind_eq_bind, Option.bind_some, he']

/-- The unsigned offset lies behind the text when the position lies before it. -/
theorem subOffset_eq (len : Nat) (hmin : -2 ^ 63 ≤ offset) :
    (subStart len len offset = none ∧ len ≤ subOffset len offset) ∨
      ∃ k, subStart len len offset = some k ∧ subOffset len offset = k ∧ k < len := by
  unfold subStart subOffset toSize
  by_cases hneg : offset < 0
  · rw [if_pos hneg, if_pos hneg]
    by_cases hout : len + offset < 0
    · left
      rw [if_pos hout, if_neg (by omega)]
      exact ⟨rfl, by omega⟩
    · right
      rw [if_neg hout, if_pos (by omega)]
      exact ⟨_, rfl, rfl, by omega⟩
  · rw [if_neg hneg, if_neg hneg]
    by_cases hout : (len : Int) ≤ offset
    · left
      rw [if_pos hout]
      exact ⟨rfl, by omega⟩
    · right
      rw [if_neg hout]
      exact ⟨_, rfl, rfl, by omega⟩

theorem substrSimple_returned (h : Holds M s xs) (hmin : -2 ^ 63 ≤ offset) :
    ∃ e, s.substrSimple M offset = some e ∧
      Returned M e ((subStart xs.length xs.length offset).map xs.drop) := by
  have hlen := h.len_eq
  unfold Str.substrSimple
  rw [hlen]
  rcases subOffset_eq xs.length hmin with ⟨hnone, hle⟩ | ⟨k, hsome, hk, hlt⟩
  · rw [if_pos hle, hnone]
    exact ⟨none, rfl, trivial⟩
  · rw [if_neg (by omega), hsome, hk]
    obtain ⟨e, he, hholds⟩ := substrNew h (k := k) (n := xs.length - k) (by omega)
    rw [List.take_of_length_le (by rw [List.length_drop])] at hholds
    exact ⟨some e, he, hholds⟩

theorem substrSimpleLen_returned (h : Holds M s xs) (hmin : -2 ^ 63 ≤ offset) (length : Int) :
    ∃ e, s.substrSimpleLen M offset length = some e ∧
      Returned M e ((subStart xs.length xs.length offset).map (select xs length)) := by
  have hlen := h.len_eq
  unfold Str.substrSimpleLen
  rw [hlen]
  rcases subOffset_eq xs.length hmin with ⟨hnone, hle⟩ | ⟨k, hsome, hk, hlt⟩
  · rw [if_pos hle, hnone]
    exact ⟨none, rfl, trivial⟩
  · rw [if_neg (by omega), hsome, hk]
    -- the number of characters is cut at the end of the text
    have hcount : (xs.drop k).take (if length < 0 then
          if ((xs.length - k : Nat) : Int) + length < 0 then 0
            else (((xs.length - k : Nat) : Int) + length).toNat
        else if ((xs.length - k : Nat) : Int) < length then xs.length - k else length.toNat) =
          select xs length k := by
      unfold select
      split
      · split
        · rw [Int.toNat_of_nonpos (by omega)]
        · rfl
      · split
        · rw [List.take_of_length_le (by rw [List.length_drop]),
            List.take_of_length_le (by rw [List.length_drop]; omega)]
        · rfl
    obtain ⟨e, he, hholds⟩ := substrNew h (k := k) (n := if length < 0 then
          if ((xs.length - k : Nat) : Int) + length < 0 then 0
            else (((xs.length - k : Nat) : Int) + length).toNat
        else if ((xs.length - k : Nat) : Int) < length then xs.length - k else length.toNat)
      (by split <;> split <;> omega)
    rw [hcount] at hholds
    exact ⟨some e, he, hholds⟩

theorem within_iff {m len d str : Nat} (hm : if str < d then m = max 0 (len + (d - str)) else
    m ≤ max 0 len) : m ≤ len ↔ d ≤ str := by
  split at hm <;> omega

/-- The single byte functions give what they are for; `memmove` reads behind the text when the
replacement is shorter than what it replaces. -/
theorem simple_spec (h : Holds M s xs) (hm : s.moved = 0) (op : CutOp α) :
    Outcome M (op.simple M s) (cutSpec xs op).1 (cutSpec xs op).2
      (fun m => m ≤ s.len ↔ op.Within List.length xs) := by
  have hnew : ∀ e, Holds M e [] → Extracted M (some e) [] := by
    intro e he x hx
    rwa [← Option.some.inj hx]
  have hnone : Extracted M (none : Option (Str α)) [] := by simp [Extracted]
  have hinside : ∀ m, m ≤ max s.moved s.len → (m ≤ s.len ↔ True) := by
    intro m hle
    simp only [iff_true]
    omega
  have hshort : ∀ (o n : Int64) (str : List α) (m : Nat),
      (if str.length < (removed xs o.toInt n.toInt).length then
        m = max s.moved (s.len + ((removed xs o.toInt n.toInt).length - str.length))
      else m ≤ max s.moved s.len) →
      (m ≤ s.len ↔ (removed xs o.toInt n.toInt).length ≤ str.length) := by
    intro o n str m hif
    rw [hm] at hif
    exact within_iff hif
  have hwithin : ∀ (o n : Int64) (str : List α), ¬ str.length = 0 →
      ((removed xs o.toInt n.toInt).length ≤ str.length ↔
        str = [] ∨ (removed xs o.toInt n.toInt).length ≤ str.length) := by
    intro o n str hstr
    have hne : str ≠ [] := fun h => hstr (by rw [h]; rfl)
    simp [hne]
  cases op with
  | substr o =>
    obtain ⟨e, he, hret⟩ := substrSimple_returned h o.le_toInt
    refine ⟨s, e, ?_, h, hret, hinside _ (by omega)⟩
    rw [CutOp.simple, he]
    rfl
  | substrLen o l =>
    obtain ⟨e, he, hret⟩ := substrSimpleLen_returned h o.le_toInt l.toInt
    refine ⟨s, e, ?_, h, hret, hinside _ (by omega)⟩
    rw [CutOp.simple, he]
    rfl
  | splice o => exact (cutEnd_cut h o.toInt hnone).outcome_none.mono hinside
  | spliceNum o n => exact (cutNum_cut h o.toInt n.toInt hnone).outcome_none.mono hinside
  | spliceStr o n str =>
    exact (cutStr_cut h o.toInt n.toInt str hnone).outcome_none.mono (hshort o n str)
  | spliceVal o n str =>
    by_cases hstr : str.length = 0
    · rw [CutOp.simple, if_pos hstr]
      have hnil := List.length_eq_zero_iff.mp hstr
      subst hnil
      exact (cutNum_cut h o.toInt n.toInt hnone).outcome_none.mono fun m hle =>
        (hinside m hle).trans (by simp [CutOp.Within])
    · rw [CutOp.simple, if_neg hstr]
      exact (cutStr_cut h o.toInt n.toInt str hnone).outcome_none.mono fun m hif =>
        (hshort o n str m hif).trans (hwithin o n str hstr)
  | extract o =>
    exact (Cut.outcome_new fun e he => cutEnd_cut h o.toInt (hnew e he)).mono hinside
  | extractNum o n =>
    exact (Cut.outcome_new fun e he => cutNum_cut h o.toInt n.toInt (hnew e he)).mono hinside
  | extractVal o n str =>
    by_cases hstr : str.length = 0
    · simp only [CutOp.simple, if_pos hstr]
      have hnil := List.length_eq_zero_iff.mp hstr
      subst hnil
      exact (Cut.outcome_new fun e he => cutNum_cut h o.toInt n.toInt (hnew e he)).mono fun m hle =>
        (hinside m hle).trans (by simp [CutOp.Within])
    · simp only [CutOp.simple, if_neg hstr]
      exact (Cut.outcome_new fun e he => cutStr_cut h o.toInt n.toInt str (hnew e he)).mono
        fun m hif => (hshort o n str m hif).trans (hwithin o n str hstr)

end

/-! ## The functions for more bytes -/

/-- The number of cells of `check_offset`, for an offset that was computed in another way. -/
theorem checkOffsetNum_eq {len : Nat} {offset o num : Int} (ho : o = checkOffset len offset) :
    checkOffsetNum len offset num = (o.toNat,
      (if num < 0 then (if len + num - o < 0 then 0 else len + num - o) else num).toNat) := by
  subst ho
  unfold checkOffsetNum
  dsimp only
  split
  · split <;> rfl
  · rfl

/-- The offset of the functions that stop behind the end of the text. -/
theorem offset_eq {len : Nat} {offset : Int} (h : ¬(0 ≤ offset ∧ len ≤ offset)) :
    (if offset < 0 then (if len + offset < 0 then 0 else len + offset) else offset) =
      checkOffset len offset := by
  unfold checkOffset
  split
  · split <;> omega
  · rw [if_neg (by omega)]
    omega

/-- The offset of the function with a replacement. -/
theorem offset_str_eq (len : Nat) (offset : Int) :
    (if len ≤ offset then (len : Int)
      else if offset < 0 then (if len + offset < 0 then 0 else len + offset) else offset) =
      checkOffset len offset := by
  unfold checkOffset
  split
  · rw [if_neg (by omega)]
    split <;> omega
  · split
    · split <;> omega
    · rw [if_neg (by omega)]
      omega

/-- What a C string shows of a text that a zero follows. -/
theorem takeWhile_append_stop {β : Type} [DecidableEq β] (l r : List β) (z : β) :
    (l ++ z :: r).takeWhile (· ≠ z) = l.takeWhile (· ≠ z) := by
  induction l with
  | nil => simp
  | cons x l ih =>
    rw [List.cons_append, List.takeWhile_cons, List.takeWhile_cons, ih]

section
variable {γ : Type} {enc : γ → List UInt8} {next : List UInt8 → Int} {M : Memory UInt8}
  {s : Str UInt8} {cs : List γ}

theorem spell_split (enc : γ → List UInt8) (cs : List γ) (o n : Nat) :
    spell enc (cs.take o) ++ (spell enc ((cs.drop o).take n) ++ spell enc (cs.drop (o + n))) =
      spell enc cs := by
  rw [← spell_append, ← spell_append, split_three]

/-- The characters from position `k` on, of which `n` are taken, as bytes. -/
theorem substrNew_spell (h : Holds M s (spell enc cs)) (k n : Nat) :
    ∃ e, (do
      let ns ← Str.new M
      let ns ← ns.concatMem M (fetch M.junk s.buf (spell enc (cs.take k)).length
        (spell enc ((cs.drop k).take n)).length)
      some (some ns)) = some (some e) ∧ Holds M e (spell enc ((cs.drop k).take n)) := by
  have hsplit := congrArg List.length (spell_split enc cs k n)
  simp only [List.length_append] at hsplit
  obtain ⟨e, he, hholds⟩ := substrNew h (k := (spell enc (cs.take k)).length)
    (n := (spell enc ((cs.drop k).take n)).length) (by omega)
  have htake : (spell enc (cs.drop k)).take (spell enc ((cs.drop k).take n)).length =
      spell enc ((cs.drop k).take n) := by
    conv_lhs => rw [← List.take_append_drop n (cs.drop k), spell_append]
    rw [List.take_append_drop, List.take_left]
  rw [drop_spell, htake] at hholds
  exact ⟨e, he, hholds⟩

/-- The three places of a position: before the text, behind it, and inside. -/
theorem subStart_cases {clen : Int} {len : Nat} (hle : clen ≤ len) (offset : Int) :
    ((offset < 0 ∧ (clen + offset < 0 ∨ clen ≤ clen + offset)) ∧ subStart clen len offset = none) ∨
    (¬(offset < 0 ∧ (clen + offset < 0 ∨ clen ≤ clen + offset)) ∧
      ((subStart clen len offset = none ∧
          len ≤ (if offset < 0 then clen + offset else offset).toNat) ∨
        ∃ k, subStart clen len offset = some k ∧
          (if offset < 0 then clen + offset else offset).toNat = k ∧ k < len)) := by
  unfold subStart
  by_cases hneg : offset < 0
  · simp only [if_pos hneg]
    by_cases hout : clen + offset < 0
    · exact .inl ⟨⟨hneg, .inl hout⟩, if_pos hout⟩
    · rw [if_neg hout]
      exact .inr ⟨by omega, .inr ⟨_, rfl, rfl, by omega⟩⟩
  · simp only [if_neg hneg]
    refine .inr ⟨by omega, ?_⟩
    by_cases hout : (len : Int) ≤ offset
    · rw [if_pos hout]
      exact .inl ⟨rfl, by omega⟩
    · rw [if_neg hout]
      exact .inr ⟨_, rfl, rfl, by omega⟩

section
variable (hscan : ∀ c, Scans next (enc c)) {extract : Option (Str UInt8)}
include hscan

theorem byteRange_spell {o : Nat} (ho : o ≤ cs.length) (n : Nat) :
    byteRange next (spell enc cs) o n =
      some ((spell enc (cs.take o)).length,
        (spell enc (cs.take o)).length + (spell enc ((cs.drop o).take n)).length,
        (spell enc ((cs.drop o).take n)).length) := by
  -- the characters before the end, in one count
  have hend : cs.take (if cs.length - o < n then cs.length else o + n) = cs.take (o + n) := by
    split
    · rw [List.take_length, List.take_of_length_le (by omega)]
    · rfl
  have hnum : (cs.drop o).take (if cs.length - o < n then cs.length - o else n) =
      (cs.drop o).take n := by
    split
    · rw [List.take_of_length_le (by rw [List.length_drop]),
        List.take_of_length_le (by rw [List.length_drop]; omega)]
    · rfl
  unfold byteRange
  simp only [countWords_spell hscan, lettersOf_spell hscan, drop_spell, hend, hnum,
    length_spell_take_add, Bool.false_eq_true, if_false]

/-- The conversion of positions finds the characters that `check_offset` names. -/
theorem spliceComplexNum_cut (h : Holds M s (spell enc cs)) (offset num : Int)
    (he : Extracted M extract []) :
    Cut M (s.spliceComplexNum M next offset num extract) extract
      (spell enc (replaced cs offset num [])) (spell enc (removed cs offset num))
      (fun m => m ≤ max s.moved s.len) := by
  unfold Str.spliceComplexNum replaced removed
  simp only [h.fills.text_eq, countWords_spell hscan, Bool.false_eq_true, if_false, List.nil_append]
  by_cases hout : 0 ≤ offset ∧ (cs.length : Int) ≤ offset
  · -- behind the end nothing is cut
    rw [if_pos hout]
    have hall : (checkOffsetNum cs.length offset num).1 = cs.length := by
      rw [checkOffsetNum_fst, checkOffset, if_neg (by omega)]
      split <;> omega
    rw [hall, List.take_length, List.drop_length, List.take_nil, List.drop_eq_nil_of_le (by omega),
      List.append_nil]
    exact cut_refl h he (by omega)
  · rw [if_neg hout, offset_eq hout]
    have ho := checkOffset_le cs.length offset
    rw [checkOffsetNum_eq rfl]
    generalize (if num < 0 then (if (cs.length : Int) + num - checkOffset cs.length offset < 0 then 0
      else cs.length + num - checkOffset cs.length offset) else num).toNat = n
    rw [Int.toNat_natCast]
    generalize checkOffset cs.length offset = o at ho ⊢
    rw [byteRange_spell hscan ho]
    dsimp only
    have hholds := h
    rw [← spell_split enc cs o n] at hholds
    have hrange : (spell enc (cs.take o)).length + (spell enc ((cs.drop o).take n)).length ≤ s.len := by
      rw [hholds.len_eq]
      simp only [List.length_append]
      omega
    rw [spliceSimple_of_range s _ _ extract hrange, spell_append]
    exact spliceSimple_cut hholds (.inl rfl) he

theorem spliceComplexStr_cut (h : Holds M s (spell enc cs)) (offset num : Int) (str : List γ)
    (he : Extracted M extract []) :
    Cut M (s.spliceComplexStr M next offset num (spell enc str) extract) extract
      (spell enc (replaced cs offset num str)) (spell enc (removed cs offset num))
      (fun m => if (spell enc str).length < (spell enc (removed cs offset num)).length then
          m = max s.moved
            (s.len + ((spell enc (removed cs offset num)).length - (spell enc str).length))
        else m ≤ max s.moved s.len) := by
  unfold Str.spliceComplexStr replaced removed
  simp only [h.fills.text_eq, countWords_spell hscan, Bool.false_eq_true, if_false]
  rw [offset_str_eq]
  have ho := checkOffset_le cs.length offset
  rw [checkOffsetNum_eq rfl]
  generalize (if num < 0 then (if (cs.length : Int) + num - checkOffset cs.length offset < 0 then 0
    else cs.length + num - checkOffset cs.length offset) else num).toNat = n
  rw [Int.toNat_natCast]
  generalize checkOffset cs.length offset = o at ho ⊢
  rw [byteRange_spell hscan ho]
  dsimp only
  have hholds := h
  rw [← spell_split enc cs o n] at hholds
  have hrange : (spell enc (cs.take o)).length + (spell enc ((cs.drop o).take n)).length ≤ s.len := by
    rw [hholds.len_eq]
    simp only [List.length_append]
    omega
  have hsimple := spliceSimpleStr_of_range (M := M) s _ _ (spell enc str) extract hrange
  rw [hsimple, spell_append, spell_append]
  exact spliceSimpleStr_cut hholds (.inl rfl) (spell enc str) he

/-- `extract` to the end of the text takes the characters before the first zero. -/
theorem spliceComplex_cut (h : Holds M s (spell enc cs)) (offset : Int)
    (he : Extracted M extract []) :
    Cut M (s.spliceComplex M next offset extract) extract
      (spell enc (cs.take (checkOffset cs.length offset)))
      ((spell enc (cs.drop (checkOffset cs.length offset))).takeWhile (· ≠ M.zero))
      (fun m => m ≤ max s.moved s.len) := by
  unfold Str.spliceComplex
  simp only [h.fills.text_eq, countWords_spell hscan, Bool.false_eq_true, if_false]
  by_cases hout : 0 ≤ offset ∧ (cs.length : Int) ≤ offset
  · rw [if_pos hout]
    have hall : checkOffset cs.length offset = cs.length := by
      rw [checkOffset, if_neg (by omega)]
      split <;> omega
    rw [hall, List.take_length, List.drop_length]
    exact cut_refl h he (by omega)
  · rw [if_neg hout, offset_eq hout]
    have ho := checkOffset_le cs.length offset
    generalize checkOffset cs.length offset = o at ho ⊢
    have hbyte : (if (o : Int) ≠ 0 then lettersOf next (spell enc cs) (o : Int).toNat else (0, false)) =
        ((spell enc (cs.take o)).length, false) := by
      rw [Int.toNat_natCast, lettersOf_spell hscan]
      split
      · rfl
      · rename_i hzero
        have : o = 0 := by omega
        rw [this]
        rfl
    simp only [hbyte, Bool.false_eq_true, if_false]
    -- the text in two parts, with the zero behind it
    obtain ⟨r, hbuf, hlen⟩ := h
    have hparts : s.buf = spell enc (cs.take o) ++ (spell enc (cs.drop o) ++ M.zero :: r) := by
      rw [hbuf, ← List.append_assoc, ← spell_append, List.take_append_drop]
    have hslen : s.len = (spell enc (cs.take o)).length + (spell enc (cs.drop o)).length := by
      rw [hlen, ← List.length_append, ← spell_append, List.take_append_drop]
    have hcstr : (s.buf.drop (spell enc (cs.take o)).length).takeWhile (· ≠ M.zero) =
        (spell enc (cs.drop o)).takeWhile (· ≠ M.zero) := by
      rw [hparts, List.drop_left]
      exact takeWhile_append_stop _ _ _
    obtain ⟨t, ht, hholds, hmoved⟩ := endAt_yields (M := M) s (spell enc (cs.take o))
      (spell enc (cs.drop o) ++ M.zero :: r) hparts
      (by simp only [List.length_append, List.length_cons]; omega) rfl
    cases extract with
    | none =>
      simp only [Option.bind_eq_bind, Option.bind_some, ht]
      exact ⟨t, none, rfl, hholds, rfl, by simp [Extracted], by omega⟩
    | some e =>
      obtain ⟨e', he', hext, -⟩ := concatCStr_holds (M := M) (he e rfl).fills
        ((spell enc (cs.drop o)).takeWhile (· ≠ M.zero))
      by_cases hlt : (spell enc (cs.take o)).length < s.len
      · simp only [Option.bind_eq_bind, if_pos hlt, hcstr, he', Option.map_some, Option.bind_some, ht]
        refine ⟨t, some e', rfl, hholds, rfl, ?_, by omega⟩
        intro x hx
        rw [← Option.some.inj hx]
        exact hext
      · simp only [Option.bind_eq_bind, if_neg hlt, Option.bind_some, ht]
        have hnil : spell enc (cs.drop o) = [] := List.length_eq_zero_iff.mp (by omega)
        refine ⟨t, some e, rfl, hholds, rfl, ?_, by omega⟩
        rw [hnil]
        exact he

/-- A position inside the text, in bytes. -/
theorem length_spell_take_lt {k : Nat} (hk : k < cs.length) :
    (spell enc (cs.take k)).length ≠ (spell enc cs).length := by
  intro heq
  have := (length_spell_take_eq_iff hscan cs k).mp heq
  omega

theorem substrComplex_returned (h : Holds M s (spell enc cs)) (offset : Int) :
    ∃ e, s.substrComplex M next offset = some e ∧
      Returned M e (((subStart cs.length cs.length offset).map cs.drop).map (spell enc)) := by
  have hlen := h.len_eq
  unfold Str.substrComplex
  simp only [h.fills.text_eq, countWords_spell hscan, lettersOf_spell hscan, Bool.false_eq_true,
    false_or, hlen]
  rcases subStart_cases (Int.le_refl cs.length) offset with
    ⟨hbefore, hnone⟩ | ⟨hnot, ⟨hnone, hbehind⟩ | ⟨k, hsome, hk, hlt⟩⟩
  · rw [if_pos hbefore, hnone]
    exact ⟨none, rfl, trivial⟩
  · rw [if_neg hnot, if_pos ((length_spell_take_eq_iff hscan cs _).mpr hbehind), hnone]
    exact ⟨none, rfl, trivial⟩
  · rw [if_neg hnot, hk, if_neg (length_spell_take_lt hscan hlt), hsome]
    obtain ⟨e, he, hholds⟩ := substrNew_spell h k cs.length
    have hall : (cs.drop k).take cs.length = cs.drop k :=
      List.take_of_length_le (by rw [List.length_drop]; omega)
    have hrest : (spell enc cs).length - (spell enc (cs.take k)).length =
        (spell enc (cs.drop k)).length := by
      rw [← List.length_drop, drop_spell]
    rw [hall] at he hholds
    rw [hrest]
    exact ⟨some e, he, hholds⟩

/-- A negative offset is counted from the number of characters as an `int`. -/
theorem substrComplexLen_returned (h : Holds M s (spell enc cs)) (offset length : Int) :
    ∃ e, s.substrComplexLen M next offset length = some e ∧
      Returned M e (((subStart (truncInt cs.length) cs.length offset).map (select cs length)).map
        (spell enc)) := by
  have hlen := h.len_eq
  have htrunc : truncInt cs.length ≤ cs.length := by
    unfold truncInt
    omega
  unfold Str.substrComplexLen
  simp only [h.fills.text_eq, countWords_spell hscan, lettersOf_spell hscan, Bool.false_eq_true,
    false_or, hlen]
  rcases subStart_cases htrunc offset with
    ⟨hbefore, hnone⟩ | ⟨hnot, ⟨hnone, hbehind⟩ | ⟨k, hsome, hk, hlt⟩⟩
  · rw [if_pos hbefore, hnone]
    exact ⟨none, rfl, trivial⟩
  · rw [if_neg hnot, if_pos ((length_spell_take_eq_iff hscan cs _).mpr hbehind), hnone]
    exact ⟨none, rfl, trivial⟩
  · rw [if_neg hnot, hk, if_neg (length_spell_take_lt hscan hlt), hsome]
    simp only [drop_spell, countWords_spell hscan, lettersOf_spell hscan, Bool.false_eq_true,
      and_false, if_false, List.length_drop]
    have hcount : (if length < 0 then (if ((cs.length - k : Nat) : Int) + length < 0 then 0
        else ((cs.length - k : Nat) : Int) + length) else length).toNat =
        if length < 0 then (((cs.length - k : Nat) : Int) + length).toNat else length.toNat := by
      split
      · split
        · rw [Int.toNat_of_nonpos (by omega : ((cs.length - k : Nat) : Int) + length ≤ 0)]
          rfl
        · rfl
      · rfl
    rw [hcount]
    obtain ⟨e, he, hholds⟩ := substrNew_spell h k
      (if length < 0 then (((cs.length - k : Nat) : Int) + length).toNat else length.toNat)
    exact ⟨some e, he, hholds⟩

/-- What the functions for more bytes return. -/
def complexReturn (enc : γ → List UInt8) (zero : UInt8) (cs : List γ) (op : CutOp γ) :
    Option (List UInt8) :=
  match op with
  | .substrLen o l =>
    ((subStart (truncInt cs.length) cs.length o.toInt).map (select cs l.toInt)).map (spell enc)
  | .extract o => some ((spell enc (cs.drop (checkOffset cs.length o.toInt))).takeWhile (· ≠ zero))
  | op => (cutSpec cs op).2.map (spell enc)

/-- The functions for more bytes leave the text that they are for, in the encoding. -/
theorem complex_spec (h : Holds M s (spell enc cs)) (hm : s.moved = 0) (op : CutOp γ) :
    Outcome M ((op.encode (spell enc)).complex M next s) (spell enc (cutSpec cs op).1)
      (complexReturn enc M.zero cs op)
      (fun m => m ≤ s.len ↔ op.Within (fun xs => (spell enc xs).length) cs) := by
  have hnew : ∀ e, Holds M e [] → Extracted M (some e) [] := by
    intro e he x hx
    rwa [← Option.some.inj hx]
  have hnone : Extracted M (none : Option (Str UInt8)) [] := by simp [Extracted]
  have hinside : ∀ m, m ≤ max s.moved s.len → (m ≤ s.len ↔ True) := by
    intro m hle
    simp only [iff_true]
    omega
  have hshort : ∀ (o n : Int64) (str : List γ) (m : Nat),
      (if (spell enc str).length < (spell enc (removed cs o.toInt n.toInt)).length then
        m = max s.moved
          (s.len + ((spell enc (removed cs o.toInt n.toInt)).length - (spell enc str).length))
      else m ≤ max s.moved s.len) →
      (m ≤ s.len ↔ (spell enc (removed cs o.toInt n.toInt)).length ≤ (spell enc str).length) := by
    intro o n str m hif
    rw [hm] at hif
    exact within_iff hif
  have hempty : ∀ str : List γ, (spell enc str).length = 0 ↔ str = [] := by
    intro str
    rw [List.length_eq_zero_iff, spell_eq_nil_iff hscan]
  have hwithin : ∀ (o n : Int64) (str : List γ), ¬ (spell enc str).length = 0 →
      ((spell enc (removed cs o.toInt n.toInt)).length ≤ (spell enc str).length ↔
        str = [] ∨ (spell enc (removed cs o.toInt n.toInt)).length ≤ (spell enc str).length) := by
    intro o n str hstr
    simp [mt (hempty str).mpr hstr]
  cases op with
  | substr o =>
    obtain ⟨e, he, hret⟩ := substrComplex_returned hscan h o.toInt
    refine ⟨s, e, ?_, h, hret, hinside _ (by omega)⟩
    rw [CutOp.encode, CutOp.complex, he]
    rfl
  | substrLen o l =>
    obtain ⟨e, he, hret⟩ := substrComplexLen_returned hscan h o.toInt l.toInt
    refine ⟨s, e, ?_, h, hret, hinside _ (by omega)⟩
    rw [CutOp.encode, CutOp.complex, he]
    rfl
  | splice o => exact (spliceComplex_cut hscan h o.toInt hnone).outcome_none.mono hinside
  | spliceNum o n =>
    exact (spliceComplexNum_cut hscan h o.toInt n.toInt hnone).outcome_none.mono hinside
  | spliceStr o n str =>
    exact (spliceComplexStr_cut hscan h o.toInt n.toInt str hnone).outcome_none.mono (hshort o n str)
  | spliceVal o n str =>
    by_cases hstr : (spell enc str).length = 0
    · rw [CutOp.encode, CutOp.complex, if_pos hstr]
      have hnil := (hempty str).mp hstr
      subst hnil
      exact (spliceComplexNum_cut hscan h o.toInt n.toInt hnone).outcome_none.mono fun m hle =>
        (hinside m hle).trans (by simp [CutOp.Within])
    · rw [CutOp.encode, CutOp.complex, if_neg hstr]
      exact (spliceComplexStr_cut hscan h o.toInt n.toInt str hnone).outcome_none.mono fun m hif =>
        (hshort o n str m hif).trans (hwithin o n str hstr)
  | extract o =>
    exact (Cut.outcome_new fun e he => spliceComplex_cut hscan h o.toInt (hnew e he)).mono hinside
  | extractNum o n =>
    exact (Cut.outcome_new fun e he =>
      spliceComplexNum_cut hscan h o.toInt n.toInt (hnew e he)).mono hinside
  | extractVal o n str =>
    by_cases hstr : (spell enc str).length = 0
    · simp only [CutOp.encode, CutOp.complex, if_pos hstr]
      have hnil := (hempty str).mp hstr
      subst hnil
      exact (Cut.outcome_new fun e he =>
        spliceComplexNum_cut hscan h o.toInt n.toInt (hnew e he)).mono fun m hle =>
          (hinside m hle).trans (by simp [CutOp.Within])
    · simp only [CutOp.encode, CutOp.complex, if_neg hstr]
      exact (Cut.outcome_new fun e he =>
        spliceComplexStr_cut hscan h o.toInt n.toInt str (hnew e he)).mono
          fun m hif => (hshort o n str m hif).trans (hwithin o n str hstr)

end

end

/-! ## UTF-8 -/

/-- Bytes. -/
def byteMemory (junk : Nat → UInt8) : Memory UInt8 := ⟨0, junk⟩

/-- Characters, one in each cell. -/
def charMemory (junk : Nat → Char) : Memory Char := ⟨'\x00', junk⟩

/-- The replacement of a call that extracts. -/
def CutOp.replacement {α : Type} : CutOp α → Option (List α)
  | .extract _ => some []
  | .extractNum _ _ => some []
  | .extractVal _ _ str => some str
  | _ => none

/-- A call on the characters `cs`, which are in the string `u` with one character in each cell and
in the string `s` as UTF-8: both calls give the same text and return the same text, `memmove` reads
inside the text, and a call that extracts returns what it has removed. -/
def CutAgrees (Mc : Memory Char) (Mb : Memory UInt8) (u : Str Char) (s : Str UInt8)
    (cs : List Char) (op : CutOp Char) : Prop :=
  ∃ xs ys, Outcome Mc (op.simple Mc u) xs ys (fun m => m ≤ u.len) ∧
    Outcome Mb ((op.encode utf8).complex Mb charLen s) (utf8 xs) (ys.map utf8) (fun m => m ≤ s.len) ∧
    ∀ r, op.replacement = some r →
      ∃ a d b, cs = a ++ (d ++ b) ∧ xs = a ++ (r ++ b) ∧ ys = some d

/-- The calls that do not reach one of the three places. -/
def CutOp.Fine (cs : List Char) (op : CutOp Char) : Prop :=
  op.Within List.length cs ∧ op.Within (fun xs => (utf8 xs).length) cs ∧
    match op with
    | .substrLen o l => 0 ≤ o.toInt ∨ cs.length < 2 ^ 31 ∨
        (subStart (truncInt cs.length) cs.length o.toInt).map (select cs l.toInt) =
          (subStart cs.length cs.length o.toInt).map (select cs l.toInt)
    | .extract o => '\x00' ∉ cs.drop (checkOffset cs.length o.toInt)
    | _ => True

theorem map_utf8_inj {xs ys : Option (List Char)} : xs.map utf8 = ys.map utf8 ↔ xs = ys := by
  constructor
  · exact fun h => Option.map_injective (spell_injective utf8_scans utf8EncodeChar_injective) h
  · rintro rfl
    rfl

variable (cs : List Char)

/-- A C string shows all of a text that has no zero. -/
theorem takeWhile_utf8_eq_iff : (utf8 cs).takeWhile (· ≠ 0) = utf8 cs ↔ '\x00' ∉ cs := by
  rw [List.takeWhile_eq_self_iff, ← zero_mem_utf8]
  constructor
  · intro h hzero
    simpa using h 0 hzero
  · intro h x hx
    have hne : x ≠ 0 := fun hzero => h (hzero ▸ hx)
    simpa using hne

/-- What is returned is what `cutSpec` says, outside of two of the places. -/
theorem complexReturn_eq_iff (op : CutOp Char) :
    complexReturn String.utf8EncodeChar 0 cs op = (cutSpec cs op).2.map utf8 ↔
      match op with
      | .substrLen o l => 0 ≤ o.toInt ∨ cs.length < 2 ^ 31 ∨
          (subStart (truncInt cs.length) cs.length o.toInt).map (select cs l.toInt) =
            (subStart cs.length cs.length o.toInt).map (select cs l.toInt)
      | .extract o => '\x00' ∉ cs.drop (checkOffset cs.length o.toInt)
      | _ => True := by
  cases op with
  | substrLen o l =>
    show Option.map utf8 _ = Option.map utf8 _ ↔ _
    rw [map_utf8_inj]
    constructor
    · exact fun h => .inr (.inr h)
    · rintro (hpos | hsmall | h)
      · -- the number of characters plays no part
        simp only [cutSpec, subStart, if_neg (show ¬ o.toInt < 0 by omega)]
      · have htrunc : truncInt cs.length = cs.length :=
          truncInt_of_fits (by unfold FitsInt; omega)
        simp only [cutSpec, htrunc]
      · exact h
  | extract o =>
    show some _ = some _ ↔ _
    rw [Option.some.injEq]
    exact takeWhile_utf8_eq_iff _
  | _ => exact ⟨fun _ => trivial, fun _ => rfl⟩

/-- What is extracted is what is missing then. -/
theorem cutSpec_removed (op : CutOp Char) (r : List Char) (h : op.replacement = some r) :
    ∃ a d b, cs = a ++ (d ++ b) ∧ (cutSpec cs op).1 = a ++ (r ++ b) ∧ (cutSpec cs op).2 = some d := by
  have hparts : ∀ o n : Int, ∃ a b, cs = a ++ (removed cs o n ++ b) ∧
      ∀ str, replaced cs o n str = a ++ (str ++ b) :=
    fun o n => ⟨_, _, (split_three cs _ _).symm, fun str => rfl⟩
  cases op with
  | extract o =>
    cases h
    exact ⟨cs.take (checkOffset cs.length o.toInt), cs.drop (checkOffset cs.length o.toInt), [],
      by simp, by simp [cutSpec], rfl⟩
  | extractNum o n =>
    cases h
    obtain ⟨a, b, hcs, hrep⟩ := hparts o.toInt n.toInt
    exact ⟨a, _, b, hcs, hrep [], rfl⟩
  | extractVal o n str =>
    cases h
    obtain ⟨a, b, hcs, hrep⟩ := hparts o.toInt n.toInt
    exact ⟨a, _, b, hcs, hrep r, rfl⟩
  | _ => cases h

section
variable {junkc : Nat → Char} {junkb : Nat → UInt8} {cs : List Char} {u : Str Char} {s : Str UInt8}
  {op : CutOp Char}

theorem CutAgrees.fine (h : CutAgrees (charMemory junkc) (byteMemory junkb) u s cs op)
    (hu : Holds (charMemory junkc) u cs) (hu0 : u.moved = 0)
    (hs : Holds (byteMemory junkb) s (utf8 cs)) (hs0 : s.moved = 0) : op.Fine cs := by
  obtain ⟨xs, ys, hout, hout', -⟩ := h
  obtain ⟨rfl, rfl, m, hm, hwithin⟩ := hout.unique (simple_spec hu hu0 op)
  obtain ⟨-, hys, m', hm', hwithin'⟩ := hout'.unique (complex_spec utf8_scans hs hs0 op)
  exact ⟨hwithin.mp hm, hwithin'.mp hm', (complexReturn_eq_iff cs op).mp hys.symm⟩

theorem CutOp.Fine.agrees (h : op.Fine cs) (hu : Holds (charMemory junkc) u cs) (hu0 : u.moved = 0)
    (hs : Holds (byteMemory junkb) s (utf8 cs)) (hs0 : s.moved = 0) :
    CutAgrees (charMemory junkc) (byteMemory junkb) u s cs op := by
  obtain ⟨hwithin, hwithin', hspecial⟩ := h
  have hsimple := simple_spec hu hu0 op
  have hcomplex := complex_spec utf8_scans hs hs0 op
  refine ⟨(cutSpec cs op).1, (cutSpec cs op).2, ?_, ?_, cutSpec_removed cs op⟩
  · exact hsimple.mono fun m hm => hm.mpr hwithin
  · rw [← (complexReturn_eq_iff cs op).mpr hspecial]
    exact hcomplex.mono fun m hm => hm.mpr hwithin'

end

/-- On valid UTF-8 the functions for more bytes agree with the single byte functions on the
characters exactly for the calls that are `Fine`. -/
theorem cut_agrees_iff (junkc : Nat → Char) (junkb : Nat → UInt8) (cs : List Char) (u : Str Char)
    (s : Str UInt8) (hu : Holds (charMemory junkc) u cs) (hu0 : u.moved = 0)
    (hs : Holds (byteMemory junkb) s (utf8 cs)) (hs0 : s.moved = 0) (op : CutOp Char) :
    CutAgrees (charMemory junkc) (byteMemory junkb) u s cs op ↔ op.Fine cs :=
  ⟨fun h => h.fine hu hu0 hs hs0, fun h => h.agrees hu hu0 hs hs0⟩

/-- In the text `aé€b`, the two characters in the middle are extracted and replaced by three. -/
theorem cut_agrees_sample :
    CutAgrees (charMemory fun _ => 'x') (byteMemory fun _ => 255)
      ⟨['a', 'é', '€', 'b', '\x00'], 4, 0⟩ ⟨[97, 195, 169, 226, 130, 172, 98, 0], 7, 0⟩
      ['a', 'é', '€', 'b'] (.extractVal (-3) 2 ['€', '€', '€']) :=
  (cut_agrees_iff (fun _ => 'x') (fun _ => 255) ['a', 'é', '€', 'b']
    ⟨['a', 'é', '€', 'b', '\x00'], 4, 0⟩ ⟨[97, 195, 169, 226, 130, 172, 98, 0], 7, 0⟩
    ⟨[], rfl, rfl⟩ rfl ⟨[], by decide, by decide⟩ rfl _).mpr ⟨by decide, by decide, trivial⟩

/-- From the text `a\0b`, `extract(0)` returns `a` where it removes three characters; and when the
two characters of `ab` are replaced by one, `memmove` reads a byte behind the text. -/
theorem cut_not_agrees :
    ¬ CutAgrees (charMemory fun _ => 'x') (byteMemory fun _ => 255)
      ⟨['a', '\x00', 'b', '\x00'], 3, 0⟩ ⟨[97, 0, 98, 0], 3, 0⟩ ['a', '\x00', 'b'] (.extract 0) ∧
    ¬ CutAgrees (charMemory fun _ => 'x') (byteMemory fun _ => 255)
      ⟨['a', 'b', '\x00'], 2, 0⟩ ⟨[97, 98, 0], 2, 0⟩ ['a', 'b'] (.spliceStr 0 2 ['c']) := by
  constructor
  · intro h
    have hfine := h.fine ⟨[], rfl, rfl⟩ rfl ⟨[], by decide, by decide⟩ rfl
    exact hfine.2.2 (by decide)
  · intro h
    have hfine := h.fine ⟨[], rfl, rfl⟩ rfl ⟨[], by decide, by decide⟩ rfl
    exact absurd hfine.1 (by decide)

end Qore.Text
