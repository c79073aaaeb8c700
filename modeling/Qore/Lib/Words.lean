import Mathlib.Data.List.Basic

/-!
# `Qore.Lib.Words`: a text as a sequence of words

A text over an alphabet `β` is cut into words from left to right by a function `next`, which tells
the length of the first word of what is left; 0 or less is an error. `countWords` counts the words,
and `lettersOf` counts the letters of the first words.

`Scans next w` says that `next` finds the word `w` whatever follows it. In a text that is put
together from such words, both counts are what they should be (`countWords_flatten`,
`lettersOf_flatten`). In any text, letters are counted piece by piece (`lettersOf_add`).

`Reaches P pre s` says that after some of the words of `s` the property `P` holds of what was read
and of what is left. A reader that goes on word by word follows `reaches_append`.
-/

set_option autoImplicit false

namespace Qore.Lib.Words

variable {β : Type*} (next : List β → Int)

/-- The number of words, and whether there was an error. -/
def countWords (p : List β) : Nat × Bool :=
  match p with
  | [] => (0, false)
  | b :: p =>
    let l := next (b :: p)
    if l ≤ 0 then (0, true)
    else
      let r := countWords (p.drop (l.toNat - 1))
      (r.1 + 1, r.2)
  termination_by p.length
  decreasing_by simp only [List.length_cons, List.length_drop]; omega

/-- The number of letters of the first `n` words, or of all words if there are fewer, and whether
there was an error. -/
def lettersOf (p : List β) : Nat → Nat × Bool
  | 0 => (0, false)
  | n + 1 =>
    match p with
    | [] => (0, false)
    | b :: p =>
      let l := next (b :: p)
      if l ≤ 0 then (0, true)
      else
        let r := lettersOf (p.drop (l.toNat - 1)) n
        (l.toNat + r.1, r.2)

/-- The word `w` is found whatever follows it. -/
structure Scans (w : List β) : Prop where
  pos : 0 < w.length
  next_append : ∀ rest, next (w ++ rest) = w.length

/-- After some words of `s`, `P` holds of the text before and of the text that is left; `pre` was
read before `s`. -/
def Reaches (P : List β → List β → Prop) (pre s : List β) : Prop :=
  ∃ ws : List (List β), ∃ p, s = ws.flatten ++ p ∧ (∀ w ∈ ws, Scans next w) ∧
    P (pre ++ ws.flatten) p

section
variable {next} {w : List β} {ws : List (List β)}

/-- The first word of a text is taken off. -/
theorem Scans.drop (h : Scans next w) (rest : List β) :
    ∃ b p, w ++ rest = b :: p ∧ next (b :: p) = w.length ∧ p.drop (w.length - 1) = rest := by
  cases w with
  | nil => simpa using h.pos
  | cons b w =>
    refine ⟨b, w ++ rest, rfl, h.next_append rest, ?_⟩
    simp

theorem countWords_append (h : Scans next w) (rest : List β) :
    countWords next (w ++ rest) = ((countWords next rest).1 + 1, (countWords next rest).2) := by
  obtain ⟨b, p, heq, hnext, hdrop⟩ := h.drop rest
  have hpos := h.pos
  rw [heq, countWords, hnext]
  rw [if_neg (by omega), Int.toNat_natCast, hdrop]

theorem lettersOf_append (h : Scans next w) (rest : List β) (n : Nat) :
    lettersOf next (w ++ rest) (n + 1) =
      (w.length + (lettersOf next rest n).1, (lettersOf next rest n).2) := by
  obtain ⟨b, p, heq, hnext, hdrop⟩ := h.drop rest
  have hpos := h.pos
  rw [heq, lettersOf]
  rw [hnext, if_neg (by omega), Int.toNat_natCast, hdrop]

/-- The words of a text are counted. -/
theorem countWords_flatten (h : ∀ w ∈ ws, Scans next w) :
    countWords next ws.flatten = (ws.length, false) := by
  induction ws with
  | nil => rw [List.flatten_nil, countWords]; rfl
  | cons w ws ih =>
    rw [List.flatten_cons, countWords_append (h w List.mem_cons_self),
      ih fun v hv => h v (List.mem_cons_of_mem w hv)]
    rfl

/-- The letters of the first words are counted. -/
theorem lettersOf_flatten (h : ∀ w ∈ ws, Scans next w) (n : Nat) :
    lettersOf next ws.flatten n = ((ws.take n).flatten.length, false) := by
  induction ws generalizing n with
  | nil => cases n <;> simp [lettersOf]
  | cons w ws ih =>
    cases n with
    | zero => rfl
    | succ n =>
      rw [List.flatten_cons, lettersOf_append (h w List.mem_cons_self),
        ih fun v hv => h v (List.mem_cons_of_mem w hv), List.take_succ_cons, List.flatten_cons,
        List.length_append]

section
variable {P : List β → List β → Prop} {pre s : List β}

theorem Reaches.here (h : P pre s) : Reaches next P pre s :=
  ⟨[], s, rfl, by simp, by simpa using h⟩

/-- No word starts where the length is not positive. -/
theorem reaches_of_nonpos (hs : s = [] ∨ next s ≤ 0) : Reaches next P pre s ↔ P pre s := by
  refine ⟨?_, Reaches.here⟩
  rintro ⟨ws, p, rfl, hws, hP⟩
  cases ws with
  | nil => simpa using hP
  | cons w ws =>
    have hw := hws w List.mem_cons_self
    rw [List.flatten_cons, List.append_assoc] at hs
    rcases hs with hs | hs
    · have hpos := hw.pos
      simp [(List.append_eq_nil_iff.mp hs).1] at hpos
    · rw [hw.next_append] at hs
      have hpos := hw.pos
      omega

/-- The first word is read, or the property holds before it. -/
theorem reaches_append (hw : Scans next w) (rest : List β) :
    Reaches next P pre (w ++ rest) ↔ P pre (w ++ rest) ∨ Reaches next P (pre ++ w) rest := by
  constructor
  · rintro ⟨ws, p, heq, hws, hP⟩
    cases ws with
    | nil =>
      rw [List.flatten_nil, List.nil_append] at heq
      rw [List.flatten_nil, List.append_nil, ← heq] at hP
      exact .inl hP
    | cons v ws =>
      rw [List.flatten_cons, List.append_assoc] at heq
      -- both words have the length that `next` finds
      have hlen := hw.next_append rest
      rw [heq, (hws v List.mem_cons_self).next_append] at hlen
      have hlen : v.length = w.length := by exact_mod_cast hlen
      obtain ⟨rfl, hrest⟩ := List.append_inj heq hlen.symm
      refine .inr ⟨ws, p, hrest, fun u hu => hws u (List.mem_cons_of_mem _ hu), ?_⟩
      rwa [List.flatten_cons, ← List.append_assoc] at hP
  · rintro (hP | ⟨ws, p, rfl, hws, hP⟩)
    · exact Reaches.here hP
    · refine ⟨w :: ws, p, by simp, ?_, by simpa using hP⟩
      intro v hv
      rcases List.mem_cons.mp hv with rfl | hv
      · exact hw
      · exact hws v hv

end

@[simp] theorem lettersOf_nil (n : Nat) : lettersOf next [] n = (0, false) := by
  cases n <;> rfl

/-- The letters of a word are letters of the text. -/
theorem lettersOf_le (hnext : ∀ p, p ≠ [] → next p ≤ p.length) (p : List β) (n : Nat) :
    (lettersOf next p n).1 ≤ p.length := by
  induction n generalizing p with
  | zero => exact Nat.zero_le _
  | succ n ih =>
    cases p with
    | nil => simp
    | cons b p =>
      have hfirst := hnext (b :: p) (List.cons_ne_nil b p)
      have hrest := ih (p.drop ((next (b :: p)).toNat - 1))
      rw [lettersOf]
      rw [List.length_drop] at hrest
      rw [List.length_cons] at hfirst ⊢
      split
      · exact Nat.zero_le _
      · dsimp only
        omega

/-- The letters of `m + n` words are those of the first `m`, and those of `n` words of the rest. -/
theorem lettersOf_add (p : List β) (m n : Nat) (h : (lettersOf next p m).2 = false) :
    lettersOf next p (m + n) =
      ((lettersOf next p m).1 + (lettersOf next (p.drop (lettersOf next p m).1) n).1,
        (lettersOf next (p.drop (lettersOf next p m).1) n).2) := by
  induction m generalizing p with
  | zero => simp [lettersOf]
  | succ m ih =>
    cases p with
    | nil => simp
    | cons b p =>
      rw [Nat.succ_add, lettersOf, lettersOf]
      rw [lettersOf] at h
      by_cases hl : next (b :: p) ≤ 0
      · rw [if_pos hl] at h
        cases h
      · rw [if_neg hl] at h ⊢
        rw [if_neg hl]
        -- the first word of the rest starts behind the first word
        have hdrop : ∀ k, (b :: p).drop ((next (b :: p)).toNat + k) =
            (p.drop ((next (b :: p)).toNat - 1)).drop k := by
          intro k
          have hsucc : (next (b :: p)).toNat + k = ((next (b :: p)).toNat - 1 + k) + 1 := by omega
          rw [hsucc, List.drop_succ_cons, List.drop_drop]
        rw [ih _ h, hdrop, Nat.add_assoc]

/-! ## Characters that are spelled with words -/

variable {γ : Type*} {enc : γ → List β} (cs : List γ)

/-- The text in which each character is one word. -/
def spell (enc : γ → List β) (cs : List γ) : List β := (cs.map enc).flatten

@[simp] theorem spell_nil : spell enc [] = [] := rfl

@[simp] theorem spell_cons (c : γ) (cs : List γ) : spell enc (c :: cs) = enc c ++ spell enc cs := rfl

@[simp] theorem spell_append (cs ds : List γ) : spell enc (cs ++ ds) = spell enc cs ++ spell enc ds := by
  simp [spell]

theorem drop_spell (n : Nat) :
    (spell enc cs).drop (spell enc (cs.take n)).length = spell enc (cs.drop n) := by
  conv_lhs => rw [← List.take_append_drop n cs, spell_append]
  rw [List.take_append_drop, List.drop_left]

theorem length_spell_take_add (m n : Nat) : (spell enc (cs.take (m + n))).length =
      (spell enc (cs.take m)).length + (spell enc ((cs.drop m).take n)).length := by
  rw [List.take_add, spell_append, List.length_append]

theorem take_spell (n : Nat) :
    (spell enc cs).take (spell enc (cs.take n)).length = spell enc (cs.take n) := by
  conv_lhs => rw [← List.take_append_drop n cs, spell_append]
  rw [List.take_append_drop, List.take_left]

theorem length_spell_take_mono {m n : Nat} (hmn : m ≤ n) :
    (spell enc (cs.take m)).length ≤ (spell enc (cs.take n)).length := by
  obtain ⟨k, rfl⟩ := Nat.exists_eq_add_of_le hmn
  rw [length_spell_take_add]
  exact Nat.le_add_right _ _

section
variable (h : ∀ c, Scans next (enc c)) (cs : List γ)
include h

theorem countWords_spell : countWords next (spell enc cs) = (cs.length, false) := by
  rw [spell, countWords_flatten, List.length_map]
  intro w hw
  obtain ⟨c, -, rfl⟩ := List.mem_map.mp hw
  exact h c

theorem lettersOf_spell (n : Nat) :
    lettersOf next (spell enc cs) n = ((spell enc (cs.take n)).length, false) := by
  rw [spell, lettersOf_flatten, ← List.map_take]
  · rfl
  · intro w hw
    obtain ⟨c, -, rfl⟩ := List.mem_map.mp hw
    exact h c

/-- Each character has letters. -/
theorem length_le_spell : cs.length ≤ (spell enc cs).length := by
  induction cs with
  | nil => simp
  | cons c cs ih =>
    have hpos := (h c).pos
    rw [spell_cons, List.length_append, List.length_cons]
    omega

theorem spell_eq_nil_iff : spell enc cs = [] ↔ cs = [] := by
  constructor
  · intro heq
    have hle := length_le_spell h cs
    rw [heq] at hle
    exact List.length_eq_zero_iff.mp (by simpa using hle)
  · rintro rfl
    rfl

/-- All letters are reached only with all characters. -/
theorem length_spell_take_eq_iff (n : Nat) :
    (spell enc (cs.take n)).length = (spell enc cs).length ↔ cs.length ≤ n := by
  have hsplit : (spell enc cs).length =
      (spell enc (cs.take n)).length + (spell enc (cs.drop n)).length := by
    rw [← List.length_append, ← spell_append, List.take_append_drop]
  have hle := length_le_spell h (cs.drop n)
  rw [List.length_drop] at hle
  constructor
  · intro heq
    omega
  · intro hn
    rw [List.take_of_length_le hn]

/-- A text is spelled in one way. -/
theorem spell_injective (hinj : Function.Injective enc) : Function.Injective (spell enc) := by
  intro cs
  induction cs with
  | nil =>
    intro ds heq
    exact ((spell_eq_nil_iff h ds).mp heq.symm).symm
  | cons c cs ih =>
    intro ds heq
    cases ds with
    | nil => exact absurd ((spell_eq_nil_iff h (c :: cs)).mp heq) (List.cons_ne_nil c cs)
    | cons d ds =>
      rw [spell_cons, spell_cons] at heq
      -- both first words are found in the same text
      have hc := (h c).next_append (spell enc cs)
      have hd := (h d).next_append (spell enc ds)
      rw [heq] at hc
      have hlen : (enc c).length = (enc d).length := by
        rw [hc] at hd
        exact_mod_cast hd
      obtain ⟨hword, hrest⟩ := List.append_inj heq hlen
      rw [hinj hword, ih hrest]

end

end

end Qore.Lib.Words
