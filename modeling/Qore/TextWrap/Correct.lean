import Mathlib
import Qore.TextWrap.Model

/-!
# `Qore.TextWrap.Correct`: what the wrapped lines are

A chunk that is cut for a line without room loses one character each round, and in the end it is the
empty string. An empty chunk still counts as too long for a line of negative width, and cutting it
changes nothing: the loop goes on for ever, unless the empty chunk is dropped as whitespace.

* `TextWrapper.lineOf_spec`: a round takes a piece of the text, and leaves out only whitespace.
* `wraps_iff`: the wrapper ends, with lines that make up the text again and are not too long, exactly
  when it does not come to an empty chunk on a line of negative width.
-/

set_option autoImplicit false

namespace Qore.TextWrap

open Qore.Lib

/-! ### What the lines are to be -/

/-- The text has nothing but whitespace. -/
def Blank (s : Text) : Prop := ∀ c ∈ s, isSpace c = true

instance (s : Text) : Decidable (Blank s) := inferInstanceAs (Decidable (∀ c ∈ s, isSpace c = true))

/-- The text is made of the pieces and, where whitespace is dropped, of whitespace between them. -/
inductive MadeOf (dropped : Bool) : List Text → Text → Prop
  | nil : MadeOf dropped [] []
  | gap {bodies : List Text} {text gap : Text} : dropped = true → Blank gap →
      MadeOf dropped bodies text → MadeOf dropped bodies (text ++ gap)
  | line {bodies : List Text} {text : Text} (body : Text) :
      MadeOf dropped bodies text → MadeOf dropped (bodies ++ [body]) (text ++ body)

/-- What may be left out between two lines. -/
def Gap (dropped : Bool) (gap : Text) : Prop := gap = [] ∨ (dropped = true ∧ Blank gap)

/-- The lines with these texts behind their indents. -/
def TextWrapper.indented (w : TextWrapper) : List Text → List Text
  | [] => []
  | body :: bodies => (w.initialIndent ++ body) :: bodies.map (w.subsequentIndent ++ ·)

/-- The wrapper ends, the lines make up the text of the chunks, and no line is too long where long
words are broken and the indents leave room. -/
def TextWrapper.Wraps (w : TextWrapper) (chunks : List Text) : Prop :=
  ∃ fuel bodies, w.wrapChunks fuel chunks = some (.ok (w.indented bodies)) ∧
    MadeOf w.dropWhitespace bodies chunks.flatten ∧
    (w.breakLongWords = true → (w.initialIndent.length : Int) < w.width →
      (w.subsequentIndent.length : Int) < w.width →
      ∀ line ∈ w.indented bodies, (line.length : Int) ≤ w.width)

/-! ### Strings -/

theorem trim_eq_nil_iff {s : Text} : trim s = [] ↔ Blank s := by
  unfold trim rtrim ltrim Blank
  rw [List.rdropWhile_eq_nil_iff]
  constructor
  · intro h
    have hnil : s.dropWhile isSpace = [] := by
      cases hd : s.dropWhile isSpace with
      | nil => rfl
      | cons c cs =>
        have hc := h c (by rw [hd]; exact List.mem_cons_self ..)
        have hhead := List.head_dropWhile_not isSpace (l := s) (by rw [hd]; exact List.cons_ne_nil c cs)
        simp only [hd, List.head_cons] at hhead
        rw [hc] at hhead
        cases hhead
    exact List.dropWhile_eq_nil_iff.mp hnil
  · intro h c hc
    rw [List.dropWhile_eq_nil_iff.mpr h] at hc
    cases hc

variable (s : Text)

theorem startOf_of_nonneg {start : Int} (h : 0 ≤ start) : startOf s start = start :=
  if_neg (by omega)

theorem substr_of_nonneg {start : Int} (h : 0 ≤ start) : substr s start = s.drop start.toNat := by
  unfold substr
  rw [startOf_of_nonneg s h]
  split
  · rw [List.drop_eq_nil_of_le (by omega)]
  · rfl

theorem substrLen_zero {len : Int} (h : 0 ≤ len) : substrLen s 0 len = s.take len.toNat := by
  unfold substrLen
  rw [startOf_of_nonneg s (Int.le_refl 0)]
  split
  · have hnil : s = [] := List.eq_nil_of_length_eq_zero (by omega)
    rw [hnil, List.take_nil]
  · rw [if_neg (by omega)]
    rfl

theorem length_substr_le (start : Int) : (substr s start).length ≤ s.length := by
  unfold substr
  split
  · exact Nat.zero_le _
  · rw [List.length_drop]
    exact Nat.sub_le _ _

theorem Blank.append {s t : Text} (hs : Blank s) (ht : Blank t) : Blank (s ++ t) := by
  intro c hc
  rcases List.mem_append.mp hc with h | h
  · exact hs c h
  · exact ht c h

theorem MadeOf.append_gap {dropped : Bool} {bodies : List Text} {text gap : Text}
    (h : MadeOf dropped bodies text) (hgap : Gap dropped gap) :
    MadeOf dropped bodies (text ++ gap) := by
  rcases hgap with rfl | ⟨hdropped, hblank⟩
  · rwa [List.append_nil]
  · exact .gap hdropped hblank h

/-! ### A line -/

/-- The inner loop takes chunks as long as they fit. -/
theorem fill_spec (width : Int) (chunks curLine : List Text) (curLen : Int) :
    ∃ taken rest, chunks = taken ++ rest ∧
      fill width chunks curLine curLen =
        ⟨rest, curLine ++ taken, curLen + taken.flatten.length⟩ ∧
      (taken ≠ [] → curLen + taken.flatten.length ≤ width) ∧
      ∀ chunk ∈ rest.head?, width < curLen + taken.flatten.length + chunk.length := by
  induction chunks generalizing curLine curLen with
  | nil => exact ⟨[], [], rfl, by simp [fill], fun h => absurd rfl h, by simp⟩
  | cons chunk chunks ih =>
    unfold fill
    split
    · rename_i hle
      obtain ⟨taken, rest, rfl, hfill, hle', hrest⟩ :=
        ih (curLine ++ [chunk]) (curLen + chunk.length)
      have hlen : curLen + ((chunk :: taken).flatten.length : Int) =
          curLen + chunk.length + taken.flatten.length := by
        rw [List.flatten_cons, List.length_append]
        omega
      refine ⟨chunk :: taken, rest, rfl, ?_, fun _ => ?_, ?_⟩
      · rw [hfill, hlen, List.append_assoc, List.singleton_append]
      · rw [hlen]
        by_cases htaken : taken = []
        · rw [htaken]
          simpa using hle
        · exact hle' htaken
      · rw [hlen]
        exact hrest
    · rename_i hlt
      refine ⟨[], chunk :: chunks, rfl, by simp, fun h => absurd rfl h, ?_⟩
      intro c hc
      cases hc
      omega

/-- The text on the line and behind it. -/
def Progress.text (p : Progress) : Text := p.curLine.flatten ++ p.chunks.flatten

/-- `cur_len` is the length of the line. -/
def Progress.Counted (p : Progress) : Prop := p.curLen = p.curLine.flatten.length

namespace TextWrapper
variable (w : TextWrapper) (width : Int)

theorem dropFirst_spec (s : State) :
    ∃ gap, Gap w.dropWhitespace gap ∧ s.chunks.flatten = gap ++ (w.dropFirst s).flatten := by
  unfold dropFirst
  cases hs : s.chunks with
  | nil => exact ⟨[], .inl rfl, rfl⟩
  | cons chunk chunks =>
    dsimp only
    split
    · rename_i h
      exact ⟨chunk, .inr ⟨h.1, trim_eq_nil_iff.mp h.2.1⟩, List.flatten_cons⟩
    · exact ⟨[], .inl rfl, rfl⟩

theorem counted_fill (chunks : List Text) : (fill width chunks [] 0).Counted := by
  obtain ⟨taken, rest, -, hfill, -, -⟩ := fill_spec width chunks [] 0
  rw [hfill]
  simp [Progress.Counted]

theorem text_fill (chunks : List Text) : (fill width chunks [] 0).text = chunks.flatten := by
  obtain ⟨taken, rest, rfl, hfill, -, -⟩ := fill_spec width chunks [] 0
  rw [hfill]
  simp [Progress.text]

/-- A line that was filled leaves room for a part of a chunk. -/
theorem curLen_fill_le {width : Int} (h : 1 ≤ width) (chunks : List Text) :
    (fill width chunks [] 0).curLen ≤ width := by
  obtain ⟨taken, rest, -, hfill, hle, -⟩ := fill_spec width chunks [] 0
  rw [hfill]
  by_cases htaken : taken = []
  · subst htaken
    simp only [List.flatten_nil, List.length_nil]
    omega
  · exact hle htaken

theorem sum_length (line : List Text) :
    (line.map fun c => (c.length : Int)).sum = line.flatten.length := by
  induction line with
  | nil => rfl
  | cons c cs ih =>
    rw [List.map_cons, List.sum_cons, ih, List.flatten_cons, List.length_append]
    rfl

/-- A long word is cut or moved as a whole. -/
theorem breakWord_spec {width : Int} {p : Progress} (hcounted : p.Counted)
    (hroom : 1 ≤ width → p.curLen ≤ width) :
    (w.breakWord width p).text = p.text ∧ (w.breakWord width p).Counted := by
  unfold breakWord
  cases hp : p.chunks with
  | nil => exact ⟨rfl, hcounted⟩
  | cons chunk chunks =>
    dsimp only
    split
    · refine ⟨?_, ?_⟩
      · unfold handleLongWord
        dsimp only
        split
        · have hleft : 0 ≤ (if width < 1 then 1 else width - p.curLen) := by
            split
            · exact Int.one_nonneg
            · have := hroom (by omega)
              omega
          rw [substr_of_nonneg _ hleft, substrLen_zero _ hleft]
          simp only [Progress.text, hp, List.flatten_append, List.flatten_cons, List.flatten_nil,
            List.append_nil, List.append_assoc]
          rw [← List.append_assoc (List.take _ _), List.take_append_drop]
        · split
          · rename_i hline
            simp [Progress.text, hp, hline]
          · simp [Progress.text, hp]
      · exact sum_length _
    · exact ⟨rfl, hcounted⟩

theorem dropLast_spec (p : Progress) :
    (w.dropLast p).chunks = p.chunks ∧
    ∃ gap, Gap w.dropWhitespace gap ∧
      p.curLine.flatten = (w.dropLast p).curLine.flatten ++ gap := by
  unfold dropLast
  cases hlast : p.curLine.getLast? with
  | none => exact ⟨rfl, [], .inl rfl, (List.append_nil _).symm⟩
  | some last =>
    dsimp only
    split
    · rename_i h
      refine ⟨rfl, last, .inr ⟨h.1, trim_eq_nil_iff.mp h.2⟩, ?_⟩
      conv_lhs => rw [← List.dropLast_append_getLast? last hlast]
      simp
    · exact ⟨rfl, [], .inl rfl, (List.append_nil _).symm⟩

/-- A line takes a piece of the text, with whitespace around it that is left out. -/
theorem lineOf_spec (s : State) :
    ∃ before after, Gap w.dropWhitespace before ∧ Gap w.dropWhitespace after ∧
      s.chunks.flatten =
        before ++ ((w.lineOf s).curLine.flatten ++ (after ++ (w.lineOf s).chunks.flatten)) := by
  obtain ⟨before, hbefore, hfirst⟩ := w.dropFirst_spec s
  have hbreak := w.breakWord_spec (counted_fill (w.width - (w.indentOf s.lines).length)
    (w.dropFirst s)) (fun h => curLen_fill_le h _)
  obtain ⟨hchunks, after, hafter, hlast⟩ := w.dropLast_spec
    (w.breakWord (w.width - (w.indentOf s.lines).length)
      (fill (w.width - (w.indentOf s.lines).length) (w.dropFirst s) [] 0))
  refine ⟨before, after, hbefore, hafter, ?_⟩
  have htext := hbreak.1.trans (text_fill _ _)
  unfold Progress.text at htext
  rw [hlast] at htext
  rw [hfirst, ← htext, lineOf, hchunks, List.append_assoc]

/-! ### A round -/

/-- The state after a line. -/
def next (s : State) : State where
  chunks := (w.lineOf s).chunks
  lines :=
    if (w.lineOf s).curLine = [] then s.lines
    else s.lines ++ [w.indentOf s.lines ++ (w.lineOf s).curLine.flatten]

variable {w} {chunks : List Text}

theorem wrapLine_eq (hmax : w.maxLines = none) (s : State) :
    w.wrapLine s = if s.chunks = [] then .inr s.lines else .inl (w.next s) := by
  have hfits : w.fits s.lines (w.width - (w.indentOf s.lines).length) (w.lineOf s) = true := by
    unfold fits
    rw [hmax]
  unfold wrapLine next
  dsimp only
  split
  · rfl
  · split
    · rfl
    · rfl

theorem indented_concat (bodies : List Text) (body : Text) :
    w.indented (bodies ++ [body]) =
      w.indented bodies ++ [w.indentOf (w.indented bodies) ++ body] := by
  cases bodies with
  | nil => rfl
  | cons b bodies =>
    show (w.initialIndent ++ b) :: (bodies ++ [body]).map (w.subsequentIndent ++ ·) = _
    rw [List.map_append]
    rfl

/-- The lines and the chunks that are left make up the text. -/
def Reached (w : TextWrapper) (text : Text) (s : State) : Prop :=
  ∃ bodies done, s.lines = w.indented bodies ∧ MadeOf w.dropWhitespace bodies done ∧
    text = done ++ s.chunks.flatten

theorem Reached.next {text : Text} {s : State} (h : w.Reached text s) :
    w.Reached text (w.next s) := by
  obtain ⟨bodies, done, hlines, hmade, htext⟩ := h
  obtain ⟨before, after, hbefore, hafter, hline⟩ := w.lineOf_spec s
  rw [hline] at htext
  unfold TextWrapper.next
  by_cases hempty : (w.lineOf s).curLine = []
  · rw [if_pos hempty]
    rw [hempty, List.flatten_nil, List.nil_append] at htext
    refine ⟨bodies, done ++ before ++ after, hlines, (hmade.append_gap hbefore).append_gap hafter, ?_⟩
    rw [htext, List.append_assoc, List.append_assoc]
  · rw [if_neg hempty, hlines, ← indented_concat]
    refine ⟨bodies ++ [(w.lineOf s).curLine.flatten],
      done ++ before ++ (w.lineOf s).curLine.flatten ++ after, rfl,
      (MadeOf.line _ (hmade.append_gap hbefore)).append_gap hafter, ?_⟩
    rw [htext, List.append_assoc, List.append_assoc, List.append_assoc]

/-! ### The width -/

/-- Where long words are broken, a line with room for a character is not too long. -/
theorem length_lineOf_le (hbreak : w.breakLongWords = true) {s : State}
    (hroom : ((w.indentOf s.lines).length : Int) < w.width) :
    ((w.indentOf s.lines ++ (w.lineOf s).curLine.flatten).length : Int) ≤ w.width := by
  generalize hwidth : w.width - ((w.indentOf s.lines).length : Int) = width
  have hone : 1 ≤ width := by omega
  have hfill := curLen_fill_le hone (w.dropFirst s)
  have hcounted := counted_fill width (w.dropFirst s)
  have hword : ((w.breakWord width (fill width (w.dropFirst s) [] 0)).curLine.flatten.length : Int) ≤
      width := by
    generalize fill width (w.dropFirst s) [] 0 = p at hfill hcounted ⊢
    unfold Progress.Counted at hcounted
    unfold breakWord
    cases hp : p.chunks with
    | nil =>
      dsimp only
      omega
    | cons chunk chunks =>
      dsimp only
      split
      · unfold handleLongWord
        rw [if_pos hbreak, if_neg (by omega), substrLen_zero _ (by omega)]
        simp only [List.flatten_append, List.flatten_cons, List.flatten_nil, List.append_nil,
          List.length_append, List.length_take]
        omega
      · omega
  obtain ⟨-, gap, -, hlast⟩ := w.dropLast_spec
    (w.breakWord width (fill width (w.dropFirst s) [] 0))
  rw [hlast, List.length_append] at hword
  have hline : w.lineOf s =
      w.dropLast (w.breakWord width (fill width (w.dropFirst s) [] 0)) := by
    unfold lineOf
    rw [hwidth]
  rw [List.length_append, hline]
  omega

theorem length_next_le (hbreak : w.breakLongWords = true)
    (hinitial : (w.initialIndent.length : Int) < w.width)
    (hsubsequent : (w.subsequentIndent.length : Int) < w.width) {s : State}
    (h : ∀ line ∈ s.lines, (line.length : Int) ≤ w.width) :
    ∀ line ∈ (w.next s).lines, (line.length : Int) ≤ w.width := by
  have hroom : ((w.indentOf s.lines).length : Int) < w.width := by
    unfold indentOf
    split
    · exact hinitial
    · exact hsubsequent
  unfold TextWrapper.next
  split
  · exact h
  · intro line hline
    rcases List.mem_append.mp hline with hmem | hmem
    · exact h line hmem
    · rw [List.mem_singleton.mp hmem]
      exact length_lineOf_le hbreak hroom

/-! ### Progress -/

/-- The number of chunks and of characters that are left. -/
def size (chunks : List Text) : Nat := (chunks.map fun c => c.length + 1).sum

theorem size_cons (chunk : Text) (chunks : List Text) :
    size (chunk :: chunks) = chunk.length + 1 + size chunks := rfl

theorem size_append (a b : List Text) : size (a ++ b) = size a + size b := by
  unfold size
  rw [List.map_append, List.sum_append]

theorem size_breakWord_le (p : Progress) : size (w.breakWord width p).chunks ≤ size p.chunks := by
  unfold breakWord
  cases hp : p.chunks with
  | nil => rw [hp]
  | cons chunk chunks =>
    dsimp only
    split
    · unfold handleLongWord
      dsimp only
      split
      · have hle := length_substr_le chunk (if width < 1 then 1 else width - p.curLen)
        rw [size_cons, size_cons]
        omega
      · split
        · show size chunks ≤ size (chunk :: chunks)
          rw [size_cons]
          omega
        · exact Nat.le_refl _
    · rw [hp]

/-- The chunks become less, unless a part is cut off an empty chunk. -/
theorem size_lineOf_lt {s : State} (hne : s.chunks ≠ [])
    (hempty : w.breakLongWords = true → s.chunks.head? = some [] →
      w.width < (w.indentOf s.lines).length → w.dropWhitespace = true ∧ s.lines ≠ []) :
    size (w.lineOf s).chunks < size s.chunks := by
  have hlast := (w.dropLast_spec (w.breakWord (w.width - (w.indentOf s.lines).length)
    (fill (w.width - (w.indentOf s.lines).length) (w.dropFirst s) [] 0))).1
  unfold lineOf
  rw [hlast]
  obtain ⟨chunk, chunks, hs⟩ := List.exists_cons_of_ne_nil hne
  generalize hwidth : w.width - ((w.indentOf s.lines).length : Int) = width
  obtain ⟨taken, rest, htaken, hfill, -, hrest⟩ := fill_spec width (w.dropFirst s) [] 0
  have hbreak := @size_breakWord_le w width (fill width (w.dropFirst s) [] 0)
  have hsize : size (w.dropFirst s) = size taken + size rest := by rw [htaken, size_append]
  by_cases hfirst : w.dropWhitespace = true ∧ trim chunk = [] ∧ s.lines ≠ []
  · -- a chunk was dropped in front of the line
    have hdrop : w.dropFirst s = chunks := by
      unfold dropFirst
      rw [hs]
      exact if_pos hfirst
    rw [hfill] at hbreak ⊢
    rw [hdrop] at hsize
    rw [hs, size_cons]
    dsimp only at hbreak
    omega
  · have hdrop : w.dropFirst s = chunk :: chunks := by
      unfold dropFirst
      rw [hs]
      exact if_neg hfirst
    cases taken with
    | cons first taken =>
      -- a chunk went to the line
      rw [hfill] at hbreak ⊢
      rw [hdrop, size_cons first] at hsize
      rw [hs]
      dsimp only at hbreak
      omega
    | nil =>
      -- nothing fits, so the chunk is handled as a long word
      rw [List.nil_append, hdrop] at htaken
      subst htaken
      have hlong := hrest chunk rfl
      simp only [List.flatten_nil, List.length_nil] at hlong
      have hzero : fill width (w.dropFirst s) [] 0 = ⟨chunk :: chunks, [], 0⟩ := by
        rw [hfill]
        simp
      rw [hzero, hs, size_cons]
      unfold breakWord
      dsimp only
      rw [if_pos (by omega)]
      unfold handleLongWord
      dsimp only
      split
      · rename_i hword
        have hchunk : chunk ≠ [] := by
          rintro rfl
          obtain ⟨hon, hlines⟩ := hempty hword (by rw [hs]; rfl) (by
            simp only [List.length_nil] at hlong
            omega)
          exact hfirst ⟨hon, rfl, hlines⟩
        have hpos := List.length_pos_iff.mpr hchunk
        rw [size_cons, substr_of_nonneg _ (by split <;> omega), List.length_drop]
        split <;> omega
      · rw [if_pos rfl]
        show size chunks < chunk.length + 1 + size chunks
        omega

/-! ### Narrow lines -/

/-- Without room for a character, the first character of the next chunk is cut off. -/
theorem lineOf_narrow (hbreak : w.breakLongWords = true) {s : State} {chunk : Text}
    (hfirst : w.dropFirst s = chunk :: chunks) (hnarrow : w.width < (w.indentOf s.lines).length + 1)
    (hlong : w.width < (w.indentOf s.lines).length + chunk.length) :
    w.lineOf s = w.dropLast ⟨chunk.drop 1 :: chunks, [chunk.take 1], (chunk.take 1).length⟩ := by
  have hfill : fill (w.width - (w.indentOf s.lines).length) (chunk :: chunks) [] 0 =
      ⟨chunk :: chunks, [], 0⟩ := by
    unfold fill
    rw [if_neg (by omega)]
  unfold lineOf
  dsimp only
  rw [hfirst, hfill]
  unfold breakWord
  dsimp only
  rw [if_pos (by omega)]
  unfold handleLongWord
  rw [if_pos hbreak, if_pos (by omega), substr_of_nonneg _ Int.one_nonneg,
    substrLen_zero _ Int.one_nonneg]
  simp

/-- A line that keeps its whitespace has something on it. -/
theorem curLine_ne_nil (hdrop : w.dropWhitespace = false) {s : State} (hne : s.chunks ≠ []) :
    (w.lineOf s).curLine ≠ [] := by
  obtain ⟨chunk, chunks, hs⟩ := List.exists_cons_of_ne_nil hne
  have hfirst : w.dropFirst s = chunk :: chunks := by
    unfold dropFirst
    rw [hs]
    exact if_neg (by simp [hdrop])
  have hkeep : ∀ p, w.dropLast p = p := fun p => by
    unfold dropLast
    split
    · rfl
    · exact if_neg (by simp [hdrop])
  unfold lineOf
  rw [hkeep, hfirst]
  generalize w.width - ((w.indentOf s.lines).length : Int) = width
  obtain ⟨taken, rest, htaken, hfill, -, hrest⟩ := fill_spec width (chunk :: chunks) [] 0
  rw [hfill, List.nil_append]
  unfold breakWord
  cases taken with
  | cons first taken =>
    split
    · exact List.cons_ne_nil _ _
    · split
      · unfold handleLongWord
        dsimp only
        split
        · simp
        · simp
      · exact List.cons_ne_nil _ _
  | nil =>
    subst htaken
    have hlong := hrest chunk rfl
    simp only [List.flatten_nil, List.length_nil] at hlong
    dsimp only
    rw [if_pos (by omega)]
    unfold handleLongWord
    dsimp only
    split
    · simp
    · simp

/-- All chunks go to a line when they fit together, and only then. -/
theorem chunks_lineOf_eq_nil_iff (hbreak : w.breakLongWords = true)
    (hdrop : w.dropWhitespace = false) {s : State} (hne : [] ∉ s.chunks) :
    (w.lineOf s).chunks = [] ↔
      (s.chunks.flatten.length : Int) ≤ max 0 (w.width - (w.indentOf s.lines).length) := by
  have hfirst : w.dropFirst s = s.chunks := by
    unfold dropFirst
    split
    · rename_i h
      exact h.symm
    · rename_i h
      rw [if_neg (by simp [hdrop]), h]
  unfold lineOf
  rw [(w.dropLast_spec _).1, hfirst]
  generalize w.width - ((w.indentOf s.lines).length : Int) = width
  obtain ⟨taken, rest, htaken, hfill, hle, hrest⟩ := fill_spec width s.chunks [] 0
  rw [hfill, htaken, List.flatten_append, List.length_append]
  unfold breakWord
  cases rest with
  | nil =>
    refine iff_of_true rfl ?_
    by_cases hnil : taken = []
    · subst hnil
      exact Int.le_max_left 0 width
    · have := hle hnil
      simp only [List.flatten_nil, List.length_nil]
      omega
  | cons chunk rest =>
    have hlong := hrest chunk rfl
    have hchunk : 0 < chunk.length := List.length_pos_iff.mpr fun h =>
      hne (by rw [htaken, h]; simp)
    refine iff_of_false ?_ ?_
    · dsimp only
      split
      · unfold handleLongWord
        rw [if_pos hbreak]
        exact List.cons_ne_nil _ _
      · exact List.cons_ne_nil _ _
    · rw [List.flatten_cons, List.length_append]
      omega

/-! ### Which loops end -/

/-- Whether the loop gets past every chunk. It does not when it cuts parts off an empty chunk: with
whitespace dropped this happens before the first line is written, and otherwise on any later line. -/
def Ending (w : TextWrapper) (chunks : List Text) : Prop :=
  w.breakLongWords = false ∨
    if w.dropWhitespace = true then
      (w.initialIndent.length : Int) ≤ w.width ∨ ∀ chunk ∈ chunks.head?, ¬Blank chunk
    else
      (w.subsequentIndent.length : Int) ≤ w.width ∨
        (chunks.flatten.length : Int) ≤ max 0 (w.width - w.initialIndent.length)

instance (w : TextWrapper) (chunks : List Text) : Decidable (w.Ending chunks) := by
  unfold Ending
  infer_instance

theorem indentOf_nil : w.indentOf [] = w.initialIndent := if_pos rfl

theorem indentOf_ne_nil {lines : List Text} (h : lines ≠ []) :
    w.indentOf lines = w.subsequentIndent := if_neg h

theorem lines_next_ne_nil {s : State} (h : s.lines ≠ [] ∨ (w.lineOf s).curLine ≠ []) :
    (w.next s).lines ≠ [] := by
  unfold TextWrapper.next
  split
  · rename_i hnil
    exact h.resolve_right fun hne => hne hnil
  · simp

/-- The loop ends when the rounds keep an invariant that rules out an empty chunk without room. -/
theorem exists_lines (hmax : w.maxLines = none) {I : State → Prop} {s : State} (hs : I s)
    (hempty : ∀ s, I s → w.breakLongWords = true → s.chunks.head? = some [] →
      w.width < (w.indentOf s.lines).length → w.dropWhitespace = true ∧ s.lines ≠ [])
    (hnext : ∀ s, I s → s.chunks ≠ [] → I (w.next s)) : ∃ lines, Halts w.wrapLine s lines := by
  refine exists_halts (fun s => size s.chunks) hs fun s s' hI hstep => ?_
  rw [wrapLine_eq hmax] at hstep
  split at hstep
  · cases hstep
  · rename_i hne
    cases hstep
    exact ⟨hnext s hI hne, size_lineOf_lt hne (hempty s hI)⟩

theorem not_halts_of_next (hmax : w.maxLines = none) {I : State → Prop} {s : State} (hs : I s)
    (hne : ∀ s, I s → s.chunks ≠ []) (hnext : ∀ s, I s → I (w.next s)) (lines : List Text) :
    ¬Halts w.wrapLine s lines :=
  not_halts hs fun s hI => ⟨w.next s, by rw [wrapLine_eq hmax, if_neg (hne s hI)], hnext s hI⟩

/-- In front of a narrow first line one character is dropped, or goes to the line. -/
theorem next_narrow (hbreak : w.breakLongWords = true) (hdrop : w.dropWhitespace = true) {s : State}
    {chunk : Text} (hs : s.chunks = chunk :: chunks) (hlines : s.lines = [])
    (hnarrow : w.width < w.initialIndent.length) :
    (w.next s).chunks = chunk.drop 1 :: chunks ∧
      ((w.next s).lines = [] ↔ Blank (chunk.take 1)) := by
  have hfirst : w.dropFirst s = chunk :: chunks := by
    unfold dropFirst
    rw [hs]
    exact if_neg fun h => h.2.2 hlines
  have hline := lineOf_narrow hbreak hfirst (by rw [hlines, indentOf_nil]; omega)
    (by rw [hlines, indentOf_nil]; omega)
  refine ⟨by unfold TextWrapper.next; rw [hline]; exact (w.dropLast_spec _).1, ?_⟩
  by_cases hblank : Blank (chunk.take 1)
  · refine iff_of_true ?_ hblank
    have hlast : (w.lineOf s).curLine = [] := by
      rw [hline]
      unfold dropLast
      dsimp only [List.getLast?_singleton]
      rw [if_pos ⟨hdrop, trim_eq_nil_iff.mpr hblank⟩]
      rfl
    unfold TextWrapper.next
    rw [if_pos hlast, hlines]
  · refine iff_of_false (lines_next_ne_nil (.inr ?_)) hblank
    rw [hline]
    unfold dropLast
    dsimp only [List.getLast?_singleton]
    rw [if_neg fun h => hblank (trim_eq_nil_iff.mp h.2)]
    exact List.cons_ne_nil _ _

/-- With whitespace dropped, only whitespace in front of the first line can be a trap. -/
theorem halts_dropped_iff (hmax : w.maxLines = none) (hbreak : w.breakLongWords = true)
    (hdrop : w.dropWhitespace = true) (chunks : List Text) :
    (∃ lines, Halts w.wrapLine ⟨chunks, []⟩ lines) ↔
      (w.initialIndent.length : Int) ≤ w.width ∨ ∀ chunk ∈ chunks.head?, ¬Blank chunk := by
  constructor
  · rintro ⟨lines, hhalts⟩
    by_contra hnot
    rw [not_or, Int.not_le] at hnot
    obtain ⟨hnarrow, hhead⟩ := hnot
    simp only [not_forall, not_not] at hhead
    obtain ⟨chunk, hchunk, hblank⟩ := hhead
    obtain ⟨rest, rfl⟩ := List.head?_eq_some_iff.mp hchunk
    refine not_halts_of_next
      (I := fun s => s.lines = [] ∧ ∃ chunk chunks, s.chunks = chunk :: chunks ∧ Blank chunk)
      hmax ⟨rfl, chunk, rest, rfl, hblank⟩ ?_ ?_ lines hhalts
    · rintro s ⟨-, chunk, chunks, hs, -⟩
      rw [hs]
      exact List.cons_ne_nil _ _
    · rintro s ⟨hlines, chunk, chunks, hs, hblank⟩
      obtain ⟨hchunks, hempty⟩ := next_narrow hbreak hdrop hs hlines hnarrow
      exact ⟨hempty.mpr fun c hc => hblank c (List.mem_of_mem_take hc), chunk.drop 1, chunks,
        hchunks, fun c hc => hblank c (List.mem_of_mem_drop hc)⟩
  · intro hcond
    refine exists_lines
      (I := fun s => s.lines ≠ [] ∨ (w.initialIndent.length : Int) ≤ w.width ∨
        ∀ chunk ∈ s.chunks.head?, ¬Blank chunk) hmax (.inr hcond) ?_ ?_
    · rintro s hI - hhead hnarrow
      refine ⟨hdrop, fun hlines => ?_⟩
      rw [hlines, indentOf_nil] at hnarrow
      rcases hI with h | h | h
      · exact h hlines
      · omega
      · exact h [] hhead fun c hc => absurd hc List.not_mem_nil
    · rintro s hI hchunks
      by_cases hlines : s.lines = []
      · rcases hI with h | h | h
        · exact absurd hlines h
        · exact .inr (.inl h)
        · by_cases hroom : (w.initialIndent.length : Int) ≤ w.width
          · exact .inr (.inl hroom)
          · -- whitespace is dropped until the first character that is none
            obtain ⟨chunk, chunks, hs⟩ := List.exists_cons_of_ne_nil hchunks
            obtain ⟨hnext, hempty⟩ := next_narrow hbreak hdrop hs hlines (by omega)
            by_cases hblank : Blank (chunk.take 1)
            · refine .inr (.inr fun c hc hrest => h chunk (by rw [hs]; rfl) ?_)
              rw [hnext] at hc
              cases hc
              have hall := hblank.append hrest
              rwa [List.take_append_drop] at hall
            · exact .inl fun hnil => hblank (hempty.mp hnil)
      · exact .inl (lines_next_ne_nil (.inl hlines))

/-- With whitespace kept, an empty chunk behind the first line is a trap. -/
theorem halts_kept_iff (hmax : w.maxLines = none) (hbreak : w.breakLongWords = true)
    (hdrop : w.dropWhitespace = false) (hne : [] ∉ chunks) :
    (∃ lines, Halts w.wrapLine ⟨chunks, []⟩ lines) ↔
      (w.subsequentIndent.length : Int) ≤ w.width ∨
        (chunks.flatten.length : Int) ≤ max 0 (w.width - w.initialIndent.length) := by
  have hfirst := @chunks_lineOf_eq_nil_iff w hbreak hdrop ⟨chunks, []⟩ hne
  constructor
  · rintro ⟨lines, hhalts⟩
    by_contra hnot
    rw [not_or, Int.not_le] at hnot
    obtain ⟨hnarrow, hlong⟩ := hnot
    have hchunks : chunks ≠ [] := by
      rintro rfl
      exact hlong (Int.le_max_left 0 _)
    rw [halts_of_inl (by rw [wrapLine_eq hmax, if_neg hchunks])] at hhalts
    refine not_halts_of_next (I := fun s => s.lines ≠ [] ∧ s.chunks ≠ []) hmax
      ⟨lines_next_ne_nil (.inr (curLine_ne_nil hdrop hchunks)), fun h => hlong (hfirst.mp h)⟩
      (fun s h => h.2) ?_ lines hhalts
    rintro s ⟨hlines, hs⟩
    refine ⟨lines_next_ne_nil (.inl hlines), ?_⟩
    obtain ⟨chunk, rest, hs⟩ := List.exists_cons_of_ne_nil hs
    have hkeep : w.dropFirst s = chunk :: rest := by
      unfold dropFirst
      rw [hs]
      exact if_neg (by simp [hdrop])
    have hline := lineOf_narrow hbreak hkeep (by rw [indentOf_ne_nil hlines]; omega)
      (by rw [indentOf_ne_nil hlines]; omega)
    unfold TextWrapper.next
    rw [hline, (w.dropLast_spec _).1]
    exact List.cons_ne_nil _ _
  · intro hcond
    refine exists_lines
      (I := fun s => (s.lines = [] → s.chunks = chunks) ∧
        ((w.subsequentIndent.length : Int) ≤ w.width ∨ s.chunks = [] ∨ (s.lines = [] ∧
          (chunks.flatten.length : Int) ≤ max 0 (w.width - w.initialIndent.length))))
      hmax ⟨fun _ => rfl, ?_⟩ ?_ ?_
    · exact hcond.imp_right fun h => .inr ⟨rfl, h⟩
    · rintro s ⟨hstart, hI⟩ - hhead hnarrow
      exfalso
      have hmem : [] ∈ s.chunks := List.mem_of_mem_head? hhead
      by_cases hlines : s.lines = []
      · rw [hstart hlines] at hmem
        exact hne hmem
      · rw [indentOf_ne_nil hlines] at hnarrow
        rcases hI with h | h | h
        · omega
        · rw [h] at hmem
          cases hmem
        · exact hlines h.1
    · rintro s ⟨hstart, hI⟩ hchunks
      have hlines := lines_next_ne_nil (.inr (curLine_ne_nil hdrop hchunks))
      refine ⟨fun h => absurd h hlines, ?_⟩
      rcases hI with h | h | ⟨hempty, h⟩
      · exact .inl h
      · exact absurd h hchunks
      · have hs : s = ⟨chunks, []⟩ := by
          cases s
          dsimp only at hempty hstart
          rw [hempty, hstart hempty]
        subst hs
        exact .inr (.inl (hfirst.mpr h))

/-- A chunk that is kept as a whole is taken in the round after, at the latest. -/
theorem halts_unbroken (hmax : w.maxLines = none) (hbreak : w.breakLongWords = false)
    (chunks : List Text) : ∃ lines, Halts w.wrapLine ⟨chunks, []⟩ lines :=
  exists_lines (I := fun _ => True) hmax trivial
    (fun _ _ h => absurd (hbreak ▸ h) Bool.false_ne_true) fun _ _ _ => trivial

theorem halts_iff (hmax : w.maxLines = none) (hne : [] ∉ chunks) :
    (∃ lines, Halts w.wrapLine ⟨chunks, []⟩ lines) ↔ w.Ending chunks := by
  unfold Ending
  cases hbreak : w.breakLongWords with
  | false => exact iff_of_true (halts_unbroken hmax hbreak chunks) (.inl rfl)
  | true =>
    rw [or_iff_right (by decide)]
    cases hdrop : w.dropWhitespace with
    | false => exact halts_kept_iff hmax hbreak hdrop hne
    | true => exact halts_dropped_iff hmax hbreak hdrop chunks

theorem wrapChunks_eq (hwidth : 1 ≤ w.width) (hmax : w.maxLines = none) (fuel : Nat)
    (chunks : List Text) :
    w.wrapChunks fuel chunks = (loop w.wrapLine fuel ⟨chunks, []⟩).map .ok := by
  have hcheck : w.check = .ok () := by
    unfold check
    rw [if_neg (by omega), hmax]
  unfold wrapChunks
  rw [hcheck]

/-- A loop that ends has made up the text again. -/
theorem wraps_of_halts (hwidth : 1 ≤ w.width) (hmax : w.maxLines = none) {lines : List Text}
    (h : Halts w.wrapLine ⟨chunks, []⟩ lines) : w.Wraps chunks := by
  have hmade : ∃ bodies, lines = w.indented bodies ∧
      MadeOf w.dropWhitespace bodies chunks.flatten := by
    refine h.result (I := w.Reached chunks.flatten)
      (P := fun lines => ∃ bodies, lines = w.indented bodies ∧
        MadeOf w.dropWhitespace bodies chunks.flatten) ⟨[], [], rfl, .nil, rfl⟩ ?_ ?_
    · intro s s' hs hstep
      rw [wrapLine_eq hmax] at hstep
      split at hstep
      · cases hstep
      · cases hstep
        exact hs.next
    · rintro s _ ⟨bodies, done, hlines, hmade, htext⟩ hstep
      rw [wrapLine_eq hmax] at hstep
      split at hstep
      · rename_i hnil
        cases hstep
        rw [hnil, List.flatten_nil, List.append_nil] at htext
        exact ⟨bodies, hlines, htext ▸ hmade⟩
      · cases hstep
  obtain ⟨bodies, rfl, hmade⟩ := hmade
  have hshort : w.breakLongWords = true → (w.initialIndent.length : Int) < w.width →
      (w.subsequentIndent.length : Int) < w.width →
      ∀ line ∈ w.indented bodies, (line.length : Int) ≤ w.width := by
    intro hbreak hinitial hsubsequent
    refine h.result (I := fun s => ∀ line ∈ s.lines, (line.length : Int) ≤ w.width)
      (P := fun lines => ∀ line ∈ lines, (line.length : Int) ≤ w.width)
      (fun line hline => by cases hline) ?_ ?_
    · intro s s' hs hstep
      rw [wrapLine_eq hmax] at hstep
      split at hstep
      · cases hstep
      · cases hstep
        exact length_next_le hbreak hinitial hsubsequent hs
    · intro s lines hs hstep
      rw [wrapLine_eq hmax] at hstep
      split at hstep
      · cases hstep
        exact hs
      · cases hstep
  obtain ⟨fuel, hfuel⟩ := h
  exact ⟨fuel, bodies, by rw [wrapChunks_eq hwidth hmax, hfuel]; rfl, hmade, hshort⟩

end TextWrapper

/-- The wrapper does what it should exactly when its loop gets past every chunk. -/
theorem wraps_iff (w : TextWrapper) (chunks : List Text) (hwidth : 1 ≤ w.width)
    (hmax : w.maxLines = none) (hne : ∀ c ∈ chunks, c ≠ []) :
    w.Wraps chunks ↔ w.Ending chunks := by
  have hnil : [] ∉ chunks := fun h => hne [] h rfl
  rw [← TextWrapper.halts_iff hmax hnil]
  constructor
  · rintro ⟨fuel, bodies, hrun, -⟩
    rw [TextWrapper.wrapChunks_eq hwidth hmax, Option.map_eq_some_iff] at hrun
    obtain ⟨lines, hloop, -⟩ := hrun
    exact ⟨lines, fuel, hloop⟩
  · rintro ⟨lines, hhalts⟩
    exact TextWrapper.wraps_of_halts hwidth hmax hhalts

/-- A wrapper with an indent of three blanks. -/
def threeBlanks (width : Int) (dropWhitespace : Bool) : TextWrapper where
  width := width
  initialIndent := "   ".toList
  subsequentIndent := "   ".toList
  breakLongWords := true
  dropWhitespace := dropWhitespace
  maxLines := none
  placeholder := " [...]".toList

theorem wraps_threeBlanks :
    (threeBlanks 8 true).Wraps ["Hello,".toList, " ".toList, "world".toList] :=
  (wraps_iff (threeBlanks 8 true) ["Hello,".toList, " ".toList, "world".toList] (by decide) rfl
    (by decide)).mpr (.inr (.inl (by decide)))

/-- With an indent longer than the width, a word is cut into nothing for ever. -/
theorem not_wraps_threeBlanks : ¬(threeBlanks 2 false).Wraps ["a".toList] := by
  rw [wraps_iff (threeBlanks 2 false) ["a".toList] (by decide) rfl (by decide)]
  decide

end Qore.TextWrap
