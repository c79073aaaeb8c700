import Mathlib
import Qore.Text.Split

/-!
# `Qore.Text.SplitRead`: what the reader of quoted fields sees

With a line iterator, the reader sees a text up to the next line end (`Window`). Line ends have no
byte in common with quotes, so a quote is found and quotes are counted as if all of the text was
there; only at a line end inside of a quoted field does the reader take the end of what it sees for
the end of the field.

* `quotedField_found`: a pass of the loop over a quoted field, in terms of the text.
-/

set_option autoImplicit false

namespace Qore.Text

open Qore.Lib.Matches

/-! ## Windows -/

/-- What the reader sees of a text and what the line iterator has left. There is no empty line at
the end. -/
inductive Window (eol : List UInt8) : (byLine : Bool) → (text rest : List UInt8) → Lines → Prop
  | text {text : List UInt8} : Window eol false text text none
  | line {text rest : List UInt8} {lines : List (List UInt8)} :
      pieces eol text = rest :: lines → Window eol true text rest (some lines)
  | last {text rest : List UInt8} {lines : List (List UInt8)} :
      pieces eol text = rest :: (lines ++ [[]]) → Window eol true text rest (some lines)

namespace Window

section
variable {eol : List UInt8} {byLine : Bool} {text rest : List UInt8} {h : Lines}

section
variable (heol : eol ≠ [])
include heol

/-- When something is read, the window begins later. -/
theorem drop (hw : Window eol byLine text rest h) {k : Nat} (hk : k ≤ rest.length) :
    Window eol byLine (text.drop k) (rest.drop k) h := by
  cases hw with
  | text => exact .text
  | line hp => exact .line (pieces_drop heol hp hk)
  | last hp => exact .last (pieces_drop heol hp hk)

/-- What is not seen begins with a line end. -/
theorem tail (hw : Window eol byLine text rest h) :
    ∃ t, text = rest ++ t ∧ (t = [] ∨ byLine = true ∧ eol <+: t) := by
  cases hw with
  | text => exact ⟨[], (List.append_nil _).symm, .inl rfl⟩
  | @line _ _ lines hp =>
    obtain ⟨hnil, hcons⟩ := pieces_eq_cons heol hp
    by_cases hlines : lines = []
    · exact ⟨[], by rw [hnil hlines, List.append_nil], .inl rfl⟩
    · obtain ⟨t, ht, -⟩ := hcons hlines
      exact ⟨eol ++ t, ht, .inr ⟨rfl, List.prefix_append ..⟩⟩
  | last hp =>
    obtain ⟨t, ht, -⟩ := (pieces_eq_cons heol hp).2 (by simp)
    exact ⟨eol ++ t, ht, .inr ⟨rfl, List.prefix_append ..⟩⟩

/-- Nothing is seen at the end of the text and at a line end. -/
theorem rest_eq_nil_iff (hw : Window eol byLine text rest h) :
    rest = [] ↔ text = [] ∨ byLine = true ∧ eol <+: text := by
  constructor
  · rintro rfl
    obtain ⟨t, rfl, ht⟩ := hw.tail heol
    exact ht
  · rintro (rfl | ⟨hby, hpre⟩)
    · obtain ⟨t, ht, -⟩ := hw.tail heol
      exact (List.append_eq_nil_iff.mp ht.symm).1
    · have hfirst : firstMatch text eol = some 0 :=
        firstMatch_eq_some_iff.mpr ⟨hpre, fun j hj => absurd hj (Nat.not_lt_zero j)⟩
      have hp := pieces_some heol hfirst
      cases hw with
      | text => cases hby
      | line hp' =>
        rw [hp] at hp'
        exact (List.cons.inj hp').1.symm
      | last hp' =>
        rw [hp] at hp'
        exact (List.cons.inj hp').1.symm

/-- The next line, when the iterator has one. -/
theorem next_line {line : List UInt8} {lines : List (List UInt8)}
    (hw : Window eol byLine text rest (some (line :: lines))) :
    ∃ t, text = rest ++ (eol ++ t) ∧ Window eol byLine t line (some lines) := by
  cases hw with
  | line hp =>
    obtain ⟨t, ht, hrest⟩ := (pieces_eq_cons heol hp).2 (by simp)
    exact ⟨t, ht, .line hrest⟩
  | last hp =>
    obtain ⟨t, ht, hrest⟩ := (pieces_eq_cons heol hp).2 (by simp)
    exact ⟨t, ht, .last hrest⟩

/-- Without a next line, at most a line end is not seen. -/
theorem tail_last (hw : Window eol byLine text rest h) (hlast : h = none ∨ h = some []) :
    ∃ t, text = rest ++ t ∧ (t = [] ∨ t = eol) := by
  cases hw with
  | text => exact ⟨[], (List.append_nil _).symm, .inl rfl⟩
  | line hp =>
    have hnil : _ = [] := hlast.elim (by rintro ⟨⟩) fun h => Option.some.inj h
    exact ⟨[], by rw [(pieces_eq_cons heol hp).1 hnil, List.append_nil], .inl rfl⟩
  | last hp =>
    have hnil : _ = [] := hlast.elim (by rintro ⟨⟩) fun h => Option.some.inj h
    obtain ⟨t, ht, hrest⟩ := (pieces_eq_cons heol hp).2 (by simp)
    rw [hnil, List.nil_append] at hrest
    obtain rfl := (pieces_eq_cons heol hrest).1 rfl
    exact ⟨eol, by rw [ht, List.append_nil], .inr rfl⟩

end

/-- What is not seen does not begin with a byte of `q`. -/
theorem unseen {q : List UInt8} (heol : eol ≠ []) (hq : ∀ b ∈ eol, b ∉ q) {t : List UInt8}
    (ht : t = [] ∨ eol <+: t) : Unseen q t := by
  rcases ht with rfl | ⟨s, rfl⟩
  · exact .inl rfl
  · obtain ⟨b, e, rfl⟩ := List.exists_cons_of_ne_nil heol
    exact .inr ⟨b, e ++ s, rfl, hq b (List.mem_cons_self ..)⟩

end

end Window

/-- A line end does not begin in a text and end behind it, where a quote follows. -/
theorem eol_prefix_iff {eol q t s : List UInt8} (hq : q ≠ []) (heol : ∀ b ∈ eol, b ∉ q) :
    eol <+: t ++ (q ++ s) ↔ eol <+: t := by
  obtain ⟨b, q, rfl⟩ := List.exists_cons_of_ne_nil hq
  refine Unseen.prefix_iff (.inr ⟨b, q ++ s, rfl, fun hb => ?_⟩)
  exact heol b hb (List.mem_cons_self ..)

/-! ## Passes of the reader -/

/-- The arguments of a call whose line end has no byte of the quote. -/
structure Quoting extends SplitArgs where
  eol_ne : eol ≠ []
  eol_quote : ∀ b ∈ eol, b ∉ quote

namespace Quoting

section
variable (a : Quoting) {byLine : Bool} {text rest : List UInt8} {h : Lines} (l : Nat)

/-- The quotes in the window are the quotes in the text. -/
theorem countQuotes_window (hw : Window a.eol byLine text rest h) :
    (a.countQuotes rest).1 = (lead a.quote text).1 ∧
      Window a.eol byLine (lead a.quote text).2 (a.countQuotes rest).2 h := by
  obtain ⟨t, rfl, ht⟩ := hw.tail a.eol_ne
  have hunseen : Unseen a.quote t := Window.unseen a.eol_ne a.eol_quote (ht.imp_right And.right)
  obtain ⟨hcount, hrest⟩ := lead_left hunseen (a := rest)
  refine ⟨hcount.symm, ?_⟩
  have hlen := lead_length (q := a.quote) rest
  have hdrop := hw.drop a.eol_ne (k := (lead a.quote rest).1 * a.quote.length) (by omega)
  rw [lead_drop] at hdrop
  rw [← hcount, lead_drop] at hdrop
  exact hdrop

/-- A pass that does not find a quote. -/
theorem quotedField_none (field : List UInt8) (h : Lines) {seen : List UInt8}
    (hnone : firstMatch seen a.quote = none) (hne : seen ≠ []) :
    a.quotedField l field seen h =
      match h with
      | none => .error (.splitError (.noClosingQuote (l + 1) false))
      | some [] => .error (.splitError (.noClosingQuote (l + 1) true))
      | some (line :: lines) => a.quotedField l field (seen ++ a.eol ++ line) (some lines) := by
  rw [SplitArgs.quotedField.eq_def a.toSplitArgs l field seen h, if_neg hne]
  split
  · rfl
  · rename_i p hsome
    rw [hnone] at hsome
    cases hsome

/-- A pass that finds a quote. -/
theorem quotedField_some (field : List UInt8) (h : Lines) {seen : List UInt8} {p : Nat}
    (hsome : firstMatch seen a.quote = some p) (hne : seen ≠ []) :
    a.quotedField l field seen h =
      if a.escaped (seen.take p) then
        if p = 0 then .error .undefined
        else
          a.quotedField l (field ++ (seen.take p).dropLast ++ a.quote)
            (seen.drop (p + a.quote.length)) h
      else
        let c := a.countQuotes (seen.drop (p + a.quote.length))
        let field := field ++ seen.take p ++ copies ((c.1 + 1) / 2) a.quote
        if (c.1 + 1) % 2 = 1 then .ok (field, c.2, h) else a.quotedField l field c.2 h := by
  rw [SplitArgs.quotedField.eq_def a.toSplitArgs l field seen h, if_neg hne]
  split
  · rename_i hnone
    rw [hsome] at hnone
    cases hnone
  · rename_i p' hsome'
    rw [hsome] at hsome'
    cases hsome'
    rfl

/-- There is a further line. -/
theorem exists_line {n : Nat} (hn : (h.getD []).length = n + 1) :
    ∃ line lines, h = some (line :: lines) := by
  rcases h with _ | _ | ⟨line, lines⟩
  · cases hn
  · cases hn
  · exact ⟨line, lines, rfl⟩

/-- Lines are put behind what is seen, until a quote is there. -/
theorem quotedField_fetch (field : List UInt8) (hw : Window a.eol byLine text rest h)
    (seen : List UInt8) {p : Nat} (hp : firstMatch (seen ++ text) a.quote = some p)
    (hseen : seen.length ≤ p) (hne : seen ++ rest ≠ []) :
    ∃ seen' text' rest' h', a.quotedField l field (seen ++ rest) h =
        a.quotedField l field (seen' ++ rest') h' ∧
      seen' ++ text' = seen ++ text ∧ Window a.eol byLine text' rest' h' ∧
      firstMatch (seen' ++ rest') a.quote = some p ∧ seen'.length ≤ p := by
  obtain ⟨n, hn⟩ : ∃ n, (h.getD []).length = n := ⟨_, rfl⟩
  induction n generalizing seen text rest h with
  | zero =>
    -- there is no further line
    have hlast : h = none ∨ h = some [] := by
      cases h with
      | none => exact .inl rfl
      | some lines => exact .inr (congrArg some (List.length_eq_zero_iff.mp hn))
    refine ⟨seen, text, rest, h, rfl, rfl, hw, ?_, hseen⟩
    obtain ⟨t, rfl, rfl | rfl⟩ := hw.tail_last a.eol_ne hlast
    · rwa [List.append_nil] at hp
    · rw [← List.append_assoc] at hp
      refine firstMatch_left hp ?_
      have hocc := (firstMatch_eq_some_iff.mp hp).1
      have hle := firstMatch_add_le hp
      have hpos := List.length_pos_iff.mpr a.quote_ne
      rw [← List.append_nil a.eol] at hocc
      rw [List.length_append] at hle
      rcases occurs_apart a.quote_ne a.eol_ne a.eol_quote hocc with h | h
      · exact h
      · omega
  | succ n ih =>
    cases hfound : firstMatch (seen ++ rest) a.quote with
    | some j =>
      obtain ⟨t, rfl, -⟩ := hw.tail a.eol_ne
      have hj := firstMatch_right hfound t
      rw [List.append_assoc, hp] at hj
      cases hj
      exact ⟨seen, rest ++ t, rest, h, rfl, rfl, hw, hfound, hseen⟩
    | none =>
      obtain ⟨line, lines, rfl⟩ := exists_line hn
      obtain ⟨t, rfl, hw'⟩ := hw.next_line a.eol_ne
      have heq : seen ++ (rest ++ (a.eol ++ t)) = seen ++ rest ++ a.eol ++ t := by
        simp only [List.append_assoc]
      rw [heq] at hp
      -- the quote is behind the line end
      have hbehind : (seen ++ rest ++ a.eol).length ≤ p := by
        have hocc := (firstMatch_eq_some_iff.mp hp).1
        rw [List.append_assoc (seen ++ rest)] at hocc
        rcases occurs_apart a.quote_ne a.eol_ne a.eol_quote hocc with h | h
        · rw [List.append_assoc (seen ++ rest)] at hp
          rw [firstMatch_left hp h] at hfound
          cases hfound
        · rwa [List.length_append]
      obtain ⟨seen', text', rest', h', hq, htext, hw'', hp', hseen'⟩ :=
        ih hw' (seen ++ rest ++ a.eol) hp hbehind (by simp [a.eol_ne]) (by simpa using hn)
      exact ⟨seen', text', rest', h', (a.quotedField_none l field _ hfound hne).trans hq,
        htext.trans heq.symm, hw'', hp', hseen'⟩

/-- A pass that finds a quote, in terms of the text. -/
theorem quotedField_found (field : List UInt8) (hw : Window a.eol byLine text rest h) {p : Nat}
    (hp : firstMatch text a.quote = some p) (hne : rest ≠ []) :
    ∃ rest' h', Window a.eol byLine (text.drop (p + a.quote.length)) rest' h' ∧
      a.quotedField l field rest h =
        if a.escaped (text.take p) then
          if p = 0 then .error .undefined
          else a.quotedField l (field ++ (text.take p).dropLast ++ a.quote) rest' h'
        else
          let c := a.countQuotes rest'
          let field := field ++ text.take p ++ copies ((c.1 + 1) / 2) a.quote
          if (c.1 + 1) % 2 = 1 then .ok (field, c.2, h') else a.quotedField l field c.2 h' := by
  obtain ⟨seen, text', rest', h', hq, htext, hw', hp', hseen⟩ :=
    a.quotedField_fetch l field hw [] hp (Nat.zero_le _) hne
  rw [List.nil_append] at hq htext
  have hlen := firstMatch_add_le hp'
  rw [List.length_append] at hlen
  have hpos := List.length_pos_iff.mpr a.quote_ne
  have hdrop := hw'.drop a.eol_ne (k := p + a.quote.length - seen.length) (by omega)
  have htake : (seen ++ rest').take p = text.take p := by
    obtain ⟨t, ht, -⟩ := hw'.tail a.eol_ne
    rw [← htext, ht, ← List.append_assoc]
    exact (List.take_append_of_le_length (by rw [List.length_append]; omega)).symm
  have hrest : (seen ++ rest').drop (p + a.quote.length) =
      rest'.drop (p + a.quote.length - seen.length) := by
    rw [List.drop_append, List.drop_of_length_le (by omega), List.nil_append]
  have htext' : text.drop (p + a.quote.length) =
      text'.drop (p + a.quote.length - seen.length) := by
    rw [← htext, List.drop_append, List.drop_of_length_le (by omega), List.nil_append]
  refine ⟨rest'.drop (p + a.quote.length - seen.length), h', ?_, ?_⟩
  · rw [htext']
    exact hdrop
  · have hne' : seen ++ rest' ≠ [] := by
      intro hnil
      rw [hnil] at hp'
      have := firstMatch_add_le hp'
      rw [List.length_nil] at this
      omega
    rw [hq, a.quotedField_some l field h' hp' hne', htake, hrest]

/-! ## Whole texts -/

/-- The text is split from its beginning, or from its first line. -/
theorem split_window (byLine : Bool) {text : List UInt8} (hne : text ≠ []) :
    ∃ rest h, Window a.eol byLine text rest h ∧ a.split byLine text = a.splitWithQuote [] rest h := by
  cases byLine with
  | false => exact ⟨text, none, .text, rfl⟩
  | true =>
    obtain ⟨r, ls, hp⟩ := List.exists_cons_of_ne_nil (pieces_ne_nil a.eol_ne text)
    have hsplit : ∀ {ls}, linesOf a.eol text = r :: ls →
        a.split true text = a.splitWithQuote [] r (some ls) := by
      intro ls hlines
      unfold SplitArgs.split
      rw [if_pos rfl, hlines]
    by_cases hlast : (pieces a.eol text).getLast? = some []
    · -- the empty line at the end is left out
      have hlines : linesOf a.eol text = (pieces a.eol text).dropLast := if_pos hlast
      rw [hp] at hlines hlast
      have hls : ls ≠ [] := by
        rintro rfl
        cases hlast
        exact hne ((pieces_eq_cons a.eol_ne hp).1 rfl)
      rw [List.dropLast_cons_of_ne_nil hls] at hlines
      rw [List.getLast?_cons_of_ne_nil hls] at hlast
      refine ⟨r, some ls.dropLast, .last ?_, hsplit hlines⟩
      rw [hp, List.dropLast_append_getLast? _ hlast]
    · have hlines : linesOf a.eol text = pieces a.eol text := if_neg hlast
      exact ⟨r, some ls, .line hp, hsplit (hlines.trans hp)⟩

end

end Quoting

end Qore.Text
