import Qore.Csv.Writer

/-!
# `Qore.Csv.RoundTrip`: lines that are read back

The writer puts a backslash before a quote, and the reader takes such a quote for one in the field.
So a backslash at the end of a quoted value escapes the closing quote. The reader ends a quoted field
at a line end directly behind a quote, and a field without quotes at any line end.

* `quotedField_pieces`: the reader of a quoted field with escaped quotes.
* `getLineAndSplit_iff`: which lines are read back.
-/

set_option autoImplicit false

namespace Qore.Csv

open Qore.Lib.Matches Qore.Text

section
variable {eol : Eol} {ps : List (List UInt8)} {y rest : List UInt8} {h : Lines} {v : List UInt8}
  {optimalQuotes : Bool} (l : List (List UInt8)) {values : List (List UInt8)}

/-! ## Quoted fields -/

/-- Pieces of a field that are read back. -/
structure Closed (eol : Eol) (ps : List (List UInt8)) : Prop where
  lines : ∀ t ∈ ps, ¬eol.bytes <+: t
  escape : ∀ t, ps.getLast? = some t → t.getLast? ≠ some 92

theorem closed_cons {t : List UInt8} (hne : ps ≠ []) (ht : ¬eol.bytes <+: t) :
    Closed eol (t :: ps) ↔ Closed eol ps := by
  have hlast : (t :: ps).getLast? = ps.getLast? := List.getLast?_cons_of_ne_nil hne
  constructor
  · intro h
    exact ⟨fun t' ht' => h.lines t' (List.mem_cons_of_mem _ ht'),
      fun t' ht' => h.escape t' (hlast.trans ht')⟩
  · intro h
    refine ⟨fun t' ht' => ?_, fun t' ht' => h.escape t' (hlast.symm.trans ht')⟩
    rcases List.mem_cons.mp ht' with rfl | ht'
    · exact ht
    · exact h.lines t' ht'

theorem escaped_iff (t : List UInt8) : (splitArgs eol).escaped t = true ↔ t.getLast? = some 92 := by
  show decide ((quote ++ t).getLast? = some 92) = true ↔ _
  rw [decide_eq_true_iff]
  cases t with
  | nil => decide
  | cons b t => rw [List.getLast?_append_of_ne_nil _ (List.cons_ne_nil b t)]

/-- A field with escaped quotes is read back when its pieces are, and only then. -/
theorem quotedField_pieces (hps : ps ≠ []) (hmem : ∀ t ∈ ps, 34 ∉ t) (hy : ¬quote <+: y) (l : Nat)
    (field : List UInt8)
    (hw : Window eol.bytes true ((quoteEscapeChar ++ quote).intercalate ps ++ (quote ++ y)) rest h)
    :
    (Closed eol ps → ∃ r h', (splitArgs eol).quotedField l field rest h =
        .ok (field ++ quote.intercalate ps, r, h') ∧ Window eol.bytes true y r h') ∧
    (¬Closed eol ps → ∀ f r h', (splitArgs eol).quotedField l field rest h = .ok (f, r, h') →
      ¬field ++ quote.intercalate ps <+: f) := by
  have heol : ∀ b ∈ eol.bytes, b ∉ quoteEscapeChar ++ quote := by
    cases eol <;> simp [Eol.bytes, quote, quoteEscapeChar]
  have heolq : ∀ b ∈ eol.bytes, b ∉ quote := by
    cases eol <;> simp [Eol.bytes, quote]
  have heolne : eol.bytes ≠ [] := by
    cases eol <;> decide
  induction ps generalizing field rest h with
  | nil => exact absurd rfl hps
  | cons t ps ih =>
    have ht : 34 ∉ t := hmem t (List.mem_cons_self ..)
    -- at a line end the field is taken to be closed
    have hcut : rest = [] → eol.bytes <+: t → (Closed eol (t :: ps) → ∃ r h',
        (splitArgs eol).quotedField l field rest h =
          .ok (field ++ quote.intercalate (t :: ps), r, h') ∧ Window eol.bytes true y r h') ∧
        (¬Closed eol (t :: ps) → ∀ f r h',
          (splitArgs eol).quotedField l field rest h = .ok (f, r, h') →
            ¬field ++ quote.intercalate (t :: ps) <+: f) := by
      intro hrest hpre
      refine ⟨fun hc => absurd hpre (hc.lines t (List.mem_cons_self ..)), fun _ f r h' heq hle => ?_⟩
      rw [SplitArgs.quotedField.eq_def, if_pos hrest] at heq
      simp only [Except.ok.injEq, Prod.mk.injEq] at heq
      have hlen := hle.length_le
      have ht' := hpre.length_le
      have hpos := List.length_pos_iff.mpr heolne
      have hint : t.length ≤ (quote.intercalate (t :: ps)).length := by
        cases ps with
        | nil => rw [List.intercalate_singleton]
        | cons s ps =>
          rw [List.intercalate_cons_of_ne_nil (List.cons_ne_nil s ps), List.append_assoc,
            List.length_append]
          omega
      rw [← heq.1, List.length_append] at hlen
      omega
    by_cases hnil : ps = []
    · subst hnil
      rw [List.intercalate_singleton] at hw ⊢
      by_cases hrest : rest = []
      · have hline := (hw.rest_eq_nil_iff heolne).mp hrest
        rw [eol_prefix_iff (by decide) heolq] at hline
        have := hcut hrest ((hline.resolve_left (by simp [quote])).2)
        rwa [List.intercalate_singleton] at this
      · have hline : ¬eol.bytes <+: t := by
          intro hpre
          rw [← eol_prefix_iff (s := y) (by decide) heolq] at hpre
          exact hrest ((hw.rest_eq_nil_iff heolne).mpr (.inr ⟨rfl, hpre⟩))
        have hp := firstMatch_singleton ht y
        by_cases hesc : t.getLast? = some 92
        · -- the closing quote is taken for an escaped one
          refine ⟨fun hc => absurd hesc (hc.escape t rfl), fun _ f r h' heq hle => ?_⟩
          obtain ⟨rest', h'', -, hfound⟩ := (splitArgs eol).quotedField_found l field hw hp hrest
          have htne : t.length ≠ 0 := by
            intro hzero
            rw [List.length_eq_zero_iff.mp hzero] at hesc
            cases hesc
          rw [List.take_left, (escaped_iff t).mpr hesc, if_pos rfl, if_neg htne] at hfound
          rw [hfound] at heq
          have hpre := (splitArgs eol).quotedField_isPrefix heq
          obtain ⟨s, rfl⟩ : ∃ s, t = s ++ [92] :=
            ⟨t.dropLast, (List.dropLast_append_getLast? 92 hesc).symm⟩
          rw [List.dropLast_concat, List.append_assoc] at hpre
          have hsame := List.prefix_of_prefix_length_le hle hpre (by
            rw [List.length_append, List.length_append, List.length_append, List.length_append]
            exact Nat.le_refl _)
          have heq' := hsame.eq_of_length (by
            rw [List.length_append, List.length_append, List.length_append, List.length_append]
            rfl)
          have hlast := List.append_cancel_left (List.append_cancel_left heq')
          exact absurd hlast (show ¬([92] : List UInt8) = [34] by decide)
        · have hclosed : Closed eol [t] := by
            refine ⟨fun t' ht' => ?_, fun t' ht' => ?_⟩
            · rwa [List.mem_singleton.mp ht']
            · cases ht'
              exact hesc
          refine ⟨fun _ => ?_, fun hnot => absurd hclosed hnot⟩
          have hesc' : (splitArgs eol).escaped t = false :=
            Bool.eq_false_iff.mpr fun h => hesc ((escaped_iff t).mp h)
          have hlead : lead quote ((t ++ (quote ++ y)).drop (t.length + quote.length)) = (0, y) := by
            rw [← List.drop_drop, List.drop_left, List.drop_left, lead_of_notPrefix hy]
          obtain ⟨r, h', hw', heq⟩ :=
            (splitArgs eol).quotedField_pass l field hw hrest hp List.take_left hesc' hlead
          refine ⟨r, h', ?_, hw'⟩
          rw [heq, if_pos rfl]
          show Except.ok (field ++ t ++ [], r, h') = _
          rw [List.append_nil]
    · have htext : (quoteEscapeChar ++ quote).intercalate (t :: ps) ++ (quote ++ y) =
          t ++ (quoteEscapeChar ++ quote ++
            ((quoteEscapeChar ++ quote).intercalate ps ++ (quote ++ y))) := by
        rw [List.intercalate_cons_of_ne_nil hnil]
        simp only [List.append_assoc]
      rw [htext] at hw
      by_cases hrest : rest = []
      · have hline := (hw.rest_eq_nil_iff heolne).mp hrest
        rw [eol_prefix_iff (by decide) heol] at hline
        exact hcut hrest ((hline.resolve_left (by simp [quote])).2)
      · have hline : ¬eol.bytes <+: t := by
          intro hpre
          rw [← eol_prefix_iff (q := quoteEscapeChar ++ quote) (by decide) heol] at hpre
          exact hrest ((hw.rest_eq_nil_iff heolne).mpr (.inr ⟨rfl, hpre⟩))
        have ht92 : 34 ∉ t ++ quoteEscapeChar := by
          rw [List.mem_append, not_or]
          exact ⟨ht, by decide⟩
        have hp := firstMatch_singleton ht92 ((quoteEscapeChar ++ quote).intercalate ps ++ (quote ++ y))
        have hassoc : t ++ (quoteEscapeChar ++ quote ++
            ((quoteEscapeChar ++ quote).intercalate ps ++ (quote ++ y))) =
            t ++ quoteEscapeChar ++
              (quote ++ ((quoteEscapeChar ++ quote).intercalate ps ++ (quote ++ y))) := by
          simp only [List.append_assoc]
        rw [hassoc] at hw
        obtain ⟨rest', h', hw', hfound⟩ := (splitArgs eol).quotedField_found l field hw hp hrest
        have hesc : (splitArgs eol).escaped (t ++ quoteEscapeChar) = true := by
          rw [escaped_iff]
          exact List.getLast?_concat
        have hdrop : ∀ z, (t ++ quoteEscapeChar ++ (quote ++ z)).drop
            ((t ++ quoteEscapeChar).length + quote.length) = z := by
          intro z
          rw [← List.drop_drop, List.drop_left, List.drop_left]
        have hlen : (t ++ quoteEscapeChar).length ≠ 0 := by
          simp [quoteEscapeChar]
        have htake : (t ++ quoteEscapeChar).dropLast = t := List.dropLast_concat
        rw [List.take_left, hesc, if_pos rfl, if_neg hlen, htake] at hfound
        have hw'' := hdrop ((quoteEscapeChar ++ quote).intercalate ps ++ (quote ++ y)) ▸ hw'
        have hfield : field ++ quote.intercalate (t :: ps) =
            field ++ t ++ quote ++ quote.intercalate ps := by
          rw [List.intercalate_cons_of_ne_nil hnil]
          simp only [List.append_assoc]
        rw [hfound, hfield, closed_cons hnil hline]
        exact ih hnil (fun s hs => hmem s (List.mem_cons_of_mem _ hs)) _ hw''

/-! ## Values -/

/-- The values that are read back. A value between quotes has no line end at its beginning or
directly behind a quote, has no backslash at its end, and when `replace` is called no null byte behind
its last quote. Any other value has no line end. -/
structure Kept (optimalQuotes : Bool) (eol : Eol) (v : List UInt8) : Prop where
  plain : isQuoted optimalQuotes v = false → ¬eol.bytes <:+: v
  closed : isQuoted optimalQuotes v = true → Closed eol (pieces quote v)
  null : isReplaced optimalQuotes v = true → ∀ t, (pieces quote v).getLast? = some t → 0 ∉ t

/-- A line end does not begin in some text and end in the one behind it. -/
theorem Eol.prefix_append {w : List UInt8} (hne : w ≠ []) (h : eol.bytes <+: w ++ eol.bytes) :
    eol.bytes <+: w := by
  cases eol with
  | unix => exact prefix_left h (List.length_pos_iff.mpr hne)
  | macintosh => exact prefix_left h (List.length_pos_iff.mpr hne)
  | win =>
    cases w with
    | nil => exact absurd rfl hne
    | cons b w =>
      cases w with
      | nil =>
        obtain ⟨s, hs⟩ := h
        have hcr := (List.cons.inj (List.cons.inj hs).2).1
        exact absurd hcr (by decide)
      | cons c w => exact prefix_left h (Nat.le_add_left 2 w.length)

/-- What follows a value: the line end, or the separator and the next one. -/
inductive Behind (eol : Eol) : (y : List UInt8) → Prop
  | last : Behind eol eol.bytes
  | more (z : List UInt8) : Behind eol (separator ++ z)

theorem Behind.notPrefix (hb : Behind eol y) : ¬quote <+: y := by
  have hcons : ∀ {b : UInt8} {s : List UInt8}, 34 ≠ b → ¬[34] <+: b :: s :=
    fun hne hpre => hne (List.cons_prefix_cons.mp hpre).1
  cases hb with
  | last => cases eol <;> exact hcons (by decide)
  | more z => exact hcons (by decide)

/-- The reader goes on behind a value when a separator follows, and ends at the line end. -/
theorem Behind.next {r : List UInt8} (hb : Behind eol y) (hw : Window eol.bytes true y r h) :
    y = eol.bytes ∧ r = [] ∨ ∃ z, y = separator ++ z ∧ r ≠ [] ∧ separator <+: r ∧
      Window eol.bytes true z (r.drop separator.length) h := by
  have heolne : eol.bytes ≠ [] := by
    cases eol <;> decide
  cases hb with
  | last => exact .inl ⟨rfl, (hw.rest_eq_nil_iff heolne).mpr (.inr ⟨rfl, List.prefix_refl _⟩)⟩
  | more z =>
    have hnot : ¬eol.bytes <+: separator ++ z := by
      intro hpre
      cases eol <;> exact absurd (List.cons_prefix_cons.mp hpre).1 (by decide)
    have hr : r ≠ [] := by
      intro hnil
      rcases (hw.rest_eq_nil_iff heolne).mp hnil with h | ⟨-, h⟩
      · cases h
      · exact hnot h
    obtain ⟨t, ht, -⟩ := hw.tail heolne
    have hpre : separator <+: r :=
      prefix_left (b := t) ⟨z, ht⟩ (List.length_pos_iff.mpr hr)
    refine .inr ⟨z, rfl, hr, hpre, ?_⟩
    have hdrop := hw.drop heolne hpre.length_le
    rwa [List.drop_left] at hdrop

/-- A value that is read: the reader ends behind it or goes on with the next one. -/
def Read (eol : Eol) (l : List (List UInt8)) (v y rest : List UInt8) (h : Lines) : Prop :=
  (y = eol.bytes → (splitArgs eol).splitWithQuote l rest h = .ok (l ++ [v])) ∧
  (∀ z, y = separator ++ z → ∃ r h', Window eol.bytes true z r h' ∧
    (splitArgs eol).splitWithQuote l rest h = (splitArgs eol).splitWithQuote (l ++ [v]) r h')

/-- A value that is not read, or is read as another one. -/
def Lost (eol : Eol) (l : List (List UInt8)) (v rest : List UInt8) (h : Lines) : Prop :=
  ∀ res, (splitArgs eol).splitWithQuote l rest h = .ok res → ¬l ++ [v] <+: res

theorem separator_ne_eol (z : List UInt8) : separator ++ z ≠ eol.bytes := by
  intro heq
  cases eol <;> exact absurd (List.cons.inj heq).1 (by decide)

theorem read_of_next (hb : Behind eol y) {l : List (List UInt8)} {r : List UInt8} {h' : Lines}
    (hw : Window eol.bytes true y r h')
    (hend : r = [] → (splitArgs eol).splitWithQuote l rest h = .ok (l ++ [v]))
    (hnext : r ≠ [] → separator <+: r → (splitArgs eol).splitWithQuote l rest h =
      (splitArgs eol).splitWithQuote (l ++ [v]) (r.drop separator.length) h') :
    Read eol l v y rest h := by
  rcases hb.next hw with ⟨rfl, hr⟩ | ⟨z, rfl, hr, hsep, hw'⟩
  · exact ⟨fun _ => hend hr, fun z hz => absurd hz.symm (separator_ne_eol z)⟩
  · refine ⟨fun heq => absurd heq (separator_ne_eol z), fun z' hz => ?_⟩
    obtain rfl := List.append_cancel_left hz
    exact ⟨_, h', hw', hnext hr hsep⟩

/-- Another value in its place loses a value. -/
theorem lost_of_other {l res : List (List UInt8)} {v' : List UInt8} (hne : v' ≠ v)
    (hpre : l ++ [v'] <+: res) : ¬l ++ [v] <+: res := by
  intro hpre'
  have heq := List.prefix_of_prefix_length_le hpre hpre' (by simp)
  rw [List.prefix_append_right_inj] at heq
  exact hne (List.cons.inj (heq.eq_of_length rfl)).1

/-- The last piece of a joined text is its end. -/
theorem exists_intercalate_concat (q : List UInt8) (ps : List (List UInt8)) :
    ∃ s, ∀ p, q.intercalate (ps ++ [p]) = s ++ p := by
  induction ps with
  | nil => exact ⟨[], fun p => List.intercalate_singleton⟩
  | cons t ps ih =>
    obtain ⟨s, hs⟩ := ih
    refine ⟨t ++ q ++ s, fun p => ?_⟩
    rw [List.cons_append, List.intercalate_cons_of_ne_nil (by simp), hs]
    simp only [List.append_assoc]

/-- Escaped pieces without quotes do not begin with one. -/
theorem not_quote_prefix_escaped (hmem : ∀ t ∈ ps, 34 ∉ t)
    (hne : (quoteEscapeChar ++ quote).intercalate ps ≠ []) (z : List UInt8) :
    ¬quote <+: (quoteEscapeChar ++ quote).intercalate ps ++ z := by
  have hfirst : ∀ {t s : List UInt8}, t ≠ [] → 34 ∉ t → ¬quote <+: t ++ s := by
    intro t s ht h34 hpre
    obtain ⟨b, t, rfl⟩ := List.exists_cons_of_ne_nil ht
    obtain rfl : 34 = b := (List.cons_prefix_cons.mp hpre).1
    exact h34 (List.mem_cons_self ..)
  cases ps with
  | nil => exact absurd rfl hne
  | cons t ps =>
    have ht := hmem t (List.mem_cons_self ..)
    by_cases hps : ps = []
    · subst hps
      rw [List.intercalate_singleton] at hne ⊢
      exact hfirst hne ht
    · rw [List.intercalate_cons_of_ne_nil hps, ← List.append_assoc t, List.append_assoc _ quote,
        List.append_assoc _ _ z]
      refine hfirst (by simp [quoteEscapeChar]) ?_
      rw [List.mem_append, not_or]
      exact ⟨ht, by decide⟩

/-- A value between quotes. -/
theorem split_quoted_value (hb : Behind eol y) (hq : isQuoted optimalQuotes v = true)
    (hw : Window eol.bytes true (quoted (content optimalQuotes v) ++ y) rest h) :
    (Kept optimalQuotes eol v → Read eol l v y rest h) ∧
      (¬Kept optimalQuotes eol v → Lost eol l v rest h) := by
  obtain ⟨ps, p, p', hpieces, hcontent, hpre, hsame⟩ := content_eq optimalQuotes v
  have hkept : Kept optimalQuotes eol v ↔ p' = p ∧ Closed eol (ps ++ [p']) := by
    constructor
    · intro hk
      have heq := hsame.mpr fun hr => hk.null hr p (by rw [hpieces, List.getLast?_concat])
      exact ⟨heq, heq ▸ hpieces ▸ hk.closed hq⟩
    · rintro ⟨rfl, hc⟩
      refine ⟨fun hnot => absurd (hq.symm.trans hnot) (by decide), fun _ => hpieces ▸ hc,
        fun hr t ht => ?_⟩
      rw [hpieces, List.getLast?_concat] at ht
      cases ht
      exact hsame.mp rfl hr
  have hmem : ∀ t ∈ ps ++ [p'], 34 ∉ t := by
    have hnone : ∀ t ∈ pieces quote v, 34 ∉ t := fun t ht =>
      firstMatch_singleton_eq_none_iff.mp (firstMatch_of_mem_pieces (by decide) ht)
    intro t ht h34
    rcases List.mem_append.mp ht with ht | ht
    · exact hnone t (hpieces ▸ List.mem_append_left _ ht) h34
    · rw [List.mem_singleton.mp ht] at h34
      exact hnone p (hpieces ▸ List.mem_append_right _ (List.mem_singleton.mpr rfl))
        (hpre.subset h34)
  -- the value is the pieces with quotes between them
  have hvalue : v = quote.intercalate (ps ++ [p]) := by
    rw [← hpieces, intercalate_pieces (by decide)]
  have hlast : quote.intercalate (ps ++ [p']) <+: v := by
    obtain ⟨s, hs⟩ := exists_intercalate_concat quote ps
    rw [hvalue, hs, hs, List.prefix_append_right_inj]
    exact hpre
  have hy := hb.notPrefix
  rw [hkept]
  by_cases hnil : content optimalQuotes v = []
  · -- two quotes are an empty field
    rw [hcontent] at hnil
    have hnone : ps = [] ∧ p' = [] := by
      cases ps with
      | nil => exact ⟨rfl, List.intercalate_singleton.symm.trans hnil⟩
      | cons t ps =>
        rw [List.cons_append, List.intercalate_cons_of_ne_nil (by simp)] at hnil
        exact absurd hnil (by simp [quote])
    obtain ⟨rfl, rfl⟩ := hnone
    obtain rfl : v = p := hvalue.trans List.intercalate_singleton
    rw [hcontent, hnil] at hw
    have hlead : lead quote (quoted [] ++ y) = (2, y) := by
      show lead quote (quote ++ (quote ++ y)) = _
      rw [lead_append (by decide), lead_append (by decide), lead_of_notPrefix hy]
    obtain ⟨r, hw', heq⟩ := Quoting.splitWithQuote_quoted (a := splitArgs eol) l hw hlead (by decide)
    have hend : r = [] → (splitArgs eol).splitWithQuote l rest h = .ok (l ++ [[]]) := fun hr => by
      rw [heq, if_pos ⟨rfl, .inl hr⟩, if_pos hr]
    have hnext : r ≠ [] → separator <+: r → (splitArgs eol).splitWithQuote l rest h =
        (splitArgs eol).splitWithQuote (l ++ [[]]) (r.drop separator.length) h := fun hr hsep => by
      rw [heq, if_pos ⟨rfl, .inr hsep⟩, if_neg hr]
      rfl
    constructor
    · rintro ⟨rfl, -⟩
      exact read_of_next hb hw' hend hnext
    · intro hnot res hres
      have hne : [] ≠ v := by
        intro hv
        refine hnot ⟨hv, ⟨fun t ht hpre' => ?_, fun t ht => ?_⟩⟩
        · rw [List.nil_append, List.mem_singleton] at ht
          rw [ht, List.prefix_nil] at hpre'
          cases eol <;> cases hpre'
        · cases ht
          decide
      rcases hb.next hw' with ⟨-, hr⟩ | ⟨z, -, hr, hsep, -⟩
      · rw [hend hr] at hres
        cases hres
        exact lost_of_other hne (List.prefix_refl _)
      · rw [hnext hr hsep] at hres
        exact lost_of_other hne ((splitArgs eol).splitWithQuote_isPrefix hres)
  · rw [hcontent] at hnil hw
    have hstart := not_quote_prefix_escaped hmem hnil (quote ++ y)
    have hlead : lead quote (quoted ((quoteEscapeChar ++ quote).intercalate (ps ++ [p'])) ++ y) =
        (1, (quoteEscapeChar ++ quote).intercalate (ps ++ [p']) ++ (quote ++ y)) := by
      unfold quoted
      rw [List.append_assoc, lead_append (by decide), List.append_assoc, lead_of_notPrefix hstart]
    obtain ⟨r, hw', heq⟩ := Quoting.splitWithQuote_quoted (a := splitArgs eol) l hw hlead (by decide)
    rw [if_neg fun hand => absurd hand.1 (by decide), if_neg (by decide)] at heq
    obtain ⟨hyes, hno⟩ := quotedField_pieces (by simp) hmem hy l.length [] hw'
    -- another field loses the value
    have hlost : (∀ f r' h', (splitArgs eol).quotedField l.length [] r h = .ok (f, r', h') → f ≠ v) →
        Lost eol l v rest h := by
      intro hother res hres
      rw [heq] at hres
      split at hres
      · cases hres
      · rename_i f r' h' hok
        have hne := hother f r' h' hok
        split at hres
        · cases hres
        · split at hres
          · cases hres
            exact lost_of_other hne (List.prefix_refl _)
          · exact lost_of_other hne ((splitArgs eol).splitWithQuote_isPrefix hres)
    by_cases hc : Closed eol (ps ++ [p'])
    · obtain ⟨r', h', hok, hwin⟩ := hyes hc
      constructor
      · rintro ⟨rfl, -⟩
        rw [← hvalue] at hok
        have hok' : (splitArgs eol).quotedField l.length
            (copies ((1 - 1) / 2) (splitArgs eol).quote) r h = .ok (v, r', h') := hok
        rw [hok'] at heq
        dsimp only at heq
        refine read_of_next hb hwin (fun hr => ?_) fun hr hsep => ?_
        · rw [heq, if_neg fun hand => hand.1 hr, if_pos hr]
        · rw [heq, if_neg fun hand => hand.2 hsep, if_neg hr]
          rfl
      · intro hnot
        refine hlost fun f r'' h'' hok' hf => hnot ⟨?_, hc⟩
        rw [hok] at hok'
        cases hok'
        obtain ⟨s, hs⟩ := exists_intercalate_concat quote ps
        rw [hvalue, List.nil_append, hs, hs] at hf
        exact List.append_cancel_left hf
    · refine ⟨fun hand => absurd hand.2 hc, fun _ => hlost ?_⟩
      rintro f r' h' hok rfl
      exact hno hc _ _ _ hok hlast

/-- A value without quotes is seen up to its end, unless it has a line end. -/
theorem plain_seen (hb : Behind eol y) (hw : Window eol.bytes true (v ++ y) rest h)
    (hline : ¬eol.bytes <:+: v) :
    y = eol.bytes ∧ rest = v ∨ ∃ z r, y = separator ++ z ∧ rest = v ++ (separator ++ r) := by
  have heolne : eol.bytes ≠ [] := by
    cases eol <;> decide
  obtain ⟨t, ht, hcases⟩ := hw.tail heolne
  have hnot : ∀ k, ¬eol.bytes <+: v.drop k :=
    fun k hpre => hline (hpre.isInfix.trans (List.drop_suffix ..).isInfix)
  -- what is not seen begins with a line end
  have htail : rest.length ≤ v.length → v.drop rest.length ++ y = t := fun hle => by
    rw [← List.drop_append_of_le_length hle, ht, List.drop_left]
  have hlen := congrArg List.length ht
  rw [List.length_append, List.length_append] at hlen
  cases hb with
  | last =>
    refine .inl ⟨rfl, ?_⟩
    rcases hcases with rfl | ⟨-, hpre⟩
    · rw [List.append_nil] at ht
      have hinf : eol.bytes <:+: rest := ⟨v, [], by rw [List.append_nil, ht]⟩
      exact absurd hinf (Quoting.Window.not_infix (a := splitArgs eol) hw)
    · have hle := hpre.length_le
      have hv : v.drop rest.length = [] := by
        by_contra hne
        rw [← htail (by omega)] at hpre
        exact hnot _ (Eol.prefix_append hne hpre)
      rw [List.drop_eq_nil_iff] at hv
      exact (List.append_inj ht (by omega)).1.symm
  | more z =>
    obtain ⟨s, hs⟩ : v ++ separator <+: rest := by
      refine prefix_left (b := t) ⟨z, by rw [← ht, List.append_assoc]⟩ ?_
      by_contra hlt
      rw [List.length_append] at hlt
      have hle : rest.length ≤ v.length := Nat.lt_succ_iff.mp (Nat.lt_of_not_le hlt)
      have heol := htail hle
      rcases hcases with rfl | ⟨-, hpre⟩
      · simp [separator] at heol
      · have hsep : ∀ b ∈ eol.bytes, b ∉ separator := by
          cases eol <;> simp [Eol.bytes, separator]
        rw [← heol, eol_prefix_iff (by decide) hsep] at hpre
        exact hnot _ hpre
    exact .inr ⟨z, s, rfl, by rw [← hs, List.append_assoc]⟩

/-- A value without quotes around it. -/
theorem split_plain_value (hb : Behind eol y) (hq : isQuoted optimalQuotes v = false)
    (hw : Window eol.bytes true (v ++ y) rest h) :
    (Kept optimalQuotes eol v ∧ ¬(v = [] ∧ y = eol.bytes) → Read eol l v y rest h) ∧
      (¬(Kept optimalQuotes eol v ∧ ¬(v = [] ∧ y = eol.bytes)) → Lost eol l v rest h) := by
  have hparts := hq
  unfold isQuoted at hparts
  rw [Bool.or_eq_false_iff, Option.isSome_eq_false_iff, Option.isNone_iff_eq_none] at hparts
  obtain ⟨hr, hnosep⟩ := hparts
  have hnoquote := hr
  unfold isReplaced at hnoquote
  rw [Bool.or_eq_false_iff, Option.isSome_eq_false_iff, Option.isNone_iff_eq_none] at hnoquote
  have h34 : 34 ∉ v := firstMatch_singleton_eq_none_iff.mp hnoquote.2
  have h44 : 44 ∉ v := firstMatch_singleton_eq_none_iff.mp hnosep
  have heolne : eol.bytes ≠ [] := by
    cases eol <;> decide
  have hkept : Kept optimalQuotes eol v ↔ ¬eol.bytes <:+: v := by
    refine ⟨fun hk => hk.plain hq, fun hline => ⟨fun _ => hline, fun h => ?_, fun h => ?_⟩⟩
    · exact absurd (h.symm.trans hq) (by decide)
    · exact absurd (h.symm.trans hr) (by decide)
  have hstart : ¬quote <+: v ++ y := by
    cases v with
    | nil => exact hb.notPrefix
    | cons b v =>
      intro hpre
      obtain rfl : 34 = b := (List.cons_prefix_cons.mp hpre).1
      exact h34 (List.mem_cons_self ..)
  have hsplit := fun hne => Quoting.splitWithQuote_unquoted (a := splitArgs eol) l hw hstart hne
  have hempty : rest = [] → Lost eol l v rest h := by
    intro hrest res hres hpre
    rw [SplitArgs.splitWithQuote.eq_def, if_pos hrest] at hres
    cases hres
    have hlen := hpre.length_le
    rw [List.length_append, List.length_singleton] at hlen
    omega
  have hend : rest ≠ [] → 44 ∉ rest →
      (splitArgs eol).splitWithQuote l rest h = .ok (l ++ [rest]) := by
    intro hne h44
    have hnone' : firstMatch rest (splitArgs eol).sep = none :=
      firstMatch_singleton_eq_none_iff.mpr h44
    rw [hsplit hne, hnone']
    rfl
  rw [hkept]
  by_cases hline : eol.bytes <:+: v
  · -- the value is cut at the line end
    refine ⟨fun hand => absurd hline hand.1, fun _ => ?_⟩
    have hlt : rest.length < v.length := by
      by_contra hle
      obtain ⟨t, ht, -⟩ := hw.tail heolne
      have hpre : v <+: rest := prefix_left (b := t) ⟨y, ht⟩ (by omega)
      exact Quoting.Window.not_infix (a := splitArgs eol) hw (hline.trans hpre.isInfix)
    have hpre : rest <+: v := by
      obtain ⟨t, ht, -⟩ := hw.tail heolne
      exact prefix_left (b := y) ⟨t, ht.symm⟩ (by omega)
    by_cases hrest : rest = []
    · exact hempty hrest
    · intro res hres
      rw [hend hrest fun hmem => h44 (hpre.subset hmem)] at hres
      cases hres
      refine lost_of_other (fun heq => ?_) (List.prefix_refl _)
      rw [heq] at hlt
      exact Nat.lt_irrefl _ hlt
  · rw [and_iff_right hline]
    rcases plain_seen hb hw hline with ⟨rfl, hv⟩ | ⟨z, r, rfl, hv⟩
    · subst hv
      refine ⟨fun hne => ⟨fun _ => hend (fun hnil => hne ⟨hnil, rfl⟩) h44, fun z hz => ?_⟩, fun hne => ?_⟩
      · exact absurd hz.symm (separator_ne_eol z)
      · exact hempty (not_not.mp hne).1
    · have hmatch := firstMatch_singleton h44 r
      have hdrop := hw.drop heolne (k := v.length + separator.length) (by
        rw [hv, List.length_append, List.length_append]
        omega)
      rw [← List.drop_drop, List.drop_left, List.drop_left] at hdrop
      have hne : rest ≠ [] := by
        rw [hv]
        simp [separator]
      have hmatch' : firstMatch rest (splitArgs eol).sep = some v.length := by
        rw [hv]
        exact hmatch
      have heq := hsplit hne
      rw [hmatch'] at heq
      dsimp only at heq
      refine ⟨fun _ => ⟨fun hz => absurd hz (separator_ne_eol z), fun z' hz => ?_⟩, fun hnot => ?_⟩
      · obtain rfl := List.append_cancel_left hz
        refine ⟨_, h, hdrop, ?_⟩
        rw [heq, hv, List.take_left]
        rfl
      · exact absurd (fun hand => separator_ne_eol z hand.2) hnot

/-! ## Lines -/

/-- The text of a line. -/
def line (optimalQuotes : Bool) (eol : Eol) (values : List (List UInt8)) : List UInt8 :=
  separator.intercalate (values.map (written optimalQuotes)) ++ eol.bytes

theorem line_singleton (optimalQuotes : Bool) (v : List UInt8) :
    line optimalQuotes eol [v] = written optimalQuotes v ++ eol.bytes := by
  unfold line
  rw [List.map_singleton, List.intercalate_singleton]

theorem line_cons (optimalQuotes : Bool) (v : List UInt8) {vs : List (List UInt8)} (hne : vs ≠ []) :
    line optimalQuotes eol (v :: vs) =
      written optimalQuotes v ++ (separator ++ line optimalQuotes eol vs) := by
  unfold line
  rw [List.map_cons, List.intercalate_cons_of_ne_nil (by simpa using hne)]
  simp only [List.append_assoc]

/-- A value of a line, between quotes or not. -/
theorem split_value (hb : Behind eol y)
    (hw : Window eol.bytes true (written optimalQuotes v ++ y) rest h) :
    (Kept optimalQuotes eol v ∧ ¬(isQuoted optimalQuotes v = false ∧ v = [] ∧ y = eol.bytes) →
      Read eol l v y rest h) ∧
    (¬(Kept optimalQuotes eol v ∧ ¬(isQuoted optimalQuotes v = false ∧ v = [] ∧ y = eol.bytes)) →
      Lost eol l v rest h) := by
  unfold written at hw
  cases hq : isQuoted optimalQuotes v with
  | true =>
    rw [hq, if_pos rfl] at hw
    have hsplit := split_quoted_value l hb hq hw
    have hnot : ¬(true = false ∧ v = [] ∧ y = eol.bytes) := fun h => by cases h.1
    rwa [and_iff_left hnot]
  | false =>
    rw [hq, if_neg Bool.false_ne_true] at hw
    have hsplit := split_plain_value l hb hq hw
    rwa [and_iff_right rfl]

/-- Only with `optimal_quotes` the empty value is written without quotes. -/
theorem isQuoted_nil (optimalQuotes : Bool) : isQuoted optimalQuotes [] = !optimalQuotes := by
  cases optimalQuotes <;> decide

theorem splitWithQuote_line (hne : values ≠ [])
    (hw : Window eol.bytes true (line optimalQuotes eol values) rest h) :
    (splitArgs eol).splitWithQuote l rest h = .ok (l ++ values) ↔
      (∀ v ∈ values, Kept optimalQuotes eol v) ∧
        (optimalQuotes = true → values.getLast? ≠ some []) := by
  induction values generalizing l rest h with
  | nil => exact absurd rfl hne
  | cons v vs ih =>
    by_cases hvs : vs = []
    · subst hvs
      rw [line_singleton] at hw
      obtain ⟨hread, hlost⟩ := split_value l .last hw
      have hcond : (∀ w ∈ [v], Kept optimalQuotes eol w) ∧
          (optimalQuotes = true → [v].getLast? ≠ some []) ↔ Kept optimalQuotes eol v ∧
            ¬(isQuoted optimalQuotes v = false ∧ v = [] ∧ eol.bytes = eol.bytes) := by
        rw [List.forall_mem_singleton, List.getLast?_singleton]
        refine and_congr_right fun _ => ?_
        constructor
        · rintro hlast ⟨hq, rfl, -⟩
          rw [isQuoted_nil, Bool.not_eq_false'] at hq
          exact hlast hq rfl
        · intro hnot ho heq
          cases heq
          exact hnot ⟨by rw [isQuoted_nil, ho]; rfl, rfl, rfl⟩
      rw [hcond]
      by_cases hv : Kept optimalQuotes eol v ∧
          ¬(isQuoted optimalQuotes v = false ∧ v = [] ∧ eol.bytes = eol.bytes)
      · exact iff_of_true ((hread hv).1 rfl) hv
      · exact iff_of_false (fun hok => hlost hv _ hok (List.prefix_refl _)) hv
    · rw [line_cons _ v hvs] at hw
      obtain ⟨hread, hlost⟩ := split_value l (.more _) hw
      have hmore : ¬(isQuoted optimalQuotes v = false ∧ v = [] ∧
          separator ++ line optimalQuotes eol vs = eol.bytes) :=
        fun hand => separator_ne_eol _ hand.2.2
      rw [and_iff_left hmore] at hread hlost
      rw [List.forall_mem_cons, List.getLast?_cons_of_ne_nil hvs, and_assoc]
      by_cases hv : Kept optimalQuotes eol v
      · obtain ⟨r, h', hw', heq⟩ := (hread hv).2 _ rfl
        have hnext := ih (l ++ [v]) hvs hw'
        rw [List.append_assoc, List.singleton_append] at hnext
        rw [heq, hnext, and_iff_right hv]
      · refine iff_of_false (fun hok => hlost hv _ hok ⟨vs, ?_⟩) fun hand => hv hand.1
        rw [List.append_assoc, List.singleton_append]

/-- What is read is the line that was written. -/
theorem getLineAndSplit_window (optimalQuotes : Bool) (eol : Eol) (hne : values ≠ []) :
    ∃ rest h, Window eol.bytes true (line optimalQuotes eol values) rest h ∧
      getLineAndSplit eol (prepareRawLineIntern optimalQuotes eol values) =
        (splitArgs eol).splitWithQuote [] rest h := by
  rw [prepareRawLineIntern_eq optimalQuotes eol hne]
  refine (splitArgs eol).split_window true ?_
  show separator.intercalate _ ++ eol.bytes ≠ []
  cases eol <;> simp [Eol.bytes]

/-- A line is read back exactly when each of its values is kept and the last one is not an empty one
without quotes. -/
theorem getLineAndSplit_iff (optimalQuotes : Bool) (eol : Eol) (values : List (List UInt8))
    (hne : values ≠ []) :
    getLineAndSplit eol (prepareRawLineIntern optimalQuotes eol values) = .ok values ↔
      (∀ v ∈ values, Kept optimalQuotes eol v) ∧
        (optimalQuotes = true → values.getLast? ≠ some []) := by
  obtain ⟨rest, h, hw, heq⟩ := getLineAndSplit_window optimalQuotes eol hne
  rw [heq]
  exact splitWithQuote_line [] hne hw

/-- A comma in a value. -/
theorem getLineAndSplit_comma :
    getLineAndSplit .unix (prepareRawLineIntern true .unix [[], [97, 44]]) = .ok [[], [97, 44]] := by
  refine (getLineAndSplit_iff true .unix [[], [97, 44]] (by decide)).mpr
    ⟨fun v hv => ?_, fun _ => by decide⟩
  have hpieces : pieces quote [97, 44] = [[97, 44]] := pieces_none (by decide)
  rcases List.mem_cons.mp hv with rfl | hv
  · exact ⟨fun _ => by decide, fun hq => absurd hq (by decide), fun hr => absurd hr (by decide)⟩
  · obtain rfl := List.mem_singleton.mp hv
    refine ⟨fun hq => absurd hq (by decide), fun _ => ?_, fun hr => absurd hr (by decide)⟩
    rw [hpieces]
    exact ⟨by decide, by decide⟩

/-- A backslash at the end of a quoted value, a line end in a value without quotes, and an empty value
at the end of a line are not read back. -/
theorem getLineAndSplit_lost :
    getLineAndSplit .unix (prepareRawLineIntern false .unix [[92]]) ≠ .ok [[92]] ∧
      getLineAndSplit .unix (prepareRawLineIntern true .unix [[97, 10, 98]]) ≠ .ok [[97, 10, 98]] ∧
      getLineAndSplit .unix (prepareRawLineIntern true .unix [[97], []]) ≠ .ok [[97], []] := by
  have hlost : ∀ {optimalQuotes : Bool} {values : List (List UInt8)}, values ≠ [] →
      getLineAndSplit .unix (prepareRawLineIntern optimalQuotes .unix values) = .ok values →
        (∀ v ∈ values, Kept optimalQuotes .unix v) ∧
          (optimalQuotes = true → values.getLast? ≠ some []) := by
    intro optimalQuotes values hne hok
    obtain ⟨rest, h, hw, heq⟩ := getLineAndSplit_window optimalQuotes .unix hne
    rw [heq] at hok
    exact (splitWithQuote_line [] hne hw).mp hok
  refine ⟨fun hok => ?_, fun hok => ?_, fun hok => ?_⟩
  · have hkept := (hlost (by decide) hok).1 [92] (List.mem_cons_self ..)
    have hpieces : pieces quote [92] = [[92]] := pieces_none (by decide)
    exact (hkept.closed (by decide)).escape [92] (by rw [hpieces]; rfl) rfl
  · have hkept := (hlost (by decide) hok).1 [97, 10, 98] (List.mem_cons_self ..)
    exact hkept.plain (by decide) (by decide)
  · exact (hlost (by decide) hok).2 rfl rfl

end

end Qore.Csv
