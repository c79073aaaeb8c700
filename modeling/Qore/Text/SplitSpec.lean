import Qore.Text.SplitRead

/-!
# `Qore.Text.SplitSpec`: the fields of a text

What one pass of the reader makes of a field, in terms of the text: a field that begins with quotes
(`splitWithQuote_quoted`), one that does not (`splitWithQuote_unquoted`), and a quote inside of a
quoted field (`quotedField_pass`).
-/

set_option autoImplicit false

namespace Qore.Text

open Qore.Lib.Matches

namespace Quoting

section
variable (a : Quoting) {rest : List UInt8} {h : Lines}

/-! ## Results grow -/

theorem quotedField_isPrefix {l : Nat} {field f r : List UInt8} {h' : Lines}
    (heq : a.quotedField l field rest h = .ok (f, r, h')) : field <+: f := by
  fun_induction SplitArgs.quotedField a.toSplitArgs l field rest h with
  | case1 =>
    cases heq
    exact List.prefix_refl _
  | case2 => cases heq
  | case3 => cases heq
  | case4 field rest _ _ line lines ih => exact ih heq
  | case5 => cases heq
  | case6 field rest h _ p _ _ rest' _ _ ih =>
    refine List.IsPrefix.trans ?_ (ih heq)
    rw [List.append_assoc]
    exact List.prefix_append ..
  | case7 field rest h _ p _ _ rest' _ c numQuotes field' _ =>
    simp only [Except.ok.injEq, Prod.mk.injEq] at heq
    rw [← heq.1]
    show field <+: field ++ _ ++ _
    rw [List.append_assoc]
    exact List.prefix_append ..
  | case8 field rest h _ p _ _ rest' _ c numQuotes field' _ ih =>
    refine List.IsPrefix.trans ?_ (ih heq)
    show field <+: field ++ _ ++ _
    rw [List.append_assoc]
    exact List.prefix_append ..

theorem splitWithQuote_isPrefix {l : List (List UInt8)} {res : List (List UInt8)}
    (heq : a.splitWithQuote l rest h = .ok res) : l <+: res := by
  fun_induction SplitArgs.splitWithQuote a.toSplitArgs l rest h with
  | case1 => cases heq; exact List.prefix_refl _
  | case2 => cases heq; exact List.prefix_append ..
  | case3 _ _ _ _ _ _ _ _ ih => exact (List.prefix_append ..).trans (ih heq)
  | case4 => cases heq
  | case5 => cases heq
  | case6 => cases heq
  | case7 => cases heq; exact List.prefix_append ..
  | case8 _ _ _ _ _ _ _ _ _ _ _ _ _ _ ih => exact (List.prefix_append ..).trans (ih heq)
  | case9 => cases heq
  | case10 => cases heq; exact List.prefix_append ..
  | case11 => cases heq
  | case12 _ _ _ _ _ _ _ _ _ _ ih => exact (List.prefix_append ..).trans (ih heq)

/-! ## Passes over a field -/

/-- A pass that finds a quote without a backslash before it. -/
theorem quotedField_pass {byLine : Bool} {text : List UInt8} (l : Nat) (field : List UInt8)
    (hw : Window a.eol byLine text rest h) (hne : rest ≠ []) {t y : List UInt8} {n : Nat}
    (hp : firstMatch text a.quote = some t.length) (ht : text.take t.length = t)
    (hesc : a.escaped t = false)
    (hlead : lead a.quote (text.drop (t.length + a.quote.length)) = (n, y)) :
    ∃ rest' h', Window a.eol byLine y rest' h' ∧ a.quotedField l field rest h =
      if (n + 1) % 2 = 1 then .ok (field ++ t ++ copies ((n + 1) / 2) a.quote, rest', h')
      else a.quotedField l (field ++ t ++ copies ((n + 1) / 2) a.quote) rest' h' := by
  obtain ⟨rest', h', hw', heq⟩ := a.quotedField_found l field hw hp hne
  obtain ⟨hcount, hw''⟩ := a.countQuotes_window hw'
  rw [hlead] at hcount hw''
  rw [ht, hesc, if_neg Bool.false_ne_true] at heq
  dsimp only at heq hcount hw''
  rw [hcount] at heq
  exact ⟨_, h', hw'', heq⟩

section
variable {a} {byLine : Bool} {rest : List UInt8} {h : Lines} (l : List (List UInt8))

/-! ## Fields of a text -/

/-- A field that begins with quotes. -/
theorem splitWithQuote_quoted {text z : List UInt8} {n : Nat} (hw : Window a.eol byLine text rest h)
    (hlead : lead a.quote text = (n, z)) (hn : n ≠ 0) :
    ∃ r, Window a.eol byLine z r h ∧ a.splitWithQuote l rest h =
      if n = 2 ∧ (r = [] ∨ a.sep <+: r) then
        if r = [] then .ok (l ++ [[]]) else a.splitWithQuote (l ++ [[]]) (r.drop a.sep.length) h
      else if n % 2 = 0 then .error (.splitError (.evenQuotes n))
      else
        match a.quotedField l.length (copies ((n - 1) / 2) a.quote) r h with
        | .error e => .error e
        | .ok (field, r, h') =>
          if r ≠ [] ∧ ¬a.sep <+: r then .error (.splitError (.noSeparator (l.length + 1)))
          else if r = [] then .ok (l ++ [field])
          else a.splitWithQuote (l ++ [field]) (r.drop a.sep.length) h' := by
  obtain ⟨hcount, hwin⟩ := a.countQuotes_window hw
  rw [hlead] at hcount hwin
  have hne : rest ≠ [] := by
    rintro rfl
    have hzero : (a.countQuotes []).1 = 0 := by
      show (lead a.quote []).1 = 0
      rw [lead_of_notPrefix]
      rw [List.prefix_nil]
      exact a.quote_ne
    exact hn (hcount.symm.trans hzero)
  refine ⟨_, hwin, ?_⟩
  rw [SplitArgs.splitWithQuote.eq_def a.toSplitArgs l rest h, if_neg hne]
  dsimp only at hcount ⊢
  rw [hcount, if_pos hn]
  congr 2
  split
  · rename_i heq
    rw [heq]
  · rename_i heq
    rw [heq]

/-- A field that does not begin with a quote. -/
theorem splitWithQuote_unquoted {text : List UInt8} (hw : Window a.eol byLine text rest h)
    (hnot : ¬a.quote <+: text) (hne : rest ≠ []) :
    a.splitWithQuote l rest h =
      match firstMatch rest a.sep with
      | none =>
        match a.trim rest with
        | none => .error .trimFailed
        | some field => .ok (l ++ [field])
      | some p =>
        match a.trim (rest.take p) with
        | none => .error .trimFailed
        | some field => a.splitWithQuote (l ++ [field]) (rest.drop (p + a.sep.length)) h := by
  have hcount : (a.countQuotes rest).1 = 0 := by
    rw [(a.countQuotes_window hw).1, lead_of_notPrefix hnot]
  rw [SplitArgs.splitWithQuote.eq_def a.toSplitArgs l rest h, if_neg hne]
  dsimp only
  rw [hcount, if_neg (fun hzero => hzero rfl)]
  cases firstMatch rest a.sep with
  | none => rfl
  | some p => rfl

end

/-- A line has no line end. -/
theorem Window.not_infix {text r : List UInt8} (hw : Window a.eol true text r h) : ¬a.eol <:+: r := by
  have hpieces : ∀ {ls : List (List UInt8)}, pieces a.eol text = r :: ls → ¬a.eol <:+: r := by
    rintro ls hp ⟨s, t, hst⟩
    have hpos := List.length_pos_iff.mpr a.eol_ne
    have hlen := congrArg List.length hst
    rw [List.length_append, List.length_append] at hlen
    have hocc : a.eol <+: r.drop s.length := by
      rw [← hst, List.append_assoc, List.drop_left]
      exact List.prefix_append ..
    cases hm : firstMatch text a.eol with
    | none =>
      rw [pieces_none hm] at hp
      rw [← (List.cons.inj hp).1] at hocc
      exact (firstMatch_eq_none_iff _ _).mp hm _ hocc
    | some i =>
      rw [pieces_some a.eol_ne hm] at hp
      have hr := (List.cons.inj hp).1
      rw [← hr] at hocc hlen
      rw [List.length_take] at hlen
      refine (firstMatch_eq_some_iff.mp hm).2 s.length (by omega) (hocc.trans ?_)
      rw [List.drop_take]
      exact List.take_prefix ..
  cases hw with
  | line hp => exact hpieces hp
  | last hp => exact hpieces hp

end

end Quoting

end Qore.Text
