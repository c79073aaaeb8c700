import Mathlib.Data.List.Perm.Basic

/-!
# `Qore.Lib.Outcome`: what a computation that can fail guarantees

`Ends x P Q` says that a computation ends with a value for which `P` holds or with a failure for
which `Q` holds. The rules follow the computation, so that a function gets one lemma for its
results and its failures.

A second part is about lists in which one place is free: an entry was copied from it, and the value
that it had is kept elsewhere.

* `Ends.bind`: the guarantees of a sequence.
* `set_filter_perm_iff`: when a change of one place keeps the chosen entries.
-/

set_option autoImplicit false

namespace Qore.Lib

section
variable {ε α β : Type}

@[simp]
theorem ok_bind (a : α) (f : α → Except ε β) : (Except.ok a >>= f) = f a := rfl

/-- The computation ends with a value of `P` or a failure of `Q`. -/
def Ends (x : Except ε α) (P : α → Prop) (Q : ε → Prop) : Prop :=
  match x with
  | .ok a => P a
  | .error e => Q e

variable {P : α → Prop} {P' : β → Prop} {Q Q' : ε → Prop} {x : Except ε α}

theorem Ends.ok {a : α} (h : P a) : Ends (.ok a) P Q := h

theorem Ends.error {e : ε} (h : Q e) : Ends (.error e) P Q := h

theorem Ends.mono {P₁ : α → Prop} (h : Ends x P Q) (hP : ∀ a, P a → P₁ a) (hQ : ∀ e, Q e → Q' e) :
    Ends x P₁ Q' := by
  cases x with
  | ok a => exact hP a h
  | error e => exact hQ e h

/-- The second computation starts from any value of the first. -/
theorem Ends.bind {f : α → Except ε β} (hx : Ends x P Q) (hf : ∀ a, P a → Ends (f a) P' Q) :
    Ends (x >>= f) P' Q := by
  cases x with
  | ok a => exact hf a hx
  | error e => exact hx

theorem Ends.map {f : α → β} (hx : Ends x P Q) (hf : ∀ a, P a → P' (f a)) :
    Ends (x.map f) P' Q := by
  cases x with
  | ok a => exact hf a hx
  | error e => exact hx

/-- A computation that cannot fail has a value. -/
theorem Ends.exists_ok (h : Ends x P fun _ => False) : ∃ a, x = .ok a ∧ P a := by
  cases x with
  | ok a => exact ⟨a, rfl, h⟩
  | error e => exact h.elim

end

/-! ### One place of a list -/

section
variable {α : Type}

/-- The entries before a place, the entry there and those after it. -/
theorem set_eq_append {xs : List α} {i : Nat} (h : i < xs.length) (a : α) :
    xs.set i a = xs.take i ++ a :: xs.drop (i + 1) := by
  rw [List.set_eq_take_append_cons_drop, if_pos h]

/-- The entries before a place, its entry and those after it are the list. -/
theorem take_getD_drop {l : List α} {i : Nat} (hi : i < l.length) (d : α) :
    l.take i ++ l.getD i d :: l.drop (i + 1) = l := by
  rw [List.getD_eq_getElem?_getD, List.getElem?_eq_getElem hi, Option.getD_some,
    ← List.drop_eq_getElem_cons hi, List.take_append_drop]

/-- The number of entries with a property, in a list with another entry at a position. -/
theorem countP_set_getD (p : α → Bool) (d : α) {l : List α} {i : Nat} (hi : i < l.length) (v : α) :
    (l.set i v).countP p + (if p (l.getD i d) then 1 else 0) =
      l.countP p + (if p v then 1 else 0) := by
  have hl : l.countP p = (l.take i ++ l.getD i d :: l.drop (i + 1)).countP p := by
    rw [take_getD_drop hi]
  rw [set_eq_append hi, hl]
  simp only [List.countP_append, List.countP_cons]
  omega

/-- A free place moves to the place that its new entry comes from. -/
theorem set_move_perm {l : List α} {d : α} {i j : Nat} (hi : i < l.length) (hj : j < l.length)
    (hij : i ≠ j) (p : α) : ((l.set i (l.getD j d)).set j p).Perm (l.set i p) := by
  classical
  rw [List.perm_iff_count]
  intro a
  have hget : (l.set i (l.getD j d)).getD j d = l.getD j d := by
    rw [List.getD_eq_getElem?_getD, List.getElem?_set_ne hij, ← List.getD_eq_getElem?_getD]
  have hfirst := countP_set_getD (· == a) d hi (l.getD j d)
  have hsecond := countP_set_getD (· == a) d (l := l.set i (l.getD j d)) (i := j)
    (by rw [List.length_set]; exact hj) p
  have hdirect := countP_set_getD (· == a) d hi p
  rw [hget] at hsecond
  show List.countP _ _ = List.countP _ _
  omega

/-- A change of one place keeps the entries for which `p` holds exactly when it does not change
the place, or `p` holds for neither entry. -/
theorem set_filter_perm_iff {p : α → Bool} {xs : List α} {i : Nat} {a b : α}
    (h : xs[i]? = some a) :
    (xs.filter p).Perm ((xs.set i b).filter p) ↔ a = b ∨ (p a = false ∧ p b = false) := by
  obtain ⟨hi, rfl⟩ := List.getElem?_eq_some_iff.mp h
  have hsplit : xs = xs.take i ++ xs[i] :: xs.drop (i + 1) := by
    rw [← set_eq_append hi, List.set_getElem_self]
  rw [set_eq_append hi]
  generalize hb : xs[i] = a at hsplit ⊢
  generalize xs.take i = before at hsplit ⊢
  generalize xs.drop (i + 1) = after at hsplit ⊢
  subst hsplit
  rw [List.filter_append, List.filter_append, List.perm_append_left_iff]
  cases ha : p a with
  | false =>
    rw [List.filter_cons_of_neg (by rw [ha]; exact Bool.false_ne_true)]
    cases hb : p b with
    | false =>
      rw [List.filter_cons_of_neg (by rw [hb]; exact Bool.false_ne_true)]
      exact ⟨fun _ => .inr ⟨rfl, rfl⟩, fun _ => .refl _⟩
    | true =>
      rw [List.filter_cons_of_pos hb]
      refine ⟨fun hperm => ?_, ?_⟩
      · have := hperm.length_eq
        rw [List.length_cons] at this
        omega
      · rintro (rfl | ⟨-, hfalse⟩)
        · rw [ha] at hb
          cases hb
        · cases hfalse
  | true =>
    rw [List.filter_cons_of_pos ha]
    cases hb : p b with
    | false =>
      rw [List.filter_cons_of_neg (by rw [hb]; exact Bool.false_ne_true)]
      refine ⟨fun hperm => ?_, ?_⟩
      · have := hperm.length_eq
        rw [List.length_cons] at this
        omega
      · rintro (rfl | ⟨hfalse, -⟩)
        · rw [ha] at hb
          cases hb
        · cases hfalse
    | true =>
      rw [List.filter_cons_of_pos hb]
      refine ⟨fun hperm => .inl ?_, ?_⟩
      · classical
        have hcount := hperm.count_eq a
        rw [List.count_cons_self, List.count_cons] at hcount
        by_contra hne
        rw [if_neg (by simpa using Ne.symm hne)] at hcount
        omega
      · rintro (rfl | ⟨hfalse, -⟩)
        · exact .refl _
        · cases hfalse

end

end Qore.Lib
