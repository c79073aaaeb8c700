import Mathlib.Data.List.Basic

/-!
# `Qore.Lib.Components`: texts of components and walks along them

* `components sep s`: the pieces of `s` between separators that are not empty;
  `components_append_cons` cuts the text at a separator, `components_joined` reads back what
  `joined` wrote.
* `place here up cs`: where the components `cs` lead from the root of a tree, when `up` at the root
  stays at the root; `climbs here up t cs` counts how often that is met.
* `place_clean`: the place has a name without `here` and `up`, and `place_of_clean` is the other way.
-/

set_option autoImplicit false

namespace Qore.Lib

variable {α : Type*}

/-! ### Texts -/

/-- Each component behind a separator. -/
def joined (sep : α) (cs : List (List α)) : List α := cs.flatMap (sep :: ·)

/-- Components that a text can be cut into. -/
def Pieces (sep : α) (cs : List (List α)) : Prop := ∀ c ∈ cs, c ≠ [] ∧ sep ∉ c

@[simp] theorem joined_nil (sep : α) : joined sep [] = [] := rfl

@[simp] theorem joined_cons (sep : α) (c : List α) (cs : List (List α)) :
    joined sep (c :: cs) = sep :: (c ++ joined sep cs) := rfl

variable [DecidableEq α]

/-- The pieces of a text between separators, without the empty ones. -/
def components (sep : α) (s : List α) : List (List α) := (s.splitOn sep).filter (· ≠ [])

variable {sep : α} {s : List α} {cs : List (List α)}

/-- A separator cuts a text in two. -/
theorem components_append_cons (a b : List α) :
    components sep (a ++ sep :: b) = components sep a ++ components sep b := by
  unfold components
  rw [List.splitOn_append_cons_self, List.filter_append]

/-- A separator in front adds nothing. -/
@[simp] theorem components_cons_self (s : List α) :
    components sep (sep :: s) = components sep s := components_append_cons [] s

/-- A text without separators is one component. -/
theorem components_of_free (hne : s ≠ []) (hfree : sep ∉ s) : components sep s = [s] := by
  unfold components
  rw [List.splitOn_eq_singleton hfree, List.filter_singleton, decide_eq_true hne]
  rfl

/-- Separators in front add nothing. -/
theorem components_append_of_all {seps : List α} (h : ∀ c ∈ seps, c = sep) (s : List α) :
    components sep (seps ++ s) = components sep s := by
  induction seps with
  | nil => rfl
  | cons c seps ih =>
    have hc := h c List.mem_cons_self
    subst hc
    rw [List.cons_append, components_cons_self, ih fun d hd => h d (List.mem_cons_of_mem c hd)]

/-- A text of separators has no component. -/
theorem components_of_all (h : ∀ c ∈ s, c = sep) : components sep s = [] := by
  have happend := components_append_of_all h []
  rwa [List.append_nil] at happend

/-- Components are such pieces. -/
theorem components_pieces (s : List α) : Pieces sep (components sep s) := by
  induction hn : s.length using Nat.strongRecOn generalizing s with
  | _ n ih =>
    by_cases hmem : sep ∈ s
    · obtain ⟨a, b, rfl, -⟩ := List.eq_append_cons_of_mem hmem
      have hlen : a.length < n ∧ b.length < n := by
        rw [← hn, List.length_append, List.length_cons]
        omega
      rw [components_append_cons]
      exact List.forall_mem_append.mpr ⟨ih _ hlen.1 a rfl, ih _ hlen.2 b rfl⟩
    · by_cases hne : s = []
      · subst hne
        exact List.forall_mem_nil _
      · rw [components_of_free hne hmem]
        exact List.forall_mem_singleton.mpr ⟨hne, hmem⟩

/-- Behind the first separator, the text is cut into what was joined. -/
theorem splitOn_tail_joined (hne : cs ≠ []) (h : Pieces sep cs) :
    (joined sep cs).tail.splitOn sep = cs := by
  induction cs with
  | nil => exact absurd rfl hne
  | cons c cs ih =>
    have hfree := (h c List.mem_cons_self).2
    have hrest : Pieces sep cs := fun d hd => h d (List.mem_cons_of_mem c hd)
    rw [joined_cons, List.tail_cons]
    cases cs with
    | nil => rw [joined_nil, List.append_nil, List.splitOn_eq_singleton hfree]
    | cons d cs =>
      rw [joined_cons, List.splitOn_append_cons_self_of_not_mem hfree]
      exact congrArg (c :: ·) (ih (List.cons_ne_nil d cs) hrest)

/-- What was joined is read back. -/
theorem components_joined (h : Pieces sep cs) : components sep (joined sep cs) = cs := by
  cases cs with
  | nil => rfl
  | cons c cs =>
    have hsplit := splitOn_tail_joined (List.cons_ne_nil c cs) h
    rw [joined_cons, List.tail_cons] at hsplit
    rw [joined_cons, components_cons_self, components, hsplit]
    exact List.filter_eq_self.mpr fun d hd => decide_eq_true (h d hd).1

/-! ### Places -/

variable (here up : α)

/-- One step along a component from the place `t`, which is given by its names from the root. -/
def enter (t : List α) (c : α) : List α :=
  if c = here then t else if c = up then t.dropLast else t ++ [c]

/-- Where the components lead from the root. -/
def place (cs : List α) : List α := cs.foldl (enter here up) []

/-- How often a walk from `t` goes up at the root. -/
def climbs (t : List α) : List α → Nat
  | [] => 0
  | c :: cs => (if c = up ∧ t = [] then 1 else 0) + climbs (enter here up t c) cs

/-- A place whose names lead down only. -/
def Clean (t : List α) : Prop := ∀ c ∈ t, c ≠ here ∧ c ≠ up

variable {here up} {t cs : List α} {c : α}

theorem enter_name (hhere : c ≠ here) (hup : c ≠ up) : enter here up t c = t ++ [c] := by
  rw [enter, if_neg hhere, if_neg hup]

theorem enter_clean (h : Clean here up t) (c : α) : Clean here up (enter here up t c) := by
  unfold enter
  split
  · exact h
  · split
    · exact fun d hd => h d (List.dropLast_subset t hd)
    · rename_i hhere hup
      exact List.forall_mem_append.mpr ⟨h, List.forall_mem_singleton.mpr ⟨hhere, hup⟩⟩

/-- The names of a place lead down. -/
theorem place_clean (cs : List α) : Clean here up (place here up cs) := by
  have hrun (t : List α) (ht : Clean here up t) : Clean here up (cs.foldl (enter here up) t) := by
    induction cs generalizing t with
    | nil => exact ht
    | cons c cs ih => exact ih _ (enter_clean ht c)
  exact hrun [] (List.forall_mem_nil _)

theorem mem_enter {d : α} (h : d ∈ enter here up t c) : d ∈ t ∨ d = c := by
  unfold enter at h
  split at h
  · exact Or.inl h
  · split at h
    · exact Or.inl (List.dropLast_subset t h)
    · exact (List.mem_append.mp h).imp_right List.mem_singleton.mp

/-- They are components of the path. -/
theorem mem_of_mem_foldl (h : c ∈ cs.foldl (enter here up) t) : c ∈ t ∨ c ∈ cs := by
  induction cs generalizing t with
  | nil => exact Or.inl h
  | cons d cs ih =>
    rcases ih h with hin | hin
    · exact (mem_enter hin).imp_right fun heq => List.mem_cons.mpr (Or.inl heq)
    · exact Or.inr (List.mem_cons_of_mem d hin)

theorem mem_of_mem_place (h : c ∈ place here up cs) : c ∈ cs :=
  (mem_of_mem_foldl h).resolve_left List.not_mem_nil

/-- A path that leads down names the place. -/
theorem foldl_enter_of_clean (h : Clean here up cs) (t : List α) :
    cs.foldl (enter here up) t = t ++ cs := by
  induction cs generalizing t with
  | nil => rw [List.foldl_nil, List.append_nil]
  | cons c cs ih =>
    have hc := h c List.mem_cons_self
    rw [List.foldl_cons, enter_name hc.1 hc.2, ih fun d hd => h d (List.mem_cons_of_mem c hd),
      List.append_assoc, List.singleton_append]

theorem place_of_clean (h : Clean here up cs) : place here up cs = cs :=
  foldl_enter_of_clean h []

/-- It never goes up. -/
theorem climbs_of_clean (h : Clean here up cs) (t : List α) : climbs here up t cs = 0 := by
  induction cs generalizing t with
  | nil => rfl
  | cons c cs ih =>
    have hc := (h c List.mem_cons_self).2
    rw [climbs, if_neg fun hup => hc hup.1, ih fun d hd => h d (List.mem_cons_of_mem c hd)]

end Qore.Lib
