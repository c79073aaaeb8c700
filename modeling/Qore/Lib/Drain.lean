import Mathlib.Data.List.Basic

/-!
# `Qore.Lib.Drain`: the values of an iterator

An iterator is a function that gives the next value and the next state, or nothing at its end.
`Drains next s as` says that repeated calls from the state `s` give the values `as` and then end.
`drain` collects them with a bound for the number of calls.

* `Drains.unique`: an iterator has one sequence of values.
* `Drains.drain_eq`: with enough calls they are collected.
-/

set_option autoImplicit false

namespace Qore.Lib

section
variable {σ α : Type} {next : σ → Option (α × σ)}

/-- Repeated calls give the values and then end. -/
inductive Drains (next : σ → Option (α × σ)) : σ → List α → Prop
  | done {s : σ} : next s = none → Drains next s []
  | step {s s' : σ} {a : α} {as : List α} :
      next s = some (a, s') → Drains next s' as → Drains next s (a :: as)

/-- The values of at most `fuel` calls. -/
def drain (next : σ → Option (α × σ)) : Nat → σ → List α
  | 0, _ => []
  | fuel + 1, s =>
    match next s with
    | none => []
    | some (a, s') => a :: drain next fuel s'

theorem Drains.unique {s : σ} {as bs : List α} (h : Drains next s as) (h' : Drains next s bs) :
    as = bs := by
  induction h generalizing bs with
  | done hnone =>
    cases h' with
    | done => rfl
    | step hsome => rw [hnone] at hsome; cases hsome
  | step hsome _ ih =>
    cases h' with
    | done hnone => rw [hnone] at hsome; cases hsome
    | step hsome' hrest =>
      rw [hsome] at hsome'
      cases hsome'
      rw [ih hrest]

/-- The values depend on the next call only. -/
theorem Drains.of_next_eq {s t : σ} {as : List α} (h : Drains next s as)
    (heq : next t = next s) : Drains next t as := by
  cases h with
  | done hnone => exact .done (heq.trans hnone)
  | step hsome hrest => exact .step (heq.trans hsome) hrest

theorem Drains.drain_eq {s : σ} {as : List α} (h : Drains next s as) {fuel : Nat}
    (hfuel : as.length < fuel) : drain next fuel s = as := by
  induction h generalizing fuel with
  | done hnone =>
    obtain ⟨fuel, rfl⟩ : ∃ n, fuel = n + 1 := ⟨fuel - 1, by omega⟩
    simp only [drain, hnone]
  | step hsome _ ih =>
    rw [List.length_cons] at hfuel
    obtain ⟨fuel, rfl⟩ : ∃ n, fuel = n + 1 := ⟨fuel - 1, by omega⟩
    simp only [drain, hsome, ih (show _ < fuel by omega)]

end

end Qore.Lib
