import Mathlib.Logic.Basic

/-!
# `Qore.Lib.Loop`: loops that may not end

The step of a loop goes on with a new state or ends the loop with a result. `loop` runs at most a
given number of rounds, and `Halts` says that some number of rounds is enough.

* `exists_halts`: a loop ends when every round makes a measure smaller.
* `Halts.result`: what an invariant says about the result.
* `not_halts`: a loop does not end when an invariant lets it always go on.
-/

set_option autoImplicit false

namespace Qore.Lib

section
variable {σ α : Type}

/-- At most `fuel` rounds; `none` when the loop has not ended by then. -/
def loop (step : σ → σ ⊕ α) : Nat → σ → Option α
  | 0, _ => none
  | fuel + 1, s =>
    match step s with
    | .inl s' => loop step fuel s'
    | .inr a => some a

/-- The loop that begins in `s` ends with `a`. -/
def Halts (step : σ → σ ⊕ α) (s : σ) (a : α) : Prop := ∃ fuel, loop step fuel s = some a

variable {step : σ → σ ⊕ α} {s s' : σ} {a b : α} {I : σ → Prop}

theorem loop_of_inl (h : step s = .inl s') (fuel : Nat) :
    loop step (fuel + 1) s = loop step fuel s' := by
  rw [loop, h]

theorem loop_of_inr (h : step s = .inr a) (fuel : Nat) : loop step (fuel + 1) s = some a := by
  rw [loop, h]

theorem halts_of_inr (h : step s = .inr a) : Halts step s a := ⟨1, loop_of_inr h 0⟩

/-- A round more before the loop. -/
theorem halts_of_inl (h : step s = .inl s') : Halts step s a ↔ Halts step s' a := by
  constructor
  · rintro ⟨fuel, hfuel⟩
    cases fuel with
    | zero => cases hfuel
    | succ fuel => exact ⟨fuel, by rwa [loop_of_inl h] at hfuel⟩
  · rintro ⟨fuel, hfuel⟩
    exact ⟨fuel + 1, by rwa [loop_of_inl h]⟩

/-- An invariant of the rounds holds when the last round begins. -/
theorem Halts.result {P : α → Prop} (h : Halts step s a) (hs : I s)
    (hround : ∀ s s', I s → step s = .inl s' → I s') (hend : ∀ s a, I s → step s = .inr a → P a) :
    P a := by
  obtain ⟨fuel, hfuel⟩ := h
  induction fuel generalizing s with
  | zero => cases hfuel
  | succ fuel ih =>
    cases hstep : step s with
    | inl s' =>
      rw [loop_of_inl hstep] at hfuel
      exact ih (hround s s' hs hstep) hfuel
    | inr b =>
      rw [loop_of_inr hstep] at hfuel
      cases hfuel
      exact hend s _ hs hstep

/-- Every round keeps the invariant and makes the measure smaller. -/
theorem exists_halts (μ : σ → Nat) (hs : I s)
    (hround : ∀ s s', I s → step s = .inl s' → I s' ∧ μ s' < μ s) : ∃ a, Halts step s a := by
  induction hn : μ s using Nat.strongRecOn generalizing s with
  | _ n ih =>
    cases hstep : step s with
    | inr a => exact ⟨a, halts_of_inr hstep⟩
    | inl s' =>
      obtain ⟨hs', hlt⟩ := hround s s' hs hstep
      obtain ⟨a, ha⟩ := ih (μ s') (hn ▸ hlt) hs' rfl
      exact ⟨a, (halts_of_inl hstep).mpr ha⟩

/-- From the states of the invariant there is always a further round. -/
theorem not_halts (hs : I s) (hround : ∀ s, I s → ∃ s', step s = .inl s' ∧ I s') :
    ¬Halts step s a := by
  rintro ⟨fuel, hfuel⟩
  induction fuel generalizing s with
  | zero => cases hfuel
  | succ fuel ih =>
    obtain ⟨s', hstep, hs'⟩ := hround s hs
    rw [loop_of_inl hstep] at hfuel
    exact ih hs' hfuel

end

end Qore.Lib
