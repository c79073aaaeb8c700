import Mathlib.Logic.Basic

/-!
# `Qore.Lib.Lts`: runs of an executable transition system

A system is a function `step : σ → α → Option (σ × β)`: an action is possible in a state or
not, and a step answers with the next state and an output. `run` performs a list of actions
and collects the outputs.

* `run_invariant`: what every step keeps, every run keeps.
* `Along P` says that every step of a run meets a condition `P` on the state before the step
  and the action, and `Always Q` that every state of a run, the first one included, meets `Q`.
* `always_of_step`, `always_of_along` and `always_iff_along` lead from one to the other. `Along.of_run` and
  `Always.of_run` read them off at a state that a run reaches.
* `Returns`: a call that is open in a state ends, if it does, with a condition. `returns_of_step`
  proves it from what the open call keeps.
* `run_simulation`: two systems whose steps agree have runs that agree.
-/

set_option autoImplicit false

namespace Qore.Lib.Lts

variable {σ α β : Type*} {step : σ → α → Option (σ × β)}

/-- The numbers of threads in the runs on a fixed input. -/
theorem neZero_one : @NeZero Nat Zero.ofOfNat0 1 := ⟨Nat.one_ne_zero⟩

theorem neZero_two : @NeZero Nat Zero.ofOfNat0 2 := ⟨Nat.succ_ne_zero 1⟩

/-- Perform a list of actions; `none` when one of them is not possible. -/
def run (step : σ → α → Option (σ × β)) : σ → List α → Option (σ × List β)
  | s, [] => some (s, [])
  | s, a :: as =>
    match step s a with
    | none => none
    | some (s', b) =>
      match run step s' as with
      | none => none
      | some (s'', bs) => some (s'', b :: bs)

/-- Every step of the run meets the condition `P`. -/
def Along (step : σ → α → Option (σ × β)) (P : σ → α → Prop) : σ → List α → Prop
  | _, [] => True
  | s, a :: as => ∀ s' b, step s a = some (s', b) → P s a ∧ Along step P s' as

/-- Every state of the run meets `Q`. -/
def Always (step : σ → α → Option (σ × β)) (Q : σ → Prop) : σ → List α → Prop
  | s, [] => Q s
  | s, a :: as => Q s ∧ ∀ s' b, step s a = some (s', b) → Always step Q s' as

section
variable {step : σ → α → Option (σ × β)} {P : σ → α → Prop} {I Q : σ → Prop}

/-- A run that starts with an action, taken apart. -/
theorem run_cons {s s'' : σ} {a : α} {as : List α} {bs : List β}
    (h : run step s (a :: as) = some (s'', bs)) :
    ∃ s' b bs', step s a = some (s', b) ∧ run step s' as = some (s'', bs') ∧ bs = b :: bs' := by
  rw [run] at h
  cases h1 : step s a with
  | none => simp [h1] at h
  | some r =>
    obtain ⟨s', b⟩ := r
    simp only [h1] at h
    cases h2 : run step s' as with
    | none => simp [h2] at h
    | some r =>
      obtain ⟨t, bs'⟩ := r
      simp only [h2, Option.some.injEq, Prod.mk.injEq] at h
      exact ⟨s', b, bs', rfl, by rw [h.1] at h2; exact h2, h.2.symm⟩

/-- What every step keeps, every run keeps. -/
theorem run_invariant (hstep : ∀ s a s' b, I s → step s a = some (s', b) → I s') :
    ∀ (as : List α) (s s' : σ) (bs : List β), I s → run step s as = some (s', bs) → I s' := by
  intro as
  induction as with
  | nil =>
    intro s s' bs hI h
    simp only [run, Option.some.injEq, Prod.mk.injEq] at h
    exact h.1 ▸ hI
  | cons a as ih =>
    intro s s' bs hI h
    obtain ⟨s1, b, bs', h1, h2, -⟩ := run_cons h
    exact ih s1 s' bs' (hstep s a s1 b hI h1) h2

/-- A step that meets the condition, and then a run that does. -/
theorem Along.cons {s t : σ} {a : α} {as : List α} {b : β} (h : step s a = some (t, b)) (hP : P s a)
    (hrest : Along step P t as) : Along step P s (a :: as) := by
  intro s' c hstep
  rw [h, Option.some.injEq, Prod.mk.injEq] at hstep
  obtain ⟨rfl, -⟩ := hstep
  exact ⟨hP, hrest⟩

/-- In a run whose steps meet the condition, a property that such steps keep always holds. -/
theorem always_of_along (hstep : ∀ s a s' b, Q s → P s a → step s a = some (s', b) → Q s') :
    ∀ (as : List α) (s : σ), Q s → Along step P s as → Always step Q s as := by
  intro as
  induction as with
  | nil => intro s hQ _; exact hQ
  | cons a as ih =>
    intro s hQ hal
    refine ⟨hQ, fun s' b h => ?_⟩
    obtain ⟨hP, hrest⟩ := hal s' b h
    exact ih s' (hstep s a s' b hQ hP h) hrest

/-- What every step keeps holds in every state of every run. -/
theorem always_of_step (hstep : ∀ s a s' b, Q s → step s a = some (s', b) → Q s') :
    ∀ (as : List α) (s : σ), Q s → Always step Q s as := by
  intro as
  induction as with
  | nil => intro s hQ; exact hQ
  | cons a as ih => intro s hQ; exact ⟨hQ, fun s' b h => ih s' (hstep s a s' b hQ h)⟩

/-- When the condition of a step is exact, the property always holds exactly in the runs whose
steps meet it. -/
theorem always_iff_along (hI : ∀ s a s' b, I s → step s a = some (s', b) → I s')
    (hQ : ∀ s a s' b, I s → Q s → step s a = some (s', b) → (Q s' ↔ P s a)) :
    ∀ (as : List α) (s : σ), I s → Q s → (Always step Q s as ↔ Along step P s as) := by
  intro as
  induction as with
  | nil => intro s _ hq; exact ⟨fun _ => trivial, fun _ => hq⟩
  | cons a as ih =>
    intro s hi hq
    constructor
    · intro hal s' b h
      have hrest := hal.2 s' b h
      have hq' : Q s' := by
        cases as with
        | nil => exact hrest
        | cons _ _ => exact hrest.1
      exact ⟨(hQ s a s' b hi hq h).mp hq', (ih s' (hI s a s' b hi h) hq').mp hrest⟩
    · intro hal
      refine ⟨hq, fun s' b h => ?_⟩
      obtain ⟨hp, hrest⟩ := hal s' b h
      have hq' := (hQ s a s' b hi hq h).mpr hp
      exact (ih s' (hI s a s' b hi h) hq').mpr hrest

/-- A weaker property. -/
theorem Always.mono (hQ : ∀ s, I s → Q s) :
    ∀ (as : List α) (s : σ), Always step I s as → Always step Q s as := by
  intro as
  induction as with
  | nil => intro s h; exact hQ s h
  | cons a as ih => intro s h; exact ⟨hQ s h.1, fun s' b hstep => ih s' (h.2 s' b hstep)⟩

/-- A condition that can be computed is checked along the run. -/
def checkAlong (step : σ → α → Option (σ × β)) (p : σ → α → Bool) : σ → List α → Bool
  | _, [] => true
  | s, a :: as =>
    match step s a with
    | none => true
    | some (s', _) => p s a && checkAlong step p s' as

theorem along_of_check {p : σ → α → Bool} (hp : ∀ s a, p s a = true → P s a) :
    ∀ (as : List α) (s : σ), checkAlong step p s as = true → Along step P s as := by
  intro as
  induction as with
  | nil => intro s _; trivial
  | cons a as ih =>
    intro s h s' b hstep
    simp only [checkAlong, hstep, Bool.and_eq_true] at h
    exact ⟨hp s a h.1, ih s' h.2⟩

/-- The condition of a step that a run reaches. -/
theorem Along.of_run : ∀ (as : List α) {s s' s'' : σ} {bs : List β} {a : α} {b : β},
    Along step P s (as ++ [a]) → run step s as = some (s', bs) → step s' a = some (s'', b) →
      P s' a := by
  intro as
  induction as with
  | nil =>
    intro s s' s'' bs a b hal hrun hstep
    simp only [run, Option.some.injEq, Prod.mk.injEq] at hrun
    rw [← hrun.1] at hstep ⊢
    exact (hal s'' b hstep).1
  | cons c as ih =>
    intro s s' s'' bs a b hal hrun hstep
    obtain ⟨s1, b1, bs1, h1, h2, -⟩ := run_cons hrun
    exact ih (hal s1 b1 h1).2 h2 hstep

/-- The property of a state that a run reaches. -/
theorem Always.of_run : ∀ (as : List α) {s s' : σ} {bs : List β},
    Always step Q s as → run step s as = some (s', bs) → Q s' := by
  intro as
  induction as with
  | nil =>
    intro s s' bs hal hrun
    simp only [run, Option.some.injEq, Prod.mk.injEq] at hrun
    exact hrun.1 ▸ hal
  | cons c as ih =>
    intro s s' bs hal hrun
    obtain ⟨s1, b1, bs1, h1, h2, -⟩ := run_cons hrun
    exact ih (hal.2 s1 b1 h1) h2

/-- A condition that is equivalent in every state of an invariant. -/
theorem along_congr {P' : σ → α → Prop} (hI : ∀ s a s' b, I s → step s a = some (s', b) → I s')
    (hP : ∀ s a, I s → (P s a ↔ P' s a)) :
    ∀ (as : List α) (s : σ), I s → (Along step P s as ↔ Along step P' s as) := by
  intro as
  induction as with
  | nil => intro s _; exact Iff.rfl
  | cons a as ih =>
    intro s hi
    refine forall_congr' fun s' => forall_congr' fun b => forall_congr' fun h => ?_
    rw [hP s a hi, ih s' (hI s a s' b hi h)]

end

/-- A call is open in the state `s`, and `ends` recognises the output of its end. Whatever steps
come before, the step that ends it meets `Post`. -/
def Returns (step : σ → α → Option (σ × β)) (ends : β → Prop) (Post : σ → β → Prop) (s : σ) : Prop :=
  ∀ (as : List α) (s' : σ) (bs : List β) (a : α) (s'' : σ) (b : β), run step s as = some (s', bs) →
    (∀ b ∈ bs, ¬ends b) → step s' a = some (s'', b) → ends b → Post s'' b

/-- What every step keeps that does not end the call holds until the step that ends it. -/
theorem returns_of_step {ends : β → Prop} {Post : σ → β → Prop} {I : σ → Prop}
    (hstep : ∀ s a s' b, I s → step s a = some (s', b) →
      ¬ends b ∧ I s' ∨ ends b ∧ Post s' b) {s : σ} (hI : I s) : Returns step ends Post s := by
  intro as
  induction as generalizing s with
  | nil =>
    intro s' bs a s'' b hrun _ hlast hends
    simp only [run, Option.some.injEq, Prod.mk.injEq] at hrun
    rw [← hrun.1] at hlast
    rcases hstep s a s'' b hI hlast with ⟨hopen, -⟩ | ⟨-, hpost⟩
    · exact absurd hends hopen
    · exact hpost
  | cons c as ih =>
    intro s' bs a s'' b hrun hopen hlast hends
    obtain ⟨s1, b1, bs1, h1, h2, rfl⟩ := run_cons hrun
    obtain ⟨hb1, hrest⟩ := List.forall_mem_cons.mp hopen
    rcases hstep s c s1 b1 hI h1 with ⟨-, hkept⟩ | ⟨hends1, -⟩
    · exact ih hkept s' bs1 a s'' b h2 hrest hlast hends
    · exact absurd hends1 hb1

/-- A relation that every step keeps, with equal outputs, every run keeps. -/
theorem run_simulation {τ : Type*} {step' : τ → α → Option (τ × β)} {R : σ → τ → Prop}
    (hstep : ∀ s t a, R s t →
      Option.Rel (fun x y => R x.1 y.1 ∧ x.2 = y.2) (step s a) (step' t a)) :
    ∀ (as : List α) (s : σ) (t : τ), R s t →
      Option.Rel (fun x y => R x.1 y.1 ∧ x.2 = y.2) (run step s as) (run step' t as) := by
  intro as
  induction as with
  | nil => intro s t hR; exact .some ⟨hR, rfl⟩
  | cons a as ih =>
    intro s t hR
    have h := hstep s t a hR
    rw [run, run]
    generalize step s a = r at h
    generalize step' t a = r' at h
    cases h with
    | none => exact .none
    | @some x y hxy =>
      have hrest := ih x.1 y.1 hxy.1
      simp only
      generalize run step x.1 as = q at hrest
      generalize run step' y.1 as = q' at hrest
      cases hrest with
      | none => exact .none
      | some hq => exact .some ⟨hq.1, by rw [hxy.2, hq.2]⟩

end Qore.Lib.Lts
