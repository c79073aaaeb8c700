import Mathlib.Logic.Basic

/-!
# `Qore.Lib.Program`: programs over a state that can fail

A program reads and changes a state, and ends with a value or a failure. The state is kept in both
cases. `Agree R E m n` says that two programs over different states go the same way: from states
related by `R` both end with the same value, or with failures related by `E`, and again in related
states.

* `Agree.bind`: programs that agree can be put together.
* `Agree.iterate`: loops agree when their bodies do and one of them ends.
-/

set_option autoImplicit false

namespace Qore.Lib

section
variable {σ τ ε α β : Type}

/-- A program over a state. -/
def Program (σ ε α : Type) := σ → Except ε α × σ

namespace Program

def pure (a : α) : Program σ ε α := fun s => (.ok a, s)

def throw (e : ε) : Program σ ε α := fun s => (.error e, s)

def bind (m : Program σ ε α) (f : α → Program σ ε β) : Program σ ε β := fun s =>
  match m s with
  | (.ok a, s') => f a s'
  | (.error e, s') => (.error e, s')

/-- Repeat a step until it has a result. The loop fails with `e` when it takes more than `fuel`
steps. -/
def iterate (step : β → Program σ ε (β ⊕ α)) (e : ε) : Nat → β → Program σ ε α
  | 0, _ => throw e
  | fuel + 1, b => (step b).bind fun
    | .inl b' => iterate step e fuel b'
    | .inr a => pure a

/-- The outcomes are the same value, or related failures. -/
inductive SameOutcome (E : ε → ε → Prop) : Except ε α → Except ε α → Prop
  | ok (a : α) : SameOutcome E (.ok a) (.ok a)
  | error {e e' : ε} (h : E e e') : SameOutcome E (.error e) (.error e')

/-- From related states, both programs have the same outcome and end in related states. -/
def Agree (R : σ → τ → Prop) (E : ε → ε → Prop) (m : Program σ ε α) (n : Program τ ε α) : Prop :=
  ∀ s t, R s t → SameOutcome E (m s).1 (n t).1 ∧ R (m s).2 (n t).2

section
variable {R : σ → τ → Prop} {E : ε → ε → Prop} {m : Program σ ε α}

theorem Agree.pure (a : α) : Agree R E (.pure a) (.pure a) :=
  fun _ _ h => ⟨.ok a, h⟩

theorem Agree.throw {e e' : ε} (h : E e e') :
    Agree R E (.throw e : Program σ ε α) (.throw e') :=
  fun _ _ hR => ⟨.error h, hR⟩

theorem Agree.bind {n : Program τ ε α} {f : α → Program σ ε β} {g : α → Program τ ε β}
    (h : Agree R E m n) (hrest : ∀ a, Agree R E (f a) (g a)) :
    Agree R E (m.bind f) (n.bind g) := by
  intro s t hR
  obtain ⟨hout, hst⟩ := h s t hR
  unfold Program.bind
  rcases hm : m s with ⟨rm, s'⟩
  rcases hn : n t with ⟨rn, t'⟩
  rw [hm, hn] at hout hst
  cases hout with
  | ok a => exact hrest a s' t' hst
  | error he => exact ⟨.error he, hst⟩

theorem bind_of_ok {s s' : σ} {a : α} (h : m s = (.ok a, s')) (f : α → Program σ ε β) :
    m.bind f s = f a s' := by
  unfold Program.bind
  rw [h]

theorem bind_of_error {s : σ} {e : ε} (h : (m s).1 = .error e) (f : α → Program σ ε β) :
    (m.bind f s).1 = .error e := by
  unfold Program.bind
  rcases hm : m s with ⟨r, s'⟩
  rw [hm] at h
  dsimp only at h
  rw [h]

/-- Two loops agree when their steps agree as long as an invariant `I` holds, and every step of the
second one that goes on keeps `I` and makes `μ` smaller. -/
theorem Agree.iterate {step : β → Program σ ε (β ⊕ α)} {step' : β → Program τ ε (β ⊕ α)}
    {I : β → Prop} {μ : τ → Nat} (e : ε) (h : ∀ b, I b → Agree R E (step b) (step' b))
    (hsmaller : ∀ b t b' t', I b → step' b t = (.ok (.inl b'), t') → I b' ∧ μ t' < μ t)
    (fuel : Nat) {b : β} (hI : I b) {s : σ} {t : τ} (hR : R s t) (hfuel : μ t < fuel) :
    SameOutcome E (iterate step e fuel b s).1 (iterate step' e fuel b t).1 ∧
      R (iterate step e fuel b s).2 (iterate step' e fuel b t).2 := by
  induction fuel generalizing b s t with
  | zero => omega
  | succ fuel ih =>
    obtain ⟨hout, hst⟩ := h b hI s t hR
    unfold Program.iterate Program.bind
    rcases hm : step b s with ⟨rm, s'⟩
    rcases hn : step' b t with ⟨rn, t'⟩
    rw [hm, hn] at hout hst
    cases hout with
    | error he => exact ⟨.error he, hst⟩
    | ok r =>
      cases r with
      | inr a => exact ⟨.ok a, hst⟩
      | inl b' =>
        obtain ⟨hI', hlt⟩ := hsmaller b t b' t' hI hn
        exact ih hI' hst (by omega)

end

end Program

end

end Qore.Lib
