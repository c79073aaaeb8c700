import Mathlib.Data.List.Forall2
import Qore.Lib.Program

/-!
# `Qore.Lib.Consume`: programs that take tokens from a stream

`At s ts` says that the tokens `ts` are left in the state `s`. `Consumes At m ts x` says what the
program `m` does with the tokens `ts`, whatever follows them: it ends with `x`, and when `x` is a
value then `ts` is gone and what follows is left.

* `Consumes.bind`: a part takes its tokens, and the next part takes the tokens behind them.
* `Consumes.forN`: a loop over tokens that come in pieces, one piece for every round.
-/

set_option autoImplicit false

namespace Qore.Lib

variable {σ τ ε α β γ : Type}

instance : Monad (Program σ ε) where
  pure := Program.pure
  bind := Program.bind

/-- `for (i = 0; i < n; ++i)` with a variable `b`. -/
def Program.forN (step : β → Program σ ε β) : Nat → β → Program σ ε β
  | 0, b => Program.pure b
  | n + 1, b => (step b).bind fun b => forN step n b

/-- The program takes the tokens `ts` and ends with `x`. -/
def Consumes (At : σ → List τ → Prop) (m : Program σ ε α) (ts : List τ) (x : Except ε α) : Prop :=
  ∀ s rest, At s (ts ++ rest) → (m s).1 = x ∧ ∀ a, x = .ok a → At (m s).2 rest

/-- The program looks at the next token. -/
def Peeks (At : σ → List τ → Prop) (m : Program σ ε α) (t : τ) (a : α) : Prop :=
  ∀ s rest, At s (t :: rest) → (m s).1 = .ok a ∧ At (m s).2 (t :: rest)

/-- A fact about the pieces, where each of them is no longer than all together. -/
theorem forall₂_pieces {R S : γ → List τ → Prop} {xs : List γ} {ps : List (List τ)}
    (h : List.Forall₂ R xs ps)
    (himp : ∀ x ∈ xs, ∀ p, p.length ≤ ps.flatten.length → R x p → S x p) :
    List.Forall₂ S xs ps := by
  induction h with
  | nil => exact .nil
  | @cons x p xs ps hx _ ih =>
    have hlen : (p :: ps).flatten.length = p.length + ps.flatten.length := by
      rw [List.flatten_cons, List.length_append]
    refine .cons (himp x (List.mem_cons_self ..) p (by omega) hx) (ih ?_)
    intro y hy q hq
    exact himp y (List.mem_cons_of_mem _ hy) q (by omega)

section
variable {At : σ → List τ → Prop} {ts us : List τ} {m : Program σ ε α} {f : α → Program σ ε β}

theorem Consumes.pure (a : α) : Consumes At (Pure.pure a : Program σ ε α) [] (.ok a) := by
  intro s rest h
  refine ⟨rfl, ?_⟩
  rintro _ ⟨⟩
  exact h

theorem Consumes.throw (e : ε) (ts : List τ) :
    Consumes At (Program.throw e : Program σ ε α) ts (.error e) :=
  fun _ _ _ => ⟨rfl, fun _ h => by cases h⟩

/-- A value is passed on to the next part. -/
theorem Consumes.bind {a : α} {y : Except ε β} (hm : Consumes At m ts (.ok a))
    (hf : Consumes At (f a) us y) :
    Consumes At (m >>= f) (ts ++ us) y := by
  intro s rest h
  rw [List.append_assoc] at h
  obtain ⟨hout, hleft⟩ := hm s (us ++ rest) h
  have hrun : (m >>= f) s = f a (m s).2 := by
    show Program.bind m f s = _
    unfold Program.bind
    rcases hms : m s with ⟨r, s'⟩
    rw [hms] at hout
    dsimp only at hout
    rw [hout]
  rw [hrun]
  exact hf _ _ (hleft a rfl)

/-- After a failure the next part does not run. -/
theorem Consumes.bind_error (f : α → Program σ ε β) {e : ε} (hm : Consumes At m ts (.error e))
    (us : List τ) :
    Consumes At (m >>= f) (ts ++ us) (.error e) := by
  intro s rest h
  rw [List.append_assoc] at h
  obtain ⟨hout, -⟩ := hm s (us ++ rest) h
  exact ⟨Program.bind_of_error hout f, fun _ h => by cases h⟩

/-- Two parts, when the second one depends on the outcome of the first. -/
theorem Consumes.bind_except {x : Except ε α} {y : α → Except ε β} (hm : Consumes At m ts x)
    (hf : ∀ a, x = .ok a → Consumes At (f a) us (y a)) :
    Consumes At (m >>= f) (ts ++ us) (x.bind y) := by
  cases x with
  | error e => exact hm.bind_error f us
  | ok a => exact hm.bind (hf a rfl)

/-- A last part that takes nothing. -/
theorem Consumes.map {x : Except ε α} (hm : Consumes At m ts x) (f : α → β) :
    Consumes At (m >>= fun a => Pure.pure (f a)) ts (x.map f) := by
  rw [← List.append_nil ts]
  cases x with
  | error e => exact hm.bind_error _ []
  | ok a => exact hm.bind (Consumes.pure (f a))

theorem Consumes.map_ok {a : α} (hm : Consumes At m ts (.ok a)) (f : α → β) :
    Consumes At (m >>= fun a => Pure.pure (f a)) ts (.ok (f a)) :=
  hm.map f

/-- The next token is still there for the next part. -/
theorem Peeks.bind {t : τ} {a : α} {y : Except ε β} (hm : Peeks At m t a)
    (hf : Consumes At (f a) (t :: ts) y) :
    Consumes At (m >>= f) (t :: ts) y := by
  intro s rest h
  obtain ⟨hout, hleft⟩ := hm s (ts ++ rest) h
  have hrun : (m >>= f) s = f a (m s).2 := by
    show Program.bind m f s = _
    unfold Program.bind
    rcases hms : m s with ⟨r, s'⟩
    rw [hms] at hout
    dsimp only at hout
    rw [hout]
  rw [hrun]
  exact hf _ _ hleft

/-- Every round of a loop takes its piece, and the variable goes through `upd`. -/
theorem Consumes.forN {step : β → Program σ ε β} {upd : β → γ → Except ε β} {xs : List γ}
    {ps : List (List τ)}
    (h : List.Forall₂ (fun x p => ∀ b, Consumes At (step b) p (upd b x)) xs ps) (b : β) :
    Consumes At (Program.forN step xs.length b) ps.flatten (xs.foldlM upd b) := by
  induction h generalizing b with
  | nil => exact Consumes.pure b
  | @cons x p xs ps hx hxs ih => exact (hx b).bind_except fun b' _ => ih b'

end

end Qore.Lib
