import Mathlib.Data.Int.Basic
import Mathlib.Order.Lattice

/-!
# `Qore.Lib.StepFun`: functions of the integers by their jumps

Every function of an integer is constant between its jumps. When the jumps are far apart, two
values are equal exactly when no jump lies between them (`eq_iff_noJump`).
-/

set_option autoImplicit false

namespace Qore.Lib

variable {α : Type*} (f : Int → α)

/-- The function changes its value at `t`. -/
def Jump (t : Int) : Prop := f (t - 1) ≠ f t

/-- No jump after the smaller and up to the larger of `a` and `b`. -/
def NoJump (a b : Int) : Prop := ∀ t, min a b < t → t ≤ max a b → ¬Jump f t

/-- Two jumps are at least `gap` apart. -/
def Spaced (gap : Int) : Prop := ∀ s t, Jump f s → Jump f t → s < t → s + gap ≤ t

variable {f} {a b : Int}

theorem noJump_comm : NoJump f a b ↔ NoJump f b a := by
  unfold NoJump
  rw [min_comm, max_comm]

/-- The function is constant where it does not jump. -/
theorem eq_add_of_noJump (n : Nat) (h : NoJump f a (a + n)) : f a = f (a + n) := by
  induction n with
  | zero => simp
  | succ n ih =>
    have hbefore : NoJump f a (a + n) := by
      intro t hlow hhigh
      exact h t (by omega) (by omega)
    have hlast : f (a + (n + 1 : Nat) - 1) = f (a + (n + 1 : Nat)) := by
      have hno := h (a + (n + 1 : Nat)) (by omega) (by omega)
      exact not_not.mp hno
    rw [ih hbefore, ← hlast]
    congr 1
    omega

theorem NoJump.eq (h : NoJump f a b) : f a = f b := by
  obtain hab | hba := Int.le_total a b
  · obtain ⟨n, rfl⟩ := Int.le.dest hab
    exact eq_add_of_noJump n h
  · obtain ⟨n, rfl⟩ := Int.le.dest hba
    exact (eq_add_of_noJump n (noJump_comm.mp h)).symm

/-- One jump between two places changes the value, if the jumps are spaced more widely than
the places. -/
theorem noJump_of_eq {gap : Int} (hs : Spaced f gap) (hab : a ≤ b) (hgap : b - a ≤ gap)
    (heq : f a = f b) : NoJump f a b := by
  intro t hlow hhigh hjump
  have hbefore : NoJump f a (t - 1) := by
    intro s hs1 hs2 hj
    have := hs s t hj hjump (by omega)
    omega
  have hafter : NoJump f t b := by
    intro s hs1 hs2 hj
    have := hs t s hjump hj (by omega)
    omega
  apply hjump
  rw [← hbefore.eq, heq, hafter.eq]

theorem eq_iff_noJump {gap : Int} (hs : Spaced f gap) (hgap : -gap ≤ b - a ∧ b - a ≤ gap) :
    f a = f b ↔ NoJump f a b := by
  refine ⟨fun heq => ?_, NoJump.eq⟩
  obtain hab | hba := Int.le_total a b
  · exact noJump_of_eq hs hab (by omega) heq
  · exact noJump_comm.mp (noJump_of_eq hs hba (by omega) heq.symm)

end Qore.Lib
