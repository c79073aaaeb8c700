import Mathlib.Data.Finset.Basic
import Mathlib.Data.Finset.Dedup

/-!
# `Qore.Lib.Ledger`: resources that are acquired and released

A ledger lists the uses of resources, the last one first. `held` replays it: nothing can be
acquired while it is held, and only what is held can be released, so a ledger that replays to the
empty set releases every resource exactly once for each time that it acquires it.

* `held_acquire` and `held_release`: one more use.
* `held_releaseAll`: the release of a list of different resources.
-/

set_option autoImplicit false

namespace Qore.Lib.Ledger

variable {α : Type*}

/-- One use of a resource. -/
inductive Use (α : Type*)
  | acquire (a : α)
  | release (a : α)

/-- The release of every element of a list, in its order. -/
def releaseAll (as : List α) (uses : List (Use α)) : List (Use α) :=
  as.foldl (fun uses a => .release a :: uses) uses

variable [DecidableEq α] {uses : List (Use α)} {s : Finset α}

/-- The resources that are held after the uses; `none` after a use that was not possible. -/
def held : List (Use α) → Option (Finset α)
  | [] => some ∅
  | .acquire a :: uses => (held uses).bind fun s => if a ∈ s then none else some (insert a s)
  | .release a :: uses => (held uses).bind fun s => if a ∈ s then some (s.erase a) else none

theorem held_acquire (h : held uses = some s) {a : α} (ha : a ∉ s) :
    held (.acquire a :: uses) = some (insert a s) := by
  rw [held, h, Option.bind_some, if_neg ha]

theorem held_release (h : held uses = some s) {a : α} (ha : a ∈ s) :
    held (.release a :: uses) = some (s.erase a) := by
  rw [held, h, Option.bind_some, if_pos ha]

/-- Different resources that are held can be released one after the other. -/
theorem held_releaseAll {as : List α} (hnodup : as.Nodup) (h : held uses = some s)
    (has : ∀ a ∈ as, a ∈ s) :
    held (releaseAll as uses) = some (s \ as.toFinset) := by
  induction as generalizing uses s with
  | nil =>
    rw [List.toFinset_nil, Finset.sdiff_empty]
    exact h
  | cons a as ih =>
    obtain ⟨hnot, hrest⟩ := List.nodup_cons.mp hnodup
    obtain ⟨ha, has⟩ := List.forall_mem_cons.mp has
    have hkept : ∀ b ∈ as, b ∈ s.erase a := fun b hb =>
      Finset.mem_erase.mpr ⟨fun hba => hnot (hba ▸ hb), has b hb⟩
    have hset : s \ (a :: as).toFinset = s.erase a \ as.toFinset := by
      ext b
      simp only [Finset.mem_sdiff, List.mem_toFinset, List.mem_cons, Finset.mem_erase]
      tauto
    rw [hset]
    exact ih hrest (held_release h ha) hkept

end Qore.Lib.Ledger
