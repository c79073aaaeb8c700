import Mathlib.Data.List.Count
import Mathlib.Data.List.Nodup
import Mathlib.Logic.Function.Basic
import Mathlib.Logic.ExistsUnique

/-!
# `Qore.Lib.Partition`: resources that are free or owned

A list of free resources and a function from the users to the resource that each of them owns.
`Partition live free owner` says that every live resource is in the list once or owned by one
user, and that nothing else is in the list or owned.

* `Partition.take`, `Partition.grow` and `Partition.release`: a user takes the first free
  resource, gets a new one, or gives its own one back.
* `Partition.exclusive`: the same in terms of the number of times a resource is in the list
  and of the number of users that own it.
-/

set_option autoImplicit false

namespace Qore.Lib

open Function (update)

variable {ι T : Type}

/-- Every live resource is free or has one owner. -/
structure Partition (live : ι → Prop) (free : List ι) (owner : T → Option ι) : Prop where
  nodup : free.Nodup
  live_free : ∀ {i}, i ∈ free → live i
  live_owned : ∀ {t i}, owner t = some i → live i
  disjoint : ∀ {t i}, owner t = some i → i ∉ free
  unique : ∀ {t u i}, owner t = some i → owner u = some i → t = u
  cover : ∀ {i}, live i → i ∈ free ∨ ∃ t, owner t = some i

namespace Partition

variable {live : ι → Prop} {free : List ι} {owner : T → Option ι} {t : T} {i : ι}

/-- Other names for the same live resources. -/
theorem congr {live' : ι → Prop} (h : Partition live free owner) (hl : ∀ i, live' i ↔ live i) :
    Partition live' free owner where
  nodup := h.nodup
  live_free := fun hi => (hl _).mpr (h.live_free hi)
  live_owned := fun ho => (hl _).mpr (h.live_owned ho)
  disjoint := h.disjoint
  unique := h.unique
  cover := fun hi => h.cover ((hl _).mp hi)

/-- Nobody owns anything. -/
theorem of_free (hnodup : free.Nodup) :
    Partition (fun i => i ∈ free) free (fun _ : T => none) where
  nodup := hnodup
  live_free := fun hi => hi
  live_owned := fun ho => by cases ho
  disjoint := fun ho => by cases ho
  unique := fun ho => by cases ho
  cover := fun hi => .inl hi

/-- A live resource is in the list exactly once and without an owner, or not in the list and
with exactly one owner. -/
theorem exclusive [DecidableEq ι] (h : Partition live free owner) (hi : live i) :
    (free.count i = 1 ∧ ∀ t, owner t ≠ some i) ∨ (free.count i = 0 ∧ ∃! t, owner t = some i) := by
  by_cases hmem : i ∈ free
  · exact .inl ⟨List.count_eq_one_of_mem h.nodup hmem, fun t ht => h.disjoint ht hmem⟩
  · obtain ⟨t, ht⟩ := (h.cover hi).resolve_left hmem
    exact .inr ⟨List.count_eq_zero_of_not_mem hmem, t, ht, fun u hu => h.unique hu ht⟩

variable [DecidableEq T]

/-- What a user owns after a change of its own entry. -/
theorem update_eq_some {o : Option ι} {u : T} {j : ι} (h : update owner t o u = some j) :
    (u = t ∧ o = some j) ∨ (u ≠ t ∧ owner u = some j) := by
  by_cases hu : u = t
  · rw [hu, Function.update_self] at h
    exact .inl ⟨hu, h⟩
  · rw [Function.update_of_ne hu] at h
    exact .inr ⟨hu, h⟩

/-- A user gets a resource that is live from now on and that nobody has. -/
theorem grow {live' : ι → Prop} (h : Partition live free owner) (ht : owner t = none)
    (hi : ¬ live i) (hl : ∀ j, live' j ↔ live j ∨ j = i) :
    Partition live' free (update owner t (some i)) where
  nodup := h.nodup
  live_free := fun hj => (hl _).mpr (.inl (h.live_free hj))
  live_owned := by
    intro u j hu
    rcases update_eq_some hu with ⟨-, hij⟩ | ⟨-, hu⟩
    · exact (hl j).mpr (.inr (Option.some.inj hij).symm)
    · exact (hl j).mpr (.inl (h.live_owned hu))
  disjoint := by
    intro u j hu hj
    rcases update_eq_some hu with ⟨-, hij⟩ | ⟨-, hu⟩
    · rw [← Option.some.inj hij] at hj
      exact hi (h.live_free hj)
    · exact h.disjoint hu hj
  unique := by
    intro u v j hu hv
    rcases update_eq_some hu with ⟨hut, hij⟩ | ⟨-, hu⟩
    · rcases update_eq_some hv with ⟨hvt, -⟩ | ⟨-, hv⟩
      · rw [hut, hvt]
      · rw [← Option.some.inj hij] at hv
        exact absurd (h.live_owned hv) hi
    · rcases update_eq_some hv with ⟨-, hij⟩ | ⟨-, hv⟩
      · rw [← Option.some.inj hij] at hu
        exact absurd (h.live_owned hu) hi
      · exact h.unique hu hv
  cover := by
    intro j hj
    rcases (hl j).mp hj with hj | rfl
    · rcases h.cover hj with hfree | ⟨u, hu⟩
      · exact .inl hfree
      · have hne : u ≠ t := fun hut => by rw [hut, ht] at hu; cases hu
        exact .inr ⟨u, by rw [Function.update_of_ne hne, hu]⟩
    · exact .inr ⟨t, Function.update_self ..⟩

/-- A user takes the first free resource: without it the rest is a partition, and the user gets
it as a new one. -/
theorem take (h : Partition live (i :: free) owner) (ht : owner t = none) :
    Partition live free (update owner t (some i)) := by
  have hnot : i ∉ free := (List.nodup_cons.mp h.nodup).1
  have hrest : Partition (fun j => live j ∧ j ≠ i) free owner :=
    { nodup := (List.nodup_cons.mp h.nodup).2
      live_free := fun hj => ⟨h.live_free (List.mem_cons_of_mem i hj), fun hji => hnot (hji ▸ hj)⟩
      live_owned := fun ho => ⟨h.live_owned ho, fun hji => h.disjoint ho (by rw [hji]; simp)⟩
      disjoint := fun ho hj => h.disjoint ho (List.mem_cons_of_mem i hj)
      unique := h.unique
      cover := fun hj => (h.cover hj.1).imp_left fun hmem => (List.mem_cons.mp hmem).resolve_left hj.2 }
  refine hrest.grow ht (fun hi => hi.2 rfl) fun j => ?_
  constructor
  · intro hj
    by_cases hji : j = i
    · exact .inr hji
    · exact .inl ⟨hj, hji⟩
  · rintro (hj | rfl)
    · exact hj.1
    · exact h.live_free (by simp)

/-- A user gives its resource back to the end of the list. -/
theorem release (h : Partition live free owner) (ht : owner t = some i) :
    Partition live (free ++ [i]) (update owner t none) where
  nodup := by
    rw [List.nodup_append]
    refine ⟨h.nodup, List.nodup_singleton i, fun a ha b hb hab => ?_⟩
    rw [hab, List.mem_singleton.mp hb] at ha
    exact h.disjoint ht ha
  live_free := by
    intro j hj
    rcases List.mem_append.mp hj with hj | hj
    · exact h.live_free hj
    · rw [List.mem_singleton.mp hj]
      exact h.live_owned ht
  live_owned := by
    intro u j hu
    rcases update_eq_some hu with ⟨-, hn⟩ | ⟨-, hu⟩
    · cases hn
    · exact h.live_owned hu
  disjoint := by
    intro u j hu hj
    rcases update_eq_some hu with ⟨-, hn⟩ | ⟨hne, hu⟩
    · cases hn
    · rcases List.mem_append.mp hj with hj | hj
      · exact h.disjoint hu hj
      · rw [List.mem_singleton.mp hj] at hu
        exact hne (h.unique hu ht)
  unique := by
    intro u v j hu hv
    rcases update_eq_some hu with ⟨-, hn⟩ | ⟨-, hu⟩
    · cases hn
    · rcases update_eq_some hv with ⟨-, hn⟩ | ⟨-, hv⟩
      · cases hn
      · exact h.unique hu hv
  cover := by
    intro j hj
    rcases h.cover hj with hfree | ⟨u, hu⟩
    · exact .inl (List.mem_append_left [i] hfree)
    · by_cases hut : u = t
      · rw [hut, ht] at hu
        exact .inl (by rw [Option.some.inj hu]; simp)
      · exact .inr ⟨u, by rw [Function.update_of_ne hut, hu]⟩

end Partition

end Qore.Lib
