import Mathlib.Data.List.Nodup
import Mathlib.Data.List.Basic

/-!
# `Qore.Lib.OrderedMap`: maps that remember the order of their keys

An `OrderedMap` is its entries in the order in which the keys were added, with distinct keys. A
change of the map is a key with an optional value: with a value the entry of the key gets that
value, without one the key only gets its place.

* `put`: a new key goes last, a key that is there keeps its position.
* `overlay`: many changes at once. The entries that are there are changed in place, and the new
  keys follow in the order of the changes. `overlay_cons` says that it is `put` repeated.
* `remove`: the other entries keep their order. `put_remove` says that a key that is removed and
  added again goes last.
* `next` and `prev` are the neighbours of an element of a list; `next_map` and `prev_map` move
  them to a list of images.
-/

set_option autoImplicit false

namespace Qore.Lib

/-- Entries in the order in which their keys were added. -/
@[ext]
structure OrderedMap (K V : Type*) where
  entries : List (K × V)
  nodup : (entries.map Prod.fst).Nodup

namespace OrderedMap

variable {K V : Type*} [DecidableEq K] {W : Type*}

/-- The keys in order. -/
def keys (m : OrderedMap K V) : List K := m.entries.map Prod.fst

/-- No entries. -/
def empty : OrderedMap K V := ⟨[], List.nodup_nil⟩

/-- The value of a key. -/
def get? (m : OrderedMap K V) (k : K) : Option V := (m.entries.find? fun e => e.1 = k).map Prod.snd

/-- An entry after a change of the key `k`. -/
def change (k : K) (o : Option V) (e : K × V) : K × V := if e.1 = k then (e.1, o.getD e.2) else e

omit [DecidableEq K] in
theorem fst_comp (f : K × V → K × W) (hf : ∀ e, (f e).1 = e.1) (l : List (K × V)) :
    (l.map f).map Prod.fst = l.map Prod.fst := by
  rw [List.map_map]
  exact List.map_congr_left fun e _ => hf e

theorem change_fst (k : K) (o : Option V) (e : K × V) : (change k o e).1 = e.1 := by
  unfold change
  split <;> rfl

omit [DecidableEq K] in
theorem nodup_put (m : OrderedMap K V) (k : K) (v : V) (h : k ∉ m.keys) :
    ((m.entries ++ [(k, v)]).map Prod.fst).Nodup := by
  rw [List.map_append]
  refine List.Nodup.append m.nodup (List.nodup_singleton k) ?_
  intro a ha hb
  rw [List.map_singleton, List.mem_singleton] at hb
  rw [hb] at ha
  exact h ha

/-- Change one key: in place when it is there, at the end when it is not. -/
def put (dflt : V) (m : OrderedMap K V) (k : K) (o : Option V) : OrderedMap K V :=
  if h : k ∈ m.keys then
    ⟨m.entries.map (change k o), by rw [fst_comp _ (change_fst k o)]; exact m.nodup⟩
  else ⟨m.entries ++ [(k, o.getD dflt)], m.nodup_put k _ h⟩

/-- Drop one key. -/
def remove (m : OrderedMap K V) (k : K) : OrderedMap K V :=
  ⟨m.entries.filter fun e => e.1 ≠ k, m.nodup.sublist ((List.filter_sublist).map _)⟩

/-- The map with other values. -/
def mapVals {W : Type*} (f : V → W) (m : OrderedMap K V) : OrderedMap K W :=
  ⟨m.entries.map fun e => (e.1, f e.2), by rw [fst_comp (fun e => (e.1, f e.2)) fun _ => rfl]; exact m.nodup⟩

/-- The entry of a key that is there, after all the changes. -/
def changed (u : OrderedMap K (Option V)) (e : K × V) : K × V :=
  (e.1, ((u.get? e.1).bind id).getD e.2)

/-- The entries of the keys that are not there. -/
def added (dflt : V) (m : OrderedMap K V) (u : OrderedMap K (Option V)) : List (K × V) :=
  (u.entries.filter fun e => e.1 ∉ m.keys).map fun e => (e.1, e.2.getD dflt)

theorem nodup_overlay (dflt : V) (m : OrderedMap K V) (u : OrderedMap K (Option V)) :
    ((m.entries.map (changed u) ++ added dflt m u).map Prod.fst).Nodup := by
  rw [List.map_append, fst_comp (changed u) fun _ => rfl]
  unfold added
  rw [List.map_map]
  refine List.Nodup.append m.nodup (u.nodup.sublist ((List.filter_sublist).map _)) ?_
  intro a ha hb
  obtain ⟨e, he, rfl⟩ := List.mem_map.mp hb
  have hnew := List.of_mem_filter he
  exact (of_decide_eq_true hnew) ha

/-- All the changes of `u`: the entries that are there are changed in place, the new keys follow
in the order of `u`. -/
def overlay (dflt : V) (m : OrderedMap K V) (u : OrderedMap K (Option V)) : OrderedMap K V :=
  ⟨m.entries.map (changed u) ++ added dflt m u, nodup_overlay dflt m u⟩

section
variable {dflt : V} {m : OrderedMap K V} {k : K} {o : Option V}

theorem put_of_mem (h : k ∈ m.keys) : (m.put dflt k o).entries = m.entries.map (change k o) := by
  unfold put
  rw [dif_pos h]

theorem put_of_notMem (h : k ∉ m.keys) :
    (m.put dflt k o).entries = m.entries ++ [(k, o.getD dflt)] := by
  unfold put
  rw [dif_neg h]

theorem keys_put (h : k ∈ m.keys) : (m.put dflt k o).keys = m.keys := by
  unfold keys
  rw [put_of_mem h, fst_comp _ (change_fst k o)]

theorem keys_put_new (h : k ∉ m.keys) : (m.put dflt k o).keys = m.keys ++ [k] := by
  unfold keys
  rw [put_of_notMem h, List.map_append]
  rfl

/-- The keys of a map after a change. -/
theorem mem_keys_put {k' : K} : k' ∈ (m.put dflt k o).keys ↔ k' ∈ m.keys ∨ k' = k := by
  by_cases h : k ∈ m.keys
  · rw [keys_put h]
    constructor
    · exact Or.inl
    · rintro (h' | rfl)
      · exact h'
      · exact h
  · rw [keys_put_new h, List.mem_append, List.mem_singleton]

/-- A key that is removed is not there. -/
theorem notMem_keys_remove : k ∉ (m.remove k).keys := by
  intro h
  obtain ⟨e, he, hk⟩ := List.mem_map.mp h
  have := List.of_mem_filter he
  exact (of_decide_eq_true this) hk

/-- A key that only gets its place, when it has one. -/
theorem put_none_of_mem (h : k ∈ m.keys) : m.put dflt k none = m := by
  apply OrderedMap.ext
  rw [put_of_mem h]
  have hid : ∀ e ∈ m.entries, change k none e = e := by
    intro e _
    unfold change
    split <;> rfl
  rw [List.map_congr_left hid, List.map_id']

/-- A key that gets its place first and then its value. -/
theorem put_put (v : V) : (m.put dflt k none).put dflt k (some v) = m.put dflt k (some v) := by
  by_cases h : k ∈ m.keys
  · rw [put_none_of_mem h]
  · apply OrderedMap.ext
    rw [put_of_mem (mem_keys_put.mpr (.inr rfl)), put_of_notMem h, put_of_notMem h, List.map_append]
    have hold : ∀ e ∈ m.entries, change k (some v) e = e := by
      intro e he
      have hne : e.1 ≠ k := fun hek => h (List.mem_map.mpr ⟨e, he, hek⟩)
      unfold change
      rw [if_neg hne]
    rw [List.map_congr_left hold, List.map_id']
    simp [change]

/-- A key that is removed and added again goes last. -/
theorem put_remove :
    ((m.remove k).put dflt k o).entries =
      (m.entries.filter fun e => e.1 ≠ k) ++ [(k, o.getD dflt)] :=
  put_of_notMem notMem_keys_remove

end

omit [DecidableEq K] in
theorem nodup_tail {e : K × W} {us : List (K × W)} (h : ((e :: us).map Prod.fst).Nodup) :
    (us.map Prod.fst).Nodup :=
  (List.nodup_cons.mp h).2

/-- No changes. -/
theorem overlay_nil (dflt : V) (m : OrderedMap K V) (h) : m.overlay dflt ⟨[], h⟩ = m := by
  have hchanged : changed (⟨[], h⟩ : OrderedMap K (Option V)) = id := by
    funext e
    rfl
  apply OrderedMap.ext
  show m.entries.map (changed ⟨[], h⟩) ++ added dflt m ⟨[], h⟩ = m.entries
  rw [hchanged, List.map_id]
  exact List.append_nil _

/-- The value that a list of changes gives to a key, one change at a time. -/
theorem get?_cons (k : K) (w : W) (us : List (K × W)) (h) (k' : K) :
    (⟨(k, w) :: us, h⟩ : OrderedMap K W).get? k' =
      if k = k' then some w else (⟨us, nodup_tail h⟩ : OrderedMap K W).get? k' := by
  unfold get?
  by_cases hk : k = k'
  · simp [hk]
  · simp [hk]

/-- A key that does not occur has no value. -/
theorem get?_eq_none {u : OrderedMap K W} {k : K} (h : k ∉ u.keys) : u.get? k = none := by
  unfold get?
  rw [Option.map_eq_none_iff, List.find?_eq_none]
  intro e he
  simp only [decide_eq_true_eq]
  intro hk
  exact h (List.mem_map.mpr ⟨e, he, hk⟩)

/-- Several changes are one change after the other. -/
theorem overlay_cons (dflt : V) (m : OrderedMap K V) (k : K) (o : Option V)
    (us : List (K × Option V)) (h) :
    m.overlay dflt ⟨(k, o) :: us, h⟩ = (m.put dflt k o).overlay dflt ⟨us, nodup_tail h⟩ := by
  -- the key of the first change does not occur in the others
  have hk : k ∉ us.map Prod.fst := (List.nodup_cons.mp h).1
  have hnone : (⟨us, nodup_tail h⟩ : OrderedMap K (Option V)).get? k = none := get?_eq_none hk
  -- an entry of another key is changed by the others only, the entry of `k` by the first only
  have hentry : ∀ e : K × V, changed ⟨us, nodup_tail h⟩ (change k o e) =
      changed ⟨(k, o) :: us, h⟩ e := by
    intro e
    unfold changed
    rw [change_fst, get?_cons]
    by_cases he : k = e.1
    · rw [if_pos he, ← he, hnone]
      simp [change, he]
    · rw [if_neg he]
      simp [change, Ne.symm he]
  apply OrderedMap.ext
  show m.entries.map (changed ⟨(k, o) :: us, h⟩) ++ added dflt m ⟨(k, o) :: us, h⟩ =
    (m.put dflt k o).entries.map (changed ⟨us, nodup_tail h⟩) ++
      added dflt (m.put dflt k o) ⟨us, nodup_tail h⟩
  by_cases hm : k ∈ m.keys
  · rw [put_of_mem hm, List.map_map]
    have hmap : changed ⟨us, nodup_tail h⟩ ∘ change k o = changed ⟨(k, o) :: us, h⟩ :=
      funext hentry
    rw [hmap]
    unfold added
    rw [keys_put hm, List.filter_cons_of_neg (by simpa using hm)]
  · rw [put_of_notMem hm, List.map_append, List.map_singleton, List.append_assoc]
    -- the new entry is last, in front of the new keys of the other changes
    have hold : m.entries.map (changed ⟨us, nodup_tail h⟩) =
        m.entries.map (changed ⟨(k, o) :: us, h⟩) := by
      refine List.map_congr_left fun e he => ?_
      have hne : e.1 ≠ k := fun hek => hm (List.mem_map.mpr ⟨e, he, hek⟩)
      have := hentry e
      unfold change at this
      rwa [if_neg hne] at this
    have hnew : changed ⟨us, nodup_tail h⟩ (k, o.getD dflt) = (k, o.getD dflt) := by
      unfold changed
      rw [hnone]
      rfl
    rw [hold, hnew]
    unfold added
    rw [keys_put_new hm, List.filter_cons_of_pos (by simpa using hm), List.map_cons]
    have hfilter : us.filter (fun e => e.1 ∉ m.keys ++ [k]) = us.filter fun e => e.1 ∉ m.keys := by
      refine List.filter_congr fun e he => ?_
      have hne : e.1 ≠ k := fun hek => hk (List.mem_map.mpr ⟨e, he, hek⟩)
      simp [hne]
    rw [hfilter]
    rfl

end OrderedMap

namespace OrderedMap

variable {α β : Type*} [DecidableEq α] [DecidableEq β] {xs : List α} {γ : Type*} {f : γ → α}
  {l : List γ}

/-- The element after `a` in a list. -/
def next (xs : List α) (a : α) : Option α := xs[xs.idxOf a + 1]?

/-- The element before `a` in a list. -/
def prev (xs : List α) (a : α) : Option α := if xs.idxOf a = 0 then none else xs[xs.idxOf a - 1]?

/-- The element before another one is not that one. -/
theorem prev_ne (hxs : xs.Nodup) {a b : α} (h : prev xs a = some b) : b ≠ a := by
  rintro rfl
  unfold prev at h
  split at h
  · cases h
  · rename_i hpos
    obtain ⟨hlt, hb⟩ := List.getElem?_eq_some_iff.mp h
    have hidx := hxs.idxOf_getElem _ hlt
    rw [hb] at hidx
    omega

/-- The neighbours of an element between two parts of a list. -/
theorem next_append {ys : List α} {a : α} (h : (xs ++ a :: ys).Nodup) :
    next (xs ++ a :: ys) a = ys.head? := by
  have hnot : a ∉ xs := fun ha => List.disjoint_of_nodup_append h ha (List.mem_cons_self ..)
  have hidx : (xs ++ a :: ys).idxOf a = xs.length := by
    rw [List.idxOf_append_of_notMem hnot, List.idxOf_cons_self, Nat.add_zero]
  unfold next
  rw [hidx, List.getElem?_append_right (by omega), Nat.add_sub_cancel_left, List.head?_eq_getElem?]
  rfl

theorem prev_append {ys : List α} {a : α} (h : (xs ++ a :: ys).Nodup) :
    prev (xs ++ a :: ys) a = xs.getLast? := by
  have hnot : a ∉ xs := fun ha => List.disjoint_of_nodup_append h ha (List.mem_cons_self ..)
  have hidx : (xs ++ a :: ys).idxOf a = xs.length := by
    rw [List.idxOf_append_of_notMem hnot, List.idxOf_cons_self, Nat.add_zero]
  unfold prev
  rw [hidx]
  split
  · rename_i hzero
    rw [List.length_eq_zero_iff.mp hzero]
    rfl
  · rw [List.getElem?_append_left (by omega), List.getLast?_eq_getElem?]

/-- The position of an element is its position among the images. -/
theorem idxOf_map (hf : (l.map f).Nodup) {n : Nat} {x : γ} (hx : l[n]? = some x) :
    (l.map f).idxOf (f x) = n := by
  obtain ⟨hn, rfl⟩ := List.getElem?_eq_some_iff.mp hx
  have hlen : n < (l.map f).length := by
    rw [List.length_map]
    exact hn
  have := hf.idxOf_getElem n hlen
  rwa [List.getElem_map] at this

/-- The neighbours of an element of a list and of its image in a list of images. -/
theorem next_map {g : γ → β} (hf : (l.map f).Nodup) (hg : (l.map g).Nodup) {x : γ} (hx : x ∈ l) :
    (∃ y ∈ l, next (l.map f) (f x) = some (f y) ∧ next (l.map g) (g x) = some (g y)) ∨
      (next (l.map f) (f x) = none ∧ next (l.map g) (g x) = none) := by
  obtain ⟨n, hn⟩ := List.mem_iff_getElem?.mp hx
  unfold next
  rw [idxOf_map hf hn, idxOf_map hg hn, List.getElem?_map, List.getElem?_map]
  cases hy : l[n + 1]? with
  | none => exact .inr ⟨rfl, rfl⟩
  | some y => exact .inl ⟨y, List.mem_of_getElem? hy, rfl, rfl⟩

theorem prev_map {g : γ → β} (hf : (l.map f).Nodup) (hg : (l.map g).Nodup) {x : γ} (hx : x ∈ l) :
    (∃ y ∈ l, prev (l.map f) (f x) = some (f y) ∧ prev (l.map g) (g x) = some (g y)) ∨
      (prev (l.map f) (f x) = none ∧ prev (l.map g) (g x) = none) := by
  obtain ⟨n, hn⟩ := List.mem_iff_getElem?.mp hx
  unfold prev
  rw [idxOf_map hf hn, idxOf_map hg hn, List.getElem?_map, List.getElem?_map]
  by_cases h0 : n = 0
  · rw [if_pos h0, if_pos h0]
    exact .inr ⟨rfl, rfl⟩
  · rw [if_neg h0, if_neg h0]
    cases hy : l[n - 1]? with
    | none => exact .inr ⟨rfl, rfl⟩
    | some y => exact .inl ⟨y, List.mem_of_getElem? hy, rfl, rfl⟩

end OrderedMap

end Qore.Lib
