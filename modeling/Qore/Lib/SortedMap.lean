import Mathlib

/-!
# `Qore.Lib.SortedMap`: maps with the order of their keys

A `SortedMap` is its entries in the order of the keys, with the proof of this order. `put` and
`erase` keep it, and `get?` sees what they do (`get?_put`, `get?_erase`).

`upTo` are the entries that are not behind a bound, from the last one back to the first. `walk` goes
along them to the first key that is a `hit`, and gives up at a key that is not `near`.

* `walk_spec`: where every key from a hit up to the bound is near, the walk finds the greatest hit
  of the map, and it gives up only where there is none.
-/

set_option autoImplicit false

namespace Qore.Lib

/-- Entries in the order of their keys. -/
structure SortedMap (K V : Type*) [LinearOrder K] where
  entries : List (K × V)
  sorted : entries.Pairwise fun a b => a.1 < b.1

namespace SortedMap

variable {K V : Type*} [LinearOrder K] {k : K} {v : V} {e : K × V} (m : SortedMap K V)

/-- No entries. -/
def empty : SortedMap K V := ⟨[], List.Pairwise.nil⟩

/-- The value of the key `k` in a list of entries. -/
def lookup (k : K) : List (K × V) → Option V
  | [] => none
  | e :: es => if e.1 = k then some e.2 else lookup k es

/-- The value of a key. -/
def get? (m : SortedMap K V) (k : K) : Option V := lookup k m.entries

/-- The entry of `k` is replaced, or it is added before the first greater key. -/
def insertEntry (k : K) (v : V) : List (K × V) → List (K × V)
  | [] => [(k, v)]
  | e :: es =>
    if k < e.1 then (k, v) :: e :: es
    else if k = e.1 then (k, v) :: es
    else e :: insertEntry k v es

theorem fst_mem_insertEntry {es : List (K × V)} (h : e ∈ insertEntry k v es) :
    e = (k, v) ∨ e ∈ es := by
  induction es with
  | nil => exact .inl (List.mem_singleton.mp h)
  | cons d es ih =>
    unfold insertEntry at h
    split_ifs at h
    · exact List.mem_cons.mp h
    · rcases List.mem_cons.mp h with rfl | h
      · exact .inl rfl
      · exact .inr (List.mem_cons_of_mem d h)
    · rcases List.mem_cons.mp h with rfl | h
      · exact .inr List.mem_cons_self
      · rcases ih h with rfl | h
        · exact .inl rfl
        · exact .inr (List.mem_cons_of_mem d h)

theorem sorted_insertEntry (k : K) (v : V) {es : List (K × V)}
    (h : es.Pairwise fun a b => a.1 < b.1) :
    (insertEntry k v es).Pairwise fun a b => a.1 < b.1 := by
  induction es with
  | nil => exact List.pairwise_singleton _ _
  | cons d es ih =>
    obtain ⟨hd, hes⟩ := List.pairwise_cons.mp h
    unfold insertEntry
    split_ifs with hlt heq
    · refine List.pairwise_cons.mpr ⟨fun e he => ?_, h⟩
      rcases List.mem_cons.mp he with rfl | he
      · exact hlt
      · exact lt_trans hlt (hd e he)
    · exact List.pairwise_cons.mpr ⟨fun e he => heq ▸ hd e he, hes⟩
    · refine List.pairwise_cons.mpr ⟨fun e he => ?_, ih hes⟩
      rcases fst_mem_insertEntry he with rfl | he
      · exact lt_of_le_of_ne (not_lt.mp hlt) (Ne.symm heq)
      · exact hd e he

/-- The value `v` for the key `k`. -/
def put (m : SortedMap K V) (k : K) (v : V) : SortedMap K V :=
  ⟨insertEntry k v m.entries, sorted_insertEntry k v m.sorted⟩

/-- The map without the key `k`. -/
def erase (m : SortedMap K V) (k : K) : SortedMap K V :=
  ⟨m.entries.filter fun e => e.1 ≠ k, m.sorted.filter _⟩

/-- The entries with a key that is not greater than `b`, from the last one back. -/
def upTo (m : SortedMap K V) (b : K) : List (K × V) :=
  (m.entries.takeWhile fun e => e.1 ≤ b).reverse

/-- The first entry with a hit; the walk ends before the first key that is not near. -/
def walk (near hit : K → Bool) : List (K × V) → Option (K × V)
  | [] => none
  | e :: es => if near e.1 then (if hit e.1 then some e else walk near hit es) else none

/-! ## The values of the keys -/

theorem mem_of_lookup {es : List (K × V)} (h : lookup k es = some v) : (k, v) ∈ es := by
  induction es with
  | nil => cases h
  | cons e es ih =>
    unfold lookup at h
    split_ifs at h with hk
    · rw [← hk, ← Option.some.inj h]
      exact List.mem_cons_self
    · exact List.mem_cons_of_mem e (ih h)

theorem lookup_of_mem {es : List (K × V)} (hsorted : es.Pairwise fun a b => a.1 < b.1)
    (h : (k, v) ∈ es) : lookup k es = some v := by
  induction es with
  | nil => cases h
  | cons e es ih =>
    obtain ⟨he, hes⟩ := List.pairwise_cons.mp hsorted
    unfold lookup
    rcases List.mem_cons.mp h with rfl | h
    · exact if_pos rfl
    · rw [if_neg (ne_of_lt (he _ h)), ih hes h]

/-- The entries are the keys with their values. -/
theorem mem_iff_get? (k : K) (v : V) : (k, v) ∈ m.entries ↔ m.get? k = some v :=
  ⟨lookup_of_mem m.sorted, mem_of_lookup⟩

theorem lookup_insertEntry (k : K) (v : V) (es : List (K × V)) (k' : K) :
    lookup k' (insertEntry k v es) = if k' = k then some v else lookup k' es := by
  induction es with
  | nil => simp only [insertEntry, lookup, eq_comm]
  | cons e es ih =>
    by_cases hk : k' = k
    · rw [if_pos hk] at ih ⊢
      unfold insertEntry
      split_ifs with hlt heq
      · rw [lookup, if_pos hk.symm]
      · rw [lookup, if_pos hk.symm]
      · rw [lookup, if_neg fun h => heq (hk.symm.trans h.symm), ih]
    · rw [if_neg hk] at ih ⊢
      unfold insertEntry
      split_ifs with hlt heq
      · rw [lookup, if_neg (Ne.symm hk)]
      · rw [lookup, if_neg (Ne.symm hk), lookup, if_neg fun h => hk (h.symm.trans heq.symm)]
      · rw [lookup, ih, lookup]

theorem get?_put (k : K) (v : V) (k' : K) :
    (m.put k v).get? k' = if k' = k then some v else m.get? k' :=
  lookup_insertEntry k v m.entries k'

theorem lookup_filter (k : K) (es : List (K × V)) (k' : K) :
    lookup k' (es.filter fun e => e.1 ≠ k) = if k' = k then none else lookup k' es := by
  induction es with
  | nil => simp only [List.filter_nil, lookup, ite_self]
  | cons e es ih =>
    by_cases he : e.1 = k
    · rw [List.filter_cons_of_neg (by simpa using he), ih]
      split_ifs with hk
      · rfl
      · rw [lookup, if_neg fun h => hk (h.symm.trans he)]
    · rw [List.filter_cons_of_pos (by simpa using he), lookup, ih, lookup]
      split_ifs with hek hk
      · exact absurd (hek.trans hk) he
      · rfl
      · rfl
      · rfl

theorem get?_erase (k k' : K) : (m.erase k).get? k' = if k' = k then none else m.get? k' :=
  lookup_filter k m.entries k'

theorem mem_put {m : SortedMap K V} (h : e ∈ (m.put k v).entries) : e = (k, v) ∨ e ∈ m.entries :=
  fst_mem_insertEntry h

theorem mem_erase {m : SortedMap K V} (h : e ∈ (m.erase k).entries) : e ∈ m.entries :=
  List.mem_of_mem_filter h

/-! ## The walk back -/

/-- In the order of the keys, the entries up to a bound stand before all others. -/
theorem mem_takeWhile_iff {es : List (K × V)} (h : es.Pairwise fun a b => a.1 < b.1) (b : K)
    (e : K × V) : e ∈ es.takeWhile (fun e => e.1 ≤ b) ↔ e ∈ es ∧ e.1 ≤ b := by
  induction es with
  | nil => simp
  | cons d es ih =>
    obtain ⟨hd, hes⟩ := List.pairwise_cons.mp h
    by_cases hb : d.1 ≤ b
    · rw [List.takeWhile_cons_of_pos (by simpa using hb), List.mem_cons, List.mem_cons, ih hes]
      constructor
      · rintro (rfl | ⟨he, hle⟩)
        · exact ⟨.inl rfl, hb⟩
        · exact ⟨.inr he, hle⟩
      · rintro ⟨rfl | he, hle⟩
        · exact .inl rfl
        · exact .inr ⟨he, hle⟩
    · rw [List.takeWhile_cons_of_neg (by simpa using hb)]
      constructor
      · exact fun he => absurd he List.not_mem_nil
      · rintro ⟨he, hle⟩
        rcases List.mem_cons.mp he with rfl | he
        · exact absurd hle hb
        · exact absurd (le_trans (le_of_lt (hd e he)) hle) hb

theorem mem_upTo_iff (b : K) (e : K × V) : e ∈ m.upTo b ↔ e ∈ m.entries ∧ e.1 ≤ b := by
  rw [upTo, List.mem_reverse]
  exact mem_takeWhile_iff m.sorted b e

theorem sorted_upTo (b : K) : (m.upTo b).Pairwise fun a b => b.1 < a.1 := by
  rw [upTo, List.pairwise_reverse]
  exact m.sorted.sublist (List.takeWhile_sublist _)

/-- The walk through entries that descend finds the greatest hit. -/
theorem walk_descending {near hit : K → Bool} {es : List (K × V)}
    (hsorted : es.Pairwise fun a b => b.1 < a.1)
    (hnear : ∀ e ∈ es, ∀ d ∈ es, hit d.1 → d.1 ≤ e.1 → near e.1) :
    match walk near hit es with
    | some e => e ∈ es ∧ hit e.1 ∧ ∀ d ∈ es, hit d.1 → d.1 ≤ e.1
    | none => ∀ e ∈ es, ¬hit e.1 := by
  induction es with
  | nil => exact fun e he => absurd he List.not_mem_nil
  | cons e es ih =>
    obtain ⟨hafter, hes⟩ := List.pairwise_cons.mp hsorted
    have htail := ih hes fun a ha d hd =>
      hnear a (List.mem_cons_of_mem e ha) d (List.mem_cons_of_mem e hd)
    have hle : ∀ d ∈ e :: es, d.1 ≤ e.1 := by
      intro d hd
      rcases List.mem_cons.mp hd with rfl | hd
      · exact le_refl _
      · exact le_of_lt (hafter d hd)
    unfold walk
    split_ifs with hn hh
    · exact ⟨List.mem_cons_self, hh, fun d hd _ => hle d hd⟩
    · -- the first entry is no hit, and so the walk goes on with the others
      cases hw : walk near hit es with
      | none =>
        rw [hw] at htail
        intro d hd
        rcases List.mem_cons.mp hd with rfl | hd
        · exact hh
        · exact htail d hd
      | some a =>
        rw [hw] at htail
        obtain ⟨ha, hhit, hmax⟩ := htail
        refine ⟨List.mem_cons_of_mem e ha, hhit, fun d hd hdhit => ?_⟩
        rcases List.mem_cons.mp hd with rfl | hd
        · exact absurd hdhit hh
        · exact hmax d hd hdhit
    · -- a hit further on would make the first entry near
      intro d hd hdhit
      exact hn (hnear e List.mem_cons_self d hd hdhit (hle d hd))

/-- The greatest hit of the map: no hit is behind the bound, and every key from a hit up to the
bound is near. -/
theorem walk_spec {near hit : K → Bool} {b : K} (hbound : ∀ x, hit x → x ≤ b)
    (hnear : ∀ x y, hit x → x ≤ y → y ≤ b → near y) :
    match walk near hit (m.upTo b) with
    | some e => e ∈ m.entries ∧ hit e.1 ∧ ∀ d ∈ m.entries, hit d.1 → d.1 ≤ e.1
    | none => ∀ e ∈ m.entries, ¬hit e.1 := by
  have hwalk := @walk_descending _ _ _ near hit _ (m.sorted_upTo b)
    fun e he d _ hhit hle => hnear d.1 e.1 hhit hle ((m.mem_upTo_iff b e).mp he).2
  have hmem : ∀ d ∈ m.entries, hit d.1 → d ∈ m.upTo b :=
    fun d hd hhit => (m.mem_upTo_iff b d).mpr ⟨hd, hbound d.1 hhit⟩
  cases hw : walk near hit (m.upTo b) with
  | none =>
    rw [hw] at hwalk
    exact fun e he hhit => hwalk e (hmem e he hhit) hhit
  | some e =>
    rw [hw] at hwalk
    obtain ⟨he, hhit, hmax⟩ := hwalk
    exact ⟨((m.mem_upTo_iff b e).mp he).1, hhit, fun d hd hdhit => hmax d (hmem d hd hdhit) hdhit⟩

end SortedMap

end Qore.Lib
