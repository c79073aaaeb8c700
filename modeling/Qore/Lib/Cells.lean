import Mathlib.Data.List.Basic

/-!
# `Qore.Lib.Cells`: a block of memory cells

An allocated block is the list of its cells. `blit` writes into a block, and gives `none` for a
write that leaves it. `fetch` reads; beyond the block, and in cells that were never written, the
memory holds `junk`.

The lemmas take the block apart at the place of the access:

* `blit_append`: a write after `p` leaves `p` and what follows the written cells.
* `fetch_append`: a read after `p` gives the cells there, followed by whatever comes then.
* `resize_of_le`: a block that grows keeps its cells.
-/

set_option autoImplicit false

namespace Qore.Lib.Cells

variable {α : Type*} (junk : Nat → α)

/-- The block after `xs` is written at index `i`. -/
def blit (b : List α) (i : Nat) (xs : List α) : Option (List α) :=
  if i + xs.length ≤ b.length then some (b.take i ++ xs ++ b.drop (i + xs.length)) else none

/-- The `n` cells from index `i` on. -/
def fetch (b : List α) (i n : Nat) : List α := (List.range' i n).map fun k => b.getD k (junk k)

/-- The block with the size `n`. -/
def resize (b : List α) (n : Nat) : List α := fetch junk b 0 n

variable {junk} (b : List α)

@[simp] theorem length_fetch (i n : Nat) : (fetch junk b i n).length = n := by
  simp [fetch]

@[simp] theorem length_resize (n : Nat) : (resize junk b n).length = n :=
  length_fetch b 0 n

theorem length_of_blit {b b' xs : List α} {i : Nat} (h : blit b i xs = some b') :
    b'.length = b.length := by
  unfold blit at h
  split at h
  · rename_i hle
    rw [← Option.some.inj h]
    simp only [List.length_append, List.length_take, List.length_drop]
    omega
  · cases h

/-- A write after `p`. -/
theorem blit_append (p q xs : List α) (h : xs.length ≤ q.length) :
    blit (p ++ q) p.length xs = some (p ++ (xs ++ q.drop xs.length)) := by
  unfold blit
  rw [if_pos (by rw [List.length_append]; omega), List.take_left, List.drop_append,
    List.append_assoc, Nat.add_sub_cancel_left, List.drop_eq_nil_of_le (by omega), List.nil_append]

/-- A read of cells that are there. -/
theorem fetch_of_le (i n : Nat) (h : i + n ≤ b.length) : fetch junk b i n = (b.drop i).take n := by
  apply List.ext_getElem
  · simp only [length_fetch, List.length_take, List.length_drop]
    omega
  · intro k hk hk'
    rw [length_fetch] at hk
    simp [fetch, List.getD_eq_getElem?_getD, List.getElem?_eq_getElem (show i + k < b.length by omega)]

/-- A read after `p`, of all of `m` and perhaps of more. -/
theorem fetch_append (p m q : List α) (n : Nat) (h : m.length ≤ n) :
    ∃ t, fetch junk (p ++ (m ++ q)) p.length n = m ++ t ∧ t.length = n - m.length := by
  refine ⟨fetch junk (p ++ (m ++ q)) (p.length + m.length) (n - m.length), ?_, by simp⟩
  have hsplit : List.range' p.length n =
      List.range' p.length m.length ++ List.range' (p.length + m.length) (n - m.length) := by
    rw [List.range'_append_1, Nat.add_sub_cancel' h]
  have hread : fetch junk (p ++ (m ++ q)) p.length m.length = m := by
    rw [fetch_of_le _ _ _ (by simp), List.drop_left, List.take_left]
  have hboth : fetch junk (p ++ (m ++ q)) p.length n =
      fetch junk (p ++ (m ++ q)) p.length m.length ++
        fetch junk (p ++ (m ++ q)) (p.length + m.length) (n - m.length) := by
    simp only [fetch, hsplit, List.map_append]
  rw [hboth, hread]

/-- A block that grows keeps its cells. -/
theorem resize_of_le (n : Nat) (h : b.length ≤ n) :
    ∃ t, resize junk b n = b ++ t ∧ t.length = n - b.length := by
  obtain ⟨t, ht, hlen⟩ := @fetch_append _ junk [] b [] n h
  rw [List.nil_append, List.append_nil] at ht
  exact ⟨t, ht, hlen⟩

/-- A write at `p.length + n`, in the cells after `p`: `n` cells remain before it. -/
theorem blit_gap (p w xs : List α) (n : Nat) (h : n + xs.length ≤ w.length) :
    blit (p ++ w) (p.length + n) xs =
      some (p ++ (w.take n ++ (xs ++ w.drop (n + xs.length)))) := by
  have hgap := blit_append (p ++ w.take n) (w.drop n) xs (by rw [List.length_drop]; omega)
  have hlen : (p ++ w.take n).length = p.length + n := by
    rw [List.length_append, List.length_take]
    omega
  rw [List.append_assoc, List.take_append_drop, hlen] at hgap
  rw [hgap, List.drop_drop, List.append_assoc]

end Qore.Lib.Cells
