import Mathlib.Data.List.Rotate

/-!
# `Qore.Lib.Ring`: ring buffers

A ring buffer is a list of cells, the position of the first element and the number of elements.
`contents` is what it holds, in order. A copy out of it or into it stays in front of the end of
the list of cells, so it can move a part of the elements only.

* `contents_read`, `contents_advance`: a copy out returns the first elements, and the rest is
  left.
* `contents_write`: a copy in appends its elements.
-/

set_option autoImplicit false

namespace Qore.Lib.Ring

variable {α : Type*}

/-- The elements of a ring buffer. -/
def contents (buf : List α) (start count : Nat) : List α := (buf.rotate start).take count

variable {buf : List α} {start count n : Nat} {src : List α}

theorem length_contents (hcount : count ≤ buf.length) : (contents buf start count).length = count := by
  unfold contents
  rw [List.length_take, List.length_rotate]
  omega

/-- The cells from `start` on hold the first elements. -/
theorem contents_read (hstart : start < buf.length) (hn : n ≤ count) (hend : n ≤ buf.length - start) :
    (buf.drop start).take n = (contents buf start count).take n := by
  unfold contents
  rw [List.take_take, Nat.min_eq_left hn, List.rotate_eq_drop_append_take (Nat.le_of_lt hstart),
    List.take_append_of_le_length (by rw [List.length_drop]; exact hend)]

/-- The elements that are left. -/
theorem contents_advance (hn : n ≤ count) (hcount : count ≤ buf.length) :
    contents buf ((start + n) % buf.length) (count - n) = (contents buf start count).drop n := by
  have hlen : n ≤ (buf.rotate start).length := by
    rw [List.length_rotate]
    omega
  unfold contents
  rw [List.rotate_mod, ← List.rotate_rotate, List.rotate_eq_drop_append_take hlen, List.drop_take,
    List.take_append_of_le_length]
  rw [List.length_drop, List.length_rotate]
  omega

/-- The first element is in the cell at `start`. -/
theorem getElem?_start (hstart : start < buf.length) (hcount : 0 < count) :
    buf[start]? = (contents buf start count)[0]? := by
  have h := contents_read (n := 1) hstart hcount (by omega)
  have hhead := congrArg (fun l => l[0]?) h
  simpa [List.getElem?_take] using hhead

theorem rotate_split (hstart : start ≤ buf.length) :
    buf.rotate start = buf.drop start ++ buf.take start := List.rotate_eq_drop_append_take hstart

/-- A copy in when the elements do not wrap around: the free cells follow the last one. -/
theorem contents_write_after (hsum : start + count < buf.length) :
    contents (buf.take (start + count) ++ src ++ buf.drop (start + count + src.length)) start
      (count + src.length) = contents buf start count ++ src := by
  obtain ⟨front, hfront⟩ : ∃ front, front = (buf.take (start + count)).drop start := ⟨_, rfl⟩
  have hlen : front.length = count := by
    rw [hfront, List.length_drop, List.length_take]
    omega
  have hold : contents buf start count = front := by
    unfold contents
    rw [rotate_split (by omega), List.take_append_of_le_length (by rw [List.length_drop]; omega),
      hfront, List.drop_take]
    congr 1
    omega
  have hdrop : (buf.take (start + count) ++ src ++ buf.drop (start + count + src.length)).drop start =
      front ++ src ++ buf.drop (start + count + src.length) := by
    rw [List.append_assoc, List.drop_append_of_le_length (by rw [List.length_take]; omega), hfront,
      List.append_assoc]
  rw [hold]
  unfold contents
  rw [rotate_split (by simp; omega), hdrop, List.append_assoc]
  exact List.take_left' (by rw [List.length_append, hlen])

/-- A copy in when they do: the free cells are in front of the first element. -/
theorem contents_write_before (hstart : start < buf.length) (hcount : count ≤ buf.length)
    (hsum : buf.length ≤ start + count) (hfree : src.length ≤ buf.length - count) :
    contents (buf.take (start + count - buf.length) ++ src ++
        buf.drop (start + count - buf.length + src.length)) start (count + src.length) =
      contents buf start count ++ src := by
  obtain ⟨wp, hwp⟩ : ∃ wp, wp = start + count - buf.length := ⟨_, rfl⟩
  rw [← hwp]
  have hlen : (buf.take wp ++ src).length = wp + src.length := by
    rw [List.length_append, List.length_take]
    omega
  have hold : contents buf start count = buf.drop start ++ buf.take wp := by
    unfold contents
    rw [rotate_split (by omega), List.take_append, List.length_drop, List.take_take,
      List.take_of_length_le (by rw [List.length_drop]; omega)]
    congr 2
    omega
  have hdrop : (buf.take wp ++ src ++ buf.drop (wp + src.length)).drop start = buf.drop start := by
    rw [List.drop_append, hlen, List.drop_drop, List.drop_of_length_le (by omega), List.nil_append]
    congr 1
    omega
  have htake : (buf.take wp ++ src ++ buf.drop (wp + src.length)).take start =
      buf.take wp ++ src ++ (buf.drop (wp + src.length)).take (start - (wp + src.length)) := by
    rw [List.take_append, hlen, List.take_of_length_le (by omega)]
  rw [hold]
  unfold contents
  rw [rotate_split (by simp; omega), hdrop, htake]
  have hassoc : buf.drop start ++ (buf.take wp ++ src ++
      (buf.drop (wp + src.length)).take (start - (wp + src.length))) =
      (buf.drop start ++ buf.take wp ++ src) ++
        (buf.drop (wp + src.length)).take (start - (wp + src.length)) := by
    simp only [List.append_assoc]
  rw [hassoc]
  apply List.take_left'
  simp only [List.length_append, List.length_drop, List.length_take]
  omega

/-- A copy of elements to the free cells after the last one. -/
theorem contents_write (hstart : start < buf.length) (hcount : count ≤ buf.length)
    (hfree : src.length ≤ buf.length - count) :
    contents (buf.take ((start + count) % buf.length) ++ src ++
        buf.drop ((start + count) % buf.length + src.length)) start (count + src.length) =
      contents buf start count ++ src := by
  by_cases hsum : start + count < buf.length
  · rw [Nat.mod_eq_of_lt hsum]
    exact contents_write_after hsum
  · have hmod : (start + count) % buf.length = start + count - buf.length := by
      rw [Nat.mod_eq_sub_mod (by omega), Nat.mod_eq_of_lt (by omega)]
    rw [hmod]
    exact contents_write_before hstart hcount (by omega) hfree

end Qore.Lib.Ring
