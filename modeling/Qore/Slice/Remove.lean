import Qore.Lib.Keep
import Qore.Slice.Lazy

/-!
# `Qore.Slice.Remove`: removing a slice

`LValueRemoveHelper::doRemove` has a branch for each form of a slice and each type. A list of indices
and ranges is removed in two steps: the selected values are collected and their positions put into a
set, then the positions are deleted from the largest to the smallest. A range `x[m..k]` is cut out at
once.

`conv` is the conversion of a UTF-8 text to the encoding of a string, for the encodings with one byte
for each character; the program calls `iconv` for it. The strings that reading and removing make have
the encoding of the string or the default one (`evalEncoding`, `removeEncoding`).
-/

set_option autoImplicit false

namespace Qore.Slice

open Qore.Lib Qore.Lib.Span Qore.Text

/-! ## Reading -/

/-- The positions that a list of indices and ranges selects. -/
def positions (broken : Bool) (entries : List Entry) : List Int :=
  entries.flatMap (Entry.positions broken)

section
variable (junk : Nat → UInt8) (e : Encoding)

/-- `doString` for each position: the characters are put behind each other. -/
def evalStringEntries (text : List UInt8) : List Int → Option (List UInt8)
  | [] => some []
  | offset :: ps =>
    match substr junk e text offset 1 with
    | none => none
    | some entry => (evalStringEntries text ps).map (entry.getD [] ++ ·)

end

/-- `doBinary` for each position. -/
def evalBinaryEntries (bytes : List UInt8) (ps : List Int) : List UInt8 := ps.filterMap (elemAt bytes)

section
variable {V : Type}

/-- `x[slice]`, for a slice that is not a single index. -/
def evalSlice (junk : Nat → UInt8) (broken : Bool) (x : Operand V) : SliceExpr → Result V
  | .list entries =>
    match x with
    | .list l => l.evalSlice broken (.list entries)
    | .string t =>
      match evalStringEntries junk t.encoding t.bytes (positions broken entries) with
      | none => .undefined
      | some text => .string text
    | .binary bytes => .binary (evalBinaryEntries bytes (positions broken entries))
  | .range m k => evalImpl junk x m k

end

/-! ## Positions to delete -/

/-- `std::set::insert`. -/
def insertDesc (i : Nat) : List Nat → List Nat
  | [] => [i]
  | j :: s => if j < i then i :: j :: s else if j = i then j :: s else j :: insertDesc i s

theorem mem_insertDesc {i j : Nat} {s : List Nat} : j ∈ insertDesc i s ↔ j = i ∨ j ∈ s := by
  induction s with
  | nil => simp [insertDesc]
  | cons l s ih =>
    rw [insertDesc]
    split
    · simp
    · split
      · rename_i heq
        simp [heq]
      · rw [List.mem_cons, ih, List.mem_cons]
        exact or_left_comm

theorem insertDesc_sorted {i : Nat} {s : List Nat} (h : s.Pairwise (· > ·)) :
    (insertDesc i s).Pairwise (· > ·) := by
  induction s with
  | nil => exact List.pairwise_singleton _ i
  | cons l s ih =>
    obtain ⟨hl, hs⟩ := List.pairwise_cons.mp h
    rw [insertDesc]
    split
    · rename_i hlt
      refine List.pairwise_cons.mpr ⟨fun j hj => ?_, h⟩
      rcases List.mem_cons.mp hj with rfl | hj
      · exact hlt
      · exact Nat.lt_trans (hl j hj) hlt
    · split
      · exact h
      · rename_i hge hne
        refine List.pairwise_cons.mpr ⟨fun j hj => ?_, ih hs⟩
        rcases mem_insertDesc.mp hj with rfl | hj
        · exact Nat.lt_of_le_of_ne (Nat.not_lt.mp hge) (Ne.symm hne)
        · exact hl j hj

/-- `ind_set_t`: positions from the largest to the smallest. -/
structure IndSet where
  elems : List Nat
  sorted : elems.Pairwise (· > ·)

def IndSet.empty : IndSet := ⟨[], List.Pairwise.nil⟩

def IndSet.insert (s : IndSet) (i : Nat) : IndSet := ⟨insertDesc i s.elems, insertDesc_sorted s.sorted⟩

theorem IndSet.mem_insert {s : IndSet} {i j : Nat} : j ∈ (s.insert i).elems ↔ j = i ∨ j ∈ s.elems :=
  mem_insertDesc

/-! ## Removing -/

/-- What is left in the variable, and what `remove` returns. -/
structure Removal (V : Type) where
  left : Result V
  value : Result V
  deriving DecidableEq

section
variable {V : Type}

/-- `do_list_value`: the values so far and the positions to delete. -/
def ListNode.doListValue (l : ListNode V) (s : List (Option V) × IndSet) (ind : Int) :
    List (Option V) × IndSet :=
  if 0 ≤ ind ∧ ind < l.entry.length then (s.1 ++ [l.getReferencedEntry ind], s.2.insert ind.toNat)
  else (s.1 ++ [none], s.2)

/-- The list branch for a list of indices and ranges; `spliceSingle` deletes one entry. -/
def ListNode.removeEntries (l : ListNode V) (ps : List Int) : Removal V :=
  let (v, iset) := ps.foldl l.doListValue ([], .empty)
  ⟨.list (iset.elems.foldl List.eraseIdx l.entry), .list v⟩

/-- `extract` of a list, and `splice` of a binary value. -/
def extract {α : Type} (xs : List α) (offset len : Int) : List α × List α :=
  let (nOffset, nLen) := checkOffsetNum xs.length offset len
  if nOffset = xs.length then (xs, [])
  else (xs.take nOffset ++ xs.drop (nOffset + nLen), (xs.drop nOffset).take nLen)

/-- The bounds in order, and whether they were not. -/
def ordered (r : EffectiveRange) : Int × Int × Bool :=
  if r.stop < r.start then (r.stop, r.start, true) else (r.start, r.stop, false)

end

/-! ### Strings -/

section
variable (junk : Nat → UInt8) (conv : List UInt8 → Option (List UInt8)) (e : Encoding)

/-- `splice(offset, num)`, and `extract(offset, num)` with a string to extract to. -/
def cutString (s : Str UInt8) (offset num : Int) (dest : Option (Str UInt8)) :
    Option (Str UInt8 × Option (Str UInt8)) :=
  match e.next with
  | none => s.cutNum (byteMemory junk) offset num dest
  | some next => s.spliceComplexNum (byteMemory junk) next offset num dest

/-- The texts after `cutString`. -/
def cut (text : List UInt8) (offset num : Int) (dest : Option (Str UInt8)) :
    Option (List UInt8 × Option (List UInt8)) :=
  (cutString junk e (source (byteMemory junk) text) offset num dest).map fun (t, x) =>
    (t.text, x.map Str.text)

/-- `concatUnicode(code)`; `none` when the conversion fails. -/
def concatUnicode (text : List UInt8) (code : Nat) : Option (List UInt8) :=
  match e with
  | .utf8 => some (concatUTF8FromUnicode text code)
  | _ => (conv (encode code)).map (text ++ ·)

/-- `length()`: the characters of a text. -/
def length (text : List UInt8) : Nat :=
  match e.next with
  | none => text.length
  | some next => (Words.countWords next text).1

variable {V : Type}

end

end Qore.Slice
