import Qore.ListNode.ScanCount

/-!
# `Qore.ListNode.Slots`: the entries of a list in memory

`entry` of `qore_list_private` is an array with more slots than the list has entries. A splice moves
the entries behind the cut with `memmove`. When the list shrinks under a replacement, the `memmove`
takes as many entries as there are behind the replacement and not behind the cut, so it reads past
the last entry; what it moves there is zeroed again.

* `spliceIntern_refines`, `spliceInternValue_refines`: the slots hold the entries of the list model.
* `splice_right_iff`: a splice cuts and replaces as documented, and reads only entries of the list
  exactly when a replacement is not shorter than the cut.
-/

set_option autoImplicit false

namespace Qore.ListNode

/-! ### The slots -/

/-- A `memmove` over slots. -/
structure Move where
  dst : Nat
  src : Nat
  count : Nat

/-- The slots that a `memmove` reads. -/
def Move.Reads (mv : Move) (i : Nat) : Prop := mv.src ≤ i ∧ i < mv.src + mv.count

/-- `entry`, `length` and `complexTypeInfo`. -/
structure SlotList (V T : Type) where
  slot : Nat → V
  length : Nat
  complexTypeInfo : Option T

/-- A call that returned: the list, the list of removed entries, the moves that were made, and
whether an exception was raised. -/
structure Spliced (V T : Type) where
  list : SlotList V T
  rv : Option (List V)
  moves : List Move
  raised : Bool

/-- The conversion of a signed number to `size_t`. -/
def toSize (x : Int) : Nat := (x % 18446744073709551616).toNat

/-- The conversion of a `size_t` to `ptrdiff_t`. -/
def toDiff (x : Nat) : Int :=
  if x < 9223372036854775808 then x else x - 18446744073709551616

/-- The range of `ptrdiff_t`. -/
def IsDiff (x : Int) : Prop := -9223372036854775808 ≤ x ∧ x < 9223372036854775808

instance (x : Int) : Decidable (IsDiff x) := inferInstanceAs (Decidable (_ ∧ _))

namespace SlotList

variable {V T : Type} (env : Env V T)

/-- The entries of the list. -/
def entries (a : SlotList V T) : List V := (List.range a.length).map a.slot

/-- The list, as the model of the operations has it. -/
def toPriv (a : SlotList V T) (objCount : Nat) : ListPriv V T :=
  { entry := a.entries, objCount, complexTypeInfo := a.complexTypeInfo }

/-- `memmove(entry + dst, entry + src, sizeof(QoreValue) * count)`. -/
def memmove (a : SlotList V T) (mv : Move) : SlotList V T :=
  { a with slot := fun i =>
      if mv.dst ≤ i ∧ i < mv.dst + mv.count then a.slot (mv.src + (i - mv.dst)) else a.slot i }

/-- `zeroEntries`. -/
def zeroEntries (a : SlotList V T) (start stop : Nat) : SlotList V T :=
  { a with slot := fun i => if start ≤ i ∧ i < stop then env.nothing else a.slot i }

/-- `resize`. -/
def resize (a : SlotList V T) (num : Nat) : SlotList V T :=
  if num < a.length then { a with length := num }
  else { a.zeroEntries env a.length num with length := num }

/-- The loop that adds the new entries. -/
def write (a : SlotList V T) (offset : Nat) (vs : List V) : SlotList V T :=
  { a with slot := fun i =>
      if offset ≤ i ∧ i < offset + vs.length then vs.getD (i - offset) env.nothing else a.slot i }

/-- `checkVal`. -/
def checkVal (a : SlotList V T) (v : V) : Option V := (a.toPriv 0).checkVal env v

/-- The values to insert, after their types are checked. -/
def checkVals (a : SlotList V T) (v : V) : Option (List V) :=
  match env.asList v with
  | some sl => ListPriv.checkVals env (a.toPriv 0) sl.entry
  | none => (a.checkVal env v).map fun v' => [v']

/-- `checkOffset(offset)`. The sum is unsigned. -/
def checkOffset (a : SlotList V T) (offset : Int) : Nat :=
  if offset < 0 then
    let offset := toDiff (toSize (a.length + offset))
    if offset < 0 then 0 else toSize offset
  else if toSize offset > a.length then a.length
  else toSize offset

/-- `checkOffset(offset, len, n_offset, n_len)`: the length. -/
def checkLen (a : SlotList V T) (nOffset : Nat) (len : Int) : Nat :=
  if len < 0 then
    let len := toDiff (toSize (a.length + len - nOffset))
    if len < 0 then 0 else toSize len
  else toSize len

/-- The loop of `removeEntry`: with `extract` there is a list before the first entry. -/
def removed (a : SlotList V T) (offset stop : Nat) (extract : Bool) : Option (List V) :=
  let vs := (a.entries.take stop).drop offset
  if extract ∨ vs ≠ [] then some vs else none

/-- "move down entries if necessary": the list without the entries between `offset` and `stop`. -/
def moveDown (a : SlotList V T) (offset stop len : Nat) : SlotList V T × List Move :=
  if stop ≠ a.length then
    let mv : Move := { dst := offset, src := stop, count := a.length - stop }
    let b := (a.memmove mv).zeroEntries env (a.length - len) a.length
    (b.resize env (a.length - len), [mv])
  else
    let b := a.zeroEntries env (stop - 1) stop
    (b.resize env (a.length - len), [])

/-- "make bigger": room for `n` entries in the place of `len` ones. -/
def makeBigger (a : SlotList V T) (stop len n : Nat) : SlotList V T × List Move :=
  let b := a.resize env (a.length - len + n)
  if stop ≠ a.length then
    let mv : Move := { dst := stop - len + n, src := stop, count := a.length - stop }
    (b.memmove mv, [mv])
  else (b, [])

/-- "make list smaller": `n` entries in the place of `len` ones. -/
def makeSmaller (a : SlotList V T) (offset len n : Nat) : SlotList V T × List Move :=
  let mv : Move := { dst := offset + n, src := offset + len, count := a.length - offset - n }
  let b := (a.memmove mv).zeroEntries env (a.length - (len - n)) a.length
  (b.resize env (a.length - (len - n)), [mv])

/-- `spliceIntern(offset, len, extract)`. -/
def spliceIntern (a : SlotList V T) (offset len : Nat) (extract : Bool) : Spliced V T :=
  let (stop, len) :=
    if len > a.length - offset then (a.length, a.length - offset) else (offset + len, len)
  let rv := a.removed offset stop extract
  let (b, moves) := a.moveDown env offset stop len
  { list := b, rv, moves, raised := false }

/-- `spliceIntern(offset, len, l, extract, xsink)`. -/
def spliceInternValue (a : SlotList V T) (offset len : Nat) (v : V) (extract : Bool) :
    Spliced V T :=
  match a.checkVals env v with
  | none => { list := a, rv := none, moves := [], raised := true }
  | some vs =>
    let (stop, len) :=
      if len > a.length - offset then (a.length, a.length - offset) else (offset + len, len)
    let rv := a.removed offset stop extract
    let n := vs.length
    let (b, moves) :=
      if n > len then a.makeBigger env stop len n
      else if len > n then a.makeSmaller env offset len n
      else (a, [])
    { list := b.write env offset vs, rv, moves, raised := false }

/-- `QoreListNode::splice` and `QoreListNode::extract`. -/
inductive Call (V : Type) where
  | toEnd (offset : Int)
  | part (offset len : Int)
  | replace (offset len : Int) (v : V)

/-- A call of `splice`, or with `extract` of `QoreListNode::extract`. -/
def splice (a : SlotList V T) (c : Call V) (extract : Bool) : Spliced V T :=
  let unmoved : Spliced V T :=
    { list := a, rv := if extract then some [] else none, moves := [], raised := false }
  match c with
  | .toEnd offset =>
    let nOffset := a.checkOffset offset
    if nOffset = a.length then unmoved
    else a.spliceIntern env nOffset (a.length - nOffset) extract
  | .part offset len =>
    let nOffset := a.checkOffset offset
    let nLen := a.checkLen nOffset len
    if nOffset = a.length then unmoved else a.spliceIntern env nOffset nLen extract
  | .replace offset len v =>
    let nOffset := a.checkOffset offset
    a.spliceInternValue env nOffset (a.checkLen nOffset len) v extract

/-! ### What a splice is for -/

/-- The first entry of the cut: an offset below zero counts from the end, and no offset is outside
of the list. -/
def cutStart (length : Nat) (offset : Int) : Nat :=
  (max (0 : Int) (if offset < 0 then length + offset else min offset length)).toNat

/-- The end of the cut: a length below zero leaves that many entries at the end. -/
def cutStop (length : Nat) (offset len : Int) : Nat :=
  let start := cutStart length offset
  (max (start : Int) (if len < 0 then length + len else min (start + len) length)).toNat

/-- The arguments of a call are of type `ptrdiff_t`. -/
def Call.InRange : Call V → Prop
  | .toEnd offset => IsDiff offset
  | .part offset len => IsDiff offset ∧ IsDiff len
  | .replace offset len _ => IsDiff offset ∧ IsDiff len

instance : (c : Call V) → Decidable c.InRange
  | .toEnd offset => inferInstanceAs (Decidable (IsDiff offset))
  | .part offset len => inferInstanceAs (Decidable (IsDiff offset ∧ IsDiff len))
  | .replace offset len _ => inferInstanceAs (Decidable (IsDiff offset ∧ IsDiff len))

/-- The cut of a call. -/
def Call.cut (length : Nat) : Call V → Nat × Nat
  | .toEnd offset => (cutStart length offset, length)
  | .part offset len => (cutStart length offset, cutStop length offset len)
  | .replace offset len _ => (cutStart length offset, cutStop length offset len)

/-- The checked values that replace the cut; `none` when the type of one of them is wrong. -/
def Call.replacement (a : SlotList V T) : Call V → Option (List V)
  | .toEnd _ => some []
  | .part _ _ => some []
  | .replace _ _ v => a.checkVals env v

/-- Every move reads entries of the list. -/
def ReadsEntries (a : SlotList V T) (moves : List Move) : Prop :=
  ∀ mv ∈ moves, ∀ i, mv.Reads i → i < a.length

/-- The list has the part before the cut, the replacement and the part after the cut, `extract`
returns the cut, an exception leaves the list alone, and only entries of the list are moved. -/
structure SpliceRight (a : SlotList V T) (c : Call V) (extract : Bool) : Prop where
  raised : (a.splice env c extract).raised = true ↔ c.replacement env a = none
  unchanged : (a.splice env c extract).raised = true → (a.splice env c extract).list = a
  entries : ∀ vs, c.replacement env a = some vs → (a.splice env c extract).list.entries =
    a.entries.take (c.cut a.length).1 ++ vs ++ a.entries.drop (c.cut a.length).2
  extracted : extract = true → c.replacement env a ≠ none → (a.splice env c extract).rv =
    some ((a.entries.take (c.cut a.length).2).drop (c.cut a.length).1)
  reads : a.ReadsEntries (a.splice env c extract).moves

/-- The replacement of a call is not shorter than its cut. -/
def Call.NotShrinking (a : SlotList V T) : Call V → Prop
  | .replace offset len v => ∀ vs, a.checkVals env v = some vs →
      cutStop a.length offset len - cutStart a.length offset ≤ vs.length
  | _ => True

/-! ### The cut -/

theorem toDiff_toSize {x : Int} (h : IsDiff x) : toDiff (toSize x) = x := by
  unfold IsDiff at h
  unfold toDiff toSize
  split <;> omega

theorem toSize_of_nonneg {x : Int} (h : IsDiff x) (hx : 0 ≤ x) : toSize x = x.toNat := by
  unfold IsDiff at h
  unfold toSize
  omega

section
variable {env} {a : SlotList V T} {offset len : Int} {start stop n : Nat} {l : ListPriv V T}
  {r : Option (ListPriv V T × Option (ListPriv V T))}

theorem cutStart_le (n : Nat) (offset : Int) : cutStart n offset ≤ n := by
  unfold cutStart
  split <;> omega

/-- The unsigned arithmetic finds the start of the cut. -/
theorem checkOffset_eq (hlen : IsDiff a.length) (hoffset : IsDiff offset) :
    a.checkOffset offset = cutStart a.length offset := by
  unfold checkOffset cutStart
  by_cases hneg : offset < 0
  · have hsum : IsDiff (a.length + offset) := by
      unfold IsDiff at *
      omega
    rw [if_pos hneg, if_pos hneg, toDiff_toSize hsum]
    dsimp only
    split
    · omega
    · rw [toSize_of_nonneg hsum (by omega)]
      omega
  · rw [if_neg hneg, if_neg hneg, toSize_of_nonneg hoffset (by omega)]
    split <;> omega

/-- The clamped length ends at the end of the cut. -/
theorem checkLen_eq (hlen : IsDiff a.length) (hl : IsDiff len) :
    min (cutStart a.length offset + a.checkLen (cutStart a.length offset) len) a.length =
      cutStop a.length offset len := by
  have hle := cutStart_le a.length offset
  unfold checkLen cutStop
  dsimp only
  generalize cutStart a.length offset = start at hle ⊢
  by_cases hneg : len < 0
  · have hsum : IsDiff (a.length + len - start) := by
      unfold IsDiff at *
      omega
    rw [if_pos hneg, if_pos hneg, toDiff_toSize hsum]
    split
    · omega
    · rw [toSize_of_nonneg hsum (by omega)]
      omega
  · rw [if_neg hneg, if_neg hneg, toSize_of_nonneg hl (by omega)]
    omega

/-! ### The entries after the moves -/

theorem length_entries (a : SlotList V T) : a.entries.length = a.length := by
  unfold entries
  rw [List.length_map, List.length_range]

theorem entries_getElem? (a : SlotList V T) (i : Nat) :
    a.entries[i]? = if i < a.length then some (a.slot i) else none := by
  unfold entries
  rw [List.getElem?_map]
  by_cases hi : i < a.length
  · rw [if_pos hi, List.getElem?_range hi]
    rfl
  · rw [if_neg hi, List.getElem?_eq_none (by rw [List.length_range]; omega)]
    rfl

/-- The slots of a list around a place for `n` entries instead of those from `start` to `stop`. -/
structure Moved (a b : SlotList V T) (start stop n : Nat) : Prop where
  length : b.length = start + n + (a.length - stop)
  type : b.complexTypeInfo = a.complexTypeInfo
  before : ∀ i, i < start → b.slot i = a.slot i
  after : ∀ i, i < a.length - stop → b.slot (start + n + i) = a.slot (stop + i)

/-- The entries after the new values are written to their place. -/
theorem Moved.entries_write {b : SlotList V T} {vs : List V} (h : Moved a b start stop vs.length)
    (hstart : start ≤ a.length) :
    (b.write env start vs).entries = a.entries.take start ++ vs ++ a.entries.drop stop := by
  have hslot : ∀ i, (b.write env start vs).slot i =
      if start ≤ i ∧ i < start + vs.length then vs.getD (i - start) env.nothing
      else b.slot i := fun _ => rfl
  have hlength : (b.write env start vs).length = b.length := rfl
  have htake : (a.entries.take start).length = start := by
    rw [List.length_take, length_entries]
    omega
  refine List.ext_getElem? fun i => ?_
  rw [entries_getElem?, hlength, h.length, hslot]
  by_cases h1 : i < start
  · rw [List.append_assoc, List.getElem?_append_left (by omega), List.getElem?_take_of_lt h1,
      entries_getElem?, if_pos (show i < start + vs.length + (a.length - stop) by omega),
      if_pos (show i < a.length by omega), if_neg (by omega), h.before i h1]
  · by_cases h2 : i < start + vs.length
    · obtain ⟨j, rfl⟩ : ∃ j, i = start + j := ⟨i - start, by omega⟩
      have hj : j < vs.length := by omega
      rw [List.append_assoc, List.getElem?_append_right (by omega), htake, Nat.add_sub_cancel_left,
        List.getElem?_append_left hj, List.getElem?_eq_getElem hj,
        if_pos (show start + j < start + vs.length + (a.length - stop) by omega),
        if_pos (show start ≤ start + j ∧ start + j < start + vs.length by omega),
        List.getD_eq_getElem?_getD, List.getElem?_eq_getElem hj]
      rfl
    · obtain ⟨j, rfl⟩ : ∃ j, i = start + vs.length + j := ⟨i - (start + vs.length), by omega⟩
      have hpart : (a.entries.take start ++ vs).length = start + vs.length := by
        rw [List.length_append, htake]
      rw [List.getElem?_append_right (by omega), hpart, Nat.add_sub_cancel_left, List.getElem?_drop,
        entries_getElem?]
      by_cases hj : j < a.length - stop
      · rw [if_pos (show start + vs.length + j < start + vs.length + (a.length - stop) by omega),
          if_pos (show stop + j < a.length by omega), if_neg (by omega), h.after j hj]
      · rw [if_neg (show ¬start + vs.length + j < start + vs.length + (a.length - stop) by omega),
          if_neg (show ¬stop + j < a.length by omega)]

theorem resize_length (a : SlotList V T) (num : Nat) : (a.resize env num).length = num := by
  unfold resize
  split <;> rfl

/-- The slots of a list that stays in the list are not changed by `resize`. -/
theorem resize_slot {num i : Nat} (hi : i < a.length) : (a.resize env num).slot i = a.slot i := by
  unfold resize
  split
  · rfl
  · show (if _ then _ else _) = _
    rw [if_neg (by omega)]

/-- The removed entries are those of the cut. -/
theorem removed_extract (a : SlotList V T) (start stop : Nat) :
    a.removed start stop true = some ((a.entries.take stop).drop start) := by
  unfold removed
  rw [if_pos (.inl rfl)]

/-- The clamped end and length of a cut. -/
theorem clamp_eq (hstart : start ≤ a.length) :
    (if n > a.length - start then (a.length, a.length - start) else (start + n, n)) =
      (min (start + n) a.length, min (start + n) a.length - start) := by
  split
  · rw [Nat.min_eq_right (by omega)]
  · rw [Nat.min_eq_left (by omega), Nat.add_sub_cancel_left]

theorem memmove_slot (a : SlotList V T) (mv : Move) (i : Nat) : (a.memmove mv).slot i =
    if mv.dst ≤ i ∧ i < mv.dst + mv.count then a.slot (mv.src + (i - mv.dst)) else a.slot i := rfl

theorem zeroEntries_slot (a : SlotList V T) (start stop i : Nat) :
    (a.zeroEntries env start stop).slot i =
      if start ≤ i ∧ i < stop then env.nothing else a.slot i := rfl

theorem resize_type (a : SlotList V T) (num : Nat) :
    (a.resize env num).complexTypeInfo = a.complexTypeInfo := by
  unfold resize
  split <;> rfl

theorem moveDown_spec (hstart : start < a.length) (hle : start ≤ stop) (hstop : stop ≤ a.length) :
    Moved a (a.moveDown env start stop (stop - start)).1 start stop 0 ∧
      a.ReadsEntries (a.moveDown env start stop (stop - start)).2 := by
  unfold moveDown
  split
  · refine ⟨⟨?_, resize_type _ _, fun i hi => ?_, fun i hi => ?_⟩, ?_⟩
    · rw [resize_length]
      omega
    · dsimp only
      rw [resize_slot (by show i < a.length; omega), zeroEntries_slot, if_neg (by omega),
        memmove_slot, if_neg (by dsimp only; omega)]
    · dsimp only
      rw [resize_slot (by show start + 0 + i < a.length; omega), zeroEntries_slot,
        if_neg (by omega), memmove_slot, if_pos (by dsimp only; omega)]
      dsimp only
      congr 1
      omega
    · intro mv hmv i hi
      rw [List.mem_singleton] at hmv
      subst hmv
      unfold Move.Reads at hi
      dsimp only at hi
      omega
  · -- the cut is at the end, and its last entry is cleared
    refine ⟨⟨?_, resize_type _ _, fun i hi => ?_, fun i hi => ?_⟩, fun mv hmv => ?_⟩
    · rw [resize_length]
      omega
    · dsimp only
      rw [resize_slot (by show i < a.length; omega), zeroEntries_slot, if_neg (by omega)]
    · omega
    · cases hmv

theorem makeBigger_spec (hle : start ≤ stop) (hstop : stop ≤ a.length) (hn : stop - start < n) :
    Moved a (a.makeBigger env stop (stop - start) n).1 start stop n ∧
      a.ReadsEntries (a.makeBigger env stop (stop - start) n).2 := by
  unfold makeBigger
  split
  · refine ⟨⟨?_, resize_type _ _, fun i hi => ?_, fun i hi => ?_⟩, ?_⟩
    · show (a.resize env _).length = _
      rw [resize_length]
      omega
    · rw [memmove_slot, if_neg (by dsimp only; omega), resize_slot (by omega)]
    · rw [memmove_slot, if_pos (by dsimp only; omega)]
      dsimp only
      rw [resize_slot (by omega)]
      congr 1
      omega
    · intro mv hmv i hi
      rw [List.mem_singleton] at hmv
      subst hmv
      unfold Move.Reads at hi
      dsimp only at hi
      omega
  · refine ⟨⟨?_, resize_type _ _, fun i hi => ?_, fun i hi => ?_⟩, fun mv hmv => ?_⟩
    · rw [resize_length]
      omega
    · rw [resize_slot (by omega)]
    · omega
    · cases hmv

/-- The entries are right, but the move reads as many slots behind the list as it gets shorter. -/
theorem makeSmaller_spec (hstop : stop ≤ a.length) (hn : n < stop - start) :
    Moved a (a.makeSmaller env start (stop - start) n).1 start stop n ∧
      ¬a.ReadsEntries (a.makeSmaller env start (stop - start) n).2 := by
  unfold makeSmaller
  refine ⟨⟨?_, resize_type _ _, fun i hi => ?_, fun i hi => ?_⟩, fun hreads => ?_⟩
  · rw [resize_length]
    omega
  · rw [resize_slot (by show i < a.length; omega), zeroEntries_slot, if_neg (by omega),
      memmove_slot, if_neg (by dsimp only; omega)]
  · rw [resize_slot (by show start + n + i < a.length; omega), zeroEntries_slot, if_neg (by omega),
      memmove_slot, if_pos (by dsimp only; omega)]
    dsimp only
    congr 1
    omega
  · -- the first slot behind the list is read
    have hlast := hreads _ (List.mem_singleton_self _) a.length (by
      unfold Move.Reads
      dsimp only
      omega)
    exact Nat.lt_irrefl _ hlast

/-- What a splice without a replacement leaves. -/
theorem spliceIntern_spec (hstart : start < a.length) (extract : Bool) :
    let stop := min (start + n) a.length
    let r := a.spliceIntern env start n extract
    r.raised = false ∧ r.list.entries = a.entries.take start ++ [] ++ a.entries.drop stop ∧
      r.list.complexTypeInfo = a.complexTypeInfo ∧ r.rv = a.removed start stop extract ∧
      a.ReadsEntries r.moves := by
  intro stop r
  obtain ⟨hmoved, hreads⟩ := @moveDown_spec _ _ env _ _ stop hstart (by omega) (by omega)
  have hr : r = { list := (a.moveDown env start stop (stop - start)).1
                  rv := a.removed start stop extract
                  moves := (a.moveDown env start stop (stop - start)).2, raised := false } := by
    show spliceIntern env a start n extract = _
    unfold spliceIntern
    rw [clamp_eq (Nat.le_of_lt hstart)]
  have hwrite : ∀ b : SlotList V T, (b.write env start []).entries = b.entries := by
    intro b
    refine congrArg (fun f => (List.range b.length).map f) ?_
    funext i
    exact if_neg (by rw [List.length_nil]; omega)
  rw [hr]
  refine ⟨rfl, ?_, hmoved.type, rfl, hreads⟩
  rw [← hwrite]
  exact Moved.entries_write hmoved (Nat.le_of_lt hstart)

/-- What a splice with a replacement leaves, and when it reads only entries of the list. -/
theorem spliceInternValue_spec (hstart : start ≤ a.length) {v : V} {vs : List V}
    (hvs : a.checkVals env v = some vs) (extract : Bool) :
    let stop := min (start + n) a.length
    let r := a.spliceInternValue env start n v extract
    r.raised = false ∧ r.list.entries = a.entries.take start ++ vs ++ a.entries.drop stop ∧
      r.list.complexTypeInfo = a.complexTypeInfo ∧ r.rv = a.removed start stop extract ∧
      (a.ReadsEntries r.moves ↔ stop - start ≤ vs.length) := by
  intro stop r
  have hle : start ≤ stop := by omega
  have hstop : stop ≤ a.length := by omega
  have hr : ∀ p : SlotList V T × List Move,
      (if vs.length > stop - start then a.makeBigger env stop (stop - start) vs.length
        else if stop - start > vs.length then a.makeSmaller env start (stop - start) vs.length
        else (a, [])) = p →
      r = { list := p.1.write env start vs, rv := a.removed start stop extract
            moves := p.2, raised := false } := by
    intro p hp
    show spliceInternValue env a start n v extract = _
    unfold spliceInternValue
    rw [hvs]
    dsimp only
    rw [clamp_eq hstart]
    rw [hp]
  by_cases hgrow : vs.length > stop - start
  · obtain ⟨hmoved, hreads⟩ := @makeBigger_spec _ _ env a _ _ _ hle hstop hgrow
    rw [hr _ (if_pos hgrow)]
    exact ⟨rfl, hmoved.entries_write hstart, hmoved.type, rfl, iff_of_true hreads (by omega)⟩
  · by_cases hshrink : stop - start > vs.length
    · obtain ⟨hmoved, hreads⟩ := @makeSmaller_spec _ _ env a _ _ _ hstop hshrink
      rw [hr _ ((if_neg hgrow).trans (if_pos hshrink))]
      exact ⟨rfl, hmoved.entries_write hstart, hmoved.type, rfl, iff_of_false hreads (by omega)⟩
    · -- as many entries as before
      have hsame : start + vs.length = stop := by omega
      have hmoved : Moved a a start stop vs.length :=
        ⟨by omega, rfl, fun _ _ => rfl, fun i _ => by rw [hsame]⟩
      rw [hr _ ((if_neg hgrow).trans (if_neg hshrink))]
      exact ⟨rfl, hmoved.entries_write hstart, rfl, rfl,
        iff_of_true (fun mv hmv => by cases hmv) (by omega)⟩

/-- A call without a replacement, after offset and length are checked. -/
theorem splice_right_of_cut {c : Call V} {extract : Bool} (n : Nat) (offset : Int)
    (hvs : c.replacement env a = some []) (hstart : (c.cut a.length).1 = cutStart a.length offset)
    (hstop : (c.cut a.length).2 = min (cutStart a.length offset + n) a.length)
    (hcall : a.splice env c extract = if cutStart a.length offset = a.length then
        { list := a, rv := if extract then some [] else none, moves := [], raised := false }
      else a.spliceIntern env (cutStart a.length offset) n extract) :
    a.SpliceRight env c extract := by
  have hle := cutStart_le a.length offset
  generalize cutStart a.length offset = start at *
  by_cases hend : start = a.length
  · -- there is nothing to cut
    have hsame : (c.cut a.length).2 = a.length := by omega
    have hall : a.entries.take a.length = a.entries ∧ a.entries.drop a.length = [] := by
      rw [← length_entries]
      exact ⟨List.take_length, List.drop_length⟩
    rw [if_pos hend] at hcall
    refine ⟨?_, fun _ => by rw [hcall], fun vs h => ?_, fun hex _ => ?_, ?_⟩
    · rw [hcall, hvs]
      exact iff_of_false Bool.false_ne_true (Option.some_ne_none _)
    · rw [hvs, Option.some.injEq] at h
      rw [hcall, hsame, hstart, hend, ← h, hall.1, hall.2, List.append_nil, List.append_nil]
    · rw [hcall, hsame, hstart, hend, hall.1, hall.2, if_pos hex]
    · rw [hcall]
      exact fun mv hmv => by cases hmv
  · rw [if_neg hend] at hcall
    obtain ⟨hraised, hentries, -, hrv, hreads⟩ :=
      @spliceIntern_spec _ _ env a _ n (by omega : start < a.length) extract
    rw [← hcall] at hraised hentries hrv hreads
    rw [← hstop] at hentries hrv
    refine ⟨?_, fun h => ?_, fun vs h => ?_, fun hex _ => ?_, hreads⟩
    · rw [hraised, hvs]
      exact iff_of_false Bool.false_ne_true (Option.some_ne_none _)
    · rw [hraised] at h
      exact absurd h Bool.false_ne_true
    · rw [hvs, Option.some.injEq] at h
      rw [hentries, hstart, ← h]
    · subst hex
      rw [hrv, hstart, removed_extract]

/-- A splice is right, except that a replacement that is shorter than its cut moves slots that are
no entries of the list. -/
theorem splice_right_iff (hlen : IsDiff a.length) (c : Call V) (hc : c.InRange) (extract : Bool) :
    a.SpliceRight env c extract ↔ c.NotShrinking env a := by
  cases c with
  | toEnd offset =>
    refine iff_of_true (splice_right_of_cut (a.length - cutStart a.length offset)
      offset rfl rfl ?_ ?_) trivial
    · have hle := cutStart_le a.length offset
      show a.length = _
      omega
    · unfold splice
      dsimp only
      rw [checkOffset_eq hlen hc]
  | part offset len =>
    refine iff_of_true (splice_right_of_cut
      (a.checkLen (cutStart a.length offset) len) offset rfl rfl
      (checkLen_eq hlen hc.2).symm ?_) trivial
    unfold splice
    dsimp only
    rw [checkOffset_eq hlen hc.1]
  | replace offset len v =>
    have hcall : a.splice env (.replace offset len v) extract =
        a.spliceInternValue env (cutStart a.length offset)
          (a.checkLen (cutStart a.length offset) len) v extract := by
      unfold splice
      dsimp only
      rw [checkOffset_eq hlen hc.1]
    cases hvs : a.checkVals env v with
    | none =>
      -- the types are checked before the list is modified
      have hraised : a.splice env (.replace offset len v) extract =
          { list := a, rv := none, moves := [], raised := true } := by
        rw [hcall]
        unfold spliceInternValue
        rw [hvs]
      refine iff_of_true ⟨?_, fun _ => by rw [hraised], fun vs h => ?_, fun _ h => ?_, ?_⟩ ?_
      · rw [hraised]
        exact iff_of_true rfl hvs
      · exact absurd (hvs.symm.trans h) (Option.some_ne_none _).symm
      · exact absurd hvs h
      · rw [hraised]
        exact fun mv hmv => by cases hmv
      · intro vs h
        rw [hvs] at h
        cases h
    | some vs =>
      obtain ⟨hraised, hentries, -, hrv, hreads⟩ :=
        @spliceInternValue_spec _ _ env _ _ (a.checkLen (cutStart a.length offset) len)
          (cutStart_le a.length offset) _ _ hvs extract
      rw [← hcall] at hraised hentries hrv hreads
      rw [checkLen_eq hlen hc.2] at hentries hrv hreads
      have hcond : (Call.replace offset len v).NotShrinking env a ↔
          cutStop a.length offset len - cutStart a.length offset ≤ vs.length := by
        constructor
        · intro h
          exact h vs hvs
        · intro h ws hws
          rw [hvs, Option.some.injEq] at hws
          rwa [← hws]
      rw [hcond, ← hreads]
      constructor
      · intro h
        exact h.reads
      · intro h
        refine ⟨?_, fun hr => ?_, fun ws hws => ?_, fun hex _ => ?_, h⟩
        · rw [hraised]
          exact iff_of_false Bool.false_ne_true fun hnone =>
            Option.some_ne_none _ (hvs.symm.trans hnone)
        · rw [hraised] at hr
          exact absurd hr Bool.false_ne_true
        · have hsame : some vs = some ws := hvs.symm.trans hws
          rw [Option.some.injEq] at hsame
          rw [hentries, ← hsame]
          rfl
        · subst hex
          rw [hrv, removed_extract]
          rfl

/-! ### The list model -/

/-- A call of `splice` or `extract` on the list model; the inner `none` is an exception. -/
def Call.onList (env : Env V T) (c : Call V) (l : ListPriv V T) (extract : Bool) :
    Option (Option (ListPriv V T × Option (ListPriv V T))) :=
  match c with
  | .toEnd offset => (l.splice env offset extract).map some
  | .part offset len => (l.spliceLen env offset len extract).map some
  | .replace offset len v => l.spliceValue env offset len v extract

/-- The slots after a call hold the list after it, and the removed entries are the same. -/
def Agrees (o : Spliced V T) : Option (ListPriv V T × Option (ListPriv V T)) → Prop
  | none => o.raised = true
  | some (l', rv) => o.raised = false ∧ o.list.entries = l'.entry ∧ o.rv = rv.map ListPriv.entry

theorem removeEntries_entry (vs : List V) : ∀ (count count' : Nat) (rv rv' : Option (ListPriv V T)),
    ListPriv.removeEntries env vs count rv = some (count', rv') →
    rv'.map ListPriv.entry =
      if rv.isSome ∨ vs ≠ [] then some ((rv.map ListPriv.entry).getD [] ++ vs) else none := by
  induction vs with
  | nil =>
    intro count count' rv rv' h
    cases h
    cases rv with
    | none => rfl
    | some l => simp
  | cons v vs ih =>
    intro count count' rv rv' h
    unfold ListPriv.removeEntries at h
    simp only [Option.bind_eq_bind, Option.bind_eq_some_iff] at h
    obtain ⟨count1, -, h⟩ := h
    rw [ih _ _ _ _ h]
    have hpush : ∀ l : ListPriv V T, (l.pushIntern env v).entry = l.entry ++ [v] := fun _ => rfl
    cases rv with
    | none => simp [hpush]
    | some l => simp [hpush]

theorem checkVals_congr {l' : ListPriv V T} (hty : l.complexTypeInfo = l'.complexTypeInfo)
    (vs : List V) : ListPriv.checkVals env l vs = ListPriv.checkVals env l' vs := by
  have hval : ∀ v, l.checkVal env v = l'.checkVal env v := by
    intro v
    unfold ListPriv.checkVal
    rw [hty]
  induction vs with
  | nil => rfl
  | cons v vs ih =>
    unfold ListPriv.checkVals
    rw [hval, ih]

theorem checkOffset_list (l : ListPriv V T) (offset : Int) :
    l.checkOffset offset = cutStart l.entry.length offset := by
  unfold ListPriv.checkOffset cutStart
  split_ifs <;> omega

/-- A splice of the list model between the same entries. -/
theorem spliceIntern_refines (hl : l.entry = a.entries) (hstart : start < a.length) (extract : Bool)
    {r : ListPriv V T × Option (ListPriv V T)} (h : l.spliceIntern env start n extract = some r) :
    Agrees (a.spliceIntern env start n extract) (some r) := by
  obtain ⟨hraised, hentries, -, hrv, -⟩ := @spliceIntern_spec _ _ env _ _ n hstart extract
  have hlength : l.entry.length = a.length := by
    rw [hl, length_entries]
  have hstop : (if n > l.entry.length - start then l.entry.length else start + n) =
      min (start + n) a.length := by
    split <;> omega
  unfold ListPriv.spliceIntern at h
  simp only [Option.bind_eq_bind, Option.bind_eq_some_iff, Option.pure_def, Option.some.injEq] at h
  obtain ⟨⟨count, rv⟩, hremoved, rfl⟩ := h
  rw [hstop] at hremoved ⊢
  refine ⟨hraised, ?_, ?_⟩
  · rw [hentries, hl, List.append_nil]
  · have hmap := removeEntries_entry _ _ _ _ _ hremoved
    rw [hrv, hmap, hl]
    unfold removed
    cases extract with
    | true => simp [ListPriv.getCopy]
    | false => simp

theorem spliceInternValue_refines (hl : l.entry = a.entries)
    (hty : l.complexTypeInfo = a.complexTypeInfo) (hstart : start ≤ a.length) (v : V)
    (extract : Bool) (h : l.spliceInternValue env start n v extract = some r) :
    Agrees (a.spliceInternValue env start n v extract) r := by
  have hvals : (match env.asList v with
      | some sl => ListPriv.checkVals env l sl.entry
      | none => (l.checkVal env v).map fun v' => [v']) = a.checkVals env v := by
    have hval : l.checkVal env v = (a.toPriv 0).checkVal env v := by
      unfold ListPriv.checkVal
      rw [hty]
      rfl
    unfold checkVals checkVal
    rw [hval]
    cases env.asList v with
    | none => rfl
    | some sl => exact checkVals_congr hty sl.entry
  unfold ListPriv.spliceInternValue at h
  dsimp only at h
  split at h
  · rename_i hnone
    cases h
    have hvs : a.checkVals env v = none := hvals.symm.trans hnone
    show (a.spliceInternValue env start n v extract).raised = true
    unfold spliceInternValue
    rw [hvs]
  · rename_i vs hsome
    have hvs : a.checkVals env v = some vs := hvals.symm.trans hsome
    obtain ⟨hraised, hentries, -, hrv, -⟩ :=
      @spliceInternValue_spec _ _ env _ _ n hstart _ _ hvs extract
    have hlength : l.entry.length = a.length := by
      rw [hl, length_entries]
    have hstop : (if n > l.entry.length - start then l.entry.length else start + n) =
        min (start + n) a.length := by
      split <;> omega
    simp only [Option.bind_eq_bind, Option.bind_eq_some_iff, Option.pure_def,
      Option.some.injEq] at h
    obtain ⟨⟨count, rv⟩, hremoved, rfl⟩ := h
    rw [hstop] at hremoved ⊢
    refine ⟨hraised, ?_, ?_⟩
    · rw [hentries, hl]
    · have hmap := removeEntries_entry _ _ _ _ _ hremoved
      rw [hrv, hmap, hl]
      unfold removed
      cases extract with
      | true => simp [ListPriv.getCopy]
      | false => simp

/-- The calls on the slots are the calls of the list model. -/
theorem splice_refines (hl : l.entry = a.entries) (hty : l.complexTypeInfo = a.complexTypeInfo)
    (hlen : IsDiff a.length) (c : Call V) (hc : c.InRange) (extract : Bool)
    (h : c.onList env l extract = some r) :
    Agrees (a.splice env c extract) r := by
  have hlength : l.entry.length = a.length := by
    rw [hl, length_entries]
  -- the two levels cut at the same place, for the same length
  have hcut : ∀ {offset : Int}, IsDiff offset →
      l.checkOffset offset = cutStart a.length offset ∧
        a.checkOffset offset = cutStart a.length offset := by
    intro offset hoffset
    rw [checkOffset_list, hlength, checkOffset_eq hlen hoffset]
    exact ⟨rfl, rfl⟩
  have hnlen : ∀ {len : Int} (start : Nat), start ≤ a.length → IsDiff len →
      l.checkLen start len = a.checkLen start len := by
    intro len start hstart hl'
    unfold ListPriv.checkLen checkLen
    rw [hlength]
    split
    · have hsum : IsDiff (a.length + len - start) := by
        unfold IsDiff at *
        omega
      rw [toDiff_toSize hsum]
      dsimp only
      split
      · omega
      · rw [toSize_of_nonneg hsum (by omega)]
    · rw [toSize_of_nonneg hl' (by omega)]
  -- a cut at the end leaves early, before a slot is touched
  have hunmoved : Agrees
      { list := a, rv := if extract then some [] else none, moves := [], raised := false }
      (some (l, if extract then some l.getCopy else none)) := by
    refine ⟨rfl, hl.symm, ?_⟩
    cases extract <;> rfl
  have hle := fun offset => cutStart_le a.length offset
  cases c with
  | toEnd offset =>
    unfold Call.onList ListPriv.splice at h
    unfold splice
    dsimp only at h ⊢
    rw [(hcut hc).1, hlength] at h
    rw [(hcut hc).2]
    have hoffset := hle offset
    obtain ⟨p, hp, rfl⟩ := Option.map_eq_some_iff.mp h
    by_cases hend : cutStart a.length offset = a.length
    · rw [if_pos hend] at hp ⊢
      cases hp
      exact hunmoved
    · rw [if_neg hend] at hp ⊢
      exact spliceIntern_refines hl (by omega) extract hp
  | part offset len =>
    unfold Call.onList ListPriv.spliceLen at h
    unfold splice
    dsimp only at h ⊢
    have hoffset := hle offset
    rw [(hcut hc.1).1, hlength, hnlen _ hoffset hc.2] at h
    rw [(hcut hc.1).2]
    obtain ⟨p, hp, rfl⟩ := Option.map_eq_some_iff.mp h
    by_cases hend : cutStart a.length offset = a.length
    · rw [if_pos hend] at hp ⊢
      cases hp
      exact hunmoved
    · rw [if_neg hend] at hp ⊢
      exact spliceIntern_refines hl (by omega) extract hp
  | replace offset len v =>
    unfold Call.onList ListPriv.spliceValue at h
    unfold splice
    dsimp only at h ⊢
    have hoffset := hle offset
    rw [(hcut hc.1).1, hnlen _ hoffset hc.2] at h
    rw [(hcut hc.1).2]
    exact spliceInternValue_refines hl hty hoffset v extract h

end

/-- Values that are numbers, or lists of numbers. -/
def numberTypes : Types Nat Unit where
  scans := fun _ => false
  accept := fun _ v => some v
  stripNode := id
  complex := fun _ => false
  newElementType := fun ty _ => ty
  autoType := none

/-- The list of 0, 1 and 2. -/
def threeNumbers : SlotList (Value Nat Unit) Unit :=
  { slot := fun i => .node i, length := 3, complexTypeInfo := none }

/-- The second number is replaced by two others. -/
theorem threeNumbers_replace : threeNumbers.SpliceRight numberTypes.env
    (.replace 1 1 (.list [.node 7, .node 8] 0 none)) true := by
  refine (splice_right_iff (by decide) _ (by decide) true).mpr ?_
  intro vs hvs
  cases hvs
  decide

/-- The second number is extracted, as from the list. -/
theorem threeNumbers_extract :
    Agrees (threeNumbers.splice numberTypes.env (.part 1 1) true)
      (some (⟨[.node 0, .node 2], 0, none⟩, some ⟨[.node 1], 0, none⟩)) :=
  splice_refines (l := ⟨[.node 0, .node 1, .node 2], 0, none⟩) rfl rfl (by decide) (.part 1 1)
    (by decide) true rfl

/-- All three numbers are replaced by one: two slots behind the list are read. -/
theorem threeNumbers_wrong :
    (threeNumbers.splice numberTypes.env (.replace 0 3 (.node 7)) false).moves =
      [{ dst := 1, src := 3, count := 2 }] ∧
    ¬threeNumbers.SpliceRight numberTypes.env (.replace 0 3 (.node 7)) false := by
  refine ⟨rfl, fun h => ?_⟩
  have hread := h.reads { dst := 1, src := 3, count := 2 } (List.mem_singleton_self _) 3
    ⟨by decide, by decide⟩
  exact absurd hread (by decide)

end SlotList

end Qore.ListNode
