import Mathlib.Data.List.Basic

/-!
# `Qore.ListNode.Model`: lists and their scan count

`qore_list_private`: the entries of a list and `obj_count`, the number of entries that the cycle
collector has to look into. Every operation adjusts the count by hand. A count that would go
below zero is `none`: `incScanCount` asserts that it does not, and an `unsigned` wraps.

The model is over any type of values. `Env` is what the list code uses of the values and of their
types.
-/

set_option autoImplicit false

namespace Qore.ListNode

/-- `qore_list_private`. -/
structure ListPriv (V T : Type) where
  entry : List V
  objCount : Nat
  complexTypeInfo : Option T
  deriving DecidableEq

/-- What the list code uses of values and types. -/
structure Env (V T : Type) where
  /-- `QoreValue()` -/
  nothing : V
  /-- `needs_scan` -/
  needsScan : V → Bool
  needsScan_nothing : needsScan nothing = false
  /-- The list of a value of type `NT_LIST`. -/
  asList : V → Option (ListPriv V T)
  /-- The list as a value. -/
  ofList : ListPriv V T → V
  /-- `acceptAssignment` for the element type of a typed list; `none` is an exception. -/
  accept : T → V → Option V
  /-- `copy_strip_complex_types` -/
  strip : V → V
  /-- The type of a list after `setListTypeFromNewElementType`. -/
  newElementType : Option T → Option T → Option T
  /-- `new QoreListNode(autoTypeInfo)` -/
  autoType : Option T

/-- `incScanCount(1)` on an `unsigned`. -/
def incCount (count : Nat) : Nat := (count + 1) % 4294967296

/-- `incScanCount(-1)`. -/
def decCount (count : Nat) : Option Nat := if count = 0 then none else some (count - 1)

namespace ListPriv

variable {V T : Type} (env : Env V T)

/-- `if (needs_scan(v)) incScanCount(1)`. -/
def addScan (count : Nat) (v : V) : Nat := if env.needsScan v then incCount count else count

/-- `if (needs_scan(v)) incScanCount(-1)`. -/
def dropScan (count : Nat) (v : V) : Option Nat :=
  if env.needsScan v then decCount count else some count

/-- `getCopy`: an empty list of the same type. -/
def getCopy (l : ListPriv V T) : ListPriv V T :=
  { entry := [], objCount := 0, complexTypeInfo := l.complexTypeInfo }

/-- `resize`. -/
def resize (l : ListPriv V T) (num : Nat) : ListPriv V T :=
  if num < l.entry.length then { l with entry := l.entry.take num }
  else { l with entry := l.entry ++ List.replicate (num - l.entry.length) env.nothing }

/-- `getEntryReference`: the list with an entry at position `num`. -/
def extend (l : ListPriv V T) (num : Nat) : ListPriv V T :=
  if num ≥ l.entry.length then l.resize env (num + 1) else l

/-- `checkVal`. -/
def checkVal (l : ListPriv V T) (v : V) : Option V :=
  match l.complexTypeInfo with
  | some ty => env.accept ty v
  | none => some (env.strip v)

/-- `pushIntern`. -/
def pushIntern (l : ListPriv V T) (v : V) : ListPriv V T :=
  { l with entry := l.entry ++ [v], objCount := addScan env l.objCount v }

/-- A loop of `pushIntern`. -/
def pushAll (l : ListPriv V T) (vs : List V) : ListPriv V T := vs.foldl (pushIntern env) l

/-- `push`; `false` is an exception. -/
def push (l : ListPriv V T) (v : V) : ListPriv V T × Bool :=
  match l.checkVal env v with
  | some v' => (l.pushIntern env v', true)
  | none => (l, false)

/-- `merge`: the values are pushed until one of them raises an exception. -/
def merge : ListPriv V T → List V → ListPriv V T × Bool
  | l, [] => (l, true)
  | l, v :: vs =>
    match l.push env v with
    | (l', true) => merge l' vs
    | (l', false) => (l', false)

/-- `QoreListNode::insert`. The count looks at the value as it was passed, after its conversion.
When the conversion gave another value and released this one, `freed` is what `needs_scan` finds in
its memory. -/
def insert (l : ListPriv V T) (v : V) (freed : Option Bool) : ListPriv V T × Bool :=
  match l.checkVal env v with
  | some v' =>
    ({ l with
        entry := v' :: l.entry
        objCount := if freed.getD (env.needsScan v) then incCount l.objCount else l.objCount },
      true)
  | none => (l, false)

/-- `QoreListNode::setEntry`, which does not check the type of the value. -/
def setEntry (l : ListPriv V T) (index : Nat) (v : V) : Option (ListPriv V T) := do
  let l := l.extend env index
  let count ← dropScan env l.objCount (l.entry.getD index env.nothing)
  return { l with entry := l.entry.set index v, objCount := addScan env count v }

/-- `QoreListNode::pop`. -/
def pop (l : ListPriv V T) : Option (ListPriv V T × V) :=
  if l.entry.length = 0 then some (l, env.nothing)
  else do
    let rv := l.entry.getD (l.entry.length - 1) env.nothing
    let count ← dropScan env l.objCount rv
    return ({ l with entry := l.entry.take (l.entry.length - 1), objCount := count }, rv)

/-- `QoreListNode::shift`. -/
def shift (l : ListPriv V T) : Option (ListPriv V T × V) :=
  if l.entry.length = 0 then some (l, env.nothing)
  else do
    let rv := l.entry.getD 0 env.nothing
    let count ← dropScan env l.objCount rv
    return ({ l with entry := l.entry.drop 1, objCount := count }, rv)

/-- `getAndClear`. -/
def getAndClear (l : ListPriv V T) (i : Nat) : Option (ListPriv V T × V) :=
  if i ≥ l.entry.length then some (l, env.nothing)
  else do
    let rv := l.entry.getD i env.nothing
    let count ← dropScan env l.objCount rv
    return ({ l with entry := l.entry.set i env.nothing, objCount := count }, rv)

/-- `takeExists`, which clears an entry as `getAndClear` does. -/
def takeExists (l : ListPriv V T) (offset : Nat) : Option (ListPriv V T × V) :=
  l.getAndClear env offset

/-- The count of `swap`, from the needs of the two values. -/
def swapCount (before after : Bool) (count : Nat) : Option Nat :=
  if before then
    if !after then decCount count else some count
  else if after then some (incCount count)
  else some count

/-- `swap`. -/
def swap (l : ListPriv V T) (offset : Nat) (v : V) : Option (ListPriv V T × V) := do
  let l := l.extend env offset
  let p := l.entry.getD offset env.nothing
  let count ← swapCount (env.needsScan p) (env.needsScan v) l.objCount
  return ({ l with entry := l.entry.set offset v, objCount := count }, p)

/-- `checkOffset(offset)`. -/
def checkOffset (l : ListPriv V T) (offset : Int) : Nat :=
  if offset < 0 then (l.entry.length + offset).toNat
  else if offset > l.entry.length then l.entry.length
  else offset.toNat

/-- The length of `checkOffset(offset, len, n_offset, n_len)`. -/
def checkLen (l : ListPriv V T) (nOffset : Nat) (len : Int) : Nat :=
  if len < 0 then (l.entry.length + len - nOffset).toNat else len.toNat

/-- A loop of `removeEntry`, with the list that takes the entries. -/
def removeEntries : List V → Nat → Option (ListPriv V T) → Option (Nat × Option (ListPriv V T))
  | [], count, rv => some (count, rv)
  | v :: vs, count, rv => do
    let count ← dropScan env count v
    let rv := rv.getD { entry := [], objCount := 0, complexTypeInfo := env.autoType }
    removeEntries vs count (some (rv.pushIntern env v))

/-- `spliceIntern(offset, len, extract)`. -/
def spliceIntern (l : ListPriv V T) (offset len : Nat) (extract : Bool) :
    Option (ListPriv V T × Option (ListPriv V T)) := do
  let «end» := if len > l.entry.length - offset then l.entry.length else offset + len
  let removed := (l.entry.take «end»).drop offset
  let (count, rv) ← removeEntries env removed l.objCount (if extract then some l.getCopy else none)
  return ({ l with entry := l.entry.take offset ++ l.entry.drop «end», objCount := count }, rv)

/-- The values to insert: the type of each is checked before the list is modified. -/
def checkVals (l : ListPriv V T) : List V → Option (List V)
  | [] => some []
  | v :: vs => do
    let v' ← l.checkVal env v
    let vs' ← checkVals l vs
    return v' :: vs'

/-- `spliceIntern(offset, len, l, extract, xsink)`. The inner `none` is an exception. The count of
a single value looks at it before its conversion. It has a reference of its own, so the conversion
does not release it. -/
def spliceInternValue (l : ListPriv V T) (offset len : Nat) (v : V) (extract : Bool) :
    Option (Option (ListPriv V T × Option (ListPriv V T))) :=
  let holder :=
    match env.asList v with
    | some sl => checkVals env l sl.entry
    | none => (l.checkVal env v).map fun v' => [v']
  match holder with
  | none => some none
  | some vs => do
    let «end» := if len > l.entry.length - offset then l.entry.length else offset + len
    let removed := (l.entry.take «end»).drop offset
    let (count, rv) ← removeEntries env removed l.objCount
      (if extract then some l.getCopy else none)
    let count :=
      match env.asList v with
      | some _ => vs.foldl (addScan env) count
      | none => addScan env count v
    return some ({ l with entry := l.entry.take offset ++ vs ++ l.entry.drop «end»,
                          objCount := count }, rv)

/-- `QoreListNode::splice(offset)` and `extract(offset)`. -/
def splice (l : ListPriv V T) (offset : Int) (extract : Bool) :
    Option (ListPriv V T × Option (ListPriv V T)) :=
  let nOffset := l.checkOffset offset
  if nOffset = l.entry.length then some (l, if extract then some l.getCopy else none)
  else l.spliceIntern env nOffset (l.entry.length - nOffset) extract

/-- `QoreListNode::splice(offset, len)` and `extract(offset, len)`. -/
def spliceLen (l : ListPriv V T) (offset len : Int) (extract : Bool) :
    Option (ListPriv V T × Option (ListPriv V T)) :=
  let nOffset := l.checkOffset offset
  let nLen := l.checkLen nOffset len
  if nOffset = l.entry.length then some (l, if extract then some l.getCopy else none)
  else l.spliceIntern env nOffset nLen extract

/-- `QoreListNode::splice(offset, len, l, xsink)` and `extract(offset, len, l, xsink)`. -/
def spliceValue (l : ListPriv V T) (offset len : Int) (v : V) (extract : Bool) :
    Option (Option (ListPriv V T × Option (ListPriv V T))) :=
  let nOffset := l.checkOffset offset
  l.spliceInternValue env nOffset (l.checkLen nOffset len) v extract

/-- `copy(strip)`. -/
def copy (l : ListPriv V T) (strip : Bool) : ListPriv V T :=
  if !strip ∨ l.complexTypeInfo.isNone then l.getCopy.pushAll env l.entry
  else pushAll env { entry := [], objCount := 0, complexTypeInfo := none } (l.entry.map env.strip)

/-- `concatenate`, with `mergeWithoutTypeConversion`. -/
def concatenate (l m : ListPriv V T) : ListPriv V T :=
  let rv := { l.copy env false with
    complexTypeInfo := env.newElementType l.complexTypeInfo m.complexTypeInfo }
  rv.pushAll env (if rv.complexTypeInfo.isNone then m.entry.map env.strip else m.entry)

/-- `QoreListNode::reverse`, which writes the entries without counting them. -/
def reverse (l : ListPriv V T) : ListPriv V T :=
  { resize env l.getCopy l.entry.length with entry := l.entry.reverse }

end ListPriv

end Qore.ListNode
