import Mathlib.Logic.Function.Basic
import Qore.Lib.OrderedMap

/-!
# `Qore.Hash.Model`: hashes

`qore_hash_private` keeps its members twice: `member_list`, a linked list in the order of the
inserts, and `hm`, a map from the key to the position in the list. The keys of the map are
pointers to the strings in the members, and its values are iterators of the list, so both are
only good as long as the member lives.

A member is a number, which stands for its address and for the list node that holds it; `mem` is
the memory. A function is `none` where the code would use a member that is freed or an iterator
of a list node that is erased, or where one of its assertions fails.

`Store` is the system: any number of hashes and of iterators over them.
-/

set_option autoImplicit false

namespace Qore.Hash

open Qore.Lib

/-- `HashMember`. -/
structure HashMember (V : Type) where
  key : String
  val : V

/-- The type of a hash: `hashdecl` or `complexTypeInfo`, with the type of the values, is set, or
none of them. -/
inductive HashType (D T : Type) where
  | plain
  | hashdecl (d : D)
  | complex (t : T)

/-- What the hash code uses of values and types. -/
structure Env (V D T : Type) where
  /-- `QoreValue()` -/
  nothing : V
  /-- `typed_hash_decl_private::findMember`: the type of a member of a hashdecl. -/
  findMember : D → String → Option T
  /-- `QoreTypeInfo::acceptInputKey`; `none` is an exception. -/
  acceptInputKey : T → String → V → Option V
  /-- `copy_strip_complex_types` -/
  strip : V → V
  /-- The type that `copyCheckNewType` gives to the copy. -/
  newType : HashType D T → HashType D T → HashType D T

/-- `qore_hash_private`. -/
structure HashPriv (V D T : Type) where
  /-- `member_list` -/
  memberList : List Nat
  /-- The pointer to the key string and the iterator of each entry of the map. -/
  hm : List (Nat × Nat)
  mem : Nat → Option (HashMember V)
  /-- The next free address. -/
  next : Nat
  type : HashType D T

variable {V D T : Type}

/-- The first part of `hash_assignment_priv::assign`: the value that is assigned to the key, or
`none` when the assignment is left out, and whether an exception is there after it. The check of a
typed hash reads the exceptions that were there before. -/
def Env.convert (env : Env V D T) (type : HashType D T) (key : String) (v : V) (xsink : Bool) :
    Option V × Bool :=
  match type with
  | .hashdecl d =>
    match env.findMember d key with
    | none => (none, true)
    | some t =>
      match env.acceptInputKey t key v with
      | none => (none, true)
      | some v' => if xsink then (none, true) else (some v', false)
  | .complex t =>
    match env.acceptInputKey t key v with
    | none => (none, true)
    | some v' => if xsink then (none, true) else (some v', false)
  | .plain => (some (env.strip v), xsink)

namespace HashPriv

/-- A new hash. -/
def empty (type : HashType D T) : HashPriv V D T :=
  { memberList := [], hm := [], mem := fun _ => none, next := 0, type }

/-- `hm.find(key)`, which compares strings through the pointers of the map. -/
def hmFind (h : HashPriv V D T) (key : String) : Option (Option (Nat × Nat)) :=
  if h.hm.all fun e => (h.mem e.1).isSome then
    some (h.hm.find? fun e => (h.mem e.1).map (·.key) = some key)
  else none

/-- `hm.erase(i)`, which hashes the key of the entry. -/
def hmErase (h : HashPriv V D T) (e : Nat × Nat) : Option (HashPriv V D T) := do
  let _ ← h.mem e.1
  return { h with hm := h.hm.erase e }

/-- `hm[om->key.c_str()] = i`. -/
def hmSet (h : HashPriv V D T) (om i : Nat) : Option (HashPriv V D T) := do
  let m ← h.mem om
  match ← h.hmFind m.key with
  | some e => return { h with hm := h.hm.map fun e' => if e' = e then (e'.1, i) else e' }
  | none => return { h with hm := h.hm ++ [(om, i)] }

/-- `findMember`. -/
def findMember (h : HashPriv V D T) (key : String) : Option (Option Nat) := do
  match ← h.hmFind key with
  | some e => return some e.2
  | none => return none

/-- `findCreateMember`. -/
def findCreateMember (env : Env V D T) (h : HashPriv V D T) (key : String) :
    Option (HashPriv V D T × Nat) := do
  match ← h.findMember key with
  | some om => return (h, om)
  | none =>
    let om := h.next
    let h1 := { h with mem := Function.update h.mem om (some ⟨key, env.nothing⟩)
                       next := om + 1, memberList := h.memberList ++ [om] }
    let h2 ← h1.hmSet om om
    return (h2, om)

/-- `hash_assignment_priv::swapImpl`: write the value of a member and return the old one. -/
def swapImpl (h : HashPriv V D T) (om : Nat) (v : V) : Option (HashPriv V D T × V) := do
  let m ← h.mem om
  return ({ h with mem := Function.update h.mem om (some { m with val := v }) }, m.val)

/-- `hash_assignment_priv::assign`. -/
def assign (env : Env V D T) (h : HashPriv V D T) (om : Nat) (v : V) (xsink : Bool) :
    Option (HashPriv V D T × Bool) := do
  let m ← h.mem om
  match env.convert h.type m.key v xsink with
  | (none, x) => return (h, x)
  | (some v', x) =>
    let r ← h.swapImpl om v'
    return (r.1, x)

/-- `getValueRef`: the reference is to the value of the member. -/
def getValueRef (env : Env V D T) (h : HashPriv V D T) (key : String) :
    Option (HashPriv V D T × Nat) := h.findCreateMember env key

/-- The use of a reference: read the value, and write another one. -/
def useRef (h : HashPriv V D T) (om : Nat) (w : Option V) : Option (HashPriv V D T × V) := do
  let m ← h.mem om
  match w with
  | none => return (h, m.val)
  | some v => h.swapImpl om v

/-- `setKeyValueIntern` and `swapKeyValue`. -/
def swapKeyValue (env : Env V D T) (h : HashPriv V D T) (key : String) (v : V) :
    Option (HashPriv V D T × V) := do
  let r ← h.findCreateMember env key
  r.1.swapImpl r.2 v

/-- `setKeyValue`: the member is there before the value is checked. -/
def setKeyValue (env : Env V D T) (h : HashPriv V D T) (key : String) (v : V) (xsink : Bool) :
    Option (HashPriv V D T × Bool) := do
  let r ← h.findCreateMember env key
  r.1.assign env r.2 v xsink

/-- `internDeleteKey`. -/
def internDeleteKey (h : HashPriv V D T) (i : Nat) : Option (HashPriv V D T) := do
  let _ ← h.mem i
  if i ∈ h.memberList then
    return { h with memberList := h.memberList.erase i, mem := Function.update h.mem i none }
  else none

/-- `takeKeyValueIntern` with `exists`. -/
def takeKeyValueExists (h : HashPriv V D T) (key : String) :
    Option (HashPriv V D T × Option V) := do
  match ← h.hmFind key with
  | none => return (h, none)
  | some e =>
    let h1 ← h.hmErase e
    let m ← h1.mem e.2
    let h2 ← h1.internDeleteKey e.2
    return (h2, some m.val)

/-- `takeKeyValueIntern`. -/
def takeKeyValueIntern (env : Env V D T) (h : HashPriv V D T) (key : String) :
    Option (HashPriv V D T × V) := do
  let r ← h.takeKeyValueExists key
  return (r.1, r.2.getD env.nothing)

/-- `removeKey`. -/
def removeKey (env : Env V D T) (h : HashPriv V D T) (key : String) :
    Option (HashPriv V D T) := do
  let r ← h.takeKeyValueIntern env key
  return r.1

/-- `deleteKey`: the value is cleared before the member is freed. -/
def deleteKey (env : Env V D T) (h : HashPriv V D T) (key : String) :
    Option (HashPriv V D T) := do
  match ← h.hmFind key with
  | none => return h
  | some e =>
    let h1 ← h.hmErase e
    let r ← h1.swapImpl e.2 env.nothing
    r.1.internDeleteKey e.2

/-- `derefImpl`, the work of `clear`. -/
def clear (h : HashPriv V D T) : Option (HashPriv V D T) := do
  let _ ← h.memberList.mapM h.mem
  return { h with memberList := [], hm := []
                  mem := fun i => if i ∈ h.memberList then none else h.mem i }

/-- The members in order. -/
def members (h : HashPriv V D T) : Option (List (HashMember V)) := h.memberList.mapM h.mem

/-- `getKeys`. -/
def getKeys (h : HashPriv V D T) : Option (List String) := do
  let ms ← h.members
  return ms.map (·.key)

/-- `getKeyValueExistenceIntern`. -/
def getKeyValueExistence (h : HashPriv V D T) (key : String) : Option (Option V) := do
  match ← h.hmFind key with
  | none => return none
  | some e =>
    let m ← h.mem e.2
    return some m.val

/-- The loop of `merge`, over the nodes of the argument; `none` as the argument is the hash
itself. The loop follows the list of the argument as it is, which does not grow then, since all
the keys are there. -/
def mergeLoop (env : Env V D T) (h0 : Option (HashPriv V D T)) :
    HashPriv V D T → List Nat → Bool → Option (HashPriv V D T × Bool)
  | h, [], xsink => some (h, xsink)
  | h, i :: is, xsink => do
    let m ← (h0.getD h).mem i
    let r ← h.setKeyValue env m.key m.val xsink
    mergeLoop env h0 r.1 is r.2

/-- `merge`. -/
def merge (env : Env V D T) (h : HashPriv V D T) (h0 : Option (HashPriv V D T)) (xsink : Bool) :
    Option (HashPriv V D T × Bool) :=
  mergeLoop env h0 h (h0.getD h).memberList xsink

/-- The loop of `copyIntern`, with the change that it makes to the values. -/
def copyLoop (env : Env V D T) (f : V → V) :
    HashPriv V D T → List (HashMember V) → Option (HashPriv V D T)
  | h, [] => some h
  | h, m :: ms => do
    let r ← h.swapKeyValue env m.key (f m.val)
    copyLoop env f r.1 ms

/-- `copyIntern` into a new hash of a type. -/
def copyIntern (env : Env V D T) (h : HashPriv V D T) (type : HashType D T) (f : V → V) :
    Option (HashPriv V D T) := do
  let ms ← h.members
  copyLoop env f (empty type) ms

/-- `copy`; with `strip` the copy of a typed hash has no type and neither have its values. -/
def copy (env : Env V D T) (h : HashPriv V D T) (strip : Bool) : Option (HashPriv V D T) :=
  match strip, h.type with
  | true, .hashdecl _ => h.copyIntern env .plain env.strip
  | true, .complex _ => h.copyIntern env .plain env.strip
  | _, type => h.copyIntern env type id

/-- `copyCheckNewType`. -/
def copyCheckNewType (env : Env V D T) (h other : HashPriv V D T) : Option (HashPriv V D T) := do
  let rv ← h.copy env false
  return { rv with type := env.newType h.type other.type }

/-- `plusEquals`; no hash is returned when an exception is there at the end. -/
def plusEquals (env : Env V D T) (h other : HashPriv V D T) (xsink : Bool) :
    Option (Option (HashPriv V D T) × Bool) := do
  let rv ← h.copyCheckNewType env other
  let r ← rv.merge env (some other) xsink
  return (if r.2 then none else some r.1, r.2)

/-- `checkKey`: whether the key is an unknown member of a hashdecl. -/
def checkKey (env : Env V D T) (h : HashPriv V D T) (key : String) : Bool :=
  match h.type with
  | .hashdecl d => (env.findMember d key).isNone
  | _ => false

/-- The loop of `getSlice`. A key is `none` when its conversion to a string raises an
exception. -/
def sliceLoop (env : Env V D T) (h : HashPriv V D T) :
    HashPriv V D T → List (Option String) → Bool → Option (Option (HashPriv V D T) × Bool)
  | rv, [], xsink => some (some rv, xsink)
  | _, none :: _, _ => some (none, true)
  | rv, some key :: keys, xsink =>
    if xsink then some (none, true)
    else if h.checkKey env key then some (none, true)
    else do
      match ← h.getKeyValueExistence key with
      | none => sliceLoop env h rv keys false
      | some v =>
        let r ← rv.setKeyValue env key v false
        if r.2 then return (none, true) else sliceLoop env h r.1 keys false

/-- `QoreHashNode::getSlice`. -/
def getSlice (env : Env V D T) (h : HashPriv V D T) (keys : List (Option String)) (xsink : Bool) :
    Option (Option (HashPriv V D T) × Bool) :=
  sliceLoop env h (empty h.type) keys xsink

end HashPriv

/-- `qhi_priv`. -/
structure HashIter where
  i : Nat
  val : Bool

namespace HashIter

/-- `qhi_priv::next`. -/
def next (it : HashIter) (ml : List Nat) : Option HashIter :=
  if it.val then
    if it.i ∈ ml then
      match OrderedMap.next ml it.i with
      | some j => some { i := j, val := true }
      | none => some { it with val := false }
    else none
  else
    match ml.head? with
    | some b => some { i := b, val := true }
    | none => some it

/-- `qhi_priv::prev`. -/
def prev (it : HashIter) (ml : List Nat) : Option HashIter :=
  if it.val then
    if it.i ∈ ml then
      match OrderedMap.prev ml it.i with
      | some j => some { i := j, val := true }
      | none => some { it with val := false }
    else none
  else
    match ml.getLast? with
    | some b => some { i := b, val := true }
    | none => some it

/-- `HashIterator::getKey` and `HashIterator::get`. -/
def get (it : HashIter) (h : HashPriv V D T) : Option (Option (HashMember V)) :=
  if it.val then do
    let m ← h.mem it.i
    return some m
  else some none

/-- `HashIterator::assign`; `-1` is `true`. -/
def assign (env : Env V D T) (it : HashIter) (h : HashPriv V D T) (v : V) (xsink : Bool) :
    Option (HashPriv V D T × Bool) :=
  if it.val then h.assign env it.i v xsink else some (h, true)

/-- `HashIterator::removeKeyValue`: the iterator steps back before its member is freed. -/
def removeKeyValue (env : Env V D T) (it : HashIter) (h : HashPriv V D T) :
    Option (HashPriv V D T × HashIter × V) :=
  if it.val then do
    let m ← h.mem it.i
    let it' ← it.prev h.memberList
    match ← h.hmFind m.key with
    | none => none
    | some e =>
      let h1 ← h.hmErase e
      let h2 ← h1.internDeleteKey it.i
      return (h2, it', m.val)
  else some (h, it, env.nothing)

/-- `HashIterator::deleteKey`, which discards the value. -/
def deleteKey (env : Env V D T) (it : HashIter) (h : HashPriv V D T) :
    Option (HashPriv V D T × HashIter) := do
  let r ← it.removeKeyValue env h
  return (r.1, r.2.1)

end HashIter

/-- The operations on the hashes and on the iterators of a store. `xsink` says whether an
exception is there when the operation starts. -/
inductive Action (V D T : Type) where
  | create (type : HashType D T)
  | setKeyValue (h : Nat) (key : String) (v : V) (xsink : Bool)
  | getValueRef (h : Nat) (key : String) (w : Option V)
  | swapKeyValue (h : Nat) (key : String) (v : V)
  | takeKeyValue (h : Nat) (key : String)
  | removeKey (h : Nat) (key : String)
  | deleteKey (h : Nat) (key : String)
  | clear (h : Nat)
  | merge (h h0 : Nat) (xsink : Bool)
  | copy (h : Nat) (strip : Bool)
  | plusEquals (h h0 : Nat) (xsink : Bool)
  | getSlice (h : Nat) (keys : List (Option String)) (xsink : Bool)
  | getKeys (h : Nat)
  | getKeyValue (h : Nat) (key : String)
  | iterator (h : Nat)
  | iterNext (it : Nat)
  | iterPrev (it : Nat)
  | iterGet (it : Nat)
  | iterAssign (it : Nat) (v : V) (xsink : Bool)
  | iterDeleteKey (it : Nat)
  | iterRemoveKeyValue (it : Nat)

/-- What an operation returns. -/
inductive Out (V : Type) where
  | unit
  | value (v : V)
  | found (v : Option V)
  | keys (ks : List String)
  | entry (e : Option (String × V))
  | flag (b : Bool)
  | hash (h : Nat)
  | noHash

/-- The hashes and the iterators of a program. -/
structure Store (V D T : Type) where
  hash : Nat → Option (HashPriv V D T)
  nextHash : Nat
  iter : Nat → Option (Nat × HashIter)
  nextIter : Nat

namespace Store

/-- No hashes and no iterators. -/
def init : Store V D T := { hash := fun _ => none, nextHash := 0, iter := fun _ => none, nextIter := 0 }

/-- An operation on one hash. -/
def onHash (s : Store V D T) (n : Nat)
    (f : HashPriv V D T → Option (HashPriv V D T × Out V)) : Option (Store V D T × Out V) := do
  let h ← s.hash n
  let r ← f h
  return ({ s with hash := Function.update s.hash n (some r.1) }, r.2)

/-- An operation that makes a hash, or none. -/
def addHash (s : Store V D T) (h : Option (HashPriv V D T)) : Store V D T × Out V :=
  match h with
  | some h => ({ s with hash := Function.update s.hash s.nextHash (some h)
                        nextHash := s.nextHash + 1 }, .hash s.nextHash)
  | none => (s, .noHash)

/-- An operation on an iterator and on its hash. -/
def onIter (s : Store V D T) (k : Nat)
    (f : HashPriv V D T → HashIter → Option (HashPriv V D T × HashIter × Out V)) :
    Option (Store V D T × Out V) := do
  let p ← s.iter k
  let h ← s.hash p.1
  let r ← f h p.2
  return ({ s with hash := Function.update s.hash p.1 (some r.1)
                   iter := Function.update s.iter k (some (p.1, r.2.1)) }, r.2.2)

/-- The other hash of a `merge`; `none` for the hash itself. -/
def other (s : Store V D T) (n n0 : Nat) : Option (Option (HashPriv V D T)) :=
  if n = n0 then some none else (s.hash n0).map some

/-- One operation. -/
def step (env : Env V D T) (s : Store V D T) : Action V D T → Option (Store V D T × Out V)
  | .create type => some (s.addHash (some (.empty type)))
  | .setKeyValue n key v xsink => s.onHash n fun h => do
      let r ← h.setKeyValue env key v xsink
      return (r.1, .flag r.2)
  | .getValueRef n key w => s.onHash n fun h => do
      let r ← h.getValueRef env key
      let r' ← r.1.useRef r.2 w
      return (r'.1, .value r'.2)
  | .swapKeyValue n key v => s.onHash n fun h => do
      let r ← h.swapKeyValue env key v
      return (r.1, .value r.2)
  | .takeKeyValue n key => s.onHash n fun h => do
      let r ← h.takeKeyValueIntern env key
      return (r.1, .value r.2)
  | .removeKey n key => s.onHash n fun h => do
      let h' ← h.removeKey env key
      return (h', .unit)
  | .deleteKey n key => s.onHash n fun h => do
      let h' ← h.deleteKey env key
      return (h', .unit)
  | .clear n => s.onHash n fun h => do
      let h' ← h.clear
      return (h', .unit)
  | .merge n n0 xsink => do
      let h0 ← s.other n n0
      s.onHash n fun h => do
        let r ← h.merge env h0 xsink
        return (r.1, .flag r.2)
  | .copy n strip => do
      let h ← s.hash n
      let h' ← h.copy env strip
      return s.addHash (some h')
  | .plusEquals n n0 xsink => do
      let h ← s.hash n
      let h0 ← s.hash n0
      let r ← h.plusEquals env h0 xsink
      return s.addHash r.1
  | .getSlice n keys xsink => do
      let h ← s.hash n
      let r ← h.getSlice env keys xsink
      return s.addHash r.1
  | .getKeys n => s.onHash n fun h => do
      let ks ← h.getKeys
      return (h, .keys ks)
  | .getKeyValue n key => s.onHash n fun h => do
      let v ← h.getKeyValueExistence key
      return (h, .found v)
  | .iterator n => do
      let _ ← s.hash n
      return ({ s with iter := Function.update s.iter s.nextIter (some (n, ⟨0, false⟩))
                       nextIter := s.nextIter + 1 }, .unit)
  | .iterNext k => s.onIter k fun h it => do
      let it' ← it.next h.memberList
      return (h, it', .flag it'.val)
  | .iterPrev k => s.onIter k fun h it => do
      let it' ← it.prev h.memberList
      return (h, it', .flag it'.val)
  | .iterGet k => s.onIter k fun h it => do
      let m ← it.get h
      return (h, it, .entry (m.map fun m => (m.key, m.val)))
  | .iterAssign k v xsink => s.onIter k fun h it => do
      let r ← it.assign env h v xsink
      return (r.1, it, .flag r.2)
  | .iterDeleteKey k => s.onIter k fun h it => do
      let r ← it.deleteKey env h
      return (r.1, r.2, .unit)
  | .iterRemoveKeyValue k => s.onIter k fun h it => do
      let r ← it.removeKeyValue env h
      return (r.1, r.2.1, .value r.2.2)

end Store

end Qore.Hash
