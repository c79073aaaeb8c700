import Qore.Hash.Model

/-!
# `Qore.Hash.Spec`: hashes as insertion-ordered maps

What the hashes of a program are for: each one is an `OrderedMap` with a type. An assignment
whose value is not accepted gives the key its place, as `getValueRef` does, and changes no value.

* `Env.assigned`: what an assignment stores; `Env.convert_eq` says that the code stores it.
* `put`, `merge`, `remove`: one assignment, the assignments of all the members of another hash
  and the removal of a key.
* A `Cursor` is an iterator: the key that it stands at. When that key is removed by another way
  than the iterator's own, it stands at no key and cannot be used.
* `SpecStore.step` is the system, with the actions and the results of `Store.step`.
-/

set_option autoImplicit false

namespace Qore.Hash

open Qore.Lib

variable {V D T : Type}

/-- The values of a hash have types. -/
def HashType.checked : HashType D T → Bool
  | .plain => false
  | .hashdecl _ => true
  | .complex _ => true

/-- The value that a hash takes for a key: the one that the type of the declared member or of the
values makes of it. -/
def Env.admits (env : Env V D T) (type : HashType D T) (key : String) (v : V) : Option V :=
  match type with
  | .plain => some (env.strip v)
  | .hashdecl d => (env.findMember d key).bind fun t => env.acceptInputKey t key v
  | .complex t => env.acceptInputKey t key v

/-- An assignment stores the value that the hash takes, unless there was an exception before and the
values have types. Where nothing is stored, there is an exception after it. -/
def Env.assigned (env : Env V D T) (type : HashType D T) (key : String) (v : V) (xsink : Bool) :
    Option V × Bool :=
  let stored := if type.checked && xsink then none else env.admits type key v
  (stored, xsink || stored.isNone)

/-- The code stores what is to be stored. -/
theorem Env.convert_eq (env : Env V D T) (type : HashType D T) (key : String) (v : V) (xsink : Bool) :
    env.convert type key v xsink = env.assigned type key v xsink := by
  cases type with
  | plain => exact congrArg (Prod.mk _) (Bool.or_false xsink).symm
  | hashdecl d =>
    cases hfind : env.findMember d key with
    | none => cases xsink <;> simp [Env.convert, Env.assigned, Env.admits, hfind]
    | some t =>
      cases haccept : env.acceptInputKey t key v <;> cases xsink <;>
        simp [Env.convert, Env.assigned, Env.admits, HashType.checked, hfind, haccept]
  | complex t =>
    cases haccept : env.acceptInputKey t key v <;> cases xsink <;>
      simp [Env.convert, Env.assigned, Env.admits, HashType.checked, haccept]

/-- The assignments of a list of members in order: the changes they make, and whether an
exception is there at the end. -/
def Env.convertAll (env : Env V D T) (type : HashType D T) :
    List (String × V) → Bool → List (String × Option V) × Bool
  | [], xsink => ([], xsink)
  | (key, v) :: es, xsink =>
    let r := env.assigned type key v xsink
    let rest := env.convertAll type es r.2
    ((key, r.1) :: rest.1, rest.2)

/-- The changes have the keys of the members. -/
theorem Env.keys_convertAll (env : Env V D T) (type : HashType D T) :
    ∀ (es : List (String × V)) (xsink : Bool),
      (env.convertAll type es xsink).1.map Prod.fst = es.map Prod.fst := by
  intro es
  induction es with
  | nil => intro xsink; rfl
  | cons e es ih =>
    intro xsink
    show e.1 :: (env.convertAll type es (env.assigned type e.1 e.2 xsink).2).1.map Prod.fst = _
    rw [ih]
    rfl

/-- The changes that a `merge` with the map `m0` makes. -/
def Env.changes (env : Env V D T) (type : HashType D T) (m0 : OrderedMap String V) (xsink : Bool) :
    OrderedMap String (Option V) :=
  ⟨(env.convertAll type m0.entries xsink).1, by rw [env.keys_convertAll]; exact m0.nodup⟩

/-- A hash as a map. -/
structure SpecHash (V D T : Type) where
  type : HashType D T
  map : OrderedMap String V

namespace SpecHash

/-- A change of one key. -/
def put (env : Env V D T) (m : SpecHash V D T) (key : String) (o : Option V) : SpecHash V D T :=
  { m with map := m.map.put env.nothing key o }

/-- The value of a key, `NOTHING` when it is not there. -/
def value (env : Env V D T) (m : SpecHash V D T) (key : String) : V :=
  (m.map.get? key).getD env.nothing

/-- The assignment of a value to a key. -/
def setKeyValue (env : Env V D T) (m : SpecHash V D T) (key : String) (v : V) (xsink : Bool) :
    SpecHash V D T × Bool :=
  (m.put env key (env.assigned m.type key v xsink).1, (env.assigned m.type key v xsink).2)

/-- The map without a key. -/
def remove (m : SpecHash V D T) (key : String) : SpecHash V D T := { m with map := m.map.remove key }

/-- The members of `m0` are assigned: those that are there in place, the others at the end in the
order of `m0`. -/
def merge (env : Env V D T) (m m0 : SpecHash V D T) (xsink : Bool) : SpecHash V D T × Bool :=
  ({ m with map := m.map.overlay env.nothing (env.changes m.type m0.map xsink) },
    (env.convertAll m.type m0.map.entries xsink).2)

/-- The map with its order; with `strip` the types are taken off. -/
def copy (env : Env V D T) (m : SpecHash V D T) (strip : Bool) : SpecHash V D T :=
  match strip, m.type with
  | true, .hashdecl _ => { type := .plain, map := m.map.mapVals env.strip }
  | true, .complex _ => { type := .plain, map := m.map.mapVals env.strip }
  | _, type => { type, map := m.map }

/-- A copy that is merged with another map; none when an exception is there at the end. -/
def plusEquals (env : Env V D T) (m m0 : SpecHash V D T) (xsink : Bool) :
    Option (SpecHash V D T) :=
  let r := merge env { m with type := env.newType m.type m0.type } m0 xsink
  if r.2 then none else some r.1

/-- Whether a key is an unknown member of a hashdecl. -/
def checkKey (env : Env V D T) (m : SpecHash V D T) (key : String) : Bool :=
  match m.type with
  | .hashdecl d => (env.findMember d key).isNone
  | _ => false

/-- The keys of a slice are assigned in order as far as they are there. -/
def sliceFrom (env : Env V D T) (m : SpecHash V D T) :
    SpecHash V D T → List (Option String) → Bool → Option (SpecHash V D T)
  | rv, [], _ => some rv
  | _, none :: _, _ => none
  | rv, some key :: keys, xsink =>
    if xsink then none
    else if m.checkKey env key then none
    else
      match m.map.get? key with
      | none => sliceFrom env m rv keys false
      | some v =>
        let r := rv.setKeyValue env key v false
        if r.2 then none else sliceFrom env m r.1 keys false

/-- A part of a map. -/
def getSlice (env : Env V D T) (m : SpecHash V D T) (keys : List (Option String)) (xsink : Bool) :
    Option (SpecHash V D T) :=
  sliceFrom env m { type := m.type, map := .empty } keys xsink

end SpecHash

/-- An iterator: it is at a key when `val` is set, unless that key was removed. -/
structure Cursor where
  key : Option String
  val : Bool

namespace Cursor

/-- The cursor when keys are removed. -/
def drop (c : Cursor) (gone : String → Bool) : Cursor :=
  { c with key := c.key.filter fun k => !gone k }

/-- To the next key, or to the first one. -/
def next (c : Cursor) (ks : List String) : Option Cursor :=
  if c.val then do
    let k ← c.key
    match OrderedMap.next ks k with
    | some k' => some { key := some k', val := true }
    | none => some { c with val := false }
  else
    match ks.head? with
    | some k => some { key := some k, val := true }
    | none => some c

/-- To the key before, or to the last one. -/
def prev (c : Cursor) (ks : List String) : Option Cursor :=
  if c.val then do
    let k ← c.key
    match OrderedMap.prev ks k with
    | some k' => some { key := some k', val := true }
    | none => some { c with val := false }
  else
    match ks.getLast? with
    | some k => some { key := some k, val := true }
    | none => some c

/-- The entry at the cursor. -/
def get (env : Env V D T) (c : Cursor) (m : SpecHash V D T) : Option (Option (String × V)) :=
  if c.val then do
    let k ← c.key
    return some (k, m.value env k)
  else some none

/-- The assignment of a value to the key at the cursor. -/
def assign (env : Env V D T) (c : Cursor) (m : SpecHash V D T) (v : V) (xsink : Bool) :
    Option (SpecHash V D T × Bool) :=
  if c.val then do
    let k ← c.key
    return m.setKeyValue env k v xsink
  else some (m, true)

/-- The key at the cursor is removed; the cursor goes to the key before. -/
def remove (env : Env V D T) (c : Cursor) (m : SpecHash V D T) :
    Option (SpecHash V D T × Cursor × V × (String → Bool)) :=
  if c.val then do
    let k ← c.key
    let c' ← c.prev m.map.keys
    return (m.remove k, c', m.value env k, fun k' => k' = k)
  else some (m, c, env.nothing, fun _ => false)

end Cursor

/-- The maps and the cursors of a program. -/
structure SpecStore (V D T : Type) where
  hash : Nat → Option (SpecHash V D T)
  nextHash : Nat
  iter : Nat → Option (Nat × Cursor)
  nextIter : Nat

namespace SpecStore

/-- No maps and no cursors. -/
def init : SpecStore V D T :=
  { hash := fun _ => none, nextHash := 0, iter := fun _ => none, nextIter := 0 }

/-- Keys of the map `n` are removed: its cursors at such a key are lost. -/
def dropAll (iter : Nat → Option (Nat × Cursor)) (n : Nat) (gone : String → Bool) :
    Nat → Option (Nat × Cursor) :=
  fun k => (iter k).map fun p => if p.1 = n then (p.1, p.2.drop gone) else p

/-- An operation on one map: the map after it, its result and the keys that it removes. -/
def onHash (t : SpecStore V D T) (n : Nat)
    (f : SpecHash V D T → SpecHash V D T × Out V × (String → Bool)) :
    Option (SpecStore V D T × Out V) := do
  let m ← t.hash n
  let r := f m
  return ({ t with hash := Function.update t.hash n (some r.1)
                   iter := dropAll t.iter n r.2.2 }, r.2.1)

/-- An operation that makes a map, or none. -/
def addHash (t : SpecStore V D T) (m : Option (SpecHash V D T)) : SpecStore V D T × Out V :=
  match m with
  | some m => ({ t with hash := Function.update t.hash t.nextHash (some m)
                        nextHash := t.nextHash + 1 }, .hash t.nextHash)
  | none => (t, .noHash)

/-- An operation on a cursor and on its map. -/
def onIter (t : SpecStore V D T) (k : Nat)
    (f : SpecHash V D T → Cursor → Option (SpecHash V D T × Cursor × Out V × (String → Bool))) :
    Option (SpecStore V D T × Out V) := do
  let p ← t.iter k
  let m ← t.hash p.1
  let r ← f m p.2
  return ({ t with hash := Function.update t.hash p.1 (some r.1)
                   iter := dropAll (Function.update t.iter k (some (p.1, r.2.1))) p.1 r.2.2.2 },
    r.2.2.1)

/-- One operation. -/
def step (env : Env V D T) (t : SpecStore V D T) : Action V D T → Option (SpecStore V D T × Out V)
  | .create type => some (t.addHash (some { type, map := .empty }))
  | .setKeyValue n key v xsink => t.onHash n fun m =>
      ((m.setKeyValue env key v xsink).1, .flag (m.setKeyValue env key v xsink).2, fun _ => false)
  | .getValueRef n key w => t.onHash n fun m =>
      (m.put env key w, .value (m.value env key), fun _ => false)
  | .swapKeyValue n key v => t.onHash n fun m =>
      (m.put env key (some v), .value (m.value env key), fun _ => false)
  | .takeKeyValue n key => t.onHash n fun m =>
      (m.remove key, .value (m.value env key), fun k => k = key)
  | .removeKey n key => t.onHash n fun m => (m.remove key, .unit, fun k => k = key)
  | .deleteKey n key => t.onHash n fun m => (m.remove key, .unit, fun k => k = key)
  | .clear n => t.onHash n fun m => ({ m with map := .empty }, .unit, fun _ => true)
  | .merge n n0 xsink => do
      let m0 ← t.hash n0
      t.onHash n fun m => ((m.merge env m0 xsink).1, .flag (m.merge env m0 xsink).2, fun _ => false)
  | .copy n strip => do
      let m ← t.hash n
      return t.addHash (some (m.copy env strip))
  | .plusEquals n n0 xsink => do
      let m ← t.hash n
      let m0 ← t.hash n0
      return t.addHash (m.plusEquals env m0 xsink)
  | .getSlice n keys xsink => do
      let m ← t.hash n
      return t.addHash (m.getSlice env keys xsink)
  | .getKeys n => t.onHash n fun m => (m, .keys m.map.keys, fun _ => false)
  | .getKeyValue n key => t.onHash n fun m => (m, .found (m.map.get? key), fun _ => false)
  | .iterator n => do
      let _ ← t.hash n
      return ({ t with iter := Function.update t.iter t.nextIter (some (n, ⟨none, false⟩))
                       nextIter := t.nextIter + 1 }, .unit)
  | .iterNext k => t.onIter k fun m c => do
      let c' ← c.next m.map.keys
      return (m, c', .flag c'.val, fun _ => false)
  | .iterPrev k => t.onIter k fun m c => do
      let c' ← c.prev m.map.keys
      return (m, c', .flag c'.val, fun _ => false)
  | .iterGet k => t.onIter k fun m c => do
      let e ← c.get env m
      return (m, c, .entry e, fun _ => false)
  | .iterAssign k v xsink => t.onIter k fun m c => do
      let r ← c.assign env m v xsink
      return (r.1, c, .flag r.2, fun _ => false)
  | .iterDeleteKey k => t.onIter k fun m c => do
      let r ← c.remove env m
      return (r.1, r.2.1, .unit, r.2.2.2)
  | .iterRemoveKeyValue k => t.onIter k fun m c => do
      let r ← c.remove env m
      return (r.1, r.2.1, .value r.2.2.1, r.2.2.2)

end SpecStore

end Qore.Hash
