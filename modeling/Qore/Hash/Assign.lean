import Qore.Hash.Simulation

/-!
# `Qore.Hash.Assign`: assignments that fail

`QoreHashNode::setKeyValue` first makes the member and then checks the value, so the check of an
assignment that fails comes after the key is in the hash.

* `setKeyValue_atomic_iff`: a failed assignment leaves the hash as it was exactly for the keys that
  are there. In a run of assignments of this kind, or with accepted values, a typed hash never holds
  a value that its type does not give or a key that it does not declare.
-/

set_option autoImplicit false

namespace Qore.Hash

open Qore.Lib

variable {V D T : Type}

/-! ### What a hash accepts -/

/-- The type check lets a value pass for a key. A hash without a type has no check. -/
def Env.Accepts (env : Env V D T) (type : HashType D T) (key : String) (v : V) : Prop :=
  match type with
  | .plain => True
  | .hashdecl d => ∃ t, env.findMember d key = some t ∧ (env.acceptInputKey t key v).isSome
  | .complex t => (env.acceptInputKey t key v).isSome

/-- A key and a value that the type check has let pass: a declared key, and a value that the check
gives. -/
def Env.Holds (env : Env V D T) (type : HashType D T) (key : String) (v : V) : Prop :=
  match type with
  | .plain => True
  | .hashdecl d => ∃ t, env.findMember d key = some t ∧ ∃ w, env.acceptInputKey t key w = some v
  | .complex t => ∃ w, env.acceptInputKey t key w = some v

/-- An accepted value is assigned without an exception. -/
theorem Env.Accepts.assigned {env : Env V D T} {type : HashType D T} {key : String} {v : V}
    (h : env.Accepts type key v) :
    ∃ v', env.assigned type key v false = (some v', false) ∧ env.Holds type key v' := by
  cases type with
  | plain => exact ⟨env.strip v, rfl, trivial⟩
  | hashdecl d =>
    obtain ⟨t, hfind, hsome⟩ := h
    obtain ⟨v', hv'⟩ := Option.isSome_iff_exists.mp hsome
    refine ⟨v', ?_, t, hfind, v, hv'⟩
    simp only [← Env.convert_eq, Env.convert, hfind, hv', Bool.false_eq_true, if_false]
  | complex t =>
    obtain ⟨v', hv'⟩ := Option.isSome_iff_exists.mp h
    refine ⟨v', ?_, v, hv'⟩
    simp only [← Env.convert_eq, Env.convert, hv', Bool.false_eq_true, if_false]

/-- Any other value raises an exception, and is not assigned. -/
theorem Env.assigned_of_not_accepts {env : Env V D T} {type : HashType D T} {key : String} {v : V}
    (h : ¬env.Accepts type key v) : env.assigned type key v false = (none, true) := by
  rw [← Env.convert_eq]
  cases type with
  | plain => exact absurd trivial h
  | hashdecl d =>
    cases hfind : env.findMember d key with
    | none => simp only [Env.convert, hfind]
    | some t =>
      cases haccept : env.acceptInputKey t key v with
      | none => simp only [Env.convert, hfind, haccept]
      | some v' => exact absurd ⟨t, hfind, by rw [haccept]; rfl⟩ h
  | complex t =>
    cases haccept : env.acceptInputKey t key v with
    | none => simp only [Env.convert, haccept]
    | some v' => exact absurd (show (env.acceptInputKey t key v).isSome by rw [haccept]; rfl) h

namespace HashPriv

/-- The keys in order. -/
def keys (h : HashPriv V D T) : List String := h.contents.map Prod.fst

/-- If `setKeyValue` raises an exception, keys, order and values are those before the call. -/
def FailureKeeps (env : Env V D T) (h : HashPriv V D T) (key : String) (v : V) : Prop :=
  ∃ h' x, h.setKeyValue env key v false = some (h', x) ∧ (x = true → h'.contents = h.contents)

/-- Every key and value of the hash has passed the check of its type. -/
def HoldsAll (env : Env V D T) (h : HashPriv V D T) : Prop :=
  ∀ e ∈ h.contents, env.Holds h.type e.1 e.2

/-- An assignment that leaves the hash alone when it fails: the key is there, or the value is
accepted. -/
def Atomic (env : Env V D T) (h : HashPriv V D T) (a : String × V) : Prop :=
  a.1 ∈ h.keys ∨ env.Accepts h.type a.1 a.2

/-- One call of `setKeyValue`. -/
def assignStep (env : Env V D T) (h : HashPriv V D T) (a : String × V) :
    Option (HashPriv V D T × Bool) := h.setKeyValue env a.1 a.2 false

end HashPriv

/-! ### One assignment -/

section
variable {env : Env V D T} {h : HashPriv V D T} {m : SpecHash V D T}

theorem HashRel.contents_eq (hrel : HashRel h m) : h.contents = m.map.entries := hrel.entries.symm

theorem HashRel.keys_contents (hrel : HashRel h m) : h.keys = m.map.keys := by
  unfold HashPriv.keys OrderedMap.keys
  rw [hrel.contents_eq]

/-- A key that only gets its place leaves the map as it was exactly when it has one. -/
theorem put_none_entries (dflt : V) (m : OrderedMap String V) (key : String) :
    (m.put dflt key none).entries = m.entries ↔ key ∈ m.keys := by
  constructor
  · intro heq
    by_contra hkey
    have hlen := congrArg List.length heq
    rw [OrderedMap.put_of_notMem hkey, List.length_append, List.length_singleton] at hlen
    omega
  · intro hkey
    rw [OrderedMap.put_none_of_mem hkey]

/-- A failed assignment keeps the hash exactly when the key was there. -/
theorem failureKeeps_iff (hrel : HashRel h m) (key : String) (v : V) :
    h.FailureKeeps env key v ↔ h.Atomic env (key, v) := by
  obtain ⟨h', hset, hch⟩ := setKeyValue_spec env hrel key v false
  rw [← hrel.type] at hset hch
  by_cases haccept : env.Accepts h.type key v
  · obtain ⟨v', hconv, -⟩ := haccept.assigned
    rw [hconv] at hset
    exact iff_of_true ⟨h', false, hset, fun hx => absurd hx Bool.false_ne_true⟩ (.inr haccept)
  · rw [Env.assigned_of_not_accepts haccept] at hset hch
    have hcontents : h'.contents = h.contents ↔ key ∈ h.keys := by
      rw [hch.rel.contents_eq, hrel.contents_eq, hrel.keys_contents]
      exact put_none_entries env.nothing m.map key
    constructor
    · rintro ⟨h'', x, hset', hkeep⟩
      rw [hset] at hset'
      cases hset'
      exact .inl (hcontents.mp (hkeep rfl))
    · rintro (hkey | hok)
      · exact ⟨h', true, hset, fun _ => hcontents.mpr hkey⟩
      · exact absurd hok haccept

/-- An entry after one key was assigned a value: the key with the value, or an entry from before. -/
theorem mem_put_some {dflt v : V} {m : OrderedMap String V} {key : String} {e : String × V}
    (he : e ∈ (m.put dflt key (some v)).entries) : e = (key, v) ∨ e ∈ m.entries := by
  by_cases hkey : key ∈ m.keys
  · rw [OrderedMap.put_of_mem hkey] at he
    obtain ⟨e', he', rfl⟩ := List.mem_map.mp he
    unfold OrderedMap.change
    split
    · rename_i hk
      exact .inl (by rw [hk]; rfl)
    · exact .inr he'
  · rw [OrderedMap.put_of_notMem hkey, List.mem_append, List.mem_singleton] at he
    exact he.symm

/-- Such an assignment keeps the held keys and values right. -/
theorem holdsAll_setKeyValue {h' : HashPriv V D T} {a : String × V} {x : Bool}
    (hrel : HashRel h m) (hall : h.HoldsAll env) (hatomic : h.Atomic env a)
    (hset : h.assignStep env a = some (h', x)) : (∃ m', HashRel h' m') ∧ h'.HoldsAll env := by
  obtain ⟨g, hg, hch⟩ := setKeyValue_spec env hrel a.1 a.2 false
  unfold HashPriv.assignStep at hset
  rw [hg] at hset
  cases hset
  have htype : h'.type = h.type := hch.rel.type.trans hrel.type.symm
  refine ⟨⟨_, hch.rel⟩, ?_⟩
  rw [← hrel.type] at hch
  intro e he
  rw [htype]
  rw [hch.rel.contents_eq] at he
  by_cases haccept : env.Accepts h.type a.1 a.2
  · obtain ⟨v', hconv, hholds⟩ := haccept.assigned
    rw [hconv] at he
    rcases mem_put_some he with rfl | hold
    · exact hholds
    · exact hall e (hrel.contents_eq ▸ hold)
  · -- the assignment failed, and the key was there
    have hkey : a.1 ∈ m.map.keys := hrel.keys_contents ▸ hatomic.resolve_right haccept
    rw [Env.assigned_of_not_accepts haccept] at he
    have hsame := (put_none_entries env.nothing m.map a.1).mpr hkey
    exact hall e (hrel.contents_eq ▸ hsame ▸ he)

/-- A failed assignment leaves a hash of a program as it was exactly when the key was there; and in
a run of assignments to keys that are there or of accepted values, the hash always holds declared
keys and accepted values only. -/
theorem setKeyValue_atomic_iff (hreach : h.Reachable env) (key : String) (v : V)
    (calls : List (String × V)) :
    (h.FailureKeeps env key v ↔ h.Atomic env (key, v)) ∧
    (h.HoldsAll env → Lts.Along (HashPriv.assignStep env) (HashPriv.Atomic env) h calls →
      Lts.Always (HashPriv.assignStep env) (HashPriv.HoldsAll env) h calls) := by
  obtain ⟨m, hrel⟩ := hreach.rel
  refine ⟨failureKeeps_iff hrel key v, fun hall halong => ?_⟩
  have hinv := @Lts.always_of_along _ _ _ (HashPriv.assignStep env) (HashPriv.Atomic env)
    (fun h => (∃ m, HashRel h m) ∧ h.HoldsAll env)
    (fun g a g' x hq hp hstep => hq.1.elim fun _ hg => holdsAll_setKeyValue hg hq.2 hp hstep)
    calls h ⟨⟨m, hrel⟩, hall⟩ halong
  exact Lts.Always.mono (fun _ hq => hq.2) calls h hinv

end

/-- A program with hashes of integers: `NOTHING` is not one. -/
def intEnv : Env (Option Int) Unit Unit where
  nothing := none
  findMember := fun _ key => if key = "a" then some () else none
  acceptInputKey := fun _ _ v => v.map some
  strip := id
  newType := fun type _ => type

/-- A new `hash<string, int>`. -/
def intHash : HashPriv (Option Int) Unit Unit := .empty (.complex ())

theorem intHash_reachable : intHash.Reachable intEnv := ⟨[.create (.complex ())], _, _, 0, rfl, rfl⟩

/-- In a hash of a program, a key that is removed and assigned again goes last, with the value that
the hash takes for it, and the other keys keep their places and values. -/
theorem setKeyValue_of_removed {env : Env V D T} {h : HashPriv V D T}
    (hr : h.Reachable env) (key : String) (v : V) (xsink : Bool) :
    ∃ h1 h2 x, h.removeKey env key = some h1 ∧ h1.setKeyValue env key v xsink = some (h2, x) ∧
      h2.contents = (h.contents.filter fun e => e.1 ≠ key) ++
        [(key, (env.assigned h.type key v xsink).1.getD env.nothing)] := by
  obtain ⟨m, hrel⟩ := hr.rel
  obtain ⟨h1, htake, hrel1, -⟩ := takeKeyValueExists_spec hrel key
  obtain ⟨h2, hset, hch⟩ := setKeyValue_spec env hrel1 key v xsink
  refine ⟨h1, h2, _, ?_, hset, ?_⟩
  · unfold HashPriv.removeKey HashPriv.takeKeyValueIntern
    simp only [htake, Option.bind_eq_bind, Option.bind_some]
    rfl
  · show h2.nodes.map entryOf = _
    rw [← hch.rel.entries, hrel.type]
    show ((m.map.remove key).put env.nothing key _).entries = _
    rw [OrderedMap.put_remove, hrel.entries]
    rfl

/-- Three keys are assigned in a new `hash<string, int>`, and the first one again. -/
theorem abcHash_reassigned : ∃ h : HashPriv (Option Int) Unit Unit, h.Reachable intEnv ∧
    h.contents = [("a", some 1), ("b", some 2), ("c", some 3)] ∧
    ∃ h1 h2 x, h.removeKey intEnv "a" = some h1 ∧
      h1.setKeyValue intEnv "a" (some 4) false = some (h2, x) ∧
      h2.contents = [("b", some 2), ("c", some 3), ("a", some 4)] := by
  have hreach : ∃ h : HashPriv (Option Int) Unit Unit, h.Reachable intEnv ∧ h.type = .complex () ∧
      h.contents = [("a", some 1), ("b", some 2), ("c", some 3)] :=
    ⟨_, ⟨[.create (.complex ()), .setKeyValue 0 "a" (some 1) false, .setKeyValue 0 "b" (some 2) false,
      .setKeyValue 0 "c" (some 3) false], _, _, 0, rfl, rfl⟩, rfl, rfl⟩
  obtain ⟨h, hr, htype, hcontents⟩ := hreach
  refine ⟨h, hr, hcontents, ?_⟩
  have hassign := setKeyValue_of_removed hr "a" (some 4) false
  rw [hcontents, htype] at hassign
  exact hassign

/-- Two integers are assigned. -/
theorem intHash_holds : Lts.Always (HashPriv.assignStep intEnv) (HashPriv.HoldsAll intEnv) intHash
    [("a", some 1), ("b", some 2)] := by
  refine (setKeyValue_atomic_iff intHash_reachable "a" (some 1) [("a", some 1), ("b", some 2)]).2
    (fun _ he => absurd he List.not_mem_nil) ?_
  -- both values are accepted, whatever the hash is
  have htype : ∀ (h : HashPriv (Option Int) Unit Unit) n,
      h.type = .complex () → intEnv.Accepts h.type n (some 1) ∧ intEnv.Accepts h.type n (some 2) := by
    intro h n ht
    rw [ht]
    exact ⟨rfl, rfl⟩
  intro h1 x hstep
  refine ⟨.inr (htype _ _ rfl).1, fun h2 y hstep2 => ⟨.inr ?_, trivial⟩⟩
  cases hstep
  exact (htype _ _ rfl).2

/-- A string that is no integer is refused, but leaves its key with `NOTHING`; so does a key that a
hashdecl does not have. -/
theorem intHash_wrong :
    ¬intHash.FailureKeeps intEnv "a" none ∧
      ¬(HashPriv.empty (.hashdecl ()) : HashPriv (Option Int) Unit Unit).FailureKeeps intEnv "b"
        (some 1) := by
  constructor
  · rintro ⟨h', x, hset, hkeep⟩
    cases hset
    exact absurd (hkeep rfl) (List.cons_ne_nil _ _)
  · rintro ⟨h', x, hset, hkeep⟩
    cases hset
    exact absurd (hkeep rfl) (List.cons_ne_nil _ _)

end Qore.Hash
