import Mathlib
import Qore.Hash.Assign

/-!
# `Qore.Hash.Traverse`: deleting while iterating

A loop calls `next()` of an iterator until it is false, and removes the members at some of the keys.
`HashIterator::deleteKey` and `removeKeyValue` move the iterator to the member before the one that
they remove, so that `next()` goes on with the member after it. A `ReverseHashIterator` inherits
both; its `next()` is `prev()`, so it passes over that member.

* `traverse_rel`: the loop over a hash is the loop over its map.
* `walk_next`, `walk_prev`: what the loops visit.
* `traverse_iff`: the forward loop always visits every key once and removes the right ones, and the
  reverse loop exactly when nothing is removed or there is at most one key.
-/

set_option autoImplicit false

namespace Qore.Hash

open Qore.Lib

variable {V D T : Type}

/-! ### The loop -/

/-- The function of the iterator that removes a member. -/
inductive Removal where
  | deleteKey
  | removeKeyValue

/-- The body of the loop at a member: `cut` says whether and how the member of a key is removed. -/
def HashIter.visit (env : Env V D T) (cut : String → Option Removal) (it : HashIter)
    (h : HashPriv V D T) (key : String) : Option (HashPriv V D T × HashIter) :=
  match cut key with
  | none => some (h, it)
  | some .deleteKey => it.deleteKey env h
  | some .removeKeyValue => (it.removeKeyValue env h).map fun r => (r.1, r.2.1)

/-- `while (i.next()) { ... }` for at most `fuel` calls of `next()`: the keys that are visited and
the hash after it. `move` is what `next()` of the iterator does. -/
def HashIter.traverse (env : Env V D T) (move : HashIter → List Nat → Option HashIter)
    (cut : String → Option Removal) : Nat → HashPriv V D T → HashIter →
    Option (List String × HashPriv V D T)
  | 0, _, _ => none
  | fuel + 1, h, it => do
    let it ← move it h.memberList
    if it.val then
      let m ← h.mem it.i
      let r ← it.visit env cut h m.key
      let rest ← traverse env move cut fuel r.1 r.2
      return (m.key :: rest.1, rest.2)
    else return ([], h)

/-- A new iterator, which is at no member. -/
def HashIter.start : HashIter := { i := 0, val := false }

/-- The loop ends, visits these keys and leaves exactly the entries that are not cut, in order. -/
def HashPriv.Visits (env : Env V D T) (move : HashIter → List Nat → Option HashIter)
    (cut : String → Option Removal) (h : HashPriv V D T) (visited : List String) : Prop :=
  ∃ fuel h', HashIter.traverse env move cut fuel h HashIter.start = some (visited, h') ∧
    h'.contents = h.contents.filter fun e => (cut e.1).isNone

/-! ### The loop over a map -/

/-- The body of the loop at a key of a map. -/
def Cursor.visit (cut : String → Option Removal) (c : Cursor) (m : SpecHash V D T) (key : String) :
    Option (SpecHash V D T × Cursor) :=
  if (cut key).isNone then some (m, c)
  else (c.prev m.map.keys).map fun c' => (m.remove key, c')

/-- The loop over a map. -/
def Cursor.walk (move : Cursor → List String → Option Cursor) (cut : String → Option Removal) :
    Nat → SpecHash V D T → Cursor → Option (List String × SpecHash V D T)
  | 0, _, _ => none
  | fuel + 1, m, c => do
    let c ← move c m.map.keys
    if c.val then
      let key ← c.key
      let r ← c.visit cut m key
      let rest ← walk move cut fuel r.1 r.2
      return (key :: rest.1, rest.2)
    else return ([], m)

/-- A cursor at no key. -/
def Cursor.start : Cursor := { key := none, val := false }

section
variable {env : Env V D T} {h : HashPriv V D T} {m : SpecHash V D T} {it : HashIter} {c : Cursor}
  {cut : String → Option Removal} {key : String} {c' : Cursor} {r : List String × SpecHash V D T}
  {a b : List (String × V)} {e : String × V} {rest seen : List (String × V)}
  {move : HashIter → List Nat → Option HashIter} {move' : Cursor → List String → Option Cursor}

/-- A cursor that went back from a key is not at that key. -/
theorem prev_drop {ks : List String} (hks : ks.Nodup)
    (hprev : Cursor.prev { key := some key, val := true } ks = some c') :
    c'.val = false ∨ c'.drop (fun k => k = key) = c' := by
  unfold Cursor.prev at hprev
  rw [if_pos rfl, Option.bind_eq_bind, Option.bind_some] at hprev
  cases hfound : OrderedMap.prev ks key with
  | none =>
    rw [hfound] at hprev
    cases hprev
    exact .inl rfl
  | some k' =>
    rw [hfound] at hprev
    cases hprev
    refine .inr ?_
    have hne := OrderedMap.prev_ne hks hfound
    unfold Cursor.drop
    simp [hne]

/-- What an iterator removes, and the member that it goes back to. -/
theorem removed_rel (hrel : HashRel h m) {p : Nat × HashMember V} (hp : p ∈ h.nodes) :
    Option.Rel (fun r r' => HashRel r.1 r'.1 ∧ IterRel r.1 r.2.1 r'.2)
      (HashIter.removeKeyValue env { i := p.1, val := true } h)
      ((Cursor.prev { key := some p.2.key, val := true } m.map.keys).map
        fun c' => (m.remove p.2.key, c')) := by
  have hremove : Cursor.remove env { key := some p.2.key, val := true } m =
      (Cursor.prev { key := some p.2.key, val := true } m.map.keys).map fun c' =>
        (m.remove p.2.key, c', m.value env p.2.key, fun k => decide (k = p.2.key)) := by
    show (Cursor.prev { key := some p.2.key, val := true } m.map.keys).bind _ = _
    cases Cursor.prev { key := some p.2.key, val := true } m.map.keys with
    | none => rfl
    | some c' => rfl
  have hspec := removeKeyValue_spec env hrel (IterRel.at hp)
  rw [hremove] at hspec
  cases hprev : Cursor.prev { key := some p.2.key, val := true } m.map.keys with
  | none =>
    rw [hprev] at hspec
    rcases rel_cases hspec with ⟨h1, -⟩ | ⟨-, r', -, h2, -⟩
    · rw [h1]
      exact .none
    · cases h2
  | some c' =>
    rw [hprev] at hspec
    rcases rel_cases hspec with ⟨-, h2⟩ | ⟨r, r', h1, h2, hrel', hkeeps, hit', -⟩
    · cases h2
    · cases h2
      rw [h1]
      refine .some ⟨hrel', ?_⟩
      rcases prev_drop m.map.nodup hprev with hval | hdrop
      · exact IterRel.invalid _ (hit'.val.trans hval) hval
      · have hafter := hit'.keeps hrel hkeeps
        rwa [hdrop] at hafter

/-- The body of the loop. -/
theorem visit_rel (hrel : HashRel h m) {p : Nat × HashMember V} (hp : p ∈ h.nodes) :
    Option.Rel (fun r r' => HashRel r.1 r'.1 ∧ IterRel r.1 r.2 r'.2)
      (HashIter.visit env cut { i := p.1, val := true } h p.2.key)
      (Cursor.visit cut { key := some p.2.key, val := true } m p.2.key) := by
  have hremoved := @removed_rel _ _ _ env _ _ hrel _ hp
  unfold HashIter.visit Cursor.visit
  cases hcut : cut p.2.key with
  | none => exact .some ⟨hrel, IterRel.at hp⟩
  | some how =>
    rcases rel_cases hremoved with ⟨h1, h2⟩ | ⟨r, r', h1, h2, hrel', hit'⟩
    · rw [h2]
      cases how with
      | deleteKey =>
        unfold HashIter.deleteKey
        rw [h1]
        exact .none
      | removeKeyValue =>
        rw [h1]
        exact .none
    · rw [h2]
      cases how with
      | deleteKey =>
        unfold HashIter.deleteKey
        rw [h1]
        exact .some ⟨hrel', hit'⟩
      | removeKeyValue =>
        rw [h1]
        exact .some ⟨hrel', hit'⟩

/-- The loop over a hash visits the keys that the loop over its map visits. -/
theorem traverse_rel
    (hmove : ∀ {h : HashPriv V D T} {m : SpecHash V D T} {it c}, HashRel h m → IterRel h it c →
      Option.Rel (IterRel h) (move it h.memberList) (move' c m.map.keys)) (fuel : Nat) :
    ∀ {h : HashPriv V D T} {m : SpecHash V D T} {it c}, HashRel h m → IterRel h it c →
      Option.Rel (fun r r' => r.1 = r'.1 ∧ HashRel r.2 r'.2)
        (HashIter.traverse env move cut fuel h it) (Cursor.walk move' cut fuel m c) := by
  induction fuel with
  | zero =>
    intro h m it c _ _
    exact .none
  | succ fuel ih =>
    intro h m it c hrel hit
    unfold HashIter.traverse Cursor.walk
    rcases rel_cases (hmove hrel hit) with ⟨h1, h2⟩ | ⟨it', c', h1, h2, hit'⟩
    · rw [h1, h2]
      exact .none
    · rw [h1, h2]
      simp only [Option.bind_eq_bind, Option.bind_some]
      by_cases hval : it'.val = true
      · rw [if_pos hval, if_pos (hit'.val ▸ hval)]
        rcases hit'.pos hval with ⟨p, hp, hi, hkey⟩ | ⟨-, hdead, hkey⟩
        · have hiter : it' = { i := p.1, val := true } := by
            obtain ⟨i, val⟩ := it'
            cases hi
            cases hval
            rfl
          have hcursor : c' = { key := some p.2.key, val := true } := by
            obtain ⟨key, val⟩ := c'
            cases hkey
            cases hit'.val.symm.trans hval
            rfl
          subst hiter hcursor
          rw [hrel.rep.alive p hp]
          simp only [Option.bind_some]
          rcases rel_cases (@visit_rel _ _ _ env _ _ cut hrel _ hp) with
            ⟨hv1, hv2⟩ | ⟨r, r', hv1, hv2, hrel', hiter'⟩
          · rw [hv1, hv2]
            exact .none
          · rw [hv1, hv2]
            simp only [Option.bind_some]
            rcases rel_cases (ih hrel' hiter') with ⟨hw1, hw2⟩ | ⟨w, w', hw1, hw2, hkeys, hrel''⟩
            · rw [hw1, hw2]
              exact .none
            · rw [hw1, hw2]
              exact .some ⟨by rw [hkeys], hrel''⟩
        · rw [hrel.rep.dead _ hdead, hkey]
          exact .none
      · rw [if_neg hval, if_neg (hit'.val ▸ hval)]
        exact .some ⟨rfl, hrel⟩

/-- The loop over a map ends with a result. -/
def Cursor.Ends (move : Cursor → List String → Option Cursor) (cut : String → Option Removal)
    (m : SpecHash V D T) (c : Cursor) (r : List String × SpecHash V D T) : Prop :=
  ∃ fuel, Cursor.walk move cut fuel m c = some r

/-- The loop over a hash, by the one over its map. -/
theorem visits_iff
    (hmove : ∀ {h : HashPriv V D T} {m : SpecHash V D T} {it c}, HashRel h m → IterRel h it c →
      Option.Rel (IterRel h) (move it h.memberList) (move' c m.map.keys)) (hrel : HashRel h m)
    (visited : List String) :
    h.Visits env move cut visited ↔ ∃ m', Cursor.Ends move' cut m Cursor.start (visited, m') ∧
      m'.map.entries = m.map.entries.filter fun e => (cut e.1).isNone := by
  have hloop := fun fuel => @traverse_rel _ _ _ env cut _ _ hmove fuel _ _ _ _ hrel
    (@IterRel.invalid _ _ _ HashIter.start Cursor.start h rfl rfl)
  constructor
  · rintro ⟨fuel, h', hrun, hleft⟩
    rcases rel_cases (hloop fuel) with ⟨h1, -⟩ | ⟨r, r', h1, h2, hkeys, hrel'⟩
    · rw [hrun] at h1
      cases h1
    · rw [hrun] at h1
      cases h1
      refine ⟨r'.2, ⟨fuel, ?_⟩, ?_⟩
      · rw [h2, show visited = r'.1 from hkeys]
      · rw [← hrel'.contents_eq, ← hrel.contents_eq]
        exact hleft
  · rintro ⟨m', ⟨fuel, hrun⟩, hleft⟩
    rcases rel_cases (hloop fuel) with ⟨-, h2⟩ | ⟨r, r', h1, h2, hkeys, hrel'⟩
    · rw [hrun] at h2
      cases h2
    · rw [hrun] at h2
      cases h2
      refine ⟨fuel, r.2, ?_, ?_⟩
      · rw [h1, show visited = r.1 from hkeys.symm]
      · rw [hrel'.contents_eq, hrel.contents_eq]
        exact hleft

/-! ### One call of `next()` -/

/-- The loop ends when the iterator is at no member. -/
theorem ends_stop {move : Cursor → List String → Option Cursor}
    (hmove : move c m.map.keys = some c') (hval : c'.val = false) :
    Cursor.Ends move cut m c r ↔ r = ([], m) := by
  constructor
  · rintro ⟨fuel, hrun⟩
    cases fuel with
    | zero => cases hrun
    | succ fuel =>
      unfold Cursor.walk at hrun
      rw [hmove] at hrun
      simp only [Option.bind_eq_bind, Option.bind_some, hval, Bool.false_eq_true, if_false,
        Option.pure_def, Option.some.injEq] at hrun
      exact hrun.symm
  · rintro rfl
    refine ⟨1, ?_⟩
    unfold Cursor.walk
    rw [hmove]
    simp only [Option.bind_eq_bind, Option.bind_some, hval, Bool.false_eq_true, if_false]
    rfl

/-- The loop at a key, and what follows. -/
theorem ends_step {move : Cursor → List String → Option Cursor} {m' : SpecHash V D T}
    (hmove : move c m.map.keys = some { key := some key, val := true })
    (hvisit : Cursor.visit cut { key := some key, val := true } m key = some (m', c')) :
    Cursor.Ends move cut m c r ↔
      ∃ r', Cursor.Ends move cut m' c' r' ∧ r = (key :: r'.1, r'.2) := by
  have hwalk : ∀ fuel, Cursor.walk move cut (fuel + 1) m c =
      (Cursor.walk move cut fuel m' c').map fun r' => (key :: r'.1, r'.2) := by
    intro fuel
    rw [Cursor.walk]
    rw [hmove]
    simp only [Option.bind_eq_bind, Option.bind_some, if_true, hvisit]
    cases Cursor.walk move cut fuel m' c' with
    | none => rfl
    | some r' => rfl
  constructor
  · rintro ⟨fuel, hrun⟩
    cases fuel with
    | zero => cases hrun
    | succ fuel =>
      rw [hwalk, Option.map_eq_some_iff] at hrun
      obtain ⟨r', hr', heq⟩ := hrun
      exact ⟨r', ⟨fuel, hr'⟩, heq.symm⟩
  · rintro ⟨r', ⟨fuel, hr'⟩, rfl⟩
    refine ⟨fuel + 1, ?_⟩
    rw [hwalk, hr']
    rfl

/-- A cursor at the last one of some keys, or at no key; `key` is the one it comes from. -/
def Cursor.before (xs : List String) (key : String) : Cursor :=
  match xs.getLast? with
  | some k => { key := some k, val := true }
  | none => { key := some key, val := false }

theorem prev_at {xs ys : List String} (hks : (xs ++ key :: ys).Nodup) :
    Cursor.prev { key := some key, val := true } (xs ++ key :: ys) = some (.before xs key) := by
  unfold Cursor.prev Cursor.before
  simp only [Option.bind_eq_bind, Option.bind_some, OrderedMap.prev_append hks]
  cases xs.getLast? with
  | none => rfl
  | some k => rfl

theorem next_at {xs ys : List String} (hks : (xs ++ key :: ys).Nodup) :
    Cursor.next { key := some key, val := true } (xs ++ key :: ys) =
      some (match ys.head? with
        | some k => { key := some k, val := true }
        | none => { key := some key, val := false }) := by
  unfold Cursor.next
  simp only [Option.bind_eq_bind, Option.bind_some, OrderedMap.next_append hks]
  cases ys.head? with
  | none => rfl
  | some k => rfl

/-- The keys of entries in two parts. -/
theorem keys_append (he : m.map.entries = a ++ e :: b) :
    m.map.keys = a.map Prod.fst ++ e.1 :: b.map Prod.fst := by
  unfold OrderedMap.keys
  rw [he, List.map_append, List.map_cons]

theorem nodup_append (he : m.map.entries = a ++ e :: b) :
    (a.map Prod.fst ++ e.1 :: b.map Prod.fst).Nodup := by
  rw [← keys_append he]
  exact m.map.nodup

/-- The entries without one of them. -/
theorem entries_remove (he : m.map.entries = a ++ e :: b) :
    (m.remove e.1).map.entries = a ++ b := by
  have hnodup := nodup_append he
  have hother : ∀ x ∈ a ++ b, x.1 ≠ e.1 := by
    intro x hx heq
    have hmid := List.nodup_middle.mp hnodup
    rw [List.nodup_cons, ← List.map_append] at hmid
    exact hmid.1 (List.mem_map.mpr ⟨x, hx, heq⟩)
  show m.map.entries.filter (fun x => x.1 ≠ e.1) = a ++ b
  have hsame : (a ++ b).filter (fun x => x.1 ≠ e.1) = a ++ b :=
    List.filter_eq_self.mpr fun x hx => decide_eq_true (hother x hx)
  rw [List.filter_append] at hsame
  rw [he, List.filter_append, List.filter_cons_of_neg (by simp), hsame]

/-- The body of the loop at an entry. -/
theorem visit_at (he : m.map.entries = a ++ e :: b) :
    Cursor.visit cut { key := some e.1, val := true } m e.1 =
      if (cut e.1).isNone then some (m, { key := some e.1, val := true })
      else some (m.remove e.1, .before (a.map Prod.fst) e.1) := by
  unfold Cursor.visit
  split
  · rfl
  · rw [keys_append he, prev_at (nodup_append he)]
    rfl

/-! ### Forwards -/

/-- The iterator is at the last of the entries that stayed, or at no entry. -/
def Cursor.AtLast (c : Cursor) (kept : List (String × V)) : Prop :=
  match kept.getLast? with
  | some e => c = { key := some e.1, val := true }
  | none => c.val = false

theorem atLast_before (kept : List (String × V)) (key : String) :
    (Cursor.before (kept.map Prod.fst) key).AtLast kept := by
  unfold Cursor.AtLast Cursor.before
  rw [List.getLast?_map]
  cases kept.getLast? with
  | none => rfl
  | some e => rfl

/-- The next key of an iterator at the last of the entries that stayed. -/
theorem next_atLast {kept : List (String × V)} (he : m.map.entries = kept ++ rest)
    (hc : c.AtLast kept) :
    ∃ c', Cursor.next c m.map.keys = some c' ∧
      match rest.head? with
      | some e => c' = { key := some e.1, val := true }
      | none => c'.val = false := by
  unfold Cursor.AtLast at hc
  cases hlast : kept.getLast? with
  | none =>
    rw [List.getLast?_eq_none_iff] at hlast
    subst hlast
    have hkeys : m.map.keys.head? = rest.head?.map Prod.fst := by
      unfold OrderedMap.keys
      rw [he, List.nil_append, List.head?_map]
    unfold Cursor.next
    rw [if_neg (by rw [hc]; exact Bool.false_ne_true), hkeys]
    cases rest.head? with
    | none => exact ⟨c, rfl, hc⟩
    | some e => exact ⟨_, rfl, rfl⟩
  | some l =>
    rw [hlast] at hc
    obtain ⟨kept', rfl⟩ := List.getLast?_eq_some_iff.mp hlast
    rw [List.append_assoc, List.singleton_append] at he
    rw [hc, keys_append he, next_at (nodup_append he), List.head?_map]
    cases rest.head? with
    | none => exact ⟨_, rfl, rfl⟩
    | some e => exact ⟨_, rfl, rfl⟩

/-- The forward loop visits what is left of the entries, and leaves those that are not cut. -/
theorem walk_next (rest : List (String × V)) : ∀ (kept : List (String × V)) (m : SpecHash V D T)
    (c : Cursor), m.map.entries = kept ++ rest → c.AtLast kept →
    ∃ m', Cursor.Ends Cursor.next cut m c (rest.map Prod.fst, m') ∧
      m'.map.entries = kept ++ rest.filter fun e => (cut e.1).isNone := by
  induction rest with
  | nil =>
    intro kept m c he hc
    obtain ⟨c', hnext, hval⟩ := next_atLast he hc
    exact ⟨m, (ends_stop hnext hval).mpr rfl, he⟩
  | cons e rest ih =>
    intro kept m c he hc
    obtain ⟨c', hnext, hat⟩ := next_atLast he hc
    subst hat
    have hvisit := @visit_at _ _ _ _ cut _ _ _ he
    by_cases hcut : (cut e.1).isNone = true
    · rw [if_pos hcut] at hvisit
      obtain ⟨m', hends, hleft⟩ := ih (kept ++ [e]) m { key := some e.1, val := true }
        (by rw [he, List.append_assoc]; rfl) (by unfold Cursor.AtLast; simp)
      refine ⟨m', (ends_step hnext hvisit).mpr ⟨_, hends, rfl⟩, ?_⟩
      rw [hleft, List.filter_cons, if_pos hcut, List.append_assoc]
      rfl
    · -- the iterator goes back, and the next key is the one after the removed one
      rw [if_neg hcut] at hvisit
      obtain ⟨m', hends, hleft⟩ := ih kept (m.remove e.1) (.before (kept.map Prod.fst) e.1)
        (entries_remove he) (atLast_before kept e.1)
      refine ⟨m', (ends_step hnext hvisit).mpr ⟨_, hends, rfl⟩, ?_⟩
      rw [hleft, List.filter_cons, if_neg hcut]

/-! ### Backwards -/

/-- The iterator is at the first of the entries that it has visited, or at no entry. -/
def Cursor.AtFirst (c : Cursor) (seen : List (String × V)) : Prop :=
  match seen.head? with
  | some e => c = { key := some e.1, val := true }
  | none => c.val = false

/-- `prev()` of such an iterator goes to the last of the entries before. -/
theorem prev_atFirst (he : m.map.entries = rest ++ seen) (hc : c.AtFirst seen) :
    ∃ c', Cursor.prev c m.map.keys = some c' ∧
      match rest.getLast? with
      | some e => c' = { key := some e.1, val := true }
      | none => c'.val = false := by
  cases seen with
  | nil =>
    have hkeys : m.map.keys.getLast? = rest.getLast?.map Prod.fst := by
      unfold OrderedMap.keys
      rw [he, List.append_nil, List.getLast?_map]
    unfold Cursor.prev
    rw [if_neg (by rw [hc]; exact Bool.false_ne_true), hkeys]
    cases rest.getLast? with
    | none => exact ⟨c, rfl, hc⟩
    | some e => exact ⟨_, rfl, rfl⟩
  | cons s seen =>
    rw [hc, keys_append he, prev_at (nodup_append he)]
    unfold Cursor.before
    rw [List.getLast?_map]
    cases rest.getLast? with
    | none => exact ⟨_, rfl, rfl⟩
    | some e => exact ⟨_, rfl, rfl⟩

/-- The reverse loop over entries that are not cut, and what follows. -/
theorem walk_prev (b : List (String × V)) : ∀ (seen : List (String × V)) (c : Cursor),
    m.map.entries = rest ++ b ++ seen → c.AtFirst seen → (∀ e ∈ b, (cut e.1).isNone = true) →
    ∃ c', c'.AtFirst (b ++ seen) ∧ ∀ r, Cursor.Ends Cursor.prev cut m c r ↔
      ∃ r', Cursor.Ends Cursor.prev cut m c' r' ∧ r = ((b.map Prod.fst).reverse ++ r'.1, r'.2) := by
  induction b using List.reverseRecOn with
  | nil =>
    intro seen c he hc _
    refine ⟨c, hc, fun r => ?_⟩
    constructor
    · intro hends
      exact ⟨r, hends, rfl⟩
    · rintro ⟨r', hends, rfl⟩
      exact hends
  | append_singleton b e ih =>
    intro seen c he hc hcut
    obtain ⟨c', hprev, hat⟩ := prev_atFirst he hc
    rw [← List.append_assoc, List.getLast?_append_of_ne_nil _ (List.cons_ne_nil _ _)] at hat
    subst hat
    have he' : m.map.entries = (rest ++ b) ++ e :: seen := by
      rw [he]
      simp
    have hvisit := @visit_at _ _ _ _ cut _ _ _ he'
    rw [if_pos (hcut e (by simp))] at hvisit
    obtain ⟨c'', hat'', hiff⟩ := ih (e :: seen) { key := some e.1, val := true }
      (by rw [he]; simp) rfl fun x hx => hcut x (List.mem_append_left _ hx)
    refine ⟨c'', by simpa using hat'', fun r => ?_⟩
    have hkeys : ((b ++ [e]).map Prod.fst).reverse = e.1 :: (b.map Prod.fst).reverse := by simp
    rw [ends_step hprev hvisit, hkeys]
    constructor
    · rintro ⟨r1, hr1, rfl⟩
      obtain ⟨r', hr', rfl⟩ := (hiff r1).mp hr1
      exact ⟨r', hr', rfl⟩
    · rintro ⟨r', hr', rfl⟩
      exact ⟨_, (hiff _).mpr ⟨r', hr', rfl⟩, rfl⟩

/-- The reverse loop ends at the first entry. -/
theorem ends_atFirst (he : m.map.entries = seen) (hc : c.AtFirst seen) :
    Cursor.Ends Cursor.prev cut m c r ↔ r = ([], m) := by
  obtain ⟨c', hprev, hval⟩ := @prev_atFirst _ _ _ _ _ [] _ he hc
  exact ends_stop hprev hval

/-- The next key of the reverse loop is the last one before those that it has visited. -/
theorem ends_prev (he : m.map.entries = a ++ e :: seen) (hc : c.AtFirst seen)
    (hends : Cursor.Ends Cursor.prev cut m c r) : r.1.head? = some e.1 := by
  have he' : m.map.entries = (a ++ [e]) ++ seen := by
    rw [he, List.append_assoc]
    rfl
  obtain ⟨c', hprev, hat⟩ := prev_atFirst he' hc
  rw [List.getLast?_append_of_ne_nil _ (List.cons_ne_nil _ _)] at hat
  subst hat
  have hvisit := @visit_at _ _ _ _ cut _ _ _ he
  split at hvisit
  · obtain ⟨r', -, rfl⟩ := (ends_step hprev hvisit).mp hends
    rfl
  · obtain ⟨r', -, rfl⟩ := (ends_step hprev hvisit).mp hends
    rfl

/-- The last entry that is cut. -/
theorem exists_last_cut {es : List (String × V)} (h : ∃ e ∈ es, ¬(cut e.1).isNone = true) :
    ∃ a e b, es = a ++ e :: b ∧ ¬(cut e.1).isNone = true ∧ ∀ x ∈ b, (cut x.1).isNone = true := by
  induction es with
  | nil =>
    obtain ⟨e, he, -⟩ := h
    cases he
  | cons x es ih =>
    by_cases hrest : ∃ e ∈ es, ¬(cut e.1).isNone = true
    · obtain ⟨a, e, b, rfl, hcut, hb⟩ := ih hrest
      exact ⟨x :: a, e, b, rfl, hcut, hb⟩
    · obtain ⟨e, he, hcut⟩ := h
      have hb : ∀ y ∈ es, (cut y.1).isNone = true := by
        intro y hy
        by_contra hno
        exact hrest ⟨y, hy, hno⟩
      rcases List.mem_cons.mp he with rfl | he
      · exact ⟨[], e, es, rfl, hcut, hb⟩
      · exact absurd (hb e he) hcut

/-- After the last entry that is cut, the reverse loop does not go on with the entry before it. -/
theorem ends_after_cut (he : m.map.entries = a ++ e :: b) (hne : a ++ b ≠ [])
    (hends : Cursor.Ends Cursor.prev cut (m.remove e.1) (.before (a.map Prod.fst) e.1) r) :
    r.1 ≠ (a.map Prod.fst).reverse := by
  have hleft := entries_remove he
  intro heq
  have hhead := congrArg List.head? heq
  rw [List.head?_reverse, List.getLast?_map] at hhead
  rcases List.eq_nil_or_concat' a with rfl | ⟨a, l, rfl⟩
  · -- the first entry was cut, and the loop starts again at the end
    obtain ⟨b, x, rfl⟩ := (List.eq_nil_or_concat' b).resolve_left hne
    have hat : (Cursor.before (([] : List (String × V)).map Prod.fst) e.1).AtFirst ([] : List (String × V)) := rfl
    rw [ends_prev hleft hat hends] at hhead
    cases hhead
  · rw [List.getLast?_append_of_ne_nil _ (List.cons_ne_nil _ _)] at hhead
    rw [List.append_assoc, List.singleton_append] at hleft
    have hat : (Cursor.before ((a ++ [l]).map Prod.fst) e.1).AtFirst (l :: b) := by
      unfold Cursor.AtFirst Cursor.before
      simp
    rcases List.eq_nil_or_concat' a with rfl | ⟨a, y, rfl⟩
    · rw [(ends_atFirst hleft hat).mp hends] at hhead
      cases hhead
    · -- the loop goes on with the entry before the one that the iterator went back to
      rw [List.append_assoc, List.singleton_append] at hleft
      rw [ends_prev hleft hat hends] at hhead
      have hsame : y.1 = l.1 := Option.some.inj hhead
      have hnodup := (List.nodup_append.mp (nodup_append hleft)).2.1
      rw [List.map_cons, ← hsame] at hnodup
      exact (List.nodup_cons.mp hnodup).1 (List.mem_cons_self ..)

/-- The reverse loop visits every key once and leaves what it should exactly when it removes nothing
or there is at most one entry. -/
theorem walk_prev_iff (m : SpecHash V D T) :
    (∃ m', Cursor.Ends Cursor.prev cut m Cursor.start (m.map.keys.reverse, m') ∧
        m'.map.entries = m.map.entries.filter fun e => (cut e.1).isNone) ↔
      (∀ key ∈ m.map.keys, cut key = none) ∨ m.map.keys.length ≤ 1 := by
  have hlen : m.map.keys.length = m.map.entries.length := List.length_map _
  by_cases hcut : ∃ e ∈ m.map.entries, ¬(cut e.1).isNone = true
  · obtain ⟨a, e, b, he, hecut, hb⟩ := exists_last_cut hcut
    have hkey : e.1 ∈ m.map.keys := by
      rw [keys_append he]
      simp
    have hkeys : m.map.keys.reverse =
        (b.map Prod.fst).reverse ++ (e.1 :: (a.map Prod.fst).reverse) := by
      rw [keys_append he]
      simp
    -- the loop visits the entries after the last one that is cut, and then that one
    obtain ⟨c, hat, hiff⟩ := @walk_prev _ _ _ m cut (a ++ [e]) b [] Cursor.start
      (by rw [he]; simp) rfl hb
    obtain ⟨c', hprev, hc'⟩ := @prev_atFirst _ _ _ _ _ (a ++ [e]) _ (by rw [he]; simp) hat
    rw [List.getLast?_append_of_ne_nil _ (List.cons_ne_nil _ _)] at hc'
    subst hc'
    have hvisit := @visit_at _ _ _ _ cut _ _ _ he
    rw [if_neg hecut] at hvisit
    have hends : ∀ m', Cursor.Ends Cursor.prev cut m Cursor.start (m.map.keys.reverse, m') ↔
        Cursor.Ends Cursor.prev cut (m.remove e.1) (.before (a.map Prod.fst) e.1)
          ((a.map Prod.fst).reverse, m') := by
      intro m'
      rw [hiff, hkeys]
      constructor
      · rintro ⟨r', hr', heq⟩
        obtain ⟨r'', hr'', rfl⟩ := (ends_step hprev hvisit).mp hr'
        have hparts := Prod.mk.inj heq
        have htail := List.append_cancel_left hparts.1
        rw [List.cons.injEq] at htail
        rw [htail.2, hparts.2]
        exact hr''
      · intro hr''
        exact ⟨_, (ends_step hprev hvisit).mpr ⟨_, hr'', rfl⟩, rfl⟩
    by_cases hne : a ++ b = []
    · -- the only entry is removed
      obtain ⟨rfl, rfl⟩ := List.append_eq_nil_iff.mp hne
      refine iff_of_true ⟨m.remove e.1, (hends _).mpr ?_, ?_⟩ (.inr ?_)
      · have hat' : (Cursor.before (([] : List (String × V)).map Prod.fst) e.1).AtFirst
            ([] : List (String × V)) := rfl
        exact (ends_atFirst (entries_remove he) hat').mpr rfl
      · rw [entries_remove he, he]
        show [] = [e].filter _
        rw [List.filter_cons, if_neg hecut]
        rfl
      · rw [hlen, he]
        exact Nat.le_refl 1
    · refine iff_of_false ?_ ?_
      · rintro ⟨m', hm', -⟩
        exact ends_after_cut he hne ((hends m').mp hm') rfl
      · rintro (hall | hle)
        · rw [hall e.1 hkey] at hecut
          exact hecut rfl
        · rw [hlen, he, List.length_append, List.length_cons] at hle
          have hpos := List.length_pos_iff.mpr hne
          rw [List.length_append] at hpos
          omega
  · -- nothing is cut
    have hall : ∀ e ∈ m.map.entries, (cut e.1).isNone = true := by
      intro e he
      by_contra hno
      exact hcut ⟨e, he, hno⟩
    obtain ⟨c, hat, hiff⟩ := @walk_prev _ _ _ m cut [] m.map.entries []
      Cursor.start (by simp) rfl hall
    rw [List.append_nil] at hat
    refine iff_of_true ⟨m, (hiff _).mpr ⟨_, (ends_atFirst rfl hat).mpr rfl, ?_⟩, ?_⟩ (.inl ?_)
    · rw [List.append_nil]
      rfl
    · exact (List.filter_eq_self.mpr hall).symm
    · intro key hkey
      obtain ⟨e, he, rfl⟩ := List.mem_map.mp hkey
      exact Option.isNone_iff_eq_none.mp (hall e he)

/-- A `HashIterator` visits every key of a hash once, in the order of the inserts, and leaves the
others. A `ReverseHashIterator` does in the reverse order exactly when no key is removed or there is
at most one. -/
theorem traverse_iff (hreach : h.Reachable env) (cut : String → Option Removal) :
    h.Visits env HashIter.next cut h.keys ∧
      (h.Visits env HashIter.prev cut h.keys.reverse ↔
        (∀ key ∈ h.keys, cut key = none) ∨ h.keys.length ≤ 1) := by
  obtain ⟨m, hrel⟩ := hreach.rel
  rw [visits_iff next_spec hrel, visits_iff prev_spec hrel, hrel.keys_contents]
  exact ⟨walk_next m.map.entries [] m Cursor.start rfl rfl, walk_prev_iff m⟩

end

/-- A program makes a hash of two integers. -/
def twoKeys : List (Action (Option Int) Unit Unit) :=
  [.create (.complex ()), .setKeyValue 0 "a" (some 1) false, .setKeyValue 0 "b" (some 2) false]

/-- The loop that removes one key. -/
def cutOnly (key : String) (k : String) : Option Removal := if k = key then some .deleteKey else none

/-- Removing the first key of two, forwards. -/
theorem twoKeys_forward : ∃ h : HashPriv (Option Int) Unit Unit, h.Reachable intEnv ∧
    h.keys = ["a", "b"] ∧ h.Visits intEnv HashIter.next (cutOnly "a") h.keys := by
  have hreach : HashPriv.Reachable intEnv _ := ⟨twoKeys, _, _, 0, rfl, rfl⟩
  exact ⟨_, hreach, rfl, (traverse_iff hreach (cutOnly "a")).1⟩

/-- Removing the last key of two, backwards: the loop visits that key only. -/
theorem twoKeys_backward : ∃ h : HashPriv (Option Int) Unit Unit, h.Reachable intEnv ∧
    h.keys = ["a", "b"] ∧
    (∃ h', HashIter.traverse intEnv HashIter.prev (cutOnly "b") 2 h HashIter.start =
      some (["b"], h')) ∧
    ¬h.Visits intEnv HashIter.prev (cutOnly "b") h.keys.reverse := by
  have hreach : HashPriv.Reachable intEnv _ := ⟨twoKeys, _, _, 0, rfl, rfl⟩
  refine ⟨_, hreach, rfl, ⟨_, rfl⟩, ?_⟩
  obtain ⟨m, hrel⟩ := hreach.rel
  rw [visits_iff prev_spec hrel, hrel.keys_contents, walk_prev_iff, ← hrel.keys_contents]
  rintro (hall | hle)
  · exact absurd (hall "b" (List.mem_cons_of_mem _ (List.mem_cons_self ..))) (by decide)
  · exact absurd hle (by decide)

end Qore.Hash
