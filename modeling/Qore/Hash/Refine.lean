import Qore.Hash.Spec
import Qore.Lib.Lts

/-!
# `Qore.Hash.Refine`: hashes are insertion-ordered maps

`Rep h l` says that the members `l`, with their addresses, are what the hash `h` stores: the
list, the map and the memory all say the same. Each operation of the code is a change of `l`
(`findCreateMember_new`, `swapImpl_spec`, `erase_spec`), and `HashRel` compares `l` with an
ordered map. `Keeps` is what an operation does to the members that iterators stand at.
-/

set_option autoImplicit false

namespace Qore.Hash

open Qore.Lib

variable {V D T : Type}

/-- The members of a hash with their addresses, in order. -/
def HashPriv.nodes (h : HashPriv V D T) : List (Nat × HashMember V) :=
  h.memberList.filterMap fun i => (h.mem i).map fun m => (i, m)

/-- The hash stores the members `l`. -/
structure Rep (h : HashPriv V D T) (l : List (Nat × HashMember V)) : Prop where
  list : h.memberList = l.map Prod.fst
  alive : ∀ p ∈ l, h.mem p.1 = some p.2
  dead : ∀ i, i ∉ h.memberList → h.mem i = none
  map : h.hm.Perm (h.memberList.map fun i => (i, i))
  ids : h.memberList.Nodup
  below : ∀ i ∈ h.memberList, i < h.next
  keys : (l.map fun p => p.2.key).Nodup

namespace Rep

variable {h : HashPriv V D T} {l : List (Nat × HashMember V)} {p : Nat × HashMember V} {key : String}

theorem nodes_eq (hr : Rep h l) : h.nodes = l := by
  unfold HashPriv.nodes
  rw [hr.list, List.filterMap_map]
  have hsome : ∀ p ∈ l, ((fun i => (h.mem i).map fun m => (i, m)) ∘ Prod.fst) p = some p := by
    intro p hp
    show (h.mem p.1).map (fun m => (p.1, m)) = some p
    rw [hr.alive p hp]
    rfl
  rw [List.filterMap_congr hsome, List.filterMap_some]

theorem mem_list (hr : Rep h l) (hp : p ∈ l) : p.1 ∈ h.memberList := by
  rw [hr.list]
  exact List.mem_map.mpr ⟨p, hp, rfl⟩

/-- Every pointer of the map is to a living member. -/
theorem hm_alive (hr : Rep h l) {e : Nat × Nat} (he : e ∈ h.hm) :
    ∃ p ∈ l, e = (p.1, p.1) := by
  have hmem := hr.map.mem_iff.mp he
  rw [hr.list, List.map_map] at hmem
  obtain ⟨p, hp, hpe⟩ := List.mem_map.mp hmem
  exact ⟨p, hp, hpe.symm⟩

theorem hmFind_eq (hr : Rep h l) (key : String) :
    h.hmFind key = some (h.hm.find? fun e => (h.mem e.1).map (·.key) = some key) := by
  unfold HashPriv.hmFind
  rw [if_pos]
  rw [List.all_eq_true]
  intro e he
  obtain ⟨p, hp, rfl⟩ := hr.hm_alive he
  rw [hr.alive p hp]
  rfl

variable {q : Nat × HashMember V}

/-- Members with one key are one member. -/
theorem eq_of_key (hr : Rep h l) (hp : p ∈ l) (hq : q ∈ l) (hkey : p.2.key = q.2.key) :
    p = q := List.inj_on_of_nodup_map hr.keys hp hq hkey

/-- Members with one address have one key, and the other way round. -/
theorem fst_iff_key (hr : Rep h l) (hq : q ∈ l) (hp : p ∈ l) : q.1 = p.1 ↔ q.2.key = p.2.key := by
  constructor
  · intro hi
    have hmem := hr.alive q hq
    rw [hi, hr.alive p hp] at hmem
    rw [Option.some.inj hmem]
  · intro hk
    rw [hr.eq_of_key hq hp hk]

/-- The map finds the member of a key. -/
theorem hmFind_of_mem (hr : Rep h l) (hp : p ∈ l) : h.hmFind p.2.key = some (some (p.1, p.1)) := by
  rw [hr.hmFind_eq]
  have hin : (p.1, p.1) ∈ h.hm := hr.map.mem_iff.mpr (List.mem_map.mpr ⟨p.1, hr.mem_list hp, rfl⟩)
  have hfound : (h.hm.find? fun e => (h.mem e.1).map (·.key) = some p.2.key).isSome := by
    rw [List.find?_isSome]
    exact ⟨(p.1, p.1), hin, by simp [hr.alive p hp]⟩
  obtain ⟨e, he⟩ := Option.isSome_iff_exists.mp hfound
  -- any entry that is found is the entry of a member with that key, so of `p`
  obtain ⟨q, hq, rfl⟩ := hr.hm_alive (List.mem_of_find?_eq_some he)
  have hkey := List.find?_some he
  simp only [hr.alive q hq, Option.map_some, Option.some.injEq, decide_eq_true_eq] at hkey
  rw [he, hr.eq_of_key hq hp hkey]

theorem hmFind_of_notMem (hr : Rep h l) (hkey : key ∉ l.map fun p => p.2.key) :
    h.hmFind key = some none := by
  rw [hr.hmFind_eq]
  congr 1
  rw [List.find?_eq_none]
  intro e he hfound
  obtain ⟨p, hp, rfl⟩ := hr.hm_alive he
  simp only [hr.alive p hp, Option.map_some, Option.some.injEq, decide_eq_true_eq] at hfound
  exact hkey (List.mem_map.mpr ⟨p, hp, hfound⟩)

/-- A key is the key of a member or of none. -/
theorem key_cases (key : String) (l : List (Nat × HashMember V)) :
    (∃ p ∈ l, p.2.key = key) ∨ key ∉ l.map fun p => p.2.key := by
  by_cases h : key ∈ l.map fun p => p.2.key
  · exact .inl (List.mem_map.mp h)
  · exact .inr h

end Rep

/-- A new hash stores nothing. -/
theorem rep_empty (type : HashType D T) : Rep (HashPriv.empty type : HashPriv V D T) [] where
  list := rfl
  alive := fun _ hp => absurd hp List.not_mem_nil
  dead := fun _ _ => rfl
  map := List.Perm.refl _
  ids := List.nodup_nil
  below := fun _ hi => absurd hi List.not_mem_nil
  keys := List.nodup_nil

section
variable (env : Env V D T) {h : HashPriv V D T} {l : List (Nat × HashMember V)}
  {p : Nat × HashMember V} {key : String}

theorem findMember_of_mem (hr : Rep h l) (hp : p ∈ l) : h.findMember p.2.key = some (some p.1) := by
  unfold HashPriv.findMember
  rw [hr.hmFind_of_mem hp]
  rfl

theorem findMember_of_notMem (hr : Rep h l) (hkey : key ∉ l.map fun p => p.2.key) :
    h.findMember key = some none := by
  unfold HashPriv.findMember
  rw [hr.hmFind_of_notMem hkey]
  rfl

theorem findCreateMember_of_mem (hr : Rep h l) (hp : p ∈ l) :
    h.findCreateMember env p.2.key = some (h, p.1) := by
  unfold HashPriv.findCreateMember
  rw [findMember_of_mem hr hp]
  rfl

/-- The memory, the list and the map after a member is made. -/
def HashPriv.pushed (env : Env V D T) (h : HashPriv V D T) (key : String) : HashPriv V D T :=
  { h with mem := Function.update h.mem h.next (some ⟨key, env.nothing⟩)
           next := h.next + 1, memberList := h.memberList ++ [h.next]
           hm := h.hm ++ [(h.next, h.next)] }

/-- A new key goes last. -/
theorem findCreateMember_new (hr : Rep h l) (hkey : key ∉ l.map fun p => p.2.key) :
    h.findCreateMember env key = some (h.pushed env key, h.next) ∧
      Rep (h.pushed env key) (l ++ [(h.next, ⟨key, env.nothing⟩)]) := by
  have hfresh : h.next ∉ h.memberList := fun hin => Nat.lt_irrefl _ (hr.below _ hin)
  have hkept : ∀ p ∈ l, (h.pushed env key).mem p.1 = some p.2 := by
    intro p hp
    have hne : p.1 ≠ h.next := fun heq => hfresh (heq ▸ hr.mem_list hp)
    show Function.update h.mem h.next (some ⟨key, env.nothing⟩) p.1 = some p.2
    rw [Function.update_of_ne hne]
    exact hr.alive p hp
  have hnew : (h.pushed env key).mem h.next = some ⟨key, env.nothing⟩ := Function.update_self ..
  constructor
  · -- the map is asked again for the new key, and does not have it
    have hask : ({ h with mem := Function.update h.mem h.next (some ⟨key, env.nothing⟩)
                          next := h.next + 1, memberList := h.memberList ++ [h.next] } :
        HashPriv V D T).hmFind key = some none := by
      unfold HashPriv.hmFind
      rw [if_pos]
      · congr 1
        rw [List.find?_eq_none]
        intro e he hfound
        obtain ⟨p, hp, rfl⟩ := hr.hm_alive he
        have hmem := hkept p hp
        simp only [HashPriv.pushed] at hmem
        simp only [hmem, Option.map_some, Option.some.injEq, decide_eq_true_eq] at hfound
        exact hkey (List.mem_map.mpr ⟨p, hp, hfound⟩)
      · rw [List.all_eq_true]
        intro e he
        obtain ⟨p, hp, rfl⟩ := hr.hm_alive he
        have hmem := hkept p hp
        simp only [HashPriv.pushed] at hmem
        simp [hmem]
    unfold HashPriv.findCreateMember
    rw [findMember_of_notMem hr hkey]
    show (HashPriv.hmSet _ h.next h.next).bind _ = _
    unfold HashPriv.hmSet
    simp only [Function.update_self, Option.bind_eq_bind, Option.bind_some, hask]
    rfl
  · exact {
      list := by
        show h.memberList ++ [h.next] = _
        rw [List.map_append, hr.list]
        rfl
      alive := by
        intro p hp
        rcases List.mem_append.mp hp with hp | hp
        · exact hkept p hp
        · rw [List.mem_singleton] at hp
          subst hp
          exact hnew
      dead := by
        intro i hi
        have hi' : i ∉ h.memberList ∧ i ≠ h.next := by
          constructor
          · exact fun hin => hi (List.mem_append.mpr (.inl hin))
          · exact fun heq => hi (List.mem_append.mpr (.inr (List.mem_singleton.mpr heq)))
        show Function.update h.mem h.next _ i = none
        rw [Function.update_of_ne hi'.2]
        exact hr.dead i hi'.1
      map := by
        show (h.hm ++ [(h.next, h.next)]).Perm ((h.memberList ++ [h.next]).map _)
        rw [List.map_append]
        exact hr.map.append_right _
      ids := List.nodup_append.mpr ⟨hr.ids, List.nodup_singleton _, by
        intro a ha b hb heq
        rw [List.mem_singleton] at hb
        exact hfresh (hb ▸ heq ▸ ha)⟩
      below := by
        intro i hi
        show i < h.next + 1
        rcases List.mem_append.mp hi with hi | hi
        · exact Nat.lt_succ_of_lt (hr.below i hi)
        · rw [List.mem_singleton] at hi
          omega
      keys := by
        rw [List.map_append]
        refine List.nodup_append.mpr ⟨hr.keys, List.nodup_singleton _, ?_⟩
        intro a ha b hb heq
        rw [List.map_singleton, List.mem_singleton] at hb
        rw [heq, hb] at ha
        exact hkey ha }

/-- The members after a value is written. -/
def written (i : Nat) (v : V) (q : Nat × HashMember V) : Nat × HashMember V :=
  if q.1 = i then (q.1, { q.2 with val := v }) else q

theorem written_fst (i : Nat) (v : V) (q : Nat × HashMember V) : (written i v q).1 = q.1 := by
  unfold written
  split <;> rfl

theorem written_key (i : Nat) (v : V) (q : Nat × HashMember V) :
    (written i v q).2.key = q.2.key := by
  unfold written
  split <;> rfl

/-- Writing a value changes that member only. -/
theorem swapImpl_spec (hr : Rep h l) (hp : p ∈ l) (v : V) :
    ∃ h', h.swapImpl p.1 v = some (h', p.2.val) ∧ Rep h' (l.map (written p.1 v)) ∧
      h'.type = h.type ∧ h'.next = h.next := by
  unfold HashPriv.swapImpl
  rw [hr.alive p hp]
  refine ⟨_, rfl, ?_, rfl, rfl⟩
  exact {
    list := by
      rw [List.map_map, show Prod.fst ∘ written p.1 v = Prod.fst from funext (written_fst p.1 v)]
      exact hr.list
    alive := by
      intro q' hq'
      obtain ⟨q, hq, rfl⟩ := List.mem_map.mp hq'
      by_cases hi : q.1 = p.1
      · have hqp : q = p := by
          have := hr.alive q hq
          rw [hi, hr.alive p hp] at this
          exact Prod.ext hi (Option.some.inj this).symm
        subst hqp
        simp [written]
      · simp only [written, if_neg hi]
        show Function.update h.mem p.1 _ q.1 = _
        rw [Function.update_of_ne hi]
        exact hr.alive q hq
    dead := by
      intro i hi
      have hne : i ≠ p.1 := fun heq => hi (heq ▸ hr.mem_list hp)
      show Function.update h.mem p.1 _ i = none
      rw [Function.update_of_ne hne]
      exact hr.dead i hi
    map := hr.map
    ids := hr.ids
    below := hr.below
    keys := by
      rw [List.map_map,
        show (fun q : Nat × HashMember V => q.2.key) ∘ written p.1 v = fun q => q.2.key from
          funext (written_key p.1 v)]
      exact hr.keys }

/-- The members without the one at an address. -/
def without (i : Nat) (l : List (Nat × HashMember V)) : List (Nat × HashMember V) :=
  l.filter fun q => q.1 ≠ i

theorem mem_without {i : Nat} {q : Nat × HashMember V} : q ∈ without i l ↔ q ∈ l ∧ q.1 ≠ i := by
  simp [without]

/-- The hash after the entry of the map and the member are gone. -/
def HashPriv.erased (h : HashPriv V D T) (i : Nat) : HashPriv V D T :=
  { h with hm := h.hm.erase (i, i), memberList := h.memberList.erase i
           mem := Function.update h.mem i none }

/-- The entry of the map goes first, when the key that it points to is still there. -/
theorem hmErase_spec (hr : Rep h l) (hp : p ∈ l) :
    h.hmErase (p.1, p.1) = some { h with hm := h.hm.erase (p.1, p.1) } := by
  unfold HashPriv.hmErase
  rw [hr.alive p hp]
  rfl

/-- Then the member goes. -/
theorem internDeleteKey_spec (hr : Rep h l) (hp : p ∈ l) :
    ({ h with hm := h.hm.erase (p.1, p.1) } : HashPriv V D T).internDeleteKey p.1 =
      some (h.erased p.1) := by
  unfold HashPriv.internDeleteKey
  simp only [hr.alive p hp, Option.bind_eq_bind, Option.bind_some, if_pos (hr.mem_list hp)]
  rfl

/-- The other members are stored as before. -/
theorem rep_erased (hr : Rep h l) : Rep (h.erased p.1) (without p.1 l) := by
  have hfilter : h.memberList.erase p.1 = h.memberList.filter fun i => i ≠ p.1 := by
    rw [hr.ids.erase_eq_filter]
    exact List.filter_congr fun i _ => by simp only [ne_eq, decide_not]; rfl
  exact {
    list := by
      show h.memberList.erase p.1 = _
      rw [hfilter, hr.list, List.filter_map]
      rfl
    alive := by
      intro q hq
      obtain ⟨hql, hne⟩ := mem_without.mp hq
      show Function.update h.mem p.1 none q.1 = _
      rw [Function.update_of_ne hne]
      exact hr.alive q hql
    dead := by
      intro i hi
      show Function.update h.mem p.1 none i = none
      by_cases heq : i = p.1
      · rw [heq, Function.update_self]
      · rw [Function.update_of_ne heq]
        exact hr.dead i fun hin' => hi ((List.mem_erase_of_ne heq).mpr hin')
    map := by
      show (h.hm.erase (p.1, p.1)).Perm ((h.memberList.erase p.1).map _)
      have hinj : Function.Injective fun i : Nat => (i, i) := fun a b hab => (Prod.mk.inj hab).1
      rw [List.map_erase hinj]
      exact hr.map.erase _
    ids := hr.ids.erase _
    below := fun i hi => hr.below i (List.mem_of_mem_erase hi)
    keys := hr.keys.sublist ((List.filter_sublist).map _) }

end

/-- The entry of a member. -/
def entryOf (p : Nat × HashMember V) : String × V := (p.2.key, p.2.val)

/-- The hash stores its nodes, and they are the entries of the map in order. -/
structure HashRel (h : HashPriv V D T) (m : SpecHash V D T) : Prop where
  rep : Rep h h.nodes
  type : h.type = m.type
  entries : m.map.entries = h.nodes.map entryOf

/-- What becomes of the members of a hash: those with a key that is removed are gone for ever, the
others stay where they are, and a new member has a new address. -/
structure Keeps (h h' : HashPriv V D T) (gone : String → Bool) : Prop where
  next_le : h.next ≤ h'.next
  kept : ∀ p ∈ h.nodes, gone p.2.key = false → ∃ q ∈ h'.nodes, q.1 = p.1 ∧ q.2.key = p.2.key
  gone : ∀ p ∈ h.nodes, gone p.2.key = true → p.1 ∉ h'.memberList
  fresh : ∀ i ∈ h'.memberList, i ∈ h.memberList ∨ h.next ≤ i

/-- No key is removed. -/
def noKey : String → Bool := fun _ => false

section
variable (env : Env V D T) {h h' h'' : HashPriv V D T} {m : SpecHash V D T}
  {l : List (Nat × HashMember V)} {p : Nat × HashMember V} {key : String}

theorem HashRel.of_rep (hr : Rep h l) (ht : h.type = m.type) (he : m.map.entries = l.map entryOf) :
    HashRel h m := by
  have hl := hr.nodes_eq
  subst hl
  exact ⟨hr, ht, he⟩

theorem Keeps.refl (h : HashPriv V D T) : Keeps h h noKey where
  next_le := Nat.le_refl _
  kept := fun p hp _ => ⟨p, hp, rfl, rfl⟩
  gone := fun _ _ hg => absurd hg Bool.false_ne_true
  fresh := fun _ hi => .inl hi

theorem Keeps.trans (h1 : Keeps h h' noKey) (h2 : Keeps h' h'' noKey) : Keeps h h'' noKey where
  next_le := Nat.le_trans h1.next_le h2.next_le
  kept := by
    intro p hp _
    obtain ⟨q, hq, hqi, hqk⟩ := h1.kept p hp rfl
    obtain ⟨r, hr, hri, hrk⟩ := h2.kept q hq rfl
    exact ⟨r, hr, hri.trans hqi, hrk.trans hqk⟩
  gone := fun _ _ hg => absurd hg Bool.false_ne_true
  fresh := by
    intro i hi
    rcases h2.fresh i hi with hi | hi
    · exact h1.fresh i hi
    · exact .inr (Nat.le_trans h1.next_le hi)

namespace HashRel

theorem keys_eq (hrel : HashRel h m) : m.map.keys = h.nodes.map fun p => p.2.key := by
  unfold OrderedMap.keys
  rw [hrel.entries, List.map_map]
  rfl

/-- The map has the value of a member. -/
theorem get?_of_mem (hrel : HashRel h m) (hp : p ∈ h.nodes) :
    m.map.get? p.2.key = some p.2.val := by
  have hin : entryOf p ∈ m.map.entries := by
    rw [hrel.entries]
    exact List.mem_map.mpr ⟨p, hp, rfl⟩
  have hfound : (m.map.entries.find? fun e => e.1 = p.2.key).isSome := by
    rw [List.find?_isSome]
    exact ⟨entryOf p, hin, by simp [entryOf]⟩
  obtain ⟨e, he⟩ := Option.isSome_iff_exists.mp hfound
  have hkey : e.1 = p.2.key := by simpa using List.find?_some he
  have heq : e = entryOf p :=
    List.inj_on_of_nodup_map m.map.nodup (List.mem_of_find?_eq_some he) hin hkey
  unfold OrderedMap.get?
  rw [he, heq]
  rfl

theorem mem_keys (hrel : HashRel h m) (hp : p ∈ h.nodes) : p.2.key ∈ m.map.keys := by
  rw [hrel.keys_eq]
  exact List.mem_map.mpr ⟨p, hp, rfl⟩

theorem value_of_mem (hrel : HashRel h m) (hp : p ∈ h.nodes) : m.value env p.2.key = p.2.val := by
  unfold SpecHash.value
  rw [hrel.get?_of_mem hp]
  rfl

theorem notMem_keys (hrel : HashRel h m) (hkey : key ∉ h.nodes.map fun p => p.2.key) :
    key ∉ m.map.keys := by
  rw [hrel.keys_eq]
  exact hkey

theorem value_of_notMem (hrel : HashRel h m) (hkey : key ∉ h.nodes.map fun p => p.2.key) :
    m.value env key = env.nothing := by
  unfold SpecHash.value
  rw [OrderedMap.get?_eq_none (hrel.notMem_keys hkey)]
  rfl

end HashRel

/-- The hash after a change of one key. -/
structure Changes (env : Env V D T) (h h' : HashPriv V D T) (m : SpecHash V D T) (key : String)
    (o : Option V) : Prop where
  rel : HashRel h' (m.put env key o)
  keeps : Keeps h h' noKey
  other : ∀ q ∈ h.nodes, q.2.key ≠ key → q ∈ h'.nodes

/-- `findCreateMember` gives the key its place. -/
theorem findCreateMember_spec (hrel : HashRel h m) (key : String) :
    ∃ h' p, h.findCreateMember env key = some (h', p.1) ∧ Changes env h h' m key none ∧
      p ∈ h'.nodes ∧ p.2.key = key ∧ p.2.val = m.value env key := by
  rcases Rep.key_cases key h.nodes with ⟨p, hp, rfl⟩ | hkey
  · refine ⟨h, p, findCreateMember_of_mem env hrel.rep hp, ⟨?_, Keeps.refl h, fun q hq _ => hq⟩, hp, rfl,
      (hrel.value_of_mem env hp).symm⟩
    unfold SpecHash.put
    rw [OrderedMap.put_none_of_mem (hrel.mem_keys hp)]
    exact hrel
  · obtain ⟨hfind, hrep⟩ := findCreateMember_new env hrel.rep hkey
    have hnodes := hrep.nodes_eq
    refine ⟨_, (h.next, ⟨key, env.nothing⟩), hfind, ⟨?_, ?_, ?_⟩, ?_, rfl,
      (hrel.value_of_notMem env hkey).symm⟩
    · refine HashRel.of_rep hrep hrel.type ?_
      show (m.map.put env.nothing key none).entries = _
      rw [OrderedMap.put_of_notMem (hrel.notMem_keys hkey), hrel.entries, List.map_append]
      rfl
    · exact {
        next_le := Nat.le_succ _
        kept := by
          intro q hq _
          rw [hnodes]
          exact ⟨q, List.mem_append_left _ hq, rfl, rfl⟩
        gone := fun _ _ hg => absurd hg Bool.false_ne_true
        fresh := by
          intro i hi
          rcases List.mem_append.mp (show i ∈ h.memberList ++ [h.next] from hi) with hi | hi
          · exact .inl hi
          · rw [List.mem_singleton] at hi
            exact .inr (Nat.le_of_eq hi.symm) }
    · intro q hq _
      rw [hnodes]
      exact List.mem_append_left _ hq
    · rw [hnodes]
      exact List.mem_append_right _ (List.mem_singleton.mpr rfl)

/-- A write to a member is a change of its key in place. -/
theorem write_spec (hrel : HashRel h m) (hp : p ∈ h.nodes) (v : V) :
    ∃ h', h.swapImpl p.1 v = some (h', p.2.val) ∧ Changes env h h' m p.2.key (some v) := by
  obtain ⟨h', hswap, hrep, htype, hnext⟩ := swapImpl_spec hrel.rep hp v
  have hnodes := hrep.nodes_eq
  have hiff := fun q (hq : q ∈ h.nodes) => hrel.rep.fst_iff_key hq hp
  refine ⟨h', hswap, ?_, ?_, ?_⟩
  · refine HashRel.of_rep hrep (htype.trans hrel.type) ?_
    show (m.map.put env.nothing p.2.key (some v)).entries = _
    rw [OrderedMap.put_of_mem (hrel.mem_keys hp), hrel.entries, List.map_map, List.map_map]
    refine List.map_congr_left fun q hq => ?_
    show OrderedMap.change p.2.key (some v) (entryOf q) = entryOf (written p.1 v q)
    unfold OrderedMap.change written
    by_cases hk : q.2.key = p.2.key
    · rw [if_pos ((hiff q hq).mpr hk), if_pos (show (entryOf q).1 = p.2.key from hk)]
      rfl
    · rw [if_neg (fun hi => hk ((hiff q hq).mp hi)),
        if_neg (show ¬(entryOf q).1 = p.2.key from hk)]
  · exact {
      next_le := Nat.le_of_eq hnext.symm
      kept := by
        intro q hq _
        rw [hnodes]
        exact ⟨written p.1 v q, List.mem_map.mpr ⟨q, hq, rfl⟩, written_fst p.1 v q,
          written_key p.1 v q⟩
      gone := fun _ _ hg => absurd hg Bool.false_ne_true
      fresh := by
        intro i hi
        rw [hrep.list, List.map_map,
          show Prod.fst ∘ written p.1 v = Prod.fst from funext (written_fst p.1 v),
          ← hrel.rep.list] at hi
        exact .inl hi }
  · intro q hq hk
    rw [hnodes]
    refine List.mem_map.mpr ⟨q, hq, ?_⟩
    unfold written
    rw [if_neg fun hi => hk ((hiff q hq).mp hi)]

variable {env} in
/-- The key gets its place first and then its value. -/
theorem Changes.write {v : V} (h1 : Changes env h h' m key none)
    (h2 : Changes env h' h'' (m.put env key none) key (some v)) : Changes env h h'' m key (some v) where
  rel := by
    have hrel := h2.rel
    unfold SpecHash.put at hrel ⊢
    rwa [OrderedMap.put_put] at hrel
  keeps := h1.keeps.trans h2.keeps
  other := fun q hq hk => h2.other q (h1.other q hq hk) hk

theorem swapKeyValue_spec (hrel : HashRel h m) (key : String) (v : V) :
    ∃ h', h.swapKeyValue env key v = some (h', m.value env key) ∧
      Changes env h h' m key (some v) := by
  obtain ⟨h1, p, hfind, hplace, hp, hkey, hval⟩ := findCreateMember_spec env hrel key
  obtain ⟨h2, hswap, hwrite⟩ := write_spec env hplace.rel hp v
  rw [hkey] at hwrite
  refine ⟨h2, ?_, hplace.write hwrite⟩
  unfold HashPriv.swapKeyValue
  simp only [hfind, Option.bind_eq_bind, Option.bind_some, hswap, hval]

theorem getValueRef_spec (hrel : HashRel h m) (key : String) (w : Option V) :
    ∃ h' om h'', h.getValueRef env key = some (h', om) ∧
      h'.useRef om w = some (h'', m.value env key) ∧ Changes env h h'' m key w := by
  obtain ⟨h1, p, hfind, hplace, hp, hkey, hval⟩ := findCreateMember_spec env hrel key
  have hmem := hplace.rel.rep.alive p hp
  cases w with
  | none =>
    refine ⟨h1, p.1, h1, hfind, ?_, hplace⟩
    unfold HashPriv.useRef
    simp only [hmem, Option.bind_eq_bind, Option.bind_some, hval]
    rfl
  | some v =>
    obtain ⟨h2, hswap, hwrite⟩ := write_spec env hplace.rel hp v
    rw [hkey] at hwrite
    refine ⟨h1, p.1, h2, hfind, ?_, hplace.write hwrite⟩
    unfold HashPriv.useRef
    simp only [hmem, Option.bind_eq_bind, Option.bind_some, hswap, hval]

/-- `assign` writes the converted value, or changes nothing. -/
theorem assign_spec (hrel : HashRel h m) (hp : p ∈ h.nodes) (v : V) (xsink : Bool) :
    ∃ h', h.assign env p.1 v xsink = some (h', (env.assigned m.type p.2.key v xsink).2) ∧
      Changes env h h' m p.2.key (env.assigned m.type p.2.key v xsink).1 := by
  unfold HashPriv.assign
  rw [hrel.type, hrel.rep.alive p hp]
  simp only [Env.convert_eq]
  cases hconv : env.assigned m.type p.2.key v xsink with
  | mk o x =>
    cases o with
    | none =>
      refine ⟨h, ?_, ?_, Keeps.refl h, fun q hq _ => hq⟩
      · simp only [Option.bind_eq_bind, Option.bind_some, hconv]
        rfl
      · unfold SpecHash.put
        rw [OrderedMap.put_none_of_mem (hrel.mem_keys hp)]
        exact hrel
    | some v' =>
      obtain ⟨h1, hswap, hwrite⟩ := write_spec env hrel hp v'
      refine ⟨h1, ?_, hwrite⟩
      simp only [Option.bind_eq_bind, Option.bind_some, hconv, hswap]
      rfl

theorem setKeyValue_spec (hrel : HashRel h m) (key : String) (v : V) (xsink : Bool) :
    ∃ h', h.setKeyValue env key v xsink = some (h', (env.assigned m.type key v xsink).2) ∧
      Changes env h h' m key (env.assigned m.type key v xsink).1 := by
  obtain ⟨h1, p, hfind, hplace, hp, hkey, -⟩ := findCreateMember_spec env hrel key
  obtain ⟨h2, hassign, hwrite⟩ := assign_spec env hplace.rel hp v xsink
  have htype : (m.put env key none).type = m.type := rfl
  rw [hkey, htype] at hassign hwrite
  refine ⟨h2, ?_, ?_⟩
  · unfold HashPriv.setKeyValue
    simp only [hfind, Option.bind_eq_bind, Option.bind_some, hassign]
  · cases hconv : (env.assigned m.type key v xsink).1 with
    | some v' =>
      rw [hconv] at hwrite
      exact hplace.write hwrite
    | none =>
      rw [hconv] at hwrite
      refine ⟨?_, hplace.keeps.trans hwrite.keeps,
        fun q hq hk => hwrite.other q (hplace.other q hq hk) hk⟩
      have hrel2 := hwrite.rel
      unfold SpecHash.put at hrel2 ⊢
      rwa [OrderedMap.put_none_of_mem (OrderedMap.mem_keys_put.mpr (.inr rfl))] at hrel2

/-- The hash and the map without a member. -/
theorem erased_spec (hrel : HashRel h m) (hp : p ∈ h.nodes) :
    HashRel (h.erased p.1) (m.remove p.2.key) ∧
      Keeps h (h.erased p.1) (fun k => k = p.2.key) := by
  have hrep := rep_erased (p := p) hrel.rep
  have hnodes := hrep.nodes_eq
  have hiff := fun q (hq : q ∈ h.nodes) => hrel.rep.fst_iff_key hq hp
  constructor
  · refine HashRel.of_rep hrep hrel.type ?_
    show m.map.entries.filter (fun e => e.1 ≠ p.2.key) = _
    rw [hrel.entries, List.filter_map]
    congr 1
    refine List.filter_congr fun q hq => ?_
    show decide ((entryOf q).1 ≠ p.2.key) = decide (q.1 ≠ p.1)
    exact decide_eq_decide.mpr (not_congr (hiff q hq).symm)
  · exact {
      next_le := Nat.le_refl _
      kept := by
        intro q hq hg
        have hne : ¬q.2.key = p.2.key := of_decide_eq_false hg
        rw [hnodes]
        exact ⟨q, mem_without.mpr ⟨hq, fun hi => hne ((hiff q hq).mp hi)⟩, rfl, rfl⟩
      gone := by
        intro q hq hg hin
        have heq : q.1 = p.1 := (hiff q hq).mpr (of_decide_eq_true hg)
        rw [heq] at hin
        exact hrel.rep.ids.not_mem_erase hin
      fresh := fun i hi => .inl (List.mem_of_mem_erase hi) }

/-- Nothing is removed when the key is not there. -/
theorem remove_of_notMem (hrel : HashRel h m) (hkey : key ∉ h.nodes.map fun p => p.2.key) :
    HashRel h (m.remove key) ∧ Keeps h h (fun k => k = key) := by
  have hne : ∀ q ∈ h.nodes, q.2.key ≠ key := fun q hq hk => hkey (List.mem_map.mpr ⟨q, hq, hk⟩)
  constructor
  · refine ⟨hrel.rep, hrel.type, ?_⟩
    show m.map.entries.filter (fun e => e.1 ≠ key) = _
    rw [hrel.entries]
    refine List.filter_eq_self.mpr fun e he => ?_
    obtain ⟨q, hq, rfl⟩ := List.mem_map.mp he
    exact decide_eq_true (hne q hq)
  · exact {
      next_le := Nat.le_refl _
      kept := fun q hq _ => ⟨q, hq, rfl, rfl⟩
      gone := fun q hq hg => absurd (of_decide_eq_true hg) (hne q hq)
      fresh := fun _ hi => .inl hi }

theorem takeKeyValueExists_spec (hrel : HashRel h m) (key : String) :
    ∃ h', h.takeKeyValueExists key = some (h', m.map.get? key) ∧ HashRel h' (m.remove key) ∧
      Keeps h h' (fun k => k = key) := by
  unfold HashPriv.takeKeyValueExists
  rcases Rep.key_cases key h.nodes with ⟨p, hp, rfl⟩ | hkey
  · refine ⟨h.erased p.1, ?_, erased_spec hrel hp⟩
    simp only [hrel.rep.hmFind_of_mem hp, Option.bind_eq_bind, Option.bind_some,
      hmErase_spec hrel.rep hp, hrel.rep.alive p hp, internDeleteKey_spec hrel.rep hp,
      hrel.get?_of_mem hp]
    rfl
  · refine ⟨h, ?_, remove_of_notMem hrel hkey⟩
    rw [hrel.rep.hmFind_of_notMem hkey, OrderedMap.get?_eq_none (hrel.notMem_keys hkey)]
    rfl

theorem deleteKey_spec (hrel : HashRel h m) (key : String) :
    ∃ h', h.deleteKey env key = some h' ∧ HashRel h' (m.remove key) ∧
      Keeps h h' (fun k => k = key) := by
  unfold HashPriv.deleteKey
  rcases Rep.key_cases key h.nodes with ⟨p, hp, rfl⟩ | hkey
  · refine ⟨h.erased p.1, ?_, erased_spec hrel hp⟩
    simp only [hrel.rep.hmFind_of_mem hp, Option.bind_eq_bind, Option.bind_some,
      hmErase_spec hrel.rep hp]
    -- the value is written once more before the member is freed
    unfold HashPriv.swapImpl HashPriv.internDeleteKey
    simp only [hrel.rep.alive p hp, Option.bind_eq_bind, Option.bind_some, Function.update_self,
      if_pos (hrel.rep.mem_list hp), Function.update_idem, Option.pure_def]
    rfl
  · refine ⟨h, ?_, remove_of_notMem hrel hkey⟩
    rw [hrel.rep.hmFind_of_notMem hkey]
    rfl

/-- Reading the members in order. -/
theorem mapM_fst {f : Nat → Option (HashMember V)} :
    ∀ l : List (Nat × HashMember V), (∀ p ∈ l, f p.1 = some p.2) →
      (l.map Prod.fst).mapM f = some (l.map Prod.snd) := by
  intro l
  induction l with
  | nil => intro _; rfl
  | cons p l ih =>
    intro hread
    rw [List.map_cons, List.mapM_cons, hread p List.mem_cons_self,
      ih fun q hq => hread q (List.mem_cons_of_mem _ hq)]
    rfl

theorem members_spec (hrel : HashRel h m) : h.members = some (h.nodes.map Prod.snd) := by
  unfold HashPriv.members
  rw [hrel.rep.list]
  exact mapM_fst h.nodes hrel.rep.alive

theorem getKeys_spec (hrel : HashRel h m) : h.getKeys = some m.map.keys := by
  unfold HashPriv.getKeys
  rw [members_spec hrel, hrel.keys_eq]
  simp only [Option.bind_eq_bind, Option.bind_some, List.map_map]
  rfl

theorem getKeyValueExistence_spec (hrel : HashRel h m) (key : String) :
    h.getKeyValueExistence key = some (m.map.get? key) := by
  unfold HashPriv.getKeyValueExistence
  rcases Rep.key_cases key h.nodes with ⟨p, hp, rfl⟩ | hkey
  · simp only [hrel.rep.hmFind_of_mem hp, Option.bind_eq_bind, Option.bind_some,
      hrel.rep.alive p hp, hrel.get?_of_mem hp]
    rfl
  · rw [hrel.rep.hmFind_of_notMem hkey, OrderedMap.get?_eq_none (hrel.notMem_keys hkey)]
    rfl

theorem clear_spec (hrel : HashRel h m) :
    ∃ h', h.clear = some h' ∧ HashRel h' { m with map := .empty } ∧ Keeps h h' (fun _ => true) := by
  have hread : h.memberList.mapM h.mem = some (h.nodes.map Prod.snd) := members_spec hrel
  unfold HashPriv.clear
  rw [hread]
  refine ⟨_, rfl, ?_, ?_⟩
  · refine HashRel.of_rep (l := []) ?_ hrel.type rfl
    exact {
      list := rfl
      alive := fun _ hp => absurd hp List.not_mem_nil
      dead := by
        intro i _
        show (if i ∈ h.memberList then none else h.mem i) = none
        split
        · rfl
        · next hin => exact hrel.rep.dead i hin
      map := List.Perm.refl _
      ids := List.nodup_nil
      below := fun _ hi => absurd hi List.not_mem_nil
      keys := List.nodup_nil }
  · exact {
      next_le := Nat.le_refl _
      kept := fun _ _ hg => absurd hg.symm Bool.false_ne_true
      gone := fun _ _ _ => List.not_mem_nil
      fresh := fun _ hi => absurd hi List.not_mem_nil }

/-- The loop of a copy appends the members in order. -/
theorem copyLoop_spec (f : V → V) :
    ∀ (ms : List (HashMember V)) (h : HashPriv V D T) (m : SpecHash V D T), HashRel h m →
      (m.map.keys ++ ms.map (·.key)).Nodup →
      ∃ h' m', HashPriv.copyLoop env f h ms = some h' ∧ HashRel h' m' ∧ m'.type = m.type ∧
        m'.map.entries = m.map.entries ++ ms.map fun x => (x.key, f x.val) := by
  intro ms
  induction ms with
  | nil => intro h m hrel _; exact ⟨h, m, rfl, hrel, rfl, (List.append_nil _).symm⟩
  | cons x ms ih =>
    intro h m hrel hnodup
    -- the key is new, so it goes last
    have hnew : x.key ∉ m.map.keys := by
      intro hin
      exact (List.nodup_append.mp hnodup).2.2 x.key hin x.key List.mem_cons_self rfl
    obtain ⟨h1, hswap, hput⟩ := swapKeyValue_spec env hrel x.key (f x.val)
    have hentries : (m.put env x.key (some (f x.val))).map.entries =
        m.map.entries ++ [(x.key, f x.val)] := OrderedMap.put_of_notMem hnew
    have hkeys : (m.put env x.key (some (f x.val))).map.keys = m.map.keys ++ [x.key] :=
      OrderedMap.keys_put_new hnew
    have hrest : ((m.put env x.key (some (f x.val))).map.keys ++ ms.map (·.key)).Nodup := by
      rw [hkeys, List.append_assoc]
      exact hnodup
    obtain ⟨h', m', hloop, hrel', htype, hent⟩ := ih h1 _ hput.rel hrest
    refine ⟨h', m', ?_, hrel', htype, ?_⟩
    · unfold HashPriv.copyLoop
      simp only [hswap, Option.bind_eq_bind, Option.bind_some, hloop]
    · rw [hent, hentries, List.append_assoc]
      rfl

/-- A copy has the entries of the hash in their order. -/
theorem copyIntern_spec (hrel : HashRel h m) (type : HashType D T) (f : V → V) :
    ∃ h', h.copyIntern env type f = some h' ∧ HashRel h' { type, map := m.map.mapVals f } := by
  have hempty : HashRel (HashPriv.empty type : HashPriv V D T) { type, map := .empty } :=
    HashRel.of_rep (rep_empty type) rfl rfl
  have hnodup : ((OrderedMap.empty : OrderedMap String V).keys ++
      (h.nodes.map Prod.snd).map (·.key)).Nodup := by
    show ((h.nodes.map Prod.snd).map (·.key)).Nodup
    rw [List.map_map]
    exact hrel.rep.keys
  obtain ⟨h', m', hloop, hrel', htype, hent⟩ := copyLoop_spec env f _ _ _ hempty hnodup
  refine ⟨h', ?_, ?_⟩
  · unfold HashPriv.copyIntern
    simp only [members_spec hrel, Option.bind_eq_bind, Option.bind_some, hloop]
  · refine ⟨hrel'.rep, hrel'.type.trans htype, ?_⟩
    rw [← hrel'.entries, hent]
    show m.map.entries.map _ = [] ++ _
    rw [List.nil_append, hrel.entries, List.map_map, List.map_map]
    rfl

theorem mapVals_id (m : OrderedMap String V) : m.mapVals id = m := by
  apply OrderedMap.ext
  show m.entries.map (fun e => (e.1, id e.2)) = m.entries
  exact List.map_id' _

theorem copy_spec (hrel : HashRel h m) (strip : Bool) :
    ∃ h', h.copy env strip = some h' ∧ HashRel h' (m.copy env strip) := by
  have hplain := copyIntern_spec env hrel m.type id
  rw [mapVals_id] at hplain
  unfold HashPriv.copy SpecHash.copy
  rw [hrel.type]
  cases strip with
  | false => exact hplain
  | true =>
    cases htype : m.type with
    | plain =>
      rw [htype] at hplain
      exact hplain
    | hashdecl d => exact copyIntern_spec env hrel .plain env.strip
    | complex t => exact copyIntern_spec env hrel .plain env.strip

/-- What the loop of a `merge` reads: the members of the argument, or its own. -/
def Reads (h0 : Option (HashPriv V D T)) (h : HashPriv V D T) (l : List (Nat × HashMember V)) :
    Prop :=
  match h0 with
  | none => ∀ p ∈ l, p ∈ h.nodes
  | some g => ∀ p ∈ l, g.mem p.1 = some p.2

variable {h0 : Option (HashPriv V D T)}

theorem Reads.head (hrel : HashRel h m) (hread : Reads h0 h (p :: l)) :
    (h0.getD h).mem p.1 = some p.2 := by
  cases h0 with
  | none => exact hrel.rep.alive p (hread p List.mem_cons_self)
  | some g => exact hread p List.mem_cons_self

variable {env} in
/-- The members that are still to be read are not changed by an assignment to another key. -/
theorem Reads.tail {o : Option V} (hread : Reads h0 h (p :: l)) (hch : Changes env h h' m p.2.key o)
    (hkey : p.2.key ∉ l.map fun q => q.2.key) :
    Reads h0 h' l := by
  cases h0 with
  | some g => exact fun q hq => hread q (List.mem_cons_of_mem _ hq)
  | none =>
    intro q hq
    refine hch.other q (hread q (List.mem_cons_of_mem _ hq)) fun hk => ?_
    exact hkey (List.mem_map.mpr ⟨q, hq, hk⟩)

/-- The loop of a `merge` makes the changes of its members, in order. -/
theorem mergeLoop_spec (h0 : Option (HashPriv V D T)) :
    ∀ (l : List (Nat × HashMember V)) (h : HashPriv V D T) (m : SpecHash V D T) (xsink : Bool)
      (hnodup : ((env.convertAll m.type (l.map entryOf) xsink).1.map Prod.fst).Nodup),
      HashRel h m → Reads h0 h l →
      ∃ h', HashPriv.mergeLoop env h0 h (l.map Prod.fst) xsink =
          some (h', (env.convertAll m.type (l.map entryOf) xsink).2) ∧
        HashRel h' { m with map := (m.map.overlay env.nothing
          ⟨(env.convertAll m.type (l.map entryOf) xsink).1, hnodup⟩) } ∧ Keeps h h' noKey := by
  intro l
  induction l with
  | nil =>
    intro h m xsink hnodup hrel _
    refine ⟨h, rfl, ?_, Keeps.refl h⟩
    have hsame := OrderedMap.overlay_nil env.nothing m.map hnodup
    show HashRel h { m with map := m.map.overlay env.nothing ⟨[], hnodup⟩ }
    rw [hsame]
    exact hrel
  | cons p l ih =>
    intro h m xsink hnodup hrel hread
    -- the keys of the changes are the keys of the members
    have hkeys : ((p :: l).map fun q => q.2.key).Nodup := by
      rw [env.keys_convertAll, List.map_map] at hnodup
      exact hnodup
    obtain ⟨h1, hset, hch⟩ := setKeyValue_spec env hrel p.2.key p.2.val xsink
    have hread' := hread.tail hch (List.nodup_cons.mp hkeys).1
    obtain ⟨h', hloop, hrel', hkeeps⟩ :=
      ih h1 (m.put env p.2.key (env.assigned m.type p.2.key p.2.val xsink).1)
        (env.assigned m.type p.2.key p.2.val xsink).2 (OrderedMap.nodup_tail hnodup) hch.rel hread'
    refine ⟨h', ?_, ?_, hch.keeps.trans hkeeps⟩
    · rw [List.map_cons]
      unfold HashPriv.mergeLoop
      simp only [hread.head hrel, Option.bind_eq_bind, Option.bind_some, hset]
      exact hloop
    · have hcons := OrderedMap.overlay_cons env.nothing m.map p.2.key
        (env.assigned m.type p.2.key p.2.val xsink).1 _ hnodup
      show HashRel h' { m with map := m.map.overlay env.nothing ⟨_ :: _, hnodup⟩ }
      rw [hcons]
      exact hrel'

/-- `merge` with another hash, or with itself. -/
theorem merge_spec (h0 : Option (HashPriv V D T)) {m0 : SpecHash V D T} (hrel : HashRel h m)
    (hrel0 : HashRel (h0.getD h) m0) (xsink : Bool) :
    ∃ h', h.merge env h0 xsink = some (h', (m.merge env m0 xsink).2) ∧
      HashRel h' (m.merge env m0 xsink).1 ∧ Keeps h h' noKey := by
  have hread : Reads h0 h (h0.getD h).nodes := by
    cases h0 with
    | none => exact fun p hp => hp
    | some g => exact hrel0.rep.alive
  unfold HashPriv.merge SpecHash.merge Env.changes
  rw [hrel0.rep.list]
  simp only [hrel0.entries]
  exact mergeLoop_spec env h0 (h0.getD h).nodes h m xsink _ hrel hread

theorem plusEquals_spec {g : HashPriv V D T} {m0 : SpecHash V D T} (hrel : HashRel h m)
    (hrel0 : HashRel g m0) (xsink : Bool) :
    ∃ r x, h.plusEquals env g xsink = some (r, x) ∧ Option.Rel HashRel r (m.plusEquals env m0 xsink) := by
  obtain ⟨rv, hcopy, hrv⟩ := copy_spec env hrel false
  have hrv' : HashRel { rv with type := env.newType h.type g.type }
      { m with type := env.newType m.type m0.type } := by
    rw [hrel.type, hrel0.type]
    exact { rep := { hrv.rep with }, type := rfl, entries := hrv.entries }
  obtain ⟨h', hmerge, hrel', -⟩ := merge_spec env (some g) hrv' hrel0 xsink
  unfold HashPriv.plusEquals HashPriv.copyCheckNewType SpecHash.plusEquals
  simp only [hcopy, Option.bind_eq_bind, Option.bind_some, Option.pure_def, hmerge]
  refine ⟨_, _, rfl, ?_⟩
  split
  · exact .none
  · exact .some hrel'

theorem checkKey_eq (hrel : HashRel h m) (key : String) : h.checkKey env key = m.checkKey env key := by
  have ht := hrel.type
  unfold HashPriv.checkKey SpecHash.checkKey
  cases hm : m.type <;> simp only [ht, hm]

/-- The loop of a slice. -/
theorem sliceLoop_spec (hrel : HashRel h m) :
    ∀ (keys : List (Option String)) (rv : HashPriv V D T) (mv : SpecHash V D T) (xsink : Bool),
      HashRel rv mv →
      ∃ r x, HashPriv.sliceLoop env h rv keys xsink = some (r, x) ∧
        Option.Rel HashRel r (m.sliceFrom env mv keys xsink) := by
  intro keys
  induction keys with
  | nil => intro rv mv xsink hrv; exact ⟨some rv, xsink, rfl, .some hrv⟩
  | cons k keys ih =>
    intro rv mv xsink hrv
    cases k with
    | none => exact ⟨none, true, rfl, .none⟩
    | some key =>
      unfold HashPriv.sliceLoop SpecHash.sliceFrom
      rw [checkKey_eq env hrel, getKeyValueExistence_spec hrel]
      by_cases hx : xsink = true
      · rw [if_pos hx, if_pos hx]
        exact ⟨none, true, rfl, .none⟩
      rw [if_neg hx, if_neg hx]
      by_cases hcheck : m.checkKey env key = true
      · rw [if_pos hcheck, if_pos hcheck]
        exact ⟨none, true, rfl, .none⟩
      rw [if_neg hcheck, if_neg hcheck]
      cases hv : m.map.get? key with
      | none => exact ih rv mv false hrv
      | some v =>
        obtain ⟨rv1, hset, hch⟩ := setKeyValue_spec env hrv key v false
        simp only [Option.bind_eq_bind, Option.bind_some, hset]
        show ∃ r x, (if (env.assigned mv.type key v false).2 = true then some (none, true)
          else HashPriv.sliceLoop env h rv1 keys false) = some (r, x) ∧
            Option.Rel HashRel r (if (env.assigned mv.type key v false).2 = true then none
              else m.sliceFrom env (mv.put env key (env.assigned mv.type key v false).1) keys false)
        split
        · exact ⟨none, true, rfl, .none⟩
        · exact ih rv1 _ false hch.rel

theorem getSlice_spec (hrel : HashRel h m) (keys : List (Option String)) (xsink : Bool) :
    ∃ r x, h.getSlice env keys xsink = some (r, x) ∧
      Option.Rel HashRel r (m.getSlice env keys xsink) := by
  refine sliceLoop_spec env hrel keys _ _ xsink ?_
  rw [hrel.type]
  exact HashRel.of_rep (rep_empty m.type) rfl rfl

end

end Qore.Hash
