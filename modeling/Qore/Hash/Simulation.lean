import Qore.Hash.Refine

/-!
# `Qore.Hash.Simulation`: programs over hashes

Every operation of `Store.step` is the operation of `SpecStore.step` on the ordered maps, with the
same result, and it fails when that one does.

* `Linked` is the agreement of the list and the map of one hash: the map has an entry for each
  member of the list and no other, at the key of that member, and no key occurs twice.
* `IterRel` compares an iterator with a cursor. An iterator may be left at a member that is freed;
  then its cursor is at no key, and none of them can be used.
* `store_refines`: in every run, every hash is `Linked` in every state, and the contents and the
  results are those of the ordered maps.
-/

set_option autoImplicit false

namespace Qore.Hash

open Qore.Lib

variable {V D T : Type} {h : HashPriv V D T}

/-- The member list and the key map are in bijection. -/
structure Linked (h : HashPriv V D T) : Prop where
  /-- Each entry of the map is at the key string of the member that it leads to. -/
  entry : ∀ e ∈ h.hm, e.1 = e.2 ∧ e.2 ∈ h.memberList ∧ (h.mem e.2).isSome
  /-- Each member of the list has one entry. -/
  member : ∀ i ∈ h.memberList, ∃ e ∈ h.hm, e.2 = i ∧ ∀ e' ∈ h.hm, e'.2 = i → e' = e
  keys : (h.memberList.map fun i => (h.mem i).map (·.key)).Nodup
  once : h.hm.Nodup
  size : h.hm.length = h.memberList.length

/-- The entries of a hash in order. -/
def HashPriv.contents (h : HashPriv V D T) : List (String × V) := h.nodes.map entryOf

theorem Rep.linked {l : List (Nat × HashMember V)} (hr : Rep h l) : Linked h where
  entry := by
    intro e he
    obtain ⟨p, hp, rfl⟩ := hr.hm_alive he
    exact ⟨rfl, hr.mem_list hp, by rw [hr.alive p hp]; rfl⟩
  member := by
    intro i hi
    refine ⟨(i, i), hr.map.mem_iff.mpr (List.mem_map.mpr ⟨i, hi, rfl⟩), rfl, ?_⟩
    intro e he hei
    obtain ⟨p, hp, rfl⟩ := hr.hm_alive he
    rw [show p.1 = i from hei]
  keys := by
    have hkeys : (h.memberList.map fun i => (h.mem i).map (·.key)) =
        (l.map fun p => p.2.key).map some := by
      rw [hr.list, List.map_map, List.map_map]
      refine List.map_congr_left fun p hp => ?_
      show (h.mem p.1).map (·.key) = some p.2.key
      rw [hr.alive p hp]
      rfl
    rw [hkeys]
    exact hr.keys.map (fun _ _ heq => Option.some.inj heq)
  once := by
    have hinj : Function.Injective fun i : Nat => (i, i) := fun a b hab => (Prod.mk.inj hab).1
    exact hr.map.nodup_iff.mpr (hr.ids.map hinj)
  size := by rw [hr.map.length_eq, List.length_map]

/-- An iterator and a cursor. -/
structure IterRel (h : HashPriv V D T) (it : HashIter) (c : Cursor) : Prop where
  val : it.val = c.val
  pos : it.val = true → (∃ p ∈ h.nodes, it.i = p.1 ∧ c.key = some p.2.key) ∨
    (it.i < h.next ∧ it.i ∉ h.memberList ∧ c.key = none)

section
variable (env : Env V D T) {h h' : HashPriv V D T} {m : SpecHash V D T} {it : HashIter}
  {c : Cursor} {gone : String → Bool}

/-- An iterator over what an operation does to its hash. -/
theorem IterRel.keeps (hit : IterRel h it c) (hrel : HashRel h m) (hk : Keeps h h' gone) : IterRel h' it (c.drop gone) where
  val := hit.val
  pos := by
    intro hval
    rcases hit.pos hval with ⟨p, hp, hi, hkey⟩ | ⟨hlt, hdead, hkey⟩
    · cases hg : gone p.2.key with
      | false =>
        obtain ⟨q, hq, hqi, hqk⟩ := hk.kept p hp hg
        refine .inl ⟨q, hq, hi.trans hqi.symm, ?_⟩
        show c.key.filter (fun k => !gone k) = _
        rw [hkey, hqk]
        simp [hg]
      | true =>
        refine .inr ⟨?_, ?_, ?_⟩
        · rw [hi]
          exact Nat.lt_of_lt_of_le (hrel.rep.below _ (hrel.rep.mem_list hp)) hk.next_le
        · rw [hi]
          exact hk.gone p hp hg
        · show c.key.filter (fun k => !gone k) = _
          rw [hkey]
          simp [hg]
    · refine .inr ⟨Nat.lt_of_lt_of_le hlt hk.next_le, ?_, ?_⟩
      · -- the address of a freed member is not given out again
        intro hin
        rcases hk.fresh _ hin with hin | hge
        · exact hdead hin
        · exact Nat.lt_irrefl _ (Nat.lt_of_lt_of_le hlt hge)
      · show c.key.filter (fun k => !gone k) = _
        rw [hkey]
        rfl

theorem IterRel.invalid (h : HashPriv V D T) (hval : it.val = false) (hval' : c.val = false) :
    IterRel h it c where
  val := hval.trans hval'.symm
  pos := fun ht => absurd (hval.symm.trans ht) Bool.false_ne_true

theorem IterRel.at {p : Nat × HashMember V} (hp : p ∈ h.nodes) :
    IterRel h { i := p.1, val := true } { key := some p.2.key, val := true } where
  val := rfl
  pos := fun _ => .inl ⟨p, hp, rfl, rfl⟩

/-- An iterator that goes to a member, when there is one. -/
theorem iter_to {a : Option Nat} {b : Option String} (hit : IterRel h it c) :
    (∃ y ∈ h.nodes, a = some y.1 ∧ b = some y.2.key) ∨ (a = none ∧ b = none) →
    Option.Rel (IterRel h)
      (match a with
        | some j => some { i := j, val := true }
        | none => some it)
      (match b with
        | some k => some { key := some k, val := true }
        | none => some c) := by
  intro hab
  rcases hab with ⟨y, hy, rfl, rfl⟩ | ⟨rfl, rfl⟩
  · exact .some (IterRel.at hy)
  · exact .some hit

theorem next_spec (hrel : HashRel h m) (hit : IterRel h it c) :
    Option.Rel (IterRel h) (it.next h.memberList) (c.next m.map.keys) := by
  unfold HashIter.next Cursor.next
  rw [← hit.val]
  by_cases hval : it.val = true
  · rw [if_pos hval, if_pos hval]
    rcases hit.pos hval with ⟨p, hp, hi, hkey⟩ | ⟨-, hdead, hkey⟩
    · rw [hi, hkey, if_pos (hrel.rep.mem_list hp), hrel.rep.list, hrel.keys_eq]
      refine iter_to (IterRel.invalid h rfl rfl) ?_
      exact OrderedMap.next_map (hrel.rep.list ▸ hrel.rep.ids) hrel.rep.keys hp
    · rw [if_neg hdead, hkey]
      exact .none
  · rw [if_neg hval, if_neg hval, hrel.rep.list, hrel.keys_eq]
    refine iter_to hit ?_
    cases h.nodes with
    | nil => exact .inr ⟨rfl, rfl⟩
    | cons y l => exact .inl ⟨y, List.mem_cons_self, rfl, rfl⟩

theorem prev_spec (hrel : HashRel h m) (hit : IterRel h it c) :
    Option.Rel (IterRel h) (it.prev h.memberList) (c.prev m.map.keys) := by
  unfold HashIter.prev Cursor.prev
  rw [← hit.val]
  by_cases hval : it.val = true
  · rw [if_pos hval, if_pos hval]
    rcases hit.pos hval with ⟨p, hp, hi, hkey⟩ | ⟨-, hdead, hkey⟩
    · rw [hi, hkey, if_pos (hrel.rep.mem_list hp), hrel.rep.list, hrel.keys_eq]
      refine iter_to (IterRel.invalid h rfl rfl) ?_
      exact OrderedMap.prev_map (hrel.rep.list ▸ hrel.rep.ids) hrel.rep.keys hp
    · rw [if_neg hdead, hkey]
      exact .none
  · rw [if_neg hval, if_neg hval, hrel.rep.list, hrel.keys_eq]
    refine iter_to hit ?_
    rw [List.getLast?_map, List.getLast?_map]
    cases hlast : h.nodes.getLast? with
    | none => exact .inr ⟨rfl, rfl⟩
    | some y => exact .inl ⟨y, List.mem_of_getLast? hlast, rfl, rfl⟩

theorem get_spec (hrel : HashRel h m) (hit : IterRel h it c) :
    (it.get h).map (fun o => o.map fun x => (x.key, x.val)) = c.get env m := by
  unfold HashIter.get Cursor.get
  rw [← hit.val]
  by_cases hval : it.val = true
  · rw [if_pos hval, if_pos hval]
    rcases hit.pos hval with ⟨p, hp, hi, hkey⟩ | ⟨-, hdead, hkey⟩
    · simp only [hi, hkey, hrel.rep.alive p hp, Option.bind_eq_bind, Option.bind_some,
        hrel.value_of_mem env hp]
      rfl
    · rw [hkey, hrel.rep.dead _ hdead]
      rfl
  · rw [if_neg hval, if_neg hval]
    rfl

theorem iterAssign_spec (hrel : HashRel h m) (hit : IterRel h it c) (v : V) (xsink : Bool) :
    Option.Rel (fun r r' => HashRel r.1 r'.1 ∧ Keeps h r.1 noKey ∧ r.2 = r'.2)
      (it.assign env h v xsink) (c.assign env m v xsink) := by
  unfold HashIter.assign Cursor.assign
  rw [← hit.val]
  by_cases hval : it.val = true
  · rw [if_pos hval, if_pos hval]
    rcases hit.pos hval with ⟨p, hp, hi, hkey⟩ | ⟨-, hdead, hkey⟩
    · obtain ⟨h', hassign, hch⟩ := assign_spec env hrel hp v xsink
      rw [hi, hkey, hassign]
      exact .some ⟨hch.rel, hch.keeps, rfl⟩
    · unfold HashPriv.assign
      rw [hkey, hrel.rep.dead _ hdead]
      exact .none
  · rw [if_neg hval, if_neg hval]
    exact .some ⟨hrel, Keeps.refl h, rfl⟩

/-- An iterator that removes its member: it goes back first, so it is left at a member that
stays. -/
theorem removeKeyValue_spec (hrel : HashRel h m) (hit : IterRel h it c) :
    Option.Rel (fun r r' => HashRel r.1 r'.1 ∧ Keeps h r.1 r'.2.2.2 ∧ IterRel h r.2.1 r'.2.1 ∧
        r.2.2 = r'.2.2.1)
      (it.removeKeyValue env h) (c.remove env m) := by
  unfold HashIter.removeKeyValue Cursor.remove
  have hprev := prev_spec hrel hit
  have hval' := hit.val
  by_cases hval : it.val = true
  · rw [if_pos hval, if_pos (hval'.symm.trans hval)]
    rcases hit.pos hval with ⟨p, hp, hi, hkey⟩ | ⟨-, hdead, hkey⟩
    · rw [hi, hkey, hrel.rep.alive p hp]
      generalize it.prev h.memberList = a at hprev
      generalize c.prev m.map.keys = b at hprev
      cases hprev with
      | none => exact .none
      | some hback =>
        simp only [Option.bind_eq_bind, Option.bind_some, hrel.rep.hmFind_of_mem hp,
          hmErase_spec hrel.rep hp, internDeleteKey_spec hrel.rep hp]
        obtain ⟨hrel', hkeeps⟩ := erased_spec hrel hp
        exact .some ⟨hrel', hkeeps, hback, (hrel.value_of_mem env hp).symm⟩
    · rw [hkey, hrel.rep.dead _ hdead]
      exact .none
  · rw [if_neg hval, if_neg (fun ht => hval (hval'.trans ht))]
    exact .some ⟨hrel, Keeps.refl h, hit, rfl⟩

end

/-- Optional values that are related, taken apart. -/
theorem rel_cases {α β : Type} {R : α → β → Prop} {a : Option α} {b : Option β}
    (h : Option.Rel R a b) : (a = none ∧ b = none) ∨ ∃ x y, a = some x ∧ b = some y ∧ R x y := by
  cases h with
  | none => exact .inl ⟨rfl, rfl⟩
  | some hxy => exact .inr ⟨_, _, rfl, rfl, hxy⟩

/-- Tables that are related, after an update at one place. -/
theorem rel_update {α β : Type} {R : α → β → Prop} {f : Nat → Option α} {g : Nat → Option β}
    {a : α} {b : β} (hfg : ∀ n, Option.Rel R (f n) (g n)) (hab : R a b) (n n' : Nat) :
    Option.Rel R (Function.update f n (some a) n') (Function.update g n (some b) n') := by
  by_cases heq : n' = n
  · subst heq
    rw [Function.update_self, Function.update_self]
    exact .some hab
  · rw [Function.update_of_ne heq, Function.update_of_ne heq]
    exact hfg n'

/-- The hashes are related to the maps, and the iterators to the cursors. -/
structure Sim (s : Store V D T) (t : SpecStore V D T) : Prop where
  hash : ∀ n, Option.Rel HashRel (s.hash n) (t.hash n)
  nextHash : s.nextHash = t.nextHash
  fresh : ∀ n, s.nextHash ≤ n → s.hash n = none
  iter : ∀ k, Option.Rel
    (fun p q => p.1 = q.1 ∧ ∃ h, s.hash p.1 = some h ∧ IterRel h p.2 q.2) (s.iter k) (t.iter k)
  nextIter : s.nextIter = t.nextIter

/-- The results of a step of both systems. -/
def StepRel (r : Option (Store V D T × Out V)) (r' : Option (SpecStore V D T × Out V)) : Prop :=
  Option.Rel (fun a b => Sim a.1 b.1 ∧ a.2 = b.2) r r'

theorem sim_init : Sim (Store.init : Store V D T) SpecStore.init where
  hash := fun _ => .none
  nextHash := rfl
  fresh := fun _ _ => rfl
  iter := fun _ => .none
  nextIter := rfl

section
variable (env : Env V D T) {s : Store V D T} {t : SpecStore V D T} {n k : Nat}
  {h h' : HashPriv V D T} {m m' : SpecHash V D T} {gone : String → Bool}
  {f : HashPriv V D T → Option (HashPriv V D T × Out V)}

/-- A hash is changed, and cursors at keys that are removed are lost. -/
theorem Sim.update (hs : Sim s t) (hn : s.hash n = some h) (hrel : HashRel h m)
    (hrel' : HashRel h' m') (hkeeps : Keeps h h' gone) :
    Sim { s with hash := Function.update s.hash n (some h') }
      { t with hash := Function.update t.hash n (some m'), iter := SpecStore.dropAll t.iter n gone } where
  hash := rel_update hs.hash hrel' n
  nextHash := hs.nextHash
  fresh := by
    intro n' hle
    have hne : n' ≠ n := by
      intro heq
      have hnone := hs.fresh n' hle
      rw [heq, hn] at hnone
      exact absurd hnone (Option.some_ne_none _)
    show Function.update s.hash n (some h') n' = none
    rw [Function.update_of_ne hne]
    exact hs.fresh n' hle
  iter := by
    intro k
    show Option.Rel _ (s.iter k) ((t.iter k).map _)
    rcases rel_cases (hs.iter k) with ⟨hsk, htk⟩ | ⟨p, q, hsk, htk, hid, g, hg, hit⟩
    · rw [hsk, htk]
      exact .none
    · rw [hsk, htk]
      refine .some ?_
      show p.1 = (if q.1 = n then (q.1, q.2.drop gone) else q).1 ∧
        ∃ g, Function.update s.hash n (some h') p.1 = some g ∧
          IterRel g p.2 (if q.1 = n then (q.1, q.2.drop gone) else q).2
      by_cases heq : q.1 = n
      · rw [if_pos heq]
        have hpn : p.1 = n := hid.trans heq
        rw [hpn, hn] at hg
        obtain rfl := Option.some.inj hg
        exact ⟨hid, h', by rw [hpn, Function.update_self], hit.keeps hrel hkeeps⟩
      · rw [if_neg heq]
        have hpn : p.1 ≠ n := fun hp => heq (hid.symm.trans hp)
        exact ⟨hid, g, by rw [Function.update_of_ne hpn]; exact hg, hit⟩
  nextIter := hs.nextIter

/-- An iterator is moved. -/
theorem Sim.setIter {it : HashIter} {c : Cursor} (hs : Sim s t) (hn : s.hash n = some h)
    (hit : IterRel h it c) (k : Nat) :
    Sim { s with iter := Function.update s.iter k (some (n, it)) }
      { t with iter := Function.update t.iter k (some (n, c)) } where
  hash := hs.hash
  nextHash := hs.nextHash
  fresh := hs.fresh
  iter := rel_update hs.iter ⟨rfl, h, hn, hit⟩ k
  nextIter := hs.nextIter

/-- An operation on one hash. -/
theorem Sim.onHash (hs : Sim s t) (n : Nat)
    {f' : SpecHash V D T → SpecHash V D T × Out V × (String → Bool)}
    (hf : ∀ h m, HashRel h m → ∃ h', f h = some (h', (f' m).2.1) ∧ HashRel h' (f' m).1 ∧
      Keeps h h' (f' m).2.2) : StepRel (s.onHash n f) (t.onHash n f') := by
  unfold Store.onHash SpecStore.onHash
  rcases rel_cases (hs.hash n) with ⟨hsn, htn⟩ | ⟨h, m, hsn, htn, hrel⟩
  · rw [hsn, htn]
    exact .none
  · obtain ⟨h', hfh, hrel', hkeeps⟩ := hf h m hrel
    simp only [hsn, htn, Option.bind_eq_bind, Option.bind_some, hfh]
    exact .some ⟨hs.update hsn hrel hrel' hkeeps, rfl⟩

/-- An operation that reads one hash and makes another one, or none. -/
theorem Sim.addHash (hs : Sim s t) {r : Option (HashPriv V D T)} {r' : Option (SpecHash V D T)}
    (hr : Option.Rel HashRel r r') : StepRel (some (s.addHash r)) (some (t.addHash r')) := by
  cases hr with
  | none => exact .some ⟨hs, rfl⟩
  | @some h m hrel =>
    refine .some ⟨?_, congrArg Out.hash hs.nextHash⟩
    show Sim { s with hash := Function.update s.hash s.nextHash (some h), nextHash := s.nextHash + 1 }
      { t with hash := Function.update t.hash t.nextHash (some m), nextHash := t.nextHash + 1 }
    have hnone : s.hash s.nextHash = none := hs.fresh _ (Nat.le_refl _)
    rw [← hs.nextHash]
    exact {
      hash := rel_update hs.hash hrel s.nextHash
      nextHash := rfl
      fresh := by
        intro n hle
        have hle' : s.nextHash + 1 ≤ n := hle
        show Function.update s.hash s.nextHash (some h) n = none
        rw [Function.update_of_ne (by omega)]
        exact hs.fresh n (by omega)
      iter := by
        intro k
        show Option.Rel _ (s.iter k) (t.iter k)
        rcases rel_cases (hs.iter k) with ⟨hsk, htk⟩ | ⟨p, q, hsk, htk, hid, g, hg, hit⟩
        · rw [hsk, htk]
          exact .none
        · rw [hsk, htk]
          -- the iterator is over a hash that was there before
          have hne : p.1 ≠ s.nextHash := by
            intro heq
            rw [heq, hnone] at hg
            exact absurd hg.symm (Option.some_ne_none _)
          refine .some ⟨hid, g, ?_, hit⟩
          show Function.update s.hash s.nextHash (some h) p.1 = some g
          rw [Function.update_of_ne hne]
          exact hg
      nextIter := hs.nextIter }

/-- An operation on an iterator and its hash. -/
theorem Sim.onIter (hs : Sim s t) (k : Nat)
    {f : HashPriv V D T → HashIter → Option (HashPriv V D T × HashIter × Out V)}
    {f' : SpecHash V D T → Cursor → Option (SpecHash V D T × Cursor × Out V × (String → Bool))}
    (hf : ∀ h m it c, HashRel h m → IterRel h it c →
      Option.Rel (fun r r' => HashRel r.1 r'.1 ∧ Keeps h r.1 r'.2.2.2 ∧ IterRel h r.2.1 r'.2.1 ∧
        r.2.2 = r'.2.2.1) (f h it) (f' m c)) : StepRel (s.onIter k f) (t.onIter k f') := by
  unfold Store.onIter SpecStore.onIter
  rcases rel_cases (hs.iter k) with ⟨hsk, htk⟩ | ⟨⟨n, it⟩, ⟨n', c⟩, hsk, htk, rfl, h, hn, hit⟩
  · rw [hsk, htk]
    exact .none
  · rcases rel_cases (hs.hash n) with ⟨hsn, -⟩ | ⟨g, m, hsn, htn, hrel⟩
    · rw [hn] at hsn
      exact absurd hsn (Option.some_ne_none _)
    · rw [hn] at hsn
      obtain rfl := Option.some.inj hsn
      simp only [hsk, htk, hn, htn, Option.bind_eq_bind, Option.bind_some]
      rcases rel_cases (hf h m it c hrel hit) with ⟨hf1, hf2⟩ |
        ⟨r, r', hf1, hf2, hrel', hkeeps, hit', hout⟩
      · rw [hf1, hf2]
        exact .none
      · rw [hf1, hf2]
        exact .some ⟨(hs.setIter hn hit' k).update hn hrel hrel' hkeeps, hout⟩

/-- A change of one key of a hash is a change of that key of the map. -/
theorem Sim.change (hs : Sim s t) (n : Nat) {out : SpecHash V D T → Out V} {key : String}
    {o : SpecHash V D T → Option V}
    (hf : ∀ h m, HashRel h m → ∃ h', f h = some (h', out m) ∧ Changes env h h' m key (o m)) :
    StepRel (s.onHash n f) (t.onHash n fun m => (m.put env key (o m), out m, fun _ => false)) := by
  refine hs.onHash n fun h m hrel => ?_
  obtain ⟨h', hfh, hch⟩ := hf h m hrel
  exact ⟨h', hfh, hch.rel, hch.keeps⟩

theorem merge_sim (hs : Sim s t) (n n0 : Nat) (xsink : Bool) :
    StepRel (s.step env (.merge n n0 xsink)) (t.step env (.merge n n0 xsink)) := by
  show StepRel ((s.other n n0).bind _) ((t.hash n0).bind _)
  unfold Store.other
  by_cases heq : n = n0
  · -- the argument is the hash itself
    subst heq
    rw [if_pos rfl, Option.bind_some]
    rcases rel_cases (hs.hash n) with ⟨hsn, htn⟩ | ⟨h, m, hsn, htn, hrel⟩
    · rw [htn]
      unfold Store.onHash
      rw [hsn]
      exact .none
    · obtain ⟨h', hmerge, hrel', hkeeps⟩ := merge_spec env none hrel hrel xsink
      unfold Store.onHash SpecStore.onHash
      simp only [hsn, htn, Option.bind_eq_bind, Option.bind_some, hmerge]
      exact .some ⟨hs.update hsn hrel hrel' hkeeps, rfl⟩
  · rw [if_neg heq]
    rcases rel_cases (hs.hash n0) with ⟨hsn, htn⟩ | ⟨g, m0, hsn, htn, hrel0⟩
    · rw [hsn, htn]
      exact .none
    · rw [hsn, htn]
      refine hs.onHash n fun h m hrel => ?_
      obtain ⟨h', hmerge, hrel', hkeeps⟩ := merge_spec env (some g) hrel hrel0 xsink
      simp only [hmerge, Option.bind_eq_bind, Option.bind_some]
      exact ⟨h', rfl, hrel', hkeeps⟩

theorem copy_sim (hs : Sim s t) (n : Nat) (strip : Bool) :
    StepRel (s.step env (.copy n strip)) (t.step env (.copy n strip)) := by
  show StepRel ((s.hash n).bind _) ((t.hash n).bind _)
  rcases rel_cases (hs.hash n) with ⟨hsn, htn⟩ | ⟨h, m, hsn, htn, hrel⟩
  · rw [hsn, htn]
    exact .none
  · obtain ⟨h', hcopy, hrel'⟩ := copy_spec env hrel strip
    simp only [hsn, htn, Option.bind_eq_bind, Option.bind_some, hcopy]
    exact hs.addHash (.some hrel')

theorem getSlice_sim (hs : Sim s t) (n : Nat) (keys : List (Option String)) (xsink : Bool) :
    StepRel (s.step env (.getSlice n keys xsink)) (t.step env (.getSlice n keys xsink)) := by
  show StepRel ((s.hash n).bind _) ((t.hash n).bind _)
  rcases rel_cases (hs.hash n) with ⟨hsn, htn⟩ | ⟨h, m, hsn, htn, hrel⟩
  · rw [hsn, htn]
    exact .none
  · obtain ⟨r, x, hslice, hr⟩ := getSlice_spec env hrel keys xsink
    simp only [hsn, htn, Option.bind_eq_bind, Option.bind_some, hslice]
    exact hs.addHash hr

theorem plusEquals_sim (hs : Sim s t) (n n0 : Nat) (xsink : Bool) :
    StepRel (s.step env (.plusEquals n n0 xsink)) (t.step env (.plusEquals n n0 xsink)) := by
  show StepRel ((s.hash n).bind _) ((t.hash n).bind _)
  rcases rel_cases (hs.hash n) with ⟨hsn, htn⟩ | ⟨h, m, hsn, htn, hrel⟩
  · rw [hsn, htn]
    exact .none
  rcases rel_cases (hs.hash n0) with ⟨hsn0, htn0⟩ | ⟨g, m0, hsn0, htn0, hrel0⟩
  · simp only [hsn, htn, hsn0, htn0, Option.bind_eq_bind, Option.bind_some]
    exact .none
  · obtain ⟨r, x, hplus, hr⟩ := plusEquals_spec env hrel hrel0 xsink
    simp only [hsn, htn, hsn0, htn0, Option.bind_eq_bind, Option.bind_some, hplus]
    exact hs.addHash hr

theorem iterator_sim (hs : Sim s t) (n : Nat) :
    StepRel (s.step env (.iterator n)) (t.step env (.iterator n)) := by
  show StepRel ((s.hash n).bind _) ((t.hash n).bind _)
  rcases rel_cases (hs.hash n) with ⟨hsn, htn⟩ | ⟨h, m, hsn, htn, hrel⟩
  · rw [hsn, htn]
    exact .none
  · rw [hsn, htn]
    refine .some ⟨?_, rfl⟩
    have hstart : IterRel h ⟨0, false⟩ ⟨none, false⟩ := IterRel.invalid h rfl rfl
    have hnew := hs.setIter hsn hstart s.nextIter
    rw [← hs.nextIter]
    exact { hnew with nextIter := rfl }

/-- Every operation of the hashes is the operation of the maps. -/
theorem step_sim (hs : Sim s t) (a : Action V D T) : StepRel (s.step env a) (t.step env a) := by
  cases a with
  | create type =>
    exact hs.addHash (.some (HashRel.of_rep (rep_empty type) rfl rfl))
  | setKeyValue n key v xsink =>
    refine hs.change env n fun h m hrel => ?_
    obtain ⟨h', hset, hch⟩ := setKeyValue_spec env hrel key v xsink
    simp only [hset, Option.bind_eq_bind, Option.bind_some]
    exact ⟨h', rfl, hch⟩
  | getValueRef n key w =>
    refine hs.change env n fun h m hrel => ?_
    obtain ⟨h1, om, h2, href, huse, hch⟩ := getValueRef_spec env hrel key w
    simp only [href, huse, Option.bind_eq_bind, Option.bind_some]
    exact ⟨h2, rfl, hch⟩
  | swapKeyValue n key v =>
    refine hs.change env n fun h m hrel => ?_
    obtain ⟨h', hswap, hch⟩ := swapKeyValue_spec env hrel key v
    simp only [hswap, Option.bind_eq_bind, Option.bind_some]
    exact ⟨h', rfl, hch⟩
  | takeKeyValue n key =>
    refine hs.onHash n fun h m hrel => ?_
    obtain ⟨h', htake, hrel', hkeeps⟩ := takeKeyValueExists_spec hrel key
    unfold HashPriv.takeKeyValueIntern
    simp only [htake, Option.bind_eq_bind, Option.bind_some]
    exact ⟨h', rfl, hrel', hkeeps⟩
  | removeKey n key =>
    refine hs.onHash n fun h m hrel => ?_
    obtain ⟨h', htake, hrel', hkeeps⟩ := takeKeyValueExists_spec hrel key
    unfold HashPriv.removeKey HashPriv.takeKeyValueIntern
    simp only [htake, Option.bind_eq_bind, Option.bind_some]
    exact ⟨h', rfl, hrel', hkeeps⟩
  | deleteKey n key =>
    refine hs.onHash n fun h m hrel => ?_
    obtain ⟨h', hdel, hrel', hkeeps⟩ := deleteKey_spec env hrel key
    simp only [hdel, Option.bind_eq_bind, Option.bind_some]
    exact ⟨h', rfl, hrel', hkeeps⟩
  | clear n =>
    refine hs.onHash n fun h m hrel => ?_
    obtain ⟨h', hclear, hrel', hkeeps⟩ := clear_spec hrel
    simp only [hclear, Option.bind_eq_bind, Option.bind_some]
    exact ⟨h', rfl, hrel', hkeeps⟩
  | merge n n0 xsink => exact merge_sim env hs n n0 xsink
  | copy n strip => exact copy_sim env hs n strip
  | plusEquals n n0 xsink => exact plusEquals_sim env hs n n0 xsink
  | getSlice n keys xsink => exact getSlice_sim env hs n keys xsink
  | getKeys n =>
    refine hs.onHash n fun h m hrel => ?_
    simp only [getKeys_spec hrel, Option.bind_eq_bind, Option.bind_some]
    exact ⟨h, rfl, hrel, Keeps.refl h⟩
  | getKeyValue n key =>
    refine hs.onHash n fun h m hrel => ?_
    simp only [getKeyValueExistence_spec hrel, Option.bind_eq_bind, Option.bind_some]
    exact ⟨h, rfl, hrel, Keeps.refl h⟩
  | iterator n => exact iterator_sim env hs n
  | iterNext k =>
    rw [Store.step, SpecStore.step]
    refine hs.onIter k fun h m it c hrel hit => ?_
    rcases rel_cases (next_spec hrel hit) with ⟨h1, h2⟩ | ⟨it', c', h1, h2, hit'⟩
    · simp only [h1, h2]
      exact .none
    · simp only [h1, h2, Option.bind_eq_bind, Option.bind_some]
      exact .some ⟨hrel, Keeps.refl h, hit', by rw [hit'.val]⟩
  | iterPrev k =>
    rw [Store.step, SpecStore.step]
    refine hs.onIter k fun h m it c hrel hit => ?_
    rcases rel_cases (prev_spec hrel hit) with ⟨h1, h2⟩ | ⟨it', c', h1, h2, hit'⟩
    · simp only [h1, h2]
      exact .none
    · simp only [h1, h2, Option.bind_eq_bind, Option.bind_some]
      exact .some ⟨hrel, Keeps.refl h, hit', by rw [hit'.val]⟩
  | iterGet k =>
    rw [Store.step, SpecStore.step]
    refine hs.onIter k fun h m it c hrel hit => ?_
    rw [← get_spec env hrel hit]
    cases it.get h with
    | none => exact .none
    | some o => exact .some ⟨hrel, Keeps.refl h, hit, rfl⟩
  | iterAssign k v xsink =>
    rw [Store.step, SpecStore.step]
    refine hs.onIter k fun h m it c hrel hit => ?_
    rcases rel_cases (iterAssign_spec env hrel hit v xsink) with ⟨h1, h2⟩ |
      ⟨r, r', h1, h2, hrel', hkeeps, hout⟩
    · simp only [h1, h2]
      exact .none
    · simp only [h1, h2, Option.bind_eq_bind, Option.bind_some]
      exact .some ⟨hrel', hkeeps, hit, by rw [hout]⟩
  | iterDeleteKey k =>
    rw [Store.step, SpecStore.step]
    refine hs.onIter k fun h m it c hrel hit => ?_
    unfold HashIter.deleteKey
    rcases rel_cases (removeKeyValue_spec env hrel hit) with ⟨h1, h2⟩ |
      ⟨r, r', h1, h2, hrel', hkeeps, hit', -⟩
    · simp only [h1, h2]
      exact .none
    · simp only [h1, h2, Option.bind_eq_bind, Option.bind_some]
      exact .some ⟨hrel', hkeeps, hit', rfl⟩
  | iterRemoveKeyValue k =>
    rw [Store.step, SpecStore.step]
    refine hs.onIter k fun h m it c hrel hit => ?_
    rcases rel_cases (removeKeyValue_spec env hrel hit) with ⟨h1, h2⟩ |
      ⟨r, r', h1, h2, hrel', hkeeps, hit', hout⟩
    · simp only [h1, h2]
      exact .none
    · simp only [h1, h2, Option.bind_eq_bind, Option.bind_some]
      exact .some ⟨hrel', hkeeps, hit', by rw [hout]⟩

end

/-- The contents of the hashes of a store. -/
def Store.contents (s : Store V D T) : Nat → Option (List (String × V)) :=
  fun n => (s.hash n).map HashPriv.contents

/-- The entries of the maps. -/
def SpecStore.contents (t : SpecStore V D T) : Nat → Option (List (String × V)) :=
  fun n => (t.hash n).map fun m => m.map.entries

theorem Sim.contents_eq {s : Store V D T} {t : SpecStore V D T} (hs : Sim s t) :
    s.contents = t.contents := by
  funext n
  unfold Store.contents SpecStore.contents
  rcases rel_cases (hs.hash n) with ⟨hsn, htn⟩ | ⟨h, m, hsn, htn, hrel⟩
  · rw [hsn, htn]
    rfl
  · rw [hsn, htn]
    exact congrArg some hrel.entries.symm

theorem Sim.linked {s : Store V D T} {t : SpecStore V D T} (hs : Sim s t) {n : Nat}
    (hn : s.hash n = some h) : Linked h := by
  rcases rel_cases (hs.hash n) with ⟨hsn, -⟩ | ⟨g, m, hsn, -, hrel⟩
  · rw [hn] at hsn
    exact absurd hsn (Option.some_ne_none _)
  · rw [hn] at hsn
    obtain rfl := Option.some.inj hsn
    exact hrel.rep.linked

/-- In every run the list and the map of each hash are in bijection, and the hashes are
insertion-ordered maps: the runs fail together, and contents and results are the same. -/
theorem store_refines (env : Env V D T) (acts : List (Action V D T)) :
    Lts.Always (Store.step env) (fun s => ∀ n h, s.hash n = some h → Linked h) Store.init acts ∧
      (Lts.run (Store.step env) Store.init acts).map (fun r => (r.1.contents, r.2)) =
        (Lts.run (SpecStore.step env) SpecStore.init acts).map (fun r => (r.1.contents, r.2)) := by
  constructor
  · have hsim : Lts.Always (Store.step env) (fun s => ∃ t, Sim s t) Store.init acts := by
      refine Lts.always_of_step ?_ acts _ ⟨_, sim_init⟩
      rintro s a s' out ⟨t, hs⟩ hstep
      have hrel := step_sim env hs a
      rw [hstep] at hrel
      rcases rel_cases hrel with ⟨hnone, -⟩ | ⟨x, y, hx, -, hsim, -⟩
      · exact absurd hnone (Option.some_ne_none _)
      · obtain rfl := Option.some.inj hx
        exact ⟨y.1, hsim⟩
    refine Lts.Always.mono ?_ acts _ hsim
    rintro s ⟨t, hs⟩ n h hn
    exact hs.linked hn
  · have hstep : ∀ (s : Store V D T) (t : SpecStore V D T) a, Sim s t →
        Option.Rel (fun x y => Sim x.1 y.1 ∧ x.2 = y.2) (s.step env a) (t.step env a) :=
      fun s t a hs => step_sim env hs a
    have hrun := Lts.run_simulation hstep acts Store.init SpecStore.init sim_init
    rcases rel_cases hrun with ⟨h1, h2⟩ | ⟨x, y, h1, h2, hsim, hout⟩
    · rw [h1, h2]
      rfl
    · rw [h1, h2]
      show some (x.1.contents, x.2) = some (y.1.contents, y.2)
      rw [hsim.contents_eq, hout]

/-- The hash is one of the hashes of a program, after any operations. -/
def HashPriv.Reachable (env : Env V D T) (h : HashPriv V D T) : Prop :=
  ∃ acts s outs n, Lts.run (Store.step env) Store.init acts = some (s, outs) ∧ s.hash n = some h

/-- A hash of a program is an insertion-ordered map. -/
theorem HashPriv.Reachable.rel {env : Env V D T} (hr : h.Reachable env) : ∃ m, HashRel h m := by
  obtain ⟨acts, s, outs, n, hrun, hn⟩ := hr
  have hstep : ∀ (s : Store V D T) (t : SpecStore V D T) a, Sim s t →
      Option.Rel (fun x y => Sim x.1 y.1 ∧ x.2 = y.2) (s.step env a) (t.step env a) :=
    fun s t a hs => step_sim env hs a
  rcases rel_cases (Lts.run_simulation hstep acts Store.init SpecStore.init sim_init) with
    ⟨hnone, -⟩ | ⟨x, y, hx, -, hsim, -⟩
  · rw [hrun] at hnone
    exact absurd hnone (Option.some_ne_none _)
  · rw [hrun, Option.some.injEq] at hx
    subst hx
    rcases rel_cases (hsim.hash n) with ⟨hnone, -⟩ | ⟨g, m, hg, -, hrel⟩
    · rw [hn] at hnone
      exact absurd hnone (Option.some_ne_none _)
    · rw [hn, Option.some.injEq] at hg
      subst hg
      exact ⟨m, hrel⟩

end Qore.Hash
