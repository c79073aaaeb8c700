import Mathlib.Data.List.Range
import Qore.Queue.Model

/-!
# `Qore.Queue.Linked`: the nodes of the queue are a doubly linked list

`Contents q l` says that the memory of the queue holds exactly the nodes of `l`, linked in
both directions from `head` to `tail`. One lemma for each operation on the list:

* `Contents.pushNode`, `Contents.insertNode`: a value is added at an end.
* `Contents.takeHead`, `Contents.takeTail`: the value at an end is taken.
* `Contents.clearIntern`: all nodes are deleted.
-/

set_option autoImplicit false

namespace Qore.Queue

open Qore.Lib.Chain

variable {V : Type}

/-- The nodes of the queue are those of `l`, from `head` to `tail`. -/
structure Contents (q : QoreQueue V) (l : List (Addr × V)) : Prop where
  head : q.head = first l none
  tail : q.tail = last none l
  linked : Linked q.nodes none l none
  nodup : (l.map Prod.fst).Nodup
  fresh : ∀ a ∈ l.map Prod.fst, a < q.free
  only : ∀ a, a ∉ l.map Prod.fst → q.nodes a = none

/-- The fields that an operation on the list does not touch. -/
structure SameControl (q q' : QoreQueue V) : Prop where
  err : q'.err = q.err
  max : q'.max = q.max
  readWaiting : q'.readWaiting = q.readWaiting
  writeWaiting : q'.writeWaiting = q.writeWaiting

namespace Contents

variable {q : QoreQueue V} {l : List (Addr × V)}

theorem head_none_iff (h : Contents q l) : q.head = none ↔ l = [] := by
  rw [h.head]
  exact first_eq_none

/-- A queue that differs in its other fields has the same contents. -/
theorem congr {q' : QoreQueue V} (h : Contents q l) (hnodes : q'.nodes = q.nodes)
    (hfree : q'.free = q.free) (hhead : q'.head = q.head) (htail : q'.tail = q.tail) :
    Contents q' l := by
  refine ⟨hhead.trans h.head, htail.trans h.tail, ?_, h.nodup, ?_, ?_⟩
  · rw [hnodes]; exact h.linked
  · rw [hfree]; exact h.fresh
  · rw [hnodes]; exact h.only

theorem new (max : Int) : Contents (QoreQueue.new V max) [] :=
  ⟨rfl, rfl, trivial, List.nodup_nil, by simp, fun _ _ => rfl⟩

/-- The next address is not in use. -/
theorem free_notMem (h : Contents q l) : q.free ∉ l.map Prod.fst := fun hmem =>
  Nat.lt_irrefl _ (h.fresh _ hmem)

/-! ### Adding a value -/

theorem pushNode_control (q : QoreQueue V) (v : V) : (q.pushNode v).len = q.len + 1 ∧
    (q.pushNode v).free = q.free + 1 ∧ SameControl q (q.pushNode v) := by
  unfold QoreQueue.pushNode QoreQueue.setNext
  split
  · exact ⟨rfl, rfl, rfl, rfl, rfl, rfl⟩
  · split <;> exact ⟨rfl, rfl, rfl, rfl, rfl, rfl⟩

theorem insertNode_control (q : QoreQueue V) (v : V) : (q.insertNode v).len = q.len + 1 ∧
    (q.insertNode v).free = q.free + 1 ∧ SameControl q (q.insertNode v) := by
  unfold QoreQueue.insertNode QoreQueue.setPrev
  split
  · exact ⟨rfl, rfl, rfl, rfl, rfl, rfl⟩
  · split <;> exact ⟨rfl, rfl, rfl, rfl, rfl, rfl⟩

/-- The addresses after an addition at the end. -/
theorem nodup_concat (h : Contents q l) (v : V) : ((l ++ [(q.free, v)]).map Prod.fst).Nodup := by
  rw [List.map_append, List.nodup_append]
  refine ⟨h.nodup, by simp, ?_⟩
  intro a ha b hb
  rw [List.mem_singleton.mp hb]
  exact Nat.ne_of_lt (h.fresh a ha)

theorem pushNode (h : Contents q l) (v : V) :
    Contents (q.pushNode v) (l ++ [(q.free, v)]) := by
  have hfresh : ∀ a ∈ (l ++ [(q.free, v)]).map Prod.fst, a < q.free + 1 := by
    intro a ha
    rw [List.map_append, List.mem_append] at ha
    rcases ha with ha | ha
    · exact Nat.lt_succ_of_lt (h.fresh a ha)
    · rw [List.mem_singleton.mp ha]
      exact Nat.lt_succ_self _
  cases l using List.reverseRecOn with
  | nil =>
    have heq : q.pushNode v =
        { q.alloc v none none with head := some q.free, tail := some q.free, len := q.len + 1 } :=
      if_pos (h.head_none_iff.mpr rfl)
    rw [heq]
    refine ⟨rfl, rfl, ⟨Function.update_self _ _ _, trivial⟩, h.nodup_concat v, hfresh,
      fun a ha => ?_⟩
    have hne : a ≠ q.free := fun he => ha (by simp [he])
    show Function.update q.nodes q.free _ a = none
    rw [Function.update_of_ne hne]
    exact h.only a (by simp)
  | append_singleton l x =>
    obtain ⟨b, w⟩ := x
    have hhead : q.head ≠ none := fun hn => by simpa using h.head_none_iff.mp hn
    have htail : q.tail = some b := by rw [h.tail, last_concat]
    have hb : b ∉ l.map Prod.fst := by
      have hnd := h.nodup
      rw [List.map_append, List.nodup_append] at hnd
      exact fun hb => hnd.2.2 b hb b (by simp) rfl
    have hbf : b ≠ q.free := Nat.ne_of_lt (h.fresh b (by simp))
    have heq : q.pushNode v = { (q.alloc v (some b) none).setNext (some b) (some q.free) with
        tail := some q.free, len := q.len + 1 } := by
      rw [QoreQueue.pushNode, if_neg hhead, htail]
    rw [heq]
    refine ⟨?_, by rw [last_concat], ?_, h.nodup_concat v, hfresh, fun a ha => ?_⟩
    · show q.head = _
      rw [h.head, first_concat_append]
    · -- The old chain gets a new end, and the new node hangs on it.
      have hold := (h.linked.update_off h.free_notMem (some ⟨v, some b, none⟩)).relink_next hb
        (some q.free)
      refine linked_append.mpr ⟨hold, ?_, trivial⟩
      rw [last_concat]
      show Function.update (Function.update q.nodes q.free _) b _ q.free = _
      rw [Function.update_of_ne hbf.symm, Function.update_self]
      rfl
    · simp only [List.map_append, List.map_cons, List.map_nil, List.mem_append, List.mem_singleton,
        not_or] at ha
      show Function.update (Function.update q.nodes q.free _) b _ a = none
      rw [Function.update_of_ne ha.1.2, Function.update_of_ne ha.2]
      exact h.only a (by simpa using ha.1)

theorem insertNode (h : Contents q l) (v : V) :
    Contents (q.insertNode v) ((q.free, v) :: l) := by
  have hnodup : (((q.free, v) :: l).map Prod.fst).Nodup :=
    List.nodup_cons.mpr ⟨h.free_notMem, h.nodup⟩
  have hfresh : ∀ a ∈ ((q.free, v) :: l).map Prod.fst, a < q.free + 1 := by
    intro a ha
    rcases List.mem_cons.mp ha with rfl | ha
    · exact Nat.lt_succ_self _
    · exact Nat.lt_succ_of_lt (h.fresh a ha)
  cases l with
  | nil =>
    have heq : q.insertNode v =
        { q.alloc v none none with head := some q.free, tail := some q.free, len := q.len + 1 } :=
      if_pos (h.head_none_iff.mpr rfl)
    rw [heq]
    refine ⟨rfl, rfl, ⟨Function.update_self _ _ _, trivial⟩, hnodup, hfresh, fun a ha => ?_⟩
    have hne : a ≠ q.free := fun he => ha (by simp [he])
    show Function.update q.nodes q.free _ a = none
    rw [Function.update_of_ne hne]
    exact h.only a (by simp)
  | cons x l =>
    obtain ⟨b, w⟩ := x
    have hhead : q.head = some b := h.head
    have hb : b ∉ l.map Prod.fst := (List.nodup_cons.mp h.nodup).1
    have hbf : b ≠ q.free := Nat.ne_of_lt (h.fresh b (by simp))
    have heq : q.insertNode v = { (q.alloc v none (some b)).setPrev (some b) (some q.free) with
        head := some q.free, len := q.len + 1 } := by
      rw [QoreQueue.insertNode, if_neg (by rw [hhead]; simp), hhead]
    rw [heq]
    refine ⟨rfl, h.tail, ⟨?_, ?_⟩, hnodup, hfresh, fun a ha => ?_⟩
    · show Function.update (Function.update q.nodes q.free _) b _ q.free = _
      rw [Function.update_of_ne hbf.symm, Function.update_self]
      rfl
    · exact (h.linked.update_off h.free_notMem (some ⟨v, none, some b⟩)).relink_prev hb
        (some q.free)
    · simp only [List.map_cons, List.mem_cons, not_or] at ha
      show Function.update (Function.update q.nodes q.free _) b _ a = none
      rw [Function.update_of_ne ha.2.1, Function.update_of_ne ha.1]
      exact h.only a (by simpa using ha.2)

/-! ### Taking a value -/

theorem takeHead {a : Addr} {v : V} (h : Contents q ((a, v) :: l)) :
    ∃ q', q.takeHead = some ((a, v), q') ∧ Contents q' l ∧ q'.len = q.len - 1 ∧
      q'.free = q.free ∧ SameControl q q' := by
  have hhead : q.head = some a := h.head
  have hnode := h.linked.1
  obtain ⟨ha, hnodup⟩ := List.nodup_cons.mp h.nodup
  have hfresh : ∀ b ∈ l.map Prod.fst, b < q.free := fun b hb =>
    h.fresh b (List.mem_cons_of_mem _ hb)
  cases l with
  | nil =>
    have heq : q.takeHead = some ((a, v), { q with
        nodes := Function.update q.nodes a none, head := none, tail := none, len := q.len - 1 }) := by
      simp only [QoreQueue.takeHead, hhead, hnode, first, if_pos]
      rfl
    refine ⟨_, heq, ⟨rfl, rfl, trivial, hnodup, hfresh, fun b _ => ?_⟩, rfl, rfl, ⟨rfl, rfl, rfl, rfl⟩⟩
    show Function.update q.nodes a none b = none
    by_cases hb : b = a
    · rw [hb, Function.update_self]
    · rw [Function.update_of_ne hb]
      exact h.only b (by simpa using hb)
  | cons x l =>
    obtain ⟨b, w⟩ := x
    have hb : b ∉ l.map Prod.fst := (List.nodup_cons.mp hnodup).1
    have heq : q.takeHead = some ((a, v), { q with
        nodes := Function.update (Function.update q.nodes b
          ((q.nodes b).map fun w => { w with prev := none })) a none,
        head := some b, len := q.len - 1 }) := by
      simp only [QoreQueue.takeHead, hhead, hnode, first, reduceCtorEq, if_false]
      rfl
    refine ⟨_, heq, ⟨rfl, h.tail, ?_, hnodup, hfresh, fun c hc => ?_⟩, rfl, rfl, ⟨rfl, rfl, rfl, rfl⟩⟩
    · exact (h.linked.2.relink_prev hb none).update_off ha none
    · show Function.update (Function.update q.nodes b _) a none c = none
      by_cases hca : c = a
      · rw [hca, Function.update_self]
      · have hcb : c ≠ b := fun hcb => hc (by simp [hcb])
        rw [Function.update_of_ne hca, Function.update_of_ne hcb]
        exact h.only c (by simp only [List.map_cons, List.mem_cons, not_or] at hc ⊢; exact ⟨hca, hc⟩)

theorem takeTail {a : Addr} {v : V} (h : Contents q (l ++ [(a, v)])) :
    ∃ q', q.takeTail = some ((a, v), q') ∧ Contents q' l ∧ q'.len = q.len - 1 ∧
      q'.free = q.free ∧ SameControl q q' := by
  have htail : q.tail = some a := by rw [h.tail, last_concat]
  obtain ⟨hlinked, hnode, -⟩ := linked_append.mp h.linked
  have hnd := h.nodup
  rw [List.map_append, List.nodup_append] at hnd
  have ha : a ∉ l.map Prod.fst := fun ha => hnd.2.2 a ha a (by simp) rfl
  have hfresh : ∀ b ∈ l.map Prod.fst, b < q.free := fun b hb =>
    h.fresh b (by rw [List.map_append]; exact List.mem_append_left _ hb)
  cases l using List.reverseRecOn with
  | nil =>
    have heq : q.takeTail = some ((a, v), { q with
        nodes := Function.update q.nodes a none, head := none, tail := none, len := q.len - 1 }) := by
      simp only [QoreQueue.takeTail, htail, hnode, last, if_pos]
      rfl
    refine ⟨_, heq, ⟨rfl, rfl, trivial, hnd.1, hfresh, fun b _ => ?_⟩, rfl, rfl, ⟨rfl, rfl, rfl, rfl⟩⟩
    show Function.update q.nodes a none b = none
    by_cases hb : b = a
    · rw [hb, Function.update_self]
    · rw [Function.update_of_ne hb]
      exact h.only b (by simpa using hb)
  | append_singleton l x =>
    obtain ⟨b, w⟩ := x
    have hnl := hnd.1
    rw [List.map_append, List.nodup_append] at hnl
    have hb : b ∉ l.map Prod.fst := fun hb => hnl.2.2 b hb b (by simp) rfl
    have heq : q.takeTail = some ((a, v), { q with
        nodes := Function.update (Function.update q.nodes b
          ((q.nodes b).map fun w => { w with next := none })) a none,
        tail := some b, len := q.len - 1 }) := by
      simp only [QoreQueue.takeTail, htail, hnode, last_concat, reduceCtorEq, if_false]
      rfl
    refine ⟨_, heq, ⟨?_, by rw [last_concat], ?_, hnd.1, hfresh, fun c hc => ?_⟩, rfl, rfl,
      ⟨rfl, rfl, rfl, rfl⟩⟩
    · show q.head = _
      rw [h.head, first_concat_append]
    · exact (hlinked.relink_next hb none).update_off ha none
    · show Function.update (Function.update q.nodes b _) a none c = none
      by_cases hca : c = a
      · rw [hca, Function.update_self]
      · have hcb : c ≠ b := fun hcb => hc (by simp [hcb])
        rw [Function.update_of_ne hca, Function.update_of_ne hcb]
        refine h.only c ?_
        rw [List.map_append, List.mem_append]
        rintro (hc' | hc')
        · exact hc hc'
        · exact hca (List.mem_singleton.mp hc')

/-! ### Deleting all values -/

/-- The loop of `clearIntern` deletes the whole chain from `head` on. -/
theorem deleteNodes : ∀ (l : List (Addr × V)) (fuel : Nat) (q : QoreQueue V) (p : Option Addr),
    l.length ≤ fuel → q.head = first l none → Linked q.nodes p l none →
    (l.map Prod.fst).Nodup → (∀ a, a ∉ l.map Prod.fst → q.nodes a = none) →
    q.deleteNodes fuel = some (l, { q with nodes := fun _ => none, head := none }) := by
  intro l
  induction l with
  | nil =>
    intro fuel q p _ hhead _ _ honly
    have hnodes : q.nodes = fun _ => none := funext fun a => honly a (by simp)
    have hq : q = { q with nodes := fun _ => none, head := none } := by
      rw [← hnodes, ← show q.head = none from hhead]
    cases fuel with
    | zero =>
      rw [QoreQueue.deleteNodes, if_pos (show q.head = none from hhead)]
      exact congrArg (fun r => some ([], r)) hq
    | succ fuel =>
      simp only [QoreQueue.deleteNodes, show q.head = none from hhead]
      exact congrArg (fun r => some ([], r)) hq
  | cons x l ih =>
    intro fuel q p hfuel hhead hlinked hnodup honly
    obtain ⟨a, v⟩ := x
    obtain ⟨ha, hnodup'⟩ := List.nodup_cons.mp hnodup
    cases fuel with
    | zero => simp at hfuel
    | succ fuel =>
      have hrest := ih fuel { q.delete a with head := first l none } (some a)
        (Nat.le_of_succ_le_succ hfuel) rfl (hlinked.2.update_off ha none) hnodup' (fun b hb => by
          show Function.update q.nodes a none b = none
          by_cases hba : b = a
          · rw [hba, Function.update_self]
          · rw [Function.update_of_ne hba]
            exact honly b (fun hmem => (List.mem_cons.mp hmem).elim hba hb))
      simp only [QoreQueue.deleteNodes, show q.head = some a from hhead, hlinked.1]
      rw [hrest]
      rfl

/-- There are not more nodes than addresses that were given out. -/
theorem length_le_free (h : Contents q l) : l.length ≤ q.free := by
  have hsub : l.map Prod.fst ⊆ List.range q.free := fun a ha => List.mem_range.mpr (h.fresh a ha)
  have hle := (h.nodup.subperm hsub).length_le
  rwa [List.length_map, List.length_range] at hle

theorem clearIntern (h : Contents q l) :
    q.clearIntern = some (l, { q with nodes := fun _ => none, head := none, tail := none,
                                      scanCount := 0 }) := by
  rw [QoreQueue.clearIntern, deleteNodes l q.free q none h.length_le_free h.head h.linked h.nodup
    h.only]

end Contents

end Qore.Queue
