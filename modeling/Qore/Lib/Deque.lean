import Mathlib.Data.List.Perm.Basic

/-!
# `Qore.Lib.Deque`: the double-ended queue as an abstract machine

A deque is a list. `Step l e l'` says that the event `e` leads from `l` to `l'`: an element
is added at an end, the element at an end is taken, or everything is discarded. `Replay` is a
sequence of events.

`Replay.account` is the conservation law: the elements that were in the deque or were added
are the elements that were taken, discarded or are still there, as often as they occur.
-/

set_option autoImplicit false

namespace Qore.Lib.Deque

open scoped List

variable {α : Type*}

/-- One event of a deque. `discard` names the elements that it drops. -/
inductive Event (α : Type*)
  | pushBack (x : α)
  | pushFront (x : α)
  | popFront (x : α)
  | popBack (x : α)
  | discard (xs : List α)
  | skip

/-- The event leads from one deque to another. -/
inductive Step : List α → Event α → List α → Prop
  | pushBack (l : List α) (x : α) : Step l (.pushBack x) (l ++ [x])
  | pushFront (l : List α) (x : α) : Step l (.pushFront x) (x :: l)
  | popFront (l : List α) (x : α) : Step (x :: l) (.popFront x) l
  | popBack (l : List α) (x : α) : Step (l ++ [x]) (.popBack x) l
  | discard (l : List α) : Step l (.discard l) []
  | skip (l : List α) : Step l .skip l

/-- A sequence of events leads from one deque to another. -/
inductive Replay : List α → List (Event α) → List α → Prop
  | nil (l : List α) : Replay l [] l
  | cons {l l' l'' : List α} {e : Event α} {es : List (Event α)} :
      Step l e l' → Replay l' es l'' → Replay l (e :: es) l''

/-- The elements that an event adds. -/
def Event.added : Event α → List α
  | .pushBack x => [x]
  | .pushFront x => [x]
  | _ => []

/-- The element that an event takes. -/
def Event.taken : Event α → List α
  | .popFront x => [x]
  | .popBack x => [x]
  | _ => []

/-- The elements that an event drops. -/
def Event.dropped : Event α → List α
  | .discard xs => xs
  | _ => []

/-- One event loses and invents nothing. -/
theorem Step.account {l l' : List α} {e : Event α} (h : Step l e l') :
    (l ++ e.added).Perm (e.taken ++ e.dropped ++ l') := by
  cases h with
  | pushBack l x => exact List.Perm.refl _
  | pushFront l x => exact List.perm_append_singleton x l
  | popFront l x => simp [Event.added, Event.taken, Event.dropped]
  | popBack l x =>
    simp only [Event.added, Event.taken, Event.dropped, List.append_nil, List.singleton_append]
    exact List.perm_append_singleton x l'
  | discard l => simp [Event.added, Event.taken, Event.dropped]
  | skip l => simp [Event.added, Event.taken, Event.dropped]

/-- A sequence of events loses and invents nothing. -/
theorem Replay.account {l l' : List α} {es : List (Event α)} (h : Replay l es l') :
    (l ++ es.flatMap Event.added).Perm
      (es.flatMap Event.taken ++ es.flatMap Event.dropped ++ l') := by
  induction h with
  | nil l => simp
  | @cons l l1 l2 e es hstep _ ih =>
    have h1 := hstep.account
    -- Both sides, with the middle state `l1` exchanged.
    calc l ++ (e.added ++ es.flatMap Event.added)
        = (l ++ e.added) ++ es.flatMap Event.added := by rw [List.append_assoc]
      _ ~ (e.taken ++ e.dropped ++ l1) ++ es.flatMap Event.added := h1.append_right _
      _ = (e.taken ++ e.dropped) ++ (l1 ++ es.flatMap Event.added) := by simp
      _ ~ (e.taken ++ e.dropped) ++
          (es.flatMap Event.taken ++ es.flatMap Event.dropped ++ l2) := ih.append_left _
      _ = e.taken ++ (e.dropped ++ es.flatMap Event.taken) ++
          (es.flatMap Event.dropped ++ l2) := by simp
      _ ~ e.taken ++ (es.flatMap Event.taken ++ e.dropped) ++
          (es.flatMap Event.dropped ++ l2) :=
        (List.perm_append_comm.append_left _).append_right _
      _ = e.taken ++ es.flatMap Event.taken ++ (e.dropped ++ es.flatMap Event.dropped) ++ l2 := by
        simp

end Qore.Lib.Deque
