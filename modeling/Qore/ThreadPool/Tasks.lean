import Qore.ThreadPool.Workers

/-!
# `Qore.ThreadPool.Tasks`: every task is in one place

A task is in one `Place`: in the queue, with a worker, finished, or on its way to be cancelled.
`Tasks` says that the queue, the fields `task` of the workers and the walk that cancels tasks agree
with the places, and that the history of a task is the one that its place tells. So a task that is
in a place is in no other, and none is lost.

There is one lemma for each thing that happens to a task; `place_update` reduces it to this task.
`Tasks.frame` is for a worker that does something else.
-/

set_option autoImplicit false

namespace Qore.ThreadPool

/-- Where a task is. -/
inductive Place
  | fresh
  | queued
  | assigned (w : Nat)
  | running (w : Nat)
  | finished (w : Nat)
  | pending
  | cancelled
  deriving DecidableEq

/-- What happened to a task: the workers that have begun to run it, the workers that have run it,
and how often it was cancelled. -/
structure History where
  ran : List Nat
  finished : List Nat
  cancelled : Nat

/-- The history of a task. -/
def State.history (s : State) (k : Nat) : History := ⟨s.ran k, s.finished k, s.cancelled k⟩

/-- The history that the place of a task tells. -/
@[simp] def Place.history : Place → History
  | .running w => ⟨[w], [], 0⟩
  | .finished w => ⟨[w], [w], 0⟩
  | .cancelled => ⟨[], [], 1⟩
  | _ => ⟨[], [], 0⟩

/-- The places that the state of the pool tells. -/
@[simp] def Place.listed : Place → Bool
  | .finished _ | .cancelled => false
  | _ => true

/-- The tasks that are still to be cancelled. -/
@[simp] def Pc.toCancel : Pc → List Nat
  | .cancel tasks => tasks
  | _ => []

@[simp] theorem Pc.signal_toCancel (pc : Pc) : pc.signal.toCancel = pc.toCancel := by
  cases pc <;> rfl

/-- The task is in the place, as the queue, the tasks to cancel, the workers and the number of the
next task tell. -/
@[simp] def Place.At (q cl : List Nat) (worker : Nat → Worker) (next k : Nat) : Place → Prop
  | .fresh => next ≤ k
  | .queued => k ∈ q
  | .assigned w => (worker w).task = some k ∧ (worker w).pc ≠ .running
  | .running w => (worker w).task = some k ∧ (worker w).pc = .running
  | .pending => k ∈ cl
  | .finished _ | .cancelled => False

/-- The places of the tasks. -/
structure Tasks (q cl : List Nat) (worker : Nat → Worker) (next : Nat) (detach : Bool)
    (hist : Nat → History) (π : Nat → Place) : Prop where
  place : ∀ k p, p.listed → (π k = p ↔ p.At q cl worker next k)
  nodupQueue : q.Nodup
  nodupCancel : cl.Nodup
  detached : ∀ k, π k = .pending ∨ π k = .cancelled → detach = true
  history : ∀ k, hist k = (π k).history

namespace Tasks

variable {q q' cl cl' : List Nat} {worker worker' : Nat → Worker} {next next' k w : Nat}
  {detach : Bool} {hist : Nat → History} {π : Nat → Place} {p : Place} {r : Worker}
  {hist' : Nat → History}

/-- One task gets another place. -/
theorem place_update (h : Tasks q cl worker next detach hist π)
    (hk : ∀ p' : Place, p'.listed → (p = p' ↔ p'.At q' cl' worker' next' k))
    (hne : ∀ k', k' ≠ k → ∀ p' : Place, p'.listed →
      (p'.At q' cl' worker' next' k' ↔ p'.At q cl worker next k')) :
    ∀ k' (p' : Place), p'.listed → (Function.update π k p k' = p' ↔ p'.At q' cl' worker' next' k') := by
  intro k' p' hp'
  by_cases heq : k' = k
  · subst heq
    rw [Function.update_self]
    exact hk p' hp'
  · rw [Function.update_of_ne heq, hne k' heq p' hp']
    exact h.place k' p' hp'

/-- The history of one task changes with its place. -/
theorem history_update (h : Tasks q cl worker next detach hist π) (hk : hist' k = p.history)
    (hne : ∀ k', k' ≠ k → hist' k' = hist k') :
    ∀ k', hist' k' = (Function.update π k p k').history := by
  intro k'
  by_cases heq : k' = k
  · subst heq
    rw [Function.update_self]
    exact hk
  · rw [Function.update_of_ne heq, hne k' heq]
    exact h.history k'

/-- Only a pool that is stopped with `stop` drops a task. -/
theorem detached_update (h : Tasks q cl worker next detach hist π)
    (hp : p = .pending ∨ p = .cancelled → detach = true) :
    ∀ k', Function.update π k p k' = .pending ∨ Function.update π k p k' = .cancelled →
      detach = true :=
  (Function.forall_update_iff π fun _ p => p = .pending ∨ p = .cancelled → detach = true).mpr
    ⟨hp, fun k' _ => h.detached k'⟩

/-- A worker changes, and not what it does with a task. -/
theorem frame (h : Tasks q cl worker next detach hist π)
    (htask : r.task = (worker w).task) (hpc : r.pc = .running ↔ (worker w).pc = .running) :
    Tasks q cl (Function.update worker w r) next detach hist π := by
  have hsame : ∀ v, (Function.update worker w r v).task = (worker v).task ∧
      ((Function.update worker w r v).pc = .running ↔ (worker v).pc = .running) := by
    intro v
    by_cases hv : v = w
    · subst hv
      rw [Function.update_self]
      exact ⟨htask, hpc⟩
    · rw [Function.update_of_ne hv]
      exact ⟨rfl, Iff.rfl⟩
  refine { h with place := ?_ }
  intro k p hp
  rw [h.place k p hp]
  cases p with
  | assigned v | running v => simp only [Place.At, (hsame v).1, (hsame v).2, ne_eq]
  | _ => simp

/-- A task is accepted. -/
theorem submit (h : Tasks q cl worker next detach hist π) :
    Tasks (q ++ [next]) cl worker (next + 1) detach hist (Function.update π next .queued) := by
  have hfresh : π next = .fresh := (h.place next .fresh rfl).mpr (le_refl next)
  have hq : next ∉ q := by
    intro hmem
    have := (h.place next .queued rfl).mpr hmem
    simp [hfresh] at this
  refine ⟨h.place_update ?_ ?_, ?_, h.nodupCancel, h.detached_update (by simp),
    h.history_update ?_ (fun _ _ => rfl)⟩
  · intro p' hp'
    have := h.place next p' hp'
    cases p' <;> simp_all
  · intro k' hk' p' _
    cases p' with
    | fresh => simp only [Place.At]; omega
    | _ => simp_all
  · exact List.nodup_append.mpr ⟨h.nodupQueue, List.nodup_singleton _, by simp; grind⟩
  · rw [h.history, hfresh]
    rfl

/-- The first task of the queue goes to a worker. -/
theorem give (h : Tasks (k :: q) cl worker next detach hist π) (hw : (worker w).task = none)
    (htask : r.task = some k) (hpc : r.pc ≠ .running) :
    Tasks q cl (Function.update worker w r) next detach hist (Function.update π k (.assigned w)) := by
  have hqueued : π k = .queued := (h.place k .queued rfl).mpr List.mem_cons_self
  have hnodup := List.nodup_cons.mp h.nodupQueue
  refine ⟨h.place_update ?_ ?_, hnodup.2, h.nodupCancel, h.detached_update (by simp),
    h.history_update ?_ (fun _ _ => rfl)⟩
  · intro p' hp'
    have := h.place k p' hp'
    cases p' with
    | assigned v | running v =>
      by_cases hv : v = w
      · subst hv
        simp_all
      · simp_all [Ne.symm hv]
    | _ => simp_all
  · intro k' hk' p' _
    cases p' with
    | assigned v | running v =>
      by_cases hv : v = w
      · subst hv
        simp_all [Ne.symm hk']
      · simp_all
    | _ => simp_all
  · rw [h.history, hqueued]
    rfl

/-- A worker begins to run its task. -/
theorem start (h : Tasks q cl worker next detach hist π) (hw : (worker w).task = some k)
    (hw' : (worker w).pc ≠ .running) (htask : r.task = some k) (hpc : r.pc = .running)
    (hk : hist' k = { hist k with ran := (hist k).ran ++ [w] })
    (hne : ∀ k', k' ≠ k → hist' k' = hist k') :
    Tasks q cl (Function.update worker w r) next detach hist' (Function.update π k (.running w)) := by
  have hassigned : π k = .assigned w := (h.place k (.assigned w) rfl).mpr ⟨hw, hw'⟩
  refine ⟨h.place_update ?_ ?_, h.nodupQueue, h.nodupCancel, h.detached_update (by simp),
    h.history_update ?_ hne⟩
  · intro p' hp'
    have := h.place k p' hp'
    cases p' with
    | assigned v | running v =>
      by_cases hv : v = w
      · subst hv
        simp_all
      · simp_all [Ne.symm hv]
    | _ => simp_all
  · intro k' hk' p' _
    cases p' with
    | assigned v | running v =>
      by_cases hv : v = w
      · subst hv
        simp_all [Ne.symm hk']
      · simp_all
    | _ => simp_all
  · rw [hk, h.history, hassigned]
    rfl

/-- A worker has run its task. -/
theorem finish (h : Tasks q cl worker next detach hist π) (hw : (worker w).task = some k)
    (hw' : (worker w).pc = .running) (htask : r.task = none)
    (hk : hist' k = { hist k with finished := (hist k).finished ++ [w] })
    (hne : ∀ k', k' ≠ k → hist' k' = hist k') :
    Tasks q cl (Function.update worker w r) next detach hist' (Function.update π k (.finished w)) := by
  have hrunning : π k = .running w := (h.place k (.running w) rfl).mpr ⟨hw, hw'⟩
  refine ⟨h.place_update ?_ ?_, h.nodupQueue, h.nodupCancel, h.detached_update (by simp),
    h.history_update ?_ hne⟩
  · intro p' hp'
    have := h.place k p' hp'
    cases p' with
    | assigned v | running v =>
      by_cases hv : v = w
      · subst hv
        simp_all
      · simp_all [Ne.symm hv]
    | _ => simp_all
  · intro k' hk' p' _
    cases p' with
    | assigned v | running v =>
      by_cases hv : v = w
      · subst hv
        simp_all [Ne.symm hk']
      · simp_all
    | _ => simp_all
  · rw [hk, h.history, hrunning]
    rfl

/-- The queue is copied, to be cancelled. -/
theorem drop (h : Tasks q [] worker next detach hist π) (hq : q ≠ [] → detach = true) :
    Tasks [] q worker next detach hist (fun k => if π k = .queued then .pending else π k) := by
  refine ⟨?_, List.nodup_nil, h.nodupQueue, ?_, ?_⟩
  · intro k p hp
    have hp' := h.place k p hp
    have hqueued := h.place k .queued rfl
    by_cases hk : π k = .queued
    · cases p <;> simp_all
    · cases p <;> simp_all
  · intro k hk
    split at hk
    · rename_i hqueued
      exact hq (List.ne_nil_of_mem ((h.place k .queued rfl).mp hqueued))
    · exact h.detached k hk
  · intro k
    rw [h.history k]
    split
    · rename_i hqueued
      rw [hqueued]
      rfl
    · rfl

/-- A task is cancelled. -/
theorem cancel (h : Tasks q (k :: cl) worker next detach hist π)
    (hk : hist' k = { hist k with cancelled := (hist k).cancelled + 1 })
    (hne : ∀ k', k' ≠ k → hist' k' = hist k') :
    Tasks q cl worker next detach hist' (Function.update π k .cancelled) := by
  have hpending : π k = .pending := (h.place k .pending rfl).mpr List.mem_cons_self
  have hnodup := List.nodup_cons.mp h.nodupCancel
  refine ⟨h.place_update ?_ ?_, h.nodupQueue, hnodup.2,
    h.detached_update (fun _ => h.detached k (.inl hpending)), h.history_update ?_ hne⟩
  · intro p' hp'
    have := h.place k p' hp'
    cases p' <;> simp_all
  · intro k' hk' p' _
    cases p' <;> simp_all
  · rw [hk, h.history, hpending]
    rfl

/-- The pool is stopped with `stop`. -/
theorem detach_mono (h : Tasks q cl worker next detach hist π) {detach' : Bool}
    (hdet : detach = true → detach' = true) : Tasks q cl worker next detach' hist π :=
  { h with detached := fun k hk => hdet (h.detached k hk) }

end Tasks

end Qore.ThreadPool
