import Qore.ThreadPool.Lists

/-!
# `Qore.ThreadPool.Workers`: what a worker can be doing in its role

`WorkerOk` says where the thread of a worker can be, and what its fields are, in each `Role`.

* `Idle`: it waits for a task, or is about to.
* `Active`: it has a task, or has just run it. Once the pool is stopped, it may also wait without
  a task, since `done` leaves it in `ah` then.
* `Stopping`: its `stopflag` is set, and it is not asleep without a signal.

Each step of a worker keeps `WorkerOk`, and none reaches an assertion that fails. `Workers` is
`WorkerOk` for all workers, with the iterators of those in `ah`.
-/

set_option autoImplicit false

namespace Qore.ThreadPool

/-- A worker without a task. -/
structure Idle (r : Worker) : Prop where
  task : r.task = none
  stopflag : r.stopflag = false
  stopCond : r.stopCond = false
  stopped : r.stopped = false
  pc : r.pc = .begin ∨ r.pc = .top ∨ r.pc = .sleeping false

/-- The places of a worker that has its task or has run it; `stop` is the flag of the pool. -/
@[simp] def ActivePc (stop : Bool) (task : Option Nat) : WPc → Prop
  | .begin | .sleeping true | .running => task ≠ none
  | .top => task ≠ none ∨ stop = true
  | .sleeping false => task = none ∧ stop = true
  | .afterRun => task = none
  | _ => False

/-- A worker in `ah` that is not stopped. -/
structure Active (stop cond : Bool) (r : Worker) : Prop where
  stopflag : r.stopflag = false
  stopCond : r.stopCond = cond
  stopped : r.stopped = false
  pc : ActivePc stop r.task r.pc

/-- The places of a worker that is stopped. -/
@[simp] def StoppingPc (cond : Bool) (task : Option Nat) : WPc → Prop
  | .begin | .top | .sleeping true => True
  | .running => task ≠ none
  | .afterRun | .ending => task = none
  | .ended => task = none ∧ cond = true
  | .gone => task = none ∧ cond = false
  | _ => False

/-- A worker that is stopped. -/
structure Stopping (cond : Bool) (r : Worker) : Prop where
  stopflag : r.stopflag = true
  stopCond : r.stopCond = cond
  stopped : r.stopped = true ↔ r.pc = .ended
  pc : StoppingPc cond r.task r.pc

/-- A worker that the pool does not know. -/
structure Unknown (r : Worker) : Prop where
  task : r.task = none
  pc : (r.pc = .unborn ∧ r.stopflag = false ∧ r.stopCond = false ∧ r.stopped = false) ∨
    (r.pc = .ending ∧ r.stopCond = false) ∨ r.pc = .gone

/-- What a worker can be doing in its role. -/
def WorkerOk (stop : Bool) (r : Worker) : Role → Prop
  | .out => Unknown r
  | .free | .given | .releasing => Idle r
  | .busy => Active stop false r
  | .marked => Active stop true r
  | .stopped => Stopping false r ∧ r.task = none
  | .detached => Stopping false r
  | .waited => Stopping true r

namespace WorkerOk

variable {stop : Bool} {r : Worker} {ro : Role} {k : Nat}

/-- The roles of a worker that is not stopped, with what they say. -/
theorem cases_role (h : WorkerOk stop r ro) :
    (ro = .out ∧ Unknown r) ∨ Idle r ∨ (∃ cond, (ro = .busy ∨ ro = .marked) ∧ Active stop cond r) ∨
      ∃ cond, Stopping cond r := by
  cases ro with
  | out => exact .inl ⟨rfl, h⟩
  | free | given | releasing => exact .inr (.inl h)
  | busy => exact .inr (.inr (.inl ⟨false, .inl rfl, h⟩))
  | marked => exact .inr (.inr (.inl ⟨true, .inr rfl, h⟩))
  | stopped => exact .inr (.inr (.inr ⟨false, h.1⟩))
  | detached => exact .inr (.inr (.inr ⟨false, h⟩))
  | waited => exact .inr (.inr (.inr ⟨true, h⟩))

/-- A change of the record that every kind of worker allows. -/
theorem map {r' : Worker} (h : WorkerOk stop r ro) (hunknown : Unknown r → Unknown r')
    (hidle : Idle r → Idle r') (hactive : ∀ cond, Active stop cond r → Active stop cond r')
    (hstopping : ∀ cond, Stopping cond r → Stopping cond r') (htask : r.task = none → r'.task = none) :
    WorkerOk stop r' ro := by
  cases ro with
  | out => exact hunknown h
  | free | given | releasing => exact hidle h
  | busy | marked => exact hactive _ h
  | stopped => exact ⟨hstopping _ h.1, htask h.2⟩
  | detached | waited => exact hstopping _ h

/-- The thread takes the lock of its worker. -/
theorem top (h : WorkerOk stop r ro) (hpc : r.pc = .begin) :
    WorkerOk stop { r with pc := .top } ro := by
  refine h.map ?_ ?_ ?_ ?_ (fun ht => ht)
  · intro hu
    have := hu.pc
    simp [hpc] at this
  · exact fun hi => { hi with pc := .inr (.inl rfl) }
  · intro cond ha
    have := ha.pc
    rw [hpc] at this
    exact { ha with pc := .inl this }
  · intro cond hs
    have := hs.stopped
    rw [hpc] at this
    exact { hs with stopped := by simpa using this, pc := trivial }

/-- A task starts. -/
theorem start (h : WorkerOk stop r ro) (hpc : r.pc = .top ∨ r.pc = .sleeping true)
    (htask : r.task = some k) : WorkerOk stop { r with pc := .running } ro := by
  refine h.map ?_ ?_ ?_ ?_ (fun ht => ht)
  · intro hu
    simp [hu.task] at htask
  · intro hi
    simp [hi.task] at htask
  · exact fun cond ha => { ha with pc := by simp [htask] }
  · intro cond hs
    have := hs.stopped
    rcases hpc with hpc | hpc <;> rw [hpc] at this <;>
      exact { hs with stopped := by simpa using this, pc := by simp [htask] }

/-- A worker goes to sleep only without a task and before it is stopped. -/
theorem sleep (h : WorkerOk stop r ro) (hpc : r.pc = .top) (htask : r.task = none)
    (hflag : r.stopflag = false) : WorkerOk stop { r with pc := .sleeping false } ro := by
  refine h.map ?_ ?_ ?_ ?_ (fun ht => ht)
  · intro hu
    have := hu.pc
    simp [hpc] at this
  · exact fun hi => { hi with pc := .inr (.inr rfl) }
  · intro cond ha
    have := ha.pc
    rw [hpc] at this
    simp only [ActivePc, htask, ne_eq, not_true_eq_false, false_or] at this
    exact { ha with pc := ⟨htask, this⟩ }
  · intro cond hs
    simp [hs.stopflag] at hflag

/-- A worker leaves its loop when it is stopped and has no task. -/
theorem leave (h : WorkerOk stop r ro) (hpc : r.pc = .top ∨ r.pc = .sleeping true ∨ r.pc = .afterRun)
    (htask : r.task = none) (hflag : r.stopflag = true) :
    WorkerOk stop { r with pc := .ending } ro := by
  refine h.map ?_ ?_ ?_ ?_ (fun ht => ht)
  · intro hu
    have := hu.pc
    rcases hpc with hpc | hpc | hpc <;> simp [hpc] at this
  · intro hi
    simp [hi.stopflag] at hflag
  · intro cond ha
    simp [ha.stopflag] at hflag
  · intro cond hs
    have := hs.stopped
    rcases hpc with hpc | hpc | hpc <;> rw [hpc] at this <;>
      exact { hs with stopped := by simpa using this, pc := htask }

/-- A signal is sent only with a task or a stop: `assert(task)` holds after the wait. -/
theorem not_sleeping_true (h : WorkerOk stop r ro) (htask : r.task = none) (hflag : r.stopflag = false) :
    r.pc ≠ .sleeping true := by
  intro hpc
  rcases h.cases_role with ⟨-, hu⟩ | hi | ⟨cond, -, ha⟩ | ⟨cond, hs⟩
  · have := hu.pc
    simp [hpc] at this
  · have := hi.pc
    simp [hpc] at this
  · have := ha.pc
    simp [hpc, htask] at this
  · simp [hs.stopflag] at hflag

/-- A worker that runs has a task. -/
theorem task_of_running (h : WorkerOk stop r ro) (hpc : r.pc = .running) : r.task ≠ none := by
  rcases h.cases_role with ⟨-, hu⟩ | hi | ⟨cond, -, ha⟩ | ⟨cond, hs⟩
  · have := hu.pc
    simp [hpc] at this
  · have := hi.pc
    simp [hpc] at this
  · have := ha.pc
    simpa [hpc] using this
  · have := hs.pc
    simpa [hpc] using this

/-- The task ends. -/
theorem endTask (h : WorkerOk stop r ro) (hpc : r.pc = .running) :
    WorkerOk stop { r with task := none, pc := .afterRun } ro := by
  refine h.map ?_ ?_ ?_ ?_ (fun _ => rfl)
  · intro hu
    have := hu.pc
    simp [hpc] at this
  · intro hi
    have := hi.pc
    simp [hpc] at this
  · exact fun cond ha => { ha with pc := rfl }
  · intro cond hs
    have := hs.stopped
    rw [hpc] at this
    exact { hs with stopped := by simpa using this, pc := rfl }

/-- After a task, a worker that is not stopped is in `ah` and has no task. -/
theorem afterRun (h : WorkerOk stop r ro) (hpc : r.pc = .afterRun) (hflag : r.stopflag = false) :
    (ro = .busy ∨ ro = .marked) ∧ ∃ cond, Active stop cond r := by
  rcases h.cases_role with ⟨-, hu⟩ | hi | ⟨cond, hro, ha⟩ | ⟨cond, hs⟩
  · have := hu.pc
    simp [hpc] at this
  · have := hi.pc
    simp [hpc] at this
  · exact ⟨hro, cond, ha⟩
  · simp [hs.stopflag] at hflag

/-- After a task, a worker has no task. -/
theorem task_afterRun (h : WorkerOk stop r ro) (hpc : r.pc = .afterRun ∨ r.pc = .ending) :
    r.task = none := by
  rcases h.cases_role with ⟨-, hu⟩ | hi | ⟨cond, -, ha⟩ | ⟨cond, hs⟩
  · exact hu.task
  · exact hi.task
  · have := ha.pc
    rcases hpc with hpc | hpc <;> simp [hpc] at this
    exact this
  · have := hs.pc
    rcases hpc with hpc | hpc <;> simpa [hpc] using this

/-- In a stopped pool `done` leaves the worker in `ah`. -/
theorem done_stopped (h : WorkerOk true r ro) (hpc : r.pc = .afterRun) (hflag : r.stopflag = false) :
    WorkerOk true { r with pc := .top } ro := by
  have hro := (h.afterRun hpc hflag).1
  rcases hro with rfl | rfl
  · exact { (show Active true false r from h) with pc := .inr rfl }
  · exact { (show Active true true r from h) with pc := .inr rfl }

/-- `done` makes the worker idle. -/
theorem done_free (h : WorkerOk stop r .busy) (hpc : r.pc = .afterRun) :
    WorkerOk stop { r with pc := .top } .free := by
  have ha : Active stop false r := h
  exact { task := h.task_afterRun (.inl hpc), stopflag := ha.stopflag, stopCond := ha.stopCond,
          stopped := ha.stopped, pc := .inr (.inl rfl) }

/-- `done` dismisses the worker. -/
theorem done_out (h : WorkerOk stop r .busy) (hpc : r.pc = .afterRun) :
    WorkerOk stop { r with pc := .ending } .out := by
  have ha : Active stop false r := h
  exact { task := h.task_afterRun (.inl hpc), pc := .inr (.inl ⟨rfl, ha.stopCond⟩) }

/-- A worker that is waited for tells that it has ended. -/
theorem ended (h : WorkerOk stop r ro) (hpc : r.pc = .ending) (hcond : r.stopCond = true) :
    WorkerOk stop { r with stopped := true, pc := .ended } ro := by
  have htask := h.task_afterRun (.inr hpc)
  refine h.map ?_ ?_ ?_ ?_ (fun ht => ht)
  · intro hu
    have := hu.pc
    simp [hpc, hcond] at this
  · intro hi
    simp [hi.stopCond] at hcond
  · intro cond ha
    have := ha.pc
    simp [hpc] at this
  · intro cond hs
    have : cond = true := hs.stopCond ▸ hcond
    exact { hs with stopped := by simp, pc := ⟨htask, this⟩ }

/-- A worker that is not waited for deletes itself. -/
theorem gone (h : WorkerOk stop r ro) (hpc : r.pc = .ending) (hcond : r.stopCond = false) :
    WorkerOk stop { r with pc := .gone } ro := by
  have htask := h.task_afterRun (.inr hpc)
  refine h.map ?_ ?_ ?_ ?_ (fun ht => ht)
  · exact fun hu => { hu with pc := .inr (.inr rfl) }
  · intro hi
    have := hi.pc
    simp [hpc] at this
  · intro cond ha
    have := ha.pc
    simp [hpc] at this
  · intro cond hs
    have := hs.stopped
    rw [hpc] at this
    have hc : cond = false := hs.stopCond ▸ hcond
    exact { hs with stopped := by simpa using this, pc := ⟨htask, hc⟩ }

/-- A new thread. -/
theorem newThread (h : WorkerOk stop r .out) (hpc : r.pc = .unborn) (p : Option Nat) :
    Idle { r with pc := .begin, pos := p } := by
  have hu : Unknown r := h
  have := hu.pc
  simp only [hpc, true_and, reduceCtorEq, false_and, or_false] at this
  exact { task := hu.task, stopflag := this.1, stopCond := this.2.1, stopped := this.2.2,
          pc := .inl rfl }

/-- An idle worker gets a task. -/
theorem submit (h : Idle r) (stop : Bool) (k : Nat) :
    WorkerOk stop { r with task := some k, pc := r.pc.signal } .busy := by
  have hpc : ActivePc stop (some k) r.pc.signal := by
    rcases h.pc with hpc | hpc | hpc <;> simp [hpc, WPc.signal]
  exact { stopflag := h.stopflag, stopCond := h.stopCond, stopped := h.stopped, pc := hpc }

/-- An idle worker is stopped. -/
theorem stop_idle (h : Idle r) (stop : Bool) :
    WorkerOk stop { r with stopflag := true, pc := r.pc.signal } .stopped := by
  have hpc : StoppingPc false r.task r.pc.signal ∧ r.pc.signal ≠ .ended := by
    rcases h.pc with hpc | hpc | hpc <;> simp [hpc, WPc.signal]
  exact ⟨{ stopflag := rfl, stopCond := h.stopCond, stopped := by simp [h.stopped, hpc.2],
           pc := hpc.1 }, h.task⟩

/-- A worker in `ah` is stopped. -/
theorem stop_active {cond : Bool} (h : Active stop cond r) :
    Stopping cond { r with stopflag := true, pc := r.pc.signal } := by
  have hpc : StoppingPc cond r.task r.pc.signal ∧ r.pc.signal ≠ .ended := by
    have := h.pc
    cases hr : r.pc with
    | sleeping b => cases b <;> simp [WPc.signal]
    | _ => simp_all [WPc.signal]
  exact { stopflag := rfl, stopCond := h.stopCond, stopped := by simp [h.stopped, hpc.2],
          pc := hpc.1 }

/-- The `stopCond` of a worker is made. -/
theorem mark (h : WorkerOk stop r .busy) : WorkerOk stop { r with stopCond := true } .marked := by
  have ha : Active stop false r := h
  exact { stopflag := ha.stopflag, stopCond := rfl, stopped := ha.stopped, pc := ha.pc }

/-- A worker that is waited for and has ended is deleted. -/
theorem confirm (h : WorkerOk stop r .waited) (hstopped : r.stopped = true) :
    r.pc = .ended ∧ r.task = none ∧ WorkerOk stop { r with pc := .gone } .out := by
  have hs : Stopping true r := h
  have hpc := hs.stopped.mp hstopped
  have htask : r.task = none := by
    have := hs.pc
    rw [hpc] at this
    exact this.1
  exact ⟨hpc, htask, { task := htask, pc := .inr (.inr rfl) }⟩

/-- The pool is stopped. -/
theorem stop_pool (h : WorkerOk stop r ro) : WorkerOk true r ro := by
  have hactive : ∀ cond, Active stop cond r → Active true cond r := by
    intro cond ha
    have := ha.pc
    refine { ha with pc := ?_ }
    cases hr : r.pc with
    | sleeping b => cases b <;> simp_all
    | _ => simp_all
  cases ro with
  | busy => exact hactive _ h
  | marked => exact hactive _ h
  | _ => exact h

/-- An idle worker exists. -/
theorem alive_idle (h : Idle r) : r.pc.alive = true := by
  rcases h.pc with hpc | hpc | hpc <;> simp [hpc, WPc.alive]

/-- A worker in `ah` exists. -/
theorem alive_active {cond : Bool} (h : Active stop cond r) : r.pc.alive = true := by
  have := h.pc
  cases hr : r.pc with
  | sleeping b => rfl
  | _ => simp_all [WPc.alive]

end WorkerOk

/-- All workers are in order. -/
structure Workers (stop detach : Bool) (ah : List Node) (worker : Nat → Worker) (next : Nat)
    (ρ : Nat → Role) : Prop where
  ok : ∀ w, WorkerOk stop (worker w) (ρ w)
  pos : ∀ n ∈ ah, (worker n.worker).pos = some n.id
  unborn : ∀ w, next ≤ w → (worker w).pc = .unborn
  detached : ∀ w, ρ w = .detached → detach = true

namespace Workers

variable {stop detach : Bool} {ah : List Node} {worker : Nat → Worker} {next w : Nat}
  {ρ : Nat → Role} {r : Worker} {ro : Role}

/-- A relation between two families that one worker keeps. -/
theorem forall_update {P : Worker → Role → Prop} (h : ∀ v, P (worker v) (ρ v)) (hw : P r ro) :
    ∀ v, P (Function.update worker w r v) (Function.update ρ w ro v) := by
  intro v
  by_cases hv : v = w
  · subst hv
    rw [Function.update_self, Function.update_self]
    exact hw
  · rw [Function.update_of_ne hv, Function.update_of_ne hv]
    exact h v

theorem lt_next (h : Workers stop detach ah worker next ρ) (hpc : (worker w).pc ≠ .unborn) :
    w < next := by
  by_contra hle
  exact hpc (h.unborn w (by omega))

/-- Nothing is known of the next worker. -/
theorem role_next (h : Workers stop detach ah worker next ρ) : ρ next = .out := by
  have hpc := h.unborn next le_rfl
  rcases (h.ok next).cases_role with ⟨hro, -⟩ | hi | ⟨cond, -, ha⟩ | ⟨cond, hs⟩
  · exact hro
  · have := hi.pc
    simp [hpc] at this
  · have := ha.pc
    simp [hpc] at this
  · have := hs.pc
    simp [hpc] at this

/-- One worker changes, with its role. -/
theorem update (h : Workers stop detach ah worker next ρ) (hok : WorkerOk stop r ro)
    (hpos : r.pos = (worker w).pos) (hborn : (worker w).pc ≠ .unborn)
    (hdet : ro = .detached → detach = true) :
    Workers stop detach ah (Function.update worker w r) next (Function.update ρ w ro) := by
  have hlt := h.lt_next hborn
  refine ⟨forall_update h.ok hok, ?_, ?_, ?_⟩
  · intro n hn
    by_cases hv : n.worker = w
    · rw [hv, Function.update_self, hpos, ← hv]
      exact h.pos n hn
    · rw [Function.update_of_ne hv]
      exact h.pos n hn
  · intro v hv
    rw [Function.update_of_ne (by omega)]
    exact h.unborn v hv
  · exact (Function.forall_update_iff ρ fun _ r => r = .detached → detach = true).mpr
      ⟨hdet, fun v _ => h.detached v⟩

/-- The role of one worker changes. -/
theorem update_role (h : Workers stop detach ah worker next ρ) (hok : WorkerOk stop (worker w) ro)
    (hdet : ro ≠ .detached) : Workers stop detach ah worker next (Function.update ρ w ro) := by
  refine { h with ok := ?_, detached := ?_ }
  · have := forall_update (w := w) h.ok hok
    rwa [Function.update_eq_self] at this
  · exact (Function.forall_update_iff ρ fun _ r => r = .detached → detach = true).mpr
      ⟨fun heq => absurd heq hdet, fun v _ => h.detached v⟩

/-- One worker changes in its role. -/
theorem update_same (h : Workers stop detach ah worker next ρ) (hok : WorkerOk stop r (ρ w))
    (hpos : r.pos = (worker w).pos) (hborn : (worker w).pc ≠ .unborn) :
    Workers stop detach ah (Function.update worker w r) next ρ := by
  have := h.update hok hpos hborn (h.detached w)
  rwa [Function.update_eq_self] at this

/-- A worker that nobody knows gets a thread. -/
theorem newThread (h : Workers stop detach ah worker next ρ) (hok : WorkerOk stop r ro)
    (hnot : next ∉ ah.map Node.worker) (hdet : ro ≠ .detached) :
    Workers stop detach ah (Function.update worker next r) (next + 1) (Function.update ρ next ro) := by
  refine ⟨forall_update h.ok hok, ?_, ?_, ?_⟩
  · intro n hn
    have hv : n.worker ≠ next := fun heq => hnot (heq ▸ List.mem_map_of_mem hn)
    rw [Function.update_of_ne hv]
    exact h.pos n hn
  · intro v hv
    rw [Function.update_of_ne (by omega)]
    exact h.unborn v (by omega)
  · exact (Function.forall_update_iff ρ fun _ r => r = .detached → detach = true).mpr
      ⟨fun heq => absurd heq hdet, fun v _ => h.detached v⟩

/-- A worker that is not in `ah` goes there, and keeps its position. -/
theorem allocate {m : Nat} (h : Workers stop detach ah worker next ρ) (hnot : w ∉ ah.map Node.worker)
    (hborn : (worker w).pc ≠ .unborn) (hidle : Idle (worker w)) :
    Workers stop detach (ah ++ [⟨m, w⟩])
      (Function.update worker w { worker w with pos := some m }) next
      (Function.update ρ w .given) := by
  have hidle' : WorkerOk stop { worker w with pos := some m } .given :=
    (show Idle _ from { hidle with })
  have hlt := h.lt_next hborn
  refine ⟨forall_update h.ok hidle', ?_, ?_, ?_⟩
  · intro n hn
    rcases List.mem_append.mp hn with hn | hn
    · have hv : n.worker ≠ w := fun heq => hnot (heq ▸ List.mem_map_of_mem hn)
      rw [Function.update_of_ne hv]
      exact h.pos n hn
    · rw [List.mem_singleton.mp hn, Function.update_self]
  · intro v hv
    rw [Function.update_of_ne (by omega)]
    exact h.unborn v hv
  · exact (Function.forall_update_iff ρ fun _ r => r = .detached → detach = true).mpr
      ⟨fun heq => absurd heq (by simp), fun v _ => h.detached v⟩

/-- Nodes are taken away. -/
theorem subset {ah' : List Node} (h : Workers stop detach ah worker next ρ)
    (hsub : ∀ n ∈ ah', n ∈ ah) : Workers stop detach ah' worker next ρ :=
  { h with pos := fun n hn => h.pos n (hsub n hn) }

/-- The pool is stopped. -/
theorem stop_pool (h : Workers stop detach ah worker next ρ) (detach' : Bool)
    (hdet : detach = true → detach' = true) : Workers true detach' ah worker next ρ :=
  { h with ok := fun w => (h.ok w).stop_pool, detached := fun w hw => hdet (h.detached w hw) }

end Workers

end Qore.ThreadPool
