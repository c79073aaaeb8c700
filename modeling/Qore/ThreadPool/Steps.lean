import Qore.ThreadPool.Invariant

/-!
# `Qore.ThreadPool.Steps`: the workers and the calls keep the invariant

The lists change outside the thread of the pool only in `done`, under the lock of the pool and
before the pool is stopped. The thread of the pool then has not begun or waits
(`Control.unlocked`), so the lists are those of the stage `serving`. After that the lists are
frozen, and the walks over them are right.

* `done_reached`: `done` keeps the invariant. A worker is dismissed only when nobody waits for it.
* `step_reached`: every step keeps the invariant.
-/

set_option autoImplicit false

namespace Qore.ThreadPool

open State

section
variable {cfg : Config} {s s' : State} {ρ : Nat → Role} {π : Nat → Place} {w k : Nat}
  {worker : Nat → Worker}

/-- A worker does something that is not about a task. -/
theorem Inv.work (h : Inv cfg s ρ π) {r : Worker} (hok : WorkerOk s.stopflag r (ρ w))
    (hpos : r.pos = (s.worker w).pos) (hborn : (s.worker w).pc ≠ .unborn)
    (htask : r.task = (s.worker w).task) (hrun : r.pc = .running ↔ (s.worker w).pc = .running) :
    Reached cfg { s with worker := Function.update s.worker w r } :=
  ⟨ρ, π, { h.control with }, h.lists, h.workers.update_same hok hpos hborn,
    h.tasks.frame htask hrun, h.safe⟩

/-- A worker begins to run its task. -/
theorem Inv.startTask (h : Inv cfg s ρ π) (htask : (s.worker w).task = some k)
    (hpc : (s.worker w).pc = .top ∨ (s.worker w).pc = .sleeping true) :
    Reached cfg (s.startTask w k) := by
  have hborn : (s.worker w).pc ≠ .unborn ∧ (s.worker w).pc ≠ .running := by
    rcases hpc with hpc | hpc <;> simp [hpc]
  refine ⟨ρ, Function.update π k (.running w), { h.control with }, h.lists, ?_, ?_, h.safe⟩
  · exact h.workers.update_same ((h.workers.ok w).start hpc htask) rfl hborn.1
  · refine h.tasks.start (r := { s.worker w with pc := .running }) htask hborn.2 htask rfl ?_ ?_
    · simp [State.history, State.startTask, State.setWorker]
    · intro k' hk'
      simp [State.history, State.startTask, State.setWorker, Function.update_of_ne hk']

/-- A worker has run its task. -/
theorem Inv.endTask (h : Inv cfg s ρ π) (htask : (s.worker w).task = some k)
    (hpc : (s.worker w).pc = .running) : Reached cfg (s.endTask w k) := by
  refine ⟨ρ, Function.update π k (.finished w), { h.control with }, h.lists, ?_, ?_, h.safe⟩
  · exact h.workers.update_same ((h.workers.ok w).endTask hpc) rfl (by simp [hpc])
  · refine h.tasks.finish htask hpc rfl ?_ ?_
    · simp [State.history, State.endTask, State.setWorker]
    · intro k' hk'
      simp [State.history, State.endTask, State.setWorker, Function.update_of_ne hk']

/-- While the pool is not stopped and its thread does not have the lock, it has not begun or it
waits. -/
theorem Control.unlocked (h : Control cfg s) (hlock : s.pc.locked = false)
    (hflag : s.stopflag = false) :
    s.pc = .start ∨ (∃ b, s.pc = .waitTimed b) ∨ (∃ b, s.pc = .waitPlain b) ∨
      ∃ b, s.pc = .waitThread b := by
  have hok := h.pc
  cases hpc : s.pc <;> simp_all [PcOk, Pc.locked]

/-- The stage and the tasks to cancel are then the same. -/
theorem Control.unlocked_like (h : Control cfg s) (hlock : s.pc.locked = false)
    (hflag : s.stopflag = false) : s.pc.stage = .serving ∧ s.pc.toCancel = [] := by
  rcases h.unlocked hlock hflag with hpc | ⟨b, hpc⟩ | ⟨b, hpc⟩ | ⟨b, hpc⟩ <;> simp [hpc]

/-- Two tests that agree on a list take the same element away. -/
theorem eraseP_congr {α : Type} {p q : α → Bool} {l : List α} (h : ∀ x ∈ l, p x = q x) :
    l.eraseP p = l.eraseP q := by
  induction l with
  | nil => rfl
  | cons a l ih =>
    rw [List.eraseP_cons, List.eraseP_cons, h a List.mem_cons_self,
      ih fun x hx => h x (List.mem_cons_of_mem a hx)]

/-- `ah.erase(i)` takes the node of the worker away. -/
theorem erasePos_eq {n : Node} (hnodup : (s.ah.map Node.id).Nodup) (hn : n ∈ s.ah)
    (hpos : (s.worker w).pos = some n.id) : s.erasePos w = { s with ah := s.ah.erase n } := by
  have hany : (s.ah.any fun x => some x.id == (s.worker w).pos) = true := by
    rw [hpos]
    exact List.any_eq_true.mpr ⟨n, hn, by simp⟩
  have herase : (s.ah.eraseP fun x => some x.id == (s.worker w).pos) = s.ah.erase n := by
    rw [hpos, List.erase_eq_eraseP']
    refine eraseP_congr fun x hx => ?_
    by_cases heq : x = n
    · simp [heq]
    · have : x.id ≠ n.id := fun hid => heq (List.inj_on_of_nodup_map hnodup hx hn hid)
      simp [heq, this]
  unfold State.erasePos
  dsimp only
  rw [check_of s hany, herase]

/-- A worker that has run its task, in a pool that is not stopped, has a node in `ah`. -/
theorem Inv.node_afterRun (h : Inv cfg s ρ π) (hpc : (s.worker w).pc = .afterRun)
    (hwflag : (s.worker w).stopflag = false) (hlock : s.pc.locked = false)
    (hflag : s.stopflag = false) :
    ρ w = .busy ∧ ∃ n ∈ s.ah, n.worker = w ∧ (s.worker w).pos = some n.id := by
  have hlists := h.lists
  rw [(h.control.unlocked_like hlock hflag).1] at hlists
  have hbusy : ρ w = .busy := by
    rcases ((h.workers.ok w).afterRun hpc hwflag).1 with hro | hro
    · exact hro
    · have := (hlists.role w .marked rfl).mp hro
      simp at this
  have hmem := ((hlists.role w .busy rfl).mp hbusy).1
  obtain ⟨n, hn, rfl⟩ := List.mem_map.mp hmem
  exact ⟨hbusy, n, hn, rfl, h.workers.pos n hn⟩

/-- `done` leaves the flags alone. A wait for a thread is signalled. -/
theorem Control.requeue (h : Control cfg s) (hlock : s.pc.locked = false)
    (hflag : s.stopflag = false) {n : Node} (hn : n ∈ s.ah) {pc : Pc}
    (hsignal : pc = s.pc.signal ∨ pc = s.pc ∧ s.waiting = false) :
    Control cfg { s with ah := s.ah.erase n, fh := s.fh ++ [w], pc := pc, worker := worker } := by
  have hlength := List.length_erase_of_mem hn
  have hpos := List.length_pos_of_mem hn
  have hwait : pc.waitsForThread = s.pc.waitsForThread := by
    rcases hsignal with rfl | ⟨rfl, -⟩ <;> simp only [Pc.signal_waitsForThread]
  have hstop : pc.hasStopped = s.pc.hasStopped := by
    rcases hsignal with rfl | ⟨rfl, -⟩ <;> simp only [Pc.signal_hasStopped]
  refine { h with waiting := hwait ▸ h.waiting, stopped := hstop ▸ h.stopped, pc := ?_, bound := ?_ }
  · have hok := h.pc
    have hw := h.waiting
    rcases h.unlocked hlock hflag with hpc | ⟨b, hpc⟩ | ⟨b, hpc⟩ | ⟨b, hpc⟩
    · simp only [PcOk, hpc] at hok
      simp [hok.1] at hn
    all_goals
      rcases hsignal with rfl | ⟨rfl, hw'⟩ <;> simp_all [PcOk, Pc.signal]
  · intro hcfg
    have := h.bound hcfg
    show cfg.max = 0 ∨ (s.ah.erase n).length + (s.fh ++ [w]).length ≤ cfg.max
    simp only [List.length_append, List.length_cons, List.length_nil]
    omega

/-- A worker is dismissed only when the thread of the pool does not wait for one. -/
theorem Control.dismiss (h : Control cfg s) (hlock : s.pc.locked = false)
    (hflag : s.stopflag = false) {n : Node} (hn : n ∈ s.ah) (hreq : s.requeues cfg = false) :
    Control cfg { s with ah := s.ah.erase n, worker := worker } := by
  have hlength := List.length_erase_of_mem hn
  refine { h with pc := ?_, bound := ?_ }
  · have hok := h.pc
    rcases h.unlocked hlock hflag with hpc | ⟨b, hpc⟩ | ⟨b, hpc⟩ | ⟨b, hpc⟩
    · simp only [PcOk, hpc] at hok
      simp [hok.1] at hn
    · simpa only [PcOk, hpc] using hok
    · simpa only [PcOk, hpc] using hok
    · simp only [PcOk, hpc] at hok ⊢
      refine ⟨hok.1, fun hb => ?_⟩
      -- there is a task, and no idle worker
      have hcan := (hok.2 hb).2
      have hfh : s.fh = [] := by
        simp only [canAllocate, Bool.or_eq_false_iff] at hcan
        simpa using hcan.1.1
      have hq : s.q = [] := by
        simp only [requeues, hfh, Bool.or_eq_false_iff] at hreq
        simpa using hreq.2
      exact absurd hq hok.1
  · intro hcfg
    have := h.bound hcfg
    show cfg.max = 0 ∨ (s.ah.erase n).length + s.fh.length ≤ cfg.max
    omega

/-- `done` keeps the invariant. -/
theorem done_reached (h : Inv cfg s ρ π) (hpc : (s.worker w).pc = .afterRun)
    (hwflag : (s.worker w).stopflag = false) (hlock : s.pc.locked = false) :
    Reached cfg (s.done cfg w) := by
  unfold State.done
  split
  · rename_i hflag
    have hok := h.workers.ok w
    rw [hflag] at hok
    have hok' := hok.done_stopped hpc hwflag
    rw [← hflag] at hok'
    exact h.work hok' rfl (by simp [hpc]) rfl (by simp [hpc])
  rename_i hflag
  have hflag : s.stopflag = false := by simpa using hflag
  obtain ⟨hbusy, n, hn, rfl, hpos⟩ := h.node_afterRun hpc hwflag hlock hflag
  rw [erasePos_eq h.lists.nodupId hn hpos]
  dsimp only
  have hlike := h.control.unlocked_like hlock hflag
  have hlists := h.lists
  rw [hlike.1] at hlists
  have hok := h.workers.ok n.worker
  rw [hbusy] at hok
  have herase := hlists.erase hn
  split
  · -- back to the idle list
    have hfree := herase.addIdle (w := n.worker) (by simp)
    rw [Function.update_idem] at hfree
    have hsub : ∀ x ∈ s.ah.erase n, x ∈ s.ah := fun x hx => List.mem_of_mem_erase hx
    have hworkers := (h.workers.subset hsub).update (hok.done_free hpc) rfl (by simp [hpc]) (by simp)
    have htasks := h.tasks.frame (w := n.worker) (r := { s.worker n.worker with pc := .top }) rfl
      (by simp [hpc])
    split
    · refine ⟨_, π, h.control.requeue hlock hflag hn (.inl rfl), ?_, hworkers, ?_, h.safe⟩
      · show Lists s.pc.signal.stage _ _ _ _
        rw [Pc.signal_stage, hlike.1]
        exact hfree
      · show Tasks _ s.pc.signal.toCancel _ _ _ _ _
        rw [Pc.signal_toCancel]
        exact htasks
    · rename_i hsig
      simp only [signalsDone, Bool.or_eq_true, not_or] at hsig
      refine ⟨_, π, h.control.requeue hlock hflag hn (.inr ⟨rfl, by simpa using hsig.1⟩), ?_, hworkers,
        htasks, h.safe⟩
      show Lists s.pc.stage _ _ _ _
      rw [hlike.1]
      exact hfree
  · rename_i hreq
    refine ⟨Function.update ρ n.worker .out, π,
      h.control.dismiss hlock hflag hn ((Bool.not_eq_true _).mp hreq), ?_, ?_, ?_, h.safe⟩
    · show Lists s.pc.stage _ _ _ _
      rw [hlike.1]
      exact herase
    · exact (h.workers.subset fun x hx => List.mem_of_mem_erase hx).update (hok.done_out hpc) rfl
        (by simp [hpc]) (by simp)
    · exact h.tasks.frame rfl (by simp [hpc])

/-- Every step of a worker keeps the invariant. -/
theorem workerStep_reached (h : Reached cfg s) (hstep : s.workerStep cfg w = some s') :
    Reached cfg s' := by
  obtain ⟨ρ, π, h⟩ := h
  have hok := h.workers.ok w
  cases hpc : (s.worker w).pc with
  | unborn | ended | gone => simp [State.workerStep, hpc] at hstep
  | begin =>
    simp only [State.workerStep, hpc] at hstep
    obtain rfl := Option.some.inj hstep
    exact h.work (hok.top hpc) rfl (by simp [hpc]) rfl (by simp [hpc])
  | top =>
    simp only [State.workerStep, hpc] at hstep
    split at hstep
    · obtain rfl := Option.some.inj hstep
      exact h.startTask ‹_› (.inl hpc)
    · rename_i htask
      split at hstep
      · obtain rfl := Option.some.inj hstep
        exact h.work (hok.leave (.inl hpc) htask ‹_›) rfl (by simp [hpc]) rfl (by simp [hpc])
      · rename_i hflag
        obtain rfl := Option.some.inj hstep
        exact h.work (hok.sleep hpc htask (by simpa using hflag)) rfl (by simp [hpc]) rfl
          (by simp [hpc])
  | sleeping signalled =>
    cases signalled with
    | false => simp [State.workerStep, hpc] at hstep
    | true =>
      simp only [State.workerStep, hpc, if_true] at hstep
      split at hstep
      · obtain rfl := Option.some.inj hstep
        exact h.startTask ‹_› (.inr hpc)
      · rename_i htask
        split at hstep
        · obtain rfl := Option.some.inj hstep
          exact h.work (hok.leave (.inr (.inl hpc)) htask ‹_›) rfl (by simp [hpc]) rfl (by simp [hpc])
        · rename_i hflag
          exact absurd hpc (hok.not_sleeping_true htask (by simpa using hflag))
  | running =>
    simp only [State.workerStep, hpc] at hstep
    split at hstep
    · obtain rfl := Option.some.inj hstep
      exact h.endTask ‹_› hpc
    · exact absurd ‹_› (hok.task_of_running hpc)
  | afterRun =>
    simp only [State.workerStep, hpc] at hstep
    split at hstep
    · obtain rfl := Option.some.inj hstep
      exact h.work (hok.leave (.inr (.inr hpc)) (hok.task_afterRun (.inl hpc)) ‹_›) rfl
        (by simp [hpc]) rfl (by simp [hpc])
    · rename_i hflag
      split at hstep
      · exact absurd hstep (by simp)
      · rename_i hlock
        obtain rfl := Option.some.inj hstep
        exact done_reached h hpc (by simpa using hflag) (by simpa using hlock)
  | ending =>
    simp only [State.workerStep, hpc] at hstep
    split at hstep
    · obtain rfl := Option.some.inj hstep
      exact h.work (hok.ended hpc ‹_›) rfl (by simp [hpc]) rfl (by simp [hpc])
    · rename_i hcond
      obtain rfl := Option.some.inj hstep
      rw [check_of s (by simp [hok.task_afterRun (.inr hpc)])]
      exact h.work (hok.gone hpc (by simpa using hcond)) rfl (by simp [hpc]) rfl (by simp [hpc])

/-- `submit` keeps the invariant. -/
theorem submit_reached (h : Inv cfg s ρ π) (hlock : s.pc.locked = false) :
    Reached cfg s.submit.1 := by
  unfold State.submit
  split
  · exact ⟨ρ, π, h⟩
  rename_i hshutdown
  have hflag : s.stopflag = false := by
    by_contra hflag
    have := h.control.shutdown (by simpa using hflag)
    simp [hshutdown] at this
  -- the queue is empty, and a wait for a task is signalled, or it is not empty
  have hsig : ∃ pc, pc = (if s.q.isEmpty then s.pc.signal else s.pc) ∧ pc.Like s.pc := by
    refine ⟨_, rfl, ?_⟩
    split
    · exact s.pc.signal_like
    · exact ⟨rfl, rfl, rfl, rfl⟩
  obtain ⟨pc, hpc, hstage, hcl, hwait, hstop⟩ := hsig
  rw [← hpc]
  refine ⟨ρ, Function.update π s.nextTask .queued, ?_, ?_, { h.workers with }, ?_, h.safe⟩
  · refine { h.control with
             queue := ?_, waiting := hwait ▸ h.control.waiting, stopped := hstop ▸ h.control.stopped
             pc := ?_ }
    · intro hflag'
      simp [hflag] at hflag'
    · have hok := h.control.pc
      rcases h.control.unlocked hlock hflag with hpc' | ⟨b, hpc'⟩ | ⟨b, hpc'⟩ | ⟨b, hpc'⟩
      all_goals
        subst hpc
        by_cases hq : s.q = [] <;> simp_all [PcOk, Pc.signal, canAllocate]
  · show Lists pc.stage _ _ _ _
    rw [hstage]
    exact h.lists
  · show Tasks _ pc.toCancel _ _ _ _ _
    rw [hcl]
    exact h.tasks.submit

/-- The flags that a call sets, with the signal that it sends. -/
theorem Inv.shutdown (h : Inv cfg s ρ π) (hlock : s.pc.locked = false) (hflag : s.stopflag = false)
    (detach stopflag stopCalled : Bool)
    (hdet : detach = true → stopflag = true ∧ stopCalled = true)
    (hdet' : stopflag = true → detach = true) :
    Inv cfg { s with
      detach := detach, shutdown := true, stopflag := stopflag, stopCalled := stopCalled
      pc := s.pc.signal } ρ π := by
  have hnot : s.detach = true → detach = true := by
    intro hd
    have := (h.control.detach hd).1
    simp [hflag] at this
  refine ⟨?_, ?_, ?_, ?_, h.safe⟩
  · refine { h.control with
             detach := hdet, shutdown := fun _ => rfl, queue := ?_
             waiting := by rw [Pc.signal_waitsForThread]; exact h.control.waiting
             stopped := by rw [Pc.signal_hasStopped]; exact h.control.stopped
             pc := ?_ }
    · intro hf hd
      simp [hdet' hf] at hd
    · have hok := h.control.pc
      rcases h.control.unlocked hlock hflag with hpc | ⟨b, hpc⟩ | ⟨b, hpc⟩ | ⟨b, hpc⟩ <;>
        simp_all [PcOk, Pc.signal]
  · show Lists s.pc.signal.stage _ _ _ _
    rw [Pc.signal_stage]
    exact h.lists
  · cases hs : stopflag with
    | true => exact h.workers.stop_pool _ hnot
    | false =>
      have hw := h.workers
      rw [hflag] at hw
      exact { hw with detached := fun w hw' => hnot (h.workers.detached w hw') }
  · show Tasks _ s.pc.signal.toCancel _ _ _ _ _
    rw [Pc.signal_toCancel]
    exact h.tasks.detach_mono hnot

/-- `stop` keeps the invariant. -/
theorem stop_reached (h : Inv cfg s ρ π) (hlock : s.pc.locked = false) : Reached cfg s.stop := by
  unfold State.stop
  dsimp only
  split
  · refine ⟨ρ, π, ?_, h.lists, { h.workers with }, h.tasks, h.safe⟩
    exact { h.control with detach := fun hd => ⟨(h.control.detach hd).1, rfl⟩ }
  · rename_i hflag
    have := h.shutdown hlock (by simpa using hflag) true true true (fun _ => ⟨rfl, rfl⟩) (fun _ => rfl)
    exact ⟨ρ, π, { this.control with }, this.lists, this.workers, this.tasks, this.safe⟩

/-- `stopWait` keeps the invariant. -/
theorem stopWait_reached (h : Inv cfg s ρ π) (hlock : s.pc.locked = false) :
    Reached cfg s.stopWait.1 := by
  unfold State.stopWait
  dsimp only
  split
  · exact ⟨ρ, π, h⟩
  split
  · exact ⟨ρ, π, { h.control with }, h.lists, h.workers, h.tasks, h.safe⟩
  · rename_i hshutdown
    have hflag : s.stopflag = false := by
      by_contra hflag
      exact hshutdown (h.control.shutdown (by simpa using hflag))
    have := h.shutdown hlock hflag s.detach s.stopflag s.stopCalled h.control.detach (by simp [hflag])
    exact ⟨ρ, π, { this.control with }, this.lists, this.workers, this.tasks, this.safe⟩

/-- Every step keeps the invariant. -/
theorem step_reached {a : Action} {o : Out} (h : Reached cfg s)
    (hstep : step cfg s a = some (s', o)) : Reached cfg s' := by
  cases a with
  | pool b =>
    obtain ⟨t, ht, heq⟩ := Option.map_eq_some_iff.mp hstep
    obtain ⟨rfl, -⟩ := Prod.mk.inj heq
    exact poolStep_reached h ht
  | worker w =>
    obtain ⟨t, ht, heq⟩ := Option.map_eq_some_iff.mp hstep
    obtain ⟨rfl, -⟩ := Prod.mk.inj heq
    exact workerStep_reached h ht
  | submit =>
    obtain ⟨ρ, π, h⟩ := h
    simp only [step] at hstep
    split at hstep
    · exact absurd hstep (by simp)
    rename_i hlock
    have hreached := submit_reached h (by simpa using hlock)
    split at hstep
    all_goals
      rename_i t _ heq
      rw [heq] at hreached
      obtain ⟨rfl, -⟩ := Prod.mk.inj (Option.some.inj hstep)
      exact hreached
  | stop =>
    obtain ⟨ρ, π, h⟩ := h
    simp only [step] at hstep
    split at hstep
    · exact absurd hstep (by simp)
    rename_i hlock
    obtain ⟨rfl, -⟩ := Prod.mk.inj (Option.some.inj hstep)
    exact stop_reached h (by simpa using hlock)
  | stopWait =>
    obtain ⟨ρ, π, h⟩ := h
    simp only [step] at hstep
    split at hstep
    · exact absurd hstep (by simp)
    rename_i hlock
    have hreached := stopWait_reached h (by simpa using hlock)
    split at hstep
    all_goals
      rename_i t _ heq
      rw [heq] at hreached
      obtain ⟨rfl, -⟩ := Prod.mk.inj (Option.some.inj hstep)
      exact hreached
  | stopReturn | stopWaitReturn =>
    obtain ⟨ρ, π, h⟩ := h
    simp only [step] at hstep
    split at hstep
    · exact absurd hstep (by simp)
    obtain ⟨rfl, -⟩ := Prod.mk.inj (Option.some.inj hstep)
    exact ⟨ρ, π, { h.control with }, h.lists, h.workers, h.tasks, h.safe⟩

/-- A new pool. -/
theorem init_reached (cfg : Config) : Reached cfg State.init := by
  refine ⟨fun _ => .out, fun _ => .fresh, ?_, ?_, ?_, ?_, rfl⟩
  · constructor <;> simp [State.init, PcOk]
  · constructor
    · intro w r hr
      cases r <;> simp_all [State.init]
    all_goals simp [State.init]
  · constructor
    · intro w
      exact { task := rfl, pc := .inl ⟨rfl, rfl, rfl, rfl⟩ }
    all_goals simp [State.init]
  · constructor
    · intro k p hp
      cases p <;> simp_all [State.init]
    all_goals simp [State.init, State.history]

end

end Qore.ThreadPool
