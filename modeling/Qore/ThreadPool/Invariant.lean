import Qore.ThreadPool.Tasks

/-!
# `Qore.ThreadPool.Invariant`: what holds in every state of a pool

`Inv` has five parts: `Control` (the flags, the place of the thread of the pool, the number of
workers), `Lists`, `Workers`, `Tasks`, and that no assertion has failed. `PcOk` says what holds at
each place; for a wait without a signal it says that there is nothing to do.

The steps of the thread of the pool keep it (`poolStep_reached`), with one lemma for each place.
A step that only goes to another place is `Inv.move`, and one that acts on a worker is `Inv.act`.
-/

set_option autoImplicit false

namespace Qore.ThreadPool

open State

/-- The thread of the pool is in `getThreadUnlocked` and waits. -/
@[simp] def Pc.waitsForThread : Pc → Bool
  | .waitThread _ => true
  | _ => false

/-- The thread of the pool has set `stopped`. -/
@[simp] def Pc.hasStopped : Pc → Bool
  | .cancel _ | .dead => true
  | _ => false

@[simp] theorem Pc.signal_waitsForThread (pc : Pc) : pc.signal.waitsForThread = pc.waitsForThread := by
  cases pc <;> rfl

@[simp] theorem Pc.signal_hasStopped (pc : Pc) : pc.signal.hasStopped = pc.hasStopped := by
  cases pc <;> rfl

/-- What holds at the place of the thread of the pool. A wait that is not signalled has nothing to
do. -/
def PcOk (cfg : Config) (s : State) : Prop :=
  match s.pc with
  | .start => s.ah = [] ∧ s.fh = []
  | .init i => s.ah = [] ∧ s.fh.length ≤ i ∧ i ≤ cfg.minidle
  | .waitTimed signalled => s.fh ≠ [] ∧ (signalled = false → s.q = [] ∧ s.shutdown = false)
  | .waitPlain signalled => signalled = false → s.q = [] ∧ s.shutdown = false
  | .getThread => s.q ≠ []
  | .waitThread signalled => s.q ≠ [] ∧
      (signalled = false → s.stopflag = false ∧ s.canAllocate cfg = false)
  | .give w => s.q ≠ [] ∧ s.stopflag = false ∧ w ∈ s.ah.map Node.worker
  | .stopFree _ | .choose | .finish => s.stopflag = true
  | .stopBusy _ => s.stopflag = true ∧ s.detach = true
  | .stopWait _ | .stopConfirm _ => s.stopflag = true
  | .stopWaitLock rest => s.stopflag = true ∧ rest ≠ []
  | .cancel _ | .dead => s.stopflag = true ∧ s.q = [] ∧ s.ah = [] ∧ s.fh = []
  | _ => True

/-- The flags of the pool, the place of its thread, and the number of its workers. -/
structure Control (cfg : Config) (s : State) : Prop where
  detach : s.detach = true → s.stopflag = true ∧ s.stopCalled = true
  shutdown : s.stopflag = true → s.shutdown = true
  queue : s.stopflag = true → s.detach = false → s.q = []
  waiting : s.waiting = s.pc.waitsForThread
  stopped : s.stopped = s.pc.hasStopped
  pc : PcOk cfg s
  bound : cfg.max = 0 ∨ cfg.minidle ≤ cfg.max → cfg.max = 0 ∨ s.ah.length + s.fh.length ≤ cfg.max

/-- What holds in every state, with the roles of the workers and the places of the tasks. -/
structure Inv (cfg : Config) (s : State) (ρ : Nat → Role) (π : Nat → Place) : Prop where
  control : Control cfg s
  lists : Lists s.pc.stage s.ah s.fh s.nextNode ρ
  workers : Workers s.stopflag s.detach s.ah s.worker s.nextWorker ρ
  tasks : Tasks s.q s.pc.toCancel s.worker s.nextTask s.detach s.history π
  safe : s.failed = false

/-- There are roles and places. -/
def Reached (cfg : Config) (s : State) : Prop := ∃ ρ π, Inv cfg s ρ π

section
variable {cfg : Config} {s s' : State} {ρ : Nat → Role} {π : Nat → Place} {b : Bool} {w : Nat}
  {pc : Pc} {signalled : Bool} {rest : List Node}

/-- The thread of the pool goes to another place. -/
theorem Control.goto (h : Control cfg s) (pc : Pc) (hwait : pc.waitsForThread = s.pc.waitsForThread)
    (hstop : pc.hasStopped = s.pc.hasStopped) (hpc : PcOk cfg { s with pc := pc }) :
    Control cfg { s with pc := pc } :=
  { h with waiting := hwait ▸ h.waiting, stopped := hstop ▸ h.stopped, pc := hpc }

theorem Inv.goto (h : Inv cfg s ρ π) (pc : Pc) (hstage : pc.stage = s.pc.stage)
    (hcl : pc.toCancel = s.pc.toCancel) (hctl : Control cfg { s with pc := pc }) :
    Reached cfg { s with pc := pc } := by
  refine ⟨ρ, π, hctl, ?_, { h.workers with }, ?_, h.safe⟩
  · show Lists pc.stage _ _ _ _
    rw [hstage]
    exact h.lists
  · show Tasks _ pc.toCancel _ _ _ _ _
    rw [hcl]
    exact h.tasks

/-- Two places that differ for no list, no task and no flag. -/
def Pc.Like (pc pc' : Pc) : Prop :=
  pc.stage = pc'.stage ∧ pc.toCancel = pc'.toCancel ∧ pc.waitsForThread = pc'.waitsForThread ∧
    pc.hasStopped = pc'.hasStopped

theorem Pc.signal_like (pc : Pc) : pc.signal.Like pc :=
  ⟨pc.signal_stage, pc.signal_toCancel, pc.signal_waitsForThread, pc.signal_hasStopped⟩

/-- The thread of the pool goes to a place like the one before. -/
theorem Inv.move (h : Inv cfg s ρ π) {pc' : Pc} (hpc : s.pc = pc') (hlike : pc.Like pc')
    (hok : PcOk cfg { s with pc := pc }) : Reached cfg { s with pc := pc } := by
  subst hpc
  exact h.goto pc hlike.1 hlike.2.1 (h.control.goto pc hlike.2.2.1 hlike.2.2.2 hok)

/-- An assertion that holds changes nothing. -/
theorem check_of (s : State) (h : b = true) : s.check b = s := by
  subst h
  cases s
  simp [State.check]

theorem addIdleWorker_eq (s : State) :
    s.addIdleWorker = { s with
      worker := Function.update s.worker s.nextWorker
        { s.worker s.nextWorker with pc := .begin, pos := none }
      nextWorker := s.nextWorker + 1
      fh := s.fh ++ [s.nextWorker] } := by
  simp [State.addIdleWorker, State.newThread, State.setWorker]

theorem newThread_allocate_eq (s : State) :
    s.newThread.allocate s.nextWorker = { s with
      worker := Function.update s.worker s.nextWorker
        { s.worker s.nextWorker with pc := .begin, pos := some s.nextNode }
      nextWorker := s.nextWorker + 1
      ah := s.ah ++ [⟨s.nextNode, s.nextWorker⟩]
      nextNode := s.nextNode + 1 } := by
  simp [State.allocate, State.newThread, State.setWorker]

/-- A step of the first loop, or of the loop that adds idle workers. -/
theorem Inv.addIdleWorker (h : Inv cfg s ρ π) (hstage : s.pc.stage = .serving)
    (hstage' : pc.stage = .serving) (hcl : pc.toCancel = s.pc.toCancel)
    (hctl : Control cfg { s.addIdleWorker with pc := pc }) :
    Reached cfg { s.addIdleWorker with pc := pc } := by
  have hout := h.workers.role_next
  have hlists := h.lists
  rw [hstage] at hlists
  have hnot := hlists.not_mem_of_role (w := s.nextWorker) (by simp [hout])
  have hunborn := h.workers.unborn s.nextWorker le_rfl
  have hok := h.workers.ok s.nextWorker
  rw [hout] at hok
  have hidle := hok.newThread hunborn none
  rw [addIdleWorker_eq] at hctl ⊢
  refine ⟨Function.update ρ s.nextWorker .free, π, hctl, ?_, ?_, ?_, h.safe⟩
  · show Lists pc.stage _ _ _ _
    rw [hstage']
    exact hlists.addIdle hout
  · exact h.workers.newThread hidle hnot (by simp)
  · show Tasks _ pc.toCancel _ _ _ _ _
    rw [hcl]
    exact h.tasks.frame rfl (by simp [hunborn])

/-- A new idle worker in the first loop. -/
theorem Control.addIdle_init (h : Control cfg s) {i : Nat} (hpc : s.pc = .init i)
    (hi : i < cfg.minidle) : Control cfg { s.addIdleWorker with pc := .init (i + 1) } := by
  have hok := h.pc
  simp only [PcOk, hpc] at hok
  have hwait := h.waiting
  have hstop := h.stopped
  rw [hpc] at hwait hstop
  rw [addIdleWorker_eq]
  refine { h with waiting := hwait, stopped := hstop, pc := ?_, bound := ?_ }
  · simp only [PcOk, List.length_append, List.length_singleton]
    exact ⟨hok.1, by omega, by omega⟩
  · intro hcfg
    simp only [hok.1, List.length_append, List.length_singleton, List.length_nil]
    omega

theorem poolStep_init (h : Inv cfg s ρ π) {i : Nat} (hpc : s.pc = .init i)
    (hstep : s.poolStep cfg b = some s') : Reached cfg s' := by
  simp only [State.poolStep, hpc] at hstep
  split at hstep
  · rename_i hi
    split at hstep
    · obtain rfl := Option.some.inj hstep
      exact h.addIdleWorker (by rw [hpc]; rfl) rfl (by rw [hpc]; rfl) (h.control.addIdle_init hpc hi)
    · obtain rfl := Option.some.inj hstep
      exact h.move hpc ⟨rfl, rfl, rfl, rfl⟩ trivial
  · obtain rfl := Option.some.inj hstep
    exact h.move hpc ⟨rfl, rfl, rfl, rfl⟩ trivial

/-- The pool is stopped, and the walk over `fh` begins. -/
theorem Inv.stopFree (h : Inv cfg s ρ π) (hpc : s.pc = pc) (hlike : pc.Like .loop)
    (hflag : s.stopflag = true) :
    Reached cfg { s with pc := .stopFree s.fh } := by
  subst hpc
  have hlists := h.lists
  have htasks := h.tasks
  rw [hlike.1] at hlists
  rw [hlike.2.1] at htasks
  refine ⟨ρ, π, ?_, hlists.stopFree_start, { h.workers with }, htasks, h.safe⟩
  exact { h.control with
          waiting := h.control.waiting.trans hlike.2.2.1
          stopped := h.control.stopped.trans hlike.2.2.2, pc := hflag }

theorem poolStep_loop (h : Inv cfg s ρ π) (hpc : s.pc = .loop)
    (hstep : s.poolStep cfg b = some s') : Reached cfg s' := by
  simp only [State.poolStep, hpc] at hstep
  split at hstep
  · rename_i hflag
    obtain rfl := Option.some.inj hstep
    exact h.stopFree hpc ⟨rfl, rfl, rfl, rfl⟩ hflag
  split at hstep
  · rename_i hq
    have hq : s.q = [] := List.isEmpty_iff.mp hq
    split at hstep
    · rename_i hshutdown
      obtain rfl := Option.some.inj hstep
      -- the flag is set before the walk
      have hctl := h.control
      have hinv : Inv cfg { s with stopflag := true } ρ π :=
        { control := { hctl with
            detach := fun hdet => ⟨rfl, (hctl.detach hdet).2⟩
            shutdown := fun _ => hshutdown
            queue := fun _ _ => hq
            pc := by simp [PcOk, hpc] }
          lists := h.lists
          workers := h.workers.stop_pool _ id
          tasks := h.tasks
          safe := h.safe }
      exact hinv.stopFree hpc ⟨rfl, rfl, rfl, rfl⟩ rfl
    · rename_i hshutdown
      have hshutdown : s.shutdown = false := by simpa using hshutdown
      split at hstep
      · rename_i hrel
        obtain rfl := Option.some.inj hstep
        refine h.move hpc ⟨rfl, rfl, rfl, rfl⟩ ⟨?_, fun _ => ⟨hq, hshutdown⟩⟩
        intro (hnil : s.fh = [])
        have := hrel.2
        simp [hnil] at this
      · obtain rfl := Option.some.inj hstep
        exact h.move hpc ⟨rfl, rfl, rfl, rfl⟩ (fun _ => ⟨hq, hshutdown⟩)
  · obtain rfl := Option.some.inj hstep
    exact h.move hpc ⟨rfl, rfl, rfl, rfl⟩ trivial

theorem poolStep_waitTimed (h : Inv cfg s ρ π) (hpc : s.pc = .waitTimed signalled)
    (hstep : s.poolStep cfg b = some s') : Reached cfg s' := by
  simp only [State.poolStep, hpc] at hstep
  have hok := h.control.pc
  simp only [PcOk, hpc] at hok
  split at hstep
  · split at hstep
    · split at hstep
      · exact absurd ‹s.fh = []› hok.1
      · rename_i w fh hfh
        obtain rfl := Option.some.inj hstep
        have hlists := h.lists
        have htasks := h.tasks
        rw [hpc] at hlists htasks
        rw [hfh] at hlists
        have hwait := h.control.waiting
        have hstop := h.control.stopped
        have hbound := h.control.bound
        rw [hpc] at hwait hstop
        rw [hfh] at hbound
        have hfree : ρ w = .free := (hlists.role w .free rfl).mpr List.mem_cons_self
        refine ⟨Function.update ρ w .releasing, π, ?_, hlists.release, ?_, htasks, h.safe⟩
        · refine { h.control with waiting := hwait, stopped := hstop, pc := trivial, bound := ?_ }
          intro hcfg
          have := hbound hcfg
          simp only [List.length_cons] at this
          show cfg.max = 0 ∨ s.ah.length + fh.length ≤ cfg.max
          omega
        · have hidle := h.workers.ok w
          rw [hfree] at hidle
          exact h.workers.update_role hidle (by simp)
    · obtain rfl := Option.some.inj hstep
      exact h.move hpc ⟨rfl, rfl, rfl, rfl⟩ trivial
  · split at hstep
    · obtain rfl := Option.some.inj hstep
      exact h.move hpc ⟨rfl, rfl, rfl, rfl⟩ trivial
    · exact absurd hstep (by simp)

theorem poolStep_waitPlain (h : Inv cfg s ρ π) (hpc : s.pc = .waitPlain signalled)
    (hstep : s.poolStep cfg b = some s') : Reached cfg s' := by
  simp only [State.poolStep, hpc] at hstep
  split at hstep
  · obtain rfl := Option.some.inj hstep
    exact h.move hpc ⟨rfl, rfl, rfl, rfl⟩ trivial
  · exact absurd hstep (by simp)

/-- The thread of the pool does something with a worker that is not about a task. -/
theorem Inv.act (h : Inv cfg s ρ π) {r : Worker} {ro : Role} (pc : Pc)
    (hlists : Lists pc.stage s.ah s.fh s.nextNode (Function.update ρ w ro))
    (hok : WorkerOk s.stopflag r ro) (hpos : r.pos = (s.worker w).pos)
    (hborn : (s.worker w).pc ≠ .unborn) (hdet : ro = .detached → s.detach = true)
    (htask : r.task = (s.worker w).task) (hrun : r.pc = .running ↔ (s.worker w).pc = .running)
    (hcl : pc.toCancel = s.pc.toCancel) (hctl : Control cfg { s with pc := pc }) :
    Reached cfg { s with worker := Function.update s.worker w r, pc := pc } := by
  refine ⟨Function.update ρ w ro, π, { hctl with }, hlists, ?_, ?_, h.safe⟩
  · exact h.workers.update hok hpos hborn hdet
  · show Tasks _ pc.toCancel _ _ _ _ _
    rw [hcl]
    exact h.tasks.frame htask hrun

theorem WPc.signal_eq_running (pc : WPc) : pc.signal = .running ↔ pc = .running := by
  cases pc <;> simp [WPc.signal]

/-- `ThreadPoolThread::stop` on a worker that exists and is not stopped. -/
theorem stopWorker_eq (s : State) (halive : (s.worker w).pc.alive = true)
    (hflag : (s.worker w).stopflag = false) :
    s.stopWorker w = { s with
      worker := Function.update s.worker w
        { s.worker w with stopflag := true, pc := (s.worker w).pc.signal } } := by
  unfold State.stopWorker
  dsimp only
  rw [check_of s (by simp [halive, hflag])]
  rfl

theorem Workers.ne_unborn {r : Worker} (h : r.pc.alive = true) : r.pc ≠ .unborn := by
  intro heq
  simp [heq, WPc.alive] at h

theorem poolStep_release (h : Inv cfg s ρ π) (hpc : s.pc = .release w)
    (hstep : s.poolStep cfg b = some s') : Reached cfg s' := by
  simp only [State.poolStep, hpc] at hstep
  split at hstep
  · exact absurd hstep (by simp)
  obtain rfl := Option.some.inj hstep
  have hlists := h.lists
  rw [hpc] at hlists
  have hrole : ρ w = .releasing := (hlists.role w .releasing rfl).mpr rfl
  have hidle : Idle (s.worker w) := by
    have := h.workers.ok w
    rwa [hrole] at this
  have halive := WorkerOk.alive_idle hidle
  rw [stopWorker_eq s halive hidle.stopflag]
  exact h.act .loop hlists.released (WorkerOk.stop_idle hidle _) rfl
    (Workers.ne_unborn halive) (by simp) rfl (WPc.signal_eq_running _) (by rw [hpc]; rfl)
    (h.control.goto .loop (by rw [hpc]; rfl) (by rw [hpc]; rfl) trivial)

theorem poolStep_test (h : Inv cfg s ρ π) (hpc : s.pc = .test)
    (hstep : s.poolStep cfg b = some s') : Reached cfg s' := by
  simp only [State.poolStep, hpc] at hstep
  split at hstep
  · obtain rfl := Option.some.inj hstep
    exact h.stopFree hpc ⟨rfl, rfl, rfl, rfl⟩ ‹_›
  · obtain rfl := Option.some.inj hstep
    exact h.move hpc ⟨rfl, rfl, rfl, rfl⟩ trivial

theorem poolStep_serve (h : Inv cfg s ρ π) (hpc : s.pc = .serve)
    (hstep : s.poolStep cfg b = some s') : Reached cfg s' := by
  simp only [State.poolStep, hpc] at hstep
  split at hstep
  · obtain rfl := Option.some.inj hstep
    exact h.move hpc ⟨rfl, rfl, rfl, rfl⟩ trivial
  · rename_i hq
    obtain rfl := Option.some.inj hstep
    exact h.move hpc ⟨rfl, rfl, rfl, rfl⟩ (fun hnil => hq (List.isEmpty_iff.mpr hnil))

/-- A worker is taken for a task. -/
theorem Control.allocate (h : Control cfg s) (hpc : s.pc = .getThread) (hflag : s.stopflag = false)
    {fh : List Nat} {worker : Nat → Worker} {next : Nat}
    (hbound : cfg.max = 0 ∨ cfg.minidle ≤ cfg.max →
      cfg.max = 0 ∨ (s.ah ++ [(⟨s.nextNode, w⟩ : Node)]).length + fh.length ≤ cfg.max) :
    Control cfg { s with
      worker := worker, nextWorker := next, fh := fh, ah := s.ah ++ [⟨s.nextNode, w⟩]
      nextNode := s.nextNode + 1, pc := .give w } := by
  have hwait := h.waiting
  have hstop := h.stopped
  have hok := h.pc
  simp only [PcOk, hpc] at hok
  rw [hpc] at hwait hstop
  exact { h with waiting := hwait, stopped := hstop, pc := ⟨hok, hflag, by simp⟩, bound := hbound }

theorem poolStep_getThread (h : Inv cfg s ρ π) (hpc : s.pc = .getThread)
    (hstep : s.poolStep cfg b = some s') : Reached cfg s' := by
  simp only [State.poolStep, hpc] at hstep
  have hok := h.control.pc
  simp only [PcOk, hpc] at hok
  have hlists := h.lists
  have htasks := h.tasks
  have hbound := h.control.bound
  rw [hpc] at hlists htasks
  split at hstep
  · -- wait for a thread
    rename_i hfull
    simp only [Bool.and_eq_true, Bool.not_eq_true'] at hfull
    obtain rfl := Option.some.inj hstep
    refine ⟨ρ, π, ?_, hlists, { h.workers with }, htasks, h.safe⟩
    have hstop := h.control.stopped
    rw [hpc] at hstop
    exact { h.control with waiting := rfl, stopped := hstop, pc := ⟨hok, fun _ => hfull⟩ }
  rename_i hfull
  split at hstep
  · obtain rfl := Option.some.inj hstep
    exact h.move hpc ⟨rfl, rfl, rfl, rfl⟩ trivial
  rename_i hflag
  have hflag : s.stopflag = false := by simpa using hflag
  have hcan : s.canAllocate cfg = true := by simpa [hflag] using hfull
  split at hstep
  · -- an idle worker
    rename_i w fh hfh
    obtain rfl := Option.some.inj hstep
    rw [hfh] at hlists hbound
    have hfree : ρ w = .free := (hlists.role w .free rfl).mpr List.mem_cons_self
    have hidle : Idle (s.worker w) := by
      have := h.workers.ok w
      rwa [hfree] at this
    refine ⟨Function.update ρ w .given, π, h.control.allocate hpc hflag ?_, hlists.allocate_free, ?_,
      htasks.frame rfl Iff.rfl, h.safe⟩
    · intro hcfg
      have := hbound hcfg
      show cfg.max = 0 ∨ (s.ah ++ [(⟨s.nextNode, w⟩ : Node)]).length + fh.length ≤ cfg.max
      simp only [List.length_append, List.length_cons, List.length_nil] at this ⊢
      omega
    · exact h.workers.allocate (hlists.not_mem_of_role (by simp [hfree]))
        (Workers.ne_unborn (WorkerOk.alive_idle hidle)) hidle
  · rename_i hfh
    split at hstep
    · -- a new worker
      obtain rfl := Option.some.inj hstep
      have hout := h.workers.role_next
      have hunborn := h.workers.unborn s.nextWorker le_rfl
      have hok' := h.workers.ok s.nextWorker
      rw [hout] at hok'
      have hnot := hlists.not_mem_of_role (w := s.nextWorker) (by simp [hout])
      rw [newThread_allocate_eq]
      refine ⟨Function.update ρ s.nextWorker .given, π, h.control.allocate hpc hflag ?_,
        hlists.allocate_new hout, ?_, htasks.frame rfl (by simp [hunborn]), h.safe⟩
      · -- there are no idle workers, and fewer than `max` with a task
        intro hcfg
        have := hbound hcfg
        have hlt : cfg.max = 0 ∨ s.ah.length ≠ cfg.max := by simpa [canAllocate, hfh] using hcan
        show cfg.max = 0 ∨
          (s.ah ++ [(⟨s.nextNode, s.nextWorker⟩ : Node)]).length + s.fh.length ≤ cfg.max
        simp only [hfh, List.length_append, List.length_cons, List.length_nil] at this ⊢
        omega
      · have hidle := hok'.newThread hunborn none
        have hw := h.workers.newThread (show WorkerOk _ _ .free from hidle) hnot (by simp)
        have := hw.allocate (m := s.nextNode) hnot (by simp) (by simpa using hidle)
        simpa using this
    · obtain rfl := Option.some.inj hstep
      exact h.move hpc ⟨rfl, rfl, rfl, rfl⟩ trivial

theorem poolStep_waitThread (h : Inv cfg s ρ π) (hpc : s.pc = .waitThread signalled)
    (hstep : s.poolStep cfg b = some s') : Reached cfg s' := by
  simp only [State.poolStep, hpc] at hstep
  split at hstep
  · obtain rfl := Option.some.inj hstep
    have hlists := h.lists
    have htasks := h.tasks
    have hok := h.control.pc
    have hstop := h.control.stopped
    simp only [PcOk, hpc] at hok
    rw [hpc] at hlists htasks hstop
    refine ⟨ρ, π, ?_, hlists, { h.workers with }, htasks, h.safe⟩
    exact { h.control with waiting := rfl, stopped := hstop, pc := hok.1 }
  · exact absurd hstep (by simp)

theorem poolStep_give (h : Inv cfg s ρ π) (hpc : s.pc = .give w)
    (hstep : s.poolStep cfg b = some s') : Reached cfg s' := by
  simp only [State.poolStep, hpc] at hstep
  have hok := h.control.pc
  simp only [PcOk, hpc] at hok
  split at hstep
  · exact absurd hstep (by simp)
  split at hstep
  · exact absurd ‹s.q = []› hok.1
  rename_i k q hq
  obtain rfl := Option.some.inj hstep
  have hlists := h.lists
  have htasks := h.tasks
  have hwait := h.control.waiting
  have hstop := h.control.stopped
  have hqueue := h.control.queue
  rw [hpc] at hlists htasks hwait hstop
  rw [hq] at htasks hqueue
  have hrole : ρ w = .given := (hlists.role w .given rfl).mpr rfl
  have hidle : Idle (s.worker w) := by
    have := h.workers.ok w
    rwa [hrole] at this
  have halive := WorkerOk.alive_idle hidle
  have hrun : (s.worker w).pc.signal ≠ .running := by
    rcases hidle.pc with hw | hw | hw <;> simp [hw, WPc.signal]
  unfold State.submitTo
  dsimp only
  rw [check_of s (by simp [halive, hidle.stopflag, hidle.task])]
  refine ⟨Function.update ρ w .busy, Function.update π k (.assigned w), ?_, hlists.gave hok.2.2, ?_,
    htasks.give hidle.task rfl hrun, h.safe⟩
  · exact { h.control with
            queue := fun hflag hdet => absurd (hqueue hflag hdet) (by simp)
            waiting := hwait, stopped := hstop, pc := trivial }
  · exact h.workers.update (WorkerOk.submit hidle _ k) rfl (Workers.ne_unborn halive) (by simp)

theorem poolStep_fill (h : Inv cfg s ρ π) (hpc : s.pc = .fill)
    (hstep : s.poolStep cfg b = some s') : Reached cfg s' := by
  simp only [State.poolStep, hpc] at hstep
  split at hstep
  · rename_i hroom
    split at hstep
    · have hs' : s' = { s.addIdleWorker with pc := .fill } := by
        rw [← Option.some.inj hstep, addIdleWorker_eq, hpc]
      rw [hs']
      refine h.addIdleWorker (by rw [hpc]; rfl) rfl (by rw [hpc]) ?_
      have hwait := h.control.waiting
      have hstop := h.control.stopped
      rw [hpc] at hwait hstop
      rw [addIdleWorker_eq]
      refine { h.control with waiting := hwait, stopped := hstop, pc := trivial, bound := ?_ }
      intro hcfg
      simp only [List.length_append, List.length_cons, List.length_nil]
      omega
    · obtain rfl := Option.some.inj hstep
      exact h.move hpc ⟨rfl, rfl, rfl, rfl⟩ trivial
  · obtain rfl := Option.some.inj hstep
    exact h.move hpc ⟨rfl, rfl, rfl, rfl⟩ trivial

/-- The thread of the pool stops a worker. -/
theorem Inv.stopWorker (h : Inv cfg s ρ π) {ro : Role} (pc : Pc)
    (hflag : (s.worker w).stopflag = false) (halive : (s.worker w).pc.alive = true)
    (hlists : Lists pc.stage s.ah s.fh s.nextNode (Function.update ρ w ro))
    (hok : WorkerOk s.stopflag
      { s.worker w with stopflag := true, pc := (s.worker w).pc.signal } ro)
    (hdet : ro = .detached → s.detach = true) (hcl : pc.toCancel = s.pc.toCancel)
    (hctl : Control cfg { s with pc := pc }) :
    Reached cfg { s.stopWorker w with pc := pc } := by
  rw [stopWorker_eq s halive hflag]
  exact h.act pc hlists hok rfl (Workers.ne_unborn halive) hdet rfl (WPc.signal_eq_running _) hcl hctl

theorem poolStep_stopFree (h : Inv cfg s ρ π) {rest : List Nat} (hpc : s.pc = .stopFree rest)
    (hstep : s.poolStep cfg b = some s') : Reached cfg s' := by
  simp only [State.poolStep, hpc] at hstep
  have hlists := h.lists
  have hok := h.control.pc
  rw [hpc] at hlists
  simp only [PcOk, hpc] at hok
  split at hstep
  · obtain rfl := Option.some.inj hstep
    have htasks := h.tasks
    rw [hpc] at htasks
    exact ⟨ρ, π, h.control.goto _ (by rw [hpc]; rfl) (by rw [hpc]; rfl) hok, hlists.stopFree_end,
      { h.workers with }, htasks, h.safe⟩
  · rename_i w rest'
    split at hstep
    · exact absurd hstep (by simp)
    obtain rfl := Option.some.inj hstep
    have hrole : ρ w = .free := (hlists.role w .free rfl).mpr List.mem_cons_self
    have hidle : Idle (s.worker w) := by
      have := h.workers.ok w
      rwa [hrole] at this
    rw [check_of s (by simpa using hlists.walk)]
    exact h.stopWorker (.stopFree rest') hidle.stopflag (WorkerOk.alive_idle hidle)
      hlists.stopFree_step (WorkerOk.stop_idle hidle _) (by simp) (by rw [hpc]; rfl)
      (h.control.goto _ (by rw [hpc]; rfl) (by rw [hpc]; rfl) hok)

theorem poolStep_choose (h : Inv cfg s ρ π) (hpc : s.pc = .choose)
    (hstep : s.poolStep cfg b = some s') : Reached cfg s' := by
  simp only [State.poolStep, hpc] at hstep
  have hlists := h.lists
  have htasks := h.tasks
  have hok := h.control.pc
  rw [hpc] at hlists htasks
  simp only [PcOk, hpc] at hok
  split at hstep
  · rename_i hdet
    obtain rfl := Option.some.inj hstep
    exact ⟨ρ, π, h.control.goto _ (by rw [hpc]; rfl) (by rw [hpc]; rfl) ⟨hok, hdet⟩,
      hlists.stopBusy_start, { h.workers with }, htasks, h.safe⟩
  · obtain rfl := Option.some.inj hstep
    exact ⟨ρ, π, h.control.goto _ (by rw [hpc]; rfl) (by rw [hpc]; rfl) hok,
      hlists.stopWait_start, { h.workers with }, htasks, h.safe⟩

theorem poolStep_stopBusy (h : Inv cfg s ρ π) (hpc : s.pc = .stopBusy rest)
    (hstep : s.poolStep cfg b = some s') : Reached cfg s' := by
  simp only [State.poolStep, hpc] at hstep
  have hlists := h.lists
  have hok := h.control.pc
  rw [hpc] at hlists
  simp only [PcOk, hpc] at hok
  split at hstep
  · obtain rfl := Option.some.inj hstep
    have htasks := h.tasks
    rw [hpc] at htasks
    exact ⟨ρ, π, h.control.goto _ (by rw [hpc]; rfl) (by rw [hpc]; rfl) hok.1,
      hlists.finish_of_nil (.inl rfl), { h.workers with }, htasks, h.safe⟩
  · rename_i n rest'
    split at hstep
    · exact absurd hstep (by simp)
    obtain rfl := Option.some.inj hstep
    have hrole : ρ n.worker = .busy := (hlists.role n.worker .busy rfl).mpr (by simp)
    have hactive : Active s.stopflag false (s.worker n.worker) := by
      have := h.workers.ok n.worker
      rwa [hrole] at this
    rw [check_of s (by simpa using hlists.walk)]
    exact h.stopWorker (.stopBusy rest') hactive.stopflag (WorkerOk.alive_active hactive)
      hlists.stopBusy_step (WorkerOk.stop_active hactive) (fun _ => hok.2) (by rw [hpc]; rfl)
      (h.control.goto _ (by rw [hpc]; rfl) (by rw [hpc]; rfl) hok)

theorem poolStep_stopWait (h : Inv cfg s ρ π) (hpc : s.pc = .stopWait rest)
    (hstep : s.poolStep cfg b = some s') : Reached cfg s' := by
  simp only [State.poolStep, hpc] at hstep
  have hlists := h.lists
  have hok := h.control.pc
  rw [hpc] at hlists
  simp only [PcOk, hpc] at hok
  split at hstep
  · obtain rfl := Option.some.inj hstep
    have htasks := h.tasks
    rw [hpc] at htasks
    exact ⟨ρ, π, h.control.goto _ (by rw [hpc]; rfl) (by rw [hpc]; rfl) hok,
      hlists.stopConfirm_start, { h.workers with }, htasks, h.safe⟩
  · rename_i n rest'
    obtain rfl := Option.some.inj hstep
    have hrole : ρ n.worker = .busy := (hlists.role n.worker .busy rfl).mpr (by simp)
    have hok' := h.workers.ok n.worker
    rw [hrole] at hok'
    have hactive : Active s.stopflag false (s.worker n.worker) := hok'
    have halive := WorkerOk.alive_active hactive
    rw [check_of s (by simpa using hlists.walk)]
    unfold State.makeStopCond
    dsimp only
    rw [check_of s (by simp [halive, hactive.stopCond])]
    exact h.act (.stopWaitLock (n :: rest')) hlists.stopWait_mark hok'.mark rfl
      (Workers.ne_unborn halive) (by simp) rfl Iff.rfl (by rw [hpc]; rfl)
      (h.control.goto _ (by rw [hpc]; rfl) (by rw [hpc]; rfl) ⟨hok, by simp⟩)

theorem poolStep_stopWaitLock (h : Inv cfg s ρ π) (hpc : s.pc = .stopWaitLock rest)
    (hstep : s.poolStep cfg b = some s') : Reached cfg s' := by
  simp only [State.poolStep, hpc] at hstep
  have hlists := h.lists
  have hok := h.control.pc
  rw [hpc] at hlists
  simp only [PcOk, hpc] at hok
  split at hstep
  · exact absurd rfl hok.2
  · rename_i n rest'
    split at hstep
    · exact absurd hstep (by simp)
    obtain rfl := Option.some.inj hstep
    have hrole : ρ n.worker = .marked := (hlists.role n.worker .marked rfl).mpr (by simp)
    have hactive : Active s.stopflag true (s.worker n.worker) := by
      have := h.workers.ok n.worker
      rwa [hrole] at this
    rw [check_of s (by simpa using hlists.walk)]
    exact h.stopWorker (.stopWait rest') hactive.stopflag (WorkerOk.alive_active hactive)
      hlists.stopWait_step (WorkerOk.stop_active hactive) (by simp) (by rw [hpc]; rfl)
      (h.control.goto _ (by rw [hpc]; rfl) (by rw [hpc]; rfl) hok.1)

theorem poolStep_stopConfirm (h : Inv cfg s ρ π) (hpc : s.pc = .stopConfirm rest)
    (hstep : s.poolStep cfg b = some s') : Reached cfg s' := by
  simp only [State.poolStep, hpc] at hstep
  have hlists := h.lists
  have hok := h.control.pc
  rw [hpc] at hlists
  simp only [PcOk, hpc] at hok
  split at hstep
  · obtain rfl := Option.some.inj hstep
    have htasks := h.tasks
    rw [hpc] at htasks
    exact ⟨ρ, π, h.control.goto _ (by rw [hpc]; rfl) (by rw [hpc]; rfl) hok,
      hlists.finish_of_nil (.inr rfl), { h.workers with }, htasks, h.safe⟩
  · rename_i n rest'
    have hrole : ρ n.worker = .waited := (hlists.role n.worker .waited rfl).mpr (by simp)
    have hok' := h.workers.ok n.worker
    rw [hrole] at hok'
    have hstopping : Stopping true (s.worker n.worker) := hok'
    split at hstep
    · exact absurd hstep (by simp)
    split at hstep
    · rename_i hassert
      simp [hstopping.stopflag, hstopping.stopCond] at hassert
    split at hstep
    · exact absurd hstep (by simp)
    rename_i hstopped
    obtain ⟨hended, htask, hgone⟩ := hok'.confirm (by simpa using hstopped)
    obtain rfl := Option.some.inj hstep
    rw [check_of s (by simpa using hlists.walk)]
    unfold State.confirm
    dsimp only
    rw [check_of s (by simp [hended, htask, WPc.alive])]
    exact h.act (.stopConfirm rest') hlists.stopConfirm_step hgone rfl (by simp [hended]) (by simp)
      rfl (by simp [hended]) (by rw [hpc]; rfl)
      (h.control.goto _ (by rw [hpc]; rfl) (by rw [hpc]; rfl) hok)

theorem poolStep_finish (h : Inv cfg s ρ π) (hpc : s.pc = .finish)
    (hstep : s.poolStep cfg b = some s') : Reached cfg s' := by
  simp only [State.poolStep, hpc] at hstep
  obtain rfl := Option.some.inj hstep
  have hlists := h.lists
  have htasks := h.tasks
  have hok := h.control.pc
  have hwait := h.control.waiting
  rw [hpc] at hlists htasks hwait
  simp only [PcOk, hpc] at hok
  have hdet : s.q ≠ [] → s.detach = true := by
    intro hq
    by_contra hdet
    exact hq (h.control.queue hok (by simpa using hdet))
  refine ⟨ρ, _, ?_, hlists.clear, h.workers.subset (by simp), htasks.drop hdet, h.safe⟩
  exact { h.control with
          queue := fun _ _ => rfl, waiting := hwait, stopped := rfl, pc := ⟨hok, rfl, rfl, rfl⟩
          bound := fun _ => .inr (by simp) }

theorem poolStep_cancel (h : Inv cfg s ρ π) {tasks : List Nat} (hpc : s.pc = .cancel tasks)
    (hstep : s.poolStep cfg b = some s') : Reached cfg s' := by
  simp only [State.poolStep, hpc] at hstep
  have hlists := h.lists
  have htasks := h.tasks
  have hok := h.control.pc
  have hwait := h.control.waiting
  have hstop := h.control.stopped
  rw [hpc] at hlists htasks hwait hstop
  simp only [PcOk, hpc] at hok
  split at hstep
  · obtain rfl := Option.some.inj hstep
    exact h.move hpc ⟨rfl, rfl, rfl, rfl⟩ hok
  · rename_i k rest
    obtain rfl := Option.some.inj hstep
    refine ⟨ρ, Function.update π k .cancelled, ?_, hlists, { h.workers with }, ?_, h.safe⟩
    · exact { h.control with waiting := hwait, stopped := hstop, pc := hok }
    · refine htasks.cancel ?_ ?_
      · simp [State.history]
      · intro k' hk'
        simp [State.history, Function.update_of_ne hk']

/-- Every step of the thread of the pool keeps the invariant. -/
theorem poolStep_reached (h : Reached cfg s) (hstep : s.poolStep cfg b = some s') : Reached cfg s' := by
  obtain ⟨ρ, π, h⟩ := h
  cases hpc : s.pc with
  | start =>
    simp only [State.poolStep, hpc] at hstep
    obtain rfl := Option.some.inj hstep
    have hok := h.control.pc
    simp only [PcOk, hpc] at hok
    exact h.move hpc ⟨rfl, rfl, rfl, rfl⟩ ⟨hok.1, by simp [hok.2], Nat.zero_le _⟩
  | init i => exact poolStep_init h hpc hstep
  | loop => exact poolStep_loop h hpc hstep
  | waitTimed signalled => exact poolStep_waitTimed h hpc hstep
  | waitPlain signalled => exact poolStep_waitPlain h hpc hstep
  | release w => exact poolStep_release h hpc hstep
  | test => exact poolStep_test h hpc hstep
  | serve => exact poolStep_serve h hpc hstep
  | getThread => exact poolStep_getThread h hpc hstep
  | waitThread signalled => exact poolStep_waitThread h hpc hstep
  | give w => exact poolStep_give h hpc hstep
  | fill => exact poolStep_fill h hpc hstep
  | stopFree rest => exact poolStep_stopFree h hpc hstep
  | choose => exact poolStep_choose h hpc hstep
  | stopBusy rest => exact poolStep_stopBusy h hpc hstep
  | stopWait rest => exact poolStep_stopWait h hpc hstep
  | stopWaitLock rest => exact poolStep_stopWaitLock h hpc hstep
  | stopConfirm rest => exact poolStep_stopConfirm h hpc hstep
  | finish => exact poolStep_finish h hpc hstep
  | cancel tasks => exact poolStep_cancel h hpc hstep
  | dead => simp [State.poolStep, hpc] at hstep

end

end Qore.ThreadPool
