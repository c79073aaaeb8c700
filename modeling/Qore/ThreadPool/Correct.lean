import Qore.ThreadPool.Steps

/-!
# `Qore.ThreadPool.Correct`: every task exactly once

`Correct` is what a pool promises in a state: no assertion has failed, every accepted task is on
its way, was run once by one worker, or was cancelled once after `stop`; `stopWait` returns without
`stop` only when all tasks are finished; there are at most `max` workers; and the thread of the
pool does not sleep without a signal while there is a task and a thread for it. As long as a task
is neither finished nor cancelled, one of the threads of the pool can go on.

* `pool_correct_iff`: a pool keeps its promises in every run exactly when, after the conversion of
  the arguments to `int`, `max` is not positive or `minidle` is at most `max`. The constructor
  tests this before the conversion.
* `pool_exceeds_max`: a pool with `max` 1 that starts two threads.
-/

set_option autoImplicit false

namespace Qore.ThreadPool

open State Qore.Lib Qore.Lib.Lts

/-- The thread of the pool or a worker can go on. -/
def CanStep (cfg : Config) (s : State) : Prop :=
  (∃ b, (s.poolStep cfg b).isSome) ∨ ∃ w, (s.workerStep cfg w).isSome

/-- The thread of the pool waits and is not signalled. -/
def Pc.sleeps : Pc → Bool
  | .waitTimed false | .waitPlain false | .waitThread false => true
  | _ => false

/-- A task that is not started and not cancelled: it is in the queue, with a worker, or to be
cancelled after `stop`. -/
structure OnItsWay (s : State) (k : Nat) : Prop where
  place : k ∈ s.q ∨ (∃ w, (s.worker w).task = some k) ∨ (k ∈ s.pc.toCancel ∧ s.stopCalled = true)
  ran : s.ran k = []
  finished : s.finished k = []
  cancelled : s.cancelled k = 0

/-- A task that one worker has started, once. -/
structure RunOnce (s : State) (k : Nat) : Prop where
  ran : ∃ w, s.ran k = [w] ∧
    (s.finished k = [w] ∨ (s.finished k = [] ∧ (s.worker w).task = some k ∧ (s.worker w).pc = .running))
  cancelled : s.cancelled k = 0

/-- A task that was cancelled once and not run. -/
structure CancelledOnce (s : State) (k : Nat) : Prop where
  stop : s.stopCalled = true
  ran : s.ran k = []
  finished : s.finished k = []
  cancelled : s.cancelled k = 1

/-- What a pool promises in a state. -/
structure Correct (cfg : Config) (s : State) : Prop where
  /-- No assertion has failed. -/
  safe : s.failed = false
  /-- The assertions of `~ThreadPool` hold once `stopped` is set. -/
  destructor : s.stopped = true → s.q = [] ∧ s.ah = [] ∧ s.fh = []
  task : ∀ k, k < s.nextTask → OnItsWay s k ∨ RunOnce s k ∨ CancelledOnce s k
  progress : ∀ k, k < s.nextTask → s.finished k = [] → s.cancelled k = 0 → CanStep cfg s
  stopWait : s.stopCalled = false → (step cfg s .stopWaitReturn).isSome →
    ∀ k, k < s.nextTask → ∃ w, s.finished k = [w]
  bound : 0 < cfg.max → s.ah.length + s.fh.length ≤ cfg.max
  awake : s.q ≠ [] → s.pc.sleeps = true → s.canAllocate cfg = false

section
variable {cfg : Config} {s : State} {ρ : Nat → Role} {π : Nat → Place} {w k : Nat}

/-- A worker that is awake can go on, if it does not have to wait for the lock of the pool. -/
theorem workerStep_isSome (hpc : (s.worker w).pc = .begin ∨ (s.worker w).pc = .top ∨
      (s.worker w).pc = .sleeping true ∨ (s.worker w).pc = .running ∨ (s.worker w).pc = .ending ∨
      ((s.worker w).pc = .afterRun ∧ ((s.worker w).stopflag = true ∨ s.pc.locked = false))) :
    (s.workerStep cfg w).isSome := by
  unfold State.workerStep
  rcases hpc with hpc | hpc | hpc | hpc | hpc | ⟨hpc, hlock⟩
  · simp [hpc]
  · simp only [hpc]
    split
    · rfl
    · split <;> rfl
  · simp only [hpc, if_true]
    split
    · rfl
    · split <;> rfl
  · simp only [hpc]
    split <;> rfl
  · simp only [hpc]
    split <;> rfl
  · simp only [hpc]
    rcases hlock with hflag | hlock
    · simp [hflag]
    · split
      · rfl
      · simp [hlock]

/-- An idle worker that has its lock can go on. -/
theorem canStep_idle (h : Idle (s.worker w)) (hlocked : (s.worker w).pc.locked = true) :
    CanStep cfg s := by
  refine .inr ⟨w, workerStep_isSome ?_⟩
  rcases h.pc with hpc | hpc | hpc <;> simp_all [WPc.locked]

/-- A worker in `ah` that has its lock, or has a task, can go on when the pool is not locked. -/
theorem canStep_active {stop cond : Bool} (h : Active stop cond (s.worker w))
    (hlock : s.pc.locked = false) (hpc : stop = false ∨ (s.worker w).pc.locked = true) :
    CanStep cfg s := by
  have hok := h.pc
  refine .inr ⟨w, workerStep_isSome ?_⟩
  cases hw : (s.worker w).pc with
  | sleeping b =>
    cases b with
    | true => simp
    | false => simp_all [WPc.locked]
  | _ => simp_all

/-- The thread of the pool, or a worker that it needs, can go on, unless it has ended or waits for a
task. -/
theorem Inv.canStep (h : Inv cfg s ρ π) :
    CanStep cfg s ∨ s.pc = .dead ∨ (s.pc = .waitPlain false ∧ s.q = []) := by
  have hlists := h.lists
  have hok := h.control.pc
  cases hpc : s.pc with
  | start | init i | loop | test | serve | fill | choose | finish =>
    refine .inl (.inl ⟨true, ?_⟩)
    simp only [State.poolStep, hpc]
    repeat' split
    all_goals rfl
  | cancel tasks =>
    refine .inl (.inl ⟨true, ?_⟩)
    simp only [State.poolStep, hpc]
    split <;> rfl
  | waitTimed signalled =>
    refine .inl (.inl ⟨true, ?_⟩)
    simp only [State.poolStep, hpc, if_true]
    split
    · split <;> rfl
    · rfl
  | waitPlain signalled =>
    cases signalled with
    | true => exact .inl (.inl ⟨true, by simp [State.poolStep, hpc]⟩)
    | false =>
      simp only [PcOk, hpc] at hok
      exact .inr (.inr ⟨rfl, (hok trivial).1⟩)
  | waitThread signalled =>
    cases signalled with
    | true => exact .inl (.inl ⟨true, by simp [State.poolStep, hpc]⟩)
    | false =>
      -- `max` workers have a task, and `max` is not 0
      simp only [PcOk, hpc] at hok
      obtain ⟨hflag, hcan⟩ := hok.2 trivial
      have hah : s.ah ≠ [] := by
        intro hnil
        simp [canAllocate, hnil] at hcan
        omega
      obtain ⟨n, hn⟩ := List.exists_mem_of_ne_nil s.ah hah
      rw [hpc] at hlists
      have hrole : ρ n.worker = .busy :=
        (hlists.role n.worker .busy rfl).mpr ⟨List.mem_map_of_mem hn, by simp, by simp⟩
      have hw := h.workers.ok n.worker
      rw [hrole, hflag] at hw
      exact .inl (canStep_active (show Active false false _ from hw) (by rw [hpc]; rfl) (.inl rfl))
  | getThread =>
    refine .inl (.inl ⟨true, ?_⟩)
    simp only [State.poolStep, hpc, if_true]
    repeat' split
    all_goals rfl
  | release w =>
    rw [hpc] at hlists
    have hrole : ρ w = .releasing := (hlists.role w .releasing rfl).mpr rfl
    have hw := h.workers.ok w
    rw [hrole] at hw
    by_cases hlocked : (s.worker w).pc.locked = true
    · exact .inl (canStep_idle hw hlocked)
    · exact .inl (.inl ⟨true, by simp [State.poolStep, hpc, hlocked]⟩)
  | give w =>
    rw [hpc] at hlists
    have hrole : ρ w = .given := (hlists.role w .given rfl).mpr rfl
    have hw := h.workers.ok w
    rw [hrole] at hw
    by_cases hlocked : (s.worker w).pc.locked = true
    · exact .inl (canStep_idle hw hlocked)
    · refine .inl (.inl ⟨true, ?_⟩)
      simp only [State.poolStep, hpc, if_neg hlocked]
      split <;> rfl
  | stopFree rest =>
    cases rest with
    | nil => exact .inl (.inl ⟨true, by simp [State.poolStep, hpc]⟩)
    | cons w rest =>
      rw [hpc] at hlists
      have hrole : ρ w = .free := (hlists.role w .free rfl).mpr List.mem_cons_self
      have hw := h.workers.ok w
      rw [hrole] at hw
      by_cases hlocked : (s.worker w).pc.locked = true
      · exact .inl (canStep_idle hw hlocked)
      · exact .inl (.inl ⟨true, by simp [State.poolStep, hpc, hlocked]⟩)
  | stopBusy rest =>
    cases rest with
    | nil => exact .inl (.inl ⟨true, by simp [State.poolStep, hpc]⟩)
    | cons n rest =>
      rw [hpc] at hlists
      have hrole : ρ n.worker = .busy := (hlists.role n.worker .busy rfl).mpr (by simp)
      have hw := h.workers.ok n.worker
      rw [hrole] at hw
      by_cases hlocked : (s.worker n.worker).pc.locked = true
      · exact .inl (canStep_active (show Active _ false _ from hw) (by rw [hpc]; rfl) (.inr hlocked))
      · exact .inl (.inl ⟨true, by simp [State.poolStep, hpc, hlocked]⟩)
  | stopWait rest =>
    refine .inl (.inl ⟨true, ?_⟩)
    simp only [State.poolStep, hpc]
    split <;> rfl
  | stopWaitLock rest =>
    cases rest with
    | nil => exact .inl (.inl ⟨true, by simp [State.poolStep, hpc]⟩)
    | cons n rest =>
      rw [hpc] at hlists
      have hrole : ρ n.worker = .marked := (hlists.role n.worker .marked rfl).mpr (by simp)
      have hw := h.workers.ok n.worker
      rw [hrole] at hw
      by_cases hlocked : (s.worker n.worker).pc.locked = true
      · exact .inl (canStep_active (show Active _ true _ from hw) (by rw [hpc]; rfl) (.inr hlocked))
      · exact .inl (.inl ⟨true, by simp [State.poolStep, hpc, hlocked]⟩)
  | stopConfirm rest =>
    cases rest with
    | nil => exact .inl (.inl ⟨true, by simp [State.poolStep, hpc]⟩)
    | cons n rest =>
      rw [hpc] at hlists
      have hrole : ρ n.worker = .waited := (hlists.role n.worker .waited rfl).mpr (by simp)
      have hw := h.workers.ok n.worker
      rw [hrole] at hw
      have hstopping : Stopping true (s.worker n.worker) := hw
      by_cases hstopped : (s.worker n.worker).stopped = true
      · have hended := hstopping.stopped.mp hstopped
        refine .inl (.inl ⟨true, ?_⟩)
        simp [State.poolStep, hpc, hended, WPc.locked, hstopped, hstopping.stopflag,
          hstopping.stopCond]
      · -- a worker that is stopped is never asleep without a signal
        have hne : (s.worker n.worker).pc ≠ .ended := fun he => hstopped (hstopping.stopped.mpr he)
        refine .inl (.inr ⟨n.worker, workerStep_isSome ?_⟩)
        have hp := hstopping.pc
        have hf := hstopping.stopflag
        cases hq : (s.worker n.worker).pc with
        | sleeping b => cases b <;> simp_all
        | _ => simp_all
  | dead => exact .inr (.inl rfl)

/-- A worker with a task can go on. -/
theorem Inv.canStep_of_task (h : Inv cfg s ρ π) (htask : (s.worker w).task = some k) :
    CanStep cfg s := by
  refine .inr ⟨w, workerStep_isSome ?_⟩
  rcases (h.workers.ok w).cases_role with ⟨-, hu⟩ | hi | ⟨cond, -, ha⟩ | ⟨cond, hs⟩
  · simp [hu.task] at htask
  · simp [hi.task] at htask
  · have hp := ha.pc
    cases hw : (s.worker w).pc with
    | sleeping b => cases b <;> simp_all
    | _ => simp_all
  · have hp := hs.pc
    cases hw : (s.worker w).pc with
    | sleeping b => cases b <;> simp_all
    | _ => simp_all

/-- Only a worker in `ah`, or one that is stopped there, has a task. In a pool that is stopped
without `stop`, there is none left at the end. -/
theorem Inv.task_none_of_stopped (h : Inv cfg s ρ π) (hstopped : s.pc.hasStopped = true)
    (hdet : s.detach = false) (w : Nat) : (s.worker w).task = none := by
  have hlists := h.lists
  have hstage : s.pc.stage = .finished := by
    cases hpc : s.pc <;> simp_all
  rw [hstage] at hlists
  have hok := h.workers.ok w
  cases hro : ρ w with
  | out =>
    rw [hro] at hok
    exact hok.task
  | free | given | releasing =>
    rw [hro] at hok
    exact hok.task
  | busy => simpa using (hlists.role w .busy rfl).mp hro
  | marked => simpa using (hlists.role w .marked rfl).mp hro
  | waited => simpa using (hlists.role w .waited rfl).mp hro
  | stopped =>
    rw [hro] at hok
    exact hok.2
  | detached =>
    have := h.workers.detached w hro
    simp [hdet] at this

/-- The history of a task, by its place. -/
theorem Inv.history_eq (h : Inv cfg s ρ π) (k : Nat) :
    s.ran k = (π k).history.ran ∧ s.finished k = (π k).history.finished ∧
      s.cancelled k = (π k).history.cancelled := by
  have := h.tasks.history k
  rw [← this]
  exact ⟨rfl, rfl, rfl⟩

/-- An accepted task is on its way, was run once, or was cancelled once. -/
theorem Inv.task (h : Inv cfg s ρ π) (hk : k < s.nextTask) :
    OnItsWay s k ∨ RunOnce s k ∨ CancelledOnce s k := by
  obtain ⟨hran, hfin, hcan⟩ := h.history_eq k
  have hplace := h.tasks.place k
  have hstop : π k = .pending ∨ π k = .cancelled → s.stopCalled = true :=
    fun hp => (h.control.detach (h.tasks.detached k hp)).2
  cases hp : π k with
  | fresh =>
    have := (hplace .fresh rfl).mp hp
    simp only [Place.At] at this
    omega
  | queued =>
    rw [hp] at hran hfin hcan
    exact .inl ⟨.inl ((hplace .queued rfl).mp hp), hran, hfin, hcan⟩
  | assigned w =>
    rw [hp] at hran hfin hcan
    exact .inl ⟨.inr (.inl ⟨w, ((hplace (.assigned w) rfl).mp hp).1⟩), hran, hfin, hcan⟩
  | pending =>
    rw [hp] at hran hfin hcan
    exact .inl ⟨.inr (.inr ⟨(hplace .pending rfl).mp hp, hstop (.inl hp)⟩), hran, hfin, hcan⟩
  | running w =>
    rw [hp] at hran hfin hcan
    exact .inr (.inl ⟨⟨w, hran, .inr ⟨hfin, (hplace (.running w) rfl).mp hp⟩⟩, hcan⟩)
  | finished w =>
    rw [hp] at hran hfin hcan
    exact .inr (.inl ⟨⟨w, hran, .inl hfin⟩, hcan⟩)
  | cancelled =>
    rw [hp] at hran hfin hcan
    exact .inr (.inr ⟨hstop (.inr hp), hran, hfin, hcan⟩)

/-- As long as a task is neither finished nor cancelled, a thread can go on. -/
theorem Inv.progress (h : Inv cfg s ρ π) (hk : k < s.nextTask) (hfin : s.finished k = [])
    (hcan : s.cancelled k = 0) : CanStep cfg s := by
  have hok := h.control.pc
  rcases h.task hk with hway | hrun | hcancelled
  · rcases hway.place with hq | ⟨w, hw⟩ | ⟨hcl, -⟩
    · rcases h.canStep with hstep | hpc | ⟨-, hq'⟩
      · exact hstep
      · simp only [PcOk, hpc] at hok
        simp [hok.2.1] at hq
      · simp [hq'] at hq
    · exact h.canStep_of_task hw
    · rcases h.canStep with hstep | hpc | ⟨hpc, -⟩
      · exact hstep
      · simp [hpc] at hcl
      · simp [hpc] at hcl
  · obtain ⟨w, -, hw | ⟨-, hw, -⟩⟩ := hrun.ran
    · simp [hw] at hfin
    · exact h.canStep_of_task hw
  · simp [hcancelled.cancelled] at hcan

/-- In a pool that is stopped without `stop`, every task is finished. -/
theorem Inv.finished_of_stopped (h : Inv cfg s ρ π) (hstopped : s.stopped = true)
    (hdet : s.detach = false) (hk : k < s.nextTask) : ∃ w, s.finished k = [w] := by
  rw [h.control.stopped] at hstopped
  have hok := h.control.pc
  have hnone := h.task_none_of_stopped hstopped hdet
  have hfin := (h.history_eq k).2.1
  have hplace := h.tasks.place k
  cases hp : π k with
  | fresh =>
    have := (hplace .fresh rfl).mp hp
    simp only [Place.At] at this
    omega
  | queued =>
    have hq := (hplace .queued rfl).mp hp
    have hnil : s.q = [] := by
      cases hpc : s.pc <;> simp_all [PcOk]
    simp [hnil] at hq
  | assigned w =>
    have := ((hplace (.assigned w) rfl).mp hp).1
    simp [hnone w] at this
  | running w =>
    have := ((hplace (.running w) rfl).mp hp).1
    simp [hnone w] at this
  | pending =>
    have := h.tasks.detached k (.inl hp)
    simp [hdet] at this
  | cancelled =>
    have := h.tasks.detached k (.inr hp)
    simp [hdet] at this
  | finished w =>
    rw [hp] at hfin
    exact ⟨w, hfin⟩

/-- The thread of the pool is awake when it can serve a task. -/
theorem Inv.awake (h : Inv cfg s ρ π) (hq : s.q ≠ []) (hsleeps : s.pc.sleeps = true) :
    s.canAllocate cfg = false := by
  have hok := h.control.pc
  cases hpc : s.pc with
  | waitTimed b => cases b <;> simp_all [PcOk, Pc.sleeps]
  | waitPlain b => cases b <;> simp_all [PcOk, Pc.sleeps]
  | waitThread b => cases b <;> simp_all [PcOk, Pc.sleeps]
  | _ => simp [hpc, Pc.sleeps] at hsleeps

/-- All promises but the number of the workers hold for every pool. -/
theorem Inv.correct (h : Inv cfg s ρ π) (hbound : cfg.max = 0 ∨ cfg.minidle ≤ cfg.max) :
    Correct cfg s where
  safe := h.safe
  destructor := by
    intro hstopped
    have hok := h.control.pc
    rw [h.control.stopped] at hstopped
    cases hpc : s.pc <;> simp_all [PcOk]
  task := fun k hk => h.task hk
  progress := fun k hk hfin hcan => h.progress hk hfin hcan
  stopWait := by
    intro hstop hret k hk
    have hstopped : s.stopped = true := by
      by_contra hne
      simp [step, hne] at hret
    have hdet : s.detach = false := by
      by_contra hd
      have := (h.control.detach (by simpa using hd)).2
      simp [hstop] at this
    exact h.finished_of_stopped hstopped hdet hk
  bound := by
    intro hmax
    rcases h.control.bound hbound with hz | hle
    · omega
    · exact hle
  awake := h.awake

end

/-- The first loop adds a worker in each step. -/
theorem run_init (cfg : Config) : ∀ (j i : Nat) (s : State), s.pc = .init i → s.fh.length = i →
    i + j ≤ cfg.minidle → ∃ s' bs, run (step cfg) s (List.replicate j (.pool true)) = some (s', bs) ∧
      s'.fh.length = i + j := by
  intro j
  induction j with
  | zero =>
    intro i s _ hfh _
    exact ⟨s, [], rfl, hfh⟩
  | succ j ih =>
    intro i s hpc hfh hle
    have hstep : step cfg s (.pool true) =
        some ({ s.addIdleWorker with pc := .init (i + 1) }, .none) := by
      simp only [step, State.poolStep, hpc, if_pos (show i < cfg.minidle by omega), if_true,
        Option.map_some]
    have hlen : ({ s.addIdleWorker with pc := .init (i + 1) } : State).fh.length = i + 1 := by
      rw [addIdleWorker_eq]
      simp [hfh]
    obtain ⟨s', bs, hrun, hs'⟩ := ih (i + 1) _ rfl hlen (by omega)
    refine ⟨s', .none :: bs, ?_, by omega⟩
    rw [List.replicate_succ, run, hstep]
    simp only [hrun]

/-- The configuration that the constructor makes. -/
theorem constructor_ok {a : Args} {started : Bool} {cfg : Config}
    (h : constructor a started = .ok cfg) :
    cfg = newThreadPool (truncInt a.max) (truncInt a.minidle) (truncInt a.maxidle)
      (truncInt a.releaseMs) := by
  unfold constructor at h
  repeat' split at h
  all_goals cases h
  rfl

/-- A pool keeps its promises in every run exactly when, as `int`, its `max` is not positive or its
`minidle` is at most `max`. -/
theorem pool_correct_iff (a : Args) (started : Bool) (cfg : Config)
    (h : constructor a started = .ok cfg) :
    (∀ as, Always (step cfg) (Correct cfg) State.init as) ↔
      truncInt a.max ≤ 0 ∨ truncInt a.minidle ≤ truncInt a.max := by
  have hcfg := constructor_ok h
  have hmax : cfg.max = (truncInt a.max).toNat := by rw [hcfg]; rfl
  have hmin : cfg.minidle = (truncInt a.minidle).toNat := by rw [hcfg]; rfl
  constructor
  · intro hall
    by_contra hnot
    -- the first loop makes more than `max` workers
    have hlt : 0 < cfg.max ∧ cfg.max < cfg.minidle := by omega
    obtain ⟨s', bs, hrun, hlen⟩ := run_init cfg (cfg.max + 1) 0 { State.init with pc := .init 0 } rfl
      rfl (by omega)
    have hrun' : run (step cfg) State.init (.pool true :: List.replicate (cfg.max + 1) (.pool true)) =
        some (s', .none :: bs) := by
      have hstart : step cfg State.init (.pool true) =
          some ({ State.init with pc := .init 0 }, .none) := rfl
      rw [run, hstart]
      simp only [hrun]
    have := ((hall _).of_run _ hrun').bound hlt.1
    omega
  · intro hcond as
    have hbound : cfg.max = 0 ∨ cfg.minidle ≤ cfg.max := by omega
    have hreached : Always (step cfg) (Reached cfg) State.init as :=
      always_of_step (fun _ _ _ _ hr hstep => step_reached hr hstep) as _ (init_reached cfg)
    exact Always.mono (fun s hs => by obtain ⟨ρ, π, hinv⟩ := hs; exact hinv.correct hbound) as _ hreached

/-- The pool of the class documentation. -/
theorem pool_correct_ten :
    constructor { max := 10, minidle := 2, maxidle := 4 } true = .ok ⟨10, 2, 4, 5000⟩ ∧
      ∀ as, Always (step ⟨10, 2, 4, 5000⟩) (Correct ⟨10, 2, 4, 5000⟩) State.init as :=
  ⟨by rfl, (pool_correct_iff { max := 10, minidle := 2, maxidle := 4 } true _ (by rfl)).mpr
    (by decide)⟩

/-- A pool with `max` 1 that starts two threads: `minidle` is negative in 64 bits, passes the test
of the constructor, and is 2 as an `int`. -/
theorem pool_exceeds_max :
    ∃ cfg, constructor { max := 1, minidle := -4294967294 } true = .ok cfg ∧ cfg.max = 1 ∧
      ¬Always (step cfg) (Correct cfg) State.init [.pool true, .pool true, .pool true] := by
  refine ⟨⟨1, 2, 2, 5000⟩, by rfl, rfl, fun hall => ?_⟩
  have hrun : ((run (step ⟨1, 2, 2, 5000⟩) State.init [.pool true, .pool true, .pool true]).map
      fun r => r.1.ah.length + r.1.fh.length) = some 2 := by rfl
  obtain ⟨⟨s, bs⟩, hrun, hlen⟩ := Option.map_eq_some_iff.mp hrun
  have := (hall.of_run _ hrun).bound (by decide)
  simp only at hlen this
  omega

end Qore.ThreadPool
