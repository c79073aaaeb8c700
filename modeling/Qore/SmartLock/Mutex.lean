import Qore.SmartLock.Safety

/-!
# `Qore.SmartLock.Mutex`: the mutex

The model of `lib/SmartMutex.cpp`, with the parts of `lib/AbstractSmartLock.cpp` that it inherits.
The threads and their waits are those of the read-write lock: a mutex has a write side only, and
`asl_cond` is its condition variable.

* `Safe` is the invariant: a waiting thread does not own the mutex, and the owner, the resource
  lists and the counter of waiting threads agree.
* `Safe.step`: every critical section keeps it.
* `run_exclusive`: the callers, who see what their calls return, agree on who has the mutex.
-/

set_option autoImplicit false

namespace Qore.SmartLock.Mutex

open Qore.Lib
open Qore.Lib.Monitor hiding Wait

/-- `class SmartMutex`. -/
structure SmartMutex (T C : Type) where
  tid : Tid T
  vl : Option T
  waiting : Nat
  cmap : C → Option Nat

/-- The mutex, the waiting threads, and the thread resource lists. -/
structure State (T C : Type) where
  lock : SmartMutex T C
  threads : Threads T (Cond C) (Job C)
  resources : T → Bool

/-- The exceptions. -/
inductive Exception (T : Type)
  | lockTwice (t : T)
  | unlockUnlocked (t : T)
  | unlockHeldBy (t owner : T)
  | deletedInOtherThread
  | waitUnlocked
  | waitHeldBy (t owner : T)
  | deadlock (other t : T) (timeout : Bool)
  | terminated (t : T)
  | deletedInWait (t : T)
  | deletedWhileHolding (t : T)
  | deletedWhileHeldBy (t owner : T)

/-- What a call returns. -/
inductive Outcome (T : Type)
  | ok
  | unavailable
  | timedOut
  | reacquired (timedOut : Bool)
  | raised (es : List (Exception T))

/-- A critical section is a part of a call of a thread, which returns or not. -/
structure Label (T : Type) where
  thread : T
  result : Option (Outcome T)

/-- `SmartMutex()`, and no thread in a call. -/
def State.init (T C : Type) : State T C :=
  ⟨⟨.unlocked, none, 0, fun _ => none⟩, fun _ => none, fun _ => false⟩

section
variable {T C : Type} [DecidableEq T] [DecidableEq C]

/-! ### Taking and releasing the mutex -/

/-- How `grabImpl` ends: the mutex is free, the thread waits, or there is an exception. -/
inductive Grab (T : Type)
  | ok
  | block
  | fail (e : Exception T)

/-- The thread waits on a condition variable. -/
def blockOn (t : T) (c : Cond C) (job : Job C) (s : State T C) : State T C :=
  { s with threads := Function.update s.threads t (some ⟨c, job, .blocked⟩) }

/-- The loop of `grabImpl`. `++waiting` stays when the thread waits. -/
def grabLoop (t : T) (job : Job C) (deadlock : Option T) (s : State T C) : State T C × Grab T :=
  match s.lock.tid with
  | .owner _ =>
    match deadlock with
    | some u => (s, .fail (.deadlock u t (decide (job.waitOnTimeout ≠ 0))))
    | none =>
      (blockOn t .write job { s with lock := { s.lock with waiting := s.lock.waiting + 1 } }, .block)
  | .deleted => (s, .fail .deletedInOtherThread)
  | .unlocked => (s, .ok)

/-- `grabImpl`. -/
def grabImpl (t : T) (job : Job C) (deadlock : Option T) (s : State T C) : State T C × Grab T :=
  if s.lock.tid = .owner t then (s, .fail (.lockTwice t)) else grabLoop t job deadlock s

/-- `grab_intern`. -/
def grabIntern (t : T) (s : State T C) : State T C :=
  { s with
    lock := { s.lock with tid := .owner t, vl := some t }
    resources := Function.update s.resources t true }

/-- What a call does with the end of `grabImpl`: `done` is its return with the mutex. -/
def answer (t : T) (done : Outcome T) : State T C × Grab T → State T C × Label T
  | (s, .ok) => (grabIntern t s, ⟨t, some done⟩)
  | (s, .block) => (s, ⟨t, none⟩)
  | (s, .fail e) => (s, ⟨t, some (.raised [e])⟩)

variable [Fintype T]

/-- `release_and_signal`. -/
def releaseAndSignal (choice : Option T) (s : State T C) : Option (State T C) :=
  let tid := match s.lock.tid with
    | .owner _ => .unlocked
    | tid => tid
  (signalIf s.lock.waiting .write choice s.threads).map fun thr =>
    { s with lock := { s.lock with tid := tid, vl := none }, threads := thr }

/-- `release_intern`. -/
def releaseIntern (t : T) (choice : Option T) (s : State T C) : Option (State T C) :=
  releaseAndSignal choice { s with resources := Function.update s.resources t false }

/-! ### The calls -/

/-- `grab`. -/
def lock (t : T) (timeoutMs : Int) (deadlock : Option T) (s : State T C) : State T C × Label T :=
  answer t .ok (grabImpl t (.lock .write timeoutMs) deadlock s)

/-- `tryGrab`. -/
def tryLock (t : T) (s : State T C) : State T C × Label T :=
  if s.lock.tid ≠ .unlocked then (s, ⟨t, some .unavailable⟩)
  else (grabIntern t s, ⟨t, some .ok⟩)

/-- `release(ExceptionSink*)`. -/
def unlock (t : T) (choice : Option T) (s : State T C) : Option (State T C × Label T) :=
  match s.lock.tid with
  | .owner u =>
    if u ≠ t then some (s, ⟨t, some (.raised [.unlockHeldBy t u])⟩)
    else (releaseIntern t choice s).map fun s => (s, ⟨t, some .ok⟩)
  | _ => some (s, ⟨t, some (.raised [.unlockUnlocked t])⟩)

/-- `externWaitImpl` up to the wait, with `verify_wait_unlocked`. -/
def externWait (t : T) (c : C) (timeoutMs : Int) (choice : Option T) (s : State T C) :
    Option (State T C × Label T) :=
  match s.lock.tid with
  | .owner u =>
    if u ≠ t then some (s, ⟨t, some (.raised [.waitHeldBy t u])⟩)
    else
      (releaseIntern t choice { s with lock := { s.lock with cmap := incCond c s.lock.cmap } }).map
        fun s => (blockOn t (.user c) (.wait .write 1 c timeoutMs) s, ⟨t, none⟩)
  | _ => some (s, ⟨t, some (.raised [.waitUnlocked])⟩)

/-- The end of a condition wait: the counters. -/
def leave (t : T) (c : Cond C) (s : State T C) : State T C :=
  let s := { s with threads := Function.update s.threads t none }
  match c with
  | .user c => { s with lock := { s.lock with cmap := decCond c s.lock.cmap } }
  | _ => { s with lock := { s.lock with waiting := s.lock.waiting - 1 } }

/-- The rest of a call after its condition wait: the loop of `grabImpl`, or `externWaitImpl` after
the wait on the `Condition`. -/
def resume (t : T) (deadlock : Option T) (s : State T C) : Option (State T C × Label T) :=
  match s.threads t with
  | none => none
  | some w =>
    if w.wake = .blocked then none
    else
      let timedOut := decide (w.wake = .timedOut)
      let s := leave t w.cond s
      match w.job with
      | .lock kind timeoutMs =>
        if timedOut then some (s, ⟨t, some .timedOut⟩)
        else some (answer t .ok (grabLoop t (.lock kind timeoutMs) deadlock s))
      | .wait _ _ _ _ =>
        some (answer t (.reacquired timedOut) (grabImpl t (.regrab .write 1 1 timedOut) deadlock s))
      | .regrab _ _ _ rc =>
        some (answer t (.reacquired rc) (grabLoop t (.regrab .write 1 1 rc) deadlock s))

/-- `cleanup` and `cleanupImpl`: the thread exits with the mutex in its thread resource list. -/
def cleanup (t : T) (choice : Option T) (s : State T C) : Option (State T C × Label T) :=
  if s.resources t then
    let s := { s with resources := Function.update s.resources t false }
    if s.lock.tid = .owner t then
      (releaseAndSignal choice s).map fun s => (s, ⟨t, some (.raised [.terminated t])⟩)
    else some (s, ⟨t, some .ok⟩)
  else none

variable [Fintype C]

/-- `destructor` and `destructorImpl`. -/
def destructor (t : T) (s : State T C) : State T C × Label T :=
  let inWait := decide (∃ c, (s.lock.cmap c).isSome)
  let thr := if inWait then broadcastConds s.lock.cmap s.threads else s.threads
  let es : List (Exception T) := if inWait then [.deletedInWait t] else []
  match s.lock.tid with
  | .owner u =>
    let e : Exception T := if t = u then .deletedWhileHolding t else .deletedWhileHeldBy t u
    ({ lock := { s.lock with tid := .deleted }
       threads := broadcastIf s.lock.waiting .write thr
       resources := if t = u then Function.update s.resources t false else s.resources },
      ⟨t, some (.raised (es ++ [e]))⟩)
  | _ =>
    ({ s with lock := { s.lock with tid := .deleted }, threads := thr },
      ⟨t, some (if es.isEmpty then .ok else .raised es)⟩)

/-- The critical sections of the mutex, the expiry of a wait, and the calls of `signal` and
`broadcast` of a `Condition`. -/
inductive Action (T C : Type)
  | lock (t : T) (timeoutMs : Int) (deadlock : Option T)
  | tryLock (t : T)
  | unlock (t : T) (choice : Option T)
  | wait (t : T) (c : C) (timeoutMs : Int) (choice : Option T)
  | resume (t : T) (deadlock : Option T)
  | expire (t : T)
  | signal (t : T) (c : C) (choice : Option T)
  | broadcast (t : T) (c : C)
  | cleanup (t : T) (choice : Option T)
  | destructor (t : T)

/-- A call of a thread that is not in a condition wait. -/
def whenIdle (t : T) (s : State T C) (r : Option (State T C × Label T)) :
    Option (State T C × Label T) :=
  if (s.threads t).isSome then none else r

/-- One critical section. A thread inside a condition wait does nothing else. -/
def step (s : State T C) : Action T C → Option (State T C × Label T)
  | .lock t timeoutMs deadlock => whenIdle t s (some (lock t timeoutMs deadlock s))
  | .tryLock t => whenIdle t s (some (tryLock t s))
  | .unlock t choice => whenIdle t s (unlock t choice s)
  | .wait t c timeoutMs choice => whenIdle t s (externWait t c timeoutMs choice s)
  | .resume t deadlock => resume t deadlock s
  | .expire t =>
    (s.threads t).bind fun w =>
      if w.job.canExpire then
        (expire t s.threads).map fun thr => ({ s with threads := thr }, ⟨t, none⟩)
      else none
  | .signal t c choice =>
    whenIdle t s ((signal (.user c) choice s.threads).map fun thr =>
      ({ s with threads := thr }, ⟨t, some .ok⟩))
  | .broadcast t c =>
    whenIdle t s (some ({ s with threads := broadcast (.user c) s.threads }, ⟨t, some .ok⟩))
  | .cleanup t choice => whenIdle t s (cleanup t choice s)
  | .destructor t => whenIdle t s (some (destructor t s))

end

/-! ### The invariant -/

section
variable {T C : Type}

/-- What a thread that waits on a condition variable is doing. -/
def Fits : Cond C → Job C → Prop
  | c, .lock _ _ => c = .write
  | c, .wait _ _ c' _ => c = .user c'
  | c, .regrab _ _ _ _ => c = .write

variable [Fintype T] [DecidableEq C]

/-- The invariant of the mutex and its threads. -/
structure Safe (s : State T C) : Prop where
  idle : ∀ t, s.threads t ≠ none → s.lock.tid ≠ .owner t
  owner : ∀ t, s.lock.tid = .owner t → s.lock.vl = some t ∧ s.resources t = true
  resources : ∀ t, s.resources t = true → s.lock.tid = .owner t ∨ s.lock.tid = .deleted
  count : s.lock.waiting = waiting .write s.threads
  jobs : Jobs Fits s.threads

theorem Safe.init : Safe (State.init T C) := by
  refine ⟨fun t ht => absurd rfl ht, ?_, ?_, ?_, ?_⟩
  · intro t ht
    cases ht
  · intro t ht
    cases ht
  · exact (count_eq_zero_iff.mpr fun _ => rfl).symm
  · intro t w ht
    cases ht

namespace Safe

variable {s s' : State T C}

/-- A section that only wakes threads. -/
theorem wake (h : Safe s) {thr : Threads T (Cond C) (Job C)} (hsame : SameWaits s.threads thr) :
    Safe { s with threads := thr } := by
  refine ⟨fun t ht => h.idle t fun hnone => ht ((hsame.none_iff t).mpr hnone), h.owner,
    h.resources, ?_, hsame.jobs h.jobs⟩
  show s.lock.waiting = waiting .write thr
  rw [hsame.waiting]
  exact h.count

theorem setCmap (h : Safe s) (cmap : C → Option Nat) :
    Safe { s with lock := { s.lock with cmap := cmap } } :=
  ⟨h.idle, h.owner, h.resources, h.count, h.jobs⟩

variable [DecidableEq T] {t : T}

/-- A thread that waits leaves its wait. -/
theorem leave (h : Safe s) {w : Monitor.Wait (Cond C) (Job C)} (ht : s.threads t = some w) :
    Safe (leave t w.cond s) ∧
      (Mutex.leave t w.cond s).threads = Function.update s.threads t none ∧
      (Mutex.leave t w.cond s).lock.tid = s.lock.tid := by
  have hidle : ∀ u, Function.update s.threads t none u ≠ none → s.lock.tid ≠ .owner u := by
    intro u hu
    by_cases hut : u = t
    · rw [hut, Function.update_self] at hu
      exact absurd rfl hu
    · rw [Function.update_of_ne hut] at hu
      exact h.idle u hu
  have hjobs : Jobs Fits (Function.update s.threads t none) :=
    h.jobs.update t fun w hw => by cases hw
  have hup := waiting_update .write s.threads t none
  have hcount := h.count
  rw [ht] at hup
  simp only [isOn, Bool.toNat_false, Nat.add_zero] at hup
  have hfits := h.jobs t w ht
  cases hc : w.cond with
  | user c =>
    rw [hc] at hup
    refine ⟨⟨hidle, h.owner, h.resources, ?_, hjobs⟩, rfl, rfl⟩
    show s.lock.waiting = waiting .write (Function.update s.threads t none)
    simp only [reduceCtorEq, decide_false, Bool.toNat_false] at hup
    omega
  | write =>
    rw [hc] at hup
    refine ⟨⟨hidle, h.owner, h.resources, ?_, hjobs⟩, rfl, rfl⟩
    show s.lock.waiting - 1 = waiting .write (Function.update s.threads t none)
    simp only [decide_true, Bool.toNat_true] at hup
    omega
  | read =>
    -- nobody waits on the condition variable of the readers
    rw [hc] at hfits
    cases hj : w.job <;> (rw [hj] at hfits; cases hfits)

/-- A thread that does not own the mutex starts to wait. -/
theorem block (h : Safe s) {c : Cond C} {job : Job C} {n : Nat} (ht : s.threads t = none)
    (hidle : s.lock.tid ≠ .owner t) (hfits : Fits c job)
    (hn : n = s.lock.waiting + (decide (c = .write)).toNat) :
    Safe (blockOn t c job { s with lock := { s.lock with waiting := n } }) := by
  refine ⟨fun u hu => ?_, h.owner, h.resources, ?_, h.jobs.update t fun w hw => by cases hw; exact hfits⟩
  · by_cases hut : u = t
    · rw [hut]
      exact hidle
    · simp only [blockOn, Function.update_of_ne hut] at hu
      exact h.idle u hu
  · have hup := waiting_update .write s.threads t (some ⟨c, job, .blocked⟩)
    have hcount := h.count
    rw [ht] at hup
    simp only [isOn, Bool.toNat_false, Nat.add_zero] at hup
    show n = waiting .write (Function.update s.threads t _)
    omega

/-- A thread takes the free mutex. -/
theorem grabIntern (h : Safe s) (ht : s.threads t = none) (htid : s.lock.tid = .unlocked) :
    Safe (grabIntern t s) := by
  refine ⟨fun u hu howner => ?_, fun u howner => ?_, fun u hu => ?_, h.count, h.jobs⟩
  · cases howner
    exact hu ht
  · cases howner
    exact ⟨rfl, Function.update_self _ _ _⟩
  · by_cases hut : u = t
    · rw [hut]
      exact Or.inl rfl
    · replace hu : Function.update s.resources t true u = true := hu
      rw [Function.update_of_ne hut] at hu
      rcases h.resources u hu with hold | hold
      · exact absurd (hold.symm.trans htid) (by simp)
      · exact absurd (hold.symm.trans htid) (by simp)

/-- The owner gives the mutex up. -/
theorem release (h : Safe s) {choice : Option T} (htid : s.lock.tid = .owner t)
    (hrel : releaseAndSignal choice { s with resources := Function.update s.resources t false } =
      some s') :
    Safe s' ∧ s'.lock.tid = .unlocked ∧ SameWaits s.threads s'.threads := by
  obtain ⟨thr, hthr, rfl⟩ := Option.map_eq_some_iff.mp hrel
  have hsame := sameWaits_signalIf hthr
  have hfree : Safe ⟨{ s.lock with tid := .unlocked, vl := none }, s.threads,
      Function.update s.resources t false⟩ := by
    refine ⟨fun u _ howner => ?_, fun u howner => ?_, fun u hu => ?_, h.count, h.jobs⟩
    · cases howner
    · cases howner
    · by_cases hut : u = t
      · replace hu : Function.update s.resources t false u = true := hu
        rw [hut, Function.update_self] at hu
        cases hu
      · replace hu : Function.update s.resources t false u = true := hu
        rw [Function.update_of_ne hut] at hu
        rcases h.resources u hu with hold | hold
        · exact absurd (Tid.owner.inj (hold.symm.trans htid)) hut
        · exact absurd (hold.symm.trans htid) (by simp)
  have hunlocked : (match s.lock.tid with
      | .owner _ => .unlocked
      | tid => tid) = (.unlocked : Tid T) := by rw [htid]
  rw [hunlocked]
  exact ⟨hfree.wake hsame, rfl, hsame⟩

end Safe

/-! ### One critical section -/

variable [DecidableEq T] {s s' : State T C} {lab : Label T} {t : T} {deadlock choice : Option T}

/-- What a section of the thread `t` leaves: the invariant, and the waits of the other threads. -/
structure Kept (t : T) (s s' : State T C) (lab : Label T) : Prop where
  safe : Safe s'
  thread : lab.thread = t
  elsewhere : SameElsewhere t s.threads s'.threads

omit [DecidableEq T] in
theorem Kept.same (h : Safe s) (t : T) (out : Option (Outcome T)) : Kept t s s ⟨t, out⟩ :=
  ⟨h, rfl, (SameWaits.refl _).elsewhere t⟩

/-- The loop of `grabImpl` takes the mutex, waits, or fails without a change. -/
theorem answer_grabLoop (h : Safe s) (ht : s.threads t = none) (htid : s.lock.tid ≠ .owner t)
    {job : Job C} (hfits : Fits .write job) {done : Outcome T}
    (hcall : answer t done (grabLoop t job deadlock s) = (s', lab)) :
    Kept t s s' lab ∧
      (lab.result = some done ∧ s'.lock.tid = .owner t ∨
        lab.result = none ∧ s'.threads t = some ⟨.write, job, .blocked⟩ ∨
        (∃ e, lab.result = some (.raised [e])) ∧ s' = s) := by
  unfold grabLoop at hcall
  split at hcall
  · rename_i u howner
    split at hcall
    · cases hcall
      exact ⟨Kept.same h t _, Or.inr (Or.inr ⟨⟨_, rfl⟩, rfl⟩)⟩
    · cases hcall
      exact ⟨⟨h.block ht htid hfits rfl, rfl, sameElsewhere_update t _⟩,
        Or.inr (Or.inl ⟨rfl, Function.update_self _ _ _⟩)⟩
  · cases hcall
    exact ⟨Kept.same h t _, Or.inr (Or.inr ⟨⟨_, rfl⟩, rfl⟩)⟩
  · rename_i hfree
    cases hcall
    exact ⟨⟨h.grabIntern ht hfree, rfl, (SameWaits.refl _).elsewhere t⟩, Or.inl ⟨rfl, rfl⟩⟩

theorem lock_kept (h : Safe s) (ht : s.threads t = none) {timeoutMs : Int}
    (hcall : lock t timeoutMs deadlock s = (s', lab)) : Kept t s s' lab := by
  unfold lock grabImpl at hcall
  split at hcall
  · cases hcall
    exact Kept.same h t _
  · rename_i htid
    have hfits : Fits .write (.lock .write timeoutMs : Job C) := rfl
    exact (answer_grabLoop h ht htid hfits hcall).1

theorem tryLock_kept (h : Safe s) (ht : s.threads t = none) (hcall : tryLock t s = (s', lab)) :
    Kept t s s' lab := by
  unfold tryLock at hcall
  split at hcall
  · cases hcall
    exact Kept.same h t _
  · rename_i htid
    cases hcall
    exact ⟨h.grabIntern ht (not_not.mp htid), rfl, (SameWaits.refl _).elsewhere t⟩

theorem unlock_kept (h : Safe s) (hcall : unlock t choice s = some (s', lab)) :
    Kept t s s' lab := by
  unfold unlock at hcall
  split at hcall
  · rename_i u htid
    split at hcall
    · cases hcall
      exact Kept.same h t _
    · rename_i hut
      rw [not_not.mp hut] at htid
      obtain ⟨s1, hrel, heq⟩ := Option.map_eq_some_iff.mp hcall
      cases heq
      obtain ⟨hsafe, -, hsame⟩ := h.release htid hrel
      exact ⟨hsafe, rfl, hsame.elsewhere t⟩
  · cases hcall
    exact Kept.same h t _

/-- A condition wait fails without a change, or the owner has given the mutex up and waits. -/
theorem externWait_kept (h : Safe s) (ht : s.threads t = none) {c : C} {timeoutMs : Int}
    (hcall : externWait t c timeoutMs choice s = some (s', lab)) :
    Kept t s s' lab ∧
      ((∃ e, lab.result = some (.raised [e])) ∧ s' = s ∨
        lab.result = none ∧ s.lock.tid = .owner t ∧
          s'.threads t = some ⟨.user c, .wait .write 1 c timeoutMs, .blocked⟩) := by
  unfold externWait at hcall
  split at hcall
  · rename_i u htid
    split at hcall
    · cases hcall
      exact ⟨Kept.same h t _, Or.inl ⟨⟨_, rfl⟩, rfl⟩⟩
    · rename_i hut
      rw [not_not.mp hut] at htid
      obtain ⟨s1, hrel, heq⟩ := Option.map_eq_some_iff.mp hcall
      cases heq
      have hcounted : Safe { s with lock := { s.lock with cmap := incCond c s.lock.cmap } } :=
        h.setCmap _
      obtain ⟨hsafe, hfree, hsame⟩ := hcounted.release htid hrel
      have hidle : s1.threads t = none := (hsame.none_iff t).mpr ht
      have hown : s1.lock.tid ≠ .owner t := by
        rw [hfree]
        simp
      refine ⟨⟨hsafe.block hidle hown rfl rfl, rfl,
        (hsame.elsewhere t).trans (sameElsewhere_update t _)⟩, Or.inr ⟨rfl, htid, ?_⟩⟩
      exact Function.update_self _ _ _
  · cases hcall
    exact ⟨Kept.same h t _, Or.inl ⟨⟨_, rfl⟩, rfl⟩⟩

theorem cleanup_kept (h : Safe s) (hcall : cleanup t choice s = some (s', lab)) :
    Kept t s s' lab := by
  unfold cleanup at hcall
  split at hcall
  · dsimp only at hcall
    split at hcall
    · rename_i htid
      obtain ⟨s1, hrel, heq⟩ := Option.map_eq_some_iff.mp hcall
      cases heq
      obtain ⟨hsafe, -, hsame⟩ := h.release htid hrel
      exact ⟨hsafe, rfl, hsame.elsewhere t⟩
    · rename_i htid
      cases hcall
      refine ⟨⟨h.idle, fun u howner => ?_, fun u hu => ?_, h.count, h.jobs⟩, rfl,
        (SameWaits.refl _).elsewhere t⟩
      · have hut : u ≠ t := by
          rintro rfl
          exact htid howner
        obtain ⟨hvl, hres⟩ := h.owner u howner
        exact ⟨hvl, (Function.update_of_ne hut _ _).trans hres⟩
      · replace hu : Function.update s.resources t false u = true := hu
        by_cases hut : u = t
        · rw [hut, Function.update_self] at hu
          cases hu
        · rw [Function.update_of_ne hut] at hu
          exact h.resources u hu
  · cases hcall

/-- The rest of a call after its condition wait. A condition wait goes on waiting, returns with the
mutex, or fails without it. -/
theorem resume_kept (h : Safe s) (hcall : resume t deadlock s = some (s', lab)) :
    Kept t s s' lab ∧ ∃ w, s.threads t = some w ∧
      ((∀ kind timeoutMs, w.job ≠ .lock kind timeoutMs) →
        (∃ rc, lab.result = some (.reacquired rc)) ∧ s'.lock.tid = .owner t ∨
        (lab.result = none ∧ ∃ rc, s'.threads t = some ⟨.write, .regrab .write 1 1 rc, .blocked⟩) ∨
        (∃ e, lab.result = some (.raised [e])) ∧ s'.lock.tid ≠ .owner t) := by
  unfold resume at hcall
  split at hcall
  · cases hcall
  · rename_i w ht
    split at hcall
    · cases hcall
    · obtain ⟨hsafe, hthreads, htid⟩ := h.leave ht
      have hidle : (leave t w.cond s).threads t = none := by rw [hthreads, Function.update_self]
      have hown : (leave t w.cond s).lock.tid ≠ .owner t := by
        rw [htid]
        exact h.idle t (by rw [ht]; simp)
      have hleft : SameElsewhere t s.threads (leave t w.cond s).threads := by
        rw [hthreads]
        exact sameElsewhere_update t none
      have hkept : Kept t (leave t w.cond s) s' lab → Kept t s s' lab := fun hk =>
        ⟨hk.safe, hk.thread, hleft.trans hk.elsewhere⟩
      -- both ways back to the mutex end in the loop
      have hback : ∀ rc : Bool, answer t (.reacquired rc)
            (grabLoop t (.regrab .write 1 1 rc) deadlock (leave t w.cond s)) = (s', lab) →
          Kept t s s' lab ∧
            ((∃ rc, lab.result = some (.reacquired rc)) ∧ s'.lock.tid = .owner t ∨
            (lab.result = none ∧
              ∃ rc, s'.threads t = some ⟨.write, .regrab .write 1 1 rc, .blocked⟩) ∨
            (∃ e, lab.result = some (.raised [e])) ∧ s'.lock.tid ≠ .owner t) := by
        intro rc hanswer
        have hfits : Fits .write (.regrab .write 1 1 rc : Job C) := rfl
        obtain ⟨hk, hend⟩ := answer_grabLoop hsafe hidle hown hfits hanswer
        refine ⟨hkept hk, ?_⟩
        rcases hend with ⟨hres, howner⟩ | ⟨hres, hthread⟩ | ⟨hres, rfl⟩
        · exact Or.inl ⟨⟨rc, hres⟩, howner⟩
        · exact Or.inr (Or.inl ⟨hres, rc, hthread⟩)
        · exact Or.inr (Or.inr ⟨hres, hown⟩)
      dsimp only at hcall
      split at hcall
      · rename_i kind timeoutMs hjob
        refine ⟨?_, w, ht, fun hno => absurd hjob (hno _ _)⟩
        split at hcall
        · cases hcall
          exact hkept (Kept.same hsafe t _)
        · have hfits : Fits .write (.lock kind timeoutMs : Job C) := rfl
          exact hkept (answer_grabLoop hsafe hidle hown hfits (Option.some.inj hcall)).1
      · have hgrab : ∀ job : Job C, grabImpl t job deadlock (leave t w.cond s) =
            grabLoop t job deadlock (leave t w.cond s) := fun job => if_neg hown
        rw [hgrab] at hcall
        obtain ⟨hk, hend⟩ := hback _ (Option.some.inj hcall)
        exact ⟨hk, w, ht, fun _ => hend⟩
      · obtain ⟨hk, hend⟩ := hback _ (Option.some.inj hcall)
        exact ⟨hk, w, ht, fun _ => hend⟩

variable [Fintype C]

/-- The destructor leaves a deleted mutex that nobody owns. -/
theorem destructor_kept (h : Safe s) (hcall : destructor t s = (s', lab)) : Kept t s s' lab := by
  have hconds : SameWaits s.threads (if decide (∃ c, (s.lock.cmap c).isSome) then
      broadcastConds s.lock.cmap s.threads else s.threads) := by
    split
    · exact sameWaits_broadcastConds _ _
    · exact SameWaits.refl _
  have hdeleted : ∀ resources : T → Bool,
      Safe ⟨{ s.lock with tid := .deleted }, s.threads, resources⟩ := fun resources =>
    ⟨fun _ _ howner => (by cases howner), fun _ howner => (by cases howner), fun _ _ => Or.inr rfl,
      h.count, h.jobs⟩
  unfold destructor at hcall
  split at hcall
  · cases hcall
    have hall := hconds.trans (sameWaits_broadcastIf s.lock.waiting .write _)
    exact ⟨(hdeleted _).wake hall, rfl, hall.elsewhere t⟩
  · cases hcall
    exact ⟨(hdeleted _).wake hconds, rfl, hconds.elsewhere t⟩

omit [Fintype T] [DecidableEq C] [DecidableEq T] [Fintype C] in
theorem whenIdle_eq_some {r : Option (State T C × Label T)} (h : whenIdle t s r = some (s', lab)) :
    s.threads t = none ∧ r = some (s', lab) := by
  unfold whenIdle at h
  split at h
  · cases h
  · rename_i hsome
    exact ⟨by simpa using hsome, h⟩

/-- Every critical section keeps the invariant, and the waits of the other threads. -/
theorem Safe.step (h : Safe s) {a : Action T C} (hstep : step s a = some (s', lab)) :
    Kept lab.thread s s' lab := by
  have hkept : ∀ {t : T}, Kept t s s' lab → Kept lab.thread s s' lab := by
    intro t hk
    rw [hk.thread]
    exact hk
  cases a with
  | lock t timeoutMs deadlock =>
    obtain ⟨ht, hcall⟩ := whenIdle_eq_some hstep
    exact hkept (lock_kept h ht (Option.some.inj hcall))
  | tryLock t =>
    obtain ⟨ht, hcall⟩ := whenIdle_eq_some hstep
    exact hkept (tryLock_kept h ht (Option.some.inj hcall))
  | unlock t choice => exact hkept (unlock_kept h (whenIdle_eq_some hstep).2)
  | wait t c timeoutMs choice =>
    obtain ⟨ht, hcall⟩ := whenIdle_eq_some hstep
    exact hkept (externWait_kept h ht hcall).1
  | resume t deadlock => exact hkept (resume_kept h hstep).1
  | expire t =>
    obtain ⟨w, -, hexp⟩ := Option.bind_eq_some_iff.mp hstep
    split at hexp
    · obtain ⟨thr, hthr, heq⟩ := Option.map_eq_some_iff.mp hexp
      cases heq
      exact ⟨h.wake (sameWaits_expire hthr), rfl, (sameWaits_expire hthr).elsewhere t⟩
    · cases hexp
  | signal t c choice =>
    obtain ⟨-, hcall⟩ := whenIdle_eq_some hstep
    obtain ⟨thr, hthr, heq⟩ := Option.map_eq_some_iff.mp hcall
    cases heq
    exact ⟨h.wake (sameWaits_signal hthr), rfl, (sameWaits_signal hthr).elsewhere t⟩
  | broadcast t c =>
    obtain ⟨-, hcall⟩ := whenIdle_eq_some hstep
    cases hcall
    exact ⟨h.wake (sameWaits_broadcast _ _), rfl, (sameWaits_broadcast _ _).elsewhere t⟩
  | cleanup t choice => exact hkept (cleanup_kept h (whenIdle_eq_some hstep).2)
  | destructor t => exact hkept (destructor_kept h (Option.some.inj (whenIdle_eq_some hstep).2))

end

/-! ### Who has the mutex -/

section
variable {T C : Type}

/-- The sections that return with the mutex. -/
def Action.enters : Action T C → Option (Outcome T) → Bool
  | .lock .., some .ok | .tryLock _, some .ok | .resume .., some .ok
  | .resume .., some (.reacquired _) => true
  | _, _ => false

/-- The sections after which the thread no longer has the mutex. -/
def Action.leaves : Action T C → Option (Outcome T) → Bool
  | .unlock .., some .ok | .wait .., none | .cleanup .., some (.raised _) => true
  | _, _ => false

variable [DecidableEq T]

/-- Whether the thread has the mutex after a section, by what the section returned. Nobody has a
deleted mutex. -/
def hasAfter (t : T) (had : Bool) : Action T C × Label T → Bool
  | (.destructor _, _) => false
  | (a, lab) =>
    if lab.thread = t then a.enters lab.result || (had && !a.leaves lab.result) else had

/-- Whether the thread has the mutex after a history of sections. -/
def has (t : T) (history : List (Action T C × Label T)) : Bool :=
  history.foldl (hasAfter t) false

attribute [local simp] Action.enters Action.leaves hasAfter

attribute [local grind =] Action.enters Action.leaves hasAfter

variable [Fintype T] [DecidableEq C] {s s' : State T C} {lab : Label T} {t u : T}
  {deadlock choice : Option T}

omit [Fintype T] [DecidableEq C] in
/-- The loop of `grabImpl` ends with the mutex, which was free, or with the owner there was. -/
theorem answer_owner {job : Job C} {done : Outcome T}
    (hcall : answer t done (grabLoop t job deadlock s) = (s', lab)) :
    lab.thread = t ∧
      (lab.result = some done ∧ s.lock.tid = .unlocked ∧ s'.lock.tid = .owner t ∨
        (lab.result = none ∨ ∃ es, lab.result = some (.raised es)) ∧
          s'.lock.tid = s.lock.tid) := by
  unfold grabLoop at hcall
  split at hcall
  · split at hcall
    · cases hcall
      exact ⟨rfl, .inr ⟨.inr ⟨_, rfl⟩, rfl⟩⟩
    · cases hcall
      exact ⟨rfl, .inr ⟨.inl rfl, rfl⟩⟩
  · cases hcall
    exact ⟨rfl, .inr ⟨.inr ⟨_, rfl⟩, rfl⟩⟩
  · rename_i hfree
    cases hcall
    exact ⟨rfl, .inl ⟨rfl, hfree, rfl⟩⟩

theorem resume_owner (h : Safe s) {t : T} {deadlock : Option T}
    (hstep : resume t deadlock s = some (s', lab)) (u : T) :
    decide (s'.lock.tid = .owner u) =
      hasAfter u (decide (s.lock.tid = .owner u)) ((.resume t deadlock : Action T C), lab) := by
  unfold resume at hstep
  split at hstep
  · cases hstep
  · rename_i w ht
    split at hstep
    · cases hstep
    · have hidle : s.lock.tid ≠ .owner t := h.idle t (by rw [ht]; simp)
      have hleft := (h.leave ht).2.2
      -- each way on ends in the loop
      have hloop : ∀ (job : Job C) (done : Outcome T), done = .ok ∨ (∃ b, done = .reacquired b) →
          answer t done (grabLoop t job deadlock (leave t w.cond s)) = (s', lab) →
          decide (s'.lock.tid = .owner u) =
            hasAfter u (decide (s.lock.tid = .owner u)) ((.resume t deadlock : Action T C), lab) := by
        intro job done hdone hcall
        have hend := answer_owner hcall
        rcases hdone with rfl | ⟨b, rfl⟩ <;> grind
      have hgrab : ∀ job : Job C, grabImpl t job deadlock (leave t w.cond s) =
          grabLoop t job deadlock (leave t w.cond s) := fun job => if_neg (hleft ▸ hidle)
      dsimp only at hstep
      split at hstep
      · split at hstep
        · cases hstep
          simp [hleft]
        · exact hloop _ _ (.inl rfl) (Option.some.inj hstep)
      · rw [hgrab] at hstep
        exact hloop _ _ (.inr ⟨_, rfl⟩) (Option.some.inj hstep)
      · exact hloop _ _ (.inr ⟨_, rfl⟩) (Option.some.inj hstep)

variable [Fintype C]

/-- The owner is the thread that has the mutex by the history. -/
theorem owner_step (h : Safe s) {a : Action T C} (hstep : step s a = some (s', lab)) (u : T) :
    decide (s'.lock.tid = .owner u) = hasAfter u (decide (s.lock.tid = .owner u)) (a, lab) := by
  cases a with
  | lock t timeoutMs deadlock =>
    obtain ⟨ht, hcall⟩ := whenIdle_eq_some hstep
    replace hcall := Option.some.inj hcall
    unfold lock grabImpl at hcall
    split at hcall
    -- the owner gets an exception and keeps the mutex
    · cases hcall
      simp
    · have := answer_owner hcall
      grind
  | tryLock t =>
    obtain ⟨ht, hcall⟩ := whenIdle_eq_some hstep
    replace hcall := Option.some.inj hcall
    unfold tryLock at hcall
    split at hcall
    · cases hcall
      simp
    · cases hcall
      grind [grabIntern]
  | unlock t choice =>
    obtain ⟨-, hcall⟩ := whenIdle_eq_some hstep
    replace hcall : unlock t choice s = some (s', lab) := hcall
    unfold unlock at hcall
    split at hcall
    · rename_i v htid
      split at hcall
      · cases hcall
        simp
      · rename_i hvt
        rw [not_not.mp hvt] at htid
        obtain ⟨s1, hrel, heq⟩ := Option.map_eq_some_iff.mp hcall
        cases heq
        -- nobody has the mutex now, not even the thread that is woken
        have hfree := (h.release htid hrel).2.1
        grind
    · cases hcall
      simp
  | wait t c timeoutMs choice =>
    obtain ⟨-, hcall⟩ := whenIdle_eq_some hstep
    replace hcall : externWait t c timeoutMs choice s = some (s', lab) := hcall
    unfold externWait at hcall
    split at hcall
    · rename_i v htid
      split at hcall
      · cases hcall
        simp
      · rename_i hvt
        rw [not_not.mp hvt] at htid
        obtain ⟨s1, hrel, heq⟩ := Option.map_eq_some_iff.mp hcall
        cases heq
        -- the call has not returned, and the thread is without the mutex until it does
        have hfree := ((h.setCmap (incCond c s.lock.cmap)).release htid hrel).2.1
        grind [blockOn]
    · cases hcall
      simp
  | resume t deadlock => exact resume_owner h hstep u
  | expire t =>
    obtain ⟨w, -, hexp⟩ := Option.bind_eq_some_iff.mp hstep
    split at hexp
    · obtain ⟨thr, -, heq⟩ := Option.map_eq_some_iff.mp hexp
      cases heq
      simp
    · cases hexp
  | signal t c choice =>
    obtain ⟨-, hcall⟩ := whenIdle_eq_some hstep
    obtain ⟨thr, -, heq⟩ := Option.map_eq_some_iff.mp hcall
    cases heq
    simp
  | broadcast t c =>
    obtain ⟨-, hcall⟩ := whenIdle_eq_some hstep
    cases hcall
    simp
  | cleanup t choice =>
    obtain ⟨-, hcall⟩ := whenIdle_eq_some hstep
    replace hcall : cleanup t choice s = some (s', lab) := hcall
    unfold cleanup at hcall
    split at hcall
    · dsimp only at hcall
      split at hcall
      · rename_i htid
        obtain ⟨s1, hrel, heq⟩ := Option.map_eq_some_iff.mp hcall
        cases heq
        have hfree := (h.release htid hrel).2.1
        grind
      · cases hcall
        simp
    · cases hcall
  | destructor t =>
    obtain ⟨-, hcall⟩ := whenIdle_eq_some hstep
    have hd : destructor t s = (s', lab) := Option.some.inj hcall
    unfold destructor at hd
    split at hd <;> (cases hd; simp)

/-- The history of a run tells who the owner is. -/
theorem owner_run {as : List (Action T C)} {labs : List (Label T)} (h : Safe s)
    (hrun : Lts.run step s as = some (s', labs)) (u : T) :
    (as.zip labs).foldl (hasAfter u) (decide (s.lock.tid = .owner u)) =
      decide (s'.lock.tid = .owner u) := by
  induction as generalizing s labs with
  | nil =>
    cases hrun
    rfl
  | cons a as ih =>
    obtain ⟨s1, lab, labs', hstep, hrest, rfl⟩ := Lts.run_cons hrun
    rw [List.zip_cons_cons, List.foldl_cons, ← owner_step h hstep]
    exact ih (Safe.step h hstep).safe hrest

/-- In every run, a thread has the mutex, by what its calls returned, exactly when it is the owner.
So no two threads have it; and a thread that has it is in no wait and will release it when it
exits. -/
theorem run_exclusive (as : List (Action T C)) (s : State T C) (labs : List (Label T))
    (hrun : Lts.run step (State.init T C) as = some (s, labs)) :
    (∀ t, has t (as.zip labs) = true ↔ s.lock.tid = .owner t) ∧
      (∀ t u, has t (as.zip labs) = true → has u (as.zip labs) = true → t = u) ∧
      ∀ t, has t (as.zip labs) = true → s.threads t = none ∧ s.resources t = true := by
  have hsafe : Safe s := Lts.run_invariant (fun _ _ _ _ hs hstep => (hs.step hstep).safe) as _ s labs
    Safe.init hrun
  have howner : ∀ t, has t (as.zip labs) = true ↔ s.lock.tid = .owner t := by
    intro t
    have hhistory := owner_run Safe.init hrun t
    rw [decide_eq_false (fun h => by cases h)] at hhistory
    rw [has, hhistory, decide_eq_true_iff]
  refine ⟨howner, fun t u ht hu => ?_, fun t ht => ?_⟩
  · have hsame := ((howner t).mp ht).symm.trans ((howner u).mp hu)
    exact Tid.owner.inj hsame
  · have hown := (howner t).mp ht
    exact ⟨by_contra fun hwait => hsafe.idle t hwait hown, (hsafe.owner t hown).2⟩

/-- Thread 0 gives the mutex up in a condition wait, and thread 1 has it. -/
theorem run_exclusive_wait :
    let as : List (Action (Fin 2) (Fin 1)) := [.lock 0 0 none, .wait 0 0 0 none, .lock 1 0 none]
    ∃ s labs, Lts.run step (State.init (Fin 2) (Fin 1)) as = some (s, labs) ∧
      has 1 (as.zip labs) = true ∧ s.lock.tid = .owner 1 ∧ s.resources 1 = true := by
  intro as
  have hrun : (Lts.run step (State.init (Fin 2) (Fin 1)) as).map (fun r => has 1 (as.zip r.2)) =
      some true := by
    decide
  obtain ⟨r, hr, hhas⟩ := Option.map_eq_some_iff.mp hrun
  obtain ⟨howner, -, hheld⟩ := run_exclusive as r.1 r.2 hr
  exact ⟨r.1, r.2, hr, hhas, (howner 1).mp hhas, (hheld 1 hhas).2⟩

end

end Qore.SmartLock.Mutex
