import Mathlib
import Qore.SmartLock.Mutex

/-!
# `Qore.SmartLock.Wait`: condition waits keep the lock

`externWaitImpl` saves how often the thread holds the lock, gives it up, waits on the `Condition`,
and takes the lock back. The thread can wait once more on the way back, and it can fail when the
lock is deleted or with a deadlock.

* `step_elsewhere`: a section of one thread leaves the waits of the others.
* `resume_result`: what the way back does with the saved count.
* `wait_keeps`: for both kinds of locks, a condition wait that returns has the lock as before, and
  one that raises an exception leaves the invariant and does not hold the lock.
-/

set_option autoImplicit false

namespace Qore.SmartLock

open Qore.Lib
open Qore.Lib.Monitor hiding Wait

section
variable {T C : Type}

/-- The kind of the lock that a condition wait has given up, and how often the thread held it. -/
def Job.saved : Job C → Option (Kind × Nat)
  | .lock _ _ => none
  | .wait .read count _ _ => some (.read, count)
  | .wait .write _ _ _ => some (.write, 1)
  | .regrab .read count _ _ => some (.read, count)
  | .regrab .write _ _ _ => some (.write, 1)

/-- The thread holds the lock of the kind so many times. The write lock is not recursive. -/
def HoldsTimes (lock : RWLock T C) (t : T) : Kind → Nat → Prop
  | .read, n => lock.tmap t = some n
  | .write, n => lock.tid = .owner t ∧ n = 1

variable {s s' : State T C} {t : T} {lab : Label T}

/-! ### The waits of the other threads -/

theorem answer_state {op : Op} {g : Grab T} (h : answer t op (s, g) = (s', lab)) :
    s' = s ∧ lab.thread = t := by
  cases g <;> (cases h; exact ⟨rfl, rfl⟩)

variable [DecidableEq T] {kind : Kind} {waited : Bool} {deadlock : Option T} {timeoutMs : Int}
  {timedOut : Bool}

theorem markReadLockIntern_same (t : T) (s : State T C) :
    (markReadLockIntern t s).lock.tid = s.lock.tid ∧ (markReadLockIntern t s).threads = s.threads := by
  unfold markReadLockIntern
  dsimp only
  split <;> exact ⟨rfl, rfl⟩

/-- A lock function changes the wait of its thread only. -/
theorem acquire_elsewhere {job : Job C} {g : Grab T} (hw : waited = true → s.lock.tmap t = none)
    (h : acquire kind t job waited deadlock s = (s', g)) :
    SameElsewhere t s.threads s'.threads := by
  rcases acquire_cases hw h with ⟨-, -, ⟨-, rfl⟩ | ⟨-, -, rfl⟩⟩ | ⟨-, -, -, rfl⟩ | ⟨e, -, rfl, -⟩
  · rw [(markReadLockIntern_same t s).2]
    exact (SameWaits.refl _).elsewhere t
  · exact (SameWaits.refl _).elsewhere t
  · exact sameElsewhere_update t _
  · exact (SameWaits.refl _).elsewhere t

theorem lockCall_elsewhere {job : Job C} {op : Op} (hw : waited = true → s.lock.tmap t = none)
    (h : answer t op (acquire kind t job waited deadlock s) = (s', lab)) :
    lab.thread = t ∧ SameElsewhere t s.threads s'.threads := by
  obtain ⟨s1, g, hacq⟩ : ∃ s1 g, acquire kind t job waited deadlock s = (s1, g) := ⟨_, _, rfl⟩
  rw [hacq] at h
  obtain ⟨rfl, hthread⟩ := answer_state h
  exact ⟨hthread, acquire_elsewhere hw hacq⟩

theorem readLock_elsewhere (h : readLock t timeoutMs deadlock s = (s', lab)) :
    lab.thread = t ∧ SameElsewhere t s.threads s'.threads := by
  unfold readLock at h
  split at h
  · cases h
    exact ⟨rfl, (SameWaits.refl _).elsewhere t⟩
  · exact lockCall_elsewhere (by simp) h

theorem writeLock_elsewhere (h : writeLock t timeoutMs deadlock s = (s', lab)) :
    lab.thread = t ∧ SameElsewhere t s.threads s'.threads := by
  unfold writeLock at h
  split at h
  · cases h
    exact ⟨rfl, (SameWaits.refl _).elsewhere t⟩
  · exact lockCall_elsewhere (by simp) h

/-! ### The way back -/

/-- The write lock is taken back, waited for, or not given. -/
theorem regrabWriteLock_result (hnone : s.lock.tmap t = none)
    (h : regrabWriteLock t timedOut waited deadlock s = (s', lab)) :
    lab.thread = t ∧ SameElsewhere t s.threads s'.threads ∧
      (lab.result = some (.reacquired .write 1 timedOut) ∨
        (lab.result = none ∧ ∃ w, s'.threads t = some w ∧ w.job.saved = some (.write, 1)) ∨
        (∃ e, lab.result = some (.raised [e])) ∧ s' = s) := by
  obtain ⟨s1, g, hacq⟩ : ∃ s1 g,
      acquire .write t (.regrab .write 1 1 timedOut) waited deadlock s = (s1, g) := ⟨_, _, rfl⟩
  have hframe := acquire_elsewhere (fun _ => hnone) hacq
  unfold regrabWriteLock at h
  rw [hacq] at h
  rcases acquire_cases (fun _ => hnone) hacq with ⟨rfl, -⟩ | ⟨rfl, -, -, rfl⟩ | ⟨e, rfl, rfl, -⟩
  · cases h
    exact ⟨rfl, hframe, Or.inl rfl⟩
  · cases h
    exact ⟨rfl, hframe, Or.inr (Or.inl ⟨rfl, _, Function.update_self _ _ _, rfl⟩)⟩
  · cases h
    exact ⟨rfl, hframe, Or.inr (Or.inr ⟨⟨e, rfl⟩, rfl⟩)⟩

/-- When nobody has the write lock, the read locks are taken back one after the other. -/
theorem regrabReadLocks_unlocked {count : Nat} :
    ∀ (left : Nat) (s s' : State T C) (lab : Label T), s.lock.tid = .unlocked →
      regrabReadLocks t count timedOut false deadlock left s = (s', lab) →
      lab = ⟨t, .wait, some (.reacquired .read count timedOut)⟩ ∧ s'.threads = s.threads := by
  intro left
  induction left with
  | zero =>
    intro s s' lab _ h
    cases h
    exact ⟨rfl, rfl⟩
  | succ left ih =>
    intro s s' lab htid h
    have hok : acquire .read t (.regrab .read count (left + 1) timedOut) false deadlock s =
        (markReadLockIntern t s, .ok) := by
      show grabReadLockIntern t _ false deadlock s = _
      unfold grabReadLockIntern
      rw [htid]
      rfl
    obtain ⟨hsame, hthreads⟩ := markReadLockIntern_same t s
    rw [regrabReadLocks, hok] at h
    obtain ⟨hlab, hlast⟩ := ih _ _ _ (hsame.trans htid) h
    exact ⟨hlab, hlast.trans hthreads⟩

variable [DecidableEq C]

/-- The read locks are taken back, waited for, or not given: only the first one can wait or fail. -/
theorem regrabReadLocks_result [Fintype T] (h : Safe s) {count left : Nat} (hleft : 0 < left)
    (hnone : s.lock.tmap t = none)
    (hcall : regrabReadLocks t count timedOut waited deadlock left s = (s', lab)) :
    lab.thread = t ∧ SameElsewhere t s.threads s'.threads ∧
      (lab.result = some (.reacquired .read count timedOut) ∨
        (lab.result = none ∧ ∃ w, s'.threads t = some w ∧ w.job.saved = some (.read, count)) ∨
        (∃ e, lab.result = some (.raised [e])) ∧ s' = s) := by
  obtain ⟨k, rfl⟩ : ∃ k, left = k + 1 := ⟨left - 1, by omega⟩
  obtain ⟨s1, g, hacq⟩ : ∃ s1 g,
      acquire .read t (.regrab .read count (k + 1) timedOut) waited deadlock s = (s1, g) :=
    ⟨_, _, rfl⟩
  have hframe := acquire_elsewhere (fun _ => hnone) hacq
  rw [regrabReadLocks, hacq] at hcall
  cases g with
  | ok =>
    obtain ⟨-, -, hread⟩ := acquire_ok h (fun _ => hnone) hacq
    obtain ⟨rfl, hthreads⟩ := regrabReadLocks_unlocked k s1 s' lab (hread rfl).1 hcall
    rw [hthreads]
    exact ⟨rfl, hframe, Or.inl rfl⟩
  | block =>
    rcases acquire_cases (fun _ => hnone) hacq with ⟨hg, -⟩ | ⟨-, -, -, rfl⟩ | ⟨e, hg, -⟩
    · cases hg
    · cases hcall
      exact ⟨rfl, hframe, Or.inr (Or.inl ⟨rfl, _, Function.update_self _ _ _, rfl⟩)⟩
    · cases hg
  | fail e =>
    rcases acquire_cases (fun _ => hnone) hacq with ⟨hg, -⟩ | ⟨hg, -⟩ | ⟨e', -, rfl, -⟩
    · cases hg
    · cases hg
    · cases hcall
      exact ⟨rfl, hframe, Or.inr (Or.inr ⟨⟨_, rfl⟩, rfl⟩)⟩

/-- The thread that leaves a wait changes its own wait only. A condition wait returns with what it
has saved, goes on waiting with it, or fails without the lock. -/
theorem resume_result [Fintype T] (h : Safe s) (hcall : resume t deadlock s = some (s', lab)) :
    lab.thread = t ∧ SameElsewhere t s.threads s'.threads ∧ ∃ w, s.threads t = some w ∧
      ∀ kind n, w.job.saved = some (kind, n) →
        (∃ b, lab.result = some (.reacquired kind n b)) ∨
        (lab.result = none ∧ ∃ w', s'.threads t = some w' ∧ w'.job.saved = some (kind, n)) ∨
        (∃ e, lab.result = some (.raised [e])) ∧ ¬Holds s'.lock t := by
  unfold resume at hcall
  split at hcall
  · cases hcall
  · rename_i w ht
    split at hcall
    · cases hcall
    · obtain ⟨hsame, hthreads, -, -⟩ := leave_spec t w.cond s
      have hnot : ¬Holds (leave t w.cond s).lock t := by
        rw [hsame.holds]
        exact h.idle t (by rw [ht]; simp)
      have hnone : (leave t w.cond s).lock.tmap t = none := by
        rw [← Option.not_isSome_iff_eq_none]
        exact fun hsome => hnot (Or.inr hsome)
      have hleft : SameElsewhere t s.threads (leave t w.cond s).threads := by
        rw [hthreads]
        exact sameElsewhere_update t none
      have hsafe := h.leave ht
      have hfits := h.jobs t w ht
      -- the three ends of the way back, seen from the state before
      have hback : ∀ {kind : Kind} {n : Nat} {b : Bool},
          (lab.thread = t ∧ SameElsewhere t (leave t w.cond s).threads s'.threads ∧
            (lab.result = some (.reacquired kind n b) ∨
            (lab.result = none ∧ ∃ w', s'.threads t = some w' ∧ w'.job.saved = some (kind, n)) ∨
            (∃ e, lab.result = some (.raised [e])) ∧ s' = leave t w.cond s)) →
          w.job.saved = some (kind, n) →
          lab.thread = t ∧ SameElsewhere t s.threads s'.threads ∧ ∃ w', some w = some w' ∧
            ∀ kind n, w'.job.saved = some (kind, n) →
              (∃ b, lab.result = some (.reacquired kind n b)) ∨
              (lab.result = none ∧ ∃ w', s'.threads t = some w' ∧ w'.job.saved = some (kind, n)) ∨
              (∃ e, lab.result = some (.raised [e])) ∧ ¬Holds s'.lock t := by
        rintro kind n b ⟨hthread, hframe, hend⟩ hsaved
        refine ⟨hthread, hleft.trans hframe, w, rfl, fun kind' n' hsaved' => ?_⟩
        cases hsaved.symm.trans hsaved'
        rcases hend with hres | hres | ⟨hres, rfl⟩
        · exact Or.inl ⟨b, hres⟩
        · exact Or.inr (Or.inl hres)
        · exact Or.inr (Or.inr ⟨hres, hnot⟩)
      rw [ht]
      dsimp only at hcall
      split at hcall
      · rename_i kind timeoutMs hjob
        have hnosave : ∀ kind n, w.job.saved ≠ some (kind, n) := by
          intro kind n
          rw [hjob]
          rintro ⟨⟩
        split at hcall
        · cases hcall
          exact ⟨rfl, hleft, w, rfl, fun kind n hsaved => absurd hsaved (hnosave kind n)⟩
        · obtain ⟨hthread, hframe⟩ := lockCall_elsewhere (fun _ => hnone) (Option.some.inj hcall)
          exact ⟨hthread, hleft.trans hframe, w, rfl,
            fun kind n hsaved => absurd hsaved (hnosave kind n)⟩
      · rename_i hjob
        exact hback (regrabWriteLock_result hnone (Option.some.inj hcall)) (by rw [hjob]; rfl)
      · rename_i count c timeoutMs hjob
        rw [hjob] at hfits
        exact hback (regrabReadLocks_result hsafe hfits.2 hnone (Option.some.inj hcall))
          (by rw [hjob]; rfl)
      · rename_i hjob
        exact hback (regrabWriteLock_result hnone (Option.some.inj hcall)) (by rw [hjob]; rfl)
      · rename_i count left rc hjob
        rw [hjob] at hfits
        obtain ⟨-, rfl, hpos⟩ := hfits
        exact hback (regrabReadLocks_result hsafe hpos hnone (Option.some.inj hcall))
          (by rw [hjob]; rfl)

/-! ### One critical section -/

variable [Fintype T] {choice : Option T}

/-- A condition wait fails without a change, or saves what the thread holds. -/
theorem externWait_saved (h : Safe s) {c : C}
    (hcall : externWait t c timeoutMs choice s = some (s', lab)) :
    lab.thread = t ∧ SameElsewhere t s.threads s'.threads ∧
      ((∃ e, lab.result = some (.raised [e])) ∧ s' = s ∨
        lab.result = none ∧ ∃ kind n w, HoldsTimes s.lock t kind n ∧ s'.threads t = some w ∧
          w.job.saved = some (kind, n)) := by
  have hcounted : Safe (counted c s) := h.setCmap _
  unfold externWait at hcall
  dsimp only at hcall
  split at hcall
  · rename_i htid
    split at hcall
    · cases hcall
    · rename_i s1 hrel
      cases hcall
      have hr : WriteRelease t choice (counted c s) s1 := releaseIntern_spec htid hrel
      have hsame : SameWaits s.threads s1.threads := sameWaits_signalImpl hr.wakes
      exact ⟨rfl, (hsame.elsewhere t).trans (sameElsewhere_update t _),
        Or.inr ⟨rfl, .write, 1, _, ⟨htid, rfl⟩, Function.update_self _ _ _, rfl⟩⟩
  · split at hcall
    · cases hcall
      exact ⟨rfl, (SameWaits.refl _).elsewhere t, Or.inl ⟨⟨_, rfl⟩, rfl⟩⟩
    · split at hcall
      · cases hcall
        exact ⟨rfl, (SameWaits.refl _).elsewhere t, Or.inl ⟨⟨_, rfl⟩, rfl⟩⟩
      · rename_i n hn
        split at hcall
        · cases hcall
        · rename_i s1 hrel
          cases hcall
          obtain ⟨-, hr, -⟩ := releaseReadLocks_spec n _ _ hcounted hn hrel
          have hsame : SameWaits s.threads s1.threads := hr.sameWaits
          exact ⟨rfl, (hsame.elsewhere t).trans (sameElsewhere_update t _),
            Or.inr ⟨rfl, .read, n, _, hn, Function.update_self _ _ _, rfl⟩⟩

theorem readUnlock_elsewhere (h : Safe s) (hcall : readUnlock t choice s = some (s', lab)) :
    lab.thread = t ∧ SameElsewhere t s.threads s'.threads := by
  obtain ⟨-, -, hor⟩ := readUnlock_spec h hcall
  refine ⟨?_, ?_⟩
  · unfold readUnlock at hcall
    split_ifs at hcall
    · cases hcall
      rfl
    · cases hcall
      rfl
    · split at hcall
      · cases hcall
        rfl
      · split at hcall <;> cases hcall
        rfl
  · rcases hor with rfl | ⟨n, -, hr⟩
    · exact (SameWaits.refl _).elsewhere t
    · exact hr.sameWaits.elsewhere t

theorem writeUnlock_elsewhere (h : Safe s) (hcall : writeUnlock t choice s = some (s', lab)) :
    lab.thread = t ∧ SameElsewhere t s.threads s'.threads := by
  obtain ⟨-, -, hor⟩ := writeUnlock_spec h hcall
  refine ⟨?_, ?_⟩
  · unfold writeUnlock at hcall
    split at hcall
    · cases hcall
      rfl
    · cases hcall
      rfl
    · split at hcall
      · cases hcall
        rfl
      · split at hcall <;> cases hcall
        rfl
  · rcases hor with rfl | hr
    · exact (SameWaits.refl _).elsewhere t
    · exact (sameWaits_signalImpl hr.wakes).elsewhere t

theorem cleanup_elsewhere (h : Safe s) (hcall : cleanup t choice s = some (s', lab)) :
    lab.thread = t ∧ SameElsewhere t s.threads s'.threads := by
  obtain ⟨-, -, hor⟩ := cleanup_spec h hcall
  refine ⟨?_, ?_⟩
  · unfold cleanup at hcall
    dsimp only at hcall
    split at hcall
    · split at hcall
      · split at hcall
        · split at hcall <;> cases hcall
          rfl
        · cases hcall
      · split at hcall
        · split at hcall <;> cases hcall
          rfl
        · cases hcall
          rfl
    · cases hcall
  · rcases hor with rfl | hr | ⟨n, -, hr⟩
    · exact (SameWaits.refl _).elsewhere t
    · exact (sameWaits_signalImpl hr.wakes).elsewhere t
    · exact hr.sameWaits.elsewhere t

variable [Fintype C]

theorem destructor_elsewhere (h : Safe s) (hcall : destructor t s = (s', lab)) :
    lab.thread = t ∧ SameElsewhere t s.threads s'.threads := by
  obtain ⟨-, -, -, hthreads⟩ := destructor_spec h hcall
  refine ⟨?_, ?_⟩
  · unfold destructor at hcall
    dsimp only at hcall
    split at hcall <;> (cases hcall; rfl)
  · rw [hthreads]
    exact (sameWaits_destructorThreads s).elsewhere t

/-- A section of a thread leaves the waits of the other threads. -/
theorem step_elsewhere (h : Safe s) {a : Action T C} (hstep : step s a = some (s', lab)) :
    lab.thread = a.thread ∧ SameElsewhere a.thread s.threads s'.threads := by
  by_cases hres : ∃ t d, a = .resume t d
  · obtain ⟨t, d, rfl⟩ := hres
    obtain ⟨hthread, hframe, -⟩ := resume_result h hstep
    exact ⟨hthread, hframe⟩
  by_cases hexp : ∃ t, a = .expire t
  · obtain ⟨t, rfl⟩ := hexp
    obtain ⟨thr, hthr, rfl, -⟩ := expire_spec hstep
    refine ⟨?_, (sameWaits_expire hthr).elsewhere t⟩
    simp only [step, hthr] at hstep
    split at hstep
    · cases hstep
    · split at hstep <;> cases hstep
      rfl
  have ht := step_call hstep (fun t d ha => hres ⟨t, d, ha⟩) fun t ha => hexp ⟨t, ha⟩
  have hsome : ¬(s.threads a.thread).isSome = true := by rw [ht]; simp
  cases a with
  | resume t d => exact absurd ⟨t, d, rfl⟩ hres
  | expire t => exact absurd ⟨t, rfl⟩ hexp
  | readLock t timeoutMs deadlock =>
    rw [step, if_neg hsome] at hstep
    exact readLock_elsewhere (Option.some.inj hstep)
  | writeLock t timeoutMs deadlock =>
    rw [step, if_neg hsome] at hstep
    exact writeLock_elsewhere (Option.some.inj hstep)
  | tryReadLock t =>
    rw [step, if_neg hsome] at hstep
    simp only [tryReadLock, Option.some.injEq] at hstep
    split at hstep
    · cases hstep
      exact ⟨rfl, (SameWaits.refl _).elsewhere t⟩
    · cases hstep
      refine ⟨rfl, ?_⟩
      rw [(markReadLockIntern_same t s).2]
      exact (SameWaits.refl _).elsewhere t
  | tryWriteLock t =>
    rw [step, if_neg hsome] at hstep
    simp only [tryWriteLock, Option.some.injEq] at hstep
    split at hstep <;> (cases hstep; exact ⟨rfl, (SameWaits.refl _).elsewhere t⟩)
  | readUnlock t choice =>
    rw [step, if_neg hsome] at hstep
    exact readUnlock_elsewhere h hstep
  | writeUnlock t choice =>
    rw [step, if_neg hsome] at hstep
    exact writeUnlock_elsewhere h hstep
  | wait t c timeoutMs choice =>
    rw [step, if_neg hsome] at hstep
    obtain ⟨hthread, hframe, -⟩ := externWait_saved h hstep
    exact ⟨hthread, hframe⟩
  | signal t c choice =>
    rw [step, if_neg hsome] at hstep
    split at hstep
    · cases hstep
    · rename_i thr hthr
      cases hstep
      exact ⟨rfl, (sameWaits_signal hthr).elsewhere t⟩
  | broadcast t c =>
    rw [step, if_neg hsome] at hstep
    cases hstep
    exact ⟨rfl, (sameWaits_broadcast _ _).elsewhere t⟩
  | cleanup t choice =>
    rw [step, if_neg hsome] at hstep
    exact cleanup_elsewhere h hstep
  | destructor t =>
    rw [step, if_neg hsome] at hstep
    exact destructor_elsewhere h (Option.some.inj hstep)

/-! ### Every run -/

/-- The thread is in a condition wait that has saved the kind and the count. -/
def InWait (t : T) (kind : Kind) (n : Nat) (s : State T C) : Prop :=
  Safe s ∧ ∃ w, s.threads t = some w ∧ w.job.saved = some (kind, n)

/-- The section that ends a call of the thread `t`. -/
def Label.Ends (t : T) (lab : Label T) : Prop := lab.thread = t ∧ lab.result ≠ none

/-- The condition wait has returned with the lock as before, or raised an exception without it. -/
def WaitEnd (t : T) (kind : Kind) (n : Nat) (s : State T C) (lab : Label T) : Prop :=
  Safe s ∧ ((∃ b, lab.result = some (.reacquired kind n b)) ∧ HoldsTimes s.lock t kind n ∨
    (∃ e, lab.result = some (.raised [e])) ∧ ¬Holds s.lock t)

/-- A section of any thread leaves the thread in its wait, or ends it. -/
theorem InWait.step {n : Nat} (hi : InWait t kind n s) {a : Action T C}
    (hstep : step s a = some (s', lab)) :
    ¬lab.Ends t ∧ InWait t kind n s' ∨ lab.Ends t ∧ WaitEnd t kind n s' lab := by
  obtain ⟨h, w, ht, hsaved⟩ := hi
  obtain ⟨hsafe, hgranted⟩ := h.step hstep
  obtain ⟨hthread, hframe⟩ := step_elsewhere h hstep
  by_cases hother : t ≠ a.thread
  · -- another thread acts
    obtain ⟨w', ht', -, hjob⟩ := hframe.wait hother ht
    refine Or.inl ⟨fun hends => hother (hends.1.symm.trans hthread), hsafe, w', ht', ?_⟩
    rw [hjob]
    exact hsaved
  rw [not_ne_iff] at hother
  by_cases hres : ∃ d, a = .resume t d
  · obtain ⟨d, rfl⟩ := hres
    obtain ⟨-, -, w1, ht1, hend⟩ := resume_result h hstep
    cases ht.symm.trans ht1
    rcases hend kind n hsaved with ⟨b, hres⟩ | ⟨hres, hwait⟩ | ⟨⟨e, hres⟩, hnot⟩
    · refine Or.inr ⟨⟨hthread, by simp [hres]⟩, hsafe, Or.inl ⟨⟨b, hres⟩, ?_⟩⟩
      have hlab : lab.thread = t := hthread
      cases kind with
      | read =>
        have htmap := hgranted.2.1 n b hres
        rwa [hlab] at htmap
      | write =>
        have hone : n = 1 := by
          cases hj : w.job with
          | lock k m =>
            rw [hj] at hsaved
            cases hsaved
          | wait k m c ms =>
            rw [hj] at hsaved
            cases k <;> cases hsaved
            rfl
          | regrab k m l rc =>
            rw [hj] at hsaved
            cases k <;> cases hsaved
            rfl
        have howner := hgranted.2.2 n b hres
        rw [hlab] at howner
        exact ⟨howner, hone⟩
    · exact Or.inl ⟨fun hends => hends.2 hres, hsafe, hwait⟩
    · exact Or.inr ⟨⟨hthread, by simp [hres]⟩, hsafe, Or.inr ⟨⟨e, hres⟩, hnot⟩⟩
  by_cases hexp : a = .expire t
  · subst hexp
    obtain ⟨thr, hthr, rfl, -⟩ := expire_spec hstep
    have hnone : lab.result = none := by
      simp only [SmartLock.step, ht, hthr] at hstep
      split at hstep <;> cases hstep
      rfl
    have heq := sameWaits_expire hthr t
    rw [ht, Option.map_some] at heq
    obtain ⟨w', ht', hpair⟩ := Option.map_eq_some_iff.mp heq
    refine Or.inl ⟨fun hends => hends.2 hnone, hsafe, w', ht', ?_⟩
    rw [(Prod.mk.inj hpair).2]
    exact hsaved
  · -- a thread in a wait makes no other call
    have hidle := step_call hstep (fun u d ha => ?_) fun u ha => ?_
    · rw [← hother, ht] at hidle
      cases hidle
    · rw [ha] at hother
      exact hres ⟨d, by rw [ha, hother]; rfl⟩
    · rw [ha] at hother
      exact hexp (by rw [ha, hother]; rfl)

end

namespace Mutex

section
variable {T C : Type} [Fintype T] [Fintype C] [DecidableEq T] [DecidableEq C] {s s' : State T C}
  {t : T} {lab : Label T}

/-- The thread is in a condition wait. -/
def InWait (t : T) (s : State T C) : Prop :=
  Safe s ∧ ∃ w, s.threads t = some w ∧ ∀ kind timeoutMs, w.job ≠ .lock kind timeoutMs

/-- The section that ends a call of the thread `t`. -/
def Label.Ends (t : T) (lab : Label T) : Prop := lab.thread = t ∧ lab.result ≠ none

/-- The condition wait has returned with the mutex, or raised an exception without it. -/
def WaitEnd (t : T) (s : State T C) (lab : Label T) : Prop :=
  Safe s ∧ ((∃ rc, lab.result = some (.reacquired rc)) ∧ s.lock.tid = .owner t ∨
    (∃ e, lab.result = some (.raised [e])) ∧ s.lock.tid ≠ .owner t)

/-- A section of any thread leaves the thread in its wait, or ends it. -/
theorem InWait.step (hi : InWait t s) {a : Action T C} (hstep : step s a = some (s', lab)) :
    ¬lab.Ends t ∧ InWait t s' ∨ lab.Ends t ∧ WaitEnd t s' lab := by
  obtain ⟨h, w, ht, hjob⟩ := hi
  have hkept := h.step hstep
  by_cases hother : t ≠ lab.thread
  · obtain ⟨w', ht', -, hsame⟩ := hkept.elsewhere.wait hother ht
    refine Or.inl ⟨fun hends => hother hends.1.symm, hkept.safe, w', ht', ?_⟩
    rw [hsame]
    exact hjob
  rw [not_ne_iff] at hother
  -- a thread in a wait makes no other call
  have hbusy : ∀ {u : T} {r : Option (State T C × Label T)},
      Kept u s s' lab → whenIdle u s r ≠ some (s', lab) := by
    intro u r hk hidle
    rw [hother, hk.thread, (whenIdle_eq_some hidle).1] at ht
    cases ht
  cases a with
  | resume u deadlock =>
    obtain ⟨hk, w1, ht1, hend⟩ := resume_kept h hstep
    have htu : t = u := hother.trans hk.thread
    rw [← htu, ht] at ht1
    cases ht1
    rcases hend hjob with ⟨⟨rc, hres⟩, howner⟩ | ⟨hres, rc, hwait⟩ | ⟨⟨e, hres⟩, hnot⟩
    · rw [← htu] at howner
      exact Or.inr ⟨⟨hother.symm, by simp [hres]⟩, hkept.safe, Or.inl ⟨⟨rc, hres⟩, howner⟩⟩
    · rw [← htu] at hwait
      exact Or.inl ⟨fun hends => hends.2 hres, hkept.safe, _, hwait, fun _ _ => (by rintro ⟨⟩)⟩
    · rw [← htu] at hnot
      exact Or.inr ⟨⟨hother.symm, by simp [hres]⟩, hkept.safe, Or.inr ⟨⟨e, hres⟩, hnot⟩⟩
  | expire u =>
    obtain ⟨w1, -, hexp⟩ := Option.bind_eq_some_iff.mp hstep
    split at hexp
    · obtain ⟨thr, hthr, heq⟩ := Option.map_eq_some_iff.mp hexp
      cases heq
      have hmap := sameWaits_expire hthr t
      rw [ht, Option.map_some] at hmap
      obtain ⟨w', ht', hpair⟩ := Option.map_eq_some_iff.mp hmap
      refine Or.inl ⟨fun hends => hends.2 rfl, hkept.safe, w', ht', ?_⟩
      rw [(Prod.mk.inj hpair).2]
      exact hjob
    · cases hexp
  | lock u timeoutMs deadlock =>
    obtain ⟨hu, hcall⟩ := whenIdle_eq_some hstep
    exact absurd hstep (hbusy (lock_kept h hu (Option.some.inj hcall)))
  | tryLock u =>
    obtain ⟨hu, hcall⟩ := whenIdle_eq_some hstep
    exact absurd hstep (hbusy (tryLock_kept h hu (Option.some.inj hcall)))
  | unlock u choice => exact absurd hstep (hbusy (unlock_kept h (whenIdle_eq_some hstep).2))
  | wait u c timeoutMs choice =>
    obtain ⟨hu, hcall⟩ := whenIdle_eq_some hstep
    exact absurd hstep (hbusy (externWait_kept h hu hcall).1)
  | signal u c choice =>
    obtain ⟨hu, hcall⟩ := whenIdle_eq_some hstep
    obtain ⟨thr, hthr, heq⟩ := Option.map_eq_some_iff.mp hcall
    cases heq
    have htu : t = u := hother
    rw [htu, hu] at ht
    cases ht
  | broadcast u c =>
    obtain ⟨hu, hcall⟩ := whenIdle_eq_some hstep
    cases hcall
    have htu : t = u := hother
    rw [htu, hu] at ht
    cases ht
  | cleanup u choice => exact absurd hstep (hbusy (cleanup_kept h (whenIdle_eq_some hstep).2))
  | destructor u =>
    exact absurd hstep (hbusy (destructor_kept h (Option.some.inj (whenIdle_eq_some hstep).2)))

end

end Mutex

/-- In every run of a read-write lock and of a mutex, a condition wait that returns leaves the
thread with the kind of lock that it held, and as many times. A wait that raises an exception, at
once or on the way back, leaves consistent books. -/
theorem wait_keeps {T C : Type} [Fintype T] [Fintype C] [DecidableEq T] [DecidableEq C] :
    (∀ (preferWriters : Bool) (as : List (Action T C)) (s : State T C) (labs : List (Label T)) (t : T)
        (c : C) (timeoutMs : Int) (choice : Option T) (s1 : State T C) (lab : Label T),
      Lts.run step (State.init T C preferWriters) as = some (s, labs) →
      step s (.wait t c timeoutMs choice) = some (s1, lab) →
      (∃ e, lab.result = some (.raised [e])) ∧ s1 = s ∧ Safe s1 ∨
        lab.result = none ∧ ∃ kind n, HoldsTimes s.lock t kind n ∧
          Lts.Returns step (Label.Ends t) (WaitEnd t kind n) s1) ∧
    ∀ (as : List (Mutex.Action T C)) (s : Mutex.State T C) (labs : List (Mutex.Label T)) (t : T)
        (c : C) (timeoutMs : Int) (choice : Option T) (s1 : Mutex.State T C) (lab : Mutex.Label T),
      Lts.run Mutex.step (Mutex.State.init T C) as = some (s, labs) →
      Mutex.step s (.wait t c timeoutMs choice) = some (s1, lab) →
      (∃ e, lab.result = some (.raised [e])) ∧ s1 = s ∧ Mutex.Safe s1 ∨
        lab.result = none ∧ s.lock.tid = .owner t ∧
          Lts.Returns Mutex.step (Mutex.Label.Ends t) (Mutex.WaitEnd t) s1 := by
  constructor
  · intro preferWriters as s labs t c timeoutMs choice s1 lab hrun hstep
    have h : Safe s := Lts.run_invariant (fun _ _ _ _ hs hstep => (Safe.step hs hstep).1) as _ s
      labs (Safe.init preferWriters) hrun
    have hsafe : Safe s1 := (h.step hstep).1
    have ht : s.threads t = none := step_call hstep (fun _ _ => (by rintro ⟨⟩)) fun _ => (by rintro ⟨⟩)
    have hidle : ¬(s.threads (Action.wait t c timeoutMs choice).thread).isSome = true := by
      rw [show s.threads (Action.wait t c timeoutMs choice).thread = none from ht]
      simp
    rw [step, if_neg hidle] at hstep
    obtain ⟨-, -, ⟨hres, hsame⟩ | ⟨hres, kind, n, w, hholds, hw, hsaved⟩⟩ := externWait_saved h hstep
    · exact Or.inl ⟨hres, hsame, hsafe⟩
    · have hwait : InWait t kind n s1 := ⟨hsafe, w, hw, hsaved⟩
      exact Or.inr ⟨hres, kind, n, hholds,
        Lts.returns_of_step (fun _ _ _ _ hi hstep => hi.step hstep) hwait⟩
  · intro as s labs t c timeoutMs choice s1 lab hrun hstep
    have h : Mutex.Safe s := Lts.run_invariant (fun _ _ _ _ hs hstep => (Mutex.Safe.step hs hstep).safe)
      as _ s labs Mutex.Safe.init hrun
    obtain ⟨ht, hcall⟩ := Mutex.whenIdle_eq_some hstep
    obtain ⟨hk, ⟨hres, hsame⟩ | ⟨hres, howner, hw⟩⟩ := Mutex.externWait_kept h ht hcall
    · exact Or.inl ⟨hres, hsame, hk.safe⟩
    · have hwait : Mutex.InWait t s1 := ⟨hk.safe, _, hw, fun _ _ => (by rintro ⟨⟩)⟩
      exact Or.inr ⟨hres, howner,
        Lts.returns_of_step (fun _ _ _ _ hi hstep => hi.step hstep) hwait⟩

/-- Two read locks and a mutex that their thread has given up in a condition wait. -/
theorem wait_keeps_two :
    (∃ s s1 : State (Fin 2) (Fin 1), s.lock.tmap 0 = some 2 ∧ ∃ kind n, HoldsTimes s.lock 0 kind n ∧
      Lts.Returns step (Label.Ends 0) (WaitEnd 0 kind n) s1) ∧
    ∃ s1 : Mutex.State (Fin 2) (Fin 1),
      Lts.Returns Mutex.step (Mutex.Label.Ends 0) (Mutex.WaitEnd 0) s1 := by
  constructor
  · have hrun : (Lts.run step (State.init (Fin 2) (Fin 1) false)
        [.readLock 0 0 none, .tryReadLock 0]).map (fun r => (r.1.lock.tmap 0,
          (step r.1 (.wait 0 0 0 none)).map fun r => r.2.result.isNone)) =
          some (some 2, some true) := by
      decide
    obtain ⟨r, hr, hout⟩ := Option.map_eq_some_iff.mp hrun
    obtain ⟨htwo, hcall⟩ := Prod.mk.inj hout
    obtain ⟨r1, hr1, hnone⟩ := Option.map_eq_some_iff.mp hcall
    rcases wait_keeps.1 false _ r.1 r.2 0 0 0 none r1.1 r1.2 hr hr1 with ⟨⟨e, he⟩, -⟩ | ⟨-, hwait⟩
    · rw [he] at hnone
      cases hnone
    · exact ⟨r.1, r1.1, htwo, hwait⟩
  · have hrun : (Lts.run Mutex.step (Mutex.State.init (Fin 2) (Fin 1)) [.lock 0 0 none]).map
        (fun r => (Mutex.step r.1 (.wait 0 0 0 none)).map fun r => r.2.result.isNone) =
          some (some true) := by
      decide
    obtain ⟨r, hr, hcall⟩ := Option.map_eq_some_iff.mp hrun
    obtain ⟨r1, hr1, hnone⟩ := Option.map_eq_some_iff.mp hcall
    rcases wait_keeps.2 _ r.1 r.2 0 0 0 none r1.1 r1.2 hr hr1 with ⟨⟨e, he⟩, -⟩ | ⟨-, -, hwait⟩
    · rw [he] at hnone
      cases hnone
    · exact ⟨r1.1, hwait⟩

end Qore.SmartLock
