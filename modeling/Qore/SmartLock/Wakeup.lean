import Mathlib
import Qore.SmartLock.Safety

/-!
# `Qore.SmartLock.Wakeup`: who sleeps while the lock is free

When the last holder goes, it must wake somebody if somebody is blocked. `signalImpl` decides
by its counters, and they also count the threads whose time has expired and that have not run
yet. A signal for those alone is lost for the others.

* `Alert` says that the lock is held, or nobody is blocked on it, or a woken thread is on its
  way.
* `alert_writeRelease`, `alert_readRelease` and `blocked_destructor` say when an unlock and the
  destructor keep it.
* `quiet_of_run`: in every run without a lost signal, a free lock without a woken thread has no
  blocked thread.
-/

set_option autoImplicit false

namespace Qore.SmartLock

open Qore.Lib
open Qore.Lib.Monitor hiding Wait

variable {T C : Type}

section
variable [Fintype T] [DecidableEq C]

/-- The number of threads that are blocked waiting for the lock. -/
def blocked (s : State T C) (k : Kind) : Nat := tally k.cond .blocked s.threads

/-- The number of threads that were signalled for the lock and have not run yet. -/
def woken (s : State T C) (k : Kind) : Nat := tally k.cond .signalled s.threads

/-- In a quiescent state, where no thread holds the lock and no woken thread is on its way, no
thread is blocked. -/
def Quiet (s : State T C) : Prop :=
  ¬ Held s.lock → (∀ k, woken s k = 0) → ∀ k, blocked s k = 0

/-- The release of the write lock does not signal timed out threads only, while another thread is
blocked. -/
def WriteReleaseOk (s : State T C) : Prop :=
  woken s .read ≠ 0 ∨ woken s .write ≠ 0 ∨
    if s.lock.preferWriters then
      s.lock.waiting = 0 ∨ blocked s .write ≠ 0 ∨ blocked s .read = 0
    else s.lock.readRequests = 0 ∨ blocked s .read ≠ 0 ∨ blocked s .write = 0

/-- The release of the last read lock finds a writer, or no reader to leave behind. -/
def ReadReleaseOk (s : State T C) : Prop :=
  woken s .read ≠ 0 ∨ woken s .write ≠ 0 ∨ blocked s .write ≠ 0 ∨ blocked s .read = 0

/-- The destructor wakes all blocked threads. -/
def DestroyOk (s : State T C) : Prop :=
  (∀ u, s.lock.tid ≠ .owner u) →
    blocked s .read = 0 ∧ (s.lock.numReaders ≠ 0 ∨ blocked s .write = 0)

/-- The thread releases all that it holds. -/
def ReleaseAllOk (s : State T C) (t : T) : Prop :=
  (s.lock.tid = .owner t → WriteReleaseOk s) ∧
    ∀ n ∈ s.lock.tmap t, s.lock.numReaders = n → ReadReleaseOk s

/-- No signal of the section is lost. -/
def NoLostSignal (s : State T C) : Action T C → Prop
  | .writeUnlock t _ => s.lock.tid = .owner t → WriteReleaseOk s
  | .readUnlock t _ => (s.lock.tmap t).isSome → s.lock.numReaders = 1 → ReadReleaseOk s
  | .wait t _ _ _ => ReleaseAllOk s t
  | .cleanup t _ => ReleaseAllOk s t
  | .destructor _ => DestroyOk s
  | _ => True

instance (s : State T C) : Decidable (WriteReleaseOk s) := by
  unfold WriteReleaseOk; infer_instance

instance (s : State T C) : Decidable (ReadReleaseOk s) := by
  unfold ReadReleaseOk; infer_instance

instance [DecidableEq T] (s : State T C) : Decidable (DestroyOk s) := by
  unfold DestroyOk; infer_instance

instance [DecidableEq T] (s : State T C) (t : T) : Decidable (ReleaseAllOk s t) := by
  unfold ReleaseAllOk; infer_instance

instance [DecidableEq T] (s : State T C) (a : Action T C) : Decidable (NoLostSignal s a) := by
  cases a <;> unfold NoLostSignal <;> infer_instance

/-- The lock is held, or nobody is blocked, or a woken thread is on its way; nobody is blocked on
a deleted lock. -/
structure Alert (s : State T C) : Prop where
  alert : ¬ Held s.lock → (∃ k, blocked s k ≠ 0) → ∃ k, woken s k ≠ 0
  dead : s.lock.tid = .deleted → ∀ k, blocked s k = 0

theorem Alert.quiet {s : State T C} (h : Alert s) : Quiet s := by
  intro hheld hwoken k
  by_contra hb
  obtain ⟨k', hk'⟩ := h.alert hheld ⟨k, hb⟩
  exact hk' (hwoken k')

variable {s s' : State T C} {n : Nat}

/-- A lock that is held. -/
theorem alert_held (h : Safe s) (hheld : Held s.lock) : Alert s := by
  refine ⟨fun hno => absurd hheld hno, fun hd => ?_⟩
  rcases hheld with ⟨u, hu⟩ | hnum
  · exact absurd (hu.symm.trans hd) (by simp)
  · exact absurd (h.book.dead hd) hnum

/-- A call that takes the lock, waits while it is held, or changes nothing. -/
theorem alert_lock (h : Alert s) (h' : Safe s') (hor : Held s'.lock ∨ s' = s) : Alert s' := by
  rcases hor with hheld | rfl
  · exact alert_held h' hheld
  · exact h

/-- A section that blocks nobody and takes no signal away. -/
theorem Alert.mono (h : Alert s) (hheld : Held s.lock → Held s'.lock)
    (htid : s'.lock.tid = s.lock.tid) (hb : ∀ k, blocked s' k ≤ blocked s k)
    (hw : ∀ k, woken s' k = woken s k) : Alert s' := by
  refine ⟨fun hno hblocked => ?_, fun hd k => ?_⟩
  · obtain ⟨k, hk⟩ := hblocked
    have hle := hb k
    obtain ⟨k', hk'⟩ := h.alert (fun hheld' => hno (hheld hheld')) ⟨k, by omega⟩
    exact ⟨k', by rw [hw]; exact hk'⟩
  · have hle := hb k
    have hzero := h.dead (htid.symm.trans hd) k
    omega

/-- The blocked threads are counted. -/
theorem Safe.blocked_le (h : Safe s) (k : Kind) : blocked s k + woken s k ≤ s.lock.counter k := by
  rw [h.counts k, waiting_eq, blocked, woken]
  omega

/-- A broadcast for the readers. -/
theorem broadcast_read (hsame : s'.threads = broadcast .read s.threads) :
    blocked s' .read = 0 ∧ woken s' .read = blocked s .read + woken s .read ∧
      blocked s' .write = blocked s .write ∧ woken s' .write = woken s .write := by
  have hne : (Kind.write.cond : Cond C) ≠ .read := by simp [Kind.cond]
  refine ⟨?_, ?_, ?_, ?_⟩
  · rw [blocked, hsame]; exact tally_broadcast_blocked _ _
  · rw [woken, hsame]; exact tally_broadcast_signalled _ _
  · rw [blocked, hsame]; exact tally_broadcast_ne hne _ _
  · rw [woken, hsame]; exact tally_broadcast_ne hne _ _

/-- The condition variables of `Condition` objects are not those of the lock. -/
theorem tally_broadcastConds (cmap : C → Option Nat) (thr : Threads T (Cond C) (Job C)) (k : Kind)
    (w : Wake) : tally k.cond w (broadcastConds cmap thr) = tally k.cond w thr := by
  refine count_congr fun t => ?_
  rw [broadcastConds]
  cases thr t with
  | none => rfl
  | some x =>
    obtain ⟨c, job, wake⟩ := x
    cases c with
    | read => rfl
    | write => rfl
    | user c =>
      dsimp only [Option.map_some]
      split
      · cases k <;> simp [isIn, Kind.cond]
      · rfl

/-- A guarded broadcast with a counter that counts the blocked threads. -/
theorem tally_broadcastIf {k : Kind} {thr : Threads T (Cond C) (Job C)}
    (hn : tally k.cond .blocked thr ≤ n) :
    tally k.cond .blocked (broadcastIf n k.cond thr) = 0 := by
  unfold broadcastIf
  split
  · exact tally_broadcast_blocked _ _
  · omega

/-- The destructor leaves nobody blocked. -/
theorem blocked_destructor [Fintype C] (h : Safe s) (hok : DestroyOk s)
    (hthreads : s'.threads = destructorThreads s) (k : Kind) : blocked s' k = 0 := by
  have hread : blocked s .read + woken s .read ≤ s.lock.readRequests := h.blocked_le .read
  have hwrite : blocked s .write + woken s .write ≤ s.lock.waiting := h.blocked_le .write
  have hne : (Kind.read.cond : Cond C) ≠ .write := by simp [Kind.cond]
  have hne' : (Kind.write.cond : Cond C) ≠ .read := by simp [Kind.cond]
  rw [blocked, hthreads]
  unfold destructorThreads
  dsimp only
  -- First the broadcast on the `Condition` objects, which does not matter here.
  have hconds : ∀ k : Kind, tally k.cond .blocked (if ∃ c, (s.lock.cmap c).isSome then
      broadcastConds s.lock.cmap s.threads else s.threads) = blocked s k := by
    intro k
    split
    · exact tally_broadcastConds _ _ _ _
    · rfl
  generalize (if ∃ c, (s.lock.cmap c).isSome then broadcastConds s.lock.cmap s.threads
    else s.threads) = thr at hconds ⊢
  -- Then the writers, when there are readers.
  have hmid : tally Kind.read.cond .blocked
        (if s.lock.numReaders ≠ 0 then broadcast .write thr else thr) = blocked s .read ∧
      tally Kind.write.cond .blocked
        (if s.lock.numReaders ≠ 0 then broadcast .write thr else thr) ≤ blocked s .write ∧
      (s.lock.numReaders ≠ 0 → tally Kind.write.cond .blocked
        (if s.lock.numReaders ≠ 0 then broadcast .write thr else thr) = 0) := by
    split
    · have hzero : tally Kind.write.cond .blocked (broadcast .write thr) = 0 :=
        tally_broadcast_blocked _ _
      exact ⟨(tally_broadcast_ne hne _ _).trans (hconds _), by omega, fun _ => hzero⟩
    · rename_i hnum
      exact ⟨hconds _, Nat.le_of_eq (hconds _), fun hne => absurd hne hnum⟩
  generalize (if s.lock.numReaders ≠ 0 then broadcast .write thr else thr) = thr' at hmid ⊢
  obtain ⟨hmr, hmw, hmz⟩ := hmid
  split
  · cases k with
    | read =>
      refine tally_broadcastIf ?_
      have hkeep : tally Kind.read.cond .blocked (broadcastIf s.lock.waiting .write thr') =
          tally Kind.read.cond .blocked thr' := by
        unfold broadcastIf
        split
        · exact tally_broadcast_ne hne _ _
        · rfl
      omega
    | write =>
      have hzero : tally Kind.write.cond .blocked (broadcastIf s.lock.waiting .write thr') = 0 :=
        tally_broadcastIf (k := .write) (by omega)
      unfold broadcastIf at hzero ⊢
      split
      · rw [tally_broadcast_ne hne']
        exact hzero
      · exact hzero
  · rename_i hno
    obtain ⟨hr, hw⟩ := hok hno
    cases k with
    | read => omega
    | write =>
      rcases hw with hnum | hw
      · exact hmz hnum
      · omega

variable [DecidableEq T] {choice : Option T} {t : T}

/-- With exact counters the guarded signal is a signal. -/
theorem signalIf_signal {c : Cond C} {thr thr' : Threads T (Cond C) (Job C)}
    (hn : tally c .blocked thr ≤ n) (h : signalIf n c choice thr = some thr') :
    ∃ choice', signal c choice' thr = some thr' := by
  unfold signalIf at h
  split at h
  · exact ⟨choice, h⟩
  · refine ⟨none, ?_⟩
    rw [signal, if_pos (by omega)]
    exact h

/-- A signal for a writer wakes one, or no writer is blocked and nothing happens. -/
theorem signal_write (hsig : signal .write choice s.threads = some s'.threads) :
    woken s' .write ≠ 0 ∨ blocked s .write = 0 ∧ s'.threads = s.threads := by
  rcases tally_signal hsig with ⟨hzero, hsame⟩ | ⟨-, hwoken⟩
  · exact Or.inr ⟨hzero, hsame⟩
  · refine Or.inl ?_
    rw [woken, show (Kind.write.cond : Cond C) = .write from rfl, hwoken]
    omega

/-- The threads that `signalImpl` leaves blocked and wakes. -/
theorem signalImpl_woken (h : Safe s) (hok : WriteReleaseOk s)
    (hwakes : signalImpl s.lock choice s.threads = some s'.threads) :
    (∃ k, woken s' k ≠ 0) ∨ ∀ k, blocked s' k = 0 := by
  have hread : blocked s .read + woken s .read ≤ s.lock.readRequests := h.blocked_le .read
  have hwrite : blocked s .write + woken s .write ≤ s.lock.waiting := h.blocked_le .write
  -- When the threads stay as they are, the earlier signals count.
  have hstay : s'.threads = s.threads → (woken s .read ≠ 0 ∨ woken s .write ≠ 0 ∨
      blocked s .read = 0 ∧ blocked s .write = 0) →
      (∃ k, woken s' k ≠ 0) ∨ ∀ k, blocked s' k = 0 := by
    intro hsame hw
    rcases hw with hw | hw | ⟨hr, hw⟩
    · exact Or.inl ⟨.read, by rw [woken, hsame]; exact hw⟩
    · exact Or.inl ⟨.write, by rw [woken, hsame]; exact hw⟩
    · refine Or.inr fun k => ?_
      cases k with
      | read => rw [blocked, hsame]; exact hr
      | write => rw [blocked, hsame]; exact hw
  unfold WriteReleaseOk at hok
  unfold signalImpl at hwakes
  by_cases hprefer : s.lock.preferWriters = true
  · rw [if_pos hprefer] at hwakes hok
    by_cases hwaiting : s.lock.waiting = 0
    · -- No writer is counted, so the readers are woken.
      rw [if_neg (not_not.mpr hwaiting), Option.some.injEq, broadcastIf] at hwakes
      by_cases hreq : s.lock.readRequests = 0
      · rw [if_neg (not_not.mpr hreq)] at hwakes
        exact hstay hwakes.symm (by omega)
      · rw [if_pos hreq] at hwakes
        obtain ⟨hr, -, hw, -⟩ := broadcast_read hwakes.symm
        refine Or.inr fun k => ?_
        cases k with
        | read => exact hr
        | write => omega
    · rw [if_pos hwaiting] at hwakes
      rcases signal_write hwakes with hw | ⟨hzero, hsame⟩
      · exact Or.inl ⟨.write, hw⟩
      · exact hstay hsame (by omega)
  · rw [if_neg hprefer] at hwakes hok
    by_cases hreq : s.lock.readRequests = 0
    · rw [if_neg (not_not.mpr hreq)] at hwakes
      obtain ⟨choice', hsig⟩ := signalIf_signal (Nat.le_of_add_right_le hwrite) hwakes
      rcases signal_write hsig with hw | ⟨hzero, hsame⟩
      · exact Or.inl ⟨.write, hw⟩
      · exact hstay hsame (by omega)
    · -- Some reader is counted. It is woken, was woken before, or has only timed out.
      rw [if_pos hreq, Option.some.injEq] at hwakes
      obtain ⟨hr, hr', hw, hw'⟩ := broadcast_read hwakes.symm
      by_cases hsome : blocked s .read + woken s .read = 0
      · by_cases hwoken : woken s .write = 0
        · refine Or.inr fun k => ?_
          cases k with
          | read => exact hr
          | write => omega
        · exact Or.inl ⟨.write, by omega⟩
      · exact Or.inl ⟨.read, by omega⟩

/-- The release of the write lock wakes somebody when somebody is blocked. -/
theorem alert_writeRelease (h : Safe s) (hr : WriteRelease t choice s s') (hok : WriteReleaseOk s) :
    Alert s' := by
  have htid : s'.lock.tid = .unlocked := by rw [hr.lock]
  refine ⟨fun _ hblocked => ?_, fun hd => absurd (htid.symm.trans hd) (by simp)⟩
  obtain ⟨k, hk⟩ := hblocked
  rcases signalImpl_woken h hok hr.wakes with hw | hb
  · exact hw
  · exact absurd (hb k) hk

/-- The release of the last read lock wakes a writer, and leaves no reader behind. -/
theorem alert_readRelease (h : Safe s) {k : Nat} (ht : s.lock.tmap t = some n)
    (hr : ReadRelease t k choice s s') (hok : s.lock.numReaders = k → ReadReleaseOk s) :
    Alert s' := by
  have hlive : s'.lock.tid ≠ .deleted := by
    intro hd
    rw [h.book.tmap_none (h.book.dead (hr.tid.symm.trans hd))] at ht
    cases ht
  by_cases hnum : s'.lock.numReaders = 0
  · have hwakes := hr.wakes
    have hnr := hr.numReaders
    rw [if_pos hnum] at hwakes
    have hwrite : blocked s .write + woken s .write ≤ s.lock.waiting := h.blocked_le .write
    obtain ⟨choice', hsig⟩ := signalIf_signal (Nat.le_of_add_right_le hwrite) hwakes
    refine ⟨fun _ hblocked => ?_, fun hd => absurd hd hlive⟩
    obtain ⟨k, hk⟩ := hblocked
    rcases signal_write hsig with hw | ⟨hzero, hsame⟩
    · exact ⟨.write, hw⟩
    · rw [blocked, hsame] at hk
      rcases hok (by omega) with hw | hw | hw | hw
      · exact ⟨.read, by rw [woken, hsame]; exact hw⟩
      · exact ⟨.write, by rw [woken, hsame]; exact hw⟩
      · exact absurd hzero hw
      · cases k with
        | read => exact absurd hw hk
        | write => exact absurd hzero hk
  · exact ⟨fun hno => absurd (Or.inr hnum) hno, fun hd => absurd hd hlive⟩

/-- The thread that starts to wait on a `Condition` does not wait for the lock. -/
theorem Alert.blockOn_user (h : Alert s) {c : C} {job : Job C} (ht : s.threads t = none) :
    Alert (blockOn t (.user c) job s) := by
  have hkeep : ∀ (k : Kind) (w : Wake),
      tally k.cond w (blockOn t (.user c) job s).threads = tally k.cond w s.threads := by
    intro k w
    have hne : (Cond.user c : Cond C) ≠ k.cond := by cases k <;> simp [Kind.cond]
    have hup := tally_update k.cond w s.threads t (some ⟨.user c, job, .blocked⟩)
    rw [ht] at hup
    simp only [isIn, hne, false_and, decide_false, Bool.toNat_false, Nat.add_zero] at hup
    exact hup
  exact h.mono id rfl (fun k => Nat.le_of_eq (hkeep k _)) fun k => hkeep k _

/-- A thread leaves its wait after its time has expired, or on a deleted lock. -/
theorem Alert.leave (h : Alert s) {w : Monitor.Wait (Cond C) (Job C)} (ht : s.threads t = some w)
    (hwhy : w.wake = .timedOut ∨ s.lock.tid = .deleted) :
    Alert (leave t w.cond s) := by
  obtain ⟨hsame, hthreads, -, -⟩ := leave_spec t w.cond s
  have hle : ∀ k, blocked (SmartLock.leave t w.cond s) k ≤ blocked s k := by
    intro k
    have hup := tally_update k.cond .blocked s.threads t none
    rw [blocked, blocked, hthreads]
    simp only [isIn, Bool.toNat_false] at hup
    omega
  rcases hwhy with hw | hd
  · refine h.mono (fun hheld => hheld.mono hsame) hsame.tid hle fun k => ?_
    have hup := tally_update k.cond .signalled s.threads t none
    rw [ht] at hup
    simp only [isIn, hw, reduceCtorEq, and_false, decide_false, Bool.toNat_false, Nat.add_zero] at hup
    rw [woken, woken, hthreads, hup]
  · have hzero : ∀ k, blocked (SmartLock.leave t w.cond s) k = 0 := by
      intro k
      have hb := h.dead hd k
      have hk := hle k
      omega
    exact ⟨fun _ h => h.elim fun k hk => absurd (hzero k) hk, fun _ => hzero⟩

variable [Fintype C]

/-- Every critical section without a lost signal keeps the lock alert. -/
theorem Alert.step (h : Alert s) (hs : Safe s) {a : Action T C} {lab : Label T}
    (hok : NoLostSignal s a) (hstep : step s a = some (s', lab)) : Alert s' := by
  have hs' := (hs.step hstep).1
  by_cases hres : ∃ t d, a = .resume t d
  · obtain ⟨t, d, rfl⟩ := hres
    obtain ⟨w, ht, -, -, -, hor⟩ := resume_spec hs hstep
    rcases hor with hheld | ⟨rfl, hwhy⟩
    · exact alert_held hs' hheld
    · exact h.leave ht hwhy
  by_cases hexp : ∃ t, a = .expire t
  · obtain ⟨t, rfl⟩ := hexp
    obtain ⟨thr, hthr, rfl, -⟩ := expire_spec hstep
    exact h.mono id rfl (fun k => tally_expire_blocked_le hthr _) fun k =>
      tally_expire_signalled hthr _
  have ht := step_call hstep (fun t d ha => hres ⟨t, d, ha⟩) fun t ha => hexp ⟨t, ha⟩
  have hsome : ¬ (s.threads a.thread).isSome = true := by rw [ht]; simp
  cases a with
  | resume t d => exact absurd ⟨t, d, rfl⟩ hres
  | expire t => exact absurd ⟨t, rfl⟩ hexp
  | readLock t timeoutMs deadlock =>
    rw [SmartLock.step, if_neg hsome] at hstep
    exact alert_lock h hs' (readLock_spec hs ht (Option.some.inj hstep)).2.2
  | writeLock t timeoutMs deadlock =>
    rw [SmartLock.step, if_neg hsome] at hstep
    exact alert_lock h hs' (writeLock_spec hs ht (Option.some.inj hstep)).2.2
  | tryReadLock t =>
    rw [SmartLock.step, if_neg hsome] at hstep
    exact alert_lock h hs' (tryReadLock_spec hs ht (Option.some.inj hstep)).2.2
  | tryWriteLock t =>
    rw [SmartLock.step, if_neg hsome] at hstep
    exact alert_lock h hs' (tryWriteLock_spec hs ht (Option.some.inj hstep)).2.2
  | readUnlock t choice =>
    rw [SmartLock.step, if_neg hsome] at hstep
    obtain ⟨-, -, rfl | ⟨n, hn, hr⟩⟩ := readUnlock_spec hs hstep
    · exact h
    · exact alert_readRelease hs hn hr fun hnum => hok (by rw [hn]; rfl) hnum
  | writeUnlock t choice =>
    rw [SmartLock.step, if_neg hsome] at hstep
    obtain ⟨-, -, rfl | hr⟩ := writeUnlock_spec hs hstep
    · exact h
    · exact alert_writeRelease hs hr (hok hr.tid)
  | wait t c timeoutMs choice =>
    rw [SmartLock.step, if_neg hsome] at hstep
    have hcounted : Safe (counted c s) := hs.setCmap _
    obtain ⟨-, -, rfl | ⟨s1, job, rfl, hr | ⟨n, hn, hr⟩⟩⟩ := externWait_spec hs ht hstep
    · exact h
    · have halert : Alert s1 := alert_writeRelease hcounted hr (hok.1 hr.tid)
      exact halert.blockOn_user (((sameWaits_signalImpl hr.wakes).none_iff t).mpr ht)
    · have halert : Alert s1 := alert_readRelease hcounted hn hr (hok.2 n hn)
      exact halert.blockOn_user ((hr.sameWaits.none_iff t).mpr ht)
  | signal t c choice =>
    rw [SmartLock.step, if_neg hsome] at hstep
    split at hstep
    · cases hstep
    · rename_i thr hthr
      cases hstep
      have hne : ∀ k : Kind, (k.cond : Cond C) ≠ .user c := fun k => by
        cases k <;> simp [Kind.cond]
      exact h.mono id rfl (fun k => Nat.le_of_eq (tally_signal_ne hthr (hne k) _)) fun k =>
        tally_signal_ne hthr (hne k) _
  | broadcast t c =>
    rw [SmartLock.step, if_neg hsome] at hstep
    cases hstep
    have hne : ∀ k : Kind, (k.cond : Cond C) ≠ .user c := fun k => by
      cases k <;> simp [Kind.cond]
    exact h.mono id rfl (fun k => Nat.le_of_eq (tally_broadcast_ne (hne k) _ _)) fun k =>
      tally_broadcast_ne (hne k) _ _
  | cleanup t choice =>
    rw [SmartLock.step, if_neg hsome] at hstep
    obtain ⟨-, -, rfl | hr | ⟨n, hn, hr⟩⟩ := cleanup_spec hs hstep
    · exact h.mono id rfl (fun _ => Nat.le_refl _) fun _ => rfl
    · exact alert_writeRelease hs hr (hok.1 hr.tid)
    · exact alert_readRelease hs hn hr (hok.2 n hn)
  | destructor t =>
    rw [SmartLock.step, if_neg hsome] at hstep
    obtain ⟨-, -, -, hthreads⟩ := destructor_spec hs (Option.some.inj hstep)
    have hb := blocked_destructor hs hok hthreads
    exact ⟨fun _ h => h.elim fun k hk => absurd (hb k) hk, fun _ => hb⟩

/-- In every run without a lost signal, every quiescent state leaves nobody blocked. -/
theorem quiet_of_run (preferWriters : Bool) (as : List (Action T C))
    (h : Lts.Along SmartLock.step NoLostSignal (State.init T C preferWriters) as) :
    Lts.Always SmartLock.step Quiet (State.init T C preferWriters) as := by
  have hinit : Safe (State.init T C preferWriters) ∧ Alert (State.init T C preferWriters) := by
    refine ⟨Safe.init preferWriters, ⟨fun _ hblocked => ?_, fun hd => by cases hd⟩⟩
    obtain ⟨k, hk⟩ := hblocked
    exact absurd (count_eq_zero_iff.mpr fun _ => rfl) hk
  have halways : Lts.Always SmartLock.step (fun s => Safe s ∧ Alert s)
      (State.init T C preferWriters) as :=
    Lts.always_of_along (fun s a s' lab hs hok hstep =>
      ⟨(hs.1.step hstep).1, hs.2.step hs.1 hok hstep⟩) as _ hinit h
  exact Lts.Always.mono (fun s hs => hs.2.quiet) as _ halways

end

attribute [local instance] Lts.neZero_one Lts.neZero_two in
/-- The second writer waits for the first one, is woken by its unlock, and unlocks in turn. -/
def writersInTurn : List (Action (Fin 2) (Fin 1)) :=
  [.writeLock 0 0 none, .writeLock 1 0 none, .writeUnlock 0 (some 1), .resume 1 none,
    .writeUnlock 1 none]

theorem quiet_writersInTurn :
    Lts.Along step NoLostSignal (State.init (Fin 2) (Fin 1) false) writersInTurn ∧
      Lts.Always step Quiet (State.init (Fin 2) (Fin 1) false) writersInTurn := by
  have hok : Lts.Along step NoLostSignal (State.init (Fin 2) (Fin 1) false) writersInTurn := by
    refine Lts.along_of_check (p := fun s a => decide (NoLostSignal s a)) (by simp) _ _ ?_
    decide
  exact ⟨hok, quiet_of_run false writersInTurn hok⟩

/-- A reader with a timeout and a second writer wait for the first writer. The time of the reader
expires, and before it runs, the first writer unlocks: it broadcasts to the readers, where nobody
is left, and not to the second writer. When the reader has returned, the lock is free, and the
second writer sleeps. -/
theorem unlock_for_timedOut_reader :
    ¬ ∀ as : List (Action (Fin 3) (Fin 1)),
      Lts.Always step Quiet (State.init (Fin 3) (Fin 1) false) as := by
  intro hall
  let as : List (Action (Fin 3) (Fin 1)) :=
    [.writeLock 0 0 none, .readLock 1 100 none, .writeLock 2 0 none, .expire 1,
      .writeUnlock 0 none, .resume 1 none]
  have hrun : (Lts.run step (State.init (Fin 3) (Fin 1) false) as).map
      (fun r => (decide (r.1.lock.tid = .unlocked), r.1.lock.numReaders, woken r.1 .read,
        woken r.1 .write, blocked r.1 .write)) = some (true, 0, 0, 0, 1) := by
    decide
  obtain ⟨r, hr, hstate⟩ := Option.map_eq_some_iff.mp hrun
  simp only [Prod.mk.injEq, decide_eq_true_eq] at hstate
  obtain ⟨htid, hnum, hread, hwrite, hblocked⟩ := hstate
  have hfree : ¬ Held r.1.lock := by
    rintro (⟨u, hu⟩ | hn)
    · exact absurd (htid.symm.trans hu) (by simp)
    · exact hn hnum
  have hquiet := Lts.Always.of_run as (hall as) hr hfree (fun k => by
    cases k with
    | read => exact hread
    | write => exact hwrite) .write
  rw [hblocked] at hquiet
  cases hquiet

end Qore.SmartLock
