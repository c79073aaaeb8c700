import Mathlib.Algebra.Order.BigOperators.Group.Finset
import Qore.SmartLock.Model

/-!
# `Qore.SmartLock.Holders`: readers, the writer, and the lock and unlock functions

`Book` is the invariant of the two sides of the lock: `num_readers` is the sum of the counts in
`tmap`, `vmap` has the same threads, and a write owner excludes readers. `Safe` adds the
threads: a waiting thread holds nothing, the counters count the waiting threads, and a thread
with the lock in its resource list holds it, unless the lock is deleted.

* `acquire_cases` says what a lock function can do, and `Safe.acquire` that it keeps the
  invariant.
* `WriteRelease` and `ReadRelease` say what the unlock functions do, and `Safe.writeRelease` and
  `Safe.readRelease` that they keep the invariant.
-/

set_option autoImplicit false

namespace Qore.SmartLock

open Qore.Lib
open Qore.Lib.Monitor hiding Wait

variable {T C : Type} {s : State T C}

/-! ### The fields of the lock -/

/-- The locks are held by the same threads. -/
structure SameHold (lock lock' : RWLock T C) : Prop where
  tid : lock'.tid = lock.tid
  tmap : lock'.tmap = lock.tmap
  vmap : lock'.vmap = lock.vmap
  numReaders : lock'.numReaders = lock.numReaders
  preferWriters : lock'.preferWriters = lock.preferWriters

/-- What a thread that waits on a condition variable is doing. -/
def Fits : Cond C → Job C → Prop
  | c, .lock .read _ => c = .read
  | c, .lock .write _ => c = .write
  | c, .wait .read n c' _ => c = .user c' ∧ 0 < n
  | c, .wait .write _ c' _ => c = .user c'
  | c, .regrab .read count left _ => c = .read ∧ left = count ∧ 0 < count
  | c, .regrab .write _ _ _ => c = .write

/-- The condition variable of the threads that wait for a lock. -/
def Kind.cond : Kind → Cond C
  | .read => .read
  | .write => .write

/-- `readRequests` and `waiting`. -/
def RWLock.counter (lock : RWLock T C) : Kind → Nat
  | .read => lock.readRequests
  | .write => lock.waiting

/-- The thread holds the read lock or the write lock. -/
def Holds (lock : RWLock T C) (t : T) : Prop := lock.tid = .owner t ∨ (lock.tmap t).isSome

theorem SameHold.holds {lock lock' : RWLock T C} (h : SameHold lock lock') (t : T) :
    Holds lock' t ↔ Holds lock t := by
  rw [Holds, Holds, h.tid, h.tmap]

/-- The counter of a condition variable is counted up. -/
def RWLock.enqueue (lock : RWLock T C) : Cond C → RWLock T C
  | .read => { lock with readRequests := lock.readRequests + 1 }
  | .write => { lock with waiting := lock.waiting + 1 }
  | .user _ => lock

theorem sameHold_enqueue (lock : RWLock T C) (c : Cond C) : SameHold lock (lock.enqueue c) := by
  cases c <;> exact ⟨rfl, rfl, rfl, rfl, rfl⟩

theorem counter_enqueue [DecidableEq C] (lock : RWLock T C) (c : Cond C) (k : Kind) :
    (lock.enqueue c).counter k = lock.counter k + (decide (c = k.cond)).toNat := by
  cases c <;> cases k <;> simp [RWLock.enqueue, RWLock.counter, Kind.cond]

/-- What a thread changes when it leaves its wait. -/
theorem leave_spec [DecidableEq T] [DecidableEq C] (t : T) (c : Cond C) (s : State T C) :
    SameHold s.lock (leave t c s).lock ∧
      (leave t c s).threads = Function.update s.threads t none ∧
      (leave t c s).resources = s.resources ∧
      ∀ k, (leave t c s).lock.counter k = s.lock.counter k - (decide (c = k.cond)).toNat := by
  cases c with
  | read =>
    refine ⟨⟨rfl, rfl, rfl, rfl, rfl⟩, rfl, rfl, fun k => ?_⟩
    cases k <;> simp [leave, RWLock.counter, Kind.cond]
  | write =>
    refine ⟨⟨rfl, rfl, rfl, rfl, rfl⟩, rfl, rfl, fun k => ?_⟩
    cases k <;> simp [leave, RWLock.counter, Kind.cond]
  | user c =>
    refine ⟨⟨rfl, rfl, rfl, rfl, rfl⟩, rfl, rfl, fun k => ?_⟩
    cases k <;> simp [leave, RWLock.counter, Kind.cond]

/-- `mark_read_lock_intern` counts one more read lock of the thread. -/
theorem markReadLockIntern_eq [DecidableEq T]
    (hkeys : ∀ u, (s.lock.tmap u).isSome = (s.lock.vmap u).isSome) (t : T) :
    ∃ vmap resources, markReadLockIntern t s =
        ⟨{ s.lock with
            numReaders := s.lock.numReaders + 1
            tmap := Function.update s.lock.tmap t (some ((s.lock.tmap t).getD 0 + 1))
            vmap := vmap }, s.threads, resources⟩ ∧
      (∀ u, (vmap u).isSome = if u = t then true else (s.lock.vmap u).isSome) ∧
      ∀ u, u ≠ t → resources u = s.resources u := by
  unfold markReadLockIntern
  dsimp only
  cases hn : s.lock.tmap t with
  | none =>
    refine ⟨Function.update s.lock.vmap t (some t), Function.update s.resources t true, rfl,
      fun u => ?_, fun u hut => Function.update_of_ne hut _ _⟩
    by_cases hut : u = t <;> simp [hut]
  | some n =>
    refine ⟨s.lock.vmap, s.resources, rfl, fun u => ?_, fun _ _ => rfl⟩
    by_cases hut : u = t
    · rw [if_pos hut, hut, ← hkeys, hn]
      rfl
    · rw [if_neg hut]

/-- After a wait, `set_initial_read_lock_intern` does the same. -/
theorem setInitialReadLockIntern_eq [DecidableEq T] {t : T} (ht : s.lock.tmap t = none) :
    setInitialReadLockIntern t { s with lock := { s.lock with numReaders := s.lock.numReaders + 1 } } =
      markReadLockIntern t s := by
  unfold markReadLockIntern
  dsimp only
  rw [ht]

/-- A thread has the write lock, or threads have the read lock. -/
def Held (lock : RWLock T C) : Prop := (∃ u, lock.tid = .owner u) ∨ lock.numReaders ≠ 0

theorem Held.mono {lock lock' : RWLock T C} (h : Held lock) (hsame : SameHold lock lock') :
    Held lock' := by
  rw [Held, hsame.tid, hsame.numReaders]
  exact h

/-- What the loop of `grabImpl` can do. -/
theorem grabImpl_cases [DecidableEq T] (t : T) (job : Job C) (deadlock : Option T)
    (s : State T C) :
    (grabImpl t job deadlock s = (s, .ok) ∧ s.lock.tid = .unlocked ∧ s.lock.numReaders = 0) ∨
      (grabImpl t job deadlock s =
          (blockOn t .write job { s with lock := s.lock.enqueue .write }, .block) ∧
        Held s.lock ∧ ((∀ u, s.lock.tid ≠ .owner u) → s.lock.vmap t = none)) ∨
      ∃ e, grabImpl t job deadlock s = (s, .fail e) ∧ (Held s.lock ∨ s.lock.tid = .deleted) := by
  unfold grabImpl
  split
  · rename_i u htid
    split
    · exact Or.inr (Or.inr ⟨_, rfl, Or.inl (Or.inl ⟨u, htid⟩)⟩)
    · exact Or.inr (Or.inl ⟨rfl, Or.inl ⟨u, htid⟩, fun hno => absurd htid (hno u)⟩)
  · rename_i htid
    exact Or.inr (Or.inr ⟨_, rfl, Or.inr htid⟩)
  · rename_i htid
    split
    · rename_i hnum
      split
      · exact Or.inr (Or.inr ⟨_, rfl, Or.inl (Or.inr hnum)⟩)
      · split
        · exact Or.inr (Or.inr ⟨_, rfl, Or.inl (Or.inr hnum)⟩)
        · rename_i hv
          exact Or.inr (Or.inl ⟨rfl, Or.inr hnum, fun _ => by simpa using hv⟩)
    · rename_i hnum
      exact Or.inl ⟨rfl, htid, not_not.mp hnum⟩

/-- What a lock function can do: take the lock, wait while it is held, or fail. -/
theorem acquire_cases [DecidableEq T] {kind : Kind} {t : T} {job : Job C} {waited : Bool}
    {deadlock : Option T} {s' : State T C} {g : Grab T} (hw : waited = true → s.lock.tmap t = none)
    (h : acquire kind t job waited deadlock s = (s', g)) :
    (g = .ok ∧ s.lock.tid = .unlocked ∧
        (kind = .read ∧ s' = markReadLockIntern t s ∨
          kind = .write ∧ s.lock.numReaders = 0 ∧ s' = grabIntern t s)) ∨
      (g = .block ∧ Held s.lock ∧ ((∀ u, s.lock.tid ≠ .owner u) → s.lock.vmap t = none) ∧
        s' = blockOn t kind.cond job { s with lock := s.lock.enqueue kind.cond }) ∨
      ∃ e, g = .fail e ∧ s' = s ∧ (Held s.lock ∨ s.lock.tid = .deleted) := by
  cases kind with
  | read =>
    replace h : grabReadLockIntern t job waited deadlock s = (s', g) := h
    unfold grabReadLockIntern at h
    split at h
    · rename_i u htid
      split at h
      · rename_i v
        obtain ⟨rfl, rfl⟩ := Prod.mk.inj h
        exact Or.inr (Or.inr ⟨_, rfl, rfl, Or.inl (Or.inl ⟨u, htid⟩)⟩)
      · obtain ⟨rfl, rfl⟩ := Prod.mk.inj h
        exact Or.inr (Or.inl ⟨rfl, Or.inl ⟨u, htid⟩, fun hno => absurd htid (hno u), rfl⟩)
    · rename_i htid
      obtain ⟨rfl, rfl⟩ := Prod.mk.inj h
      exact Or.inr (Or.inr ⟨_, rfl, rfl, Or.inr htid⟩)
    · rename_i htid
      split at h
      · rename_i hwaited
        rw [setInitialReadLockIntern_eq (hw hwaited)] at h
        obtain ⟨rfl, rfl⟩ := Prod.mk.inj h
        exact Or.inl ⟨rfl, htid, Or.inl ⟨rfl, rfl⟩⟩
      · obtain ⟨rfl, rfl⟩ := Prod.mk.inj h
        exact Or.inl ⟨rfl, htid, Or.inl ⟨rfl, rfl⟩⟩
  | write =>
    rcases grabImpl_cases t job deadlock s with ⟨hg, htid, hnum⟩ | ⟨hg, hheld, hvmap⟩ |
      ⟨e, hg, hwhy⟩
    · simp only [acquire, hg, Prod.mk.injEq] at h
      exact Or.inl ⟨h.2.symm, htid, Or.inr ⟨rfl, hnum, h.1.symm⟩⟩
    · simp only [acquire, hg, Prod.mk.injEq] at h
      exact Or.inr (Or.inl ⟨h.2.symm, hheld, hvmap, h.1.symm⟩)
    · simp only [acquire, hg, Prod.mk.injEq] at h
      exact Or.inr (Or.inr ⟨e, h.2.symm, h.1.symm, hwhy⟩)

/-! ### The sum of the counts -/

section
variable [Fintype T] (tmap : T → Option Nat)

/-- The sum of the recursion counts. -/
def total (tmap : T → Option Nat) : Nat := ∑ t, (tmap t).getD 0

theorem total_update [DecidableEq T] (t : T) (x : Option Nat) :
    total (Function.update tmap t x) + (tmap t).getD 0 = total tmap + x.getD 0 := by
  have hsplit : ∀ f : T → Option Nat,
      total f = (f t).getD 0 + ∑ u ∈ Finset.univ.erase t, (f u).getD 0 := fun f =>
    (Finset.add_sum_erase Finset.univ (fun u => (f u).getD 0) (Finset.mem_univ t)).symm
  have hrest : ∑ u ∈ Finset.univ.erase t, (Function.update tmap t x u).getD 0 =
      ∑ u ∈ Finset.univ.erase t, (tmap u).getD 0 :=
    Finset.sum_congr rfl fun u hu => by rw [Function.update_of_ne (Finset.ne_of_mem_erase hu)]
  rw [hsplit (Function.update tmap t x), hsplit tmap, hrest, Function.update_self]
  omega

theorem le_total (t : T) : (tmap t).getD 0 ≤ total tmap :=
  Finset.single_le_sum (f := fun t => (tmap t).getD 0) (fun _ _ => Nat.zero_le _)
    (Finset.mem_univ t)

/-- The invariant of the fields of the lock. -/
structure Book (lock : RWLock T C) : Prop where
  sum : lock.numReaders = total lock.tmap
  keys : ∀ t, (lock.tmap t).isSome = (lock.vmap t).isSome
  pos : ∀ t n, lock.tmap t = some n → 0 < n
  owned : ∀ t, lock.tid = .owner t → lock.numReaders = 0
  dead : lock.tid = .deleted → lock.numReaders = 0

namespace Book

variable {lock lock' : RWLock T C}

theorem congr (h : Book lock) (hsame : SameHold lock lock') : Book lock' := by
  refine ⟨?_, ?_, ?_, ?_, ?_⟩
  · rw [hsame.numReaders, hsame.tmap]; exact h.sum
  · rw [hsame.tmap, hsame.vmap]; exact h.keys
  · rw [hsame.tmap]; exact h.pos
  · rw [hsame.tid, hsame.numReaders]; exact h.owned
  · rw [hsame.tid, hsame.numReaders]; exact h.dead

/-- Without readers `tmap` is empty. -/
theorem tmap_none (h : Book lock) (hnum : lock.numReaders = 0) (t : T) : lock.tmap t = none := by
  have hle := le_total lock.tmap t
  have hsum := h.sum
  cases ht : lock.tmap t with
  | none => rfl
  | some n =>
    have hpos := h.pos t n ht
    rw [ht, Option.getD_some] at hle
    omega

/-- The owner of the write lock leaves, or the lock gets an owner while there are no readers. -/
theorem setTid (h : Book lock) (hnum : lock.numReaders = 0) (tid : Tid T) (vl : Option T) :
    Book { lock with tid := tid, vl := vl } :=
  ⟨h.sum, h.keys, h.pos, fun _ _ => hnum, fun _ => hnum⟩

variable [DecidableEq T]

/-- A thread gets one more read lock. -/
theorem mark (h : Book lock) (htid : lock.tid = .unlocked) (t : T) {vmap : T → Option T}
    (hvmap : ∀ u, (vmap u).isSome = if u = t then true else (lock.vmap u).isSome) :
    Book { lock with
      numReaders := lock.numReaders + 1
      tmap := Function.update lock.tmap t (some ((lock.tmap t).getD 0 + 1))
      vmap := vmap } := by
  have hup := total_update lock.tmap t (some ((lock.tmap t).getD 0 + 1))
  have hsum := h.sum
  rw [Option.getD_some] at hup
  refine ⟨?_, fun u => ?_, fun u n hu => ?_, fun u hu => ?_, fun hd => ?_⟩
  · show lock.numReaders + 1 = ↑(total (Function.update lock.tmap t _))
    omega
  · rw [hvmap u]
    by_cases hut : u = t
    · rw [hut, if_pos rfl]
      simp
    · rw [if_neg hut]
      show (Function.update lock.tmap t _ u).isSome = _
      rw [Function.update_of_ne hut]
      exact h.keys u
  · by_cases hut : u = t
    · rw [hut] at hu
      simp only [Function.update_self, Option.some.injEq] at hu
      omega
    · simp only [Function.update_of_ne hut] at hu
      exact h.pos u n hu
  · exact absurd (htid.symm.trans hu) (by simp)
  · exact absurd (htid.symm.trans hd) (by simp)

/-- A thread gives up `k` of its read locks. -/
theorem drop (h : Book lock) {t : T} {n k : Nat} (ht : lock.tmap t = some n) (hk : k ≤ n)
    {x : Option Nat} (hx : x = if n - k = 0 then none else some (n - k))
    {vmap : T → Option T}
    (hvmap : ∀ u, (vmap u).isSome = if u = t then decide (n - k ≠ 0) else (lock.vmap u).isSome) :
    Book { lock with
      numReaders := lock.numReaders - k
      tmap := Function.update lock.tmap t x
      vmap := vmap } := by
  have hup := total_update lock.tmap t x
  have hle := le_total lock.tmap t
  have hsum := h.sum
  rw [ht, Option.getD_some] at hup hle
  have hxd : x.getD 0 = n - k := by
    rw [hx]
    split
    · rw [Option.getD_none]; omega
    · rw [Option.getD_some]
  refine ⟨?_, fun u => ?_, fun u m hu => ?_, fun u hu => ?_, fun hd => ?_⟩
  · show lock.numReaders - k = ↑(total (Function.update lock.tmap t x))
    omega
  · rw [hvmap u]
    by_cases hut : u = t
    · rw [hut, if_pos rfl]
      show (Function.update lock.tmap t x t).isSome = _
      rw [Function.update_self, hx]
      split <;> simp_all
    · rw [if_neg hut]
      show (Function.update lock.tmap t x u).isSome = _
      rw [Function.update_of_ne hut]
      exact h.keys u
  · by_cases hut : u = t
    · rw [hut] at hu
      simp only [Function.update_self, hx] at hu
      split at hu
      · cases hu
      · cases hu
        omega
    · simp only [Function.update_of_ne hut] at hu
      exact h.pos u m hu
  · have hnum := h.owned u hu
    have hpos := h.pos t n ht
    omega
  · have hnum := h.dead hd
    have hpos := h.pos t n ht
    omega

end Book

/-! ### The lock and its threads -/

variable [DecidableEq C]

/-- The invariant of the lock and its threads. -/
structure Safe (s : State T C) : Prop where
  book : Book s.lock
  idle : ∀ t, s.threads t ≠ none → ¬ Holds s.lock t
  resources : ∀ t, s.resources t = true → Holds s.lock t ∨ s.lock.tid = .deleted
  counts : ∀ k : Kind, s.lock.counter k = waiting k.cond s.threads
  jobs : Jobs Fits s.threads

theorem Safe.init (preferWriters : Bool) : Safe (State.init T C preferWriters) := by
  refine ⟨⟨?_, fun _ => rfl, ?_, fun _ _ => rfl, fun _ => rfl⟩, ?_, ?_, fun k => ?_, ?_⟩
  · show (0 : Int) = ↑(∑ _t : T, (none : Option Nat).getD 0)
    simp
  · intro t n h
    cases h
  · intro t ht
    exact absurd rfl ht
  · intro t ht
    cases ht
  · have hzero : waiting (k.cond : Cond C) (State.init T C preferWriters).threads = 0 :=
      count_eq_zero_iff.mpr fun _ => rfl
    rw [hzero]
    cases k <;> rfl
  · intro t w ht
    cases ht

namespace Safe

variable {s s' : State T C}

/-- A section that only wakes threads. -/
theorem wake (h : Safe s) {thr : Threads T (Cond C) (Job C)} (hsame : SameWaits s.threads thr) :
    Safe { s with threads := thr } := by
  refine ⟨h.book, fun t ht => h.idle t ?_, h.resources, fun k => ?_, hsame.jobs h.jobs⟩
  · exact fun hnone => ht ((hsame.none_iff t).mpr hnone)
  · show s.lock.counter k = waiting k.cond thr
    rw [hsame.waiting]
    exact h.counts k

/-- A section that changes the holders of the lock. -/
theorem relock (h : Safe s) {lock : RWLock T C} {resources : T → Bool} (hbook : Book lock)
    (hcounter : ∀ k, lock.counter k = s.lock.counter k)
    (hholds : ∀ u, Holds lock u → Holds s.lock u ∨ s.threads u = none)
    (hres : ∀ u, resources u = true → Holds lock u ∨ lock.tid = .deleted) :
    Safe ⟨lock, s.threads, resources⟩ := by
  refine ⟨hbook, fun u hu hheld => ?_, hres, fun k => (hcounter k).trans (h.counts k), h.jobs⟩
  rcases hholds u hheld with hold | hnone
  · exact h.idle u hu hold
  · exact hu hnone

/-- `cmap` has no part in the invariant. -/
theorem setCmap (h : Safe s) (cmap : C → Option Nat) :
    Safe { s with lock := { s.lock with cmap := cmap } } :=
  h.relock (h.book.congr ⟨rfl, rfl, rfl, rfl, rfl⟩) (fun k => by cases k <;> rfl)
    (fun _ hu => Or.inl hu) h.resources

variable [DecidableEq T]

/-- A thread that waits leaves its wait. -/
theorem leave (h : Safe s) {t : T} {w : Monitor.Wait (Cond C) (Job C)}
    (ht : s.threads t = some w) : Safe (leave t w.cond s) := by
  obtain ⟨hsame, hthreads, hres, hcounter⟩ := leave_spec t w.cond s
  refine ⟨h.book.congr hsame, fun u hu => ?_, fun u hu => ?_, fun k => ?_, ?_⟩
  · rw [hthreads] at hu
    rw [hsame.holds]
    by_cases hut : u = t
    · rw [hut, Function.update_self] at hu
      exact absurd rfl hu
    · rw [Function.update_of_ne hut] at hu
      exact h.idle u hu
  · rw [hres] at hu
    rw [hsame.holds, hsame.tid]
    exact h.resources u hu
  · have hup := waiting_update k.cond s.threads t none
    have hk := h.counts k
    rw [ht] at hup
    simp only [isOn, Bool.toNat_false, Nat.add_zero] at hup
    rw [hthreads, hcounter]
    omega
  · rw [hthreads]
    exact h.jobs.update t fun w hw => by cases hw

/-- A thread that holds nothing starts to wait. -/
theorem block (h : Safe s) {t : T} {c : Cond C} {job : Job C} (ht : s.threads t = none)
    (hidle : ¬ Holds s.lock t) (hfits : Fits c job) :
    Safe (blockOn t c job { s with lock := s.lock.enqueue c }) := by
  have hsame := sameHold_enqueue s.lock c
  refine ⟨h.book.congr hsame, fun u hu => ?_, fun u hu => ?_, fun k => ?_, ?_⟩
  · show ¬ Holds (s.lock.enqueue c) u
    rw [hsame.holds]
    by_cases hut : u = t
    · rw [hut]
      exact hidle
    · simp only [blockOn, Function.update_of_ne hut] at hu
      exact h.idle u hu
  · show Holds (s.lock.enqueue c) u ∨ (s.lock.enqueue c).tid = .deleted
    rw [hsame.holds, hsame.tid]
    exact h.resources u hu
  · have hup := waiting_update k.cond s.threads t (some ⟨c, job, .blocked⟩)
    have hk := h.counts k
    rw [ht] at hup
    simp only [isOn, Bool.toNat_false, Nat.add_zero] at hup
    show (s.lock.enqueue c).counter k = waiting k.cond (Function.update s.threads t _)
    rw [counter_enqueue]
    omega
  · exact h.jobs.update t fun w hw => by cases hw; exact hfits

end Safe

/-! ### The lock functions -/

section
variable [DecidableEq T] {s s' : State T C} {t : T} {n : Nat} {choice : Option T}
  {thr thr' : Threads T (Cond C) (Job C)}

/-- The thread gets one more read lock. -/
theorem Safe.mark (h : Safe s) (ht : s.threads t = none) (htid : s.lock.tid = .unlocked) :
    Safe (markReadLockIntern t s) := by
  obtain ⟨vmap, resources, heq, hvmap, hres⟩ := markReadLockIntern_eq h.book.keys t
  have hholds : ∀ u, Holds (markReadLockIntern t s).lock u ↔ u = t ∨ Holds s.lock u := by
    intro u
    rw [heq, Holds, Holds]
    by_cases hut : u = t <;> simp [hut]
  rw [heq] at hholds ⊢
  refine h.relock (h.book.mark htid t hvmap) (fun k => by cases k <;> rfl) (fun u hu => ?_)
    (fun u hu => ?_)
  · rcases (hholds u).mp hu with hut | hold
    · exact Or.inr (hut ▸ ht)
    · exact Or.inl hold
  · rw [hholds]
    by_cases hut : u = t
    · exact Or.inl (Or.inl hut)
    · rw [hres u hut] at hu
      rcases h.resources u hu with hold | hd
      · exact Or.inl (Or.inr hold)
      · exact absurd (htid.symm.trans hd) (by simp)

/-- The thread gets the write lock. -/
theorem Safe.grabIntern (h : Safe s) (ht : s.threads t = none) (htid : s.lock.tid = .unlocked)
    (hnum : s.lock.numReaders = 0) : Safe (grabIntern t s) := by
  refine h.relock (h.book.setTid hnum (.owner t) (some t)) (fun k => by cases k <;> rfl)
    (fun u hu => ?_) (fun u hu => ?_)
  · rcases hu with hu | hu
    · exact Or.inr (by injection hu with hu; exact hu ▸ ht)
    · exact Or.inl (Or.inr hu)
  · by_cases hut : u = t
    · exact Or.inl (Or.inl (by rw [hut]))
    · rw [Function.update_of_ne hut] at hu
      rcases h.resources u hu with (hold | hold) | hd
      · exact absurd (htid.symm.trans hold) (by simp)
      · exact Or.inl (Or.inr hold)
      · exact absurd (htid.symm.trans hd) (by simp)

/-- A lock function keeps the invariant. The thread is not in a wait and does not own the write
lock. -/
theorem Safe.acquire (h : Safe s) {kind : Kind} {job : Job C} {waited : Bool} {deadlock : Option T}
    {g : Grab T} (ht : s.threads t = none) (hown : s.lock.tid ≠ .owner t)
    (hw : waited = true → s.lock.tmap t = none) (hfits : ¬ Holds s.lock t → Fits kind.cond job)
    (ha : acquire kind t job waited deadlock s = (s', g)) : Safe s' := by
  rcases acquire_cases hw ha with ⟨-, htid, ⟨-, rfl⟩ | ⟨-, hnum, rfl⟩⟩ | ⟨-, hheld, hvmap, rfl⟩ |
    ⟨e, -, rfl, -⟩
  · exact h.mark ht htid
  · exact h.grabIntern ht htid hnum
  · -- A thread that holds the read lock would wait for itself.
    have hnot : ¬ Holds s.lock t := by
      rintro (hold | hold)
      · exact hown hold
      · by_cases hno : ∃ u, s.lock.tid = .owner u
        · obtain ⟨u, hu⟩ := hno
          rw [h.book.tmap_none (h.book.owned u hu)] at hold
          cases hold
        · rw [h.book.keys, hvmap fun u hu => hno ⟨u, hu⟩] at hold
          cases hold
    exact h.block ht hnot (hfits hnot)
  · exact h

/-! ### The unlock functions -/

theorem sameWaits_signalIf {c : Cond C} (h : signalIf n c choice thr = some thr') :
    SameWaits thr thr' := by
  unfold signalIf at h
  split at h
  · exact sameWaits_signal h
  · rw [← Option.some.inj h]
    exact SameWaits.refl _

theorem sameWaits_signalImpl {lock : RWLock T C} (h : signalImpl lock choice thr = some thr') :
    SameWaits thr thr' := by
  unfold signalImpl broadcastIf at h
  split at h
  · split at h
    · exact sameWaits_signal h
    · rw [← Option.some.inj h]
      split
      · exact sameWaits_broadcast _ _
      · exact SameWaits.refl _
  · split at h
    · rw [← Option.some.inj h]
      exact sameWaits_broadcast _ _
    · exact sameWaits_signalIf h

/-- The owner of the write lock gives it up. -/
structure WriteRelease (t : T) (choice : Option T) (s s' : State T C) : Prop where
  tid : s.lock.tid = .owner t
  lock : s'.lock = { s.lock with tid := .unlocked, vl := none }
  wakes : signalImpl s.lock choice s.threads = some s'.threads
  resources : s'.resources = Function.update s.resources t false

theorem releaseIntern_spec (htid : s.lock.tid = .owner t) (h : releaseIntern t choice s = some s') :
    WriteRelease t choice s s' := by
  unfold releaseIntern releaseAndSignal at h
  rw [htid] at h
  dsimp only at h
  split at h
  · cases h
  · rename_i thr hthr
    cases h
    exact ⟨htid, rfl, hthr, rfl⟩

theorem Safe.writeRelease (h : Safe s) (hr : WriteRelease t choice s s') : Safe s' := by
  have hnum := h.book.owned t hr.tid
  have hsafe : Safe ⟨s'.lock, s.threads, s'.resources⟩ := by
    rw [hr.lock, hr.resources]
    refine h.relock (h.book.setTid hnum _ _) (fun k => by cases k <;> rfl) (fun u hu => ?_)
      (fun u hu => ?_)
    · rcases hu with hu | hu
      · cases hu
      · exact Or.inl (Or.inr hu)
    · -- Only the owner has the lock in its resource list.
      by_cases hut : u = t
      · rw [hut, Function.update_self] at hu
        cases hu
      · rw [Function.update_of_ne hut] at hu
        rcases h.resources u hu with (hold | hold) | hd
        · exact absurd (Tid.owner.inj (hold.symm.trans hr.tid)) hut
        · rw [h.book.tmap_none hnum] at hold
          cases hold
        · exact absurd (hd.symm.trans hr.tid) (by simp)
  exact hsafe.wake (sameWaits_signalImpl hr.wakes)

/-- A reader gives up `k` of its read locks. The last one of all readers wakes a writer. -/
structure ReadRelease (t : T) (k : Nat) (choice : Option T) (s s' : State T C) : Prop where
  tid : s'.lock.tid = s.lock.tid
  preferWriters : s'.lock.preferWriters = s.lock.preferWriters
  counter : ∀ k, s'.lock.counter k = s.lock.counter k
  numReaders : s'.lock.numReaders = s.lock.numReaders - k
  wakes : if s'.lock.numReaders = 0 then
      signalIf s.lock.waiting .write choice s.threads = some s'.threads
    else s'.threads = s.threads

theorem ReadRelease.sameWaits {k : Nat} (h : ReadRelease t k choice s s') :
    SameWaits s.threads s'.threads := by
  have hw := h.wakes
  split at hw
  · exact sameWaits_signalIf hw
  · rw [hw]
    exact SameWaits.refl _

/-- The invariant after `k` of the `n` read locks of a thread are gone. -/
theorem Safe.readRelease (h : Safe s) {k : Nat} (ht : s.lock.tmap t = some n) (hk : k ≤ n)
    (hr : ReadRelease t k choice s s') (htmap : s'.lock.tmap =
      Function.update s.lock.tmap t (if n - k = 0 then none else some (n - k)))
    (hvmap : ∀ u, (s'.lock.vmap u).isSome =
      if u = t then decide (n - k ≠ 0) else (s.lock.vmap u).isSome)
    (hres : ∀ u, s'.resources u = true → s.resources u = true ∧ (u = t → n - k ≠ 0)) :
    Safe s' := by
  have hbook : Book s'.lock :=
    (h.book.drop ht hk rfl hvmap).congr ⟨hr.tid, htmap, rfl, hr.numReaders, hr.preferWriters⟩
  have hother : ∀ u, u ≠ t → (Holds s'.lock u ↔ Holds s.lock u) := by
    intro u hut
    rw [Holds, Holds, hr.tid, htmap, Function.update_of_ne hut]
  have hsafe : Safe ⟨s'.lock, s.threads, s'.resources⟩ := by
    refine h.relock hbook hr.counter (fun u hu => Or.inl ?_) (fun u hu => ?_)
    · by_cases hut : u = t
      · rw [hut]
        exact Or.inr (by rw [ht]; rfl)
      · exact (hother u hut).mp hu
    · obtain ⟨hu', hleft⟩ := hres u hu
      by_cases hut : u = t
      · refine Or.inl (Or.inr ?_)
        rw [htmap, hut, Function.update_self, if_neg (hleft hut)]
        rfl
      · rw [hother u hut, hr.tid]
        exact h.resources u hu'
  exact hsafe.wake hr.sameWaits

theorem releaseReadLockIntern_eq (h : releaseReadLockIntern t n choice s = some s') :
    ∃ thr, (if s.lock.numReaders - 1 = 0 then signalIf s.lock.waiting .write choice s.threads
        else some s.threads) = some thr ∧
      s' = ⟨{ s.lock with
          numReaders := s.lock.numReaders - 1
          tmap := Function.update s.lock.tmap t (if n - 1 = 0 then none else some (n - 1))
          vmap := if n - 1 = 0 then Function.update s.lock.vmap t none else s.lock.vmap },
        thr, if n - 1 = 0 then Function.update s.resources t false else s.resources⟩ := by
  unfold releaseReadLockIntern cleanupReadLockIntern at h
  dsimp only at h
  split at h
  · cases h
  · rename_i thr hthr
    cases h
    refine ⟨thr, hthr, ?_⟩
    by_cases hn : n - 1 = 0
    · simp [hn]
    · simp [hn]

theorem releaseReadLockIntern_spec (h : Safe s) (ht : s.lock.tmap t = some n)
    (hrel : releaseReadLockIntern t n choice s = some s') :
    Safe s' ∧ ReadRelease t 1 choice s s' ∧
      s'.lock.tmap t = if n - 1 = 0 then none else some (n - 1) := by
  have hpos := h.book.pos t n ht
  have hkeys := h.book.keys t
  rw [ht] at hkeys
  obtain ⟨thr, hthr, rfl⟩ := releaseReadLockIntern_eq hrel
  have hr : ReadRelease t 1 choice s
      ⟨{ s.lock with
          numReaders := s.lock.numReaders - 1
          tmap := Function.update s.lock.tmap t (if n - 1 = 0 then none else some (n - 1))
          vmap := if n - 1 = 0 then Function.update s.lock.vmap t none else s.lock.vmap },
        thr, if n - 1 = 0 then Function.update s.resources t false else s.resources⟩ := by
    refine ⟨rfl, rfl, fun k => by cases k <;> rfl, rfl, ?_⟩
    by_cases hz : s.lock.numReaders - 1 = 0
    · rw [if_pos hz] at hthr ⊢
      exact hthr
    · rw [if_neg hz] at hthr ⊢
      exact (Option.some.inj hthr).symm
  refine ⟨h.readRelease ht hpos hr rfl (fun u => ?_) (fun u hu => ?_), hr, Function.update_self _ _ _⟩
  · dsimp only
    by_cases hn : n - 1 = 0
    · by_cases hut : u = t <;> simp [hn, hut]
    · by_cases hut : u = t
      · simp [hn, hut, ← hkeys]
      · simp [hn, hut]
  · dsimp only at hu
    by_cases hn : n - 1 = 0
    · rw [if_pos hn] at hu
      by_cases hut : u = t
      · rw [hut, Function.update_self] at hu
        cases hu
      · rw [Function.update_of_ne hut] at hu
        exact ⟨hu, fun he => absurd he hut⟩
    · rw [if_neg hn] at hu
      exact ⟨hu, fun _ => hn⟩

/-- The loop of `externWaitImpl` gives up all read locks of the thread. -/
theorem releaseReadLocks_spec : ∀ (n : Nat) (s s' : State T C),
    Safe s → s.lock.tmap t = some n → releaseReadLocks t choice n s = some s' →
    Safe s' ∧ ReadRelease t n choice s s' ∧ s'.lock.tmap t = none := by
  intro n
  induction n with
  | zero =>
    intro s s' h ht _
    exact absurd (h.book.pos t 0 ht) (by omega)
  | succ n ih =>
    intro s s' h ht hrel
    have hle := le_total s.lock.tmap t
    have hsum := h.book.sum
    rw [ht, Option.getD_some] at hle
    rw [releaseReadLocks] at hrel
    split at hrel
    · cases hrel
    · rename_i s1 h1
      obtain ⟨hsafe, hr, htmap⟩ := releaseReadLockIntern_spec h ht h1
      cases n with
      | zero =>
        rw [releaseReadLocks, Option.some.injEq] at hrel
        rw [← hrel]
        exact ⟨hsafe, hr, htmap⟩
      | succ m =>
        -- There is a read lock left, so this round wakes nobody.
        have hnum := hr.numReaders
        have hw := hr.wakes
        rw [if_neg (by omega)] at hw
        obtain ⟨hsafe', hr', hnone⟩ := ih s1 s' hsafe htmap hrel
        have hnum' := hr'.numReaders
        have hw' := hr'.wakes
        rw [hw, show s1.lock.waiting = s.lock.waiting from hr.counter .write] at hw'
        exact ⟨hsafe', ⟨hr'.tid.trans hr.tid, hr'.preferWriters.trans hr.preferWriters,
          fun k => (hr'.counter k).trans (hr.counter k), by omega, hw'⟩, hnone⟩

end

end

end Qore.SmartLock
