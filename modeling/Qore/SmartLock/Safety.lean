import Mathlib
import Qore.SmartLock.Holders

/-!
# `Qore.SmartLock.Safety`: who holds the lock

Every critical section keeps the invariant `Safe`, and a call that returns 0 holds the lock.

* `lockCall_spec` and `regrab_spec` are about the lock calls and the way back from a condition
  wait, and `resume_spec` about the thread that leaves a wait.
* `Safe.step` is the invariant for every critical section.
* `run_safe` is the result for every run.
-/

set_option autoImplicit false

namespace Qore.SmartLock

open Qore.Lib
open Qore.Lib.Monitor hiding Wait

variable {T C : Type} {lab : Label T} {lock : RWLock T C}

/-- The thread holds the lock of the kind. -/
def HoldsKind (lock : RWLock T C) (t : T) : Kind → Prop
  | .read => (lock.tmap t).isSome
  | .write => lock.tid = .owner t

/-- A lock call that returns 0 has the lock, and a condition wait that returns has the lock back
as often as before. -/
def Granted (lab : Label T) (lock : RWLock T C) : Prop :=
  (lab.result = some .ok →
    (lab.op = .readLock ∨ lab.op = .tryReadLock → HoldsKind lock lab.thread .read) ∧
      (lab.op = .writeLock ∨ lab.op = .tryWriteLock → HoldsKind lock lab.thread .write)) ∧
  (∀ n b, lab.result = some (.reacquired .read n b) → lock.tmap lab.thread = some n) ∧
  ∀ n b, lab.result = some (.reacquired .write n b) → lock.tid = .owner lab.thread

/-- A call that returns neither 0 nor from a condition wait grants nothing. -/
theorem granted_of_result (hok : lab.result ≠ some .ok)
    (hback : ∀ k n b, lab.result ≠ some (.reacquired k n b)) : Granted lab lock :=
  ⟨fun h => absurd h hok, fun n b h => absurd h (hback _ n b), fun n b h => absurd h (hback _ n b)⟩

/-- An unlock call grants nothing. -/
theorem granted_of_op (hop : lab.op ≠ .readLock ∧ lab.op ≠ .tryReadLock ∧ lab.op ≠ .writeLock ∧
      lab.op ≠ .tryWriteLock) (hback : ∀ k n b, lab.result ≠ some (.reacquired k n b)) :
    Granted lab lock := by
  refine ⟨fun _ => ⟨fun h => ?_, fun h => ?_⟩, fun n b h => absurd h (hback _ n b),
    fun n b h => absurd h (hback _ n b)⟩
  · exact absurd h (by simp [hop.1, hop.2.1])
  · exact absurd h (by simp [hop.2.2.1, hop.2.2.2])

/-- A lock function that does not succeed ends the call. -/
theorem answer_wait {s s' : State T C} {t : T} {g : Grab T} (hg : g ≠ .ok)
    (h : answer t .wait (s, g) = (s', lab)) : s' = s ∧ ∀ lock : RWLock T C, Granted lab lock := by
  cases g with
  | ok => exact absurd rfl hg
  | block =>
    obtain ⟨rfl, rfl⟩ := Prod.mk.inj h
    exact ⟨rfl, fun _ => granted_of_result (by simp) (by simp)⟩
  | fail e =>
    obtain ⟨rfl, rfl⟩ := Prod.mk.inj h
    exact ⟨rfl, fun _ => granted_of_result (by simp) (by simp)⟩

theorem sameWaits_broadcastIf [DecidableEq C] (n : Nat) (c : Cond C)
    (thr : Threads T (Cond C) (Job C)) : SameWaits thr (broadcastIf n c thr) := by
  unfold broadcastIf
  split
  · exact sameWaits_broadcast _ _
  · exact SameWaits.refl _

/-- The broadcast on the condition variables of `Condition` objects. -/
theorem sameWaits_broadcastConds (cmap : C → Option Nat) (thr : Threads T (Cond C) (Job C)) :
    SameWaits thr (broadcastConds cmap thr) := by
  intro t
  rw [broadcastConds, Option.map_map]
  congr 1
  funext w
  dsimp only [Function.comp]
  split
  · split <;> rfl
  · rfl

/-- A lock without readers. -/
theorem Book.empty [Fintype T] (hnum : lock.numReaders = 0) (htmap : lock.tmap = fun _ => none)
    (hvmap : lock.vmap = fun _ => none) : Book lock := by
  refine ⟨?_, fun t => by rw [htmap, hvmap]; rfl, fun t n ht => ?_, fun _ _ => hnum, fun _ => hnum⟩
  · rw [hnum, htmap]
    show (0 : Int) = ↑(∑ _t : T, (none : Option Nat).getD 0)
    simp
  · rw [htmap] at ht
    cases ht

/-- The threads after the broadcasts of the destructor. -/
def destructorThreads [Fintype C] [DecidableEq C] (s : State T C) : Threads T (Cond C) (Job C) :=
  let thr := if ∃ c, (s.lock.cmap c).isSome then broadcastConds s.lock.cmap s.threads else s.threads
  let thr := if s.lock.numReaders ≠ 0 then broadcast .write thr else thr
  match s.lock.tid with
  | .owner _ => broadcastIf s.lock.readRequests .read (broadcastIf s.lock.waiting .write thr)
  | _ => thr

theorem sameWaits_destructorThreads [Fintype C] [DecidableEq C] (s : State T C) :
    SameWaits s.threads (destructorThreads s) := by
  unfold destructorThreads
  dsimp only
  have hconds : SameWaits s.threads (if ∃ c, (s.lock.cmap c).isSome then
      broadcastConds s.lock.cmap s.threads else s.threads) := by
    split
    · exact sameWaits_broadcastConds _ _
    · exact SameWaits.refl _
  refine hconds.trans ?_
  generalize (if ∃ c, (s.lock.cmap c).isSome then broadcastConds s.lock.cmap s.threads
    else s.threads) = thr
  have hwrite : SameWaits thr (if s.lock.numReaders ≠ 0 then broadcast .write thr else thr) := by
    split
    · exact sameWaits_broadcast _ _
    · exact SameWaits.refl _
  split
  · exact hwrite.trans ((sameWaits_broadcastIf _ _ _).trans (sameWaits_broadcastIf _ _ _))
  · exact hwrite

/-- What an expiry does. -/
theorem expire_spec [Fintype T] [Fintype C] [DecidableEq T] [DecidableEq C] {s s' : State T C}
    {t : T} (h : step s (.expire t) = some (s', lab)) :
    ∃ thr, expire t s.threads = some thr ∧ s' = { s with threads := thr } ∧
      ∀ lock : RWLock T C, Granted lab lock := by
  simp only [step] at h
  split at h
  · cases h
  · split at h
    · split at h
      · cases h
      · rename_i thr hthr
        cases h
        exact ⟨thr, hthr, rfl, fun _ => granted_of_result (by simp) (by simp)⟩
    · cases h

section
variable [Fintype T] [DecidableEq C] [DecidableEq T] {s s' : State T C} {kind : Kind} {t : T}
  {job : Job C} {waited : Bool} {deadlock : Option T} {lab : Label T} {timeoutMs : Int}
  {choice : Option T}

/-! ### The calls -/

theorem held_mark (h : Safe s) (t : T) : Held (markReadLockIntern t s).lock := by
  obtain ⟨vmap, resources, heq, -⟩ := markReadLockIntern_eq h.book.keys t
  have hsum := h.book.sum
  refine Or.inr ?_
  rw [heq]
  show s.lock.numReaders + 1 ≠ 0
  omega

/-- What a lock function leaves: a lock that is held, or nothing has changed because the lock is
deleted. -/
theorem acquire_held (h : Safe s) {g : Grab T} (hw : waited = true → s.lock.tmap t = none)
    (ha : acquire kind t job waited deadlock s = (s', g)) :
    Held s'.lock ∨ s' = s ∧ s.lock.tid = .deleted := by
  rcases acquire_cases hw ha with ⟨-, htid, ⟨-, rfl⟩ | ⟨-, hnum, rfl⟩⟩ | ⟨-, hheld, -, rfl⟩ |
    ⟨e, -, rfl, hwhy⟩
  · exact Or.inl (held_mark h t)
  · exact Or.inl (Or.inl ⟨t, rfl⟩)
  · exact Or.inl (hheld.mono (sameHold_enqueue _ _))
  · exact hwhy.imp_right fun hd => ⟨rfl, hd⟩

/-- A lock function that succeeds. -/
theorem acquire_ok (h : Safe s) (hw : waited = true → s.lock.tmap t = none)
    (ha : acquire kind t job waited deadlock s = (s', .ok)) :
    HoldsKind s'.lock t kind ∧ s'.threads = s.threads ∧
      (kind = .read → s'.lock.tid = .unlocked ∧
        s'.lock.tmap t = some ((s.lock.tmap t).getD 0 + 1)) := by
  rcases acquire_cases hw ha with ⟨-, htid, ⟨rfl, rfl⟩ | ⟨rfl, hnum, rfl⟩⟩ | ⟨hg, -⟩ | ⟨e, hg, -⟩
  · obtain ⟨vmap, resources, heq, -⟩ := markReadLockIntern_eq h.book.keys t
    rw [heq]
    refine ⟨?_, rfl, fun _ => ⟨htid, Function.update_self _ _ _⟩⟩
    show (Function.update s.lock.tmap t _ t).isSome = true
    rw [Function.update_self]
    rfl
  · exact ⟨rfl, rfl, fun hk => by cases hk⟩
  · cases hg
  · cases hg

/-- A lock call from its lock function on. -/
theorem lockCall_spec (h : Safe s) {op : Op} (ht : s.threads t = none)
    (hown : s.lock.tid ≠ .owner t) (hw : waited = true → s.lock.tmap t = none)
    (hfits : Fits kind.cond job)
    (hop : op = match kind with | .read => .readLock | .write => .writeLock)
    (hcall : answer t op (acquire kind t job waited deadlock s) = (s', lab)) :
    Safe s' ∧ Granted lab s'.lock ∧ (Held s'.lock ∨ s' = s ∧ s.lock.tid = .deleted) := by
  obtain ⟨s1, g, hacq⟩ : ∃ s1 g, acquire kind t job waited deadlock s = (s1, g) := ⟨_, _, rfl⟩
  have hsafe := h.acquire ht hown hw (fun _ => hfits) hacq
  have hheld := acquire_held h hw hacq
  rw [hacq] at hcall
  cases g with
  | ok =>
    obtain ⟨rfl, rfl⟩ := Prod.mk.inj hcall
    have hholds := (acquire_ok h hw hacq).1
    refine ⟨hsafe, ⟨fun _ => ⟨fun ho => ?_, fun ho => ?_⟩, fun n b hr => ?_, fun n b hr => ?_⟩, hheld⟩
    · cases kind with
      | read => exact hholds
      | write => rw [hop] at ho; simp at ho
    · cases kind with
      | read => rw [hop] at ho; simp at ho
      | write => exact hholds
    · cases hr
    · cases hr
  | block =>
    obtain ⟨rfl, rfl⟩ := Prod.mk.inj hcall
    exact ⟨hsafe, granted_of_result (by simp) (by simp), hheld⟩
  | fail e =>
    obtain ⟨rfl, rfl⟩ := Prod.mk.inj hcall
    exact ⟨hsafe, granted_of_result (by simp) (by simp), hheld⟩

/-- The way back to the write lock after a condition wait. -/
theorem regrabWriteLock_spec (h : Safe s) {timedOut : Bool} (ht : s.threads t = none)
    (hnot : ¬ Holds s.lock t) (hcall : regrabWriteLock t timedOut waited deadlock s = (s', lab)) :
    Safe s' ∧ Granted lab s'.lock ∧ (Held s'.lock ∨ s' = s ∧ s.lock.tid = .deleted) := by
  have hown : s.lock.tid ≠ .owner t := fun hown => hnot (Or.inl hown)
  have hnone : s.lock.tmap t = none := by
    rw [← Option.not_isSome_iff_eq_none]
    exact fun hsome => hnot (Or.inr hsome)
  obtain ⟨s1, g, hacq⟩ : ∃ s1 g,
      acquire .write t (.regrab .write 1 1 timedOut) waited deadlock s = (s1, g) := ⟨_, _, rfl⟩
  have hfits : Fits Kind.write.cond (.regrab .write 1 1 timedOut : Job C) := rfl
  have hsafe := h.acquire ht hown (fun _ => hnone) (fun _ => hfits) hacq
  have hheld := acquire_held h (fun _ => hnone) hacq
  unfold regrabWriteLock at hcall
  rw [hacq] at hcall
  cases g with
  | ok =>
    obtain ⟨rfl, rfl⟩ := Prod.mk.inj hcall
    have hholds := (acquire_ok h (fun _ => hnone) hacq).1
    exact ⟨hsafe, ⟨fun hr => by simp at hr, fun n b hr => by simp at hr, fun n b _ => hholds⟩, hheld⟩
  | block =>
    obtain ⟨rfl, hgrant⟩ := answer_wait (by simp) hcall
    exact ⟨hsafe, hgrant _, hheld⟩
  | fail e =>
    obtain ⟨rfl, hgrant⟩ := answer_wait (by simp) hcall
    exact ⟨hsafe, hgrant _, hheld⟩

/-- The way back to the read locks after a condition wait. Only the first round can wait, as the
thread holds the read lock from then on. -/
theorem regrabReadLocks_spec {count : Nat} {timedOut : Bool} (hcount : 0 < count) :
    ∀ (left : Nat) (waited : Bool) (s s' : State T C) (lab : Label T),
    Safe s → s.threads t = none → s.lock.tid ≠ .owner t →
    (waited = true → s.lock.tmap t = none) → (s.lock.tmap t).getD 0 + left = count →
    regrabReadLocks t count timedOut waited deadlock left s = (s', lab) →
    Safe s' ∧ Granted lab s'.lock ∧ (Held s'.lock ∨ s' = s ∧ s.lock.tid = .deleted) := by
  intro left
  induction left with
  | zero =>
    intro waited s s' lab h _ _ _ hleft hcall
    obtain ⟨rfl, rfl⟩ := Prod.mk.inj hcall
    have htmap : s.lock.tmap t = some count := by
      cases hn : s.lock.tmap t with
      | none =>
        rw [hn, Option.getD_none] at hleft
        omega
      | some n =>
        rw [hn, Option.getD_some] at hleft
        rw [show n = count by omega]
    have hle := le_total s.lock.tmap t
    have hsum := h.book.sum
    refine ⟨h, ⟨fun hr => by simp at hr, fun n b hr => ?_, fun n b hr => by simp at hr⟩,
      Or.inl (Or.inr (by omega))⟩
    simp only [Option.some.injEq, Outcome.reacquired.injEq, true_and] at hr
    rw [← hr.1]
    exact htmap
  | succ left ih =>
    intro waited s s' lab h ht hown hw hleft hcall
    obtain ⟨s1, g, hacq⟩ : ∃ s1 g, acquire .read t (.regrab .read count (left + 1) timedOut) waited
        deadlock s = (s1, g) := ⟨_, _, rfl⟩
    have hfits : ¬ Holds s.lock t →
        Fits Kind.read.cond (.regrab .read count (left + 1) timedOut : Job C) := by
      intro hnot
      have hnone : s.lock.tmap t = none := by
        rw [← Option.not_isSome_iff_eq_none]
        exact fun hsome => hnot (Or.inr hsome)
      rw [hnone, Option.getD_none] at hleft
      exact ⟨rfl, by omega, hcount⟩
    have hsafe := h.acquire ht hown hw hfits hacq
    have hheld := acquire_held h hw hacq
    rw [regrabReadLocks, hacq] at hcall
    cases g with
    | ok =>
      obtain ⟨-, hthreads, hread⟩ := acquire_ok h hw hacq
      obtain ⟨htid, htmap⟩ := hread rfl
      obtain ⟨hs, hg, hor⟩ := ih false s1 s' lab hsafe (by rw [hthreads]; exact ht)
        (by rw [htid]; simp) (by simp) (by rw [htmap, Option.getD_some]; omega) hcall
      refine ⟨hs, hg, Or.inl ?_⟩
      rcases hor with hor | ⟨-, hd⟩
      · exact hor
      · exact absurd (htid.symm.trans hd) (by simp)
    | block =>
      obtain ⟨rfl, hgrant⟩ := answer_wait (by simp) hcall
      exact ⟨hsafe, hgrant _, hheld⟩
    | fail e =>
      obtain ⟨rfl, hgrant⟩ := answer_wait (by simp) hcall
      exact ⟨hsafe, hgrant _, hheld⟩

/-- The rest of a call after its condition wait. -/
theorem resume_spec (h : Safe s) (hcall : resume t deadlock s = some (s', lab)) :
    ∃ w, s.threads t = some w ∧ w.wake ≠ .blocked ∧ Safe s' ∧ Granted lab s'.lock ∧
      (Held s'.lock ∨
        s' = leave t w.cond s ∧ (w.wake = .timedOut ∨ s.lock.tid = .deleted)) := by
  unfold resume at hcall
  split at hcall
  · cases hcall
  · rename_i w ht
    split at hcall
    · cases hcall
    · rename_i hwake
      have hsafe := h.leave ht
      obtain ⟨hsame, hthreads, -, -⟩ := leave_spec t w.cond s
      have hidle : (leave t w.cond s).threads t = none := by
        rw [hthreads, Function.update_self]
      have hnot : ¬ Holds (leave t w.cond s).lock t := by
        rw [hsame.holds]
        exact h.idle t (by rw [ht]; simp)
      have hown : (leave t w.cond s).lock.tid ≠ .owner t := fun hown => hnot (Or.inl hown)
      have hnone : (leave t w.cond s).lock.tmap t = none := by
        rw [← Option.not_isSome_iff_eq_none]
        exact fun hsome => hnot (Or.inr hsome)
      have hfits := h.jobs t w ht
      -- What the specifications of the calls say, for a thread that has left its wait.
      have hend : Safe s' ∧ Granted lab s'.lock ∧
            (Held s'.lock ∨ s' = leave t w.cond s ∧ (leave t w.cond s).lock.tid = .deleted) →
          ∃ w', some w = some w' ∧ w'.wake ≠ .blocked ∧ Safe s' ∧ Granted lab s'.lock ∧
            (Held s'.lock ∨
              s' = leave t w'.cond s ∧ (w'.wake = .timedOut ∨ s.lock.tid = .deleted)) := by
        rintro ⟨hs, hg, hor⟩
        refine ⟨w, rfl, hwake, hs, hg, hor.imp_right fun hd => ⟨hd.1, Or.inr ?_⟩⟩
        rw [← hsame.tid]
        exact hd.2
      dsimp only at hcall
      split at hcall
      · rename_i kind timeoutMs hjob
        rw [hjob] at hfits hcall
        split at hcall
        · rename_i htimed
          obtain ⟨rfl, rfl⟩ := hcall
          exact ⟨w, ht, hwake, hsafe, granted_of_result (by simp) (by simp),
            Or.inr ⟨rfl, Or.inl (by simpa using htimed)⟩⟩
        · rw [ht]
          refine hend (lockCall_spec hsafe hidle hown (fun _ => hnone) ?_ ?_ (Option.some.inj hcall))
          · cases kind <;> rfl
          · cases kind <;> rfl
      · rw [ht]
        exact hend (regrabWriteLock_spec hsafe hidle hnot (Option.some.inj hcall))
      · rename_i count c timeoutMs hjob
        rw [hjob] at hfits
        rw [ht]
        exact hend (regrabReadLocks_spec hfits.2 count false _ _ _ hsafe hidle hown (by simp)
          (by rw [hnone, Option.getD_none]; omega) (Option.some.inj hcall))
      · rw [ht]
        exact hend (regrabWriteLock_spec hsafe hidle hnot (Option.some.inj hcall))
      · rename_i count left rc hjob
        rw [hjob] at hfits
        obtain ⟨-, rfl, hpos⟩ := hfits
        rw [ht]
        exact hend (regrabReadLocks_spec hpos left true _ _ _ hsafe hidle hown (fun _ => hnone)
          (by rw [hnone, Option.getD_none]; omega) (Option.some.inj hcall))

theorem readLock_spec (h : Safe s) (ht : s.threads t = none)
    (hcall : readLock t timeoutMs deadlock s = (s', lab)) :
    Safe s' ∧ Granted lab s'.lock ∧ (Held s'.lock ∨ s' = s) := by
  unfold readLock at hcall
  split at hcall
  · cases hcall
    exact ⟨h, granted_of_result (by simp) (by simp), Or.inr rfl⟩
  · rename_i hown
    have hfits : Fits Kind.read.cond (.lock .read timeoutMs : Job C) := rfl
    obtain ⟨hsafe, hgranted, hor⟩ := lockCall_spec h ht hown (by simp) hfits rfl hcall
    exact ⟨hsafe, hgranted, hor.imp_right And.left⟩

theorem writeLock_spec (h : Safe s) (ht : s.threads t = none)
    (hcall : writeLock t timeoutMs deadlock s = (s', lab)) :
    Safe s' ∧ Granted lab s'.lock ∧ (Held s'.lock ∨ s' = s) := by
  unfold writeLock at hcall
  split at hcall
  · cases hcall
    exact ⟨h, granted_of_result (by simp) (by simp), Or.inr rfl⟩
  · rename_i hown
    have hfits : Fits Kind.write.cond (.lock .write timeoutMs : Job C) := rfl
    obtain ⟨hsafe, hgranted, hor⟩ := lockCall_spec h ht hown (by simp) hfits rfl hcall
    exact ⟨hsafe, hgranted, hor.imp_right And.left⟩

theorem tryReadLock_spec (h : Safe s) (ht : s.threads t = none)
    (hcall : tryReadLock t s = (s', lab)) :
    Safe s' ∧ Granted lab s'.lock ∧ (Held s'.lock ∨ s' = s) := by
  unfold tryReadLock at hcall
  split at hcall
  · cases hcall
    exact ⟨h, granted_of_result (by simp) (by simp), Or.inr rfl⟩
  · rename_i htid
    cases hcall
    refine ⟨h.mark ht (not_not.mp htid), ⟨fun _ => ⟨fun _ => ?_, by simp⟩, by simp, by simp⟩,
      Or.inl (held_mark h t)⟩
    obtain ⟨vmap, resources, heq, -⟩ := markReadLockIntern_eq h.book.keys t
    rw [heq]
    show (Function.update s.lock.tmap t _ t).isSome = true
    rw [Function.update_self]
    rfl

theorem tryWriteLock_spec (h : Safe s) (ht : s.threads t = none)
    (hcall : tryWriteLock t s = (s', lab)) :
    Safe s' ∧ Granted lab s'.lock ∧ (Held s'.lock ∨ s' = s) := by
  unfold tryWriteLock at hcall
  split at hcall
  · cases hcall
    exact ⟨h, granted_of_result (by simp) (by simp), Or.inr rfl⟩
  · rename_i hfree
    rw [not_or, not_not, not_not] at hfree
    cases hcall
    exact ⟨h.grabIntern ht hfree.1 hfree.2, ⟨fun _ => ⟨by simp, fun _ => rfl⟩, by simp, by simp⟩,
      Or.inl (Or.inl ⟨t, rfl⟩)⟩

theorem readUnlock_spec (h : Safe s) (hcall : readUnlock t choice s = some (s', lab)) :
    Safe s' ∧ Granted lab s'.lock ∧
      (s' = s ∨ ∃ n, s.lock.tmap t = some n ∧ ReadRelease t 1 choice s s') := by
  unfold readUnlock at hcall
  split at hcall
  · cases hcall
    exact ⟨h, granted_of_result (by simp) (by simp), Or.inl rfl⟩
  · split at hcall
    · cases hcall
      exact ⟨h, granted_of_result (by simp) (by simp), Or.inl rfl⟩
    · split at hcall
      · cases hcall
        exact ⟨h, granted_of_result (by simp) (by simp), Or.inl rfl⟩
      · rename_i n ht
        split at hcall
        · cases hcall
        · rename_i s1 hrel
          cases hcall
          obtain ⟨hsafe, hr, -⟩ := releaseReadLockIntern_spec h ht hrel
          exact ⟨hsafe, granted_of_op (by simp) (by simp), Or.inr ⟨n, ht, hr⟩⟩

theorem writeUnlock_spec (h : Safe s) (hcall : writeUnlock t choice s = some (s', lab)) :
    Safe s' ∧ Granted lab s'.lock ∧ (s' = s ∨ WriteRelease t choice s s') := by
  unfold writeUnlock at hcall
  split at hcall
  · cases hcall
    exact ⟨h, granted_of_result (by simp) (by simp), Or.inl rfl⟩
  · cases hcall
    exact ⟨h, granted_of_result (by simp) (by simp), Or.inl rfl⟩
  · rename_i u htid
    split at hcall
    · cases hcall
      exact ⟨h, granted_of_result (by simp) (by simp), Or.inl rfl⟩
    · rename_i hut
      rw [not_not.mp hut] at htid
      split at hcall
      · cases hcall
      · rename_i s1 hrel
        cases hcall
        have hr := releaseIntern_spec htid hrel
        exact ⟨h.writeRelease hr, granted_of_op (by simp) (by simp), Or.inr hr⟩

/-- The state in which `externWaitImpl` releases the lock. -/
def counted (c : C) (s : State T C) : State T C :=
  { s with lock := { s.lock with cmap := incCond c s.lock.cmap } }

theorem externWait_spec (h : Safe s) {c : C} (ht : s.threads t = none)
    (hcall : externWait t c timeoutMs choice s = some (s', lab)) :
    Safe s' ∧ Granted lab s'.lock ∧ (s' = s ∨ ∃ s1 job, s' = blockOn t (.user c) job s1 ∧
      (WriteRelease t choice (counted c s) s1 ∨
        ∃ n, s.lock.tmap t = some n ∧ ReadRelease t n choice (counted c s) s1)) := by
  have hcounted : Safe (counted c s) := h.setCmap _
  unfold externWait at hcall
  dsimp only at hcall
  split at hcall
  · rename_i htid
    split at hcall
    · cases hcall
    · rename_i s1 hrel
      cases hcall
      have hr : WriteRelease t choice (counted c s) s1 := releaseIntern_spec htid hrel
      have hnot : ¬ Holds s1.lock t := by
        rw [hr.lock]
        rintro (hold | hold)
        · cases hold
        · have hnone : s.lock.tmap t = none := h.book.tmap_none (h.book.owned t htid) t
          exact absurd hold (by simp [counted, hnone])
      have hidle := ((sameWaits_signalImpl hr.wakes).none_iff t).mpr ht
      exact ⟨(hcounted.writeRelease hr).block hidle hnot rfl,
        granted_of_result (by simp) (by simp), Or.inr ⟨s1, _, rfl, Or.inl hr⟩⟩
  · rename_i hown
    split at hcall
    · cases hcall
      exact ⟨h, granted_of_result (by simp) (by simp), Or.inl rfl⟩
    · split at hcall
      · cases hcall
        exact ⟨h, granted_of_result (by simp) (by simp), Or.inl rfl⟩
      · rename_i n hn
        split at hcall
        · cases hcall
        · rename_i s1 hrel
          cases hcall
          obtain ⟨hsafe, hr, hnone⟩ := releaseReadLocks_spec n _ _ hcounted hn hrel
          have hnot : ¬ Holds s1.lock t := by
            rintro (hold | hold)
            · exact hown (hr.tid.symm.trans hold)
            · rw [hnone] at hold
              cases hold
          have hidle := (hr.sameWaits.none_iff t).mpr ht
          exact ⟨hsafe.block hidle hnot ⟨rfl, h.book.pos t n hn⟩,
            granted_of_result (by simp) (by simp), Or.inr ⟨s1, _, rfl, Or.inr ⟨n, hn, hr⟩⟩⟩

/-- The cleanup of a thread that exits finds what the thread holds. -/
theorem cleanup_spec (h : Safe s) (hcall : cleanup t choice s = some (s', lab)) :
    Safe s' ∧ Granted lab s'.lock ∧
      (s' = { s with resources := Function.update s.resources t false } ∨
        WriteRelease t choice s s' ∨
        ∃ n, s.lock.tmap t = some n ∧ ReadRelease t n choice s s') := by
  unfold cleanup at hcall
  split at hcall
  · rename_i hres
    dsimp only at hcall
    split at hcall
    · split at hcall
      · rename_i v n hv hn
        split at hcall
        · cases hcall
        · rename_i thr hthr
          cases hcall
          have hr : ReadRelease t n choice s
              ⟨{ s.lock with
                  numReaders := s.lock.numReaders - n
                  vmap := Function.update s.lock.vmap t none
                  tmap := Function.update s.lock.tmap t none },
                thr, Function.update s.resources t false⟩ := by
            refine ⟨rfl, rfl, fun k => by cases k <;> rfl, rfl, ?_⟩
            by_cases hz : s.lock.numReaders - n = 0
            · rw [if_pos hz] at hthr ⊢
              exact hthr
            · rw [if_neg hz] at hthr ⊢
              exact (Option.some.inj hthr).symm
          refine ⟨h.readRelease hn (Nat.le_refl n) hr (by simp) (fun u => ?_) (fun u hu => ?_),
            granted_of_result (by simp) (by simp), Or.inr (Or.inr ⟨n, hn, hr⟩)⟩
          · by_cases hut : u = t <;> simp [hut]
          · by_cases hut : u = t
            · rw [hut] at hu
              simp at hu
            · simp only [Function.update_of_ne hut] at hu
              exact ⟨hu, fun he => absurd he hut⟩
      · cases hcall
    · rename_i hnum
      rw [not_not] at hnum
      split at hcall
      · rename_i u htid
        split at hcall
        · cases hcall
        · rename_i thr hthr
          cases hcall
          have hown : s.lock.tid = .owner t := by
            rcases h.resources t hres with (hold | hold) | hd
            · exact hold
            · rw [h.book.tmap_none hnum] at hold
              cases hold
            · exact absurd (hd.symm.trans htid) (by simp)
          have hr : WriteRelease t choice s
              ⟨{ s.lock with tid := .unlocked, vl := none }, thr,
                Function.update s.resources t false⟩ := ⟨hown, rfl, hthr, rfl⟩
          exact ⟨h.writeRelease hr, granted_of_result (by simp) (by simp), Or.inr (Or.inl hr)⟩
      · cases hcall
        refine ⟨h.relock h.book (fun _ => rfl) (fun _ hu => Or.inl hu) (fun u hu => ?_),
          granted_of_op (by simp) (by simp), Or.inl rfl⟩
        by_cases hut : u = t
        · rw [hut, Function.update_self] at hu
          cases hu
        · rw [Function.update_of_ne hut] at hu
          exact h.resources u hu
  · cases hcall

variable [Fintype C]

/-- The destructor leaves a deleted lock that nobody holds. -/
theorem destructor_spec (h : Safe s) (hcall : destructor t s = (s', lab)) :
    Safe s' ∧ Granted lab s'.lock ∧ s'.lock.tid = .deleted ∧ s'.threads = destructorThreads s := by
  have hlock : s'.lock = { s.lock with
      numReaders := 0, vmap := fun _ => none, tmap := fun _ => none, tid := .deleted } := by
    unfold destructor at hcall
    dsimp only at hcall
    split at hcall <;> · rw [← (Prod.mk.inj hcall).1]
  have hthreads : s'.threads = destructorThreads s := by
    unfold destructor at hcall
    unfold destructorThreads
    dsimp only at hcall ⊢
    split at hcall
    · rename_i u htid
      rw [← (Prod.mk.inj hcall).1]
      simp only [decide_eq_true_eq, htid]
    · rw [← (Prod.mk.inj hcall).1]
      simp only [decide_eq_true_eq]
  have hgranted : Granted lab s'.lock := by
    unfold destructor at hcall
    dsimp only at hcall
    split at hcall
    · rw [← (Prod.mk.inj hcall).2]
      exact granted_of_result (by simp) (by simp)
    · rw [← (Prod.mk.inj hcall).2]
      refine granted_of_op (by simp) fun k n b => ?_
      split
      · simp
      · simp
  have hsafe : Safe ⟨s'.lock, s.threads, s'.resources⟩ := by
    refine h.relock (Book.empty (by rw [hlock]) (by rw [hlock]) (by rw [hlock]))
      (fun k => by rw [hlock]; cases k <;> rfl) (fun u hu => ?_) (fun u _ => Or.inr (by rw [hlock]))
    rw [hlock] at hu
    rcases hu with hu | hu
    · cases hu
    · cases hu
  have hwake := hsafe.wake (sameWaits_destructorThreads s)
  rw [← hthreads] at hwake
  exact ⟨hwake, hgranted, by rw [hlock], hthreads⟩

/-! ### Every run -/

/-- A call is made by a thread that is not in a wait. -/
theorem step_call {a : Action T C} (hstep : step s a = some (s', lab))
    (hres : ∀ t d, a ≠ .resume t d) (hexp : ∀ t, a ≠ .expire t) : s.threads a.thread = none := by
  have hnone : ¬ (s.threads a.thread).isSome = true := by
    intro hsome
    cases a with
    | resume t d => exact hres t d rfl
    | expire t => exact hexp t rfl
    | _ => simp [step, hsome] at hstep
  simpa using hnone

/-- Every critical section keeps the invariant, and what it grants is held. -/
theorem Safe.step (h : Safe s) {a : Action T C} (hstep : step s a = some (s', lab)) :
    Safe s' ∧ Granted lab s'.lock := by
  by_cases hres : ∃ t d, a = .resume t d
  · obtain ⟨t, d, rfl⟩ := hres
    obtain ⟨w, -, -, hsafe, hgranted, -⟩ := resume_spec h hstep
    exact ⟨hsafe, hgranted⟩
  by_cases hexp : ∃ t, a = .expire t
  · obtain ⟨t, rfl⟩ := hexp
    obtain ⟨thr, hthr, rfl, hlab⟩ := expire_spec hstep
    exact ⟨h.wake (sameWaits_expire hthr), hlab _⟩
  have ht := step_call hstep (fun t d ha => hres ⟨t, d, ha⟩) fun t ha => hexp ⟨t, ha⟩
  have hsome : ¬ (s.threads a.thread).isSome = true := by rw [ht]; simp
  cases a with
  | resume t d => exact absurd ⟨t, d, rfl⟩ hres
  | expire t => exact absurd ⟨t, rfl⟩ hexp
  | readLock t timeoutMs deadlock =>
    rw [SmartLock.step, if_neg hsome] at hstep
    obtain ⟨hsafe, hgranted, -⟩ := readLock_spec h ht (Option.some.inj hstep)
    exact ⟨hsafe, hgranted⟩
  | writeLock t timeoutMs deadlock =>
    rw [SmartLock.step, if_neg hsome] at hstep
    obtain ⟨hsafe, hgranted, -⟩ := writeLock_spec h ht (Option.some.inj hstep)
    exact ⟨hsafe, hgranted⟩
  | tryReadLock t =>
    rw [SmartLock.step, if_neg hsome] at hstep
    obtain ⟨hsafe, hgranted, -⟩ := tryReadLock_spec h ht (Option.some.inj hstep)
    exact ⟨hsafe, hgranted⟩
  | tryWriteLock t =>
    rw [SmartLock.step, if_neg hsome] at hstep
    obtain ⟨hsafe, hgranted, -⟩ := tryWriteLock_spec h ht (Option.some.inj hstep)
    exact ⟨hsafe, hgranted⟩
  | readUnlock t choice =>
    rw [SmartLock.step, if_neg hsome] at hstep
    obtain ⟨hsafe, hgranted, -⟩ := readUnlock_spec h hstep
    exact ⟨hsafe, hgranted⟩
  | writeUnlock t choice =>
    rw [SmartLock.step, if_neg hsome] at hstep
    obtain ⟨hsafe, hgranted, -⟩ := writeUnlock_spec h hstep
    exact ⟨hsafe, hgranted⟩
  | wait t c timeoutMs choice =>
    rw [SmartLock.step, if_neg hsome] at hstep
    obtain ⟨hsafe, hgranted, -⟩ := externWait_spec h ht hstep
    exact ⟨hsafe, hgranted⟩
  | signal t c choice =>
    rw [SmartLock.step, if_neg hsome] at hstep
    split at hstep
    · cases hstep
    · rename_i thr hthr
      cases hstep
      exact ⟨h.wake (sameWaits_signal hthr), granted_of_op (by simp) (by simp)⟩
  | broadcast t c =>
    rw [SmartLock.step, if_neg hsome] at hstep
    cases hstep
    exact ⟨h.wake (sameWaits_broadcast _ _), granted_of_op (by simp) (by simp)⟩
  | cleanup t choice =>
    rw [SmartLock.step, if_neg hsome] at hstep
    obtain ⟨hsafe, hgranted, -⟩ := cleanup_spec h hstep
    exact ⟨hsafe, hgranted⟩
  | destructor t =>
    rw [SmartLock.step, if_neg hsome] at hstep
    obtain ⟨hsafe, hgranted, -⟩ := destructor_spec h (Option.some.inj hstep)
    exact ⟨hsafe, hgranted⟩

/-- In every reachable state the books of the lock are right, and every call that returns 0, and
every condition wait that returns, leaves its thread with the lock. -/
theorem run_safe (preferWriters : Bool) (as : List (Action T C)) (s : State T C)
    (labs : List (Label T))
    (h : Lts.run SmartLock.step (State.init T C preferWriters) as = some (s, labs)) :
    Book s.lock ∧
      ∀ a s' lab, SmartLock.step s a = some (s', lab) → Granted lab s'.lock := by
  have hsafe : Safe s := Lts.run_invariant (fun s a s' lab hs hstep => (Safe.step hs hstep).1) as _
    s labs (Safe.init preferWriters) h
  exact ⟨hsafe.book, fun a s' lab hstep => (hsafe.step hstep).2⟩

end

attribute [local instance] Lts.neZero_one Lts.neZero_two in
/-- A reader with two read locks waits on a condition, a writer gets the lock and wakes the
reader, and the reader has both read locks back when the writer is gone. -/
def recursiveWait : List (Action (Fin 2) (Fin 1)) :=
  [.readLock 0 0 none, .tryReadLock 0, .wait 0 0 0 none, .writeLock 1 0 none, .broadcast 1 0,
    .resume 0 none, .writeUnlock 1 none]

theorem run_recursiveWait :
    ∃ s labs, Lts.run step (State.init (Fin 2) (Fin 1) false) recursiveWait = some (s, labs) ∧
      Book s.lock ∧ (step s (.resume 0 none)).map (fun r => r.1.lock.tmap 0) = some (some 2) ∧
      ∀ a s' lab, step s a = some (s', lab) → Granted lab s'.lock := by
  have hrun : (Lts.run step (State.init (Fin 2) (Fin 1) false) recursiveWait).map
      (fun r => (step r.1 (.resume 0 none)).map fun r => r.1.lock.tmap 0) =
        some (some (some 2)) := by
    decide
  obtain ⟨r, hr, hback⟩ := Option.map_eq_some_iff.mp hrun
  obtain ⟨hbook, hgranted⟩ := run_safe false recursiveWait r.1 r.2 hr
  exact ⟨r.1, r.2, hr, hbook, hback, hgranted⟩

/-- A try that did not get the lock. -/
def Outcome.isUnavailable {T : Type} : Outcome T → Bool
  | .unavailable => true
  | _ => false

/-- A call that returns without an exception does not always hold the lock: `tryReadLock`
returns -1 while another thread has the write lock. -/
theorem tryReadLock_unavailable :
    ¬ ∀ (as : List (Action (Fin 2) (Fin 1))) (s : State (Fin 2) (Fin 1)) (labs : List (Label (Fin 2)))
        (a : Action (Fin 2) (Fin 1)) (s' : State (Fin 2) (Fin 1)) (lab : Label (Fin 2)),
      Lts.run step (State.init (Fin 2) (Fin 1) false) as = some (s, labs) →
      step s a = some (s', lab) → lab.op = .tryReadLock →
      (∃ out, lab.result = some out ∧ ∀ es, out ≠ .raised es) →
      HoldsKind s'.lock lab.thread .read := by
  intro hall
  have hrun : (Lts.run step (State.init (Fin 2) (Fin 1) false) [.writeLock 0 0 none]).map
      (fun r => (step r.1 (.tryReadLock 1)).map fun r =>
        (decide (r.2.op = .tryReadLock), r.2.thread, (r.1.lock.tmap 1).isSome,
          r.2.result.map Outcome.isUnavailable)) = some (some (true, 1, false, some true)) := by
    decide
  obtain ⟨r, hr, hcall⟩ := Option.map_eq_some_iff.mp hrun
  obtain ⟨r', hr', hout⟩ := Option.map_eq_some_iff.mp hcall
  simp only [Prod.mk.injEq, decide_eq_true_eq] at hout
  obtain ⟨hop, hthread, hnone, hresult⟩ := hout
  have hout : r'.2.result = some .unavailable := by
    obtain ⟨out, hout, hunavailable⟩ := Option.map_eq_some_iff.mp hresult
    cases out with
    | unavailable => exact hout
    | _ => cases hunavailable
  have hbad := hall [.writeLock 0 0 none] r.1 r.2 (.tryReadLock 1) r'.1 r'.2 hr hr' hop
    ⟨.unavailable, hout, by simp⟩
  rw [hthread, HoldsKind, hnone] at hbad
  cases hbad

end Qore.SmartLock
