import Mathlib.Data.Fintype.Card
import Mathlib.Data.Finset.Card
import Mathlib.Logic.Function.Basic

/-!
# `Qore.Lib.Monitor`: threads that wait on condition variables

A thread that waits on a condition variable is blocked until it is signalled or its time
expires. It then has left the wait but has to take the lock again before it runs. `Wait` is
what the scheduler knows of such a thread: the condition, what the thread does when it runs,
and how its wait ended. `Threads` gives it for each thread.

* `signal` wakes one blocked thread of a condition, of the scheduler's choice. When no thread
  is blocked on it, nothing happens.
* `broadcast` wakes all of them, and `expire` ends a wait by a timeout.
* `waiting` and `tally` count the threads of a condition. The lemmas say how the operations
  change the counts.
* `SameWaits` says that only the ends of the waits have changed, which is true of all three
  operations. It keeps the number of waiting threads, and every property of what they do
  (`Jobs`).
* `SameElsewhere` allows one thread to start or end a wait.
-/

set_option autoImplicit false

namespace Qore.Lib.Monitor

/-- How the wait of a thread has ended. -/
inductive Wake
  | blocked
  | signalled
  | timedOut
  deriving DecidableEq

/-- A thread inside a condition wait. -/
structure Wait (K J : Type) where
  cond : K
  job : J
  wake : Wake

/-- For each thread its wait, if it is inside one. -/
abbrev Threads (T K J : Type) := T → Option (Wait K J)

section
variable {K J : Type} [DecidableEq K]

/-- The thread waits on the condition `c`, woken or not. -/
def isOn (c : K) : Option (Wait K J) → Bool
  | none => false
  | some w => decide (w.cond = c)

/-- The thread waits on the condition `c`, and its wait is in the state `k`. -/
def isIn (c : K) (k : Wake) : Option (Wait K J) → Bool
  | none => false
  | some w => decide (w.cond = c ∧ w.wake = k)

end

/-! ### Counting threads -/

section
variable {T α : Type} [Fintype T] {p : α → Bool}

/-- The number of threads with a property. -/
def count (p : α → Bool) (f : T → α) : Nat := (Finset.univ.filter fun t => p (f t) = true).card

theorem count_eq_zero_iff {f : T → α} : count p f = 0 ↔ ∀ t, p (f t) = false := by
  rw [count, Finset.card_eq_zero, Finset.filter_eq_empty_iff]
  constructor
  · exact fun h t => by simpa using h (Finset.mem_univ t)
  · exact fun h t _ => by simp [h t]

theorem count_congr {q : α → Bool} {f g : T → α} (h : ∀ t, p (f t) = q (g t)) :
    count p f = count q g := by
  exact congrArg Finset.card (Finset.filter_congr fun t _ => by rw [h t])

/-- Two properties that exclude each other. -/
theorem count_or {q r : α → Bool} (hr : ∀ x, r x = (p x || q x))
    (hpq : ∀ x, p x = true → q x = false) (f : T → α) : count r f = count p f + count q f := by
  have hdis : Disjoint (Finset.univ.filter fun t => p (f t) = true)
      (Finset.univ.filter fun t => q (f t) = true) := by
    rw [Finset.disjoint_filter]
    intro t _ hp hq
    rw [hpq _ hp] at hq
    exact absurd hq (by simp)
  classical
  rw [count, count, count, ← Finset.card_union_of_disjoint hdis, ← Finset.filter_or]
  exact congrArg Finset.card (Finset.filter_congr fun t _ => by simp [hr])

variable [DecidableEq T]

/-- One thread changes: it is counted for its new state instead of its old one. -/
theorem count_update (p : α → Bool) (f : T → α) (t : T) (v : α) :
    count p (Function.update f t v) + (p (f t)).toNat = count p f + (p v).toNat := by
  have hset : ∀ (g : T → α), count p g =
      (Finset.univ.filter fun x => x ≠ t ∧ p (g x) = true).card + (p (g t)).toNat := by
    intro g
    have hsplit : (Finset.univ.filter fun x => p (g x) = true) =
        (Finset.univ.filter fun x => x ≠ t ∧ p (g x) = true) ∪
          (if p (g t) = true then {t} else ∅) := by
      ext x
      by_cases hx : x = t
      · cases hp : p (g t) <;> simp [hx, hp]
      · cases hp : p (g t) <;> simp [hx]
    have hdis : Disjoint (Finset.univ.filter fun x => x ≠ t ∧ p (g x) = true)
        (if p (g t) = true then {t} else ∅) := by
      split <;> simp
    rw [count, hsplit, Finset.card_union_of_disjoint hdis]
    cases p (g t) <;> simp
  have hrest : (Finset.univ.filter fun x => x ≠ t ∧ p (Function.update f t v x) = true) =
      Finset.univ.filter fun x => x ≠ t ∧ p (f x) = true := by
    refine Finset.filter_congr fun x _ => and_congr_right fun hx => ?_
    rw [Function.update_of_ne hx]
  rw [hset (Function.update f t v), hset f, hrest, Function.update_self]
  omega

end

/-! ### The operations -/

section
variable {T K J : Type} [DecidableEq T]

/-- The time of a blocked thread expires. -/
def expire (t : T) (thr : Threads T K J) : Option (Threads T K J) :=
  match thr t with
  | none => none
  | some w =>
    if w.wake = .blocked then some (Function.update thr t (some { w with wake := .timedOut }))
    else none

/-- What an expiry does. -/
theorem expire_cases {t : T} {thr thr' : Threads T K J} (h : expire t thr = some thr') :
    ∃ c j, thr t = some ⟨c, j, .blocked⟩ ∧
      thr' = Function.update thr t (some ⟨c, j, .timedOut⟩) := by
  unfold expire at h
  cases ht : thr t with
  | none => simp [ht] at h
  | some w =>
    obtain ⟨c, j, k⟩ := w
    simp only [ht] at h
    split at h
    · rename_i hw
      subst hw
      exact ⟨c, j, rfl, (Option.some.inj h).symm⟩
    · cases h

end

section
variable {T K J : Type} [DecidableEq K] {c : K}

/-- All threads that are blocked on `c` are signalled. -/
def broadcast (c : K) (thr : Threads T K J) : Threads T K J := fun t =>
  (thr t).map fun w => if w.cond = c ∧ w.wake = .blocked then { w with wake := .signalled } else w

/-- After a broadcast no thread is blocked on the condition. -/
theorem isIn_broadcast_blocked (c : K) (thr : Threads T K J) (t : T) :
    isIn c .blocked (broadcast c thr t) = false := by
  rw [broadcast]
  cases thr t with
  | none => rfl
  | some w =>
    simp only [Option.map_some, isIn, decide_eq_false_iff_not]
    split
    · simp
    · assumption

/-- A broadcast does not touch the threads of another condition. -/
theorem isIn_broadcast_ne {c' : K} (hc : c' ≠ c) (k : Wake) (thr : Threads T K J) (t : T) :
    isIn c' k (broadcast c thr t) = isIn c' k (thr t) := by
  rw [broadcast]
  cases thr t with
  | none => rfl
  | some w =>
    simp only [Option.map_some, isIn]
    split
    · rename_i hw
      simp [hw.1, Ne.symm hc]
    · rfl

variable [Fintype T]

/-- The number of threads that wait on `c`, woken or not. -/
def waiting (c : K) (thr : Threads T K J) : Nat := count (isOn c) thr

/-- The number of threads that wait on `c` with their wait in the state `k`. -/
def tally (c : K) (k : Wake) (thr : Threads T K J) : Nat := count (isIn c k) thr

/-- Every waiting thread is blocked, signalled or timed out. -/
theorem waiting_eq (c : K) (thr : Threads T K J) :
    waiting c thr = tally c .blocked thr + (tally c .signalled thr + tally c .timedOut thr) := by
  have h1 := count_or (p := isIn c .signalled) (q := isIn c .timedOut)
    (r := fun x => isIn c .signalled x || isIn c .timedOut x) (fun _ => rfl)
    (fun x hx => by
      cases x with
      | none => rfl
      | some w =>
        simp only [isIn, decide_eq_true_eq] at hx
        simp [isIn, hx.2]) thr
  rw [tally, tally, tally, ← h1, waiting]
  refine count_or (fun x => ?_) (fun x hx => ?_) thr
  · cases x with
    | none => rfl
    | some w =>
      obtain ⟨c', j, k⟩ := w
      cases k <;> simp [isOn, isIn]
  · cases x with
    | none => rfl
    | some w =>
      simp only [isIn, decide_eq_true_eq] at hx
      simp [isIn, hx.2]

theorem tally_broadcast_blocked (c : K) (thr : Threads T K J) :
    tally c .blocked (broadcast c thr) = 0 :=
  count_eq_zero_iff.mpr fun t => isIn_broadcast_blocked c thr t

/-- A broadcast turns the blocked threads into signalled ones. -/
theorem tally_broadcast_signalled (c : K) (thr : Threads T K J) :
    tally c .signalled (broadcast c thr) = tally c .blocked thr + tally c .signalled thr := by
  have hor := count_or (p := isIn c .blocked) (q := isIn c .signalled)
    (r := fun x => isIn c .blocked x || isIn c .signalled x) (fun _ => rfl)
    (fun x hx => by
      cases x with
      | none => rfl
      | some w =>
        simp only [isIn, decide_eq_true_eq] at hx
        simp [isIn, hx.2]) thr
  rw [tally, tally, tally, ← hor]
  refine count_congr fun t => ?_
  rw [broadcast]
  cases thr t with
  | none => rfl
  | some w =>
    obtain ⟨c', j, k⟩ := w
    by_cases hc : c' = c
    · cases k <;> simp [isIn, hc]
    · simp [isIn, hc]

theorem tally_broadcast_ne {c' : K} (hc : c' ≠ c) (k : Wake) (thr : Threads T K J) :
    tally c' k (broadcast c thr) = tally c' k thr :=
  count_congr fun t => isIn_broadcast_ne hc k thr t

variable [DecidableEq T] {choice : Option T} {thr thr' : Threads T K J}

/-- Wake one thread that is blocked on `c`. The choice is the scheduler's: it has to name a
blocked thread when there is one. -/
def signal (c : K) (choice : Option T) (thr : Threads T K J) : Option (Threads T K J) :=
  match choice with
  | none => if tally c .blocked thr = 0 then some thr else none
  | some t =>
    match thr t with
    | none => none
    | some w =>
      if w.cond = c ∧ w.wake = .blocked then
        some (Function.update thr t (some { w with wake := .signalled }))
      else none

/-- What a signal can do: nothing when no thread is blocked, or wake one blocked thread. -/
theorem signal_cases (h : signal c choice thr = some thr') :
    (tally c .blocked thr = 0 ∧ thr' = thr) ∨
      ∃ t j, thr t = some ⟨c, j, .blocked⟩ ∧
        thr' = Function.update thr t (some ⟨c, j, .signalled⟩) := by
  unfold signal at h
  cases choice with
  | none =>
    dsimp only at h
    split at h
    · exact Or.inl ⟨‹_›, (Option.some.inj h).symm⟩
    · cases h
  | some t =>
    cases ht : thr t with
    | none => simp [ht] at h
    | some w =>
      obtain ⟨c', j, k⟩ := w
      simp only [ht] at h
      split at h
      · rename_i hw
        obtain ⟨rfl, rfl⟩ := hw
        exact Or.inr ⟨t, j, ht, (Option.some.inj h).symm⟩
      · cases h

/-- The counts after one thread has changed. -/
theorem waiting_update (c : K) (thr : Threads T K J) (t : T) (x : Option (Wait K J)) :
    waiting c (Function.update thr t x) + (isOn c (thr t)).toNat =
      waiting c thr + (isOn c x).toNat :=
  count_update (isOn c) thr t x

theorem tally_update (c : K) (k : Wake) (thr : Threads T K J) (t : T) (x : Option (Wait K J)) :
    tally c k (Function.update thr t x) + (isIn c k (thr t)).toNat =
      tally c k thr + (isIn c k x).toNat :=
  count_update (isIn c k) thr t x

/-- A signal changes the counts of its own condition only. -/
theorem tally_signal_ne {c' : K} (h : signal c choice thr = some thr') (hc : c' ≠ c) (k : Wake) :
    tally c' k thr' = tally c' k thr := by
  rcases signal_cases h with ⟨-, rfl⟩ | ⟨t, j, ht, rfl⟩
  · rfl
  · have hup := tally_update c' k thr t (some ⟨c, j, .signalled⟩)
    rw [ht] at hup
    simp only [isIn, Ne.symm hc, false_and, decide_false] at hup
    omega

/-- A signal turns one blocked thread into a signalled one, when there is one. -/
theorem tally_signal (h : signal c choice thr = some thr') :
    (tally c .blocked thr = 0 ∧ thr' = thr) ∨
      (tally c .blocked thr' + 1 = tally c .blocked thr ∧
        tally c .signalled thr' = tally c .signalled thr + 1) := by
  rcases signal_cases h with hnone | ⟨t, j, ht, rfl⟩
  · exact Or.inl hnone
  · have hb := tally_update c .blocked thr t (some ⟨c, j, .signalled⟩)
    have hs := tally_update c .signalled thr t (some ⟨c, j, .signalled⟩)
    rw [ht] at hb hs
    simp [isIn] at hb hs
    exact Or.inr ⟨by omega, hs⟩

/-- An expiry signals nobody. -/
theorem tally_expire_signalled {t : T} (h : expire t thr = some thr') (c : K) :
    tally c .signalled thr' = tally c .signalled thr := by
  obtain ⟨c', j, ht, rfl⟩ := expire_cases h
  have hup := tally_update c .signalled thr t (some ⟨c', j, .timedOut⟩)
  rw [ht] at hup
  simp only [isIn, reduceCtorEq, and_false, decide_false] at hup
  omega

/-- An expiry blocks nobody. -/
theorem tally_expire_blocked_le {t : T} (h : expire t thr = some thr') (c : K) :
    tally c .blocked thr' ≤ tally c .blocked thr := by
  obtain ⟨c', j, ht, rfl⟩ := expire_cases h
  have hup := tally_update c .blocked thr t (some ⟨c', j, .timedOut⟩)
  simp only [isIn, reduceCtorEq, and_false, decide_false, Bool.toNat_false] at hup
  omega

end

/-! ### The waits stay the same -/

section
variable {T K J : Type}

/-- The same threads wait on the same conditions, and only how their waits end has changed. -/
def SameWaits (thr thr' : Threads T K J) : Prop :=
  ∀ t, (thr' t).map (fun w => (w.cond, w.job)) = (thr t).map fun w => (w.cond, w.job)

/-- Every wait has a condition and a job that fit together. -/
def Jobs (P : K → J → Prop) (thr : Threads T K J) : Prop :=
  ∀ t w, thr t = some w → P w.cond w.job

variable {P : K → J → Prop} {thr thr' thr'' : Threads T K J} {t : T}

theorem SameWaits.refl (thr : Threads T K J) : SameWaits thr thr := fun _ => rfl

theorem SameWaits.trans (h : SameWaits thr thr') (h' : SameWaits thr' thr'') :
    SameWaits thr thr'' := fun t => (h' t).trans (h t)

/-- The wait of a thread before. -/
theorem SameWaits.wait (h : SameWaits thr thr') {w : Wait K J} (ht : thr' t = some w) :
    ∃ w', thr t = some w' ∧ w'.cond = w.cond ∧ w'.job = w.job := by
  have heq := h t
  rw [ht, Option.map_some] at heq
  obtain ⟨w', hw', hpair⟩ := Option.map_eq_some_iff.mp heq.symm
  exact ⟨w', hw', (Prod.mk.inj hpair).1, (Prod.mk.inj hpair).2⟩

/-- A thread that does not wait. -/
theorem SameWaits.none_iff (h : SameWaits thr thr') (t : T) : thr' t = none ↔ thr t = none := by
  rw [← Option.map_eq_none_iff, h t, Option.map_eq_none_iff]

theorem SameWaits.jobs (h : SameWaits thr thr') (hj : Jobs P thr) : Jobs P thr' := by
  intro t w ht
  obtain ⟨w', hw', hcond, hjob⟩ := h.wait ht
  rw [← hcond, ← hjob]
  exact hj t w' hw'

theorem SameWaits.waiting [DecidableEq K] [Fintype T] (h : SameWaits thr thr') (c : K) :
    waiting c thr' = waiting c thr := by
  refine count_congr fun t => ?_
  cases ht : thr' t with
  | none => rw [(h.none_iff t).mp ht]
  | some w =>
    obtain ⟨w', hw', hcond, -⟩ := h.wait ht
    rw [hw', isOn, isOn, hcond]

/-- One wait ends in another way. -/
theorem sameWaits_update [DecidableEq T] {c : K} {j : J} {k : Wake} (ht : thr t = some ⟨c, j, k⟩)
    (k' : Wake) :
    SameWaits thr (Function.update thr t (some ⟨c, j, k'⟩)) := by
  intro t'
  by_cases heq : t' = t
  · rw [heq, Function.update_self, ht]
    rfl
  · rw [Function.update_of_ne heq]

theorem sameWaits_expire [DecidableEq T] (h : expire t thr = some thr') : SameWaits thr thr' := by
  obtain ⟨c, j, ht, rfl⟩ := expire_cases h
  exact sameWaits_update ht _

theorem sameWaits_signal [DecidableEq T] [Fintype T] [DecidableEq K] {c : K} {choice : Option T}
    (h : signal c choice thr = some thr') : SameWaits thr thr' := by
  rcases signal_cases h with ⟨-, rfl⟩ | ⟨t, j, ht, rfl⟩
  · exact SameWaits.refl _
  · exact sameWaits_update ht _

theorem sameWaits_broadcast [DecidableEq K] (c : K) (thr : Threads T K J) :
    SameWaits thr (broadcast c thr) := by
  intro t
  rw [broadcast, Option.map_map]
  congr 1
  funext w
  show (Wait.cond (if _ then _ else _), Wait.job (if _ then _ else _)) = _
  split <;> rfl

theorem Jobs.update [DecidableEq T] (h : Jobs P thr) (t : T) {x : Option (Wait K J)}
    (hx : ∀ w, x = some w → P w.cond w.job) : Jobs P (Function.update thr t x) := by
  intro t' w hw
  by_cases heq : t' = t
  · rw [heq, Function.update_self] at hw
    exact hx w hw
  · rw [Function.update_of_ne heq] at hw
    exact h t' w hw

/-- The waits of the other threads than `t` are the same. -/
def SameElsewhere (t : T) (thr thr' : Threads T K J) : Prop :=
  ∀ u, u ≠ t → (thr' u).map (fun w => (w.cond, w.job)) = (thr u).map fun w => (w.cond, w.job)

theorem SameWaits.elsewhere (h : SameWaits thr thr') (t : T) : SameElsewhere t thr thr' :=
  fun u _ => h u

theorem SameElsewhere.trans (h : SameElsewhere t thr thr') (h' : SameElsewhere t thr' thr'') :
    SameElsewhere t thr thr'' :=
  fun u hu => (h' u hu).trans (h u hu)

theorem sameElsewhere_update [DecidableEq T] (t : T) (x : Option (Wait K J)) :
    SameElsewhere t thr (Function.update thr t x) := by
  intro u hu
  rw [Function.update_of_ne hu]

/-- The wait of another thread stays. -/
theorem SameElsewhere.wait {u : T} (h : SameElsewhere t thr thr') (hu : u ≠ t) {w : Wait K J}
    (ht : thr u = some w) : ∃ w', thr' u = some w' ∧ w'.cond = w.cond ∧ w'.job = w.job := by
  have heq := h u hu
  rw [ht, Option.map_some] at heq
  obtain ⟨w', hw', hpair⟩ := Option.map_eq_some_iff.mp heq
  exact ⟨w', hw', (Prod.mk.inj hpair).1, (Prod.mk.inj hpair).2⟩

end

end Qore.Lib.Monitor
