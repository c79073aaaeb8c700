import Qore.Queue.Refine

/-!
# `Qore.Queue.Wakeup`: who sleeps while there is something to do

Readers have a demand of one thread for each value, and writers of one thread for each free
place (`demand`). `Awake k` says that a thread is blocked on `k` only while as many woken
threads as the demand are on their way.

* `awake_proceed`: a call keeps `Awake` for its own condition, as it uses up what it was woken
  for, and for the other condition, as it signals it.
* `clear_clears_iff`: `clear` finds its assertion true and leaves an empty queue in exactly
  the runs where no reader is between its wake-up and its run at a `clear` on values.
* `writers_awake_iff`: free places and a sleeping writer never coexist in exactly the runs
  whose effective `clear`s leave at most one writer blocked, because `clear` sends one signal
  for all the places that it frees.
-/

set_option autoImplicit false

namespace Qore.Queue

open Qore.Lib
open Qore.Lib.Monitor hiding Wait

variable {T V : Type}

/-- What there is to do for the threads that wait on a condition: values for the readers, free
places for the writers. -/
def demand (q : QoreQueue V) : Cond → Int
  | .read => q.len
  | .write => q.max - q.len

theorem demand_congr {q q' : QoreQueue V} (h : SameQueue q q') (k : Cond) :
    demand q' k = demand q k := by
  cases k with
  | read => exact h.len
  | write => rw [demand, demand, h.len, h.max]

section
variable [Fintype T] {k : Cond}

/-- A thread is blocked on `k` only while enough woken threads are on their way. -/
def Awake (k : Cond) (s : State T V) : Prop :=
  tally k .blocked s.threads ≠ 0 → demand s.q k ≤ tally k .signalled s.threads

/-- A call that has to wait leaves nothing to do for its own condition. -/
theorem MustWait.demand_le {s : State T V} {l : List (Addr × V)} (hi : Core s l)
    (hd : s.q.len ≠ queueDeleted) (h : MustWait s.q k) : demand s.q k ≤ 0 := by
  cases k with
  | read =>
    rw [demand, hi.len_eq hd, hi.contents.head_none_iff.mp h]
    simp
  | write =>
    rw [MustWait] at h
    rw [demand]
    omega

variable {s s' : State T V} {l : List (Addr × V)} {lab : Label V}

/-- The condition that a thread of its own leaves behind when it runs: it was one of the woken
threads, or has just come. -/
def AwakeWith (k : Cond) (c : Call V) (s : State T V) : Prop :=
  tally k .blocked s.threads ≠ 0 →
    demand s.q k ≤ tally k .signalled s.threads + if c.job.cond = k then 1 else 0

theorem Awake.with (h : Awake k s) (c : Call V) : AwakeWith k c s := by
  intro hb
  have hle := h hb
  split <;> omega

/-- No thread is blocked on a deleted queue. -/
theorem awake_deleted (hi : Core s l) (hd : s.q.len = queueDeleted) : Awake k s :=
  fun hb => absurd (hi.quiet (Or.inl hd) k) hb

/-- While a writer is blocked, the values and the woken writers fill the queue. -/
def WritersAwake (s : State T V) : Prop :=
  tally .write .blocked s.threads ≠ 0 →
    s.q.max ≤ s.q.len + tally .write .signalled s.threads

theorem writersAwake_iff : WritersAwake s ↔ Awake .write s := by
  refine imp_congr_right fun _ => ?_
  rw [demand]
  omega

/-- The states of the runs from a new queue. -/
def Inv (s : State T V) : Prop := ∃ l, Core s l ∧ Awake .read s

theorem Inv.init (max : Int) : Inv (State.init T V max) :=
  ⟨[], Core.init max, fun hb => absurd (Monitor.count_eq_zero_iff.mpr fun _ => rfl) hb⟩

variable [DecidableEq T] (needsScan : V → Bool) {c : Call V} {choice : Option T} {a : Action T V}

/-- A woken thread that leaves its wait. -/
theorem Awake.leave (h : Awake k s) {t : T} (ht : s.threads t = some ⟨c.job.cond, c, .signalled⟩) :
    AwakeWith k c (leave t c.job.cond s) := by
  have hblocked := tally_update k .blocked s.threads t none
  have hsignalled := tally_update k .signalled s.threads t none
  rw [ht] at hblocked hsignalled
  simp only [isIn, reduceCtorEq, and_false, decide_false, Bool.toNat_false, Nat.add_zero] at hblocked
  simp only [isIn, and_true, Bool.toNat_false, Nat.add_zero] at hsignalled
  intro hb
  have hle := h (by rw [← hblocked]; exact hb)
  rw [show demand (Queue.leave t c.job.cond s).q k = demand s.q k from
    demand_congr (sameQueue_decWaiting _ _) k]
  show demand s.q k ≤ ↑(tally k .signalled (Function.update s.threads t none)) + _
  by_cases hk : c.job.cond = k
  · rw [if_pos hk]
    simp only [hk, decide_true, Bool.toNat_true] at hsignalled
    omega
  · rw [if_neg hk]
    simp only [hk, decide_false, Bool.toNat_false] at hsignalled
    omega

/-- A call uses up the demand of its own condition and adds to the other one. -/
theorem Performed.demand_eq {l' : List (Addr × V)} (hp : Performed c choice s s' l l') (k : Cond) :
    demand s'.q k = demand s.q k + if c.job.cond = k then -1 else 1 := by
  have hlen := hp.len
  have hmax := hp.control.max
  cases hc : c.job.cond <;> cases k <;> rw [hc, Cond.gain] at hlen <;> simp only [demand] <;> simp <;>
    omega

/-- So it keeps both conditions awake, as it signals the other one. -/
theorem awake_performed {l' : List (Addr × V)} (hi : Core s l) (h : AwakeWith k c s)
    (hp : Performed c choice s s' l l') : Awake k s' := by
  obtain ⟨choice', hsig⟩ := signalIf_signal (hi.counts _) hp.wakes
  intro hb
  rw [hp.demand_eq k]
  by_cases hk : c.job.cond = k
  · have hne : k ≠ c.job.cond.other := by
      rw [← hk]
      cases c.job.cond <;> simp [Cond.other]
    rw [tally_signal_ne hsig hne] at hb ⊢
    have hle := h hb
    rw [if_pos hk] at hle ⊢
    omega
  · have heq : c.job.cond.other = k := by
      cases hc : c.job.cond <;> cases k <;> simp_all [Cond.other]
    rw [heq] at hsig
    rcases tally_signal hsig with ⟨hzero, hthr⟩ | ⟨hblocked, hsignalled⟩
    · rw [hthr] at hb
      exact absurd hzero hb
    · have hle := h (by omega)
      rw [if_neg hk] at hle ⊢
      omega

/-- A call from its wait function on keeps both conditions awake. -/
theorem awake_proceed {t : T} (hi : Core s l) (ht : s.threads t = none)
    (hd : s.q.len ≠ queueDeleted) (h : AwakeWith k c s)
    (hp : proceed needsScan t c choice s = some (s', lab)) : Awake k s' := by
  rcases proceed_cases needsScan hp with ⟨hwhy, rfl, -⟩ | ⟨-, hm, -, rfl⟩ | ⟨-, hm, hperform⟩
  · intro hb
    rcases hwhy with herr | hm
    · exact absurd (hi.quiet (Or.inr herr) k) hb
    · have hle := h hb
      by_cases hk : c.job.cond = k
      · rw [hk] at hm
        have hzero := hm.demand_le hi hd
        omega
      · rw [if_neg hk] at hle
        omega
  · intro hb
    rw [demand_congr (sameQueue_incWaiting s.q c.job.cond) k]
    by_cases hk : c.job.cond = k
    · rw [hk] at hm
      have hzero := hm.demand_le hi hd
      omega
    · have hblocked := tally_update k .blocked s.threads t (some ⟨c.job.cond, c, .blocked⟩)
      have hsignalled := tally_update k .signalled s.threads t (some ⟨c.job.cond, c, .blocked⟩)
      rw [ht] at hblocked hsignalled
      simp only [isIn, hk, false_and, decide_false, Bool.toNat_false, Nat.add_zero]
        at hblocked hsignalled
      have hle := h (by rw [← hblocked]; exact hb)
      rw [if_neg hk] at hle
      rw [hsignalled]
      omega
  · have hread : c.job.cond = .read → l ≠ [] := by
      intro hk hl
      rw [hk, MustWait] at hm
      exact hm (hi.contents.head_none_iff.mpr hl)
    obtain ⟨l', -, hperf⟩ := perform_spec needsScan hi.contents hread hperform
    exact awake_performed hi h hperf

/-- A thread that leaves its wait without having been signalled. -/
theorem Awake.leave_timedOut (h : Awake k s) {t : T} {w : Monitor.Wait Cond (Call V)}
    (ht : s.threads t = some w) (hw : w.wake = .timedOut) :
    Awake k (Queue.leave t w.cond s) := by
  have hblocked := tally_update k .blocked s.threads t none
  have hsignalled := tally_update k .signalled s.threads t none
  rw [ht] at hblocked hsignalled
  simp only [isIn, hw, reduceCtorEq, and_false, decide_false, Bool.toNat_false, Nat.add_zero]
    at hblocked hsignalled
  intro hb
  have hle := h (by rw [← hblocked]; exact hb)
  rw [show demand (Queue.leave t w.cond s).q k = demand s.q k from
    demand_congr (sameQueue_decWaiting _ _) k]
  show demand s.q k ≤ ↑(tally k .signalled (Function.update s.threads t none))
  rw [hsignalled]
  exact hle

/-- Every critical section but `clear` keeps both conditions awake. -/
theorem awake_step (hi : Core s l) (h : Awake k s) (hclear : ∀ choice, a ≠ .clear choice)
    (hstep : step needsScan s a = some (s', lab)) :
    Awake k s' := by
  obtain ⟨l', hi', -, -⟩ := hi.step needsScan hstep
  cases a with
  | call t c choice =>
    obtain ⟨ht, ⟨rfl, -⟩ | ⟨hd, -, hp⟩⟩ := call_cases needsScan hstep
    · exact h
    · exact awake_proceed needsScan hi ht hd (h.with c) hp
  | resume t choice =>
    obtain ⟨w, ht, hcase⟩ := resume_cases needsScan hstep
    have hlen : (Queue.leave t w.cond s).q.len = s.q.len := (sameQueue_decWaiting s.q w.cond).len
    rcases hcase with ⟨hw, rfl, -⟩ | ⟨hw, hd, hp⟩
    · rcases hw with hw | ⟨-, hd⟩
      · exact h.leave_timedOut ht hw
      · exact awake_deleted hi' (hlen.trans hd)
    · have hjob : w.cond = w.job.job.cond := hi.jobs t w ht
      have ht' : s.threads t = some ⟨w.job.job.cond, w.job, .signalled⟩ := by
        rw [ht, ← hjob, ← hw]
      have hcore := hi.leave ht
      have hd' : (Queue.leave t w.cond s).q.len ≠ queueDeleted := by
        rw [hlen]
        exact hd
      rw [hjob] at hcore hd' hp
      exact awake_proceed needsScan hcore (Function.update_self _ _ _) hd' (h.leave ht') hp
  | expire t =>
    obtain ⟨thr, hthr, rfl, -⟩ := timeout_cases hstep
    intro hb
    have hle := tally_expire_blocked_le hthr k
    have hold := h (by
      intro hzero
      exact hb (by show tally k .blocked thr = 0; omega))
    show demand s.q k ≤ ↑(tally k .signalled thr)
    rw [tally_expire_signalled hthr]
    exact hold
  | clear choice => exact absurd rfl (hclear choice)
  | setError err desc =>
    rcases setError_cases hi hstep with ⟨-, rfl, -⟩ | ⟨-, -, -, -, rfl⟩
    · exact h
    · exact fun hb => absurd (hi.wakeAll.1 k) hb
  | clearError =>
    simp only [Queue.step, clearError, Option.some.injEq] at hstep
    split at hstep
    · rw [← (Prod.mk.inj hstep).1]
      exact h
    · rw [← (Prod.mk.inj hstep).1]
      cases k <;> exact h
  | destructor =>
    obtain ⟨-, -, -, rfl⟩ := destructor_cases hi hstep
    exact fun hb => absurd (hi.wakeAll.1 k) hb

/-! ### `clear` and the readers -/

/-- No reader has left its wait without having run yet. -/
def Calm (s : State T V) : Prop :=
  tally .read .signalled s.threads = 0 ∧ tally .read .timedOut s.threads = 0

/-- At a `clear`, no reader is counted as waiting or the queue is empty, and the queue is empty
at the start or at the end of a `clear` that returns without an error. -/
def ClearClears (s : State T V) (a : Action T V) : Prop :=
  ∀ choice, a = .clear choice → (s.q.readWaiting = 0 ∨ s.q.head = none) ∧
    ∀ s' lab, step needsScan s a = some (s', lab) → lab.result = some .done →
      s.q.head = none ∨ s'.q.head = none

/-- At a `clear`, no reader is between its wake-up and its run, or the queue is empty. -/
def SafeClear (s : State T V) (a : Action T V) : Prop :=
  ∀ choice, a = .clear choice → Calm s ∨ s.q.head = none

/-- An effective `clear` finds no waiting reader. -/
theorem awake_clear_read (hi : Core s l) (h : Awake .read s)
    (hclear : clear choice s = some (s', lab)) : Awake .read s' := by
  rcases clear_cases hi hclear with ⟨-, rfl, -⟩ | ⟨-, -, hr, -, -, -, thr, hthr, rfl⟩
  · exact h
  · obtain ⟨choice', hsig⟩ := signalIf_signal (hi.counts .write) hthr
    have hcount := hi.counts .read
    rw [waiting_eq, show s.q.counter .read = s.q.readWaiting from rfl, hr] at hcount
    intro hb
    rw [tally_signal_ne hsig (by simp)] at hb
    omega

/-- The invariant of the readers, for every critical section. -/
theorem awake_read_step (hi : Core s l) (h : Awake .read s)
    (hstep : step needsScan s a = some (s', lab)) : Awake .read s' := by
  by_cases hclear : ∃ choice, a = .clear choice
  · obtain ⟨choice, rfl⟩ := hclear
    exact awake_clear_read hi h hstep
  · exact awake_step needsScan hi h (fun choice ha => hclear ⟨choice, ha⟩) hstep

/-- In a state of the invariant, `clear` does its work exactly when it is safe. -/
theorem clearClears_iff (hi : Core s l) (h : Awake .read s) (a : Action T V) :
    ClearClears needsScan s a ↔ SafeClear s a := by
  have hcount := hi.counts .read
  rw [waiting_eq, show s.q.counter .read = s.q.readWaiting from rfl] at hcount
  constructor
  · intro hc choice ha
    rcases (hc choice ha).1 with hr | hhead
    · exact Or.inl ⟨by omega, by omega⟩
    · exact Or.inr hhead
  · intro hs choice ha
    -- Without a woken reader, a counted reader is blocked, so there are no values.
    have hwait : s.q.readWaiting = 0 ∨ s.q.head = none := by
      rcases hs choice ha with hcalm | hhead
      · by_cases hb : tally .read .blocked s.threads = 0
        · exact Or.inl (by rw [hcount, hb, hcalm.1, hcalm.2])
        · right
          have hle := h hb
          rw [demand, hcalm.1] at hle
          rw [hi.contents.head_none_iff]
          rcases hi.len with hlen | hlen
          · exact List.length_eq_zero_iff.mp (by omega)
          · exact hlen.2
      · exact Or.inr hhead
    refine ⟨hwait, fun s' lab hstep hdone => ?_⟩
    subst ha
    rcases clear_cases hi hstep with ⟨hwhy, -⟩ | ⟨-, -, -, -, -, -, thr, -, rfl⟩
    · left
      rcases hwhy with hd | herr | hr
      · rw [hi.contents.head_none_iff]
        exact (hi.len.resolve_left fun hlen => length_ne_deleted l (hlen.symm.trans hd)).2
      · exact hi.contents.head_none_iff.mpr (hi.refuse herr)
      · exact hwait.resolve_left hr
    · exact Or.inr rfl

theorem Inv.step {s s' : State T V} {lab : Label V} (h : Inv s)
    (hstep : step needsScan s a = some (s', lab)) : Inv s' := by
  obtain ⟨l, hi, hawake⟩ := h
  obtain ⟨l', hi', -, -⟩ := hi.step needsScan hstep
  exact ⟨l', hi', awake_read_step needsScan hi hawake hstep⟩

/-- In every run, every `clear` clears if and only if every `clear` of a queue with values
happens while no reader is between its wake-up and its run. -/
theorem clear_clears_iff (max : Int) (as : List (Action T V)) :
    Lts.Along (step needsScan) (ClearClears needsScan) (State.init T V max) as ↔
      Lts.Along (step needsScan) SafeClear (State.init T V max) as := by
  refine Lts.along_congr (fun s a s' lab hi hstep => Inv.step needsScan hi hstep) ?_ as _
    (Inv.init max)
  rintro s a ⟨l, hi, hawake⟩
  exact clearClears_iff needsScan hi hawake a

end

/-- A reader blocks, a push wakes it, and `clear` runs before the reader: a reader is counted
as waiting, the queue has a value, and `clear` returns without touching it. -/
theorem clear_before_reader :
    ¬ ∀ as : List (Action (Fin 2) Nat),
      Lts.Along (step fun _ => false) (ClearClears fun _ => false)
        (State.init (Fin 2) Nat (-1)) as := by
  intro hall
  let before : List (Action (Fin 2) Nat) :=
    [.call 0 ⟨.shift, false, 0⟩ none, .call 1 ⟨.push 7, false, 0⟩ (some 0)]
  have hrun : (Lts.run (step fun _ => false) (State.init (Fin 2) Nat (-1)) before).map
      (fun r => (r.1.q.readWaiting, r.1.q.head,
        (step (fun _ => false) r.1 (.clear none)).isSome)) = some (1, some 0, true) := by
    decide
  obtain ⟨r, hr, hstate⟩ := Option.map_eq_some_iff.mp hrun
  simp only [Prod.mk.injEq] at hstate
  obtain ⟨hread, hhead, hsome⟩ := hstate
  obtain ⟨r', hr'⟩ := Option.isSome_iff_exists.mp hsome
  have hbad := Lts.Along.of_run before (hall (before ++ [.clear none])) hr hr'
  rcases (hbad none rfl).1 with h | h
  · rw [hread] at h
    cases h
  · rw [hhead] at h
    cases h

/-! ### `clear` and the writers -/

section
variable [Fintype T] [DecidableEq T] (needsScan : V → Bool)
variable {s s' : State T V} {l : List (Addr × V)} {lab : Label V}

/-- An effective `clear` finds at most one blocked writer, or woken writers for all the other
places. -/
def RoomyClear (s : State T V) (a : Action T V) : Prop :=
  ∀ choice, a = .clear choice → s.q.len ≠ queueDeleted → s.q.err = "" → s.q.readWaiting = 0 →
    tally .write .blocked s.threads ≤ 1 ∨
      s.q.max ≤ tally .write .signalled s.threads + 1

/-- `clear` frees all places and wakes one writer. -/
theorem awake_clear_write {choice : Option T} (hi : Core s l) (h : Awake .write s)
    (hclear : clear choice s = some (s', lab)) :
    Awake .write s' ↔ RoomyClear s (.clear choice) := by
  rcases clear_cases hi hclear with ⟨hwhy, rfl, -⟩ | ⟨hd, herr, hr, -, -, -, thr, hthr, rfl⟩
  · refine iff_of_true h fun _ _ hd herr hr => ?_
    rcases hwhy with hd' | herr' | hr'
    · exact absurd hd' hd
    · exact absurd herr herr'
    · exact absurd hr hr'
  · obtain ⟨choice', hsig⟩ := signalIf_signal (hi.counts .write) hthr
    have hroomy : RoomyClear s (.clear choice) ↔ (tally .write .blocked s.threads ≤ 1 ∨
        s.q.max ≤ tally .write .signalled s.threads + 1) :=
      ⟨fun hc => hc choice rfl hd herr hr, fun hc _ _ _ _ _ => hc⟩
    rw [hroomy]
    show (tally .write .blocked thr ≠ 0 → s.q.max - 0 ≤ ↑(tally .write .signalled thr)) ↔ _
    rcases tally_signal hsig with ⟨hzero, rfl⟩ | ⟨hblocked, hsignalled⟩
    · exact iff_of_true (fun hb => absurd hzero hb) (Or.inl (by omega))
    · rw [hsignalled]
      constructor
      · intro hall
        by_cases hb : tally .write .blocked thr = 0
        · exact Or.inl (by omega)
        · have hle := hall hb
          exact Or.inr (by omega)
      · rintro (hb | hle) hne
        · omega
        · omega

/-- In every run, in every state free places and a sleeping writer exclude each other if and
only if every effective `clear` of the run is roomy. -/
theorem writers_awake_iff (max : Int) (as : List (Action T V)) :
    Lts.Always (step needsScan) WritersAwake (State.init T V max) as ↔
      Lts.Along (step needsScan) RoomyClear (State.init T V max) as := by
  refine Lts.always_iff_along (fun s a s' lab hi hstep => Inv.step needsScan hi hstep) ?_ as _
    (Inv.init max) fun hb => absurd (Monitor.count_eq_zero_iff.mpr fun _ => rfl) hb
  rintro s a s' lab ⟨l, hi, -⟩ hq hstep
  rw [writersAwake_iff] at hq ⊢
  by_cases hclear : ∃ choice, a = .clear choice
  · obtain ⟨choice, rfl⟩ := hclear
    exact awake_clear_write hi hq hstep
  · have hne : ∀ choice, a ≠ .clear choice := fun choice ha => hclear ⟨choice, ha⟩
    exact iff_of_true (awake_step needsScan hi hq hne hstep)
      fun choice ha => absurd ha (hne choice)

end

/-- Two writers are blocked on a full queue of two values, and `clear` wakes one of them: the
queue is empty, and the other writer sleeps on. -/
theorem clear_wakes_one_writer :
    ¬ ∀ as : List (Action (Fin 3) Nat),
      Lts.Always (step fun _ => false) WritersAwake (State.init (Fin 3) Nat 2) as := by
  intro hall
  let as : List (Action (Fin 3) Nat) :=
    [.call 2 ⟨.push 1, false, 0⟩ none, .call 2 ⟨.push 2, false, 0⟩ none,
      .call 0 ⟨.push 3, false, 0⟩ none, .call 1 ⟨.push 4, false, 0⟩ none, .clear (some 0)]
  have hrun : (Lts.run (step fun _ => false) (State.init (Fin 3) Nat 2) as).map
      (fun r => (tally .write .blocked r.1.threads, tally .write .signalled r.1.threads,
        r.1.q.max, r.1.q.len)) = some (1, 1, 2, 0) := by
    decide
  obtain ⟨r, hr, hstate⟩ := Option.map_eq_some_iff.mp hrun
  simp only [Prod.mk.injEq] at hstate
  obtain ⟨hblocked, hsignalled, hmax, hlen⟩ := hstate
  have hbad := Lts.Always.of_run as (hall as) hr (by rw [hblocked]; simp)
  omega

end Qore.Queue
