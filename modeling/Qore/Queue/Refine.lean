import Mathlib
import Qore.Queue.Linked

/-!
# `Qore.Queue.Refine`: the queue refines a bounded double-ended queue

`Core s l` is the invariant of every reachable state: the linked list holds the values `l`,
`len` counts them unless the queue is deleted, the bound is kept, the counters count the
waiting threads, and a queue that has an error or is deleted is empty and blocks nobody.

* `Core.proceed` says what a call can do after its checks. `Core.step` is the invariant and
  the refinement for one critical section.
* `run_refines` is the result for every run: the events of the run lead the abstract deque
  from the empty list to the values of the linked list, what the calls answer agrees with the
  events, and no two additions have the same address. So every value that was accepted was
  delivered once, discarded once, or is still queued.
-/

set_option autoImplicit false

namespace Qore.Queue

open Qore.Lib
open Qore.Lib.Monitor hiding Wait

variable {T V : Type} (q : QoreQueue V)

/-! ### The counters -/

/-- `read_waiting` or `write_waiting`. -/
def QoreQueue.counter (q : QoreQueue V) : Cond → Nat
  | .read => q.readWaiting
  | .write => q.writeWaiting

theorem counter_incWaiting (c c' : Cond) :
    (q.incWaiting c).counter c' = q.counter c' + (decide (c = c')).toNat := by
  cases c <;> cases c' <;> rfl

theorem counter_decWaiting (c c' : Cond) :
    (q.decWaiting c).counter c' = q.counter c' - (decide (c = c')).toNat := by
  cases c <;> cases c' <;> rfl

/-- A queue that differs in its counters only. -/
structure SameQueue (q q' : QoreQueue V) : Prop where
  nodes : q'.nodes = q.nodes
  free : q'.free = q.free
  head : q'.head = q.head
  tail : q'.tail = q.tail
  err : q'.err = q.err
  len : q'.len = q.len
  max : q'.max = q.max

theorem sameQueue_incWaiting (c : Cond) : SameQueue q (q.incWaiting c) := by
  cases c <;> exact ⟨rfl, rfl, rfl, rfl, rfl, rfl, rfl⟩

theorem sameQueue_decWaiting (c : Cond) : SameQueue q (q.decWaiting c) := by
  cases c <;> exact ⟨rfl, rfl, rfl, rfl, rfl, rfl, rfl⟩

theorem SameControl.counter {q q' : QoreQueue V} (h : SameControl q q') (c : Cond) :
    q'.counter c = q.counter c := by
  cases c with
  | read => exact h.readWaiting
  | write => exact h.writeWaiting

/-! ### What a call answers -/

/-- The value that a call has stored, by its answer. -/
def Label.accepted (lab : Label V) : List V :=
  match lab.job, lab.result with
  | some (.push v), some .done => [v]
  | some (.insert v), some .done => [v]
  | _, _ => []

/-- The value that a call has returned. -/
def Label.delivered (lab : Label V) : List V :=
  match lab.result with
  | some (.value v) => [v]
  | _ => []

/-- The answer of a call agrees with its event on the deque. -/
def Label.Faithful (lab : Label V) : Prop :=
  lab.event.added.map Prod.snd = lab.accepted ∧ lab.event.taken.map Prod.snd = lab.delivered

/-- A call that answers neither success nor a value has stored and returned nothing. -/
theorem Label.refused {job : Option (Job V)} {e : Deque.Event (Addr × V)} {out : Outcome V}
    {n : Int} (hdone : out ≠ .done) (hvalue : ∀ v, out ≠ .value v) :
    Label.accepted ⟨job, e, some out, n⟩ = [] ∧ Label.delivered ⟨job, e, some out, n⟩ = [] := by
  cases out with
  | done => exact absurd rfl hdone
  | value v => exact absurd rfl (hvalue v)
  | timeout => rcases job with _ | _ | _ | _ | _ <;> exact ⟨rfl, rfl⟩
  | raised es => rcases job with _ | _ | _ | _ | _ <;> exact ⟨rfl, rfl⟩
  | failed => rcases job with _ | _ | _ | _ | _ <;> exact ⟨rfl, rfl⟩

/-- What `checkWriteIntern` can find. -/
theorem checkWriteIntern_cases (b : Bool) :
    (q.checkWriteIntern b = none ∧ q.len ≠ queueDeleted ∧ q.err = "") ∨
      ((q.len = queueDeleted ∨ q.err ≠ "") ∧
        ∃ out, q.checkWriteIntern b = some out ∧ out ≠ .done ∧ ∀ v, out ≠ .value v) := by
  unfold QoreQueue.checkWriteIntern
  by_cases hd : q.len = queueDeleted
  · rw [if_pos hd]
    refine Or.inr ⟨Or.inl hd, _, rfl, ?_⟩
    cases b <;> exact ⟨by simp [Outcome.deleted], fun v => by simp [Outcome.deleted]⟩
  · rw [if_neg hd]
    by_cases herr : q.err = ""
    · rw [if_neg (not_not.mpr herr)]
      exact Or.inl ⟨rfl, hd, herr⟩
    · rw [if_pos herr]
      exact Or.inr ⟨Or.inr herr, _, rfl, by simp, fun v => by simp⟩

/-- The new addresses of an event lie between two bounds. -/
def Ticket (lo hi : Addr) (e : Deque.Event (Addr × V)) : Prop :=
  lo ≤ hi ∧ (∀ x ∈ e.added, lo ≤ x.1 ∧ x.1 < hi) ∧ (e.added.map Prod.fst).Nodup

theorem ticket_skip (a : Addr) : Ticket a a (Deque.Event.skip : Deque.Event (Addr × V)) :=
  ⟨Nat.le_refl a, by simp [Deque.Event.added], by simp [Deque.Event.added]⟩

theorem ticket_discard (a : Addr) (xs : List (Addr × V)) : Ticket a a (.discard xs) :=
  ⟨Nat.le_refl a, by simp [Deque.Event.added], by simp [Deque.Event.added]⟩

/-! ### The invariant -/

section
variable [Fintype T]

/-- The invariant of the queue and its threads. -/
structure Core (s : State T V) (l : List (Addr × V)) : Prop where
  contents : Contents s.q l
  len : s.q.len = l.length ∨ s.q.len = queueDeleted ∧ l = []
  bound : 0 < s.q.max → (l.length : Int) ≤ s.q.max
  counts : ∀ c, s.q.counter c = waiting c s.threads
  jobs : Jobs (fun c job => c = job.job.cond) s.threads
  refuse : s.q.err ≠ "" → l = []
  quiet : s.q.len = queueDeleted ∨ s.q.err ≠ "" → ∀ c, tally c .blocked s.threads = 0

theorem Core.init (max : Int) : Core (State.init T V max) [] := by
  refine ⟨Contents.new max, Or.inl rfl, fun h => Int.le_of_lt h, fun c => ?_, ?_, fun _ => rfl, ?_⟩
  · have hzero : waiting c (State.init T V max).threads = 0 :=
      Monitor.count_eq_zero_iff.mpr fun _ => rfl
    rw [hzero]
    cases c <;> rfl
  · intro t w h
    cases h
  · exact fun _ c => Monitor.count_eq_zero_iff.mpr fun _ => rfl

/-- The number of values of a queue that is not deleted. -/
theorem Core.len_eq {s : State T V} {l : List (Addr × V)} (h : Core s l)
    (hd : s.q.len ≠ queueDeleted) : s.q.len = l.length :=
  h.len.resolve_right fun hdel => hd hdel.1

/-- The length is never the mark of a deleted queue. -/
theorem length_ne_deleted (l : List (Addr × V)) : (l.length : Int) ≠ queueDeleted := by
  rw [queueDeleted]
  omega

variable [DecidableEq T]

/-- With exact counters the guarded signal is a signal. -/
theorem signalIf_signal {n : Nat} {c : Cond} {choice : Option T} {thr thr' : Threads T Cond (Call V)}
    (hn : n = waiting c thr) (h : signalIf n c choice thr = some thr') :
    ∃ choice', signal c choice' thr = some thr' := by
  unfold signalIf at h
  split at h
  · exact ⟨choice, h⟩
  · rename_i hzero
    have hb : tally c .blocked thr = 0 := by
      have := waiting_eq c thr
      omega
    refine ⟨none, ?_⟩
    rw [signal, if_pos hb]
    exact h

end

/-- What an expiry does. -/
theorem timeout_cases [DecidableEq T] {t : T} {s s' : State T V} {lab : Label V}
    (h : timeout t s = some (s', lab)) :
    ∃ thr, expire t s.threads = some thr ∧ s' = ⟨s.q, thr⟩ ∧ lab.event = .skip ∧
      lab.accepted = [] ∧ lab.delivered = [] := by
  unfold timeout at h
  split at h
  · cases h
  · rename_i w _
    split at h
    · split at h
      · cases h
      · rename_i thr hthr
        simp only [Option.some.injEq, Prod.mk.injEq] at h
        rw [← h.2]
        exact ⟨thr, hthr, h.1.symm, rfl, by cases w.job.job <;> rfl, rfl⟩
    · cases h

/-! ### Discarding the values -/

section
variable [Fintype T] {s s' : State T V} {l : List (Addr × V)} {lab : Label V}

/-- `read_cond.broadcast()` and `write_cond.broadcast()`, each when a thread is counted. -/
def wakeAll (q : QoreQueue V) (thr : Threads T Cond (Call V)) : Threads T Cond (Call V) :=
  let thr := if q.readWaiting ≠ 0 then broadcast .read thr else thr
  if q.writeWaiting ≠ 0 then broadcast .write thr else thr

/-- After the broadcasts nobody is blocked, and everybody still waits. -/
theorem Core.wakeAll (hi : Core s l) :
    (∀ c, tally c .blocked (wakeAll s.q s.threads) = 0) ∧
      SameWaits s.threads (wakeAll s.q s.threads) := by
  have hr := hi.counts .read
  have hw := hi.counts .write
  rw [waiting_eq] at hr hw
  rw [show s.q.counter .read = s.q.readWaiting from rfl] at hr
  rw [show s.q.counter .write = s.q.writeWaiting from rfl] at hw
  unfold Queue.wakeAll
  by_cases h1 : s.q.readWaiting = 0
  · by_cases h2 : s.q.writeWaiting = 0
    · simp only [h1, h2, ne_eq, not_true_eq_false, if_false]
      refine ⟨fun c => ?_, SameWaits.refl _⟩
      cases c <;> omega
    · simp only [h1, h2, ne_eq, not_true_eq_false, if_false, not_false_eq_true, if_true]
      refine ⟨fun c => ?_, sameWaits_broadcast _ _⟩
      cases c with
      | read => rw [tally_broadcast_ne (by simp)]; omega
      | write => exact tally_broadcast_blocked _ _
  · by_cases h2 : s.q.writeWaiting = 0
    · simp only [h1, h2, ne_eq, not_true_eq_false, if_false, not_false_eq_true, if_true]
      refine ⟨fun c => ?_, sameWaits_broadcast _ _⟩
      cases c with
      | read => exact tally_broadcast_blocked _ _
      | write => rw [tally_broadcast_ne (by simp)]; omega
    · simp only [h1, h2, ne_eq, not_false_eq_true, if_true]
      refine ⟨fun c => ?_, (sameWaits_broadcast _ _).trans (sameWaits_broadcast _ _)⟩
      cases c with
      | read =>
        rw [tally_broadcast_ne (by simp)]
        exact tally_broadcast_blocked _ _
      | write => exact tally_broadcast_blocked _ _

/-- The linked list after `clearIntern`, in a queue with other fields. -/
theorem Contents.empty {q : QoreQueue V} (hnodes : q.nodes = fun _ => none) (hhead : q.head = none)
    (htail : q.tail = none) : Contents q [] :=
  ⟨hhead, htail, trivial, List.nodup_nil, by simp, fun a _ => by rw [hnodes]⟩

/-- What `setError` can do. -/
theorem setError_cases (hi : Core s l) {err desc : String}
    (h : setError err desc s = some (s', lab)) :
    (s.q.len = queueDeleted ∧ s' = s ∧ lab = ⟨none, .skip, some .done, 0⟩) ∨
      (s.q.len ≠ queueDeleted ∧ lab.event = .discard l ∧ lab.job = none ∧
        lab.result = some .done ∧
        s' = ⟨{ s.q with nodes := fun _ => none, head := none, tail := none, scanCount := 0,
                         err := err, desc := desc, len := 0 }, wakeAll s.q s.threads⟩) := by
  unfold setError at h
  by_cases hd : s.q.len = queueDeleted
  · rw [if_pos hd] at h
    simp only [Option.some.injEq, Prod.mk.injEq] at h
    exact Or.inl ⟨hd, h.1.symm, h.2.symm⟩
  · rw [if_neg hd, hi.contents.clearIntern] at h
    simp only [Option.some.injEq, Prod.mk.injEq] at h
    rw [← h.2]
    exact Or.inr ⟨hd, rfl, rfl, rfl, h.1.symm⟩

/-- What the destructor does. -/
theorem destructor_cases (hi : Core s l) (h : destructor s = some (s', lab)) :
    lab.event = .discard l ∧ lab.job = none ∧ (∀ v, lab.result ≠ some (.value v)) ∧
      s' = ⟨{ s.q with nodes := fun _ => none, head := none, tail := none, scanCount := 0,
                       len := queueDeleted, desc := "" }, wakeAll s.q s.threads⟩ := by
  unfold destructor at h
  rw [hi.contents.clearIntern] at h
  simp only [Option.some.injEq, Prod.mk.injEq] at h
  rw [← h.2]
  refine ⟨rfl, rfl, fun v => ?_, h.1.symm⟩
  split <;> simp

/-- A section that discards the values and wakes everybody. -/
theorem Core.emptied (hi : Core s l) {q' : QoreQueue V} (hc : Contents q' [])
    (hlen : q'.len = 0 ∨ q'.len = queueDeleted) (hcounter : ∀ c, q'.counter c = s.q.counter c) :
    Core (⟨q', Queue.wakeAll s.q s.threads⟩ : State T V) [] := by
  obtain ⟨hblocked, hsame⟩ := hi.wakeAll
  exact ⟨hc, hlen.imp_right fun h => ⟨h, rfl⟩, fun hpos => Int.le_of_lt hpos,
    fun c => by rw [hsame.waiting, ← hi.counts c]; exact hcounter c, hsame.jobs hi.jobs,
    fun _ => rfl, fun _ => hblocked⟩

end

/-! ### Storing and taking a value -/

/-- The condition that the other kind of call waits on. -/
def Cond.other : Cond → Cond
  | .read => .write
  | .write => .read

/-- By how much a call that waits on the condition changes the number of values. -/
def Cond.gain : Cond → Int
  | .read => -1
  | .write => 1

/-- What a critical section does to the list: the linked list follows the event on the deque,
and the answer of the call agrees with it. -/
structure Moved (q q' : QoreQueue V) (l l' : List (Addr × V)) (lab : Label V) : Prop where
  contents : Contents q' l'
  max : q'.max = q.max
  step : Deque.Step l lab.event l'
  faithful : lab.Faithful
  ticket : Ticket q.free q'.free lab.event

section
variable [Fintype T] [DecidableEq T]

/-- What a call does after its wait function has returned 0: it adds or takes a value and
wakes a thread that waits on the other condition. -/
structure Performed (c : Call V) (choice : Option T) (s s' : State T V) (l l' : List (Addr × V)) :
    Prop where
  control : SameControl s.q s'.q
  len : s'.q.len = s.q.len + c.job.cond.gain
  length : (l'.length : Int) = l.length + c.job.cond.gain
  wakes : signalIf (s.q.counter c.job.cond.other) c.job.cond.other choice s.threads =
    some s'.threads

variable (needsScan : V → Bool) {c : Call V} {choice : Option T} {l' : List (Addr × V)}
  {q' : QoreQueue V} {t : T} {event : Addr × V → Deque.Event (Addr × V)}

theorem store_spec {node : QoreQueue V → V → QoreQueue V} {v : V} {s s' : State T V}
    {l : List (Addr × V)} {lab : Label V} (hjob : c.job = .push v ∨ c.job = .insert v)
    (hnode : (node s.q v).len = s.q.len + 1 ∧ (node s.q v).free = s.q.free + 1 ∧
      SameControl s.q (node s.q v)) (hcontents : Contents (node s.q v) l')
    (hlength : l'.length = l.length + 1) (hadded : (event (s.q.free, v)).added = [(s.q.free, v)])
    (htaken : (event (s.q.free, v)).taken = []) (hstep : Deque.Step l (event (s.q.free, v)) l')
    (h : store needsScan node event v c choice s = some (s', lab)) :
    Moved s.q s'.q l l' lab ∧ Performed c choice s s' l l' := by
  obtain ⟨hlen, hfree, hcontrol⟩ := hnode
  have hcond : c.job.cond = .write := by
    rcases hjob with hj | hj <;> rw [hj] <;> rfl
  unfold store at h
  dsimp only at h
  split at h
  · cases h
  · rename_i thr hthr
    obtain ⟨rfl, rfl⟩ := h
    refine ⟨⟨hcontents.congr rfl rfl rfl rfl, hcontrol.max, hstep, ⟨?_, ?_⟩, ?_, ?_, ?_⟩,
      ⟨⟨hcontrol.err, hcontrol.max, hcontrol.readWaiting, hcontrol.writeWaiting⟩, ?_, ?_, ?_⟩⟩
    · show (event (s.q.free, v)).added.map Prod.snd = _
      rw [hadded]
      rcases hjob with hj | hj <;> simp [Label.accepted, hj]
    · show (event (s.q.free, v)).taken.map Prod.snd = _
      rw [htaken]
      rfl
    · show s.q.free ≤ (node s.q v).free
      rw [hfree]
      exact Nat.le_succ _
    · intro x hx
      rw [show (event (s.q.free, v)).added = [(s.q.free, v)] from hadded, List.mem_singleton] at hx
      rw [hx]
      exact ⟨Nat.le_refl _, by show s.q.free < (node s.q v).free; rw [hfree]; exact Nat.lt_succ_self _⟩
    · show ((event (s.q.free, v)).added.map Prod.fst).Nodup
      rw [hadded]
      simp
    · rw [hcond]
      exact hlen
    · rw [hcond, hlength]
      rfl
    · rw [hcond]
      rw [hcontrol.readWaiting] at hthr
      exact hthr

theorem take_spec {node : QoreQueue V → Option ((Addr × V) × QoreQueue V)} {s s' : State T V}
    {x : Addr × V} {l : List (Addr × V)} {lab : Label V} (hcond : c.job.cond = .read)
    (hnode : node s.q = some (x, q'))
    (hspec : Contents q' l' ∧ q'.len = s.q.len - 1 ∧ q'.free = s.q.free ∧ SameControl s.q q')
    (hlength : l.length = l'.length + 1) (hadded : (event x).added = [])
    (htaken : (event x).taken = [x]) (hstep : Deque.Step l (event x) l')
    (h : take node event c choice s = some (s', lab)) :
    Moved s.q s'.q l l' lab ∧ Performed c choice s s' l l' := by
  obtain ⟨hcontents, hlen, hfree, hcontrol⟩ := hspec
  unfold take at h
  rw [hnode] at h
  dsimp only at h
  split at h
  · cases h
  · rename_i thr hthr
    obtain ⟨rfl, rfl⟩ := h
    refine ⟨⟨hcontents, hcontrol.max, hstep, ⟨?_, ?_⟩, ?_, ?_, ?_⟩, ⟨hcontrol, ?_, ?_, ?_⟩⟩
    · show (event x).added.map Prod.snd = _
      rw [hadded]
      cases hj : c.job with
      | push v => rw [hj] at hcond; cases hcond
      | insert v => rw [hj] at hcond; cases hcond
      | shift => rfl
      | pop => rfl
    · show (event x).taken.map Prod.snd = _
      rw [htaken]
      rfl
    · exact Nat.le_of_eq hfree.symm
    · intro y hy
      rw [show (event x).added = [] from hadded] at hy
      cases hy
    · show ((event x).added.map Prod.fst).Nodup
      rw [hadded]
      exact List.nodup_nil
    · rw [hcond]
      exact hlen
    · rw [hcond, hlength, Cond.gain]
      omega
    · rw [hcond]
      rw [hcontrol.writeWaiting] at hthr
      exact hthr

/-- A call that goes on adds or takes one value at one end and wakes a thread of the other
kind. A reader finds a value. -/
theorem perform_spec {s s' : State T V} {l : List (Addr × V)} {lab : Label V} (hc : Contents s.q l)
    (hread : c.job.cond = .read → l ≠ []) (h : perform needsScan c choice s = some (s', lab)) :
    ∃ l', Moved s.q s'.q l l' lab ∧ Performed c choice s s' l l' := by
  unfold perform at h
  cases hj : c.job with
  | push v =>
    simp only [hj] at h
    exact ⟨_, store_spec needsScan (Or.inl hj) (Contents.pushNode_control s.q v) (hc.pushNode v)
      (by simp) rfl rfl (.pushBack l _) h⟩
  | insert v =>
    simp only [hj] at h
    exact ⟨_, store_spec needsScan (Or.inr hj) (Contents.insertNode_control s.q v)
      (hc.insertNode v) (by simp) rfl rfl (.pushFront l _) h⟩
  | shift =>
    simp only [hj] at h
    obtain ⟨x, l', rfl⟩ := List.exists_cons_of_ne_nil (hread (by rw [hj]; rfl))
    obtain ⟨q', hq', hspec⟩ := hc.takeHead
    exact ⟨l', take_spec (by rw [hj]; rfl) hq' hspec rfl rfl rfl (.popFront l' x) h⟩
  | pop =>
    simp only [hj] at h
    have hne := hread (by rw [hj]; rfl)
    obtain ⟨l', x, rfl⟩ : ∃ l' x, l = l' ++ [x] := ⟨_, _, (List.dropLast_append_getLast hne).symm⟩
    obtain ⟨q', hq', hspec⟩ := hc.takeTail
    exact ⟨l', take_spec (by rw [hj]; rfl) hq' hspec (by simp) rfl rfl (.popBack l' x) h⟩

/-! ### The calls -/

/-- The wait function of the call does not return 0 yet. -/
def MustWait (q : QoreQueue V) : Cond → Prop
  | .read => q.head = none
  | .write => q.max > 0 ∧ q.len ≥ q.max

/-- What a call can do from the loop of its wait function on. -/
theorem proceed_cases {s s' : State T V} {lab : Label V}
    (h : proceed needsScan t c choice s = some (s', lab)) :
    ((s.q.err ≠ "" ∨ MustWait s.q c.job.cond) ∧ s' = s ∧
        ∃ out, lab = ⟨some c.job, .skip, some out, 0⟩ ∧ lab.accepted = [] ∧ lab.delivered = []) ∨
      (s.q.err = "" ∧ MustWait s.q c.job.cond ∧ lab = ⟨some c.job, .skip, none, 0⟩ ∧
        s' = ⟨s.q.incWaiting c.job.cond,
          Function.update s.threads t (some ⟨c.job.cond, c, .blocked⟩)⟩) ∨
      (s.q.err = "" ∧ ¬ MustWait s.q c.job.cond ∧
        perform needsScan c choice s = some (s', lab)) := by
  have hwait : ∃ must : Bool, (must = true ↔ MustWait s.q c.job.cond) ∧
      s.q.waitFor c = s.q.waitIntern must c.timeoutMs := by
    unfold QoreQueue.waitFor
    cases c.job.cond with
    | read => exact ⟨_, by simp [MustWait], rfl⟩
    | write => exact ⟨_, by simp [MustWait], rfl⟩
  obtain ⟨must, hmust, hfor⟩ := hwait
  unfold proceed at h
  rw [hfor, QoreQueue.waitIntern] at h
  by_cases herr : s.q.err = ""
  · simp only [herr, ne_eq, not_true_eq_false, if_false] at h
    cases must with
    | true =>
      have hm := hmust.mp rfl
      simp only [if_true] at h
      by_cases htime : c.timeoutMs ≥ 0
      · rw [if_pos htime] at h
        simp only [Option.some.injEq, Prod.mk.injEq] at h
        exact Or.inr (Or.inl ⟨herr, hm, h.2.symm, h.1.symm⟩)
      · rw [if_neg htime] at h
        simp only [Option.some.injEq, Prod.mk.injEq] at h
        refine Or.inl ⟨Or.inr hm, h.1.symm, _, h.2.symm, ?_⟩
        rw [← h.2]
        exact Label.refused (by simp) (fun v => by simp)
    | false =>
      have hm : ¬ MustWait s.q c.job.cond := fun hm => by simpa using hmust.mpr hm
      exact Or.inr (Or.inr ⟨herr, hm, h⟩)
  · simp only [ne_eq, herr, not_false_eq_true, if_true] at h
    have h' : (some (s, ⟨some c.job, .skip, some (.raised [(s.q.err, s.q.desc)]), 0⟩) :
        Option (State T V × Label V)) = some (s', lab) := by
      cases must <;> exact h
    simp only [Option.some.injEq, Prod.mk.injEq] at h'
    refine Or.inl ⟨Or.inl herr, h'.1.symm, _, h'.2.symm, ?_⟩
    rw [← h'.2]
    exact Label.refused (by simp) (fun v => by simp)

/-- The state in which a thread that leaves its wait runs. -/
def leave (t : T) (c : Cond) (s : State T V) : State T V :=
  ⟨s.q.decWaiting c, Function.update s.threads t none⟩

variable {s s' : State T V} {l : List (Addr × V)} {lab : Label V}

/-- A section that changes no value and no answer of a store or a removal. -/
theorem Moved.skip {q : QoreQueue V} (hc : Contents q l) (hsame : SameQueue q q')
    (hevent : lab.event = .skip) (ha : lab.accepted = []) (hd : lab.delivered = []) :
    Moved q q' l l lab := by
  refine ⟨hc.congr hsame.nodes hsame.free hsame.head hsame.tail, hsame.max, ?_, ⟨?_, ?_⟩, ?_⟩
  · rw [hevent]; exact .skip l
  · rw [hevent, ha]; rfl
  · rw [hevent, hd]; rfl
  · rw [hevent, hsame.free]; exact ticket_skip _

/-- A woken thread leaves its wait. -/
theorem Core.leave (hi : Core s l) {w : Monitor.Wait Cond (Call V)} (ht : s.threads t = some w) :
    Core (leave t w.cond s) l := by
  have hsame := sameQueue_decWaiting s.q w.cond
  refine ⟨hi.contents.congr hsame.nodes hsame.free hsame.head hsame.tail, ?_, ?_, fun c => ?_,
    hi.jobs.update t (fun w hw => by cases hw), fun herr => ?_, fun hq c => ?_⟩
  · rw [show (Queue.leave t w.cond s).q.len = s.q.len from hsame.len]
    exact hi.len
  · rw [show (Queue.leave t w.cond s).q.max = s.q.max from hsame.max]
    exact hi.bound
  · have hup := waiting_update c s.threads t none
    have hc := hi.counts c
    rw [ht] at hup
    simp only [isOn, Bool.toNat_false] at hup
    show (s.q.decWaiting w.cond).counter c = waiting c (Function.update s.threads t none)
    rw [counter_decWaiting]
    omega
  · rw [show (Queue.leave t w.cond s).q.err = s.q.err from hsame.err] at herr
    exact hi.refuse herr
  · have hq' : s.q.len = queueDeleted ∨ s.q.err ≠ "" := by
      rw [← hsame.len, ← hsame.err]
      exact hq
    have hzero := hi.quiet hq' c
    have hup := tally_update c .blocked s.threads t none
    show tally c .blocked (Function.update s.threads t none) = 0
    simp only [isIn, Bool.toNat_false] at hup
    omega

/-- A call that goes on keeps the bound: a writer has seen room. -/
theorem Core.performed (hi : Core s l) (hd : s.q.len ≠ queueDeleted) (herr : s.q.err = "")
    (hgo : ¬ MustWait s.q c.job.cond) (hm : Moved s.q s'.q l l' lab)
    (hp : Performed c choice s s' l l') :
    Core s' l' ∧ s'.q.len ≠ queueDeleted := by
  have hlen := hi.len_eq hd
  have hlen' : s'.q.len = l'.length := by rw [hp.len, hp.length, hlen]
  obtain ⟨choice', hsig⟩ := signalIf_signal (hi.counts _) hp.wakes
  have hlive : s'.q.len ≠ queueDeleted := by
    rw [hlen']
    exact length_ne_deleted l'
  refine ⟨⟨hm.contents, Or.inl hlen', fun hpos => ?_, fun k => ?_, (sameWaits_signal hsig).jobs hi.jobs,
    fun hq => absurd (hp.control.err.trans herr) hq, fun hq => ?_⟩, hlive⟩
  · rw [hp.control.max] at hpos ⊢
    have hb := hi.bound hpos
    have hl := hp.length
    cases hk : c.job.cond with
    | read =>
      rw [hk, Cond.gain] at hl
      omega
    | write =>
      rw [hk, Cond.gain] at hl
      rw [hk, MustWait] at hgo
      omega
  · rw [hp.control.counter, hi.counts, (sameWaits_signal hsig).waiting]
  · rcases hq with hq | hq
    · exact absurd hq hlive
    · exact absurd (hp.control.err.trans herr) hq

/-- A call from its wait function on keeps the invariant and follows the deque. -/
theorem Core.proceed (hi : Core s l) (ht : s.threads t = none) (hd : s.q.len ≠ queueDeleted)
    (h : proceed needsScan t c choice s = some (s', lab)) :
    ∃ l', Core s' l' ∧ Moved s.q s'.q l l' lab ∧ s'.q.len ≠ queueDeleted := by
  rcases proceed_cases needsScan h with ⟨-, rfl, out, hlab, ha, hdel⟩ | ⟨herr, hm, rfl, rfl⟩ |
    ⟨herr, hm, hperform⟩
  · refine ⟨l, hi, Moved.skip hi.contents ⟨rfl, rfl, rfl, rfl, rfl, rfl, rfl⟩ ?_ ha hdel, hd⟩
    rw [hlab]
  · have hsame := sameQueue_incWaiting s.q c.job.cond
    refine ⟨l, ⟨hi.contents.congr hsame.nodes hsame.free hsame.head hsame.tail, ?_, ?_,
      fun k => ?_, hi.jobs.update t (fun w hw => by cases hw; rfl),
      fun hq => absurd (hsame.err.trans herr) hq, fun hq => ?_⟩,
      Moved.skip hi.contents hsame rfl (by cases c.job <;> rfl) rfl,
      fun hdel => hd (hsame.len.symm.trans hdel)⟩
    · rw [show (s.q.incWaiting c.job.cond).len = s.q.len from hsame.len]
      exact hi.len
    · rw [show (s.q.incWaiting c.job.cond).max = s.q.max from hsame.max]
      exact hi.bound
    · have hup := waiting_update k s.threads t (some ⟨c.job.cond, c, .blocked⟩)
      have hc := hi.counts k
      rw [ht] at hup
      simp only [isOn, Bool.toNat_false] at hup
      show (s.q.incWaiting c.job.cond).counter k = waiting k (Function.update s.threads t _)
      rw [counter_incWaiting]
      omega
    · rcases hq with hq | hq
      · exact absurd (hsame.len.symm.trans hq) hd
      · exact absurd (hsame.err.trans herr) hq
  · have hread : c.job.cond = .read → l ≠ [] := by
      intro hk hl
      rw [hk, MustWait] at hm
      exact hm (hi.contents.head_none_iff.mpr hl)
    obtain ⟨l', hmoved, hp⟩ := perform_spec needsScan hi.contents hread hperform
    obtain ⟨hcore, hlive⟩ := hi.performed hd herr hm hmoved hp
    exact ⟨l', hcore, hmoved, hlive⟩

/-! ### The other sections -/

/-- A section that discards the values. -/
theorem Moved.discard {q : QoreQueue V} (hc : Contents q' []) (hfree : q'.free = q.free)
    (hmax : q'.max = q.max) (hevent : lab.event = .discard l) (hjob : lab.job = none)
    (hvalue : ∀ v, lab.result ≠ some (.value v)) : Moved q q' l [] lab := by
  refine ⟨hc, hmax, ?_, ⟨?_, ?_⟩, ?_⟩
  · rw [hevent]; exact .discard l
  · rw [hevent, Label.accepted, hjob]; rfl
  · rw [hevent, Label.delivered]
    split
    · rename_i v hv
      exact absurd hv (hvalue v)
    · rfl
  · rw [hevent, hfree]; exact ticket_discard _ _

/-- What `clear` can do: return, or discard all values and wake a writer. -/
theorem clear_cases (hi : Core s l) (h : clear choice s = some (s', lab)) :
    ((s.q.len = queueDeleted ∨ s.q.err ≠ "" ∨ s.q.readWaiting ≠ 0) ∧ s' = s ∧
        lab.event = .skip ∧ lab.accepted = [] ∧ lab.delivered = []) ∨
      (s.q.len ≠ queueDeleted ∧ s.q.err = "" ∧ s.q.readWaiting = 0 ∧ lab.event = .discard l ∧
        lab.job = none ∧ lab.result = some .done ∧
        ∃ thr, signalIf s.q.writeWaiting .write choice s.threads = some thr ∧
          s' = ⟨{ s.q with nodes := fun _ => none, head := none, tail := none, scanCount := 0,
                           len := 0 }, thr⟩) := by
  unfold clear at h
  rcases checkWriteIntern_cases s.q false with ⟨hcheck, hd, herr⟩ | ⟨hq, out, hcheck, hdone, hvalue⟩
  · rw [hcheck] at h
    by_cases hr : s.q.readWaiting = 0
    · rw [if_neg (not_not.mpr hr), hi.contents.clearIntern] at h
      dsimp only at h
      split at h
      · cases h
      · rename_i thr hthr
        simp only [Option.some.injEq, Prod.mk.injEq] at h
        rw [← h.2]
        exact Or.inr ⟨hd, herr, hr, rfl, rfl, rfl, thr, hthr, h.1.symm⟩
    · rw [if_pos hr] at h
      simp only [Option.some.injEq, Prod.mk.injEq] at h
      rw [← h.2]
      exact Or.inl ⟨Or.inr (Or.inr hr), h.1.symm, rfl, rfl, rfl⟩
  · rw [hcheck] at h
    simp only [Option.some.injEq, Prod.mk.injEq] at h
    rw [← h.2]
    refine Or.inl ⟨?_, h.1.symm, rfl, Label.refused hdone hvalue⟩
    exact hq.imp_right Or.inl

theorem Core.clear (hi : Core s l) (h : clear choice s = some (s', lab)) :
    ∃ l', Core s' l' ∧ Moved s.q s'.q l l' lab ∧
      (s'.q.len = queueDeleted ↔ s.q.len = queueDeleted) := by
  rcases clear_cases hi h with ⟨-, rfl, hevent, ha, hdel⟩ |
    ⟨hd, herr, -, hevent, hjob, hres, thr, hthr, rfl⟩
  · exact ⟨l, hi, Moved.skip hi.contents ⟨rfl, rfl, rfl, rfl, rfl, rfl, rfl⟩ hevent ha hdel, Iff.rfl⟩
  · have hlive : (0 : Int) ≠ queueDeleted := length_ne_deleted ([] : List (Addr × V))
    obtain ⟨choice', hsig⟩ := signalIf_signal (hi.counts .write) hthr
    refine ⟨[], ⟨Contents.empty rfl rfl rfl, Or.inl rfl, fun hpos => Int.le_of_lt hpos,
      fun c => ?_, (sameWaits_signal hsig).jobs hi.jobs, fun _ => rfl, fun hq => ?_⟩,
      Moved.discard (Contents.empty rfl rfl rfl) rfl rfl hevent hjob (fun v => by rw [hres]; simp),
      iff_of_false hlive hd⟩
    · rw [(sameWaits_signal hsig).waiting, ← hi.counts c]
      cases c <;> rfl
    · rcases hq with hq | hq
      · exact absurd hq hlive
      · exact absurd herr hq

/-! ### One critical section -/

theorem call_cases (h : call needsScan t c choice s = some (s', lab)) : s.threads t = none ∧
      ((s' = s ∧ lab.event = .skip ∧ lab.accepted = [] ∧ lab.delivered = []) ∨
        (s.q.len ≠ queueDeleted ∧ s.q.err = "" ∧
          proceed needsScan t c choice s = some (s', lab))) := by
  unfold call at h
  split at h
  · cases h
  · rename_i ht
    refine ⟨ht, ?_⟩
    rcases checkWriteIntern_cases s.q c.job.alwaysError with
      ⟨hcheck, hd, herr⟩ | ⟨-, out, hcheck, hdone, hvalue⟩
    · rw [hcheck] at h
      exact Or.inr ⟨hd, herr, h⟩
    · rw [hcheck] at h
      simp only [Option.some.injEq, Prod.mk.injEq] at h
      rw [← h.2]
      exact Or.inl ⟨h.1.symm, rfl, Label.refused hdone hvalue⟩

theorem resume_cases (h : resume needsScan t choice s = some (s', lab)) :
    ∃ w, s.threads t = some w ∧
      (((w.wake = .timedOut ∨ w.wake = .signalled ∧ s.q.len = queueDeleted) ∧
          s' = leave t w.cond s ∧ lab.event = .skip ∧ lab.accepted = [] ∧ lab.delivered = []) ∨
        (w.wake = .signalled ∧ s.q.len ≠ queueDeleted ∧
          proceed needsScan t w.job choice (leave t w.cond s) = some (s', lab))) := by
  unfold resume at h
  split at h
  · cases h
  · rename_i w ht
    refine ⟨w, ht, ?_⟩
    dsimp only at h
    split at h
    · cases h
    · rename_i hw
      simp only [Option.some.injEq, Prod.mk.injEq] at h
      rw [← h.2]
      exact Or.inl ⟨Or.inl hw, h.1.symm, rfl, Label.refused (by simp) (fun v => by simp)⟩
    · rename_i hw
      rw [show (s.q.decWaiting w.cond).len = s.q.len from (sameQueue_decWaiting s.q w.cond).len] at h
      split at h
      · rename_i hd
        simp only [Option.some.injEq, Prod.mk.injEq] at h
        rw [← h.2]
        exact Or.inl ⟨Or.inr ⟨hw, hd⟩, h.1.symm, rfl,
          Label.refused (by simp [Outcome.deleted]) (fun v => by simp [Outcome.deleted])⟩
      · rename_i hd
        exact Or.inr ⟨hw, hd, h⟩

/-- Every critical section keeps the invariant and follows the deque. Only the destructor
marks the queue as deleted, and nothing takes the mark away. -/
theorem Core.step (hi : Core s l) {a : Action T V} (h : step needsScan s a = some (s', lab)) :
    ∃ l', Core s' l' ∧ Moved s.q s'.q l l' lab ∧
      (s'.q.len = queueDeleted ↔ a = .destructor ∨ s.q.len = queueDeleted) := by
  have hrefl : SameQueue s.q s.q := ⟨rfl, rfl, rfl, rfl, rfl, rfl, rfl⟩
  have hlive : (0 : Int) ≠ queueDeleted := length_ne_deleted ([] : List (Addr × V))
  cases a with
  | call t c choice =>
    obtain ⟨ht, ⟨rfl, hevent, ha, hdel⟩ | ⟨hd, -, hp⟩⟩ := call_cases needsScan h
    · exact ⟨l, hi, Moved.skip hi.contents hrefl hevent ha hdel, by simp⟩
    · obtain ⟨l', hcore, hm, hd'⟩ := hi.proceed needsScan ht hd hp
      exact ⟨l', hcore, hm, by simp [hd, hd']⟩
  | resume t choice =>
    obtain ⟨w, ht, hcase⟩ := resume_cases needsScan h
    have hsame := sameQueue_decWaiting s.q w.cond
    have hlen : (Queue.leave t w.cond s).q.len = s.q.len := hsame.len
    rcases hcase with ⟨-, rfl, hevent, ha, hdel⟩ | ⟨-, hd, hp⟩
    · exact ⟨l, hi.leave ht, Moved.skip hi.contents hsame hevent ha hdel, by simp [hlen]⟩
    · obtain ⟨l', hcore, hm, hd'⟩ := (hi.leave ht).proceed needsScan (Function.update_self _ _ _)
        (by rw [hlen]; exact hd) hp
      have hfree : (Queue.leave t w.cond s).q.free = s.q.free := hsame.free
      exact ⟨l', hcore, ⟨hm.contents, hm.max.trans hsame.max, hm.step, hm.faithful,
        by rw [← hfree]; exact hm.ticket⟩, by simp [hd, hd']⟩
  | expire t =>
    obtain ⟨thr, hthr, rfl, hevent, ha, hdel⟩ := timeout_cases h
    refine ⟨l, ⟨hi.contents, hi.len, hi.bound, fun c => ?_, (sameWaits_expire hthr).jobs hi.jobs, hi.refuse,
      fun hq c => ?_⟩,
      Moved.skip hi.contents hrefl hevent ha hdel, by simp⟩
    · rw [(sameWaits_expire hthr).waiting]
      exact hi.counts c
    · have hle := tally_expire_blocked_le hthr c
      have hzero := hi.quiet hq c
      show tally c .blocked thr = 0
      omega
  | clear choice =>
    obtain ⟨l', hcore, hm, hdel⟩ := hi.clear h
    exact ⟨l', hcore, hm, by simp [hdel]⟩
  | setError err desc =>
    rcases setError_cases hi h with ⟨-, rfl, rfl⟩ | ⟨hd, hevent, hjob, hres, rfl⟩
    · exact ⟨l, hi, Moved.skip hi.contents hrefl rfl rfl rfl, by simp⟩
    · exact ⟨[], hi.emptied (Contents.empty rfl rfl rfl) (Or.inl rfl) (fun c => by cases c <;> rfl),
        Moved.discard (Contents.empty rfl rfl rfl) rfl rfl hevent hjob (fun v => by rw [hres]; simp),
        by simp [hd, hlive]⟩
  | clearError =>
    simp only [Queue.step, clearError, Option.some.injEq] at h
    split at h
    · simp only [Prod.mk.injEq] at h
      rw [← h.1, ← h.2]
      exact ⟨l, hi, Moved.skip hi.contents hrefl rfl rfl rfl, by simp⟩
    · rename_i hd
      simp only [Prod.mk.injEq] at h
      rw [← h.1, ← h.2]
      have hcontents : Contents { s.q with err := "", desc := "" } l :=
        hi.contents.congr rfl rfl rfl rfl
      refine ⟨l, ⟨hcontents, hi.len, hi.bound, fun c => ?_, hi.jobs, fun hq => absurd rfl hq,
        fun hq c => ?_⟩,
        ⟨hcontents, rfl, .skip l, ⟨rfl, rfl⟩, ticket_skip _⟩, by simp⟩
      · rw [← hi.counts c]
        cases c <;> rfl
      · rcases hq with hq | hq
        · exact absurd hq hd
        · exact absurd rfl hq
  | destructor =>
    obtain ⟨hevent, hjob, hres, rfl⟩ := destructor_cases hi h
    exact ⟨[], hi.emptied (Contents.empty rfl rfl rfl) (Or.inr rfl) (fun c => by cases c <;> rfl),
      Moved.discard (Contents.empty rfl rfl rfl) rfl rfl hevent hjob hres, by simp⟩

/-! ### Every run -/

/-- A run of the queue from a new one, seen as a run of the bounded deque that ends with the
values `l`. -/
structure Refines (max : Int) (as : List (Action T V)) (s : State T V) (labs : List (Label V))
    (l : List (Addr × V)) : Prop where
  contents : Contents s.q l
  live : Action.destructor ∉ as → s.q.len = l.length
  deleted : Action.destructor ∈ as → s.q.len = queueDeleted ∧ l = []
  bound : 0 < max → (l.length : Int) ≤ max
  replay : Deque.Replay [] (labs.map Label.event) l
  faithful : ∀ lab ∈ labs, lab.Faithful
  tickets : ((labs.map Label.event).flatMap Deque.Event.added |>.map Prod.fst).Nodup
  account : ((labs.map Label.event).flatMap Deque.Event.added).Perm
    ((labs.map Label.event).flatMap Deque.Event.taken ++
      (labs.map Label.event).flatMap Deque.Event.dropped ++ l)

/-- What a run does, from any state of the invariant. -/
theorem Core.run : ∀ (as : List (Action T V)) (s s' : State T V) (l : List (Addr × V))
    (labs : List (Label V)), Core s l → Lts.run (Queue.step needsScan) s as = some (s', labs) →
    ∃ l', Core s' l' ∧ s'.q.max = s.q.max ∧ Deque.Replay l (labs.map Label.event) l' ∧
      (∀ lab ∈ labs, lab.Faithful) ∧
      (∀ x ∈ (labs.map Label.event).flatMap Deque.Event.added, s.q.free ≤ x.1) ∧
      ((labs.map Label.event).flatMap Deque.Event.added |>.map Prod.fst).Nodup ∧
      (s'.q.len = queueDeleted ↔ Action.destructor ∈ as ∨ s.q.len = queueDeleted) := by
  intro as
  induction as with
  | nil =>
    intro s s' l labs hi h
    obtain ⟨rfl, rfl⟩ := h
    exact ⟨l, hi, rfl, .nil l, by simp, by simp, by simp, by simp⟩
  | cons a as ih =>
    intro s s' l labs hi h
    obtain ⟨s1, lab, labs1, hstep, hrun, rfl⟩ := Lts.run_cons h
    obtain ⟨l1, hi1, hm, hdel⟩ := hi.step needsScan hstep
    obtain ⟨l', hi', hmax, hreplay, hfaithful, hfree, hnodup, hdel'⟩ := ih s1 s' l1 labs1 hi1 hrun
    obtain ⟨hle, hticket, hnd⟩ := hm.ticket
    refine ⟨l', hi', hmax.trans hm.max, .cons hm.step hreplay, ?_, ?_, ?_, ?_⟩
    · exact List.forall_mem_cons.mpr ⟨hm.faithful, hfaithful⟩
    · intro x hx
      rw [List.map_cons, List.flatMap_cons, List.mem_append] at hx
      rcases hx with hx | hx
      · exact (hticket x hx).1
      · exact Nat.le_trans hle (hfree x hx)
    · -- The later additions have addresses that were not given out before this section ended.
      rw [List.map_cons, List.flatMap_cons, List.map_append, List.nodup_append]
      refine ⟨hnd, hnodup, ?_⟩
      intro a1 ha1 a2 ha2 heq
      obtain ⟨x, hx, rfl⟩ := List.mem_map.mp ha1
      obtain ⟨y, hy, rfl⟩ := List.mem_map.mp ha2
      have hlt := (hticket x hx).2
      have hge := hfree y hy
      rw [heq] at hlt
      exact absurd hlt (Nat.not_lt.mpr hge)
    · rw [hdel', hdel, List.mem_cons]
      constructor
      · rintro (hmem | rfl | hs)
        · exact Or.inl (Or.inr hmem)
        · exact Or.inl (Or.inl rfl)
        · exact Or.inr hs
      · rintro ((rfl | hmem) | hs)
        · exact Or.inr (Or.inl rfl)
        · exact Or.inl hmem
        · exact Or.inr (Or.inr hs)

/-- Every run of the queue, for every bound, every number of threads and every interleaving of
the critical sections, is a run of the bounded deque. -/
theorem run_refines (max : Int) (as : List (Action T V)) (s : State T V) (labs : List (Label V))
    (h : Lts.run (step needsScan) (State.init T V max) as = some (s, labs)) :
    ∃ l, Refines max as s labs l := by
  obtain ⟨l, hi, hmax, hreplay, hfaithful, -, hnodup, hdel⟩ :=
    Core.run needsScan as _ s [] labs (Core.init max) h
  have hnew : (State.init T V max).q.len ≠ queueDeleted :=
    length_ne_deleted ([] : List (Addr × V))
  refine ⟨l, hi.contents, fun hlive => ?_, fun hmem => ?_, fun hpos => ?_, hreplay, hfaithful,
    hnodup, ?_⟩
  · exact hi.len_eq fun hd => (hdel.mp hd).elim hlive hnew
  · have hd := hdel.mpr (Or.inl hmem)
    refine ⟨hd, ?_⟩
    rcases hi.len with hlen | hlen
    · exact absurd (hlen.symm.trans hd) (length_ne_deleted l)
    · exact hlen.2
  · rw [← show s.q.max = max from hmax] at hpos ⊢
    exact hi.bound hpos
  · have haccount := hreplay.account
    rwa [List.nil_append] at haccount

end

attribute [local instance] Lts.neZero_two in
/-- A bounded queue with two threads: a reader blocks, a push wakes it, and it takes the
value; a second value is discarded by the destructor. -/
def handover : List (Action (Fin 2) Nat) :=
  [.call 0 ⟨.shift, false, 0⟩ none, .call 1 ⟨.push 7, false, 0⟩ (some 0), .resume 0 none,
    .call 1 ⟨.insert 8, false, 0⟩ none, .destructor]

/-- The events of the run `handover`. -/
theorem run_handover :
    ∃ s labs, Lts.run (step fun _ => false) (State.init (Fin 2) Nat 1) handover = some (s, labs) ∧
      labs.map Label.delivered = [[], [], [7], [], []] ∧
      ∃ l, Refines 1 handover s labs l := by
  have hrun : (Lts.run (step fun _ => false) (State.init (Fin 2) Nat 1) handover).isSome = true := by
    decide
  obtain ⟨r, hr⟩ := Option.isSome_iff_exists.mp hrun
  have hdel : (Lts.run (step fun _ => false) (State.init (Fin 2) Nat 1) handover).map
      (fun r => r.2.map Label.delivered) = some [[], [], [7], [], []] := by
    decide
  rw [hr, Option.map_some, Option.some.injEq] at hdel
  exact ⟨r.1, r.2, hr, hdel, run_refines (fun _ => false) 1 handover r.1 r.2 hr⟩

/-- The length is negative in a reachable state: the mark of a deleted queue. -/
theorem run_deleted_len :
    ¬ ∀ (as : List (Action (Fin 1) Nat)) (s : State (Fin 1) Nat) (labs : List (Label Nat)),
      Lts.run (step fun _ => false) (State.init (Fin 1) Nat 1) as = some (s, labs) →
        0 ≤ s.q.len := by
  intro hall
  have hrun : (Lts.run (step fun _ => false) (State.init (Fin 1) Nat 1) [.destructor]).map
      (fun r => r.1.q.len) = some (-1) := by
    decide
  obtain ⟨r, hr, hlen⟩ := Option.map_eq_some_iff.mp hrun
  have hpos := hall [.destructor] r.1 r.2 hr
  omega

end Qore.Queue
