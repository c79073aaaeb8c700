import Mathlib
import Qore.Queue.Refine

/-!
# `Qore.Queue.ScanCount`: the count of the values that need a scan

The cycle collector visits the private data of an object while `scan_private_data` of the object is
not zero. A queue counts its values that need a scan in `scan_count`, and tells its owning object
when the count leaves or reaches zero.

The system here is any number of queues, each with its threads and its owner. A queue is new or a
copy of another one. Whether a value needs a scan does not change while it is in a queue.

* `scanCounts_iff`: the counts are right in every state of a run exactly when no value that needs a
  scan is taken by `shift` or `pop`, stored without the owner, copied, or left to the destructor.
* `shift_keeps_count`: after an object is taken, the empty queue still counts it.
-/

set_option autoImplicit false

namespace Qore.Queue

open Qore.Lib
open Qore.Lib.Chain
open Qore.Lib.Monitor (Threads waiting)

section
variable {V : Type}

/-! ### The values in a queue, and the copy -/

namespace QoreQueue

/-- The values of the nodes from `w` on. The fuel bounds the number of nodes. -/
def valuesFrom (nodes : Addr → Option (Node V)) : Nat → Option Addr → List V
  | 0, _ => []
  | _ + 1, none => []
  | fuel + 1, some w =>
    match nodes w with
    | none => []
    | some n => n.node :: valuesFrom nodes fuel n.next

/-- The values from `head` on. -/
def values (q : QoreQueue V) : List V := valuesFrom q.nodes q.free q.head

/-- `qore_queue_private(const qore_queue_private& orig)`: the values are pushed one by one, and not
counted. No thread waits on the new queue. -/
def copy (orig : QoreQueue V) : QoreQueue V :=
  let q := { QoreQueue.new V orig.max with err := orig.err, desc := orig.desc }
  if orig.len = queueDeleted then q else orig.values.foldl pushNode q

/-- The number of queued values that need a scan. -/
def scannable (needsScan : V → Bool) (q : QoreQueue V) : Nat := q.values.countP needsScan

end QoreQueue

theorem valuesFrom_eq {nodes : Addr → Option (Node V)} :
    ∀ (l : List (Addr × V)) (p : Option Addr) (fuel : Nat), Linked nodes p l none →
      l.length ≤ fuel → QoreQueue.valuesFrom nodes fuel (first l none) = l.map Prod.snd := by
  intro l
  induction l with
  | nil =>
    intro p fuel _ _
    cases fuel <;> rfl
  | cons x l ih =>
    intro p fuel hl hfuel
    obtain ⟨a, v⟩ := x
    cases fuel with
    | zero => cases hfuel
    | succ fuel =>
      show QoreQueue.valuesFrom nodes (fuel + 1) (some a) = _
      rw [QoreQueue.valuesFrom, hl.1]
      exact congrArg (v :: ·) (ih (some a) fuel hl.2 (Nat.le_of_succ_le_succ hfuel))

namespace Contents

variable {q : QoreQueue V} {l : List (Addr × V)}

theorem values_eq (h : Contents q l) : q.values = l.map Prod.snd := by
  unfold QoreQueue.values
  rw [h.head]
  exact valuesFrom_eq l none q.free h.linked h.length_le_free

theorem scannable_eq (h : Contents q l) (needsScan : V → Bool) :
    q.scannable needsScan = (l.map Prod.snd).countP needsScan := by
  unfold QoreQueue.scannable
  rw [h.values_eq]

end Contents

theorem pushNode_scanCount (q : QoreQueue V) (v : V) : (q.pushNode v).scanCount = q.scanCount := by
  unfold QoreQueue.pushNode QoreQueue.setNext
  split
  · rfl
  · split <;> rfl

theorem insertNode_scanCount (q : QoreQueue V) (v : V) :
    (q.insertNode v).scanCount = q.scanCount := by
  unfold QoreQueue.insertNode QoreQueue.setPrev
  split
  · rfl
  · split <;> rfl

theorem takeHead_scanCount {q q' : QoreQueue V} {x : Addr × V} (h : q.takeHead = some (x, q')) :
    q'.scanCount = q.scanCount := by
  unfold QoreQueue.takeHead QoreQueue.setPrev at h
  dsimp only at h
  split at h
  · cases h
  · split at h
    · cases h
    · split at h
      · cases h
        rfl
      · split at h <;> (cases h; rfl)

theorem takeTail_scanCount {q q' : QoreQueue V} {x : Addr × V} (h : q.takeTail = some (x, q')) :
    q'.scanCount = q.scanCount := by
  unfold QoreQueue.takeTail QoreQueue.setNext at h
  dsimp only at h
  split at h
  · cases h
  · split at h
    · cases h
    · split at h
      · cases h
        rfl
      · split at h <;> (cases h; rfl)

/-- Pushing values one by one. -/
theorem Contents.pushAll : ∀ (vs : List V) {q : QoreQueue V} {l : List (Addr × V)}, Contents q l →
    ∃ l', Contents (vs.foldl QoreQueue.pushNode q) (l ++ l') ∧ l'.map Prod.snd = vs ∧
      (vs.foldl QoreQueue.pushNode q).len = q.len + vs.length ∧
      (vs.foldl QoreQueue.pushNode q).scanCount = q.scanCount ∧
      SameControl q (vs.foldl QoreQueue.pushNode q) := by
  intro vs
  induction vs with
  | nil =>
    intro q l h
    exact ⟨[], by rwa [List.append_nil], rfl, (Int.add_zero _).symm, rfl, rfl, rfl, rfl, rfl⟩
  | cons v vs ih =>
    intro q l h
    obtain ⟨l', hc, hvals, hlen, hscan, hcontrol⟩ := ih (h.pushNode v)
    obtain ⟨hlen1, -, hcontrol1⟩ := Contents.pushNode_control q v
    refine ⟨(q.free, v) :: l', ?_, congrArg (v :: ·) hvals, ?_, ?_, ?_⟩
    · rwa [List.append_assoc] at hc
    · rw [List.foldl_cons, hlen, hlen1, List.length_cons]
      omega
    · rw [List.foldl_cons, hscan, pushNode_scanCount]
    · exact ⟨hcontrol.err.trans hcontrol1.err, hcontrol.max.trans hcontrol1.max,
        hcontrol.readWaiting.trans hcontrol1.readWaiting,
        hcontrol.writeWaiting.trans hcontrol1.writeWaiting⟩

end

/-! ### The owner and the system -/

section
variable {T V : Type} [Fintype T] [DecidableEq T] (needsScan : V → Bool)

/-- A queue with its threads, and `scan_private_data` of the owner. -/
structure Owned (T V : Type) where
  queue : State T V
  scanPrivateData : Int

/-- A new queue, a copy of a queue, or a critical section of one. -/
inductive OwnedAction (T V : Type)
  | new (max : Int)
  | copy (i : Nat)
  | on (i : Nat) (a : Action T V)

/-- One step of the queues. A section tells the owner by `incScanPrivateData` or
`decScanPrivateData`. -/
def ownedStep (os : List (Owned T V)) : OwnedAction T V → Option (List (Owned T V) × Unit)
  | .new max => some (os ++ [⟨State.init T V max, 0⟩], ())
  | .copy i =>
    os[i]?.map fun o => (os ++ [⟨⟨o.queue.q.copy, fun _ => none⟩, 0⟩], ())
  | .on i a =>
    os[i]?.bind fun o => (step needsScan o.queue a).map fun (s, lab) =>
      (os.set i ⟨s, o.scanPrivateData + lab.scan⟩, ())

/-- The collector visits the private data of an owner with so many values. -/
def visited (n : Nat) : Int := if n = 0 then 0 else 1

/-- The count is the number of queued values that need a scan, and the owner is visited while there
is one. -/
def Owned.Counted (o : Owned T V) : Prop :=
  o.queue.q.scanCount = o.queue.q.scannable needsScan ∧
    o.scanPrivateData = visited (o.queue.q.scannable needsScan)

/-! ### When a section counts -/

/-- The wait function of the call returns 0. -/
def QoreQueue.goes (q : QoreQueue V) (c : Call V) : Bool :=
  match q.waitFor c with
  | .go => true
  | _ => false

/-- The call that stores or takes a value in the section. -/
def Action.performs (s : State T V) : Action T V → Option (Call V)
  | .call _ c _ =>
    if (s.q.checkWriteIntern c.job.alwaysError).isNone && s.q.goes c then some c else none
  | .resume t _ =>
    (s.threads t).bind fun w =>
      if w.wake = .signalled ∧ s.q.len ≠ queueDeleted ∧ (s.q.decWaiting w.cond).goes w.job = true then
        some w.job
      else none
  | _ => none

/-- A value that needs a scan is stored with the owner given, and not taken. -/
def Call.Fine (q : QoreQueue V) (c : Call V) : Prop :=
  match c.job with
  | .push v => needsScan v = true → c.self = true
  | .insert v => needsScan v = true → c.self = true
  | .shift => ∀ v ∈ q.values.head?, needsScan v = false
  | .pop => ∀ v ∈ q.values.getLast?, needsScan v = false

/-- The section keeps the count right. -/
def Action.Fine (s : State T V) (a : Action T V) : Prop :=
  (∀ c ∈ a.performs s, c.Fine needsScan s.q) ∧
    (a = .destructor → s.q.scannable needsScan = 0)

/-- The step keeps the counts right. -/
def OwnedAction.Fine (os : List (Owned T V)) : OwnedAction T V → Prop
  | .new _ => True
  | .copy i => ∀ o ∈ os[i]?, o.queue.q.scannable needsScan = 0
  | .on i a => ∀ o ∈ os[i]?, a.Fine needsScan o.queue

/-! ### One section -/

variable {needsScan} {s s' : State T V} {l : List (Addr × V)} {lab : Label V} {c : Call V}
  {choice : Option T} {thr : Threads T Cond (Call V)} {event : Addr × V → Deque.Event (Addr × V)}

/-- The section leaves the right count, and tells the owner about it. -/
def Right (needsScan : V → Bool) (s s' : State T V) (lab : Label V) : Prop :=
  s'.q.scanCount = s'.q.scannable needsScan ∧
    visited (s.q.scannable needsScan) + lab.scan = visited (s'.q.scannable needsScan)

omit [Fintype T] [DecidableEq T] in
theorem right_same {q : QoreQueue V} (hcount : s.q.scanCount = s.q.scannable needsScan)
    (hq : SameQueue s.q q) (hscan : q.scanCount = s.q.scanCount) (hlab : lab.scan = 0) :
    Right needsScan s ⟨q, thr⟩ lab := by
  have hsame : q.scannable needsScan = s.q.scannable needsScan := by
    unfold QoreQueue.scannable QoreQueue.values
    rw [hq.nodes, hq.free, hq.head]
  refine ⟨?_, ?_⟩
  · show q.scanCount = q.scannable needsScan
    rw [hsame, hscan, hcount]
  · show _ = visited (q.scannable needsScan)
    rw [hsame, hlab, Int.add_zero]

/-- A stored value is counted when the owner is given. -/
theorem store_right {node : QoreQueue V → V → QoreQueue V} {v : V}
    (hcount : s.q.scanCount = s.q.scannable needsScan)
    (hkeep : (node s.q v).scanCount = s.q.scanCount)
    (hadd : (node s.q v).scannable needsScan = s.q.scannable needsScan + (needsScan v).toNat)
    (h : store needsScan node event v c choice s = some (s', lab)) :
    Right needsScan s s' lab ↔ (needsScan v = true → c.self = true) := by
  unfold store at h
  dsimp only at h
  split at h
  · cases h
  · rename_i thr _
    obtain ⟨rfl, rfl⟩ := h
    have hq : ∀ k : Int, ({ node s.q v with scanCount := k } : QoreQueue V).scannable needsScan =
        s.q.scannable needsScan + (needsScan v).toNat := fun _ => hadd
    unfold Right
    rw [hq, hkeep, hcount]
    generalize s.q.scannable needsScan = n
    unfold visited
    cases hv : needsScan v with
    | false =>
      simp only [Bool.and_false, Bool.false_and, Bool.false_eq_true, if_false, Bool.toNat_false,
        false_imp_iff, Nat.add_zero, Int.add_zero, and_self]
    | true =>
      cases hself : c.self with
      | false =>
        simp only [Bool.and_true, Bool.false_eq_true, if_false, Bool.toNat_true, true_imp_iff,
          iff_false]
        omega
      | true =>
        -- the owner is told when the count leaves zero
        simp only [Bool.and_self, if_true, Bool.toNat_true, true_imp_iff, iff_true,
          Bool.true_and, decide_eq_true_eq]
        omega

/-- A taken value stays in the count. -/
theorem take_right {node : QoreQueue V → Option ((Addr × V) × QoreQueue V)} {x : Addr × V}
    {q' : QoreQueue V} (hcount : s.q.scanCount = s.q.scannable needsScan)
    (hnode : node s.q = some (x, q')) (hkeep : q'.scanCount = s.q.scanCount)
    (hsub : s.q.scannable needsScan = q'.scannable needsScan + (needsScan x.2).toNat)
    (h : take node event c choice s = some (s', lab)) :
    Right needsScan s s' lab ↔ needsScan x.2 = false := by
  unfold take at h
  rw [hnode] at h
  dsimp only at h
  split at h
  · cases h
  · simp only [Option.some.injEq, Prod.mk.injEq] at h
    obtain ⟨rfl, rfl⟩ := h
    unfold Right
    rw [hkeep, hcount, hsub]
    cases needsScan x.2 with
    | false => simp only [Bool.toNat_false, Nat.add_zero, Int.add_zero, and_self]
    | true =>
      simp only [Bool.toNat_true, Bool.true_eq_false, iff_false]
      omega

theorem perform_right (hc : Contents s.q l) (hcount : s.q.scanCount = s.q.scannable needsScan)
    (hread : c.job.cond = .read → l ≠ []) (h : perform needsScan c choice s = some (s', lab)) :
    Right needsScan s s' lab ↔ c.Fine needsScan s.q := by
  unfold perform at h
  unfold Call.Fine
  cases hj : c.job with
  | push v =>
    simp only [hj] at h
    refine store_right hcount (pushNode_scanCount s.q v) ?_ h
    rw [(hc.pushNode v).scannable_eq, hc.scannable_eq, List.map_append, List.countP_append]
    cases hv : needsScan v <;> simp [hv]
  | insert v =>
    simp only [hj] at h
    refine store_right hcount (insertNode_scanCount s.q v) ?_ h
    rw [(hc.insertNode v).scannable_eq, hc.scannable_eq, List.map_cons, List.countP_cons]
    cases hv : needsScan v <;> simp
  | shift =>
    simp only [hj] at h
    obtain ⟨x, l', rfl⟩ := List.exists_cons_of_ne_nil (hread (by rw [hj]; rfl))
    obtain ⟨q', hq', hc', -⟩ := hc.takeHead
    have hsub : s.q.scannable needsScan = q'.scannable needsScan + (needsScan x.2).toNat := by
      rw [hc'.scannable_eq, hc.scannable_eq, List.map_cons, List.countP_cons]
      cases hv : needsScan x.2 <;> simp
    rw [take_right hcount hq' (takeHead_scanCount hq') hsub h]
    rw [hc.values_eq]
    simp
  | pop =>
    simp only [hj] at h
    have hne := hread (by rw [hj]; rfl)
    obtain ⟨l', x, rfl⟩ : ∃ l' x, l = l' ++ [x] := ⟨_, _, (List.dropLast_append_getLast hne).symm⟩
    obtain ⟨q', hq', hc', -⟩ := hc.takeTail
    have hsub : s.q.scannable needsScan = q'.scannable needsScan + (needsScan x.2).toNat := by
      rw [hc'.scannable_eq, hc.scannable_eq, List.map_append, List.countP_append]
      cases hv : needsScan x.2 <;> simp [hv]
    rw [take_right hcount hq' (takeTail_scanCount hq') hsub h]
    rw [hc.values_eq]
    simp

/-- A call from its wait function on. -/
theorem proceed_right (hc : Contents s.q l) (hcount : s.q.scanCount = s.q.scannable needsScan)
    {t : T} (h : proceed needsScan t c choice s = some (s', lab)) :
    Right needsScan s s' lab ↔ (s.q.goes c = true → c.Fine needsScan s.q) := by
  unfold proceed at h
  unfold QoreQueue.goes
  cases hwait : s.q.waitFor c with
  | go =>
    rw [hwait] at h
    have hread : c.job.cond = .read → l ≠ [] := by
      intro hk hl
      have hhead : s.q.head = none := hc.head_none_iff.mpr hl
      unfold QoreQueue.waitFor QoreQueue.waitReadIntern QoreQueue.waitIntern at hwait
      simp only [hk, hhead, decide_true, if_true] at hwait
      split at hwait
      · cases hwait
      · split at hwait <;> cases hwait
    rw [perform_right hc hcount hread h]
    simp
  | stop out =>
    rw [hwait] at h
    cases h
    exact iff_of_true (right_same hcount ⟨rfl, rfl, rfl, rfl, rfl, rfl, rfl⟩ rfl rfl)
      (fun hgo => absurd hgo Bool.false_ne_true)
  | block =>
    rw [hwait] at h
    cases h
    refine iff_of_true (right_same hcount (sameQueue_incWaiting s.q c.job.cond) ?_ rfl)
      (fun hgo => absurd hgo Bool.false_ne_true)
    cases c.job.cond <;> rfl

omit [Fintype T] [DecidableEq T] in
/-- A section that discards the values resets the count. It tells the owner, but for the
destructor. -/
theorem discard_right (hcount : s.q.scanCount = s.q.scannable needsScan) {q : QoreQueue V}
    (hc : Contents q []) (hscan : q.scanCount = 0) :
    Right needsScan s ⟨q, thr⟩ lab ↔
      lab.scan = if s.q.scanCount ≠ 0 then -1 else 0 := by
  unfold Right
  dsimp only
  rw [hc.scannable_eq, hscan, hcount]
  generalize s.q.scannable needsScan = n
  unfold visited
  simp only [List.map_nil, List.countP_nil, if_true]
  split_ifs <;> omega

theorem call_right (hi : Core s l) (hcount : s.q.scanCount = s.q.scannable needsScan) {t : T}
    (h : call needsScan t c choice s = some (s', lab)) :
    Right needsScan s s' lab ↔ (Action.call t c choice).Fine needsScan s := by
  have hperforms : (Action.call t c choice).performs s =
      if (s.q.checkWriteIntern c.job.alwaysError).isNone && s.q.goes c then some c else none := rfl
  unfold call at h
  unfold Action.Fine
  rw [hperforms]
  cases ht : s.threads t with
  | some w =>
    rw [ht] at h
    cases h
  | none =>
    rw [ht] at h
    cases hcheck : s.q.checkWriteIntern c.job.alwaysError with
    | some out =>
      rw [hcheck] at h
      cases h
      exact iff_of_true (right_same hcount ⟨rfl, rfl, rfl, rfl, rfl, rfl, rfl⟩ rfl rfl)
        ⟨by simp, (by rintro ⟨⟩)⟩
    | none =>
      rw [hcheck] at h
      rw [proceed_right hi.contents hcount h]
      simp

/-- The section after a wait is that of a call from its wait function on, for a thread that has
left the wait. -/
theorem resume_right (hi : Core s l) (hcount : s.q.scanCount = s.q.scannable needsScan) {t : T}
    (h : resume needsScan t choice s = some (s', lab)) :
    Right needsScan s s' lab ↔ (Action.resume t choice : Action T V).Fine needsScan s := by
  unfold resume at h
  unfold Action.Fine
  cases ht : s.threads t with
  | none =>
    rw [ht] at h
    cases h
  | some w =>
    have hperforms : (Action.resume t choice : Action T V).performs s =
        if w.wake = .signalled ∧ s.q.len ≠ queueDeleted ∧
          (s.q.decWaiting w.cond).goes w.job = true then some w.job else none := by
      show (s.threads t).bind _ = _
      rw [ht]
      rfl
    have hdec := sameQueue_decWaiting s.q w.cond
    have hscan : (s.q.decWaiting w.cond).scanCount = s.q.scanCount := by cases w.cond <;> rfl
    have hvalues : (s.q.decWaiting w.cond).values = s.q.values := by
      unfold QoreQueue.values
      rw [hdec.nodes, hdec.free, hdec.head]
    have hscannable : (s.q.decWaiting w.cond).scannable needsScan = s.q.scannable needsScan :=
      congrArg (List.countP needsScan) hvalues
    rw [ht] at h
    rw [hperforms]
    dsimp only at h
    cases hw : w.wake with
    | blocked =>
      rw [hw] at h
      cases h
    | timedOut =>
      rw [hw] at h
      cases h
      exact iff_of_true (right_same hcount hdec hscan rfl) ⟨by simp, (by rintro ⟨⟩)⟩
    | signalled =>
      rw [hw] at h
      rw [hdec.len] at h
      by_cases hd : s.q.len = queueDeleted
      · rw [if_pos hd] at h
        cases h
        exact iff_of_true (right_same hcount hdec hscan rfl) ⟨by simp [hd], (by rintro ⟨⟩)⟩
      · rw [if_neg hd] at h
        have hcount' : (leave t w.cond s).q.scanCount =
            (leave t w.cond s).q.scannable needsScan := by
          show (s.q.decWaiting w.cond).scanCount = (s.q.decWaiting w.cond).scannable needsScan
          rw [hscan, hscannable, hcount]
        have hright := proceed_right (hi.leave ht).contents hcount' h
        have hfine : w.job.Fine needsScan (s.q.decWaiting w.cond) ↔ w.job.Fine needsScan s.q := by
          unfold Call.Fine
          rw [hvalues]
        have hleave : Right needsScan (leave t w.cond s) s' lab ↔ Right needsScan s s' lab := by
          show _ ∧ visited ((s.q.decWaiting w.cond).scannable needsScan) + _ = _ ↔ _
          rw [hscannable]
          exact Iff.rfl
        rw [← hleave, hright]
        show ((s.q.decWaiting w.cond).goes w.job = true →
          w.job.Fine needsScan (s.q.decWaiting w.cond)) ↔ _
        rw [hfine]
        simp [hd]

omit [Fintype T] [DecidableEq T] in
/-- A section other than a call or its rest after a wait, and other than the destructor. -/
theorem fine_of_other {a : Action T V} (hperforms : a.performs s = none) (hne : a ≠ .destructor) :
    a.Fine needsScan s := by
  refine ⟨?_, fun h => absurd h hne⟩
  rw [hperforms]
  simp

variable (needsScan) in
/-- A section keeps the count right exactly when it is fine. -/
theorem step_right (hi : Core s l) (hcount : s.q.scanCount = s.q.scannable needsScan)
    {a : Action T V} (h : step needsScan s a = some (s', lab)) :
    Right needsScan s s' lab ↔ a.Fine needsScan s := by
  have hsame : ∀ {thr : Threads T Cond (Call V)} {lab : Label V}, lab.scan = 0 →
      Right needsScan s ⟨s.q, thr⟩ lab := fun hlab =>
    right_same hcount ⟨rfl, rfl, rfl, rfl, rfl, rfl, rfl⟩ rfl hlab
  cases a with
  | call t c choice => exact call_right hi hcount h
  | resume t choice => exact resume_right hi hcount h
  | expire t =>
    refine iff_of_true ?_ (fine_of_other rfl (by rintro ⟨⟩))
    simp only [step, timeout] at h
    split at h
    · cases h
    · split at h
      · split at h
        · cases h
        · cases h
          exact hsame rfl
      · cases h
  | clear choice =>
    refine iff_of_true ?_ (fine_of_other rfl (by rintro ⟨⟩))
    simp only [step, clear] at h
    split at h
    · cases h
      exact hsame rfl
    · split at h
      · cases h
        exact hsame rfl
      · rw [hi.contents.clearIntern] at h
        dsimp only at h
        split at h
        · cases h
        · cases h
          exact (discard_right hcount (Contents.empty rfl rfl rfl) rfl).mpr rfl
  | setError err desc =>
    refine iff_of_true ?_ (fine_of_other rfl (by rintro ⟨⟩))
    simp only [step, setError] at h
    split at h
    · cases h
      exact hsame rfl
    · rw [hi.contents.clearIntern] at h
      cases h
      exact (discard_right hcount (Contents.empty rfl rfl rfl) rfl).mpr rfl
  | clearError =>
    refine iff_of_true ?_ (fine_of_other rfl (by rintro ⟨⟩))
    simp only [step, clearError, Option.some.injEq] at h
    split at h
    · cases h
      exact hsame rfl
    · cases h
      exact ⟨hcount, Int.add_zero _⟩
  | destructor =>
    simp only [step, destructor] at h
    rw [hi.contents.clearIntern] at h
    cases h
    rw [discard_right hcount (Contents.empty rfl rfl rfl) rfl]
    unfold Action.Fine
    rw [show (Action.destructor : Action T V).performs s = none from rfl, hcount]
    dsimp only
    simp

omit [DecidableEq T] in
/-- The copy has the same values, in new nodes, and has counted none of them. -/
theorem copy_core (hi : Core s l) :
    ∃ l', Core (⟨s.q.copy, fun _ => none⟩ : State T V) l' ∧ l'.map Prod.snd = l.map Prod.snd ∧
      s.q.copy.scanCount = 0 := by
  have hnew : Contents { QoreQueue.new V s.q.max with err := s.q.err, desc := s.q.desc } [] :=
    (Contents.new s.q.max).congr rfl rfl rfl rfl
  obtain ⟨l', hc, hvals, hlen, hscan, hcontrol⟩ := hnew.pushAll s.q.values
  rw [List.nil_append] at hc
  rw [hi.contents.values_eq] at hvals
  have hlength : l'.length = l.length := by
    have hlengths := congrArg List.length hvals
    rwa [List.length_map, List.length_map] at hlengths
  have hidle : ∀ k, waiting k (fun _ : T => (none : Option (Monitor.Wait Cond (Call V)))) = 0 :=
    fun _ => Monitor.count_eq_zero_iff.mpr fun _ => rfl
  -- a deleted queue has no values to push
  have hcopy : s.q.copy = s.q.values.foldl QoreQueue.pushNode
      { QoreQueue.new V s.q.max with err := s.q.err, desc := s.q.desc } := by
    show (if s.q.len = queueDeleted then _ else _) = _
    split
    · rename_i hd
      rcases hi.len with hl | ⟨-, rfl⟩
      · exact absurd (hl.symm.trans hd) (length_ne_deleted l)
      · rw [hi.contents.values_eq]
        rfl
    · rfl
  rw [hcopy]
  refine ⟨l', ⟨hc, Or.inl ?_, fun hpos => ?_, fun k => ?_, ?_, fun herr => ?_, fun _ k => ?_⟩, hvals,
    hscan⟩
  · refine hlen.trans ?_
    rw [hi.contents.values_eq, List.length_map, hlength]
    exact Int.zero_add _
  · have hmax : (List.foldl QoreQueue.pushNode _ s.q.values).max = s.q.max := hcontrol.max
    rw [hmax] at hpos ⊢
    rw [hlength]
    exact hi.bound hpos
  · rw [hidle, hcontrol.counter]
    cases k <;> rfl
  · intro t w ht
    cases ht
  · have herr' : s.q.err ≠ "" := fun he => herr (hcontrol.err.trans he)
    rw [hi.refuse herr', List.map_nil, List.map_eq_nil_iff] at hvals
    exact hvals
  · exact Monitor.count_eq_zero_iff.mpr fun _ => rfl

/-! ### Every run -/

/-- The invariant of all queues. -/
def Sound (os : List (Owned T V)) : Prop := ∀ o ∈ os, ∃ l, Core o.queue l

variable {os os' : List (Owned T V)} {u : Unit} {a : OwnedAction T V}

/-- What one step of the queues does to their list. -/
theorem ownedStep_cases (h : ownedStep needsScan os a = some (os', u)) :
    (∃ max, a = .new max ∧ os' = os ++ [⟨State.init T V max, 0⟩]) ∨
    (∃ i o, a = .copy i ∧ os[i]? = some o ∧ os' = os ++ [⟨⟨o.queue.q.copy, fun _ => none⟩, 0⟩]) ∨
    ∃ i o b s' lab, a = .on i b ∧ os[i]? = some o ∧ step needsScan o.queue b = some (s', lab) ∧
      os' = os.set i ⟨s', o.scanPrivateData + lab.scan⟩ := by
  cases a with
  | new max =>
    cases h
    exact Or.inl ⟨max, rfl, rfl⟩
  | copy i =>
    obtain ⟨o, ho, heq⟩ := Option.map_eq_some_iff.mp h
    cases heq
    exact Or.inr (Or.inl ⟨i, o, rfl, ho, rfl⟩)
  | on i b =>
    obtain ⟨o, ho, hmap⟩ := Option.bind_eq_some_iff.mp h
    obtain ⟨⟨s', lab⟩, hstep, heq⟩ := Option.map_eq_some_iff.mp hmap
    cases heq
    exact Or.inr (Or.inr ⟨i, o, b, s', lab, rfl, ho, hstep, rfl⟩)

theorem Sound.step (hs : Sound os) (h : ownedStep needsScan os a = some (os', u)) : Sound os' := by
  have hadd : ∀ {o : Owned T V}, (∃ l, Core o.queue l) → Sound (os ++ [o]) := by
    intro o ho o' hmem
    rcases List.mem_append.mp hmem with hmem | hmem
    · exact hs o' hmem
    · rw [List.mem_singleton.mp hmem]
      exact ho
  rcases ownedStep_cases h with ⟨max, -, rfl⟩ | ⟨i, o, -, ho, rfl⟩ | ⟨i, o, b, s', lab, -, ho, hstep, rfl⟩
  · exact hadd ⟨[], Core.init max⟩
  · obtain ⟨l, hi⟩ := hs o (List.mem_of_getElem? ho)
    obtain ⟨l', hi', -⟩ := copy_core hi
    exact hadd ⟨l', hi'⟩
  · obtain ⟨l, hi⟩ := hs o (List.mem_of_getElem? ho)
    obtain ⟨l', hi', -⟩ := hi.step needsScan hstep
    intro o' hmem
    rcases List.mem_or_eq_of_mem_set hmem with hmem | rfl
    · exact hs o' hmem
    · exact ⟨l', hi'⟩

/-- The counts of all queues are right. -/
def ScanCounts (needsScan : V → Bool) (os : List (Owned T V)) : Prop :=
  ∀ o ∈ os, o.Counted needsScan

omit [Fintype T] [DecidableEq T] in
/-- A queue is added to queues with right counts. -/
theorem scanCounts_concat (hq : ScanCounts needsScan os) (o : Owned T V) :
    ScanCounts needsScan (os ++ [o]) ↔ o.Counted needsScan := by
  constructor
  · exact fun h => h o (List.mem_append_right _ (List.mem_singleton_self o))
  · intro h o' hmem
    rcases List.mem_append.mp hmem with hmem | hmem
    · exact hq o' hmem
    · rw [List.mem_singleton.mp hmem]
      exact h

theorem ScanCounts.step_iff (hs : Sound os) (hq : ScanCounts needsScan os)
    (h : ownedStep needsScan os a = some (os', u)) :
    ScanCounts needsScan os' ↔ a.Fine needsScan os := by
  rcases ownedStep_cases h with ⟨max, rfl, rfl⟩ | ⟨i, o, rfl, ho, rfl⟩ |
    ⟨i, o, b, s', lab, rfl, ho, hstep, rfl⟩
  · rw [scanCounts_concat hq]
    exact iff_of_true ⟨rfl, rfl⟩ trivial
  · obtain ⟨l, hi⟩ := hs o (List.mem_of_getElem? ho)
    obtain ⟨l', hi', hvals, hscan⟩ := copy_core hi
    have hsame : o.queue.q.copy.scannable needsScan = o.queue.q.scannable needsScan := by
      rw [hi'.contents.scannable_eq, hi.contents.scannable_eq, hvals]
    rw [scanCounts_concat hq]
    unfold Owned.Counted OwnedAction.Fine
    dsimp only
    rw [hsame, hscan, ho]
    unfold visited
    simp only [Option.mem_def, Option.some.injEq, forall_eq']
    split_ifs <;> omega
  · obtain ⟨hcount, hvisit⟩ := hq o (List.mem_of_getElem? ho)
    obtain ⟨l, hi⟩ := hs o (List.mem_of_getElem? ho)
    have hright := step_right needsScan hi hcount hstep
    have hset : ScanCounts needsScan (os.set i ⟨s', o.scanPrivateData + lab.scan⟩) ↔
        (⟨s', o.scanPrivateData + lab.scan⟩ : Owned T V).Counted needsScan := by
      have hlt := (List.getElem?_eq_some_iff.mp ho).1
      refine ⟨fun hall => hall _ (List.mem_set hlt _), fun hone o' hmem => ?_⟩
      rcases List.mem_or_eq_of_mem_set hmem with hmem | rfl
      · exact hq o' hmem
      · exact hone
    rw [hset]
    unfold Owned.Counted OwnedAction.Fine
    dsimp only
    rw [hvisit, ho]
    simp only [Option.mem_def, Option.some.injEq, forall_eq']
    exact hright

variable (needsScan) in
/-- In every run of the queues, the counts are right in every state exactly when every step is
fine. -/
theorem scanCounts_iff (as : List (OwnedAction T V)) :
    Lts.Always (ownedStep needsScan) (ScanCounts needsScan) [] as ↔
      Lts.Along (ownedStep needsScan) (fun os a => a.Fine needsScan os) [] as := by
  refine Lts.always_iff_along (fun os a os' u hs h => hs.step h)
    (fun os a os' u hs hq h => hq.step_iff hs h) as [] ?_ ?_
  · intro o ho
    cases ho
  · intro o ho
    cases ho

end

attribute [local instance] Lts.neZero_one in
/-- An object is pushed to a new queue and taken again. -/
def pushShift : List (OwnedAction (Fin 1) Bool) :=
  [.new (-1), .on 0 (.call 0 ⟨.push true, true, 0⟩ none), .on 0 (.call 0 ⟨.shift, true, 0⟩ none)]

/-- After the object is taken, the empty queue still counts it, and the owner is still visited. -/
theorem shift_keeps_count : ¬Lts.Always (ownedStep id) (ScanCounts id) [] pushShift := by
  intro h
  have hrun : (Lts.run (ownedStep id) [] pushShift).map (fun r => r.1.map fun o =>
      (o.queue.q.scanCount, o.queue.q.values, o.scanPrivateData)) = some [(1, [], 1)] := by
    decide
  obtain ⟨⟨os, us⟩, hos, heq⟩ := Option.map_eq_some_iff.mp hrun
  have hq := Lts.Always.of_run pushShift h hos
  obtain ⟨o, rest, rfl⟩ : ∃ o rest, os = o :: rest := by
    cases os with
    | nil => cases heq
    | cons o rest => exact ⟨o, rest, rfl⟩
  have ho := (List.cons.inj heq).1
  simp only [Prod.mk.injEq] at ho
  obtain ⟨hcount, hvals, -⟩ := ho
  have hc := (hq o (List.mem_cons_self ..)).1
  unfold QoreQueue.scannable at hc
  rw [hcount, hvals] at hc
  cases hc

end Qore.Queue
