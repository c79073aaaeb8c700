import Mathlib
import Qore.Pool.Ownership

/-!
# `Qore.Pool.Allocation`: a thread has a connection while it is in a transaction

`Follows` says that a thread outside the pool has exactly the connections in `tmap` that are in a
transaction which the thread has started.

* `Settled` is what holds of the connection of a thread with at most one call: outside a call it
  is in a transaction, and so it is in a call that has found it allocated.
* `Op.run_kept`: a connection that the helper keeps is in a transaction. The exception is `exec`
  on a new connection whose implicit start of a transaction fails with the connection intact: it
  does not call `releaseNew` as `beginTransaction` does.
* `follows_of_run`: `Follows` holds in every run without such a failure.
-/

set_option autoImplicit false

namespace Qore.Pool

open Qore.Lib
open Datasource (Sound Kept)

variable {T : Type} {s : State T} {fs : List Frame}

/-- A thread in no call has the connections that are in a transaction it has started. -/
def Follows (s : State T) : Prop :=
  ∀ t, s.frames t = [] → ∀ i, i < s.dsp.cmax →
    (s.dsp.tmap t = some i ↔ (s.dsp.pool i).inTransaction = true ∧ s.starter i = some t)

/-- A call that is not that of a statement. -/
theorem Begins.not_statement {d : Replies} {op : Op} {newDs : Bool} {i : Nat}
    (h : Begins s d (.action op newDs (.body i) :: fs)) (m : StatementMethod) (b : Option Nat) :
    op ≠ .statement m b := by
  rintro rfl
  exact h

theorem Begins.boundHere {d : Replies} (h : Begins s d fs) : BoundHere s fs := by
  unfold BoundHere
  split
  · rename_i op _ i _
    intro helse
    cases op with
    | statement m b => exact absurd rfl (h.not_statement m b)
    | _ => cases helse
  · trivial

theorem StartsTransaction.undisturbed {a : Action T} (h : StartsTransaction s a) :
    Undisturbed s a := by
  cases a with
  | checkWaitEnd t => exact h
  | body t d => exact Begins.boundHere h
  | _ => trivial

/-! ### The connection of a thread -/

/-- The connection of a call that has found it allocated is in a transaction. -/
def FrameSettled (s : State T) : Frame → Prop
  | .action _ newDs (.opening i) => newDs = false → (s.dsp.pool i).inTransaction = true
  | .action _ newDs (.body i) => newDs = false → (s.dsp.pool i).inTransaction = true
  | _ => True

/-- The connection of a thread in no call, or in one call. -/
def Settled (s : State T) (t : T) : List Frame → Prop
  | [] => ∀ i, s.dsp.tmap t = some i → (s.dsp.pool i).inTransaction = true
  | [f] => FrameSettled s f
  | _ :: _ :: _ => True

/-- The invariant, with what holds of the connections of the threads. -/
structure OwnedSettled (s : State T) : Prop where
  owned : Owned s
  settled : ∀ t, Settled s t (s.frames t)

theorem OwnedSettled.follows (h : OwnedSettled s) : Follows s := by
  intro t hframes i hi
  have hset := h.settled t
  rw [hframes] at hset
  constructor
  · intro ht
    have hin := hset i ht
    exact ⟨hin, h.owned.core.started t i ht hin⟩
  · rintro ⟨hin, hstarter⟩
    -- a connection in a transaction is not free, and its owner has started the transaction
    rcases h.owned.core.part.cover hi with hfree | ⟨u, hu⟩
    · rw [h.owned.core.idle i hfree] at hin
      cases hin
    · have hut : some u = some t := (h.owned.core.started u i hu hin).symm.trans hstarter
      rw [← Option.some.inj hut]
      exact hu

/-- What holds of the connection of a thread depends on its own entries only. -/
theorem Settled.congr {s' : State T} {u : T} (hmap : s'.dsp.tmap u = s.dsp.tmap u)
    (hpool : ∀ i, s.dsp.tmap u = some i → s'.dsp.pool i = s.dsp.pool i) (hok : StackOk s u fs)
    (h : Settled s u fs) : Settled s' u fs := by
  rcases fs with _ | ⟨f, _ | ⟨g, gs⟩⟩
  · intro i hi
    rw [hmap] at hi
    rw [hpool i hi]
    exact h i hi
  · cases f with
    | action op newDs phase =>
      cases phase with
      | opening i =>
        intro hnew
        rw [hpool i hok.1.1]
        exact h hnew
      | body i =>
        intro hnew
        rw [hpool i hok.1.1]
        exact h hnew
      | _ => trivial
    | cleanup i => trivial
    | destructor => trivial
  · trivial

/-- A call on top of the stack. -/
theorem settled_cons {t : T} {f : Frame} (h : fs = [] → FrameSettled s f) :
    Settled s t (f :: fs) := by
  cases fs with
  | nil => exact h rfl
  | cons g gs => trivial

/-- The stack after the return of the call on top. -/
theorem settled_returnTo {t : T} {raised : Bool} (hfs : ∀ g ∈ fs, InCallback g)
    (h : fs = [] → ∀ i, s.dsp.tmap t = some i → (s.dsp.pool i).inTransaction = true) :
    Settled s t (returnTo raised fs) := by
  cases fs with
  | nil => exact h rfl
  | cons g gs =>
    obtain ⟨op, i, rfl | rfl⟩ := hfs g (by simp)
    · cases raised with
      | false => exact settled_cons fun _ => trivial
      | true => exact settled_cons fun _ => trivial
    · exact settled_cons fun _ => trivial

section
variable {ds ds' : Datasource} {e : Option DsError} {d : Replies} {op : Op} {newDs : Bool}

/-- A connection that the helper keeps is in a transaction. -/
theorem Op.run_kept (hop : ∀ m b, op ≠ .statement m b) (h : Sound ds) (ho : ds.isOpen = true) (hk : ds.keepLock = false)
    (hold : newDs = false → ds.inTransaction = true)
    (hbegin : newDs = true → op = .exec ∨ op = .execRaw → ds.inTransaction = false →
      d.begin ≠ .error)
    (hrun : op.run d ds = (ds', e))
    (hrel : ¬ releases (op.endCmd newDs e.isSome) newDs ds'.keepLock ds'.takeKeepLock.2 = true) :
    ds'.inTransaction = true := by
  obtain ⟨-, heffect⟩ := Op.run_effect hop h ho hk hrun
  have hab : ds'.connectionAborted = false := by
    refine Bool.eq_false_iff.mpr fun hab => hrel ?_
    have hab' : ds'.takeKeepLock.2.connectionAborted = true := hab
    rw [releases, hab', Bool.or_true, Bool.true_or]
  have hnab : ¬ ds'.connectionAborted = true := by rw [hab]; simp
  rw [releases_iff hab] at hrel
  cases heffect with
  | keep hcmd htakes hkept =>
    have hne : op ≠ .beginTransaction := fun hop => by rw [hop] at hcmd; cases hcmd
    rw [Op.endCmd_eq hne, hcmd] at hrel
    refine (hkept.2.resolve_left hnab).mpr ?_
    cases newDs with
    | false => exact .inl (hold rfl)
    | true =>
      refine .inr (Bool.of_not_eq_false fun hkeep => ?_)
      exact hrel (.inr ⟨rfl, rfl, hkeep⟩)
  | begins hin =>
    refine (hin.resolve_left hnab).mpr ?_
    cases newDs with
    | false => exact .inl (hold rfl)
    | true =>
      refine .inr ?_
      cases e with
      | none => rfl
      | some x => exact absurd (.inl (by rw [Op.endCmd_begin]; rfl)) hrel
  | executes hop hin =>
    rcases hin with hab' | hin | ⟨hnot, herror, -⟩
    · exact absurd hab' hnab
    · exact hin
    · cases newDs with
      | false =>
        rw [hold rfl] at hnot
        cases hnot
      | true => exact absurd herror (hbegin rfl hop hnot)
  | ends hcmd hin =>
    have hne : op ≠ .beginTransaction := fun hop => by rw [hop] at hcmd; cases hcmd
    exact absurd (.inl (by rw [Op.endCmd_eq hne, hcmd])) hrel

end

/-! ### The steps -/

section
variable [DecidableEq T] {s s' : State T} {t : T} {fs : List Frame} {lab : Label T} {d : Replies}

theorem settled_setFrames (h : Settled s t fs) :
    Settled (setFrames t fs s) t ((setFrames t fs s).frames t) := by
  have hframes : (setFrames t fs s).frames t = fs := Function.update_self ..
  rw [hframes]
  rcases fs with _ | ⟨f, _ | ⟨g, gs⟩⟩
  · exact h
  · cases f with
    | action op newDs phase => cases phase <;> exact h
    | cleanup i => trivial
    | destructor => trivial
  · trivial

/-- A thread without a connection returns from a call. -/
theorem settled_finish {raised : Bool} (hfs : ∀ g ∈ fs, InCallback g)
    (ht : s.dsp.tmap t = none) : Settled (finish t raised fs s) t ((finish t raised fs s).frames t) :=
  settled_setFrames (settled_returnTo hfs fun _ i hi => by rw [ht] at hi; cases hi)

/-- A new allocation is for a call that has not found its connection allocated. -/
theorem settled_getDSLoop {op : Op} {waitTotal : Nat} :
    Settled (getDSLoop t op waitTotal fs s) t ((getDSLoop t op waitTotal fs s).frames t) := by
  have hallocated : ∀ (s : State T) (i : Nat),
      FrameSettled s (.action op true (allocated i waitTotal)) := by
    intro s i
    rw [allocated]
    split
    · trivial
    · exact fun hnew => by cases hnew
  unfold getDSLoop
  split
  · exact settled_setFrames (settled_cons fun _ => hallocated _ _)
  · split
    · exact settled_setFrames (settled_cons fun _ => hallocated _ _)
    · exact settled_setFrames (settled_cons fun _ => trivial)

theorem settled_getDS {op : Op} (h : Settled s t (s.frames t)) :
    Settled (getDS t op s) t ((getDS t op s).frames t) := by
  unfold getDS
  split
  · rename_i i ht
    refine settled_setFrames (settled_cons fun hnil => ?_)
    rw [hnil] at h
    exact fun _ => h i ht
  · exact settled_getDSLoop

theorem settled_resume {micros : Nat} (ho : Owned s) (hstep : resume t micros s = some (s', lab)) :
    Settled s' t (s'.frames t) := by
  unfold resume at hstep
  split at hstep
  · rename_i w op newDs fs hw hframes
    have hok := ho.stack t
    rw [hframes] at hok
    obtain ⟨⟨-, ht⟩, hfs⟩ := hok
    split at hstep
    · cases hstep
    · dsimp only at hstep
      split at hstep
      · cases hstep
        exact settled_finish hfs ht
      · split at hstep
        · cases hstep
          exact settled_finish hfs ht
        · cases hstep
          exact settled_getDSLoop
  · cases hstep

theorem settled_checkWait (ho : Owned s) (hstep : checkWait t s = some (s', lab)) :
    Settled s' t (s'.frames t) := by
  unfold checkWait at hstep
  split at hstep
  · rename_i op newDs i waitTotal fs hframes
    have hok := ho.stack t
    rw [hframes] at hok
    cases hstep
    refine settled_setFrames (settled_cons fun _ => ?_)
    split
    · exact fun hnew => by rw [hok.1.1] at hnew; cases hnew
    · trivial
  · cases hstep

theorem settled_callbackEnd {raised : Bool} (hstep : callbackEnd t raised s = some (s', lab)) :
    Settled s' t (s'.frames t) := by
  unfold callbackEnd at hstep
  split at hstep
  · cases hstep
    exact settled_setFrames (settled_cons fun _ => trivial)
  · cases hstep

theorem settled_checkWaitEnd (ho : Owned s) (hstep : checkWaitEnd t s = some (s', lab)) :
    Settled s' t (s'.frames t) := by
  unfold checkWaitEnd at hstep
  split at hstep
  · rename_i op newDs i failed fs hframes
    have hok := ho.stack t
    rw [hframes] at hok
    have hnew : newDs = true := hok.1
    cases hstep
    refine settled_setFrames (settled_cons fun _ => ?_)
    split
    · trivial
    · exact fun hold => by rw [hnew] at hold; cases hold
  · cases hstep

theorem settled_openDS {r : Reply} (ho : Owned s) (h : Settled s t (s.frames t))
    (hstep : openDS t r s = some (s', lab)) : Settled s' t (s'.frames t) := by
  unfold openDS at hstep
  split at hstep
  · rename_i op newDs i fs hframes
    rw [hframes] at h
    split at hstep
    · rename_i ds hopen
      obtain ⟨-, hin, -⟩ := Datasource.openDatasource_spec (ho.core.sound i) hopen
      cases hstep
      refine settled_setFrames (settled_cons fun hnil hnew => ?_)
      rw [hnil] at h
      rw [setDatasource_pool, hin]
      exact h hnew
    · cases hstep
      exact settled_setFrames (settled_cons fun _ => trivial)
  · cases hstep

theorem settled_body (ho : Owned s) (h : Settled s t (s.frames t))
    (hbegins : Begins s d (s.frames t)) (hstep : body t d s = some (s', lab)) :
    Settled s' t (s'.frames t) := by
  unfold body at hstep
  split at hstep
  · rename_i op newDs i fs hframes
    have hok := ho.stack t
    rw [hframes] at hok h hbegins
    obtain ⟨⟨ht, hopen, -⟩, hfs⟩ := hok
    have hop := hbegins.not_statement
    have hhere : op.boundElsewhere i = false := by
      cases op with
      | statement m b => exact absurd rfl (hop m b)
      | _ => rfl
    obtain ⟨ds, e, hrun⟩ : ∃ ds e, op.run d (s.dsp.pool i) = (ds, e) := ⟨_, _, rfl⟩
    simp only [hhere, Bool.false_eq_true, ↓reduceIte, hrun, Op.helperEnd_eq hop] at hstep
    split at hstep
    · cases hstep
      exact settled_setFrames (settled_cons fun _ => trivial)
    · rename_i hrel
      cases hstep
      refine settled_setFrames (settled_returnTo hfs fun hnil j hj => ?_)
      -- the thread leaves the pool with the connection that it has used
      have hji : j = i := Option.some.inj (hj.symm.trans ht)
      rw [hnil] at h hbegins
      rw [hji, setDatasource_pool]
      show ds.inTransaction = true
      refine Op.run_kept hop (ho.core.sound i) hopen (ho.core.keep i) h ?_ hrun hrel
      intro hnew hexec
      subst hnew
      rcases hexec with rfl | rfl
      · exact hbegins (.inl rfl)
      · exact hbegins (.inr rfl)
  · cases hstep

theorem settled_cleanup (ho : Owned s) (hstep : cleanup t d s = some (s', lab)) :
    Settled s' t (s'.frames t) := by
  unfold cleanup at hstep
  split at hstep
  · rename_i hguard
    simp only [Bool.and_eq_true] at hguard
    obtain ⟨i, ht⟩ := ho.core.resource t hguard.1
    have ht' : (removeThreadResource t s).dsp.tmap t = some i := ht
    simp only [ht'] at hstep
    cases hstep
    exact settled_setFrames (settled_cons fun _ => trivial)
  · cases hstep

theorem settled_destructor (ho : Owned s) (h : Settled s t (s.frames t))
    (hstep : destructor t d s = some (s', lab)) : Settled s' t (s'.frames t) := by
  unfold destructor at hstep
  split at hstep
  · dsimp only at hstep
    split at hstep
    · cases hstep
      exact h.congr rfl (fun _ _ => rfl) (ho.stack t)
    · split at hstep
      · cases hstep
        exact settled_setFrames (settled_cons fun _ => trivial)
      · cases hstep
        exact h.congr rfl (fun _ _ => rfl) (ho.stack t)
  · cases hstep

theorem GivesBack.settled (h : GivesBack t s s') : Settled s' t (s'.frames t) := by
  obtain ⟨raised, fs, s₁, -, -, hnone, hfs, rfl⟩ := h
  exact settled_finish hfs hnone

variable [Fintype T]

/-- The thread that acts has its connection in a transaction when it leaves the pool. -/
theorem settled_step {a : Action T} (h : OwnedSettled s) (hok : StartsTransaction s a)
    (hstep : step s a = some (s', lab)) : Settled s' a.thread (s'.frames a.thread) := by
  have ho := h.owned
  have hsetting : a.isSetting = true → Settled s' a.thread (s'.frames a.thread) := by
    intro ha
    have heq := step_core_eq ha hstep
    simp only [State.core, Prod.mk.injEq] at heq
    obtain ⟨hpool, htmap, -, -, hframes, -⟩ := heq
    rw [hframes]
    exact (h.settled a.thread).congr (by rw [htmap]) (fun i _ => by rw [hpool]) (ho.stack a.thread)
  cases a with
  | call t op =>
    rw [step] at hstep
    split at hstep
    · cases hstep
      exact settled_getDS (h.settled t)
    · cases hstep
  | resume t micros => exact settled_resume ho hstep
  | checkWait t => exact settled_checkWait ho hstep
  | callbackEnd t raised => exact settled_callbackEnd hstep
  | checkWaitEnd t => exact settled_checkWaitEnd ho hstep
  | openDS t r => exact settled_openDS ho (h.settled t) hstep
  | body t d => exact settled_body ho (h.settled t) hok hstep
  | free t choice => exact (free_givesBack ho hstep).settled
  | cleanup t d => exact settled_cleanup ho hstep
  | cleanupEnd t choice => exact (cleanupEnd_givesBack ho hstep).settled
  | destructor t d => exact settled_destructor ho (h.settled t) hstep
  | expire t => exact hsetting rfl
  | setWarningCallback t ms => exact hsetting rfl
  | clearWarningCallback t => exact hsetting rfl
  | setErrorTimeout t ms => exact hsetting rfl

/-- Every step keeps the invariant with the connections of all threads. -/
theorem OwnedSettled.step {a : Action T} (h : OwnedSettled s) (hok : StartsTransaction s a)
    (hstep : Pool.step s a = some (s', lab)) : OwnedSettled s' := by
  have hmoves := step_moves h.owned hok.undisturbed hstep
  refine ⟨hmoves.owned h.owned, fun u => ?_⟩
  by_cases hu : u = a.thread
  · rw [hu]
    exact settled_step h hok hstep
  · rw [hmoves.others.frames u hu]
    exact (h.settled u).congr (hmoves.others.tmap u hu) (fun i => hmoves.others.pool u i hu)
      (h.owned.stack u)

/-- In every run without a failed implicit start of a transaction on a new connection, a thread
outside the pool has the connections whose transactions it has started. -/
theorem follows_of_run {min max : Nat} {opens : Nat → Reply} {p : DatasourcePool T}
    (hinit : init min max opens = some p) (as : List (Action T))
    (h : Lts.Along step StartsTransaction (State.start p) as) :
    Lts.Always step Follows (State.start p) as := by
  have howned : Owned (State.start p) := Owned.init hinit
  have hstart : OwnedSettled (State.start p) := by
    refine ⟨howned, fun t i hi => ?_⟩
    have hnone : p.tmap t = none := by rw [(init_fresh hinit).owner]
    exact absurd (hnone.symm.trans hi) (by simp)
  have halways : Lts.Always step OwnedSettled (State.start p) as :=
    Lts.always_of_along (fun s a s' lab hs hok hstep => hs.step hok hstep) as _ hstart h
  exact Lts.Always.mono (fun s hs => hs.follows) as _ halways

end

attribute [local instance] Lts.neZero_two in
/-- A statement that fails in its own transaction, a query on the same connection, a start of a
transaction by the other thread that gets no connection in time, and the rollback. -/
def failedStatement : List (Action (Fin 2)) :=
  [.call 0 .exec, .openDS 0 .ok, .body 0 { call := .error }, .call 0 .select, .openDS 0 .ok,
    .body 0 {}, .call 1 .beginTransaction, .expire 1, .resume 1 120000000, .call 0 .rollback,
    .openDS 0 .ok, .body 0 {}, .free 0 none]

theorem follows_failedStatement :
    init 1 1 (fun _ => .ok) = some onePool ∧
      (Lts.run step (State.start onePool) failedStatement).isSome = true ∧
      Lts.Always step Follows (State.start onePool) failedStatement := by
  have hinit : init 1 1 (fun _ => .ok) = some onePool := rfl
  refine ⟨hinit, by decide, follows_of_run hinit _ ?_⟩
  refine Lts.along_of_check (p := fun s a => decide (StartsTransaction s a)) (by simp) _ _ ?_
  decide

/-- The implicit start of a transaction fails, and the thread keeps a connection that is in no
transaction. -/
theorem exec_without_begin :
    ¬ ∀ (min max : Nat) (opens : Nat → Reply) (p : DatasourcePool (Fin 2)),
      init min max opens = some p → ∀ as : List (Action (Fin 2)),
        Lts.Always step Follows (State.start p) as := by
  intro hall
  let as : List (Action (Fin 2)) := [.call 0 .exec, .openDS 0 .ok, .body 0 { begin := .error }]
  have hrun : (Lts.run step (State.start onePool) as).map
      (fun r => ((r.1.frames 0).isEmpty, r.1.dsp.cmax, r.1.dsp.tmap 0,
        (r.1.dsp.pool 0).inTransaction)) = some (true, 1, some 0, false) := by
    decide
  obtain ⟨r, hr, hstate⟩ := Option.map_eq_some_iff.mp hrun
  simp only [Prod.mk.injEq, List.isEmpty_iff] at hstate
  obtain ⟨hframes, hcmax, ht, hin⟩ := hstate
  have hfollows := Lts.Always.of_run as (hall 1 1 (fun _ => .ok) onePool rfl as) hr
  have hboth := (hfollows 0 hframes 0 (by rw [hcmax]; exact Nat.one_pos)).mp ht
  rw [hin] at hboth
  cases hboth.1

end Qore.Pool
