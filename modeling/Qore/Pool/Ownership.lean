import Mathlib
import Qore.Pool.Invariant

/-!
# `Qore.Pool.Ownership`: every connection is free or has one owner

`Exclusive` says that every connection is in `freeList` once or in `tmap` for one thread, that
a connection is used by its owner only, and that a free connection is in no transaction.

* `step_moves`: every step keeps the invariant under the condition `Undisturbed`. The warning
  callback may use the pool, and then `checkWait` has to return with the connection still
  allocated to the thread and in no transaction that the call cannot take over. A statement that
  is bound to another connection makes the thread release its own one.
* `exclusive_of_run`: `Exclusive` holds in every run whose steps meet the condition.
* `commit_in_callback`: a callback that ends a transaction of its own gives the connection away
  under the call that it belongs to.
-/

set_option autoImplicit false

namespace Qore.Pool

open Qore.Lib
open Datasource (Sound Kept)

variable {T : Type}

/-! ### The properties -/

/-- The thread works on the connection. -/
def Uses (s : State T) (t : T) (i : Nat) : Prop :=
  match s.frames t with
  | .action _ _ (.opening j) :: _ => j = i
  | .action _ _ (.body j) :: _ => j = i
  | .cleanup j :: _ => j = i
  | _ => False

/-- Every connection is free once or has one owner, two threads never work on one connection, a
free connection is in no transaction, and no iterator at the end of `tmap` was used. -/
structure Exclusive (s : State T) : Prop where
  once : ∀ i, i < s.dsp.cmax →
    (s.dsp.freeList.count i = 1 ∧ ∀ t, s.dsp.tmap t ≠ some i) ∨
      (s.dsp.freeList.count i = 0 ∧ ∃! t, s.dsp.tmap t = some i)
  used : ∀ t u i, Uses s t i → Uses s u i → t = u
  idle : ∀ i, i ∈ s.dsp.freeList → (s.dsp.pool i).inTransaction = false
  defined : s.broken = false

/-- When `checkWait` returns, the thread still has its connection, and the connection is in no
transaction, unless the callback succeeded and the action goes on with it. -/
def StillHas (s : State T) (t : T) : List Frame → Prop
  | .action op _ (.checked i failed) :: _ =>
    s.dsp.tmap t = some i ∧
      ((s.dsp.pool i).inTransaction = true → failed = false ∧ op.takesTransaction = true)
  | _ => True

instance (s : State T) (t : T) : DecidablePred (StillHas s t) := fun fs => by
  unfold StillHas
  split <;> infer_instance

/-- A thread that uses a statement which is bound to another connection is in no transaction on its
own one. -/
def BoundHere (s : State T) : List Frame → Prop
  | .action op _ (.body i) :: _ =>
    op.boundElsewhere i = true → (s.dsp.pool i).inTransaction = false
  | _ => True

instance (s : State T) : DecidablePred (BoundHere s) := fun fs => by
  unfold BoundHere
  split <;> infer_instance

/-- The warning callback has not disturbed the call that it belongs to, and no statement releases
the connection of another transaction. -/
def Undisturbed (s : State T) : Action T → Prop
  | .checkWaitEnd t => StillHas s t (s.frames t)
  | .body t _ => BoundHere s (s.frames t)
  | _ => True

instance (s : State T) : DecidablePred (Undisturbed s) := fun a => by
  unfold Undisturbed
  split <;> infer_instance

/-- The implicit start of a transaction by a call outside a callback on a new connection does not
fail with the connection intact, and the call is not that of a statement. -/
def Begins (s : State T) (d : Replies) : List Frame → Prop
  | .action (.statement _ _) _ (.body _) :: _ => False
  | [.action op true (.body i)] =>
    op = .exec ∨ op = .execRaw → (s.dsp.pool i).inTransaction = false → d.begin ≠ .error
  | _ => True

instance (s : State T) (d : Replies) : DecidablePred (Begins s d) := fun fs => by
  unfold Begins
  split <;> infer_instance

/-- The warning callback has not disturbed its call, and `exec` could start a transaction on a
new connection. -/
def StartsTransaction (s : State T) : Action T → Prop
  | .checkWaitEnd t => StillHas s t (s.frames t)
  | .body t d => Begins s d (s.frames t)
  | _ => True

instance (s : State T) : DecidablePred (StartsTransaction s) := fun a => by
  unfold StartsTransaction
  split <;> infer_instance

/-- A thread that works on a connection owns it. -/
theorem Owned.owner {s : State T} (h : Owned s) {t : T} {i : Nat} (hu : Uses s t i) :
    s.dsp.tmap t = some i := by
  have hok := h.stack t
  unfold Uses at hu
  split at hu
  all_goals rename_i hfs
  · rw [hfs] at hok
    rw [← hu]
    exact hok.1.1
  · rw [hfs] at hok
    rw [← hu]
    exact hok.1.1
  · rw [hfs] at hok
    rw [← hu]
    exact hok.1.1
  · exact hu.elim

theorem Owned.exclusive {s : State T} (h : Owned s) : Exclusive s where
  once := fun _ hi => h.core.part.exclusive hi
  used := fun _ _ _ ht hu => h.core.part.unique (h.owner ht) (h.owner hu)
  idle := h.core.idle
  defined := h.core.defined

/-! ### The steps of a call -/

section
variable [DecidableEq T] {s s' : State T} {t : T} {fs : List Frame} {lab : Label T}

/-- The loop of `getDSIntern`: a free connection, a new one, or a wait. -/
theorem getDSLoop_moves {op : Op} {waitTotal : Nat} (h : Core s) (ht : s.dsp.tmap t = none)
    (hfs : ∀ g ∈ fs, InCallback g) : Moves t s (getDSLoop t op waitTotal fs s) := by
  unfold getDSLoop
  split
  · rename_i i rest hlist
    have hpart : Partition (fun j => j < s.dsp.cmax) rest
        (Function.update s.dsp.tmap t (some i)) := by
      have hfull := h.part
      rw [hlist] at hfull
      exact hfull.take ht
    have hi : (s.dsp.pool i).inTransaction = false := h.idle i (by rw [hlist]; simp)
    obtain ⟨hcore, hothers⟩ := h.assign s.dsp.pool s.starter hpart
      (fun j hj => by rw [hlist]; exact List.mem_cons_of_mem i hj) hi (h.sound i) (h.keep i)
      (fun _ _ => rfl) fun _ _ => rfl
    exact Moves.setFrames hcore hothers
      (stackOk_allocated (Function.update_self ..) hi hfs)
  · rename_i hlist
    split
    · have hpart : Partition (fun j => j < s.dsp.cmax + 1) s.dsp.freeList
          (Function.update s.dsp.tmap t (some s.dsp.cmax)) :=
        h.part.grow ht (Nat.lt_irrefl _) fun j => Nat.lt_succ_iff_lt_or_eq
      have hnew : Function.update s.dsp.pool s.dsp.cmax Datasource.config s.dsp.cmax =
          Datasource.config := Function.update_self ..
      obtain ⟨hcore, hothers⟩ := h.assign
        (Function.update s.dsp.pool s.dsp.cmax Datasource.config)
        (Function.update s.starter s.dsp.cmax none) hpart
        (fun j hj => hj) (by rw [hnew]; rfl) (by rw [hnew]; exact Sound.config) (by rw [hnew]; rfl)
        (fun j hj => Function.update_of_ne hj ..) fun j hj => Function.update_of_ne hj ..
      exact Moves.setFrames hcore hothers
        (stackOk_allocated (Function.update_self ..) (congrArg Datasource.inTransaction hnew) hfs)
    · refine Moves.setFrames ?_ ?_ ⟨⟨rfl, ht⟩, hfs⟩
      · exact ⟨h.part, h.sound, h.keep, h.idle, h.started, h.resource, h.defined⟩
      · exact ⟨fun _ _ => rfl, fun _ _ _ _ => rfl, fun _ _ => rfl, fun _ _ => rfl⟩

theorem getDS_moves {op : Op} (h : Owned s) (hcall : canCall op (s.frames t) = true) :
    Moves t s (getDS t op s) := by
  have hfs := inCallback_of_canCall hcall (h.stack t)
  unfold getDS
  split
  · rename_i i ht
    exact Moves.setFrames h.core .refl ⟨⟨ht, fun hnew => by cases hnew⟩, hfs⟩
  · rename_i ht
    exact getDSLoop_moves h.core ht hfs

theorem resume_moves {micros : Nat} (h : Owned s) (hstep : resume t micros s = some (s', lab)) :
    Moves t s s' := by
  unfold resume at hstep
  split at hstep
  · rename_i w op newDs fs hw hframes
    have hok := h.stack t
    rw [hframes] at hok
    obtain ⟨⟨-, ht⟩, hfs⟩ := hok
    -- nothing in the pool and no other thread depends on the wait
    obtain ⟨hcore, hothers, -⟩ : Moves t s (leaveWait t s) := Moves.of_core_eq h rfl
    split at hstep
    · cases hstep
    · dsimp only at hstep
      split at hstep
      · cases hstep
        exact Moves.finish hcore hothers hfs
      · split at hstep
        · cases hstep
          exact Moves.finish hcore hothers hfs
        · cases hstep
          have hmoves : Moves t (leaveWait t s)
              (getDSLoop t op (w.job.waitTotal + micros) fs (leaveWait t s)) :=
            getDSLoop_moves hcore ht hfs
          exact ⟨hmoves.core, hothers.trans hmoves.others, hmoves.stack⟩
  · cases hstep

theorem checkWait_moves (h : Owned s) (hstep : checkWait t s = some (s', lab)) : Moves t s s' := by
  unfold checkWait at hstep
  split at hstep
  · rename_i op newDs i waitTotal fs hframes
    have hok := h.stack t
    rw [hframes] at hok
    obtain ⟨⟨hnew, ht, hin⟩, hfs⟩ := hok
    cases hstep
    refine Moves.setFrames h.core .refl ?_
    split
    · exact ⟨⟨ht, fun _ hin' => by rw [hin] at hin'; cases hin'⟩, hfs⟩
    · exact ⟨hnew, hfs⟩
  · cases hstep

theorem callbackEnd_moves {raised : Bool} (h : Owned s)
    (hstep : callbackEnd t raised s = some (s', lab)) : Moves t s s' := by
  unfold callbackEnd at hstep
  split at hstep
  · rename_i op newDs i fs hframes
    have hok := h.stack t
    rw [hframes] at hok
    cases hstep
    exact Moves.setFrames h.core .refl ⟨hok.1, hok.2⟩
  · cases hstep

/-- `checkWait` returns, and the callback has not disturbed the call. -/
theorem checkWaitEnd_moves (h : Owned s) (hstill : StillHas s t (s.frames t))
    (hstep : checkWaitEnd t s = some (s', lab)) : Moves t s s' := by
  unfold checkWaitEnd at hstep
  split at hstep
  · rename_i op newDs i failed fs hframes
    have hok := h.stack t
    rw [hframes] at hok hstill
    obtain ⟨ht, hin⟩ := hstill
    cases hstep
    refine Moves.setFrames h.core .refl ?_
    split
    · rename_i hfailed
      have hnot : (s.dsp.pool i).inTransaction = false :=
        Bool.eq_false_iff.mpr fun htrue => by rw [(hin htrue).1] at hfailed; cases hfailed
      exact ⟨⟨i, ht, hnot⟩, hok.2⟩
    · exact ⟨⟨ht, fun _ htrue => (hin htrue).2⟩, hok.2⟩
  · cases hstep

theorem openDS_moves {r : Reply} (h : Owned s) (hstep : openDS t r s = some (s', lab)) :
    Moves t s s' := by
  unfold openDS at hstep
  split at hstep
  · rename_i op newDs i fs hframes
    have hok := h.stack t
    rw [hframes] at hok
    obtain ⟨⟨ht, htakes⟩, hfs⟩ := hok
    split at hstep
    · rename_i ds hopen
      obtain ⟨hs, hin, hk, hisOpen, -⟩ := Datasource.openDatasource_spec (h.core.sound i) hopen
      cases hstep
      refine Moves.setFrames (h.core.setDatasource ht hs (hk.trans (h.core.keep i)))
        (othersKeep_setDatasource h.core ht) ⟨⟨ht, ?_, ?_⟩, hfs⟩
      · rw [setDatasource_pool]
        exact hisOpen rfl
      · rw [setDatasource_pool, hin]
        exact htakes
    · rename_i ds e hopen
      obtain ⟨hs, -, hk, -, hnot⟩ := Datasource.openDatasource_spec (h.core.sound i) hopen
      cases hstep
      refine Moves.setFrames (h.core.setDatasource ht hs (hk.trans (h.core.keep i)))
        (othersKeep_setDatasource h.core ht) ⟨⟨i, ht, ?_⟩, hfs⟩
      rw [setDatasource_pool]
      exact hnot (by simp)
  · cases hstep

end

section
variable {ds ds' : Datasource} {e : Option DsError} {d : Replies} {op : Op} {newDs : Bool}

/-- How an action leaves its connection: an action that does not change the transaction, the
start of a transaction, a statement with its implicit start, and the end of a transaction. -/
inductive Effect (d : Replies) (ds ds' : Datasource) (e : Option DsError) : Op → Prop
  | keep {op : Op} (hcmd : op.cmd = .nochange) (htakes : op.takesTransaction = false)
    (hkept : Kept ds ds') : Effect d ds ds' e op
  | begins (hin : ds'.connectionAborted = true ∨
      (ds'.inTransaction = true ↔ ds.inTransaction = true ∨ e = none)) :
    Effect d ds ds' e .beginTransaction
  | executes {op : Op} (hop : op = .exec ∨ op = .execRaw)
    (hin : ds'.connectionAborted = true ∨ ds'.inTransaction = true ∨
      (ds.inTransaction = false ∧ d.begin = .error ∧ ds' = ds)) : Effect d ds ds' e op
  | ends {op : Op} (hcmd : op.cmd = .release) (hin : ds'.inTransaction = false) :
    Effect d ds ds' e op

theorem Op.run_effect (hop : ∀ m b, op ≠ .statement m b) (h : Sound ds) (ho : ds.isOpen = true)
    (hk : ds.keepLock = false) (hrun : op.run d ds = (ds', e)) :
    Sound ds' ∧ Effect d ds ds' e op := by
  have hkeep : op.cmd = .nochange → op.takesTransaction = false → Kept ds ds' →
      Sound ds' ∧ Effect d ds ds' e op := fun hcmd htakes hkept => ⟨hkept.1, .keep hcmd htakes hkept⟩
  cases op with
  | statement m b => exact absurd rfl (hop m b)
  | select => exact hkeep rfl rfl (Datasource.kept_query h ho hk hrun)
  | selectRow => exact hkeep rfl rfl (Datasource.kept_query h ho hk hrun)
  | selectRows => exact hkeep rfl rfl (Datasource.kept_query h ho hk hrun)
  | describe => exact hkeep rfl rfl (Datasource.kept_query h ho hk hrun)
  | getServerVersion => exact hkeep rfl rfl (Datasource.kept_call h hk hrun)
  | getDriverRealName => exact hkeep rfl rfl (Datasource.kept_call h hk hrun)
  | getConfigHash =>
    cases hrun
    exact hkeep rfl rfl ⟨h, .inr (by simp [hk])⟩
  | getConfigString =>
    cases hrun
    exact hkeep rfl rfl ⟨h, .inr (by simp [hk])⟩
  | beginTransaction =>
    obtain ⟨hs, hin⟩ := Datasource.beginTransaction_spec h ho hrun
    exact ⟨hs, .begins hin⟩
  | exec =>
    obtain ⟨hs, hin⟩ := Datasource.execInternal_spec h ho hk hrun
    exact ⟨hs, .executes (.inl rfl) hin⟩
  | execRaw =>
    obtain ⟨hs, hin⟩ := Datasource.execInternal_spec h ho hk hrun
    exact ⟨hs, .executes (.inr rfl) hin⟩
  | commit =>
    obtain ⟨hs, hin, -⟩ := Datasource.endTransaction_spec h hrun
    exact ⟨hs, .ends rfl hin⟩
  | rollback =>
    obtain ⟨hs, hin, -⟩ := Datasource.endTransaction_spec h hrun
    exact ⟨hs, .ends rfl hin⟩

/-- How a method of a statement leaves its connection. -/
theorem StatementMethod.run_spec {m : StatementMethod} (h : Sound ds) (ho : ds.isOpen = true)
    (hrun : m.run d ds = (ds', e)) :
    Sound ds' ∧ ds'.keepLock = ds.keepLock ∧ (m.cmd = .release → ds'.inTransaction = false) ∧
      (m.cmd = .nochange → ds'.inTransaction = true → ds.inTransaction = true) := by
  have hend : ∀ {ds₁ ds₂ : Datasource} {e₁ e₂ : Option DsError}, ds.closeStatement d = (ds₁, e₁) →
      ds₁.endIntern d.call = (ds₂, e₂) →
      Sound ds₂ ∧ ds₂.keepLock = ds.keepLock ∧ ds₂.inTransaction = false := by
    intro ds₁ ds₂ e₁ e₂ hclose hintern
    obtain ⟨hs, hk, -⟩ := Datasource.closeStatement_spec h ho hclose
    obtain ⟨hs', hin, hk'⟩ := Datasource.endIntern_spec hs hintern
    exact ⟨hs', hk'.trans hk, hin⟩
  cases m with
  | close =>
    obtain ⟨hs, hk, hin⟩ := Datasource.closeStatement_spec h ho hrun
    exact ⟨hs, hk, by simp [StatementMethod.cmd], fun _ => hin⟩
  | use =>
    obtain ⟨hs, hk, -⟩ := Datasource.statementCalls_spec h ho hrun
    exact ⟨hs, hk, by simp [StatementMethod.cmd], by simp [StatementMethod.cmd]⟩
  | beginTransaction =>
    obtain ⟨hs, hk⟩ := Datasource.beginTransaction_keep h ho hrun
    exact ⟨hs, hk, by simp [StatementMethod.cmd], by simp [StatementMethod.cmd]⟩
  | commit =>
    cases hrun
    obtain ⟨hs, hk, hin⟩ := hend rfl rfl
    exact ⟨hs, hk, fun _ => hin, by simp [StatementMethod.cmd]⟩
  | rollback =>
    cases hrun
    obtain ⟨hs, hk, hin⟩ := hend rfl rfl
    exact ⟨hs, hk, fun _ => hin, by simp [StatementMethod.cmd]⟩

theorem Op.helperEnd_eq (hop : ∀ m b, op ≠ .statement m b) (raised : Bool) (ds : Datasource) :
    op.helperEnd newDs raised ds =
      (releases (op.endCmd newDs raised) newDs ds.keepLock ds.takeKeepLock.2,
        ds.takeKeepLock.2) := by
  cases op with
  | statement m b => exact absurd rfl (hop m b)
  | _ => rfl

theorem Op.helperEnd_inTransaction (op : Op) (newDs raised : Bool) (ds : Datasource) :
    (op.helperEnd newDs raised ds).2.inTransaction = ds.inTransaction := by
  cases op <;> rfl

/-- `releaseNew` changes the command of `beginTransaction` only. -/
theorem Op.endCmd_eq {raised : Bool} (hop : op ≠ .beginTransaction) :
    op.endCmd newDs raised = op.cmd :=
  if_neg fun hc => hop hc.1

theorem Op.endCmd_begin {raised : Bool} :
    Op.beginTransaction.endCmd newDs raised = if raised = true ∧ newDs = true then .release else .acquire := by
  simp [Op.endCmd, Op.cmd]

/-- When the helper keeps a connection that is not lost, and when it releases it. -/
theorem releases_iff {cmd : Cmd} (hab : ds'.connectionAborted = false) :
    releases cmd newDs ds'.keepLock ds'.takeKeepLock.2 = true ↔
      cmd = .release ∨ (newDs = true ∧ cmd = .nochange ∧ ds'.keepLock = false) := by
  have hab' : ds'.takeKeepLock.2.connectionAborted = false := hab
  rw [releases, hab', Bool.or_false, Bool.or_eq_true]
  simp [and_assoc]

/-- The action leaves a sound connection, without the flag of an open statement. -/
theorem Op.run_sound (newDs : Bool) (h : Sound ds) (ho : ds.isOpen = true) (hk : ds.keepLock = false)
    (hrun : op.run d ds = (ds', e)) (raised : Bool) :
    Sound (op.helperEnd newDs raised ds').2 ∧
      (op.helperEnd newDs raised ds').2.keepLock = false := by
  by_cases hop : ∀ m b, op ≠ .statement m b
  · rw [Op.helperEnd_eq hop]
    exact ⟨(Op.run_effect hop h ho hk hrun).1.takeKeepLock, rfl⟩
  · push Not at hop
    obtain ⟨m, b, rfl⟩ := hop
    obtain ⟨hs, hk', -⟩ := StatementMethod.run_spec h ho hrun
    exact ⟨hs, hk'.trans hk⟩

/-- A connection that the helper releases is in no transaction, when the action started on one
in no transaction or goes on with it. -/
theorem Op.run_released (h : Sound ds) (ho : ds.isOpen = true) (hk : ds.keepLock = false)
    (htakes : newDs = true → ds.inTransaction = true → op.takesTransaction = true)
    (hrun : op.run d ds = (ds', e)) (hrel : (op.helperEnd newDs e.isSome ds').1 = true) :
    ds'.inTransaction = false := by
  by_cases hop : ∀ m b, op ≠ .statement m b
  case neg =>
    push Not at hop
    obtain ⟨m, b, rfl⟩ := hop
    obtain ⟨hs, -, hends, hkeeps⟩ := StatementMethod.run_spec h ho hrun
    simp only [Op.helperEnd, Bool.or_eq_true, Bool.and_eq_true, decide_eq_true_eq,
      Bool.not_eq_true'] at hrel
    rcases hrel with ((hcmd | hab) | hclosed) | ⟨hnew, hcmd⟩
    · exact hends hcmd
    · exact hs.not_inTransaction_of_aborted hab
    · exact hs.not_inTransaction (by rw [hclosed]; simp)
    · refine Bool.eq_false_iff.mpr fun hin => ?_
      have htrue := htakes hnew (hkeeps hcmd hin)
      simp [Op.takesTransaction, hcmd] at htrue
  rw [Op.helperEnd_eq hop] at hrel
  obtain ⟨hs, heffect⟩ := Op.run_effect hop h ho hk hrun
  by_cases hab : ds'.connectionAborted = true
  · exact hs.not_inTransaction_of_aborted hab
  rw [releases_iff (Bool.eq_false_iff.mpr hab)] at hrel
  refine Bool.eq_false_iff.mpr fun hin => ?_
  cases heffect with
  | keep hcmd hnot hkept =>
    -- the helper releases a new connection only, and no statement stays open on it
    have hne : op ≠ .beginTransaction := fun hop => by rw [hop] at hcmd; cases hcmd
    rw [Op.endCmd_eq hne, hcmd] at hrel
    obtain ⟨hnew, -, hkeep⟩ := hrel.resolve_left (by simp)
    rcases (hkept.2.resolve_left hab).mp hin with hold | hkeep'
    · rw [htakes hnew hold] at hnot
      cases hnot
    · rw [hkeep] at hkeep'
      cases hkeep'
  | begins hbegin =>
    -- `releaseNew` after an exception on a new connection
    rw [Op.endCmd_begin] at hrel
    split at hrel
    · rename_i hraised
      rcases (hbegin.resolve_left hab).mp hin with hold | hnone
      · exact absurd (htakes hraised.2 hold) (by simp [Op.takesTransaction])
      · rw [hnone] at hraised
        cases hraised.1
    · simp at hrel
  | executes hop _ =>
    rcases hop with rfl | rfl
    · rw [Op.endCmd_eq (by simp)] at hrel
      simp [Op.cmd] at hrel
    · rw [Op.endCmd_eq (by simp)] at hrel
      simp [Op.cmd] at hrel
  | ends _ hfalse =>
    rw [hfalse] at hin
    cases hin

end

section
variable [DecidableEq T] {s s' : State T} {t : T} {lab : Label T} {d : Replies}

theorem body_moves (h : Owned s) (hhere : BoundHere s (s.frames t))
    (hstep : body t d s = some (s', lab)) : Moves t s s' := by
  unfold body at hstep
  split at hstep
  · rename_i op newDs i fs hframes
    have hok := h.stack t
    rw [hframes] at hok hhere
    obtain ⟨⟨ht, ho, htakes⟩, hfs⟩ := hok
    split at hstep
    · rename_i helse
      cases hstep
      exact Moves.setFrames h.core .refl ⟨⟨i, ht, hhere helse⟩, hfs⟩
    · obtain ⟨ds, e, hrun⟩ : ∃ ds e, op.run d (s.dsp.pool i) = (ds, e) := ⟨_, _, rfl⟩
      obtain ⟨hs, hk⟩ := Op.run_sound newDs (h.core.sound i) ho (h.core.keep i) hrun
        e.isSome
      have hcore := h.core.setDatasource ht hs hk
      have hothers : OthersKeep t s (setDatasource t i (op.helperEnd newDs e.isSome ds).2 s) :=
        othersKeep_setDatasource h.core ht
      simp only [hrun] at hstep
      split at hstep
      · -- the helper gives the connection back in the next step
        rename_i hrel
        cases hstep
        refine Moves.setFrames hcore hothers ⟨⟨i, ht, ?_⟩, hfs⟩
        rw [setDatasource_pool, Op.helperEnd_inTransaction]
        exact Op.run_released (h.core.sound i) ho (h.core.keep i) htakes hrun hrel
      · -- the thread keeps it, and the call returns
        cases hstep
        exact Moves.finish hcore hothers hfs
  · cases hstep

theorem cleanup_moves (h : Owned s) (hstep : cleanup t d s = some (s', lab)) : Moves t s s' := by
  unfold cleanup at hstep
  split at hstep
  · rename_i hguard
    simp only [Bool.and_eq_true] at hguard
    obtain ⟨hres, hout⟩ := hguard
    have hfs := inCallback_of_outside hout (h.stack t)
    obtain ⟨i, ht⟩ := h.core.resource t hres
    have ht' : (removeThreadResource t s).dsp.tmap t = some i := ht
    obtain ⟨ds, e, hrun⟩ : ∃ ds e,
        ((removeThreadResource t s).dsp.pool i).rollback d = (ds, e) := ⟨_, _, rfl⟩
    obtain ⟨hs, hin, hk⟩ := Datasource.endTransaction_spec (h.core.sound i) hrun
    simp only [ht', hrun] at hstep
    cases hstep
    have hcore := h.core.removeThreadResource (t := t)
    refine Moves.setFrames (hcore.setDatasource ht hs (hk.trans (h.core.keep i)))
      (othersKeep_removeThreadResource.trans (othersKeep_setDatasource hcore ht))
      ⟨⟨ht, ?_, Function.update_self ..⟩, hfs⟩
    rw [setDatasource_pool]
    exact hin
  · cases hstep

theorem destructor_moves (h : Owned s) (hstep : destructor t d s = some (s', lab)) :
    Moves t s s' := by
  unfold destructor at hstep
  split at hstep
  · rename_i hout
    have hfs := inCallback_of_outside hout (h.stack t)
    let s₁ : State T := { s with dsp := { s.dsp with valid := false } }
    have hinvalid : Moves t s s₁ := Moves.of_core_eq h rfl
    dsimp only at hstep
    split at hstep
    · cases hstep
      exact hinvalid
    · rename_i i ht
      split at hstep
      · obtain ⟨ds, e, hrun⟩ : ∃ ds e, (s.dsp.pool i).rollback d = (ds, e) := ⟨_, _, rfl⟩
        obtain ⟨hs, hin, hk⟩ := Datasource.endTransaction_spec (h.core.sound i) hrun
        simp only [hrun] at hstep
        cases hstep
        refine Moves.setFrames (hinvalid.core.setDatasource ht hs (hk.trans (h.core.keep i)))
          (hinvalid.others.trans (othersKeep_setDatasource hinvalid.core ht)) ⟨⟨i, ht, ?_⟩, hfs⟩
        rw [setDatasource_pool]
        exact hin
      · cases hstep
        exact hinvalid
  · cases hstep

/-- The thread that acts. -/
def Action.thread : Action T → T
  | .call t _ => t
  | .resume t _ => t
  | .expire t => t
  | .checkWait t => t
  | .callbackEnd t _ => t
  | .checkWaitEnd t => t
  | .openDS t _ => t
  | .body t _ => t
  | .free t _ => t
  | .cleanup t _ => t
  | .cleanupEnd t _ => t
  | .destructor t _ => t
  | .setWarningCallback t _ => t
  | .clearWarningCallback t => t
  | .setErrorTimeout t _ => t

/-- The end of a call that gives its connection back: the thread has none, and the call
returns. -/
def GivesBack (t : T) (s s' : State T) : Prop :=
  ∃ raised fs s₁, Core s₁ ∧ OthersKeep t s s₁ ∧ s₁.dsp.tmap t = none ∧
    (∀ g ∈ fs, InCallback g) ∧ s' = finish t raised fs s₁

theorem GivesBack.moves (h : GivesBack t s s') : Moves t s s' := by
  obtain ⟨raised, fs, s₁, hcore, hothers, -, hfs, rfl⟩ := h
  exact Moves.finish hcore hothers hfs

variable [Fintype T]

theorem free_givesBack {choice : Option T} (h : Owned s)
    (hstep : free t choice s = some (s', lab)) : GivesBack t s s' := by
  have hfree : ∀ {raised : Bool} {fs : List Frame} {s₁ : State T},
      (∃ i, s.dsp.tmap t = some i ∧ (s.dsp.pool i).inTransaction = false) →
      (∀ g ∈ fs, InCallback g) → freeDS t choice s = some s₁ →
      GivesBack t s (finish t raised fs s₁) := by
    intro raised fs s₁ hown hfs hrun
    obtain ⟨i, ht, hin⟩ := hown
    obtain ⟨hcore, hothers, hnone⟩ := freeDS_spec h.core ht hin hrun
    exact ⟨raised, fs, s₁, hcore, hothers, hnone, hfs, rfl⟩
  have hok := h.stack t
  unfold free at hstep
  dsimp only at hstep
  split at hstep
  · rename_i op newDs raised fs hframes
    rw [hframes] at hok
    split at hstep
    · cases hstep
    · rename_i s₁ hrun
      cases hstep
      exact hfree hok.1 hok.2 hrun
  · rename_i fs hframes
    rw [hframes] at hok
    split at hstep
    · cases hstep
    · rename_i s₁ hrun
      cases hstep
      exact hfree hok.1 hok.2 hrun
  · cases hstep

theorem cleanupEnd_givesBack {choice : Option T} (h : Owned s)
    (hstep : cleanupEnd t choice s = some (s', lab)) : GivesBack t s s' := by
  unfold cleanupEnd at hstep
  split at hstep
  · rename_i i fs hframes
    have hok := h.stack t
    rw [hframes] at hok
    obtain ⟨⟨ht, hin, hres⟩, hfs⟩ := hok
    split at hstep
    · cases hstep
    · rename_i s₁ hrun
      cases hstep
      obtain ⟨hcore, hothers, hnone⟩ := giveBack_spec h.core ht hin hres hrun
      exact ⟨false, fs, s₁, hcore, hothers, hnone, hfs, rfl⟩
  · cases hstep

/-- The actions that only have to do with the waits and with the settings. -/
def Action.isSetting : Action T → Bool
  | .expire _ | .setWarningCallback _ _ | .clearWarningCallback _ | .setErrorTimeout _ _ => true
  | _ => false

/-- They change neither the connections nor their owners, nor a stack. -/
theorem step_core_eq {a : Action T} (ha : a.isSetting = true)
    (hstep : step s a = some (s', lab)) : s'.core = s.core := by
  cases a with
  | expire t =>
    rw [step] at hstep
    split at hstep
    · cases hstep
    · split at hstep
      · split at hstep
        · cases hstep
        · cases hstep
          rfl
      · cases hstep
  | setWarningCallback t ms =>
    rw [step] at hstep
    split at hstep
    · rw [setWarningCallback] at hstep
      split at hstep
      · cases hstep
        rfl
      · cases hstep
        rfl
    · cases hstep
  | clearWarningCallback t =>
    rw [step] at hstep
    split at hstep
    · rw [clearWarningCallback] at hstep
      split at hstep
      · cases hstep
        rfl
      · cases hstep
        rfl
    · cases hstep
  | setErrorTimeout t ms =>
    rw [step] at hstep
    split at hstep
    · cases hstep
      rfl
    · cases hstep
  | _ => cases ha

/-- Every step keeps the invariant. -/
theorem step_moves {a : Action T} (h : Owned s) (hok : Undisturbed s a)
    (hstep : step s a = some (s', lab)) : Moves a.thread s s' := by
  cases a with
  | call t op =>
    rw [step] at hstep
    split at hstep
    · rename_i hcall
      cases hstep
      exact getDS_moves h hcall
    · cases hstep
  | resume t micros => exact resume_moves h hstep
  | checkWait t => exact checkWait_moves h hstep
  | callbackEnd t raised => exact callbackEnd_moves h hstep
  | checkWaitEnd t => exact checkWaitEnd_moves h hok hstep
  | openDS t r => exact openDS_moves h hstep
  | body t d => exact body_moves h hok hstep
  | free t choice => exact (free_givesBack h hstep).moves
  | cleanup t d => exact cleanup_moves h hstep
  | cleanupEnd t choice => exact (cleanupEnd_givesBack h hstep).moves
  | destructor t d => exact destructor_moves h hstep
  | expire t => exact Moves.of_core_eq h (step_core_eq rfl hstep)
  | setWarningCallback t ms => exact Moves.of_core_eq h (step_core_eq rfl hstep)
  | clearWarningCallback t => exact Moves.of_core_eq h (step_core_eq rfl hstep)
  | setErrorTimeout t ms => exact Moves.of_core_eq h (step_core_eq rfl hstep)

/-- In every run whose warning callbacks do not disturb the calls that they belong to, every
connection is free or has one owner. -/
theorem exclusive_of_run {min max : Nat} {opens : Nat → Reply} {p : DatasourcePool T}
    (hinit : init min max opens = some p) (as : List (Action T))
    (h : Lts.Along step Undisturbed (State.start p) as) :
    Lts.Always step Exclusive (State.start p) as := by
  have halways : Lts.Always step Owned (State.start p) as :=
    Lts.always_of_along (fun s a s' lab hs hok hstep => (step_moves hs hok hstep).owned hs) as _
      (Owned.init hinit) h
  exact Lts.Always.mono (fun s hs => hs.exclusive) as _ halways

end

/-- A pool with a single connection. -/
def onePool : DatasourcePool (Fin 2) :=
  { pool := Function.update (fun _ => Datasource.config) 0 { Datasource.config with isOpen := true }
    tidList := fun _ => none, tmap := fun _ => none, freeList := [0], max := 1, cmax := 1
    waitCount := 0, tlWarningMs := 0, tlTimeoutMs := 120000, warningCallback := false, valid := true }

attribute [local instance] Lts.neZero_two in
/-- Thread 1 waits for the connection that thread 0 uses for a transaction. It gets the connection
when thread 0 commits, and starts the warning callback, since it has waited for 5 ms. -/
def waitForCommit : List (Action (Fin 2)) :=
  [.setWarningCallback 0 1, .call 0 .exec, .openDS 0 .ok, .body 0 {}, .call 1 .exec,
    .call 0 .commit, .openDS 0 .ok, .body 0 {}, .free 0 (some 1), .resume 1 5000, .checkWait 1,
    .call 1 .getConfigString, .openDS 1 .ok, .body 1 {}]

attribute [local instance] Lts.neZero_two in
/-- The end of the warning callback of thread 1, and of its `exec`. -/
def endOfExec : List (Action (Fin 2)) :=
  [.callbackEnd 1 false, .checkWaitEnd 1, .openDS 1 .ok, .body 1 {}]

/-- A callback that only reads does not disturb the call. -/
theorem exclusive_select_in_callback :
    let as := waitForCommit ++ [.call 1 .select, .openDS 1 .ok, .body 1 {}] ++ endOfExec
    init 1 1 (fun _ => .ok) = some onePool ∧
      (Lts.run step (State.start onePool) as).isSome = true ∧
      Lts.Always step Exclusive (State.start onePool) as := by
  have hinit : init 1 1 (fun _ => .ok) = some onePool := rfl
  refine ⟨hinit, by decide, exclusive_of_run hinit _ ?_⟩
  refine Lts.along_of_check (p := fun s a => decide (Undisturbed s a)) (by simp) _ _ ?_
  decide

/-- The callback executes a statement and commits it. The commit gives back the connection of the
call that the callback belongs to, which then starts a transaction on a free connection. -/
theorem commit_in_callback :
    ¬ ∀ (min max : Nat) (opens : Nat → Reply) (p : DatasourcePool (Fin 2)),
      init min max opens = some p → ∀ as : List (Action (Fin 2)),
        Lts.Always step Exclusive (State.start p) as := by
  intro hall
  let as : List (Action (Fin 2)) := waitForCommit ++
    [.call 1 .exec, .openDS 1 .ok, .body 1 {}, .call 1 .commit, .openDS 1 .ok, .body 1 {},
      .free 1 none] ++ endOfExec
  have hrun : (Lts.run step (State.start onePool) as).map
      (fun r => (r.1.dsp.freeList, (r.1.dsp.pool 0).inTransaction)) = some ([0], true) := by
    decide
  obtain ⟨r, hr, hstate⟩ := Option.map_eq_some_iff.mp hrun
  simp only [Prod.mk.injEq] at hstate
  have hexcl := Lts.Always.of_run as (hall 1 1 (fun _ => .ok) onePool rfl as) hr
  have hidle := hexcl.idle 0 (by rw [hstate.1]; simp)
  rw [hstate.2] at hidle
  cases hidle

/-- A thread in a transaction uses a statement that is bound to another connection. Its own one is
free then, in its transaction. -/
example : (Lts.run step (State.start onePool)
    [.call 0 .exec, .openDS 0 .ok, .body 0 {}, .call 0 (.statement .use (some 1)), .openDS 0 .ok,
      .body 0 {}, .free 0 none]).map
        (fun r => (r.1.dsp.freeList, (r.1.dsp.pool 0).inTransaction)) = some ([0], true) := by
  decide

/-- The connection is lost before thread 1 gets it, and the `getConfigString` of `checkWait` cannot
open it again. Then it is given back twice, the second time without an entry in `tmap`. -/
example : (Lts.run step (State.start onePool)
    [.setWarningCallback 0 1, .call 0 .exec, .openDS 0 .ok, .body 0 {}, .call 1 .exec,
      .call 0 .select, .openDS 0 .ok, .body 0 { call := .aborted }, .free 0 (some 1),
      .resume 1 5000, .checkWait 1, .call 1 .getConfigString, .openDS 1 .error, .free 1 none,
      .checkWaitEnd 1, .free 1 none]).map (fun r => r.1.broken) = some true := by
  decide

end Qore.Pool
