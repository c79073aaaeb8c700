import Mathlib.Data.List.Nodup
import Mathlib.Logic.Function.Basic
import Qore.ThreadPool.Model

/-!
# `Qore.ThreadPool.Lists`: what the lists of the pool say of its workers

Each worker has a `Role`: what the thread of the pool has done with it last. The lists, and the
place of the thread of the pool (`Stage`), tell all roles but three (`Stage.Has`).

`Lists` says that the roles are what the lists tell, that no worker is twice in a list, that the
nodes of `ah` are different, and that a walk is at the end part of its list. There is one lemma
for each thing that the pool does with its lists: it changes the role of one worker, and
`role_update` reduces the statement about all roles to this worker.
-/

set_option autoImplicit false

namespace Qore.ThreadPool

/-- What the thread of the pool has done with a worker last. -/
inductive Role
  /-- Not made yet, dismissed by `done`, or confirmed. -/
  | out
  /-- In `fh`. -/
  | free
  /-- Moved to `ah`, and its task is not given to it. -/
  | given
  /-- In `ah`. -/
  | busy
  /-- In `ah`, and its `stopCond` is made. -/
  | marked
  /-- Taken from `fh` to be stopped. -/
  | releasing
  /-- Stopped as an idle worker. -/
  | stopped
  /-- Stopped as a worker in `ah`, and not waited for. -/
  | detached
  /-- Stopped as a worker in `ah`, and waited for. -/
  | waited
  deriving DecidableEq

/-- The places of the thread of the pool, as far as the lists are concerned. -/
inductive Stage
  | serving
  | given (w : Nat)
  | releasing (w : Nat)
  | stopFree (rest : List Nat)
  | choose
  | stopBusy (rest : List Node)
  | stopWait (rest : List Node)
  | stopWaitLock (rest : List Node)
  | stopConfirm (rest : List Node)
  | finished

/-- The stage of a place. -/
@[simp] def Pc.stage : Pc → Stage
  | .give w => .given w
  | .release w => .releasing w
  | .stopFree rest => .stopFree rest
  | .choose => .choose
  | .stopBusy rest => .stopBusy rest
  | .stopWait rest => .stopWait rest
  | .stopWaitLock rest => .stopWaitLock rest
  | .stopConfirm rest => .stopConfirm rest
  | .finish | .cancel _ | .dead => .finished
  | _ => .serving

@[simp] theorem Pc.signal_stage (pc : Pc) : pc.signal.stage = pc.stage := by cases pc <;> rfl

namespace Stage

/-- The idle workers that are not stopped. -/
@[simp] def freeList (fh : List Nat) : Stage → List Nat
  | .serving | .given _ | .releasing _ => fh
  | .stopFree rest => rest
  | _ => []

/-- The workers in `ah` that are not stopped. -/
@[simp] def busyList (ah : List Node) : Stage → List Node
  | .stopBusy rest | .stopWait rest | .stopWaitLock rest => rest
  | .stopConfirm _ | .finished => []
  | _ => ah

/-- The worker whose `stopCond` is made and that is not stopped. -/
@[simp] def markedList : Stage → List Nat
  | .stopWaitLock (n :: _) => [n.worker]
  | _ => []

/-- The workers that are stopped and not confirmed. -/
@[simp] def waitedList (ah : List Node) : Stage → List Node
  | .stopWait rest | .stopWaitLock rest => ah.filter fun n => n ∉ rest
  | .stopConfirm rest => rest
  | _ => []

/-- A walk is at the end part of its list. -/
@[simp] def Walk (ah : List Node) (fh : List Nat) : Stage → Prop
  | .stopFree rest => rest <:+ fh
  | .stopBusy rest | .stopWait rest | .stopWaitLock rest | .stopConfirm rest => rest <:+ ah
  | _ => True

end Stage

/-- The lists say that the worker has the role. -/
@[simp] def Stage.Has (st : Stage) (ah : List Node) (fh : List Nat) (w : Nat) : Role → Prop
  | .free => w ∈ st.freeList fh
  | .given => st = .given w
  | .busy => w ∈ (st.busyList ah).map Node.worker ∧ st ≠ .given w ∧ w ∉ st.markedList
  | .marked => w ∈ st.markedList
  | .releasing => st = .releasing w
  | .waited => w ∈ (st.waitedList ah).map Node.worker
  | .out | .stopped | .detached => False

/-- The roles that the lists tell. -/
@[simp] def Role.listed : Role → Bool
  | .out | .stopped | .detached => false
  | _ => true

/-- The roles of the workers are what the lists say, and the lists are in order. -/
structure Lists (st : Stage) (ah : List Node) (fh : List Nat) (nextNode : Nat)
    (ρ : Nat → Role) : Prop where
  role : ∀ w r, r.listed → (ρ w = r ↔ st.Has ah fh w r)
  walk : st.Walk ah fh
  nodupFree : fh.Nodup
  nodupWorker : (ah.map Node.worker).Nodup
  nodupId : (ah.map Node.id).Nodup
  fresh : ∀ n ∈ ah, n.id < nextNode

namespace Lists

variable {st st' : Stage} {ah ah' : List Node} {fh fh' : List Nat} {m w : Nat} {ρ : Nat → Role}
  {r : Role} {n : Node} {rest : List Node}

/-- One worker gets another role. -/
theorem role_update (h : Lists st ah fh m ρ) (hw : ∀ r', r'.listed → (r = r' ↔ st'.Has ah' fh' w r'))
    (hne : ∀ v, v ≠ w → ∀ r', r'.listed → (st'.Has ah' fh' v r' ↔ st.Has ah fh v r')) :
    ∀ v r', r'.listed → (Function.update ρ w r v = r' ↔ st'.Has ah' fh' v r') := by
  intro v r' hr'
  by_cases hv : v = w
  · subst hv
    rw [Function.update_self]
    exact hw r' hr'
  · rw [Function.update_of_ne hv, hne v hv r' hr']
    exact h.role v r' hr'

/-- Two nodes of a worker are the same. -/
theorem node_ext (h : Lists st ah fh m ρ) {n' : Node} (hn : n ∈ ah) (hn' : n' ∈ ah)
    (hw : n.worker = n'.worker) : n = n' :=
  List.inj_on_of_nodup_map h.nodupWorker hn hn' hw

/-- A new node goes to the end of `ah`. -/
theorem nodup_append_node (h : Lists st ah fh m ρ) (hn : n.id = m)
    (hw : n.worker ∉ ah.map Node.worker) :
    ((ah ++ [n]).map Node.worker).Nodup ∧ ((ah ++ [n]).map Node.id).Nodup ∧
      ∀ n' ∈ ah ++ [n], n'.id < m + 1 := by
  have hid : n.id ∉ ah.map Node.id := by
    intro hmem
    obtain ⟨n', hn', heq⟩ := List.mem_map.mp hmem
    have := h.fresh n' hn'
    omega
  refine ⟨?_, ?_, ?_⟩
  · rw [List.map_append]
    exact List.nodup_append.mpr ⟨h.nodupWorker, List.nodup_singleton _, by simpa using hw⟩
  · rw [List.map_append]
    exact List.nodup_append.mpr ⟨h.nodupId, List.nodup_singleton _, by simpa using hid⟩
  · intro n' hn'
    rcases List.mem_append.mp hn' with hn' | hn'
    · have := h.fresh n' hn'
      omega
    · rw [List.mem_singleton.mp hn']
      omega

/-- A worker is not in `ah` when its role is none of those that `ah` gives. -/
theorem not_mem_of_role (h : Lists .serving ah fh m ρ) (hw : ρ w ≠ .busy) :
    w ∉ ah.map Node.worker := by
  intro hmem
  exact hw ((h.role w .busy rfl).mpr ⟨hmem, by simp, by simp [Stage.markedList]⟩)

/-- An idle worker is taken for a task. -/
theorem allocate_free (h : Lists .serving ah (w :: fh) m ρ) :
    Lists (.given w) (ah ++ [⟨m, w⟩]) fh (m + 1) (Function.update ρ w .given) := by
  have hfree : ρ w = .free := (h.role w .free rfl).mpr List.mem_cons_self
  have hn := h.nodup_append_node (n := ⟨m, w⟩) rfl (h.not_mem_of_role (by simp [hfree]))
  have hfh := List.nodup_cons.mp h.nodupFree
  refine ⟨h.role_update ?_ ?_, trivial, hfh.2, hn.1, hn.2.1, hn.2.2⟩
  · intro r' _
    cases r' <;> simp_all
  · intro v hv r' _
    cases r' <;> simp_all [Ne.symm hv]

/-- A new worker is taken for a task. -/
theorem allocate_new (h : Lists .serving ah fh m ρ) (hw : ρ w = .out) :
    Lists (.given w) (ah ++ [⟨m, w⟩]) fh (m + 1) (Function.update ρ w .given) := by
  have hn := h.nodup_append_node (n := ⟨m, w⟩) rfl (h.not_mem_of_role (by simp [hw]))
  have hnot : w ∉ fh := by
    intro hmem
    have := (h.role w .free rfl).mpr hmem
    simp [hw] at this
  refine ⟨h.role_update ?_ ?_, trivial, h.nodupFree, hn.1, hn.2.1, hn.2.2⟩
  · intro r' _
    cases r' <;> simp_all
  · intro v hv r' _
    cases r' <;> simp_all [Ne.symm hv]

/-- The worker has its task. -/
theorem gave (h : Lists (.given w) ah fh m ρ) (hmem : w ∈ ah.map Node.worker) :
    Lists .serving ah fh m (Function.update ρ w .busy) := by
  have hgiven : ρ w = .given := (h.role w .given rfl).mpr rfl
  have hnot : w ∉ fh := by
    intro hmem
    have := (h.role w .free rfl).mpr hmem
    simp [hgiven] at this
  refine ⟨h.role_update ?_ ?_, trivial, h.nodupFree, h.nodupWorker, h.nodupId, h.fresh⟩
  · intro r' _
    cases r' <;> simp_all
  · intro v hv r' _
    cases r' <;> simp_all [Ne.symm hv]

/-- A new worker goes to the end of `fh`. -/
theorem addIdle (h : Lists .serving ah fh m ρ) (hw : ρ w = .out) :
    Lists .serving ah (fh ++ [w]) m (Function.update ρ w .free) := by
  have hnot : w ∉ fh := by
    intro hmem
    have := (h.role w .free rfl).mpr hmem
    simp [hw] at this
  have hbusy := h.not_mem_of_role (w := w) (by simp [hw])
  refine ⟨h.role_update ?_ ?_, trivial, ?_, h.nodupWorker, h.nodupId, h.fresh⟩
  · intro r' _
    cases r' <;> simp_all
  · intro v hv r' _
    cases r' <;> simp_all
  · exact List.nodup_append.mpr ⟨h.nodupFree, List.nodup_singleton _, by simp; grind⟩

/-- An idle worker is taken to be stopped. -/
theorem release (h : Lists .serving ah (w :: fh) m ρ) :
    Lists (.releasing w) ah fh m (Function.update ρ w .releasing) := by
  have hfree : ρ w = .free := (h.role w .free rfl).mpr List.mem_cons_self
  have hbusy := h.not_mem_of_role (w := w) (by simp [hfree])
  have hfh := List.nodup_cons.mp h.nodupFree
  refine ⟨h.role_update ?_ ?_, trivial, hfh.2, h.nodupWorker, h.nodupId, h.fresh⟩
  · intro r' _
    cases r' <;> simp_all
  · intro v hv r' _
    cases r' <;> simp_all [Ne.symm hv]

/-- The worker is stopped. -/
theorem released (h : Lists (.releasing w) ah fh m ρ) :
    Lists .serving ah fh m (Function.update ρ w .stopped) := by
  have hrel : ρ w = .releasing := (h.role w .releasing rfl).mpr rfl
  have hfree := h.role w .free rfl
  have hbusy := h.role w .busy rfl
  refine ⟨h.role_update ?_ ?_, trivial, h.nodupFree, h.nodupWorker, h.nodupId, h.fresh⟩
  · intro r' _
    cases r' <;> simp_all
  · intro v hv r' _
    cases r' <;> simp_all [Ne.symm hv]

/-- The walk over `fh` begins. -/
theorem stopFree_start (h : Lists .serving ah fh m ρ) : Lists (.stopFree fh) ah fh m ρ := by
  refine ⟨?_, List.suffix_refl _, h.nodupFree, h.nodupWorker, h.nodupId, h.fresh⟩
  intro v r' hr'
  rw [h.role v r' hr']
  cases r' <;> simp

/-- A step of the walk over `fh`. -/
theorem stopFree_step {rest : List Nat} (h : Lists (.stopFree (w :: rest)) ah fh m ρ) :
    Lists (.stopFree rest) ah fh m (Function.update ρ w .stopped) := by
  have hrest := List.nodup_cons.mp (h.nodupFree.sublist h.walk.sublist)
  have hfree : ρ w = .free := (h.role w .free rfl).mpr List.mem_cons_self
  have hbusy := h.role w .busy rfl
  refine ⟨h.role_update ?_ ?_, (List.suffix_cons w rest).trans h.walk, h.nodupFree, h.nodupWorker,
    h.nodupId, h.fresh⟩
  · intro r' _
    cases r' <;> simp_all
  · intro v hv r' _
    cases r' <;> simp_all

/-- The walk over `fh` ends. -/
theorem stopFree_end (h : Lists (.stopFree []) ah fh m ρ) : Lists .choose ah fh m ρ := by
  refine ⟨?_, trivial, h.nodupFree, h.nodupWorker, h.nodupId, h.fresh⟩
  intro v r' hr'
  rw [h.role v r' hr']
  cases r' <;> simp

/-- The walk over `ah` begins, to detach the workers. -/
theorem stopBusy_start (h : Lists .choose ah fh m ρ) : Lists (.stopBusy ah) ah fh m ρ := by
  refine ⟨?_, List.suffix_refl _, h.nodupFree, h.nodupWorker, h.nodupId, h.fresh⟩
  intro v r' hr'
  rw [h.role v r' hr']
  cases r' <;> simp

/-- The walk over `ah` begins, to wait for the workers. -/
theorem stopWait_start (h : Lists .choose ah fh m ρ) : Lists (.stopWait ah) ah fh m ρ := by
  refine ⟨?_, List.suffix_refl _, h.nodupFree, h.nodupWorker, h.nodupId, h.fresh⟩
  intro v r' hr'
  rw [h.role v r' hr']
  cases r' <;> simp

/-- The rest of a walk over `ah`. -/
theorem nodup_rest (h : Lists st ah fh m ρ) (hwalk : n :: rest <:+ ah) :
    n.worker ∉ rest.map Node.worker ∧ n ∉ rest ∧ n ∈ ah := by
  have hnodup := List.nodup_cons.mp (h.nodupWorker.sublist (hwalk.sublist.map Node.worker))
  refine ⟨hnodup.1, ?_, hwalk.mem List.mem_cons_self⟩
  intro hmem
  exact hnodup.1 (List.mem_map_of_mem hmem)

/-- A worker is detached. -/
theorem stopBusy_step (h : Lists (.stopBusy (n :: rest)) ah fh m ρ) :
    Lists (.stopBusy rest) ah fh m (Function.update ρ n.worker .detached) := by
  have hrest := h.nodup_rest h.walk
  refine ⟨h.role_update ?_ ?_, (List.suffix_cons n rest).trans h.walk, h.nodupFree, h.nodupWorker,
    h.nodupId, h.fresh⟩
  · intro r' _
    cases r' <;> simp_all
  · intro v hv r' _
    cases r' <;> simp_all

/-- The first half of `stopWait`. -/
theorem stopWait_mark (h : Lists (.stopWait (n :: rest)) ah fh m ρ) :
    Lists (.stopWaitLock (n :: rest)) ah fh m (Function.update ρ n.worker .marked) := by
  have hbusy : ρ n.worker = .busy := (h.role n.worker .busy rfl).mpr (by simp)
  have hwaited := h.role n.worker .waited rfl
  refine ⟨h.role_update ?_ ?_, h.walk, h.nodupFree, h.nodupWorker, h.nodupId, h.fresh⟩
  · intro r' _
    cases r' <;> simp_all
  · intro v hv r' _
    cases r' <;> simp_all

/-- The second half of `stopWait`. -/
theorem stopWait_step (h : Lists (.stopWaitLock (n :: rest)) ah fh m ρ) :
    Lists (.stopWait rest) ah fh m (Function.update ρ n.worker .waited) := by
  have hrest := h.nodup_rest h.walk
  refine ⟨h.role_update ?_ ?_, (List.suffix_cons n rest).trans h.walk, h.nodupFree, h.nodupWorker,
    h.nodupId, h.fresh⟩
  · intro r' _
    cases r' <;> simp_all
    exact ⟨n, ⟨hrest.2.2, hrest.2.1⟩, rfl⟩
  · intro v hv r' _
    cases r' <;> simp_all
    grind

/-- All workers are stopped, and the walk over `ah` to confirm it begins. -/
theorem stopConfirm_start (h : Lists (.stopWait []) ah fh m ρ) : Lists (.stopConfirm ah) ah fh m ρ := by
  refine ⟨?_, List.suffix_refl _, h.nodupFree, h.nodupWorker, h.nodupId, h.fresh⟩
  intro v r' hr'
  rw [h.role v r' hr']
  cases r' <;> simp

/-- A worker is confirmed. -/
theorem stopConfirm_step (h : Lists (.stopConfirm (n :: rest)) ah fh m ρ) :
    Lists (.stopConfirm rest) ah fh m (Function.update ρ n.worker .out) := by
  have hrest := h.nodup_rest h.walk
  refine ⟨h.role_update ?_ ?_, (List.suffix_cons n rest).trans h.walk, h.nodupFree, h.nodupWorker,
    h.nodupId, h.fresh⟩
  · intro r' _
    cases r' <;> simp_all
  · intro v hv r' _
    cases r' <;> simp_all

/-- A walk over `ah` ends. -/
theorem finish_of_nil (h : Lists st ah fh m ρ) (hst : st = .stopBusy [] ∨ st = .stopConfirm []) :
    Lists .finished ah fh m ρ := by
  refine ⟨?_, trivial, h.nodupFree, h.nodupWorker, h.nodupId, h.fresh⟩
  intro v r' hr'
  rw [h.role v r' hr']
  rcases hst with rfl | rfl <;> cases r' <;> simp

/-- The lists are cleared. -/
theorem clear (h : Lists .finished ah fh m ρ) : Lists .finished [] [] m ρ := by
  refine ⟨?_, trivial, by simp, by simp, by simp, by simp⟩
  intro v r' hr'
  rw [h.role v r' hr']
  cases r' <;> simp

/-- `done` takes the worker from `ah`. -/
theorem erase (h : Lists .serving ah fh m ρ) (hn : n ∈ ah) :
    Lists .serving (ah.erase n) fh m (Function.update ρ n.worker .out) := by
  have hnodup : ah.Nodup := h.nodupWorker.of_map
  have hbusy : ρ n.worker = .busy :=
    (h.role n.worker .busy rfl).mpr ⟨List.mem_map_of_mem hn, by simp, by simp⟩
  have hfree := h.role n.worker .free rfl
  -- no other node has this worker
  have hmem : ∀ v, v ∈ (ah.erase n).map Node.worker ↔ v ≠ n.worker ∧ v ∈ ah.map Node.worker := by
    intro v
    simp only [List.mem_map, hnodup.mem_erase_iff]
    constructor
    · rintro ⟨n', ⟨hne, hn'⟩, rfl⟩
      exact ⟨fun heq => hne (h.node_ext hn' hn heq), n', hn', rfl⟩
    · rintro ⟨hv, n', hn', rfl⟩
      exact ⟨n', ⟨fun heq => hv (by rw [heq]), hn'⟩, rfl⟩
  refine ⟨h.role_update ?_ ?_, trivial, h.nodupFree, ?_, ?_, ?_⟩
  · intro r' _
    cases r' <;> simp_all
  · intro v hv r' _
    cases r' <;> simp_all
  · exact h.nodupWorker.sublist (List.erase_sublist.map _)
  · exact h.nodupId.sublist (List.erase_sublist.map _)
  · exact fun n' hn' => h.fresh n' (List.mem_of_mem_erase hn')

end Lists

end Qore.ThreadPool
