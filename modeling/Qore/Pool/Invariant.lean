import Mathlib.Data.List.Range
import Qore.Lib.Partition
import Qore.Pool.Model

/-!
# `Qore.Pool.Invariant`: what holds of the pool and of the calls in it

* `Core` is the invariant of the pool: the free connections and those of `tmap` are a partition
  (`Qore.Lib.Partition`), and a free connection is in no transaction. `StackOk` is what a thread
  knows of its connection at each phase of its call. `Owned` is both.
* `Owned.init`: the constructor establishes the invariant.
* `OthersKeep` says that a step of one thread leaves alone what the other threads know, so that
  the proof of a step is about its own thread (`Moves.owned`).
* One lemma for each of the operations that the steps are made of: the use of a connection, its
  allocation, and its release.
-/

set_option autoImplicit false

namespace Qore.Pool

open Qore.Lib
open Datasource (Sound Kept)

variable {T : Type} {p : DatasourcePool T} {opens : Nat → Reply} {t : T} {s s' : State T}
  {fs : List Frame}

/-- The action goes on with a transaction that it finds on its connection. -/
def Op.takesTransaction : Op → Bool
  | .exec | .execRaw | .commit | .rollback => true
  | .statement m _ => decide (m.cmd ≠ .nochange)
  | _ => false

/-- The invariant of the pool. -/
structure Core (s : State T) : Prop where
  part : Partition (fun i => i < s.dsp.cmax) s.dsp.freeList s.dsp.tmap
  sound : ∀ i, Sound (s.dsp.pool i)
  keep : ∀ i, (s.dsp.pool i).keepLock = false
  idle : ∀ i, i ∈ s.dsp.freeList → (s.dsp.pool i).inTransaction = false
  started : ∀ t i, s.dsp.tmap t = some i → (s.dsp.pool i).inTransaction = true →
    s.starter i = some t
  resource : ∀ t, s.resources t = true → ∃ i, s.dsp.tmap t = some i
  defined : s.broken = false

/-- A frame that waits for the return of a call of its warning callback. -/
def InCallback (f : Frame) : Prop :=
  ∃ op i, f = .action op true (.config i) ∨ f = .action op true (.callback i)

/-- What a thread knows of its connection in the call that it runs. -/
def FrameOk (s : State T) (t : T) : Frame → Prop
  | .action _ newDs .waiting => newDs = true ∧ s.dsp.tmap t = none
  | .action _ newDs (.warn i _) =>
    newDs = true ∧ s.dsp.tmap t = some i ∧ (s.dsp.pool i).inTransaction = false
  | .action _ newDs (.config _) => newDs = true
  | .action _ newDs (.callback _) => newDs = true
  | .action _ newDs (.checked _ _) => newDs = true
  | .action op newDs (.opening i) =>
    s.dsp.tmap t = some i ∧
      (newDs = true → (s.dsp.pool i).inTransaction = true → op.takesTransaction = true)
  | .action op newDs (.body i) =>
    s.dsp.tmap t = some i ∧ (s.dsp.pool i).isOpen = true ∧
      (newDs = true → (s.dsp.pool i).inTransaction = true → op.takesTransaction = true)
  | .action _ _ (.freeing _) => ∃ i, s.dsp.tmap t = some i ∧ (s.dsp.pool i).inTransaction = false
  | .cleanup i =>
    s.dsp.tmap t = some i ∧ (s.dsp.pool i).inTransaction = false ∧ s.resources t = false
  | .destructor => ∃ i, s.dsp.tmap t = some i ∧ (s.dsp.pool i).inTransaction = false

/-- The stack of a thread: the call that it runs, over calls in their warning callbacks. -/
def StackOk (s : State T) (t : T) : List Frame → Prop
  | [] => True
  | f :: fs => FrameOk s t f ∧ ∀ g ∈ fs, InCallback g

/-- The invariant. -/
structure Owned (s : State T) : Prop where
  core : Core s
  stack : ∀ t, StackOk s t (s.frames t)

/-! ### The constructor -/

/-- The pool while `init` opens its connections. -/
structure Fresh (p : DatasourcePool T) (n : Nat) : Prop where
  free : p.freeList = List.range n
  owner : p.tmap = fun _ => none
  sound : ∀ i, Sound (p.pool i)
  keep : ∀ i, (p.pool i).keepLock = false
  idle : ∀ i, (p.pool i).inTransaction = false

/-- The pool with one more open connection. -/
theorem Fresh.update {n : Nat} {r : Reply} {ds : Datasource} (h : Fresh p n)
    (hopen : Datasource.config.openDatasource r = (ds, none)) (k i : Nat) {l : List Nat}
    (hl : l = List.range k) :
    Fresh { p with cmax := i, pool := Function.update p.pool i ds, freeList := l } k := by
  obtain ⟨hs, hin, hk, -⟩ := Datasource.openDatasource_spec Sound.config hopen
  exact
    { free := hl
      owner := h.owner
      sound := (Function.forall_update_iff _ fun _ d => Sound d).mpr ⟨hs, fun j _ => h.sound j⟩
      keep := (Function.forall_update_iff _ fun _ (d : Datasource) => d.keepLock = false).mpr
        ⟨hk, fun j _ => h.keep j⟩
      idle := (Function.forall_update_iff _ fun _ (d : Datasource) => d.inTransaction = false).mpr
        ⟨hin, fun j _ => h.idle j⟩ }

theorem initLoop_spec : ∀ (n : Nat) {p p' : DatasourcePool T},
    Fresh p (p.cmax + 1) → initLoop opens n p = some p' → Fresh p' p'.cmax := by
  intro n
  induction n with
  | zero =>
    intro p p' h hrun
    cases hrun
    exact ⟨h.free, h.owner, h.sound, h.keep, h.idle⟩
  | succ n ih =>
    intro p p' h hrun
    rw [initLoop] at hrun
    split at hrun
    · cases hrun
    · rename_i ds hopen
      refine ih (h.update hopen (p.cmax + 1 + 1) (p.cmax + 1) ?_) hrun
      rw [h.free, List.range_succ (n := p.cmax + 1)]

theorem init_fresh {min max : Nat} (hrun : init min max opens = some p) : Fresh p p.cmax := by
  rw [init] at hrun
  split at hrun
  · cases hrun
  · rename_i ds hopen
    have hnone : Fresh (T := T)
        ⟨fun _ => Datasource.config, fun _ => none, fun _ => none, [], max, 0, 0, 0, 120000, false,
          false⟩ 0 :=
      ⟨rfl, rfl, fun _ => Sound.config, fun _ => rfl, fun _ => rfl⟩
    exact initLoop_spec (min - 1) (hnone.update hopen 1 0 rfl) hrun

/-- The constructor establishes the invariant. -/
theorem Owned.init {min max : Nat} (hrun : Pool.init min max opens = some p) :
    Owned (State.start p) := by
  have hfresh := init_fresh hrun
  refine ⟨⟨?_, hfresh.sound, hfresh.keep, fun i _ => hfresh.idle i, ?_, ?_, rfl⟩, fun _ => trivial⟩
  · show Partition (fun i => i < p.cmax) p.freeList p.tmap
    rw [hfresh.free, hfresh.owner]
    exact (Partition.of_free List.nodup_range).congr fun i => List.mem_range.symm
  · intro t i _ hin
    exact absurd ((hfresh.idle i).symm.trans hin) (by simp)
  · intro t hres
    cases hres

/-! ### What a step leaves alone -/

/-- The other threads keep their connections as they are, and their stacks. -/
structure OthersKeep (t : T) (s s' : State T) : Prop where
  tmap : ∀ u, u ≠ t → s'.dsp.tmap u = s.dsp.tmap u
  pool : ∀ u i, u ≠ t → s.dsp.tmap u = some i → s'.dsp.pool i = s.dsp.pool i
  frames : ∀ u, u ≠ t → s'.frames u = s.frames u
  resources : ∀ u, u ≠ t → s'.resources u = s.resources u

theorem OthersKeep.trans {s'' : State T} (h : OthersKeep t s s') (h' : OthersKeep t s' s'') :
    OthersKeep t s s'' where
  tmap := fun u hu => (h'.tmap u hu).trans (h.tmap u hu)
  pool := fun u i hu hi =>
    (h'.pool u i hu ((h.tmap u hu).trans hi)).trans (h.pool u i hu hi)
  frames := fun u hu => (h'.frames u hu).trans (h.frames u hu)
  resources := fun u hu => (h'.resources u hu).trans (h.resources u hu)

/-- What a thread knows of its connection depends on its own entries only. -/
theorem FrameOk.congr {u : T} {f : Frame} (hmap : s'.dsp.tmap u = s.dsp.tmap u)
    (hpool : ∀ i, s.dsp.tmap u = some i → s'.dsp.pool i = s.dsp.pool i)
    (hres : s'.resources u = s.resources u) (h : FrameOk s u f) : FrameOk s' u f := by
  cases f with
  | action op newDs phase =>
    cases phase with
    | waiting => exact ⟨h.1, hmap.trans h.2⟩
    | warn i w => exact ⟨h.1, hmap.trans h.2.1, by rw [hpool i h.2.1]; exact h.2.2⟩
    | config i => exact h
    | callback i => exact h
    | checked i failed => exact h
    | opening i => exact ⟨hmap.trans h.1, by rw [hpool i h.1]; exact h.2⟩
    | body i => exact ⟨hmap.trans h.1, by rw [hpool i h.1]; exact h.2⟩
    | freeing raised =>
      obtain ⟨i, hi, hin⟩ := h
      exact ⟨i, hmap.trans hi, by rw [hpool i hi]; exact hin⟩
  | cleanup i => exact ⟨hmap.trans h.1, by rw [hpool i h.1]; exact h.2.1, hres.trans h.2.2⟩
  | destructor =>
    obtain ⟨i, hi, hin⟩ := h
    exact ⟨i, hmap.trans hi, by rw [hpool i hi]; exact hin⟩

/-- A step of the thread `t`: the pool keeps its invariant, the others keep what they have, and
the thread knows what it has to know. -/
structure Moves (t : T) (s s' : State T) : Prop where
  core : Core s'
  others : OthersKeep t s s'
  stack : StackOk s' t (s'.frames t)

theorem Moves.owned (h : Moves t s s') (hs : Owned s) : Owned s' := by
  refine ⟨h.core, fun u => ?_⟩
  by_cases hu : u = t
  · rw [hu]
    exact h.stack
  · have hok := hs.stack u
    rw [h.others.frames u hu]
    cases hfs : s.frames u with
    | nil => trivial
    | cons f fs =>
      rw [hfs] at hok
      exact ⟨hok.1.congr (h.others.tmap u hu) (fun i => h.others.pool u i hu)
        (h.others.resources u hu), hok.2⟩

/-- The stack after the return of the call on top. -/
theorem stackOk_returnTo {raised : Bool} (h : ∀ g ∈ fs, InCallback g) :
    StackOk s t (returnTo raised fs) := by
  cases fs with
  | nil => exact trivial
  | cons g gs =>
    have hgs : ∀ f ∈ gs, InCallback f := fun f hf => h f (List.mem_cons_of_mem g hf)
    obtain ⟨op, i, rfl | rfl⟩ := h g (by simp)
    · cases raised with
      | false => exact ⟨rfl, hgs⟩
      | true => exact ⟨rfl, hgs⟩
    · exact ⟨rfl, hgs⟩

/-- A thread outside the pool is in no call, or in its warning callback. -/
theorem inCallback_of_outside (h : outside fs = true) (hok : StackOk s t fs) :
    ∀ g ∈ fs, InCallback g := by
  unfold outside at h
  split at h
  · intro g hg
    cases hg
  · rename_i op newDs i gs
    have hnew : newDs = true := hok.1
    intro g hg
    rcases List.mem_cons.mp hg with rfl | hg
    · exact ⟨op, i, .inr (by rw [hnew])⟩
    · exact hok.2 g hg
  · cases h

theorem inCallback_of_canCall {op : Op} (h : canCall op fs = true) (hok : StackOk s t fs) :
    ∀ g ∈ fs, InCallback g := by
  unfold canCall at h
  split at h
  · rename_i op' newDs i gs
    have hnew : newDs = true := hok.1
    intro g hg
    rcases List.mem_cons.mp hg with rfl | hg
    · exact ⟨op', i, .inl (by rw [hnew])⟩
    · exact hok.2 g hg
  · exact inCallback_of_outside h hok

section
variable {s s' : State T} {t : T} {fs : List Frame} {i : Nat} {ds : Datasource}

theorem OthersKeep.refl : OthersKeep t s s :=
  ⟨fun _ _ => rfl, fun _ _ _ _ => rfl, fun _ _ => rfl, fun _ _ => rfl⟩

@[simp]
theorem setDatasource_pool : (setDatasource t i ds s).dsp.pool i = ds :=
  Function.update_self ..

theorem setDatasource_pool_ne {j : Nat} (hj : j ≠ i) :
    (setDatasource t i ds s).dsp.pool j = s.dsp.pool j :=
  Function.update_of_ne hj ..

/-- The owner of a connection has used it. -/
theorem Core.setDatasource (h : Core s) (ht : s.dsp.tmap t = some i) (hs : Sound ds)
    (hk : ds.keepLock = false) : Core (setDatasource t i ds s) where
  part := h.part
  sound := (Function.forall_update_iff _ fun _ d => Sound d).mpr ⟨hs, fun j _ => h.sound j⟩
  keep := (Function.forall_update_iff _ fun _ (d : Datasource) => d.keepLock = false).mpr
    ⟨hk, fun j _ => h.keep j⟩
  idle := by
    intro j hj
    have hji : j ≠ i := fun hji => h.part.disjoint ht (hji ▸ hj)
    rw [setDatasource_pool_ne hji]
    exact h.idle j hj
  started := by
    intro u j hu hin
    by_cases hji : j = i
    · have hut : u = t := h.part.unique (hji ▸ hu) ht
      rw [hji, setDatasource_pool] at hin
      show Function.update s.starter i _ j = some u
      rw [hji, Function.update_self, if_pos hin, hut]
      split
      · rename_i hold
        exact h.started t i ht hold
      · rfl
    · rw [setDatasource_pool_ne hji] at hin
      show Function.update s.starter i _ j = some u
      rw [Function.update_of_ne hji]
      exact h.started u j hu hin
  resource := h.resource
  defined := h.defined

theorem othersKeep_setDatasource (h : Core s) (ht : s.dsp.tmap t = some i) :
    OthersKeep t s (setDatasource t i ds s) where
  tmap := fun _ _ => rfl
  pool := by
    intro u j hu hj
    exact setDatasource_pool_ne fun hji => hu (h.part.unique (hji ▸ hj) ht)
  frames := fun _ _ => rfl
  resources := fun _ _ => rfl

/-- The phase after `getDSIntern` with a connection in no transaction. -/
theorem stackOk_allocated {op : Op} {waitTotal : Nat} (ht : s.dsp.tmap t = some i)
    (hin : (s.dsp.pool i).inTransaction = false) (hfs : ∀ g ∈ fs, InCallback g) :
    StackOk s t (.action op true (allocated i waitTotal) :: fs) := by
  rw [allocated]
  split
  · exact ⟨⟨rfl, ht, hin⟩, hfs⟩
  · exact ⟨⟨ht, fun _ hin' => by rw [hin] at hin'; cases hin'⟩, hfs⟩

/-- The part of the state that the invariant speaks of. -/
def State.core (s : State T) :=
  (s.dsp.pool, s.dsp.tmap, s.dsp.freeList, s.dsp.cmax, s.frames, s.resources, s.starter, s.broken)

/-- A step that changes neither the connections nor their owners, nor a stack. -/
theorem Moves.of_core_eq (h : Owned s) (heq : s'.core = s.core) : Moves t s s' := by
  simp only [State.core, Prod.mk.injEq] at heq
  obtain ⟨hpool, htmap, hfree, hcmax, hframes, hres, hstarter, hbroken⟩ := heq
  refine ⟨⟨?_, ?_, ?_, ?_, ?_, ?_, ?_⟩, ⟨?_, ?_, ?_, ?_⟩, ?_⟩
  · rw [hfree, htmap, hcmax]
    exact h.core.part
  · rw [hpool]
    exact h.core.sound
  · rw [hpool]
    exact h.core.keep
  · rw [hpool, hfree]
    exact h.core.idle
  · rw [hpool, htmap, hstarter]
    exact h.core.started
  · rw [hres, htmap]
    exact h.core.resource
  · rw [hbroken]
    exact h.core.defined
  · exact fun u _ => by rw [htmap]
  · exact fun u i _ _ => by rw [hpool]
  · exact fun u _ => by rw [hframes]
  · exact fun u _ => by rw [hres]
  · have hok := h.stack t
    rw [hframes]
    cases hfs : s.frames t with
    | nil => trivial
    | cons f fs =>
      rw [hfs] at hok
      exact ⟨hok.1.congr (by rw [htmap]) (fun i _ => by rw [hpool]) (by rw [hres]), hok.2⟩

variable [DecidableEq T]

theorem Core.setFrames (h : Core s) : Core (setFrames t fs s) :=
  ⟨h.part, h.sound, h.keep, h.idle, h.started, h.resource, h.defined⟩

theorem othersKeep_setFrames : OthersKeep t s (setFrames t fs s) where
  tmap := fun _ _ => rfl
  pool := fun _ _ _ _ => rfl
  frames := fun _ hu => Function.update_of_ne hu ..
  resources := fun _ _ => rfl

/-- A step that ends with a new stack of the thread. -/
theorem Moves.setFrames (hcore : Core s') (hothers : OthersKeep t s s') (hok : StackOk s' t fs) :
    Moves t s (setFrames t fs s') := by
  refine ⟨hcore.setFrames, hothers.trans othersKeep_setFrames, ?_⟩
  have hframes : (Pool.setFrames t fs s').frames t = fs := Function.update_self ..
  rw [hframes]
  cases fs with
  | nil => trivial
  | cons f fs => exact ⟨hok.1.congr rfl (fun _ _ => rfl) rfl, hok.2⟩

/-- A step that ends with the return of the call on top of `fs`. -/
theorem Moves.finish {raised : Bool} (hcore : Core s') (hothers : OthersKeep t s s')
    (hfs : ∀ g ∈ fs, InCallback g) : Moves t s (finish t raised fs s') :=
  Moves.setFrames hcore hothers (stackOk_returnTo hfs)

/-! ### Allocation and release -/

/-- A connection that is free or new is given to a thread. -/
theorem Core.assign (h : Core s) (pool : Nat → Datasource) (starter : Nat → Option T)
    {free : List Nat} {cmax : Nat}
    (hpart : Partition (fun j => j < cmax) free (Function.update s.dsp.tmap t (some i)))
    (hfree : ∀ j, j ∈ free → j ∈ s.dsp.freeList) (hi : (pool i).inTransaction = false)
    (hsound : Sound (pool i)) (hkeep : (pool i).keepLock = false)
    (hpool : ∀ j, j ≠ i → pool j = s.dsp.pool j)
    (hstart : ∀ j, j ≠ i → starter j = s.starter j) :
    let s' : State T := { s with
      dsp := { s.dsp with freeList := free, pool := pool, cmax := cmax }
      starter := starter }
    Core (assign t i s') ∧ OthersKeep t s (assign t i s') := by
  have hne : ∀ j, j ∈ free → j ≠ i := by
    intro j hj hji
    exact hpart.disjoint (Function.update_self t (some i) s.dsp.tmap) (hji ▸ hj)
  refine ⟨⟨hpart, ?_, ?_, ?_, ?_, ?_, h.defined⟩, ⟨?_, ?_, fun _ _ => rfl, ?_⟩⟩
  · intro j
    show Sound (pool j)
    by_cases hji : j = i
    · rw [hji]
      exact hsound
    · rw [hpool j hji]
      exact h.sound j
  · intro j
    show (pool j).keepLock = false
    by_cases hji : j = i
    · rw [hji]
      exact hkeep
    · rw [hpool j hji]
      exact h.keep j
  · intro j hj
    show (pool j).inTransaction = false
    rw [hpool j (hne j hj)]
    exact h.idle j (hfree j hj)
  · intro u j hu hin
    have hin : (pool j).inTransaction = true := hin
    rcases Partition.update_eq_some hu with ⟨-, hij⟩ | ⟨-, hu'⟩
    · rw [← Option.some.inj hij, hi] at hin
      cases hin
    · have hji : j ≠ i := fun hji => by rw [hji, hi] at hin; cases hin
      rw [hpool j hji] at hin
      exact (hstart j hji).trans (h.started u j hu' hin)
  · intro u hu
    by_cases hut : u = t
    · exact ⟨i, by rw [hut]; exact Function.update_self ..⟩
    · have hres : s.resources u = true := by
        rw [← hu]
        exact (Function.update_of_ne hut ..).symm
      obtain ⟨j, hj⟩ := h.resource u hres
      exact ⟨j, (Function.update_of_ne hut ..).trans hj⟩
  · exact fun u hu => Function.update_of_ne hu ..
  · intro u j hu hj
    show pool j = s.dsp.pool j
    refine hpool j fun hji => ?_
    have hother : Function.update s.dsp.tmap t (some i) u = some i := by
      rw [Function.update_of_ne hu, hj, hji]
    exact hu (hpart.unique hother (Function.update_self t (some i) s.dsp.tmap))
  · exact fun u hu => Function.update_of_ne hu ..

/-- The thread resource list of a thread loses the pool. -/
theorem Core.removeThreadResource (h : Core s) : Core (removeThreadResource t s) := by
  refine ⟨h.part, h.sound, h.keep, h.idle, h.started, fun u hu => h.resource u ?_, h.defined⟩
  have hu : Function.update s.resources t false u = true := hu
  by_cases hut : u = t
  · rw [hut, Function.update_self] at hu
    cases hu
  · rwa [Function.update_of_ne hut] at hu

theorem othersKeep_removeThreadResource : OthersKeep t s (removeThreadResource t s) :=
  ⟨fun _ _ => rfl, fun _ _ _ _ => rfl, fun _ _ => rfl, fun _ hu => Function.update_of_ne hu ..⟩

variable [Fintype T] {choice : Option T}

/-- A signal changes the waiting threads only. -/
theorem signalWaiting_eq (h : signalWaiting choice s = some s') :
    ∃ thr, s' = { s with threads := thr } := by
  unfold signalWaiting at h
  split at h
  · split at h
    · cases h
    · rename_i thr hthr
      cases h
      exact ⟨thr, rfl⟩
  · cases h
    exact ⟨s.threads, rfl⟩

/-- A thread gives its connection back. -/
theorem giveBack_spec (h : Core s) (ht : s.dsp.tmap t = some i)
    (hin : (s.dsp.pool i).inTransaction = false) (hres : s.resources t = false)
    (hrun : giveBack t i choice s = some s') :
    Core s' ∧ OthersKeep t s s' ∧ s'.dsp.tmap t = none := by
  obtain ⟨thr, rfl⟩ := signalWaiting_eq hrun
  refine ⟨⟨h.part.release ht, h.sound, h.keep, ?_, ?_, ?_, h.defined⟩,
    ⟨fun u hu => Function.update_of_ne hu .., fun _ _ _ _ => rfl, fun _ _ => rfl, fun _ _ => rfl⟩,
    Function.update_self ..⟩
  · intro j hj
    rcases List.mem_append.mp hj with hj | hj
    · exact h.idle j hj
    · rw [List.mem_singleton.mp hj]
      exact hin
  · intro u j hu hj
    rcases Partition.update_eq_some hu with ⟨-, hn⟩ | ⟨-, hu⟩
    · cases hn
    · exact h.started u j hu hj
  · intro u hu
    have hut : u ≠ t := fun hut => by
      rw [hut] at hu
      exact absurd (hres.symm.trans hu) (by simp)
    obtain ⟨j, hj⟩ := h.resource u hu
    exact ⟨j, (Function.update_of_ne hut ..).trans hj⟩

/-- `freeDS` for a thread whose connection is in no transaction. -/
theorem freeDS_spec (h : Core s) (ht : s.dsp.tmap t = some i)
    (hin : (s.dsp.pool i).inTransaction = false) (hrun : freeDS t choice s = some s') :
    Core s' ∧ OthersKeep t s s' ∧ s'.dsp.tmap t = none := by
  have ht' : (removeThreadResource t s).dsp.tmap t = some i := ht
  simp only [freeDS, ht'] at hrun
  obtain ⟨hcore, hothers, hnone⟩ :=
    giveBack_spec h.removeThreadResource ht hin (Function.update_self ..) hrun
  exact ⟨hcore, othersKeep_removeThreadResource.trans hothers, hnone⟩

end

end Qore.Pool
