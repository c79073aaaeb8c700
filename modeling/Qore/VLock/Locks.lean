import Qore.VLock.Model
import Mathlib.Algebra.BigOperators.Group.Finset.Basic
import Mathlib.Algebra.Order.BigOperators.Group.Finset
import Mathlib.Algebra.BigOperators.Intervals

/-!
# `Qore.VLock.Locks`: what the lock operations do

`Holds s t l`: thread `t` has the lock `l`, as its owner or as one of its readers. `LockOk` is
what holds of one lock at all times: a lock with an owner has no readers, the readers are counted,
and whoever holds the lock has it in the list of its `VLock`.

`Touch s s' t l` is what an operation of thread `t` on the lock `l` leaves alone: the other locks,
the other entries of all lists, and what the threads are doing. Only `t` can come to hold a lock.
Each operation has one lemma that says that it keeps `LockOk` and is a `Touch`.
-/

set_option autoImplicit false

namespace Qore.VLock

/-- The thread has the lock. -/
def Holds (s : State) (t l : Nat) : Prop := (s.lock l).tid = .owner t ∨ t ∈ (s.lock l).vmap

/-- The number of read locks in a table of counts. -/
def total (counts : Nat → Option Nat) (readers : Finset Nat) : Int :=
  ∑ t ∈ readers, ((counts t).getD 0 : Int)

/-- The fields of one lock agree with each other and with the lists of the threads. -/
structure LockOk (kind : Nat → Kind) (s : State) (l : Nat) : Prop where
  vl : ∀ u, (s.lock l).tid = .owner u → (s.lock l).vl = some u
  excl : ∀ u, (s.lock l).tid = .owner u → (s.lock l).vmap = ∅
  plain : kind l ≠ .rwlock → (s.lock l).vmap = ∅
  reader : ∀ t ∈ (s.lock l).vmap, ∃ n, (s.lock l).tmap t = some (n + 1)
  entry : ∀ t n, (s.lock l).tmap t = some n → t ∈ (s.lock l).vmap
  sum : total (s.lock l).tmap (s.lock l).vmap ≤ (s.lock l).numReaders
  list : ∀ t, Holds s t l → l ∈ (s.thread t).list

section
variable (counts : Nat → Option Nat) (readers : Finset Nat) (t : Nat)

variable {readers t} in
theorem total_erase (ht : t ∈ readers) :
    total counts readers = (counts t).getD 0 + total counts (readers.erase t) :=
  (Finset.add_sum_erase readers (fun t => ((counts t).getD 0 : Int)) ht).symm

theorem total_erase_le : total counts (readers.erase t) ≤ total counts readers :=
  Finset.sum_le_sum_of_subset_of_nonneg (Finset.erase_subset t readers)
    fun _ _ _ => Int.natCast_nonneg _

/-- The count of a thread that is not in the sum. -/
theorem total_update_erase (o : Option Nat) :
    total (Function.update counts t o) (readers.erase t) = total counts (readers.erase t) := by
  refine Finset.sum_congr rfl fun u hu => ?_
  rw [Function.update_of_ne (Finset.ne_of_mem_erase hu)]

/-- The count of one thread is set. -/
theorem total_insert (n : Nat) :
    total (Function.update counts t (some n)) (insert t readers) =
      n + total counts (readers.erase t) := by
  rw [total_erase _ (Finset.mem_insert_self t readers), Function.update_self,
    Finset.erase_insert_eq_erase, total_update_erase]
  rfl

end

/-- What an operation on the lock `l` by the thread `t` leaves alone. -/
structure Touch (s s' : State) (t l : Nat) : Prop where
  lock : ∀ l', l' ≠ l → s'.lock l' = s.lock l'
  list : ∀ u l', l' ≠ l → l' ∈ (s.thread u).list → l' ∈ (s'.thread u).list
  asl : (s'.lock l).asl = (s.lock l).asl
  waitingOn : ∀ u, (s'.thread u).waitingOn = (s.thread u).waitingOn
  pc : ∀ u, (s'.thread u).pc = (s.thread u).pc
  gain : ∀ u, Holds s' u l → Holds s u l ∨ u = t

section
variable {kind : Nat → Kind} {s s' s'' : State} {t u l : Nat} {out : Out}

theorem Touch.refl (s : State) (t l : Nat) : Touch s s t l :=
  ⟨fun _ _ => rfl, fun _ _ _ h => h, rfl, fun _ => rfl, fun _ => rfl, fun _ h => .inl h⟩

theorem Touch.trans (h1 : Touch s s' t l) (h2 : Touch s' s'' t l) : Touch s s'' t l where
  lock := fun l' hl => (h2.lock l' hl).trans (h1.lock l' hl)
  list := fun u l' hl h => h2.list u l' hl (h1.list u l' hl h)
  asl := h2.asl.trans h1.asl
  waitingOn := fun u => (h2.waitingOn u).trans (h1.waitingOn u)
  pc := fun u => (h2.pc u).trans (h1.pc u)
  gain := by
    intro u hu
    rcases h2.gain u hu with h | h
    · exact h1.gain u h
    · exact .inr h

/-! ### The updates -/

@[simp] theorem setLock_lock (f : Lock → Lock) : (s.setLock l f).lock l = f (s.lock l) :=
  Function.update_self ..

theorem setLock_lock_of_ne {l' : Nat} (h : l' ≠ l) (f : Lock → Lock) :
    (s.setLock l f).lock l' = s.lock l' := Function.update_of_ne h ..

@[simp] theorem setThread_thread (f : Thread → Thread) :
    (s.setThread t f).thread t = f (s.thread t) := Function.update_self ..

theorem setThread_thread_of_ne (h : u ≠ t) (f : Thread → Thread) :
    (s.setThread t f).thread u = s.thread u := Function.update_of_ne h ..

@[simp] theorem setThread_lock (f : Thread → Thread) : (s.setThread t f).lock = s.lock := rfl

@[simp] theorem push_lock : (s.push t l).lock = s.lock := rfl

/-- The list after a `push`. -/
theorem push_list (u : Nat) :
    ((s.push t l).thread u).list = if u = t then (s.thread u).list ++ [l] else (s.thread u).list := by
  by_cases h : u = t
  · subst h
    rw [if_pos rfl]
    show ((s.setThread u _).thread u).list = _
    rw [setThread_thread]
  · rw [if_neg h]
    show ((s.setThread t _).thread u).list = _
    rw [setThread_thread_of_ne h]

theorem mem_push_list {l' : Nat} (h : l' ∈ (s.thread u).list) : l' ∈ ((s.push t l).thread u).list := by
  rw [push_list]
  split
  · exact List.mem_append_left _ h
  · exact h

theorem push_other :
    ((s.push t l).thread u).waitingOn = (s.thread u).waitingOn ∧
      ((s.push t l).thread u).pc = (s.thread u).pc := by
  show ((s.setThread t _).thread u).waitingOn = _ ∧ ((s.setThread t _).thread u).pc = _
  by_cases h : u = t
  · subst h
    rw [setThread_thread]
    exact ⟨rfl, rfl⟩
  · rw [setThread_thread_of_ne h]
    exact ⟨rfl, rfl⟩

/-- What a `pop` does. -/
theorem pop_spec (h : s.pop t l = some s') :
    s'.lock = s.lock ∧ (∀ u, (s'.thread u).waitingOn = (s.thread u).waitingOn) ∧
      (∀ u, (s'.thread u).pc = (s.thread u).pc) ∧
      (∀ u l', (l' ≠ l ∨ u ≠ t) → l' ∈ (s.thread u).list → l' ∈ (s'.thread u).list) := by
  unfold State.pop at h
  split at h
  · obtain rfl := Option.some.inj h
    refine ⟨rfl, fun u => ?_, fun u => ?_, fun u l' hne hin => ?_⟩
    · by_cases hu : u = t
      · subst hu
        rw [setThread_thread]
      · rw [setThread_thread_of_ne hu]
    · by_cases hu : u = t
      · subst hu
        rw [setThread_thread]
      · rw [setThread_thread_of_ne hu]
    · by_cases hu : u = t
      · subst hu
        have hl : l' ≠ l := hne.resolve_right fun hn => hn rfl
        rw [setThread_thread]
        rw [List.mem_reverse, List.mem_erase_of_ne hl, List.mem_reverse]
        exact hin
      · rw [setThread_thread_of_ne hu]
        exact hin
  · cases h

theorem holds_congr (h : s'.lock l = s.lock l) : Holds s' t l ↔ Holds s t l := by
  unfold Holds
  rw [h]

/-- A lock that is not touched. -/
theorem LockOk.frame (hok : LockOk kind s l) (hlock : s'.lock l = s.lock l)
    (hlist : ∀ u, l ∈ (s.thread u).list → l ∈ (s'.thread u).list) : LockOk kind s' l where
  vl := by rw [hlock]; exact hok.vl
  excl := by rw [hlock]; exact hok.excl
  plain := by rw [hlock]; exact hok.plain
  reader := by rw [hlock]; exact hok.reader
  entry := by rw [hlock]; exact hok.entry
  sum := by rw [hlock]; exact hok.sum
  list := fun u hu => hlist u (hok.list u ((holds_congr hlock).mp hu))

/-- All the locks stay as they should be when the one that is touched does. -/
theorem Touch.lockOk (htouch : Touch s s' t l) (hall : ∀ l', LockOk kind s l')
    (hl : LockOk kind s' l) : ∀ l', LockOk kind s' l' := by
  intro l'
  by_cases h : l' = l
  · rw [h]
    exact hl
  · exact (hall l').frame (htouch.lock l' h) fun u => htouch.list u l' h

/-- No readers are counted, so there are none. -/
theorem LockOk.vmap_empty (hok : LockOk kind s l) (h : (s.lock l).numReaders = 0) :
    (s.lock l).vmap = ∅ := by
  rw [Finset.eq_empty_iff_forall_notMem]
  intro t ht
  obtain ⟨n, hn⟩ := hok.reader t ht
  have hle : ((((s.lock l).tmap t).getD 0 : Nat) : Int) ≤ total (s.lock l).tmap (s.lock l).vmap :=
    Finset.single_le_sum (f := fun t => (((s.lock l).tmap t).getD 0 : Int))
      (fun i _ => Int.natCast_nonneg _) ht
  have hsum := hok.sum
  rw [hn] at hle
  simp only [Option.getD_some] at hle
  omega

/-- The lock is as it should be after an operation of the thread on it. -/
structure Does (kind : Nat → Kind) (s s' : State) (t l : Nat) : Prop where
  ok : LockOk kind s' l
  touch : Touch s s' t l

theorem Does.trans (h1 : Touch s s' t l) (h2 : Does kind s' s'' t l) : Does kind s s'' t l :=
  ⟨h2.ok, h1.trans h2.touch⟩

/-- A change of fields that say nothing about who holds the lock. -/
theorem setLock_does (hok : LockOk kind s l) (t : Nat) {f : Lock → Lock}
    (htid : (f (s.lock l)).tid = (s.lock l).tid) (hvl : (f (s.lock l)).vl = (s.lock l).vl)
    (htmap : (f (s.lock l)).tmap = (s.lock l).tmap) (hvmap : (f (s.lock l)).vmap = (s.lock l).vmap)
    (hnum : (s.lock l).numReaders ≤ (f (s.lock l)).numReaders)
    (hasl : (f (s.lock l)).asl = (s.lock l).asl) : Does kind s (s.setLock l f) t l := by
  have hholds : ∀ u, Holds (s.setLock l f) u l ↔ Holds s u l := by
    intro u
    unfold Holds
    rw [setLock_lock, htid, hvmap]
  exact {
    ok := {
      vl := by rw [setLock_lock, htid, hvl]; exact hok.vl
      excl := by rw [setLock_lock, htid, hvmap]; exact hok.excl
      plain := by rw [setLock_lock, hvmap]; exact hok.plain
      reader := by rw [setLock_lock, hvmap, htmap]; exact hok.reader
      entry := by rw [setLock_lock, hvmap, htmap]; exact hok.entry
      sum := by rw [setLock_lock, hvmap, htmap]; exact hok.sum.trans hnum
      list := fun u hu => hok.list u ((hholds u).mp hu) }
    touch := {
      lock := fun l' hl => setLock_lock_of_ne hl f
      list := fun _ _ _ h => h
      asl := by rw [setLock_lock, hasl]
      waitingOn := fun _ => rfl
      pc := fun _ => rfl
      gain := fun u hu => .inl ((hholds u).mp hu) } }

/-- `mark_and_push` on a lock that no other thread has. -/
theorem markAndPush_does (hok : LockOk kind s l)
    (hempty : (s.lock l).vmap = ∅) : Does kind s (s.markAndPush t l) t l := by
  have hlock : (s.markAndPush t l).lock l = { s.lock l with tid := .owner t, vl := some t } :=
    setLock_lock _
  have hmem : ∀ u l', l' ∈ (s.thread u).list → l' ∈ ((s.markAndPush t l).thread u).list :=
    fun u l' h => mem_push_list h
  exact {
    ok := {
      vl := by
        rw [hlock]
        intro u hu
        rw [Tid.owner.inj hu]
      excl := by rw [hlock]; exact fun _ _ => hempty
      plain := by rw [hlock]; exact fun _ => hempty
      reader := by rw [hlock]; exact hok.reader
      entry := by rw [hlock]; exact hok.entry
      sum := by rw [hlock]; exact hok.sum
      list := by
        intro u hu
        unfold Holds at hu
        rw [hlock] at hu
        rcases hu with hu | hu
        · obtain rfl := Tid.owner.inj hu
          show l ∈ ((s.push t l).thread t).list
          rw [push_list, if_pos rfl]
          exact List.mem_append_right _ (List.mem_singleton.mpr rfl)
        · exact hmem u l (hok.list u (.inr hu)) }
    touch := {
      lock := fun l' hl => setLock_lock_of_ne hl _
      list := fun u l' _ h => hmem u l' h
      asl := by rw [hlock]
      waitingOn := fun u => push_other.1
      pc := fun u => push_other.2
      gain := by
        intro u hu
        unfold Holds at hu
        rw [hlock] at hu
        rcases hu with hu | hu
        · exact .inr (Tid.owner.inj hu).symm
        · exact .inl (.inr hu) } }

/-- `release_and_signal` on a lock with an owner: nobody has it then. -/
theorem releaseAndSignal_does (hok : LockOk kind s l) (howner : (s.lock l).tid = .owner u)
    (h : s.releaseAndSignal l = some s') (t : Nat) :
    Does kind s s' t l ∧ (s'.lock l).tid = .unlocked := by
  have hempty := hok.excl u howner
  unfold State.releaseAndSignal at h
  rw [hok.vl u howner] at h
  simp only [Option.bind_eq_bind, Option.bind_some] at h
  cases hpop : s.pop u l with
  | none => simp [hpop] at h
  | some s1 =>
    obtain ⟨hlock1, hwait, hpc, hlist⟩ := pop_spec hpop
    simp only [hpop, Option.bind_some, hlock1, howner] at h
    obtain rfl := Option.some.inj h
    have hlock : (s1.setLock l fun k => { k with tid := .unlocked, vl := none }).lock l =
        { s.lock l with tid := .unlocked, vl := none } := by rw [setLock_lock, hlock1]
    have hnone : ∀ v, ¬Holds (s1.setLock l fun k => { k with tid := .unlocked, vl := none }) v l := by
      intro v hv
      unfold Holds at hv
      rw [hlock] at hv
      rcases hv with hv | hv
      · cases hv
      · rw [hempty] at hv
        exact absurd hv (Finset.notMem_empty v)
    refine ⟨⟨?_, ?_⟩, by rw [hlock]⟩
    · exact {
        vl := by rw [hlock]; exact fun v hv => by cases hv
        excl := by rw [hlock]; exact fun v hv => by cases hv
        plain := by rw [hlock]; exact hok.plain
        reader := by rw [hlock]; exact hok.reader
        entry := by rw [hlock]; exact hok.entry
        sum := by rw [hlock]; exact hok.sum
        list := fun v hv => absurd hv (hnone v) }
    · exact {
        lock := fun l' hl => by rw [setLock_lock_of_ne hl, hlock1]
        list := fun v l' hl hin => hlist v l' (.inl hl) hin
        asl := by rw [hlock]
        waitingOn := hwait
        pc := hpc
        gain := fun v hv => absurd hv (hnone v) }

/-! ### Readers -/

/-- The count of a reader is set to one or more. -/
theorem setReader_does (n : Nat) (num : Int) (hok : LockOk kind s l) (hkind : kind l = .rwlock)
    (hfree : ∀ u, (s.lock l).tid ≠ .owner u)
    (hnum : n + 1 + total (s.lock l).tmap ((s.lock l).vmap.erase t) ≤ num)
    (hlock : ∀ l', l' ≠ l → s'.lock l' = s.lock l')
    (hl : s'.lock l = { s.lock l with tmap := Function.update (s.lock l).tmap t (some (n + 1))
                                      vmap := insert t (s.lock l).vmap, numReaders := num })
    (hlist : ∀ u l', l' ∈ (s.thread u).list → l' ∈ (s'.thread u).list)
    (hmine : l ∈ (s'.thread t).list)
    (hother : ∀ u, (s'.thread u).waitingOn = (s.thread u).waitingOn ∧
      (s'.thread u).pc = (s.thread u).pc) : Does kind s s' t l where
  ok := {
    vl := by rw [hl]; exact fun u hu => absurd hu (hfree u)
    excl := by rw [hl]; exact fun u hu => absurd hu (hfree u)
    plain := fun hne => absurd hkind hne
    reader := by
      rw [hl]
      intro u hu
      by_cases hut : u = t
      · exact ⟨n, by rw [hut]; exact Function.update_self ..⟩
      · obtain ⟨m, hm⟩ := hok.reader u ((Finset.mem_insert.mp hu).resolve_left hut)
        exact ⟨m, (Function.update_of_ne hut ..).trans hm⟩
    entry := by
      rw [hl]
      intro u m hm
      by_cases hut : u = t
      · rw [hut]
        exact Finset.mem_insert_self t _
      · exact Finset.mem_insert_of_mem
          (hok.entry u m ((Function.update_of_ne hut ..).symm.trans hm))
    sum := by
      rw [hl]
      show total (Function.update (s.lock l).tmap t (some (n + 1))) (insert t (s.lock l).vmap) ≤ num
      rw [total_insert]
      exact hnum
    list := by
      intro u hu
      unfold Holds at hu
      rw [hl] at hu
      rcases hu with hu | hu
      · exact absurd hu (hfree u)
      · rcases Finset.mem_insert.mp hu with rfl | hu
        · exact hmine
        · exact hlist u l (hok.list u (.inr hu)) }
  touch := {
    lock := hlock
    list := fun u l' _ h => hlist u l' h
    asl := by rw [hl]
    waitingOn := fun u => (hother u).1
    pc := fun u => (hother u).2
    gain := by
      intro u hu
      unfold Holds at hu
      rw [hl] at hu
      rcases hu with hu | hu
      · exact .inl (.inl hu)
      · rcases Finset.mem_insert.mp hu with rfl | hu
        · exact .inr rfl
        · exact .inl (.inr hu) }

/-- `++num_readers` and `set_initial_read_lock_intern`. -/
theorem setInitialReadLock_does (hok : LockOk kind s l) (hkind : kind l = .rwlock)
    (hfree : ∀ u, (s.lock l).tid ≠ .owner u) (t : Nat) :
    Does kind s ((s.setLock l fun k =>
      { k with numReaders := k.numReaders + 1 }).setInitialReadLock t l) t l := by
  have hsum := hok.sum
  have hle := total_erase_le (s.lock l).tmap (s.lock l).vmap t
  unfold State.setInitialReadLock
  refine setReader_does 0 ((s.lock l).numReaders + 1) hok hkind hfree ?_ ?_ ?_ ?_ ?_ ?_
  · omega
  · intro l' hl
    rw [push_lock, setLock_lock_of_ne hl, setLock_lock_of_ne hl]
  · rw [push_lock, setLock_lock, setLock_lock]
  · intro u l' h
    exact mem_push_list h
  · rw [push_list, if_pos rfl]
    exact List.mem_append_right _ (List.mem_singleton.mpr rfl)
  · exact fun u => push_other

theorem markReadLock_does (hok : LockOk kind s l) (hkind : kind l = .rwlock)
    (hfree : ∀ u, (s.lock l).tid ≠ .owner u) (t : Nat) :
    Does kind s (s.markReadLock t l) t l := by
  unfold State.markReadLock
  simp only [setLock_lock]
  cases hn : (s.lock l).tmap t with
  | none => exact setInitialReadLock_does hok hkind hfree t
  | some n =>
    have hin := hok.entry t n hn
    have hsum := hok.sum
    rw [total_erase _ hin, hn] at hsum
    simp only [Option.getD_some] at hsum
    refine setReader_does n ((s.lock l).numReaders + 1) hok hkind hfree ?_ ?_ ?_
      (fun _ _ h => h) (hok.list t (.inr hin)) (fun _ => ⟨rfl, rfl⟩)
    · omega
    · intro l' hl
      rw [setLock_lock_of_ne hl, setLock_lock_of_ne hl]
    · rw [setLock_lock, setLock_lock, Finset.insert_eq_of_mem hin]

theorem markReadLock_tid (t : Nat) : ((s.markReadLock t l).lock l).tid = (s.lock l).tid := by
  unfold State.markReadLock State.setInitialReadLock
  simp only [setLock_lock]
  split <;> simp

theorem markReadLocks_does (hkind : kind l = .rwlock) (t : Nat) :
    ∀ (n : Nat) (s : State), LockOk kind s l → (∀ u, (s.lock l).tid ≠ .owner u) →
      Does kind s (State.markReadLocks t l n s) t l := by
  intro n
  induction n with
  | zero => intro s hok _; exact ⟨hok, Touch.refl s t l⟩
  | succ n ih =>
    intro s hok hfree
    have hmark := markReadLock_does hok hkind hfree t
    refine Does.trans hmark.touch (ih _ hmark.ok ?_)
    rw [markReadLock_tid]
    exact hfree

/-- A reader is taken out of the maps, and the lock out of its list. -/
theorem dropReader_does (num : Int) (hok : LockOk kind s l) (hin : t ∈ (s.lock l).vmap)
    (hnum : total (s.lock l).tmap ((s.lock l).vmap.erase t) ≤ num)
    (hlock : ∀ l', l' ≠ l → s'.lock l' = s.lock l')
    (hl : s'.lock l = { s.lock l with tmap := Function.update (s.lock l).tmap t none
                                      vmap := (s.lock l).vmap.erase t, numReaders := num })
    (hlist : ∀ u l', (l' ≠ l ∨ u ≠ t) → l' ∈ (s.thread u).list → l' ∈ (s'.thread u).list)
    (hwait : ∀ u, (s'.thread u).waitingOn = (s.thread u).waitingOn)
    (hpc : ∀ u, (s'.thread u).pc = (s.thread u).pc) : Does kind s s' t l := by
  -- a lock with readers has no owner
  have hfree : ∀ u, (s.lock l).tid ≠ .owner u := by
    intro u hu
    rw [hok.excl u hu] at hin
    exact absurd hin (Finset.notMem_empty t)
  have hholds : ∀ u, Holds s' u l → Holds s u l ∧ u ≠ t := by
    intro u hu
    unfold Holds at hu
    rw [hl] at hu
    rcases hu with hu | hu
    · exact absurd hu (hfree u)
    · exact ⟨.inr (Finset.mem_of_mem_erase hu), Finset.ne_of_mem_erase hu⟩
  exact {
    ok := {
      vl := by rw [hl]; exact fun u hu => absurd hu (hfree u)
      excl := by rw [hl]; exact fun u hu => absurd hu (hfree u)
      plain := by
        rw [hl]
        intro hne
        show (s.lock l).vmap.erase t = ∅
        rw [hok.plain hne]
        rfl
      reader := by
        rw [hl]
        intro u hu
        obtain ⟨m, hm⟩ := hok.reader u (Finset.mem_of_mem_erase hu)
        exact ⟨m, (Function.update_of_ne (Finset.ne_of_mem_erase hu) ..).trans hm⟩
      entry := by
        rw [hl]
        intro u m hm
        have hm' : Function.update (s.lock l).tmap t none u = some m := hm
        by_cases hut : u = t
        · rw [hut, Function.update_self] at hm'
          cases hm'
        · rw [Function.update_of_ne hut] at hm'
          exact Finset.mem_erase.mpr ⟨hut, hok.entry u m hm'⟩
      sum := by
        rw [hl]
        show total (Function.update (s.lock l).tmap t none) ((s.lock l).vmap.erase t) ≤ num
        rw [total_update_erase]
        exact hnum
      list := fun u hu => hlist u l (.inr (hholds u hu).2) (hok.list u (hholds u hu).1) }
    touch := {
      lock := hlock
      list := fun u l' hl' h => hlist u l' (.inl hl') h
      asl := by rw [hl]
      waitingOn := hwait
      pc := hpc
      gain := fun u hu => .inl (hholds u hu).1 } }

/-- `release_read_lock_intern`. -/
theorem releaseReadLock_does (hok : LockOk kind s l) {n : Nat} (hn : (s.lock l).tmap t = some n)
    (h : s.releaseReadLock t l n = some s') :
    Does kind s s' t l ∧ (n ≠ 1 → (s'.lock l).tmap t = some (n - 1)) := by
  have hin := hok.entry t n hn
  obtain ⟨m, hm⟩ := hok.reader t hin
  have hnm : n = m + 1 := Option.some.inj (hn.symm.trans hm)
  have hsum := hok.sum
  rw [total_erase _ hin, hn] at hsum
  simp only [Option.getD_some] at hsum
  unfold State.releaseReadLock State.cleanupReadLock at h
  by_cases hlast : n - 1 = 0
  · -- the last read lock of the thread
    rw [if_pos hlast, if_pos (by rw [setLock_lock]; exact hin)] at h
    simp only [Option.bind_eq_bind, Option.bind_eq_some_iff] at h
    obtain ⟨s1, hpop, hret⟩ := h
    obtain ⟨hlock1, hwait, hpc, hlist⟩ := pop_spec hpop
    obtain rfl := Option.some.inj hret
    refine ⟨?_, fun hne => absurd (by omega) hne⟩
    refine dropReader_does ((s.lock l).numReaders - 1) hok hin (by omega) ?_ ?_ hlist hwait hpc
    · intro l' hl
      rw [setLock_lock_of_ne hl, hlock1, setLock_lock_of_ne hl]
    · rw [setLock_lock, hlock1, setLock_lock]
  · rw [if_neg hlast] at h
    obtain rfl := Option.some.inj h
    have hlock : ((s.setLock l fun k => { k with numReaders := k.numReaders - 1 }).setLock l
        fun k => { k with tmap := Function.update k.tmap t (some (n - 1)) }).lock l =
          { s.lock l with tmap := Function.update (s.lock l).tmap t (some (n - 1))
                          numReaders := (s.lock l).numReaders - 1 } := by
      rw [setLock_lock, setLock_lock]
    constructor
    · have hfree : ∀ u, (s.lock l).tid ≠ .owner u := by
        intro u hu
        rw [hok.excl u hu] at hin
        exact absurd hin (Finset.notMem_empty t)
      by_cases hkind : kind l = .rwlock
      · refine setReader_does (n - 2) ((s.lock l).numReaders - 1) hok hkind hfree ?_ ?_ ?_
          (fun _ _ h => h) (hok.list t (.inr hin)) (fun _ => ⟨rfl, rfl⟩)
        · omega
        · intro l' hl
          rw [setLock_lock_of_ne hl, setLock_lock_of_ne hl]
        · rw [hlock, Finset.insert_eq_of_mem hin, show n - 2 + 1 = n - 1 by omega]
      · rw [hok.plain hkind] at hin
        exact absurd hin (Finset.notMem_empty t)
    · intro _
      rw [hlock]
      exact Function.update_self ..

/-- All the read locks of a thread are released. -/
theorem releaseReadLocks_does (t : Nat) :
    ∀ (n : Nat) (s s' : State), LockOk kind s l → (s.lock l).tmap t = some n →
      State.releaseReadLocks t l n s = some s' → Does kind s s' t l := by
  intro n
  induction n with
  | zero =>
    intro s s' hok _ h
    obtain rfl := Option.some.inj h
    exact ⟨hok, Touch.refl s t l⟩
  | succ n ih =>
    intro s s' hok hn h
    unfold State.releaseReadLocks at h
    simp only [Option.bind_eq_bind, Option.bind_eq_some_iff] at h
    obtain ⟨s1, hrel, hrest⟩ := h
    obtain ⟨hdoes, hleft⟩ := releaseReadLock_does hok hn hrel
    by_cases hlast : n = 0
    · subst hlast
      obtain rfl := Option.some.inj hrest
      exact hdoes
    · exact Does.trans hdoes.touch (ih s1 s' hdoes.ok (hleft (by omega)) hrest)

/-! ### The calls -/

theorem popAll_spec (l : Nat) :
    ∀ (us : List Nat) (s s' : State), State.popAll l us s = some s' →
      s'.lock = s.lock ∧ (∀ u, (s'.thread u).waitingOn = (s.thread u).waitingOn) ∧
        (∀ u, (s'.thread u).pc = (s.thread u).pc) ∧
        (∀ u l', l' ≠ l → l' ∈ (s.thread u).list → l' ∈ (s'.thread u).list) := by
  intro us
  induction us with
  | nil =>
    intro s s' h
    obtain rfl := Option.some.inj h
    exact ⟨rfl, fun _ => rfl, fun _ => rfl, fun _ _ _ h => h⟩
  | cons v us ih =>
    intro s s' h
    unfold State.popAll at h
    simp only [Option.bind_eq_bind, Option.bind_eq_some_iff] at h
    obtain ⟨s1, hpop, hrest⟩ := h
    obtain ⟨hlock1, hwait1, hpc1, hlist1⟩ := pop_spec hpop
    obtain ⟨hlock2, hwait2, hpc2, hlist2⟩ := ih s1 s' hrest
    exact ⟨hlock2.trans hlock1, fun u => (hwait2 u).trans (hwait1 u),
      fun u => (hpc2 u).trans (hpc1 u),
      fun u l' hl h => hlist2 u l' hl (hlist1 u l' (.inl hl) h)⟩

/-- A deleted lock is held by nobody. -/
theorem deleted_does (hlock : ∀ l', l' ≠ l → s'.lock l' = s.lock l')
    (htid : (s'.lock l).tid = .deleted) (hvmap : (s'.lock l).vmap = ∅)
    (htmap : (s'.lock l).tmap = fun _ => none) (hnum : (s'.lock l).numReaders = 0)
    (hasl : (s'.lock l).asl = (s.lock l).asl)
    (hlist : ∀ u l', l' ≠ l → l' ∈ (s.thread u).list → l' ∈ (s'.thread u).list)
    (hwait : ∀ u, (s'.thread u).waitingOn = (s.thread u).waitingOn)
    (hpc : ∀ u, (s'.thread u).pc = (s.thread u).pc) : Does kind s s' t l := by
  have hnone : ∀ u, ¬Holds s' u l := by
    intro u hu
    unfold Holds at hu
    rw [htid, hvmap] at hu
    rcases hu with hu | hu
    · cases hu
    · exact absurd hu (Finset.notMem_empty u)
  exact {
    ok := {
      vl := by rw [htid]; exact fun u hu => by cases hu
      excl := fun _ _ => hvmap
      plain := fun _ => hvmap
      reader := by rw [hvmap]; exact fun u hu => absurd hu (Finset.notMem_empty u)
      entry := by rw [htmap]; exact fun u n hn => by cases hn
      sum := by
        rw [hvmap, hnum]
        exact Int.le_refl 0
      list := fun u hu => absurd hu (hnone u) }
    touch := ⟨hlock, hlist, hasl, hwait, hpc, fun u hu => absurd hu (hnone u)⟩ }

theorem destructor_does (h : s.destructor t l = some (s', out)) : Does kind s s' t l := by
  unfold State.destructor at h
  simp only [Option.bind_eq_bind, Option.bind_eq_some_iff] at h
  obtain ⟨s1, hpopAll, h⟩ := h
  obtain ⟨hlock1, hwait1, hpc1, hlist1⟩ := popAll_spec l _ s s1 hpopAll
  split at h
  · obtain ⟨v, -, h⟩ := Option.bind_eq_some_iff.mp h
    obtain ⟨s2, hpop, h⟩ := Option.bind_eq_some_iff.mp h
    obtain ⟨hlock2, hwait2, hpc2, hlist2⟩ := pop_spec hpop
    obtain ⟨rfl, -⟩ := Prod.mk.inj (Option.some.inj h)
    refine deleted_does ?_ ?_ ?_ ?_ ?_ ?_ ?_ ?_ ?_
    · intro l' hl
      rw [setLock_lock_of_ne hl, hlock2, setLock_lock_of_ne hl, hlock1]
    · rw [setLock_lock]
    · rw [setLock_lock, hlock2, setLock_lock]
    · rw [setLock_lock, hlock2, setLock_lock]
    · rw [setLock_lock, hlock2, setLock_lock]
    · rw [setLock_lock, hlock2, setLock_lock, hlock1]
    · exact fun u l' hl hin => hlist2 u l' (.inl hl) (hlist1 u l' hl hin)
    · exact fun u => (hwait2 u).trans (hwait1 u)
    · exact fun u => (hpc2 u).trans (hpc1 u)
  · obtain ⟨rfl, -⟩ := Prod.mk.inj (Option.some.inj h)
    refine deleted_does ?_ ?_ ?_ ?_ ?_ ?_ hlist1 hwait1 hpc1
    · intro l' hl
      rw [setLock_lock_of_ne hl, setLock_lock_of_ne hl, hlock1]
    · rw [setLock_lock]
    · rw [setLock_lock, setLock_lock]
    · rw [setLock_lock, setLock_lock]
    · rw [setLock_lock, setLock_lock]
    · rw [setLock_lock, setLock_lock, hlock1]

theorem Does.refl (hok : LockOk kind s l) (t : Nat) : Does kind s s t l := ⟨hok, Touch.refl s t l⟩

/-- `mark_and_push` on a gate whose count was raised. -/
theorem raiseMark_does (hok : LockOk kind s l) (t : Nat) (hempty : (s.lock l).vmap = ∅) :
    Does kind s (s.setLock l fun k => { k with count := k.count + 1 }) t l ∧
      Does kind s ((s.setLock l fun k => { k with count := k.count + 1 }).markAndPush t l) t l := by
  have hraise : Does kind s (s.setLock l fun k => { k with count := k.count + 1 }) t l :=
    setLock_does hok t rfl rfl rfl rfl (Int.le_refl _) rfl
  refine ⟨hraise, Does.trans hraise.touch (markAndPush_does hraise.ok ?_)⟩
  rw [setLock_lock]
  exact hempty

theorem tryGrab_does (hok : LockOk kind s l) (t : Nat) :
    Does kind s (s.tryGrab (kind l) t l).1 t l := by
  unfold State.tryGrab
  cases hkind : kind l with
  | mutex =>
    have hempty := hok.plain (by rw [hkind]; decide)
    simp only
    split
    · exact Does.refl hok t
    · exact markAndPush_does hok hempty
  | gate =>
    have hempty := hok.plain (by rw [hkind]; decide)
    simp only
    split
    · exact Does.refl hok t
    · split
      · exact (raiseMark_does hok t hempty).2
      · exact (raiseMark_does hok t hempty).1
  | rwlock =>
    simp only
    split
    · exact Does.refl hok t
    · next hcond =>
      push Not at hcond
      exact markAndPush_does hok (hok.vmap_empty hcond.2)

theorem tryReadLock_does (hok : LockOk kind s l) (hkind : kind l = .rwlock) (t : Nat) :
    Does kind s (s.tryReadLock t l).1 t l := by
  unfold State.tryReadLock
  split
  · exact Does.refl hok t
  · next hcond =>
    have hfree : (s.lock l).tid = .unlocked := not_not.mp hcond
    exact markReadLock_does hok hkind (fun u hu => by rw [hfree] at hu; cases hu) t

theorem lowerCount_does (hok : LockOk kind s l) (howner : (s.lock l).tid = .owner u) (t : Nat)
    (h : s.lowerCount l = some (s', out)) : Does kind s s' t l := by
  unfold State.lowerCount at h
  split at h
  · cases h
  · obtain ⟨s1, hrel, h⟩ := Option.bind_eq_some_iff.mp h
    obtain ⟨rfl, -⟩ := Prod.mk.inj (Option.some.inj h)
    have hzero : Does kind s (s.setLock l fun k => { k with count := 0 }) t l :=
      setLock_does hok t rfl rfl rfl rfl (Int.le_refl _) rfl
    have howner' : ((s.setLock l fun k => { k with count := 0 }).lock l).tid = .owner u := by
      rw [setLock_lock]
      exact howner
    exact Does.trans hzero.touch (releaseAndSignal_does hzero.ok howner' hrel t).1
  · obtain ⟨rfl, -⟩ := Prod.mk.inj (Option.some.inj h)
    exact setLock_does hok t rfl rfl rfl rfl (Int.le_refl _) rfl

/-- A call that changes nothing. -/
theorem same_does (hok : LockOk kind s l) {o : Out} (h : some (s, o) = some (s', out)) (t : Nat) :
    Does kind s s' t l := by
  obtain ⟨rfl, -⟩ := Prod.mk.inj (Option.some.inj h)
  exact Does.refl hok t

/-- `release_and_signal` as the end of a call. -/
theorem releaseEnd_does (hok : LockOk kind s l) (howner : (s.lock l).tid = .owner u) {o : Out}
    (h : (s.releaseAndSignal l).bind (fun s1 => some (s1, o)) = some (s', out)) (t : Nat) :
    Does kind s s' t l := by
  obtain ⟨s1, hrel, h⟩ := Option.bind_eq_some_iff.mp h
  obtain ⟨rfl, -⟩ := Prod.mk.inj (Option.some.inj h)
  exact (releaseAndSignal_does hok howner hrel t).1

theorem release_does (hok : LockOk kind s l) (h : s.release (kind l) t l = some (s', out)) :
    Does kind s s' t l := by
  unfold State.release at h
  split at h
  · exact same_does hok h t
  · cases hkind : kind l with
    | mutex => rw [hkind] at h; exact same_does hok h t
    | gate => rw [hkind] at h; exact same_does hok h t
    | rwlock => rw [hkind] at h; exact same_does hok h t
  · next u howner =>
    split at h
    · exact same_does hok h t
    · cases hkind : kind l with
      | gate =>
        rw [hkind] at h
        exact lowerCount_does hok howner t h
      | mutex =>
        rw [hkind] at h
        exact releaseEnd_does hok howner h t
      | rwlock =>
        rw [hkind] at h
        exact releaseEnd_does hok howner h t

theorem releaseAny_does (hok : LockOk kind s l) (h : s.releaseAny (kind l) t l = some (s', out)) :
    Does kind s s' t l := by
  unfold State.releaseAny at h
  cases hkind : kind l with
  | mutex =>
    simp only [hkind] at h
    split at h
    · next u howner => exact releaseEnd_does hok howner h t
    · exact same_does hok h t
  | gate =>
    simp only [hkind] at h
    split at h
    · next howner => exact lowerCount_does hok howner t h
    · cases h
  | rwlock =>
    simp only [hkind] at h
    split at h
    · obtain ⟨n, hn, h⟩ := Option.bind_eq_some_iff.mp h
      obtain ⟨s1, hrel, h⟩ := Option.bind_eq_some_iff.mp h
      obtain ⟨rfl, -⟩ := Prod.mk.inj (Option.some.inj h)
      exact (releaseReadLock_does hok hn hrel).1
    · split at h
      · next u howner => exact releaseEnd_does hok howner h t
      · exact same_does hok h t

theorem readUnlock_does (hok : LockOk kind s l) (h : s.readUnlock t l = some (s', out)) :
    Does kind s s' t l := by
  unfold State.readUnlock at h
  split at h
  · exact same_does hok h t
  · split at h
    · exact same_does hok h t
    · split at h
      · exact same_does hok h t
      · next n hn =>
        obtain ⟨s1, hrel, h⟩ := Option.bind_eq_some_iff.mp h
        obtain ⟨rfl, -⟩ := Prod.mk.inj (Option.some.inj h)
        exact (releaseReadLock_does hok hn hrel).1

theorem cleanup_does (hok : LockOk kind s l) (h : s.cleanup (kind l) t l = some (s', out)) :
    Does kind s s' t l := by
  -- the lock of a `Mutex` or of a `Gate` that has ended is released, and its count is 0
  have hplain : (if (s.lock l).tid = .owner t then do
        let s1 ← s.releaseAndSignal l
        return (if kind l = .gate then s1.setLock l fun k => { k with count := 0 } else s1,
          .raised (.terminated t))
      else some (s, Out.ok)) = some (s', out) → Does kind s s' t l := by
    intro h
    split at h
    · next howner =>
      obtain ⟨s1, hrel, h⟩ := Option.bind_eq_some_iff.mp h
      obtain ⟨rfl, -⟩ := Prod.mk.inj (Option.some.inj h)
      have hdoes := (releaseAndSignal_does hok howner hrel t).1
      split
      · exact Does.trans hdoes.touch (setLock_does hdoes.ok t rfl rfl rfl rfl (Int.le_refl _) rfl)
      · exact hdoes
    · exact same_does hok h t
  unfold State.cleanup at h
  cases hkind : kind l with
  | mutex => rw [hkind] at h hplain; exact hplain h
  | gate => rw [hkind] at h hplain; exact hplain h
  | rwlock =>
    simp only [hkind] at h
    split at h
    · split at h
      · next hin =>
        obtain ⟨s1, hpop, h⟩ := Option.bind_eq_some_iff.mp h
        obtain ⟨n, hn, h⟩ := Option.bind_eq_some_iff.mp h
        obtain ⟨rfl, -⟩ := Prod.mk.inj (Option.some.inj h)
        obtain ⟨hlock1, hwait, hpc, hlist⟩ := pop_spec hpop
        rw [hlock1] at hn
        have hsum := hok.sum
        rw [total_erase _ hin, hn] at hsum
        simp only [Option.getD_some] at hsum
        refine dropReader_does ((s.lock l).numReaders - n) hok hin (by omega) ?_ ?_ hlist hwait hpc
        · intro l' hl
          rw [setLock_lock_of_ne hl, hlock1]
        · rw [setLock_lock, hlock1]
      · cases h
    · split at h
      · next u howner =>
        split at h
        · cases h
        · exact releaseEnd_does hok howner h t
      · exact same_does hok h t

end

end Qore.VLock
