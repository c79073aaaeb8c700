import Qore.VLock.Locks

/-!
# `Qore.VLock.Deadlock`: two threads never block each other

Two threads that wait, each for a lock of the other, cannot both be blocked. Both wrote their
`waiting_on` before they read the other's. The one that read later finds what the other waits
for, and it is a lock in its own list, so it raises `THREAD-DEADLOCK`.

* `Passed s t u`: thread `t` in `waitOn` is done with thread `u`, or will be without an
  exception: `u` was not among the owners that are left to look at, and what was read of it is
  not what it waits for now.
* `Inv.pair`: two threads that wait for each other have not both passed the other.
* `Inv.settle` is for the steps after which the thread does not wait, `Inv.move` for those inside
  `waitOn`.
* `deadlock_detected` is the result, over every run.
-/

set_option autoImplicit false

namespace Qore.VLock

open Qore.Lib

/-- The lock of a thread whose `waiting_on` is set. -/
def Pc.waits : Pc → Option Nat
  | .load l _ _ => some l
  | .search l _ _ _ _ => some l
  | .blocked l _ => some l
  | .leave l _ _ => some l
  | _ => none

/-- The lock whose `asl_lock` the thread has. -/
def Pc.inside : Pc → Option Nat
  | .test l _ _ => some l
  | .store l _ _ => some l
  | .load l _ _ => some l
  | .search l _ _ _ _ => some l
  | .leave l _ _ => some l
  | _ => none

/-- The thread `t` does not raise an exception for `u` any more. -/
def Passed (s : State) (t u : Nat) : Prop :=
  match (s.thread t).pc with
  | .blocked _ _ => True
  | .load _ _ todo => u ∉ todo
  | .search _ _ v found todo => u ∉ todo ∧ (u = v → found ≠ (s.thread u).waitingOn)
  | _ => False

/-- Each of the threads waits for a lock that the other holds. -/
structure Mutual (s : State) (t u l l' : Nat) : Prop where
  ne : t ≠ u
  left : (s.thread t).waitingOn = some l
  right : (s.thread u).waitingOn = some l'
  holds : Holds s u l
  holds' : Holds s t l'

/-- What every state of a run meets. -/
structure Inv (kind : Nat → Kind) (s : State) : Prop where
  ok : ∀ l, LockOk kind s l
  waits : ∀ t, (s.thread t).waitingOn = (s.thread t).pc.waits
  inside : ∀ t l, (s.thread t).pc.inside = some l → (s.lock l).asl = some t
  store : ∀ t l job us, (s.thread t).pc = .store l job us → ∀ u, Holds s u l → u ∈ us
  pair : ∀ t u l l', Mutual s t u l l' → ¬(Passed s t u ∧ Passed s u t)

theorem inv_init (kind : Nat → Kind) : Inv kind State.init where
  ok := fun l => {
    vl := fun u hu => by cases hu
    excl := fun _ _ => rfl
    plain := fun _ => rfl
    reader := fun u hu => absurd hu (Finset.notMem_empty u)
    entry := fun u n hn => by cases hn
    sum := Int.le_refl 0
    list := by
      rintro u (hu | hu)
      · cases hu
      · exact absurd hu (Finset.notMem_empty u) }
  waits := fun _ => rfl
  inside := fun t l h => by cases h
  store := fun t l job us h => by cases h
  pair := fun t u l l' h => by cases h.left

section
variable {kind : Nat → Kind} {s s1 s' : State} {t l : Nat} {u : Nat} {job : Job} {out : Out}

/-- `asl_lock` is held by one thread only. -/
theorem Inv.inside_unique (hinv : Inv kind s)
    (hin : (s.lock l).asl = none ∨ (s.lock l).asl = some t) (hu : u ≠ t) :
    (s.thread u).pc.inside ≠ some l := by
  intro h
  have hasl := hinv.inside u l h
  rcases hin with hin | hin
  · rw [hin] at hasl
    cases hasl
  · rw [hin] at hasl
    exact hu (Option.some.inj hasl).symm

theorem Mutual.symm {l' : Nat} (h : Mutual s t u l l') : Mutual s u t l' l :=
  ⟨h.ne.symm, h.right, h.left, h.holds', h.holds⟩

/-- The thread does something to a lock whose `asl_lock` no other thread has, and goes on at a
place where it does not wait. -/
theorem Inv.settle (hinv : Inv kind s) (hdoes : Does kind s s1 t l)
    (hasl : (s.lock l).asl = none ∨ (s.lock l).asl = some t) (a : Option Nat)
    (hlock : ∀ l', l' ≠ l → s'.lock l' = s1.lock l')
    (hl : s'.lock l = { s1.lock l with asl := a })
    (hother : ∀ u, u ≠ t → s'.thread u = s1.thread u)
    (hlist : (s'.thread t).list = (s1.thread t).list)
    (hwait : (s'.thread t).waitingOn = none) (hwaits : (s'.thread t).pc.waits = none)
    (hinside : ∀ l', (s'.thread t).pc.inside = some l' → l' = l ∧ a = some t)
    (hstore : ∀ l' job us, (s'.thread t).pc = .store l' job us → ∀ u, Holds s1 u l → u ∈ us) :
    Inv kind s' := by
  have hunique : ∀ u, u ≠ t → (s.thread u).pc.inside ≠ some l := fun u hu =>
    hinv.inside_unique hasl hu
  have hlists : ∀ u, (s'.thread u).list = (s1.thread u).list := by
    intro u
    by_cases hu : u = t
    · rw [hu, hlist]
    · rw [hother u hu]
  have hholds : ∀ u l', Holds s' u l' ↔ Holds s1 u l' := by
    intro u l'
    by_cases h : l' = l
    · unfold Holds
      rw [h, hl]
    · exact holds_congr (hlock l' h)
  -- the other threads are where they were
  have hpc : ∀ u, u ≠ t → (s'.thread u).pc = (s.thread u).pc := fun u hu => by
    rw [hother u hu, hdoes.touch.pc]
  have hwaiting : ∀ u, u ≠ t → (s'.thread u).waitingOn = (s.thread u).waitingOn := fun u hu => by
    rw [hother u hu, hdoes.touch.waitingOn]
  have hgain : ∀ u l', u ≠ t → Holds s' u l' → Holds s u l' := by
    intro u l' hu h
    rw [hholds] at h
    by_cases heq : l' = l
    · subst heq
      exact (hdoes.touch.gain u h).resolve_right hu
    · exact (holds_congr (hdoes.touch.lock l' heq)).mp h
  have hok1 := hdoes.touch.lockOk hinv.ok hdoes.ok
  refine ⟨?_, ?_, ?_, ?_, ?_⟩
  · intro l'
    by_cases h : l' = l
    · subst h
      exact {
        vl := by rw [hl]; exact (hok1 l').vl
        excl := by rw [hl]; exact (hok1 l').excl
        plain := by rw [hl]; exact (hok1 l').plain
        reader := by rw [hl]; exact (hok1 l').reader
        entry := by rw [hl]; exact (hok1 l').entry
        sum := by rw [hl]; exact (hok1 l').sum
        list := fun u hu => by rw [hlists]; exact (hok1 l').list u ((hholds u l').mp hu) }
    · exact (hok1 l').frame (hlock l' h) fun u hin => by rw [hlists]; exact hin
  · intro u
    by_cases hu : u = t
    · rw [hu, hwait, hwaits]
    · rw [hwaiting u hu, hpc u hu]
      exact hinv.waits u
  · intro u l' hin
    by_cases hu : u = t
    · subst hu
      obtain ⟨rfl, ha⟩ := hinside l' hin
      rw [hl]
      exact ha
    · rw [hpc u hu] at hin
      have hne : l' ≠ l := fun heq => hunique u hu (heq ▸ hin)
      rw [hlock l' hne, hdoes.touch.lock l' hne]
      exact hinv.inside u l' hin
  · intro u l' job us hpcu v hv
    by_cases hu : u = t
    · subst hu
      obtain ⟨rfl, -⟩ := hinside l' (by rw [hpcu]; rfl)
      exact hstore l' job us hpcu v ((hholds v l').mp hv)
    · rw [hpc u hu] at hpcu
      have hne : l' ≠ l := fun heq => hunique u hu (by rw [hpcu, heq]; rfl)
      refine hinv.store u l' job us hpcu v ?_
      exact (holds_congr (hdoes.touch.lock l' hne)).mp ((hholds v l').mp hv)
  · intro u v k k' hmut hpass
    -- both of them wait, so none of them is `t`
    have hut : u ≠ t := by
      rintro rfl
      exact absurd hmut.left (by simp [hwait])
    have hvt : v ≠ t := by
      rintro rfl
      exact absurd hmut.right (by simp [hwait])
    have hpassed : ∀ a b, a ≠ t → b ≠ t → Passed s' a b → Passed s a b := by
      intro a b ha hb h
      unfold Passed at h ⊢
      rw [hpc a ha, hwaiting b hb] at h
      exact h
    refine hinv.pair u v k k' ⟨hmut.ne, ?_, ?_, ?_, ?_⟩
      ⟨hpassed u v hut hvt hpass.1, hpassed v u hvt hut hpass.2⟩
    · rw [← hwaiting u hut]
      exact hmut.left
    · rw [← hwaiting v hvt]
      exact hmut.right
    · exact hgain v k hvt hmut.holds
    · exact hgain u k' hut hmut.holds'

/-- A step inside `waitOn`: no lock changes hands. What the thread has passed after the step, it
had passed before. -/
theorem Inv.move (hinv : Inv kind s) (hasl : (s.lock l).asl = none ∨ (s.lock l).asl = some t)
    (a : Option Nat) (hlock : ∀ l', l' ≠ l → s'.lock l' = s.lock l')
    (hl : s'.lock l = { s.lock l with asl := a })
    (hother : ∀ u, u ≠ t → s'.thread u = s.thread u)
    (hlist : (s'.thread t).list = (s.thread t).list)
    (hwaits : (s'.thread t).waitingOn = (s'.thread t).pc.waits)
    (hinside : ∀ l', (s'.thread t).pc.inside = some l' → l' = l ∧ a = some t)
    (hstore : ∀ l' job us, (s'.thread t).pc ≠ .store l' job us)
    (hpair : ∀ u k k', Mutual s' t u k k' → Passed s' t u →
      (s.thread t).waitingOn = some k ∧ Passed s t u) : Inv kind s' := by
  have hholds : ∀ u l', Holds s' u l' ↔ Holds s u l' := by
    intro u l'
    by_cases h : l' = l
    · unfold Holds
      rw [h, hl]
    · exact holds_congr (hlock l' h)
  have hlists : ∀ u, (s'.thread u).list = (s.thread u).list := by
    intro u
    by_cases hu : u = t
    · rw [hu, hlist]
    · rw [hother u hu]
  -- the pairs with `t`, from its side
  have hmine : ∀ u k k', Mutual s' t u k k' → ¬(Passed s' t u ∧ Passed s' u t) := by
    intro u k k' hmut hpass
    obtain ⟨hwait, hpassed⟩ := hpair u k k' hmut hpass.1
    have hut : u ≠ t := hmut.ne.symm
    refine hinv.pair t u k k' ⟨hmut.ne, hwait, ?_, (hholds u k).mp hmut.holds,
      (hholds t k').mp hmut.holds'⟩ ⟨hpassed, ?_⟩
    · rw [← hother u hut]
      exact hmut.right
    · have h := hpass.2
      unfold Passed at h ⊢
      rw [hother u hut, hmut.left, ← hwait] at h
      exact h
  refine ⟨?_, ?_, ?_, ?_, ?_⟩
  · intro l'
    by_cases h : l' = l
    · subst h
      have hok := hinv.ok l'
      exact {
        vl := by rw [hl]; exact hok.vl
        excl := by rw [hl]; exact hok.excl
        plain := by rw [hl]; exact hok.plain
        reader := by rw [hl]; exact hok.reader
        entry := by rw [hl]; exact hok.entry
        sum := by rw [hl]; exact hok.sum
        list := fun u hu => by rw [hlists]; exact hok.list u ((hholds u l').mp hu) }
    · exact (hinv.ok l').frame (hlock l' h) fun u hin => by rw [hlists]; exact hin
  · intro u
    by_cases hu : u = t
    · rw [hu]
      exact hwaits
    · rw [hother u hu]
      exact hinv.waits u
  · intro u l' hin
    by_cases hu : u = t
    · subst hu
      obtain ⟨rfl, ha⟩ := hinside l' hin
      rw [hl]
      exact ha
    · rw [hother u hu] at hin
      have hne : l' ≠ l := fun heq => hinv.inside_unique hasl hu (heq ▸ hin)
      rw [hlock l' hne]
      exact hinv.inside u l' hin
  · intro u l' job us hpcu v hv
    by_cases hu : u = t
    · subst hu
      exact absurd hpcu (hstore l' job us)
    · rw [hother u hu] at hpcu
      exact hinv.store u l' job us hpcu v ((hholds v l').mp hv)
  · intro u v k k' hmut hpass
    by_cases hut : u = t
    · subst hut
      exact hmine v k k' hmut hpass
    · by_cases hvt : v = t
      · subst hvt
        exact hmine u k' k hmut.symm hpass.symm
      · refine hinv.pair u v k k' ⟨hmut.ne, ?_, ?_, (hholds v k).mp hmut.holds,
          (hholds u k').mp hmut.holds'⟩ ?_
        · rw [← hother u hut]
          exact hmut.left
        · rw [← hother v hvt]
          exact hmut.right
        · unfold Passed at hpass ⊢
          rw [hother u hut, hother v hvt] at hpass
          exact hpass

/-! ### The steps -/

@[simp] theorem goto_lock (pc : Pc) : (s.goto t pc).lock = s.lock := rfl

theorem goto_thread_of_ne (h : u ≠ t) (pc : Pc) : (s.goto t pc).thread u = s.thread u :=
  setThread_thread_of_ne h _

@[simp] theorem goto_thread (pc : Pc) : (s.goto t pc).thread t = { s.thread t with pc } :=
  setThread_thread _

@[simp] theorem setAsl_thread (a : Option Nat) : (s.setAsl l a).thread = s.thread := rfl

@[simp] theorem setAsl_lock (a : Option Nat) : (s.setAsl l a).lock l = { s.lock l with asl := a } :=
  setLock_lock _

theorem setAsl_lock_of_ne {l' : Nat} (h : l' ≠ l) (a : Option Nat) :
    (s.setAsl l a).lock l' = s.lock l' := setLock_lock_of_ne h _

/-- A call of a thread that is in no call, and does not wait. -/
theorem Inv.call (hinv : Inv kind s) (hfree : s.Free t l) (hdoes : Does kind s s' t l) :
    Inv kind s' := by
  unfold State.Free at hfree
  cases hpc : (s.thread t).pc with
  | idle =>
    simp only [hpc] at hfree
    have hpc' : (s'.thread t).pc = .idle := (hdoes.touch.pc t).trans hpc
    refine hinv.settle hdoes (.inl hfree) none (fun _ _ => rfl) ?_ (fun _ _ => rfl) rfl ?_ ?_ ?_ ?_
    · rw [← hfree, ← hdoes.touch.asl]
    · rw [hdoes.touch.waitingOn, hinv.waits, hpc]
      rfl
    · rw [hpc']
      rfl
    · rw [hpc']
      exact fun l' h => by cases h
    · rw [hpc']
      exact fun l' job us h => by cases h
  | _ => simp [hpc] at hfree

/-- After an operation on a lock the thread goes to a place where it does not wait. -/
theorem Inv.settleTo (hinv : Inv kind s) (hdoes : Does kind s s1 t l)
    (hasl : (s.lock l).asl = none ∨ (s.lock l).asl = some t)
    (hwait : (s.thread t).waitingOn = none) (a : Option Nat) (pc : Pc) (hwaits : pc.waits = none)
    (hinside : ∀ l', pc.inside = some l' → l' = l ∧ a = some t)
    (hstore : ∀ l' job us, pc ≠ .store l' job us) : Inv kind ((s1.setAsl l a).goto t pc) := by
  refine hinv.settle hdoes hasl a ?_ ?_ ?_ ?_ ?_ ?_ ?_ ?_
  · intro l' hl
    rw [goto_lock, setAsl_lock_of_ne hl]
  · rw [goto_lock, setAsl_lock]
  · intro u hu
    rw [goto_thread_of_ne hu, setAsl_thread]
  · rw [goto_thread, setAsl_thread]
  · rw [goto_thread, setAsl_thread]
    exact (hdoes.touch.waitingOn t).trans hwait
  · rw [goto_thread]
    exact hwaits
  · rw [goto_thread]
    exact hinside
  · rw [goto_thread]
    exact fun l' job us h => absurd h (hstore l' job us)

/-- The end of a call. -/
theorem Inv.finish (hinv : Inv kind s) (hdoes : Does kind s s1 t l)
    (hasl : (s.lock l).asl = some t) (hwait : (s.thread t).waitingOn = none) :
    Inv kind (s1.finish t l) :=
  hinv.settleTo hdoes (.inr hasl) hwait none .idle rfl (fun _ h => by cases h)
    (fun _ _ _ h => by cases h)

/-- The owners that `waitOn` looks at are all the holders. -/
theorem mem_owners (hok : LockOk kind s l) {us : List Nat} (h : State.owners (s.lock l) = some us)
    (hu : Holds s u l) : u ∈ us := by
  unfold State.owners at h
  split at h
  · next v hv =>
    rw [hok.vl v hv] at h
    obtain rfl := Option.some.inj h
    rcases hu with hu | hu
    · rw [hv] at hu
      rw [Tid.owner.inj hu]
      exact List.mem_singleton.mpr rfl
    · rw [hok.excl v hv] at hu
      exact absurd hu (Finset.notMem_empty u)
  · next hv =>
    obtain rfl := Option.some.inj h
    rcases hu with hu | hu
    · exact absurd hu (hv u)
    · exact (Finset.mem_sort _).mpr hu

theorem Inv.toWait (hinv : Inv kind s) (hasl : (s.lock l).asl = some t)
    (hwait : (s.thread t).waitingOn = none) (h : s.toWait t l job = some (s', out)) :
    Inv kind s' := by
  obtain ⟨us, hus, h⟩ := Option.bind_eq_some_iff.mp h
  obtain ⟨rfl, -⟩ := Prod.mk.inj (Option.some.inj h)
  refine hinv.settle (Does.refl (hinv.ok l) t) (.inr hasl) (some t) ?_ ?_ ?_ ?_ ?_ ?_ ?_ ?_
  · exact fun _ _ => rfl
  · rw [goto_lock, ← hasl]
  · exact fun u hu => goto_thread_of_ne hu _
  · rw [goto_thread]
  · rw [goto_thread]
    exact hwait
  · rw [goto_thread]
    rfl
  · rw [goto_thread]
    intro l' h
    exact ⟨(Option.some.inj h).symm, rfl⟩
  · rw [goto_thread]
    intro l' job' us' hpc u hu
    obtain ⟨-, -, rfl⟩ := Pc.store.inj hpc
    exact mem_owners (hinv.ok l) hus hu

/-- The head of the loop: the lock is taken, or refused, or the thread goes to `waitOn`. -/
theorem Inv.test (hinv : Inv kind s) (hasl : (s.lock l).asl = some t)
    (hwait : (s.thread t).waitingOn = none) {waited : Bool}
    (h : s.test (kind l) t l job waited = some (s', out)) : Inv kind s' := by
  have hok := hinv.ok l
  have hend : ∀ {s1 : State} {o : Out}, Does kind s s1 t l →
      some (s1.finish t l, o) = some (s', out) → Inv kind s' := by
    intro s1 o hdoes ho
    obtain ⟨rfl, -⟩ := Prod.mk.inj (Option.some.inj ho)
    exact hinv.finish hdoes hasl hwait
  unfold State.test at h
  split at h
  · next hkind =>
    have hempty := hok.plain (by rw [hkind]; decide)
    unfold State.testMutex at h
    split at h
    · exact hinv.toWait hasl hwait h
    · exact hend (Does.refl hok t) h
    · exact hend (markAndPush_does hok hempty) h
  · next hkind =>
    have hempty := hok.plain (by rw [hkind]; decide)
    have hgate := raiseMark_does hok t hempty
    unfold State.testGate at h
    split at h
    · exact hend (Does.refl hok t) h
    · split at h
      · exact hend hgate.2 h
      · exact hend hgate.1 h
    · split at h
      · split at h
        · exact hend hgate.2 h
        · exact hend hgate.1 h
      · exact hinv.toWait hasl hwait h
  · unfold State.testWrite at h
    split at h
    · exact hinv.toWait hasl hwait h
    · exact hend (Does.refl hok t) h
    · split at h
      · exact hinv.toWait hasl hwait h
      · next hnum =>
        exact hend (markAndPush_does hok (hok.vmap_empty (not_not.mp hnum))) h
  · next hkind _ =>
    unfold State.testRead at h
    split at h
    · exact hinv.toWait hasl hwait h
    · exact hend (Does.refl hok t) h
    · next hunlocked =>
      have hfree : ∀ u, (s.lock l).tid ≠ .owner u := fun u hu => by
        rw [hunlocked] at hu
        cases hu
      refine hend ?_ h
      split
      · have hfirst := setInitialReadLock_does hok hkind hfree t
        refine Does.trans hfirst.touch (markReadLocks_does hkind t _ _ hfirst.ok ?_)
        unfold State.setInitialReadLock
        simp only [push_lock, setLock_lock]
        exact hfree
      · have hfirst := markReadLock_does hok hkind hfree t
        refine Does.trans hfirst.touch (markReadLocks_does hkind t _ _ hfirst.ok ?_)
        rw [markReadLock_tid]
        exact hfree

/-- A step of a thread inside `waitOn` that keeps `asl_lock` and `waiting_on`. -/
theorem Inv.moveTo (hinv : Inv kind s) (hasl : (s.lock l).asl = some t) {pc pc' : Pc}
    (hpc : (s.thread t).pc = pc) (hold : pc.waits = some l) (hnew : pc'.waits = some l)
    (hinside : pc'.inside = some l) (hstore : ∀ l' job us, pc' ≠ .store l' job us)
    (hpass : ∀ u k k', Mutual s t u k k' → Passed (s.goto t pc') t u → Passed s t u) :
    Inv kind (s.goto t pc') := by
  have hwait : (s.thread t).waitingOn = some l := by rw [hinv.waits, hpc, hold]
  refine hinv.move (.inr hasl) (some t) (fun _ _ => rfl) ?_ (fun u hu => goto_thread_of_ne hu _) ?_ ?_
    ?_ ?_ ?_
  · rw [goto_lock, ← hasl]
  · rw [goto_thread]
  · rw [goto_thread]
    exact hwait.trans hnew.symm
  · rw [goto_thread]
    intro l' h
    exact ⟨Option.some.inj (h.symm.trans hinside), rfl⟩
  · rw [goto_thread]
    exact hstore
  · intro u k k' hmut hp
    have hmut' : Mutual s t u k k' := by
      refine ⟨hmut.ne, ?_, ?_, hmut.holds, hmut.holds'⟩
      · have h := hmut.left
        rw [goto_thread] at h
        exact h
      · have h := hmut.right
        rw [goto_thread_of_ne hmut.ne.symm] at h
        exact h
    exact ⟨hmut'.left, hpass u k k' hmut' hp⟩

/-- `waiting_on.store(asl)`: nobody who holds the lock has been looked at. -/
theorem Inv.storeStep (hinv : Inv kind s) {us : List Nat} (hpc : (s.thread t).pc = .store l job us)
    :
    Inv kind (s.setThread t fun th => { th with waitingOn := some l, pc := .load l job us }) := by
  have hasl : (s.lock l).asl = some t := hinv.inside t l (by rw [hpc]; rfl)
  refine hinv.move (.inr hasl) (some t) (fun _ _ => rfl) ?_
    (fun u hu => setThread_thread_of_ne hu _) ?_ ?_ ?_ ?_ ?_
  · rw [setThread_lock, ← hasl]
  · rw [setThread_thread]
  · rw [setThread_thread]
    rfl
  · rw [setThread_thread]
    intro l' h
    exact ⟨(Option.some.inj h).symm, rfl⟩
  · rw [setThread_thread]
    intro l' job' us' h
    cases h
  · intro u k k' hmut hp
    have hk : l = k := by
      have h := hmut.left
      rw [setThread_thread] at h
      exact Option.some.inj h
    subst hk
    unfold Passed at hp
    rw [setThread_thread] at hp
    exact absurd (hinv.store t l job us hpc u hmut.holds) hp

/-- The load of the `waiting_on` of an owner: what is read is what it waits for. -/
theorem Inv.loadStep (hinv : Inv kind s) {todo : List Nat}
    (hpc : (s.thread t).pc = .load l job (u :: todo)) :
    Inv kind (s.goto t (.search l job u (s.thread u).waitingOn todo)) := by
  have hasl : (s.lock l).asl = some t := hinv.inside t l (by rw [hpc]; rfl)
  refine hinv.moveTo hasl hpc rfl rfl rfl (fun _ _ _ h => by cases h) ?_
  intro v k k' hmut hp
  unfold Passed at hp ⊢
  rw [goto_thread] at hp
  rw [hpc]
  obtain ⟨hv, hread⟩ := hp
  simp only [List.mem_cons, not_or]
  refine ⟨?_, hv⟩
  intro heq
  have hne := hread heq
  rw [goto_thread_of_ne hmut.ne.symm, heq] at hne
  exact hne rfl

/-- The search in the own list: an owner that waits for a lock of this thread is found. -/
theorem Inv.searchStep (hinv : Inv kind s) {found : Option Nat} {todo : List Nat}
    (hpc : (s.thread t).pc = .search l job u found todo)
    (hnot : ∀ g, found = some g → g ∉ (s.thread t).list) :
    Inv kind (s.goto t (.load l job todo)) := by
  have hasl : (s.lock l).asl = some t := hinv.inside t l (by rw [hpc]; rfl)
  refine hinv.moveTo hasl hpc rfl rfl rfl (fun _ _ _ h => by cases h) ?_
  intro v k k' hmut hp
  unfold Passed at hp ⊢
  rw [goto_thread] at hp
  rw [hpc]
  refine ⟨hp, fun _ hread => ?_⟩
  -- the thread `v` waits for `k'`, which is in the list of `t`
  rw [hmut.right] at hread
  exact hnot k' hread ((hinv.ok k').list t hmut.holds')

/-- The condition wait: all the owners have been looked at. -/
theorem Inv.blockStep (hinv : Inv kind s) (hpc : (s.thread t).pc = .load l job []) :
    Inv kind ((s.setAsl l none).goto t (.blocked l job)) := by
  have hasl : (s.lock l).asl = some t := hinv.inside t l (by rw [hpc]; rfl)
  have hwait : (s.thread t).waitingOn = some l := by rw [hinv.waits, hpc]; rfl
  refine hinv.move (.inr hasl) none ?_ ?_ ?_ ?_ ?_ ?_ ?_ ?_
  · intro l' hl
    rw [goto_lock, setAsl_lock_of_ne hl]
  · rw [goto_lock, setAsl_lock]
  · intro u hu
    rw [goto_thread_of_ne hu, setAsl_thread]
  · rw [goto_thread, setAsl_thread]
  · rw [goto_thread, setAsl_thread]
    exact hwait
  · rw [goto_thread]
    intro l' h
    cases h
  · rw [goto_thread]
    intro l' job' us h
    cases h
  · intro u k k' hmut _
    have hk := hmut.left
    rw [goto_thread, setAsl_thread] at hk
    refine ⟨hk, ?_⟩
    unfold Passed
    rw [hpc]
    exact List.not_mem_nil

/-- The thread comes out of the condition wait, or raises an exception. -/
theorem Inv.leaveStep (hinv : Inv kind s) (job : Job) (rc : Int)
    (hasl : (s.lock l).asl = none ∨ (s.lock l).asl = some t)
    (hwait : (s.thread t).waitingOn = some l) :
    Inv kind ((s.setAsl l (some t)).goto t (.leave l job rc)) := by
  refine hinv.move hasl (some t) ?_ ?_ ?_ ?_ ?_ ?_ ?_ ?_
  · intro l' hl
    rw [goto_lock, setAsl_lock_of_ne hl]
  · rw [goto_lock, setAsl_lock]
  · intro u hu
    rw [goto_thread_of_ne hu, setAsl_thread]
  · rw [goto_thread, setAsl_thread]
  · rw [goto_thread, setAsl_thread]
    exact hwait
  · rw [goto_thread]
    intro l' h
    exact ⟨(Option.some.inj h).symm, rfl⟩
  · rw [goto_thread]
    intro l' job' us h
    cases h
  · intro u k k' _ hp
    unfold Passed at hp
    rw [goto_thread] at hp
    exact absurd hp id

theorem setAsl_self {a : Option Nat} (h : (s.lock l).asl = a) : s.setAsl l a = s := by
  subst h
  show ({ s with lock := Function.update s.lock l (s.lock l) } : State) = s
  rw [Function.update_eq_self]

/-- `waiting_on.store(nullptr)`, and back to the loop or to the end of the call. -/
theorem Inv.returnStep (hinv : Inv kind s) {rc : Int} (hpc : (s.thread t).pc = .leave l job rc)
    (a : Option Nat) (pc : Pc) (hwaits : pc.waits = none)
    (hinside : ∀ l', pc.inside = some l' → l' = l ∧ a = some t)
    (hstore : ∀ l' job us, pc ≠ .store l' job us) :
    Inv kind (((s.setThread t fun th => { th with waitingOn := none }).setAsl l a).goto t pc) := by
  have hasl : (s.lock l).asl = some t := hinv.inside t l (by rw [hpc]; rfl)
  refine hinv.settle (Does.refl (hinv.ok l) t) (.inr hasl) a ?_ ?_ ?_ ?_ ?_ ?_ ?_ ?_
  · intro l' hl
    rw [goto_lock, setAsl_lock_of_ne hl, setThread_lock]
  · rw [goto_lock, setAsl_lock, setThread_lock]
  · intro u hu
    rw [goto_thread_of_ne hu, setAsl_thread, setThread_thread_of_ne hu]
  · rw [goto_thread, setAsl_thread, setThread_thread]
  · rw [goto_thread, setAsl_thread, setThread_thread]
  · rw [goto_thread]
    exact hwaits
  · rw [goto_thread]
    exact hinside
  · rw [goto_thread]
    exact fun l' job us h => absurd h (hstore l' job us)

/-- The steps of a call that is under way. -/
theorem Inv.advance (hinv : Inv kind s) (h : s.advance kind t = some (s', out)) : Inv kind s' := by
  unfold State.advance at h
  split at h
  · next l job waited hpc =>
    have hwait : (s.thread t).waitingOn = none := by rw [hinv.waits, hpc]; rfl
    exact hinv.test (hinv.inside t l (by rw [hpc]; rfl)) hwait h
  · next l job us hpc =>
    split at h
    · cases h
    · obtain ⟨rfl, -⟩ := Prod.mk.inj (Option.some.inj h)
      exact hinv.storeStep hpc
  · next l job u todo hpc =>
    obtain ⟨rfl, -⟩ := Prod.mk.inj (Option.some.inj h)
    exact hinv.loadStep hpc
  · next l job hpc =>
    obtain ⟨rfl, -⟩ := Prod.mk.inj (Option.some.inj h)
    exact hinv.blockStep hpc
  · next l job u found todo hpc =>
    split at h
    · obtain ⟨rfl, -⟩ := Prod.mk.inj (Option.some.inj h)
      exact hinv.searchStep hpc fun g hg => by cases hg
    · next g =>
      split at h
      · obtain ⟨rfl, -⟩ := Prod.mk.inj (Option.some.inj h)
        have hasl : (s.lock l).asl = some t := hinv.inside t l (by rw [hpc]; rfl)
        have hwait : (s.thread t).waitingOn = some l := by rw [hinv.waits, hpc]; rfl
        have hleave := hinv.leaveStep job (-1) (.inr hasl) hwait
        rwa [setAsl_self hasl] at hleave
      · next hnot =>
        obtain ⟨rfl, -⟩ := Prod.mk.inj (Option.some.inj h)
        exact hinv.searchStep hpc fun g' hg => Option.some.inj hg ▸ hnot
  · next l job rc hpc =>
    split at h
    · obtain ⟨rfl, -⟩ := Prod.mk.inj (Option.some.inj h)
      exact hinv.returnStep hpc none .idle rfl (fun _ h => by cases h) (fun _ _ _ h => by cases h)
    · obtain ⟨rfl, -⟩ := Prod.mk.inj (Option.some.inj h)
      have hasl : (s.lock l).asl = some t := hinv.inside t l (by rw [hpc]; rfl)
      have hback := hinv.returnStep hpc (some t) (.test l job true) rfl
        (fun l' h => ⟨(Option.some.inj h).symm, rfl⟩) (fun _ _ _ h => by cases h)
      rwa [setAsl_self (s := s.setThread t fun th => { th with waitingOn := none }) hasl] at hback
  · cases h

/-- A thread that is in no call enters a call that may wait. -/
theorem Inv.enter (hinv : Inv kind s) (hasl : (s.lock l).asl = none)
    (hwait : (s.thread t).waitingOn = none) (job : Job) : Inv kind (s.enter t l job) :=
  hinv.settleTo (Does.refl (hinv.ok l) t) (.inl hasl) hwait (some t) (.test l job false) rfl
    (fun _ h => ⟨(Option.some.inj h).symm, rfl⟩) (fun _ _ _ h => by cases h)

theorem Free.asl (h : s.Free t l) : (s.lock l).asl = none := by
  unfold State.Free at h
  split at h
  · exact h
  · exact absurd h id

theorem Free.pc (h : s.Free t l) : (s.thread t).pc = .idle := by
  unfold State.Free at h
  split at h
  · next hpc => exact hpc
  · exact absurd h id

theorem Inv.externWait (hinv : Inv kind s) (hfree : s.Free t l)
    (h : s.externWait (kind l) t l = some (s', out)) : Inv kind s' := by
  have hok := hinv.ok l
  have hasl := Free.asl hfree
  have hwait : (s.thread t).waitingOn = none := by rw [hinv.waits, Free.pc hfree]; rfl
  have hsame : ∀ {o : Out}, some (s, o) = some (s', out) → Inv kind s' := by
    intro o ho
    obtain ⟨rfl, -⟩ := Prod.mk.inj (Option.some.inj ho)
    exact hinv
  -- the locks of the thread are released, and it waits for the condition
  have hgo : ∀ {s1 : State} {mode : Mode} {times : Nat}, Does kind s s1 t l →
      Inv kind (s1.goto t (.condition l mode times)) := by
    intro s1 mode times hdoes
    have hsettle := hinv.settleTo hdoes (.inl hasl) hwait none (.condition l mode times) rfl
      (fun _ h => by cases h) (fun _ _ _ h => by cases h)
    rwa [setAsl_self (hdoes.touch.asl.trans hasl)] at hsettle
  unfold State.externWait at h
  cases hkind : kind l with
  | gate =>
    rw [hkind] at h
    exact hsame h
  | mutex =>
    simp only [hkind] at h
    split at h
    · next howner =>
      obtain ⟨s1, hrel, h⟩ := Option.bind_eq_some_iff.mp h
      obtain ⟨rfl, -⟩ := Prod.mk.inj (Option.some.inj h)
      exact hgo (releaseAndSignal_does hok howner hrel t).1
    · split at h
      · split at h <;> exact hsame h
      · next hne => exact absurd trivial hne
  | rwlock =>
    simp only [hkind] at h
    split at h
    · next howner =>
      obtain ⟨s1, hrel, h⟩ := Option.bind_eq_some_iff.mp h
      obtain ⟨rfl, -⟩ := Prod.mk.inj (Option.some.inj h)
      exact hgo (releaseAndSignal_does hok howner hrel t).1
    · split at h
      · next hne => cases hne
      · split at h
        · exact hsame h
        · split at h
          · exact hsame h
          · next n hn =>
            obtain ⟨s1, hrel, h⟩ := Option.bind_eq_some_iff.mp h
            obtain ⟨rfl, -⟩ := Prod.mk.inj (Option.some.inj h)
            exact hgo (releaseReadLocks_does t n s s1 hok hn hrel)

/-- Every step keeps the invariant. -/
theorem Inv.step (hinv : Inv kind s) {a : Action} (h : s.step kind a = some (s', out)) :
    Inv kind s' := by
  unfold State.step at h
  cases a with
  | grab t l timeoutMs =>
    simp only at h
    split at h
    · next hfree =>
      have hwait : (s.thread t).waitingOn = none := by rw [hinv.waits, Free.pc hfree]; rfl
      have henter := hinv.enter (Free.asl hfree) hwait ⟨.write, 1, timeoutMs⟩
      unfold State.grab at h
      split at h
      · obtain ⟨rfl, -⟩ := Prod.mk.inj (Option.some.inj h)
        exact henter
      · split at h
        · obtain ⟨rfl, -⟩ := Prod.mk.inj (Option.some.inj h)
          exact hinv
        · obtain ⟨rfl, -⟩ := Prod.mk.inj (Option.some.inj h)
          exact henter
    · cases h
  | readLock t l timeoutMs =>
    simp only at h
    split at h
    · next hcond =>
      have hwait : (s.thread t).waitingOn = none := by rw [hinv.waits, Free.pc hcond.1]; rfl
      unfold State.readLock at h
      split at h
      · obtain ⟨rfl, -⟩ := Prod.mk.inj (Option.some.inj h)
        exact hinv
      · obtain ⟨rfl, -⟩ := Prod.mk.inj (Option.some.inj h)
        exact hinv.enter (Free.asl hcond.1) hwait _
    · cases h
  | tryGrab t l =>
    simp only at h
    split at h
    · next hfree =>
      have hdoes := tryGrab_does (hinv.ok l) t
      rw [Option.some.inj h] at hdoes
      exact hinv.call hfree hdoes
    · cases h
  | tryReadLock t l =>
    simp only at h
    split at h
    · next hcond =>
      have hdoes := tryReadLock_does (hinv.ok l) hcond.2 t
      rw [Option.some.inj h] at hdoes
      exact hinv.call hcond.1 hdoes
    · cases h
  | release t l =>
    simp only at h
    split at h
    · next hfree => exact hinv.call hfree (release_does (hinv.ok l) h)
    · cases h
  | releaseAny t l =>
    simp only at h
    split at h
    · next hfree => exact hinv.call hfree (releaseAny_does (hinv.ok l) h)
    · cases h
  | readUnlock t l =>
    simp only at h
    split at h
    · next hcond => exact hinv.call hcond.1 (readUnlock_does (hinv.ok l) h)
    · cases h
  | externWait t l =>
    simp only at h
    split at h
    · next hfree => exact hinv.externWait hfree h
    · cases h
  | cleanup t l =>
    simp only at h
    split at h
    · next hfree => exact hinv.call hfree (cleanup_does (hinv.ok l) h)
    · cases h
  | destructor t l =>
    simp only at h
    split at h
    · next hfree => exact hinv.call hfree (destructor_does h)
    · cases h
  | advance t => exact hinv.advance h
  | wake t timedOut =>
    simp only at h
    split at h
    · next l job hpc =>
      split at h
      · cases h
      · next hasl =>
        split at h
        · cases h
        · obtain ⟨rfl, -⟩ := Prod.mk.inj (Option.some.inj h)
          have hwait : (s.thread t).waitingOn = some l := by rw [hinv.waits, hpc]; rfl
          exact hinv.leaveStep job _ (.inl (not_not.mp hasl)) hwait
    · cases h
  | condWake t =>
    simp only at h
    split at h
    · next l mode times hpc =>
      split at h
      · cases h
      · next hasl =>
        obtain ⟨rfl, -⟩ := Prod.mk.inj (Option.some.inj h)
        have hwait : (s.thread t).waitingOn = none := by rw [hinv.waits, hpc]; rfl
        exact hinv.enter (not_not.mp hasl) hwait _
    · cases h

end

/-- The thread is inside the condition wait of `waitOn` for a lock. -/
def Blocked (s : State) (t l : Nat) : Prop := ∃ job, (s.thread t).pc = .blocked l job

/-- No two threads are blocked where each waits for a lock that the other holds. -/
def NoMutualBlock (s : State) : Prop :=
  ∀ t u l l', t ≠ u → Blocked s t l → Blocked s u l' → Holds s t l' → ¬Holds s u l

variable {s : State}

theorem Inv.noMutualBlock {kind : Nat → Kind} (hinv : Inv kind s) : NoMutualBlock s := by
  rintro t u l l' hne ⟨job, hpc⟩ ⟨job', hpc'⟩ hholds' hholds
  have hmut : Mutual s t u l l' := by
    refine ⟨hne, ?_, ?_, hholds, hholds'⟩
    · rw [hinv.waits, hpc]
      rfl
    · rw [hinv.waits, hpc']
      rfl
  refine hinv.pair t u l l' hmut ⟨?_, ?_⟩
  · unfold Passed
    rw [hpc]
    trivial
  · unfold Passed
    rw [hpc']
    trivial

/-- The thread is in `waitOn`, in front of the condition wait or inside it. -/
def Checking (s : State) (t : Nat) : Prop :=
  match (s.thread t).pc with
  | .load _ _ _ => True
  | .search _ _ _ _ _ => True
  | .blocked _ _ => True
  | _ => False

/-- The thread `t` will look for what `u` waits for in its own list. -/
def ToSearch (s : State) (t u : Nat) : Prop :=
  match (s.thread t).pc with
  | .load _ _ todo => u ∈ todo
  | .search _ _ v found todo => u ∈ todo ∨ (u = v ∧ found = (s.thread u).waitingOn)
  | _ => False

/-- A deadlock of two threads is found: they are not both blocked, and as long as both are in
`waitOn` one of them has the search for the other's lock in front of it, which raises
`THREAD-DEADLOCK`. -/
structure Detected (kind : Nat → Kind) (s : State) : Prop where
  block : NoMutualBlock s
  search : ∀ t u l l', Mutual s t u l l' → Checking s t → Checking s u →
    ToSearch s t u ∨ ToSearch s u t
  raises : ∀ t u l l' job todo, Mutual s t u l l' →
    (s.thread t).pc = .search l job u (s.thread u).waitingOn todo →
    ∃ s', s.advance kind t = some (s', .raised (.deadlock u t (decide (job.limit ≠ 0))))

theorem passed_of_not_toSearch {t u : Nat} (hcheck : Checking s t) (hnot : ¬ToSearch s t u) :
    Passed s t u := by
  unfold Checking at hcheck
  unfold ToSearch at hnot
  unfold Passed
  split at hcheck
  · next hpc =>
    rw [hpc] at hnot
    rw [hpc]
    exact hnot
  · next hpc =>
    rw [hpc] at hnot
    rw [hpc]
    push Not at hnot
    exact hnot
  · next hpc =>
    rw [hpc]
    trivial
  · exact absurd hcheck id

theorem Inv.detected {kind : Nat → Kind} (hinv : Inv kind s) : Detected kind s where
  block := hinv.noMutualBlock
  search := by
    intro t u l l' hmut hcheck hcheck'
    by_contra hnot
    push Not at hnot
    exact hinv.pair t u l l' hmut
      ⟨passed_of_not_toSearch hcheck hnot.1, passed_of_not_toSearch hcheck' hnot.2⟩
  raises := by
    intro t u l l' job todo hmut hpc
    have hin := (hinv.ok l').list t hmut.holds'
    refine ⟨s.goto t (.leave l job (-1)), ?_⟩
    unfold State.advance
    rw [hpc, hmut.right]
    simp only [if_pos hin]

/-- A deadlock of two threads is always found, in every run and with any locks: no two threads
are blocked where each waits for a lock of the other, with a timeout or without, and one of them
gets the exception. -/
theorem deadlock_detected (kind : Nat → Kind) (acts : List Action) :
    Lts.Always (State.step kind) (Detected kind) State.init acts :=
  Lts.Always.mono (fun _ hinv => hinv.detected) acts _
    (Lts.always_of_step (fun _ _ _ _ hinv h => hinv.step h) acts _ (inv_init kind))

-- Thread 1 has the mutex 0 and is blocked on the mutex 1 of thread 2, which then asks for 0.
example :
    (Lts.run (State.step fun _ => .mutex) State.init
      [.grab 1 0 0, .advance 1, .grab 2 1 0, .advance 2,
       .grab 1 1 0, .advance 1, .advance 1, .advance 1, .advance 1, .advance 1,
       .grab 2 0 0, .advance 2, .advance 2, .advance 2, .advance 2]).map Prod.snd =
      some [.none, .ok, .none, .ok, .none, .none, .none, .none, .none, .none,
        .none, .none, .none, .none, .raised (.deadlock 1 2 false)] := by
  decide

end Qore.VLock
