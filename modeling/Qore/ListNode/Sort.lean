import Qore.ListNode.Counts
import Qore.ListNode.Raise

/-!
# `Qore.ListNode.Sort`: the scan count in `sort` and `sortStable`

The sorts work on a copy of the list. `qsort` moves the entries and does not touch the count.
`mergesort` moves the entries to two temporary lists, sets the length to 0 and pushes them again,
so it counts them a second time.

The entries are those of the sorts of `Qore.ListNode.Order`. Here `fault` is also a count that goes
below zero.

* `sort_follows` and `sortStable_follows`: the sorts with counts return the entries of the sorts
  without them, unless a count goes below zero.
* `sort_good` and `sortStable_good`: the sorted list is good when `mergesort` is not used on a list
  of two or more entries with one that needs a scan.
-/

set_option autoImplicit false

namespace Qore.ListNode

open Qore.Lib
open ListPriv
open Qore.ListNode.Order (Stop leftFirst quicksortLimit)

variable {V T : Type}

section
variable (env : Env V T) (rc : Nat → V → V → Option Int) (ascending : Bool)

/-- `getAndClear` in a sort. -/
def clearEntry (l : ListPriv V T) (i : Nat) : Except (Stop Unit) (ListPriv V T × V) :=
  match l.getAndClear env i with
  | some res => .ok res
  | none => .error .fault

/-- The lists and positions of the merge. -/
structure Merge (V T : Type) where
  this : ListPriv V T
  l : ListPriv V T
  r : ListPriv V T
  li : Nat
  ri : Nat
  k : Nat

/-- The first loop of the merge, at most `n` times. -/
def mergeLoop : Nat → Merge V T → Except (Stop Unit) (Merge V T)
  | n, m =>
    match m.l.entry[m.li]?, m.r.entry[m.ri]? with
    | some lv, some rv =>
      match rc m.k lv rv with
      | none => .error (.raised ())
      | some res =>
        match n with
        | 0 => .error .fault
        | n + 1 =>
          if leftFirst ascending res then do
            let (l, v) ← clearEntry env m.l m.li
            mergeLoop n { m with this := m.this.pushIntern env v, l, li := m.li + 1, k := m.k + 1 }
          else do
            let (r, v) ← clearEntry env m.r m.ri
            mergeLoop n { m with this := m.this.pushIntern env v, r, ri := m.ri + 1, k := m.k + 1 }
    | _, _ => .ok m

/-- The loops that push what is left of one list, at most `n` times. -/
def drainLoop : Nat → ListPriv V T → ListPriv V T → Nat → Except (Stop Unit) (ListPriv V T)
  | n, this, l, li =>
    match l.entry[li]? with
    | some _ =>
      match n with
      | 0 => .error .fault
      | n + 1 => do
        let (l, v) ← clearEntry env l li
        drainLoop n (this.pushIntern env v) l (li + 1)
    | none => .ok this

/-- `mergesort` on a list of less than `n` entries, from the `k`-th comparison on. -/
def mergesort : Nat → ListPriv V T → Nat → Except (Stop Unit) (ListPriv V T × Nat)
  | 0, _, _ => .error .fault
  | n + 1, this, k =>
    if this.entry.length ≤ 1 then .ok (this, k)
    else do
      let empty : ListPriv V T := { entry := [], objCount := 0, complexTypeInfo := env.autoType }
      let mid := this.entry.length / 2
      let l := empty.pushAll env (this.entry.take mid)
      let r := empty.pushAll env (this.entry.drop mid)
      let (l, k) ← mergesort n l k
      let (r, k) ← mergesort n r k
      let m ← mergeLoop env rc ascending (l.entry.length + r.entry.length)
        -- the length was set to 0, and `obj_count` was left as it is
        { this := { this with entry := [] }, l, r, li := 0, ri := 0, k }
      let this ← drainLoop env m.l.entry.length m.this m.l m.li
      let this ← drainLoop env m.r.entry.length this m.r m.ri
      return (this, m.k)

/-- The exception of a sort, without what it leaves behind. -/
def forget {S α : Type} : Except (Stop S) α → Except (Stop Unit) α
  | .ok a => .ok a
  | .error (.raised _) => .error (.raised ())
  | .error .fault => .error .fault

/-- `QoreListNode::sort` and `sortDescending`. -/
def sort (l : ListPriv V T) : Except (Stop Unit) (ListPriv V T) :=
  let rv := l.copy env false
  if l.entry.length = 0 then .ok rv
  else if l.entry.length > quicksortLimit then
    (mergesort env rc ascending (rv.entry.length + 1) rv 0).map Prod.fst
  else
    (forget (Order.qsort rc ascending rv.entry.length rv.entry 0 (l.entry.length - 1) 0)).map
      fun res => { rv with entry := res.1 }

/-- `QoreListNode::sortStable` and `sortDescendingStable`. -/
def sortStable (l : ListPriv V T) : Except (Stop Unit) (ListPriv V T) :=
  let rv := l.copy env false
  if l.entry.length = 0 then .ok rv
  else (mergesort env rc ascending (rv.entry.length + 1) rv 0).map Prod.fst

end

/-! ### The sorts with and without counts -/

section
variable {α β γ δ S : Type} {fails : Prop} {R : α → β → Prop} {R' : γ → δ → Prop}
  {x : Except (Stop Unit) α} {y : Except (Stop S) β}

/-- `x` ends as `y` does, with related values. It can also stop with `fault` when `fails` holds. -/
def Follows (fails : Prop) (R : α → β → Prop) (x : Except (Stop Unit) α) (y : Except (Stop S) β) :
    Prop :=
  match x with
  | .ok a => ∃ b, y = .ok b ∧ R a b
  | .error (.raised ()) => ∃ s, y = .error (.raised s)
  | .error .fault => fails ∨ y = .error .fault

theorem Follows.bind {f : α → Except (Stop Unit) γ} {g : β → Except (Stop S) δ}
    (h : Follows fails R x y) (hfg : ∀ a b, R a b → Follows fails R' (f a) (g b)) :
    Follows fails R' (x >>= f) (y >>= g) := by
  match x, h with
  | .ok a, ⟨b, hy, hab⟩ =>
    rw [hy]
    exact hfg a b hab
  | .error (.raised ()), ⟨s, hy⟩ => exact ⟨s, by rw [hy]; rfl⟩
  | .error .fault, h => exact h.imp id fun hy => by rw [hy]; rfl

theorem Follows.holding {V : Type} {y : Except (Stop (Order.Temps V)) β} (h : Follows fails R x y)
    (other : List V) : Follows fails R x (Order.holding other y) := by
  match x, h with
  | .ok a, ⟨b, hy, hab⟩ => exact ⟨b, by rw [hy]; rfl, hab⟩
  | .error (.raised ()), ⟨s, hy⟩ => exact ⟨_, by rw [hy]; rfl⟩
  | .error .fault, h => exact h.imp id fun hy => by rw [hy]; rfl

theorem Follows.released {V : Type} {α : Type} {Q : α → List V → Prop} {x : Except (Stop Unit) α}
    {y : Except (Stop S) (List V × β)} (h : Follows fails (fun a b => Q a b.1) x y)
    (f : S → List V) : Follows fails Q x (Order.released f y) := by
  match x, h with
  | .ok a, ⟨b, hy, hab⟩ => exact ⟨b.1, by rw [hy]; rfl, hab⟩
  | .error (.raised ()), ⟨s, hy⟩ => exact ⟨f s, by rw [hy]; rfl⟩
  | .error .fault, h => exact h.imp id fun hy => by rw [hy]; rfl

theorem Follows.map {R' : γ → β → Prop} (h : Follows fails R x y) {f : α → γ}
    (hf : ∀ a b, R a b → R' (f a) b) : Follows fails R' (x.map f) y := by
  match x, h with
  | .ok a, ⟨b, hy, hab⟩ => exact ⟨b, hy, hf a b hab⟩
  | .error (.raised ()), h => exact h
  | .error .fault, h => exact h

/-- What does not fail follows without `fault`. -/
theorem Follows.ends {P : β → Prop} {Q : α → Prop} (h : Follows False R x y)
    (hy : Ends y P (· ≠ .fault)) (hQ : ∀ a b, R a b → P b → Q a) : Ends x Q (· ≠ .fault) := by
  match x, h with
  | .ok a, ⟨b, hb, hab⟩ =>
    rw [hb] at hy
    exact hQ a b hab hy
  | .error (.raised ()), _ => exact .error (by simp)
  | .error .fault, h =>
    rw [h.resolve_left id] at hy
    exact (hy rfl).elim

theorem forget_follows (y : Except (Stop S) β) : Follows fails (fun a b => a = b) (forget y) y := by
  match y with
  | .ok b => exact ⟨b, rfl, rfl⟩
  | .error (.raised s) => exact ⟨s, rfl⟩
  | .error .fault => exact .inr rfl

end

section
variable {env : Env V T} {rc : Nat → V → V → Option Int} {ascending : Bool} {fails : Prop}
  {I : ListPriv V T → Prop} {l : ListPriv V T}

/-- What the operations of `mergesort` keep of its lists, when no count goes below zero. -/
structure Kept (env : Env V T) (fails : Prop) (I : ListPriv V T → Prop) : Prop where
  clear : ∀ {l : ListPriv V T} {i : Nat} {v : V}, I l → l.entry[i]? = some v →
    (∃ l', l.getAndClear env i = some (l', v) ∧ l'.entry = l.entry.set i env.nothing ∧ I l') ∨
      (fails ∧ l.getAndClear env i = none)
  push : ∀ {l l' : ListPriv V T} {v : V}, I l → I l' → v ∈ l'.entry → I (l.pushIntern env v)
  part : ∀ {l : ListPriv V T} {vs : List V}, I l → (∀ v ∈ vs, v ∈ l.entry) →
    I (pushAll env ⟨[], 0, env.autoType⟩ vs)
  start : ∀ {l : ListPriv V T}, I l → I { l with entry := [] }

/-- A list with the entries `vs` that satisfies `I`. -/
def Holds (I : ListPriv V T → Prop) (l : ListPriv V T) (vs : List V) : Prop := l.entry = vs ∧ I l

/-- The merges with and without counts are at the same place. -/
structure Merge.Same (I : ListPriv V T → Prop) (m : Merge V T) (m' : Order.Merge V) : Prop where
  this : Holds I m.this m'.this
  l : Holds I m.l m'.l
  r : Holds I m.r m'.r
  li : m.li = m'.li
  ri : m.ri = m'.ri
  k : m.k = m'.k

theorem Kept.pushIntern (hI : Kept env fails I) {l' : ListPriv V T} {vs : List V} {i : Nat} {v : V}
    (hl : Holds I l vs) (hl' : I l') (hv : l'.entry[i]? = some v) :
    Holds I (l.pushIntern env v) (vs ++ [v]) :=
  ⟨by rw [← hl.1]; rfl, hI.push hl.2 hl' (List.mem_of_getElem? hv)⟩

/-- A step that clears an entry and goes on with it. -/
theorem Kept.clearEntry (hI : Kept env fails I) {vs : List V} {i : Nat} {v : V} {γ δ S : Type}
    {R : γ → δ → Prop} {f : ListPriv V T × V → Except (Stop Unit) γ} {y : Except (Stop S) δ}
    (hl : Holds I l vs) (hv : l.entry[i]? = some v)
    (hf : ∀ l', Holds I l' (vs.set i env.nothing) → Follows fails R (f (l', v)) y) :
    Follows fails R (clearEntry env l i >>= f) y := by
  unfold ListNode.clearEntry
  rcases hI.clear hl.2 hv with ⟨l', hget, hentry, hl'⟩ | ⟨hfails, hget⟩ <;> rw [hget]
  · exact hf l' ⟨hl.1 ▸ hentry, hl'⟩
  · exact .inl hfails

theorem mergeLoop_follows (hI : Kept env fails I) {n : Nat} {m : Merge V T} {m' : Order.Merge V}
    (hm : m.Same I m') :
    Follows fails (Merge.Same I) (mergeLoop env rc ascending n m)
      (Order.mergeLoop rc ascending env.nothing n m') := by
  induction n generalizing m m' with
  | zero =>
    unfold mergeLoop Order.mergeLoop
    rw [hm.l.1, hm.r.1, hm.li, hm.ri, hm.k]
    cases m'.l[m'.li]? with
    | none => exact ⟨m', rfl, hm⟩
    | some lv =>
      cases m'.r[m'.ri]? with
      | none => exact ⟨m', rfl, hm⟩
      | some rv =>
        dsimp only
        cases rc m'.k lv rv with
        | none => exact ⟨_, rfl⟩
        | some res => exact .inr rfl
  | succ n ih =>
    unfold mergeLoop Order.mergeLoop
    rw [hm.l.1, hm.r.1, hm.li, hm.ri, hm.k]
    cases hlv : m'.l[m'.li]? with
    | none => exact ⟨m', rfl, hm⟩
    | some lv =>
      cases hrv : m'.r[m'.ri]? with
      | none => exact ⟨m', rfl, hm⟩
      | some rv =>
        rw [← hm.l.1] at hlv
        rw [← hm.r.1] at hrv
        dsimp only
        cases rc m'.k lv rv with
        | none => exact ⟨_, rfl⟩
        | some res =>
          dsimp only
          split
          · refine hI.clearEntry hm.l hlv fun l' hl' => ih ?_
            exact ⟨hI.pushIntern hm.this hm.l.2 hlv, hl', hm.r, rfl, rfl, rfl⟩
          · refine hI.clearEntry hm.r hrv fun r' hr' => ih ?_
            exact ⟨hI.pushIntern hm.this hm.r.2 hrv, hm.l, hr', rfl, rfl, rfl⟩

theorem drainLoop_follows (hI : Kept env fails I) {n : Nat} {this : ListPriv V T} {vs ws : List V}
    {li : Nat} (hthis : Holds I this vs) (hl : Holds I l ws) :
    Follows fails (Holds I) (drainLoop env n this l li)
      (Order.drainLoop env.nothing n vs ws li) := by
  induction n generalizing this l vs ws li with
  | zero =>
    unfold drainLoop Order.drainLoop
    rw [hl.1]
    cases ws[li]? with
    | none => exact ⟨vs, rfl, hthis⟩
    | some v => exact .inr rfl
  | succ n ih =>
    unfold drainLoop Order.drainLoop
    rw [hl.1]
    cases hv : ws[li]? with
    | none => exact ⟨vs, rfl, hthis⟩
    | some v =>
      rw [← hl.1] at hv
      exact hI.clearEntry hl hv fun l' hl' => ih (hI.pushIntern hthis hl.2 hv) hl'

theorem pushAll_entry (l : ListPriv V T) (vs : List V) :
    (l.pushAll env vs).entry = l.entry ++ vs := by
  induction vs generalizing l with
  | nil => simp [pushAll]
  | cons v vs ih =>
    show ((l.pushIntern env v).pushAll env vs).entry = _
    rw [ih]
    simp [ListPriv.pushIntern]

/-- `mergesort` with counts moves the entries as it does without them. -/
theorem mergesort_follows (hI : Kept env fails I) {n : Nat} {vs : List V} {k : Nat}
    (hl : Holds I l vs) :
    Follows fails (fun a b => Holds I a.1 b.1 ∧ a.2 = b.2) (mergesort env rc ascending n l k)
      (Order.mergesort rc ascending env.nothing n vs k) := by
  induction n generalizing l vs k with
  | zero => exact .inr rfl
  | succ n ih =>
    unfold mergesort Order.mergesort
    rw [hl.1]
    split
    · exact ⟨(vs, k), rfl, hl, rfl⟩
    · have hpart : ∀ ws : List V, (∀ v ∈ ws, v ∈ vs) →
          Holds I (pushAll env ⟨[], 0, env.autoType⟩ ws) ws := fun ws hws =>
        ⟨pushAll_entry _ ws, hI.part hl.2 (hl.1 ▸ hws)⟩
      refine ((ih (hpart _ fun v hv => List.mem_of_mem_take hv)).holding _).bind ?_
      rintro ⟨l1, k1⟩ ⟨vs1, -⟩ ⟨hl1, rfl⟩
      refine ((ih (hpart _ fun v hv => List.mem_of_mem_drop hv)).holding _).bind ?_
      rintro ⟨r1, k2⟩ ⟨ws1, -⟩ ⟨hr1, rfl⟩
      dsimp only at hl1 hr1 ⊢
      rw [hl1.1, hr1.1]
      refine (mergeLoop_follows hI ⟨⟨rfl, hI.start hl.2⟩, hl1, hr1, rfl, rfl, rfl⟩).bind ?_
      intro m m' hm
      rw [hm.l.1, hm.r.1, hm.li, hm.ri, hm.k]
      refine (drainLoop_follows hI hm.this hm.l).bind fun this1 vs2 hthis => ?_
      refine (drainLoop_follows hI hthis hm.r).bind fun this2 vs3 hthis => ?_
      exact ⟨(vs3, m'.k), rfl, hthis, rfl⟩

theorem copy_entry (l : ListPriv V T) : (l.copy env false).entry = l.entry := by
  unfold ListPriv.copy
  rw [if_pos (by simp), pushAll_entry]
  rfl

end

/-! ### Lists without entries to scan -/

section
variable {env : Env V T} {P : V → Prop} {rc : Nat → V → V → Option Int} {ascending : Bool}
  {l : ListPriv V T}

/-- `P`, and no scan is needed. -/
def Unscanned (env : Env V T) (P : V → Prop) (v : V) : Prop := P v ∧ env.needsScan v = false

theorem Good.of_unscanned (h : Good env (Unscanned env P) l) : Good env P l :=
  ⟨h.count, fun v hv => (h.all v hv).1⟩

theorem countP_unscanned {vs : List V} (h : ∀ v ∈ vs, Unscanned env P v) :
    vs.countP env.needsScan = 0 := by
  rw [List.countP_eq_zero]
  intro v hv
  rw [(h v hv).2]
  exact Bool.false_ne_true

theorem getAndClear_unscanned (hnothing : P env.nothing) (h : Good env (Unscanned env P) l)
    {i : Nat} {v : V} (hv : l.entry[i]? = some v) :
    ∃ l', l.getAndClear env i = some (l', v) ∧ l'.entry = l.entry.set i env.nothing ∧
      Good env (Unscanned env P) l' := by
  have hi := (List.getElem?_eq_some_iff.mp hv).1
  have hget : l.entry.getD i env.nothing = v := by
    rw [List.getD_eq_getElem?_getD, hv, Option.getD_some]
  have hdrop : dropScan env l.objCount v = some l.objCount := by
    unfold dropScan
    rw [(h.all v (List.mem_of_getElem? hv)).2]
    rfl
  have hnone : Unscanned env P env.nothing := ⟨hnothing, env.needsScan_nothing⟩
  have hgood : Good env (Unscanned env P)
      { l with entry := l.entry.set i env.nothing, objCount := l.objCount } := by
    refine h.set hi hnone ?_
    rw [h.count, countP_unscanned h.all, scans_nothing, Nat.zero_sub]
  refine ⟨_, ?_, rfl, hgood⟩
  unfold ListPriv.getAndClear
  rw [if_neg (by omega), hget]
  show (dropScan env _ _).bind _ = _
  rw [hdrop]
  rfl

/-- The counts of the lists of `mergesort` stay right when no entry needs a scan. -/
theorem kept_unscanned (hnothing : P env.nothing) :
    Kept env False (Good env (Unscanned env P)) where
  clear h hv := .inl (getAndClear_unscanned hnothing h hv)
  push h h' hv := h.pushIntern (h'.all _ hv)
  part h hvs := (good_empty _).pushAll fun v hv => h.all v (hvs v hv)
  start := by
    intro l h
    refine ⟨?_, by simp⟩
    show l.objCount = 0 % 4294967296
    rw [h.count, countP_unscanned h.all]

/-- `mergesort` leaves a good list when it has at most one entry, or none that needs a scan. -/
theorem mergesort_good (hnothing : P env.nothing) (h : Good env P l)
    (hplain : l.entry.length ≤ 1 ∨ ∀ v ∈ l.entry, env.needsScan v = false) :
    Ends (mergesort env rc ascending (l.entry.length + 1) l 0) (fun p => Good env P p.1)
      (· ≠ .fault) := by
  rcases hplain with hone | hplain
  · unfold mergesort
    rw [if_pos hone]
    exact .ok h
  · have hgood : Good env (Unscanned env P) l := ⟨h.count, fun v hv => ⟨h.all v hv, hplain v hv⟩⟩
    have hfollows : Follows False _ (mergesort env rc ascending (l.entry.length + 1) l 0) _ :=
      mergesort_follows (kept_unscanned hnothing) ⟨rfl, hgood⟩
    refine hfollows.ends (P := fun _ => True) ?_ fun a b hab _ => hab.1.2.of_unscanned
    have hends := @Order.mergesort_ends _ rc ascending env.nothing (fun _ => false) rfl _ _ 0
      (Nat.lt_succ_self l.entry.length)
    exact hends.mono (fun _ _ => True.intro) fun stop hstop hfault => by
      obtain ⟨t, ⟨-, hraised⟩, -⟩ := hstop
      rw [hfault] at hraised
      cases hraised

/-- `sortStable`, for a list with at most one entry or none that needs a scan. -/
theorem sortStable_good (hP : Closed env P) (h : Good env P l)
    (hplain : l.entry.length ≤ 1 ∨ ∀ v ∈ l.entry, env.needsScan v = false) :
    Ends (sortStable env rc ascending l) (Good env P) (· ≠ .fault) := by
  have hcopy := h.copy hP false
  unfold sortStable
  dsimp only
  split
  · exact .ok hcopy
  · exact (mergesort_good hP.nothing hcopy (by rwa [copy_entry])).map fun _ hp => hp

/-- `sort`, which uses `mergesort` for long lists only. -/
theorem sort_good (hP : Closed env P) (h : Good env P l)
    (hplain : l.entry.length ≤ quicksortLimit ∨ ∀ v ∈ l.entry, env.needsScan v = false) :
    Ends (sort env rc ascending l) (Good env P) (· ≠ .fault) := by
  have hcopy := h.copy hP false
  unfold sort
  dsimp only
  split <;> rename_i hzero
  · exact .ok hcopy
  · split
    · have hmany : ∀ v ∈ (l.copy env false).entry, env.needsScan v = false := by
        rw [copy_entry]
        exact hplain.resolve_left (by omega)
      exact (mergesort_good hP.nothing hcopy (.inr hmany)).map fun _ hp => hp
    · rw [copy_entry]
      have hends := Order.qsort_ends (@Order.Decides.trivial _ rc ascending)
        (fun _ _ _ _ _ => True.intro) (k := 0) (n := l.entry.length)
        (Nat.zero_le _) (show l.entry.length - 1 < l.entry.length by omega) (by omega)
      have hfollows : Follows False (fun a b => a = b) _ _ := forget_follows
        (Order.qsort rc ascending l.entry.length l.entry 0 (l.entry.length - 1) 0)
      refine (hfollows.ends (hends.mono (fun _ hp => hp.perm) ?_)
        fun a b hab hp => hab ▸ hp).map fun res hperm => ?_
      · rintro stop ⟨hole, ⟨-, rfl⟩, -⟩ hfault
        cases hfault
      · refine ⟨?_, fun v hv => hcopy.all v (by rw [copy_entry]; exact hperm.mem_iff.mp hv)⟩
        show (l.copy env false).objCount = res.1.countP env.needsScan % 4294967296
        rw [hcopy.count, hperm.countP_eq, copy_entry]

end

/-! ### The sorts with counts and without them -/

section
variable {env : Env V T} {rc : Nat → V → V → Option Int} {ascending : Bool}

/-- Nothing is kept of the counts, and a count may go below zero. -/
theorem kept_true (env : Env V T) : Kept env True fun _ : ListPriv V T => True where
  clear := by
    intro l i v _ hv
    have hi := (List.getElem?_eq_some_iff.mp hv).1
    have hget : l.entry.getD i env.nothing = v := by
      rw [List.getD_eq_getElem?_getD, hv, Option.getD_some]
    unfold ListPriv.getAndClear
    rw [if_neg (by omega), hget]
    cases hdrop : dropScan env l.objCount v with
    | none =>
      refine .inr ⟨True.intro, ?_⟩
      show (dropScan env _ _).bind _ = _
      rw [hdrop]
      rfl
    | some count =>
      refine .inl ⟨{ l with entry := l.entry.set i env.nothing, objCount := count }, ?_, rfl,
        True.intro⟩
      show (dropScan env _ _).bind _ = _
      rw [hdrop]
      rfl
  push _ _ _ := True.intro
  part _ _ := True.intro
  start _ := True.intro

theorem mergesort_entry (l : ListPriv V T) (f : Order.Temps V → List V) :
    Follows True (fun a b => a.entry = b)
      ((mergesort env rc ascending ((l.copy env false).entry.length + 1) (l.copy env false) 0).map
        Prod.fst)
      (Order.released f (Order.mergesort rc ascending env.nothing (l.entry.length + 1) l.entry 0)) := by
  rw [copy_entry]
  exact ((mergesort_follows (kept_true env) ⟨copy_entry l, True.intro⟩).map
    fun a b hab => hab.1.1).released f

/-- `sort` returns the entries that it returns without counts, with the same exceptions, unless a
count goes below zero. -/
theorem sort_follows (l : ListPriv V T) :
    Follows True (fun a b => a.entry = b) (sort env rc ascending l)
      (Order.sort env.nothing (.values rc) ascending l.entry) := by
  unfold sort Order.sort
  dsimp only
  split
  · exact ⟨_, rfl, copy_entry l⟩
  · split
    · exact mergesort_entry l _
    · rw [copy_entry]
      exact ((forget_follows _).map fun a b hab => congrArg Prod.fst hab).released _

theorem sortStable_follows (l : ListPriv V T) :
    Follows True (fun a b => a.entry = b) (sortStable env rc ascending l)
      (Order.sortStable env.nothing (.values rc) ascending l.entry) := by
  unfold sortStable Order.sortStable
  dsimp only
  split
  · exact ⟨_, rfl, copy_entry l⟩
  · exact mergesort_entry l _

end

end Qore.ListNode
