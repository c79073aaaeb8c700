import Qore.Lib.Outcome
import Qore.ListNode.Model

/-!
# `Qore.ListNode.Counts`: what the operations do to the scan count

`Good P l`: the scan count of the list is the number of its entries that need a scan, as an
`unsigned`, and every entry satisfies `P`. There is one lemma for each operation. It says that the
operation does not underflow on a list of fewer than 2^32 entries, and that the lists and values
it leaves behind are good, when `P` is closed under what the list code does with values
(`Closed`).

`insert` and the splice of a single value count the value as it was before its conversion, so their
lemmas ask that the conversion keeps whether the value needs a scan, and that of `insert` also that
it does not release the value.
-/

set_option autoImplicit false

namespace Qore.ListNode

open Qore.Lib
open ListPriv

variable {V T : Type} {env : Env V T} {P : V → Prop} {v : V} {i : Nat} {l : ListPriv V T}
  {vs : List V}

/-- The count is right, and every entry satisfies `P`. -/
structure Good (env : Env V T) (P : V → Prop) (l : ListPriv V T) : Prop where
  count : l.objCount = l.entry.countP env.needsScan % 4294967296
  all : ∀ v ∈ l.entry, P v

/-- A property of values that the operations on values keep. -/
structure Closed (env : Env V T) (P : V → Prop) : Prop where
  nothing : P env.nothing
  accept : ∀ {ty : T} {v w : V}, P v → env.accept ty v = some w → P w
  strip : ∀ {v : V}, P v → P (env.strip v)
  asList : ∀ {v : V} {l : ListPriv V T}, P v → env.asList v = some l → Good env P l
  ofList : ∀ {l : ListPriv V T}, Good env P l → P (env.ofList l)

/-- The list has fewer than 2^32 entries. -/
def Small (l : ListPriv V T) : Prop := l.entry.length < 4294967296

/-! ### The count -/

/-- What a value adds to the count. -/
def scans (env : Env V T) (v : V) : Nat := if env.needsScan v then 1 else 0

theorem scans_nothing : scans env env.nothing = 0 := by
  unfold scans
  rw [env.needsScan_nothing]
  rfl

theorem countP_cons_scans (v : V) (vs : List V) :
    (v :: vs).countP env.needsScan = vs.countP env.needsScan + scans env v := List.countP_cons

theorem addScan_mod (n : Nat) (v : V) :
    addScan env (n % 4294967296) v = (n + scans env v) % 4294967296 := by
  unfold addScan incCount scans
  split <;> omega

theorem dropScan_mod {n : Nat} (hle : scans env v ≤ n) (hn : n < 4294967296) :
    dropScan env (n % 4294967296) v = some ((n - scans env v) % 4294967296) := by
  unfold dropScan decCount
  unfold scans at hle ⊢
  by_cases hscan : env.needsScan v = true
  · rw [if_pos hscan] at hle ⊢
    rw [if_pos hscan, if_neg (by omega)]
    congr 1
    omega
  · rw [if_neg hscan, if_neg hscan, Nat.sub_zero]

/-- Adding a list of values to the count. -/
theorem foldl_addScan (env : Env V T) (vs : List V) (n : Nat) :
    vs.foldl (addScan env) (n % 4294967296) = (n + vs.countP env.needsScan) % 4294967296 := by
  induction vs generalizing n with
  | nil => rfl
  | cons v vs ih =>
    rw [List.foldl_cons, addScan_mod, ih, countP_cons_scans]
    congr 1
    omega

theorem countP_set (env : Env V T) {l : List V} (hi : i < l.length) (v : V) :
    (l.set i v).countP env.needsScan + scans env (l.getD i env.nothing) =
      l.countP env.needsScan + scans env v := countP_set_getD env.needsScan env.nothing hi v

theorem scans_getD_le (env : Env V T) {l : List V} (hi : i < l.length) :
    scans env (l.getD i env.nothing) ≤ l.countP env.needsScan := by
  have h := countP_set env hi env.nothing
  rw [scans_nothing] at h
  omega

theorem Small.countP_lt (env : Env V T) (hs : Small l) :
    l.entry.countP env.needsScan < 4294967296 :=
  Nat.lt_of_le_of_lt List.countP_le_length hs

theorem getD_mem {l : List V} (hi : i < l.length) (d : V) : l.getD i d ∈ l := by
  rw [List.getD_eq_getElem?_getD, List.getElem?_eq_getElem hi, Option.getD_some]
  exact List.getElem_mem hi

/-! ### Adding entries -/

theorem good_empty (ty : Option T) :
    Good env P { entry := [], objCount := 0, complexTypeInfo := ty } := ⟨rfl, by simp⟩

theorem Good.getCopy : Good env P l.getCopy := good_empty _

theorem Good.pushIntern (h : Good env P l) (hv : P v) : Good env P (l.pushIntern env v) := by
  refine ⟨?_, ?_⟩
  · show addScan env l.objCount v = (l.entry ++ [v]).countP env.needsScan % 4294967296
    rw [h.count, addScan_mod, List.countP_append, List.countP_singleton]
    rfl
  · intro w hw
    rcases List.mem_append.mp hw with hw | hw
    · exact h.all w hw
    · rw [List.mem_singleton.mp hw]
      exact hv

theorem Good.pushAll (h : Good env P l) (hvs : ∀ v ∈ vs, P v) : Good env P (l.pushAll env vs) := by
  induction vs generalizing l with
  | nil => exact h
  | cons v vs ih =>
    exact ih (h.pushIntern (hvs v (by simp))) fun w hw => hvs w (by simp [hw])

theorem Closed.checkVal (hP : Closed env P) {w : V} (hv : P v) (h : l.checkVal env v = some w) :
    P w := by
  unfold ListPriv.checkVal at h
  split at h
  · exact hP.accept hv h
  · rw [← Option.some.inj h]
    exact hP.strip hv

theorem Good.push (hP : Closed env P) (h : Good env P l) (hv : P v) :
    Good env P (l.push env v).1 := by
  unfold ListPriv.push
  split
  · rename_i w hw
    exact h.pushIntern (hP.checkVal hv hw)
  · exact h

theorem Good.merge (hP : Closed env P) (h : Good env P l) (hvs : ∀ v ∈ vs, P v) :
    Good env P (ListPriv.merge env l vs).1 := by
  induction vs generalizing l with
  | nil => exact h
  | cons v vs ih =>
    have hpush := h.push hP (hvs v (by simp))
    unfold ListPriv.merge
    split
    · rename_i l' hl'
      rw [hl'] at hpush
      exact ih hpush fun w hw => hvs w (by simp [hw])
    · rename_i l' hl'
      rw [hl'] at hpush
      exact hpush

/-- The value in the list, after its conversion, needs a scan exactly when the value before it
does. -/
def KeepsScan (env : Env V T) (l : ListPriv V T) (v : V) : Prop :=
  ∀ w, l.checkVal env v = some w → env.needsScan w = env.needsScan v

theorem Good.insert (hP : Closed env P) (h : Good env P l) (hv : P v) {freed : Option Bool}
    (halive : l.checkVal env v = none ∨ freed = none) (hkeeps : KeepsScan env l v) :
    Good env P (l.insert env v freed).1 := by
  unfold ListPriv.insert
  split
  · rename_i w hw
    rw [hw] at halive
    obtain rfl : freed = none := halive.resolve_left (Option.some_ne_none w)
    refine ⟨?_, ?_⟩
    · show addScan env l.objCount v = (w :: l.entry).countP env.needsScan % 4294967296
      rw [h.count, addScan_mod, countP_cons_scans]
      unfold scans
      rw [hkeeps w hw]
    · intro u hu
      rcases List.mem_cons.mp hu with rfl | hu
      · exact hP.checkVal hv hw
      · exact h.all u hu
  · exact h

theorem Good.copy (hP : Closed env P) (h : Good env P l) (strip : Bool) :
    Good env P (l.copy env strip) := by
  unfold ListPriv.copy
  split
  · exact Good.getCopy.pushAll h.all
  · apply (good_empty _).pushAll
    intro v hv
    obtain ⟨w, hw, rfl⟩ := List.mem_map.mp hv
    exact hP.strip (h.all w hw)

/-- The type of a list does not matter for its count. -/
theorem Good.withType (h : Good env P l) (ty : Option T) :
    Good env P { l with complexTypeInfo := ty } := ⟨h.count, h.all⟩

theorem Good.concatenate (hP : Closed env P) {m : ListPriv V T} (h : Good env P l)
    (hm : Good env P m) : Good env P (l.concatenate env m) := by
  apply ((h.copy hP false).withType _).pushAll
  intro v hv
  split at hv
  · obtain ⟨w, hw, rfl⟩ := List.mem_map.mp hv
    exact hP.strip (hm.all w hw)
  · exact hm.all v hv

/-! ### Replacing and removing entries -/

theorem Good.extend (hP : Closed env P) (h : Good env P l) (num : Nat) :
    Good env P (l.extend env num) ∧ num < (l.extend env num).entry.length := by
  unfold ListPriv.extend
  split <;> rename_i hnum
  · unfold ListPriv.resize
    rw [if_neg (by omega)]
    refine ⟨⟨?_, ?_⟩, ?_⟩
    · have hzero : (List.replicate (num + 1 - l.entry.length) env.nothing).countP env.needsScan
          = 0 := by
        rw [List.countP_replicate, env.needsScan_nothing]
        rfl
      show l.objCount = (l.entry ++ _).countP env.needsScan % 4294967296
      rw [h.count, List.countP_append, hzero, Nat.add_zero]
    · intro v hv
      rcases List.mem_append.mp hv with hv | hv
      · exact h.all v hv
      · rw [List.eq_of_mem_replicate hv]
        exact hP.nothing
    · show num < (l.entry ++ _).length
      rw [List.length_append, List.length_replicate]
      omega
  · exact ⟨h, by omega⟩

/-- Another entry at a position, with the count adjusted for both. -/
theorem Good.set (h : Good env P l) (hi : i < l.entry.length) (hv : P v) {count : Nat}
    (hcount : count = (l.entry.countP env.needsScan - scans env (l.entry.getD i env.nothing) +
      scans env v) % 4294967296) :
    Good env P { l with entry := l.entry.set i v, objCount := count } := by
  refine ⟨?_, ?_⟩
  · have hset := countP_set env hi v
    have hle := scans_getD_le env hi
    show count = (l.entry.set i v).countP env.needsScan % 4294967296
    omega
  · intro w hw
    rcases List.mem_or_eq_of_mem_set hw with hw | rfl
    · exact h.all w hw
    · exact hv

theorem setEntry_good (hP : Closed env P) (h : Good env P l) {index : Nat}
    (hs : (l.extend env index).entry.length < 4294967296) (hv : P v) :
    ∃ l', l.setEntry env index v = some l' ∧ Good env P l' := by
  obtain ⟨hext, hlt⟩ := h.extend hP index
  have hdrop := dropScan_mod (scans_getD_le env hlt) (Small.countP_lt env hs)
  refine ⟨_, ?_, hext.set hlt hv rfl⟩
  show (dropScan env (l.extend env index).objCount _).bind _ = _
  rw [hext.count, hdrop, Option.bind_some, addScan_mod]
  rfl

/-- `getAndClear`, and so `takeExists`. -/
theorem getAndClear_good (hP : Closed env P) (h : Good env P l) (hs : Small l) (i : Nat) :
    ∃ l' v, l.getAndClear env i = some (l', v) ∧ Good env P l' ∧ P v := by
  unfold ListPriv.getAndClear
  split <;> rename_i hi
  · exact ⟨l, _, rfl, h, hP.nothing⟩
  · have hlt : i < l.entry.length := by omega
    have hdrop := dropScan_mod (scans_getD_le env hlt) (hs.countP_lt env)
    obtain ⟨count, hcount⟩ : ∃ count, count = (l.entry.countP env.needsScan -
        scans env (l.entry.getD i env.nothing)) % 4294967296 := ⟨_, rfl⟩
    rw [← h.count, ← hcount] at hdrop
    have hgood : Good env P { l with entry := l.entry.set i env.nothing, objCount := count } :=
      h.set hlt hP.nothing (by rw [hcount, scans_nothing, Nat.add_zero])
    refine ⟨_, _, ?_, hgood, h.all _ (getD_mem hlt env.nothing)⟩
    show (dropScan env _ _).bind _ = _
    rw [hdrop]
    rfl

theorem swapCount_mod {n : Nat} {p : V} (hle : scans env p ≤ n) (hn : n < 4294967296) :
    swapCount (env.needsScan p) (env.needsScan v) (n % 4294967296) =
      some ((n - scans env p + scans env v) % 4294967296) := by
  unfold swapCount decCount incCount
  unfold scans at hle ⊢
  cases hb : env.needsScan p <;> cases ha : env.needsScan v <;> rw [hb] at hle <;>
    simp only [Bool.false_eq_true, ↓reduceIte, Bool.not_true, Bool.not_false] at hle ⊢
  · rfl
  · congr 1
    omega
  · rw [if_neg (by omega)]
    congr 1
    omega
  · congr 1
    omega

theorem swap_good (hP : Closed env P) (h : Good env P l) {offset : Nat}
    (hs : (l.extend env offset).entry.length < 4294967296) (hv : P v) :
    ∃ l' w, l.swap env offset v = some (l', w) ∧ Good env P l' ∧ P w := by
  obtain ⟨hext, hlt⟩ := h.extend hP offset
  have hcount := swapCount_mod (v := v) (scans_getD_le env hlt) (Small.countP_lt env hs)
  refine ⟨_, _, ?_, hext.set hlt hv rfl, hext.all _ (getD_mem hlt env.nothing)⟩
  show (swapCount _ _ _).bind _ = _
  rw [hext.count, hcount]
  rfl

theorem countP_take_add_drop (env : Env V T) (l : List V) (i : Nat) :
    (l.take i).countP env.needsScan + (l.drop i).countP env.needsScan = l.countP env.needsScan := by
  rw [← List.countP_append, List.take_append_drop]

/-- An entry taken from an end of the list. -/
theorem Good.sublist (h : Good env P l) (vs : List V) {count : Nat} (hsub : ∀ v ∈ vs, v ∈ l.entry)
    (hcount : count = vs.countP env.needsScan % 4294967296) :
    Good env P { l with entry := vs, objCount := count } :=
  ⟨hcount, fun v hv => h.all v (hsub v hv)⟩

theorem pop_good (hP : Closed env P) (h : Good env P l) (hs : Small l) :
    ∃ l' v, l.pop env = some (l', v) ∧ Good env P l' ∧ P v := by
  unfold ListPriv.pop
  split <;> rename_i hlen
  · exact ⟨l, _, rfl, h, hP.nothing⟩
  · have hlt : l.entry.length - 1 < l.entry.length := by omega
    have hdrop := dropScan_mod (scans_getD_le env hlt) (hs.countP_lt env)
    have hsplit := congrArg (List.countP env.needsScan) (take_getD_drop hlt env.nothing)
    rw [List.countP_append, countP_cons_scans, List.drop_of_length_le (by omega),
      List.countP_nil] at hsplit
    have hcount : (l.entry.countP env.needsScan -
        scans env (l.entry.getD (l.entry.length - 1) env.nothing)) =
        (l.entry.take (l.entry.length - 1)).countP env.needsScan := by omega
    rw [hcount, ← h.count] at hdrop
    refine ⟨_, _, ?_, h.sublist (l.entry.take (l.entry.length - 1)) (fun v hv => List.mem_of_mem_take hv) rfl,
      h.all _ (getD_mem hlt env.nothing)⟩
    show (dropScan env _ _).bind _ = _
    rw [hdrop]
    rfl

theorem shift_good (hP : Closed env P) (h : Good env P l) (hs : Small l) :
    ∃ l' v, l.shift env = some (l', v) ∧ Good env P l' ∧ P v := by
  unfold ListPriv.shift
  split <;> rename_i hlen
  · exact ⟨l, _, rfl, h, hP.nothing⟩
  · have hlt : 0 < l.entry.length := by omega
    have hdrop := dropScan_mod (scans_getD_le env hlt) (hs.countP_lt env)
    have hsplit := congrArg (List.countP env.needsScan) (take_getD_drop hlt env.nothing)
    rw [List.countP_append, countP_cons_scans, List.take_zero, List.countP_nil,
      Nat.zero_add 1] at hsplit
    have hcount : l.entry.countP env.needsScan - scans env (l.entry.getD 0 env.nothing) =
        (l.entry.drop 1).countP env.needsScan := by omega
    rw [hcount, ← h.count] at hdrop
    refine ⟨_, _, ?_, h.sublist (l.entry.drop 1) (fun v hv => List.mem_of_mem_drop hv) rfl,
      h.all _ (getD_mem hlt env.nothing)⟩
    show (dropScan env _ _).bind _ = _
    rw [hdrop]
    rfl

/-! ### Splice and extract -/

/-- The loop of `removeEntry` takes the entries off the count and adds them to the other list. -/
theorem removeEntries_good (hvs : ∀ v ∈ vs, P v) (n : Nat) {rv : Option (ListPriv V T)}
    (hrv : ∀ r, rv = some r → Good env P r) (hn : n + vs.countP env.needsScan < 4294967296) :
    ∃ rv', removeEntries env vs ((n + vs.countP env.needsScan) % 4294967296) rv =
      some (n % 4294967296, rv') ∧ ∀ r, rv' = some r → Good env P r := by
  induction vs generalizing rv with
  | nil => exact ⟨rv, rfl, hrv⟩
  | cons v vs ih =>
    rw [countP_cons_scans] at hn ⊢
    have hsub : n + (vs.countP env.needsScan + scans env v) - scans env v =
        n + vs.countP env.needsScan := by omega
    have hdrop : dropScan env ((n + (vs.countP env.needsScan + scans env v)) % 4294967296) v =
        some ((n + vs.countP env.needsScan) % 4294967296) := by
      rw [dropScan_mod (by omega) hn, hsub]
    have hget : Good env P (rv.getD ⟨[], 0, env.autoType⟩) := by
      cases rv with
      | none => exact good_empty _
      | some r => exact hrv r rfl
    have hpush : ∀ r, some ((rv.getD ⟨[], 0, env.autoType⟩).pushIntern env v) = some r →
        Good env P r := by
      intro r hr
      rw [← Option.some.inj hr]
      exact hget.pushIntern (hvs v (by simp))
    obtain ⟨rv', hres, hgood⟩ := ih (fun w hw => hvs w (by simp [hw])) hpush (by omega)
    refine ⟨rv', ?_, hgood⟩
    show (dropScan env _ _).bind _ = _
    rw [hdrop, Option.bind_some]
    exact hres

section Splice

variable {l : ListPriv V T} {offset stop : Nat}

/-- The entries of a list before, inside and after a range. -/
theorem countP_range (env : Env V T) (l : ListPriv V T) (hstop : offset ≤ stop) (vs : List V) :
    (l.entry.take offset ++ vs ++ l.entry.drop stop).countP env.needsScan +
      ((l.entry.take stop).drop offset).countP env.needsScan =
      l.entry.countP env.needsScan + vs.countP env.needsScan := by
  have hlast := countP_take_add_drop env l.entry stop
  have hfirst := countP_take_add_drop env (l.entry.take stop) offset
  rw [List.take_take, Nat.min_eq_left hstop] at hfirst
  simp only [List.countP_append]
  omega

/-- The list after a splice: the entries of the range replaced by other values. -/
theorem Good.splice (h : Good env P l) (hstop : offset ≤ stop) (hs : Small l) (vs : List V)
    (hvs : ∀ v ∈ vs, P v) (extract : Bool) : ∃ n rv,
      removeEntries env ((l.entry.take stop).drop offset) l.objCount
        (if extract then some l.getCopy else none) = some (n % 4294967296, rv) ∧
      (∀ r, rv = some r → Good env P r) ∧
      Good env P { l with
        entry := l.entry.take offset ++ vs ++ l.entry.drop stop
        objCount := (n + vs.countP env.needsScan) % 4294967296 } := by
  have hcount := countP_range env l hstop vs
  have hn := hs.countP_lt env
  obtain ⟨n, hsum⟩ : ∃ n, l.entry.countP env.needsScan =
      n + ((l.entry.take stop).drop offset).countP env.needsScan := by
    have hall := countP_range env l hstop []
    exact ⟨_, hall.symm⟩
  have hcopy : ∀ r, (if extract then some l.getCopy else none) = some r → Good env P r := by
    intro r hr
    cases extract
    · cases hr
    · rw [← Option.some.inj hr]
      exact Good.getCopy
  have hremoved : ∀ v ∈ (l.entry.take stop).drop offset, P v :=
    fun v hv => h.all v (List.mem_of_mem_take (List.mem_of_mem_drop hv))
  obtain ⟨rv, hres, hrv⟩ := removeEntries_good hremoved n hcopy (by omega)
  rw [← hsum, ← h.count] at hres
  refine ⟨n, rv, hres, hrv, ?_, ?_⟩
  · show (n + vs.countP env.needsScan) % 4294967296 =
      (l.entry.take offset ++ vs ++ l.entry.drop stop).countP env.needsScan % 4294967296
    congr 1
    omega
  · intro v hv
    rcases List.mem_append.mp hv with hv | hv
    · rcases List.mem_append.mp hv with hv | hv
      · exact h.all v (List.mem_of_mem_take hv)
      · exact hvs v hv
    · exact h.all v (List.mem_of_mem_drop hv)

/-- The end of the range that `spliceIntern` computes. -/
theorem spliceEnd_ge {n offset : Nat} (len : Nat) (ho : offset ≤ n) :
    offset ≤ (if len > n - offset then n else offset + len) := by
  split <;> omega

theorem spliceIntern_good (h : Good env P l) (hs : Small l) (ho : offset ≤ l.entry.length)
    (len : Nat) (extract : Bool) : ∃ l' rv, l.spliceIntern env offset len extract = some (l', rv) ∧
      Good env P l' ∧ ∀ r, rv = some r → Good env P r := by
  obtain ⟨n, rv, hres, hrv, hgood⟩ := h.splice (spliceEnd_ge len ho) hs [] (by simp) extract
  refine ⟨_, rv, ?_, hgood, hrv⟩
  show (removeEntries env _ _ _).bind _ = _
  rw [hres, Option.bind_some]
  simp

theorem checkVals_good (hP : Closed env P) {vs ws : List V} (hvs : ∀ v ∈ vs, P v)
    (h : checkVals env l vs = some ws) : ∀ w ∈ ws, P w := by
  induction vs generalizing ws with
  | nil =>
    rw [← Option.some.inj h]
    simp
  | cons v vs ih =>
    unfold checkVals at h
    simp only [Option.bind_eq_bind, Option.bind_eq_some_iff, Option.pure_def,
      Option.some.injEq] at h
    obtain ⟨w, hw, ws', hws', rfl⟩ := h
    intro u hu
    rcases List.mem_cons.mp hu with rfl | hu
    · exact hP.checkVal (hvs v (by simp)) hw
    · exact ih (fun v hv => hvs v (by simp [hv])) hws' u hu

/-- Splicing in a value. A list is counted entry by entry after the conversion; another value is
counted before it. -/
theorem spliceInternValue_good (hP : Closed env P) (h : Good env P l) (hs : Small l)
    (ho : offset ≤ l.entry.length) (len : Nat) {v : V} (hv : P v)
    (hkeeps : env.asList v = none → KeepsScan env l v) (extract : Bool) :
    ∃ res, l.spliceInternValue env offset len v extract = some res ∧
      ∀ l' rv, res = some (l', rv) → Good env P l' ∧ ∀ r, rv = some r → Good env P r := by
  unfold ListPriv.spliceInternValue
  dsimp only
  cases hlist : env.asList v with
  | some sl =>
    split
    · exact ⟨none, rfl, by simp⟩
    · rename_i vs hvs
      have hmem := checkVals_good hP (hP.asList hv hlist).all hvs
      obtain ⟨n, rv, hres, hrv, hgood⟩ := h.splice (spliceEnd_ge len ho) hs vs hmem extract
      rw [← foldl_addScan] at hgood
      show ∃ res, (removeEntries env _ _ _).bind _ = some res ∧ _
      rw [hres, Option.bind_some]
      refine ⟨_, rfl, fun l' rv' heq => ?_⟩
      obtain ⟨rfl, rfl⟩ := heq
      exact ⟨hgood, hrv⟩
  | none =>
    split
    · exact ⟨none, rfl, by simp⟩
    · rename_i vs hvs
      obtain ⟨w, hw, rfl⟩ := Option.map_eq_some_iff.mp hvs
      obtain ⟨n, rv, hres, hrv, hgood⟩ := h.splice (spliceEnd_ge len ho) hs [w]
        (by simpa using hP.checkVal hv hw) extract
      have hscan : [w].countP env.needsScan = scans env v := by
        rw [List.countP_singleton, hkeeps hlist w hw]
        rfl
      rw [hscan, ← addScan_mod] at hgood
      show ∃ res, (removeEntries env _ _ _).bind _ = some res ∧ _
      rw [hres, Option.bind_some]
      refine ⟨_, rfl, fun l' rv' heq => ?_⟩
      obtain ⟨rfl, rfl⟩ := heq
      exact ⟨hgood, hrv⟩

end Splice

end Qore.ListNode
