import Mathlib.Data.List.Chain
import Mathlib.Data.List.Sort

/-!
# `Qore.Date.Zone`: the UTC offset of a time zone file

`QoreZoneInfo` of `QoreTimeZoneManager.cpp`: the constructor, from the decoded arrays of the
file on, and `getUTCOffsetImpl`. A transition is read with `[i]?`, so a lookup that answers
`none` read outside of the vector.

`getUTCOffsetImpl` has two scans. The forward scan starts at the last transition before 1970
and returns the transition in force. The backward scan is for earlier times, and for zones
that have no transition before 1970 or none after it. It returns the transition that ends the
interval, not the one that starts it.

* `ZoneFile.load_spec`: two transitions of a loaded zone that follow each other have
  different offsets.
* `scanForward_eq`, `scanBackward_eq`: what the scans answer between two transitions.
-/

set_option autoImplicit false

namespace Qore.Date

/-- `QoreTransitionInfo`, without the indicators that the lookup does not read. -/
structure TransitionInfo where
  utcoff : Int
  isdst : Bool
  abbr : String
  deriving DecidableEq

/-- `QoreDSTTransition`. -/
structure Transition where
  time : Int
  trans : TransitionInfo
  deriving DecidableEq

/-- The transition times, the transition types and the time types of a file. Both kinds of
transition data are counted by `tzh_timecnt`. -/
structure ZoneFile where
  times : List Int
  types : List Nat
  tti : List TransitionInfo
  timecnt : times.length = types.length

/-- The members of `QoreZoneInfo` that the lookup reads. -/
structure ZoneInfo where
  transitions : List Transition
  firstPos : Int
  utcoff : Int
  stdAbbr : Option String
  deriving DecidableEq

/-- The results of `getUTCOffsetImpl`: the offset, `is_dst` and `zone_name`. -/
structure UtcOffset where
  utcoff : Int
  isdst : Bool
  zoneName : Option String
  deriving DecidableEq

/-- The values of a transition. -/
def Transition.offset (t : Transition) : UtcOffset :=
  { utcoff := t.trans.utcoff, isdst := t.trans.isdst, zoneName := some t.trans.abbr }

/-! ### The constructor -/

namespace ZoneFile

/-- `first_pos`: the first time that is not negative. -/
def firstPos (times : List Int) : Int :=
  match times.findIdx? (fun t => 0 ≤ t) with
  | some i => i
  | none => -1

/-- The loop that removes transitions to the offset of the transition before. `kept` are the
transitions before the iterator, the last one first, and `i` is the index in the file. -/
def removeInvalid (kept : List Transition) (firstPos : Int) (i : Nat) :
    List Transition → List Transition × Int
  | [] => (kept.reverse, firstPos)
  | t :: rest =>
    match kept with
    | [] => removeInvalid [t] firstPos (i + 1) rest
    | prev :: _ =>
      if t.trans.utcoff = prev.trans.utcoff then
        removeInvalid kept (if (i : Int) < firstPos then firstPos - 1 else firstPos) (i + 1) rest
      else removeInvalid (t :: kept) firstPos (i + 1) rest

/-- The UTC offset of the zone: the last time type that is not daylight saving time. -/
def stdOffset (tti : List TransitionInfo) : Int :=
  match tti.reverse.find? (fun i => !i.isdst && i.utcoff != -1) with
  | some i => i.utcoff
  | none => -1

/-- The loop over the transition types, which rejects an index outside of the time types. -/
def readTypes (tti : List TransitionInfo) (i : Nat) :
    List (Int × Nat) → Except String (List Transition)
  | [] => .ok []
  | (time, type) :: rest =>
    match tti[type]? with
    | none =>
      let typecnt := tti.length
      .error (s!"TZINFO-ERROR: QoreDSTTransition type index {i} ({type}) " ++
        s!"is greater than tzh_typecnt ({typecnt})")
    | some info =>
      match readTypes tti (i + 1) rest with
      | .error e => .error e
      | .ok ts => .ok ({ time, trans := info } :: ts)

/-- `QoreZoneInfo::QoreZoneInfo`, after the header and the arrays are read. -/
def load (f : ZoneFile) : Except String ZoneInfo :=
  match readTypes f.tti 0 (f.times.zip f.types) with
  | .error e => .error e
  | .ok ts =>
    let (transitions, firstPos) := removeInvalid [] (firstPos f.times) 0 ts
    .ok { transitions, firstPos, utcoff := stdOffset f.tti,
          stdAbbr := (f.tti.find? fun i => !i.isdst).map TransitionInfo.abbr }

end ZoneFile

/-! ### The lookup -/

namespace ZoneInfo

/-- "Not found, time zone unknown". -/
def unknown (z : ZoneInfo) : UtcOffset :=
  { utcoff := z.utcoff, isdst := false, zoneName := z.stdAbbr }

/-- The first loop, with `m` transitions left before the last one. -/
def scanForward (z : ZoneInfo) (epoch : Int) : Nat → Nat → Option UtcOffset
  | 0, _ => some z.unknown
  | m + 1, i => do
    let t ← z.transitions[i]?
    if t.time ≤ epoch then
      let next ← z.transitions[i + 1]?
      if next.time > epoch then return t.offset
    scanForward z epoch m (i + 1)

/-- The second loop. -/
def scanBackward (z : ZoneInfo) (epoch : Int) : Nat → Option UtcOffset
  | 0 => some z.unknown
  | i + 1 => do
    let t ← z.transitions[i + 1]?
    if t.time > epoch then
      let prev ← z.transitions[i]?
      if prev.time ≤ epoch then return t.offset
    scanBackward z epoch i

/-- `QoreZoneInfo::getUTCOffsetImpl`. -/
def getUTCOffsetImpl (z : ZoneInfo) (epoch : Int) : Option UtcOffset := do
  if z.firstPos > 0 then
    let start := (z.firstPos - 1).toNat
    let t ← z.transitions[start]?
    if epoch ≥ t.time then
      return ← scanForward z epoch (z.transitions.length - 1 - start) start
  scanBackward z epoch (z.firstPos + 1).toNat

end ZoneInfo

/-! ### What the constructor leaves -/

namespace ZoneFile

/-- Two transitions that follow each other change the offset. -/
def Separated (ts : List Transition) : Prop :=
  ts.IsChain fun a b => a.trans.utcoff ≠ b.trans.utcoff

/-- The transitions are in the order of their times. -/
def Ordered (ts : List Transition) : Prop := ts.Pairwise fun a b => a.time < b.time

theorem removeInvalid_sublist (ts : List Transition) : ∀ (kept : List Transition) (fp : Int)
    (i : Nat), (removeInvalid kept fp i ts).1.Sublist (kept.reverse ++ ts) := by
  induction ts with
  | nil => intro kept fp i; simp [removeInvalid]
  | cons t rest ih =>
    intro kept fp i
    cases kept with
    | nil => simpa [removeInvalid] using ih [t] fp (i + 1)
    | cons prev kept =>
      simp only [removeInvalid]
      split
      · refine (ih _ _ _).trans ?_
        exact (List.Sublist.refl _).append (List.sublist_cons_self t rest)
      · simpa using ih (t :: prev :: kept) fp (i + 1)

theorem removeInvalid_separated (ts : List Transition) : ∀ (kept : List Transition) (fp : Int)
    (i : Nat), Separated kept → Separated (removeInvalid kept fp i ts).1 := by
  induction ts with
  | nil =>
    intro kept fp i hkept
    show Separated kept.reverse
    rw [Separated, List.isChain_reverse]
    exact List.IsChain.imp (fun _ _ hne => hne.symm) hkept
  | cons t rest ih =>
    intro kept fp i hkept
    cases kept with
    | nil => exact ih [t] fp (i + 1) (List.isChain_singleton t)
    | cons prev kept =>
      simp only [removeInvalid]
      split <;> rename_i hoff
      · exact ih _ _ _ hkept
      · exact ih _ _ _ (List.isChain_cons_cons.mpr ⟨hoff, hkept⟩)

theorem readTypes_times (tti : List TransitionInfo) (arr : List (Int × Nat)) :
    ∀ (i : Nat) (ts : List Transition), readTypes tti i arr = .ok ts →
      ts.map Transition.time = arr.map Prod.fst := by
  induction arr with
  | nil =>
    intro i ts h
    simp only [readTypes, Except.ok.injEq] at h
    rw [← h]
    rfl
  | cons p rest ih =>
    intro i ts h
    simp only [readTypes] at h
    split at h
    · cases h
    · split at h
      · cases h
      · rename_i ts' hrest
        cases h
        simp only [List.map_cons, ih (i + 1) ts' hrest]

theorem load_spec {f : ZoneFile} {z : ZoneInfo} (h : load f = .ok z) :
    Separated z.transitions ∧ (f.times.Pairwise (· < ·) → Ordered z.transitions) := by
  unfold load at h
  split at h
  · cases h
  · rename_i ts hts
    simp only [Except.ok.injEq] at h
    subst h
    refine ⟨removeInvalid_separated ts [] _ 0 List.isChain_nil, fun hsorted => ?_⟩
    have hsub := removeInvalid_sublist ts [] (firstPos f.times) 0
    have htimes : (ts.map Transition.time).Pairwise (· < ·) := by
      rw [readTypes_times f.tti _ 0 ts hts, List.map_fst_zip f.timecnt.le]
      exact hsorted
    exact (List.pairwise_map.mp htimes).sublist hsub

end ZoneFile

namespace ZoneInfo

open ZoneFile (Ordered Separated)

theorem time_lt {ts : List Transition} (h : Ordered ts) {i j : Nat} {a b : Transition}
    (ha : ts[i]? = some a) (hb : ts[j]? = some b) (hij : i < j) : a.time < b.time := by
  obtain ⟨hi, rfl⟩ := List.getElem?_eq_some_iff.mp ha
  obtain ⟨hj, rfl⟩ := List.getElem?_eq_some_iff.mp hb
  exact List.pairwise_iff_getElem.mp h i j hi hj hij

variable {z : ZoneInfo} {epoch : Int} {k : Nat} {a b : Transition}

/-- The forward scan from a transition that is not too late finds the transition in force. -/
theorem scanForward_eq (hord : Ordered z.transitions) (ha : z.transitions[k]? = some a)
    (hb : z.transitions[k + 1]? = some b) (hlow : a.time ≤ epoch) (hhigh : epoch < b.time)
    (m : Nat) : ∀ i, i ≤ k → i + m = z.transitions.length - 1 →
    z.scanForward epoch m i = some a.offset := by
  have hlen : k + 1 < z.transitions.length := (List.getElem?_eq_some_iff.mp hb).1
  induction m with
  | zero => intro i hik him; omega
  | succ m ih =>
    intro i hik him
    obtain heq | hlt := Nat.eq_or_lt_of_le hik
    · subst heq
      simp [scanForward, ha, hb, hlow, hhigh]
    · -- the next transition is not after the one in force
      have hi : i < z.transitions.length := by omega
      have hi1 : i + 1 < z.transitions.length := by omega
      have hnext : (z.transitions[i + 1]).time ≤ epoch := by
        obtain heq | hlt' := Nat.eq_or_lt_of_le (show i + 1 ≤ k by omega)
        · have : z.transitions[i + 1] = a := by
            subst heq
            exact (List.getElem?_eq_some_iff.mp ha).2
          rw [this]
          exact hlow
        · have := time_lt hord (List.getElem?_eq_getElem hi1) ha hlt'
          omega
      have hstep : z.scanForward epoch (m + 1) i = z.scanForward epoch m (i + 1) := by
        simp [scanForward, List.getElem?_eq_getElem hi, List.getElem?_eq_getElem hi1,
          show ¬epoch < (z.transitions[i + 1]).time by omega]
      rw [hstep]
      exact ih (i + 1) (by omega) (by omega)

/-- After the last transition the forward scan does not find anything. -/
theorem scanForward_of_le (hall : ∀ t ∈ z.transitions, t.time ≤ epoch) (m : Nat) :
    ∀ i, i + m = z.transitions.length - 1 → z.scanForward epoch m i = some z.unknown := by
  induction m with
  | zero => intro i _; rfl
  | succ m ih =>
    intro i him
    have hi : i < z.transitions.length := by omega
    have hi1 : i + 1 < z.transitions.length := by omega
    have hle := hall _ (List.getElem_mem hi1)
    simp only [scanForward, List.getElem?_eq_getElem hi, List.getElem?_eq_getElem hi1,
      Option.bind_eq_bind, Option.bind_some, if_neg (show ¬epoch < (z.transitions[i + 1]).time by
      omega)]
    split <;> exact ih (i + 1) (by omega)

/-- The backward scan finds the transition after the one in force, when it starts late
enough. -/
theorem scanBackward_eq (hord : Ordered z.transitions) (ha : z.transitions[k]? = some a)
    (hb : z.transitions[k + 1]? = some b) (hlow : a.time ≤ epoch) (hhigh : epoch < b.time)
    (j : Nat) (hj : j < z.transitions.length) :
    z.scanBackward epoch j = some (if k < j then b.offset else z.unknown) := by
  induction j with
  | zero => simp [scanBackward]
  | succ j ih =>
    have hrec := ih (by omega)
    have hjlen : j < z.transitions.length := by omega
    obtain hlt | heq | hgt := Nat.lt_trichotomy j k
    · -- the transition at `j + 1` has already begun
      have htime : (z.transitions[j + 1]).time ≤ epoch := by
        obtain heq | hlt' := Nat.eq_or_lt_of_le (show j + 1 ≤ k by omega)
        · have : z.transitions[j + 1] = a := by
            subst heq
            exact (List.getElem?_eq_some_iff.mp ha).2
          rw [this]
          exact hlow
        · have := time_lt hord (List.getElem?_eq_getElem hj) ha hlt'
          omega
      have hstep : z.scanBackward epoch (j + 1) = z.scanBackward epoch j := by
        simp [scanBackward, List.getElem?_eq_getElem hj,
          show ¬epoch < (z.transitions[j + 1]).time by omega]
      rw [hstep, hrec, if_neg (by omega), if_neg (by omega)]
    · subst heq
      simp [scanBackward, ha, hb, hlow, hhigh]
    · -- the transition at `j` has not begun yet
      have htime : epoch < (z.transitions[j]).time := by
        obtain heq | hlt' := Nat.eq_or_lt_of_le (show k + 1 ≤ j by omega)
        · have : z.transitions[j] = b := by
            subst heq
            exact (List.getElem?_eq_some_iff.mp hb).2
          rw [this]
          exact hhigh
        · have := time_lt hord hb (List.getElem?_eq_getElem hjlen) hlt'
          omega
      have hstep : z.scanBackward epoch (j + 1) = z.scanBackward epoch j := by
        simp only [scanBackward, List.getElem?_eq_getElem hj, List.getElem?_eq_getElem hjlen,
          Option.bind_eq_bind, Option.bind_some, if_neg (show ¬(z.transitions[j]).time ≤ epoch by
          omega)]
        split <;> rfl
      rw [hstep, hrec, if_pos (by omega), if_pos (by omega)]

theorem scanBackward_eq_none (j : Nat) (hj : z.transitions.length ≤ j) (hpos : 0 < j) :
    z.scanBackward epoch j = none := by
  obtain ⟨i, rfl⟩ : ∃ i, j = i + 1 := ⟨j - 1, by omega⟩
  simp [scanBackward, List.getElem?_eq_none hj]

theorem scanForward_isSome (m : Nat) : ∀ i, i + m ≤ z.transitions.length - 1 →
    (z.scanForward epoch m i).isSome := by
  induction m with
  | zero => intro i _; rfl
  | succ m ih =>
    intro i him
    have hrec := ih (i + 1) (by omega)
    have hi : i < z.transitions.length := by omega
    have hi1 : i + 1 < z.transitions.length := by omega
    simp only [scanForward, List.getElem?_eq_getElem hi, List.getElem?_eq_getElem hi1,
      Option.bind_eq_bind, Option.bind_some]
    split
    · split
      · rfl
      · exact hrec
    · exact hrec

theorem scanBackward_isSome (j : Nat) (hj : j < z.transitions.length) :
    (z.scanBackward epoch j).isSome := by
  induction j with
  | zero => rfl
  | succ j ih =>
    have hrec := ih (by omega)
    have hjlen : j < z.transitions.length := by omega
    simp only [scanBackward, List.getElem?_eq_getElem hj, List.getElem?_eq_getElem hjlen,
      Option.bind_eq_bind, Option.bind_some]
    split
    · split
      · rfl
      · exact hrec
    · exact hrec

/-- The lookup when there are transitions before 1970. -/
theorem getUTCOffsetImpl_of_pos (hpos : 0 < z.firstPos) :
    z.getUTCOffsetImpl epoch =
      (z.transitions[(z.firstPos - 1).toNat]?).bind fun t =>
        if t.time ≤ epoch then
          z.scanForward epoch (z.transitions.length - 1 - (z.firstPos - 1).toNat)
            (z.firstPos - 1).toNat
        else z.scanBackward epoch (z.firstPos + 1).toNat := by
  unfold getUTCOffsetImpl
  rw [if_pos hpos]
  dsimp only [Option.bind_eq_bind]
theorem getUTCOffsetImpl_of_nonpos (hpos : ¬0 < z.firstPos) :
    z.getUTCOffsetImpl epoch = z.scanBackward epoch (z.firstPos + 1).toNat := by
  unfold getUTCOffsetImpl
  rw [if_neg hpos]

end ZoneInfo

end Qore.Date
