import Qore.Date.Zone

/-!
# `Qore.Date.ZoneEpoch`: a zone file and what is loaded from it

The constructor of `QoreZoneInfo` finds `first_pos` in the transitions of the file and then removes
the transitions that do not change the offset. It lowers `first_pos` for a removed transition by
comparing the index in the file with the value that earlier removals have already lowered.

* `removeInvalid_offsetAt`: removing the transitions keeps the offset at every second.
* `load_epoch_iff`: when `first_pos` is the first transition that is left and not before the epoch.
* `ZoneInfo.getUTCOffsetImpl_iff`: when the lookup gives the offset and the flag of the transition of
  the file that is in force.
-/

set_option autoImplicit false

namespace Qore.Date

/-- The UTC offset that a sequence of transitions gives to a second: that of the last one that is
not later. -/
def offsetAt (ts : List Transition) (epoch : Int) : Option Int :=
  (ts.filter fun t => t.time ≤ epoch).getLast?.map fun t => t.trans.utcoff

namespace ZoneFile

/-! ### The removed transitions -/

/-- The transitions that the arrays of a file describe. -/
def described (f : ZoneFile) : List Transition :=
  (f.times.zip f.types).filterMap fun p => f.tti[p.2]?.map fun info => ⟨p.1, info⟩

/-- The indices, from `i` on, of the transitions to the offset before them. -/
def repeated (prev : Option Int) (i : Nat) : List Transition → List Nat
  | [] => []
  | t :: rest =>
    if prev = some t.trans.utcoff then i :: repeated (some t.trans.utcoff) (i + 1) rest
    else repeated (some t.trans.utcoff) (i + 1) rest

/-- The offset in force after some transitions. -/
def lastOffset (prev : Option Int) (ts : List Transition) : Option Int :=
  ts.foldl (fun _ t => some t.trans.utcoff) prev

/-- What the removal of transition `i` does to `first_pos`. -/
def lowered (firstPos : Int) (i : Nat) : Int := if (i : Int) < firstPos then firstPos - 1 else firstPos

/-- Every removed transition before the epoch lowers `first_pos`, and a transition that is not
before the epoch stays. -/
def EpochCounted (f : ZoneFile) : Prop :=
  firstPos f.times = -1 ∨
    (∃ i : Nat, firstPos f.times ≤ i ∧ i < f.described.length ∧ i ∉ repeated none 0 f.described) ∧
    ∀ k i : Nat, (repeated none 0 f.described)[k]? = some i → (i : Int) < firstPos f.times →
      (i : Int) + k < firstPos f.times

/-- The transitions that are left are ordered, follow each other with different offsets and describe
the offsets of the file, and `first_pos` is the first one that is not before the epoch. -/
structure EpochRight (f : ZoneFile) (z : ZoneInfo) : Prop where
  ordered : Ordered z.transitions
  separated : Separated z.transitions
  offset : ∀ epoch, offsetAt z.transitions epoch = offsetAt f.described epoch
  first : z.firstPos = firstPos (z.transitions.map Transition.time)

theorem readTypes_described (tti : List TransitionInfo) (arr : List (Int × Nat)) :
    ∀ (i : Nat) (ts : List Transition), readTypes tti i arr = .ok ts →
      ts = arr.filterMap fun p => tti[p.2]?.map fun info => ⟨p.1, info⟩ := by
  induction arr with
  | nil =>
    intro i ts h
    simp only [readTypes, Except.ok.injEq] at h
    exact h.symm
  | cons p rest ih =>
    intro i ts h
    simp only [readTypes] at h
    split at h
    · cases h
    · rename_i info hinfo
      split at h
      · cases h
      · rename_i ts' hrest
        cases h
        simp only [List.filterMap_cons, hinfo, Option.map_some, ← ih (i + 1) ts' hrest]

theorem repeated_append (b : List Transition) : ∀ (a : List Transition) (prev : Option Int) (i : Nat),
    repeated prev i (a ++ b) =
      repeated prev i a ++ repeated (lastOffset prev a) (i + a.length) b := by
  intro a
  induction a with
  | nil =>
    intro prev i
    rfl
  | cons t a ih =>
    intro prev i
    have hrest := ih (some t.trans.utcoff) (i + 1)
    rw [Nat.add_right_comm] at hrest
    simp only [List.cons_append, repeated, hrest, List.length_cons]
    split
    · rfl
    · rfl

variable (ts : List Transition)

theorem mem_repeated {j : Nat} : ∀ (prev : Option Int) (i : Nat),
    j ∈ repeated prev i ts → i ≤ j ∧ j < i + ts.length := by
  induction ts with
  | nil =>
    intro prev i h
    simp [repeated] at h
  | cons t rest ih =>
    intro prev i h
    have hrest := ih (some t.trans.utcoff) (i + 1)
    simp only [repeated] at h
    simp only [List.length_cons]
    split at h
    · rw [List.mem_cons] at h
      obtain rfl | h := h
      · omega
      · have := hrest h
        omega
    · have := hrest h
      omega

/-- A transition that is not repeated makes the repeated ones fewer. -/
theorem length_repeated_lt_iff : ∀ (prev : Option Int) (i : Nat),
    (repeated prev i ts).length ≤ ts.length ∧
      ((repeated prev i ts).length < ts.length ↔
        ∃ j, i ≤ j ∧ j < i + ts.length ∧ j ∉ repeated prev i ts) := by
  induction ts with
  | nil =>
    intro prev i
    refine ⟨Nat.le_refl 0, iff_of_false (Nat.lt_irrefl 0) ?_⟩
    rintro ⟨j, hle, hlt, -⟩
    exact absurd hlt (Nat.not_lt.mpr hle)
  | cons t rest ih =>
    intro prev i
    obtain ⟨hle, hiff⟩ := ih (some t.trans.utcoff) (i + 1)
    have hbound := fun j => mem_repeated (j := j) rest (some t.trans.utcoff) (i + 1)
    simp only [repeated, List.length_cons]
    split
    · simp only [List.length_cons, List.mem_cons, not_or]
      refine ⟨by omega, ?_⟩
      rw [Nat.add_lt_add_iff_right, hiff]
      constructor
      · rintro ⟨j, h1, h2, h3⟩
        exact ⟨j, by omega, by omega, by omega, h3⟩
      · rintro ⟨j, h1, h2, h3, h4⟩
        exact ⟨j, by omega, by omega, h4⟩
    · refine ⟨by omega, iff_of_true (by omega) ⟨i, Nat.le_refl i, by omega, fun h => ?_⟩⟩
      have := hbound i h
      omega

/-! ### The loop -/

/-- The offset of the transition that was kept last. -/
def keptOffset (kept : List Transition) : Option Int := kept.head?.map fun t => t.trans.utcoff

/-- The loop over two parts of the transitions, one after the other. -/
theorem removeInvalid_append (b : List Transition) : ∀ (a kept : List Transition) (fp : Int) (i : Nat),
    removeInvalid kept fp i (a ++ b) =
      removeInvalid (removeInvalid kept fp i a).1.reverse (removeInvalid kept fp i a).2
        (i + a.length) b := by
  intro a
  induction a with
  | nil =>
    intro kept fp i
    show _ = removeInvalid kept.reverse.reverse fp (i + 0) b
    rw [List.reverse_reverse]
    rfl
  | cons t a ih =>
    intro kept fp i
    have harith : i + (a.length + 1) = i + 1 + a.length := by omega
    rw [List.cons_append, List.length_cons, harith]
    cases kept with
    | nil => exact ih [t] fp (i + 1)
    | cons prev kept =>
      simp only [removeInvalid]
      split
      · exact ih _ _ _
      · exact ih _ _ _

/-- What the loop leaves: it appends some of the transitions, as many as are not repeated, and
lowers `first_pos` for the repeated ones. -/
theorem removeInvalid_spec : ∀ (kept : List Transition) (fp : Int) (i : Nat),
    (∃ ks, (removeInvalid kept fp i ts).1 = kept.reverse ++ ks ∧ ks.Sublist ts ∧
        ks.length + (repeated (keptOffset kept) i ts).length = ts.length) ∧
      (removeInvalid kept fp i ts).2 = (repeated (keptOffset kept) i ts).foldl lowered fp := by
  induction ts with
  | nil =>
    intro kept fp i
    exact ⟨⟨[], (List.append_nil _).symm, List.Sublist.refl [], rfl⟩, rfl⟩
  | cons t rest ih =>
    intro kept fp i
    -- a transition that stays is the last one of the kept ones in the next round
    have hstays : (∃ ks, (removeInvalid (t :: kept) fp (i + 1) rest).1 = kept.reverse ++ ks ∧
        ks.Sublist (t :: rest) ∧
        ks.length + (repeated (some t.trans.utcoff) (i + 1) rest).length = rest.length + 1) ∧
        (removeInvalid (t :: kept) fp (i + 1) rest).2 =
          (repeated (some t.trans.utcoff) (i + 1) rest).foldl lowered fp := by
      obtain ⟨⟨ks, hks, hsub, hlen⟩, hfp⟩ := ih (t :: kept) fp (i + 1)
      refine ⟨⟨t :: ks, ?_, hsub.cons_cons t, ?_⟩, hfp⟩
      · rw [hks, List.reverse_cons, List.append_assoc]
        rfl
      · have hlen' : ks.length + (repeated (some t.trans.utcoff) (i + 1) rest).length =
          rest.length := hlen
        rw [List.length_cons]
        omega
    cases kept with
    | nil => exact hstays
    | cons prev kept =>
      simp only [removeInvalid, keptOffset, List.head?_cons, Option.map_some, repeated,
        List.length_cons, Option.some.injEq]
      by_cases hsame : t.trans.utcoff = prev.trans.utcoff
      · rw [if_pos hsame, if_pos hsame.symm]
        obtain ⟨⟨ks, hks, hsub, hlen⟩, hfp⟩ := ih (prev :: kept) (lowered fp i) (i + 1)
        simp only [keptOffset, List.head?_cons, Option.map_some, ← hsame] at hlen hfp
        refine ⟨⟨ks, hks, hsub.cons t, ?_⟩, hfp⟩
        rw [List.length_cons]
        omega
      · rw [if_neg hsame, if_neg (Ne.symm hsame)]
        exact hstays

/-- Removing a transition to the same offset does not change the offset of any second. -/
theorem offsetAt_remove {a rest : List Transition} {p t : Transition} (htime : p.time < t.time)
    (hsame : t.trans.utcoff = p.trans.utcoff) (epoch : Int) :
    offsetAt (a ++ p :: t :: rest) epoch = offsetAt (a ++ p :: rest) epoch := by
  unfold offsetAt
  by_cases ht : t.time ≤ epoch
  · have hp : p.time ≤ epoch := by omega
    simp only [List.filter_append, List.filter_cons, ht, hp, decide_true, if_true]
    cases hrest : (rest.filter fun t => t.time ≤ epoch) with
    | nil => simp [hsame]
    | cons r rs => simp [List.getLast?_append, List.getLast?_cons]
  · simp only [List.filter_append, List.filter_cons, ht, decide_false, Bool.false_eq_true, if_false]

/-- The loop keeps the offset of every second. -/
theorem removeInvalid_offsetAt : ∀ (kept : List Transition) (fp : Int)
    (i : Nat), Ordered (kept.reverse ++ ts) → ∀ epoch,
    offsetAt (removeInvalid kept fp i ts).1 epoch = offsetAt (kept.reverse ++ ts) epoch := by
  induction ts with
  | nil =>
    intro kept fp i _ epoch
    rw [List.append_nil]
    rfl
  | cons t rest ih =>
    intro kept fp i hord epoch
    have hstays : offsetAt (removeInvalid (t :: kept) fp (i + 1) rest).1 epoch =
        offsetAt (kept.reverse ++ t :: rest) epoch := by
      have hmove : (t :: kept).reverse ++ rest = kept.reverse ++ t :: rest := by simp
      rw [ih (t :: kept) fp (i + 1) (by rwa [hmove]) epoch, hmove]
    cases kept with
    | nil => exact hstays
    | cons prev kept =>
      simp only [removeInvalid]
      split
      · rename_i hsame
        have hmove : ∀ ts, (prev :: kept).reverse ++ ts = kept.reverse ++ prev :: ts := by simp
        rw [hmove] at hord
        have htime : prev.time < t.time := by
          have hchain := (List.pairwise_append.mp hord).2.1
          exact List.rel_of_pairwise_cons hchain (List.mem_cons_self ..)
        have hord' : Ordered ((prev :: kept).reverse ++ rest) := by
          rw [hmove]
          exact List.Pairwise.sublist
            ((List.Sublist.refl _).append ((List.sublist_cons_self t rest).cons_cons prev)) hord
        rw [ih _ _ _ hord' epoch, hmove, hmove, offsetAt_remove htime hsame]
      · exact hstays

/-! ### The index -/

/-- An index is lowered by as many removals as there are exactly when every removed index is below
the value that the removals before it have left. -/
theorem foldl_lowered (rs : List Nat) : ∀ p : Int,
    p - rs.length ≤ rs.foldl lowered p ∧
      (rs.foldl lowered p = p - rs.length ↔ ∀ k i : Nat, rs[k]? = some i → (i : Int) + k < p) := by
  induction rs with
  | nil =>
    intro p
    refine ⟨by simp, iff_of_true (by simp) ?_⟩
    intro k i h
    cases h
  | cons r rs ih =>
    intro p
    simp only [List.foldl_cons, List.length_cons]
    by_cases hr : (r : Int) < p
    · have hstep : lowered p r = p - 1 := if_pos hr
      obtain ⟨hle, hiff⟩ := ih (p - 1)
      rw [hstep]
      refine ⟨by push_cast; omega, ?_⟩
      have hsub : p - ((rs.length + 1 : Nat) : Int) = p - 1 - rs.length := by
        omega
      rw [hsub, hiff]
      constructor
      · intro h k i hk
        cases k with
        | zero =>
          rw [List.getElem?_cons_zero, Option.some.injEq] at hk
          subst hk
          simpa using hr
        | succ k =>
          have := h k i (by simpa using hk)
          omega
      · intro h k i hk
        have := h (k + 1) i (by simpa using hk)
        omega
    · -- this removal is not counted, and the others cannot make up for it
      have hstep : lowered p r = p := if_neg hr
      obtain ⟨hle, -⟩ := ih p
      rw [hstep]
      refine ⟨by push_cast; omega, iff_of_false (by push_cast; omega) fun h => ?_⟩
      have := h 0 r rfl
      omega

/-- A removal at or after the index does not change it. -/
theorem foldl_lowered_of_le {p : Int} (rs : List Nat) (h : ∀ i ∈ rs, p ≤ i) :
    rs.foldl lowered p = p := by
  induction rs with
  | nil => rfl
  | cons r rs ih =>
    have hr := h r (List.mem_cons_self ..)
    have hstep : lowered p r = p := if_neg (by omega)
    rw [List.foldl_cons, hstep]
    exact ih fun i hi => h i (List.mem_cons_of_mem r hi)

/-- The index of times of which the first ones are before the epoch. -/
theorem firstPos_append {a b : List Int} (ha : ∀ t ∈ a, t < 0) (hb : ∀ t ∈ b, 0 ≤ t) :
    firstPos (a ++ b) = if b = [] then -1 else (a.length : Int) := by
  have hnone : a.findIdx? (fun t => decide (0 ≤ t)) = none := by
    rw [List.findIdx?_eq_none_iff]
    intro t ht
    have := ha t ht
    simpa using this
  unfold firstPos
  rw [List.findIdx?_append, hnone]
  cases b with
  | nil => rfl
  | cons t b =>
    have ht := hb t (List.mem_cons_self ..)
    simp [List.findIdx?_cons, ht]

/-- Ordered transitions, cut at the epoch. -/
theorem exists_cut {ts : List Transition} (hord : Ordered ts) :
    ∃ a b, ts = a ++ b ∧ (∀ t ∈ a, t.time < 0) ∧ ∀ t ∈ b, 0 ≤ t.time := by
  induction ts with
  | nil => exact ⟨[], [], rfl, by simp, by simp⟩
  | cons t ts ih =>
    obtain ⟨hhead, htail⟩ := List.pairwise_cons.mp hord
    by_cases ht : t.time < 0
    · obtain ⟨a, b, rfl, ha, hb⟩ := ih htail
      refine ⟨t :: a, b, rfl, ?_, hb⟩
      intro u hu
      obtain rfl | hu := List.mem_cons.mp hu
      · exact ht
      · exact ha u hu
    · refine ⟨[], t :: ts, rfl, by simp, ?_⟩
      intro u hu
      obtain rfl | hu := List.mem_cons.mp hu
      · omega
      · have := hhead u hu
        omega

theorem keptOffset_reverse (a : List Transition) : ∀ (kept : List Transition) (fp : Int) (i : Nat),
    keptOffset (removeInvalid kept fp i a).1.reverse = lastOffset (keptOffset kept) a := by
  induction a with
  | nil =>
    intro kept fp i
    show keptOffset kept.reverse.reverse = _
    rw [List.reverse_reverse]
    rfl
  | cons t a ih =>
    intro kept fp i
    cases kept with
    | nil => exact ih [t] fp (i + 1)
    | cons prev kept =>
      simp only [removeInvalid]
      split
      · rename_i hsame
        rw [ih]
        simp only [keptOffset, List.head?_cons, Option.map_some, lastOffset, List.foldl_cons, hsame]
      · exact ih _ _ _

/-- The loop over transitions that are cut at the epoch, with the number of those before it. -/
theorem removeInvalid_first_iff {a b : List Transition} (ha : ∀ t ∈ a, t.time < 0)
    (hb : ∀ t ∈ b, 0 ≤ t.time) :
    (removeInvalid [] a.length 0 (a ++ b)).2 =
        firstPos ((removeInvalid [] a.length 0 (a ++ b)).1.map Transition.time) ↔
      (repeated (lastOffset none a) a.length b).length < b.length ∧
        (repeated none 0 a).foldl lowered (a.length : Int) =
          a.length - (repeated none 0 a).length := by
  obtain ⟨⟨ka, hka, hsuba, hlena⟩, hfpa⟩ := removeInvalid_spec a [] (a.length : Int) 0
  have hoffset := keptOffset_reverse a [] (a.length : Int) 0
  rw [removeInvalid_append]
  obtain ⟨⟨kb, hkb, hsubb, hlenb⟩, hfpb⟩ := removeInvalid_spec b
    (removeInvalid [] a.length 0 a).1.reverse (removeInvalid [] a.length 0 a).2 (0 + a.length)
  have hempty : keptOffset [] = none := rfl
  rw [hempty] at hlena hfpa hoffset
  rw [List.reverse_nil, List.nil_append] at hka
  rw [hoffset, Nat.zero_add] at hlenb hfpb
  rw [Nat.zero_add] at hkb
  rw [Nat.zero_add, hkb, hfpb, hfpa, hka, List.reverse_reverse, List.map_append,
    firstPos_append
      (by simpa using fun t ht => ha t (hsuba.subset ht))
      (by simpa using fun t ht => hb t (hsubb.subset ht)), List.length_map]
  -- the removals that are not before the epoch leave the index
  have hbelow : (repeated none 0 a).foldl lowered (a.length : Int) ≤ a.length := by
    have hmono : ∀ (rs : List Nat) (p : Int), rs.foldl lowered p ≤ p := by
      intro rs
      induction rs with
      | nil => exact fun p => Int.le_refl p
      | cons r rs ih =>
        intro p
        have hstep : lowered p r ≤ p := by
          unfold lowered
          split <;> omega
        exact (ih (lowered p r)).trans hstep
    exact hmono _ _
  rw [foldl_lowered_of_le _ fun i hi => by
    have := (mem_repeated b _ _ hi).1
    omega]
  have hlow := (foldl_lowered (repeated none 0 a) (a.length : Int)).1
  simp only [List.map_eq_nil_iff]
  split
  · rename_i hnil
    subst hnil
    rw [List.length_nil] at hlenb
    constructor
    · intro h
      omega
    · intro h
      omega
  · rename_i hsome
    have hpos := List.length_pos_iff.mpr hsome
    constructor
    · intro h
      exact ⟨by omega, by omega⟩
    · intro h
      omega

theorem load_readTypes {f : ZoneFile} {z : ZoneInfo} (hload : f.load = .ok z) :
    readTypes f.tti 0 (f.times.zip f.types) = .ok f.described := by
  unfold load at hload
  split at hload
  · cases hload
  · rename_i ts hts
    rw [hts, readTypes_described _ _ _ _ hts]
    rfl

theorem load_eq {f : ZoneFile} {z : ZoneInfo} (hload : f.load = .ok z) :
    z.transitions = (removeInvalid [] (firstPos f.times) 0 f.described).1 ∧
      z.firstPos = (removeInvalid [] (firstPos f.times) 0 f.described).2 := by
  have htypes := load_readTypes hload
  unfold load at hload
  rw [htypes] at hload
  simp only [Except.ok.injEq] at hload
  rw [← hload]
  exact ⟨rfl, rfl⟩

theorem described_times {f : ZoneFile} {z : ZoneInfo} (hload : f.load = .ok z) :
    f.described.map Transition.time = f.times := by
  rw [readTypes_times f.tti _ 0 _ (load_readTypes hload), List.map_fst_zip f.timecnt.le]

theorem described_ordered {f : ZoneFile} {z : ZoneInfo} (hload : f.load = .ok z)
    (hsorted : f.times.Pairwise (· < ·)) : Ordered f.described := by
  rw [Ordered, ← List.pairwise_map (f := Transition.time) (R := (· < ·)), described_times hload]
  exact hsorted

theorem load_offsetAt {f : ZoneFile} {z : ZoneInfo} (hload : f.load = .ok z)
    (hsorted : f.times.Pairwise (· < ·)) (epoch : Int) :
    offsetAt z.transitions epoch = offsetAt f.described epoch := by
  rw [(load_eq hload).1]
  exact removeInvalid_offsetAt f.described [] _ 0 (described_ordered hload hsorted) epoch

/-- After the constructor the transitions are right, and `first_pos` is exactly when every removed
transition before the epoch was counted and a transition that is not before it is left. -/
theorem load_epoch_iff {f : ZoneFile} {z : ZoneInfo} (hload : f.load = .ok z)
    (hsorted : f.times.Pairwise (· < ·)) : f.EpochRight z ↔ f.EpochCounted := by
  obtain ⟨hsep, hord⟩ := load_spec hload
  have hordz := hord hsorted
  have hz := load_eq hload
  have htimes := described_times hload
  have horddesc := described_ordered hload hsorted
  have hoff := load_offsetAt hload hsorted
  have hfirst : z.firstPos = firstPos (z.transitions.map Transition.time) ↔ f.EpochCounted := by
    obtain ⟨a, b, hab, ha, hb⟩ := exists_cut horddesc
    have hp : firstPos f.times = if b = [] then -1 else (a.length : Int) := by
      rw [← htimes, hab, List.map_append, firstPos_append (by simpa using ha) (by simpa using hb),
        List.length_map]
      simp only [List.map_eq_nil_iff]
    unfold EpochCounted
    rw [hz.1, hz.2, hab, hp]
    by_cases hnil : b = []
    · -- there is no transition after the epoch
      rw [if_pos hnil, hnil, List.append_nil]
      refine iff_of_true ?_ (.inl rfl)
      obtain ⟨⟨ks, hks, hsub, -⟩, hfp⟩ := removeInvalid_spec a [] (-1) 0
      rw [hfp, hks, foldl_lowered_of_le _ fun i _ => by omega, List.reverse_nil, List.nil_append]
      have hnone := firstPos_append (a := ks.map Transition.time) (b := [])
        (by simpa using fun t ht => ha t (hsub.subset ht)) (by simp)
      rw [List.append_nil, if_pos rfl] at hnone
      exact hnone.symm
    · rw [if_neg hnil, removeInvalid_first_iff ha hb, repeated_append, Nat.zero_add,
        (length_repeated_lt_iff b (lastOffset none a) a.length).2,
        (foldl_lowered (repeated none 0 a) a.length).2]
      have hbounda := fun j => mem_repeated (j := j) a none 0
      have hboundb := fun j => mem_repeated (j := j) b (lastOffset none a) a.length
      constructor
      · rintro ⟨⟨j, hle, hlt, hmem⟩, hall⟩
        refine .inr ⟨⟨j, by omega, by simpa using hlt, ?_⟩, ?_⟩
        · rw [List.mem_append]
          rintro (hj | hj)
          · have := hbounda j hj
            omega
          · exact hmem hj
        · intro k i hk hi
          rw [List.getElem?_append] at hk
          split at hk
          · exact hall k i hk
          · have := hboundb i (List.mem_of_getElem? hk)
            omega
      · rintro (h | ⟨⟨j, hle, hlt, hmem⟩, hall⟩)
        · omega
        · rw [List.mem_append, not_or] at hmem
          refine ⟨⟨j, by omega, by simpa using hlt, hmem.2⟩, ?_⟩
          intro k i hk
          have hi := hbounda i (List.mem_of_getElem? hk)
          have hklt := (List.getElem?_eq_some_iff.mp hk).1
          exact hall k i (by rw [List.getElem?_append_left hklt]; exact hk) (by omega)
  constructor
  · intro h
    exact hfirst.mp h.first
  · intro h
    exact ⟨hordz, hsep, hoff, hfirst.mpr h⟩

/-- A zone whose second transition repeats the offset. -/
def repeatedOnce : ZoneFile where
  times := [-20, -10, 10]
  types := [0, 0, 1]
  tti := [⟨0, false, "A"⟩, ⟨3600, false, "B"⟩]
  timecnt := rfl

/-- The zone loaded from it. -/
def repeatedOnceInfo : ZoneInfo where
  transitions := [⟨-20, ⟨0, false, "A"⟩⟩, ⟨10, ⟨3600, false, "B"⟩⟩]
  firstPos := 1
  utcoff := 3600
  stdAbbr := some "A"

theorem repeatedOnce_right : repeatedOnce.EpochRight repeatedOnceInfo := by
  refine (load_epoch_iff (f := repeatedOnce) (z := repeatedOnceInfo) rfl (by decide)).mpr ?_
  refine .inr ⟨⟨2, by decide, by decide, by decide⟩, fun k i hk _ => ?_⟩
  have hk' : k < 1 := (List.getElem?_eq_some_iff.mp hk).1
  omega

/-- Two transitions before the epoch repeat the offset, the second one right before it. -/
def repeatedTwice : ZoneFile where
  times := [-30, -20, -10, 10]
  types := [0, 0, 0, 1]
  tti := [⟨0, false, "A"⟩, ⟨3600, false, "B"⟩]
  timecnt := rfl

/-- The zone loaded from it, with the index after its last transition. -/
def repeatedTwiceInfo : ZoneInfo where
  transitions := [⟨-30, ⟨0, false, "A"⟩⟩, ⟨10, ⟨3600, false, "B"⟩⟩]
  firstPos := 2
  utcoff := 3600
  stdAbbr := some "A"

theorem repeatedTwice_wrong : repeatedTwice.load = .ok repeatedTwiceInfo ∧
    repeatedTwice.times.Pairwise (· < ·) ∧ ¬repeatedTwice.EpochRight repeatedTwiceInfo := by
  refine ⟨rfl, by decide, fun h => ?_⟩
  exact absurd h.first (by decide)

end ZoneFile

/-! ### The lookup -/

/-- The last transition that is not later. -/
def lastAt (ts : List Transition) (epoch : Int) : Option Transition :=
  (ts.filter fun t => t.time ≤ epoch).getLast?

open ZoneFile (Ordered Separated)

theorem lastAt_spec {ts : List Transition} (hord : Ordered ts) {epoch : Int} {p : Transition}
    (h : lastAt ts epoch = some p) : ∃ j, ts[j]? = some p ∧ p.time ≤ epoch ∧
      ∀ q, ts[j + 1]? = some q → epoch < q.time := by
  induction ts with
  | nil => cases h
  | cons t ts ih =>
    obtain ⟨hhead, htail⟩ := List.pairwise_cons.mp hord
    unfold lastAt at h ih
    by_cases ht : t.time ≤ epoch
    · rw [List.filter_cons_of_pos (by simpa using ht)] at h
      cases hrest : ts.filter fun t => t.time ≤ epoch with
      | nil =>
        rw [hrest] at h
        obtain rfl := Option.some.inj h
        refine ⟨0, rfl, ht, fun q hq => ?_⟩
        have hq := (List.filter_eq_nil_iff.mp hrest) q (List.mem_of_getElem? hq)
        simpa using hq
      | cons r rs =>
        rw [hrest, List.getLast?_cons_cons] at h
        obtain ⟨j, hj⟩ := ih htail (by rw [hrest, h])
        exact ⟨j + 1, hj⟩
    · -- the transitions behind a later one are later
      have hnil : (t :: ts).filter (fun t => t.time ≤ epoch) = [] := by
        rw [List.filter_eq_nil_iff]
        intro u hu
        obtain rfl | hu := List.mem_cons.mp hu
        · simpa using ht
        · have := hhead u hu
          simp
          omega
      rw [hnil] at h
      cases h

/-- Between two transitions the first one is the last one that is not later. -/
theorem lastAt_of_band {ts : List Transition} (hord : Ordered ts) {k : Nat} {a b : Transition}
    {epoch : Int} (ha : ts[k]? = some a) (hb : ts[k + 1]? = some b) (hlow : a.time ≤ epoch)
    (hhigh : epoch < b.time) : lastAt ts epoch = some a := by
  cases hp : lastAt ts epoch with
  | none =>
    have hnil := List.getLast?_eq_none_iff.mp hp
    have hmem : a ∈ ts.filter (fun t => t.time ≤ epoch) :=
      List.mem_filter.mpr ⟨List.mem_of_getElem? ha, decide_eq_true hlow⟩
    rw [hnil] at hmem
    cases hmem
  | some p =>
    obtain ⟨j, hj, hle, hnext⟩ := lastAt_spec hord hp
    obtain hlt | rfl | hgt := Nat.lt_trichotomy j k
    · have hlen := (List.getElem?_eq_some_iff.mp ha).1
      have hlate := hnext _ (List.getElem?_eq_getElem (by omega : j + 1 < ts.length))
      obtain heq | hlt := Nat.eq_or_lt_of_le (show j + 1 ≤ k by omega)
      · subst heq
        rw [(List.getElem?_eq_some_iff.mp ha).2] at hlate
        omega
      · have := ZoneInfo.time_lt hord (List.getElem?_eq_getElem (by omega)) ha hlt
        omega
    · rw [← hj, ha]
    · obtain heq | hlt := Nat.eq_or_lt_of_le (show k + 1 ≤ j by omega)
      · rw [← heq, hb, Option.some.injEq] at hj
        subst hj
        omega
      · have := ZoneInfo.time_lt hord hb hj hlt
        omega

namespace ZoneInfo

variable {z : ZoneInfo} {epoch : Int} {a : Transition}

/-- When the lookup reads only transitions of the zone: the transition before `first_pos` and,
for the backward scan, the one after it exist. -/
def ReadsInside (z : ZoneInfo) (epoch : Int) : Prop :=
  z.firstPos < 0 ∨ z.firstPos = 0 ∧ 1 < z.transitions.length ∨
    0 < z.firstPos ∧ ∃ t, z.transitions[(z.firstPos - 1).toNat]? = some t ∧
      (t.time ≤ epoch ∨ z.firstPos + 1 < z.transitions.length)

/-- A transition has the offset of the zone's standard time. -/
def IsStandard (z : ZoneInfo) (a : Transition) : Prop :=
  a.trans.utcoff = z.utcoff ∧ a.trans.isdst = false

/-- When the lookup finds the transition `a` of the file, which is in force: the forward scan runs,
and the last transition that is left and not later has its flag; or no transition is found and `a` has
the offset of the zone's standard time. -/
def FindsInForce (z : ZoneInfo) (epoch : Int) (a : Transition) : Prop :=
  if 0 < z.firstPos then
    (∃ t, z.transitions[(z.firstPos - 1).toNat]? = some t ∧ t.time ≤ epoch) ∧
      if ∃ t ∈ z.transitions, epoch < t.time then
        ∀ p, lastAt z.transitions epoch = some p → p.trans.isdst = a.trans.isdst
      else z.IsStandard a
  else z.IsStandard a ∧ (z.firstPos < 0 ∨ ∃ t, z.transitions[1]? = some t ∧ t.time ≤ epoch)

theorem isSome_iff_readsInside : (z.getUTCOffsetImpl epoch).isSome ↔ z.ReadsInside epoch := by
  unfold ReadsInside
  by_cases hpos : 0 < z.firstPos
  · rw [getUTCOffsetImpl_of_pos hpos]
    cases hstart : z.transitions[(z.firstPos - 1).toNat]? with
    | none => simp [hpos]; omega
    | some t =>
      have hlen := (List.getElem?_eq_some_iff.mp hstart).1
      have hrest : ¬(z.firstPos < 0 ∨ z.firstPos = 0 ∧ 1 < z.transitions.length) := by omega
      rw [← or_assoc, or_iff_right hrest]
      simp only [Option.bind_some, Option.some.injEq, exists_eq_left', hpos, true_and]
      by_cases ht : t.time ≤ epoch
      · rw [if_pos ht]
        exact iff_of_true (scanForward_isSome _ _ (by omega)) (Or.inl ht)
      · rw [if_neg ht]
        by_cases hin : z.firstPos + 1 < z.transitions.length
        · exact iff_of_true (scanBackward_isSome _ (by omega)) (Or.inr hin)
        · rw [scanBackward_eq_none _ (by omega) (by omega)]
          simp [ht, hin]
  · rw [getUTCOffsetImpl_of_nonpos hpos]
    by_cases hneg : z.firstPos < 0
    · rw [show (z.firstPos + 1).toNat = 0 by omega]
      exact iff_of_true rfl (Or.inl hneg)
    · rw [show (z.firstPos + 1).toNat = 1 by omega]
      by_cases hlen : 1 < z.transitions.length
      · exact iff_of_true (scanBackward_isSome _ hlen) (Or.inr (Or.inl ⟨by omega, hlen⟩))
      · rw [scanBackward_eq_none _ (by omega) (by omega)]
        exact iff_of_false (by simp) (by rintro (h | h | h) <;> omega)

/-- An answer with the values of a transition. -/
def Answers (a : Transition) (r : Option UtcOffset) : Prop :=
  ∃ o, r = some o ∧ o.utcoff = a.trans.utcoff ∧ o.isdst = a.trans.isdst

theorem answers_unknown : Answers a (some z.unknown) ↔ z.IsStandard a := by
  unfold Answers IsStandard unknown
  constructor
  · rintro ⟨o, ho, hoff, hdst⟩
    obtain rfl := Option.some.inj ho
    exact ⟨hoff.symm, hdst.symm⟩
  · rintro ⟨hoff, hdst⟩
    exact ⟨_, rfl, hoff.symm, hdst.symm⟩

theorem answers_offset {p : Transition} (hoff : p.trans.utcoff = a.trans.utcoff) :
    Answers a (some p.offset) ↔ p.trans.isdst = a.trans.isdst := by
  unfold Answers Transition.offset
  constructor
  · rintro ⟨o, ho, -, hdst⟩
    obtain rfl := Option.some.inj ho
    exact hdst
  · exact fun hdst => ⟨_, rfl, hoff, hdst⟩

theorem not_answers_offset {q : Transition} (hoff : q.trans.utcoff ≠ a.trans.utcoff) :
    ¬Answers a (some q.offset) := by
  rintro ⟨o, ho, h, -⟩
  obtain rfl := Option.some.inj ho
  exact hoff h

section
variable {p : Transition} {j : Nat}

/-- The transitions that are not later are those up to the last one. -/
theorem time_le_iff (hord : Ordered z.transitions) (hj : z.transitions[j]? = some p)
    (hle : p.time ≤ epoch) (hnext : ∀ q, z.transitions[j + 1]? = some q → epoch < q.time) {i : Nat}
    {t : Transition} (ht : z.transitions[i]? = some t) : t.time ≤ epoch ↔ i ≤ j := by
  constructor
  · intro hlow
    by_contra hgt
    obtain heq | hlt := Nat.eq_or_lt_of_le (show j + 1 ≤ i by omega)
    · subst heq
      have := hnext t ht
      omega
    · have hlen := (List.getElem?_eq_some_iff.mp ht).1
      have hq := List.getElem?_eq_getElem (show j + 1 < z.transitions.length by omega)
      have hlate := hnext _ hq
      have := time_lt hord hq ht hlt
      omega
  · intro hij
    obtain rfl | hlt := Nat.eq_or_lt_of_le hij
    · rw [hj, Option.some.injEq] at ht
      exact ht ▸ hle
    · have := time_lt hord ht hj hlt
      omega

/-- The forward scan, from a transition that is not later. -/
theorem answers_scanForward_iff (hord : Ordered z.transitions) (hj : z.transitions[j]? = some p)
    (hle : p.time ≤ epoch) (hnext : ∀ q, z.transitions[j + 1]? = some q → epoch < q.time)
    (hoff : p.trans.utcoff = a.trans.utcoff) {i m : Nat} (hij : i ≤ j)
    (hm : i + m = z.transitions.length - 1) :
    Answers a (z.scanForward epoch m i) ↔
      if ∃ t ∈ z.transitions, epoch < t.time then p.trans.isdst = a.trans.isdst
      else z.IsStandard a := by
  cases hq : z.transitions[j + 1]? with
  | some q =>
    rw [scanForward_eq hord hj hq hle (hnext q hq) _ _ hij hm, answers_offset hoff,
      if_pos ⟨q, List.mem_of_getElem? hq, hnext q hq⟩]
  | none =>
    have hlast := List.getElem?_eq_none_iff.mp hq
    have hall : ∀ u ∈ z.transitions, u.time ≤ epoch := by
      intro u hu
      obtain ⟨i, hi⟩ := List.mem_iff_getElem?.mp hu
      have hlen := (List.getElem?_eq_some_iff.mp hi).1
      exact (time_le_iff hord hj hle hnext hi).mpr (by omega)
    rw [scanForward_of_le hall _ _ hm, answers_unknown, if_neg]
    rintro ⟨u, hu, hlate⟩
    have := hall u hu
    omega

/-- The backward scan, from a later transition, stops at the next one, which has another offset. -/
theorem not_answers_scanBackward (hord : Ordered z.transitions) (hsep : Separated z.transitions)
    (hj : z.transitions[j]? = some p) (hle : p.time ≤ epoch)
    (hnext : ∀ q, z.transitions[j + 1]? = some q → epoch < q.time)
    (hoff : p.trans.utcoff = a.trans.utcoff) {k : Nat} (hjk : j < k) :
    ¬Answers a (z.scanBackward epoch k) := by
  by_cases hin : k < z.transitions.length
  · have hj1 : j + 1 < z.transitions.length := by omega
    have hq := List.getElem?_eq_getElem hj1
    rw [scanBackward_eq hord hj hq hle (hnext _ hq) k hin, if_pos hjk]
    refine not_answers_offset fun hsame => ?_
    obtain ⟨hjlen, rfl⟩ := List.getElem?_eq_some_iff.mp hj
    exact List.isChain_iff_getElem.mp hsep j hj1 (hoff.trans hsame.symm)
  · rw [scanBackward_eq_none _ (by omega) (by omega)]
    rintro ⟨o, ho, -⟩
    cases ho

/-- The lookup, when `p` is the last transition that is left and not later, and has the offset of the
transition in force. -/
theorem answers_iff (hord : Ordered z.transitions) (hsep : Separated z.transitions)
    (hp : lastAt z.transitions epoch = some p) (hoff : p.trans.utcoff = a.trans.utcoff) :
    Answers a (z.getUTCOffsetImpl epoch) ↔ z.FindsInForce epoch a := by
  obtain ⟨j, hj, hle, hnext⟩ := lastAt_spec hord hp
  have hjlen := (List.getElem?_eq_some_iff.mp hj).1
  unfold FindsInForce
  by_cases hpos : 0 < z.firstPos
  · rw [getUTCOffsetImpl_of_pos hpos, if_pos hpos]
    cases hstart : z.transitions[(z.firstPos - 1).toNat]? with
    | none =>
      refine iff_of_false ?_ ?_
      · rintro ⟨o, ho, -⟩
        cases ho
      · rintro ⟨⟨t, ht, -⟩, -⟩
        cases ht
    | some t =>
      have hstartlen := (List.getElem?_eq_some_iff.mp hstart).1
      have htime := time_le_iff hord hj hle hnext hstart
      rw [Option.bind_some]
      by_cases ht : t.time ≤ epoch
      · rw [if_pos ht, and_iff_right ⟨t, rfl, ht⟩,
          answers_scanForward_iff hord hj hle hnext hoff (htime.mp ht) (by omega), hp]
        simp
      · rw [if_neg ht]
        refine iff_of_false (not_answers_scanBackward hord hsep hj hle hnext hoff (by omega)) ?_
        rintro ⟨⟨t', heq, ht'⟩, -⟩
        exact ht (Option.some.inj heq ▸ ht')
  · rw [getUTCOffsetImpl_of_nonpos hpos, if_neg hpos]
    by_cases hneg : z.firstPos < 0
    · -- nothing is read
      rw [show (z.firstPos + 1).toNat = 0 by omega, and_iff_left (Or.inl hneg)]
      exact answers_unknown
    · rw [show (z.firstPos + 1).toNat = 1 by omega, or_iff_right hneg]
      by_cases hone : ∃ t, z.transitions[1]? = some t ∧ t.time ≤ epoch
      · obtain ⟨t, ht, hlow⟩ := id hone
        have hlen := (List.getElem?_eq_some_iff.mp ht).1
        have hzero := List.getElem?_eq_getElem (show 0 < z.transitions.length by omega)
        rw [and_iff_left hone, ← answers_unknown]
        simp [scanBackward, ht, hzero, show ¬epoch < t.time by omega]
      · have hj1 : j < 1 := by
          by_contra hge
          have hq := List.getElem?_eq_getElem (show 1 < z.transitions.length by omega)
          exact hone ⟨_, hq, (time_le_iff hord hj hle hnext hq).mpr (by omega)⟩
        exact iff_of_false (not_answers_scanBackward hord hsep hj hle hnext hoff hj1)
          fun h => hone h.2

end

/-- The lookup in a zone that is loaded from a file, at a second between two transitions of the
file. -/
theorem getUTCOffsetImpl_iff {f : ZoneFile} (hload : f.load = .ok z)
    (hsorted : f.times.Pairwise (· < ·)) :
    (∀ epoch, (z.getUTCOffsetImpl epoch).isSome ↔ z.ReadsInside epoch) ∧
    ∀ (k : Nat) (a b : Transition) (epoch : Int), f.described[k]? = some a →
      f.described[k + 1]? = some b → a.time ≤ epoch → epoch < b.time →
      (Answers a (z.getUTCOffsetImpl epoch) ↔ z.FindsInForce epoch a) := by
  refine ⟨fun epoch => isSome_iff_readsInside, fun k a b epoch ha hb hlow hhigh => ?_⟩
  obtain ⟨hsep, hord⟩ := ZoneFile.load_spec hload
  have hband := lastAt_of_band (ZoneFile.described_ordered hload hsorted) ha hb hlow hhigh
  -- the transitions that are left describe the same offset
  have hoff : (lastAt z.transitions epoch).map (·.trans.utcoff) = some a.trans.utcoff := by
    refine (ZoneFile.load_offsetAt hload hsorted epoch).trans ?_
    show (lastAt f.described epoch).map _ = _
    rw [hband]
    rfl
  obtain ⟨p, hp, hpa⟩ := Option.map_eq_some_iff.mp hoff
  exact answers_iff (hord hsorted) hsep hp hpa

end ZoneInfo

/-- A zone with two transitions before 1970 and two after it. -/
def fourBands : ZoneFile where
  times := [-20, -10, 10, 20]
  types := [0, 1, 2, 0]
  tti := [⟨0, false, "A"⟩, ⟨3600, false, "B"⟩, ⟨7200, true, "C"⟩]
  timecnt := rfl

/-- The zone loaded from it. -/
def fourBandsInfo : ZoneInfo where
  transitions := [⟨-20, ⟨0, false, "A"⟩⟩, ⟨-10, ⟨3600, false, "B"⟩⟩, ⟨10, ⟨7200, true, "C"⟩⟩,
    ⟨20, ⟨0, false, "A"⟩⟩]
  firstPos := 2
  utcoff := 3600
  stdAbbr := some "A"

/-- After the second transition the forward scan answers. -/
theorem fourBands_found : fourBands.load = .ok fourBandsInfo ∧
    ZoneInfo.Answers ⟨-10, ⟨3600, false, "B"⟩⟩ (fourBandsInfo.getUTCOffsetImpl (-5)) := by
  refine ⟨rfl, ((ZoneInfo.getUTCOffsetImpl_iff (f := fourBands) (z := fourBandsInfo) rfl
    (by decide)).2 1 ⟨-10, ⟨3600, false, "B"⟩⟩ ⟨10, ⟨7200, true, "C"⟩⟩ (-5) rfl rfl
    (by decide) (by decide)).mpr ⟨⟨_, rfl, by decide⟩, fun p hp => ?_⟩⟩
  have hlast : lastAt fourBandsInfo.transitions (-5) = some ⟨-10, ⟨3600, false, "B"⟩⟩ := by decide
  rw [hlast] at hp
  exact Option.some.inj hp ▸ rfl

/-- Between the first two transitions the backward scan answers with the second one. -/
theorem fourBands_wrong : ¬∀ (f : ZoneFile) (z : ZoneInfo), f.load = .ok z →
    f.times.Pairwise (· < ·) → 2 ≤ f.times.length → ∀ (k : Nat) (a b : Transition)
    (epoch : Int), f.described[k]? = some a → f.described[k + 1]? = some b →
    a.time ≤ epoch → epoch < b.time → ZoneInfo.Answers a (z.getUTCOffsetImpl epoch) := by
  intro h
  obtain ⟨r, hr, hoff, -⟩ := h fourBands fourBandsInfo rfl (by decide) (by decide) 0
    ⟨-20, ⟨0, false, "A"⟩⟩ ⟨-10, ⟨3600, false, "B"⟩⟩ (-15) rfl rfl (by decide) (by decide)
  have hres : fourBandsInfo.getUTCOffsetImpl (-15) = some ⟨3600, false, some "B"⟩ := by decide
  rw [hres, Option.some.injEq] at hr
  subst hr
  exact absurd hoff (by decide)

end Qore.Date
