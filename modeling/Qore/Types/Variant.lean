import Mathlib
import Qore.Lib.PrunedScan
import Qore.Types.Sound

/-!
# `Qore.Types.Variant`: the search for the variant of a call

`QoreFunction::runtimeFindVariant` walks through the variants of a function and keeps the one whose
parameters rate the arguments highest. Before it rates a variant it compares the highest score that
its typed parameters can give with the score of the best one so far. A parameter without a type
restriction still scores a wildcard match and is not in that bound, so a better variant can be
skipped.

* `runtimeFindVariant_finds_iff`: the search finds the best match in one order of declaration, and in
  all of them, exactly when the scores of the other variants are within the bounds of the best ones.
* `findsBest_of_typed`: they are when every parameter has a type.
-/

set_option autoImplicit false

namespace Qore.Types

open Qore.Lib

/-! ### Variants -/

/-- The parse options that the search looks at. -/
def PO_REQUIRE_TYPES : BitVec 64 := 1 <<< 21
@[inherit_doc PO_REQUIRE_TYPES] def PO_STRICT_ARGS : BitVec 64 := 1 <<< 26

/-- The parse options that allow something. -/
def PO_POSITIVE_OPTIONS : BitVec 64 := 1 <<< 11 ||| 1 <<< 36 ||| 1 <<< 50 ||| 1 <<< 51

/-- The code flags that the search looks at. -/
def QCF_USES_EXTRA_ARGS : BitVec 64 := 1 <<< 1
@[inherit_doc QCF_USES_EXTRA_ARGS] def QCF_RUNTIME_NOOP : BitVec 64 := 1 <<< 5

/-- What the search asks of the types `T` of parameters and of arguments `A`: whether there is type
information, `runtimeAcceptsValue` for it, and `NOTHING`. -/
structure Rating (T A : Type) where
  hasType : T → Bool
  runtimeAcceptsValue : T → A → Match
  nothing : A
  isNothing : A → Bool

variable {T A : Type}

/-- The parameters of a variant: their types, of which a null pointer stands for a parameter that is
declared without one, and whether they have a default argument. -/
structure Signature (T : Type) where
  typeList : List (Option T)
  defaultArgList : List Bool

def Signature.numParams (sig : Signature T) : Nat := sig.typeList.length

/-- The number of parameters with type information, an `unsigned short`. -/
def Signature.getParamTypes (rt : Rating T A) (sig : Signature T) : Nat :=
  sig.typeList.countP (·.any rt.hasType) % 2 ^ 16

def Signature.getParamTypeInfo (sig : Signature T) (num : Nat) : Option T :=
  sig.typeList.getD num none

def Signature.hasDefaultArg (sig : Signature T) (i : Nat) : Bool := sig.defaultArgList.getD i false

/-- A variant of a function; a user variant with a body has the parse options of the body. -/
structure Variant (T : Type) where
  signature : Signature T
  flags : BitVec 64
  functionality : BitVec 64
  isUser : Bool
  statements : Option (BitVec 64)

def Variant.getParseOptions (v : Variant T) (po : BitVec 64) : BitVec 64 :=
  if v.isUser then v.statements.getD po else po

/-- The parse options do not allow access to the variant. -/
def Variant.barred (v : Variant T) (po : BitVec 64) : Bool :=
  v.functionality &&& po &&& ~~~PO_POSITIVE_OPTIONS ≠ 0 ∨
    v.functionality &&& PO_POSITIVE_OPTIONS ≠ 0 ∧
      v.functionality &&& PO_POSITIVE_OPTIONS &&& po ≠ v.functionality &&& PO_POSITIVE_OPTIONS

/-- The value of a match in the enumeration. -/
def Match.score : Match → Nat
  | .notEqual => 0
  | .wildcard => 1
  | .ambiguous => 2
  | .near => 3
  | .ident => 4

theorem Match.score_le (m : Match) : m.score ≤ 4 := by
  cases m <;> decide

/-- `QoreTypeInfo::runtimeAcceptsValue` on a pointer. -/
def runtimeAccepts (rt : Rating T A) : Option T → A → Match
  | none, _ => .wildcard
  | some ti, n => rt.runtimeAcceptsValue ti n

section
variable (rt : Rating T A) (ppo : BitVec 64) (args : List A) {sig : Signature T} {pi : Nat}
  {v : Variant T} (pgm : Bool)

/-- `QoreListNode::retrieveEntry`. -/
def retrieveEntry (i : Nat) : A := args.getD i rt.nothing

/-- What one parameter adds to the score, or nothing when it does not accept its argument. -/
def rateParam (sig : Signature T) (pi : Nat) : Option Nat :=
  let n := retrieveEntry rt args pi
  let t := sig.getParamTypeInfo pi
  if rt.isNothing n ∧ sig.hasDefaultArg pi then some 0
  else
    let rc := runtimeAccepts rt t n
    if rc = .notEqual then none
    else if args.length ≤ pi then some 0
    else if t.isSome then some rc.score
    else some 0

/-- The loop over the parameters from the given one on. -/
def rateLoop (sig : Signature T) : Nat → Nat → Nat → Option Nat
  | 0, _, pscore => some pscore
  | k + 1, pi, pscore =>
    match rateParam rt args sig pi with
    | none => none
    | some rc => rateLoop sig k (pi + 1) (pscore + rc)

/-- An argument after those of the parameters. -/
def hasExtraArg (sig : Signature T) : Bool :=
  (args.drop sig.numParams).any fun n => !rt.isNothing n

/-- Whether the variant is checked with strict arguments. -/
def Variant.strictArgs (v : Variant T) : Bool :=
  v.getParseOptions ppo &&& (PO_REQUIRE_TYPES ||| PO_STRICT_ARGS) ≠ 0

/-- A "runtime noop" variant is ignored with strict arguments. -/
def Variant.ignored (v : Variant T) : Bool :=
  v.strictArgs ppo ∧ v.flags &&& QCF_RUNTIME_NOOP ≠ 0

/-- Excess arguments that the variant does not take. -/
def Variant.refusesExtra (v : Variant T) : Bool :=
  v.signature.numParams < args.length ∧ v.strictArgs ppo ∧ v.flags &&& QCF_USES_EXTRA_ARGS = 0 ∧
    hasExtraArg rt args v.signature

/-! ### The search -/

/-- The variables of the search; a score and a length of -1 stand for no variant. -/
structure Search (T : Type) where
  score : Int
  scoreLen : Int
  variant : Option (Variant T)
  cnt : Nat

/-- The loop over the variants. -/
def searchLoop : List (Variant T) → Search T → Search T
  | [], s => s
  | v :: vs, s =>
    if v.ignored ppo then searchLoop vs s
    else
      let s := { s with cnt := s.cnt + 1 }
      if args.length = 0 ∧ v.signature.numParams = 0 then { s with variant := some v }
      else if (v.signature.getParamTypes rt * Match.ident.score : Int) < s.score then searchLoop vs s
      else
        match rateLoop rt args v.signature v.signature.numParams 0 0 with
        | none => searchLoop vs s
        | some pscore =>
          if v.refusesExtra rt ppo args then searchLoop vs s
          else if (pscore : Int) > s.score ∨ (pscore : Int) = s.score ∧
              (s.scoreLen = -1 ∨ (v.signature.numParams : Int) < s.scoreLen) then
            searchLoop vs
              { s with score := pscore, variant := some v, scoreLen := v.signature.numParams }
          else searchLoop vs s

/-- What a call finds. The overload error lists the variants that were tested; the access error is
raised for the variant that was found. -/
inductive Found (T : Type)
  | overloadError (tested : List (Variant T))
  | accessError (variant : Variant T)
  | found (variant : Variant T)

/-- `QoreFunction::runtimeFindVariant` for a plain function; `pgm` tells whether there is a current
program. -/
def runtimeFindVariant (pgm : Bool) (vlist : List (Variant T)) : Found T :=
  let s := searchLoop rt ppo args vlist ⟨-1, -1, none, 0⟩
  match s.variant with
  | none => .overloadError (if s.cnt = 0 then [] else vlist)
  | some v => if pgm && v.barred (v.getParseOptions ppo) then .accessError v else .found v

/-- The variant that was found. -/
def Found.variant? : Found T → Option (Variant T)
  | overloadError _ => none
  | accessError v => some v
  | found v => some v

/-! ### Ranks -/

/-- The total match score of a variant that accepts the arguments. -/
def Variant.matchScore (v : Variant T) : Option Nat :=
  if v.ignored ppo ∨ v.refusesExtra rt ppo args then none
  else rateLoop rt args v.signature v.signature.numParams 0 0

/-- A higher score ranks higher, and fewer parameters do among equal scores. -/
abbrev Rank := ℕ ×ₗ ℕᵒᵈ

/-- The rank of a score and a number of parameters. -/
def Rank.of (score params : Nat) : Rank := toLex (score, OrderDual.toDual params)

/-- The rank of a variant that accepts the arguments. -/
def Variant.rank (v : Variant T) : Option Rank :=
  (v.matchScore rt ppo args).map fun score => .of score v.signature.numParams

/-- The typed parameters of a variant cannot give the score of the best one so far. -/
def Variant.skips (v : Variant T) (r : Rank) : Bool :=
  v.signature.getParamTypes rt * Match.ident.score < (ofLex r).1

theorem Rank.of_le_iff {a b c d : Nat} : Rank.of a b ≤ .of c d ↔ a < c ∨ a = c ∧ d ≤ b := by
  rw [Rank.of, Rank.of, Prod.Lex.toLex_le_toLex, OrderDual.toDual_le_toDual]

theorem Rank.of_lt_iff {a b c d : Nat} : Rank.of a b < .of c d ↔ a < c ∨ a = c ∧ d < b := by
  rw [Rank.of, Rank.of, Prod.Lex.toLex_lt_toLex, OrderDual.toDual_lt_toDual]

/-- A variant that is skipped for a candidate is skipped for a better one. -/
theorem skips_mono (v : Variant T) (r q : Rank) (hskip : v.skips rt r = true) (hle : r ≤ q) :
    v.skips rt q = true := by
  have hscore : (ofLex r).1 ≤ (ofLex q).1 := Prod.Lex.monotone_fst _ _ hle
  simp only [Variant.skips, decide_eq_true_eq] at hskip ⊢
  exact hskip.trans_le hscore

/-- A call without arguments scores nothing. -/
theorem rateLoop_noArgs {k pscore p : Nat} (h : rateLoop rt [] sig k pi pscore = some p) :
    p = pscore := by
  induction k generalizing pi pscore with
  | zero => exact (Option.some.inj h).symm
  | succ k ih =>
    rw [rateLoop] at h
    cases hrate : rateParam rt [] sig pi with
    | none => simp [hrate] at h
    | some rc =>
      have hzero : rc = 0 := by
        simp only [rateParam, List.length_nil, Nat.zero_le, if_true] at hrate
        split at hrate
        · exact (Option.some.inj hrate).symm
        · split at hrate
          · cases hrate
          · exact (Option.some.inj hrate).symm
      simp only [hrate, hzero] at h
      exact ih h

theorem rank_eq_some_iff {r : Rank} : v.rank rt ppo args = some r ↔
    ∃ score, v.matchScore rt ppo args = some score ∧ r = .of score v.signature.numParams := by
  rw [Variant.rank, Option.map_eq_some_iff]
  exact exists_congr fun score => and_congr_right fun _ => eq_comm

/-- Without arguments a variant without parameters ranks highest. -/
theorem rank_le_of_noArgs {r : Rank} (h : v.rank rt ppo [] = some r) : r ≤ .of 0 0 := by
  obtain ⟨score, hscore, rfl⟩ := (rank_eq_some_iff rt ppo []).1 h
  have hzero : score = 0 := by
    rw [Variant.matchScore] at hscore
    split at hscore
    · cases hscore
    · exact rateLoop_noArgs rt hscore
  exact Rank.of_le_iff.2 (Or.inr ⟨hzero, Nat.zero_le _⟩)

/-! ### The search is a pruned scan -/

/-- The variables of the search hold the best variant so far. -/
def Search.Holds (s : Search T) : Option (Variant T × Rank) → Prop
  | none => s.score = -1 ∧ s.scoreLen = -1 ∧ s.variant = none
  | some (v, r) => v.rank rt ppo args = some r ∧ s.score = (ofLex r).1 ∧
      s.scoreLen = v.signature.numParams ∧ s.variant = some v

/-- The count of the tested variants is not looked at. -/
theorem Search.Holds.count {s : Search T} {best : Option (Variant T × Rank)}
    (hs : s.Holds rt ppo args best) : Search.Holds rt ppo args { s with cnt := s.cnt + 1 } best := by
  cases best <;> exact hs

/-- The loop skips a variant as the scan does. -/
theorem Search.Holds.skips_iff {s : Search T} {b : Variant T} {r : Rank}
    (hs : s.Holds rt ppo args (some (b, r))) :
    (v.signature.getParamTypes rt * Match.ident.score : Int) < s.score ↔ v.skips rt r = true := by
  rw [hs.2.1]
  simp only [Variant.skips, decide_eq_true_eq]
  exact_mod_cast Iff.rfl

/-- The loop compares the scores and the numbers of parameters as the ranks are compared. -/
theorem Search.Holds.takes_iff {s : Search T} {b : Variant T} {score pscore n : Nat}
    (hs : s.Holds rt ppo args (some (b, .of score b.signature.numParams))) :
    ((pscore : Int) > s.score ∨ (pscore : Int) = s.score ∧
        (s.scoreLen = -1 ∨ (n : Int) < s.scoreLen)) ↔
      Rank.of score b.signature.numParams < .of pscore n := by
  obtain ⟨-, hsc, hlen, -⟩ := hs
  rw [Rank.of_lt_iff, hsc, hlen]
  simp only [Rank.of, ofLex_toLex]
  omega

/-- For a call without arguments, a variant without parameters is better than one with some. -/
theorem scanStep_noParams {best : Option (Variant T × Rank)} (hv : v.rank rt ppo [] = some (.of 0 0))
    (hbest : ∀ b ∈ best, b.1.rank rt ppo [] = some b.2 ∧ b.1.signature.numParams ≠ 0) :
    scanStep (Variant.rank rt ppo []) (Variant.skips rt) best v = some (v, .of 0 0) := by
  cases best with
  | none => simp [scanStep, hv]
  | some best =>
    obtain ⟨b, r⟩ := best
    obtain ⟨hb, hbnp⟩ := hbest _ rfl
    dsimp only at hb hbnp
    have hle := rank_le_of_noArgs rt ppo hb
    obtain ⟨score, -, rfl⟩ := (rank_eq_some_iff rt ppo []).1 hb
    have hscore := Rank.of_le_iff.1 hle
    have hnot : v.skips rt (.of score b.signature.numParams) = false := by
      have hzero : score = 0 := by omega
      simp [Variant.skips, Rank.of, hzero]
    exact scanStep_take _ _ hnot hv (Rank.of_lt_iff.2 (by omega))

/-- The loop over the variants is the scan for the best one. -/
theorem searchLoop_eq_scan (vs : List (Variant T)) (s : Search T) (best : Option (Variant T × Rank))
    (hs : s.Holds rt ppo args best)
    (hparams : args = [] → ∀ b ∈ best, b.1.signature.numParams ≠ 0) :
    (searchLoop rt ppo args vs s).variant =
      (vs.foldl (scanStep (Variant.rank rt ppo args) (Variant.skips rt)) best).map Prod.fst := by
  induction vs generalizing s best with
  | nil =>
    cases best with
    | none => exact hs.2.2
    | some best => exact hs.2.2.2
  | cons v vs ih =>
    have hnone (hrank : v.rank rt ppo args = none) :
        scanStep (Variant.rank rt ppo args) (Variant.skips rt) best v = best :=
      scanStep_of_none _ _ hrank best
    rw [searchLoop, List.foldl_cons]
    dsimp only
    split
    · next hignored =>
      rw [hnone (by simp [Variant.rank, Variant.matchScore, hignored])]
      exact ih s best hs hparams
    next hignored =>
    split
    · -- A variant without parameters for a call without arguments ends the loop.
      next hempty =>
      obtain ⟨hargs, hnp⟩ := hempty
      obtain rfl : args = [] := List.length_eq_zero_iff.1 hargs
      have hrank : v.rank rt ppo [] = some (.of 0 0) := by
        simp [Variant.rank, Variant.matchScore, hignored, Variant.refusesExtra, hnp, rateLoop]
      rw [scanStep_noParams rt ppo hrank,
        foldl_scanStep_of_top _ _ fun a q => rank_le_of_noArgs rt ppo]
      · rfl
      · intro b hb
        obtain rfl : best = some b := hb
        exact ⟨hs.1, hparams rfl _ rfl⟩
    next hempty =>
    have hnp (hargs : args = []) : v.signature.numParams ≠ 0 :=
      fun hzero => hempty ⟨by simp [hargs], hzero⟩
    split
    · -- No variant is skipped before one was found.
      next hskip =>
      cases best with
      | none =>
        have hnonneg : (0 : Int) ≤ v.signature.getParamTypes rt * Match.ident.score := by positivity
        rw [hs.1] at hskip
        omega
      | some best =>
        rw [scanStep_skip _ _ (hs.skips_iff.1 hskip)]
        exact ih _ _ hs.count hparams
    next hskip =>
    cases hrate : rateLoop rt args v.signature v.signature.numParams 0 0 with
    | none =>
      rw [hnone (by simp [Variant.rank, Variant.matchScore, hrate])]
      exact ih _ _ hs.count hparams
    | some pscore =>
      dsimp only
      split
      · next hrefuses =>
        rw [hnone (by simp [Variant.rank, Variant.matchScore, hrefuses])]
        exact ih _ _ hs.count hparams
      next hrefuses =>
      have hrank : v.rank rt ppo args = some (.of pscore v.signature.numParams) := by
        simp [Variant.rank, Variant.matchScore, hignored, hrefuses, hrate]
      -- What follows when the variant is taken.
      have htaken : (searchLoop rt ppo args vs
            ⟨pscore, v.signature.numParams, some v, s.cnt + 1⟩).variant =
          (vs.foldl (scanStep (Variant.rank rt ppo args) (Variant.skips rt))
            (some (v, .of pscore v.signature.numParams))).map Prod.fst := by
        refine ih _ _ ⟨hrank, rfl, rfl, rfl⟩ fun hargs b hb => ?_
        obtain rfl := Option.some.inj hb
        exact hnp hargs
      cases best with
      | none =>
        have hstep : scanStep (Variant.rank rt ppo args) (Variant.skips rt) none v =
            some (v, .of pscore v.signature.numParams) := by
          simp [scanStep, hrank]
        rw [if_pos (Or.inl (by rw [hs.1]; omega)), hstep]
        exact htaken
      | some best =>
        obtain ⟨b, r⟩ := best
        obtain ⟨score, -, rfl⟩ := (rank_eq_some_iff rt ppo args).1 hs.1
        have hnot : v.skips rt (.of score b.signature.numParams) = false :=
          Bool.eq_false_iff.2 fun hskips => hskip (hs.skips_iff.2 hskips)
        split
        · next htake =>
          rw [scanStep_take _ _ hnot hrank (hs.takes_iff.1 htake)]
          exact htaken
        · next hkeep =>
          rw [scanStep_keep _ _ hrank fun h => hkeep (hs.takes_iff.2 h)]
          exact ih _ _ hs.count hparams

/-- A best match: a variant that accepts the arguments, such that none that accepts them has a higher
score, or the same score with fewer parameters. -/
def Variant.Best (vlist : List (Variant T)) (v : Variant T) : Prop :=
  v ∈ vlist ∧ ∃ score, v.matchScore rt ppo args = some score ∧
    ∀ u ∈ vlist, ∀ q, u.matchScore rt ppo args = some q →
      q < score ∨ q = score ∧ v.signature.numParams ≤ u.signature.numParams

/-- The search finds the best match. -/
structure FindsBest (pgm : Bool) (vlist : List (Variant T)) : Prop where
  raises : (∃ tested, runtimeFindVariant rt ppo args pgm vlist = .overloadError tested) ↔
    ∀ v ∈ vlist, v.matchScore rt ppo args = none
  best : ∀ v, (runtimeFindVariant rt ppo args pgm vlist).variant? = some v →
    v.Best rt ppo args vlist
  order : ∀ b : Variant T, b.Best rt ppo args vlist → (∀ a, a.Best rt ppo args vlist → a = b) →
    ∀ vlist', vlist'.Perm vlist →
      (runtimeFindVariant rt ppo args pgm vlist').variant? = some b

/-- The highest score that the parameters of a variant with type information can give. -/
def Variant.bound (v : Variant T) : Nat := v.signature.getParamTypes rt * Match.ident.score

/-- The variants within the bounds: the bound of one is not below the score of another one in front of
it that accepts the arguments and is within the bounds itself. -/
def withinBounds (vlist : List (Variant T)) : List (Variant T) :=
  unhidden (Variant.rank rt ppo args) (Variant.skips rt) vlist

/-- What the bounds have to allow in the given order of declaration: a best match is within them, and
no other variant has a higher score than the bound of a single one. -/
structure BoundsAllow (vlist : List (Variant T)) : Prop where
  reached : ∀ v : Variant T, v.Best rt ppo args vlist →
    ∃ u ∈ withinBounds rt ppo args vlist, u.Best rt ppo args vlist
  single : ∀ b : Variant T, b.Best rt ppo args vlist → (∀ a, a.Best rt ppo args vlist → a = b) →
    ∀ u ∈ vlist, u ≠ b → ∀ score, u.matchScore rt ppo args = some score → score ≤ b.bound rt

/-- What they have to allow in every order: if a variant accepts the arguments, no variant that is not
a best match has a higher score than the bound of some best match. -/
def BoundsAllowEvery (vlist : List (Variant T)) : Prop :=
  ∀ v ∈ vlist, (v.matchScore rt ppo args).isSome → ∃ b : Variant T, b.Best rt ppo args vlist ∧
    ∀ u ∈ vlist, ¬u.Best rt ppo args vlist → ∀ score, u.matchScore rt ppo args = some score →
      score ≤ b.bound rt

theorem best_iff_isBest {vlist : List (Variant T)} :
    v.Best rt ppo args vlist ↔ IsBest (Variant.rank rt ppo args) vlist v := by
  refine and_congr_right fun _ => ?_
  constructor
  · rintro ⟨score, hscore, hmax⟩
    refine ⟨_, (rank_eq_some_iff rt ppo args).2 ⟨score, hscore, rfl⟩, fun u hu r hr => ?_⟩
    obtain ⟨q, hq, rfl⟩ := (rank_eq_some_iff rt ppo args).1 hr
    exact Rank.of_le_iff.2 (hmax u hu q hq)
  · rintro ⟨r, hr, hmax⟩
    obtain ⟨score, hscore, rfl⟩ := (rank_eq_some_iff rt ppo args).1 hr
    refine ⟨score, hscore, fun u hu q hq => Rank.of_le_iff.1 (hmax u hu _ ?_)⟩
    exact (rank_eq_some_iff rt ppo args).2 ⟨q, hq, rfl⟩

theorem rank_eq_none_iff : v.rank rt ppo args = none ↔ v.matchScore rt ppo args = none := by
  rw [Variant.rank, Option.map_eq_none_iff]

/-- The search finds what the scan finds. -/
theorem variant_runtimeFindVariant (vlist : List (Variant T)) :
    (runtimeFindVariant rt ppo args pgm vlist).variant? =
      (scan (Variant.rank rt ppo args) (Variant.skips rt) vlist).map Prod.fst := by
  rw [scan, ← searchLoop_eq_scan rt ppo args vlist ⟨-1, -1, none, 0⟩ none ⟨rfl, rfl, rfl⟩
    fun _ b hb => by cases hb]
  simp only [runtimeFindVariant]
  cases (searchLoop rt ppo args vlist ⟨-1, -1, none, 0⟩).variant with
  | none => rfl
  | some v =>
    dsimp only
    split <;> rfl

theorem variant_eq_none_iff (vlist : List (Variant T)) :
    (runtimeFindVariant rt ppo args pgm vlist).variant? = none ↔
      ∀ v ∈ vlist, v.matchScore rt ppo args = none := by
  rw [variant_runtimeFindVariant, Option.map_eq_none_iff, scan_eq_none_iff]
  exact forall₂_congr fun v _ => rank_eq_none_iff rt ppo args

theorem overloadError_iff (vlist : List (Variant T)) :
    (∃ tested, runtimeFindVariant rt ppo args pgm vlist = .overloadError tested) ↔
      ∀ v ∈ vlist, v.matchScore rt ppo args = none := by
  rw [← variant_eq_none_iff rt ppo args pgm]
  cases runtimeFindVariant rt ppo args pgm vlist with
  | overloadError tested => exact iff_of_true ⟨tested, rfl⟩ rfl
  | accessError v => exact iff_of_false (by rintro ⟨tested, h⟩; cases h) (by rintro ⟨⟩)
  | found v => exact iff_of_false (by rintro ⟨tested, h⟩; cases h) (by rintro ⟨⟩)

/-- A candidate is skipped for no other one exactly when the bound covers all scores. -/
theorem hides_eq_false_iff {u b : Variant T} :
    hides (Variant.rank rt ppo args) (Variant.skips rt) u b = false ↔
      ∀ score, u.matchScore rt ppo args = some score → score ≤ b.bound rt := by
  cases hscore : u.matchScore rt ppo args with
  | none => simp [hides, Variant.rank, hscore]
  | some score =>
    simp only [hides, Variant.rank, hscore, Option.map_some, Option.any_some, Option.some.injEq,
      forall_eq']
    exact decide_eq_false_iff_not.trans not_lt

/-- A best match that the bounds allow is found. -/
theorem BoundsAllow.findsBest {vlist : List (Variant T)} (h : BoundsAllow rt ppo args vlist) :
    FindsBest rt ppo args pgm vlist := by
  have hfound := variant_runtimeFindVariant rt ppo args pgm vlist
  refine ⟨overloadError_iff rt ppo args pgm vlist, fun v hv => ?_,
    fun b hb hunique vlist' hperm => ?_⟩
  · rw [hfound, Option.map_eq_some_iff] at hv
    obtain ⟨⟨b, r⟩, hscan, rfl⟩ := hv
    have hspec := scan_spec (Variant.rank rt ppo args) (Variant.skips rt) (skips_mono rt) vlist
    rw [hscan] at hspec
    obtain ⟨c, hc⟩ := exists_isBest _ (mem_of_unhidden _ _ hspec.1) hspec.2.1
    obtain ⟨u, hu, hbest⟩ := h.reached c ((best_iff_isBest rt ppo args).2 hc)
    exact (best_iff_isBest rt ppo args).2 ((isBest_scan_iff _ _ (skips_mono rt) hscan).2
      ⟨u, hu, (best_iff_isBest rt ppo args).1 hbest⟩)
  · rw [variant_runtimeFindVariant]
    exact (scan_perm_iff _ _ (skips_mono rt) ((best_iff_isBest rt ppo args).1 hb)
      fun a ha => hunique a ((best_iff_isBest rt ppo args).2 ha)).2
      (fun u hu hne => (hides_eq_false_iff rt ppo args).2 (h.single b hb hunique u hu hne))
      vlist' hperm

theorem findsBest_iff (pgm : Bool) (vlist : List (Variant T)) :
    FindsBest rt ppo args pgm vlist ↔ BoundsAllow rt ppo args vlist := by
  have hfound := variant_runtimeFindVariant rt ppo args pgm vlist
  constructor
  · intro h
    refine ⟨fun v hv => ?_, fun b hb hunique u hu hne => ?_⟩
    · cases hscan : scan (Variant.rank rt ppo args) (Variant.skips rt) vlist with
      | none =>
        obtain ⟨hmem, score, hscore, -⟩ := hv
        have hnone := (scan_eq_none_iff _ _ vlist).1 hscan v hmem
        rw [rank_eq_none_iff, hscore] at hnone
        cases hnone
      | some found =>
        obtain ⟨b, r⟩ := found
        have hbest := h.best b (by rw [hfound, hscan]; rfl)
        have hspec := scan_spec (Variant.rank rt ppo args) (Variant.skips rt) (skips_mono rt) vlist
        rw [hscan] at hspec
        exact ⟨b, hspec.1, hbest⟩
    · rw [← hides_eq_false_iff rt ppo args]
      refine (scan_perm_iff _ _ (skips_mono rt) ((best_iff_isBest rt ppo args).1 hb)
        fun a ha => hunique a ((best_iff_isBest rt ppo args).2 ha)).1 (fun as' hperm => ?_) u hu hne
      rw [← variant_runtimeFindVariant rt ppo args pgm]
      exact h.order b hb hunique as' hperm
  · exact fun h => h.findsBest rt ppo args pgm

theorem best_perm {vlist vlist' : List (Variant T)} (hperm : vlist'.Perm vlist) :
    v.Best rt ppo args vlist' ↔ v.Best rt ppo args vlist := by
  rw [best_iff_isBest, best_iff_isBest]
  exact ⟨fun h => h.perm _ hperm.symm, fun h => h.perm _ hperm⟩

/-- A search that finds a best match in every order of declaration finds it also where it is a single
one. -/
theorem FindsBest.of_orders {vlist : List (Variant T)}
    (h : ∀ vlist', vlist'.Perm vlist → ∀ v,
      (runtimeFindVariant rt ppo args pgm vlist').variant? = some v → v.Best rt ppo args vlist) :
    FindsBest rt ppo args pgm vlist := by
  refine ⟨overloadError_iff rt ppo args pgm vlist, h vlist (.refl _),
    fun b hb hunique vlist' hperm => ?_⟩
  cases hfound : (runtimeFindVariant rt ppo args pgm vlist').variant? with
  | none =>
    obtain ⟨hmem, score, hscore, -⟩ := hb
    rw [(variant_eq_none_iff rt ppo args pgm vlist').1 hfound b (hperm.mem_iff.2 hmem)] at hscore
    cases hscore
  | some v => exact congrArg some (hunique v (h vlist' hperm v hfound))

theorem findsBest_every_iff (vlist : List (Variant T)) :
    (∀ vlist', vlist'.Perm vlist → FindsBest rt ppo args pgm vlist') ↔
      BoundsAllowEvery rt ppo args vlist := by
  have hscan (h : ∃ v ∈ vlist, (v.matchScore rt ppo args).isSome) :
      (∀ vlist', vlist'.Perm vlist → ∀ v,
        (runtimeFindVariant rt ppo args pgm vlist').variant? = some v →
          v.Best rt ppo args vlist) ↔
      ∃ b : Variant T, b.Best rt ppo args vlist ∧ ∀ u ∈ vlist, ¬u.Best rt ppo args vlist →
        ∀ score, u.matchScore rt ppo args = some score → score ≤ b.bound rt := by
    obtain ⟨v, hv, hsome⟩ := h
    obtain ⟨score, hscore⟩ := Option.isSome_iff_exists.1 hsome
    have hrank := (rank_eq_some_iff rt ppo args).2 ⟨score, hscore, rfl⟩
    have horders := scan_orders_iff _ (Variant.skips rt) (skips_mono rt) hv hrank
    simp only [hides_eq_false_iff, ← best_iff_isBest] at horders
    rw [← horders]
    refine forall₂_congr fun vlist' _ => ?_
    simp only [variant_runtimeFindVariant, Option.map_eq_some_iff, Prod.exists]
    exact ⟨fun h b r hb => h b ⟨b, r, hb, rfl⟩, fun h b ⟨c, r, hc, hcb⟩ => hcb ▸ h c r hc⟩
  constructor
  · intro h v hv hsome
    exact (hscan ⟨v, hv, hsome⟩).1 fun vlist' hperm v hfound =>
      (best_perm rt ppo args hperm).1 ((h vlist' hperm).best v hfound)
  · intro h vlist' hperm
    refine FindsBest.of_orders rt ppo args pgm fun vlist'' hperm' v hfound => ?_
    rw [best_perm rt ppo args hperm]
    by_cases hex : ∃ v ∈ vlist, (v.matchScore rt ppo args).isSome
    · obtain ⟨u, hu, hsome⟩ := id hex
      exact (hscan hex).2 (h u hu hsome) vlist'' (hperm'.trans hperm) v hfound
    · have hnone := (variant_eq_none_iff rt ppo args pgm vlist'').2 fun u hu =>
        Option.not_isSome_iff_eq_none.1 fun hsome =>
          hex ⟨u, (hperm'.trans hperm).mem_iff.1 hu, hsome⟩
      rw [hnone] at hfound
      cases hfound

/-- The search finds the best match in the given order of declaration, and in every one, exactly when
the scores of the other variants are within the bounds of the best matches. -/
theorem runtimeFindVariant_finds_iff (pgm : Bool) (vlist : List (Variant T)) :
    (FindsBest rt ppo args pgm vlist ↔ BoundsAllow rt ppo args vlist) ∧
      ((∀ vlist', vlist'.Perm vlist → FindsBest rt ppo args pgm vlist') ↔
        BoundsAllowEvery rt ppo args vlist) :=
  ⟨findsBest_iff rt ppo args pgm vlist, findsBest_every_iff rt ppo args pgm vlist⟩

/-! ### Typed parameters -/

/-- A typed parameter adds at most a perfect match, and one without a type adds nothing. -/
theorem rateParam_le {rc : Nat} (h : rateParam rt args sig pi = some rc) :
    rc ≤ Match.ident.score * if (sig.getParamTypeInfo pi).isSome then 1 else 0 := by
  rw [rateParam] at h
  dsimp only at h
  split at h
  · exact (Option.some.inj h) ▸ Nat.zero_le _
  · split at h
    · cases h
    · split at h
      · exact (Option.some.inj h) ▸ Nat.zero_le _
      · split at h
        · next hsome =>
          rw [← Option.some.inj h, if_pos hsome]
          exact Match.score_le _
        · exact (Option.some.inj h) ▸ Nat.zero_le _

theorem rateLoop_le {k pscore p : Nat} (h : rateLoop rt args sig k pi pscore = some p)
    (hk : pi + k ≤ sig.numParams) :
    p ≤ pscore + Match.ident.score * (((sig.typeList.drop pi).take k).countP Option.isSome) := by
  induction k generalizing pi pscore with
  | zero => exact (Option.some.inj h).ge.trans (Nat.le_add_right ..)
  | succ k ih =>
    rw [rateLoop] at h
    cases hrate : rateParam rt args sig pi with
    | none => simp [hrate] at h
    | some rc =>
      simp only [hrate] at h
      have hpi : pi < sig.typeList.length := by
        rw [Signature.numParams] at hk
        omega
      have hrc := rateParam_le rt args hrate
      have hrest := ih h (by omega)
      have hget : sig.getParamTypeInfo pi = sig.typeList[pi] := by
        rw [Signature.getParamTypeInfo, List.getD_eq_getElem _ _ hpi]
      rw [List.drop_eq_getElem_cons hpi, List.take_succ_cons, List.countP_cons, ← hget]
      calc p ≤ pscore + rc + _ := hrest
        _ ≤ _ := by
          rw [Nat.mul_add]
          omega

/-- A search among variants with typed parameters finds the best match. -/
theorem findsBest_of_typed {vlist : List (Variant T)}
    (htyped : ∀ v ∈ vlist, ∀ t ∈ v.signature.typeList, t.isSome → t.any rt.hasType = true)
    (hlen : ∀ v ∈ vlist, v.signature.numParams < 2 ^ 16) : FindsBest rt ppo args pgm vlist := by
  have hbound : ∀ v ∈ vlist, ∀ score, v.matchScore rt ppo args = some score →
      score ≤ v.signature.getParamTypes rt * Match.ident.score := by
    intro v hv score hscore
    rw [Variant.matchScore] at hscore
    split at hscore
    · cases hscore
    -- a typed parameter adds at most the score of an identical type
    have hle := rateLoop_le rt args hscore (Nat.zero_add _).le
    have hcount : v.signature.typeList.countP Option.isSome ≤ v.signature.getParamTypes rt := by
      have hmod := Nat.mod_eq_of_lt (List.countP_le_length.trans_lt (hlen v hv) :
        v.signature.typeList.countP (·.any rt.hasType) < 2 ^ 16)
      rw [Signature.getParamTypes, hmod]
      exact List.countP_mono_left fun t ht => htyped v hv t ht
    rw [List.drop_zero, Signature.numParams, List.take_length, Nat.zero_add] at hle
    exact hle.trans (by rw [Nat.mul_comm]; exact Nat.mul_le_mul_right _ hcount)
  have hother : ∀ b : Variant T, b.Best rt ppo args vlist → ∀ u ∈ vlist, ∀ score,
      u.matchScore rt ppo args = some score →
      score ≤ b.signature.getParamTypes rt * Match.ident.score := by
    rintro b ⟨hb, s, hs, hmax⟩ u hu score hscore
    have hle : score ≤ s := (hmax u hu score hscore).elim Nat.le_of_lt fun h => h.1.le
    exact hle.trans (hbound b hb s hs)
  -- the bound of a best variant is not below any score, so the search does not skip it
  refine BoundsAllow.findsBest rt ppo args pgm
    ⟨fun v hv => ⟨v, ?_, hv⟩, fun b hb _ u hu _ => hother b hb u hu⟩
  exact mem_unhidden _ _ hv.1 fun u hu _ =>
    (hides_eq_false_iff rt ppo args).2 (hother v hv u hu)

end

/-! ### Values and references -/

/-- The type of a parameter: a type of values, or a reference to an lvalue, of the given type if there
is one. -/
inductive ParamType
  | value (ti : Ty)
  | reference (vti : Option Ty) (orNothing : Bool)

/-- An argument: a value, or a reference to an lvalue with its type. -/
inductive Argument
  | value (v : Value)
  | reference (lvalueTypeInfo : Option Ty)

section
variable (env : RunEnv)

/-- The rating of a reference by the types of values: only a specification of all values accepts
it. -/
def Ty.ratesReferenceWith (elem : Match) (ti : Ty) : Match :=
  if hasType (some ti) then
    ((ti.accepts.map fun a => match a.spec with
      | .type .all => exactMatch a.exact
      | .complexSoftList _ => if elem = .ident then .near else elem
      | _ => .notEqual).find? (· ≠ .notEqual)).getD .notEqual
  else .wildcard

@[inherit_doc Ty.ratesReferenceWith]
def Ty.ratesReference : Ty → Match
  | complexSoftList vti on => (complexSoftList vti on).ratesReferenceWith vti.ratesReference
  | ti => ti.ratesReferenceWith .notEqual

/-- The specifications of the second list match the first one's at their places. -/
def specsMatch (elem : Option Ty → Flags → Matched) : List TypeSpec → List TypeSpec → Bool
  | _, [] => true
  | a :: as, b :: bs =>
    let (res, fl) := a.match env.parse elem b .clear
    res ≠ .notEqual && !fl.mayNotMatch && specsMatch elem as bs
  | [], _ :: _ => false

/-- `QoreTypeInfo::outputSuperSetOf`. -/
def outputSuperSetOf (first : Option Ty) (second : Ty) : Bool :=
  match first with
  | none => true
  | some ti =>
    !hasType (some ti) || hasType (some second) && (ti = second ||
      specsMatch env (fun t => (ti.element?.getD .nothing).parseAccepts env.parse t)
        ti.returnSpecs second.returnSpecs)

/-- `QoreTypeInfo::runtimeAcceptsValue` of a parameter. -/
def ParamType.runtimeAcceptsValue : ParamType → Argument → Match
  | value ti, .value v => ti.runtimeAcceptsValue env v
  | value ti, .reference _ => ti.ratesReference
  | reference _ on, .value v =>
    if on ∧ (v.getType = .nothing ∨ v.getType = .null) then exactMatch false else .notEqual
  | reference none on, .reference _ => exactMatch (!on)
  | reference (some vti) _, .reference lti =>
    if typesEqual (some vti) lti then .ident
    else if outputSuperSetOf env lti vti then exactMatch true
    else .notEqual

/-- The rating of values and references. -/
def RunEnv.rating : Rating ParamType Argument where
  hasType
    | .value ti => hasType (some ti)
    | .reference .. => true
  runtimeAcceptsValue := ParamType.runtimeAcceptsValue env
  nothing := .value .nothing
  isNothing
    | .value v => v.getType = .nothing
    | .reference _ => false

end

/-- A variant without flags and default arguments. -/
def Variant.plain (types : List ParamType) : Variant ParamType where
  signature := { typeList := types.map some, defaultArgList := [] }
  flags := 0
  functionality := 0
  isUser := false
  statements := none

/-- `int` and an argument of this type. -/
def intParam : ParamType := .value (.simple .int false)
@[inherit_doc intParam] def intArgument : Argument := .value (.int 1)

/-- The variant for two integers is found, and the one for an integer is skipped. -/
theorem findsBest_oneOrTwo :
    FindsBest strictEnv.rating 0 [intArgument, intArgument] true
        [.plain [intParam, intParam], .plain [intParam]] ∧
      (Variant.plain [intParam]).skips strictEnv.rating (.of 8 2) = true :=
  ⟨findsBest_of_typed strictEnv.rating 0 [intArgument, intArgument] true (by decide) (by decide),
    by decide⟩

/-- `(int, any)` is found for three integers, and `(int, any, any)` would score more. -/
theorem runtimeFindVariant_skips_best :
    ¬FindsBest strictEnv.rating 0 [intArgument, intArgument, intArgument] true
      [.plain [intParam, .value .any], .plain [intParam, .value .any, .value .any]] := by
  intro h
  have hbest := h.best (.plain [intParam, .value .any]) rfl
  obtain ⟨-, score, hscore, hmax⟩ := hbest
  obtain rfl : 5 = score := Option.some.inj hscore
  have := hmax (.plain [intParam, .value .any, .value .any]) (by simp) 6 rfl
  omega

end Qore.Types
