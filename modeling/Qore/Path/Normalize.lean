import Qore.Lib.Components
import Qore.Lib.Find
import Qore.Text.Base64

/-!
# `Qore.Path.Normalize`: tokenizing and normalising paths

`qore_qd_private::normalizePath` cuts a path at the directory separators, steps back one directory
for each `..` and puts the rest together again. The separator is the slash; a position is `none`
where the source has `std::string::npos`.

* `lt_of_next`: the two searches of the tokenizer only go forwards, so its loop ends.
* `tokenize_eq`: the tokens are the components of the path, except that a path of separators has the
  separator for its only token.
* `foldl_pushDir`: a `..` at the root is kept as a directory, which the next one there takes away.
* `normalizePath_iff`: an absolute path is normalised exactly when it does not lead to the root and
  goes up there an even number of times.
-/

set_option autoImplicit false

namespace Qore.Path

open Qore.Lib Qore.Text

/-- `QORE_DIR_SEP`. -/
def dirSep : UInt8 := byteOf '/'

/-- `.`. -/
def dot : List UInt8 := [byteOf '.']

/-- `..`. -/
def dotDot : List UInt8 := [byteOf '.', byteOf '.']

/-! ### Tokens -/

/-- `is_dir_sep`: whether the text has nothing but separators. -/
def isDirSep (str : List UInt8) : Bool := str.all (· = dirSep)

/-- `get_first_non_dir_sep`. -/
def getFirstNonDirSep (str : List UInt8) (pos : Option Nat) : Option Nat :=
  pos.bind fun pos => ((str.drop pos).findIdx? (· ≠ dirSep)).map (· + pos)

/-- `get_first_dir_sep`. -/
def getFirstDirSep (str : List UInt8) (pos : Option Nat) : Option Nat :=
  pos.bind fun pos => find dirSep pos str

/-- `str.substr(lastPos, pos - lastPos)`; up to the end where `pos` is `npos`. -/
def substr (str : List UInt8) (lastPos : Nat) (pos : Option Nat) : List UInt8 :=
  match pos with
  | some pos => (str.drop lastPos).take (pos - lastPos)
  | none => str.drop lastPos

/-- A search for a letter that is no separator ends inside the text. -/
theorem getFirstNonDirSep_bounds {str : List UInt8} {pos next : Nat}
    (h : getFirstNonDirSep str (some pos) = some next) :
    pos ≤ next ∧ next < str.length ∧ str[next]? ≠ some dirSep := by
  obtain ⟨i, hi, rfl⟩ := Option.map_eq_some_iff.mp h
  obtain ⟨a, c, r, hsplit, rfl, hc, -⟩ := findIdx?_spec hi
  have hget : str[a.length + pos]? = some c := by
    rw [Nat.add_comm, ← List.getElem?_drop, hsplit, List.getElem?_append_right (Nat.le_refl _),
      Nat.sub_self]
    rfl
  refine ⟨Nat.le_add_left _ _, (List.getElem?_eq_some_iff.mp hget).1, fun heq => ?_⟩
  rw [hget] at heq
  exact of_decide_eq_true hc (Option.some.inj heq)

/-- The next token begins behind the start of this one. -/
theorem lt_of_next {str : List UInt8} {first next : Nat}
    (h : getFirstNonDirSep str (getFirstDirSep str (some first)) = some next) :
    first < next ∧ next < str.length := by
  cases hpos : getFirstDirSep str (some first) with
  | none =>
    rw [hpos] at h
    cases h
  | some pos =>
    rw [hpos] at h
    obtain ⟨hle, hlt, hsep⟩ := getFirstNonDirSep_bounds h
    obtain ⟨a, r, rfl, rfl, hfirst, -⟩ := find_spec hpos
    have hne : a.length ≠ next := by
      rintro rfl
      rw [List.getElem?_append_right (Nat.le_refl _), Nat.sub_self] at hsep
      exact hsep rfl
    omega

/-- The loop of `tokenize` from the token that begins at `lastPos` on. Where that is `npos`, `pos`
is `npos` too. -/
def tokenizeLoop (str : List UInt8) (lastPos : Option Nat) : List (List UInt8) :=
  match lastPos with
  | none => []
  | some first =>
    let pos := getFirstDirSep str (some first)
    substr str first pos :: tokenizeLoop str (getFirstNonDirSep str pos)
termination_by match lastPos with
  | none => 0
  | some pos => str.length - pos + 1
decreasing_by
  split
  · exact Nat.succ_pos _
  · rename_i next hnext
    have hlt := lt_of_next hnext
    omega

/-- `tokenize`. -/
def tokenize (str : List UInt8) : List (List UInt8) :=
  if isDirSep str then [[dirSep]] else tokenizeLoop str (getFirstNonDirSep str (some 0))

/-! ### Normal paths -/

/-- One step of the loop of `normalizePath` over the tokens. -/
def pushDir (dirs : List (List UInt8)) (d : List UInt8) : List (List UInt8) :=
  if d = dot ∨ d = [] then dirs
  else if d = dotDot ∧ dirs ≠ [] then dirs.dropLast
  else dirs ++ [d]

/-- `normalizePath`. -/
def normalizePath (odir : List UInt8) : List UInt8 :=
  joined dirSep ((tokenize odir).foldl pushDir [])

/-! ### Tokens and components -/

theorem getFirstDirSep_append (pre s : List UInt8) :
    getFirstDirSep (pre ++ s) (some pre.length) = (find dirSep 0 s).map (· + pre.length) :=
  find_append_length pre

theorem getFirstNonDirSep_append (pre s : List UInt8) :
    getFirstNonDirSep (pre ++ s) (some pre.length) =
      (s.findIdx? (· ≠ dirSep)).map (· + pre.length) := by
  unfold getFirstNonDirSep
  rw [Option.bind_some, List.drop_left]

theorem substr_append (pre tok rest : List UInt8) :
    substr (pre ++ tok ++ rest) pre.length (some (pre ++ tok).length) = tok := by
  unfold substr
  dsimp only
  rw [List.append_assoc, List.drop_left, List.length_append, Nat.add_sub_cancel_left,
    List.take_left]

/-- Behind separators and tokens, the loop gives the components of the rest. -/
theorem tokenizeLoop_eq (pre s : List UInt8) :
    tokenizeLoop (pre ++ s) (getFirstNonDirSep (pre ++ s) (some pre.length)) =
      components dirSep s := by
  induction hn : s.length using Nat.strongRecOn generalizing pre s with
  | _ n ih =>
    rw [getFirstNonDirSep_append]
    cases hfirst : s.findIdx? (· ≠ dirSep) with
    | none =>
      have hall : ∀ c ∈ s, c = dirSep := fun c hc => by
        simpa using List.findIdx?_eq_none_iff.mp hfirst c hc
      rw [components_of_all hall, Option.map_none, tokenizeLoop]
    | some i =>
      obtain ⟨seps, c, r, rfl, rfl, hc, hseps⟩ := findIdx?_spec hfirst
      have hall : ∀ d ∈ seps, d = dirSep := fun d hd => by simpa using hseps d hd
      have hsplit : pre ++ (seps ++ c :: r) = (pre ++ seps) ++ c :: r :=
        (List.append_assoc _ _ _).symm
      have hlen : seps.length + pre.length = (pre ++ seps).length := by
        rw [List.length_append, Nat.add_comm]
      rw [components_append_of_all hall, Option.map_some, tokenizeLoop, hsplit, hlen,
        getFirstDirSep_append]
      cases hpos : find dirSep 0 (c :: r) with
      | none =>
        have hfree : dirSep ∉ c :: r := by
          rw [find_eq_none_iff, List.drop_zero] at hpos
          exact hpos
        rw [components_of_free (List.cons_ne_nil c r) hfree, Option.map_none, substr,
          List.drop_left, getFirstNonDirSep, Option.bind_none, tokenizeLoop]
      | some j =>
        obtain ⟨tok, rest, htok, rfl, -, hfree⟩ := find_spec hpos
        rw [List.drop_zero] at hfree
        have hne : tok ≠ [] := by
          rintro rfl
          exact of_decide_eq_true hc (List.cons.inj htok).1
        have hshort : (dirSep :: rest).length < n := by
          have hpos := List.length_pos_iff.mpr hne
          rw [← hn, List.length_append, htok, List.length_append]
          omega
        have hrest := ih _ hshort (pre ++ seps ++ tok) (dirSep :: rest) rfl
        have hlen' : tok.length + (pre ++ seps).length = (pre ++ seps ++ tok).length := by
          rw [← Nat.add_comm, ← List.length_append]
        rw [htok, components_append_cons, components_of_free hne hfree, Option.map_some, hlen',
          ← List.append_assoc (pre ++ seps), hrest, components_cons_self, substr_append]
        rfl

theorem tokenize_eq {str : List UInt8} (h : isDirSep str = false) :
    tokenize str = components dirSep str := by
  unfold tokenize
  rw [h]
  exact tokenizeLoop_eq [] str

/-! ### What is normalised -/

/-- `r` is the normal form of the path `odir`: absolute, the root or a path of names, and the same
place; and it stays as it is. -/
structure Normalised (odir r : List UInt8) : Prop where
  absolute : r.head? = some dirSep
  normal : r = [dirSep] ∨ ∀ c ∈ r.tail.splitOn dirSep, c ≠ [] ∧ c ≠ dot ∧ c ≠ dotDot
  same : place dot dotDot (components dirSep r) = place dot dotDot (components dirSep odir)
  again : normalizePath r = r

/-- The directory for a `..` at the root. -/
def above (b : Bool) : List (List UInt8) := if b then [dotDot] else []

/-- The directories are the place, perhaps with a `..` in front. -/
theorem pushDir_above {t : List (List UInt8)} {c : List UInt8} (hc : c ≠ []) (b : Bool) :
    pushDir (above b ++ t) c =
      above (b ^^ decide (c = dotDot ∧ t = [])) ++ enter dot dotDot t c := by
  unfold pushDir enter
  by_cases hdot : c = dot
  · have hup : ¬c = dotDot := by
      rw [hdot]
      decide
    rw [if_pos (.inl hdot), if_pos hdot, decide_eq_false fun h => hup h.1, Bool.xor_false]
  rw [if_neg (not_or.mpr ⟨hdot, hc⟩), if_neg hdot]
  by_cases hup : c = dotDot
  · rw [if_pos hup]
    by_cases ht : t = []
    · -- at the root the code steps back over the `..` that it has kept
      rw [ht, hup]
      cases b <;> rfl
    · have hne : above b ++ t ≠ [] := List.append_ne_nil_of_right_ne_nil _ ht
      rw [if_pos ⟨hup, hne⟩, decide_eq_false fun h => ht h.2, Bool.xor_false,
        List.dropLast_append_of_ne_nil ht]
  · rw [if_neg fun h => hup h.1, if_neg hup, decide_eq_false fun h => hup h.1, Bool.xor_false,
      List.append_assoc]

theorem foldl_pushDir {cs : List (List UInt8)} (h : ∀ c ∈ cs, c ≠ []) (b : Bool)
    (t : List (List UInt8)) : cs.foldl pushDir (above b ++ t) =
      above (b ^^ decide (climbs dot dotDot t cs % 2 = 1)) ++ cs.foldl (enter dot dotDot) t := by
  induction cs generalizing b t with
  | nil => rw [climbs, decide_eq_false (by decide), Bool.xor_false]; rfl
  | cons c cs ih =>
    rw [List.foldl_cons, List.foldl_cons, pushDir_above (h c List.mem_cons_self),
      ih fun d hd => h d (List.mem_cons_of_mem c hd), Bool.xor_assoc]
    congr 3
    rw [climbs]
    by_cases hroot : c = dotDot ∧ t = []
    · rw [if_pos hroot, decide_eq_true hroot, Bool.true_xor, ← decide_not]
      exact decide_eq_decide.mpr (by omega)
    · rw [if_neg hroot, decide_eq_false hroot, Bool.false_xor, Nat.zero_add]

section
variable {odir : List UInt8}

theorem isDirSep_iff : isDirSep odir = true ↔ ∀ c ∈ odir, c = dirSep := by
  simp [isDirSep]

/-- The path that is written. -/
theorem normalizePath_eq (h : isDirSep odir = false) : normalizePath odir =
    joined dirSep (above (decide (climbs dot dotDot [] (components dirSep odir) % 2 = 1)) ++
      place dot dotDot (components dirSep odir)) := by
  unfold normalizePath
  have hpieces : Pieces dirSep (components dirSep odir) := components_pieces odir
  have hwalk := foldl_pushDir (fun c hc => (hpieces c hc).1) false []
  rw [Bool.false_xor] at hwalk
  rw [tokenize_eq h]
  exact congrArg _ hwalk

theorem isDirSep_joined {t : List (List UInt8)} (ht : t ≠ []) (hpieces : Pieces dirSep t) :
    isDirSep (joined dirSep t) = false := by
  obtain ⟨c, cs, rfl⟩ := List.exists_cons_of_ne_nil ht
  obtain ⟨hne, hfree⟩ := hpieces c List.mem_cons_self
  obtain ⟨b, c, rfl⟩ := List.exists_cons_of_ne_nil hne
  by_contra hsep
  have hall := isDirSep_iff.mp (Bool.eq_true_of_not_eq_false hsep)
  have hb := hall b (by simp)
  exact hfree (hb ▸ List.mem_cons_self)

/-- A path of names is its own normal form. -/
theorem normalised_joined {t : List (List UInt8)} (ht : t ≠ []) (hpieces : Pieces dirSep t)
    (hclean : Clean dot dotDot t) (hplace : place dot dotDot (components dirSep odir) = t) :
    Normalised odir (joined dirSep t) where
  absolute := by
    obtain ⟨c, cs, rfl⟩ := List.exists_cons_of_ne_nil ht
    rfl
  normal := by
    right
    rw [splitOn_tail_joined ht hpieces]
    exact fun c hc => ⟨(hpieces c hc).1, hclean c hc⟩
  same := by rw [components_joined hpieces, place_of_clean hclean, hplace]
  again := by
    rw [normalizePath_eq (isDirSep_joined ht hpieces), components_joined hpieces,
      climbs_of_clean hclean, place_of_clean hclean]
    rfl

/-- An absolute path is normalised exactly when it leads to another place than the root, and goes up
at the root an even number of times. -/
theorem normalizePath_iff (odir : List UInt8) : Normalised odir (normalizePath odir) ↔
    place dot dotDot (components dirSep odir) ≠ [] ∧
      climbs dot dotDot [] (components dirSep odir) % 2 = 0 := by
  cases hsep : isDirSep odir with
  | true =>
    -- the only token is a separator, and another one is put before it
    have hroot : components dirSep odir = [] := components_of_all (isDirSep_iff.mp hsep)
    have hpath : normalizePath odir = [dirSep, dirSep] := by
      unfold normalizePath tokenize
      rw [if_pos hsep]
      rfl
    rw [hroot, hpath]
    refine ⟨fun h => ?_, fun h => absurd rfl h.1⟩
    rcases h.normal with h | h
    · cases h
    · exact absurd rfl (h [] (by decide)).1
  | false =>
    have hpieces : Pieces dirSep (place dot dotDot (components dirSep odir)) :=
      fun c hc => components_pieces odir c (mem_of_mem_place hc)
    rw [normalizePath_eq hsep]
    by_cases hodd : climbs dot dotDot [] (components dirSep odir) % 2 = 1
    · rw [decide_eq_true hodd, above, if_pos rfl, List.singleton_append]
      refine ⟨fun h => ?_, fun h => by omega⟩
      have hup : Pieces dirSep (dotDot :: place dot dotDot (components dirSep odir)) :=
        List.forall_mem_cons.mpr ⟨by decide, hpieces⟩
      rcases h.normal with hnormal | hnormal
      · cases hnormal
      · rw [splitOn_tail_joined (List.cons_ne_nil _ _) hup] at hnormal
        exact absurd rfl (hnormal dotDot List.mem_cons_self).2.2
    · rw [decide_eq_false hodd]
      refine ⟨fun h => ⟨fun hnil => ?_, by omega⟩,
        fun h => normalised_joined h.1 hpieces (place_clean _) rfl⟩
      rw [hnil] at h
      cases h.absolute

end

/-- The root becomes two separators. -/
theorem not_normalised_root :
    [dirSep].head? = some dirSep ∧ ¬Normalised [dirSep] (normalizePath [dirSep]) := by
  have hpath : normalizePath [dirSep] = [dirSep, dirSep] := by decide
  refine ⟨rfl, fun h => ?_⟩
  rw [hpath] at h
  rcases h.normal with h | h
  · cases h
  · exact absurd rfl (h [] (by decide)).1

end Qore.Path
