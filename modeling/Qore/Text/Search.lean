import Qore.Lib.Matches
import Qore.Text.CutSpec

/-!
# `Qore.Text.Search`: searching a text, and appending a part of one

`index` and `rindex` find a text in another, `concat(str, pos, len)` appends a part of a string.
Each has one path for encodings with one byte for each character and one for the others, which
converts positions with `findByteOffset` and back with `getCharPos`, a count of the characters. The
first path is modelled for cells of any type, so that it runs on a sequence of characters.

* `indexMulti_eq_iff`: `index` agrees on both paths, but not for a position before the text:
  `findByteOffset` converts it to an unsigned number and finds the end of the text.
* `rindexMulti_eq_iff`: so it is for `rindex`, which moreover searches up to one byte behind the
  beginning of the character at the position, and misses a match that ends with this character when
  it has more than one byte.
* `concatAgrees_iff`: the single byte path of `concat` does not look at the length.
* `search_agrees_iff`: the three together.
-/

set_option autoImplicit false

namespace Qore.Text

open Qore.Lib Qore.Lib.Cells Qore.Lib.Words Qore.Lib.Matches

/-! ## Searching, in cells -/

section
variable {α : Type} [DecidableEq α]

/-- The loop of `q_memmem`, which goes from one cell equal to the first of `little` to the next. -/
def qMemmemLoop (first : α) (little : List α) : List α → Option Nat
  | [] => none
  | x :: p =>
    if x = first then
      if (x :: p).length < little.length then none
      else if little <+: x :: p then some 0
      else (qMemmemLoop first little p).map (· + 1)
    else (qMemmemLoop first little p).map (· + 1)

/-- `q_memmem`, which is `memmem` where the C library has it. -/
def qMemmem (haveMemmem : Bool) (big little : List α) : Option Nat :=
  if haveMemmem then firstMatch big little
  else if big.length = 0 ∨ big.length < little.length then none
  else
    match little with
    | [] => some 0
    | first :: _ => qMemmemLoop first little big

/-- `q_memrmem`: the loop goes from the last position where `little` can be to the first. -/
def qMemrmem (big little : List α) : Option Nat :=
  if big.length = 0 ∨ big.length < little.length then none
  else if little.length = 0 then some 0
  else lastIdx (fun i => little <+: big.drop i) (big.length - little.length)

/-- `index_simple`. -/
def indexSimple (haveMemmem : Bool) (haystack needle : List α) (pos : Nat) : Int :=
  match qMemmem haveMemmem (haystack.drop pos) needle with
  | none => -1
  | some i => i + pos

/-- `rindex_simple`. -/
def rindexSimple (haystack needle : List α) (pos : Int) : Int :=
  let hlen := haystack.length
  if pos < 0 ∧ hlen + pos < 0 then -1
  else
    let pos := if pos < 0 then hlen + pos else if hlen ≤ pos then hlen - 1 else pos
    match qMemrmem (haystack.take (pos + 1).toNat) needle with
    | none => -1
    | some i => i

/-- `index` with one byte for each character. -/
def indexSingle (haveMemmem : Bool) (text needle : List α) (pos : Int) : Int :=
  if pos < 0 then
    let pos := text.length + pos
    indexSimple haveMemmem text needle (if pos < 0 then 0 else pos.toNat)
  else if text.length ≤ pos then -1
  else indexSimple haveMemmem text needle pos.toNat

/-- `rindex` with one byte for each character. -/
def rindexSingle (text needle : List α) (pos : Int) : Int :=
  if pos < 0 then
    let pos := text.length + pos
    if pos < 0 then -1 else rindexSimple text needle pos
  else rindexSimple text needle pos

end

/-! ## Searching, in characters of more bytes -/

section
variable (next : List UInt8 → Int)

/-- `findByteOffset`, from the byte position `start` on; `none` when an exception is raised. -/
def findByteOffset (text : List UInt8) (pos : Int) (start : Nat) : Option Int :=
  if pos = 0 then some 0
  else
    let (clen, invalid) := countWords next (text.drop start)
    if pos < 0 ∧ invalid then none
    else
      let pos := if pos < 0 then clen + pos else pos
      let (pos, invalid) := lettersOf next (text.drop start) (toSize pos)
      if invalid then none else some pos

/-- `index` with more bytes for each character. -/
def indexMulti (haveMemmem : Bool) (text needle : List UInt8) (pos : Int) : Int :=
  match findByteOffset next text pos 0 with
  | none => -1
  | some pos =>
    if 0 ≤ pos ∧ text.length ≤ pos then -1
    else
      let pos := if pos < 0 then 0 else pos.toNat
      let ind := indexSimple haveMemmem (text.drop pos) needle 0
      if ind ≠ -1 then
        let (ind, invalid) := countWords next (text.take (pos + ind.toNat))
        if invalid then -1 else ind
      else ind

/-- `rindex` with more bytes for each character. -/
def rindexMulti (text needle : List UInt8) (pos : Int) : Int :=
  match findByteOffset next text pos 0 with
  | none => -1
  | some pos =>
    if pos < 0 then -1
    else
      let ind := rindexSimple text needle pos
      if ind ≠ 0 ∧ ind ≠ -1 then
        let (ind, invalid) := countWords next (text.take ind.toNat)
        if invalid then 0 else ind
      else ind

end

/-! ## Appending a part -/

section
variable {α : Type} (M : Memory α)

/-- `concat_intern(str.buf + pos, plen)`, and the end of the cells of `str` that it reads. -/
def Str.concatIntern (s str : Str α) (pos plen : Nat) : Option (Str α × Nat) :=
  (s.concatMem M (fetch M.junk str.buf pos plen)).map (·, pos + plen)

/-- `concat_simple(str, pos)`. -/
def Str.concatSimple (s str : Str α) (pos : Int) : Option (Str α × Nat) :=
  if pos < 0 then
    let pos := str.len + pos
    let pos := if pos < 0 then 0 else pos.toNat
    s.concatIntern M str pos (str.len - pos)
  else if str.len ≤ pos then some (s, 0)
  else s.concatIntern M str pos.toNat (str.len - pos.toNat)

/-- `concat(str, pos)` with one byte for each character. -/
def Str.concatPos (s str : Str α) (pos : Int) : Option (Str α × Nat) :=
  if str.len = 0 then some (s, 0) else s.concatSimple M str pos

/-- `concat(str, pos, len)` with one byte for each character; the length is not passed on. -/
def Str.concatPosLen (s str : Str α) (pos len : Int) : Option (Str α × Nat) :=
  if str.len = 0 ∨ len = 0 then some (s, 0) else s.concatSimple M str pos

end

section
variable (M : Memory UInt8) (next : List UInt8 → Int)

/-- The byte position where `concat` starts; `none` when there is an exception. -/
def concatStart (str : Str UInt8) (pos : Int) : Option Nat :=
  (findByteOffset next str.text pos 0).map fun pos => if pos < 0 then 0 else pos.toNat

/-- `concat(str, pos)` with more bytes for each character. -/
def Str.concatPosMulti (s str : Str UInt8) (pos : Int) : Option (Str UInt8 × Nat) :=
  if str.len = 0 then some (s, 0)
  else
    match concatStart next str pos with
    | none => some (s, 0)
    | some pos => if str.len < pos then some (s, 0) else s.concatIntern M str pos (str.len - pos)

/-- `concat(str, pos, len)` with more bytes for each character. -/
def Str.concatPosLenMulti (s str : Str UInt8) (pos len : Int) : Option (Str UInt8 × Nat) :=
  if str.len = 0 ∨ len = 0 then some (s, 0)
  else
    match concatStart next str pos with
    | none => some (s, 0)
    | some pos =>
      if str.len < pos then some (s, 0)
      else
        match findByteOffset next str.text len pos with
        | none => some (s, 0)
        | some plen =>
          if plen ≤ 0 then some (s, 0)
          else s.concatIntern M str pos (if (str.len : Int) < plen then str.len else plen.toNat)

end

/-! ## What the searches find -/

section
variable {α : Type} [DecidableEq α]

theorem qMemmemLoop_eq (first : α) (little big : List α) :
    qMemmemLoop first (first :: little) big = firstMatch big (first :: little) := by
  induction big with
  | nil => simp [qMemmemLoop, firstMatch]
  | cons x p ih =>
    rw [qMemmemLoop, firstMatch_cons, ih]
    by_cases hx : x = first
    · rw [if_pos hx]
      by_cases hlen : (x :: p).length < (first :: little).length
      · -- not enough is left for a match
        have hnone : firstMatch (x :: p) (first :: little) = none := by
          rw [firstMatch_eq_none_iff]
          intro i hpre
          have := hpre.length_le
          rw [List.length_drop] at this
          omega
        rw [if_pos hlen, ← firstMatch_cons, hnone]
      · rw [if_neg hlen]
    · have hnot : ¬ first :: little <+: x :: p := fun h =>
        hx (List.cons_prefix_cons.mp h).1.symm
      rw [if_neg hx, if_neg hnot]

/-- Both ways to compile `q_memmem` find the first match; they differ for two empty texts. -/
theorem qMemmem_eq (haveMemmem : Bool) (big little : List α) :
    qMemmem haveMemmem big little =
      if haveMemmem = false ∧ big = [] then none else firstMatch big little := by
  unfold qMemmem
  cases haveMemmem with
  | true => simp
  | false =>
    by_cases hbig : big = []
    · simp [hbig]
    · have hlen : big.length ≠ 0 := by simpa using hbig
      simp only [Bool.false_eq_true, if_false, hlen, false_or, hbig, and_false]
      split
      · rename_i hshort
        refine ((firstMatch_eq_none_iff big little).mpr fun i hpre => ?_).symm
        have := hpre.length_le
        rw [List.length_drop] at this
        omega
      · cases little with
        | nil =>
          cases big with
          | nil => exact absurd rfl hbig
          | cons x big => rw [firstMatch_cons, if_pos List.nil_prefix]
        | cons first little => exact qMemmemLoop_eq first little big

/-- `q_memrmem` finds the last match inside the first `n` cells. -/
theorem qMemrmem_isLast {big little : List α} (hne : little ≠ []) {n : Nat} (hn : n ≤ big.length) :
    IsLast (fun i => little <+: big.drop i ∧ i + little.length ≤ n)
      (qMemrmem (big.take n) little) := by
  have hpos : 0 < little.length := List.length_pos_of_ne_nil hne
  have htake : (big.take n).length = n := List.length_take_of_le hn
  unfold qMemrmem
  rw [htake]
  by_cases hshort : n = 0 ∨ n < little.length
  · rw [if_pos hshort]
    rintro i ⟨-, hi⟩
    omega
  · rw [if_neg hshort, if_neg (by omega)]
    -- a match that ends inside the first cells is a match of the whole text
    have hcong : ∀ i, (i ≤ n - little.length ∧ little <+: (big.take n).drop i) ↔
        (little <+: big.drop i ∧ i + little.length ≤ n) := by
      intro i
      rw [List.drop_take]
      constructor
      · rintro ⟨hi, hpre⟩
        exact ⟨hpre.trans (List.take_prefix _ _), by omega⟩
      · rintro ⟨hpre, hi⟩
        exact ⟨by omega, List.prefix_take_iff.mpr ⟨hpre, by omega⟩⟩
    have hlast := lastIdx_isLast (fun i => little <+: (big.take n).drop i) (n - little.length)
    simpa only [hcong] using hlast

end

/-! ## Both paths of the searches -/

/-- The position in characters that `findByteOffset` finds: for a position before the text it is
the end. -/
def charPos (len : Nat) (pos : Int) : Nat :=
  if pos < 0 then (if len + pos < 0 then len else (len + pos).toNat) else pos.toNat

/-- The result of a search as a position, or -1. -/
def asPos : Option Nat → Int
  | none => -1
  | some i => i

theorem asPos_injective : Function.Injective asPos := by
  intro a b h
  cases a with
  | none =>
    cases b with
    | none => rfl
    | some j =>
      simp only [asPos] at h
      omega
  | some i =>
    cases b with
    | none =>
      simp only [asPos] at h
      omega
    | some j =>
      simp only [asPos] at h
      exact congrArg some (by omega)

section
variable {γ : Type} {enc : γ → List UInt8} {next : List UInt8 → Int}

theorem findByteOffset_spell (hscan : ∀ c, Scans next (enc c)) {text : List UInt8} {start : Nat}
    {ds : List γ} (htext : text.drop start = spell enc ds) (pos : Int64) :
    findByteOffset next text pos.toInt start =
      some ((spell enc (ds.take (charPos ds.length pos.toInt))).length : Int) := by
  unfold findByteOffset charPos
  by_cases hzero : pos.toInt = 0
  · rw [if_pos hzero, hzero]
    simp
  · rw [if_neg hzero, htext]
    simp only [countWords_spell hscan, lettersOf_spell hscan, Bool.false_eq_true, and_false, if_false,
      Option.some.injEq]
    by_cases hneg : pos.toInt < 0
    · rw [if_pos hneg, if_pos hneg]
      by_cases hout : ds.length + pos.toInt < 0
      · -- the negative number becomes one that is larger than every length
        have hmin := pos.le_toInt
        have hbig : ds.length ≤ toSize (ds.length + pos.toInt) := by
          rw [toSize, if_neg (by omega)]
          omega
        rw [if_pos hout, List.take_length, List.take_of_length_le hbig]
      · rw [if_neg hout, toSize_of_nonneg (by omega)]
    · rw [if_neg hneg, if_neg hneg, toSize_of_nonneg (by omega)]

variable [DecidableEq γ] {first : UInt8 → Prop} {hs ns : List γ}

/-- The first match from a position on. -/
theorem firstMatch_spell_drop (hsync : Sync next enc first) (k : Nat) :
    firstMatch (spell enc (hs.drop k)) (spell enc ns) =
      (firstMatch (hs.drop k) ns).map fun i => (spell enc ((hs.drop k).take i)).length := by
  by_cases hns : ns = []
  · -- the empty text is found at once
    subst hns
    have hfirst : ∀ {β : Type} [DecidableEq β] (t : List β), firstMatch t [] = some 0 := by
      intro β _ t
      cases t with
      | nil => rfl
      | cons x t => rw [firstMatch_cons, if_pos List.nil_prefix]
    rw [spell_nil, hfirst, hfirst]
    rfl
  · exact firstMatch_spell hsync hns _

/-- `index` from a character position on. -/
theorem indexMulti_spell (hsync : Sync next enc first) (haveMemmem : Bool) (pos : Int64) :
    indexMulti next haveMemmem (spell enc hs) (spell enc ns) pos.toInt =
      if hs.length ≤ charPos hs.length pos.toInt then -1
      else indexSimple haveMemmem hs ns (charPos hs.length pos.toInt) := by
  have hbyte : findByteOffset next (spell enc hs) pos.toInt 0 = _ :=
    findByteOffset_spell hsync.scans List.drop_zero pos
  unfold indexMulti
  rw [hbyte]
  generalize charPos hs.length pos.toInt = k
  dsimp only
  by_cases hk : hs.length ≤ k
  · rw [List.take_of_length_le hk, if_pos ⟨by omega, by omega⟩, if_pos hk]
  · have hne := mt (length_spell_take_eq_iff hsync.scans hs k).mp hk
    have hle : (spell enc (hs.take k)).length ≤ (spell enc hs).length := by
      have hmono : (spell enc (hs.take k)).length ≤ (spell enc (hs.take hs.length)).length :=
        length_spell_take_mono hs (by omega)
      rwa [List.take_length] at hmono
    have hnn : ¬ ((spell enc (hs.take k)).length : Int) < 0 := by omega
    rw [if_neg (by omega), if_neg hk]
    simp only [if_neg hnn, Int.toNat_natCast, drop_spell]
    -- there is a rest to search in, on both sides
    have hrest : hs.drop k ≠ [] := by
      rw [Ne, List.drop_eq_nil_iff]
      omega
    have hrest' : spell enc (hs.drop k) ≠ [] := mt (spell_eq_nil_iff hsync.scans _).mp hrest
    have hsingle : qMemmem haveMemmem (hs.drop k) ns = firstMatch (hs.drop k) ns := by
      rw [qMemmem_eq, if_neg fun h => hrest h.2]
    have hmulti : qMemmem haveMemmem (spell enc (hs.drop k)) (spell enc ns) =
        (firstMatch (hs.drop k) ns).map fun i => (spell enc ((hs.drop k).take i)).length := by
      rw [qMemmem_eq, if_neg fun h => hrest' h.2, firstMatch_spell_drop hsync]
    unfold indexSimple
    simp only [List.drop_zero, hsingle, hmulti]
    cases hfirst : firstMatch (hs.drop k) ns with
    | none => rfl
    | some i =>
      have hi := firstMatch_le hfirst
      rw [List.length_drop] at hi
      have hsum : (spell enc (hs.take k)).length +
          (((spell enc ((hs.drop k).take i)).length : Int) + (0 : Nat)).toNat =
            (spell enc (hs.take (k + i))).length := by
        rw [length_spell_take_add]
        omega
      have hfound : ¬ ((spell enc ((hs.drop k).take i)).length : Int) + (0 : Nat) = -1 := by omega
      simp only [Option.map_some, ne_eq, hfound, not_false_eq_true, if_true, hsum, take_spell,
        countWords_spell hsync.scans, Bool.false_eq_true, if_false, List.length_take]
      omega

/-- `index` is the same on both paths, unless the position is before the text and there is something
to find. -/
theorem indexMulti_eq_iff (hsync : Sync next enc first) (haveMemmem : Bool) (pos : Int64) :
    indexSingle haveMemmem hs ns pos.toInt =
        indexMulti next haveMemmem (spell enc hs) (spell enc ns) pos.toInt ↔
      -(hs.length : Int) ≤ pos.toInt ∨ qMemmem haveMemmem hs ns = none := by
  rw [indexMulti_spell hsync]
  unfold indexSingle charPos
  by_cases hneg : pos.toInt < 0
  · rw [if_pos hneg, if_pos hneg]
    by_cases hout : (hs.length : Int) + pos.toInt < 0
    · simp only [if_pos hout, Nat.le_refl, if_true]
      have hnot : ¬ -(hs.length : Int) ≤ pos.toInt := by omega
      unfold indexSimple
      rw [List.drop_zero]
      cases qMemmem haveMemmem hs ns with
      | none => simp
      | some i =>
        simp only [hnot, reduceCtorEq, or_self, iff_false]
        omega
    · simp only [if_neg hout]
      rw [if_neg (by omega)]
      simp only [true_iff]
      exact .inl (by omega)
  · rw [if_neg hneg, if_neg hneg]
    have hin : -(hs.length : Int) ≤ pos.toInt := by omega
    by_cases hout : (hs.length : Int) ≤ pos.toInt
    · rw [if_pos hout, if_pos (by omega)]
      simp [hin]
    · rw [if_neg hout, if_neg (by omega)]
      simp [hin]

end

/-! ## Searching backwards -/

section
variable {γ : Type} {enc : γ → List UInt8} {next : List UInt8 → Int} {first : UInt8 → Prop}
  {hs ns : List γ} {p : Nat}

/-- The end of a match, in bytes. -/
theorem length_spell_match {k : Nat} (hpre : ns <+: hs.drop k) :
    (spell enc (hs.take k)).length + (spell enc ns).length =
      (spell enc (hs.take (k + ns.length))).length := by
  rw [length_spell_take_add, ← List.prefix_iff_eq_take.mp hpre]

/-- The last match in the first `n` bytes, as the last match of the characters with an end in these
bytes. -/
theorem qMemrmem_spell (hsync : Sync next enc first) (hns : ns ≠ []) {n : Nat}
    (hn : n ≤ (spell enc hs).length) :
    ∃ r, IsLast (fun i => ns <+: hs.drop i ∧ i + ns.length ≤ hs.length ∧
        (spell enc (hs.take (i + ns.length))).length ≤ n) r ∧
      qMemrmem ((spell enc hs).take n) (spell enc ns) =
        r.map fun i => (spell enc (hs.take i)).length := by
  have hne : spell enc ns ≠ [] := mt (spell_eq_nil_iff hsync.scans ns).mp hns
  have hlast := qMemrmem_isLast hne hn
  -- a match of the characters is a match of the bytes
  have hof : ∀ i, ns <+: hs.drop i → (spell enc (hs.take (i + ns.length))).length ≤ n →
      spell enc ns <+: (spell enc hs).drop (spell enc (hs.take i)).length ∧
        (spell enc (hs.take i)).length + (spell enc ns).length ≤ n := by
    intro i hpre hend
    rw [drop_spell, length_spell_match hpre]
    exact ⟨(spell_isPrefix_iff hsync _ _).mpr hpre, hend⟩
  cases hres : qMemrmem ((spell enc hs).take n) (spell enc ns) with
  | none =>
    rw [hres] at hlast
    refine ⟨none, fun i hi => ?_, rfl⟩
    exact hlast _ (hof i hi.1 hi.2.2)
  | some b =>
    rw [hres] at hlast
    obtain ⟨⟨hmatch, hend⟩, hafter⟩ := hlast
    obtain ⟨i, rfl, hpre, hle⟩ := exists_of_match hsync hns hs b hmatch
    rw [length_spell_match hpre] at hend
    refine ⟨some i, ⟨⟨hpre, hle, hend⟩, fun j hj hpj => ?_⟩, rfl⟩
    refine hafter _ ?_ (hof j hpj.1 hpj.2.2)
    -- a later character begins at a later byte
    have hmono : (spell enc (hs.take (i + 1))).length ≤ (spell enc (hs.take j)).length :=
      length_spell_take_mono hs hj
    have hstep := length_le_spell hsync.scans ((hs.drop i).take 1)
    rw [length_spell_take_add] at hmono
    rw [List.length_take, List.length_drop] at hstep
    omega

/-- The number of cells that `rindex_simple` searches. -/
def searchLen (len pos : Nat) : Nat := if len ≤ pos then len else pos + 1

theorem rindexSimple_eq {α : Type} [DecidableEq α] (text needle : List α) (pos : Nat) :
    rindexSimple text needle pos =
      asPos (qMemrmem (text.take (searchLen text.length pos)) needle) := by
  have hlen : ((if (pos : Int) < 0 then text.length + (pos : Int)
      else if (text.length : Int) ≤ pos then text.length - 1 else (pos : Int)) + 1).toNat =
        searchLen text.length pos := by
    unfold searchLen
    rw [if_neg (by omega)]
    split
    · rw [if_pos (by omega)]
      omega
    · rw [if_neg (by omega)]
      omega
  unfold rindexSimple
  dsimp only
  rw [if_neg (by omega), hlen]
  cases qMemrmem (text.take (searchLen text.length pos)) needle <;> rfl

theorem searchLen_le (len pos : Nat) : searchLen len pos ≤ len := by
  unfold searchLen
  split <;> omega

/-- The number of bytes that `rindex` searches. -/
def searchBytes (enc : γ → List UInt8) (hs : List γ) (k : Nat) : Nat :=
  searchLen (spell enc hs).length (spell enc (hs.take k)).length

/-- `rindex` finds the last match of the characters that ends in the bytes searched. -/
theorem rindexMulti_spell (hsync : Sync next enc first) (hns : ns ≠ []) (pos : Int64) :
    ∃ r, IsLast (fun i => ns <+: hs.drop i ∧ i + ns.length ≤ hs.length ∧
        (spell enc (hs.take (i + ns.length))).length ≤
          searchBytes enc hs (charPos hs.length pos.toInt)) r ∧
      rindexMulti next (spell enc hs) (spell enc ns) pos.toInt = asPos r := by
  have hbyte : findByteOffset next (spell enc hs) pos.toInt 0 = _ :=
    findByteOffset_spell hsync.scans List.drop_zero pos
  obtain ⟨r, hlast, hres⟩ := qMemrmem_spell hsync hns
    (searchLen_le (spell enc hs).length (spell enc (hs.take (charPos hs.length pos.toInt))).length)
  refine ⟨r, hlast, ?_⟩
  unfold rindexMulti
  rw [hbyte]
  dsimp only
  rw [if_neg (by omega), rindexSimple_eq, hres]
  cases r with
  | none => rfl
  | some i =>
    obtain ⟨-, hle, -⟩ := hlast.1
    have hfound : asPos (Option.map (fun i => (spell enc (hs.take i)).length) (some i)) =
        ((spell enc (hs.take i)).length : Int) := rfl
    rw [hfound]
    show _ = (i : Int)
    by_cases hzero : (spell enc (hs.take i)).length = 0
    · -- the first character
      have htake := (spell_eq_nil_iff hsync.scans _).mp (List.length_eq_zero_iff.mp hzero)
      have hi : i = 0 := by
        have := congrArg List.length htake
        rw [List.length_take, List.length_nil] at this
        omega
      rw [if_neg (by omega), hzero, hi]
    · rw [if_pos (by omega), Int.toNat_natCast, take_spell, countWords_spell hsync.scans]
      simp only [Bool.false_eq_true, if_false, List.length_take]
      omega

/-- For the empty text both paths look only whether there is something to search in. -/
theorem rindexMulti_nil (hscan : ∀ c, Scans next (enc c)) (pos : Int64) :
    rindexMulti next (spell enc hs) [] pos.toInt = if hs = [] then -1 else 0 := by
  have hbyte : findByteOffset next (spell enc hs) pos.toInt 0 = _ :=
    findByteOffset_spell hscan List.drop_zero pos
  unfold rindexMulti
  rw [hbyte]
  dsimp only
  rw [if_neg (by omega), rindexSimple_eq]
  by_cases hnil : hs = []
  · subst hnil
    simp [qMemrmem, asPos]
  · have hne : spell enc hs ≠ [] := mt (spell_eq_nil_iff hscan hs).mp hnil
    have hpos := List.length_pos_of_ne_nil hne
    have hlen : ((spell enc hs).take (searchLen (spell enc hs).length
        (spell enc (hs.take (charPos hs.length pos.toInt))).length)).length ≠ 0 := by
      rw [List.length_take]
      unfold searchLen
      split <;> omega
    have hres : qMemrmem ((spell enc hs).take (searchLen (spell enc hs).length
        (spell enc (hs.take (charPos hs.length pos.toInt))).length)) [] = some 0 := by
      rw [qMemrmem, if_neg (by rw [List.length_nil]; omega), if_pos List.length_nil]
    rw [hres, if_neg hnil]
    rfl

theorem take_searchLen_eq_nil_iff (t : List γ) (k : Nat) :
    t.take (searchLen t.length k) = [] ↔ t = [] := by
  rw [List.take_eq_nil_iff, searchLen]
  constructor
  · rintro (h | h)
    · split at h
      · exact List.length_eq_zero_iff.mp h
      · omega
    · exact h
  · exact .inr

/-- The character at which a match ends. -/
theorem getLast?_of_match (hns : ns ≠ []) {i : Nat} (hpre : ns <+: hs.drop i)
    (hend : i + ns.length = p + 1) :
    ∃ c, ns.getLast? = some c ∧ (hs.drop p).take 1 = [c] := by
  have hpos : 0 < ns.length := List.length_pos_of_ne_nil hns
  have hlast : ns.getLast? = hs[p]? := by
    rw [List.getLast?_eq_getElem?, List.prefix_iff_eq_take.mp hpre, List.length_take,
      List.getElem?_take_of_lt (by have := hpre.length_le; omega), List.getElem?_drop]
    have hle := hpre.length_le
    congr 1
    omega
  cases hp : hs[p]? with
  | none =>
    rw [hp, List.getLast?_eq_none_iff] at hlast
    exact absurd hlast hns
  | some c =>
    refine ⟨c, hlast.trans hp, ?_⟩
    obtain ⟨hlt, hget⟩ := List.getElem?_eq_some_iff.mp hp
    rw [List.drop_eq_getElem_cons hlt, hget]
    rfl

/-- A match that ends behind position `p` is an end of the text up to `p`. -/
theorem isSuffix_take_iff (hp : p < hs.length) :
    ns <:+ hs.take (p + 1) ↔ ∃ i, i + ns.length = p + 1 ∧ ns <+: hs.drop i := by
  constructor
  · rintro ⟨a, ha⟩
    have hlen := congrArg List.length ha
    rw [List.length_append, List.length_take] at hlen
    refine ⟨a.length, by omega, ?_⟩
    have hsplit : hs = a ++ (ns ++ hs.drop (p + 1)) := by
      rw [← List.append_assoc, ha, List.take_append_drop]
    rw [hsplit, List.drop_left]
    exact List.prefix_append _ _
  · rintro ⟨i, hi, hpre⟩
    rw [← hi, List.take_add, ← List.prefix_iff_eq_take.mp hpre]
    exact List.suffix_append _ _

/-- The bytes up to one behind the beginning of a character hold the characters before it, and the
character itself when it has one byte. -/
theorem length_spell_take_le_iff (hscan : ∀ c, Scans next (enc c)) {j : Nat} (hj : j ≤ hs.length) :
    (spell enc (hs.take j)).length ≤ (spell enc (hs.take p)).length + 1 ↔
      j ≤ p ∨ (j = p + 1 ∧ (spell enc ((hs.drop p).take 1)).length = 1) := by
  rcases Nat.lt_trichotomy j (p + 1) with hlt | rfl | hgt
  · have hmono : (spell enc (hs.take j)).length ≤ (spell enc (hs.take p)).length :=
      length_spell_take_mono hs (by omega)
    constructor
    · exact fun _ => .inl (by omega)
    · exact fun _ => by omega
  · have hstep := length_le_spell hscan ((hs.drop p).take 1)
    rw [List.length_take, List.length_drop] at hstep
    rw [length_spell_take_add]
    omega
  · -- two more characters have two more bytes
    have hmono : (spell enc (hs.take (p + 2))).length ≤ (spell enc (hs.take j)).length :=
      length_spell_take_mono hs (by omega)
    have hstep := length_le_spell hscan ((hs.drop p).take 2)
    rw [List.length_take, List.length_drop] at hstep
    rw [length_spell_take_add] at hmono
    omega

end

section
variable {γ : Type} [DecidableEq γ] {enc : γ → List UInt8} {next : List UInt8 → Int}
  {first : UInt8 → Prop} {hs ns : List γ}

theorem qMemrmem_nil (t : List γ) : qMemrmem t [] = if t = [] then none else some 0 := by
  unfold qMemrmem
  by_cases ht : t = []
  · simp [ht]
  · simp [ht]

/-- A match ends with a character of more than one byte at the position of the search. -/
def WideMatch (enc : γ → List UInt8) (hs ns : List γ) (p : Nat) : Prop :=
  (∃ c ∈ ns.getLast?, (enc c).length ≠ 1) ∧ ns <:+ hs.take (p + 1)

/-- `rindex` is the same on both paths, unless the position is before the text and there is
something to find, or a wide character is the end of a match there. -/
theorem rindexMulti_eq_iff (hsync : Sync next enc first) (pos : Int64) :
    rindexSingle hs ns pos.toInt = rindexMulti next (spell enc hs) (spell enc ns) pos.toInt ↔
      if hs.length + pos.toInt < 0 then qMemrmem hs ns = none
      else hs.length ≤ charPos hs.length pos.toInt ∨
        ¬ WideMatch enc hs ns (charPos hs.length pos.toInt) := by
  have hsingle : ¬ hs.length + pos.toInt < 0 → rindexSingle hs ns pos.toInt =
      asPos (qMemrmem (hs.take (searchLen hs.length (charPos hs.length pos.toInt))) ns) := by
    intro hin
    rw [← rindexSimple_eq]
    unfold rindexSingle charPos
    by_cases hneg : pos.toInt < 0
    · rw [if_pos hneg, if_pos hneg]
      rw [if_neg hin, if_neg hin, Int.toNat_of_nonneg (by omega)]
    · rw [if_neg hneg, if_neg hneg, Int.toNat_of_nonneg (by omega)]
  have hbefore : hs.length + pos.toInt < 0 → rindexSingle hs ns pos.toInt = -1 ∧
      charPos hs.length pos.toInt = hs.length := by
    intro hout
    have hneg : pos.toInt < 0 := by omega
    constructor
    · rw [rindexSingle, if_pos hneg]
      exact if_pos hout
    · rw [charPos, if_pos hneg, if_pos hout]
  by_cases hns : ns = []
  · -- the empty text is found wherever there is something to search in
    subst hns
    have hwide : ¬ WideMatch enc hs [] (charPos hs.length pos.toInt) := by
      rintro ⟨⟨c, hc, -⟩, -⟩
      cases hc
    rw [spell_nil, rindexMulti_nil hsync.scans]
    by_cases hout : hs.length + pos.toInt < 0
    · rw [if_pos hout, (hbefore hout).1, qMemrmem_nil]
      by_cases hnil : hs = []
      · simp [hnil]
      · simp [hnil]
    · rw [if_neg hout, hsingle hout, qMemrmem_nil]
      simp only [hwide, not_false_eq_true, or_true, iff_true]
      have htake := take_searchLen_eq_nil_iff hs (charPos hs.length pos.toInt)
      by_cases hnil : hs = []
      · rw [if_pos (htake.mpr hnil), if_pos hnil]
        rfl
      · rw [if_neg (mt htake.mp hnil), if_neg hnil]
        rfl
  obtain ⟨r, hr, hmulti⟩ := @rindexMulti_spell γ enc next first hs ns hsync hns pos
  rw [hmulti]
  -- where the whole text is searched, the bytes are no further condition
  have hwhole : hs.length ≤ charPos hs.length pos.toInt → r = qMemrmem hs ns := by
    intro hk
    have hbytes : searchBytes enc hs (charPos hs.length pos.toInt) = (spell enc hs).length := by
      rw [searchBytes, List.take_of_length_le hk, searchLen, if_pos (Nat.le_refl _)]
    have hchars := qMemrmem_isLast hns (Nat.le_refl hs.length)
    rw [List.take_length] at hchars
    refine IsLast.unique hr ?_
    have hcong : ∀ i, (ns <+: hs.drop i ∧ i + ns.length ≤ hs.length) ↔
        (ns <+: hs.drop i ∧ i + ns.length ≤ hs.length ∧ (spell enc (hs.take (i + ns.length))).length ≤
          searchBytes enc hs (charPos hs.length pos.toInt)) := by
      intro i
      have hmono : i + ns.length ≤ hs.length →
          (spell enc (hs.take (i + ns.length))).length ≤ (spell enc (hs.take hs.length)).length :=
        fun hle => length_spell_take_mono hs hle
      rw [List.take_length, ← hbytes] at hmono
      constructor
      · exact fun h => ⟨h.1, h.2, hmono h.2⟩
      · exact fun h => ⟨h.1, h.2.1⟩
    simpa only [hcong] using hchars
  by_cases hout : hs.length + pos.toInt < 0
  · obtain ⟨hminus, hk⟩ := hbefore hout
    rw [if_pos hout, hminus, hwhole (by omega)]
    exact ⟨fun h => (asPos_injective (show asPos none = _ from h)).symm, fun h => by rw [h]; rfl⟩
  rw [if_neg hout, hsingle hout, asPos_injective.eq_iff]
  generalize charPos hs.length pos.toInt = k at hr hwhole ⊢
  by_cases hk : hs.length ≤ k
  · have hall : hs.take (searchLen hs.length k) = hs := by
      rw [searchLen, if_pos hk, List.take_length]
    simp [hall, hwhole hk, hk]
  · -- the search ends inside the text
    have hlt : k < hs.length := by omega
    have hchars := qMemrmem_isLast hns (searchLen_le hs.length k)
    have hsearch : searchLen hs.length k = k + 1 := if_neg hk
    have hbytes : searchBytes enc hs k = (spell enc (hs.take k)).length + 1 := by
      have hmono : (spell enc (hs.take k)).length ≤ (spell enc (hs.take hs.length)).length :=
        length_spell_take_mono hs (by omega)
      rw [List.take_length] at hmono
      have hne := mt (length_spell_take_eq_iff hsync.scans hs k).mp hk
      rw [searchBytes, searchLen, if_neg (by omega)]
    rw [hsearch] at hchars ⊢
    rw [hbytes] at hr
    constructor
    · -- a wide match is found among the characters, and not among the bytes
      intro heq
      right
      rintro ⟨⟨c, hc, hwide⟩, hsuffix⟩
      obtain ⟨i, hi, hpre⟩ := (isSuffix_take_iff hlt).mp hsuffix
      have hfound : IsLast (fun i => ns <+: hs.drop i ∧ i + ns.length ≤ k + 1) (some i) :=
        ⟨⟨hpre, by omega⟩, fun j hj hpj => by omega⟩
      have hr' : r = some i := heq.symm.trans (hchars.unique hfound)
      rw [hr'] at hr
      obtain ⟨c', hc', htake⟩ := getLast?_of_match hns hpre hi
      have hle := (length_spell_take_le_iff hsync.scans (by omega)).mp hr.1.2.2
      have hone : (spell enc [c']).length = 1 := by
        rcases hle with hle | ⟨-, hone⟩
        · omega
        · rwa [htake] at hone
      have hcc : c = c' := Option.some.inj ((Option.mem_def.mp hc).symm.trans hc')
      rw [← hcc] at hone
      exact hwide (by simpa using hone)
    · rintro (habs | hnarrow)
      · exact absurd habs hk
      · refine hchars.unique ?_
        have hcong : ∀ i, (ns <+: hs.drop i ∧ i + ns.length ≤ hs.length ∧
            (spell enc (hs.take (i + ns.length))).length ≤ (spell enc (hs.take k)).length + 1) ↔
            (ns <+: hs.drop i ∧ i + ns.length ≤ k + 1) := by
          intro i
          constructor
          · rintro ⟨hpre, hle, hend⟩
            rcases (length_spell_take_le_iff hsync.scans hle).mp hend with h | ⟨h, -⟩
            · exact ⟨hpre, by omega⟩
            · exact ⟨hpre, by omega⟩
          · rintro ⟨hpre, hle⟩
            refine ⟨hpre, by omega, (length_spell_take_le_iff hsync.scans (by omega)).mpr ?_⟩
            by_cases hend : i + ns.length = k + 1
            · refine .inr ⟨hend, ?_⟩
              obtain ⟨c, hc, htake⟩ := getLast?_of_match hns hpre hend
              rw [htake]
              by_contra hwide
              exact hnarrow ⟨⟨c, hc, by simpa using hwide⟩,
                (isSuffix_take_iff hlt).mpr ⟨i, hend, hpre⟩⟩
            · exact .inl (by omega)
        simpa only [hcong] using hr

end

/-! ## Appending a part, on both paths -/

variable {α : Type}

/-- `concat_intern` appends cells of the other string, and reads no others. -/
theorem concatIntern_holds {M : Memory α} {s str : Str α} {ts xs : List α} (h : Holds M s ts)
    (hstr : Holds M str xs) {pos plen : Nat} (hle : pos + plen ≤ xs.length) :
    ∃ t, s.concatIntern M str pos plen = some (t, pos + plen) ∧
      Holds M t (ts ++ (xs.drop pos).take plen) := by
  obtain ⟨r, hbuf, -⟩ := hstr
  have hread : fetch M.junk str.buf pos plen = (xs.drop pos).take plen := by
    rw [hbuf, fetch_of_le _ _ _ (by rw [List.length_append]; omega),
      List.drop_append_of_le_length (by omega),
      List.take_append_of_le_length (by rw [List.length_drop]; omega)]
  obtain ⟨t, ht, hholds, -⟩ := concatMem_holds (M := M) h.fills ((xs.drop pos).take plen)
  refine ⟨t, ?_, hholds⟩
  rw [Str.concatIntern, hread, ht]
  rfl

/-- What the single byte path appends. -/
def singlePart {α : Type} (xs : List α) (pos len : Int) : List α :=
  if len = 0 then [] else xs.drop (checkOffset xs.length pos)

theorem concatPosLen_holds {M : Memory α} {s str : Str α} {ts xs : List α} (h : Holds M s ts)
    (hstr : Holds M str xs) (pos len : Int) :
    ∃ t n, s.concatPosLen M str pos len = some (t, n) ∧ n ≤ str.len ∧
      Holds M t (ts ++ singlePart xs pos len) := by
  have hlen := hstr.len_eq
  unfold Str.concatPosLen singlePart
  rw [hlen]
  by_cases hnone : xs.length = 0 ∨ len = 0
  · refine ⟨s, 0, if_pos hnone, by omega, ?_⟩
    have hnil : (if len = 0 then [] else xs.drop (checkOffset xs.length pos)) = [] := by
      rcases hnone with hnil | hzero
      · rw [List.length_eq_zero_iff.mp hnil]
        simp
      · rw [if_pos hzero]
    rw [hnil, List.append_nil]
    exact h
  · rw [if_neg hnone, if_neg (by omega)]
    have hk := checkOffset_le xs.length pos
    -- what is appended in both cases that append
    have happend : ∀ k, k = checkOffset xs.length pos →
        ∃ t n, s.concatIntern M str k (xs.length - k) = some (t, n) ∧ n ≤ xs.length ∧
          Holds M t (ts ++ xs.drop (checkOffset xs.length pos)) := by
      rintro k rfl
      obtain ⟨t, ht, hholds⟩ := concatIntern_holds h hstr
        (show checkOffset xs.length pos + (xs.length - checkOffset xs.length pos) ≤ xs.length by omega)
      rw [List.take_of_length_le (by rw [List.length_drop])] at hholds
      exact ⟨t, _, ht, by omega, hholds⟩
    unfold Str.concatSimple
    rw [hlen]
    by_cases hneg : pos < 0
    · rw [if_pos hneg]
      exact happend _ (by rw [checkOffset, if_pos hneg])
    · rw [if_neg hneg]
      by_cases hout : (xs.length : Int) ≤ pos
      · rw [if_pos hout]
        have hend : checkOffset xs.length pos = xs.length := by
          rw [checkOffset, if_neg hneg]
          split <;> omega
        refine ⟨s, 0, rfl, by omega, ?_⟩
        rw [hend, List.drop_length, List.append_nil]
        exact h
      · rw [if_neg hout]
        exact happend _ (by rw [checkOffset, if_neg hneg, if_neg (by omega)])

/-- What the path for more bytes appends. -/
def multiPart {γ : Type} (cs : List γ) (pos len : Int) : List γ :=
  if len = 0 then []
  else
    let rest := cs.drop (charPos cs.length pos)
    rest.take (charPos rest.length len)

theorem concatPosLenMulti_holds {γ : Type} {enc : γ → List UInt8} {next : List UInt8 → Int}
    {M : Memory UInt8} {s str : Str UInt8} {ts : List UInt8} {cs : List γ}
    (hscan : ∀ c, Scans next (enc c)) (h : Holds M s ts) (hstr : Holds M str (spell enc cs))
    (pos len : Int64) :
    ∃ t n, s.concatPosLenMulti M next str pos.toInt len.toInt = some (t, n) ∧ n ≤ str.len ∧
      Holds M t (ts ++ spell enc (multiPart cs pos.toInt len.toInt)) := by
  have hlen := hstr.len_eq
  unfold Str.concatPosLenMulti multiPart
  dsimp only
  by_cases hnone : str.len = 0 ∨ len.toInt = 0
  · refine ⟨s, 0, if_pos hnone, by omega, ?_⟩
    have hnil : (if len.toInt = 0 then [] else
        (cs.drop (charPos cs.length pos.toInt)).take
          (charPos (cs.drop (charPos cs.length pos.toInt)).length len.toInt)) = [] := by
      rcases hnone with hzero | hzero
      · rw [hlen, List.length_eq_zero_iff, spell_eq_nil_iff hscan] at hzero
        simp [hzero]
      · rw [if_pos hzero]
    rw [hnil, spell_nil, List.append_nil]
    exact h
  · rw [if_neg hnone, if_neg (by omega)]
    have hpos : findByteOffset next (spell enc cs) pos.toInt 0 = _ :=
      findByteOffset_spell hscan List.drop_zero pos
    generalize charPos cs.length pos.toInt = k at hpos ⊢
    have hstart : concatStart next str pos.toInt = some (spell enc (cs.take k)).length := by
      rw [concatStart, hstr.fills.text_eq, hpos, Option.map_some, if_neg (by omega),
        Int.toNat_natCast]
    have hplen : findByteOffset next str.text len.toInt (spell enc (cs.take k)).length = _ :=
      findByteOffset_spell hscan (by rw [hstr.fills.text_eq, drop_spell]) len
    generalize charPos (cs.drop k).length len.toInt = n at hplen ⊢
    rw [hstart]
    dsimp only
    -- the bytes lie inside the string
    have hsplit := congrArg List.length (spell_split enc cs k n)
    simp only [List.length_append] at hsplit
    rw [if_neg (by omega), hplen]
    dsimp only
    by_cases hzero : ((spell enc ((cs.drop k).take n)).length : Int) ≤ 0
    · have hnil : spell enc ((cs.drop k).take n) = [] := List.length_eq_zero_iff.mp (by omega)
      rw [if_pos hzero, hnil, List.append_nil]
      exact ⟨s, 0, rfl, by omega, h⟩
    · rw [if_neg hzero, if_neg (by omega), Int.toNat_natCast]
      obtain ⟨t, ht, hholds⟩ := concatIntern_holds h hstr
        (show (spell enc (cs.take k)).length + (spell enc ((cs.drop k).take n)).length ≤ _ by omega)
      rw [drop_spell, take_spell] at hholds
      exact ⟨t, _, ht, by omega, hholds⟩

/-- The characters that `concat(str, pos, len)` is to append. -/
def selectFrom {α : Type} (xs : List α) (pos len : Int) : List α :=
  select xs len (checkOffset xs.length pos)

/-- The single byte path appends what the arguments select only when this is all that follows the
position. -/
theorem singlePart_eq_iff (xs : List α) (pos len : Int) :
    singlePart xs pos len = selectFrom xs pos len ↔
      xs = [] ∨ len = 0 ∨ xs.length ≤ pos ∨ (xs.length - checkOffset xs.length pos : Nat) ≤ len := by
  have hk := checkOffset_le xs.length pos
  unfold singlePart selectFrom select
  by_cases hzero : len = 0
  · simp [hzero]
  rw [if_neg hzero]
  have hend : checkOffset xs.length pos = xs.length ↔ xs = [] ∨ xs.length ≤ pos := by
    rw [← List.length_eq_zero_iff]
    unfold checkOffset
    split
    · split <;> omega
    · split <;> omega
  generalize checkOffset xs.length pos = k at hk hend ⊢
  -- all is taken, or less
  have htake : ∀ m, xs.drop k = (xs.drop k).take m ↔ xs.length - k ≤ m := by
    intro m
    rw [eq_comm, List.take_eq_self_iff, List.length_drop]
  rw [htake]
  by_cases hk' : k = xs.length
  · have hor := hend.mp hk'
    constructor
    · intro _
      rcases hor with h | h
      · exact .inl h
      · exact .inr (.inr (.inl h))
    · intro _
      omega
  · have hnot := mt hend.mpr hk'
    push Not at hnot
    constructor
    · intro hle
      right; right; right
      split at hle
      · omega
      · omega
    · rintro (h | h | h | h)
      · exact absurd h hnot.1
      · exact absurd h hzero
      · omega
      · rw [if_neg (by omega)]
        omega

/-- Where the single byte path appends what it should, the other path does so as well when the
position is not before the text. -/
theorem multiPart_eq_iff {γ : Type} (cs : List γ) (pos len : Int)
    (hsingle : singlePart cs pos len = selectFrom cs pos len) :
    multiPart cs pos len = selectFrom cs pos len ↔
      cs = [] ∨ len = 0 ∨ -(cs.length : Int) ≤ pos := by
  have hcases := (singlePart_eq_iff cs pos len).mp hsingle
  rw [← hsingle]
  unfold multiPart singlePart
  by_cases hnil : cs = []
  · simp [hnil]
  by_cases hzero : len = 0
  · simp [hzero]
  rw [if_neg hzero, if_neg hzero]
  by_cases hin : -(cs.length : Int) ≤ pos
  · simp only [hin, or_true, iff_true]
    by_cases hout : (cs.length : Int) ≤ pos
    · -- both are behind the end
      have hk : cs.length ≤ charPos cs.length pos := by
        rw [charPos, if_neg (by omega)]
        omega
      have hk' : checkOffset cs.length pos = cs.length := by
        rw [checkOffset, if_neg (by omega)]
        split <;> omega
      rw [hk', List.drop_eq_nil_of_le hk, List.drop_length, List.take_nil]
    · have hk : charPos cs.length pos = checkOffset cs.length pos := by
        unfold charPos checkOffset
        split
        · rw [if_neg (by omega), if_neg (by omega)]
        · rw [if_neg (by omega)]
      have hlen : ((cs.length - checkOffset cs.length pos : Nat) : Int) ≤ len := by
        rcases hcases with h | h | h | h
        · exact absurd h hnil
        · exact absurd h hzero
        · exact absurd h hout
        · exact h
      rw [hk]
      refine List.take_of_length_le ?_
      rw [List.length_drop, charPos, if_neg (by omega)]
      omega
  · -- the end of the text was found in place of its beginning
    have hk : charPos cs.length pos = cs.length := by
      rw [charPos, if_pos (by omega), if_pos (by omega)]
    have hk' : checkOffset cs.length pos = 0 := by
      rw [checkOffset, if_pos (by omega), if_pos (by omega)]
    rw [hk, hk', List.drop_length, List.take_nil, List.drop_zero]
    constructor
    · intro h
      exact absurd h.symm hnil
    · rintro (h | h | h)
      · exact absurd h hnil
      · exact absurd h hzero
      · exact absurd h hin

/-! ## UTF-8 -/

theorem utf8_sync : Sync charLen String.utf8EncodeChar UInt8.IsUTF8FirstByte where
  scans := utf8_scans
  inj := utf8EncodeChar_injective
  first_iff := by
    intro c i x hx
    obtain ⟨hi, rfl⟩ := List.getElem?_eq_some_iff.mp hx
    exact UInt8.isUTF8FirstByte_getElem_utf8EncodeChar

/-- A search of the characters `hs`, or a part of `str` that is appended to them. -/
inductive SearchOp
  | index (needle : List Char) (pos : Int64)
  | rindex (needle : List Char) (pos : Int64)
  | concat (str : List Char) (pos len : Int64)

/-- Both paths of `concat(str, pos, len)` append what the arguments select, and read `str` only. -/
def ConcatAgrees (junkc : Nat → Char) (junkb : Nat → UInt8) (hs str : List Char)
    (pos len : Int64) : Prop :=
  ∀ u us s ss, Holds (charMemory junkc) u hs → Holds (charMemory junkc) us str →
    Holds (byteMemory junkb) s (utf8 hs) → Holds (byteMemory junkb) ss (utf8 str) →
    (∃ t n, u.concatPosLen (charMemory junkc) us pos.toInt len.toInt = some (t, n) ∧ n ≤ us.len ∧
      Holds (charMemory junkc) t (hs ++ selectFrom str pos.toInt len.toInt)) ∧
    ∃ t n, s.concatPosLenMulti (byteMemory junkb) charLen ss pos.toInt len.toInt = some (t, n) ∧
      n ≤ ss.len ∧ Holds (byteMemory junkb) t (utf8 (hs ++ selectFrom str pos.toInt len.toInt))

/-- Both paths give the same on the characters `hs`. -/
def SearchOp.Agrees (haveMemmem : Bool) (junkc : Nat → Char) (junkb : Nat → UInt8)
    (hs : List Char) : SearchOp → Prop
  | .index needle pos => indexSingle haveMemmem hs needle pos.toInt =
      indexMulti charLen haveMemmem (utf8 hs) (utf8 needle) pos.toInt
  | .rindex needle pos => rindexSingle hs needle pos.toInt =
      rindexMulti charLen (utf8 hs) (utf8 needle) pos.toInt
  | .concat str pos len => ConcatAgrees junkc junkb hs str pos len

/-- The calls for which the paths agree: a position is not before the text, or there is nothing to
find; no wide character ends a match at the position of `rindex`; and `concat` is to append all that
follows the position. -/
def SearchOp.Fine (haveMemmem : Bool) (hs : List Char) : SearchOp → Prop
  | .index needle pos => -(hs.length : Int) ≤ pos.toInt ∨ qMemmem haveMemmem hs needle = none
  | .rindex needle pos =>
      if hs.length + pos.toInt < 0 then qMemrmem hs needle = none
      else hs.length ≤ charPos hs.length pos.toInt ∨
        ¬ WideMatch String.utf8EncodeChar hs needle (charPos hs.length pos.toInt)
  | .concat str pos len =>
      str = [] ∨ len.toInt = 0 ∨ str.length ≤ pos.toInt ∨
        (-(str.length : Int) ≤ pos.toInt ∧
          (str.length - checkOffset str.length pos.toInt : Nat) ≤ len.toInt)

/-- A string that holds a text. -/
theorem exists_holds (M : Memory α) (xs : List α) : ∃ s : Str α, Holds M s xs :=
  ⟨⟨xs ++ [M.zero], xs.length, 0⟩, [], rfl, rfl⟩

theorem concatAgrees_iff (junkc : Nat → Char) (junkb : Nat → UInt8) (hs str : List Char)
    (pos len : Int64) :
    ConcatAgrees junkc junkb hs str pos len ↔
      singlePart str pos.toInt len.toInt = selectFrom str pos.toInt len.toInt ∧
        multiPart str pos.toInt len.toInt = selectFrom str pos.toInt len.toInt := by
  constructor
  · intro h
    obtain ⟨u, hu⟩ := exists_holds (charMemory junkc) hs
    obtain ⟨us, hus⟩ := exists_holds (charMemory junkc) str
    obtain ⟨s, hs'⟩ := exists_holds (byteMemory junkb) (utf8 hs)
    obtain ⟨ss, hss⟩ := exists_holds (byteMemory junkb) (utf8 str)
    obtain ⟨⟨t, n, ht, -, hholds⟩, t', n', ht', -, hholds'⟩ := h u us s ss hu hus hs' hss
    obtain ⟨v, m, hv, -, hpart⟩ := concatPosLen_holds hu hus pos.toInt len.toInt
    obtain ⟨v', m', hv', -, hpart'⟩ := concatPosLenMulti_holds utf8_scans hs' hss pos len
    rw [ht] at hv
    rw [ht'] at hv'
    cases hv
    cases hv'
    refine ⟨List.append_cancel_left (hpart.unique hholds), ?_⟩
    have hsame := hpart'.unique hholds'
    rw [utf8, utf8, spell_append] at hsame
    exact spell_injective utf8_scans utf8EncodeChar_injective (List.append_cancel_left hsame)
  · rintro ⟨hsingle, hmulti⟩ u us s ss hu hus hs' hss
    constructor
    · rw [← hsingle]
      exact concatPosLen_holds hu hus pos.toInt len.toInt
    · rw [← hmulti, utf8, spell_append]
      exact concatPosLenMulti_holds utf8_scans hs' hss pos len

/-- On valid UTF-8 both paths agree exactly for the calls that are `Fine`. -/
theorem search_agrees_iff (haveMemmem : Bool) (junkc : Nat → Char) (junkb : Nat → UInt8)
    (hs : List Char) (op : SearchOp) :
    op.Agrees haveMemmem junkc junkb hs ↔ op.Fine haveMemmem hs := by
  cases op with
  | index needle pos => exact indexMulti_eq_iff utf8_sync haveMemmem pos
  | rindex needle pos => exact rindexMulti_eq_iff utf8_sync pos
  | concat str pos len =>
    refine (concatAgrees_iff junkc junkb hs str pos len).trans ?_
    constructor
    · rintro ⟨hsingle, hmulti⟩
      rcases (singlePart_eq_iff str pos.toInt len.toInt).mp hsingle with h | h | h | h
      · exact .inl h
      · exact .inr (.inl h)
      · exact .inr (.inr (.inl h))
      · rcases (multiPart_eq_iff str pos.toInt len.toInt hsingle).mp hmulti with h' | h' | h'
        · exact .inl h'
        · exact .inr (.inl h')
        · exact .inr (.inr (.inr ⟨h', h⟩))
    · intro h
      have hsingle : singlePart str pos.toInt len.toInt = selectFrom str pos.toInt len.toInt := by
        refine (singlePart_eq_iff str pos.toInt len.toInt).mpr ?_
        rcases h with h | h | h | h
        · exact .inl h
        · exact .inr (.inl h)
        · exact .inr (.inr (.inl h))
        · exact .inr (.inr (.inr h.2))
      refine ⟨hsingle, (multiPart_eq_iff str pos.toInt len.toInt hsingle).mpr ?_⟩
      rcases h with h | h | h | h
      · exact .inl h
      · exact .inr (.inl h)
      · exact .inr (.inr (by omega))
      · exact .inr (.inr h.1)

/-- The paths differ: `rindex` from the end finds `ä` in itself on one path only, so does `index` for
`a` from a position before the text, and of `abc` the single byte path appends three characters where
one is asked for. -/
theorem search_not_agrees :
    ¬ (SearchOp.rindex ['ä'] (-1)).Agrees true (fun _ => 'x') (fun _ => 255) ['ä'] ∧
    ¬ (SearchOp.index ['a'] (-2)).Agrees true (fun _ => 'x') (fun _ => 255) ['a'] ∧
    ¬ (SearchOp.concat ['a', 'b', 'c'] 0 1).Agrees true (fun _ => 'x') (fun _ => 255) [] := by
  refine ⟨fun h => ?_, fun h => ?_, fun h => ?_⟩
  · have hfine := (rindexMulti_eq_iff utf8_sync (-1)).mp h
    rcases hfine with hbehind | hnarrow
    · exact absurd hbehind (by decide)
    · exact hnarrow ⟨⟨'ä', rfl, by decide⟩, by decide⟩
  · have hfine := (indexMulti_eq_iff utf8_sync true (-2)).mp h
    exact absurd hfine (by decide)
  · have hsingle := ((concatAgrees_iff _ _ [] ['a', 'b', 'c'] 0 1).mp h).1
    exact absurd hsingle (by decide)

end Qore.Text
