import Mathlib
import Qore.Lib.SortedMap
import Qore.Slice.RangeSpec
import Qore.Text.Search

/-!
# `Qore.Hash.TreeMap`: `TreeMap`, values for path prefixes

A `TreeMap` stores values for paths. `get` finds the longest stored key that is the path or that
ends before a `/` or a `?` of the path, and tells the rest of the path. It walks back through the
keys from the path on, and stops at the first key with another first segment.

The strings are UTF-8, like the keys in the map, which are C strings: a key ends before its first
zero byte.

* `walk_longest`: the walk finds the longest key. The keys between one that the path continues and
  the path itself have the same first segment, and of two such keys the longer one is the greater.
* `get_longest_iff`: after any calls of `put` and `take` the value is the right one, but the rest is
  only right where the key has only ASCII characters and the rest is not empty. The offset of the
  rest is the length of the key in bytes, and `substr` counts characters; and for an offset at the
  end `substr` returns no string.
-/

set_option autoImplicit false

namespace Qore.TreeMap

open Qore.Lib Qore.Lib.Words Qore.Lib.Matches Qore.Lib.SortedMap Qore.Text

/-- The order of `std::string`: bytes are compared as unsigned. -/
local instance instLinearOrderUInt8 : LinearOrder UInt8 where
  le_refl := UInt8.le_refl
  le_trans _ _ _ := UInt8.le_trans
  le_antisymm _ _ := UInt8.le_antisymm
  le_total := UInt8.le_total
  lt_iff_le_not_ge a b := by
    rw [UInt8.not_le]
    exact ⟨fun h => ⟨UInt8.le_of_lt h, h⟩, fun h => h.2⟩
  toDecidableLE := inferInstance
  toDecidableLT := inferInstance
  toDecidableEq := inferInstance

variable {V : Type}

/-! ## The map -/

def isPathEnd (c : UInt8) : Bool := c == 0x2f || c == 0x3f

/-- The position of the first separator, or the length of the path. -/
def getFirstPathSegmentLength (path : List UInt8) : Nat := path.findIdx isPathEnd

def isPrefix (pre str : List UInt8) : Bool :=
  pre.length ≤ str.length && str.take pre.length == pre

def isPathPrefix (pre path : List UInt8) : Bool :=
  isPrefix pre path && (path.length == pre.length || isPathEnd (path.getD pre.length 0))

/-- A `TreeMapData`; the keys are `std::string`s. -/
abbrev TreeMapData (V : Type) := SortedMap (List UInt8) V

/-- `c_str()` of a text. -/
def cStr (text : List UInt8) : List UInt8 := text.takeWhile (· ≠ 0)

/-- `TreeMapData::put`. -/
def put (data : TreeMapData V) (key : List UInt8) (value : V) : TreeMapData V :=
  data.put (cStr key) value

/-- `TreeMapData::take`, with the value that was removed. -/
def take (data : TreeMapData V) (key : List UInt8) : TreeMapData V × Option V :=
  match data.get? (cStr key) with
  | none => (data, none)
  | some rv => (data.erase (cStr key), some rv)

/-- `key->substr(offset)` for a UTF-8 string; the inner `none` is a null pointer. -/
def substr (junk : Nat → UInt8) (key : List UInt8) (offset : Nat) : Option (Option (List UInt8)) :=
  ((source (byteMemory junk) key).substrComplex (byteMemory junk) charLen offset).map
    (·.map Str.text)

/-- What `get` returns, and what it assigns to the reference `unmatched`; `none` is `NOTHING`. -/
structure Got (V : Type) where
  value : Option V
  unmatched : Option (List UInt8)

/-- The loop of `get`: back from the upper bound of the path, as long as the first segment is that
of the path. -/
def findPrefix (data : TreeMapData V) (path : List UInt8) : Option (List UInt8 × V) :=
  let prefixLen := getFirstPathSegmentLength path
  walk (fun k => k.take prefixLen == path.take prefixLen) (isPathPrefix · path) (data.upTo path)

/-- `TreeMapData::get`. `unmatched` tells whether there is a reference; without one nothing is
assigned. -/
def get (junk : Nat → UInt8) (data : TreeMapData V) (key : List UInt8) (unmatched : Bool) :
    Option (Got V) :=
  let path := cStr key
  match findPrefix data path with
  | none => some ⟨none, none⟩
  | some (k, value) =>
    if unmatched then
      let l := if isPathEnd (path.getD k.length 0) then k.length + 1 else k.length
      (substr junk key l).map fun rest => ⟨some value, rest⟩
    else some ⟨some value, none⟩

/-- A call that changes the map, with a UTF-8 string. -/
inductive Op (V : Type)
  | put (key : List Char) (value : V)
  | take (key : List Char)

def Op.key : Op V → List Char
  | .put key _ => key
  | .take key => key

/-- The map after a call. -/
def step (data : TreeMapData V) : Op V → TreeMapData V
  | .put key value => put data (utf8 key) value
  | .take key => (take data (utf8 key)).1

/-- The map after calls on a new `TreeMap`. -/
def run (ops : List (Op V)) : TreeMapData V := ops.foldl step empty

/-! ## What it is for -/

/-- The value of every path after a call. -/
def storedStep (stored : List Char → Option V) : Op V → List Char → Option V
  | .put key value, path => if path = key then some value else stored path
  | .take key, path => if path = key then none else stored path

/-- The value of every path after calls on a new `TreeMap`. -/
def storedAfter (ops : List (Op V)) : List Char → Option V := ops.foldl storedStep fun _ => none

/-- The path is the key, or the key, a separator and the rest. -/
def Splits (key path rest : List Char) : Prop :=
  path = key ∧ rest = [] ∨ ∃ c, (c = '/' ∨ c = '?') ∧ path = key ++ c :: rest

/-- `key` is the longest stored path that `path` continues. -/
structure Longest (stored : List Char → Option V) (path key : List Char) : Prop where
  isSome : (stored key).isSome
  splits : ∃ rest, Splits key path rest
  longest : ∀ k, (stored k).isSome → (∃ rest, Splits k path rest) → k.length ≤ key.length

/-- The value of the longest key and the rest of the path, or nothing if there is no key. -/
def GetsLongest (stored : List Char → Option V) (path : List Char) (unmatched : Bool)
    (r : Option (Got V)) : Prop :=
  (∃ key rest, Longest stored path key ∧ Splits key path rest ∧
    r = some ⟨stored key, if unmatched then some (utf8 rest) else none⟩) ∨
  (∀ key rest, Splits key path rest → stored key = none) ∧ r = some ⟨none, none⟩

/-! ## Keys of bytes -/

variable {a b : List UInt8}

theorem lt_of_take_lt_take {n : Nat} (h : a.take n < b.take n) : a < b := by
  induction n generalizing a b with
  | zero => exact absurd h (lt_irrefl _)
  | succ n ih =>
    cases a with
    | nil =>
      cases b with
      | nil => exact absurd h (lt_irrefl _)
      | cons y b => exact List.nil_lt_cons y b
    | cons x a =>
      cases b with
      | nil => exact absurd h (List.not_lt_nil _)
      | cons y b =>
        rcases List.cons_lt_cons_iff.mp h with hlt | ⟨rfl, hlt⟩
        · exact List.cons_lt_cons_iff.mpr (.inl hlt)
        · exact List.cons_lt_cons_iff.mpr (.inr ⟨rfl, ih hlt⟩)

theorem take_le_take (n : Nat) (h : a ≤ b) : a.take n ≤ b.take n :=
  not_lt.mp fun hlt => absurd (lt_of_take_lt_take hlt) (not_lt.mpr h)

/-- A text is not greater than its continuations. -/
theorem le_of_isPrefix (h : a <+: b) : a ≤ b := by
  obtain ⟨t, rfl⟩ := h
  have hle : ¬a ++ t < a := @List.le_append_left _ _ _ a t
  exact not_lt.mp hle

theorem isPrefix_iff (pre str : List UInt8) : isPrefix pre str = true ↔ pre <+: str := by
  rw [isPrefix, Bool.and_eq_true, decide_eq_true_eq, beq_iff_eq, List.prefix_iff_eq_take]
  constructor
  · exact fun h => h.2.symm
  · intro h
    refine ⟨?_, h.symm⟩
    have hlen := congrArg List.length h
    rw [List.length_take] at hlen
    omega

/-- The path is the key, or it goes on with a separator. -/
theorem isPathPrefix_iff (k path : List UInt8) :
    isPathPrefix k path = true ↔ ∃ t, path = k ++ t ∧ ∀ c r, t = c :: r → isPathEnd c := by
  rw [isPathPrefix, Bool.and_eq_true, Bool.or_eq_true, isPrefix_iff, beq_iff_eq]
  constructor
  · rintro ⟨⟨t, rfl⟩, hend⟩
    refine ⟨t, rfl, ?_⟩
    rintro c r rfl
    rcases hend with hlen | hend
    · simp at hlen
    · simpa using hend
  · rintro ⟨t, rfl, hend⟩
    refine ⟨⟨t, rfl⟩, ?_⟩
    cases t with
    | nil => exact .inl (by simp)
    | cons c r => exact .inr (by simpa using hend c r rfl)

/-- A key that the path continues has the first segment of the path. -/
theorem firstSegment_le {k path : List UInt8} (h : isPathPrefix k path = true) :
    getFirstPathSegmentLength path ≤ k.length := by
  obtain ⟨t, rfl, hend⟩ := (isPathPrefix_iff k path).mp h
  unfold getFirstPathSegmentLength
  cases t with
  | nil =>
    rw [List.append_nil]
    exact List.findIdx_le_length
  | cons c r =>
    rw [List.findIdx_append]
    split_ifs with hlt
    · omega
    · rw [List.findIdx_cons, hend c r rfl]
      simp

/-- Up to the path, the keys after one that the path continues have the first segment of the
path: what is between two texts with the same beginning begins like them. -/
theorem near_of_between {x y path : List UInt8} (hx : isPathPrefix x path = true) (hxy : x ≤ y)
    (hy : y ≤ path) :
    y.take (getFirstPathSegmentLength path) = path.take (getFirstPathSegmentLength path) := by
  have hsame : x.take (getFirstPathSegmentLength path) =
      path.take (getFirstPathSegmentLength path) := by
    have hle := firstSegment_le hx
    obtain ⟨t, ht, -⟩ := (isPathPrefix_iff x path).mp hx
    generalize getFirstPathSegmentLength path = n at hle ⊢
    rw [ht, List.take_append_of_le_length hle]
  refine le_antisymm (take_le_take _ hy) ?_
  rw [← hsame]
  exact take_le_take _ hxy

/-! ## The characters of keys and paths -/

theorem utf8EncodeChar_head {c d : Char} {b : UInt8} {w : List UInt8}
    (hd : String.utf8EncodeChar d = [b]) (hc : String.utf8EncodeChar c = b :: w) : c = d := by
  have hone := (utf8_scans d).next_append w
  rw [hd, List.singleton_append, ← hc] at hone
  have hall := (utf8_scans c).next_append []
  rw [List.append_nil, hone] at hall
  have hw : w = [] := by
    rw [hc] at hall
    simp only [List.length_cons, List.length_nil] at hall
    exact List.length_eq_zero_iff.mp (by omega)
  rw [hw, ← hd] at hc
  exact utf8EncodeChar_injective hc

/-- A text begins with the byte of a separator if its first character is one. -/
theorem isPathEnd_utf8_iff (c : Char) (b : UInt8) (t : List Char) (w : List UInt8)
    (h : utf8 (c :: t) = b :: w) : isPathEnd b = true ↔ c = '/' ∨ c = '?' := by
  rw [isPathEnd, Bool.or_eq_true, beq_iff_eq, beq_iff_eq]
  cases henc : String.utf8EncodeChar c with
  | nil => exact absurd henc String.utf8EncodeChar_ne_nil
  | cons x v =>
    rw [utf8, spell_cons, henc, List.cons_append, List.cons.injEq] at h
    rw [← h.1]
    constructor
    · rintro (rfl | rfl)
      · exact .inl (utf8EncodeChar_head (d := '/') rfl henc)
      · exact .inr (utf8EncodeChar_head (d := '?') rfl henc)
    · rintro (rfl | rfl)
      · exact .inl (List.cons.inj henc).1.symm
      · exact .inr (List.cons.inj henc).1.symm

/-- The bytes of a key and of a path are compared as their characters are. -/
theorem isPathPrefix_utf8_iff (key path : List Char) :
    isPathPrefix (utf8 key) (utf8 path) = true ↔ ∃ rest, Splits key path rest := by
  rw [isPathPrefix_iff]
  constructor
  · rintro ⟨t, ht, hend⟩
    obtain ⟨ds, rfl⟩ := (spell_isPrefix_iff utf8_sync key path).mp ⟨t, ht.symm⟩
    have htail : t = utf8 ds := by
      rw [utf8, spell_append] at ht
      exact (List.append_cancel_left ht).symm
    cases ds with
    | nil => exact ⟨[], .inl ⟨List.append_nil key, rfl⟩⟩
    | cons c rest =>
      cases hbytes : utf8 (c :: rest) with
      | nil => exact absurd ((spell_eq_nil_iff utf8_scans _).mp hbytes) (List.cons_ne_nil c rest)
      | cons b w =>
        have hsep := (isPathEnd_utf8_iff c b rest w hbytes).mp (hend b w (htail.trans hbytes))
        exact ⟨rest, .inr ⟨c, hsep, rfl⟩⟩
  · rintro ⟨rest, ⟨rfl, rfl⟩ | ⟨c, hsep, rfl⟩⟩
    · exact ⟨[], (List.append_nil _).symm, fun c r h => absurd h.symm (List.cons_ne_nil c r)⟩
    · refine ⟨utf8 (c :: rest), spell_append _ _, ?_⟩
      exact fun b w h => (isPathEnd_utf8_iff c b rest w h).mpr hsep

/-- A text without a zero is its own C string. -/
theorem cStr_utf8 {cs : List Char} (h : '\x00' ∉ cs) : cStr (utf8 cs) = utf8 cs := by
  refine List.takeWhile_eq_self_iff.mpr fun b hb => ?_
  have hne : b ≠ 0 := by
    rintro rfl
    exact h ((zero_mem_utf8 cs).mp hb)
  exact decide_eq_true hne

theorem utf8_injective : Function.Injective utf8 :=
  spell_injective utf8_scans utf8EncodeChar_injective

/-! ## The calls that change the map -/

/-- The map holds the values that are stored, for keys of characters. -/
structure Stores (data : TreeMapData V) (stored : List Char → Option V) : Prop where
  get?_eq : ∀ key, data.get? (utf8 key) = stored key
  spelled : ∀ e ∈ data.entries, ∃ key, e.1 = utf8 key

variable {data : TreeMapData V} {stored : List Char → Option V}

theorem stores_step (h : Stores data stored) {op : Op V} (hop : '\x00' ∉ op.key) :
    Stores (step data op) (storedStep stored op) := by
  cases op with
  | put key value =>
    have hkey : cStr (utf8 key) = utf8 key := cStr_utf8 hop
    have hput : step data (.put key value) = SortedMap.put data (utf8 key) value := by
      rw [step, put, hkey]
    rw [hput]
    constructor
    · intro k
      rw [get?_put, h.get?_eq, storedStep]
      simp only [utf8_injective.eq_iff]
    · intro e he
      rcases mem_put he with rfl | he
      · exact ⟨key, rfl⟩
      · exact h.spelled e he
  | take key =>
    have hkey : cStr (utf8 key) = utf8 key := cStr_utf8 hop
    cases hget : data.get? (utf8 key) with
    | none =>
      have htake : step data (.take key) = data := by
        rw [step, take, hkey, hget]
      rw [htake]
      refine ⟨fun k => ?_, h.spelled⟩
      rw [h.get?_eq, storedStep]
      split_ifs with hk
      · rw [hk, ← h.get?_eq, hget]
      · rfl
    | some rv =>
      have htake : step data (.take key) = data.erase (utf8 key) := by
        rw [step, take, hkey, hget]
      rw [htake]
      constructor
      · intro k
        rw [get?_erase, h.get?_eq, storedStep]
        simp only [utf8_injective.eq_iff]
      · exact fun e he => h.spelled e (mem_erase he)

/-- After any calls the map holds what they have stored. -/
theorem stores_run (ops : List (Op V)) (hops : ∀ op ∈ ops, '\x00' ∉ op.key) :
    Stores (run ops) (storedAfter ops) := by
  have hfold : ∀ (data : TreeMapData V) (stored : List Char → Option V), Stores data stored →
      Stores (ops.foldl step data) (ops.foldl storedStep stored) := by
    induction ops with
    | nil => exact fun _ _ h => h
    | cons op ops ih =>
      intro data stored h
      exact ih (fun o ho => hops o (List.mem_cons_of_mem op ho)) _ _
        (stores_step h (hops op List.mem_cons_self))
  exact hfold _ _ ⟨fun _ => rfl, fun e he => absurd he List.not_mem_nil⟩

/-! ## The longest key -/

variable {key path rest : List Char} (junk : Nat → UInt8)

theorem Splits.isPrefix (h : Splits key path rest) : key <+: path := by
  rcases h with ⟨rfl, -⟩ | ⟨c, -, rfl⟩
  · exact List.prefix_rfl
  · exact List.prefix_append _ _

/-- There is one rest. -/
theorem Splits.unique {rest' : List Char} (h : Splits key path rest) (h' : Splits key path rest') :
    rest = rest' := by
  rcases h with ⟨rfl, rfl⟩ | ⟨c, -, rfl⟩
  · rcases h' with ⟨-, rfl⟩ | ⟨c, -, hpath⟩
    · rfl
    · exact absurd (List.append_right_eq_self.mp hpath.symm) (List.cons_ne_nil _ _)
  · rcases h' with ⟨hpath, -⟩ | ⟨d, -, hpath⟩
    · exact absurd (List.append_right_eq_self.mp hpath) (List.cons_ne_nil _ _)
    · exact (List.cons.inj (List.append_cancel_left hpath)).2

/-- There is one longest key. -/
theorem Longest.unique {key' : List Char} (h : Longest stored path key)
    (h' : Longest stored path key') : key = key' := by
  obtain ⟨rest, hrest⟩ := h.splits
  obtain ⟨rest', hrest'⟩ := h'.splits
  have hle := h.longest key' h'.isSome h'.splits
  have hle' := h'.longest key h.isSome h.splits
  exact (List.prefix_of_prefix_length_le hrest.isPrefix hrest'.isPrefix hle').eq_of_length_le hle

/-- Of two keys that a path continues, the greater one is not the shorter one. -/
theorem length_le_of_le {k : List Char} (hk : k <+: path) (hkey : key <+: path)
    (hle : utf8 k ≤ utf8 key) : k.length ≤ key.length := by
  by_contra hlt
  have hpre : key <+: k := List.prefix_of_prefix_length_le hkey hk (by omega)
  have hbytes : utf8 key <+: utf8 k := (spell_isPrefix_iff utf8_sync key k).mpr hpre
  have heq : k = key := utf8_injective (le_antisymm hle (le_of_isPrefix hbytes))
  rw [heq] at hlt
  exact hlt (Nat.le_refl _)

/-- The walk back from the path finds the longest key. -/
theorem findPrefix_longest (h : Stores data stored) (path : List Char) :
    match findPrefix data (utf8 path) with
    | some e => ∃ key, e.1 = utf8 key ∧ stored key = some e.2 ∧ Longest stored path key
    | none => ∀ key rest, Splits key path rest → stored key = none := by
  have hbound : ∀ x, isPathPrefix x (utf8 path) = true → x ≤ utf8 path := by
    intro x hx
    obtain ⟨t, ht, -⟩ := (isPathPrefix_iff x _).mp hx
    exact le_of_isPrefix ⟨t, ht.symm⟩
  have hstored : ∀ k v, stored k = some v → (utf8 k, v) ∈ data.entries :=
    fun k v hk => (data.mem_iff_get? _ v).mpr ((h.get?_eq k).trans hk)
  have hwalk := data.walk_spec hbound fun x y hx hxy hy =>
    beq_iff_eq.mpr (near_of_between hx hxy hy)
  unfold findPrefix
  split at hwalk
  next e he =>
    obtain ⟨hmem, hhit, hmax⟩ := hwalk
    obtain ⟨key, hkey⟩ := h.spelled e hmem
    rw [hkey] at hhit
    have hvalue : stored key = some e.2 := by
      rw [← h.get?_eq, ← hkey]
      exact (data.mem_iff_get? e.1 e.2).mp hmem
    have hsplits := (isPathPrefix_utf8_iff key path).mp hhit
    rw [he]
    refine ⟨key, hkey, hvalue, by rw [hvalue]; rfl, hsplits, fun k hk hkpath => ?_⟩
    obtain ⟨v, hv⟩ := Option.isSome_iff_exists.mp hk
    have hle := hmax _ (hstored k v hv) ((isPathPrefix_utf8_iff k path).mpr hkpath)
    rw [hkey] at hle
    obtain ⟨rest, hrest⟩ := hsplits
    obtain ⟨rest', hrest'⟩ := hkpath
    exact length_le_of_le hrest'.isPrefix hrest.isPrefix hle
  next he =>
    rw [he]
    intro key rest hsplits
    cases hv : stored key with
    | none => rfl
    | some v =>
      exact absurd ((isPathPrefix_utf8_iff key path).mpr ⟨rest, hsplits⟩)
        (hwalk _ (hstored key v hv))

/-! ## The rest of the path -/

/-- `substr` counts characters, and there is no string behind the last one. -/
theorem substr_utf8 (cs : List Char) (offset : Nat) : substr junk (utf8 cs) offset =
      some (if cs.length ≤ offset then none else some (utf8 (cs.drop offset))) := by
  obtain ⟨e, he, hret⟩ := substrComplex_returned utf8_scans
    (source_holds (byteMemory junk) (spell String.utf8EncodeChar cs)) offset
  have htext := Slice.returned_map_text hret
  rw [substr, utf8, he, Option.map_some, htext, Slice.subStart_of_nonneg _ _ (Int.natCast_nonneg _)]
  split_ifs with hle hle' hle'
  · rfl
  · omega
  · omega
  · rfl

/-- The characters of a text are ASCII characters if there are as many bytes. -/
theorem length_utf8_eq_iff (cs : List Char) :
    (utf8 cs).length = cs.length ↔ ∀ c ∈ cs, c.toNat < 128 := by
  induction cs with
  | nil => simp [utf8]
  | cons c cs ih =>
    have hone : (String.utf8EncodeChar c).length = 1 ↔ c.toNat < 128 := by
      rw [String.length_utf8EncodeChar, Char.utf8Size_eq_one_iff, UInt32.le_iff_toNat_le]
      exact Nat.lt_succ_iff.symm
    have hpos := (utf8_scans c).pos
    have hle : cs.length ≤ (utf8 cs).length := length_le_spell utf8_scans cs
    rw [List.forall_mem_cons, ← ih, ← hone]
    rw [utf8, spell_cons, List.length_append, List.length_cons]
    change _ + (utf8 cs).length = _ ↔ _
    omega

/-- The text that `get` assigns to the reference. -/
def assigned (junk : Nat → UInt8) (key path : List Char) : Option (Option (List UInt8)) :=
  let k := (utf8 key).length
  substr junk (utf8 path) (if isPathEnd ((utf8 path).getD k 0) then k + 1 else k)

/-- The assigned text is the rest only behind a key of ASCII characters, and if it is not empty. -/
theorem assigned_iff (h : Splits key path rest) :
    assigned junk key path = some (some (utf8 rest)) ↔ (∀ c ∈ key, c.toNat < 128) ∧ rest ≠ [] := by
  have hle : key.length ≤ (utf8 key).length := length_le_spell utf8_scans key
  rw [← length_utf8_eq_iff]
  rcases h with ⟨rfl, rfl⟩ | ⟨c, hsep, rfl⟩
  · -- the offset is at the end of the path or behind it
    have hnone : assigned junk path path = some none := by
      rw [assigned, List.getD_eq_default _ _ (Nat.le_refl _), substr_utf8]
      exact congrArg some (if_pos hle)
    rw [hnone]
    simp
  · have hbyte : isPathEnd ((utf8 (key ++ c :: rest)).getD (utf8 key).length 0) = true := by
      cases hbytes : utf8 (c :: rest) with
      | nil => exact absurd ((spell_eq_nil_iff utf8_scans _).mp hbytes) (List.cons_ne_nil c rest)
      | cons b w =>
        have hsplit : utf8 (key ++ c :: rest) = utf8 key ++ b :: w := by
          rw [← hbytes]
          exact spell_append _ _
        rw [hsplit]
        simpa using (isPathEnd_utf8_iff c b rest w hbytes).mpr hsep
    rw [assigned, hbyte, if_pos rfl, substr_utf8, Option.some.injEq]
    have hlength : (key ++ c :: rest).length = key.length + 1 + rest.length := by
      rw [List.length_append, List.length_cons]
      omega
    constructor
    · intro hassigned
      split_ifs at hassigned with hbehind
      have hdrop := congrArg List.length (utf8_injective (Option.some.inj hassigned))
      rw [List.length_drop] at hdrop
      refine ⟨by omega, ?_⟩
      rintro rfl
      rw [List.length_nil] at hlength
      omega
    · rintro ⟨hascii, hne⟩
      have hpos := List.length_pos_iff.mpr hne
      rw [if_neg (by omega), hascii, List.drop_append, List.drop_of_length_le (by omega)]
      simp

/-! ## The calls of `get` -/

/-- What `get` does in terms of the stored paths. -/
theorem get_eq (h : Stores data stored) (hpath : '\x00' ∉ path) (unmatched : Bool) :
    (∃ key rest, Longest stored path key ∧ Splits key path rest ∧
      get junk data (utf8 path) unmatched =
        if unmatched then (assigned junk key path).map (⟨stored key, ·⟩)
        else some ⟨stored key, none⟩) ∨
    (∀ key rest, Splits key path rest → stored key = none) ∧
      get junk data (utf8 path) unmatched = some ⟨none, none⟩ := by
  have hfind := findPrefix_longest h path
  unfold get
  rw [cStr_utf8 hpath]
  dsimp only
  cases he : findPrefix data (utf8 path) with
  | none =>
    rw [he] at hfind
    exact .inr ⟨hfind, rfl⟩
  | some e =>
    rw [he] at hfind
    obtain ⟨k, value⟩ := e
    obtain ⟨key, hk, hvalue, hlongest⟩ := hfind
    obtain ⟨rest, hsplits⟩ := hlongest.splits
    refine .inl ⟨key, rest, hlongest, hsplits, ?_⟩
    subst hk
    rw [hvalue]
    rfl

/-- The condition for the rest: the longest key has only ASCII characters, and something follows it
and its separator. -/
def RestInBytes (stored : List Char → Option V) (path : List Char) : Prop :=
  ∀ key rest, Longest stored path key → Splits key path rest →
    (∀ c ∈ key, c.toNat < 128) ∧ rest ≠ []

/-- `get` after any calls of `put` and `take`, where no path has the character zero: it finds the
value of the longest key, and the rest of the path exactly under the condition for it. -/
theorem get_longest_iff (junk : Nat → UInt8) (ops : List (Op V))
    (hops : ∀ op ∈ ops, '\x00' ∉ op.key) (path : List Char) (hpath : '\x00' ∉ path)
    (unmatched : Bool) :
    GetsLongest (storedAfter ops) path unmatched (get junk (run ops) (utf8 path) unmatched) ↔
      (unmatched = true → RestInBytes (storedAfter ops) path) := by
  rcases get_eq junk (stores_run ops hops) hpath unmatched with
    ⟨key, rest, hlongest, hsplits, hget⟩ | ⟨hnone, hget⟩
  · -- the key and the rest that the specification means are these
    have hspec : GetsLongest (storedAfter ops) path unmatched
          (get junk (run ops) (utf8 path) unmatched) ↔
        get junk (run ops) (utf8 path) unmatched =
          some ⟨storedAfter ops key, if unmatched then some (utf8 rest) else none⟩ := by
      constructor
      · rintro (⟨key', rest', hlongest', hsplits', hr⟩ | ⟨hnone, -⟩)
        · obtain rfl := hlongest.unique hlongest'
          obtain rfl := hsplits.unique hsplits'
          exact hr
        · have hsome := hlongest.isSome
          rw [hnone key rest hsplits] at hsome
          exact absurd hsome Bool.false_ne_true
      · exact fun hr => .inl ⟨key, rest, hlongest, hsplits, hr⟩
    have hcond : RestInBytes (storedAfter ops) path ↔
        (∀ c ∈ key, c.toNat < 128) ∧ rest ≠ [] := by
      constructor
      · exact fun h => h key rest hlongest hsplits
      · intro h key' rest' hlongest' hsplits'
        obtain rfl := hlongest.unique hlongest'
        obtain rfl := hsplits.unique hsplits'
        exact h
    rw [hspec, hcond, ← assigned_iff junk hsplits, hget]
    cases unmatched with
    | false => simp
    | true =>
      cases assigned junk key path with
      | none => simp
      | some text => simp
  · constructor
    · intro _ _ key rest hlongest hsplits
      have hsome := hlongest.isSome
      rw [hnone key rest hsplits] at hsome
      exact absurd hsome Bool.false_ne_true
    · exact fun _ => .inr ⟨hnone, hget⟩

/-- Two keys with the same first segment, and a path that continues the longer one. -/
theorem get_longest_sample :
    GetsLongest (storedAfter [.put ['s'] 2, .put ['s', '/', 't'] 3, .take ['u']])
      ['s', '/', 't', '/', 'é'] true
      (get (fun _ => 255) (run [.put ['s'] 2, .put ['s', '/', 't'] 3, .take ['u']])
        (utf8 ['s', '/', 't', '/', 'é']) true) := by
  refine (get_longest_iff (fun _ => 255) _ (by decide) _ (by decide) true).mpr fun _ => ?_
  have hsplits : Splits ['s', '/', 't'] ['s', '/', 't', '/', 'é'] ['é'] :=
    .inr ⟨'/', .inl rfl, rfl⟩
  have hlongest : Longest (storedAfter [.put ['s'] 2, .put ['s', '/', 't'] 3, .take ['u']])
      ['s', '/', 't', '/', 'é'] ['s', '/', 't'] := by
    refine ⟨rfl, ⟨_, hsplits⟩, fun k hk _ => ?_⟩
    simp only [storedAfter, List.foldl_cons, List.foldl_nil, storedStep] at hk
    split_ifs at hk with hu hst hs
    · exact absurd hk Bool.false_ne_true
    · rw [hst]
    · rw [hs]
      decide
    · exact absurd hk Bool.false_ne_true
  intro key rest hkey hrest
  obtain rfl := hlongest.unique hkey
  obtain rfl := hsplits.unique hrest
  have hascii : ['s', '/', 't'].all (fun c => decide (c.toNat < 128)) = true := by decide
  exact ⟨fun c hc => of_decide_eq_true (List.all_eq_true.mp hascii c hc), List.cons_ne_nil _ _⟩

/-- After a key with a character of two bytes, the first character of the rest is lost; and the rest
of a path that is a key is no string. -/
theorem get_not_longest :
    ¬GetsLongest (storedAfter [.put ['é'] 1]) ['é', '/', 'a', 'b'] true
      (get (fun _ => 255) (run [.put ['é'] 1]) (utf8 ['é', '/', 'a', 'b']) true) ∧
    ¬GetsLongest (storedAfter [.put ['a'] 1]) ['a'] true
      (get (fun _ => 255) (run [.put ['a'] 1]) (utf8 ['a']) true) := by
  constructor
  · have hget : get (fun _ => 255) (run [.put ['é'] 1]) (utf8 ['é', '/', 'a', 'b']) true =
        some ⟨some 1, some (utf8 ['b'])⟩ := rfl
    rintro (⟨key, rest, -, hsplits, hr⟩ | ⟨-, hr⟩)
    · have hrest : utf8 ['b'] = utf8 rest :=
        Option.some.inj (congrArg Got.unmatched (Option.some.inj hr))
      obtain rfl := utf8_injective hrest
      rcases hsplits with ⟨-, hnil⟩ | ⟨c, hsep, hpath⟩
      · exact absurd hnil (List.cons_ne_nil _ _)
      · -- the character before `b` is no separator
        have hlast := congrArg List.reverse hpath
        rw [List.reverse_append] at hlast
        have hc : 'a' = c := (List.cons.inj (List.cons.inj hlast).2).1
        subst hc
        exact absurd hsep (by decide)
    · cases hr
  · have hget : get (fun _ => 255) (run [.put ['a'] 1]) (utf8 ['a']) true = some ⟨some 1, none⟩ :=
      rfl
    rintro (⟨key, rest, -, -, hr⟩ | ⟨-, hr⟩)
    · exact absurd (congrArg Got.unmatched (Option.some.inj hr)) (Option.some_ne_none _).symm
    · cases hr

end Qore.TreeMap
