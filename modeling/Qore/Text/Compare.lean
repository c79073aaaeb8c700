import Mathlib.Data.List.Lex
import Mathlib.Order.Defs.LinearOrder

/-!
# `Qore.Text.Compare`: the order of strings

A string is a list of bytes with an encoding. `QoreString::compare` gives -1, 0 or 1, and the
operators `<`, `<=`, `>` and `<=>` are made from it; `==` is made from `equalSoft`.

* `compare_eq`: for a string that is not empty, `compare` is the lexicographic order of the bytes.
  For an empty string it is 1 when the other string is not empty, and so it is the other way round.
* `compareSoft_eq_zero_iff`: `compareSoft` is 0 when one of the strings is a prefix of the other.
* `string_order_iff`: on three strings of one encoding, `compare` is a total order with the
  operators that belong to it, and `compareSoft` agrees with `equalSoft`, exactly when none of the
  strings is a proper prefix of another.
-/

set_option autoImplicit false

namespace Qore.Text

/-- The bytes and the encoding of a `QoreString`. -/
structure QString (E : Type) where
  bytes : List UInt8
  enc : E
  deriving DecidableEq

/-- `memcmp` on the first `n` bytes: the difference of the first bytes that differ. -/
def memcmp : List UInt8 → List UInt8 → Nat → Int
  | a :: as, b :: bs, n + 1 => if a = b then memcmp as bs n else a.toNat - b.toNat
  | _, _, _ => 0

section
variable {E : Type} [DecidableEq E] (multiByte : E → Bool) (usascii : E)
  (convert : E → E → List UInt8 → Option (List UInt8))

/-- `TempEncodingHelper` and `QoreStringValueHelper`: the string in an encoding; `none` when the
conversion raises an exception. -/
def QString.toEncoding (s : QString E) (enc : E) : Option (QString E) :=
  if s.enc = enc then some s else (convert s.enc enc s.bytes).map (⟨·, enc⟩)

/-- `QoreString::compare`. -/
def QString.compare (s t : QString E) : Int :=
  if s.bytes.length = 0 then
    if t.bytes.length = 0 then 0 else 1
  else if t.enc ≠ s.enc then 1
  else
    let rc := memcmp s.bytes t.bytes (min s.bytes.length t.bytes.length)
    if rc = 0 then
      if s.bytes.length < t.bytes.length then -1
      else if t.bytes.length < s.bytes.length then 1
      else 0
    else if rc < 0 then -1 else 1

/-- `QoreString::equal`. -/
def QString.equal (s t : QString E) : Bool :=
  if s.bytes.length ≠ t.bytes.length then false
  else if s.bytes.length = 0 then true
  else if s.enc ≠ t.enc then false
  else memcmp s.bytes t.bytes s.bytes.length = 0

/-- `QoreString::equalSoft`; an exception gives `false`. -/
def QString.equalSoft (s t : QString E) : Bool :=
  if s.bytes.length = 0 then decide (t.bytes.length = 0)
  else if t.bytes.length = 0 then false
  else if (s.enc = t.enc ∨ (!multiByte s.enc ∧ !multiByte t.enc)) ∧
      s.bytes.length ≠ t.bytes.length then false
  else
    let enc := if s.enc = usascii then t.enc else s.enc
    match s.toEncoding convert enc, t.toEncoding convert enc with
    | some a, some b =>
      if a.bytes.length ≠ b.bytes.length then false
      else memcmp a.bytes b.bytes a.bytes.length = 0
    | _, _ => false

/-- `QoreString::compareSoft`; an exception gives 1. -/
def QString.compareSoft (s t : QString E) : Int :=
  if s.bytes.length = 0 then
    if t.bytes.length = 0 then 0 else 1
  else
    match t.toEncoding convert s.enc with
    | none => 1
    | some t =>
      let rc := memcmp s.bytes t.bytes (min s.bytes.length t.bytes.length)
      if rc < 0 then -1 else if rc = 0 then 0 else 1

/-- `doComparison` (`<=>`) on two strings; `none` when an exception is raised. -/
def QString.doComparison (l r : QString E) : Option Int :=
  if l.enc ≠ r.enc then (r.toEncoding convert l.enc).map l.compare else some (l.compare r)

/-- `doLessThan` (`<`) on two strings. -/
def QString.doLessThan (l r : QString E) : Option Bool :=
  (r.toEncoding convert l.enc).map fun r => decide (l.compare r < 0)

/-- `doLessThanOrEquals` (`<=`) on two strings. -/
def QString.doLessThanOrEquals (l r : QString E) : Option Bool :=
  (r.toEncoding convert l.enc).map fun r => decide (l.compare r ≤ 0)

/-- `doGreaterThan` (`>`) on two strings. -/
def QString.doGreaterThan (l r : QString E) : Option Bool :=
  (r.toEncoding convert l.enc).map fun r => decide (0 < l.compare r)

/-- `softEqual` (`==`) on two strings. -/
def QString.softEqual (l r : QString E) : Bool := l.equalSoft multiByte usascii convert r

/-- On the strings of `S`, `compare` is a total order that is 0 exactly on equal strings, the
operators are those that it induces, and `compareSoft` is 0 exactly on strings that are equal after
conversion. -/
structure StringOrder (S : List (QString E)) : Prop where
  refl : ∀ a ∈ S, a.compare a = 0
  antisymm : ∀ a ∈ S, ∀ b ∈ S, a.compare b = -b.compare a
  trans : ∀ a ∈ S, ∀ b ∈ S, ∀ c ∈ S, a.compare b ≤ 0 → b.compare c ≤ 0 → a.compare c ≤ 0
  equal : ∀ a ∈ S, ∀ b ∈ S, a.compare b = 0 ↔ a.equal b = true
  comparison : ∀ a ∈ S, ∀ b ∈ S, a.doComparison convert b = some (a.compare b)
  lessThan : ∀ a ∈ S, ∀ b ∈ S, a.doLessThan convert b = some (decide (a.compare b < 0))
  lessThanOrEquals : ∀ a ∈ S, ∀ b ∈ S,
    a.doLessThanOrEquals convert b = some (decide (a.compare b ≤ 0))
  greaterThan : ∀ a ∈ S, ∀ b ∈ S, a.doGreaterThan convert b = some (decide (0 < a.compare b))
  softEqual : ∀ a ∈ S, ∀ b ∈ S, a.softEqual multiByte usascii convert b = decide (a.compare b = 0)
  soft : ∀ a ∈ S, ∀ b ∈ S,
    a.compareSoft convert b = 0 ↔ a.equalSoft multiByte usascii convert b = true

end

/-! ## The lexicographic order -/

/-- The bytes as numbers, in the lexicographic order. -/
def key (bytes : List UInt8) : List Nat := bytes.map UInt8.toNat

theorem key_injective : Function.Injective key := List.map_injective_iff.mpr fun _ _ => UInt8.toNat.inj

/-- -1, 0 or 1, for the order of two values. -/
def threeWay (a b : List Nat) : Int := if a < b then -1 else if a = b then 0 else 1

theorem threeWay_antisymm (a b : List Nat) : threeWay a b = -threeWay b a := by
  unfold threeWay
  rcases lt_trichotomy a b with h | h | h
  · simp [h, h.not_gt, h.ne']
  · simp [h]
  · simp [h, h.not_gt, h.ne']

theorem threeWay_nonpos_iff (a b : List Nat) : threeWay a b ≤ 0 ↔ a ≤ b := by
  unfold threeWay
  rcases lt_trichotomy a b with h | h | h
  · simp [h, h.le]
  · simp [h]
  · simp [h.not_gt, h.ne', h.not_ge]

theorem threeWay_eq_zero_iff (a b : List Nat) : threeWay a b = 0 ↔ a = b := by
  unfold threeWay
  rcases lt_trichotomy a b with h | h | h
  · simp [h, h.ne]
  · simp [h]
  · simp [h.not_gt, h.ne']

/-- The first bytes decide, unless they are equal. -/
theorem key_cons_lt_iff (x y : UInt8) (a b : List UInt8) :
    key (x :: a) < key (y :: b) ↔ x.toNat < y.toNat ∨ (x = y ∧ key a < key b) := by
  have hcons : key (x :: a) < key (y :: b) ↔
      x.toNat < y.toNat ∨ (x.toNat = y.toNat ∧ key a < key b) := List.cons_lt_cons_iff
  rw [hcons, UInt8.toNat_inj]

/-- `memcmp` on the common length, and then the lengths, is the lexicographic order. -/
theorem memcmp_threeWay (a b : List UInt8) :
    (if memcmp a b (min a.length b.length) = 0 then
      if a.length < b.length then (-1 : Int) else if b.length < a.length then 1 else 0
    else if memcmp a b (min a.length b.length) < 0 then -1 else 1) = threeWay (key a) (key b) := by
  induction a generalizing b with
  | nil =>
    cases b with
    | nil => rfl
    | cons y b => simp [memcmp, key, threeWay]
  | cons x a ih =>
    cases b with
    | nil => simp [memcmp, key, threeWay]
    | cons y b =>
      have hmin : min (x :: a).length (y :: b).length = min a.length b.length + 1 := by simp
      rw [hmin, memcmp]
      by_cases hxy : x = y
      · -- the rest decides
        subst hxy
        have hkey : threeWay (key (x :: a)) (key (x :: b)) = threeWay (key a) (key b) := by
          have hlt : key (x :: a) < key (x :: b) ↔ key a < key b := by
            rw [key_cons_lt_iff]
            simp
          have heq : key (x :: a) = key (x :: b) ↔ key a = key b := by simp [key]
          unfold threeWay
          simp only [hlt, heq]
        rw [if_pos rfl, hkey, ← ih b]
        simp
      · have hne : x.toNat ≠ y.toNat := fun h => hxy (UInt8.toNat.inj h)
        rw [if_neg hxy, if_neg (by omega)]
        rcases Nat.lt_or_gt_of_ne hne with h | h
        · have hlt : key (x :: a) < key (y :: b) := (key_cons_lt_iff x y a b).mpr (.inl h)
          rw [if_pos (by omega), threeWay, if_pos hlt]
        · have hgt : key (y :: b) < key (x :: a) := (key_cons_lt_iff y x b a).mpr (.inl h)
          rw [if_neg (by omega), threeWay, if_neg hgt.not_gt, if_neg hgt.ne']

/-- `memcmp` on the common length is 0 when one of the texts is a prefix of the other. -/
theorem memcmp_min_eq_zero_iff (a b : List UInt8) :
    memcmp a b (min a.length b.length) = 0 ↔ a <+: b ∨ b <+: a := by
  induction a generalizing b with
  | nil => simp [memcmp]
  | cons x a ih =>
    cases b with
    | nil => simp [memcmp]
    | cons y b =>
      have hmin : min (x :: a).length (y :: b).length = min a.length b.length + 1 := by simp
      rw [hmin, memcmp]
      by_cases hxy : x = y
      · subst hxy
        rw [if_pos rfl, ih b]
        simp [List.cons_prefix_cons]
      · have hne : x.toNat ≠ y.toNat := fun h => hxy (UInt8.toNat.inj h)
        rw [if_neg hxy]
        constructor
        · intro h
          omega
        · intro h
          rcases h with h | h
          · exact absurd (List.cons_prefix_cons.mp h).1 hxy
          · exact absurd (List.cons_prefix_cons.mp h).1.symm hxy

/-- On texts of one length `memcmp` is 0 exactly when they are equal. -/
theorem memcmp_eq_zero_iff {a b : List UInt8} (h : a.length = b.length) :
    memcmp a b a.length = 0 ↔ a = b := by
  have hmin : min a.length b.length = a.length := by omega
  have hbegins := memcmp_min_eq_zero_iff a b
  rw [hmin] at hbegins
  rw [hbegins]
  constructor
  · rintro (hab | hba)
    · exact hab.eq_of_length h
    · exact (hba.eq_of_length h.symm).symm
  · rintro rfl
    exact .inl List.prefix_rfl

/-! ## `compare` and `equal` -/

section
variable {E : Type} [DecidableEq E] {multiByte : E → Bool} {usascii : E}
  {convert : E → E → List UInt8 → Option (List UInt8)} {s t : QString E}

theorem QString.toEncoding_same (h : s.enc = t.enc) : t.toEncoding convert s.enc = some t := by
  rw [QString.toEncoding, if_pos h.symm]

/-- A string that is not empty is compared in the lexicographic order of the bytes. -/
theorem compare_eq (henc : s.enc = t.enc) (hs : s.bytes ≠ []) :
    s.compare t = threeWay (key s.bytes) (key t.bytes) := by
  have hlen : s.bytes.length ≠ 0 := by simpa using hs
  rw [QString.compare, if_neg hlen, if_neg (by simpa using henc.symm)]
  exact memcmp_threeWay s.bytes t.bytes

/-- The empty string comes after every other. -/
theorem compare_empty (hs : s.bytes = []) : s.compare t = if t.bytes = [] then 0 else 1 := by
  simp [QString.compare, hs]

theorem compare_eq_zero_iff (henc : s.enc = t.enc) : s.compare t = 0 ↔ s.bytes = t.bytes := by
  by_cases hs : s.bytes = []
  · rw [compare_empty hs, hs]
    by_cases ht : t.bytes = []
    · simp [ht]
    · simp [ht, Ne.symm ht]
  · rw [compare_eq henc hs, threeWay_eq_zero_iff, key_injective.eq_iff]

theorem equal_iff (henc : s.enc = t.enc) : s.equal t = true ↔ s.bytes = t.bytes := by
  unfold QString.equal
  by_cases hlen : s.bytes.length = t.bytes.length
  · rw [if_neg (by simpa using hlen), if_neg (show ¬ s.enc ≠ t.enc by simpa using henc)]
    by_cases hs : s.bytes.length = 0
    · -- both are empty
      have hsn : s.bytes = [] := List.length_eq_zero_iff.mp hs
      have htn : t.bytes = [] := List.length_eq_zero_iff.mp (hlen ▸ hs)
      simp [hsn, htn]
    · rw [if_neg hs, decide_eq_true_iff]
      exact memcmp_eq_zero_iff hlen
  · rw [if_pos hlen]
    constructor
    · intro h
      cases h
    · intro h
      exact absurd (congrArg List.length h) hlen

theorem equalSoft_iff (henc : s.enc = t.enc) :
    s.equalSoft multiByte usascii convert t = true ↔ s.bytes = t.bytes := by
  by_cases hs : s.bytes = []
  · have heq : s.bytes = t.bytes ↔ t.bytes = [] := by
      rw [hs]
      exact eq_comm
    simp [QString.equalSoft, hs]
  by_cases ht : t.bytes = []
  · have hne : s.bytes ≠ t.bytes := fun h => hs (h.trans ht)
    simp [QString.equalSoft, hs, ht]
  by_cases hlen : s.bytes.length = t.bytes.length
  · -- no conversion takes place, whichever of the two encodings is chosen
    have henc' : (if s.enc = usascii then t.enc else s.enc) = s.enc := by
      split
      · exact henc.symm
      · rfl
    have hself : s.toEncoding convert s.enc = some s := QString.toEncoding_same rfl
    have hother : t.toEncoding convert s.enc = some t := QString.toEncoding_same henc
    have hs0 : ¬ s.bytes.length = 0 := by simpa using hs
    have ht0 : ¬ t.bytes.length = 0 := by simpa using ht
    unfold QString.equalSoft
    rw [if_neg hs0, if_neg ht0, if_neg (fun h => h.2 hlen)]
    simp only [henc', hself, hother]
    rw [if_neg (by simpa using hlen), decide_eq_true_iff]
    exact memcmp_eq_zero_iff hlen
  · have hne : s.bytes ≠ t.bytes := fun h => hlen (congrArg List.length h)
    simp [QString.equalSoft, hs, ht, henc, hlen, hne]

/-- `compareSoft` looks at the common length only. -/
theorem compareSoft_eq_zero_iff (henc : s.enc = t.enc) :
    s.compareSoft convert t = 0 ↔
      if s.bytes = [] then t.bytes = [] else s.bytes <+: t.bytes ∨ t.bytes <+: s.bytes := by
  by_cases hs : s.bytes = []
  · by_cases ht : t.bytes = []
    · simp [QString.compareSoft, hs, ht]
    · simp [QString.compareSoft, hs, ht]
  · have hs0 : ¬ s.bytes.length = 0 := by simpa using hs
    have hother : t.toEncoding convert s.enc = some t := QString.toEncoding_same henc
    rw [if_neg hs, ← memcmp_min_eq_zero_iff]
    unfold QString.compareSoft
    rw [if_neg hs0]
    simp only [hother]
    constructor
    · intro h
      by_contra hne
      split at h
      · omega
      · omega
    · intro h
      rw [if_neg (by omega), if_pos h]

end

/-! ## The order -/

section
variable {E : Type} [DecidableEq E]

/-- No string of the list is a proper prefix of another. -/
def PrefixFree (S : List (QString E)) : Prop :=
  ∀ a ∈ S, ∀ b ∈ S, a.bytes <+: b.bytes → a.bytes = b.bytes

instance (S : List (QString E)) : Decidable (PrefixFree S) :=
  inferInstanceAs (Decidable (∀ a ∈ S, ∀ b ∈ S, a.bytes <+: b.bytes → a.bytes = b.bytes))

variable {multiByte : E → Bool} {usascii : E}
  {convert : E → E → List UInt8 → Option (List UInt8)} {S : List (QString E)}

/-- Where no string is a proper prefix of another, the empty string is alone, and `compare` is the
lexicographic order. -/
theorem PrefixFree.compare_eq (h : PrefixFree S) {a b : QString E} (ha : a ∈ S)
    (hb : b ∈ S) (henc : a.enc = b.enc) :
    a.compare b = threeWay (key a.bytes) (key b.bytes) := by
  by_cases hnil : a.bytes = []
  · have hbegins : a.bytes <+: b.bytes := by
      rw [hnil]
      exact List.nil_prefix
    have heq : a.bytes = b.bytes := h a ha b hb hbegins
    have hbnil : b.bytes = [] := heq ▸ hnil
    rw [compare_empty hnil, if_pos hbnil, heq, (threeWay_eq_zero_iff _ _).mpr rfl]
  · exact Text.compare_eq henc hnil

theorem PrefixFree.compareSoft_iff (h : PrefixFree S) {a b : QString E} (ha : a ∈ S)
    (hb : b ∈ S) (henc : a.enc = b.enc) :
    a.compareSoft convert b = 0 ↔ a.bytes = b.bytes := by
  rw [compareSoft_eq_zero_iff henc]
  by_cases hnil : a.bytes = []
  · rw [if_pos hnil, hnil]
    exact eq_comm
  · rw [if_neg hnil]
    constructor
    · rintro (hab | hba)
      · exact h a ha b hb hab
      · exact (h b hb a ha hba).symm
    · intro heq
      rw [heq]
      exact .inl List.prefix_rfl

/-- One direction: without proper prefixes everything is derived from the lexicographic order. -/
theorem PrefixFree.stringOrder (h : PrefixFree S)
    (henc : ∀ a ∈ S, ∀ b ∈ S, a.enc = b.enc) : StringOrder multiByte usascii convert S where
  refl a ha := (compare_eq_zero_iff rfl).mpr rfl
  antisymm a ha b hb := by
    rw [h.compare_eq ha hb (henc a ha b hb), h.compare_eq hb ha (henc b hb a ha),
      threeWay_antisymm]
  trans a ha b hb c hc := by
    rw [h.compare_eq ha hb (henc a ha b hb), h.compare_eq hb hc (henc b hb c hc),
      h.compare_eq ha hc (henc a ha c hc)]
    simp only [threeWay_nonpos_iff]
    exact le_trans
  equal a ha b hb := by
    rw [compare_eq_zero_iff (henc a ha b hb), equal_iff (henc a ha b hb)]
  comparison a ha b hb := by
    simp [QString.doComparison, henc a ha b hb]
  lessThan a ha b hb := by
    simp [QString.doLessThan, QString.toEncoding_same (henc a ha b hb)]
  lessThanOrEquals a ha b hb := by
    simp [QString.doLessThanOrEquals, QString.toEncoding_same (henc a ha b hb)]
  greaterThan a ha b hb := by
    simp [QString.doGreaterThan, QString.toEncoding_same (henc a ha b hb)]
  softEqual a ha b hb := by
    have hiff : a.equalSoft multiByte usascii convert b = true ↔ a.compare b = 0 :=
      (equalSoft_iff (henc a ha b hb)).trans (compare_eq_zero_iff (henc a ha b hb)).symm
    by_cases hzero : a.compare b = 0
    · rw [decide_eq_true hzero]
      exact hiff.mpr hzero
    · rw [decide_eq_false hzero]
      exact Bool.eq_false_iff.mpr fun h => hzero (hiff.mp h)
  soft a ha b hb := by
    rw [h.compareSoft_iff ha hb (henc a ha b hb), equalSoft_iff (henc a ha b hb)]

/-- The other direction: a proper prefix breaks one of two laws. The empty string is compared with 1
both ways, and any other prefix is taken for equal by `compareSoft`. -/
theorem StringOrder.prefixFree (h : StringOrder multiByte usascii convert S)
    (henc : ∀ a ∈ S, ∀ b ∈ S, a.enc = b.enc) : PrefixFree S := by
  intro a ha b hb hbegins
  by_contra hne
  by_cases hnil : a.bytes = []
  · have hbnil : b.bytes ≠ [] := fun hb => hne (hnil.trans hb.symm)
    have hab : a.compare b = 1 := by rw [compare_empty hnil, if_neg hbnil]
    have hba : b.compare a = 1 := by
      rw [Text.compare_eq (henc b hb a ha) hbnil, hnil, threeWay]
      simp [key, hbnil]
    have hanti := h.antisymm a ha b hb
    omega
  · have hzero : a.compareSoft convert b = 0 := by
      rw [compareSoft_eq_zero_iff (henc a ha b hb), if_neg hnil]
      exact .inl hbegins
    have heq := (h.soft a ha b hb).mp hzero
    exact hne ((equalSoft_iff (henc a ha b hb)).mp heq)

/-- Three strings of one encoding are totally ordered by `compare`, with the operators that belong
to the order and with `compareSoft` in agreement with `equalSoft`, exactly when none of them is a
proper prefix of another. -/
theorem string_order_iff (a b c : QString E) (hab : a.enc = b.enc) (hbc : b.enc = c.enc) :
    StringOrder multiByte usascii convert [a, b, c] ↔ PrefixFree [a, b, c] := by
  have henc : ∀ x ∈ [a, b, c], ∀ y ∈ [a, b, c], x.enc = y.enc := by
    have hall : ∀ x ∈ [a, b, c], x.enc = c.enc := by
      intro x hx
      simp only [List.mem_cons, List.not_mem_nil, or_false] at hx
      rcases hx with rfl | rfl | rfl
      · exact hab.trans hbc
      · exact hbc
      · rfl
    intro x hx y hy
    exact (hall x hx).trans (hall y hy).symm
  exact ⟨fun h => h.prefixFree henc, fun h => h.stringOrder henc⟩

/-- Three strings with a zero byte inside, in an encoding without conversions. -/
theorem string_order_sample :
    StringOrder (fun _ : Unit => false) () (fun _ _ b => some b)
      [⟨[97, 0, 98], ()⟩, ⟨[97, 0, 99], ()⟩, ⟨[200], ()⟩] :=
  (string_order_iff ⟨[97, 0, 98], ()⟩ ⟨[97, 0, 99], ()⟩ ⟨[200], ()⟩ rfl rfl).mpr (by decide)

/-- The empty string and `"x"` both come after the other, and `compareSoft` takes `"a"` and `"ab"`
for equal, although they are not for `equalSoft`. -/
theorem string_order_fails :
    let empty : QString Unit := ⟨[], ()⟩
    let x : QString Unit := ⟨[120], ()⟩
    let a : QString Unit := ⟨[97], ()⟩
    let ab : QString Unit := ⟨[97, 98], ()⟩
    let convert : Unit → Unit → List UInt8 → Option (List UInt8) := fun _ _ b => some b
    (empty.compare x = 1 ∧ x.compare empty = 1) ∧
      (a.compareSoft convert ab = 0 ∧ a.equalSoft (fun _ => false) () convert ab = false) ∧
      ¬ StringOrder (fun _ => false) () convert [empty, x, x] ∧
      ¬ StringOrder (fun _ => false) () convert [a, ab, ab] := by
  intro empty x a ab convert
  refine ⟨by decide, by decide, ?_, ?_⟩
  · intro h
    exact absurd (h.antisymm empty (by simp) x (by simp)) (by decide)
  · intro h
    exact absurd (h.soft a (by simp) ab (by simp)) (by decide)

end

end Qore.Text
