import Mathlib
import Qore.Lib.Outcome
import Qore.Text.Base64

/-!
# `Qore.Text.Base64RoundTrip`: reading base64 and hexadecimal texts back

The reader skips a line break in front of a character but not in front of `=`, so bytes that need
padding are lost when the line ends right before the padding. The padding is not counted for the
length of a line. And the length of a text is read as an `int`.

* `base64_roundTrip_iff`: when bytes come back through the texts, and the lines are short enough.
-/

set_option autoImplicit false

namespace Qore.Text

open Qore.Lib
open Qore.Stream (Fault Exception)

/-! ### Six bits -/

variable {v : UInt8}

/-- A value that has only bits of a mask is not above it. -/
theorem lt_of_and {mask bound : UInt8} (h : v &&& mask = v) (hmask : mask < bound) : v < bound := by
  have hle : v.toNat &&& mask.toNat ≤ mask.toNat := Nat.and_le_right
  have hval := congrArg UInt8.toNat h
  rw [UInt8.toNat_and] at hval
  rw [UInt8.lt_iff_toNat_lt] at hmask ⊢
  omega

theorem lt_of_and_63 (h : v &&& 63 = v) : v < 64 := lt_of_and h (by decide)

theorem sextet_first (a : UInt8) : a >>> 2 < 64 := by
  refine lt_of_and_63 (UInt8.toBitVec_inj.mp ?_)
  ext i hi
  interval_cases i <;> simp

theorem sextet_second (a b : UInt8) : (a &&& 3) <<< 4 ||| b >>> 4 < 64 := by
  refine lt_of_and_63 (UInt8.toBitVec_inj.mp ?_)
  ext i hi
  interval_cases i <;> simp

theorem sextet_third (b c : UInt8) : (b &&& 15) <<< 2 ||| c >>> 6 < 64 := by
  refine lt_of_and_63 (UInt8.toBitVec_inj.mp ?_)
  ext i hi
  interval_cases i <;> simp

theorem sextet_fourth (c : UInt8) : c &&& 63 < 64 := by
  refine lt_of_and_63 (UInt8.toBitVec_inj.mp ?_)
  ext i hi
  simp

/-- The first byte of a group. -/
theorem byte_first (a b : UInt8) : (a >>> 2) <<< 2 ||| ((a &&& 3) <<< 4 ||| b >>> 4) >>> 4 = a := by
  refine UInt8.toBitVec_inj.mp ?_
  ext i hi
  interval_cases i <;> simp

/-- The second byte of a group. -/
theorem byte_second (a b c : UInt8) :
    (((a &&& 3) <<< 4 ||| b >>> 4) &&& 15) <<< 4 ||| ((b &&& 15) <<< 2 ||| c >>> 6) >>> 2 = b := by
  refine UInt8.toBitVec_inj.mp ?_
  ext i hi
  interval_cases i <;> simp

/-- The third byte of a group. -/
theorem byte_third (b c : UInt8) :
    (((b &&& 15) <<< 2 ||| c >>> 6) &&& 3) <<< 6 ||| (c &&& 63) = c := by
  refine UInt8.toBitVec_inj.mp ?_
  ext i hi
  interval_cases i <;> simp

/-- A missing byte counts as zero. -/
theorem or_zero_shift (x : UInt8) (k : UInt8) : x ||| (0 : UInt8) >>> k = x := by
  simp

/-! ### Characters -/

/-- The value of a character is read back. -/
theorem base64Value_base64Char (url : Bool) (hv : v < 64) :
    base64Value url (base64Char url v) = some v := by
  have hcases : ∀ url, ∀ a < 4, ∀ l < 16,
      base64Value url (base64Char url (UInt8.ofNat (16 * a + l))) =
        some (UInt8.ofNat (16 * a + l)) := by decide
  exact forall_byte_digits (P := fun v => base64Value url (base64Char url v) = some v) (hcases url) v
    (UInt8.lt_iff_toNat_lt.mp hv)

/-- A character of base64-url is a character of base64 with the same value, or in no alphabet. -/
theorem base64Value_urlChar (hv : v < 64) :
    base64Value false (base64Char true v) = if v < 62 then some v else none := by
  have hcases : ∀ a < 4, ∀ l < 16,
      base64Value false (base64Char true (UInt8.ofNat (16 * a + l))) =
        if UInt8.ofNat (16 * a + l) < 62 then some (UInt8.ofNat (16 * a + l)) else none := by
    decide
  exact forall_byte_digits
    (P := fun v => base64Value false (base64Char true v) = if v < 62 then some v else none)
    hcases v (UInt8.lt_iff_toNat_lt.mp hv)

/-- A character with a value is no line break, no `=` and not the terminator. -/
theorem special_of_value {url : Bool} {c : UInt8} (h : base64Value url c = some v) :
    isBreak c = false ∧ c ≠ 0 ∧ c ≠ byteOf '=' := by
  have hcases : ∀ url, ∀ a < 16, ∀ l < 16,
      (base64Value url (UInt8.ofNat (16 * a + l))).isSome = true →
        isBreak (UInt8.ofNat (16 * a + l)) = false ∧ UInt8.ofNat (16 * a + l) ≠ 0 ∧
          UInt8.ofNat (16 * a + l) ≠ byteOf '=' := by
    decide
  exact forall_byte_digits (P := fun c => (base64Value url c).isSome = true →
    isBreak c = false ∧ c ≠ 0 ∧ c ≠ byteOf '=') (hcases url) c c.toNat_lt (by rw [h]; rfl)

/-! ### Reading at a place of the text -/

/-- The bytes `rest` are left at `pos`. -/
def Left (buf : List UInt8) (pos : Nat) (rest : List UInt8) : Prop :=
  ∃ before, buf = before ++ rest ∧ pos = before.length

section
variable {buf rest : List UInt8} {pos : Nat} {c : UInt8} {lead : List UInt8}

theorem Left.append {xs : List UInt8} (h : Left buf pos (xs ++ rest)) :
    Left buf (pos + xs.length) rest := by
  obtain ⟨before, rfl, rfl⟩ := h
  exact ⟨before ++ xs, (List.append_assoc ..).symm, (List.length_append ..).symm⟩

theorem Left.cons (h : Left buf pos (c :: rest)) : Left buf (pos + 1) rest :=
  @Left.append buf rest pos [c] h

theorem Left.drop (h : Left buf pos rest) : buf.drop pos = rest := by
  obtain ⟨before, rfl, rfl⟩ := h
  exact List.drop_left

theorem Left.length (h : Left buf pos rest) : pos + rest.length = buf.length := by
  obtain ⟨before, rfl, rfl⟩ := h
  exact (List.length_append ..).symm

/-- The byte that is there, or the terminator. -/
theorem Left.charAt (h : Left buf pos rest) : charAt buf pos = .ok (rest.headD 0) := by
  obtain ⟨before, rfl, rfl⟩ := h
  unfold Text.charAt
  rw [List.append_assoc, List.getElem?_append_right (Nat.le_refl _), Nat.sub_self]
  cases rest <;> rfl

/-- What can stand in front of a character: nothing, or a line break. -/
def IsLead (lead : List UInt8) : Prop := lead = [] ∨ lead = crlf

theorem isLead_lineBreak (url : Bool) (m i : Nat) : IsLead (lineBreak url m i) := by
  unfold lineBreak
  split
  · exact .inr rfl
  · exact .inl rfl

/-- A line break is skipped, and nothing else. -/
theorem takeWhile_lead (hlead : IsLead lead) (hhead : isBreak (rest.headD 0) = false) :
    (lead ++ rest).takeWhile isBreak = lead := by
  have hrest : rest.takeWhile isBreak = [] := by
    cases rest with
    | nil => rfl
    | cons c rest => exact List.takeWhile_cons_of_neg (by rw [show isBreak c = false from hhead]; simp)
  rcases hlead with rfl | rfl
  · exact hrest
  · show (13 :: 10 :: rest).takeWhile isBreak = crlf
    rw [List.takeWhile_cons_of_pos rfl, List.takeWhile_cons_of_pos rfl, hrest]
    rfl

/-- A character with a value. -/
theorem getBase64Value_char (end_ok : Bool) {url : Bool} {v : UInt8}
    (h : Left buf pos (lead ++ c :: rest)) (hlead : IsLead lead) (hv : base64Value url c = some v) :
    getBase64Value buf pos end_ok url = .ok (v, pos + lead.length) := by
  have hskip := @takeWhile_lead (c :: rest) lead hlead (special_of_value hv).1
  unfold getBase64Value
  rw [h.drop, hskip]
  dsimp only
  rw [h.append.charAt]
  rw [ok_bind]
  dsimp only [List.headD_cons]
  rw [hv]
  rfl

/-- The end of the text, where it may be. -/
theorem getBase64Value_end (url : Bool) (h : Left buf pos (lead ++ [])) (hlead : IsLead lead) :
    getBase64Value buf pos true url = .ok (255, pos + lead.length) := by
  have hskip := @takeWhile_lead [] lead hlead rfl
  have hnone : base64Value url 0 = none := by cases url <;> decide
  unfold getBase64Value
  rw [h.drop, hskip]
  dsimp only
  rw [h.append.charAt, ok_bind]
  dsimp only [List.headD_nil]
  rw [hnone]
  rfl

/-- A character without a value, where a value has to be. -/
theorem getBase64Value_error (end_ok : Bool) {url : Bool} (h : Left buf pos (lead ++ rest))
    (hlead : IsLead lead) (hhead : isBreak (rest.headD 0) = false)
    (hv : base64Value url (rest.headD 0) = none) (hend : end_ok = true → rest.headD 0 ≠ 0) :
    ∃ e, getBase64Value buf pos end_ok url = .error (.exception e) := by
  have hskip := takeWhile_lead hlead hhead
  unfold getBase64Value
  rw [h.drop, hskip]
  dsimp only
  rw [h.append.charAt, ok_bind, hv]
  dsimp only
  split
  · rename_i hzero
    rw [if_neg fun hok => hend hok hzero]
    exact ⟨_, rfl⟩
  · split
    · exact ⟨_, rfl⟩
    · exact ⟨_, rfl⟩

/-! ### Groups -/

theorem putByte_room {cap : Nat} {binbuf : List UInt8} (h : binbuf.length < cap) (b : UInt8) :
    putByte cap binbuf b = .ok (binbuf ++ [b]) := if_pos h

theorem endsGroup_char {url : Bool} {v : UInt8} (hlead : IsLead lead)
    (hv : base64Value url c = some v) : endsGroup url ((lead ++ c :: rest).headD 0) = false := by
  obtain ⟨-, hzero, hpad⟩ := special_of_value hv
  rcases hlead with rfl | rfl
  · simp [endsGroup, hzero, hpad]
  · show endsGroup url 13 = false
    cases url <;> decide

variable {len cap fuel : Nat} {url : Bool} {binbuf : List UInt8}
  {lead0 lead1 lead2 lead3 : List UInt8} {c0 c1 c2 c3 v0 v1 v2 v3 : UInt8} {k : Nat} {d e : Bool}
  {m i : Nat} {data : List UInt8}

/-- The first two characters of a group give a byte. -/
theorem parseGroups_two (h : Left buf pos (lead0 ++ c0 :: (lead1 ++ c1 :: rest)))
    (hlead0 : IsLead lead0) (hlead1 : IsLead lead1) (hv0 : base64Value url c0 = some v0)
    (hv1 : base64Value url c1 = some v1) (hpos : pos < len) (hcap : binbuf.length < cap)
    (hk : k = pos + lead0.length + 1 + lead1.length + 1) :
    parseGroups buf len cap url (fuel + 1) pos binbuf = (do
      let binbuf := binbuf ++ [(v0 <<< 2) ||| (v1 >>> 4)]
      if endsGroup url (rest.headD 0) then return binbuf
      let b := (v1 &&& 15) <<< 4
      let (c, pos) ← getBase64Value buf k false url
      let binbuf ← putByte cap binbuf (b ||| (c >>> 2))
      let pos := pos + 1
      let special ← charAt buf pos
      if endsGroup url special then return binbuf
      let b := (c &&& 3) <<< 6
      let (c, pos) ← getBase64Value buf pos false url
      let binbuf ← putByte cap binbuf (b ||| c)
      parseGroups buf len cap url fuel (pos + 1) binbuf) := by
  have hfirst := getBase64Value_char true h hlead0 hv0
  have hsecond := getBase64Value_char false h.append.cons hlead1 hv1
  have hspecial := h.append.cons.append.cons.charAt
  have hzero : ¬c0 = 0 := (special_of_value hv0).2.1
  rw [parseGroups, if_neg (by omega), hfirst, ok_bind]
  dsimp only
  rw [h.append.charAt, ok_bind, List.headD_cons, if_neg hzero, hsecond, ok_bind]
  rw [putByte_room hcap, ok_bind, hspecial, ok_bind, ← hk]

/-- The third character of a group gives another byte. -/
theorem parseGroups_three (h : Left buf pos (lead0 ++ c0 :: (lead1 ++ c1 :: (lead2 ++ c2 :: rest))))
    (hlead0 : IsLead lead0) (hlead1 : IsLead lead1) (hlead2 : IsLead lead2)
    (hv0 : base64Value url c0 = some v0) (hv1 : base64Value url c1 = some v1)
    (hv2 : base64Value url c2 = some v2) (hpos : pos < len) (hcap : binbuf.length + 1 < cap)
    (hk : k = pos + lead0.length + 1 + lead1.length + 1 + lead2.length + 1) :
    parseGroups buf len cap url (fuel + 1) pos binbuf = (do
      let binbuf := binbuf ++ [(v0 <<< 2) ||| (v1 >>> 4), ((v1 &&& 15) <<< 4) ||| (v2 >>> 2)]
      if endsGroup url (rest.headD 0) then return binbuf
      let b := (v2 &&& 3) <<< 6
      let (c, pos) ← getBase64Value buf k false url
      let binbuf ← putByte cap binbuf (b ||| c)
      parseGroups buf len cap url fuel (pos + 1) binbuf) := by
  have hthird := getBase64Value_char false h.append.cons.append.cons hlead2 hv2
  have hspecial := h.append.cons.append.cons.append.cons.charAt
  rw [parseGroups_two h hlead0 hlead1 hv0 hv1 hpos (by omega) rfl]
  dsimp only
  rw [endsGroup_char hlead2 hv2, if_neg (by decide), hthird, ok_bind]
  rw [putByte_room (by rw [List.length_append, List.length_singleton]; exact hcap), ok_bind,
    hspecial, ok_bind, ← hk, List.append_assoc]
  rfl

/-- A full group gives three bytes. -/
theorem parseGroups_four
    (h : Left buf pos
      (lead0 ++ c0 :: (lead1 ++ c1 :: (lead2 ++ c2 :: (lead3 ++ c3 :: rest)))))
    (hlead0 : IsLead lead0) (hlead1 : IsLead lead1) (hlead2 : IsLead lead2)
    (hlead3 : IsLead lead3) (hv0 : base64Value url c0 = some v0)
    (hv1 : base64Value url c1 = some v1) (hv2 : base64Value url c2 = some v2)
    (hv3 : base64Value url c3 = some v3) (hpos : pos < len) (hcap : binbuf.length + 2 < cap) :
    ∃ pos', pos + 4 ≤ pos' ∧ Left buf pos' rest ∧
      parseGroups buf len cap url (fuel + 1) pos binbuf =
        parseGroups buf len cap url fuel pos' (binbuf ++ [(v0 <<< 2) ||| (v1 >>> 4),
          ((v1 &&& 15) <<< 4) ||| (v2 >>> 2), ((v2 &&& 3) <<< 6) ||| v3]) := by
  have hfourth := getBase64Value_char false h.append.cons.append.cons.append.cons
    hlead3 hv3
  refine ⟨_, ?_, h.append.cons.append.cons.append.cons.append.cons, ?_⟩
  · omega
  · rw [parseGroups_three h hlead0 hlead1 hlead2 hv0 hv1 hv2 hpos (by omega) rfl]
    dsimp only
    rw [endsGroup_char hlead3 hv3, if_neg (by decide), hfourth, ok_bind]
    rw [putByte_room (by rw [List.length_append]; exact hcap), ok_bind, List.append_assoc]
    rfl

/-! ### Whole texts -/

/-- Whether the reader finds the end of the last group: there is no padding, or nothing stands
between the last character and the padding. -/
def EndsWell (d e : Bool) (m i n : Nat) : Prop :=
  padCount n = 0 ∨
    endsGroup d ((lineBreak e m (i + sextetCount n) ++ padding e (padCount n)).headD 0) = true

theorem padding_head (d e : Bool) (p : Nat) :
    isBreak ((padding e p).headD 0) = false ∧ base64Value d ((padding e p).headD 0) = none := by
  have hhead : (padding e p).headD 0 = 0 ∨ (padding e p).headD 0 = byteOf '=' := by
    cases e with
    | true => exact .inl rfl
    | false =>
      cases p with
      | zero => exact .inl rfl
      | succ p => exact .inr rfl
  rcases hhead with hhead | hhead
  all_goals
    rw [hhead]
    cases d <;> exact ⟨by decide, by decide⟩

theorem sextetCount_add_three (n : Nat) : sextetCount (n + 3) = sextetCount n + 4 := by
  unfold sextetCount
  omega

/-- Behind the last character of an incomplete group. -/
theorem close_group {α : Type} {p : Nat} {a : α} {f : UInt8 × Nat → Except Fault α}
    (h : Left buf k (lead ++ padding e p)) (hlead : IsLead lead) :
    (endsGroup d ((lead ++ padding e p).headD 0) = true →
      (if endsGroup d ((lead ++ padding e p).headD 0) then Except.ok a
        else getBase64Value buf k false d >>= f) = .ok a) ∧
    (¬endsGroup d ((lead ++ padding e p).headD 0) = true →
      ∃ x, (if endsGroup d ((lead ++ padding e p).headD 0) then Except.ok a
        else getBase64Value buf k false d >>= f) = .error (.exception x)) := by
  have hhead := padding_head d e p
  refine ⟨fun hends => if_pos hends, fun hends => ?_⟩
  obtain ⟨x, hx⟩ := getBase64Value_error false h hlead hhead.1 hhead.2 (fun hok => (by cases hok))
  rw [if_neg hends, hx]
  exact ⟨x, rfl⟩

/-- The text of bytes behind bytes that are read already. -/
theorem parseGroups_wrap (hvals : ∀ v ∈ sextets data, base64Value d (base64Char e v) = some v)
    (h : Left buf pos (lead ++ (wrap e m i (sextets data) ++ padding e (padCount data.length))))
    (hlead : IsLead lead) (hbin : binbuf.length ≤ pos) (hcap : buf.length + 3 ≤ cap)
    (hfuel : buf.length < pos + fuel) :
    (EndsWell d e m i data.length →
      parseGroups buf buf.length cap d fuel pos binbuf = .ok (binbuf ++ data)) ∧
    (¬EndsWell d e m i data.length →
      ∃ x, parseGroups buf buf.length cap d fuel pos binbuf = .error (.exception x)) := by
  have hleads := isLead_lineBreak e m
  have hlen := h.length
  obtain ⟨fuel, rfl⟩ : ∃ k, fuel = k + 1 := ⟨fuel - 1, by omega⟩
  fun_induction sextets data generalizing pos binbuf fuel lead i with
  | case1 =>
    have hends : EndsWell d e m i 0 := .inl rfl
    have hnil : wrap e m i [] ++ padding e (padCount 0) = [] := by cases e <;> rfl
    refine ⟨fun _ => ?_, fun hnot => absurd hends hnot⟩
    rw [List.length_nil, hnil] at h
    rw [List.append_nil]
    rcases hlead with rfl | rfl
    · rw [parseGroups, if_pos]
      rw [← h.length]
      exact Nat.le_refl _
    · have hend := getBase64Value_end d h (.inr rfl)
      have hpos : pos < buf.length := by
        rw [← h.length]
        exact Nat.lt_add_of_pos_right (by decide)
      rw [parseGroups, if_neg (by omega), hend, ok_bind]
      dsimp only
      rw [h.append.charAt]
      rfl
  | case2 p0 =>
    simp only [wrap, List.cons_append, List.append_assoc, List.nil_append] at h
    have hbyte := byte_first p0 0
    rw [or_zero_shift] at hbyte
    have hpos : pos < buf.length := by
      rw [← h.length]
      simp
    have hroom : binbuf.length < cap := by omega
    have hends : EndsWell d e m i 1 ↔
        endsGroup d ((lineBreak e m (i + 1 + 1) ++ padding e (padCount 1)).headD 0) = true :=
      or_iff_right (by decide)
    rw [parseGroups_two h hlead (hleads (i + 1)) (hvals _ (by simp)) (hvals _ (by simp)) hpos hroom
      rfl, hbyte, List.length_singleton, hends]
    exact close_group h.append.cons.append.cons (hleads (i + 1 + 1))
  | case3 p0 p1 =>
    simp only [wrap, List.cons_append, List.append_assoc, List.nil_append] at h
    have hfirst := byte_first p0 p1
    have hsecond := byte_second p0 p1 0
    rw [or_zero_shift] at hsecond
    have hpos : pos < buf.length := by
      rw [← h.length]
      simp
    have hroom : binbuf.length + 1 < cap := by omega
    have hends : EndsWell d e m i 2 ↔
        endsGroup d ((lineBreak e m (i + 1 + 1 + 1) ++ padding e (padCount 2)).headD 0) = true :=
      or_iff_right (by decide)
    rw [parseGroups_three h hlead (hleads (i + 1)) (hleads (i + 2)) (hvals _ (by simp))
      (hvals _ (by simp)) (hvals _ (by simp)) hpos hroom rfl, hfirst, hsecond]
    show (EndsWell d e m i 2 → _) ∧ (¬EndsWell d e m i 2 → _)
    rw [hends]
    exact close_group h.append.cons.append.cons.append.cons (hleads (i + 1 + 1 + 1))
  | case4 p0 p1 p2 p ih =>
    simp only [wrap, List.cons_append, List.append_assoc] at h
    have hlen := h.length
    simp only [List.length_append, List.length_cons] at hlen
    have hpos : pos < buf.length := by omega
    have hroom : binbuf.length + 2 < cap := by omega
    obtain ⟨fuel, rfl⟩ : ∃ k, fuel = k + 1 := ⟨fuel - 1, by omega⟩
    obtain ⟨pos', hnext, hleft, hstep⟩ := parseGroups_four h hlead (hleads (i + 1))
      (hleads (i + 2)) (hleads (i + 3)) (hvals _ (by simp)) (hvals _ (by simp)) (hvals _ (by simp))
      (hvals _ (by simp)) hpos hroom
    have hends : EndsWell d e m i (p0 :: p1 :: p2 :: p).length ↔ EndsWell d e m (i + 4) p.length := by
      unfold EndsWell
      rw [List.length_cons, List.length_cons, List.length_cons, padCount_add_three,
        sextetCount_add_three, Nat.add_assoc i, Nat.add_comm 4]
    have hpad : padCount (p0 :: p1 :: p2 :: p).length = padCount p.length := padCount_add_three _
    rw [hpad] at hleft
    have hbin' : (binbuf ++ [p0, p1, p2]).length ≤ pos' := by
      rw [List.length_append]
      show binbuf.length + 3 ≤ pos'
      omega
    have hrest := ih (fun v hv => hvals v (by simp [hv])) hleft (hleads (i + 4)) hbin' hleft.length
      fuel (by omega)
    rw [hends, hstep, byte_first, byte_second, byte_third]
    rw [List.append_assoc] at hrest
    exact hrest

/-- There is never more in the buffer than it has room for. -/
theorem parseGroups_fits (h : binbuf.length ≤ cap) :
    Ends (parseGroups buf len cap url fuel pos binbuf) (fun out => out.length ≤ cap)
      fun _ => True := by
  have hput : ∀ (binbuf : List UInt8) (b : UInt8),
      Ends (putByte cap binbuf b) (fun out => out.length ≤ cap) fun _ => True := by
    intro binbuf b
    unfold putByte
    split
    · rename_i hroom
      refine Ends.ok ?_
      rw [List.length_append, List.length_singleton]
      exact hroom
    · exact Ends.error trivial
  have hany : ∀ {α : Type} (x : Except Fault α), Ends x (fun _ => True) fun _ => True := by
    intro α x
    cases x <;> exact trivial
  induction fuel generalizing pos binbuf with
  | zero => exact Ends.error trivial
  | succ fuel ih =>
    rw [parseGroups]
    split
    · exact Ends.ok h
    refine (hany _).bind fun first _ => (hany _).bind fun c _ => ?_
    split
    · exact Ends.ok h
    refine (hany _).bind fun second _ => (hput _ _).bind fun binbuf hbinbuf =>
      (hany _).bind fun special _ => ?_
    split
    · exact Ends.ok hbinbuf
    refine (hany _).bind fun third _ => (hput _ _).bind fun binbuf hbinbuf =>
      (hany _).bind fun special _ => ?_
    split
    · exact Ends.ok hbinbuf
    exact (hany _).bind fun fourth _ => (hput _ _).bind fun binbuf hbinbuf => ih hbinbuf

/-- A line break has at most two characters. -/
theorem length_lead_le (h : IsLead lead) : lead.length ≤ 2 := by
  rcases h with rfl | rfl
  · exact Nat.zero_le 2
  · exact Nat.le_refl 2

theorem length_wrap_le (e : Bool) (m i : Nat) (vs : List UInt8) :
    (wrap e m i vs).length ≤ 3 * vs.length := by
  induction vs generalizing i with
  | nil => exact Nat.le_refl 0
  | cons v vs ih =>
    have hrest := ih (i + 1)
    have hbreak := length_lead_le (isLead_lineBreak e m (i + 1))
    rw [wrap, List.length_cons, List.length_cons, List.length_append]
    omega

theorem length_padding_le (e : Bool) (n : Nat) : (padding e (padCount n)).length ≤ 2 := by
  have hle : padCount n ≤ 2 := by
    unfold padCount
    omega
  cases e with
  | true => exact Nat.zero_le 2
  | false =>
    show (List.replicate (padCount n) (byteOf '=')).length ≤ 2
    rw [List.length_replicate]
    exact hle

/-- Where many characters are left there are more than three bytes. -/
theorem many_left (data : List UInt8)
    (h : Left buf pos (lead ++ (wrap e m i (sextets data) ++ padding e (padCount data.length))))
    (hlead : IsLead lead) (hshort : len + 16 < buf.length) (hpos : pos < len) :
    3 < data.length := by
  have hlen := h.length
  have hlead' := length_lead_le hlead
  have hwrap := length_wrap_le e m i (sextets data)
  have hpad := length_padding_le e data.length
  rw [List.length_append, List.length_append] at hlen
  rw [length_sextets] at hwrap
  unfold sextetCount at hwrap
  omega

/-- A reader that is told a much smaller length stops before the last bytes. -/
theorem parseGroups_short (hvals : ∀ v ∈ sextets data, base64Value d (base64Char e v) = some v)
    (h : Left buf pos (lead ++ (wrap e m i (sextets data) ++ padding e (padCount data.length))))
    (hlead : IsLead lead) (hbin : binbuf.length ≤ pos) (hcap : len + 3 ≤ cap)
    (hfuel : buf.length < pos + fuel) (hshort : len + 16 < buf.length) (hne : data ≠ []) :
    ∃ out, parseGroups buf len cap d fuel pos binbuf = .ok out ∧
      out.length < binbuf.length + data.length := by
  have hleads := isLead_lineBreak e m
  have hlen := h.length
  obtain ⟨fuel, rfl⟩ : ∃ k, fuel = k + 1 := ⟨fuel - 1, by omega⟩
  fun_induction sextets data generalizing pos binbuf fuel lead i with
  | case1 => exact absurd rfl hne
  | case2 p0 =>
    by_cases hstop : len ≤ pos
    · exact ⟨binbuf, by rw [parseGroups, if_pos hstop], Nat.lt_add_one _⟩
    · have hmany := many_left [p0] h hlead hshort (Nat.lt_of_not_le hstop)
      exact absurd hmany (by simp)
  | case3 p0 p1 =>
    by_cases hstop : len ≤ pos
    · exact ⟨binbuf, by rw [parseGroups, if_pos hstop], Nat.lt_add_of_pos_right (by simp)⟩
    · have hmany := many_left [p0, p1] h hlead hshort (Nat.lt_of_not_le hstop)
      exact absurd hmany (by simp)
  | case4 p0 p1 p2 p ih =>
    by_cases hstop : len ≤ pos
    · refine ⟨binbuf, by rw [parseGroups, if_pos hstop], ?_⟩
      simp only [List.length_cons]
      omega
    have hmany := many_left (p0 :: p1 :: p2 :: p) h hlead hshort (Nat.lt_of_not_le hstop)
    have hp : p ≠ [] := by
      rintro rfl
      exact absurd hmany (Nat.lt_irrefl 3)
    simp only [wrap, List.cons_append, List.append_assoc] at h
    have hroom : binbuf.length + 2 < cap := by omega
    obtain ⟨fuel, rfl⟩ : ∃ k, fuel = k + 1 := ⟨fuel - 1, by omega⟩
    obtain ⟨pos', hnext, hleft, hstep⟩ := parseGroups_four h hlead (hleads (i + 1))
      (hleads (i + 2)) (hleads (i + 3)) (hvals _ (by simp)) (hvals _ (by simp)) (hvals _ (by simp))
      (hvals _ (by simp)) (by omega : pos < len) hroom
    have hpad : padCount (p0 :: p1 :: p2 :: p).length = padCount p.length := padCount_add_three _
    rw [hpad] at hleft
    rw [byte_first, byte_second, byte_third] at hstep
    have hbin' : (binbuf ++ [p0, p1, p2]).length ≤ pos' := by
      rw [List.length_append]
      show binbuf.length + 3 ≤ pos'
      omega
    obtain ⟨out, hout, hless⟩ := ih (fun v hv => hvals v (by simp [hv])) hleft (hleads (i + 4))
      hbin' hp hleft.length fuel (by omega)
    refine ⟨out, hstep.trans hout, ?_⟩
    simp only [List.length_append, List.length_cons, List.length_nil] at hless ⊢
    omega

/-! ### Lengths as `int` -/

theorem length_wrap_ge (e : Bool) (m i : Nat) (vs : List UInt8) :
    vs.length ≤ (wrap e m i vs).length := by
  induction vs generalizing i with
  | nil => exact Nat.le_refl 0
  | cons v vs ih =>
    have hrest := ih (i + 1)
    rw [wrap, List.length_cons, List.length_cons, List.length_append]
    omega

/-- With a length that is not positive, not the length of a buffer, or much too small, not all bytes
are read. -/
theorem parseBase64Intern_long (hvals : ∀ v ∈ sextets data, base64Value d (base64Char e v) = some v)
    (hleft : Left buf 0 ([] ++ (wrap e m 0 (sextets data) ++ padding e (padCount data.length))))
    (hmany : 3 < data.length) {t : Int} (ht : t ≤ 0 ∨ 2147483644 < t ∨ t + 16 < buf.length)
    {out : List UInt8} (hok : parseBase64Intern buf t d = .ok out) : out.length < data.length := by
  unfold parseBase64Intern at hok
  by_cases hzero : t = 0
  · rw [if_pos hzero] at hok
    rw [← Except.ok.inj hok]
    exact Nat.lt_of_le_of_lt (Nat.zero_le 3) hmany
  rw [if_neg hzero] at hok
  by_cases hfits : FitsInt (t + 3)
  swap
  · rw [checkedInt_of_not_fits hfits] at hok
    cases hok
  rw [checkedInt_of_fits hfits] at hok
  dsimp only at hok
  by_cases hneg : t < 0
  · -- the buffer has no room for three bytes
    have hroom : Ends (parseGroups buf (toSize t) (t + 3).toNat d (buf.length + 1) 0 [])
        (fun out => out.length ≤ (t + 3).toNat) fun _ => True := parseGroups_fits (Nat.zero_le _)
    rw [hok] at hroom
    have htwo : (t + 3).toNat ≤ 2 := by omega
    exact (hroom.trans htwo).trans_lt (by omega)
  · have hsize : toSize t = t.toNat := toSize_of_nonneg (by omega)
    have hcap : t.toNat + 3 ≤ (t + 3).toNat := by omega
    have hne : data ≠ [] := List.ne_nil_of_length_pos (by omega)
    have hshort : t.toNat + 16 < buf.length := by
      unfold FitsInt at hfits
      omega
    have hfuel : buf.length < 0 + (buf.length + 1) := by omega
    have hempty : ([] : List UInt8).length ≤ 0 := Nat.le_refl 0
    obtain ⟨out, hout, hless⟩ :=
      parseGroups_short hvals hleft (.inl rfl) hempty hcap hfuel hshort hne
    rw [hsize, hout] at hok
    cases hok
    rw [List.length_nil, Nat.zero_add] at hless
    exact hless

/-- A text whose characters have values is read back when it is short enough for an `int` and the
end of the last group is found. Else there are fewer bytes, if any. -/
theorem parseBase64Intern_text (hvals : ∀ v ∈ sextets data, base64Value d (base64Char e v) = some v)
    (hbuf : buf = wrap e m 0 (sextets data) ++ padding e (padCount data.length)) :
    (buf.length ≤ 2147483644 ∧ EndsWell d e m 0 data.length →
      parseBase64Intern buf (truncInt buf.length) d = .ok data) ∧
    ∀ out, parseBase64Intern buf (truncInt buf.length) d = .ok out →
      (buf.length ≤ 2147483644 ∧ EndsWell d e m 0 data.length) ∨ out.length < data.length := by
  have hleft : Left buf 0 ([] ++ (wrap e m 0 (sextets data) ++
    padding e (padCount data.length))) := ⟨[], hbuf, rfl⟩
  have hge := length_wrap_ge e m 0 (sextets data)
  have hle := length_wrap_le e m 0 (sextets data)
  have hpad := length_padding_le e data.length
  have hlen := congrArg List.length hbuf
  rw [List.length_append] at hlen
  rw [length_sextets] at hge hle
  by_cases hsmall : buf.length ≤ 2147483644
  · have htrunc : truncInt buf.length = buf.length := truncInt_of_fits (by unfold FitsInt; omega)
    have hadd : checkedInt ((buf.length : Int) + 3) = some ((buf.length : Int) + 3) :=
      checkedInt_of_fits (by unfold FitsInt; omega)
    unfold parseBase64Intern
    rw [htrunc]
    by_cases hnil : buf.length = 0
    · have hdata : data = [] := by
        refine List.eq_nil_of_length_eq_zero ?_
        unfold sextetCount at hge
        omega
      subst hdata
      rw [if_pos (by omega)]
      exact ⟨fun _ => rfl, fun _ _ => .inl ⟨hsmall, .inl rfl⟩⟩
    · have hsize : toSize (buf.length : Int) = buf.length := by
        rw [toSize_of_nonneg (by omega), Int.toNat_natCast]
      have hcap : buf.length + 3 ≤ ((buf.length : Int) + 3).toNat := by omega
      have hfuel : buf.length < 0 + (buf.length + 1) := by omega
      have hempty : ([] : List UInt8).length ≤ 0 := Nat.le_refl 0
      have hwrap := parseGroups_wrap hvals hleft (.inl rfl) hempty hcap hfuel
      rw [if_neg (by omega), hadd]
      dsimp only
      rw [hsize]
      refine ⟨fun h => hwrap.1 h.2, fun out hok => .inl ⟨hsmall, ?_⟩⟩
      by_contra hnot
      obtain ⟨x, hx⟩ := hwrap.2 hnot
      rw [hx] at hok
      cases hok
  · have hmany : 3 < data.length := by
      unfold sextetCount at hle
      omega
    refine ⟨fun h => absurd h.1 hsmall, fun out hok => .inr ?_⟩
    refine parseBase64Intern_long hvals hleft hmany ?_ hok
    unfold truncInt
    omega

/-- The characters of the text are read one by one, up to one without a value. -/
theorem getBase64Value_plain (hplain : ∀ c ∈ buf, isBreak c = false ∧ c ≠ 0)
    (h : Left buf pos rest) (end_ok : Bool) (hne : end_ok = true → rest ≠ []) :
    Ends (getBase64Value buf pos end_ok false)
      (fun r => r.2 = pos ∧ ∃ c rest', rest = c :: rest' ∧ c ≠ 0 ∧
        (base64Value false c).isSome = true) fun _ => True := by
  cases rest with
  | nil =>
    have hend : end_ok = false := by
      cases end_ok with
      | true => exact absurd rfl (hne rfl)
      | false => rfl
    subst hend
    have hleft : Left buf pos ([] ++ []) := h
    obtain ⟨x, hx⟩ := getBase64Value_error false hleft (.inl rfl) (by decide)
      (by decide : base64Value false 0 = none) (fun hok => (by cases hok))
    rw [hx]
    exact Ends.error trivial
  | cons c rest =>
    have hc : c ∈ buf := by
      obtain ⟨before, rfl, -⟩ := h
      simp
    obtain ⟨hbreak, hzero⟩ := hplain c hc
    have hleft : Left buf pos ([] ++ c :: rest) := h
    rcases hv : base64Value false c with - | v
    · have hend : end_ok = true → (c :: rest).headD 0 ≠ 0 := fun _ => hzero
      obtain ⟨x, hx⟩ := getBase64Value_error end_ok hleft (.inl rfl) hbreak hv hend
      rw [hx]
      exact Ends.error trivial
    · rw [getBase64Value_char end_ok hleft (.inl rfl) hv]
      exact Ends.ok ⟨rfl, c, rest, rfl, hzero, by rw [hv]; rfl⟩

/-- When a text is read to its end, every character has a value. -/
theorem parseGroups_plain (hplain : ∀ c ∈ buf, isBreak c = false ∧ c ≠ 0 ∧ c ≠ byteOf '=')
    (h : Left buf pos rest) :
    Ends (parseGroups buf buf.length cap false fuel pos binbuf)
      (fun _ => ∀ c ∈ rest, (base64Value false c).isSome = true) fun _ => True := by
  have hany : ∀ {α : Type} (x : Except Fault α), Ends x (fun _ => True) fun _ => True := by
    intro α x
    cases x <;> exact trivial
  have hplain' : ∀ c ∈ buf, isBreak c = false ∧ c ≠ 0 := fun c hc =>
    ⟨(hplain c hc).1, (hplain c hc).2.1⟩
  have hnot : ∀ {k : Nat} {rest : List UInt8}, Left buf k rest →
      endsGroup false (rest.headD 0) = false := by
    intro k rest hleft
    cases rest with
    | nil => decide
    | cons c rest =>
      obtain ⟨before, rfl, -⟩ := hleft
      have hpad := (hplain c (by simp)).2.2
      simp [endsGroup, hpad]
  induction fuel generalizing pos rest binbuf with
  | zero => exact Ends.error trivial
  | succ fuel ih =>
    rw [parseGroups]
    have hlen := h.length
    split
    · rename_i hstop
      refine Ends.ok ?_
      have hnil : rest = [] := List.eq_nil_of_length_eq_zero (by omega)
      rw [hnil]
      exact fun c hc => absurd hc List.not_mem_nil
    have hne : rest ≠ [] := List.ne_nil_of_length_pos (by omega)
    refine (getBase64Value_plain hplain' h true fun _ => hne).bind ?_
    rintro ⟨v0, p⟩ ⟨hp, c0, rest0, rfl, hzero, hc0⟩
    dsimp only at hp ⊢
    subst hp
    rw [h.charAt, ok_bind, List.headD_cons, if_neg hzero]
    refine (getBase64Value_plain hplain' h.cons false (fun hok => (by cases hok))).bind ?_
    rintro ⟨v1, p⟩ ⟨hp, c1, rest1, rfl, -, hc1⟩
    subst hp
    refine (hany _).bind fun binbuf1 _ => ?_
    rw [h.cons.cons.charAt, ok_bind, hnot h.cons.cons, if_neg (by decide)]
    refine (getBase64Value_plain hplain' h.cons.cons false (fun hok => (by cases hok))).bind ?_
    rintro ⟨v2, p⟩ ⟨hp, c2, rest2, rfl, -, hc2⟩
    subst hp
    refine (hany _).bind fun binbuf2 _ => ?_
    rw [h.cons.cons.cons.charAt, ok_bind, hnot h.cons.cons.cons, if_neg (by decide)]
    refine (getBase64Value_plain hplain' h.cons.cons.cons false (fun hok => (by cases hok))).bind ?_
    rintro ⟨v3, p⟩ ⟨hp, c3, rest3, rfl, -, hc3⟩
    subst hp
    refine (hany _).bind fun binbuf3 _ => ?_
    refine (ih h.cons.cons.cons.cons).mono ?_ fun _ _ => trivial
    intro _ hrest c hc
    simp only [List.mem_cons] at hc
    rcases hc with rfl | rfl | rfl | rfl | hc
    · exact hc0
    · exact hc1
    · exact hc2
    · exact hc3
    · exact hrest c hc

end

/-! ### Base64 -/

theorem sextets_lt (data : List UInt8) : ∀ v ∈ sextets data, v < 64 := by
  fun_induction sextets data with
  | case1 => exact fun v hv => absurd hv List.not_mem_nil
  | case2 p0 =>
    have hsecond := sextet_second p0 0
    rw [or_zero_shift] at hsecond
    simp only [List.mem_cons, List.not_mem_nil, or_false]
    rintro v (rfl | rfl)
    · exact sextet_first p0
    · exact hsecond
  | case3 p0 p1 =>
    have hthird := sextet_third p1 0
    rw [or_zero_shift] at hthird
    simp only [List.mem_cons, List.not_mem_nil, or_false]
    rintro v (rfl | rfl | rfl)
    · exact sextet_first p0
    · exact sextet_second p0 p1
    · exact hthird
  | case4 p0 p1 p2 p ih =>
    simp only [List.mem_cons]
    rintro v (rfl | rfl | rfl | rfl | hv)
    · exact sextet_first p0
    · exact sextet_second p0 p1
    · exact sextet_third p1 p2
    · exact sextet_fourth p2
    · exact ih v hv

/-- The end of the last group is not found when a line ends there. -/
theorem endsWell_base64_iff (m n : Nat) :
    EndsWell false false m 0 n ↔ n % 3 = 0 ∨ sextetCount n % m ≠ 0 := by
  have hpad : padCount n = 0 ↔ n % 3 = 0 := by
    unfold padCount
    omega
  unfold EndsWell
  rw [hpad, Nat.zero_add]
  by_cases hfull : n % 3 = 0
  · exact iff_of_true (.inl hfull) (.inl hfull)
  rw [or_iff_right hfull, or_iff_right hfull]
  by_cases hbreak : sextetCount n % m = 0
  · have hline : lineBreak false m (sextetCount n) = crlf := if_pos ⟨rfl, hbreak⟩
    rw [hline]
    exact iff_of_false (by simp [crlf, endsGroup, byteOf]) (not_not_intro hbreak)
  · have hline : lineBreak false m (sextetCount n) = [] := if_neg fun h => hbreak h.2
    obtain ⟨k, hk⟩ : ∃ k, padCount n = k + 1 :=
      ⟨padCount n - 1, by have := mt hpad.mp hfull; omega⟩
    rw [hline, hk]
    exact iff_of_true rfl hbreak

/-- In base64-url the end of the text is the end of the last group. -/
theorem endsWell_url (m n : Nat) : EndsWell true true m 0 n := by
  exact .inr rfl

/-- Base64 needs padding. -/
theorem endsWell_foreign_iff (m n : Nat) : EndsWell false true m 0 n ↔ n % 3 = 0 := by
  have hline : lineBreak true m (0 + sextetCount n) = [] := if_neg fun h => (by cases h.1)
  have hnot : ¬endsGroup false (([] ++ padding true (padCount n)).headD 0) = true := by
    show ¬endsGroup false 0 = true
    decide
  unfold EndsWell
  rw [hline, or_iff_left hnot]
  unfold padCount
  omega

/-! ### Lines -/

/-- No line has more than `m` characters; `col` of them stand before the text. -/
def LinesFit (m : Nat) : Nat → List UInt8 → Prop
  | _, [] => True
  | col, c :: text => if isBreak c then LinesFit m 0 text else col < m ∧ LinesFit m (col + 1) text

theorem linesFit_padding (m col n : Nat) :
    LinesFit m col (List.replicate n (byteOf '=')) ↔ n = 0 ∨ col + n ≤ m := by
  induction n generalizing col with
  | zero => exact iff_of_true trivial (.inl rfl)
  | succ n ih =>
    rw [List.replicate_succ, LinesFit, if_neg (by decide), ih]
    omega

variable {m : Nat}

/-- The line breaks keep the lines short. -/
theorem linesFit_wrap (hm : 0 < m) (i : Nat) {vs : List UInt8} (hvs : ∀ v ∈ vs, v < 64)
    (text : List UInt8) :
    LinesFit m (i % m) (wrap false m i vs ++ text) ↔ LinesFit m ((i + vs.length) % m) text := by
  induction vs generalizing i with
  | nil => exact Iff.rfl
  | cons v vs ih =>
    have hv := base64Value_base64Char false (hvs v (List.mem_cons_self ..))
    have hnext := ih (i + 1) fun w hw => hvs w (List.mem_cons_of_mem _ hw)
    have hsucc := succ_mod_eq hm i
    have hend : i + (v :: vs).length = i + 1 + vs.length := by
      rw [List.length_cons]
      omega
    have hbreak : LinesFit m (i % m + 1) (lineBreak false m (i + 1) ++ (wrap false m (i + 1) vs ++
        text)) ↔ LinesFit m ((i + 1) % m) (wrap false m (i + 1) vs ++ text) := by
      unfold lineBreak
      by_cases hlast : i % m + 1 = m
      · rw [if_pos hlast] at hsucc
        rw [hsucc, if_pos ⟨rfl, rfl⟩]
        exact Iff.rfl
      · rw [if_neg hlast] at hsucc
        rw [hsucc, if_neg fun h => Nat.succ_ne_zero _ h.2]
        exact Iff.rfl
    rw [wrap, List.cons_append, List.append_assoc, LinesFit, if_neg (by
      rw [(special_of_value hv).1]
      decide), hbreak, hnext, hend]
    exact and_iff_right (Nat.mod_lt i hm)

/-! ### Hexadecimal digits -/

theorem getNibble_hexChar {b : UInt8} (h : b < 16) : getNibble (hexChar b) = .ok b := by
  have hcases : ∀ n < 16, getNibble (hexChar (UInt8.ofNat n)) = .ok (UInt8.ofNat n) := by
    intro n hn
    interval_cases n <;> rfl
  exact forall_byte_lt (P := fun b => getNibble (hexChar b) = .ok b) hcases b
    (UInt8.lt_iff_toNat_lt.mp h)

theorem high_nibble_lt (b : UInt8) : (b &&& 0xf0) >>> 4 < 16 := by
  have hand : ((b &&& 0xf0) >>> 4) &&& (15 : UInt8) = (b &&& 0xf0) >>> 4 := by
    refine UInt8.toBitVec_inj.mp ?_
    ext i hi
    interval_cases i <;> simp
  exact lt_of_and hand (by decide)

theorem low_nibble_lt (b : UInt8) : b &&& 0x0f < 16 := by
  have hand : (b &&& 0x0f) &&& (15 : UInt8) = b &&& 0x0f := by
    refine UInt8.toBitVec_inj.mp ?_
    ext i hi
    simp
  exact lt_of_and hand (by decide)

theorem byte_nibbles (b : UInt8) : ((b &&& 0xf0) >>> 4) <<< 4 ||| (b &&& 0x0f) = b := by
  refine UInt8.toBitVec_inj.mp ?_
  ext i hi
  interval_cases i <;> simp

variable {data : List UInt8}

/-- As many bytes are read as there are rounds. -/
theorem parseNibbles_concatHex {n : Nat} (h : n ≤ data.length) (binbuf : List UInt8) :
    parseNibbles n (concatHex [] data) binbuf = .ok (binbuf ++ data.take n) := by
  induction data generalizing n binbuf with
  | nil =>
    rw [Nat.eq_zero_of_le_zero h, List.take_nil, List.append_nil]
    rfl
  | cons b data ih =>
    cases n with
    | zero =>
      rw [List.take_zero, List.append_nil]
      rfl
    | succ n =>
      have hrest := ih (Nat.le_of_succ_le_succ h) (binbuf ++ [b])
      have htext : concatHex [] (b :: data) =
          hexChar ((b &&& 0xf0) >>> 4) :: hexChar (b &&& 0x0f) :: concatHex [] data := rfl
      rw [htext, parseNibbles, getNibble_hexChar (high_nibble_lt b), ok_bind,
        getNibble_hexChar (low_nibble_lt b), ok_bind, byte_nibbles, hrest, List.append_assoc]
      rfl

theorem length_concatHex (data : List UInt8) : (concatHex [] data).length = 2 * data.length := by
  induction data with
  | nil => rfl
  | cons b data ih =>
    have htext : concatHex [] (b :: data) =
        hexChar ((b &&& 0xf0) >>> 4) :: hexChar (b &&& 0x0f) :: concatHex [] data := rfl
    rw [htext, List.length_cons, List.length_cons, ih, List.length_cons]
    omega

/-- Bytes are read back from their digits when the number of digits is an `int`. -/
theorem parseHex_concatHex_iff (data : List UInt8) :
    parseHex (concatHex [] data) = .ok data ↔ 2 * data.length ≤ 2147483647 := by
  obtain ⟨t, ht⟩ : ∃ t, t = truncInt (concatHex [] data).length := ⟨_, rfl⟩
  have hlen := length_concatHex data
  have heven : t.tdiv 2 * 2 = t := by
    have hmod : t % 2 = 0 := by
      rw [ht, hlen]
      unfold truncInt
      omega
    exact Int.tdiv_mul_cancel (Int.dvd_of_emod_eq_zero hmod)
  have hrange : (t / 2).toNat ≤ data.length := by
    rw [ht, hlen]
    unfold truncInt
    omega
  unfold parseHex parseHexIntern
  rw [← ht]
  have hread : (if t = 0 then .ok [] else if t.tdiv 2 * 2 ≠ t then
      let digits := if t = 1 then "digit" else "digits"
      .error (.exception ⟨"PARSE-HEX-ERROR",
        s!"cannot parse an odd number of hex digits ({t} {digits})"⟩)
      else parseNibbles (t / 2).toNat (concatHex [] data) [] : Except Fault (List UInt8)) =
        .ok (data.take (t / 2).toNat) := by
    split
    · rename_i hzero
      rw [hzero]
      rfl
    · rw [if_neg (not_not_intro heven), parseNibbles_concatHex hrange]
      rfl
  rw [hread]
  constructor
  · intro hok
    have htake := congrArg List.length (Except.ok.inj hok)
    rw [List.length_take] at htake
    unfold truncInt at ht
    omega
  · intro hsmall
    have hall : (t / 2).toNat = data.length := by
      rw [ht, hlen]
      unfold truncInt
      omega
    rw [hall, List.take_length]

/-! ### Round trips -/

/-- How long the base64 text of `n` bytes is, with line breaks. -/
def base64Length (m n : Nat) : Nat := sextetCount n + 2 * (sextetCount n / m) + padCount n

theorem length_concatBase64 (hm : 0 < m) (data : List UInt8) :
    (concatBase64 [] data m false).length = base64Length m data.length := by
  have hwrap := length_wrap m 0 (sextets data)
  have hpad : (padding false (padCount data.length)).length = padCount data.length :=
    List.length_replicate
  rw [length_sextets, Nat.zero_div, Nat.zero_add] at hwrap
  rw [concatBase64_eq hm, List.nil_append, List.length_append, hpad, base64Length]
  omega

theorem concatBase64Url_eq (data : List UInt8) :
    concatBase64Url [] data = wrap true (2 ^ 64 - 1) 0 (sextets data) ++
      padding true (padCount data.length) :=
  concatBase64_eq (by decide) true [] data

theorem length_concatBase64Url (data : List UInt8) :
    (concatBase64Url [] data).length = sextetCount data.length := by
  rw [concatBase64Url_eq, List.length_append, length_wrap_url, length_sextets]
  rfl

/-- The outcome of base64 texts. -/
theorem parseBase64_concatBase64 (hm : 0 < m) (data : List UInt8) :
    parseBase64 (concatBase64 [] data m false) = .ok data ↔
      base64Length m data.length ≤ 2147483644 ∧
        (data.length % 3 = 0 ∨ sextetCount data.length % m ≠ 0) := by
  have hvals : ∀ v ∈ sextets data, base64Value false (base64Char false v) = some v :=
    fun v hv => base64Value_base64Char false (sextets_lt data v hv)
  obtain ⟨hgood, hbad⟩ := parseBase64Intern_text hvals (concatBase64_eq hm false [] data)
  rw [endsWell_base64_iff, length_concatBase64 hm] at hgood hbad
  unfold parseBase64
  rw [length_concatBase64 hm]
  refine ⟨fun hok => ?_, hgood⟩
  exact (hbad data hok).resolve_right (Nat.lt_irrefl _)

/-- The lines of a base64 text are short enough when the padding fits in the last one. -/
theorem linesFit_concatBase64 (hm : 0 < m) (data : List UInt8) :
    LinesFit m 0 (concatBase64 [] data m false) ↔
      data.length % 3 = 0 ∨ sextetCount data.length % m + padCount data.length ≤ m := by
  have hwrap := linesFit_wrap hm 0 (sextets_lt data) (padding false (padCount data.length))
  rw [Nat.zero_mod, Nat.zero_add, length_sextets] at hwrap
  rw [concatBase64_eq hm, List.nil_append, hwrap]
  show LinesFit m _ (List.replicate _ _) ↔ _
  rw [linesFit_padding]
  refine or_congr_left ?_
  unfold padCount
  omega

/-- The outcome of base64-url texts. -/
theorem parseBase64Url_concatBase64Url (data : List UInt8) :
    parseBase64Url (concatBase64Url [] data) = .ok data ↔ sextetCount data.length ≤ 2147483644 := by
  have hvals : ∀ v ∈ sextets data, base64Value true (base64Char true v) = some v :=
    fun v hv => base64Value_base64Char true (sextets_lt data v hv)
  obtain ⟨hgood, hbad⟩ := parseBase64Intern_text hvals (concatBase64Url_eq data)
  rw [length_concatBase64Url] at hgood hbad
  unfold parseBase64Url
  rw [length_concatBase64Url]
  refine ⟨fun hok => ?_, fun hsmall => hgood ⟨hsmall, endsWell_url _ _⟩⟩
  exact ((hbad data hok).resolve_right (Nat.lt_irrefl _)).1

/-- A base64-url text has no line breaks and no padding. -/
theorem concatBase64Url_map (data : List UInt8) :
    concatBase64Url [] data = (sextets data).map (base64Char true) := by
  have hwrap : ∀ (i : Nat) (vs : List UInt8),
      wrap true (2 ^ 64 - 1) i vs = vs.map (base64Char true) := by
    intro i vs
    induction vs generalizing i with
    | nil => rfl
    | cons v vs ih =>
      rw [wrap, lineBreak, if_neg fun h => (by cases h.1), List.nil_append, ih]
      rfl
  rw [concatBase64Url_eq, hwrap]
  exact List.append_nil _

/-- The characters of a base64-url text that is not too long are read as base64 when there is no
`-`, no `_` and no incomplete group. -/
theorem parseBase64_concatBase64Url (hsmall : sextetCount data.length ≤ 2147483644) :
    (data.length % 3 = 0 ∧ (∀ v ∈ sextets data, v < 62) →
      parseBase64 (concatBase64Url [] data) = .ok data) ∧
    ∀ out, parseBase64 (concatBase64Url [] data) = .ok out →
      (data.length % 3 = 0 ∧ ∀ v ∈ sextets data, v < 62) ∨ out.length < data.length := by
  have hbuf := concatBase64Url_eq data
  have hlen := length_concatBase64Url data
  by_cases hlow : ∀ v ∈ sextets data, v < 62
  · have hvals : ∀ v ∈ sextets data, base64Value false (base64Char true v) = some v := by
      intro v hv
      rw [base64Value_urlChar (sextets_lt data v hv), if_pos (hlow v hv)]
    obtain ⟨hgood, hbad⟩ := parseBase64Intern_text hvals hbuf
    rw [endsWell_foreign_iff] at hgood hbad
    refine ⟨fun h => hgood ⟨by rw [hlen]; exact hsmall, h.1⟩, fun out hok => ?_⟩
    exact (hbad out hok).imp (fun h => ⟨h.2, hlow⟩) id
  · refine ⟨fun h => absurd h.2 hlow, fun out hok => ?_⟩
    refine absurd ?_ hlow
    have hchars : ∀ c ∈ concatBase64Url [] data, isBreak c = false ∧ c ≠ 0 ∧ c ≠ byteOf '=' := by
      intro c hc
      rw [concatBase64Url_map] at hc
      obtain ⟨v, hv, rfl⟩ := List.mem_map.mp hc
      exact special_of_value (base64Value_base64Char true (sextets_lt data v hv))
    have htrunc : truncInt (concatBase64Url [] data).length = (concatBase64Url [] data).length :=
      truncInt_of_fits (by unfold FitsInt; omega)
    have hadd : checkedInt (((concatBase64Url [] data).length : Int) + 3) =
        some (((concatBase64Url [] data).length : Int) + 3) :=
      checkedInt_of_fits (by unfold FitsInt; omega)
    unfold parseBase64 parseBase64Intern at hok
    rw [htrunc] at hok
    by_cases hempty : (concatBase64Url [] data).length = 0
    · rw [hlen, ← length_sextets] at hempty
      rw [List.eq_nil_of_length_eq_zero hempty]
      exact fun v hv => absurd hv List.not_mem_nil
    · rw [if_neg (by omega), hadd] at hok
      have hleft : Left (concatBase64Url [] data) 0 (concatBase64Url [] data) := ⟨[], rfl, rfl⟩
      -- every character that is read has a value in base64
      have hall : Ends (Except.ok out : Except Fault (List UInt8))
          (fun _ => ∀ c ∈ concatBase64Url [] data, (base64Value false c).isSome = true)
          fun _ => True := by
        rw [← hok]
        exact parseGroups_plain hchars hleft
      intro v hv
      have hsome := hall (base64Char true v) (by
        rw [concatBase64Url_map]
        exact List.mem_map_of_mem hv)
      rw [base64Value_urlChar (sextets_lt data v hv)] at hsome
      by_contra hnot
      rw [if_neg hnot] at hsome
      cases hsome

/-- A string that does not end in a zero byte is the same as its bytes. -/
theorem map_binaryToString_iff {x : Except Fault (List UInt8)} (hzero : data.getLast? ≠ some 0)
    (hx : ∀ out, x = .ok out → out = data ∨ out.length < data.length) :
    x.map binaryToString = .ok data ↔ x = .ok data := by
  have hsame : binaryToString data = data := if_neg hzero
  have hle : ∀ out : List UInt8, (binaryToString out).length ≤ out.length := by
    intro out
    unfold binaryToString
    split
    · rw [List.length_dropLast]
      omega
    · exact Nat.le_refl _
  constructor
  · intro h
    rcases x with e | out
    · cases h
    · rcases hx out rfl with rfl | hless
      · rfl
      · have hback := congrArg List.length (Except.ok.inj h)
        have := hle out
        omega
  · rintro rfl
    exact congrArg Except.ok hsame

/-- A string with an encoding comes back. -/
theorem parseBase64UrlToStringAs_eq (hzero : data.getLast? ≠ some 0)
    (hsmall : sextetCount data.length ≤ 2147483644) :
    parseBase64UrlToStringAs (concatBase64Url [] data) = .ok data := by
  have hok := (parseBase64Url_concatBase64Url data).mpr hsmall
  unfold parseBase64UrlToStringAs
  rw [hok]
  exact congrArg Except.ok (if_neg hzero)

/-- A string for the default encoding is read as base64. -/
theorem parseBase64UrlToString_iff (hzero : data.getLast? ≠ some 0)
    (hsmall : sextetCount data.length ≤ 2147483644) :
    parseBase64UrlToString (concatBase64Url [] data) = .ok data ↔
      data.length % 3 = 0 ∧ ∀ v ∈ sextets data, v < 62 := by
  obtain ⟨hgood, hbad⟩ := parseBase64_concatBase64Url hsmall
  have hout : ∀ out, parseBase64 (concatBase64Url [] data) = .ok out →
      out = data ∨ out.length < data.length := by
    intro out hok
    refine (hbad out hok).imp (fun h => ?_) id
    rw [hgood h] at hok
    exact (Except.ok.inj hok).symm
  unfold parseBase64UrlToString parseBase64ToString
  rw [map_binaryToString_iff hzero hout]
  exact ⟨fun hok => (hbad data hok).resolve_right (Nat.lt_irrefl _), hgood⟩

/-- For each function, when the bytes come back through its text. Through all of them they come back,
and the lines of the base64 text are not too long, exactly when the last group is complete or leaves
room for its padding on a line that it has begun, the numbers of characters are `int`s, and, for the
default encoding, the string ends in a zero byte or is the same in base64 and base64-url. -/
theorem base64_roundTrip_iff {m : Nat} (hm : 0 < m) (data : List UInt8) :
    ((parseBase64 (concatBase64 [] data m false) = .ok data ↔
        base64Length m data.length ≤ 2147483644 ∧
          (data.length % 3 = 0 ∨ sextetCount data.length % m ≠ 0)) ∧
      (LinesFit m 0 (concatBase64 [] data m false) ↔
        data.length % 3 = 0 ∨ sextetCount data.length % m + padCount data.length ≤ m) ∧
      (parseBase64Url (concatBase64Url [] data) = .ok data ↔
        sextetCount data.length ≤ 2147483644) ∧
      (data.getLast? ≠ some 0 → sextetCount data.length ≤ 2147483644 →
        parseBase64UrlToStringAs (concatBase64Url [] data) = .ok data ∧
        (parseBase64UrlToString (concatBase64Url [] data) = .ok data ↔
          data.length % 3 = 0 ∧ ∀ v ∈ sextets data, v < 62)) ∧
      (parseHex (concatHex [] data) = .ok data ↔ 2 * data.length ≤ 2147483647)) ∧
    (((parseBase64 (concatBase64 [] data m false) = .ok data ∧
        LinesFit m 0 (concatBase64 [] data m false)) ∧
      parseBase64Url (concatBase64Url [] data) = .ok data ∧
      (data.getLast? ≠ some 0 →
        parseBase64UrlToStringAs (concatBase64Url [] data) = .ok data ∧
        parseBase64UrlToString (concatBase64Url [] data) = .ok data) ∧
      parseHex (concatHex [] data) = .ok data) ↔
    (data.length % 3 = 0 ∨ (sextetCount data.length % m ≠ 0 ∧
        sextetCount data.length % m + padCount data.length ≤ m)) ∧
      base64Length m data.length ≤ 2147483644 ∧ 2 * data.length ≤ 2147483647 ∧
      (data.getLast? = some 0 ∨ (data.length % 3 = 0 ∧ ∀ v ∈ sextets data, v < 62))) := by
  refine ⟨⟨parseBase64_concatBase64 hm data, linesFit_concatBase64 hm data,
    parseBase64Url_concatBase64Url data, fun hzero hsmall =>
      ⟨parseBase64UrlToStringAs_eq hzero hsmall, parseBase64UrlToString_iff hzero hsmall⟩,
    parseHex_concatHex_iff data⟩, ?_⟩
  have hshort : 2 * data.length ≤ 2147483647 → sextetCount data.length ≤ 2147483644 := by
    unfold sextetCount
    omega
  rw [parseBase64_concatBase64 hm, linesFit_concatBase64 hm, parseBase64Url_concatBase64Url,
    parseHex_concatHex_iff]
  constructor
  · rintro ⟨⟨⟨hlen, hread⟩, hline⟩, hsmall, hstring, hhex⟩
    refine ⟨?_, hlen, hhex, ?_⟩
    · by_cases hfull : data.length % 3 = 0
      · exact .inl hfull
      · exact .inr ⟨hread.resolve_left hfull, hline.resolve_left hfull⟩
    · by_cases hzero : data.getLast? = some 0
      · exact .inl hzero
      · exact .inr ((parseBase64UrlToString_iff hzero hsmall).mp (hstring hzero).2)
  · rintro ⟨hgroup, hlen, hhex, hstring⟩
    have hsmall := hshort hhex
    refine ⟨⟨⟨hlen, hgroup.imp id And.left⟩, hgroup.imp id And.right⟩, hsmall, ?_, hhex⟩
    intro hzero
    refine ⟨parseBase64UrlToStringAs_eq hzero hsmall, ?_⟩
    exact (parseBase64UrlToString_iff hzero hsmall).mpr (hstring.resolve_left hzero)

/-- Three letters come back, also in lines of two characters. -/
theorem base64_roundTrip_abc :
    (parseBase64 (concatBase64 [] [97, 98, 99] 2 false) = .ok [97, 98, 99] ∧
        LinesFit 2 0 (concatBase64 [] [97, 98, 99] 2 false)) ∧
      parseBase64Url (concatBase64Url [] [97, 98, 99]) = .ok [97, 98, 99] ∧
      (([97, 98, 99] : List UInt8).getLast? ≠ some 0 →
        parseBase64UrlToStringAs (concatBase64Url [] [97, 98, 99]) = .ok [97, 98, 99] ∧
        parseBase64UrlToString (concatBase64Url [] [97, 98, 99]) = .ok [97, 98, 99]) ∧
      parseHex (concatHex [] [97, 98, 99]) = .ok [97, 98, 99] :=
  (base64_roundTrip_iff (m := 2) (by decide) [97, 98, 99]).2.mpr
    ⟨.inl rfl, by decide, by decide, .inr ⟨rfl, by decide +kernel⟩⟩

/-- A byte in lines of two characters: the padding is on a line of its own and is not found. -/
theorem concatBase64_padding_lost :
    concatBase64 [] [97] 2 false = [byteOf 'Y', byteOf 'Q', 13, 10, byteOf '=', byteOf '='] ∧
      parseBase64 (concatBase64 [] [97] 2 false) ≠ .ok [97] :=
  ⟨by decide, by decide⟩

end Qore.Text
