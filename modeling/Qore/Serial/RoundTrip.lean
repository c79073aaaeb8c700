import Qore.Serial.Text

/-!
# `Qore.Serial.RoundTrip`: values come back from a stream

A value tree that is written into a stream is read back, and nothing behind it is read. That fails
for three kinds of dates: a relative date with the smallest `int` in a field, because the digits are
read before the sign and do not fit in an `int`, an absolute date whose microseconds are a second or
more, which is normalised when it is read, and an absolute date with a zone that the reader cannot
load. UTC is such a zone; it is written as the region `UTC`.

* `deserializeValue_consumes`: what the reader makes of the bytes of a value.
* `deserializeValueFromStream_roundTrip`: an equal value is read back exactly when every date in it
  can be read.
-/

set_option autoImplicit false

namespace Qore.Serial

open Qore.Lib Qore.Stream
open Qore.Date (RelTime normalizeUnits2 normalizeUnits2_micros)

/-! ### Values that can be written -/

/-- The name of a region is a C string. -/
def ZoneRef.Representable : ZoneRef → Prop
  | .utc => True
  | .offset utcoff => FitsInt utcoff
  | .region name => 0 ∉ name ∧ name.length < 2 ^ 63

/-- What the types of the source promise about a value: the ranges of fields, that codes of
encodings and keys are C strings, and that the keys of a hash are distinct. The microseconds of an
absolute date are an `unsigned`. -/
inductive Value.Representable {N : Type} (env : Env N) : Value N → Prop
  | nothing : Representable env .nothing
  | null : Representable env .null
  | bool (b : Bool) : Representable env (.bool b)
  | int (i : Int64) : Representable env (.int i)
  | float (bits : Int64) : Representable env (.float bits)
  | number {n : N} (hsize : (numberText env.conv n).length < 2 ^ 63) : Representable env (.number n)
  | string {enc str : Bytes} (henc : enc ∈ env.encodings.emap) (hnul : 0 ∉ enc)
      (hsize : enc.length < 2 ^ 63) (hlen : str.length < 2 ^ 63) :
      Representable env (.string enc str)
  | binary {bytes : Bytes} (hlen : bytes.length < 2 ^ 63) : Representable env (.binary bytes)
  | relDate {t : RelTime} (hfields : ∀ x ∈ RelDate.fields t, FitsInt x) :
      Representable env (.relDate t)
  | absDate (epoch : Int64) {us : Nat} (hus : us < 2 ^ 32) {zone : ZoneRef}
      (hzone : zone.Representable) : Representable env (.absDate epoch us zone)
  | list {entries : List (Value N)} (hlen : entries.length < 2 ^ 63)
      (hentries : ∀ v ∈ entries, Representable env v) : Representable env (.list entries)
  | hash {members : List (Bytes × Value N)} (hlen : members.length < 2 ^ 63)
      (hkeys : (members.map Prod.fst).Nodup)
      (hnul : ∀ key ∈ members.map Prod.fst, 0 ∉ key ∧ key.length < 2 ^ 63)
      (hmembers : ∀ m ∈ members, Representable env m.2) : Representable env (.hash none members)

/-- What the reader finds around it: exact conversions of numbers, and the default encoding among
the encodings. -/
structure Env.Sound {N : Type} (env : Env N) : Prop where
  conv : env.conv.Exact
  qcsDefault : env.qcsDefault ∈ env.encodings.emap
  noNul : 0 ∉ env.qcsDefault
  size : env.qcsDefault.length < 2 ^ 63

/-! ### Values that are read -/

/-- Equal values. The zone of an absolute date does not count. -/
inductive Value.Equal {N : Type} : Value N → Value N → Prop
  | refl (v : Value N) : Equal v v
  | absDate (epoch : Int64) (us : Nat) (zone zone' : ZoneRef) :
      Equal (.absDate epoch us zone) (.absDate epoch us zone')
  | list {entries entries' : List (Value N)} (h : List.Forall₂ Equal entries entries') :
      Equal (.list entries) (.list entries')
  | hash (thd : Option HashDecl) {members members' : List (Bytes × Value N)}
      (hkeys : members.map Prod.fst = members'.map Prod.fst)
      (h : List.Forall₂ Equal (members.map Prod.snd) (members'.map Prod.snd)) :
      Equal (.hash thd members) (.hash thd members')

/-- `w` is `v`, or a value inside of it. -/
inductive Value.Within {N : Type} (w : Value N) : Value N → Prop
  | self : Within w w
  | entry {entries : List (Value N)} {v : Value N} (hv : v ∈ entries) (h : Within w v) :
      Within w (.list entries)
  | member (thd : Option HashDecl) {members : List (Bytes × Value N)} {m : Bytes × Value N}
      (hm : m ∈ members) (h : Within w m.2) : Within w (.hash thd members)

section
variable {N : Type} (env : Env N)

/-- The zone that is read for a zone. -/
def restoreZone : ZoneRef → Except Exception ZoneRef
  | .utc => findRegion env staticUtc
  | .offset utcoff => .ok (offsetZone (getUTCOffset utcoff))
  | .region name => findRegion env name

mutual

/-- The value that is read for a value. -/
def restore : Value N → Except Fault (Value N)
  | .relDate t =>
    if ∀ x ∈ RelDate.fields t, x ≠ -2147483648 then .ok (.relDate t) else .error .undefined
  | .absDate epoch us zone => do
    let zone ← (restoreZone env zone).mapError .exception
    return makeAbsolute zone epoch.toInt (truncInt us)
  | .list entries => do
    let entries ← restoreEntries entries
    return .list entries
  | .hash thd members => do
    let members ← restoreMembers members
    return .hash thd members
  | v => .ok v

/-- The elements that are read for the elements of a list. -/
def restoreEntries : List (Value N) → Except Fault (List (Value N))
  | [] => .ok []
  | v :: vs => do
    let v ← restore v
    let vs ← restoreEntries vs
    return v :: vs

/-- The members that are read for the members of a hash. -/
def restoreMembers : List (Bytes × Value N) → Except Fault (List (Bytes × Value N))
  | [] => .ok []
  | (key, v) :: members => do
    let v ← restore v
    let members ← restoreMembers members
    return (key, v) :: members

end

/-- A zone other than an offset can be loaded. -/
def ZoneRef.Readable : ZoneRef → Prop
  | .utc => ∃ zone, findRegion env staticUtc = .ok zone
  | .region name => ∃ zone, findRegion env name = .ok zone
  | .offset _ => True

/-- A date that can be read: no field of a relative date is the smallest `int`, and an absolute date
has less than a second of microseconds and a zone that can be loaded. -/
def Value.DateReadable : Value N → Prop
  | .relDate t => ∀ x ∈ RelDate.fields t, x ≠ -2147483648
  | .absDate _ us zone => us < 1000000 ∧ zone.Readable env
  | _ => True

/-- Every date in a value can be read. -/
def Value.Readable (v : Value N) : Prop := ∀ w : Value N, w.Within v → w.DateReadable env

end

/-! ### Writing -/

section
variable {N : Type} {env : Env N}

/-- The values are written one behind the other. -/
theorem serializeEntries_pieces {entries : List (Value N)} {bytes : Bytes}
    (h : serializeEntries env.conv env.qcsDefault entries = .ok bytes) :
    ∃ ps, List.Forall₂ (fun v p => serializeValue env.conv env.qcsDefault v = .ok p) entries ps ∧
      bytes = ps.flatten := by
  induction entries generalizing bytes with
  | nil =>
    exact ⟨[], .nil, (Except.ok.inj h).symm⟩
  | cons v vs ih =>
    rw [serializeEntries] at h
    rcases hv : serializeValue env.conv env.qcsDefault v with e | p
    · rw [hv] at h
      cases h
    rcases hvs : serializeEntries env.conv env.qcsDefault vs with e | rest
    · rw [hv, hvs] at h
      cases h
    obtain ⟨ps, hps, rfl⟩ := ih hvs
    rw [hv, hvs] at h
    exact ⟨p :: ps, .cons hv hps, (Except.ok.inj h).symm⟩

/-- The members are written one behind the other, a key before its value. -/
theorem serializeMembers_pieces {members : List (Bytes × Value N)} {bytes : Bytes}
    (h : serializeMembers env.conv env.qcsDefault members = .ok bytes) :
    ∃ ps, List.Forall₂ (fun m p => ∃ q, serializeValue env.conv env.qcsDefault m.2 = .ok q ∧
        p = serializeString (some env.qcsDefault) m.1 ++ q) members ps ∧
      bytes = ps.flatten := by
  induction members generalizing bytes with
  | nil =>
    exact ⟨[], .nil, (Except.ok.inj h).symm⟩
  | cons m members ih =>
    rw [serializeMembers] at h
    rcases hv : serializeValue env.conv env.qcsDefault m.2 with e | q
    · rw [hv] at h
      cases h
    rcases hms : serializeMembers env.conv env.qcsDefault members with e | rest
    · rw [hv, hms] at h
      cases h
    obtain ⟨ps, hps, rfl⟩ := ih hms
    rw [hv, hms] at h
    exact ⟨_ :: ps, .cons ⟨q, hv, rfl⟩ hps, (Except.ok.inj h).symm⟩

/-- Such values can be written. -/
theorem serializeValue_total {v : Value N} (hv : v.Representable env) :
    ∃ bytes, serializeValue env.conv env.qcsDefault v = .ok bytes := by
  induction hv with
  | nothing | null | bool | int | float | number | string | binary | relDate | absDate =>
    exact ⟨_, by rw [serializeValue]⟩
  | @list entries _ _ ih =>
    obtain ⟨bytes, hbytes⟩ : ∃ bytes,
        serializeEntries env.conv env.qcsDefault entries = .ok bytes := by
      clear * - ih
      induction entries with
      | nil => exact ⟨[], by rw [serializeEntries]⟩
      | cons v vs ih' =>
        obtain ⟨p, hp⟩ := ih v (List.mem_cons_self ..)
        obtain ⟨rest, hrest⟩ := ih' fun w hw => ih w (List.mem_cons_of_mem _ hw)
        exact ⟨p ++ rest, by rw [serializeEntries, hp, hrest]; rfl⟩
    exact ⟨_, by rw [serializeValue, hbytes]; rfl⟩
  | @hash members _ _ _ _ ih =>
    obtain ⟨bytes, hbytes⟩ : ∃ bytes,
        serializeMembers env.conv env.qcsDefault members = .ok bytes := by
      clear * - ih
      induction members with
      | nil => exact ⟨[], by rw [serializeMembers]⟩
      | cons m members ih' =>
        obtain ⟨p, hp⟩ := ih m (List.mem_cons_self ..)
        obtain ⟨rest, hrest⟩ := ih' fun w hw => ih w (List.mem_cons_of_mem _ hw)
        exact ⟨_, by rw [serializeMembers, hp, hrest]; rfl⟩
    exact ⟨_, by rw [serializeValue, hbytes]; rfl⟩

end

/-! ### Dates -/

section
variable {N σ : Type} {env : Env N} {r : Reader σ} {I : σ → Prop} {E : Fault → Fault → Prop}
  {members : List (Bytes × Value N)} {t : StreamType} {readValue : Program σ Fault (Value N)}

theorem ofExcept_consumes {α : Type} (x : Except Fault α) :
    Consumes (At r I) (ofExcept x) [] x := by
  cases x with
  | error e => exact Consumes.throw e []
  | ok a => exact Consumes.pure a

theorem fitsInt_getUTCOffset {utcoff : Int} (h : FitsInt utcoff) :
    FitsInt (getUTCOffset utcoff) := by
  unfold FitsInt getUTCOffset at *
  split <;> omega

/-- A zone is read from its type code on. -/
theorem readZone_consumes (hr : Simulates r I E) (hpeek : PeeksByte r I) {zone : ZoneRef} (hzone : zone.Representable) :
    Consumes (At r I) (readZone env r) (serializeZone zone)
      ((restoreZone env zone).mapError .exception) := by
  have hregion : ∀ {region : Bytes}, 0 ∉ region → region.length < 2 ^ 63 →
      Consumes (At r I) (readZone env r) (serializeString none region)
        ((findRegion env region).mapError .exception) := by
    intro region hnul hlen
    have hcode := readCode_consumes hr .utf8String
    have hstring := readStringFromStream_consumes hr hlen
    refine (peekCheck_peeks hpeek _).bind ?_
    rw [Int.toNat_natCast, UInt8.ofNat_toNat]
    refine hcode.bind ?_
    rw [← List.append_nil (serializeSized region)]
    refine hstring.bind ?_
    rw [cstr_eq hnul]
    exact ofExcept_consumes _
  cases zone with
  | utc => exact hregion (by decide) (by decide)
  | offset utcoff =>
    have hfits := fitsInt_getUTCOffset hzone
    have hrange : -9223372036854775808 ≤ getUTCOffset utcoff ∧
        getUTCOffset utcoff ≤ 9223372036854775807 := by
      unfold FitsInt at hfits
      omega
    obtain ⟨t, bytes, ht, hcode, -⟩ := deserializeIntFromStream_consumes hr hrange
    have hread := readIntFromStream_consumes hr "absolute date UTC offset" true hrange (by simp)
    show Consumes (At r I) (readZone env r) (serializeInt (getUTCOffset utcoff)) _
    rw [hcode] at hread ⊢
    refine (peekCheck_peeks hpeek _).bind ?_
    rw [Int.toNat_natCast, UInt8.ofNat_toNat]
    dsimp only
    rw [StreamType.ofCode_code, Option.any_some, if_pos ht]
    have hzone := hread.map_ok fun x => offsetZone (truncInt x)
    rw [truncInt_of_fits hfits] at hzone
    exact hzone
  | region name => exact hregion hzone.1 hzone.2

theorem absDate_consumes (hr : Simulates r I E) (hpeek : PeeksByte r I) (epoch : Int64) (us : Nat)
    {zone : ZoneRef} (hzone : zone.Representable) :
    Consumes (At r I) (deserializeAbsDateFromStream env r)
      (serializeInt epoch.toInt ++ (serializeInt (truncInt us) ++ serializeZone zone))
      (restore env (.absDate epoch us zone)) := by
  have hlow := epoch.le_toInt
  have hhigh := epoch.toInt_lt
  have hfits : FitsInt (truncInt us) := by
    unfold FitsInt truncInt
    omega
  have hepoch := readIntFromStream_consumes hr "absolute date epoch" true
    (x := epoch.toInt) (by norm_num at hlow hhigh; omega) (by simp)
  have husecs := readIntFromStream_consumes hr "absolute date microseconds" true
    (x := truncInt us) (by unfold FitsInt at hfits; omega) (by simp)
  have hread : Consumes (At r I) (readZone env r) (serializeZone zone)
    ((restoreZone env zone).mapError .exception) := readZone_consumes hr hpeek hzone
  exact hepoch.bind (husecs.bind (hread.map fun zone =>
    makeAbsolute zone epoch.toInt (truncInt us)))

theorem relDate_consumes (hr : Simulates r I E) {t : RelTime}
    (hfields : ∀ x ∈ RelDate.fields t, FitsInt x) :
    Consumes (At r I) (deserializeRelDateFromStream r)
      (serializeSized (ascii (relDateText t))) (restore env (.relDate t)) := by
  have hlen : (ascii (relDateText t)).length < 2 ^ 63 := by
    have hle := RelDate.length_relDateText_le hfields
    rw [length_ascii]
    exact hle.trans_lt (by decide)
  have hstring := readStringFromStream_consumes hr hlen
  rw [← List.append_nil (serializeSized _)]
  refine hstring.bind ?_
  rw [setIso8601_relDateText hfields, restore]
  by_cases h : ∀ x ∈ RelDate.fields t, x ≠ -2147483648
  · rw [if_pos h, if_pos h]
    exact Consumes.pure _
  · rw [if_neg h, if_neg h]
    exact Consumes.throw _ _

/-! ### Lists and hashes -/

/-- A new key goes to the end. -/
theorem setKeyValue_new {key : Bytes} (h : key ∉ members.map Prod.fst) (val : Value N) :
    setKeyValue members key val = members ++ [(key, val)] := by
  have hany : (members.any fun m => m.1 = key) = false := by
    rw [List.any_eq_false]
    intro m hm heq
    exact h (of_decide_eq_true heq ▸ List.mem_map_of_mem hm)
  unfold setKeyValue
  rw [hany]
  rfl

theorem foldlM_entries (entries acc : List (Value N)) :
    entries.foldlM (fun acc v => (restore env v).map fun val => acc ++ [val]) acc =
      (restoreEntries env entries).map (acc ++ ·) := by
  induction entries generalizing acc with
  | nil =>
    rw [restoreEntries, Except.map, List.append_nil]
    rfl
  | cons v vs ih =>
    rw [List.foldlM_cons, restoreEntries]
    rcases restore env v with e | val
    · rfl
    · show vs.foldlM _ (acc ++ [val]) = _
      rw [ih]
      rcases restoreEntries env vs with e | vals
      · rfl
      · exact congrArg Except.ok (List.append_assoc ..)

/-- The members of a hash with distinct keys stay in their order. -/
theorem foldlM_members {acc : List (Bytes × Value N)}
    (hkeys : ((acc ++ members).map Prod.fst).Nodup) :
    members.foldlM (fun acc m => (restore env m.2).map (setKeyValue acc m.1)) acc =
      (restoreMembers env members).map (acc ++ ·) := by
  induction members generalizing acc with
  | nil =>
    rw [restoreMembers, Except.map, List.append_nil]
    rfl
  | cons m members ih =>
    have hnew : m.1 ∉ acc.map Prod.fst := by
      rw [List.map_append, List.map_cons, List.nodup_append] at hkeys
      intro hmem
      exact hkeys.2.2 _ hmem m.1 (List.mem_cons_self ..) rfl
    rw [List.foldlM_cons, restoreMembers]
    rcases restore env m.2 with e | val
    · rfl
    · have hrest : ((acc ++ [(m.1, val)] ++ members).map Prod.fst).Nodup := by
        have hsame : (acc ++ [(m.1, val)] ++ members).map Prod.fst =
            (acc ++ m :: members).map Prod.fst := by simp
        rw [hsame]
        exact hkeys
      show members.foldlM _ (setKeyValue acc m.1 val) = _
      rw [setKeyValue_new hnew, ih hrest]
      rcases restoreMembers env members with e | vals
      · rfl
      · exact congrArg Except.ok (List.append_assoc ..)

theorem readKey_consumes (hr : Simulates r I E) (henv : env.Sound) {key : Bytes} (hnul : 0 ∉ key)
    (hlen : key.length < 2 ^ 63) :
    Consumes (At r I) (readKey env r) (serializeString (some env.qcsDefault) key) (.ok key) := by
  obtain ⟨t, bytes, ht, hcode, hstring⟩ := deserializeStringFromStream_consumes hr env.encodings
    henv.qcsDefault henv.noNul henv.size hlen
  rw [hcode]
  refine (readCode_consumes hr t).bind ?_
  rw [StreamType.ofCode_code, Option.filter_some, if_pos ht]
  dsimp only
  rw [← List.append_nil bytes]
  refine hstring.bind ?_
  rw [if_pos rfl, cstr_eq hnul]
  exact Consumes.pure key

/-- A value is read by its type code. -/
theorem readByType_consumes (hr : Simulates r I E) {bytes : Bytes} {fuel : Nat}
    {x : Except Fault (Value N)}
    (h : Consumes (At r I) (readByType env r (deserializeValue env r fuel) t) bytes x) :
    Consumes (At r I) (deserializeValue env r (fuel + 1)) (t.code :: bytes) x := by
  refine (readCode_consumes hr t).bind ?_
  rw [StreamType.ofCode_code]
  exact h

/-- The elements of a list, each of them read by `readValue`. -/
theorem list_consumes (hr : Simulates r I E) {entries : List (Value N)}
    (hlen : entries.length < 2 ^ 63) {ps : List Bytes}
    (hps : List.Forall₂ (fun v p => Consumes (At r I) readValue p (restore env v)) entries ps) :
    Consumes (At r I) (deserializeListFromStream r readValue)
      (serializeInt entries.length ++ ps.flatten) (restore env (.list entries)) := by
  have hsize := readSize_consumes hr "list size" hlen
  have hloop : Consumes (At r I)
      (Program.forN (fun entries => do
        let val ← readValue
        return entries ++ [val]) entries.length [])
      ps.flatten ((restoreEntries env entries).map ([] ++ ·)) := by
    rw [← foldlM_entries]
    exact Consumes.forN (hps.imp fun v p hread acc => hread.map fun val => acc ++ [val]) []
  have hrestore : restore env (.list entries) =
      ((restoreEntries env entries).map ([] ++ ·)).map .list := by
    rw [restore]
    cases restoreEntries env entries <;> rfl
  refine hsize.bind ?_
  rw [Int.toNat_natCast, hrestore]
  exact hloop.map Value.list

/-- The members of a hash, their values read by `readValue`. -/
theorem hash_consumes (hr : Simulates r I E) (henv : env.Sound) (hlen : members.length < 2 ^ 63)
    (hkeys : (members.map Prod.fst).Nodup)
    (hnul : ∀ key ∈ members.map Prod.fst, 0 ∉ key ∧ key.length < 2 ^ 63) {ps : List Bytes}
    (hps : List.Forall₂ (fun m p => ∃ q, Consumes (At r I) readValue q (restore env m.2) ∧
      p = serializeString (some env.qcsDefault) m.1 ++ q) members ps) :
    Consumes (At r I) (readMembers env r none readValue)
      (serializeInt members.length ++ ps.flatten) (restore env (.hash none members)) := by
  have hsize := readSize_consumes hr "hash size" hlen
  have hmember : List.Forall₂ (fun m p => ∀ acc, Consumes (At r I)
      (readMember env r none readValue acc) p ((restore env m.2).map (setKeyValue acc m.1)))
      members ps := by
    have hps' := (List.forall₂_and_left _ _).mpr
      ⟨fun m hm => hnul m.1 (List.mem_map_of_mem hm), hps⟩
    refine hps'.imp ?_
    rintro m _ ⟨⟨hkey, hshort⟩, q, hread, rfl⟩ acc
    refine (readKey_consumes hr henv hkey hshort).bind ?_
    exact hread.map (setKeyValue acc m.1)
  have hloop : Consumes (At r I)
      (Program.forN (readMember env r none readValue) members.length [])
      ps.flatten ((restoreMembers env members).map ([] ++ ·)) := by
    rw [← foldlM_members (by rw [List.nil_append]; exact hkeys)]
    exact Consumes.forN hmember []
  have hrestore : restore env (.hash none members) =
      ((restoreMembers env members).map ([] ++ ·)).map (.hash none) := by
    rw [restore]
    cases restoreMembers env members <;> rfl
  refine hsize.bind ?_
  rw [Int.toNat_natCast, hrestore]
  exact hloop.map (Value.hash none)

theorem readByType_int (ht : t.isInt = true) (readValue : Program σ Fault (Value N)) :
    readByType env r readValue t =
      (deserializeIntFromStream r t >>= fun i => Pure.pure (.int (Int64.ofInt i))) := by
  cases t with
  | int1 | int2 | int4 | int8 => rfl
  | _ => cases ht

theorem readByType_string (ht : t.isString = true) (readValue : Program σ Fault (Value N)) :
    readByType env r readValue t =
      (deserializeStringFromStream r env.encodings t >>= fun s =>
        Pure.pure (.string s.1 s.2)) := by
  cases t with
  | string | utf8String => rfl
  | _ => cases ht

/-- What the reader makes of the bytes of a value. The induction is on the value; every value inside
of it has fewer bytes. -/
theorem deserializeValue_consumes (hr : Simulates r I E) (hpeek : PeeksByte r I) (henv : env.Sound) {v : Value N}
    (hv : v.Representable env) {bytes : Bytes}
    (hbytes : serializeValue env.conv env.qcsDefault v = .ok bytes) {fuel : Nat}
    (hfuel : bytes.length < fuel) :
    Consumes (At r I) (deserializeValue env r fuel) bytes (restore env v) := by
  obtain ⟨fuel, rfl⟩ : ∃ k, fuel = k + 1 := ⟨fuel - 1, by omega⟩
  induction hv generalizing bytes fuel with
  | nothing =>
    cases hbytes
    exact readByType_consumes hr (Consumes.pure _)
  | null =>
    cases hbytes
    exact readByType_consumes hr (Consumes.pure _)
  | bool b =>
    cases hbytes
    cases b with
    | true => exact readByType_consumes (t := .booleanTrue) hr (Consumes.pure _)
    | false => exact readByType_consumes (t := .booleanFalse) hr (Consumes.pure _)
  | int i =>
    rw [serializeValue] at hbytes
    have hlow := i.le_toInt
    have hhigh := i.toInt_lt
    obtain ⟨t, body, ht, hcode, hread⟩ := deserializeIntFromStream_consumes hr (x := i.toInt)
      (by norm_num at hlow hhigh; omega)
    rw [hcode] at hbytes
    cases hbytes
    refine readByType_consumes hr ?_
    rw [readByType_int ht]
    have h := hread.map_ok fun x => Value.int (N := N) (Int64.ofInt x)
    rw [Int64.ofInt_toInt] at h
    exact h
  | float bits =>
    cases hbytes
    have hlow := bits.le_toInt
    have hhigh := bits.toInt_lt
    have hread := @readInt_consumes σ r I E hr 8 (by decide) bits.toInt ⟨hlow, hhigh⟩
    have h := hread.map_ok fun x => Value.float (N := N) (Int64.ofInt x)
    rw [Int64.ofInt_toInt] at h
    exact readByType_consumes hr h
  | @number n hsize =>
    cases hbytes
    refine readByType_consumes hr ?_
    have hstring := readStringFromStream_consumes hr hsize
    rw [← List.append_nil (serializeSized _)]
    refine hstring.bind ?_
    rw [newNumber_numberText henv.conv]
    exact (ofExcept_consumes (.ok n)).map_ok Value.number
  | @string enc str henc hnul hsize hlen =>
    rw [serializeValue] at hbytes
    obtain ⟨t, body, ht, hcode, hread⟩ :=
      deserializeStringFromStream_consumes hr env.encodings henc hnul hsize hlen
    rw [hcode] at hbytes
    cases hbytes
    refine readByType_consumes hr ?_
    rw [readByType_string ht]
    exact hread.map_ok fun s => Value.string s.1 s.2
  | @binary bytes hlen =>
    cases hbytes
    exact readByType_consumes hr
      ((readSized_consumes hr "binary object size" hlen).map_ok Value.binary)
  | @relDate t hfields =>
    cases hbytes
    exact readByType_consumes hr (relDate_consumes hr hfields)
  | @absDate epoch us hus zone hzone =>
    cases hbytes
    exact readByType_consumes hr (absDate_consumes hr hpeek epoch us hzone)
  | @list entries hlen _ ih =>
    rw [serializeValue] at hbytes
    rcases hentries : serializeEntries env.conv env.qcsDefault entries with e | body
    · rw [hentries] at hbytes
      cases hbytes
    obtain ⟨ps, hps, rfl⟩ := serializeEntries_pieces hentries
    rw [hentries] at hbytes
    cases hbytes
    rw [List.length_cons, List.length_append] at hfuel
    obtain ⟨fuel, rfl⟩ : ∃ k, fuel = k + 1 := ⟨fuel - 1, by omega⟩
    refine readByType_consumes hr (list_consumes hr hlen (forall₂_pieces hps ?_))
    intro v hv p hp hvalue
    exact ih v hv hvalue fuel (by omega)
  | @hash members hlen hkeys hnul _ ih =>
    rw [serializeValue] at hbytes
    rcases hentries : serializeMembers env.conv env.qcsDefault members with e | body
    · rw [hentries] at hbytes
      cases hbytes
    obtain ⟨ps, hps, rfl⟩ := serializeMembers_pieces hentries
    rw [hentries] at hbytes
    cases hbytes
    rw [serializeHashHeader, List.length_append, List.length_append, List.length_singleton] at hfuel
    obtain ⟨fuel, rfl⟩ : ∃ k, fuel = k + 1 := ⟨fuel - 1, by omega⟩
    refine readByType_consumes hr
      (hash_consumes hr henv hlen hkeys hnul (forall₂_pieces hps ?_))
    rintro m hm _ hp ⟨q, hvalue, rfl⟩
    rw [List.length_append] at hp
    exact ⟨q, ih m hm hvalue fuel (by omega), rfl⟩

end

/-! ### Equal values -/

section
variable {N : Type} {env : Env N} {v : Value N} (entries : List (Value N))

theorem equal_list_iff {entries entries' : List (Value N)} :
    (Value.list entries').Equal (.list entries) ↔ List.Forall₂ Value.Equal entries' entries := by
  constructor
  · intro h
    cases h with
    | refl => exact List.forall₂_same.mpr fun v _ => .refl v
    | list h => exact h
  · exact .list

theorem equal_hash_iff {thd : Option HashDecl} {members members' : List (Bytes × Value N)} :
    (Value.hash thd members').Equal (.hash thd members) ↔
      members'.map Prod.fst = members.map Prod.fst ∧
        List.Forall₂ Value.Equal (members'.map Prod.snd) (members.map Prod.snd) := by
  constructor
  · intro h
    cases h with
    | refl => exact ⟨rfl, List.forall₂_same.mpr fun v _ => .refl v⟩
    | hash _ hkeys h => exact ⟨hkeys, h⟩
  · exact fun h => .hash thd h.1 h.2

/-- An equal value is read for a value. -/
def Restores (env : Env N) (v : Value N) : Prop := ∃ v', restore env v = .ok v' ∧ v'.Equal v

theorem restoreEntries_iff :
    (∃ vs, restoreEntries env entries = .ok vs ∧ List.Forall₂ Value.Equal vs entries) ↔
      ∀ v ∈ entries, Restores env v := by
  induction entries with
  | nil => exact ⟨fun _ v hv => absurd hv List.not_mem_nil, fun _ => ⟨[], rfl, .nil⟩⟩
  | cons v vs ih =>
    rw [List.forall_mem_cons, ← ih, restoreEntries]
    unfold Restores
    constructor
    · rintro ⟨_, hrest, hequal⟩
      rcases hv : restore env v with e | w
      · rw [hv] at hrest
        cases hrest
      rcases hvs : restoreEntries env vs with e | ws
      · rw [hv, hvs] at hrest
        cases hrest
      rw [hv, hvs] at hrest
      cases hrest
      obtain ⟨hw, hws⟩ := List.forall₂_cons.mp hequal
      exact ⟨⟨w, rfl, hw⟩, ws, rfl, hws⟩
    · rintro ⟨⟨w, hv, hw⟩, ws, hvs, hws⟩
      rw [hv, hvs]
      exact ⟨w :: ws, rfl, .cons hw hws⟩

theorem restoreMembers_iff (members : List (Bytes × Value N)) :
    (∃ ms, restoreMembers env members = .ok ms ∧ ms.map Prod.fst = members.map Prod.fst ∧
        List.Forall₂ Value.Equal (ms.map Prod.snd) (members.map Prod.snd)) ↔
      ∀ m ∈ members, Restores env m.2 := by
  induction members with
  | nil => exact ⟨fun _ m hm => absurd hm List.not_mem_nil, fun _ => ⟨[], rfl, rfl, .nil⟩⟩
  | cons m members ih =>
    rw [List.forall_mem_cons, ← ih, restoreMembers]
    unfold Restores
    constructor
    · rintro ⟨_, hrest, hkeys, hequal⟩
      rcases hv : restore env m.2 with e | w
      · rw [hv] at hrest
        cases hrest
      rcases hms : restoreMembers env members with e | ws
      · rw [hv, hms] at hrest
        cases hrest
      rw [hv, hms] at hrest
      cases hrest
      obtain ⟨hw, hws⟩ := List.forall₂_cons.mp hequal
      exact ⟨⟨w, rfl, hw⟩, ws, rfl, (List.cons.inj hkeys).2, hws⟩
    · rintro ⟨⟨w, hv, hw⟩, ws, hms, hkeys, hws⟩
      rw [hv, hms]
      exact ⟨(m.1, w) :: ws, rfl, congrArg (m.1 :: ·) hkeys, .cons hw hws⟩

/-- A part that only wraps the outcome. -/
theorem isOk_map {ε α β : Type} {x : Except ε α} {f : α → β} {P : β → Prop} :
    (∃ b, (x >>= fun a => Pure.pure (f a)) = .ok b ∧ P b) ↔ ∃ a, x = .ok a ∧ P (f a) := by
  rcases x with e | a
  · exact ⟨by rintro ⟨_, ⟨⟩, -⟩, by rintro ⟨_, ⟨⟩, -⟩⟩
  · constructor
    · rintro ⟨b, hb, h⟩
      obtain rfl := Except.ok.inj hb
      exact ⟨a, rfl, h⟩
    · rintro ⟨a', ha, h⟩
      obtain rfl := Except.ok.inj ha
      exact ⟨_, rfl, h⟩

/-! ### Dates that can be read -/

/-- The microseconds come back if they are less than a second. -/
theorem restore_absDate_iff {epoch : Int64} {us : Nat} (hus : us < 2 ^ 32) {zone : ZoneRef} :
    Restores env (.absDate epoch us zone) ↔ us < 1000000 ∧ zone.Readable env := by
  have hzone : (∃ zone', (restoreZone env zone).mapError Fault.exception = .ok zone') ↔
      zone.Readable env := by
    have hok : (∃ zone', (restoreZone env zone).mapError Fault.exception = .ok zone') ↔
        ∃ zone', restoreZone env zone = .ok zone' := by
      rcases restoreZone env zone with e | zone'
      · exact ⟨by rintro ⟨_, ⟨⟩⟩, by rintro ⟨_, ⟨⟩⟩⟩
      · exact ⟨fun _ => ⟨_, rfl⟩, fun _ => ⟨_, rfl⟩⟩
    refine hok.trans ?_
    cases zone with
    | utc => exact Iff.rfl
    | offset utcoff => exact ⟨fun _ => trivial, fun _ => ⟨_, rfl⟩⟩
    | region name => exact Iff.rfl
  have hfits : FitsInt (truncInt us) := by
    unfold FitsInt truncInt
    omega
  unfold Restores
  rw [restore, isOk_map, ← hzone]
  unfold makeAbsolute
  rw [truncInt_of_fits hfits, normalizeUnits2_micros hfits]
  dsimp only
  constructor
  · rintro ⟨zone', hzone', hequal⟩
    refine ⟨?_, zone', hzone'⟩
    -- the microseconds that are read are less than a second
    have hsame : ((truncInt us) % 1000000).toNat = us := by
      generalize hw : Value.absDate _ _ zone' = w at hequal
      cases hequal with
      | refl => exact (Value.absDate.inj hw).2.1
      | absDate => exact (Value.absDate.inj hw).2.1
    omega
  · rintro ⟨hlt, zone', hzone'⟩
    have hint : truncInt us = us := truncInt_of_fits ⟨by omega, by omega⟩
    have hcarry : epoch.toInt + (us : Int) / 1000000 = epoch.toInt := by omega
    have hkeep : ((us : Int) % 1000000).toNat = us := by omega
    refine ⟨zone', hzone', ?_⟩
    rw [hint, hcarry, hkeep, Int64.ofInt_toInt]
    exact .absDate ..

/-- There are no values inside of a value that is neither a list nor a hash. -/
theorem readable_leaf (hlist : ∀ entries, v ≠ .list entries)
    (hhash : ∀ thd members, v ≠ .hash thd members) : v.Readable env ↔ v.DateReadable env := by
  refine ⟨fun h => h v .self, ?_⟩
  intro h w hw
  cases hw with
  | self => exact h
  | entry => exact absurd rfl (hlist _)
  | member => exact absurd rfl (hhash _ _)

theorem readable_list : (Value.list entries).Readable env ↔ ∀ v ∈ entries, v.Readable env := by
  refine ⟨fun h v hv w hw => h w (.entry hv hw), ?_⟩
  intro h w hw
  cases hw with
  | self => trivial
  | entry hv hw => exact h _ hv w hw

theorem readable_hash (thd : Option HashDecl) (members : List (Bytes × Value N)) :
    (Value.hash thd members).Readable env ↔ ∀ m ∈ members, m.2.Readable env := by
  refine ⟨fun h m hm w hw => h w (.member thd hm hw), ?_⟩
  intro h w hw
  cases hw with
  | self => trivial
  | member _ hm hw => exact h _ hm w hw

/-- An equal value is read exactly when every date in it can be read. -/
theorem restores_iff (hv : v.Representable env) : Restores env v ↔ v.Readable env := by
  induction hv with
  | nothing | null | bool | int | float | number | string | binary =>
    rw [readable_leaf (by simp) (by simp)]
    refine ⟨fun _ => trivial, fun _ => ?_⟩
    exact ⟨_, rfl, .refl _⟩
  | @relDate t _ =>
    rw [readable_leaf (by simp) (by simp), Restores, restore]
    show _ ↔ ∀ x ∈ RelDate.fields t, x ≠ -2147483648
    by_cases h : ∀ x ∈ RelDate.fields t, x ≠ -2147483648
    · rw [if_pos h]
      exact ⟨fun _ => h, fun _ => ⟨_, rfl, .refl _⟩⟩
    · rw [if_neg h]
      exact ⟨by rintro ⟨_, ⟨⟩, -⟩, fun h' => absurd h' h⟩
  | @absDate epoch us hus zone _ =>
    rw [readable_leaf (by simp) (by simp)]
    exact restore_absDate_iff hus
  | @list entries _ _ ih =>
    rw [readable_list, Restores, restore, isOk_map]
    simp only [equal_list_iff]
    exact (restoreEntries_iff entries).trans (forall₂_congr ih)
  | @hash members _ _ _ _ ih =>
    rw [readable_hash, Restores, restore, isOk_map]
    simp only [equal_hash_iff]
    exact (restoreMembers_iff members).trans (forall₂_congr ih)

/-- The reader makes the restored value of the bytes of a value, and leaves what follows. -/
theorem deserializeValueFromStream_eq (henv : env.Sound) (hv : v.Representable env) {bytes : Bytes}
    (hbytes : serializeValue env.conv env.qcsDefault v = .ok bytes) (is : InputStream)
    {rest : Bytes} (his : is.rest = bytes ++ rest) :
    (deserializeValueFromStream env streamReader is).1 = restore env v ∧
      ∀ v', restore env v = .ok v' →
        (deserializeValueFromStream env streamReader is).2.rest = rest := by
  have hfuel : bytes.length < (streamReader.unread is).length + 1 := by
    show bytes.length < is.rest.length + 1
    rw [his, List.length_append]
    omega
  obtain ⟨hout, hleft⟩ :=
    deserializeValue_consumes streamReader_simulates (fun _ _ => rfl) henv hv hbytes hfuel is rest ⟨trivial, his⟩
  exact ⟨hout, fun v' hv' => (hleft v' hv').2⟩

/-- A value is written, and an equal value is read back from its bytes, with nothing taken of what
follows, exactly when every date in it can be read. -/
theorem deserializeValueFromStream_roundTrip (henv : env.Sound) {v : Value N}
    (hv : v.Representable env) :
    ∃ bytes, serializeValue env.conv env.qcsDefault v = .ok bytes ∧
      ∀ (is : InputStream) (rest : Bytes), is.rest = bytes ++ rest →
        ((∃ v', (deserializeValueFromStream env streamReader is).1 = .ok v' ∧ v'.Equal v ∧
          (deserializeValueFromStream env streamReader is).2.rest = rest) ↔ v.Readable env) := by
  obtain ⟨bytes, hbytes⟩ := serializeValue_total hv
  refine ⟨bytes, hbytes, ?_⟩
  intro is rest his
  obtain ⟨hout, hleft⟩ := deserializeValueFromStream_eq henv hv hbytes is his
  rw [← restores_iff hv, hout]
  constructor
  · rintro ⟨v', hok, hequal, -⟩
    exact ⟨v', hok, hequal⟩
  · rintro ⟨v', hok, hequal⟩
    exact ⟨v', hok, hequal, hleft v' hok⟩

end

/-- A program with UTF-8 only that finds every region. -/
def utf8Env : Env Unit where
  conv := { toText := fun _ => ascii ['1'], getPrec := fun _ => 128, parse := fun _ _ => () }
  encodings := { emap := [utf8], amap := [], distinct := List.pairwise_singleton .. }
  qcsDefault := utf8
  convertEncoding := fun _ _ str => .ok str
  noFilesystem := false
  loadRegion := fun _ name => .ok (.region name)
  findHashDecl := fun _ => none
  newHash := fun thd members => .ok (.hash (some thd) members)

theorem utf8Env_sound : utf8Env.Sound where
  conv := {
    parse := fun _ => rfl
    prec := by decide
    plain := by
      intro _ b hb
      rw [show b = 49 from List.mem_singleton.mp hb]
      exact ⟨by decide, by decide, by decide⟩ }
  qcsDefault := List.mem_singleton_self ..
  noNul := by decide
  size := by decide

/-- A list with a number and a date in UTC. -/
theorem deserializeValueFromStream_utc :
    ∃ bytes, serializeValue utf8Env.conv utf8 (.list [.int 300, .absDate 1500000000 5 .utc]) =
        .ok bytes ∧
      ∀ (is : InputStream) (rest : Bytes), is.rest = bytes ++ rest →
        ((∃ v', (deserializeValueFromStream utf8Env streamReader is).1 = .ok v' ∧
            v'.Equal (.list [.int 300, .absDate 1500000000 5 .utc]) ∧
            (deserializeValueFromStream utf8Env streamReader is).2.rest = rest) ↔
          Value.Readable utf8Env (.list [.int 300, .absDate 1500000000 5 .utc])) := by
  refine deserializeValueFromStream_roundTrip utf8Env_sound (.list (by decide) ?_)
  intro v hv
  rcases List.mem_cons.mp hv with rfl | hv
  · exact .int 300
  · rw [List.mem_singleton.mp hv]
    exact .absDate 1500000000 (by decide) trivial

/-- The exception for a zone file that is missing. -/
def noZoneFile : Exception := ⟨"FILE-OPEN2-ERROR", "cannot open 'UTC': No such file or directory"⟩

/-- A machine without zone files. -/
def noZoneEnv : Env Unit := { utf8Env with loadRegion := fun _ _ => .error noZoneFile }

theorem noZoneEnv_sound : noZoneEnv.Sound :=
  ⟨utf8Env_sound.conv, utf8Env_sound.qcsDefault, utf8Env_sound.noNul, utf8Env_sound.size⟩

/-- A date in UTC cannot be read where the zone file is missing, a date with a negative count of
microseconds is read as another one, and the smallest `int` as a year overflows. -/
theorem deserializeValueFromStream_dates :
    (serializeValue noZoneEnv.conv utf8 (.absDate 0 0 .utc) =
        .ok (14 :: 7 :: 0 :: 7 :: 0 :: serializeString none staticUtc) ∧
      (deserializeValueFromStream noZoneEnv streamReader
        ⟨14 :: 7 :: 0 :: 7 :: 0 :: serializeString none staticUtc, fun _ => 1⟩).1 =
          .error (.exception noZoneFile)) ∧
    (serializeValue utf8Env.conv utf8 (.absDate 0 4294967295 (.offset 60)) =
        .ok [14, 7, 0, 7, 255, 7, 60] ∧
      (deserializeValueFromStream utf8Env streamReader ⟨[14, 7, 0, 7, 255, 7, 60], fun _ => 1⟩).1 =
        .ok (.absDate (-1) 999999 (.offset 60))) ∧
    serializeValue utf8Env.conv utf8 (.relDate ⟨-2147483648, 0, 0, 0, 0, 0, 0⟩) =
        .ok (15 :: 7 :: 12 :: ascii "-2147483648Y".toList) ∧
      (deserializeValueFromStream utf8Env streamReader
        ⟨15 :: 7 :: 12 :: ascii "-2147483648Y".toList, fun _ => 1⟩).1 = .error .undefined := by
  have hutc : (Value.absDate 0 0 .utc).Representable noZoneEnv :=
    .absDate 0 (by decide) (show ZoneRef.utc.Representable from trivial)
  have hmicros : (Value.absDate 0 4294967295 (.offset 60)).Representable utf8Env :=
    .absDate 0 (by decide) (show (ZoneRef.offset 60).Representable from (by decide : FitsInt 60))
  have hyear : (Value.relDate ⟨-2147483648, 0, 0, 0, 0, 0, 0⟩).Representable utf8Env :=
    .relDate (by decide)
  refine ⟨⟨rfl, ?_⟩, ⟨rfl, ?_⟩, rfl, ?_⟩
  · rw [(deserializeValueFromStream_eq noZoneEnv_sound hutc rfl _ (List.append_nil _).symm).1,
      restore]
    rfl
  · rw [(deserializeValueFromStream_eq utf8Env_sound hmicros rfl _ (List.append_nil _).symm).1,
      restore]
    unfold makeAbsolute
    rw [normalizeUnits2_micros (by decide)]
    rfl
  · rw [(deserializeValueFromStream_eq utf8Env_sound hyear rfl _ (List.append_nil _).symm).1,
      restore, if_neg (by decide)]

end Qore.Serial
