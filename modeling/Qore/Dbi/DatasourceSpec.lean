import Qore.Dbi.Datasource

/-!
# `Qore.Dbi.DatasourceSpec`: datasource strings that are read as they were printed

* `parseOptions_print`: the options are read.
* `splitUser_path`, `splitUser_taken`: a database name with a slash is taken for a user and a
  password, unless there is a password before it, or no user and the name begins like a path.
* `parseDatasource_print_iff`: the configuration is read if and only if this does not happen.
-/

set_option autoImplicit false

namespace Qore.Dbi

open Qore.Lib Qore.Text

/-! ## Blanks -/

/-- No blank stands at the beginning. -/
def BeginsSolid (s : List UInt8) : Prop := ∀ c ∈ s.head?, isBlank c = false

/-- No blank stands at the end. -/
def EndsSolid (s : List UInt8) : Prop := ∀ c ∈ s.getLast?, isBlank c = false

instance (s : List UInt8) : Decidable (BeginsSolid s) :=
  decidable_of_iff (s.head?.all (fun c => !isBlank c) = true) (by simp [BeginsSolid, Option.all_eq_true])

instance (s : List UInt8) : Decidable (EndsSolid s) :=
  decidable_of_iff (s.getLast?.all (fun c => !isBlank c) = true) (by simp [EndsSolid, Option.all_eq_true])

theorem trim_eq {s : List UInt8} (hbegin : BeginsSolid s) (hend : EndsSolid s) : trim s = s := by
  have hright : s.rdropWhile isBlank = s := by
    rw [List.rdropWhile_eq_self_iff]
    intro hne
    rw [hend _ (List.getLast?_eq_getLast_of_ne_nil hne)]
    decide
  unfold trim
  rw [hright]
  cases s with
  | nil => rfl
  | cons c cs =>
    rw [List.dropWhile_cons_of_neg]
    rw [hbegin c rfl]
    decide

theorem EndsSolid.append {a b : List UInt8} (ha : EndsSolid a) (hb : EndsSolid b) :
    EndsSolid (a ++ b) := by
  intro c hc
  rw [List.getLast?_append] at hc
  cases hlast : b.getLast? with
  | none =>
    rw [hlast] at hc
    exact ha c hc
  | some d =>
    exact hb c (hlast ▸ hc)

/-- Only the last part of a text stands at its end. -/
theorem EndsSolid.append_right (a : List UInt8) {b : List UInt8} (hne : b ≠ [])
    (hb : EndsSolid b) : EndsSolid (a ++ b) := by
  intro c hc
  obtain ⟨d, hd⟩ : ∃ d, b.getLast? = some d := ⟨_, List.getLast?_eq_getLast_of_ne_nil hne⟩
  rw [List.getLast?_append, hd] at hc
  exact hb c (hd ▸ hc)

/-! ## The configuration -/

/-- An option that is true or has a text. -/
structure GoodOption (e : List UInt8 × Value) : Prop where
  key_nonempty : e.1 ≠ []
  key_free : Free "{},=" e.1
  key_begins : BeginsSolid e.1
  key_ends : EndsSolid e.1
  value : e.2 = .bool true ∨ ∃ s, e.2 = .string s ∧ Free "{},=" s ∧ BeginsSolid s ∧ EndsSolid s

/-- The settings that are printed. -/
def DsPrivate.settings (ds : DsPrivate) : Settings :=
  if ds.private_data then ds.current else ds.pending

/-- The parts are free of the separators. Only the password may have `@`, and only the password and
the database name may have slashes. -/
structure DsPrivate.Good (ds : DsPrivate) : Prop where
  name_free : Free "@/%:(){}" ds.name
  name_begins : BeginsSolid ds.name
  username_free : Free "@/%:(){}" ds.settings.username
  password_free : Free "%:(){}" ds.settings.password
  dbname_nonempty : ds.settings.dbname ≠ []
  dbname_free : Free "@%:(){}" ds.settings.dbname
  dbname_ends : EndsSolid ds.settings.dbname
  db_encoding_free : Free "@/%:(){}" ds.settings.db_encoding
  hostname_free : Free "@/%:(){}" ds.settings.hostname
  hostname_ends : EndsSolid ds.settings.hostname
  port_le : ds.settings.port ≤ 65535
  options : ∀ e ∈ ds.options.entries, GoodOption e

/-- What is read for the value of an option. -/
def Value.read : Value → OptionValue
  | .string s => .string s
  | _ => .true

/-- The configuration as a hash. -/
def DsPrivate.hash (ds : DsPrivate) : DatasourceHash where
  type := some ds.name
  user := nonEmpty ds.settings.username
  pass := nonEmpty ds.settings.password
  db := some ds.settings.dbname
  charset := nonEmpty ds.settings.db_encoding
  host := nonEmpty ds.settings.hostname
  port := if ds.settings.port = 0 then none else some ds.settings.port
  options := if ds.options.entries = [] then none else some (ds.options.mapVals Value.read)

/-- The database name is not taken for a user and a password. -/
def Settings.Clear (s : Settings) : Prop :=
  s.password ≠ [] ∨ byteOf '/' ∉ s.dbname ∨
    s.username = [] ∧ (ascii "/" <+: s.dbname ∨ ascii "./" <+: s.dbname)

/-! ## The options -/

/-- The text of an option. -/
def optionText (e : List UInt8 × Value) : List UInt8 :=
  match e.2 with
  | .string s => e.1 ++ byteOf '=' :: s
  | _ => e.1

/-- The options without the braces. -/
def optionsText : List (List UInt8 × Value) → List UInt8
  | [] => []
  | [e] => optionText e
  | e :: es => optionText e ++ byteOf ',' :: optionsText es

variable {e : List UInt8 × Value}

theorem printOption_good (h : GoodOption e) : printOption e = some (optionText e) := by
  obtain ⟨key, v⟩ := e
  obtain rfl | ⟨s, rfl, -⟩ := h.value
  · rfl
  · show some (key ++ ascii "=" ++ s) = some (key ++ byteOf '=' :: s)
    rw [List.append_assoc]
    rfl

variable {es : List (List UInt8 × Value)}

theorem printOptions_good (h : ∀ e ∈ es, GoodOption e) : printOptions true es =
      (if es = [] then [] else byteOf ',' :: optionsText es) ++ [byteOf '}'] := by
  induction es with
  | nil => rfl
  | cons e es ih =>
    have htail := ih fun e' he' => h e' (List.mem_cons_of_mem e he')
    rw [printOptions, printOption_good (h e List.mem_cons_self)]
    rw [htail, if_neg (List.cons_ne_nil e es)]
    cases es with
    | nil => simp [optionsText, ascii, byteOf]
    | cons e' es => simp [optionsText, ascii, byteOf]

/-- What is printed for the options. -/
theorem printOptions_eq (h : ∀ e ∈ es, GoodOption e) : printOptions false es =
      if es = [] then [] else byteOf '{' :: optionsText es ++ [byteOf '}'] := by
  cases es with
  | nil => rfl
  | cons e es =>
    rw [printOptions, printOption_good (h e List.mem_cons_self)]
    rw [printOptions_good fun e' he' => h e' (List.mem_cons_of_mem e he'),
      if_neg (List.cons_ne_nil e es)]
    cases es with
    | nil => simp [optionsText, ascii, byteOf]
    | cons e' es => simp [optionsText, ascii, byteOf]

section
variable {ds : List UInt8} {opt : Options} {key : List UInt8} {s : List UInt8}

/-- A new key with its value is read. -/
theorem setOption_new (hne : key ≠ []) (hbegin : BeginsSolid key) (hend : EndsSolid key)
    (hnew : key ∉ opt.keys) (hs : BeginsSolid s) (hs' : EndsSolid s) (rest : List UInt8) :
    setOption ds opt (key ++ rest) key.length s =
      .ok (opt.put .true key (some (.string s))) := by
  have hpos := List.length_pos_iff.mpr hne
  unfold setOption
  rw [if_neg (by omega), List.take_left, if_neg hnew, trim_eq hbegin hend, trim_eq hs hs']

/-- A key without a value, in front of other options. -/
theorem parseOptions_flag (hne : key ≠ []) (hfree : Free "{},=" key) (rest : List UInt8) :
    parseOptions ds opt (key ++ byteOf ',' :: rest) =
      parseOptions ds (opt.put .true key (some .true)) rest := by
  have hcomma : find (byteOf ',') 0 (key ++ byteOf ',' :: rest) = some key.length :=
    find_append_cons (Nat.zero_le _) (hfree.not_mem ',' (by decide)) rest
  rw [parseOptions, if_neg (by simp [hne]), hcomma]
  cases heq : find (byteOf '=') 0 (key ++ byteOf ',' :: rest) with
  | none =>
    dsimp only
    rw [List.take_left, drop_length_succ]
  | some eq =>
    -- the equals sign belongs to another option
    have hlt := lt_of_find_append (hfree.not_mem '=' (by decide)) (by decide) heq
    dsimp only
    rw [if_pos hlt, List.take_left, drop_length_succ]

/-- The last option, a key without a value. -/
theorem parseOptions_last_flag (hne : key ≠ []) (hfree : Free "{},=" key) :
    parseOptions ds opt key = .ok (opt.put .true key (some .true)) := by
  rw [parseOptions, if_neg hne, find_eq_none (hfree.not_mem '=' (by decide)),
    find_eq_none (hfree.not_mem ',' (by decide))]

/-- An option with a value, in front of other options. -/
theorem parseOptions_value (hne : key ≠ []) (hfree : Free "{},=" key) (hbegin : BeginsSolid key)
    (hend : EndsSolid key) (hnew : key ∉ opt.keys) (hs : Free "{},=" s) (hs' : BeginsSolid s)
    (hs'' : EndsSolid s) (rest : List UInt8) :
    parseOptions ds opt (key ++ byteOf '=' :: s ++ byteOf ',' :: rest) =
      parseOptions ds (opt.put .true key (some (.string s))) rest := by
  have hcomma : byteOf ',' ∉ key ++ byteOf '=' :: s := by
    rw [List.mem_append, List.mem_cons]
    rintro (h | h | h)
    · exact hfree.not_mem ',' (by decide) h
    · exact absurd h (by decide)
    · exact hs.not_mem ',' (by decide) h
  have hlen : (key ++ byteOf '=' :: s).length = key.length + 1 + s.length := by
    rw [List.length_append, List.length_cons]
    omega
  have htext : key ++ byteOf '=' :: s ++ byteOf ',' :: rest =
      key ++ byteOf '=' :: (s ++ byteOf ',' :: rest) := List.append_assoc ..
  have hequals : find (byteOf '=') 0 (key ++ byteOf '=' :: s ++ byteOf ',' :: rest) =
      some key.length := by
    rw [htext]
    exact find_append_cons (Nat.zero_le _) (hfree.not_mem '=' (by decide)) _
  have hvalue : ((key ++ byteOf '=' :: s ++ byteOf ',' :: rest).drop (key.length + 1)).take
      ((key ++ byteOf '=' :: s).length - (key.length + 1)) = s := by
    rw [htext, drop_length_succ, hlen, Nat.add_sub_cancel_left, List.take_left]
  rw [parseOptions, if_neg (by simp), hequals, find_append_cons (Nat.zero_le _) hcomma]
  dsimp only
  rw [if_neg (by omega), hvalue, drop_length_succ, htext,
    setOption_new hne hbegin hend hnew hs' hs'']

/-- The last option, with a value. -/
theorem parseOptions_last_value (hne : key ≠ []) (hfree : Free "{},=" key)
    (hbegin : BeginsSolid key) (hend : EndsSolid key) (hnew : key ∉ opt.keys) (hs : Free "{},=" s)
    (hs' : BeginsSolid s) (hs'' : EndsSolid s) :
    parseOptions ds opt (key ++ byteOf '=' :: s) =
      .ok (opt.put .true key (some (.string s))) := by
  have hcomma : byteOf ',' ∉ key ++ byteOf '=' :: s := by
    rw [List.mem_append, List.mem_cons]
    rintro (h | h | h)
    · exact hfree.not_mem ',' (by decide) h
    · exact absurd h (by decide)
    · exact hs.not_mem ',' (by decide) h
  rw [parseOptions, if_neg (by simp), find_eq_none hcomma,
    find_append_cons (Nat.zero_le _) (hfree.not_mem '=' (by decide))]
  dsimp only
  rw [drop_length_succ, setOption_new hne hbegin hend hnew hs' hs'']

end

/-- An option is read, in front of other options and as the last one. -/
theorem parseOptions_option (ds : List UInt8) (opt : Options) (he : GoodOption e)
    (hnew : e.1 ∉ opt.keys) :
    (∀ rest, parseOptions ds opt (optionText e ++ byteOf ',' :: rest) =
      parseOptions ds (opt.put .true e.1 (some e.2.read)) rest) ∧
    parseOptions ds opt (optionText e) = .ok (opt.put .true e.1 (some e.2.read)) := by
  obtain ⟨key, v⟩ := e
  obtain ⟨hne, hfree, hbegin, hend, hv⟩ := he
  obtain rfl | ⟨s, rfl, hs, hs', hs''⟩ := hv
  · exact ⟨parseOptions_flag hne hfree, parseOptions_last_flag hne hfree⟩
  · exact ⟨parseOptions_value hne hfree hbegin hend hnew hs hs' hs'',
      parseOptions_last_value hne hfree hbegin hend hnew hs hs' hs''⟩

/-- The options are read. -/
theorem parseOptions_print (ds : List UInt8) (h : ∀ e ∈ es, GoodOption e)
    (hnodup : (es.map Prod.fst).Nodup) (opt : Options) (hnew : ∀ e ∈ es, e.1 ∉ opt.keys) :
    ∃ m, parseOptions ds opt (optionsText es) = .ok m ∧
      m.entries = opt.entries ++ es.map fun e => (e.1, e.2.read) := by
  induction es generalizing opt with
  | nil =>
    refine ⟨opt, ?_, by simp⟩
    rw [optionsText, parseOptions, if_pos rfl]
  | cons e es ih =>
    have hkey := hnew e List.mem_cons_self
    obtain ⟨hmore, hlast⟩ := parseOptions_option ds opt (h e List.mem_cons_self) hkey
    have hentries : (opt.put .true e.1 (some e.2.read)).entries =
        opt.entries ++ [(e.1, e.2.read)] := OrderedMap.put_of_notMem hkey
    cases es with
    | nil => exact ⟨_, hlast, hentries⟩
    | cons e' es =>
      obtain ⟨hnot, hnodup'⟩ := List.nodup_cons.mp hnodup
      obtain ⟨m, hm, hall⟩ := ih (fun x hx => h x (List.mem_cons_of_mem e hx)) hnodup'
        (opt.put .true e.1 (some e.2.read)) (by
          intro x hx hmem
          rw [OrderedMap.keys_put_new hkey, List.mem_append, List.mem_singleton] at hmem
          obtain hmem | heq := hmem
          · exact hnew x (List.mem_cons_of_mem e hx) hmem
          · exact hnot (List.mem_map.mpr ⟨x, hx, heq⟩))
      refine ⟨m, ?_, ?_⟩
      · rw [optionsText, hmore, hm]
        exact List.cons_ne_nil e' es
      · rw [hall, hentries, List.append_assoc]
        rfl

/-! ## Behind the database name -/

section
variable {chars a s : List UInt8} {c : UInt8}

theorem checkDatasourceChars_none (ha : ∀ x ∈ a, x ∉ chars) :
    checkDatasourceChars chars a = none := by
  induction a with
  | nil => rfl
  | cons x a ih =>
    rw [checkDatasourceChars, if_neg fun h => ha x List.mem_cons_self h.1,
      ih fun y hy => ha y (List.mem_cons_of_mem x hy)]
    rfl

theorem checkDatasourceChars_append (ha : ∀ x ∈ a, x ∉ chars) (hc : c ∈ chars)
    (hdigit : c = byteOf ':' → isdigit (s.headD 0) = true) :
    checkDatasourceChars chars (a ++ c :: s) = some a.length := by
  induction a with
  | nil =>
    rw [List.nil_append, checkDatasourceChars, if_pos]
    · rfl
    · refine ⟨hc, fun h => ?_⟩
      have hno := h.2
      rw [hdigit h.1] at hno
      cases hno
  | cons x a ih =>
    rw [List.cons_append, checkDatasourceChars, if_neg fun h => ha x List.mem_cons_self h.1,
      ih fun y hy => ha y (List.mem_cons_of_mem x hy)]
    rfl

end

/-- The port with its colon. -/
def portText (port : Nat) : List UInt8 := if port = 0 then [] else byteOf ':' :: decimal port

/-- The port in a hash. -/
def portValue (port : Nat) : Option Int := if port = 0 then none else some port

section
variable {ds : List UInt8} {h : DatasourceHash} {port : Nat} {c : Char} {s : Settings}

theorem isdigit_headD_decimal (n : Nat) : isdigit ((decimal n).headD 0) = true := by
  obtain ⟨d, ds, hds⟩ := List.exists_cons_of_ne_nil (decimal_ne_nil n)
  rw [hds]
  exact isdigit_decimal (hds ▸ List.mem_cons_self)

theorem parsePort_decimal (hpos : port ≠ 0) (hle : port ≤ 65535) :
    parsePort ds h (decimal port) = .ok { h with port := some port } := by
  have htake : (decimal port).takeWhile isdigit = decimal port :=
    List.takeWhile_eq_self_iff.mpr fun b hb => isdigit_decimal hb
  have hdrop : (decimal port).dropWhile isdigit = [] :=
    List.dropWhile_eq_nil_iff.mpr fun b hb => isdigit_decimal hb
  have hatoi : atoi (decimal port) = port := by
    unfold atoi truncInt
    rw [digitsNum_decimal]
    omega
  unfold parsePort
  rw [htake, hdrop, hatoi]
  rw [if_neg (by omega), if_neg (fun hne => hne rfl)]

/-- The host and the port are read. -/
theorem parseHost_print {host : List UInt8} (hne : host ≠ []) (hfree : byteOf ':' ∉ host)
    (hport : h.port = none) (hle : port ≤ 65535) :
    parseHost ds h (host ++ portText port) =
      .ok { h with host := some host, port := portValue port } := by
  have hchars : ∀ x ∈ host, x ∉ ascii ":" := by
    intro x hx hmem
    have hx' : x = byteOf ':' := List.mem_singleton.mp hmem
    exact hfree (hx' ▸ hx)
  unfold parseHost portText portValue
  by_cases hzero : port = 0
  · rw [if_pos hzero, if_pos hzero, List.append_nil, checkDatasourceChars_none hchars]
    rw [if_neg hne, hport]
  · have hpos := List.length_pos_iff.mpr hne
    rw [if_neg hzero, if_neg hzero, checkDatasourceChars_append hchars (by decide)
      fun _ => isdigit_headD_decimal port]
    dsimp only
    rw [if_neg (by omega), List.take_left, drop_length_succ, parsePort_decimal hzero hle]

/-- The database name, the host and the port are read. -/
theorem parseDb_print {name host : List UInt8} (db : Option (List UInt8))
    (hname : Free "%:" name) (hfree : byteOf ':' ∉ host) (hport : h.port = none)
    (hhost : h.host = none) (hle : port ≤ 65535) :
    parseDb ds h db (name ++ (unlessEmpty (ascii "%") host [] ++ portText port)) =
      .ok { h with db := some (db.getD name), host := nonEmpty host, port := portValue port } := by
  unfold parseDb unlessEmpty nonEmpty
  by_cases hempty : host = []
  · rw [if_pos hempty, if_pos hempty, List.nil_append]
    unfold portText portValue
    by_cases hzero : port = 0
    · rw [if_pos hzero, if_pos hzero, List.append_nil, checkDatasourceChars_none hname, hport,
        hhost]
    · rw [if_neg hzero, if_neg hzero, checkDatasourceChars_append hname (by decide)
        fun _ => isdigit_headD_decimal port]
      have hcolon : (name ++ byteOf ':' :: decimal port)[name.length]? ≠ some (byteOf '%') := by
        rw [List.getElem?_append_right (Nat.le_refl _), Nat.sub_self, List.getElem?_cons_zero]
        decide
      dsimp only
      rw [if_neg hcolon, List.take_left, drop_length_succ, parsePort_decimal hzero hle, hhost]
  · rw [if_neg hempty, if_neg hempty]
    have htext : name ++ (ascii "%" ++ host ++ [] ++ portText port) =
        name ++ byteOf '%' :: (host ++ portText port) := by
      rw [List.append_nil, List.append_assoc]
      rfl
    rw [htext, checkDatasourceChars_append hname (by decide) fun h => absurd h (by decide)]
    have hpercent : (name ++ byteOf '%' :: (host ++ portText port))[name.length]? =
        some (byteOf '%') := by
      rw [List.getElem?_append_right (Nat.le_refl _), Nat.sub_self]
      rfl
    dsimp only
    rw [if_pos hpercent, List.take_left, drop_length_succ]
    exact parseHost_print hempty hfree hport hle

/-- What stands behind the database name. -/
def Settings.tail (s : Settings) : List UInt8 :=
  unlessEmpty (ascii "(") s.db_encoding (ascii ")") ++
    (unlessEmpty (ascii "%") s.hostname [] ++ portText s.port)

theorem not_mem_portText (hc : byteOf c ≠ byteOf ':') (hdigit : isdigit (byteOf c) = false)
    (port : Nat) : byteOf c ∉ portText port := by
  unfold portText
  split
  · exact List.not_mem_nil
  · rw [List.mem_cons]
    exact fun hmem => hmem.elim hc (not_mem_decimal hdigit port)

theorem not_mem_hostPort (hhost : byteOf c ∉ s.hostname) (hc : byteOf c ∉ ascii "%:")
    (hdigit : isdigit (byteOf c) = false) :
    byteOf c ∉ unlessEmpty (ascii "%") s.hostname [] ++ portText s.port := by
  have hcolon : byteOf c ≠ byteOf ':' := fun h => hc (h ▸ by decide)
  have hpercent : byteOf c ∉ ascii "%" := fun h => hc (List.mem_append_left (ascii ":") h)
  unfold unlessEmpty
  rw [List.mem_append]
  rintro (h | h)
  · split at h
    · cases h
    · rw [List.append_nil, List.mem_append] at h
      exact h.elim hpercent hhost
  · exact not_mem_portText hcolon hdigit s.port h

/-- The tail has only its separators, digits and what is in the parts. -/
theorem not_mem_tail (hencoding : byteOf c ∉ s.db_encoding) (hhost : byteOf c ∉ s.hostname)
    (hc : byteOf c ∉ ascii "%:()") (hdigit : isdigit (byteOf c) = false) : byteOf c ∉ s.tail := by
  have hleft : byteOf c ∉ ascii "(" := fun h =>
    hc (List.mem_append_left (ascii ")") (List.mem_append_right (ascii "%:") h))
  have hright : byteOf c ∉ ascii ")" := fun h => hc (List.mem_append_right (ascii "%:(") h)
  have hrest := not_mem_hostPort hhost (fun h => hc (List.mem_append_left (ascii "()") h)) hdigit
  unfold Settings.tail
  rw [List.mem_append]
  rintro (h | h)
  · unfold unlessEmpty at h
    split at h
    · cases h
    · rw [List.mem_append, List.mem_append] at h
      rcases h with (h | h) | h
      · exact hleft h
      · exact hencoding h
      · exact hright h
  · exact hrest h

/-- The database name and what stands behind it are read. -/
theorem parseCharset_print (hname : Free "@%:(){}" s.dbname)
    (hencoding : Free "@/%:(){}" s.db_encoding) (hhostname : Free "@/%:(){}" s.hostname)
    (hle : s.port ≤ 65535) (hport : h.port = none) (hhost : h.host = none)
    (hcharset : h.charset = none) :
    parseCharset ds h (s.dbname ++ s.tail) =
      .ok { h with
        db := some s.dbname
        charset := nonEmpty s.db_encoding
        host := nonEmpty s.hostname
        port := portValue s.port } := by
  have hopen : byteOf '(' ∉ s.dbname := hname.not_mem '(' (by decide)
  have hcolon : byteOf ':' ∉ s.hostname := hhostname.not_mem ':' (by decide)
  unfold parseCharset Settings.tail nonEmpty
  by_cases hempty : s.db_encoding = []
  · have hno : byteOf '(' ∉
        s.dbname ++ (unlessEmpty (ascii "%") s.hostname [] ++ portText s.port) := by
      rw [List.mem_append]
      exact fun hmem => hmem.elim hopen
        (not_mem_hostPort (hhostname.not_mem '(' (by decide)) (by decide) (by decide))
    have htext : unlessEmpty (ascii "(") s.db_encoding (ascii ")") = [] := if_pos hempty
    rw [htext, List.nil_append, find_eq_none hno]
    rw [parseDb_print none (hname.mono (by decide)) hcolon hport hhost hle, if_pos hempty, hcharset]
    rfl
  · have hclose : byteOf ')' ∉ (s.dbname ++ byteOf '(' :: s.db_encoding).drop s.dbname.length := by
      rw [List.drop_left, List.mem_cons]
      exact fun hmem => hmem.elim (by decide) (hencoding.not_mem ')' (by decide))
    generalize hrest : unlessEmpty (ascii "%") s.hostname [] ++ portText s.port = rest
    have htext : s.dbname ++ (unlessEmpty (ascii "(") s.db_encoding (ascii ")") ++ rest) =
        s.dbname ++ byteOf '(' :: s.db_encoding ++ byteOf ')' :: rest := by
      unfold unlessEmpty
      rw [if_neg hempty]
      simp [ascii, byteOf]
    have hlen : (s.dbname ++ byteOf '(' :: s.db_encoding).length =
        s.dbname.length + 1 + s.db_encoding.length := by
      rw [List.length_append, List.length_cons]
      omega
    have hfind : find (byteOf '(') 0 (s.dbname ++ byteOf '(' :: s.db_encoding ++
        byteOf ')' :: rest) = some s.dbname.length := by
      rw [List.append_assoc]
      exact find_append_cons (Nat.zero_le _) hopen _
    have htake : (s.dbname ++ byteOf '(' :: s.db_encoding ++ byteOf ')' :: rest).take
        s.dbname.length = s.dbname := by
      rw [List.append_assoc, List.take_left]
    have hcharset : ((s.dbname ++ byteOf '(' :: s.db_encoding ++ byteOf ')' :: rest).drop
        (s.dbname.length + 1)).take ((s.dbname ++ byteOf '(' :: s.db_encoding).length -
          (s.dbname.length + 1)) = s.db_encoding := by
      rw [List.append_assoc, List.cons_append, drop_length_succ, hlen, Nat.add_sub_cancel_left,
        List.take_left]
    rw [htext, hfind]
    dsimp only
    rw [find_append_cons (by omega) hclose]
    dsimp only
    rw [hcharset, htake, drop_length_succ, if_neg hempty, ← hrest]
    have hnil : Free "%:" [] := fun _ hmem => absurd hmem List.not_mem_nil
    have hparse := @parseDb_print ds { h with charset := some s.db_encoding } _ _ _
      (some s.dbname) hnil hcolon hport hhost hle
    exact hparse

end

/-! ## The user and the password -/

section
variable {user pw rest name : List UInt8}

/-- The user before a password. -/
theorem splitUser_password (huser : Free "@/" user)
    (hbrace : byteOf '}' ∉ pw ++ byteOf '@' :: rest) :
    splitUser (user ++ byteOf '/' :: (pw ++ byteOf '@' :: rest)) =
      some (user, pw ++ byteOf '@' :: rest) := by
  have hhead : (user ++ byteOf '/' :: (pw ++ byteOf '@' :: rest)).head? ≠ some (byteOf '@') := by
    cases user with
    | nil => exact fun h => absurd (Option.some.inj h) (by decide)
    | cons c cs =>
      exact fun h => huser.not_mem '@' (by decide) (Option.some.inj h ▸ List.mem_cons_self)
  unfold splitUser
  rw [find_append_cons (Nat.zero_le _) (huser.not_mem '/' (by decide))]
  dsimp only
  rw [if_neg fun h => hhead h.1, drop_length_succ, if_neg fun h => hbrace h.1, List.take_left]

/-- Without a password a database name without a slash is not split. -/
theorem splitUser_none (h : byteOf '/' ∉ user ++ byteOf '@' :: rest) :
    splitUser (user ++ byteOf '@' :: rest) = none := by
  unfold splitUser
  rw [find_eq_none h]

/-- Neither is a path when there is no user. -/
theorem splitUser_path (h : ascii "/" <+: rest ∨ ascii "./" <+: rest) :
    splitUser (byteOf '@' :: rest) = none := by
  unfold splitUser
  obtain ⟨t, rfl⟩ | ⟨t, rfl⟩ := h
  · have hfind : find (byteOf '/') 0 (byteOf '@' :: (ascii "/" ++ t)) = some 1 :=
      find_append_cons (a := [byteOf '@']) (Nat.zero_le _) (by decide) t
    exact if_pos ⟨rfl, .inl rfl⟩
  · have hfind : find (byteOf '/') 0 (byteOf '@' :: (ascii "./" ++ t)) = some 2 :=
      find_append_cons (a := [byteOf '@', byteOf '.']) (Nat.zero_le _) (by decide) t
    exact if_pos ⟨rfl, .inr ⟨rfl, rfl⟩⟩

/-- Any other one is split, and the `@` belongs to the user then. -/
theorem splitUser_taken (huser : Free "@/" user) (hslash : byteOf '/' ∈ rest)
    (hat : byteOf '@' ∉ rest) (hbrace : byteOf '}' ∉ rest)
    (hpath : user = [] → ¬ascii "/" <+: rest ∧ ¬ascii "./" <+: rest) :
    ∃ u str, splitUser (user ++ byteOf '@' :: rest) = some (u, str) ∧ byteOf '@' ∉ str := by
  obtain ⟨a, r, rfl, ha⟩ := List.eq_append_cons_of_mem hslash
  have htext : user ++ byteOf '@' :: (a ++ byteOf '/' :: r) =
      (user ++ byteOf '@' :: a) ++ byteOf '/' :: r := by simp
  have hbefore : byteOf '/' ∉ user ++ byteOf '@' :: a := by
    rw [List.mem_append, List.mem_cons]
    rintro (h | h | h)
    · exact huser.not_mem '/' (by decide) h
    · exact absurd h (by decide)
    · exact ha h
  refine ⟨user ++ byteOf '@' :: a, r, ?_, fun h => hat (by simp [h])⟩
  unfold splitUser
  rw [htext, find_append_cons (Nat.zero_le _) hbefore]
  dsimp only
  rw [if_neg, drop_length_succ, if_neg fun h => hbrace (by simp [h.1]), List.take_left]
  rintro ⟨hhead, hlen⟩
  cases user with
  | cons c cs => exact huser.not_mem '@' (by decide) (Option.some.inj hhead ▸ List.mem_cons_self)
  | nil =>
    obtain ⟨hslash', hdot⟩ := hpath rfl
    rw [List.nil_append, List.length_cons] at hlen
    obtain hone | ⟨htwo, hget⟩ := hlen
    · obtain rfl : a = [] := List.length_eq_zero_iff.mp (by omega)
      exact hslash' ⟨r, rfl⟩
    · obtain ⟨b, rfl⟩ := List.length_eq_one_iff.mp (show a.length = 1 by omega)
      have hb : b = byteOf '.' := Option.some.inj hget
      exact hdot ⟨r, by rw [hb]; rfl⟩

end

/-! ## All of it -/

theorem optionText_brace (h : GoodOption e) : byteOf '{' ∉ optionText e := by
  obtain ⟨key, v⟩ := e
  have hkey := h.key_free.not_mem '{' (by decide)
  obtain rfl | ⟨s, rfl, hs, -⟩ := h.value
  · exact hkey
  · show byteOf '{' ∉ key ++ byteOf '=' :: s
    rw [List.mem_append, List.mem_cons]
    rintro (hmem | hmem | hmem)
    · exact hkey hmem
    · exact absurd hmem (by decide)
    · exact hs.not_mem '{' (by decide) hmem

theorem optionsText_brace (h : ∀ e ∈ es, GoodOption e) : byteOf '{' ∉ optionsText es := by
  induction es with
  | nil => exact List.not_mem_nil
  | cons e es ih =>
    have he := optionText_brace (h e List.mem_cons_self)
    have hes := ih fun e' he' => h e' (List.mem_cons_of_mem e he')
    cases es with
    | nil => exact he
    | cons e' es =>
      rw [optionsText, List.mem_append, List.mem_cons]
      · rintro (hmem | hmem | hmem)
        · exact he hmem
        · exact absurd hmem (by decide)
        · exact hes hmem
      · exact List.cons_ne_nil e' es

/-- The options at the end are read. -/
theorem splitOptions_print (text : List UInt8) {before : List UInt8} (hne : before ≠ [])
    (hbrace : byteOf '}' ∉ before) (m : OrderedMap (List UInt8) Value)
    (h : ∀ e ∈ m.entries, GoodOption e) :
    splitOptions text (before ++ printOptions false m.entries) =
      .ok (if m.entries = [] then none else some (m.mapVals Value.read), before) := by
  unfold splitOptions
  rw [printOptions_eq h]
  by_cases hempty : m.entries = []
  · rw [if_pos hempty, if_pos hempty, List.append_nil, if_neg]
    rintro ⟨-, hlast⟩
    exact hbrace (List.mem_of_getLast? hlast)
  · have hpos := List.length_pos_iff.mpr hne
    rw [if_neg hempty, if_neg hempty]
    have htext : before ++ (byteOf '{' :: optionsText m.entries ++ [byteOf '}']) =
        before ++ byteOf '{' :: optionsText m.entries ++ [byteOf '}'] := by simp
    have hlast : (before ++ byteOf '{' :: optionsText m.entries ++ [byteOf '}']).getLast? =
        some (byteOf '}') := List.getLast?_concat
    have hfind : rfind (byteOf '{') (before ++ byteOf '{' :: optionsText m.entries ++
        [byteOf '}']) = some before.length := by
      have hno : byteOf '{' ∉ optionsText m.entries ++ [byteOf '}'] := by
        rw [List.mem_append, List.mem_singleton]
        exact fun hmem => hmem.elim (optionsText_brace h) (by decide)
      rw [List.append_assoc]
      exact rfind_append_cons before hno
    have hbody : ((before ++ byteOf '{' :: optionsText m.entries ++ [byteOf '}']).take
        ((before ++ byteOf '{' :: optionsText m.entries ++ [byteOf '}']).length - 1)).drop
          (before.length + 1) = optionsText m.entries := by
      rw [List.length_append, List.length_singleton, Nat.add_sub_cancel, List.take_left,
        drop_length_succ]
    have hlen : 2 < (before ++ byteOf '{' :: optionsText m.entries ++ [byteOf '}']).length := by
      simp only [List.length_append, List.length_cons, List.length_nil]
      omega
    obtain ⟨read, hread, hentries⟩ := parseOptions_print text h m.nodup .empty (by
      intro e _ hmem
      cases hmem)
    have hmap : read = m.mapVals Value.read := OrderedMap.ext hentries
    rw [htext, if_pos ⟨hlen, hlast⟩, hfind]
    dsimp only
    rw [hbody, hread, hmap]
    rw [List.append_assoc, List.take_left]

/-- The settings as they are printed. -/
theorem Settings.print_eq {s : Settings} (hdb : s.dbname ≠ []) (private_data : Bool) :
    s.print private_data = s.username ++ (unlessEmpty (ascii "/") s.password [] ++
      byteOf '@' :: (s.dbname ++ s.tail)) := by
  have hat : (if private_data then ascii "@" ++ s.dbname
      else unlessEmpty (ascii "@") s.dbname []) = byteOf '@' :: s.dbname := by
    cases private_data with
    | true => rfl
    | false =>
      show unlessEmpty (ascii "@") s.dbname [] = _
      unfold unlessEmpty
      rw [if_neg hdb, List.append_nil]
      rfl
  have huser : unlessEmpty [] s.username [] = s.username := by
    unfold unlessEmpty
    split
    · rename_i hempty
      rw [hempty]
    · simp
  unfold Settings.print Settings.tail portText
  rw [hat, huser]
  simp [ascii, byteOf]

theorem isBlank_of_isdigit {c : UInt8} (h : isdigit c = true) : isBlank c = false := by
  have hblanks : ([32, 9, 10, 13, 11] : List UInt8).all (fun b => !isdigit b) = true := by decide
  by_contra hblank
  rw [Bool.not_eq_false] at hblank
  have hdigit := List.all_eq_true.mp hblanks c (List.contains_iff_mem.mp hblank)
  rw [h] at hdigit
  cases hdigit

theorem endsSolid_tail {s : Settings} (hhost : EndsSolid s.hostname) : EndsSolid s.tail := by
  have hempty : EndsSolid [] := fun c hc => by cases hc
  have hencoding : EndsSolid (unlessEmpty (ascii "(") s.db_encoding (ascii ")")) := by
    unfold unlessEmpty
    split
    · exact hempty
    · exact EndsSolid.append_right _ (by decide) (by decide)
  have hhost' : EndsSolid (unlessEmpty (ascii "%") s.hostname []) := by
    unfold unlessEmpty
    split
    · exact hempty
    · rename_i hne
      rw [List.append_nil]
      exact EndsSolid.append_right _ hne hhost
  have hport : EndsSolid (portText s.port) := by
    unfold portText
    split
    · exact hempty
    · intro c hc
      have hmem : c ∈ byteOf ':' :: decimal s.port := List.mem_of_getLast? hc
      obtain rfl | hdigit := List.mem_cons.mp hmem
      · decide
      · exact isBlank_of_isdigit (isdigit_decimal hdigit)
  exact hencoding.append (hhost'.append hport)

namespace DsPrivate

variable {ds : DsPrivate}

/-- The text in front of the options. -/
def front (ds : DsPrivate) : List UInt8 :=
  ds.name ++ byteOf ':' :: ds.settings.print ds.private_data

theorem getConfigString_eq (ds : DsPrivate) :
    ds.getConfigString = ds.front ++ printOptions false ds.options.entries := by
  unfold getConfigString front settings
  rw [show ds.name ++ ascii ":" ++ _ = ds.name ++ (ascii ":" ++ _) from List.append_assoc ..]
  rfl

/-- There is no blank to trim. -/
theorem trim_getConfigString (h : ds.Good) : trim ds.getConfigString = ds.getConfigString := by
  rw [getConfigString_eq]
  refine trim_eq ?_ ?_
  · intro c hc
    unfold front at hc
    cases hname : ds.name with
    | nil =>
      rw [hname] at hc
      obtain rfl := Option.some.inj hc
      decide
    | cons d name =>
      rw [hname] at hc
      exact h.name_begins c (by rw [hname]; exact hc)
  · refine EndsSolid.append ?_ ?_
    · unfold front
      rw [Settings.print_eq h.dbname_nonempty]
      have hend : EndsSolid (byteOf '@' :: (ds.settings.dbname ++ ds.settings.tail)) :=
        EndsSolid.append_right [byteOf '@'] (by simp [h.dbname_nonempty])
          (h.dbname_ends.append (endsSolid_tail h.hostname_ends))
      exact EndsSolid.append_right _ (List.cons_ne_nil _ _) <|
        EndsSolid.append_right [byteOf ':'] (by simp) <|
        EndsSolid.append_right _ (by simp) <|
        EndsSolid.append_right _ (List.cons_ne_nil _ _) hend
    · rw [printOptions_eq h.options]
      split
      · exact fun c hc => by cases hc
      · exact EndsSolid.append_right _ (by decide) (by decide)

/-- What stands in front of the options has no brace. -/
theorem brace_not_mem_front (h : ds.Good) : byteOf '}' ∉ ds.front := by
  have htail : byteOf '}' ∉ ds.settings.tail :=
    not_mem_tail (h.db_encoding_free.not_mem '}' (by decide))
      (h.hostname_free.not_mem '}' (by decide)) (by decide) (by decide)
  have hpassword : byteOf '}' ∉ unlessEmpty (ascii "/") ds.settings.password [] := by
    unfold unlessEmpty
    split
    · exact List.not_mem_nil
    · rw [List.append_nil, List.mem_append]
      exact fun hmem => hmem.elim (by decide) (h.password_free.not_mem '}' (by decide))
  unfold front
  rw [Settings.print_eq h.dbname_nonempty]
  simp only [List.mem_append, List.mem_cons, not_or]
  exact ⟨h.name_free.not_mem '}' (by decide), by decide,
    h.username_free.not_mem '}' (by decide), hpassword, by decide,
    h.dbname_free.not_mem '}' (by decide), htail⟩

theorem splitDriver_front (h : ds.Good) :
    splitDriver ds.front = (some ds.name, ds.settings.print ds.private_data) := by
  have hfree : Free "@/%" ds.name := h.name_free.mono (by decide)
  have hany : ds.name.any (· ∈ ascii "@/%") = false := by
    rw [List.any_eq_false]
    exact fun c hc hmem => hfree c hc (of_decide_eq_true hmem)
  unfold splitDriver front
  rw [find_append_cons (Nat.zero_le _) (h.name_free.not_mem ':' (by decide))]
  dsimp only
  rw [List.take_left, drop_length_succ, hany]
  rfl

/-- What is read, up to the user and the password. -/
theorem parseDatasource_getConfigString (h : ds.Good) :
    parseDatasource ds.getConfigString =
      let str := ds.settings.print ds.private_data
      let (user, has_pass, str) :=
        match splitUser str with
        | none => (none, false, str)
        | some (user, str) => (nonEmpty user, true, str)
      match rfind (byteOf '@') str with
      | none => .error (.missingDb ds.getConfigString)
      | some p =>
        let name := nonEmpty (str.take p)
        let hash : DatasourceHash :=
          if has_pass then
            { type := some ds.name, user, pass := name, options := ds.hash.options }
          else { type := some ds.name, user := name, options := ds.hash.options }
        parseCharset ds.getConfigString hash (str.drop (p + 1)) := by
  have hfront : ds.front ≠ [] := by
    unfold front
    simp
  have hsplit := splitOptions_print ds.getConfigString hfront (brace_not_mem_front h) ds.options
    h.options
  have hne : ds.getConfigString ≠ [] := by
    rw [getConfigString_eq]
    exact fun hnil => hfront (List.append_eq_nil_iff.mp hnil).1
  rw [← getConfigString_eq] at hsplit
  unfold parseDatasource
  rw [if_neg hne, trim_getConfigString h, hsplit]
  dsimp only
  rw [splitDriver_front h]
  rfl

end DsPrivate

/-- A path with a slash begins as one in the name already. -/
theorem path_of_prefix {name rest : List UInt8} (hslash : byteOf '/' ∈ name)
    (h : ascii "/" <+: name ++ rest ∨ ascii "./" <+: name ++ rest) :
    ascii "/" <+: name ∨ ascii "./" <+: name := by
  cases name with
  | nil => cases hslash
  | cons c cs =>
    obtain h | h := h
    · obtain rfl := (List.cons_prefix_cons.mp h).1
      exact .inl ⟨cs, rfl⟩
    · have hfirst := (List.cons_prefix_cons.mp h).1
      have hsecond : ascii "/" <+: cs ++ rest := (List.cons_prefix_cons.mp h).2
      subst hfirst
      cases cs with
      | nil => exact absurd hslash (by decide)
      | cons d cs =>
        obtain rfl := (List.cons_prefix_cons.mp hsecond).1
        exact .inr ⟨cs, rfl⟩

/-! ## The result -/

/-- The configuration is read as it was printed if and only if the database name is not taken for a
user and a password: there is a password, or the name has no slash, or there is no user and the name
begins with `/` or `./`. -/
theorem parseDatasource_print_iff (ds : DsPrivate) (h : ds.Good) :
    parseDatasource ds.getConfigString = .ok ds.hash ↔ ds.settings.Clear := by
  have hat : byteOf '@' ∉ ds.settings.dbname ++ ds.settings.tail := by
    rw [List.mem_append]
    exact fun hmem => hmem.elim (h.dbname_free.not_mem '@' (by decide))
      (not_mem_tail (h.db_encoding_free.not_mem '@' (by decide))
        (h.hostname_free.not_mem '@' (by decide)) (by decide) (by decide))
  have hbrace : byteOf '}' ∉ ds.settings.dbname ++ ds.settings.tail := by
    rw [List.mem_append]
    exact fun hmem => hmem.elim (h.dbname_free.not_mem '}' (by decide))
      (not_mem_tail (h.db_encoding_free.not_mem '}' (by decide))
        (h.hostname_free.not_mem '}' (by decide)) (by decide) (by decide))
  have hslash : byteOf '/' ∉ ds.settings.tail :=
    not_mem_tail (h.db_encoding_free.not_mem '/' (by decide))
      (h.hostname_free.not_mem '/' (by decide)) (by decide) (by decide)
  have huser : Free "@/" ds.settings.username := h.username_free.mono (by decide)
  have hcharset (hash : DatasourceHash) (hport : hash.port = none) (hhost : hash.host = none)
      (hnone : hash.charset = none) :=
    @parseCharset_print ds.getConfigString hash _ h.dbname_free h.db_encoding_free h.hostname_free
      h.port_le hport hhost hnone
  rw [DsPrivate.parseDatasource_getConfigString h, Settings.print_eq h.dbname_nonempty]
  by_cases hpw : ds.settings.password = []
  · have hnopw : unlessEmpty (ascii "/") ds.settings.password [] = [] := if_pos hpw
    rw [hnopw, List.nil_append]
    dsimp only
    by_cases hclear : ds.settings.Clear
    · have hsplit : splitUser (ds.settings.username ++
          byteOf '@' :: (ds.settings.dbname ++ ds.settings.tail)) = none := by
        obtain hne | hno | ⟨hempty, hpath⟩ := hclear
        · exact absurd hpw hne
        · refine splitUser_none ?_
          simp only [List.mem_append, List.mem_cons, not_or]
          exact ⟨huser.not_mem '/' (by decide), by decide, hno, hslash⟩
        · rw [hempty]
          exact splitUser_path (hpath.imp (·.trans (List.prefix_append _ _))
            (·.trans (List.prefix_append _ _)))
      rw [hsplit]
      rw [rfind_append_cons _ hat]
      dsimp only
      rw [List.take_left, drop_length_succ, if_neg Bool.false_ne_true, hcharset _ rfl rfl rfl]
      refine iff_of_true ?_ hclear
      unfold DsPrivate.hash
      rw [hpw]
      rfl
    · -- the text behind the slash has no `@`
      refine iff_of_false ?_ hclear
      unfold Settings.Clear at hclear
      rw [not_or, not_or, not_not] at hclear
      obtain ⟨-, hdb, hpath⟩ := hclear
      rw [not_not] at hdb
      have hprefix (hempty : ds.settings.username = []) :
          ¬ascii "/" <+: ds.settings.dbname ++ ds.settings.tail ∧
            ¬ascii "./" <+: ds.settings.dbname ++ ds.settings.tail := by
        rw [← not_or]
        exact fun hmem => hpath ⟨hempty, path_of_prefix hdb hmem⟩
      obtain ⟨user, str, hsplit, hno⟩ := splitUser_taken huser (List.mem_append_left _ hdb) hat
        hbrace hprefix
      rw [hsplit]
      rw [rfind_eq_none_iff.mpr hno]
      rintro ⟨⟩
  · have htext : unlessEmpty (ascii "/") ds.settings.password [] ++
        byteOf '@' :: (ds.settings.dbname ++ ds.settings.tail) =
        byteOf '/' :: (ds.settings.password ++
          byteOf '@' :: (ds.settings.dbname ++ ds.settings.tail)) := by
      unfold unlessEmpty
      rw [if_neg hpw, List.append_nil]
      rfl
    have hbrace' : byteOf '}' ∉ ds.settings.password ++
        byteOf '@' :: (ds.settings.dbname ++ ds.settings.tail) := by
      rw [List.mem_append, List.mem_cons]
      rintro (hmem | hmem | hmem)
      · exact h.password_free.not_mem '}' (by decide) hmem
      · exact absurd hmem (by decide)
      · exact hbrace hmem
    rw [htext]
    dsimp only
    rw [splitUser_password huser hbrace']
    rw [rfind_append_cons _ hat]
    dsimp only
    rw [List.take_left, drop_length_succ, if_pos rfl, hcharset _ rfl rfl rfl]
    exact iff_of_true rfl (.inl hpw)

/-- `pgsql:u@/d` or `pgsql:@/d`, with a charset, a host, a port and two options. -/
def pathDatasource (user : Bool) : DsPrivate where
  name := ascii "pgsql"
  private_data := true
  current := ⟨if user then ascii "u" else [], [], ascii "/d", ascii "utf8", ascii "h", 5432⟩
  pending := ⟨[], [], [], [], [], 0⟩
  options := ⟨[(ascii "a", .bool true), (ascii "b", .string (ascii "c d"))], by decide⟩

theorem pathDatasource_good (user : Bool) : (pathDatasource user).Good := by
  have hoptions : ∀ e ∈ (pathDatasource user).options.entries, GoodOption e := by
    intro e he
    have he' : e ∈ [(ascii "a", Value.bool true), (ascii "b", .string (ascii "c d"))] := he
    rw [List.mem_cons, List.mem_singleton] at he'
    obtain rfl | rfl := he'
    · exact ⟨by decide, by decide, by decide, by decide, .inl rfl⟩
    · exact ⟨by decide, by decide, by decide, by decide,
        .inr ⟨ascii "c d", rfl, by decide, by decide, by decide⟩⟩
  cases user with
  | false => exact ⟨by decide, by decide, by decide, by decide, by decide, by decide, by decide,
      by decide, by decide, by decide, by decide, hoptions⟩
  | true => exact ⟨by decide, by decide, by decide, by decide, by decide, by decide, by decide,
      by decide, by decide, by decide, by decide, hoptions⟩

theorem parseDatasource_print_path :
    (pathDatasource false).Good ∧
    (parseDatasource (pathDatasource false).getConfigString = .ok (pathDatasource false).hash ↔
      (pathDatasource false).settings.Clear) :=
  ⟨pathDatasource_good false,
    parseDatasource_print_iff (pathDatasource false) (pathDatasource_good false)⟩

/-- With the user `u` and no password, the text cannot be read. -/
theorem parseDatasource_print_user :
    (pathDatasource true).Good ∧
      parseDatasource (pathDatasource true).getConfigString =
        .error (.missingDb (pathDatasource true).getConfigString) := by
  refine ⟨pathDatasource_good true, ?_⟩
  rw [DsPrivate.parseDatasource_getConfigString (pathDatasource_good true)]
  rfl

end Qore.Dbi
