import Qore.Text.Encoding
import Qore.Text.Str

/-!
# `Qore.Text.Format`: formatted text and encodings of data

The functions that append to a string through `sprintf`, and those that write bytes as hexadecimal
digits, in base 64 or with character entities. All of them end in `concat(char)`, in
`concat(const char*)` or in `vsnprintf`.

`Keeps M f r` says that a computation succeeds with a string that holds some text. It is kept by
sequences (`Keeps.bind`), and so each function has one lemma:

* `sprintf_holds`: the loop of `sprintf` ends after two rounds at most and appends the text, if the
  text is shorter than 2^31 bytes.
* `snprintf_holds`: the text must also be shorter than the size that is given.
* `concatEncode_keeps`: the text is kept when `allocate`, which computes with 32 bits, does not make
  the buffer too small.
-/

set_option autoImplicit false

namespace Qore.Text

open Qore.Lib Qore.Lib.Cells

/-- The bytes of an ASCII text. -/
def ascii (s : String) : List UInt8 := s.toList.map fun c => .ofNat c.toNat

/-- `%u`. -/
def decimal (n : Nat) : List UInt8 := (Nat.toDigits 10 n).map fun c => .ofNat c.toNat

/-- `%0wd`, for a minimal width `w`. -/
def paddedInt (w : Nat) (x : Int) : List UInt8 :=
  let sign := if x < 0 then ascii "-" else []
  sign ++ List.replicate (w - sign.length - (decimal x.natAbs).length) 48 ++ decimal x.natAbs

/-! ## `printf` -/

section
variable (M : Memory UInt8)

/-- `MIN_SPRINTF_BUFSIZE`. -/
def minSprintfBufsize : Nat := 64

/-- `::vsnprintf(buf + len, n, fmt, args)`, where the formatted text is `out`; the result is an
`int`. -/
def Str.cVsnprintf (s : Str UInt8) (n : Nat) (out : List UInt8) : Option (Str UInt8 × Int) := do
  let t ← (if n = 0 then some s else s.put s.len (out.take (n - 1) ++ [M.zero]))
  some (t, if out.length < 2 ^ 31 then (out.length : Int) else -1)

/-- `vsprintf`; the second component is false when the buffer was too small. -/
def Str.vsprintf (s : Str UInt8) (fmtlen : Nat) (out : List UInt8) : Option (Str UInt8 × Bool) := do
  let s :=
    if sizeSub (sizeSub s.allocated s.len) fmtlen < minSprintfBufsize then
      s.realloc M (cacheLines (s.allocated + (fmtlen + minSprintfBufsize)))
    else s
  let free := sizeSub s.allocated s.len
  let (s, i) ← s.cVsnprintf M free out
  if free ≤ i then do
    let s ← (s.realloc M (cacheLines (s.len + i.toNat + strClassExtra))).put s.len [M.zero]
    some (s, false)
  else some (s.setLen (toSize (s.len + i)), true)

/-- The loop of `sprintf`, for a number of rounds. -/
def Str.sprintfLoop (fmtlen : Nat) (out : List UInt8) : Nat → Str UInt8 → Option (Str UInt8)
  | 0, _ => none
  | n + 1, s => do
    let (s, done) ← s.vsprintf M fmtlen out
    if done then some s else Str.sprintfLoop fmtlen out n s

/-- `sprintf`, for a format of the length `fmtlen` that gives the text `out`. The loop has no bound in
the program; it never makes a third round. -/
def Str.sprintf (s : Str UInt8) (fmtlen : Nat) (out : List UInt8) : Option (Str UInt8) :=
  Str.sprintfLoop M fmtlen out 2 s

/-- The size of the buffer that `vsnprintf` writes to. -/
def snprintfSize (allocated len size : Nat) : Nat :=
  if sizeSub allocated len < size % 2 ^ 32 then allocated + (size + strClassExtra) else allocated

/-- `vsnprintf(size, fmt, args)` and `snprintf`. -/
def Str.snprintf (s : Str UInt8) (size : Nat) (out : List UInt8) : Option (Str UInt8) := do
  let s :=
    if sizeSub s.allocated s.len < size % 2 ^ 32 then
      s.realloc M (s.allocated + (size + strClassExtra))
    else s
  let (s, i) ← s.cVsnprintf M size out
  some (s.setLen (toSize (s.len + i)))

/-! ## Hexadecimal digits and base 64 -/

/-- `DO_HEX_CHAR`. -/
def doHexChar (b : UInt8) : UInt8 := b + if 9 < b then 87 else 48

/-- `concatHex`. -/
def Str.concatHex (s : Str UInt8) (binbuf : List UInt8) : Option (Str UInt8) :=
  binbuf.foldlM (fun s (b : UInt8) => do
    let s ← s.concatChar M (doHexChar ((b &&& 0xf0) >>> 4))
    s.concatChar M (doHexChar (b &&& 0x0f))) s

/-- `table64`. -/
def table64 : List UInt8 :=
  ascii "ABCDEFGHIJKLMNOPQRSTUVWXYZabcdefghijklmnopqrstuvwxyz0123456789+/"

/-- `base64_concat`; the second component is `linelen`. -/
def Str.base64Concat (s : Str UInt8) (c : UInt8) (linelen maxlinelen : Nat) (urlEncode : Bool) :
    Option (Str UInt8 × Nat) :=
  let c := table64.getD c.toNat 0
  if urlEncode then
    (s.concatChar M (if c = 43 then 45 else if c = 47 then 95 else c)).map (·, linelen)
  else do
    let s ← s.concatChar M c
    let linelen := linelen + 1
    if 0 < maxlinelen ∧ linelen = maxlinelen then (s.concatCStr M (ascii "\r\n")).map (·, 0)
    else some (s, linelen)

/-- The loop of `concatBase64`. -/
def Str.base64Loop (maxlinelen : Nat) (urlEncode : Bool) :
    List UInt8 → Str UInt8 → Nat → Option (Str UInt8)
  | [], s, _ => some s
  | [p0], s, linelen => do
    let (s, linelen) ← s.base64Concat M (p0 >>> 2) linelen maxlinelen urlEncode
    let (s, _) ← s.base64Concat M ((p0 &&& 3) <<< 4) linelen maxlinelen urlEncode
    if urlEncode then some s else s.concatCStr M (ascii "==")
  | [p0, p1], s, linelen => do
    let (s, linelen) ← s.base64Concat M (p0 >>> 2) linelen maxlinelen urlEncode
    let (s, linelen) ← s.base64Concat M ((p0 &&& 3) <<< 4 ||| p1 >>> 4) linelen maxlinelen urlEncode
    let (s, _) ← s.base64Concat M ((p1 &&& 15) <<< 2) linelen maxlinelen urlEncode
    if urlEncode then some s else s.concatChar M 61
  | p0 :: p1 :: p2 :: p, s, linelen => do
    let (s, linelen) ← s.base64Concat M (p0 >>> 2) linelen maxlinelen urlEncode
    let (s, linelen) ← s.base64Concat M ((p0 &&& 3) <<< 4 ||| p1 >>> 4) linelen maxlinelen urlEncode
    let (s, linelen) ← s.base64Concat M ((p1 &&& 15) <<< 2 ||| p2 >>> 6) linelen maxlinelen urlEncode
    let (s, linelen) ← s.base64Concat M (p2 &&& 63) linelen maxlinelen urlEncode
    Str.base64Loop maxlinelen urlEncode p s linelen

/-- `concatBase64`. -/
def Str.concatBase64 (s : Str UInt8) (bbuf : List UInt8) (maxlinelen : Nat) (urlEncode : Bool) :
    Option (Str UInt8) := Str.base64Loop M maxlinelen urlEncode bbuf s 0

/-! ## Character entities -/

/-- `xhtml_entity_list`. -/
def xhtmlEntityList : List (Nat × String) :=
  [(34, "quot"), (38, "amp"), (39, "apos"), (60, "lt"), (62, "gt"), (160, "nbsp"), (161, "iexcl"),
   (162, "cent"), (163, "pound"), (164, "curren"), (165, "yen"), (166, "brvbar"), (167, "sect"),
   (168, "uml"), (169, "copy"), (170, "ordf"), (171, "laquo"), (172, "not"), (173, "shy"),
   (174, "reg"), (175, "macr"), (176, "deg"), (177, "plusmn"), (178, "sup2"), (179, "sup3"),
   (180, "acute"), (181, "micro"), (182, "para"), (183, "middot"), (184, "cedil"), (185, "sup1"),
   (186, "ordm"), (187, "raquo"), (188, "frac14"), (189, "frac12"), (190, "frac34"),
   (191, "iquest"), (192, "Agrave"), (193, "Aacute"), (194, "Acirc"), (195, "Atilde"),
   (196, "Auml"), (197, "Aring"), (198, "AElig"), (199, "Ccedil"), (200, "Egrave"),
   (201, "Eacute"), (202, "Ecirc"), (203, "Euml"), (204, "Igrave"), (205, "Iacute"),
   (206, "Icirc"), (207, "Iuml"), (208, "ETH"), (209, "Ntilde"), (210, "Ograve"), (211, "Oacute"),
   (212, "Ocirc"), (213, "Otilde"), (214, "Ouml"), (215, "times"), (216, "Oslash"),
   (217, "Ugrave"), (218, "Uacute"), (219, "Ucirc"), (220, "Uuml"), (221, "Yacute"),
   (222, "THORN"), (223, "szlig"), (224, "agrave"), (225, "aacute"), (226, "acirc"),
   (227, "atilde"), (228, "auml"), (229, "aring"), (230, "aelig"), (231, "ccedil"),
   (232, "egrave"), (233, "eacute"), (234, "ecirc"), (235, "euml"), (236, "igrave"),
   (237, "iacute"), (238, "icirc"), (239, "iuml"), (240, "eth"), (241, "ntilde"), (242, "ograve"),
   (243, "oacute"), (244, "ocirc"), (245, "otilde"), (246, "ouml"), (247, "divide"),
   (248, "oslash"), (249, "ugrave"), (250, "uacute"), (251, "ucirc"), (252, "uuml"),
   (253, "yacute"), (254, "thorn"), (255, "yuml"), (338, "OElig"), (339, "oelig"), (352, "Scaron"),
   (353, "scaron"), (376, "Yuml"), (402, "fnof"), (710, "circ"), (732, "tilde"), (913, "Alpha"),
   (914, "Beta"), (915, "Gamma"), (916, "Delta"), (917, "Epsilon"), (918, "Zeta"), (919, "Eta"),
   (920, "Theta"), (921, "Iota"), (922, "Kappa"), (923, "Lambda"), (924, "Mu"), (925, "Nu"),
   (926, "Xi"), (927, "Omicron"), (928, "Pi"), (929, "Rho"), (931, "Sigma"), (932, "Tau"),
   (933, "Upsilon"), (934, "Phi"), (935, "Chi"), (936, "Psi"), (937, "Omega"), (945, "alpha"),
   (946, "beta"), (947, "gamma"), (948, "delta"), (949, "epsilon"), (950, "zeta"), (951, "eta"),
   (952, "theta"), (953, "iota"), (954, "kappa"), (955, "lambda"), (956, "mu"), (957, "nu"),
   (958, "xi"), (959, "omicron"), (960, "pi"), (961, "rho"), (962, "sigmaf"), (963, "sigma"),
   (964, "tau"), (965, "upsilon"), (966, "phi"), (967, "chi"), (968, "psi"), (969, "omega"),
   (977, "thetasym"), (978, "upsih"), (982, "piv"), (8194, "ensp"), (8195, "emsp"),
   (8201, "thinsp"), (8204, "zwnj"), (8205, "zwj"), (8206, "lrm"), (8207, "rlm"), (8211, "ndash"),
   (8212, "mdash"), (8216, "lsquo"), (8217, "rsquo"), (8218, "sbquo"), (8220, "ldquo"),
   (8221, "rdquo"), (8222, "bdquo"), (8224, "dagger"), (8225, "Dagger"), (8226, "bull"),
   (8230, "hellip"), (8240, "permil"), (8242, "prime"), (8243, "Prime"), (8249, "lsaquo"),
   (8250, "rsaquo"), (8254, "oline"), (8260, "frasl"), (8364, "euro"), (8465, "image"),
   (8472, "weierp"), (8476, "real"), (8482, "trade"), (8501, "alefsym"), (8592, "larr"),
   (8593, "uarr"), (8594, "rarr"), (8595, "darr"), (8596, "harr"), (8629, "crarr"), (8656, "lArr"),
   (8657, "uArr"), (8658, "rArr"), (8659, "dArr"), (8660, "hArr"), (8704, "forall"),
   (8706, "part"), (8707, "exist"), (8709, "empty"), (8711, "nabla"), (8712, "isin"),
   (8713, "notin"), (8715, "ni"), (8719, "prod"), (8721, "sum"), (8722, "minus"), (8727, "lowast"),
   (8730, "radic"), (8733, "prop"), (8734, "infin"), (8736, "ang"), (8743, "and"), (8744, "or"),
   (8745, "cap"), (8746, "cup"), (8747, "int"), (8756, "there4"), (8764, "sim"), (8773, "cong"),
   (8776, "asymp"), (8800, "ne"), (8801, "equiv"), (8804, "le"), (8805, "ge"), (8834, "sub"),
   (8835, "sup"), (8836, "nsub"), (8838, "sube"), (8839, "supe"), (8853, "oplus"),
   (8855, "otimes"), (8869, "perp"), (8901, "sdot"), (8968, "lceil"), (8969, "rceil"),
   (8970, "lfloor"), (8971, "rfloor"), (9001, "lang"), (9002, "rang"), (9674, "loz"),
   (9824, "spades"), (9827, "clubs"), (9829, "hearts"), (9830, "diams")]

/-- A look at `smap`. -/
def smap (code : Nat) : Option (List UInt8) := (xhtmlEntityList.lookup code).map ascii

/-- `CE_HTML`. -/
def ceHtml : Nat := 1

/-- `CE_XML`. -/
def ceXml : Nat := 2

/-- `CE_NONASCII`. -/
def ceNonascii : Nat := 4

/-- `HTML_ASCII`. -/
def htmlAscii (c : UInt8) : Bool := c = 34 || c = 38 || c = 60 || c = 62

/-- `XML_ASCII`. -/
def xmlAscii (c : UInt8) : Bool := htmlAscii c || c = 39

/-- The allocated size after `allocate`; its argument is an `unsigned`. -/
def allocateSize (allocated n : Nat) : Nat :=
  if n % 2 ^ 32 ≤ allocated % 2 ^ 32 then allocated else cacheLines (n % 2 ^ 32) % 2 ^ 32

/-- `allocate`. -/
def Str.allocate (s : Str UInt8) (n : Nat) : Str UInt8 :=
  if n % 2 ^ 32 ≤ s.allocated % 2 ^ 32 then s
  else s.realloc M (cacheLines (n % 2 ^ 32) % 2 ^ 32)

/-- The loop of `concatEncode`, on the bytes from `i` to the end of the other string; an exception
leaves what is there. -/
def Str.encodeLoop (e : Encoding) (code : Nat) (s : Str UInt8) (p : List UInt8) :
    Option (Str UInt8) :=
  match p with
  | [] => some s
  | c :: p =>
    if c &&& 0x80 ≠ 0 then
      match e.getUnicode (c :: p) with
      | none => some s
      | some (cp, len) =>
        match (if code &&& ceHtml ≠ 0 then smap cp else none) with
        | some entity => do
          let s ← s.sprintf M 4 (ascii "&" ++ entity ++ ascii ";")
          Str.encodeLoop e code s (p.drop (len - 1))
        | none =>
          if code &&& ceNonascii ≠ 0 then do
            let s ← s.sprintf M 5 (ascii "&#" ++ decimal (cp % 2 ^ 32) ++ ascii ";")
            Str.encodeLoop e code s (p.drop (len - 1))
          else do
            let s ← s.concatChar M c
            Str.encodeLoop e code s p
    else if (code &&& ceHtml ≠ 0 ∧ htmlAscii c) ∨ (code &&& ceXml ≠ 0 ∧ xmlAscii c) then do
      let s ← s.concatChar M 38
      let s ← s.concatCStr M ((smap c.toNat).getD [])
      let s ← s.concatChar M 59
      Str.encodeLoop e code s p
    else do
      let s ← s.concatChar M c
      Str.encodeLoop e code s p
  termination_by p.length
  decreasing_by all_goals (simp only [List.length_cons, List.length_drop]; omega)

/-- The size that `concatEncode` asks for. -/
def encodeNeed (len plen : Nat) : Nat := len + plen + plen / 10 + 10

/-- `concatEncode`. The string has the encoding `e`. With `CE_NONASCII` the other string is read in
its own encoding, else it has been converted. -/
def Str.concatEncode (s : Str UInt8) (e : Encoding) (str : List UInt8) (strEncoding : Encoding)
    (code : Nat) : Option (Str UInt8) :=
  if str.length = 0 then some s
  else if code = 0 then s.concatStr M str
  else if ¬e.isAsciiCompat ∨ (code &&& ceNonascii ≠ 0 ∧ ¬strEncoding.isAsciiCompat) then some s
  else (s.allocate M (encodeNeed s.len str.length)).encodeLoop M
    (if code &&& ceNonascii ≠ 0 then strEncoding else e) code str

end

/-! ## Texts are kept -/

section
variable {α β γ : Type} {M : Memory α} {xs : List α}

/-- The computation succeeds, and the string that it gives holds some text. -/
def Keeps (M : Memory α) (f : β → Str α) (r : Option β) : Prop :=
  ∃ b xs, r = some b ∧ Holds M (f b) xs

theorem Holds.keeps {s : Str α} (h : Holds M s xs) : Keeps M id (some s) :=
  ⟨s, xs, rfl, h⟩

theorem Yields.keeps {r : Option (Str α)} {m : Nat} (h : Yields M r xs m) : Keeps M id r := by
  obtain ⟨t, ht, hholds, -⟩ := h
  exact ⟨t, xs, ht, hholds⟩

/-- One computation after the other. -/
theorem Keeps.bind {f : β → Str α} {g : γ → Str α} {r : Option β} {k : β → Option γ}
    (h : Keeps M f r) (hk : ∀ b xs, Holds M (f b) xs → Keeps M g (k b)) :
    Keeps M g (r.bind k) := by
  obtain ⟨b, xs, rfl, hb⟩ := h
  exact hk b xs hb

theorem Keeps.map {f : β → Str α} {g : γ → Str α} {r : Option β} {k : β → γ}
    (h : Keeps M f r) (hk : ∀ b, g (k b) = f b) : Keeps M g (r.map k) := by
  obtain ⟨b, xs, rfl, hb⟩ := h
  exact ⟨k b, xs, rfl, (hk b).symm ▸ hb⟩

/-- A buffer that is still larger than the text keeps it. -/
theorem Holds.realloc {s : Str α} (h : Holds M s xs) {n : Nat} (hn : s.len < n) :
    Holds M (s.realloc M n) xs := by
  obtain ⟨r, hbuf, hlen⟩ := h
  obtain ⟨t, ht, -⟩ := @fetch_append _ M.junk [] (xs ++ [M.zero]) r n (by simp; omega)
  refine ⟨t, ?_, hlen⟩
  show fetch M.junk s.buf 0 n = xs ++ M.zero :: t
  rw [hbuf]
  simpa using ht

@[simp] theorem Str.realloc_allocated (s : Str α) (n : Nat) : (s.realloc M n).allocated = n :=
  length_resize _ _

end

/-! ## What the functions do -/

section
variable {M : Memory UInt8} {s : Str UInt8} {xs : List UInt8} {n : Nat} {out : List UInt8}

/-- A text that fits is written with the zero. -/
theorem cVsnprintf_fits (h : Holds M s xs) (hn : out.length < n) (hint : out.length < 2 ^ 31)
    (hroom : s.len + out.length < s.allocated) :
    ∃ t, s.cVsnprintf M n out = some (t, (out.length : Int)) ∧ t.len = s.len ∧
      Holds M (t.setLen (s.len + out.length)) (xs ++ out) := by
  obtain ⟨r, hbuf, hlen⟩ := h
  have hlong : (out ++ [M.zero]).length ≤ (M.zero :: r).length := by
    rw [Str.allocated, hbuf, List.length_append] at hroom
    simp only [List.length_append, List.length_cons, List.length_nil] at hroom ⊢
    omega
  have hput := put_append s xs (M.zero :: r) (out ++ [M.zero]) hbuf hlen hlong
  have htake : out.take (n - 1) = out := List.take_of_length_le (by omega)
  unfold Str.cVsnprintf
  rw [if_neg (by omega), htake, hput, if_pos hint]
  refine ⟨_, rfl, rfl, (M.zero :: r).drop (out ++ [M.zero]).length, ?_, ?_⟩
  · show xs ++ ((out ++ [M.zero]) ++ _) = xs ++ out ++ M.zero :: _
    simp
  · show s.len + out.length = (xs ++ out).length
    rw [List.length_append, hlen]

/-- A text that does not fit is cut off; what is before it stays. -/
theorem cVsnprintf_cut (h : Holds M s xs) (out : List UInt8) (hn : 0 < n)
    (hroom : s.len + n ≤ s.allocated) :
    ∃ t, s.cVsnprintf M n out = some (t, if out.length < 2 ^ 31 then (out.length : Int) else -1) ∧
      Fills t xs := by
  obtain ⟨r, hbuf, hlen⟩ := h
  have hlong : (out.take (n - 1) ++ [M.zero]).length ≤ (M.zero :: r).length := by
    rw [Str.allocated, hbuf, List.length_append] at hroom
    rw [List.length_append, List.length_take, List.length_singleton]
    omega
  have hput := put_append s xs (M.zero :: r) (out.take (n - 1) ++ [M.zero]) hbuf hlen hlong
  unfold Str.cVsnprintf
  rw [if_neg (by omega), hput]
  exact ⟨_, rfl, _, rfl, hlen⟩

/-- The string after `vsprintf` has made room for the format. -/
def Str.formatRoom (M : Memory UInt8) (s : Str UInt8) (fmtlen : Nat) : Str UInt8 :=
  if sizeSub (sizeSub s.allocated s.len) fmtlen < minSprintfBufsize then
    s.realloc M (cacheLines (s.allocated + (fmtlen + minSprintfBufsize)))
  else s

theorem Holds.formatRoom (h : Holds M s xs) (fmtlen : Nat) :
    Holds M (s.formatRoom M fmtlen) xs ∧ (s.formatRoom M fmtlen).len = s.len ∧
      s.allocated ≤ (s.formatRoom M fmtlen).allocated := by
  unfold Str.formatRoom
  split
  · have hcache := lt_cacheLines (s.allocated + (fmtlen + minSprintfBufsize))
    have hlt := h.lt_allocated
    refine ⟨h.realloc (by omega), rfl, ?_⟩
    rw [Str.realloc_allocated]
    omega
  · exact ⟨h, rfl, Nat.le_refl _⟩

/-- With enough room `vsprintf` appends the text. -/
theorem vsprintf_fits (h : Holds M s xs) (fmtlen : Nat) (hint : out.length < 2 ^ 31)
    (hroom : s.len + out.length < (s.formatRoom M fmtlen).allocated) :
    ∃ t, s.vsprintf M fmtlen out = some (t, true) ∧ Holds M t (xs ++ out) := by
  obtain ⟨hholds, hlen, -⟩ := h.formatRoom fmtlen
  have hfree : sizeSub (s.formatRoom M fmtlen).allocated (s.formatRoom M fmtlen).len =
      (s.formatRoom M fmtlen).allocated - s.len := by
    rw [sizeSub_of_le (Nat.le_of_lt hholds.lt_allocated), hlen]
  obtain ⟨t, ht, htlen, htholds⟩ := cVsnprintf_fits hholds
    (show out.length < (s.formatRoom M fmtlen).allocated - s.len by omega) hint (by omega)
  unfold Str.vsprintf
  dsimp only
  rw [← Str.formatRoom, hfree, ht, Option.bind_eq_bind, Option.bind_some, if_neg (by omega)]
  refine ⟨_, rfl, ?_⟩
  have hsum : toSize (t.len + (out.length : Int)) = (s.formatRoom M fmtlen).len + out.length := by
    rw [toSize_of_nonneg (by omega)]
    omega
  rwa [hsum]

/-- Without enough room `vsprintf` keeps the text, and makes the room. -/
theorem vsprintf_grows (h : Holds M s xs) (fmtlen : Nat) (hint : out.length < 2 ^ 31)
    (hroom : ¬s.len + out.length < (s.formatRoom M fmtlen).allocated) :
    ∃ t, s.vsprintf M fmtlen out = some (t, false) ∧ Holds M t xs ∧
      t.len + out.length < t.allocated := by
  obtain ⟨hholds, hlen, -⟩ := h.formatRoom fmtlen
  have hlt := hholds.lt_allocated
  have hfree : sizeSub (s.formatRoom M fmtlen).allocated (s.formatRoom M fmtlen).len =
      (s.formatRoom M fmtlen).allocated - s.len := by
    rw [sizeSub_of_le (Nat.le_of_lt hlt), hlen]
  obtain ⟨t, ht, r, htbuf, htlen⟩ := cVsnprintf_cut hholds out
    (show 0 < (s.formatRoom M fmtlen).allocated - s.len by omega) (by omega)
  unfold Str.vsprintf
  dsimp only
  rw [← Str.formatRoom, hfree, ht, if_pos hint, Option.bind_eq_bind, Option.bind_some,
    if_pos (by omega)]
  -- the larger buffer starts with the text, and the zero is written again
  have hcache := lt_cacheLines (t.len + (out.length : Int).toNat + strClassExtra)
  generalize hsize : cacheLines (t.len + (out.length : Int).toNat + strClassExtra) = size at hcache
  obtain ⟨q, hq, hqlen⟩ := @fetch_append _ M.junk [] xs r size (by omega)
  have hbuf : (t.realloc M size).buf = xs ++ q := by
    show fetch M.junk t.buf 0 size = xs ++ q
    rw [htbuf]
    exact hq
  have hput := put_append (t.realloc M size) xs q [M.zero] hbuf htlen
    (by rw [List.length_singleton]; omega)
  rw [hput, Option.bind_eq_bind, Option.bind_some]
  refine ⟨_, rfl, ⟨q.drop 1, rfl, htlen⟩, ?_⟩
  show t.len + out.length < (xs ++ ([M.zero] ++ q.drop 1)).length
  simp only [List.length_append, List.length_singleton, List.length_drop]
  omega

/-- The loop of `sprintf` ends after two rounds at most, and appends the text. -/
theorem sprintf_holds (h : Holds M s xs) (fmtlen : Nat) (hint : out.length < 2 ^ 31) :
    ∃ t, s.sprintf M fmtlen out = some t ∧ Holds M t (xs ++ out) := by
  unfold Str.sprintf
  rw [Str.sprintfLoop]
  by_cases hroom : s.len + out.length < (s.formatRoom M fmtlen).allocated
  · obtain ⟨t, ht, hholds⟩ := vsprintf_fits h fmtlen hint hroom
    exact ⟨t, by rw [ht]; rfl, hholds⟩
  · obtain ⟨t, ht, hholds, hroom'⟩ := vsprintf_grows h fmtlen hint hroom
    have hle := (hholds.formatRoom fmtlen).2.2
    obtain ⟨u, hu, huholds⟩ := vsprintf_fits hholds fmtlen hint (by omega)
    refine ⟨u, ?_, huholds⟩
    rw [ht, Option.bind_eq_bind, Option.bind_some]
    show Str.sprintfLoop M fmtlen out 1 t = some u
    rw [Str.sprintfLoop, hu]
    rfl

/-- `snprintf` appends a text that is shorter than the given size. -/
theorem snprintf_holds (h : Holds M s xs) {size : Nat} (hsize : out.length < size)
    (hint : out.length < 2 ^ 31) (hroom : s.len + out.length < snprintfSize s.allocated s.len size)
    :
    ∃ t, s.snprintf M size out = some t ∧ Holds M t (xs ++ out) := by
  have hgrown : ∃ g, (if sizeSub s.allocated s.len < size % 2 ^ 32 then
        s.realloc M (s.allocated + (size + strClassExtra)) else s) = g ∧ Holds M g xs ∧
      g.len = s.len ∧ s.len + out.length < g.allocated := by
    unfold snprintfSize at hroom
    split
    · rename_i hsmall
      rw [if_pos hsmall] at hroom
      refine ⟨_, rfl, h.realloc (by omega), rfl, ?_⟩
      rwa [Str.realloc_allocated]
    · rename_i hsmall
      rw [if_neg hsmall] at hroom
      exact ⟨s, rfl, h, rfl, hroom⟩
  obtain ⟨g, hg, hgholds, hglen, hgroom⟩ := hgrown
  obtain ⟨t, ht, htlen, htholds⟩ := cVsnprintf_fits hgholds hsize hint (by omega)
  unfold Str.snprintf
  dsimp only
  rw [hg, ht, Option.bind_eq_bind, Option.bind_some]
  refine ⟨_, rfl, ?_⟩
  have hsum : toSize (t.len + (out.length : Int)) = g.len + out.length := by
    rw [toSize_of_nonneg (by omega)]
    omega
  rwa [hsum]

/-- Whether the numbers are different from each other and from those of the set of bits `seen`. -/
def distinct : List Nat → Nat → Bool
  | [], _ => true
  | n :: ns, seen => !seen.testBit n && distinct ns (seen ||| 1 <<< n)

theorem nodup_of_distinct (ns : List Nat) (seen : Nat) (h : distinct ns seen = true) :
    ns.Nodup ∧ ∀ n ∈ ns, seen.testBit n = false := by
  induction ns generalizing seen with
  | nil => exact ⟨List.nodup_nil, by simp⟩
  | cons n ns ih =>
    simp only [distinct, Bool.and_eq_true, Bool.not_eq_true'] at h
    obtain ⟨hnodup, hseen⟩ := ih _ h.2
    have hbits : ∀ m ∈ ns, seen.testBit m = false ∧ n ≠ m := by
      intro m hm
      have := hseen m hm
      rw [Nat.testBit_or, Bool.or_eq_false_iff, Nat.testBit_shiftLeft] at this
      refine ⟨this.1, ?_⟩
      rintro rfl
      simp at this
    refine ⟨List.nodup_cons.mpr ⟨fun hn => (hbits n hn).2 rfl, hnodup⟩, ?_⟩
    intro m hm
    rcases List.mem_cons.mp hm with rfl | hm
    · exact h.1
    · exact (hbits m hm).1

/-- A number for a name; the remainders by 4739 happen to tell the names apart. -/
def nameCode (name : List UInt8) : Nat := name.foldl (fun n b => n * 256 + b.toNat) 0 % 4739

/-- A letter or a digit. -/
def nameByte (b : UInt8) : Bool :=
  48 ≤ b && b ≤ 57 || 65 ≤ b && b ≤ 90 || 97 ≤ b && b ≤ 122

/-- A short code, and a short name of letters and digits. -/
def entityFits (e : Nat × String) : Bool :=
  e.1 < 10000 && !(ascii e.2).isEmpty && (ascii e.2).length ≤ 8 && (ascii e.2).all nameByte

/-- The codes and the names are different. The table is evaluated here once. -/
theorem xhtmlEntityList_fits :
    xhtmlEntityList.all entityFits = true ∧
      distinct (xhtmlEntityList.map fun e => e.1) 0 = true ∧
      distinct ((xhtmlEntityList.map fun e => ascii e.2).map nameCode) 0 = true := by
  decide +kernel

theorem entity_fits {e : Nat × String} (he : e ∈ xhtmlEntityList) :
    e.1 < 10000 ∧ ascii e.2 ≠ [] ∧ (ascii e.2).length ≤ 8 ∧
      ∀ b ∈ ascii e.2, nameByte b = true := by
  have h := List.all_eq_true.1 xhtmlEntityList_fits.1 e he
  simpa [entityFits, and_assoc] using h

/-- The names of the entities are short. -/
theorem length_smap {code : Nat} {entity : List UInt8} (h : smap code = some entity) :
    entity.length ≤ 8 := by
  obtain ⟨name, hname, rfl⟩ := Option.map_eq_some_iff.mp h
  obtain ⟨l, r, hlist, -⟩ := List.lookup_eq_some_iff.mp hname
  have hmem : (code, name) ∈ xhtmlEntityList :=
    hlist ▸ List.mem_append_right l List.mem_cons_self
  exact (entity_fits hmem).2.2.1

/-- A number of 32 bits has few digits. -/
theorem length_decimal_le {k : Nat} (hk : 0 < k) (hn : n < 10 ^ k) : (decimal n).length ≤ k := by
  rw [decimal, List.length_map]
  exact (Nat.length_toDigits_le_iff (by decide) hk).mpr hn

/-- The loop of `concatEncode`. -/
theorem encodeLoop_keeps (e : Encoding) (code : Nat) (p : List UInt8) :
    ∀ {s : Str UInt8} {xs : List UInt8}, Holds M s xs → Keeps M id (s.encodeLoop M e code p) := by
  induction hlen : p.length using Nat.strong_induction_on generalizing p with
  | _ k ih =>
    intro s xs h
    subst hlen
    cases p with
    | nil =>
      rw [Str.encodeLoop]
      exact h.keeps
    | cons c p =>
      have hrest : ∀ n, (p.drop n).length < (c :: p).length := by
        intro n
        rw [List.length_drop, List.length_cons]
        omega
      rw [Str.encodeLoop]
      split
      · split
        · exact h.keeps
        · rename_i cp len hget
          split
          · rename_i entity hentity
            have hshort : entity.length ≤ 8 := by
              split at hentity
              · exact length_smap hentity
              · cases hentity
            have hout : (ascii "&" ++ entity ++ ascii ";").length < 2 ^ 31 := by
              rw [List.length_append, List.length_append, show (ascii "&").length = 1 by decide,
                show (ascii ";").length = 1 by decide]
              omega
            obtain ⟨t, ht, htholds⟩ := sprintf_holds h 4 hout
            exact Keeps.bind ⟨t, _, ht, htholds⟩ fun u ys hu => ih _ (hrest _) _ rfl hu
          · split
            · have hshort := length_decimal_le (show 0 < 10 by decide)
                (show cp % 2 ^ 32 < 10 ^ 10 by omega)
              have hout : (ascii "&#" ++ decimal (cp % 2 ^ 32) ++ ascii ";").length < 2 ^ 31 := by
                rw [List.length_append, List.length_append, show (ascii "&#").length = 2 by decide,
                  show (ascii ";").length = 1 by decide]
                omega
              obtain ⟨t, ht, htholds⟩ := sprintf_holds h 5 hout
              exact Keeps.bind ⟨t, _, ht, htholds⟩ fun u ys hu => ih _ (hrest _) _ rfl hu
            · exact (concatChar_holds h c).keeps.bind fun u ys hu => ih _ (hrest 0) p rfl hu
      · split
        · refine (concatChar_holds h 38).keeps.bind fun u ys hu => ?_
          refine (concatCStr_holds (Holds.fills hu) _).keeps.bind fun u ys hu => ?_
          refine (concatChar_holds hu 59).keeps.bind fun u ys hu => ?_
          exact ih _ (hrest 0) p rfl hu
        · exact (concatChar_holds h c).keeps.bind fun u ys hu => ih _ (hrest 0) p rfl hu

@[simp] theorem Str.allocate_len (s : Str UInt8) (n : Nat) : (s.allocate M n).len = s.len := by
  unfold Str.allocate
  split <;> rfl

theorem Str.allocated_allocate (s : Str UInt8) (n : Nat) :
    (s.allocate M n).allocated = allocateSize s.allocated n := by
  unfold Str.allocate allocateSize
  split
  · rfl
  · exact Str.realloc_allocated _ _

/-- `allocate` keeps a text that fits in the buffer afterwards. -/
theorem Holds.allocate (h : Holds M s xs) (hn : s.len < allocateSize s.allocated n) :
    Holds M (s.allocate M n) xs := by
  unfold Str.allocate
  unfold allocateSize at hn
  split
  · exact h
  · rename_i hsmall
    rw [if_neg hsmall] at hn
    exact h.realloc hn

/-- `concatEncode`; what is asked for is computed with 32 bits, and the buffer may get smaller. -/
theorem concatEncode_keeps (h : Holds M s xs) (e : Encoding) (str : List UInt8)
    (strEncoding : Encoding) (code : Nat)
    (hroom : str ≠ [] → code ≠ 0 →
      s.len < allocateSize s.allocated (encodeNeed s.len str.length)) :
    Keeps M id (s.concatEncode M e str strEncoding code) := by
  unfold Str.concatEncode
  split
  · exact h.keeps
  · rename_i hne
    split
    · exact (concatStr_holds h str).keeps
    · rename_i hcode
      split
      · exact h.keeps
      · exact encodeLoop_keeps _ code str (h.allocate (hroom (by simpa using hne) hcode))

end

end Qore.Text
