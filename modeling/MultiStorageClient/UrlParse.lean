/-
MultiStorageClient/UrlParse.lean

`urllib.parse.urlparse`, as far as the scheme, the netloc and the path go.

What stands behind a `?` or a `#` is not part of the path, and for some schemes
what stands behind a `;` in its last segment is not, either.  A path that is
absolute has no scheme (`scheme_of_absolute`), and of a URL with a scheme in lower
case and a netloc the path is read as far as it goes (`urlparse_plainNetloc`): all
of it exactly if nothing is removed or cut off (`readPath_eq_iff`).

Whether a netloc is accepted depends on Unicode tables and on the syntax of IP
addresses; it is a parameter.
-/
import MultiStorageClient.PyStr

namespace MultiStorageClient

/-- `ParseResult` -/
structure ParseResult where
  scheme : PyStr
  netloc : PyStr
  path : PyStr
  deriving DecidableEq

namespace UrlParse

/-- `scheme_chars` -/
def schemeChar (c : Char) : Bool := c.isAlphanum || c == '+' || c == '-' || c == '.'

/-- `_WHATWG_C0_CONTROL_OR_SPACE` -/
def isBlank (c : Char) : Bool := c ≤ ' '

/-- `_UNSAFE_URL_BYTES_TO_REMOVE` -/
def isUnsafe (c : Char) : Bool := c == '\t' || c == '\r' || c == '\n'

/-- `uses_params` -/
def usesParams : List PyStr :=
  ["", "ftp", "hdl", "prospero", "http", "imap", "https", "shttp", "rtsp", "rtsps", "rtspu", "sip",
    "sips", "mms", "sftp", "tel"].map String.toList

/-- The scheme in lower case, and the rest. -/
def splitScheme (url : PyStr) : PyStr × PyStr :=
  match url.span (· != ':') with
  | (scheme, _ :: rest) =>
      if scheme.head?.any Char.isAlpha && scheme.all schemeChar then (scheme.map Char.toLower, rest)
      else ([], url)
  | (_, []) => ([], url)

/-- It ends a netloc. -/
def isDelim (c : Char) : Bool := c == '/' || c == '?' || c == '#'

/-- `_splitnetloc`, of a URL with two slashes -/
def splitNetloc : PyStr → PyStr × PyStr
  | '/' :: '/' :: url => url.span fun c => !isDelim c
  | url => ([], url)

/-- `_splitparams` -/
def splitParams (url : PyStr) : PyStr :=
  url.rdropWhile (· != '/') ++ (url.rtakeWhile (· != '/')).takeWhile (· != ';')

variable (netlocOk : PyStr → Bool)

/-- `urlparse`; `none` stands for a `ValueError`. -/
def urlparse (url : PyStr) : Option ParseResult :=
  let url := (url.dropWhile isBlank).filter (!isUnsafe ·)
  let (scheme, url) := splitScheme url
  let (netloc, url) := splitNetloc url
  if !netloc.isEmpty && !netlocOk netloc then none
  else
    let path := (url.takeWhile (· != '#')).takeWhile (· != '?')
    some ⟨scheme, netloc, if scheme ∈ usesParams then splitParams path else path⟩

variable {netlocOk} {u scheme netloc path rest : PyStr} {pr : ParseResult}

theorem splitScheme_absolute (u : PyStr) : splitScheme ('/' :: u) = ([], '/' :: u) := by
  rw [splitScheme, List.span_eq_takeWhile_dropWhile]
  split
  next name c rest hspan =>
    obtain ⟨hname, -⟩ := Prod.mk.inj hspan
    rw [List.takeWhile_cons_of_pos (by decide)] at hname
    rw [← hname]
    exact if_neg (by simp)
  next => rfl

/-- **An absolute path** has no scheme. -/
theorem scheme_of_absolute (h : urlparse netlocOk ('/' :: u) = some pr) : pr.scheme = [] := by
  have hclean : (('/' :: u).dropWhile isBlank).filter (!isUnsafe ·) =
      '/' :: u.filter (!isUnsafe ·) := rfl
  unfold urlparse at h
  simp only [hclean, splitScheme_absolute] at h
  split at h
  · cases h
  · cases h
    rfl

/-- A path with one slash in front has no netloc, so that it is accepted. -/
theorem urlparse_absolute {c : Char} (hc : c ≠ '/') (hsafe : isUnsafe c = false) (u : PyStr) :
    ∃ pr, urlparse netlocOk ('/' :: c :: u) = some pr := by
  have hclean : (('/' :: c :: u).dropWhile isBlank).filter (!isUnsafe ·) =
      '/' :: c :: u.filter (!isUnsafe ·) := by
    rw [List.dropWhile_cons_of_neg (by decide), List.filter_cons_of_pos (by decide),
      List.filter_cons_of_pos (by rw [hsafe]; rfl)]
  have hnetloc : ∀ rest, splitNetloc ('/' :: c :: rest) = ([], '/' :: c :: rest) := by
    intro rest
    unfold splitNetloc
    split
    next heq => exact absurd (List.cons.inj (List.cons.inj heq).2).1 hc
    next => rfl
  unfold urlparse
  simp only [hclean, splitScheme_absolute, hnetloc]
  exact ⟨_, rfl⟩

/-- In lower case there is nothing new that is no small letter. -/
theorem toLower_ne {c d : Char} (hd : d.val.toNat < 97) (h : c ≠ d) : c.toLower ≠ d := by
  unfold Char.toLower
  split
  next hupper =>
    intro heq
    have hval := congrArg (fun c : Char => c.val.toNat) heq
    obtain ⟨hlow, hhigh⟩ := hupper
    rw [ge_iff_le, UInt32.le_iff_toNat_le] at hlow
    rw [UInt32.le_iff_toNat_le] at hhigh
    have hA : 'A'.val.toNat = 65 := rfl
    have hZ : 'Z'.val.toNat = 90 := rfl
    have hdiff : ('a'.val - 'A'.val).toNat = 32 := rfl
    simp only [UInt32.toNat_add] at hval
    omega
  next => exact h

theorem not_mem_toLower {s : PyStr} {d : Char} (hd : d.val.toNat < 97) (h : d ∉ s) :
    d ∉ s.map Char.toLower := by
  intro hmem
  obtain ⟨c, hc, heq⟩ := List.mem_map.mp hmem
  exact toLower_ne hd (fun hcd => h (hcd ▸ hc)) heq

/-- The scheme is a name, or there is none. -/
theorem splitScheme_chars (url : PyStr) :
    ':' ∉ (splitScheme url).1 ∧ '/' ∉ (splitScheme url).1 := by
  rw [splitScheme, List.span_eq_takeWhile_dropWhile]
  split
  next name c rest hspan =>
    split
    next hname =>
      have hchars := List.all_eq_true.mp (Bool.and_eq_true_iff.mp hname).2
      refine ⟨not_mem_toLower (by decide) fun hmem => ?_,
        not_mem_toLower (by decide) fun hmem => ?_⟩
      · exact absurd (hchars _ hmem) (by decide)
      · exact absurd (hchars _ hmem) (by decide)
    next => exact ⟨List.not_mem_nil, List.not_mem_nil⟩
  next => exact ⟨List.not_mem_nil, List.not_mem_nil⟩

theorem not_mem_splitNetloc (url : PyStr) : '/' ∉ (splitNetloc url).1 := by
  unfold splitNetloc
  split
  next rest =>
    rw [List.span_eq_takeWhile_dropWhile]
    exact fun hmem => absurd (List.mem_takeWhile_imp hmem) (by decide)
  next => exact List.not_mem_nil

/-- The parts of a URL do not hold what ends them. -/
theorem urlparse_chars (h : urlparse netlocOk u = some pr) :
    (':' ∉ pr.scheme ∧ '/' ∉ pr.scheme) ∧ '/' ∉ pr.netloc := by
  unfold urlparse at h
  dsimp only at h
  split at h
  · cases h
  · cases h
    exact ⟨splitScheme_chars _, not_mem_splitNetloc _⟩

/-- A scheme in lower case is split off. -/
theorem splitScheme_append (halpha : scheme.head?.any Char.isAlpha) (hall : scheme.all schemeChar)
    (hlower : scheme.map Char.toLower = scheme) (rest : PyStr) :
    splitScheme (scheme ++ ':' :: rest) = (scheme, rest) := by
  have hcolon : ∀ c ∈ scheme, (c != ':') = true := by
    intro c hc
    have hchar := List.all_eq_true.mp hall c hc
    rw [bne_iff_ne]
    rintro rfl
    exact absurd hchar (by decide)
  rw [splitScheme, List.span_eq_takeWhile_dropWhile, List.takeWhile_append_of_pos hcolon,
    List.dropWhile_append_of_pos hcolon, List.takeWhile_cons_of_neg (by decide),
    List.dropWhile_cons_of_neg (by decide), List.append_nil]
  dsimp only
  rw [halpha, hall, hlower]
  rfl

theorem splitNetloc_append (hnetloc : ∀ c ∈ netloc, isDelim c = false) (path : PyStr) :
    splitNetloc ('/' :: '/' :: (netloc ++ '/' :: path)) = (netloc, '/' :: path) := by
  have hall : ∀ c ∈ netloc, (!isDelim c) = true := fun c hc => by rw [hnetloc c hc]; rfl
  rw [splitNetloc, List.span_eq_takeWhile_dropWhile, List.takeWhile_append_of_pos hall,
    List.dropWhile_append_of_pos hall, List.takeWhile_cons_of_neg (by decide),
    List.dropWhile_cons_of_neg (by decide), List.append_nil]

theorem takeWhile_ne {c : Char} (h : c ∉ u) : u.takeWhile (· != c) = u :=
  List.takeWhile_eq_self_iff.mpr fun _ hx => bne_iff_ne.mpr fun heq => h (heq ▸ hx)

/-- The last segment of a path. -/
def lastSegment (path : PyStr) : PyStr := path.rtakeWhile (· != '/')

theorem splitParams_of_not_mem (h : ';' ∉ lastSegment u) : splitParams u = u := by
  rw [splitParams, ← lastSegment, takeWhile_ne h, lastSegment, List.rdropWhile_append_rtakeWhile]

/-- A slash ends a segment. -/
theorem lastSegment_slash (base rest : PyStr) :
    lastSegment (base ++ '/' :: rest) = lastSegment rest := by
  unfold lastSegment
  induction rest using List.reverseRecOn with
  | nil => exact List.rtakeWhile_concat_neg _ _ _ (by decide)
  | append_singleton rest c ih =>
      rw [← List.cons_append, ← List.append_assoc, List.rtakeWhile_concat,
        List.rtakeWhile_concat, ih]

/-- Only the last component can have parameters. -/
theorem splitParams_slash (base rest : PyStr) :
    splitParams (base ++ '/' :: rest) = base ++ '/' :: splitParams rest := by
  have hdrop : (base ++ '/' :: rest).rdropWhile (· != '/') =
      base ++ '/' :: rest.rdropWhile (· != '/') := by
    refine List.append_cancel_right (?_ : _ ++ lastSegment rest = _)
    conv_lhs => rw [← lastSegment_slash base rest, lastSegment, List.rdropWhile_append_rtakeWhile]
    rw [List.append_assoc, List.cons_append, lastSegment, List.rdropWhile_append_rtakeWhile]
  rw [splitParams, splitParams, ← lastSegment, lastSegment_slash, hdrop, List.append_assoc,
    List.cons_append]
  rfl

/-- A scheme and a netloc that are read as they are written. -/
structure PlainNetloc (scheme netloc : PyStr) : Prop where
  alpha : scheme.head?.any Char.isAlpha
  schemeChars : scheme.all schemeChar
  lower : scheme.map Char.toLower = scheme
  netlocChars : ∀ c ∈ netloc, isDelim c = false ∧ isUnsafe c = false

/-- A URL that is read as it is written. -/
structure PlainUrl (scheme netloc path : PyStr) : Prop extends PlainNetloc scheme netloc where
  pathChars : ∀ c ∈ path, c ≠ '?' ∧ c ≠ '#' ∧ isUnsafe c = false
  params : scheme ∈ usesParams → ';' ∉ lastSegment path

/-- `scheme://netloc/path` -/
def plainUrl (scheme netloc path : PyStr) : PyStr :=
  scheme ++ ':' :: '/' :: '/' :: (netloc ++ '/' :: path)

theorem isBlank_of_isAlpha {c : Char} (h : c.isAlpha = true) : isBlank c = false := by
  simp only [Char.isAlpha, Char.isUpper, Char.isLower, Bool.or_eq_true, Bool.and_eq_true,
    decide_eq_true_eq, UInt32.le_iff_toNat_le, ge_iff_le] at h
  refine decide_eq_false fun hle => ?_
  rw [Char.le_def, UInt32.le_iff_toNat_le] at hle
  have hspace : ' '.val.toNat = 32 := rfl
  have hupper : 'A'.val.toNat = 65 := rfl
  have hlower : 'a'.val.toNat = 97 := rfl
  omega

theorem isUnsafe_of_schemeChar {c : Char} (h : schemeChar c = true) : isUnsafe c = false := by
  cases hunsafe : isUnsafe c with
  | false => rfl
  | true =>
      simp only [isUnsafe, Bool.or_eq_true, beq_iff_eq] at hunsafe
      obtain (rfl | rfl) | rfl := hunsafe <;> exact absurd h (by decide)

theorem filter_safe (h : ∀ c ∈ u, isUnsafe c = false) : u.filter (!isUnsafe ·) = u :=
  List.filter_eq_self.mpr fun c hc => by rw [h c hc]; rfl

/-- What is cleaned is in the path alone. -/
theorem PlainNetloc.clean (h : PlainNetloc scheme netloc) (path : PyStr) :
    ((plainUrl scheme netloc path).dropWhile isBlank).filter (!isUnsafe ·) =
      plainUrl scheme netloc (path.filter (!isUnsafe ·)) := by
  obtain ⟨c, scheme', rfl⟩ : ∃ c scheme', scheme = c :: scheme' := by
    cases scheme with
    | nil => exact absurd h.alpha (by decide)
    | cons c scheme' => exact ⟨c, scheme', rfl⟩
  have hblank : isBlank c = false := isBlank_of_isAlpha h.alpha
  have hscheme := filter_safe fun x hx =>
    isUnsafe_of_schemeChar (List.all_eq_true.mp h.schemeChars x hx)
  have hnetloc := filter_safe fun x hx => (h.netlocChars x hx).2
  have hslash : isUnsafe '/' = false ∧ isUnsafe ':' = false := by decide
  rw [plainUrl, List.cons_append, List.dropWhile_cons_of_neg (by simp [hblank]),
    ← List.cons_append, List.filter_append, hscheme, plainUrl]
  simp only [List.filter_cons, List.filter_append, hslash, hnetloc, Bool.not_false, if_true]

/-- A URL with a scheme and a netloc is split at the delimiters. -/
theorem PlainNetloc.split (h : PlainNetloc scheme netloc) (path : PyStr) :
    splitScheme (plainUrl scheme netloc path) = (scheme, '/' :: '/' :: (netloc ++ '/' :: path)) ∧
      splitNetloc ('/' :: '/' :: (netloc ++ '/' :: path)) = (netloc, '/' :: path) :=
  ⟨splitScheme_append h.alpha h.schemeChars h.lower _,
    splitNetloc_append (fun c hc => (h.netlocChars c hc).1) path⟩

/-- What is read of a path that stands behind a netloc and its slash. -/
def readPath (scheme path : PyStr) : PyStr :=
  let path := (((path.filter (!isUnsafe ·)).takeWhile (· != '#')).takeWhile (· != '?'))
  if scheme ∈ usesParams then splitParams path else path

/-- **A URL** with a scheme and a netloc: its path is read as far as it goes. -/
theorem urlparse_plainNetloc (h : PlainNetloc scheme netloc) (path : PyStr) :
    urlparse netlocOk (plainUrl scheme netloc path) =
      if !netloc.isEmpty && !netlocOk netloc then none
      else some ⟨scheme, netloc, '/' :: readPath scheme path⟩ := by
  unfold urlparse readPath
  simp only [h.clean, (h.split _).1, (h.split _).2]
  rw [List.takeWhile_cons_of_pos (by decide), List.takeWhile_cons_of_pos (by decide)]
  split
  · rfl
  · split
    · rw [← List.nil_append ('/' :: _), splitParams_slash]
      rfl
    · rfl

/-- **The netloc** of a URL, whatever its path. -/
theorem netloc_of_plain (h : PlainNetloc scheme netloc)
    (hparse : urlparse netlocOk (plainUrl scheme netloc path) = some pr) : pr.netloc = netloc := by
  rw [urlparse_plainNetloc h] at hparse
  split at hparse
  · cases hparse
  · cases hparse
    rfl

/-- Nothing of the path is removed or cut off. -/
structure KeptPath (scheme path : PyStr) : Prop where
  chars : ∀ c ∈ path, c ≠ '?' ∧ c ≠ '#' ∧ isUnsafe c = false
  params : scheme ∈ usesParams → ';' ∉ lastSegment path

theorem PlainUrl.kept (h : PlainUrl scheme netloc path) : KeptPath scheme path :=
  ⟨h.pathChars, h.params⟩

theorem KeptPath.read (h : KeptPath scheme path) : readPath scheme path = path := by
  have hsafe := filter_safe fun c hc => (h.chars c hc).2.2
  have hhash : '#' ∉ path := fun hmem => (h.chars '#' hmem).2.1 rfl
  have hquery : '?' ∉ path := fun hmem => (h.chars '?' hmem).1 rfl
  unfold readPath
  rw [hsafe, takeWhile_ne hhash, takeWhile_ne hquery]
  split
  next hmem => exact splitParams_of_not_mem (h.params hmem)
  next => rfl

theorem isPrefix_splitParams (path : PyStr) : (splitParams path).IsPrefix path := by
  obtain ⟨t, ht⟩ := List.takeWhile_prefix (· != ';') (l := lastSegment path)
  refine ⟨t, ?_⟩
  rw [splitParams, ← lastSegment, List.append_assoc, ht, lastSegment,
    List.rdropWhile_append_rtakeWhile]

/-- The path that is read is part of the path. -/
theorem readPath_sublist (scheme path : PyStr) : (readPath scheme path).Sublist path := by
  have hcut : ((((path.filter (!isUnsafe ·)).takeWhile (· != '#')).takeWhile (· != '?'))).Sublist
      path :=
    ((List.takeWhile_prefix _).sublist.trans (List.takeWhile_prefix _).sublist).trans
      List.filter_sublist
  unfold readPath
  dsimp only
  split
  · exact (isPrefix_splitParams _).sublist.trans hcut
  · exact hcut

/-- **A path is read as it is written** only if nothing of it is removed or cut off. -/
theorem readPath_eq_iff : readPath scheme path = path ↔ KeptPath scheme path := by
  refine ⟨fun h => ?_, KeptPath.read⟩
  set cut := ((path.filter (!isUnsafe ·)).takeWhile (· != '#')).takeWhile (· != '?') with hcut
  have hsub : cut.Sublist path := ((List.takeWhile_prefix _).sublist.trans
    (List.takeWhile_prefix _).sublist).trans List.filter_sublist
  -- what is read is a part of `cut`, so that `cut` is the whole path
  have hwhole : cut = path := by
    refine hsub.eq_of_length_le ?_
    conv_lhs => rw [← h]
    unfold readPath
    dsimp only
    split
    · exact (isPrefix_splitParams _).length_le
    · exact le_rfl
  have hmem : ∀ c ∈ path, c ≠ '?' ∧ c ≠ '#' ∧ isUnsafe c = false := by
    intro c hc
    rw [← hwhole, hcut] at hc
    have hquery := List.mem_takeWhile_imp hc
    have hc := (List.takeWhile_prefix _).subset hc
    have hhash := List.mem_takeWhile_imp hc
    have hsafe := (List.mem_filter.mp ((List.takeWhile_prefix _).subset hc)).2
    exact ⟨bne_iff_ne.mp hquery, bne_iff_ne.mp hhash, by simpa using hsafe⟩
  refine ⟨hmem, fun hparams => ?_⟩
  have hsplit : splitParams path = path := by
    unfold readPath at h
    dsimp only at h
    rwa [if_pos hparams, ← hcut, hwhole] at h
  have hlast : (lastSegment path).takeWhile (· != ';') = lastSegment path := by
    refine List.append_cancel_left (?_ : path.rdropWhile (· != '/') ++ _ = _)
    conv_rhs => rw [lastSegment, List.rdropWhile_append_rtakeWhile]
    exact hsplit
  intro hsemi
  rw [← hlast] at hsemi
  exact absurd (List.mem_takeWhile_imp hsemi) (by decide)

/-- What stands behind a directory is read by itself. -/
theorem readPath_append {base rest : PyStr} (h : KeptPath scheme (base ++ ['/'])) :
    readPath scheme (base ++ '/' :: rest) = base ++ '/' :: readPath scheme rest := by
  have hkeep : ∀ c ∈ base, c ≠ '?' ∧ c ≠ '#' ∧ isUnsafe c = false := fun c hc =>
    h.chars c (List.mem_append_left _ hc)
  have hfilter : (base ++ '/' :: rest).filter (!isUnsafe ·) =
      base ++ '/' :: rest.filter (!isUnsafe ·) := by
    rw [List.filter_append, filter_safe fun c hc => (hkeep c hc).2.2,
      List.filter_cons_of_pos (by decide)]
  have htake : ∀ {c : Char} {l : PyStr}, c ∉ base → c ≠ '/' →
      (base ++ '/' :: l).takeWhile (· != c) = base ++ '/' :: l.takeWhile (· != c) := by
    intro c l hc hslash
    have hbase : ∀ x ∈ base, (x != c) = true := fun x hx => bne_iff_ne.mpr fun heq => hc (heq ▸ hx)
    have hkept : ('/' != c) = true := bne_iff_ne.mpr hslash.symm
    rw [List.takeWhile_append_of_pos hbase, List.takeWhile_cons_of_pos (p := (· != c)) hkept]
  unfold readPath
  dsimp only
  rw [hfilter, htake (fun hm => (hkeep '#' hm).2.1 rfl) (by decide),
    htake (fun hm => (hkeep '?' hm).1 rfl) (by decide)]
  split
  · exact splitParams_slash base _
  · rfl

/-- **A plain URL** comes apart as it is written. -/
theorem urlparse_plain (h : PlainUrl scheme netloc path)
    (hparse : urlparse netlocOk (plainUrl scheme netloc path) = some pr) :
    pr = ⟨scheme, netloc, '/' :: path⟩ := by
  rw [urlparse_plainNetloc h.toPlainNetloc, h.kept.read] at hparse
  split at hparse
  · cases hparse
  · exact (Option.some.inj hparse).symm

end UrlParse

end MultiStorageClient
