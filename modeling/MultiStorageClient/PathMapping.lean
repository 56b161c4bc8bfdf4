/-
MultiStorageClient/PathMapping.lean

`PathMapping` of `config.py`: URLs that are mapped to a profile by the longest
source that they start with.

A source and a URL are taken apart in the same way (`splitUrl`).  Of the sources
with the protocol and the bucket of the URL, one is found whose path is a longest
beginning of the URL's path (`findMapping_covers`).  An absolute path and a plain
URL are taken apart without loss, so that there the source is the longest one that
the URL starts with as a string (`covers_iff_isPrefix`).

The path of the destination is not used, and a URL loses what is behind a `?`, a
`#` or, for some schemes, a `;`.  `find_mapping_iff` says which URLs are translated
without loss.
-/
import MultiStorageClient.PyDict
import MultiStorageClient.UrlParse

namespace MultiStorageClient

open UrlParse

/-- A source or a URL: the protocol, the bucket and the path. -/
structure UrlLocation where
  protocol : PyStr
  bucket : PyStr
  path : PyStr
  deriving DecidableEq

/-- `_mapping`: protocol, bucket, and the prefixes with their profiles. -/
abbrev Mapping := PyDict PyStr (PyDict PyStr (List (PyStr × PyStr)))

namespace PathMapping

section Code

variable (netlocOk : PyStr → Bool)

/-- A leading slash goes. -/
def dropSlash (path : PyStr) : PyStr := if path.startswith ['/'] then path.drop 1 else path

/-- How `_load_mapping` takes a source apart, and `find_mapping` a URL; `none` stands for a
`ValueError`. -/
def splitUrl (url : PyStr) : Option UrlLocation := do
  let pr ← urlparse netlocOk url
  let protocol := if pr.scheme ≠ [] then pr.scheme.map Char.toLower else "file".toList
  if protocol = "file".toList ∨ url.startswith ['/'] then
    pure ⟨protocol, [], if url.startswith ['/'] then url else pr.path⟩
  else pure ⟨protocol, pr.netloc, dropSlash pr.path⟩

/-- The entries of a mapping that are not passed over. -/
def wellFormed (e : PyStr × PyStr) : Bool :=
  e.1.endswith '/' && e.2.startswith "msc://".toList && e.2.endswith '/'

/-- `self._mapping[protocol][bucket].append((prefix, dest_profile))` -/
def add (m : Mapping) (location : UrlLocation) (profile : PyStr) : Mapping :=
  let buckets := (m.get? location.protocol).getD .empty
  let prefixes := (buckets.get? location.bucket).getD []
  m.set location.protocol (buckets.set location.bucket (prefixes ++ [(location.path, profile)]))

/-- The loop of `_load_mapping`. -/
def addAll : Mapping → List (PyStr × PyStr) → Option Mapping
  | m, [] => some m
  | m, e :: es =>
      if !wellFormed e then addAll m es
      else do
        let dest ← urlparse netlocOk e.2
        let source ← splitUrl netlocOk e.1
        addAll (add m source dest.netloc) es

/-- `sorted(prefixes, key=lambda x: len(x[0]), reverse=True)` -/
def sortPrefixes (prefixes : List (PyStr × PyStr)) : List (PyStr × PyStr) :=
  prefixes.insertionSort fun x y => y.1.length ≤ x.1.length

/-- `_load_mapping` -/
def loadMapping (pathMapping : PyDict PyStr PyStr) : Option Mapping :=
  (addAll netlocOk .empty pathMapping.entries).map fun m =>
    m.mapValues fun buckets => buckets.mapValues sortPrefixes

/-- `rel_path`: behind a slash for a file, and without a leading slash for an object store. -/
def relPath (protocol rest : PyStr) : PyStr :=
  if protocol = "file".toList then if rest.startswith ['/'] then rest else '/' :: rest
  else dropSlash rest

/-- `find_mapping`; `none` stands for a `ValueError`. -/
def findMapping (m : Mapping) (url : PyStr) : Option (Option (PyStr × PyStr)) := do
  let location ← splitUrl netlocOk url
  let possibleMapping := ((m.get? location.protocol).bind (·.get? location.bucket)).getD []
  pure ((possibleMapping.find? fun x => location.path.startswith x.1).map fun x =>
    (x.2, relPath location.protocol (location.path.drop x.1.length)))

end Code

/-! ### What is loaded -/

section Load

variable {netlocOk : PyStr → Bool} {m m' : Mapping} {location : UrlLocation}
  {profile protocol bucket : PyStr}
  {x : PyStr × PyStr} {pathMapping : PyDict PyStr PyStr}

/-- `self._mapping[protocol][bucket]`, if it is there. -/
def prefixes (m : Mapping) (protocol bucket : PyStr) : List (PyStr × PyStr) :=
  ((m.get? protocol).bind (·.get? bucket)).getD []

/-- An added mapping is one more prefix of its bucket. -/
theorem prefixes_add : prefixes (add m location profile) protocol bucket =
    if protocol = location.protocol ∧ bucket = location.bucket then
      prefixes m protocol bucket ++ [(location.path, profile)]
    else prefixes m protocol bucket := by
  unfold prefixes add
  dsimp only
  rw [PyDict.get?_set]
  by_cases hprotocol : protocol = location.protocol
  · subst hprotocol
    rw [if_pos rfl, Option.bind_some, PyDict.get?_set]
    by_cases hbucket : bucket = location.bucket
    · subst hbucket
      cases m.get? location.protocol <;> simp
    · rw [if_neg hbucket, if_neg fun h => hbucket h.2]
      cases m.get? location.protocol <;> simp
  · rw [if_neg hprotocol, if_neg fun h => hprotocol h.1]

/-- An entry of the mapping with what is loaded of it. -/
structure Source (netlocOk : PyStr → Bool) (e : PyStr × PyStr) (source : UrlLocation)
    (profile : PyStr) : Prop where
  wellFormed : wellFormed e = true
  source : splitUrl netlocOk e.1 = some source
  dest : ∃ dest, urlparse netlocOk e.2 = some dest ∧ dest.netloc = profile

theorem Source.unique {e : PyStr × PyStr} {source source' : UrlLocation} {profile profile' : PyStr}
    (h : Source netlocOk e source profile) (h' : Source netlocOk e source' profile') :
    source = source' ∧ profile = profile' := by
  obtain ⟨dest, hdest, rfl⟩ := h.dest
  obtain ⟨dest', hdest', rfl⟩ := h'.dest
  exact ⟨Option.some.inj (h.source.symm.trans h'.source),
    congrArg ParseResult.netloc (Option.some.inj (hdest.symm.trans hdest'))⟩

/-- The prefixes come from the entries. -/
theorem mem_prefixes_addAll {es : List (PyStr × PyStr)} (h : addAll netlocOk m es = some m') :
    x ∈ prefixes m' protocol bucket ↔ x ∈ prefixes m protocol bucket ∨
      ∃ e ∈ es, Source netlocOk e ⟨protocol, bucket, x.1⟩ x.2 := by
  induction es generalizing m with
  | nil =>
      cases h
      simp
  | cons e es ih =>
      rw [addAll] at h
      split at h
      -- an entry that is not well formed is skipped
      next hnot =>
        rw [Bool.not_eq_true'] at hnot
        rw [ih h]
        refine or_congr_right ⟨fun ⟨e', he', hs⟩ => ⟨e', List.mem_cons_of_mem _ he', hs⟩, ?_⟩
        rintro ⟨e', he', hs⟩
        rcases List.mem_cons.mp he' with rfl | he'
        · exact absurd hs.wellFormed (by simp [hnot])
        · exact ⟨e', he', hs⟩
      -- an entry that is, is one more source
      next hwell =>
        rw [Bool.not_eq_true', Bool.not_eq_false] at hwell
        simp only [Option.bind_eq_bind, Option.bind_eq_some_iff] at h
        obtain ⟨dest, hdest, source, hsource, hadd⟩ := h
        have hthis : Source netlocOk e source dest.netloc := ⟨hwell, hsource, dest, hdest, rfl⟩
        have hnew : (∃ e' ∈ e :: es, Source netlocOk e' ⟨protocol, bucket, x.1⟩ x.2) ↔
            (source = ⟨protocol, bucket, x.1⟩ ∧ dest.netloc = x.2) ∨
              ∃ e' ∈ es, Source netlocOk e' ⟨protocol, bucket, x.1⟩ x.2 := by
          simp only [List.mem_cons, exists_eq_or_imp]
          refine or_congr_left ⟨fun hs => hthis.unique hs, ?_⟩
          rintro ⟨rfl, hx⟩
          exact hx ▸ hthis
        rw [ih hadd, hnew, prefixes_add, ← or_assoc]
        refine or_congr_left ?_
        obtain ⟨path, profile⟩ := x
        obtain ⟨sprotocol, sbucket, spath⟩ := source
        dsimp only
        split
        -- the source is in this bucket, or in another
        next heq =>
          obtain ⟨rfl, rfl⟩ := heq
          simp [eq_comm]
        next hne =>
          refine ⟨.inl, fun h => h.resolve_right fun heq => hne ?_⟩
          obtain ⟨heq, -⟩ := heq
          rw [UrlLocation.mk.injEq] at heq
          exact ⟨heq.1.symm, heq.2.1.symm⟩

/-- The loaded prefixes are those of the entries, the longest first. -/
theorem prefixes_loadMapping (h : loadMapping netlocOk pathMapping = some m) :
    ∃ m', addAll netlocOk .empty pathMapping.entries = some m' ∧
      ∀ protocol bucket, prefixes m protocol bucket = sortPrefixes
        (prefixes m' protocol bucket) := by
  obtain ⟨m', hm', rfl⟩ := Option.map_eq_some_iff.mp h
  refine ⟨m', hm', fun protocol bucket => ?_⟩
  unfold prefixes
  rw [PyDict.get?_mapValues]
  cases m'.get? protocol with
  | none => rfl
  | some buckets =>
      rw [Option.map_some, Option.bind_some, Option.bind_some, PyDict.get?_mapValues]
      cases buckets.get? bucket with
      | none => rfl
      | some l => rfl

/-- **What is loaded**: the sources of a protocol and a bucket. -/
theorem mem_prefixes_iff (h : loadMapping netlocOk pathMapping = some m) :
    x ∈ prefixes m protocol bucket ↔
      ∃ e ∈ pathMapping.entries, Source netlocOk e ⟨protocol, bucket, x.1⟩ x.2 := by
  obtain ⟨m', hm', hsort⟩ := prefixes_loadMapping h
  rw [hsort, sortPrefixes, (List.perm_insertionSort _ _).mem_iff, mem_prefixes_addAll hm']
  exact or_iff_right List.not_mem_nil

/-- The longest prefixes come first. -/
theorem pairwise_prefixes (h : loadMapping netlocOk pathMapping = some m) :
    (prefixes m protocol bucket).Pairwise fun x y => y.1.length ≤ x.1.length := by
  obtain ⟨m', -, hsort⟩ := prefixes_loadMapping h
  rw [hsort]
  have htotal : Std.Total fun x y : PyStr × PyStr => y.1.length ≤ x.1.length :=
    ⟨fun x y => Nat.le_total _ _⟩
  have htrans : IsTrans (PyStr × PyStr) fun x y => y.1.length ≤ x.1.length :=
    ⟨fun x y z hxy hyz => hyz.trans hxy⟩
  exact List.pairwise_insertionSort _ _

end Load

/-! ### The longest source -/

section Find

variable {netlocOk : PyStr → Bool} {m : Mapping} {location : UrlLocation} {url : PyStr}
  {pathMapping : PyDict PyStr PyStr}

/-- The URL starts with the source, as both are taken apart. -/
def Covers (source location : UrlLocation) : Prop :=
  source.protocol = location.protocol ∧ source.bucket = location.bucket ∧
    source.path.IsPrefix location.path

/-- The first one that is found is a longest one. -/
theorem le_of_find? {α : Type*} {l : List α} {p : α → Bool} {len : α → ℕ} {x y : α}
    (hl : l.Pairwise fun x y => len y ≤ len x) (hfind : l.find? p = some x) (hy : y ∈ l)
    (hp : p y = true) : len y ≤ len x := by
  obtain ⟨-, as, bs, rfl, has⟩ := List.find?_eq_some_iff_append.mp hfind
  rcases List.mem_append.mp hy with hy | hy
  · have := has y hy
    simp [hp] at this
  · rcases List.mem_cons.mp hy with rfl | hy
    · exact le_rfl
    · exact (List.pairwise_cons.mp (List.pairwise_append.mp hl).2.1).1 y hy

/-- What `find_mapping` returns for a URL: a longest source that covers it, or nothing. -/
def FindsLongest (netlocOk : PyStr → Bool) (pathMapping : PyDict PyStr PyStr)
    (location : UrlLocation)
    (r : Option (PyStr × PyStr)) : Prop :=
  (∃ e ∈ pathMapping.entries, ∃ source profile, Source netlocOk e source profile ∧
    Covers source location ∧
    (∀ e' ∈ pathMapping.entries, ∀ source' profile', Source netlocOk e' source' profile' →
      Covers source' location → source'.path.length ≤ source.path.length) ∧
    r = some (profile, relPath location.protocol (location.path.drop source.path.length))) ∨
  ((∀ e ∈ pathMapping.entries, ∀ source profile, Source netlocOk e source profile →
    ¬Covers source location) ∧ r = none)

/-- The mapping that is found is the longest that covers the URL. -/
theorem findMapping_covers (hload : loadMapping netlocOk pathMapping = some m)
    (hurl : splitUrl netlocOk url = some location) :
    ∃ r, findMapping netlocOk m url = some r ∧ FindsLongest netlocOk pathMapping location r := by
  have hfind : findMapping netlocOk m url = some
      (((prefixes m location.protocol location.bucket).find? fun x =>
        location.path.startswith x.1).map fun x =>
          (x.2, relPath location.protocol (location.path.drop x.1.length))) := by
    rw [findMapping, hurl]
    rfl
  refine ⟨_, hfind, ?_⟩
  -- a source that covers the URL is among the prefixes that are searched
  have hcovers : ∀ e ∈ pathMapping.entries, ∀ source profile, Source netlocOk e source profile →
      Covers source location →
        (source.path, profile) ∈ prefixes m location.protocol location.bucket ∧
        location.path.startswith source.path = true := by
    rintro e he source profile hs ⟨hprotocol, hbucket, hpath⟩
    refine ⟨(mem_prefixes_iff hload).mpr ⟨e, he, ?_⟩, List.isPrefixOf_iff_prefix.mpr hpath⟩
    rw [← hprotocol, ← hbucket]
    exact hs
  cases hx : (prefixes m location.protocol location.bucket).find? fun x =>
      location.path.startswith x.1 with
  | none =>
      refine .inr ⟨fun e he source profile hs hcov => ?_, rfl⟩
      obtain ⟨hmem, hstarts⟩ := hcovers e he source profile hs hcov
      exact List.find?_eq_none.mp hx _ hmem hstarts
  | some x =>
      have hmem := List.mem_of_find?_eq_some hx
      have hstarts := List.find?_some hx
      obtain ⟨e, he, hs⟩ := (mem_prefixes_iff hload).mp hmem
      refine .inl ⟨e, he, _, _, hs, ⟨rfl, rfl, List.isPrefixOf_iff_prefix.mp hstarts⟩, ?_, rfl⟩
      intro e' he' source' profile' hs' hcov
      obtain ⟨hmem', hstarts'⟩ := hcovers e' he' source' profile' hs' hcov
      have hsorted : (prefixes m location.protocol location.bucket).Pairwise fun x y =>
          (fun x : PyStr × PyStr => x.1.length) y ≤ (fun x : PyStr × PyStr => x.1.length) x :=
        pairwise_prefixes hload
      have hle := le_of_find? hsorted hx hmem' hstarts'
      exact hle

end Find

/-! ### Strings that are taken apart without loss -/

section Plain

variable {netlocOk : PyStr → Bool} {m : Mapping} {s u scheme netloc path : PyStr}
  {source location : UrlLocation} {pathMapping : PyDict PyStr PyStr}

/-- An absolute path, or a plain URL of an object store. -/
def Plain (u : PyStr) : Prop :=
  u.head? = some '/' ∨ ∃ scheme netloc path, PlainUrl scheme netloc path ∧ scheme ≠ "file".toList ∧
    u = plainUrl scheme netloc path

/-- An absolute path is a `file` URL. -/
theorem splitUrl_absolute (hu : u.head? = some '/') (h : splitUrl netlocOk u = some location) :
    location = ⟨"file".toList, [], u⟩ := by
  obtain ⟨c, u', rfl⟩ : ∃ c u', u = c :: u' := by
    cases u with
    | nil => cases hu
    | cons c u' => exact ⟨c, u', rfl⟩
  obtain rfl : c = '/' := Option.some.inj hu
  have hstarts : PyStr.startswith ('/' :: u') ['/'] = true := by
    rw [PyStr.startswith_slash_iff]
    rfl
  simp only [splitUrl, Option.bind_eq_bind, Option.bind_eq_some_iff, hstarts] at h
  obtain ⟨pr, hpr, h⟩ := h
  rw [scheme_of_absolute hpr] at h
  exact (Option.some.inj h).symm

theorem head_plainUrl_ne (h : PlainNetloc scheme netloc) (path : PyStr) :
    (plainUrl scheme netloc path).head? ≠ some '/' := by
  cases scheme with
  | nil => exact absurd h.alpha (by decide)
  | cons c scheme =>
      intro heq
      obtain rfl : c = '/' := Option.some.inj heq
      exact absurd h.alpha (by simp)

/-- A plain URL is split into its parts. -/
theorem splitUrl_plain (hu : PlainUrl scheme netloc path) (hfile : scheme ≠ "file".toList)
    (h : splitUrl netlocOk (plainUrl scheme netloc path) = some location) :
    location = ⟨scheme, netloc, path⟩ := by
  have hstarts : ¬(plainUrl scheme netloc path).startswith ['/'] = true := by
    rw [PyStr.startswith_slash_iff]
    exact head_plainUrl_ne hu.toPlainNetloc path
  have hne : scheme ≠ [] := by
    rintro rfl
    exact absurd hu.alpha (by decide)
  simp only [splitUrl, Option.bind_eq_bind, Option.bind_eq_some_iff] at h
  obtain ⟨pr, hpr, h⟩ := h
  rw [urlparse_plain hu hpr, if_pos hne, hu.lower, if_neg (not_or.mpr ⟨hfile, hstarts⟩)] at h
  exact (Option.some.inj h).symm

/-- Strings that are cut at their first `c`. -/
theorem append_cons_prefix_iff {c : Char} {a b r t : PyStr} (ha : c ∉ a) (hb : c ∉ b) :
    (a ++ c :: r).IsPrefix (b ++ c :: t) ↔ a = b ∧ r.IsPrefix t := by
  induction a generalizing b with
  | nil =>
      cases b with
      | nil => simp
      | cons y b =>
          have hy : c ≠ y := fun h => hb (h ▸ List.mem_cons_self)
          simp [hy]
  | cons x a ih =>
      obtain ⟨hx, ha⟩ := not_or.mp (List.mem_cons.not.mp ha)
      cases b with
      | nil =>
          have hx' : x ≠ c := Ne.symm hx
          simp [hx']
      | cons y b =>
          obtain ⟨-, hb⟩ := not_or.mp (List.mem_cons.not.mp hb)
          rw [List.cons_append, List.cons_append, List.cons_prefix_cons, ih ha hb, List.cons.injEq,
            and_assoc]

theorem not_mem_of_plain (h : PlainNetloc scheme netloc) : ':' ∉ scheme ∧ '/' ∉ netloc :=
  ⟨fun hmem => absurd (List.all_eq_true.mp h.schemeChars _ hmem) (by decide),
    fun hmem => absurd (h.netlocChars _ hmem).1 (by decide)⟩

/-- A URL starts with another one if their parts do. -/
theorem plainUrl_isPrefix_iff {scheme' netloc' path' : PyStr} (hscheme : ':' ∉ scheme)
    (hscheme' : ':' ∉ scheme') (hnetloc : '/' ∉ netloc) (hnetloc' : '/' ∉ netloc') :
    (plainUrl scheme netloc path).IsPrefix (plainUrl scheme' netloc' path') ↔
      scheme = scheme' ∧ netloc = netloc' ∧ path.IsPrefix path' := by
  rw [plainUrl, plainUrl, append_cons_prefix_iff hscheme hscheme', List.cons_prefix_cons,
    List.cons_prefix_cons, append_cons_prefix_iff hnetloc hnetloc']
  simp

theorem plainUrl_prefix_iff {scheme' netloc' path' : PyStr} (h : PlainNetloc scheme netloc)
    (h' : PlainNetloc scheme' netloc') :
    (plainUrl scheme netloc path).IsPrefix (plainUrl scheme' netloc' path') ↔
      scheme = scheme' ∧ netloc = netloc' ∧ path.IsPrefix path' :=
  plainUrl_isPrefix_iff (not_mem_of_plain h).1 (not_mem_of_plain h').1 (not_mem_of_plain h).2
    (not_mem_of_plain h').2

/-- **Between plain strings** a source covers a URL if the URL starts with it, and what is behind it
is the same. -/
theorem covers_iff_isPrefix (hs : Plain s) (hu : Plain u)
    (hsource : splitUrl netlocOk s = some source)
    (hlocation : splitUrl netlocOk u = some location) :
    (Covers source location ↔ s.IsPrefix u) ∧ (s.IsPrefix u →
      location.path.drop source.path.length = u.drop s.length ∧
        s.length + location.path.length = u.length + source.path.length) := by
  rcases hs with hs | ⟨scheme, netloc, path, hs, hfile, rfl⟩
  · obtain rfl := splitUrl_absolute hs hsource
    -- two absolute paths
    rcases hu with hu | ⟨scheme', netloc', path', hu, hfile', rfl⟩
    · obtain rfl := splitUrl_absolute hu hlocation
      exact ⟨⟨fun h => h.2.2, fun h => ⟨rfl, rfl, h⟩⟩, fun _ => ⟨rfl, Nat.add_comm _ _⟩⟩
    -- an absolute path is no prefix of a URL with a scheme
    · obtain rfl := splitUrl_plain hu hfile' hlocation
      have hnot : ¬s.IsPrefix (plainUrl scheme' netloc' path') := by
        rintro ⟨t, ht⟩
        refine head_plainUrl_ne hu.toPlainNetloc path' ?_
        rw [← ht, List.head?_append, hs]
        rfl
      exact ⟨iff_of_false (fun h => hfile' h.1.symm) hnot, fun h => absurd h hnot⟩
  · obtain rfl := splitUrl_plain hs hfile hsource
    rcases hu with hu | ⟨scheme', netloc', path', hu, hfile', rfl⟩
    -- nor the other way round
    · obtain rfl := splitUrl_absolute hu hlocation
      have hnot : ¬(plainUrl scheme netloc path).IsPrefix u := by
        rintro ⟨t, ht⟩
        refine head_plainUrl_ne hs.toPlainNetloc path ?_
        rw [← ht, List.head?_append] at hu
        cases hhead : (plainUrl scheme netloc path).head? with
        | none => simp [plainUrl] at hhead
        | some c => rwa [hhead] at hu
      exact ⟨iff_of_false (fun h => hfile h.1) hnot, fun h => absurd h hnot⟩
    -- two URLs with a scheme
    · obtain rfl := splitUrl_plain hu hfile' hlocation
      rw [plainUrl_prefix_iff hs.toPlainNetloc hu.toPlainNetloc]
      refine ⟨Iff.rfl, ?_⟩
      rintro ⟨rfl, rfl, t, rfl⟩
      have happend : plainUrl scheme netloc (path ++ t) = plainUrl scheme netloc path ++ t := by
        simp [plainUrl]
      dsimp only
      rw [happend, List.drop_left, List.drop_left, List.length_append, List.length_append]
      exact ⟨rfl, by omega⟩

/-- The entry is a plain source that ends with a slash, and a destination `msc://profile/path/`. -/
def PlainEntry (e : PyStr × PyStr) (profile : PyStr) : Prop :=
  wellFormed e = true ∧ Plain e.1 ∧ PlainNetloc "msc".toList profile ∧
    ∃ path, e.2 = plainUrl "msc".toList profile path

/-- What `find_mapping` returns for a plain URL: the longest source that it starts with, or
nothing. -/
def FindsLongestPrefix (pathMapping : PyDict PyStr PyStr) (u : PyStr) (r : Option (PyStr × PyStr)) :
    Prop :=
  (∃ e ∈ pathMapping.entries, ∃ profile, PlainEntry e profile ∧ e.1.IsPrefix u ∧
    (∀ e' ∈ pathMapping.entries, e'.1.IsPrefix u → e'.1.length ≤ e.1.length) ∧
    r = some (profile, if u.startswith ['/'] then relPath "file".toList (u.drop e.1.length)
      else dropSlash (u.drop e.1.length))) ∨
  ((∀ e ∈ pathMapping.entries, ¬e.1.IsPrefix u) ∧ r = none)

theorem relPath_protocol (hu : Plain u) (hlocation : splitUrl netlocOk u = some location)
    (rest : PyStr) : relPath location.protocol rest =
      if u.startswith ['/'] then relPath "file".toList rest else dropSlash rest := by
  rcases hu with hu | ⟨scheme, netloc, path, hu, hfile, rfl⟩
  · rw [splitUrl_absolute hu hlocation, if_pos ((PyStr.startswith_slash_iff u).mpr hu)]
  · have hhead := head_plainUrl_ne hu.toPlainNetloc path
    rw [splitUrl_plain hu hfile hlocation, if_neg ((PyStr.startswith_slash_iff _).not.mpr hhead),
      relPath, if_neg hfile]

theorem Source.profile_eq {e : PyStr × PyStr} {profile profile' : PyStr} (he : PlainEntry e profile)
    (hs : Source netlocOk e source profile') : profile' = profile := by
  obtain ⟨-, -, hplain, path, hpath⟩ := he
  obtain ⟨dest, hdest, rfl⟩ := hs.dest
  rw [hpath] at hdest
  exact netloc_of_plain hplain hdest

/-- An entry of a mapping that has been loaded is a source. -/
theorem exists_source {es : List (PyStr × PyStr)} {m' : Mapping}
    (h : addAll netlocOk m es = some m') {e : PyStr × PyStr} (he : e ∈ es)
    (hwell : wellFormed e = true) : ∃ source profile, Source netlocOk e source profile := by
  induction es generalizing m with
  | nil => cases he
  | cons e' es ih =>
      rw [addAll] at h
      split at h
      next hnot =>
        rcases List.mem_cons.mp he with rfl | he
        · simp [hwell] at hnot
        · exact ih h he
      next =>
        simp only [Option.bind_eq_bind, Option.bind_eq_some_iff] at h
        obtain ⟨dest, hdest, source, hsource, hadd⟩ := h
        rcases List.mem_cons.mp he with rfl | he
        · exact ⟨source, dest.netloc, hwell, hsource, dest, hdest, rfl⟩
        · exact ih hadd he

/-- **Plain strings**: what covers the URL is what it starts with. -/
theorem FindsLongest.plain {r : Option (PyStr × PyStr)}
    (hload : loadMapping netlocOk pathMapping = some m)
    (hplain : ∀ e ∈ pathMapping.entries, ∃ profile, PlainEntry e profile) (hu : Plain u)
    (hlocation : splitUrl netlocOk u = some location)
    (h : FindsLongest netlocOk pathMapping location r) : FindsLongestPrefix pathMapping u r := by
  obtain ⟨m', hm', -⟩ := prefixes_loadMapping hload
  have hsource : ∀ e ∈ pathMapping.entries, ∃ source profile, Source netlocOk e source profile ∧
      PlainEntry e profile := by
    intro e he
    obtain ⟨profile, hentry⟩ := hplain e he
    obtain ⟨source, profile', hs⟩ := exists_source hm' he hentry.1
    obtain rfl := hs.profile_eq hentry
    exact ⟨source, profile', hs, hentry⟩
  rcases h with ⟨e, he, source, profile, hs, hcov, hmax, rfl⟩ | ⟨hnone, rfl⟩
  -- some entry covers the location, and the longest does
  · obtain ⟨profile', hentry⟩ := hplain e he
    obtain rfl := hs.profile_eq hentry
    obtain ⟨hiff, hdrop⟩ := covers_iff_isPrefix hentry.2.1 hu hs.source hlocation
    have hprefix := hiff.mp hcov
    refine .inl ⟨e, he, profile, hentry, hprefix, fun e' he' hprefix' => ?_, ?_⟩
    · obtain ⟨source', profile'', hs', hentry'⟩ := hsource e' he'
      obtain ⟨hiff', hdrop'⟩ := covers_iff_isPrefix hentry'.2.1 hu hs'.source hlocation
      have hle := hmax e' he' source' profile'' hs' (hiff'.mpr hprefix')
      have h₁ := (hdrop hprefix).2
      have h₂ := (hdrop' hprefix').2
      omega
    · rw [(hdrop hprefix).1, relPath_protocol hu hlocation]
  -- none does
  · refine .inr ⟨fun e he hprefix => ?_, rfl⟩
    obtain ⟨source, profile, hs, hentry⟩ := hsource e he
    obtain ⟨hiff, -⟩ := covers_iff_isPrefix hentry.2.1 hu hs.source hlocation
    exact hnone e he source profile hs (hiff.mpr hprefix)

/-- **`find_mapping`** finds a longest source that covers the URL, and among plain strings the
longest one that the URL starts with. -/
theorem find_mapping_spec (netlocOk : PyStr → Bool)
    (hload : loadMapping netlocOk pathMapping = some m)
    (hlocation : splitUrl netlocOk u = some location) :
    ∃ r, findMapping netlocOk m u = some r ∧ FindsLongest netlocOk pathMapping location r ∧
      ((∀ e ∈ pathMapping.entries, ∃ profile, PlainEntry e profile) → Plain u →
        FindsLongestPrefix pathMapping u r) := by
  obtain ⟨r, hr, hfinds⟩ := findMapping_covers hload hlocation
  exact ⟨r, hr, hfinds, fun hplain hu => hfinds.plain hload hplain hu hlocation⟩

end Plain

/-! ### Which URLs are translated -/

section Translate

variable {netlocOk : PyStr → Bool} {m : Mapping} {source location : UrlLocation}
  {u rest scheme netloc path profile destPath : PyStr} {pathMapping : PyDict PyStr PyStr}
  {e : PyStr × PyStr}

/-- A source that is read as it is written: an absolute path, or a URL of an object store. -/
def PlainSource (s : PyStr) : Prop :=
  (∃ c t, s = '/' :: c :: t ∧ c ≠ '/' ∧ isUnsafe c = false) ∨
    ∃ scheme netloc path, PlainUrl scheme netloc path ∧ scheme ≠ "file".toList ∧
      s = plainUrl scheme netloc path

/-- A well-formed entry: such a source, and a destination `msc://profile/path`, which both end with
a slash. -/
structure MappingEntry (e : PyStr × PyStr) (profile destPath : PyStr) : Prop where
  wellFormed : wellFormed e = true
  source : PlainSource e.1
  netloc : PlainNetloc "msc".toList profile
  dest : e.2 = plainUrl "msc".toList profile destPath

/-- The longest source that the URL starts with. -/
structure LongestSource (pathMapping : PyDict PyStr PyStr) (u : PyStr) (e : PyStr × PyStr) :
    Prop where
  mem : e ∈ pathMapping.entries
  isPrefix : e.1.IsPrefix u
  longest : ∀ e' ∈ pathMapping.entries, e'.1.IsPrefix u → e'.1.length ≤ e.1.length

/-- The path of the destination followed by the rest of the URL, for a file behind a slash. -/
def translated (u destPath rest : PyStr) : PyStr :=
  if u.startswith ['/'] then '/' :: (destPath ++ rest) else destPath ++ rest

/-- What `find_mapping` is to return. -/
structure Translates (netlocOk : PyStr → Bool) (pathMapping : PyDict PyStr PyStr) (m : Mapping)
    (u : PyStr) : Prop where
  mapped : ∀ e profile destPath, LongestSource pathMapping u e → MappingEntry e profile destPath →
    findMapping netlocOk m u = some (some (profile, translated u destPath (u.drop e.1.length)))
  unmapped : (∀ e ∈ pathMapping.entries, ¬e.1.IsPrefix u) → findMapping netlocOk m u = some none

/-- What a source or a URL is taken apart into, as one string. -/
def locationText (location : UrlLocation) : PyStr :=
  if location.protocol = "file".toList then
    if location.path.startswith ['/'] then location.path else "file:".toList ++ location.path
  else plainUrl location.protocol location.bucket location.path

/-- The URL is read as it is written, as far as the sources go. -/
structure ReadAsWritten (netlocOk : PyStr → Bool) (pathMapping : PyDict PyStr PyStr) (u : PyStr) :
    Prop where
  /-- behind the longest source that it starts with there is no second slash, and in a URL nothing
  that is removed or cut off; and the destination has no path -/
  mapped : ∀ e profile destPath, LongestSource pathMapping u e → MappingEntry e profile destPath →
    destPath = [] ∧ (u.drop e.1.length).head? ≠ some '/' ∧
      (u.head? = some '/' ∨ KeptPath (u.takeWhile (· != ':')) (u.drop e.1.length))
  /-- if it starts with no source, it does so as it is read, too -/
  unmapped : (∀ e ∈ pathMapping.entries, ¬e.1.IsPrefix u) →
    ∃ location, splitUrl netlocOk u = some location ∧
      ∀ e ∈ pathMapping.entries, ¬e.1.IsPrefix (locationText location)

theorem PlainSource.plain {s : PyStr} (h : PlainSource s) : Plain s := by
  rcases h with ⟨c, t, rfl, -, -⟩ | h
  · exact .inl rfl
  · exact .inr h

theorem MappingEntry.plain (h : MappingEntry e profile destPath) : PlainEntry e profile :=
  ⟨h.wellFormed, h.source.plain, h.netloc, destPath, h.dest⟩

theorem dropSlash_cons (path : PyStr) : dropSlash ('/' :: path) = path := by
  rw [dropSlash, if_pos ((PyStr.startswith_slash_iff _).mpr rfl)]
  rfl

theorem dropSlash_of_head (h : rest.head? ≠ some '/') : dropSlash rest = rest :=
  if_neg ((PyStr.startswith_slash_iff rest).not.mpr h)

theorem length_dropSlash_le (rest : PyStr) : (dropSlash rest).length ≤ rest.length := by
  unfold dropSlash
  split
  · exact (List.drop_sublist 1 rest).length_le
  · exact le_rfl

/-- What goes into a path behind a slash is longer than the path, unless it has none in front. -/
theorem relPath_file_eq_iff : relPath "file".toList rest = '/' :: (destPath ++ rest) ↔
    destPath = [] ∧ rest.head? ≠ some '/' := by
  rw [relPath, if_pos rfl]
  by_cases hslash : rest.head? = some '/'
  · rw [if_pos ((PyStr.startswith_slash_iff rest).mpr hslash)]
    refine iff_of_false (fun heq => ?_) fun h => h.2 hslash
    have hlen := congrArg List.length heq
    rw [List.length_cons, List.length_append] at hlen
    omega
  · rw [if_neg ((PyStr.startswith_slash_iff rest).not.mpr hslash), List.cons.injEq, eq_self,
      true_and, and_iff_left hslash]
    constructor
    · exact fun heq => List.append_left_eq_self.mp heq.symm
    · rintro rfl
      rfl

/-- The scheme of a URL is what stands in front of its first colon. -/
theorem takeWhile_plainUrl (h : PlainNetloc scheme netloc) (path : PyStr) :
    (plainUrl scheme netloc path).takeWhile (· != ':') = scheme := by
  have hall : ∀ c ∈ scheme, (c != ':') = true := fun c hc =>
    bne_iff_ne.mpr fun heq => (not_mem_of_plain h).1 (heq ▸ hc)
  rw [plainUrl, List.takeWhile_append_of_pos hall, List.takeWhile_cons_of_neg (by decide),
    List.append_nil]

/-- Behind an absolute path anything is read as it is written. -/
theorem splitUrl_absolute_append {c : Char} (hc : c ≠ '/') (hsafe : isUnsafe c = false)
    (u : PyStr) : splitUrl netlocOk ('/' :: c :: u) = some ⟨"file".toList, [], '/' :: c :: u⟩ := by
  obtain ⟨pr, hpr⟩ : ∃ pr, urlparse netlocOk ('/' :: c :: u) = some pr :=
    urlparse_absolute hc hsafe u
  have hstarts : PyStr.startswith ('/' :: c :: u) ['/'] = true :=
    (PyStr.startswith_slash_iff _).mpr rfl
  unfold splitUrl
  rw [hpr]
  simp only [Option.bind_eq_bind, Option.bind_some, scheme_of_absolute hpr, hstarts]
  rfl

/-- Behind a source with a netloc the rest of the URL is read by itself. -/
theorem splitUrl_append (h : PlainUrl scheme netloc path) (hfile : scheme ≠ "file".toList)
    (hpath : path = [] ∨ path.getLast? = some '/')
    (hsource : splitUrl netlocOk (plainUrl scheme netloc path) = some source) (rest : PyStr) :
    splitUrl netlocOk (plainUrl scheme netloc (path ++ rest)) =
      some ⟨scheme, netloc, path ++ readPath scheme rest⟩ := by
  have hread : readPath scheme (path ++ rest) = path ++ readPath scheme rest := by
    rcases hpath with rfl | hlast
    · rfl
    · obtain ⟨base, rfl⟩ := List.getLast?_eq_some_iff.mp hlast
      rw [List.append_assoc, List.append_assoc]
      exact readPath_append h.kept
  have hok : ¬(!netloc.isEmpty && !netlocOk netloc) = true := by
    intro hrefused
    rw [splitUrl, urlparse_plainNetloc h.toPlainNetloc, if_pos hrefused] at hsource
    cases hsource
  have hstarts : ¬(plainUrl scheme netloc (path ++ rest)).startswith ['/'] = true := by
    rw [PyStr.startswith_slash_iff]
    exact head_plainUrl_ne h.toPlainNetloc _
  have hne : scheme ≠ [] := by
    rintro rfl
    exact absurd h.alpha (by decide)
  unfold splitUrl
  rw [urlparse_plainNetloc h.toPlainNetloc, if_neg hok]
  simp only [Option.bind_eq_bind, Option.bind_some]
  rw [if_pos hne, h.lower, if_neg (not_or.mpr ⟨hfile, hstarts⟩), dropSlash_cons, hread]
  rfl

/-- A longest source is the one that is found. -/
theorem FindsLongestPrefix.eq {r : Option (PyStr × PyStr)}
    (h : FindsLongestPrefix pathMapping u r) (he : LongestSource pathMapping u e)
    (hentry : PlainEntry e profile) :
    r = some (profile, if u.startswith ['/'] then relPath "file".toList (u.drop e.1.length)
      else dropSlash (u.drop e.1.length)) := by
  rcases h with ⟨e', he', profile', hentry', hprefix', hmax', rfl⟩ | ⟨hnone, -⟩
  · have hlen : e'.1.length = e.1.length :=
      le_antisymm (he.longest e' he' hprefix') (hmax' e he.mem he.isPrefix)
    have hkey : e'.1 = e.1 := (List.prefix_of_prefix_length_le hprefix' he.isPrefix
      hlen.le).eq_of_length hlen
    obtain rfl : e' = e := List.inj_on_of_nodup_map pathMapping.nodup he' he.mem hkey
    obtain ⟨-, -, hplain, path, hpath⟩ := hentry
    obtain ⟨-, -, hplain', path', hpath'⟩ := hentry'
    have hsame : (plainUrl "msc".toList profile' path').IsPrefix
        (plainUrl "msc".toList profile path) := by
      rw [← hpath, ← hpath']
    rw [((plainUrl_prefix_iff hplain' hplain).mp hsame).2.1]
  · exact absurd he.isPrefix (hnone e he.mem)

/-- A URL that starts with a source is translated if nothing of it is lost. -/
theorem mapped_absolute (hload : loadMapping netlocOk pathMapping = some m)
    (hentries : ∀ e ∈ pathMapping.entries, ∃ profile destPath, MappingEntry e profile destPath)
    (he : LongestSource pathMapping u e) (hentry : MappingEntry e profile destPath)
    (hu : u.head? = some '/') (hlocation : splitUrl netlocOk u = some location) :
    findMapping netlocOk m u = some (some (profile, translated u destPath (u.drop e.1.length))) ↔
      destPath = [] ∧ (u.drop e.1.length).head? ≠ some '/' := by
  obtain ⟨r, hr, -, hplain⟩ := find_mapping_spec netlocOk hload hlocation
  have hlongest := hplain (fun e he => (hentries e he).imp fun _ h => h.choose_spec.plain) (.inl hu)
  rw [hr, hlongest.eq he hentry.plain, translated, if_pos ((PyStr.startswith_slash_iff u).mpr hu),
    if_pos ((PyStr.startswith_slash_iff u).mpr hu), ← relPath_file_eq_iff]
  simp

/-- The source of a plain entry that ends with a slash has a path that does. -/
theorem MappingEntry.path_slash (hentry : MappingEntry e profile destPath)
    (hs : e.1 = plainUrl scheme netloc path) : path = [] ∨ path.getLast? = some '/' := by
  by_cases hnil : path = []
  · exact .inl hnil
  · have hends : e.1.endswith '/' = true := by
      have hwell := hentry.wellFormed
      rw [PathMapping.wellFormed, Bool.and_eq_true, Bool.and_eq_true] at hwell
      exact hwell.1.1
    have hlast : e.1.getLast? = some '/' := by
      simpa [PyStr.endswith] using hends
    rw [hs, plainUrl] at hlast
    simp only [List.getLast?_append, List.getLast?_cons] at hlast
    right
    cases hpath : path.getLast? with
    | none => exact absurd (List.getLast?_eq_none_iff.mp hpath) hnil
    | some c => simpa [hpath] using hlast

/-- What is found for a URL is no longer than what is read behind the longest source. -/
theorem mapped_url (hload : loadMapping netlocOk pathMapping = some m)
    (hentries : ∀ e ∈ pathMapping.entries, ∃ profile destPath, MappingEntry e profile destPath)
    (he : LongestSource pathMapping u e) (hentry : MappingEntry e profile destPath)
    (hplain : PlainUrl scheme netloc path) (hfile : scheme ≠ "file".toList)
    (hs : e.1 = plainUrl scheme netloc path) (hu : u = plainUrl scheme netloc (path ++ rest)) :
    findMapping netlocOk m u = some (some (profile, destPath ++ rest)) ↔
      destPath = [] ∧ rest.head? ≠ some '/' ∧ KeptPath scheme rest := by
  have hpath := hentry.path_slash hs
  have hloads := hload
  obtain ⟨m', hm', -⟩ := prefixes_loadMapping hloads
  obtain ⟨source, profile', hsource⟩ := exists_source hm' he.mem hentry.wellFormed
  have hsplit : splitUrl netlocOk (plainUrl scheme netloc path) = some source := hs ▸ hsource.source
  obtain rfl : source = ⟨scheme, netloc, path⟩ := splitUrl_plain hplain hfile hsplit
  have hlocation := splitUrl_append hplain hfile hpath hsplit rest
  rw [← hu] at hlocation
  obtain ⟨r, hr, hfinds, hplainFinds⟩ := find_mapping_spec netlocOk hload hlocation
  rw [hr]
  constructor
  · intro heq
    obtain rfl := Option.some.inj heq
    rcases hfinds with ⟨e₁, he₁, source₁, profile₁, hs₁, hcov₁, hmax, hfound⟩ | ⟨-, hnone⟩
    · have hcovers : Covers ⟨scheme, netloc, path⟩
          ⟨scheme, netloc, path ++ readPath scheme rest⟩ :=
        ⟨rfl, rfl, List.prefix_append _ _⟩
      have hlonger := hmax e he.mem _ profile' hsource hcovers
      dsimp only at hlonger
      have hrest := (Prod.mk.inj (Option.some.inj hfound)).2
      rw [relPath, if_neg hfile] at hrest
      dsimp only at hrest
      -- nothing of the rest is lost on the way, so that every part keeps all of it
      have hread := (readPath_sublist scheme rest).length_le
      have hdrop := length_dropSlash_le
        ((path ++ readPath scheme rest).drop source₁.path.length)
      have hprefix := hcov₁.2.2.length_le
      dsimp only at hprefix
      have hlen := congrArg List.length hrest
      rw [List.length_append] at hlen
      rw [List.length_drop, List.length_append] at hdrop
      rw [List.length_append] at hprefix
      have hdest : destPath = [] := List.length_eq_zero_iff.mp (by omega)
      have hwhole : readPath scheme rest = rest :=
        (readPath_sublist scheme rest).eq_of_length_le (by omega)
      have hsame : source₁.path.length = path.length := by
        rw [hwhole] at hprefix
        by_contra hne
        omega
      refine ⟨hdest, fun hslash => ?_, readPath_eq_iff.mp hwhole⟩
      rw [hwhole, hsame, List.drop_left, hdest, List.nil_append, dropSlash,
        if_pos ((PyStr.startswith_slash_iff rest).mpr hslash)] at hrest
      have hshort := congrArg List.length hrest
      rw [List.length_drop] at hshort
      cases rest with
      | nil => cases hslash
      | cons c rest => simp at hshort
    · cases hnone
  · rintro ⟨rfl, hslash, hkept⟩
    have hlast : lastSegment (path ++ rest) = lastSegment rest := by
      rcases hpath with rfl | hlast
      · rfl
      · obtain ⟨base, rfl⟩ := List.getLast?_eq_some_iff.mp hlast
        rw [List.append_assoc]
        exact lastSegment_slash base rest
    have hwhole : PlainUrl scheme netloc (path ++ rest) :=
      { hplain.toPlainNetloc with
        pathChars := fun c hc => (List.mem_append.mp hc).elim (hplain.pathChars c) (hkept.chars c)
        params := fun hmem => hlast ▸ hkept.params hmem }
    have hlongest := (hplainFinds (fun e he => (hentries e he).imp fun _ h => h.choose_spec.plain)
      (.inr ⟨scheme, netloc, _, hwhole, hfile, hu⟩)).eq he hentry.plain
    have hhead : ¬u.startswith ['/'] = true := by
      rw [PyStr.startswith_slash_iff, hu]
      exact head_plainUrl_ne hplain.toPlainNetloc _
    have happend : u = e.1 ++ rest := by
      rw [hu, hs]
      simp [plainUrl]
    rw [hlongest, if_neg hhead, happend, List.drop_left, dropSlash_of_head hslash]
    rfl

/-- What a URL is taken apart into: a path, or a name, a bucket and a path. -/
theorem splitUrl_shape (h : splitUrl netlocOk u = some location) :
    location.protocol = "file".toList ∧ location.bucket = [] ∨
      location.protocol ≠ "file".toList ∧ (':' ∉ location.protocol ∧ '/' ∉ location.protocol) ∧
        '/' ∉ location.bucket := by
  simp only [splitUrl, Option.bind_eq_bind, Option.bind_eq_some_iff] at h
  obtain ⟨pr, hpr, h⟩ := h
  obtain ⟨⟨hcolon, hslash⟩, hnetloc⟩ := urlparse_chars hpr
  by_cases hfile : (if pr.scheme ≠ [] then pr.scheme.map Char.toLower else "file".toList) =
      "file".toList
  -- a `file` URL, or none with a scheme
  · rw [if_pos (.inl hfile)] at h
    obtain rfl := Option.some.inj h
    exact .inl ⟨hfile, rfl⟩
  -- any other scheme
  · have hne : pr.scheme ≠ [] := by
      intro hnil
      rw [hnil] at hfile
      exact hfile rfl
    have hstarts : ¬u.startswith ['/'] = true := by
      intro hstarts
      obtain ⟨t, rfl⟩ := List.isPrefixOf_iff_prefix.mp hstarts
      exact hne (scheme_of_absolute hpr)
    rw [if_neg (not_or.mpr ⟨hfile, hstarts⟩)] at h
    obtain rfl := Option.some.inj h
    rw [if_pos hne] at hfile
    refine .inr ⟨?_, ?_, hnetloc⟩
    · show (if pr.scheme ≠ [] then _ else _) ≠ _
      rw [if_pos hne]
      exact hfile
    · show _ ∉ (if pr.scheme ≠ [] then _ else _) ∧ _ ∉ (if pr.scheme ≠ [] then _ else _)
      rw [if_pos hne]
      exact ⟨not_mem_toLower (by decide) hcolon, not_mem_toLower (by decide) hslash⟩

/-- **A source covers a URL** if the URL, as it is read, starts with the source. -/
theorem covers_iff_text {s : PyStr} (hs : PlainSource s)
    (hsource : splitUrl netlocOk s = some source)
    (hlocation : splitUrl netlocOk u = some location) :
    Covers source location ↔ s.IsPrefix (locationText location) := by
  obtain ⟨protocol, bucket, path⟩ := location
  unfold Covers locationText
  have hshape := splitUrl_shape hlocation
  dsimp only at hshape ⊢
  rcases hs with ⟨c, t, rfl, hc, hsafe⟩ | ⟨scheme, netloc, path', hplain, hfile, rfl⟩
  · obtain rfl := splitUrl_absolute rfl hsource
    rcases hshape with ⟨rfl, rfl⟩ | ⟨hne, ⟨-, hslash⟩, -⟩
    · rw [if_pos rfl]
      split
      next => exact ⟨fun h => h.2.2, fun h => ⟨rfl, rfl, h⟩⟩
      next hstarts =>
        -- neither of the two starts with a slash
        refine iff_of_false (fun h => hstarts ?_) ?_
        · exact List.isPrefixOf_iff_prefix.mpr ((List.prefix_append ['/'] _).trans h.2.2)
        · rintro ⟨t', ht'⟩
          cases ht'
    · rw [if_neg hne]
      refine iff_of_false (fun h => hne h.1.symm) ?_
      rintro ⟨t', ht'⟩
      cases protocol with
      | nil => cases ht'
      | cons d protocol => exact hslash ((List.cons.inj ht').1 ▸ List.mem_cons_self)
  · obtain rfl := splitUrl_plain hplain hfile hsource
    obtain ⟨hcolon, hnetloc⟩ := not_mem_of_plain hplain.toPlainNetloc
    rcases hshape with ⟨rfl, rfl⟩ | ⟨hne, ⟨hcolon', -⟩, hbucket⟩
    · rw [if_pos rfl]
      refine iff_of_false (fun h => hfile h.1) ?_
      split
      next hstarts =>
        rintro ⟨t, rfl⟩
        have hhead := (PyStr.startswith_slash_iff _).mp hstarts
        rw [List.head?_append] at hhead
        cases hfirst : (plainUrl scheme netloc path').head? with
        | none => simp [plainUrl] at hfirst
        | some d =>
            rw [hfirst] at hhead
            exact head_plainUrl_ne hplain.toPlainNetloc path' (hfirst.trans hhead)
      next =>
        intro hprefix
        exact hfile ((append_cons_prefix_iff hcolon (by decide)).mp
          (show (scheme ++ ':' :: _).IsPrefix ("file".toList ++ ':' :: path) from hprefix)).1
    · rw [if_neg hne, plainUrl_isPrefix_iff hcolon hcolon' hnetloc hbucket]

/-- **`find_mapping` translates a URL** if and only if the URL is read as it is written. -/
theorem find_mapping_iff (netlocOk : PyStr → Bool)
    (hload : loadMapping netlocOk pathMapping = some m)
    (hentries : ∀ e ∈ pathMapping.entries, ∃ profile destPath, MappingEntry e profile destPath)
    (u : PyStr) :
    Translates netlocOk pathMapping m u ↔ ReadAsWritten netlocOk pathMapping u := by
  -- where an entry is the longest source, the answer is made of its destination and the rest
  have hmapped : ∀ e profile destPath, LongestSource pathMapping u e →
      MappingEntry e profile destPath →
      (findMapping netlocOk m u =
          some (some (profile, translated u destPath (u.drop e.1.length))) ↔
        destPath = [] ∧ (u.drop e.1.length).head? ≠ some '/' ∧
          (u.head? = some '/' ∨ KeptPath (u.takeWhile (· != ':')) (u.drop e.1.length))) := by
    intro e profile destPath he hentry
    obtain ⟨rest, hrest⟩ := he.isPrefix
    rcases hentry.source with ⟨c, t, hs, hc, hsafe⟩ | ⟨scheme, netloc, path, hplain, hfile, hs⟩
    -- an absolute path
    · have hu : u = '/' :: c :: (t ++ rest) := by rw [← hrest, hs]; rfl
      have hhead : u.head? = some '/' := by rw [hu]; rfl
      have hlocation : splitUrl netlocOk _ = _ := splitUrl_absolute_append hc hsafe (t ++ rest)
      rw [← hu] at hlocation
      rw [mapped_absolute hload hentries he hentry hhead hlocation]
      exact and_congr_right fun _ => (and_iff_left (.inl hhead)).symm
    -- a URL with a scheme
    · have hu : u = plainUrl scheme netloc (path ++ rest) := by
        rw [← hrest, hs]
        simp [plainUrl]
      have hhead : ¬u.head? = some '/' := hu ▸ head_plainUrl_ne hplain.toPlainNetloc _
      have hdrop : u.drop e.1.length = rest := by rw [← hrest, List.drop_left]
      rw [hdrop, or_iff_right hhead, hu, takeWhile_plainUrl hplain.toPlainNetloc, ← hu, translated,
        if_neg ((PyStr.startswith_slash_iff u).not.mpr hhead)]
      exact mapped_url hload hentries he hentry hplain hfile hs hu
  -- where no entry is a source, nothing is found, and nothing raised
  have hunmapped : (∀ e ∈ pathMapping.entries, ¬e.1.IsPrefix u) →
      (findMapping netlocOk m u = some none ↔ ∃ location, splitUrl netlocOk u = some location ∧
        ∀ e ∈ pathMapping.entries, ¬e.1.IsPrefix (locationText location)) := by
    intro _
    cases hlocation : splitUrl netlocOk u with
    -- a URL that is refused raises
    | none =>
        have hraises : findMapping netlocOk m u = none := by
          rw [findMapping, hlocation]
          rfl
        rw [hraises]
        constructor
        · intro hnone
          cases hnone
        · rintro ⟨location, hsome, -⟩
          cases hsome
    | some location =>
        obtain ⟨r, hr, hfinds, -⟩ := find_mapping_spec netlocOk hload hlocation
        obtain ⟨m', hm', -⟩ := prefixes_loadMapping hload
        rw [hr]
        constructor
        · intro hnone
          obtain rfl := Option.some.inj hnone
          refine ⟨location, rfl, fun e he hprefix => ?_⟩
          obtain ⟨profile, destPath, hentry⟩ := hentries e he
          obtain ⟨source, profile', hs⟩ := exists_source hm' he hentry.wellFormed
          have hcovers := (covers_iff_text hentry.source hs.source hlocation).mpr hprefix
          rcases hfinds with ⟨_, _, _, _, _, _, _, hfound⟩ | ⟨hnot, -⟩
          · cases hfound
          · exact hnot e he source profile' hs hcovers
        · rintro ⟨location', hlocation', hnot⟩
          obtain rfl := Option.some.inj hlocation'
          rcases hfinds with ⟨e, he, source, profile', hs, hcov, -, -⟩ | ⟨-, rfl⟩
          · obtain ⟨profile, destPath, hentry⟩ := hentries e he
            exact absurd ((covers_iff_text hentry.source hs.source hlocation).mp hcov) (hnot e he)
          · rfl
  constructor
  · intro h
    exact ⟨fun e profile destPath he hentry =>
        (hmapped e profile destPath he hentry).mp (h.mapped e profile destPath he hentry),
      fun hnot => (hunmapped hnot).mp (h.unmapped hnot)⟩
  · intro h
    exact ⟨fun e profile destPath he hentry =>
        (hmapped e profile destPath he hentry).mpr (h.mapped e profile destPath he hentry),
      fun hnot => (hunmapped hnot).mpr (h.unmapped hnot)⟩

/-- A directory of a bucket. -/
def oneSource : PyDict PyStr PyStr := .ofList [("s3://b/data/".toList, "msc://bucket/".toList)]

/-- The entry of the sample. -/
theorem mappingEntry_oneSource :
    MappingEntry ("s3://b/data/".toList, "msc://bucket/".toList) "bucket".toList [] where
  wellFormed := by decide
  source := .inr ⟨"s3".toList, "b".toList, "data/".toList,
    { alpha := by decide
      schemeChars := by decide
      lower := by decide
      netlocChars := by simp [isDelim, isUnsafe]
      pathChars := by simp [isUnsafe]
      params := by decide }, by decide, by decide⟩
  netloc :=
    { alpha := by decide
      schemeChars := by decide
      lower := by decide
      netlocChars := by simp [isDelim, isUnsafe] }
  dest := by decide

/-- The only source is the longest one. -/
theorem longestSource_oneSource (h : "s3://b/data/".toList.IsPrefix u) :
    LongestSource oneSource u ("s3://b/data/".toList, "msc://bucket/".toList) := by
  refine ⟨List.mem_singleton_self _, h, fun e' he' _ => ?_⟩
  rw [List.mem_singleton.mp he']

/-- An object name without reserved characters. -/
theorem oneSource_translated : ∃ m, loadMapping (fun _ => true) oneSource = some m ∧
    Translates (fun _ => true) oneSource m "s3://b/data/x".toList := by
  have hsome : (loadMapping (fun _ => true) oneSource).isSome = true := by decide
  obtain ⟨m, hm⟩ := Option.isSome_iff_exists.mp hsome
  refine ⟨m, hm, (find_mapping_iff (fun _ => true) hm (fun e he => ?_) _).mpr ⟨?_, ?_⟩⟩
  · rw [List.mem_singleton.mp he]
    exact ⟨_, _, mappingEntry_oneSource⟩
  · intro e profile destPath he hentry
    obtain rfl := List.mem_singleton.mp he.mem
    have hsame : (plainUrl "msc".toList profile destPath).IsPrefix
        (plainUrl "msc".toList "bucket".toList []) := by
      rw [← hentry.dest]
      exact List.prefix_rfl
    have hdest := ((plainUrl_prefix_iff hentry.netloc mappingEntry_oneSource.netloc).mp hsame).2.2
    have hrest : ("s3://b/data/x".toList.drop "s3://b/data/".toList.length : PyStr) = ['x'] := by
      decide
    rw [hrest]
    exact ⟨List.prefix_nil.mp hdest, by decide, .inr ⟨by simp [isUnsafe], fun _ => by decide⟩⟩
  · exact fun hnot => absurd (by decide) (hnot _ (List.mem_singleton_self _))

/-- A `?` and what is behind it are lost. -/
theorem oneSource_cut_off : ∃ m, loadMapping (fun _ => true) oneSource = some m ∧
    findMapping (fun _ => true) m "s3://b/data/what?.txt".toList =
      some (some ("bucket".toList, "what".toList)) ∧
    ¬Translates (fun _ => true) oneSource m "s3://b/data/what?.txt".toList := by
  have hfound : ((loadMapping (fun _ => true) oneSource).bind fun m =>
      findMapping (fun _ => true) m "s3://b/data/what?.txt".toList) =
        some (some ("bucket".toList, "what".toList)) := by decide
  obtain ⟨m, hm, hfind⟩ := Option.bind_eq_some_iff.mp hfound
  refine ⟨m, hm, hfind, fun h => ?_⟩
  have hwhole := h.mapped _ _ _ (longestSource_oneSource (by decide)) mappingEntry_oneSource
  rw [hfind] at hwhole
  exact absurd hwhole (by decide)

end Translate

end PathMapping

end MultiStorageClient
