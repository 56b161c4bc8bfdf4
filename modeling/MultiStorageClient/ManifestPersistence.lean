/-
MultiStorageClient/ManifestPersistence.lean

What a provider constructed on the storage of another one sees.

`load_written` follows a manifest through the metadata conversion, the JSON
lines, the part, the index and the choice of the newest folder: the loaded
map is the committed one, entry by entry, less the storage classes.  Two
results use it: a run of calls whose commits never empty the map is loaded
back exactly, and a commit whose write fails has lost its changes unless the
storage showed them before.
-/
import MultiStorageClient.PosixPath
import MultiStorageClient.ManifestStore

namespace PyStr

theorem join_of_getLast? {a b : PyStr} (ha : a ≠ []) (hl : a.getLast? ≠ some '/')
    (hb : b.head? ≠ some '/') : join a b = a ++ '/' :: b := by
  have hsep : sep a = ['/'] := by
    rw [sep, if_neg]
    rintro (h | h)
    · exact ha h
    · exact hl (by simpa [endswith] using h)
  rw [join_eq_append a hb, hsep, List.append_assoc, List.singleton_append]

/-- The extension belongs to the base name. -/
theorem extension_append {a r : PyStr} (hr : '/' ∉ r) :
    extension (a ++ '/' :: r) = extension r := by
  have h₁ : basename (a ++ '/' :: r) = r := by
    have : basename ((a ++ ['/']) ++ r) = r := basename_append (.inr (by simp)) hr
    rwa [List.append_assoc, List.singleton_append] at this
  have h₂ : basename r = r := by
    have : basename ([] ++ r) = r := basename_append (.inl rfl) hr
    rwa [List.nil_append] at this
  rw [extension, extension, h₁, h₂]

end PyStr

namespace MultiStorageClient

/-! ### The paths of a manifest -/

/-- A folder name: no slash, not empty, not hidden. -/
structure SegmentName (s : PyStr) : Prop where
  ne_nil : s ≠ []
  no_slash : '/' ∉ s
  head_ne : s.head? ≠ some '.'

theorem SegmentName.head?_ne {s : PyStr} (h : SegmentName s) : s.head? ≠ some '/' :=
  fun he => h.no_slash (List.mem_of_mem_head? he)

/-- A time names a segment. -/
theorem segmentName_isoformat (t : UtcDatetime) : SegmentName t.isoformat := by
  have hslash : ∀ w n, '/' ∉ digits w n := fun w n h => absurd (isDigit_of_mem_digits h) (by decide)
  obtain ⟨c, r, hc⟩ : ∃ c r, digits 4 t.year = c :: r :=
    List.exists_cons_of_length_eq_add_one (length_digits 4 t.year)
  have hdigit : c.isDigit = true := isDigit_of_mem_digits (w := 4) (n := t.year) (by rw [hc]; simp)
  refine ⟨by simp [UtcDatetime.isoformat], ?_, ?_⟩
  · simp [UtcDatetime.isoformat, hslash]
  · rw [UtcDatetime.isoformat, hc]
    rintro h
    rw [Option.some.inj h] at hdigit
    exact absurd hdigit (by decide)

theorem getLast?_isoformat (t : UtcDatetime) : t.isoformat.getLast? = some '0' := by
  simp [UtcDatetime.isoformat, List.getLast?_append, List.getLast?_cons]

theorem manifestsDir_eq (path : PyStr) :
    manifestsDir path = manifestBasePath path ++ PyStr.sep
      (manifestBasePath path) ++ manifestBaseDir :=
  PyStr.join_eq_append _ (by decide)

theorem manifestsDir_ne_nil (path : PyStr) : manifestsDir path ≠ [] := by
  rw [manifestsDir_eq]
  exact List.append_ne_nil_of_right_ne_nil _ (by decide)

theorem getLast?_manifestsDir (path : PyStr) : (manifestsDir path).getLast? ≠ some '/' := by
  have hlast : manifestBaseDir.getLast? = some 's' := by decide
  rw [manifestsDir_eq, List.getLast?_append, hlast, Option.some_or]
  decide

theorem manifestFolder_eq (path : PyStr) (t : UtcDatetime) :
    manifestFolder path t = manifestsDir path ++ '/' :: t.isoformat :=
  PyStr.join_of_getLast? (manifestsDir_ne_nil path) (getLast?_manifestsDir path)
    (segmentName_isoformat t).head?_ne

theorem manifestFolder_ne_nil (path : PyStr) (t : UtcDatetime) : manifestFolder path t ≠ [] := by
  rw [manifestFolder_eq]
  simp

theorem getLast?_manifestFolder (path : PyStr) (t : UtcDatetime) :
    (manifestFolder path t).getLast? ≠ some '/' := by
  rw [manifestFolder_eq, List.getLast?_append, List.getLast?_cons, getLast?_isoformat]
  simp

theorem manifestIndexPath_eq (path : PyStr) (t : UtcDatetime) :
    manifestIndexPath path t =
      manifestsDir path ++ '/' :: (t.isoformat ++ '/' :: manifestIndexFilename) := by
  rw [manifestIndexPath, PyStr.join_of_getLast? (manifestFolder_ne_nil path t)
    (getLast?_manifestFolder path t) (by decide), manifestFolder_eq, List.append_assoc,
    List.cons_append]

theorem head?_manifestPartFile (format : ManifestFormat) :
    (manifestPartFile format).head? ≠ some '/' := by
  cases format <;> decide

theorem manifestPartPath_eq (path : PyStr) (format : ManifestFormat) (t : UtcDatetime) :
    manifestPartPath path format t =
      manifestsDir path ++ '/' :: (t.isoformat ++ '/' :: manifestPartFile format) := by
  rw [manifestPartPath, PyStr.join_of_getLast? (manifestFolder_ne_nil path t)
    (getLast?_manifestFolder path t) (head?_manifestPartFile format), manifestFolder_eq,
    List.append_assoc, List.cons_append]

theorem manifestIndexPath_ne_partPath (path : PyStr) (format : ManifestFormat) (t : UtcDatetime) :
    manifestIndexPath path t ≠ manifestPartPath path format t := by
  rw [manifestIndexPath_eq, manifestPartPath_eq]
  intro h
  have h' := List.append_cancel_left (List.cons.inj (List.append_cancel_left h)).2
  cases format <;> exact absurd h' (by decide)

/-- Of two manifests of one path, the later one has the greater index. -/
theorem manifestIndexPath_lt {path : PyStr} {t t' : UtcDatetime}
    (h : t.micros + 1000000 ≤ t'.micros) :
    manifestIndexPath path t < manifestIndexPath path t' := by
  rw [manifestIndexPath_eq, manifestIndexPath_eq, PyStr.append_lt_append_iff]
  refine (List.cons_lt_cons_iff).mpr (.inr ⟨rfl, ?_⟩)
  exact PyStr.append_lt_append_of_lt (UtcDatetime.isoformat_lt h)
    (by simp [UtcDatetime.isoformat]) _ _

/-! ### The newest manifest -/

/-- A text without a meaning of its own in a glob pattern. -/
def Literal (s : PyStr) : Prop :=
  (∀ c ∈ s, c ∉ ['*', '?', '[', ']', '\\']) ∧ ¬ ['/', '/'] <:+: s

/-- `globmatch` on a pattern with one `*`: the star stands for one folder
name. -/
def ManifestLibs.GlobsSegments (L : ManifestLibs) : Prop :=
  ∀ a b key : PyStr, Literal a → Literal b → key.getLast? ≠ some '/' →
    (L.globmatch key (a ++ '/' :: '*' :: '/' :: b) = true ↔
      ∃ s, SegmentName s ∧ key = a ++ '/' :: (s ++ '/' :: b))

/-- The manifest path names a folder: the loader looks for manifests where
they are written, and nothing in the path is read as a pattern. -/
structure FolderPath (path : PyStr) : Prop where
  search : PyStr.join (manifestSearchDir path) ['*'] = manifestsDir path ++ ['/', '*']
  literal : Literal (manifestsDir path)

/-- Neither the path nor an index right below it is an object. -/
def NoDirectManifest (st : ManifestStorage) (path : PyStr) : Prop :=
  st.contains path = false ∧ st.contains (PyStr.join path manifestIndexFilename) = false

variable {L : ManifestLibs} {st : ManifestStorage} {path : PyStr}

theorem manifestCandidates_eq (hpath : FolderPath path) :
    manifestCandidates L st path =
      st.glob L (manifestsDir path ++ '/' :: '*' :: '/' :: manifestIndexFilename) := by
  have hjoin : PyStr.join (manifestsDir path ++ ['/', '*']) manifestIndexFilename =
      manifestsDir path ++ '/' :: '*' :: '/' :: manifestIndexFilename := by
    rw [PyStr.join_of_getLast? (by simp) (by simp) (by decide), List.append_assoc]
    rfl
  rw [manifestCandidates, hpath.search, hjoin]

theorem mem_glob {pattern k : PyStr} :
    k ∈ st.glob L pattern ↔ st.contains k = true ∧ L.globmatch k pattern = true := by
  rw [ManifestStorage.glob, List.mem_filter, PyDict.contains_iff_mem]

theorem literal_manifestIndexFilename : Literal manifestIndexFilename := by
  refine ⟨PyStr.forall_mem_of_all (by decide), ?_⟩
  intro h
  have : '/' ∈ manifestIndexFilename := h.subset (by simp)
  exact absurd this (by decide)

theorem getLast?_append_slash {a r : PyStr} (hr : r ≠ []) (hl : r.getLast? ≠ some '/') :
    (a ++ '/' :: r).getLast? ≠ some '/' := by
  obtain ⟨c, s, rfl⟩ := List.exists_cons_of_ne_nil hr
  rw [List.getLast?_append, List.getLast?_cons_cons]
  cases hg : (c :: s).getLast? with
  | none => simp at hg
  | some d =>
      rw [hg] at hl
      rwa [Option.some_or]

theorem getLast?_manifestIndexPath (t : UtcDatetime) :
    (manifestIndexPath path t).getLast? ≠ some '/' := by
  rw [manifestIndexPath, PyStr.join_of_getLast? (manifestFolder_ne_nil path t)
    (getLast?_manifestFolder path t) (by decide)]
  exact getLast?_append_slash (by decide) (by decide)

theorem getLast?_manifestPartPath (format : ManifestFormat) (t : UtcDatetime) :
    (manifestPartPath path format t).getLast? ≠ some '/' := by
  rw [manifestPartPath, PyStr.join_of_getLast? (manifestFolder_ne_nil path t)
    (getLast?_manifestFolder path t) (head?_manifestPartFile format)]
  cases format <;> exact getLast?_append_slash (by decide) (by decide)

/-- The part file is not taken for an index. -/
theorem not_globmatch_partPath (hL : L.GlobsSegments) (hpath : FolderPath path)
    (format : ManifestFormat) (t : UtcDatetime) :
    ¬ L.globmatch (manifestPartPath path format t)
      (manifestsDir path ++ '/' :: '*' :: '/' :: manifestIndexFilename) = true := by
  rw [hL _ _ _ hpath.literal literal_manifestIndexFilename (getLast?_manifestPartPath format t),
    manifestPartPath_eq]
  rintro ⟨s, hs, h⟩
  have h' := (List.cons.inj (List.append_cancel_left h)).2
  -- both texts end in a base name, and the base names differ
  have hbase := congrArg PyStr.basename h'
  have hindex : PyStr.basename (s ++ '/' :: manifestIndexFilename) = manifestIndexFilename := by
    have : PyStr.basename ((s ++ ['/']) ++ manifestIndexFilename) = manifestIndexFilename :=
      PyStr.basename_append (.inr (by simp)) (by decide)
    rwa [List.append_assoc, List.singleton_append] at this
  have hpart : ∃ f, '/' ∉ f ∧ f ≠ manifestIndexFilename ∧
      manifestPartFile format = "parts".toList ++ '/' :: f := by
    cases format
    · exact ⟨"msc_manifest_part000001.jsonl".toList, by decide, by decide, by decide⟩
    · exact ⟨"msc_manifest_part000001.parquet".toList, by decide, by decide, by decide⟩
  obtain ⟨f, hf, hne, heq⟩ := hpart
  have hfbase : PyStr.basename (t.isoformat ++ '/' :: manifestPartFile format) = f := by
    have : PyStr.basename ((t.isoformat ++ '/' :: ("parts".toList ++ ['/'])) ++ f) = f :=
      PyStr.basename_append (.inr (by simp)) hf
    rw [heq]
    simpa using this
  rw [hfbase, hindex] at hbase
  exact hne hbase

theorem globmatch_indexPath (hL : L.GlobsSegments) (hpath : FolderPath path) (t : UtcDatetime) :
    L.globmatch (manifestIndexPath path t)
      (manifestsDir path ++ '/' :: '*' :: '/' :: manifestIndexFilename) = true := by
  rw [hL _ _ _ hpath.literal literal_manifestIndexFilename (getLast?_manifestIndexPath t)]
  exact ⟨t.isoformat, segmentName_isoformat t, manifestIndexPath_eq path t⟩

/-- The last of a sorted list is its greatest element. -/
theorem getLast?_mergeSort_eq {l : List PyStr} {m : PyStr} (hm : m ∈ l) (h : ∀ x ∈ l, x ≤ m) :
    (l.mergeSort (· ≤ ·)).getLast? = some m := by
  have hsorted : (l.mergeSort (· ≤ ·)).Pairwise (· ≤ ·) := by
    have : (l.mergeSort (· ≤ ·)).Pairwise fun a b => decide (a ≤ b) = true :=
      List.pairwise_mergeSort
        (fun a b c hab hbc => by simpa using le_trans (by simpa using hab) (by simpa using hbc))
        (fun a b => by simpa using le_total a b) l
    exact this.imp (by simp)
  obtain ⟨s, z, hs⟩ : ∃ s z, l.mergeSort (· ≤ ·) = s ++ [z] := by
    rcases List.eq_nil_or_concat (l.mergeSort (· ≤ ·)) with hnil | ⟨s, z, hs⟩
    · have hm' : m ∈ l.mergeSort (· ≤ ·) := List.mem_mergeSort.mpr hm
      rw [hnil] at hm'
      cases hm'
    · exact ⟨s, z, by simpa using hs⟩
  have hz : z ∈ l := by
    have hz' : z ∈ l.mergeSort (· ≤ ·) := by
      rw [hs]
      simp
    exact List.mem_mergeSort.mp hz'
  have hmz : m ≤ z := by
    have hm' : m ∈ s ++ [z] := by
      rw [← hs]
      exact List.mem_mergeSort.mpr hm
    rw [hs] at hsorted
    rcases List.mem_append.mp hm' with hm' | hm'
    · exact (List.pairwise_append.mp hsorted).2.2 m hm' z (by simp)
    · exact (List.mem_singleton.mp hm').le
  rw [hs, List.getLast?_concat, le_antisymm (h z hz) hmz]

/-- What is written below the folder of all manifests lies below the manifest
path. -/
theorem exists_manifestsDir_eq (hpath : FolderPath path) :
    ∃ r, manifestsDir path ++ ['/'] = path ++ PyStr.sep path ++ r := by
  by_cases hdir : manifestBaseDir ∈ path.splitOn '/'
  · have h := hpath.search
    rw [manifestSearchDir, if_pos hdir, PyStr.join_eq_append path (by decide)] at h
    refine ⟨[], ?_⟩
    have h' : (path ++ PyStr.sep path) ++ ['*'] = (manifestsDir path ++ ['/']) ++ ['*'] := by
      rw [h, List.append_assoc]
      rfl
    rw [List.append_nil]
    exact (List.append_cancel_right h').symm
  · have hbase : manifestBasePath path = path := by
      rw [manifestBasePath, if_neg hdir]
    exact ⟨manifestBaseDir ++ ['/'], by rw [manifestsDir_eq, hbase, List.append_assoc]⟩

/-- What lies below the manifests is neither the manifest nor its index. -/
theorem ne_of_below (hpath : FolderPath path) {k f : PyStr} (t : UtcDatetime)
    (hk : k = manifestsDir path ++ '/' :: (t.isoformat ++ '/' :: f)) :
    k ≠ path ∧ k ≠ PyStr.join path manifestIndexFilename := by
  obtain ⟨r, hr⟩ := exists_manifestsDir_eq hpath
  have hk' : k = path ++ PyStr.sep path ++ (r ++ (t.isoformat ++ '/' :: f)) := by
    rw [hk, ← List.append_assoc _ r, ← hr, List.append_assoc]
    rfl
  constructor
  · intro h
    rw [hk'] at h
    have hlen := congrArg List.length h
    simp only [List.length_append, List.length_cons] at hlen
    omega
  · intro h
    rw [hk', PyStr.join_eq_append path (by decide)] at h
    have h' := List.append_cancel_left h
    have hslash : '/' ∈ manifestIndexFilename := by
      rw [← h']
      simp
    exact absurd hslash (by decide)

/-- The storage after both writes of a commit. -/
def writtenStorage (L : ManifestLibs) (path : PyStr) (format : ManifestFormat) (now : UtcDatetime)
    (ms : List ManifestObjectMetadata) (st : ManifestStorage) : ManifestStorage :=
  (st.set (manifestPartPath path format now) (format.writePart L ms)).set
    (manifestIndexPath path now) (manifestJson L format)

/-- A written manifest is none at the path itself. -/
theorem noDirectManifest_written (hpath : FolderPath path) (h : NoDirectManifest st path)
    (format : ManifestFormat) (now : UtcDatetime) (ms : List ManifestObjectMetadata) :
    NoDirectManifest (writtenStorage L path format now ms st) path := by
  have hi := ne_of_below hpath now (manifestIndexPath_eq path now)
  have hp := ne_of_below hpath now (manifestPartPath_eq path format now)
  constructor
  · rw [← Bool.not_eq_true, writtenStorage, PyDict.contains_set, PyDict.contains_set, h.1]
    simp [hi.1.symm, hp.1.symm]
  · rw [← Bool.not_eq_true, writtenStorage, PyDict.contains_set, PyDict.contains_set, h.2]
    simp [hi.2.symm, hp.2.symm]

/-- A written index is one more candidate. -/
theorem mem_manifestCandidates_written (hL : L.GlobsSegments) (hpath : FolderPath path)
    (format : ManifestFormat) (now : UtcDatetime) (ms : List ManifestObjectMetadata) {k : PyStr} :
    k ∈ manifestCandidates L (writtenStorage L path format now ms st) path ↔
      k = manifestIndexPath path now ∨ k ∈ manifestCandidates L st path := by
  rw [manifestCandidates_eq hpath, manifestCandidates_eq hpath, mem_glob, mem_glob,
    writtenStorage, PyDict.contains_set, PyDict.contains_set]
  constructor
  · rintro ⟨rfl | rfl | hk, hg⟩
    · exact .inl rfl
    · exact absurd hg (not_globmatch_partPath hL hpath format now)
    · exact .inr ⟨hk, hg⟩
  · rintro (rfl | ⟨hk, hg⟩)
    · exact ⟨.inl rfl, globmatch_indexPath hL hpath now⟩
    · exact ⟨.inr (.inr hk), hg⟩

/-- After a commit that is later than all manifests in storage, the loader
finds its index. -/
theorem findManifestFile_written (hL : L.GlobsSegments) (hpath : FolderPath path)
    (hdirect : NoDirectManifest st path) (format : ManifestFormat) {now : UtcDatetime}
    (hnew : ∀ k ∈ manifestCandidates L st path, k < manifestIndexPath path now)
    (ms : List ManifestObjectMetadata) :
    findManifestFile L (writtenStorage L path format now ms st) path =
      manifestIndexPath path now := by
  have hd := noDirectManifest_written (L := L) hpath hdirect format now ms
  have hlast := getLast?_mergeSort_eq
    (l := manifestCandidates L (writtenStorage L path format now ms st) path)
    (m := manifestIndexPath path now)
    ((mem_manifestCandidates_written hL hpath format now ms).mpr (.inl rfl)) (by
      intro k hk
      rcases (mem_manifestCandidates_written hL hpath format now ms).mp hk with rfl | hk
      · exact le_rfl
      · exact (hnew k hk).le)
  rw [findManifestFile, hd.1, hd.2, hlast]
  rfl

/-! ### The written manifest loads -/

theorem ok_bind {ε α β : Type} (a : α) (f : α → Except ε β) : (Except.ok a >>= f) = f a := rfl

/-- What a committed entry becomes by being written and loaded: it loses its
storage class. -/
def ManifestObjectMetadata.reloaded (m : ManifestObjectMetadata) : ManifestObjectMetadata :=
  { m with storageClass := none }

/-- The index that is written is read back. -/
theorem manifestFromDict_manifestJson :
    (Json.loads L.number (manifestJson L .jsonl)).map manifestFromDict =
      some (.ok ([manifestPartFile .jsonl], "jsonl".toList)) := by
  have hloads := Json.loads_dumps L.number (w := [])
    (j := .obj [("version".toList, .str "1".toList),
      ("parts".toList, .arr [.obj [("path".toList, .str (manifestPartFile .jsonl))]]),
      ("format".toList, .str ManifestFormat.jsonl.value)])
    (by simp [Json.WF, Json.WFPairs, Json.WFItems]) (by simp)
  rw [List.append_nil] at hloads
  rw [manifestJson, hloads]
  rfl

/-- The part has the extension of its format. -/
theorem extension_manifestPartPath (t : UtcDatetime) :
    PyStr.extension (manifestPartPath path .jsonl t) = ".jsonl".toList := by
  have hfile : manifestPartFile .jsonl =
      "parts".toList ++ '/' :: "msc_manifest_part000001.jsonl".toList := by decide
  have heq : manifestPartPath path .jsonl t =
      (manifestFolder path t ++ '/' :: "parts".toList) ++ '/' ::
        "msc_manifest_part000001.jsonl".toList := by
    rw [manifestPartPath, PyStr.join_of_getLast? (manifestFolder_ne_nil path t)
      (getLast?_manifestFolder path t) (head?_manifestPartFile .jsonl), hfile, List.append_assoc,
      List.cons_append]
  rw [heq, PyStr.extension_append (by decide)]
  decide

theorem manifestIndexPath_split (t : UtcDatetime) :
    manifestIndexPath path t = manifestFolder path t ++ '/' :: manifestIndexFilename :=
  PyStr.join_of_getLast? (manifestFolder_ne_nil path t) (getLast?_manifestFolder path t) (by decide)

/-- The part of a written manifest. -/
theorem loadManifestPartFile_written (hL : L.ReadsTimes) {now : UtcDatetime}
    {ms : List ManifestObjectMetadata} (hms : ∀ m ∈ ms, m.Readable) :
    loadManifestPartFile L (writtenStorage L path .jsonl now ms st) (manifestFolder path now)
      "jsonl".toList (manifestPartFile .jsonl) = .ok (ms.map (·.reloaded)) := by
  have hremote : partRemotePath (manifestFolder path now) (manifestPartFile .jsonl) =
      manifestPartPath path .jsonl now := by
    rw [partRemotePath, if_neg (head?_manifestPartFile .jsonl)]
    rfl
  have hget :
      (writtenStorage L path .jsonl now ms st).getObject (manifestPartPath path .jsonl now) =
      .ok (writePartJsonl L ms) := by
    rw [ManifestStorage.getObject, writtenStorage, PyDict.get?_set,
      if_neg (manifestIndexPath_ne_partPath path .jsonl now).symm, PyDict.get?_set_self]
    rfl
  have hread : ManifestFormat.jsonl.readPart L (writePartJsonl L ms) =
      .ok (ms.map fun m => (m.toObjectMetadata, some m.physicalPath)) :=
    readPartJsonl_writePartJsonl hL hms
  have hhandler : getFormatHandler (if PyStr.extension (manifestPartPath path .jsonl now) = [] then
      "jsonl".toList else (PyStr.extension (manifestPartPath path .jsonl now)).drop 1) =
      .ok .jsonl := by
    rw [extension_manifestPartPath]
    decide
  rw [loadManifestPartFile, hremote, hget, ok_bind]
  simp only [hhandler, ok_bind, hread, List.map_map]
  rfl

/-- **A written manifest loads**: the map of its entries under their keys. -/
theorem load_written (hT : L.ReadsTimes) (hG : L.GlobsSegments) (hpath : FolderPath path)
    (hdirect : NoDirectManifest st path) {now : UtcDatetime}
    (hnew : ∀ k ∈ manifestCandidates L st path, k < manifestIndexPath path now)
    {ms : List ManifestObjectMetadata} (hms : ∀ m ∈ ms, m.Readable) :
    loadManifest L (writtenStorage L path .jsonl now ms st) path =
      .ok (PyDict.ofList (ms.map fun m => (m.key, m.reloaded))) := by
  have hfind := findManifestFile_written hG hpath hdirect .jsonl hnew ms
  have hne : manifestIndexPath path now ≠ [] := by
    rw [manifestIndexPath_split]
    simp
  have hget : (writtenStorage L path .jsonl now ms st).getObject (manifestIndexPath path now) =
      .ok (manifestJson L .jsonl) := by
    rw [ManifestStorage.getObject, writtenStorage, PyDict.get?_set_self]
  have hdir : PyStr.dirname (manifestIndexPath path now) = manifestFolder path now := by
    rw [manifestIndexPath_split]
    exact PyStr.dirname_append (manifestFolder_ne_nil path now) (getLast?_manifestFolder path now)
      (by decide)
  have hext : (PyStr.extension (manifestIndexPath path now)).drop 1 = "json".toList := by
    rw [manifestIndexPath_split, PyStr.extension_append (by decide)]
    decide
  have hjson := manifestFromDict_manifestJson (L := L)
  obtain ⟨j, hj, hdict⟩ := Option.map_eq_some_iff.mp hjson
  rw [loadManifest, hfind]
  simp only [hne, if_false, hget, ok_bind, hdir, hext, loadManifestFile, if_true, hj, hdict,
    List.mapM_cons, List.mapM_nil, loadManifestPartFile_written hT hms]
  show Except.ok (PyDict.ofList _) = _
  simp only [List.flatten_cons, List.flatten_nil, List.append_nil, List.map_map]
  rfl

/-- The map that is loaded for a committed map. -/
theorem get?_reloaded (p : ManifestMetadataProvider) (k : PyStr) :
    (PyDict.ofList (p.files.values.map fun m => (m.key, m.reloaded))).get? k =
      (p.files.get? k).map (·.reloaded) := by
  have hkeys : p.files.values.map (fun m => (m.key, m.reloaded)) =
      p.files.entries.map fun e => (e.1, e.2.reloaded) := by
    rw [PyDict.values, List.map_map]
    refine List.map_congr_left fun e he => ?_
    have hk := p.key_of_files e.1 e.2 (PyDict.get?_eq_some_iff.mpr he)
    simp [hk]
  have hfst : (p.files.entries.map fun e => (e.1, e.2.reloaded)).map Prod.fst =
      p.files.entries.map Prod.fst := by
    rw [List.map_map]
    rfl
  rw [hkeys, PyDict.get?_ofList (by rw [hfst]; exact p.files.nodup), PyDict.get?]
  induction p.files.entries with
  | nil => rfl
  | cons e es ih =>
      by_cases h : e.1 = k
      · simp [PyDict.find, h]
      · simp [PyDict.find, h, ih]

/-! ### Runs of calls -/

/-- An entry that is loaded as it was committed. -/
def ManifestObjectMetadata.Persistent (m : ManifestObjectMetadata) : Prop :=
  m.Readable ∧ m.storageClass = none

/-- Metadata that is filed as such an entry. -/
def FileMetadata.Persistent : FileMetadata → Prop
  | .plain m => m.Readable
  | .manifest m => m.Persistent

theorem ManifestObjectMetadata.Persistent.reloaded_eq {m : ManifestObjectMetadata}
    (h : m.Persistent) : m.reloaded = m := by
  obtain ⟨⟨k, n, t, ty, ct, et, sc, md, sl⟩, pp⟩ := m
  obtain rfl : sc = none := h.2
  rfl

/-- What can be written of the metadata can be written of the entry. -/
theorem FileMetadata.Persistent.toManifest {md : FileMetadata} (h : md.Persistent)
    {k : PyStr} {m : ManifestObjectMetadata} (hm : md.toManifest k = .ok m) : m.Persistent := by
  cases md with
  | plain m' =>
      simp only [FileMetadata.toManifest, Except.ok.injEq] at hm
      subst hm
      exact ⟨⟨h.time, h.dict⟩, rfl⟩
  | manifest m' =>
      rw [FileMetadata.toManifest] at hm
      split at hm
      · cases hm
      · cases hm
        exact h

namespace ManifestCall

/-- The times of the commits of a run. -/
def commitTimes : List (ManifestCall UtcDatetime) → List UtcDatetime
  | [] => []
  | .commitUpdates now :: cs => now :: commitTimes cs
  | _ :: cs => commitTimes cs

/-- The calls that persist: an add of metadata that is loaded as it was, and
a commit that has nothing to do or leaves some entry in the map. -/
def Persists (w : World ManifestStorage) : ManifestCall UtcDatetime → Prop
  | .addFile _ md => md.Persistent
  | .removeFile _ => True
  | .commitUpdates _ => w.1.NothingPending ∨
      ∃ k, k ∉ w.1.pendingRemoves ∧
        (w.1.pendingAdds.contains k = true ∨ w.1.files.contains k = true)

/-- A provider whose committed map is what its storage loads. -/
structure Persisted (L : ManifestLibs) (path : PyStr) (w : World ManifestStorage) : Prop where
  manifestPath : w.1.manifestPath = path
  format : w.1.format = .jsonl
  direct : NoDirectManifest w.2 path
  files : ∀ k m, w.1.files.get? k = some m → m.Persistent
  adds : ∀ k m, w.1.pendingAdds.get? k = some m → m.Persistent
  load : ∃ files, loadManifest L w.2 path = .ok files ∧ ∀ k, files.get? k = w.1.files.get? k

variable {w w' : World ManifestStorage} {c : ManifestCall UtcDatetime}
  {cs : List (ManifestCall UtcDatetime)}

/-- The entries of the map after a commit are persistent if the committed and
the pending ones are. -/
theorem Persisted.applyPending (h : Persisted L path w) {k : PyStr} {m : ManifestObjectMetadata}
    (hm : w.1.applyPending.files.get? k = some m) : m.Persistent := by
  rw [ManifestMetadataProvider.get?_applyPending] at hm
  split at hm
  · cases hm
  · rcases Option.or_eq_some_iff.mp hm with hm | ⟨-, hm⟩
    · exact h.adds k m hm
    · exact h.files k m hm

/-- What a commit with changes writes, if an entry is left. -/
theorem writeManifestFiles_of_entry {now : UtcDatetime} {p : ManifestMetadataProvider} {k : PyStr}
    (hk : p.files.contains k = true) (st : ManifestStorage) :
    writeManifestFiles L none now p p.files.values st =
      (none, writtenStorage L p.manifestPath p.format now p.files.values st) := by
  have hne : p.files.values.isEmpty = false := by
    rw [PyDict.contains_iff_mem] at hk
    rw [Bool.eq_false_iff, ne_eq, List.isEmpty_iff, PyDict.values, List.map_eq_nil_iff]
    intro hnil
    rw [hnil] at hk
    cases hk
  simp [writeManifestFiles, hne, writtenStorage]

/-- **One call keeps the storage in step with the map.** -/
theorem Persisted.step (hT : L.ReadsTimes) (hG : L.GlobsSegments) (hpath : FolderPath path)
    (h : Persisted L path w) (hok : Persists w c)
    (hnew : ∀ now, c = .commitUpdates now →
      ∀ k ∈ manifestCandidates L w.2 path, k < manifestIndexPath path now)
    (hstep : ManifestCall.step (writeManifestFiles L none) w c = some w') :
    Persisted L path w' ∧ ∀ k ∈ manifestCandidates L w'.2 path,
      k ∈ manifestCandidates L w.2 path ∨
        ∃ now, c = .commitUpdates now ∧ k = manifestIndexPath path now := by
  cases c with
  | addFile k md =>
      obtain ⟨hadd, hst⟩ := step_addFile hstep
      obtain ⟨-, -, m, hm, hadds, hfiles, -, -, -, hmp, hfmt⟩ :=
        ManifestMetadataProvider.addFile_spec hadd
      rw [hst]
      refine ⟨⟨hmp.trans h.manifestPath, hfmt.trans h.format, hst ▸ h.direct, hfiles ▸ h.files, ?_,
        hst ▸ hfiles ▸ h.load⟩, fun k hk => .inl hk⟩
      intro k' m' hk'
      rw [hadds, PyDict.get?_set] at hk'
      split at hk'
      · rw [← Option.some.inj hk']
        exact FileMetadata.Persistent.toManifest hok hm
      · exact h.adds k' m' hk'
  | removeFile k =>
      obtain ⟨hrem, hst⟩ := step_removeFile hstep
      obtain ⟨-, -, -, hfiles, hadds, -, -, hmp, hfmt⟩ :=
        ManifestMetadataProvider.removeFile_spec hrem
      rw [hst]
      exact ⟨⟨hmp.trans h.manifestPath, hfmt.trans h.format, hst ▸ h.direct, hfiles ▸ h.files,
        hadds ▸ h.adds, hst ▸ hfiles ▸ h.load⟩, fun k hk => .inl hk⟩
  | commitUpdates now =>
      have hcommit := step_commitUpdates hstep
      by_cases hpend : w.1.NothingPending
      · -- nothing to do
        rw [ManifestMetadataProvider.commitUpdates_of_nothingPending _ hpend] at hcommit
        obtain ⟨-, h₁, h₂⟩ := Prod.mk.inj hcommit |>.imp_right Prod.mk.inj
        obtain rfl : w = w' := Prod.ext h₁ h₂
        exact ⟨h, fun k hk => .inl hk⟩
      · rw [ManifestMetadataProvider.commitUpdates_of_pending _ hpend] at hcommit
        obtain ⟨k, hk, hin⟩ := hok.resolve_left hpend
        have hcont : w.1.applyPending.files.contains k = true := by
          rw [PyDict.contains, ManifestMetadataProvider.get?_applyPending, if_neg hk,
            Option.isSome_or, Bool.or_eq_true]
          exact hin
        rw [writeManifestFiles_of_entry hcont] at hcommit
        obtain ⟨-, h₁, h₂⟩ := Prod.mk.inj hcommit |>.imp_right Prod.mk.inj
        have hmp : w.1.applyPending.manifestPath = path := h.manifestPath
        have hfmt : w.1.applyPending.format = .jsonl := h.format
        rw [hmp, hfmt] at h₂
        have hpers : ∀ k m, w.1.applyPending.files.get? k = some m → m.Persistent :=
          fun k m hm => h.applyPending hm
        have hms : ∀ m ∈ w.1.applyPending.files.values, m.Readable := by
          intro m hm
          obtain ⟨e, he, rfl⟩ := List.mem_map.mp hm
          exact (hpers e.1 e.2 (PyDict.get?_eq_some_iff.mpr he)).1
        refine ⟨⟨h₁ ▸ hmp, h₁ ▸ hfmt, ?_, h₁ ▸ hpers, ?_, ?_⟩, ?_⟩
        · rw [← h₂]
          exact noDirectManifest_written hpath h.direct _ _ _
        · rw [← h₁]
          intro k m hm
          cases hm
        · rw [← h₁, ← h₂]
          refine ⟨_, load_written hT hG hpath h.direct (hnew now rfl) hms, fun k => ?_⟩
          rw [get?_reloaded]
          cases hg : w.1.applyPending.files.get? k with
          | none => rfl
          | some m => exact congrArg some (hpers k m hg).reloaded_eq
        · rw [← h₂]
          intro k hk
          rcases (mem_manifestCandidates_written hG hpath _ _ _).mp hk with rfl | hk
          · exact .inr ⟨now, rfl, rfl⟩
          · exact .inl hk

theorem commitTimes_cons (c : ManifestCall UtcDatetime) (cs : List (ManifestCall UtcDatetime)) :
    commitTimes (c :: cs) = commitTimes [c] ++ commitTimes cs := by
  cases c <;> rfl

/-- What every call of a run keeps, the run keeps. -/
theorem Persisted.exec (hT : L.ReadsTimes) (hG : L.GlobsSegments) (hpath : FolderPath path)
    (h : Persisted L path w)
    (htimes : (commitTimes cs).Pairwise fun t t' => t.micros + 1000000 ≤ t'.micros)
    (hold : ∀ t ∈ commitTimes cs, ∀ k ∈ manifestCandidates L w.2 path, k < manifestIndexPath path t)
    (hok : Run.Always (ManifestCall.step (writeManifestFiles L none)) Persists w cs)
    (hrun : Run.exec (ManifestCall.step (writeManifestFiles L none)) w cs = some w') :
    Persisted L path w' := by
  induction cs generalizing w with
  | nil =>
      obtain rfl : w = w' := by simpa [Run.exec] using hrun
      exact h
  | cons c cs ih =>
      obtain ⟨w₁, hw₁, hrun⟩ := Run.exec_cons.mp hrun
      rw [commitTimes_cons] at htimes hold
      obtain ⟨-, htail, hcross⟩ := List.pairwise_append.mp htimes
      have hnow : ∀ now, c = .commitUpdates now →
          ∀ k ∈ manifestCandidates L w.2 path, k < manifestIndexPath path now := by
        rintro now rfl
        exact hold now (by simp [commitTimes])
      obtain ⟨h₁, hcand⟩ := h.step hT hG hpath hok.1 hnow hw₁
      refine ih h₁ htail (fun t ht k hk => ?_) (hok.2 w₁ hw₁) hrun
      rcases hcand k hk with hk | ⟨now, rfl, rfl⟩
      · exact hold t (List.mem_append_right _ ht) k hk
      · exact manifestIndexPath_lt (hcross now (by simp [commitTimes]) t ht)

/-- **A restart sees the committed map**: in a run from the construction of a
provider, with commits at least a second apart and later than the manifests
already there, whose adds are all loaded as they were and whose commits never
leave the map empty, a provider constructed on the storage has the committed
map, whatever its flags. -/
theorem reload_after_run (hT : L.ReadsTimes) (hG : L.GlobsSegments) (hpath : FolderPath path)
    {p : ManifestMetadataProvider} {writable allowOverwrites : Bool}
    (hinit : ManifestMetadataProvider.new L st path writable allowOverwrites .jsonl = .ok p)
    (hdirect : NoDirectManifest st path) (hread : ∀ k m, p.files.get? k = some m → m.Readable)
    (htimes : (commitTimes cs).Pairwise fun t t' => t.micros + 1000000 ≤ t'.micros)
    (hold : ∀ t ∈ commitTimes cs, ∀ k ∈ manifestCandidates L st path, k < manifestIndexPath path t)
    (hok : Run.Always (ManifestCall.step (writeManifestFiles L none)) Persists (p, st) cs)
    (hrun : Run.exec (ManifestCall.step (writeManifestFiles L none)) (p, st) cs = some w')
    (writable' allowOverwrites' : Bool) (format' : ManifestFormat) :
    ∃ q, ManifestMetadataProvider.new L w'.2 path writable' allowOverwrites' format' = .ok q ∧
      ∀ k, q.files.get? k = w'.1.files.get? k := by
  obtain ⟨hload, hadds, -, hmp, -, -, hfmt⟩ := ManifestMetadataProvider.new_eq_ok_iff.mp hinit
  have h₀ : Persisted L path (p, st) :=
    { manifestPath := hmp
      format := hfmt
      direct := hdirect
      files := fun k m hm => ⟨hread k m hm, (loadManifest_entries hload hm).2⟩
      adds := by
        intro k m hm
        rw [hadds] at hm
        cases hm
      load := ⟨p.files, hload, fun _ => rfl⟩ }
  obtain ⟨files, hfiles, hget⟩ := (h₀.exec hT hG hpath htimes hold hok hrun).load
  refine ⟨{ files, manifestPath := path, writable := writable', allowOverwrites := allowOverwrites',
            format := format', key_of_files := fun _ _ hm => (loadManifest_entries hfiles hm).1 },
    ?_, hget⟩
  exact ManifestMetadataProvider.new_eq_ok_iff.mpr ⟨hfiles, rfl, rfl, rfl, rfl, rfl, rfl⟩

end ManifestCall

/-! ### Libraries that behave as assumed -/

/-- The decimal text of a natural number. -/
def natText (n : ℕ) : PyStr := digits (Nat.log 10 n + 1) n

theorem natText_ne_nil (n : ℕ) : natText n ≠ [] := by
  intro h
  have := congrArg List.length h
  simp [natText] at this

theorem parseDigits_natText (n : ℕ) : parseDigits (natText n) = some n :=
  parseDigits_digits (Nat.lt_pow_succ_log_self (by decide) n)

theorem isDigit_natText {n : ℕ} {c : Char} (h : c ∈ natText n) : c.isDigit = true :=
  isDigit_of_mem_digits h

/-- Number texts: decimal for integers, with the denominator appended for
other numbers. -/
def numText (q : ℚ) : PyStr :=
  (if q.num < 0 then ['-'] else []) ++
    (natText q.num.natAbs ++ if q.den = 1 then [] else 'e' :: natText q.den)

/-- The denominator behind an integer. -/
def parseDen (s : PyStr) : Option ℕ := if s = [] then some 1 else parseDigits (s.drop 1)

/-- The number of a text. -/
def parseNum (s : PyStr) : Option ℚ :=
  let negative := s.head? = some '-'
  let s := if negative then s.drop 1 else s
  do
    let n ← parseDigits (s.takeWhile Char.isDigit)
    let d ← parseDen (s.dropWhile Char.isDigit)
    some (mkRat (if negative then -(n : ℤ) else n) d)

/-- The digits and the exponent of a number are found. -/
theorem parseNum_unsigned (n d : ℕ) :
    let s := natText n ++ if d = 1 then [] else 'e' :: natText d
    s.head? ≠ some '-' ∧ parseDigits (s.takeWhile Char.isDigit) = some n ∧
      parseDen (s.dropWhile Char.isDigit) = some d := by
  have hdigits : ∀ c ∈ natText n, c.isDigit = true := fun c hc => isDigit_natText hc
  obtain ⟨c, r, hc⟩ := List.exists_cons_of_ne_nil (natText_ne_nil n)
  have hhead : c ≠ '-' := by
    rintro rfl
    exact absurd (hdigits '-' (by rw [hc]; simp)) (by decide)
  refine ⟨by rw [hc]; simpa using hhead, ?_, ?_⟩
  · rw [List.takeWhile_append_of_pos hdigits]
    split
    · rw [List.takeWhile_nil, List.append_nil, parseDigits_natText]
    · rw [List.takeWhile_cons_of_neg (by decide), List.append_nil, parseDigits_natText]
  · rw [List.dropWhile_append_of_pos hdigits]
    by_cases hd : d = 1
    · simp [hd, parseDen]
    · rw [if_neg hd, List.dropWhile_cons_of_neg (by decide), parseDen, if_neg (by simp)]
      exact parseDigits_natText d

/-- The text of a number is read back. -/
theorem parseNum_numText (q : ℚ) : parseNum (numText q) = some q := by
  obtain ⟨hhead, hnum, hden⟩ := parseNum_unsigned q.num.natAbs q.den
  by_cases hneg : q.num < 0
  · have hz : -(q.num.natAbs : ℤ) = q.num := by omega
    have htext : numText q = '-' :: (natText q.num.natAbs ++
        if q.den = 1 then [] else 'e' :: natText q.den) := by
      rw [numText, if_pos hneg]
      rfl
    simp only [parseNum, htext, List.head?_cons, if_true, List.drop_succ_cons, List.drop_zero]
    rw [hnum, hden]
    simp only [Option.bind_eq_bind, Option.bind_some, hz, Rat.mkRat_self]
  · have hz : (q.num.natAbs : ℤ) = q.num := by omega
    have htext : numText q = natText q.num.natAbs ++
        if q.den = 1 then [] else 'e' :: natText q.den := by
      rw [numText, if_neg hneg, List.nil_append]
    simp only [parseNum, htext, hhead, if_false]
    rw [hnum, hden]
    simp only [Option.bind_eq_bind, Option.bind_some, hz, Rat.mkRat_self]

/-- Decimal numbers. -/
def decimalNumbers : NumberText where
  repr := numText
  parse := parseNum
  parse_repr := parseNum_numText
  repr_ne_nil q h := natText_ne_nil _ (List.append_eq_nil_iff.mp (List.append_eq_nil_iff.mp h).2).1
  isNumberChar_of_repr := by
    have hd : ∀ {n : ℕ} {c : Char}, c ∈ natText n → isNumberChar c = true := by
      intro n c hc
      simp [isNumberChar, isDigit_natText hc]
    intro q c hc
    rcases List.mem_append.mp hc with hc | hc
    · split at hc
      · rw [List.mem_singleton.mp hc]
        rfl
      · cases hc
    · rcases List.mem_append.mp hc with hc | hc
      · exact hd hc
      · split at hc
        · cases hc
        · rcases List.mem_cons.mp hc with rfl | hc
          · rfl
          · exact hd hc

/-- A number of fixed width and the text behind its separator. -/
def parseField (w : ℕ) (s : PyStr) : Option (ℕ × PyStr) :=
  (parseDigits (s.take w)).map fun n => (n, s.drop (w + 1))

theorem parseField_digits {w n : ℕ} (h : n < 10 ^ w) (c : Char) (r : PyStr) :
    parseField w (digits w n ++ c :: r) = some (n, r) := by
  have htake : (digits w n ++ c :: r).take w = digits w n := by
    rw [List.take_append_of_le_length (by simp), List.take_of_length_le (by simp)]
  have hdrop : (digits w n ++ c :: r).drop (w + 1) = r := by
    rw [List.drop_append, List.drop_of_length_le (by simp), length_digits]
    simp
  rw [parseField, htake, hdrop, parseDigits_digits h]
  rfl

/-- The time of a text in the format of `last_modified`. -/
def parseStamp (s : PyStr) : Option ℤ := do
  let (year, s) ← parseField 4 s
  let (month, s) ← parseField 2 s
  let (day, s) ← parseField 2 s
  let (hour, s) ← parseField 2 s
  let (minute, s) ← parseField 2 s
  let (second, s) ← parseField 2 s
  let (microsecond, _) ← parseField 6 s
  some ((microsOf year month day hour minute second microsecond : ℤ) - epochMicros)

/-- From the year 1000 on, the written time is read back. -/
theorem parseStamp_strftime {t : UtcDatetime} (h : 1000 ≤ t.year) :
    parseStamp t.strftime = some t.timestamp := by
  have hyear : UtcDatetime.yearText t.year = digits 4 t.year := by
    rw [UtcDatetime.yearText, if_neg (by omega), if_neg (by omega), if_neg (by omega)]
  have h₁ := t.year_le
  have h₂ := t.month_le
  have h₃ := t.day_lt
  have h₄ := t.hour_lt
  have h₅ := t.minute_lt
  have h₆ := t.second_lt
  have h₇ := t.microsecond_lt
  rw [UtcDatetime.strftime, hyear, parseStamp]
  simp only [parseField_digits (show t.year < 10 ^ 4 by omega),
    parseField_digits (show t.month < 10 ^ 2 by omega),
    parseField_digits (show t.day < 10 ^ 2 by omega),
    parseField_digits (show t.hour < 10 ^ 2 by omega),
    parseField_digits (show t.minute < 10 ^ 2 by omega),
    parseField_digits (show t.second < 10 ^ 2 by omega),
    parseField_digits (show t.microsecond < 10 ^ 6 by omega), Option.bind_eq_bind, Option.bind_some]
  rfl

/-- Matching with one star, which stands for a folder name. -/
def matchSegment (key pattern : PyStr) : Bool :=
  let front := pattern.takeWhile (· != '*')
  let back := pattern.drop (front.length + 1)
  let s := (key.drop front.length).take (key.length - front.length - back.length)
  decide (key = front ++ (s ++ back) ∧ s ≠ [] ∧ '/' ∉ s ∧ s.head? ≠ some '.')

/-- Libraries for manifests of integers and times. -/
def sampleLibs : ManifestLibs where
  number := decimalNumbers
  dateutilParse := parseStamp
  writeParquet _ := []
  readParquet _ := .error .typeError
  globmatch := matchSegment

theorem sampleLibs_readsTimes : sampleLibs.ReadsTimes := fun _ h => parseStamp_strftime h

/-- The sample library globs segments. -/
theorem sampleLibs_globsSegments : sampleLibs.GlobsSegments := by
  intro a b key ha hb hkey
  have hfront : (a ++ '/' :: '*' :: '/' :: b).takeWhile (· != '*') = a ++ ['/'] := by
    rw [List.takeWhile_append_of_pos]
    · rfl
    · intro c hc
      have := (ha.1 c hc)
      simp only [List.mem_cons, not_or] at this
      simpa using this.1
  have hback : (a ++ '/' :: '*' :: '/' :: b).drop ((a ++ ['/']).length + 1) = '/' :: b := by
    have happ : a ++ '/' :: '*' :: '/' :: b = (a ++ ['/', '*']) ++ '/' :: b := by simp
    rw [happ, List.drop_left' (by simp)]
  show matchSegment key _ = true ↔ _
  rw [matchSegment, hfront, hback, decide_eq_true_eq]
  constructor
  · rintro ⟨hk, h₁, h₂, h₃⟩
    refine ⟨_, ⟨h₁, h₂, h₃⟩, hk.trans ?_⟩
    rw [List.append_assoc, List.singleton_append]
  · rintro ⟨s, hs, hk⟩
    have hs' : (key.drop (a ++ ['/']).length).take
        (key.length - (a ++ ['/']).length - ('/' :: b).length) = s := by
      have hkey' : key = (a ++ ['/']) ++ (s ++ '/' :: b) := by
        rw [hk, List.append_assoc, List.singleton_append]
      rw [hkey', List.drop_left, List.take_append_of_le_length (by simp; omega),
        List.take_of_length_le (by simp; omega)]
    rw [hs']
    refine ⟨?_, hs.ne_nil, hs.no_slash, hs.head_ne⟩
    rw [hk, List.append_assoc, List.singleton_append]

/-! ### A manifest that is emptied -/

/-- The first seconds of a year. -/
def newYear (s : ℕ) (h : s < 60) : UtcDatetime :=
  ⟨2024, 1, 1, 0, 0, s, 0, by norm_num, by norm_num, by norm_num, by norm_num,
    ⟨31, rfl, by norm_num⟩, by norm_num, by norm_num, h, by norm_num⟩

/-- A manifest path. -/
def dataPath : PyStr := "data".toList

theorem manifestsDir_dataPath : manifestsDir dataPath = "data/.msc_manifests".toList := by decide

/-- The sample path is one of a folder. -/
theorem folderPath_dataPath : FolderPath dataPath := by
  refine ⟨?_, ?_, ?_⟩
  · rw [manifestsDir_dataPath]
    decide
  · rw [manifestsDir_dataPath]
    exact PyStr.forall_mem_of_all (by decide)
  · rw [manifestsDir_dataPath]
    intro h
    have hcount := h.sublist.count_le '/'
    exact absurd hcount (by decide)

theorem noDirectManifest_empty (path : PyStr) : NoDirectManifest PyDict.empty path := ⟨rfl, rfl⟩

theorem manifestCandidates_empty (path : PyStr) :
    manifestCandidates L PyDict.empty path = [] := rfl

/-- The provider constructed on an empty storage. -/
def emptyProvider : ManifestMetadataProvider where
  files := PyDict.empty
  manifestPath := dataPath
  writable := true
  allowOverwrites := true
  key_of_files := key_of_no_adds
  mem_of_removes := mem_of_no_removes

theorem new_empty :
    ManifestMetadataProvider.new L PyDict.empty dataPath true true .jsonl = .ok emptyProvider := by
  have hfind : findManifestFile L PyDict.empty dataPath = [] := by
    rw [findManifestFile, manifestCandidates_empty]
    simp [PyDict.contains]
  refine ManifestMetadataProvider.new_eq_ok_iff.mpr ⟨?_, rfl, rfl, rfl, rfl, rfl, rfl⟩
  rw [loadManifest, hfind]
  rfl

theorem yearDay_epoch : yearDay (((0 : ℤ) + epochMicros).toNat / 86400000000) = (1970, 0) := by
  have h : epochMicros / 86400000000 = 719162 := by
    unfold epochMicros
    norm_num
  rw [zero_add, Int.toNat_natCast, h]
  decide

/-- The epoch is after the year 1000. -/
theorem year_epoch : ∃ t, UtcDatetime.ofTimestamp? 0 = some t ∧ 1000 ≤ t.year := by
  have h : 0 ≤ (0 : ℤ) + epochMicros ∧
      (yearDay (((0 : ℤ) + epochMicros).toNat / 86400000000)).1 ≤ 9999 := by
    rw [yearDay_epoch]
    exact ⟨by positivity, by decide⟩
  simp only [UtcDatetime.ofTimestamp?]
  rw [dif_pos h]
  refine ⟨_, rfl, ?_⟩
  show 1000 ≤ (yearDay (((0 : ℤ) + epochMicros).toNat / 86400000000)).1
  rw [yearDay_epoch]
  decide

/-- A file to add. -/
def aFile : FileMetadata := .plain { key := ['a'], contentLength := 1, lastModified := 0 }

theorem persistent_aFile : aFile.Persistent := ⟨year_epoch, by intro d h; cases h⟩

namespace ManifestCall

/-- The calls that add and commit one file persist. -/
theorem persists_add_commit (now : UtcDatetime) :
    Run.Always (ManifestCall.step (writeManifestFiles sampleLibs none)) Persists
      (emptyProvider, PyDict.empty) [.addFile ['a'] aFile, .commitUpdates now] := by
  refine ⟨persistent_aFile, fun w₁ h₁ => ⟨.inr ⟨['a'], ?_, .inl ?_⟩, fun _ _ => trivial⟩⟩
  · obtain ⟨-, -, m, -, -, -, hrem, -⟩ := ManifestMetadataProvider.addFile_spec (step_addFile h₁).1
    rw [hrem]
    exact List.not_mem_nil
  · obtain ⟨-, -, m, -, hadds, -⟩ := ManifestMetadataProvider.addFile_spec (step_addFile h₁).1
    rw [hadds, PyDict.contains, PyDict.get?_set_self]
    rfl

/-- A file that is added and committed is there after a restart. -/
theorem reload_add_commit :
    ∃ w' q, Run.exec (ManifestCall.step (writeManifestFiles sampleLibs none))
        (emptyProvider, PyDict.empty)
        [.addFile ['a'] aFile, .commitUpdates (newYear 0 (by decide))] = some w' ∧
      ManifestMetadataProvider.new sampleLibs w'.2 dataPath true true .jsonl = .ok q ∧
      q.files.get? ['a'] = w'.1.files.get? ['a'] := by
  obtain ⟨w', hrun⟩ : ∃ w', Run.exec (ManifestCall.step (writeManifestFiles sampleLibs none))
      (emptyProvider, PyDict.empty)
      [.addFile ['a'] aFile, .commitUpdates (newYear 0 (by decide))] = some w' := ⟨_, rfl⟩
  obtain ⟨q, hq, hget⟩ := reload_after_run sampleLibs_readsTimes sampleLibs_globsSegments
    folderPath_dataPath new_empty (noDirectManifest_empty _) (by intro k m h; cases h)
    (by simp [commitTimes]) (by intro t _ k hk; cases hk)
    (persists_add_commit (newYear 0 (by decide))) hrun true true .jsonl
  exact ⟨w', q, hrun, hq, hget ['a']⟩

/-- A commit that removes the last file writes nothing, and a restart brings
the file back. -/
theorem emptied_manifest_comes_back :
    ∃ w', Run.exec (ManifestCall.step (writeManifestFiles sampleLibs none))
        (emptyProvider, PyDict.empty)
        [.addFile ['a'] aFile, .commitUpdates (newYear 0 (by decide)),
          .removeFile ['a'], .commitUpdates (newYear 1 (by decide))] = some w' ∧
      ¬ ∃ q, ManifestMetadataProvider.new sampleLibs w'.2 dataPath true true .jsonl = .ok q ∧
        ∀ k, q.files.get? k = w'.1.files.get? k := by
  refine ⟨_, rfl, ?_⟩
  rintro ⟨q, hq, hget⟩
  have hload := (ManifestMetadataProvider.new_eq_ok_iff.mp hq).1
  have hreadable : ∀ m ∈ ([⟨{ key := ['a'], contentLength := 1, lastModified := 0 }, ['a']⟩] :
      List ManifestObjectMetadata), m.Readable := by
    intro m hm
    rw [List.mem_singleton.mp hm]
    exact ⟨year_epoch, by intro d h; cases h⟩
  have hnewer : ∀ k ∈ manifestCandidates sampleLibs PyDict.empty dataPath,
      k < manifestIndexPath dataPath (newYear 0 (by decide)) := by
    intro k hk
    cases hk
  have hw := load_written sampleLibs_readsTimes sampleLibs_globsSegments folderPath_dataPath
    (noDirectManifest_empty _) hnewer hreadable
  have hq' := Except.ok.inj (hload.symm.trans hw)
  have hnone : q.files.get? ['a'] = none := hget ['a']
  rw [hq'] at hnone
  cases hnone

end ManifestCall

/-! ### A write that fails -/

namespace ManifestMetadataProvider

/-- The map has every pending change of the provider. -/
def Shows (p : ManifestMetadataProvider) (files : PyDict PyStr ManifestObjectMetadata) : Prop :=
  ∀ k, (p.pendingAdds.contains k = true ∨ k ∈ p.pendingRemoves) →
    files.get? k = p.applyPending.files.get? k

/-- The storage in which a write of the commit is made: the part is written
before the index. -/
def storageAt (L : ManifestLibs) (now : UtcDatetime) (p : ManifestMetadataProvider)
    (st : ManifestStorage) : ManifestPut → ManifestStorage
  | .part => st
  | .index => st.set (manifestPartPath p.manifestPath p.format now)
      (p.format.writePart L p.applyPending.files.values)

/-- A commit that raises has cleared the pending changes, and left the storage
as the failing write found it. -/
theorem commitUpdates_failed {now : UtcDatetime} {fault : ManifestPut}
    {p p' : ManifestMetadataProvider} {st st' : ManifestStorage} {e : PyError}
    (h : p.commitUpdates (writeManifestFiles L (some fault) now) st = (some e, p', st')) :
    p' = p.applyPending ∧ st' = p.storageAt L now st fault := by
  by_cases hn : p.NothingPending
  · rw [commitUpdates_of_nothingPending _ hn] at h
    cases h
  · rw [commitUpdates_of_pending _ hn, writeManifestFiles] at h
    split at h
    · cases h
    · cases fault with
      | part =>
          rw [if_pos rfl] at h
          cases h
          exact ⟨rfl, rfl⟩
      | index =>
          simp only [Option.some.injEq, reduceCtorEq, if_false, if_true] at h
          cases h
          exact ⟨rfl, rfl⟩

/-- **A retry after a failed write persists the changes** only if the storage
in which the write failed showed them already: the retry finds nothing
pending and returns at once. -/
theorem retry_persists_iff {now now' : UtcDatetime} {fault : ManifestPut}
    {p p' : ManifestMetadataProvider} {st st' : ManifestStorage} {e : PyError}
    (h : p.commitUpdates (writeManifestFiles L (some fault) now) st = (some e, p', st'))
    (writable allowOverwrites : Bool) (format : ManifestFormat) :
    (∃ q, new L (p'.commitUpdates (writeManifestFiles L none now') st').2.2 p.manifestPath writable
        allowOverwrites format = .ok q ∧ p.Shows q.files) ↔
      ∃ files, loadManifest L (p.storageAt L now st fault) p.manifestPath = .ok files ∧
        p.Shows files := by
  obtain ⟨rfl, rfl⟩ := commitUpdates_failed h
  rw [commitUpdates_of_nothingPending _ (nothingPending_applyPending p)]
  constructor
  · rintro ⟨q, hq, hshow⟩
    exact ⟨q.files, (new_eq_ok_iff.mp hq).1, hshow⟩
  · rintro ⟨files, hload, hshow⟩
    refine ⟨{ files, manifestPath := p.manifestPath, writable, allowOverwrites, format,
              key_of_files := fun _ _ hm => (loadManifest_entries hload hm).1 }, ?_, hshow⟩
    exact new_eq_ok_iff.mpr ⟨hload, rfl, rfl, rfl, rfl, rfl, rfl⟩

/-- The entry of the file that is added. -/
def aEntry : ManifestObjectMetadata where
  key := ['a']
  contentLength := 1
  lastModified := 0
  physicalPath := ['a']

/-- A provider with a file to commit. -/
def addedProvider : ManifestMetadataProvider := { emptyProvider with
  pendingAdds := PyDict.empty.set ['a'] aEntry
  key_of_adds := by
    intro k m h
    rw [PyDict.get?_set] at h
    split at h
    · next hk =>
        rw [hk, ← Option.some.inj h]
        rfl
    · cases h }

/-- The file is persisted if the manifest in storage has it already. -/
theorem retry_persists_written :
    ∃ q, new sampleLibs (addedProvider.applyPending.commitUpdates
        (writeManifestFiles sampleLibs none (newYear 2 (by decide)))
        (writtenStorage sampleLibs dataPath .jsonl (newYear 0 (by decide)) [aEntry]
          PyDict.empty)).2.2 dataPath true true .jsonl = .ok q ∧ addedProvider.Shows q.files := by
  have hfail : addedProvider.commitUpdates
      (writeManifestFiles sampleLibs (some .part) (newYear 1 (by decide)))
      (writtenStorage sampleLibs dataPath .jsonl (newYear 0 (by decide)) [aEntry] PyDict.empty) =
      (some (.storageError "put_object".toList), addedProvider.applyPending,
        writtenStorage sampleLibs dataPath .jsonl (newYear 0 (by decide)) [aEntry]
          PyDict.empty) := rfl
  refine (retry_persists_iff hfail true true .jsonl).mpr ⟨_, load_written sampleLibs_readsTimes
    sampleLibs_globsSegments folderPath_dataPath (noDirectManifest_empty _)
    (by intro k hk; cases hk) ?_, ?_⟩
  · intro m hm
    rw [List.mem_singleton.mp hm]
    exact ⟨year_epoch, by intro d h; cases h⟩
  · rintro k (hk | hk)
    · obtain rfl : k = ['a'] := by
        rcases PyDict.contains_set.mp hk with hk | hk
        · exact hk
        · cases hk
      rfl
    · cases hk

/-- The part write of the first commit fails: the file is lost although the
retry succeeds. -/
theorem failed_commit_lost :
    addedProvider.commitUpdates (writeManifestFiles sampleLibs (some .part) (newYear 0 (by decide)))
        PyDict.empty = (some (.storageError "put_object".toList), addedProvider.applyPending,
          PyDict.empty) ∧
      (addedProvider.applyPending.commitUpdates
        (writeManifestFiles sampleLibs none (newYear 1 (by decide))) PyDict.empty).1 = none ∧
      ¬ ∃ q, new sampleLibs (addedProvider.applyPending.commitUpdates
          (writeManifestFiles sampleLibs none (newYear 1 (by decide))) PyDict.empty).2.2 dataPath
          true true .jsonl = .ok q ∧ addedProvider.Shows q.files := by
  rw [commitUpdates_of_nothingPending _ (nothingPending_applyPending addedProvider)]
  refine ⟨rfl, rfl, ?_⟩
  rintro ⟨q, hq, hshow⟩
  rw [new_empty] at hq
  cases hq
  have ha : none = some aEntry := hshow ['a'] (.inl rfl)
  cases ha

end ManifestMetadataProvider

end MultiStorageClient
