/-
MultiStorageClient/ManifestStore.lean

A manifest in storage: `_write_manifest_files`, `_load_manifest` and the
constructor of `ManifestMetadataProvider`.

A commit writes one part file and an index into a folder named by the time;
a provider that is constructed loads the index of the folder with the
greatest name.  The storage is a map from paths to contents that returns
what was put.
-/
import MultiStorageClient.ManifestFormats
import MultiStorageClient.ManifestRuns

/-! ### Paths -/

namespace PyStr

/-- `os.path.join(*parts)` -/
def joinAll : List PyStr → PyStr
  | [] => []
  | a :: as => as.foldl join a

/-- `os.path.splitext(p)[1]`: the last dot of the file name, unless only dots
stand before it, and what follows. -/
def extension (p : PyStr) : PyStr :=
  let stem := (basename p).dropWhile (· == '.')
  if '.' ∈ stem then '.' :: stem.rtakeWhile (· != '.') else []

end PyStr

namespace MultiStorageClient

/-- `DEFAULT_MANIFEST_BASE_DIR` -/
def manifestBaseDir : PyStr := ".msc_manifests".toList

/-- `MANIFEST_INDEX_FILENAME` -/
def manifestIndexFilename : PyStr := "msc_manifest_index.json".toList

/-- The path under which `_write_manifest_files` has its folder: the manifest
path up to a component `.msc_manifests`, if it has one. -/
def manifestBasePath (path : PyStr) : PyStr :=
  let parts := path.splitOn '/'
  if manifestBaseDir ∈ parts then
    let base := PyStr.joinAll (parts.take (parts.idxOf manifestBaseDir))
    if path.head? = some '/' then '/' :: base else base
  else path

/-- The folder of all manifests of a path. -/
def manifestsDir (path : PyStr) : PyStr := PyStr.join (manifestBasePath path) manifestBaseDir

/-- The folder of the manifest written at a time. -/
def manifestFolder (path : PyStr) (now : UtcDatetime) : PyStr :=
  PyStr.join (manifestsDir path) now.isoformat

/-- The path of the part file below the folder; only one part is written. -/
def manifestPartFile (format : ManifestFormat) : PyStr :=
  PyStr.join "parts".toList ("msc_manifest_part".toList ++ digits 6 1 ++ format.suffix)

/-- The path of the index of the manifest written at a time. -/
def manifestIndexPath (path : PyStr) (now : UtcDatetime) : PyStr :=
  PyStr.join (manifestFolder path now) manifestIndexFilename

/-- The path of the part of the manifest written at a time. -/
def manifestPartPath (path : PyStr) (format : ManifestFormat) (now : UtcDatetime) : PyStr :=
  PyStr.join (manifestFolder path now) (manifestPartFile format)

/-! ### Writing -/

/-- The objects of the storage. -/
abbrev ManifestStorage := PyDict PyStr PyStr

/-- The two writes of a commit. -/
inductive ManifestPut
  | part
  | index
  deriving DecidableEq

/-- `Manifest.to_json` for a manifest with one part. -/
def manifestJson (L : ManifestLibs) (format : ManifestFormat) : PyStr :=
  Json.dumps L.number (.obj [("version".toList, .str "1".toList),
    ("parts".toList, .arr [.obj [("path".toList, .str (manifestPartFile format))]]),
    ("format".toList, .str format.value)])

/-- `ManifestMetadataProvider._write_manifest_files` at the time `now`;
`fault` is the `put_object` that raises, if any, and stores nothing. -/
def writeManifestFiles (L : ManifestLibs) (fault : Option ManifestPut) (now : UtcDatetime)
    (p : ManifestMetadataProvider) (ms : List ManifestObjectMetadata) (st : ManifestStorage) :
    Option PyError × ManifestStorage :=
  if ms.isEmpty then (none, st)
  else if fault = some .part then (some (.storageError "put_object".toList), st)
  else
    let st := st.set (manifestPartPath p.manifestPath p.format now) (p.format.writePart L ms)
    if fault = some .index then (some (.storageError "put_object".toList), st)
    else (none, st.set (manifestIndexPath p.manifestPath now) (manifestJson L p.format))

/-! ### Loading -/

/-- `storage_provider.get_object` -/
def ManifestStorage.getObject (st : ManifestStorage) (path : PyStr) : Except PyError PyStr :=
  match st.get? path with
  | some content => .ok content
  | none => .error (.fileNotFoundError path)

/-- `storage_provider.glob` -/
def ManifestStorage.glob (L : ManifestLibs) (st : ManifestStorage) (pattern : PyStr) : List PyStr :=
  (st.entries.map Prod.fst).filter (L.globmatch · pattern)

/-- Where `helper_find_manifest_file` goes looking for manifests. -/
def manifestSearchDir (path : PyStr) : PyStr :=
  if manifestBaseDir ∈ path.splitOn '/' then path else PyStr.join path manifestBaseDir

/-- The indexes of the manifests that are found there. -/
def manifestCandidates (L : ManifestLibs) (st : ManifestStorage) (path : PyStr) : List PyStr :=
  st.glob L (PyStr.join (PyStr.join (manifestSearchDir path) ['*']) manifestIndexFilename)

/-- `helper_find_manifest_file` -/
def findManifestFile (L : ManifestLibs) (st : ManifestStorage) (path : PyStr) : PyStr :=
  if st.contains path then path
  else if st.contains (PyStr.join path manifestIndexFilename) then
    PyStr.join path manifestIndexFilename
  else (((manifestCandidates L st path).mergeSort (· ≤ ·)).getLast?).getD []

/-- `ManifestPartReference.from_dict` -/
def partReference : Json → Except PyError PyStr
  | .obj kvs =>
      match PyDict.find "path".toList kvs with
      | none => .error (.valueError "Missing required field: 'path'".toList)
      | some (.str s) => .ok s
      | some _ => .error .typeError
  | _ => .error .typeError

/-- The format of a manifest, by default `jsonl`. -/
def formatField (kvs : List (PyStr × Json)) : Except PyError PyStr :=
  match PyDict.find "format".toList kvs with
  | none => .ok "jsonl".toList
  | some (.str s) => .ok s
  | some _ => .error .typeError

/-- `Manifest.from_dict` with the check of the version: the references to the
parts, and the format. -/
def manifestFromDict : Json → Except PyError (List PyStr × PyStr)
  | .obj kvs =>
      match PyDict.find "version".toList kvs, PyDict.find "parts".toList kvs with
      | some version, some (.arr parts) => do
          let refs ← parts.mapM partReference
          let format ← formatField kvs
          match version with
          | .str v =>
              if v = "1".toList then .ok (refs, format)
              else .error (.valueError
                ("Manifest version ".toList ++ v ++ " is not supported.".toList))
          | _ => .error (.valueError "Manifest version is not supported.".toList)
      | some _, some _ => .error .typeError
      | _, _ => .error (.valueError "Invalid manifest data: Missing required field".toList)
  | _ => .error .typeError

/-- Where a part reference points to. -/
def partRemotePath (base ref : PyStr) : PyStr :=
  if ref.head? = some '/' then ref else PyStr.join base ref

/-- `ManifestMetadataProvider._load_manifest_part_file` -/
def loadManifestPartFile (L : ManifestLibs) (st : ManifestStorage) (base format ref : PyStr) :
    Except PyError (List ManifestObjectMetadata) := do
  let content ← st.getObject (partRemotePath base ref)
  let ext := PyStr.extension (partRemotePath base ref)
  let handler ← getFormatHandler (if ext = [] then format else ext.drop 1)
  let ms ← handler.readPart L content
  .ok (ms.map fun m => .fromObjectMetadata m.1 m.2)

/-- `ManifestMetadataProvider._load_manifest_file` -/
def loadManifestFile (L : ManifestLibs) (st : ManifestStorage) (content base fileType : PyStr) :
    Except PyError (PyDict PyStr ManifestObjectMetadata) :=
  if fileType = "json".toList then
    match Json.loads L.number content with
    | none => .error (.valueError "Expecting value".toList)
    | some j => do
        let (refs, format) ← manifestFromDict j
        let parts ← refs.mapM (loadManifestPartFile L st base format)
        .ok (PyDict.ofList (parts.flatten.map fun m => (m.key, m)))
  else .error (.notImplementedError
    ("Manifest file type ".toList ++ fileType ++ " is not supported.".toList))

/-- `ManifestMetadataProvider._load_manifest`: the file map of a provider that
is constructed on the storage. -/
def loadManifest (L : ManifestLibs) (st : ManifestStorage) (path : PyStr) :
    Except PyError (PyDict PyStr ManifestObjectMetadata) :=
  let resolved := findManifestFile L st path
  if resolved = [] then .ok PyDict.empty
  else do
    let content ← st.getObject resolved
    loadManifestFile L st content (PyStr.dirname resolved) ((PyStr.extension resolved).drop 1)

/-! ### Construction -/

/-- Each result comes from an element of the list. -/
theorem mem_mapM_ok {ε α β : Type} {f : α → Except ε β} {l : List α} {ys : List β}
    (h : l.mapM f = .ok ys) : ∀ y ∈ ys, ∃ x ∈ l, f x = .ok y := by
  induction l generalizing ys with
  | nil =>
      rw [List.mapM_nil] at h
      cases h
      simp
  | cons a l ih =>
      rw [List.mapM_cons] at h
      cases ha : f a with
      | error e => rw [ha] at h; cases h
      | ok b =>
          rw [ha] at h
          cases hl : l.mapM f with
          | error e => rw [hl] at h; cases h
          | ok bs =>
              rw [hl] at h
              cases h
              intro y hy
              rcases List.mem_cons.mp hy with rfl | hy
              · exact ⟨a, List.mem_cons_self, ha⟩
              · obtain ⟨x, hx, hfx⟩ := ih hl y hy
                exact ⟨x, List.mem_cons_of_mem a hx, hfx⟩

/-- The entries of a part come without a storage class. -/
theorem storageClass_loadManifestPartFile {L : ManifestLibs} {st : ManifestStorage}
    {base format ref : PyStr} {ms : List ManifestObjectMetadata}
    (h : loadManifestPartFile L st base format ref = .ok ms) :
    ∀ m ∈ ms, m.storageClass = none := by
  rw [loadManifestPartFile] at h
  cases h₁ : st.getObject (partRemotePath base ref) with
  | error e => rw [h₁] at h; cases h
  | ok content =>
      rw [h₁] at h
      cases h₂ : getFormatHandler (if PyStr.extension (partRemotePath base ref) = [] then format
          else (PyStr.extension (partRemotePath base ref)).drop 1) with
      | error e => simp only [h₂] at h; cases h
      | ok handler =>
          simp only [h₂] at h
          cases h₃ : handler.readPart L content with
          | error e => simp only [bind, Except.bind, h₃] at h; cases h
          | ok xs =>
              simp only [bind, Except.bind, h₃] at h
              cases h
              intro m hm
              obtain ⟨x, -, rfl⟩ := List.mem_map.mp hm
              rfl

/-- Every loaded entry is filed under its key, without a storage class. -/
theorem loadManifest_entries {L : ManifestLibs} {st : ManifestStorage} {path : PyStr}
    {files : PyDict PyStr ManifestObjectMetadata} (h : loadManifest L st path = .ok files)
    {k : PyStr} {m : ManifestObjectMetadata} (hm : files.get? k = some m) :
    m.key = k ∧ m.storageClass = none := by
  simp only [loadManifest] at h
  split at h
  -- no manifest, and so no entries
  · cases h
    cases hm
  · cases hget : st.getObject (findManifestFile L st path) with
    -- the ways in which the loading raises
    | error e => rw [hget] at h; cases h
    | ok content =>
        rw [hget] at h
        simp only [bind, Except.bind, loadManifestFile] at h
        split at h
        · split at h
          · cases h
          · next j hj =>
              cases hdict : manifestFromDict j with
              | error e => simp only [hdict] at h; cases h
              | ok rf =>
                  simp only [hdict] at h
                  cases hparts : rf.1.mapM (loadManifestPartFile L st
                      (PyStr.dirname (findManifestFile L st path)) rf.2) with
                  | error e => simp only [hparts] at h; cases h
                  | ok parts =>
                      simp only [hparts] at h
                      cases h
                      -- the entry comes from a line of some part
                      have hmem := PyDict.mem_of_get?_ofList hm
                      obtain ⟨m', hm', he⟩ := List.mem_map.mp hmem
                      obtain ⟨rfl, rfl⟩ := Prod.mk.inj he
                      obtain ⟨part, hpart, hin⟩ := List.mem_flatten.mp hm'
                      obtain ⟨ref, -, hload⟩ := mem_mapM_ok hparts part hpart
                      exact ⟨rfl, storageClass_loadManifestPartFile hload m' hin⟩
        · cases h

/-- `ManifestMetadataProvider.__init__` -/
def ManifestMetadataProvider.new (L : ManifestLibs) (st : ManifestStorage) (manifestPath : PyStr)
    (writable allowOverwrites : Bool) (format : ManifestFormat) :
    Except PyError ManifestMetadataProvider :=
  match h : loadManifest L st manifestPath with
  | .error e => .error e
  | .ok files => .ok
      { files, manifestPath, writable, allowOverwrites, format
        key_of_files := fun _ _ hm => (loadManifest_entries h hm).1 }

/-- The provider that is constructed, field by field. -/
theorem ManifestMetadataProvider.new_eq_ok_iff {L : ManifestLibs} {st : ManifestStorage}
    {path : PyStr} {w a : Bool} {format : ManifestFormat} {p : ManifestMetadataProvider} :
    ManifestMetadataProvider.new L st path w a format = .ok p ↔
      loadManifest L st path = .ok p.files ∧ p.pendingAdds = PyDict.empty ∧
        p.pendingRemoves = [] ∧ p.manifestPath = path ∧ p.writable = w ∧ p.allowOverwrites = a ∧
        p.format = format := by
  rw [new]
  split
  · next e he => simp [he]
  · next files hfiles =>
      constructor
      · intro h
        cases h
        exact ⟨hfiles, rfl, rfl, rfl, rfl, rfl, rfl⟩
      · obtain ⟨pf, pa, pr, pm, pw, po, pfmt, _, _, _⟩ := p
        rintro ⟨h₁, h₂, h₃, h₄, h₅, h₆, h₇⟩
        obtain rfl : files = pf := Except.ok.inj (hfiles.symm.trans h₁)
        subst h₂ h₃ h₄ h₅ h₆ h₇
        rfl

end MultiStorageClient
