/-
MultiStorageClient/ManifestFormats.lean

The part files of a manifest (`providers/manifest_formats.py`, with `to_dict`
and `from_dict` of `types.py` and `from_object_metadata` of
`providers/manifest_object_metadata.py`): one JSON object per line.

`ManifestLibs` collects what the source takes from other packages.  The text
of a part is ASCII, so it stands for its own bytes.
-/
import MultiStorageClient.IsoTime
import MultiStorageClient.JsonText
import MultiStorageClient.ManifestMetadata

namespace MultiStorageClient

/-- The functions of other packages that the manifests use: number texts,
`dateutil.parser.parse`, `pyarrow` and `wcmatch.glob.globmatch` with
`GLOBSTAR`. -/
structure ManifestLibs where
  number : NumberText
  dateutilParse : PyStr → Option ℤ
  writeParquet : List ManifestObjectMetadata → PyStr
  readParquet : PyStr → Except PyError (List (ObjectMetadata × Option PyStr))
  globmatch : PyStr → PyStr → Bool

/-- `dateutil` reads a time in UTC with a four-digit year as that time. -/
def ManifestLibs.ReadsTimes (L : ManifestLibs) : Prop :=
  ∀ t : UtcDatetime, 1000 ≤ t.year → L.dateutilParse t.strftime = some t.timestamp

/-! ### Dictionaries -/

/-- The `type` of an entry as text. -/
def EntryType.text : EntryType → PyStr
  | .file => "file".toList
  | .directory => "directory".toList

/-- The entry of a field that is left out when it is `None`. -/
def optionalField (k : PyStr) (v : Option Json) : List (PyStr × Json) :=
  v.toList.map fun j => (k, j)

/-- `last_modified` in UTC, as `to_dict` writes it. -/
def lastModifiedText (z : ℤ) : PyStr :=
  ((UtcDatetime.ofTimestamp? z).map UtcDatetime.strftime).getD []

/-- `ManifestObjectMetadata.to_dict` -/
def ManifestObjectMetadata.toDict (m : ManifestObjectMetadata) : List (PyStr × Json) :=
  [("key".toList, .str m.key), ("content_length".toList, .num m.contentLength),
    ("last_modified".toList, .str (lastModifiedText m.lastModified)),
    ("type".toList, .str m.type.text)] ++
  optionalField "content_type".toList (m.contentType.map .str) ++
  optionalField "etag".toList (m.etag.map .str) ++
  optionalField "storage_class".toList (m.storageClass.map .str) ++
  optionalField "metadata".toList (m.metadata.map .obj) ++
  optionalField "symlink_target".toList (m.symlinkTarget.map .str) ++
  [("physical_path".toList, .str m.physicalPath)]

/-- `_metadata_to_manifest_dict` -/
def metadataToManifestDict (m : ManifestObjectMetadata) : List (PyStr × Json) :=
  m.toDict.filter (fun e => e.1 ≠ "content_length".toList) ++
    [("size_bytes".toList, .num m.contentLength)]

/-- A field that may be missing or `null`. -/
def optionalStr (k : PyStr) (kvs : List (PyStr × Json)) : Except PyError (Option PyStr) :=
  match PyDict.find k kvs with
  | none => .ok none
  | some .null => .ok none
  | some (.str s) => .ok (some s)
  | some _ => .error .typeError

/-- The `type` field, by default `file`. -/
def typeField (kvs : List (PyStr × Json)) : Except PyError EntryType :=
  match PyDict.find "type".toList kvs with
  | none => .ok .file
  | some (.str s) =>
      if s = "file".toList then .ok .file
      else if s = "directory".toList then .ok .directory
      else .error .typeError
  | some _ => .error .typeError

/-- The `metadata` field: attributes or nothing. -/
def metadataField (kvs : List (PyStr × Json)) : Except PyError (Option (List (PyStr × Json))) :=
  match PyDict.find "metadata".toList kvs with
  | none => .ok none
  | some .null => .ok none
  | some (.obj d) => .ok (some d)
  | some _ => .error .typeError

/-- A size in bytes. -/
def sizeOf? : Json → Except PyError ℕ
  | .num q => if q = (q.num.toNat : ℚ) then .ok q.num.toNat else .error .typeError
  | _ => .error .typeError

/-- `ObjectMetadata.from_dict` -/
def ObjectMetadata.fromDict (L : ManifestLibs) (kvs : List (PyStr × Json)) :
    Except PyError ObjectMetadata :=
  match PyDict.find "last_modified".toList kvs with
  | none => .error (.valueError "Missing required field.".toList)
  | some (.str s) =>
      match L.dateutilParse s with
      | none => .error (.valueError ("Unknown string format: ".toList ++ s))
      | some lastModified =>
          match PyDict.find "key".toList kvs with
          | none | some .null => .error (.valueError "Missing required field: 'key'".toList)
          | some (.str key) =>
              match PyDict.find "content_length".toList kvs with
              | none => .error (.valueError "Missing required field.".toList)
              | some n => do
                  let contentLength ← sizeOf? n
                  let type ← typeField kvs
                  let contentType ← optionalStr "content_type".toList kvs
                  let etag ← optionalStr "etag".toList kvs
                  let storageClass ← optionalStr "storage_class".toList kvs
                  let metadata ← metadataField kvs
                  let symlinkTarget ← optionalStr "symlink_target".toList kvs
                  .ok { key, contentLength, lastModified, type, contentType, etag, storageClass,
                        metadata, symlinkTarget }
          | some _ => .error .typeError
  | some _ => .error .typeError

/-! ### Parts -/

/-- The lines of a text file, as `io.TextIOWrapper` yields them: each with its
line break read as `\n`, the last one possibly without. -/
def textLines (line : PyStr) : PyStr → List PyStr
  | [] => if line = [] then [] else [line]
  | '\r' :: '\n' :: r => (line ++ ['\n']) :: textLines [] r
  | c :: r =>
      if Json.isBreak c then (line ++ ['\n']) :: textLines [] r else textLines (line ++ [c]) r

/-- `JsonlManifestFormatHandler.write_part` -/
def writePartJsonl (L : ManifestLibs) (ms : List ManifestObjectMetadata) : PyStr :=
  List.intercalate ['\n'] (ms.map fun m => Json.dumps L.number (.obj (metadataToManifestDict m)))

/-- One line of a part: the metadata, and the `physical_path` that is set as
an attribute of it. -/
def readLineJsonl (L : ManifestLibs) (line : PyStr) :
    Except PyError (ObjectMetadata × Option PyStr) :=
  match Json.loads L.number line with
  | none => .error (.valueError "Expecting value".toList)
  | some (.obj kvs) =>
      match PyDict.find "size_bytes".toList kvs with
      | none => .error (.keyError "size_bytes".toList)
      | some n => do
          let kvs := PyDict.assign "content_length".toList n
            (kvs.filter fun e => e.1 ≠ "size_bytes".toList)
          let physicalPath ← optionalStr "physical_path".toList kvs
          let m ← ObjectMetadata.fromDict L (kvs.filter fun e => e.1 ≠ "physical_path".toList)
          .ok (m, physicalPath)
  | some _ => .error .typeError

/-- `JsonlManifestFormatHandler.read_part` -/
def readPartJsonl (L : ManifestLibs) (content : PyStr) :
    Except PyError (List (ObjectMetadata × Option PyStr)) :=
  (textLines [] content).mapM (readLineJsonl L)

/-- `ManifestObjectMetadata.from_object_metadata`, for metadata that may have
a `physical_path` attribute. -/
def ManifestObjectMetadata.fromObjectMetadata (m : ObjectMetadata) (physicalPath : Option PyStr) :
    ManifestObjectMetadata where
  key := m.key
  contentLength := m.contentLength
  lastModified := m.lastModified
  contentType := m.contentType
  etag := m.etag
  metadata := m.metadata
  type := m.type
  symlinkTarget := m.symlinkTarget
  physicalPath := physicalPath.getD m.key

/-- `get_format_handler(format).get_file_suffix()` -/
def ManifestFormat.suffix : ManifestFormat → PyStr
  | .jsonl => ".jsonl".toList
  | .parquet => ".parquet".toList

/-- `ManifestFormat.value` -/
def ManifestFormat.value : ManifestFormat → PyStr
  | .jsonl => "jsonl".toList
  | .parquet => "parquet".toList

/-- `get_format_handler` on the value of a format. -/
def getFormatHandler (s : PyStr) : Except PyError ManifestFormat :=
  if s = "parquet".toList then .ok .parquet
  else if s = "jsonl".toList then .ok .jsonl
  else .error (.valueError ("Unsupported manifest format: ".toList ++ s))

/-- `write_part` of the handler of a format. -/
def ManifestFormat.writePart (L : ManifestLibs) :
    ManifestFormat → List ManifestObjectMetadata → PyStr
  | .jsonl => writePartJsonl L
  | .parquet => L.writeParquet

/-- `read_part` of the handler of a format. -/
def ManifestFormat.readPart (L : ManifestLibs) :
    ManifestFormat → PyStr → Except PyError (List (ObjectMetadata × Option PyStr))
  | .jsonl => readPartJsonl L
  | .parquet => L.readParquet

/-! ### A line reads back -/

/-- The metadata that a line can carry: a time that `strftime` writes with a
four-digit year, and attributes that are dictionaries. -/
structure ObjectMetadata.Readable (m : ObjectMetadata) : Prop where
  time : ∃ t, UtcDatetime.ofTimestamp? m.lastModified = some t ∧ 1000 ≤ t.year
  dict : ∀ d, m.metadata = some d → (Json.obj d).WF

theorem find_optionalField (k k' : PyStr) (v : Option Json) :
    PyDict.find k (optionalField k' v) = if k' = k then v else none := by
  cases v with
  | none => simp [optionalField, PyDict.find]
  | some j => simp [optionalField, PyDict.find]

theorem optionalField_keys_sublist (k : PyStr) (v : Option Json) :
    ((optionalField k v).map Prod.fst).Sublist [k] := by
  cases v with
  | none => simp [optionalField]
  | some j => simp [optionalField]

/-- The fields of `to_dict`, in order. -/
def dictKeys : List PyStr :=
  ["key".toList, "content_length".toList, "last_modified".toList, "type".toList,
    "content_type".toList, "etag".toList, "storage_class".toList, "metadata".toList,
    "symlink_target".toList, "physical_path".toList]

theorem keys_toDict_sublist (m : ManifestObjectMetadata) :
    (m.toDict.map Prod.fst).Sublist dictKeys := by
  simp only [ManifestObjectMetadata.toDict, List.map_append]
  have h := fun k v => optionalField_keys_sublist k v
  exact ((((((List.Sublist.refl _).append (h _ _)).append (h _ _)).append (h _ _)).append
    (h _ _)).append (h _ _)).append (List.Sublist.refl _)

theorem nodup_metadataToManifestDict (m : ManifestObjectMetadata) :
    ((metadataToManifestDict m).map Prod.fst).Nodup := by
  have hsub : ((metadataToManifestDict m).map Prod.fst).Sublist
      (dictKeys ++ ["size_bytes".toList]) := by
    rw [metadataToManifestDict, List.map_append]
    exact ((List.filter_sublist.map Prod.fst).trans (keys_toDict_sublist m)).append
      (List.Sublist.refl _)
  exact List.Nodup.sublist hsub (by decide)

theorem wfPairs_append {es fs : List (PyStr × Json)} :
    Json.WFPairs (es ++ fs) ↔ Json.WFPairs es ∧ Json.WFPairs fs := by
  induction es with
  | nil => simp [Json.WFPairs]
  | cons e es ih =>
      obtain ⟨k, v⟩ := e
      simp [Json.WFPairs, ih, and_assoc]

/-- A filter leaves the pairs well formed. -/
theorem wfPairs_filter {es : List (PyStr × Json)} (p : PyStr × Json → Bool)
    (h : Json.WFPairs es) : Json.WFPairs (es.filter p) := by
  induction es with
  | nil => exact h
  | cons e es ih =>
      obtain ⟨k, v⟩ := e
      by_cases hp : p (k, v) = true
      · rw [List.filter_cons_of_pos hp]
        exact ⟨h.1, ih h.2⟩
      · rw [List.filter_cons_of_neg hp]
        exact ih h.2

theorem wfPairs_optionalStr (k : PyStr) (v : Option PyStr) :
    Json.WFPairs (optionalField k (v.map .str)) := by
  cases v with
  | none => trivial
  | some s => exact ⟨trivial, trivial⟩

/-- An entry is written as well-formed JSON. -/
theorem wf_metadataToManifestDict {m : ManifestObjectMetadata}
    (h : ∀ d, m.metadata = some d → (Json.obj d).WF) :
    (Json.obj (metadataToManifestDict m)).WF := by
  refine ⟨nodup_metadataToManifestDict m, ?_⟩
  have hmeta : Json.WFPairs (optionalField "metadata".toList (m.metadata.map .obj)) := by
    cases hm : m.metadata with
    | none => trivial
    | some d => exact ⟨h d hm, trivial⟩
  have hdict : Json.WFPairs m.toDict := by
    simp only [ManifestObjectMetadata.toDict, wfPairs_append, wfPairs_optionalStr, hmeta, and_true]
    simp [Json.WFPairs, Json.WF]
  rw [metadataToManifestDict, wfPairs_append]
  exact ⟨wfPairs_filter _ hdict, trivial, trivial⟩

/-- The dictionary that `from_dict` is given for a line. -/
def lineDict (m : ManifestObjectMetadata) : List (PyStr × Json) :=
  PyDict.assign "content_length".toList (.num m.contentLength)
    ((metadataToManifestDict m).filter fun e => e.1 ≠ "size_bytes".toList)

/-- It has the fields of the metadata. -/
theorem find_lineDict (m : ManifestObjectMetadata) {k : PyStr}
    (h : k ≠ "content_length".toList) (hs : k ≠ "size_bytes".toList) :
    PyDict.find k (lineDict m) = PyDict.find k m.toDict := by
  rw [lineDict, PyDict.find_assign, if_neg h, PyDict.find_filter_ne, if_neg hs,
    metadataToManifestDict, PyDict.find_append, PyDict.find_filter_ne, if_neg h]
  have hz : PyDict.find k [("size_bytes".toList, Json.num m.contentLength)] = none := by
    simp only [PyDict.find, if_neg (Ne.symm hs)]
  rw [hz, Option.or_none]

/-- The fields of an entry, in its dictionary. -/
theorem find_toDict (m : ManifestObjectMetadata) :
    PyDict.find "key".toList m.toDict = some (.str m.key) ∧
      PyDict.find "last_modified".toList m.toDict = some (.str (lastModifiedText m.lastModified)) ∧
      PyDict.find "type".toList m.toDict = some (.str m.type.text) ∧
      PyDict.find "content_type".toList m.toDict = m.contentType.map .str ∧
      PyDict.find "etag".toList m.toDict = m.etag.map .str ∧
      PyDict.find "storage_class".toList m.toDict = m.storageClass.map .str ∧
      PyDict.find "metadata".toList m.toDict = m.metadata.map .obj ∧
      PyDict.find "symlink_target".toList m.toDict = m.symlinkTarget.map .str ∧
      PyDict.find "physical_path".toList m.toDict = some (.str m.physicalPath) := by
  simp [ManifestObjectMetadata.toDict, PyDict.find_append, find_optionalField, PyDict.find]

theorem optionalStr_eq {k : PyStr} {kvs : List (PyStr × Json)} {v : Option PyStr}
    (h : PyDict.find k kvs = v.map .str) : optionalStr k kvs = .ok v := by
  rw [optionalStr, h]
  cases v <;> rfl

theorem metadataField_eq {kvs : List (PyStr × Json)} {v : Option (List (PyStr × Json))}
    (h : PyDict.find "metadata".toList kvs = v.map .obj) : metadataField kvs = .ok v := by
  rw [metadataField, h]
  cases v <;> rfl

theorem typeField_eq {kvs : List (PyStr × Json)} {t : EntryType}
    (h : PyDict.find "type".toList kvs = some (.str t.text)) : typeField kvs = .ok t := by
  rw [typeField, h]
  cases t <;> rfl

theorem sizeOf?_natCast (n : ℕ) : sizeOf? (.num n) = .ok n := by
  simp [sizeOf?]

/-- What `read_part` makes of the line of an entry: the time is the one that
`dateutil` reads, everything else is as it was. -/
def readBack (L : ManifestLibs) (m : ManifestObjectMetadata) :
    Except PyError (ObjectMetadata × Option PyStr) :=
  match L.dateutilParse (lastModifiedText m.lastModified) with
  | none =>
      .error (.valueError ("Unknown string format: ".toList ++ lastModifiedText m.lastModified))
  | some lastModified => .ok ({ m.toObjectMetadata with lastModified }, some m.physicalPath)

theorem readBack_of_readsTimes {L : ManifestLibs} (hL : L.ReadsTimes) {m : ManifestObjectMetadata}
    (h : m.Readable) : readBack L m = .ok (m.toObjectMetadata, some m.physicalPath) := by
  obtain ⟨t, ht, hyear⟩ := h.time
  have hmod : L.dateutilParse (lastModifiedText m.lastModified) = some m.lastModified := by
    rw [lastModifiedText, ht]
    exact (hL t hyear).trans (congrArg some (UtcDatetime.timestamp_ofTimestamp? ht))
  rw [readBack, hmod]

/-- `from_dict` gives back every field of the metadata but the time. -/
theorem fromDict_lineDict (L : ManifestLibs) (m : ManifestObjectMetadata) :
    (ObjectMetadata.fromDict L ((lineDict m).filter fun e => e.1 ≠ "physical_path".toList)).map
      (fun m' => (m', some m.physicalPath)) = readBack L m := by
  obtain ⟨hkey, htime, htype, hct, het, hsc, hmd, hsl, -⟩ := find_toDict m
  -- what `from_dict` finds at each of its fields
  have hfind : ∀ k : PyStr, k ≠ "content_length".toList → k ≠ "size_bytes".toList →
      k ≠ "physical_path".toList →
      PyDict.find k ((lineDict m).filter fun e => e.1 ≠ "physical_path".toList) =
        PyDict.find k m.toDict := by
    intro k h₁ h₂ h₃
    rw [PyDict.find_filter_ne, if_neg h₃, find_lineDict m h₁ h₂]
  have hlen : PyDict.find "content_length".toList
      ((lineDict m).filter fun e => e.1 ≠ "physical_path".toList) = some
        (.num m.contentLength) := by
    rw [PyDict.find_filter_ne, if_neg (by decide), lineDict, PyDict.find_assign, if_pos rfl]
  rw [← hfind _ (by decide) (by decide) (by decide)] at hkey htime htype hct het hsc hmd hsl
  rw [ObjectMetadata.fromDict, readBack, htime]
  cases hmod : L.dateutilParse (lastModifiedText m.lastModified) with
  | none =>
      simp only [hmod]
      rfl
  | some z =>
      simp only [hmod, hkey, hlen, sizeOf?_natCast, typeField_eq htype, optionalStr_eq hct,
        optionalStr_eq het, optionalStr_eq hsc, metadataField_eq hmd, optionalStr_eq hsl]
      rfl

/-- **A line reads back**: everything `to_dict` writes, `read_part` returns. -/
theorem readLineJsonl_dumps (L : ManifestLibs) {m : ManifestObjectMetadata}
    (h : ∀ d, m.metadata = some d → (Json.obj d).WF) {w : PyStr}
    (hw : ∀ c ∈ w, Json.isSpace c = true) :
    readLineJsonl L (Json.dumps L.number (.obj (metadataToManifestDict m)) ++ w) =
      readBack L m := by
  have hsize : PyDict.find "size_bytes".toList (metadataToManifestDict m) =
      some (.num m.contentLength) := by
    rw [metadataToManifestDict, PyDict.find_append, PyDict.find_filter_ne, if_neg (by decide)]
    have hz : PyDict.find "size_bytes".toList m.toDict = none := by
      rw [PyDict.find_eq_none_iff]
      intro hmem
      exact absurd ((keys_toDict_sublist m).subset hmem) (by decide)
    rw [hz]
    rfl
  have hphys : optionalStr "physical_path".toList (lineDict m) = .ok (some m.physicalPath) := by
    apply optionalStr_eq
    rw [find_lineDict m (by decide) (by decide)]
    exact (find_toDict m).2.2.2.2.2.2.2.2
  rw [readLineJsonl, Json.loads_dumps L.number (wf_metadataToManifestDict h) hw]
  simp only [hsize]
  rw [← lineDict, hphys, ← fromDict_lineDict]
  cases ObjectMetadata.fromDict L ((lineDict m).filter fun e => e.1 ≠ "physical_path".toList) with
  | error e => rfl
  | ok m' => rfl

/-! ### A part reads back -/

/-- Text without a break goes on with the line. -/
theorem textLines_line {l : PyStr} (h : ∀ c ∈ l, Json.isBreak c = false) (acc r : PyStr) :
    textLines acc (l ++ r) = textLines (acc ++ l) r := by
  induction l generalizing acc with
  | nil => simp
  | cons c l ih =>
      have hc := h c List.mem_cons_self
      have hr : c ≠ '\r' := by
        rintro rfl
        exact absurd hc (by decide)
      rw [List.cons_append, textLines]
      · rw [if_neg (by simp [hc]), ih fun d hd => h d (List.mem_cons_of_mem c hd)]
        simp
      · rintro s rfl
        exact absurd rfl hr

theorem textLines_newline (acc r : PyStr) :
    textLines acc ('\n' :: r) = (acc ++ ['\n']) :: textLines [] r := by
  rw [textLines]
  · rfl
  · rintro s h
    cases h

/-- **A part reads back**, line by line. -/
theorem readPartJsonl_eq_mapM (L : ManifestLibs) {ms : List ManifestObjectMetadata}
    (h : ∀ m ∈ ms, ∀ d, m.metadata = some d → (Json.obj d).WF) :
    readPartJsonl L (writePartJsonl L ms) = ms.mapM (readBack L) := by
  induction ms with
  | nil => rfl
  | cons m ms ih =>
      have hm := h m List.mem_cons_self
      have hbreak := Json.isBreak_dumps L.number (.obj (metadataToManifestDict m))
      have ih' := ih fun m' hm' => h m' (List.mem_cons_of_mem m hm')
      obtain ⟨c, t, hc, -⟩ := Json.head_dumps L.number (.obj (metadataToManifestDict m))
      cases ms with
      | nil =>
          have hlines : textLines [] (Json.dumps L.number (.obj (metadataToManifestDict m))) =
              [Json.dumps L.number (.obj (metadataToManifestDict m))] := by
            have ht := textLines_line hbreak [] []
            rw [List.append_nil, List.nil_append] at ht
            rw [ht, textLines, if_neg (by simp [hc])]
          have hread := readLineJsonl_dumps L hm (w := []) (by simp)
          rw [List.append_nil] at hread
          rw [readPartJsonl, writePartJsonl, List.map_singleton, List.intercalate_singleton, hlines,
            List.mapM_cons, hread, List.mapM_cons]
          rfl
      | cons m' ms =>
          have hread := readLineJsonl_dumps L hm (w := ['\n']) (by simp [Json.isSpace])
          rw [readPartJsonl, writePartJsonl, List.map_cons] at ih'
          rw [readPartJsonl, writePartJsonl, List.map_cons, List.map_cons,
            List.intercalate_cons_cons, List.append_assoc, textLines_line hbreak,
            List.singleton_append, textLines_newline, List.nil_append, List.mapM_cons, hread, ih',
            List.mapM_cons (f := readBack L) (a := m)]

theorem mapM_eq_map {ε α β : Type} {f : α → Except ε β} {g : α → β} {l : List α}
    (h : ∀ a ∈ l, f a = .ok (g a)) : l.mapM f = .ok (l.map g) := by
  induction l with
  | nil => rfl
  | cons a l ih =>
      rw [List.mapM_cons, h a List.mem_cons_self, ih fun b hb => h b (List.mem_cons_of_mem a hb)]
      rfl

/-- Entries with times that `dateutil` reads come back in order. -/
theorem readPartJsonl_writePartJsonl {L : ManifestLibs} (hL : L.ReadsTimes)
    {ms : List ManifestObjectMetadata} (h : ∀ m ∈ ms, m.Readable) :
    readPartJsonl L (writePartJsonl L ms) =
      .ok (ms.map fun m => (m.toObjectMetadata, some m.physicalPath)) := by
  rw [readPartJsonl_eq_mapM L fun m hm => (h m hm).dict]
  exact mapM_eq_map fun m hm => readBack_of_readsTimes hL (h m hm)

end MultiStorageClient
