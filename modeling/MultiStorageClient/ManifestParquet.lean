/-
MultiStorageClient/ManifestParquet.lean

The Parquet part files of a manifest (`ParquetManifestFormatHandler` in
`providers/manifest_formats.py`) beside the JSONL ones.

A row has five columns; what an entry has beyond them is gone after a round
trip.  Both formats return a list of entries if and only if each entry lives in
the five columns, its time is one that `dateutil` reads back from `to_dict`, and
`pyarrow` writes the table.
-/
import MultiStorageClient.ManifestPersistence

namespace MultiStorageClient

/-- `t.isoformat()`, which writes microseconds only when there are any. -/
def UtcDatetime.isoformatFull (t : UtcDatetime) : PyStr :=
  digits 4 t.year ++ '-' :: (digits 2 t.month ++ '-' :: (digits 2 t.day ++ 'T' ::
    (digits 2 t.hour ++ ':' :: (digits 2 t.minute ++ ':' :: (digits 2 t.second ++
      ((if t.microsecond = 0 then [] else '.' :: digits 6 t.microsecond) ++ "+00:00".toList))))))

/-- A row of the table, with its columns. -/
structure ParquetRow where
  key : PyStr
  sizeBytes : ℕ
  lastModified : PyStr
  metadata : Option PyStr
  /-- none when the table has no such column -/
  physicalPath : Option PyStr

/-- The functions of `pyarrow` and `dateutil` that the handler uses.  `β` is the
content of a Parquet file. -/
structure ParquetLibs (β : Type) where
  writeTable : List ParquetRow → Except PyError β
  readTable : β → Except PyError (List ParquetRow)
  isoparse : PyStr → Option ℤ

/-- `pyarrow` reads the table that it has written, and `isoparse` reads the text
of `isoformat`. -/
structure ParquetLibs.Faithful {β : Type} (pa : ParquetLibs β) : Prop where
  readTable : ∀ rows content, pa.writeTable rows = .ok content → pa.readTable content = .ok rows
  isoparse : ∀ t : UtcDatetime, pa.isoparse t.isoformatFull = some t.timestamp

/-! ### The handler -/

/-- The row that `write_part` makes of an entry. -/
def parquetRow (L : ManifestLibs) (m : ManifestObjectMetadata) : ParquetRow where
  key := m.key
  sizeBytes := m.contentLength
  lastModified :=
    ((UtcDatetime.ofTimestamp? m.lastModified).map UtcDatetime.isoformatFull).getD []
  -- an empty dictionary is as good as none
  metadata := (m.metadata.filter (· ≠ [])).map fun d => Json.dumps L.number (.obj d)
  physicalPath := some m.physicalPath

/-- `ParquetManifestFormatHandler.write_part` -/
def writePartParquet {β : Type} (L : ManifestLibs) (pa : ParquetLibs β)
    (ms : List ManifestObjectMetadata) : Except PyError β :=
  pa.writeTable (ms.map (parquetRow L))

/-- The attributes of a row. -/
def rowMetadata (L : ManifestLibs) (row : ParquetRow) :
    Except PyError (Option (List (PyStr × Json))) :=
  match row.metadata.filter (· ≠ []) with
  | none => .ok none
  | some text =>
      match Json.loads L.number text with
      | none => .error (.valueError "Expecting value".toList)
      | some (.obj d) => .ok (some d)
      | some .null => .ok none
      | some _ => .error .typeError

/-- One row of a part: the metadata, and the `physical_path` that is set as an
attribute of it. -/
def readRow {β : Type} (L : ManifestLibs) (pa : ParquetLibs β) (row : ParquetRow) :
    Except PyError (ObjectMetadata × Option PyStr) := do
  let metadata ← rowMetadata L row
  match pa.isoparse row.lastModified with
  | none => throw (.valueError "Unused components in ISO string".toList)
  | some lastModified =>
      pure ({ key := row.key, contentLength := row.sizeBytes, lastModified, metadata },
        row.physicalPath)

/-- `ParquetManifestFormatHandler.read_part` -/
def readPartParquet {β : Type} (L : ManifestLibs) (pa : ParquetLibs β) (content : β) :
    Except PyError (List (ObjectMetadata × Option PyStr)) := do
  let table ← pa.readTable content
  table.mapM (readRow L pa)

/-! ### Round trips -/

/-- What the formats have to agree on. -/
structure ManifestFields where
  key : PyStr
  contentLength : ℕ
  lastModified : ℤ
  type : EntryType
  etag : Option PyStr
  metadata : Option (List (PyStr × Json))
  symlinkTarget : Option PyStr
  physicalPath : Option PyStr

/-- The fields of an entry that was read back. -/
def fieldsOf (m : ObjectMetadata × Option PyStr) : ManifestFields where
  key := m.1.key
  contentLength := m.1.contentLength
  lastModified := m.1.lastModified
  type := m.1.type
  etag := m.1.etag
  metadata := m.1.metadata
  symlinkTarget := m.1.symlinkTarget
  physicalPath := m.2

/-- The fields of an entry before it is written. -/
def ManifestObjectMetadata.fields (m : ManifestObjectMetadata) : ManifestFields :=
  fieldsOf (m.toObjectMetadata, some m.physicalPath)

/-- Both round trips return the entries. -/
def RoundTripsAgree {β : Type} (L : ManifestLibs) (pa : ParquetLibs β)
    (ms : List ManifestObjectMetadata) : Prop :=
  ∃ js ps content, readPartJsonl L (writePartJsonl L ms) = .ok js ∧
    writePartParquet L pa ms = .ok content ∧ readPartParquet L pa content = .ok ps ∧
    js.map fieldsOf = ms.map ManifestObjectMetadata.fields ∧
    ps.map fieldsOf = ms.map ManifestObjectMetadata.fields ∧
    js.map fieldsOf = ps.map fieldsOf

/-- An entry of the data that manifests hold: a UTC time in the range of
`datetime`, and attributes that are a dictionary. -/
structure ManifestObjectMetadata.Storable (m : ManifestObjectMetadata) : Prop where
  time : ∃ t, UtcDatetime.ofTimestamp? m.lastModified = some t
  dict : ∀ d, m.metadata = some d → (Json.obj d).WF

/-- An entry that lives in the columns of a row. -/
structure ManifestObjectMetadata.InColumns (m : ManifestObjectMetadata) : Prop where
  type : m.type = .file
  etag : m.etag = none
  symlinkTarget : m.symlinkTarget = none
  metadata : m.metadata ≠ some []

section RoundTrips

variable {β : Type} {L : ManifestLibs} {pa : ParquetLibs β} {m : ManifestObjectMetadata}
  {ms : List ManifestObjectMetadata}

/-- The attributes of a row are read back, an empty dictionary as none. -/
theorem rowMetadata_parquetRow (h : m.Storable) :
    rowMetadata L (parquetRow L m) = .ok (m.metadata.filter (· ≠ [])) := by
  have hrow : (parquetRow L m).metadata =
      (m.metadata.filter (· ≠ [])).map fun d => Json.dumps L.number (.obj d) := rfl
  rw [rowMetadata, hrow]
  cases hd : m.metadata.filter (· ≠ []) with
  | none => rfl
  | some d =>
      have hwf := h.dict d (Option.filter_eq_some_iff.mp hd).1
      obtain ⟨c, t, hc, -⟩ := Json.head_dumps L.number (.obj d)
      have hloads := Json.loads_dumps L.number hwf (w := []) (by simp)
      rw [List.append_nil] at hloads
      have hne : Json.dumps L.number (.obj d) ≠ [] := by
        rw [hc]
        exact List.cons_ne_nil _ _
      have hfilter : (some (Json.dumps L.number (.obj d))).filter (· ≠ []) =
          some (Json.dumps L.number (.obj d)) := by simp [hne]
      rw [Option.map_some, hfilter]
      dsimp only
      rw [hloads]

/-- **A row reads back**: the columns, and defaults for the rest. -/
theorem readRow_parquetRow (hpa : pa.Faithful) (h : m.Storable) :
    readRow L pa (parquetRow L m) =
      .ok ({ key := m.key, contentLength := m.contentLength, lastModified := m.lastModified,
             metadata := m.metadata.filter (· ≠ []) }, some m.physicalPath) := by
  obtain ⟨t, ht⟩ := h.time
  have htime : pa.isoparse (parquetRow L m).lastModified = some m.lastModified := by
    show pa.isoparse (((UtcDatetime.ofTimestamp? m.lastModified).map _).getD []) = _
    rw [ht]
    exact (hpa.isoparse t).trans (congrArg some (UtcDatetime.timestamp_ofTimestamp? ht))
  rw [readRow, rowMetadata_parquetRow h]
  show (match pa.isoparse (parquetRow L m).lastModified with
    | none => _
    | some _ => _) = _
  rw [htime]
  rfl

/-- A row keeps all fields exactly where they fit its columns. -/
theorem fields_row_iff :
    fieldsOf ({ key := m.key, contentLength := m.contentLength, lastModified := m.lastModified,
                metadata := m.metadata.filter (· ≠ []) }, some m.physicalPath) = m.fields ↔
      m.InColumns := by
  have hmetadata : m.metadata.filter (· ≠ []) = m.metadata ↔ m.metadata ≠ some [] := by
    cases m.metadata with
    | none => simp
    | some d => by_cases hd : d = [] <;> simp [hd]
  constructor
  · intro heq
    rw [ManifestObjectMetadata.fields, fieldsOf, fieldsOf, ManifestFields.mk.injEq] at heq
    obtain ⟨-, -, -, htype, hetag, hmeta, hlink, -⟩ := heq
    exact ⟨htype.symm, hetag.symm, hlink.symm, hmetadata.mp hmeta⟩
  · rintro ⟨htype, hetag, hlink, hmeta⟩
    rw [ManifestObjectMetadata.fields, fieldsOf, fieldsOf, htype, hetag, hlink,
      hmetadata.mpr hmeta]

theorem fields_readBack_iff : (∃ j, readBack L m = .ok j ∧ fieldsOf j = m.fields) ↔
    L.dateutilParse (lastModifiedText m.lastModified) = some m.lastModified := by
  unfold readBack
  cases htime : L.dateutilParse (lastModifiedText m.lastModified) with
  | none => simp
  | some z => simp [ManifestObjectMetadata.fields, fieldsOf]

/-- A list is read element by element. -/
theorem mapM_map_iff {ε α γ δ : Type} {f : α → Except ε γ} {field : γ → δ} {g : α → δ}
    {l : List α} : (∃ ys, l.mapM f = .ok ys ∧ ys.map field = l.map g) ↔
      ∀ a ∈ l, ∃ y, f a = .ok y ∧ field y = g a := by
  induction l with
  | nil => simp [pure, Except.pure]
  | cons a l ih =>
      rw [List.forall_mem_cons, ← ih, List.mapM_cons]
      cases hf : f a with
      | error e => simp [bind, Except.bind]
      | ok y =>
          cases hl : l.mapM f with
          | error e => simp [bind, Except.bind]
          | ok ys => simp [bind, Except.bind, pure, Except.pure]

/-- **Both formats return the entries** if and only if each lives in the columns
of a row, `dateutil` reads its time back, and the table is written. -/
theorem roundTripsAgree_iff (hpa : pa.Faithful) (h : ∀ m ∈ ms, m.Storable) :
    RoundTripsAgree L pa ms ↔
      (∀ m ∈ ms, m.InColumns ∧
        L.dateutilParse (lastModifiedText m.lastModified) = some m.lastModified) ∧
      ∃ content, pa.writeTable (ms.map (parquetRow L)) = .ok content := by
  have hjson : (∃ js, readPartJsonl L (writePartJsonl L ms) = .ok js ∧
      js.map fieldsOf = ms.map ManifestObjectMetadata.fields) ↔
      ∀ m ∈ ms, L.dateutilParse (lastModifiedText m.lastModified) = some m.lastModified := by
    rw [readPartJsonl_eq_mapM L fun m hm => (h m hm).dict, mapM_map_iff]
    exact forall₂_congr fun _ _ => fields_readBack_iff
  have hparquet : ∀ {content}, pa.writeTable (ms.map (parquetRow L)) = .ok content →
      ((∃ ps, readPartParquet L pa content = .ok ps ∧
        ps.map fieldsOf = ms.map ManifestObjectMetadata.fields) ↔ ∀ m ∈ ms, m.InColumns) := by
    intro content hwrite
    have hread : readPartParquet L pa content =
        ms.mapM fun m => readRow L pa (parquetRow L m) := by
      rw [readPartParquet, hpa.readTable _ _ hwrite]
      exact List.mapM_map
    rw [hread, mapM_map_iff]
    refine forall₂_congr fun m hm => ?_
    rw [readRow_parquetRow hpa (h m hm), ← fields_row_iff]
    simp
  constructor
  · rintro ⟨js, ps, content, hjs, hwrite, hps, hjs', hps', -⟩
    have htimes := hjson.mp ⟨js, hjs, hjs'⟩
    have hcolumns := (hparquet hwrite).mp ⟨ps, hps, hps'⟩
    exact ⟨fun m hm => ⟨hcolumns m hm, htimes m hm⟩, content, hwrite⟩
  · rintro ⟨hms, content, hwrite⟩
    obtain ⟨js, hjs, hjs'⟩ := hjson.mpr fun m hm => (hms m hm).2
    obtain ⟨ps, hps, hps'⟩ := (hparquet hwrite).mpr fun m hm => (hms m hm).1
    exact ⟨js, ps, content, hjs, hwrite, hps, hjs', hps', hjs'.trans hps'.symm⟩

end RoundTrips

/-! ### Libraries for a run -/

/-- The time of a text of `isoformat`. -/
def parseIso (s : PyStr) : Option ℤ := do
  let (year, s) ← parseField 4 s
  let (month, s) ← parseField 2 s
  let (day, s) ← parseField 2 s
  let (hour, s) ← parseField 2 s
  let (minute, s) ← parseField 2 s
  let second ← parseDigits (s.take 2)
  let microsecond ←
    if (s.drop 2).head? = some '.' then parseDigits ((s.drop 2).tail.take 6) else some 0
  some ((microsOf year month day hour minute second microsecond : ℤ) - epochMicros)

/-- A time in the full format is read back. -/
theorem parseIso_isoformatFull (t : UtcDatetime) : parseIso t.isoformatFull = some t.timestamp := by
  have h₁ := t.year_le
  have h₂ := t.month_le
  have h₃ := t.day_lt
  have h₄ := t.hour_lt
  have h₅ := t.minute_lt
  have h₆ := t.second_lt
  have h₇ := t.microsecond_lt
  have htake : ∀ {w n : ℕ} (r : PyStr), n < 10 ^ w →
      parseDigits ((digits w n ++ r).take w) = some n := by
    intro w n r h
    rw [List.take_append_of_le_length (by simp), List.take_of_length_le (by simp),
      parseDigits_digits h]
  have hdrop : ∀ {w n : ℕ} (r : PyStr), (digits w n ++ r).drop w = r := fun r =>
    List.drop_left' (length_digits _ _)
  rw [UtcDatetime.isoformatFull, parseIso]
  simp only [parseField_digits (show t.year < 10 ^ 4 by omega),
    parseField_digits (show t.month < 10 ^ 2 by omega),
    parseField_digits (show t.day < 10 ^ 2 by omega),
    parseField_digits (show t.hour < 10 ^ 2 by omega),
    parseField_digits (show t.minute < 10 ^ 2 by omega), Option.bind_eq_bind, Option.bind_some,
    htake _ (show t.second < 10 ^ 2 by omega), hdrop]
  by_cases hzero : t.microsecond = 0
  · rw [if_pos hzero, UtcDatetime.timestamp, UtcDatetime.micros, hzero]
    rfl
  · rw [if_neg hzero, List.cons_append, List.head?_cons, if_pos rfl, List.tail_cons,
      htake _ (show t.microsecond < 10 ^ 6 by omega)]
    rfl

/-- Tables that are kept as they are. -/
def sampleParquet : ParquetLibs (List ParquetRow) where
  writeTable rows := .ok rows
  readTable rows := .ok rows
  isoparse := parseIso

theorem sampleParquet_faithful : sampleParquet.Faithful where
  readTable := by
    rintro rows _ ⟨⟩
    rfl
  isoparse := parseIso_isoformatFull

/-- An entry at the epoch. -/
def epochEntry (symlinkTarget : Option PyStr) : ManifestObjectMetadata where
  key := "l".toList
  contentLength := 0
  lastModified := 0
  symlinkTarget := symlinkTarget
  physicalPath := "l".toList

theorem epochEntry_storable (symlinkTarget : Option PyStr) :
    (epochEntry symlinkTarget).Storable where
  time := by
    have hsome : (UtcDatetime.ofTimestamp? 0).isSome = true := by decide
    exact Option.isSome_iff_exists.mp hsome
  dict := fun _ hd => absurd hd nofun

/-- A file at the epoch comes back from both formats. -/
theorem roundTripsAgree_epoch : RoundTripsAgree sampleLibs sampleParquet [epochEntry none] := by
  have hstorable : ∀ m ∈ [epochEntry none], m.Storable :=
    List.forall_mem_singleton.mpr (epochEntry_storable none)
  refine (roundTripsAgree_iff sampleParquet_faithful hstorable).mpr ⟨?_, _, rfl⟩
  have hcolumns : (epochEntry none).InColumns := ⟨rfl, rfl, rfl, nofun⟩
  exact List.forall_mem_singleton.mpr ⟨hcolumns, by decide⟩

/-- A symlink comes back from a Parquet part as a file. -/
theorem parquet_drops_symlink :
    ¬∀ (L : ManifestLibs) (pa : ParquetLibs (List ParquetRow)) (ms : List ManifestObjectMetadata),
      L.ReadsTimes → pa.Faithful → (∀ m ∈ ms, m.Storable) → RoundTripsAgree L pa ms := by
  intro h
  obtain ⟨js, ps, content, -, hwrite, hps, -, hps', -⟩ := h sampleLibs sampleParquet
    [epochEntry (some "t".toList)] sampleLibs_readsTimes sampleParquet_faithful fun m hm => by
      rw [List.mem_singleton.mp hm]
      exact epochEntry_storable _
  have hread : readPartParquet sampleLibs sampleParquet
      [parquetRow sampleLibs (epochEntry (some "t".toList))] =
        .ok [({ key := "l".toList, contentLength := 0, lastModified := 0 }, some "l".toList)] := by
    have hrow : readRow sampleLibs sampleParquet
        (parquetRow sampleLibs (epochEntry (some "t".toList))) = _ :=
      readRow_parquetRow sampleParquet_faithful (epochEntry_storable _)
    show [parquetRow sampleLibs (epochEntry (some "t".toList))].mapM
      (readRow sampleLibs sampleParquet) = _
    rw [List.mapM_cons, hrow]
    rfl
  cases hwrite
  change readPartParquet sampleLibs sampleParquet
    [parquetRow sampleLibs (epochEntry (some "t".toList))] = .ok ps at hps
  rw [hread] at hps
  cases hps
  have hlink := congrArg (fun l => l.map ManifestFields.symlinkTarget) hps'
  exact absurd hlink (by decide)

end MultiStorageClient
