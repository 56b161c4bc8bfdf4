/-
MultiStorageClient/ManifestMetadata.lean

`ManifestMetadataProvider`: the committed file map, the changes that wait for
the next commit, and the calls that modify them
(`providers/manifest_metadata.py`, `providers/manifest_object_metadata.py`).

The provider is a structure whose fields state what its code keeps true by
construction: every entry is filed under its own key, and only committed
paths wait for removal, so that the `pop` of a commit never misses.  Where
the manifest is written, and with which outcome, is a parameter of
`commitUpdates`: what it does to the maps does not depend on the storage.
-/
import MultiStorageClient.ObjectMetadata
import MultiStorageClient.PyDict

namespace MultiStorageClient

/-! ### Data -/

/-- The exceptions of the metadata provider and of its storage. -/
inductive PyError
  | runtimeError (msg : PyStr)
  | fileExistsError (msg : PyStr)
  | fileNotFoundError (msg : PyStr)
  | valueError (msg : PyStr)
  | keyError (key : PyStr)
  | typeError
  | notImplementedError (msg : PyStr)
  /-- raised by the storage, with its own text -/
  | storageError (msg : PyStr)
  deriving DecidableEq

/-- `ManifestObjectMetadata`: `__post_init__` leaves no entry without a
physical path. -/
structure ManifestObjectMetadata extends ObjectMetadata where
  physicalPath : PyStr

/-- The metadata argument of `add_file`: one of the two dataclasses. -/
inductive FileMetadata
  | plain (m : ObjectMetadata)
  | manifest (m : ManifestObjectMetadata)

/-- The formats of a manifest part. -/
inductive ManifestFormat
  | jsonl
  | parquet
  deriving DecidableEq

/-- The entry that `add_file` files for `path`: a manifest entry has to carry
the path as its key, a plain one is copied, its key being the physical path. -/
def FileMetadata.toManifest (path : PyStr) : FileMetadata → Except PyError ManifestObjectMetadata
  | .manifest m =>
      if m.key ≠ path then
        .error (.valueError
          ("Logical path mismatch: expected ".toList ++ path ++ ", got ".toList ++ m.key))
      else .ok m
  | .plain m => .ok
      { key := path
        contentLength := m.contentLength
        lastModified := m.lastModified
        contentType := m.contentType
        etag := m.etag
        metadata := m.metadata
        type := m.type
        physicalPath := m.key }

/-- The entry has the path as its key. -/
theorem FileMetadata.key_toManifest {path : PyStr} {md : FileMetadata}
    {m : ManifestObjectMetadata} (h : md.toManifest path = .ok m) : m.key = path := by
  cases md with
  | plain m' =>
      simp only [toManifest, Except.ok.injEq] at h
      rw [← h]
  | manifest m' =>
      by_cases hk : m'.key = path
      · simp only [toManifest, hk, ne_eq, not_true_eq_false, if_false, Except.ok.injEq] at h
        rw [← h, hk]
      · simp [toManifest, hk] at h

theorem key_of_no_adds (k : PyStr) (m : ManifestObjectMetadata)
    (h : (PyDict.empty : PyDict PyStr ManifestObjectMetadata).get? k = some m) : m.key = k := by
  simp at h

theorem mem_of_no_removes (k : PyStr) (h : k ∈ ([] : List PyStr)) :
    (PyDict.empty : PyDict PyStr ManifestObjectMetadata).contains k = true := by
  simp at h

/-- The provider. -/
structure ManifestMetadataProvider where
  files : PyDict PyStr ManifestObjectMetadata
  pendingAdds : PyDict PyStr ManifestObjectMetadata := PyDict.empty
  /-- a set, listed in the order of insertion -/
  pendingRemoves : List PyStr := []
  manifestPath : PyStr
  writable : Bool
  allowOverwrites : Bool
  format : ManifestFormat := .jsonl
  key_of_files : ∀ k m, files.get? k = some m → m.key = k
  key_of_adds : ∀ k m, pendingAdds.get? k = some m → m.key = k := by exact key_of_no_adds
  mem_of_removes : ∀ k ∈ pendingRemoves, files.contains k = true := by simp

namespace ManifestMetadataProvider

/-! ### Calls -/

/-- `ManifestMetadataProvider.add_file` -/
def addFile (p : ManifestMetadataProvider) (path : PyStr) (md : FileMetadata) :
    Except PyError ManifestMetadataProvider :=
  if !p.writable then
    .error (.runtimeError
      ("Manifest update support not enabled in configuration. Attempted to add ".toList ++ path ++
        ".".toList))
  else if !p.allowOverwrites && p.files.contains path then
    .error (.fileExistsError
      ("File ".toList ++ path ++ " already exists and overwrites are not allowed.".toList))
  else
    match h : md.toManifest path with
    | .error e => .error e
    | .ok m => .ok { p with
        pendingAdds := p.pendingAdds.set path m
        key_of_adds := by
          intro k m' hk
          rw [PyDict.get?_set] at hk
          split at hk
          · next he =>
              rw [he, ← Option.some.inj hk]
              exact FileMetadata.key_toManifest h
          · exact p.key_of_adds k m' hk }

/-- `ManifestMetadataProvider.remove_file` -/
def removeFile (p : ManifestMetadataProvider) (path : PyStr) :
    Except PyError ManifestMetadataProvider :=
  if !p.writable then
    .error (.runtimeError
      ("Manifest update support not enabled in configuration. Attempted to remove ".toList ++
        path ++
        ".".toList))
  else if h : p.files.contains path = true then
    .ok { p with
      pendingRemoves :=
        if path ∈ p.pendingRemoves then p.pendingRemoves else p.pendingRemoves ++ [path]
      mem_of_removes := by
        intro k hk
        split at hk
        · exact p.mem_of_removes k hk
        · rcases List.mem_append.mp hk with hk | hk
          · exact p.mem_of_removes k hk
          · rwa [List.mem_singleton.mp hk] }
  else .error (.fileNotFoundError ("Object ".toList ++ path ++ " does not exist.".toList))

/-- The maps after a commit: the pending adds are merged first, the pending
removals are popped afterwards. -/
def applyPending (p : ManifestMetadataProvider) : ManifestMetadataProvider := { p with
  files := p.pendingRemoves.foldl PyDict.pop (p.files.update p.pendingAdds)
  pendingAdds := PyDict.empty
  pendingRemoves := []
  key_of_files := by
    intro k m hk
    rw [PyDict.get?_foldl_pop] at hk
    split at hk
    · exact absurd hk (by simp)
    · rw [PyDict.get?_update] at hk
      rcases Option.or_eq_some_iff.mp hk with hk | ⟨-, hk⟩
      · exact p.key_of_adds k m hk
      · exact p.key_of_files k m hk
  key_of_adds := by simp
  mem_of_removes := by simp }

/-- No change waits for a commit. -/
def NothingPending (p : ManifestMetadataProvider) : Prop :=
  p.pendingAdds.isEmpty = true ∧ p.pendingRemoves = []

instance (p : ManifestMetadataProvider) : Decidable p.NothingPending :=
  inferInstanceAs (Decidable (_ ∧ _))

/-- `ManifestMetadataProvider.commit_updates`.  `write` stands for
`_write_manifest_files` on the storage `st`: the exception it raises, if any,
and the storage it leaves. -/
def commitUpdates {σ : Type*}
    (write : ManifestMetadataProvider → List ManifestObjectMetadata → σ → Option PyError × σ)
    (p : ManifestMetadataProvider) (st : σ) : Option PyError × ManifestMetadataProvider × σ :=
  if p.NothingPending then (none, p, st)
  else
    let p' := p.applyPending
    let (e, st') := write p' p'.files.values st
    (e, p', st')

/-! ### What the calls do to the maps -/

/-- `add_file` notes one addition and nothing else. -/
theorem addFile_spec {p p' : ManifestMetadataProvider} {path : PyStr} {md : FileMetadata}
    (h : p.addFile path md = .ok p') :
    p.writable = true ∧ (p.allowOverwrites = true ∨ p.files.get? path = none) ∧
      ∃ m, md.toManifest path = .ok m ∧ p'.pendingAdds = p.pendingAdds.set path m ∧
        p'.files = p.files ∧ p'.pendingRemoves = p.pendingRemoves ∧ p'.writable = p.writable ∧
        p'.allowOverwrites = p.allowOverwrites ∧ p'.manifestPath = p.manifestPath ∧
        p'.format = p.format := by
  rw [addFile] at h
  split at h
  · cases h
  · next hw =>
      split at h
      · cases h
      · next ho =>
          have ho' : p.allowOverwrites = true ∨ p.files.get? path = none := by
            cases ha : p.allowOverwrites
            · rw [ha] at ho
              right
              simpa [PyDict.contains] using ho
            · exact .inl rfl
          split at h
          · cases h
          · next m hm =>
              cases h
              exact ⟨by simpa using hw, ho', m, hm, rfl, rfl, rfl, rfl, rfl, rfl, rfl⟩

/-- `add_file` goes through where the path is new or may be overwritten. -/
theorem addFile_isOk {p : ManifestMetadataProvider} {path : PyStr} {md : FileMetadata}
    (hw : p.writable = true) (ho : p.allowOverwrites = true ∨ p.files.get? path = none)
    {m : ManifestObjectMetadata} (hm : md.toManifest path = .ok m) :
    ∃ p', p.addFile path md = .ok p' := by
  have ho' : (!p.allowOverwrites && p.files.contains path) = false := by
    rcases ho with ho | ho
    · simp [ho]
    · simp [PyDict.contains, ho]
  rw [addFile]
  simp only [hw, ho', Bool.not_true, Bool.false_eq_true, if_false]
  split
  · next e he =>
      rw [hm] at he
      cases he
  · exact ⟨_, rfl⟩

theorem removeFile_isOk {p : ManifestMetadataProvider} {path : PyStr} (hw : p.writable = true)
    (hc : p.files.contains path = true) : ∃ p', p.removeFile path = .ok p' := by
  rw [removeFile]
  simp only [hw, hc, Bool.not_true, Bool.false_eq_true, if_false, dite_true]
  exact ⟨_, rfl⟩

/-- `remove_file` notes one removal and nothing else. -/
theorem removeFile_spec {p p' : ManifestMetadataProvider} {path : PyStr}
    (h : p.removeFile path = .ok p') :
    p.writable = true ∧ p.files.contains path = true ∧
      (∀ k, k ∈ p'.pendingRemoves ↔ k = path ∨ k ∈ p.pendingRemoves) ∧
      p'.files = p.files ∧ p'.pendingAdds = p.pendingAdds ∧ p'.writable = p.writable ∧
      p'.allowOverwrites = p.allowOverwrites ∧ p'.manifestPath = p.manifestPath ∧
      p'.format = p.format := by
  rw [removeFile] at h
  split at h
  · cases h
  · next hw =>
      split at h
      · next hc =>
          cases h
          refine ⟨by simpa using hw, hc, fun k => ?_, rfl, rfl, rfl, rfl, rfl, rfl⟩
          show k ∈ ite _ _ _ ↔ _
          split
          · next hm => exact ⟨.inr, fun hk => hk.elim (fun e => e ▸ hm) id⟩
          · rw [List.mem_append, List.mem_singleton, or_comm]
      · cases h

theorem get?_applyPending (p : ManifestMetadataProvider) (path : PyStr) :
    p.applyPending.files.get? path =
      if path ∈ p.pendingRemoves then none
      else (p.pendingAdds.get? path).or (p.files.get? path) := by
  show (p.pendingRemoves.foldl PyDict.pop (p.files.update p.pendingAdds)).get? path = _
  rw [PyDict.get?_foldl_pop, PyDict.get?_update]
  by_cases h : path ∈ p.pendingRemoves
  · simp [h]
  · simp [h]

/-- With nothing pending, a commit would leave the map as it is. -/
theorem NothingPending.get?_applyPending {p : ManifestMetadataProvider} (h : p.NothingPending)
    (path : PyStr) : p.applyPending.files.get? path = p.files.get? path := by
  rw [ManifestMetadataProvider.get?_applyPending, h.2, PyDict.isEmpty_iff.mp h.1]
  simp

theorem nothingPending_applyPending (p : ManifestMetadataProvider) :
    p.applyPending.NothingPending := ⟨rfl, rfl⟩

theorem commitUpdates_of_nothingPending {σ : Type*}
    (write : ManifestMetadataProvider → List ManifestObjectMetadata → σ → Option PyError × σ)
    {p : ManifestMetadataProvider} (h : p.NothingPending) (st : σ) :
    p.commitUpdates write st = (none, p, st) := by
  rw [commitUpdates, if_pos h]

theorem commitUpdates_of_pending {σ : Type*}
    (write : ManifestMetadataProvider → List ManifestObjectMetadata → σ → Option PyError × σ)
    {p : ManifestMetadataProvider} (h : ¬ p.NothingPending) (st : σ) :
    p.commitUpdates write st =
      ((write p.applyPending p.applyPending.files.values st).1, p.applyPending,
        (write p.applyPending p.applyPending.files.values st).2) := by
  rw [commitUpdates, if_neg h]

/-- A commit leaves nothing pending, also when the write of the manifest
raises, and files every pending change. -/
theorem commitUpdates_spec {σ : Type*}
    {write : ManifestMetadataProvider → List ManifestObjectMetadata → σ → Option PyError × σ}
    {p p' : ManifestMetadataProvider} {st st' : σ} {e : Option PyError}
    (h : p.commitUpdates write st = (e, p', st')) :
    p'.NothingPending ∧
      (∀ path, p'.files.get? path = p.applyPending.files.get? path) ∧
      p'.writable = p.writable ∧ p'.allowOverwrites = p.allowOverwrites ∧
      p'.manifestPath = p.manifestPath ∧ p'.format = p.format := by
  by_cases hn : p.NothingPending
  · rw [commitUpdates_of_nothingPending write hn] at h
    cases h
    exact ⟨hn, fun path => (hn.get?_applyPending path).symm, rfl, rfl, rfl, rfl⟩
  · rw [commitUpdates_of_pending write hn] at h
    cases h
    exact ⟨nothingPending_applyPending p, fun _ => rfl, rfl, rfl, rfl, rfl⟩

end ManifestMetadataProvider

end MultiStorageClient
