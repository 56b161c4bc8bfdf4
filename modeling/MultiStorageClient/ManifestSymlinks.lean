/-
MultiStorageClient/ManifestSymlinks.lean

Symlinks made through a client with a manifest (`SingleStorageClient.make_symlink`)
and the queries of `ManifestMetadataProvider` that meet them afterwards:
`get_object_metadata`, `list_objects` and `realpath`.

`make_symlink` hands `add_file` a plain `ObjectMetadata`.  The copy of it that is
filed has every field but the symlink target, so a committed symlink is a regular
file at its own path.
-/
import MultiStorageClient.SymlinkChains

namespace MultiStorageClient

/-- `AWARE_DATETIME_MIN`: the first of January of the year 1. -/
def awareDatetimeMin : ℤ := -62135596800000000

namespace ManifestMetadataProvider

variable (p : ManifestMetadataProvider)

/-! ### Queries -/

/-- `_get_directory_metadata` -/
def getDirectoryMetadata (path : PyStr) (includePending : Bool) : Except PyError ObjectMetadata :=
  let dirPrefix := PyStr.rstrip '/' path ++ ['/']
  let hasCommitted := p.files.entries.any fun e =>
    e.1.startswith dirPrefix && (!includePending || e.1 ∉ p.pendingRemoves)
  let hasPending := includePending && p.pendingAdds.entries.any fun e => e.1.startswith dirPrefix
  if !hasCommitted && !hasPending then
    .error (.fileNotFoundError ("Object ".toList ++ path ++ " does not exist.".toList))
  else
    .ok
      { key := dirPrefix, type := .directory, contentLength := 0, lastModified := awareDatetimeMin }

/-- `ManifestMetadataProvider.get_object_metadata` -/
def getObjectMetadata (path : PyStr) (includePending : Bool := false) :
    Except PyError FileMetadata :=
  match p.files.get? path, p.pendingAdds.get? path with
  | some m, _ =>
      if includePending ∧ path ∈ p.pendingRemoves then
        .error (.fileNotFoundError ("Object ".toList ++ path ++ " does not exist.".toList))
      else .ok (.manifest m)
  | none, some m =>
      if includePending then .ok (.manifest m)
      else (p.getDirectoryMetadata path includePending).map .plain
  | none, none => (p.getDirectoryMetadata path includePending).map .plain

/-- `ManifestMetadataProvider.list_objects`, without directories; `evaluator` is
the attribute filter. -/
def listObjects (path : PyStr) (startAfter endAt : Option PyStr)
    (evaluator : Option (ManifestObjectMetadata → Bool)) :
    Except PyError (List ManifestObjectMetadata) :=
  if startAfter.any fun a => endAt.any fun b => !decide (a < b) then
    .error (.valueError ("start_after (".toList ++ startAfter.getD [] ++
      ") must be before end_at (".toList ++ endAt.getD [] ++ ")!".toList))
  else
    let path := if path ≠ [] ∧ ¬path.endswith '/' then path ++ ['/'] else path
    let keys := (p.files.entries.filter fun e =>
      e.1.startswith path && e.2.type != .directory && startAfter.all (· < e.1) &&
        endAt.all (e.1 ≤ ·) && evaluator.all (· e.2)).map Prod.fst
    .ok ((keys.mergeSort (· ≤ ·)).filterMap p.files.get?)

end ManifestMetadataProvider

/-! ### The client -/

/-- `SingleStorageClient.make_symlink` with a manifest, at the time `now`. -/
def makeSymlink (p : ManifestMetadataProvider) (cwd : PyStr) (now : ℤ) (path target : PyStr) :
    Except PyError ManifestMetadataProvider :=
  let add := do
    let symlinkTarget ← encodeSymlinkTarget cwd path target
    p.addFile path (.plain
      { key := path, contentLength := 0, lastModified := now, symlinkTarget := some symlinkTarget })
  match p.getObjectMetadata path with
  | .ok _ =>
      if !p.allowOverwrites then
        .error (.fileExistsError ("The file at path '".toList ++ path ++
          "' already exists; overwriting is not allowed when using a metadata provider.".toList))
      else add
  | .error (.fileNotFoundError _) => add
  | .error e => .error e

/-- The symlink that was asked for, in the committed manifest. -/
structure SymlinkKept (p committed : ManifestMetadataProvider) (cwd link target : PyStr) :
    Prop where
  resolved : ∃ m, p.files.get? target = some m ∧
    committed.realpath link = .ok { physicalPath := m.physicalPath, state := .exists }
  listed : ∃ entries entry s, committed.listObjects [] none none none = .ok entries ∧
    entry ∈ entries ∧ entry.key = link ∧ encodeSymlinkTarget cwd link target = .ok s ∧
    entry.symlinkTarget = some s

section MakeSymlink

variable {p linked committed : ManifestMetadataProvider} {cwd link target path : PyStr} {now : ℤ}
  {σ : Type*}
  {write : ManifestMetadataProvider → List ManifestObjectMetadata → σ → Option PyError × σ}
  {st st' : σ} {e : Option PyError}

/-- A listed entry is the one filed under its key. -/
theorem get?_of_listObjects {startAfter endAt : Option PyStr}
    {evaluator : Option (ManifestObjectMetadata → Bool)} {entries : List ManifestObjectMetadata}
    {entry : ManifestObjectMetadata}
    (h : p.listObjects path startAfter endAt evaluator = .ok entries)
    (hm : entry ∈ entries) : p.files.get? entry.key = some entry := by
  unfold ManifestMetadataProvider.listObjects at h
  split at h
  · cases h
  · rw [← Except.ok.inj h] at hm
    obtain ⟨key, -, hget⟩ := List.mem_filterMap.mp hm
    rwa [p.key_of_files key entry hget]

/-- What is not found is not in the manifest. -/
theorem get?_of_getObjectMetadata {msg : PyStr}
    (h : p.getObjectMetadata path = .error (.fileNotFoundError msg)) :
      p.files.get? path = none := by
  unfold ManifestMetadataProvider.getObjectMetadata at h
  split at h
  next m hget =>
    rw [if_neg (by simp)] at h
    cases h
  next hget _ => exact hget
  next hget _ => exact hget

/-- What `make_symlink` files: a copy without the target. -/
theorem makeSymlink_pending (h : makeSymlink p cwd now link target = .ok linked) :
    linked.pendingAdds.get? link =
        some { key := link, contentLength := 0, lastModified := now, physicalPath := link } ∧
      linked.files = p.files ∧ linked.pendingRemoves = p.pendingRemoves := by
  -- both ways of `make_symlink` add the same entry
  have hadd : ∀ {add : Except PyError ManifestMetadataProvider},
      add = (do
        let symlinkTarget ← encodeSymlinkTarget cwd link target
        p.addFile link (.plain
          { key := link, contentLength := 0, lastModified := now,
            symlinkTarget := some symlinkTarget })) → add = .ok linked →
      linked.pendingAdds.get? link =
          some { key := link, contentLength := 0, lastModified := now, physicalPath := link } ∧
        linked.files = p.files ∧ linked.pendingRemoves = p.pendingRemoves := by
    rintro _ rfl h
    cases henc : encodeSymlinkTarget cwd link target with
    | error e =>
        rw [henc] at h
        cases h
    | ok s =>
        rw [henc] at h
        have h : p.addFile link (.plain
          { key := link, contentLength := 0, lastModified := now, symlinkTarget := some s }) =
            .ok linked := h
        obtain ⟨-, -, m, hm, hadds, hfiles, hremoves, -⟩ := ManifestMetadataProvider.addFile_spec h
        refine ⟨?_, hfiles, hremoves⟩
        rw [hadds, PyDict.get?_set, if_pos rfl, ← Except.ok.inj hm]
  unfold makeSymlink at h
  dsimp only at h
  split at h
  · split at h
    · cases h
    · exact hadd rfl h
  · exact hadd rfl h
  · cases h

/-- **A symlink made in a manifest** is a regular file there after the commit. -/
theorem makeSymlink_spec {msg : PyStr}
    (hlink : p.getObjectMetadata link = .error (.fileNotFoundError msg))
    (h : makeSymlink p cwd now link target = .ok linked)
    (hc : linked.commitUpdates write st = (e, committed, st')) :
    committed.realpath link = .ok { physicalPath := link, state := .exists } ∧
      ¬SymlinkKept p committed cwd link target := by
  obtain ⟨hadd, hfiles, hremoves⟩ := makeSymlink_pending h
  have hget : committed.files.get? link =
      some { key := link, contentLength := 0, lastModified := now, physicalPath := link } := by
    have hnone := get?_of_getObjectMetadata hlink
    have hnot : link ∉ linked.pendingRemoves := by
      intro hm
      have hcontains := linked.mem_of_removes link hm
      rw [hfiles, PyDict.contains, hnone] at hcontains
      cases hcontains
    rw [(ManifestMetadataProvider.commitUpdates_spec hc).2.1,
      ManifestMetadataProvider.get?_applyPending, if_neg hnot, hadd]
    rfl
  refine ⟨?_, fun hkept => ?_⟩
  · unfold ManifestMetadataProvider.realpath maxSymlinkDepth ManifestMetadataProvider.realpathLoop
    rw [hget]
    rfl
  · obtain ⟨entries, entry, s, hlist, hm, hkey, -, htarget⟩ := hkept.listed
    have hentry := get?_of_listObjects hlist hm
    rw [hkey, hget] at hentry
    rw [← Option.some.inj hentry] at htarget
    cases htarget

end MakeSymlink

/-- A committed file. -/
def oneFileManifest : ManifestMetadataProvider where
  files := PyDict.empty.set "t".toList
    { key := "t".toList, contentLength := 1, lastModified := 0, physicalPath := "t".toList }
  manifestPath := ".msc_manifests".toList
  writable := true
  allowOverwrites := false
  key_of_files := by
    intro k m hk
    rw [PyDict.get?_set] at hk
    split at hk
    next heq => rw [← Option.some.inj hk, heq]
    next => exact absurd hk (by simp)

/-- The manifest with the symlink `l` to the file, not yet committed. -/
def linkedManifest : ManifestMetadataProvider where
  files := oneFileManifest.files
  pendingAdds := PyDict.empty.set "l".toList
    { key := "l".toList, contentLength := 0, lastModified := 5, physicalPath := "l".toList }
  manifestPath := ".msc_manifests".toList
  writable := true
  allowOverwrites := false
  key_of_files := oneFileManifest.key_of_files
  key_of_adds := by
    intro k m hk
    rw [PyDict.get?_set] at hk
    split at hk
    next heq => rw [← Option.some.inj hk, heq]
    next => exact absurd hk (by simp)

/-- A link that is made comes back as a file of its own. -/
theorem makeSymlink_oneFile :
    linkedManifest.applyPending.realpath "l".toList =
        .ok { physicalPath := "l".toList, state := .exists } ∧
      ¬SymlinkKept oneFileManifest linkedManifest.applyPending ['/'] "l".toList "t".toList := by
  have hmade : makeSymlink oneFileManifest ['/'] 5 "l".toList "t".toList = .ok linkedManifest := rfl
  have hc : linkedManifest.commitUpdates (fun _ _ (st : Unit) => (none, st)) () =
      (none, linkedManifest.applyPending, ()) := rfl
  have hmissing : oneFileManifest.getObjectMetadata "l".toList =
      .error (.fileNotFoundError "Object l does not exist.".toList) := rfl
  exact makeSymlink_spec hmissing hmade hc

/-- The commit of the one symlink resolves it to itself. -/
theorem makeSymlink_forgets :
    ¬∀ (p linked committed : ManifestMetadataProvider) (cwd link target msg : PyStr) (now : ℤ)
      (m : ManifestObjectMetadata),
      p.NothingPending → p.files.get? target = some m → m.type = .file → m.symlinkTarget = none →
      p.getObjectMetadata link = .error (.fileNotFoundError msg) →
      makeSymlink p cwd now link target = .ok linked →
      linked.commitUpdates (fun _ _ (st : Unit) => (none, st)) () = (none, committed, ()) →
      SymlinkKept p committed cwd link target := by
  intro h
  have hkept := h oneFileManifest linkedManifest linkedManifest.applyPending ['/'] "l".toList
    "t".toList "Object l does not exist.".toList 5 _ (by decide) rfl rfl rfl rfl rfl rfl
  obtain ⟨m, hm, hreal⟩ := hkept.resolved
  have htarget : m.physicalPath = "t".toList := by
    rw [← Option.some.inj hm]
  have hlink : linkedManifest.applyPending.realpath "l".toList =
      .ok { physicalPath := "l".toList, state := .exists } := rfl
  rw [hlink, htarget] at hreal
  exact absurd (congrArg ResolvedPath.physicalPath (Except.ok.inj hreal)) (by decide)

end MultiStorageClient
