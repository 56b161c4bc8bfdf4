/-
MultiStorageClient/ClientDeletes.lean

Deletes through the client (`SingleStorageClient.delete` and `delete_many` in
`client/single.py`, with `CacheManager.delete` in `cache.py`), and what they
leave in the cache.

Reads keep the bytes of an object in the cache file of its physical path and
in chunk files beside it.  A delete unlinks one file, the cache file of the
logical path.  The two meet only where the physical path is the logical one
and no chunk has been cached.
-/
import MultiStorageClient.ClientReads
import MultiStorageClient.PosixPath

/-! ### Normal forms of paths -/

namespace PyStr

/-- `os.path.relpath(p, "/")` of an absolute path. -/
def relToRoot (p : PyStr) : PyStr :=
  let rel := List.intercalate ['/'] (normComponents true [] (p.splitOn '/')).reverse
  if rel = [] then ['.'] else rel

end PyStr

namespace MultiStorageClient

open Slice Prog

/-! ### Files of the cache directory -/

/-- `_get_cache_file_path`, relative to the cache directory of the profile. -/
def getCacheFilePath (key : PyStr) : PyStr :=
  if key.startswith ['/'] then key.relToRoot else key

/-- `_get_chunk_path` -/
def getChunkPath (cachePath : PyStr) (idx : ℕ) : PyStr :=
  PyStr.join (PyStr.dirname cachePath)
    ('.' :: (PyStr.basename cachePath ++ "#chunk".toList ++ Nat.toDigits 10 idx))

/-- Where a cache file of the object with this key lies. -/
def CachePath.location (key : PyStr) : CachePath → PyStr
  | .full => (getCacheFilePath key).normpath
  | .chunk idx => (getChunkPath (getCacheFilePath key) idx).normpath

/-- `_resolve_profile_cache_delete_path`, relative to the cache directory of
the profile, in which there are no links. -/
def resolveProfileCacheDeletePath (filePath : PyStr) : Except PyError PyStr :=
  if filePath.startswith ['/'] then
    .error (.valueError ("Cache delete path must be relative to the profile cache root: ".toList ++
      filePath))
  else if filePath.normpath = [] ∨ filePath.normpath = ['.'] then
    .error (.valueError
      "Cache delete path must reference a file under the profile cache root.".toList)
  else if filePath.normpath = "..".toList ∨ filePath.normpath.startswith "../".toList then
    .error (.valueError ("Cache delete path escapes the profile cache root: ".toList ++ filePath))
  else .ok filePath.normpath

/-- The two files that `_delete_cache_file_at_path` unlinks. -/
def unlinked (absPath : PyStr) : List PyStr :=
  [absPath, PyStr.join (PyStr.dirname absPath) ('.' :: (PyStr.basename absPath ++ ".lock".toList))]

/-! ### The code -/

/-- The calls to other parties. -/
inductive ProviderCall
  | deleteObjects (paths : List PyStr)
  | removeFile (path : PyStr)
  | deleteFromReplicas (path : PyStr)

/-- The cache files of one object, and the calls made so far. -/
structure DeleteState where
  world : ClientWorld
  calls : List ProviderCall

/-- A state that survives an exception. -/
abbrev DeleteM := EStateM PyError DeleteState

/-- What the storage answers: the type of a path, and what a deletion
raises. -/
structure DeleteAnswers where
  info : PyStr → Except PyError EntryType
  deleteObjects : List PyStr → Option PyError

/-- A call is noted. -/
def logCall (call : ProviderCall) : DeleteM Unit :=
  modify fun st => { st with calls := st.calls ++ [call] }

/-- A call that may raise. -/
def callParty (call : ProviderCall) : Option PyError → DeleteM Unit
  | none => logCall call
  | some e => throw e

/-- `delete_object` or `delete_objects` of the storage provider, if there is
something to delete. -/
def DeleteAnswers.deletePaths (answers : DeleteAnswers) (paths : List PyStr) : DeleteM Unit :=
  if paths = [] then pure () else callParty (.deleteObjects paths) (answers.deleteObjects paths)

/-- `CacheManager.delete`, as it concerns the cache files of the object with
the key `key`. -/
def deleteCached (key virtualPath : PyStr) : DeleteM Unit :=
  match resolveProfileCacheDeletePath virtualPath with
  | .error e => throw e
  | .ok absPath =>
      modify fun st => { st with world := { st.world with
        cache := st.world.cache.evict fun path => path.location key ∈ unlinked absPath } }

namespace SingleStorageClient

variable (c : SingleStorageClient) (answers : DeleteAnswers) (key : PyStr)

/-- The path under which the object is stored and cached. -/
def physicalPath (path : PyStr) : PyStr :=
  match c.metadataProvider with
  | some mp => (mp.realpath path).physicalPath
  | none => path

/-- The cache, if it is enabled. -/
def deleteFromCache (virtualPath : PyStr) : DeleteM Unit :=
  if c.enabledCache.isSome then deleteCached key virtualPath else pure ()

/-- The replicas, if there are any. -/
def deleteFromReplicas (virtualPath : PyStr) : DeleteM Unit :=
  if c.replicas ≠ 0 then logCall (.deleteFromReplicas virtualPath) else pure ()

/-- The end of `delete` and of each turn of `delete_many`. -/
def invalidate (virtualPath : PyStr) : DeleteM Unit := do
  c.deleteFromCache key virtualPath
  c.deleteFromReplicas virtualPath

/-- The part of `delete` before the cache: the object and its metadata. -/
def deleteStored (path : PyStr) : DeleteM Unit :=
  match c.metadataProvider with
  | some mp =>
      if (mp.realpath path).found then do
        answers.deletePaths (if mp.shouldUseSoftDelete then []
          else [(mp.realpath path).physicalPath])
        callParty (.removeFile path) (mp.removeFile path)
      else
        throw (.fileNotFoundError
          ("The file at path '".toList ++ path ++ "' was not found.".toList))
  | none => answers.deletePaths [path]

/-- `delete`, where `deleteTree` removes a directory by a sync with nothing. -/
def delete (deleteTree : DeleteM Unit) (path : PyStr) (recursive : Bool) : DeleteM Unit :=
  match answers.info path with
  | .error e => throw e
  | .ok .directory =>
      if recursive then deleteTree
      else throw (.valueError (("'".toList ++ path ++
        "' is a directory. Set recursive=True to delete entire directory.".toList)))
  | .ok .file => do
      c.deleteStored answers path
      c.invalidate key path

/-- The paths that `delete_many` passes to the storage provider. -/
def physicalPathsToDelete (paths : List PyStr) : List PyStr :=
  match c.metadataProvider with
  | some mp =>
      if mp.shouldUseSoftDelete then []
      else (paths.filter fun path => (mp.realpath path).found).map fun path =>
        (mp.realpath path).physicalPath
  | none => paths

/-- The metadata part of one turn of `delete_many`, for a path that was found
before anything was deleted. -/
def removeMetadata (path : PyStr) : DeleteM Unit :=
  match c.metadataProvider with
  | some mp =>
      if (mp.realpath path).found then callParty (.removeFile path) (mp.removeFile path)
      else pure ()
  | none => pure ()

/-- `delete_many` -/
def deleteMany (paths : List PyStr) : DeleteM Unit := do
  answers.deletePaths (c.physicalPathsToDelete paths)
  paths.forM fun path => do
    c.removeMetadata path
    c.invalidate key path

end SingleStorageClient

/-! ### What a delete leaves in the cache -/

theorem bind_eq_ok {α β : Type} {x : DeleteM α} {f : α → DeleteM β} {st st'' : DeleteState} {b : β}
    (h : (x >>= f) st = .ok b st'') : ∃ a st', x st = .ok a st' ∧ f a st' = .ok b st'' := by
  change EStateM.bind x f st = _ at h
  unfold EStateM.bind at h
  rcases hx : x st with ⟨a, st'⟩ | ⟨e, st'⟩
  · rw [hx] at h
    exact ⟨a, st', rfl, h⟩
  · rw [hx] at h
    cases h

/-- The files of an object that the deletes of some logical paths unlink. -/
def unlinkedBy (key : PyStr) (paths : List PyStr) (path : CachePath) : Prop :=
  ∃ v ∈ paths, ∃ absPath, resolveProfileCacheDeletePath v = .ok absPath ∧
    path.location key ∈ unlinked absPath

/-- The cache files of a state are those of another without the ones in `gone`. -/
def Without (gone : CachePath → Prop) (st st' : DeleteState) : Prop :=
  ∀ path f, st'.world.cache.files path = some f ↔ st.world.cache.files path = some f ∧ ¬ gone path

theorem Without.refl (st : DeleteState) : Without (fun _ => False) st st := by
  intro path f
  simp

theorem Without.trans {g g' : CachePath → Prop} {st st' st'' : DeleteState}
    (h : Without g st st') (h' : Without g' st' st'') :
    Without (fun path => g path ∨ g' path) st st'' := by
  intro path f
  rw [h' path f, h path f, not_or, and_assoc]

theorem Without.congr {g g' : CachePath → Prop} {st st' : DeleteState} (h : Without g st st')
    (hg : ∀ path, g path ↔ g' path) : Without g' st st' := by
  intro path f
  rw [h path f, hg path]

/-- Calls to other parties leave the cache files alone. -/
theorem callParty_ok {call : ProviderCall} {e : Option PyError} {st st' : DeleteState}
    (h : callParty call e st = .ok () st') : Without (fun _ => False) st st' := by
  cases e with
  | none =>
      cases h
      exact Without.refl st
  | some e => cases h

variable {key : PyStr}

/-- The deletion in the cache unlinks the file under the key, and nothing else. -/
theorem deleteCached_ok {v : PyStr} {st st' : DeleteState}
    (h : deleteCached key v st = .ok () st') :
    Without (unlinkedBy key [v]) st st' := by
  unfold deleteCached at h
  rcases hr : resolveProfileCacheDeletePath v with e | absPath
  · rw [hr] at h
    cases h
  · rw [hr] at h
    cases h
    intro path f
    have hgone : unlinkedBy key [v] path ↔ path.location key ∈ unlinked absPath := by
      simp [unlinkedBy, hr]
    rw [hgone]
    show (if decide _ = true then none else st.world.cache.files path) = some f ↔ _
    by_cases hmem : path.location key ∈ unlinked absPath
    · simp [hmem]
    · simp [hmem]

namespace SingleStorageClient

variable {c : SingleStorageClient} {answers : DeleteAnswers}

theorem deleteFromReplicas_ok {v : PyStr} {st st' : DeleteState}
    (h : c.deleteFromReplicas v st = .ok () st') : Without (fun _ => False) st st' := by
  unfold deleteFromReplicas at h
  split at h
  · exact callParty_ok (e := none) h
  · cases h
    exact Without.refl st

theorem invalidate_ok (hc : c.enabledCache.isSome) {v : PyStr} {st st' : DeleteState}
    (h : c.invalidate key v st = .ok () st') : Without (unlinkedBy key [v]) st st' := by
  obtain ⟨⟨⟩, st₁, h₁, h₂⟩ := bind_eq_ok h
  unfold deleteFromCache at h₁
  rw [if_pos hc] at h₁
  exact ((deleteCached_ok h₁).trans (deleteFromReplicas_ok h₂)).congr fun _ => by simp

theorem deletePaths_ok {paths : List PyStr} {st st' : DeleteState}
    (h : answers.deletePaths paths st = .ok () st') : Without (fun _ => False) st st' := by
  unfold DeleteAnswers.deletePaths at h
  split at h
  · cases h
    exact Without.refl st
  · exact callParty_ok h

/-- The deletion in the storage leaves the cache alone. -/
theorem deleteStored_ok {path : PyStr} {st st' : DeleteState}
    (h : c.deleteStored answers path st = .ok () st') : Without (fun _ => False) st st' := by
  unfold deleteStored at h
  rcases hmp : c.metadataProvider with - | mp
  · rw [hmp] at h
    exact deletePaths_ok h
  · rw [hmp] at h
    dsimp only at h
    split at h
    · obtain ⟨⟨⟩, st₁, h₁, h₂⟩ := bind_eq_ok h
      exact ((deletePaths_ok h₁).trans (callParty_ok h₂)).congr fun _ => by simp
    · cases h

/-- The removal in the metadata provider leaves the cache alone. -/
theorem removeMetadata_ok {path : PyStr} {st st' : DeleteState}
    (h : c.removeMetadata path st = .ok () st') : Without (fun _ => False) st st' := by
  unfold removeMetadata at h
  rcases hmp : c.metadataProvider with - | mp
  · rw [hmp] at h
    cases h
    exact Without.refl st
  · rw [hmp] at h
    dsimp only at h
    split at h
    · exact callParty_ok h
    · cases h
      exact Without.refl st

/-- The loop of `delete_many`. -/
theorem invalidateAll_ok (hc : c.enabledCache.isSome) {paths : List PyStr} {st st' : DeleteState}
    (h : (paths.forM fun path => do
      c.removeMetadata path
      c.invalidate key path) st = .ok () st') : Without (unlinkedBy key paths) st st' := by
  induction paths generalizing st with
  | nil =>
      cases h
      exact (Without.refl _).congr fun _ => by simp [unlinkedBy]
  | cons v vs ih =>
      obtain ⟨⟨⟩, st₂, h₂, h₃⟩ := bind_eq_ok h
      obtain ⟨⟨⟩, st₁, h₁, h₁'⟩ := bind_eq_ok h₂
      refine (((removeMetadata_ok h₁).trans (invalidate_ok hc h₁')).trans (ih h₃)).congr fun _ => ?_
      simp [unlinkedBy]

end SingleStorageClient

/-! ### Deleted paths -/

/-- A call of `delete` on a file, or of `delete_many`. -/
inductive Deletion
  | delete (path : PyStr)
  | deleteMany (paths : List PyStr)

namespace Deletion

/-- The logical paths that are deleted. -/
def paths : Deletion → List PyStr
  | .delete path => [path]
  | .deleteMany paths => paths

/-- The storage knows the path of a `delete` as a file. -/
def OfFile (answers : DeleteAnswers) : Deletion → Prop
  | .delete path => answers.info path = .ok .file
  | .deleteMany _ => True

/-- `delete` or `delete_many`, with the deletion of a tree as a parameter. -/
def exec (c : SingleStorageClient) (answers : DeleteAnswers) (key : PyStr)
    (deleteTree : DeleteM Unit) : Deletion → DeleteM Unit
  | .delete path => c.delete answers key deleteTree path false
  | .deleteMany paths => c.deleteMany answers key paths

variable {c : SingleStorageClient} {answers : DeleteAnswers} {deleteTree : DeleteM Unit}

/-- **A delete** removes from the cache what it unlinks, and nothing else. -/
theorem exec_ok (hc : c.enabledCache.isSome) {d : Deletion} (hd : d.OfFile answers)
    {st st' : DeleteState} (h : d.exec c answers key deleteTree st = .ok () st') :
    Without (unlinkedBy key d.paths) st st' := by
  cases d with
  | delete path =>
      have hfile : answers.info path = .ok .file := hd
      change c.delete answers key deleteTree path false st = _ at h
      unfold SingleStorageClient.delete at h
      rw [hfile] at h
      obtain ⟨⟨⟩, st₁, h₁, h₂⟩ := bind_eq_ok h
      exact ((SingleStorageClient.deleteStored_ok h₁).trans
        (SingleStorageClient.invalidate_ok hc h₂)).congr fun _ => by simp [paths]
  | deleteMany paths =>
      obtain ⟨⟨⟩, st₁, h₁, h₂⟩ := bind_eq_ok h
      exact ((SingleStorageClient.deletePaths_ok h₁).trans
        (SingleStorageClient.invalidateAll_ok hc h₂)).congr fun _ => by simp [Deletion.paths]

/-- No later read finds anything in a cache without files. -/
theorem reads_after_clear {cache : ClientCache} (hc : c.enabledCache = some cache) {w : ClientWorld}
    (hw : ∀ x, w.cache.files x = none) (source : SourceObject) (later : List ClientCall)
    (k : ClientCall) {data : List UInt8}
    (hk : (k.exec c source (afterReads c source later w)).1 = .ok data) :
    data = requested (k.byteRange.map (·.1)) source.content := by
  have hok : CacheOk source c.lineSize w := by
    refine ⟨fun path f hf => ?_, fun i _ f hf => ?_⟩
    · rw [hw path] at hf
      cases hf
    · rw [hw (.chunk i)] at hf
      cases hf
  rw [(k.exec_spec (cacheOk_afterReads later hok)).2 data hk]
  exact SingleStorageClient.returned_of_cache hc _

/-- **A deleted path leaves nothing in the cache**, and later reads return
the content with which it is created anew, exactly when every cache file of
its physical path is one of those that the delete unlinks. -/
theorem clears_cache_iff (c : SingleStorageClient) {cache : ClientCache}
    (hc : c.enabledCache = some cache) (source : SourceObject) (xattrs : Bool)
    (before : List ClientCall) (path : PyStr) {d : Deletion} (hd : d.OfFile answers)
    {calls : List ProviderCall} {st' : DeleteState}
    (h : d.exec c answers (c.physicalPath path) deleteTree
      ⟨afterReads c source before (emptyClient xattrs), calls⟩ = .ok () st') :
    ((∀ x, st'.world.cache.files x = none) ∧
        ∀ (source' : SourceObject) (later : List ClientCall) (k : ClientCall) (data : List UInt8),
          (k.exec c source' (afterReads c source' later st'.world)).1 = .ok data →
            data = requested (k.byteRange.map (·.1)) source'.content) ↔
      ∀ x f, (afterReads c source before (emptyClient xattrs)).cache.files x = some f →
        unlinkedBy (c.physicalPath path) d.paths x := by
  have hleft := exec_ok (by rw [hc]; rfl) hd h
  constructor
  · rintro ⟨hnone, -⟩ x f hf
    by_contra hstays
    have hf' := (hleft x f).mpr ⟨hf, hstays⟩
    rw [hnone x] at hf'
    cases hf'
  · intro hall
    have hnone : ∀ x, st'.world.cache.files x = none := by
      intro x
      rcases hf : st'.world.cache.files x with - | f
      · rfl
      · obtain ⟨hold, hstays⟩ := (hleft x f).mp hf
        exact absurd (hall x f hold) hstays
    exact ⟨hnone, fun source' later k data hk => reads_after_clear hc hnone source' later k hk⟩

end Deletion

/-! ### Examples -/

/-- A client with a cache of line size 4 that does not check versions. -/
def uncheckedClient : SingleStorageClient where
  cacheManager := some ⟨.ofFour, false⟩
  isPosix := false
  metadataProvider := none
  replicas := 0

/-- A storage in which every path is a file and nothing raises. -/
def willingStorage : DeleteAnswers := ⟨fun _ => .ok .file, fun _ => none⟩

/-- The path of `plainRead` is deleted. -/
def deleteA (w : ClientWorld) : EStateM.Result PyError DeleteState Unit :=
  (Deletion.delete "a".toList).exec uncheckedClient willingStorage
    (uncheckedClient.physicalPath "a".toList) (pure ()) ⟨w, []⟩

/-- What has been read in full is gone after the delete. -/
theorem delete_clears_full_read :
    ∃ st', deleteA (afterReads uncheckedClient tenByteObject [plainRead none .inherit]
        (emptyClient true)) = .ok () st' ∧ ∀ x, st'.world.cache.files x = none := by
  obtain ⟨st', h⟩ : ∃ st', deleteA (afterReads uncheckedClient tenByteObject
      [plainRead none .inherit] (emptyClient true)) = .ok () st' := ⟨_, rfl⟩
  have hfile : (Deletion.delete "a".toList).OfFile willingStorage := rfl
  refine ⟨st', h, ((Deletion.clears_cache_iff uncheckedClient rfl tenByteObject true
    [plainRead none .inherit] "a".toList hfile h).mpr ?_).1⟩
  intro x f hf
  cases x with
  | full => exact ⟨"a".toList, by simp [Deletion.paths], "a".toList, by decide, by decide⟩
  | chunk i => cases hf

/-- What has been read in part is not: the object is created anew with other
bytes, and the old ones are read. -/
theorem deleted_chunks_are_read :
    ∃ st', deleteA (afterReads uncheckedClient tenByteObject
        [plainRead (some ⟨⟨0, 8⟩, by decide⟩) .inherit] (emptyClient true)) = .ok () st' ∧
      ((plainRead (some ⟨⟨0, 8⟩, by decide⟩) .disable).exec uncheckedClient
        ⟨List.replicate 10 7, none⟩ st'.world).1 = .ok [0, 1, 2, 3, 4, 5, 6, 7] ∧
      slice 0 8 (List.replicate 10 7) = List.replicate 8 (7 : UInt8) :=
  ⟨_, rfl, by decide +kernel, rfl⟩

end MultiStorageClient
