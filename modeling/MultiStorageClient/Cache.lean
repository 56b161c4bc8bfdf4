/-
MultiStorageClient/Cache.lean

Range reads through the cache (`CacheManager.read` with a byte range, in
`cache.py`).

A cached object is kept as chunk files of `cache_line_size` bytes, or, if it
is smaller than one line, as a full file.  A read takes the range from a full
file with the right etag, or downloads the chunks that are missing or
invalid and assembles the range from the chunk files; if anything raises on
the way, it falls back to a ranged read of the source.

The code is a program (`Prog`) whose operations are the single accesses to
the cache directory, to the lock files and to the source object.  Files are
written to a temporary name, labelled there and moved into place, so writing
a chunk is one operation; a file that has been opened can be read although
it is unlinked meanwhile, so opening and reading is one operation too.

The model is about one object, with one cache path.
-/
import MultiStorageClient.Prog
import MultiStorageClient.ObjectMetadata
import MultiStorageClient.Slice

namespace MultiStorageClient

open Slice

/-! ### The cache directory -/

/-- The cache file of an object or one of its chunk files
(`_get_chunk_path`). -/
inductive CachePath
  | full
  | chunk (idx : ℕ)
  deriving DecidableEq

/-- A file in the cache directory with its extended attributes. -/
structure CacheFile where
  data : List UInt8
  /-- `user.etag` -/
  etag : Option PyStr
  /-- `user.cache_line_size` -/
  cacheLineSize : Option ℕ
  /-- `user.size` -/
  size : Option ℕ
  /-- The source version and the line size with which the file was written.
  They are not in the file and no operation returns them. -/
  writtenFor : Option PyStr
  writtenWith : ℕ
  deriving DecidableEq

/-- What all readers share: the cache directory, the lock files, with a token
for the holder, and the etag of the source object. -/
structure CacheWorld where
  /-- whether the file system has extended attributes -/
  xattrs : Bool
  files : CachePath → Option CacheFile
  locks : ℕ → Option ℕ
  nextLock : ℕ
  etag : PyStr

/-- The exceptions of the modelled operations.  All of them are `OSError`s. -/
inductive OSError
  | fileNotFound
  | noAttribute
  | ioError
  | timeout
  deriving DecidableEq

/-- Where in the code an operation stands, for operations that occur in more
than one place. -/
inductive CacheSite
  | fullFile
  | validity
  | underLock
  | fetch
  | chunk0Renaming
  | chunkName
  | assembly
  | fallback
  deriving DecidableEq

/-- The operations of the code on what is shared. -/
inductive CacheOp
  /-- `os.path.exists` -/
  | exists (site : CacheSite) (path : CachePath)
  /-- `xattr.getxattr(path, "user.etag")` -/
  | getEtag (path : CachePath)
  /-- `int(xattr.getxattr(path, "user.cache_line_size"))` -/
  | getCacheLineSize (path : CachePath)
  /-- `int(xattr.getxattr(path, "user.size"))` -/
  | getObjectSize (path : CachePath)
  /-- `os.path.getsize` -/
  | getsize (site : CacheSite) (path : CachePath)
  /-- `open`, `seek` and `read` -/
  | readFile (site : CacheSite) (path : CachePath) (offset size : ℕ)
  /-- `os.unlink`, where an `OSError` is ignored -/
  | unlink (path : CachePath)
  /-- `os.replace(temp_path, path)` of a labelled temporary file -/
  | replace (path : CachePath) (file : CacheFile)
  /-- `os.rename` -/
  | rename (src dst : CachePath)
  /-- `_update_access_time`, which raises if the file is gone when its mode
  is set back -/
  | updateAccessTime (path : CachePath)
  /-- `storage_provider.get_object` with a range -/
  | getObject (site : CacheSite) (offset size : ℕ)
  /-- entering `with acquire_lock`, which waits and then times out while
  another holder has the lock file -/
  | acquireLock (idx : ℕ)
  /-- leaving it -/
  | releaseLock (idx token : ℕ)
  /-- `_cleanup_lock_file`: the next to acquire makes a new lock file -/
  | cleanupLockFile (idx : ℕ)

/-- What an operation returns. -/
abbrev CacheOp.Val : CacheOp → Type
  | .exists _ _ => Bool
  | .getEtag _ => PyStr
  | .getCacheLineSize _ => ℕ
  | .getObjectSize _ => ℕ
  | .getsize _ _ => ℕ
  | .readFile _ _ _ _ => List UInt8
  | .unlink _ => Unit
  | .replace _ _ => Unit
  | .rename _ _ => Unit
  | .updateAccessTime _ => Unit
  | .getObject _ _ _ => List UInt8
  | .acquireLock _ => ℕ
  | .releaseLock _ _ => Unit
  | .cleanupLockFile _ => Unit

namespace CacheWorld

variable (w : CacheWorld)

/-- A file is written, or removed. -/
def setFile (path : CachePath) (file : Option CacheFile) : CacheWorld :=
  { w with files := Function.update w.files path file }

/-- A lock file is taken, or released. -/
def setLock (idx : ℕ) (token : Option ℕ) : CacheWorld :=
  { w with locks := Function.update w.locks idx token }

/-- Removal of cached files (`evict_files`). -/
def evict (gone : CachePath → Bool) : CacheWorld :=
  { w with files := fun path => if gone path then none else w.files path }

/-- A labelled file as the file system stores it. -/
def stored (file : CacheFile) : CacheFile :=
  if w.xattrs then file else { file with etag := none, cacheLineSize := none, size := none }

/-- The file system keeps the bytes, and no attribute but those set. -/
theorem stored_spec (file : CacheFile) :
    (w.stored file).data = file.data ∧ (w.stored file).writtenFor = file.writtenFor ∧
      (w.stored file).writtenWith = file.writtenWith ∧
      (∀ e, (w.stored file).etag = some e → file.etag = some e) ∧
      (∀ k, (w.stored file).cacheLineSize = some k → file.cacheLineSize = some k) ∧
      ∀ n, (w.stored file).size = some n → file.size = some n := by
  unfold stored
  split
  · exact ⟨rfl, rfl, rfl, fun _ h => h, fun _ h => h, fun _ h => h⟩
  · exact ⟨rfl, rfl, rfl, (fun _ h => by cases h), (fun _ h => by cases h),
      (fun _ h => by cases h)⟩

/-- Read a property of an existing file. -/
def ofFile {α : Type} (path : CachePath) (f : CacheFile → Except OSError α) : Except OSError α :=
  match w.files path with
  | some file => f file
  | none => .error .fileNotFound

/-- Read an extended attribute. -/
def ofAttr {α : Type} (path : CachePath) (f : CacheFile → Option α) : Except OSError α :=
  w.ofFile path fun file => match f file with
    | some a => .ok a
    | none => .error .noAttribute

variable {w}

theorem files_setFile_self (path : CachePath) (file : Option CacheFile) :
    (w.setFile path file).files path = file := by
  simp [setFile]

theorem files_setFile_of_ne {path path' : CachePath} (h : path' ≠ path)
    (file : Option CacheFile) : (w.setFile path file).files path' = w.files path' := by
  simp [setFile, h]

/-- A file after writing or removing one. -/
theorem files_setFile {path path' : CachePath} {file : Option CacheFile} {f : CacheFile}
    (h : (w.setFile path file).files path' = some f) :
    (path' = path ∧ file = some f) ∨ (path' ≠ path ∧ w.files path' = some f) := by
  by_cases heq : path' = path
  · subst heq
    rw [files_setFile_self] at h
    exact Or.inl ⟨rfl, h⟩
  · rw [files_setFile_of_ne heq] at h
    exact Or.inr ⟨heq, h⟩

/-- A file that has not been evicted. -/
theorem files_evict {gone : CachePath → Bool} {path : CachePath} {f : CacheFile}
    (h : (w.evict gone).files path = some f) : w.files path = some f := by
  simp only [evict] at h
  split at h
  · cases h
  · exact h

theorem ofFile_eq_ok {α : Type} {path : CachePath} {f : CacheFile → Except OSError α} {a : α}
    (h : w.ofFile path f = .ok a) : ∃ file, w.files path = some file ∧ f file = .ok a := by
  unfold ofFile at h
  split at h
  · rename_i file hfile
    exact ⟨file, hfile, h⟩
  · cases h

theorem ofAttr_eq_ok {α : Type} {path : CachePath} {f : CacheFile → Option α} {a : α}
    (h : w.ofAttr path f = .ok a) : ∃ file, w.files path = some file ∧ f file = some a := by
  obtain ⟨file, hfile, ha⟩ := ofFile_eq_ok h
  refine ⟨file, hfile, ?_⟩
  split at ha
  · rename_i b hb
    rw [hb, Except.ok.inj ha]
  · cases ha

end CacheWorld

/-- The effect of one operation.  The source holds `content v` while its etag
is `v`, and a ranged `get_object` returns the clipped slice. -/
def cacheAct (content : PyStr → List UInt8) :
    (o : CacheOp) → CacheWorld → Except OSError o.Val × CacheWorld
  | .exists _ path, w => (.ok (w.files path).isSome, w)
  | .getEtag path, w => (w.ofAttr path (·.etag), w)
  | .getCacheLineSize path, w => (w.ofAttr path (·.cacheLineSize), w)
  | .getObjectSize path, w => (w.ofAttr path (·.size), w)
  | .getsize _ path, w => (w.ofFile path fun file => .ok file.data.length, w)
  | .readFile _ path offset size, w =>
      (w.ofFile path fun file => .ok (slice offset size file.data), w)
  | .unlink path, w => (.ok (), w.setFile path none)
  | .replace path file, w => (.ok (), w.setFile path (some (w.stored file)))
  | .rename src dst, w =>
      match w.files src with
      | some file => (.ok (), (w.setFile src none).setFile dst (some file))
      | none => (.error .fileNotFound, w)
  | .updateAccessTime path, w => (w.ofFile path fun _ => .ok (), w)
  | .getObject _ offset size, w => (.ok (slice offset size (content w.etag)), w)
  -- a lock held by another ends in the timeout; a free one gets a fresh token
  | .acquireLock idx, w =>
      match w.locks idx with
      | some _ => (.error .timeout, w)
      | none => (.ok w.nextLock,
          { w.setLock idx (some w.nextLock) with nextLock := w.nextLock + 1 })
  -- only the holder's token opens the lock
  | .releaseLock idx token, w =>
      (.ok (), if w.locks idx = some token then w.setLock idx none else w)
  | .cleanupLockFile idx, w => (.ok (), w.setLock idx none)

theorem cacheAct_rename (content : PyStr → List UInt8) (w : CacheWorld) (src dst : CachePath) :
    (w.files src = none ∧ cacheAct content (.rename src dst) w = (.error .fileNotFound, w)) ∨
      ∃ file, w.files src = some file ∧ cacheAct content (.rename src dst) w =
        (.ok (), (w.setFile src none).setFile dst (some file)) := by
  rcases h : w.files src with - | file
  · exact Or.inl ⟨rfl, by simp [cacheAct, h]⟩
  · exact Or.inr ⟨file, rfl, by simp [cacheAct, h]⟩

/-- Programs of the cache. -/
abbrev CacheProg := Prog CacheOp CacheOp.Val OSError

/-- Perform one operation. -/
def call (o : CacheOp) : CacheProg o.Val := Prog.perform o

/-! ### The code -/

/-- `CacheManager`, with a positive `cache_line_size`. -/
structure CacheManager where
  cacheLineSize : ℕ
  cacheLineSize_pos : 1 ≤ cacheLineSize
  deriving DecidableEq

/-- Cache lines of four bytes. -/
def CacheManager.ofFour : CacheManager := ⟨4, by decide⟩

/-- What a caller passes to `read` besides the key, for a range of at least
one byte. -/
structure ReadArgs where
  byteRange : Range
  sourceVersion : Option PyStr
  sourceSize : Option ℕ
  size_pos : 1 ≤ byteRange.size

/-- The truth value of an optional string. -/
def truthy : Option PyStr → Bool
  | some s => s != []
  | none => false

namespace CacheManager

/-- `_remove_invalid_chunk` -/
def removeInvalidChunk (chunkPath : CachePath) : CacheProg Unit := call (.unlink chunkPath)

/-- `_is_chunk_valid` -/
def isChunkValid (chunkPath : CachePath) (sourceVersion : Option PyStr) (cacheLineSize : ℕ) :
    CacheProg Bool := do
  if ← call (.exists .validity chunkPath) then
    -- without a source version the attributes are not looked at
    if truthy sourceVersion then
      tryCatch
        (do
          let chunkEtag ← call (.getEtag chunkPath)
          let stored ← call (.getCacheLineSize chunkPath)
          if some chunkEtag != sourceVersion || stored != cacheLineSize then
            removeInvalidChunk chunkPath
            pure false
          else pure true)
        fun _ => do
          removeInvalidChunk chunkPath
          pure false
    else pure true
  else pure false

/-- `range(start_chunk, end_chunk + 1)` -/
def chunkRange (startChunk endChunk : ℕ) : List ℕ :=
  List.range' startChunk (endChunk + 1 - startChunk)

/-- `_identify_missing_chunks` -/
def identifyMissingChunks (startChunk endChunk cacheLineSize : ℕ)
    (sourceVersion : Option PyStr) : CacheProg (List ℕ) :=
  (chunkRange startChunk endChunk).foldlM (fun chunksToDownload idx => do
    if ← isChunkValid (.chunk idx) sourceVersion cacheLineSize then pure chunksToDownload
    else pure (chunksToDownload ++ [idx])) []

/-- The labelled file of `_write_chunk_to_cache` and `_set_chunk_metadata`. -/
def chunkFile (chunkData : List UInt8) (sourceVersion : Option PyStr)
    (idx cacheLineSize : ℕ) (sourceSize : Option ℕ) : CacheFile where
  data := chunkData
  etag := if truthy sourceVersion then sourceVersion else none
  cacheLineSize := some cacheLineSize
  size :=
    match sourceSize with
    | some n => some n
    | none =>
        -- a short chunk is taken for the last one
        if chunkData.length < cacheLineSize then some (idx * cacheLineSize + chunkData.length)
        else none
  writtenFor := sourceVersion
  writtenWith := cacheLineSize

/-- The size attribute says where the chunk ends, also where the size of the
object is taken from the length of a chunk. -/
theorem chunkFile_size {source : List UInt8} {v : Option PyStr} {i L n : ℕ}
    {sourceSize : Option ℕ} (hsize : ∀ k, sourceSize = some k → k = source.length)
    (h : (chunkFile (slice (i * L) L source) v i L sourceSize).size = some n) :
    min L (n - i * L) = (slice (i * L) L source).length := by
  have hlen := length_slice (o := i * L) (n := L) (l := source)
  simp only [chunkFile] at h
  split at h
  · rename_i k
    rw [← Option.some.inj h, hsize k rfl, hlen]
  · split at h
    · rw [← Option.some.inj h]
      omega
    · cases h

/-- `_handle_chunk0_renaming` -/
def handleChunk0Renaming (idx cacheLineSize : ℕ) : CacheProg Unit :=
  if idx = 0 then do
    if ← call (.exists .chunk0Renaming .full) then pure ()
    else
      tryCatch
        (do
          let chunkSize ← call (.getsize .chunk0Renaming (.chunk idx))
          if chunkSize < cacheLineSize then call (.rename (.chunk idx) .full) else pure ())
        fun _ => pure ()
  else pure ()

/-- The test for chunk 0 under the name of the full file, in
`_update_chunk_access_time` and `_assemble_result_from_chunks`. -/
def actualPath (idx : ℕ) : CacheProg CachePath :=
  if idx = 0 then do
    if ← call (.exists .chunkName .full) then
      if ← call (.exists .chunkName (.chunk idx)) then pure (.chunk idx) else pure .full
    else pure (.chunk idx)
  else pure (.chunk idx)

/-- `_update_chunk_access_time` -/
def updateChunkAccessTime (idx : ℕ) : CacheProg Unit := do
  let path ← actualPath idx
  call (.updateAccessTime path)

/-- `_fetch_and_cache_chunk` -/
def fetchAndCacheChunk (idx cacheLineSize : ℕ) (sourceVersion : Option PyStr)
    (sourceSize : Option ℕ) : CacheProg Unit := do
  let chunkStart := idx * cacheLineSize
  let chunkEnd := chunkStart + cacheLineSize - 1
  let chunkData ← call (.getObject .fetch chunkStart (chunkEnd - chunkStart + 1))
  call (.replace (.chunk idx) (chunkFile chunkData sourceVersion idx cacheLineSize sourceSize))
  handleChunk0Renaming idx cacheLineSize
  updateChunkAccessTime idx

/-- `with self.acquire_lock(chunk_lock_key): …` -/
def withLock (idx : ℕ) (body : CacheProg Unit) : CacheProg Unit := do
  let token ← call (.acquireLock idx)
  tryCatch body fun e => do
    call (.releaseLock idx token)
    throw e
  call (.releaseLock idx token)

/-- `_download_single_chunk` -/
def downloadSingleChunk (idx cacheLineSize : ℕ) (sourceVersion : Option PyStr)
    (sourceSize : Option ℕ) : CacheProg Unit :=
  withLock idx do
    -- another thread may have created it
    if ← call (.exists .underLock (.chunk idx)) then pure ()
    else do
      fetchAndCacheChunk idx cacheLineSize sourceVersion sourceSize
      call (.cleanupLockFile idx)

/-- `_download_missing_chunks` -/
def downloadMissingChunks (startChunk endChunk cacheLineSize : ℕ)
    (sourceVersion : Option PyStr) (sourceSize : Option ℕ) : CacheProg Unit := do
  let chunksToDownload ← identifyMissingChunks startChunk endChunk cacheLineSize sourceVersion
  chunksToDownload.forM fun idx => downloadSingleChunk idx cacheLineSize sourceVersion sourceSize

/-- `_get_chunk_object_size` -/
def getChunkObjectSize (path : CachePath) : CacheProg (Option ℕ) :=
  tryCatch (do
    let n ← call (.getObjectSize path)
    pure (some n))
    fun _ => pure none

/-- How many bytes `_assemble_result_from_chunks` expects of the `length`
bytes from `overlapStart` on, in a file of `fileSize` bytes that holds the
chunk from `chunkStart` on.  It raises where the file is too short. -/
def expectedLength (path : CachePath) (cacheLineSize chunkStart overlapStart length fileSize : ℕ) :
    CacheProg ℕ := do
  if fileSize < overlapStart - chunkStart + length then
    -- a file shorter than the overlap is the last chunk of the object or a broken one
    match ← getChunkObjectSize path with
    | none => do
        removeInvalidChunk path
        throw .ioError
    | some objectSize =>
        if fileSize < min cacheLineSize (objectSize - chunkStart) then do
          removeInvalidChunk path
          throw .ioError
        else pure (min length (objectSize - overlapStart))
  else pure length

/-- The part of one chunk in `_assemble_result_from_chunks`, appended to the
filled part of the result buffer. -/
def assembleChunk (cacheLineSize : ℕ) (byteRange : Range) (result : List UInt8) (idx : ℕ) :
    CacheProg (List UInt8) := do
  let path ← actualPath idx
  let chunkStart := idx * cacheLineSize
  let chunkEnd := chunkStart + cacheLineSize - 1
  let overlapStart := max byteRange.offset chunkStart
  let overlapEnd := min (byteRange.offset + byteRange.size - 1) chunkEnd
  -- a chunk beyond the range adds nothing
  if overlapStart ≤ overlapEnd then
    let length := overlapEnd - overlapStart + 1
    let fileSize ← call (.getsize .assembly path)
    let expected ← expectedLength path cacheLineSize chunkStart overlapStart length fileSize
    if expected = 0 then pure result
    else
      let chunkData ← call (.readFile .assembly path (overlapStart - chunkStart) expected)
      -- cut between the size check and the read: drop it and report the error
      if chunkData.length ≠ expected then do
        removeInvalidChunk path
        throw .ioError
      else pure (result ++ chunkData)
  else pure result

/-- `_assemble_result_from_chunks` -/
def assembleResultFromChunks (startChunk endChunk cacheLineSize : ℕ) (byteRange : Range) :
    CacheProg (List UInt8) :=
  (chunkRange startChunk endChunk).foldlM (assembleChunk cacheLineSize byteRange) []

/-- `_read_range_from_full_cached_file` -/
def readRangeFromFullCachedFile (byteRange : Range) (sourceVersion : Option PyStr) :
    CacheProg (Option (List UInt8)) := do
  if ← call (.exists .fullFile .full) then
    tryCatch
      (do
        let cachedEtag ← call (.getEtag .full)
        -- without a source version any cached copy serves
        if some cachedEtag = sourceVersion ∨ sourceVersion = none then
          let data ← call (.readFile .fullFile .full byteRange.offset byteRange.size)
          call (.updateAccessTime .full)
          pure (some data)
        else pure none)
      -- every error of the cached file is a miss
      fun _ => pure none
  else pure none

/-- The direct read at the end of `_read_range`. -/
def readFallback (byteRange : Range) (sourceSize : Option ℕ) : CacheProg (List UInt8) :=
  match sourceSize with
  | some n =>
      if n ≤ byteRange.offset then pure []
      else call (.getObject .fallback byteRange.offset (min byteRange.size (n - byteRange.offset)))
  | none => call (.getObject .fallback byteRange.offset byteRange.size)

/-- The first chunk of a byte range. -/
def startChunk (m : CacheManager) (byteRange : Range) : ℕ := byteRange.offset / m.cacheLineSize

/-- The last chunk of a byte range. -/
def endChunk (m : CacheManager) (byteRange : Range) : ℕ :=
  (byteRange.offset + byteRange.size - 1) / m.cacheLineSize

/-- `_read_range` -/
def readRange (m : CacheManager) (args : ReadArgs) : CacheProg (List UInt8) :=
  tryCatch
    (do
      downloadMissingChunks (m.startChunk args.byteRange) (m.endChunk args.byteRange)
        m.cacheLineSize args.sourceVersion args.sourceSize
      assembleResultFromChunks (m.startChunk args.byteRange) (m.endChunk args.byteRange)
        m.cacheLineSize args.byteRange)
    fun _ => readFallback args.byteRange args.sourceSize

/-- `read` with a byte range -/
def read (m : CacheManager) (args : ReadArgs) : CacheProg (List UInt8) := do
  match ← readRangeFromFullCachedFile args.byteRange args.sourceVersion with
  | some data => pure data
  | none => m.readRange args

end CacheManager

end MultiStorageClient
