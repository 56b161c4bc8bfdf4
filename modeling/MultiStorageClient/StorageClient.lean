/-
MultiStorageClient/StorageClient.lean

Reads through the client (`SingleStorageClient.read` in `client/single.py`,
with `ReplicaManager.download_from_replica_or_primary`).

A read is dispatched over the metadata provider, the cache and the replicas:

* the logical path is resolved to a physical one;
* with a cache, a range goes through `CacheManager.read`, or, if it covers
  the object and its size is known, through a download of the whole object;
  whatever raises on the way ends in a ranged read of the source;
* with a cache, a full read takes the cached file or downloads the object,
  from a replica if there is one, and stores it;
* without a cache, a replica or the provider is read.

The model is about one object: its cache files, its source and its copies on
the replicas.  What the provider, the replicas and the local disk answer may
change between two operations.
-/
import MultiStorageClient.CacheReads
import MultiStorageClient.ManifestMetadata

namespace MultiStorageClient

open Slice

/-! ### The client and its parties -/

/-- `SourceVersionCheckMode` -/
inductive SourceVersionCheckMode
  | inherit
  | enable
  | disable
  deriving DecidableEq

/-- `ResolvedPathState` -/
inductive ResolvedPathState
  | exists
  | deleted
  | untracked
  deriving DecidableEq

/-- `ResolvedPath` -/
structure ResolvedPath where
  physicalPath : PyStr
  state : ResolvedPathState

/-- `ResolvedPath.exists` -/
def ResolvedPath.found (r : ResolvedPath) : Bool := r.state == .exists

/-- What the client uses of a `MetadataProvider`. -/
structure MetadataProvider where
  realpath : PyStr → ResolvedPath
  /-- the etag of `get_object_metadata` -/
  getObjectMetadata : PyStr → Except OSError (Option PyStr)
  shouldUseSoftDelete : Bool
  /-- what `remove_file` raises, if anything -/
  removeFile : PyStr → Option PyError

/-- The cache manager of a client with its configuration. -/
structure ClientCache where
  manager : CacheManager
  checkSourceVersion : Bool

/-- `SingleStorageClient`, as far as it decides how to read and delete. -/
structure SingleStorageClient where
  cacheManager : Option ClientCache
  /-- the provider is a `PosixFileStorageProvider` -/
  isPosix : Bool
  metadataProvider : Option MetadataProvider
  /-- number of replicas, in the order of their read priority -/
  replicas : ℕ

/-- What is shared: the cache files and the source of the object, and whether
the parties answer at the moment. -/
structure ClientWorld where
  cache : CacheWorld
  /-- `get_object_metadata` of the storage provider raises -/
  headFails : Bool
  /-- the cache file cannot be written -/
  diskFails : Bool
  /-- `is_file` of a replica raises -/
  replicaFails : ℕ → Bool

/-- The fields of `get_object_metadata` that a read uses. -/
structure SourceInfo where
  etag : Option PyStr
  contentLength : ℕ

/-- The operations of a read, besides those of the cache manager's ranges. -/
inductive ClientOp
  | cache (o : CacheOp)
  /-- `storage_provider.get_object_metadata` -/
  | getObjectMetadata
  /-- `storage_provider.get_object` -/
  | getObject (byteRange : Option Range)
  /-- `replica_client.is_file` -/
  | isFile (replica : ℕ)
  /-- `download_file` of a replica or of the provider, into a buffer -/
  | downloadFile (replica : Option ℕ)
  /-- `open` and `read` of the cached file -/
  | readCached
  /-- `os.rename` of a temporary file to the cached file, in a directory made
  for it -/
  | moveToCache (data : List UInt8)
  /-- `xattr.setxattr(file_path, "user.etag", …)` -/
  | setEtag (etag : PyStr)
  /-- `_make_readonly` -/
  | makeReadonly

/-- What an operation returns. -/
abbrev ClientOp.Val : ClientOp → Type
  | .cache o => o.Val
  | .getObjectMetadata => SourceInfo
  | .getObject _ => List UInt8
  | .isFile _ => Bool
  | .downloadFile _ => List UInt8
  | .readCached => List UInt8
  | .moveToCache _ => Unit
  | .setEtag _ => Unit
  | .makeReadonly => Unit

/-- The object in the storage, with the etag that the provider reports. -/
structure SourceObject where
  content : List UInt8
  etag : Option PyStr

/-- What `get_object` returns. -/
def requested (byteRange : Option Range) (content : List UInt8) : List UInt8 :=
  match byteRange with
  | none => content
  | some r => slice r.offset r.size content

/-- A file as `set` moves it into the cache, without attributes. -/
def movedFile (data : List UInt8) : CacheFile where
  data := data
  etag := none
  cacheLineSize := none
  size := none
  writtenFor := none
  writtenWith := 0

/-- `xattr.setxattr` on a file in a file system with or without attributes. -/
def CacheWorld.setEtag (w : CacheWorld) (etag : PyStr) : Except OSError Unit × CacheWorld :=
  match w.files .full with
  | none => (.error .fileNotFound, w)
  | some f =>
      if w.xattrs then (.ok (), w.setFile .full (some { f with etag := some etag }))
      else (.error .ioError, w)

/-- The effect of one operation.  The replicas hold the object as the source
does. -/
def clientAct (source : SourceObject) :
    (o : ClientOp) → ClientWorld → Except OSError o.Val × ClientWorld
  | .cache o, w =>
      ((cacheAct (fun _ => source.content) o w.cache).1,
        { w with cache := (cacheAct (fun _ => source.content) o w.cache).2 })
  | .getObjectMetadata, w =>
      (if w.headFails then .error .ioError else .ok ⟨source.etag, source.content.length⟩, w)
  | .getObject byteRange, w => (.ok (requested byteRange source.content), w)
  | .isFile i, w => (if w.replicaFails i then .error .ioError else .ok true, w)
  | .downloadFile _, w => (.ok source.content, w)
  | .readCached, w => (w.cache.ofFile .full fun f => .ok f.data, w)
  | .moveToCache data, w =>
      if w.diskFails then (.error .ioError, w)
      else (.ok (), { w with cache := w.cache.setFile .full (some (movedFile data)) })
  | .setEtag etag, w => ((w.cache.setEtag etag).1, { w with cache := (w.cache.setEtag etag).2 })
  | .makeReadonly, w => (w.cache.ofFile .full fun _ => .ok (), w)

/-- Programs of the client. -/
abbrev ClientProg := Prog ClientOp ClientOp.Val OSError

/-- Perform one operation. -/
def clientCall (o : ClientOp) : ClientProg o.Val := Prog.perform o

/-- A program of the cache manager. -/
def onCache {α : Type} (x : CacheProg α) : ClientProg α := Prog.lift ClientOp.cache x

/-! ### The cache manager on whole files -/

namespace ClientCache

variable (cache : ClientCache)

/-- `CacheManager.contains` with the configured check. -/
def contains (sourceVersion : Option PyStr) : ClientProg Bool := do
  if ← clientCall (.cache (.exists .fullFile .full)) then
    if cache.checkSourceVersion then
      tryCatch
        (do
          let storedVersion ← clientCall (.cache (.getEtag .full))
          pure (some storedVersion == sourceVersion))
        fun _ => pure false
    else pure true
  else pure false

/-- `CacheManager.read` without a byte range. -/
def readFull (sourceVersion : Option PyStr) : ClientProg (Option (List UInt8)) :=
  tryCatch
    (do
      if ← cache.contains sourceVersion then
        let data ← clientCall .readCached
        clientCall (.cache (.updateAccessTime .full))
        pure (some data)
      else pure none)
    fun _ => pure none

/-- The label in `set`, which is only logged if it fails. -/
def label (sourceVersion : Option PyStr) : ClientProg Unit :=
  match sourceVersion with
  | some v => if v ≠ [] then tryCatch (clientCall (.setEtag v)) fun _ => pure () else pure ()
  | none => pure ()

/-- `CacheManager.set` with bytes. -/
def set (data : List UInt8) (sourceVersion : Option PyStr) : ClientProg Unit := do
  clientCall (.moveToCache data)
  label sourceVersion
  clientCall .makeReadonly
  clientCall (.cache (.updateAccessTime .full))

/-- Whether the source version is fetched. -/
def checks (mode : SourceVersionCheckMode) : Bool :=
  match mode with
  | .enable => true
  | .inherit => cache.checkSourceVersion
  | .disable => false

/-- The metadata that a range read fetches for the version check. -/
def fetchMetadata (mode : SourceVersionCheckMode) : ClientProg (Option SourceInfo) :=
  if cache.checks mode then do
    let info ← clientCall .getObjectMetadata
    pure (some info)
  else pure none

end ClientCache

/-! ### Reading -/

/-- A byte range of at least one byte. -/
abbrev ByteRange := { r : Range // 1 ≤ r.size }

namespace SingleStorageClient

variable (c : SingleStorageClient)

/-- The cache manager, if `_is_cache_enabled`. -/
def enabledCache : Option ClientCache := if c.isPosix then none else c.cacheManager

/-- `_resolve_read_path`, where a metadata provider is configured. -/
def resolveReadPath (path : PyStr) : ClientProg PyStr :=
  match c.metadataProvider with
  | some mp =>
      if (mp.realpath path).found then pure (mp.realpath path).physicalPath
      else throw .fileNotFound
  | none => pure path

/-- `_get_source_version` -/
def getSourceVersion (path : PyStr) : ClientProg (Option PyStr) :=
  match c.metadataProvider with
  | some mp =>
      match mp.getObjectMetadata path with
      | .ok etag => pure etag
      | .error e => throw e
  | none => do
      let info ← clientCall .getObjectMetadata
      pure info.etag

/-- The source version that a full read compares with. -/
def checkedSourceVersion (cache : ClientCache) (path : PyStr) (mode : SourceVersionCheckMode) :
    ClientProg (Option PyStr) :=
  if cache.checks mode then c.getSourceVersion path else pure none

/-- One turn of the loop of `download_from_replica_or_primary`: a replica
that raises is passed over. -/
def downloadFromReplica (i : ℕ) : ClientProg (Option (List UInt8)) :=
  tryCatch
    (do
      if ← clientCall (.isFile i) then
        let data ← clientCall (.downloadFile (some i))
        pure (some data)
      else pure none)
    fun _ => pure none

/-- The loop over the `n` replicas from `i` on, up to the first that has the
file. -/
def downloadFromReplicas (i : ℕ) : ℕ → ClientProg (Option (List UInt8))
  | 0 => pure none
  | n + 1 => do
      match ← downloadFromReplica i with
      | some data => pure (some data)
      | none => downloadFromReplicas (i + 1) n

/-- `_read_from_replica_or_primary`, which has no byte range. -/
def readFromReplicaOrPrimary : ClientProg (List UInt8) := do
  match ← downloadFromReplicas 0 c.replicas with
  | some data => pure data
  | none => clientCall (.downloadFile none)

/-- The cached branch of `read` for a range, within its `try`. -/
def readRangeCached (cache : ClientCache) (r : ByteRange) (mode : SourceVersionCheckMode) :
    ClientProg (List UInt8) := do
  let metadata ← cache.fetchMetadata mode
  let sourceVersion := metadata.bind (·.etag)
  match metadata with
  | some info =>
      -- a range that covers the object is cached as a whole
      if r.1.offset = 0 ∧ info.contentLength ≤ r.1.size then do
        let fullFileData ← clientCall (.getObject none)
        ClientCache.set fullFileData sourceVersion
        pure (fullFileData.take info.contentLength)
      else
        onCache (cache.manager.read ⟨r.1, sourceVersion, some info.contentLength, r.2⟩)
  | none => onCache (cache.manager.read ⟨r.1, sourceVersion, none, r.2⟩)

/-- A full read past the cache. -/
def readFullDirect : ClientProg (List UInt8) :=
  if c.replicas ≠ 0 then c.readFromReplicaOrPrimary else clientCall (.getObject none)

/-- The cached branch of `read` for the whole object. -/
def readFullCached (cache : ClientCache) (path : PyStr) (mode : SourceVersionCheckMode) :
    ClientProg (List UInt8) := do
  let sourceVersion ← c.checkedSourceVersion cache path mode
  match ← cache.readFull sourceVersion with
  | some data => pure data
  | none => do
      let data ← c.readFullDirect
      ClientCache.set data sourceVersion
      pure data

/-- `read` -/
def read (path : PyStr) (byteRange : Option ByteRange) (mode : SourceVersionCheckMode) :
    ClientProg (List UInt8) := do
  let path ← c.resolveReadPath path
  match c.enabledCache with
  | some cache =>
      match byteRange with
      | some r =>
          -- any error of the cache falls back to the store
          tryCatch (readRangeCached cache r mode) fun _ => clientCall (.getObject (some r.1))
      | none => c.readFullCached cache path mode
  | none =>
      if c.replicas ≠ 0 then c.readFromReplicaOrPrimary
      else clientCall (.getObject (byteRange.map (·.1)))

/-- The object at a path is there for the metadata provider, if there is
one. -/
def Resolves (path : PyStr) : Prop :=
  ∀ mp, c.metadataProvider = some mp → (mp.realpath path).found = true

end SingleStorageClient

end MultiStorageClient
