/-
MultiStorageClient/CachedFiles.lean

The files whose lines are in the data cache: how their inodes come and go
(`createFileObjectInode`, `inodeStruct.touch`, `DoOpen`, `DoRelease`,
`DoUnlink`, `finishPendingDelete`, `inodeEvictor`, `clearFileCacheLinesLocked`
and the unmounting of a backend).

The steps are those of the data cache, and the sections of these operations
under the lock.  An inode stays known to who has a pointer to it when it leaves
`inodeMap`; so do its handles, its `cacheMap` and its lines, unless the
operation that removes it says otherwise.  Inode numbers are not used again.
A call of `finishPendingDelete` has a `WaitGroup` among those of the readers.

Directories have no lines and are left out, and a file has its parent and its
entry as long as it has its inode.  Go ranges over a map in any order: the
label of a step says in which.
-/
import MultiStorageClient.DataCache

namespace MultiStorageFileSystem

/-- The inode of a file, apart from what the data cache keeps of it. -/
structure CachedInode where
  backendNonce : ℕ
  fhSet : List ℕ
  pendingDelete : Bool
  /-- on the eviction queue -/
  queued : Bool

/-- `fhStruct` -/
structure FileHandle where
  isExclusive : Bool
  allowReads : Bool

/-- The access mode in `OpenIn.Flags`. -/
inductive AccessMode
  | RDONLY
  | WRONLY
  | RDWR
  deriving DecidableEq

/-- A call of `finishPendingDelete`, with its `cacheLineWaiter`. -/
structure PendingDelete where
  inode : ℕ
  cacheLineWaiter : ℕ
  returned : Bool

/-- The globals that the files and their lines need. -/
structure CachedFiles where
  cache : DataCache
  inode : ℕ → CachedInode
  inodeMap : ℕ → Bool
  /-- a mounted backend, with `readOnly` -/
  backendMap : ℕ → Option Bool
  fhMap : ℕ → Option FileHandle
  lastNonce : ℕ
  deletes : List PendingDelete

/-- One step of one of the parties. -/
inductive FileStep
  /-- a step of the data cache -/
  | cache (s : CacheStep)
  /-- `processToMountList` mounts a backend -/
  | mount (readOnly : Bool)
  /-- `processToUnmountListAlreadyLocked` unmounts a backend -/
  | unmount (nonce : ℕ)
  /-- a file of a backend is found -/
  | createFileObjectInode (nonce : ℕ)
  /-- an operation touches an inode -/
  | touch (i : ℕ)
  | doOpen (i : ℕ) (exclusive : Bool) (mode : AccessMode)
  | doRelease (i fh : ℕ)
  | doUnlink (i : ℕ)
  /-- a section of a `finishPendingDelete` -/
  | finishPendingDelete (d : ℕ) (order : List ℕ) (ans : DiskAnswers)
  /-- a turn of the loop of `inodeEvictor`, or of `inodeEvictorForceDrain` -/
  | evict (i : ℕ) (order : List ℕ) (ans : DiskAnswers)

/-- The `WaitGroup` of a `finishPendingDelete`, as an entry among the readers. -/
def newWaitGroup : Reader := ⟨⟨0, 0, 0, 0⟩, [], 0, .returned .ok, 0⟩

namespace DataCache

/-- A line leaves the map of its file and the Clean LRU, and is freed. -/
def dropClean (c : DataCache) (cfg : CacheConfig) (ans : DiskAnswers) (i n l : ℕ) : DataCache :=
  ((c.setCacheMap i n none).popClean l).freeLine cfg ans l

/-- A loop over the map of a file that drops its clean lines.  It ends the
process at another line, or leaves that line. -/
def dropLines (cfg : CacheConfig) (ans : DiskAnswers) (i : ℕ) (onlyClean : Bool) :
    List ℕ → DataCache → DataCache
  | [], c => c
  | n :: order, c =>
      match c.cacheMap i n with
      -- not in the map: the fetch of the line never began
      | none => dropLines cfg ans i onlyClean order c
      | some l =>
          -- an index past the tracker is the source's Fatalf
          if cfg.cacheLines ≤ l then { c with fatal := true }
          else if (c.lines l).state = .clean then
            dropLines cfg ans i onlyClean order (c.dropClean cfg ans i n l)
          -- the caller asked for clean lines only and met another
          else if onlyClean then { c with fatal := true }
          else dropLines cfg ans i onlyClean order c

/-- The first loop of `finishPendingDelete`. -/
def dropCleanLines (cfg : CacheConfig) (ans : DiskAnswers) (i : ℕ) (order : List ℕ)
    (c : DataCache) : DataCache :=
  dropLines cfg ans i false order c

/-- `clearFileCacheLinesLocked` -/
def clearFileCacheLinesLocked (cfg : CacheConfig) (ans : DiskAnswers) (i : ℕ) (order : List ℕ)
    (c : DataCache) : DataCache :=
  dropLines cfg ans i true order c

/-- The inbound and clean lines of a file are among those that a loop over its
map comes to. -/
def Visits (c : DataCache) (cfg : CacheConfig) (i : ℕ) (order : List ℕ) : Prop :=
  ∀ l < cfg.cacheLines, (c.lines l).state = .inbound ∨ (c.lines l).state = .clean →
    (c.lines l).inodeNumber = i → (c.lines l).lineNumber ∈ order

instance (c : DataCache) (cfg : CacheConfig) (i : ℕ) (order : List ℕ) :
    Decidable (c.Visits cfg i order) := by
  unfold Visits
  infer_instance

end DataCache

namespace CachedFiles

variable (cfg : CacheConfig) (objects : ℕ → List UInt8) (f : CachedFiles)

/-- `inodeMap`, with the contents of the objects. -/
def inodes (i : ℕ) : Option InodeInfo := if f.inodeMap i then some ⟨true, objects i⟩ else none

/-- The objects, whatever inodes there are. -/
def objectInodes (i : ℕ) : Option InodeInfo := some ⟨true, objects i⟩

/-- What a step of the data cache goes by: the backend reads objects. -/
def view : CacheStep → ℕ → Option InodeInfo
  | .fetchAnswer _ _ => objectInodes objects
  | _ => f.inodes objects

/-- `fhSet`, with `allowReads` of the handles. -/
def handles (i fh : ℕ) : Option Bool :=
  if fh ∈ (f.inode i).fhSet then (f.fhMap fh).map FileHandle.allowReads else none

/-- `globals.logger.Fatalf` -/
def fatalf : CachedFiles := { f with cache := { f.cache with fatal := true } }

/-- An inode changes. -/
def setInode (i : ℕ) (ino : CachedInode) : CachedFiles :=
  { f with inode := Function.update f.inode i ino }

/-- `touch`: files that nobody uses are put on the eviction queue. -/
def touch (i : ℕ) : CachedFiles :=
  let ino := f.inode i
  f.setInode i { ino with
    queued := !ino.pendingDelete && ino.fhSet.isEmpty && f.cache.inboundCacheLineCount i == 0 }

/-- The backend of an inode is not in `backendMap`. -/
def lostBackend (i : ℕ) : Bool :=
  f.inodeMap i && (f.backendMap (f.inode i).backendNonce).isNone

/-- A handle of an inode is not in `fhMap`. -/
def lostHandle (i fh : ℕ) : Bool :=
  f.inodeMap i && decide (fh ∈ (f.inode i).fhSet) && (f.fhMap fh).isNone

/-- A section of `DoRead` starts with the lookups of its inode and its handle,
and touches the inode. -/
def readChecks (readIn : ReadIn) : CachedFiles :=
  if f.lostBackend readIn.inode || f.lostHandle readIn.inode readIn.fh then f.fatalf
  else if f.inodeMap readIn.inode ∧ f.handles readIn.inode readIn.fh = some true then
    f.touch readIn.inode
  else f

/-- What comes before a step of the data cache in the same section. -/
def cacheChecks : CacheStep → Option CachedFiles
  | .read r _ => (f.cache.readers[r]?).map fun rd =>
      if rd.readIn.size ≤ rd.data.length then f else f.readChecks rd.readIn
  | .assign r _ => (f.cache.readers[r]?).map fun rd => f.readChecks rd.readIn
  | .fetchBegin l _ =>
      some (if f.lostBackend (f.cache.lines l).inodeNumber then f.fatalf else f)
  | .handle _ _ _ => none
  | _ => some f

/-- A step of the data cache. -/
def cacheStep (s : CacheStep) : Option CachedFiles := do
  let c ← DataCache.step cfg (f.view objects s) { f.cache with handles := f.handles } s
  let checked ← f.cacheChecks s
  if checked.cache.fatal then some checked else some { checked with cache := c }

/-- `processToMountList` -/
def mount (readOnly : Bool) : CachedFiles :=
  { f with
    backendMap := Function.update f.backendMap (f.lastNonce + 1) (some readOnly)
    lastNonce := f.lastNonce + 1 }

/-- `processToUnmountListAlreadyLocked` and `emptyChildInodes`: lines and handles
are left as they are. -/
def unmount (nonce : ℕ) : CachedFiles :=
  { f with
    inodeMap := fun i => f.inodeMap i && (f.inode i).backendNonce != nonce
    inode := fun i =>
      if f.inodeMap i && (f.inode i).backendNonce == nonce then { f.inode i with queued := false }
      else f.inode i
    backendMap := Function.update f.backendMap nonce none }

/-- `createFileObjectInode` -/
def createFileObjectInode (nonce : ℕ) : CachedFiles :=
  if (f.backendMap nonce).isNone then f.fatalf
  else
    let i := f.lastNonce + 1
    ({ f with
      cache := { f.cache with
        cacheMap := Function.update f.cache.cacheMap i fun _ => none
        inboundCacheLineCount := Function.update f.cache.inboundCacheLineCount i 0 }
      inode := Function.update f.inode i
        { backendNonce := nonce, fhSet := [], pendingDelete := false, queued := false }
      inodeMap := Function.update f.inodeMap i true
      lastNonce := i } : CachedFiles).touch i

/-- `DoOpen` -/
def doOpen (i : ℕ) (exclusive : Bool) (mode : AccessMode) : CachedFiles :=
  if !f.inodeMap i then f
  else
    match f.backendMap (f.inode i).backendNonce with
    | none => f.fatalf
    | some readOnly =>
        -- ENOENT: the file is on its way out
        if (f.inode i).pendingDelete then f
        else
          let opened :=
            if mode ≠ AccessMode.RDONLY ∧ readOnly then f
            else
              let nonce := f.lastNonce + 1
              (({ f with
                fhMap := Function.update f.fhMap nonce
                  (some ⟨exclusive, decide (mode ≠ AccessMode.WRONLY)⟩)
                lastNonce := nonce }).setInode i { f.inode i with
                  fhSet := nonce :: (f.inode i).fhSet }).touch i
          -- a single handle may hold the file exclusively
          match (f.inode i).fhSet with
          | [fhNonce] =>
              match f.fhMap fhNonce with
              | none => f.fatalf
              | some fh => if fh.isExclusive then f else opened
          | _ => opened

/-- `finishPendingDelete` is called. -/
def callFinishPendingDelete (i : ℕ) : CachedFiles :=
  { f with
    cache := { f.cache with readers := f.cache.readers ++ [newWaitGroup] }
    deletes := f.deletes ++ [⟨i, f.cache.readers.length, false⟩] }

/-- `DoRelease` -/
def doRelease (i fh : ℕ) : CachedFiles :=
  if !f.inodeMap i then f
  else if f.lostBackend i then f.fatalf
  else if fh ∉ (f.inode i).fhSet then f.touch i
  else if (f.fhMap fh).isNone then f.fatalf
  else
    let released := (({ f with fhMap := Function.update f.fhMap fh none }).setInode i
      { f.inode i with fhSet := (f.inode i).fhSet.erase fh }).touch i
    if !(f.inode i).pendingDelete || !((f.inode i).fhSet.erase fh).isEmpty then released
    else released.callFinishPendingDelete i

/-- `DoUnlink`, behind the lookup of the name. -/
def doUnlink (i : ℕ) : CachedFiles :=
  if !f.inodeMap i then f
  else
    match f.backendMap (f.inode i).backendNonce with
    | none => f.fatalf
    | some readOnly =>
        if readOnly then f
        else
          let found := f.touch i
          -- a second unlink finds the mark and returns
          if (f.inode i).pendingDelete then found
          else
            let marked := (found.setInode i { found.inode i with pendingDelete := true }).touch i
            -- the last release starts the deletion where handles are still open
            if (f.inode i).fhSet ≠ [] then marked else marked.callFinishPendingDelete i

/-- The last part of `finishPendingDelete`: the object is deleted and the inode
removed. -/
def removeDeleted (d : ℕ) (del : PendingDelete) : CachedFiles :=
  if (f.backendMap (f.inode del.inode).backendNonce).isNone then f.fatalf
  else if !f.inodeMap del.inode then f.fatalf
  else
    { f with
      inodeMap := Function.update f.inodeMap del.inode false
      deletes := f.deletes.set d { del with returned := true } }

/-- A section of `finishPendingDelete`, from `Restart` on. -/
def finishPendingDelete (d : ℕ) (del : PendingDelete) (order : List ℕ) (ans : DiskAnswers) :
    CachedFiles :=
  let c := DataCache.dropCleanLines cfg ans del.inode order f.cache
  let dropped := { f with cache := c }
  if c.fatal then dropped
  else
    -- the first line still in the map is inbound: wait for its fetch
    match order.findSome? fun n => c.cacheMap del.inode n with
    | none => dropped.removeDeleted d del
    | some l =>
        if cfg.cacheLines ≤ l then dropped.fatalf
        else
          { f with
            cache := (c.updLine l fun t =>
              { t with waiters := t.waiters ++ [del.cacheLineWaiter] }).setReader
                del.cacheLineWaiter { newWaitGroup with waits := 1 } }

/-- A turn of the loop of `inodeEvictor`. -/
def evict (i : ℕ) (order : List ℕ) (ans : DiskAnswers) : CachedFiles :=
  if !f.inodeMap i then f.fatalf
  else
    let c := DataCache.clearFileCacheLinesLocked cfg ans i order f.cache
    if c.fatal then { f with cache := c }
    else
      ({ f with
        cache := c
        inodeMap := Function.update f.inodeMap i false }).setInode i
          { f.inode i with queued := false }

/-- A step that is enabled, in a process that has not ended. -/
def stepAlive : FileStep → Option CachedFiles
  | .cache s => f.cacheStep cfg objects s
  | .mount readOnly => some (f.mount readOnly)
  | .unmount nonce => if (f.backendMap nonce).isSome then some (f.unmount nonce) else none
  | .createFileObjectInode nonce => some (f.createFileObjectInode nonce)
  | .touch i => if f.inodeMap i then some (f.touch i) else none
  | .doOpen i exclusive mode => some (f.doOpen i exclusive mode)
  | .doRelease i fh => some (f.doRelease i fh)
  | .doUnlink i => some (f.doUnlink i)
  -- the goroutine runs on when its waiter has been signalled
  | .finishPendingDelete d order ans => do
      let del ← f.deletes[d]?
      let waiter ← f.cache.readers[del.cacheLineWaiter]?
      if del.returned = false ∧ waiter.waits = 0 ∧ order.Nodup ∧ f.cache.Visits cfg del.inode order
      then some (f.finishPendingDelete cfg d del order ans)
      else none
  | .evict i order ans =>
      if (f.inode i).queued ∧ order.Nodup ∧ f.cache.Visits cfg i order then
        some (f.evict cfg i order ans)
      else none

/-- One step. -/
def step (f : CachedFiles) (s : FileStep) : Option CachedFiles :=
  if f.cache.fatal then none else f.stepAlive cfg objects s

/-- No backend is mounted yet. -/
def initial (reads : List ReadIn) : CachedFiles where
  cache := DataCache.dataCacheUp cfg reads fun _ _ => none
  inode _ := { backendNonce := 0, fhSet := [], pendingDelete := false, queued := false }
  inodeMap _ := false
  backendMap _ := none
  fhMap _ := none
  lastNonce := 1
  deletes := []

end CachedFiles

end MultiStorageFileSystem
