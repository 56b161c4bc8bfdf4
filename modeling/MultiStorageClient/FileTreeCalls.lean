/-
MultiStorageClient/FileTreeCalls.lean

The sections under the global lock: the functions of `fs.go` on inodes and
directory entries, and the calls of `fission.go` that come down to them.

A call that unlocks while it waits for the backend leaves its locals behind (in
its handle, or among `prefetches` and `pendingDeletes`), and goes on in another
section.  What a backend or a manifest part says is an argument.
-/
import MultiStorageClient.FileTree

namespace MultiStorageFileSystem

/-- `syscall.Errno` of the calls on directories. -/
inductive TreeErrno
  | ENOENT
  | ENOTDIR
  | EPERM
  | EEXIST
  | EISDIR
  | EBUSY
  | ENOTEMPTY
  | EACCES
  | EBADF
  deriving DecidableEq

/-- How a section ends, for who called. -/
inductive Reply
  | done
  | errno (errno : TreeErrno)
  /-- the `NodeID` of `EntryOut` -/
  | entry (i : ℕ)
  /-- the `FH` of `OpenOut` -/
  | opened (fh : ℕ)
  /-- the entries of `ReadDirOut`, or of `ReadDirPlusOut` -/
  | entries (dirEnt : List DirEnt)
  /-- the call has unlocked, and waits -/
  | waiting
  deriving DecidableEq

/-- What is found under a name that has no inode yet. -/
inductive Found
  /-- in the manifest part of the directory -/
  | manifest (entry : ManifestPartEntry)
  /-- by `statFileWrapper` -/
  | file (info : FileInfo)
  /-- by `statDirectoryWrapper` -/
  | directory
  | nothing

/-- The configuration that the sections read. -/
structure TreeConfig where
  virtualFileTTL : ℕ
  virtualDirTTL : ℕ
  evictableInodeTTL : ℕ
  /-- `fission.DirEntFixedPortionSize` -/
  dirEntFixedPortionSize : ℕ
  /-- `fission.DirEntPlusFixedPortionSize` -/
  dirEntPlusFixedPortionSize : ℕ
  /-- `fission.DirEntAlignment` -/
  dirEntAlignment : ℕ

namespace TreeSection

/-- `globals.logger.Fatalf` -/
def fatalf {α : Type} : TreeSection α := throw .fatalf

/-- One operation. -/
def perform (o : TreeOp) : TreeSection o.Answer := Prog.perform o

/-- What follows a put or a delete everywhere. -/
def orFatalf (ok : Bool) : TreeSection Unit := if ok then pure () else fatalf

/-- `fetchNonce` -/
def fetchNonce : TreeSection ℕ := perform .fetchNonce

/-- `inodeMap.get` -/
def inodeGet (i : ℕ) : TreeSection Bool := perform (.inodeGet i)

/-- `inodeMap.put` -/
def inodePut (i : ℕ) (ino : Inode) : TreeSection Bool := perform (.inodePut i ino)

/-- `inodeMap.delete` -/
def inodeDelete (i : ℕ) : TreeSection Bool := perform (.inodeDelete i)

/-- The fields of an inode. -/
def deref (i : ℕ) : TreeSection Inode := perform (.deref i)

/-- `inode.isVirt` is set. -/
def setIsVirt (i : ℕ) (isVirt : Bool) : TreeSection Unit := perform (.setIsVirt i isVirt)

/-- `physChildDirEntryMap.getByKey` -/
def physGet (d : ℕ) (name : String) : TreeSection (Option ℕ) := perform (.physGet d name)

/-- `physChildDirEntryMap.put` -/
def physPut (d : ℕ) (name : String) (i : ℕ) : TreeSection Bool := perform (.physPut d name i)

/-- `physChildDirEntryMap.delete` -/
def physDelete (d : ℕ) (name : String) : TreeSection Bool := perform (.physDelete d name)

/-- A directory has no phys entries. -/
def physIsEmpty (d : ℕ) : TreeSection Bool := perform (.physIsEmpty d)

/-- `physChildDirEntryMap.getIndexRange` -/
def physIndexRange (d : ℕ) : TreeSection (ℕ × ℕ) := perform (.physIndexRange d)

/-- `physChildDirEntryMap.getByIndex`, in the shard of a directory. -/
def physByIndex (d k : ℕ) : TreeSection (Option (String × ℕ)) := perform (.physByIndex d k)

/-- `virtChildDirEntryMap.getByKey` -/
def virtGet (d : ℕ) (name : String) : TreeSection (Option ℕ) := perform (.virtGet d name)

/-- `virtChildDirEntryMap.put` -/
def virtPut (d : ℕ) (name : String) (i : ℕ) : TreeSection Bool := perform (.virtPut d name i)

/-- `virtChildDirEntryMap.delete` -/
def virtDelete (d : ℕ) (name : String) : TreeSection Bool := perform (.virtDelete d name)

/-- `virtChildDirEntryMap.getIndexRange` -/
def virtIndexRange (d : ℕ) : TreeSection (ℕ × ℕ) := perform (.virtIndexRange d)

/-- `virtChildDirEntryMap.getByIndex` -/
def virtByIndex (k : ℕ) : TreeSection (Option (String × ℕ)) := perform (.virtByIndex k)

/-- `inode.xTime` -/
def xTime (i : ℕ) : TreeSection (Option ℕ) := perform (.xTime i)

/-- `inode.xTime` is set. -/
def setXTime (i : ℕ) (xTime : Option ℕ) : TreeSection Unit := perform (.setXTime i xTime)

/-- `inodeEvictionQueue.front` -/
def queueFront : TreeSection (Option (ℕ × ℕ)) := perform .queueFront

/-- `inodeEvictionQueue.insert` -/
def queueInsert (i : ℕ) : TreeSection Bool := perform (.queueInsert i)

/-- `inodeEvictionQueue.remove` -/
def queueRemove (i : ℕ) : TreeSection Bool := perform (.queueRemove i)

/-- What only a holder of the global lock looks at. -/
def globals : TreeSection Globals := perform .globals

/-- It changes. -/
def modify (f : Globals → Globals) : TreeSection Unit := perform (.modify f)

end TreeSection

namespace Globals

/-- The counts of an inode change. -/
def setUse (g : Globals) (i : ℕ) (use : InodeUse) : Globals :=
  { g with use := Function.update g.use i use }

/-- A handle is made, changed or closed. -/
def setFh (g : Globals) (fh : ℕ) (h : Option Fh) : Globals :=
  { g with fhMap := Function.update g.fhMap fh h }

/-- A cache line changes. -/
def setLine (g : Globals) (l : ℕ) (line : TreeLine) : Globals :=
  { g with dataCacheLinesTracker := g.dataCacheLinesTracker.set l line }

/-- A handle is added to the `fhSet` of its inode and to `fhMap`. -/
def addFh (g : Globals) (nonce : ℕ) (h : Fh) : Globals :=
  (g.setUse h.inode { g.use h.inode with fhSet := nonce :: (g.use h.inode).fhSet }).setFh nonce h

/-- A handle is deleted from both. -/
def deleteFh (g : Globals) (i nonce : ℕ) : Globals :=
  (g.setUse i { g.use i with fhSet := (g.use i).fhSet.erase nonce }).setFh nonce none

/-- `inode.pendingDelete` is set. -/
def markPendingDelete (g : Globals) (i : ℕ) : Globals :=
  g.setUse i { g.use i with pendingDelete := true }

/-- `inode.isPrefetchInProgress` is set. -/
def setPrefetchInProgress (g : Globals) (i : ℕ) (inProgress : Bool) : Globals :=
  g.setUse i { g.use i with isPrefetchInProgress := inProgress }

/-- A `prefetchDirectory` starts. -/
def addPrefetch (g : Globals) (d : ℕ) : Globals :=
  { g.setPrefetchInProgress d true with prefetches := g.prefetches ++ [⟨d, false⟩] }

/-- The `k`-th `prefetchDirectory` is to list. -/
def setListing (g : Globals) (k d : ℕ) : Globals :=
  { g with prefetches := g.prefetches.set k ⟨d, true⟩ }

/-- The `k`-th `prefetchDirectory` ends. -/
def erasePrefetch (g : Globals) (k : ℕ) : Globals :=
  { g with prefetches := g.prefetches.eraseIdx k }

/-- A `finishPendingDelete` starts. -/
def addPendingDelete (g : Globals) (i : ℕ) : Globals :=
  { g with pendingDeletes := i :: g.pendingDeletes }

/-- An inode is no longer pending. -/
def erasePendingDelete (g : Globals) (i : ℕ) : Globals :=
  { g with pendingDeletes := g.pendingDeletes.erase i }

/-- `backendMap` changes at a nonce. -/
def setBackend (g : Globals) (nonce : ℕ) (backend : Option Backend) : Globals :=
  { g with backendMap := Function.update g.backendMap nonce backend }

/-- `inode.inboundCacheLineCount` is set. -/
def setInboundCacheLineCount (g : Globals) (i n : ℕ) : Globals :=
  g.setUse i { g.use i with inboundCacheLineCount := n }

/-- The time passes. -/
def later (g : Globals) : Globals := { g with now := fun k => g.now (k + 1) }

/-- The clean lines of an inode are freed. -/
def freeCleanLines (g : Globals) (i : ℕ) : Globals :=
  { g with dataCacheLinesTracker := g.dataCacheLinesTracker.map fun line =>
      if line.inodeNumber = i ∧ line.state = .clean then { line with state := .free } else line }

/-- A line of the inode is being fetched. -/
def hasInbound (g : Globals) (i : ℕ) : Bool :=
  g.dataCacheLinesTracker.any fun line => line.inodeNumber = i ∧ line.state = .inbound

end Globals

variable (cfg : TreeConfig)

namespace TreeSection

/-! ### Inodes and entries -/

/-- `globals.backendMap[nonce]`, which has to be there. -/
def backendOf (nonce : ℕ) : TreeSection Backend := do
  match (← globals).backendMap nonce with
  | none => fatalf
  | some backend => pure backend

/-- `time.Now()` -/
def timeNow : TreeSection ℕ := do
  let g ← globals
  modify Globals.later
  pure (g.now 0)

/-- An inode that has an `xTime` leaves the eviction queue. -/
def dequeue (i : ℕ) : TreeSection Unit := do
  if (← xTime i).isSome then orFatalf (← queueRemove i)

/-- The same, and its `xTime` is reset. -/
def untime (i : ℕ) : TreeSection Unit := do
  if (← xTime i).isSome then
    orFatalf (← queueRemove i)
    setXTime i none

/-- An inode is put on the eviction queue for some time. -/
def enqueue (i ttl : ℕ) : TreeSection Unit := do
  let now ← timeNow
  setXTime i (some (now + ttl))
  orFatalf (← queueInsert i)

/-- `touch` -/
def touch (i : ℕ) : TreeSection Unit := do
  untime i
  let ino ← deref i
  match ino.inodeType with
  | .FileObject =>
      let use := (← globals).use i
      -- a file in use stays out of the eviction queue
      if !use.pendingDelete && use.fhSet.isEmpty && use.inboundCacheLineCount == 0 then
        enqueue i (if ino.isVirt then cfg.virtualFileTTL else cfg.evictableInodeTTL)
  | .FUSERootDir => pure ()
  | .BackendRootDir => pure ()
  | .PseudoDir =>
      let noPhys ← physIsEmpty i
      let virt ← virtIndexRange i
      let use := (← globals).use i
      -- the two entries are the directory's own . and ..
      if use.fhSet.isEmpty && noPhys && virt.2 - virt.1 == 2 then
        enqueue i (if ino.isVirt then cfg.virtualDirTTL else cfg.evictableInodeTTL)

/-- A new entry, in the map that `isVirt` tells. -/
def putEntry (isVirt : Bool) (d : ℕ) (name : String) (i : ℕ) : TreeSection Unit := do
  if isVirt then orFatalf (← virtPut d name i) else orFatalf (← physPut d name i)

/-- An entry is deleted from the map that `isVirt` tells. -/
def deleteEntry (isVirt : Bool) (d : ℕ) (name : String) : TreeSection Unit := do
  if isVirt then orFatalf (← virtDelete d name) else orFatalf (← physDelete d name)

/-- The inode of a new directory in another. -/
def pseudoDirInode (parent : Inode) (p : ℕ) (isVirt : Bool) (basename : String) (mTime : ℕ) :
    Inode where
  inodeType := .PseudoDir
  backendNonce := parent.backendNonce
  parentInodeNumber := p
  isVirt := isVirt
  objectPath := parent.objectPath ++ basename ++ "/"
  basename := basename
  info := ⟨0, "", mTime⟩

/-- The inode of a file that has been found. -/
def fileObjectInode (parent : Inode) (p : ℕ) (isVirt : Bool) (basename : String)
    (info : FileInfo) : Inode where
  inodeType := .FileObject
  backendNonce := parent.backendNonce
  parentInodeNumber := p
  isVirt := isVirt
  objectPath := parent.objectPath ++ basename
  basename := basename
  info := info

/-- `createPseudoDirInode` -/
def createPseudoDirInode (p : ℕ) (isVirt : Bool) (basename : String) (skipTouch : Bool) :
    TreeSection ℕ := do
  let timeNow ← timeNow
  let parent ← deref p
  let _ ← backendOf parent.backendNonce
  let i ← fetchNonce
  orFatalf (← inodePut i (pseudoDirInode parent p isVirt basename timeNow))
  putEntry isVirt p basename i
  -- . and .. are virtual entries also of a physical directory
  orFatalf (← virtPut i DotDirEntryBasename i)
  orFatalf (← virtPut i DotDotDirEntryBasename p)
  if skipTouch then pure i
  else
    touch cfg p
    touch cfg i
    pure i

/-- `createFileObjectInode` -/
def createFileObjectInode (p : ℕ) (isVirt : Bool) (basename : String) (info : FileInfo) :
    TreeSection ℕ := do
  let parent ← deref p
  let _ ← backendOf parent.backendNonce
  let i ← fetchNonce
  orFatalf (← inodePut i (fileObjectInode parent p isVirt basename info))
  putEntry isVirt p basename i
  touch cfg p
  touch cfg i
  pure i

/-- `convertToPhysInodeIfNecessary` -/
def convertToPhysInodeIfNecessary (i : ℕ) : TreeSection Unit := do
  let ino ← deref i
  if !ino.isVirt || (ino.inodeType != .FileObject && ino.inodeType != .PseudoDir) then pure ()
  else
    untime i
    setIsVirt i false
    orFatalf (← virtDelete ino.parentInodeNumber ino.basename)
    orFatalf (← physPut ino.parentInodeNumber ino.basename i)
    touch cfg i

/-- `clearFileCacheLinesLocked` -/
def clearFileCacheLinesLocked (i : ℕ) : TreeSection Unit := do
  if (← deref i).inodeType = .FileObject then
    if (← globals).hasInbound i then fatalf
    else modify fun g => g.freeCleanLines i

/-- The inode leaves its parent and `inodeMap`, and the parent is touched. -/
def removeInode (i : ℕ) : TreeSection Unit := do
  let ino ← deref i
  orFatalf (← inodeGet ino.parentInodeNumber)
  deleteEntry ino.isVirt ino.parentInodeNumber ino.basename
  orFatalf (← inodeDelete i)
  touch cfg ino.parentInodeNumber

/-- A turn of the loop of `inodeEvictor` at the time `now`, or of
`inodeEvictorForceDrain`. -/
def evict (now : Option ℕ) : TreeSection Reply := do
  match ← queueFront with
  | none => pure .done
  | some (xTime, i) =>
      if now.any fun now => now < xTime then pure .done
      else
        orFatalf (← inodeGet i)
        orFatalf (← queueRemove i)
        clearFileCacheLinesLocked i
        removeInode cfg i
        pure .done

/-- `go prefetchDirectory`, unless one is in progress. -/
def startPrefetch (d : ℕ) : TreeSection Unit := do
  if ((← globals).use d).isPrefetchInProgress then pure ()
  else modify fun g => g.addPrefetch d

/-- The inode of an entry, which has to be there. -/
def childOf (i : ℕ) : TreeSection ℕ := do
  orFatalf (← inodeGet i)
  pure i

/-- The lookups of `findChildInode`, with what is created. -/
def findOrCreateChild (p : ℕ) (basename : String) (found : Found) : TreeSection (Option ℕ) := do
  match ← physGet p basename with
  | some i => some <$> childOf i
  | none =>
      match ← virtGet p basename with
      | some i => some <$> childOf i
      | none =>
          let _ ← backendOf (← deref p).backendNonce
          match found with
          | .manifest entry =>
              if entry.isDir then some <$> createPseudoDirInode cfg p false basename false
              else some <$> createFileObjectInode cfg p false basename entry.info
          | .file info =>
              let i ← createFileObjectInode cfg p false basename info
              startPrefetch p
              pure (some i)
          | .directory =>
              let i ← createPseudoDirInode cfg p false basename false
              startPrefetch p
              pure (some i)
          | .nothing => pure none

/-- `findChildInode` -/
def findChildInode (p : ℕ) (basename : String) (found : Found) : TreeSection (Option ℕ) := do
  let child ← findOrCreateChild cfg p basename found
  touch cfg p
  match child with
  | none => pure none
  | some i =>
      touch cfg i
      pure (some i)

/-- The lookups of `findChildDirInode` and `findChildFileInode`, with what is
created. -/
def findOr (p : ℕ) (basename : String) (create : TreeSection ℕ) : TreeSection ℕ := do
  match ← physGet p basename with
  | some i => childOf i
  | none =>
      match ← virtGet p basename with
      | some i => childOf i
      | none => create

/-- `findChildDirInode` and `findChildFileInode`, which differ in what they
create. -/
def findChildOr (p : ℕ) (basename : String) (create : TreeSection ℕ) : TreeSection ℕ := do
  let i ← findOr p basename create
  touch cfg p
  touch cfg i
  pure i

/-- `findChildDirInode` -/
def findChildDirInode (p : ℕ) (basename : String) : TreeSection ℕ :=
  findChildOr cfg p basename (createPseudoDirInode cfg p false basename false)

/-- `findChildFileInode` -/
def findChildFileInode (p : ℕ) (basename : String) (info : FileInfo) : TreeSection ℕ :=
  findChildOr cfg p basename (createFileObjectInode cfg p false basename info)

/-! ### Calls on names -/

/-- The start of most calls: the inode of the header and its backend.  Only the
root has no backend. -/
def withInode (i : ℕ) (missing : TreeErrno) (body : Inode → Option Backend → TreeSection Reply) :
    TreeSection Reply := do
  if ← inodeGet i then
    let ino ← deref i
    if ino.backendNonce = 0 then body ino none
    else
      let backend ← backendOf ino.backendNonce
      body ino (some backend)
  else pure (.errno missing)

/-- `LookupOut`, which needs the backend of the inode. -/
def lookupOut (i : ℕ) : TreeSection Reply := do
  let _ ← backendOf (← deref i).backendNonce
  pure (.entry i)

/-- `DoLookup`; `found` is the answer of the backend. -/
def doLookup (p : ℕ) (name : String) (found : Found) : TreeSection Reply :=
  withInode p .ENOENT fun parent _ =>
    match parent.inodeType with
    | .FileObject => pure (.errno .ENOTDIR)
    | .FUSERootDir => do
        match ← physGet p name with
        | some i => lookupOut (← childOf i)
        | none =>
            match ← virtGet p name with
            | some i => lookupOut (← childOf i)
            | none => pure (.errno .ENOENT)
    | _ => do
        match ← findChildInode cfg p name found with
        | none => pure (.errno .ENOENT)
        | some i =>
            if ((← globals).use i).pendingDelete then pure (.errno .ENOENT) else lookupOut i

/-- `DoGetAttr` -/
def doGetAttr (i : ℕ) : TreeSection Reply :=
  withInode i .ENOENT fun _ _ => do
    if ((← globals).use i).pendingDelete then pure (.errno .ENOENT)
    else
      touch cfg i
      pure (.entry i)

/-- `DoMkDir` -/
def doMkDir (p : ℕ) (basename : String) (found : Found) : TreeSection Reply :=
  withInode p .ENOENT fun parent backend =>
    match parent.inodeType with
    | .FileObject => pure (.errno .ENOTDIR)
    | .FUSERootDir => pure (.errno .EPERM)
    | _ =>
        if backend.any Backend.readOnly then pure (.errno .EPERM)
        else do
          match ← findChildInode cfg p basename found with
          | some _ => pure (.errno .EEXIST)
          | none => .entry <$> createPseudoDirInode cfg p true basename false

/-- `DoUnlink` -/
def doUnlink (p : ℕ) (basename : String) (found : Found) : TreeSection Reply :=
  withInode p .ENOTDIR fun parent backend => do
    touch cfg p
    match parent.inodeType with
    | .FUSERootDir => pure (.errno .EPERM)
    | .FileObject => pure (.errno .ENOTDIR)
    | _ =>
        if backend.any Backend.readOnly then pure (.errno .EPERM)
        else
          match ← findChildInode cfg p basename found with
          | none => pure (.errno .ENOENT)
          | some i =>
              if ((← globals).use i).pendingDelete then pure (.errno .ENOENT)
              else if (← deref i).inodeType ≠ .FileObject then
                touch cfg i
                pure (.errno .EISDIR)
              else
                modify fun g => g.markPendingDelete i
                touch cfg i
                if ((← globals).use i).fhSet ≠ [] then pure .done
                else
                  modify fun g => g.addPendingDelete i
                  pure .waiting

/-- `finishPendingDelete`, from `Restart` on.  What the backend says to the
delete of the object is only logged. -/
def finishPendingDelete (i : ℕ) : TreeSection Reply := do
  modify fun g => g.freeCleanLines i
  if (← globals).hasInbound i then pure .waiting
  else
    let ino ← deref i
    if !ino.isVirt then
      let _ ← backendOf ino.backendNonce
    modify fun g => g.erasePendingDelete i
    removeInode cfg i
    pure .done

/-- `DoRmDir` -/
def doRmDir (p : ℕ) (basename : String) (found : Found) : TreeSection Reply :=
  withInode p .ENOENT fun parent backend =>
    match parent.inodeType with
    | .FileObject => pure (.errno .ENOTDIR)
    | .FUSERootDir => pure (.errno .EPERM)
    | _ =>
        if backend.any Backend.readOnly then pure (.errno .EPERM)
        else do
          match ← findChildInode cfg p basename found with
          | none => pure (.errno .ENOENT)
          | some i =>
              if (← deref i).inodeType ≠ .PseudoDir then pure (.errno .ENOTDIR)
              else if ((← globals).use i).fhSet ≠ [] then pure (.errno .EBUSY)
              else
                -- empty as far as the tree remembers: no child but . and ..
                let noPhys ← physIsEmpty i
                let virt ← virtIndexRange i
                if !noPhys || 2 < virt.2 - virt.1 then pure (.errno .ENOTEMPTY)
                else
                  dequeue i
                  orFatalf (← virtDelete i DotDirEntryBasename)
                  orFatalf (← virtDelete i DotDotDirEntryBasename)
                  deleteEntry (← deref i).isVirt p basename
                  orFatalf (← inodeDelete i)
                  touch cfg p
                  pure .done

/-! ### Handles -/

/-- `globals.fhMap[fh]`, which has to be there. -/
def handleOf (fh : ℕ) : TreeSection Fh := do
  match (← globals).fhMap fh with
  | none => fatalf
  | some h => pure h

/-- A handle of which nothing has been read. -/
def newFh (i : ℕ) (isExclusive allowReads serveFromBPTree : Bool) : Fh where
  inode := i
  isExclusive := isExclusive
  allowReads := allowReads
  listDirectoryInProgress := none
  listDirectorySequenceDone := false
  prevListDirectoryOutput := none
  prevListDirectoryOutputStartingOffset := 0
  nextListDirectoryOutput := none
  nextListDirectoryOutputStartingOffset := 0
  listDirectorySubdirectoryList := []
  serveFromBPTree := serveFromBPTree
  manifestEntries := none

/-- A new handle of an inode. -/
def openFh (h : Fh) : TreeSection Reply := do
  let nonce ← fetchNonce
  modify fun g => g.addFh nonce h
  touch cfg h.inode
  pure (.opened nonce)

/-- `DoOpen` -/
def doOpen (i : ℕ) (isExclusive : Bool) (mode : AccessMode) : TreeSection Reply :=
  withInode i .ENOENT fun ino backend => do
    let use := (← globals).use i
    if use.pendingDelete then pure (.errno .ENOENT)
    else if ino.inodeType ≠ .FileObject then pure (.errno .EISDIR)
    else
      -- an exclusive handle is always alone on its inode
      let isTaken ← match use.fhSet with
        | [fh] => Fh.isExclusive <$> handleOf fh
        | _ => pure false
      if isTaken then pure (.errno .EACCES)
      else if mode ≠ .RDONLY && backend.any Backend.readOnly then pure (.errno .EACCES)
      else openFh cfg (newFh i isExclusive (mode ≠ .WRONLY) false)

/-- `DoRelease` -/
def doRelease (i fh : ℕ) : TreeSection Reply :=
  withInode i .ENOENT fun ino _ => do
    if ino.inodeType ≠ .FileObject then
      touch cfg i
      pure (.errno .EBADF)
    else if fh ∉ ((← globals).use i).fhSet then
      touch cfg i
      pure (.errno .EBADF)
    else
      let _ ← handleOf fh
      modify fun g => g.deleteFh i fh
      touch cfg i
      let use := (← globals).use i
      -- the last release of a file marked for deletion starts the deletion
      if !use.pendingDelete || use.fhSet ≠ [] then pure .done
      else
        modify fun g => g.addPendingDelete i
        pure .waiting

/-- `DoOpenDir` -/
def doOpenDir (i : ℕ) : TreeSection Reply :=
  withInode i .ENOENT fun ino backend => do
    match ino.inodeType with
    | .FileObject => pure (.errno .ENOTDIR)
    | .FUSERootDir => openFh cfg (newFh i false false false)
    | _ =>
        -- a directory of a read-only backend that has phys children is served from the B+Tree
        if backend.any Backend.readOnly then
          openFh cfg (newFh i false false !(← physIsEmpty i))
        else openFh cfg (newFh i false false false)

/-- `DoReleaseDir` -/
def doReleaseDir (i fh : ℕ) : TreeSection Reply :=
  withInode i .ENOENT fun ino _ => do
    if fh ∉ ((← globals).use i).fhSet then pure (.errno .EBADF)
    else
      let h ← handleOf fh
      if ino.inodeType = .FileObject then pure (.errno .EBADF)
      -- a listing in progress still needs the handle
      else if ino.inodeType ≠ .FUSERootDir && h.listDirectoryInProgress.isSome then
        pure (.errno .EACCES)
      else
        modify fun g => g.deleteFh i fh
        touch cfg i
        pure .done

end TreeSection

end MultiStorageFileSystem
