/-
MultiStorageClient/FileTreeSteps.lean

The sections that go through many entries (`DoReadDir`, `DoReadDirPlus`,
`prefetchDirectory`, `emptyChildInodes`), those on data cache lines, and the
steps of the file system: each is one section, from lock to unlock.

`DoReadDir` and `DoReadDirPlus` are one program; what the latter serves from
the B+Tree of a read-only backend is left out, as it only reads.  A loop that
ends by its offset has a number of turns that suffices.
-/
import MultiStorageClient.FileTreeCalls

namespace MultiStorageFileSystem

/-- The number of files on a page that may be missing. -/
def fileLen (page : Option ListDirectoryOutput) : ℕ := (page.map fun p => p.file.length).getD 0

namespace Fh

/-- The next page becomes the previous one. -/
def shiftPages (h : Fh) : Fh :=
  match h.nextListDirectoryOutput with
  | none => h
  | some page =>
      { h with
        prevListDirectoryOutput := some page
        prevListDirectoryOutputStartingOffset := h.nextListDirectoryOutputStartingOffset
        nextListDirectoryOutput := none }

/-- The `continuationToken` with which the page behind the previous one is
listed. -/
def continuationToken (h : Fh) : String :=
  (h.prevListDirectoryOutput.map ListDirectoryOutput.nextContinuationToken).getD ""

/-- Subdirectories are remembered once. -/
def rememberSubdirectories (h : Fh) (subdirectories : List String) : Fh :=
  { h with
    listDirectorySubdirectoryList := subdirectories.foldl
      (fun l s => if s ∈ l then l else l ++ [s]) h.listDirectorySubdirectoryList }

/-- A page has come. -/
def addPage (h : Fh) (page : ListDirectoryOutput) : Fh :=
  let h := { h with listDirectorySequenceDone := !page.isTruncated }
  let h :=
    match h.prevListDirectoryOutput with
    -- the first page starts at offset 0
    | none =>
        { h with
          prevListDirectoryOutput := some page
          prevListDirectoryOutputStartingOffset := 0
          nextListDirectoryOutput := none
          nextListDirectoryOutputStartingOffset := page.file.length }
    -- a later page starts where the pages before it end
    | some prev =>
        { h with
          nextListDirectoryOutput := some page
          nextListDirectoryOutputStartingOffset :=
            h.prevListDirectoryOutputStartingOffset + prev.file.length }
  h.rememberSubdirectories page.subdirectory

end Fh

variable (cfg : TreeConfig)

/-- The size of an entry in the answer. -/
def TreeConfig.dirEntSize (plus : Bool) (name : String) : ℕ :=
  let fixed := if plus then cfg.dirEntPlusFixedPortionSize else cfg.dirEntFixedPortionSize
  (fixed + name.utf8ByteSize + cfg.dirEntAlignment - 1) / cfg.dirEntAlignment * cfg.dirEntAlignment

namespace TreeSection

/-! ### Reading directories -/

/-- `appendToReadDirOut` and `appendToReadDirPlusOut`, if there is room. -/
def appendToReadDirOut (call : ReadDirCall) (i : ℕ) (name : String) :
    TreeSection (Option ReadDirCall) := do
  let size := call.curSize + cfg.dirEntSize call.plus name
  if call.size < size then pure none
  else
    let ino ← deref i
    if call.plus && ino.inodeType != .FUSERootDir then
      let _ ← backendOf ino.backendNonce
    pure (some { call with
      dirEnt := call.dirEnt ++ [⟨i, call.curOffset, ino.inodeType.dirEntType, name⟩]
      curSize := size })

/-- The entries of the root, from `curOffset` on. -/
def readRootFrom (start : ℕ) : ℕ → ReadDirCall → TreeSection Reply
  | 0, call => pure (.entries call.dirEnt)
  | turns + 1, call => do
      match ← virtByIndex (start + call.curOffset) with
      | none => fatalf
      | some (name, i) =>
          let _ ← childOf i
          match ← appendToReadDirOut cfg { call with curOffset := call.curOffset + 1 } i name with
          | none => pure (.entries call.dirEnt)
          | some call => readRootFrom start turns call

/-- A child that has been found in a listing. -/
def listedChild (child : TreeSection ℕ) : TreeSection (String × ℕ) := do
  let i ← child
  convertToPhysInodeIfNecessary cfg i
  pure ((← deref i).basename, i)

/-- Any child at an offset, or `none` behind the last one. -/
def childAt (i fh curOffset : ℕ) : TreeSection (Option (String × ℕ)) := do
  let h ← handleOf fh
  let virt ← virtIndexRange i
  let nextCap := h.nextListDirectoryOutputStartingOffset + fileLen h.nextListDirectoryOutput
  let subdirectoryCap := nextCap + h.listDirectorySubdirectoryList.length
  -- inside the previous page
  if curOffset < h.nextListDirectoryOutputStartingOffset then
    match h.prevListDirectoryOutput.bind fun page =>
        page.file[curOffset - h.prevListDirectoryOutputStartingOffset]? with
    | none => fatalf
    | some file => some <$> listedChild cfg (findChildFileInode cfg i file.1 file.2)
  -- inside the next page
  else if curOffset < nextCap then
    match h.nextListDirectoryOutput.bind fun page =>
        page.file[curOffset - h.nextListDirectoryOutputStartingOffset]? with
    | none => fatalf
    | some file => some <$> listedChild cfg (findChildFileInode cfg i file.1 file.2)
  -- the subdirectories that the pages named
  else if curOffset < subdirectoryCap then
    match h.listDirectorySubdirectoryList[curOffset - nextCap]? with
    | none => fatalf
    | some subdirectory => some <$> listedChild cfg (findChildDirInode cfg i subdirectory)
  -- the virtual entries come last
  else if curOffset < subdirectoryCap + (virt.2 - virt.1) then
    match ← virtByIndex (virt.1 + (curOffset - subdirectoryCap)) with
    | none => fatalf
    | some (name, child) =>
        let _ ← childOf child
        pure (some (name, child))
  else pure none

/-- The entries of a directory of a backend, from `curOffset` on, until the next
page is needed. -/
def readDirFrom (i fh : ℕ) : ℕ → ReadDirCall → TreeSection Reply
  | 0, call => pure (.entries call.dirEnt)
  | turns + 1, call => do
      let h ← handleOf fh
      -- the pages at hand are used up and the listing goes on: ask for the next one
      if !h.listDirectorySequenceDone && h.nextListDirectoryOutputStartingOffset
          + fileLen h.nextListDirectoryOutput ≤ call.curOffset then
        modify fun g => g.setFh fh (some { h.shiftPages with listDirectoryInProgress := some call })
        pure .waiting
      else
        match ← childAt cfg i fh call.curOffset with
        | none => pure (.entries call.dirEnt)
        | some (name, child) =>
            let call := { call with curOffset := call.curOffset + 1 }
            if ((← globals).use child).pendingDelete then readDirFrom i fh turns call
            else
              match ← appendToReadDirOut cfg call child name with
              -- the reply is full
              | none => pure (.entries call.dirEnt)
              | some call => readDirFrom i fh turns call

/-- The entries of a directory of a read-only backend by its phys entries, behind
its virt entries. -/
def readBPTreeFrom (i start physStart virtDotCount : ℕ) : ℕ → ReadDirCall → TreeSection Reply
  | 0, call => pure (.entries call.dirEnt)
  | turns + 1, call => do
      let next := { call with curOffset := call.curOffset + 1 }
      if call.curOffset < virtDotCount then
        match ← virtByIndex (start + call.curOffset) with
        | none => pure (.entries call.dirEnt)
        | some (name, child) =>
            if ← inodeGet child then
              match ← appendToReadDirOut cfg next child name with
              | none => pure (.entries call.dirEnt)
              | some call => readBPTreeFrom i start physStart virtDotCount turns call
            else pure (.entries call.dirEnt)
      else
        match ← physByIndex i (physStart + (call.curOffset - virtDotCount)) with
        | none => pure (.entries call.dirEnt)
        | some (name, child) =>
            let size := call.curSize + cfg.dirEntSize call.plus name
            if call.size < size then pure (.entries call.dirEnt)
            else
              -- `put` leaves the `InodeType` of an entry at its zero value
              readBPTreeFrom i start physStart virtDotCount turns { next with
                dirEnt := call.dirEnt ++
                  [⟨child, next.curOffset, InodeType.FileObject.dirEntType, name⟩]
                curSize := size }

/-- The entries of a directory by its manifest part, behind its virt entries. -/
def readManifestFrom (i start virtDotCount : ℕ) (manifestEntries : List ManifestPartEntry) :
    ℕ → ReadDirCall → TreeSection Reply
  | 0, call => pure (.entries call.dirEnt)
  | turns + 1, call => do
      let next := { call with curOffset := call.curOffset + 1 }
      -- the virtual entries come first here
      if call.curOffset < virtDotCount then
        match ← virtByIndex (start + call.curOffset) with
        | none => pure (.entries call.dirEnt)
        | some (name, child) =>
            if ← inodeGet child then
              match ← appendToReadDirOut cfg next child name with
              | none => pure (.entries call.dirEnt)
              | some call => readManifestFrom i start virtDotCount manifestEntries turns call
            else pure (.entries call.dirEnt)
      -- then the entries of the manifest
      else
        match manifestEntries[call.curOffset - virtDotCount]? with
        | none => pure (.entries call.dirEnt)
        | some entry =>
            let (name, child) ← listedChild cfg
              (if entry.isDir then findChildDirInode cfg i entry.basename
                else findChildFileInode cfg i entry.basename entry.info)
            if ((← globals).use child).pendingDelete then
              readManifestFrom i start virtDotCount manifestEntries turns next
            else
              match ← appendToReadDirOut cfg next child name with
              -- the reply is full
              | none => pure (.entries call.dirEnt)
              | some call => readManifestFrom i start virtDotCount manifestEntries turns call

/-- `DoReadDir` and `DoReadDirPlus`, from `Restart` on.  `manifest` is what
`readManifestPart` says. -/
def readDir (i fh : ℕ) (manifest : List ManifestPartEntry) (call : ReadDirCall) :
    TreeSection Reply :=
  withInode i .ENOENT fun ino _ => do
    if ino.inodeType = .FileObject then pure (.errno .ENOTDIR)
    else if fh ∉ ((← globals).use i).fhSet then pure (.errno .EBADF)
    else
      let h ← handleOf fh
      touch cfg i
      let virt ← virtIndexRange i
      -- the root has only its virtual entries: the backends
      if ino.inodeType = .FUSERootDir then
        readRootFrom cfg virt.1 (virt.2 - virt.1 - call.curOffset) call
      -- the handle was opened to be served from memory
      else if call.plus && h.serveFromBPTree then
        let phys ← physIndexRange i
        readBPTreeFrom cfg i virt.1 phys.1 (virt.2 - virt.1)
          (phys.2 - phys.1 + (virt.2 - virt.1) - call.curOffset) call
      else
        let manifestEntries :=
          if h.manifestEntries.isNone && !manifest.isEmpty then some manifest else h.manifestEntries
        -- the manifest is kept in the handle for the calls that follow
        if call.plus && manifestEntries.isSome then
          modify fun g => g.setFh fh (some { h with manifestEntries := manifestEntries })
          let manifestEntries := manifestEntries.getD []
          readManifestFrom cfg i virt.1 (virt.2 - virt.1) manifestEntries
            (virt.2 - virt.1 + manifestEntries.length - call.curOffset) call
        else if h.listDirectoryInProgress.isSome then pure (.errno .EACCES)
        else
          let call :=
            { call with curOffset := max call.curOffset h.prevListDirectoryOutputStartingOffset }
          readDirFrom cfg i fh (h.nextListDirectoryOutputStartingOffset
            + fileLen h.nextListDirectoryOutput + h.listDirectorySubdirectoryList.length
            + (virt.2 - virt.1) + 1) call

/-- `DoReadDir`, and `DoReadDirPlus` if `plus`. -/
def doReadDir (plus : Bool) (i fh offset size : ℕ) (manifest : List ManifestPartEntry) :
    TreeSection Reply :=
  readDir cfg i fh manifest ⟨plus, offset, size, [], 0⟩

/-- `DoReadDir` goes on when the backend has answered. -/
def readDirListed (fh : ℕ) (answer : Option ListDirectoryOutput)
    (manifest : List ManifestPartEntry) : TreeSection Reply := do
  let h ← handleOf fh
  match h.listDirectoryInProgress with
  | none => pure .done
  | some call =>
      modify fun g => g.setFh fh (some { h with listDirectoryInProgress := none })
      match answer with
      | none => pure (.errno .EACCES)
      | some page =>
          -- a directory with entries in the store is no longer virtual
          if !page.file.isEmpty || !page.subdirectory.isEmpty then
            convertToPhysInodeIfNecessary cfg h.inode
          modify fun g => g.setFh fh
            (some ({ h with listDirectoryInProgress := none }.addPage page))
          readDir cfg h.inode fh manifest call

/-- The children of a page. -/
def findChildren (d : ℕ) (page : ListDirectoryOutput) : TreeSection Unit := do
  page.subdirectory.forM fun basename => do
    let _ ← findChildDirInode cfg d basename
  page.file.forM fun file => do
    let _ ← findChildFileInode cfg d file.1 file.2

/-- The next section of the `k`-th `prefetchDirectory`. -/
def prefetchDirectory (k : ℕ) (answer : Option ListDirectoryOutput) : TreeSection Reply := do
  match (← globals).prefetches[k]? with
  | none => pure .done
  | some prefetch =>
      let d := prefetch.dirInodeNumber
      if ← inodeGet d then
        let _ ← backendOf (← deref d).backendNonce
        -- the section before the listing
        if !prefetch.listing then
          modify fun g => g.setListing k d
          pure .waiting
        else
          match answer with
          | none =>
              modify fun g => (g.setPrefetchInProgress d false).erasePrefetch k
              pure .done
          | some page =>
              findChildren cfg d page
              touch cfg d
              if page.isTruncated then pure .waiting
              else
                modify fun g => (g.setPrefetchInProgress d false).erasePrefetch k
                pure .done
      -- the directory is gone: the prefetch ends
      else
        modify fun g => g.erasePrefetch k
        pure .done

/-! ### Data cache lines -/

/-- A section of `DoRead`, without a line or with one that it has been given. -/
def doRead (i fh : ℕ) (line : Option ℕ) : TreeSection Reply :=
  withInode i .ENOENT fun ino _ => do
    if ino.inodeType ≠ .FileObject then pure (.errno .EBADF)
    else if fh ∉ ((← globals).use i).fhSet then pure (.errno .EBADF)
    else
      let h ← handleOf fh
      if !h.allowReads then pure (.errno .EBADF)
      else
        touch cfg i
        match line with
        | none => pure .done
        | some l =>
            modify fun g =>
              -- a free line goes inbound for the inode
              if g.dataCacheLinesTracker[l]?.map TreeLine.state = some .notOnLRU then
                (g.setLine l ⟨.inbound, i⟩).setInboundCacheLineCount i
                  ((g.use i).inboundCacheLineCount + 1)
              else g
            pure .done

/-- `allocateDataCacheLines` gives a free line away, or a clean one, whose file
has to be there. -/
def allocateDataCacheLine (l : ℕ) : TreeSection Reply := do
  match (← globals).dataCacheLinesTracker[l]? with
  | some ⟨.free, i⟩ =>
      modify fun g => g.setLine l ⟨.notOnLRU, i⟩
      pure .done
  | some ⟨.clean, i⟩ =>
      orFatalf (← inodeGet i)
      modify fun g => g.setLine l ⟨.notOnLRU, i⟩
      pure .done
  | _ => pure .done

/-- A line that was given away, or that could not be fetched, is freed. -/
def releaseDataCacheLine (l : ℕ) : TreeSection Reply := do
  modify fun g =>
    match g.dataCacheLinesTracker[l]? with
    | some ⟨.notOnLRU, i⟩ => g.setLine l ⟨.free, i⟩
    | some ⟨.clean, i⟩ => g.setLine l ⟨.free, i⟩
    | _ => g
  pure .done

/-- The first section of `fetch` (`ended` is false) or its second. -/
def fetch (l : ℕ) (ended : Bool) : TreeSection Reply := do
  match (← globals).dataCacheLinesTracker[l]? with
  | some ⟨.inbound, i⟩ =>
      -- the inode can be gone by the time the fetch ends
      if ← inodeGet i then
        if ended then
          modify fun g => (g.setLine l ⟨.clean, i⟩).setInboundCacheLineCount i
            ((g.use i).inboundCacheLineCount - 1)
        else
          let _ ← backendOf (← deref i).backendNonce
        pure .done
      else
        modify fun g => g.setLine l ⟨.free, i⟩
        pure .done
  | _ => pure .done

/-! ### Backends -/

/-- A backend of `processToMountList`. -/
def mount (dirName : String) (readOnly : Bool) : TreeSection Reply := do
  let timeNow ← timeNow
  let nonce ← fetchNonce
  let i ← fetchNonce
  orFatalf (← inodePut i {
    inodeType := .BackendRootDir
    backendNonce := nonce
    parentInodeNumber := FUSERootDirInodeNumber
    isVirt := true
    objectPath := ""
    basename := dirName
    info := ⟨0, "", timeNow⟩ })
  -- the backend appears in the root under its name
  orFatalf (← virtPut FUSERootDirInodeNumber dirName i)
  orFatalf (← virtPut i DotDirEntryBasename i)
  orFatalf (← virtPut i DotDotDirEntryBasename FUSERootDirInodeNumber)
  modify fun g => g.setBackend nonce (some ⟨dirName, readOnly, i⟩)
  pure .done

/-- What the two loops of `emptyChildInodes` do to a child before its entry
goes. -/
def emptyChild (emptyChildInodes : ℕ → TreeSection Unit) (child : ℕ) : TreeSection Unit := do
  orFatalf (← inodeGet child)
  if (← deref child).inodeType = .PseudoDir then emptyChildInodes child
  dequeue child
  orFatalf (← inodeDelete child)

/-- The loop over the phys entries, from the last position down to `start`. -/
def emptyPhysFrom (emptyChildInodes : ℕ → TreeSection Unit) (p start : ℕ) : ℕ → TreeSection Unit
  | 0 => pure ()
  | n + 1 => do
      match ← physByIndex p (start + n) with
      | none => fatalf
      | some (basename, child) =>
          emptyChild emptyChildInodes child
          orFatalf (← physDelete p basename)
          emptyPhysFrom emptyChildInodes p start n

/-- The loop over the virt entries. -/
def emptyVirtFrom (emptyChildInodes : ℕ → TreeSection Unit) (p start : ℕ) : ℕ → TreeSection Unit
  | 0 => pure ()
  | n + 1 => do
      match ← virtByIndex (start + n) with
      | none => fatalf
      | some (basename, child) =>
          if basename ≠ DotDirEntryBasename ∧ basename ≠ DotDotDirEntryBasename then
            emptyChild emptyChildInodes child
          orFatalf (← virtDelete p basename)
          emptyVirtFrom emptyChildInodes p start n

/-- `emptyChildInodes`, for directories less deep than `depth`. -/
def emptyChildInodes : ℕ → ℕ → TreeSection Unit
  | 0, _ => fatalf
  | depth + 1, p => do
      let phys ← physIndexRange p
      emptyPhysFrom (emptyChildInodes depth) p phys.1 (phys.2 - phys.1)
      let virt ← virtIndexRange p
      emptyVirtFrom (emptyChildInodes depth) p virt.1 (virt.2 - virt.1)

/-- A backend of `processToUnmountListAlreadyLocked`. -/
def unmount (depth nonce : ℕ) : TreeSection Reply := do
  match (← globals).backendMap nonce with
  | none => pure .done
  | some backend =>
      emptyChildInodes depth backend.inode
      orFatalf (← virtDelete FUSERootDirInodeNumber backend.dirName)
      orFatalf (← inodeDelete backend.inode)
      modify fun g => g.setBackend nonce none
      pure .done

end TreeSection

/-- What is called. -/
inductive Call
  | mount (dirName : String) (readOnly : Bool)
  | unmount (nonce : ℕ)
  | doLookup (p : ℕ) (name : String) (found : Found)
  | doGetAttr (i : ℕ)
  | doMkDir (p : ℕ) (basename : String) (found : Found)
  | doUnlink (p : ℕ) (basename : String) (found : Found)
  | finishPendingDelete (i : ℕ)
  | doRmDir (p : ℕ) (basename : String) (found : Found)
  | doOpen (i : ℕ) (isExclusive : Bool) (mode : AccessMode)
  | doRelease (i fh : ℕ)
  | doOpenDir (i : ℕ)
  | doReleaseDir (i fh : ℕ)
  | doReadDir (plus : Bool) (i fh offset size : ℕ) (manifest : List ManifestPartEntry)
  | readDirListed (fh : ℕ) (answer : Option ListDirectoryOutput)
      (manifest : List ManifestPartEntry)
  | prefetchDirectory (k : ℕ) (answer : Option ListDirectoryOutput)
  | evict (now : Option ℕ)
  | doRead (i fh : ℕ) (line : Option ℕ)
  | allocateDataCacheLine (l : ℕ)
  | releaseDataCacheLine (l : ℕ)
  | fetch (l : ℕ) (ended : Bool)

namespace Call

/-- The section of a call.  No directory is deeper than its inode number. -/
def program (t : FileTree) : Call → TreeSection Reply
  | mount dirName readOnly => TreeSection.mount dirName readOnly
  | unmount nonce => TreeSection.unmount t.nonces.head nonce
  | doLookup p name found => TreeSection.doLookup cfg p name found
  | doGetAttr i => TreeSection.doGetAttr cfg i
  | doMkDir p basename found => TreeSection.doMkDir cfg p basename found
  | doUnlink p basename found => TreeSection.doUnlink cfg p basename found
  | finishPendingDelete i => TreeSection.finishPendingDelete cfg i
  | doRmDir p basename found => TreeSection.doRmDir cfg p basename found
  | doOpen i isExclusive mode => TreeSection.doOpen cfg i isExclusive mode
  | doRelease i fh => TreeSection.doRelease cfg i fh
  | doOpenDir i => TreeSection.doOpenDir cfg i
  | doReleaseDir i fh => TreeSection.doReleaseDir cfg i fh
  | doReadDir plus i fh offset size manifest =>
      TreeSection.doReadDir cfg plus i fh offset size manifest
  | readDirListed fh answer manifest => TreeSection.readDirListed cfg fh answer manifest
  | prefetchDirectory k answer => TreeSection.prefetchDirectory cfg k answer
  | evict now => TreeSection.evict cfg now
  | doRead i fh line => TreeSection.doRead cfg i fh line
  | allocateDataCacheLine l => TreeSection.allocateDataCacheLine l
  | releaseDataCacheLine l => TreeSection.releaseDataCacheLine l
  | fetch l ended => TreeSection.fetch l ended

/-- The inode in the header of a request. -/
def nodeID : Call → Option ℕ
  | doLookup p _ _ | doMkDir p _ _ | doUnlink p _ _ | doRmDir p _ _ => some p
  | doGetAttr i | doOpen i _ _ | doRelease i _ | doOpenDir i | doReleaseDir i _
  | doReadDir _ i _ _ _ _ | doRead i _ _ => some i
  | _ => none

end Call

/-- A step of the file system: a section, and what the clock says in it. -/
structure TreeStep where
  call : Call
  now : ℕ → ℕ

namespace FileTree

/-- A number that a client can have: it has been given out, and is not that of an
inode without its entry. -/
def Known (t : FileTree) (i : ℕ) : Prop :=
  i < t.nonces.head ∧ ∀ e ∈ t.pending, e.inodeNumber ≠ i

instance (t : FileTree) (i : ℕ) : Decidable (t.Known i) := inferInstanceAs (Decidable (_ ∧ _))

/-- What is deleted is pending, and what is unmounted is mounted. -/
def hasCause (t : FileTree) : Call → Bool
  | .finishPendingDelete i => t.globals.pendingDeletes.contains i
  | .unmount nonce => (t.globals.backendMap nonce).isSome
  | _ => true

/-- The call can be made. -/
def Enabled (t : FileTree) (c : Call) : Prop := (∀ i ∈ c.nodeID, t.Known i) ∧ t.hasCause c

instance (t : FileTree) (c : Call) : Decidable (t.Enabled c) := inferInstanceAs (Decidable (_ ∧ _))

/-- The clock, for a section. -/
def atTime (t : FileTree) (now : ℕ → ℕ) : FileTree := t.modify fun g => { g with now := now }

/-- A section from lock to unlock. -/
def runCall (t : FileTree) (s : TreeStep) : Except Fatal Reply × FileTree :=
  Prog.run act (s.call.program cfg t) (t.atTime s.now)

/-- A step that does not end the process. -/
def step (t : FileTree) (s : TreeStep) : Option FileTree :=
  if t.Enabled s.call then
    match t.runCall cfg s with
    | (.ok _, t') => some t'
    | (.error _, _) => none
  else none

/-- After `initFS`: the root is there, no backend is mounted. -/
def initial (cacheLines : ℕ) : FileTree where
  nonces := .upFrom 2
  inodeMap i := i = FUSERootDirInodeNumber
  inode _ := {
    inodeType := .FUSERootDir
    backendNonce := 0
    parentInodeNumber := FUSERootDirInodeNumber
    isVirt := true
    objectPath := ""
    basename := ""
    info := ⟨0, "", 0⟩ }
  physShards _ := .empty
  virtChildDirEntryMap :=
    (SortedMap.empty.insert (toLex (FUSERootDirInodeNumber, DotDirEntryBasename))
      FUSERootDirInodeNumber).insert (toLex (FUSERootDirInodeNumber, DotDotDirEntryBasename))
        FUSERootDirInodeNumber
  xTime _ := none
  inodeEvictionQueue := .empty
  globals := {
    use _ := ⟨[], false, false, 0⟩
    backendMap _ := none
    fhMap _ := none
    dataCacheLinesTracker := List.replicate cacheLines ⟨.free, 0⟩
    now _ := 0
    prefetches := []
    pendingDeletes := [] }
  pending := []

end FileTree

end MultiStorageFileSystem
