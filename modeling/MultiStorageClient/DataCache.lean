/-
MultiStorageClient/DataCache.lean

The data cache of the file system (`cache.go`, `cache_disk.go`) and the reads
that go through it (`DoRead` in `fission.go`).

A file is cached in lines of `cacheLineSize` bytes.  All files share the
`cacheLines` trackers, each of which is on the Free, Inbound or Clean LRU, or
on none while a reader that has allocated it has not assigned it yet.  A
reader holds the global lock except while it waits, while it copies a line
into its reply, and between allocating lines and assigning them; a fetch
holds it except while the backend reads.

One step of the system is one section under the lock, or one unlocked action:
a copy with its check of the generation, or an answer of the backend.  The
LRUs are lists, and the inode map is a map; the objects do not change.
-/
import MultiStorageClient.SparseFile
import MultiStorageClient.Run

namespace MultiStorageFileSystem

open Slice

/-! ### The data -/

/-- `cache_storage` -/
inductive CacheStorage
  | ram
  | mappedFile
  | perInodeFile
  deriving DecidableEq

/-- The configuration of the cache. -/
structure CacheConfig where
  cacheLineSize : ℕ
  cacheLines : ℕ
  cacheLinesToPrefetch : ℕ
  cacheStorage : CacheStorage
  cacheLineSize_pos : 1 ≤ cacheLineSize
  cacheLines_pos : 1 ≤ cacheLines

/-- An inode, with the content of its object: `sizeInBackend` is the length
of the content. -/
structure InodeInfo where
  isFileObject : Bool
  content : List UInt8

/-- The state of a line; `notOnLRU` is `CacheLineNotNotOnLRU`. -/
inductive LineState
  | notOnLRU
  | free
  | inbound
  | clean
  deriving DecidableEq

/-- `diskFile`, `diskOffset` and `diskLength` of a line with disk backing. -/
structure DiskPlace where
  file : ℕ
  offset : ℕ
  length : ℕ

/-- How far the `fetch` of a line has come. -/
inductive FetchState
  | idle
  /-- the goroutine has been started -/
  | started
  /-- the backend is reading a line of an object -/
  | reading (inodeNumber lineNumber : ℕ)
  /-- the backend has returned a buffer, or an error -/
  | answered (buf : Option (List UInt8))

/-- `dataCacheLineTrackerStruct`, with the readers in its `waiters`. -/
structure CacheLine where
  state : LineState
  waiters : List ℕ
  contentLength : ℕ
  contentGeneration : ℕ
  inodeNumber : ℕ
  lineNumber : ℕ
  fetchFailed : Bool
  disk : Option DiskPlace
  fetch : FetchState

/-- `inodeDiskCacheFileStruct` -/
structure InodeDiskFile where
  file : ℕ
  residentLines : ℕ

/-- The `errno` values of a read. -/
inductive Errno
  | ok
  | ENOENT
  | EBADF
  | EIO
  deriving DecidableEq

/-- `fission.ReadIn`, with the inode of the header. -/
structure ReadIn where
  inode : ℕ
  fh : ℕ
  offset : ℕ
  size : ℕ

/-- What a reader remembers of a line when it unlocks to copy it. -/
structure CopySource where
  line : ℕ
  generation : ℕ
  /-- `cacheLineOffsetStart` -/
  start : ℕ
  length : ℕ
  /-- `copyDiskFile` and `copyDiskOffset` -/
  disk : Option (ℕ × ℕ)
  deriving DecidableEq

/-- Where a `DoRead` stands when it does not hold the lock. -/
inductive ReadPc
  /-- at the head of its loop -/
  | loop
  /-- in `allocateDataCacheLines(count)`, waiting for an inbound line -/
  | allocating (count : ℕ) (prefetch got : List ℕ)
  /-- back from `allocateDataCacheLines` -/
  | allocated (prefetch got : List ℕ)
  /-- waiting for a line -/
  | waiting
  | copying (source : CopySource)
  | returned (errno : Errno)
  deriving DecidableEq

/-- A call of `DoRead`.  `waits` is the count of the `WaitGroup` it waits
for. -/
structure Reader where
  readIn : ReadIn
  data : List UInt8
  curOffset : ℕ
  pc : ReadPc
  waits : ℕ

/-- The globals of the data cache, the open handles and the reads. -/
structure DataCache where
  lines : ℕ → CacheLine
  /-- `dataCacheLinesContent`, line by line -/
  arena : ℕ → List UInt8
  freeLRU : List ℕ
  inboundLRU : List ℕ
  cleanLRU : List ℕ
  /-- `inode.cacheMap` -/
  cacheMap : ℕ → ℕ → Option ℕ
  inboundCacheLineCount : ℕ → ℕ
  inodeDiskCacheFiles : ℕ → Option InodeDiskFile
  files : ℕ → SparseFile
  fileOpen : ℕ → Bool
  nextFile : ℕ
  /-- `inode.fhSet`, with `fh.allowReads` -/
  handles : ℕ → ℕ → Option Bool
  readers : List Reader
  /-- a `Fatalf` has ended the process -/
  fatal : Bool

/-- What the disk answers in one step. -/
structure DiskAnswers where
  /-- the hole of a line is punched -/
  punches : ℕ → Bool
  opens : Bool
  /-- `WriteAt` fails after so many bytes -/
  writeFailsAfter : Option ℕ

/-! ### Small operations -/

namespace CacheConfig

/-- Lines are kept in files of their inodes. -/
def onDisk (cfg : CacheConfig) : Bool := cfg.cacheStorage == .perInodeFile

/-- A line of an object. -/
def lineOf (cfg : CacheConfig) (content : List UInt8) (lineNumber : ℕ) : List UInt8 :=
  slice (lineNumber * cfg.cacheLineSize) cfg.cacheLineSize content

end CacheConfig

namespace DataCache

variable (c : DataCache)

/-- A line changes. -/
def updLine (l : ℕ) (f : CacheLine → CacheLine) : DataCache :=
  { c with lines := Function.update c.lines l (f (c.lines l)) }

/-- A reader moves on. -/
def setReader (r : ℕ) (rd : Reader) : DataCache := { c with readers := c.readers.set r rd }

/-- An entry of the `cacheMap` of an inode changes. -/
def setCacheMap (inode lineNumber : ℕ) (line : Option ℕ) : DataCache :=
  { c with
    cacheMap := Function.update c.cacheMap inode
      (Function.update (c.cacheMap inode) lineNumber line) }

/-- A line changes its state. -/
def setState (l : ℕ) (s : LineState) : DataCache := c.updLine l fun t => { t with state := s }

/-- `pushTail` of the Free LRU. -/
def pushFree (l : ℕ) : DataCache := { c.setState l .free with freeLRU := c.freeLRU ++ [l] }

/-- `pushTail` of the Inbound LRU. -/
def pushInbound (l : ℕ) : DataCache :=
  { c.setState l .inbound with inboundLRU := c.inboundLRU ++ [l] }

/-- `pushTail` of the Clean LRU. -/
def pushClean (l : ℕ) : DataCache := { c.setState l .clean with cleanLRU := c.cleanLRU ++ [l] }

/-- `popThis` of the Inbound LRU. -/
def popInbound (l : ℕ) : DataCache :=
  { c.setState l .notOnLRU with inboundLRU := c.inboundLRU.erase l }

/-- `popThis` of the Clean LRU. -/
def popClean (l : ℕ) : DataCache :=
  { c.setState l .notOnLRU with cleanLRU := c.cleanLRU.erase l }

/-- `touchThis` of the Clean LRU. -/
def touchClean (l : ℕ) : DataCache := { c with cleanLRU := c.cleanLRU.erase l ++ [l] }

/-- `notifyWaiters` -/
def notifyWaiters (l : ℕ) : DataCache :=
  { c.updLine l fun t => { t with waiters := [] } with
    readers := (c.lines l).waiters.foldl
      (fun rs r => rs.modify r fun rd => { rd with waits := rd.waits - 1 }) c.readers }

/-! ### Disk backing -/

/-- A file of an inode loses a line: it is closed and removed with its last
one. -/
def dropResident (inode : ℕ) : DataCache :=
  match c.inodeDiskCacheFiles inode with
  | none => c
  | some idcf =>
      -- the last resident line closes the file of the inode
      if idcf.residentLines - 1 = 0 then
        { c with
          fileOpen := Function.update c.fileOpen idcf.file false
          inodeDiskCacheFiles := Function.update c.inodeDiskCacheFiles inode none }
      else
        { c with
          inodeDiskCacheFiles := Function.update c.inodeDiskCacheFiles inode
            (some { idcf with residentLines := idcf.residentLines - 1 }) }

/-- A file on disk changes. -/
def setFile (file : ℕ) (f : SparseFile) : DataCache :=
  { c with files := Function.update c.files file f }

/-- `punchHoleDisk` -/
def punchHoleDisk (cfg : CacheConfig) (ans : DiskAnswers) (l : ℕ) : DataCache :=
  match (c.lines l).disk with
  | none => c
  | some d =>
      let punched := if ans.punches l then
          c.setFile d.file ((c.files d.file).punchHole d.offset cfg.cacheLineSize)
        else c
      (punched.dropResident (c.lines l).inodeNumber).updLine l fun t => { t with disk := none }

/-- The file of an inode in `storeContentDisk`, opened if need be. -/
def openInodeFile (ans : DiskAnswers) (inode : ℕ) : Option (DataCache × InodeDiskFile) :=
  match c.inodeDiskCacheFiles inode with
  | some idcf => some (c, idcf)
  -- the first line of the inode on disk creates its file
  | none =>
      if ans.opens then
        some ({ c with
            files := Function.update c.files c.nextFile SparseFile.empty
            fileOpen := Function.update c.fileOpen c.nextFile true
            nextFile := c.nextFile + 1
            inodeDiskCacheFiles := Function.update c.inodeDiskCacheFiles inode
              (some ⟨c.nextFile, 0⟩) }, ⟨c.nextFile, 0⟩)
      else none

/-- The write in `storeContentDisk`. -/
def writeLine (cfg : CacheConfig) (ans : DiskAnswers) (l : ℕ) (buf : List UInt8)
    (idcf : InodeDiskFile) : DataCache × ℕ :=
  let offset := (c.lines l).lineNumber * cfg.cacheLineSize
  match ans.writeFailsAfter with
  | some n => (c.setFile idcf.file ((c.files idcf.file).writeAt offset (buf.take n)), 0)
  | none =>
      (({ c.setFile idcf.file ((c.files idcf.file).writeAt offset buf) with
          inodeDiskCacheFiles := Function.update c.inodeDiskCacheFiles (c.lines l).inodeNumber
            (some { idcf with residentLines := idcf.residentLines + 1 }) }).updLine l fun t =>
        { t with disk := some ⟨idcf.file, offset, buf.length⟩ }, buf.length)

/-- `storeContentDisk`, with the number of bytes stored. -/
def storeContentDisk (cfg : CacheConfig) (ans : DiskAnswers) (l : ℕ) (buf : List UInt8) :
    DataCache × ℕ :=
  let cleared := c.updLine l fun t => { t with disk := none }
  if buf = [] then (cleared, 0)
  else
    match cleared.openInodeFile ans (c.lines l).inodeNumber with
    | none => (cleared, 0)
    | some (opened, idcf) => opened.writeLine cfg ans l buf idcf

/-! ### Lines that change hands -/

/-- `free` -/
def freeLine (cfg : CacheConfig) (ans : DiskAnswers) (l : ℕ) : DataCache :=
  let punched := if cfg.onDisk then c.punchHoleDisk cfg ans l else c
  (punched.updLine l fun t => { t with
    contentLength := 0
    contentGeneration := t.contentGeneration + 1
    inodeNumber := 0
    lineNumber := 0
    fetchFailed := false
    waiters := [] }).pushFree l

/-- `releaseDataCacheLines` -/
def releaseDataCacheLines (cfg : CacheConfig) (ans : DiskAnswers) (cacheLineNumbers : List ℕ) :
    DataCache :=
  cacheLineNumbers.foldl (fun c l => c.freeLine cfg ans l) c

/-- The first loop of `allocateDataCacheLines`, for `n` more lines. -/
def takeFree : ℕ → DataCache → List ℕ → DataCache × List ℕ
  | 0, c, got => (c, got)
  | n + 1, c, got =>
      match c.freeLRU with
      | [] => (c, got)
      | l :: rest => takeFree n ({ c with freeLRU := rest }.setState l .notOnLRU) (got ++ [l])

/-- What the second loop does with the head of the Clean LRU, once it is
popped. -/
def recycle (cfg : CacheConfig) (ans : DiskAnswers) (l : ℕ) : DataCache :=
  -- the generation changes before the bytes on the disk do
  let released := if cfg.onDisk then
      (c.updLine l fun t => { t with contentGeneration := t.contentGeneration + 1 }).punchHoleDisk
        cfg ans l
    else c
  released.setCacheMap (c.lines l).inodeNumber (c.lines l).lineNumber none

/-- The second loop of `allocateDataCacheLines`, for `n` more lines. -/
def takeClean (cfg : CacheConfig) (inodes : ℕ → Option InodeInfo) (ans : DiskAnswers) :
    ℕ → DataCache → List ℕ → DataCache × List ℕ
  | 0, c, got => (c, got)
  | n + 1, c, got =>
      match c.cleanLRU with
      | [] => (c, got)
      | l :: rest =>
          if (inodes (c.lines l).inodeNumber).isNone then ({ c with fatal := true }, got)
          else takeClean cfg inodes ans n
            (({ c with cleanLRU := rest }.setState l .notOnLRU).recycle cfg ans l) (got ++ [l])

/-- One turn of the loop of `allocateDataCacheLines`, for reader `r` with the
lines it has got. -/
def allocateDataCacheLines (cfg : CacheConfig) (inodes : ℕ → Option InodeInfo) (ans : DiskAnswers)
    -- free lines first, then the clean ones that were touched longest ago
    (r : ℕ) (rd : Reader) (count : ℕ) (prefetch got : List ℕ) : DataCache :=
  let (c₁, got₁) := takeFree (count - got.length) c got
  let (c₂, got₂) := takeClean cfg inodes ans (count - got₁.length) c₁ got₁
  if c₂.fatal then c₂
  else if got₂.length = count then c₂.setReader r { rd with pc := .allocated prefetch got₂ }
  else
    -- all lines in flight: wait for the oldest fetch to end, then try again
    match c₂.inboundLRU with
    | [] => { c₂ with fatal := true }
    | l :: _ =>
        (c₂.updLine l fun t => { t with waiters := t.waiters ++ [r] }).setReader r
          { rd with pc := .allocating count prefetch got₂, waits := rd.waits + 1 }

/-! ### DoRead -/

/-- `uint64` addition and subtraction. -/
def add64 (a b : ℕ) : ℕ := (a + b) % 2 ^ 64

/-- The difference of two `uint64`, which wraps. -/
def sub64 (a b : ℕ) : ℕ := (a + 2 ^ 64 - b) % 2 ^ 64

/-- `cacheLinesToPotentiallyPrefetch` -/
def linesToPrefetch (cfg : CacheConfig) (sizeInBackend cacheLineNumber : ℕ) : ℕ :=
  let maxInBackend := sub64
    (sub64 (add64 sizeInBackend cfg.cacheLineSize) 1 / cfg.cacheLineSize) 1
  let n := if maxInBackend ≥ add64 cacheLineNumber cfg.cacheLinesToPrefetch then
      cfg.cacheLinesToPrefetch
    else sub64 maxInBackend cacheLineNumber
  if n ≥ cfg.cacheLines then cfg.cacheLines - 1 else n

/-- `prefetchCacheLineNumbers`: the following lines that are not cached. -/
def prefetchCacheLineNumbers (cfg : CacheConfig) (inode sizeInBackend cacheLineNumber : ℕ) :
    List ℕ :=
  if cfg.cacheLinesToPrefetch = 0 then []
  else (List.range' (cacheLineNumber + 1)
    (linesToPrefetch cfg sizeInBackend cacheLineNumber)).filter
    fun n => (c.cacheMap inode n).isNone

/-- The checks of inode and handle at the start of both locked sections. -/
def checkRead (inodes : ℕ → Option InodeInfo) (readIn : ReadIn) : Except Errno InodeInfo :=
  match inodes readIn.inode with
  | none => .error .ENOENT
  | some info =>
      if info.isFileObject = true ∧ c.handles readIn.inode readIn.fh = some true then .ok info
      else .error .EBADF

/-- A read that stops, with its data. -/
def finish (r : ℕ) (rd : Reader) (errno : Errno) : DataCache :=
  c.setReader r { rd with pc := .returned errno }

/-- A line that is found in the cache map. -/
def readLine (cfg : CacheConfig) (ans : DiskAnswers) (r : ℕ) (rd : Reader)
    (cacheLineNumber l : ℕ) : DataCache :=
  if cfg.cacheLines ≤ l then { c with fatal := true }
  else
    match (c.lines l).state with
    -- on its way: the reader waits on the line
    | .inbound =>
        (c.updLine l fun t => { t with waiters := t.waiters ++ [r] }).setReader r
          { rd with pc := .waiting, waits := rd.waits + 1 }
    | .clean =>
        -- a failed fetch gives the line back and ends the read with EIO
        if (c.lines l).fetchFailed then
          (((c.setCacheMap rd.readIn.inode cacheLineNumber none).popClean l).freeLine cfg ans
            l).finish r rd Errno.EIO
        else
          let start := rd.curOffset - cacheLineNumber * cfg.cacheLineSize
          let limit := min (min (start + (rd.readIn.size - rd.data.length)) cfg.cacheLineSize)
            (c.lines l).contentLength
          -- the end of the content is the end of the read
          if limit ≤ start then (c.touchClean l).finish r rd .ok
          else
            let source : CopySource :=
              { line := l
                generation := (c.lines l).contentGeneration
                start := start
                length := limit - start
                disk := if cfg.onDisk then
                    (c.lines l).disk.map fun d => (d.file, d.offset + start)
                  else none }
            (c.touchClean l).setReader r { rd with pc := .copying source }
    | _ => { c with fatal := true }

/-- The first locked section of `DoRead`, at the head of its loop. -/
def readSection (cfg : CacheConfig) (inodes : ℕ → Option InodeInfo) (ans : DiskAnswers) (r : ℕ)
    (rd : Reader) : DataCache :=
  if rd.readIn.size ≤ rd.data.length then c.finish r rd .ok
  else
    match c.checkRead inodes rd.readIn with
    | .error errno => c.finish r rd errno
    | .ok info =>
        -- at or beyond the end of the file: whatever was gathered is the answer
        if info.content.length ≤ rd.curOffset then c.finish r rd .ok
        else
          let cacheLineNumber := rd.curOffset / cfg.cacheLineSize
          match c.cacheMap rd.readIn.inode cacheLineNumber with
          -- a miss asks for the line and for those to prefetch behind it
          | none =>
              let prefetch := c.prefetchCacheLineNumbers cfg rd.readIn.inode info.content.length
                cacheLineNumber
              c.allocateDataCacheLines cfg inodes ans r rd (1 + prefetch.length) prefetch []
          | some l => c.readLine cfg ans r rd cacheLineNumber l

/-- An allocated line becomes a line of a file and is fetched. -/
def assignLine (inode lineNumber : ℕ) (waiters : List ℕ) (l : ℕ) : DataCache :=
  let assigned := (c.updLine l fun t => { t with
    waiters := waiters
    contentLength := 0
    contentGeneration := t.contentGeneration + 1
    inodeNumber := inode
    lineNumber := lineNumber
    fetch := .started }).setCacheMap inode lineNumber (some l)
  { assigned with
    inboundCacheLineCount := Function.update c.inboundCacheLineCount inode
      (c.inboundCacheLineCount inode + 1) }.pushInbound l

/-- The loop over the lines to prefetch, with the lines that are left. -/
def assignPrefetch (inode : ℕ) : List ℕ → DataCache → List ℕ → DataCache × List ℕ
  | [], c, got => (c, got)
  | _ :: _, c, [] => (c, [])
  | n :: prefetch, c, l :: got =>
      if (c.cacheMap inode n).isSome then assignPrefetch inode prefetch c (l :: got)
      else assignPrefetch inode prefetch (c.assignLine inode n [] l) got

/-- The second locked section of `DoRead`, behind `allocateDataCacheLines`. -/
def assignSection (cfg : CacheConfig) (inodes : ℕ → Option InodeInfo) (ans : DiskAnswers) (r : ℕ)
    (rd : Reader) (prefetch got : List ℕ) : DataCache :=
  -- the lock was let go for the allocation, so the handle is checked again
  match c.checkRead inodes rd.readIn with
  | .error errno => (c.releaseDataCacheLines cfg ans got).finish r rd errno
  | .ok info =>
      if info.content.length ≤ rd.curOffset then
        (c.releaseDataCacheLines cfg ans got).finish r rd .ok
      else
        let cacheLineNumber := rd.curOffset / cfg.cacheLineSize
        -- another reader brought the line in meanwhile: give the lines back
        if (c.cacheMap rd.readIn.inode cacheLineNumber).isSome then
          (c.releaseDataCacheLines cfg ans got).setReader r { rd with pc := .loop }
        else
          match got with
          | [] => { c with fatal := true }
          | l :: got =>
              let (c₁, left) := assignPrefetch rd.readIn.inode prefetch
                (c.assignLine rd.readIn.inode cacheLineNumber [r] l) got
              (c₁.releaseDataCacheLines cfg ans left).setReader r
                { rd with pc := .waiting, waits := rd.waits + 1 }

/-- What an unlocked copy reads: `none` is an error other than the end of the
file. -/
def copyBytes (s : CopySource) : Option (List UInt8) :=
  match s.disk with
  | none => some (slice s.start s.length (c.arena s.line))
  | some (file, offset) =>
      if c.fileOpen file then
        -- a buffer that is not filled keeps what it held
        let read := (c.files file).readAt offset s.length
        some (read ++ List.replicate (s.length - read.length) 0)
      else none

/-- The unlocked copy with its check of the generation. -/
def copySection (r : ℕ) (rd : Reader) (s : CopySource) : DataCache :=
  if (c.lines s.line).contentGeneration ≠ s.generation then
    c.setReader r { rd with pc := .loop }
  else
    match c.copyBytes s with
    | none => c.finish r rd Errno.EIO
    | some bytes =>
        c.setReader r { rd with
          data := rd.data ++ bytes
          curOffset := rd.curOffset + s.length
          pc := .loop }

/-! ### fetch -/

/-- The end of `fetch` where the inode is missing. -/
def abandonFetch (cfg : CacheConfig) (ans : DiskAnswers) (l : ℕ) : DataCache :=
  -- `free` drops the waiters before they are notified
  (((c.popInbound l).freeLine cfg ans l).notifyWaiters l).updLine l fun t =>
    { t with fetch := .idle }

/-- The first locked section of `fetch`. -/
def fetchBegin (cfg : CacheConfig) (inodes : ℕ → Option InodeInfo) (ans : DiskAnswers) (l : ℕ) :
    DataCache :=
  match inodes (c.lines l).inodeNumber with
  | none => c.abandonFetch cfg ans l
  | some _ => c.updLine l fun t => { t with fetch := .reading t.inodeNumber t.lineNumber }

/-- The backend answers: with the bytes of the requested line, or with an
error.  In the arena they are put at once. -/
def fetchAnswer (cfg : CacheConfig) (l : ℕ) (buf : Option (List UInt8)) : DataCache :=
  let answered := c.updLine l fun t => { t with fetch := .answered buf }
  match buf with
  | none => answered
  | some bytes =>
      if cfg.onDisk then answered
      else
        let n := min cfg.cacheLineSize bytes.length
        { answered.updLine l fun t => { t with contentLength := n } with
          arena := Function.update c.arena l (bytes.take n ++ (c.arena l).drop n) }

/-- The content of a line whose fetch has been answered. -/
def storeFetched (cfg : CacheConfig) (ans : DiskAnswers) (l : ℕ) (buf : Option (List UInt8)) :
    DataCache :=
  match buf with
  | none => c.updLine l fun t => { t with contentLength := 0, fetchFailed := true }
  | some bytes =>
      if cfg.onDisk then
        let (stored, n) := c.storeContentDisk cfg ans l bytes
        stored.updLine l fun t =>
          { t with contentLength := n, fetchFailed := decide (bytes ≠ [] ∧ n = 0) }
      else c.updLine l fun t => { t with fetchFailed := false }

/-- The second locked section of `fetch`. -/
def fetchEnd (cfg : CacheConfig) (inodes : ℕ → Option InodeInfo) (ans : DiskAnswers) (l : ℕ)
    (buf : Option (List UInt8)) : DataCache :=
  match inodes (c.lines l).inodeNumber with
  | none => c.abandonFetch cfg ans l
  | some _ =>
      let popped := { c with
        inboundCacheLineCount := Function.update c.inboundCacheLineCount (c.lines l).inodeNumber
          (c.inboundCacheLineCount (c.lines l).inodeNumber - 1) }.popInbound l
      let bumped := popped.updLine l fun t =>
        { t with contentGeneration := t.contentGeneration + 1, fetch := .idle }
      ((bumped.storeFetched cfg ans l buf).pushClean l).notifyWaiters l

end DataCache

/-! ### Steps -/

/-- One step of one of the parties. -/
inductive CacheStep
  /-- a reader at the head of its loop -/
  | read (r : ℕ) (ans : DiskAnswers)
  /-- a reader in `allocateDataCacheLines`, after its wait -/
  | allocate (r : ℕ) (ans : DiskAnswers)
  /-- a reader behind `allocateDataCacheLines` -/
  | assign (r : ℕ) (ans : DiskAnswers)
  /-- a reader whose line has come -/
  | wake (r : ℕ)
  /-- an unlocked copy -/
  | copy (r : ℕ)
  /-- the first section of a fetch -/
  | fetchBegin (l : ℕ) (ans : DiskAnswers)
  /-- the backend returns the line, or an error -/
  | fetchAnswer (l : ℕ) (succeeds : Bool)
  /-- the second section of a fetch -/
  | fetchEnd (l : ℕ) (ans : DiskAnswers)
  /-- a file is opened or closed -/
  | handle (inode fh : ℕ) (allowReads : Option Bool)

namespace DataCache

variable (cfg : CacheConfig) (inodes : ℕ → Option InodeInfo)

/-- The bytes that the backend returns for a line. -/
def backendLine (inodeNumber lineNumber : ℕ) : List UInt8 :=
  match inodes inodeNumber with
  | none => []
  | some info => cfg.lineOf info.content lineNumber

/-- A step that is enabled, in a process that has not ended. -/
def stepAlive (c : DataCache) : CacheStep → Option DataCache
  | .read r ans => do
      let rd ← c.readers[r]?
      match rd.pc with
      | .loop => some (c.readSection cfg inodes ans r rd)
      | _ => none
  | .allocate r ans => do
      let rd ← c.readers[r]?
      match rd.pc with
      | .allocating count prefetch got =>
          -- a signalled waiter runs the allocation again
          if rd.waits = 0 then
            some (c.allocateDataCacheLines cfg inodes ans r rd count prefetch got)
          else none
      | _ => none
  | .assign r ans => do
      let rd ← c.readers[r]?
      match rd.pc with
      | .allocated prefetch got => some (c.assignSection cfg inodes ans r rd prefetch got)
      | _ => none
  | .wake r => do
      let rd ← c.readers[r]?
      match rd.pc with
      | .waiting => if rd.waits = 0 then some (c.setReader r { rd with pc := .loop }) else none
      | _ => none
  | .copy r => do
      let rd ← c.readers[r]?
      match rd.pc with
      | .copying s => some (c.copySection r rd s)
      | _ => none
  -- the fetcher of a line: its section, the answer, its second section
  | .fetchBegin l ans =>
      match (c.lines l).fetch with
      | .started => some (c.fetchBegin cfg inodes ans l)
      | _ => none
  | .fetchAnswer l succeeds =>
      match (c.lines l).fetch with
      | .reading inodeNumber lineNumber =>
          some (c.fetchAnswer cfg l
            (if succeeds then some (backendLine cfg inodes inodeNumber lineNumber) else none))
      | _ => none
  | .fetchEnd l ans =>
      match (c.lines l).fetch with
      | .answered buf => some (c.fetchEnd cfg inodes ans l buf)
      | _ => none
  -- DoOpen and DoRelease of any file
  | .handle inode fh allowReads =>
      some { c with
        handles := Function.update c.handles inode
          (Function.update (c.handles inode) fh allowReads) }

/-- One step. -/
def step (c : DataCache) (s : CacheStep) : Option DataCache :=
  if c.fatal then none else stepAlive cfg inodes c s

/-- A line after `dataCacheUp`. -/
def newLine : CacheLine where
  state := .free
  waiters := []
  contentLength := 0
  contentGeneration := 0
  inodeNumber := 0
  lineNumber := 0
  fetchFailed := false
  disk := none
  fetch := .idle

/-- A call of `DoRead` at its start. -/
def newReader (readIn : ReadIn) : Reader := ⟨readIn, [], readIn.offset, .loop, 0⟩

/-- The cache after `dataCacheUp`, with the reads that are going to be
called. -/
def dataCacheUp (reads : List ReadIn) (handles : ℕ → ℕ → Option Bool) : DataCache where
  lines _ := newLine
  arena _ := List.replicate cfg.cacheLineSize 0
  freeLRU := List.range cfg.cacheLines
  inboundLRU := []
  cleanLRU := []
  cacheMap _ _ := none
  inboundCacheLineCount _ := 0
  inodeDiskCacheFiles _ := none
  files _ := SparseFile.empty
  fileOpen _ := false
  nextFile := 0
  handles := handles
  readers := reads.map newReader
  fatal := false

end DataCache

end MultiStorageFileSystem
