/-
MultiStorageClient/LockFreeReads.lean

Readers that copy without the lock (`DoRead` in `fission.go`), between the
atomic steps of those who hold it (`allocateDataCacheLines`, `free`, `fetch`,
`clearFileCacheLinesLocked` and `finishPendingDelete`).

What a lock-free reader sees of a section are its `Moment`s: the cache after
each change of a generation, of the bytes in the arena or in a file, or of an
open file.  The functions that change any of these have here, under the name of
the function, the list of the moments before its result.

A copy is a party of its own from the unlock of its `DoRead` to the comparison
of the generations; the reader of the cache, which it leaves alone, does both
in one step.
-/
import MultiStorageClient.CachedFiles

namespace MultiStorageFileSystem

/-- The cache between two atomic steps of a section.  `freeing` is a line whose
hole `free` has punched, and whose generation it has still to bump. -/
structure Moment where
  cache : DataCache
  freeing : Option ℕ

namespace DataCache

variable (cfg : CacheConfig) (inodes : ℕ → Option InodeInfo) (ans : DiskAnswers)

/-! ### Moments -/

/-- `punchHoleSyscall` on the range of a line, in `punchHoleDisk`. -/
def punchHoleSyscall (l : ℕ) (c : DataCache) : DataCache :=
  match (c.lines l).disk with
  | none => c
  | some d =>
      if ans.punches l then
        c.setFile d.file ((c.files d.file).punchHole d.offset cfg.cacheLineSize)
      else c

/-- `free` punches the hole and may close the file; the generation is bumped
after that. -/
def freeMoments (l : ℕ) (c : DataCache) : List Moment :=
  if cfg.onDisk ∧ (c.lines l).disk.isSome then
    [⟨c.punchHoleSyscall cfg ans l, some l⟩, ⟨c.punchHoleDisk cfg ans l, some l⟩]
  else []

/-- `releaseDataCacheLines` -/
def releaseMoments : List ℕ → DataCache → List Moment
  | [], _ => []
  | l :: rest, c =>
      c.freeMoments cfg ans l ++ ⟨c.freeLine cfg ans l, none⟩ ::
        releaseMoments rest (c.freeLine cfg ans l)

/-- The head of the Clean LRU in `allocateDataCacheLines`: the generation is
bumped first. -/
def recycleMoments (l : ℕ) (c : DataCache) : List Moment :=
  if cfg.onDisk then
    let bumped := c.updLine l fun t => { t with contentGeneration := t.contentGeneration + 1 }
    [⟨bumped, none⟩, ⟨bumped.punchHoleSyscall cfg ans l, none⟩]
  else []

/-- The second loop of `allocateDataCacheLines`. -/
def takeCleanMoments : ℕ → DataCache → List Moment
  | 0, _ => []
  | n + 1, c =>
      match c.cleanLRU with
      | [] => []
      | l :: rest =>
          if (inodes (c.lines l).inodeNumber).isNone then []
          else
            let popped := { c with cleanLRU := rest }.setState l .notOnLRU
            popped.recycleMoments cfg ans l ++ ⟨popped.recycle cfg ans l, none⟩ ::
              takeCleanMoments n (popped.recycle cfg ans l)

/-- `allocateDataCacheLines`: the first loop changes nothing that is seen. -/
def allocateMoments (count : ℕ) (got : List ℕ) (c : DataCache) : List Moment :=
  let (c₁, got₁) := takeFree (count - got.length) c got
  takeCleanMoments cfg inodes ans (count - got₁.length) c₁

/-- A line that is found in the cache map. -/
def readLineMoments (inode cacheLineNumber l : ℕ) (c : DataCache) : List Moment :=
  if l < cfg.cacheLines ∧ (c.lines l).state = .clean ∧ (c.lines l).fetchFailed then
    ((c.setCacheMap inode cacheLineNumber none).popClean l).freeMoments cfg ans l
  else []

/-- The first locked section of `DoRead`. -/
def readMoments (rd : Reader) (c : DataCache) : List Moment :=
  if rd.readIn.size ≤ rd.data.length then []
  else
    match c.checkRead inodes rd.readIn with
    | .error _ => []
    | .ok info =>
        if info.content.length ≤ rd.curOffset then []
        else
          let cacheLineNumber := rd.curOffset / cfg.cacheLineSize
          match c.cacheMap rd.readIn.inode cacheLineNumber with
          | none =>
              let prefetch := c.prefetchCacheLineNumbers cfg rd.readIn.inode info.content.length
                cacheLineNumber
              c.allocateMoments cfg inodes ans (1 + prefetch.length) []
          | some l => c.readLineMoments cfg ans rd.readIn.inode cacheLineNumber l

/-- The loop over the lines to prefetch. -/
def assignPrefetchMoments (inode : ℕ) : List ℕ → DataCache → List ℕ → List Moment
  | [], _, _ => []
  | _ :: _, _, [] => []
  | n :: prefetch, c, l :: got =>
      if (c.cacheMap inode n).isSome then assignPrefetchMoments inode prefetch c (l :: got)
      else
        ⟨c.assignLine inode n [] l, none⟩ ::
          assignPrefetchMoments inode prefetch (c.assignLine inode n [] l) got

/-- The second locked section of `DoRead`. -/
def assignMoments (r : ℕ) (rd : Reader) (prefetch got : List ℕ) (c : DataCache) : List Moment :=
  match c.checkRead inodes rd.readIn with
  | .error _ => releaseMoments cfg ans got c
  | .ok info =>
      if info.content.length ≤ rd.curOffset then releaseMoments cfg ans got c
      else
        let cacheLineNumber := rd.curOffset / cfg.cacheLineSize
        if (c.cacheMap rd.readIn.inode cacheLineNumber).isSome then releaseMoments cfg ans got c
        else
          match got with
          -- Fatalf: no line was given
          | [] => []
          | l :: got =>
              let assigned := c.assignLine rd.readIn.inode cacheLineNumber [r] l
              let (c₁, left) := assignPrefetch rd.readIn.inode prefetch assigned got
              ⟨assigned, none⟩ :: (assignPrefetchMoments rd.readIn.inode prefetch assigned got ++
                releaseMoments cfg ans left c₁)

/-- The first locked section of `fetch`. -/
def fetchBeginMoments (l : ℕ) (c : DataCache) : List Moment :=
  match inodes (c.lines l).inodeNumber with
  | none => (c.popInbound l).freeMoments cfg ans l
  | some _ => []

/-- The second locked section of `fetch`: the generation is bumped before the
bytes are written to the file. -/
def fetchEndMoments (l : ℕ) (buf : Option (List UInt8)) (c : DataCache) : List Moment :=
  match inodes (c.lines l).inodeNumber with
  | none => (c.popInbound l).freeMoments cfg ans l
  | some _ =>
      let popped := { c with
        inboundCacheLineCount := Function.update c.inboundCacheLineCount (c.lines l).inodeNumber
          (c.inboundCacheLineCount (c.lines l).inodeNumber - 1) }.popInbound l
      let bumped := popped.updLine l fun t =>
        { t with contentGeneration := t.contentGeneration + 1, fetch := .idle }
      [⟨bumped, none⟩, ⟨bumped.storeFetched cfg ans l buf, none⟩]

/-- A step of the data cache, up to its result. -/
def stepMoments (c : DataCache) : CacheStep → List Moment
  | .read r ans =>
      match c.readers[r]? with
      | none => []
      | some rd => c.readMoments cfg inodes ans rd
  | .allocate r ans =>
      match (c.readers[r]?).map Reader.pc with
      | some (.allocating count _ got) => c.allocateMoments cfg inodes ans count got
      | _ => []
  | .assign r ans =>
      match c.readers[r]? with
      | none => []
      | some rd =>
          match rd.pc with
          | .allocated prefetch got => c.assignMoments cfg inodes ans r rd prefetch got
          | _ => []
  | .fetchBegin l ans => c.fetchBeginMoments cfg inodes ans l
  | .fetchEnd l ans =>
      match (c.lines l).fetch with
      | .answered buf => c.fetchEndMoments cfg inodes ans l buf
      | _ => []
  | _ => []

/-- The loop of `clearFileCacheLinesLocked`, or the first one of
`finishPendingDelete`. -/
def dropLinesMoments (i : ℕ) (onlyClean : Bool) : List ℕ → DataCache → List Moment
  | [], _ => []
  | n :: order, c =>
      match c.cacheMap i n with
      | none => dropLinesMoments i onlyClean order c
      | some l =>
          if cfg.cacheLines ≤ l then []
          else if (c.lines l).state = .clean then
            ((c.setCacheMap i n none).popClean l).freeMoments cfg ans l ++
              ⟨c.dropClean cfg ans i n l, none⟩ ::
                dropLinesMoments i onlyClean order (c.dropClean cfg ans i n l)
          else if onlyClean then []
          else dropLinesMoments i onlyClean order c

end DataCache

namespace CachedFiles

variable (cfg : CacheConfig) (objects : ℕ → List UInt8)

/-- A section of one of the parties, up to its result. -/
def moments (f : CachedFiles) : FileStep → List Moment
  | .cache s =>
      if (f.cacheChecks s).any fun checked => checked.cache.fatal then []
      else DataCache.stepMoments cfg (f.view objects s) { f.cache with handles := f.handles } s
  | .finishPendingDelete d order ans =>
      match f.deletes[d]? with
      | none => []
      | some del => DataCache.dropLinesMoments cfg ans del.inode false order f.cache
  | .evict i order ans =>
      if f.inodeMap i then DataCache.dropLinesMoments cfg ans i true order f.cache else []
  | _ => []

end CachedFiles

/-! ### Copies -/

/-- A lock-free reader, with what its `DoRead` has when it unlocks. -/
structure Copy where
  reader : Reader
  source : CopySource
  /-- what the copy has read, or an error -/
  copied : Option (Option (List UInt8))
  /-- it was read when `free` had punched the hole and not bumped the
  generation -/
  insideFree : Bool
  /-- once compared, whether both generations agree -/
  agrees : Option Bool

/-- The files as the section in progress leaves them, what is seen of it now,
and what will be seen. -/
structure LockFreeReads where
  files : CachedFiles
  now : Moment
  rest : List Moment
  copies : List Copy

/-- The steps of the sections and of the copies. -/
inductive LockFreeStep
  /-- a section under the lock, up to the first change that is seen -/
  | lock (s : FileStep)
  /-- the next change that is seen, until the section unlocks -/
  | next
  /-- a reader has remembered the generation and unlocks -/
  | snapshot (r : ℕ)
  /-- a copy reads the bytes -/
  | copy (k : ℕ)
  /-- a copy loads the generation again -/
  | reload (k : ℕ)

namespace LockFreeReads

variable (cfg : CacheConfig) (objects : ℕ → List UInt8)

/-- A copy moves on. -/
def setCopy (p : LockFreeReads) (k : ℕ) (copy : Copy) : LockFreeReads :=
  { p with copies := p.copies.set k copy }

/-- A step that is enabled, in a process that has not ended. -/
def stepAlive (p : LockFreeReads) : LockFreeStep → Option LockFreeReads
  | .lock s =>
      -- a section starts when the moments of the one before have passed
      if p.rest = [] then do
        let f ← p.files.step cfg objects s
        match p.files.moments cfg objects s with
        | [] => some { p with files := f, now := ⟨f.cache, none⟩ }
        | m :: ms => some { p with files := f, now := m, rest := ms ++ [⟨f.cache, none⟩] }
      else none
  | .next =>
      match p.rest with
      | [] => none
      | m :: ms => some { p with now := m, rest := ms }
  | .snapshot r =>
      if p.rest = [] then do
        let rd ← p.files.cache.readers[r]?
        match rd.pc with
        | .copying s => some { p with copies := p.copies ++ [⟨rd, s, none, false, none⟩] }
        | _ => none
      else none
  -- the copy and the second load of the generation happen at any moment
  | .copy k => do
      let copy ← p.copies[k]?
      if copy.copied.isNone then
        some (p.setCopy k { copy with
          copied := some (p.now.cache.copyBytes copy.source)
          insideFree := decide (p.now.freeing = some copy.source.line) })
      else none
  | .reload k => do
      let copy ← p.copies[k]?
      if copy.copied.isSome ∧ copy.agrees.isNone then
        some (p.setCopy k { copy with
          agrees := some (decide ((p.now.cache.lines copy.source.line).contentGeneration =
            copy.source.generation)) })
      else none

/-- One step. -/
def step (p : LockFreeReads) (a : LockFreeStep) : Option LockFreeReads :=
  if p.now.cache.fatal then none else stepAlive cfg objects p a

/-- No backend is mounted yet. -/
def initial (reads : List ReadIn) : LockFreeReads where
  files := CachedFiles.initial cfg reads
  now := ⟨(CachedFiles.initial cfg reads).cache, none⟩
  rest := []
  copies := []

end LockFreeReads

end MultiStorageFileSystem
