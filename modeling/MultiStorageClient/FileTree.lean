/-
MultiStorageClient/FileTree.lean

The inodes and directory entries of the file system (`globalsStruct`), and what
an operation can do to them between two looks of the others.

`inodeMap` tells which inodes there are; an inode stays known to who has a
pointer to it.  The entries of a directory are in two maps, keyed by the
directory and the basename: `physChildDirEntryMap`, whose shards have locks of
their own, and `virtChildDirEntryMap`.  The inodes that may be evicted are in
`inodeEvictionQueue`, in the order of their `xTime`.

The fields of `inodeStruct` are kept apart: `Inode` is who the inode is,
`InodeUse` who uses it, and `xTime` its place in the queue.  Of the fields that
only show in answers, the modes are left out; the outbound and dirty counts are
never set.  `fetchNonce` gives out the numbers of `nonces`, in order; all of
them have the zero values of their fields until then.

A call runs in sections under the global lock; a section is a program of the
operations `TreeOp`.
-/
import MultiStorageClient.Sections
import MultiStorageClient.SortedMap
import MultiStorageClient.CachedFiles

namespace MultiStorageFileSystem

/-- The numbers that `fetchNonce` has yet to give out. -/
structure Nonces where
  nth : ℕ → ℕ
  mono : StrictMono nth

namespace Nonces

/-- The next number. -/
def head (s : Nonces) : ℕ := s.nth 0

/-- The numbers behind the next. -/
def tail (s : Nonces) : Nonces := ⟨fun k => s.nth (k + 1), fun _ _ h => s.mono (by omega)⟩

/-- The number has been given out. -/
def Given (s : Nonces) (n : ℕ) : Prop := ∀ k, s.nth k ≠ n

/-- All numbers from `n` on. -/
def upFrom (n : ℕ) : Nonces := ⟨fun k => k + n, fun _ _ h => by dsimp only; omega⟩

end Nonces

/-- `DirEntryInfo` of the two maps, keyed by directory and basename. -/
abbrev DirEntries := SortedMap (ℕ ×ₗ String) ℕ

namespace DirEntries

/-- `getIndexRange` -/
def indexRange (m : DirEntries) (d : ℕ) : ℕ × ℕ :=
  (m.rank (toLex (d, "")), m.rank (toLex (d + 1, "")))

/-- The entry at a position. -/
def byIndex (m : DirEntries) (k : ℕ) : Option (String × ℕ) :=
  (m.getByIndex k).map fun e => ((ofLex e.1).2, e.2)

end DirEntries

/-- `InodeType` -/
inductive InodeType
  | FileObject
  | FUSERootDir
  | BackendRootDir
  | PseudoDir
  deriving DecidableEq

/-- What a backend says of an object. -/
structure FileInfo where
  size : ℕ
  eTag : String
  mTime : ℕ
  deriving DecidableEq

/-- Who an inode is. -/
structure Inode where
  inodeType : InodeType
  backendNonce : ℕ
  parentInodeNumber : ℕ
  isVirt : Bool
  objectPath : String
  basename : String
  info : FileInfo

/-- Who uses an inode. -/
structure InodeUse where
  fhSet : List ℕ
  pendingDelete : Bool
  isPrefetchInProgress : Bool
  inboundCacheLineCount : ℕ

/-- `backendStruct` -/
structure Backend where
  dirName : String
  readOnly : Bool
  inode : ℕ

/-- `listDirectoryOutputStruct` -/
structure ListDirectoryOutput where
  file : List (String × FileInfo)
  subdirectory : List String
  nextContinuationToken : String
  isTruncated : Bool
  deriving DecidableEq

/-- An entry of the manifest part of a directory. -/
structure ManifestPartEntry where
  basename : String
  isDir : Bool
  info : FileInfo
  deriving DecidableEq

/-- `syscall.DT_REG` and `syscall.DT_DIR` -/
inductive DirEntType
  | REG
  | DIR
  deriving DecidableEq

/-- `dirEntType` -/
def InodeType.dirEntType : InodeType → DirEntType
  | FileObject => .REG
  | _ => .DIR

/-- `fission.DirEnt` -/
structure DirEnt where
  ino : ℕ
  off : ℕ
  type : DirEntType
  name : String
  deriving DecidableEq

/-- The locals of a call of `DoReadDir`, or of `DoReadDirPlus`. -/
structure ReadDirCall where
  plus : Bool
  curOffset : ℕ
  size : ℕ
  dirEnt : List DirEnt
  curSize : ℕ
  deriving DecidableEq

/-- `fhStruct`; `listDirectoryInProgress` with the call that waits for the
backend. -/
structure Fh where
  inode : ℕ
  isExclusive : Bool
  allowReads : Bool
  listDirectoryInProgress : Option ReadDirCall
  listDirectorySequenceDone : Bool
  prevListDirectoryOutput : Option ListDirectoryOutput
  prevListDirectoryOutputStartingOffset : ℕ
  nextListDirectoryOutput : Option ListDirectoryOutput
  nextListDirectoryOutputStartingOffset : ℕ
  listDirectorySubdirectoryList : List String
  serveFromBPTree : Bool
  manifestEntries : Option (List ManifestPartEntry)
  deriving DecidableEq

/-- A data cache line, by its state and inode (`DataCache` has the lines in
full). -/
structure TreeLine where
  state : LineState
  inodeNumber : ℕ
  deriving DecidableEq

/-- A `prefetchDirectory`: before its first section, or listing. -/
structure Prefetch where
  dirInodeNumber : ℕ
  listing : Bool

/-- What only a holder of the global lock looks at. -/
structure Globals where
  use : ℕ → InodeUse
  backendMap : ℕ → Option Backend
  fhMap : ℕ → Option Fh
  dataCacheLinesTracker : List TreeLine
  /-- what `time.Now()` is going to say -/
  now : ℕ → ℕ
  prefetches : List Prefetch
  /-- the inodes with a `finishPendingDelete` under way -/
  pendingDeletes : List ℕ

/-- An inode that the manifest ingest has put into `inodeMap`, and the entry it
is going to have. -/
structure IngestEntry where
  parentInodeNumber : ℕ
  basename : String
  inodeNumber : ℕ
  deriving DecidableEq

/-- The globals of the file system. -/
structure FileTree where
  nonces : Nonces
  inodeMap : ℕ → Bool
  inode : ℕ → Inode
  /-- the shards of `physChildDirEntryMap` -/
  physShards : ℕ → DirEntries
  virtChildDirEntryMap : DirEntries
  xTime : ℕ → Option ℕ
  inodeEvictionQueue : SortedMap (ℕ ×ₗ ℕ) Unit
  globals : Globals
  pending : List IngestEntry

/-- `FUSERootDirInodeNumber` -/
def FUSERootDirInodeNumber : ℕ := 1

/-- `dirEntryMapShardCount` -/
def dirEntryMapShardCount : ℕ := 64

/-- `DotDirEntryBasename` -/
def DotDirEntryBasename : String := "."

/-- `DotDotDirEntryBasename` -/
def DotDotDirEntryBasename : String := ".."

/-- What the holder of the global lock can do to the maps and inodes, one step
at a time. -/
inductive TreeOp
  | fetchNonce
  | inodeGet (i : ℕ)
  | inodePut (i : ℕ) (ino : Inode)
  | inodeDelete (i : ℕ)
  /-- the fields of an inode, through a pointer -/
  | deref (i : ℕ)
  | setIsVirt (i : ℕ) (isVirt : Bool)
  | physGet (d : ℕ) (basename : String)
  | physPut (d : ℕ) (basename : String) (i : ℕ)
  | physDelete (d : ℕ) (basename : String)
  /-- `getIndexRange`, and whether the range is empty -/
  | physIsEmpty (d : ℕ)
  | physIndexRange (d : ℕ)
  | physByIndex (d k : ℕ)
  | virtGet (d : ℕ) (basename : String)
  | virtPut (d : ℕ) (basename : String) (i : ℕ)
  | virtDelete (d : ℕ) (basename : String)
  | virtIndexRange (d : ℕ)
  | virtByIndex (k : ℕ)
  | xTime (i : ℕ)
  | setXTime (i : ℕ) (xTime : Option ℕ)
  | queueFront
  | queueInsert (i : ℕ)
  | queueRemove (i : ℕ)
  | globals
  | modify (f : Globals → Globals)

/-- What comes back. -/
def TreeOp.Answer : TreeOp → Type
  | fetchNonce => ℕ
  | inodeGet _ | inodePut _ _ | inodeDelete _ => Bool
  | deref _ => Inode
  | setIsVirt _ _ => Unit
  | physGet _ _ | virtGet _ _ => Option ℕ
  | physPut _ _ _ | physDelete _ _ | physIsEmpty _ | virtPut _ _ _ | virtDelete _ _ => Bool
  | physIndexRange _ | virtIndexRange _ => ℕ × ℕ
  | physByIndex _ _ | virtByIndex _ => Option (String × ℕ)
  | xTime _ => Option ℕ
  | setXTime _ _ => Unit
  | queueFront => Option (ℕ × ℕ)
  | queueInsert _ | queueRemove _ => Bool
  | globals => Globals
  | modify _ => Unit

namespace FileTree

/-- The shard of a directory. -/
def shardFor (t : FileTree) (d : ℕ) : DirEntries := t.physShards (d % dirEntryMapShardCount)

/-- `physChildDirEntryMap.getByKey` -/
def physGet (t : FileTree) (d : ℕ) (name : String) : Option ℕ :=
  (t.shardFor d).get (toLex (d, name))

/-- `virtChildDirEntryMap.getByKey` -/
def virtGet (t : FileTree) (d : ℕ) (name : String) : Option ℕ :=
  t.virtChildDirEntryMap.get (toLex (d, name))

/-- The shard of a directory changes. -/
def setShard (t : FileTree) (d : ℕ) (m : DirEntries) : FileTree :=
  { t with physShards := Function.update t.physShards (d % dirEntryMapShardCount) m }

/-- `physChildDirEntryMap.put` -/
def physPut (t : FileTree) (d : ℕ) (name : String) (i : ℕ) : FileTree :=
  t.setShard d ((t.shardFor d).insert (toLex (d, name)) i)

/-- `physChildDirEntryMap.delete` -/
def physDelete (t : FileTree) (d : ℕ) (name : String) : FileTree :=
  t.setShard d ((t.shardFor d).erase (toLex (d, name)))

/-- `virtChildDirEntryMap.put` -/
def virtPut (t : FileTree) (d : ℕ) (name : String) (i : ℕ) : FileTree :=
  { t with virtChildDirEntryMap := t.virtChildDirEntryMap.insert (toLex (d, name)) i }

/-- `virtChildDirEntryMap.delete` -/
def virtDelete (t : FileTree) (d : ℕ) (name : String) : FileTree :=
  { t with virtChildDirEntryMap := t.virtChildDirEntryMap.erase (toLex (d, name)) }

/-- `inodeMap.put` -/
def inodePut (t : FileTree) (i : ℕ) (ino : Inode) : FileTree :=
  { t with
    inodeMap := Function.update t.inodeMap i true
    inode := Function.update t.inode i ino }

/-- `inodeMap.delete` -/
def inodeDelete (t : FileTree) (i : ℕ) : FileTree :=
  { t with inodeMap := Function.update t.inodeMap i false }

/-- `inode.isVirt` is set. -/
def setIsVirt (t : FileTree) (i : ℕ) (isVirt : Bool) : FileTree :=
  { t with inode := Function.update t.inode i { t.inode i with isVirt := isVirt } }

/-- `inode.xTime` is set. -/
def setXTime (t : FileTree) (i : ℕ) (xTime : Option ℕ) : FileTree :=
  { t with xTime := Function.update t.xTime i xTime }

/-- The key of an inode in the eviction queue. -/
def queueKey (t : FileTree) (i : ℕ) : ℕ ×ₗ ℕ := toLex ((t.xTime i).getD 0, i)

/-- `inodeEvictionQueue.insert` -/
def queueInsert (t : FileTree) (i : ℕ) : FileTree :=
  { t with inodeEvictionQueue := t.inodeEvictionQueue.insert (t.queueKey i) () }

/-- `inodeEvictionQueue.remove` -/
def queueRemove (t : FileTree) (i : ℕ) : FileTree :=
  { t with inodeEvictionQueue := t.inodeEvictionQueue.erase (t.queueKey i) }

/-- What only a holder of the global lock looks at changes. -/
def modify (t : FileTree) (f : Globals → Globals) : FileTree :=
  { t with globals := f t.globals }

/-- One operation: what comes back, and the globals after it.  A put of a key
that is there and a delete of a key that is not do nothing and say so. -/
def act : (o : TreeOp) → FileTree → o.Answer × FileTree
  | .fetchNonce, t => (t.nonces.head, { t with nonces := t.nonces.tail })
  | .inodeGet i, t => (t.inodeMap i, t)
  -- put and delete answer whether they changed anything, as the maps do
  | .inodePut i ino, t => if t.inodeMap i then (false, t) else (true, t.inodePut i ino)
  | .inodeDelete i, t => if t.inodeMap i then (true, t.inodeDelete i) else (false, t)
  | .deref i, t => (t.inode i, t)
  | .setIsVirt i isVirt, t => ((), t.setIsVirt i isVirt)
  | .physGet d name, t => (t.physGet d name, t)
  | .physPut d name i, t =>
      if (t.physGet d name).isSome then (false, t) else (true, t.physPut d name i)
  | .physDelete d name, t =>
      if (t.physGet d name).isSome then (true, t.physDelete d name) else (false, t)
  | .physIsEmpty d, t => (((t.shardFor d).indexRange d).2 - ((t.shardFor d).indexRange d).1 == 0, t)
  | .physIndexRange d, t => ((t.shardFor d).indexRange d, t)
  | .physByIndex d k, t => ((t.shardFor d).byIndex k, t)
  | .virtGet d name, t => (t.virtGet d name, t)
  | .virtPut d name i, t =>
      if (t.virtGet d name).isSome then (false, t) else (true, t.virtPut d name i)
  | .virtDelete d name, t =>
      if (t.virtGet d name).isSome then (true, t.virtDelete d name) else (false, t)
  | .virtIndexRange d, t => (t.virtChildDirEntryMap.indexRange d, t)
  | .virtByIndex k, t => (t.virtChildDirEntryMap.byIndex k, t)
  | .xTime i, t => (t.xTime i, t)
  | .setXTime i xTime, t => ((), t.setXTime i xTime)
  | .queueFront, t => ((t.inodeEvictionQueue.getByIndex 0).map fun e => ofLex e.1, t)
  | .queueInsert i, t =>
      if (t.inodeEvictionQueue.get (t.queueKey i)).isSome then (false, t)
      else (true, t.queueInsert i)
  | .queueRemove i, t =>
      if (t.inodeEvictionQueue.get (t.queueKey i)).isSome then (true, t.queueRemove i)
      else (false, t)
  | .globals, t => (t.globals, t)
  | .modify f, t => ((), t.modify f)

end FileTree

/-- `globals.logger.Fatalf` -/
inductive Fatal
  | fatalf
  deriving DecidableEq

/-- A program under the global lock. -/
abbrev TreeSection := Prog TreeOp TreeOp.Answer Fatal

end MultiStorageFileSystem
