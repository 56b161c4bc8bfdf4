/-
MultiStorageClient/Producer.lean

The producer of a sync operation (`sync/producer.py`, with the batch types
of `sync/types.py`): it merges a source listing with a target listing and
puts batches of ADD, SYMLINK and DELETE operations on the file queue.

The two listings are iterators that may raise at their end; the shutdown
event is asked once per round of the loop, so a run is given by the answers
to these questions.  The loop is the source's: two cursors, hidden entries
skipped on either side, three outcomes of the key comparison, one drain
branch for each side.  The batcher state is threaded through it.

The progress bar only displays counters and is left out.
-/
import MultiStorageClient.ObjectMetadata

namespace MultiStorageClient

/-! ### Operations and batches -/

/-- The kinds of sync operations; `stop` is the sentinel. -/
inductive OperationType
  | add
  | delete
  | symlink
  | stop
  deriving DecidableEq, Repr

/-- A `(primary_metadata, target_metadata_or_None)` pair. -/
abbrev Item := ObjectMetadata × Option ObjectMetadata

/-- A batch of operations of one type. -/
structure OperationBatch where
  operation : OperationType
  items : List Item

/-- The sentinel batch. -/
def stopBatch : OperationBatch := ⟨.stop, []⟩

/-- The operations a batch carries, one for each item. -/
def OperationBatch.ops (b : OperationBatch) : List (OperationType × Item) :=
  b.items.map fun it => (b.operation, it)

/-- `MIN_BATCH_SIZE` -/
def minBatchSize : ℕ := 10

/-- `MAX_BATCH_SIZE` -/
def maxBatchSize : ℕ := 1000

theorem defaultBatchSize_ok : minBatchSize ≤ 32 ∧ 32 ≤ maxBatchSize := by decide

/-- `SIZE_SMALL_THRESHOLD` -/
def sizeSmallThreshold : ℕ := 1 * 1024 * 1024

/-- `SIZE_MEDIUM_THRESHOLD` -/
def sizeMediumThreshold : ℕ := 64 * 1024 * 1024

/-- `SIZE_LARGE_THRESHOLD` -/
def sizeLargeThreshold : ℕ := 1024 * 1024 * 1024

/-- File size categories. -/
inductive SizeBucket
  | small
  | medium
  | large
  | veryLarge
  deriving DecidableEq, Repr

/-! ### What the clients answer -/

/-- How symbolic links are listed. -/
inductive SymlinkHandling
  | follow
  | skip
  | preserve
  deriving DecidableEq, Repr

/-- A listing in progress: the entries still to come, and the exception
raised after the last of them, if any. -/
structure Iter where
  items : List ObjectMetadata
  error : Option PyStr := none

/-- The answer of `client.info(path, strict=False)`. -/
inductive InfoResult
  | found (m : ObjectMetadata)
  | notFound
  | raised (e : PyStr)

/-- The part of a storage client the producer uses. -/
structure SyncClient where
  /-- `list(path, show_attributes, symlink_handling)` -/
  list : PyStr → Bool → SymlinkHandling → Iter
  /-- `list_recursive(path, symlink_handling)` -/
  listRecursive : PyStr → SymlinkHandling → Iter
  info : PyStr → InfoResult
  /-- whether `_metadata_provider` is set -/
  hasMetadataProvider : Bool

/-- The arguments of a producer.  The constructor raises `ValueError` unless
the batch size is in range, so a producer carries that fact. -/
structure ProducerThread where
  sourceClient : SyncClient
  sourcePath : PyStr
  targetClient : SyncClient
  targetPath : PyStr
  numWorkers : ℕ
  deleteUnmatchedFiles : Bool := false
  patternMatcher : Option PatternMatcher := none
  preserveSourceAttributes : Bool := false
  symlinkHandling : SymlinkHandling := .follow
  sourceFiles : Option (List PyStr) := none
  ignoreHidden : Bool := true
  batchSize : ℕ := 32
  /-- whether `MSC_SYNC_DISABLE_PARALLEL_LISTING` is set -/
  disableParallelListing : Bool := false
  batchSize_ok : minBatchSize ≤ batchSize ∧ batchSize ≤ maxBatchSize := by
    exact defaultBatchSize_ok

/-- The mutable part of a producer. -/
structure ProducerState where
  currentBatch : List Item := []
  currentBatchType : Option OperationType := none
  currentBatchSizeBucket : Option SizeBucket := none
  /-- the batches put on the file queue, oldest first -/
  fileQueue : List OperationBatch := []
  totalWorkUnits : ℕ := 0

/-- `self.total_work_units += 1` -/
def ProducerState.countWork (st : ProducerState) : ProducerState :=
  { st with totalWorkUnits := st.totalWorkUnits + 1 }

/-! ### The batcher -/

/-- `_get_size_bucket` -/
def getSizeBucket (contentLength : ℕ) : SizeBucket :=
  if contentLength ≤ sizeSmallThreshold then .small
  else if contentLength ≤ sizeMediumThreshold then .medium
  else if contentLength ≤ sizeLargeThreshold then .large
  else .veryLarge

/-- `_flush_batch` -/
def ProducerState.flushBatch (st : ProducerState) : ProducerState :=
  match st.currentBatch, st.currentBatchType with
  | [], _ => st
  | _ :: _, none => st
  | it :: its, some op =>
      { st with
        fileQueue := st.fileQueue ++ [⟨op, it :: its⟩]
        currentBatch := []
        currentBatchType := none
        currentBatchSizeBucket := none }

namespace ProducerThread

variable (p : ProducerThread)

/-- The operation and bucket under which `_enqueue_operation` files an item:
an ADD of an entry with a symlink target becomes a small SYMLINK. -/
def classify (operation : OperationType) (sourceMetadata : ObjectMetadata) :
    OperationType × SizeBucket :=
  if operation = .add ∧ sourceMetadata.symlinkTarget.isSome then (.symlink, .small)
  else (operation, getSizeBucket sourceMetadata.contentLength)

/-- `_enqueue_operation` -/
def enqueueOperation (st : ProducerState) (operation : OperationType)
    (sourceMetadata : ObjectMetadata) (targetMetadata : Option ObjectMetadata := none) :
    ProducerState :=
  let (operation, sizeBucket) := classify operation sourceMetadata
  let st :=
    -- a batch holds one operation type and one size bucket
    if st.currentBatchType ≠ some operation ∨ st.currentBatchSizeBucket ≠ some sizeBucket then
      { st.flushBatch with
        currentBatchType := some operation
        currentBatchSizeBucket := some sizeBucket }
    else st
  let st := { st with currentBatch := st.currentBatch ++ [(sourceMetadata, targetMetadata)] }
  if p.batchSize ≤ st.currentBatch.length then st.flushBatch else st

/-! ### Comparing entries -/

/-- `last_modified.replace(microsecond=0)`, as whole seconds. -/
def seconds (t : ℤ) : ℤ := t / 1000000

/-- `_match_file_metadata` -/
def matchFileMetadata (sourceInfo targetInfo : ObjectMetadata) : Bool :=
  if sourceInfo.symlinkTarget.isSome || targetInfo.symlinkTarget.isSome then
    sourceInfo.symlinkTarget == targetInfo.symlinkTarget
  else if sourceInfo.contentLength ≠ targetInfo.contentLength
      ∨ seconds targetInfo.lastModified < seconds sourceInfo.lastModified then
    false
  else if p.preserveSourceAttributes && p.targetClient.hasMetadataProvider then
    (Json.obj (sourceInfo.metadata.getD [])).pyEq (Json.obj (targetInfo.metadata.getD []))
  else true

/-- `_is_hidden` -/
def isHidden (path : PyStr) : Bool :=
  p.ignoreHidden && (path.splitOn '/').any (fun part => PyStr.startswith part ['.'])

/-- `not self.pattern_matcher or self.pattern_matcher.should_include_file(key)` -/
def included (key : PyStr) : Bool :=
  match p.patternMatcher with
  | none => true
  | some m => m.shouldIncludeFile key

/-- `key[len(path):].lstrip("/")` -/
def relKey (path key : PyStr) : PyStr := PyStr.lstrip '/' (key.drop path.length)

/-- The relative key of a source entry. -/
def sourceKey (m : ObjectMetadata) : PyStr := relKey p.sourcePath m.key

/-- The relative key of a target entry. -/
def targetKey (m : ObjectMetadata) : PyStr := relKey p.targetPath m.key

/-! ### The iterators -/

/-- `_create_listing_iterator` -/
def createListingIterator (client : SyncClient) (path : PyStr) (showAttributes : Bool) : Iter :=
  if showAttributes || p.disableParallelListing then
    client.list path showAttributes p.symlinkHandling
  else client.listRecursive path p.symlinkHandling

/-- `source_metadata.metadata = None` unless attributes are preserved. -/
def applyAttributePolicy (m : ObjectMetadata) : ObjectMetadata :=
  if p.preserveSourceAttributes then m else { m with metadata := none }

/-- The path asked for an entry of `source_files`. -/
def sourceFilePath (relFilePath : PyStr) : PyStr :=
  PyStr.lstrip '/' (PyStr.join p.sourcePath (PyStr.lstrip '/' relFilePath))

/-- The entries `_create_source_iterator` yields for `source_files`: missing
files are skipped with a warning, other exceptions end the iteration. -/
def sourceFilesIterator : List PyStr → Iter
  | [] => ⟨[], none⟩
  | f :: fs =>
      match p.sourceClient.info (p.sourceFilePath f) with
      | .found m =>
          let rest := sourceFilesIterator fs
          ⟨p.applyAttributePolicy m :: rest.items, rest.error⟩
      | .notFound => sourceFilesIterator fs
      | .raised e => ⟨[], some e⟩

/-- `_create_source_iterator` -/
def createSourceIterator : Iter :=
  match p.sourceFiles with
  | some files => p.sourceFilesIterator files
  | none =>
      let listing := p.createListingIterator p.sourceClient p.sourcePath p.preserveSourceAttributes
      ⟨listing.items.map p.applyAttributePolicy, listing.error⟩

/-- The target listing of `run`. -/
def createTargetIterator : Iter :=
  p.createListingIterator p.targetClient p.targetPath
    (p.preserveSourceAttributes && p.targetClient.hasMetadataProvider)

end ProducerThread

/-! ### The merge loop -/

/-- An iterator with the entry last fetched from it (`source_file` with
`source_iter`, `target_file` with `target_iter`). -/
structure Cursor where
  file : Option ObjectMetadata
  iter : Iter

/-- `next(iter, None)` -/
def Iter.next (it : Iter) : Except PyStr Cursor :=
  match it with
  | ⟨m :: ms, e⟩ => .ok ⟨some m, ⟨ms, e⟩⟩
  | ⟨[], none⟩ => .ok ⟨none, ⟨[], none⟩⟩
  | ⟨[], some e⟩ => .error e

/-- The number of entries a cursor still has. -/
def Cursor.remaining (c : Cursor) : ℕ := c.file.toList.length + c.iter.items.length

/-- How the loop of `run` ends: both listings are used up, the shutdown
event was seen, or an exception was caught. -/
inductive Outcome
  | finished
  | shutdown
  | error (e : PyStr)
  deriving DecidableEq

namespace ProducerThread

variable (p : ProducerThread)

/-- One round of the loop: the state after it, and the cursors or the
exception of the `next` call. -/
def round (src tgt : Cursor) (st : ProducerState) :
    ProducerState × Except PyStr (Cursor × Cursor) :=
  match src.file, tgt.file with
  | some s, some t =>
      let sourceKey := p.sourceKey s
      let targetKey := p.targetKey t
      if p.isHidden sourceKey then (st, (·, tgt) <$> src.iter.next)
      else if p.isHidden targetKey then (st, (src, ·) <$> tgt.iter.next)
      else if sourceKey < targetKey then
        (if p.included sourceKey then (p.enqueueOperation st .add s).countWork else st,
          (·, tgt) <$> src.iter.next)
      else if targetKey < sourceKey then
        (if p.deleteUnmatchedFiles then (p.enqueueOperation st .delete t).countWork else st,
          (src, ·) <$> tgt.iter.next)
      else
        let st :=
          if p.matchFileMetadata s t then st
          else if p.included sourceKey then p.enqueueOperation st .add s (some t)
          else st
        -- the work unit is counted after both `next` calls
        match src.iter.next, tgt.iter.next with
        | .error e, _ => (st, .error e)
        | .ok _, .error e => (st, .error e)
        | .ok src, .ok tgt => (st.countWork, .ok (src, tgt))
  | some s, none =>
      let sourceKey := p.sourceKey s
      if p.isHidden sourceKey then (st, (·, tgt) <$> src.iter.next)
      else
        (if p.included sourceKey then (p.enqueueOperation st .add s).countWork else st,
          (·, tgt) <$> src.iter.next)
  | none, some t =>
      let targetKey := p.targetKey t
      if p.isHidden targetKey then (st, (src, ·) <$> tgt.iter.next)
      else
        (if p.deleteUnmatchedFiles then (p.enqueueOperation st .delete t).countWork else st,
          (src, ·) <$> tgt.iter.next)
  | none, none => (st, .ok (src, tgt))

end ProducerThread

/-- The cursor counts what is left. -/
theorem Iter.next_remaining {it : Iter} {c : Cursor} (h : it.next = .ok c) :
    c.remaining = it.items.length := by
  obtain ⟨items, error⟩ := it
  rcases items with - | ⟨m, ms⟩
  · rcases error with - | e
    · obtain rfl : (⟨none, ⟨[], none⟩⟩ : Cursor) = c := by simpa [Iter.next] using h
      rfl
    · simp [Iter.next] at h
  · obtain rfl : (⟨some m, ⟨ms, error⟩⟩ : Cursor) = c := by simpa [Iter.next] using h
    simp [Cursor.remaining, Nat.add_comm]

/-- Advancing a cursor that holds an entry leaves fewer entries. -/
theorem Cursor.next_lt {c c' : Cursor} {m : ObjectMetadata} (hm : c.file = some m)
    (h : c.iter.next = .ok c') : c'.remaining < c.remaining := by
  rw [Iter.next_remaining h]
  simp [Cursor.remaining, hm]

namespace ProducerThread

variable (p : ProducerThread)

theorem map_next_ok {α : Type} {it : Iter} {f : Cursor → α} {r : α}
    (h : f <$> it.next = .ok r) : ∃ c, it.next = .ok c ∧ f c = r := by
  rcases hn : it.next with e | c
  · rw [hn] at h; cases h
  · rw [hn] at h
    exact ⟨c, rfl, by injection h⟩

/-- Every round uses up an entry. -/
theorem round_remaining_lt {src tgt src' tgt' : Cursor} {st st' : ProducerState}
    (hne : ¬ (src.file = none ∧ tgt.file = none))
    (h : p.round src tgt st = (st', .ok (src', tgt'))) :
    src'.remaining + tgt'.remaining < src.remaining + tgt.remaining := by
  -- both single-sided advances, whatever happened to the state
  have hsrc : ∀ {s}, src.file = some s → (·, tgt) <$> src.iter.next = .ok (src', tgt') →
      src'.remaining + tgt'.remaining < src.remaining + tgt.remaining := by
    intro s hs hn
    obtain ⟨c, hc, hr⟩ := map_next_ok hn
    obtain ⟨rfl, rfl⟩ : c = src' ∧ tgt = tgt' := by simpa using hr
    have := Cursor.next_lt hs hc
    omega
  have htgt : ∀ {t}, tgt.file = some t → (src, ·) <$> tgt.iter.next = .ok (src', tgt') →
      src'.remaining + tgt'.remaining < src.remaining + tgt.remaining := by
    intro t ht hn
    obtain ⟨c, hc, hr⟩ := map_next_ok hn
    obtain ⟨rfl, rfl⟩ : src = src' ∧ c = tgt' := by simpa using hr
    have := Cursor.next_lt ht hc
    omega
  rcases hs : src.file with - | s <;> rcases ht : tgt.file with - | t
  · exact absurd ⟨hs, ht⟩ hne
  · simp only [round, hs, ht] at h
    split at h <;> exact htgt ht (congrArg Prod.snd h)
  · simp only [round, hs, ht] at h
    split at h <;> exact hsrc hs (congrArg Prod.snd h)
  · simp only [round, hs, ht] at h
    split at h
    · exact hsrc hs (congrArg Prod.snd h)
    split at h
    · exact htgt ht (congrArg Prod.snd h)
    split at h
    · exact hsrc hs (congrArg Prod.snd h)
    split at h
    · exact htgt ht (congrArg Prod.snd h)
    · split at h
      · cases congrArg Prod.snd h
      · cases congrArg Prod.snd h
      · rename_i c₁ c₂ hc₁ hc₂
        obtain ⟨rfl, rfl⟩ : c₁ = src' ∧ c₂ = tgt' := by simpa using congrArg Prod.snd h
        have h₁ := Cursor.next_lt hs hc₁
        have h₂ := Cursor.next_lt ht hc₂
        omega

/-- The `while` loop of `run`.  `shutdown n` is the answer of
`shutdown_event.is_set()` in round `n`. -/
def loop (shutdown : ℕ → Bool) (n : ℕ) (src tgt : Cursor) (st : ProducerState) :
    ProducerState × Outcome :=
  if _hend : src.file = none ∧ tgt.file = none then (st, .finished)
  else if shutdown n then (st, .shutdown)
  else
    match h : p.round src tgt st with
    | (st, .error e) => (st, .error e)
    | (st', .ok (src', tgt')) => loop shutdown (n + 1) src' tgt' st'
termination_by src.remaining + tgt.remaining
decreasing_by exact p.round_remaining_lt _hend h

/-- What a run of the producer leaves behind. -/
structure ProducerResult where
  fileQueue : List OperationBatch
  outcome : Outcome
  totalWorkUnits : ℕ

/-- The `try` block of `run`: fetch the first entries and loop. -/
def runLoop (shutdown : ℕ → Bool) : ProducerState × Outcome :=
  match p.createSourceIterator.next, p.createTargetIterator.next with
  | .error e, _ => ({}, .error e)
  | .ok _, .error e => ({}, .error e)
  | .ok src, .ok tgt => p.loop shutdown 0 src tgt {}

/-- `run`: the loop, and in the `finally` block the last batch is flushed
and one STOP is put for each worker. -/
def run (shutdown : ℕ → Bool) : ProducerResult :=
  let (st, outcome) := p.runLoop shutdown
  let st := st.flushBatch
  ⟨st.fileQueue ++ List.replicate p.numWorkers stopBatch, outcome, st.totalWorkUnits⟩

end ProducerThread

end MultiStorageClient
