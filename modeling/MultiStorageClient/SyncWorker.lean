/-
MultiStorageClient/SyncWorker.lean

The paths of the sync worker (`sync/worker.py`) and the replay of its
results (`ResultMonitorThread` of `sync/monitors.py`).

`buildTargetFilePath` computes where a source object goes.  The worker also
applies it to the *target* objects of a DELETE batch, to report the path it
deleted.  There the length of the source path is sliced off a key that
starts with the target path, so the reported path is the deleted key only
for some pairs of paths; `buildTargetFilePath_eq_key_iff` says for which.
-/
import MultiStorageClient.Producer

namespace MultiStorageClient

open PyStr

/-! ### Target paths -/

/-- `build_target_file_path`, as a function of the object's key. -/
def buildTargetFilePath (sourcePath targetPath key : PyStr) : PyStr :=
  let sourceKey := ProducerThread.relKey sourcePath key
  -- an empty relative key means that the source path names this one file
  if sourceKey ≠ [] then join targetPath sourceKey
  else join targetPath (basename key)

/-- The part of a sync handler that its path computations read. -/
structure BatchSyncHandler where
  sourcePath : PyStr
  targetPath : PyStr

/-- A message on the result queue. -/
inductive ResultMsg
  | add (targetFilePath : PyStr) (physicalMetadata : ObjectMetadata)
  | delete (targetFilePath : PyStr) (physicalMetadata : ObjectMetadata)
  | stop

/-- The path of a result message. -/
def ResultMsg.path? : ResultMsg → Option PyStr
  | .add path _ => some path
  | .delete path _ => some path
  | .stop => none

namespace BatchSyncHandler

variable (h : BatchSyncHandler)

/-- Where an object goes. -/
def targetFilePath (m : ObjectMetadata) : PyStr :=
  buildTargetFilePath h.sourcePath h.targetPath m.key

/-- The keys `process_delete_batch` passes to `delete_many`. -/
def deleteManyKeys (batch : OperationBatch) : List PyStr :=
  batch.items.map fun it => it.1.key

/-- The messages `process_delete_batch` puts on the result queue once
`delete_many` has returned. -/
def deleteResults (batch : OperationBatch) : List ResultMsg :=
  batch.items.map fun it => .delete (h.targetFilePath it.1) it.1

/-- `process_delete_batch`, given what `delete_many` does: the messages put
on the result queue, or the exception. -/
def processDeleteBatch (deleteMany : List PyStr → Option PyStr) (batch : OperationBatch) :
    Except PyStr (List ResultMsg) :=
  match deleteMany (deleteManyKeys batch) with
  | some e => .error e
  | none => .ok (h.deleteResults batch)

end BatchSyncHandler

/-! ### The result monitor -/

/-- The metadata provider as the monitor sees it: the exception each call
raises, if any. -/
structure ReplayProvider where
  addFile : PyStr → ObjectMetadata → Option PyStr
  removeFile : PyStr → Option PyStr

/-- The monitor's counters, its error, and the calls it has made. -/
structure ResultMonitor where
  totalFilesAdded : ℕ := 0
  totalFilesDeleted : ℕ := 0
  totalBytesAdded : ℕ := 0
  totalBytesDeleted : ℕ := 0
  error : Option PyStr := none
  /-- the arguments of the `add_file` calls so far -/
  addFileCalls : List (PyStr × ObjectMetadata) := []
  /-- the arguments of the `remove_file` calls so far -/
  removeFileCalls : List PyStr := []

namespace ResultMonitor

/-- One ADD message: replay it on the provider, if there is one, and count
it unless that raised. -/
def onAdd (provider : Option ReplayProvider) (st : ResultMonitor) (path : PyStr)
    (m : ObjectMetadata) : ResultMonitor :=
  let counted : ResultMonitor := { st with
    totalFilesAdded := st.totalFilesAdded + 1
    totalBytesAdded := st.totalBytesAdded + m.contentLength }
  match provider with
  | none => counted
  | some mp =>
      match mp.addFile path m with
      | none => { counted with addFileCalls := st.addFileCalls ++ [(path, m)] }
      | some e => { st with error := some e, addFileCalls := st.addFileCalls ++ [(path, m)] }

/-- One DELETE message. -/
def onDelete (provider : Option ReplayProvider) (st : ResultMonitor) (path : PyStr)
    (m : ObjectMetadata) : ResultMonitor :=
  let counted : ResultMonitor := { st with
    totalFilesDeleted := st.totalFilesDeleted + 1
    totalBytesDeleted := st.totalBytesDeleted + m.contentLength }
  match provider with
  | none => counted
  | some mp =>
      match mp.removeFile path with
      | none => { counted with removeFileCalls := st.removeFileCalls ++ [path] }
      | some e => { st with error := some e, removeFileCalls := st.removeFileCalls ++ [path] }

/-- `ResultMonitorThread.run` on the messages of the result queue: it ends at
the sentinel or at the first exception. -/
def run (provider : Option ReplayProvider) (st : ResultMonitor) : List ResultMsg → ResultMonitor
  | [] => st
  | .stop :: _ => st
  | .add path m :: msgs =>
      let st := st.onAdd provider path m
      if st.error.isSome then st else run provider st msgs
  | .delete path m :: msgs =>
      let st := st.onDelete provider path m
      if st.error.isSome then st else run provider st msgs

end ResultMonitor

/-! ### When a deleted key is reported as itself -/

/-- The object keys under a target path: the path joined with a non-empty
relative key. -/
def KeyUnder (targetPath key : PyStr) : Prop :=
  ∃ r, r ≠ [] ∧ r.head? ≠ some '/' ∧ key = join targetPath r

theorem relKey_join (path : PyStr) {r : PyStr} (h : r.head? ≠ some '/') :
    ProducerThread.relKey path (join path r) = r :=
  lstrip_drop_join path h

theorem head?_relKey (path key : PyStr) :
    (ProducerThread.relKey path key).head? ≠ some '/' :=
  head?_lstrip '/' _

/-- The source path is as long as the part of `key` before its relative key,
trailing slashes of the target path not counted; or it is at least as long
as `key` itself, and `key` is a direct child of the target path. -/
def DeleteReportOk (sourcePath targetPath key : PyStr) : Prop :=
  let r := ProducerThread.relKey targetPath key
  ((rstrip '/' targetPath).length ≤ sourcePath.length ∧
      sourcePath.length + r.length ≤ key.length) ∨
    (key.length ≤ sourcePath.length ∧ '/' ∉ r)

instance (sourcePath targetPath key : PyStr) :
    Decidable (DeleteReportOk sourcePath targetPath key) := by
  unfold DeleteReportOk
  infer_instance

/-- **The reported path is the deleted key** exactly for these lengths. -/
theorem buildTargetFilePath_eq_key_iff {sourcePath targetPath key : PyStr}
    (hkey : KeyUnder targetPath key) :
    buildTargetFilePath sourcePath targetPath key = key ↔
      DeleteReportOk sourcePath targetPath key := by
  obtain ⟨r, hr, hh, rfl⟩ := hkey
  have hpos : 0 < r.length := List.length_pos_of_ne_nil hr
  set base := targetPath ++ sep targetPath with hbase
  have hjoin : join targetPath r = base ++ r := join_eq_append targetPath hh
  have hlast : base = [] ∨ base.getLast? = some '/' := append_sep_getLast? targetPath
  have hrstrip : rstrip '/' base = rstrip '/' targetPath := rstrip_append_sep targetPath
  -- slicing off `len(source_path)` characters cuts inside the slashes before `r`
  have hcut : ProducerThread.relKey sourcePath (join targetPath r) = r ↔
      (rstrip '/' targetPath).length ≤ sourcePath.length ∧
        sourcePath.length ≤ base.length := by
    rw [ProducerThread.relKey, hjoin, lstrip_drop_append_eq_iff hr hh, hrstrip]
  unfold DeleteReportOk
  rw [relKey_join targetPath hh]
  unfold buildTargetFilePath
  by_cases hd : ProducerThread.relKey sourcePath (join targetPath r) = []
  · -- nothing is left after slicing: the worker falls back to the base name
    have hslash : ∀ x ∈ (base ++ r).drop sourcePath.length, x = '/' := by
      rw [ProducerThread.relKey, hjoin] at hd
      exact lstrip_eq_nil_iff.mp hd
    have hno : ¬ ((rstrip '/' targetPath).length ≤ sourcePath.length ∧
        sourcePath.length + r.length ≤ (join targetPath r).length) := by
      rintro ⟨h₁, h₂⟩
      rw [hjoin, List.length_append] at h₂
      exact hr (hd ▸ (hcut.mpr ⟨h₁, by omega⟩).symm)
    rw [if_neg (by simpa using hd)]
    constructor
    · intro heq
      have hbn : basename (join targetPath r) = r :=
        join_injective targetPath (head?_basename _) hh heq
      have hns : '/' ∉ r := hbn ▸ not_mem_basename _
      refine Or.inr ⟨?_, hns⟩
      -- otherwise the last character of `r` would be one of the sliced slashes
      by_contra hlt
      rw [hjoin] at hlt
      have hmem : r.getLast hr ∈ (base ++ r).drop sourcePath.length := by
        have hne : (base ++ r).drop sourcePath.length ≠ [] := by
          simpa [List.drop_eq_nil_iff] using hlt
        have := List.getLast_mem hne
        rwa [List.getLast_drop, List.getLast_append_of_ne_nil _ hr] at this
      exact hns (hslash _ hmem ▸ List.getLast_mem hr)
    · rintro (h | ⟨-, hns⟩)
      · exact absurd h hno
      · rw [hjoin, basename_append hlast hns, ← hjoin]
  · rw [if_pos hd]
    constructor
    · intro heq
      have hrel := join_injective targetPath (head?_relKey _ _) hh heq
      obtain ⟨h₁, h₂⟩ := hcut.mp hrel
      refine Or.inl ⟨h₁, ?_⟩
      rw [hjoin, List.length_append]
      omega
    · rintro (⟨h₁, h₂⟩ | ⟨hle, -⟩)
      · rw [hjoin, List.length_append] at h₂
        rw [hcut.mpr ⟨h₁, by omega⟩]
      · refine absurd ?_ hd
        simp [ProducerThread.relKey, List.drop_eq_nil_of_le hle]

/-- The key starts with the target path and its slash. -/
def UnderTarget (targetPath key : PyStr) : Prop := (targetPath ++ sep targetPath).IsPrefix key

instance (targetPath key : PyStr) : Decidable (UnderTarget targetPath key) :=
  inferInstanceAs (Decidable (List.IsPrefix _ _))

/-- No second slash stands behind the target path. -/
def SingleSlash (targetPath key : PyStr) : Prop :=
  (key.drop (targetPath ++ sep targetPath).length).head? ≠ some '/'

instance (targetPath key : PyStr) : Decidable (SingleSlash targetPath key) :=
  inferInstanceAs (Decidable (_ ≠ _))

/-- What `build_target_file_path` appends to the target path does not start with a slash. -/
theorem buildTargetFilePath_append (sourcePath targetPath key : PyStr) :
    ∃ r : PyStr, r.head? ≠ some '/' ∧
      buildTargetFilePath sourcePath targetPath key = targetPath ++ sep targetPath ++ r := by
  unfold buildTargetFilePath
  dsimp only
  split
  · exact ⟨_, head?_relKey _ _, join_eq_append targetPath (head?_relKey _ _)⟩
  · exact ⟨_, head?_basename _, join_eq_append targetPath (head?_basename _)⟩

/-- The target path itself, with its slash, is reported if nothing but slashes is left of it. -/
theorem buildTargetFilePath_target (sourcePath targetPath : PyStr) :
    buildTargetFilePath sourcePath targetPath (targetPath ++ sep targetPath) =
        targetPath ++ sep targetPath ↔
      DeleteReportOk sourcePath targetPath (targetPath ++ sep targetPath) := by
  set base := targetPath ++ sep targetPath with hbase
  have hstrip : (rstrip '/' targetPath).length ≤ targetPath.length :=
    (List.rdropWhile_prefix _ targetPath).length_le
  -- the relative key is empty where nothing is left behind the cut
  have hrel : ∀ path : PyStr, ProducerThread.relKey path base = [] ↔
      (rstrip '/' targetPath).length ≤ path.length := by
    intro path
    rw [ProducerThread.relKey, lstrip_eq_nil_iff, hbase, ← rstrip_append_sep targetPath]
    exact drop_all_iff _ _
  have hown : ProducerThread.relKey targetPath base = [] :=
    (hrel targetPath).mpr hstrip
  have hok : DeleteReportOk sourcePath targetPath base ↔
      (rstrip '/' targetPath).length ≤ sourcePath.length := by
    have hle : (rstrip '/' targetPath).length ≤ base.length := by
      rw [hbase, List.length_append]
      exact hstrip.trans (Nat.le_add_right _ _)
    unfold DeleteReportOk
    rw [hown]
    dsimp only
    rw [List.length_nil]
    have hno : '/' ∉ ([] : PyStr) := List.not_mem_nil
    constructor
    · rintro (⟨hcut, -⟩ | ⟨hall, -⟩)
      · exact hcut
      · exact hle.trans hall
    · intro hcut
      rcases Nat.le_total sourcePath.length base.length with hshort | hlong
      · exact .inl ⟨hcut, hshort⟩
      · exact .inr ⟨hlong, hno⟩
  rw [hok, ← hrel]
  unfold buildTargetFilePath
  dsimp only
  split
  -- something is left, which is appended
  next hne =>
    rw [join_eq_append targetPath (head?_relKey _ _), ← hbase]
    exact iff_of_false (fun heq => hne (List.append_right_eq_self.mp heq)) hne
  -- nothing is left, and the last component is appended
  next hnil =>
    have hbasename : basename base = [] := by
      have hlast := append_sep_getLast? targetPath
      have hempty := basename_append hlast (List.not_mem_nil (a := '/'))
      rwa [List.append_nil] at hempty
    rw [hbasename, join_eq_append targetPath (by simp), List.append_nil, ← hbase]
    exact iff_of_true rfl (not_not.mp hnil)

/-- **Every key under the target path**: one with a second slash there is never reported as
itself. -/
theorem buildTargetFilePath_eq_iff {sourcePath targetPath key : PyStr}
    (hkey : UnderTarget targetPath key) :
    buildTargetFilePath sourcePath targetPath key = key ↔
      SingleSlash targetPath key ∧ DeleteReportOk sourcePath targetPath key := by
  obtain ⟨r, rfl⟩ := hkey
  unfold SingleSlash
  rw [List.drop_left]
  by_cases hslash : r.head? = some '/'
  · -- what is reported goes on with another character behind the target path
    refine iff_of_false (fun heq => ?_) fun h => h.1 hslash
    obtain ⟨r', hr', happend⟩ := buildTargetFilePath_append sourcePath targetPath
      (targetPath ++ sep targetPath ++ r)
    rw [heq] at happend
    exact hr' (List.append_cancel_left happend ▸ hslash)
  · rw [and_iff_right hslash]
    by_cases hr : r = []
    · rw [hr, List.append_nil]
      exact buildTargetFilePath_target sourcePath targetPath
    · exact buildTargetFilePath_eq_key_iff ⟨r, hr, hslash, (join_eq_append targetPath hslash).symm⟩

/-! ### Deleted keys, reported paths, replayed paths -/

/-- The monitor replays DELETE messages one by one while the provider does
not raise. -/
theorem ResultMonitor.run_deletes (mp : ReplayProvider) (st : ResultMonitor)
    (hst : st.error = none) (msgs : List (PyStr × ObjectMetadata))
    (hmp : ∀ x ∈ msgs, mp.removeFile x.1 = none) :
    (ResultMonitor.run (some mp) st
        (msgs.map (fun x => ResultMsg.delete x.1 x.2) ++ [.stop])).removeFileCalls =
      st.removeFileCalls ++ msgs.map Prod.fst := by
  induction msgs generalizing st with
  | nil => simp [ResultMonitor.run]
  | cons x msgs ih =>
      have hx := hmp x (by simp)
      have herr : (st.onDelete (some mp) x.1 x.2).error = none := by
        simp [ResultMonitor.onDelete, hx, hst]
      have hcalls : (st.onDelete (some mp) x.1 x.2).removeFileCalls =
          st.removeFileCalls ++ [x.1] := by
        simp [ResultMonitor.onDelete, hx]
      rw [List.map_cons, List.cons_append, ResultMonitor.run]
      simp only [herr, Option.isSome_none, Bool.false_eq_true, if_false]
      rw [ih _ herr fun y hy => hmp y (by simp [hy]), hcalls]
      simp

theorem deleteResults_paths (h : BatchSyncHandler) (batch : OperationBatch) :
    (h.deleteResults batch).filterMap ResultMsg.path? =
      batch.items.map fun it => h.targetFilePath it.1 := by
  rw [BatchSyncHandler.deleteResults, List.filterMap_map]
  exact congrFun List.filterMap_eq_map' _

/-- **A DELETE batch is reported correctly** exactly when every key in it has a
single slash behind the target path and `DeleteReportOk`: then, and only then,
the paths on the result queue and the paths replayed on the metadata provider
are the keys passed to `delete_many`. -/
theorem delete_batch_reports_iff (h : BatchSyncHandler) (deleteMany : List PyStr → Option PyStr)
    (mp : ReplayProvider) (batch : OperationBatch) (msgs : List ResultMsg)
    (hunder : ∀ it ∈ batch.items, UnderTarget h.targetPath it.1.key)
    (hok : h.processDeleteBatch deleteMany batch = .ok msgs)
    (hmp : ∀ it ∈ batch.items, mp.removeFile it.1.key = none) :
    (msgs.filterMap ResultMsg.path? = BatchSyncHandler.deleteManyKeys batch ∧
      (ResultMonitor.run (some mp) {} (msgs ++ [.stop])).removeFileCalls =
        BatchSyncHandler.deleteManyKeys batch) ↔
      ∀ it ∈ batch.items, SingleSlash h.targetPath it.1.key ∧
        DeleteReportOk h.sourcePath h.targetPath it.1.key := by
  -- the batch has not raised, so the messages are its results
  obtain rfl : h.deleteResults batch = msgs := by
    unfold BatchSyncHandler.processDeleteBatch at hok
    split at hok
    · cases hok
    · injection hok
  have hpaths : (h.deleteResults batch).filterMap ResultMsg.path? =
      BatchSyncHandler.deleteManyKeys batch ↔
      ∀ it ∈ batch.items, SingleSlash h.targetPath it.1.key ∧
        DeleteReportOk h.sourcePath h.targetPath it.1.key := by
    rw [deleteResults_paths, BatchSyncHandler.deleteManyKeys, List.map_inj_left]
    exact forall₂_congr fun it hit => buildTargetFilePath_eq_iff (hunder it hit)
  constructor
  · exact fun hrep => hpaths.mp hrep.1
  · intro hall
    refine ⟨hpaths.mpr hall, ?_⟩
    -- each key that is deleted is reported under itself
    have hkey : ∀ it ∈ batch.items, h.targetFilePath it.1 = it.1.key := fun it hit =>
      (buildTargetFilePath_eq_iff (hunder it hit)).mpr (hall it hit)
    have hmsgs : h.deleteResults batch =
        (batch.items.map fun it => (it.1.key, it.1)).map fun x => ResultMsg.delete x.1 x.2 := by
      rw [BatchSyncHandler.deleteResults, List.map_map]
      exact List.map_congr_left fun it hit => by simp [hkey it hit]
    rw [hmsgs, ResultMonitor.run_deletes mp {} rfl]
    · simp [BatchSyncHandler.deleteManyKeys, Function.comp_def]
    · intro x hx
      obtain ⟨it, hit, rfl⟩ := List.mem_map.mp hx
      exact hmp it hit

/-- A batch with one target object. -/
def deleteBatchOf (key : PyStr) : OperationBatch :=
  ⟨.delete, [({ key := key, contentLength := 1, lastModified := 0 }, none)]⟩

/-- A provider that accepts every call. -/
def acceptingProvider : ReplayProvider := ⟨fun _ _ => none, fun _ => none⟩

/-- Paths of different lengths for which the report is right: the source
path ends in a slash. -/
theorem delete_batch_reports_trailing_slash :
    ((BatchSyncHandler.mk "src/".toList "dst".toList).deleteResults
        (deleteBatchOf "dst/a/b".toList)).filterMap ResultMsg.path? = ["dst/a/b".toList] := by
  refine ((delete_batch_reports_iff ⟨"src/".toList, "dst".toList⟩ (fun _ => none)
    acceptingProvider (deleteBatchOf "dst/a/b".toList) _ ?_ rfl ?_).mpr ?_).1
  · intro it hit
    obtain rfl : it = (_, none) := List.mem_singleton.mp hit
    decide
  · exact fun it _ => rfl
  · intro it hit
    obtain rfl : it = (_, none) := List.mem_singleton.mp hit
    decide

/-- With `src` and `target`, deleting `target/x` is reported and replayed as
`target/get/x`. -/
theorem delete_batch_misreports :
    UnderTarget "target".toList "target/x".toList ∧
      BatchSyncHandler.deleteManyKeys (deleteBatchOf "target/x".toList) =
        ["target/x".toList] ∧
      ((BatchSyncHandler.mk "src".toList "target".toList).deleteResults
        (deleteBatchOf "target/x".toList)).filterMap ResultMsg.path? =
        ["target/get/x".toList] ∧
      (ResultMonitor.run (some acceptingProvider) {}
        ((BatchSyncHandler.mk "src".toList "target".toList).deleteResults
          (deleteBatchOf "target/x".toList) ++ [.stop])).removeFileCalls =
        ["target/get/x".toList] :=
  ⟨by decide, by decide, by decide, by decide⟩

end MultiStorageClient
