/-
MultiStorageClient/ReplicaManager.lean

Downloads from replicas (`ReplicaManager.download_from_replica_or_primary` in
`replica_manager.py`) into a file-like object.

All sources are tried with the same file object, and nothing is taken back
between two attempts.  What an attempt has written before it raised stays in
front of what the next one writes (`download_content`).
-/
import MultiStorageClient.Cache

namespace MultiStorageClient

/-! ### File objects -/

/-- A file-like object (`io.BytesIO`): its bytes and its position. -/
structure FileObject where
  content : List UInt8 := []
  position : ℕ := 0

/-- `write`: over what is there, with zeros up to the position. -/
def FileObject.write (f : FileObject) (data : List UInt8) : FileObject where
  content :=
    if data = [] then f.content
    else f.content.take f.position ++ List.replicate (f.position - f.content.length) 0 ++ data ++
      f.content.drop (f.position + data.length)
  position := f.position + data.length

/-- `seek(0)` -/
def FileObject.rewind (f : FileObject) : FileObject := { f with position := 0 }

/-- A write at the end appends. -/
theorem FileObject.write_at_end {f : FileObject} (h : f.position = f.content.length)
    (data : List UInt8) : f.write data =
      { content := f.content ++ data, position := (f.content ++ data).length } := by
  unfold write
  rw [h, List.length_append]
  split
  next hnil => rw [hnil, List.append_nil]
  next =>
    rw [List.take_length, Nat.sub_self, List.replicate_zero, List.append_nil,
      List.drop_eq_nil_of_le (Nat.le_add_right _ _), List.append_nil]

/-! ### Sources -/

/-- What a download meets: the object, and after how many bytes it raises. -/
structure Download where
  object : Option (List UInt8)
  raises : Option (ℕ × OSError)

/-- `download_file` into a file object. -/
def Download.downloadFile (d : Download) (f : FileObject) : FileObject × Except OSError Unit :=
  match d.object, d.raises with
  | none, _ => (f, .error .fileNotFound)
  | some content, some (n, e) => (f.write (content.take n), .error e)
  | some content, none => (f.write content, .ok ())

/-- A replica client, with what `is_file` answers or raises. -/
structure ReplicaClient extends Download where
  profile : PyStr
  isFile : Except OSError Bool

/-- The task of the thread pool: the file object, the path and the replicas to
upload to. -/
structure ReplicaUpload where
  file : FileObject
  remotePath : PyStr
  replicaClients : List ReplicaClient

/-- What a download leaves behind. -/
structure Downloaded where
  file : FileObject
  /-- `_uploading_files` -/
  uploadingFiles : List PyStr
  submitted : Option ReplicaUpload

/-- Where the loop over the replicas stands. -/
structure ReplicaLoop where
  file : FileObject
  fileExists : Bool := false
  replicasThatNeedUpdates : List ReplicaClient := []

/-- The loop over the replicas. -/
def tryReplicas : List ReplicaClient → ReplicaLoop → ReplicaLoop
  | [], st => st
  | r :: rs, st =>
      match r.isFile with
      | .error _ => tryReplicas rs st
      | .ok false =>
          tryReplicas rs { st with replicasThatNeedUpdates := st.replicasThatNeedUpdates ++ [r] }
      | .ok true =>
          match r.downloadFile st.file with
          | (file, .ok ()) => { st with file, fileExists := true }
          | (file, .error _) => tryReplicas rs { st with file }

/-- What follows a download: the replicas without the object are to get it,
unless an upload of the path is under way. -/
def finishDownload (uploadingFiles : List PyStr) (remotePath : PyStr)
    (replicasThatNeedUpdates : List ReplicaClient) (file : FileObject) : Downloaded :=
  let file := file.rewind
  if replicasThatNeedUpdates = [] ∨ remotePath ∈ uploadingFiles then
    { file, uploadingFiles, submitted := none }
  else
    { file
      uploadingFiles := remotePath :: uploadingFiles
      submitted := some { file, remotePath, replicaClients := replicasThatNeedUpdates } }

/-- `ReplicaManager.download_from_replica_or_primary` -/
def downloadFromReplicaOrPrimary (replicas : List ReplicaClient) (storageProvider : Download)
    (uploadingFiles : List PyStr) (remotePath : PyStr) (file : FileObject) :
    Except OSError Downloaded :=
  let st := tryReplicas replicas { file }
  if st.fileExists then
    .ok (finishDownload uploadingFiles remotePath st.replicasThatNeedUpdates st.file)
  else
    match storageProvider.downloadFile st.file with
    | (file, .ok ()) =>
        .ok (finishDownload uploadingFiles remotePath st.replicasThatNeedUpdates file)
    | (_, .error e) => .error e

/-! ### What ends up in the file -/

/-- What the attempts wrote that raised, before a replica served the file. -/
def failedPartials : List ReplicaClient → List (List UInt8)
  | [] => []
  | r :: rs =>
      match r.isFile, r.object, r.raises with
      | .ok true, some content, some (n, _) => content.take n :: failedPartials rs
      | .ok true, some _, none => []
      | _, _, _ => failedPartials rs

/-- The object of the replica that serves the file, if one does. -/
def servedByReplica : List ReplicaClient → Option (List UInt8)
  | [] => none
  | r :: rs =>
      match r.isFile, r.object, r.raises with
      | .ok true, some content, none => some content
      | _, _, _ => servedByReplica rs

variable {r : ReplicaClient} {rs replicas : List ReplicaClient} {storageProvider : Download}
  {uploadingFiles : List PyStr} {remotePath : PyStr} {result : Downloaded}

/-- What is served is the object of some replica. -/
theorem mem_of_servedByReplica {content : List UInt8} (h : servedByReplica rs = some content) :
    ∃ r ∈ rs, r.object = some content := by
  induction rs with
  | nil => cases h
  | cons r rs ih =>
      unfold servedByReplica at h
      split at h
      next c _ hobj _ => exact ⟨r, List.mem_cons_self .., hobj.trans h⟩
      next =>
        obtain ⟨r', hm, hobj⟩ := ih h
        exact ⟨r', List.mem_cons_of_mem _ hm, hobj⟩

/-- **The loop over the replicas** writes one attempt behind the other. -/
theorem tryReplicas_spec (rs : List ReplicaClient) (st : ReplicaLoop)
    (hpos : st.file.position = st.file.content.length)
    (hex : st.fileExists = false) :
    (tryReplicas rs st).file.position = (tryReplicas rs st).file.content.length ∧
    (tryReplicas rs st).fileExists = (servedByReplica rs).isSome ∧
    (tryReplicas rs st).file.content =
      st.file.content ++ (failedPartials rs).flatten ++ (servedByReplica rs).getD [] := by
  induction rs generalizing st with
  | nil => exact ⟨hpos, hex, by simp [tryReplicas, failedPartials, servedByReplica]⟩
  | cons r rs ih =>
      unfold tryReplicas failedPartials servedByReplica
      cases hfile : r.isFile with
      | error e => exact ih _ hpos hex
      | ok found =>
          cases found with
          | false => exact ih _ hpos hex
          | true =>
              cases hobj : r.object with
              | none =>
                  have hdown : r.downloadFile st.file = (st.file, .error .fileNotFound) := by
                    unfold Download.downloadFile
                    rw [hobj]
                  rw [hdown]
                  exact ih _ hpos hex
              | some content =>
                  cases hraise : r.raises with
                  | none =>
                      have hdown : r.downloadFile st.file = (st.file.write content, .ok ()) := by
                        unfold Download.downloadFile
                        rw [hobj, hraise]
                      rw [hdown, FileObject.write_at_end hpos]
                      exact ⟨rfl, rfl, by simp⟩
                  | some stop =>
                      obtain ⟨n, e⟩ := stop
                      have hdown : r.downloadFile st.file =
                          (st.file.write (content.take n), .error e) := by
                        unfold Download.downloadFile
                        rw [hobj, hraise]
                      rw [hdown]
                      obtain ⟨hpos', hex', hcontent⟩ :=
                        ih { st with file := st.file.write (content.take n) }
                          (by rw [FileObject.write_at_end hpos]) hex
                      refine ⟨hpos', hex', hcontent.trans ?_⟩
                      rw [FileObject.write_at_end hpos]
                      simp

theorem downloadFile_ok {d : Download} {f file : FileObject}
    (h : d.downloadFile f = (file, .ok ())) :
    ∃ content, d.object = some content ∧ file = f.write content := by
  unfold Download.downloadFile at h
  split at h
  next => cases h
  next => cases h
  next content hobj _ => exact ⟨content, hobj, (congrArg Prod.fst h).symm⟩

theorem finishDownload_content (needed : List ReplicaClient) (file : FileObject) :
    (finishDownload uploadingFiles remotePath needed file).file.content = file.content := by
  unfold finishDownload
  dsimp only
  split
  · rfl
  · rfl

/-- The object is one of a replica or of the primary. -/
def OfSource (replicas : List ReplicaClient) (storageProvider : Download)
    (content : List UInt8) : Prop :=
  (∃ r ∈ replicas, r.object = some content) ∨ storageProvider.object = some content

/-- **The content after a download**: the failed attempts, then the object of the
source that served the file. -/
theorem download_content
    (h : downloadFromReplicaOrPrimary replicas storageProvider uploadingFiles remotePath {} =
      .ok result) :
    ∃ content, OfSource replicas storageProvider content ∧
      result.file.content = (failedPartials replicas).flatten ++ content := by
  obtain ⟨hpos, hex, hcontent⟩ := tryReplicas_spec replicas { file := {} } rfl rfl
  unfold downloadFromReplicaOrPrimary at h
  dsimp only at h
  split at h
  next hserved =>
    rw [hex, Option.isSome_iff_exists] at hserved
    obtain ⟨content, hserved⟩ := hserved
    refine ⟨content, .inl (mem_of_servedByReplica hserved), ?_⟩
    rw [← Except.ok.inj h, finishDownload_content, hcontent, hserved]
    rfl
  next hserved =>
    rw [hex, Option.not_isSome_iff_eq_none] at hserved
    rw [hserved, Option.getD_none, List.append_nil] at hcontent
    split at h
    next file hdown =>
      obtain ⟨content, hobj, hfile⟩ := downloadFile_ok hdown
      refine ⟨content, .inr hobj, ?_⟩
      rw [← Except.ok.inj h, finishDownload_content, hfile, FileObject.write_at_end hpos, hcontent]
      rfl
    next => cases h

/-- The content is that of one source, and no part of it is left over from an
attempt that failed. -/
structure FromOneSource (replicas : List ReplicaClient) (storageProvider : Download)
    (content : List UInt8) : Prop where
  whole : OfSource replicas storageProvider content
  unmixed : ∀ p ∈ failedPartials replicas, p ≠ [] →
    ¬∃ a b c, OfSource replicas storageProvider c ∧ content = a ++ p ++ b ++ c

/-- **A download is that of one source** if and only if no attempt before it
failed after it had written. -/
theorem download_from_one_source_iff
    (h : downloadFromReplicaOrPrimary replicas storageProvider uploadingFiles remotePath {} =
      .ok result) :
    FromOneSource replicas storageProvider result.file.content ↔
      ∀ p ∈ failedPartials replicas, p = [] := by
  obtain ⟨content, hsource, heq⟩ := download_content h
  constructor
  · intro hone p hp
    by_contra hne
    obtain ⟨as, bs, hsplit⟩ := List.append_of_mem hp
    refine hone.unmixed p hp hne ⟨as.flatten, bs.flatten, content, hsource, ?_⟩
    rw [heq, hsplit]
    simp
  · intro hnone
    have hnil : (failedPartials replicas).flatten = [] := List.flatten_eq_nil_iff.mpr hnone
    rw [heq, hnil, List.nil_append]
    exact ⟨hsource, fun p hp hne => absurd (hnone p hp) hne⟩

/-- A replica whose download breaks off after some bytes. -/
def brokenReplica (n : ℕ) : ReplicaClient where
  object := some [1, 2]
  raises := some (n, .timeout)
  profile := "replica".toList
  isFile := .ok true

/-- A replica that breaks off at once, and the primary. -/
theorem download_after_refusal :
    FromOneSource [brokenReplica 0] { object := some [3, 4], raises := none } [3, 4] := by
  have hok : downloadFromReplicaOrPrimary [brokenReplica 0]
    { object := some [3, 4], raises := none }
      [] "f".toList {} =
        .ok { file := { content := [3, 4] }, uploadingFiles := [], submitted := none } := rfl
  exact (download_from_one_source_iff hok).mpr (by decide)

/-- What a replica has written before it broke off stays in the file. -/
theorem download_mixes :
    ¬∀ (replicas : List ReplicaClient) (storageProvider : Download) (uploadingFiles : List PyStr)
      (remotePath : PyStr) (result : Downloaded),
      downloadFromReplicaOrPrimary replicas storageProvider uploadingFiles remotePath {} =
        .ok result → OfSource replicas storageProvider result.file.content := by
  intro h
  have hmix := h [brokenReplica 1] { object := some [3, 4], raises := none } [] "f".toList
    { file := { content := [1, 3, 4] }, uploadingFiles := [], submitted := none } rfl
  rcases hmix with ⟨r, hr, hobj⟩ | hobj
  · rw [List.mem_singleton.mp hr] at hobj
    exact absurd hobj (by decide)
  · exact absurd hobj (by decide)

end MultiStorageClient
