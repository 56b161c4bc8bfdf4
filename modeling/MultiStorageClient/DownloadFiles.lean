/-
MultiStorageClient/DownloadFiles.lean

Downloads of many objects (`BaseStorageProvider.download_files` in
`providers/base.py`), on the threaded path and on the asynchronous one.

Both paths run one transfer per item, in whatever order the items complete.  The
threaded path goes through `download_file`, which follows a symlink first; the
asynchronous one transfers the object at the path itself.
-/
import MultiStorageClient.SymlinkChains

namespace MultiStorageClient

/-- The local files by their paths. -/
abbrev LocalFiles := PyStr → Option (List UInt8)

/-- What `download_files` uses of a `BaseStorageProvider` and of the local disk. -/
structure BatchProvider where
  basePath : PyStr
  multipartThreshold : ℕ
  /-- `_get_object_metadata` -/
  getObjectMetadata : PyStr → Except PyError ObjectMetadata
  /-- the bytes of an object, transferred in parts or at once -/
  transfer : Bool → PyStr → Except PyError (List UInt8)
  /-- `safe_makedirs` -/
  makedirs : PyStr → Except PyError Unit

/-- An item of a batch, with its metadata resolved. -/
structure DownloadItem where
  index : ℕ
  remotePath : PyStr
  localPath : PyStr
  metadata : ObjectMetadata

/-- `BatchTransferFailure`, with an exception of the storage. -/
structure DownloadFailure where
  index : ℕ
  sourcePath : PyStr
  destinationPath : PyStr
  error : PyError

/-- What `download_files` raises: the failures of a batch, or something before
any transfer. -/
inductive DownloadFilesError
  | batch (failures : List DownloadFailure)
  | raised (e : PyError)

/-- `_AsyncTransferItem` -/
structure AsyncTransferItem where
  itemIndex : ℕ
  localPath : PyStr
  remotePath : PyStr
  key : PyStr
  useMultipart : Bool

/-- A transfer writes its file when it succeeds. -/
def writeLocal (files : LocalFiles) (localPath : PyStr) :
    Except PyError (List UInt8) → LocalFiles
  | .ok content => Function.update files localPath (some content)
  | .error _ => files

/-- The failure of an item, if its transfer raised. -/
def DownloadItem.failure? (it : DownloadItem) : Except PyError (List UInt8) → Option DownloadFailure
  | .ok _ => none
  | .error error =>
      some
        { index := it.index, sourcePath := it.remotePath, destinationPath := it.localPath, error }

/-- A batch whose items complete in this order, each with its own outcome. -/
def runItems (outcome : DownloadItem → Except PyError (List UInt8)) (order : List ℕ)
    (items : List DownloadItem) (files : LocalFiles) : LocalFiles × List DownloadFailure :=
  let completed := order.filterMap (items[·]?)
  (completed.foldl (fun files it => writeLocal files it.localPath (outcome it)) files,
    completed.filterMap fun it => it.failure? (outcome it))

namespace BatchProvider

variable (p : BatchProvider)

/-- `_prepend_base_path` -/
def prependBasePath (path : PyStr) : PyStr := PyStr.join p.basePath (PyStr.lstrip '/' path)

/-- The directory of a local file is made. -/
def makeParent (localPath : PyStr) : Except PyError Unit :=
  if PyStr.dirname localPath = [] then .ok () else p.makedirs (PyStr.dirname localPath)

/-- `_download_file` to a path. -/
def downloadFileTo (remotePath localPath : PyStr) (metadata : Option ObjectMetadata) :
    Except PyError (List UInt8) := do
  let metadata ← match metadata with
    | some m => pure m
    | none => p.getObjectMetadata remotePath
  p.makeParent localPath
  p.transfer (p.multipartThreshold < metadata.contentLength) remotePath

/-- `BaseStorageProvider.download_file` to a path. -/
def downloadFile (remotePath localPath : PyStr) (metadata : Option ObjectMetadata) :
    Except PyError (List UInt8) := do
  let remotePath := p.prependBasePath remotePath
  let remotePath ←
    if metadata.all (·.symlinkTarget.isSome) then resolveSymlinkPath p.getObjectMetadata remotePath
    else pure remotePath
  p.downloadFileTo remotePath localPath metadata

/-- `_download_files_threaded` -/
def downloadFilesThreaded (order : List ℕ) (items : List DownloadItem) (files : LocalFiles) :
    LocalFiles × List DownloadFailure :=
  runItems (fun it => p.downloadFile it.remotePath it.localPath (some it.metadata)) order
    items files

/-- The transfer item of `_download_files_async`, or what its preparation raises. -/
def asyncItem (it : DownloadItem) : Except PyError AsyncTransferItem := do
  p.makeParent it.localPath
  pure { itemIndex := it.index, localPath := it.localPath, remotePath := it.remotePath
         key := p.prependBasePath it.remotePath
         useMultipart := p.multipartThreshold < it.metadata.contentLength }

/-- `_download_one` -/
def downloadOne (t : AsyncTransferItem) : Except PyError (List UInt8) :=
  p.transfer t.useMultipart t.key

/-- `_download_files_async`: the items that could not be prepared fail first, then
the results are gathered in the order of the items. -/
def downloadFilesAsync (order : List ℕ) (items : List DownloadItem) (files : LocalFiles) :
    LocalFiles × List DownloadFailure :=
  let failures := items.filterMap fun it =>
    match p.asyncItem it with
    | .error e => it.failure? (.error e)
    | .ok _ => none
  let results := items.filterMap fun it =>
    match p.asyncItem it with
    | .error _ => none
    | .ok t => it.failure? (p.downloadOne t)
  -- the transfers write in the order in which they complete
  let completed := order.filterMap fun i => (items[i]?).bind fun it => (p.asyncItem it).toOption
  (completed.foldl (fun files t => writeLocal files t.localPath (p.downloadOne t)) files,
    failures ++ results)

/-- `_resolve_download_metadata` -/
def resolveDownloadMetadata (remotePaths : List PyStr)
    (metadata : Option (List (Option ObjectMetadata))) : Except PyError (List ObjectMetadata) :=
  remotePaths.zipIdx.mapM fun (remotePath, i) =>
    match metadata.bind fun ms => (ms[i]?).join with
    | some m => pure m
    | none => p.getObjectMetadata (p.prependBasePath remotePath)

/-- The items of a batch, after the checks of its arguments. -/
def batchItems (remotePaths localPaths : List PyStr)
    (metadata : Option (List (Option ObjectMetadata))) (maxWorkers : ℕ) :
    Except PyError (List DownloadItem) :=
  if remotePaths.length ≠ localPaths.length then
    .error (.valueError "remote_paths and local_paths must have the same length".toList)
  else if metadata.any (·.length ≠ remotePaths.length) then
    .error (.valueError
      "metadata must have the same length as remote_paths and local_paths".toList)
  else if maxWorkers < 1 then .error (.valueError "max_workers must be at least 1".toList)
  else do
    let resolved ← p.resolveDownloadMetadata remotePaths metadata
    pure ((remotePaths.zip (localPaths.zip resolved)).zipIdx.map fun ((remotePath, localPath,
      m), i) =>
      { index := i, remotePath, localPath, metadata := m })

/-- `BaseStorageProvider.download_files`, with the path that transfers the items. -/
def downloadFiles
    (transferItems : List DownloadItem → LocalFiles → LocalFiles × List DownloadFailure)
    (remotePaths localPaths : List PyStr) (metadata : Option (List (Option ObjectMetadata)))
    (maxWorkers : ℕ) (files : LocalFiles) : LocalFiles × Option DownloadFilesError :=
  match p.batchItems remotePaths localPaths metadata maxWorkers with
  | .error e => (files, some (.raised e))
  | .ok items =>
      let (files, failures) := transferItems items files
      (files, if failures = [] then none else some (.batch failures))

/-! ### What the two paths should have in common -/

/-- The transfer of the object at the path itself. -/
def direct (it : DownloadItem) : Except PyError (List UInt8) := do
  p.makeParent it.localPath
  p.transfer (p.multipartThreshold < it.metadata.contentLength) (p.prependBasePath it.remotePath)

/-- The transfer of the object in which the chain from the path ends. -/
def followed (it : DownloadItem) : Except PyError (List UInt8) := do
  let remotePath ← resolveSymlinkPath p.getObjectMetadata (p.prependBasePath it.remotePath)
  p.makeParent it.localPath
  p.transfer (p.multipartThreshold < it.metadata.contentLength) remotePath

/-- The storage has a symlink at the path. -/
def IsSymlink (it : DownloadItem) : Prop :=
  ∃ m, p.getObjectMetadata (p.prependBasePath it.remotePath) = .ok m ∧ m.followed ≠ none

instance (it : DownloadItem) : Decidable (p.IsSymlink it) :=
  match h : p.getObjectMetadata (p.prependBasePath it.remotePath) with
  | .error e => isFalse fun ⟨m, hm, _⟩ => by
      rw [h] at hm
      cases hm
  | .ok m => decidable_of_iff (m.followed ≠ none) ⟨fun hm => ⟨m, h, hm⟩, fun ⟨m', hm', hne⟩ => by
      rw [h] at hm'
      rwa [Except.ok.inj hm']⟩

/-- What a path is to bring: a symlink the object at the end of its chain. -/
def intended (it : DownloadItem) : Except PyError (List UInt8) :=
  if p.IsSymlink it then p.followed it else p.direct it

end BatchProvider

/-- The indices that a batch reports as failed. -/
def failedIndices : Option DownloadFilesError → List ℕ
  | some (.batch failures) => failures.map (·.index)
  | _ => []

/-- The same local files and the same failed indices. -/
structure SameDownloads (a b : LocalFiles × Option DownloadFilesError) : Prop where
  files : a.1 = b.1
  failed : ∀ i, i ∈ failedIndices a.2 ↔ i ∈ failedIndices b.2

/-- In every order of completion the two paths do the same, and what each path
of the batch is to bring. -/
structure PathsAgree (p : BatchProvider) (remotePaths localPaths : List PyStr)
    (metadata : Option (List (Option ObjectMetadata))) (maxWorkers : ℕ) (files : LocalFiles) :
    Prop where
  same : ∀ order : List ℕ, order.Perm (List.range remotePaths.length) → SameDownloads
    (p.downloadFiles (p.downloadFilesThreaded order) remotePaths localPaths metadata maxWorkers
      files)
    (p.downloadFiles (p.downloadFilesAsync order) remotePaths localPaths metadata maxWorkers files)
  intended : ∀ order : List ℕ, order.Perm (List.range remotePaths.length) → SameDownloads
    (p.downloadFiles (p.downloadFilesThreaded order) remotePaths localPaths metadata maxWorkers
      files)
    (p.downloadFiles (runItems p.intended order) remotePaths localPaths metadata maxWorkers files)

/-! ### Runs over a batch -/

section Runs

variable {items : List DownloadItem} {order : List ℕ} {files : LocalFiles} {it : DownloadItem}
  {outcome outcome' : DownloadItem → Except PyError (List UInt8)}
  {r r' : Except PyError (List UInt8)}

/-- Only a content that was loaded is written. -/
theorem writeLocal_congr {localPath : PyStr} (h : r.toOption = r'.toOption) :
    writeLocal files localPath r = writeLocal files localPath r' := by
  cases r with
  | error e =>
      cases r' with
      | error e' => rfl
      | ok c' => cases h
  | ok c =>
      cases r' with
      | error e' => cases h
      | ok c' => rw [Option.some.inj h]

/-- An item is reported if and only if it brought nothing. -/
theorem failure?_index {i : ℕ} :
    (∃ f, it.failure? r = some f ∧ f.index = i) ↔ r.toOption = none ∧ it.index = i := by
  cases r with
  | ok c => simp [DownloadItem.failure?, Except.toOption]
  | error e => simp [DownloadItem.failure?, Except.toOption]

/-- The indices of the items are their places. -/
def Indexed (items : List DownloadItem) : Prop :=
  ∀ (i : ℕ) (it : DownloadItem), items[i]? = some it → it.index = i

/-- Every item is completed, whatever the order. -/
theorem mem_completed (horder : order.Perm (List.range items.length)) :
    it ∈ order.filterMap (items[·]?) ↔ it ∈ items := by
  rw [List.mem_filterMap]
  constructor
  · rintro ⟨i, -, hi⟩
    exact List.mem_of_getElem? hi
  · intro hm
    obtain ⟨i, hi⟩ := List.getElem?_of_mem hm
    refine ⟨i, horder.mem_iff.mpr (List.mem_range.mpr ?_), hi⟩
    exact (List.getElem?_eq_some_iff.mp hi).1

/-- The failed items are those without an outcome. -/
theorem mem_failed_runItems (horder : order.Perm (List.range items.length)) {i : ℕ} :
    i ∈ (runItems outcome order items files).2.map (·.index) ↔
      ∃ it ∈ items, (outcome it).toOption = none ∧ it.index = i := by
  rw [List.mem_map]
  constructor
  · rintro ⟨f, hf, hi⟩
    obtain ⟨it, hit, hfail⟩ := List.mem_filterMap.mp hf
    exact ⟨it, (mem_completed horder).mp hit, failure?_index.mp ⟨f, hfail, hi⟩⟩
  · rintro ⟨it, hit, hnone⟩
    obtain ⟨f, hfail, hi⟩ := failure?_index.mpr hnone
    exact ⟨f, List.mem_filterMap.mpr ⟨it, (mem_completed horder).mpr hit, hfail⟩, hi⟩

/-- The files depend on the contents of the items only. -/
theorem runItems_files_congr (horder : order.Perm (List.range items.length))
    (h : ∀ it ∈ items, (outcome it).toOption = (outcome' it).toOption) :
    (runItems outcome order items files).1 = (runItems outcome' order items files).1 := by
  have hall : ∀ it ∈ order.filterMap (items[·]?),
      (outcome it).toOption = (outcome' it).toOption := fun it hm =>
    h it ((mem_completed horder).mp hm)
  unfold runItems
  dsimp only
  generalize order.filterMap (items[·]?) = completed at hall
  induction completed generalizing files with
  | nil => rfl
  | cons it completed ih =>
      rw [List.foldl_cons, List.foldl_cons, writeLocal_congr (hall it List.mem_cons_self)]
      exact ih fun it' hm => hall it' (List.mem_cons_of_mem _ hm)

/-- An order of completion in which a given item is the last. -/
theorem order_last {i : ℕ} (hi : i < items.length) :
    ∃ order : List ℕ, (order ++ [i]).Perm (List.range items.length) := by
  refine ⟨(List.range items.length).erase i, ?_⟩
  refine List.perm_append_singleton i _ |>.trans ?_
  exact (List.perm_cons_erase (List.mem_range.mpr hi)).symm

/-- The file of the last item is its own. -/
theorem runItems_last {i : ℕ} {content : List UInt8} (hi : items[i]? = some it)
    (hok : outcome it = .ok content) :
    (runItems outcome (order ++ [i]) items files).1 it.localPath = some content := by
  unfold runItems
  dsimp only
  rw [List.filterMap_append, List.foldl_append]
  simp [hi, hok, writeLocal]

/-- **Two outcomes of every item** are the same if and only if the runs are, in
every order. -/
theorem runItems_agree_iff (hindex : Indexed items) :
    (∀ order : List ℕ, order.Perm (List.range items.length) →
      (runItems outcome order items files).1 = (runItems outcome' order items files).1 ∧
      ∀ i, i ∈ (runItems outcome order items files).2.map (·.index) ↔
        i ∈ (runItems outcome' order items files).2.map (·.index)) ↔
      ∀ it ∈ items, (outcome it).toOption = (outcome' it).toOption := by
  constructor
  · intro h it hit
    obtain ⟨i, hi⟩ := List.getElem?_of_mem hit
    obtain ⟨order, horder⟩ := order_last (List.getElem?_eq_some_iff.mp hi).1
    obtain ⟨hfiles, hfailed⟩ := h _ horder
    -- an item at its index fails in the one run if and only if in the other
    have hself : ∀ {o : DownloadItem → Except PyError (List UInt8)},
        (∃ it' ∈ items, (o it').toOption = none ∧ it'.index = i) ↔ (o it).toOption = none := by
      intro o
      constructor
      · rintro ⟨it', hit', hnone, hidx⟩
        obtain ⟨j, hj⟩ := List.getElem?_of_mem hit'
        obtain rfl : j = i := (hindex j it' hj).symm.trans hidx
        rwa [Option.some.inj (hi.symm.trans hj)]
      · exact fun hnone => ⟨it, hit, hnone, hindex i it hi⟩
    have hboth := hfailed i
    rw [mem_failed_runItems horder, mem_failed_runItems horder, hself, hself] at hboth
    cases ho : outcome it with
    | error e =>
        rw [ho] at hboth
        exact (hboth.mp rfl).symm
    | ok c =>
        cases ho' : outcome' it with
        | error e =>
            rw [ho, ho'] at hboth
            exact hboth.mpr rfl
        | ok c' =>
            have hlast := congrFun hfiles it.localPath
            rw [runItems_last hi ho, runItems_last hi ho'] at hlast
            exact hlast
  · intro h order horder
    refine ⟨runItems_files_congr horder h, fun i => ?_⟩
    rw [mem_failed_runItems horder, mem_failed_runItems horder]
    refine exists_congr fun it => and_congr_right fun hit => ?_
    rw [h it hit]

end Runs

/-! ### The two paths -/

section Paths

variable {p : BatchProvider} {items : List DownloadItem} {order : List ℕ} {files : LocalFiles}
  {remotePaths localPaths : List PyStr} {metadata : Option (List (Option ObjectMetadata))}
  {maxWorkers : ℕ}

namespace BatchProvider

/-- The threaded path follows what the metadata calls a symlink. -/
theorem downloadFile_eq (it : DownloadItem) :
    p.downloadFile it.remotePath it.localPath (some it.metadata) =
      if it.metadata.symlinkTarget.isSome then p.followed it else p.direct it := by
  unfold downloadFile followed direct
  cases h : it.metadata.symlinkTarget.isSome with
  | true =>
      rw [if_pos rfl, Option.all_some, h, if_pos rfl]
      rfl
  | false =>
      rw [if_neg Bool.false_ne_true, Option.all_some, h, if_neg Bool.false_ne_true]
      rfl

/-- The asynchronous path transfers the object at the path. -/
theorem direct_eq_async (it : DownloadItem) :
    p.direct it = (p.asyncItem it).bind p.downloadOne := by
  unfold direct asyncItem
  cases p.makeParent it.localPath with
  | error e => rfl
  | ok u => rfl

/-- The transferred item keeps its local path. -/
theorem asyncItem_localPath {it : DownloadItem} {t : AsyncTransferItem}
    (h : p.asyncItem it = .ok t) : t.localPath = it.localPath := by
  unfold asyncItem at h
  cases hmk : p.makeParent it.localPath with
  | error e =>
      rw [hmk] at h
      cases h
  | ok u =>
      rw [hmk] at h
      cases h
      rfl

/-- The files of the asynchronous download are those of the direct outcomes. -/
theorem downloadFilesAsync_files :
    (p.downloadFilesAsync order items files).1 = (runItems p.direct order items files).1 := by
  unfold downloadFilesAsync runItems
  dsimp only
  induction order generalizing files with
  | nil => rfl
  | cons i order ih =>
      rw [List.filterMap_cons, List.filterMap_cons]
      cases hi : items[i]? with
      | none => exact ih
      | some it =>
          rw [List.foldl_cons, direct_eq_async it]
          cases ht : p.asyncItem it with
          | error e =>
              rw [Option.bind_some, ht]
              exact ih
          | ok t =>
              rw [Option.bind_some, ht]
              dsimp only [Except.toOption, Except.bind]
              rw [List.foldl_cons, asyncItem_localPath ht]
              exact ih

/-- The failed items of the asynchronous download. -/
theorem mem_failed_downloadFilesAsync {i : ℕ} :
    i ∈ (p.downloadFilesAsync order items files).2.map (·.index) ↔
      ∃ it ∈ items, (p.direct it).toOption = none ∧ it.index = i := by
  have hitem : ∀ it : DownloadItem,
      (∃ f, ((match p.asyncItem it with
          | .error e => it.failure? (.error e)
          | .ok _ => none) = some f ∨
        (match p.asyncItem it with
          | .error _ => none
          | .ok t => it.failure? (p.downloadOne t)) = some f) ∧ f.index = i) ↔
      (p.direct it).toOption = none ∧ it.index = i := by
    intro it
    rw [direct_eq_async, ← failure?_index]
    refine exists_congr fun f => and_congr_left fun _ => ?_
    cases p.asyncItem it with
    | error e => simp [Except.bind]
    | ok t => simp [Except.bind]
  unfold downloadFilesAsync
  dsimp only
  simp only [List.mem_map, List.mem_append, List.mem_filterMap, ← hitem]
  constructor
  · rintro ⟨f, ⟨it, hit, hf⟩ | ⟨it, hit, hf⟩, hi⟩
    · exact ⟨it, hit, f, .inl hf, hi⟩
    · exact ⟨it, hit, f, .inr hf, hi⟩
  · rintro ⟨it, hit, f, hf | hf, hi⟩
    · exact ⟨f, .inl ⟨it, hit, hf⟩, hi⟩
    · exact ⟨f, .inr ⟨it, hit, hf⟩, hi⟩

/-- A list mapped with success keeps its length. -/
theorem length_of_mapM_ok {α β : Type} {f : α → Except PyError β} {l : List α} {ys : List β}
    (h : l.mapM f = .ok ys) : ys.length = l.length := by
  induction l generalizing ys with
  | nil =>
      rw [List.mapM_nil] at h
      cases h
      rfl
  | cons a l ih =>
      rw [List.mapM_cons] at h
      cases ha : f a with
      | error e =>
          rw [ha] at h
          cases h
      | ok b =>
          cases hl : l.mapM f with
          | error e =>
              rw [ha, hl] at h
              cases h
          | ok bs =>
              rw [ha, hl] at h
              cases h
              rw [List.length_cons, List.length_cons, ih hl]

/-- Each item has its place in the batch as its index. -/
theorem batchItems_spec (h : p.batchItems remotePaths localPaths metadata maxWorkers = .ok items) :
    items.length = remotePaths.length ∧ Indexed items := by
  unfold batchItems at h
  split at h
  · cases h
  next hlen =>
    split at h
    · cases h
    · split at h
      · cases h
      · cases hres : p.resolveDownloadMetadata remotePaths metadata with
        | error e =>
            rw [hres] at h
            cases h
        | ok resolved =>
            rw [hres] at h
            obtain rfl := Except.ok.inj h
            have hresolved : resolved.length = remotePaths.length := by
              rw [length_of_mapM_ok hres, List.length_zipIdx]
            constructor
            · simp [hresolved, not_not.mp hlen]
            · intro i it hi
              rw [List.getElem?_map] at hi
              obtain ⟨⟨⟨rp, lp, m⟩, j⟩, hj, rfl⟩ := Option.map_eq_some_iff.mp hi
              rw [List.getElem?_zipIdx] at hj
              obtain ⟨x, -, hx⟩ := Option.map_eq_some_iff.mp hj
              have hidx := congrArg Prod.snd hx
              simpa using hidx.symm

end BatchProvider

/-- Symlinks are empty objects. -/
def EmptyMarkers (p : BatchProvider) : Prop :=
  ∀ path m multipart, p.getObjectMetadata path = .ok m → m.followed ≠ none →
    p.transfer multipart path = .ok []

/-- The directory of the local file cannot be made. -/
def NoDirectory (p : BatchProvider) (it : DownloadItem) : Prop :=
  ∃ e, p.makeParent it.localPath = .error e

/-- The objects of an item bring the same, whether the chain from its path is followed or not. -/
structure SameObject (p : BatchProvider) (it : DownloadItem) : Prop where
  /-- a symlink of the storage ends in an empty object -/
  empty : p.IsSymlink it → ∃ f,
    ChainEnds p.getObjectMetadata (p.prependBasePath it.remotePath) f ∧
      p.transfer (p.multipartThreshold < it.metadata.contentLength) f = .ok []
  /-- what only the given metadata calls a symlink is missing for a download, too, if the
  storage knows nothing of it -/
  missing : it.metadata.symlinkTarget ≠ none →
    (∃ e, p.getObjectMetadata (p.prependBasePath it.remotePath) = .error e) →
      ∃ e, p.transfer (p.multipartThreshold < it.metadata.contentLength)
        (p.prependBasePath it.remotePath) = .error e

theorem toOption_eq_none_iff {ε α : Type*} {r : Except ε α} :
    r.toOption = none ↔ ∃ e, r = .error e := by
  cases r with
  | error e => exact iff_of_true rfl ⟨e, rfl⟩
  | ok a => exact iff_of_false (Option.some_ne_none a) fun ⟨e, he⟩ => nomatch he

/-- An item is downloaded through its links where the chain ends at an object. -/
theorem BatchProvider.followed_ok_iff {it : DownloadItem} {content : List UInt8}
    (hdir : ¬NoDirectory p it) : p.followed it = .ok content ↔ ∃ f,
      ChainEnds p.getObjectMetadata (p.prependBasePath it.remotePath) f ∧
        p.transfer (p.multipartThreshold < it.metadata.contentLength) f = .ok content := by
  have hmade : p.makeParent it.localPath = .ok () := by
    cases hparent : p.makeParent it.localPath with
    | error e => exact absurd ⟨e, hparent⟩ hdir
    | ok u => rfl
  unfold followed
  rw [hmade]
  simp only [← resolveSymlinkPath_ok_iff]
  cases resolveSymlinkPath p.getObjectMetadata (p.prependBasePath it.remotePath) with
  | error e =>
      refine iff_of_false nofun ?_
      rintro ⟨f, hf, -⟩
      cases hf
  | ok f =>
      constructor
      · exact fun hok => ⟨f, rfl, hok⟩
      · rintro ⟨f', hf, hok⟩
        obtain rfl := Except.ok.inj hf
        exact hok

theorem BatchProvider.direct_eq {it : DownloadItem} (hdir : ¬NoDirectory p it) :
    p.direct it = p.transfer (p.multipartThreshold < it.metadata.contentLength)
      (p.prependBasePath it.remotePath) := by
  unfold direct
  cases hparent : p.makeParent it.localPath with
  | error e => exact absurd ⟨e, hparent⟩ hdir
  | ok u => rfl

/-- Where the storage has metadata, these say whether the path is a symlink. -/
theorem BatchProvider.isSymlink_iff {it : DownloadItem} {m : ObjectMetadata}
    (hmeta : p.getObjectMetadata (p.prependBasePath it.remotePath) = .ok m) :
    p.IsSymlink it ↔ m.followed ≠ none := by
  constructor
  · rintro ⟨m', hm', hlink⟩
    obtain rfl := Except.ok.inj (hmeta.symm.trans hm')
    exact hlink
  · exact fun hlink => ⟨m, hmeta, hlink⟩

/-- Where it has none, the path is not one, and there is no chain to follow. -/
theorem BatchProvider.of_no_metadata {it : DownloadItem} {e : PyError}
    (hmeta : p.getObjectMetadata (p.prependBasePath it.remotePath) = .error e) :
    ¬p.IsSymlink it ∧ (p.followed it).toOption = none := by
  constructor
  · rintro ⟨m, hm, -⟩
    rw [hmeta] at hm
    cases hm
  · unfold BatchProvider.followed
    rw [resolveSymlinkPath, hmeta]
    rfl

/-- The chain of an object that is no symlink ends where it starts. -/
theorem BatchProvider.followed_eq_direct {it : DownloadItem} {m : ObjectMetadata}
    (hmeta : p.getObjectMetadata (p.prependBasePath it.remotePath) = .ok m)
    (hplain : m.followed = none) : p.followed it = p.direct it := by
  unfold BatchProvider.followed BatchProvider.direct
  rw [resolveSymlinkPath, hmeta]
  dsimp only
  rw [hplain]
  rfl

/-- Without its directory an item brings nothing on either path. -/
theorem NoDirectory.outcomes {it : DownloadItem} (h : NoDirectory p it) :
    (p.direct it).toOption = none ∧ (p.followed it).toOption = none := by
  obtain ⟨e, he⟩ := h
  unfold BatchProvider.direct BatchProvider.followed
  rw [he]
  refine ⟨rfl, ?_⟩
  cases resolveSymlinkPath p.getObjectMetadata (p.prependBasePath it.remotePath) with
  | error e' => rfl
  | ok f => rfl

/-- **The end of the chain** brings what the object at the path brings, if and only if the
storage has the same for both. -/
theorem direct_eq_followed_iff (hempty : EmptyMarkers p) (it : DownloadItem) :
    (it.metadata.symlinkTarget ≠ none ∨ p.IsSymlink it →
        (p.direct it).toOption = (p.followed it).toOption) ↔
      NoDirectory p it ∨ SameObject p it := by
  by_cases hdir : NoDirectory p it
  · obtain ⟨hdirect, hfollowed⟩ := hdir.outcomes
    exact iff_of_true (fun _ => hdirect.trans hfollowed.symm) (.inl hdir)
  rw [or_iff_right hdir, p.direct_eq hdir]
  have hfollowed : ∀ content, p.followed it = .ok content ↔ _ := fun _ => p.followed_ok_iff hdir
  cases hmeta : p.getObjectMetadata (p.prependBasePath it.remotePath) with
  | error e =>
      -- the chain cannot be followed
      obtain ⟨hnot, hnone⟩ := BatchProvider.of_no_metadata hmeta
      rw [hnone, or_iff_left hnot, toOption_eq_none_iff]
      constructor
      · exact fun h => ⟨fun hlink => absurd hlink hnot, fun hne _ => h hne⟩
      · exact fun h hne => h.missing hne ⟨e, hmeta⟩
  | ok m =>
      have hknown : ¬∃ e, p.getObjectMetadata (p.prependBasePath it.remotePath) = .error e := by
        rintro ⟨e, he⟩
        rw [hmeta] at he
        cases he
      have hsymlink : p.IsSymlink it ↔ m.followed ≠ none := BatchProvider.isSymlink_iff hmeta
      by_cases hlink : m.followed = none
      · -- the chain ends where it starts
        have hnot : ¬p.IsSymlink it := fun h => hsymlink.mp h hlink
        rw [BatchProvider.followed_eq_direct hmeta hlink, p.direct_eq hdir]
        exact iff_of_true (fun _ => rfl) ⟨fun h => absurd h hnot, fun _ h => absurd h hknown⟩
      · -- the symlink itself is empty, so the end of its chain has to be
        rw [hempty _ m _ hmeta hlink]
        constructor
        · intro h
          refine ⟨fun _ => ?_, fun _ he => absurd he hknown⟩
          have hnil := (h (.inr (hsymlink.mpr hlink))).symm
          refine (hfollowed []).mp ?_
          cases hout : p.followed it with
          | error e =>
              rw [hout] at hnil
              cases hnil
          | ok content =>
              rw [hout] at hnil
              rw [Option.some.inj hnil]
        · intro h _
          rw [(hfollowed []).mpr (h.empty (hsymlink.mpr hlink))]

/-- The outcome of an item on the threaded path. -/
theorem threaded_toOption (it : DownloadItem) :
    (p.downloadFile it.remotePath it.localPath (some it.metadata)).toOption =
      if it.metadata.symlinkTarget ≠ none then (p.followed it).toOption
      else (p.direct it).toOption := by
  rw [p.downloadFile_eq it]
  cases it.metadata.symlinkTarget with
  | none => rfl
  | some t => rfl

/-- An item has the same outcome on both paths, the one it is to have, unless it
is a symlink that brings something else than the end of its chain. -/
theorem outcomes_agree_iff (hempty : EmptyMarkers p) (it : DownloadItem) :
    ((p.downloadFile it.remotePath it.localPath (some it.metadata)).toOption =
        (p.direct it).toOption ∧
      (p.downloadFile it.remotePath it.localPath (some it.metadata)).toOption =
        (p.intended it).toOption) ↔ NoDirectory p it ∨ SameObject p it := by
  rw [← direct_eq_followed_iff hempty, threaded_toOption]
  unfold BatchProvider.intended
  by_cases hmeta : it.metadata.symlinkTarget ≠ none
  · rw [if_pos hmeta]
    by_cases hlink : p.IsSymlink it
    · rw [if_pos hlink]
      exact ⟨fun h _ => h.1.symm, fun h => ⟨(h (.inl hmeta)).symm, rfl⟩⟩
    · rw [if_neg hlink]
      exact ⟨fun h _ => h.1.symm, fun h => ⟨(h (.inl hmeta)).symm, (h (.inl hmeta)).symm⟩⟩
  · rw [if_neg hmeta]
    by_cases hlink : p.IsSymlink it
    · rw [if_pos hlink]
      exact ⟨fun h _ => h.2, fun h => ⟨rfl, h (.inr hlink)⟩⟩
    · rw [if_neg hlink]
      exact ⟨fun _ h => absurd h (not_or.mpr ⟨hmeta, hlink⟩), fun _ => ⟨rfl, rfl⟩⟩

/-- Two downloads that agree item by item agree. -/
theorem sameDownloads_of_items
    {transferItems transferItems' :
      List DownloadItem → LocalFiles → LocalFiles × List DownloadFailure}
    (hb : p.batchItems remotePaths localPaths metadata maxWorkers = .ok items) :
    SameDownloads (p.downloadFiles transferItems remotePaths localPaths metadata maxWorkers files)
        (p.downloadFiles transferItems' remotePaths localPaths metadata maxWorkers files) ↔
      (transferItems items files).1 = (transferItems' items files).1 ∧
        ∀ i, i ∈ (transferItems items files).2.map (·.index) ↔
          i ∈ (transferItems' items files).2.map (·.index) := by
  have hfailed : ∀ failures : List DownloadFailure,
      failedIndices (if failures = [] then none else some (.batch failures)) =
        failures.map (·.index) := by
    intro failures
    split
    next hnil =>
      rw [hnil]
      rfl
    next => rfl
  unfold BatchProvider.downloadFiles
  rw [hb]
  constructor
  · rintro ⟨hfiles, hindices⟩
    dsimp only at hindices
    rw [hfailed, hfailed] at hindices
    exact ⟨hfiles, hindices⟩
  · rintro ⟨hfiles, hindices⟩
    refine ⟨hfiles, ?_⟩
    dsimp only
    rw [hfailed, hfailed]
    exact hindices

end Paths

/-- A bucket with a file and a symlink to it. -/
def linkProvider : BatchProvider where
  basePath := ['b']
  multipartThreshold := 8
  getObjectMetadata path :=
    if path = "b/l".toList then
      .ok { key := path, contentLength := 0, lastModified := 0, symlinkTarget := some ['f'] }
    else if path = "b/f".toList then .ok { key := path, contentLength := 1, lastModified := 0 }
    else .error (.fileNotFoundError path)
  transfer _ path :=
    if path = "b/l".toList then .ok []
    else if path = "b/f".toList then .ok [7]
    else .error (.fileNotFoundError path)
  makedirs _ := .ok ()

/-- The symlink as an item of a batch. -/
def linkItem : DownloadItem where
  index := 0
  remotePath := ['l']
  localPath := ['x']
  metadata :=
    { key := "b/l".toList, contentLength := 0, lastModified := 0, symlinkTarget := some ['f'] }

/-- The links of the sample are empty objects. -/
theorem emptyMarkers_linkProvider : EmptyMarkers linkProvider := by
  intro path m multipart hm hlink
  have hpath : path = "b/l".toList := by
    by_contra hne
    simp only [linkProvider, if_neg hne] at hm
    split at hm
    · rw [← Except.ok.inj hm] at hlink
      exact hlink rfl
    · cases hm
  rw [hpath]
  rfl

end MultiStorageClient
