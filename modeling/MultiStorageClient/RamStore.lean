/-
MultiStorageClient/RamStore.lean

The RAM backend as a store of objects: all calls of `backend_ram.go` in one state.

The objects of a directory tree are a map from keys to contents (`RamStore.objects`).
`deleteFile` takes a key out of the map and leaves the others alone (`fileAt_deleteFile`),
and it takes out the directories that it empties, so that below every directory there is
an object (`Full`).  A directory is then there exactly if some key begins with its path
(`find_isSome_iff`).

`run_answers`: over a whole run of calls the backend answers as the map does, and its
counters are those of the map.
-/
import MultiStorageClient.RamListings

namespace MultiStorageFileSystem

namespace RamDir

/-! ### The maps of a directory -/

variable {β : Type} {name name' : GoStr} {l : List (GoStr × β)}

/-- `DeleteByKey` -/
def deleteByKey (name : GoStr) (l : List (GoStr × β)) : List (GoStr × β) :=
  l.filter fun e => e.1 ≠ name

/-- What is behind a name after it was changed there. -/
def changeByKey (name : GoStr) (b : β) (l : List (GoStr × β)) : List (GoStr × β) :=
  l.map fun e => if e.1 = name then (name, b) else e

/-- A deleted name is not found. -/
theorem lookup_deleteByKey : (deleteByKey name l).lookup name' =
    if name' = name then none else l.lookup name' := by
  induction l with
  | nil => simp [deleteByKey]
  | cons e l ih =>
      obtain ⟨key, b⟩ := e
      unfold deleteByKey at ih ⊢
      by_cases hkey : key = name
      · rw [List.filter_cons_of_neg (by simp [hkey]), ih]
        by_cases hname : name' = name
        · simp [hname]
        · have hbeq : (name' == key) = false := by simp [hkey, hname]
          simp [hname, List.lookup_cons, hbeq]
      · rw [List.filter_cons_of_pos (by simp [hkey]), List.lookup_cons, List.lookup_cons, ih]
        by_cases hname : name' = name
        · have hbeq : (name' == key) = false := by simp [hname, Ne.symm hkey]
          simp [hname, hname ▸ hbeq]
        · simp [hname]

/-- A change leaves the other names. -/
theorem lookup_changeByKey {b : β} (h : name' ≠ name) :
    (changeByKey name b l).lookup name' = l.lookup name' := by
  induction l with
  | nil => rfl
  | cons e l ih =>
      obtain ⟨key, b'⟩ := e
      unfold changeByKey at ih ⊢
      rw [List.map_cons]
      by_cases hkey : key = name
      · have hbeq : (name' == name) = false := by simp [h]
        simp only [hkey, if_true, List.lookup_cons, hbeq, ih]
      · simp only [hkey, if_false, List.lookup_cons, ih]

/-- A changed name has its new value. -/
theorem lookup_changeByKey_self {b b' : β} (h : l.lookup name = some b') :
    (changeByKey name b l).lookup name = some b := by
  induction l with
  | nil => simp at h
  | cons e l ih =>
      obtain ⟨key, b''⟩ := e
      unfold changeByKey at ih ⊢
      rw [List.map_cons]
      by_cases hkey : key = name
      · simp [hkey]
      · have hbeq : (name == key) = false := by simp [Ne.symm hkey]
        rw [List.lookup_cons, hbeq] at h
        simp only [hkey, if_false, List.lookup_cons, hbeq]
        exact ih h

theorem keys_changeByKey {b : β} : (changeByKey name b l).map Prod.fst = l.map Prod.fst := by
  unfold changeByKey
  rw [List.map_map]
  refine List.map_congr_left fun e _ => ?_
  by_cases hkey : e.1 = name
  · simp [hkey]
  · simp [hkey]

theorem mem_changeByKey {b : β} {e : GoStr × β} (h : e ∈ changeByKey name b l) :
    e ∈ l ∨ e.2 = b := by
  obtain ⟨e', he', rfl⟩ := List.mem_map.mp h
  by_cases hkey : e'.1 = name
  · rw [if_pos hkey]
    exact Or.inr rfl
  · rw [if_neg hkey]
    exact Or.inl he'

theorem mem_of_lookup {b : β} (h : l.lookup name = some b) : (name, b) ∈ l := by
  obtain ⟨l₁, l₂, rfl, -⟩ := List.lookup_eq_some_iff.mp h
  simp

/-! ### The files that go -/

/-- The directory has no children. -/
def isEmpty (dir : RamDir) : Bool := dir.dirMap.isEmpty && dir.fileMap.isEmpty

/-- What `deleteFile` leaves of a directory, which it finds by `dirName`.  The loop that
takes out what is empty ends at the first directory that is not, and above that one no
directory is empty, as each holds the next. -/
def deleteFile (fileName : GoStr) : List GoStr → RamDir → RamDir
  | [], dir => mk dir.dirMap (deleteByKey fileName dir.fileMap)
  | name :: dirName, dir =>
      match dir.dirMap.lookup name with
      | none => dir
      | some child =>
          let child' := deleteFile fileName dirName child
          mk (if child'.isEmpty then deleteByKey name dir.dirMap
            else changeByKey name child' dir.dirMap) dir.fileMap

variable {dir child : RamDir} {fileName next : GoStr} {names dirName : List GoStr}
  {dirMap : List (GoStr × RamDir)} {fileMap : List (GoStr × List UInt8)}

/-- On its way to the file `deleteFile` goes into one directory, and takes it out if that
one is left empty. -/
theorem deleteFile_below :
    (dirMap.lookup next = none ∧
      (mk dirMap fileMap).deleteFile fileName (next :: dirName) = mk dirMap fileMap) ∨
    ∃ child, dirMap.lookup next = some child ∧
      ((child.deleteFile fileName dirName).isEmpty = true ∧
          (mk dirMap fileMap).deleteFile fileName (next :: dirName) =
            mk (deleteByKey next dirMap) fileMap ∨
        (child.deleteFile fileName dirName).isEmpty = false ∧
          (mk dirMap fileMap).deleteFile fileName (next :: dirName) =
            mk (changeByKey next (child.deleteFile fileName dirName) dirMap) fileMap) := by
  cases hnext : dirMap.lookup next with
  | none =>
      refine Or.inl ⟨rfl, ?_⟩
      simp only [deleteFile, RamDir.dirMap, hnext]
  | some child =>
      refine Or.inr ⟨child, rfl, ?_⟩
      simp only [deleteFile, RamDir.dirMap, RamDir.fileMap, hnext]
      cases hempty : (child.deleteFile fileName dirName).isEmpty with
      | true => exact Or.inl ⟨rfl, by simp⟩
      | false => exact Or.inr ⟨rfl, by simp⟩

theorem fileAt_of_isEmpty (h : dir.isEmpty = true) (names : List GoStr) :
    fileAt names dir = none := by
  obtain ⟨dirMap, fileMap⟩ := dir
  simp only [isEmpty, RamDir.dirMap, RamDir.fileMap, Bool.and_eq_true, List.isEmpty_iff] at h
  obtain ⟨rfl, rfl⟩ := h
  rcases names with - | ⟨name, - | ⟨name', names⟩⟩
  · rfl
  · rfl
  · rfl

/-- **A deleted file** is no longer there, and every other one is as before. -/
theorem fileAt_deleteFile : fileAt names (deleteFile fileName dirName dir) =
    if names = dirName ++ [fileName] then none else fileAt names dir := by
  induction dirName generalizing names dir with
  | nil =>
      rcases names with - | ⟨name, - | ⟨name', names⟩⟩
      · simp [fileAt]
      · show (deleteByKey fileName dir.fileMap).lookup name = _
        rw [lookup_deleteByKey]
        simp [fileAt]
      · simp [fileAt, deleteFile, dirMap]
  | cons next dirName ih =>
      obtain ⟨dirMap, fileMap⟩ := dir
      rcases names with - | ⟨name, - | ⟨name', names⟩⟩
      · simp [fileAt]
      · -- a file next to the directory
        have hfile : fileAt [name] ((mk dirMap fileMap).deleteFile fileName (next :: dirName)) =
            fileMap.lookup name := by
          rcases deleteFile_below with ⟨-, heq⟩ | ⟨child, -, ⟨-, heq⟩ | ⟨-, heq⟩⟩
          · rw [heq]; rfl
          · rw [heq]; rfl
          · rw [heq]; rfl
        rw [hfile, if_neg (by simp)]
        rfl
      · -- a file below some directory
        have hold : ∀ dirMap : List (GoStr × RamDir), fileAt (name :: name' :: names)
            (mk dirMap fileMap) = (dirMap.lookup name).bind (fileAt (name' :: names)) :=
          fun _ => rfl
        have hcons : (name :: name' :: names = next :: dirName ++ [fileName]) ↔
            name = next ∧ name' :: names = dirName ++ [fileName] := by simp
        rcases deleteFile_below with ⟨hnone, heq⟩ | ⟨child, hnext, ⟨hempty, heq⟩ | ⟨-, heq⟩⟩
        · rw [heq, hold]
          split
          next hpath => rw [(hcons.mp hpath).1, hnone, Option.bind_none]
          next => rfl
        · rw [heq, hold, hold, lookup_deleteByKey]
          have hnew := fileAt_of_isEmpty hempty (name' :: names)
          rw [ih] at hnew
          by_cases hname : name = next
          · subst hname
            rw [if_pos rfl, hnext, Option.bind_some]
            exact hnew.symm.trans (if_congr (by simp) rfl rfl)
          · rw [if_neg hname, if_neg fun hpath => hname (hcons.mp hpath).1]
        · rw [heq, hold, hold]
          by_cases hname : name = next
          · subst hname
            rw [lookup_changeByKey_self hnext, hnext, Option.bind_some, Option.bind_some, ih]
            simp
          · rw [lookup_changeByKey hname, if_neg fun hpath => hname (hcons.mp hpath).1]

/-- The deletion of a file keeps the names in order. -/
theorem WellFormed.deleteFile (h : dir.WellFormed) :
    (dir.deleteFile fileName dirName).WellFormed := by
  induction dirName generalizing dir with
  | nil =>
      obtain ⟨hdirs, hfiles, hdir, hfile, hlength, hchild⟩ := h
      refine .mk hdirs ?_ hdir ?_ ?_ hchild
      · exact hfiles.sublist (List.filter_sublist.map _)
      · exact fun file hmem => hfile file (List.mem_of_mem_filter hmem)
      · exact (Nat.add_le_add_left (List.length_filter_le _ _) _).trans_lt hlength
  | cons next dirName ih =>
      obtain ⟨dirMap, fileMap⟩ := dir
      obtain ⟨hdirs, hfiles, hdir, hfile, hlength, hchild⟩ := h
      rcases deleteFile_below with ⟨-, heq⟩ | ⟨child, hnext, ⟨-, heq⟩ | ⟨-, heq⟩⟩
      -- there is no such subdirectory
      · rw [heq]
        exact .mk hdirs hfiles hdir hfile hlength hchild
      -- the subdirectory is empty now, and goes
      · rw [heq]
        refine .mk ?_ hfiles ?_ hfile ?_ ?_
        · exact hdirs.sublist (List.filter_sublist.map _)
        · exact fun e he => hdir e (List.mem_of_mem_filter he)
        · have hle := List.length_filter_le (fun e => e.1 ≠ next) dirMap
          exact (Nat.add_le_add_right hle _).trans_lt hlength
        · exact fun e he => hchild e (List.mem_of_mem_filter he)
      -- the subdirectory stays, without the file
      · rw [heq]
        refine .mk ?_ hfiles ?_ hfile ?_ ?_
        · rwa [keys_changeByKey]
        · intro e he
          have hkey : e.1 ∈ dirMap.map Prod.fst := keys_changeByKey ▸ List.mem_map_of_mem he
          obtain ⟨e', he', hkeys⟩ := List.mem_map.mp hkey
          exact hkeys ▸ hdir e' he'
        · show (changeByKey next _ dirMap).length + _ < _
          rw [changeByKey, List.length_map]
          exact hlength
        · intro e he
          rcases mem_changeByKey he with he | hnew
          · exact hchild e he
          · exact hnew ▸ ih (hchild _ (mem_of_lookup hnext))

/-! ### No directory is empty -/

/-- Below each directory of a directory there is an object, and every file has a name. -/
inductive Full : RamDir → Prop
  | mk {dirMap : List (GoStr × RamDir)} {fileMap : List (GoStr × List UInt8)} :
      (∀ child ∈ dirMap, child.2.isEmpty = false) → (∀ file ∈ fileMap, file.1 ≠ []) →
      (∀ child ∈ dirMap, Full child.2) → Full (mk dirMap fileMap)

/-- The deletion of a file leaves no empty directory. -/
theorem Full.deleteFile (h : dir.Full) : (dir.deleteFile fileName dirName).Full := by
  induction dirName generalizing dir with
  | nil =>
      obtain ⟨hdirs, hfiles, hchild⟩ := h
      exact .mk hdirs (fun file hmem => hfiles file (List.mem_of_mem_filter hmem)) hchild
  | cons next dirName ih =>
      obtain ⟨dirMap, fileMap⟩ := dir
      obtain ⟨hdirs, hfiles, hchild⟩ := h
      rcases deleteFile_below with ⟨-, heq⟩ | ⟨child, hnext, ⟨-, heq⟩ | ⟨hne, heq⟩⟩
      · rw [heq]
        exact .mk hdirs hfiles hchild
      · rw [heq]
        exact .mk (fun e he => hdirs e (List.mem_of_mem_filter he)) hfiles
          fun e he => hchild e (List.mem_of_mem_filter he)
      · -- what is put back is not empty
        rw [heq]
        refine .mk ?_ hfiles ?_
        · intro e he
          rcases mem_changeByKey he with he | hnew
          · exact hdirs e he
          · rw [hnew]
            exact hne
        · intro e he
          rcases mem_changeByKey he with he | hnew
          · exact hchild e he
          · exact hnew ▸ ih (hchild _ (mem_of_lookup hnext))

theorem Full.find (h : dir.Full) (hfind : RamDir.find names dir = some child) : child.Full := by
  induction names generalizing dir with
  | nil => exact Option.some.inj hfind ▸ h
  | cons name names ih =>
      obtain ⟨next, hnext, hnames⟩ := Option.bind_eq_some_iff.mp hfind
      obtain ⟨-, -, hchild⟩ := h
      exact ih (hchild _ (mem_of_lookup hnext)) hnames

/-- Where no directory is empty, none that is found is. -/
theorem not_isEmpty_of_find (h : dir.Full) (hne : names ≠ [])
    (hfind : find names dir = some child) : child.isEmpty = false := by
  induction names generalizing dir with
  | nil => exact absurd rfl hne
  | cons name names ih =>
      obtain ⟨next, hnext, hnames⟩ := Option.bind_eq_some_iff.mp hfind
      obtain ⟨hdirs, -, hchild⟩ := h
      by_cases hnil : names = []
      · subst hnil
        exact Option.some.inj hnames ▸ hdirs _ (mem_of_lookup hnext)
      · exact ih (hchild _ (mem_of_lookup hnext)) hnil hnames

/-- Below a directory that is not empty there is an object. -/
theorem appendObjects_ne_nil (timeNow : GoStr → ℤ) (thisDirPrefix : GoStr) (h : dir.Full)
    (hne : dir.isEmpty = false) : appendObjects timeNow thisDirPrefix [] dir ≠ [] := by
  induction dir using tree_induction generalizing thisDirPrefix with
  | h dirMap fileMap ih =>
      obtain ⟨hdirs, -, hchild⟩ := h
      rw [appendObjects_mk]
      rcases dirMap with - | ⟨child, dirMap⟩
      · rcases fileMap with - | ⟨file, fileMap⟩
        · cases hne
        · simp
      · have hhead := ih child (by simp) (thisDirPrefix ++ child.1 ++ ['/'])
          (hchild child (by simp)) (hdirs child (by simp))
        intro hnil
        rw [List.append_eq_nil_iff, List.flatMap_cons, List.append_eq_nil_iff] at hnil
        exact hhead hnil.2.1

theorem exists_fileAt (hwf : dir.WellFormed) (h : dir.Full) (hne : dir.isEmpty = false) :
    ∃ (rest : GoStr) (content : List UInt8), fileAt (rest.splitOn '/') dir = some content := by
  obtain ⟨object, hmem⟩ := List.exists_mem_of_ne_nil _
    (appendObjects_ne_nil (fun _ => 0) [] h hne)
  obtain ⟨rest, content, -, hcontent, -⟩ :=
    (mem_entries hwf).mp (List.mem_map_of_mem (f := ListedObject.entry) hmem)
  exact ⟨rest, content, hcontent⟩

/-- **A directory** is there if an object is below it. -/
theorem find_isSome_iff (hwf : dir.WellFormed) (h : dir.Full) :
    (find names dir).isSome ↔ names = [] ∨ ∃ (rest : GoStr) (content : List UInt8),
      fileAt (names ++ rest.splitOn '/') dir = some content := by
  by_cases hnil : names = []
  · subst hnil
    exact iff_of_true rfl (Or.inl rfl)
  constructor
  · intro hfind
    obtain ⟨child, hchild⟩ := Option.isSome_iff_exists.mp hfind
    obtain ⟨rest, content, hcontent⟩ := exists_fileAt (wellFormed_of_find hwf hchild)
      (h.find hchild) (not_isEmpty_of_find h hnil hchild)
    refine Or.inr ⟨rest, content, ?_⟩
    rw [fileAt_append _ (List.splitOn_ne_nil '/' rest), hchild]
    exact hcontent
  · rintro (heq | ⟨rest, content, hcontent⟩)
    · exact absurd heq hnil
    · rw [fileAt_append _ (List.splitOn_ne_nil '/' rest)] at hcontent
      obtain ⟨child, hchild, -⟩ := Option.bind_eq_some_iff.mp hcontent
      exact Option.isSome_iff_exists.mpr ⟨child, hchild⟩

/-- Below what is left there is nothing new. -/
theorem length_deleteFile_le (hwf : dir.WellFormed) (timeNow : GoStr → ℤ) :
    (appendObjects timeNow [] [] (dir.deleteFile fileName dirName)).length ≤
      (appendObjects timeNow [] [] dir).length := by
  have hnodup : ((appendObjects timeNow [] [] (dir.deleteFile fileName dirName)).map
      ListedObject.path).Nodup := nodup_paths hwf.deleteFile
  have hsub : (appendObjects timeNow [] [] (dir.deleteFile fileName dirName)).map
      ListedObject.path ⊆ (appendObjects timeNow [] [] dir).map ListedObject.path := by
    intro path hpath
    obtain ⟨object, hobject, rfl⟩ := List.mem_map.mp hpath
    obtain ⟨rest, content, heq, hcontent, hsize⟩ := (mem_entries hwf.deleteFile).mp
      (List.mem_map_of_mem (f := ListedObject.entry) hobject)
    rw [fileAt_deleteFile] at hcontent
    split at hcontent
    · cases hcontent
    · have hold : (object.path, object.size) ∈
          (appendObjects timeNow [] [] dir).map ListedObject.entry :=
        (mem_entries hwf).mpr ⟨rest, content, heq, hcontent, hsize⟩
      obtain ⟨object', hobject', hentry⟩ := List.mem_map.mp hold
      exact List.mem_map.mpr ⟨object', hobject', congrArg Prod.fst hentry⟩
  have hle := (List.subperm_of_subset hnodup hsub).length_le
  rwa [List.length_map, List.length_map] at hle

end RamDir

namespace RamContext

/-! ### The calls on an object -/

variable (ctx : RamContext) {filePath dirPath : GoStr}

/-- `canonicalFilePath` -/
def canonicalFilePath (filePath : GoStr) : GoStr :=
  if ctx.keyPrefix = [] then '/' :: filePath else '/' :: ctx.keyPrefix ++ filePath

/-- The content of the file at a path, if all directories on the path are there. -/
def fileContent? (fullPath : GoStr) : Option (List UInt8) :=
  let (dirName, fileName, ramDir) := ctx.findFullPathElements fullPath
  if dirName.length + 1 > ramDir.length then none
  else ramDir.getLast?.bind fun leaf => leaf.fileMap.lookup fileName

theorem canonicalFilePath_eq : ctx.canonicalFilePath filePath =
    '/' :: (ctx.keyPrefix ++ filePath) := by
  unfold canonicalFilePath
  split
  next h => rw [h, List.nil_append]
  next => rfl

/-- The elements of the path of a file. -/
theorem findFullPathElements_file :
    ctx.findFullPathElements (ctx.canonicalFilePath filePath) =
      (((ctx.keyPrefix ++ filePath).splitOn '/').dropLast,
        ((ctx.keyPrefix ++ filePath).splitOn '/').getLastD [],
        ctx.rootDir :: ctx.rootDir.follow ((ctx.keyPrefix ++ filePath).splitOn '/').dropLast) := by
  have hsplit : ('/' :: (ctx.keyPrefix ++ filePath)).splitOn '/' =
      [] :: (ctx.keyPrefix ++ filePath).splitOn '/' := List.splitOn_append_cons_self [] _
  unfold findFullPathElements
  rw [canonicalFilePath_eq, hsplit]
  rcases hnames : (ctx.keyPrefix ++ filePath).splitOn '/' with - | ⟨name, names⟩
  · exact absurd hnames (List.splitOn_ne_nil '/' _)
  · rfl

theorem dirName_concat_fileName (key : GoStr) :
    (key.splitOn '/').dropLast ++ [(key.splitOn '/').getLastD []] = key.splitOn '/' := by
  have hne := List.splitOn_ne_nil '/' key
  rw [List.getLastD_eq_getLast?, List.getLast?_eq_getLast_of_ne_nil hne, Option.getD_some]
  exact List.dropLast_append_getLast hne

/-- The content behind a path is that of the file at it. -/
theorem fileContent?_eq : ctx.fileContent? (ctx.canonicalFilePath filePath) =
    ctx.fileAt filePath := by
  unfold fileContent? fileAt
  rw [findFullPathElements_file]
  dsimp only
  generalize hkey : ctx.keyPrefix ++ filePath = key
  have hfile : RamDir.fileAt (key.splitOn '/') ctx.rootDir =
      (RamDir.find (key.splitOn '/').dropLast ctx.rootDir).bind
        (RamDir.fileAt [(key.splitOn '/').getLastD []]) := by
    conv_lhs => rw [← dirName_concat_fileName key]
    exact RamDir.fileAt_append _ (by simp) _
  rw [hfile]
  cases hfind : RamDir.find (key.splitOn '/').dropLast ctx.rootDir with
  | none =>
      rw [if_pos]
      · rfl
      · exact Nat.succ_lt_succ (RamDir.follow_of_not_find hfind)
  | some leaf =>
      obtain ⟨hlength, hlast⟩ := RamDir.follow_of_find hfind
      rw [if_neg (by simp [hlength]), hlast]
      rfl

/-- `ramContext` without a file. -/
def withoutFile (fileName : GoStr) (dirName : List GoStr) : RamContext :=
  { ctx with
    rootDir := ctx.rootDir.deleteFile fileName dirName
    wellFormed := ctx.wellFormed.deleteFile
    objects_lt := (RamDir.length_deleteFile_le ctx.wellFormed _).trans_lt ctx.objects_lt }

end RamContext

/-! ### The backend -/

/-- The calls of `backendContextIf`. -/
inductive RamCall
  | deleteFile (filePath : GoStr)
  | listDirectory (input : ListDirectoryInput)
  | listObjects (input : ListObjectsInput)
  | readFile (filePath : GoStr) (offsetCacheLine : UInt64)
  | statDirectory (dirPath : GoStr)
  | statFile (filePath : GoStr)

/-- What they return. -/
inductive RamReply
  | deleteFileOutput
  | listDirectoryOutput (output : ListDirectoryOutput)
  | listObjectsOutput (output : ListObjectsOutput)
  | readFileOutput (eTag : GoStr) (buf : List UInt8)
  | statDirectoryOutput
  | statFileOutput (eTag : GoStr) (mTime : ℕ) (size : ℕ)
  | listError (err : RamListError)
  | error (text : String)
  /-- A range ends in front of its start: the goroutine does not survive. -/
  | outOfRange

/-- `ramContextStruct`, with its counters. -/
structure RamStore where
  ctx : RamContext
  curTotalObjects : UInt64
  curTotalObjectSpace : UInt64

namespace RamStore

variable (store : RamStore)

/-- `deleteFile` -/
def deleteFile (filePath : GoStr) : RamReply × RamStore :=
  match store.ctx.fileContent? (store.ctx.canonicalFilePath filePath) with
  | none => (.error "file not found", store)
  | some fileContent =>
      let (dirName, fileName, _) :=
        store.ctx.findFullPathElements (store.ctx.canonicalFilePath filePath)
      (.deleteFileOutput,
        { ctx := store.ctx.withoutFile fileName dirName
          curTotalObjects := store.curTotalObjects - 1
          curTotalObjectSpace := store.curTotalObjectSpace - UInt64.ofNat fileContent.length })

/-- `readFile` -/
def readFile (cacheLineSize : UInt64) (filePath : GoStr) (offsetCacheLine : UInt64) : RamReply :=
  match store.ctx.fileContent? (store.ctx.canonicalFilePath filePath) with
  | none => .error "file not found"
  | some fileContent =>
      -- both products are taken modulo 2 ^ 64
      let offset := offsetCacheLine * cacheLineSize
      let limit := offset + cacheLineSize
      let (offset, limit) :=
        if fileContent.length ≤ offset.toNat then (0, 0)
        else if fileContent.length < limit.toNat then (offset, UInt64.ofNat fileContent.length)
        else (offset, limit)
      -- the limit wrapped behind the offset: the slice panics
      if limit < offset then .outOfRange
      else .readFileOutput [] ((fileContent.drop offset.toNat).take (limit - offset).toNat)

/-- `statDirectory` -/
def statDirectory (dirPath : GoStr) : RamReply :=
  match store.ctx.ramDirLeaf (store.ctx.canonicalDirPath dirPath) with
  | none => .error "directory not found"
  | some _ => .statDirectoryOutput

/-- `statFile` -/
def statFile (timeNow : ℕ) (filePath : GoStr) : RamReply :=
  let fullPath := store.ctx.canonicalFilePath filePath
  if (store.ctx.findFullPathElements fullPath).2.1 = [] then .error "file not found"
  else
    match store.ctx.fileContent? fullPath with
    | none => .error "file not found"
    | some fileContent => .statFileOutput [] timeNow fileContent.length

/-- A call; `timeNow` says what the clock shows at each directory that it comes to. -/
def call (cacheLineSize : UInt64) (timeNow : GoStr → ℕ) : RamCall → RamReply × RamStore
  | .deleteFile filePath => store.deleteFile filePath
  | .listDirectory input =>
      (match store.ctx.listDirectory (fun _ => timeNow []) input with
        | .ok output => .listDirectoryOutput output
        | .error err => .listError err, store)
  | .listObjects input =>
      (match store.ctx.listObjects (fun _ thisDirPrefix => timeNow thisDirPrefix) input with
        | .ok output => .listObjectsOutput output
        | .error err => .listError err, store)
  | .readFile filePath offsetCacheLine =>
      (store.readFile cacheLineSize filePath offsetCacheLine, store)
  | .statDirectory dirPath => (store.statDirectory dirPath, store)
  | .statFile filePath => (store.statFile (timeNow []) filePath, store)

/-- The calls one after the other. -/
def run (cacheLineSize : UInt64) :
    List ((GoStr → ℕ) × RamCall) → RamStore → List RamReply × RamStore
  | [], store => ([], store)
  | (timeNow, c) :: calls, store =>
      let (reply, store) := store.call cacheLineSize timeNow c
      let (replies, store) := run cacheLineSize calls store
      (reply :: replies, store)

end RamStore

/-! ### The map from keys to contents -/

/-- The objects of a bucket by their keys. -/
abbrev Objects := GoStr → Option (List UInt8)

namespace Objects

variable (objects : Objects)

/-- The key is one of an object with such a size. -/
def HasSize (key : GoStr) (size : ℕ) : Prop :=
  ∃ content, objects key = some content ∧ content.length = size

/-- Some key begins with the path of the directory. -/
def HasDir (dirKey : GoStr) : Prop :=
  ∃ rest content, objects (dirKey ++ rest) = some content

/-- The objects whose keys come after `startAfter`, in the order of their keys. -/
structure Listed (keyPrefix : GoStr) (input : ListObjectsInput) (listing : List (GoStr × ℕ)) :
    Prop where
  sorted : listing.Pairwise fun a b => a.1 < b.1
  mem : ∀ path size, (path, size) ∈ listing ↔
    (path.hasPrefix input.keyPrefix = true ∧ RamContext.After input.startAfter path) ∧
      objects.HasSize (keyPrefix ++ path) size

/-- The directories in a directory and then its files, both in the order of their names. -/
structure Children (dirKey : GoStr) (listing : List DirectoryChild) : Prop where
  /-- The names of the directories, and the names and the sizes of the files. -/
  eq : ∃ (dirs : List GoStr) (files : List (GoStr × ℕ)),
    listing = dirs.map (fun name => .inl (String.ofList name)) ++
        files.map (fun file => .inr (String.ofList file.1, file.2)) ∧
      dirs.Pairwise (· < ·) ∧ (files.map Prod.fst).Pairwise (· < ·) ∧
      (∀ name, name ∈ dirs ↔ '/' ∉ name ∧ objects.HasDir (dirKey ++ name ++ ['/'])) ∧
      ∀ name size, (name, size) ∈ files ↔ '/' ∉ name ∧ objects.HasSize (dirKey ++ name) size

/-- The counters of so many objects. -/
def Counted (curTotalObjects curTotalObjectSpace : UInt64) : Prop :=
  ∃ keys : Finset GoStr, (∀ key, key ∈ keys ↔ (objects key).isSome) ∧
    curTotalObjects = UInt64.ofNat keys.card ∧
    curTotalObjectSpace = UInt64.ofNat (∑ key ∈ keys, ((objects key).getD []).length)

/-- **What a backend answers** for the objects, and what is left of them. -/
inductive Answers (keyPrefix : GoStr) (pageLimit : ℕ → ℕ) (cacheLineSize : UInt64)
    (timeNow : GoStr → ℕ) : Objects → RamCall → RamReply → Objects → Prop
  | deleted {objects : Objects} {filePath : GoStr} {content : List UInt8} :
      objects (keyPrefix ++ filePath) = some content →
      Answers keyPrefix pageLimit cacheLineSize timeNow objects (.deleteFile filePath)
        .deleteFileOutput (Function.update objects (keyPrefix ++ filePath) none)
  | nothingToDelete {objects : Objects} {filePath : GoStr} :
      objects (keyPrefix ++ filePath) = none →
      Answers keyPrefix pageLimit cacheLineSize timeNow objects (.deleteFile filePath)
        (.error "file not found") objects
  | children {objects : Objects} {input : ListDirectoryInput} {n : ℕ}
      {listing : List DirectoryChild} {output : ListDirectoryOutput} :
      RamContext.parseToken input.continuationToken.toList = .ok n →
      objects.Children (keyPrefix ++ RamContext.dirKey input.dirPath.toList) listing →
      Pages.FromPosition ListDirectoryOutput.next ListDirectoryOutput.children
        RamContext.directoryToken listing (pageLimit input.maxItems) n output →
      Answers keyPrefix pageLimit cacheLineSize timeNow objects (.listDirectory input)
        (.listDirectoryOutput output) objects
  | noDirectoryToken {objects : Objects} {input : ListDirectoryInput} {err : RamListError} :
      RamContext.parseToken input.continuationToken.toList = .error err →
      Answers keyPrefix pageLimit cacheLineSize timeNow objects (.listDirectory input)
        (.listError err) objects
  | listed {objects : Objects} {input : ListObjectsInput} {n : ℕ} {listing : List (GoStr × ℕ)}
      {output : ListObjectsOutput} :
      (input.startAfter = [] ∨ input.continuationToken = []) →
      RamContext.parseToken input.continuationToken = .ok n →
      objects.Listed keyPrefix input listing →
      Pages.FromPosition ListObjectsOutput.next ListObjectsOutput.entries GoStr.formatUint16
        listing (pageLimit input.maxItems) n output →
      Answers keyPrefix pageLimit cacheLineSize timeNow objects (.listObjects input)
        (.listObjectsOutput output) objects
  | noToken {objects : Objects} {input : ListObjectsInput} {err : RamListError} :
      (input.startAfter = [] ∨ input.continuationToken = []) →
      RamContext.parseToken input.continuationToken = .error err →
      Answers keyPrefix pageLimit cacheLineSize timeNow objects (.listObjects input)
        (.listError err) objects
  | twoStarts {objects : Objects} {input : ListObjectsInput} :
      input.startAfter ≠ [] → input.continuationToken ≠ [] →
      Answers keyPrefix pageLimit cacheLineSize timeNow objects (.listObjects input)
        (.listError .startAfterAndToken) objects
  | read {objects : Objects} {filePath : GoStr} {offsetCacheLine : UInt64}
      {content : List UInt8} :
      objects (keyPrefix ++ filePath) = some content →
      Answers keyPrefix pageLimit cacheLineSize timeNow objects
        (.readFile filePath offsetCacheLine)
        (.readFileOutput [] ((content.drop (offsetCacheLine.toNat * cacheLineSize.toNat)).take
          cacheLineSize.toNat)) objects
  | nothingToRead {objects : Objects} {filePath : GoStr} {offsetCacheLine : UInt64} :
      objects (keyPrefix ++ filePath) = none →
      Answers keyPrefix pageLimit cacheLineSize timeNow objects
        (.readFile filePath offsetCacheLine) (.error "file not found") objects
  | directory {objects : Objects} {dirPath : GoStr} :
      keyPrefix ++ RamContext.dirKey dirPath = [] ∨
        objects.HasDir (keyPrefix ++ RamContext.dirKey dirPath) →
      Answers keyPrefix pageLimit cacheLineSize timeNow objects (.statDirectory dirPath)
        .statDirectoryOutput objects
  | noDirectory {objects : Objects} {dirPath : GoStr} :
      keyPrefix ++ RamContext.dirKey dirPath ≠ [] →
      ¬objects.HasDir (keyPrefix ++ RamContext.dirKey dirPath) →
      Answers keyPrefix pageLimit cacheLineSize timeNow objects (.statDirectory dirPath)
        (.error "directory not found") objects
  | file {objects : Objects} {filePath : GoStr} {size : ℕ} :
      objects.HasSize (keyPrefix ++ filePath) size →
      Answers keyPrefix pageLimit cacheLineSize timeNow objects (.statFile filePath)
        (.statFileOutput [] (timeNow []) size) objects
  | noFile {objects : Objects} {filePath : GoStr} :
      objects (keyPrefix ++ filePath) = none →
      Answers keyPrefix pageLimit cacheLineSize timeNow objects (.statFile filePath)
        (.error "file not found") objects

/-- The answers of a whole run. -/
inductive Run (keyPrefix : GoStr) (pageLimit : ℕ → ℕ) (cacheLineSize : UInt64) :
    Objects → List ((GoStr → ℕ) × RamCall) → List RamReply → Objects → Prop
  | nil {objects : Objects} : Run keyPrefix pageLimit cacheLineSize objects [] [] objects
  | cons {objects objects' objects'' : Objects} {timeNow : GoStr → ℕ} {c : RamCall}
      {reply : RamReply} {calls : List ((GoStr → ℕ) × RamCall)} {replies : List RamReply} :
      Answers keyPrefix pageLimit cacheLineSize timeNow objects c reply objects' →
      Run keyPrefix pageLimit cacheLineSize objects' calls replies objects'' →
      Run keyPrefix pageLimit cacheLineSize objects ((timeNow, c) :: calls) (reply :: replies)
        objects''

end Objects

/-! ### The tree is the map -/

namespace RamDir

/-- No file is without a name. -/
theorem fileAt_noName {dir : RamDir} {names : List GoStr} (h : dir.Full) :
    fileAt (names ++ [[]]) dir = none := by
  rw [fileAt_append names (by simp)]
  cases hfind : find names dir with
  | none => rfl
  | some leaf =>
      obtain ⟨-, hfiles, -⟩ := h.find hfind
      show List.lookup [] _ = none
      refine List.lookup_eq_none_iff.mpr fun file hmem => ?_
      exact bne_iff_ne.mpr (Ne.symm (hfiles file hmem))

end RamDir

theorem GoStr.eq_of_splitOn {s s' : GoStr} (h : s.splitOn '/' = s'.splitOn '/') : s = s' :=
  calc s = ['/'].intercalate (s.splitOn '/') := (List.intercalate_splitOn '/').symm
    _ = ['/'].intercalate (s'.splitOn '/') := by rw [h]
    _ = s' := List.intercalate_splitOn '/'

namespace RamContext

variable {ctx : RamContext}

/-- The path of a directory in front of a path. -/
theorem splitOn_dirPath (ctx : RamContext) (dirPath : GoStr) :
    ∃ names : List GoStr, (ctx.dirAt dirPath = RamDir.find names ctx.rootDir) ∧
      (∀ rest, (ctx.keyPrefix ++ dirKey dirPath ++ rest).splitOn '/' =
        names ++ rest.splitOn '/') ∧
      (names = [] ↔ ctx.keyPrefix ++ dirKey dirPath = []) := by
  obtain ⟨names, hnames⟩ := ctx.splitOn_keyPrefix
  have hrest : ∃ names' : List GoStr, ∀ rest,
      (dirKey dirPath ++ rest).splitOn '/' = names' ++ rest.splitOn '/' := by
    -- the root adds no component, any other directory ends in a slash
    by_cases hnil : dirPath = []
    · exact ⟨[], fun rest => by simp [dirKey, hnil]⟩
    · refine splitOn_slash ?_
      unfold dirKey
      split
      next h => exact h.resolve_left hnil
      next => exact GoStr.hasSuffix_iff.mpr (List.suffix_append ..)
  obtain ⟨names', hnames'⟩ := hrest
  have hall : ∀ rest, (ctx.keyPrefix ++ dirKey dirPath ++ rest).splitOn '/' =
      names ++ names' ++ rest.splitOn '/' := by
    intro rest
    rw [List.append_assoc, hnames, hnames', List.append_assoc]
  have hself := hall []
  rw [List.append_nil] at hself
  refine ⟨names ++ names', ?_, hall, ?_⟩
  · unfold dirAt
    rw [hself]
    congr 1
    exact List.dropLast_concat
  · constructor
    · intro hnil
      rw [hnil] at hself
      exact GoStr.eq_of_splitOn hself
    · intro hnil
      rw [hnil] at hself
      exact List.self_eq_append_left.mp hself

end RamContext

namespace RamStore

variable {store : RamStore} {filePath dirPath : GoStr}

/-- What the tree stands for. -/
def objects (store : RamStore) : Objects :=
  fun key => RamDir.fileAt (key.splitOn '/') store.ctx.rootDir

/-- Below every directory there is an object, and the counters are those of the objects. -/
structure Sound (store : RamStore) : Prop where
  full : store.ctx.rootDir.Full
  counted : store.objects.Counted store.curTotalObjects store.curTotalObjectSpace

/-- The content behind a path is the object of its key. -/
theorem fileContent?_eq : store.ctx.fileContent? (store.ctx.canonicalFilePath filePath) =
    store.objects (store.ctx.keyPrefix ++ filePath) := store.ctx.fileContent?_eq

theorem objects_dir (store : RamStore) (dirPath rest : GoStr) :
    store.objects (store.ctx.keyPrefix ++ RamContext.dirKey dirPath ++ rest) =
      (store.ctx.dirAt dirPath).bind (RamDir.fileAt (rest.splitOn '/')) := by
  obtain ⟨names, hdir, hall, -⟩ := store.ctx.splitOn_dirPath dirPath
  unfold objects
  rw [hall, hdir, RamDir.fileAt_append _ (List.splitOn_ne_nil '/' rest)]

theorem dirAt_isSome_iff (dirPath : GoStr) (h : store.Sound) : (store.ctx.dirAt dirPath).isSome ↔
    store.ctx.keyPrefix ++ RamContext.dirKey dirPath = [] ∨
      store.objects.HasDir (store.ctx.keyPrefix ++ RamContext.dirKey dirPath) := by
  obtain ⟨names, hdir, hall, hnil⟩ := store.ctx.splitOn_dirPath dirPath
  rw [hdir, RamDir.find_isSome_iff store.ctx.wellFormed h.full, hnil]
  refine or_congr_right (exists_congr fun rest => exists_congr fun content => ?_)
  unfold objects
  rw [hall]

/-! ### A file goes -/

/-- A deleted file is one object fewer. -/
theorem objects_deleteFile (key : GoStr) (n m : UInt64) :
    (RamStore.mk (store.ctx.withoutFile ((key.splitOn '/').getLastD [])
      (key.splitOn '/').dropLast) n m).objects = Function.update store.objects key none := by
  funext key'
  show RamDir.fileAt (key'.splitOn '/') (RamDir.deleteFile _ _ store.ctx.rootDir) = _
  rw [RamDir.fileAt_deleteFile, RamContext.dirName_concat_fileName, Function.update_apply]
  refine if_congr ?_ rfl rfl
  constructor
  · exact GoStr.eq_of_splitOn
  · exact congrArg _

end RamStore

namespace Objects

/-- With an object fewer the counters are right. -/
theorem Counted.update {objects : Objects} {n m : UInt64} {key : GoStr} {content : List UInt8}
    (h : objects.Counted n m) (hkey : objects key = some content) :
    Counted (Function.update objects key none) (n - 1) (m - UInt64.ofNat content.length) := by
  obtain ⟨keys, hkeys, rfl, rfl⟩ := h
  have hmem : key ∈ keys := (hkeys key).mpr (by rw [hkey]; rfl)
  refine ⟨keys.erase key, fun key' => ?_, ?_, ?_⟩
  · rw [Finset.mem_erase, hkeys, Function.update_apply]
    split
    next heq => simp [heq]
    next hne => simp [hne]
  · rw [← Finset.card_erase_add_one hmem, UInt64.ofNat_add]
    exact UInt64.add_sub_cancel _ _
  · rw [← Finset.add_sum_erase keys _ hmem, hkey, UInt64.ofNat_add]
    have hrest : ∑ key' ∈ keys.erase key, ((Function.update objects key none key').getD []).length =
        ∑ key' ∈ keys.erase key, ((objects key').getD []).length := by
      refine Finset.sum_congr rfl fun key' hkey' => ?_
      rw [Function.update_of_ne (Finset.ne_of_mem_erase hkey')]
    rw [hrest, UInt64.add_comm, Option.getD_some, UInt64.add_sub_cancel]

end Objects

namespace RamStore

variable {store : RamStore} {cacheLineSize : UInt64} {timeNow : GoStr → ℕ}
  {filePath dirPath : GoStr} {pageLimit : ℕ → ℕ}

/-! ### Every call is answered -/

/-- `deleteFile` answers as the objects say. -/
theorem deleteFile_answers (h : store.Sound) :
    Objects.Answers store.ctx.keyPrefix pageLimit cacheLineSize timeNow store.objects
        (.deleteFile filePath) (store.deleteFile filePath).1 (store.deleteFile filePath).2.objects ∧
      (store.deleteFile filePath).2.Sound := by
  unfold deleteFile
  rw [fileContent?_eq, RamContext.findFullPathElements_file]
  cases hfile : store.objects (store.ctx.keyPrefix ++ filePath) with
  | none => exact ⟨.nothingToDelete hfile, h⟩
  | some content =>
      dsimp only
      constructor
      · rw [objects_deleteFile]
        exact .deleted hfile
      · refine ⟨h.full.deleteFile, ?_⟩
        rw [objects_deleteFile]
        exact h.counted.update hfile

/-- A range that a `UInt64` holds is read as it is. -/
theorem readFile_answers {offsetCacheLine : UInt64}
    (hrange : (offsetCacheLine.toNat + 1) * cacheLineSize.toNat < 2 ^ 64) :
    Objects.Answers store.ctx.keyPrefix pageLimit cacheLineSize timeNow store.objects
      (.readFile filePath offsetCacheLine) (store.readFile cacheLineSize filePath offsetCacheLine)
      store.objects := by
  unfold readFile
  rw [fileContent?_eq]
  cases hfile : store.objects (store.ctx.keyPrefix ++ filePath) with
  | none => exact .nothingToRead hfile
  | some content =>
      rw [Nat.add_mul, Nat.one_mul] at hrange
      have hoffset : (offsetCacheLine * cacheLineSize).toNat =
          offsetCacheLine.toNat * cacheLineSize.toNat := by
        rw [UInt64.toNat_mul, Nat.mod_eq_of_lt (by omega)]
      have hlimit : (offsetCacheLine * cacheLineSize + cacheLineSize).toNat =
          offsetCacheLine.toNat * cacheLineSize.toNat + cacheLineSize.toNat := by
        rw [UInt64.toNat_add, hoffset, Nat.mod_eq_of_lt hrange]
      have hdone : ∀ buf, buf = (content.drop (offsetCacheLine.toNat * cacheLineSize.toNat)).take
          cacheLineSize.toNat → Objects.Answers store.ctx.keyPrefix pageLimit cacheLineSize timeNow
            store.objects (.readFile filePath offsetCacheLine) (.readFileOutput [] buf)
            store.objects := by
        rintro buf rfl
        exact .read hfile
      dsimp only
      rw [hoffset, hlimit]
      generalize offsetCacheLine * cacheLineSize = offset at hoffset hlimit ⊢
      split
      next hpast =>
        -- the file ends in front of the range
        refine hdone _ ?_
        rw [List.drop_eq_nil_of_le hpast, List.take_nil]
        exact List.take_zero
      next hin =>
        split
        next hend =>
          -- the file ends in the range
          have hfits : content.length < 2 ^ 64 := by omega
          have hlength : (UInt64.ofNat content.length).toNat = content.length :=
            UInt64.toNat_ofNat_of_lt' hfits
          have hle : ¬UInt64.ofNat content.length < offset := by
            rw [UInt64.lt_iff_toNat_lt, hlength]
            omega
          rw [if_neg hle]
          refine hdone _ ?_
          rw [UInt64.toNat_sub_of_le _ _ (UInt64.not_lt.mp hle), hlength, hoffset,
            List.take_of_length_le (by simp), List.take_of_length_le (by simp; omega)]
        next hend =>
          have hle : ¬offset + cacheLineSize < offset := by
            rw [UInt64.lt_iff_toNat_lt, hlimit, hoffset]
            omega
          rw [if_neg hle]
          refine hdone _ ?_
          rw [UInt64.toNat_sub_of_le _ _ (UInt64.not_lt.mp hle), hlimit, hoffset,
            Nat.add_sub_cancel_left]

/-- `statDirectory` answers as the objects say. -/
theorem statDirectory_answers (h : store.Sound) :
    Objects.Answers store.ctx.keyPrefix pageLimit cacheLineSize timeNow store.objects
      (.statDirectory dirPath) (store.statDirectory dirPath) store.objects := by
  have hdir := dirAt_isSome_iff dirPath h
  unfold statDirectory
  rw [RamContext.ramDirLeaf_eq]
  cases hfind : store.ctx.dirAt dirPath with
  | none =>
      rw [hfind] at hdir
      have hnot := not_or.mp (hdir.not.mp (by simp))
      exact .noDirectory hnot.1 hnot.2
  | some dir =>
      rw [hfind] at hdir
      exact .directory (hdir.mp rfl)

/-- `statFile` answers as the objects say. -/
theorem statFile_answers (h : store.Sound) :
    Objects.Answers store.ctx.keyPrefix pageLimit cacheLineSize timeNow store.objects
      (.statFile filePath) (store.statFile (timeNow []) filePath) store.objects := by
  unfold statFile
  dsimp only
  rw [RamContext.findFullPathElements_file, fileContent?_eq]
  split
  next hname =>
    -- the path is one of a directory, and no file is without a name
    refine .noFile ?_
    have hname : ((store.ctx.keyPrefix ++ filePath).splitOn '/').getLastD [] = [] := hname
    unfold objects
    rw [← RamContext.dirName_concat_fileName, hname]
    exact RamDir.fileAt_noName h.full
  next =>
    cases hfile : store.objects (store.ctx.keyPrefix ++ filePath) with
    | none => exact .noFile hfile
    | some content => exact .file ⟨content, hfile, rfl⟩

/-- `listObjects` answers as the objects say. -/
theorem listObjects_answers (input : ListObjectsInput) :
    Objects.Answers store.ctx.keyPrefix store.ctx.pageLimit cacheLineSize timeNow store.objects
      (.listObjects input) (store.call cacheLineSize timeNow (.listObjects input)).1
      store.objects := by
  unfold call RamContext.listObjects
  dsimp only
  by_cases hboth : input.startAfter ≠ [] ∧ input.continuationToken ≠ []
  · rw [if_pos hboth]
    exact .twoStarts hboth.1 hboth.2
  · rw [if_neg hboth]
    have hstart : input.startAfter = [] ∨ input.continuationToken = [] := by
      rwa [not_and_or, not_not, not_not] at hboth
    cases htoken : RamContext.parseToken input.continuationToken with
    | error err => exact .noToken hstart htoken
    | ok n =>
        refine .listed hstart htoken ⟨store.ctx.entries_sorted.filter _, fun path size => ?_⟩
          (RamContext.fromPosition_objectsFrom _ input n)
        exact RamContext.mem_listed_iff

/-- The directories and the files of a directory are what the keys say. -/
theorem children_childrenAt (h : store.Sound) (dirPath : GoStr) :
    store.objects.Children (store.ctx.keyPrefix ++ RamContext.dirKey dirPath)
      (store.ctx.childrenAt dirPath) := by
  have hobject := store.objects_dir dirPath
  unfold RamContext.childrenAt
  cases hfind : store.ctx.dirAt dirPath with
  | none =>
      -- an object would be below the directory
      rw [hfind] at hobject
      refine ⟨[], [], rfl, List.Pairwise.nil, List.Pairwise.nil, fun name => ?_,
        fun name size => ?_⟩
      · refine iff_of_false (List.not_mem_nil) ?_
        rintro ⟨-, rest, content, hcontent⟩
        rw [List.append_assoc, List.append_assoc, hobject] at hcontent
        cases hcontent
      · refine iff_of_false (List.not_mem_nil) ?_
        rintro ⟨-, content, hcontent, -⟩
        rw [hobject] at hcontent
        cases hcontent
  | some dir =>
      rw [hfind] at hobject
      have hwf : dir.WellFormed := RamDir.wellFormed_of_find store.ctx.wellFormed hfind
      have hfull : dir.Full := h.full.find hfind
      obtain ⟨dirMap, fileMap⟩ := dir
      obtain ⟨hdirs, hfiles, hdir, hfile, -, hchild⟩ := hwf
      obtain ⟨hne, -, hchildFull⟩ := hfull
      have hlookup : ∀ {name child}, dirMap.lookup name = some child ↔ (name, child) ∈ dirMap :=
        RamDir.lookup_iff_mem (hdirs.imp ne_of_lt)
      refine ⟨dirMap.map Prod.fst, fileMap.map fun file => (file.1, file.2.length), ?_, hdirs, ?_,
        fun name => ?_, fun name size => ?_⟩
      · rw [List.map_map, List.map_map]
        rfl
      · rwa [List.map_map]
      · have hbelow : '/' ∉ name → ∀ rest : GoStr,
            store.objects (store.ctx.keyPrefix ++ RamContext.dirKey dirPath ++ name ++ ['/'] ++
              rest) = (dirMap.lookup name).bind (RamDir.fileAt (rest.splitOn '/')) := by
          intro hslash rest
          rw [List.append_assoc, List.append_assoc, List.singleton_append, hobject]
          exact RamDir.fileAt_dir hslash
        constructor
        · intro hmem
          obtain ⟨child, hchildMem, rfl⟩ := List.mem_map.mp hmem
          obtain ⟨rest, content, hcontent⟩ := RamDir.exists_fileAt (hchild child hchildMem)
            (hchildFull child hchildMem) (hne child hchildMem)
          refine ⟨hdir child hchildMem, rest, content, ?_⟩
          rw [hbelow (hdir child hchildMem), hlookup.mpr hchildMem]
          exact hcontent
        · rintro ⟨hslash, rest, content, hcontent⟩
          rw [hbelow hslash] at hcontent
          obtain ⟨child, hchild, -⟩ := Option.bind_eq_some_iff.mp hcontent
          exact List.mem_map_of_mem (f := Prod.fst) (hlookup.mp hchild)
      · have hfileAt : '/' ∉ name → store.objects (store.ctx.keyPrefix ++
            RamContext.dirKey dirPath ++ name) = fileMap.lookup name := by
          intro hslash
          rw [hobject]
          exact RamDir.fileAt_file hslash
        rw [List.mem_map]
        constructor
        · rintro ⟨file, hmem, heq⟩
          obtain ⟨rfl, rfl⟩ := Prod.mk.inj heq
          refine ⟨hfile file hmem, file.2, ?_, rfl⟩
          rw [hfileAt (hfile file hmem)]
          exact (RamDir.lookup_iff_mem (hfiles.imp ne_of_lt)).mpr hmem
        · rintro ⟨hslash, content, hcontent, rfl⟩
          rw [hfileAt hslash] at hcontent
          exact ⟨(name, content), RamDir.mem_of_lookup hcontent, rfl⟩

/-- `listDirectory` answers as the objects say. -/
theorem listDirectory_answers (h : store.Sound) (input : ListDirectoryInput) :
    Objects.Answers store.ctx.keyPrefix store.ctx.pageLimit cacheLineSize timeNow store.objects
      (.listDirectory input) (store.call cacheLineSize timeNow (.listDirectory input)).1
      store.objects := by
  unfold call RamContext.listDirectory
  dsimp only
  cases htoken : RamContext.parseToken input.continuationToken.toList with
  | error err => exact .noDirectoryToken htoken
  | ok n =>
      exact .children htoken (children_childrenAt h _)
        (RamContext.fromPosition_directoryFrom _ input n)

/-! ### Whole runs -/

/-- The ranges that the calls ask for are ones that a `UInt64` holds. -/
def InRange (cacheLineSize : UInt64) : RamCall → Prop
  | .readFile _ offsetCacheLine => (offsetCacheLine.toNat + 1) * cacheLineSize.toNat < 2 ^ 64
  | _ => True

/-- **One call**: its answer is that of the map, and what it leaves is sound. -/
theorem call_answers (timeNow : GoStr → ℕ) {c : RamCall} (h : store.Sound)
    (hrange : InRange cacheLineSize c) :
    Objects.Answers store.ctx.keyPrefix store.ctx.pageLimit cacheLineSize timeNow store.objects c
        (store.call cacheLineSize timeNow c).1 (store.call cacheLineSize timeNow c).2.objects ∧
      (store.call cacheLineSize timeNow c).2.Sound := by
  cases c with
  | deleteFile filePath => exact deleteFile_answers h
  | listDirectory input => exact ⟨listDirectory_answers h input, h⟩
  | listObjects input => exact ⟨listObjects_answers input, h⟩
  | readFile filePath offsetCacheLine => exact ⟨readFile_answers hrange, h⟩
  | statDirectory dirPath => exact ⟨statDirectory_answers h, h⟩
  | statFile filePath => exact ⟨statFile_answers h, h⟩

/-- No call changes how the backend is set up. -/
theorem call_setUp (store : RamStore) (cacheLineSize : UInt64) (timeNow : GoStr → ℕ)
    (c : RamCall) :
    (store.call cacheLineSize timeNow c).2.ctx.keyPrefix = store.ctx.keyPrefix ∧
      (store.call cacheLineSize timeNow c).2.ctx.pageLimit = store.ctx.pageLimit := by
  cases c with
  | deleteFile filePath =>
      simp only [call, deleteFile]
      split
      · exact ⟨rfl, rfl⟩
      · exact ⟨rfl, rfl⟩
  | _ => exact ⟨rfl, rfl⟩

/-- **A whole run** of calls is answered as the map answers it, and at its end the tree holds
no empty directory and the counters are right. -/
theorem run_answers (calls : List ((GoStr → ℕ) × RamCall)) (h : store.Sound)
    (hrange : ∀ c ∈ calls, InRange cacheLineSize c.2) :
    Objects.Run store.ctx.keyPrefix store.ctx.pageLimit cacheLineSize store.objects calls
        (run cacheLineSize calls store).1 (run cacheLineSize calls store).2.objects ∧
      (run cacheLineSize calls store).2.Sound := by
  induction calls generalizing store with
  | nil => exact ⟨.nil, h⟩
  | cons c calls ih =>
      obtain ⟨timeNow, c⟩ := c
      obtain ⟨hc, hcalls⟩ := List.forall_mem_cons.mp hrange
      obtain ⟨hanswer, hsound⟩ := call_answers timeNow h hc
      obtain ⟨hkeyPrefix, hlimit⟩ := store.call_setUp cacheLineSize timeNow c
      obtain ⟨hrun, hend⟩ := ih hsound hcalls
      rw [hkeyPrefix, hlimit] at hrun
      exact ⟨.cons hanswer hrun, hend⟩

/-- A directory that holds one object. -/
def oneDirectory : RamDir := .mk [(['a'], .mk [] [(['b'], [1, 2, 3])])] []

theorem oneDirectory_wellFormed : oneDirectory.WellFormed := by
  refine .mk (by decide) (by decide) (by simp) (by simp) (by decide) ?_
  intro child hmem
  obtain rfl := List.mem_singleton.mp hmem
  exact .mk (by decide) (by decide) (by simp) (by simp) (by decide) (by simp)

/-- A backend with one object, in a directory. -/
def oneObject : RamStore where
  ctx :=
    { RamContext.threeFiles with
      rootDir := oneDirectory
      wellFormed := oneDirectory_wellFormed
      objects_lt := by decide }
  curTotalObjects := 1
  curTotalObjectSpace := 3

/-- The sample store is sound. -/
theorem oneObject_sound : oneObject.Sound := by
  constructor
  · refine .mk (by simp [RamDir.isEmpty, RamDir.dirMap, RamDir.fileMap]) (by simp) ?_
    intro child hmem
    obtain rfl := List.mem_singleton.mp hmem
    exact .mk (by simp) (by simp) (by simp)
  · refine ⟨{['a', '/', 'b']}, fun key => ?_, rfl, ?_⟩
    · rw [Finset.mem_singleton]
      constructor
      · rintro rfl
        decide
      · intro hkey
        refine GoStr.eq_of_splitOn ?_
        have hsome : (RamDir.fileAt (key.splitOn '/') oneObject.ctx.rootDir).isSome := hkey
        generalize key.splitOn '/' = names at hsome
        show names = [['a'], ['b']]
        -- the root has no files, and its directory has no directories
        rcases names with - | ⟨name, - | ⟨name', names⟩⟩
        · cases hsome
        · cases hsome
        · by_cases hname : name = ['a']
          · subst hname
            rcases names with - | ⟨name'', names⟩
            · by_cases hname' : name' = ['b']
              · rw [hname']
              · have hbeq : (name' == ['b']) = false := beq_false_of_ne hname'
                simp [RamDir.fileAt, oneObject, oneDirectory, RamDir.dirMap, RamDir.fileMap,
                  List.lookup_cons, hbeq] at hsome
            · simp [RamDir.fileAt, oneObject, oneDirectory, RamDir.dirMap] at hsome
          · have hbeq : (name == ['a']) = false := beq_false_of_ne hname
            rw [RamDir.fileAt_cons name (by simp)] at hsome
            simp [oneObject, oneDirectory, RamDir.dirMap, List.lookup_cons, hbeq] at hsome
    · rw [Finset.sum_singleton]
      decide

/-- The second line of the object is read, the object goes, and its directory with it. -/
theorem run_answers_oneObject :
    (run 2 [(fun _ => 0, .readFile ['a', '/', 'b'] 1), (fun _ => 0, .deleteFile ['a', '/', 'b']),
        (fun _ => 0, .statDirectory ['a'])] oneObject).1 =
      [.readFileOutput [] [3], .deleteFileOutput, .error "directory not found"] ∧
    Objects.Run [] oneObject.ctx.pageLimit 2 oneObject.objects
      [(fun _ => 0, .readFile ['a', '/', 'b'] 1), (fun _ => 0, .deleteFile ['a', '/', 'b']),
        (fun _ => 0, .statDirectory ['a'])]
      [.readFileOutput [] [3], .deleteFileOutput, .error "directory not found"]
      (run 2 [(fun _ => 0, .readFile ['a', '/', 'b'] 1), (fun _ => 0, .deleteFile ['a', '/', 'b']),
        (fun _ => 0, .statDirectory ['a'])] oneObject).2.objects :=
  ⟨rfl, (run_answers _ oneObject_sound (by
    intro c hmem
    rcases List.mem_cons.mp hmem with rfl | hmem
    · show (1 + 1) * 2 < 2 ^ 64
      decide
    · rcases List.mem_pair.mp hmem with rfl | rfl
      · trivial
      · trivial)).1⟩

end RamStore

end MultiStorageFileSystem
