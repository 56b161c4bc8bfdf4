/-
MultiStorageClient/RamBackend.lean

The RAM backend: `listObjects` and `listDirectory` of `backend_ram.go`.

An object is found by the directories on its path (`fileAt`).  What `appendObjects`
lists below a directory is what is found there (`mem_entries`), each path once
(`nodup_paths`), whatever the clock says.
-/
import MultiStorageClient.GoText
import MultiStorageClient.RangeSplits
import MultiStorageClient.S3Listings

namespace MultiStorageFileSystem

/-! ### Directories -/

/-- `ramDirStruct` -/
inductive RamDir
  | mk (dirMap : List (GoStr × RamDir)) (fileMap : List (GoStr × List UInt8))

namespace RamDir

/-- The directories of a directory. -/
def dirMap : RamDir → List (GoStr × RamDir)
  | mk dirMap _ => dirMap

/-- The files of a directory. -/
def fileMap : RamDir → List (GoStr × List UInt8)
  | mk _ fileMap => fileMap

mutual

/-- `appendObjects`, which reads the clock once for each directory. -/
def appendObjects (timeNow : GoStr → ℤ) (thisDirPrefix : GoStr) (objectList : List ListedObject) :
    RamDir → List ListedObject
  | mk dirMap fileMap =>
      appendChildren timeNow thisDirPrefix (objectList ++ fileMap.map fun childFile =>
        ⟨thisDirPrefix ++ childFile.1, [], timeNow thisDirPrefix, childFile.2.length⟩) dirMap

/-- The loop of `appendObjects` over the directories. -/
def appendChildren (timeNow : GoStr → ℤ) (thisDirPrefix : GoStr) (objectList : List ListedObject) :
    List (GoStr × RamDir) → List ListedObject
  | [] => objectList
  | (childDirBasename, childDir) :: dirs =>
      appendChildren timeNow thisDirPrefix
        (appendObjects timeNow (thisDirPrefix ++ childDirBasename ++ ['/']) objectList
          childDir) dirs

end

/-- The directories on a path, as far as they are there: the loop of `findFullPathElements`. -/
def follow : List GoStr → RamDir → List RamDir
  | [], _ => []
  | dirNameElement :: dirName, lastRamDirElement =>
      match lastRamDirElement.dirMap.lookup dirNameElement with
      | none => []
      | some nextRamDirElement => nextRamDirElement :: follow dirName nextRamDirElement

/-- The maps have each name once, in order, and no name has a slash. -/
inductive WellFormed : RamDir → Prop
  | mk {dirMap : List (GoStr × RamDir)} {fileMap : List (GoStr × List UInt8)} :
      (dirMap.map Prod.fst).Pairwise (· < ·) → (fileMap.map Prod.fst).Pairwise (· < ·) →
      (∀ child ∈ dirMap, '/' ∉ child.1) → (∀ child ∈ fileMap, '/' ∉ child.1) →
      dirMap.length + fileMap.length < 2 ^ 63 → (∀ child ∈ dirMap, WellFormed child.2) →
      WellFormed (mk dirMap fileMap)

end RamDir

/-- `ramContextStruct`, with what its backend is set up with. -/
structure RamContext where
  keyPrefix : GoStr
  directoryPageSize : ℕ
  maxListPageSize : ℕ
  rootDir : RamDir
  slash_of_ne : keyPrefix ≠ [] → keyPrefix.hasSuffix ['/'] = true
  maxListPageSize_pos : 0 < maxListPageSize
  wellFormed : rootDir.WellFormed
  /-- A slice holds all the objects. -/
  objects_lt : (rootDir.appendObjects (fun _ => 0) [] []).length < 2 ^ 63

/-- Why a listing fails. -/
inductive RamListError
  /-- `[RAM] .startAfter and .continuationToken can't both be non-empty strings` -/
  | startAfterAndToken
  /-- `strconv.ParseUint(.., 16, 64) failed: ..` -/
  | parseUint (err : GoStr.NumError)
  deriving DecidableEq

namespace RamContext

variable (ctx : RamContext)

/-! ### The calls -/

/-- `canonicalDirPath` -/
def canonicalDirPath (dirPath : GoStr) : GoStr :=
  if ctx.keyPrefix = [] then
    if dirPath = [] then ['/']
    else if dirPath.hasSuffix ['/'] then '/' :: dirPath
    else '/' :: dirPath ++ ['/']
  else
    if dirPath = [] then '/' :: ctx.keyPrefix
    else if dirPath.hasSuffix ['/'] then '/' :: ctx.keyPrefix ++ dirPath
    else '/' :: ctx.keyPrefix ++ dirPath ++ ['/']

/-- `findFullPathElements`: `dirName`, `fileName` and `ramDir`. -/
def findFullPathElements (fullPath : GoStr) : List GoStr × GoStr × List RamDir :=
  let fullPathSplit := fullPath.splitOn '/'
  let dirName := fullPathSplit.tail.dropLast
  (dirName, fullPathSplit.getLastD [], ctx.rootDir :: ctx.rootDir.follow dirName)

/-- `ramDirLeaf` of a path, if all of it is there and it is one of a directory. -/
def ramDirLeaf (fullPath : GoStr) : Option RamDir :=
  let (dirName, fileName, ramDir) := ctx.findFullPathElements fullPath
  if dirName.length + 1 > ramDir.length ∨ fileName ≠ [] then none else ramDir.getLast?

/-- The place that a `continuationToken` stands for. -/
def parseToken (continuationToken : GoStr) : Except RamListError ℕ :=
  if continuationToken = [] then .ok 0
  else
    match GoStr.parseUint16 continuationToken with
    | (n, none) => .ok n
    | (_, some err) => .error (.parseUint err)

/-- The token of the place that is so much further on. -/
def nextToken (continuationToken numToReturn : ℕ) : GoStr :=
  GoStr.formatUint16 ((continuationToken + numToReturn) % 2 ^ 64)

/-- How many of so many elements are returned. -/
def numToReturn (maxItems num : ℕ) : ℕ :=
  let num := if maxItems ≠ 0 ∧ num > maxItems then maxItems else num
  let num := if ctx.directoryPageSize ≠ 0 ∧ num > ctx.directoryPageSize then ctx.directoryPageSize
    else num
  if num > ctx.maxListPageSize then ctx.maxListPageSize else num

/-- What `listObjects` returns once it has read the token. -/
def objectsFrom (timeNow : GoStr → ℤ) (input : ListObjectsInput) (continuationToken : ℕ) :
    ListObjectsOutput :=
  match ctx.ramDirLeaf (ctx.canonicalDirPath []) with
  | none => ⟨[], [], false⟩
  | some ramDirLeaf =>
      -- the tree is walked in full for each page, then sorted
      let object := (ramDirLeaf.appendObjects timeNow [] []).mergeSort fun a b => a.path ≤ b.path
      let object := if input.keyPrefix ≠ [] then
          object.filter fun candidate => candidate.path.hasPrefix input.keyPrefix
        else object
      -- startAfter is cut off before the token counts
      let object := if input.startAfter ≠ [] then
          object.dropWhile fun candidate => ¬input.startAfter < candidate.path
        else object
      let object := if continuationToken ≥ object.length then [] else object.drop continuationToken
      let numObjectToReturn := ctx.numToReturn input.maxItems object.length
      if numObjectToReturn < object.length then
        ⟨object.take numObjectToReturn, nextToken continuationToken numObjectToReturn, true⟩
      else ⟨object, [], false⟩

/-- `listObjects`; the clock is read for each request and each directory. -/
def listObjects (timeNow : ListObjectsInput → GoStr → ℤ) (input : ListObjectsInput) :
    Except RamListError ListObjectsOutput :=
  if input.startAfter ≠ [] ∧ input.continuationToken ≠ [] then .error .startAfterAndToken
  else (parseToken input.continuationToken).map (ctx.objectsFrom (timeNow input) input)

/-- What `listDirectory` returns once it has read the token. -/
def directoryFrom (timeNow : ℕ) (input : ListDirectoryInput) (continuationToken : ℕ) :
    ListDirectoryOutput :=
  match ctx.ramDirLeaf (ctx.canonicalDirPath input.dirPath.toList) with
  | none => ⟨[], [], "", false⟩
  | some ramDirLeaf =>
      let subdirectory := ramDirLeaf.dirMap.map fun dir => String.ofList dir.1
      let file := ramDirLeaf.fileMap.map fun file => (String.ofList file.1,
        ({ size := file.2.length, eTag := "", mTime := timeNow } : FileInfo))
      -- the token counts the subdirectories first, then the files
      let (subdirectory, file) :=
        if continuationToken ≥ subdirectory.length + file.length then ([], [])
        else if continuationToken ≥ subdirectory.length then
          ([], file.drop (continuationToken - subdirectory.length))
        else (subdirectory.drop continuationToken, file)
      let numDirFileToReturn := ctx.numToReturn input.maxItems (subdirectory.length + file.length)
      -- the page ends among the subdirectories
      if numDirFileToReturn < subdirectory.length then
        ⟨[], subdirectory.take numDirFileToReturn,
          String.ofList (nextToken continuationToken numDirFileToReturn), true⟩
      -- the page ends among the files
      else if numDirFileToReturn < subdirectory.length + file.length then
        ⟨file.take (numDirFileToReturn - subdirectory.length), subdirectory,
          String.ofList (nextToken continuationToken numDirFileToReturn), true⟩
      else ⟨file, subdirectory, "", false⟩

/-- `listDirectory`; the clock is read for each request. -/
def listDirectory (timeNow : ListDirectoryInput → ℕ) (input : ListDirectoryInput) :
    Except RamListError ListDirectoryOutput :=
  (parseToken input.continuationToken.toList).map (ctx.directoryFrom (timeNow input) input)

end RamContext

/-- The path of an object and its size. -/
def ListedObject.entry (object : ListedObject) : GoStr × ℕ := (object.path, object.size)

namespace RamDir

/-! ### What is below a directory -/

/-- The directory at the end of a path. -/
def find : List GoStr → RamDir → Option RamDir
  | [], dir => some dir
  | name :: names, dir => (dir.dirMap.lookup name).bind (find names)

/-- The content of the file at the end of a path. -/
def fileAt : List GoStr → RamDir → Option (List UInt8)
  | [], _ => none
  | [name], dir => dir.fileMap.lookup name
  | name :: names, dir => (dir.dirMap.lookup name).bind (fileAt names)

variable {dir child : RamDir} {dirMap : List (GoStr × RamDir)}
  {fileMap : List (GoStr × List UInt8)} {timeNow : GoStr → ℤ} {thisDirPrefix path : GoStr}
  {objectList : List ListedObject} {names names' : List GoStr} {content : List UInt8}

/-- Induction over the directories of a directory. -/
theorem tree_induction {motive : RamDir → Prop}
    (h : ∀ dirMap fileMap, (∀ child ∈ dirMap, motive child.2) → motive (mk dirMap fileMap))
    (dir : RamDir) : motive dir := by
  refine @RamDir.rec motive (fun dirMap => ∀ child ∈ dirMap, motive child.2)
    (fun child => motive child.2) ?_ ?_ ?_ ?_ dir
  · exact fun dirMap fileMap hdirs => h dirMap fileMap hdirs
  · exact fun _ => nofun
  · exact fun _ _ hchild hdirs => List.forall_mem_cons.mpr ⟨hchild, hdirs⟩
  · exact fun _ _ hchild => hchild

/-- The children append their objects one after the other. -/
theorem appendChildren_eq (h : ∀ child ∈ dirMap, ∀ thisDirPrefix objectList,
      appendObjects timeNow thisDirPrefix objectList child.2 =
        objectList ++ appendObjects timeNow thisDirPrefix [] child.2) :
    appendChildren timeNow thisDirPrefix objectList dirMap = objectList ++
      dirMap.flatMap fun child =>
        appendObjects timeNow (thisDirPrefix ++ child.1 ++ ['/']) [] child.2 := by
  induction dirMap generalizing objectList with
  | nil => rw [appendChildren, List.flatMap_nil, List.append_nil]
  | cons child dirMap ih =>
      obtain ⟨hchild, hdirs⟩ := List.forall_mem_cons.mp h
      rw [appendChildren, hchild, ih hdirs, List.flatMap_cons, List.append_assoc]

theorem appendObjects_append (thisDirPrefix : GoStr) (objectList : List ListedObject)
    (dir : RamDir) : appendObjects timeNow thisDirPrefix objectList dir =
      objectList ++ appendObjects timeNow thisDirPrefix [] dir := by
  induction dir using tree_induction generalizing thisDirPrefix objectList with
  | h dirMap fileMap ih =>
      have ih' := fun child hmem thisDirPrefix objectList => ih child hmem thisDirPrefix objectList
      rw [appendObjects, appendChildren_eq ih', appendObjects, appendChildren_eq ih',
        List.nil_append, List.append_assoc]

/-- **The objects** of a directory: its files, and those of its directories. -/
theorem appendObjects_mk : appendObjects timeNow thisDirPrefix [] (mk dirMap fileMap) =
    (fileMap.map fun file =>
      ⟨thisDirPrefix ++ file.1, [], timeNow thisDirPrefix, file.2.length⟩) ++
    dirMap.flatMap fun child =>
      appendObjects timeNow (thisDirPrefix ++ child.1 ++ ['/']) [] child.2 := by
  rw [appendObjects, appendChildren_eq fun child _ thisDirPrefix objectList =>
    appendObjects_append thisDirPrefix objectList child.2, List.nil_append]

/-- With distinct names, what is a member is found. -/
theorem lookup_iff_mem {β : Type} {l : List (GoStr × β)} (h : (l.map Prod.fst).Nodup)
    {name : GoStr} {b : β} : l.lookup name = some b ↔ (name, b) ∈ l := by
  induction l with
  | nil => exact ⟨nofun, nofun⟩
  | cons p l ih =>
      obtain ⟨name', b'⟩ := p
      obtain ⟨hp, hl⟩ := List.nodup_cons.mp h
      by_cases hname : name = name'
      · subst hname
        rw [List.lookup_cons_self, List.mem_cons]
        refine ⟨fun hb => .inl (by rw [Option.some.inj hb]), fun hmem => ?_⟩
        rcases hmem with heq | hmem
        · rw [(Prod.mk.inj heq).2]
        · exact absurd (List.mem_map_of_mem (f := Prod.fst) hmem) hp
      · have hbeq : (name == name') = false := beq_false_of_ne hname
        rw [List.lookup_cons, hbeq, List.mem_cons, ← ih hl]
        exact ⟨.inr, fun hmem => hmem.resolve_left fun heq => hname (Prod.mk.inj heq).1⟩

theorem fileAt_cons (name : GoStr) (hne : names ≠ []) :
    fileAt (name :: names) dir = (dir.dirMap.lookup name).bind (fileAt names) := by
  cases names with
  | nil => exact absurd rfl hne
  | cons _ _ => rfl

theorem fileAt_append (names : List GoStr) (hne : names' ≠ []) (dir : RamDir) :
    fileAt (names ++ names') dir = (find names dir).bind (fileAt names') := by
  induction names generalizing dir with
  | nil => rfl
  | cons name names ih =>
      rw [List.cons_append, fileAt_cons name (List.append_ne_nil_of_right_ne_nil _ hne), find,
        Option.bind_assoc]
      exact Option.bind_congr fun child _ => ih child

theorem fileAt_dir {name rest : GoStr} (h : '/' ∉ name) :
    fileAt ((name ++ '/' :: rest).splitOn '/') dir =
      (dir.dirMap.lookup name).bind (fileAt (rest.splitOn '/')) := by
  rw [List.splitOn_append_cons_self_of_not_mem h]
  exact fileAt_cons name (List.splitOn_ne_nil '/' rest)

theorem fileAt_file {name : GoStr} (h : '/' ∉ name) :
    fileAt (name.splitOn '/') dir = dir.fileMap.lookup name := by
  rw [List.splitOn_eq_singleton h]
  rfl

/-- **The listing** of a directory holds the files below it. -/
theorem mem_entries (h : dir.WellFormed) {size : ℕ} :
    (path, size) ∈ (appendObjects timeNow thisDirPrefix [] dir).map ListedObject.entry ↔
      ∃ rest content, path = thisDirPrefix ++ rest ∧
        fileAt (rest.splitOn '/') dir = some content ∧ content.length = size := by
  induction dir using tree_induction generalizing thisDirPrefix path with
  | h dirMap fileMap ih =>
      obtain ⟨hdirs, hfiles, hdir, hfile, -, hchild⟩ := h
      have hlookup : ∀ {name child}, dirMap.lookup name = some child ↔ (name, child) ∈ dirMap :=
        lookup_iff_mem (hdirs.imp ne_of_lt)
      have hlookup' : ∀ {name content}, fileMap.lookup name = some content ↔
          (name, content) ∈ fileMap := lookup_iff_mem (hfiles.imp ne_of_lt)
      rw [appendObjects_mk, List.map_append, List.mem_append, List.map_map, List.map_flatMap,
        List.mem_map, List.mem_flatMap]
      constructor
      -- an object is a file here, or an object of a subdirectory
      · rintro (⟨⟨name, content⟩, hmem, heq⟩ | ⟨⟨name, child⟩, hmem, hentry⟩)
        · obtain ⟨rfl, rfl⟩ := Prod.mk.inj heq
          exact ⟨name, content, rfl, (fileAt_file (hfile _ hmem)).trans (hlookup'.mpr hmem), rfl⟩
        · obtain ⟨rest, content, rfl, hcontent, hsize⟩ :=
            (ih _ hmem (hchild _ hmem)).mp hentry
          refine ⟨name ++ '/' :: rest, content, ?_, ?_, hsize⟩
          · rw [List.append_assoc, List.append_assoc, List.singleton_append]
          · exact (fileAt_dir (hdir _ hmem)).trans ((congrArg (Option.bind · _)
              (hlookup.mpr hmem)).trans hcontent)
      · rintro ⟨rest, content, rfl, hcontent, hsize⟩
        -- a path with a slash goes through the subdirectory of its first component
        by_cases hslash : '/' ∈ rest
        · obtain ⟨name, rest, rfl, hname⟩ := List.eq_append_cons_of_mem hslash
          rw [fileAt_dir hname] at hcontent
          obtain ⟨child, hmem, hcontent⟩ := Option.bind_eq_some_iff.mp hcontent
          have hmem := hlookup.mp hmem
          refine .inr
            ⟨_, hmem, (ih _ hmem (hchild _ hmem)).mpr ⟨rest, content, ?_, hcontent, hsize⟩⟩
          rw [List.append_assoc, List.append_assoc, List.singleton_append]
        · rw [fileAt_file hslash] at hcontent
          exact .inl ⟨_, hlookup'.mp hcontent, Prod.ext rfl hsize⟩

theorem name_inj {name name' rest rest' : GoStr} (h : '/' ∉ name) (h' : '/' ∉ name')
    (heq : name ++ '/' :: rest = name' ++ '/' :: rest') : name = name' := by
  have hsplit := congrArg (List.splitOn '/') heq
  rw [List.splitOn_append_cons_self_of_not_mem h, List.splitOn_append_cons_self_of_not_mem h']
    at hsplit
  exact (List.cons.inj hsplit).1

theorem prefix_of_mem (h : dir.WellFormed)
    (hmem : path ∈ (appendObjects timeNow thisDirPrefix [] dir).map ListedObject.path) :
    ∃ rest, path = thisDirPrefix ++ rest := by
  obtain ⟨o, ho, rfl⟩ := List.mem_map.mp hmem
  obtain ⟨rest, -, hrest, -⟩ :=
    (mem_entries h).mp (List.mem_map_of_mem (f := ListedObject.entry) ho)
  exact ⟨rest, hrest⟩

/-- The listing of a directory holds no path twice. -/
theorem nodup_paths (h : dir.WellFormed) :
    ((appendObjects timeNow thisDirPrefix [] dir).map ListedObject.path).Nodup := by
  induction dir using tree_induction generalizing thisDirPrefix with
  | h dirMap fileMap ih =>
      obtain ⟨hdirs, hfiles, hdir, hfile, -, hchild⟩ := h
      have hbelow : ∀ child ∈ dirMap, ∀ {path}, path ∈ (appendObjects timeNow
          (thisDirPrefix ++ child.1 ++ ['/']) [] child.2).map ListedObject.path →
          ∃ rest, path = thisDirPrefix ++ (child.1 ++ '/' :: rest) := by
        intro child hmem path hpath
        obtain ⟨rest, rfl⟩ := prefix_of_mem (hchild child hmem) hpath
        exact ⟨rest, by simp⟩
      rw [appendObjects_mk, List.map_append, List.map_map, List.map_flatMap, List.nodup_append',
        List.nodup_flatMap]
      refine ⟨?_, ⟨fun child hmem => ih child hmem (hchild child hmem), ?_⟩, ?_⟩
      · have hnames : ((fileMap.map Prod.fst).map (thisDirPrefix ++ ·)).Nodup :=
          List.Nodup.map (List.append_right_injective thisDirPrefix) (hfiles.imp ne_of_lt)
        rwa [List.map_map] at hnames
      · refine (List.pairwise_map.mp hdirs).imp_of_mem fun {child child'} hmem hmem' hlt => ?_
        intro path hpath hpath'
        obtain ⟨rest, rfl⟩ := hbelow child hmem hpath
        obtain ⟨rest', heq⟩ := hbelow child' hmem' hpath'
        exact hlt.ne (name_inj (hdir child hmem) (hdir child' hmem') (List.append_cancel_left heq))
      · intro path hpath hpath'
        obtain ⟨file, hfmem, rfl⟩ := List.mem_map.mp hpath
        obtain ⟨child, hmem, hpath'⟩ := List.mem_flatMap.mp hpath'
        obtain ⟨rest, heq⟩ := hbelow child hmem hpath'
        have hname : file.1 = child.1 ++ '/' :: rest := List.append_cancel_left heq
        exact hfile file hfmem (hname ▸ List.mem_append_right _ (List.mem_cons_self ..))

/-- How many objects there are depends neither on the clock nor on where the directory is. -/
theorem length_appendObjects (timeNow timeNow' : GoStr → ℤ) (thisDirPrefix thisDirPrefix' : GoStr) :
    (appendObjects timeNow thisDirPrefix [] dir).length =
      (appendObjects timeNow' thisDirPrefix' [] dir).length := by
  induction dir using tree_induction generalizing thisDirPrefix thisDirPrefix' with
  | h dirMap fileMap ih =>
      rw [appendObjects_mk, appendObjects_mk, List.length_append, List.length_append,
        List.length_map, List.length_map, List.length_flatMap, List.length_flatMap]
      congr 2
      exact List.map_congr_left fun child hmem => ih child hmem _ _

/-- A directory has no fewer objects than one below it. -/
theorem length_le_of_find (timeNow : GoStr → ℤ) (h : find names dir = some child) :
    (appendObjects timeNow [] [] child).length ≤ (appendObjects timeNow [] [] dir).length := by
  induction names generalizing dir with
  | nil => rw [Option.some.inj h]
  | cons name names ih =>
      obtain ⟨dirMap, fileMap⟩ := dir
      obtain ⟨next, hnext, hfind⟩ := Option.bind_eq_some_iff.mp h
      obtain ⟨l₁, l₂, hdirs, -⟩ := List.lookup_eq_some_iff.mp hnext
      change dirMap = _ at hdirs
      refine (ih hfind).trans ?_
      rw [appendObjects_mk, hdirs, List.flatMap_append, List.flatMap_cons, List.length_append,
        List.length_append, List.length_append,
        length_appendObjects timeNow timeNow ([] ++ name ++ ['/']) []]
      dsimp only
      omega

theorem wellFormed_of_find (h : dir.WellFormed) (hfind : find names dir = some child) :
    child.WellFormed := by
  induction names generalizing dir with
  | nil => exact Option.some.inj hfind ▸ h
  | cons name names ih =>
      obtain ⟨next, hnext, hnames⟩ := Option.bind_eq_some_iff.mp hfind
      obtain ⟨hdirs, -, -, -, -, hchild⟩ := h
      exact ih (hchild _ ((lookup_iff_mem (hdirs.imp ne_of_lt)).mp hnext)) hnames

theorem follow_of_find (h : find names dir = some child) :
    (follow names dir).length = names.length ∧ (dir :: follow names dir).getLast? = some child := by
  induction names generalizing dir with
  | nil => exact ⟨rfl, h⟩
  | cons name names ih =>
      obtain ⟨next, hnext, hnames⟩ := Option.bind_eq_some_iff.mp h
      obtain ⟨hlength, hlast⟩ := ih hnames
      rw [follow, hnext]
      exact ⟨congrArg Nat.succ hlength, List.getLast?_cons_cons.trans hlast⟩

/-- Where a directory is missing the way ends before it. -/
theorem follow_of_not_find (h : find names dir = none) :
    (follow names dir).length < names.length := by
  induction names generalizing dir with
  | nil => cases h
  | cons name names ih =>
      rw [follow]
      split
      · exact Nat.succ_pos _
      next next hnext =>
        rw [find, hnext] at h
        exact Nat.succ_lt_succ (ih h)

end RamDir

end MultiStorageFileSystem
