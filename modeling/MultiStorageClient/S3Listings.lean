/-
MultiStorageClient/S3Listings.lean

`listDirectory` of an S3 backend, and the names that it makes of the keys of the
objects.

`ListObjectsV2` with the delimiter `/` returns the keys behind a prefix that have
no further `/`, and of the others each beginning up to the first `/` that follows
(`ListsObjects`).  A file is then named like an object of the directory, and a
subdirectory like the next component of some key (`mem_fileNames_iff`,
`mem_subdirectoryNames_iff`): neither name has a `/`, and each list has a name
once, but nothing keeps a name from being empty or from being in both lists.
-/
import MultiStorageClient.FileTreeListings
import MultiStorageClient.GoStr

namespace MultiStorageFileSystem

/-- `types.Object` -/
structure S3Object where
  key : String
  eTag : String
  lastModified : ℕ
  size : ℕ

/-- `s3.ListObjectsV2Input` -/
structure S3ListObjectsV2Input where
  bucket : String
  keyPrefix : String
  delimiter : String
  continuationToken : Option String
  startAfter : Option String
  maxKeys : Option ℤ

/-- `s3.ListObjectsV2Output` -/
structure S3ListObjectsV2Output where
  contents : List S3Object
  commonPrefixes : List String
  nextContinuationToken : Option String

/-- `listDirectoryInputStruct` -/
structure ListDirectoryInput where
  continuationToken : String
  startAfter : String
  maxItems : ℕ
  dirPath : String

/-- What `DoReadDir` asks `listDirectory` for. -/
def listDirectoryInput (directoryPageSize : ℕ) (objectPath continuationToken : String) :
    ListDirectoryInput where
  continuationToken := continuationToken
  startAfter := ""
  maxItems := directoryPageSize
  dirPath := objectPath

/-- What an S3 backend is set up with. -/
structure S3Backend where
  bucketContainerName : String
  keyPrefix : String

namespace S3Backend

/-- `strings.TrimPrefix` -/
def trimPrefix (s p : String) : String := String.ofList (GoStr.trimPrefix s.toList p.toList)

/-- `strings.TrimSuffix` -/
def trimSuffix (s p : String) : String := String.ofList (GoStr.trimSuffix s.toList p.toList)

/-- `strings.TrimLeft(strings.TrimRight(eTag, "\""), "\"")` -/
def trimQuotes (eTag : String) : String :=
  String.ofList ((eTag.toList.rdropWhile (· = '"')).dropWhile (· = '"'))

variable (backend : S3Backend)

/-- The path with the prefix of the backend. -/
def fullDirPath (dirPath : String) : String := backend.keyPrefix ++ dirPath

/-- What `listDirectory` asks `ListObjectsV2` for. -/
def listObjectsV2Input (input : ListDirectoryInput) : S3ListObjectsV2Input where
  bucket := backend.bucketContainerName
  keyPrefix := backend.fullDirPath input.dirPath
  delimiter := "/"
  continuationToken := if input.continuationToken ≠ "" then some input.continuationToken else none
  startAfter := if input.startAfter ≠ "" then some (backend.keyPrefix ++ input.startAfter) else none
  maxKeys := if input.maxItems ≠ 0 then some (BitVec.ofNat 32 input.maxItems).toInt else none

/-- The page that `listDirectory` makes of what `ListObjectsV2` returns. -/
def page (fullDirPath : String) (output : S3ListObjectsV2Output) : ListDirectoryOutput where
  subdirectory := output.commonPrefixes.map fun s3CommonPrefix =>
    trimSuffix (trimPrefix s3CommonPrefix fullDirPath) "/"
  file := output.contents.map fun s3Object => (trimPrefix s3Object.key fullDirPath,
    { size := s3Object.size, eTag := trimQuotes s3Object.eTag, mTime := s3Object.lastModified })
  nextContinuationToken := output.nextContinuationToken.getD ""
  isTruncated := output.nextContinuationToken.getD "" != ""

/-- `listDirectory`; `none` if `ListObjectsV2` fails. -/
def listDirectory (listObjectsV2 : S3ListObjectsV2Input → Option S3ListObjectsV2Output)
    (input : ListDirectoryInput) : Option ListDirectoryOutput :=
  (listObjectsV2 (backend.listObjectsV2Input input)).map (page (backend.fullDirPath input.dirPath))

end S3Backend

/-! ### What `ListObjectsV2` returns -/

/-- The pages of a listing, from a token on. -/
inductive S3Pages (listObjectsV2 : S3ListObjectsV2Input → Option S3ListObjectsV2Output)
    (input : S3ListObjectsV2Input) : Option String → List S3ListObjectsV2Output → Prop
  | last {token : Option String} {output : S3ListObjectsV2Output} :
      listObjectsV2 { input with continuationToken := token } = some output →
      output.nextContinuationToken = none → S3Pages listObjectsV2 input token [output]
  | more {token : Option String} {next : String} {output : S3ListObjectsV2Output}
      {outputs : List S3ListObjectsV2Output} :
      listObjectsV2 { input with continuationToken := token } = some output →
      output.nextContinuationToken = some next → next ≠ "" →
      S3Pages listObjectsV2 input (some next) outputs →
      S3Pages listObjectsV2 input token (output :: outputs)

/-- What follows a prefix in a key. -/
def behind (dir key : String) : List Char := key.toList.drop dir.toList.length

/-- A key up to the first delimiter behind the prefix. -/
def commonPrefix (dir key : String) : String :=
  String.ofList (dir.toList ++ (behind dir key).takeWhile (· ≠ '/') ++ ['/'])

/-- The pages of a listing with a delimiter: the keys that have none behind the prefix,
and, once or more, the common prefixes of the others. -/
structure ListsObjects (objects : Finset String) (dir : String)
    (outputs : List S3ListObjectsV2Output) : Prop where
  contents : (((outputs.flatMap (·.contents)).map S3Object.key : List String) : Multiset String) =
    (objects.filter fun key => dir.toList <+: key.toList ∧ '/' ∉ behind dir key).val
  commonPrefixes : (outputs.flatMap (·.commonPrefixes)).toFinset =
    (objects.filter fun key => dir.toList <+: key.toList ∧ '/' ∈ behind dir key).image
      (commonPrefix dir)

/-- The pages that a reader of a directory gets are what `listDirectory` makes of those of
`ListObjectsV2`. -/
structure S3Backend.ListsDirectory (backend : S3Backend)
    (listObjectsV2 : S3ListObjectsV2Input → Option S3ListObjectsV2Output)
    (objects : Finset String) (directoryPageSize : ℕ) (objectPath : String)
    (list : String → ListDirectoryOutput) (outputs : List S3ListObjectsV2Output) : Prop where
  listed : ∀ token page, backend.listDirectory listObjectsV2
    (listDirectoryInput directoryPageSize objectPath token) = some page → list token = page
  pages : S3Pages listObjectsV2
    (backend.listObjectsV2Input (listDirectoryInput directoryPageSize objectPath "")) none outputs
  objects : ListsObjects objects (backend.fullDirPath objectPath) outputs

/-- An object has the name in the directory. -/
def IsFile (objects : Finset String) (dir name : String) : Prop :=
  dir ++ name ∈ objects ∧ '/' ∉ name.toList

/-- The name is a component of some key, behind the directory. -/
def IsSubdirectory (objects : Finset String) (dir name : String) : Prop :=
  (∃ key ∈ objects, (dir ++ name ++ "/").toList <+: key.toList) ∧ '/' ∉ name.toList

variable {objects : Finset String} {dir key name : String} {outputs : List S3ListObjectsV2Output}

theorem S3Backend.trimPrefix_append (dir name : String) : trimPrefix (dir ++ name) dir = name := by
  apply String.toList_injective
  unfold trimPrefix
  rw [String.toList_ofList, String.toList_append, GoStr.trimPrefix_append]

theorem S3Backend.append_trimPrefix (h : dir.toList <+: key.toList) :
    dir ++ trimPrefix key dir = key := by
  apply String.toList_injective
  unfold trimPrefix
  rw [String.toList_append, String.toList_ofList,
    GoStr.append_trimPrefix (GoStr.hasPrefix_iff.mpr h)]

theorem behind_append (dir name : String) : behind dir (dir ++ name) = name.toList := by
  unfold behind
  rw [String.toList_append, List.drop_left]

theorem prefix_append (dir name : String) : dir.toList <+: (dir ++ name).toList := by
  rw [String.toList_append]
  exact List.prefix_append ..

theorem fileNames_page (dir : String) (outputs : List S3ListObjectsV2Output) :
    fileNames (outputs.map (S3Backend.page dir)) =
      ((outputs.flatMap (·.contents)).map S3Object.key).map (S3Backend.trimPrefix · dir) := by
  unfold fileNames
  rw [List.flatMap_map, List.map_map, List.map_flatMap]
  congr 1
  funext output
  exact List.map_map ..

theorem ListsObjects.mem_contents (h : ListsObjects objects dir outputs) :
    key ∈ (outputs.flatMap (·.contents)).map S3Object.key ↔
      key ∈ objects ∧ dir.toList <+: key.toList ∧ '/' ∉ behind dir key := by
  rw [← Multiset.mem_coe, h.contents, Finset.mem_val, Finset.mem_filter]

/-- A name is listed as a file if it is that of an object. -/
theorem mem_fileNames_iff (h : ListsObjects objects dir outputs) :
    name ∈ fileNames (outputs.map (S3Backend.page dir)) ↔ IsFile objects dir name := by
  rw [fileNames_page, List.mem_map]
  constructor
  · rintro ⟨key, hkey, rfl⟩
    obtain ⟨hmem, hunder, hslash⟩ := h.mem_contents.mp hkey
    rw [← S3Backend.append_trimPrefix hunder, behind_append] at hslash
    refine ⟨?_, hslash⟩
    rw [S3Backend.append_trimPrefix hunder]
    exact hmem
  · rintro ⟨hmem, hslash⟩
    refine ⟨dir ++ name, h.mem_contents.mpr ⟨hmem, prefix_append dir name, ?_⟩,
      S3Backend.trimPrefix_append dir name⟩
    rw [behind_append]
    exact hslash

/-- No file is listed twice. -/
theorem fileNames_nodup (h : ListsObjects objects dir outputs) :
    (fileNames (outputs.map (S3Backend.page dir))).Nodup := by
  have hkeys : ((outputs.flatMap (·.contents)).map S3Object.key).Nodup := by
    rw [← Multiset.coe_nodup, h.contents]
    exact Finset.nodup _
  rw [fileNames_page]
  refine hkeys.map_on fun key hkey key' hkey' heq => ?_
  rw [← S3Backend.append_trimPrefix (h.mem_contents.mp hkey).2.1, heq,
    S3Backend.append_trimPrefix (h.mem_contents.mp hkey').2.1]

/-- A common prefix is trimmed to the component behind the directory. -/
theorem trim_commonPrefix (dir key : String) :
    S3Backend.trimSuffix (S3Backend.trimPrefix (commonPrefix dir key) dir) "/" =
      String.ofList ((behind dir key).takeWhile (· ≠ '/')) := by
  have hcommon : commonPrefix dir key =
      dir ++ String.ofList ((behind dir key).takeWhile (· ≠ '/') ++ ['/']) := by
    apply String.toList_injective
    rw [commonPrefix, String.toList_append, String.toList_ofList, String.toList_ofList,
      List.append_assoc]
  rw [hcommon, S3Backend.trimPrefix_append]
  unfold S3Backend.trimSuffix
  rw [String.toList_ofList, show "/".toList = ['/'] from rfl, GoStr.trimSuffix_append]

theorem takeWhile_slash {name : List Char} (h : '/' ∉ name) (rest : List Char) :
    (name ++ '/' :: rest).takeWhile (· ≠ '/') = name := by
  rw [List.takeWhile_append_of_pos, List.takeWhile_cons_of_neg (by decide), List.append_nil]
  exact fun c hc => decide_eq_true fun heq => h (heq ▸ hc)

/-- What comes up to the first `/`. -/
theorem takeWhile_slash_iff {l name : List Char} :
    '/' ∈ l ∧ l.takeWhile (· ≠ '/') = name ↔ (∃ rest, l = name ++ '/' :: rest) ∧ '/' ∉ name := by
  constructor
  · rintro ⟨hmem, rfl⟩
    obtain ⟨front, rest, rfl, hfront⟩ := List.eq_append_cons_of_mem hmem
    rw [takeWhile_slash hfront]
    exact ⟨⟨rest, rfl⟩, hfront⟩
  · rintro ⟨⟨rest, rfl⟩, hname⟩
    exact ⟨by simp, takeWhile_slash hname rest⟩

/-- A key has a name as a component behind the directory. -/
theorem component_iff : (dir ++ name ++ "/").toList <+: key.toList ↔
    dir.toList <+: key.toList ∧ ∃ rest, behind dir key = name.toList ++ '/' :: rest := by
  rw [String.toList_append, String.toList_append, List.append_assoc]
  unfold behind
  constructor
  · rintro ⟨rest, hrest⟩
    rw [← hrest, List.append_assoc]
    refine ⟨List.prefix_append .., rest, ?_⟩
    rw [List.drop_left, List.append_assoc]
    rfl
  · rintro ⟨⟨back, hback⟩, rest, hrest⟩
    rw [← hback, List.drop_left] at hrest
    exact ⟨rest, by rw [← hback, hrest]; simp⟩

/-- A name is listed as a subdirectory if it is a component of some key. -/
theorem mem_subdirectoryNames_iff (h : ListsObjects objects dir outputs) :
    name ∈ subdirectoryNames (outputs.map (S3Backend.page dir)) ↔
      IsSubdirectory objects dir name := by
  -- the names are the common prefixes without the directory
  have hlisted : name ∈ subdirectoryNames (outputs.map (S3Backend.page dir)) ↔
      ∃ p ∈ outputs.flatMap (·.commonPrefixes),
        S3Backend.trimSuffix (S3Backend.trimPrefix p dir) "/" = name := by
    rw [mem_subdirectoryNames]
    constructor
    · rintro ⟨page, hpage, hname⟩
      obtain ⟨output, houtput, rfl⟩ := List.mem_map.mp hpage
      obtain ⟨p, hp, rfl⟩ := List.mem_map.mp hname
      exact ⟨p, List.mem_flatMap.mpr ⟨output, houtput, hp⟩, rfl⟩
    · rintro ⟨p, hp, rfl⟩
      obtain ⟨output, houtput, hp⟩ := List.mem_flatMap.mp hp
      exact ⟨_, List.mem_map_of_mem houtput, List.mem_map_of_mem hp⟩
  -- the common prefixes are those of the keys below the directory with a slash behind it
  have hcommon : ∀ p, p ∈ outputs.flatMap (·.commonPrefixes) ↔
      ∃ key, (key ∈ objects ∧ dir.toList <+: key.toList ∧ '/' ∈ behind dir key) ∧
        commonPrefix dir key = p := by
    intro p
    rw [← List.mem_toFinset, h.commonPrefixes, Finset.mem_image]
    simp only [Finset.mem_filter]
  rw [hlisted]
  constructor
  · rintro ⟨p, hp, htrim⟩
    obtain ⟨key, ⟨hkey, hunder, hslash⟩, rfl⟩ := (hcommon p).mp hp
    rw [trim_commonPrefix, ← String.toList_inj, String.toList_ofList] at htrim
    obtain ⟨hrest, hname⟩ := takeWhile_slash_iff.mp ⟨hslash, htrim⟩
    exact ⟨⟨key, hkey, component_iff.mpr ⟨hunder, hrest⟩⟩, hname⟩
  -- a key below the name has the name as its common prefix
  · rintro ⟨⟨key, hkey, hcomponent⟩, hname⟩
    obtain ⟨hunder, hrest⟩ := component_iff.mp hcomponent
    obtain ⟨hslash, htake⟩ := takeWhile_slash_iff.mpr ⟨hrest, hname⟩
    refine ⟨commonPrefix dir key, (hcommon _).mpr ⟨key, ⟨hkey, hunder, hslash⟩, rfl⟩, ?_⟩
    rw [trim_commonPrefix, htake, String.ofList_toList]

/-- The pages that the listing of a directory splits into. -/
def S3Backend.dirPages (backend : S3Backend) (objectPath : String)
    (outputs : List S3ListObjectsV2Output) : List ListDirectoryOutput :=
  outputs.map (page (backend.fullDirPath objectPath))

/-- The pages of a directory split what S3 lists. -/
theorem S3Backend.ListsDirectory.split {backend : S3Backend}
    {listObjectsV2 : S3ListObjectsV2Input → Option S3ListObjectsV2Output} {directoryPageSize : ℕ}
    {objectPath : String} {list : String → ListDirectoryOutput}
    (h : backend.ListsDirectory listObjectsV2 objects directoryPageSize objectPath list outputs) :
    Split list "" (backend.dirPages objectPath outputs) := by
  -- the page that the code asks for is the one of the token
  have hpage : ∀ {token : Option String} {output : S3ListObjectsV2Output}, token ≠ some "" →
      listObjectsV2
        { backend.listObjectsV2Input (listDirectoryInput directoryPageSize objectPath "")
        with continuationToken := token } = some output →
      list (token.getD "") = page (backend.fullDirPath objectPath) output := by
    intro token output htoken hout
    have hsame : backend.listObjectsV2Input
        (listDirectoryInput directoryPageSize objectPath (token.getD "")) =
        { backend.listObjectsV2Input (listDirectoryInput directoryPageSize objectPath "") with
          continuationToken := token } := by
      unfold listObjectsV2Input listDirectoryInput
      congr 1
      cases token with
      | none => rfl
      | some s => exact if_pos fun hs => htoken (congrArg some hs)
    apply h.listed
    unfold listDirectory
    rw [hsame, hout]
    rfl
  have hfrom : ∀ {token : Option String} {outputs : List S3ListObjectsV2Output},
      S3Pages listObjectsV2
        (backend.listObjectsV2Input (listDirectoryInput directoryPageSize objectPath "")) token
          outputs →
      token ≠ some "" → Split list (token.getD "") (backend.dirPages objectPath outputs) := by
    intro token outputs hpages
    unfold dirPages
    induction hpages with
    | @last token output hout hnext =>
        intro htoken
        have hp := hpage htoken hout
        rw [List.map_singleton, ← hp]
        refine .last ?_
        rw [hp, page, hnext]
        rfl
    | @more token next output outputs hout hnext hne _ ih =>
        intro htoken
        have hp := hpage htoken hout
        have hnext' : (list (token.getD "")).nextContinuationToken = next := by
          rw [hp, page, hnext]
          rfl
        rw [List.map_cons, ← hp]
        refine .more ?_ (hnext' ▸ ih fun hc => hne (Option.some.inj hc))
        rw [hp, page, hnext]
        exact bne_iff_ne.mpr hne
  exact hfrom h.pages nofun

end MultiStorageFileSystem
