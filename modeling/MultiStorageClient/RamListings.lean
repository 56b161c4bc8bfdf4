/-
MultiStorageClient/RamListings.lean

The pages of `listObjects` and `listDirectory` of the RAM backend, put together by
their tokens.

A page is what comes from a place of the listing on (`fromPosition_objectsFrom`,
`fromPosition_directoryFrom`), and the token of the next page is the place where that
one begins.  But `listObjects` counts the place in what comes after `startAfter`, and
the request with the token reads it as a place in the whole listing, so that the pages
are right if they are not narrowed or there is but one of them (`objects_iff`).  And
`listDirectory` does not read `startAfter` (`directory_iff`).
-/
import MultiStorageClient.Paging
import MultiStorageClient.RamBackend

namespace MultiStorageFileSystem
namespace RamContext

variable (ctx : RamContext)

/-! ### What a listing should hold -/

/-- The path of a directory, with a slash at the end. -/
def dirKey (dirPath : GoStr) : GoStr :=
  if dirPath = [] ∨ dirPath.hasSuffix ['/'] then dirPath else dirPath ++ ['/']

/-- The directory at a path. -/
def dirAt (dirPath : GoStr) : Option RamDir :=
  RamDir.find ((ctx.keyPrefix ++ dirKey dirPath).splitOn '/').dropLast ctx.rootDir

/-- The content of the object at a path. -/
def fileAt (path : GoStr) : Option (List UInt8) :=
  RamDir.fileAt ((ctx.keyPrefix ++ path).splitOn '/') ctx.rootDir

/-- The greatest number of elements of a page. -/
def pageLimit (maxItems : ℕ) : ℕ :=
  let limit := if maxItems ≠ 0 then min maxItems ctx.maxListPageSize else ctx.maxListPageSize
  if ctx.directoryPageSize ≠ 0 then min ctx.directoryPageSize limit else limit

/-- The key comes after `startAfter`, if there is one. -/
def After (startAfter key : GoStr) : Prop := startAfter = [] ∨ startAfter < key

instance (startAfter key : GoStr) : Decidable (After startAfter key) :=
  inferInstanceAs (Decidable (_ ∨ _))

variable {ctx} {dirPath path : GoStr}

theorem pageLimit_pos (maxItems : ℕ) : 0 < ctx.pageLimit maxItems := by
  have := ctx.maxListPageSize_pos
  unfold pageLimit
  dsimp only
  split <;> split <;> omega

theorem numToReturn_eq (maxItems num : ℕ) :
    ctx.numToReturn maxItems num = min num (ctx.pageLimit maxItems) := by
  unfold numToReturn pageLimit
  dsimp only
  split_ifs <;> omega

theorem canonicalDirPath_eq (dirPath : GoStr) :
    ctx.canonicalDirPath dirPath = '/' :: (ctx.keyPrefix ++ dirKey dirPath) := by
  unfold canonicalDirPath dirKey
  split_ifs <;> simp_all

theorem splitOn_slash {p : GoStr} (h : p.hasSuffix ['/'] = true) :
    ∃ names : List GoStr, ∀ path, (p ++ path).splitOn '/' = names ++ path.splitOn '/' := by
  obtain ⟨q, rfl⟩ := GoStr.hasSuffix_iff.mp h
  refine ⟨q.splitOn '/', fun path => ?_⟩
  rw [List.append_assoc, List.singleton_append, List.splitOn_append_cons_self]

theorem splitOn_keyPrefix (ctx : RamContext) :
    ∃ names : List GoStr, ∀ path,
      (ctx.keyPrefix ++ path).splitOn '/' = names ++ path.splitOn '/' := by
  by_cases hnil : ctx.keyPrefix = []
  · exact ⟨[], fun path => by rw [hnil]; rfl⟩
  · exact splitOn_slash (ctx.slash_of_ne hnil)

/-- The key of a directory ends in a slash. -/
theorem splitOn_dirKey (dirPath : GoStr) :
    ∃ names : List GoStr, (dirKey dirPath).splitOn '/' = names ++ [[]] := by
  by_cases hnil : dirPath = []
  · exact ⟨[], by rw [hnil]; rfl⟩
  · have hslash : (dirKey dirPath).hasSuffix ['/'] = true := by
      unfold dirKey
      split
      next h => exact h.resolve_left hnil
      next => exact GoStr.hasSuffix_iff.mpr (List.suffix_append ..)
    obtain ⟨names, hnames⟩ := splitOn_slash hslash
    refine ⟨names, ?_⟩
    have hsplit := hnames []
    rwa [List.append_nil] at hsplit

/-- The walk down a path finds the directory at it. -/
theorem ramDirLeaf_eq (dirPath : GoStr) :
    ctx.ramDirLeaf (ctx.canonicalDirPath dirPath) = ctx.dirAt dirPath := by
  obtain ⟨names, hnames⟩ : ∃ names : List GoStr,
      (ctx.keyPrefix ++ dirKey dirPath).splitOn '/' = names ++ [[]] := by
    obtain ⟨names, hnamed⟩ := ctx.splitOn_keyPrefix
    obtain ⟨names', hdir⟩ := splitOn_dirKey dirPath
    exact ⟨names ++ names', by rw [hnamed, hdir, List.append_assoc]⟩
  have hsplit : ('/' :: (ctx.keyPrefix ++ dirKey dirPath)).splitOn '/' = [] :: (names ++ [[]]) := by
    rw [← hnames]
    exact List.splitOn_append_cons_self [] _
  have hfile : ([] :: (names ++ [[]])).getLastD [] = ([] : GoStr) := by
    rw [← List.cons_append, List.getLastD_concat]
  unfold ramDirLeaf findFullPathElements dirAt
  rw [canonicalDirPath_eq, hsplit, hnames]
  simp only [List.tail_cons, List.dropLast_concat, hfile, ne_eq, not_true_eq_false, or_false,
    List.length_cons]
  cases hfind : RamDir.find names ctx.rootDir with
  | none => exact if_pos (Nat.succ_lt_succ (RamDir.follow_of_not_find hfind))
  | some dir =>
      obtain ⟨hlength, hlast⟩ := RamDir.follow_of_find hfind
      rw [if_neg (by omega), hlast]

theorem fileAt_eq (path : GoStr) :
    ctx.fileAt path = (ctx.dirAt []).bind (RamDir.fileAt (path.splitOn '/')) := by
  obtain ⟨names, hnamed⟩ := ctx.splitOn_keyPrefix
  have hdir : ((ctx.keyPrefix ++ dirKey []).splitOn '/').dropLast = names := by
    rw [hnamed]
    exact List.dropLast_concat
  unfold fileAt dirAt
  rw [hdir, hnamed, RamDir.fileAt_append _ (List.splitOn_ne_nil '/' path)]

/-! ### The objects -/

variable (ctx) in
/-- The objects below the backend's directory, in the order of their paths. -/
def entries : List (GoStr × ℕ) :=
  match ctx.dirAt [] with
  | none => []
  | some dir => ((dir.appendObjects (fun _ => 0) [] []).map ListedObject.entry).mergeSort
      fun a b => a.1 ≤ b.1

/-- The entries are the files with their sizes. -/
theorem mem_entries {size : ℕ} :
    (path, size) ∈ ctx.entries ↔ ∃ content, ctx.fileAt path = some content ∧
      content.length = size := by
  unfold entries
  rw [fileAt_eq]
  cases hdir : ctx.dirAt [] with
  | none => exact ⟨nofun, nofun⟩
  | some dir =>
      rw [List.mem_mergeSort, RamDir.mem_entries (RamDir.wellFormed_of_find ctx.wellFormed hdir)]
      constructor
      · rintro ⟨rest, content, rfl, h⟩
        exact ⟨content, h⟩
      · rintro ⟨content, h⟩
        exact ⟨path, content, rfl, h⟩

/-- The entries are in order. -/
theorem entries_sorted (ctx : RamContext) : ctx.entries.Pairwise fun a b => a.1 < b.1 := by
  unfold entries
  cases hdir : ctx.dirAt [] with
  | none => exact List.Pairwise.nil
  | some dir =>
      have hle : (((dir.appendObjects (fun _ => 0) [] []).map ListedObject.entry).mergeSort
          fun a b => a.1 ≤ b.1).Pairwise fun a b => a.1 ≤ b.1 := by
        have hsort := @List.pairwise_mergeSort (GoStr × ℕ) (fun a b => a.1 ≤ b.1)
          (fun a b c => by simpa using le_trans) (fun a b => by simpa using le_total a.1 b.1)
          ((dir.appendObjects (fun _ => 0) [] []).map ListedObject.entry)
        simpa using hsort
      have hnodup : ((dir.appendObjects (fun _ => 0) [] []).map ListedObject.path).Nodup :=
        RamDir.nodup_paths (RamDir.wellFormed_of_find ctx.wellFormed hdir)
      have hne : (((dir.appendObjects (fun _ => 0) [] []).map ListedObject.entry).mergeSort
          fun a b => a.1 ≤ b.1).Pairwise fun a b => a.1 ≠ b.1 := by
        have hperm := (List.mergeSort_perm ((dir.appendObjects (fun _ => 0) [] []).map
          ListedObject.entry) fun a b => a.1 ≤ b.1).map Prod.fst
        rw [List.map_map] at hperm
        exact List.pairwise_map.mp (hperm.symm.nodup hnodup)
      exact (hle.and hne).imp fun h => lt_of_le_of_ne h.1 h.2

theorem length_entries_lt (ctx : RamContext) : ctx.entries.length < 2 ^ 63 := by
  unfold entries
  cases hdir : ctx.dirAt [] with
  | none => exact Nat.two_pow_pos 63
  | some dir =>
      rw [List.length_mergeSort, List.length_map]
      exact (RamDir.length_le_of_find _ hdir).trans_lt ctx.objects_lt

variable (ctx) in
/-- The objects of a listing: those with the prefix that come after the key. -/
def listed (keyPrefix startAfter : GoStr) : List (GoStr × ℕ) :=
  ctx.entries.filter fun entry => entry.1.hasPrefix keyPrefix ∧ After startAfter entry.1

theorem listed_filter (keyPrefix startAfter : GoStr) : ctx.listed keyPrefix startAfter =
    (ctx.entries.filter fun entry => entry.1.hasPrefix keyPrefix).filter
      fun entry => After startAfter entry.1 := by
  unfold listed
  rw [List.filter_filter]
  exact List.filter_congr fun entry _ => by
    rw [Bool.decide_and, Bool.decide_eq_true, Bool.and_comm]

theorem listed_nil (keyPrefix : GoStr) : ctx.listed keyPrefix [] =
    ctx.entries.filter fun entry => entry.1.hasPrefix keyPrefix := by
  rw [listed_filter]
  exact List.filter_eq_self.mpr fun _ _ => decide_eq_true (.inl rfl)

end RamContext

/-- The token of the next page, if there is one. -/
def ListObjectsOutput.next (output : ListObjectsOutput) : Option GoStr :=
  if output.isTruncated then some output.nextContinuationToken else none

/-- The keys of a page with their sizes. -/
def ListObjectsOutput.entries (output : ListObjectsOutput) : List (GoStr × ℕ) :=
  output.object.map ListedObject.entry

namespace RamContext

variable {ctx : RamContext}

/-- In order, what is not in front of the key comes after it. -/
theorem dropWhile_eq {startAfter : GoStr} {l : List (GoStr × ℕ)}
    (h : l.Pairwise fun a b => a.1 < b.1) :
    (l.dropWhile fun entry => ¬startAfter < entry.1) =
      l.filter fun entry => startAfter < entry.1 := by
  induction l with
  | nil => rfl
  | cons entry l ih =>
      obtain ⟨hhead, htail⟩ := List.pairwise_cons.mp h
      by_cases hlt : startAfter < entry.1
      · rw [List.dropWhile_cons_of_neg (by simpa using hlt), List.filter_eq_self.mpr]
        intro e he
        rcases List.mem_cons.mp he with rfl | he
        · exact decide_eq_true hlt
        · exact decide_eq_true (hlt.trans (hhead e he))
      · rw [List.dropWhile_cons_of_pos (by simpa using hlt), ih htail,
          List.filter_cons_of_neg (by simpa using hlt)]

/-- The sizes of the objects do not depend on the clock. -/
theorem map_entry_appendObjects (timeNow timeNow' : GoStr → ℤ) (thisDirPrefix : GoStr)
    (dir : RamDir) :
    (dir.appendObjects timeNow thisDirPrefix []).map ListedObject.entry =
      (dir.appendObjects timeNow' thisDirPrefix []).map ListedObject.entry := by
  induction dir using RamDir.tree_induction generalizing thisDirPrefix with
  | h dirMap fileMap ih =>
      rw [RamDir.appendObjects_mk, RamDir.appendObjects_mk, List.map_append, List.map_append,
        List.map_map, List.map_map, List.map_flatMap, List.map_flatMap]
      congr 1
      exact List.flatMap_congr fun child hmem => ih child hmem _

theorem map_entry_sorted (timeNow : GoStr → ℤ) {dir : RamDir} (hdir : ctx.dirAt [] = some dir) :
    ((dir.appendObjects timeNow [] []).mergeSort fun a b => a.path ≤ b.path).map
      ListedObject.entry = ctx.entries := by
  unfold entries
  rw [hdir]
  dsimp only
  rw [← map_entry_appendObjects timeNow fun _ => 0]
  exact List.map_mergeSort fun _ _ _ _ => rfl

/-- What `listObjects` takes a page from, once the keys are left out that are not asked for. -/
theorem map_entry_narrowed {object : List ListedObject}
    (h : object.map ListedObject.entry = ctx.entries) (input : ListObjectsInput) :
    ((fun object : List ListedObject => if input.startAfter ≠ [] then
        object.dropWhile fun candidate => ¬input.startAfter < candidate.path else object)
      (if input.keyPrefix ≠ [] then
        object.filter fun candidate => candidate.path.hasPrefix input.keyPrefix
        else object)).map ListedObject.entry = ctx.listed input.keyPrefix input.startAfter := by
  have hnamed : (if input.keyPrefix ≠ [] then
        object.filter fun candidate => candidate.path.hasPrefix input.keyPrefix
        else object).map ListedObject.entry =
      ctx.entries.filter fun entry => entry.1.hasPrefix input.keyPrefix := by
    split
    · rw [← h, List.filter_map]
      rfl
    next hnil =>
      rw [not_not] at hnil
      rw [h, hnil]
      exact (List.filter_eq_self.mpr fun _ _ => rfl).symm
  rw [listed_filter, ← hnamed]
  generalize hobject : (if input.keyPrefix ≠ [] then
    object.filter fun candidate => candidate.path.hasPrefix input.keyPrefix else object) = narrowed
  rw [hobject] at hnamed
  dsimp only
  split
  -- with a start the objects before it are dropped as well
  next hne =>
    have hdrop : (narrowed.dropWhile fun candidate => ¬input.startAfter < candidate.path).map
        ListedObject.entry = (narrowed.map ListedObject.entry).dropWhile
          fun entry => ¬input.startAfter < entry.1 := by
      rw [List.dropWhile_map]
      rfl
    rw [hdrop, dropWhile_eq (hnamed ▸ ctx.entries_sorted.filter _)]
    exact List.filter_congr fun entry _ => by simp [After, hne]
  -- without one all are left
  next hnil =>
    rw [not_not] at hnil
    exact (List.filter_eq_self.mpr fun entry _ => decide_eq_true (.inl hnil)).symm

/-- A page of the objects that are asked for. -/
theorem fromPosition_objects {object : List ListedObject} {listed : List (GoStr × ℕ)} {limit n : ℕ}
    (h : object.map ListedObject.entry = listed) (hlt : listed.length < 2 ^ 63) :
    Pages.FromPosition ListObjectsOutput.next ListObjectsOutput.entries GoStr.formatUint16 listed
      limit n (if min (object.drop n).length limit < (object.drop n).length then
          ⟨(object.drop n).take (min (object.drop n).length limit),
            nextToken n (min (object.drop n).length limit), true⟩
        else ⟨object.drop n, [], false⟩) := by
  have hlength : (object.drop n).length = listed.length - n := by
    rw [List.length_drop, ← h, List.length_map]
  unfold Pages.FromPosition
  rw [hlength]
  split
  next hmore =>
    have hmin : min (listed.length - n) limit = limit := by omega
    refine ⟨?_, ?_⟩
    · show (((object.drop n).take _).map ListedObject.entry) = _
      rw [hmin, List.map_take, List.map_drop, h]
    · rw [if_pos (by omega), hmin]
      show some (nextToken n limit) = _
      unfold nextToken
      rw [Nat.mod_eq_of_lt (by omega)]
  next hlast =>
    refine ⟨?_, ?_⟩
    · show ((object.drop n).map ListedObject.entry) = _
      rw [List.map_drop, h, List.take_of_length_le]
      rw [List.length_drop]
      omega
    · rw [if_neg (by omega)]
      rfl

/-- A page of objects is one of the listed entries. -/
theorem fromPosition_objectsFrom (timeNow : GoStr → ℤ) (input : ListObjectsInput) (n : ℕ) :
    Pages.FromPosition ListObjectsOutput.next ListObjectsOutput.entries GoStr.formatUint16
      (ctx.listed input.keyPrefix input.startAfter) (ctx.pageLimit input.maxItems) n
      (ctx.objectsFrom timeNow input n) := by
  have hlt : (ctx.listed input.keyPrefix input.startAfter).length < 2 ^ 63 :=
    (List.length_filter_le _ _).trans_lt ctx.length_entries_lt
  unfold objectsFrom
  rw [ramDirLeaf_eq]
  cases hdir : ctx.dirAt [] with
  | none =>
      have hnil : ctx.listed input.keyPrefix input.startAfter = [] := by
        unfold listed entries
        rw [hdir]
        rfl
      rw [hnil]
      exact ⟨by rw [List.drop_nil, List.take_nil]; rfl, (if_neg (Nat.not_lt_zero _)).symm⟩
  | some dir =>
      have hobject := map_entry_narrowed (map_entry_sorted timeNow hdir) input
      dsimp only at hobject ⊢
      generalize (if input.startAfter ≠ [] then _ else _ : List ListedObject) = object at hobject ⊢
      have hdrop : (if n ≥ object.length then [] else object.drop n) = object.drop n := by
        split
        next hle => exact (List.drop_eq_nil_of_le hle).symm
        · rfl
      rw [hdrop, numToReturn_eq]
      exact fromPosition_objects hobject hlt

/-! ### The pages of `listObjects` -/

/-- What is asked for with a token: the first request alone has `startAfter`. -/
def objectsRequest (keyPrefix startAfter : GoStr) (maxItems : ℕ) (continuationToken : GoStr) :
    ListObjectsInput where
  keyPrefix := keyPrefix
  startAfter := if continuationToken ≠ [] then [] else startAfter
  continuationToken := continuationToken
  maxItems := maxItems

variable (ctx) in
/-- A page of `listObjects`. -/
def objectsPage (timeNow : ListObjectsInput → GoStr → ℤ) (keyPrefix startAfter : GoStr)
    (maxItems : ℕ) (continuationToken : GoStr) : Option ListObjectsOutput :=
  (ctx.listObjects timeNow
    (objectsRequest keyPrefix startAfter maxItems continuationToken)).toOption

variable (ctx) in
/-- The objects are those with the prefix that come after the key, in order and each once. -/
structure ListsObjects (keyPrefix startAfter : GoStr) (objects : List ListedObject) : Prop where
  sorted : objects.Pairwise fun a b => a.path < b.path
  mem : ∀ path size, (∃ object ∈ objects, object.path = path ∧ object.size = size) ↔
    (path.hasPrefix keyPrefix = true ∧ After startAfter path) ∧
      ∃ content, ctx.fileAt path = some content ∧ content.length = size

variable {keyPrefix startAfter : GoStr} {maxItems n : ℕ}
  {timeNow : ListObjectsInput → GoStr → ℤ}

theorem parseToken_formatUint16 (h : n < 2 ^ 64) : parseToken (GoStr.formatUint16 n) = .ok n := by
  unfold parseToken
  rw [if_neg (GoStr.formatUint16_ne_nil n), GoStr.parseUint16_formatUint16 h]

theorem objectsPage_first : ctx.objectsPage timeNow keyPrefix startAfter maxItems [] =
    some (ctx.objectsFrom (timeNow ⟨keyPrefix, startAfter, [], maxItems⟩)
      ⟨keyPrefix, startAfter, [], maxItems⟩ 0) := by
  unfold objectsPage listObjects
  rw [if_neg (fun h => h.2 rfl)]
  rfl

/-- The page behind a token starts at the token's position. -/
theorem objectsPage_token (h : n < 2 ^ 64) :
    ctx.objectsPage timeNow keyPrefix startAfter maxItems (GoStr.formatUint16 n) =
      some (ctx.objectsFrom (timeNow ⟨keyPrefix, [], GoStr.formatUint16 n, maxItems⟩)
        ⟨keyPrefix, [], GoStr.formatUint16 n, maxItems⟩ n) := by
  have hrequest : objectsRequest keyPrefix startAfter maxItems (GoStr.formatUint16 n) =
      ⟨keyPrefix, [], GoStr.formatUint16 n, maxItems⟩ := by
    unfold objectsRequest
    rw [if_pos (GoStr.formatUint16_ne_nil n)]
  unfold objectsPage listObjects
  rw [hrequest, if_neg (fun h => h.1 rfl), parseToken_formatUint16 h]
  rfl

variable (ctx timeNow keyPrefix startAfter maxItems) in
/-- **The pages** of `listObjects`: after the first one they go on in the whole listing. -/
theorem pages_objects : ∃ pages,
    Pages (ctx.objectsPage timeNow keyPrefix startAfter maxItems) ListObjectsOutput.next [] pages ∧
      pages.flatMap ListObjectsOutput.entries =
        (ctx.listed keyPrefix startAfter).take (ctx.pageLimit maxItems) ++
          if ctx.pageLimit maxItems < (ctx.listed keyPrefix startAfter).length then
            (ctx.listed keyPrefix []).drop (ctx.pageLimit maxItems) else [] := by
  have hle : (ctx.listed keyPrefix startAfter).length ≤ (ctx.listed keyPrefix []).length := by
    rw [listed_filter, listed_nil]
    exact List.length_filter_le _ _
  -- the tokens are numbers that fit
  have hfits : ∀ n ≤ (ctx.listed keyPrefix []).length, n < 2 ^ 64 := by
    intro n hn
    have hlt := (hn.trans (List.length_filter_le _ _)).trans_lt ctx.length_entries_lt
    exact hlt.trans (Nat.pow_lt_pow_right (by decide) (by decide))
  obtain ⟨hitems, hnext⟩ := ctx.fromPosition_objectsFrom
    (timeNow ⟨keyPrefix, startAfter, [], maxItems⟩) ⟨keyPrefix, startAfter, [], maxItems⟩ 0
  rw [Nat.zero_add, List.drop_zero] at *
  split at hnext
  -- the first page leaves some, which the token pages go on with
  next hmore =>
    obtain ⟨pages, hpages, hentries⟩ : ∃ pages, Pages (ctx.objectsPage timeNow keyPrefix startAfter
        maxItems) ListObjectsOutput.next (GoStr.formatUint16 (ctx.pageLimit maxItems)) pages ∧
        pages.flatMap ListObjectsOutput.entries =
          (ctx.listed keyPrefix []).drop (ctx.pageLimit maxItems) :=
      Pages.of_positions (ctx.pageLimit_pos maxItems)
        (fun n hn => ⟨_, objectsPage_token (hfits n hn), ctx.fromPosition_objectsFrom _ _ n⟩)
        (hmore.le.trans hle)
    refine ⟨_ :: pages, .more objectsPage_first hnext hpages, ?_⟩
    rw [List.flatMap_cons, hitems, hentries, if_pos hmore]
  -- the first page is all
  next hlast =>
    refine ⟨[_], .last objectsPage_first hnext, ?_⟩
    rw [List.flatMap_singleton, hitems, if_neg hlast, List.append_nil]

theorem mem_listed_iff {entry : GoStr × ℕ} : entry ∈ ctx.listed keyPrefix startAfter ↔
    (entry.1.hasPrefix keyPrefix = true ∧ After startAfter entry.1) ∧
      ∃ content, ctx.fileAt entry.1 = some content ∧ content.length = entry.2 := by
  unfold listed
  rw [List.mem_filter, mem_entries, decide_eq_true_iff, and_comm]

/-- The objects listed are those with the prefix, behind the start. -/
theorem listsObjects_iff {objects : List ListedObject} :
    ctx.ListsObjects keyPrefix startAfter objects ↔
    objects.map ListedObject.entry = ctx.listed keyPrefix startAfter := by
  have hobject : ∀ path size, (path, size) ∈ objects.map ListedObject.entry ↔
      ∃ object ∈ objects, object.path = path ∧ object.size = size := by
    intro path size
    rw [List.mem_map]
    simp only [ListedObject.entry, Prod.mk.injEq]
  have hsorted : (ctx.listed keyPrefix startAfter).Pairwise fun a b => a.1 < b.1 :=
    ctx.entries_sorted.filter _
  constructor
  · intro h
    have hasymm : Std.Asymm fun a b : GoStr × ℕ => a.1 < b.1 := ⟨fun _ _ => lt_asymm⟩
    refine List.Pairwise.eq_of_mem_iff (List.pairwise_map.mpr h.sorted) hsorted fun {entry} => ?_
    obtain ⟨path, size⟩ := entry
    rw [hobject, mem_listed_iff, h.mem]
  · intro heq
    rw [← heq, List.pairwise_map] at hsorted
    refine ⟨hsorted, fun path size => ?_⟩
    rw [← hobject, heq, mem_listed_iff]

theorem map_entry_flatMap (pages : List ListObjectsOutput) :
    (pages.flatMap ListObjectsOutput.object).map ListedObject.entry =
      pages.flatMap ListObjectsOutput.entries := by
  rw [List.map_flatMap]
  rfl

variable (ctx keyPrefix startAfter) in
/-- The paths that a listing should hold. -/
def asked : Set GoStr :=
  {path | (path.hasPrefix keyPrefix = true ∧ After startAfter path) ∧ (ctx.fileAt path).isSome}

/-- The listing has an entry for each path that it should hold. -/
theorem ncard_asked : (ctx.asked keyPrefix startAfter).ncard =
    (ctx.listed keyPrefix startAfter).length := by
  have hnodup : ((ctx.listed keyPrefix startAfter).map Prod.fst).Nodup :=
    (List.pairwise_map.mpr ((ctx.entries_sorted.filter _).imp ne_of_lt))
  have hset : ctx.asked keyPrefix startAfter =
      ((ctx.listed keyPrefix startAfter).map Prod.fst).toFinset := by
    ext path
    rw [List.coe_toFinset]
    constructor
    · rintro ⟨hasked, hfile⟩
      obtain ⟨content, hcontent⟩ := Option.isSome_iff_exists.mp hfile
      exact List.mem_map.mpr ⟨(path, content.length),
        mem_listed_iff.mpr ⟨hasked, content, hcontent, rfl⟩, rfl⟩
    · intro hmem
      obtain ⟨entry, hentry, rfl⟩ := List.mem_map.mp hmem
      obtain ⟨hasked, content, hcontent, -⟩ := mem_listed_iff.mp hentry
      exact ⟨hasked, Option.isSome_iff_exists.mpr ⟨content, hcontent⟩⟩
  rw [hset, Set.ncard_coe_finset, List.toFinset_card_of_nodup hnodup, List.length_map]

/-- **`listObjects`** lists what comes after the key if nothing comes in front of it or at it,
or if the first page holds everything. -/
theorem objects_iff : (∃ pages,
      Pages (ctx.objectsPage timeNow keyPrefix startAfter maxItems) ListObjectsOutput.next []
        pages ∧
      ctx.ListsObjects keyPrefix startAfter (pages.flatMap ListObjectsOutput.object)) ↔
    (∀ path, path.hasPrefix keyPrefix = true → (ctx.fileAt path).isSome → After startAfter path) ∨
      (ctx.asked keyPrefix startAfter).ncard ≤ ctx.pageLimit maxItems := by
  obtain ⟨pages, hpages, hentries⟩ := ctx.pages_objects keyPrefix startAfter maxItems timeNow
  -- nothing is lost where no object comes before the start
  have hall : (∀ entry ∈ ctx.listed keyPrefix [], decide (After startAfter entry.1) = true) ↔
      ∀ path, path.hasPrefix keyPrefix = true →
        (ctx.fileAt path).isSome → After startAfter path := by
    constructor
    · intro h path hnamed hfile
      obtain ⟨content, hcontent⟩ := Option.isSome_iff_exists.mp hfile
      exact of_decide_eq_true (h (path, content.length)
        (mem_listed_iff.mpr ⟨⟨hnamed, .inl rfl⟩, content, hcontent, rfl⟩))
    · intro h entry hentry
      obtain ⟨⟨hnamed, -⟩, content, hcontent, -⟩ := mem_listed_iff.mp hentry
      exact decide_eq_true (h entry.1 hnamed (Option.isSome_iff_exists.mpr ⟨content, hcontent⟩))
  -- there is one sequence of pages, so that any will do
  have hexists : (∃ pages,
      Pages (ctx.objectsPage timeNow keyPrefix startAfter maxItems) ListObjectsOutput.next []
        pages ∧
      ctx.ListsObjects keyPrefix startAfter (pages.flatMap ListObjectsOutput.object)) ↔
      ctx.ListsObjects keyPrefix startAfter (pages.flatMap ListObjectsOutput.object) := by
    constructor
    · rintro ⟨pages', hpages', h⟩
      rwa [hpages.unique hpages']
    · exact fun h => ⟨pages, hpages, h⟩
  rw [hexists, listsObjects_iff, map_entry_flatMap, hentries, ← hall, ncard_asked, listed_filter,
    ← listed_nil]
  exact Pages.take_append_drop_filter _ _ _

end RamContext

/-! ### The pages of `listDirectory` -/

/-- The token of the next page, if there is one. -/
def ListDirectoryOutput.next (output : ListDirectoryOutput) : Option String :=
  if output.isTruncated then some output.nextContinuationToken else none

/-- A child of a directory: a subdirectory, or a file with its size. -/
abbrev DirectoryChild := String ⊕ String × ℕ

/-- The subdirectories and then the files. -/
def childrenOf (subdirectory : List String) (file : List (String × FileInfo)) :
    List DirectoryChild :=
  subdirectory.map .inl ++ file.map fun f => .inr (f.1, f.2.size)

/-- The children on a page. -/
def ListDirectoryOutput.children (output : ListDirectoryOutput) : List DirectoryChild :=
  childrenOf output.subdirectory output.file

namespace RamContext

/-- The token of a place in a directory. -/
def directoryToken (n : ℕ) : String := if n = 0 then "" else String.ofList (GoStr.formatUint16 n)

theorem directoryToken_zero : directoryToken 0 = "" := if_pos rfl

variable {ctx : RamContext} {subdirectory : List String} {file : List (String × FileInfo)}
  {dirPath startAfter : String} {maxItems n limit : ℕ}

variable (ctx) in
/-- The children of a directory: the subdirectories, and then the files. -/
def childrenAt (dirPath : GoStr) : List DirectoryChild :=
  match ctx.dirAt dirPath with
  | none => []
  | some dir => dir.dirMap.map (fun child => .inl (String.ofList child.1)) ++
      dir.fileMap.map fun file => .inr (String.ofList file.1, file.2.length)

/-- What comes from a place on. -/
theorem childrenOf_drop : (childrenOf subdirectory file).drop n =
    childrenOf (subdirectory.drop n) (file.drop (n - subdirectory.length)) := by
  unfold childrenOf
  rw [List.drop_append, List.map_drop, List.map_drop, List.length_map]

theorem childrenOf_take : (childrenOf subdirectory file).take n =
    childrenOf (subdirectory.take n) (file.take (n - subdirectory.length)) := by
  unfold childrenOf
  rw [List.take_append, List.map_take, List.map_take, List.length_map]

theorem length_childrenOf :
    (childrenOf subdirectory file).length = subdirectory.length + file.length := by
  unfold childrenOf
  rw [List.length_append, List.length_map, List.length_map]

/-- Subdirectories are dropped first, then files. -/
theorem dropChildren_eq :
    (if n ≥ subdirectory.length + file.length then ([], [])
      else if n ≥ subdirectory.length then ([], file.drop (n - subdirectory.length))
      else (subdirectory.drop n, file)) =
    (subdirectory.drop n, file.drop (n - subdirectory.length)) := by
  split
  next h =>
    rw [List.drop_eq_nil_of_le (by omega), List.drop_eq_nil_of_le (by omega)]
  next =>
    split
    next h => rw [List.drop_eq_nil_of_le h]
    next h =>
      have hzero : n - subdirectory.length = 0 := by omega
      rw [hzero, List.drop_zero]

/-- A page of the children that are left. -/
theorem fromPosition_children {children : List DirectoryChild}
    (h : childrenOf subdirectory file = children.drop n) (hlt : children.length < 2 ^ 63)
    (hlimit : 0 < limit) :
    Pages.FromPosition ListDirectoryOutput.next ListDirectoryOutput.children directoryToken children
      limit n
      (if min (subdirectory.length + file.length) limit < subdirectory.length then
        ⟨[], subdirectory.take (min (subdirectory.length + file.length) limit),
          String.ofList (nextToken n (min (subdirectory.length + file.length) limit)), true⟩
      else if min (subdirectory.length + file.length) limit < subdirectory.length + file.length then
        ⟨file.take (min (subdirectory.length + file.length) limit - subdirectory.length),
          subdirectory,
          String.ofList (nextToken n (min (subdirectory.length + file.length) limit)), true⟩
      else ⟨file, subdirectory, "", false⟩) := by
  have hlength : subdirectory.length + file.length = children.length - n := by
    rw [← length_childrenOf, h, List.length_drop]
  have htoken : n + limit < children.length →
      String.ofList (nextToken n limit) = directoryToken (n + limit) := by
    intro hmore
    unfold nextToken directoryToken
    rw [if_neg (by omega), Nat.mod_eq_of_lt (by omega)]
  unfold Pages.FromPosition ListDirectoryOutput.children
  rw [← h, childrenOf_take]
  split
  -- the subdirectories fill the page
  next hdirs =>
    have hmin : min (subdirectory.length + file.length) limit = limit := by omega
    have hzero : limit - subdirectory.length = 0 := by omega
    rw [hmin, hzero, List.take_zero, if_pos (by omega), ← htoken (by omega)]
    exact ⟨rfl, rfl⟩
  next hdirs =>
    split
    -- some files fit beside them, and some are left
    next hmore =>
      have hmin : min (subdirectory.length + file.length) limit = limit := by omega
      have hdirs : subdirectory.length ≤ limit := by omega
      rw [hmin, List.take_of_length_le hdirs, if_pos (by omega), ← htoken (by omega)]
      exact ⟨rfl, rfl⟩
    -- all of them fit
    next hlast =>
      rw [List.take_of_length_le (by omega), List.take_of_length_le (by omega),
        if_neg (by omega)]
      exact ⟨rfl, rfl⟩

variable (ctx) in
theorem length_childrenAt_lt (dirPath : GoStr) : (ctx.childrenAt dirPath).length < 2 ^ 63 := by
  unfold childrenAt
  cases hdir : ctx.dirAt dirPath with
  | none => exact Nat.two_pow_pos 63
  | some dir =>
      obtain ⟨-, -, -, -, hlt, -⟩ := RamDir.wellFormed_of_find ctx.wellFormed hdir
      rw [List.length_append, List.length_map, List.length_map]
      exact hlt

/-- A page of a directory is one of its children. -/
theorem fromPosition_directoryFrom (timeNow : ℕ) (input : ListDirectoryInput) (n : ℕ) :
    Pages.FromPosition ListDirectoryOutput.next ListDirectoryOutput.children directoryToken
      (ctx.childrenAt input.dirPath.toList) (ctx.pageLimit input.maxItems) n
      (ctx.directoryFrom timeNow input n) := by
  unfold directoryFrom childrenAt
  rw [ramDirLeaf_eq]
  cases hdir : ctx.dirAt input.dirPath.toList with
  | none =>
      exact ⟨by rw [List.drop_nil, List.take_nil]; rfl, (if_neg (Nat.not_lt_zero _)).symm⟩
  | some dir =>
      dsimp only
      rw [dropChildren_eq, numToReturn_eq]
      have hchildren : childrenOf (dir.dirMap.map fun dir => String.ofList dir.1)
          (dir.fileMap.map fun file => (String.ofList file.1,
            ({ size := file.2.length, eTag := "", mTime := timeNow } : FileInfo))) =
          dir.dirMap.map (fun child => .inl (String.ofList child.1)) ++
            dir.fileMap.map fun file => .inr (String.ofList file.1, file.2.length) := by
        unfold childrenOf
        rw [List.map_map, List.map_map]
        rfl
      refine fromPosition_children ?_ ?_ (ctx.pageLimit_pos _)
      · rw [← hchildren, childrenOf_drop]
      · have hlt := ctx.length_childrenAt_lt input.dirPath.toList
        unfold childrenAt at hlt
        rwa [hdir] at hlt

variable (ctx) in
/-- A page of `listDirectory`. -/
def directoryPage (timeNow : ListDirectoryInput → ℕ) (dirPath startAfter : String) (maxItems : ℕ)
    (continuationToken : String) : Option ListDirectoryOutput :=
  (ctx.listDirectory timeNow ⟨continuationToken, startAfter, maxItems, dirPath⟩).toOption

variable (timeNow : ListDirectoryInput → ℕ)

theorem parseToken_directoryToken (h : n < 2 ^ 64) :
    parseToken (directoryToken n).toList = .ok n := by
  unfold directoryToken
  split
  next hzero => rw [hzero]; rfl
  next => rw [String.toList_ofList, parseToken_formatUint16 h]

variable (ctx dirPath startAfter maxItems) in
/-- **The pages** of `listDirectory` hold all the children. -/
theorem pages_directory : ∃ pages,
    Pages (ctx.directoryPage timeNow dirPath startAfter maxItems) ListDirectoryOutput.next ""
      pages ∧
    pages.flatMap ListDirectoryOutput.children = ctx.childrenAt dirPath.toList := by
  have hfits : ∀ n ≤ (ctx.childrenAt dirPath.toList).length, n < 2 ^ 64 := by
    intro n hn
    exact (hn.trans_lt (ctx.length_childrenAt_lt _)).trans
      (Nat.pow_lt_pow_right (by decide) (by decide))
  have hpage : ∀ n ≤ (ctx.childrenAt dirPath.toList).length,
      ctx.directoryPage timeNow dirPath startAfter maxItems (directoryToken n) =
        some (ctx.directoryFrom (timeNow ⟨directoryToken n, startAfter, maxItems, dirPath⟩)
          ⟨directoryToken n, startAfter, maxItems, dirPath⟩ n) := by
    intro n hn
    unfold directoryPage listDirectory
    rw [parseToken_directoryToken (hfits n hn)]
    rfl
  have hpages := Pages.of_positions (ctx.pageLimit_pos maxItems)
    (fun n hn => ⟨_, hpage n hn, ctx.fromPosition_directoryFrom _
      ⟨directoryToken n, startAfter, maxItems, dirPath⟩ n⟩) (Nat.zero_le _)
  rwa [List.drop_zero, directoryToken_zero] at hpages

/-- The pages hold the subdirectories and the files of the directory that come after the key,
each once. -/
structure ListsChildren (ctx : RamContext) (dirPath startAfter : String)
    (pages : List ListDirectoryOutput) : Prop where
  nodup_subdirectory : (pages.flatMap ListDirectoryOutput.subdirectory).Nodup
  mem_subdirectory : ∀ name, name ∈ pages.flatMap ListDirectoryOutput.subdirectory ↔
    ∃ dir, ctx.dirAt dirPath.toList = some dir ∧ (dir.dirMap.lookup name.toList).isSome ∧
      After startAfter.toList (dirKey dirPath.toList ++ name.toList ++ ['/'])
  nodup_file : ((pages.flatMap ListDirectoryOutput.file).map Prod.fst).Nodup
  mem_file : ∀ name size, (∃ file ∈ pages.flatMap ListDirectoryOutput.file,
      file.1 = name ∧ file.2.size = size) ↔
    ∃ dir, ctx.dirAt dirPath.toList = some dir ∧
      (∃ content, dir.fileMap.lookup name.toList = some content ∧ content.length = size) ∧
      After startAfter.toList (dirKey dirPath.toList ++ name.toList)

/-- Nothing in the directory comes in front of the key or at it. -/
structure AllAfter (dirPath startAfter : String) (dir : RamDir) : Prop where
  subdirectory : ∀ child ∈ dir.dirMap,
    After startAfter.toList (dirKey dirPath.toList ++ child.1 ++ ['/'])
  file : ∀ file ∈ dir.fileMap, After startAfter.toList (dirKey dirPath.toList ++ file.1)

theorem subdirectory_eq (pages : List ListDirectoryOutput) :
    pages.flatMap ListDirectoryOutput.subdirectory =
      (pages.flatMap ListDirectoryOutput.children).filterMap Sum.getLeft? := by
  rw [List.filterMap_flatMap]
  refine List.flatMap_congr fun page _ => ?_
  unfold ListDirectoryOutput.children childrenOf
  rw [List.filterMap_append, List.filterMap_map, List.filterMap_map]
  simp [Function.comp_def]

theorem file_eq (pages : List ListDirectoryOutput) :
    (pages.flatMap ListDirectoryOutput.file).map (fun file => (file.1, file.2.size)) =
      (pages.flatMap ListDirectoryOutput.children).filterMap Sum.getRight? := by
  rw [List.filterMap_flatMap, List.map_flatMap]
  refine List.flatMap_congr fun page _ => ?_
  unfold ListDirectoryOutput.children childrenOf
  rw [List.filterMap_append, List.filterMap_map, List.filterMap_map]
  simp [Function.comp_def]

/-- The children of a directory are its subdirectories and its files. -/
theorem childrenAt_of_some {dirPath : GoStr} {dir : RamDir} (hdir : ctx.dirAt dirPath = some dir) :
    (ctx.childrenAt dirPath).filterMap Sum.getLeft? =
        dir.dirMap.map (fun child => String.ofList child.1) ∧
      (ctx.childrenAt dirPath).filterMap Sum.getRight? =
        dir.fileMap.map fun file => (String.ofList file.1, file.2.length) := by
  unfold childrenAt
  rw [hdir]
  dsimp only
  rw [List.filterMap_append, List.filterMap_append, List.filterMap_map, List.filterMap_map,
    List.filterMap_map, List.filterMap_map]
  simp [Function.comp_def]

theorem ofList_eq_iff {name : String} {l : GoStr} : String.ofList l = name ↔ l = name.toList :=
  ⟨fun h => h ▸ String.toList_ofList.symm, fun h => h ▸ String.ofList_toList⟩

theorem nodup_ofList {β : Type} {l : List (GoStr × β)}
    (h : (l.map Prod.fst).Pairwise (· < ·)) : (l.map fun child => String.ofList child.1).Nodup := by
  have hnodup : ((l.map Prod.fst).map String.ofList).Nodup :=
    List.Nodup.map (fun _ _ => String.ofList_injective) (h.imp ne_of_lt)
  rwa [List.map_map] at hnodup

/-- Pages that hold all the children are right if all the children come after the key. -/
theorem listsChildren_iff {pages : List ListDirectoryOutput} {dir : RamDir}
    (hdir : ctx.dirAt dirPath.toList = some dir)
    (hchildren : pages.flatMap ListDirectoryOutput.children = ctx.childrenAt dirPath.toList) :
    ListsChildren ctx dirPath startAfter pages ↔ AllAfter dirPath startAfter dir := by
  obtain ⟨dirMap, fileMap⟩ := dir
  obtain ⟨hdirs, hfiles, -, -, -, -⟩ := RamDir.wellFormed_of_find ctx.wellFormed hdir
  obtain ⟨hleft, hright⟩ := childrenAt_of_some hdir
  -- the pages name the children of the directory, each of them once
  have hsubdirectory := (subdirectory_eq pages).trans (hchildren ▸ hleft)
  have hfile := (file_eq pages).trans (hchildren ▸ hright)
  have hmem : ∀ name, name ∈ pages.flatMap ListDirectoryOutput.subdirectory ↔
      (dirMap.lookup name.toList).isSome := by
    intro name
    rw [hsubdirectory, List.mem_map, List.lookup_isSome_iff]
    refine exists_congr fun child => and_congr_right fun _ => ?_
    rw [ofList_eq_iff, beq_iff_eq, eq_comm]
  have hmem' : ∀ name size, (∃ file ∈ pages.flatMap ListDirectoryOutput.file,
      file.1 = name ∧ file.2.size = size) ↔
      ∃ content, fileMap.lookup name.toList = some content ∧ content.length = size := by
    intro name size
    have hpair : (∃ file ∈ pages.flatMap ListDirectoryOutput.file,
        file.1 = name ∧ file.2.size = size) ↔
        (name, size) ∈ (pages.flatMap ListDirectoryOutput.file).map fun file =>
          (file.1, file.2.size) := by
      rw [List.mem_map]
      simp only [Prod.mk.injEq]
    rw [hpair, hfile, List.mem_map]
    simp only [RamDir.lookup_iff_mem (hfiles.imp ne_of_lt), Prod.mk.injEq, ofList_eq_iff]
    constructor
    · rintro ⟨⟨name', content⟩, hmem, rfl, rfl⟩
      exact ⟨content, hmem, rfl⟩
    · rintro ⟨content, hmem, rfl⟩
      exact ⟨_, hmem, rfl, rfl⟩
  constructor
  -- the listing leaves out what is not behind the start, and the pages leave out nothing
  · intro h
    refine ⟨fun child hchild => ?_, fun file hfile => ?_⟩
    · have hlookup : dirMap.lookup child.1 = some child.2 :=
        (RamDir.lookup_iff_mem (hdirs.imp ne_of_lt)).mpr hchild
      have hname : String.ofList child.1 ∈ pages.flatMap ListDirectoryOutput.subdirectory := by
        rw [hmem, String.toList_ofList, hlookup]
        rfl
      obtain ⟨-, -, -, hafter⟩ := (h.mem_subdirectory _).mp hname
      rwa [String.toList_ofList] at hafter
    · have hlookup : fileMap.lookup file.1 = some file.2 :=
        (RamDir.lookup_iff_mem (hfiles.imp ne_of_lt)).mpr hfile
      have hname := (hmem' (String.ofList file.1) file.2.length).mpr
        ⟨file.2, by rw [String.toList_ofList, hlookup], rfl⟩
      obtain ⟨-, -, -, hafter⟩ := (h.mem_file _ _).mp hname
      rwa [String.toList_ofList] at hafter
  -- all children are behind the start, so that it leaves out nothing either
  · intro h
    refine ⟨?_, fun name => ?_, ?_, fun name size => ?_⟩
    · rw [hsubdirectory]
      exact nodup_ofList hdirs
    · rw [hmem]
      constructor
      · intro hname
        obtain ⟨child, hchild, hkey⟩ := List.lookup_isSome_iff.mp hname
        refine ⟨_, hdir, hname, ?_⟩
        rw [beq_iff_eq.mp hkey]
        exact h.subdirectory child hchild
      · rintro ⟨dir, hdir', hname, -⟩
        rw [hdir] at hdir'
        obtain rfl := Option.some.inj hdir'
        exact hname
    · have hnames : (pages.flatMap ListDirectoryOutput.file).map Prod.fst =
          fileMap.map fun file => String.ofList file.1 := by
        have hfst := congrArg (List.map Prod.fst) hfile
        rwa [List.map_map, List.map_map] at hfst
      rw [hnames]
      exact nodup_ofList hfiles
    · rw [hmem']
      constructor
      · rintro ⟨content, hlookup, hsize⟩
        refine ⟨_, hdir, ⟨content, hlookup, hsize⟩, ?_⟩
        exact h.file (name.toList, content)
          ((RamDir.lookup_iff_mem (hfiles.imp ne_of_lt)).mp hlookup)
      · rintro ⟨dir, hdir', hcontent, -⟩
        rw [hdir] at hdir'
        obtain rfl := Option.some.inj hdir'
        exact hcontent

/-- A directory that is not there has no children. -/
theorem listsChildren_of_none {pages : List ListDirectoryOutput}
    (hdir : ctx.dirAt dirPath.toList = none)
    (hchildren : pages.flatMap ListDirectoryOutput.children = ctx.childrenAt dirPath.toList) :
    ListsChildren ctx dirPath startAfter pages := by
  have hnil : ctx.childrenAt dirPath.toList = [] := by
    unfold childrenAt
    rw [hdir]
  have hsubdirectory := (subdirectory_eq pages).trans (by rw [hchildren, hnil, List.filterMap_nil])
  have hfile := (file_eq pages).trans (by rw [hchildren, hnil, List.filterMap_nil])
  have hfile := List.map_eq_nil_iff.mp hfile
  refine ⟨?_, fun name => ?_, ?_, fun name size => ?_⟩
  · rw [hsubdirectory]
    exact List.nodup_nil
  · rw [hsubdirectory, hdir]
    exact ⟨nofun, nofun⟩
  · rw [hfile]
    exact List.nodup_nil
  · rw [hfile, hdir]
    exact ⟨nofun, nofun⟩

/-- The pages list the children exactly where all of them are behind the start. -/
theorem directory_iff : (∃ pages,
      Pages (ctx.directoryPage timeNow dirPath startAfter maxItems) ListDirectoryOutput.next ""
        pages ∧ ListsChildren ctx dirPath startAfter pages) ↔
    ∀ dir, ctx.dirAt dirPath.toList = some dir → AllAfter dirPath startAfter dir := by
  obtain ⟨pages, hpages, hchildren⟩ := ctx.pages_directory dirPath startAfter maxItems timeNow
  have hexists : (∃ pages,
      Pages (ctx.directoryPage timeNow dirPath startAfter maxItems) ListDirectoryOutput.next ""
        pages ∧ ListsChildren ctx dirPath startAfter pages) ↔
      ListsChildren ctx dirPath startAfter pages := by
    constructor
    · rintro ⟨pages', hpages', h⟩
      rwa [hpages.unique hpages']
    · exact fun h => ⟨pages, hpages, h⟩
  rw [hexists]
  cases hdir : ctx.dirAt dirPath.toList with
  | none => exact iff_of_true (listsChildren_of_none hdir hchildren) nofun
  | some dir =>
      rw [listsChildren_iff hdir hchildren]
      exact ⟨fun h dir hdir' => Option.some.inj hdir' ▸ h, fun h => h dir rfl⟩

/-- **The pages** of the RAM backend are those that are asked for, exactly if `listObjects`
has nothing to leave out at the beginning or one page for the rest, and `listDirectory` has
nothing to leave out. -/
theorem listings_iff (ctx : RamContext) (timeNow : ListObjectsInput → GoStr → ℤ)
    (keyPrefix startAfter : GoStr) (maxItems : ℕ) (timeNow' : ListDirectoryInput → ℕ)
    (dirPath startAfter' : String) (maxItems' : ℕ) :
    ((∃ pages,
        Pages (ctx.objectsPage timeNow keyPrefix startAfter maxItems) ListObjectsOutput.next []
          pages ∧
        ctx.ListsObjects keyPrefix startAfter (pages.flatMap ListObjectsOutput.object)) ↔
      (∀ path, path.hasPrefix keyPrefix = true → (ctx.fileAt path).isSome → After startAfter path) ∨
        (ctx.asked keyPrefix startAfter).ncard ≤ ctx.pageLimit maxItems) ∧
    ((∃ pages,
        Pages (ctx.directoryPage timeNow' dirPath startAfter' maxItems') ListDirectoryOutput.next ""
          pages ∧
        ListsChildren ctx dirPath startAfter' pages) ↔
      ∀ dir, ctx.dirAt dirPath.toList = some dir → AllAfter dirPath startAfter' dir) :=
  ⟨objects_iff, directory_iff timeNow'⟩

/-- A backend with three objects. -/
def threeFiles : RamContext where
  keyPrefix := []
  directoryPageSize := 0
  maxListPageSize := 1000
  rootDir := .mk [] [(['a'], []), (['b'], []), (['c'], [])]
  slash_of_ne := fun h => absurd rfl h
  maxListPageSize_pos := by decide
  wellFormed := .mk (by decide) (by decide) nofun (by decide) (by decide) nofun
  objects_lt := by decide

/-- After the first object, in pages of one: the second object is listed twice. -/
theorem listed_twice : ¬∃ pages,
    Pages (threeFiles.objectsPage (fun _ _ => 0) [] ['a'] 1) ListObjectsOutput.next [] pages ∧
      threeFiles.ListsObjects [] ['a'] (pages.flatMap ListObjectsOutput.object) := by
  intro h
  rcases objects_iff.mp h with hall | hone
  · exact absurd (hall ['a'] rfl (by decide)) (by decide)
  · have hb : (['b'], 0) ∈ threeFiles.listed [] ['a'] :=
      mem_listed_iff.mpr ⟨⟨rfl, .inr (by decide)⟩, [], by decide, rfl⟩
    have hc : (['c'], 0) ∈ threeFiles.listed [] ['a'] :=
      mem_listed_iff.mpr ⟨⟨rfl, .inr (by decide)⟩, [], by decide, rfl⟩
    have hle : (threeFiles.listed [] ['a']).length ≤ 1 := ncard_asked ▸ hone
    rcases hlisted : threeFiles.listed [] ['a'] with _ | ⟨entry, _ | ⟨entry', rest⟩⟩
    · rw [hlisted] at hb
      cases hb
    · rw [hlisted, List.mem_singleton] at hb hc
      exact absurd (hb.trans hc.symm) (by decide)
    · rw [hlisted] at hle
      exact absurd hle (by simp)

end RamContext
end MultiStorageFileSystem
