/-
MultiStorageClient/RangeSplits.lean

A large flat directory, listed in ranges (`listFlatWithRangeSplitting` of
`manifest_gen.go`).

The split points cut the keys into ranges, and a worker lists each.  The server
starts after the first point of a range, and the worker stops at the second, so
the workers together list every key once that is not itself a split point, and
one that is never (`listRanges_once_iff`); a server that starts at the point itself
misses none.
-/
import MultiStorageClient.GoStr

namespace MultiStorageFileSystem

/-! ### Listing objects -/

/-- `listObjectsInputStruct` -/
structure ListObjectsInput where
  keyPrefix : GoStr
  startAfter : GoStr
  continuationToken : GoStr
  maxItems : ℕ

/-- `listObjectsOutputObjectStruct` -/
structure ListedObject where
  path : GoStr
  eTag : GoStr
  mTime : ℤ
  size : ℕ
  deriving DecidableEq

/-- `listObjectsOutputStruct` -/
structure ListObjectsOutput where
  object : List ListedObject
  nextContinuationToken : GoStr
  isTruncated : Bool

/-- `listObjects` of a backend; `none` where it fails. -/
abbrev ListObjects := ListObjectsInput → Option ListObjectsOutput

/-- `listDirectoryOutputFileStruct` -/
structure ListedFile where
  basename : GoStr
  eTag : GoStr
  mTime : ℤ
  size : ℕ
  deriving DecidableEq

/-- `listPrefixInputStruct` -/
structure ListPrefixInput where
  keyPrefix : GoStr
  startAfter : GoStr
  stopAt : GoStr
  continuationToken : GoStr
  maxItems : ℕ

/-- `listPrefixOutputStruct` -/
structure ListPrefixOutput where
  file : List ListedFile
  nextContinuationToken : GoStr
  isTruncated : Bool
  stopped : Bool

section Listing

variable (listObjects : ListObjects)

/-- The files of `listPrefixWrapper`, up to `stopAt`, and whether it was reached. -/
def filesUntil (keyPrefix stopAt : GoStr) : List ListedObject → List ListedFile × Bool
  | [] => ([], false)
  | object :: objects =>
      if stopAt ≠ [] ∧ stopAt ≤ object.path then ([], true)
      else
        let (files, stopped) := filesUntil keyPrefix stopAt objects
        (⟨object.path.trimPrefix keyPrefix, object.eTag, object.mTime, object.size⟩ :: files,
          stopped)

/-- `listPrefixWrapper` -/
def listPrefixWrapper (input : ListPrefixInput) : Option ListPrefixOutput := do
  let startAfter := if input.continuationToken ≠ [] then [] else input.startAfter
  let output ← listObjects ⟨input.keyPrefix, startAfter, input.continuationToken, input.maxItems⟩
  let (file, stopped) := filesUntil input.keyPrefix input.stopAt output.object
  pure ⟨file, output.nextContinuationToken, output.isTruncated && !stopped, stopped⟩

/-- What a worker has written, and whether a request failed. -/
structure RangeListing where
  file : List ListedFile
  failed : Bool
  deriving DecidableEq

/-- The loop of `listPrefixRange`, for at most `pages` requests. -/
def listPrefixRangeFrom : ℕ → ListPrefixInput → Option RangeListing
  | 0, _ => none
  | pages + 1, input =>
      match listPrefixWrapper listObjects input with
      | none => some ⟨[], true⟩
      | some output =>
          if output.stopped || !output.isTruncated then some ⟨output.file, false⟩
          else
            (listPrefixRangeFrom pages { input with
              continuationToken := output.nextContinuationToken
              startAfter := [] }).map fun rest => ⟨output.file ++ rest.file, rest.failed⟩

/-- `listPrefixRange`, with at most so many pages. -/
def listPrefixRange (pages : ℕ) (queryPrefix startAfter stopAt : GoStr) : Option RangeListing :=
  listPrefixRangeFrom listObjects pages ⟨queryPrefix, startAfter, stopAt, [], 1000⟩

/-- The ranges of `listFlatWithRangeSplitting`, from one point to the next. -/
def rangesFrom : GoStr → List GoStr → List (GoStr × GoStr)
  | startAfter, [] => [(startAfter, [])]
  | startAfter, stopAt :: splits => (startAfter, stopAt) :: rangesFrom stopAt splits

/-- What the workers write, in the order in which `mergeTempFiles` puts it together. -/
def listRanges (pages : ℕ) (flatPrefix : GoStr) (splits : List GoStr) : Option RangeListing := do
  let listings ← (rangesFrom [] splits).mapM fun range =>
    listPrefixRange listObjects pages flatPrefix range.1 range.2
  pure ⟨listings.flatMap RangeListing.file, listings.any RangeListing.failed⟩

end Listing

/-! ### The server -/

/-- A request and those that follow its tokens return the objects, in pages. -/
inductive Lists (listObjects : ListObjects) : ListObjectsInput → List ListedObject → Prop
  | last {input output} : listObjects input = some output → output.isTruncated = false →
      Lists listObjects input output.object
  | more {input output rest} : listObjects input = some output → output.isTruncated = true →
      output.nextContinuationToken ≠ [] →
      Lists listObjects { input with
        startAfter := []
        continuationToken := output.nextContinuationToken } rest →
      Lists listObjects input (output.object ++ rest)

/-- What a server lists that starts after the given key, or (`inclusive`) at it. -/
def Selected (inclusive : Bool) (keyPrefix startAfter : GoStr) (object : ListedObject) : Bool :=
  object.path.hasPrefix keyPrefix &&
    (startAfter = [] || startAfter < object.path || inclusive && startAfter = object.path)

/-- A server with the objects, in the order of their keys; a continuation token holds
the place in the listing it comes from. -/
structure ServesObjects (listObjects : ListObjects) (inclusive : Bool)
    (objects : List ListedObject) :
    Prop where
  sorted : objects.Pairwise fun o o' => o.path < o'.path
  lists : ∀ keyPrefix startAfter maxItems, Lists listObjects ⟨keyPrefix, startAfter, [], maxItems⟩
    (objects.filter (Selected inclusive keyPrefix startAfter))

/-! ### One range -/

/-- The file of an object. -/
def ListedObject.file (keyPrefix : GoStr) (object : ListedObject) : ListedFile :=
  ⟨object.path.trimPrefix keyPrefix, object.eTag, object.mTime, object.size⟩

/-- The key is in front of the point where a worker stops. -/
def Before (stopAt path : GoStr) : Bool := stopAt = [] || path < stopAt

variable {listObjects : ListObjects} {inclusive : Bool} {objects rest : List ListedObject}
  {keyPrefix startAfter stopAt path : GoStr}

theorem filesUntil_stop {object : ListedObject} (h : stopAt ≠ [] ∧ stopAt ≤ object.path) :
    filesUntil keyPrefix stopAt (object :: objects) = ([], true) := if_pos h

theorem filesUntil_cons {object : ListedObject} (h : ¬(stopAt ≠ [] ∧ stopAt ≤ object.path)) :
    filesUntil keyPrefix stopAt (object :: objects) =
      (object.file keyPrefix :: (filesUntil keyPrefix stopAt objects).1,
        (filesUntil keyPrefix stopAt objects).2) := if_neg h

/-- The files of two lists, up to the stop. -/
theorem filesUntil_append : filesUntil keyPrefix stopAt (objects ++ rest) =
    if (filesUntil keyPrefix stopAt objects).2 then filesUntil keyPrefix stopAt objects
    else ((filesUntil keyPrefix stopAt objects).1 ++ (filesUntil keyPrefix stopAt rest).1,
      (filesUntil keyPrefix stopAt rest).2) := by
  induction objects with
  | nil => rfl
  | cons object objects ih =>
      rw [List.cons_append]
      by_cases hstop : stopAt ≠ [] ∧ stopAt ≤ object.path
      · rw [filesUntil_stop hstop, filesUntil_stop hstop]
        rfl
      · rw [filesUntil_cons hstop, filesUntil_cons hstop, ih]
        dsimp only
        split <;> rfl

/-- Of objects in order, those in front of the stop are returned. -/
theorem filesUntil_eq (h : objects.Pairwise fun o o' => o.path < o'.path) :
    (filesUntil keyPrefix stopAt objects).1 =
      (objects.filter fun o => Before stopAt o.path).map (·.file keyPrefix) := by
  induction objects with
  | nil => rfl
  | cons object objects ih =>
      obtain ⟨hhead, htail⟩ := List.pairwise_cons.mp h
      by_cases hstop : stopAt ≠ [] ∧ stopAt ≤ object.path
      · rw [filesUntil_stop hstop, List.filter_eq_nil_iff.mpr]
        · rfl
        · intro o ho
          have hle : stopAt ≤ o.path := by
            rcases List.mem_cons.mp ho with rfl | ho
            · exact hstop.2
            · exact hstop.2.trans (hhead o ho).le
          unfold Before
          simpa [hstop.1] using hle
      · have hbefore : Before stopAt object.path = true := by
          unfold Before
          rw [not_and_or, not_not, not_le] at hstop
          simpa using hstop
        rw [filesUntil_cons hstop, List.filter_cons_of_pos (by exact hbefore), List.map_cons,
          ← ih htail]

/-- The wrapper asks the server as the worker asks it. -/
theorem listPrefixWrapper_eq {input : ListObjectsInput} {output : ListObjectsOutput}
    (h : listObjects input = some output)
    (hstart : input.continuationToken ≠ [] → input.startAfter = []) :
    listPrefixWrapper listObjects
        ⟨input.keyPrefix, input.startAfter, stopAt, input.continuationToken, input.maxItems⟩ =
      some ⟨(filesUntil input.keyPrefix stopAt output.object).1, output.nextContinuationToken,
        output.isTruncated && !(filesUntil input.keyPrefix stopAt output.object).2,
        (filesUntil input.keyPrefix stopAt output.object).2⟩ := by
  have hinput : (if input.continuationToken ≠ [] then [] else input.startAfter) =
      input.startAfter := by
    split
    next htoken => exact (hstart htoken).symm
    · rfl
  unfold listPrefixWrapper
  dsimp only
  rw [hinput, h]
  rfl

/-- **A worker** writes what the server lists, up to where it stops. -/
theorem listPrefixRangeFrom_eq {input : ListObjectsInput} (h : Lists listObjects input objects)
    (hstart : input.continuationToken ≠ [] → input.startAfter = []) :
    ∃ pages, ∀ n ≥ pages, listPrefixRangeFrom listObjects n
      ⟨input.keyPrefix, input.startAfter, stopAt, input.continuationToken, input.maxItems⟩ =
        some ⟨(filesUntil input.keyPrefix stopAt objects).1, false⟩ := by
  induction h with
  | @last input output hout hlast =>
      refine ⟨1, fun n hn => ?_⟩
      obtain ⟨n, rfl⟩ := Nat.exists_eq_add_of_le' hn
      unfold listPrefixRangeFrom
      rw [listPrefixWrapper_eq hout hstart, hlast]
      simp
  | @more input output rest hout hmore htoken hrest ih =>
      obtain ⟨pages, ih⟩ := ih fun _ => rfl
      refine ⟨pages + 1, fun n hn => ?_⟩
      obtain ⟨n, rfl⟩ := Nat.exists_eq_add_of_le' hn
      have ih := ih (n + pages) (Nat.le_add_left ..)
      have hfuel : n + (pages + 1) = n + pages + 1 := rfl
      rw [hfuel, listPrefixRangeFrom, listPrefixWrapper_eq hout hstart, filesUntil_append, hmore]
      cases hstop : (filesUntil input.keyPrefix stopAt output.object).2 with
      | true => rfl
      | false =>
          dsimp only
          rw [ih]
          rfl

/-- What is so from some bound on for each, is so from some bound on for all. -/
theorem bound_for_all {α : Type*} {P : α → ℕ → Prop} (xs : List α)
    (h : ∀ x, ∃ bound, ∀ n ≥ bound, P x n) : ∃ bound, ∀ n ≥ bound, ∀ x ∈ xs, P x n := by
  induction xs with
  | nil => exact ⟨0, fun _ _ _ => nofun⟩
  | cons x xs ih =>
      obtain ⟨b, hb⟩ := h x
      obtain ⟨b', hb'⟩ := ih
      refine ⟨max b b', fun n hn => List.forall_mem_cons.mpr ⟨hb n ?_, hb' n ?_⟩⟩
      · exact (le_max_left b b').trans hn
      · exact (le_max_right b b').trans hn

theorem mapM_some {α β : Type} {f : α → Option β} {g : α → β} {l : List α}
    (h : ∀ a ∈ l, f a = some (g a)) : l.mapM f = some (l.map g) := by
  induction l with
  | nil => rfl
  | cons a l ih =>
      rw [List.mapM_cons, h a List.mem_cons_self, ih fun b hb => h b (List.mem_cons_of_mem a hb)]
      rfl

/-- A worker's range holds the key. -/
def Holds (inclusive : Bool) (path : GoStr) (range : GoStr × GoStr) : Bool :=
  (range.1 = [] || range.1 < path || inclusive && range.1 = path) && Before range.2 path

/-- The files of one range. -/
def rangeFiles (inclusive : Bool) (objects : List ListedObject) (flatPrefix : GoStr)
    (range : GoStr × GoStr) : List ListedFile :=
  (objects.filter fun o => o.path.hasPrefix flatPrefix && Holds inclusive o.path range).map
    (·.file flatPrefix)

/-- **The workers together** list the files of every range. -/
theorem listRanges_eq (h : ServesObjects listObjects inclusive objects) (flatPrefix : GoStr)
    (splits : List GoStr) :
    ∃ pages, ∀ n ≥ pages, listRanges listObjects n flatPrefix splits =
      some ⟨(rangesFrom [] splits).flatMap (rangeFiles inclusive objects flatPrefix), false⟩ := by
  have hone : ∀ range : GoStr × GoStr, ∃ pages, ∀ n ≥ pages,
      listPrefixRange listObjects n flatPrefix range.1 range.2 =
        some ⟨rangeFiles inclusive objects flatPrefix range, false⟩ := by
    intro range
    obtain ⟨pages, hpages⟩ := (listPrefixRangeFrom_eq (h.lists flatPrefix range.1 1000)
      (fun htoken => absurd rfl htoken) : ∃ pages, ∀ n ≥ pages, listPrefixRangeFrom listObjects n
        ⟨flatPrefix, range.1, range.2, [], 1000⟩ = _)
    refine ⟨pages, fun n hn => (hpages n hn).trans ?_⟩
    rw [filesUntil_eq (h.sorted.filter _), List.filter_filter]
    unfold rangeFiles
    rw [List.filter_congr fun o _ => ?_]
    unfold Selected Holds
    rw [Bool.and_comm, Bool.and_assoc]
  obtain ⟨pages, hpages⟩ := bound_for_all (rangesFrom [] splits) hone
  refine ⟨pages, fun n hn => ?_⟩
  unfold listRanges
  rw [mapM_some (hpages n hn)]
  show some _ = some _
  rw [List.flatMap_map, List.any_map]
  congr 2
  exact List.any_eq_false.mpr fun _ _ => Bool.false_ne_true

/-! ### How often a key is listed -/

variable {split path : GoStr} {splits : List GoStr}

theorem holds_iff {range : GoStr × GoStr} : Holds inclusive path range = true ↔
    (range.1 = [] ∨ range.1 < path ∨ inclusive = true ∧ range.1 = path) ∧
      (range.2 = [] ∨ path < range.2) := by
  simp [Holds, Before, or_assoc]

/-- A key that is not behind the start of a range is in none of those that follow. -/
theorem countP_rangesFrom_zero (hsorted : (split :: splits).Pairwise (· ≤ ·))
    (hne : [] ∉ split :: splits) (hnot : ¬(split < path ∨ inclusive = true ∧ split = path)) :
    (rangesFrom split splits).countP (Holds inclusive path) = 0 := by
  have hfirst : ∀ stopAt, ¬Holds inclusive path (split, stopAt) = true := by
    intro stopAt hholds
    exact (holds_iff.mp hholds).1.elim (fun hnil => hne (hnil ▸ List.mem_cons_self ..)) hnot
  induction splits generalizing split with
  | nil => exact (List.countP_cons_of_neg (hfirst []))
  | cons next splits ih =>
      obtain ⟨hle, hsorted'⟩ := List.pairwise_cons.mp hsorted
      have hne' : [] ∉ next :: splits := fun hmem => hne (List.mem_cons_of_mem _ hmem)
      have hnot' : ¬(next < path ∨ inclusive = true ∧ next = path) := by
        have hlt : ¬split < path := fun h => hnot (.inl h)
        have hpath : path ≤ next := (not_lt.mp hlt).trans (hle next (List.mem_cons_self ..))
        rintro (h | ⟨hinc, rfl⟩)
        · exact absurd h (not_lt.mpr hpath)
        · exact hnot (.inr ⟨hinc, le_antisymm (hle next (List.mem_cons_self ..)) (not_lt.mp hlt)⟩)
      unfold rangesFrom
      rw [List.countP_cons_of_neg (hfirst next)]
      refine ih hsorted' hne' hnot' fun stopAt hholds => ?_
      exact (holds_iff.mp hholds).1.elim (fun hnil => hne' (hnil ▸ List.mem_cons_self ..)) hnot'

/-- The ranges from a point in front of the key on hold it once, but for a key that is
a split point of a server that starts behind it. -/
theorem countP_rangesFrom (hsorted : splits.Pairwise (· ≤ ·)) (hne : [] ∉ splits)
    (hstart : split = [] ∨ split < path ∨ inclusive = true ∧ split = path) :
    (rangesFrom split splits).countP (Holds inclusive path) =
      if inclusive = false ∧ path ∈ splits then 0 else 1 := by
  induction splits generalizing split with
  | nil =>
      rw [if_neg fun h => List.not_mem_nil h.2]
      exact List.countP_cons_of_pos (holds_iff.mpr ⟨hstart, .inl rfl⟩)
  | cons next splits ih =>
      obtain ⟨hle, hsorted'⟩ := List.pairwise_cons.mp hsorted
      have hnext : next ≠ [] := fun hnil => hne (hnil ▸ List.mem_cons_self ..)
      have hne' : [] ∉ splits := fun hmem => hne (List.mem_cons_of_mem _ hmem)
      unfold rangesFrom
      rcases lt_trichotomy path next with hlt | rfl | hgt
      · -- in the first range, and in none behind it
        have hnot : ¬(next < path ∨ inclusive = true ∧ next = path) := by
          rintro (h | ⟨-, rfl⟩)
          · exact absurd h hlt.asymm
          · exact absurd hlt (lt_irrefl _)
        have hmem : path ∉ next :: splits := by
          rw [List.mem_cons, not_or]
          exact ⟨hlt.ne, fun h => absurd (hle path h) (not_le.mpr hlt)⟩
        rw [List.countP_cons_of_pos (holds_iff.mpr ⟨hstart, .inr hlt⟩),
          countP_rangesFrom_zero hsorted hne hnot, if_neg fun h => hmem h.2]
      · -- the key is a split point
        have hnot : ¬Holds inclusive path (split, path) = true := fun h =>
          (holds_iff.mp h).2.elim hnext (lt_irrefl path)
        rw [List.countP_cons_of_neg hnot]
        cases inclusive with
        | true =>
            rw [ih hsorted' hne' (.inr (.inr ⟨rfl, rfl⟩))]
            simp
        | false =>
            rw [if_pos ⟨rfl, List.mem_cons_self ..⟩]
            exact countP_rangesFrom_zero hsorted hne fun h =>
              h.elim (lt_irrefl path) fun h => nomatch h.1
      · have hnot : ¬Holds inclusive path (split, next) = true := fun h =>
          (holds_iff.mp h).2.elim hnext hgt.asymm
        rw [List.countP_cons_of_neg hnot, ih hsorted' hne' (.inr (.inl hgt))]
        have hmem : path ∈ next :: splits ↔ path ∈ splits := by
          rw [List.mem_cons, or_iff_right hgt.ne']
        exact if_congr (and_congr_right fun _ => hmem.symm) rfl rfl

/-- Every empty split point makes a worker that lists all. -/
theorem countP_rangesFrom_nils (hsorted : splits.Pairwise (· ≤ ·)) (hne : [] ∉ splits) (k : ℕ) :
    (rangesFrom [] (List.replicate k [] ++ splits)).countP (Holds inclusive path) =
      k + if inclusive = false ∧ path ∈ splits then 0 else 1 := by
  induction k with
  | zero =>
      rw [List.replicate_zero, List.nil_append, Nat.zero_add]
      exact countP_rangesFrom hsorted hne (.inl rfl)
  | succ k ih =>
      rw [List.replicate_succ, List.cons_append]
      unfold rangesFrom
      rw [List.countP_cons_of_pos (holds_iff.mpr ⟨.inl rfl, .inl rfl⟩), ih]
      omega

/-- Split points in order are the empty ones and then the others. -/
theorem splits_eq (hsorted : splits.Pairwise (· ≤ ·)) :
    splits = List.replicate (splits.count []) [] ++ splits.filter (· ≠ []) := by
  induction splits with
  | nil => rfl
  | cons split splits ih =>
      obtain ⟨hle, hsorted'⟩ := List.pairwise_cons.mp hsorted
      by_cases hnil : split = []
      · subst hnil
        rw [List.count_cons_self, List.replicate_succ, List.cons_append,
          List.filter_cons_of_neg (by simp), ← ih hsorted']
      · have hrest : [] ∉ splits := fun hmem =>
          hnil (le_antisymm (hle [] hmem) (PyStr.le_of_isPrefix List.nil_prefix))
        have hall : ∀ s ∈ split :: splits, decide (s ≠ []) = true := by
          intro s hs
          rw [decide_eq_true_iff]
          rintro rfl
          rcases List.mem_cons.mp hs with heq | hmem
          · exact hnil heq.symm
          · exact hrest hmem
        rw [List.count_eq_zero.mpr fun hmem => by simpa using hall [] hmem, List.replicate_zero,
          List.nil_append, List.filter_eq_self.mpr hall]

/-! ### Every key once -/

/-- The workers together list every object of the flat part once, and nothing else. -/
def ListedOnce (objects : List ListedObject) (flatPrefix : GoStr) (files : List ListedFile) :
    Prop :=
  files.Perm ((objects.filter fun o => o.path.hasPrefix flatPrefix).map (·.file flatPrefix))

/-- The split points lose and repeat no key: there is no key, or no point is empty and,
unless the server starts at the point itself, none is a key; or one point is empty, so that the
worker in front of it lists all, and every key is another point, so that no other worker does. -/
def SplitsFit (inclusive : Bool) (keys splits : List GoStr) : Prop :=
  keys = [] ∨ [] ∉ splits ∧ (inclusive = true ∨ ∀ key ∈ keys, key ∉ splits) ∨
    splits.count [] = 1 ∧ inclusive = false ∧ ∀ key ∈ keys, key ≠ [] ∧ key ∈ splits

/-- The keys of the flat part. -/
def keysUnder (objects : List ListedObject) (flatPrefix : GoStr) : List GoStr :=
  (objects.filter fun o => o.path.hasPrefix flatPrefix).map ListedObject.path

theorem ListedObject.file_ne {o o' : ListedObject} (h : o.path ≠ o'.path)
    (ho : o.path.hasPrefix keyPrefix = true) (ho' : o'.path.hasPrefix keyPrefix = true) :
    o.file keyPrefix ≠ o'.file keyPrefix := by
  intro heq
  apply h
  rw [← GoStr.append_trimPrefix ho, ← GoStr.append_trimPrefix ho']
  exact congrArg (keyPrefix ++ ·) (congrArg ListedFile.basename heq)

/-- The files of some of the objects are distinct. -/
theorem nodup_files (h : objects.Pairwise fun o o' => o.path < o'.path)
    {p : ListedObject → Bool} (hp : ∀ o, p o = true → o.path.hasPrefix keyPrefix = true) :
    ((objects.filter p).map (·.file keyPrefix)).Nodup := by
  rw [List.Nodup, List.pairwise_map]
  refine (h.filter p).imp_of_mem fun {o o'} ho ho' hlt => ?_
  exact ListedObject.file_ne hlt.ne (hp o (List.mem_filter.mp ho).2)
    (hp o' (List.mem_filter.mp ho').2)

/-- The file of an object is among those of some objects if the object is one of them. -/
theorem count_files (h : objects.Pairwise fun o o' => o.path < o'.path)
    {p : ListedObject → Bool} (hp : ∀ o, p o = true → o.path.hasPrefix keyPrefix = true)
    {object : ListedObject} (hmem : object ∈ objects)
    (hunder : object.path.hasPrefix keyPrefix = true) :
    ((objects.filter p).map (·.file keyPrefix)).count (object.file keyPrefix) =
      if p object then 1 else 0 := by
  split
  next hpo =>
    exact List.count_eq_one_of_mem (nodup_files h hp)
      (List.mem_map.mpr ⟨object, List.mem_filter.mpr ⟨hmem, hpo⟩, rfl⟩)
  next hpo =>
    refine List.count_eq_zero.mpr fun hfile => ?_
    obtain ⟨o, ho, heq⟩ := List.mem_map.mp hfile
    obtain ⟨hmem', hpo'⟩ := List.mem_filter.mp ho
    by_cases hpath : o.path = object.path
    · have hnodup : (objects.map ListedObject.path).Nodup := by
        rw [List.Nodup, List.pairwise_map]
        exact h.imp ne_of_lt
      exact hpo (List.inj_on_of_nodup_map hnodup hmem' hmem hpath ▸ hpo')
    · exact ListedObject.file_ne hpath (hp o hpo') hunder heq

/-- How often the file of an object is listed. -/
theorem count_rangeFiles (h : objects.Pairwise fun o o' => o.path < o'.path)
    {object : ListedObject} (hmem : object ∈ objects)
    (hunder : object.path.hasPrefix keyPrefix = true) (ranges : List (GoStr × GoStr)) :
    (ranges.flatMap (rangeFiles inclusive objects keyPrefix)).count (object.file keyPrefix) =
      ranges.countP (Holds inclusive object.path) := by
  induction ranges with
  | nil => rfl
  | cons range ranges ih =>
      have hrange := count_files h
        (p := fun o => o.path.hasPrefix keyPrefix && Holds inclusive o.path range)
        (fun o ho => (Bool.and_eq_true_iff.mp ho).1) hmem hunder
      rw [List.flatMap_cons, List.count_append, ih, List.countP_cons, add_comm]
      congr 1
      rw [rangeFiles, hrange, hunder, Bool.true_and]

/-- Every key is held once, if and only if the split points fit. -/
theorem splitsFit_iff {keys : List GoStr} (hsorted : splits.Pairwise (· ≤ ·)) :
    (∀ key ∈ keys, (rangesFrom [] splits).countP (Holds inclusive key) = 1) ↔
      SplitsFit inclusive keys splits := by
  -- each empty split holds the key once more, and a split that is left out loses it
  have hcount : ∀ key, (rangesFrom [] splits).countP (Holds inclusive key) =
      splits.count [] + if inclusive = false ∧ key ≠ [] ∧ key ∈ splits then 0 else 1 := by
    intro key
    conv_lhs => rw [splits_eq hsorted]
    rw [countP_rangesFrom_nils (hsorted.filter _) (by simp)]
    simp [List.mem_filter, and_comm]
  simp only [hcount]
  constructor
  · intro h
    by_cases hkeys : keys = []
    · exact .inl hkeys
    obtain ⟨key, hkey⟩ := List.exists_mem_of_ne_nil keys hkeys
    right
    rcases hnils : splits.count [] with - | - | k
    -- no empty split
    · refine .inl ⟨List.count_eq_zero.mp hnils, ?_⟩
      cases inclusive with
      | true => exact .inl rfl
      | false =>
          refine .inr fun key hkey hmem => ?_
          have hone := h key hkey
          have hne : key ≠ [] := by
            rintro rfl
            exact List.count_eq_zero.mp hnils hmem
          rw [if_pos ⟨rfl, hne, hmem⟩, hnils] at hone
          cases hone
    -- one empty split, so that every key has to be a split that is left out
    · have hnone : ∀ key ∈ keys, inclusive = false ∧ key ≠ [] ∧ key ∈ splits := by
        intro key hkey
        by_contra hnot
        have hone := h key hkey
        rw [if_neg hnot, hnils] at hone
        cases hone
      exact .inr ⟨rfl, (hnone key hkey).1, fun key hkey => (hnone key hkey).2⟩
    -- two of them hold every key twice at least
    · have hone := h key hkey
      rw [hnils] at hone
      omega
  · rintro (rfl | ⟨hnil, hfits⟩ | ⟨hnils, rfl, hall⟩) key hkey
    · cases hkey
    · rw [List.count_eq_zero.mpr hnil, if_neg]
      rintro ⟨hinc, -, hmem⟩
      rcases hfits with hinc' | hfree
      · rw [hinc] at hinc'
        cases hinc'
      · exact hfree key hkey hmem
    · rw [hnils, if_pos ⟨rfl, hall key hkey⟩]

/-- **Every key is listed once**, if and only if the split points lose and repeat none. -/
theorem listRanges_once_iff (h : ServesObjects listObjects inclusive objects) (flatPrefix : GoStr)
    (hsorted : splits.Pairwise (· ≤ ·)) :
    ∃ pages files, (∀ n ≥ pages, listRanges listObjects n flatPrefix splits =
        some ⟨files, false⟩) ∧
      (ListedOnce objects flatPrefix files ↔
        SplitsFit inclusive (keysUnder objects flatPrefix) splits) := by
  obtain ⟨pages, hpages⟩ := listRanges_eq h flatPrefix splits
  refine ⟨pages, _, hpages, ?_⟩
  rw [← splitsFit_iff hsorted]
  unfold ListedOnce keysUnder
  rw [List.perm_iff_count]
  constructor
  · intro hcount key hkey
    obtain ⟨o, ho, rfl⟩ := List.mem_map.mp hkey
    obtain ⟨hmem, hunder⟩ := List.mem_filter.mp ho
    rw [← count_rangeFiles h.sorted hmem hunder, hcount, count_files h.sorted (fun _ => id) hmem
      hunder, if_pos hunder]
  · intro hkeys file
    by_cases hfile : ∃ o ∈ objects, o.path.hasPrefix flatPrefix = true ∧ file = o.file flatPrefix
    · obtain ⟨o, hmem, hunder, rfl⟩ := hfile
      rw [count_rangeFiles h.sorted hmem hunder, count_files h.sorted (fun _ => id) hmem hunder,
        if_pos hunder]
      exact hkeys _ (List.mem_map.mpr ⟨o, List.mem_filter.mpr ⟨hmem, hunder⟩, rfl⟩)
    · -- what is not the file of an object is not listed
      rw [List.count_eq_zero.mpr, List.count_eq_zero.mpr]
      · intro hmem
        obtain ⟨o, ho, rfl⟩ := List.mem_map.mp hmem
        obtain ⟨hmem, hunder⟩ := List.mem_filter.mp ho
        exact hfile ⟨o, hmem, hunder, rfl⟩
      · intro hmem
        obtain ⟨range, -, hrange⟩ := List.mem_flatMap.mp hmem
        obtain ⟨o, ho, rfl⟩ := List.mem_map.mp hrange
        obtain ⟨hmem, hholds⟩ := List.mem_filter.mp ho
        exact hfile ⟨o, hmem, (Bool.and_eq_true_iff.mp hholds).1, rfl⟩

/-! ### The split points of `lexInterpolate` -/

/-- `lexBase` -/
def lexBase : ℕ := 95

/-- `lexMinByte` -/
def lexMinByte : ℕ := 0x20

/-- The digit of a byte; those that are not printable count as the nearest one. -/
def lexDigit (c : Char) : ℕ := min (c.toNat - lexMinByte) (lexBase - 1)

/-- `stringToBase95Int` -/
def stringToBase95Int (s : GoStr) (padLen : ℕ) : ℕ :=
  (List.range padLen).foldl (fun result i => result * lexBase + (s[i]?.map lexDigit).getD 0) 0

/-- The digits of a number as printable bytes, the last one first taken off. -/
def base95Digits : ℕ → ℕ → GoStr
  | _, 0 => []
  | n, length + 1 => base95Digits (n / lexBase) length ++ [Char.ofNat (n % lexBase + lexMinByte)]

/-- `base95IntToString` -/
def base95IntToString (n length : ℕ) : GoStr :=
  let digits := (base95Digits n length).rdropWhile (· == ' ')
  if digits = [] then [' '] else digits

/-- `lexInterpolate` -/
def lexInterpolate (a b : GoStr) (n : ℕ) : List GoStr :=
  if n ≤ 1 then [a]
  else
    let maxLen := max a.length b.length + 2
    let aBig := stringToBase95Int a maxLen
    let bBig := stringToBase95Int b maxLen
    if bBig ≤ aBig then [a]
    else (List.range' 1 (n - 1)).map fun i =>
      base95IntToString (aBig + (bBig - aBig) * i / n) maxLen

/-- The number of a padded string has no more digits than it. -/
theorem stringToBase95Int_lt (s : GoStr) (padLen : ℕ) :
    stringToBase95Int s padLen < lexBase ^ padLen := by
  induction padLen with
  | zero => exact Nat.one_pos
  | succ padLen ih =>
      unfold stringToBase95Int at ih ⊢
      rw [List.range_succ, List.foldl_append]
      have hdigit : (s[padLen]?.map lexDigit).getD 0 ≤ lexBase - 1 := by
        cases s[padLen]? with
        | none => exact Nat.zero_le _
        | some c => exact min_le_right ..
      rw [pow_succ]
      unfold lexBase at *
      simp only [List.foldl_cons, List.foldl_nil]
      omega

theorem toNat_digit {d : ℕ} (h : d < lexBase) :
    (Char.ofNat (d + lexMinByte)).toNat = d + lexMinByte := by
  have hall : ∀ d < 95, (Char.ofNat (d + 32)).toNat = d + 32 := by decide
  exact hall d h

theorem digit_lt {d d' : ℕ} (h : d < d') (h' : d' < lexBase) :
    Char.ofNat (d + lexMinByte) < Char.ofNat (d' + lexMinByte) := by
  rw [Char.lt_def, UInt32.lt_iff_toNat_lt, Char.toNat_val, Char.toNat_val,
    toNat_digit (h.trans h'), toNat_digit h']
  omega

theorem length_base95Digits (n length : ℕ) : (base95Digits n length).length = length := by
  induction length generalizing n with
  | zero => rfl
  | succ length ih => rw [base95Digits, List.length_append, ih, List.length_singleton]

/-- No digit is in front of a space. -/
theorem le_of_mem_base95Digits {n length : ℕ} {c : Char} (h : c ∈ base95Digits n length) :
    ' ' ≤ c := by
  induction length generalizing n with
  | zero => cases h
  | succ length ih =>
      rcases List.mem_append.mp h with h | h
      · exact ih h
      · obtain rfl := List.mem_singleton.mp h
        rw [Char.le_def, UInt32.le_iff_toNat_le, Char.toNat_val, Char.toNat_val,
          toNat_digit (Nat.mod_lt _ (by decide))]
        exact Nat.le_add_left ..

/-- The order of numbers is that of their digits. -/
theorem base95Digits_lt {n m length : ℕ} (h : n < m) (hm : m < lexBase ^ length) :
    base95Digits n length < base95Digits m length := by
  induction length generalizing n m with
  | zero =>
      rw [pow_zero] at hm
      omega
  | succ length ih =>
      unfold base95Digits
      have hdiv : m / lexBase < lexBase ^ length := by
        rw [pow_succ] at hm
        exact Nat.div_lt_of_lt_mul (by rwa [Nat.mul_comm])
      rcases (Nat.div_le_div_right (c := lexBase) h.le).lt_or_eq with hlt | heq
      · exact PyStr.append_lt_append_of_lt (ih hlt hdiv)
          ((length_base95Digits ..).trans (length_base95Digits ..).symm) _ _
      · rw [heq, PyStr.append_lt_append_iff, List.cons_lt_cons_iff]
        refine .inl (digit_lt ?_ (Nat.mod_lt _ (by decide)))
        have hn := Nat.div_add_mod n lexBase
        have hm := Nat.div_add_mod m lexBase
        rw [heq] at hn
        omega

/-- The last elements are dropped, seen from the first. -/
theorem rdropWhile_cons {α : Type*} (p : α → Bool) (a : α) (l : List α) :
    (a :: l).rdropWhile p =
      if p a = true ∧ l.rdropWhile p = [] then [] else a :: l.rdropWhile p := by
  unfold List.rdropWhile
  rw [List.reverse_cons, List.dropWhile_append]
  by_cases hl : l.reverse.dropWhile p = []
  · rw [hl]
    by_cases hp : p a = true <;> simp [hp]
  · rw [if_neg (by simpa using hl), if_neg (by simpa using fun _ => hl), List.reverse_append]
    rfl

/-- Cutting off the spaces keeps the order. -/
theorem rdropWhile_le {a b : GoStr} (h : a ≤ b) (ha : ∀ c ∈ a, ' ' ≤ c) :
    a.rdropWhile (· == ' ') ≤ b.rdropWhile (· == ' ') := by
  induction a generalizing b with
  | nil => exact PyStr.le_of_isPrefix List.nil_prefix
  | cons c l ih =>
      rcases h.lt_or_eq with hlt | rfl
      · obtain ⟨hc, hl⟩ := List.forall_mem_cons.mp ha
        cases b with
        | nil => exact absurd hlt (List.not_lt_nil _)
        | cons d m =>
            rw [rdropWhile_cons, rdropWhile_cons]
            rcases List.cons_lt_cons_iff.mp hlt with hcd | ⟨rfl, hlm⟩
            · -- the greater byte is not a space, and stays
              have hd : ¬((d == ' ') = true ∧ m.rdropWhile (· == ' ') = []) := by
                rintro ⟨hd, -⟩
                rw [beq_iff_eq] at hd
                exact absurd hcd (not_lt.mpr (hd ▸ hc))
              rw [if_neg hd]
              split
              · exact PyStr.le_of_isPrefix List.nil_prefix
              · exact (List.cons_lt_cons_iff.mpr (.inl hcd)).le
            · have hrest := ih hlm.le hl
              split
              · exact PyStr.le_of_isPrefix List.nil_prefix
              next hkeep =>
                split
                next hcut =>
                  -- then nothing is left of the smaller text either
                  have hnil := le_antisymm (hcut.2 ▸ hrest) (PyStr.le_of_isPrefix List.nil_prefix)
                  exact absurd ⟨hcut.1, hnil⟩ hkeep
                · exact List.cons_le_cons _ hrest
      · exact le_rfl

theorem base95IntToString_le {n m length : ℕ} (h : n ≤ m) (hm : m < lexBase ^ length) :
    base95IntToString n length ≤ base95IntToString m length := by
  have hdigits : base95Digits n length ≤ base95Digits m length := by
    rcases h.lt_or_eq with hlt | rfl
    · exact (base95Digits_lt hlt hm).le
    · exact le_rfl
  have hcut := rdropWhile_le hdigits fun c => le_of_mem_base95Digits
  unfold base95IntToString
  dsimp only
  split
  · split
    · exact le_rfl
    next hm' =>
      -- what is left of the greater one starts with a space or something behind it
      cases hl : (base95Digits m length).rdropWhile (· == ' ') with
      | nil => exact absurd hl hm'
      | cons c l =>
          have hmem : c ∈ base95Digits m length :=
            (List.rdropWhile_prefix ..).subset (hl ▸ List.mem_cons_self ..)
          rcases (le_of_mem_base95Digits hmem).lt_or_eq with hlt | rfl
          · exact (List.cons_lt_cons_iff.mpr (.inl hlt)).le
          · exact PyStr.le_of_isPrefix ⟨l, rfl⟩
  next hn =>
    rw [if_neg]
    · exact hcut
    · intro hm'
      exact hn (le_antisymm (hm' ▸ hcut) (PyStr.le_of_isPrefix List.nil_prefix))

/-- **The split points** come in order. -/
theorem lexInterpolate_sorted (a b : GoStr) (n : ℕ) :
    (lexInterpolate a b n).Pairwise (· ≤ ·) := by
  unfold lexInterpolate
  split
  · exact List.pairwise_singleton ..
  next hn =>
    dsimp only
    split
    · exact List.pairwise_singleton ..
    next hab =>
      rw [List.pairwise_map]
      refine (List.pairwise_lt_range' (s := 1) (n := n - 1)).imp_of_mem fun {i j} _ hj hij => ?_
      have hj' : j < n := by
        have := (List.mem_range'_1.mp hj).2
        omega
      refine base95IntToString_le ?_ (lt_of_le_of_lt ?_ (stringToBase95Int_lt b _))
      · exact Nat.add_le_add_left (Nat.div_le_div_right (Nat.mul_le_mul_left _ hij.le)) _
      · have hle : (stringToBase95Int b (max a.length b.length + 2) -
            stringToBase95Int a (max a.length b.length + 2)) * j / n ≤
              stringToBase95Int b (max a.length b.length + 2) -
                stringToBase95Int a (max a.length b.length + 2) :=
          Nat.div_le_of_le_mul (by rw [Nat.mul_comm]; exact Nat.mul_le_mul_right _ hj'.le)
        omega

/-- No split point is empty, if the first key is not. -/
theorem nil_not_mem_lexInterpolate {a : GoStr} (ha : a ≠ []) (b : GoStr) (n : ℕ) :
    [] ∉ lexInterpolate a b n := by
  unfold lexInterpolate
  split
  · exact fun h => ha (List.mem_singleton.mp h).symm
  · dsimp only
    split
    · exact fun h => ha (List.mem_singleton.mp h).symm
    · intro h
      obtain ⟨i, -, hi⟩ := List.mem_map.mp h
      unfold base95IntToString at hi
      dsimp only at hi
      split at hi
      · cases hi
      next hne => exact hne hi

/-- The split points of the first and the last key lose no key that is not one of them. -/
theorem splitsFit_lexInterpolate_iff {inclusive : Bool} {keys : List GoStr} {a : GoStr}
    (ha : a ≠ []) (b : GoStr) (n : ℕ) : SplitsFit inclusive keys (lexInterpolate a b n) ↔
      keys = [] ∨ inclusive = true ∨ ∀ key ∈ keys, key ∉ lexInterpolate a b n := by
  have hnil := nil_not_mem_lexInterpolate ha b n
  unfold SplitsFit
  rw [and_iff_right hnil, List.count_eq_zero_of_not_mem hnil]
  constructor
  · rintro (hkeys | hfit | ⟨hcount, -⟩)
    · exact .inl hkeys
    · exact .inr hfit
    · cases hcount
  · rintro (hkeys | hfit)
    · exact .inl hkeys
    · exact .inr (.inl hfit)

/-! ### A key at a split point -/

/-- A server with everything on one page. -/
def onePage (objects : List ListedObject) : ListObjects := fun input =>
  if input.continuationToken = [] then
    some ⟨objects.filter (Selected false input.keyPrefix input.startAfter), [], false⟩
  else none

theorem onePage_serves (h : objects.Pairwise fun o o' => o.path < o'.path) :
    ServesObjects (onePage objects) false objects := by
  refine ⟨h, fun keyPrefix startAfter maxItems => ?_⟩
  have hpage : onePage objects ⟨keyPrefix, startAfter, [], maxItems⟩ =
      some ⟨objects.filter (Selected false keyPrefix startAfter), [], false⟩ := rfl
  exact Lists.last hpage rfl

/-- Three files of a directory. -/
def threeFiles : List ListedObject :=
  [⟨['d', '/', 'a'], [], 0, 1⟩, ⟨['d', '/', 'b'], [], 0, 1⟩, ⟨['d', '/', 'c'], [], 0, 1⟩]

/-- Two split points of the first and the last key, which lie between the keys. -/
theorem listRanges_between : ∃ pages files,
    (∀ n ≥ pages, listRanges (onePage threeFiles) n ['d', '/']
      (lexInterpolate ['d', '/', 'a'] ['d', '/', 'c'] 3) = some ⟨files, false⟩) ∧
      ListedOnce threeFiles ['d', '/'] files := by
  have hserves : ServesObjects (onePage threeFiles) false threeFiles := onePage_serves (by decide)
  obtain ⟨pages, files, hlist, hiff⟩ := listRanges_once_iff hserves ['d', '/']
    (lexInterpolate_sorted ['d', '/', 'a'] ['d', '/', 'c'] 3)
  refine ⟨pages, files, hlist, hiff.mpr ?_⟩
  refine (splitsFit_lexInterpolate_iff (by decide) _ _).mpr (.inr (.inr ?_))
  decide +kernel

/-- The split point of the first and the last key is the one in the middle, and it is
lost. -/
theorem listRanges_loses : ServesObjects (onePage threeFiles) false threeFiles ∧ ∃ files,
    (∀ n ≥ 1, listRanges (onePage threeFiles) n ['d', '/']
      (lexInterpolate ['d', '/', 'a'] ['d', '/', 'c'] 2) = some ⟨files, false⟩) ∧
      ¬ListedOnce threeFiles ['d', '/'] files := by
  refine ⟨onePage_serves (by decide), [⟨['a'], [], 0, 1⟩, ⟨['c'], [], 0, 1⟩], fun n hn => ?_, ?_⟩
  · obtain ⟨n, rfl⟩ := Nat.exists_eq_add_of_le' hn
    have hsplits : lexInterpolate ['d', '/', 'a'] ['d', '/', 'c'] 2 = [['d', '/', 'b']] := by
      decide +kernel
    rw [hsplits]
    rfl
  · exact fun h => absurd h.length_eq (by decide)

end MultiStorageFileSystem
