/-
MultiStorageClient/ListRecursive.lean

`list_recursive` of the Rust client: the directories below some prefixes are
listed, several at a time, and the listings complete in any order.

What has been found and what is below the directories that are still to be listed
or being listed are together what is wanted (`ListRecursive.Ok`), as long as the
limit is not reached: a listing is told how much of the limit was left when it
began, so one that is cut short reaches it.
-/
import MultiStorageClient.CheckedArith
import MultiStorageClient.GoStr
import MultiStorageClient.Returns

namespace MultiStorageClient

open Run

/-! ### The store -/

/-- A path of the store, as its segments. -/
abbrev ObjectPath := List GoStr

/-- `Path::to_string` -/
def pathString (path : ObjectPath) : GoStr := List.intercalate ['/'] path

/-- `ObjectMeta`; `lastModified` is its RFC 3339 text. -/
structure ObjectMeta where
  location : ObjectPath
  size : ℕ
  lastModified : GoStr
  eTag : Option GoStr
  deriving DecidableEq

/-- What `list_with_delimiter` returns. -/
structure DelimitedListing where
  objects : List ObjectMeta
  commonPrefixes : List ObjectPath

/-- The store, as far as a recursive listing uses it. -/
structure ListingStore (ε : Type) where
  /-- `Path::parse` -/
  parsePath : GoStr → Except ε ObjectPath
  listWithDelimiter : ObjectPath → Except ε DelimitedListing

/-! ### The call -/

/-- `ObjectMetadata` of the Rust client -/
structure ListedMetadata where
  key : GoStr
  contentLength : ℕ
  lastModified : GoStr
  objectType : GoStr
  etag : Option GoStr
  deriving DecidableEq

/-- `ListResult` -/
structure ListResult where
  objects : List ListedMetadata
  prefixes : List ListedMetadata

/-- The arguments of `list_recursive`. -/
structure ListOptions where
  limit : Option ℕ
  suffix : Option GoStr
  maxDepth : Option ℕ
  maxConcurrency : ℕ

/-- A listing that is under way: `list_single_directory`. -/
structure ListTask where
  path : ObjectPath
  remainingLimit : Option ℕ
  depth : ℕ

/-- A state of `list_recursive`. -/
structure ListRecursive (ε : Type) where
  dirsToVisit : List (ObjectPath × ℕ)
  joinSet : List ListTask
  totalFound : ℕ
  allObjects : List ListedMetadata
  allDirectories : List ListedMetadata
  result : Option (Except (CallError ε) ListResult)

/-- The metadata of an object. -/
def ListedMetadata.ofObject (object : ObjectMeta) : ListedMetadata :=
  ⟨pathString object.location, object.size, object.lastModified, "file".toList, object.eTag⟩

/-- The metadata of a directory. -/
def ListedMetadata.ofDirectory (path : ObjectPath) : ListedMetadata :=
  ⟨pathString path, 0, "1970-01-01T00:00:00+00:00".toList, "directory".toList, none⟩

namespace ListRecursive

variable {ε : Type}

/-- An iteration of the main loop, with the listing that completes; or what comes after the loop. -/
inductive Step
  | iterate (i : ℕ)
  | finish
  deriving DecidableEq

variable (checks : Bool) (store : ListingStore ε) (opts : ListOptions) (s : ListRecursive ε)

/-- The object has the suffix that is asked for. -/
def HasSuffix (entry : ObjectMeta) : Prop := ∀ x ∈ opts.suffix, x <:+ pathString entry.location

instance (entry : ObjectMeta) : Decidable (HasSuffix opts entry) :=
  inferInstanceAs (Decidable (∀ x ∈ opts.suffix, x <:+ pathString entry.location))

/-- The loop of `list_single_directory` over the objects. -/
def takeObjects (limit : Option ℕ) : List ObjectMeta → List ObjectMeta → List ObjectMeta
  | objects, [] => objects
  | objects, entry :: entries =>
      if limit.any (· ≤ objects.length) then objects
      else if HasSuffix opts entry then takeObjects limit (objects ++ [entry]) entries
      else takeObjects limit objects entries

/-- `list_single_directory` -/
def listSingleDirectory (task : ListTask) :
    Except ε (List ObjectMeta × List ObjectPath × ℕ) := do
  let listing ← store.listWithDelimiter task.path
  pure (takeObjects opts task.remainingLimit [] listing.objects, listing.commonPrefixes, task.depth)

/-- `limit.map(|x| x - total_found)` -/
def remainingLimit (totalFound : ℕ) : Except (CallError ε) (Option ℕ) :=
  match opts.limit with
  | none => pure none
  | some x => some <$> U64.sub checks x totalFound

/-- The loop that spawns listings. -/
def spawnLoop (totalFound : ℕ) : List (ObjectPath × ℕ) → List ListTask →
    Except (CallError ε) (List (ObjectPath × ℕ) × List ListTask)
  | [], joinSet => pure ([], joinSet)
  | dir :: dirs, joinSet =>
      if joinSet.length < opts.maxConcurrency then
        if opts.maxDepth.any (· ≤ dir.2) then spawnLoop totalFound dirs joinSet
        else do
          let limit ← remainingLimit checks opts totalFound
          spawnLoop totalFound dirs (joinSet ++ [⟨dir.1, limit, dir.2⟩])
      else pure (dir :: dirs, joinSet)

/-- The loop that spawns tasks, while there are directories and permits. -/
def spawn : ListRecursive ε :=
  match spawnLoop checks opts s.totalFound s.dirsToVisit s.joinSet with
  | .error e => { s with result := some (.error e) }
  | .ok (dirsToVisit, joinSet) => { s with dirsToVisit := dirsToVisit, joinSet := joinSet }

/-- The listing of a task is taken in. -/
def joined (i : ℕ) (objects : List ObjectMeta) (directories : List ObjectPath) (depth : ℕ) :
    ListRecursive ε :=
  let allObjects := s.allObjects ++ objects.map ListedMetadata.ofObject
  { s with
    joinSet := s.joinSet.eraseIdx i
    dirsToVisit := s.dirsToVisit ++
      if opts.maxDepth.all (depth < ·) then directories.map fun d => (d, depth + 1) else []
    allObjects := allObjects
    allDirectories := s.allDirectories ++ directories.map ListedMetadata.ofDirectory
    totalFound := allObjects.length }

/-- `sort_by(|a, b| a.key.cmp(&b.key))` -/
def sortByKey (l : List ListedMetadata) : List ListedMetadata :=
  l.mergeSort fun a b => a.key ≤ b.key

/-- What comes after the loop. -/
def finish : ListRecursive ε :=
  let objects := match opts.limit with
    | none => sortByKey s.allObjects
    | some x => (sortByKey s.allObjects).take x
  { s with result := some (.ok ⟨objects, sortByKey s.allDirectories⟩) }

/-- An iteration of the loop of `list_recursive`, where the task `i` is the next that is done. -/
def iterate (i : ℕ) : Option (ListRecursive ε) :=
  match s.joinSet with
  -- no task left: the loop ends, or spawns from the directories still to visit
  | [] => if s.dirsToVisit = [] then none else some (s.spawn checks opts)
  | _ :: _ =>
      match s.joinSet[i]? with
      | none => none
      | some task =>
          match listSingleDirectory store opts task with
          -- the first error ends the call, and the tasks left are aborted
          | .error e => some { s with result := some (.error (.storage e)) }
          | .ok (objects, directories, depth) =>
              let s := s.joined opts i objects directories depth
              if opts.limit.any (· ≤ s.totalFound) then some (s.finish opts)
              else some (s.spawn checks opts)

/-- The steps of `list_recursive`. -/
def step : Step → Option (ListRecursive ε)
  | .iterate i => if s.result.isSome then none else s.iterate checks store opts i
  | .finish =>
      if s.result.isNone ∧ s.dirsToVisit = [] ∧ s.joinSet = [] then some (s.finish opts) else none

/-- The state before the loop. -/
def initial (prefixes : List GoStr) : ListRecursive ε :=
  match prefixes.mapM store.parsePath with
  | .error e => ⟨[], [], 0, [], [], some (.error (.storage e))⟩
  | .ok paths => ⟨paths.map fun path => (path, 0), [], 0, [], [], none⟩

/-! ### What is wanted -/

/-- The object is below a directory at this depth, not too deep, and has the suffix. -/
structure Below (path : ObjectPath) (depth : ℕ) (o : ObjectMeta) : Prop where
  inside : path <+: o.location
  strict : path.length < o.location.length
  depth : ∀ m ∈ opts.maxDepth, depth + (o.location.length - path.length - 1) < m
  suffix : HasSuffix opts o

theorem below_iff {path : ObjectPath} {depth : ℕ} {o : ObjectMeta} :
    Below opts path depth o ↔ path <+: o.location ∧ path.length < o.location.length ∧
      (∀ m ∈ opts.maxDepth, depth + (o.location.length - path.length - 1) < m) ∧
      HasSuffix opts o :=
  ⟨fun h => ⟨h.1, h.2, h.3, h.4⟩, fun h => ⟨h.1, h.2.1, h.2.2.1, h.2.2.2⟩⟩

instance (path : ObjectPath) (depth : ℕ) (o : ObjectMeta) : Decidable (Below opts path depth o) :=
  decidable_of_iff' _ (below_iff opts)

/-- A store with these objects.  A listing has the objects directly below a path, and once each
next segment of the path of another object below it. -/
structure Lists (store : ListingStore ε) (objects : List ObjectMeta) : Prop where
  nodup : (objects.map ObjectMeta.location).Nodup
  lists : ∀ path, ∃ listing, store.listWithDelimiter path = .ok listing ∧
    listing.objects.Perm (objects.filter fun o =>
      path <+: o.location ∧ o.location.length = path.length + 1) ∧
    listing.commonPrefixes.Nodup ∧
    ∀ q, q ∈ listing.commonPrefixes ↔
      path <+: q ∧ q.length = path.length + 1 ∧
        ∃ o ∈ objects, q <+: o.location ∧ q.length < o.location.length

/-- The objects that a listing of these paths is to find, in the order of the store. -/
def wanted (objects : List ObjectMeta) (paths : List ObjectPath) : List ListedMetadata :=
  (objects.filter fun o => ∃ path ∈ paths, Below opts path 0 o).map .ofObject

/-- The listing has what is wanted, or as much of it as the limit admits, in the order of the
keys. -/
def Meets (objects : List ObjectMeta) (paths : List ObjectPath) :
    Except (CallError ε) ListResult → Prop
  | .error _ => False
  | .ok result =>
      result.objects.Pairwise (fun a b => a.key ≤ b.key) ∧
        match opts.limit with
        | none => result.objects.Perm (wanted opts objects paths)
        | some x => result.objects.Subperm (wanted opts objects paths) ∧
            result.objects.length = min x (wanted opts objects paths).length

/-! ### One directory -/

section Directories

variable {opts} {objects : List ObjectMeta} {path q : ObjectPath} {depth : ℕ} {o : ObjectMeta}

theorem nodup_of_locations (h : (objects.map ObjectMeta.location).Nodup) : objects.Nodup :=
  List.Nodup.of_map _ h

/-- A path is below the directory that its next segment names. -/
theorem below_child (h : Below opts path depth o) (hne : o.location.length ≠ path.length + 1) :
    Below opts (o.location.take (path.length + 1)) (depth + 1) o := by
  have hstrict := h.strict
  have hlen : (o.location.take (path.length + 1)).length = path.length + 1 :=
    List.length_take_of_le hstrict
  refine ⟨List.take_prefix _ _, by omega, fun m hm => ?_, h.suffix⟩
  have := h.depth m hm
  omega

theorem below_of_child (hq : path <+: q) (hlen : q.length = path.length + 1)
    (h : Below opts q (depth + 1) o) : Below opts path depth o := by
  have hstrict := h.strict
  refine ⟨hq.trans h.inside, by omega, fun m hm => ?_, h.suffix⟩
  have := h.depth m hm
  omega

/-- An object is not below two directories of one length. -/
theorem eq_of_below {q' : ObjectPath} {depth' : ℕ} (h : Below opts q depth o)
    (h' : Below opts q' depth' o) (hlen : q.length = q'.length) : q = q' :=
  (List.prefix_of_prefix_length_le h.inside h'.inside hlen.le).eq_of_length hlen

/-- What is below a directory is directly in it or below one of the directories in it. -/
theorem below_perm {store : ListingStore ε} (hstore : Lists store objects)
    {listing : DelimitedListing} (hlisting : store.listWithDelimiter path = .ok listing)
    (hdepth : ∀ m ∈ opts.maxDepth, depth < m) :
    (objects.filter fun o => Below opts path depth o).Perm
      ((listing.objects.filter fun o => HasSuffix opts o) ++
        listing.commonPrefixes.flatMap fun q =>
          objects.filter fun o => Below opts q (depth + 1) o) := by
  obtain ⟨listing', hlisting', hobjects, hnodup, hprefixes⟩ := hstore.lists path
  obtain rfl := Except.ok.inj (hlisting.symm.trans hlisting')
  have hall : objects.Nodup := nodup_of_locations hstore.nodup
  have hdirect : ∀ o, o ∈ listing.objects ↔
      o ∈ objects ∧ path <+: o.location ∧ o.location.length = path.length + 1 := by
    intro o
    rw [hobjects.mem_iff, List.mem_filter, decide_eq_true_iff]
  refine (List.perm_ext_iff_of_nodup (hall.filter _) ?_).mpr fun o => ?_
  -- an object is directly below, or below one prefix only
  · refine List.nodup_append'.mpr ⟨?_, List.nodup_flatMap.mpr ⟨fun q _ => hall.filter _, ?_⟩, ?_⟩
    · exact (hobjects.nodup_iff.mpr (hall.filter _)).filter _
    · refine hnodup.pairwise_of_forall_ne fun q hq q' hq' hne o ho ho' => hne ?_
      simp only [List.mem_filter, decide_eq_true_iff] at ho ho'
      exact eq_of_below ho.2 ho'.2
        (((hprefixes q).mp hq).2.1.trans ((hprefixes q').mp hq').2.1.symm)
    · intro o ho ho'
      simp only [List.mem_filter, List.mem_flatMap, decide_eq_true_iff] at ho ho'
      obtain ⟨q, hq, -, hbelow⟩ := ho'
      have := ((hdirect o).mp ho.1).2.2
      have := ((hprefixes q).mp hq).2.1
      have := hbelow.strict
      omega
  · simp only [List.mem_append, List.mem_filter, List.mem_flatMap, decide_eq_true_iff, hdirect]
    constructor
    · rintro ⟨ho, hbelow⟩
      -- directly below
      by_cases hlen : o.location.length = path.length + 1
      · exact .inl ⟨⟨ho, hbelow.inside, hlen⟩, hbelow.suffix⟩
      -- below the child that its location goes through
      · have hchild := below_child hbelow hlen
        refine .inr ⟨_, (hprefixes _).mpr ⟨?_, ?_, o, ho, hchild.inside, hchild.strict⟩, ho, hchild⟩
        · refine List.prefix_take_iff.mpr ⟨hbelow.inside, Nat.le_succ _⟩
        · exact List.length_take_of_le hbelow.strict
    · rintro (⟨⟨ho, hinside, hlen⟩, hsuffix⟩ | ⟨q, hq, ho, hbelow⟩)
      · refine ⟨ho, hinside, by omega, fun m hm => ?_, hsuffix⟩
        have := hdepth m hm
        omega
      · exact ⟨ho, below_of_child ((hprefixes q).mp hq).1 ((hprefixes q).mp hq).2.1 hbelow⟩

end Directories

/-! ### What is left to list -/

/-- A directory that is not listed yet, or being listed, with its depth. -/
def entries : List (ObjectPath × ℕ) := s.dirsToVisit ++ s.joinSet.map fun t => (t.path, t.depth)

/-- The objects below some directories. -/
def pending (objects : List ObjectMeta) (dirs : List (ObjectPath × ℕ)) : List ObjectMeta :=
  dirs.flatMap fun d => objects.filter fun o => Below opts d.1 d.2 o

/-- A listing under way is not too deep, and is told what was left of the limit. -/
structure TaskOk (totalFound : ℕ) (t : ListTask) : Prop where
  depth : ∀ m ∈ opts.maxDepth, t.depth < m
  unlimited : opts.limit = none → t.remainingLimit = none
  limited : ∀ x ∈ opts.limit, ∃ r, t.remainingLimit = some r ∧ x ≤ r + totalFound

/-- The invariant of a listing, while it has no result. -/
structure Ok (objects : List ObjectMeta) (paths : List ObjectPath) (s : ListRecursive ε) :
    Prop where
  found : (s.allObjects ++ (pending opts objects s.entries).map ListedMetadata.ofObject).Perm
    (wanted opts objects paths)
  total : s.totalFound = s.allObjects.length
  room : ∀ x ∈ opts.limit, s.totalFound ≤ x
  tasks : ∀ t ∈ s.joinSet, TaskOk opts s.totalFound t

/-- The invariant of a listing. -/
def Inv (objects : List ObjectMeta) (paths : List ObjectPath) (s : ListRecursive ε) : Prop :=
  match s.result with
  | none => s.Ok opts objects paths
  | some r => Meets opts objects paths r

section Pending

variable {checks opts} {objects : List ObjectMeta} {dirs dirs' : List (ObjectPath × ℕ)}
  {tasks : List ListTask} {totalFound : ℕ}

variable (opts objects) in
theorem pending_perm (h : dirs.Perm dirs') :
    (pending opts objects dirs).Perm (pending opts objects dirs') :=
  h.flatMap_right _

theorem pending_append : pending opts objects (dirs ++ dirs') =
    pending opts objects dirs ++ pending opts objects dirs' := List.flatMap_append

theorem pending_cons (d : ObjectPath × ℕ) : pending opts objects (d :: dirs) =
    (objects.filter fun o => Below opts d.1 d.2 o) ++ pending opts objects dirs := rfl

/-- Nothing is wanted of what is too deep. -/
theorem pending_tooDeep (h : ∀ d ∈ dirs, opts.maxDepth.any (· ≤ d.2) = true) :
    pending opts objects dirs = [] := by
  refine List.flatMap_eq_nil_iff.mpr fun d hd => List.filter_eq_nil_iff.mpr fun o _ ho => ?_
  obtain ⟨m, hm, hle⟩ := (Option.any_eq_true _ _).mp (h d hd)
  have := (of_decide_eq_true ho).depth m hm
  have := of_decide_eq_true hle
  omega

theorem remainingLimit_eq (hroom : ∀ x ∈ opts.limit, totalFound ≤ x) :
    remainingLimit (ε := ε) checks opts totalFound = .ok (opts.limit.map (· - totalFound)) := by
  unfold remainingLimit
  cases hlimit : opts.limit with
  | none => rfl
  | some x =>
      dsimp only
      rw [U64.sub_eq (hroom x hlimit)]
      rfl

variable (checks dirs tasks) in
/-- Spawning listings puts directories among those being listed, and skips those too deep. -/
theorem spawnLoop_eq (hroom : ∀ x ∈ opts.limit, totalFound ≤ x) :
    ∃ dirs' tasks' skipped,
      spawnLoop (ε := ε) checks opts totalFound dirs tasks = .ok (dirs', tasks') ∧
      (dirs ++ tasks.map fun t => (t.path, t.depth)).Perm
        (skipped ++ (dirs' ++ tasks'.map fun t => (t.path, t.depth))) ∧
      (∀ d ∈ skipped, opts.maxDepth.any (· ≤ d.2) = true) ∧
      ((∀ t ∈ tasks, TaskOk opts totalFound t) → ∀ t ∈ tasks', TaskOk opts totalFound t) ∧
      tasks <+: tasks' ∧
      (0 < opts.maxConcurrency → dirs ≠ [] → tasks = [] → tasks' ≠ [] ∨ skipped ≠ []) := by
  induction dirs generalizing tasks with
  | nil =>
      exact ⟨[], tasks, [], rfl, .refl _, nofun, id, List.prefix_rfl, fun _ h => absurd rfl h⟩
  | cons d dirs ih =>
      unfold spawnLoop
      split
      next hlt =>
        split
        next hdeep =>
          obtain ⟨dirs', tasks', skipped, heq, hperm, hskipped, htasks, hsub, -⟩ := ih tasks
          refine ⟨dirs', tasks', d :: skipped, heq, hperm.cons d, ?_, htasks, hsub,
            fun _ _ _ => .inr nofun⟩
          exact List.forall_mem_cons.mpr ⟨hdeep, hskipped⟩
        next hdeep =>
          obtain ⟨dirs', tasks', skipped, heq, hperm, hskipped, htasks, hsub, -⟩ :=
            ih (tasks ++ [⟨d.1, opts.limit.map (· - totalFound), d.2⟩])
          rw [remainingLimit_eq hroom]
          refine ⟨dirs', tasks', skipped, heq, ?_, hskipped, fun hok => htasks ?_,
            (List.prefix_append _ _).trans hsub, fun _ _ _ => .inl ?_⟩
          · refine List.Perm.trans ?_ hperm
            rw [List.map_append, ← List.append_assoc]
            exact (List.perm_append_singleton d _).symm
          · intro t ht
            obtain ht | ht := List.mem_append.mp ht
            · exact hok t ht
            · obtain rfl := List.mem_singleton.mp ht
              refine ⟨fun m hm => ?_, fun h => by rw [h]; rfl, fun x hx => ?_⟩
              · by_contra hle
                exact hdeep ((Option.any_eq_true _ _).mpr ⟨m, hm, by simpa using hle⟩)
              · have hle := hroom x hx
                exact ⟨x - totalFound, by rw [Option.mem_def.mp hx]; rfl, by omega⟩
          · rintro rfl
            exact absurd (List.prefix_nil.mp hsub) (List.append_ne_nil_of_right_ne_nil _ nofun)
      next hge =>
        refine ⟨d :: dirs, tasks, [], rfl, .refl _, nofun, id, List.prefix_rfl,
          fun hpos _ hnil => ?_⟩
        rw [hnil] at hge
        exact absurd hpos hge

end Pending

/-! ### The end of a listing -/

section Finish

variable {opts s} {objects : List ObjectMeta} {paths : List ObjectPath}

theorem sortByKey_perm (l : List ListedMetadata) : (sortByKey l).Perm l := List.mergeSort_perm _ _

theorem sortByKey_sorted (l : List ListedMetadata) :
    (sortByKey l).Pairwise fun a b => a.key ≤ b.key := by
  have h : (sortByKey l).Pairwise fun a b => decide (a.key ≤ b.key) = true :=
    List.pairwise_mergeSort
      (fun a b c hab hbc => decide_eq_true ((of_decide_eq_true hab).trans (of_decide_eq_true hbc)))
      (fun a b => by simpa using le_total a.key b.key) l
  exact h.imp fun hab => of_decide_eq_true hab

/-- What has been found is all that is wanted, or reaches the limit. -/
theorem finish_inv (hsub : s.allObjects.Subperm (wanted opts objects paths))
    (hall : s.allObjects.Perm (wanted opts objects paths) ∨
      ∃ x, opts.limit = some x ∧ x ≤ s.allObjects.length) :
    (s.finish opts).Inv opts objects paths := by
  have hsort := sortByKey_perm s.allObjects
  unfold Inv finish
  dsimp only [Meets]
  cases hlimit : opts.limit with
  | none =>
      obtain hall | ⟨x, hx, -⟩ := hall
      · exact ⟨sortByKey_sorted _, hsort.trans hall⟩
      · cases hlimit.symm.trans hx
  | some x =>
      refine ⟨(sortByKey_sorted _).sublist (List.take_sublist _ _), ?_, ?_⟩
      · exact (List.take_sublist _ _).subperm.trans (hsort.subperm.trans hsub)
      · have hle := hsub.length_le
        rw [List.length_take, hsort.length_eq]
        obtain hall | ⟨y, hy, hreached⟩ := hall
        · rw [hall.length_eq]
        · obtain rfl := Option.some.inj (hlimit.symm.trans hy)
          omega

theorem Ok.finish (h : s.Ok opts objects paths) (hdirs : s.dirsToVisit = [])
    (htasks : s.joinSet = []) : (s.finish opts).Inv opts objects paths := by
  have hfound := h.found
  rw [entries, hdirs, htasks] at hfound
  have hperm : s.allObjects.Perm (wanted opts objects paths) := by
    simpa [pending] using hfound
  exact finish_inv hperm.subperm (.inl hperm)

end Finish

/-! ### One iteration -/

section Iterate

variable {checks opts s} {objects : List ObjectMeta} {paths : List ObjectPath}

theorem takeObjects_none (acc l : List ObjectMeta) :
    takeObjects opts none acc l = acc ++ l.filter fun o => HasSuffix opts o := by
  induction l generalizing acc with
  | nil => simp [takeObjects]
  | cons o l ih =>
      unfold takeObjects
      by_cases ho : HasSuffix opts o
      · simp [ih, ho]
      · simp [ih, ho]

/-- With a limit, only as many objects are taken as are still missing. -/
theorem takeObjects_some (r : ℕ) (acc l : List ObjectMeta) (h : acc.length ≤ r) :
    takeObjects opts (some r) acc l =
      acc ++ (l.filter fun o => HasSuffix opts o).take (r - acc.length) := by
  induction l generalizing acc with
  | nil => simp [takeObjects]
  | cons o l ih =>
      unfold takeObjects
      by_cases hfull : r ≤ acc.length
      · have hzero : r - acc.length = 0 := by omega
        simp [hfull, hzero]
      · by_cases ho : HasSuffix opts o
        · obtain ⟨k, hk⟩ : ∃ k, r - acc.length = k + 1 := ⟨r - acc.length - 1, by omega⟩
          have hk' : r - (acc.length + 1) = k := by omega
          simp [hfull, ho, hk, hk', ih (acc ++ [o]) (by simp; omega)]
        · simp [hfull, ho, ih acc h]

variable (checks) in
/-- What spawning listings changes. -/
theorem spawn_spec (hroom : ∀ x ∈ opts.limit, s.totalFound ≤ x) :
    ∃ skipped dirs' tasks',
      s.spawn checks opts = { s with dirsToVisit := dirs', joinSet := tasks' } ∧
      s.entries.Perm (skipped ++ (s.spawn checks opts).entries) ∧
      (∀ d ∈ skipped, opts.maxDepth.any (· ≤ d.2) = true) ∧
      ((∀ t ∈ s.joinSet, TaskOk opts s.totalFound t) → ∀ t ∈ tasks', TaskOk opts s.totalFound t) ∧
      (0 < opts.maxConcurrency → s.dirsToVisit ≠ [] → s.joinSet = [] →
        tasks' ≠ [] ∨ skipped ≠ []) := by
  obtain ⟨dirs', tasks', skipped, heq, hperm, hskipped, htasks, -, hmoved⟩ :=
    spawnLoop_eq (ε := ε) checks s.dirsToVisit s.joinSet hroom
  have hspawn : s.spawn checks opts = { s with dirsToVisit := dirs', joinSet := tasks' } := by
    unfold spawn
    rw [heq]
  exact ⟨skipped, dirs', tasks', hspawn, by rw [hspawn]; exact hperm, hskipped, htasks, hmoved⟩

variable (checks) in
theorem spawn_ok (h : s.Ok opts objects paths) : (s.spawn checks opts).Ok opts objects paths := by
  obtain ⟨skipped, dirs', tasks', hspawn, hperm, hskipped, htasks, -⟩ := spawn_spec checks h.room
  have hpending := pending_perm opts objects hperm
  rw [pending_append, pending_tooDeep hskipped, List.nil_append] at hpending
  rw [hspawn] at hpending ⊢
  exact ⟨((hpending.symm.map _).append_left _).trans h.found, h.total, h.room, htasks h.tasks⟩

/-- One of the directories that are being listed, and the others. -/
theorem entries_perm {i : ℕ} {task : ListTask} (hi : s.joinSet[i]? = some task) :
    s.entries.Perm ((task.path, task.depth) ::
      (s.dirsToVisit ++ (s.joinSet.eraseIdx i).map fun t => (t.path, t.depth))) := by
  obtain ⟨hlt, rfl⟩ := List.getElem?_eq_some_iff.mp hi
  have hset : s.joinSet.Perm (s.joinSet[i] :: s.joinSet.eraseIdx i) :=
    (List.getElem_cons_eraseIdx_perm hlt).symm
  exact (List.Perm.append_left _ (hset.map _)).trans List.perm_middle

/-- The listing of a directory and what is below it. -/
theorem pending_joined {store : ListingStore ε} (hstore : Lists store objects) {i : ℕ}
    {task : ListTask} (hi : s.joinSet[i]? = some task) (htask : TaskOk opts s.totalFound task)
    {listing : DelimitedListing} (hlisting : store.listWithDelimiter task.path = .ok listing)
    (found : List ObjectMeta) :
    (pending opts objects s.entries).Perm ((listing.objects.filter fun o => HasSuffix opts o) ++
      pending opts objects (s.joined opts i found listing.commonPrefixes task.depth).entries) := by
  have hdeep : opts.maxDepth.all (task.depth < ·) = true :=
    (Option.all_eq_true _ _).mpr fun m hm => decide_eq_true (htask.depth m hm)
  refine (pending_perm opts objects (entries_perm hi)).trans ?_
  have hbelow := below_perm hstore hlisting htask.depth
  have hchildren : (listing.commonPrefixes.flatMap fun q =>
      objects.filter fun o => Below opts q (task.depth + 1) o) =
        pending opts objects (listing.commonPrefixes.map fun d => (d, task.depth + 1)) := by
    rw [pending, List.flatMap_map]
  unfold joined entries
  rw [if_pos hdeep]
  simp only [pending_cons, pending_append]
  rw [hchildren] at hbelow
  refine (hbelow.append_right _).trans ?_
  rw [List.append_assoc, ← List.append_assoc (pending _ _ (listing.commonPrefixes.map _))]
  exact (List.perm_append_comm.append_right _).append_left _

/-- A listing that is not cut short has all objects of its directory; one that is reaches the
limit. -/
theorem takeObjects_task {task : ListTask} (htask : TaskOk opts s.totalFound task)
    (l : List ObjectMeta) :
    takeObjects opts task.remainingLimit [] l = l.filter (fun o => HasSuffix opts o) ∨
      ∃ x, opts.limit = some x ∧
        x ≤ s.totalFound + (takeObjects opts task.remainingLimit [] l).length := by
  cases hlimit : opts.limit with
  | none =>
      rw [htask.unlimited hlimit, takeObjects_none, List.nil_append]
      exact .inl rfl
  | some x =>
      obtain ⟨r, hr, hle⟩ := htask.limited x hlimit
      rw [hr, takeObjects_some r [] l (Nat.zero_le r), List.nil_append, List.length_nil,
        Nat.sub_zero]
      by_cases hall : (l.filter fun o => HasSuffix opts o).length ≤ r
      · exact .inl (List.take_of_length_le hall)
      · refine .inr ⟨x, rfl, ?_⟩
        rw [List.length_take]
        omega

theorem takeObjects_sublist {task : ListTask} (htask : TaskOk opts s.totalFound task)
    (l : List ObjectMeta) :
    (takeObjects opts task.remainingLimit [] l).Sublist (l.filter fun o => HasSuffix opts o) := by
  cases hlimit : opts.limit with
  | none => rw [htask.unlimited hlimit, takeObjects_none, List.nil_append]
  | some x =>
      obtain ⟨r, hr, -⟩ := htask.limited x hlimit
      rw [hr, takeObjects_some r [] l (Nat.zero_le r), List.nil_append]
      exact List.take_sublist _ _

/-- The objects of a directory are taken in. -/
theorem joined_inv {store : ListingStore ε} (hstore : Lists store objects)
    (h : s.Ok opts objects paths) {i : ℕ} {task : ListTask} (hi : s.joinSet[i]? = some task)
    {listing : DelimitedListing}
    (hlisting : store.listWithDelimiter task.path = .ok listing) :
    let s' := s.joined opts i (takeObjects opts task.remainingLimit [] listing.objects)
      listing.commonPrefixes task.depth
    if opts.limit.any (· ≤ s'.totalFound) then (s'.finish opts).Inv opts objects paths
    else s'.Ok opts objects paths := by
  have htask := h.tasks task (List.mem_of_getElem? hi)
  have hpending := pending_joined hstore hi htask hlisting
    (takeObjects opts task.remainingLimit [] listing.objects)
  have hcut := takeObjects_task htask listing.objects
  have hsub := takeObjects_sublist htask listing.objects
  generalize takeObjects opts task.remainingLimit [] listing.objects = found at *
  intro s'
  have htotal : s'.totalFound = s.totalFound + found.length := by
    show (s.allObjects ++ found.map ListedMetadata.ofObject).length = _
    rw [List.length_append, List.length_map, h.total]
  -- what has been found, with all objects of the directory, and what is left
  have hfound : ((s.allObjects ++ (listing.objects.filter fun o => HasSuffix opts o).map
      ListedMetadata.ofObject) ++
        (pending opts objects s'.entries).map ListedMetadata.ofObject).Perm
      (wanted opts objects paths) := by
    refine List.Perm.trans ?_ h.found
    rw [List.append_assoc, ← List.map_append]
    exact ((hpending.map _).symm.append_left _)
  split
  next hlimit =>
    obtain ⟨x, hx, hle⟩ := (Option.any_eq_true _ _).mp hlimit
    refine finish_inv ?_ (.inr ⟨x, hx, of_decide_eq_true hle⟩)
    refine List.Subperm.trans (List.Sublist.subperm ?_) hfound.subperm
    exact ((hsub.map _).append_left _).trans (List.sublist_append_left _ _)
  next hlimit =>
    have hroom : ∀ x ∈ opts.limit, s'.totalFound < x := by
      intro x hx
      by_contra hle
      exact hlimit ((Option.any_eq_true _ _).mpr ⟨x, hx, decide_eq_true (Nat.le_of_not_lt hle)⟩)
    obtain rfl : found = listing.objects.filter fun o => HasSuffix opts o := by
      refine hcut.resolve_right ?_
      rintro ⟨x, hx, hle⟩
      have := hroom x hx
      omega
    refine ⟨hfound, rfl, fun x hx => (hroom x hx).le, fun t ht => ?_⟩
    have hold := h.tasks t (List.mem_of_mem_eraseIdx ht)
    refine ⟨hold.depth, hold.unlimited, fun x hx => ?_⟩
    obtain ⟨r, hr, hle⟩ := hold.limited x hx
    exact ⟨r, hr, by omega⟩

end Iterate

/-! ### What is left to do -/

/-- No path of an object is longer. -/
def maxLength (objects : List ObjectMeta) : ℕ := (objects.map fun o => o.location.length).sum

/-- More than what all directories directly below the path weigh. -/
def weight (objects : List ObjectMeta) (path : ObjectPath) : ℕ :=
  (objects.length + 1) ^ (maxLength objects - path.length)

/-- What is left to do below some directories. -/
def weights (objects : List ObjectMeta) (dirs : List (ObjectPath × ℕ)) : ℕ :=
  (dirs.map fun d => weight objects d.1).sum

/-- What is left to do. -/
def left (objects : List ObjectMeta) (s : ListRecursive ε) : ℕ :=
  2 * weights objects s.entries + (if s.joinSet.isEmpty then 1 else 0) +
    if s.result.isSome then 0 else 1

section Left

variable {checks opts s} {objects : List ObjectMeta} {paths : List ObjectPath}
  {dirs dirs' : List (ObjectPath × ℕ)} {path : ObjectPath}

theorem weights_append : weights objects (dirs ++ dirs') =
    weights objects dirs + weights objects dirs' := by
  rw [weights, List.map_append, List.sum_append, weights, weights]

variable (objects) in
theorem weights_perm (h : dirs.Perm dirs') : weights objects dirs = weights objects dirs' :=
  (h.map _).sum_eq

variable (objects path) in
theorem weight_pos : 0 < weight objects path := Nat.pow_pos (Nat.succ_pos _)

theorem length_le_maxLength {o : ObjectMeta} (ho : o ∈ objects) :
    o.location.length ≤ maxLength objects :=
  le_sum_map ho fun o => o.location.length

/-- The directories in a directory weigh less than it. -/
theorem weights_children {store : ListingStore ε} (hstore : Lists store objects)
    {listing : DelimitedListing} (hlisting : store.listWithDelimiter path = .ok listing)
    (depth : ℕ) :
    weights objects (listing.commonPrefixes.map fun d => (d, depth)) < weight objects path := by
  obtain ⟨listing', hlisting', -, hnodup, hprefixes⟩ := hstore.lists path
  obtain rfl := Except.ok.inj (hlisting.symm.trans hlisting')
  have hweights : weights objects (listing.commonPrefixes.map fun d => (d, depth)) =
      listing.commonPrefixes.length *
        (objects.length + 1) ^ (maxLength objects - (path.length + 1)) := by
    have hconst : ∀ q ∈ listing.commonPrefixes, weight objects q =
        (objects.length + 1) ^ (maxLength objects - (path.length + 1)) := by
      intro q hq
      rw [weight, ((hprefixes q).mp hq).2.1]
    rw [weights, List.map_map, Function.comp_def, List.map_congr_left hconst, List.map_const',
      List.sum_replicate_nat]
  rw [hweights]
  cases hcps : listing.commonPrefixes with
  | nil => rw [List.length_nil, Nat.zero_mul]; exact weight_pos objects path
  | cons q qs =>
      -- the next segments are of paths of objects, and longer than the path
      obtain ⟨-, hlen, o, ho, -, hlt⟩ := (hprefixes q).mp (by rw [hcps]; exact List.mem_cons_self)
      have hmax := length_le_maxLength ho
      have hsubset :
          listing.commonPrefixes ⊆ objects.map fun o => o.location.take (path.length + 1) := by
        intro q hq
        obtain ⟨-, hlen, o, ho, hinside, -⟩ := (hprefixes q).mp hq
        refine List.mem_map.mpr ⟨o, ho, ?_⟩
        rw [← hlen]
        exact (List.prefix_iff_eq_take.mp hinside).symm
      have hle := (List.subperm_of_subset hnodup hsubset).length_le
      rw [List.length_map, hcps] at hle
      have hexp : maxLength objects - path.length = maxLength objects - (path.length + 1) + 1 := by
        omega
      rw [weight, hexp, Nat.pow_succ, Nat.mul_comm]
      exact Nat.mul_lt_mul_of_pos_left (by omega) (Nat.pow_pos (Nat.succ_pos _))

variable (opts) in
/-- A joined listing makes what is to be listed smaller. -/
theorem weights_joined {store : ListingStore ε} (hstore : Lists store objects) {i : ℕ}
    {task : ListTask} (hi : s.joinSet[i]? = some task) {listing : DelimitedListing}
    (hlisting : store.listWithDelimiter task.path = .ok listing) (found : List ObjectMeta) :
    weights objects (s.joined opts i found listing.commonPrefixes task.depth).entries <
      weights objects s.entries := by
  have hchildren := weights_children hstore hlisting (task.depth + 1)
  rw [weights_perm objects (entries_perm hi), ← List.singleton_append]
  unfold joined entries
  simp only [weights_append]
  have hself : weights objects [(task.path, task.depth)] = weight objects task.path := by
    rw [weights, List.map_singleton, List.sum_singleton]
  rw [hself]
  split
  · omega
  · have hnil : weights objects [] = 0 := rfl
    omega

/-- Spawning listings leaves no more to do. -/
theorem left_spawn_le (h : s.Ok opts objects paths) :
    weights objects (s.spawn checks opts).entries ≤ weights objects s.entries := by
  obtain ⟨skipped, -, -, -, hperm, -⟩ := spawn_spec checks h.room
  rw [weights_perm objects hperm, weights_append]
  exact Nat.le_add_left _ _

/-- A spawn leaves fewer steps. -/
theorem left_spawn_lt (hconcurrency : 0 < opts.maxConcurrency) (h : s.Ok opts objects paths)
    (hdirs : s.dirsToVisit ≠ []) (htasks : s.joinSet = []) :
    left objects (s.spawn checks opts) < left objects s := by
  obtain ⟨skipped, dirs', tasks', hspawn, hperm, -, -, hmoved⟩ := spawn_spec checks h.room
  have hweights := weights_perm objects hperm
  rw [weights_append] at hweights
  have hresult : (s.spawn checks opts).result = s.result := by rw [hspawn]
  have hset : (s.spawn checks opts).joinSet = tasks' := by rw [hspawn]
  unfold left
  rw [hresult, hset, htasks]
  obtain hne | hne := hmoved hconcurrency hdirs htasks
  · rw [List.isEmpty_eq_false_iff.mpr hne]
    simp only [List.isEmpty_nil, if_true, Bool.false_eq_true, if_false]
    omega
  · have hpos : 0 < weights objects skipped := by
      obtain ⟨d, skipped, rfl⟩ := List.exists_cons_of_ne_nil hne
      have := weight_pos objects d.1
      rw [weights, List.map_cons, List.sum_cons]
      omega
    simp only [List.isEmpty_nil, if_true]
    split <;> omega

end Left

/-! ### Every run -/

section Runs

variable {checks opts s} {store : ListingStore ε} {objects : List ObjectMeta}
  {paths : List ObjectPath} {s' : ListRecursive ε}

theorem Ok.inv (h : s.Ok opts objects paths) (hnone : s.result = none) :
    s.Inv opts objects paths := by
  unfold Inv
  rw [hnone]
  exact h

theorem spawn_inv (h : s.Ok opts objects paths) (hnone : s.result = none) :
    (s.spawn checks opts).Inv opts objects paths := by
  obtain ⟨-, dirs', tasks', hspawn, -⟩ := spawn_spec checks h.room
  exact (spawn_ok checks h).inv (by rw [hspawn]; exact hnone)

/-- Directories of less weight are left. -/
theorem left_lt (hnone : s.result = none)
    (hweights : weights objects s'.entries < weights objects s.entries) :
    left objects s' < left objects s := by
  have hle : left objects s' ≤ 2 * weights objects s'.entries + 1 + 1 :=
    Nat.add_le_add (Nat.add_le_add_left (by split <;> omega) _) (by split <;> omega)
  have hlt : 2 * weights objects s.entries + 1 ≤ left objects s := by
    unfold left
    rw [hnone]
    exact Nat.add_le_add_right (Nat.le_add_right _ _) 1
  omega

theorem left_finish (hnone : s.result = none) : left objects (s.finish opts) < left objects s := by
  have hresult : (s.finish opts).result.isSome = true := rfl
  have hentries : (s.finish opts).entries = s.entries := rfl
  have hset : (s.finish opts).joinSet = s.joinSet := rfl
  unfold left
  rw [hresult, hentries, hset, hnone]
  exact Nat.lt_succ_self _

/-- An iteration keeps the invariant and leaves fewer steps. -/
theorem iterate_ok (hstore : Lists store objects) (hconcurrency : 0 < opts.maxConcurrency)
    (h : s.Ok opts objects paths) (hnone : s.result = none) {i : ℕ}
    (hstep : s.iterate checks store opts i = some s') :
    s'.Inv opts objects paths ∧ left objects s' < left objects s := by
  unfold iterate at hstep
  split at hstep
  next hset =>
    split at hstep
    next => cases hstep
    -- no listing is out: some directories are taken from the queue
    next hdirs =>
      cases hstep
      exact ⟨spawn_inv h hnone, left_spawn_lt hconcurrency h hdirs hset⟩
  next =>
    split at hstep
    next => cases hstep
    -- a listing comes back
    next task hi =>
      obtain ⟨listing, hlisting, -⟩ := hstore.lists task.path
      have hlist : listSingleDirectory store opts task = .ok
          (takeObjects opts task.remainingLimit [] listing.objects, listing.commonPrefixes,
            task.depth) := by
        rw [listSingleDirectory, hlisting]
        rfl
      rw [hlist] at hstep
      have hjoined := joined_inv hstore h hi hlisting
      dsimp only at hstep hjoined
      have hresult : (s.joined opts i (takeObjects opts task.remainingLimit [] listing.objects)
          listing.commonPrefixes task.depth).result = none := hnone
      have hweights := weights_joined opts hstore hi hlisting
        (takeObjects opts task.remainingLimit [] listing.objects)
      generalize s.joined opts i (takeObjects opts task.remainingLimit [] listing.objects)
        listing.commonPrefixes task.depth = t at *
      split at hjoined
      -- the limit is reached
      next hlimit =>
        rw [if_pos hlimit] at hstep
        cases hstep
        exact ⟨hjoined, left_lt hnone hweights⟩
      -- it is not, and the directories found are queued
      next hlimit =>
        rw [if_neg hlimit] at hstep
        cases hstep
        exact ⟨spawn_inv hjoined hresult, left_lt hnone ((left_spawn_le hjoined).trans_lt hweights)⟩

/-- Every step keeps the invariant and leaves fewer steps. -/
theorem step_ok (hstore : Lists store objects) (hconcurrency : 0 < opts.maxConcurrency) {a : Step}
    (h : s.Inv opts objects paths) (hstep : step checks store opts s a = some s') :
    s'.Inv opts objects paths ∧ left objects s' < left objects s := by
  have hok : s.result = none → s.Ok opts objects paths := by
    intro hnone
    unfold Inv at h
    rwa [hnone] at h
  cases a with
  | iterate i =>
      simp only [step] at hstep
      split at hstep
      next => cases hstep
      next hsome =>
        have hnone := Option.not_isSome_iff_eq_none.mp hsome
        exact iterate_ok hstore hconcurrency (hok hnone) hnone hstep
  | finish =>
      simp only [step] at hstep
      split at hstep
      next hcan =>
        cases hstep
        have hnone := Option.isNone_iff_eq_none.mp hcan.1
        exact ⟨(hok hnone).finish hcan.2.1 hcan.2.2, left_finish hnone⟩
      next => cases hstep

/-- Until there is a result, something can be done. -/
theorem progress (hnone : s.result = none) : ∃ a, (step checks store opts s a).isSome := by
  by_cases hset : s.joinSet = []
  · by_cases hdirs : s.dirsToVisit = []
    · refine ⟨.finish, ?_⟩
      simp only [step]
      rw [if_pos ⟨by rw [hnone]; rfl, hdirs, hset⟩]
      rfl
    · refine ⟨.iterate 0, ?_⟩
      simp only [step, iterate, hnone, hset, if_neg hdirs]
      rfl
  · obtain ⟨task, tasks, hset⟩ := List.exists_cons_of_ne_nil hset
    refine ⟨.iterate 0, ?_⟩
    simp only [step, iterate, hnone, hset, List.getElem?_cons_zero, Option.isSome_none,
      Bool.false_eq_true, if_false]
    cases listSingleDirectory store opts task with
    | error e => rfl
    | ok found =>
        dsimp only
        split <;> rfl

/-- The paths of which none is below another cover what is wanted once. -/
theorem pending_initial (hstore : Lists store objects)
    (hpaths : paths.Pairwise fun p q => ¬p <+: q ∧ ¬q <+: p) :
    ((pending opts objects (paths.map fun path => (path, 0))).map ListedMetadata.ofObject).Perm
      (wanted opts objects paths) := by
  have hall : objects.Nodup := nodup_of_locations hstore.nodup
  refine List.Perm.map _ ?_
  rw [pending, List.flatMap_map]
  refine (List.perm_ext_iff_of_nodup (List.nodup_flatMap.mpr ⟨fun _ _ => hall.filter _, ?_⟩)
    (hall.filter _)).mpr fun o => ?_
  · refine hpaths.imp fun {p q} hpq o ho ho' => ?_
    simp only [List.mem_filter, decide_eq_true_iff] at ho ho'
    obtain hle | hle := Nat.le_total p.length q.length
    · exact hpq.1 (List.prefix_of_prefix_length_le ho.2.inside ho'.2.inside hle)
    · exact hpq.2 (List.prefix_of_prefix_length_le ho'.2.inside ho.2.inside hle)
  · simp only [List.mem_flatMap, List.mem_filter, decide_eq_true_iff]
    constructor
    · rintro ⟨path, hpath, ho, hbelow⟩
      exact ⟨ho, path, hpath, hbelow⟩
    · rintro ⟨ho, path, hpath, hbelow⟩
      exact ⟨path, hpath, ho, hbelow⟩

/-- **`list_recursive` returns what is wanted**, in whatever order the listings complete, and
without an underflow. -/
theorem list_recursive_returns (hstore : Lists store objects) (prefixes : List GoStr)
    (hparse : prefixes.mapM store.parsePath = .ok paths)
    (hpaths : paths.Pairwise fun p q => ¬p <+: q ∧ ¬q <+: p)
    (hconcurrency : 0 < opts.maxConcurrency) :
    Returns (step checks store opts) result (Meets (ε := ε) opts objects paths)
      (initial store prefixes) := by
  refine .of_measure (left objects) (fun _ _ _ h hstep => step_ok hstore hconcurrency h hstep)
    (fun _ _ hnone => progress hnone) (fun s r h hr => ?_)
    (show Inv opts objects paths _ from ?_)
  · unfold Inv at h
    rwa [hr] at h
  · have hinitial : initial store prefixes =
        ⟨paths.map fun path => (path, 0), [], 0, [], [], none⟩ := by
      rw [initial, hparse]
    rw [hinitial]
    refine Ok.inv ⟨?_, rfl, fun _ _ => Nat.zero_le _, nofun⟩ rfl
    show ([] ++ (pending opts objects (paths.map (fun path => (path, 0)) ++ [])).map _).Perm _
    rw [List.nil_append, List.append_nil]
    exact pending_initial hstore hpaths

end Runs

/-- A store with some objects. -/
def storeOf (objects : List ObjectMeta) : ListingStore Unit where
  parsePath path := .ok (path.splitOn '/')
  listWithDelimiter path := .ok
    { objects := objects.filter fun o =>
        path <+: o.location ∧ o.location.length = path.length + 1
      commonPrefixes := ((objects.filter fun o =>
        path <+: o.location ∧ path.length + 1 < o.location.length).map fun o =>
          o.location.take (path.length + 1)).dedup }

/-- The sample store lists its objects. -/
theorem storeOf_lists {objects : List ObjectMeta} (h : (objects.map ObjectMeta.location).Nodup) :
    Lists (storeOf objects) objects where
  nodup := h
  lists path := by
    refine ⟨_, rfl, .refl _, List.nodup_dedup _, fun q => ?_⟩
    simp only [List.mem_dedup, List.mem_map, List.mem_filter, decide_eq_true_iff]
    constructor
    · rintro ⟨o, ⟨ho, hinside, hlt⟩, rfl⟩
      have hlen := List.length_take_of_le hlt.le
      exact ⟨List.prefix_take_iff.mpr ⟨hinside, Nat.le_succ _⟩, hlen, o, ho, List.take_prefix _ _,
        by rw [hlen]; exact hlt⟩
    · rintro ⟨hsub, hlen, o, ho, hinside, hlt⟩
      refine ⟨o, ⟨ho, hsub.trans hinside, hlen ▸ hlt⟩, ?_⟩
      rw [← hlen]
      exact (List.prefix_iff_eq_take.mp hinside).symm

/-- The objects `a/x`, `a/b/x`, `a/b/c/x` and `a/n` of a store. -/
def fourObjects : List ObjectMeta :=
  [⟨[['a'], ['x']], 1, [], none⟩, ⟨[['a'], ['b'], ['x']], 2, [], none⟩,
    ⟨[['a'], ['b'], ['c'], ['x']], 3, [], none⟩, ⟨[['a'], ['n']], 4, [], none⟩]

/-- Two levels of `a`, at most five objects that end in `x`, two listings at a time. -/
theorem list_recursive_two_levels :
    Returns (step true (storeOf fourObjects) ⟨some 5, some ['x'], some 2, 2⟩) result
      (Meets ⟨some 5, some ['x'], some 2, 2⟩ fourObjects [[['a']]])
      (initial (storeOf fourObjects) [['a']]) :=
  list_recursive_returns (storeOf_lists (by decide)) [['a']] rfl (List.pairwise_singleton _ _)
    (by decide)

example : (wanted ⟨some 5, some ['x'], some 2, 2⟩ fourObjects [[['a']]]).map (·.contentLength) =
    [1, 2] := by decide

end ListRecursive

end MultiStorageClient
