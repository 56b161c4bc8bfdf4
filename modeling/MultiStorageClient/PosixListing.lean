/-
MultiStorageClient/PosixListing.lean

The POSIX provider's listings (`providers/posix_file.py`): the sequential
walk of `_explore_directory` and the shallow listing it gives to the
recursive one.

A directory tree is given by the relative paths of its files and of its
directories.  The walk compares the path of *every* entry with the bounds,
also that of a directory whose files all have longer paths.  A directory is
smaller than its files, so `start_after` can lie behind the directory and
before its files, and then the walk skips files that are in bounds.  The
recursive listing compares objects only.
-/
import MultiStorageClient.ListingSpec

namespace MultiStorageClient

open PyStr

/-! ### Directory trees -/

/-- A relative path in normal form. -/
def IsPath (p : PyStr) : Prop :=
  ∀ c ∈ p.splitOn '/', c ≠ [] ∧ c ≠ ['.'] ∧ c ≠ ['.', '.']

/-- A tree of regular files, with size and modification time, and of
directories.  Paths are relative to the root, which is not listed. -/
structure PosixTree where
  files : List (PyStr × ℕ × ℤ)
  dirs : List PyStr
  normal : ∀ p ∈ files.map Prod.fst ++ dirs, IsPath p
  nodup : (files.map Prod.fst ++ dirs).Nodup
  parents : ∀ p ∈ files.map Prod.fst ++ dirs, ∀ u c, p = u ++ '/' :: c → u ∈ dirs

/-- What `_explore_directory` collects before it sorts. -/
inductive PosixEntry
  | file (relativePath : PyStr)
  | directory (relativePath : PyStr)
  | directoryToExplore (relativePath : PyStr)

/-- `_sort_key` -/
def PosixEntry.sortKey : PosixEntry → PyStr
  | file rel => rel
  | directory rel => rel ++ ['/']
  | directoryToExplore rel => rel ++ ['/']

/-- `(start_after is None or start_after < path) and (end_at is None or path <= end_at)` -/
def inBounds (startAfter endAt : Option PyStr) (rel : PyStr) : Bool :=
  (match startAfter with | none => true | some s => decide (s < rel)) &&
    (match endAt with | none => true | some e => decide (rel ≤ e))

namespace PosixTree

variable (t : PosixTree)

/-- The paths of the files. -/
def filePaths : List PyStr := t.files.map Prod.fst

/-- `os.path.isfile` -/
def isFile (p : PyStr) : Bool := t.filePaths.contains p

/-- `os.path.isdir`; the empty path is the root. -/
def isDir (p : PyStr) : Bool := p == [] || t.dirs.contains p

/-- `os.listdir` -/
def listdir (d : PyStr) : List PyStr :=
  ((t.filePaths ++ t.dirs).filter (isFileOf (dirPrefix d))).map
    fun p => p.drop (dirPrefix d).length

/-- The metadata of a listed file. -/
def fileMetadata (rel : PyStr) : ObjectMetadata :=
  let (size, mtime) := (t.files.lookup rel).getD (0, 0)
  { key := rel, contentLength := size, lastModified := mtime }

/-- The metadata of a listed directory, with the smallest time stamp. -/
def dirMetadata (rel : PyStr) : ObjectMetadata :=
  { key := rel, contentLength := 0, lastModified := -62135596800000000, type := .directory }

/-- The entry of `_explore_directory` for one name in directory `d`. -/
def entry (startAfter endAt : Option PyStr) (includeDirectories : Bool) (d name : PyStr) :
    Option PosixEntry :=
  let rel := join d name
  if inBounds startAfter endAt rel then
    if t.isFile rel then some (.file rel)
    else if t.isDir rel then
      some (if includeDirectories then .directory rel else .directoryToExplore rel)
    else none
  else none

/-- The sorted entries of directory `d`. -/
def entries (startAfter endAt : Option PyStr) (includeDirectories : Bool) (d : PyStr) :
    List PosixEntry :=
  (((t.listdir d).insertionSort (· ≤ ·)).filterMap
    (t.entry startAfter endAt includeDirectories d)).insertionSort
      fun x y => x.sortKey ≤ y.sortKey

/-- An upper bound for the length of directory paths. -/
def maxLength : ℕ := t.dirs.toFinset.sup List.length

variable {t} {s e : Option PyStr} {incl : Bool} {d : PyStr}

theorem noEmptyComponent {p : PyStr} (h : p ∈ t.filePaths ++ t.dirs) : NoEmptyComponent p :=
  fun c hc => (t.normal p h c hc).1

/-- The path `p` is a direct child of the directory `d`. -/
def ChildOf (d p : PyStr) : Prop := ∃ c, c ≠ [] ∧ '/' ∉ c ∧ p = dirPrefix d ++ c

/-- The names of a directory are those of its files and directories. -/
theorem mem_listdir {c : PyStr} :
    c ∈ t.listdir d ↔ c ≠ [] ∧ '/' ∉ c ∧ dirPrefix d ++ c ∈ t.filePaths ++ t.dirs := by
  have hd := isDirPath_dirPrefix d
  constructor
  · intro h
    obtain ⟨p, hp, rfl⟩ := List.mem_map.mp h
    obtain ⟨hmem, hfile⟩ := List.mem_filter.mp hp
    obtain ⟨n, hn, hns, rfl⟩ := (isFileOf_iff (noEmptyComponent hmem) hd).mp hfile
    rw [List.drop_left]
    exact ⟨hn, hns, hmem⟩
  · rintro ⟨hn, hns, hmem⟩
    refine List.mem_map.mpr ⟨_, List.mem_filter.mpr ⟨hmem, ?_⟩, List.drop_left⟩
    exact (isFileOf_iff (noEmptyComponent hmem) hd).mpr ⟨c, hn, hns, rfl⟩

theorem join_child {c : PyStr} (hns : '/' ∉ c) : join d c = dirPrefix d ++ c :=
  join_eq_append d fun h => hns (List.mem_of_mem_head? h)

theorem not_mem_dirs {p : PyStr} (h : p ∈ t.filePaths) : p ∉ t.dirs :=
  fun hd => (List.disjoint_of_nodup_append t.nodup) h hd

/-- The entries of a directory. -/
theorem mem_entries {x : PosixEntry} :
    x ∈ t.entries s e incl d ↔ ∃ rel, ChildOf d rel ∧ inBounds s e rel = true ∧
      (rel ∈ t.filePaths ∧ x = .file rel ∨
        rel ∈ t.dirs ∧ x = if incl then .directory rel else .directoryToExplore rel) := by
  rw [entries, (List.perm_insertionSort _ _).mem_iff, List.mem_filterMap]
  simp only [(List.perm_insertionSort _ _).mem_iff, mem_listdir]
  constructor
  · rintro ⟨c, ⟨hc, hns, hmem⟩, hx⟩
    simp only [entry, join_child hns] at hx
    refine ⟨dirPrefix d ++ c, ⟨c, hc, hns, rfl⟩, ?_⟩
    split at hx
    · rename_i hin
      refine ⟨hin, ?_⟩
      split at hx
      · rename_i hfile
        exact Or.inl ⟨by simpa [isFile] using hfile, (Option.some.inj hx).symm⟩
      · rename_i hfile
        have hdir := (List.mem_append.mp hmem).resolve_left (by simpa [isFile] using hfile)
        split at hx
        · exact Or.inr ⟨hdir, (Option.some.inj hx).symm⟩
        · cases hx
    · cases hx
  · rintro ⟨rel, ⟨c, hc, hns, rfl⟩, hin, hx⟩
    refine ⟨c, ⟨hc, hns, ?_⟩, ?_⟩
    · rcases hx with ⟨hmem, -⟩ | ⟨hmem, -⟩
      · exact List.mem_append_left _ hmem
      · exact List.mem_append_right _ hmem
    · simp only [entry, join_child hns, hin, if_true]
      rcases hx with ⟨hmem, rfl⟩ | ⟨hmem, rfl⟩
      · rw [if_pos (by simpa [isFile] using hmem)]
      · have hfile : ¬ t.isFile (dirPrefix d ++ c) = true := by
          intro h
          exact not_mem_dirs (by simpa [isFile] using h) hmem
        rw [if_neg hfile, if_pos (by simp [isDir, hmem])]

theorem length_le_maxLength {p : PyStr} (h : p ∈ t.dirs) : p.length ≤ t.maxLength :=
  Finset.le_sup (List.mem_toFinset.mpr h)

/-- Exploring goes down the tree. -/
theorem explore_decreases {rel : PyStr}
    (h : PosixEntry.directoryToExplore rel ∈ t.entries s e incl d) :
    t.maxLength + 1 - rel.length < t.maxLength + 1 - d.length := by
  obtain ⟨rel', ⟨c, hc, -, rfl⟩, -, hx⟩ := mem_entries.mp h
  rcases hx with ⟨-, hx⟩ | ⟨hmem, hx⟩
  · cases hx
  · obtain rfl : rel = dirPrefix d ++ c := by
      cases incl
      · simpa using hx
      · simp at hx
    have hle := length_le_maxLength hmem
    have hpos : 0 < c.length := List.length_pos_iff.mpr hc
    rw [List.length_append, dirPrefix, List.length_append] at hle ⊢
    omega

variable (t)

/-- `_explore_directory`, as the objects it yields. -/
def explore (startAfter endAt : Option PyStr) (includeDirectories : Bool) (d : PyStr) :
    List ObjectMetadata :=
  (t.entries startAfter endAt includeDirectories d).attach.flatMap fun x =>
    match x with
    | ⟨.file rel, _⟩ => [t.fileMetadata rel]
    | ⟨.directory rel, _⟩ => [dirMetadata rel]
    | ⟨.directoryToExplore rel, _⟩ => explore startAfter endAt includeDirectories rel
termination_by t.maxLength + 1 - d.length
decreasing_by
  rename_i h
  exact explore_decreases h

/-! ### The sequential walk -/

variable {t}

theorem ChildOf.isPrefix {p : PyStr} (h : ChildOf d p) : dirPrefix d <+: p := by
  obtain ⟨c, -, -, rfl⟩ := h
  exact ⟨c, rfl⟩

/-- Between a directory and its child there is no further directory. -/
theorem ChildOf.no_dir_between {p u : PyStr} (h : ChildOf d p) (hu : dirPrefix d <+: u) :
    ¬ u ++ ['/'] <+: p := by
  obtain ⟨c, -, hns, rfl⟩ := h
  obtain ⟨v, rfl⟩ := hu
  rintro ⟨w, hw⟩
  simp only [List.append_assoc, List.append_cancel_left_eq] at hw
  exact hns (by rw [← hw]; simp)

theorem dirPrefix_eq {p : PyStr} (hp : NoEmptyComponent p) : dirPrefix p = p ++ ['/'] := by
  have hend : ¬ (p = [] ∨ p.endswith '/' = true) := by
    rintro (rfl | hlast)
    · exact hp.head.1 rfl
    · obtain ⟨u, rfl⟩ := List.getLast?_eq_some_iff.mp (by simpa [endswith] using hlast)
      exact ((hp.properBelow []) (u ++ ['/']) [] (Or.inr ⟨u, rfl⟩) List.nil_prefix (by simp)).1 rfl
  rw [dirPrefix, sep, if_neg hend]

/-- The relative path of an entry. -/
def relOf : PosixEntry → PyStr
  | .file rel => rel
  | .directory rel => rel
  | .directoryToExplore rel => rel

theorem nodup_listdir : (t.listdir d).Nodup := by
  refine List.Nodup.map_on ?_ (t.nodup.filter _)
  intro p hp q hq heq
  obtain ⟨hmp, hfp⟩ := List.mem_filter.mp hp
  obtain ⟨hmq, hfq⟩ := List.mem_filter.mp hq
  obtain ⟨n, -, -, rfl⟩ := (isFileOf_iff (noEmptyComponent hmp) (isDirPath_dirPrefix d)).mp hfp
  obtain ⟨n', -, -, rfl⟩ := (isFileOf_iff (noEmptyComponent hmq) (isDirPath_dirPrefix d)).mp hfq
  rw [List.drop_left, List.drop_left] at heq
  rw [heq]

/-- The entry of a name lies below its directory. -/
theorem relOf_entry {name : PyStr} {x : PosixEntry} (h : t.entry s e incl d name = some x) :
    relOf x = join d name := by
  unfold entry at h
  dsimp only at h
  split at h
  · split at h
    · rw [← Option.some.inj h]; rfl
    · split at h
      · rw [← Option.some.inj h]
        cases incl <;> rfl
      · cases h
  · cases h

/-- The entries have different relative paths. -/
theorem entries_rel_ne : (t.entries s e incl d).Pairwise fun x y => relOf x ≠ relOf y := by
  rw [entries, (List.perm_insertionSort _ _).pairwise_iff (fun h => h.symm),
    List.pairwise_filterMap]
  have hnd : ((t.listdir d).insertionSort (· ≤ ·)).Nodup :=
    (List.perm_insertionSort _ _).nodup_iff.mpr nodup_listdir
  refine hnd.imp_of_mem fun {c c'} hc hc' hne x hx y hy heq => hne ?_
  have hc := (mem_listdir.mp ((List.perm_insertionSort _ _).mem_iff.mp hc)).2.1
  have hc' := (mem_listdir.mp ((List.perm_insertionSort _ _).mem_iff.mp hc')).2.1
  rw [relOf_entry hx, relOf_entry hy, join_child hc, join_child hc'] at heq
  exact List.append_cancel_left heq

instance : Std.Total fun x y : PosixEntry => x.sortKey ≤ y.sortKey :=
  ⟨fun x y => le_total x.sortKey y.sortKey⟩

instance : IsTrans PosixEntry fun x y => x.sortKey ≤ y.sortKey := ⟨fun _ _ _ => le_trans⟩

/-- The sort keys in one directory: they differ, and that of a directory
starts no other. -/
theorem sortKey_apart {x y : PosixEntry} (hx : x ∈ t.entries s e incl d)
    (hy : y ∈ t.entries s e incl d) (hne : relOf x ≠ relOf y) :
    x.sortKey ≠ y.sortKey ∧ (x.sortKey = relOf x ++ ['/'] → ¬ x.sortKey <+: y.sortKey) := by
  obtain ⟨rel, ⟨c, hc, hns, rfl⟩, -, hx⟩ := mem_entries.mp hx
  obtain ⟨rel', ⟨c', hc', hns', rfl⟩, -, hy⟩ := mem_entries.mp hy
  -- the sort key of a directory ends in a slash, that of a file does not
  have hkey : ∀ {z : PosixEntry} {r : PyStr}, (r ∈ t.filePaths ∧ z = .file r ∨
      r ∈ t.dirs ∧ z = if incl then .directory r else .directoryToExplore r) →
      relOf z = r ∧ (z.sortKey = r ∨ z.sortKey = r ++ ['/']) := by
    rintro z r (⟨-, rfl⟩ | ⟨-, rfl⟩)
    · exact ⟨rfl, Or.inl rfl⟩
    · cases incl
      · exact ⟨rfl, Or.inr rfl⟩
      · exact ⟨rfl, Or.inr rfl⟩
  obtain ⟨hrx, hkx⟩ := hkey hx
  obtain ⟨hry, hky⟩ := hkey hy
  rw [hrx, hry] at hne
  have hcc : c ≠ c' := fun h => hne (by rw [h])
  -- so a file and a directory of one name cannot be confused
  have hno : ∀ {u v : PyStr}, '/' ∉ v → dirPrefix d ++ u ++ ['/'] ≠ dirPrefix d ++ v := by
    intro u v hv heq
    rw [List.append_assoc, List.append_cancel_left_eq] at heq
    exact hv (by rw [← heq]; simp)
  constructor
  · rcases hkx with hkx | hkx <;> rcases hky with hky | hky <;> rw [hkx, hky]
    · exact hne
    · exact (hno hns).symm
    · exact hno hns'
    · exact fun heq => hne (List.append_cancel_right heq)
  · intro hdir
    rw [hdir, hrx]
    rcases hky with hky | hky <;> rw [hky]
    · exact (slash_isPrefix_iff (t := []) hns hns').1
    · exact fun hpre => hcc ((slash_isPrefix_iff (t := []) hns hns').2 hpre)

/-- What one entry yields. -/
def block (t : PosixTree) (s e : Option PyStr) (incl : Bool) : PosixEntry → List ObjectMetadata
  | .file rel => [t.fileMetadata rel]
  | .directory rel => [dirMetadata rel]
  | .directoryToExplore rel => t.explore s e incl rel

theorem explore_eq : t.explore s e incl d = (t.entries s e incl d).flatMap (t.block s e incl) := by
  rw [explore]
  conv_rhs => rw [← List.attach_map_subtype_val (t.entries s e incl d), List.flatMap_map]
  congr 1
  funext ⟨x, hx⟩
  cases x <;> rfl

/-- The file `k` is reached from the directory `d`: it and all directories
on the way are in bounds. -/
structure Reached (t : PosixTree) (s e : Option PyStr) (d k : PyStr) : Prop where
  file : k ∈ t.filePaths
  below : dirPrefix d <+: k
  bounds : inBounds s e k = true
  way : ∀ u, dirPrefix d <+: u → u ++ ['/'] <+: k → inBounds s e u = true

theorem entries_false {x : PosixEntry} (hx : x ∈ t.entries s e false d) :
    (∃ rel, x = .file rel ∧ rel ∈ t.filePaths ∧ ChildOf d rel ∧ inBounds s e rel = true) ∨
      ∃ rel, x = .directoryToExplore rel ∧ rel ∈ t.dirs ∧ ChildOf d rel ∧
        inBounds s e rel = true := by
  obtain ⟨rel, hrel, hin, ⟨hmem, rfl⟩ | ⟨hmem, rfl⟩⟩ := mem_entries.mp hx
  · exact Or.inl ⟨rel, rfl, hmem, hrel, hin⟩
  · exact Or.inr ⟨rel, rfl, hmem, hrel, hin⟩

/-- Two directories on the way to one file are nested. -/
theorem nested_dirs {u v k : PyStr} (hu : u ++ ['/'] <+: k) (hv : v ++ ['/'] <+: k) :
    u = v ∨ u ++ ['/'] <+: v ∨ v ++ ['/'] <+: u := by
  have huk : u <+: k := (List.prefix_append u ['/']).trans hu
  have hvk : v <+: k := (List.prefix_append v ['/']).trans hv
  rcases Nat.lt_trichotomy u.length v.length with hlt | heq | hgt
  · refine Or.inr (Or.inl (List.prefix_of_prefix_length_le hu hvk ?_))
    rw [List.length_append]
    exact hlt
  · refine Or.inl ?_
    exact (List.prefix_of_prefix_length_le huk hvk heq.le).eq_of_length heq
  · refine Or.inr (Or.inr (List.prefix_of_prefix_length_le hv huk ?_))
    rw [List.length_append]
    exact hgt

/-- A file is reached through the child directory that holds it. -/
theorem reached_child {rel k : PyStr} (hrel : ChildOf d rel) (hdir : rel ∈ t.dirs)
    (hin : inBounds s e rel = true) (h : t.Reached s e rel k) : t.Reached s e d k := by
  have hpre : dirPrefix rel = rel ++ ['/'] :=
    dirPrefix_eq (noEmptyComponent (List.mem_append_right _ hdir))
  have hbelow := h.below
  rw [hpre] at hbelow
  refine ⟨h.file, hrel.isPrefix.trans ((List.prefix_append _ _).trans hbelow), h.bounds, ?_⟩
  intro u hu huk
  rcases nested_dirs huk hbelow with rfl | hlt | hgt
  · exact hin
  · exact absurd hlt (hrel.no_dir_between hu)
  · exact h.way u (by rw [hpre]; exact hgt) huk

/-- What is explored is what is reached. -/
theorem mem_explore {k : PyStr} :
    k ∈ (t.explore s e false d).map (·.key) ↔ t.Reached s e d k := by
  -- by induction on how much longer than `d` a path of the tree can be
  induction hn : t.maxLength + 1 - d.length using Nat.strong_induction_on generalizing d with
  | _ n ih =>
  subst hn
  rw [explore_eq, List.map_flatMap, List.mem_flatMap]
  constructor
  · rintro ⟨x, hx, hk⟩
    rcases entries_false hx with ⟨rel, rfl, hmem, hrel, hin⟩ | ⟨rel, rfl, hmem, hrel, hin⟩
    · obtain rfl : k = rel := by simpa [block, fileMetadata] using hk
      refine ⟨hmem, hrel.isPrefix, hin, fun u hu huk => ?_⟩
      exact absurd huk (hrel.no_dir_between hu)
    · exact reached_child hrel hmem hin ((ih _ (explore_decreases hx) rfl).mp hk)
  · intro h
    have hproper := (noEmptyComponent (List.mem_append_left _ h.file)).properBelow (dirPrefix d)
    rcases hproper.split (isDirPath_dirPrefix d) (List.prefix_refl _) h.below with
      ⟨c, hc, hns, rfl⟩ | ⟨c, hc, hns, hck⟩
    · refine ⟨.file (dirPrefix d ++ c), mem_entries.mpr
        ⟨_, ⟨c, hc, hns, rfl⟩, h.bounds, Or.inl ⟨h.file, rfl⟩⟩, ?_⟩
      simp [block, fileMetadata]
    · -- the child directory on the way exists and is in bounds
      obtain ⟨r, hr⟩ := hck
      have hdir : dirPrefix d ++ c ∈ t.dirs :=
        t.parents k (List.mem_append_left _ h.file) _ r (by rw [← hr]; simp)
      have hin := h.way (dirPrefix d ++ c) ⟨c, rfl⟩ ⟨r, hr⟩
      have hx : PosixEntry.directoryToExplore (dirPrefix d ++ c) ∈ t.entries s e false d :=
        mem_entries.mpr ⟨_, ⟨c, hc, hns, rfl⟩, hin, Or.inr ⟨hdir, rfl⟩⟩
      refine ⟨_, hx, (ih _ (explore_decreases hx) rfl).mpr
        ⟨h.file, ?_, h.bounds, fun u hu huk => ?_⟩⟩
      · rw [dirPrefix_eq (noEmptyComponent (List.mem_append_right _ hdir))]
        exact ⟨r, hr⟩
      · refine h.way u (List.IsPrefix.trans ⟨c, rfl⟩ (List.IsPrefix.trans ?_ hu)) huk
        exact List.prefix_append _ _

/-- **The walk yields keys in order.** -/
theorem explore_sorted : ((t.explore s e false d).map (·.key)).Pairwise (· < ·) := by
  induction hn : t.maxLength + 1 - d.length using Nat.strong_induction_on generalizing d with
  | _ n ih =>
  subst hn
  rw [explore_eq, List.map_flatMap, List.pairwise_flatMap]
  constructor
  · intro x hx
    rcases entries_false hx with ⟨rel, rfl, -⟩ | ⟨rel, rfl, -⟩
    · exact List.pairwise_singleton _ _
    · exact ih _ (explore_decreases hx) rfl
  · -- a key of an entry is its sort key or starts with it
    have hkey : ∀ x ∈ t.entries s e false d, ∀ k ∈ (t.block s e false x).map (·.key),
        k = x.sortKey ∨ (x.sortKey = relOf x ++ ['/'] ∧ x.sortKey <+: k) := by
      intro x hx k hk
      rcases entries_false hx with ⟨rel, rfl, -⟩ | ⟨rel, rfl, hmem, -⟩
      · exact Or.inl (by simpa [block, fileMetadata, PosixEntry.sortKey] using hk)
      · refine Or.inr ⟨rfl, ?_⟩
        have hbelow := (mem_explore.mp hk).below
        rwa [dirPrefix_eq (noEmptyComponent (List.mem_append_right _ hmem))] at hbelow
    have hsorted : (t.entries s e false d).Pairwise fun x y => x.sortKey ≤ y.sortKey :=
      List.pairwise_insertionSort _ _
    refine (hsorted.and entries_rel_ne).imp_of_mem fun {x y} hx hy hxy k hk j hj => ?_
    obtain ⟨hle, hne⟩ := hxy
    obtain ⟨hskne, hnot⟩ := sortKey_apart hx hy hne
    have hj : y.sortKey ≤ j := by
      rcases hkey y hy j hj with rfl | ⟨-, hpre⟩
      · exact le_refl _
      · exact le_of_isPrefix hpre
    -- `k` is below the sort key of `y`, also where it is inside the directory `x`
    refine lt_of_lt_of_le ?_ hj
    rcases hkey x hx k hk with rfl | ⟨hdir, hpre⟩
    · exact lt_of_le_of_ne hle hskne
    · exact lt_of_isPrefix_of_not_isPrefix hpre hle (hnot hdir)

end PosixTree

/-! ### The provider -/

/-- A POSIX provider with an absolute base path. -/
structure PosixFileStorageProvider where
  basePath : PyStr
  tree : PosixTree
  basePath_abs : basePath.head? = some '/'

namespace PosixFileStorageProvider

variable (p : PosixFileStorageProvider)

/-- `_prepend_base_path` -/
def prependBasePath (path : PyStr) : PyStr := join p.basePath (lstrip '/' path)

/-- `os.path.relpath(path, base_path)`, for a path that is the base path
joined with a relative path in normal form. -/
def relpath (path : PyStr) : PyStr := lstrip '/' (path.drop p.basePath.length)

/-- `os.path.relpath(bound, base_path) if bound else None` -/
def relBound (bound : Option PyStr) : Option PyStr :=
  match bound with
  | some b => if b = [] then none else some (p.relpath b)
  | none => none

/-- `_list_objects` -/
def listObjects (path : PyStr) (startAfter endAt : Option PyStr) (includeDirectories : Bool)
    (_symlinkHandling : SymlinkHandling) : List ObjectMetadata :=
  let rel := p.relpath path
  let dirPath := rstrip '/' rel
  (if p.tree.isFile rel then [p.tree.fileMetadata rel] else []) ++
    if p.tree.isDir dirPath then
      p.tree.explore (p.relBound startAfter) (p.relBound endAt) includeDirectories dirPath
    else []

/-- `_shallow_list`: keys are made absolute again. -/
def shallowList (path : PyStr) (symlinkHandling : SymlinkHandling) : ShallowListResult :=
  let items := p.listObjects path none none true symlinkHandling
  (((items.filter isDirectory).map fun item => p.prependBasePath item.key ++ ['/']).filter
      (· != rstrip '/' path ++ ['/']),
    (items.filter fun item => !isDirectory item).map fun item =>
      { item with key := p.prependBasePath item.key })

/-- The provider as `list_recursive` sees it. -/
def toListingProvider : ListingProvider := ⟨true, p.listObjects, p.shallowList⟩

variable {p}

/-- The prefix of all absolute keys. -/
abbrev root (p : PosixFileStorageProvider) : PyStr := dirPrefix p.basePath

theorem isPath_head {k : PyStr} (h : k = [] ∨ IsPath k) : k.head? ≠ some '/' := by
  rcases h with rfl | h
  · simp
  · exact (NoEmptyComponent.head fun c hc => (h c hc).1).2

theorem prependBasePath_eq {k : PyStr} (h : k = [] ∨ IsPath k) :
    p.prependBasePath k = p.root ++ k := by
  rw [prependBasePath, lstrip_eq_self (isPath_head h)]
  exact join_eq_append _ (isPath_head h)

theorem relpath_root {k : PyStr} (h : k.head? ≠ some '/') : p.relpath (p.root ++ k) = k := by
  have hdrop := lstrip_drop_join p.basePath h
  rwa [join_eq_append _ h] at hdrop

/-- A bound below the root is the bound. -/
theorem relBound_root {bound : Option PyStr} (h : ∀ k ∈ bound, IsPath k) :
    p.relBound (bound.map p.prependBasePath) = bound := by
  rcases bound with - | k
  · rfl
  · have hk := h k rfl
    have hne : p.root ++ k ≠ [] := by
      intro heq
      have := (NoEmptyComponent.head fun c hc => (hk c hc).1).1
      exact this (List.append_eq_nil_iff.mp heq).2
    simp only [Option.map_some, relBound, prependBasePath_eq (Or.inr hk), if_neg hne]
    rw [relpath_root (isPath_head (Or.inr hk))]

/-- The strip gives the path, with a slash behind it or without. -/
theorem rstrip_path {k : PyStr} (h : k = [] ∨ IsPath k) :
    rstrip '/' k = k ∧ rstrip '/' (k ++ ['/']) = k := by
  have hself : rstrip '/' k = k := by
    rcases h with rfl | h
    · rfl
    · have hk : NoEmptyComponent k := fun c hc => (h c hc).1
      refine List.rdropWhile_eq_self_iff.mpr fun hne hlast => ?_
      have hlast : k.getLast hne = '/' := by simpa using hlast
      have hcat := (List.dropLast_concat_getLast hne).symm
      rw [hlast] at hcat
      exact ((hk.properBelow []) (k.dropLast ++ ['/']) [] (Or.inr ⟨_, rfl⟩) List.nil_prefix
        (by rw [List.append_nil]; exact hcat)).1 rfl
  refine ⟨hself, ?_⟩
  rw [rstrip, List.rdropWhile_concat_pos _ _ _ (by simp)]
  exact hself

/-! ### The shallow listing is right -/

/-- The absolute keys of all files. -/
def keys (p : PosixFileStorageProvider) : Finset PyStr :=
  (p.tree.filePaths.map (p.root ++ ·)).toFinset

/-- The absolute prefixes of all directories. -/
def IsDirKey (p : PosixFileStorageProvider) (q : PyStr) : Prop :=
  ∃ d ∈ p.tree.dirs, q = p.root ++ d ++ ['/']

theorem mem_keys {k : PyStr} : k ∈ p.keys ↔ ∃ f ∈ p.tree.filePaths, k = p.root ++ f := by
  simp [keys, eq_comm]

theorem root_isDirPath : ∃ u, p.root = u ++ ['/'] := by
  rcases isDirPath_dirPrefix p.basePath with h | h
  · have habs := p.basePath_abs
    have hnil : p.basePath = [] := (List.append_eq_nil_iff.mp h).1
    rw [hnil] at habs
    cases habs
  · exact h

/-- The prefix of a directory below the root. -/
theorem dirPrefix_root {d : PyStr} (h : d = [] ∨ IsPath d) :
    dirPrefix (p.root ++ d) = p.root ++ dirPrefix d := by
  rcases h with rfl | h
  · obtain ⟨u, hu⟩ := p.root_isDirPath
    rw [List.append_nil, hu, dirPrefix_slash]
    simp [dirPrefix, sep]
  · have hd : NoEmptyComponent d := fun c hc => (h c hc).1
    obtain ⟨u, hu⟩ := p.root_isDirPath
    have hend : ¬ (p.root ++ d = [] ∨ (p.root ++ d).endswith '/' = true) := by
      rintro (hnil | hlast)
      · exact hd.head.1 (List.append_eq_nil_iff.mp hnil).2
      · have hsep := PosixTree.dirPrefix_eq hd
        rw [dirPrefix, sep] at hsep
        split at hsep
        · simp at hsep
        · rename_i hno
          refine hno (Or.inr ?_)
          rw [endswith] at hlast ⊢
          rwa [List.getLast?_append_of_ne_nil _ hd.head.1] at hlast
    rw [dirPrefix, sep, if_neg hend, PosixTree.dirPrefix_eq hd, List.append_assoc]

theorem entries_true {t : PosixTree} {d : PyStr} {x : PosixEntry}
    (hx : x ∈ t.entries none none true d) :
    (∃ rel, x = .file rel ∧ rel ∈ t.filePaths ∧ PosixTree.ChildOf d rel) ∨
      ∃ rel, x = .directory rel ∧ rel ∈ t.dirs ∧ PosixTree.ChildOf d rel := by
  obtain ⟨rel, hrel, -, ⟨hmem, rfl⟩ | ⟨hmem, rfl⟩⟩ := PosixTree.mem_entries.mp hx
  · exact Or.inl ⟨rel, rfl, hmem, hrel⟩
  · exact Or.inr ⟨rel, rfl, hmem, hrel⟩

/-- With directories included the walk stays in the directory. -/
theorem explore_true (t : PosixTree) (d : PyStr) :
    t.explore none none true d = (t.entries none none true d).map fun x =>
      match x with
      | .file rel => t.fileMetadata rel
      | .directory rel => PosixTree.dirMetadata rel
      | .directoryToExplore rel => PosixTree.dirMetadata rel := by
  rw [PosixTree.explore_eq, List.map_eq_flatMap]
  refine List.flatMap_congr fun x hx => ?_
  rcases entries_true hx with ⟨rel, rfl, -⟩ | ⟨rel, rfl, -⟩ <;> rfl

/-- The items of one directory, by kind. -/
theorem mem_explore_true {t : PosixTree} {d : PyStr} {item : ObjectMetadata} :
    item ∈ t.explore none none true d ↔ ∃ rel, PosixTree.ChildOf d rel ∧
      (rel ∈ t.filePaths ∧ item = t.fileMetadata rel ∨
        rel ∈ t.dirs ∧ item = PosixTree.dirMetadata rel) := by
  rw [explore_true]
  constructor
  · intro h
    obtain ⟨x, hx, rfl⟩ := List.mem_map.mp h
    rcases entries_true hx with ⟨rel, rfl, hmem, hrel⟩ | ⟨rel, rfl, hmem, hrel⟩
    · exact ⟨rel, hrel, Or.inl ⟨hmem, rfl⟩⟩
    · exact ⟨rel, hrel, Or.inr ⟨hmem, rfl⟩⟩
  · rintro ⟨rel, hrel, ⟨hmem, rfl⟩ | ⟨hmem, rfl⟩⟩
    · exact List.mem_map.mpr ⟨.file rel,
        PosixTree.mem_entries.mpr ⟨rel, hrel, rfl, Or.inl ⟨hmem, rfl⟩⟩, rfl⟩
    · exact List.mem_map.mpr ⟨.directory rel,
        PosixTree.mem_entries.mpr ⟨rel, hrel, rfl, Or.inr ⟨hmem, rfl⟩⟩, rfl⟩

/-- In the items of one directory no two have the same key, and the files
are in order. -/
theorem explore_true_pairwise (t : PosixTree) (d : PyStr) :
    (t.explore none none true d).Pairwise fun a b => a.key ≠ b.key ∧
      (isDirectory a = false → isDirectory b = false → a.key < b.key) := by
  rw [explore_true, List.pairwise_map]
  have hsorted : (t.entries none none true d).Pairwise fun x y => x.sortKey ≤ y.sortKey :=
    List.pairwise_insertionSort _ _
  refine (hsorted.and PosixTree.entries_rel_ne).imp_of_mem fun {x y} hx hy hxy => ?_
  obtain ⟨hle, hne⟩ := hxy
  rcases entries_true hx with ⟨rel, rfl, -⟩ | ⟨rel, rfl, -⟩ <;>
    rcases entries_true hy with ⟨rel', rfl, -⟩ | ⟨rel', rfl, -⟩
  · exact ⟨hne, fun _ _ => lt_of_le_of_ne hle hne⟩
  · exact ⟨hne, fun _ h => by cases h⟩
  · exact ⟨hne, fun h => by cases h⟩
  · exact ⟨hne, fun h => by cases h⟩

/-- `_shallow_list` on the items of a directory; `self` is the path's own
prefix. -/
def splitItems (p : PosixFileStorageProvider) (items : List ObjectMetadata) (self : PyStr) :
    ShallowListResult :=
  (((items.filter isDirectory).map fun item => p.prependBasePath item.key ++ ['/']).filter
      (· != self),
    (items.filter fun item => !isDirectory item).map fun item =>
      { item with key := p.prependBasePath item.key })

/-- The items of a directory, split into files and directories. -/
theorem splitItems_ok (d self : PyStr)
    (hself : self.length ≤ (p.root ++ dirPrefix d).length + 1) :
    ShallowOk p.keys p.IsDirKey (p.root ++ dirPrefix d)
      (p.splitItems (p.tree.explore none none true d) self) := by
  have hitem : ∀ item ∈ p.tree.explore none none true d,
      p.prependBasePath item.key = p.root ++ item.key := by
    intro item hitem
    obtain ⟨rel, -, ⟨hmem, rfl⟩ | ⟨hmem, rfl⟩⟩ := mem_explore_true.mp hitem
    · exact prependBasePath_eq (Or.inr (p.tree.normal rel (List.mem_append_left _ hmem)))
    · exact prependBasePath_eq (Or.inr (p.tree.normal rel (List.mem_append_right _ hmem)))
  have hpair := explore_true_pairwise p.tree d
  refine ⟨?_, fun q => ?_, ?_, fun k => ?_⟩
  · refine List.Nodup.filter _ ?_
    rw [List.Nodup, List.pairwise_map]
    refine (hpair.filter _).imp_of_mem fun {a b} ha hb hab heq => hab.1 ?_
    rw [hitem a (List.mem_filter.mp ha).1, hitem b (List.mem_filter.mp hb).1] at heq
    exact List.append_cancel_left (List.append_cancel_right heq)
  · simp only [splitItems, List.mem_filter, List.mem_map, bne_iff_ne, ne_eq]
    constructor
    · rintro ⟨⟨item, ⟨hmem, hdir⟩, rfl⟩, -⟩
      rw [hitem item hmem]
      obtain ⟨rel, ⟨c, hc, hns, rfl⟩, ⟨-, rfl⟩ | ⟨hd, rfl⟩⟩ := mem_explore_true.mp hmem
      · cases hdir
      · exact ⟨⟨c, hc, hns, by simp [PosixTree.dirMetadata]⟩, _, hd, rfl⟩
    · rintro ⟨⟨c, hc, hns, rfl⟩, rel, hmem, heq⟩
      obtain rfl : dirPrefix d ++ c = rel := by
        have := List.append_cancel_right heq
        rw [List.append_assoc] at this
        exact List.append_cancel_left this
      have hx := mem_explore_true.mpr ⟨dirPrefix d ++ c, ⟨c, hc, hns, rfl⟩, Or.inr ⟨hmem, rfl⟩⟩
      refine ⟨⟨PosixTree.dirMetadata (dirPrefix d ++ c), ⟨hx, rfl⟩, ?_⟩, fun heq => ?_⟩
      · rw [hitem _ hx]
        simp [PosixTree.dirMetadata]
      · -- a child's prefix is longer than the path's own
        have hpos := List.length_pos_iff.mpr hc
        have hlen := congrArg List.length heq
        simp only [List.length_append, List.length_singleton] at hlen hself
        omega
  · rw [splitItems, List.map_map, List.pairwise_map]
    refine (hpair.filter _).imp_of_mem fun {a b} ha hb hab => ?_
    obtain ⟨ha, hda⟩ := List.mem_filter.mp ha
    obtain ⟨hb, hdb⟩ := List.mem_filter.mp hb
    show p.prependBasePath a.key < p.prependBasePath b.key
    rw [hitem a ha, hitem b hb, append_lt_append_iff]
    exact hab.2 (by simpa using hda) (by simpa using hdb)
  · simp only [splitItems, List.map_map, List.mem_map, List.mem_filter, Function.comp]
    constructor
    · rintro ⟨item, ⟨hmem, hdir⟩, rfl⟩
      rw [hitem item hmem]
      obtain ⟨rel, ⟨c, hc, hns, rfl⟩, ⟨hf, rfl⟩ | ⟨-, rfl⟩⟩ := mem_explore_true.mp hmem
      · refine ⟨mem_keys.mpr ⟨_, hf, rfl⟩, c, hc, hns, ?_⟩
        simp [PosixTree.fileMetadata]
      · cases hdir
    · rintro ⟨hmem, c, hc, hns, rfl⟩
      obtain ⟨rel, hf, heq⟩ := mem_keys.mp hmem
      obtain rfl : dirPrefix d ++ c = rel := by
        rw [List.append_assoc] at heq
        exact List.append_cancel_left heq
      have hx := mem_explore_true.mpr ⟨dirPrefix d ++ c, ⟨c, hc, hns, rfl⟩, Or.inl ⟨hf, rfl⟩⟩
      refine ⟨_, ⟨hx, rfl⟩, ?_⟩
      rw [hitem _ hx]
      simp [PosixTree.fileMetadata]

theorem isFile_iff {t : PosixTree} {k : PyStr} : t.isFile k = true ↔ k ∈ t.filePaths := by
  simp [PosixTree.isFile]

theorem isDir_iff {t : PosixTree} {k : PyStr} : t.isDir k = true ↔ k = [] ∨ k ∈ t.dirs := by
  simp [PosixTree.isDir]

end PosixFileStorageProvider

end MultiStorageClient
