/-
MultiStorageClient/PosixAgreement.lean

When the two listings of a POSIX tree agree.

The recursive listing always yields the files below the path that are in
bounds.  The sequential one yields the same keys exactly if no directory on
the way to such a file is at or before `start_after`, and if a path that
names a file is itself in bounds.
-/
import MultiStorageClient.PosixListing

namespace MultiStorageClient

open PyStr

namespace PosixFileStorageProvider

variable {p : PosixFileStorageProvider} {path d : PyStr} {s e : Option PyStr}

/-! ### Paths to list -/

/-- A path to list and the directory it names: the root, or a path in normal
form, with or without a slash at its end. -/
inductive ListPath : PyStr → PyStr → Prop
  | root : ListPath [] []
  | bare {d : PyStr} (h : IsPath d) : ListPath d d
  | slash {d : PyStr} (h : IsPath d) : ListPath (d ++ ['/']) d

theorem IsPath.noEmptyComponent (h : IsPath d) : NoEmptyComponent d := fun c hc => (h c hc).1

theorem ListPath.dir (h : ListPath path d) : d = [] ∨ IsPath d := by
  cases h with
  | root => exact Or.inl rfl
  | bare h => exact Or.inr h
  | slash h => exact Or.inr h

theorem ListPath.head (h : ListPath path d) : path.head? ≠ some '/' := by
  cases h with
  | root => exact isPath_head (Or.inl rfl)
  | bare h => exact isPath_head (Or.inr h)
  | slash h =>
      have hd := (IsPath.noEmptyComponent h).head
      obtain ⟨a, t, rfl⟩ := List.exists_cons_of_ne_nil hd.1
      exact hd.2

theorem ListPath.rstrip (h : ListPath path d) : rstrip '/' path = d := by
  cases h with
  | root => rfl
  | bare h => exact (rstrip_path (Or.inr h)).1
  | slash h => exact (rstrip_path (Or.inr h)).2

theorem ListPath.dirPrefix_eq (h : ListPath path d) : dirPrefix path = dirPrefix d := by
  cases h with
  | root => rfl
  | bare h => rfl
  | slash h => rw [dirPrefix_slash, PosixTree.dirPrefix_eq (IsPath.noEmptyComponent h)]

theorem ListPath.length_le (h : ListPath path d) : path.length ≤ (dirPrefix d).length := by
  rw [← h.dirPrefix_eq, dirPrefix, List.length_append]
  exact Nat.le_add_right _ _

theorem ListPath.prepend (h : ListPath path d) : p.prependBasePath path = p.root ++ path := by
  rw [prependBasePath, lstrip_eq_self h.head]
  exact join_eq_append _ h.head

theorem ListPath.dirPrefix_root (h : ListPath path d) :
    dirPrefix (p.root ++ path) = p.root ++ dirPrefix path := by
  cases h with
  | root => exact PosixFileStorageProvider.dirPrefix_root (Or.inl rfl)
  | bare h => exact PosixFileStorageProvider.dirPrefix_root (Or.inr h)
  | slash h => rw [dirPrefix_slash, ← List.append_assoc, dirPrefix_slash]

/-- A path that names a file is in normal form. -/
theorem ListPath.of_file (h : ListPath path d) (hf : path ∈ p.tree.filePaths) : path = d := by
  cases h with
  | root => rfl
  | bare h => rfl
  | slash h =>
      have hproper := PosixTree.noEmptyComponent (List.mem_append_left _ hf)
      exact absurd rfl ((hproper.properBelow []) (d ++ ['/']) [] (Or.inr ⟨d, rfl⟩)
        List.nil_prefix (by rw [List.append_nil])).1

/-- No path names both a file and a directory. -/
theorem ListPath.not_dir (h : ListPath path d) (hf : path ∈ p.tree.filePaths) :
    p.tree.isDir d = false := by
  obtain rfl := h.of_file hf
  rw [Bool.eq_false_iff, Ne, isDir_iff]
  rintro (rfl | hmem)
  · exact (PosixTree.noEmptyComponent (List.mem_append_left _ hf)).head.1 rfl
  · exact PosixTree.not_mem_dirs hf hmem

/-- A directory that holds a file exists. -/
theorem ListPath.isDir_of_below (h : ListPath path d) {k : PyStr} (hk : k ∈ p.tree.filePaths)
    (hbelow : dirPrefix path <+: k) : p.tree.isDir d = true := by
  refine isDir_iff.mpr ?_
  rcases h.dir with hd | hd
  · exact Or.inl hd
  · rw [h.dirPrefix_eq, PosixTree.dirPrefix_eq (IsPath.noEmptyComponent hd)] at hbelow
    obtain ⟨r, hr⟩ := hbelow
    refine Or.inr (p.tree.parents k (List.mem_append_left _ hk) d r ?_)
    rw [← hr, List.append_assoc, List.singleton_append]

/-- `_list_objects`, in its two parts. -/
theorem ListPath.listObjects_eq (h : ListPath path d) (hs : ∀ k ∈ s, IsPath k)
    (he : ∀ k ∈ e, IsPath k) (incl : Bool) (sh : SymlinkHandling) :
    p.listObjects (p.prependBasePath path) (s.map p.prependBasePath) (e.map p.prependBasePath)
        incl sh =
      (if p.tree.isFile path then [p.tree.fileMetadata path] else []) ++
        if p.tree.isDir d then p.tree.explore s e incl d else [] := by
  simp only [listObjects, h.prepend, relpath_root h.head, relBound_root hs, relBound_root he,
    h.rstrip]

/-! ### The shallow listing of a path -/

theorem ListPath.shallowList_eq (h : ListPath path d) (sh : SymlinkHandling) :
    p.shallowList (p.root ++ path) sh = p.splitItems
      ((if p.tree.isFile path then [p.tree.fileMetadata path] else []) ++
        if p.tree.isDir d then p.tree.explore none none true d else [])
      (PyStr.rstrip '/' (p.root ++ path) ++ ['/']) := by
  have hitems := h.listObjects_eq (p := p) (s := none) (e := none) (fun k hk => by cases hk)
    (fun k hk => by cases hk) true sh
  rw [← hitems, h.prepend]
  rfl

/-- A directory is listed as its files and its child directories. -/
theorem ListPath.shallowList_dir (h : ListPath path d) (hdir : p.tree.isDir d = true)
    (sh : SymlinkHandling) :
    ShallowOk p.keys p.IsDirKey (dirPrefix (p.root ++ path))
      (p.shallowList (p.root ++ path) sh) := by
  have hfile : p.tree.isFile path = false := by
    rw [Bool.eq_false_iff, Ne, isFile_iff]
    intro hf
    rw [h.not_dir hf] at hdir
    cases hdir
  rw [h.shallowList_eq, hfile, hdir, h.dirPrefix_root, h.dirPrefix_eq]
  refine splitItems_ok d _ ?_
  have hle : (PyStr.rstrip '/' (p.root ++ path)).length ≤ (p.root ++ path).length :=
    (List.rdropWhile_prefix _ _).length_le
  have hpath := h.length_le
  simp only [List.length_append, List.length_singleton] at hle ⊢
  omega

/-- The listing of a path that is not a directory: the file itself, if there
is one. -/
theorem ListPath.shallowList_file (h : ListPath path d) (hdir : p.tree.isDir d = false)
    (sh : SymlinkHandling) :
    (p.shallowList (p.root ++ path) sh).1 = [] ∧
      (p.shallowList (p.root ++ path) sh).2.map (·.key) =
        if path ∈ p.tree.filePaths then [p.root ++ path] else [] := by
  rw [h.shallowList_eq, hdir]
  by_cases hf : path ∈ p.tree.filePaths
  · rw [if_pos (isFile_iff.mpr hf), if_pos hf]
    refine ⟨rfl, ?_⟩
    show [p.prependBasePath path] = [p.root ++ path]
    rw [h.prepend]
  · rw [if_neg (fun hfile => hf (isFile_iff.mp hfile)), if_neg hf]
    exact ⟨rfl, rfl⟩

/-! ### The recursive listing -/

/-- The bounds as `_list_objects_recursive_impl` gets them. -/
def fullBounds (p : PosixFileStorageProvider) (s e : Option PyStr) : Bounds :=
  ⟨s.map p.prependBasePath, e.map p.prependBasePath⟩

theorem inBounds_iff {k : PyStr} :
    inBounds s e k = true ↔ (∀ a, s = some a → a < k) ∧ ∀ b, e = some b → k ≤ b := by
  rcases s with - | a <;> rcases e with - | b <;> simp [inBounds]

/-- The bounds below the root are the bounds. -/
theorem fullBounds_includes (hs : ∀ k ∈ s, IsPath k) (he : ∀ k ∈ e, IsPath k) {k : PyStr} :
    (p.fullBounds s e).Includes (p.root ++ k) ↔ inBounds s e k = true := by
  obtain ⟨u, hu⟩ := p.root_isDirPath
  have hne : ∀ j, p.root ++ j ≠ [] := by
    intro j h
    rw [hu] at h
    simp at h
  rw [Bounds.includes_iff _ (hne k), inBounds_iff]
  refine and_congr ?_ ?_
  · rcases s with - | a
    · simp [fullBounds]
    · simp [fullBounds, prependBasePath_eq (Or.inr (hs a rfl)), append_lt_append_iff]
  · rcases e with - | b
    · simp [fullBounds]
    · simp [fullBounds, prependBasePath_eq (Or.inr (he b rfl)), hne, append_le_append_iff]

/-- The keys below the root are in order. -/
theorem keysOk (D : PyStr) (hD : p.root <+: D) : KeysOk p.keys p.IsDirKey D where
  proper := by
    intro k hk _ u r hu hDu hr
    obtain ⟨f, hf, rfl⟩ := mem_keys.mp hk
    obtain ⟨v, rfl⟩ := hD.trans hDu
    have hproper := (PosixTree.noEmptyComponent (List.mem_append_left _ hf)).properBelow []
    rw [List.append_assoc, List.append_cancel_left_eq] at hr
    refine hproper v r ?_ List.nil_prefix hr
    -- behind the root a directory path ends with a slash or is empty
    rcases List.eq_nil_or_concat v with rfl | ⟨w, c, rfl⟩
    · exact Or.inl rfl
    · rcases hu with hu | ⟨x, hx⟩
      · simp at hu
      · refine Or.inr ⟨w, ?_⟩
        rw [List.concat_eq_append, ← List.append_assoc] at hx
        rw [List.concat_eq_append, (List.append_inj' hx rfl).2]
  dirs := by
    intro k hk u hu hDu
    obtain ⟨f, hf, rfl⟩ := mem_keys.mp hk
    obtain ⟨v, rfl⟩ := hD.trans hDu
    rw [List.append_assoc, List.prefix_append_right_inj] at hu
    obtain ⟨r, hr⟩ := hu
    refine ⟨v, p.tree.parents f (List.mem_append_left _ hf) v r ?_, rfl⟩
    rw [← hr, List.append_assoc, List.singleton_append]

theorem length_isDirKey {q : PyStr} (h : p.IsDirKey q) :
    q.length ≤ p.root.length + p.tree.maxLength + 1 := by
  obtain ⟨d, hd, rfl⟩ := h
  have hle := PosixTree.length_le_maxLength hd
  simp only [List.length_append, List.length_singleton]
  omega

/-- The file keys a listing of `path` is about. -/
def IsTarget (p : PosixFileStorageProvider) (path : PyStr) (s e : Option PyStr) (k : PyStr) :
    Prop :=
  k ∈ p.tree.filePaths ∧ (k = path ∨ dirPrefix path <+: k) ∧ inBounds s e k = true

/-- In a directory the targets are the files below it within the bounds. -/
theorem ListPath.isTarget_dir (h : ListPath path d) (hdir : p.tree.isDir d = true) {k : PyStr} :
    p.IsTarget path s e k ↔ k ∈ p.tree.filePaths ∧ dirPrefix path <+: k ∧
      inBounds s e k = true := by
  constructor
  · rintro ⟨hk, rfl | hbelow, hin⟩
    · rw [h.not_dir hk] at hdir
      cases hdir
    · exact ⟨hk, hbelow, hin⟩
  · rintro ⟨hk, hbelow, hin⟩
    exact ⟨hk, Or.inr hbelow, hin⟩

theorem ListPath.isTarget_file (h : ListPath path d) (hdir : p.tree.isDir d = false) {k : PyStr} :
    p.IsTarget path s e k ↔ k ∈ p.tree.filePaths ∧ k = path ∧ inBounds s e k = true := by
  constructor
  · rintro ⟨hk, rfl | hbelow, hin⟩
    · exact ⟨hk, rfl, hin⟩
    · rw [h.isDir_of_below hk hbelow] at hdir
      cases hdir
  · rintro ⟨hk, hpath, hin⟩
    exact ⟨hk, Or.inl hpath, hin⟩

/-- Where the recursive listing starts at a file there are no prefixes to
expand. -/
theorem ListPath.recursive_file (h : ListPath path d) (hdir : p.tree.isDir d = false)
    (limits : ListingLimits) (b : Bounds) (sh : SymlinkHandling) (done : ℕ → PyStr → Bool)
    (fuel : ℕ) :
    listObjectsRecursiveImpl p.toListingProvider limits b sh done fuel (p.root ++ path) =
      some (b.emit (p.shallowList (p.root ++ path) sh).2) := by
  have hleaf : (b.prune (p.shallowList (p.root ++ path) sh).1).isEmpty := by
    rw [(h.shallowList_file hdir sh).1]
    rfl
  rw [listObjectsRecursiveImpl, if_neg (by simp [toListingProvider])]
  exact if_pos hleaf

/-- A file lists itself, if anything. -/
theorem ListPath.mem_emit_file (h : ListPath path d) (hdir : p.tree.isDir d = false)
    (hs : ∀ k ∈ s, IsPath k) (he : ∀ k ∈ e, IsPath k) (sh : SymlinkHandling) :
    (((p.fullBounds s e).emit (p.shallowList (p.root ++ path) sh).2).map (·.key)).Pairwise
        (· < ·) ∧
      ∀ k, k ∈ ((p.fullBounds s e).emit (p.shallowList (p.root ++ path) sh).2).map (·.key) ↔
        ∃ f, k = p.root ++ f ∧ p.IsTarget path s e f := by
  have hobjects := (h.shallowList_file hdir sh).2
  -- the listing of a file is the file itself, or nothing
  have hsorted : ((p.shallowList (p.root ++ path) sh).2.map (·.key)).Pairwise (· < ·) := by
    rw [hobjects]
    split
    · exact List.pairwise_singleton _ _
    · exact List.Pairwise.nil
  refine ⟨hsorted.sublist ((Bounds.emit_sublist _).map _), fun k => ?_⟩
  constructor
  · intro hk
    obtain ⟨o, ho, rfl⟩ := List.mem_map.mp hk
    obtain ⟨ho, hin⟩ := (Bounds.mem_emit hsorted).mp ho
    have hmem := List.mem_map_of_mem (f := (·.key)) ho
    rw [hobjects] at hmem
    split at hmem
    · rename_i hf
      have hkey : o.key = p.root ++ path := List.mem_singleton.mp hmem
      rw [hkey] at hin ⊢
      exact ⟨path, rfl, hf, Or.inl rfl, (fullBounds_includes hs he).mp hin⟩
    · cases hmem
  · rintro ⟨f, rfl, htarget⟩
    obtain ⟨hf, rfl, hin⟩ := (h.isTarget_file hdir).mp htarget
    have hmem : p.root ++ f ∈ (p.shallowList (p.root ++ f) sh).2.map (·.key) := by
      rw [hobjects, if_pos hf]
      exact List.mem_singleton.mpr rfl
    obtain ⟨o, ho, hkey⟩ := List.mem_map.mp hmem
    refine List.mem_map.mpr ⟨o, (Bounds.mem_emit hsorted).mpr ⟨ho, ?_⟩, hkey⟩
    rw [hkey]
    exact (fullBounds_includes hs he).mpr hin

/-- Every directory that the listing reaches is listed in full. -/
theorem shallowOk_below (sh : SymlinkHandling) {u : PyStr} (hu : p.IsDirKey (u ++ ['/'])) :
    ShallowOk p.keys p.IsDirKey (u ++ ['/']) (p.shallowList (u ++ ['/']) sh) := by
  obtain ⟨d', hd', hu⟩ := hu
  have hpath' : ListPath (d' ++ ['/']) d' :=
    .slash (p.tree.normal d' (List.mem_append_right _ hd'))
  have hok := hpath'.shallowList_dir (isDir_iff.mpr (Or.inr hd')) sh
  rw [← List.append_assoc, dirPrefix_slash] at hok
  rwa [hu]

/-- The recursive listing yields all files in bounds, in order. -/
theorem ListPath.recursive_lists (h : ListPath path d) (hs : ∀ k ∈ s, IsPath k)
    (he : ∀ k ∈ e, IsPath k) (limits : ListingLimits) (sh : SymlinkHandling)
    (done : ℕ → PyStr → Bool) :
    ∃ fuel₀ out, (∀ fuel ≥ fuel₀, listObjectsRecursiveImpl p.toListingProvider limits
        (p.fullBounds s e) sh done fuel (p.prependBasePath path) = some out) ∧
      (out.map (·.key)).Pairwise (· < ·) ∧
      ∀ k, k ∈ out.map (·.key) ↔ ∃ f, k = p.root ++ f ∧ p.IsTarget path s e f := by
  rw [h.prepend]
  rcases hdir : p.tree.isDir d with - | -
  · exact ⟨0, _, fun fuel _ => h.recursive_file hdir limits _ sh done fuel,
      h.mem_emit_file hdir hs he sh⟩
  · obtain ⟨fuel₀, out, hrun, hsorted, hmem⟩ := listObjectsRecursiveImpl_lists
      p.toListingProvider (p.root ++ path) rfl limits (p.fullBounds s e) sh done
      (keysOk _ (by rw [h.dirPrefix_root]; exact List.prefix_append _ _))
      (fun q hq => length_isDirKey hq) (h.shallowList_dir hdir sh)
      (fun u hu _ => shallowOk_below sh hu)
    refine ⟨fuel₀, out, hrun, hsorted, fun k => (hmem k).trans ?_⟩
    constructor
    · rintro ⟨⟨hk, hpre⟩, hin⟩
      obtain ⟨f, hf, rfl⟩ := mem_keys.mp hk
      rw [h.dirPrefix_root, List.prefix_append_right_inj] at hpre
      exact ⟨f, rfl, hf, Or.inr hpre, (fullBounds_includes hs he).mp hin⟩
    · rintro ⟨f, rfl, htarget⟩
      obtain ⟨hf, hpre, hin⟩ := (h.isTarget_dir hdir).mp htarget
      rw [h.dirPrefix_root, List.prefix_append_right_inj]
      exact ⟨⟨mem_keys.mpr ⟨f, hf, rfl⟩, hpre⟩, (fullBounds_includes hs he).mpr hin⟩

/-! ### The sequential listing -/

/-- No directory on the way to a file in bounds is at or before
`start_after`. -/
def DirsAfterStart (p : PosixFileStorageProvider) (path : PyStr) (s e : Option PyStr) : Prop :=
  ∀ k ∈ p.tree.filePaths, dirPrefix path <+: k → inBounds s e k = true →
    ∀ u, dirPrefix path <+: u → u ++ ['/'] <+: k → ∀ a, s = some a → a < u

/-- What is on the way to a file precedes the file. -/
theorem reached_iff {k : PyStr} :
    p.tree.Reached s e d k ↔ (k ∈ p.tree.filePaths ∧ dirPrefix d <+: k ∧ inBounds s e k = true) ∧
      ∀ u, dirPrefix d <+: u → u ++ ['/'] <+: k → ∀ a, s = some a → a < u := by
  constructor
  · intro h
    exact ⟨⟨h.file, h.below, h.bounds⟩, fun u hu huk => (inBounds_iff.mp (h.way u hu huk)).1⟩
  · rintro ⟨⟨hk, hbelow, hin⟩, hway⟩
    refine ⟨hk, hbelow, hin, fun u hu huk => inBounds_iff.mpr ⟨hway u hu huk, fun b hb => ?_⟩⟩
    have huk : u ≤ k := le_of_isPrefix ((List.prefix_append u ['/']).trans huk)
    exact huk.trans ((inBounds_iff.mp hin).2 b hb)

/-- The sequential listing is in order, and holds the files in bounds exactly
under the condition. -/
theorem ListPath.sequential_lists (h : ListPath path d) (hs : ∀ k ∈ s, IsPath k)
    (he : ∀ k ∈ e, IsPath k) (sh : SymlinkHandling) :
    ((p.listObjects (p.prependBasePath path) (s.map p.prependBasePath)
        (e.map p.prependBasePath) false sh).map (·.key)).Pairwise (· < ·) ∧
      ((∀ k, k ∈ (p.listObjects (p.prependBasePath path) (s.map p.prependBasePath)
          (e.map p.prependBasePath) false sh).map (·.key) ↔ p.IsTarget path s e k) ↔
        (path ∈ p.tree.filePaths → inBounds s e path = true) ∧ p.DirsAfterStart path s e) := by
  rw [h.listObjects_eq hs he]
  rcases hdir : p.tree.isDir d with - | -
  · -- a file is yielded whatever the bounds, and nothing is below it
    have hafter : p.DirsAfterStart path s e := by
      intro k hk hbelow
      rw [h.isDir_of_below hk hbelow] at hdir
      cases hdir
    by_cases hf : path ∈ p.tree.filePaths
    · rw [if_pos (isFile_iff.mpr hf)]
      refine ⟨List.pairwise_singleton _ _, fun hall => ⟨fun _ => ?_, hafter⟩, ?_⟩
      · exact ((hall path).mp (List.mem_singleton.mpr rfl)).2.2
      · rintro ⟨hin, -⟩ k
        rw [h.isTarget_file hdir]
        constructor
        · intro hk
          obtain rfl : k = path := List.mem_singleton.mp hk
          exact ⟨hf, rfl, hin hf⟩
        · rintro ⟨-, rfl, -⟩
          exact List.mem_singleton.mpr rfl
    · rw [if_neg fun hfile => hf (isFile_iff.mp hfile)]
      refine ⟨List.Pairwise.nil, fun _ => ⟨fun hf' => absurd hf' hf, hafter⟩, fun _ k => ?_⟩
      rw [h.isTarget_file hdir]
      constructor
      · intro hk
        cases hk
      · rintro ⟨hk, rfl, -⟩
        exact absurd hk hf
  · -- the walk drops what is behind a directory that it does not enter
    have hf : path ∉ p.tree.filePaths := by
      intro hf
      rw [h.not_dir hf] at hdir
      cases hdir
    rw [if_neg fun hfile => hf (isFile_iff.mp hfile), if_pos rfl, List.nil_append]
    refine ⟨PosixTree.explore_sorted, ?_⟩
    simp only [PosixTree.mem_explore, reached_iff, h.isTarget_dir hdir, h.dirPrefix_eq,
      DirsAfterStart]
    constructor
    · intro hall
      refine ⟨fun hf' => absurd hf' hf, fun k hk hbelow hin => ?_⟩
      exact ((hall k).mpr ⟨hk, hbelow, hin⟩).2
    · rintro ⟨-, hafter⟩ k
      exact ⟨fun hk => hk.1, fun hk => ⟨hk, hafter k hk.1 hk.2.1 hk.2.2⟩⟩

/-! ### The two listings -/

/-- The files in bounds, in order. -/
def target (p : PosixFileStorageProvider) (path : PyStr) (s e : Option PyStr) : List PyStr :=
  (p.tree.filePaths.filter fun k =>
    (k == path || (dirPrefix path).isPrefixOf k) && inBounds s e k).insertionSort (· ≤ ·)

theorem mem_target {k : PyStr} : k ∈ p.target path s e ↔ p.IsTarget path s e k := by
  rw [target, (List.perm_insertionSort _ _).mem_iff, List.mem_filter]
  simp [IsTarget, List.isPrefixOf_iff_prefix]

theorem target_sorted : (p.target path s e).Pairwise (· < ·) := by
  have hnd : (p.target path s e).Nodup :=
    (List.perm_insertionSort _ _).nodup_iff.mpr ((List.nodup_append.mp p.tree.nodup).1.filter _)
  have hle : (p.target path s e).Pairwise (· ≤ ·) := List.pairwise_insertionSort _ _
  exact hle.imp₂ (fun _ _ hle hne => lt_of_le_of_ne hle hne) hnd

/-- A directory `d` with two files, and a file that sorts before `d/`. -/
def sampleTree : PosixTree where
  files := [("d/b".toList, 3, 0), ("d/c".toList, 5, 0), ("d.txt".toList, 1, 0)]
  dirs := ["d".toList]
  normal := by unfold IsPath; decide
  nodup := by decide
  parents := by
    intro k hk u c hkuc
    have hu : u ∈ k.inits := (List.mem_inits _ _).mpr ⟨'/' :: c, hkuc.symm⟩
    have hslash : k.drop u.length = '/' :: c := by rw [hkuc, List.drop_left]
    have hall : ∀ k ∈ (["d/b".toList, "d/c".toList, "d.txt".toList, "d".toList] : List PyStr),
        ∀ u ∈ k.inits, (k.drop u.length).head? = some '/' → u ∈ (["d".toList] : List PyStr) := by
      decide
    exact hall k hk u hu (by rw [hslash]; rfl)

/-- A provider of the sample tree. -/
def sampleProvider : PosixFileStorageProvider := ⟨"/data".toList, sampleTree, rfl⟩

theorem isPath_of_all {k : PyStr}
    (h : (k.splitOn '/').all (fun c => c != [] && c != ['.'] && c != ['.', '.']) = true) :
    IsPath k := by
  intro c hc
  simpa [and_assoc] using List.all_eq_true.mp h c hc

end PosixFileStorageProvider

end MultiStorageClient
