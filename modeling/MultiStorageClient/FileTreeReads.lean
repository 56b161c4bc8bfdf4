/-
MultiStorageClient/FileTreeReads.lean

`DoReadDir` and `DoReadDirPlus`, run alone.

The virt entries of a directory are a list of names in order (`virtNames`), and
so are the entries that a listing has.  At a position a handle has a file of its
two pages, then a subdirectory, and then a virt entry (`childAt_ok`).
-/
import MultiStorageClient.FileTreeFinds

namespace MultiStorageFileSystem

open Prog

namespace DirEntries

variable {m m' : DirEntries} {d i k : ℕ} {name : String}

/-- The names in a directory, in order. -/
def names (m : DirEntries) (d : ℕ) : List String :=
  (m.range (toLex (d, "")) (toLex (d + 1, ""))).map fun e => (ofLex e.1).2

theorem length_names : (m.names d).length = (m.indexRange d).2 - (m.indexRange d).1 := by
  unfold names
  rw [List.length_map, SortedMap.length_range]
  rfl

/-- The names of a directory are those with an entry. -/
theorem mem_names : name ∈ m.names d ↔ m.get (toLex (d, name)) ≠ none := by
  unfold names
  rw [List.mem_map]
  constructor
  · rintro ⟨⟨key, i⟩, he, rfl⟩
    obtain ⟨hget, ha, hb⟩ := SortedMap.mem_range.mp he
    obtain rfl : (ofLex key).1 = d := key_range.mp ⟨ha, hb⟩
    rw [show toLex ((ofLex key).1, (ofLex key).2) = key from rfl, hget]
    exact Option.some_ne_none i
  · intro hne
    obtain ⟨i, hi⟩ := Option.ne_none_iff_exists'.mp hne
    obtain ⟨ha, hb⟩ : toLex (d, "") ≤ toLex (d, name) ∧ toLex (d, name) < toLex (d + 1, "") :=
      key_range.mpr rfl
    exact ⟨(toLex (d, name), i), SortedMap.mem_range.mpr ⟨hi, ha, hb⟩, rfl⟩

/-- The names of a directory are in order. -/
theorem names_sorted : (m.names d).Pairwise (· < ·) := by
  unfold names
  rw [List.pairwise_map]
  refine SortedMap.range_sorted.imp_of_mem fun {a b} ha hb hlt => ?_
  have hdir : ∀ e ∈ m.range (toLex (d, "")) (toLex (d + 1, "")), (ofLex e.1).1 = d := by
    rintro ⟨key, i⟩ he
    obtain ⟨-, h₁, h₂⟩ := SortedMap.mem_range.mp he
    exact key_range.mp ⟨h₁, h₂⟩
  rcases Prod.Lex.lt_iff.mp hlt with h | h
  · exact absurd h (by rw [hdir a ha, hdir b hb]; exact lt_irrefl d)
  · exact h.2

/-- The entry at a position in the range of a directory. -/
theorem byIndex_of_names (h : (m.names d)[k]? = some name) :
    ∃ i, m.byIndex ((m.indexRange d).1 + k) = some (name, i) ∧
      m.get (toLex (d, name)) = some i := by
  have hk : k < (m.names d).length := (List.getElem?_eq_some_iff.mp h).1
  unfold names at h
  rw [List.getElem?_map, Option.map_eq_some_iff] at h
  obtain ⟨⟨key, i⟩, he, rfl⟩ := h
  obtain ⟨hget, ha, hb⟩ := SortedMap.mem_range.mp (List.mem_of_getElem? he)
  obtain rfl : (ofLex key).1 = d := key_range.mp ⟨ha, hb⟩
  rw [length_names] at hk
  rw [SortedMap.range_getElem? hk] at he
  exact ⟨i, congrArg (Option.map fun e : (ℕ ×ₗ String) × ℕ => ((ofLex e.1).2, e.2)) he, hget⟩

/-- Names in order are determined by which they are. -/
theorem names_eq_filter {p : String → Bool}
    (h : ∀ name, m'.get (toLex (d, name)) ≠ none ↔ m.get (toLex (d, name)) ≠ none ∧ p name) :
    m'.names d = (m.names d).filter p := by
  have hirrefl : Std.Irrefl fun a b : String => a < b := ⟨lt_irrefl⟩
  have hanti : Std.Antisymm fun a b : String => a < b :=
    ⟨fun a b hab hba => absurd (hab.trans hba) (lt_irrefl _)⟩
  apply List.Pairwise.eq_of_mem_iff names_sorted (names_sorted.filter _)
  intro name
  rw [mem_names, List.mem_filter, mem_names, h]

end DirEntries

namespace FileTree

variable {S : ℕ → String → Prop} {t t' : FileTree} {d p : ℕ} {name : String}

/-- The names of the virt entries of a directory. -/
def virtNames (t : FileTree) (d : ℕ) : List String := t.virtChildDirEntryMap.names d

theorem mem_virtNames : name ∈ t.virtNames d ↔ t.virtGet d name ≠ none := DirEntries.mem_names

theorem virtNames_sorted : (t.virtNames d).Pairwise (· < ·) := DirEntries.names_sorted

theorem virtNames_nodup : (t.virtNames d).Nodup := virtNames_sorted.imp ne_of_lt

theorem virtNames_eq_filter {p : String → Bool}
    (h : ∀ name, t'.virtGet d name ≠ none ↔ t.virtGet d name ≠ none ∧ p name) :
    t'.virtNames d = (t.virtNames d).filter p := DirEntries.names_eq_filter h

/-- The file under a name is unlinked, and still open. -/
def unlinked (t : FileTree) (d : ℕ) (name : String) : Bool :=
  (t.names.find d name).any fun i => (t.globals.use i).pendingDelete

/-- Only the unlinked files that were there are unlinked. -/
theorem Grown.unlinked (hg : Grown S t t') (hp : t.nonces.Given p) {n : String}
    (hnew : S p n → t.names.find p n = none → t'.unlinked p n = false) :
    t'.unlinked p n = t.unlinked p n := by
  cases hf : t.names.find p n with
  | some j =>
      unfold FileTree.unlinked
      rw [hf, hg.find p n j hf]
      exact hg.globals.pendingDelete j
  | none =>
      have hnone : t.unlinked p n = false := by
        unfold FileTree.unlinked
        rw [hf]
        rfl
      rw [hnone]
      by_cases hS : S p n
      · exact hnew hS hf
      · unfold FileTree.unlinked
        rw [hg.free p n hp hS hf]
        rfl

end FileTree

namespace Fh

variable (f : Fh)

/-- Behind the files of the two pages. -/
def nextCap : ℕ := f.nextListDirectoryOutputStartingOffset + fileLen f.nextListDirectoryOutput

/-- Behind the subdirectories. -/
def subdirectoryCap : ℕ := f.nextCap + f.listDirectorySubdirectoryList.length

/-- The file at an offset. -/
def fileAt (c : ℕ) : Option (String × FileInfo) :=
  if c < f.nextListDirectoryOutputStartingOffset then
    f.prevListDirectoryOutput.bind fun page =>
      page.file[c - f.prevListDirectoryOutputStartingOffset]?
  else
    f.nextListDirectoryOutput.bind fun page =>
      page.file[c - f.nextListDirectoryOutputStartingOffset]?

variable {f} {c : ℕ}

/-- No offset is out of range. -/
theorem exists_fileAt (h : PagesOk f) (hprev : f.prevListDirectoryOutputStartingOffset ≤ c)
    (hc : c < f.nextCap) : ∃ file, f.fileAt c = some file := by
  unfold fileAt
  split
  next hlt =>
    obtain ⟨page, hpage, hk⟩ := h c hprev hlt
    exact ⟨_, by rw [hpage, Option.bind_some, List.getElem?_eq_getElem hk]⟩
  next hge =>
    unfold nextCap fileLen at hc
    cases hnext : f.nextListDirectoryOutput with
    | none =>
        rw [hnext] at hc
        exact absurd hc hge
    | some page =>
        rw [hnext, Option.map_some, Option.getD_some] at hc
        exact ⟨_, by rw [Option.bind_some, List.getElem?_eq_getElem (by omega)]⟩

/-- The pages before the next one is listed. -/
theorem shiftPages_ok (h : PagesOk f) : PagesOk f.shiftPages := by
  unfold shiftPages
  split
  · exact h
  · intro k hprev hnext
    exact absurd hnext (not_lt.mpr hprev)

@[simp] theorem shiftPages_inode : f.shiftPages.inode = f.inode := by
  unfold shiftPages
  split <;> rfl

/-- Subdirectories are remembered once. -/
def remembered (f : Fh) (page : ListDirectoryOutput) : List String :=
  page.subdirectory.foldl (fun l s => if s ∈ l then l else l ++ [s])
    f.listDirectorySubdirectoryList

/-- The first page. -/
theorem addPage_of_none {page : ListDirectoryOutput} (hp : f.prevListDirectoryOutput = none) :
    f.addPage page = { f with
      listDirectorySequenceDone := !page.isTruncated
      prevListDirectoryOutput := some page
      prevListDirectoryOutputStartingOffset := 0
      nextListDirectoryOutput := none
      nextListDirectoryOutputStartingOffset := page.file.length
      listDirectorySubdirectoryList := f.remembered page } := by
  simp only [addPage, hp, rememberSubdirectories, remembered]

/-- A page behind the previous one. -/
theorem addPage_of_some {page prev : ListDirectoryOutput}
    (hp : f.prevListDirectoryOutput = some prev) :
    f.addPage page = { f with
      listDirectorySequenceDone := !page.isTruncated
      nextListDirectoryOutput := some page
      nextListDirectoryOutputStartingOffset :=
        f.prevListDirectoryOutputStartingOffset + prev.file.length
      listDirectorySubdirectoryList := f.remembered page } := by
  simp only [addPage, hp, rememberSubdirectories, remembered]

/-- The pages with the one that has come. -/
theorem addPage_ok (page : ListDirectoryOutput) : PagesOk (f.addPage page) := by
  intro k hprev hnext
  cases hp : f.prevListDirectoryOutput with
  | none =>
      rw [addPage_of_none hp] at hnext ⊢
      exact ⟨page, rfl, hnext⟩
  | some prev =>
      rw [addPage_of_some hp] at hnext hprev ⊢
      refine ⟨prev, hp, ?_⟩
      dsimp only at hnext hprev ⊢
      omega

@[simp] theorem addPage_inode (page : ListDirectoryOutput) : (f.addPage page).inode = f.inode := by
  unfold addPage
  cases f.prevListDirectoryOutput <;> rfl

@[simp] theorem addPage_listDirectoryInProgress (page : ListDirectoryOutput) :
    (f.addPage page).listDirectoryInProgress = f.listDirectoryInProgress := by
  unfold addPage
  cases f.prevListDirectoryOutput <;> rfl

/-- Calls through the handle are served from the listing of the backend. -/
def Direct (plus : Bool) (manifest : List ManifestPartEntry) (f : Fh) : Prop :=
  plus = true → f.serveFromBPTree = false ∧ f.manifestEntries = none ∧ manifest = []

variable {plus : Bool} {manifest : List ManifestPartEntry}

theorem direct_false : f.Direct false manifest := nofun

theorem Direct.idle (h : f.Direct plus manifest) :
    { f with listDirectoryInProgress := none }.Direct plus manifest := h

theorem Direct.addPage (h : f.Direct plus manifest) (page : ListDirectoryOutput) :
    (f.addPage page).Direct plus manifest := by
  unfold Direct Fh.addPage
  cases f.prevListDirectoryOutput <;> exact h

theorem Direct.shiftPages (h : f.Direct plus manifest) : f.shiftPages.Direct plus manifest := by
  unfold Direct Fh.shiftPages
  split <;> exact h

end Fh

namespace TreeSection

open FileTree

variable (cfg : TreeConfig) {S : ℕ → String → Prop} {left : Prop} {off : ℕ → Prop}
  {t t' : FileTree} {i p d fh : ℕ} {name : String} {f : Fh} {call : ReadDirCall}

/-! ### Children -/

/-- The names of a directory, as who reads it sees them. -/
structure Seen (p : ℕ) (t t' : FileTree) : Prop where
  dir : BackendDir t' p
  given : ∀ i, t.nonces.Given i → t'.nonces.Given i
  globals : Prefetching t.globals t'.globals
  unlinked : ∀ n, t'.unlinked p n = t.unlinked p n

/-- A child that has been found under a name, or that has been created. -/
structure Child (p : ℕ) (name : String) (t t' : FileTree) (i : ℕ) : Prop where
  seen : Seen p t t'
  basename : (t'.inode i).basename = name
  pendingDelete : (t'.globals.use i).pendingDelete = t.unlinked p name
  virt : ∀ n, t'.virtGet p n = if n = name then none else t.virtGet p n

/-- What is found under a name unlinks no other. -/
theorem Hit.unlinked (h : t.Ok left NoneBare off) (hp : BackendDir t p)
    (hh : Hit (fun d n => d = p ∧ n = name) t t' p name i) (n : String) :
    t'.unlinked p n = t.unlinked p n := by
  refine hh.grown.unlinked (h.given hp.inodeMap) ?_
  rintro ⟨-, rfl⟩ hnone
  rcases hh.found with hf | rfl
  · rw [hnone] at hf
    cases hf
  · have hblank := (h.blank t.nonces.head (.inl (NamesOk.head_not_given _))).2.use
    unfold FileTree.unlinked
    rw [hh.find, Option.any_some, hh.grown.globals.pendingDelete, hblank]

/-- What is found under a name that is no dot has that name, and is a virtual
directory if it has a virt entry. -/
theorem Hit.entered (h' : t'.Ok left NoneBare off) (hp : BackendDir t' p)
    (hh : Hit S t t' p name i) (hdot : ¬IsDot name) :
    (t'.inode i).parentInodeNumber = p ∧ (t'.inode i).basename = name ∧
      (¬((t'.inode i).isVirt ∧ (t'.inode i).inodeType = .PseudoDir) →
        t'.virtGet p name = none) := by
  have hf := hh.find
  unfold Names.find at hf
  rcases Option.or_eq_some_iff.mp hf with hent | ⟨-, hent⟩
  · obtain ⟨-, -, -, hpar, hname, -⟩ := h'.names.entry _ _ _ _ hent fun hb => nomatch hb
    refine ⟨hpar, hname, fun _ => ?_⟩
    rcases h'.names.disjoint p name with hd | hd
    · rw [hd] at hent
      cases hent
    · exact hd
  · obtain ⟨hi, hroot, -, hpar, hname, hvirt⟩ := h'.names.entry _ _ _ _ hent fun _ => hdot
    refine ⟨hpar, hname, fun hnot => absurd ⟨hvirt, ?_⟩ hnot⟩
    cases htype : (t'.inode i).inodeType with
    | PseudoDir => rfl
    | FUSERootDir => exact absurd (h'.names.root_unique i hi htype) hroot
    | FileObject =>
        rw [h'.names.file i hi htype] at hvirt
        cases hvirt
    | BackendRootDir =>
        have hpr := (h'.names.backendRoot i hi htype).1
        rw [hpar] at hpr
        exact absurd hpr hp.notRoot

/-- **`listedChild`** -/
theorem listedChild_ok (h : t.Ok left NoneBare off) (hp : BackendDir t p) {child : TreeSection ℕ}
    (hchild : EndsIn (fun i t' => t'.Ok left NoneBare off ∧
        Hit (fun d n => d = p ∧ n = name) t t' p name i) (fun _ => False) (runs child t)) :
    EndsIn (fun r t' => t'.Ok left NoneBare off ∧ Grown (fun d n => d = p ∧ n = name) t t' ∧
        t'.inodeMap r.2 ∧ ¬t'.names.Pending r.2 ∧
        (¬IsDot name → r.1 = name ∧ Child p name t t' r.2))
      (fun _ => False) (runs (listedChild cfg child) t) := by
  unfold listedChild
  rw [runs_bind]
  refine hchild.andThen fun i t₁ ⟨hok₁, hh⟩ => ?_
  obtain ⟨t₂, hrun, hok₂, hgrown, hconv⟩ := convertToPhysInodeIfNecessary_ok
    (S := fun _ _ => False) cfg hok₁ hh.inodeMap hh.notPending
  rw [runs_bind, hrun, andThen_ok, runs_bind, runs_deref, andThen_ok]
  have hgrown₂ : Grown (fun d n => d = p ∧ n = name) t t₂ :=
    hh.grown.trans (hgrown.mono fun _ _ => False.elim)
  refine ⟨hok₂, hgrown₂, hgrown.inodeMap i hh.inodeMap, notPending_grown hh.notPending hgrown,
    fun hdot => ?_⟩
  have hp₁ := hp.grown h hh.grown
  obtain ⟨hpar, hname, hphys⟩ := hh.entered hok₁ hp₁ hdot
  have hbase : (t₂.inode i).basename = name := by
    obtain ⟨v, hv⟩ := hgrown.inode i (hok₁.given hh.inodeMap)
    rw [hv]
    exact hname
  have hunlinked : ∀ n, t₂.unlinked p n = t.unlinked p n := fun n =>
    (hgrown.unlinked (hok₁.given hp₁.inodeMap) fun hS => hS.elim).trans (hh.unlinked h hp n)
  refine ⟨hbase, ⟨hp.grown h hgrown₂, hgrown₂.given, hgrown₂.globals, hunlinked⟩, hbase, ?_,
    fun n => ?_⟩
  -- the entry is not unlinked, since its name is found
  · have hf : t₂.names.find p name = some i := hgrown.find p name i hh.find
    rw [← hunlinked name]
    unfold FileTree.unlinked
    rw [hf]
    rfl
  · rw [hconv p n, hpar, hname, hh.virt p n (h.given hp.inodeMap)]
    -- the entry of this name may have become physical, the others stay
    by_cases hn : n = name
    · rw [if_pos hn]
      by_cases hvirt : (t₁.inode i).isVirt = true ∧ (t₁.inode i).inodeType = .PseudoDir
      · rw [if_pos ⟨hvirt, rfl, hn⟩]
      · rw [if_neg fun hc => hvirt hc.1, hn, ← hh.virt p name (h.given hp.inodeMap)]
        exact hphys hvirt
    · rw [if_neg fun hc => hn hc.2.2, if_neg hn]

/-! ### Entries by their positions -/

variable {c : ℕ} {file : String × FileInfo}

/-- An entry with room is added. -/
def added (call : ReadDirCall) (type : DirEntType) (i : ℕ) (name : String) : ReadDirCall :=
  { call with
    dirEnt := call.dirEnt ++ [⟨i, call.curOffset, type, name⟩]
    curSize := call.curSize + cfg.dirEntSize call.plus name }

/-- An entry is appended where there is room for it. -/
theorem runs_appendToReadDirOut (h : t.Ok left NoneBare off) (hi : t.inodeMap i)
    (hnp : ¬t.names.Pending i) : runs (appendToReadDirOut cfg call i name) t =
      if call.size < call.curSize + cfg.dirEntSize call.plus name then (.ok none, t)
      else (.ok (some (added cfg call (t.inode i).inodeType.dirEntType i name)), t) := by
  unfold appendToReadDirOut
  dsimp only
  split
  · rfl
  · rw [runs_bind, runs_deref, andThen_ok]
    split
    next hc =>
      have hroot : i ≠ FUSERootDirInodeNumber := by
        rintro rfl
        rw [show (t.inode FUSERootDirInodeNumber).inodeType = _ from h.names.rootInode.1] at hc
        simp at hc
      obtain ⟨backend, -, hb⟩ := runs_backendOf h hi hroot hnp
      rw [runs_bind, hb, andThen_ok, runs_pure]
      rfl
    · rfl

theorem runs_handleOf (hf : t.globals.fhMap fh = some f) : runs (handleOf fh) t = (.ok f, t) := by
  simp [handleOf, hf]

/-- A file of a page. -/
theorem runs_childAt_file (hf : t.globals.fhMap fh = some f) (hc : c < f.nextCap)
    (hfile : f.fileAt c = some file) : runs (childAt cfg d fh c) t =
      runs (some <$> listedChild cfg (findChildFileInode cfg d file.1 file.2)) t := by
  unfold Fh.fileAt at hfile
  simp only [childAt, runs_bind, runs_handleOf hf, runs_virtIndexRange, andThen_ok]
  split at hfile
  next hlt => rw [if_pos hlt, hfile]
  next hge =>
    unfold Fh.nextCap at hc
    rw [if_neg hge, if_pos hc, hfile]

/-- A subdirectory. -/
theorem runs_childAt_subdirectory (hf : t.globals.fhMap fh = some f) (hc : f.nextCap ≤ c)
    (hs : f.listDirectorySubdirectoryList[c - f.nextCap]? = some name) :
    runs (childAt cfg d fh c) t =
      runs (some <$> listedChild cfg (findChildDirInode cfg d name)) t := by
  have hlt := (List.getElem?_eq_some_iff.mp hs).1
  unfold Fh.nextCap at hc hs hlt
  simp only [childAt, runs_bind, runs_handleOf hf, runs_virtIndexRange, andThen_ok]
  rw [if_neg (by omega), if_neg (by omega), if_pos (by omega), hs]

/-- The entry at a position in the virt entries of a directory. -/
theorem virtByIndex_find (h : t.Ok left NoneBare off) (hv : (t.virtNames d)[c]? = some name) :
    ∃ i, t.virtChildDirEntryMap.byIndex ((t.virtChildDirEntryMap.indexRange d).1 + c) =
      some (name, i) ∧ t.names.find d name = some i := by
  obtain ⟨i, hindex, hget⟩ := DirEntries.byIndex_of_names hv
  have hget : t.names.entry true d name = some i := hget
  refine ⟨i, hindex, ?_⟩
  unfold Names.find
  rcases h.names.disjoint d name with hd | hd
  · rw [hd, hget]
    rfl
  · rw [hd] at hget
    cases hget

/-- A virt entry. -/
theorem runs_childAt_virt (h : t.Ok left NoneBare off) (hp : BackendDir t d)
    (hf : t.globals.fhMap fh = some f) (hc : f.subdirectoryCap ≤ c)
    (hv : (t.virtNames d)[c - f.subdirectoryCap]? = some name) :
    ∃ i, runs (childAt cfg d fh c) t = (.ok (some (name, i)), t) ∧
      t.names.find d name = some i := by
  obtain ⟨i, hindex, hfind⟩ := virtByIndex_find h hv
  have hlt := (List.getElem?_eq_some_iff.mp hv).1
  rw [virtNames, DirEntries.length_names] at hlt
  have hi := (h.names.find_inode hp.inodeMap hp.isDir hfind).1
  refine ⟨i, ?_, hfind⟩
  unfold Fh.subdirectoryCap Fh.nextCap at hc hindex hlt
  simp only [childAt, runs_bind, runs_handleOf hf, runs_virtIndexRange, andThen_ok]
  rw [if_neg (by omega), if_neg (by omega), if_neg (by omega), if_pos (by omega)]
  simp only [runs_bind, runs_virtByIndex, hindex, andThen_ok, runs_childOf hi, runs_pure]

/-- Nothing is behind the virt entries. -/
theorem runs_childAt_end (hf : t.globals.fhMap fh = some f)
    (hc : f.subdirectoryCap + (t.virtNames d).length ≤ c) :
    runs (childAt cfg d fh c) t = (.ok none, t) := by
  unfold Fh.subdirectoryCap Fh.nextCap at hc
  rw [virtNames, DirEntries.length_names] at hc
  simp only [childAt, runs_bind, runs_handleOf hf, runs_virtIndexRange, andThen_ok]
  rw [if_neg (by omega), if_neg (by omega), if_neg (by omega), if_neg (by omega)]
  rfl

/-- **`childAt`** does not end the process. -/
theorem childAt_ok (h : t.Ok left NoneBare off) (hp : BackendDir t d)
    (hf : t.globals.fhMap fh = some f) (hprev : f.prevListDirectoryOutputStartingOffset ≤ c) :
    EndsIn (fun r t' => t'.Ok left NoneBare off ∧ Grown (fun d' _ => d' = d) t t' ∧
        ∀ e ∈ r, t'.inodeMap e.2 ∧ ¬t'.names.Pending e.2)
      (fun _ => False) (runs (childAt cfg d fh c) t) := by
  -- a child that is listed
  have hlisted : ∀ {child : TreeSection ℕ} {name : String},
      EndsIn (fun i t' => t'.Ok left NoneBare off ∧
        Hit (fun d' n => d' = d ∧ n = name) t t' d name i) (fun _ => False) (runs child t) →
      EndsIn (fun r t' => t'.Ok left NoneBare off ∧ Grown (fun d' _ => d' = d) t t' ∧
        ∀ e ∈ r, t'.inodeMap e.2 ∧ ¬t'.names.Pending e.2)
      (fun _ => False) (runs (some <$> listedChild cfg child) t) := by
    intro child name hchild
    rw [runs_map]
    refine (listedChild_ok cfg h hp hchild).andThen fun e t' ⟨hok, hgrown, hi, hnp, _⟩ => ?_
    refine ⟨hok, hgrown.mono fun _ _ => And.left, fun e' he' => ?_⟩
    obtain rfl := Option.mem_some_iff.mp he'
    exact ⟨hi, hnp⟩
  by_cases hnext : c < f.nextCap
  · obtain ⟨file, hfile⟩ := f.exists_fileAt (h.calls.pages fh f hf) hprev hnext
    rw [runs_childAt_file cfg hf hnext hfile]
    exact hlisted (findChildFileInode_ok cfg h hp file.2)
  · rw [not_lt] at hnext
    by_cases hsub : c < f.subdirectoryCap
    · unfold Fh.subdirectoryCap at hsub
      have hs : f.listDirectorySubdirectoryList[c - f.nextCap]? = some _ :=
        List.getElem?_eq_getElem (by omega)
      rw [runs_childAt_subdirectory cfg hf hnext hs]
      exact hlisted (findChildDirInode_ok cfg h hp)
    · rw [not_lt] at hsub
      by_cases hvirt : c - f.subdirectoryCap < (t.virtNames d).length
      · obtain ⟨i, hrun, hfind⟩ := runs_childAt_virt cfg h hp hf hsub
          (List.getElem?_eq_getElem hvirt)
        rw [hrun]
        refine ⟨h, .refl, fun e he => ?_⟩
        obtain rfl := Option.mem_some_iff.mp he
        exact h.names.find_inode hp.inodeMap hp.isDir hfind
      · rw [runs_childAt_end cfg hf (by omega)]
        exact ⟨h, .refl, fun e he => nomatch he⟩

/-! ### Handles -/

/-- What a call does to its handle while it waits. -/
theorem setFh_ok (h : t.Ok left NoneBare off) (hf : t.globals.fhMap fh = some f) (f' : Fh)
    (hinode : f'.inode = f.inode) (hpages : PagesOk f')
    (hlist : f'.listDirectoryInProgress.isSome → f'.inode < t.nonces.head ∧
      t.names.isDir f'.inode ∧ f'.inode ≠ FUSERootDirInodeNumber ∧
        Lives t.names f'.inode (fh ∈ (t.globals.use f'.inode).fhSet)) :
    (t.modify fun g => g.setFh fh (some f')).Ok left NoneBare off := by
  have hmap : ∀ fh', (t.globals.setFh fh (some f')).fhMap fh' =
      if fh' = fh then some f' else t.globals.fhMap fh' := fun _ => Function.update_apply ..
  have hc := h.calls
  refine h.modify _ rfl (fun i ho => ⟨ho, id⟩) (fun i hi => ?_) ⟨fun i fh' hi hmem => ?_,
    hc.handle_nodup, fun fh' g hg => ?_, fun fh' g hg hsome => ?_, hc.prefetch, hc.pendingDelete,
    hc.pendingDelete_nodup, hc.lines⟩
  · have hb := (h.blank i hi).2
    refine ⟨hb.use, ?_, hb.line⟩
    rw [hmap, if_neg, hb.fhMap]
    rintro rfl
    rw [hb.fhMap] at hf
    cases hf
  · obtain ⟨g, hg, hgi⟩ := hc.handle i fh' hi hmem
    rw [hmap]
    split
    -- the handle itself, which keeps its inode
    next heq =>
      subst heq
      rw [hf] at hg
      obtain rfl := Option.some_injective _ hg
      exact ⟨f', rfl, hinode.trans hgi⟩
    · exact ⟨g, hg, hgi⟩
  · rw [hmap] at hg
    split at hg
    · obtain rfl := Option.some_injective _ hg
      exact hpages
    · exact hc.pages fh' g hg
  · rw [hmap] at hg
    split at hg
    -- the call that waits, if it is one of this handle
    next heq =>
      subst heq
      obtain rfl := Option.some_injective _ hg
      exact hlist hsome
    · exact hc.listing fh' g hg hsome

/-- A directory of a backend is read through a handle. -/
structure Reads (t : FileTree) (d fh : ℕ) (f : Fh) : Prop where
  dir : BackendDir t d
  fhMap : t.globals.fhMap fh = some f
  fhSet : fh ∈ (t.globals.use d).fhSet

theorem Reads.inode (hr : Reads t d fh f) (h : t.Ok left NoneBare off) : f.inode = d := by
  obtain ⟨g, hg, hi⟩ := h.calls.handle d fh hr.dir.inodeMap hr.fhSet
  rw [hr.fhMap] at hg
  obtain rfl := Option.some_injective _ hg
  exact hi

theorem Reads.of_globals (hr : Reads t d fh f) (hdir : BackendDir t' d)
    (hg : Prefetching t.globals t'.globals) : Reads t' d fh f := by
  refine ⟨hdir, ?_, ?_⟩
  · rw [hg.fhMap]
    exact hr.fhMap
  · rw [hg.fhSet]
    exact hr.fhSet

theorem Reads.grown (hr : Reads t d fh f) (h : t.Ok left NoneBare off) (hg : Grown S t t') :
    Reads t' d fh f :=
  hr.of_globals (hr.dir.grown h hg) hg.globals

/-- The handle while a page is being listed. -/
def waits (f : Fh) (call : ReadDirCall) : Fh :=
  { f.shiftPages with listDirectoryInProgress := some call }

theorem waits_ok (h : t.Ok left NoneBare off) (hr : Reads t d fh f) :
    (t.modify fun g => g.setFh fh (some (waits f call))).Ok left NoneBare off := by
  have hinode : (waits f call).inode = f.inode := f.shiftPages_inode
  refine setFh_ok h hr.fhMap _ hinode (Fh.shiftPages_ok (h.calls.pages fh f hr.fhMap)) fun _ => ?_
  rw [hinode, hr.inode h]
  exact ⟨h.names.dir_lt d hr.dir.inodeMap hr.dir.isDir, hr.dir.isDir, hr.dir.notRoot,
    .inl ⟨hr.dir.inodeMap, hr.fhSet⟩⟩

/-- **The loop of `DoReadDir`** does not end the process. -/
theorem readDirFrom_ok (turns : ℕ) (h : t.Ok left NoneBare off) (hr : Reads t d fh f)
    (hprev : f.prevListDirectoryOutputStartingOffset ≤ call.curOffset) :
    EndsIn (fun _ t' => t'.Ok left NoneBare off) (fun _ => False)
      (runs (readDirFrom cfg d fh turns call) t) := by
  induction turns generalizing t call with
  | zero => exact h
  | succ turns ih =>
      unfold readDirFrom
      rw [runs_bind, runs_handleOf hr.fhMap, andThen_ok]
      split
      · rw [runs_bind, runs_modify, andThen_ok]
        exact waits_ok h hr
      · rw [runs_bind]
        refine (childAt_ok cfg h hr.dir hr.fhMap hprev).andThen fun r t' ⟨hok, hg, hc⟩ => ?_
        have hr' := hr.grown h hg
        cases r with
        | none => exact hok
        | some e =>
            obtain ⟨hi, hnp⟩ := hc e rfl
            dsimp only
            rw [runs_bind, runs_globals, andThen_ok]
            split
            · exact ih hok hr' (Nat.le_succ_of_le hprev)
            · rw [runs_bind, runs_appendToReadDirOut cfg hok hi hnp]
              split
              · exact hok
              · exact ih hok hr' (Nat.le_succ_of_le hprev)

/-- The loop over the root only reads. -/
theorem readRootFrom_ok (turns : ℕ) (h : t.Ok left NoneBare off)
    (hturns : turns = (t.virtChildDirEntryMap.indexRange FUSERootDirInodeNumber).2 -
      (t.virtChildDirEntryMap.indexRange FUSERootDirInodeNumber).1 - call.curOffset) :
    EndsIn (fun _ t' => t' = t) (fun _ => False) (runs (readRootFrom cfg
      (t.virtChildDirEntryMap.indexRange FUSERootDirInodeNumber).1 turns call) t) := by
  have hdir : t.names.isDir FUSERootDirInodeNumber := by
    unfold Names.isDir
    rw [h.names.rootInode.1]
    nofun
  induction turns generalizing call with
  | zero => rfl
  | succ turns ih =>
      have hlt : call.curOffset < (t.virtNames FUSERootDirInodeNumber).length := by
        rw [virtNames, DirEntries.length_names]
        omega
      obtain ⟨i, hindex, hfind⟩ := virtByIndex_find h (List.getElem?_eq_getElem hlt)
      obtain ⟨hi, hnp⟩ := h.names.find_inode h.names.root hdir hfind
      unfold readRootFrom
      rw [runs_bind, runs_virtByIndex, andThen_ok, hindex]
      dsimp only
      rw [runs_bind, runs_childOf hi, andThen_ok, runs_bind, runs_appendToReadDirOut cfg h hi hnp]
      split
      · rfl
      · refine ih ?_
        show turns = _ - (call.curOffset + 1)
        omega

/-- Whatever it says, an entry that is added changes nothing else. -/
theorem appendToReadDirOut_same : EndsIn (fun _ t' => t' = t) (fun _ => True)
    (runs (appendToReadDirOut cfg call i name) t) := by
  unfold appendToReadDirOut
  dsimp only
  split
  · rfl
  · rw [runs_bind, runs_deref, andThen_ok]
    split
    · unfold backendOf
      rw [runs_bind, runs_bind, runs_globals, andThen_ok]
      cases t.globals.backendMap (t.inode i).backendNonce with
      | none => trivial
      | some backend => rfl
    · rfl

/-- The loop over the phys entries only reads. -/
theorem readBPTreeFrom_same (turns : ℕ) {start physStart virtDotCount : ℕ} :
    EndsIn (fun _ t' => t' = t) (fun _ => True)
      (runs (readBPTreeFrom cfg d start physStart virtDotCount turns call) t) := by
  induction turns generalizing call with
  | zero => rfl
  | succ turns ih =>
      unfold readBPTreeFrom
      dsimp only
      split
      · rw [runs_bind, runs_virtByIndex, andThen_ok]
        split
        · rfl
        · rw [runs_bind, runs_inodeGet, andThen_ok]
          split
          · rw [runs_bind]
            refine (appendToReadDirOut_same cfg).andThen fun r t' ht' => ?_
            subst ht'
            cases r with
            | none => rfl
            | some call => exact ih
          · rfl
      · rw [runs_bind, runs_physByIndex, andThen_ok]
        split
        · rfl
        · split
          · rfl
          · exact ih

/-- The loop over a manifest part. -/
theorem readManifestFrom_ok (turns : ℕ) {start virtDotCount : ℕ} {entries : List ManifestPartEntry}
    (h : t.Ok left NoneBare off) (hp : BackendDir t d) :
    EndsIn (fun _ t' => t'.Ok left NoneBare off) (fun _ => True)
      (runs (readManifestFrom cfg d start virtDotCount entries turns call) t) := by
  induction turns generalizing t call with
  | zero => exact h
  | succ turns ih =>
      unfold readManifestFrom
      dsimp only
      split
      -- the virtual entries come first
      · rw [runs_bind, runs_virtByIndex, andThen_ok]
        split
        · exact h
        · rw [runs_bind, runs_inodeGet, andThen_ok]
          split
          · rw [runs_bind]
            refine (appendToReadDirOut_same cfg).andThen fun r t' ht' => ?_
            subst ht'
            cases r with
            | none => exact h
            | some call => exact ih h hp
          · exact h
      -- then the entries of the manifest, which are found or created
      · split
        · exact h
        next entry _ =>
          have hchild : EndsIn (fun i t' => t'.Ok left NoneBare off ∧
              Hit (fun d' n => d' = d ∧ n = entry.basename) t t' d entry.basename i)
              (fun _ => False) (runs (if entry.isDir then findChildDirInode cfg d entry.basename
                else findChildFileInode cfg d entry.basename entry.info) t) := by
            split
            · exact findChildDirInode_ok cfg h hp
            · exact findChildFileInode_ok cfg h hp entry.info
          rw [runs_bind]
          refine ((listedChild_ok cfg h hp hchild).mono (fun _ _ => id) fun _ => False.elim).andThen
            fun e t' ⟨hok, hg, hi, hnp, _⟩ => ?_
          have hp' := hp.grown h hg
          rw [runs_bind, runs_globals, andThen_ok]
          split
          -- an entry that is unlinked is passed over
          · exact ih hok hp'
          · rw [runs_bind]
            refine (appendToReadDirOut_same cfg).andThen fun r t'' ht'' => ?_
            subst ht''
            cases r with
            | none => exact hok
            | some call => exact ih hok hp'

/-- The root has no backend. -/
theorem backendMap_zero (h : t.Ok left NoneBare off) : t.globals.backendMap 0 = none := by
  by_contra hne
  obtain ⟨backend, hb⟩ := Option.ne_none_iff_exists'.mp hne
  obtain ⟨hi, htype, hnonce, -⟩ := h.names.mounted 0 backend hb
  have htype : (t.inode backend.inode).inodeType = .BackendRootDir := htype
  refine (h.names.backend backend.inode hi (h.names.notRoot_of_type ?_)
    (h.names.not_pending_of_isDir ?_)).1 hnonce
  · exact fun hroot => nomatch htype.symm.trans hroot
  · exact fun hfile => nomatch htype.symm.trans hfile

/-- The start of most calls, with an inode that is there. -/
theorem runs_withInode (missing : TreeErrno) (body : Inode → Option Backend → TreeSection Reply)
    (h : t.Ok left NoneBare off) (hi : t.inodeMap i) (hnp : ¬t.names.Pending i) :
    runs (withInode i missing body) t =
      runs (body (t.inode i) (t.globals.backendMap (t.inode i).backendNonce)) t := by
  have hi' : t.inodeMap i = true := hi
  unfold withInode
  rw [runs_bind, runs_inodeGet, andThen_ok, if_pos hi', runs_bind, runs_deref, andThen_ok]
  split
  next hnonce => rw [hnonce, backendMap_zero h]
  next hnonce =>
    have hroot : i ≠ FUSERootDirInodeNumber := by
      rintro rfl
      exact hnonce h.names.rootInode.2.2
    obtain ⟨backend, hb, hrun⟩ := runs_backendOf h hi hroot hnp
    rw [runs_bind, hrun, andThen_ok, hb]

/-- The start of most calls. -/
theorem withInode_ends {Q : Reply → FileTree → Prop} {E : FileTree → Prop} {missing : TreeErrno}
    {body : Inode → Option Backend → TreeSection Reply} (h : t.Ok left NoneBare off)
    (hnp : ¬t.names.Pending i) (hmiss : ¬t.inodeMap i → Q (.errno missing) t)
    (hbody : t.inodeMap i → EndsIn Q E
      (runs (body (t.inode i) (t.globals.backendMap (t.inode i).backendNonce)) t)) :
    EndsIn Q E (runs (withInode i missing body) t) := by
  by_cases hi : t.inodeMap i
  · rw [runs_withInode missing _ h hi hnp]
    exact hbody hi
  · unfold withInode
    rw [runs_bind, runs_inodeGet, andThen_ok, if_neg hi]
    exact hmiss hi

/-- What a call of `DoReadDir` reads before its loop. -/
theorem readDir_ok {manifest : List ManifestPartEntry} (h : t.Ok left NoneBare off)
    (hnp : ¬t.names.Pending d) : EndsIn (fun _ t' => t'.Ok left NoneBare off) (fun _ => True)
      (runs (readDir cfg d fh manifest call) t) := by
  unfold readDir
  refine withInode_ends h hnp (fun _ => h) fun hd => ?_
  split
  -- not a directory
  · exact h
  next hfile =>
    rw [runs_bind, runs_globals, andThen_ok]
    split
    -- no handle of this number
    · exact h
    next hmem =>
      rw [not_not] at hmem
      obtain ⟨f, hf, hinode⟩ := h.calls.handle d fh hd hmem
      rw [runs_bind, runs_handleOf hf, andThen_ok]
      obtain ⟨t₁, hrun, ht, hok⟩ := touch_ok cfg h hd hnp
      have hok₁ := hok.off_mono fun j => And.left
      obtain ⟨now, hg⟩ := ht.globals
      have hf₁ : t₁.globals.fhMap fh = some f := by
        rw [hg]
        exact hf
      have hmap₁ : t₁.inodeMap = t.inodeMap := congrArg Names.inodeMap ht.names
      have hinode₁ : t₁.inode = t.inode := congrArg Names.inode ht.names
      rw [runs_bind, hrun, andThen_ok, runs_bind, runs_virtIndexRange, andThen_ok]
      split
      -- the root is read from its own entries
      next hroot =>
        obtain rfl := h.names.root_unique d hd hroot
        refine (readRootFrom_ok cfg _ hok₁ rfl).mono (fun _ t' ht' => ?_) fun _ => False.elim
        subst ht'
        exact hok₁
      next hnotroot =>
        have hr₁ : Reads t₁ d fh f := by
          refine ⟨⟨?_, ?_, h.names.notRoot_of_type hnotroot⟩, hf₁, ?_⟩
          · rw [hmap₁]
            exact hd
          · show (t₁.inode d).inodeType ≠ .FileObject
            rw [hinode₁]
            exact hfile
          · rw [hg]
            exact hmem
        split
        -- from memory
        · rw [runs_bind, runs_physIndexRange, andThen_ok]
          refine (readBPTreeFrom_same cfg _).mono (fun _ t' ht' => ?_) fun _ => id
          subst ht'
          exact hok₁
        · dsimp only
          generalize (if f.manifestEntries.isNone && !manifest.isEmpty then some manifest
            else f.manifestEntries) = manifestEntries
          split
          -- from the manifest
          · rw [runs_bind, runs_modify, andThen_ok]
            have hok₂ := setFh_ok hok₁ hf₁ { f with manifestEntries := manifestEntries } rfl
              (hok₁.calls.pages fh f hf₁) (hok₁.calls.listing fh f hf₁)
            exact readManifestFrom_ok cfg _ hok₂ ⟨hr₁.dir.inodeMap, hr₁.dir.isDir, hr₁.dir.notRoot⟩
          · split
            · exact hok₁
            -- from the backend's pages, from the offset or the page before it
            · refine (readDirFrom_ok cfg _ hok₁ hr₁ ?_).mono (fun _ _ => id) fun _ => False.elim
              exact le_max_right _ _

/-- A directory that is gone with its backend is not converted: it has no entry
any more. -/
theorem convert_gone (h : t.Ok left NoneBare off) (hdir : t.names.isDir i)
    (hbackend : t.globals.backendMap (t.inode i).backendNonce = none) :
    EndsIn (fun _ t' => t' = t) (fun _ => True)
      (runs (convertToPhysInodeIfNecessary cfg i) t) := by
  unfold convertToPhysInodeIfNecessary
  rw [runs_bind, runs_deref, andThen_ok]
  split
  · rfl
  next hc =>
    simp only [Bool.or_eq_true, Bool.not_eq_true', Bool.and_eq_true, bne_iff_ne, ne_eq, not_or,
      Bool.not_eq_false, not_and, not_not] at hc
    have htype : (t.names.inode i).inodeType = .PseudoDir := hc.2 hdir
    obtain ⟨-, -, hroot, hdot, -, hnonce⟩ := h.names.pseudo i htype
    -- a directory of a backend that is gone has no virtual entry
    have hvirt : t.virtGet (t.inode i).parentInodeNumber (t.inode i).basename = none := by
      by_contra hne
      obtain ⟨j, hj⟩ := Option.ne_none_iff_exists'.mp hne
      have hent : t.names.entry true (t.names.inode i).parentInodeNumber
        (t.names.inode i).basename = some j := hj
      obtain ⟨hpres, hjroot, hjp, hpar, -⟩ := h.names.entry _ _ _ _ hent fun _ => hdot
      obtain ⟨hp, hpdir, -⟩ := h.names.parent j hpres hjroot hjp
      rw [hpar] at hp hpdir
      have hsome := (h.names.backend _ hp hroot (h.names.not_pending_of_isDir hpdir)).2
      have hb : t.names.backendMap (t.names.inode i).backendNonce = none := hbackend
      rw [hnonce, hb] at hsome
      cases hsome
    have huntime : EndsIn (fun _ t' => t'.virtGet = t.virtGet ∧ t'.inode = t.inode)
        (fun _ => True) (runs (untime i) t) := by
      unfold untime
      rw [runs_bind, runs_xTime, andThen_ok]
      split
      · rw [runs_bind, runs_queueRemove]
        split
        · exact ⟨rfl, rfl⟩
        · trivial
      · exact ⟨rfl, rfl⟩
    rw [runs_bind]
    refine huntime.andThen fun _ t₁ ⟨hv₁, hi₁⟩ => ?_
    rw [runs_bind, runs_setIsVirt, andThen_ok, runs_bind, runs_virtDelete]
    have hnone : (t₁.setIsVirt i false).virtGet (t.inode i).parentInodeNumber
        (t.inode i).basename = none := by
      show t₁.virtGet _ _ = none
      rw [hv₁]
      exact hvirt
    rw [hnone]
    trivial

/-- **`DoReadDir` goes on** when the backend has answered. -/
theorem readDirListed_ok {answer : Option ListDirectoryOutput} {manifest : List ManifestPartEntry}
    (h : t.Ok left NoneBare off) : EndsIn (fun _ t' => t'.Ok left NoneBare off) (fun _ => True)
      (runs (readDirListed cfg fh answer manifest) t) := by
  unfold readDirListed
  rw [runs_bind]
  cases hf : t.globals.fhMap fh with
  | none =>
      simp only [handleOf, runs_bind, runs_globals, andThen_ok, hf, runs_fatalf, andThen_error]
      trivial
  | some f =>
      rw [runs_handleOf hf, andThen_ok]
      split
      · exact h
      next call hcall =>
        obtain ⟨hlt, hdir, -, hlives⟩ := h.calls.listing fh f hf (by rw [hcall]; rfl)
        rw [runs_bind, runs_modify, andThen_ok]
        have hok₁ := setFh_ok h hf { f with listDirectoryInProgress := none } rfl
          (h.calls.pages fh f hf) fun hsome => nomatch hsome
        have hf₁ : (t.globals.setFh fh (some { f with listDirectoryInProgress := none })).fhMap fh =
            some { f with listDirectoryInProgress := none } := Function.update_self ..
        generalize ht₁ : t.modify (fun g => g.setFh fh
          (some { f with listDirectoryInProgress := none })) = t₁ at hok₁ ⊢
        replace hf₁ : t₁.globals.fhMap fh = some { f with listDirectoryInProgress := none } := by
          rw [← ht₁]
          exact hf₁
        have hdir₁ : t₁.names.isDir f.inode := by
          rw [← ht₁]
          exact hdir
        have hconvert : EndsIn (fun _ t' => t'.Ok left NoneBare off ∧
            Grown (fun _ _ => False) t₁ t') (fun _ => True)
            (runs (convertToPhysInodeIfNecessary cfg f.inode) t₁) := by
          rcases hlives with ⟨hi, -⟩ | ⟨-, hb, -⟩
          · obtain ⟨t', hrun, hok', hg, -⟩ := convertToPhysInodeIfNecessary_ok
              (S := fun _ _ => False) cfg hok₁ (by rw [← ht₁]; exact hi)
              (hok₁.names.not_pending_of_isDir hdir₁)
            rw [hrun]
            exact ⟨hok', hg⟩
          · refine (convert_gone cfg hok₁ hdir₁ (by rw [← ht₁]; exact hb)).mono
              (fun _ t' ht' => ?_) fun _ => id
            subst ht'
            exact ⟨hok₁, .refl⟩
        cases answer with
        | none => exact hok₁
        | some page =>
            -- what follows the conversion
            have hrest : ∀ t₂, t₂.Ok left NoneBare off ∧ Grown (fun _ _ => False) t₁ t₂ →
                EndsIn (fun _ t' => t'.Ok left NoneBare off) (fun _ => True)
                  (runs (do
                    modify fun g => g.setFh fh
                      (some ({ f with listDirectoryInProgress := none }.addPage page))
                    readDir cfg f.inode fh manifest call) t₂) := by
              rintro t₂ ⟨hok₂, hg⟩
              rw [runs_bind, runs_modify, andThen_ok]
              have hok₃ := setFh_ok hok₂ (by rw [hg.globals.fhMap]; exact hf₁) _
                (Fh.addPage_inode page) (Fh.addPage_ok page) fun hsome => by
                  rw [Fh.addPage_listDirectoryInProgress] at hsome
                  cases hsome
              refine readDir_ok cfg hok₃ (hok₃.names.not_pending_of_isDir ?_)
              obtain ⟨v, hv⟩ := hg.inode f.inode (by rw [← ht₁]; exact NamesOk.given_of_lt hlt)
              show (t₂.inode f.inode).inodeType ≠ .FileObject
              rw [hv]
              exact hdir₁
            dsimp only
            split
            · rw [runs_bind]
              exact hconvert.andThen fun _ t₂ ht₂ => hrest t₂ ht₂
            · exact hrest t₁ ⟨hok₁, .refl⟩

end TreeSection

end MultiStorageFileSystem
