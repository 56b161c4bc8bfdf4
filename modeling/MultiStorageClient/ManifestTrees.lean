/-
MultiStorageClient/ManifestTrees.lean

How many directories it takes to block the workers of `generateManifest`
(`manifest_gen.go`).

A worker that waits for room in the queue is in the middle of a directory whose
subdirectories are sent by plain sends, and holds one of them.  So if all workers
wait, there is one such directory for each of them, and the directories that are
queued, sent and listed at that moment are different ones.  Counted over the tree
that the walk finds (`Total`), a number of directories is never exceeded by what a
run still has to do (`weight_step`), which bounds both
(`ManifestGenerator.not_allBlocked_of_tree`).  `ManifestTreeBounds` shows that neither
bound can be improved.
-/
import MultiStorageClient.ManifestWorkers

namespace MultiStorageFileSystem

open Run

/-- `childPath` -/
def childPath (dirPath subdir : GoStr) : GoStr := dirPath ++ subdir ++ ['/']

/-- How deep a directory is in the tree. -/
def depthOf (dirPath : GoStr) : ℕ := dirPath.count '/'

theorem depthOf_childPath (dirPath subdir : GoStr) :
    depthOf dirPath + 1 ≤ depthOf (childPath dirPath subdir) := by
  unfold depthOf childPath
  rw [List.count_append, List.count_append]
  have hslash : List.count '/' ['/'] = 1 := rfl
  omega

/-! ### The directories that a walk finds -/

/-- The pages that follow, up to the last one or one that cannot be listed. -/
inductive WalkPages (b : WalkBackend) (dirPath : GoStr) : Option WalkInput → List WalkPage → Prop
  | ended : WalkPages b dirPath none []
  | failed {input : WalkInput} : b.listDirectory input = none → WalkPages b dirPath (some input) []
  | page {input : WalkInput} {page : WalkPage} {pages : List WalkPage} :
      b.listDirectory input = some page → WalkPages b dirPath (page.next dirPath) pages →
        WalkPages b dirPath (some input) (page :: pages)

/-- The subdirectories on some pages. -/
def subdirsOf (pages : List WalkPage) : List GoStr := pages.flatMap WalkPage.subdirectory

/-- The first page of a directory. -/
def firstInput (dirPath : GoStr) : WalkInput := ⟨dirPath, [], [], 1000⟩

/-- The page from which on the subdirectories of a directory are handed out, if any are, and
whether this is the tail of a flat directory. -/
def WalkBackend.start (b : WalkBackend) (dirPath : GoStr) : Bool × Option WalkInput :=
  if dirPath ∈ b.flatDirHints then (false, none)
  else
    match b.listDirectory (firstInput dirPath) with
    | none => (false, none)
    | some firstPage =>
        if firstPage.subdirectory = [] ∧ firstPage.isTruncated = true then
          match b.confirmFlatDirectory dirPath firstPage with
          | (false, _) => (false, some (firstInput dirPath))
          | (true, pages) =>
              match pages.head?.bind fun page => page.file.head? with
              | none => (false, some (firstInput dirPath))
              | some [] => (false, none)
              | some (c :: _) =>
                  (true, some ⟨dirPath, [], dirPath ++ stringOfByte c ++ List.replicate 20 '~',
                    1000⟩)
        else (false, some (firstInput dirPath))

/-- A number for each directory, from itself and its subdirectories, summed up over the tree that
the walk finds from a directory on. -/
inductive Total (b : WalkBackend) (own : GoStr → List GoStr → ℕ) : GoStr → ℕ → Prop
  | node {dirPath : GoStr} {pages : List WalkPage} (n : GoStr → ℕ)
      (hpages : WalkPages b dirPath (b.start dirPath).2 pages)
      (hsub : ∀ subdir ∈ subdirsOf pages, Total b own (childPath dirPath subdir) (n subdir)) :
      Total b own dirPath (own dirPath (subdirsOf pages) + ((subdirsOf pages).map n).sum)

/-- Every directory counts. -/
def everyDir (_dirPath : GoStr) (_subdirs : List GoStr) : ℕ := 1

/-- A directory counts if its subdirectories may be sent by plain sends: they stand in the tail of a
flat directory, or at least `maxRecursionDepth` levels below the root. -/
def WalkBackend.plainSends (b : WalkBackend) (dirPath : GoStr) (subdirs : List GoStr) : ℕ :=
  if subdirs ≠ [] ∧ ((b.start dirPath).1 = true ∨ maxRecursionDepth ≤ depthOf dirPath) then 1 else 0

section Trees

variable {b : WalkBackend} {own : GoStr → List GoStr → ℕ} {dirPath : GoStr}
  {input : WalkInput} {next : Option WalkInput} {pages pages' : List WalkPage} {n n' : ℕ}

/-- A directory has one sequence of pages. -/
theorem WalkPages.unique (h : WalkPages b dirPath next pages)
    (h' : WalkPages b dirPath next pages') : pages = pages' := by
  induction h generalizing pages' with
  | ended =>
      cases h'
      rfl
  | failed hnone =>
      cases h' with
      | failed _ => rfl
      | page hpage _ => exact absurd (hnone.symm.trans hpage) (by simp)
  | page hpage _ ih =>
      cases h' with
      | failed hnone => exact absurd (hnone.symm.trans hpage) (by simp)
      | page hpage' hrest =>
          obtain rfl := Option.some.inj (hpage.symm.trans hpage')
          rw [ih hrest]

/-- The total is determined by the tree. -/
theorem Total.unique (h : Total b own dirPath n) (h' : Total b own dirPath n') : n = n' := by
  induction h generalizing n' with
  | node m hpages _ ih =>
      cases h' with
      | node m' hpages' hsub' =>
          obtain rfl := hpages.unique hpages'
          have hsame := List.map_congr_left fun subdir hmem => ih subdir hmem (hsub' subdir hmem)
          rw [hsame]

open Classical in
/-- The total over the tree, and 0 where the walk finds no end. -/
noncomputable def total (b : WalkBackend) (own : GoStr → List GoStr → ℕ) (dirPath : GoStr) : ℕ :=
  if h : ∃ n, Total b own dirPath n then h.choose else 0

theorem total_eq (h : Total b own dirPath n) : total b own dirPath = n := by
  have hex : ∃ n, Total b own dirPath n := ⟨n, h⟩
  rw [total, dif_pos hex]
  exact hex.choose_spec.unique h

open Classical in
/-- The subdirectories on the pages that follow. -/
noncomputable def subdirsFrom (b : WalkBackend) (dirPath : GoStr) (next : Option WalkInput) :
    List GoStr :=
  if h : ∃ pages, WalkPages b dirPath next pages then subdirsOf h.choose else []

theorem subdirsFrom_eq (h : WalkPages b dirPath next pages) :
    subdirsFrom b dirPath next = subdirsOf pages := by
  have hex : ∃ pages, WalkPages b dirPath next pages := ⟨pages, h⟩
  rw [subdirsFrom, dif_pos hex, hex.choose_spec.unique h]

/-- The subdirectories of a directory that the walk hands out. -/
noncomputable def subdirs (b : WalkBackend) (dirPath : GoStr) : List GoStr :=
  subdirsFrom b dirPath (b.start dirPath).2

/-- A directory with its tree. -/
structure Known (b : WalkBackend) (own : GoStr → List GoStr → ℕ) (dirPath : GoStr) : Prop where
  pages : ∃ pages, WalkPages b dirPath (b.start dirPath).2 pages
  child : ∀ subdir ∈ subdirs b dirPath, ∃ n, Total b own (childPath dirPath subdir) n
  sum : total b own dirPath = own dirPath (subdirs b dirPath) +
    ((subdirs b dirPath).map fun subdir => total b own (childPath dirPath subdir)).sum

theorem Total.known (h : Total b own dirPath n) : Known b own dirPath := by
  have heq := total_eq h
  cases h with
  | node m hpages hsub =>
      have hsubdirs : subdirs b dirPath = subdirsOf _ := subdirsFrom_eq hpages
      refine ⟨⟨_, hpages⟩, fun subdir hmem => ⟨m subdir, hsub subdir (hsubdirs ▸ hmem)⟩, ?_⟩
      have hsame := List.map_congr_left fun subdir hmem =>
        total_eq (hsub subdir hmem)
      rw [heq, hsubdirs, hsame]

/-! ### The first pages -/

/-- The listing of a directory starts with these pages and goes on with the next one. -/
def StartsWith (b : WalkBackend) (dirPath : GoStr) (pages : List WalkPage)
    (next : Option WalkInput) : Prop :=
  ∀ all, WalkPages b dirPath (some (firstInput dirPath)) all →
    ∃ rest, all = pages ++ rest ∧ WalkPages b dirPath next rest

/-- The page after the last one of some pages. -/
def nextInput (dirPath : GoStr) (pages : List WalkPage) : Option WalkInput :=
  pages.getLast?.bind fun page => page.next dirPath

theorem nextInput_append (dirPath : GoStr) (pages : List WalkPage) (page : WalkPage) :
    nextInput dirPath (pages ++ [page]) = page.next dirPath := by
  unfold nextInput
  rw [List.getLast?_concat]
  rfl

/-- One more page. -/
theorem StartsWith.snoc {page : WalkPage} (h : StartsWith b dirPath pages (some input))
    (hpage : b.listDirectory input = some page) :
    StartsWith b dirPath (pages ++ [page]) (page.next dirPath) := by
  intro all hall
  obtain ⟨rest, rfl, hrest⟩ := h all hall
  cases hrest with
  | failed hnone => exact absurd (hnone.symm.trans hpage) (by simp)
  | page hpage' hrest =>
      obtain rfl := Option.some.inj (hpage.symm.trans hpage')
      exact ⟨_, by rw [List.append_assoc]; rfl, hrest⟩

theorem WalkPage.next_of_truncated {page : WalkPage} (h : page.isTruncated = true)
    (dirPath : GoStr) :
    page.next dirPath = some ⟨dirPath, page.nextContinuationToken, [], 1000⟩ := if_pos h

/-- `confirmFlatDirectory` fetches the first pages, one after the other. -/
theorem startsWith_confirmFrom (m : ℕ) {token : GoStr}
    (hnext : nextInput dirPath pages = some ⟨dirPath, token, [], 1000⟩)
    (h : StartsWith b dirPath pages (nextInput dirPath pages)) :
    StartsWith b dirPath (b.confirmFrom dirPath m token pages).2
      (nextInput dirPath (b.confirmFrom dirPath m token pages).2) := by
  induction m generalizing token pages with
  | zero => exact h
  | succ m ih =>
      unfold WalkBackend.confirmFrom
      split
      next => exact h
      next page hpage =>
        rw [hnext] at h
        have hsnoc := h.snoc hpage
        rw [← nextInput_append dirPath pages page] at hsnoc
        split
        next => exact hsnoc
        next hflat =>
          rw [not_or, not_not, Bool.not_eq_false] at hflat
          refine ih ?_ hsnoc
          rw [nextInput_append, page.next_of_truncated hflat.2]

/-- The pages that `confirmFlatDirectory` has read are the first ones. -/
theorem startsWith_confirmFlatDirectory {firstPage : WalkPage}
    (hpage : b.listDirectory (firstInput dirPath) = some firstPage)
    (htruncated : firstPage.isTruncated = true) :
    StartsWith b dirPath (b.confirmFlatDirectory dirPath firstPage).2
      (nextInput dirPath (b.confirmFlatDirectory dirPath firstPage).2) := by
  have hfirst : StartsWith b dirPath [firstPage] (nextInput dirPath [firstPage]) := by
    have hnil : StartsWith b dirPath [] (some (firstInput dirPath)) := fun all hall =>
      ⟨all, rfl, hall⟩
    exact hnil.snoc hpage
  exact startsWith_confirmFrom _ (firstPage.next_of_truncated htruncated dirPath) hfirst

/-- Where `listDirectory` goes on: nowhere, with the first pages, or in the tail of a flat
directory. -/
theorem step_listing_start {depth : ℕ} {full fails : Bool} {fs : List Frame} {e : Effect}
    (h : (Frame.listing dirPath depth).step b full fails = some (fs, e)) :
    fs = [] ∨
      (∃ pages, fs = [.writing dirPath depth [] pages (nextInput dirPath pages)] ∧
        (b.start dirPath).2 = some (firstInput dirPath) ∧
        StartsWith b dirPath pages (nextInput dirPath pages)) ∨
      ∃ next, fs = [.resuming dirPath [] next] ∧ b.start dirPath = (true, next) := by
  have hnormal : ∀ pages, (b.start dirPath).2 = some (firstInput dirPath) →
      StartsWith b dirPath pages (nextInput dirPath pages) →
      listDirectoryNormal dirPath depth pages fails = [] ∨
        ∃ pages', listDirectoryNormal dirPath depth pages fails =
            [.writing dirPath depth [] pages' (nextInput dirPath pages')] ∧
          (b.start dirPath).2 = some (firstInput dirPath) ∧
          StartsWith b dirPath pages' (nextInput dirPath pages') := by
    intro pages hstart hpages
    unfold listDirectoryNormal
    split
    · exact .inl rfl
    · exact .inr ⟨pages, rfl, hstart, hpages⟩
  unfold WalkBackend.start at hnormal ⊢
  rw [Frame.step] at h
  split at h
  -- a hint that the directory is flat
  next =>
    obtain ⟨rfl, rfl⟩ := Prod.mk.inj (Option.some.inj h)
    exact .inl rfl
  next hhint =>
    simp only [if_neg hhint] at hnormal ⊢
    split at h
    -- the first page cannot be got
    next =>
      obtain ⟨rfl, rfl⟩ := Prod.mk.inj (Option.some.inj h)
      exact .inl rfl
    next firstPage hpage =>
      have hpage' : b.listDirectory (firstInput dirPath) = some firstPage := hpage
      simp only [hpage'] at hnormal ⊢
      have hnil : StartsWith b dirPath [] (some (firstInput dirPath)) := fun all hall =>
        ⟨all, rfl, hall⟩
      split at h
      next hflat =>
        simp only [if_pos hflat] at hnormal ⊢
        have hconfirmed := startsWith_confirmFlatDirectory hpage' hflat.2
        split at h
        -- not flat, as the next pages show
        next pages hconfirm =>
          obtain ⟨rfl, rfl⟩ := Prod.mk.inj (Option.some.inj h)
          simp only [hconfirm] at hnormal hconfirmed ⊢
          exact (hnormal pages trivial hconfirmed).elim .inl fun h => .inr (.inl h)
        next pages hconfirm =>
          simp only [hconfirm] at hnormal hconfirmed ⊢
          cases hfile : pages.head?.bind fun page => page.file.head? with
          -- flat, and without a file to go on from
          | none =>
              simp only [hfile] at h hnormal ⊢
              obtain ⟨rfl, rfl⟩ := Prod.mk.inj (Option.some.inj h)
              exact (hnormal pages trivial hconfirmed).elim .inl fun h => .inr (.inl h)
          | some name =>
              cases name with
              -- flat, with a file without a name: the process ends
              | nil =>
                  simp only [hfile] at h
                  obtain ⟨rfl, rfl⟩ := Prod.mk.inj (Option.some.inj h)
                  exact .inl rfl
              -- flat: the walk goes on behind the file's first byte
              | cons c rest =>
                  simp only [hfile] at h
                  obtain ⟨rfl, rfl⟩ := Prod.mk.inj (Option.some.inj h)
                  exact .inr (.inr ⟨_, rfl, rfl⟩)
      -- no sign of a flat directory
      next hnormalDir =>
        obtain ⟨rfl, rfl⟩ := Prod.mk.inj (Option.some.inj h)
        simp only [if_neg hnormalDir] at hnormal ⊢
        exact (hnormal [firstPage] trivial (hnil.snoc hpage')).elim .inl fun h => .inr (.inl h)

end Trees

/-! ### What a worker still has to do -/

section Weights

variable (b : WalkBackend) (own : GoStr → List GoStr → ℕ)

/-- The number of a directory under way and those of the subdirectories that are left of it. -/
noncomputable def leftWeight (dirPath : GoStr) (left : List GoStr) : ℕ :=
  own dirPath (subdirs b dirPath) +
    (left.map fun subdir => total b own (childPath dirPath subdir)).sum

/-- The number that is left of a function. -/
noncomputable def Frame.weight : Frame → ℕ
  | listing dirPath _ => total b own dirPath
  | writing dirPath _ left pages next =>
      leftWeight b own dirPath (left ++ subdirsOf pages ++ subdirsFrom b dirPath next)
  | resuming dirPath left next => leftWeight b own dirPath (left ++ subdirsFrom b dirPath next)
  | sending c => total b own c
  | inlined => 0

/-- The number that is left of a worker. -/
noncomputable def Worker.weight : Worker → ℕ
  | working stack => (stack.map (Frame.weight b own)).sum
  | _ => 0

/-- The number of what is sent. -/
noncomputable def Effect.weight : Effect → ℕ
  | send c | addSend c => total b own c
  | _ => 0

/-- The subdirectories that are left are the last ones of the directory. -/
structure Leaves (dirPath : GoStr) (left : List GoStr) (next : Option WalkInput) : Prop where
  known : Known b own dirPath
  rest : ∃ pages, WalkPages b dirPath next pages
  suffix : (left ++ subdirsFrom b dirPath next).IsSuffix (subdirs b dirPath)

/-- The function is in a tree, with the subdirectories of its directory that are left. -/
def Frame.Fits : Frame → Prop
  | listing dirPath depth => (∃ n, Total b own dirPath n) ∧ depth ≤ depthOf dirPath
  | writing dirPath depth left pages next =>
      Leaves b own dirPath (left ++ subdirsOf pages) next ∧ depth ≤ depthOf dirPath
  | resuming dirPath left next =>
      Leaves b own dirPath left next ∧ (b.start dirPath).1 = true
  | sending c => ∃ n, Total b own c n
  | inlined => True

/-- The function hands out subdirectories by plain sends. -/
def Frame.SendsPlainly : Frame → Prop
  | writing dirPath depth _ _ _ => maxRecursionDepth ≤ depth ∧ subdirs b dirPath ≠ []
  | resuming dirPath _ _ => subdirs b dirPath ≠ []
  | _ => False

/-- A send is made by the function that is called before it. -/
def Called : List Frame → Prop
  | .sending _ :: stack => ∃ f ∈ stack.head?, f.SendsPlainly b
  | _ => True

/-- So are the functions of a worker. -/
def Worker.Fits : Worker → Prop
  | working stack => (∀ f ∈ stack, f.Fits b own) ∧ Called b stack
  | _ => True

/-- What is sent is in a tree. -/
def Effect.Fits : Effect → Prop
  | send c | addSend c => ∃ n, Total b own c n
  | _ => True

end Weights

section Steps

variable {b : WalkBackend} {own : GoStr → List GoStr → ℕ} {dirPath subdir : GoStr}
  {left : List GoStr} {next : Option WalkInput} {input : WalkInput} {page : WalkPage}
  {full fails : Bool} {f : Frame} {fs : List Frame} {e : Effect}

theorem leftWeight_cons : leftWeight b own dirPath (subdir :: left) =
    total b own (childPath dirPath subdir) + leftWeight b own dirPath left := by
  rw [leftWeight, leftWeight, List.map_cons, List.sum_cons]
  omega

/-- Nothing of the directory is left out at its start. -/
theorem Known.weight_eq (h : Known b own dirPath) :
    leftWeight b own dirPath (subdirs b dirPath) = total b own dirPath := h.sum.symm

/-- The subdirectories from a page on are the page's and those behind it. -/
theorem subdirsFrom_page (hpage : b.listDirectory input = some page)
    (hrest : ∃ pages, WalkPages b dirPath (some input) pages) :
    (∃ pages, WalkPages b dirPath (page.next dirPath) pages) ∧
      subdirsFrom b dirPath (some input) =
        page.subdirectory ++ subdirsFrom b dirPath (page.next dirPath) := by
  obtain ⟨pages, hpages⟩ := hrest
  cases hpages with
  | failed hnone => exact absurd (hnone.symm.trans hpage) (by simp)
  | @page _ page' pages hpage' hpages =>
      obtain rfl := Option.some.inj (hpage.symm.trans hpage')
      refine ⟨⟨pages, hpages⟩, ?_⟩
      rw [subdirsFrom_eq (.page hpage hpages), subdirsFrom_eq hpages]
      rfl

/-- The next subdirectory has its tree, and leaves the others. -/
theorem Leaves.cons (h : Leaves b own dirPath (subdir :: left) next) :
    (∃ n, Total b own (childPath dirPath subdir) n) ∧ Leaves b own dirPath left next ∧
      subdirs b dirPath ≠ [] := by
  have hmem : subdir ∈ subdirs b dirPath := h.suffix.subset List.mem_cons_self
  refine ⟨h.known.child subdir hmem, ⟨h.known, h.rest, ?_⟩, List.ne_nil_of_mem hmem⟩
  exact (List.suffix_cons subdir _).trans h.suffix

/-- The next page brings its subdirectories. -/
theorem Leaves.fetch (h : Leaves b own dirPath [] (some input))
    (hpage : b.listDirectory input = some page) :
    Leaves b own dirPath page.subdirectory (page.next dirPath) ∧
      subdirsFrom b dirPath (some input) =
        page.subdirectory ++ subdirsFrom b dirPath (page.next dirPath) := by
  obtain ⟨hrest, heq⟩ := subdirsFrom_page hpage h.rest
  refine ⟨⟨h.known, hrest, ?_⟩, heq⟩
  rw [← heq]
  exact h.suffix

/-- A page whose file cannot be opened is passed over. -/
theorem Leaves.drop (h : Leaves b own dirPath left next) : Leaves b own dirPath [] next :=
  ⟨h.known, h.rest, (List.suffix_append left _).trans h.suffix⟩

theorem leftWeight_drop (dirPath : GoStr) (left rest : List GoStr) :
    leftWeight b own dirPath rest ≤ leftWeight b own dirPath (left ++ rest) := by
  rw [leftWeight, leftWeight, List.map_append, List.sum_append]
  omega

/-- What a step of a function leaves to do, with what it sends, is no more than before. -/
structure FrameKept (b : WalkBackend) (own : GoStr → List GoStr → ℕ) (f : Frame)
    (fs : List Frame) (e : Effect) : Prop where
  fits : ∀ g ∈ fs, g.Fits b own
  called : Called b fs
  /-- a send is not alone -/
  below : ∀ c, fs ≠ [.sending c]
  effect : e.Fits b own
  weight_le : (fs.map (Frame.weight b own)).sum + e.weight b own ≤ f.weight b own

/-- `listDirectory` starts with all subdirectories that the walk hands out. -/
theorem frameKept_listing {depth : ℕ} (hf : (Frame.listing dirPath depth).Fits b own)
    (h : (Frame.listing dirPath depth).step b full fails = some (fs, e)) :
    FrameKept b own (.listing dirPath depth) fs e := by
  obtain ⟨⟨n, hn⟩, hdepth⟩ := hf
  have hknown := hn.known
  obtain ⟨all, hall⟩ := hknown.pages
  have heffect : e.Fits b own ∧ e.weight b own = 0 := by
    rcases (step_listing h).2 with rfl | rfl
    · exact ⟨trivial, rfl⟩
    · exact ⟨trivial, rfl⟩
  rcases step_listing_start h with rfl | ⟨pages, rfl, hstart, hpages⟩ | ⟨next, rfl, hstart⟩
  -- nothing is left to do
  · refine ⟨nofun, trivial, nofun, heffect.1, ?_⟩
    rw [heffect.2]
    exact Nat.zero_le _
  -- an ordinary directory has all its subdirectories before it
  · have hfirst := hall
    rw [hstart] at hfirst
    obtain ⟨rest, hrest, hnext⟩ := hpages all hfirst
    have hleft : subdirsOf pages ++ subdirsFrom b dirPath (nextInput dirPath pages) =
        subdirs b dirPath := by
      rw [subdirsFrom_eq hnext, subdirs, subdirsFrom_eq hall, hrest]
      exact List.flatMap_append.symm
    refine ⟨fun g hg => ?_, trivial, nofun, heffect.1, ?_⟩
    · rw [List.mem_singleton.mp hg]
      exact ⟨⟨hknown, ⟨rest, hnext⟩, hleft ▸ List.suffix_rfl⟩, hdepth⟩
    · rw [heffect.2, List.map_singleton, List.sum_singleton, Nat.add_zero]
      show leftWeight b own dirPath ([] ++ subdirsOf pages ++ _) ≤ total b own dirPath
      rw [List.nil_append, hleft, hknown.weight_eq]
  -- a flat one has those behind the skip
  · have hnext := hall
    rw [hstart] at hnext
    have hleft : subdirsFrom b dirPath next = subdirs b dirPath := by
      rw [subdirs, hstart]
    refine ⟨fun g hg => ?_, trivial, nofun, heffect.1, ?_⟩
    · rw [List.mem_singleton.mp hg]
      exact ⟨⟨hknown, ⟨all, hnext⟩, hleft ▸ List.suffix_rfl⟩, by rw [hstart]⟩
    · rw [heffect.2, List.map_singleton, List.sum_singleton, Nat.add_zero]
      show leftWeight b own dirPath ([] ++ _) ≤ total b own dirPath
      rw [List.nil_append, hleft, hknown.weight_eq]

/-- A function that goes on with less. -/
theorem FrameKept.continues {g : Frame} (hg : g.Fits b own) (hsend : g.isSend = false)
    (he : e.Fits b own) (hle : g.weight b own + e.weight b own ≤ f.weight b own) :
    FrameKept b own f [g] e := by
  refine ⟨fun g' hg' => List.mem_singleton.mp hg' ▸ hg, ?_, ?_, he, ?_⟩
  · cases g with
    | sending c => cases hsend
    | _ => trivial
  · intro c hc
    rw [(List.cons.inj hc).1] at hsend
    cases hsend
  · rwa [List.map_singleton, List.sum_singleton]

/-- A function that is done. -/
theorem FrameKept.done (he : e.Fits b own) (hle : e.weight b own ≤ f.weight b own) :
    FrameKept b own f [] e :=
  ⟨nofun, trivial, nofun, he, by rwa [List.map_nil, List.sum_nil, Nat.zero_add]⟩

/-- A function that is called with another one after it is no send alone. -/
theorem not_alone (f g : Frame) (fs : List Frame) (c : GoStr) :
    f :: g :: fs ≠ [.sending c] := by
  intro h
  cases h

/-- `listDirectoryNormalWithPages` leaves no more to do than before. -/
theorem frameKept_writing {depth : ℕ} {pages : List WalkPage}
    (hf : (Frame.writing dirPath depth left pages next).Fits b own)
    (h : (Frame.writing dirPath depth left pages next).step b full fails = some (fs, e)) :
    FrameKept b own (.writing dirPath depth left pages next) fs e := by
  obtain ⟨hleaves, hdepth⟩ := hf
  cases left with
  | cons subdir left =>
      -- one subdirectory less, which is sent, listed in place, or about to be sent
      obtain ⟨hchild, hrest, hne⟩ := Leaves.cons hleaves
      have hweight : (Frame.writing dirPath depth (subdir :: left) pages next).weight b own =
          total b own (childPath dirPath subdir) +
            (Frame.writing dirPath depth left pages next).weight b own := leftWeight_cons
      rw [Frame.step] at h
      split at h
      next =>
        obtain ⟨rfl, rfl⟩ := Prod.mk.inj (Option.some.inj h)
        refine .continues ⟨hrest, hdepth⟩ rfl hchild ?_
        rw [hweight, Nat.add_comm]
        exact le_rfl
      next =>
        split at h
        next hdeep =>
          obtain ⟨rfl, rfl⟩ := Prod.mk.inj (Option.some.inj h)
          refine ⟨?_, ⟨_, rfl, hdeep, hne⟩, not_alone _ _ _, trivial, hweight.ge⟩
          exact List.forall_mem_cons.mpr ⟨hchild, List.forall_mem_singleton.mpr ⟨hrest, hdepth⟩⟩
        next =>
          obtain ⟨rfl, rfl⟩ := Prod.mk.inj (Option.some.inj h)
          refine ⟨?_, trivial, not_alone _ _ _, trivial, ?_⟩
          · refine List.forall_mem_cons.mpr ⟨⟨hchild, ?_⟩, List.forall_mem_cons.mpr
              ⟨trivial, List.forall_mem_singleton.mpr ⟨hrest, hdepth⟩⟩⟩
            exact (Nat.add_le_add_right hdepth 1).trans (depthOf_childPath dirPath subdir)
          · rw [hweight]
            exact Nat.add_le_add_left (Nat.zero_add _).le _
  | nil =>
      cases pages with
      -- the subdirectories of a page that was fetched before
      | cons page pages =>
          rw [Frame.step] at h
          obtain ⟨rfl, rfl⟩ := Prod.mk.inj (Option.some.inj h)
          exact .continues ⟨hleaves, hdepth⟩ rfl trivial le_rfl
      | nil =>
          cases next with
          | none =>
              rw [Frame.step] at h
              obtain ⟨rfl, rfl⟩ := Prod.mk.inj (Option.some.inj h)
              exact .done trivial (Nat.zero_le _)
          -- the next page, or the end if it cannot be got
          | some input =>
              rw [Frame.step] at h
              split at h
              next =>
                obtain ⟨rfl, rfl⟩ := Prod.mk.inj (Option.some.inj h)
                exact .done trivial (Nat.zero_le _)
              next page hpage =>
                obtain ⟨rfl, rfl⟩ := Prod.mk.inj (Option.some.inj h)
                obtain ⟨hfetched, heq⟩ := Leaves.fetch hleaves hpage
                have hone : subdirsOf [page] = page.subdirectory := List.flatMap_singleton _ _
                refine .continues ⟨?_, hdepth⟩ rfl trivial ?_
                · rw [hone]
                  exact hfetched
                · show leftWeight b own dirPath ([] ++ subdirsOf [page] ++ _) ≤
                    leftWeight b own dirPath ([] ++ [] ++ subdirsFrom b dirPath (some input))
                  rw [hone, heq]
                  exact le_rfl

/-- `resumeBFSAfterFlat` leaves no more to do than before. -/
theorem frameKept_resuming (hf : (Frame.resuming dirPath left next).Fits b own)
    (h : (Frame.resuming dirPath left next).step b full fails = some (fs, e)) :
    FrameKept b own (.resuming dirPath left next) fs e := by
  obtain ⟨hleaves, hflat⟩ := hf
  cases left with
  -- a send for the next subdirectory, and the others after it
  | cons subdir left =>
      obtain ⟨hchild, hrest, hne⟩ := Leaves.cons hleaves
      have hweight : (Frame.resuming dirPath (subdir :: left) next).weight b own =
          total b own (childPath dirPath subdir) +
            (Frame.resuming dirPath left next).weight b own := leftWeight_cons
      rw [Frame.step] at h
      obtain ⟨rfl, rfl⟩ := Prod.mk.inj (Option.some.inj h)
      refine ⟨?_, ⟨_, rfl, hne⟩, not_alone _ _ _, trivial, hweight.ge⟩
      exact List.forall_mem_cons.mpr ⟨hchild, List.forall_mem_singleton.mpr ⟨hrest, hflat⟩⟩
  | nil =>
      cases next with
      -- the last page is done
      | none =>
          rw [Frame.step] at h
          obtain ⟨rfl, rfl⟩ := Prod.mk.inj (Option.some.inj h)
          exact .done trivial (Nat.zero_le _)
      -- the next page, whose subdirectories are dropped if it cannot be written
      | some input =>
          rw [Frame.step] at h
          split at h
          next =>
            obtain ⟨rfl, rfl⟩ := Prod.mk.inj (Option.some.inj h)
            exact .done trivial (Nat.zero_le _)
          next page hpage =>
            obtain ⟨rfl, rfl⟩ := Prod.mk.inj (Option.some.inj h)
            obtain ⟨hfetched, heq⟩ := Leaves.fetch hleaves hpage
            have hweight : (Frame.resuming dirPath [] (some input)).weight b own =
                leftWeight b own dirPath
                  (page.subdirectory ++ subdirsFrom b dirPath (page.next dirPath)) := by
              rw [← heq]
              rfl
            cases fails with
            | true =>
                refine .continues ⟨hfetched.drop, hflat⟩ rfl trivial ?_
                rw [hweight]
                exact leftWeight_drop dirPath page.subdirectory _
            | false => exact .continues ⟨hfetched, hflat⟩ rfl trivial hweight.ge

/-- **A step of a function** leaves no more to do. -/
theorem Frame.weight_step (hf : f.Fits b own) (h : f.step b full fails = some (fs, e)) :
    FrameKept b own f fs e := by
  cases f with
  | listing dirPath depth => exact frameKept_listing hf h
  | writing dirPath depth left pages next => exact frameKept_writing hf h
  | resuming dirPath left next => exact frameKept_resuming hf h
  | sending c =>
      rw [Frame.step] at h
      split at h
      · cases h
      · obtain ⟨rfl, rfl⟩ := Prod.mk.inj (Option.some.inj h)
        exact .done hf le_rfl
  | inlined =>
      rw [Frame.step] at h
      obtain ⟨rfl, rfl⟩ := Prod.mk.inj (Option.some.inj h)
      exact .done trivial le_rfl

/-- A function that is called before others is not at a send, so nothing is asked of them. -/
theorem called_append {stack : List Frame} (h : Called b fs)
    (hbelow : ∀ g ∈ stack, g.isSend = false) (hnot : ∀ c, fs ≠ [.sending c]) :
    Called b (fs ++ stack) := by
  match fs, h, hnot with
  | [], _, _ =>
      cases stack with
      | nil => trivial
      | cons g stack =>
          have hg := hbelow g List.mem_cons_self
          cases g with
          | sending c => cases hg
          | _ => trivial
  | [.sending c], _, hnot => exact absurd rfl (hnot c)
  | .sending c :: g :: fs, h, _ => exact h
  | .listing _ _ :: fs, _, _ | .writing _ _ _ _ _ :: fs, _, _ | .resuming _ _ _ :: fs, _, _
  | .inlined :: fs, _, _ => trivial

/-- **A step of a worker** leaves no more to do, together with what it sends. -/
theorem Worker.weight_step {stack : List Frame} (hw : (Worker.working (f :: stack)).Fits b own)
    (hbelow : ∀ g ∈ stack, g.isSend = false) (h : f.step b full fails = some (fs, e)) :
    (Worker.working (fs ++ stack)).Fits b own ∧ e.Fits b own ∧
      (Worker.working (fs ++ stack)).weight b own + e.weight b own ≤
        (Worker.working (f :: stack)).weight b own := by
  obtain ⟨hf, hstack⟩ := List.forall_mem_cons.mp hw.1
  have hkept := Frame.weight_step hf h
  refine ⟨⟨?_, ?_⟩, hkept.effect, ?_⟩
  · exact List.forall_mem_append.mpr ⟨hkept.fits, hstack⟩
  · exact called_append hkept.called hbelow hkept.below
  · have hle := hkept.weight_le
    simp only [Worker.weight, List.map_append, List.sum_append, List.map_cons, List.sum_cons]
    omega

end Steps

/-! ### What a run still has to do -/

namespace ManifestGenerator

variable {b : WalkBackend} {own : GoStr → List GoStr → ℕ} {gen gen' : ManifestGenerator}
  {capacity workers n k : ℕ} {a : WalkStep} {as : List WalkStep} {w w' : Worker} {e : Effect}

/-- The numbers of what is queued and of what the workers still have to do. -/
noncomputable def weight (b : WalkBackend) (own : GoStr → List GoStr → ℕ)
    (gen : ManifestGenerator) : ℕ :=
  (gen.workQueue.map (total b own)).sum + (gen.workers.map (Worker.weight b own)).sum

/-- Every directory that is queued or under way is one of a tree. -/
structure Fits (b : WalkBackend) (own : GoStr → List GoStr → ℕ) (gen : ManifestGenerator) :
    Prop where
  queued : ∀ c ∈ gen.workQueue, ∃ n, Total b own c n
  working : ∀ w ∈ gen.workers, w.Fits b own

/-- What every run over a tree keeps, besides `Inv`. -/
structure Within (b : WalkBackend) (own : GoStr → List GoStr → ℕ) (capacity workers n : ℕ)
    (gen : ManifestGenerator) : Prop where
  inv : gen.Inv
  fits : gen.Fits b own
  capacity_eq : gen.capacity = capacity
  workers_eq : gen.workers.length = workers
  weight_le : gen.weight b own ≤ n

/-- A path goes to the end of the queue, unless the queue is closed. -/
theorem workQueue_sent (gen : ManifestGenerator) (c : GoStr) :
    (gen.sent c).workQueue = gen.workQueue ∨ (gen.sent c).workQueue = gen.workQueue ++ [c] := by
  unfold sent
  split
  · exact .inl rfl
  · exact .inr rfl

/-- An effect leaves the queue as it is, or puts the path into it that it sends. -/
theorem workQueue_apply (gen : ManifestGenerator) (e : Effect) :
    (gen.apply e).workQueue = gen.workQueue ∨
      ∃ c, (e = .send c ∨ e = .addSend c) ∧ (gen.apply e).workQueue = gen.workQueue ++ [c] := by
  cases e with
  | nothing | add | outOfRange => exact .inl rfl
  | addSend c => exact (workQueue_sent gen.added c).imp_right fun h => ⟨c, .inr rfl, h⟩
  | send c => exact (workQueue_sent gen c).imp_right fun h => ⟨c, .inl rfl, h⟩
  | finish =>
      refine .inl ?_
      show gen.finished.workQueue = _
      unfold finished
      split <;> rfl

@[simp] theorem capacity_apply (gen : ManifestGenerator) (e : Effect) :
    (gen.apply e).capacity = gen.capacity := by
  cases e with
  | nothing | add | outOfRange => rfl
  | addSend c | send c =>
      show (sent _ c).capacity = _
      unfold sent
      split <;> rfl
  | finish =>
      show gen.finished.capacity = _
      unfold finished
      split <;> rfl

/-- What an effect sends is what it adds to the queue. -/
theorem apply_weight (gen : ManifestGenerator) (e : Effect) :
    (gen.apply e).weight b own ≤ gen.weight b own + e.weight b own := by
  unfold weight
  rw [workers_apply]
  rcases workQueue_apply gen e with hsame | ⟨c, he, hsent⟩
  · rw [hsame]
    exact Nat.le_add_right _ _
  · have hweight : e.weight b own = total b own c := by
      rcases he with rfl | rfl
      · rfl
      · rfl
    rw [hsent, hweight, List.map_append, List.sum_append, List.map_singleton, List.sum_singleton]
    omega

/-- What an effect puts into the queue has a count of its own. -/
theorem apply_queued (hqueued : ∀ c ∈ gen.workQueue, ∃ n, Total b own c n) (he : e.Fits b own) :
    ∀ c ∈ (gen.apply e).workQueue, ∃ n, Total b own c n := by
  rcases workQueue_apply gen e with hsame | ⟨c, hsend, hsent⟩
  · rw [hsame]
    exact hqueued
  · have hc : ∃ n, Total b own c n := by
      rcases hsend with rfl | rfl
      · exact he
      · exact he
    rw [hsent]
    exact List.forall_mem_append.mpr ⟨hqueued, List.forall_mem_singleton.mpr hc⟩

/-- The next state of a worker, with what it sends, is no more than before. -/
theorem Within.worker (h : gen.Within b own capacity workers n) (hk : gen.workers[k]? = some w)
    (hinv : ((gen.setWorker k w').apply e).Inv) (hw' : w'.Fits b own) (he : e.Fits b own)
    (hle : w'.weight b own + e.weight b own ≤ w.weight b own) :
    ((gen.setWorker k w').apply e).Within b own capacity workers n := by
  refine ⟨hinv, ⟨?_, ?_⟩, ?_, ?_, ?_⟩
  · have hqueued : ∀ c ∈ (gen.setWorker k w').workQueue, ∃ n, Total b own c n := h.fits.queued
    exact apply_queued hqueued he
  · rw [workers_apply]
    intro v hv
    rcases List.mem_or_eq_of_mem_set hv with hv | rfl
    · exact h.fits.working v hv
    · exact hw'
  · rw [capacity_apply]
    exact h.capacity_eq
  · rw [workers_apply]
    exact (List.length_set ..).trans h.workers_eq
  · have hset := sum_map_set hk (Worker.weight b own) w'
    have happly : ((gen.setWorker k w').apply e).weight b own ≤
      (gen.setWorker k w').weight b own + e.weight b own := apply_weight _ e
    have hbefore : (gen.setWorker k w').weight b own = (gen.workQueue.map (total b own)).sum +
      ((gen.workers.set k w').map (Worker.weight b own)).sum := rfl
    have hweight := h.weight_le
    unfold weight at hweight
    omega

/-- **A step** keeps what is left to do within the number of the tree. -/
theorem Within.step (h : gen.Within b own capacity workers n) (hstep : gen.step b a = some gen') :
    gen'.Within b own capacity workers n := by
  have hinv := h.inv.step hstep
  cases a with
  | worker k fails =>
      cases step_worker hstep with
      | receive dirPath rest hk hq =>
          -- the directory is no longer queued, but listed
          have hqueued := h.fits.queued
          rw [hq] at hqueued
          obtain ⟨hdir, hrest⟩ := List.forall_mem_cons.mp hqueued
          have hlisting : (Worker.working [.listing dirPath 0]).Fits b own :=
            ⟨List.forall_mem_singleton.mpr ⟨hdir, Nat.zero_le _⟩, trivial⟩
          refine ⟨hinv, ⟨hrest, fun v hv => ?_⟩, h.capacity_eq,
            (List.length_set ..).trans h.workers_eq, ?_⟩
          · rcases List.mem_or_eq_of_mem_set hv with hv | rfl
            · exact h.fits.working v hv
            · exact hlisting
          · have hset := sum_map_set hk (Worker.weight b own) (.working [.listing dirPath 0])
            have hworker : (Worker.working [.listing dirPath 0]).weight b own =
              total b own dirPath := Nat.add_zero _
            have hidle : Worker.receiving.weight b own = 0 := rfl
            have hweight := h.weight_le
            unfold weight at hweight ⊢
            rw [hq, List.map_cons, List.sum_cons] at hweight
            show (rest.map (total b own)).sum +
              ((gen.workers.set k _).map (Worker.weight b own)).sum ≤ n
            omega
      | ends hk hclosed =>
          exact h.worker (e := .nothing) hk hinv trivial trivial le_rfl
      | returns hk => exact h.worker hk hinv trivial trivial (Nat.zero_le _)
      | frame f stack fs e hk hf =>
          obtain ⟨hfits, heffect, hle⟩ := Worker.weight_step
            (h.fits.working _ (List.mem_of_getElem? hk)) (h.inv.below hk) hf
          exact h.worker hk hinv hfits heffect hle
  | waited =>
      change (if _ then _ else _) = _ at hstep
      split at hstep
      · obtain rfl := Option.some.inj hstep
        exact ⟨hinv, ⟨h.fits.queued, h.fits.working⟩, h.capacity_eq, h.workers_eq, h.weight_le⟩
      · cases hstep
  | close =>
      change (if _ then _ else _) = _ at hstep
      split at hstep
      · obtain rfl := Option.some.inj hstep
        exact ⟨hinv, ⟨h.fits.queued, h.fits.working⟩, h.capacity_eq, h.workers_eq, h.weight_le⟩
      · cases hstep

/-- **Every run** keeps what is left to do within the number of the tree. -/
theorem within_of_run (htree : Total b own [] n)
    (hrun : exec (step b) (initial capacity workers) as = some gen) :
    gen.Within b own capacity workers n := by
  refine exec_invariant (fun _ _ _ h (_ : True) hstep => Within.step h hstep)
    (Always.of_mem (fun _ _ _ => trivial) _) hrun ?_
  refine ⟨initial_inv capacity workers, ⟨?_, fun w hw => ?_⟩, rfl, List.length_replicate, ?_⟩
  · exact List.forall_mem_singleton.mpr ⟨n, htree⟩
  · obtain rfl := List.eq_of_mem_replicate hw
    trivial
  · have hidle : ((List.replicate workers Worker.receiving).map (Worker.weight b own)).sum = 0 := by
      rw [List.map_replicate, List.sum_replicate]
      exact Nat.mul_zero workers
    show total b own [] + 0 + ((List.replicate workers Worker.receiving).map _).sum ≤ n
    rw [hidle, total_eq htree]
    exact le_rfl

end ManifestGenerator

/-! ### What it takes that all workers wait -/

section

variable {b : WalkBackend} {own : GoStr → List GoStr → ℕ} {f : Frame} {w : Worker} {c : GoStr}

/-- A worker at a send holds a directory, and is in the middle of one that sends plainly. -/
theorem Worker.Fits.sending (h : w.Fits b own) (hsend : w.isSending = true) :
    ∃ c f stack, w = .working (.sending c :: f :: stack) ∧ (∃ n, Total b own c n) ∧
      f.Fits b own ∧ f.SendsPlainly b := by
  match w, h, hsend with
  | .working (.sending c :: stack), ⟨hfits, g, hg, hplain⟩, _ =>
      cases stack with
      | nil => cases hg
      | cons f stack =>
          obtain rfl := Option.some.inj hg
          have hc := hfits _ List.mem_cons_self
          have hf := hfits f (List.mem_cons_of_mem _ List.mem_cons_self)
          exact ⟨c, f, stack, rfl, hc, hf, hplain⟩

theorem one_le_total (h : ∃ n, Total b everyDir c n) : 1 ≤ total b everyDir c := by
  obtain ⟨n, h⟩ := h
  rw [h.known.sum]
  exact Nat.le_add_right 1 _

/-- A function that sends plainly is in a directory that counts. -/
theorem one_le_weight_everyDir (h : f.SendsPlainly b) : 1 ≤ f.weight b everyDir := by
  cases f with
  | writing dirPath depth left pages next => exact Nat.le_add_right 1 _
  | resuming dirPath left next => exact Nat.le_add_right 1 _
  | _ => cases h

/-- A frame that sends plainly has one plain send left at least. -/
theorem one_le_weight_plainSends (hf : f.Fits b b.plainSends) (h : f.SendsPlainly b) :
    1 ≤ f.weight b b.plainSends := by
  have hone : ∀ dirPath left, subdirs b dirPath ≠ [] →
      (b.start dirPath).1 = true ∨ maxRecursionDepth ≤ depthOf dirPath →
      1 ≤ leftWeight b b.plainSends dirPath left := by
    intro dirPath left hne hplain
    have hcounts : b.plainSends dirPath (subdirs b dirPath) = 1 := if_pos ⟨hne, hplain⟩
    rw [leftWeight, hcounts]
    exact Nat.le_add_right 1 _
  cases f with
  | writing dirPath depth left pages next =>
      exact hone dirPath _ h.2 (.inr (h.1.trans hf.2))
  | resuming dirPath left next => exact hone dirPath _ h (.inl hf.2)
  | _ => cases h

end

namespace ManifestGenerator

variable {b : WalkBackend} {own : GoStr → List GoStr → ℕ} {gen : ManifestGenerator}
  {capacity workers k m n : ℕ}

/-- If all workers wait, the queue is full, and what is queued and what each of them still has to
do are parts of the tree. -/
theorem Within.of_allBlocked (h : gen.Within b own capacity workers n) (hblocked : gen.AllBlocked)
    (hqueue : ∀ c ∈ gen.workQueue, k ≤ total b own c)
    (hworker : ∀ w ∈ gen.workers, m ≤ w.weight b own) : capacity * k + workers * m ≤ n := by
  have hroom : capacity ≤ gen.workQueue.length := h.capacity_eq ▸ (of_decide_eq_true hblocked.1).2
  have hqueued := List.card_nsmul_le_sum _ k (List.forall_mem_map.mpr hqueue)
  have hworkers := List.card_nsmul_le_sum _ m (List.forall_mem_map.mpr hworker)
  rw [List.length_map, smul_eq_mul] at hqueued hworkers
  rw [h.workers_eq] at hworkers
  calc capacity * k + workers * m
      ≤ gen.workQueue.length * k + workers * m :=
        Nat.add_le_add_right (Nat.mul_le_mul_right k hroom) _
    _ ≤ gen.weight b own := Nat.add_le_add hqueued hworkers
    _ ≤ n := h.weight_le

/-- As many directories as workers hand out their subdirectories by plain sends. -/
theorem Within.le_plainSends (h : gen.Within b b.plainSends capacity workers n)
    (hblocked : gen.AllBlocked) : workers ≤ n := by
  have hle := h.of_allBlocked (k := 0) (m := 1) hblocked (fun _ _ => Nat.zero_le _) ?_
  · omega
  · intro w hw
    obtain ⟨c, f, stack, rfl, -, hf, hplain⟩ :=
      Worker.Fits.sending (h.fits.working w hw) (hblocked.2 w hw)
    have hone := one_le_weight_plainSends hf hplain
    simp only [Worker.weight, List.map_cons, List.sum_cons]
    omega

/-- The directories that are queued, sent and listed are different ones. -/
theorem Within.le_everyDir (h : gen.Within b everyDir capacity workers n)
    (hblocked : gen.AllBlocked) : capacity + 2 * workers ≤ n := by
  have hle := h.of_allBlocked (k := 1) (m := 2) hblocked
    (fun c hc => one_le_total (h.fits.queued c hc)) ?_
  · omega
  · intro w hw
    obtain ⟨c, f, stack, rfl, hc, -, hplain⟩ :=
      Worker.Fits.sending (h.fits.working w hw) (hblocked.2 w hw)
    have hsent : 1 ≤ (Frame.sending c).weight b everyDir := one_le_total hc
    have hlisted := one_le_weight_everyDir hplain
    simp only [Worker.weight, List.map_cons, List.sum_cons]
    omega

/-- **How many directories it takes to block the workers.**  In a tree in which fewer directories
than workers hand out their subdirectories by plain sends, or which has fewer directories than the
queue and twice the workers hold, every run reaches only states in which some worker does not wait
for room.  And nothing is ever sent to the closed queue. -/
theorem not_allBlocked_of_tree (b : WalkBackend) {capacity workers dirs sends : ℕ}
    (hdirs : Total b everyDir [] dirs) (hsends : Total b b.plainSends [] sends)
    (hfew : sends < workers ∨ dirs < capacity + 2 * workers) (as : List WalkStep)
    (gen : ManifestGenerator) (hrun : exec (step b) (initial capacity workers) as = some gen) :
    ¬gen.AllBlocked ∧ gen.panic ≠ some .sendOnClosed := by
  refine ⟨fun hblocked => ?_, (inv_of_run hrun).sendOnClosed⟩
  rcases hfew with hfew | hfew
  · exact absurd ((within_of_run hsends hrun).le_plainSends hblocked) (Nat.not_le.mpr hfew)
  · exact absurd ((within_of_run hdirs hrun).le_everyDir hblocked) (Nat.not_le.mpr hfew)

/-- The three directories of the walk, of which the root alone sends plainly. -/
theorem flatRoot_total (own : GoStr → List GoStr → ℕ) :
    Total flatRoot own []
      (own [] ["r".toList, "s".toList] + (own "r/".toList [] + (own "s/".toList [] + 0))) := by
  have hleaf : ∀ subdir : GoStr, Total flatRoot own (childPath [] subdir)
      (own (childPath [] subdir) []) := by
    intro subdir
    have hlist : ∀ input : WalkInput, input.dirPath = childPath [] subdir →
        flatRoot.listDirectory input = some ⟨[], [], [], false⟩ := by
      intro input hinput
      refine if_pos ?_
      rw [hinput]
      exact List.append_ne_nil_of_right_ne_nil _ (List.cons_ne_nil _ _)
    have hstart : flatRoot.start (childPath [] subdir) =
        (false, some (firstInput (childPath [] subdir))) := by
      unfold WalkBackend.start
      rw [hlist _ rfl]
      rfl
    have hpages : WalkPages flatRoot (childPath [] subdir) (flatRoot.start (childPath [] subdir)).2
        [⟨[], [], [], false⟩] := by
      rw [hstart]
      exact .page (hlist _ rfl) .ended
    exact Total.node (fun _ => 0) hpages nofun
  have hpages : WalkPages flatRoot [] (flatRoot.start []).2
      [⟨["r".toList, "s".toList], [], [], false⟩] := .page rfl .ended
  exact Total.node (fun subdir => own (childPath [] subdir) []) hpages fun subdir _ => hleaf subdir

/-- With a second worker, which takes `r`, the walk comes to its end. -/
def flatRootPair : List WalkStep :=
  flatRootRun ++ [.worker 1 false] ++ List.replicate 4 (.worker 0 false) ++
    List.replicate 4 (.worker 1 false) ++ List.replicate 4 (.worker 0 false) ++
      [.waited, .close, .worker 0 false, .worker 1 false]

/-- Of two workers, one never waits. -/
theorem flatRootPair_not_allBlocked : ∃ gen,
    exec (step flatRoot) (initial 1 2) flatRootPair = some gen ∧ ¬gen.AllBlocked ∧
      gen.panic ≠ some .sendOnClosed := by
  have hends : (exec (step flatRoot) (initial 1 2) flatRootPair).isSome = true := by
    decide +kernel
  obtain ⟨gen, hrun⟩ := Option.isSome_iff_exists.mp hends
  have hdirs : Total flatRoot everyDir [] 3 := flatRoot_total everyDir
  have hsends : Total flatRoot flatRoot.plainSends [] 1 := flatRoot_total flatRoot.plainSends
  exact ⟨gen, hrun, not_allBlocked_of_tree flatRoot hdirs hsends (by decide) flatRootPair gen hrun⟩

end ManifestGenerator

end MultiStorageFileSystem
