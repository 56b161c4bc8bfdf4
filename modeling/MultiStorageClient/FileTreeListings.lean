/-
MultiStorageClient/FileTreeListings.lean

The loop of `DoReadDir` on a directory of a backend, against the list of its
names.

The backend's listing is `L`: the files of all pages, and then the
subdirectories.  Behind them come the virt entries that are not in the listing.
A name in `L` may have a virt entry too, until it is served (`Cleared`), as
serving it makes it phys.  So an offset is a position in one list of names, as
long as nobody else changes the directory, and the loop serves these names one
by one (`readDirFrom_serves`).
-/
import MultiStorageClient.FileTreeReads

namespace MultiStorageFileSystem

open Prog

namespace FileTree

variable {t t' : FileTree} {d : ℕ} {L : List String}

/-- The virt entries of a directory that are not in the listing. -/
def restNames (t : FileTree) (d : ℕ) (L : List String) : List String :=
  (t.virtNames d).filter (· ∉ L)

/-- The names of a directory in the order of their offsets. -/
def listing (t : FileTree) (d : ℕ) (L : List String) : List String := L ++ t.restNames d L

theorem listing_nodup (h : L.Nodup) : (t.listing d L).Nodup := by
  refine List.nodup_append'.mpr ⟨h, virtNames_nodup.filter _, ?_⟩
  intro name hname hrest
  exact of_decide_eq_true (List.mem_filter.mp hrest).2 hname

/-- The names before an offset have no virt entries. -/
def Cleared (t : FileTree) (d : ℕ) (L : List String) (c : ℕ) : Prop :=
  ∀ n ∈ L.take c, n ∉ t.virtNames d

theorem Cleared.mono {c c' : ℕ} (h : t.Cleared d L c') (hc : c ≤ c') : t.Cleared d L c :=
  fun n hn => h n (List.take_subset_take_left L hc hn)

/-- Behind the listing, the virt entries are those that are not in it. -/
theorem Cleared.virtNames {c : ℕ} (h : t.Cleared d L c) (hc : L.length ≤ c) :
    t.virtNames d = t.restNames d L := by
  unfold restNames
  rw [List.filter_eq_self.mpr]
  intro n hn
  exact decide_eq_true fun hmem => h n (by rw [List.take_of_length_le hc]; exact hmem) hn

theorem virtNames_of_names (hn : t'.names = t.names) : t'.virtNames d = t.virtNames d := by
  have hall : t'.virtNames d = (t.virtNames d).filter fun _ => true := by
    apply virtNames_eq_filter
    intro name
    rw [show t'.virtGet = t.virtGet from congrFun (congrArg Names.entry hn) true, and_iff_left rfl]
  rw [hall, List.filter_true]

/-- A name of the listing becomes phys. -/
theorem restNames_of_clear {name : String} (hname : name ∈ L)
    (hv : ∀ n, t'.virtGet d n = if n = name then none else t.virtGet d n) :
    t'.restNames d L = t.restNames d L ∧ (t'.virtNames d).length ≤ (t.virtNames d).length ∧
      ∀ n, n ∈ t'.virtNames d ↔ n ≠ name ∧ n ∈ t.virtNames d := by
  have hnames : t'.virtNames d = (t.virtNames d).filter (fun n => n ≠ name) := by
    apply virtNames_eq_filter
    intro n
    rw [hv]
    by_cases hn : n = name
    · simp [hn]
    · simp [hn]
  refine ⟨?_, ?_, fun n => ?_⟩
  · unfold restNames
    rw [hnames, List.filter_filter]
    apply List.filter_congr
    intro n _
    by_cases hn : n = name
    · simp [hn, hname]
    · simp [hn]
  · rw [hnames]
    exact List.length_filter_le ..
  · rw [hnames, List.mem_filter, decide_eq_true_eq, and_comm]

end FileTree

/-- What a handle shows of the listing. -/
structure Fh.Shows (f : Fh) (L : List String) : Prop where
  file : ∀ c, f.prevListDirectoryOutputStartingOffset ≤ c → c < f.nextCap →
    ∃ file, f.fileAt c = some file ∧ L[c]? = some file.1
  subdirectory : f.listDirectorySequenceDone → f.subdirectoryCap = L.length ∧
    ∀ c, f.nextCap ≤ c → c < f.subdirectoryCap →
      f.listDirectorySubdirectoryList[c - f.nextCap]? = L[c]?

/-- Some names are served: those of files that are not unlinked are added, if
there is room. -/
inductive Serves (cfg : TreeConfig) (unlinked : String → Bool) (E : List String) :
    ReadDirCall → ReadDirCall → Prop
  | refl (call : ReadDirCall) : Serves cfg unlinked E call call
  | skip {call call' : ReadDirCall} {name : String} : E[call.curOffset]? = some name →
      unlinked name = true →
      Serves cfg unlinked E { call with curOffset := call.curOffset + 1 } call' →
      Serves cfg unlinked E call call'
  | add {call call' : ReadDirCall} {name : String} (type : DirEntType) (i : ℕ) :
      E[call.curOffset]? = some name → unlinked name = false →
      call.curSize + cfg.dirEntSize call.plus name ≤ call.size →
      Serves cfg unlinked E (TreeSection.added cfg { call with curOffset := call.curOffset + 1 }
        type i name) call' →
      Serves cfg unlinked E call call'

/-! ### Names that have been served -/

/-- The names of `E` from an offset to another that are not unlinked. -/
def served (unlinked : String → Bool) (E : List String) (c c' : ℕ) : List String :=
  ((E.take c').drop c).filter (!unlinked ·)

variable {unlinked : String → Bool} {E : List String} {c c' c'' : ℕ}

theorem served_self : served unlinked E c c = [] := by
  unfold served
  rw [List.drop_eq_nil_of_le (by rw [List.length_take]; omega)]
  rfl

/-- What is served between two offsets, at an offset in between. -/
theorem served_append (h : c ≤ c') (h' : c' ≤ c'') :
    served unlinked E c c' ++ served unlinked E c' c'' = served unlinked E c c'' := by
  unfold served
  rw [← List.filter_append]
  congr 1
  have hsplit : E.take c'' = E.take c' ++ (E.take c'').drop c' := by
    conv_lhs => rw [← List.take_append_drop c' (E.take c''), List.take_take, Nat.min_eq_left h']
  by_cases hlen : c ≤ E.length
  · conv_rhs => rw [hsplit, List.drop_append_of_le_length (by rw [List.length_take]; omega)]
  · rw [List.drop_eq_nil_of_le (by rw [List.length_take]; omega),
      List.drop_eq_nil_of_le (by rw [List.length_take]; omega),
      List.drop_eq_nil_of_le (by rw [List.length_take]; omega)]
    rfl

theorem served_succ {name : String} (hname : E[c]? = some name) :
    served unlinked E c (c + 1) = if unlinked name then [] else [name] := by
  unfold served
  rw [List.take_add_one, hname, List.drop_append_of_le_length (by
    have := (List.getElem?_eq_some_iff.mp hname).1
    rw [List.length_take]
    omega), List.drop_eq_nil_of_le (by rw [List.length_take]; omega)]
  cases hu : unlinked name <;> simp [hu]

/-- Between two offsets there are only unlinked files. -/
def Skipped (unlinked : String → Bool) (E : List String) (c c' : ℕ) : Prop :=
  ∀ k, c ≤ k → k < c' → ∃ name, E[k]? = some name ∧ unlinked name = true

/-- Over unlinked files nothing is served. -/
theorem Skipped.served (h : Skipped unlinked E c c') : served unlinked E c c' = [] := by
  by_cases hc : c ≤ c'
  · obtain ⟨k, rfl⟩ := Nat.exists_eq_add_of_le hc
    induction k with
    | zero => exact served_self
    | succ k ih =>
        obtain ⟨name, hname, hu⟩ := h (c + k) (Nat.le_add_right ..) (by omega)
        have hstep : served unlinked E c (c + k) ++ served unlinked E (c + k) (c + k + 1) =
            served unlinked E c (c + k + 1) := served_append (Nat.le_add_right ..) (Nat.le_succ _)
        rw [ih (fun j hj hlt => h j hj (by omega)) (Nat.le_add_right ..), List.nil_append,
          served_succ hname, if_pos hu] at hstep
        exact hstep.symm
  · unfold MultiStorageFileSystem.served
    rw [List.drop_eq_nil_of_le (by rw [List.length_take]; omega)]
    rfl

namespace Serves

variable {cfg : TreeConfig} {unlinked unlinked' : String → Bool} {E : List String}
  {call call' call'' : ReadDirCall}

theorem trans (h : Serves cfg unlinked E call call') (h' : Serves cfg unlinked E call' call'') :
    Serves cfg unlinked E call call'' := by
  induction h with
  | refl _ => exact h'
  | skip hname hu _ ih => exact .skip hname hu (ih h')
  | add type i hname hu hroom _ ih => exact .add type i hname hu hroom (ih h')

theorem congr (h : Serves cfg unlinked E call call') (hE : ∀ n ∈ E, unlinked n = unlinked' n) :
    Serves cfg unlinked' E call call' := by
  induction h with
  | refl call => exact .refl call
  | skip hname hu _ ih => exact .skip hname ((hE _ (List.mem_of_getElem? hname)).symm.trans hu) ih
  | add type i hname hu hroom _ ih =>
      exact .add type i hname ((hE _ (List.mem_of_getElem? hname)).symm.trans hu) hroom ih

theorem size_eq (h : Serves cfg unlinked E call call') :
    call'.size = call.size ∧ call'.plus = call.plus := by
  induction h with
  | refl _ => exact ⟨rfl, rfl⟩
  | skip _ _ _ ih => exact ih
  | add _ _ _ _ _ _ ih => exact ih

theorem le (h : Serves cfg unlinked E call call') : call.curOffset ≤ call'.curOffset := by
  induction h with
  | refl _ => exact le_rfl
  | skip _ _ _ ih => exact Nat.le_of_succ_le ih
  | add _ _ _ _ _ _ ih => exact Nat.le_of_succ_le ih

/-- Some unlinked files are skipped. -/
theorem of_skip (call : ReadDirCall) {c : ℕ} (hc : call.curOffset ≤ c)
    (hu : Skipped unlinked E call.curOffset c) :
    Serves cfg unlinked E call { call with curOffset := c } := by
  obtain ⟨k, rfl⟩ := Nat.exists_eq_add_of_le hc
  induction k generalizing call with
  | zero => exact .refl call
  | succ k ih =>
      obtain ⟨name, hname, hul⟩ := hu call.curOffset le_rfl (by omega)
      refine .skip hname hul ?_
      rw [show call.curOffset + (k + 1) = call.curOffset + 1 + k by omega]
      apply ih _ (Nat.le_add_right ..)
      intro j hj hlt
      dsimp only at hlt
      exact hu j (Nat.le_of_succ_le hj) (by omega)

end Serves

/-- What a call has added to its answer: the names in between, and the `Off` of
the last one is behind it. -/
theorem Serves.added {cfg : TreeConfig} {call call' : ReadDirCall}
    (h : Serves cfg unlinked E call call') : ∃ new : List DirEnt,
      call'.dirEnt = call.dirEnt ++ new ∧
      new.map DirEnt.name = served unlinked E call.curOffset call'.curOffset ∧
      (new = [] → call'.curSize = call.curSize ∧
        Skipped unlinked E call.curOffset call'.curOffset) ∧
      ∀ e ∈ new.getLast?, call.curOffset < e.off ∧ e.off ≤ call'.curOffset ∧
        Skipped unlinked E e.off call'.curOffset := by
  induction h with
  | refl call =>
      exact ⟨[], (List.append_nil _).symm, served_self.symm,
        fun _ => ⟨rfl, fun k hk hlt => absurd hlt (not_lt.mpr hk)⟩, nofun⟩
  -- an unlinked file is passed over
  | @skip call call' name hname hu hrest ih =>
      obtain ⟨new, hnew, hnames, hnone, hlast⟩ := ih
      refine ⟨new, hnew, ?_, fun hnil => ⟨(hnone hnil).1, fun k hk hlt => ?_⟩, fun e he => ?_⟩
      · rw [hnames, ← served_append (Nat.le_succ call.curOffset) hrest.le, served_succ hname,
          if_pos hu]
        rfl
      · rcases Nat.eq_or_lt_of_le hk with rfl | hgt
        · exact ⟨name, hname, hu⟩
        · exact (hnone hnil).2 k hgt hlt
      · obtain ⟨h₁, h₂⟩ := hlast e he
        exact ⟨Nat.lt_of_succ_lt h₁, h₂⟩
  -- a name is served, with the offset behind it
  | @add call call' name type i hname hu hroom hrest ih =>
      obtain ⟨new, hnew, hnames, hnone, hlast⟩ := ih
      refine ⟨⟨i, call.curOffset + 1, type, name⟩ :: new, ?_, ?_, nofun, fun e he => ?_⟩
      · rw [hnew]
        exact List.append_assoc ..
      · rw [List.map_cons, hnames, ← served_append (Nat.le_succ call.curOffset) hrest.le,
          served_succ hname, if_neg (by rw [hu]; nofun)]
        rfl
      · cases hn : new.getLast? with
        | none =>
            have hnil := List.getLast?_eq_none_iff.mp hn
            rw [hnil] at he
            obtain rfl := Option.mem_some_iff.mp he
            exact ⟨Nat.lt_succ_self _, hrest.le, (hnone hnil).2⟩
        | some e' =>
            rw [List.getLast?_cons, hn, Option.getD_some] at he
            obtain rfl := Option.mem_some_iff.mp he
            obtain ⟨h₁, h₂⟩ := hlast _ hn
            exact ⟨Nat.lt_of_succ_lt h₁, h₂⟩

/-! ### Pages and handles -/

/-- The files of some pages. -/
def fileNames (pages : List ListDirectoryOutput) : List String :=
  pages.flatMap fun page => page.file.map Prod.fst

/-- The subdirectories of some pages, each once. -/
def subdirectoryNames (pages : List ListDirectoryOutput) : List String :=
  pages.foldl (fun l page => page.subdirectory.foldl
    (fun l s => if s ∈ l then l else l ++ [s]) l) []

/-- The listing of a directory. -/
def pageNames (pages : List ListDirectoryOutput) : List String :=
  fileNames pages ++ subdirectoryNames pages

theorem fileNames_snoc (pages : List ListDirectoryOutput) (page : ListDirectoryOutput) :
    fileNames (pages ++ [page]) = fileNames pages ++ page.file.map Prod.fst := by
  unfold fileNames
  rw [List.flatMap_append, List.flatMap_singleton]

theorem subdirectoryNames_eq (pages : List ListDirectoryOutput) :
    subdirectoryNames pages = (pages.flatMap (·.subdirectory)).foldl
      (fun l s => if s ∈ l then l else l ++ [s]) [] := by
  unfold subdirectoryNames
  rw [List.foldl_flatMap]

/-- The subdirectories of the pages, page by page. -/
theorem mem_subdirectoryNames {pages : List ListDirectoryOutput} {name : String} :
    name ∈ subdirectoryNames pages ↔ ∃ page ∈ pages, name ∈ page.subdirectory := by
  have hfold : ∀ names l : List String,
      name ∈ names.foldl (fun l s => if s ∈ l then l else l ++ [s]) l ↔ name ∈ l ∨
        name ∈ names := by
    intro names
    induction names with
    | nil => simp
    | cons s names ih =>
        intro l
        rw [List.foldl_cons, ih, List.mem_cons, ← or_assoc]
        refine or_congr_left ?_
        split
        next hs =>
          refine ⟨.inl, fun h => h.elim id ?_⟩
          rintro rfl
          exact hs
        next => rw [List.mem_append, List.mem_singleton]
  rw [subdirectoryNames_eq, hfold, List.mem_flatMap]
  exact or_iff_right List.not_mem_nil

theorem subdirectoryNames_nodup (pages : List ListDirectoryOutput) :
    (subdirectoryNames pages).Nodup := by
  rw [subdirectoryNames_eq]
  refine List.foldlRecOn _ _ List.nodup_nil fun l hl s _ => ?_
  split
  · exact hl
  next hs => exact List.nodup_append'.mpr ⟨hl, List.nodup_singleton s, by
      rw [List.disjoint_singleton]
      exact hs⟩

/-- The backend splits a listing into pages: which page comes, the
`continuationToken` says. -/
inductive Split (list : String → ListDirectoryOutput) : String → List ListDirectoryOutput → Prop
  | last {token : String} : (list token).isTruncated = false → Split list token [list token]
  | more {token : String} {pages : List ListDirectoryOutput} : (list token).isTruncated = true →
      Split list (list token).nextContinuationToken pages →
      Split list token (list token :: pages)

/-- The pages that a handle has received, as far as it keeps them. -/
structure Fh.Received (f : Fh) (pages : List ListDirectoryOutput) : Prop where
  kept : (fileNames pages).drop f.prevListDirectoryOutputStartingOffset =
    fileNames f.prevListDirectoryOutput.toList ++ fileNames f.nextListDirectoryOutput.toList
  start_le : f.prevListDirectoryOutputStartingOffset ≤ (fileNames pages).length
  /-- the pages are next to each other, or the next one is to be listed -/
  next : f.nextListDirectoryOutputStartingOffset =
      f.prevListDirectoryOutputStartingOffset + fileLen f.prevListDirectoryOutput ∨
    f.nextListDirectoryOutputStartingOffset = f.prevListDirectoryOutputStartingOffset ∧
      f.nextListDirectoryOutput = none ∧ f.listDirectorySequenceDone = false
  last : f.nextListDirectoryOutput.or f.prevListDirectoryOutput = pages.getLast?
  first : f.prevListDirectoryOutput = none → f.nextListDirectoryOutput = none
  subdirectory : f.listDirectorySubdirectoryList = subdirectoryNames pages
  done : f.listDirectorySequenceDone = pages.getLast?.any (!·.isTruncated)

namespace Fh.Received

variable {f : Fh} {pages rest : List ListDirectoryOutput} {page : ListDirectoryOutput}

theorem length_page (page : Option ListDirectoryOutput) :
    (fileNames page.toList).length = fileLen page := by
  cases page with
  | none => rfl
  | some page => simp [fileNames, fileLen]

/-- The files of the two pages are the last that have been listed. -/
theorem length_eq (h : f.Received pages) : (fileNames pages).length =
    f.prevListDirectoryOutputStartingOffset + fileLen f.prevListDirectoryOutput +
      fileLen f.nextListDirectoryOutput := by
  have hlen := congrArg List.length h.kept
  rw [List.length_drop, List.length_append, length_page, length_page] at hlen
  have := h.start_le
  omega

/-- A handle shows no more files than have been listed. -/
theorem nextCap_le (h : f.Received pages) : f.nextCap ≤ (fileNames pages).length := by
  have hlen := h.length_eq
  unfold nextCap
  rcases h.next with hnext | ⟨hstart, hnone, -⟩
  · omega
  · have hzero : fileLen f.nextListDirectoryOutput = 0 := by rw [hnone]; rfl
    omega

/-- The handle before the next page is listed. -/
theorem shiftPages (h : f.Received pages) (hdone : f.listDirectorySequenceDone = false) :
    f.shiftPages.Received pages ∧ f.shiftPages.nextListDirectoryOutput = none ∧
      f.prevListDirectoryOutputStartingOffset ≤ f.shiftPages.prevListDirectoryOutputStartingOffset ∧
      f.shiftPages.prevListDirectoryOutputStartingOffset ≤ max f.nextCap
        f.prevListDirectoryOutputStartingOffset := by
  unfold Fh.shiftPages
  cases hnext : f.nextListDirectoryOutput with
  | none => exact ⟨h, hnext, le_rfl, le_max_right _ _⟩
  | some page =>
      have hstart := h.next.resolve_right fun hc => by
        rw [hnext] at hc
        exact nomatch hc.2.1
      have hlen := h.length_eq
      refine ⟨⟨?_, ?_, .inr ⟨rfl, rfl, hdone⟩, ?_, fun hc => (nomatch hc), h.subdirectory,
        h.done⟩, rfl, ?_, ?_⟩
      · dsimp only
        rw [hstart, ← List.drop_drop, h.kept, List.drop_left' (length_page _), hnext]
        simp [fileNames]
      · dsimp only
        omega
      · have hlast := h.last
        rw [hnext] at hlast
        exact hlast
      · dsimp only
        omega
      · dsimp only
        unfold Fh.nextCap
        omega

/-- A page is received. -/
theorem addPage (h : f.Received pages) (hnext : f.nextListDirectoryOutput = none)
    (page : ListDirectoryOutput) : (f.addPage page).Received (pages ++ [page]) ∧
      (f.addPage page).prevListDirectoryOutputStartingOffset =
        f.prevListDirectoryOutputStartingOffset := by
  have hsub : f.remembered page = subdirectoryNames (pages ++ [page]) := by
    unfold remembered subdirectoryNames
    rw [h.subdirectory, List.foldl_append]
    rfl
  have hlast := h.last
  rw [hnext] at hlast
  cases hprev : f.prevListDirectoryOutput with
  -- the first page
  | none =>
      rw [hprev] at hlast
      obtain rfl := List.getLast?_eq_none_iff.mp hlast.symm
      have hzero : f.prevListDirectoryOutputStartingOffset = 0 := Nat.le_zero.mp h.start_le
      rw [addPage_of_none hprev, hzero]
      refine ⟨⟨?_, Nat.zero_le _, .inl ?_, rfl, fun hc => (nomatch hc), hsub, rfl⟩, rfl⟩
      · simp [fileNames]
      · simp [fileLen]
  -- a page behind another: offsets go on from the end of the previous one
  | some prev =>
      rw [addPage_of_some hprev]
      refine ⟨⟨?_, ?_, .inl ?_, ?_, fun hc => ?_, hsub, ?_⟩, rfl⟩
      · dsimp only
        rw [fileNames_snoc, List.drop_append_of_le_length h.start_le, h.kept, hnext]
        simp [fileNames]
      · dsimp only
        rw [fileNames_snoc, List.length_append]
        exact Nat.le_add_right_of_le h.start_le
      · dsimp only
        rw [hprev]
        rfl
      · rw [List.getLast?_concat]
        rfl
      · rw [hprev] at hc
        cases hc
      · rw [List.getLast?_concat]
        rfl

/-- What a handle shows of the whole listing. -/
theorem shows (h : f.Received pages) (hdone : f.listDirectorySequenceDone = true → rest = []) :
    f.Shows (pageNames (pages ++ rest)) := by
  have hlen := h.length_eq
  have hfiles : fileNames (pages ++ rest) = fileNames pages ++ fileNames rest := by
    unfold fileNames
    rw [List.flatMap_append]
  -- when the next page is to be listed nothing is left of the pages
  refine ⟨fun c hc hcap => ?_, fun hd => ?_⟩
  · have hstart := h.next.resolve_right fun hcon => by
      unfold Fh.nextCap at hcap
      rw [hcon.2.1] at hcap
      simp only [fileLen, Option.map_none, Option.getD_none] at hcap
      omega
    unfold Fh.nextCap at hcap
    have hget : (pageNames (pages ++ rest))[c]? =
        (fileNames f.prevListDirectoryOutput.toList ++
          fileNames f.nextListDirectoryOutput.toList)[c -
            f.prevListDirectoryOutputStartingOffset]? := by
      rw [← h.kept, List.getElem?_drop, Nat.add_sub_cancel' hc, pageNames, hfiles,
        List.append_assoc, List.getElem?_append_left (by omega)]
    rw [hget]
    unfold Fh.fileAt
    by_cases hlt : c < f.nextListDirectoryOutputStartingOffset
    · rw [if_pos hlt, List.getElem?_append_left (by rw [length_page]; omega)]
      cases hprev : f.prevListDirectoryOutput with
      | none =>
          rw [hprev] at hstart
          simp only [fileLen, Option.map_none, Option.getD_none] at hstart
          omega
      | some page =>
          have hk : c - f.prevListDirectoryOutputStartingOffset < page.file.length := by
            rw [hprev] at hstart
            simp only [fileLen, Option.map_some, Option.getD_some] at hstart
            omega
          refine ⟨page.file[c - f.prevListDirectoryOutputStartingOffset], ?_, ?_⟩
          · rw [Option.bind_some, List.getElem?_eq_getElem hk]
          · simp [fileNames, List.getElem?_eq_getElem hk]
    · rw [if_neg hlt, List.getElem?_append_right (by rw [length_page]; omega), length_page]
      cases hnext : f.nextListDirectoryOutput with
      | none =>
          rw [hnext] at hcap
          simp only [fileLen, Option.map_none, Option.getD_none] at hcap
          omega
      | some page =>
          have hk : c - f.nextListDirectoryOutputStartingOffset < page.file.length := by
            rw [hnext] at hcap
            simp only [fileLen, Option.map_some, Option.getD_some] at hcap
            omega
          refine ⟨page.file[c - f.nextListDirectoryOutputStartingOffset], ?_, ?_⟩
          · rw [Option.bind_some, List.getElem?_eq_getElem hk]
          · rw [show c - f.prevListDirectoryOutputStartingOffset -
              fileLen f.prevListDirectoryOutput =
                c - f.nextListDirectoryOutputStartingOffset by omega]
            simp [fileNames, List.getElem?_eq_getElem hk]
  · have hstart := h.next.resolve_right fun hcon => by
      rw [hd] at hcon
      exact nomatch hcon.2.2
    have hcap : f.nextCap = (fileNames pages).length := by
      unfold Fh.nextCap
      omega
    rw [hdone hd, List.append_nil]
    unfold Fh.subdirectoryCap pageNames
    rw [h.subdirectory, hcap]
    refine ⟨(List.length_append ..).symm, fun c hc _ => ?_⟩
    rw [List.getElem?_append_right hc]

end Fh.Received

namespace TreeSection

open FileTree

variable (cfg : TreeConfig) {left : Prop} {off : ℕ → Prop} {t t' t'' : FileTree} {d fh : ℕ} {f : Fh}
  {call : ReadDirCall} {L : List String}

/-- What a reader sees of a directory stays as it is. -/
structure Calm (d fh : ℕ) (L : List String) (t t' : FileTree) : Prop where
  dir : BackendDir t' d
  fhSet : fh ∈ (t'.globals.use d).fhSet
  unlinked : ∀ n, t'.unlinked d n = t.unlinked d n
  rest : t'.restNames d L = t.restNames d L
  virtNames : t'.virtNames d ⊆ t.virtNames d

theorem Calm.refl (hr : Reads t d fh f) : Calm d fh L t t :=
  ⟨hr.dir, hr.fhSet, fun _ => rfl, rfl, fun _ => id⟩

theorem Calm.trans (h : Calm d fh L t t') (h' : Calm d fh L t' t'') : Calm d fh L t t'' :=
  ⟨h'.dir, h'.fhSet, fun n => (h'.unlinked n).trans (h.unlinked n), h'.rest.trans h.rest,
    List.Subset.trans h'.virtNames h.virtNames⟩

/-- How the loop of a call ends, with the call as it is then. -/
inductive LoopEnds (f : Fh) (fh : ℕ) (unlinked : String → Bool) (E : List String)
    (call : ReadDirCall) : Reply → FileTree → Prop
  /-- the next page is needed -/
  | waits {t : FileTree} : f.listDirectorySequenceDone = false → f.nextCap ≤ call.curOffset →
      t.globals.fhMap fh = some (waits f call) → LoopEnds f fh unlinked E call .waiting t
  /-- there is no room for the next name -/
  | full {t : FileTree} {name : String} : t.globals.fhMap fh = some f →
      E[call.curOffset]? = some name → unlinked name = false →
      call.size < call.curSize + cfg.dirEntSize call.plus name →
      LoopEnds f fh unlinked E call (.entries call.dirEnt) t
  /-- all names have been served -/
  | last {t : FileTree} : t.globals.fhMap fh = some f → E.length ≤ call.curOffset →
      LoopEnds f fh unlinked E call (.entries call.dirEnt) t

/-- What the loop does from a call on. -/
def LoopOk (f : Fh) (d fh : ℕ) (L : List String) (t : FileTree) (call : ReadDirCall) (r : Reply)
    (t' : FileTree) : Prop :=
  Calm d fh L t t' ∧ ∃ call', Serves cfg (t.unlinked d) (t.listing d L) call call' ∧
    t'.Cleared d L call'.curOffset ∧
    (f.listDirectorySequenceDone = false → call'.curOffset ≤ max call.curOffset f.nextCap) ∧
    LoopEnds cfg f fh (t.unlinked d) (t.listing d L) call' r t'

/-- A child at an offset. -/
theorem childAt_listing (h : t.Ok left NoneBare off) (hr : Reads t d fh f) (hs : f.Shows L)
    (hL : ∀ n ∈ L, ¬IsDot n) {c : ℕ} (hprev : f.prevListDirectoryOutputStartingOffset ≤ c)
    (hc : f.listDirectorySequenceDone ∨ c < f.nextCap) (hclear : t.Cleared d L c) :
    EndsIn (fun r t' => t'.Ok left NoneBare off ∧ Reads t' d fh f ∧ Calm d fh L t t' ∧
        (t'.virtNames d).length ≤ (t.virtNames d).length ∧ t'.Cleared d L (c + 1) ∧
        match r with
        | none => (t.listing d L).length ≤ c ∧ t' = t
        | some (name, i) => (t.listing d L)[c]? = some name ∧ t'.inodeMap i ∧
            ¬t'.names.Pending i ∧ (t'.globals.use i).pendingDelete = t.unlinked d name ∧
            c < f.subdirectoryCap + (t.virtNames d).length)
      (fun _ => False) (runs (childAt cfg d fh c) t) := by
  have hcalm : Calm d fh L t t := .refl hr
  -- a child that is listed under a name of `L`
  have hlisted : ∀ {child : TreeSection ℕ} {name : String}, L[c]? = some name →
      c < f.subdirectoryCap →
      EndsIn (fun i t' => t'.Ok left NoneBare off ∧
        Hit (fun d' n => d' = d ∧ n = name) t t' d name i) (fun _ => False) (runs child t) →
      EndsIn (fun r t' => t'.Ok left NoneBare off ∧ Reads t' d fh f ∧ Calm d fh L t t' ∧
        (t'.virtNames d).length ≤ (t.virtNames d).length ∧ t'.Cleared d L (c + 1) ∧
        match r with
        | none => (t.listing d L).length ≤ c ∧ t' = t
        | some (name, i) => (t.listing d L)[c]? = some name ∧ t'.inodeMap i ∧
            ¬t'.names.Pending i ∧ (t'.globals.use i).pendingDelete = t.unlinked d name ∧
            c < f.subdirectoryCap + (t.virtNames d).length)
      (fun _ => False) (runs (some <$> listedChild cfg child) t) := by
    intro child name hname hlt hchild
    have hmem := List.mem_of_getElem? hname
    have hlen := (List.getElem?_eq_some_iff.mp hname).1
    rw [runs_map]
    refine (listedChild_ok cfg h hr.dir hchild).andThen fun e t' ⟨hok, hgrown, hi, hnp, hch⟩ => ?_
    obtain ⟨heq, hch⟩ := hch (hL name hmem)
    obtain ⟨hrest, hfewer, hvirt⟩ := restNames_of_clear hmem hch.virt
    have hr' := hr.of_globals hch.seen.dir hch.seen.globals
    refine ⟨hok, hr', ⟨hch.seen.dir, hr'.fhSet, hch.seen.unlinked, hrest, fun n hn => ?_⟩, hfewer,
      ?_, ?_, hi, hnp, ?_, by omega⟩
    · exact ((hvirt n).mp hn).2
    · intro n hn hv
      rw [hvirt] at hv
      rw [List.take_add_one, hname, List.mem_append] at hn
      rcases hn with hn | hn
      · exact hclear n hn hv.2
      · exact hv.1 (List.mem_singleton.mp hn)
    · rw [FileTree.listing, List.getElem?_append_left hlen, hname, heq]
    · rw [heq]
      exact hch.pendingDelete
  by_cases hnext : c < f.nextCap
  · obtain ⟨file, hfile, hname⟩ := hs.file c hprev hnext
    rw [runs_childAt_file cfg hr.fhMap hnext hfile]
    refine hlisted hname ?_ (findChildFileInode_ok cfg h hr.dir file.2)
    unfold Fh.subdirectoryCap
    omega
  · have hdone := hc.resolve_right hnext
    rw [not_lt] at hnext
    obtain ⟨hcap, hsubs⟩ := hs.subdirectory hdone
    by_cases hsub : c < f.subdirectoryCap
    · have hname : L[c]? = some _ := List.getElem?_eq_getElem (hcap ▸ hsub)
      rw [runs_childAt_subdirectory cfg hr.fhMap hnext ((hsubs c hnext hsub).trans hname)]
      exact hlisted hname hsub (findChildDirInode_ok cfg h hr.dir)
    · rw [not_lt] at hsub
      -- behind the listing nothing changes any more
      have hvirt := hclear.virtNames (hcap ▸ hsub)
      have hcleared : t.Cleared d L (c + 1) := by
        intro n hn
        rw [List.take_of_length_le (by omega)] at hn
        exact hclear n (by rw [List.take_of_length_le (hcap ▸ hsub)]; exact hn)
      have hat : (t.listing d L)[c]? = (t.virtNames d)[c - f.subdirectoryCap]? := by
        rw [FileTree.listing, List.getElem?_append_right (hcap ▸ hsub), hvirt, hcap]
      by_cases hend : c - f.subdirectoryCap < (t.virtNames d).length
      · have hv := List.getElem?_eq_getElem hend
        obtain ⟨i, hrun, hfind⟩ := runs_childAt_virt cfg h hr.dir hr.fhMap hsub hv
        obtain ⟨hi, hnp⟩ := h.names.find_inode hr.dir.inodeMap hr.dir.isDir hfind
        rw [hrun]
        refine ⟨h, hr, hcalm, le_rfl, hcleared, hat.trans hv, hi, hnp, ?_, by omega⟩
        unfold FileTree.unlinked
        rw [hfind]
        rfl
      · rw [runs_childAt_end cfg hr.fhMap (by omega)]
        refine ⟨h, hr, hcalm, le_rfl, hcleared, ?_, rfl⟩
        rw [FileTree.listing, List.length_append, ← hvirt, ← hcap]
        omega

/-- The unlinked files and the names are as before. -/
theorem LoopOk.of_calm {r : Reply} {call' : ReadDirCall} (hcalm : Calm d fh L t t')
    (h : LoopOk cfg f d fh L t' call' r t'') :
    Calm d fh L t t'' ∧ ∃ call'', Serves cfg (t.unlinked d) (t.listing d L) call' call'' ∧
      t''.Cleared d L call''.curOffset ∧
      (f.listDirectorySequenceDone = false → call''.curOffset ≤ max call'.curOffset f.nextCap) ∧
      LoopEnds cfg f fh (t.unlinked d) (t.listing d L) call'' r t'' := by
  obtain ⟨hcalm', call'', h⟩ := h
  have hunlinked : t'.unlinked d = t.unlinked d := funext hcalm.unlinked
  have hlisting : t'.listing d L = t.listing d L := by
    unfold FileTree.listing
    rw [hcalm.rest]
  rw [hunlinked, hlisting] at h
  exact ⟨hcalm.trans hcalm', call'', h⟩

variable (call) in
/-- **The loop of `DoReadDir`** serves the names of the directory in order. -/
theorem readDirFrom_serves (turns : ℕ) (h : t.Ok left NoneBare off) (hr : Reads t d fh f)
    (hs : f.Shows L) (hL : ∀ n ∈ L, ¬IsDot n)
    (hprev : f.prevListDirectoryOutputStartingOffset ≤ call.curOffset)
    (hclear : t.Cleared d L call.curOffset) (hpos : 0 < turns)
    (hturns : f.subdirectoryCap + (t.virtNames d).length < call.curOffset + turns) :
    EndsIn (fun r t' => t'.Ok left NoneBare off ∧ LoopOk cfg f d fh L t call r t')
      (fun _ => False) (runs (readDirFrom cfg d fh turns call) t) := by
  induction turns generalizing t call with
  | zero => exact absurd hpos (lt_irrefl 0)
  | succ turns ih =>
      unfold readDirFrom
      rw [runs_bind, runs_handleOf hr.fhMap, andThen_ok]
      split
      next hwait =>
        obtain ⟨hdone, hcap⟩ : f.listDirectorySequenceDone = false ∧
            f.nextCap ≤ call.curOffset := by
          simpa [Fh.nextCap] using hwait
        rw [runs_bind, runs_modify, andThen_ok, runs_pure]
        refine ⟨waits_ok h hr, ⟨⟨hr.dir.inodeMap, hr.dir.isDir, hr.dir.notRoot⟩, hr.fhSet,
          fun _ => rfl, rfl, fun _ => id⟩, call, .refl call, hclear,
          fun _ => le_max_left _ _, .waits hdone hcap ?_⟩
        exact Function.update_self ..
      next hgo =>
        have hc : f.listDirectorySequenceDone ∨ call.curOffset < f.nextCap := by
          by_contra hnot
          rw [not_or, not_lt, Bool.not_eq_true] at hnot
          exact hgo (by simpa [Fh.nextCap] using hnot)
        rw [runs_bind]
        refine (childAt_listing cfg h hr hs hL hprev hc hclear).andThen
          fun r t₁ hchild => ?_
        obtain ⟨hok, hr₁, hcalm₁, hfewer, hcleared, hat⟩ := hchild
        cases r with
        | none =>
            obtain ⟨hend, rfl⟩ := hat
            exact ⟨hok, hcalm₁, call, .refl call, hclear, fun _ => le_max_left _ _,
              .last hr₁.fhMap hend⟩
        | some e =>
            obtain ⟨name, i⟩ := e
            obtain ⟨hname, hi, hnp, hunlinked, hlt⟩ := hat
            have hwithin : f.listDirectorySequenceDone = false → ∀ {c : ℕ},
                c ≤ max (call.curOffset + 1) f.nextCap → c ≤ max call.curOffset f.nextCap := by
              intro hd c hle
              have hlt := hc.resolve_left (by rw [hd]; exact Bool.false_ne_true)
              omega
            -- the rest of the loop, from the next offset on
            have hrest : ∀ call₁ : ReadDirCall, call₁.curOffset = call.curOffset + 1 →
                EndsIn (fun r t' => t'.Ok left NoneBare off ∧ LoopOk cfg f d fh L t₁ call₁ r t')
                  (fun _ => False) (runs (readDirFrom cfg d fh turns call₁) t₁) := by
              intro call₁ hcur
              refine ih _ hok hr₁ (by omega) (by rw [hcur]; exact hcleared) (by omega) (by omega)
            dsimp only
            rw [runs_bind, runs_globals, andThen_ok, hunlinked]
            cases hpd : t.unlinked d name with
            | true =>
                refine (hrest _ rfl).mono (fun r t' hend => ⟨hend.1, ?_⟩) fun _ => id
                obtain ⟨hcalm', call', hserves, hcl, hcap, hends⟩ :=
                  LoopOk.of_calm cfg hcalm₁ hend.2
                exact ⟨hcalm', call', .skip hname hpd hserves, hcl,
                  fun hd => hwithin hd (hcap hd), hends⟩
            | false =>
                rw [if_neg Bool.false_ne_true, runs_bind, runs_appendToReadDirOut cfg hok hi hnp]
                split
                next hroom =>
                  exact ⟨hok, hcalm₁, call, .refl call, hcleared.mono (Nat.le_succ _),
                    fun _ => le_max_left _ _, .full hr₁.fhMap hname hpd hroom⟩
                next hroom =>
                  refine (hrest _ rfl).mono (fun r t' hend => ⟨hend.1, ?_⟩) fun _ => id
                  obtain ⟨hcalm', call', hserves, hcl, hcap, hends⟩ :=
                    LoopOk.of_calm cfg hcalm₁ hend.2
                  exact ⟨hcalm', call', .add _ i hname hpd (not_lt.mp hroom) hserves, hcl,
                    fun hd => hwithin hd (hcap hd), hends⟩

/-- Nothing that a reader sees of the directory changes. -/
theorem Calm.of_names (hr : Reads t d fh f) (hn : t'.names = t.names)
    (hg : Prefetching t.globals t'.globals) : Calm d fh L t t' := by
  have hdir : BackendDir t' d := by
    refine ⟨?_, ?_, hr.dir.notRoot⟩
    · rw [show t'.inodeMap = t'.names.inodeMap from rfl, hn]
      exact hr.dir.inodeMap
    · rw [hn]
      exact hr.dir.isDir
  refine ⟨hdir, (hr.of_globals hdir hg).fhSet, fun n => ?_, ?_, ?_⟩
  · unfold FileTree.unlinked
    rw [hn]
    cases t.names.find d n with
    | none => rfl
    | some i => exact hg.pendingDelete i
  · unfold restNames
    rw [virtNames_of_names hn]
  · rw [virtNames_of_names hn]
    exact List.Subset.refl _

/-- `DoReadDir` of a backend's directory updates its times, and chooses where to read. -/
theorem runs_readDir (manifest : List ManifestPartEntry) (call : ReadDirCall)
    (h : t.Ok left NoneBare off) (hr : Reads t d fh f) :
    ∃ t₁, t₁.Ok left NoneBare off ∧ Reads t₁ d fh f ∧ t₁.names = t.names ∧
      (∀ L, Calm d fh L t t₁) ∧ runs (readDir cfg d fh manifest call) t = runs (
        let virt := t₁.virtChildDirEntryMap.indexRange d
        if call.plus && f.serveFromBPTree then
          physIndexRange d >>= fun phys => readBPTreeFrom cfg d virt.1 phys.1 (virt.2 - virt.1)
            (phys.2 - phys.1 + (virt.2 - virt.1) - call.curOffset) call
        else
          let manifestEntries :=
            if f.manifestEntries.isNone && !manifest.isEmpty then some manifest
            else f.manifestEntries
          if call.plus && manifestEntries.isSome then
            modify (fun g => g.setFh fh (some { f with manifestEntries := manifestEntries })) >>=
              fun _ => readManifestFrom cfg d virt.1 (virt.2 - virt.1) (manifestEntries.getD [])
                (virt.2 - virt.1 + (manifestEntries.getD []).length - call.curOffset) call
          else if f.listDirectoryInProgress.isSome then pure (.errno .EACCES)
          else
            let call :=
              { call with curOffset := max call.curOffset f.prevListDirectoryOutputStartingOffset }
            readDirFrom cfg d fh (f.nextListDirectoryOutputStartingOffset
              + fileLen f.nextListDirectoryOutput + f.listDirectorySubdirectoryList.length
              + (virt.2 - virt.1) + 1) call) t₁ := by
  have hnp := hr.dir.notPending h
  obtain ⟨t₁, hrun, ht, hok⟩ := touch_ok cfg h hr.dir.inodeMap hnp
  have hcalm : ∀ L, Calm d fh L t t₁ := fun L => .of_names hr ht.names (.of_now ht.globals)
  have hr₁ := hr.of_globals (hcalm []).dir (.of_now ht.globals)
  have hroot : (t.inode d).inodeType ≠ .FUSERootDir := fun hroot =>
    hr.dir.notRoot (h.names.root_unique d hr.dir.inodeMap hroot)
  have hfile : (t.inode d).inodeType ≠ .FileObject := hr.dir.isDir
  refine ⟨t₁, hok.off_mono fun j => And.left, hr₁, ht.names, hcalm, ?_⟩
  unfold readDir
  rw [runs_withInode .ENOENT _ h hr.dir.inodeMap hnp, if_neg hfile, runs_bind, runs_globals,
    andThen_ok, if_neg (not_not.mpr hr.fhSet), runs_bind, runs_handleOf hr.fhMap, andThen_ok,
    runs_bind, hrun, andThen_ok, runs_bind, runs_virtIndexRange, andThen_ok, if_neg hroot]

/-- **`DoReadDir`** serves the names from an offset on. -/
theorem readDir_serves {manifest : List ManifestPartEntry} (h : t.Ok left NoneBare off)
    (hr : Reads t d fh f) (hs : f.Shows L) (hL : ∀ n ∈ L, ¬IsDot n)
    (hdirect : f.Direct call.plus manifest)
    (hidle : f.listDirectoryInProgress = none)
    (hclear : t.Cleared d L (max call.curOffset f.prevListDirectoryOutputStartingOffset)) :
    EndsIn (fun r t' => t'.Ok left NoneBare off ∧ LoopOk cfg f d fh L t
        { call with curOffset := max call.curOffset f.prevListDirectoryOutputStartingOffset } r t')
      (fun _ => False) (runs (readDir cfg d fh manifest call) t) := by
  obtain ⟨t₁, hok₁, hr₁, hnames, hcalm, hrun⟩ := runs_readDir cfg manifest call h hr
  -- neither from memory nor from the manifest, so from the pages
  have hbp : ¬(call.plus && f.serveFromBPTree) = true := by
    intro hc
    rw [Bool.and_eq_true] at hc
    exact Bool.false_ne_true ((hdirect hc.1).1.symm.trans hc.2)
  have hmanifest : ¬(call.plus && (if f.manifestEntries.isNone && !manifest.isEmpty then
      some manifest else f.manifestEntries).isSome) = true := by
    intro hc
    rw [Bool.and_eq_true] at hc
    obtain ⟨-, hnone, hempty⟩ := hdirect hc.1
    rw [hnone, hempty] at hc
    cases hc.2
  rw [hrun]
  dsimp only
  rw [if_neg hbp, if_neg hmanifest, if_neg (by rw [hidle]; exact Bool.false_ne_true)]
  have hclear₁ : t₁.Cleared d L (max call.curOffset f.prevListDirectoryOutputStartingOffset) := by
    unfold Cleared
    rw [virtNames_of_names hnames]
    exact hclear
  have hloop := readDirFrom_serves cfg
    { call with curOffset := max call.curOffset f.prevListDirectoryOutputStartingOffset }
    (f.nextListDirectoryOutputStartingOffset + fileLen f.nextListDirectoryOutput
      + f.listDirectorySubdirectoryList.length
      + ((t₁.virtChildDirEntryMap.indexRange d).2 - (t₁.virtChildDirEntryMap.indexRange d).1) + 1)
    hok₁ hr₁ hs hL (le_max_right _ _) hclear₁ (Nat.succ_pos _) (by
      unfold Fh.subdirectoryCap Fh.nextCap
      rw [FileTree.virtNames, DirEntries.length_names]
      omega)
  refine hloop.mono (fun r t' hend => ⟨hend.1, ?_⟩) fun _ => id
  exact LoopOk.of_calm cfg (hcalm L) hend.2

/-- A reader's handle changes, and nothing else. -/
theorem Calm.setFh (hr : Reads t d fh f) (f' : Fh) :
    Calm d fh L t (t.modify fun g => g.setFh fh (some f')) :=
  ⟨⟨hr.dir.inodeMap, hr.dir.isDir, hr.dir.notRoot⟩, hr.fhSet, fun _ => rfl, rfl, fun _ => id⟩

theorem Reads.setFh (hr : Reads t d fh f) (f' : Fh) :
    Reads (t.modify fun g => g.setFh fh (some f')) d fh f' :=
  ⟨⟨hr.dir.inodeMap, hr.dir.isDir, hr.dir.notRoot⟩, Function.update_self .., hr.fhSet⟩

/-- The directory that is read becomes phys. -/
theorem Calm.converted (h : t.Ok left NoneBare off) (hr : Reads t d fh f)
    (hg : Grown (fun _ _ => False) t t') (hc : Converted d t t') :
    Calm d fh L t t' ∧ t'.virtNames d = t.virtNames d := by
  have hpar : (t.inode d).parentInodeNumber < d :=
    (h.names.parent d hr.dir.inodeMap hr.dir.notRoot (hr.dir.notPending h)).2.2
  have hv : t'.virtNames d = t.virtNames d := by
    have hall : t'.virtNames d = (t.virtNames d).filter fun _ => true := by
      apply virtNames_eq_filter
      intro name
      rw [hc d name, if_neg fun hcon => hpar.ne' hcon.2.1, and_iff_left rfl]
    rw [hall, List.filter_true]
  have hr' := hr.grown h hg
  refine ⟨⟨hr'.dir, hr'.fhSet, fun n => ?_, ?_, ?_⟩, hv⟩
  · exact hg.unlinked (h.given hr.dir.inodeMap) fun hS => hS.elim
  · unfold restNames
    rw [hv]
  · rw [hv]
    exact List.Subset.refl _

/-- **`DoReadDir` goes on** with the page that has been listed. -/
theorem readDirListed_serves {page : ListDirectoryOutput} {manifest : List ManifestPartEntry}
    (h : t.Ok left NoneBare off) (hr : Reads t d fh f)
    (hcall : f.listDirectoryInProgress = some call) (hdirect : f.Direct call.plus manifest)
    {f' : Fh} (hf' : f' = { f with listDirectoryInProgress := none }.addPage page)
    (hs : f'.Shows L) (hL : ∀ n ∈ L, ¬IsDot n)
    (hclear : t.Cleared d L (max call.curOffset f'.prevListDirectoryOutputStartingOffset)) :
    EndsIn (fun r t' => t'.Ok left NoneBare off ∧ LoopOk cfg f' d fh L t
        { call with curOffset := max call.curOffset f'.prevListDirectoryOutputStartingOffset } r t')
      (fun _ => False) (runs (readDirListed cfg fh (some page) manifest) t) := by
  have hidle : f'.listDirectoryInProgress = none := by rw [hf', Fh.addPage_listDirectoryInProgress]
  obtain rfl := hr.inode h
  have hinode : f'.inode = f.inode := by rw [hf', Fh.addPage_inode]
  have hdirect' : f'.Direct call.plus manifest := by
    rw [hf']
    exact Fh.Direct.addPage (Fh.Direct.idle hdirect) page
  unfold readDirListed
  rw [runs_bind, runs_handleOf hr.fhMap, andThen_ok, hcall]
  dsimp only
  rw [runs_bind, runs_modify, andThen_ok, ← hf']
  have hok₁ := setFh_ok h hr.fhMap { f with listDirectoryInProgress := none } rfl
    (h.calls.pages fh f hr.fhMap) nofun
  have hr₁ := hr.setFh { f with listDirectoryInProgress := none }
  have hcalm₁ := Calm.setFh (L := L) hr { f with listDirectoryInProgress := none }
  generalize ht₁ : t.modify (fun g => g.setFh fh
    (some { f with listDirectoryInProgress := none })) = t₁ at hok₁ hr₁ hcalm₁ ⊢
  have hv₁ : t₁.virtNames f.inode = t.virtNames f.inode := by
    rw [← ht₁]
    rfl
  -- what follows the conversion
  have hrest :
      ∀ t₂, t₂.Ok left NoneBare off → Reads t₂ f.inode fh
        { f with listDirectoryInProgress := none } →
      Calm f.inode fh L t t₂ → t₂.virtNames f.inode = t.virtNames f.inode →
      EndsIn (fun r t' => t'.Ok left NoneBare off ∧ LoopOk cfg f' f.inode fh L t
        { call with curOffset := max call.curOffset f'.prevListDirectoryOutputStartingOffset } r t')
      (fun _ => False)
      (runs (do
        modify fun g => g.setFh fh (some f')
        readDir cfg f.inode fh manifest call) t₂) := by
    intro t₂ hok₂ hr₂ hcalm₂ hv₂
    have hok₃ := setFh_ok hok₂ hr₂.fhMap f' (hinode.trans (hr₂.inode hok₂).symm)
      (by rw [hf']; exact Fh.addPage_ok page) fun hsome => by
        rw [hidle] at hsome
        cases hsome
    rw [runs_bind, runs_modify, andThen_ok]
    refine (readDir_serves cfg hok₃ (hr₂.setFh f') hs hL hdirect' hidle ?_).mono
      (fun r t' ⟨hok', hloop⟩ => ⟨hok', ?_⟩) fun _ => id
    · show ∀ n ∈ L.take _, n ∉ t₂.virtNames f.inode
      rw [hv₂]
      exact hclear
    · exact LoopOk.of_calm cfg (hcalm₂.trans (Calm.setFh hr₂ f')) hloop
  split
  · obtain ⟨t₂, hrun, hok₂, hg, hc⟩ := convertToPhysInodeIfNecessary_ok (S := fun _ _ => False) cfg
      hok₁ hr₁.dir.inodeMap (hr₁.dir.notPending hok₁)
    obtain ⟨hcalm₂, hv₂⟩ := Calm.converted hok₁ hr₁ hg hc
    rw [runs_bind, hrun, andThen_ok]
    exact hrest t₂ hok₂ (hr₁.grown hok₁ hg) (hcalm₁.trans hcalm₂) (hv₂.trans hv₁)
  · exact hrest t₁ hok₁ hr₁ hcalm₁ hv₁

/-- A listing that failed is forgotten. -/
theorem readDirListed_fails (manifest : List ManifestPartEntry) (h : t.Ok left NoneBare off)
    (hr : Reads t d fh f) (hcall : f.listDirectoryInProgress = some call) :
    ∃ t', runs (readDirListed cfg fh none manifest) t = (.ok (.errno .EACCES), t') ∧
      t'.Ok left NoneBare off ∧ Reads t' d fh { f with listDirectoryInProgress := none } ∧
      Calm d fh L t t' ∧ t'.virtNames d = t.virtNames d := by
  refine ⟨_, ?_, setFh_ok h hr.fhMap { f with listDirectoryInProgress := none } rfl
    (h.calls.pages fh f hr.fhMap) nofun, hr.setFh _, .setFh hr _, rfl⟩
  unfold readDirListed
  rw [runs_bind, runs_handleOf hr.fhMap, andThen_ok, hcall]
  dsimp only
  rw [runs_bind, runs_modify, andThen_ok]
  rfl

end TreeSection

end MultiStorageFileSystem
