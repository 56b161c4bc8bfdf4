/-
MultiStorageClient/FileTreeEntryNames.lean

The names of the entries that a reader of a directory gets.

Where the entries come from depends on the call and on the handle (`EntrySource`):
the listing of the backend, the phys entries, or a manifest part.  In each case they
are, in order, the names of one list but for unlinked files (`InOrder`), so they are
distinct and can stand in an answer if those of the list are and can.
-/
import MultiStorageClient.FileTreePlusReads
import MultiStorageClient.FileTreeResumes
import MultiStorageClient.S3Listings

namespace MultiStorageFileSystem

open Prog Run TreeSection FileTree

namespace DirReader

variable {cfg : TreeConfig} {plus : Bool} {manifest : List ManifestPartEntry}
  {list : String → ListDirectoryOutput} {d fh : ℕ} {pages rcv rest : List ListDirectoryOutput}
  {r r' : DirReader} {f f' : Fh} {top s size : ℕ} {call call' : ReadDirCall}
  {E : List String} {unlinked : String → Bool}

/-- The reader follows the `Off` of the last entry. -/
def FollowsLast (r : DirReader) : DirReaderStep → Prop
  | .call offset _ _ => offset = r.offset
  | _ => True

/-- What the others do to the directory. -/
def Others (P : FileTree → FileTree → Prop) (cfg : TreeConfig) (r : DirReader) :
    DirReaderStep → Prop
  | .other s => ∀ t' ∈ r.tree.step cfg s, P r.tree t'
  | _ => True

/-- What has been got are names of `E` up to the `Off` of the last entry, in their order. -/
def InOrder (unlinked : String → Bool) (E : List String) (r : DirReader) : Prop :=
  (r.got.map DirEnt.name).Sublist (served unlinked E 0 r.offset)

/-- A reply adds names that are in order. -/
theorem InOrder.append (h : InOrder unlinked E r)
    (hserves : Serves cfg unlinked E ⟨plus, s, size, [], 0⟩ call') (hs : r.offset ≤ s)
    (hgot : r'.got = r.got ++ call'.dirEnt) : InOrder unlinked E r' := by
  obtain ⟨new, hnew, hnames, -, hlast⟩ := hserves.added
  rw [List.nil_append] at hnew
  rw [hnew] at hgot
  cases hl : new.getLast? with
  | none =>
      obtain rfl := List.getLast?_eq_none_iff.mp hl
      rw [List.append_nil] at hgot
      unfold InOrder offset
      rw [hgot]
      exact h
  | some e =>
      obtain ⟨hlt, hle, hskip⟩ := hlast e hl
      have hoff : r'.offset = e.off := by
        unfold offset
        rw [hgot, List.getLast?_append, hl]
        rfl
      have hse : served unlinked E s call'.curOffset = served unlinked E s e.off := by
        rw [← served_append hlt.le hle, hskip.served, List.append_nil]
      unfold InOrder
      rw [hgot, hoff, List.map_append, hnames, ← served_append (Nat.zero_le s) hlt.le]
      refine List.Sublist.append (h.trans ?_) (hse ▸ List.Sublist.refl _)
      rw [← served_append (Nat.zero_le _) hs]
      exact List.sublist_append_left ..

/-- What has been got are distinct names that can stand in an answer, if those of `E` are
and can. -/
theorem InOrder.sublist (h : InOrder unlinked E r) :
    (r.got.map DirEnt.name).Sublist (E.filter (!unlinked ·)) := by
  refine h.trans ?_
  unfold served
  rw [List.drop_zero]
  exact (List.take_sublist _ _).filter _

/-! ### From the listing of the backend -/

/-- What holds of a reader of the listing, between two sections. -/
structure OfListing (cfg : TreeConfig) (plus : Bool) (manifest : List ManifestPartEntry)
    (list : String → ListDirectoryOutput) (d fh : ℕ) (pages : List ListDirectoryOutput)
    (E : List String) (unlinked : String → Bool) (r : DirReader) (f : Fh)
    (rcv rest : List ListDirectoryOutput) (top : ℕ) : Prop where
  wandering : Wandering plus manifest list d fh pages r f rcv rest top
  names : r.tree.listing d (pageNames pages) = E
  files : ∀ n ∈ E, r.tree.unlinked d n = unlinked n
  inOrder : InOrder unlinked E r
  busy : r.busy = true → ∃ call s size, f.listDirectoryInProgress = some call ∧
    Serves cfg unlinked E ⟨plus, s, size, [], 0⟩ call ∧ r.offset ≤ s

/-- A section of a call that has started at `s`. -/
theorem OfListing.goes (hnames : r.tree.listing d (pageNames pages) = E)
    (hfiles : ∀ n ∈ E, r.tree.unlinked d n = unlinked n) (hinOrder : InOrder unlinked E r)
    (hw : Wandering plus manifest list d fh pages r' f' rcv rest top)
    (hg : Goes plus cfg d (pageNames pages) r r' f' call call')
    (hcall : Serves cfg unlinked E ⟨plus, s, size, [], 0⟩ call) (hs : r.offset ≤ s) :
    OfListing cfg plus manifest list d fh pages E unlinked r' f' rcv rest top := by
  have hserves := hg.serves
  rw [hnames] at hserves
  have hcall' := hcall.trans (hserves.congr hfiles)
  have hnames' : r'.tree.listing d (pageNames pages) = E :=
    (congrArg (pageNames pages ++ ·) hg.rest).trans hnames
  refine ⟨hw, hnames', fun n hn => (hg.unlinked n).trans (hfiles n hn), ?_, fun hb => ?_⟩
  · rcases hg.ends with ⟨-, hgot, -⟩ | ⟨-, hgot, -⟩
    · unfold InOrder offset
      rw [hgot]
      exact hinOrder
    · exact hinOrder.append hcall' hs hgot
  · rcases hg.ends with ⟨-, hgot, -, hawaits, -⟩ | ⟨hidle, -⟩
    · refine ⟨call', s, size, hawaits.inProgress, hcall', ?_⟩
      unfold offset
      rw [hgot]
      exact hs
    · exact absurd (hidle.symm.trans hb) Bool.false_ne_true

/-- **Every step** keeps the names in order. -/
theorem OfListing.step (h : OfListing cfg plus manifest list d fh pages E unlinked r f rcv rest top)
    (hL : ∀ n ∈ pageNames pages, ¬IsDot n) {e : DirReaderStep} (hfollows : r.FollowsLast e)
    (hothers : Others (Undisturbed d fh (pageNames pages)) cfg r e)
    (hstep : r.stepPlus cfg list d fh plus manifest e = some r') :
    ∃ f' rcv' rest' top', OfListing cfg plus manifest list d fh pages E unlinked r' f' rcv' rest'
      top' := by
  cases stepPlus_stepped hstep with
  | call hidle hoffset hafter =>
      obtain ⟨r₁, f', call', top', hcall, hw, hg⟩ := h.wandering.calls cfg _ _ hL hidle hoffset
      obtain rfl := Option.some.inj (hcall.symm.trans hafter)
      obtain rfl := hfollows
      exact ⟨f', rcv, rest, top', .goes h.names h.files h.inOrder hw hg (.refl _) (le_max_left _ _)⟩
  | lists hbusy hafter =>
      obtain ⟨call, s, size, hcall, hserves, hs⟩ := h.busy hbusy
      obtain ⟨r₁, f', rest', call', top', hlists, -, hw, hg⟩ :=
        h.wandering.lists cfg _ hL hbusy hcall
      obtain rfl := Option.some.inj (hlists.symm.trans hafter)
      exact ⟨f', _, rest', top', .goes h.names h.files h.inOrder hw hg hserves hs⟩
  | fails hbusy hafter =>
      obtain ⟨t', hfails, hw, hunlinked, hrest⟩ := h.wandering.fails cfg _ hbusy
      obtain rfl := Option.some.inj (hfails.symm.trans hafter)
      exact ⟨_, rcv, rest, top, hw, (congrArg (pageNames pages ++ ·) hrest).trans h.names,
        fun n hn => (hunlinked n).trans (h.files n hn), h.inOrder, nofun⟩
  | other ht' =>
      have hu := hothers _ ht'
      refine ⟨f, rcv, rest, top, h.wandering.other ht' hu.toMeanwhile,
        (congrArg (pageNames pages ++ ·) hu.rest).trans h.names, fun n hn => ?_, h.inOrder, h.busy⟩
      rw [hu.unlinked n (by rw [h.names]; exact hn)]
      exact h.files n hn

/-! ### From the phys entries -/

/-- Others leave the entries of the directory alone. -/
def LeftAlone (d fh : ℕ) (t t' : FileTree) : Prop :=
  Undisturbed d fh [] t t' ∧ t'.physNames d = t.physNames d

theorem restNames_nil (t : FileTree) (d : ℕ) : t.restNames d [] = t.virtNames d :=
  List.filter_eq_self.mpr fun _ _ => rfl

/-- What holds of a reader of the phys entries. -/
structure OfBPTree (d fh : ℕ) (E : List String) (r : DirReader) (f : Fh) : Prop where
  settled : r.tree.Settled True
  reads : Reads r.tree d fh f
  serveFromBPTree : f.serveFromBPTree = true
  idle : r.busy = false
  names : r.tree.virtNames d ++ r.tree.physNames d = E
  inOrder : InOrder (fun _ => false) E r

theorem Reads.meanwhile {L : List String} {t t' : FileTree} (hr : Reads t d fh f)
    (hm : Meanwhile d fh L t t') : Reads t' d fh f :=
  ⟨⟨hm.dir.1, hm.dir.2, hr.dir.notRoot⟩, hm.handle.2.trans hr.fhMap, hm.handle.1⟩

/-- **Every step** keeps the names in order. -/
theorem OfBPTree.step (h : OfBPTree d fh E r f) {e : DirReaderStep} (hfollows : r.FollowsLast e)
    (hothers : Others (LeftAlone d fh) cfg r e)
    (hstep : r.stepPlus cfg list d fh true manifest e = some r') : OfBPTree d fh E r' f := by
  cases stepPlus_stepped hstep with
  | @call offset size now _ _ _ hafter =>
      obtain rfl : offset = r.offset := hfollows
      have hcalm := Calm.atTime now [] h.reads
      have hr₁ : Reads (r.tree.atTime now) d fh f := ⟨hcalm.dir, h.reads.fhMap, hcalm.fhSet⟩
      obtain ⟨t', call', hrun, hok, hr', hn, hserves⟩ := readDir_servesBPTree cfg
        ⟨true, r.offset, size, [], 0⟩ manifest (h.settled.later now) hr₁ rfl
        h.serveFromBPTree
      have hrun : r.tree.runCall cfg ⟨.doReadDir true d fh r.offset size manifest, now⟩ =
          (.ok (.entries call'.dirEnt), t') := hrun
      have hnames : t'.virtNames d ++ t'.physNames d = E := by
        rw [virtNames_of_names hn, physNames_of_names hn]
        exact h.names
      unfold after at hafter
      rw [hrun] at hafter
      cases hafter
      refine ⟨hok, hr', h.serveFromBPTree, rfl, hnames, ?_⟩
      have hserves : Serves cfg (fun _ => false) (r.tree.virtNames d ++ r.tree.physNames d)
        ⟨true, r.offset, size, [], 0⟩ call' := hserves
      rw [h.names] at hserves
      exact h.inOrder.append hserves le_rfl rfl
  | lists hbusy _ => exact absurd (h.idle.symm.trans hbusy) Bool.false_ne_true
  | fails hbusy _ => exact absurd (h.idle.symm.trans hbusy) Bool.false_ne_true
  -- what the others do does not change the names served so far
  | other ht' =>
      obtain ⟨hu, hphys⟩ := hothers _ ht'
      have hvirt := hu.rest
      rw [restNames_nil, restNames_nil] at hvirt
      refine ⟨step_ok h.settled (.inl trivial) ht', Reads.meanwhile h.reads hu.toMeanwhile,
        h.serveFromBPTree, h.idle, ?_, h.inOrder⟩
      dsimp only
      rw [hvirt, hphys]
      exact h.names

/-! ### From a manifest part -/

/-- What holds of a reader of a manifest part. -/
structure OfManifest (manifest : List ManifestPartEntry) (d fh : ℕ) (virt : List String)
    (unlinked : String → Bool) (r : DirReader) (f : Fh) : Prop where
  settled : r.tree.Settled True
  reads : Reads r.tree d fh f
  serveFromBPTree : f.serveFromBPTree = false
  loaded : f.manifestEntries = none ∧ manifest ≠ [] ∨ f.manifestEntries = some manifest
  idle : r.busy = false
  virtNames : r.tree.virtNames d = virt
  files : ∀ n ∈ manifestNames manifest, r.tree.unlinked d n = unlinked n
  inOrder : InOrder (manifestUnlinked manifest unlinked) (virt ++ manifestNames manifest) r

theorem manifestUnlinked_congr {unlinked' : String → Bool} {entries : List ManifestPartEntry}
    (h : ∀ n ∈ manifestNames entries, unlinked n = unlinked' n) :
    manifestUnlinked entries unlinked = manifestUnlinked entries unlinked' := by
  funext n
  unfold manifestUnlinked
  by_cases hn : n ∈ manifestNames entries
  · rw [h n hn]
  · rw [decide_eq_false hn, Bool.false_and, Bool.false_and]

/-- Behind no listed name there is a virt entry, and nothing else happens to them. -/
theorem Undisturbed.virtNames {L : List String} {t t' : FileTree} (h : Undisturbed d fh L t t')
    (hvirt : ∀ n ∈ L, n ∉ t.virtNames d) : t'.virtNames d = t.virtNames d := by
  have hall : ∀ l : List String, (∀ n ∈ l, n ∉ L) → l.filter (· ∉ L) = l := fun l hl =>
    List.filter_eq_self.mpr fun n hn => decide_eq_true (hl n hn)
  have hrest := h.rest
  unfold restNames at hrest
  rwa [hall _ fun n hn hL => hvirt n hL (h.listed n hn hL), hall _ fun n hn hL => hvirt n hL hn]
    at hrest

/-- **Every step** keeps the names in order. -/
theorem OfManifest.step {virt : List String} (h : OfManifest manifest d fh virt unlinked r f)
    (hdots : ∀ n ∈ manifestNames manifest, ¬IsDot n) (hvirt : ∀ n ∈ manifestNames manifest,
      n ∉ virt)
    {e : DirReaderStep} (hfollows : r.FollowsLast e)
    (hothers : Others (Undisturbed d fh (manifestNames manifest)) cfg r e)
    (hstep : r.stepPlus cfg list d fh true manifest e = some r') :
    ∃ f', OfManifest manifest d fh virt unlinked r' f' := by
  -- the manifest's names are none of the virtual ones, which come first
  have hvirt' : ∀ n ∈ manifestNames manifest, n ∉ r.tree.virtNames d := by
    rw [h.virtNames]
    exact hvirt
  cases stepPlus_stepped hstep with
  | @call offset size now _ _ _ hafter =>
      obtain rfl : offset = r.offset := hfollows
      have hcalm := Calm.atTime now [] h.reads
      have hr₁ : Reads (r.tree.atTime now) d fh f := ⟨hcalm.dir, h.reads.fhMap, hcalm.fhSet⟩
      have hruns : EndsIn _ _
          (r.tree.runCall cfg ⟨.doReadDir true d fh r.offset size manifest, now⟩) :=
        readDir_servesManifest cfg ⟨true, r.offset, size, [], 0⟩ (h.settled.later now) hr₁
          rfl h.serveFromBPTree h.loaded hdots hvirt'
      unfold after at hafter
      generalize r.tree.runCall cfg ⟨.doReadDir true d fh r.offset size manifest, now⟩ = out
        at hruns hafter
      obtain ⟨e | reply, t'⟩ := out
      · exact hruns.elim
      · obtain ⟨hok, hr', hv', hu', call', rfl, hserves⟩ := hruns
        cases hafter
        have hserves : Serves cfg (manifestUnlinked manifest (r.tree.unlinked d))
          (r.tree.virtNames d ++ manifestNames manifest) ⟨true, r.offset, size, [], 0⟩ call' :=
            hserves
        rw [h.virtNames, manifestUnlinked_congr h.files] at hserves
        exact ⟨_, hok, hr', h.serveFromBPTree, .inr rfl, rfl, hv'.trans h.virtNames,
          fun n hn => (congrFun hu' n).trans (h.files n hn), h.inOrder.append hserves le_rfl rfl⟩
  | lists hbusy _ => exact absurd (h.idle.symm.trans hbusy) Bool.false_ne_true
  | fails hbusy _ => exact absurd (h.idle.symm.trans hbusy) Bool.false_ne_true
  -- the others unlink nothing of the manifest
  | other ht' =>
      have hu := hothers _ ht'
      refine ⟨f, step_ok h.settled (.inl trivial) ht', Reads.meanwhile h.reads hu.toMeanwhile,
        h.serveFromBPTree, h.loaded, h.idle,
        (hu.virtNames hvirt').trans h.virtNames, fun n hn => ?_, h.inOrder⟩
      exact (hu.unlinked n (List.mem_append_left _ hn)).trans (h.files n hn)

/-! ### Names that can stand in an answer -/

/-- Where the entries of an answer come from. -/
inductive EntrySource
  | listing
  | bpTree
  | manifest
  deriving DecidableEq

/-- Where `DoReadDir` or, if `plus` says so, `DoReadDirPlus` has the entries from. -/
def entrySource (plus : Bool) (manifest : List ManifestPartEntry) (t : FileTree) (fh : ℕ) :
    EntrySource :=
  if plus && (t.globals.fhMap fh).any Fh.serveFromBPTree then .bpTree
  else if plus && !manifest.isEmpty then .manifest
  else .listing

/-- A name is not empty, and has no `/`. -/
def NameOk (name : String) : Prop := name ≠ "" ∧ '/' ∉ name.toList

/-- The names of the entries are distinct, not empty and without `/`. -/
structure EntryNamesOk (r : DirReader) : Prop where
  names : ∀ e ∈ r.got, NameOk e.name
  nodup : (r.got.map DirEnt.name).Nodup

/-- No key of an object is that of the directory or has an empty component behind it, and
no name is that of an object and of a subdirectory, but for unlinked files; and the virt
entries are what they should. -/
structure CleanListing (objects : Finset String) (dir : String) (t : FileTree) (d : ℕ) : Prop where
  nonempty : t.unlinked d "" = false → ¬IsFile objects dir "" ∧ ¬IsSubdirectory objects dir ""
  once : ∀ name, t.unlinked d name = false →
    ¬(IsFile objects dir name ∧ IsSubdirectory objects dir name)
  virt : ∀ name ∈ t.virtNames d, t.unlinked d name = false → NameOk name

/-- The phys and the virt entries are what they should. -/
def CleanBPTree (t : FileTree) (d : ℕ) : Prop :=
  ∀ name ∈ t.virtNames d ++ t.physNames d, NameOk name

/-- A manifest part has no name twice, no empty name, none with a `/`, and none of a virt
entry. -/
structure CleanManifest (manifest : List ManifestPartEntry) (t : FileTree) (d : ℕ) : Prop where
  names : ∀ name ∈ manifestNames manifest, t.unlinked d name = false → NameOk name
  once : ((manifestNames manifest).filter (!t.unlinked d ·)).Nodup
  virt : ∀ name ∈ t.virtNames d, NameOk name ∧ name ∉ manifestNames manifest

/-- No name that is listed is a dot. -/
def NoDots (objects : Finset String) (dir : String) : Prop :=
  ∀ name, IsFile objects dir name ∨ IsSubdirectory objects dir name → ¬IsDot name

/-- The names that the entries are made of are distinct and can stand in an answer. -/
def Clean (objects : Finset String) (dir : String) (manifest : List ManifestPartEntry)
    (t : FileTree) (d : ℕ) : EntrySource → Prop
  | .listing => NoDots objects dir ∧ CleanListing objects dir t d
  | .bpTree => CleanBPTree t d
  | .manifest => CleanManifest manifest t d

/-- Others leave what the entries are made of alone. -/
def Leaves (pages : List ListDirectoryOutput) (manifest : List ManifestPartEntry) (d fh : ℕ) :
    EntrySource → FileTree → FileTree → Prop
  | .listing => Undisturbed d fh (pageNames pages)
  | .bpTree => LeftAlone d fh
  | .manifest => Undisturbed d fh (manifestNames manifest)

/-- The names that are got are some of those of a list that is clean. -/
theorem InOrder.entryNamesOk (h : InOrder unlinked E r)
    (hok : ∀ n ∈ E, unlinked n = false → NameOk n) (hnodup : (E.filter (!unlinked ·)).Nodup) :
    EntryNamesOk r := by
  refine ⟨fun e he => ?_, h.sublist.nodup hnodup⟩
  obtain ⟨hmem, hu⟩ := List.mem_filter.mp (h.sublist.mem (List.mem_map_of_mem he))
  exact hok _ hmem ((Bool.not_eq_true' _).mp hu)

variable {objects : Finset String} {objectPath : String} {outputs : List S3ListObjectsV2Output}
  {backend : S3Backend} {listObjectsV2 : S3ListObjectsV2Input → Option S3ListObjectsV2Output}
  {directoryPageSize : ℕ} {t : FileTree}

/-- What is expected of a listing is distinct just if no file has the name of a
subdirectory. -/
theorem expected_nodup_iff
    (hobjects : ListsObjects objects (backend.fullDirPath objectPath) outputs) :
    (expected t d (backend.dirPages objectPath outputs)).Nodup ↔
      ∀ name, t.unlinked d name = false →
        ¬(IsFile objects (backend.fullDirPath objectPath) name ∧
          IsSubdirectory objects (backend.fullDirPath objectPath) name) := by
  have hmem : ∀ {names : List String} {name : String},
      name ∈ names.filter (!t.unlinked d ·) ↔ name ∈ names ∧ t.unlinked d name = false := by
    intro names name
    rw [List.mem_filter, Bool.not_eq_true']
  unfold expected FileTree.listing pageNames
  rw [List.filter_append, List.filter_append, List.nodup_append', List.nodup_append']
  constructor
  · rintro ⟨⟨-, -, hdisjoint⟩, -, -⟩ name hu ⟨hfile, hsub⟩
    exact hdisjoint (hmem.mpr ⟨(mem_fileNames_iff hobjects).mpr hfile, hu⟩)
      (hmem.mpr ⟨(mem_subdirectoryNames_iff hobjects).mpr hsub, hu⟩)
  · intro honce
    refine ⟨⟨(fileNames_nodup hobjects).filter _, (subdirectoryNames_nodup _).filter _, ?_⟩,
      (virtNames_nodup.filter _).filter _, ?_⟩
    · intro name hfile hsub
      obtain ⟨hfile, hu⟩ := hmem.mp hfile
      exact honce name hu ⟨(mem_fileNames_iff hobjects).mp hfile,
        (mem_subdirectoryNames_iff hobjects).mp (hmem.mp hsub).1⟩
    · intro name hlisted hrest
      have hnot := of_decide_eq_true (List.mem_filter.mp (hmem.mp hrest).1).2
      rw [← List.filter_append] at hlisted
      exact hnot (hmem.mp hlisted).1

/-- What is expected of a listing is distinct and can stand in an answer just if the listing
is clean. -/
theorem expected_clean_iff
    (hobjects : ListsObjects objects (backend.fullDirPath objectPath) outputs) :
    ((∀ name ∈ expected t d (backend.dirPages objectPath outputs), NameOk name) ∧
      (expected t d (backend.dirPages objectPath outputs)).Nodup) ↔
      CleanListing objects (backend.fullDirPath objectPath) t d := by
  have hexpected : ∀ {name : String}, name ∈ expected t d (backend.dirPages objectPath outputs) ↔
      (IsFile objects (backend.fullDirPath objectPath) name ∨
        IsSubdirectory objects (backend.fullDirPath objectPath) name ∨ name ∈ t.virtNames d) ∧
        t.unlinked d name = false := by
    intro name
    rw [mem_expected, mem_virtNames]
    unfold S3Backend.dirPages
    rw [mem_fileNames_iff hobjects, mem_subdirectoryNames_iff hobjects]
  rw [expected_nodup_iff hobjects]
  constructor
  · rintro ⟨hok, honce⟩
    -- a name that is expected is one that `EntryNamesOk` is about
    refine ⟨fun hu => ⟨fun hfile => ?_, fun hsub => ?_⟩, honce, fun name hname hu => ?_⟩
    · exact (hok "" (hexpected.mpr ⟨.inl hfile, hu⟩)).1 rfl
    · exact (hok "" (hexpected.mpr ⟨.inr (.inl hsub), hu⟩)).1 rfl
    · exact hok name (hexpected.mpr ⟨.inr (.inr hname), hu⟩)
  · rintro ⟨hnonempty, honce, hvirt⟩
    refine ⟨fun name hname => ?_, honce⟩
    obtain ⟨hname, hu⟩ := hexpected.mp hname
    -- a file, a subdirectory or a virtual entry
    rcases hname with hfile | hsub | hvirtual
    · refine ⟨?_, hfile.2⟩
      rintro rfl
      exact (hnonempty hu).1 hfile
    · refine ⟨?_, hsub.2⟩
      rintro rfl
      exact (hnonempty hu).2 hsub
    · exact hvirt name hvirtual hu

theorem noDots_iff (hobjects : ListsObjects objects (backend.fullDirPath objectPath) outputs) :
    NoDots objects (backend.fullDirPath objectPath) ↔
      ∀ name ∈ pageNames (backend.dirPages objectPath outputs), ¬IsDot name := by
  unfold NoDots pageNames S3Backend.dirPages
  refine forall_congr' fun name => ?_
  rw [List.mem_append, mem_fileNames_iff hobjects, mem_subdirectoryNames_iff hobjects]

/-- Where the entries come from, by the handle. -/
theorem entrySource_cases (plus : Bool) (manifest : List ManifestPartEntry)
    (hf : t.globals.fhMap fh = some f) :
    (entrySource plus manifest t fh = .bpTree ∧ plus = true ∧ f.serveFromBPTree = true) ∨
    (entrySource plus manifest t fh = .manifest ∧ plus = true ∧ f.serveFromBPTree = false ∧
      manifest ≠ []) ∨
    entrySource plus manifest t fh = .listing ∧
      (plus = true → f.serveFromBPTree = false ∧ manifest = []) := by
  unfold entrySource
  rw [hf, Option.any_some]
  cases plus with
  | false => exact .inr (.inr ⟨rfl, nofun⟩)
  | true =>
      cases hbp : f.serveFromBPTree with
      | true => exact .inl ⟨rfl, rfl, rfl⟩
      | false =>
          cases manifest with
          | nil => exact .inr (.inr ⟨rfl, fun _ => ⟨rfl, rfl⟩⟩)
          | cons entry entries => exact .inr (.inl ⟨rfl, rfl, rfl, List.cons_ne_nil _ _⟩)

variable {events : List DirReaderStep}

/-- One who reads the listing of the backend. -/
theorem OfListing.of_run (hsettled : t.Settled True) (hopen : Opened d fh t)
    (hsplit : Split list "" pages) (hdirect : ∀ f ∈ t.globals.fhMap fh, f.Direct plus manifest)
    (hdots : ∀ n ∈ pageNames pages, ¬IsDot n)
    (hreads : exec (stepPlus cfg list d fh plus manifest) (start t) events = some r)
    (hfollows : Always (stepPlus cfg list d fh plus manifest) FollowsLast (start t) events)
    (hothers : Always (stepPlus cfg list d fh plus manifest)
      (Others (Undisturbed d fh (pageNames pages)) cfg) (start t) events) :
    InOrder (t.unlinked d) (t.listing d (pageNames pages)) r := by
  obtain ⟨f₀, hstart⟩ := hopen.wanders hsettled hsplit hdirect
  obtain ⟨f, rcv, rest, top, h⟩ : ∃ f rcv rest top, OfListing cfg plus manifest list d fh pages
      (t.listing d (pageNames pages)) (t.unlinked d) r f rcv rest top := by
    refine exec_invariant (I := fun r => ∃ f rcv rest top,
      OfListing cfg plus manifest list d fh pages
      (t.listing d (pageNames pages)) (t.unlinked d) r f rcv rest top) ?_
        (hfollows.and hothers) hreads
      ⟨f₀, [], pages, 0, hstart, rfl, fun _ _ => rfl, List.nil_sublist _, nofun⟩
    rintro r e r' ⟨f, rcv, rest, top, h⟩ ⟨hf, ho⟩ hstep
    exact h.step hdots hf ho hstep
  exact h.inOrder

/-- One who reads the phys entries. -/
theorem OfBPTree.of_run (hsettled : t.Settled True) (hreads : Reads t d fh f)
    (hbp : f.serveFromBPTree = true)
    (hrun : exec (stepPlus cfg list d fh true manifest) (start t) events = some r)
    (hfollows : Always (stepPlus cfg list d fh true manifest) FollowsLast (start t) events)
    (hothers : Always (stepPlus cfg list d fh true manifest) (Others (LeftAlone d fh) cfg) (start t)
      events) :
    InOrder (fun _ => false) (t.virtNames d ++ t.physNames d) r := by
  have h : OfBPTree d fh (t.virtNames d ++ t.physNames d) r f := by
    refine exec_invariant (I := fun r => OfBPTree d fh (t.virtNames d ++ t.physNames d) r f) ?_
      (hfollows.and hothers) hrun ⟨hsettled, hreads, hbp, rfl, rfl, List.nil_sublist _⟩
    rintro r e r' h ⟨hf, ho⟩ hstep
    exact h.step hf ho hstep
  exact h.inOrder

/-- One who reads a manifest part. -/
theorem OfManifest.of_run (hsettled : t.Settled True) (hreads : Reads t d fh f)
    (hbp : f.serveFromBPTree = false) (hnone : f.manifestEntries = none) (hne : manifest ≠ [])
    (hdots : ∀ n ∈ manifestNames manifest, ¬IsDot n)
    (hvirt : ∀ n ∈ manifestNames manifest, n ∉ t.virtNames d)
    (hrun : exec (stepPlus cfg list d fh true manifest) (start t) events = some r)
    (hfollows : Always (stepPlus cfg list d fh true manifest) FollowsLast (start t) events)
    (hothers : Always (stepPlus cfg list d fh true manifest)
      (Others (Undisturbed d fh (manifestNames manifest)) cfg) (start t) events) :
    InOrder (manifestUnlinked manifest (t.unlinked d))
      (t.virtNames d ++ manifestNames manifest) r := by
  obtain ⟨f', h⟩ : ∃ f', OfManifest manifest d fh (t.virtNames d) (t.unlinked d) r f' := by
    refine exec_invariant (I := fun r => ∃ f', OfManifest manifest d fh (t.virtNames d)
      (t.unlinked d) r f') ?_ (hfollows.and hothers) hrun
      ⟨f, hsettled, hreads, hbp, .inl ⟨hnone, hne⟩, rfl, rfl, fun _ _ => rfl, List.nil_sublist _⟩
    rintro r e r' ⟨f', h⟩ ⟨hf, ho⟩ hstep
    exact h.step hdots hvirt hf ho hstep
  exact h.inOrder

/-- The dots are virt entries of a directory of a backend. -/
theorem mem_virtNames_of_isDot (h : t.Settled True) (hdir : BackendDir t d) {name : String}
    (hdot : IsDot name) : name ∈ t.virtNames d := by
  obtain ⟨hself, hparent⟩ := h.names.dots d hdir.inodeMap hdir.isDir id
  rw [mem_virtNames]
  rcases hdot with rfl | rfl
  · intro hnone
    cases hself.symm.trans hnone
  · intro hnone
    cases hparent.symm.trans hnone

/-- No name is that of a virt and of a phys entry. -/
theorem entries_nodup (h : t.Settled True) : (t.virtNames d ++ t.physNames d).Nodup := by
  refine List.nodup_append'.mpr ⟨virtNames_nodup, physNames_nodup, fun name hv hp => ?_⟩
  rw [mem_virtNames] at hv
  rw [mem_physNames] at hp
  exact (h.names.disjoint d name).elim hp hv

/-- A manifest without repetition gives no name twice. -/
theorem CleanManifest.nodup (h : CleanManifest manifest t d) :
    ((t.virtNames d ++ manifestNames manifest).filter
      (!manifestUnlinked manifest (t.unlinked d) ·)).Nodup := by
  have hmanifest : (manifestNames manifest).filter (!manifestUnlinked manifest (t.unlinked d) ·) =
      (manifestNames manifest).filter (!t.unlinked d ·) := by
    apply List.filter_congr
    intro n hn
    rw [manifestUnlinked, decide_eq_true hn, Bool.true_and]
  rw [List.filter_append, hmanifest, List.nodup_append']
  refine ⟨virtNames_nodup.filter _, h.once, fun n hv hm => ?_⟩
  exact (h.virt n (List.mem_filter.mp hv).1).2 (List.mem_filter.mp hm).1

/-- **The names of the entries.**  One who reads a directory of an S3 backend, with
`DoReadDir` or `DoReadDirPlus`, gets names that are distinct, not empty and without `/` if
the keys of the objects, the entries of the directory and the manifest part are clean;
and the names that `DoReadDir` has listed by the end are so only then. -/
theorem entryNamesOk_of_run {n : ℕ} {steps : List TreeStep} {events : List DirReaderStep}
    (hrun : exec (FileTree.step cfg) (initial n) steps = some t) (hopen : Opened d fh t)
    (hlists : backend.ListsDirectory listObjectsV2 objects directoryPageSize (t.inode d).objectPath
      list outputs)
    (hreads : exec (stepPlus cfg list d fh plus manifest) (start t) events = some r)
    (hfollows : Always (stepPlus cfg list d fh plus manifest) FollowsLast (start t) events)
    (hleaves : Always (stepPlus cfg list d fh plus manifest)
      (Others (Leaves (backend.dirPages (t.inode d).objectPath outputs) manifest d fh
        (entrySource plus manifest t fh)) cfg) (start t) events) :
    (Clean objects (backend.fullDirPath (t.inode d).objectPath) manifest t d
      (entrySource plus manifest t fh) → EntryNamesOk r) ∧
    (plus = false → manifest = [] → NoDots objects (backend.fullDirPath (t.inode d).objectPath) →
      Always (step cfg list d fh)
        (Follows cfg d fh (backend.dirPages (t.inode d).objectPath outputs))
        (start t) events →
      Always (step cfg list d fh)
        (FailsInPlace d fh (backend.dirPages (t.inode d).objectPath outputs)) (start t) events →
      r.ended = true →
      (EntryNamesOk r ↔ CleanListing objects (backend.fullDirPath (t.inode d).objectPath) t
        d)) := by
  have hsettled : t.Settled True := settled_of_run (.inl trivial) hrun
  obtain ⟨⟨hi, hfile, hroot⟩, hfh, b, hf⟩ := id hopen
  have hreading : Reads t d fh (newFh d false false b) := ⟨⟨hi, hfile, hroot⟩, hf, hfh⟩
  have hsplit := hlists.split
  constructor
  -- where the entries come from
  · intro hclean
    rcases entrySource_cases plus manifest hf with
      ⟨hsource, rfl, hbp⟩ | ⟨hsource, rfl, hbp, hne⟩ | ⟨hsource, hdirect⟩
    -- from memory
    · rw [hsource] at hclean hleaves
      refine (OfBPTree.of_run hsettled hreading hbp hreads hfollows hleaves).entryNamesOk
        (fun n hn _ => hclean n hn) ?_
      exact (entries_nodup hsettled).filter _
    · rw [hsource] at hclean hleaves
      -- from the manifest, behind the virtual ones
      have hvirt : ∀ n ∈ manifestNames manifest, n ∉ t.virtNames d := fun n hn hv =>
        (hclean.virt n hv).2 hn
      have hdots : ∀ n ∈ manifestNames manifest, ¬IsDot n := fun n hn hdot =>
        hvirt n hn (mem_virtNames_of_isDot hsettled hreading.dir hdot)
      refine (OfManifest.of_run hsettled hreading hbp rfl hne hdots hvirt hreads hfollows
        hleaves).entryNamesOk (fun n hn hu => ?_) (hclean.nodup)
      rcases List.mem_append.mp hn with hv | hm
      · exact (hclean.virt n hv).1
      · refine hclean.names n hm ?_
        rw [← hu, manifestUnlinked, decide_eq_true hm, Bool.true_and]
    -- from the backend's pages
    · rw [hsource] at hclean hleaves
      obtain ⟨hok, hnodup⟩ := (expected_clean_iff hlists.objects).mpr hclean.2
      refine (OfListing.of_run hsettled hopen hsplit (fun f' hf' hplus => ?_)
        ((noDots_iff hlists.objects).mp hclean.1) hreads hfollows hleaves).entryNamesOk
        (fun n hn hu => ?_) hnodup
      · obtain rfl := Option.some.inj (hf.symm.trans hf')
        exact ⟨(hdirect hplus).1, rfl, (hdirect hplus).2⟩
      · exact hok n (List.mem_filter.mpr ⟨hn, (Bool.not_eq_true' _).mpr hu⟩)
  -- the converse is about `DoReadDir`, whose entries are all the expected ones
  · rintro rfl rfl hdots hfits hplace hended
    rw [stepPlus_false] at hreads
    obtain ⟨f, rcv, rest, h⟩ := Enumerates.of_run hrun hopen hsplit
      ((noDots_iff hlists.objects).mp hdots) hreads hfits hplace
    have hall := h.ended hended
    rw [served_all] at hall
    change r.got.map DirEnt.name = expected t d
      (backend.dirPages (t.inode d).objectPath outputs) at hall
    rw [← expected_clean_iff hlists.objects, ← hall]
    refine ⟨fun h => ⟨fun name hname => ?_, h.nodup⟩, fun h => ⟨fun e he => ?_, h.2⟩⟩
    · obtain ⟨e, he, rfl⟩ := List.mem_map.mp hname
      exact h.names e he
    · exact h.1 _ (List.mem_map_of_mem he)

instance (r : DirReader) : (e : DirReaderStep) → Decidable (FollowsLast r e)
  | .call offset _ _ => inferInstanceAs (Decidable (offset = r.offset))
  | .listed .. | .other .. => .isTrue trivial

instance (P : FileTree → FileTree → Prop) [∀ t t', Decidable (P t t')] (r : DirReader) :
    (e : DirReaderStep) → Decidable (Others P cfg r e)
  | .other s => inferInstanceAs (Decidable (∀ t' ∈ r.tree.step cfg s, P r.tree t'))
  | .call .. | .listed .. => .isTrue trivial

instance (source : EntrySource) (t t' : FileTree) :
    Decidable (Leaves pages manifest d fh source t t') := by
  cases source with
  | listing => exact inferInstanceAs (Decidable (Undisturbed _ _ _ _ _))
  | bpTree => exact inferInstanceAs (Decidable (_ ∧ _))
  | manifest => exact inferInstanceAs (Decidable (Undisturbed _ _ _ _ _))

instance (name : String) : Decidable (NameOk name) := inferInstanceAs (Decidable (_ ∧ _))

/-- Objects behind a prefix. -/
def underPrefix : S3Backend := ⟨"bucket", "p/"⟩

/-- An object of a name in the directory. -/
def s3Object (key : String) : S3Object := ⟨key, "\"e\"", 1, 1⟩

/-- Two pages, one with a file and one with a subdirectory. -/
def fileThenSubdirectory : List S3ListObjectsV2Output :=
  [⟨[s3Object "p/a"], [], some "1"⟩, ⟨[], ["p/s/"], none⟩]

/-- The page that a token stands for. -/
def answerOf (outputs : List S3ListObjectsV2Output) (input : S3ListObjectsV2Input) :
    Option S3ListObjectsV2Output :=
  match input.continuationToken with
  | none => outputs.head?
  | some token => ((outputs.dropWhile fun output =>
      output.nextContinuationToken ≠ some token).drop 1).head?

/-- The listing of a directory in the bucket. -/
def listOf (outputs : List S3ListObjectsV2Output) (token : String) : ListDirectoryOutput :=
  (underPrefix.listDirectory (answerOf outputs) (listDirectoryInput 0 "" token)).getD
    ⟨[], [], "", false⟩

theorem listOf_listed {outputs : List S3ListObjectsV2Output} (token : String)
    (page : ListDirectoryOutput) (h : underPrefix.listDirectory (answerOf outputs)
      (listDirectoryInput 0 "" token) = some page) : listOf outputs token = page := by
  unfold listOf
  rw [h]
  rfl

/-- Everything is read, while somebody asks for the attributes of the directory. -/
def readToEnd : List DirReaderStep :=
  [.call 0 4096 id, .listed true id, .other ⟨.doGetAttr 3, id⟩, .listed true id, .call 4 4096 id]

/-- The run theorem at two pages read to the end. -/
theorem entryNamesOk_twoPages : ∃ t r,
    exec (FileTree.step anyTimes) (initial 0) mountAndOpen = some t ∧
    exec (stepPlus anyTimes (listOf fileThenSubdirectory) 3 4 true [])
      (start t) readToEnd = some r ∧
    r.ended = true ∧ r.got.map DirEnt.name = ["a", "s", ".", ".."] ∧ EntryNamesOk r := by
  obtain ⟨t, ht, hopen, hpath, hsource, hexpected, hfollows, hleaves, hevents⟩ : ∃ t,
      exec (FileTree.step anyTimes) (initial 0) mountAndOpen = some t ∧ Opened 3 4 t ∧
        (t.inode 3).objectPath = "" ∧
        entrySource true [] t 4 = .listing ∧
        expected t 3 (underPrefix.dirPages "" fileThenSubdirectory) = ["a", "s", ".", ".."] ∧
        Always (stepPlus anyTimes (listOf fileThenSubdirectory) 3 4 true []) FollowsLast (start t)
          readToEnd ∧
        Always (stepPlus anyTimes (listOf fileThenSubdirectory) 3 4 true [])
          (Others (Leaves (underPrefix.dirPages "" fileThenSubdirectory) [] 3 4
            (entrySource true [] t 4)) anyTimes) (start t) readToEnd ∧
        (exec (stepPlus anyTimes (listOf fileThenSubdirectory) 3 4 true []) (start t) readToEnd).any
          (fun r => decide (r.ended = true ∧ r.got.map DirEnt.name = ["a", "s", ".", ".."])) =
            true :=
    exec_exists (by decide +kernel)
  obtain ⟨r, hr, hended, hgot⟩ := exec_exists hevents
  have hobjects : ListsObjects {"p/a", "p/s/x"} (underPrefix.fullDirPath "") fileThenSubdirectory :=
    ⟨by decide +kernel, by decide +kernel⟩
  have hlists : underPrefix.ListsDirectory (answerOf fileThenSubdirectory) {"p/a", "p/s/x"} 0
      (t.inode 3).objectPath (listOf fileThenSubdirectory) fileThenSubdirectory := by
    rw [hpath]
    exact ⟨listOf_listed, .more rfl rfl (by decide) (.last rfl rfl), hobjects⟩
  have hdots : NoDots {"p/a", "p/s/x"} (underPrefix.fullDirPath "") :=
    (noDots_iff hobjects).mpr (by decide +kernel)
  have hclean : CleanListing {"p/a", "p/s/x"} (underPrefix.fullDirPath "") t 3 := by
    rw [← expected_clean_iff hobjects, hexpected]
    decide
  refine ⟨t, r, ht, hr, hended, hgot,
    (entryNamesOk_of_run ht hopen hlists hr hfollows (by rw [hpath]; exact hleaves)).1 ?_⟩
  rw [hsource, hpath]
  exact ⟨hdots, hclean⟩

/-- An object is the directory itself, another one is in a component without a name, and a
third one has the name of a subdirectory. -/
def markerAndPrefix : List S3ListObjectsV2Output :=
  [⟨[s3Object "p/", s3Object "p/x"], ["p//", "p/x/"], none⟩]

/-- Everything is read. -/
def readPage : List DirReaderStep := [.call 0 4096 id, .listed true id, .call 6 4096 id]

/-- Two entries have no name, and two have the same one. -/
theorem markerAndPrefix_names : ∃ t,
    exec (FileTree.step anyTimes) (initial 0) mountAndOpen = some t ∧ Opened 3 4 t ∧
    underPrefix.ListsDirectory (answerOf markerAndPrefix) {"p/", "p//z", "p/x", "p/x/y"} 0
      (t.inode 3).objectPath (listOf markerAndPrefix) markerAndPrefix ∧
    (∃ r, exec (stepPlus anyTimes (listOf markerAndPrefix) 3 4 false [])
      (start t) readPage = some r ∧
      r.ended = true ∧ r.got.map DirEnt.name = ["", "x", "", "x", ".", ".."] ∧ ¬EntryNamesOk r) ∧
    ∃ r, exec (stepPlus anyTimes (listOf markerAndPrefix) 3 4 true []) (start t) readPage = some r ∧
      r.ended = true ∧ r.got.map DirEnt.name = ["", "x", "", "x", ".", ".."] ∧ ¬EntryNamesOk r := by
  obtain ⟨t, ht, hopen, hpath, hevents, hevents'⟩ : ∃ t,
      exec (FileTree.step anyTimes) (initial 0) mountAndOpen = some t ∧ Opened 3 4 t ∧
        (t.inode 3).objectPath = "" ∧
        (exec (stepPlus anyTimes (listOf markerAndPrefix) 3 4 false []) (start t) readPage).any
          (fun r => decide (r.ended = true ∧
            r.got.map DirEnt.name = ["", "x", "", "x", ".", ".."])) = true ∧
        (exec (stepPlus anyTimes (listOf markerAndPrefix) 3 4 true []) (start t) readPage).any
          (fun r => decide (r.ended = true ∧
            r.got.map DirEnt.name = ["", "x", "", "x", ".", ".."])) = true :=
    exec_exists (by decide +kernel)
  obtain ⟨r, hr, hended, hgot⟩ := exec_exists hevents
  obtain ⟨r', hr', hended', hgot'⟩ := exec_exists hevents'
  have hnot : ∀ {r : DirReader}, r.got.map DirEnt.name = ["", "x", "", "x", ".", ".."] →
      ¬EntryNamesOk r := by
    intro r hgot hok
    have hnodup := hok.nodup
    rw [hgot] at hnodup
    exact absurd hnodup (by decide)
  refine ⟨t, ht, hopen, ?_, ⟨r, hr, hended, hgot, hnot hgot⟩, r', hr', hended', hgot', hnot hgot'⟩
  rw [hpath]
  exact ⟨listOf_listed, .last rfl rfl, by decide +kernel, by decide +kernel⟩

end DirReader

end MultiStorageFileSystem
