/-
MultiStorageClient/FileTreePlusReads.lean

`DoReadDirPlus` where nothing is listed: by the phys entries of a directory of a
read-only backend, or by a manifest part.

Both loops go over the virt entries first.  The first one only reads, so it serves
the entries as they are (`readDir_servesBPTree`).  The second one finds or creates
the children of the manifest, which may take virt entries away while the offsets are
counted from behind them; where the manifest has no name of a virt entry the virt
entries stay (`readDir_servesManifest`).
-/
import MultiStorageClient.FileTreeListings

namespace MultiStorageFileSystem

open Prog

namespace FileTree

variable {t t' : FileTree} {d : ℕ} {name : String}

/-- The names of the phys entries of a directory. -/
def physNames (t : FileTree) (d : ℕ) : List String := (t.shardFor d).names d

theorem mem_physNames : name ∈ t.physNames d ↔ t.physGet d name ≠ none := DirEntries.mem_names

theorem physNames_nodup : (t.physNames d).Nodup := DirEntries.names_sorted.imp ne_of_lt

theorem physNames_of_names (hn : t'.names = t.names) : t'.physNames d = t.physNames d := by
  have hall : t'.physNames d = (t.physNames d).filter fun _ => true := by
    apply DirEntries.names_eq_filter
    intro name
    show t'.physGet d name ≠ none ↔ _
    rw [show t'.physGet = t.physGet from congrFun (congrArg Names.entry hn) false]
    exact (and_iff_left rfl).symm
  rw [hall, List.filter_true]

end FileTree

namespace TreeSection

open FileTree

variable (cfg : TreeConfig) {left : Prop} {off : ℕ → Prop} {t t' : FileTree} {d fh : ℕ} {f : Fh}
  {call : ReadDirCall} {name : String}

/-- The entry at a position in the phys entries of a directory. -/
theorem physByIndex_names {k : ℕ} (h : (t.physNames d)[k]? = some name) :
    ∃ i, (t.shardFor d).byIndex (((t.shardFor d).indexRange d).1 + k) = some (name, i) := by
  obtain ⟨i, hindex, -⟩ := DirEntries.byIndex_of_names h
  exact ⟨i, hindex⟩

/-- The inode of a virt entry is there. -/
theorem virtByIndex_inode {k : ℕ} (h : t.Ok left NoneBare off) (hdir : BackendDir t d)
    (hv : (t.virtNames d)[k]? = some name) :
    ∃ i, t.virtChildDirEntryMap.byIndex ((t.virtChildDirEntryMap.indexRange d).1 + k) =
      some (name, i) ∧ t.inodeMap i = true ∧ ¬t.names.Pending i := by
  obtain ⟨i, hindex, hfind⟩ := virtByIndex_find h hv
  obtain ⟨hi, hnp⟩ := h.names.find_inode hdir.inodeMap hdir.isDir hfind
  exact ⟨i, hindex, hi, hnp⟩

/-! ### By the phys entries -/

variable (call) in
/-- **The loop over the phys entries** serves the virt entries and then these. -/
theorem readBPTreeFrom_serves (turns : ℕ) (h : t.Ok left NoneBare off) (hdir : BackendDir t d)
    (hturns : turns = (t.virtNames d ++ t.physNames d).length - call.curOffset) :
    ∃ call', runs (readBPTreeFrom cfg d (t.virtChildDirEntryMap.indexRange d).1
        ((t.shardFor d).indexRange d).1 (t.virtNames d).length turns call) t =
          (.ok (.entries call'.dirEnt), t) ∧
      Serves cfg (fun _ => false) (t.virtNames d ++ t.physNames d) call call' := by
  induction turns generalizing call with
  | zero => exact ⟨call, rfl, .refl call⟩
  | succ turns ih =>
      have hlt : call.curOffset < (t.virtNames d ++ t.physNames d).length := by omega
      have hnext :
          turns = (t.virtNames d ++ t.physNames d).length - (call.curOffset + 1) := by omega
      unfold readBPTreeFrom
      dsimp only
      -- the virtual entries come first
      by_cases hvirt : call.curOffset < (t.virtNames d).length
      · have hv := List.getElem?_eq_getElem hvirt
        obtain ⟨i, hindex, hi, hnp⟩ := virtByIndex_inode h hdir hv
        have hname : (t.virtNames d ++ t.physNames d)[call.curOffset]? = some _ :=
          (List.getElem?_append_left hvirt).trans hv
        rw [if_pos hvirt, runs_bind, runs_virtByIndex, andThen_ok, hindex]
        dsimp only
        rw [runs_bind, runs_inodeGet, andThen_ok, if_pos hi, runs_bind,
          runs_appendToReadDirOut cfg h hi hnp]
        split
        · exact ⟨call, rfl, .refl call⟩
        next hroom =>
          obtain ⟨call', hrun, hserves⟩ := ih (added cfg
            { call with curOffset := call.curOffset + 1 }
            (t.inode i).inodeType.dirEntType i _) hnext
          exact ⟨call', hrun, .add _ i hname rfl (not_lt.mp hroom) hserves⟩
      -- then the physical ones
      · rw [not_lt] at hvirt
        have hp : (t.physNames d)[call.curOffset - (t.virtNames d).length]? = some _ :=
          List.getElem?_eq_getElem (by rw [List.length_append] at hlt; omega)
        obtain ⟨i, hindex⟩ := physByIndex_names hp
        have hname : (t.virtNames d ++ t.physNames d)[call.curOffset]? = some _ :=
          (List.getElem?_append_right hvirt).trans hp
        rw [if_neg (not_lt.mpr hvirt), runs_bind, runs_physByIndex, andThen_ok, hindex]
        dsimp only
        split
        · exact ⟨call, rfl, .refl call⟩
        next hroom =>
          obtain ⟨call', hrun, hserves⟩ := ih (added cfg
            { call with curOffset := call.curOffset + 1 } InodeType.FileObject.dirEntType i _) hnext
          exact ⟨call', hrun, .add _ i hname rfl (not_lt.mp hroom) hserves⟩

variable (call) in
/-- **`DoReadDirPlus`** on a handle that is served by the phys entries. -/
theorem readDir_servesBPTree (manifest : List ManifestPartEntry) (h : t.Ok left NoneBare off)
    (hr : Reads t d fh f) (hplus : call.plus = true) (hbp : f.serveFromBPTree = true) :
    ∃ t' call', runs (readDir cfg d fh manifest call) t = (.ok (.entries call'.dirEnt), t') ∧
      t'.Ok left NoneBare off ∧ Reads t' d fh f ∧ t'.names = t.names ∧
      Serves cfg (fun _ => false) (t.virtNames d ++ t.physNames d) call call' := by
  obtain ⟨t₁, hok₁, hr₁, hnames, -, hrun⟩ := runs_readDir cfg manifest call h hr
  obtain ⟨call', hloop, hserves⟩ := readBPTreeFrom_serves cfg call _ hok₁ hr₁.dir rfl
  refine ⟨t₁, call', ?_, hok₁, hr₁, hnames, ?_⟩
  · rw [hrun]
    dsimp only
    rw [if_pos (by rw [hplus, hbp]; rfl), runs_bind, runs_physIndexRange, andThen_ok, ← hloop,
      List.length_append, Nat.add_comm (t₁.virtNames d).length, virtNames, physNames,
      DirEntries.length_names, DirEntries.length_names]
  · rw [virtNames_of_names hnames, physNames_of_names hnames] at hserves
    exact hserves

/-! ### By a manifest part -/

variable {entries : List ManifestPartEntry}

/-- The names of a manifest part. -/
def manifestNames (entries : List ManifestPartEntry) : List String :=
  entries.map ManifestPartEntry.basename

/-- The unlinked files of a manifest part. -/
def manifestUnlinked (entries : List ManifestPartEntry) (unlinked : String → Bool) (n : String) :
    Bool := decide (n ∈ manifestNames entries) && unlinked n

/-- What the loop over a manifest part does, and that what is seen of the directory
stays. -/
def ServesManifest (d fh : ℕ) (f : Fh) (entries : List ManifestPartEntry) (t : FileTree)
    (call : ReadDirCall) (r : Reply) (t' : FileTree) : Prop :=
  Reads t' d fh f ∧ t'.virtNames d = t.virtNames d ∧ t'.unlinked d = t.unlinked d ∧
    ∃ call', r = .entries call'.dirEnt ∧ Serves cfg (manifestUnlinked entries (t.unlinked d))
      (t.virtNames d ++ manifestNames entries) call call'

theorem ServesManifest.refl (hr : Reads t d fh f) :
    ServesManifest cfg d fh f entries t call (.entries call.dirEnt) t :=
  ⟨hr, rfl, rfl, call, rfl, .refl call⟩

/-- A child of a manifest part that has no virt entry. -/
theorem manifestChild_ok {entry : ManifestPartEntry} (h : t.Ok left NoneBare off)
    (hr : Reads t d fh f) (hdot : ¬IsDot entry.basename) (hvirt : entry.basename ∉ t.virtNames d) :
    EndsIn (fun r t' => t'.Ok left NoneBare off ∧ Reads t' d fh f ∧
        t'.virtNames d = t.virtNames d ∧ t'.unlinked d = t.unlinked d ∧
        r.1 = entry.basename ∧ t'.inodeMap r.2 ∧ ¬t'.names.Pending r.2 ∧
        (t'.globals.use r.2).pendingDelete = t.unlinked d entry.basename)
      (fun _ => False) (runs (listedChild cfg (if entry.isDir then
        findChildDirInode cfg d entry.basename
        else findChildFileInode cfg d entry.basename entry.info)) t) := by
  have hchild : EndsIn (fun i t' => t'.Ok left NoneBare off ∧
      Hit (fun d' n => d' = d ∧ n = entry.basename) t t' d entry.basename i)
      (fun _ => False) (runs (if entry.isDir then findChildDirInode cfg d entry.basename
        else findChildFileInode cfg d entry.basename entry.info) t) := by
    split
    · exact findChildDirInode_ok cfg h hr.dir
    · exact findChildFileInode_ok cfg h hr.dir entry.info
  refine (listedChild_ok cfg h hr.dir hchild).mono
    (fun r t' ⟨hok, _, hi, hnp, hch⟩ => ?_) fun _ => id
  obtain ⟨hname, hch⟩ := hch hdot
  refine ⟨hok, hr.of_globals hch.seen.dir hch.seen.globals, ?_, funext hch.seen.unlinked, hname,
    hi, hnp, hch.pendingDelete⟩
  -- a virtual entry of this name has become physical, if there was one
  have hall : t'.virtNames d = (t.virtNames d).filter fun _ => true := by
    apply virtNames_eq_filter
    intro n
    rw [hch.virt n]
    split
    next hn =>
      rw [mem_virtNames, not_not] at hvirt
      rw [hn, hvirt]
      exact iff_of_false (fun hne => hne rfl) fun hne => hne.1 rfl
    next => exact (and_iff_left rfl).symm
  rw [hall, List.filter_true]

/-- **The loop over a manifest part**, behind the virt entries. -/
theorem readManifestFrom_servesEntries (turns : ℕ) {start : ℕ} (h : t.Ok left NoneBare off)
    (hr : Reads t d fh f) (hdots : ∀ n ∈ manifestNames entries, ¬IsDot n)
    (hvirt : ∀ n ∈ manifestNames entries, n ∉ t.virtNames d)
    (hle : (t.virtNames d).length ≤ call.curOffset) :
    EndsIn (fun r t' => t'.Ok left NoneBare off ∧ ServesManifest cfg d fh f entries t call r t')
      (fun _ => False)
      (runs (readManifestFrom cfg d start (t.virtNames d).length entries turns call) t) := by
  induction turns generalizing t call with
  | zero => exact ⟨h, .refl cfg hr⟩
  | succ turns ih =>
      unfold readManifestFrom
      dsimp only
      rw [if_neg (not_lt.mpr hle)]
      cases hentry : entries[call.curOffset - (t.virtNames d).length]? with
      | none => exact ⟨h, .refl cfg hr⟩
      | some entry =>
          have hmem : entry.basename ∈ manifestNames entries :=
            List.mem_map_of_mem (List.mem_of_getElem? hentry)
          have hname : (t.virtNames d ++ manifestNames entries)[call.curOffset]? =
              some entry.basename := by
            rw [List.getElem?_append_right hle, manifestNames, List.getElem?_map, hentry]
            rfl
          have hu : manifestUnlinked entries (t.unlinked d) entry.basename =
              t.unlinked d entry.basename := by
            unfold manifestUnlinked
            rw [decide_eq_true hmem, Bool.true_and]
          dsimp only
          rw [runs_bind]
          refine (manifestChild_ok cfg h hr (hdots _ hmem) (hvirt _ hmem)).andThen
            fun child t₁ hchild => ?_
          obtain ⟨name, i⟩ := child
          obtain ⟨hok, hr₁, hv₁, hu₁, hr1, hi, hnp, hpd⟩ := hchild
          obtain rfl : name = entry.basename := hr1
          -- the rest of the loop, from the next offset on
          have hrest : ∀ call₁ : ReadDirCall, call₁.curOffset = call.curOffset + 1 →
              EndsIn (fun r t' => t'.Ok left NoneBare off ∧
                  ServesManifest cfg d fh f entries t₁ call₁ r t') (fun _ => False)
                (runs (readManifestFrom cfg d start (t.virtNames d).length entries turns call₁)
                  t₁) := by
            intro call₁ hcur
            rw [← hv₁]
            exact ih hok hr₁ (by rw [hv₁]; exact hvirt) (by rw [hv₁, hcur]; omega)
          have hsame : ∀ {call₁ : ReadDirCall} {r : Reply} {t' : FileTree},
              ServesManifest cfg d fh f entries t₁ call₁ r t' →
              Reads t' d fh f ∧ t'.virtNames d = t.virtNames d ∧ t'.unlinked d = t.unlinked d ∧
                ∃ call', r = .entries call'.dirEnt ∧
                  Serves cfg (manifestUnlinked entries (t.unlinked d))
                    (t.virtNames d ++ manifestNames entries) call₁ call' := by
            rintro call₁ r t' ⟨hr', hv', hu', call', hreply, hserves⟩
            rw [hu₁, hv₁] at hserves
            exact ⟨hr', hv'.trans hv₁, hu'.trans hu₁, call', hreply, hserves⟩
          rw [runs_bind, runs_globals, andThen_ok, hpd]
          cases hul : t.unlinked d entry.basename with
          | true =>
              refine (hrest _ rfl).mono (fun r t' hend => ⟨hend.1, ?_⟩) fun _ => id
              obtain ⟨hr', hv', hu', call', hreply, hserves⟩ := hsame hend.2
              exact ⟨hr', hv', hu', call', hreply, .skip hname (hu.trans hul) hserves⟩
          | false =>
              rw [if_neg Bool.false_ne_true, runs_bind, runs_appendToReadDirOut cfg hok hi hnp]
              split
              · exact ⟨hok, hr₁, hv₁, hu₁, call, rfl, .refl call⟩
              next hroom =>
                refine (hrest _ rfl).mono (fun r t' hend => ⟨hend.1, ?_⟩) fun _ => id
                obtain ⟨hr', hv', hu', call', hreply, hserves⟩ := hsame hend.2
                exact ⟨hr', hv', hu', call', hreply,
                  .add _ i hname (hu.trans hul) (not_lt.mp hroom) hserves⟩

variable (call) in
/-- **The loop over a manifest part** serves the virt entries and then its own. -/
theorem readManifestFrom_serves (turns : ℕ) (h : t.Ok left NoneBare off) (hr : Reads t d fh f)
    (hdots : ∀ n ∈ manifestNames entries, ¬IsDot n)
    (hvirt : ∀ n ∈ manifestNames entries, n ∉ t.virtNames d) :
    EndsIn (fun r t' => t'.Ok left NoneBare off ∧ ServesManifest cfg d fh f entries t call r t')
      (fun _ => False) (runs (readManifestFrom cfg d (t.virtChildDirEntryMap.indexRange d).1
        (t.virtNames d).length entries turns call) t) := by
  induction turns generalizing call with
  | zero => exact ⟨h, .refl cfg hr⟩
  | succ turns ih =>
      by_cases hlt : call.curOffset < (t.virtNames d).length
      -- the virtual entries come first
      · have hv := List.getElem?_eq_getElem hlt
        obtain ⟨i, hindex, hi, hnp⟩ := virtByIndex_inode h hr.dir hv
        have hname : (t.virtNames d ++ manifestNames entries)[call.curOffset]? = some _ :=
          (List.getElem?_append_left hlt).trans hv
        have hu : manifestUnlinked entries (t.unlinked d) (t.virtNames d)[call.curOffset] =
          false := by
          unfold manifestUnlinked
          rw [decide_eq_false fun hmem => hvirt _ hmem (List.getElem_mem hlt), Bool.false_and]
        unfold readManifestFrom
        dsimp only
        rw [if_pos hlt, runs_bind, runs_virtByIndex, andThen_ok, hindex]
        dsimp only
        rw [runs_bind, runs_inodeGet, andThen_ok, if_pos hi, runs_bind,
          runs_appendToReadDirOut cfg h hi hnp]
        split
        · exact ⟨h, .refl cfg hr⟩
        next hroom =>
          refine (ih _).mono (fun r t' hend => ?_) fun _ => id
          obtain ⟨hok', hr', hv', hu', call', hreply, hserves⟩ := hend
          refine ⟨hok', hr', hv', hu', call', hreply, ?_⟩
          exact .add _ i hname hu (not_lt.mp hroom) hserves
      -- from there on it is the entries of the manifest
      · exact readManifestFrom_servesEntries cfg (turns + 1) h hr hdots hvirt (not_lt.mp hlt)

variable (call) in
/-- **`DoReadDirPlus`** on a handle that is served by a manifest part. -/
theorem readDir_servesManifest (h : t.Ok left NoneBare off) (hr : Reads t d fh f)
    (hplus : call.plus = true) (hbp : f.serveFromBPTree = false)
    (hentries : f.manifestEntries = none ∧ entries ≠ [] ∨ f.manifestEntries = some entries)
    (hdots : ∀ n ∈ manifestNames entries, ¬IsDot n)
    (hvirt : ∀ n ∈ manifestNames entries, n ∉ t.virtNames d) :
    EndsIn (fun r t' => t'.Ok left NoneBare off ∧
        ServesManifest cfg d fh { f with manifestEntries := some entries } entries t call r t')
      (fun _ => False) (runs (readDir cfg d fh entries call) t) := by
  obtain ⟨t₁, hok₁, hr₁, hnames, hcalm, hrun⟩ := runs_readDir cfg entries call h hr
  have hv₁ : t₁.virtNames d = t.virtNames d := virtNames_of_names hnames
  have hu₁ : t₁.unlinked d = t.unlinked d := funext (hcalm []).unlinked
  -- the entries are loaded now, or have been before
  have hloaded : (if f.manifestEntries.isNone && !entries.isEmpty then some entries
      else f.manifestEntries) = some entries := by
    rcases hentries with ⟨hnone, hne⟩ | hsome
    · rw [hnone, List.isEmpty_eq_false_iff.mpr hne]
      rfl
    · rw [hsome]
      rfl
  have hok₂ := setFh_ok hok₁ hr₁.fhMap { f with manifestEntries := some entries } rfl
    (hok₁.calls.pages fh f hr₁.fhMap) (hok₁.calls.listing fh f hr₁.fhMap)
  have hr₂ := hr₁.setFh { f with manifestEntries := some entries }
  rw [hrun]
  dsimp only
  rw [if_neg (by rw [hbp, Bool.and_false]; exact Bool.false_ne_true), hloaded,
    if_pos (by rw [hplus]; rfl), runs_bind, runs_modify, andThen_ok, ← DirEntries.length_names]
  have hloop := readManifestFrom_serves cfg call
    ((t₁.virtNames d).length + entries.length - call.curOffset) hok₂ hr₂ hdots
    (by
      show ∀ n ∈ _, n ∉ t₁.virtNames d
      rw [hv₁]
      exact hvirt)
  refine hloop.mono (fun r t' ⟨hok', hr', hv', hu', call', hreply, hserves⟩ =>
    ⟨hok', hr', hv'.trans hv₁, hu'.trans hu₁, call', hreply, ?_⟩) fun _ => id
  change Serves cfg (manifestUnlinked entries (t₁.unlinked d))
    (t₁.virtNames d ++ _) call call' at hserves
  rw [hu₁, hv₁] at hserves
  exact hserves

end TreeSection

end MultiStorageFileSystem
