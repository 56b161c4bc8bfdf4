/-
MultiStorageClient/FileTreeRemoves.lean

Inodes that go: `removeInode`, the evictor, `finishPendingDelete` and `DoRmDir`.

An inode goes in four steps: it leaves the queue, loses its entry, leaves
`inodeMap`, and its parent is touched.  The steps are taken together
(`removeInode_ok`), as the invariant does not hold between them.
-/
import MultiStorageClient.FileTreeHandles

namespace MultiStorageFileSystem

open Prog

namespace NamesOk

variable {bare : ℕ → Prop} {n : Names} {i : ℕ}

/-- A file has no entries. -/
theorem file_entry (h : NamesOk bare n) (htype : (n.inode i).inodeType = .FileObject) (b : Bool)
    (name : String) : n.entry b i name = none := by
  by_contra hne
  obtain ⟨j, hj⟩ := Option.ne_none_iff_exists'.mp hne
  by_cases hdot : b = true → ¬IsDot name
  · obtain ⟨hpres, hroot, hpend, hpar, -⟩ := h.entry _ _ _ _ hj hdot
    exact (h.parent j hpres hroot hpend).2.1 (hpar ▸ htype)
  · obtain ⟨rfl, hname⟩ : b = true ∧ IsDot name := by
      simpa only [Classical.not_imp, not_not] using hdot
    exact (h.dotEntry _ _ _ hj hname).1 htype

/-- An inode that is not that of a backend can go, if it has no children. -/
theorem removes (h : NamesOk bare n) (hi : n.inodeMap i) (hnp : ¬n.Pending i)
    (htype : (n.inode i).inodeType = .FileObject ∨ (n.inode i).inodeType = .PseudoDir)
    (hempty : ∀ b name, n.entry b i name ≠ none → b = true ∧ IsDot name) :
    Removes n i n.backendMap := by
  refine ⟨hi, h.notRoot_of_type ?_, hnp, hempty, fun _ _ _ _ => rfl, fun nonce b hb => ⟨hb, ?_⟩⟩
  · rcases htype with htype | htype <;> rw [htype] <;> decide
  · rintro rfl
    have hroot := (h.mounted nonce b hb).2.1
    rcases htype with htype | htype <;> exact absurd (htype.symm.trans hroot) (by decide)

end NamesOk

namespace FileTree

variable {left : Prop} {off : ℕ → Prop} {t t' : FileTree} {i d : ℕ} {name : String} {b : Bool}

/-- An inode without its entry and out of `inodeMap`. -/
def gone (t : FileTree) (i : ℕ) : FileTree :=
  (t.deleteEntry (t.inode i).isVirt (t.inode i).parentInodeNumber
    (t.inode i).basename).inodeDelete i

theorem deleteEntry_rest (t : FileTree) (b : Bool) (d : ℕ) (name : String) :
    ∃ phys virt, t.deleteEntry b d name =
    { t with physShards := phys, virtChildDirEntryMap := virt } := by
  cases b
  · exact ⟨_, _, rfl⟩
  · exact ⟨_, _, rfl⟩

/-- The names without an inode. -/
theorem names_gone : (t.gone i).names = t.names.remove i t.globals.backendMap := by
  obtain ⟨phys, virt, heq⟩ := deleteEntry_rest t (t.inode i).isVirt
    (t.inode i).parentInodeNumber (t.inode i).basename
  have hn : (t.gone i).names = { (t.deleteEntry (t.inode i).isVirt (t.inode i).parentInodeNumber
      (t.inode i).basename).names with inodeMap := Function.update t.inodeMap i false } := by
    unfold gone
    rw [heq]
    rfl
  rw [hn, names_deleteEntry]
  rfl

/-- The inode that the evictor takes. -/
def evictee (t : FileTree) (now : Option ℕ) : Option ℕ :=
  ((t.inodeEvictionQueue.getByIndex 0).map fun e => ofLex e.1).bind fun (xTime, i) =>
    if now.any fun now => now < xTime then none else some i

/-- An inode has left the queue. -/
structure Dequeued (i : ℕ) (t t' : FileTree) : Prop where
  names : t'.names = t.names
  xTime : t'.xTime = t.xTime
  globals : t'.globals = t.globals
  phys : t'.physShards = t.physShards
  virt : t'.virtChildDirEntryMap = t.virtChildDirEntryMap
  queue : ∀ x j, t'.inodeEvictionQueue.get (toLex (x, j)) = some () ↔
    j ≠ i ∧ t.inodeEvictionQueue.get (toLex (x, j)) = some ()

/-- An inode out of the queue goes from all its places. -/
theorem removed_gone (hd : Dequeued i t t') :
    Removed t (t'.gone i) t.names i t.globals.backendMap := by
  obtain ⟨phys, virt, heq⟩ := deleteEntry_rest t' (t'.inode i).isVirt
    (t'.inode i).parentInodeNumber (t'.inode i).basename
  refine ⟨rfl, fun _ _ _ => id, ?_, fun j _ => ?_, fun x j => ?_, t.globals.now, ?_⟩
  · rw [names_gone, hd.names, hd.globals]
  · rw [← hd.xTime]
    unfold gone
    rw [heq]
    rfl
  · rw [← hd.queue]
    unfold gone
    rw [heq]
    rfl
  · rw [← hd.globals]
    unfold gone
    rw [heq]
    rfl

/-! ### What the removals tell apart -/

/-- The file is gone with its backend, and no line of it is being fetched. -/
def LosesFile (t : FileTree) (i : ℕ) : Prop :=
  ¬t.inodeMap i ∧ t.globals.hasInbound i = false

/-- Only the dots are in the directory. -/
def OnlyDots (t : FileTree) (d : ℕ) : Prop :=
  ∀ b name, t.names.entry b d name ≠ none → b = true ∧ IsDot name

/-- `DoRmDir` can remove the directory. -/
structure Removable (t : FileTree) (i : ℕ) : Prop where
  pseudoDir : (t.inode i).inodeType = .PseudoDir
  fhSet : (t.globals.use i).fhSet = []
  onlyDots : OnlyDots t i

theorem Removable.of_names (hr : Removable t i) (hn : t'.names = t.names)
    (huse : t'.globals.use = t.globals.use) : Removable t' i := by
  refine ⟨?_, ?_, ?_⟩
  · rw [show t'.inode = t.inode from congrArg Names.inode hn]
    exact hr.pseudoDir
  · rw [huse]
    exact hr.fhSet
  · rw [OnlyDots, hn]
    exact hr.onlyDots

/-- `DoRmDir` of the dot of a directory that could be removed. -/
def RemovesItself (t : FileTree) (p : ℕ) (name : String) : Prop :=
  name = DotDirEntryBasename ∧ t.inodeMap p ∧ Removable t p ∧
    (t.globals.backendMap (t.inode p).backendNonce).any Backend.readOnly = false

/-- A directory of a backend that is not read-only. -/
def WritableDir (t : FileTree) (p : ℕ) : Prop :=
  t.inodeMap p ∧ (t.inode p).inodeType ≠ .FileObject ∧ (t.inode p).inodeType ≠ .FUSERootDir ∧
    (t.globals.backendMap (t.inode p).backendNonce).any Backend.readOnly = false

/-- `DoRmDir` comes to a directory that it can remove, or has just put into
`inodeMap`. -/
def Removes (t : FileTree) (p : ℕ) (name : String) (found : Found) : Prop :=
  WritableDir t p ∧ ((∃ i, t.names.find p name = some i ∧ Removable t i) ∨
    t.names.find p name = none ∧ found.inodeType = some .PseudoDir)

/-- `DoRmDir` comes to a file that it has just put into `inodeMap`. -/
def CreatesFile (t : FileTree) (p : ℕ) (name : String) (found : Found) : Prop :=
  WritableDir t p ∧ t.names.find p name = none ∧ found.inodeType = some .FileObject

/-- Inodes, entries and what the calls have are as they were; the time has
passed. -/
def SameMaps (t t' : FileTree) : Prop :=
  t'.names = t.names ∧ ∃ now, t'.globals = { t.globals with now := now }

/-- What `DoRmDir` answers. -/
def RmDirAnswers (t : FileTree) (p : ℕ) (name : String) (found : Found) : Reply → FileTree → Prop
  | .done, _ => Removes t p name found ∧ ¬RemovesItself t p name
  | .errno _, t' => ¬Removes t p name found ∧ (SameMaps t t' ↔ ¬CreatesFile t p name found)
  | _, _ => False

end FileTree

namespace TreeSection

open FileTree

variable (cfg : TreeConfig) {left : Prop} {off : ℕ → Prop} {t t' : FileTree} {i : ℕ}

/-- `removeInode` up to its touch. -/
theorem runs_removeInode (h : NamesOk NoneBare t.names) (hi : t.inodeMap i)
    (hroot : i ≠ FUSERootDirInodeNumber) (hnp : ¬t.names.Pending i) :
    runs (removeInode cfg i) t = runs (touch cfg (t.inode i).parentInodeNumber) (t.gone i) := by
  obtain ⟨hent, -⟩ := h.entered i hi hroot hnp
  have hpar : t.inodeMap (t.inode i).parentInodeNumber = true := (h.parent i hi hroot hnp).1
  have hdel : runs (deleteEntry (t.inode i).isVirt (t.inode i).parentInodeNumber
      (t.inode i).basename) t = _ := runs_deleteEntry hent
  have hmap : (t.deleteEntry (t.inode i).isVirt (t.inode i).parentInodeNumber
      (t.inode i).basename).inodeMap i = true := by
    obtain ⟨phys, virt, heq⟩ := deleteEntry_rest t (t.inode i).isVirt
      (t.inode i).parentInodeNumber (t.inode i).basename
    rw [heq]
    exact hi
  simp only [removeInode, runs_bind, runs_deref, andThen_ok, runs_inodeGet, hpar,
    runs_orFatalf_true, hdel, runs_inodeDelete, hmap, if_true]
  rfl

/-- **An inode is removed**, and its parent is touched. -/
theorem removeInode_ok (h : t.Ok left NoneBare off) (hd : Dequeued i t t') (hi : t.inodeMap i)
    (hnp : ¬t.names.Pending i)
    (htype : (t.inode i).inodeType = .FileObject ∨ (t.inode i).inodeType = .PseudoDir)
    (hempty : ∀ b name, t.names.entry b i name ≠ none → b = true ∧ IsDot name)
    (hleft : left ∨ (t.inode i).inodeType = .FileObject) (hfh : (t.globals.use i).fhSet = [])
    (hpd : i ∉ t.globals.pendingDeletes) :
    ∃ t'', runs (removeInode cfg i) t' = (.ok (), t'') ∧ t''.Ok left NoneBare off ∧
      t''.names = t.names.remove i t.globals.backendMap ∧
      ∃ now, t''.globals = { t.globals with now := now } := by
  have r := h.names.removes hi hnp htype hempty
  have hr := removed_gone hd
  obtain ⟨now, hg⟩ := hr.globals
  have hok : (t'.gone i).Ok left NoneBare off := by
    refine ⟨(h.toTreeOk.remove h.names r hr ?_).mono_bare fun d hd => hd.1, ?_⟩
    · refine hleft.imp_right fun hfile name => h.names.file_entry hfile true name
    · rw [hr.names, hg]
      exact h.calls.remove hfh hpd now
  have hpar := h.names.parent i hi r.notRoot hnp
  have hmap : (t'.gone i).inodeMap (t.inode i).parentInodeNumber = true := by
    rw [show (t'.gone i).inodeMap = _ from congrArg Names.inodeMap hr.names]
    exact (Function.update_of_ne hpar.2.2.ne _ _).trans hpar.1
  have hnpp : ¬(t'.gone i).names.Pending (t.inode i).parentInodeNumber := by
    rw [hr.names]
    exact h.names.not_pending_of_isDir hpar.2.1
  obtain ⟨t'', hrun, ht, hok'⟩ := touch_ok cfg hok hmap hnpp
  have hinode : t'.inode = t.inode := congrArg Names.inode hd.names
  obtain ⟨now', hg'⟩ := ht.globals
  refine ⟨t'', ?_, hok'.off_mono fun j => And.left, ht.names.trans hr.names, now', ?_⟩
  · rw [runs_removeInode cfg (by rw [hd.names]; exact h.names)
      (by rw [show t'.inodeMap = t.inodeMap from congrArg Names.inodeMap hd.names]; exact hi)
      r.notRoot (by rw [hd.names]; exact hnp), hinode]
    exact hrun
  · rw [hg', hg]

/-! ### The evictor -/

/-- The clean lines of an inode are freed. -/
theorem freeCleanLines_ok (h : t.Ok left NoneBare off) :
    (t.modify fun g => g.freeCleanLines i).Ok left NoneBare off := by
  have hline : ∀ line ∈ (t.globals.freeCleanLines i).dataCacheLinesTracker,
      line.state = .inbound → line ∈ t.globals.dataCacheLinesTracker := by
    intro line hline hinbound
    obtain ⟨line', hmem, rfl⟩ := List.mem_map.mp hline
    split at hinbound
    · cases hinbound
    next hc =>
      rw [if_neg hc]
      exact hmem
  have hcount : ∀ j, inboundLines (t.globals.freeCleanLines i) j = inboundLines t.globals j := by
    intro j
    unfold inboundLines Globals.freeCleanLines
    rw [List.countP_map]
    apply List.countP_congr
    rintro line -
    simp only [Function.comp_apply]
    split
    next hc => simp [hc.2]
    · rfl
  have hc := h.calls
  refine h.modify _ rfl (fun _ ho => ⟨ho, id⟩) (fun j hj => ?_) ⟨hc.handle, hc.handle_nodup,
    hc.pages, hc.listing, hc.prefetch, hc.pendingDelete, hc.pendingDelete_nodup, fun j hj => ?_⟩
  · have hb := (h.blank j hj).2
    exact ⟨hb.use, hb.fhMap, fun line hmem heq hin => hb.line line (hline line hmem hin) heq hin⟩
  · rw [hcount]
    exact hc.lines j hj

@[simp] theorem runs_queueFront : runs queueFront t =
    (.ok ((t.inodeEvictionQueue.getByIndex 0).map fun e => ofLex e.1), t) := rfl

/-- What is first in the queue is idle. -/
theorem front_idle (h : t.Settled left) {x : ℕ}
    (hfront : (t.inodeEvictionQueue.getByIndex 0).map (fun e => ofLex e.1) = some (x, i)) :
    t.inodeMap i ∧ t.xTime i = some x ∧ Idle t.names t.globals i := by
  obtain ⟨⟨key, ⟨⟩⟩, hget, hkey⟩ := Option.map_eq_some_iff.mp hfront
  obtain rfl : key = toLex (x, i) := hkey
  obtain ⟨hi, hx⟩ := (h.queue x i).mp (SortedMap.get_of_getByIndex hget)
  exact ⟨hi, hx, h.idle i hi (by rw [hx]; exact Option.some_ne_none x) id⟩

/-- An idle inode is a file or a directory, not open, without children. -/
theorem idle_spec {n : Names} {g : Globals} (h : NamesOk NoneBare n) (hidle : Idle n g i) :
    ((n.inode i).inodeType = .FileObject ∨ (n.inode i).inodeType = .PseudoDir) ∧
      (g.use i).fhSet = [] ∧ ∀ b name, n.entry b i name ≠ none → b = true ∧ IsDot name := by
  unfold Idle at hidle
  split at hidle
  next htype =>
    exact ⟨.inl htype, hidle.2.1, fun b name hne => absurd (h.file_entry htype b name) hne⟩
  next htype => exact ⟨.inr htype, hidle⟩
  · exact hidle.elim

/-- The inode leaves the queue. -/
theorem dequeued_queueRemove {x : ℕ} (hx : t.xTime i = some x) (hq : t.QueueOk)
    (f : Globals → Globals) : Dequeued i (t.modify f) ((t.queueRemove i).modify f) := by
  refine ⟨rfl, rfl, rfl, rfl, rfl, fun y j => ?_⟩
  show (t.queueRemove i).inodeEvictionQueue.get _ = _ ↔ j ≠ i ∧ t.inodeEvictionQueue.get _ = _
  rw [queueRemove_get y j (by rw [hx]; rfl)]
  by_cases hji : j = i
  · subst hji
    refine iff_of_false (fun hget => ?_) fun hc => hc.1 rfl
    split at hget
    · cases hget
    next hne => exact hne ⟨((hq y j).mp hget).2.symm, rfl⟩
  · rw [if_neg fun hc => hji hc.2]
    exact ⟨fun hget => ⟨hji, hget⟩, And.right⟩

/-- **The evictor** takes an inode that nobody uses. -/
theorem evict_ok (h : t.Settled left) (now : Option ℕ)
    (hleft : left ∨ ∀ i ∈ t.evictee now, (t.inode i).inodeType ≠ .PseudoDir) :
    EndsIn (fun _ t' => t'.Settled left) (fun _ => False) (runs (evict cfg now) t) := by
  unfold evict
  rw [runs_bind, runs_queueFront, andThen_ok]
  cases hfront : (t.inodeEvictionQueue.getByIndex 0).map fun e => ofLex e.1 with
  | none => exact h
  | some e =>
      obtain ⟨x, i⟩ := e
      obtain ⟨hi, hx, hidle⟩ := front_idle h hfront
      -- the root is never in the queue, nor an inode that is pending
      have hroot : i ≠ FUSERootDirInodeNumber := by
        rintro rfl
        unfold Idle at hidle
        rw [h.names.rootInode.1] at hidle
        exact hidle
      have hnp : ¬t.names.Pending i := fun hp => by
        rw [(h.blank i (.inr hp)).1] at hx
        cases hx
      have hget := h.queue.isSome hi (by rw [hx]; rfl)
      have hnot := not_pendingDelete h hi fun hc => by
        unfold Idle at hidle
        rw [show (t.names.inode i).inodeType = .FileObject from hc.1] at hidle
        rw [hidle.1] at hc
        exact nomatch hc.2.1
      obtain ⟨htype, hfh, hempty⟩ := idle_spec h.names hidle
      dsimp only
      split
      -- not due yet
      · exact h
      next hdue =>
        -- directories are evicted only where that is allowed
        have hleft' : left ∨ (t.inode i).inodeType = .FileObject := by
          rcases htype with hfile | hdir
          · exact .inr hfile
          · refine .inl (hleft.resolve_right fun hno => hno i ?_ hdir)
            unfold evictee
            rw [hfront]
            exact if_neg hdue
        rw [runs_bind, runs_inodeGet, andThen_ok, hi, runs_bind, runs_orFatalf_true, andThen_ok,
          runs_bind, runs_queueRemove, if_pos hget, andThen_ok, runs_bind, runs_orFatalf_true,
          andThen_ok]
        have hremove : ∀ f : Globals → Globals, (t.modify f).Settled left →
            (f t.globals).backendMap = t.globals.backendMap →
            (f t.globals).pendingDeletes = t.globals.pendingDeletes →
            (f t.globals).use = t.globals.use →
            EndsIn (fun _ t' => t'.Settled left) (fun _ => False)
              (runs (do removeInode cfg i; pure Reply.done) ((t.queueRemove i).modify f)) := by
          intro f hok hb hpd huse
          have hd := dequeued_queueRemove hx h.queue f
          have hn := names_modify (t := t) hb
          obtain ⟨t'', hrun, hok'', -⟩ := removeInode_ok cfg hok hd hi (by rw [hn]; exact hnp) htype
            (by rw [hn]; exact hempty) hleft'
              (by rw [show (t.modify f).globals.use = _ from huse]; exact hfh)
            (by rw [show (t.modify f).globals.pendingDeletes = _ from hpd]; exact hnot)
          rw [runs_bind, hrun, andThen_ok]
          exact hok''
        unfold clearFileCacheLinesLocked
        rw [runs_bind, runs_bind, runs_deref, andThen_ok]
        split
        -- a file without inbound lines
        next hfile =>
          rw [runs_bind, runs_globals, andThen_ok]
          have hnone : t.globals.hasInbound i = false := by
            have hcount := h.calls.lines i hi
            unfold Idle at hidle
            rw [show (t.names.inode i).inodeType = .FileObject from hfile] at hidle
            rw [hidle.2.2] at hcount
            unfold inboundLines at hcount
            rw [List.countP_eq_zero] at hcount
            unfold Globals.hasInbound
            rw [List.any_eq_false]
            exact hcount
          rw [if_neg (by rw [show (t.queueRemove i).globals = t.globals from rfl, hnone]; nofun),
            runs_modify, andThen_ok]
          exact hremove (fun g => g.freeCleanLines i) (freeCleanLines_ok h) rfl rfl rfl
        · rw [runs_pure, andThen_ok]
          exact hremove id h rfl rfl rfl

/-! ### Unlinked files -/

/-- The file of a `finishPendingDelete` that ends. -/
theorem erasePendingDelete_ok (h : t.Ok left NoneBare off) :
    (t.modify fun g => g.erasePendingDelete i).Ok left NoneBare off := by
  have hc := h.calls
  refine h.modify _ rfl (fun _ ho => ⟨ho, id⟩) (fun j hj => ?_) ⟨hc.handle, hc.handle_nodup,
    hc.pages, hc.listing, hc.prefetch, fun j hj => hc.pendingDelete j (List.mem_of_mem_erase hj),
    hc.pendingDelete_nodup.erase i, hc.lines⟩
  exact ⟨(h.blank j hj).2.use, (h.blank j hj).2.fhMap, (h.blank j hj).2.line⟩

/-- The lines that are being fetched stay. -/
theorem hasInbound_freeCleanLines (g : Globals) (i : ℕ) :
    (g.freeCleanLines i).hasInbound i = g.hasInbound i := by
  unfold Globals.hasInbound Globals.freeCleanLines
  rw [List.any_map]
  congr 1
  funext line
  dsimp only [Function.comp]
  split
  next hc => simp [hc.1, hc.2]
  · rfl

/-- **`finishPendingDelete`** ends the process if the backend has been unmounted. -/
theorem finishPendingDelete_ok (h : t.Settled left) (hpd : i ∈ t.globals.pendingDeletes) :
    EndsIn (fun _ t' => t'.Settled left ∧ ¬LosesFile t i) (fun _ => LosesFile t i)
      (runs (finishPendingDelete cfg i) t) := by
  obtain ⟨-, htype, hvirt, hlives⟩ := h.calls.pendingDelete i hpd
  have h₁ : (t.modify fun g => g.freeCleanLines i).Settled left := freeCleanLines_ok h
  have hvirt : (t.inode i).isVirt = false := hvirt
  unfold finishPendingDelete
  rw [runs_bind, runs_modify, andThen_ok, runs_bind, runs_globals, andThen_ok,
    show (t.modify fun g => g.freeCleanLines i).globals.hasInbound i = t.globals.hasInbound i
      from hasInbound_freeCleanLines t.globals i]
  split
  next hin => exact ⟨h₁, fun hl => nomatch hl.2.symm.trans hin⟩
  next hin =>
    rw [runs_bind, runs_deref, andThen_ok,
      show ((t.modify fun g => g.freeCleanLines i).inode i).isVirt = false from hvirt]
    rcases hlives with ⟨hi, hnp, hdelete, hfh⟩ | ⟨hgone, hb, -⟩
    · have hroot : i ≠ FUSERootDirInodeNumber :=
        h.names.notRoot_of_type (by rw [htype]; nofun)
      obtain ⟨backend, -, hrun⟩ := runs_backendOf h₁ hi hroot hnp
      have h₂ := erasePendingDelete_ok (i := i) h₁
      -- the file is not in the queue, as it is unlinked
      have hx : t.xTime i = none := by
        by_contra hx
        have hidle := h.idle i hi hx id
        unfold Idle at hidle
        rw [htype] at hidle
        rw [hidle.1] at hdelete
        cases hdelete
      have hd : Dequeued i ((t.modify fun g => g.freeCleanLines i).modify fun g =>
          g.erasePendingDelete i) ((t.modify fun g => g.freeCleanLines i).modify fun g =>
          g.erasePendingDelete i) := by
        refine ⟨rfl, rfl, rfl, rfl, rfl, fun x j => ⟨fun hget => ⟨?_, hget⟩, And.right⟩⟩
        rintro rfl
        have hnone : t.inodeEvictionQueue.get (toLex (x, j)) = none := h.queue.get_none hx x
        rw [show t.inodeEvictionQueue.get (toLex (x, j)) = some () from hget] at hnone
        cases hnone
      obtain ⟨t₃, hrun₃, hok₃, -⟩ := removeInode_ok cfg h₂ hd hi hnp (.inl htype)
        (fun b name hne => absurd (h.names.file_entry htype b name) hne) (.inr htype) hfh
        fun hmem => (h.calls.pendingDelete_nodup.mem_erase_iff.mp hmem).1 rfl
      simp only [Bool.not_false, if_true, runs_bind, hrun, andThen_ok, runs_modify, hrun₃,
        runs_pure]
      exact ⟨hok₃, fun hl => hl.1 hi⟩
    · -- the backend has been unmounted
      have hb : t.globals.backendMap (t.inode i).backendNonce = none := hb
      have hnone : runs (backendOf (t.inode i).backendNonce)
          (t.modify fun g => g.freeCleanLines i) =
            (.error .fatalf, t.modify fun g => g.freeCleanLines i) := by
        simp only [backendOf, runs_bind, runs_globals, andThen_ok,
          show (t.modify fun g => g.freeCleanLines i).globals.backendMap = t.globals.backendMap
          from rfl, hb, runs_fatalf]
      simp only [Bool.not_false, if_true, runs_bind,
        show (t.modify fun g => g.freeCleanLines i).inode = t.inode from rfl, hnone, andThen_error]
      exact ⟨hgone, Bool.eq_false_iff.mpr hin⟩

/-! ### `DoRmDir` -/

/-- An inode leaves the queue, if it is in it. -/
theorem dequeue_ends (h : t.QueueOk) (hi : t.inodeMap i) :
    ∃ t', runs (dequeue i) t = (.ok (), t') ∧ Dequeued i t t' := by
  unfold dequeue
  rw [runs_bind, runs_xTime, andThen_ok]
  split
  next hx =>
    obtain ⟨x, hx'⟩ := Option.isSome_iff_exists.mp hx
    refine ⟨t.queueRemove i, ?_, dequeued_queueRemove hx' h id⟩
    rw [runs_bind, runs_queueRemove, if_pos (h.isSome hi hx), andThen_ok]
    rfl
  next hx =>
    refine ⟨t, rfl, ⟨rfl, rfl, rfl, rfl, rfl, fun x j => ⟨fun hget => ⟨?_, hget⟩, And.right⟩⟩⟩
    rintro rfl
    have hnone := h.get_none (Option.not_isSome_iff_eq_none.mp hx) x
    rw [hnone] at hget
    cases hget

/-- A directory without its dots. -/
def undotted (t : FileTree) (i : ℕ) : FileTree :=
  (t.virtDelete i DotDirEntryBasename).virtDelete i DotDotDirEntryBasename

theorem names_undotted : (undotted t i).names =
    (t.names.eraseDot i DotDirEntryBasename).eraseDot i DotDotDirEntryBasename := by
  unfold undotted
  rw [names_virtDelete, names_virtDelete]
  rfl

/-- **An empty directory goes** with its dots. -/
theorem gone_ok (h : t.Settled left) (hd : Dequeued i t t') (hi : t.inodeMap i)
    (htype : (t.inode i).inodeType = .PseudoDir)
    (hempty : ∀ b name, t.names.entry b i name ≠ none → b = true ∧ IsDot name)
    (hfh : (t.globals.use i).fhSet = []) : ((undotted t' i).gone i).Settled left := by
  have hdir : t.names.isDir i := fun hfile => nomatch hfile.symm.trans htype
  have hnp := h.names.not_pending_of_isDir hdir
  have hpd := not_pendingDelete h hi fun hc => nomatch hc.1.symm.trans htype
  have hn := names_undotted (t := t') (i := i)
  rw [hd.names] at hn
  have hok : NamesOk (fun d => (NoneBare d ∨ d = i) ∨ d = i) (undotted t' i).names := by
    rw [hn]
    exact (h.names.eraseDot (.inl rfl)).eraseDot (.inr rfl)
  -- the entries that are left are not the directory's dots
  have hentry : ∀ b d name, (undotted t' i).names.entry b d name ≠ none →
      t.names.entry b d name ≠ none ∧ ¬(b = true ∧ d = i ∧ IsDot name) := by
    intro b d name hne
    rw [hn] at hne
    simp only [Names.eraseDot, Names.setEntry] at hne
    split at hne
    · exact absurd rfl hne
    next hdd =>
      split at hne
      · exact absurd rfl hne
      next hdot =>
        refine ⟨hne, ?_⟩
        rintro ⟨hb, hdi, hname | hname⟩
        · exact hdot ⟨hb, hdi, hname⟩
        · exact hdd ⟨hb, hdi, hname⟩
  have r : NamesOk.Removes (undotted t' i).names i (undotted t' i).names.backendMap := by
    refine hok.removes ?_ ?_ ?_ fun b name hne => hempty b name (hentry b i name hne).1
    · rw [hn]
      exact hi
    · rw [hn]
      exact hnp
    · rw [hn]
      exact .inr htype
  obtain ⟨phys, virt, heq⟩ := deleteEntry_rest (undotted t' i) ((undotted t' i).inode i).isVirt
    ((undotted t' i).inode i).parentInodeNumber ((undotted t' i).inode i).basename
  have hr : Removed t ((undotted t' i).gone i) (undotted t' i).names i
      (undotted t' i).names.backendMap := by
    refine ⟨?_, fun b d name hne => (hentry b d name hne).1, names_gone, fun j _ => ?_,
      fun x j => ?_, t.globals.now, ?_⟩
    · rw [hn]
      rfl
    · rw [← hd.xTime]
      unfold gone
      rw [heq]
      rfl
    · rw [← hd.queue]
      unfold gone
      rw [heq]
      rfl
    · rw [hn, ← hd.globals]
      unfold gone
      rw [heq]
      show t'.globals =
        { t'.globals with now := t'.globals.now, backendMap := t.globals.backendMap }
      rw [hd.globals]
  have hnone : left ∨ ∀ name, (undotted t' i).names.entry true i name = none := by
    -- it had no entries but its dots
    right
    intro name
    by_contra hne
    obtain ⟨hold, hnot⟩ := hentry true i name hne
    exact hnot ⟨rfl, rfl, (hempty true name hold).2⟩
  refine ⟨(h.toTreeOk.remove hok r hr hnone).mono_bare ?_, ?_⟩
  · rintro d ⟨(hb | hb) | hb, hne⟩
    · exact hb
    · exact absurd hb hne
    · exact absurd hb hne
  · have hg : ((undotted t' i).gone i).globals = t.globals := by
      rw [← hd.globals]
      unfold gone
      rw [heq]
      rfl
    have hcalls :=
      (h.calls.entries (undotted t' i).names.entry).remove (i := i) hfh hpd t.globals.now
    rw [names_gone, hg, show (undotted t' i).globals.backendMap = (undotted t' i).names.backendMap
      from rfl, hr.fewer]
    exact hcalls

/-- The sections of `DoRmDir` that remove what it has found. -/
def rmFound (p : ℕ) (basename : String) (i : ℕ) : TreeSection Reply := do
  dequeue i
  orFatalf (← virtDelete i DotDirEntryBasename)
  orFatalf (← virtDelete i DotDotDirEntryBasename)
  deleteEntry (← deref i).isVirt p basename
  orFatalf (← inodeDelete i)
  touch cfg p
  pure .done

/-- A directory that is empty is removed; not so by its own dot. -/
theorem rmFound_ok (h : t.Settled left) (hp : BackendDir t p)
    (hf : t.names.find p name = some i) (htype : (t.inode i).inodeType = .PseudoDir)
    (hempty : OnlyDots t i) (hfh : (t.globals.use i).fhSet = []) :
    EndsIn (fun r t' => t'.Settled left ∧ r = .done ∧ name ≠ DotDirEntryBasename)
      (fun _ => name = DotDirEntryBasename) (runs (rmFound cfg p name i) t) := by
  obtain ⟨hi, hnp⟩ := h.names.find_inode hp.inodeMap hp.isDir hf
  obtain ⟨t₁, hrun₁, hd⟩ := dequeue_ends h.queue hi
  obtain ⟨j, k, hdot, hdotdot⟩ := hasDots h hi htype
  have hvget : ∀ d name, t₁.virtGet d name = t.virtGet d name := fun d name => by
    rw [show t₁.virtGet = t.virtGet from congrFun (congrArg Names.entry hd.names) true]
  have hmap : t₁.inodeMap i = true := by
    rw [show t₁.inodeMap = t.inodeMap from congrArg Names.inodeMap hd.names]
    exact hi
  have hdots : (t₁.virtDelete i DotDirEntryBasename).virtGet i DotDotDirEntryBasename = some k := by
    rw [virtGet_virtDelete, if_neg fun hc => absurd hc.2 (by decide), hvget]
    exact hdotdot
  have hinode : t₁.inode = t.inode := congrArg Names.inode hd.names
  unfold rmFound
  simp only [runs_bind, hrun₁, andThen_ok, runs_virtDelete, hvget, hdot, hdots, Option.isSome_some,
    if_true, runs_orFatalf_true, runs_deref]
  rw [show ((t₁.virtDelete i DotDirEntryBasename).virtDelete i DotDotDirEntryBasename)
    = undotted t₁ i from rfl, show (undotted t₁ i).inode = t.inode from hinode]
  rcases h.names.find_cases hf with ⟨hname, hvirt'⟩ | ⟨hname, -⟩
  · -- the dots are those of the directory itself, and gone already
    obtain ⟨-, -, hself, hup⟩ := h.names.dotEntry _ _ _ hvirt' hname
    rcases hname with hname | hname
    · obtain rfl := hself hname
      have hnone : ∀ b, (undotted t₁ i).names.entry b i name = none := by
        intro b
        have hphys : t.names.entry false i name = none :=
          (h.names.disjoint i name).resolve_right fun hn => by rw [hn] at hvirt'; cases hvirt'
        rw [names_undotted, hd.names]
        cases b
        · exact hphys
        · subst hname
          simp [Names.eraseDot, Names.setEntry]
      cases hv : (t.inode i).isVirt
      · simp only [deleteEntry, Bool.false_eq_true, if_false, runs_bind, runs_physDelete,
          show (undotted t₁ i).physGet i name = none from hnone false, Option.isSome_none,
          andThen_ok, runs_orFatalf_false, andThen_error]
        exact hname
      · simp only [deleteEntry, if_true, runs_bind, runs_virtDelete,
          show (undotted t₁ i).virtGet i name = none from hnone true, Option.isSome_none,
          Bool.false_eq_true, if_false, andThen_ok, runs_orFatalf_false, andThen_error]
        exact hname
    · -- the parent is not empty
      obtain ⟨hent, hnot⟩ := h.names.entered p hp.inodeMap hp.notRoot (hp.notPending h)
      rw [← hup hname] at hent
      exact absurd (hempty _ _ (by rw [hent]; exact Option.some_ne_none _)).2 hnot
  · have hdot : name ≠ DotDirEntryBasename := fun heq => hname (.inl heq)
    have hit : Hit (fun _ _ => False) t t p name i := ⟨hi, hnp, hf, .inl hf, .refl, .refl⟩
    obtain ⟨hpar, hbase, -⟩ := hit.entered h hp hname
    obtain ⟨hkey, -⟩ := h.names.entered i hi (h.names.notRoot_of_type
      fun hroot => by cases hroot.symm.trans htype) hnp
    have hent : (undotted t₁ i).names.entry (t.inode i).isVirt p name = some i := by
      rw [names_undotted, hd.names]
      simp only [Names.eraseDot, Names.setEntry]
      rw [if_neg fun hc => hname (.inr hc.2.2), if_neg fun hc => hname (.inl hc.2.2), ← hpar,
        ← hbase]
      exact hkey
    have hok := gone_ok h hd hi htype hempty hfh
    have hdel : (undotted t₁ i).gone i =
        ((undotted t₁ i).deleteEntry (t.inode i).isVirt p name).inodeDelete i := by
      unfold gone
      rw [show (undotted t₁ i).inode = t.inode from hinode, hpar, hbase]
    obtain ⟨phys, virt, hrest⟩ := deleteEntry_rest (undotted t₁ i) (t.inode i).isVirt p name
    have hpi : p ≠ i := by
      rw [← hpar]
      exact (h.names.pseudo i htype).2.1.ne
    have hmap' : ((undotted t₁ i).gone i).inodeMap p = true := by
      rw [hdel, hrest]
      show Function.update t₁.inodeMap i false p = true
      rw [Function.update_of_ne hpi, show t₁.inodeMap = t.inodeMap from
        congrArg Names.inodeMap hd.names]
      exact hp.inodeMap
    have hdir' : ((undotted t₁ i).gone i).names.isDir p := by
      show (((undotted t₁ i).gone i).inode p).inodeType ≠ .FileObject
      rw [hdel, hrest]
      show (t₁.inode p).inodeType ≠ .FileObject
      rw [hinode]
      exact hp.isDir
    obtain ⟨t₂, hrun₂, -, hok₂⟩ := touch_ok cfg hok hmap' (hok.names.not_pending_of_isDir hdir')
    have hmem : ((undotted t₁ i).deleteEntry (t.inode i).isVirt p name).inodeMap i = true := by
      rw [hrest]
      exact hmap
    simp only [runs_deleteEntry hent, andThen_ok, runs_bind, runs_inodeDelete, hmem, if_true,
      runs_orFatalf_true, ← hdel, hrun₂, runs_pure]
    exact ⟨hok₂.off_mono fun j => And.left, rfl, hdot⟩

/-- What `DoRmDir` does to what it has found. -/
def rmDirFound (p : ℕ) (basename : String) (i : ℕ) : TreeSection Reply := do
  if (← deref i).inodeType ≠ .PseudoDir then pure (.errno .ENOTDIR)
  else if ((← globals).use i).fhSet ≠ [] then pure (.errno .EBUSY)
  else
    let noPhys ← physIsEmpty i
    let virt ← virtIndexRange i
    if !noPhys || 2 < virt.2 - virt.1 then pure (.errno .ENOTEMPTY)
    else rmFound cfg p basename i

/-- What cannot be removed is left alone. -/
theorem runs_rmDirFound (h : t.Ok left NoneBare off) (hi : t.inodeMap i) (p : ℕ)
    (name : String) :
    (Removable t i ∧ runs (rmDirFound cfg p name i) t = runs (rmFound cfg p name i) t) ∨
      (¬Removable t i ∧ ∃ errno, runs (rmDirFound cfg p name i) t = (.ok (.errno errno), t)) := by
  unfold rmDirFound
  rw [runs_bind, runs_deref, andThen_ok]
  split
  next htype => exact .inr ⟨fun hr => htype hr.pseudoDir, _, rfl⟩
  next htype =>
    rw [not_not] at htype
    rw [runs_bind, runs_globals, andThen_ok]
    split
    next hfh => exact .inr ⟨fun hr => hfh hr.fhSet, _, rfl⟩
    next hfh =>
      rw [not_not] at hfh
      obtain ⟨noPhys, hrun, hphys⟩ := runs_physIsEmpty t i
      obtain ⟨j, k, hdot, hdotdot⟩ := hasDots h hi htype
      rw [runs_bind, hrun, andThen_ok, runs_bind, runs_virtIndexRange, andThen_ok]
      split
      next hmany =>
        refine .inr ⟨fun hr => ?_, _, rfl⟩
        simp only [Bool.or_eq_true, Bool.not_eq_true', decide_eq_true_eq] at hmany
        rcases hmany with hmany | hmany
        · have hnone : noPhys = true := hphys.mpr fun name => by
            by_contra hne
            exact absurd (hr.onlyDots false name hne).1 Bool.false_ne_true
          rw [hnone] at hmany
          cases hmany
        · exact absurd hmany (not_lt.mpr (DirEntries.indexRange_two fun name hne =>
            (hr.onlyDots true name hne).2))
      next hfew =>
        simp only [Bool.or_eq_true, Bool.not_eq_true', decide_eq_true_eq, not_or,
          Bool.not_eq_false, not_lt] at hfew
        refine .inl ⟨⟨htype, hfh, fun b name' hne => ?_⟩, rfl⟩
        cases b with
        | false => exact absurd (hphys.mp hfew.1 name') hne
        | true => exact ⟨rfl, DirEntries.only_dots hdot hdotdot hfew.2 hne⟩

/-- A directory that can remove itself is one that can be removed. -/
theorem removes_of_self (h : t.Ok left NoneBare off) (hr : RemovesItself t p name) :
    Removes t p name found := by
  obtain ⟨rfl, hp, hempty, hro⟩ := hr
  have htype : (t.inode p).inodeType = .PseudoDir := hempty.pseudoDir
  have hdir : t.names.isDir p := fun hfile => nomatch htype.symm.trans hfile
  obtain ⟨i, hi⟩ := Option.ne_none_iff_exists'.mp (find_dot h hp hdir (.inl rfl))
  refine ⟨⟨hp, hdir, (fun hroot => nomatch htype.symm.trans hroot), hro⟩, .inl ⟨i, hi, ?_⟩⟩
  rcases h.names.find_cases hi with ⟨hname, hent⟩ | ⟨hname, -⟩
  · rw [(h.names.dotEntry _ _ _ hent hname).2.2.1 rfl]
    exact hempty
  · exact absurd (.inl rfl) hname

/-- What `DoRmDir` answers for a directory that it does not look into. -/
theorem rmDirAnswers_refused (hw : ¬WritableDir t p) (errno : TreeErrno) :
    RmDirAnswers t p name found (.errno errno) t :=
  ⟨fun hr => hw hr.1, iff_of_true ⟨rfl, _, rfl⟩ fun hc => hw hc.1⟩

theorem not_self_of_answers {r : Reply} (h : t.Ok left NoneBare off)
    (hr : RmDirAnswers t p name found r t') : ¬RemovesItself t p name := by
  cases r with
  | done => exact hr.2
  | errno errno => exact fun hself => hr.1 (removes_of_self h hself)
  | _ => exact hr.elim

/-- A new directory can be removed. -/
theorem Made.removable (h : t.Ok left NoneBare off) (hp : t.inodeMap p)
    (hmade : Made b .PseudoDir t t' p name i) : Removable t' i := by
  obtain ⟨ino, htype, hparent, hn⟩ := hmade.names
  have hi : i = t.names.nonces.head := hmade.number
  have hne : ino.parentInodeNumber ≠ t.names.nonces.head := by
    rw [hparent]
    exact h.names.ne_head hp
  refine ⟨?_, ?_, fun v n hent => ?_⟩
  · rw [show t'.inode = t'.names.inode from rfl, hn, NamesOk.create_inode, if_pos hi]
    exact htype
  · rw [hmade.grown.globals.fhSet, hmade.number,
      (h.blank _ (.inl (NamesOk.head_not_given _))).2.use]
  · rw [hn, hi, NamesOk.create_entry_head _ _ _ h.names hne] at hent
    unfold IsDot
    split at hent
    next hc =>
      refine ⟨hc.2, ?_⟩
      split at hent
      next hname => exact .inr hname
      next =>
        split at hent
        next hname => exact .inl hname
        · exact absurd rfl hent
    · exact absurd rfl hent

/-- `DoRmDir` of a name that has an inode. -/
theorem rmDirKnown_ok (h : t.Settled left) (hw : WritableDir t p) (hdir : BackendDir t p)
    (hfind : t.names.find p name = some i) :
    EndsIn (fun r t' => t'.Settled left ∧ RmDirAnswers t p name found r t')
      (fun _ => RemovesItself t p name) (runs (do
        match ← findChildInode cfg p name found with
        | none => pure (Reply.errno .ENOENT)
        | some i => rmDirFound cfg p name i) t) := by
  obtain ⟨t₁, hrun, hn, ⟨now, hg⟩, h₁⟩ := findChildInode_known cfg h hdir found hfind
  have huse : t₁.globals.use = t.globals.use := by rw [hg]
  have hp₁ : BackendDir t₁ p := hdir.grown h (.of_names (S := fun _ _ => False) hn
    (.of_now ⟨now, hg⟩))
  have hfind₁ : t₁.names.find p name = some i := by rw [hn]; exact hfind
  obtain ⟨hi₁, -⟩ := h₁.names.find_inode hp₁.inodeMap hp₁.isDir hfind₁
  rw [runs_bind, hrun, andThen_ok]
  dsimp only
  rcases runs_rmDirFound cfg h₁ hi₁ p name with ⟨hr, heq⟩ | ⟨hr, errno, heq⟩
  -- it can be removed
  · have hr' : Removable t i := hr.of_names hn.symm huse.symm
    rw [heq]
    refine (rmFound_ok cfg h₁ hp₁ hfind₁ hr.pseudoDir hr.onlyDots hr.fhSet).mono ?_
      fun _ hname => ⟨hname, hw.1, ?_, hw.2.2.2⟩
    · rintro _ t' ⟨hok, rfl, hname⟩
      exact ⟨hok, ⟨hw, .inl ⟨i, hfind, hr'⟩⟩, fun hself => hname hself.1⟩
    · rcases h.names.find_cases hfind with ⟨hdot, hent⟩ | ⟨hdot, -⟩
      · rw [← (h.names.dotEntry _ _ _ hent hdot).2.2.1 hname]
        exact hr'
      · exact absurd (.inl hname) hdot
  -- it cannot, and nothing changes but the time
  · rw [heq]
    refine ⟨h₁, ?_, iff_of_true ⟨hn, now, hg⟩ fun hc => nomatch hfind.symm.trans hc.2.1⟩
    rintro ⟨-, ⟨j, hj, hr'⟩ | ⟨hnone, -⟩⟩
    · obtain rfl := Option.some.inj (hfind.symm.trans hj)
      exact hr (hr'.of_names hn huse)
    · exact nomatch hfind.symm.trans hnone

/-- `DoRmDir` of a name that has no inode yet. -/
theorem rmDirNew_ok (h : t.Settled left) (hw : WritableDir t p) (hdir : BackendDir t p)
    (hfind : t.names.find p name = none) :
    EndsIn (fun r t' => t'.Settled left ∧ RmDirAnswers t p name found r t')
      (fun _ => RemovesItself t p name) (runs (do
        match ← findChildInode cfg p name found with
        | none => pure (Reply.errno .ENOENT)
        | some i => rmDirFound cfg p name i) t) := by
  have hname : name ≠ DotDirEntryBasename := fun heq =>
    find_dot h hdir.inodeMap hdir.isDir (.inl heq) hfind
  have hremoves : Removes t p name found ↔ found.inodeType = some .PseudoDir := by
    refine ⟨?_, fun htype => ⟨hw, .inr ⟨hfind, htype⟩⟩⟩
    rintro ⟨-, ⟨i, hi, -⟩ | ⟨-, htype⟩⟩
    · exact nomatch hfind.symm.trans hi
    · exact htype
  rw [runs_bind]
  cases htype : found.inodeType with
  | none =>
      obtain ⟨t₁, hrun, hn, hg, h₁⟩ := findChildInode_nothing cfg h hdir hfind htype
      rw [hrun, andThen_ok]
      refine ⟨h₁, (fun hr => nomatch htype.symm.trans (hremoves.mp hr)), ?_⟩
      exact iff_of_true ⟨hn, hg⟩ fun hc => nomatch htype.symm.trans hc.2.2
  | some type =>
      refine ((findChildInode_made cfg h hdir hfind htype).mono (fun _ _ => id)
        fun _ => False.elim).andThen ?_
      rintro _ t₁ ⟨h₁, i, rfl, hmade⟩
      have hp₁ := hdir.grown h hmade.grown
      dsimp only
      rcases runs_rmDirFound cfg h₁ hmade.inodeMap p name with
        ⟨hr, heq⟩ | ⟨hr, errno, heq⟩
      · obtain ⟨ino, htype', -, hn⟩ := hmade.names
        have hpseudo : type = .PseudoDir := by
          have hr := hr.pseudoDir
          have hi : i = t.names.nonces.head := hmade.number
          rw [show t₁.inode = t₁.names.inode from rfl, hn, NamesOk.create_inode, if_pos hi] at hr
          exact htype'.symm.trans hr
        rw [heq]
        refine (rmFound_ok cfg h₁ hp₁ hmade.find hr.pseudoDir hr.onlyDots hr.fhSet).mono ?_
          fun _ heq => absurd heq hname
        rintro _ t' ⟨hok, rfl, -⟩
        exact ⟨hok, hremoves.mpr (htype.trans (congrArg some hpseudo)), fun hself => hname hself.1⟩
      · have hfile : type = .FileObject := by
          have hnot : type ≠ .PseudoDir := by
            rintro rfl
            exact hr (hmade.removable h hdir.inodeMap)
          cases found with
          | manifest entry =>
              cases htype
              split at hnot
              · exact absurd rfl hnot
              next hd => rw [if_neg hd]
          | file info => exact (Option.some.inj htype).symm
          | directory => exact absurd (Option.some.inj htype).symm hnot
          | nothing => cases htype
        subst hfile
        rw [heq]
        refine ⟨h₁, (fun hr => nomatch htype.symm.trans (hremoves.mp hr)), ?_⟩
        refine iff_of_false (fun hs => ?_) (not_not.mpr ⟨hw, hfind, htype⟩)
        -- the file is a new inode
        have hnot : t.inodeMap t.nonces.head = false := inodeMap_head h
        have hmap : t₁.inodeMap = t.inodeMap := congrArg Names.inodeMap hs.1
        rw [← hmade.number, ← hmap, hmade.inodeMap] at hnot
        cases hnot

/-- **`DoRmDir`** ends the process if it removes a directory by its own dot. -/
theorem doRmDir_ok (h : t.Settled left) (hnp : ¬t.names.Pending p) :
    EndsIn (fun r t' => t'.Settled left ∧ RmDirAnswers t p name found r t')
      (fun _ => RemovesItself t p name) (runs (doRmDir cfg p name found) t) := by
  unfold doRmDir
  refine withInode_ends h hnp
    (fun hgone => ⟨h, rmDirAnswers_refused (fun hw => hgone hw.1) _⟩) fun hp => ?_
  refine changes_ends (fun htype => ⟨h, rmDirAnswers_refused (fun hw => hw.2.1 htype) _⟩)
    (fun htype => ⟨h, rmDirAnswers_refused (fun hw => hw.2.2.1 htype) _⟩)
    (fun hro => ⟨h, rmDirAnswers_refused (fun hw => nomatch hw.2.2.2.symm.trans hro) _⟩)
    fun hfile hroot hro => ?_
  have hw : WritableDir t p := ⟨hp, hfile, hroot, hro⟩
  have hdir := backendDir h hp hfile hroot
  cases hfind : t.names.find p name with
  | some i => exact rmDirKnown_ok cfg h hw hdir hfind
  | none => exact rmDirNew_ok cfg h hw hdir hfind

end TreeSection

end MultiStorageFileSystem
