/-
MultiStorageClient/FileTreeQueued.lean

The files that should be on the eviction queue, and are not.

A file waits (`waiting`) if nobody uses it and it has no `xTime`.  Almost all
sections are quiet: who waits after one has waited before.  What makes a file
wait inside a section is put right by the `touch` behind it, so the rules are
about a section that adds an inode (`Keeps off x (insert i off)`) and one that
takes it away.

The second section of `fetch` has no `touch`.  So a file waits if its last line
comes in after its last handle is closed (`closed_before_fetched`), and in a run
in which every fetch ends in use no file ever does (`unusedQueued_of_run`).
-/
import MultiStorageClient.FileTreeRuns

namespace MultiStorageFileSystem

/-- Nobody uses a file. -/
structure InodeUse.Unused (use : InodeUse) : Prop where
  pendingDelete : use.pendingDelete = false
  fhSet : use.fhSet = []
  inbound : use.inboundCacheLineCount = 0

/-- The files that nobody uses and that are not on the eviction queue. -/
def FileTree.waiting (t : FileTree) : Set ℕ :=
  {i | t.inodeMap i ∧ (t.inode i).inodeType = .FileObject ∧ (t.globals.use i).Unused ∧
    t.xTime i = none}

/-- The operations that make no file wait. -/
def TreeOp.IsQuiet : TreeOp → Prop
  | inodePut _ ino => ino.inodeType ≠ .FileObject
  | setXTime _ x => x ≠ none
  | modify f => ∀ g i, ((f g).use i).Unused → (g.use i).Unused
  | _ => True

namespace TreeSection

open FileTree Prog

variable {α β : Type} {x : TreeSection α} {f : α → TreeSection β} {off off' off'' : Set ℕ} {i : ℕ}

/-- Before the section only `off` waits, and after it only `off'`. -/
def Keeps (off : Set ℕ) (x : TreeSection α) (off' : Set ℕ) : Prop :=
  ∀ t : FileTree, t.waiting ⊆ off → EndsIn (fun _ t' => t'.waiting ⊆ off') (fun _ => True)
    (runs x t)

/-- Who waits after the section has waited before. -/
def Quiet (x : TreeSection α) : Prop := ∀ off, Keeps off x off

theorem Keeps.bind (hx : Keeps off x off') (hf : ∀ a, Keeps off' (f a) off'') :
    Keeps off (x >>= f) off'' := by
  intro t ht
  rw [runs_bind]
  exact (hx t ht).andThen fun a t' ht' => hf a t' ht'

theorem Keeps.pre (hx : Keeps off' x off'') (h : off ⊆ off') : Keeps off x off'' :=
  fun t ht => hx t (ht.trans h)

theorem Quiet.pure (a : α) : Quiet (Pure.pure a : TreeSection α) := fun _ _ ht => ht

theorem Quiet.fatalf : Quiet (TreeSection.fatalf : TreeSection α) := fun _ _ _ => trivial

theorem Quiet.bind (hx : Quiet x) (hf : ∀ a, Quiet (f a)) : Quiet (x >>= f) :=
  fun off => (hx off).bind fun a => hf a off

theorem Quiet.map (hx : Quiet x) (g : α → β) : Quiet (g <$> x) := hx.bind fun _ => .pure _

/-- A section that makes one inode wait, and one that puts it on the queue. -/
theorem Quiet.of_insert (hx : ∀ off, Keeps off x (insert i off))
    (hf : ∀ a off, Keeps (insert i off) (f a) off) : Quiet (x >>= f) :=
  fun off => (hx off).bind fun a => hf a off

theorem Keeps.of_waiting (h : ∀ t, t.waiting ⊆ off → (runs x t).2.waiting ⊆ off') :
    Keeps off x off' :=
  fun t ht => (EndsIn.of_world (h t ht)).mono (fun _ _ => id) fun _ _ => trivial

theorem waiting_inodePut {t : FileTree} {ino : Inode} :
    (t.inodePut i ino).waiting ⊆ insert i t.waiting := by
  rintro j ⟨hmap, htype, hwait⟩
  by_cases hj : j = i
  · exact .inl hj
  · simp only [FileTree.inodePut, Function.update_of_ne hj] at hmap htype
    exact .inr ⟨hmap, htype, hwait⟩

theorem waiting_setXTime {t : FileTree} {xTime : Option ℕ} :
    (t.setXTime i xTime).waiting ⊆ insert i t.waiting := by
  rintro j ⟨hmap, htype, huse, hwait⟩
  by_cases hj : j = i
  · exact .inl hj
  · simp only [FileTree.setXTime, Function.update_of_ne hj] at hwait
    exact .inr ⟨hmap, htype, huse, hwait⟩

/-- A quiet operation puts nobody into the queue. -/
theorem waiting_act {o : TreeOp} (h : o.IsQuiet) (t : FileTree) :
    (act o t).2.waiting ⊆ t.waiting := by
  cases o with
  | inodePut i ino =>
      dsimp only [act]
      split
      · exact subset_rfl
      -- what a quiet operation puts is no file
      · rintro j hj
        refine (waiting_inodePut hj).resolve_left ?_
        rintro rfl
        have htype := hj.2.1
        simp only [FileTree.inodePut, Function.update_self] at htype
        exact h htype
  | inodeDelete i =>
      dsimp only [act]
      split
      · rintro j ⟨hmap, hwait⟩
        simp only [FileTree.inodeDelete, Function.update_apply] at hmap
        split at hmap
        · cases hmap
        · exact ⟨hmap, hwait⟩
      · exact subset_rfl
  | setIsVirt i isVirt =>
      rintro j ⟨hmap, htype, hwait⟩
      refine ⟨hmap, ?_, hwait⟩
      simp only [act, FileTree.setIsVirt, Function.update_apply] at htype
      split at htype
      · exact ‹j = i› ▸ htype
      · exact htype
  -- a quiet operation gives a time and takes none away
  | setXTime i xTime =>
      rintro j hj
      refine (waiting_setXTime hj).resolve_left ?_
      rintro rfl
      have hx := hj.2.2.2
      simp only [act, FileTree.setXTime, Function.update_self] at hx
      exact h hx
  | modify f =>
      rintro j ⟨hmap, htype, huse, hwait⟩
      exact ⟨hmap, htype, h _ j huse, hwait⟩
  -- the maps and the queue alone say nothing about who waits
  | physPut | physDelete | virtPut | virtDelete | queueInsert | queueRemove =>
      dsimp only [act]
      split <;> exact subset_rfl
  | _ => exact subset_rfl

theorem Quiet.perform (o : TreeOp) (h : o.IsQuiet) : Quiet (TreeSection.perform o) :=
  fun _ => .of_waiting fun t ht => (waiting_act h t).trans ht

theorem Quiet.ite {c : Prop} [Decidable c] {y : TreeSection α} (hx : Quiet x) (hy : Quiet y) :
    Quiet (if c then x else y) := by
  split
  · exact hx
  · exact hy

theorem quiet_orFatalf (b : Bool) : Quiet (orFatalf b) := .ite (.pure ()) .fatalf

/-! ### Inodes and entries -/

variable (cfg : TreeConfig) (i p : ℕ)

theorem quiet_backendOf (nonce : ℕ) : Quiet (backendOf nonce) :=
  .bind (.perform _ trivial) fun g => by
    cases g.backendMap nonce with
    | none => exact .fatalf
    | some backend => exact .pure backend

theorem quiet_timeNow : Quiet timeNow :=
  .bind (.perform _ trivial) fun _ =>
    .bind (.perform (.modify Globals.later) fun _ _ => id) fun _ => .pure _

theorem quiet_dequeue : Quiet (dequeue i) :=
  .bind (.perform _ trivial) fun _ =>
    .ite (.bind (.perform _ trivial) quiet_orFatalf) (.pure ())

theorem keeps_untime : Keeps off (untime i) (insert i off) := by
  refine .bind (Quiet.perform (.xTime i) trivial off) fun x => ?_
  split
  · refine .bind (Quiet.perform (.queueRemove i) trivial off) fun b =>
      .bind (quiet_orFatalf b off) fun _ => ?_
    exact .of_waiting fun t ht => waiting_setXTime.trans (Set.insert_subset_insert ht)
  · exact .pre (Quiet.pure () _) (Set.subset_insert i off)

/-- `enqueue` takes care of its inode. -/
theorem keeps_enqueue (ttl : ℕ) : Keeps (insert i off) (enqueue i ttl) off := by
  refine .bind (quiet_timeNow _) fun now => ?_
  have hset : Keeps (insert i off) (setXTime i (some (now + ttl))) off := by
    refine .of_waiting fun t ht => ?_
    rintro j hj
    refine (ht (waiting_act (o := .setXTime i (some (now + ttl))) nofun t hj)).resolve_left ?_
    rintro rfl
    have hx := hj.2.2.2
    simp [FileTree.setXTime] at hx
  exact hset.bind fun _ => Quiet.bind (.perform (.queueInsert i) trivial) quiet_orFatalf off

theorem waiting_of_not {t : FileTree} (ht : t.waiting ⊆ insert i off) (hi : i ∉ t.waiting) :
    t.waiting ⊆ off :=
  fun _ hj => (ht hj).resolve_left fun heq => hi (heq ▸ hj)

/-- What `touch` does once the inode has no `xTime`. -/
theorem keeps_requeue {c : Bool} {ttl : ℕ} {t : FileTree} (ht : t.waiting ⊆ insert i off)
    (hc : c = false → i ∉ t.waiting) :
    EndsIn (fun _ t' => t'.waiting ⊆ off) (fun _ => True)
      (runs (if c then enqueue i ttl else pure ()) t) := by
  cases c with
  | true => exact keeps_enqueue i ttl t ht
  | false => exact waiting_of_not i ht (hc rfl)

/-- **`touch` puts a file on the queue** if nobody uses it. -/
theorem keeps_touch : Keeps (insert i off) (touch cfg i) off := by
  have huntime : Keeps (insert i off) (untime i) (insert i off) := by
    have h : Keeps (insert i off) (untime i) (insert i (insert i off)) := keeps_untime i
    rwa [Set.insert_eq_of_mem (Set.mem_insert i off)] at h
  refine huntime.bind fun _ t ht => ?_
  rw [runs_bind, runs_deref]
  show EndsIn _ _ (runs _ t)
  cases htype : (t.inode i).inodeType with
  | FileObject =>
      dsimp only
      rw [runs_bind, runs_globals]
      refine keeps_requeue i ht fun hc hi => ?_
      obtain ⟨-, -, ⟨h₁, h₂, h₃⟩, -⟩ := hi
      rw [h₁, h₂, h₃] at hc
      exact absurd hc (by decide)
  | PseudoDir =>
      have hi : i ∉ t.waiting := fun hi => nomatch htype.symm.trans hi.2.1
      obtain ⟨b, hb, -⟩ := runs_physIsEmpty t i
      dsimp only
      rw [runs_bind, hb, andThen_ok, runs_bind, runs_virtIndexRange, andThen_ok, runs_bind,
        runs_globals]
      exact keeps_requeue i ht fun _ => hi
  | _ => exact waiting_of_not i ht fun hi => nomatch htype.symm.trans hi.2.1

theorem quiet_touch : Quiet (touch cfg i) := fun off =>
  (keeps_touch cfg i).pre (Set.subset_insert i off)

theorem quiet_putEntry (isVirt : Bool) (name : String) : Quiet (putEntry isVirt p name i) :=
  .ite (.bind (.perform _ trivial) quiet_orFatalf) (.bind (.perform _ trivial) quiet_orFatalf)

theorem quiet_deleteEntry (isVirt : Bool) (name : String) : Quiet (deleteEntry isVirt p name) :=
  .ite (.bind (.perform _ trivial) quiet_orFatalf) (.bind (.perform _ trivial) quiet_orFatalf)

theorem quiet_createPseudoDirInode (isVirt : Bool) (basename : String) (skipTouch : Bool) :
    Quiet (createPseudoDirInode cfg p isVirt basename skipTouch) := by
  refine .bind quiet_timeNow fun now => .bind (.perform _ trivial) fun parent =>
    .bind (quiet_backendOf _) fun _ => .bind (.perform _ trivial) fun i => ?_
  have hput : TreeOp.IsQuiet (.inodePut i (pseudoDirInode parent p isVirt basename now)) := nofun
  refine .bind (.perform _ hput) fun b => .bind (quiet_orFatalf b) fun _ =>
    .bind (quiet_putEntry i p isVirt basename) fun _ => ?_
  refine .bind (.perform _ trivial) fun b => .bind (quiet_orFatalf b) fun _ =>
    .bind (.perform _ trivial) fun b => .bind (quiet_orFatalf b) fun _ => ?_
  exact .ite (.pure _)
    (.bind (quiet_touch cfg p) fun _ => .bind (quiet_touch cfg i) fun _ => .pure _)

/-- A new file waits until it is touched. -/
theorem quiet_createFileObjectInode (isVirt : Bool) (basename : String) (info : FileInfo) :
    Quiet (createFileObjectInode cfg p isVirt basename info) := by
  refine .bind (.perform _ trivial) fun parent => .bind (quiet_backendOf _) fun _ =>
    .bind (.perform _ trivial) fun i => ?_
  refine .of_insert (i := i) (fun off => .of_waiting fun t ht => ?_) fun b off => ?_
  · rw [runs_inodePut]
    split
    · exact ht.trans (Set.subset_insert i off)
    · exact waiting_inodePut.trans (Set.insert_subset_insert ht)
  · refine .bind (quiet_orFatalf b _) fun _ => .bind (quiet_putEntry i p isVirt basename _) fun _ =>
      .bind (quiet_touch cfg p _) fun _ => .bind (keeps_touch cfg i) fun _ => Quiet.pure _ off

theorem quiet_convertToPhysInodeIfNecessary : Quiet (convertToPhysInodeIfNecessary cfg i) := by
  refine .bind (.perform _ trivial) fun ino => .ite (.pure ()) ?_
  refine .of_insert (fun _ => keeps_untime i) fun _ off => ?_
  refine .bind (Quiet.perform (.setIsVirt i false) trivial _) fun _ => ?_
  refine .bind (Quiet.perform (.virtDelete ino.parentInodeNumber ino.basename) trivial _) fun b =>
    .bind (quiet_orFatalf b _) fun _ => ?_
  refine .bind (Quiet.perform (.physPut ino.parentInodeNumber ino.basename i) trivial _) fun b =>
    .bind (quiet_orFatalf b _) fun _ => ?_
  exact keeps_touch cfg i

theorem quiet_clearFileCacheLinesLocked : Quiet (clearFileCacheLinesLocked i) :=
  .bind (.perform _ trivial) fun _ =>
    .ite (.bind (.perform _ trivial) fun _ => .ite .fatalf (.perform _ fun _ _ => id)) (.pure ())

theorem quiet_removeInode : Quiet (removeInode cfg i) := by
  refine .bind (.perform _ trivial) fun ino => ?_
  refine .bind (.perform _ trivial) fun b => .bind (quiet_orFatalf b) fun _ => ?_
  refine .bind (quiet_deleteEntry _ _ _) fun _ => ?_
  refine .bind (.perform _ trivial) fun b => .bind (quiet_orFatalf b) fun _ => ?_
  exact quiet_touch cfg _

theorem quiet_evict (now : Option ℕ) : Quiet (evict cfg now) := by
  refine .bind (.perform _ trivial) fun front => ?_
  cases front with
  | none => exact .pure _
  | some e =>
      refine .ite (.pure _) ?_
      refine .bind (.perform _ trivial) fun b => .bind (quiet_orFatalf b) fun _ => ?_
      refine .bind (.perform _ trivial) fun b => .bind (quiet_orFatalf b) fun _ => ?_
      refine .bind (quiet_clearFileCacheLinesLocked _) fun _ =>
        .bind (quiet_removeInode cfg _) fun _ => .pure _

/-- A change of `isPrefetchInProgress`. -/
theorem unused_setPrefetchInProgress (g : Globals) (d : ℕ) (b : Bool) (i : ℕ)
    (h : ((g.setPrefetchInProgress d b).use i).Unused) : (g.use i).Unused := by
  simp only [Globals.setPrefetchInProgress, Globals.setUse, Function.update_apply] at h
  split at h
  · exact ‹i = d› ▸ ⟨h.1, h.2, h.3⟩
  · exact h

theorem quiet_startPrefetch : Quiet (startPrefetch i) :=
  .bind (.perform _ trivial) fun _ =>
    .ite (.pure ()) (.perform _ fun g j h => unused_setPrefetchInProgress g i true j h)

theorem quiet_childOf : Quiet (childOf i) :=
  .bind (.perform _ trivial) fun b => .bind (quiet_orFatalf b) fun _ => .pure i

theorem quiet_findOrCreateChild (basename : String) (found : Found) :
    Quiet (findOrCreateChild cfg p basename found) := by
  refine .bind (.perform _ trivial) fun child => ?_
  cases child with
  | some i => exact (quiet_childOf i).map _
  | none =>
      refine .bind (.perform _ trivial) fun child => ?_
      cases child with
      | some i => exact (quiet_childOf i).map _
      | none =>
          refine .bind (.perform _ trivial) fun parent => .bind (quiet_backendOf _) fun _ => ?_
          cases found with
          | manifest entry =>
              exact .ite ((quiet_createPseudoDirInode cfg p false basename false).map _)
                ((quiet_createFileObjectInode cfg p false basename entry.info).map _)
          | file info =>
              exact .bind (quiet_createFileObjectInode cfg p false basename info) fun _ =>
                .bind (quiet_startPrefetch p) fun _ => .pure _
          | directory =>
              exact .bind (quiet_createPseudoDirInode cfg p false basename false) fun _ =>
                .bind (quiet_startPrefetch p) fun _ => .pure _
          | nothing => exact .pure none

theorem quiet_findChildInode (basename : String) (found : Found) :
    Quiet (findChildInode cfg p basename found) := by
  refine .bind (quiet_findOrCreateChild cfg p basename found) fun child =>
    .bind (quiet_touch cfg p) fun _ => ?_
  cases child with
  | none => exact .pure none
  | some i => exact .bind (quiet_touch cfg i) fun _ => .pure _

theorem quiet_findChildOr (basename : String) {create : TreeSection ℕ} (hcreate : Quiet create) :
    Quiet (findChildOr cfg p basename create) := by
  refine .bind (.bind (.perform _ trivial) fun child => ?_) fun i =>
    .bind (quiet_touch cfg p) fun _ => .bind (quiet_touch cfg i) fun _ => .pure i
  cases child with
  | some i => exact quiet_childOf i
  | none =>
      refine .bind (.perform _ trivial) fun child => ?_
      cases child with
      | some i => exact quiet_childOf i
      | none => exact hcreate

theorem quiet_findChildDirInode (basename : String) : Quiet (findChildDirInode cfg p basename) :=
  quiet_findChildOr cfg p basename (quiet_createPseudoDirInode cfg p false basename false)

theorem quiet_findChildFileInode (basename : String) (info : FileInfo) :
    Quiet (findChildFileInode cfg p basename info) :=
  quiet_findChildOr cfg p basename (quiet_createFileObjectInode cfg p false basename info)

/-! ### Calls on names -/

theorem quiet_withInode (missing : TreeErrno) {body : Inode → Option Backend → TreeSection Reply}
    (h : ∀ ino backend, Quiet (body ino backend)) : Quiet (withInode i missing body) :=
  .bind (.perform _ trivial) fun _ =>
    .ite (.bind (.perform _ trivial) fun _ =>
      .ite (h _ _) (.bind (quiet_backendOf _) fun _ => h _ _)) (.pure _)

theorem quiet_lookupOut : Quiet (lookupOut i) :=
  .bind (.perform _ trivial) fun _ => .bind (quiet_backendOf _) fun _ => .pure _

theorem quiet_doLookup (name : String) (found : Found) : Quiet (doLookup cfg p name found) := by
  refine quiet_withInode p _ fun parent _ => ?_
  cases parent.inodeType with
  | FileObject => exact .pure _
  | FUSERootDir =>
      refine .bind (.perform _ trivial) fun child => ?_
      cases child with
      | some i => exact .bind (quiet_childOf i) fun i => quiet_lookupOut i
      | none =>
          refine .bind (.perform _ trivial) fun child => ?_
          cases child with
          | some i => exact .bind (quiet_childOf i) fun i => quiet_lookupOut i
          | none => exact .pure _
  | BackendRootDir | PseudoDir =>
      refine .bind (quiet_findChildInode cfg p name found) fun child => ?_
      cases child with
      | none => exact .pure _
      | some i => exact .bind (.perform _ trivial) fun g => .ite (.pure _) (quiet_lookupOut i)

theorem quiet_doGetAttr : Quiet (doGetAttr cfg i) :=
  quiet_withInode i _ fun _ _ => .bind (.perform _ trivial) fun _ =>
    .ite (.pure _) (.bind (quiet_touch cfg i) fun _ => .pure _)

theorem quiet_doMkDir (basename : String) (found : Found) :
    Quiet (doMkDir cfg p basename found) := by
  refine quiet_withInode p _ fun parent backend => ?_
  cases parent.inodeType with
  | FileObject => exact .pure _
  | FUSERootDir => exact .pure _
  | _ =>
      refine .ite (.pure _) (.bind (quiet_findChildInode cfg p basename found) fun child => ?_)
      cases child with
      | some i => exact .pure _
      | none => exact (quiet_createPseudoDirInode cfg p true basename false).map _

theorem unused_markPendingDelete (g : Globals) (i j : ℕ)
    (h : ((g.markPendingDelete i).use j).Unused) : (g.use j).Unused := by
  simp only [Globals.markPendingDelete, Globals.setUse, Function.update_apply] at h
  split at h
  · cases h.pendingDelete
  · exact h

theorem quiet_doUnlink (basename : String) (found : Found) :
    Quiet (doUnlink cfg p basename found) := by
  refine quiet_withInode p _ fun parent backend => .bind (quiet_touch cfg p) fun _ => ?_
  cases parent.inodeType with
  | FileObject => exact .pure _
  | FUSERootDir => exact .pure _
  | _ =>
      refine .ite (.pure _) (.bind (quiet_findChildInode cfg p basename found) fun child => ?_)
      cases child with
      | none => exact .pure _
      | some i =>
          refine .bind (.perform _ trivial) fun g => .ite (.pure _) ?_
          refine .bind (.perform _ trivial) fun ino =>
            .ite (.bind (quiet_touch cfg i) fun _ => .pure _) ?_
          refine .bind (.perform _ fun g j h => unused_markPendingDelete g i j h) fun _ => ?_
          refine .bind (quiet_touch cfg i) fun _ => .bind (.perform _ trivial) fun g => ?_
          exact .ite (.pure _) (.bind (.perform _ fun _ _ => id) fun _ => .pure _)

theorem quiet_finishPendingDelete : Quiet (finishPendingDelete cfg i) := by
  refine .bind (.perform _ fun _ _ => id) fun _ => .bind (.perform _ trivial) fun g =>
    .ite (.pure _) (.bind (.perform _ trivial) fun ino => ?_)
  have hend : Quiet (do
      modify fun g => g.erasePendingDelete i
      removeInode cfg i
      pure Reply.done) :=
    .bind (.perform _ fun _ _ => id) fun _ => .bind (quiet_removeInode cfg i) fun _ => .pure _
  exact .ite (.bind (quiet_backendOf _) fun _ => hend) hend

theorem quiet_doRmDir (basename : String) (found : Found) :
    Quiet (doRmDir cfg p basename found) := by
  refine quiet_withInode p _ fun parent backend => ?_
  cases parent.inodeType with
  | FileObject => exact .pure _
  | FUSERootDir => exact .pure _
  | _ =>
      refine .ite (.pure _) (.bind (quiet_findChildInode cfg p basename found) fun child => ?_)
      cases child with
      | none => exact .pure _
      | some i =>
          refine .bind (.perform _ trivial) fun ino => .ite (.pure _) ?_
          refine .bind (.perform _ trivial) fun g => .ite (.pure _) ?_
          refine .bind (.perform _ trivial) fun noPhys => .bind (.perform _ trivial) fun virt =>
            .ite (.pure _) ?_
          refine .bind (quiet_dequeue i) fun _ => ?_
          refine .bind (.perform _ trivial) fun b => .bind (quiet_orFatalf b) fun _ => ?_
          refine .bind (.perform _ trivial) fun b => .bind (quiet_orFatalf b) fun _ => ?_
          refine .bind (.perform _ trivial) fun ino => ?_
          refine .bind (quiet_deleteEntry _ _ _) fun _ => ?_
          refine .bind (.perform _ trivial) fun b => .bind (quiet_orFatalf b) fun _ => ?_
          exact .bind (quiet_touch cfg p) fun _ => .pure _

/-! ### Handles -/

theorem quiet_handleOf (fh : ℕ) : Quiet (handleOf fh) :=
  .bind (.perform _ trivial) fun g => by
    cases g.fhMap fh with
    | none => exact .fatalf
    | some h => exact .pure h

theorem unused_addFh (g : Globals) (nonce : ℕ) (h : Fh) (j : ℕ)
    (hj : ((g.addFh nonce h).use j).Unused) : (g.use j).Unused := by
  simp only [Globals.addFh, Globals.setFh, Globals.setUse, Function.update_apply] at hj
  split at hj
  · cases hj.fhSet
  · exact hj

theorem quiet_openFh (h : Fh) : Quiet (openFh cfg h) :=
  .bind (.perform _ trivial) fun nonce =>
    .bind (.perform _ fun g j hj => unused_addFh g nonce h j hj) fun _ =>
      .bind (quiet_touch cfg _) fun _ => .pure _

/-- The file of a closed handle waits until it is touched. -/
theorem keeps_deleteFh (fh : ℕ) : Keeps off (modify fun g => g.deleteFh i fh) (insert i off) := by
  refine .of_waiting fun t ht j hj => ?_
  by_cases hji : j = i
  · exact .inl hji
  · obtain ⟨hmap, htype, huse, hx⟩ := hj
    refine .inr (ht ⟨hmap, htype, ?_, hx⟩)
    simpa only [runs_modify, FileTree.modify, Globals.deleteFh, Globals.setFh, Globals.setUse,
      Function.update_of_ne hji] using huse

theorem quiet_doOpen (isExclusive : Bool) (mode : AccessMode) :
    Quiet (doOpen cfg i isExclusive mode) := by
  refine quiet_withInode i _ fun ino backend => .bind (.perform _ trivial) fun g =>
    .ite (.pure _) (.ite (.pure _) ?_)
  have hopen : ∀ isTaken : Bool, Quiet (if isTaken then pure (.errno .EACCES)
      else if mode ≠ .RDONLY && backend.any Backend.readOnly then pure (.errno .EACCES)
      else openFh cfg (newFh i isExclusive (mode ≠ .WRONLY) false)) := fun _ =>
    .ite (.pure _) (.ite (.pure _) (quiet_openFh cfg _))
  dsimp only
  split
  · exact .bind ((quiet_handleOf _).map _) hopen
  · exact .bind (.pure _) hopen

theorem quiet_doRelease (fh : ℕ) : Quiet (doRelease cfg i fh) := by
  refine quiet_withInode i _ fun ino _ => ?_
  refine .ite (.bind (quiet_touch cfg i) fun _ => .pure _) (.bind (.perform _ trivial) fun g => ?_)
  refine .ite (.bind (quiet_touch cfg i) fun _ => .pure _) (.bind (quiet_handleOf fh) fun _ => ?_)
  refine .of_insert (fun _ => keeps_deleteFh i fh) fun _ off => .bind
    (keeps_touch cfg i) fun _ => ?_
  refine Quiet.bind (.perform .globals trivial) (fun g => .ite (.pure _) ?_) off
  exact .bind (.perform _ fun _ _ => id) fun _ => .pure _

theorem quiet_doOpenDir : Quiet (doOpenDir cfg i) := by
  refine quiet_withInode i _ fun ino backend => ?_
  cases ino.inodeType with
  | FileObject => exact .pure _
  | FUSERootDir => exact quiet_openFh cfg _
  | _ => exact .ite (.bind (.perform _ trivial) fun _ => quiet_openFh cfg _) (quiet_openFh cfg _)

theorem quiet_doReleaseDir (fh : ℕ) : Quiet (doReleaseDir cfg i fh) := by
  refine quiet_withInode i _ fun ino _ => .bind (.perform _ trivial) fun g =>
    .ite (.pure _) (.bind (quiet_handleOf fh) fun h => .ite (.pure _) (.ite (.pure _) ?_))
  exact .of_insert (fun _ => keeps_deleteFh i fh) fun _ off =>
    .bind (keeps_touch cfg i) fun _ => Quiet.pure _ off

/-! ### Reading directories -/

theorem quiet_appendToReadDirOut (call : ReadDirCall) (name : String) :
    Quiet (appendToReadDirOut cfg call i name) := by
  refine .ite (.pure _) (.bind (.perform _ trivial) fun ino => ?_)
  exact .ite (.bind (quiet_backendOf _) fun _ => .pure _) (.pure _)

theorem quiet_readRootFrom (start turns : ℕ) (call : ReadDirCall) :
    Quiet (readRootFrom cfg start turns call) := by
  induction turns generalizing call with
  | zero => exact .pure _
  | succ turns ih =>
      refine .bind (.perform _ trivial) fun e => ?_
      cases e with
      | none => exact .fatalf
      | some e =>
          refine .bind (quiet_childOf _) fun _ =>
            .bind (quiet_appendToReadDirOut cfg _ _ _) fun call' => ?_
          cases call' with
          | none => exact .pure _
          | some call' => exact ih call'

theorem quiet_listedChild {child : TreeSection ℕ} (h : Quiet child) :
    Quiet (listedChild cfg child) :=
  .bind h fun i => .bind (quiet_convertToPhysInodeIfNecessary cfg i) fun _ =>
    .bind (.perform _ trivial) fun _ => .pure _

theorem quiet_listedFile : (file : Option (String × FileInfo)) → Quiet (match file with
    | none => fatalf
    | some file => some <$> listedChild cfg (findChildFileInode cfg i file.1 file.2))
  | none => .fatalf
  | some _ => (quiet_listedChild cfg (quiet_findChildFileInode cfg i _ _)).map _

theorem quiet_childAt (fh curOffset : ℕ) : Quiet (childAt cfg i fh curOffset) := by
  refine .bind (quiet_handleOf fh) fun h => .bind (.perform _ trivial) fun virt => ?_
  refine .ite (quiet_listedFile cfg i _)
    (.ite (quiet_listedFile cfg i _) (.ite ?_ (.ite ?_ (.pure _))))
  · split
    · exact .fatalf
    · exact (quiet_listedChild cfg (quiet_findChildDirInode cfg i _)).map _
  · refine .bind (.perform _ trivial) fun e => ?_
    cases e with
    | none => exact .fatalf
    | some e => exact .bind (quiet_childOf _) fun _ => .pure _

theorem quiet_readDirFrom (fh turns : ℕ) (call : ReadDirCall) :
    Quiet (readDirFrom cfg i fh turns call) := by
  induction turns generalizing call with
  | zero => exact .pure _
  | succ turns ih =>
      refine .bind (quiet_handleOf fh) fun h =>
        .ite (.bind (.perform _ fun _ _ => id) fun _ => .pure _) ?_
      refine .bind (quiet_childAt cfg i fh _) fun e => ?_
      cases e with
      | none => exact .pure _
      | some e =>
          refine .bind (.perform _ trivial) fun g => .ite (ih _) ?_
          refine .bind (quiet_appendToReadDirOut cfg _ _ _) fun call' => ?_
          cases call' with
          | none => exact .pure _
          | some call' => exact ih call'

/-- The entries before those of the phys map, or of the manifest part. -/
theorem quiet_virtEntry {start : ℕ} {call next : ReadDirCall}
    {rest : ReadDirCall → TreeSection Reply}
    (h : ∀ call, Quiet (rest call)) : Quiet (do
      match ← virtByIndex (start + call.curOffset) with
      | none => pure (.entries call.dirEnt)
      | some (name, child) =>
          if ← inodeGet child then
            match ← appendToReadDirOut cfg next child name with
            | none => pure (.entries call.dirEnt)
            | some call => rest call
          else pure (.entries call.dirEnt)) := by
  refine .bind (.perform _ trivial) fun e => ?_
  cases e with
  | none => exact .pure _
  | some e =>
      refine .bind (.perform _ trivial) fun b => .ite ?_ (.pure _)
      refine .bind (quiet_appendToReadDirOut cfg _ _ _) fun call' => ?_
      cases call' with
      | none => exact .pure _
      | some call' => exact h call'

theorem quiet_readBPTreeFrom (start physStart virtDotCount turns : ℕ) (call : ReadDirCall) :
    Quiet (readBPTreeFrom cfg i start physStart virtDotCount turns call) := by
  induction turns generalizing call with
  | zero => exact .pure _
  | succ turns ih =>
      refine .ite (quiet_virtEntry cfg ih) (.bind (.perform _ trivial) fun e => ?_)
      cases e with
      | none => exact .pure _
      | some e => exact .ite (.pure _) (ih _)

theorem quiet_readManifestFrom (start virtDotCount : ℕ) (entries : List ManifestPartEntry)
    (turns : ℕ) (call : ReadDirCall) :
    Quiet (readManifestFrom cfg i start virtDotCount entries turns call) := by
  induction turns generalizing call with
  | zero => exact .pure _
  | succ turns ih =>
      refine .ite (quiet_virtEntry cfg ih) ?_
      cases entries[call.curOffset - virtDotCount]? with
      | none => exact .pure _
      | some entry =>
          refine .bind (quiet_listedChild cfg (.ite (quiet_findChildDirInode cfg i _)
            (quiet_findChildFileInode cfg i _ _))) fun e => ?_
          refine .bind (.perform _ trivial) fun g => .ite (ih _) ?_
          refine .bind (quiet_appendToReadDirOut cfg _ _ _) fun call' => ?_
          cases call' with
          | none => exact .pure _
          | some call' => exact ih call'

theorem quiet_readDir (fh : ℕ) (manifest : List ManifestPartEntry) (call : ReadDirCall) :
    Quiet (readDir cfg i fh manifest call) := by
  refine quiet_withInode i _ fun ino _ => .ite (.pure _) (.bind (.perform _ trivial) fun g => ?_)
  refine .ite (.pure _) (.bind (quiet_handleOf fh) fun h => .bind (quiet_touch cfg i) fun _ => ?_)
  refine .bind (.perform _ trivial) fun virt => .ite (quiet_readRootFrom cfg _ _ _) ?_
  refine .ite (.bind (.perform _ trivial) fun phys => quiet_readBPTreeFrom cfg i _ _ _ _ _) ?_
  refine .ite (.bind (.perform _ fun _ _ => id) fun _ => quiet_readManifestFrom cfg i _ _ _ _ _) ?_
  exact .ite (.pure _) (quiet_readDirFrom cfg i fh _ _)

theorem quiet_readDirListed (fh : ℕ) (answer : Option ListDirectoryOutput)
    (manifest : List ManifestPartEntry) : Quiet (readDirListed cfg fh answer manifest) := by
  refine .bind (quiet_handleOf fh) fun h => ?_
  cases h.listDirectoryInProgress with
  | none => exact .pure _
  | some call =>
      refine .bind (.perform _ fun _ _ => id) fun _ => ?_
      cases answer with
      | none => exact .pure _
      | some page =>
          have hlisted : Quiet (do
              modify fun g => g.setFh fh
                (some ({ h with listDirectoryInProgress := none }.addPage page))
              readDir cfg h.inode fh manifest call) :=
            .bind (.perform _ fun _ _ => id) fun _ => quiet_readDir cfg h.inode fh manifest call
          exact .ite (.bind (quiet_convertToPhysInodeIfNecessary cfg _) fun _ => hlisted) hlisted

theorem Quiet.forM {γ : Type} (xs : List γ) {f : γ → TreeSection Unit} (h : ∀ x, Quiet (f x)) :
    Quiet (xs.forM f) := by
  induction xs with
  | nil => exact .pure ()
  | cons x xs ih => exact .bind (h x) fun _ => ih

theorem quiet_findChildren (page : ListDirectoryOutput) : Quiet (findChildren cfg i page) :=
  .bind (.forM _ fun _ => .bind (quiet_findChildDirInode cfg i _) fun _ => .pure ()) fun _ =>
    .forM _ fun _ => .bind (quiet_findChildFileInode cfg i _ _) fun _ => .pure ()

theorem quiet_prefetchDirectory (k : ℕ) (answer : Option ListDirectoryOutput) :
    Quiet (prefetchDirectory cfg k answer) := by
  refine .bind (.perform _ trivial) fun g => ?_
  cases g.prefetches[k]? with
  | none => exact .pure _
  | some prefetch =>
      refine .bind (.perform _ trivial) fun b =>
        .ite ?_ (.bind (.perform _ fun _ _ => id) fun _ => .pure _)
      refine .bind (.perform _ trivial) fun ino => .bind (quiet_backendOf _) fun _ =>
        .ite (.bind (.perform _ fun _ _ => id) fun _ => .pure _) ?_
      have hend : Quiet (do
          modify fun g => (g.setPrefetchInProgress prefetch.dirInodeNumber false).erasePrefetch k
          pure Reply.done) :=
        .bind (.perform _ fun g j hj => unused_setPrefetchInProgress g _ false j hj) fun _ =>
          .pure _
      cases answer with
      | none => exact hend
      | some page =>
          exact .bind (quiet_findChildren cfg _ page) fun _ => .bind (quiet_touch cfg _) fun _ =>
            .ite (.pure _) hend

/-! ### Data cache lines -/

theorem unused_setInboundCacheLineCount (g : Globals) (i n j : ℕ)
    (hn : n ≠ 0) (hj : ((g.setInboundCacheLineCount i n).use j).Unused) : (g.use j).Unused := by
  simp only [Globals.setInboundCacheLineCount, Globals.setUse, Function.update_apply] at hj
  split at hj
  · exact absurd hj.inbound hn
  · exact hj

theorem quiet_doRead (fh : ℕ) (line : Option ℕ) : Quiet (doRead cfg i fh line) := by
  refine quiet_withInode i _ fun ino _ => .ite (.pure _) (.bind (.perform _ trivial) fun g => ?_)
  refine .ite (.pure _) (.bind (quiet_handleOf fh) fun h => .ite (.pure _) ?_)
  refine .bind (quiet_touch cfg i) fun _ => ?_
  cases line with
  | none => exact .pure _
  | some l =>
      refine .bind (.perform _ fun g j hj => ?_) fun _ => .pure _
      dsimp only at hj
      split at hj
      · exact unused_setInboundCacheLineCount (g.setLine l ⟨.inbound, i⟩) i _ j
          (Nat.succ_ne_zero _) hj
      · exact hj

theorem quiet_allocateDataCacheLine (l : ℕ) : Quiet (allocateDataCacheLine l) := by
  refine .bind (.perform _ trivial) fun g => ?_
  split
  · exact .bind (.perform _ fun _ _ => id) fun _ => .pure _
  · exact .bind (.perform _ trivial) fun b => .bind (quiet_orFatalf b) fun _ =>
      .bind (.perform _ fun _ _ => id) fun _ => .pure _
  · exact .pure _

theorem quiet_releaseDataCacheLine (l : ℕ) : Quiet (releaseDataCacheLine l) := by
  refine .bind (.perform _ fun g j hj => ?_) fun _ => .pure _
  dsimp only at hj
  split at hj <;> exact hj

/-- The first section of `fetch`. -/
theorem quiet_fetch (l : ℕ) : Quiet (fetch l false) := by
  refine .bind (.perform _ trivial) fun g => ?_
  split
  · exact .bind (.perform _ trivial) fun b =>
      .ite (.bind (.perform _ trivial) fun _ => .bind (quiet_backendOf _) fun _ => .pure _)
        (.bind (.perform _ fun _ _ => id) fun _ => .pure _)
  · exact .pure _

/-! ### Backends -/

theorem quiet_mount (dirName : String) (readOnly : Bool) : Quiet (mount dirName readOnly) := by
  refine .bind quiet_timeNow fun now => .bind (.perform _ trivial) fun nonce =>
    .bind (.perform _ trivial) fun i => ?_
  refine .bind (.perform _ nofun) fun b => .bind (quiet_orFatalf b) fun _ => ?_
  refine .bind (.perform _ trivial) fun b => .bind (quiet_orFatalf b) fun _ => ?_
  refine .bind (.perform _ trivial) fun b => .bind (quiet_orFatalf b) fun _ => ?_
  refine .bind (.perform _ trivial) fun b => .bind (quiet_orFatalf b) fun _ => ?_
  exact .bind (.perform _ fun _ _ => id) fun _ => .pure _

section Empty

variable {empty : ℕ → TreeSection Unit} (h : ∀ p, Quiet (empty p))

include h

theorem quiet_emptyChild (child : ℕ) : Quiet (emptyChild empty child) := by
  refine .bind (.perform _ trivial) fun b => .bind (quiet_orFatalf b) fun _ =>
    .bind (.perform _ trivial) fun ino => ?_
  have hend : Quiet (do
      dequeue child
      orFatalf (← inodeDelete child)) :=
    .bind (quiet_dequeue child) fun _ => .bind (.perform _ trivial) quiet_orFatalf
  exact .ite (.bind (h child) fun _ => hend) hend

theorem quiet_emptyPhysFrom (start n : ℕ) : Quiet (emptyPhysFrom empty p start n) := by
  induction n with
  | zero => exact .pure ()
  | succ n ih =>
      refine .bind (.perform _ trivial) fun e => ?_
      cases e with
      | none => exact .fatalf
      | some e =>
          exact .bind (quiet_emptyChild h _) fun _ => .bind (.perform _ trivial) fun b =>
            .bind (quiet_orFatalf b) fun _ => ih

theorem quiet_emptyVirtFrom (start n : ℕ) : Quiet (emptyVirtFrom empty p start n) := by
  induction n with
  | zero => exact .pure ()
  | succ n ih =>
      refine .bind (.perform _ trivial) fun e => ?_
      cases e with
      | none => exact .fatalf
      | some e =>
          have hend : Quiet (do
              orFatalf (← virtDelete p e.1)
              emptyVirtFrom empty p start n) :=
            .bind (.perform _ trivial) fun b => .bind (quiet_orFatalf b) fun _ => ih
          exact .ite (.bind (quiet_emptyChild h _) fun _ => hend) hend

end Empty

theorem quiet_emptyChildInodes (depth : ℕ) : Quiet (emptyChildInodes depth p) := by
  induction depth generalizing p with
  | zero => exact .fatalf
  | succ depth ih =>
      exact .bind (.perform _ trivial) fun phys => .bind (quiet_emptyPhysFrom p ih _ _) fun _ =>
        .bind (.perform _ trivial) fun virt => quiet_emptyVirtFrom p ih _ _

theorem quiet_unmount (depth nonce : ℕ) : Quiet (unmount depth nonce) := by
  refine .bind (.perform _ trivial) fun g => ?_
  cases g.backendMap nonce with
  | none => exact .pure _
  | some backend =>
      refine .bind (quiet_emptyChildInodes backend.inode depth) fun _ => ?_
      refine .bind (.perform _ trivial) fun b => .bind (quiet_orFatalf b) fun _ => ?_
      refine .bind (.perform _ trivial) fun b => .bind (quiet_orFatalf b) fun _ => ?_
      exact .bind (.perform _ fun _ _ => id) fun _ => .pure _

end TreeSection

namespace FileTree

open Prog Run TreeSection

variable {cfg : TreeConfig} {t t' : FileTree} {s : TreeStep} {steps : List TreeStep}

/-- A fetch that ends finds its file gone, pending, with an open handle, or with another line that
is being fetched. -/
def FetchEndsInUse (t : FileTree) (s : TreeStep) : Prop :=
  match s.call with
  | .fetch l true =>
      ∀ line ∈ t.globals.dataCacheLinesTracker[l]?, line.state = .inbound →
        t.inodeMap line.inodeNumber →
        (t.globals.use line.inodeNumber).pendingDelete ∨
        (t.globals.use line.inodeNumber).fhSet ≠ [] ∨
        (t.globals.use line.inodeNumber).inboundCacheLineCount ≠ 1
  | _ => True

instance (t : FileTree) : (s : TreeStep) → Decidable (t.FetchEndsInUse s)
  | ⟨.fetch l true, _⟩ => inferInstanceAs (Decidable
      (∀ line ∈ t.globals.dataCacheLinesTracker[l]?, line.state = .inbound →
        t.inodeMap line.inodeNumber → _ ∨ _ ∨ _))
  | ⟨.fetch _ false, _⟩ | ⟨.mount .., _⟩ | ⟨.unmount .., _⟩ | ⟨.doLookup .., _⟩
  | ⟨.doGetAttr .., _⟩ | ⟨.doMkDir .., _⟩ | ⟨.doUnlink .., _⟩ | ⟨.finishPendingDelete .., _⟩
  | ⟨.doRmDir .., _⟩ | ⟨.doOpen .., _⟩ | ⟨.doRelease .., _⟩ | ⟨.doOpenDir .., _⟩
  | ⟨.doReleaseDir .., _⟩ | ⟨.doReadDir .., _⟩ | ⟨.readDirListed .., _⟩
  | ⟨.prefetchDirectory .., _⟩ | ⟨.evict .., _⟩ | ⟨.doRead .., _⟩
  | ⟨.allocateDataCacheLine .., _⟩ | ⟨.releaseDataCacheLine .., _⟩ => .isTrue trivial

/-- Every file that nobody uses is on the eviction queue: without a handle, without
`pendingDelete` and without a line that is being fetched. -/
def UnusedQueued (t : FileTree) : Prop :=
  ∀ i, t.inodeMap i → (t.inode i).inodeType = .FileObject → (t.globals.use i).fhSet = [] →
    (t.globals.use i).pendingDelete = false →
    (∀ line ∈ t.globals.dataCacheLinesTracker, line.inodeNumber = i → line.state ≠ .inbound) →
    ∃ x, t.inodeEvictionQueue.get (toLex (x, i)) = some ()

/-- The second section of `fetch`, of a file in use. -/
theorem fetch_ends (h : t.Settled True) {l : ℕ} (now : ℕ → ℕ)
    (huse : t.FetchEndsInUse ⟨.fetch l true, now⟩) :
    EndsIn (fun _ t' => t'.waiting ⊆ t.waiting) (fun _ => True) (runs (fetch l true) t) := by
  unfold fetch
  rw [runs_bind, runs_globals, andThen_ok]
  split
  next i hl =>
    rw [runs_bind, runs_inodeGet, andThen_ok]
    split
    next hi =>
      rintro j ⟨hmap, htype, hunused, hx⟩
      refine ⟨hmap, htype, ?_, hx⟩
      by_cases hj : j = i
      · subst hj
        have hcount := h.calls.lines j hi
        have hpos : 0 < inboundLines t.globals j := List.countP_pos_iff.mpr
          ⟨_, List.mem_of_getElem? hl, decide_eq_true ⟨rfl, rfl⟩⟩
        have huse' : ((t.globals.use j).pendingDelete ∨ (t.globals.use j).fhSet ≠ [] ∨
            (t.globals.use j).inboundCacheLineCount ≠ 1) := huse ⟨.inbound, j⟩ hl rfl hi
        obtain ⟨hpending, hfh, hinbound⟩ := hunused
        simp only [act, FileTree.modify, Globals.setInboundCacheLineCount, Globals.setUse,
          Globals.setLine, Function.update_self] at hpending hfh hinbound
        rcases huse' with hc | hc | hc
        · cases hpending.symm.trans hc
        · exact absurd hfh hc
        · omega
      · simpa only [act, FileTree.modify, Globals.setInboundCacheLineCount, Globals.setUse,
          Globals.setLine, Function.update_of_ne hj] using hunused
    next hi => exact fun j hj => hj
  · exact subset_rfl

/-- **Every section** leaves no file waiting, but for the end of a fetch. -/
theorem quiet_program (c : Call) (h : ∀ l, c ≠ .fetch l true) : Quiet (c.program cfg t) := by
  cases c with
  | mount dirName readOnly => exact quiet_mount dirName readOnly
  | unmount nonce => exact quiet_unmount _ nonce
  | doLookup p name found => exact quiet_doLookup cfg p name found
  | doGetAttr i => exact quiet_doGetAttr cfg i
  | doMkDir p basename found => exact quiet_doMkDir cfg p basename found
  | doUnlink p basename found => exact quiet_doUnlink cfg p basename found
  | finishPendingDelete i => exact quiet_finishPendingDelete cfg i
  | doRmDir p basename found => exact quiet_doRmDir cfg p basename found
  | doOpen i isExclusive mode => exact quiet_doOpen cfg i isExclusive mode
  | doRelease i fh => exact quiet_doRelease cfg i fh
  | doOpenDir i => exact quiet_doOpenDir cfg i
  | doReleaseDir i fh => exact quiet_doReleaseDir cfg i fh
  | doReadDir plus i fh offset size manifest => exact quiet_readDir cfg i fh manifest _
  | readDirListed fh answer manifest => exact quiet_readDirListed cfg fh answer manifest
  | prefetchDirectory k answer => exact quiet_prefetchDirectory cfg k answer
  | evict now => exact quiet_evict cfg now
  | doRead i fh line => exact quiet_doRead cfg i fh line
  | allocateDataCacheLine l => exact quiet_allocateDataCacheLine l
  | releaseDataCacheLine l => exact quiet_releaseDataCacheLine l
  | fetch l ended =>
      cases ended with
      | false => exact quiet_fetch l
      | true => exact absurd rfl (h l)

/-- A step makes no inode wait that did not wait before. -/
theorem step_waiting (h : t.Settled True) (huse : t.FetchEndsInUse s)
    (hstep : t.step cfg s = some t') : t'.waiting ⊆ t.waiting := by
  obtain ⟨-, r, hrun⟩ := step_spec hstep
  obtain ⟨call, now⟩ := s
  have hends : EndsIn (fun _ t' => t'.waiting ⊆ t.waiting) (fun _ => True)
      (t.runCall cfg ⟨call, now⟩) := by
    by_cases hfetch : ∃ l, call = .fetch l true
    · obtain ⟨l, rfl⟩ := hfetch
      exact fetch_ends (t := t.atTime now) (h.later now) now huse
    · exact quiet_program call (not_exists.mp hfetch) _ (t.atTime now) subset_rfl
  rw [hrun] at hends
  exact hends

/-- **A run in which every fetch ends in use** keeps every unused file on the eviction queue. -/
theorem unusedQueued_of_run {n : ℕ} (hrun : exec (step cfg) (initial n) steps = some t)
    (hfetch : Always (step cfg) FetchEndsInUse (initial n) steps) : UnusedQueued t := by
  have hinv : t.Settled True ∧ t.waiting = ∅ := by
    refine exec_invariant (I := fun t : FileTree => t.Settled True ∧ t.waiting = ∅) ?_ hfetch hrun
      ⟨initial_settled n, ?_⟩
    · rintro t s t' ⟨h, hwait⟩ huse hstep
      exact ⟨step_ok h (.inl trivial) hstep,
        Set.subset_empty_iff.mp (hwait ▸ step_waiting h huse hstep)⟩
    · exact Set.eq_empty_of_forall_notMem fun i hi => nomatch hi.2.1
  obtain ⟨h, hwait⟩ := hinv
  intro i hi hfile hclosed hpending hlines
  have hcount : (t.globals.use i).inboundCacheLineCount = 0 := by
    rw [← h.calls.lines i hi]
    exact List.countP_eq_zero.mpr fun line hmem hline =>
      hlines line hmem (of_decide_eq_true hline).1 (of_decide_eq_true hline).2
  cases hx : t.xTime i with
  | none =>
      have : i ∈ t.waiting := ⟨hi, hfile, ⟨hpending, hclosed, hcount⟩, hx⟩
      exact absurd (hwait ▸ this) (Set.notMem_empty i)
  | some x => exact ⟨x, (h.queue x i).mpr ⟨hi, hx⟩⟩

/-- A file is opened, a read starts a fetch, and the file is closed before the fetch ends. -/
def openReadRelease : List TreeStep :=
  [⟨.mount "b" true, id⟩, ⟨.doLookup 3 "f" (.file ⟨5, "e", 1⟩), id⟩, ⟨.doOpen 4 false .RDONLY, id⟩,
    ⟨.allocateDataCacheLine 0, id⟩, ⟨.doRead 4 5 (some 0), id⟩, ⟨.fetch 0 false, id⟩]

/-- The fetch ends before the file is closed. -/
theorem fetched_before_closed : ∃ t, exec (step anyTimes) (initial 1)
      (openReadRelease ++ [⟨.fetch 0 true, id⟩, ⟨.doRelease 4 5, id⟩]) = some t ∧
    t.inodeMap 4 = true ∧ UnusedQueued t := by
  obtain ⟨t, hrun, hi⟩ : ∃ t, exec (step anyTimes) (initial 1)
      (openReadRelease ++ [⟨.fetch 0 true, id⟩, ⟨.doRelease 4 5, id⟩]) = some t ∧
      t.inodeMap 4 = true := exec_exists (by decide +kernel)
  exact ⟨t, hrun, hi, unusedQueued_of_run hrun (by decide +kernel)⟩

/-- **A fetch that ends after the file is closed** leaves it off the eviction queue. -/
theorem closed_before_fetched : ∃ t, exec (step anyTimes) (initial 1)
      (openReadRelease ++ [⟨.doRelease 4 5, id⟩, ⟨.fetch 0 true, id⟩]) = some t ∧
    ¬UnusedQueued t := by
  obtain ⟨t, hrun, hi, hfile, hfh, hpending, hlines, hx⟩ : ∃ t, exec (step anyTimes) (initial 1)
      (openReadRelease ++ [⟨.doRelease 4 5, id⟩, ⟨.fetch 0 true, id⟩]) = some t ∧
      t.inodeMap 4 = true ∧ (t.inode 4).inodeType = .FileObject ∧ (t.globals.use 4).fhSet = [] ∧
      (t.globals.use 4).pendingDelete = false ∧
      (∀ line ∈ t.globals.dataCacheLinesTracker, line.inodeNumber = 4 → line.state ≠ .inbound) ∧
      t.xTime 4 = none := exec_exists (by decide +kernel)
  refine ⟨t, hrun, fun h => ?_⟩
  obtain ⟨x, hget⟩ := h 4 hi hfile hfh hpending hlines
  have hsettled : t.Settled True := settled_of_run (.inl trivial) hrun
  exact nomatch hx.symm.trans ((hsettled.queue x 4).mp hget).2

end FileTree

end MultiStorageFileSystem
