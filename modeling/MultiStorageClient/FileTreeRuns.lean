/-
MultiStorageClient/FileTreeRuns.lean

Runs of the file system.

Every call keeps the invariant (`runCall_ok`), so every state that a run reaches
has it (`settled_of_run`).  With it goes the agreement of inodes and entries
(`entriesAgree_of_run`), as long as the evictor takes no directory: it deletes
the entry of a directory, and leaves the two dots inside behind.
-/
import MultiStorageClient.FileTreeMounts
import MultiStorageClient.Run

namespace MultiStorageFileSystem

open Prog Run TreeSection

namespace FileTree

variable {cfg : TreeConfig} {left : Prop} {t t' : FileTree} {s : TreeStep} {steps : List TreeStep}

/-- The evictor takes no directory. -/
def EvictsNoDir (t : FileTree) (s : TreeStep) : Prop :=
  match s.call with
  | .evict now => ∀ i ∈ t.evictee now, (t.inode i).inodeType ≠ .PseudoDir
  | _ => True

instance (t : FileTree) (s : TreeStep) : Decidable (t.EvictsNoDir s) := by
  unfold EvictsNoDir
  split <;> infer_instance

variable (cfg) in
/-- **Every call** keeps the invariant. -/
theorem runCall_ok (h : t.Settled left) (henabled : t.Enabled s.call)
    (hleft : left ∨ t.EvictsNoDir s) :
    EndsIn (fun _ t' => t'.Settled left) (fun _ => True) (t.runCall cfg s) := by
  obtain ⟨call, now⟩ := s
  have h' : (t.atTime now).Settled left := h.later now
  -- an inode that the kernel knows is not pending
  have hnp : ∀ i ∈ call.nodeID, ¬(t.atTime now).names.Pending i := by
    rintro i hi ⟨e, he, heq⟩
    exact (henabled.1 i hi).2 e he heq
  unfold runCall
  cases call with
  | mount dirName readOnly => exact mount_ok h'
  | unmount nonce =>
      obtain ⟨b, hb⟩ := Option.isSome_iff_exists.mp henabled.2
      obtain ⟨t₁, t', R, hrun, -, hok⟩ := unmount_runs h' hb le_rfl
      show EndsIn _ _ (runs (unmount t.nonces.head nonce) (t.atTime now))
      rw [show runs (unmount t.nonces.head nonce) (t.atTime now) = _ from hrun]
      exact hok
  | doLookup p name found =>
      exact (doLookup_ok cfg h' (hnp p rfl)).mono (fun _ _ => And.left) fun _ _ => trivial
  | doGetAttr i => exact doGetAttr_ok cfg h' (hnp i rfl)
  | doMkDir p basename found =>
      exact (doMkDir_ok cfg h' (hnp p rfl)).mono (fun _ _ => id) fun _ => False.elim
  | doUnlink p basename found =>
      exact (doUnlink_ok cfg h' (hnp p rfl)).mono (fun _ _ => id) fun _ => False.elim
  | finishPendingDelete i =>
      exact (finishPendingDelete_ok cfg h' (List.contains_iff_mem.mp henabled.2)).mono
        (fun _ _ => And.left) fun _ _ => trivial
  | doRmDir p basename found =>
      exact (doRmDir_ok cfg h' (hnp p rfl)).mono (fun _ _ => And.left) fun _ _ => trivial
  | doOpen i isExclusive mode => exact doOpen_ok cfg h' (hnp i rfl)
  | doRelease i fh => exact doRelease_ok cfg h' (hnp i rfl)
  | doOpenDir i => exact doOpenDir_ok cfg h' (hnp i rfl)
  | doReleaseDir i fh => exact doReleaseDir_ok cfg h' (hnp i rfl)
  | doReadDir plus i fh offset size manifest => exact readDir_ok cfg h' (hnp i rfl)
  | readDirListed fh answer manifest => exact readDirListed_ok cfg h'
  | prefetchDirectory k answer => exact prefetchDirectory_ok cfg h'
  | evict now => exact (evict_ok cfg h' now hleft).mono (fun _ _ => id) fun _ => False.elim
  | doRead i fh line => exact doRead_ok cfg h' (hnp i rfl)
  | allocateDataCacheLine l => exact allocateDataCacheLine_ok h'
  | releaseDataCacheLine l =>
      exact (releaseDataCacheLine_ok h').mono (fun _ _ => id) fun _ => False.elim
  | fetch l ended => exact fetch_ok h'

/-- A step that does not end the process. -/
theorem step_spec (h : t.step cfg s = some t') :
    t.Enabled s.call ∧ ∃ r, t.runCall cfg s = (.ok r, t') := by
  unfold step at h
  split at h
  next henabled =>
    refine ⟨henabled, ?_⟩
    split at h
    next r t₁ hrun =>
      cases h
      exact ⟨r, hrun⟩
    · cases h
  · cases h

theorem step_ok (h : t.Settled left) (hleft : left ∨ t.EvictsNoDir s)
    (hstep : t.step cfg s = some t') : t'.Settled left := by
  obtain ⟨henabled, r, hrun⟩ := step_spec hstep
  have hok := runCall_ok cfg h henabled hleft
  rw [hrun] at hok
  exact hok

/-! ### Where a run starts -/

/-- At the start there are only the dots of the root. -/
theorem initial_virtGet {n d : ℕ} {name : String} : (initial n).virtGet d name =
    if d = FUSERootDirInodeNumber ∧ IsDot name then some FUSERootDirInodeNumber else none := by
  unfold virtGet initial IsDot
  dsimp only
  rw [SortedMap.get_insert, SortedMap.get_insert, SortedMap.get_empty]
  simp only [key_inj]
  by_cases hd : d = FUSERootDirInodeNumber
  · simp only [hd, true_and]
    by_cases h₁ : name = DotDotDirEntryBasename
    · simp [h₁]
    · by_cases h₂ : name = DotDirEntryBasename
      · simp [h₂]
      · simp [h₁, h₂]
  · simp [hd]

/-- Only the root is there. -/
theorem initial_inodeMap {n i : ℕ} (h : (initial n).inodeMap i) : i = FUSERootDirInodeNumber :=
  of_decide_eq_true h

/-- At the start the names are the root's. -/
theorem initial_names (n : ℕ) : NamesOk NoneBare (initial n).names := by
  have hentry : ∀ b d name i, (initial n).names.entry b d name = some i →
      b = true ∧ d = FUSERootDirInodeNumber ∧ IsDot name ∧ i = FUSERootDirInodeNumber := by
    intro b d name i hi
    cases b with
    | false => cases hi
    | true =>
        rw [show (initial n).names.entry true d name = _ from initial_virtGet] at hi
        split at hi
        next hc => exact ⟨rfl, hc.1, hc.2, (Option.some.inj hi).symm⟩
        · cases hi
  have hpres : ∀ {i}, (initial n).names.inodeMap i = true → i = FUSERootDirInodeNumber :=
    fun hi => initial_inodeMap (n := n) hi
  have hroot : FUSERootDirInodeNumber < (initial n).names.nonces.head :=
    Nat.lt_succ_self 1
  constructor
  -- the parts of `NamesOk`, in their order; most are about inodes that there are not
  · rfl
  · exact ⟨rfl, rfl, rfl⟩
  · exact fun i hi _ => hpres hi
  · exact fun i hi => NamesOk.given_of_lt (hpres hi ▸ hroot)
  · exact fun i hi _ => hpres hi ▸ hroot
  · exact fun i hi hne => absurd (hpres hi) hne
  · exact fun i hi hne => absurd (hpres hi) hne
  · intro b d name i hi hdot
    obtain ⟨hb, -, hname, -⟩ := hentry b d name i hi
    exact absurd hname (hdot hb)
  · exact fun d name => .inl rfl
  · intro d hd _ _
    obtain rfl := hpres hd
    have hdot : ∀ name, IsDot name → (initial n).names.entry true FUSERootDirInodeNumber name =
        some FUSERootDirInodeNumber := fun name hname => initial_virtGet.trans (if_pos ⟨rfl, hname⟩)
    exact ⟨hdot _ (.inl rfl), hdot _ (.inr rfl)⟩
  · intro d name i hi _
    obtain ⟨-, rfl, -, rfl⟩ := hentry true d name i hi
    exact ⟨nofun, hroot, fun _ => rfl, fun _ => rfl⟩
  · intro i _ hfile
    cases hfile
  · exact fun i hi hne => absurd (hpres hi) hne
  · intro i htype
    cases htype
  · intro i _ hfile
    cases hfile
  · intro i _ htype
    cases htype
  · intro nonce b hb
    cases hb
  · intro e he
    cases he
  · exact List.nodup_nil

/-- **A run starts** with the invariant. -/
theorem initial_settled (n : ℕ) : (initial n).Settled left := by
  have hline : ∀ line ∈ (initial n).globals.dataCacheLinesTracker, line.state ≠ .inbound := by
    intro line hline
    obtain ⟨-, rfl⟩ := List.mem_replicate.mp hline
    nofun
  refine ⟨⟨initial_names n, fun d name hne => .inl ?_, fun x i => ?_, fun i _ hx => absurd rfl hx,
    fun i _ => ⟨rfl, rfl, rfl, fun line hmem _ => hline line hmem⟩⟩, ?_⟩
  · rw [initial_virtGet] at hne
    split at hne
    next hc => exact decide_eq_true hc.1
    · exact absurd rfl hne
  · exact iff_of_false nofun fun hc => nomatch hc.2
  · refine ⟨fun _ _ _ hfh => (nomatch hfh), fun _ => List.nodup_nil, fun _ _ hf => (nomatch hf),
      fun _ _ hf => (nomatch hf), fun _ hp => (nomatch hp), fun _ hi => (nomatch hi),
      List.nodup_nil, fun i _ => ?_⟩
    refine List.countP_eq_zero.mpr fun line hmem => ?_
    simp [hline line hmem]

/-- **The invariant of a run.** -/
theorem settled_of_run {n : ℕ}
    (hleft : left ∨ Always (step cfg) EvictsNoDir (initial n) steps)
    (hrun : exec (step cfg) (initial n) steps = some t) : t.Settled left := by
  rcases hleft with hl | hdirs
  · have hok : Always (step cfg) (fun _ _ => True) (initial n) steps :=
      Always.of_mem (fun _ _ _ => trivial) _
    exact exec_invariant (fun _ _ _ h _ => step_ok h (.inl hl)) hok hrun (initial_settled n)
  · exact exec_invariant (fun _ _ _ h hs => step_ok h (.inr hs)) hdirs hrun (initial_settled n)

/-! ### What the ingest has under way -/

/-- A section leaves what the manifest ingest has under way alone. -/
theorem run_pending {α : Type} (x : TreeSection α) (t : FileTree) :
    (Prog.run act x t).2.pending = t.pending := by
  have hact : ∀ (o : TreeOp) (t : FileTree), (act o t).2.pending = t.pending := by
    intro o t
    cases o <;> dsimp only [act] <;> (try split) <;> rfl
  induction x generalizing t with
  | ret a => rfl
  | throw e => rfl
  | op o k ih => exact (ih _ _).trans (hact o t)

/-- Between the calls no inode is pending. -/
theorem pending_of_run {n : ℕ} (hrun : exec (step cfg) (initial n) steps = some t) :
    t.pending = [] := by
  have hok : Always (step cfg) (fun _ _ => True) (initial n) steps :=
    Always.of_mem (fun _ _ _ => trivial) _
  refine exec_invariant (I := fun t : FileTree => t.pending = []) ?_ hok hrun rfl
  intro t s t' h _ hstep
  obtain ⟨-, r, hrun⟩ := step_spec hstep
  have := run_pending (s.call.program cfg t) (t.atTime s.now)
  rw [show Prog.run act _ _ = _ from hrun] at this
  exact this.trans h

/-! ### Inodes and entries -/

/-- Inodes and entries agree; `t.names.entry` has the virt entries (`true`) and
the phys entries (`false`). -/
structure EntriesAgree (t : FileTree) : Prop where
  present : ∀ b d name i, t.names.entry b d name = some i →
    t.inodeMap d ∧ (t.inode d).inodeType ≠ .FileObject ∧ t.inodeMap i
  named : ∀ b d name i, t.names.entry b d name = some i → ¬IsDot name →
    (t.inode i).parentInodeNumber = d ∧ (t.inode i).basename = name ∧ (t.inode i).isVirt = b
  entered : ∀ i, t.inodeMap i → i ≠ FUSERootDirInodeNumber → ∃! e : Bool × ℕ × String,
    t.names.entry e.1 e.2.1 e.2.2 = some i ∧ ¬IsDot e.2.2
  dots : ∀ d, t.inodeMap d → (t.inode d).inodeType ≠ .FileObject → ∀ name, IsDot name →
    ∃! e : Bool × ℕ, t.names.entry e.1 d name = some e.2

/-- The entries of a tree without dots that are left behind. -/
theorem Settled.entriesAgree (h : t.Settled False) (hp : t.pending = []) : EntriesAgree t := by
  have hnp : ∀ i, ¬t.names.Pending i := Names.not_pending hp
  have hn := h.names
  have hphys : ∀ {d name i}, t.names.entry false d name = some i → ¬IsDot name := by
    intro d name i hi hdot
    obtain ⟨h₁, h₂, h₃, -, hname, -⟩ := hn.entry _ _ _ _ hi nofun
    exact (hn.entered i h₁ h₂ h₃).2 (hname ▸ hdot)
  have hparent : ∀ d, t.inodeMap d → t.inodeMap (t.inode d).parentInodeNumber := by
    intro d hd
    by_cases hroot : d = FUSERootDirInodeNumber
    · rw [hroot, show (t.inode FUSERootDirInodeNumber).parentInodeNumber = _ from hn.rootInode.2.1]
      exact hn.root
    · exact (hn.parent d hd hroot (hnp d)).1
  refine ⟨fun b d name i hi => ?_, fun b d name i hi hname => ?_, fun i hi hroot => ?_,
    fun d hd hdir name hname => ?_⟩
  · by_cases hdot : b = true → ¬IsDot name
    -- an entry that is no dot
    · obtain ⟨h₁, h₂, h₃, rfl, -⟩ := hn.entry b d name i hi hdot
      obtain ⟨h₄, h₅, -⟩ := hn.parent i h₁ h₂ h₃
      exact ⟨h₄, h₅, h₁⟩
    -- a dot, which is its directory or the directory above
    · obtain ⟨rfl, hname⟩ : b = true ∧ IsDot name := by
        simpa only [Classical.not_imp, not_not] using hdot
      have hd : t.inodeMap d := (h.swept d name (by
        rw [show t.virtGet d name = some i from hi]
        exact Option.some_ne_none i)).resolve_right id
      obtain ⟨hdir, -, hself, hup⟩ := hn.dotEntry d name i hi hname
      refine ⟨hd, hdir, ?_⟩
      rcases hname with hname | hname
      · rw [hself hname]
        exact hd
      · rw [hup hname]
        exact hparent d hd
  · exact (hn.entry b d name i hi fun _ => hname).2.2.2
  · obtain ⟨hent, hdot⟩ := hn.entered i hi hroot (hnp i)
    refine ⟨⟨_, _, _⟩, ⟨hent, hdot⟩, ?_⟩
    rintro ⟨b, d, name⟩ ⟨hother, hname⟩
    obtain ⟨rfl, rfl, rfl⟩ := hn.entry_unique hother fun _ => hname
    rfl
  · obtain ⟨hdot, hdotdot⟩ := hn.dots d hd hdir id
    have hsome : ∃ i, t.names.entry true d name = some i := by
      rcases hname with rfl | rfl
      · exact ⟨_, hdot⟩
      · exact ⟨_, hdotdot⟩
    obtain ⟨i, hi⟩ := hsome
    refine ⟨(true, i), hi, ?_⟩
    rintro ⟨b, j⟩ hj
    cases b with
    | false => exact absurd hname (hphys hj)
    | true =>
        rw [show t.names.entry true d name = some j from hj] at hi
        rw [Option.some.inj hi]

/-- **The tree is consistent** in every state of a run in which the evictor takes
no directory. -/
theorem entriesAgree_of_run {n : ℕ} (hrun : exec (step cfg) (initial n) steps = some t)
    (hdirs : Always (step cfg) EvictsNoDir (initial n) steps) : EntriesAgree t :=
  (settled_of_run (.inr hdirs) hrun).entriesAgree (pending_of_run hrun)

/-- Everything may be evicted at once. -/
def anyTimes : TreeConfig where
  virtualFileTTL := 0
  virtualDirTTL := 0
  evictableInodeTTL := 0
  dirEntFixedPortionSize := 24
  dirEntPlusFixedPortionSize := 152
  dirEntAlignment := 8

/-- A file is looked up and evicted, and a directory removed. -/
def evictAndRmDir : List TreeStep :=
  [⟨.mount "b" false, id⟩, ⟨.doLookup 3 "f" (.file ⟨5, "e", 1⟩), id⟩, ⟨.evict none, id⟩,
    ⟨.doMkDir 3 "d" .nothing, id⟩, ⟨.doRmDir 3 "d" .nothing, id⟩]

theorem evictAndRmDir_agree : ∃ t, exec (step anyTimes) (initial 0) evictAndRmDir = some t ∧
    EntriesAgree t := by
  obtain ⟨t, hrun, -⟩ : ∃ t, exec (step anyTimes) (initial 0) evictAndRmDir = some t ∧
      t.inodeMap 3 = true := exec_exists (by decide +kernel)
  exact ⟨t, hrun, entriesAgree_of_run hrun (by decide +kernel)⟩

/-- The evictor leaves the dots of a directory behind. -/
theorem evict_leaves_dots : ∃ t, exec (step anyTimes) (initial 0)
      [⟨.mount "b" false, id⟩, ⟨.doMkDir 3 "d" .nothing, id⟩, ⟨.evict none, id⟩] = some t ∧
    t.inodeMap 4 = false ∧ t.virtGet 4 DotDirEntryBasename = some 4 ∧ ¬EntriesAgree t := by
  obtain ⟨t, hrun, hgone, hdot⟩ : ∃ t, exec (step anyTimes) (initial 0)
      [⟨.mount "b" false, id⟩, ⟨.doMkDir 3 "d" .nothing, id⟩, ⟨.evict none, id⟩] = some t ∧
      t.inodeMap 4 = false ∧ t.virtGet 4 DotDirEntryBasename = some 4 :=
    exec_exists (by decide +kernel)
  refine ⟨t, hrun, hgone, hdot, fun hagree => ?_⟩
  have hpresent := (hagree.present true 4 DotDirEntryBasename 4 hdot).1
  rw [hgone] at hpresent
  cases hpresent

end FileTree

end MultiStorageFileSystem
