/-
MultiStorageClient/CachedFilesDisk.lean

The backing files in the runs of the files.

`FilesKept` is what every operation keeps, unmounting among them: the lines are
in order for all inodes that there have been.  From it `files_backed` reads off
that a backing file has the lines that it counts, and is closed with the last.
-/
import MultiStorageClient.CachedFilesKept

namespace MultiStorageFileSystem

open Run

variable {cfg : CacheConfig} {objects : ℕ → List UInt8}

namespace CachedFiles

open DataCache

variable {f f' : CachedFiles} {i : ℕ}

/-! ### The files -/

/-- What every section keeps of the cache, the inodes and the deletions that wait. -/
structure FilesKept (cfg : CacheConfig) (objects : ℕ → List UInt8) (f : CachedFiles) : Prop where
  cache : Kept cfg (inodesUpTo objects f.lastNonce) f.cache (heldLines f.cache.readers)
  known : ∀ i, f.inodeMap i = true → i ≤ f.lastNonce
  waiters : ∀ del ∈ f.deletes, ∃ wg, f.cache.readers[del.cacheLineWaiter]? = some wg ∧
    wg.pc = .returned .ok

/-- The cache takes a step, and files may go. -/
theorem FilesKept.goes (h : FilesKept cfg objects f)
    (hgoes : Goes cfg (inodesUpTo objects f.lastNonce) f.cache f'.cache)
    (hmap : ∀ i, f'.inodeMap i = true → f.inodeMap i = true) (hnonce : f.lastNonce ≤ f'.lastNonce)
    (hdeletes : ∀ del ∈ f'.deletes, ∃ del₀ ∈ f.deletes,
      del.cacheLineWaiter = del₀.cacheLineWaiter) :
    FilesKept cfg objects f' ∧ Touches f.cache f'.cache := by
  refine ⟨⟨hgoes.kept.upTo hnonce, fun i hi => (h.known i (hmap i hi)).trans hnonce,
    fun del hdel => ?_⟩, hgoes.touches⟩
  obtain ⟨del₀, hdel₀, heq⟩ := hdeletes del hdel
  obtain ⟨wg, hwg, hpc⟩ := h.waiters del₀ hdel₀
  rw [heq]
  exact hgoes.returned _ wg hwg hpc

/-- What an operation does that leaves the lines alone. -/
inductive Idles (f f' : CachedFiles) : Prop
  | fatal (hfatal : f'.cache.fatal = true)
  | same (hcache : f'.cache = f.cache) (hmap : ∀ i, f'.inodeMap i = true → f.inodeMap i = true)
      (hnonce : f.lastNonce ≤ f'.lastNonce) (hdeletes : f'.deletes = f.deletes)
  | calls (i : ℕ)
      (hcache : f'.cache = { f.cache with readers := f.cache.readers ++ [newWaitGroup] })
      (hmap : f'.inodeMap = f.inodeMap) (hnonce : f'.lastNonce = f.lastNonce)
      (hdeletes : f'.deletes = f.deletes ++ [⟨i, f.cache.readers.length, false⟩])

theorem Idles.refl (f : CachedFiles) : Idles f f := .same rfl (fun _ => id) le_rfl rfl

theorem idles_touch (f : CachedFiles) (i : ℕ) : Idles f (f.touch i) :=
  .same rfl (fun _ => id) le_rfl rfl

/-- `DoOpen` touches no line. -/
theorem idles_doOpen (f : CachedFiles) (i : ℕ) (exclusive : Bool) (mode : AccessMode) :
    Idles f (f.doOpen i exclusive mode) := by
  unfold doOpen
  split
  · exact .refl f
  split
  · exact .fatal rfl
  split
  · exact .refl f
  rename_i readOnly _ _
  have hopened : ∀ g : CachedFiles, g.cache = f.cache → g.inodeMap = f.inodeMap →
      g.lastNonce = f.lastNonce + 1 → g.deletes = f.deletes →
      Idles f (if mode ≠ AccessMode.RDONLY ∧ readOnly = true then f else g) := by
    intro g hcache hmap hnonce hdeletes
    split
    · exact .refl f
    · refine .same hcache (fun i hi => ?_) ?_ hdeletes
      · rw [hmap] at hi
        exact hi
      · rw [hnonce]
        exact Nat.le_succ _
  dsimp only
  split
  · split
    · exact .fatal rfl
    split
    · exact .refl f
    · exact hopened _ rfl rfl rfl rfl
  · exact hopened _ rfl rfl rfl rfl

/-- `DoRelease` touches no line. -/
theorem idles_doRelease (f : CachedFiles) (i fh : ℕ) : Idles f (f.doRelease i fh) := by
  unfold doRelease
  split
  · exact .refl f
  split
  · exact .fatal rfl
  split
  · exact idles_touch f i
  split
  · exact .fatal rfl
  dsimp only
  split
  · exact .same rfl (fun _ => id) le_rfl rfl
  · exact .calls i rfl rfl rfl rfl

/-- `DoUnlink` touches no line. -/
theorem idles_doUnlink (f : CachedFiles) (i : ℕ) : Idles f (f.doUnlink i) := by
  unfold doUnlink
  split
  · exact .refl f
  split
  · exact .fatal rfl
  split
  · exact .refl f
  dsimp only
  split
  · exact idles_touch f i
  split
  · exact .same rfl (fun _ => id) le_rfl rfl
  · exact .calls i rfl rfl rfl rfl

/-- A call that touches no line keeps the files of the cache. -/
theorem FilesKept.idle (h : FilesKept cfg objects f) (hidle : Idles f f') :
    f'.cache.fatal = true ∨ (FilesKept cfg objects f' ∧ Touches f.cache f'.cache) := by
  cases hidle with
  | fatal hfatal => exact .inl hfatal
  | same hcache hmap hnonce hdeletes =>
      refine .inr (h.goes ?_ hmap hnonce fun del hdel => ⟨del, hdeletes ▸ hdel, rfl⟩)
      rw [hcache]
      exact h.cache.frees.goes
  | calls i hcache hmap hnonce hdeletes =>
      have hheld : heldLines (f.cache.readers ++ [newWaitGroup]) = heldLines f.cache.readers := by
        rw [heldLines, List.flatMap_append]
        exact List.append_nil _
      refine .inr ⟨⟨?_, fun i hi => ?_, fun del hdel => ?_⟩, ?_⟩
      · rw [hcache, hnonce, hheld]
        exact h.cache.frame _ _ _
      · rw [hnonce]
        exact h.known i (hmap ▸ hi)
      · rw [hcache]
        rw [hdeletes] at hdel
        rcases List.mem_append.mp hdel with hold | hnew
        · obtain ⟨wg, hwg, hpc⟩ := h.waiters del hold
          refine ⟨wg, ?_, hpc⟩
          obtain ⟨hlt, -⟩ := List.getElem?_eq_some_iff.mp hwg
          exact (List.getElem?_append_left hlt).trans hwg
        · rw [List.mem_singleton.mp hnew]
          exact ⟨newWaitGroup, List.getElem?_concat_length, rfl⟩
      · rw [hcache]
        exact (Releases.of_eq rfl rfl).touches

/-- **A file is found**: what is left of an earlier map is not its own. -/
theorem FilesKept.createFileObjectInode (h : FilesKept cfg objects f) (nonce : ℕ) :
    (f.createFileObjectInode nonce).cache.fatal = true ∨
      (FilesKept cfg objects (f.createFileObjectInode nonce) ∧
        Touches f.cache (f.createFileObjectInode nonce).cache) := by
  unfold CachedFiles.createFileObjectInode
  split
  · exact .inl rfl
  obtain ⟨m, hle, hok⟩ := h.cache
  have hkept : Kept cfg (inodesUpTo objects f.lastNonce)
      { f.cache with
        cacheMap := Function.update f.cache.cacheMap (f.lastNonce + 1) fun _ => none
        inboundCacheLineCount :=
          Function.update f.cache.inboundCacheLineCount (f.lastNonce + 1) 0 }
      (heldLines f.cache.readers) := by
    refine ⟨m, fun i n l hentry => ?_, hok.frame _ _ _⟩
    -- no line is mapped for a number that has not been given
    have hne : i ≠ f.lastNonce + 1 := by
      obtain ⟨-, hlist, hi, -⟩ := hok.mapped.entry i n l hentry
      have hthere := (hok.mapped.listed l hlist).2
      rw [hi] at hthere
      unfold inodesUpTo at hthere
      split at hthere
      · omega
      · cases hthere
    show Function.update f.cache.cacheMap (f.lastNonce + 1) _ i n = some l
    rw [Function.update_of_ne hne]
    exact hle i n l hentry
  refine .inr ⟨⟨hkept.upTo (Nat.le_succ _), fun i hi => ?_, h.waiters⟩,
    (Releases.of_eq rfl rfl).touches⟩
  change Function.update f.inodeMap (f.lastNonce + 1) true i = true at hi
  show i ≤ f.lastNonce + 1
  by_cases heq : i = f.lastNonce + 1
  · exact heq.le
  · rw [Function.update_of_ne heq] at hi
    exact (h.known i hi).trans (Nat.le_succ _)

/-- The inodes that the tree holds are among those ever created. -/
theorem among_inodesUpTo (h : FilesKept cfg objects f) :
    Among (inodesUpTo objects f.lastNonce) (f.inodes objects) := by
  intro i info hinfo
  unfold inodes at hinfo
  split at hinfo
  · rename_i hi
    unfold inodesUpTo
    rw [if_pos (h.known i hi)]
    exact hinfo
  · cases hinfo

/-- **A step of the data cache**. -/
theorem FilesKept.cacheStep {s : CacheStep} (h : FilesKept cfg objects f)
    (hstep : f.cacheStep cfg objects s = some f') :
    f'.cache.fatal = true ∨ (FilesKept cfg objects f' ∧ Touches f.cache f'.cache) := by
  obtain ⟨c, hc, hstep⟩ := Option.bind_eq_some_iff.mp hstep
  obtain ⟨checked, hchecked, hstep⟩ := Option.bind_eq_some_iff.mp hstep
  split at hstep
  · rename_i hf
    exact .inl (Option.some.inj hstep ▸ hf)
  rename_i hf
  obtain rfl := Option.some.inj hstep
  obtain ⟨hmap, hnonce, hdeletes⟩ : checked.inodeMap = f.inodeMap ∧
      checked.lastNonce = f.lastNonce ∧ checked.deletes = f.deletes := by
    rcases cacheChecks_cases hchecked with rfl | rfl | ⟨i, -, rfl⟩
    · exact ⟨rfl, rfl, rfl⟩
    · exact absurd rfl hf
    · exact ⟨rfl, rfl, rfl⟩
  have hopened : Kept cfg (inodesUpTo objects f.lastNonce) { f.cache with handles := f.handles }
      (heldLines f.cache.readers) := h.cache.frame _ _ _
  -- what a fetch answers is the object of an inode that there is
  have hsees : CacheStep.Sees (inodesUpTo objects f.lastNonce) (f.view objects s) s := by
    cases s with
    | fetchAnswer l succeeds =>
        intro i info hinfo
        unfold inodesUpTo at hinfo
        split at hinfo
        · exact hinfo
        · cases hinfo
    | _ => exact among_inodesUpTo h
  rcases hopened.step hsees hc with hfatal | hgoes
  · exact .inl hfatal
  refine .inr (h.goes ⟨hgoes.kept, hgoes.touches, hgoes.returned⟩
    (fun i hi => ?_) hnonce.ge fun del hdel => ⟨del, hdeletes ▸ hdel, rfl⟩)
  exact hmap ▸ hi

/-- **A section of `finishPendingDelete`**. -/
theorem FilesKept.finishPendingDelete {d : ℕ} {del : PendingDelete} {order : List ℕ}
    (h : FilesKept cfg objects f) (hd : f.deletes[d]? = some del) (ans : DiskAnswers) :
    (f.finishPendingDelete cfg d del order ans).cache.fatal = true ∨
      (FilesKept cfg objects (f.finishPendingDelete cfg d del order ans) ∧
        Touches f.cache (f.finishPendingDelete cfg d del order ans).cache) := by
  have hmem := List.mem_of_getElem? hd
  unfold CachedFiles.finishPendingDelete dropCleanLines
  dsimp only
  split
  · exact .inl ‹_›
  rename_i halive
  have hdropped := (h.cache.dropLines ans del.inode false).resolve_left halive
  split
  -- no line is left: the inode is removed
  · unfold removeDeleted
    split
    · exact .inl rfl
    split
    · exact .inl rfl
    refine .inr (h.goes hdropped.goes (fun j hj => ?_) le_rfl fun del' hdel' => ?_)
    · change Function.update f.inodeMap del.inode false j = true at hj
      rw [Function.update_apply] at hj
      split at hj
      · cases hj
      · exact hj
    · rcases List.mem_or_eq_of_mem_set hdel' with hold | rfl
      · exact ⟨del', hold, rfl⟩
      · exact ⟨del, hmem, rfl⟩
  · split
    · exact .inl rfl
    -- a line is left: the deletion waits for it once more
    rename_i l _ hle
    generalize DataCache.dropLines cfg ans del.inode false order f.cache = c at *
    obtain ⟨wg, hwg, hpc⟩ := h.waiters del hmem
    have hheld : wg.held = [] := by rw [Reader.held, hpc]
    rw [← hdropped.readers] at hwg
    obtain ⟨others, hperm, hset⟩ := heldLines_set hwg
    have hkept := hdropped.kept
    rw [← hdropped.readers] at hkept
    have hwaits := (hkept.held_perm hperm.symm).waiters (Nat.not_le.mp hle)
      ((c.lines l).waiters ++ [del.cacheLineWaiter])
    rw [hheld] at hwaits
    refine .inr (h.goes ⟨?_, ?_, fun w wg' hwg' hpc' => ?_⟩ (fun _ => id) le_rfl
      fun del' hdel' => ⟨del', hdel', rfl⟩)
    · exact (hwaits.held_perm (hset { newWaitGroup with waits := 1 })).setReader _ _
    · exact (hdropped.releases.trans (.of_eq rfl rfl)).touches
    · show ∃ wg', (c.readers.set del.cacheLineWaiter _)[w]? = some wg' ∧ _
      by_cases heq : del.cacheLineWaiter = w
      · obtain ⟨hlt, -⟩ := List.getElem?_eq_some_iff.mp hwg
        rw [← heq, List.getElem?_set_self hlt]
        exact ⟨_, rfl, rfl⟩
      · rw [List.getElem?_set_ne heq, hdropped.readers]
        exact ⟨wg', hwg', hpc'⟩

/-- **A turn of the evictor**. -/
theorem FilesKept.evict {order : List ℕ} (h : FilesKept cfg objects f) (ans : DiskAnswers) :
    (f.evict cfg i order ans).cache.fatal = true ∨
      (FilesKept cfg objects (f.evict cfg i order ans) ∧
        Touches f.cache (f.evict cfg i order ans).cache) := by
  unfold CachedFiles.evict clearFileCacheLinesLocked
  split
  · exact .inl rfl
  dsimp only
  split
  · exact .inl ‹_›
  rename_i halive
  have hdropped := (h.cache.dropLines ans i true).resolve_left halive
  refine .inr (h.goes hdropped.goes (fun j hj => ?_) le_rfl fun del hdel => ⟨del, hdel, rfl⟩)
  change Function.update f.inodeMap i false j = true at hj
  rw [Function.update_apply] at hj
  split at hj
  · cases hj
  · exact hj

/-- **One step** of the files. -/
theorem FilesKept.step {a : FileStep} (h : FilesKept cfg objects f)
    (hstep : step cfg objects f a = some f') :
    f'.cache.fatal = true ∨ (FilesKept cfg objects f' ∧ Touches f.cache f'.cache) := by
  unfold CachedFiles.step at hstep
  split at hstep
  · cases hstep
  cases a with
  | cache s => exact h.cacheStep hstep
  -- the calls that leave the lines alone
  | mount readOnly =>
      obtain rfl := Option.some.inj hstep
      exact h.idle (.same rfl (fun _ => id) (Nat.le_succ _) rfl)
  | unmount nonce =>
      dsimp only [stepAlive] at hstep
      split at hstep
      · obtain rfl := Option.some.inj hstep
        exact h.idle (.same rfl (fun i hi => (Bool.and_eq_true_iff.mp hi).1) le_rfl rfl)
      · cases hstep
  | createFileObjectInode nonce =>
      obtain rfl := Option.some.inj hstep
      exact h.createFileObjectInode nonce
  | touch i =>
      dsimp only [stepAlive] at hstep
      split at hstep
      · obtain rfl := Option.some.inj hstep
        exact h.idle (idles_touch f i)
      · cases hstep
  | doOpen i exclusive mode =>
      obtain rfl := Option.some.inj hstep
      exact h.idle (idles_doOpen f i exclusive mode)
  | doRelease i fh =>
      obtain rfl := Option.some.inj hstep
      exact h.idle (idles_doRelease f i fh)
  | doUnlink i =>
      obtain rfl := Option.some.inj hstep
      exact h.idle (idles_doUnlink f i)
  -- the two that drop lines
  | finishPendingDelete d order ans =>
      obtain ⟨del, hdel, hstep⟩ := Option.bind_eq_some_iff.mp hstep
      obtain ⟨wg, -, hstep⟩ := Option.bind_eq_some_iff.mp hstep
      split at hstep
      · obtain rfl := Option.some.inj hstep
        exact h.finishPendingDelete hdel ans
      · cases hstep
  | evict i order ans =>
      dsimp only [stepAlive] at hstep
      split at hstep
      · obtain rfl := Option.some.inj hstep
        exact h.evict ans
      · cases hstep

theorem filesKept_initial (cfg : CacheConfig) (objects : ℕ → List UInt8) (reads : List ReadIn) :
    FilesKept cfg objects (initial cfg reads) := by
  refine ⟨.of_cacheOk ?_, nofun, nofun⟩
  have hreads := readsOk_dataCacheUp cfg (inodesUpTo objects 1) reads fun _ _ => none
  exact hreads.cache rfl

/-- **Every run** keeps the lines and their files in order, whatever is
unmounted. -/
theorem filesKept_of_run {reads : List ReadIn} {steps : List FileStep}
    (hrun : exec (CachedFiles.step cfg objects) (initial cfg reads) steps = some f) :
    f.cache.fatal = true ∨ FilesKept cfg objects f := by
  refine exec_invariant (I := fun f => f.cache.fatal = true ∨ FilesKept cfg objects f)
    (fun f a f' h _ hstep => ?_) (Always.of_mem (fun _ _ _ => trivial) _) hrun
    (.inr (filesKept_initial cfg objects reads))
  rcases h with hfatal | h
  · unfold CachedFiles.step at hstep
    rw [if_pos hfatal] at hstep
    cases hstep
  · exact (h.step hstep).imp_right And.left

/-- **Backing files.**  In every run, whatever the disk answers, a backing file
counts the lines of its inode with backing, each of these has its bytes at its
place in the open file of its own inode, and a step closes and removes a file
exactly where these lines drop to none. -/
theorem files_backed {reads : List ReadIn} {steps : List FileStep}
    (hrun : exec (CachedFiles.step cfg objects) (initial cfg reads) steps = some f) :
    (f.cache.fatal = true ∨ Backed cfg objects f.cache) ∧
      ∀ a f', CachedFiles.step cfg objects f a = some f' →
        f'.cache.fatal = true ∨ Closes cfg f.cache f'.cache := by
  have h := filesKept_of_run hrun
  refine ⟨h.imp_right fun h => h.cache.backed, fun a f' hstep => ?_⟩
  rcases h with hfatal | h
  · unfold CachedFiles.step at hstep
    rw [if_pos hfatal] at hstep
    cases hstep
  · exact (h.step hstep).imp_right fun hstepped =>
      hstepped.2.closes h.cache.disk hstepped.1.cache.disk

/-- A file is read into its backing file, and may be evicted. -/
def readAndRelease : List FileStep :=
  [.mount false, .createFileObjectInode 2, .doOpen 3 false .RDONLY, .cache (.read 0 goodDisk),
    .cache (.assign 0 goodDisk), .cache (.fetchBegin 0 goodDisk), .cache (.fetchAnswer 0 true),
    .cache (.fetchEnd 0 goodDisk), .doRelease 3 4]

/-- The run theorem at a read and a release of the last handle. -/
theorem readAndRelease_backed : ∃ f f',
    exec (CachedFiles.step (oneLine .perInodeFile) threeBytes)
      (initial (oneLine .perInodeFile) [⟨3, 4, 0, 2⟩]) readAndRelease = some f ∧
    CachedFiles.step (oneLine .perInodeFile) threeBytes f (.evict 3 [0] goodDisk) = some f' ∧
    Backed (oneLine .perInodeFile) threeBytes f.cache ∧
    Closes (oneLine .perInodeFile) f.cache f'.cache ∧
    (f.cache.inodeDiskCacheFiles 3).map InodeDiskFile.residentLines = some 1 ∧
    (f'.cache.inodeDiskCacheFiles 3).isNone := by
  obtain ⟨f', hrun', halive', hgone⟩ : ∃ f',
      exec (CachedFiles.step (oneLine .perInodeFile) threeBytes)
        (initial (oneLine .perInodeFile) [⟨3, 4, 0, 2⟩])
        (readAndRelease ++ [.evict 3 [0] goodDisk]) = some f' ∧
      f'.cache.fatal = false ∧ (f'.cache.inodeDiskCacheFiles 3).isNone :=
    exec_exists (by decide +kernel)
  obtain ⟨f₀, hrun₀, halive, hone⟩ : ∃ f,
      exec (CachedFiles.step (oneLine .perInodeFile) threeBytes)
        (initial (oneLine .perInodeFile) [⟨3, 4, 0, 2⟩]) readAndRelease = some f ∧
      f.cache.fatal = false ∧
      (f.cache.inodeDiskCacheFiles 3).map InodeDiskFile.residentLines = some 1 :=
    exec_exists (by decide +kernel)
  obtain ⟨f, hrun, hstep⟩ := exec_snoc.mp hrun'
  obtain rfl := Option.some.inj (hrun₀.symm.trans hrun)
  obtain ⟨hbacked, hcloses⟩ := files_backed hrun
  refine ⟨f₀, f', hrun, hstep, hbacked.resolve_left ?_, (hcloses _ f' hstep).resolve_left ?_, hone,
    hgone⟩
  · rw [halive]
    nofun
  · rw [halive']
    nofun

end CachedFiles

end MultiStorageFileSystem
