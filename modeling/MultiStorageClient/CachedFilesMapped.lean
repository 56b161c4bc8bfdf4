/-
MultiStorageClient/CachedFilesMapped.lean

The lines and the maps of the files, while files come and go.

`FilesOk` is the invariant: the cache is in order for the inodes that are there
(`ReadsOk`), the waiters and the counts of inbound lines are right, and a file
on the eviction queue has no handle and no inbound line.  The operations that
remove an inode drop its lines first; unmounting does not, and keeps the
invariant only where no line of the backend is in the cache.
-/
import MultiStorageClient.CachedFilesWaiters

namespace MultiStorageFileSystem

open Run

variable {cfg : CacheConfig} {objects : ℕ → List UInt8} {heap inodes inodes' : ℕ → Option InodeInfo}

namespace DataCache

variable {c c' : DataCache} {i l n : ℕ} {held held' order : List ℕ} {reads : List ReadIn}

/-! ### Other inodes -/

/-- The cache asks of the inodes only what belongs to its lines. -/
theorem CacheOk.otherInodes (h : CacheOk cfg inodes c held)
    (hsame : ∀ l, (c.lines l).Listed →
      inodes' (c.lines l).inodeNumber = inodes (c.lines l).inodeNumber) :
    CacheOk cfg inodes' c held := by
  have hwanted : ∀ l, (c.lines l).Listed →
      (c.lines l).wanted cfg inodes' = (c.lines l).wanted cfg inodes := by
    intro l hlist
    unfold CacheLine.wanted backendLine
    rw [hsame l hlist]
  refine ⟨h.lists, fun l => ⟨(h.line l).fetching, (h.line l).reading, fun buf hfetch => ?_,
    fun hclean hok => ?_, (h.line l).disk⟩, ⟨h.mapped.entry, fun l hlist => ?_⟩, h.outside,
    ⟨fun l d hd => ?_, h.disk.distinct, h.disk.opened, h.disk.owner, h.disk.resident⟩⟩
  · rw [hwanted l (.inl ((h.line l).fetching (by rw [hfetch]; nofun)))]
    exact (h.line l).answered buf hfetch
  · rw [hwanted l (.inr hclean)]
    exact (h.line l).stored hclean hok
  · rw [hsame l hlist]
    exact h.mapped.listed l hlist
  · obtain ⟨hl, hfile, hoff, hholds⟩ := h.disk.placed l d hd
    refine ⟨hl, hfile, hoff, ?_⟩
    rw [hwanted l (.inr ((h.line l).disk (by rw [hd]; rfl)).1)]
    exact hholds

theorem ReadsOk.otherInodes (h : ReadsOk cfg heap inodes reads c) (hamong : Among heap inodes')
    (hsame : c.fatal = false → ∀ l, (c.lines l).Listed →
      inodes' (c.lines l).inodeNumber = inodes (c.lines l).inodeNumber) :
    ReadsOk cfg heap inodes' reads c :=
  ⟨hamong, h.reads, h.data, fun hfatal => (h.cache hfatal).otherInodes (hsame hfatal), h.snap⟩

/-! ### Dropping clean lines -/

/-- **A clean line of a file is dropped**, with its backing. -/
theorem CacheOk.dropClean (h : CacheOk cfg inodes c held) (ans : DiskAnswers)
    (hentry : c.cacheMap i n = some l) (hclean : (c.lines l).state = .clean) :
    CacheOk cfg inodes (c.dropClean cfg ans i n l) held ∧
      Advance cfg c (c.dropClean cfg ans i n l) := by
  obtain ⟨hl, hi, hn, -⟩ := h.cached hentry
  have hmem : l ∈ c.cleanLRU := (h.lists.mem .clean l).mpr ⟨Finset.mem_range.mpr hl, hclean⟩
  generalize hc₁ : (c.setCacheMap i n none).popClean l = c₁
  have hself₁ : c₁.lines l = { c.lines l with state := .notOnLRU } := by
    rw [← hc₁]
    exact Function.update_self _ _ _
  have hch₁ : Changes l c c₁ := by
    rw [← hc₁]
    exact ⟨fun _ hne => Function.update_of_ne hne _ _, fun _ _ => rfl⟩
  have hdisk₁ : DiskOk cfg inodes c₁ := by
    refine h.disk.congr (SameDisk.of_line (l := l) hch₁.lines ?_ (fun _ => ?_) ?_ ?_ ?_ ?_)
    · rw [hself₁]
    · rw [hself₁]
      exact ⟨rfl, rfl⟩
    all_goals rw [← hc₁]; rfl
  have hmap₁ : ∀ i' n', c₁.cacheMap i' n' =
      if i' = (c.lines l).inodeNumber ∧ n' = (c.lines l).lineNumber then none
      else c.cacheMap i' n' := by
    intro i' n'
    rw [hi, hn, ← cacheMap_setCacheMap c i n none i' n', ← hc₁]
    rfl
  -- what `free` does first leaves a line without backing
  generalize hp : (if cfg.onDisk then c₁.punchHoleDisk cfg ans l else c₁) = punched
  have hpunched : CacheOk cfg inodes punched (l :: held) ∧ Changes l c punched ∧
      (punched.lines l).contentGeneration = (c.lines l).contentGeneration := by
    rw [← hp]
    split
    · obtain ⟨files, fileOpen, idcfs, heq⟩ := punchHoleDisk_eq cfg ans c₁ l
      have hok := hdisk₁.punchHoleDisk ans l
      generalize c₁.punchHoleDisk cfg ans l = c₂ at heq hok
      have hself₂ : c₂.lines l = { c₁.lines l with disk := none } := by
        rw [heq]
        exact Function.update_self _ _ _
      have hch₂ : Changes l c c₂ := by
        refine ⟨fun l' hne => ?_, fun l' hne => ?_⟩
        · rw [← hch₁.lines l' hne, heq]
          exact Function.update_of_ne hne _ _
        · rw [← hch₁.arena l' hne, heq]
      refine ⟨h.unlist hmem hch₂ ?_ ?_ ?_ (fun i' n' => ?_) ?_ ?_ ?_ hok, hch₂, ?_⟩
      · rw [heq, ← hc₁]
        rfl
      · rw [heq, ← hc₁]
        rfl
      · rw [heq, ← hc₁]
        rfl
      · rw [← hmap₁, heq]
      · rw [hself₂, hself₁]
      · rw [hself₂, hself₁]
      · rw [hself₂]
      · rw [hself₂, hself₁]
    · rename_i hram
      refine ⟨h.unlist hmem hch₁ ?_ ?_ ?_ hmap₁ ?_ ?_ ?_ hdisk₁, hch₁, ?_⟩
      · rw [← hc₁]
        rfl
      · rw [← hc₁]
        rfl
      · rw [← hc₁]
        rfl
      · rw [hself₁]
      · rw [hself₁]
      · rw [hself₁]
        exact (h.line l).disk_none (.inr (.inr (Bool.eq_false_iff.mpr hram)))
      · rw [hself₁]
  obtain ⟨hok, hch, hgen⟩ := hpunched
  have hfree : c.dropClean cfg ans i n l = punched.freeLine cfg ans l := by
    have hnone := (hok.line l).disk_none (.inl (by
      rw [hok.state_of_mem (s := .notOnLRU) (List.mem_cons_self ..)]
      nofun))
    have hagain : (if cfg.onDisk then punched.punchHoleDisk cfg ans l else punched) = punched := by
      rw [punchHoleDisk_of_none cfg ans hnone, ite_self]
    unfold DataCache.dropClean DataCache.freeLine
    rw [hc₁, hp, hagain]
  rw [hfree]
  obtain ⟨hok', -, -⟩ := hok.freeLine ans
  obtain ⟨disk, files, fileOpen, idcfs, heq⟩ := freeLine_spec cfg ans punched l
  refine ⟨hok', Changes.advance (l := l) ⟨fun l' hne => ?_, fun l' hne => ?_⟩ (.of_lt ?_)⟩
  · rw [heq, ← hch.lines l' hne]
    exact Function.update_of_ne hne _ _
  · rw [heq, ← hch.arena l' hne]
  · rw [heq, ← hgen]
    show _ < (Function.update punched.lines l _ l).contentGeneration
    rw [Function.update_self]
    exact Nat.lt_succ_self _

/-- **The loop over the map of a file** drops clean lines only. -/
theorem CacheOk.dropLines (ans : DiskAnswers) (i : ℕ) (onlyClean : Bool) :
    ∀ {order : List ℕ} {c : DataCache}, CacheOk cfg inodes c held →
      (dropLines cfg ans i onlyClean order c).fatal = true ∨
        (CacheOk cfg inodes (dropLines cfg ans i onlyClean order c) held ∧
          Advance cfg c (dropLines cfg ans i onlyClean order c)) := by
  intro order
  induction order with
  | nil => exact fun h => .inr ⟨h, .refl _⟩
  | cons n order ih =>
      intro c h
      rw [DataCache.dropLines]
      split
      · exact ih h
      rename_i l hentry
      split
      · exact .inl rfl
      split
      · rename_i hclean
        obtain ⟨h₁, hadv₁⟩ := h.dropClean ans hentry hclean
        rcases ih h₁ with hfatal | ⟨h₂, hadv₂⟩
        · exact .inl hfatal
        · exact .inr ⟨h₂, hadv₁.trans hadv₂⟩
      · split
        · exact .inl rfl
        · exact ih h

/-- A file's map names lines of the file. -/
theorem CacheOk.names (h : CacheOk cfg inodes c held) (i : ℕ) (hnodup : order.Nodup) :
    c.NamesLines i order := by
  constructor
  · refine hnodup.filterMap fun n n' l hn hn' => ?_
    rw [← (h.cached hn).2.2.1, ← (h.cached hn').2.2.1]
  · intro l hl
    obtain ⟨n, -, hentry⟩ := List.mem_filterMap.mp hl
    exact (h.cached hentry).2.2.2.imp_right And.left

/-- **No line of the file is left** when the loop has left no entry. -/
theorem CacheOk.none_left {ans : DiskAnswers} {onlyClean : Bool} (h : CacheOk cfg inodes c held)
    (h' : CacheOk cfg inodes (DataCache.dropLines cfg ans i onlyClean order c) held')
    (hvisits : c.Visits cfg i order)
    (hnone : ∀ n ∈ order,
      (DataCache.dropLines cfg ans i onlyClean order c).cacheMap i n = none)
    (hlist : ((DataCache.dropLines cfg ans i onlyClean order c).lines l).Listed) :
    ((DataCache.dropLines cfg ans i onlyClean order c).lines l).inodeNumber ≠ i := by
  intro hi
  obtain ⟨hentry, -⟩ := h'.mapped.listed l hlist
  rw [hi] at hentry
  obtain ⟨hl, hi₀, hn₀, hs₀⟩ := h.cached (dropLines_le ans i onlyClean hentry)
  have hmem := hvisits l hl (hs₀.imp_right And.left) hi₀
  rw [hn₀] at hmem
  rw [hnone _ hmem] at hentry
  cases hentry

/-! ### Readers that come with a delete -/

/-- The readers may be joined by `WaitGroup`s of deletes. -/
theorem ReadsOk.of_readers (h : ReadsOk cfg heap inodes reads c) (hfatal : c.fatal = false)
    (hamong : Among heap inodes') (hadv : Advance cfg c c')
    (hreaders : ∀ rd ∈ c'.readers, rd ∈ c.readers ∨ ∃ n, rd = { newWaitGroup with waits := n })
    (hcache : CacheOk cfg inodes' c' (heldLines c'.readers)) :
    ReadsOk cfg heap inodes' (c'.readers.map Reader.readIn) c' := by
  refine ⟨hamong, rfl, fun rd hrd => ?_, fun _ => hcache, fun _ rd hrd s hs => ?_⟩
  · rcases hreaders rd hrd with hold | ⟨n, rfl⟩
    · exact h.data rd hold
    · exact ⟨rfl, le_rfl, Slice.slice_nil_of_zero.symm, fun _ => Slice.slice_nil_of_zero.symm,
        nofun, nofun⟩
  · rcases hreaders rd hrd with hold | ⟨n, rfl⟩
    · exact (h.snap hfatal rd hold s hs).advance hadv
    · cases hs

/-- An inode without inbound lines. -/
theorem CacheOk.no_inbound (h : CacheOk cfg inodes c held) (hcount : CountOk c i)
    (hzero : c.inboundCacheLineCount i = 0) (hs : (c.lines l).state = .inbound) :
    (c.lines l).inodeNumber ≠ i := by
  intro hi
  have hl : l < cfg.cacheLines := by
    by_contra hle
    rw [h.outside l (Nat.not_lt.mp hle)] at hs
    cases hs
  have hmem : l ∈ c.inboundLRU.filter fun l => (c.lines l).inodeNumber = i :=
    List.mem_filter.mpr
      ⟨(h.lists.mem .inbound l).mpr ⟨Finset.mem_range.mpr hl, hs⟩, by simpa using hi⟩
  unfold CountOk at hcount
  rw [hzero] at hcount
  rw [List.eq_nil_of_length_eq_zero hcount.symm] at hmem
  cases hmem

end DataCache

namespace CachedFiles

open DataCache

variable {f f' g : CachedFiles} {i : ℕ}

/-! ### The files -/

theorem among_inodes (objects : ℕ → List UInt8) (f : CachedFiles) :
    Among (objectInodes objects) (f.inodes objects) := by
  intro i info h
  unfold inodes at h
  split at h
  · exact h
  · cases h

theorem isSome_inodes (objects : ℕ → List UInt8) (f : CachedFiles) (i : ℕ) :
    (f.inodes objects i).isSome ↔ f.inodeMap i = true := by
  unfold inodes
  split
  · exact iff_of_true rfl ‹_›
  · exact iff_of_false nofun ‹_›

/-- The invariant of the files and their lines. -/
structure FilesOk (cfg : CacheConfig) (objects : ℕ → List UInt8) (f : CachedFiles) : Prop where
  reads : ReadsOk cfg (objectInodes objects) (f.inodes objects)
    (f.cache.readers.map Reader.readIn) f.cache
  parties : Parties cfg f.cache f.deletes
  counts : ∀ i, f.inodeMap i = true → CountOk f.cache i
  known : ∀ i, f.inodeMap i = true → i ≤ f.lastNonce
  queued : ∀ i, (f.inode i).queued = true → f.inodeMap i = true ∧ (f.inode i).fhSet = [] ∧
    (f.inode i).pendingDelete = false ∧
    ∀ l, (f.cache.lines l).state = .inbound → (f.cache.lines l).inodeNumber ≠ i
  pending : ∀ del ∈ f.deletes, (f.inode del.inode).pendingDelete = true ∧ del.inode ≤ f.lastNonce

@[simp] theorem inode_setInode (f : CachedFiles) (i : ℕ) (ino : CachedInode) :
    (f.setInode i ino).inode i = ino := Function.update_self _ _ _

@[simp] theorem pendingDelete_touch (f : CachedFiles) (i : ℕ) :
    ((f.touch i).inode i).pendingDelete = (f.inode i).pendingDelete := by
  unfold touch
  rw [inode_setInode]

/-- An operation ends by touching the inode that it has changed. -/
theorem FilesOk.touched (h : FilesOk cfg objects f) (hfatal : f.cache.fatal = false)
    (hi : f.inodeMap i = true) (hcache : g.cache = f.cache) (hmap : g.inodeMap = f.inodeMap)
    (hdeletes : g.deletes = f.deletes) (hnonce : f.lastNonce ≤ g.lastNonce)
    (hinode : ∀ j, j ≠ i → g.inode j = f.inode j)
    (hpending : (f.inode i).pendingDelete = true → (g.inode i).pendingDelete = true) :
    FilesOk cfg objects (g.touch i) := by
  have hinodes : (g.touch i).inodes objects = f.inodes objects := by
    funext j
    unfold inodes
    show (if g.inodeMap j = true then _ else _) = _
    rw [hmap]
  have hcache' : (g.touch i).cache = f.cache := hcache
  have hmap' : (g.touch i).inodeMap = f.inodeMap := hmap
  have hself : (g.touch i).inode i = { g.inode i with
      queued := !(g.inode i).pendingDelete && (g.inode i).fhSet.isEmpty &&
        g.cache.inboundCacheLineCount i == 0 } := Function.update_self _ _ _
  have hother : ∀ j, j ≠ i → (g.touch i).inode j = f.inode j := fun j hji =>
    (Function.update_of_ne hji _ _).trans (hinode j hji)
  refine ⟨?_, ?_, fun j hj => ?_, fun j hj => ?_, fun j hq => ?_, fun del hdel => ?_⟩
  · rw [hinodes, hcache']
    exact h.reads
  · rw [hcache']
    exact hdeletes ▸ h.parties
  · rw [hcache']
    exact h.counts j (hmap' ▸ hj)
  · exact (h.known j (hmap' ▸ hj)).trans hnonce
  · rw [hmap', hcache']
    -- queued by the touch itself, which looks at the handles and the inbound lines
    by_cases hji : j = i
    · rw [hji] at hq ⊢
      rw [hself] at hq ⊢
      obtain ⟨⟨hpending, hempty⟩, hzero⟩ := (and_congr_left' Bool.and_eq_true_iff).mp
        (Bool.and_eq_true_iff.mp hq)
      refine ⟨hi, List.isEmpty_iff.mp hempty, (Bool.not_eq_true' _).mp hpending, fun l hs => ?_⟩
      rw [hcache] at hzero
      exact (h.reads.cache hfatal).no_inbound (h.counts i hi) (beq_iff_eq.mp hzero) hs
    · rw [hother j hji] at hq ⊢
      exact h.queued j hq
  · obtain ⟨hdel₁, hdel₂⟩ := h.pending del (hdeletes ▸ hdel)
    refine ⟨?_, hdel₂.trans hnonce⟩
    by_cases hji : del.inode = i
    · rw [hji] at hdel₁ ⊢
      rw [hself]
      exact hpending hdel₁
    · rw [hother _ hji]
      exact hdel₁

/-- `finishPendingDelete` is called. -/
theorem FilesOk.call (h : FilesOk cfg objects f) (hfatal : f.cache.fatal = false)
    (hi : f.inodeMap i = true) (hpending : (f.inode i).pendingDelete = true) :
    FilesOk cfg objects (f.callFinishPendingDelete i) := by
  have hcache := h.reads.cache hfatal
  refine ⟨?_, (h.parties.call i).1, h.counts, h.known, h.queued, fun del hdel => ?_⟩
  case refine_2 =>
    rcases List.mem_append.mp hdel with hold | hnew
    · exact h.pending del hold
    · rw [List.mem_singleton.mp hnew]
      exact ⟨hpending, h.known i hi⟩
  refine h.reads.of_readers hfatal (among_inodes objects _) (fun _ => LineAdvance.refl _ _)
    (fun rd hrd => ?_) ?_
  · rcases List.mem_append.mp hrd with hold | hnew
    · exact .inl hold
    · exact .inr ⟨0, List.mem_singleton.mp hnew⟩
  · have hheld : heldLines (f.cache.readers ++ [newWaitGroup]) = heldLines f.cache.readers := by
      rw [heldLines, List.flatMap_append]
      exact List.append_nil _
    show CacheOk cfg (f.inodes objects) { f.cache with
      readers := f.cache.readers ++ [newWaitGroup] } (heldLines (f.cache.readers ++ [newWaitGroup]))
    rw [hheld]
    exact hcache.frame _ _ _

/-- The backend answers with what the inode says. -/
theorem step_view {c : DataCache} {held : List ℕ} (h : CacheOk cfg (f.inodes objects) c held)
    (s : CacheStep) :
    DataCache.step cfg (f.view objects s) c s = DataCache.step cfg (f.inodes objects) c s := by
  cases s with
  | fetchAnswer l succeeds =>
      unfold DataCache.step DataCache.stepAlive
      split
      · rfl
      dsimp only
      split
      · rename_i i n hfetch
        obtain ⟨rfl, -⟩ := (h.line l).reading i n hfetch
        have hinbound := (h.line l).fetching (by rw [hfetch]; nofun)
        obtain ⟨info, hinfo⟩ := Option.isSome_iff_exists.mp (h.mapped.listed l (.inl hinbound)).2
        have hview : backendLine cfg (objectInodes objects) (c.lines l).inodeNumber n =
            backendLine cfg (f.inodes objects) (c.lines l).inodeNumber n := by
          unfold backendLine
          rw [hinfo, among_inodes objects f _ info hinfo]
        show some (c.fetchAnswer cfg l (if succeeds = true then
          some (backendLine cfg (objectInodes objects) (c.lines l).inodeNumber n) else none)) = _
        rw [hview]
      · rfl
  | _ => rfl

/-- **A step of the data cache** keeps the invariant. -/
theorem FilesOk.cacheStep {s : CacheStep} (h : FilesOk cfg objects f)
    (hfatal : f.cache.fatal = false) (hstep : f.cacheStep cfg objects s = some f') :
    f'.cache.fatal = true ∨ FilesOk cfg objects f' := by
  obtain ⟨c, hc, hstep⟩ := Option.bind_eq_some_iff.mp hstep
  obtain ⟨checked, hchecked, hstep⟩ := Option.bind_eq_some_iff.mp hstep
  split at hstep
  · rename_i hf
    exact .inl (Option.some.inj hstep ▸ hf)
  rename_i hf
  obtain rfl := Option.some.inj hstep
  -- the checks touch an inode at most
  obtain ⟨hok, hcache, hmap, hdeletes, hset⟩ : FilesOk cfg objects checked ∧
      checked.cache = f.cache ∧ checked.inodeMap = f.inodeMap ∧ checked.deletes = f.deletes ∧
      ∀ i, (checked.inode i).fhSet = (f.inode i).fhSet := by
    rcases cacheChecks_cases hchecked with rfl | rfl | ⟨i, hi, rfl⟩
    · exact ⟨h, rfl, rfl, rfl, fun _ => rfl⟩
    · exact absurd rfl hf
    · refine ⟨h.touched hfatal hi rfl rfl rfl le_rfl (fun _ _ => rfl) id, rfl, rfl,
        rfl, fun j => ?_⟩
      by_cases hj : j = i
      · rw [hj]
        show (Function.update f.inode i _ i).fhSet = _
        rw [Function.update_self]
      · exact congrArg CachedInode.fhSet (Function.update_of_ne hj _ _)
  generalize hopen : ({ f.cache with handles := f.handles } : DataCache) = opened at hc
  have hreads : ReadsOk cfg (objectInodes objects) (f.inodes objects)
      (f.cache.readers.map Reader.readIn) opened := by
    rw [← hopen]
    exact h.reads.of_fetch hfatal rfl (fun _ => LineAdvance.refl _ _)
      ((h.reads.cache hfatal).frame _ _ _)
  have hparties : Parties cfg opened f.deletes := by
    rw [← hopen]
    exact (h.parties.same { f.cache with handles := f.handles } rfl
      (fun held s => by cases s <;> rfl) rfl).1
  have hopened : opened.fatal = false := by rw [← hopen, hfatal]
  have hlines : opened.lines = f.cache.lines := by rw [← hopen]
  rw [step_view (hreads.cache hopened)] at hc
  have hreads' := hreads.step hc
  have hfinds : s.Finds (f.inodes objects) opened := by
    obtain ⟨-, htaken⟩ := taken_of_step hc
    have hpresent : ∀ l, (opened.lines l).fetch ≠ .idle →
        (f.inodes objects (opened.lines l).inodeNumber).isSome := fun l hfetch =>
      ((hreads.cache hopened).mapped.listed l
        (.inl (((hreads.cache hopened).line l).fetching hfetch))).2
    cases htaken with
    | fetchBegin ans hfetch => exact .inl (hpresent _ (by rw [hfetch]; nofun))
    | fetchEnd ans hfetch => exact .inl (hpresent _ (by rw [hfetch]; nofun))
    | _ => trivial
  rcases stepOk hparties.lists hparties.waits hc hfinds with hf' | hstepOk
  · exact .inl hf'
  refine .inr ⟨?_, ⟨hstepOk.lists, hstepOk.waits, fun del hdel => ?_⟩, fun i hi => ?_, hok.known,
    fun i hq => ?_, hok.pending⟩
  · have hinodes :
      ({ checked with cache := c } : CachedFiles).inodes objects = f.inodes objects := by
      funext i
      unfold inodes
      show (if checked.inodeMap i = true then _ else _) = _
      rw [hmap]
    rw [hinodes]
    show ReadsOk cfg _ _ (c.readers.map Reader.readIn) c
    rw [hreads'.reads]
    exact hreads'
  · obtain ⟨wg, hwg, hpc⟩ := hparties.waiters del (hdeletes ▸ hdel)
    exact hstepOk.returned _ wg _ hwg hpc
  · have hi₀ : f.inodeMap i = true := hmap ▸ hi
    refine hstepOk.counts i ((isSome_inodes objects f i).mpr hi₀) ?_
    rw [← hopen]
    exact h.counts i hi₀
  · obtain ⟨hi, hempty, hpending, hnone⟩ := hok.queued i hq
    refine ⟨hi, hempty, hpending, fun l hs hil => ?_⟩
    have hclosed : ∀ fh, opened.handles i fh ≠ some true := by
      intro fh hfh
      rw [← hopen] at hfh
      change f.handles i fh = some true at hfh
      unfold handles at hfh
      rw [← hset, hempty, if_neg List.not_mem_nil] at hfh
      cases hfh
    obtain ⟨hs₀, hi₀⟩ := hstepOk.incoming i hclosed l hs hil
    rw [hlines, ← hcache] at hs₀ hi₀
    exact hnone l hs₀ hi₀

/-- **A file is found**: its number is new. -/
theorem FilesOk.createFileObjectInode (h : FilesOk cfg objects f) (hfatal : f.cache.fatal = false)
    (nonce : ℕ) : (f.createFileObjectInode nonce).cache.fatal = true ∨
      FilesOk cfg objects (f.createFileObjectInode nonce) := by
  unfold CachedFiles.createFileObjectInode
  split
  · exact .inl rfl
  have hcache := h.reads.cache hfatal
  -- the number is new: no inode has it, no line and no entry of the map
  have hnew : f.inodeMap (f.lastNonce + 1) = false := by
    by_contra hi
    have hle := h.known _ (Bool.eq_true_of_not_eq_false hi)
    omega
  have hlisted : ∀ l, (f.cache.lines l).Listed →
      (f.cache.lines l).inodeNumber ≠ f.lastNonce + 1 := by
    intro l hlist hi
    have hpresent := (isSome_inodes objects f _).mp (hcache.mapped.listed l hlist).2
    rw [hi, hnew] at hpresent
    cases hpresent
  have hmap : Function.update f.cache.cacheMap (f.lastNonce + 1) (fun _ => none) =
      f.cache.cacheMap := by
    refine Function.update_eq_self_iff.mpr (funext fun n => ?_)
    rcases hentry : f.cache.cacheMap (f.lastNonce + 1) n with - | l
    · rfl
    · obtain ⟨-, hlist, hi, -⟩ := hcache.mapped.entry _ _ _ hentry
      exact absurd hi (hlisted l hlist)
  dsimp only
  rw [hmap]
  refine .inr ?_
  generalize hg : ({ f with
    cache := { f.cache with
      inboundCacheLineCount :=
        Function.update f.cache.inboundCacheLineCount (f.lastNonce + 1) 0 }
    inode := Function.update f.inode (f.lastNonce + 1)
      { backendNonce := nonce, fhSet := [], pendingDelete := false, queued := false }
    inodeMap := Function.update f.inodeMap (f.lastNonce + 1) true
    lastNonce := f.lastNonce + 1 } : CachedFiles) = g
  have hinodes : ∀ l, (f.cache.lines l).Listed →
      g.inodes objects (f.cache.lines l).inodeNumber =
        f.inodes objects (f.cache.lines l).inodeNumber := by
    intro l hlist
    rw [← hg]
    unfold inodes
    show (if Function.update f.inodeMap _ true _ = true then _ else _) = _
    rw [Function.update_of_ne (hlisted l hlist)]
  have hlines : g.cache.lines = f.cache.lines := by rw [← hg]
  have hok : FilesOk cfg objects g := by
    refine ⟨?_, ?_, fun i hi => ?_, fun i hi => ?_, fun i hq => ?_, fun del hdel => ?_⟩
    -- the readers' inodes are not the new one
    · have hreads : ReadsOk cfg (objectInodes objects) (f.inodes objects)
          (f.cache.readers.map Reader.readIn) g.cache := by
        rw [← hg]
        exact h.reads.of_fetch hfatal rfl (fun _ => LineAdvance.refl _ _) (hcache.frame _ _ _)
      have hreaders : g.cache.readers = f.cache.readers := by rw [← hg]
      rw [hreaders]
      exact hreads.otherInodes (among_inodes objects g) fun _ => by
        rw [hlines]
        exact hinodes
    · rw [← hg]
      exact (h.parties.same { f.cache with
        inboundCacheLineCount :=
          Function.update f.cache.inboundCacheLineCount (f.lastNonce + 1) 0 } rfl
        (fun held s => by cases s <;> rfl) rfl).1
    -- the new inode has no inbound line
    · have hcount : f.inodeMap i = true → CountOk f.cache i := h.counts i
      rw [← hg] at hi ⊢
      change Function.update f.inodeMap (f.lastNonce + 1) true i = true at hi
      show Function.update f.cache.inboundCacheLineCount (f.lastNonce + 1) 0 i =
        (f.cache.inboundLRU.filter fun l => (f.cache.lines l).inodeNumber = i).length
      by_cases heq : i = f.lastNonce + 1
      · rw [heq, Function.update_self, List.filter_eq_nil_iff.mpr]
        · rfl
        · intro l hl
          simpa using hlisted l (.inl (hcache.state_of_mem (s := .inbound) hl))
      · rw [Function.update_of_ne heq] at hi ⊢
        exact hcount hi
    · rw [← hg] at hi ⊢
      change Function.update f.inodeMap (f.lastNonce + 1) true i = true at hi
      show i ≤ f.lastNonce + 1
      by_cases heq : i = f.lastNonce + 1
      · exact heq.le
      · rw [Function.update_of_ne heq] at hi
        exact (h.known i hi).trans (Nat.le_succ _)
    -- the new inode is not queued until it is touched
    · have hold := h.queued i
      rw [← hg] at hq ⊢
      by_cases heq : i = f.lastNonce + 1
      · rw [heq] at hq
        change (Function.update f.inode (f.lastNonce + 1) _ (f.lastNonce + 1)).queued = true at hq
        rw [Function.update_self] at hq
        cases hq
      · change (Function.update f.inode (f.lastNonce + 1) _ i).queued = true at hq
        rw [Function.update_of_ne heq] at hq
        show Function.update f.inodeMap _ true i = true ∧
          (Function.update f.inode _ _ i).fhSet = [] ∧
          (Function.update f.inode _ _ i).pendingDelete = false ∧ _
        rw [Function.update_of_ne heq, Function.update_of_ne heq]
        exact hold hq
    -- a deletion is of an older inode
    · rw [← hg] at hdel ⊢
      obtain ⟨hpending, hle⟩ := h.pending del hdel
      refine ⟨?_, hle.trans (Nat.le_succ _)⟩
      show (Function.update f.inode _ _ _).pendingDelete = true
      rw [Function.update_of_ne (by omega)]
      exact hpending
  have halive : g.cache.fatal = false := by rw [← hg, ← hfatal]
  have hpresent : g.inodeMap (f.lastNonce + 1) = true := by
    rw [← hg]
    exact Function.update_self _ _ _
  exact hok.touched halive hpresent rfl rfl rfl le_rfl (fun _ _ => rfl) id

/-- The clean lines of a file are dropped. -/
theorem FilesOk.dropLines {ans : DiskAnswers} {onlyClean : Bool} {order : List ℕ}
    (h : FilesOk cfg objects f) (hfatal : f.cache.fatal = false)
    (halive : (dropLines cfg ans i onlyClean order f.cache).fatal = false) :
    FilesOk cfg objects
      { f with cache := DataCache.dropLines cfg ans i onlyClean order f.cache } := by
  have hdead : (DataCache.dropLines cfg ans i onlyClean order f.cache).fatal ≠ true := by
    rw [halive]
    nofun
  obtain ⟨hcache, hadv⟩ := ((h.reads.cache hfatal).dropLines ans i onlyClean).resolve_left hdead
  obtain ⟨hlists, hq⟩ := (h.parties.lists.dropLines ans i onlyClean).resolve_left hdead
  generalize DataCache.dropLines cfg ans i onlyClean order f.cache = c at *
  have hcalm := hq.calm h.parties.lists hlists
  refine ⟨?_, (h.parties.quiet hlists hq).1, fun j hj => hcalm.counts j (h.counts j hj), h.known,
    fun j hj => ?_, h.pending⟩
  · refine h.reads.of_readers hfatal (among_inodes objects _) hadv (fun rd hrd => .inl ?_) ?_
    · exact hq.readers ▸ hrd
    · show CacheOk cfg (f.inodes objects) c (heldLines c.readers)
      rw [hq.readers]
      exact hcache
  · obtain ⟨hi, hempty, hpending, hnone⟩ := h.queued j hj
    refine ⟨hi, hempty, hpending, fun l hs => ?_⟩
    have hs₀ := hq.still l hs
    show (c.lines l).inodeNumber ≠ j
    rw [hq.inbound l hs₀]
    exact hnone l hs₀

/-- An inode without lines is removed, off the eviction queue. -/
theorem FilesOk.remove (h : FilesOk cfg objects f) (hcache : g.cache = f.cache)
    (hmap : g.inodeMap = Function.update f.inodeMap i false)
    (hnonce : g.lastNonce = f.lastNonce) (hinode : ∀ j, j ≠ i → g.inode j = f.inode j)
    (hqueued : (g.inode i).queued = false)
    (hpending : (g.inode i).pendingDelete = (f.inode i).pendingDelete)
    (hdeletes : ∀ del ∈ g.deletes, ∃ del₀ ∈ f.deletes,
      del.inode = del₀.inode ∧ del.cacheLineWaiter = del₀.cacheLineWaiter)
    (hnone : ∀ l, (f.cache.lines l).Listed → (f.cache.lines l).inodeNumber ≠ i) :
    FilesOk cfg objects g := by
  -- only the inodes get fewer
  have hstays : ∀ j, g.inodeMap j = true → f.inodeMap j = true := by
    intro j hj
    rw [hmap] at hj
    by_cases hji : j = i
    · rw [hji, Function.update_self] at hj
      cases hj
    · rwa [Function.update_of_ne hji] at hj
  refine ⟨?_, ⟨?_, ?_, fun del hdel => ?_⟩, fun j hj => ?_, fun j hj => ?_, fun j hq => ?_,
    fun del hdel => ?_⟩
  · rw [hcache]
    refine h.reads.otherInodes (among_inodes objects g) fun _ l hlist => ?_
    unfold inodes
    rw [hmap, Function.update_of_ne (hnone l hlist)]
  · rw [hcache]
    exact h.parties.lists
  · rw [hcache]
    exact h.parties.waits
  · obtain ⟨del₀, hdel₀, -, hw⟩ := hdeletes del hdel
    rw [hcache, hw]
    exact h.parties.waiters del₀ hdel₀
  · rw [hcache]
    exact h.counts j (hstays j hj)
  · rw [hnonce]
    exact h.known j (hstays j hj)
  -- the removed inode is not queued, so the queued ones are others
  · have hji : j ≠ i := by
      rintro rfl
      rw [hqueued] at hq
      cases hq
    rw [hinode j hji] at hq ⊢
    rw [hmap, Function.update_of_ne hji, hcache]
    exact h.queued j hq
  · obtain ⟨del₀, hdel₀, hi₀, -⟩ := hdeletes del hdel
    rw [hnonce, hi₀]
    obtain ⟨hp, hle⟩ := h.pending del₀ hdel₀
    refine ⟨?_, hle⟩
    by_cases hji : del₀.inode = i
    · rw [hji, hpending, ← hji]
      exact hp
    · rw [hinode _ hji]
      exact hp

theorem FilesOk.waiter_returned {del : PendingDelete} {wg : Reader} (h : FilesOk cfg objects f)
    (hmem : del ∈ f.deletes) (hr : f.cache.readers[del.cacheLineWaiter]? = some wg) :
    wg.pc = .returned .ok := by
  obtain ⟨wg', hwg, hpc⟩ := h.parties.waiters del hmem
  rw [hr] at hwg
  rw [Option.some.inj hwg]
  exact hpc

/-- A delete waits for a line. -/
theorem FilesOk.wait {w l : ℕ} {wg : Reader} (h : FilesOk cfg objects f)
    (hfatal : f.cache.fatal = false) (hr : f.cache.readers[w]? = some wg)
    (hpc : wg.pc = .returned .ok) (hl : l < cfg.cacheLines)
    (hparties : Parties cfg ((f.cache.updLine l fun t =>
      { t with waiters := t.waiters ++ [w] }).setReader w { newWaitGroup with waits := 1 })
        f.deletes) :
    FilesOk cfg objects { f with
      cache := (f.cache.updLine l fun t => { t with waiters := t.waiters ++ [w] }).setReader w
        { newWaitGroup with waits := 1 } } := by
  have hcache := (h.reads.cache hfatal).waiters hl ((f.cache.lines l).waiters ++ [w])
  have hadv : Advance cfg f.cache (f.cache.updLine l fun t =>
      { t with waiters := (f.cache.lines l).waiters ++ [w] }) := advance_waiters _ _ _
  -- a waiter more is not seen in a line's state or inode
  have hlines : ∀ l', ((f.cache.updLine l fun t =>
      { t with waiters := t.waiters ++ [w] }).lines l').state = (f.cache.lines l').state ∧
      ((f.cache.updLine l fun t => { t with waiters := t.waiters ++ [w] }).lines l').inodeNumber =
        (f.cache.lines l').inodeNumber := by
    intro l'
    rw [lines_updLine]
    split
    · rename_i heq
      rw [heq]
      exact ⟨rfl, rfl⟩
    · exact ⟨rfl, rfl⟩
  refine ⟨?_, hparties, fun i hi => ?_, h.known, fun i hi => ?_, h.pending⟩
  · obtain ⟨others, hperm, hset⟩ := heldLines_set hr
    have hheld : wg.held = [] := by rw [Reader.held, hpc]
    rw [hheld, List.nil_append] at hperm
    refine h.reads.of_readers hfatal (among_inodes objects _) hadv (fun rd hrd => ?_) ?_
    · exact (List.mem_or_eq_of_mem_set hrd).imp_right fun heq => ⟨1, heq⟩
    · refine ((hcache.held_perm hperm.symm).held_perm ?_).setReader w _
      exact hset { newWaitGroup with waits := 1 }
  · refine (h.counts i hi).trans ?_
    congr 1
    apply List.filter_congr
    intro l' _
    rw [← (hlines l').2]
    rfl
  · obtain ⟨hi', hempty, hpending, hnone⟩ := h.queued i hi
    refine ⟨hi', hempty, hpending, fun l' hs => ?_⟩
    show ((f.cache.updLine l fun t => { t with waiters := t.waiters ++ [w] }).lines
      l').inodeNumber ≠ i
    rw [(hlines l').2]
    exact hnone l' ((hlines l').1.symm.trans hs)

/-- **A section of `finishPendingDelete`**. -/
theorem FilesOk.finishPendingDelete {d : ℕ} {del : PendingDelete} {order : List ℕ} {wg : Reader}
    (h : FilesOk cfg objects f) (hfatal : f.cache.fatal = false) (hd : f.deletes[d]? = some del)
    (hnodup : order.Nodup) (hvisits : f.cache.Visits cfg del.inode order)
    (hr : f.cache.readers[del.cacheLineWaiter]? = some wg) (hzero : wg.waits = 0)
    (ans : DiskAnswers) :
    (f.finishPendingDelete cfg d del order ans).cache.fatal = true ∨
      FilesOk cfg objects (f.finishPendingDelete cfg d del order ans) := by
  have hmem := List.mem_of_getElem? hd
  have hcache := h.reads.cache hfatal
  have hparties :=
    h.parties.finishPendingDelete hd hnodup hr hzero (hcache.names del.inode hnodup) ans
  unfold CachedFiles.finishPendingDelete at hparties ⊢
  dsimp only at hparties ⊢
  split
  · exact .inl ‹_›
  rename_i halive
  rw [if_neg halive] at hparties
  unfold dropCleanLines at halive hparties ⊢
  have hdropped := h.dropLines hfatal (Bool.eq_false_iff.mpr halive)
  split
  · -- no line is left, and the inode goes
    rename_i hnone
    unfold removeDeleted
    split
    · exact .inl rfl
    split
    · exact .inl rfl
    have hpending := (h.pending del hmem).1
    refine .inr (hdropped.remove (i := del.inode) rfl rfl rfl (fun _ _ => rfl) ?_ rfl
      (fun del' hdel' => ?_) fun l hlist => ?_)
    · by_contra hqueued
      have hnot := (h.queued _ (Bool.eq_true_of_not_eq_false hqueued)).2.2.1
      rw [hpending] at hnot
      cases hnot
    · rcases List.mem_or_eq_of_mem_set hdel' with hold | rfl
      · exact ⟨del', hold, rfl, rfl⟩
      · exact ⟨del, hmem, rfl, rfl⟩
    · refine hcache.none_left (hdropped.reads.cache (Bool.eq_false_iff.mpr halive)) hvisits
        (fun n hn => ?_) hlist
      exact List.findSome?_eq_none_iff.mp hnone n hn
  · rename_i l hleft
    rw [hleft] at hparties
    dsimp only at hparties
    split
    · exact .inl rfl
    rename_i hle
    rw [if_neg hle] at hparties
    rcases hparties with hf | ⟨hparties, -⟩
    · exact .inl hf
    have hq := ((h.parties.lists.dropLines ans del.inode false).resolve_left halive).2
    exact .inr (hdropped.wait (Bool.eq_false_iff.mpr halive) (hq.readers ▸ hr)
      (h.waiter_returned hmem hr) (Nat.not_le.mp hle) hparties)

/-- The loop of the evictor finds only clean lines at a file on its queue. -/
theorem dropLines_alive (ans : DiskAnswers) {held : List ℕ}
    {inodes : ℕ → Option InodeInfo} : ∀ {order : List ℕ} {c : DataCache},
    CacheOk cfg inodes c held → c.fatal = false →
    (∀ l, (c.lines l).state = .inbound → (c.lines l).inodeNumber ≠ i) →
    (dropLines cfg ans i true order c).fatal = false := by
  intro order
  induction order with
  | nil => exact fun _ hfatal _ => hfatal
  | cons n order ih =>
      intro c h hfatal hnone
      rw [dropLines]
      split
      · exact ih h hfatal hnone
      rename_i l hentry
      obtain ⟨hl, hi, -, hs⟩ := h.cached hentry
      rw [if_neg (Nat.not_le.mpr hl)]
      rcases hs with hs | ⟨hs, -⟩
      · exact absurd hi (hnone l hs)
      rw [if_pos hs]
      obtain ⟨hlines, -, hfree, halive⟩ := dropClean_spec cfg ans c i n l
      refine ih (h.dropClean ans hentry hs).1 (halive.trans hfatal) fun l' hs' => ?_
      have hne : l' ≠ l := by
        rintro rfl
        rw [hfree] at hs'
        cases hs'
      rw [hlines l' hne] at hs' ⊢
      exact hnone l' hs'

/-- **A turn of the evictor** does not end the process. -/
theorem FilesOk.evict {order : List ℕ} (h : FilesOk cfg objects f) (hfatal : f.cache.fatal = false)
    (hqueued : (f.inode i).queued = true) (hnodup : order.Nodup)
    (hvisits : f.cache.Visits cfg i order) (ans : DiskAnswers) :
    (f.evict cfg i order ans).cache.fatal = false ∧ FilesOk cfg objects
      (f.evict cfg i order ans) := by
  obtain ⟨hi, -, -, hnone⟩ := h.queued i hqueued
  have hcache := h.reads.cache hfatal
  have halive : (clearFileCacheLinesLocked cfg ans i order f.cache).fatal = false :=
    dropLines_alive ans hcache hfatal hnone
  have hdropped := h.dropLines hfatal halive
  unfold CachedFiles.evict
  dsimp only
  rw [if_neg (by rw [hi]; nofun), if_neg (by rw [halive]; nofun)]
  refine ⟨halive, hdropped.remove (i := i) rfl rfl rfl (fun j hj => ?_) ?_ ?_
    (fun del hdel => ⟨del, hdel, rfl, rfl⟩) fun l hlist => ?_⟩
  · exact Function.update_of_ne hj _ _
  · exact congrArg CachedInode.queued (Function.update_self i _ f.inode)
  · rw [inode_setInode]
  · refine hcache.none_left (hdropped.reads.cache halive) hvisits (fun n hn => ?_) hlist
    rcases hentry : (DataCache.dropLines cfg ans i true order f.cache).cacheMap i n with - | l'
    · rfl
    · exact absurd (dropLines_left ans i true hnodup (hcache.names i hnodup).1 halive hn hentry).2
        nofun

/-- No line of a file of the backend is in the cache. -/
def NoLines (cfg : CacheConfig) (f : CachedFiles) (nonce : ℕ) : Prop :=
  ∀ l < cfg.cacheLines, (f.cache.lines l).state = .inbound ∨ (f.cache.lines l).state = .clean →
    (f.inode (f.cache.lines l).inodeNumber).backendNonce ≠ nonce

instance (cfg : CacheConfig) (f : CachedFiles) (nonce : ℕ) : Decidable (f.NoLines cfg nonce) := by
  unfold NoLines
  infer_instance

/-- **Unmounting** a backend without lines. -/
theorem FilesOk.unmount {nonce : ℕ} (h : FilesOk cfg objects f) (hfatal : f.cache.fatal = false)
    (hlines : f.NoLines cfg nonce) : FilesOk cfg objects (f.unmount nonce) := by
  have hcache := h.reads.cache hfatal
  have hstays : ∀ i, (f.unmount nonce).inodeMap i = true →
      f.inodeMap i = true ∧ (f.inode i).backendNonce ≠ nonce := by
    intro i hi
    obtain ⟨h₁, h₂⟩ := Bool.and_eq_true_iff.mp hi
    exact ⟨h₁, by simpa using h₂⟩
  refine ⟨?_, h.parties, fun i hi => h.counts i (hstays i hi).1,
    fun i hi => h.known i (hstays i hi).1, fun i hq => ?_, fun del hdel => ?_⟩
  -- the backend's inodes have no lines, so that no reader misses them
  · refine h.reads.otherInodes (among_inodes objects _) fun _ l hlist => ?_
    have hl : l < cfg.cacheLines := by
      by_contra hle
      have hnew : f.cache.lines l = newLine := hcache.outside l (Nat.not_lt.mp hle)
      rw [hnew] at hlist
      exact CacheLine.not_listed (.inr rfl) hlist
    have hne := hlines l hl hlist
    unfold inodes
    show (if (f.inodeMap _ && (f.inode _).backendNonce != nonce) = true then _ else _) = _
    rw [bne_iff_ne.mpr hne, Bool.and_true]
  -- a queued inode is of another backend
  · have hq' : (if f.inodeMap i && (f.inode i).backendNonce == nonce then
        { f.inode i with queued := false } else f.inode i).queued = true := hq
    show (f.inodeMap i && (f.inode i).backendNonce != nonce) = true ∧
      (if f.inodeMap i && (f.inode i).backendNonce == nonce then
        { f.inode i with queued := false } else f.inode i).fhSet = [] ∧
      (if f.inodeMap i && (f.inode i).backendNonce == nonce then
        { f.inode i with queued := false } else f.inode i).pendingDelete = false ∧ _
    split at hq'
    · cases hq'
    rename_i hnot
    rw [if_neg hnot]
    obtain ⟨hi, hrest⟩ := h.queued i hq'
    refine ⟨?_, hrest⟩
    rw [hi, Bool.true_and] at hnot ⊢
    exact bne_iff_ne.mpr fun heq => hnot (beq_iff_eq.mpr heq)
  · obtain ⟨hpending, hle⟩ := h.pending del hdel
    refine ⟨?_, hle⟩
    show (if f.inodeMap del.inode && (f.inode del.inode).backendNonce == nonce then
        { f.inode del.inode with queued := false } else f.inode del.inode).pendingDelete = true
    split
    · exact hpending
    · exact hpending

/-- `DoOpen` keeps the invariant, or ends in the Fatalf. -/
theorem FilesOk.doOpen (h : FilesOk cfg objects f) (hfatal : f.cache.fatal = false) (i : ℕ)
    (exclusive : Bool) (mode : AccessMode) : (f.doOpen i exclusive mode).cache.fatal = true ∨
      FilesOk cfg objects (f.doOpen i exclusive mode) := by
  unfold CachedFiles.doOpen
  split
  · exact .inr h
  rename_i hi
  rw [Bool.not_eq_true', Bool.not_eq_false] at hi
  split
  · exact .inl rfl
  split
  · exact .inr h
  rename_i readOnly _ hpending
  -- a handle more, unless the mode writes to a backend that is read-only
  have hopened : FilesOk cfg objects (if mode ≠ AccessMode.RDONLY ∧ readOnly = true then f
      else (({ f with
        fhMap := Function.update f.fhMap (f.lastNonce + 1)
          (some ⟨exclusive, decide (mode ≠ AccessMode.WRONLY)⟩)
        lastNonce := f.lastNonce + 1 } : CachedFiles).setInode i { f.inode i with
          fhSet := (f.lastNonce + 1) :: (f.inode i).fhSet }).touch i) := by
    split
    · exact h
    · refine h.touched hfatal hi rfl rfl rfl (Nat.le_succ _) (fun j hj => ?_) fun hp => ?_
      · exact Function.update_of_ne hj _ _
      · exact absurd hp hpending
  dsimp only
  split
  -- an exclusive handle, or a handle beside an exclusive one, is refused
  · split
    · exact .inl rfl
    split
    · exact .inr h
    · exact .inr hopened
  · exact .inr hopened

/-- `DoRelease` keeps the invariant, or ends in the Fatalf. -/
theorem FilesOk.doRelease (h : FilesOk cfg objects f) (hfatal : f.cache.fatal = false)
    (i fh : ℕ) : (f.doRelease i fh).cache.fatal = true ∨
      FilesOk cfg objects (f.doRelease i fh) := by
  unfold CachedFiles.doRelease
  split
  · exact .inr h
  rename_i hi
  rw [Bool.not_eq_true', Bool.not_eq_false] at hi
  split
  · exact .inl rfl
  split
  · exact .inr (h.touched hfatal hi rfl rfl rfl le_rfl (fun _ _ => rfl) id)
  split
  · exact .inl rfl
  dsimp only
  have hreleased : FilesOk cfg objects ((({ f with
      fhMap := Function.update f.fhMap fh none } : CachedFiles).setInode i
        { f.inode i with fhSet := (f.inode i).fhSet.erase fh }).touch i) := by
    refine h.touched hfatal hi rfl rfl rfl le_rfl (fun j hj => ?_) fun hp => ?_
    · exact Function.update_of_ne hj _ _
    · exact (congrArg CachedInode.pendingDelete (Function.update_self i _ f.inode)).trans hp
  split
  · exact .inr hreleased
  · rename_i hlast
    rw [Bool.or_eq_true, not_or, Bool.not_eq_true', Bool.not_eq_false] at hlast
    refine .inr (hreleased.call hfatal hi ?_)
    rw [pendingDelete_touch, inode_setInode]
    exact hlast.1

/-- `DoUnlink` keeps the invariant, or ends in the Fatalf. -/
theorem FilesOk.doUnlink (h : FilesOk cfg objects f) (hfatal : f.cache.fatal = false) (i : ℕ) :
    (f.doUnlink i).cache.fatal = true ∨ FilesOk cfg objects (f.doUnlink i) := by
  unfold CachedFiles.doUnlink
  split
  · exact .inr h
  rename_i hi
  rw [Bool.not_eq_true', Bool.not_eq_false] at hi
  split
  · exact .inl rfl
  split
  · exact .inr h
  dsimp only
  have hfound := h.touched hfatal hi rfl rfl rfl le_rfl (fun _ _ => rfl) id
  split
  · exact .inr hfound
  have hmarked : FilesOk cfg objects (((f.touch i).setInode i
      { (f.touch i).inode i with pendingDelete := true }).touch i) := by
    refine hfound.touched hfatal hi rfl rfl rfl le_rfl (fun j hj => ?_) fun _ => ?_
    · exact Function.update_of_ne hj _ _
    · exact congrArg CachedInode.pendingDelete (Function.update_self i _ (f.touch i).inode)
  split
  · exact .inr hmarked
  · refine .inr (hmarked.call hfatal hi ?_)
    rw [pendingDelete_touch, inode_setInode]

/-! ### Runs -/

/-- A backend is unmounted only when none of its lines is in the cache. -/
def FileStep.UnmountsNoLines (cfg : CacheConfig) (f : CachedFiles) : FileStep → Prop
  | .unmount nonce => f.NoLines cfg nonce
  | _ => True

instance (cfg : CacheConfig) (f : CachedFiles) :
    (s : FileStep) → Decidable (FileStep.UnmountsNoLines cfg f s)
  | .unmount nonce => inferInstanceAs (Decidable (f.NoLines cfg nonce))
  | .cache .. | .mount .. | .createFileObjectInode .. | .touch .. | .doOpen .. | .doRelease ..
  | .doUnlink .. | .finishPendingDelete .. | .evict .. => .isTrue trivial

/-- **One step** keeps the invariant. -/
theorem FilesOk.step {a : FileStep} (h : FilesOk cfg objects f)
    (hstep : step cfg objects f a = some f') (hunmounts : FileStep.UnmountsNoLines cfg f a) :
    f'.cache.fatal = true ∨ FilesOk cfg objects f' := by
  unfold CachedFiles.step at hstep
  split at hstep
  · cases hstep
  rename_i hdead
  have hfatal := Bool.eq_false_iff.mpr hdead
  cases a with
  | cache s => exact h.cacheStep hfatal hstep
  | mount readOnly =>
      obtain rfl := Option.some.inj hstep
      exact .inr ⟨h.reads, h.parties, h.counts, fun i hi => (h.known i hi).trans (Nat.le_succ _),
        h.queued, fun del hdel => (h.pending del hdel).imp_right fun hle => hle.trans
          (Nat.le_succ _)⟩
  -- the assumption about unmounts is used here only
  | unmount nonce =>
      dsimp only [stepAlive] at hstep
      split at hstep
      · obtain rfl := Option.some.inj hstep
        exact .inr (h.unmount hfatal hunmounts)
      · cases hstep
  | createFileObjectInode nonce =>
      obtain rfl := Option.some.inj hstep
      exact h.createFileObjectInode hfatal nonce
  | touch i =>
      dsimp only [stepAlive] at hstep
      split at hstep
      · rename_i hi
        obtain rfl := Option.some.inj hstep
        exact .inr (h.touched hfatal hi rfl rfl rfl le_rfl (fun _ _ => rfl) id)
      · cases hstep
  | doOpen i exclusive mode =>
      obtain rfl := Option.some.inj hstep
      exact h.doOpen hfatal i exclusive mode
  | doRelease i fh =>
      obtain rfl := Option.some.inj hstep
      exact h.doRelease hfatal i fh
  | doUnlink i =>
      obtain rfl := Option.some.inj hstep
      exact h.doUnlink hfatal i
  -- a deletion takes its turn when its wait group is free
  | finishPendingDelete d order ans =>
      obtain ⟨del, hdel, hstep⟩ := Option.bind_eq_some_iff.mp hstep
      obtain ⟨wg, hwg, hstep⟩ := Option.bind_eq_some_iff.mp hstep
      split at hstep
      · rename_i hok
        obtain rfl := Option.some.inj hstep
        exact h.finishPendingDelete hfatal hdel hok.2.2.1 hok.2.2.2 hwg hok.2.1 ans
      · cases hstep
  -- an eviction takes an inode out of the queue
  | evict i order ans =>
      dsimp only [stepAlive] at hstep
      split at hstep
      · rename_i hok
        obtain rfl := Option.some.inj hstep
        exact .inr (h.evict hfatal hok.1 hok.2.1 hok.2.2 ans).2
      · cases hstep

/-- The empty cache satisfies the invariant. -/
theorem filesOk_initial (cfg : CacheConfig) (objects : ℕ → List UInt8) (reads : List ReadIn) :
    FilesOk cfg objects (initial cfg reads) := by
  have hinodes : (initial cfg reads).inodes objects = fun _ => none := rfl
  have hreads := readsOk_dataCacheUp cfg (fun _ => none) reads fun _ _ => none
  refine ⟨?_, parties_initial cfg reads, nofun, nofun, nofun, fun del hdel => ?_⟩
  · rw [hinodes]
    show ReadsOk cfg _ _ ((DataCache.dataCacheUp cfg reads fun _ _ => none).readers.map _) _
    rw [hreads.reads]
    refine ⟨nofun, hreads.reads, fun rd hrd => ?_, hreads.cache, fun _ rd hrd s hs => ?_⟩
    all_goals obtain ⟨readIn, -, rfl⟩ := List.mem_map.mp hrd
    · exact ⟨rfl, Nat.zero_le _, Slice.slice_nil_of_zero.symm, nofun, nofun, nofun⟩
    · cases hs
  · cases hdel

/-- **Every run** that unmounts no backend with lines keeps the invariant. -/
theorem filesOk_of_run {reads : List ReadIn} {steps : List FileStep}
    (hrun : exec (step cfg objects) (initial cfg reads) steps = some f)
    (hunmounts : Always (step cfg objects) (FileStep.UnmountsNoLines cfg)
      (initial cfg reads) steps) :
    f.cache.fatal = true ∨ FilesOk cfg objects f := by
  refine exec_invariant (I := fun f => f.cache.fatal = true ∨ FilesOk cfg objects f)
    (fun f a f' h ha hstep => ?_) hunmounts hrun (.inr (filesOk_initial cfg objects reads))
  rcases h with hfatal | h
  · unfold CachedFiles.step at hstep
    rw [if_pos hfatal] at hstep
    cases hstep
  · exact h.step hstep ha

/-- The lines on the Inbound and Clean LRUs and the maps of the files agree. -/
structure LinesMapped (f : CachedFiles) : Prop where
  named : ∀ l ∈ f.cache.inboundLRU ++ f.cache.cleanLRU,
    f.inodeMap (f.cache.lines l).inodeNumber = true ∧
      f.cache.cacheMap (f.cache.lines l).inodeNumber (f.cache.lines l).lineNumber = some l
  entries : ∀ i n l, f.cache.cacheMap i n = some l → l ∈ f.cache.inboundLRU ++ f.cache.cleanLRU ∧
    (f.cache.lines l).inodeNumber = i ∧ (f.cache.lines l).lineNumber = n
  distinct : ∀ l ∈ f.cache.inboundLRU ++ f.cache.cleanLRU,
    ∀ l' ∈ f.cache.inboundLRU ++ f.cache.cleanLRU,
    (f.cache.lines l).inodeNumber = (f.cache.lines l').inodeNumber →
    (f.cache.lines l).lineNumber = (f.cache.lines l').lineNumber → l = l'
  counts : ∀ i, f.inodeMap i = true → f.cache.inboundCacheLineCount i =
    (f.cache.inboundLRU.filter fun l => (f.cache.lines l).inodeNumber = i).length

/-- Under the invariant the map of the lines and the lines agree. -/
theorem FilesOk.linesMapped (h : FilesOk cfg objects f) (hfatal : f.cache.fatal = false) :
    LinesMapped f := by
  have hcache := h.reads.cache hfatal
  have hlisted : ∀ l ∈ f.cache.inboundLRU ++ f.cache.cleanLRU, (f.cache.lines l).Listed := by
    intro l hl
    rcases List.mem_append.mp hl with hl | hl
    · exact .inl (hcache.state_of_mem (s := .inbound) hl)
    · exact .inr (hcache.state_of_mem (s := .clean) hl)
  refine ⟨fun l hl => ?_, fun i n l hentry => ?_, fun l hl l' hl' hi hn => ?_, h.counts⟩
  · obtain ⟨hentry, hinode⟩ := hcache.mapped.listed l (hlisted l hl)
    exact ⟨(isSome_inodes objects f _).mp hinode, hentry⟩
  · obtain ⟨hl, hi, hn, hs⟩ := hcache.cached hentry
    refine ⟨List.mem_append.mpr (hs.imp (fun hs => ?_) And.right), hi, hn⟩
    exact (hcache.lists.mem .inbound l).mpr ⟨Finset.mem_range.mpr hl, hs⟩
  · have hentry := (hcache.mapped.listed l (hlisted l hl)).1
    rw [hi, hn, (hcache.mapped.listed l' (hlisted l' hl')).1] at hentry
    exact (Option.some.inj hentry).symm

/-- A turn of `allocateDataCacheLines` comes to a clean line whose inode is
missing. -/
def missesInode (cfg : CacheConfig) (objects : ℕ → List UInt8) (f : CachedFiles)
    (ans : DiskAnswers) (count : ℕ) (got : List ℕ) : Bool :=
  let (c, got₁) := takeFree (count - got.length) f.cache got
  (takeClean cfg (f.inodes objects) ans (count - got₁.length) c got₁).1.fatal

/-- The evictions of a reader find the inodes of their lines. -/
theorem FilesOk.finds_inodes {r : ℕ} {rd : Reader} {got : List ℕ} (h : FilesOk cfg objects f)
    (hfatal : f.cache.fatal = false) (hr : f.cache.readers[r]? = some rd) (hheld : rd.held = got)
    (ans : DiskAnswers) (count : ℕ) : f.missesInode cfg objects ans count got = false := by
  obtain ⟨others, hperm, -⟩ := heldLines_set hr
  rw [hheld] at hperm
  have hcache := (h.reads.cache hfatal).held_perm hperm.symm
  unfold missesInode
  rcases hfree : takeFree (count - got.length) f.cache got with ⟨c₁, got₁⟩
  obtain ⟨h₁, -, htakes₁, -⟩ := hcache.takeFree _ hfree
  rcases hclean : takeClean cfg (f.inodes objects) ans (count - got₁.length) c₁ got₁ with ⟨c₂, got₂⟩
  obtain ⟨-, -, htakes₂, -⟩ := h₁.takeClean _ hclean
  dsimp only
  rw [hclean]
  exact (htakes₂.fatal.trans htakes₁.fatal).trans hfatal

/-- **Lines and maps agree.**  In a run that unmounts a backend only when none
of its lines is in the cache, the inbound and clean lines are those that the
maps of the files name, each inode counts its inbound lines, and
`allocateDataCacheLines` finds the inode of every clean line that it takes. -/
theorem lines_mapped {reads : List ReadIn} {steps : List FileStep}
    (hrun : exec (step cfg objects) (initial cfg reads) steps = some f)
    (hunmounts : Always (step cfg objects) (FileStep.UnmountsNoLines cfg)
      (initial cfg reads) steps) :
    f.cache.fatal = true ∨ (LinesMapped f ∧
      ∀ (r : ℕ) (rd : Reader) ans count, f.cache.readers[r]? = some rd →
        f.missesInode cfg objects ans count rd.held = false) := by
  rcases filesOk_of_run hrun hunmounts with hfatal | h
  · exact .inl hfatal
  by_cases hdead : f.cache.fatal = true
  · exact .inl hdead
  have hfatal := Bool.eq_false_iff.mpr hdead
  exact .inr ⟨h.linesMapped hfatal, fun r rd ans count hr => h.finds_inodes hfatal hr rfl ans count⟩

/-- A file is read, and its backend unmounted when the file is evicted. -/
def readAndEvict : List FileStep :=
  [.mount false, .createFileObjectInode 2, .doOpen 3 false .RDONLY, .cache (.read 0 goodDisk),
    .cache (.assign 0 goodDisk), .cache (.fetchBegin 0 goodDisk), .cache (.fetchAnswer 0 true),
    .cache (.fetchEnd 0 goodDisk), .doRelease 3 4, .evict 3 [0] goodDisk, .unmount 2]

theorem readAndEvict_mapped : ∃ f,
    exec (step (oneLine .ram) threeBytes) (initial (oneLine .ram) [⟨3, 4, 0, 2⟩]) readAndEvict =
      some f ∧ f.cache.fatal = false ∧ LinesMapped f := by
  obtain ⟨f, hrun, hfatal⟩ : ∃ f, exec (step (oneLine .ram) threeBytes)
      (initial (oneLine .ram) [⟨3, 4, 0, 2⟩]) readAndEvict = some f ∧ f.cache.fatal = false :=
    exec_exists (by decide +kernel)
  have h := lines_mapped hrun (by decide +kernel)
  rw [hfatal] at h
  exact ⟨f, hrun, hfatal, (h.resolve_left nofun).1⟩

/-- A file is read, its backend unmounted, and a file of another backend
opened. -/
def readUnmountAndOpen : List FileStep :=
  [.mount false, .createFileObjectInode 2, .doOpen 3 false .RDONLY, .cache (.read 0 goodDisk),
    .cache (.assign 0 goodDisk), .cache (.fetchBegin 0 goodDisk), .cache (.fetchAnswer 0 true),
    .cache (.fetchEnd 0 goodDisk), .unmount 2, .mount false, .createFileObjectInode 5,
    .doOpen 6 false .RDONLY]

/-- The clean line stays, without its inode, and ends the process when the next
read takes it. -/
theorem unmount_leaves_line : ∃ f f',
    exec (step (oneLine .ram) fun _ => [10, 20, 30])
      (initial (oneLine .ram) [⟨3, 4, 0, 2⟩, ⟨6, 7, 0, 2⟩]) readUnmountAndOpen = some f ∧
    f.cache.fatal = false ∧ f.cache.cleanLRU = [0] ∧
    f.inodeMap (f.cache.lines 0).inodeNumber = false ∧ ¬LinesMapped f ∧
    step (oneLine .ram) (fun _ => [10, 20, 30]) f (.cache (.read 1 goodDisk)) = some f' ∧
    f'.cache.fatal = true := by
  obtain ⟨f, hrun, halive, hclean, hgone⟩ : ∃ f, exec (step (oneLine .ram) fun _ => [10, 20, 30])
      (initial (oneLine .ram) [⟨3, 4, 0, 2⟩, ⟨6, 7, 0, 2⟩]) readUnmountAndOpen = some f ∧
      f.cache.fatal = false ∧ f.cache.cleanLRU = [0] ∧
      f.inodeMap (f.cache.lines 0).inodeNumber = false := exec_exists (by decide +kernel)
  obtain ⟨f', hrun', hfatal⟩ : ∃ f', exec (step (oneLine .ram) fun _ => [10, 20, 30])
      (initial (oneLine .ram) [⟨3, 4, 0, 2⟩, ⟨6, 7, 0, 2⟩])
      (readUnmountAndOpen ++ [.cache (.read 1 goodDisk)]) = some f' ∧ f'.cache.fatal = true :=
    exec_exists (by decide +kernel)
  obtain ⟨f₁, hrun₁, hstep⟩ := exec_snoc.mp hrun'
  obtain rfl := Option.some.inj (hrun.symm.trans hrun₁)
  refine ⟨f, f', hrun, halive, hclean, hgone, fun hmapped => ?_, hstep, hfatal⟩
  have hnamed :=
    (hmapped.named 0 (List.mem_append_right _ (by rw [hclean]; exact List.mem_cons_self ..))).1
  rw [hgone] at hnamed
  cases hnamed

end CachedFiles

end MultiStorageFileSystem
