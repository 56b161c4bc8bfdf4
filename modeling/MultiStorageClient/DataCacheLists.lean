/-
MultiStorageClient/DataCacheLists.lean

The lists of lines, whatever happens to the inodes.

`ListsOk` says less than `CacheOk`: every line is on the list of its state,
and only an inbound line has waiters or a fetch.  It does not mention the
inode map, so it survives inodes that go while their lines stay.  `Quiet` is
what the operations leave alone that neither start nor end a fetch.
-/
import MultiStorageClient.DataCacheReads

namespace MultiStorageFileSystem

variable {cfg : CacheConfig} {inodes : ℕ → Option InodeInfo}

namespace DataCache

variable {c c' c₁ c₂ : DataCache} {l r : ℕ} {held held' got got' others : List ℕ}

/-! ### The lists -/

/-- Every line is on the list of its state, or held, and it is an inbound line that is fetched or
waited for. -/
structure ListsOk (cfg : CacheConfig) (c : DataCache) (held : List ℕ) : Prop where
  lists : OnLists (Finset.range cfg.cacheLines) (fun l => (c.lines l).state) (c.onList held)
  fetching : ∀ l, (c.lines l).fetch ≠ .idle → l < cfg.cacheLines ∧ (c.lines l).state = .inbound
  waiting : ∀ l, (c.lines l).waiters ≠ [] → l < cfg.cacheLines ∧ (c.lines l).state = .inbound

/-- What the operations leave alone that neither start nor end a fetch. -/
structure Quiet (c c' : DataCache) : Prop where
  inbound : ∀ l, (c.lines l).state = .inbound → c'.lines l = c.lines l
  still : ∀ l, (c'.lines l).state = .inbound → (c.lines l).state = .inbound
  inboundLRU : c'.inboundLRU = c.inboundLRU
  counts : c'.inboundCacheLineCount = c.inboundCacheLineCount
  readers : c'.readers = c.readers
  fatal : c'.fatal = c.fatal

theorem Quiet.refl (c : DataCache) : Quiet c c :=
  ⟨fun _ _ => rfl, fun _ h => h, rfl, rfl, rfl, rfl⟩

theorem Quiet.trans (h : Quiet c c₁) (h' : Quiet c₁ c₂) : Quiet c c₂ := by
  refine ⟨fun l hs => ?_, fun l hs => h.still l (h'.still l hs), h'.inboundLRU.trans h.inboundLRU,
    h'.counts.trans h.counts, h'.readers.trans h.readers, h'.fatal.trans h.fatal⟩
  have heq := h.inbound l hs
  rw [← heq]
  exact h'.inbound l (by rw [heq]; exact hs)

/-- Only a line that is not inbound changes, and it does not become so. -/
theorem Quiet.of_line (hother : ∀ l', l' ≠ l → c'.lines l' = c.lines l')
    (hs : (c.lines l).state ≠ .inbound) (hs' : (c'.lines l).state ≠ .inbound)
    (hinbound : c'.inboundLRU = c.inboundLRU)
    (hcounts : c'.inboundCacheLineCount = c.inboundCacheLineCount)
    (hreaders : c'.readers = c.readers) (hfatal : c'.fatal = c.fatal) : Quiet c c' := by
  refine ⟨fun l' h => ?_, fun l' h => ?_, hinbound, hcounts, hreaders, hfatal⟩
  · by_cases heq : l' = l
    · rw [heq] at h
      exact absurd h hs
    · exact hother l' heq
  · by_cases heq : l' = l
    · rw [heq] at h
      exact absurd h hs'
    · rw [hother l' heq] at h
      exact h

namespace ListsOk

theorem held_perm (h : ListsOk cfg c held) (hperm : held'.Perm held) : ListsOk cfg c held' := by
  refine ⟨h.lists.perm fun s => ?_, h.fetching, h.waiting⟩
  cases s with
  | notOnLRU => exact hperm
  | free => exact List.Perm.refl _
  | inbound => exact List.Perm.refl _
  | clean => exact List.Perm.refl _

/-- Of the cache, only the lines and their lists are in `ListsOk`. -/
theorem congr (h : ListsOk cfg c held) (hlines : c'.lines = c.lines)
    (hlists : ∀ s, (c'.onList held s).Perm (c.onList held s)) : ListsOk cfg c' held := by
  refine ⟨?_, ?_, ?_⟩
  · rw [hlines]
    exact h.lists.perm hlists
  · rw [hlines]
    exact h.fetching
  · rw [hlines]
    exact h.waiting

/-- A line that stays on its list. -/
theorem keep (h : ListsOk cfg c held) (hother : ∀ l', l' ≠ l → c'.lines l' = c.lines l')
    (hstate : (c'.lines l).state = (c.lines l).state)
    (hlists : ∀ s, c'.onList held s = c.onList held s)
    (hfetch : (c'.lines l).fetch ≠ .idle → l < cfg.cacheLines ∧ (c.lines l).state = .inbound)
    (hwait : (c'.lines l).waiters ≠ [] → l < cfg.cacheLines ∧ (c.lines l).state = .inbound) :
    ListsOk cfg c' held := by
  refine ⟨(h.lists.perm fun s => by rw [hlists s]).congr_state fun l' _ => ?_, fun l' hf => ?_,
    fun l' hw => ?_⟩
  · by_cases heq : l' = l
    · rw [heq, hstate]
    · rw [hother l' heq]
  · by_cases heq : l' = l
    · rw [heq] at hf ⊢
      rw [hstate]
      exact hfetch hf
    · rw [hother l' heq] at hf ⊢
      exact h.fetching l' hf
  · by_cases heq : l' = l
    · rw [heq] at hw ⊢
      rw [hstate]
      exact hwait hw
    · rw [hother l' heq] at hw ⊢
      exact h.waiting l' hw

/-- A line that changes its list. -/
theorem move (h : ListsOk cfg c held) (hl : l < cfg.cacheLines)
    (hother : ∀ l', l' ≠ l → c'.lines l' = c.lines l') {s₀ t : LineState}
    (hs : (c.lines l).state = s₀) (hs' : (c'.lines l).state = t) (hne : t ≠ s₀)
    (hfrom : (c.onList held s₀).Perm (l :: c'.onList held' s₀))
    (hto : (c'.onList held' t).Perm (l :: c.onList held t))
    (hrest : ∀ s, s ≠ s₀ → s ≠ t → c'.onList held' s = c.onList held s)
    (hfetch : (c'.lines l).fetch ≠ .idle → t = .inbound)
    (hwait : (c'.lines l).waiters ≠ [] → t = .inbound) : ListsOk cfg c' held' := by
  refine ⟨(h.lists.move (Finset.mem_range.mpr hl) hs hne hfrom hto hrest).congr_state
    fun l' _ => ?_, fun l' hf => ?_, fun l' hw => ?_⟩
  · by_cases heq : l' = l
    · rw [heq, Function.update_self, hs']
    · rw [Function.update_of_ne heq, hother l' heq]
  · by_cases heq : l' = l
    · rw [heq] at hf ⊢
      exact ⟨hl, hs'.trans (hfetch hf)⟩
    · rw [hother l' heq] at hf ⊢
      exact h.fetching l' hf
  · by_cases heq : l' = l
    · rw [heq] at hw ⊢
      exact ⟨hl, hs'.trans (hwait hw)⟩
    · rw [hother l' heq] at hw ⊢
      exact h.waiting l' hw

theorem lt_of_mem (h : ListsOk cfg c held) {s : LineState} (hl : l ∈ c.onList held s) :
    l < cfg.cacheLines := Finset.mem_range.mp (h.lists.mem_things hl)

theorem state_of_mem (h : ListsOk cfg c held) {s : LineState} (hl : l ∈ c.onList held s) :
    (c.lines l).state = s := h.lists.state_eq hl

theorem mem_of_state (h : ListsOk cfg c held) (hl : l < cfg.cacheLines) :
    l ∈ c.onList held (c.lines l).state :=
  (h.lists.mem _ l).mpr ⟨Finset.mem_range.mpr hl, rfl⟩

theorem idle (h : ListsOk cfg c held) (hs : (c.lines l).state ≠ .inbound) :
    (c.lines l).fetch = .idle := by
  by_contra hf
  exact hs (h.fetching l hf).2

theorem no_waiters (h : ListsOk cfg c held) (hs : (c.lines l).state ≠ .inbound) :
    (c.lines l).waiters = [] := by
  by_contra hw
  exact hs (h.waiting l hw).2

end ListsOk

/-! ### Taking and freeing lines -/

/-- `recycle` changes its line in the generation and the backing only. -/
theorem recycle_eq (cfg : CacheConfig) (ans : DiskAnswers) (c : DataCache) (l : ℕ) :
    ∃ generation disk files fileOpen idcfs map, c.recycle cfg ans l =
      { c with
        lines := Function.update c.lines l { c.lines l with
          contentGeneration := generation
          disk := disk }
        files := files
        fileOpen := fileOpen
        inodeDiskCacheFiles := idcfs
        cacheMap := map } := by
  unfold recycle
  split
  · obtain ⟨files, fileOpen, idcfs, hpunch⟩ := punchHoleDisk_eq cfg ans
      (c.updLine l fun t => { t with contentGeneration := t.contentGeneration + 1 }) l
    rw [hpunch]
    refine ⟨(c.lines l).contentGeneration + 1, none, files, fileOpen, idcfs,
      (c.setCacheMap (c.lines l).inodeNumber (c.lines l).lineNumber none).cacheMap, ?_⟩
    simp only [DataCache.updLine, setCacheMap, Function.update_self, Function.update_idem]
  · refine ⟨(c.lines l).contentGeneration, (c.lines l).disk, c.files, c.fileOpen,
      c.inodeDiskCacheFiles,
      (c.setCacheMap (c.lines l).inodeNumber (c.lines l).lineNumber none).cacheMap, ?_⟩
    simp only [setCacheMap, Function.update_eq_self]

/-- `free`, whatever backing the line has. -/
theorem freeLine_spec (cfg : CacheConfig) (ans : DiskAnswers) (c : DataCache) (l : ℕ) :
    ∃ disk files fileOpen idcfs, c.freeLine cfg ans l =
      { c with
        lines := Function.update c.lines l { c.lines l with
          state := .free
          waiters := []
          contentLength := 0
          contentGeneration := (c.lines l).contentGeneration + 1
          inodeNumber := 0
          lineNumber := 0
          fetchFailed := false
          disk := disk }
        files := files
        fileOpen := fileOpen
        inodeDiskCacheFiles := idcfs
        freeLRU := c.freeLRU ++ [l] } := by
  unfold freeLine
  split
  · obtain ⟨files, fileOpen, idcfs, hpunch⟩ := punchHoleDisk_eq cfg ans c l
    rw [hpunch]
    refine ⟨none, files, fileOpen, idcfs, ?_⟩
    simp only [pushFree, setState, DataCache.updLine, Function.update_self, Function.update_idem]
  · refine ⟨(c.lines l).disk, c.files, c.fileOpen, c.inodeDiskCacheFiles, ?_⟩
    simp only [pushFree, setState, DataCache.updLine, Function.update_self, Function.update_idem]

namespace ListsOk

/-- Taking the head of the Free LRU. -/
theorem popFree (h : ListsOk cfg c held) {rest : List ℕ} (hfree : c.freeLRU = l :: rest) :
    ListsOk cfg ({ c with freeLRU := rest }.setState l .notOnLRU) (l :: held) ∧
      Quiet c ({ c with freeLRU := rest }.setState l .notOnLRU) := by
  have hmem : l ∈ c.onList held .free := by
    show l ∈ c.freeLRU
    rw [hfree]
    exact List.mem_cons_self ..
  have hs := h.state_of_mem hmem
  -- a free line is not inbound, so no fetch and no waiter is lost
  have hnot : (c.lines l).state ≠ .inbound := by
    rw [hs]
    nofun
  generalize hc' : ({ c with freeLRU := rest }.setState l .notOnLRU : DataCache) = c'
  have hself : c'.lines l = { c.lines l with state := .notOnLRU } := by
    rw [← hc']
    exact Function.update_self _ _ _
  have hother : ∀ l', l' ≠ l → c'.lines l' = c.lines l' := by
    intro l' hne
    rw [← hc']
    exact Function.update_of_ne hne _ _
  constructor
  · refine h.move (h.lt_of_mem hmem) hother hs (t := .notOnLRU) (by rw [hself]) nofun ?_
      (by rw [← hc']; exact List.Perm.refl _) (fun s h₁ h₂ => ?_) (fun hf => ?_) fun hw => ?_
    · rw [← hc']
      show c.freeLRU.Perm (l :: rest)
      rw [hfree]
    · rw [← hc']
      cases s <;> first | rfl | contradiction
    · rw [hself] at hf
      exact absurd (h.idle hnot) hf
    · rw [hself] at hw
      exact absurd (h.no_waiters hnot) hw
  · refine Quiet.of_line hother hnot (by rw [hself]; nofun) ?_ ?_ ?_ ?_
    all_goals rw [← hc']; rfl

/-- Taking a clean line off its LRU. -/
theorem popClean (h : ListsOk cfg c held) (hl : l ∈ c.cleanLRU)
    (hother : ∀ l', l' ≠ l → c'.lines l' = c.lines l') (hs' : (c'.lines l).state = .notOnLRU)
    (hfetch : (c'.lines l).fetch = (c.lines l).fetch)
    (hwait : (c'.lines l).waiters = (c.lines l).waiters) (hfree : c'.freeLRU = c.freeLRU)
    (hinbound : c'.inboundLRU = c.inboundLRU) (hclean : c'.cleanLRU = c.cleanLRU.erase l)
    (hcounts : c'.inboundCacheLineCount = c.inboundCacheLineCount)
    (hreaders : c'.readers = c.readers) (hfatal : c'.fatal = c.fatal) :
    ListsOk cfg c' (l :: held) ∧ Quiet c c' := by
  have hs := h.state_of_mem (s := .clean) hl
  have hnot : (c.lines l).state ≠ .inbound := by
    rw [hs]
    nofun
  constructor
  · refine h.move (h.lt_of_mem (s := .clean) hl) hother hs hs' nofun ?_ (List.Perm.refl _)
      (fun s h₁ h₂ => ?_) (fun hf => ?_) fun hw => ?_
    · show c.cleanLRU.Perm (l :: c'.cleanLRU)
      rw [hclean]
      exact List.perm_cons_erase hl
    · cases s with
      | notOnLRU => contradiction
      | free => exact hfree
      | inbound => exact hinbound
      | clean => contradiction
    · rw [hfetch] at hf
      exact absurd (h.idle hnot) hf
    · rw [hwait] at hw
      exact absurd (h.no_waiters hnot) hw
  · exact Quiet.of_line hother hnot (by rw [hs']; nofun) hinbound hcounts hreaders hfatal

/-- `recycle` of the head of the Clean LRU. -/
theorem recycle (h : ListsOk cfg c held) (ans : DiskAnswers) {rest : List ℕ}
    (hclean : c.cleanLRU = l :: rest) :
    ListsOk cfg (({ c with cleanLRU := rest }.setState l .notOnLRU).recycle cfg ans l)
      (l :: held) ∧
      Quiet c (({ c with cleanLRU := rest }.setState l .notOnLRU).recycle cfg ans l) := by
  have hmem : l ∈ c.cleanLRU := by
    rw [hclean]
    exact List.mem_cons_self ..
  obtain ⟨generation, disk, files, fileOpen, idcfs, map, heq⟩ :=
    recycle_eq cfg ans ({ c with cleanLRU := rest }.setState l .notOnLRU) l
  have hpopped : ({ c with cleanLRU := rest }.setState l .notOnLRU).lines l =
      { c.lines l with state := .notOnLRU } := Function.update_self _ _ _
  generalize ({ c with cleanLRU := rest }.setState l .notOnLRU).recycle cfg ans l = c' at heq
  -- what the recycling does to the line beyond its list
  have hself : c'.lines l = { c.lines l with
      state := .notOnLRU
      contentGeneration := generation
      disk := disk } := by
    rw [heq, hpopped]
    exact Function.update_self _ _ _
  refine h.popClean hmem (fun l' hne => ?_) ?_ ?_ ?_ ?_ ?_ ?_ ?_ ?_ ?_
  · rw [heq]
    exact (Function.update_of_ne hne _ _).trans (Function.update_of_ne hne _ _)
  · rw [hself]
  · rw [hself]
  · rw [hself]
  · rw [heq]
    rfl
  · rw [heq]
    rfl
  · rw [heq, hclean, List.erase_cons_head]
    rfl
  all_goals rw [heq]; rfl

/-- **`free`** of a line that is on no LRU. -/
theorem freeLine (h : ListsOk cfg c (l :: held)) (ans : DiskAnswers) :
    ListsOk cfg (c.freeLine cfg ans l) held ∧ Quiet c (c.freeLine cfg ans l) := by
  have hmem : l ∈ c.onList (l :: held) .notOnLRU := List.mem_cons_self ..
  have hs := h.state_of_mem hmem
  -- a line that is held is not inbound, so no fetch and no waiter is lost
  have hnot : (c.lines l).state ≠ .inbound := by
    rw [hs]
    nofun
  obtain ⟨disk, files, fileOpen, idcfs, heq⟩ := freeLine_spec cfg ans c l
  generalize c.freeLine cfg ans l = c' at heq
  have hstate : (c'.lines l).state = .free := by
    rw [heq]
    show (Function.update c.lines l _ l).state = _
    rw [Function.update_self]
  have hfetch : (c'.lines l).fetch = (c.lines l).fetch := by
    rw [heq]
    show (Function.update c.lines l _ l).fetch = _
    rw [Function.update_self]
  have hwait : (c'.lines l).waiters = [] := by
    rw [heq]
    show (Function.update c.lines l _ l).waiters = _
    rw [Function.update_self]
  have hother : ∀ l', l' ≠ l → c'.lines l' = c.lines l' := by
    intro l' hne
    rw [heq]
    exact Function.update_of_ne hne _ _
  constructor
  · refine h.move (h.lt_of_mem hmem) hother hs hstate nofun (List.Perm.refl _) ?_
      (fun s h₁ h₂ => ?_) (fun hf => ?_) fun hw => absurd hwait hw
    · rw [heq]
      exact List.perm_append_singleton l _
    · rw [heq]
      cases s <;> first | rfl | contradiction
    · rw [hfetch] at hf
      exact absurd (h.idle hnot) hf
  · refine Quiet.of_line hother hnot (by rw [hstate]; nofun) ?_ ?_ ?_ ?_
    all_goals rw [heq]

/-- The release of lines keeps the lists. -/
theorem releaseDataCacheLines (ans : DiskAnswers) : ∀ {got : List ℕ} {c : DataCache},
    ListsOk cfg c (got ++ held) →
    ListsOk cfg (c.releaseDataCacheLines cfg ans got) held ∧
      Quiet c (c.releaseDataCacheLines cfg ans got) := by
  intro got
  induction got with
  | nil => exact fun h => ⟨h, .refl _⟩
  | cons l got ih =>
      intro c h
      obtain ⟨h₁, hq₁⟩ := ListsOk.freeLine h ans
      obtain ⟨h₂, hq₂⟩ := ih h₁
      exact ⟨h₂, hq₁.trans hq₂⟩

/-- A clean line leaves the map and is freed. -/
theorem dropClean (h : ListsOk cfg c held) (ans : DiskAnswers) (i n : ℕ)
    (hl : l < cfg.cacheLines) (hclean : (c.lines l).state = .clean) :
    ListsOk cfg (((c.setCacheMap i n none).popClean l).freeLine cfg ans l) held ∧
      Quiet c (((c.setCacheMap i n none).popClean l).freeLine cfg ans l) := by
  have hmem : l ∈ c.onList held (c.lines l).state := h.mem_of_state hl
  rw [hclean] at hmem
  generalize hc₁ : (c.setCacheMap i n none).popClean l = c₁
  have hself : c₁.lines l = { c.lines l with state := .notOnLRU } := by
    rw [← hc₁]
    exact Function.update_self _ _ _
  obtain ⟨h₁, hq₁⟩ : ListsOk cfg c₁ (l :: held) ∧ Quiet c c₁ := by
    refine h.popClean hmem (fun l' hne => ?_) ?_ ?_ ?_ ?_ ?_ ?_ ?_ ?_ ?_
    · rw [← hc₁]
      exact Function.update_of_ne hne _ _
    · rw [hself]
    · rw [hself]
    · rw [hself]
    all_goals rw [← hc₁]; rfl
  obtain ⟨h₂, hq₂⟩ := h₁.freeLine ans
  exact ⟨h₂, hq₁.trans hq₂⟩

/-- At most `n` lines are taken, and the lists are kept. -/
theorem takeFree : ∀ (n : ℕ) {c c' : DataCache} {got got' : List ℕ},
    ListsOk cfg c (got ++ others) → DataCache.takeFree n c got = (c', got') →
    ListsOk cfg c' (got' ++ others) ∧ Quiet c c' ∧ got'.length ≤ got.length + n := by
  intro n
  induction n with
  | zero =>
      intro c c' got got' h heq
      obtain ⟨rfl, rfl⟩ := Prod.mk.inj heq
      exact ⟨h, .refl _, le_rfl⟩
  | succ n ih =>
      intro c c' got got' h heq
      rw [DataCache.takeFree] at heq
      rcases hfree : c.freeLRU with - | ⟨l, rest⟩
      · rw [hfree] at heq
        obtain ⟨rfl, rfl⟩ := Prod.mk.inj heq
        exact ⟨h, .refl _, Nat.le_add_right _ _⟩
      · rw [hfree] at heq
        obtain ⟨h₁, hq₁⟩ := h.popFree hfree
        have hperm : (got ++ [l] ++ others).Perm (l :: (got ++ others)) := by
          rw [List.append_assoc]
          exact List.perm_middle
        obtain ⟨h₂, hq₂, hle⟩ := ih (h₁.held_perm hperm) heq
        rw [List.length_append, List.length_singleton] at hle
        exact ⟨h₂, hq₁.trans hq₂, by omega⟩

/-- The second loop of `allocateDataCacheLines` ends the process where the
inode of a clean line is missing. -/
theorem takeClean {ans : DiskAnswers} : ∀ (n : ℕ) {c c' : DataCache} {got got' : List ℕ},
    ListsOk cfg c (got ++ others) → DataCache.takeClean cfg inodes ans n c got = (c', got') →
    c'.fatal = true ∨
      (ListsOk cfg c' (got' ++ others) ∧ Quiet c c' ∧ got'.length ≤ got.length + n) := by
  intro n
  induction n with
  | zero =>
      intro c c' got got' h heq
      obtain ⟨rfl, rfl⟩ := Prod.mk.inj heq
      exact .inr ⟨h, .refl _, le_rfl⟩
  | succ n ih =>
      intro c c' got got' h heq
      rw [DataCache.takeClean] at heq
      rcases hclean : c.cleanLRU with - | ⟨l, rest⟩
      -- no clean line is left
      · rw [hclean] at heq
        obtain ⟨rfl, rfl⟩ := Prod.mk.inj heq
        exact .inr ⟨h, .refl _, Nat.le_add_right _ _⟩
      · rw [hclean] at heq
        dsimp only at heq
        split at heq
        -- the line's inode is missing: the Fatalf
        · obtain ⟨rfl, -⟩ := Prod.mk.inj heq
          exact .inl rfl
        -- the line is recycled, and the rest is got in the same way
        · obtain ⟨h₁, hq₁⟩ := h.recycle ans hclean
          have hperm : (got ++ [l] ++ others).Perm (l :: (got ++ others)) := by
            rw [List.append_assoc]
            exact List.perm_middle
          rcases ih (h₁.held_perm hperm) heq with hfatal | ⟨h₂, hq₂, hle⟩
          · exact .inl hfatal
          · rw [List.length_append, List.length_singleton] at hle
            exact .inr ⟨h₂, hq₁.trans hq₂, by omega⟩

end ListsOk

end DataCache

end MultiStorageFileSystem
