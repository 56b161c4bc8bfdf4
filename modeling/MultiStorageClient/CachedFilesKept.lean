/-
MultiStorageClient/CachedFilesKept.lean

The lines and their backing files, while files come and go.

Unmounting a backend leaves the lines of its files in the cache and entries in
`cacheMap`s that nobody clears any more, so `FilesOk` is lost.  What is kept is
`Kept`: the cache is in order with a smaller map in the place of `cacheMap`, one
that has the inbound and clean lines only, and for every inode that there has
been.  No operation tells the two maps apart, but for the entries it finds.

`Releases` says what freeing lines does to the backing files: a file is closed
with its last line, and no other is touched.
-/
import MultiStorageClient.CachedFilesMapped

namespace MultiStorageFileSystem

open Run

variable {cfg : CacheConfig} {heap inodes : ℕ → Option InodeInfo} {objects : ℕ → List UInt8}

namespace DataCache

variable {c c' c₁ c₂ : DataCache} {i l n r : ℕ} {rd : Reader} {held held' got got' left : List ℕ}
  {others order : List ℕ} {m : ℕ → ℕ → Option ℕ} {ans : DiskAnswers}

/-! ### Files that lose lines -/

/-- Files lose lines, and are closed with their last one. -/
structure Releases (c c' : DataCache) : Prop where
  loses : ∀ i g, c.inodeDiskCacheFiles i = some g →
    (∃ k, c'.inodeDiskCacheFiles i = some ⟨g.file, k⟩ ∧ k ≤ g.residentLines ∧
      (k = 0 → g.residentLines = 0)) ∨
    (c'.inodeDiskCacheFiles i = none ∧ c'.fileOpen g.file = false ∧ g.residentLines ≠ 0)
  none : ∀ i, c.inodeDiskCacheFiles i = none → c'.inodeDiskCacheFiles i = none
  closed : ∀ x, c.fileOpen x = false → c'.fileOpen x = false

namespace Releases

theorem of_eq (hfiles : c'.inodeDiskCacheFiles = c.inodeDiskCacheFiles)
    (hopen : c'.fileOpen = c.fileOpen) : Releases c c' := by
  refine ⟨fun i g hg => .inl ⟨g.residentLines, ?_, le_rfl, id⟩, fun i hi => ?_, fun x hx => ?_⟩
  · rw [hfiles]
    exact hg
  · rw [hfiles]
    exact hi
  · rw [hopen]
    exact hx

theorem refl (c : DataCache) : Releases c c := .of_eq rfl rfl

theorem trans (h : Releases c c₁) (h' : Releases c₁ c₂) : Releases c c₂ := by
  refine ⟨fun i g hg => ?_, fun i hi => h'.none i (h.none i hi),
    fun x hx => h'.closed x (h.closed x hx)⟩
  rcases h.loses i g hg with ⟨k, hk, hle, hzero⟩ | ⟨hnone, hclosed, hpos⟩
  · rcases h'.loses i _ hk with ⟨k', hk', hle', hzero'⟩ | ⟨hnone, hclosed, hpos⟩
    · exact .inl ⟨k', hk', hle'.trans hle, fun hz => hzero (hzero' hz)⟩
    · exact .inr ⟨hnone, hclosed, fun hz => hpos (Nat.le_zero.mp (hz ▸ hle))⟩
  · exact .inr ⟨h'.none i hnone, h'.closed _ hclosed, hpos⟩

end Releases

/-- **Punching a hole** takes one line from the file of its inode. -/
theorem DiskOk.releases (h : DiskOk cfg heap c) (ans : DiskAnswers) (l : ℕ) :
    Releases c (c.punchHoleDisk cfg ans l) := by
  rcases hd : (c.lines l).disk with - | d
  · rw [punchHoleDisk_of_none cfg ans hd]
    exact .refl c
  obtain ⟨hl, ⟨n, hf⟩, -, -⟩ := h.placed l d hd
  have hmem : l ∈ residents cfg c (c.lines l).inodeNumber :=
    Finset.mem_filter.mpr ⟨Finset.mem_range.mpr hl, by rw [hd]; rfl, rfl⟩
  have hpos : n ≠ 0 := by
    rw [show n = _ from h.resident _ _ hf]
    exact (Finset.card_pos.mpr ⟨l, hmem⟩).ne'
  rw [punchHoleDisk_some cfg ans hd hf]
  refine ⟨fun i g hg => ?_, fun i hi => ?_, fun x hx => ?_⟩
  -- the line's own file: one line fewer, and closed with the last one
  · by_cases heq : i = (c.lines l).inodeNumber
    · subst heq
      obtain rfl := Option.some.inj (hf.symm.trans hg)
      dsimp only
      rw [Function.update_self]
      by_cases hlast : n - 1 = 0
      · rw [if_pos hlast, if_pos hlast, Function.update_self]
        exact .inr ⟨rfl, rfl, hpos⟩
      · rw [if_neg hlast]
        exact .inl ⟨n - 1, rfl, Nat.sub_le _ _, fun hz => absurd hz hlast⟩
    · refine .inl ⟨g.residentLines, ?_, le_rfl, id⟩
      exact (Function.update_of_ne heq _ _).trans hg
  · have hne : i ≠ (c.lines l).inodeNumber := by
      rintro rfl
      rw [hf] at hi
      cases hi
    exact (Function.update_of_ne hne _ _).trans hi
  · show (if n - 1 = 0 then Function.update c.fileOpen d.file false else c.fileOpen) x = false
    split
    · rw [Function.update_apply]
      split
      · rfl
      · exact hx
    · exact hx

theorem DiskOk.releases_freeLine (h : DiskOk cfg heap c) (ans : DiskAnswers) (l : ℕ) :
    Releases c (c.freeLine cfg ans l) := by
  unfold freeLine
  split
  · exact (h.releases ans l).trans (.of_eq rfl rfl)
  · exact .of_eq rfl rfl

/-- A recycled line takes itself out of its file, which is closed with its last line. -/
theorem DiskOk.releases_recycle (h : DiskOk cfg heap c) (ans : DiskAnswers) (l : ℕ) :
    Releases c (c.recycle cfg ans l) := by
  unfold recycle
  split
  · have hbumped : DiskOk cfg heap
        (c.updLine l fun t => { t with contentGeneration := t.contentGeneration + 1 }) :=
      h.updLine rfl rfl rfl
    have hstart : Releases c
        (c.updLine l fun t => { t with contentGeneration := t.contentGeneration + 1 }) :=
      .of_eq rfl rfl
    exact (hstart.trans (hbumped.releases ans l)).trans (.of_eq rfl rfl)
  · exact .of_eq rfl rfl

/-! ### A smaller map -/

/-- The cache with another map. -/
def withMap (c : DataCache) (m : ℕ → ℕ → Option ℕ) : DataCache := { c with cacheMap := m }

theorem lines_withMap (c : DataCache) (m : ℕ → ℕ → Option ℕ) : (c.withMap m).lines = c.lines :=
  rfl

theorem updLine_withMap (c : DataCache) (m : ℕ → ℕ → Option ℕ) (l : ℕ)
    (f : CacheLine → CacheLine) : (c.withMap m).updLine l f = (c.updLine l f).withMap m := rfl

/-- The hole that is punched does not depend on the map of the lines. -/
theorem punchHoleDisk_withMap (cfg : CacheConfig) (ans : DiskAnswers) (c : DataCache)
    (m : ℕ → ℕ → Option ℕ) (l : ℕ) :
    (c.withMap m).punchHoleDisk cfg ans l = (c.punchHoleDisk cfg ans l).withMap m := by
  unfold punchHoleDisk
  rcases hd : (c.lines l).disk with - | d
  · rw [show ((c.withMap m).lines l).disk = none from hd]
  · rw [show ((c.withMap m).lines l).disk = some d from hd]
    dsimp only
    have hdrop : ∀ b : DataCache, (b.withMap m).dropResident (c.lines l).inodeNumber =
        (b.dropResident (c.lines l).inodeNumber).withMap m := by
      intro b
      unfold dropResident
      rcases hb : b.inodeDiskCacheFiles (c.lines l).inodeNumber with - | g
      · rw [show (b.withMap m).inodeDiskCacheFiles _ = none from hb]
      · rw [show (b.withMap m).inodeDiskCacheFiles _ = some g from hb]
        dsimp only
        split
        · rfl
        · rfl
    split
    · exact congrArg (updLine · l _) (hdrop (c.setFile d.file _))
    · exact congrArg (updLine · l _) (hdrop c)

theorem freeLine_withMap (cfg : CacheConfig) (ans : DiskAnswers) (c : DataCache)
    (m : ℕ → ℕ → Option ℕ) (l : ℕ) :
    (c.withMap m).freeLine cfg ans l = (c.freeLine cfg ans l).withMap m := by
  unfold freeLine
  split
  · rw [punchHoleDisk_withMap]
    rfl
  · rfl

/-- The recycling of a line, over any map of the lines. -/
theorem recycle_withMap (cfg : CacheConfig) (ans : DiskAnswers) (c : DataCache)
    (m : ℕ → ℕ → Option ℕ) (l : ℕ) :
    (c.withMap m).recycle cfg ans l = (c.recycle cfg ans l).withMap
      ((c.withMap m).setCacheMap (c.lines l).inodeNumber (c.lines l).lineNumber none).cacheMap := by
  unfold recycle
  split
  · have hpunch := punchHoleDisk_withMap cfg ans
      (c.updLine l fun t => { t with contentGeneration := t.contentGeneration + 1 }) m l
    rw [updLine_withMap, hpunch]
    rfl
  · rfl

/-- The opening of an inode's file does not depend on the map of the lines. -/
theorem openInodeFile_withMap (ans : DiskAnswers) (c : DataCache) (m : ℕ → ℕ → Option ℕ)
    (inode : ℕ) : (c.withMap m).openInodeFile ans inode =
      (c.openInodeFile ans inode).map fun opened => (opened.1.withMap m, opened.2) := by
  unfold openInodeFile
  rcases hf : c.inodeDiskCacheFiles inode with - | g
  · rw [show (c.withMap m).inodeDiskCacheFiles inode = none from hf]
    dsimp only
    split
    · rfl
    · rfl
  · rw [show (c.withMap m).inodeDiskCacheFiles inode = some g from hf]
    rfl

/-- The storing of a content does not depend on the map of the lines. -/
theorem storeContentDisk_withMap (cfg : CacheConfig) (ans : DiskAnswers) (c : DataCache)
    (m : ℕ → ℕ → Option ℕ) (l : ℕ) (buf : List UInt8) :
    (c.withMap m).storeContentDisk cfg ans l buf =
      ((c.storeContentDisk cfg ans l buf).1.withMap m, (c.storeContentDisk cfg ans l buf).2) := by
  have hopen := openInodeFile_withMap ans (c.updLine l fun t => { t with disk := none }) m
    (c.lines l).inodeNumber
  unfold storeContentDisk
  dsimp only
  split
  · rfl
  rw [updLine_withMap, lines_withMap, hopen]
  rcases (c.updLine l fun t => { t with disk := none }).openInodeFile ans
    (c.lines l).inodeNumber with - | ⟨b, g⟩
  · rfl
  · show (b.withMap m).writeLine cfg ans l buf g = _
    dsimp only
    unfold writeLine
    rcases ans.writeFailsAfter with - | k
    · rfl
    · rfl

/-- The cache is in order with a part of its map in the place of the map. -/
def Kept (cfg : CacheConfig) (heap : ℕ → Option InodeInfo) (c : DataCache) (held : List ℕ) :
    Prop :=
  ∃ m, (∀ i n l, m i n = some l → c.cacheMap i n = some l) ∧ CacheOk cfg heap (c.withMap m) held

/-- What taking and freeing lines does. -/
structure Frees (cfg : CacheConfig) (heap : ℕ → Option InodeInfo) (c c' : DataCache)
    (held : List ℕ) : Prop where
  kept : Kept cfg heap c' held
  releases : Releases c c'
  readers : c'.readers = c.readers

theorem Frees.trans (h : Frees cfg heap c c₁ held) (h' : Frees cfg heap c₁ c₂ held') :
    Frees cfg heap c c₂ held' :=
  ⟨h'.kept, h.releases.trans h'.releases, h'.readers.trans h.readers⟩

namespace Kept

theorem of_cacheOk (h : CacheOk cfg heap c held) : Kept cfg heap c held :=
  ⟨c.cacheMap, fun _ _ _ => id, h⟩

theorem frees (h : Kept cfg heap c held) : Frees cfg heap c c held := ⟨h, .refl c, rfl⟩

theorem disk (h : Kept cfg heap c held) : DiskOk cfg heap c := by
  obtain ⟨m, -, hok⟩ := h
  exact hok.disk.congr ⟨rfl, rfl, rfl, rfl, fun _ => ⟨rfl, fun _ => ⟨rfl, rfl⟩⟩⟩

theorem held_perm (h : Kept cfg heap c held) (hperm : held'.Perm held) : Kept cfg heap c held' := by
  obtain ⟨m, hle, hok⟩ := h
  exact ⟨m, hle, hok.held_perm hperm⟩

theorem frame (h : Kept cfg heap c held) (readers : List Reader) (handles : ℕ → ℕ → Option Bool)
    (counts : ℕ → ℕ) : Kept cfg heap
      { c with readers := readers, handles := handles, inboundCacheLineCount := counts } held := by
  obtain ⟨m, hle, hok⟩ := h
  exact ⟨m, hle, hok.frame readers handles counts⟩

theorem setReader (h : Kept cfg heap c held) (r : ℕ) (rd : Reader) :
    Kept cfg heap (c.setReader r rd) held := h.frame _ _ _

theorem waiters (h : Kept cfg heap c held) (hl : l < cfg.cacheLines) (ws : List ℕ) :
    Kept cfg heap (c.updLine l fun t => { t with waiters := ws }) held := by
  obtain ⟨m, hle, hok⟩ := h
  exact ⟨m, hle, hok.waiters hl ws⟩

theorem mem_of_state (h : Kept cfg heap c held) (hl : l < cfg.cacheLines) :
    l ∈ c.onList held (c.lines l).state := by
  obtain ⟨m, -, hok⟩ := h
  exact (hok.lists.mem _ l).mpr ⟨Finset.mem_range.mpr hl, rfl⟩

theorem lt_of_mem (h : Kept cfg heap c held) {s : LineState} (hl : l ∈ c.onList held s) :
    l < cfg.cacheLines := by
  obtain ⟨m, -, hok⟩ := h
  exact hok.lt_of_mem (s := s) hl

theorem touchClean (h : Kept cfg heap c held) (hl : l < cfg.cacheLines)
    (hclean : (c.lines l).state = .clean) : Frees cfg heap c (c.touchClean l) held := by
  have hmem := h.mem_of_state hl
  rw [hclean] at hmem
  obtain ⟨m, hle, hok⟩ := h
  exact ⟨⟨m, hle, hok.touchClean hmem⟩, .of_eq rfl rfl, rfl⟩

theorem popFree (h : Kept cfg heap c held) {rest : List ℕ} (hfree : c.freeLRU = l :: rest) :
    Frees cfg heap c ({ c with freeLRU := rest }.setState l .notOnLRU) (l :: held) := by
  obtain ⟨m, hle, hok⟩ := h
  exact ⟨⟨m, hle, (hok.popFree hfree).1⟩, .of_eq rfl rfl, rfl⟩

/-- A clean line that is recycled joins the lines held. -/
theorem recycle (h : Kept cfg heap c held) (ans : DiskAnswers) {rest : List ℕ}
    (hclean : c.cleanLRU = l :: rest) :
    Frees cfg heap c (({ c with cleanLRU := rest }.setState l .notOnLRU).recycle cfg ans l)
      (l :: held) := by
  have hdisk : DiskOk cfg heap ({ c with cleanLRU := rest } : DataCache) :=
    h.disk.congr ⟨rfl, rfl, rfl, rfl, fun _ => ⟨rfl, fun _ => ⟨rfl, rfl⟩⟩⟩
  obtain ⟨m, hle, hok⟩ := h
  have hok' := (hok.recycle ans hclean).1
  generalize hc₁ : ({ c with cleanLRU := rest } : DataCache).setState l .notOnLRU = c₁
  have hdisk₁ : DiskOk cfg heap c₁ := by
    rw [← hc₁]
    exact hdisk.updLine rfl rfl rfl
  have hstart : Releases c c₁ := by
    rw [← hc₁]
    exact .of_eq rfl rfl
  have hmap₁ : c₁.cacheMap = c.cacheMap := by rw [← hc₁]; rfl
  have hmap : (c₁.recycle cfg ans l).cacheMap =
      (c₁.setCacheMap (c₁.lines l).inodeNumber (c₁.lines l).lineNumber none).cacheMap := by
    unfold DataCache.recycle
    split
    · obtain ⟨_, _, _, hpunch⟩ := punchHoleDisk_eq cfg ans
        (c₁.updLine l fun t => { t with contentGeneration := t.contentGeneration + 1 }) l
      rw [hpunch]
      rfl
    · rfl
  refine ⟨?_, hstart.trans (hdisk₁.releases_recycle ans l), ?_⟩
  -- `hok` is about the lines over a fuller map, and the recycling commutes with that
  · have hcommutes := recycle_withMap cfg ans c₁ m l
    rw [← hc₁] at hcommutes
    rw [show ({ c.withMap m with cleanLRU := rest } : DataCache).setState l .notOnLRU =
      (({ c with cleanLRU := rest } : DataCache).setState l .notOnLRU).withMap m from rfl,
      hcommutes, hc₁] at hok'
    refine ⟨_, fun i n l' hentry => ?_, hok'⟩
    rw [hmap, cacheMap_setCacheMap, hmap₁]
    rw [cacheMap_setCacheMap] at hentry
    split at hentry
    · cases hentry
    · rename_i hkey
      rw [if_neg hkey]
      exact hle i n l' hentry
  · rw [(takes_recycle cfg ans c₁ l).1.readers, ← hc₁]
    rfl

/-- **`free`** of a line that is on no LRU. -/
theorem freeLine (h : Kept cfg heap c (l :: held)) (ans : DiskAnswers) :
    Frees cfg heap c (c.freeLine cfg ans l) held := by
  have hreleases := h.disk.releases_freeLine ans l
  obtain ⟨m, hle, hok⟩ := h
  obtain ⟨_, _, _, _, heq⟩ := freeLine_spec cfg ans c l
  refine ⟨⟨m, fun i n l' hentry => ?_, ?_⟩, hreleases, ?_⟩
  · rw [heq]
    exact hle i n l' hentry
  · rw [← freeLine_withMap]
    exact (hok.freeLine ans).1
  · rw [heq]

/-- The release of lines keeps the cache and takes them from the caller. -/
theorem releaseDataCacheLines (ans : DiskAnswers) : ∀ {got : List ℕ} {c : DataCache},
    Kept cfg heap c (got ++ held) →
    Frees cfg heap c (c.releaseDataCacheLines cfg ans got) held := by
  intro got
  induction got with
  | nil => exact fun h => h.frees
  | cons l got ih =>
      intro c h
      have hfreed := Kept.freeLine h ans
      exact hfreed.trans (ih hfreed.kept)

/-- **A clean line is dropped** at an entry that may be another inode's. -/
theorem dropClean (h : Kept cfg heap c held) (ans : DiskAnswers) (hentry : c.cacheMap i n = some l)
    (hclean : (c.lines l).state = .clean) :
    Frees cfg heap c (c.dropClean cfg ans i n l) held := by
  have hdisk := h.disk
  obtain ⟨m, hle, hok⟩ := h
  have hown := (hok.mapped.listed l (.inr hclean)).1
  obtain ⟨_, _, _, _, hspec⟩ := freeLine_spec cfg ans ((c.setCacheMap i n none).popClean l) l
  refine ⟨⟨((c.withMap m).setCacheMap (c.lines l).inodeNumber (c.lines l).lineNumber none).cacheMap,
    fun i' n' l' hentry' => ?_, ?_⟩, ?_, ?_⟩
  · rw [cacheMap_setCacheMap] at hentry'
    split at hentry'
    · cases hentry'
    rename_i hkey
    have hold := hle i' n' l' hentry'
    rw [(dropClean_spec cfg ans c i n l).2.1, if_neg]
    · exact hold
    · -- the entry that goes is the line's own in the smaller map
      rintro ⟨rfl, rfl⟩
      obtain rfl := Option.some.inj (hentry.symm.trans hold)
      obtain ⟨-, -, hi, hn⟩ := hok.mapped.entry i' n' l hentry'
      exact hkey ⟨hi.symm, hn.symm⟩
  · have hcommutes := freeLine_withMap cfg ans ((c.setCacheMap i n none).popClean l)
      ((c.withMap m).setCacheMap (c.lines l).inodeNumber (c.lines l).lineNumber none).cacheMap l
    unfold DataCache.dropClean
    rw [← hcommutes]
    exact (hok.dropClean ans hown hclean).1
  · have hself : ((c.setCacheMap i n none).popClean l).lines l =
        { c.lines l with state := .notOnLRU } := Function.update_self _ _ _
    have hpopped : DiskOk cfg heap ((c.setCacheMap i n none).popClean l) := by
      refine hdisk.congr (SameDisk.of_line (l := l) (fun l' hne => ?_) ?_ (fun _ => ?_) rfl rfl rfl
        rfl)
      · exact Function.update_of_ne hne _ _
      · rw [hself]
      · rw [hself]
        exact ⟨rfl, rfl⟩
    have hstart : Releases c ((c.setCacheMap i n none).popClean l) := .of_eq rfl rfl
    exact hstart.trans (hpopped.releases_freeLine ans l)
  · unfold DataCache.dropClean
    rw [hspec]
    rfl

/-- **A held line becomes an inbound line.** -/
theorem assignLine (h : Kept cfg heap c (l :: held)) {inode n : ℕ}
    (hfresh : c.cacheMap inode n = none) (hinode : (heap inode).isSome) (ws : List ℕ) :
    Frees cfg heap c (c.assignLine inode n ws l) held := by
  obtain ⟨m, hle, hok⟩ := h
  have hfresh' : (c.withMap m).cacheMap inode n = none := by
    rcases hentry : m inode n with - | l'
    · exact hentry
    · rw [hle _ _ _ hentry] at hfresh
      cases hfresh
  have hok' := (hok.assignLine hfresh' hinode ws).1
  refine ⟨⟨((c.withMap m).setCacheMap inode n (some l)).cacheMap, fun i' n' l' hentry => ?_, ?_⟩,
    ?_, ?_⟩
  · rw [assignLine_eq]
    dsimp only
    rw [cacheMap_setCacheMap] at hentry ⊢
    split at hentry
    · rename_i hkey
      rw [if_pos hkey]
      exact hentry
    · rename_i hkey
      rw [if_neg hkey]
      exact hle i' n' l' hentry
  · rw [assignLine_eq] at hok' ⊢
    exact hok'
  · rw [assignLine_eq]
    exact .of_eq rfl rfl
  · rw [assignLine_eq]

/-- The assignment of lines to what is prefetched keeps the cache. -/
theorem assignPrefetch {inode : ℕ} (hinode : (heap inode).isSome) :
    ∀ {prefetch : List ℕ} {c c' : DataCache} {got left : List ℕ},
    Kept cfg heap c (got ++ held) → DataCache.assignPrefetch inode prefetch c got = (c', left) →
    Frees cfg heap c c' (left ++ held) := by
  intro prefetch
  induction prefetch with
  | nil =>
      intro c c' got left h heq
      obtain ⟨rfl, rfl⟩ := Prod.mk.inj heq
      exact h.frees
  | cons n prefetch ih =>
      intro c c' got left h heq
      cases got with
      | nil =>
          obtain ⟨rfl, rfl⟩ := Prod.mk.inj heq
          exact h.frees
      | cons l got =>
          rw [DataCache.assignPrefetch] at heq
          split at heq
          · exact ih h heq
          · rename_i hnone
            have hassigned := Kept.assignLine h (Option.not_isSome_iff_eq_none.mp hnone) hinode []
            exact hassigned.trans (ih hassigned.kept heq)

/-- Lines taken from the free list join the lines held. -/
theorem takeFree : ∀ (n : ℕ) {c c' : DataCache} {got got' : List ℕ},
    Kept cfg heap c (got ++ others) → DataCache.takeFree n c got = (c', got') →
    Frees cfg heap c c' (got' ++ others) := by
  intro n
  induction n with
  | zero =>
      intro c c' got got' h heq
      obtain ⟨rfl, rfl⟩ := Prod.mk.inj heq
      exact h.frees
  | succ n ih =>
      intro c c' got got' h heq
      rw [DataCache.takeFree] at heq
      rcases hfree : c.freeLRU with - | ⟨l, rest⟩
      · rw [hfree] at heq
        obtain ⟨rfl, rfl⟩ := Prod.mk.inj heq
        exact h.frees
      · rw [hfree] at heq
        have hperm : (got ++ [l] ++ others).Perm (l :: (got ++ others)) := by
          rw [List.append_assoc]
          exact List.perm_middle
        have hpopped := h.popFree hfree
        exact hpopped.trans (ih (hpopped.kept.held_perm hperm) heq)

/-- The second loop of `allocateDataCacheLines` may end the process. -/
theorem takeClean {ans : DiskAnswers} : ∀ (n : ℕ) {c c' : DataCache} {got got' : List ℕ},
    Kept cfg heap c (got ++ others) → DataCache.takeClean cfg inodes ans n c got = (c', got') →
    c'.fatal = true ∨ Frees cfg heap c c' (got' ++ others) := by
  intro n
  induction n with
  | zero =>
      intro c c' got got' h heq
      obtain ⟨rfl, rfl⟩ := Prod.mk.inj heq
      exact .inr h.frees
  | succ n ih =>
      intro c c' got got' h heq
      rw [DataCache.takeClean] at heq
      rcases hclean : c.cleanLRU with - | ⟨l, rest⟩
      · rw [hclean] at heq
        obtain ⟨rfl, rfl⟩ := Prod.mk.inj heq
        exact .inr h.frees
      · rw [hclean] at heq
        dsimp only at heq
        split at heq
        · obtain ⟨rfl, -⟩ := Prod.mk.inj heq
          exact .inl rfl
        · have hperm : (got ++ [l] ++ others).Perm (l :: (got ++ others)) := by
            rw [List.append_assoc]
            exact List.perm_middle
          have hrecycled := h.recycle ans hclean
          exact (ih (hrecycled.kept.held_perm hperm) heq).imp_right hrecycled.trans

/-- **The loop over the map of a file** drops clean lines, whoever's they are. -/
theorem dropLines (ans : DiskAnswers) (i : ℕ) (onlyClean : Bool) :
    ∀ {order : List ℕ} {c : DataCache}, Kept cfg heap c held →
      (DataCache.dropLines cfg ans i onlyClean order c).fatal = true ∨
        Frees cfg heap c (DataCache.dropLines cfg ans i onlyClean order c) held := by
  intro order
  induction order with
  | nil => exact fun h => .inr h.frees
  | cons n order ih =>
      intro c h
      rw [DataCache.dropLines]
      split
      · exact ih h
      rename_i l hentry
      split
      · exact .inl rfl
      split
      · rename_i hclean
        have hdropped := h.dropClean ans hentry hclean
        exact (ih hdropped.kept).imp_right hdropped.trans
      · split
        · exact .inl rfl
        · exact ih h

/-! ### Fetching -/

/-- An inbound line is freed that nobody has come for. -/
theorem abandonFetch (h : Kept cfg heap c held) (ans : DiskAnswers)
    (hfetch : (c.lines l).fetch ≠ .idle) : Frees cfg heap c (c.abandonFetch cfg ans l) held := by
  obtain ⟨m, hle, hok⟩ := h
  obtain ⟨hl, hs, hmem, hnone, -⟩ := hok.fetching hfetch
  have hpoppedNone : ((c.popInbound l).lines l).disk = none :=
    (congrArg CacheLine.disk (Function.update_self l _ c.lines)).trans hnone
  have heq : c.abandonFetch cfg ans l =
      { c with
        lines := Function.update c.lines l { c.lines l with
          state := .free
          contentLength := 0
          contentGeneration := (c.lines l).contentGeneration + 1
          inodeNumber := 0
          lineNumber := 0
          fetchFailed := false
          waiters := []
          fetch := .idle }
        inboundLRU := c.inboundLRU.erase l
        freeLRU := c.freeLRU ++ [l] } := by
    unfold DataCache.abandonFetch
    rw [freeLine_eq cfg ans hpoppedNone]
    simp only [DataCache.notifyWaiters, popInbound, setState, DataCache.updLine,
      Function.update_self, Function.update_idem, List.foldl_nil]
  rw [heq]
  refine ⟨?_, .of_eq rfl rfl, rfl⟩
  -- off the Inbound LRU and the smaller map, with its fetch over
  generalize hc₁ : ({ c.withMap m with
    lines := Function.update c.lines l { c.lines l with state := .notOnLRU, fetch := .idle }
    cacheMap := ((c.withMap m).setCacheMap (c.lines l).inodeNumber (c.lines l).lineNumber
      none).cacheMap
    inboundLRU := c.inboundLRU.erase l } : DataCache) = c₁
  have hself : c₁.lines l = { c.lines l with state := .notOnLRU, fetch := .idle } := by
    rw [← hc₁]
    exact Function.update_self _ _ _
  have hch : Changes l (c.withMap m) c₁ := by
    rw [← hc₁]
    exact ⟨fun _ hne => Function.update_of_ne hne _ _, fun _ _ => rfl⟩
  have hok₁ : CacheOk cfg heap c₁ (l :: held) := by
    refine hok.change hl hch ?_ ?_ (hok.mapped.drop hch (fun i n => ?_) ?_ (.inl hs))
      (hok.disk.congr (SameDisk.of_line (l := l) hch.lines ?_ (fun _ => ?_) ?_ ?_ ?_ ?_))
    · rw [hself]
      refine hok.lists.move (Finset.mem_range.mpr hl) hs (by simp) ?_ ?_ fun s h₁ h₂ => ?_
      · rw [← hc₁]
        exact List.perm_cons_erase hmem
      · exact List.Perm.refl _
      · rw [← hc₁]
        cases s <;> first | rfl | contradiction
    · rw [hself]
      exact .of_unlisted rfl (by simp) hnone
    · rw [← cacheMap_setCacheMap, ← hc₁]
      rfl
    · rw [hself]
      exact CacheLine.not_listed (.inl rfl)
    · rw [hself]
      rfl
    · rw [hself]
      exact ⟨rfl, rfl⟩
    all_goals rw [← hc₁]
  have hfreed := (hok₁.freeLine ans).1
  rw [freeLine_eq cfg ans (by rw [hself]; exact hnone), hself] at hfreed
  refine ⟨c₁.cacheMap, fun i n l' hentry => ?_, ?_⟩
  · rw [← hc₁] at hentry
    dsimp only at hentry
    rw [cacheMap_setCacheMap] at hentry
    split at hentry
    · cases hentry
    · exact hle i n l' hentry
  · rw [← hc₁] at hfreed ⊢
    simp only [Function.update_idem] at hfreed
    exact hfreed

/-- **The first section of `fetch`**, whether the inode is there or not. -/
theorem fetchBegin (h : Kept cfg heap c held) (ans : DiskAnswers)
    (hfetch : (c.lines l).fetch = .started) :
    Frees cfg heap c (c.fetchBegin cfg inodes ans l) held := by
  have hbusy : (c.lines l).fetch ≠ .idle := by
    rw [hfetch]
    nofun
  rcases hinode : inodes (c.lines l).inodeNumber with - | info
  · unfold DataCache.fetchBegin
    rw [hinode]
    exact h.abandonFetch ans hbusy
  obtain ⟨m, hle, hok⟩ := h
  obtain ⟨-, -, -, -, hthere⟩ := hok.fetching hbusy
  obtain ⟨info', hinfo'⟩ := Option.isSome_iff_exists.mp hthere
  have hok' := (hok.fetchBegin ans hfetch).1
  unfold DataCache.fetchBegin at hok' ⊢
  rw [hinfo'] at hok'
  rw [hinode]
  exact ⟨⟨m, hle, hok'⟩, .of_eq rfl rfl, rfl⟩

/-- **The backend answers.** -/
theorem fetchAnswer (h : Kept cfg heap c held) {i n : ℕ}
    (hfetch : (c.lines l).fetch = .reading i n) {buf : Option (List UInt8)}
    (hbuf : ∀ bytes, buf = some bytes → (heap i).isSome → bytes = backendLine cfg heap i n) :
    Frees cfg heap c (c.fetchAnswer cfg l buf) held := by
  obtain ⟨m, hle, hok⟩ := h
  obtain ⟨-, -, -, -, hthere⟩ := hok.fetching (l := l) (by rw [lines_withMap, hfetch]; nofun)
  rw [← ((hok.line l).reading i n hfetch).1] at hthere
  have hok' := (hok.fetchAnswer hfetch fun bytes hbytes => hbuf bytes hbytes hthere).1
  unfold DataCache.fetchAnswer at hok' ⊢
  rcases buf with - | bytes
  · exact ⟨⟨m, hle, hok'⟩, .of_eq rfl rfl, rfl⟩
  dsimp only at hok' ⊢
  split
  · rename_i hdisk
    rw [if_pos hdisk] at hok'
    exact ⟨⟨m, hle, hok'⟩, .of_eq rfl rfl, rfl⟩
  · rename_i hram
    rw [if_neg hram] at hok'
    exact ⟨⟨m, hle, hok'⟩, .of_eq rfl rfl, rfl⟩

end Kept

/-! ### Storing -/

/-- Files that are there stay, and may get a line. -/
def Gains (c c' : DataCache) : Prop :=
  ∀ i g, c.inodeDiskCacheFiles i = some g →
    ∃ k, c'.inodeDiskCacheFiles i = some ⟨g.file, k⟩ ∧ g.residentLines ≤ k

theorem Gains.of_eq (hfiles : c'.inodeDiskCacheFiles = c.inodeDiskCacheFiles) : Gains c c' := by
  intro i g hg
  rw [hfiles]
  exact ⟨g.residentLines, hg, le_rfl⟩

theorem Gains.trans (h : Gains c c₁) (h' : Gains c₁ c₂) : Gains c c₂ := by
  intro i g hg
  obtain ⟨k, hk, hle⟩ := h i g hg
  obtain ⟨k', hk', hle'⟩ := h' i _ hk
  exact ⟨k', hk', hle.trans hle'⟩

/-- After the opening the inode has a file, and no line has changed. -/
theorem gains_openInodeFile {inode : ℕ} {g : InodeDiskFile}
    (h : c.openInodeFile ans inode = some (c', g)) :
    Gains c c' ∧ c'.inodeDiskCacheFiles inode = some g ∧ c'.lines = c.lines := by
  unfold openInodeFile at h
  rcases hf : c.inodeDiskCacheFiles inode with - | g₀
  · rw [hf] at h
    dsimp only at h
    split at h
    · obtain ⟨rfl, rfl⟩ := Prod.mk.inj (Option.some.inj h)
      refine ⟨fun i g hg => ⟨g.residentLines, ?_, le_rfl⟩, Function.update_self _ _ _, rfl⟩
      have hne : i ≠ inode := by
        rintro rfl
        rw [hf] at hg
        cases hg
      exact (Function.update_of_ne hne _ _).trans hg
    · cases h
  · rw [hf] at h
    obtain ⟨rfl, rfl⟩ := Prod.mk.inj (Option.some.inj h)
    exact ⟨.of_eq rfl, hf, rfl⟩

/-- The storing of a content loses no file. -/
theorem gains_storeContentDisk (cfg : CacheConfig) (ans : DiskAnswers) (c : DataCache) (l : ℕ)
    (buf : List UInt8) : Gains c (c.storeContentDisk cfg ans l buf).1 := by
  unfold storeContentDisk
  dsimp only
  split
  · exact .of_eq rfl
  rcases hopen : (c.updLine l fun t => { t with disk := none }).openInodeFile ans
    (c.lines l).inodeNumber with - | ⟨b, g⟩
  · exact .of_eq rfl
  obtain ⟨hopened, hg, hlines⟩ := gains_openInodeFile hopen
  have hinode : (b.lines l).inodeNumber = (c.lines l).inodeNumber := by
    rw [hlines, lines_updLine_self]
  have hstart : Gains c (c.updLine l fun t => { t with disk := none }) := .of_eq rfl
  refine (hstart.trans hopened).trans ?_
  dsimp only
  unfold writeLine
  rcases ans.writeFailsAfter with - | k
  · intro i g' hg'
    show ∃ k, Function.update b.inodeDiskCacheFiles (b.lines l).inodeNumber _ i =
      some ⟨g'.file, k⟩ ∧ _
    by_cases heq : i = (b.lines l).inodeNumber
    · rw [heq, hinode, hg] at hg'
      obtain rfl := Option.some.inj hg'
      rw [heq, Function.update_self]
      exact ⟨g.residentLines + 1, rfl, Nat.le_succ _⟩
    · rw [Function.update_of_ne heq]
      exact ⟨g'.residentLines, hg', le_rfl⟩
  · exact .of_eq rfl

theorem gains_storeFetched (cfg : CacheConfig) (ans : DiskAnswers) (c : DataCache) (l : ℕ)
    (buf : Option (List UInt8)) : Gains c (c.storeFetched cfg ans l buf) := by
  unfold storeFetched
  rcases buf with - | bytes
  · exact .of_eq rfl
  dsimp only
  split
  · exact (gains_storeContentDisk cfg ans c l bytes).trans (.of_eq rfl)
  · exact .of_eq rfl

/-- The end of a fetch, over any map of the lines. -/
theorem storeFetched_withMap (cfg : CacheConfig) (ans : DiskAnswers) (c : DataCache)
    (m : ℕ → ℕ → Option ℕ) (l : ℕ) (buf : Option (List UInt8)) :
    (c.withMap m).storeFetched cfg ans l buf = (c.storeFetched cfg ans l buf).withMap m := by
  unfold storeFetched
  rcases buf with - | bytes
  · rfl
  dsimp only
  split
  · rw [storeContentDisk_withMap]
    rfl
  · rfl

/-! ### One step -/

/-- What one step does to the backing files that there are. -/
def Touches (c c' : DataCache) : Prop :=
  ∀ i g, c.inodeDiskCacheFiles i = some g →
    (∃ k, c'.inodeDiskCacheFiles i = some ⟨g.file, k⟩ ∧ (k = 0 → g.residentLines = 0)) ∨
    (c'.inodeDiskCacheFiles i = none ∧ c'.fileOpen g.file = false ∧ g.residentLines ≠ 0)

theorem Releases.touches (h : Releases c c') : Touches c c' := by
  intro i g hg
  rcases h.loses i g hg with ⟨k, hk, -, hzero⟩ | hclosed
  · exact .inl ⟨k, hk, hzero⟩
  · exact .inr hclosed

theorem Gains.touches (h : Gains c c') : Touches c c' := by
  intro i g hg
  obtain ⟨k, hk, hle⟩ := h i g hg
  exact .inl ⟨k, hk, fun hz => Nat.le_zero.mp (hz ▸ hle)⟩

/-- A step keeps the lines in order, and the readers that have returned. -/
structure Goes (cfg : CacheConfig) (heap : ℕ → Option InodeInfo) (c c' : DataCache) : Prop where
  kept : Kept cfg heap c' (heldLines c'.readers)
  touches : Touches c c'
  returned : ∀ (w : ℕ) (wg : Reader), c.readers[w]? = some wg → wg.pc = .returned .ok →
    ∃ wg', c'.readers[w]? = some wg' ∧ wg'.pc = .returned .ok

/-- Readers change at most in what they wait for. -/
theorem Goes.of_unwaiting (hkept : Kept cfg heap c' (heldLines c.readers)) (htouches : Touches c c')
    (hreaders : c'.readers.map Reader.unwaiting = c.readers.map Reader.unwaiting) :
    Goes cfg heap c c' := by
  refine ⟨?_, htouches, fun w wg hwg hpc => ?_⟩
  · rw [heldLines_eq, hreaders, ← heldLines_eq]
    exact hkept
  · have hget := congrArg (fun rs : List Reader => rs[w]?) hreaders
    simp only [List.getElem?_map, hwg, Option.map_some] at hget
    obtain ⟨wg', hwg', heq⟩ := Option.map_eq_some_iff.mp hget
    exact ⟨wg', hwg', (congrArg Reader.pc heq).trans hpc⟩

theorem Frees.goes (h : Frees cfg heap c c' (heldLines c.readers)) : Goes cfg heap c c' :=
  .of_unwaiting h.kept h.releases.touches (by rw [h.readers])

/-- A reader that has not returned takes a step. -/
theorem Frees.setReader (rd' : Reader) (h : Frees cfg heap c c₁ (rd'.held ++ others))
    (hr : c.readers[r]? = some rd) (hpc : rd.pc ≠ .returned .ok)
    (hset : ∀ rd', (heldLines (c.readers.set r rd')).Perm (rd'.held ++ others)) :
    Goes cfg heap c (c₁.setReader r rd') := by
  have hreaders : (c₁.setReader r rd').readers = c.readers.set r rd' :=
    congrArg (List.set · r rd') h.readers
  refine ⟨?_, h.releases.touches, fun w wg hwg hdone => ?_⟩
  · rw [hreaders]
    exact (h.kept.held_perm (hset rd')).setReader r rd'
  · have hne : r ≠ w := by
      rintro rfl
      rw [Option.some.inj (hr.symm.trans hwg)] at hpc
      exact hpc hdone
    rw [hreaders, List.getElem?_set_ne hne]
    exact ⟨wg, hwg, hdone⟩

/-- **The second section of `fetch`**, whether the inode is there or not. -/
theorem Kept.fetchEnd (h : Kept cfg heap c (heldLines c.readers)) (ans : DiskAnswers)
    {buf : Option (List UInt8)} (hfetch : (c.lines l).fetch = .answered buf) :
    Goes cfg heap c (c.fetchEnd cfg inodes ans l buf) := by
  have hbusy : (c.lines l).fetch ≠ .idle := by
    rw [hfetch]
    nofun
  rcases hinode : inodes (c.lines l).inodeNumber with - | info
  · unfold DataCache.fetchEnd
    rw [hinode]
    exact (h.abandonFetch ans hbusy).goes
  obtain ⟨m, hle, hok⟩ := h
  obtain ⟨-, -, -, -, hthere⟩ := hok.fetching hbusy
  obtain ⟨info', hinfo'⟩ := Option.isSome_iff_exists.mp hthere
  obtain ⟨hok', -, -, -, -, -, hreaders⟩ := hok.fetchEnd ans hfetch
  -- the line off the Inbound LRU, with its new generation
  obtain ⟨b, heq, heq', hbmap, hbfiles⟩ : ∃ b : DataCache,
      c.fetchEnd cfg inodes ans l buf =
        ((b.storeFetched cfg ans l buf).pushClean l).notifyWaiters l ∧
      (c.withMap m).fetchEnd cfg heap ans l buf =
        (((b.withMap m).storeFetched cfg ans l buf).pushClean l).notifyWaiters l ∧
      b.cacheMap = c.cacheMap ∧ b.inodeDiskCacheFiles = c.inodeDiskCacheFiles := by
    unfold DataCache.fetchEnd
    rw [hinfo', hinode]
    exact ⟨_, rfl, rfl, rfl, rfl⟩
  have hsame : (c.fetchEnd cfg inodes ans l buf).cacheMap = c.cacheMap := by
    rw [heq]
    exact (congrArg DataCache.cacheMap
      (storeFetched_withMap cfg ans b b.cacheMap l buf)).trans hbmap
  have hgains : Gains c (c.fetchEnd cfg inodes ans l buf) := by
    have hstored := gains_storeFetched cfg ans b l buf
    rw [heq]
    exact fun i g hg => hstored i g (by rw [hbfiles]; exact hg)
  have hwithMap : (c.withMap m).fetchEnd cfg heap ans l buf =
      (c.fetchEnd cfg inodes ans l buf).withMap m := by
    rw [heq', storeFetched_withMap, heq]
    rfl
  rw [hwithMap] at hok' hreaders
  refine .of_unwaiting ⟨m, fun i n l' hentry => ?_, hok'⟩ hgains.touches ?_
  · rw [hsame]
    exact hle i n l' hentry
  · rw [show (c.fetchEnd cfg inodes ans l buf).readers = _ from hreaders]
    exact map_unwaiting_notify _ _

/-! ### Sections of a reader -/

/-- A turn of `allocateDataCacheLines`. -/
theorem Kept.allocate (h : Kept cfg heap c (heldLines c.readers)) (hr : c.readers[r]? = some rd)
    (hpc : rd.pc ≠ .returned .ok) (hheld : rd.held = got) (ans : DiskAnswers) (count : ℕ)
    (prefetch : List ℕ) :
    (c.allocateDataCacheLines cfg inodes ans r rd count prefetch got).fatal = true ∨
      Goes cfg heap c (c.allocateDataCacheLines cfg inodes ans r rd count prefetch got) := by
  obtain ⟨others, hperm, hset⟩ := heldLines_set hr
  rw [hheld] at hperm
  rcases hfree : DataCache.takeFree (count - got.length) c got with ⟨c₁, got₁⟩
  have hfrees₁ := (h.held_perm hperm.symm).takeFree _ hfree
  rcases hclean : DataCache.takeClean cfg inodes ans (count - got₁.length) c₁ got₁ with ⟨c₂, got₂⟩
  rw [allocateDataCacheLines_eq hfree hclean]
  rcases hfrees₁.kept.takeClean _ hclean with hfatal | hfrees₂
  · rw [if_pos hfatal]
    exact .inl hfatal
  have hfrees := hfrees₁.trans hfrees₂
  split
  · exact .inl ‹_›
  split
  -- enough lines: the section that assigns them comes next
  · exact .inr (Frees.setReader { rd with pc := .allocated prefetch got₂ } hfrees hr hpc hset)
  · split
    · exact .inl rfl
    -- too few: the reader waits for the first inbound line
    · rename_i l rest hinbound
      have hl : l < cfg.cacheLines := hfrees.kept.lt_of_mem (s := .inbound) (by
        show l ∈ c₂.inboundLRU
        rw [hinbound]
        exact List.mem_cons_self ..)
      have hwaits : Frees cfg heap c₂ (c₂.updLine l fun t =>
          { t with waiters := t.waiters ++ [r] }) (got₂ ++ others) :=
        ⟨hfrees.kept.waiters hl ((c₂.lines l).waiters ++ [r]), .of_eq rfl rfl, rfl⟩
      exact .inr (Frees.setReader
        { rd with pc := .allocating count prefetch got₂, waits := rd.waits + 1 }
        (hfrees.trans hwaits) hr hpc hset)

/-- A line that is found in the map, whoever's it is. -/
theorem Kept.readLine (h : Kept cfg heap c (heldLines c.readers)) (hr : c.readers[r]? = some rd)
    (hpc : rd.pc = .loop) (ans : DiskAnswers)
    (hentry : c.cacheMap rd.readIn.inode n = some l) :
    (c.readLine cfg ans r rd n l).fatal = true ∨ Goes cfg heap c (c.readLine cfg ans r rd n l) := by
  obtain ⟨others, hperm, hset⟩ := heldLines_set hr
  have hheld : rd.held = [] := by rw [Reader.held, hpc]
  have hgoing : rd.pc ≠ .returned .ok := by
    simp [hpc]
  rw [hheld] at hperm
  have hothers : Kept cfg heap c others := h.held_perm hperm.symm
  unfold DataCache.readLine
  split
  · exact .inl rfl
  rename_i hle
  have hl : l < cfg.cacheLines := Nat.not_le.mp hle
  split
  -- the line is inbound: the reader waits for it
  · have hwaits : Frees cfg heap c (c.updLine l fun t =>
        { t with waiters := t.waiters ++ [r] }) others :=
      ⟨hothers.waiters hl ((c.lines l).waiters ++ [r]), .of_eq rfl rfl, rfl⟩
    exact .inr (Frees.setReader { rd with pc := .waiting, waits := rd.waits + 1 } hwaits hr hgoing
      hset)
  -- the line is clean: its fetch has failed, or it is copied from
  · rename_i hclean
    split
    · have hdropped := hothers.dropClean ans hentry hclean
      exact .inr (Frees.setReader { rd with pc := .returned Errno.EIO } hdropped hr hgoing hset)
    · have htouched := hothers.touchClean hl hclean
      dsimp only
      split
      · exact .inr (Frees.setReader { rd with pc := .returned .ok } htouched hr hgoing hset)
      · exact .inr (Frees.setReader { rd with pc := .copying _ } htouched hr hgoing hset)
  · exact .inl rfl

/-- A reader that ends its turn without lines, the cache being as it was. -/
theorem Kept.setReader_none (h : Kept cfg heap c (heldLines c.readers))
    (hr : c.readers[r]? = some rd) (hpc : rd.pc ≠ .returned .ok) (hheld : rd.held = [])
    {rd' : Reader} (hheld' : rd'.held = []) : Goes cfg heap c (c.setReader r rd') := by
  obtain ⟨others, hperm, hset⟩ := heldLines_set hr
  rw [hheld] at hperm
  have hothers : Kept cfg heap c (rd'.held ++ others) := by
    rw [hheld']
    exact h.held_perm hperm.symm
  exact Frees.setReader rd' hothers.frees hr hpc hset

/-- The section at the head of the reader's loop keeps the cache. -/
theorem Kept.readSection (h : Kept cfg heap c (heldLines c.readers)) (hr : c.readers[r]? = some rd)
    (hpc : rd.pc = .loop) (ans : DiskAnswers) :
    (c.readSection cfg inodes ans r rd).fatal = true ∨
      Goes cfg heap c (c.readSection cfg inodes ans r rd) := by
  have hheld : rd.held = [] := by rw [Reader.held, hpc]
  have hgoing : rd.pc ≠ .returned .ok := by
    simp [hpc]
  unfold DataCache.readSection
  split
  · exact .inr (h.setReader_none hr hgoing hheld rfl)
  split
  · exact .inr (h.setReader_none hr hgoing hheld rfl)
  split
  · exact .inr (h.setReader_none hr hgoing hheld rfl)
  dsimp only
  split
  · exact h.allocate hr hgoing hheld ans _ _
  · rename_i l hentry
    exact h.readLine hr hpc ans hentry

/-- The section that assigns the lines keeps the cache. -/
theorem Kept.assignSection (h : Kept cfg heap c (heldLines c.readers))
    (hamong : Among heap inodes) (hr : c.readers[r]? = some rd) {prefetch got : List ℕ}
    (hpc : rd.pc = .allocated prefetch got) (ans : DiskAnswers) :
    (c.assignSection cfg inodes ans r rd prefetch got).fatal = true ∨
      Goes cfg heap c (c.assignSection cfg inodes ans r rd prefetch got) := by
  obtain ⟨others, hperm, hset⟩ := heldLines_set hr
  have hheld : rd.held = got := by rw [Reader.held, hpc]
  have hgoing : rd.pc ≠ .returned .ok := by
    simp [hpc]
  rw [hheld] at hperm
  have hothers : Kept cfg heap c (got ++ others) := h.held_perm hperm.symm
  have hreleased := hothers.releaseDataCacheLines ans
  unfold DataCache.assignSection
  split
  -- the check refuses, or the file ends here: the lines are given back
  · rename_i errno _
    exact .inr (Frees.setReader { rd with pc := .returned errno } hreleased hr hgoing hset)
  rename_i info hcheck
  split
  · exact .inr (Frees.setReader { rd with pc := .returned .ok } hreleased hr hgoing hset)
  dsimp only
  split
  -- another reader has mapped the line in between
  · exact .inr (Frees.setReader { rd with pc := .loop } hreleased hr hgoing hset)
  rename_i hfresh
  have hinode : (heap rd.readIn.inode).isSome := by
    rw [hamong _ _ (checkRead_ok hamong hcheck).1]
    rfl
  rcases got with - | ⟨l, got⟩
  · exact .inl rfl
  -- the line, then what is prefetched; what is over is given back
  have hassigned := Kept.assignLine hothers (Option.not_isSome_iff_eq_none.mp hfresh) hinode [r]
  dsimp only
  rcases hprefetch : DataCache.assignPrefetch rd.readIn.inode prefetch
    (c.assignLine rd.readIn.inode (rd.curOffset / cfg.cacheLineSize) [r] l) got with ⟨c₁, left⟩
  have hfetched := hassigned.trans (hassigned.kept.assignPrefetch hinode hprefetch)
  have hfrees := hfetched.trans (hfetched.kept.releaseDataCacheLines ans)
  exact .inr (Frees.setReader { rd with pc := .waiting, waits := rd.waits + 1 } hfrees hr hgoing
    hset)

/-- The section that copies out of a line keeps the cache. -/
theorem Kept.copySection (h : Kept cfg heap c (heldLines c.readers)) (hr : c.readers[r]? = some rd)
    {s : CopySource} (hpc : rd.pc = .copying s) : Goes cfg heap c (c.copySection r rd s) := by
  have hheld : rd.held = [] := by rw [Reader.held, hpc]
  have hgoing : rd.pc ≠ .returned .ok := by
    simp [hpc]
  unfold DataCache.copySection
  split
  · exact h.setReader_none hr hgoing hheld rfl
  split
  · exact h.setReader_none hr hgoing hheld rfl
  · exact h.setReader_none hr hgoing hheld rfl

/-- The inodes that a step finds are among those that there have been; the
backend has what belongs to any of these. -/
def CacheStep.Sees (heap inodes : ℕ → Option InodeInfo) : CacheStep → Prop
  | .fetchAnswer _ _ => Among inodes heap
  | _ => Among heap inodes

/-- **One step of the data cache**, with inodes that come and go. -/
theorem Kept.step {a : CacheStep} (h : Kept cfg heap c (heldLines c.readers))
    (hsees : CacheStep.Sees heap inodes a) (hstep : DataCache.step cfg inodes c a = some c') :
    c'.fatal = true ∨ Goes cfg heap c c' := by
  obtain ⟨-, htaken⟩ := taken_of_step hstep
  cases htaken with
  | read ans hr hpc => exact h.readSection hr hpc ans
  | @allocate r rd count prefetch got ans hr hpc hwaits =>
      exact h.allocate hr (by simp [hpc]) (by rw [Reader.held, hpc]) ans count prefetch
  | assign ans hr hpc => exact h.assignSection hsees hr hpc ans
  | @wake r rd hr hpc hwaits =>
      exact .inr (h.setReader_none hr (by simp [hpc]) (by rw [Reader.held, hpc]) rfl)
  | copy hr hpc => exact .inr (h.copySection hr hpc)
  | fetchBegin ans hfetch => exact .inr (h.fetchBegin ans hfetch).goes
  | @fetchAnswer l i n succeeds hfetch =>
      refine .inr (h.fetchAnswer hfetch fun bytes hbytes hthere => ?_).goes
      obtain ⟨info, hinfo⟩ := Option.isSome_iff_exists.mp hthere
      split at hbytes
      · rw [← Option.some.inj hbytes]
        unfold backendLine
        rw [hinfo, hsees _ _ hinfo]
      · cases hbytes
  | fetchEnd ans hfetch => exact .inr (h.fetchEnd ans hfetch)
  | handle inode fh allowReads =>
      exact .inr (.of_unwaiting (h.frame _ _ _) (Releases.of_eq rfl rfl).touches rfl)

/-! ### What the files hold -/

/-- The lines with backing and the files of their inodes. -/
structure Backed (cfg : CacheConfig) (objects : ℕ → List UInt8) (c : DataCache) : Prop where
  counted : ∀ i g, c.inodeDiskCacheFiles i = some g → g.residentLines = (residents cfg c i).card
  placed : ∀ l d, (c.lines l).disk = some d → l < cfg.cacheLines ∧
    (∃ k, c.inodeDiskCacheFiles (c.lines l).inodeNumber = some ⟨d.file, k⟩) ∧
    c.fileOpen d.file = true ∧
    d.offset = (c.lines l).lineNumber * cfg.cacheLineSize ∧
    (cfg.lineOf (objects (c.lines l).inodeNumber) (c.lines l).lineNumber).length =
      (c.lines l).contentLength ∧
    (c.files d.file).Holds d.offset
      (cfg.lineOf (objects (c.lines l).inodeNumber) (c.lines l).lineNumber)
  distinct : ∀ i j g g', c.inodeDiskCacheFiles i = some g → c.inodeDiskCacheFiles j = some g' →
    g.file = g'.file → i = j

/-- A file is closed and removed exactly where the lines of its inode with backing
drop to none. -/
def Closes (cfg : CacheConfig) (c c' : DataCache) : Prop :=
  ∀ i g, c.inodeDiskCacheFiles i = some g →
    if 0 < (residents cfg c i).card ∧ (residents cfg c' i).card = 0 then
      c'.inodeDiskCacheFiles i = none ∧ c'.fileOpen g.file = false
    else
      (∃ k, c'.inodeDiskCacheFiles i = some ⟨g.file, k⟩) ∧ c'.fileOpen g.file = true

/-- A step that touches the files so closes one exactly where its last line leaves it. -/
theorem Touches.closes {heap' : ℕ → Option InodeInfo} (h : Touches c c')
    (hdisk : DiskOk cfg heap c) (hdisk' : DiskOk cfg heap' c') : Closes cfg c c' := by
  intro i g hg
  rw [← hdisk.resident i g hg]
  rcases h i g hg with ⟨k, hk, hzero⟩ | ⟨hnone, hclosed, hpos⟩
  · rw [← hdisk'.resident i _ hk, if_neg]
    · exact ⟨⟨k, hk⟩, (hdisk'.opened i _ hk).1⟩
    · rintro ⟨hpos, hk0⟩
      exact hpos.ne' (hzero hk0)
  · have hempty : (residents cfg c' i).card = 0 := by
      rw [Finset.card_eq_zero, residents, Finset.filter_eq_empty_iff]
      rintro l - ⟨hd, rfl⟩
      obtain ⟨d, hd⟩ := Option.isSome_iff_exists.mp hd
      obtain ⟨-, ⟨k, hk⟩, -, -⟩ := hdisk'.placed l d hd
      rw [hnone] at hk
      cases hk
    rw [if_pos ⟨Nat.pos_of_ne_zero hpos, hempty⟩]
    exact ⟨hnone, hclosed⟩

/-- The inodes that there have been. -/
def inodesUpTo (objects : ℕ → List UInt8) (top : ℕ) (i : ℕ) : Option InodeInfo :=
  if i ≤ top then some ⟨true, objects i⟩ else none

/-- A cache that is kept backs its lines with the objects. -/
theorem Kept.backed {top : ℕ} (h : Kept cfg (inodesUpTo objects top) c held) :
    Backed cfg objects c := by
  have hdisk := h.disk
  obtain ⟨m, -, hok⟩ := h
  refine ⟨hdisk.resident, fun l d hd => ?_, hdisk.owner⟩
  obtain ⟨hl, ⟨k, hk⟩, hoff, hholds⟩ := hdisk.placed l d hd
  obtain ⟨hclean, hfetched, -⟩ := (hok.line l).disk (by rw [lines_withMap, hd]; rfl)
  have hthere := (hok.mapped.listed l (.inr hclean)).2
  have hwanted : (c.lines l).wanted cfg (inodesUpTo objects top) =
      cfg.lineOf (objects (c.lines l).inodeNumber) (c.lines l).lineNumber := by
    rw [lines_withMap] at hthere
    unfold CacheLine.wanted backendLine
    unfold inodesUpTo at hthere ⊢
    split at hthere
    · rename_i hle
      rw [if_pos hle]
    · cases hthere
  have hlen := ((hok.line l).stored hclean hfetched).1
  rw [← hwanted]
  exact ⟨hl, ⟨k, hk⟩, (hdisk.opened _ _ hk).1, hoff, hlen.symm, hholds⟩

/-- More inodes created is no harm. -/
theorem Kept.upTo {top top' : ℕ} (h : Kept cfg (inodesUpTo objects top) c held)
    (hle : top ≤ top') : Kept cfg (inodesUpTo objects top') c held := by
  obtain ⟨m, hm, hok⟩ := h
  refine ⟨m, hm, hok.otherInodes fun l hlist => ?_⟩
  have hthere := (hok.mapped.listed l hlist).2
  unfold inodesUpTo at hthere ⊢
  split at hthere
  · rename_i hknown
    rw [if_pos hknown, if_pos (hknown.trans hle)]
  · cases hthere

end DataCache

end MultiStorageFileSystem
