/-
MultiStorageClient/LockFreeMoments.lean

The moments of a section under the lock.

`Intact` says what a moment has left of the lines as they were when the section
began: a line with its old generation has its old bytes, unless `free` has
punched its hole.  `Follows` is what the generations do from one moment to the
next.  Each function with moments passes through such moments only
(`Passes`), since every change of bytes comes behind a bump, that in `free`
apart; `Section` adds the result, which has advanced.
-/
import MultiStorageClient.CachedFilesMapped
import MultiStorageClient.LockFreeReads

namespace MultiStorageFileSystem

open Slice Run

variable {cfg : CacheConfig} {heap inodes inodes' : ℕ → Option InodeInfo}

namespace DataCache

variable {c c' c₁ c₂ : DataCache} {i l n : ℕ} {held held' got others : List ℕ} {m m' : Moment}
variable {ms ms' : List Moment} {ans : DiskAnswers} {rd : Reader} {s : CopySource}

/-! ### Moments of a section -/

/-- What a moment has left of the lines of `c`. -/
structure Intact (cfg : CacheConfig) (heap : ℕ → Option InodeInfo) (c : DataCache) (m : Moment) :
    Prop where
  generation : ∀ l, (c.lines l).contentGeneration ≤ (m.cache.lines l).contentGeneration
  arena : cfg.onDisk = false → ∀ l,
    (m.cache.lines l).contentGeneration = (c.lines l).contentGeneration →
    (c.lines l).state ≠ .inbound → m.cache.arena l = c.arena l
  disk : cfg.onDisk = true → ∀ l d, (c.lines l).disk = some d →
    (m.cache.lines l).contentGeneration = (c.lines l).contentGeneration → m.freeing ≠ some l →
    m.cache.fileOpen d.file = true ∧ (m.cache.files d.file).Holds d.offset
      (backendLine cfg heap (c.lines l).inodeNumber (c.lines l).lineNumber)

/-- Generations grow, and `free` bumps that of its line before it goes on. -/
def Follows (m m' : Moment) : Prop :=
  ∀ l, (m.cache.lines l).contentGeneration ≤ (m'.cache.lines l).contentGeneration ∧
    (m.freeing = some l → m'.freeing = some l ∨
      (m.cache.lines l).contentGeneration < (m'.cache.lines l).contentGeneration)

/-- The moments of a section that begins at `c`. -/
structure Passes (cfg : CacheConfig) (heap : ℕ → Option InodeInfo) (c : DataCache)
    (ms : List Moment) : Prop where
  intact : ∀ m ∈ ms, Intact cfg heap c m
  chain : List.IsChain Follows (⟨c, none⟩ :: ms)

/-- A line with backing stands for the bytes in its file. -/
theorem CacheOk.backed (h : CacheOk cfg inodes c held) (hamong : Among heap inodes) {d : DiskPlace}
    (hd : (c.lines l).disk = some d) : c.fileOpen d.file = true ∧
      (c.files d.file).Holds d.offset
        (backendLine cfg heap (c.lines l).inodeNumber (c.lines l).lineNumber) := by
  obtain ⟨-, ⟨k, hk⟩, -, hholds⟩ := h.disk.placed l d hd
  have hclean := ((h.line l).disk (by rw [hd]; rfl)).1
  rw [hamong.wanted (h.mapped.listed l (.inr hclean)).2] at hholds
  exact ⟨(h.disk.opened _ _ hk).1, hholds⟩

/-- A cache that has advanced is intact. -/
theorem Intact.of_advance (h : CacheOk cfg inodes c held) (h' : CacheOk cfg inodes' c' held')
    (hamong : Among heap inodes') (hadv : Advance cfg c c') (freeing : Option ℕ) :
    Intact cfg heap c ⟨c', freeing⟩ := by
  refine ⟨fun l => (hadv l).generation, fun hram l hgen hs => ((hadv l).arena hgen hram hs).2,
    fun hon l d hd hgen _ => ?_⟩
  obtain ⟨hclean, hfailed, -⟩ := (h.line l).disk (by rw [hd]; rfl)
  obtain ⟨-, -, hi, hn, hd'⟩ := (hadv l).disk hgen hon hclean hfailed
  rw [← hi, ← hn]
  exact h'.backed hamong (hd'.trans hd)

/-- A moment of a later part of the section. -/
theorem Intact.after (h : CacheOk cfg inodes c held) (hadv : Advance cfg c c₁)
    (hm : Intact cfg heap c₁ m) : Intact cfg heap c m := by
  have hsame : ∀ l, (m.cache.lines l).contentGeneration = (c.lines l).contentGeneration →
      (c₁.lines l).contentGeneration = (c.lines l).contentGeneration := fun l heq =>
    le_antisymm ((hm.generation l).trans heq.le) (hadv l).generation
  refine ⟨fun l => (hadv l).generation.trans (hm.generation l), fun hram l hgen hs => ?_,
    fun hon l d hd hgen hfree => ?_⟩
  · obtain ⟨hs₁, ha₁⟩ := (hadv l).arena (hsame l hgen) hram hs
    exact (hm.arena hram l (hgen.trans (hsame l hgen).symm) hs₁).trans ha₁
  · obtain ⟨hclean, hfailed, -⟩ := (h.line l).disk (by rw [hd]; rfl)
    obtain ⟨-, -, hi, hn, hd'⟩ := (hadv l).disk (hsame l hgen) hon hclean hfailed
    rw [← hi, ← hn]
    exact hm.disk hon l d (hd'.trans hd) (hgen.trans (hsame l hgen).symm) hfree

theorem Follows.of_generation (hgen : ∀ l, (m.cache.lines l).contentGeneration ≤
    (m'.cache.lines l).contentGeneration) (hnone : m.freeing = none) : Follows m m' :=
  fun l => ⟨hgen l, fun h => absurd (hnone.symm.trans h) nofun⟩

namespace Passes

theorem nil (c : DataCache) : Passes cfg heap c [] := ⟨nofun, List.isChain_singleton _⟩

/-- What comes after an operation that has no moments of its own. -/
theorem from_later (h : CacheOk cfg inodes c held) (hadv : Advance cfg c c₁)
    (hms : Passes cfg heap c₁ ms) : Passes cfg heap c ms := by
  refine ⟨fun m hm => (hms.intact m hm).after h hadv, hms.chain.imp_head fun {m} hm l => ?_⟩
  exact ⟨(hadv l).generation.trans (hm l).1, nofun⟩

/-- The result of an operation that has no moments of its own. -/
theorem result (h : CacheOk cfg inodes c held) (h' : CacheOk cfg inodes' c' held')
    (hamong : Among heap inodes') (hadv : Advance cfg c c') :
    Passes cfg heap c [⟨c', none⟩] := by
  refine ⟨fun m hm => ?_, List.isChain_pair.mpr (.of_generation (fun l => (hadv l).generation) rfl)⟩
  rw [List.mem_singleton.mp hm]
  exact .of_advance h h' hamong hadv none

/-- One operation after another. -/
theorem append (h : CacheOk cfg inodes c held) (hadv : Advance cfg c c₁)
    (hms : Passes cfg heap c (ms ++ [⟨c₁, none⟩])) (hms' : Passes cfg heap c₁ ms') :
    Passes cfg heap c (ms ++ ⟨c₁, none⟩ :: ms') := by
  refine ⟨fun m hm => ?_, ?_⟩
  · rcases List.mem_append.mp hm with hm | hm
    · exact hms.intact m (List.mem_append_left _ hm)
    rcases List.mem_cons.mp hm with rfl | hm
    · exact hms.intact _ (List.mem_append_right _ (List.mem_cons_self ..))
    · exact (hms'.intact m hm).after h hadv
  · rw [← List.cons_append]
    exact List.isChain_split.mpr ⟨by simpa using hms.chain, hms'.chain⟩

/-- An operation whose result is seen, and what comes after it. -/
theorem result_cons (h : CacheOk cfg inodes c held) (h₁ : CacheOk cfg inodes c₁ held')
    (hamong : Among heap inodes) (hadv : Advance cfg c c₁) (hms : Passes cfg heap c₁ ms) :
    Passes cfg heap c (⟨c₁, none⟩ :: ms) := by
  show Passes cfg heap c ([] ++ ⟨c₁, none⟩ :: ms)
  exact append h hadv (.result h h₁ hamong hadv) hms

theorem left (h : Passes cfg heap c (ms ++ ms')) : Passes cfg heap c ms := by
  refine ⟨fun m hm => h.intact m (List.mem_append_left _ hm), ?_⟩
  have hchain := h.chain
  rw [← List.cons_append] at hchain
  exact hchain.left_of_append

end Passes

/-! ### Punching -/

/-- The system call changes the files only. -/
theorem punchHoleSyscall_eq (cfg : CacheConfig) (ans : DiskAnswers) (c : DataCache) (l : ℕ) :
    c.punchHoleSyscall cfg ans l =
      { c with files := (c.punchHoleDisk cfg ans l).files } := by
  unfold punchHoleSyscall DataCache.punchHoleDisk
  have hfiles : ∀ (b : DataCache) (i : ℕ), (b.dropResident i).files = b.files := by
    intro b i
    unfold dropResident
    split
    · rfl
    · split <;> rfl
  rcases hd : (c.lines l).disk with - | d
  · rfl
  · dsimp only
    show _ = { c with files := (DataCache.dropResident _ _).files }
    rw [hfiles]
    split <;> rfl

/-- **The hole of one line is punched**, and the file closed with its last
line: the other lines keep their bytes. -/
theorem CacheOk.intact_punch (h : CacheOk cfg inodes c held) (hamong : Among heap inodes)
    (hsame : SameDisk c c₁) (hlines : ∀ l', l' ≠ l → c₁.lines l' = c.lines l')
    (harena : c₁.arena = c.arena) (freeing : Option ℕ)
    (hgen : (c.lines l).contentGeneration ≤ (c₁.lines l).contentGeneration)
    (hpast : freeing = some l ∨ (c.lines l).contentGeneration < (c₁.lines l).contentGeneration)
    (ans : DiskAnswers) :
    Intact cfg heap c ⟨c₁.punchHoleSyscall cfg ans l, freeing⟩ ∧
      Intact cfg heap c ⟨c₁.punchHoleDisk cfg ans l, freeing⟩ := by
  have hok := (h.disk.congr hsame).punchHoleDisk ans l
  obtain ⟨files, fileOpen, idcfs, hpunch⟩ := punchHoleDisk_eq cfg ans c₁ l
  rw [punchHoleSyscall_eq, hpunch]
  rw [hpunch] at hok
  have hgens : ∀ l', (c.lines l').contentGeneration ≤ (c₁.lines l').contentGeneration := by
    intro l'
    by_cases heq : l' = l
    · rw [heq]
      exact hgen
    · rw [hlines l' heq]
  have hgens' : ∀ l', (Function.update c₁.lines l { c₁.lines l with disk := none }
      l').contentGeneration = (c₁.lines l').contentGeneration := by
    intro l'
    by_cases heq : l' = l
    · rw [heq, Function.update_self]
    · rw [Function.update_of_ne heq]
  -- another line is placed as it was
  have hplaced : ∀ l' d, (c.lines l').disk = some d →
      (c₁.lines l').contentGeneration = (c.lines l').contentGeneration → freeing ≠ some l' →
      fileOpen d.file = true ∧ (files d.file).Holds d.offset
        (backendLine cfg heap (c.lines l').inodeNumber (c.lines l').lineNumber) := by
    intro l' d hd hgen' hfree
    have hne : l' ≠ l := by
      rintro rfl
      rcases hpast with hpast | hpast
      · exact hfree hpast
      · exact absurd hgen' hpast.ne'
    have hself : Function.update c₁.lines l { c₁.lines l with disk := none } l' = c.lines l' := by
      rw [Function.update_of_ne hne, hlines l' hne]
    obtain ⟨-, ⟨k, hk⟩, -, hholds⟩ := hok.placed l' d (by
      show (Function.update c₁.lines l _ l').disk = _
      rw [hself, hd])
    change idcfs (Function.update c₁.lines l _ l').inodeNumber = _ at hk
    change (files d.file).Holds d.offset ((Function.update c₁.lines l _ l').wanted cfg inodes)
      at hholds
    have hclean := ((h.line l').disk (by rw [hd]; rfl)).1
    rw [hself, hamong.wanted (h.mapped.listed l' (.inr hclean)).2] at hholds
    exact ⟨(hok.opened _ _ hk).1, hholds⟩
  refine ⟨⟨hgens, fun _ l' _ _ => congrFun harena l', fun hon l' d hd hgen' hfree => ?_⟩,
    ⟨fun l' => ?_, fun _ l' _ _ => congrFun harena l', fun hon l' d hd hgen' hfree => ?_⟩⟩
  · refine ⟨?_, (hplaced l' d hd hgen' hfree).2⟩
    show c₁.fileOpen d.file = true
    rw [hsame.fileOpen]
    exact (h.backed hamong hd).1
  · show _ ≤ (Function.update c₁.lines l _ l').contentGeneration
    rw [hgens']
    exact hgens l'
  · change (Function.update c₁.lines l _ l').contentGeneration = _ at hgen'
    rw [hgens'] at hgen'
    exact hplaced l' d hd hgen' hfree

/-- **A line is bumped**: nothing else has changed. -/
theorem CacheOk.intact_bump (h : CacheOk cfg inodes c held) (hamong : Among heap inodes)
    (hfiles : c₁.files = c.files) (hopen : c₁.fileOpen = c.fileOpen) (harena : c₁.arena = c.arena)
    (hgen : ∀ l, (c.lines l).contentGeneration ≤ (c₁.lines l).contentGeneration) :
    Intact cfg heap c ⟨c₁, none⟩ := by
  refine ⟨hgen, fun _ l _ _ => congrFun harena l, fun _ l d hd _ _ => ?_⟩
  rw [hfiles, hopen]
  exact h.backed hamong hd

/-! ### Lines that change hands -/

theorem freeMoments_of_none (cfg : CacheConfig) (ans : DiskAnswers)
    (hnone : (c.lines l).disk = none) : c.freeMoments cfg ans l = [] := by
  unfold freeMoments
  rw [if_neg]
  rw [hnone]
  exact fun h => absurd h.2 nofun

/-- **The head of the Clean LRU** is bumped before its hole is punched. -/
theorem CacheOk.passes_recycle (h : CacheOk cfg inodes c held) (hamong : Among heap inodes)
    {rest : List ℕ} (hclean : c.cleanLRU = l :: rest)
    (hms : Passes cfg heap
      (({ c with cleanLRU := rest }.setState l .notOnLRU).recycle cfg ans l) ms) :
    Passes cfg heap c
      (({ c with cleanLRU := rest }.setState l .notOnLRU).recycleMoments cfg ans l ++
      ⟨({ c with cleanLRU := rest }.setState l .notOnLRU).recycle cfg ans l, none⟩ :: ms) := by
  obtain ⟨hok, hadv⟩ := h.recycle ans hclean
  have hresult := Passes.result h hok hamong hadv
  refine .append h hadv ?_ hms
  unfold recycleMoments
  split
  · rename_i hon
    generalize hc₀ : ({ c with cleanLRU := rest }.setState l .notOnLRU : DataCache) = c₀ at *
    have hself₀ : c₀.lines l = { c.lines l with state := .notOnLRU } := by
      rw [← hc₀]
      exact Function.update_self _ _ _
    have hother₀ : ∀ l', l' ≠ l → c₀.lines l' = c.lines l' := by
      rw [← hc₀]
      exact fun l' hne => Function.update_of_ne hne _ _
    dsimp only
    generalize hc₁ : (c₀.updLine l fun t =>
      { t with contentGeneration := t.contentGeneration + 1 }) = c₁
    have hself₁ : c₁.lines l = { c.lines l with
        state := .notOnLRU
        contentGeneration := (c.lines l).contentGeneration + 1 } := by
      rw [← hc₁, lines_updLine_self, hself₀]
    have hother₁ : ∀ l', l' ≠ l → c₁.lines l' = c.lines l' := by
      intro l' hne
      rw [← hother₀ l' hne, ← hc₁]
      exact (changes_updLine _ _ _).lines l' hne
    have hsame : SameDisk c c₁ := by
      refine SameDisk.of_line (l := l) hother₁ ?_ (fun _ => ?_) ?_ ?_ ?_ ?_
      · rw [hself₁]
      · rw [hself₁]
        exact ⟨rfl, rfl⟩
      all_goals rw [← hc₁, ← hc₀]; rfl
    have harena : c₁.arena = c.arena := by rw [← hc₁, ← hc₀]; rfl
    have hlt : (c.lines l).contentGeneration < (c₁.lines l).contentGeneration := by
      rw [hself₁]
      exact Nat.lt_succ_self _
    have hgens : ∀ l', (c.lines l').contentGeneration ≤ (c₁.lines l').contentGeneration := by
      intro l'
      by_cases heq : l' = l
      · rw [heq]
        exact hlt.le
      · rw [hother₁ l' heq]
    have hbumped := h.intact_bump hamong hsame.files hsame.fileOpen harena hgens
    obtain ⟨hhole, -⟩ := h.intact_punch hamong hsame hother₁ harena none hlt.le (.inr hlt)
      ans
    -- the map is all that changes after `punchHoleDisk`
    have hlast : ∀ l', (c₁.lines l').contentGeneration ≤
        ((c₀.recycle cfg ans l).lines l').contentGeneration := by
      intro l'
      unfold DataCache.recycle
      rw [if_pos hon, hc₁]
      obtain ⟨files, fileOpen, idcfs, hpunch⟩ := punchHoleDisk_eq cfg ans c₁ l
      rw [hpunch]
      show _ ≤ (Function.update c₁.lines l { c₁.lines l with disk := none } l').contentGeneration
      by_cases heq : l' = l
      · rw [heq, Function.update_self]
      · rw [Function.update_of_ne heq]
    refine ⟨fun m hm => ?_, ?_⟩
    · rcases List.mem_cons.mp hm with rfl | hm
      · exact hbumped
      rcases List.mem_cons.mp hm with rfl | hm
      · exact hhole
      · exact hresult.intact m hm
    · have hlines : (c₁.punchHoleSyscall cfg ans l).lines = c₁.lines := by
        rw [punchHoleSyscall_eq]
      refine List.isChain_cons_cons.mpr ⟨.of_generation hgens rfl,
        List.isChain_cons_cons.mpr ⟨.of_generation (fun l' => ?_) rfl,
          List.isChain_pair.mpr (.of_generation (fun l' => ?_) rfl)⟩⟩
      · rw [hlines]
      · rw [hlines]
        exact hlast l'
  · exact hresult

/-- **The second loop of `allocateDataCacheLines`**. -/
theorem CacheOk.passes_takeClean (hamong : Among heap inodes) {others : List ℕ}
    {ms : List Moment} : ∀ (n : ℕ) {c c' : DataCache} {got got' : List ℕ},
    CacheOk cfg inodes c (got ++ others) → DataCache.takeClean cfg inodes ans n c got = (c', got') →
    Passes cfg heap c' ms → Passes cfg heap c (takeCleanMoments cfg inodes ans n c ++ ms) := by
  intro n
  induction n with
  | zero =>
      intro c c' got got' h heq hms
      obtain ⟨rfl, rfl⟩ := Prod.mk.inj heq
      exact hms
  | succ n ih =>
      intro c c' got got' h heq hms
      rw [DataCache.takeClean] at heq
      rw [DataCache.takeCleanMoments]
      rcases hclean : c.cleanLRU with - | ⟨l, rest⟩
      · rw [hclean] at heq
        obtain ⟨rfl, rfl⟩ := Prod.mk.inj heq
        exact hms
      · rw [hclean] at heq
        dsimp only at heq ⊢
        split
        · rename_i hinode
          rw [if_pos hinode] at heq
          obtain ⟨rfl, rfl⟩ := Prod.mk.inj heq
          refine .from_later h ?_ hms
          exact fun _ => LineAdvance.refl _ _
        · rename_i hinode
          rw [if_neg hinode] at heq
          obtain ⟨h₁, -⟩ := h.recycle ans hclean
          have hperm : (got ++ [l] ++ others).Perm (l :: (got ++ others)) := by
            rw [List.append_assoc]
            exact List.perm_middle
          rw [List.append_assoc, List.cons_append]
          exact h.passes_recycle hamong hclean (ih (h₁.held_perm hperm) heq hms)

/-- **`releaseDataCacheLines`**: lines that are on no LRU have no backing. -/
theorem CacheOk.passes_release (hamong : Among heap inodes) {ms : List Moment} :
    ∀ {got : List ℕ} {c : DataCache}, CacheOk cfg inodes c (got ++ held) →
    Passes cfg heap (c.releaseDataCacheLines cfg ans got) ms →
    Passes cfg heap c (releaseMoments cfg ans got c ++ ms) := by
  intro got
  induction got with
  | nil => exact fun _ hms => hms
  | cons l got ih =>
      intro c h hms
      obtain ⟨h₁, hadv, -⟩ := CacheOk.freeLine h ans
      have hnone := (h.line l).disk_none (.inl (by
        rw [h.state_of_mem (s := .notOnLRU) (List.mem_cons_self ..)]
        nofun))
      rw [releaseMoments, freeMoments_of_none cfg ans hnone, List.nil_append, List.cons_append]
      exact .result_cons h h₁ hamong hadv (ih h₁ hms)

/-- **The loop over the lines to prefetch**. -/
theorem CacheOk.passes_assignPrefetch {inode : ℕ} (hamong : Among heap inodes)
    (hinode : (inodes inode).isSome) {ms : List Moment} :
    ∀ {prefetch : List ℕ} {c c' : DataCache} {got left : List ℕ},
    CacheOk cfg inodes c (got ++ held) → DataCache.assignPrefetch inode prefetch c got =
      (c', left) →
    Passes cfg heap c' ms → Passes cfg heap c
      (assignPrefetchMoments inode prefetch c got ++ ms) := by
  intro prefetch
  induction prefetch with
  | nil =>
      intro c c' got left h heq hms
      obtain ⟨rfl, rfl⟩ := Prod.mk.inj heq
      exact hms
  | cons n prefetch ih =>
      intro c c' got left h heq hms
      cases got with
      | nil =>
          obtain ⟨rfl, rfl⟩ := Prod.mk.inj heq
          exact hms
      | cons l got =>
          rw [DataCache.assignPrefetch] at heq
          rw [DataCache.assignPrefetchMoments]
          split at heq
          · rename_i hsome
            rw [if_pos hsome]
            exact ih h heq hms
          · rename_i hnone
            rw [if_neg hnone]
            obtain ⟨h₁, hadv⟩ := CacheOk.assignLine h (Option.not_isSome_iff_eq_none.mp hnone)
              hinode []
            exact .result_cons h h₁ hamong hadv (ih h₁ heq hms)

/-! ### Sections -/

theorem generation_updLine (c : DataCache) (l : ℕ) {f : CacheLine → CacheLine}
    (hf : ∀ t, (f t).contentGeneration = t.contentGeneration) (l' : ℕ) :
    ((c.updLine l f).lines l').contentGeneration = (c.lines l').contentGeneration := by
  rw [lines_updLine]
  split
  · rename_i heq
    rw [heq, hf]
  · rfl

theorem lines_openInodeFile {idcf : InodeDiskFile} (h : c.openInodeFile ans i = some (c', idcf)) :
    c'.lines = c.lines := by
  unfold openInodeFile at h
  split at h
  · rw [← (Prod.mk.inj (Option.some.inj h)).1]
  · split at h
    · rw [← (Prod.mk.inj (Option.some.inj h)).1]
    · cases h

/-- Storing a line leaves the generations alone. -/
theorem generation_storeContentDisk (cfg : CacheConfig) (ans : DiskAnswers) (c : DataCache)
    (l : ℕ) (buf : List UInt8) (l' : ℕ) :
    ((c.storeContentDisk cfg ans l buf).1.lines l').contentGeneration =
      (c.lines l').contentGeneration := by
  have hcleared := generation_updLine c l (f := fun t => { t with disk := none }) (fun _ => rfl) l'
  unfold storeContentDisk
  dsimp only
  split
  · exact hcleared
  split
  · exact hcleared
  · rename_i idcf hopened
    rw [← hcleared, ← lines_openInodeFile hopened]
    unfold writeLine
    split
    · rfl
    · dsimp only
      refine (generation_updLine _ l ?_ l').trans rfl
      exact fun _ => rfl

/-- The end of a fetch leaves all generations. -/
theorem generation_storeFetched (cfg : CacheConfig) (ans : DiskAnswers) (c : DataCache) (l : ℕ)
    (buf : Option (List UInt8)) (l' : ℕ) :
    ((c.storeFetched cfg ans l buf).lines l').contentGeneration =
      (c.lines l').contentGeneration := by
  unfold storeFetched
  split
  · refine generation_updLine c l ?_ l'
    exact fun _ => rfl
  split
  · rename_i bytes hon
    have hstored := generation_storeContentDisk cfg ans c l bytes l'
    generalize c.storeContentDisk cfg ans l bytes = stored at *
    refine (generation_updLine stored.1 l ?_ l').trans hstored
    exact fun _ => rfl
  · refine generation_updLine c l ?_ l'
    exact fun _ => rfl

/-- What a section does: it passes through its moments to its result, unless
the process ends there. -/
structure Section (cfg : CacheConfig) (heap : ℕ → Option InodeInfo) (c : DataCache)
    (ms : List Moment) (c' : DataCache) : Prop where
  moments : Passes cfg heap c ms
  result : c'.fatal = true ∨ (Advance cfg c c' ∧ Passes cfg heap c (ms ++ [⟨c', none⟩]))

theorem Section.of_fatal (hms : Passes cfg heap c ms) (hfatal : c'.fatal = true) :
    Section cfg heap c ms c' := ⟨hms, .inl hfatal⟩

theorem Section.of_passes (hadv : Advance cfg c c') (hms : Passes cfg heap c (ms ++ [⟨c', none⟩])) :
    Section cfg heap c ms c' := ⟨hms.left, .inr ⟨hadv, hms⟩⟩

/-- A section with nothing to be seen before its result. -/
theorem Section.still (h : CacheOk cfg inodes c held) (h' : CacheOk cfg inodes' c' held')
    (hamong : Among heap inodes') (hadv : Advance cfg c c') : Section cfg heap c [] c' :=
  .of_passes hadv (.result h h' hamong hadv)

/-- Waiters, readers, handles and counts are not seen. -/
theorem advance_of_eq (hlines : c'.lines = c.lines) (harena : c'.arena = c.arena) :
    Advance cfg c c' := by
  intro l
  rw [hlines, harena]
  exact LineAdvance.refl _ _

/-- A reader changes behind the last moment. -/
theorem Section.setReader (h₁ : CacheOk cfg inodes c₁ held')
    (hamong : Among heap inodes) (hadv : Advance cfg c c₁)
    (hms : ∀ {ms' : List Moment}, Passes cfg heap c₁ ms' → Passes cfg heap c (ms ++ ms'))
    (r : ℕ) (rd : Reader) : Section cfg heap c ms (c₁.setReader r rd) := by
  have hsame : Advance cfg c₁ (c₁.setReader r rd) := advance_of_eq rfl rfl
  exact .of_passes (hadv.trans hsame) (hms (.result h₁ (h₁.setReader r rd) hamong hsame))

theorem Section.reader (h : CacheOk cfg inodes c held) (h₁ : CacheOk cfg inodes c₁ held')
    (hamong : Among heap inodes) (hadv : Advance cfg c c₁) (r : ℕ) (rd : Reader) :
    Section cfg heap c [] (c₁.setReader r rd) := by
  refine .setReader h₁ hamong hadv (fun hms => ?_) r rd
  exact .from_later h hadv hms

/-- **A turn of `allocateDataCacheLines`**. -/
theorem CacheOk.section_allocate (h : CacheOk cfg inodes c (got ++ others))
    (hamong : Among heap inodes) (ans : DiskAnswers) (r : ℕ) (rd : Reader) (count : ℕ)
    (prefetch : List ℕ) : Section cfg heap c (c.allocateMoments cfg inodes ans count got)
      (c.allocateDataCacheLines cfg inodes ans r rd count prefetch got) := by
  rcases hfree : DataCache.takeFree (count - got.length) c got with ⟨c₁, got₁⟩
  rcases hclean : DataCache.takeClean cfg inodes ans (count - got₁.length) c₁ got₁ with ⟨c₂, got₂⟩
  obtain ⟨h₁, hadv₁, -⟩ := h.takeFree _ hfree
  obtain ⟨h₂, hadv₂, -⟩ := h₁.takeClean _ hclean
  have hadv := hadv₁.trans hadv₂
  rw [allocateDataCacheLines_eq hfree hclean]
  unfold allocateMoments
  simp only [hfree]
  have hms : ∀ {ms' : List Moment}, Passes cfg heap c₂ ms' →
      Passes cfg heap c (takeCleanMoments cfg inodes ans (count - got₁.length) c₁ ++ ms') :=
    fun hms' => .from_later h hadv₁ (h₁.passes_takeClean hamong _ hclean hms')
  have hmoments : Passes cfg heap c
      (takeCleanMoments cfg inodes ans (count - got₁.length) c₁) := by
    have := hms (Passes.nil c₂)
    rwa [List.append_nil] at this
  split
  -- the Fatalf of an eviction
  · rename_i hfatal
    exact .of_fatal hmoments hfatal
  split
  -- enough lines
  · exact .setReader h₂ hamong hadv hms r _
  · split
    -- no line is inbound: the Fatalf
    · exact .of_fatal hmoments rfl
    -- the reader waits for an inbound line
    · rename_i l rest hin
      have hl : l < cfg.cacheLines := h₂.lt_of_mem (s := .inbound) (by
        show l ∈ c₂.inboundLRU
        rw [hin]
        exact List.mem_cons_self ..)
      have hwait : Advance cfg c₂ (c₂.updLine l fun t => { t with waiters := t.waiters ++ [r] }) :=
        advance_waiters c₂ l _
      exact .setReader (h₂.waiters hl _) hamong (hadv.trans hwait)
        (fun hms' => hms (.from_later h₂ hwait hms')) r _

/-- A line that is found in the map: what is seen of it, if anything, is that a
line without backing is freed. -/
theorem CacheOk.section_readLine (h : CacheOk cfg inodes c held) (hamong : Among heap inodes)
    (ans : DiskAnswers) (r : ℕ) {rd : Reader}
    (hentry : c.cacheMap rd.readIn.inode (rd.curOffset / cfg.cacheLineSize) = some l) :
    Section cfg heap c
      (c.readLineMoments cfg ans rd.readIn.inode (rd.curOffset / cfg.cacheLineSize) l)
      (c.readLine cfg ans r rd (rd.curOffset / cfg.cacheLineSize) l) := by
  obtain ⟨hl, -, -, hstate⟩ := h.cached hentry
  -- no hole is punched: a line whose fetch has failed has no backing
  have hnil : c.readLineMoments cfg ans rd.readIn.inode (rd.curOffset / cfg.cacheLineSize) l =
      [] := by
    unfold readLineMoments
    split
    · rename_i hfailed
      refine freeMoments_of_none cfg ans ?_
      show (Function.update c.lines l { c.lines l with state := .notOnLRU } l).disk = none
      rw [Function.update_self]
      exact (h.line l).disk_none (.inr (.inl hfailed.2.2))
    · rfl
  rw [hnil]
  unfold readLine
  rw [if_neg (Nat.not_le.mpr hl)]
  rcases hstate with hs | ⟨hs, hmem⟩
  -- the line is inbound
  · rw [hs]
    have hwait : Advance cfg c (c.updLine l fun t => { t with waiters := t.waiters ++ [r] }) :=
      advance_waiters c l _
    exact .reader h (h.waiters hl _) hamong hwait r _
  · rw [hs]
    dsimp only
    split
    -- the line's fetch has failed, and it is evicted
    · rename_i hfailed
      obtain ⟨h₁, hadv, -⟩ := h.evict ans hentry hs hfailed
      exact .reader h h₁ hamong hadv r _
    -- the line is touched, and copied from unless the file has ended
    · have htouch : Advance cfg c (c.touchClean l) := advance_of_eq rfl rfl
      split
      · exact .reader h (h.touchClean hmem) hamong htouch r _
      · exact .reader h (h.touchClean hmem) hamong htouch r _

/-- **The first locked section of `DoRead`**. -/
theorem CacheOk.section_read (h : CacheOk cfg inodes c held) (hamong : Among heap inodes)
    (ans : DiskAnswers) (r : ℕ) (rd : Reader) :
    Section cfg heap c (c.readMoments cfg inodes ans rd) (c.readSection cfg inodes ans r rd) := by
  have hstops : ∀ errno, Section cfg heap c [] (c.finish r rd errno) := fun errno =>
    .reader h h hamong (.refl c) r _
  unfold readMoments readSection
  split
  · exact hstops _
  rcases c.checkRead inodes rd.readIn with errno | info
  · exact hstops _
  dsimp only
  split
  · exact hstops _
  rcases hentry : c.cacheMap rd.readIn.inode (rd.curOffset / cfg.cacheLineSize) with - | l
  · have hnone : CacheOk cfg inodes c ([] ++ held) := h
    exact hnone.section_allocate hamong ans r rd _ _
  · exact h.section_readLine hamong ans r hentry

/-- **The second locked section of `DoRead`**. -/
theorem CacheOk.section_assign (h : CacheOk cfg inodes c (got ++ others))
    (hamong : Among heap inodes) (ans : DiskAnswers) (r : ℕ) (rd : Reader) (prefetch : List ℕ) :
    Section cfg heap c (c.assignMoments cfg inodes ans r rd prefetch got)
      (c.assignSection cfg inodes ans r rd prefetch got) := by
  obtain ⟨h₁, hadv₁, -⟩ := h.releaseDataCacheLines ans
  -- where the lines are not needed, the moments are those of their release
  have hreleases : ∀ rd', Section cfg heap c (releaseMoments cfg ans got c)
      ((c.releaseDataCacheLines cfg ans got).setReader r rd') := fun rd' =>
    .setReader h₁ hamong hadv₁ (h.passes_release hamong) r rd'
  unfold assignMoments assignSection
  rcases hcheck : c.checkRead inodes rd.readIn with errno | info
  · exact hreleases _
  obtain ⟨hinfo, -⟩ := checkRead_ok hamong hcheck
  dsimp only
  split
  · exact hreleases _
  split
  · exact hreleases _
  rename_i hmiss
  cases got with
  | nil => exact .of_fatal (.nil c) rfl
  | cons l got =>
      have hinode : (inodes rd.readIn.inode).isSome := by
        rw [hinfo]
        rfl
      obtain ⟨h₂, hadv₂⟩ := CacheOk.assignLine h (Option.not_isSome_iff_eq_none.mp hmiss) hinode [r]
      dsimp only
      rcases hpre : DataCache.assignPrefetch rd.readIn.inode prefetch
        (c.assignLine rd.readIn.inode (rd.curOffset / cfg.cacheLineSize) [r] l) got with ⟨c₃, left⟩
      obtain ⟨h₃, hadv₃, -⟩ := CacheOk.assignPrefetch hinode h₂ hpre
      obtain ⟨h₄, hadv₄, -⟩ := h₃.releaseDataCacheLines ans
      refine .setReader h₄ hamong ((hadv₂.trans hadv₃).trans hadv₄) (fun hms => ?_) r _
      rw [List.cons_append, List.append_assoc]
      exact .result_cons h h₂ hamong hadv₂
        (h₂.passes_assignPrefetch hamong hinode hpre (h₃.passes_release hamong hms))

/-- **The second section of `fetch`** bumps the generation before it writes. -/
theorem CacheOk.section_fetchEnd (h : CacheOk cfg inodes c held) (hamong : Among heap inodes)
    (ans : DiskAnswers) {buf : Option (List UInt8)} (hfetch : (c.lines l).fetch = .answered buf) :
    Section cfg heap c (c.fetchEndMoments cfg inodes ans l buf)
      (c.fetchEnd cfg inodes ans l buf) := by
  obtain ⟨-, -, -, -, hinode⟩ := h.fetching (l := l) (by rw [hfetch]; nofun)
  obtain ⟨info, hinfo⟩ := Option.isSome_iff_exists.mp hinode
  obtain ⟨h', hadv, -⟩ := h.fetchEnd ans hfetch
  have hresult := Intact.of_advance h h' hamong hadv none
  refine .of_passes hadv ?_
  unfold fetchEndMoments
  unfold DataCache.fetchEnd at hresult ⊢
  rw [hinfo] at hresult ⊢
  dsimp only at hresult ⊢
  generalize hb : (({ c with
    inboundCacheLineCount := Function.update c.inboundCacheLineCount (c.lines l).inodeNumber
      (c.inboundCacheLineCount (c.lines l).inodeNumber - 1) }.popInbound l).updLine l fun t =>
        { t with contentGeneration := t.contentGeneration + 1, fetch := .idle }) = b at *
  have hgens : ∀ l', (c.lines l').contentGeneration ≤ (b.lines l').contentGeneration := by
    intro l'
    rw [← hb, lines_updLine]
    split
    · rename_i heq
      rw [heq]
      show _ ≤ (Function.update c.lines l _ l).contentGeneration + 1
      rw [Function.update_self]
      exact Nat.le_succ _
    · rename_i hne
      exact (congrArg CacheLine.contentGeneration (Function.update_of_ne hne _ c.lines)).ge
  have hstored : ∀ l', ((b.storeFetched cfg ans l buf).lines l').contentGeneration =
      (b.lines l').contentGeneration := generation_storeFetched cfg ans b l buf
  generalize b.storeFetched cfg ans l buf = st at *
  -- the line goes on the Clean LRU, which is not seen
  have hlast : ∀ l', (((st.pushClean l).notifyWaiters l).lines l').contentGeneration =
      (st.lines l').contentGeneration := by
    intro l'
    have hclean := generation_updLine st l (f := fun t => { t with state := .clean })
      (fun _ => rfl) l'
    rw [← hclean]
    exact generation_updLine (st.pushClean l) l (f := fun t => { t with waiters := [] })
      (fun _ => rfl) l'
  refine ⟨fun m hm => ?_, ?_⟩
  · rcases List.mem_cons.mp hm with rfl | hm
    · refine h.intact_bump hamong ?_ ?_ ?_ hgens
      all_goals rw [← hb]; rfl
    rcases List.mem_cons.mp hm with rfl | hm
    · refine ⟨fun l' => (hresult.generation l').trans (hlast l').le, fun hram l' hgen hs => ?_,
        fun hon l' d hd hgen _ => ?_⟩
      · exact hresult.arena hram l' ((hlast l').trans hgen) hs
      · exact hresult.disk hon l' d hd ((hlast l').trans hgen) nofun
    · rw [List.mem_singleton.mp hm]
      exact hresult
  · exact List.isChain_cons_cons.mpr ⟨.of_generation hgens rfl,
      List.isChain_cons_cons.mpr ⟨.of_generation (fun l' => (hstored l').ge) rfl,
        List.isChain_pair.mpr (.of_generation (fun l' => (hlast l').ge) rfl)⟩⟩

/-- **A step of the data cache**. -/
theorem ReadsOk.section_step {reads : List ReadIn} {a : CacheStep}
    (h : ReadsOk cfg heap inodes reads c) (hstep : DataCache.step cfg inodes c a = some c') :
    Section cfg heap c (stepMoments cfg inodes c a) c' := by
  obtain ⟨hfatal, htaken⟩ := taken_of_step hstep
  have hcache := h.cache hfatal
  have hheld : ∀ {r : ℕ} {rd : Reader}, c.readers[r]? = some rd →
      ∃ others, CacheOk cfg inodes c (rd.held ++ others) := by
    intro r rd hr
    obtain ⟨others, hperm, -⟩ := heldLines_set hr
    exact ⟨others, hcache.held_perm hperm.symm⟩
  cases htaken with
  | @read r rd ans hr hpc =>
      unfold stepMoments
      dsimp only
      rw [hr]
      exact hcache.section_read h.among ans r rd
  | @allocate r rd count prefetch got ans hr hpc hwaits =>
      obtain ⟨others, hok⟩ := hheld hr
      rw [Reader.held, hpc] at hok
      unfold stepMoments
      dsimp only
      rw [hr, Option.map_some, hpc]
      exact hok.section_allocate h.among ans r rd count prefetch
  | @assign r rd prefetch got ans hr hpc =>
      obtain ⟨others, hok⟩ := hheld hr
      rw [Reader.held, hpc] at hok
      unfold stepMoments
      dsimp only
      rw [hr]
      dsimp only
      rw [hpc]
      exact hok.section_assign h.among ans r rd prefetch
  | wake hr hpc hwaits => exact .reader hcache hcache h.among (.refl c) _ _
  | @copy r rd s hr hpc =>
      show Section cfg heap c [] (c.copySection r rd s)
      unfold DataCache.copySection
      split
      · exact .reader hcache hcache h.among (.refl c) _ _
      split
      · exact .reader hcache hcache h.among (.refl c) _ _
      · exact .reader hcache hcache h.among (.refl c) _ _
  | @fetchBegin l ans hfetch =>
      obtain ⟨hok, hadv, -⟩ := hcache.fetchBegin ans hfetch
      obtain ⟨-, -, -, -, hinode⟩ := hcache.fetching (l := l) (by simp [hfetch])
      obtain ⟨info, hinfo⟩ := Option.isSome_iff_exists.mp hinode
      unfold stepMoments fetchBeginMoments
      dsimp only
      rw [hinfo]
      exact .still hcache hok h.among hadv
  | fetchAnswer succeeds hfetch =>
      obtain ⟨hok, hadv, -⟩ := hcache.fetchAnswer_backend succeeds hfetch
      exact .still hcache hok h.among hadv
  | fetchEnd ans hfetch =>
      unfold stepMoments
      dsimp only
      rw [hfetch]
      exact hcache.section_fetchEnd h.among ans hfetch
  | handle inode fh allowReads =>
      exact .still hcache (hcache.frame _ _ _) h.among (advance_of_eq rfl rfl)

/-- **A clean line is dropped**: its hole is punched before it is bumped. -/
theorem CacheOk.passes_dropClean (h : CacheOk cfg inodes c held) (hamong : Among heap inodes)
    (hentry : c.cacheMap i n = some l) (hclean : (c.lines l).state = .clean)
    (hms : Passes cfg heap (c.dropClean cfg ans i n l) ms) :
    Passes cfg heap c (((c.setCacheMap i n none).popClean l).freeMoments cfg ans l ++
      ⟨c.dropClean cfg ans i n l, none⟩ :: ms) := by
  obtain ⟨hok, hadv⟩ := h.dropClean ans hentry hclean
  have hresult := Passes.result h hok hamong hadv
  refine .append h hadv ?_ hms
  unfold freeMoments
  split
  -- on the disk: the hole is punched, then the file may be closed, then the line is free
  · generalize hc₁ : (c.setCacheMap i n none).popClean l = c₁
    have hself₁ : c₁.lines l = { c.lines l with state := .notOnLRU } := by
      rw [← hc₁]
      exact Function.update_self _ _ _
    have hother₁ : ∀ l', l' ≠ l → c₁.lines l' = c.lines l' := by
      rw [← hc₁]
      exact fun l' hne => Function.update_of_ne hne _ _
    have hsame : SameDisk c c₁ := by
      refine SameDisk.of_line (l := l) hother₁ ?_ (fun _ => ?_) ?_ ?_ ?_ ?_
      · rw [hself₁]
      · rw [hself₁]
        exact ⟨rfl, rfl⟩
      all_goals rw [← hc₁]; rfl
    have hgen : (c₁.lines l).contentGeneration = (c.lines l).contentGeneration := by rw [hself₁]
    obtain ⟨hhole, hclosed⟩ := h.intact_punch hamong hsame hother₁
      (by rw [← hc₁]; rfl) (some l) hgen.ge (.inl rfl) ans
    have hsyscall : (c₁.punchHoleSyscall cfg ans l).lines = c₁.lines := by
      rw [punchHoleSyscall_eq]
    have hpunched : ∀ l', ((c₁.punchHoleDisk cfg ans l).lines l').contentGeneration =
        (c.lines l').contentGeneration := by
      intro l'
      obtain ⟨files, fileOpen, idcfs, hpunch⟩ := punchHoleDisk_eq cfg ans c₁ l
      rw [hpunch]
      show (Function.update c₁.lines l _ l').contentGeneration = _
      by_cases heq : l' = l
      · rw [heq, Function.update_self, ← hgen]
      · rw [Function.update_of_ne heq, hother₁ l' heq]
    -- the generation is bumped at the end only, which is what a reader goes by
    have hbump : (c.lines l).contentGeneration <
        ((c.dropClean cfg ans i n l).lines l).contentGeneration := by
      obtain ⟨disk, files, fileOpen, idcfs, hfree⟩ := freeLine_spec cfg ans c₁ l
      unfold DataCache.dropClean
      rw [hc₁, hfree]
      show _ < (Function.update c₁.lines l _ l).contentGeneration
      rw [Function.update_self, hself₁]
      exact Nat.lt_succ_self _
    refine ⟨fun m hm => ?_, ?_⟩
    · rcases List.mem_cons.mp hm with rfl | hm
      · exact hhole
      rcases List.mem_cons.mp hm with rfl | hm
      · exact hclosed
      · exact hresult.intact m hm
    · refine List.isChain_cons_cons.mpr ⟨.of_generation hhole.generation rfl,
        List.isChain_cons_cons.mpr ⟨fun l' => ⟨?_, fun hfreeing => .inl hfreeing⟩,
          List.isChain_pair.mpr fun l' => ⟨?_, fun hfreeing => .inr ?_⟩⟩⟩
      · rw [hpunched, hsyscall]
        by_cases heq : l' = l
        · rw [heq, hgen]
        · rw [hother₁ l' heq]
      · rw [hpunched]
        exact (hadv l').generation
      · obtain rfl := Option.some.inj hfreeing
        rw [hpunched]
        exact hbump
  -- in memory there is no moment in between
  · exact hresult

/-- **The loop over the map of a file**. -/
theorem CacheOk.passes_dropLines (hamong : Among heap inodes) (i : ℕ) (onlyClean : Bool) :
    ∀ {order : List ℕ} {c : DataCache}, CacheOk cfg inodes c held →
    Passes cfg heap c (dropLinesMoments cfg ans i onlyClean order c) ∧
      ((DataCache.dropLines cfg ans i onlyClean order c).fatal = false → ∀ ms,
        Passes cfg heap (DataCache.dropLines cfg ans i onlyClean order c) ms →
        Passes cfg heap c (dropLinesMoments cfg ans i onlyClean order c ++ ms)) := by
  intro order
  induction order with
  | nil => exact fun _ => ⟨.nil _, fun _ _ hms => hms⟩
  | cons n order ih =>
      intro c h
      rw [DataCache.dropLines, dropLinesMoments]
      rcases hentry : c.cacheMap i n with - | l
      · exact ih h
      dsimp only
      by_cases hl : cfg.cacheLines ≤ l
      · simp only [if_pos hl]
        exact ⟨.nil c, fun halive => by cases halive⟩
      by_cases hclean : (c.lines l).state = .clean
      · simp only [if_neg hl, if_pos hclean]
        obtain ⟨h₁, -⟩ := h.dropClean ans hentry hclean
        obtain ⟨hmoments, hlater⟩ := ih h₁
        refine ⟨h.passes_dropClean hamong hentry hclean hmoments, fun halive ms hms => ?_⟩
        rw [List.append_assoc, List.cons_append]
        exact h.passes_dropClean hamong hentry hclean (hlater halive ms hms)
      · simp only [if_neg hl, if_neg hclean]
        cases onlyClean with
        | true => exact ⟨.nil c, fun halive => by cases halive⟩
        | false => exact ih h

/-- **What a copy reads** at a moment with the generation of its snapshot. -/
theorem Snap.copied (h : Snap cfg heap c rd s) (hm : Intact cfg heap c m)
    (hgen : (m.cache.lines s.line).contentGeneration = s.generation)
    (hfree : m.freeing ≠ some s.line) :
    m.cache.copyBytes s = some (slice s.start s.length
      (backendLine cfg heap rd.readIn.inode (rd.curOffset / cfg.cacheLineSize))) := by
  have hgen₀ : (c.lines s.line).contentGeneration = s.generation :=
    le_antisymm ((hm.generation s.line).trans hgen.le) h.generation
  have hsame := hgen.trans hgen₀.symm
  rcases hon : cfg.onDisk with - | -
  · obtain ⟨hnone, hbytes⟩ := h.ram hon
    obtain ⟨hstate, harena⟩ := hbytes hgen₀
    rw [← hm.arena hon s.line hsame hstate] at harena
    exact copyBytes_of_arena hnone harena h.block
  · obtain ⟨-, -, hi, hn, d, hd, hs⟩ := h.disk hon hgen₀
    obtain ⟨hopen, hholds⟩ := hm.disk hon s.line d hd hsame hfree
    rw [hi, hn] at hholds
    exact copyBytes_of_holds hs hopen hholds h.block

end DataCache

namespace CachedFiles

open DataCache

variable {objects : ℕ → List UInt8} {f f' : CachedFiles}

/-- A section begins with what is not seen. -/
theorem section_from {c c₁ c' : DataCache} {ms : List Moment} {held : List ℕ}
    (h : CacheOk cfg inodes c held) (hadv : Advance cfg c c₁) (hs : Section cfg heap c₁ ms c') :
    Section cfg heap c ms c' :=
  ⟨.from_later h hadv hs.moments,
    hs.result.imp_right fun ⟨hadv', hms⟩ => ⟨hadv.trans hadv', .from_later h hadv hms⟩⟩

/-- **A section of the data cache**. -/
theorem FilesOk.section_cacheStep {a : CacheStep} (h : FilesOk cfg objects f)
    (hfatal : f.cache.fatal = false) (hstep : f.cacheStep cfg objects a = some f') :
    Section cfg (objectInodes objects) f.cache (f.moments cfg objects (.cache a)) f'.cache := by
  obtain ⟨c, hc, hstep⟩ := Option.bind_eq_some_iff.mp hstep
  obtain ⟨checked, hchecked, hstep⟩ := Option.bind_eq_some_iff.mp hstep
  unfold moments
  dsimp only
  rw [hchecked, Option.any_some]
  split at hstep
  · rename_i hf
    rw [if_pos hf, ← Option.some.inj hstep]
    exact .of_fatal (.nil _) hf
  rename_i hf
  rw [if_neg hf, ← Option.some.inj hstep]
  have hopened : Advance cfg f.cache { f.cache with handles := f.handles } := advance_of_eq rfl rfl
  have hreads : ReadsOk cfg (objectInodes objects) (f.inodes objects)
      (f.cache.readers.map Reader.readIn) { f.cache with handles := f.handles } :=
    h.reads.of_fetch hfatal rfl hopened ((h.reads.cache hfatal).frame _ _ _)
  rw [step_view (hreads.cache hfatal)] at hc
  have hview : stepMoments cfg (f.view objects a) { f.cache with handles := f.handles } a =
      stepMoments cfg (f.inodes objects) { f.cache with handles := f.handles } a := by
    cases a <;> rfl
  rw [hview]
  exact section_from (h.reads.cache hfatal) hopened (hreads.section_step hc)

/-- The other operations end the process, or leave lines and bytes alone. -/
def Unseen (f f' : CachedFiles) : Prop :=
  f'.cache.fatal = true ∨ (f'.cache.lines = f.cache.lines ∧ f'.cache.arena = f.cache.arena)

/-- `DoOpen` changes nothing that a reader without the lock sees. -/
theorem unseen_doOpen (f : CachedFiles) (i : ℕ) (exclusive : Bool) (mode : AccessMode) :
    Unseen f (f.doOpen i exclusive mode) := by
  unfold doOpen
  split
  · exact .inr ⟨rfl, rfl⟩
  split
  · exact .inl rfl
  split
  · exact .inr ⟨rfl, rfl⟩
  dsimp only
  split
  · split
    · exact .inl rfl
    split
    · exact .inr ⟨rfl, rfl⟩
    split
    all_goals exact .inr ⟨rfl, rfl⟩
  · split
    all_goals exact .inr ⟨rfl, rfl⟩

/-- `DoRelease` changes nothing that a reader without the lock sees. -/
theorem unseen_doRelease (f : CachedFiles) (i fh : ℕ) : Unseen f (f.doRelease i fh) := by
  unfold doRelease
  split
  · exact .inr ⟨rfl, rfl⟩
  split
  · exact .inl rfl
  split
  · exact .inr ⟨rfl, rfl⟩
  split
  · exact .inl rfl
  dsimp only
  split
  all_goals exact .inr ⟨rfl, rfl⟩

/-- `DoUnlink` changes nothing that a reader without the lock sees. -/
theorem unseen_doUnlink (f : CachedFiles) (i : ℕ) : Unseen f (f.doUnlink i) := by
  unfold doUnlink
  split
  · exact .inr ⟨rfl, rfl⟩
  split
  · exact .inl rfl
  split
  · exact .inr ⟨rfl, rfl⟩
  dsimp only
  split
  · exact .inr ⟨rfl, rfl⟩
  split
  all_goals exact .inr ⟨rfl, rfl⟩

theorem FilesOk.section_unseen (h : FilesOk cfg objects f) (hfatal : f.cache.fatal = false)
    (h' : f'.cache.fatal = true ∨ FilesOk cfg objects f') (hunseen : Unseen f f') :
    Section cfg (objectInodes objects) f.cache [] f'.cache := by
  by_cases hdead : f'.cache.fatal = true
  · exact .of_fatal (.nil _) hdead
  obtain ⟨hlines, harena⟩ := hunseen.resolve_left hdead
  have hcache' := (h'.resolve_left hdead).reads.cache (Bool.eq_false_iff.mpr hdead)
  exact .still (h.reads.cache hfatal) hcache' (among_inodes objects f')
    (advance_of_eq hlines harena)

/-- **A section that drops lines** of a file, and changes what is not seen. -/
theorem FilesOk.section_dropLines {ans : DiskAnswers} {onlyClean : Bool} {order : List ℕ} {i : ℕ}
    (h : FilesOk cfg objects f) (hfatal : f.cache.fatal = false)
    (halive : (DataCache.dropLines cfg ans i onlyClean order f.cache).fatal = false)
    (h' : f'.cache.fatal = true ∨ FilesOk cfg objects f')
    (hadv : f'.cache.fatal = true ∨
      Advance cfg (DataCache.dropLines cfg ans i onlyClean order f.cache) f'.cache) :
    Section cfg (objectInodes objects) f.cache
      (dropLinesMoments cfg ans i onlyClean order f.cache) f'.cache := by
  have hcache := h.reads.cache hfatal
  have hamong := among_inodes objects f
  by_cases hdead : f'.cache.fatal = true
  · exact .of_fatal (hcache.passes_dropLines hamong i onlyClean).1 hdead
  have hadv := hadv.resolve_left hdead
  have hcache' := (h'.resolve_left hdead).reads.cache (Bool.eq_false_iff.mpr hdead)
  have hdead₁ : (DataCache.dropLines cfg ans i onlyClean order f.cache).fatal ≠ true := by
    rw [halive]
    nofun
  obtain ⟨hdropped, hadv₁⟩ := (hcache.dropLines ans i onlyClean).resolve_left hdead₁
  exact .of_passes (hadv₁.trans hadv) ((hcache.passes_dropLines hamong i onlyClean).2 halive _
    (.result hdropped hcache' (among_inodes objects f') hadv))

/-- The moments of a deletion that ends. -/
theorem FilesOk.section_finishPendingDelete {d : ℕ} {del : PendingDelete} {order : List ℕ}
    (h : FilesOk cfg objects f) (hfatal : f.cache.fatal = false) (ans : DiskAnswers)
    (h' : (f.finishPendingDelete cfg d del order ans).cache.fatal = true ∨
      FilesOk cfg objects (f.finishPendingDelete cfg d del order ans)) :
    Section cfg (objectInodes objects) f.cache
      (dropLinesMoments cfg ans del.inode false order f.cache)
      (f.finishPendingDelete cfg d del order ans).cache := by
  by_cases halive : (DataCache.dropLines cfg ans del.inode false order f.cache).fatal = false
  · refine h.section_dropLines hfatal halive h' ?_
    unfold CachedFiles.finishPendingDelete dropCleanLines
    dsimp only
    rw [if_neg (by rw [halive]; nofun)]
    split
    · unfold removeDeleted
      split
      · exact .inl rfl
      split
      · exact .inl rfl
      · exact .inr (.refl _)
    · split
      · exact .inl rfl
      · exact .inr (advance_waiters _ _ _)
  · rw [Bool.not_eq_false] at halive
    refine .of_fatal ((h.reads.cache hfatal).passes_dropLines (among_inodes objects f)
      del.inode false).1 ?_
    unfold CachedFiles.finishPendingDelete dropCleanLines
    dsimp only
    rw [if_pos halive]
    exact halive

/-- The moments of an eviction. -/
theorem FilesOk.section_evict {i : ℕ} {order : List ℕ} (h : FilesOk cfg objects f)
    (hfatal : f.cache.fatal = false) (ans : DiskAnswers)
    (h' : (f.evict cfg i order ans).cache.fatal = true ∨
      FilesOk cfg objects (f.evict cfg i order ans)) :
    Section cfg (objectInodes objects) f.cache (f.moments cfg objects (.evict i order ans))
      (f.evict cfg i order ans).cache := by
  unfold moments
  dsimp only
  by_cases hi : f.inodeMap i = true
  · rw [if_pos hi]
    unfold CachedFiles.evict clearFileCacheLinesLocked at h' ⊢
    rw [if_neg (by rw [hi]; nofun)] at h' ⊢
    dsimp only at h' ⊢
    by_cases halive : (DataCache.dropLines cfg ans i true order f.cache).fatal = true
    · rw [if_pos halive]
      exact .of_fatal ((h.reads.cache hfatal).passes_dropLines (among_inodes objects f)
        i true).1 halive
    · rw [if_neg halive] at h' ⊢
      exact h.section_dropLines hfatal (Bool.eq_false_iff.mpr halive) h' (.inr (.refl _))
  · rw [if_neg hi]
    unfold CachedFiles.evict
    rw [if_pos (by simpa using hi)]
    exact .of_fatal (.nil _) rfl

/-- **Every section** passes through moments that are intact. -/
theorem FilesOk.section_step {a : FileStep} (h : FilesOk cfg objects f)
    (hstep : CachedFiles.step cfg objects f a = some f')
    (h' : f'.cache.fatal = true ∨ FilesOk cfg objects f') :
    Section cfg (objectInodes objects) f.cache (f.moments cfg objects a) f'.cache := by
  unfold CachedFiles.step at hstep
  split at hstep
  · cases hstep
  rename_i hdead
  have hfatal := Bool.eq_false_iff.mpr hdead
  cases a with
  | cache s => exact h.section_cacheStep hfatal hstep
  | mount readOnly =>
      obtain rfl := Option.some.inj hstep
      exact h.section_unseen hfatal h' (.inr ⟨rfl, rfl⟩)
  | unmount nonce =>
      dsimp only [stepAlive] at hstep
      split at hstep
      · obtain rfl := Option.some.inj hstep
        exact h.section_unseen hfatal h' (.inr ⟨rfl, rfl⟩)
      · cases hstep
  | createFileObjectInode nonce =>
      obtain rfl := Option.some.inj hstep
      refine h.section_unseen hfatal h' ?_
      unfold CachedFiles.createFileObjectInode
      split
      · exact .inl rfl
      · exact .inr ⟨rfl, rfl⟩
  | touch i =>
      dsimp only [stepAlive] at hstep
      split at hstep
      · obtain rfl := Option.some.inj hstep
        exact h.section_unseen hfatal h' (.inr ⟨rfl, rfl⟩)
      · cases hstep
  | doOpen i exclusive mode =>
      obtain rfl := Option.some.inj hstep
      exact h.section_unseen hfatal h' (unseen_doOpen f i exclusive mode)
  | doRelease i fh =>
      obtain rfl := Option.some.inj hstep
      exact h.section_unseen hfatal h' (unseen_doRelease f i fh)
  | doUnlink i =>
      obtain rfl := Option.some.inj hstep
      exact h.section_unseen hfatal h' (unseen_doUnlink f i)
  | finishPendingDelete d order ans =>
      obtain ⟨del, hdel, hstep⟩ := Option.bind_eq_some_iff.mp hstep
      obtain ⟨wg, hwg, hstep⟩ := Option.bind_eq_some_iff.mp hstep
      split at hstep
      · obtain rfl := Option.some.inj hstep
        unfold moments
        dsimp only
        rw [hdel]
        exact h.section_finishPendingDelete hfatal ans h'
      · cases hstep
  | evict i order ans =>
      dsimp only [stepAlive] at hstep
      split at hstep
      · obtain rfl := Option.some.inj hstep
        exact h.section_evict hfatal ans h'
      · cases hstep

end CachedFiles

end MultiStorageFileSystem
