/-
MultiStorageClient/DataCacheDisk.lean

The backing files of the data cache in the mode `per-inode-file`.

`DiskOk` is about the files alone: every line with disk backing has the bytes
of its line of the object in the open file of its inode, and the file counts
its lines.  It does not mention the LRUs, so only the two operations that
write to the disk need an argument; the others change no line with backing.
-/
import MultiStorageClient.DataCache

namespace MultiStorageFileSystem

open Slice SparseFile

variable {cfg : CacheConfig} {inodes : ℕ → Option InodeInfo}

namespace CacheLine

/-- The bytes that a line stands for. -/
def wanted (cfg : CacheConfig) (inodes : ℕ → Option InodeInfo) (t : CacheLine) : List UInt8 :=
  DataCache.backendLine cfg inodes t.inodeNumber t.lineNumber

theorem length_wanted_le (t : CacheLine) : (t.wanted cfg inodes).length ≤ cfg.cacheLineSize := by
  unfold wanted DataCache.backendLine
  split
  · exact Nat.zero_le _
  · rw [CacheConfig.lineOf, length_slice]
    exact Nat.min_le_left _ _

end CacheLine

namespace DataCache

variable {c : DataCache} {l l' : ℕ}

theorem lines_updLine (c : DataCache) (l l' : ℕ) (f : CacheLine → CacheLine) :
    (c.updLine l f).lines l' = if l' = l then f (c.lines l) else c.lines l' := by
  show Function.update c.lines l (f (c.lines l)) l' = _
  rw [Function.update_apply]

/-- The lines of an inode with disk backing. -/
def residents (cfg : CacheConfig) (c : DataCache) (inode : ℕ) : Finset ℕ :=
  (Finset.range cfg.cacheLines).filter fun l =>
    (c.lines l).disk.isSome ∧ (c.lines l).inodeNumber = inode

/-- A line whose bytes stand in the file of its inode. -/
structure Placed (cfg : CacheConfig) (inodes : ℕ → Option InodeInfo) (c : DataCache)
    (t : CacheLine) (d : DiskPlace) : Prop where
  file : ∃ n, c.inodeDiskCacheFiles t.inodeNumber = some ⟨d.file, n⟩
  offset : d.offset = t.lineNumber * cfg.cacheLineSize
  holds : (c.files d.file).Holds d.offset (t.wanted cfg inodes)

/-- Lines on disk have places of their own in open files. -/
structure DiskOk (cfg : CacheConfig) (inodes : ℕ → Option InodeInfo) (c : DataCache) : Prop where
  placed : ∀ l d, (c.lines l).disk = some d → l < cfg.cacheLines ∧ Placed cfg inodes c (c.lines l) d
  distinct : ∀ l l', (c.lines l).disk.isSome → (c.lines l').disk.isSome →
    (c.lines l).inodeNumber = (c.lines l').inodeNumber →
    (c.lines l).lineNumber = (c.lines l').lineNumber → l = l'
  opened : ∀ i idcf, c.inodeDiskCacheFiles i = some idcf →
    c.fileOpen idcf.file = true ∧ idcf.file < c.nextFile
  owner : ∀ i j f g, c.inodeDiskCacheFiles i = some f → c.inodeDiskCacheFiles j = some g →
    f.file = g.file → i = j
  resident : ∀ i idcf, c.inodeDiskCacheFiles i = some idcf →
    idcf.residentLines = (residents cfg c i).card

/-- What `DiskOk` is about. -/
structure SameDisk (c c' : DataCache) : Prop where
  files : c'.files = c.files
  fileOpen : c'.fileOpen = c.fileOpen
  inodeDiskCacheFiles : c'.inodeDiskCacheFiles = c.inodeDiskCacheFiles
  nextFile : c'.nextFile = c.nextFile
  lines : ∀ l, (c'.lines l).disk = (c.lines l).disk ∧
    ((c.lines l).disk.isSome → (c'.lines l).inodeNumber = (c.lines l).inodeNumber ∧
      (c'.lines l).lineNumber = (c.lines l).lineNumber)

/-- With the same disk the same lines reside in a file. -/
theorem SameDisk.residents {c c' : DataCache} (h : SameDisk c c') (i : ℕ) :
    residents cfg c' i = residents cfg c i := by
  apply Finset.filter_congr
  intro l _
  rw [(h.lines l).1]
  constructor
  · rintro ⟨hd, hi⟩
    exact ⟨hd, ((h.lines l).2 hd).1 ▸ hi⟩
  · rintro ⟨hd, hi⟩
    exact ⟨hd, ((h.lines l).2 hd).1.trans hi⟩

/-- Steps that leave the disk and the lines with backing alone. -/
theorem DiskOk.congr {c c' : DataCache} (hc : DiskOk cfg inodes c) (h : SameDisk c c') :
    DiskOk cfg inodes c' := by
  refine ⟨fun l d hd => ?_, fun l l' hd hd' hi hn => ?_, fun i idcf hi => ?_, fun i j f g hf
    hg => ?_, fun i idcf hi => ?_⟩
  · rw [(h.lines l).1] at hd
    obtain ⟨hl, hfile, hoff, hholds⟩ := hc.placed l d hd
    obtain ⟨hino, hnum⟩ := (h.lines l).2 (by rw [hd]; rfl)
    have hwanted : (c'.lines l).wanted cfg inodes = (c.lines l).wanted cfg inodes := by
      rw [CacheLine.wanted, CacheLine.wanted, hino, hnum]
    refine ⟨hl, ?_, ?_, ?_⟩
    · rw [h.inodeDiskCacheFiles, hino]
      exact hfile
    · rw [hnum]
      exact hoff
    · rw [h.files, hwanted]
      exact hholds
  · rw [(h.lines l).1] at hd
    rw [(h.lines l').1] at hd'
    obtain ⟨hino, hnum⟩ := (h.lines l).2 hd
    obtain ⟨hino', hnum'⟩ := (h.lines l').2 hd'
    exact hc.distinct l l' hd hd' (hino ▸ hino' ▸ hi) (hnum ▸ hnum' ▸ hn)
  · rw [h.inodeDiskCacheFiles] at hi
    rw [h.fileOpen, h.nextFile]
    exact hc.opened i idcf hi
  · rw [h.inodeDiskCacheFiles] at hf hg
    exact hc.owner i j f g hf hg
  · rw [h.inodeDiskCacheFiles] at hi
    rw [h.residents]
    exact hc.resident i idcf hi

/-- A change of one line that keeps what the disk depends on. -/
theorem SameDisk.of_line {c c' : DataCache} (hlines : ∀ l', l' ≠ l → c'.lines l' = c.lines l')
    (hdisk : (c'.lines l).disk = (c.lines l).disk)
    (hkey : (c.lines l).disk.isSome → (c'.lines l).inodeNumber = (c.lines l).inodeNumber ∧
      (c'.lines l).lineNumber = (c.lines l).lineNumber)
    (hfiles : c'.files = c.files) (hopen : c'.fileOpen = c.fileOpen)
    (hidcfs : c'.inodeDiskCacheFiles = c.inodeDiskCacheFiles) (hnext : c'.nextFile = c.nextFile) :
    SameDisk c c' := by
  refine ⟨hfiles, hopen, hidcfs, hnext, fun l' => ?_⟩
  by_cases heq : l' = l
  · rw [heq]
    exact ⟨hdisk, hkey⟩
  · rw [hlines l' heq]
    exact ⟨rfl, fun _ => ⟨rfl, rfl⟩⟩

theorem SameDisk.trans {c₁ c₂ c₃ : DataCache} (h : SameDisk c₁ c₂) (h' : SameDisk c₂ c₃) :
    SameDisk c₁ c₃ := by
  refine ⟨h'.files.trans h.files, h'.fileOpen.trans h.fileOpen,
    h'.inodeDiskCacheFiles.trans h.inodeDiskCacheFiles, h'.nextFile.trans h.nextFile, fun l => ?_⟩
  refine ⟨(h'.lines l).1.trans (h.lines l).1, fun hd => ?_⟩
  obtain ⟨hi, hn⟩ := (h.lines l).2 hd
  rw [← (h.lines l).1] at hd
  obtain ⟨hi', hn'⟩ := (h'.lines l).2 hd
  exact ⟨hi'.trans hi, hn'.trans hn⟩

/-! ### Punching a hole -/

/-- Different lines of a file do not overlap. -/
theorem lines_disjoint {m n L k : ℕ} (hne : m ≠ n) (hk : k ≤ L) :
    m * L + k ≤ n * L ∨ n * L + L ≤ m * L := by
  rcases Nat.lt_or_gt_of_ne hne with hlt | hlt
  · left
    have := Nat.mul_le_mul_right L (Nat.succ_le_of_lt hlt)
    rw [Nat.succ_mul] at this
    omega
  · right
    have := Nat.mul_le_mul_right L (Nat.succ_le_of_lt hlt)
    rw [Nat.succ_mul] at this
    omega

/-- A file that loses a line. -/
theorem dropResident_eq {inode : ℕ} {idcf : InodeDiskFile}
    (h : c.inodeDiskCacheFiles inode = some idcf) :
    c.dropResident inode =
      { c with
        fileOpen := if idcf.residentLines - 1 = 0 then Function.update c.fileOpen idcf.file false
          else c.fileOpen
        inodeDiskCacheFiles := Function.update c.inodeDiskCacheFiles inode
          (if idcf.residentLines - 1 = 0 then none
            else some { idcf with residentLines := idcf.residentLines - 1 }) } := by
  unfold dropResident
  rw [h]
  dsimp only
  split
  · rfl
  · rfl

/-- `punchHoleDisk` changes the disk, and the line only in its backing. -/
theorem punchHoleDisk_eq (cfg : CacheConfig) (ans : DiskAnswers) (c : DataCache) (l : ℕ) :
    ∃ files fileOpen idcfs, c.punchHoleDisk cfg ans l =
      { c with
        lines := Function.update c.lines l { c.lines l with disk := none }
        files := files
        fileOpen := fileOpen
        inodeDiskCacheFiles := idcfs } := by
  unfold punchHoleDisk
  rcases hd : (c.lines l).disk with - | d
  · refine ⟨c.files, c.fileOpen, c.inodeDiskCacheFiles, ?_⟩
    have hsame : { c.lines l with disk := none } = c.lines l := by rw [← hd]
    rw [hsame, Function.update_eq_self]
  · dsimp only
    unfold dropResident
    split
    · split
      · exact ⟨_, _, _, rfl⟩
      · exact ⟨_, _, _, rfl⟩
    · split
      · split
        · exact ⟨_, _, _, rfl⟩
        · exact ⟨_, _, _, rfl⟩
      · split
        · exact ⟨_, _, _, rfl⟩
        · exact ⟨_, _, _, rfl⟩

/-- The files after punching, for a line with backing. -/
theorem punchHoleDisk_some (cfg : CacheConfig) (ans : DiskAnswers) {d : DiskPlace}
    (hd : (c.lines l).disk = some d) {n : ℕ}
    (hf : c.inodeDiskCacheFiles (c.lines l).inodeNumber = some ⟨d.file, n⟩) :
    c.punchHoleDisk cfg ans l =
      { c with
        lines := Function.update c.lines l { c.lines l with disk := none }
        files := Function.update c.files d.file (if ans.punches l then
          (c.files d.file).punchHole d.offset cfg.cacheLineSize else c.files d.file)
        fileOpen := if n - 1 = 0 then Function.update c.fileOpen d.file false else c.fileOpen
        inodeDiskCacheFiles := Function.update c.inodeDiskCacheFiles (c.lines l).inodeNumber
          (if n - 1 = 0 then none else some ⟨d.file, n - 1⟩) } := by
  unfold punchHoleDisk
  rw [hd]
  dsimp only
  split
  · have hdrop : (c.setFile d.file ((c.files d.file).punchHole d.offset
        cfg.cacheLineSize)).dropResident (c.lines l).inodeNumber = _ := dropResident_eq hf
    rw [hdrop]
    rfl
  · rw [dropResident_eq hf, Function.update_eq_self]
    rfl

/-- A line that leaves its file is one line fewer in it. -/
theorem card_residents_of_mem {i : ℕ} (hl : l ∈ residents cfg c i) :
    (residents cfg { c with lines := Function.update c.lines l { c.lines l with disk := none } }
      i).card = (residents cfg c i).card - 1 := by
  rw [← Finset.card_erase_of_mem hl]
  congr 1
  ext l'
  simp only [residents, Finset.mem_erase, Finset.mem_filter, Function.update_apply]
  by_cases heq : l' = l
  · simp [heq]
  · simp [heq]

theorem residents_of_ne {i : ℕ} (hi : (c.lines l).inodeNumber ≠ i) :
    residents cfg { c with lines := Function.update c.lines l { c.lines l with disk := none } } i =
      residents cfg c i := by
  ext l'
  simp only [residents, Finset.mem_filter, Function.update_apply]
  by_cases heq : l' = l
  · simp [heq, hi]
  · simp [heq]

/-- **Punching a hole** for one line leaves the bytes of the others alone, and
closes the file only with its last line. -/
theorem DiskOk.punchHoleDisk (hc : DiskOk cfg inodes c) (ans : DiskAnswers) (l : ℕ) :
    DiskOk cfg inodes (c.punchHoleDisk cfg ans l) := by
  rcases hd : (c.lines l).disk with - | d
  · have hsame : c.punchHoleDisk cfg ans l = c := by
      unfold DataCache.punchHoleDisk
      rw [hd]
    rwa [hsame]
  obtain ⟨hl, ⟨n, hf⟩, hoff, -⟩ := hc.placed l d hd
  have hmem : l ∈ residents cfg c (c.lines l).inodeNumber :=
    Finset.mem_filter.mpr ⟨Finset.mem_range.mpr hl, by rw [hd]; rfl, rfl⟩
  have hn : n = (residents cfg c (c.lines l).inodeNumber).card := hc.resident _ _ hf
  have hpunch := punchHoleDisk_some cfg ans hd hf
  generalize c.punchHoleDisk cfg ans l = c' at hpunch
  have hlines : ∀ l', l' ≠ l → c'.lines l' = c.lines l' := by
    intro l' hne
    rw [hpunch]
    exact Function.update_of_ne hne _ _
  have hself : (c'.lines l).disk = none := by
    rw [hpunch]
    show (Function.update c.lines l _ l).disk = none
    rw [Function.update_self]
  -- only other lines have backing, and they had it before
  have hother : ∀ l' d', (c'.lines l').disk = some d' → l' ≠ l ∧ (c.lines l').disk = some d' := by
    intro l' d' hd'
    have hne : l' ≠ l := by
      rintro rfl
      rw [hself] at hd'
      cases hd'
    exact ⟨hne, by rw [← hlines l' hne]; exact hd'⟩
  -- the files that are left are those that were there
  have hfiles : ∀ i g, c'.inodeDiskCacheFiles i = some g → ∃ g₀, c.inodeDiskCacheFiles i = some g₀ ∧
      g.file = g₀.file ∧ (i = (c.lines l).inodeNumber → n - 1 ≠ 0 ∧ g.residentLines = n - 1) ∧
        (i ≠ (c.lines l).inodeNumber → g = g₀) := by
    intro i g hg
    rw [hpunch] at hg
    change Function.update c.inodeDiskCacheFiles (c.lines l).inodeNumber _ i = some g at hg
    by_cases hi : i = (c.lines l).inodeNumber
    · subst hi
      rw [Function.update_self] at hg
      split at hg
      · cases hg
      · rename_i hlast
        rw [← Option.some.inj hg]
        exact ⟨_, hf, rfl, fun _ => ⟨hlast, rfl⟩, fun h => absurd rfl h⟩
    · rw [Function.update_of_ne hi] at hg
      exact ⟨g, hg, rfl, fun h => absurd h hi, fun _ => rfl⟩
  refine ⟨fun l' d' hd' => ?_, fun l₁ l₂ h₁ h₂ hi hnum => ?_, fun i g hg => ?_,
    fun i j f g hf' hg => ?_, fun i g hg => ?_⟩
  · obtain ⟨hne, hd₀⟩ := hother l' d' hd'
    obtain ⟨hl', ⟨n', hf'⟩, hoff', hholds⟩ := hc.placed l' d' hd₀
    rw [hlines l' hne]
    refine ⟨hl', ?_, hoff', ?_⟩
    · rw [hpunch]
      show ∃ k, Function.update c.inodeDiskCacheFiles (c.lines l).inodeNumber _ _ = some
        ⟨d'.file, k⟩
      by_cases hi : (c.lines l').inodeNumber = (c.lines l).inodeNumber
      · -- two lines of the file: it stays open
        have hmem' : l' ∈ residents cfg c (c.lines l).inodeNumber :=
          Finset.mem_filter.mpr ⟨Finset.mem_range.mpr hl', by rw [hd₀]; rfl, hi⟩
        have htwo : 1 < n := hn ▸ Finset.one_lt_card.mpr ⟨l', hmem', l, hmem, hne⟩
        rw [hi] at hf' ⊢
        rw [Function.update_self, if_neg (by omega)]
        rw [hf'] at hf
        have hfile := (InodeDiskFile.mk.inj (Option.some.inj hf)).1
        exact ⟨n - 1, by rw [hfile]⟩
      · rw [Function.update_of_ne hi]
        exact ⟨n', hf'⟩
    · rw [hpunch]
      show (Function.update c.files d.file _ d'.file).Holds _ _
      by_cases hfile : d'.file = d.file
      · rw [hfile, Function.update_self]
        have hi := hc.owner _ _ _ _ hf' hf hfile
        have hnum : (c.lines l').lineNumber ≠ (c.lines l).lineNumber := fun hnum =>
          hne (hc.distinct l' l (by rw [hd₀]; rfl) (by rw [hd]; rfl) hi hnum)
        rw [hfile] at hholds
        split
        · refine hholds.punchHole ?_
          rw [hoff', hoff]
          exact lines_disjoint hnum (CacheLine.length_wanted_le _)
        · exact hholds
      · rw [Function.update_of_ne hfile]
        exact hholds
  · obtain ⟨d₁, hd₁⟩ := Option.isSome_iff_exists.mp h₁
    obtain ⟨d₂, hd₂⟩ := Option.isSome_iff_exists.mp h₂
    obtain ⟨hne₁, hd₁'⟩ := hother l₁ d₁ hd₁
    obtain ⟨hne₂, hd₂'⟩ := hother l₂ d₂ hd₂
    rw [hlines l₁ hne₁, hlines l₂ hne₂] at hi hnum
    exact hc.distinct l₁ l₂ (by rw [hd₁']; rfl) (by rw [hd₂']; rfl) hi hnum
  · obtain ⟨g₀, hg₀, hfile, hsame, -⟩ := hfiles i g hg
    obtain ⟨hopen, hlt⟩ := hc.opened i g₀ hg₀
    rw [hfile, hpunch]
    refine ⟨?_, hlt⟩
    show (if n - 1 = 0 then Function.update c.fileOpen d.file false else c.fileOpen) g₀.file = true
    split
    · rename_i hlast
      rw [Function.update_of_ne]
      · exact hopen
      · intro heq
        exact (hsame (hc.owner _ _ _ _ hg₀ hf heq)).1 hlast
    · exact hopen
  · obtain ⟨f₀, hf₀, hfile, -⟩ := hfiles i f hf'
    obtain ⟨g₀, hg₀, hfile', -⟩ := hfiles j g hg
    intro heq
    exact hc.owner i j f₀ g₀ hf₀ hg₀ (by rw [← hfile, ← hfile', heq])
  · obtain ⟨g₀, hg₀, -, hsame, hdiff⟩ := hfiles i g hg
    by_cases hi : i = (c.lines l).inodeNumber
    · rw [(hsame hi).2, hn, hi, hpunch]
      exact (card_residents_of_mem hmem).symm
    · rw [hdiff hi, hc.resident i g₀ hg₀, hpunch]
      exact congrArg Finset.card (residents_of_ne fun h => hi h.symm).symm

/-! ### Storing a line -/

/-- Only the disk changes. -/
structure DiskOnly (c c' : DataCache) : Prop where
  eq : ∃ files fileOpen idcfs nextFile, c' =
    { c with
      files := files
      fileOpen := fileOpen
      inodeDiskCacheFiles := idcfs
      nextFile := nextFile }

theorem DiskOnly.lines {c c' : DataCache} (h : DiskOnly c c') : c'.lines = c.lines := by
  obtain ⟨_, _, _, _, rfl⟩ := h.eq
  rfl

/-- Opening the file of an inode: the file that is there, or a new one. -/
theorem DiskOk.openInodeFile (hc : DiskOk cfg inodes c) {ans : DiskAnswers} {inode : ℕ}
    {c' : DataCache} {idcf : InodeDiskFile} (h : c.openInodeFile ans inode = some (c', idcf)) :
    DiskOk cfg inodes c' ∧ DiskOnly c c' ∧ c'.inodeDiskCacheFiles inode = some idcf := by
  unfold DataCache.openInodeFile at h
  rcases hi : c.inodeDiskCacheFiles inode with - | g
  · rw [hi] at h
    dsimp only at h
    split at h
    · obtain ⟨h₁, h₂⟩ := Prod.mk.inj (Option.some.inj h)
      -- no line of the inode has backing, since it has no file
      have hnone : ∀ l d, (c.lines l).disk = some d → (c.lines l).inodeNumber ≠ inode := by
        rintro l d hd rfl
        obtain ⟨-, ⟨n, hn⟩, -⟩ := hc.placed l d hd
        rw [hi] at hn
        cases hn
      have hfresh : ∀ i g, c.inodeDiskCacheFiles i = some g → g.file ≠ c.nextFile :=
        fun i g hg heq => absurd (hc.opened i g hg).2 (by omega)
      have hfiles : ∀ i g, c'.inodeDiskCacheFiles i = some g →
          (i = inode ∧ g = ⟨c.nextFile, 0⟩) ∨ (i ≠ inode ∧ c.inodeDiskCacheFiles i = some g) := by
        intro i g hg
        rw [← h₁] at hg
        change Function.update c.inodeDiskCacheFiles inode _ i = some g at hg
        by_cases heq : i = inode
        · rw [heq, Function.update_self] at hg
          exact .inl ⟨heq, (Option.some.inj hg).symm⟩
        · rw [Function.update_of_ne heq] at hg
          exact .inr ⟨heq, hg⟩
      have hlines : c'.lines = c.lines := by rw [← h₁]
      refine ⟨⟨fun l d hd => ?_, fun l l' hd hd' => ?_, fun i g hg => ?_, fun i j f g hf hg => ?_,
        fun i g hg => ?_⟩, ⟨_, _, _, _, h₁.symm⟩, ?_⟩
      · rw [hlines] at hd ⊢
        obtain ⟨hl, ⟨n, hn⟩, hoff, hholds⟩ := hc.placed l d hd
        refine ⟨hl, ⟨n, ?_⟩, hoff, ?_⟩
        · rw [← h₁]
          exact (Function.update_of_ne (hnone l d hd) _ _).trans hn
        · rw [← h₁]
          show (Function.update c.files c.nextFile _ d.file).Holds _ _
          rw [Function.update_of_ne (hfresh _ _ hn)]
          exact hholds
      · rw [hlines] at hd hd' ⊢
        exact hc.distinct l l' hd hd'
      · rw [← h₁]
        show Function.update c.fileOpen c.nextFile true g.file = true ∧ g.file < c.nextFile + 1
        rcases hfiles i g hg with ⟨-, rfl⟩ | ⟨-, hg⟩
        · exact ⟨Function.update_self _ _ _, Nat.lt_succ_self _⟩
        · rw [Function.update_of_ne (hfresh i g hg)]
          exact ⟨(hc.opened i g hg).1, Nat.lt_succ_of_lt (hc.opened i g hg).2⟩
      · intro heq
        rcases hfiles i f hf with ⟨rfl, rfl⟩ | ⟨-, hf⟩
        · rcases hfiles j g hg with ⟨rfl, -⟩ | ⟨-, hg⟩
          · rfl
          · exact absurd heq.symm (hfresh j g hg)
        · rcases hfiles j g hg with ⟨-, rfl⟩ | ⟨-, hg⟩
          · exact absurd heq (hfresh i f hf)
          · exact hc.owner i j f g hf hg heq
      · have hres : residents cfg c' i = residents cfg c i := by
          unfold residents
          rw [hlines]
        rw [hres]
        rcases hfiles i g hg with ⟨rfl, rfl⟩ | ⟨-, hg⟩
        · symm
          rw [Finset.card_eq_zero, residents, Finset.filter_eq_empty_iff]
          rintro l - ⟨hd, hino⟩
          obtain ⟨d, hd⟩ := Option.isSome_iff_exists.mp hd
          exact hnone l d hd hino
        · exact hc.resident i g hg
      · rw [← h₁, ← h₂]
        exact Function.update_self _ _ _
    · cases h
  · rw [hi] at h
    obtain ⟨h₁, h₂⟩ := Prod.mk.inj (Option.some.inj h)
    rw [← h₁, ← h₂]
    exact ⟨hc, ⟨_, _, _, _, rfl⟩, hi⟩

/-- Writing where no line has its bytes. -/
theorem DiskOk.writeFile (hc : DiskOk cfg inodes c) {inode n : ℕ} {idcf : InodeDiskFile}
    (hf : c.inodeDiskCacheFiles inode = some idcf)
    (hfresh : ∀ l d, (c.lines l).disk = some d → (c.lines l).inodeNumber = inode →
      (c.lines l).lineNumber ≠ n) {buf : List UInt8} (hbuf : buf.length ≤ cfg.cacheLineSize) :
    DiskOk cfg inodes (c.setFile idcf.file
      ((c.files idcf.file).writeAt (n * cfg.cacheLineSize) buf)) := by
  refine ⟨fun l d hd => ?_, hc.distinct, hc.opened, hc.owner, hc.resident⟩
  obtain ⟨hl, ⟨k, hk⟩, hoff, hholds⟩ := hc.placed l d hd
  refine ⟨hl, ⟨k, hk⟩, hoff, ?_⟩
  show (Function.update c.files idcf.file _ d.file).Holds _ _
  by_cases hfile : d.file = idcf.file
  · rw [hfile, Function.update_self]
    rw [hfile] at hholds
    have hino : (c.lines l).inodeNumber = inode := hc.owner _ _ _ _ hk hf hfile
    refine hholds.writeAt ?_
    rw [hoff]
    have hlen : ((c.lines l).wanted cfg inodes).length ≤ cfg.cacheLineSize :=
      CacheLine.length_wanted_le _
    rcases lines_disjoint (hfresh l d hd hino) hlen with h | h
    · exact .inl h
    · exact .inr ((Nat.add_le_add_left hbuf _).trans h)
  · rw [Function.update_of_ne hfile]
    exact hholds

/-- A line that gets backing, with its bytes in the file. -/
theorem DiskOk.place (hc : DiskOk cfg inodes c) (hl : l < cfg.cacheLines)
    (hnone : (c.lines l).disk = none) {idcf : InodeDiskFile}
    (hf : c.inodeDiskCacheFiles (c.lines l).inodeNumber = some idcf)
    (hfresh : ∀ l' d, (c.lines l').disk = some d →
      (c.lines l').inodeNumber = (c.lines l).inodeNumber →
      (c.lines l').lineNumber ≠ (c.lines l).lineNumber)
    (hholds : (c.files idcf.file).Holds ((c.lines l).lineNumber * cfg.cacheLineSize)
      ((c.lines l).wanted cfg inodes)) (len : ℕ) :
    DiskOk cfg inodes
      { c with
        lines := Function.update c.lines l { c.lines l with
          disk := some ⟨idcf.file, (c.lines l).lineNumber * cfg.cacheLineSize, len⟩ }
        inodeDiskCacheFiles := Function.update c.inodeDiskCacheFiles (c.lines l).inodeNumber
          (some { idcf with residentLines := idcf.residentLines + 1 }) } := by
  generalize hc' : ({ c with
    lines := Function.update c.lines l { c.lines l with
      disk := some ⟨idcf.file, (c.lines l).lineNumber * cfg.cacheLineSize, len⟩ }
    inodeDiskCacheFiles := Function.update c.inodeDiskCacheFiles (c.lines l).inodeNumber
      (some { idcf with residentLines := idcf.residentLines + 1 }) } : DataCache) = c'
  have hother : ∀ l', l' ≠ l → c'.lines l' = c.lines l' := by
    intro l' hne
    rw [← hc']
    exact Function.update_of_ne hne _ _
  have hself : c'.lines l = { c.lines l with
      disk := some ⟨idcf.file, (c.lines l).lineNumber * cfg.cacheLineSize, len⟩ } := by
    rw [← hc']
    exact Function.update_self _ _ _
  have hkeep : ∀ l', (c'.lines l').inodeNumber = (c.lines l').inodeNumber ∧
      (c'.lines l').lineNumber = (c.lines l').lineNumber := by
    intro l'
    by_cases heq : l' = l
    · rw [heq, hself]
      exact ⟨rfl, rfl⟩
    · rw [hother l' heq]
      exact ⟨rfl, rfl⟩
  -- no file is closed, and the counts of the others stay
  have hfiles : ∀ i g, c.inodeDiskCacheFiles i = some g →
      ∃ k, c'.inodeDiskCacheFiles i = some ⟨g.file, k⟩ := by
    intro i g hg
    rw [← hc']
    show ∃ k, Function.update c.inodeDiskCacheFiles (c.lines l).inodeNumber _ i = some ⟨g.file, k⟩
    by_cases heq : i = (c.lines l).inodeNumber
    · subst heq
      rw [Function.update_self]
      rw [hf] at hg
      exact ⟨idcf.residentLines + 1, by rw [Option.some.inj hg]⟩
    · rw [Function.update_of_ne heq]
      exact ⟨g.residentLines, hg⟩
  have hback : ∀ i g, c'.inodeDiskCacheFiles i = some g → ∃ g₀, c.inodeDiskCacheFiles i = some g₀ ∧
      g.file = g₀.file ∧ (i = (c.lines l).inodeNumber → g.residentLines = g₀.residentLines + 1) ∧
        (i ≠ (c.lines l).inodeNumber → g = g₀) := by
    intro i g hg
    rw [← hc'] at hg
    change Function.update c.inodeDiskCacheFiles (c.lines l).inodeNumber _ i = some g at hg
    by_cases heq : i = (c.lines l).inodeNumber
    · subst heq
      rw [Function.update_self] at hg
      rw [← Option.some.inj hg]
      exact ⟨idcf, hf, rfl, fun _ => rfl, fun h => absurd rfl h⟩
    · rw [Function.update_of_ne heq] at hg
      exact ⟨g, hg, rfl, fun h => absurd h heq, fun _ => rfl⟩
  -- the line is one more resident of its inode's file, and no other file's
  have hres : ∀ i, residents cfg c' i =
      if i = (c.lines l).inodeNumber then insert l (residents cfg c i) else residents cfg c i := by
    intro i
    ext l'
    by_cases heq : l' = l
    · subst heq
      split
      · rename_i hi
        simp [residents, hself, hl, hi]
      · rename_i hi
        simp [residents, hself, hnone, Ne.symm hi]
    · split
      · simp [residents, hother l' heq, heq]
      · simp [residents, hother l' heq]
  refine ⟨fun l' d hd => ?_, fun l₁ l₂ h₁ h₂ hi hn => ?_, fun i g hg => ?_,
    fun i j f g hf' hg => ?_, fun i g hg => ?_⟩
  · by_cases heq : l' = l
    · subst heq
      rw [hself] at hd ⊢
      obtain rfl := Option.some.inj hd
      refine ⟨hl, hfiles _ _ hf, rfl, ?_⟩
      rw [← hc']
      exact hholds
    · rw [hother l' heq] at hd ⊢
      obtain ⟨hl', ⟨k, hk⟩, hoff, hh⟩ := hc.placed l' d hd
      refine ⟨hl', hfiles _ _ hk, hoff, ?_⟩
      rw [← hc']
      exact hh
  -- two lines of one place: if one of them is `l`, it was fresh
  · rw [(hkeep l₁).1, (hkeep l₂).1] at hi
    rw [(hkeep l₁).2, (hkeep l₂).2] at hn
    by_cases heq₁ : l₁ = l
    · by_cases heq₂ : l₂ = l
      · rw [heq₁, heq₂]
      · rw [hother l₂ heq₂] at h₂
        obtain ⟨d, hd⟩ := Option.isSome_iff_exists.mp h₂
        rw [heq₁] at hi hn
        exact absurd hn.symm (hfresh l₂ d hd hi.symm)
    · rw [hother l₁ heq₁] at h₁
      by_cases heq₂ : l₂ = l
      · obtain ⟨d, hd⟩ := Option.isSome_iff_exists.mp h₁
        rw [heq₂] at hi hn
        exact absurd hn (hfresh l₁ d hd hi)
      · rw [hother l₂ heq₂] at h₂
        exact hc.distinct l₁ l₂ h₁ h₂ hi hn
  · obtain ⟨g₀, hg₀, hfile, -⟩ := hback i g hg
    rw [hfile, ← hc']
    exact hc.opened i g₀ hg₀
  · obtain ⟨f₀, hf₀, hfile, -⟩ := hback i f hf'
    obtain ⟨g₀, hg₀, hfile', -⟩ := hback j g hg
    intro heq
    exact hc.owner i j f₀ g₀ hf₀ hg₀ (by rw [← hfile, ← hfile', heq])
  -- the count goes up with the residents
  · obtain ⟨g₀, hg₀, -, hsame, hdiff⟩ := hback i g hg
    rw [hres]
    split
    · rename_i hi
      have hnot : l ∉ residents cfg c i := by
        simp [residents, hnone]
      rw [Finset.card_insert_of_notMem hnot, hsame hi, hc.resident i g₀ hg₀]
    · rename_i hi
      rw [hdiff hi]
      exact hc.resident i g₀ hg₀

/-- What `storeContentDisk` has stored: the whole buffer, or nothing. -/
inductive StoredAs (buf : List UInt8) : Option DiskPlace → ℕ → Prop
  | whole (place : DiskPlace) : buf ≠ [] → StoredAs buf (some place) buf.length
  | nothing : StoredAs buf none 0

/-- **Storing a line** that has no backing yet and is no other line's. -/
theorem DiskOk.storeContentDisk (hc : DiskOk cfg inodes c) (ans : DiskAnswers)
    (hl : l < cfg.cacheLines) (hnone : (c.lines l).disk = none)
    (hfresh : ∀ l' d, (c.lines l').disk = some d →
      (c.lines l').inodeNumber = (c.lines l).inodeNumber →
      (c.lines l').lineNumber ≠ (c.lines l).lineNumber)
    {buf : List UInt8} (hbuf : (c.lines l).wanted cfg inodes = buf) :
    ∃ c' place n, c.storeContentDisk cfg ans l buf = (c', n) ∧
      DiskOnly { c with lines := Function.update c.lines l { c.lines l with disk := place } } c' ∧
      StoredAs buf place n ∧ DiskOk cfg inodes c' := by
  have hsame : Function.update c.lines l { c.lines l with disk := none } = c.lines := by
    have : { c.lines l with disk := none } = c.lines l := by rw [← hnone]
    rw [this, Function.update_eq_self]
  have hcleared : (c.updLine l fun t => { t with disk := none }) = c := by
    show { c with lines := Function.update c.lines l { c.lines l with disk := none } } = c
    rw [hsame]
  have hlen : buf.length ≤ cfg.cacheLineSize := hbuf ▸ CacheLine.length_wanted_le _
  unfold DataCache.storeContentDisk
  rw [hcleared]
  dsimp only
  split
  -- nothing to store
  · refine ⟨c, none, 0, rfl, ?_, .nothing, hc⟩
    rw [hsame]
    exact ⟨_, _, _, _, rfl⟩
  rename_i hne
  -- the file cannot be opened: the line stays in memory
  rcases hopen : c.openInodeFile ans (c.lines l).inodeNumber with - | ⟨c₁, idcf⟩
  · refine ⟨c, none, 0, rfl, ?_, .nothing, hc⟩
    rw [hsame]
    exact ⟨_, _, _, _, rfl⟩
  obtain ⟨hc₁, honly, hf⟩ := hc.openInodeFile hopen
  have hlines := honly.lines
  have hfresh₁ : ∀ l' d, (c₁.lines l').disk = some d →
      (c₁.lines l').inodeNumber = (c.lines l).inodeNumber →
      (c₁.lines l').lineNumber ≠ (c.lines l).lineNumber := by
    rw [hlines]
    exact hfresh
  dsimp only
  unfold DataCache.writeLine
  rw [hlines]
  obtain ⟨f, o, i, n, rfl⟩ := honly.eq
  rcases ans.writeFailsAfter with - | k
  -- the whole line is written
  · have hwritten := hc₁.writeFile hf hfresh₁ hlen
    have hholds : (Function.update f idcf.file ((f idcf.file).writeAt
        ((c.lines l).lineNumber * cfg.cacheLineSize) buf) idcf.file).Holds
        ((c.lines l).lineNumber * cfg.cacheLineSize) ((c.lines l).wanted cfg inodes) := by
      rw [Function.update_self, hbuf]
      exact holds_writeAt hne
    have hplaced := hwritten.place hl hnone hf hfresh₁ hholds buf.length
    exact ⟨_, some ⟨idcf.file, (c.lines l).lineNumber * cfg.cacheLineSize, buf.length⟩, buf.length,
      rfl, ⟨_, _, _, _, rfl⟩, .whole _ hne, hplaced⟩
  -- the write fails behind `k` bytes: what it wrote belongs to no line
  · have htake : (buf.take k).length ≤ cfg.cacheLineSize :=
      (List.length_take_le' _ _).trans hlen
    refine ⟨_, none, 0, rfl, ?_, .nothing, hc₁.writeFile hf hfresh₁ htake⟩
    rw [hsame]
    exact ⟨_, _, _, _, rfl⟩

end DataCache

end MultiStorageFileSystem
