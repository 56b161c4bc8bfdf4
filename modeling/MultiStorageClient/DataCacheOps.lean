/-
MultiStorageClient/DataCacheOps.lean

The operations of the data cache keep `CacheOk` and advance the lines.

A line goes round: from the Free or the Clean LRU to a reader
(`takeFree`, `takeClean`), from there back (`freeLine`) or to the Inbound LRU
(`assignLine`), and at the end of its fetch to the Clean LRU (`fetchEnd`).
`CacheOk cfg inodes c held` has the lines that are on no LRU in `held`.
-/
import MultiStorageClient.DataCacheInv

namespace MultiStorageFileSystem

open Slice

variable {cfg : CacheConfig} {inodes : ℕ → Option InodeInfo}

namespace DataCache

variable {c c' : DataCache} {l : ℕ} {held held' got others : List ℕ}

/-! ### Frames -/

theorem CacheOk.held_perm (h : CacheOk cfg inodes c held) (hperm : held'.Perm held) :
    CacheOk cfg inodes c held' := by
  refine ⟨h.lists.perm fun s => ?_, h.line, h.mapped, h.outside, h.disk⟩
  cases s with
  | notOnLRU => exact hperm
  | free => exact List.Perm.refl _
  | inbound => exact List.Perm.refl _
  | clean => exact List.Perm.refl _

/-- Readers, handles and counts are not in `CacheOk`. -/
theorem CacheOk.frame (h : CacheOk cfg inodes c held) (readers : List Reader)
    (handles : ℕ → ℕ → Option Bool) (counts : ℕ → ℕ) :
    CacheOk cfg inodes
      { c with readers := readers, handles := handles, inboundCacheLineCount := counts } held :=
  ⟨h.lists, h.line, ⟨h.mapped.entry, h.mapped.listed⟩, h.outside,
    h.disk.congr ⟨rfl, rfl, rfl, rfl, fun _ => ⟨rfl, fun _ => ⟨rfl, rfl⟩⟩⟩⟩

theorem CacheOk.setReader (h : CacheOk cfg inodes c held) (r : ℕ) (rd : Reader) :
    CacheOk cfg inodes (c.setReader r rd) held := h.frame _ _ _

/-- A touched line moves to the end of the clean list. -/
theorem CacheOk.touchClean (h : CacheOk cfg inodes c held) (hl : l ∈ c.cleanLRU) :
    CacheOk cfg inodes (c.touchClean l) held := by
  have hperm : (c.cleanLRU.erase l ++ [l]).Perm c.cleanLRU :=
    (List.perm_append_singleton l _).trans (List.perm_cons_erase hl).symm
  refine ⟨h.lists.perm fun s => ?_, h.line, ⟨h.mapped.entry, h.mapped.listed⟩, h.outside,
    h.disk.congr ⟨rfl, rfl, rfl, rfl, fun _ => ⟨rfl, fun _ => ⟨rfl, rfl⟩⟩⟩⟩
  cases s with
  | notOnLRU => exact List.Perm.refl _
  | free => exact List.Perm.refl _
  | inbound => exact List.Perm.refl _
  | clean => exact hperm

theorem lines_updLine_self (c : DataCache) (l : ℕ) (f : CacheLine → CacheLine) :
    (c.updLine l f).lines l = f (c.lines l) := Function.update_self _ _ _

theorem readers_updLine (c : DataCache) (l : ℕ) (f : CacheLine → CacheLine) :
    (c.updLine l f).readers = c.readers := rfl

theorem readers_touchClean (c : DataCache) (l : ℕ) : (c.touchClean l).readers = c.readers := rfl

theorem changes_updLine (c : DataCache) (l : ℕ) (f : CacheLine → CacheLine) :
    Changes l c (c.updLine l f) := ⟨fun _ hne => Function.update_of_ne hne _ _, fun _ _ => rfl⟩

/-- A change of a line that leaves its place on the disk keeps the disk. -/
theorem DiskOk.updLine (h : DiskOk cfg inodes c) {f : CacheLine → CacheLine}
    (hdisk : (f (c.lines l)).disk = (c.lines l).disk)
    (hinode : (f (c.lines l)).inodeNumber = (c.lines l).inodeNumber)
    (hnumber : (f (c.lines l)).lineNumber = (c.lines l).lineNumber) :
    DiskOk cfg inodes (c.updLine l f) := by
  have hself := lines_updLine_self c l f
  refine h.congr (SameDisk.of_line (l := l) (changes_updLine c l f).lines ?_ (fun _ => ?_)
    rfl rfl rfl rfl)
  · rw [hself]
    exact hdisk
  · rw [hself]
    exact ⟨hinode, hnumber⟩

/-- A line that stays on its list, in the map and on the disk. -/
theorem CacheOk.updLine (h : CacheOk cfg inodes c held) (hl : l < cfg.cacheLines)
    {f : CacheLine → CacheLine} (hstate : (f (c.lines l)).state = (c.lines l).state)
    (hinode : (f (c.lines l)).inodeNumber = (c.lines l).inodeNumber)
    (hnumber : (f (c.lines l)).lineNumber = (c.lines l).lineNumber)
    (hdisk : (f (c.lines l)).disk = (c.lines l).disk)
    (hline : LineOk cfg inodes (f (c.lines l)) (c.arena l)) :
    CacheOk cfg inodes (c.updLine l f) held := by
  have hch := changes_updLine c l f
  have hself := lines_updLine_self c l f
  refine h.change hl hch ?_ ?_ (h.mapped.keep hch rfl ?_ fun _ => ?_)
    (h.disk.updLine hdisk hinode hnumber)
  · rw [hself, hstate, Function.update_eq_self]
    exact h.lists
  · rw [hself]
    exact hline
  · rw [hself, CacheLine.Listed, CacheLine.Listed, hstate]
  · rw [hself]
    exact ⟨hinode, hnumber⟩

/-- The waiters of a line. -/
theorem CacheOk.waiters (h : CacheOk cfg inodes c held) (hl : l < cfg.cacheLines) (ws : List ℕ) :
    CacheOk cfg inodes (c.updLine l fun t => { t with waiters := ws }) held :=
  h.updLine hl rfl rfl rfl rfl
    ⟨(h.line l).fetching, (h.line l).reading, (h.line l).answered, (h.line l).stored,
      (h.line l).disk⟩

theorem advance_waiters (c : DataCache) (l : ℕ) (ws : List ℕ) :
    Advance cfg c (c.updLine l fun t => { t with waiters := ws }) := by
  refine (changes_updLine c l _).advance ?_
  rw [lines_updLine_self]
  exact ⟨le_rfl, fun _ _ hs => ⟨hs, rfl⟩, fun _ _ hs hf => ⟨hs, hf, rfl, rfl, rfl⟩⟩

theorem CacheOk.notifyWaiters (h : CacheOk cfg inodes c held) (hl : l < cfg.cacheLines) :
    CacheOk cfg inodes (c.notifyWaiters l) held := (h.waiters hl []).frame _ _ _

/-! ### What is on a list -/

theorem CacheOk.lt_of_mem (h : CacheOk cfg inodes c held) {s : LineState}
    (hl : l ∈ c.onList held s) :
    l < cfg.cacheLines := Finset.mem_range.mp (h.lists.mem_things hl)

theorem CacheOk.state_of_mem (h : CacheOk cfg inodes c held) {s : LineState}
    (hl : l ∈ c.onList held s) : (c.lines l).state = s := h.lists.state_eq hl

/-- A line whose fetch goes on is an inbound line. -/
theorem CacheOk.fetching (h : CacheOk cfg inodes c held) (hfetch : (c.lines l).fetch ≠ .idle) :
    l < cfg.cacheLines ∧ (c.lines l).state = .inbound ∧ l ∈ c.inboundLRU ∧
      (c.lines l).disk = none ∧ (inodes (c.lines l).inodeNumber).isSome := by
  have hs := (h.line l).fetching hfetch
  have hl : l < cfg.cacheLines := by
    by_contra hge
    rw [h.outside l (Nat.le_of_not_lt hge)] at hfetch
    exact hfetch rfl
  refine ⟨hl, hs, (h.lists.mem .inbound l).mpr ⟨Finset.mem_range.mpr hl, hs⟩,
    (h.line l).disk_none (.inl ?_), (h.mapped.listed l (.inl hs)).2⟩
  rw [hs]
  nofun

theorem CacheOk.idle (h : CacheOk cfg inodes c held) (hstate : (c.lines l).state ≠ .inbound) :
    (c.lines l).fetch = .idle := by
  by_contra hfetch
  exact hstate ((h.line l).fetching hfetch)

/-- A line in the map, which is inbound or clean. -/
theorem CacheOk.cached (h : CacheOk cfg inodes c held) {i n : ℕ}
    (hentry : c.cacheMap i n = some l) :
    l < cfg.cacheLines ∧ (c.lines l).inodeNumber = i ∧ (c.lines l).lineNumber = n ∧
      ((c.lines l).state = .inbound ∨ ((c.lines l).state = .clean ∧ l ∈ c.cleanLRU)) := by
  obtain ⟨hl, hlist, hi, hn⟩ := h.mapped.entry i n l hentry
  refine ⟨hl, hi, hn, hlist.imp_right fun hs => ⟨hs, ?_⟩⟩
  exact (h.lists.mem .clean l).mpr ⟨Finset.mem_range.mpr hl, hs⟩

/-! ### Taking lines -/

/-- Taking the head of the Free LRU. -/
theorem CacheOk.popFree (h : CacheOk cfg inodes c held) {rest : List ℕ}
    (hfree : c.freeLRU = l :: rest) :
    CacheOk cfg inodes ({ c with freeLRU := rest }.setState l .notOnLRU) (l :: held) ∧
      Advance cfg c ({ c with freeLRU := rest }.setState l .notOnLRU) := by
  have hmem : l ∈ c.onList held .free := by
    show l ∈ c.freeLRU
    rw [hfree]
    exact List.mem_cons_self ..
  -- a free line has no fetch, no backing and no entry in the map
  have hs := h.state_of_mem hmem
  have hidle := h.idle (l := l) (by rw [hs]; nofun)
  have hnone := (h.line l).disk_none (.inl (by rw [hs]; nofun))
  have hch : Changes l c ({ c with freeLRU := rest }.setState l .notOnLRU) :=
    ⟨fun _ hne => Function.update_of_ne hne _ _, fun _ _ => rfl⟩
  have hself : ({ c with freeLRU := rest }.setState l .notOnLRU).lines l =
      { c.lines l with state := .notOnLRU } := Function.update_self _ _ _
  have hnot := CacheLine.not_listed (t := c.lines l) (.inr hs)
  have hnot' := CacheLine.not_listed (t := { c.lines l with state := .notOnLRU }) (.inl rfl)
  constructor
  · refine h.change (h.lt_of_mem hmem) hch ?_ ?_
      (h.mapped.keep hch rfl ?_ fun hlist => absurd hlist hnot)
      (h.disk.congr (SameDisk.of_line (l := l) hch.lines ?_ (fun hd => ?_) rfl rfl rfl rfl))
    · rw [hself]
      refine h.lists.move (h.lists.mem_things hmem) hs nofun ?_ (List.Perm.refl _) ?_
      · show c.freeLRU.Perm (l :: rest)
        rw [hfree]
      · intro s h₁ h₂
        cases s <;> first | rfl | contradiction
    · rw [hself]
      exact .of_unlisted hidle nofun hnone
    · rw [hself]
      exact iff_of_false hnot' hnot
    · rw [hself]
    · rw [hnone] at hd
      cases hd
  -- nobody copies from a line that is not clean
  · refine hch.advance ?_
    rw [hself]
    refine ⟨le_rfl, fun _ _ _ => ⟨nofun, rfl⟩, fun _ _ hclean => ?_⟩
    rw [hs] at hclean
    cases hclean

/-- A clean line leaves its list and the map, and has no backing any more. -/
theorem CacheOk.unlist (h : CacheOk cfg inodes c held) (hl : l ∈ c.cleanLRU) (hch : Changes l c c')
    (hfree : c'.freeLRU = c.freeLRU) (hinbound : c'.inboundLRU = c.inboundLRU)
    (hclean : c'.cleanLRU = c.cleanLRU.erase l)
    (hmap : ∀ i n, c'.cacheMap i n =
      if i = (c.lines l).inodeNumber ∧ n = (c.lines l).lineNumber then none else c.cacheMap i n)
    (hstate : (c'.lines l).state = .notOnLRU) (hfetch : (c'.lines l).fetch = (c.lines l).fetch)
    (hnone : (c'.lines l).disk = none) (hdisk : DiskOk cfg inodes c') :
    CacheOk cfg inodes c' (l :: held) := by
  have hs := h.state_of_mem (s := .clean) hl
  have hidle := h.idle (l := l) (by rw [hs]; nofun)
  refine h.change (h.lt_of_mem (s := .clean) hl) hch ?_ ?_
    (h.mapped.drop hch hmap (CacheLine.not_listed (.inl hstate)) (.inr hs)) hdisk
  · rw [hstate]
    refine h.lists.move (h.lists.mem_things (s := .clean) hl) hs nofun ?_ (List.Perm.refl _) ?_
    · show c.cleanLRU.Perm (l :: c'.cleanLRU)
      rw [hclean]
      exact List.perm_cons_erase hl
    · intro s h₁ h₂
      cases s with
      | notOnLRU => contradiction
      | free => exact hfree
      | inbound => exact hinbound
      | clean => contradiction
  · exact .of_unlisted (hfetch.trans hidle) (by rw [hstate]; nofun) hnone

/-- `recycle` of the head of the Clean LRU. -/
theorem CacheOk.recycle (h : CacheOk cfg inodes c held) (ans : DiskAnswers) {rest : List ℕ}
    (hclean : c.cleanLRU = l :: rest) :
    CacheOk cfg inodes (({ c with cleanLRU := rest }.setState l .notOnLRU).recycle cfg ans l)
      (l :: held) ∧
      Advance cfg c (({ c with cleanLRU := rest }.setState l .notOnLRU).recycle cfg ans l) := by
  have hmem : l ∈ c.cleanLRU := by
    rw [hclean]
    exact List.mem_cons_self ..
  have hs := h.state_of_mem (s := .clean) hmem
  have hrest : rest = c.cleanLRU.erase l := by
    rw [hclean, List.erase_cons_head]
  generalize hc₀ : ({ c with cleanLRU := rest }.setState l .notOnLRU : DataCache) = c₀
  have hself₀ : c₀.lines l = { c.lines l with state := .notOnLRU } := by
    rw [← hc₀]
    exact Function.update_self _ _ _
  have hch₀ : Changes l c c₀ := by
    rw [← hc₀]
    exact ⟨fun _ hne => Function.update_of_ne hne _ _, fun _ _ => rfl⟩
  have hsame₀ : SameDisk c c₀ := by
    refine SameDisk.of_line (l := l) hch₀.lines ?_ (fun _ => ?_) ?_ ?_ ?_ ?_
    · rw [hself₀]
    · rw [hself₀]
      exact ⟨rfl, rfl⟩
    all_goals rw [← hc₀]; rfl
  have hmap₀ :
      ∀ i n, (c₀.setCacheMap (c₀.lines l).inodeNumber (c₀.lines l).lineNumber none).cacheMap
      i n = if i = (c.lines l).inodeNumber ∧ n = (c.lines l).lineNumber then none
        else c.cacheMap i n := by
    intro i n
    rw [cacheMap_setCacheMap, hself₀, ← hc₀]
    rfl
  unfold DataCache.recycle
  split
  · rename_i hdisk
    -- the bumped line, its hole, and the map
    generalize hc₁ : (c₀.updLine l fun t =>
      { t with contentGeneration := t.contentGeneration + 1 }) = c₁
    have hself₁ : c₁.lines l = { c₀.lines l with
        contentGeneration := (c₀.lines l).contentGeneration + 1 } := by
      rw [← hc₁]
      exact lines_updLine_self _ _ _
    have hok₁ : DiskOk cfg inodes c₁ := by
      rw [← hc₁]
      exact (h.disk.congr hsame₀).updLine rfl rfl rfl
    have hok₂ := hok₁.punchHoleDisk ans l
    obtain ⟨files, fileOpen, idcfs, hpunch⟩ := punchHoleDisk_eq cfg ans c₁ l
    rw [hpunch] at hok₂ ⊢
    have hlines₁ : ∀ l', l' ≠ l → c₁.lines l' = c.lines l' := by
      intro l' hne
      rw [← hch₀.lines l' hne, ← hc₁]
      exact (changes_updLine _ _ _).lines l' hne
    have hch : Changes l c ({ c₁ with
        lines := Function.update c₁.lines l { c₁.lines l with disk := none }
        files := files
        fileOpen := fileOpen
        inodeDiskCacheFiles := idcfs }.setCacheMap (c₀.lines l).inodeNumber
          (c₀.lines l).lineNumber none) := by
      refine ⟨fun l' hne => ?_, fun l' _ => ?_⟩
      · exact (Function.update_of_ne hne _ _).trans (hlines₁ l' hne)
      · rw [← hc₁, ← hc₀]
        rfl
    have hself : ({ c₁ with
        lines := Function.update c₁.lines l { c₁.lines l with disk := none }
        files := files
        fileOpen := fileOpen
        inodeDiskCacheFiles := idcfs }.setCacheMap (c₀.lines l).inodeNumber
          (c₀.lines l).lineNumber none).lines l = { c.lines l with
            state := .notOnLRU
            contentGeneration := (c.lines l).contentGeneration + 1
            disk := none } := by
      refine (Function.update_self _ _ _).trans ?_
      rw [hself₁, hself₀]
    constructor
    · refine h.unlist hmem hch ?_ ?_ ?_ (fun i n => ?_) ?_ ?_ ?_ (hok₂.congr
        ⟨rfl, rfl, rfl, rfl, fun _ => ⟨rfl, fun _ => ⟨rfl, rfl⟩⟩⟩)
      · rw [← hc₁, ← hc₀]
        rfl
      · rw [← hc₁, ← hc₀]
        rfl
      · rw [← hrest, ← hc₁, ← hc₀]
        rfl
      · rw [← hmap₀ i n, ← hc₁]
        rfl
      · rw [hself]
      · rw [hself]
      · rw [hself]
    · refine hch.advance (LineAdvance.of_lt ?_)
      rw [hself]
      exact Nat.lt_succ_self _
  · rename_i hdisk
    have hram : cfg.onDisk = false := Bool.eq_false_iff.mpr hdisk
    have hch : Changes l c (c₀.setCacheMap (c₀.lines l).inodeNumber (c₀.lines l).lineNumber none) :=
      ⟨hch₀.lines, hch₀.arena⟩
    constructor
    · refine h.unlist hmem hch ?_ ?_ ?_ hmap₀ ?_ ?_ ?_ ((h.disk.congr hsame₀).congr
        ⟨rfl, rfl, rfl, rfl, fun _ => ⟨rfl, fun _ => ⟨rfl, rfl⟩⟩⟩)
      · rw [← hc₀]
        rfl
      · rw [← hc₀]
        rfl
      · rw [← hrest, ← hc₀]
        rfl
      · show (c₀.lines l).state = _
        rw [hself₀]
      · show (c₀.lines l).fetch = _
        rw [hself₀]
      · show (c₀.lines l).disk = _
        rw [hself₀]
        exact (h.line l).disk_none (.inr (.inr hram))
    · refine hch.advance ?_
      show LineAdvance cfg _ _ (c₀.lines l) (c₀.arena l)
      have harena : c₀.arena l = c.arena l := by rw [← hc₀]; rfl
      rw [hself₀, harena]
      refine ⟨le_rfl, fun _ _ _ => ⟨nofun, rfl⟩, fun _ hd => ?_⟩
      exact absurd hd hdisk

/-- What taking and freeing lines leaves alone. -/
structure Takes (c c' : DataCache) : Prop where
  readers : c'.readers = c.readers
  fatal : c'.fatal = c.fatal
  inboundLRU : c'.inboundLRU = c.inboundLRU

theorem Takes.refl (c : DataCache) : Takes c c := ⟨rfl, rfl, rfl⟩

theorem Takes.trans {c₁ c₂ : DataCache} (h : Takes c c₁) (h' : Takes c₁ c₂) : Takes c c₂ :=
  ⟨h'.readers.trans h.readers, h'.fatal.trans h.fatal, h'.inboundLRU.trans h.inboundLRU⟩

theorem takes_recycle (cfg : CacheConfig) (ans : DiskAnswers) (c : DataCache) (l : ℕ) :
    Takes c (c.recycle cfg ans l) ∧ (c.recycle cfg ans l).freeLRU = c.freeLRU := by
  unfold recycle
  split
  · obtain ⟨_, _, _, hpunch⟩ := punchHoleDisk_eq cfg ans
      (c.updLine l fun t => { t with contentGeneration := t.contentGeneration + 1 }) l
    rw [hpunch]
    exact ⟨⟨rfl, rfl, rfl⟩, rfl⟩
  · exact ⟨⟨rfl, rfl, rfl⟩, rfl⟩

/-- **The first loop of `allocateDataCacheLines`**: it stops short only at an
empty Free LRU. -/
theorem CacheOk.takeFree {others : List ℕ} : ∀ (n : ℕ) {c c' : DataCache} {got got' : List ℕ},
    CacheOk cfg inodes c (got ++ others) → DataCache.takeFree n c got = (c', got') →
    CacheOk cfg inodes c' (got' ++ others) ∧ Advance cfg c c' ∧ Takes c c' ∧
      got'.length ≤ got.length + n ∧ (got'.length < got.length + n → c'.freeLRU = []) := by
  intro n
  induction n with
  | zero =>
      intro c c' got got' h heq
      obtain ⟨rfl, rfl⟩ := Prod.mk.inj heq
      exact ⟨h, .refl _, .refl _, le_rfl, fun hlt => absurd hlt (Nat.lt_irrefl _)⟩
  | succ n ih =>
      intro c c' got got' h heq
      rw [DataCache.takeFree] at heq
      rcases hfree : c.freeLRU with - | ⟨l, rest⟩
      · rw [hfree] at heq
        obtain ⟨rfl, rfl⟩ := Prod.mk.inj heq
        exact ⟨h, .refl _, .refl _, Nat.le_add_right _ _, fun _ => hfree⟩
      · rw [hfree] at heq
        obtain ⟨h₁, hadv₁⟩ := h.popFree hfree
        have hperm : (got ++ [l] ++ others).Perm (l :: (got ++ others)) := by
          rw [List.append_assoc]
          exact List.perm_middle
        obtain ⟨h₂, hadv₂, htakes, hle, hlt⟩ := ih (h₁.held_perm hperm) heq
        rw [List.length_append, List.length_singleton] at hle hlt
        have htakes₁ : Takes c ({ c with freeLRU := rest }.setState l .notOnLRU) := ⟨rfl, rfl, rfl⟩
        exact ⟨h₂, hadv₁.trans hadv₂, htakes₁.trans htakes, by omega, fun hshort => hlt (by omega)⟩

/-- **The second loop of `allocateDataCacheLines`**: it stops short only at an
empty Clean LRU. -/
theorem CacheOk.takeClean {others : List ℕ} {ans : DiskAnswers} :
    ∀ (n : ℕ) {c c' : DataCache} {got got' : List ℕ},
    CacheOk cfg inodes c (got ++ others) → DataCache.takeClean cfg inodes ans n c got = (c', got') →
    CacheOk cfg inodes c' (got' ++ others) ∧ Advance cfg c c' ∧ Takes c c' ∧
      c'.freeLRU = c.freeLRU ∧ got.length ≤ got'.length ∧ got'.length ≤ got.length + n ∧
      (got'.length < got.length + n → c'.cleanLRU = []) := by
  intro n
  induction n with
  | zero =>
      intro c c' got got' h heq
      obtain ⟨rfl, rfl⟩ := Prod.mk.inj heq
      exact ⟨h, .refl _, .refl _, rfl, le_rfl, le_rfl, fun hlt => absurd hlt (Nat.lt_irrefl _)⟩
  | succ n ih =>
      intro c c' got got' h heq
      rw [DataCache.takeClean] at heq
      rcases hclean : c.cleanLRU with - | ⟨l, rest⟩
      · rw [hclean] at heq
        obtain ⟨rfl, rfl⟩ := Prod.mk.inj heq
        exact ⟨h, .refl _, .refl _, rfl, le_rfl, Nat.le_add_right _ _, fun _ => hclean⟩
      · rw [hclean] at heq
        dsimp only at heq
        -- the inode of a clean line is there
        have hmem : l ∈ c.cleanLRU := by
          rw [hclean]
          exact List.mem_cons_self ..
        have hinode := (h.mapped.listed l (.inr (h.state_of_mem (s := .clean) hmem))).2
        rw [if_neg (by rw [Option.isNone_iff_eq_none, ← Option.not_isSome_iff_eq_none, not_not]
                       exact hinode)] at heq
        obtain ⟨h₁, hadv₁⟩ := h.recycle ans hclean
        have hperm : (got ++ [l] ++ others).Perm (l :: (got ++ others)) := by
          rw [List.append_assoc]
          exact List.perm_middle
        obtain ⟨h₂, hadv₂, htakes, hfree, hge, hle, hlt⟩ := ih (h₁.held_perm hperm) heq
        obtain ⟨htakes₁, hfree₁⟩ := takes_recycle cfg ans
          ({ c with cleanLRU := rest }.setState l .notOnLRU) l
        have htakes₀ : Takes c ({ c with cleanLRU := rest }.setState l .notOnLRU) :=
          ⟨rfl, rfl, rfl⟩
        rw [List.length_append, List.length_singleton] at hge hle hlt
        exact ⟨h₂, hadv₁.trans hadv₂, htakes₀.trans (htakes₁.trans htakes),
          hfree.trans hfree₁, by omega, by omega, fun hshort => hlt (by omega)⟩

/-- A turn of `allocateDataCacheLines`, behind its two loops. -/
theorem allocateDataCacheLines_eq {ans : DiskAnswers} {r count : ℕ} {rd : Reader}
    {prefetch got₁ got₂ : List ℕ} {c₁ c₂ : DataCache}
    (hfree : DataCache.takeFree (count - got.length) c got = (c₁, got₁))
    (hclean : DataCache.takeClean cfg inodes ans (count - got₁.length) c₁ got₁ = (c₂, got₂)) :
    c.allocateDataCacheLines cfg inodes ans r rd count prefetch got =
      if c₂.fatal then c₂
      else if got₂.length = count then c₂.setReader r { rd with pc := .allocated prefetch got₂ }
      else
        match c₂.inboundLRU with
        | [] => { c₂ with fatal := true }
        | l :: _ =>
            (c₂.updLine l fun t => { t with waiters := t.waiters ++ [r] }).setReader r
              { rd with pc := .allocating count prefetch got₂, waits := rd.waits + 1 } := by
  obtain rfl := congrArg Prod.fst hclean
  obtain rfl := congrArg Prod.snd hclean
  obtain rfl := congrArg Prod.fst hfree
  obtain rfl := congrArg Prod.snd hfree
  rfl

/-- **A turn of `allocateDataCacheLines`**: it takes all that are on the Free
and the Clean LRU, or all that it needs. -/
theorem CacheOk.allocate (h : CacheOk cfg inodes c (got ++ others)) (ans : DiskAnswers) (r : ℕ)
    (rd : Reader) {count : ℕ} (prefetch : List ℕ) (hgot : got.length ≤ count) :
    ∃ c₂ got₂, CacheOk cfg inodes c₂ (got₂ ++ others) ∧ Advance cfg c c₂ ∧ Takes c c₂ ∧
      got₂.length ≤ count ∧
      (got₂.length < count → c₂.freeLRU = [] ∧ c₂.cleanLRU = []) ∧
      c.allocateDataCacheLines cfg inodes ans r rd count prefetch got =
        if c₂.fatal then c₂
        else if got₂.length = count then c₂.setReader r { rd with pc := .allocated prefetch got₂ }
        else
          match c₂.inboundLRU with
          | [] => { c₂ with fatal := true }
          | l :: _ =>
              (c₂.updLine l fun t => { t with waiters := t.waiters ++ [r] }).setReader r
                { rd with pc := .allocating count prefetch got₂, waits := rd.waits + 1 } := by
  rcases hfree : DataCache.takeFree (count - got.length) c got with ⟨c₁, got₁⟩
  obtain ⟨h₁, hadv₁, htakes₁, hle₁, hlt₁⟩ := h.takeFree _ hfree
  rcases hclean : DataCache.takeClean cfg inodes ans (count - got₁.length) c₁ got₁ with ⟨c₂, got₂⟩
  obtain ⟨h₂, hadv₂, htakes₂, hfree₂, hge₂, hle₂, hlt₂⟩ := h₁.takeClean _ hclean
  refine ⟨c₂, got₂, h₂, hadv₁.trans hadv₂, htakes₁.trans htakes₂, by omega, fun hshort => ?_, ?_⟩
  · refine ⟨?_, hlt₂ (by omega)⟩
    rw [hfree₂]
    exact hlt₁ (by omega)
  · exact allocateDataCacheLines_eq hfree hclean

/-! ### Freeing lines -/

theorem punchHoleDisk_of_none (cfg : CacheConfig) (ans : DiskAnswers)
    (hnone : (c.lines l).disk = none) : c.punchHoleDisk cfg ans l = c := by
  unfold DataCache.punchHoleDisk
  rw [hnone]

/-- A line that is freed, and has no backing. -/
theorem freeLine_eq (cfg : CacheConfig) (ans : DiskAnswers) (hnone : (c.lines l).disk = none) :
    c.freeLine cfg ans l =
      { c with
        lines := Function.update c.lines l { c.lines l with
          state := .free
          contentLength := 0
          contentGeneration := (c.lines l).contentGeneration + 1
          inodeNumber := 0
          lineNumber := 0
          fetchFailed := false
          waiters := [] }
        freeLRU := c.freeLRU ++ [l] } := by
  have hpunched : (if cfg.onDisk then c.punchHoleDisk cfg ans l else c) = c := by
    rw [punchHoleDisk_of_none cfg ans hnone, ite_self]
  unfold freeLine
  rw [hpunched]
  simp only [pushFree, setState, DataCache.updLine, Function.update_self, Function.update_idem]

theorem takes_freeLine (cfg : CacheConfig) (ans : DiskAnswers) (hnone : (c.lines l).disk = none) :
    Takes c (c.freeLine cfg ans l) := by
  rw [freeLine_eq cfg ans hnone]
  exact ⟨rfl, rfl, rfl⟩

/-- **`free`** of a line that is on no LRU. -/
theorem CacheOk.freeLine (h : CacheOk cfg inodes c (l :: held)) (ans : DiskAnswers) :
    CacheOk cfg inodes (c.freeLine cfg ans l) held ∧ Advance cfg c (c.freeLine cfg ans l) ∧
      Takes c (c.freeLine cfg ans l) := by
  -- a held line has no fetch, no backing and no entry in the map
  have hmem : l ∈ c.onList (l :: held) .notOnLRU := List.mem_cons_self ..
  have hs := h.state_of_mem hmem
  have hnone := (h.line l).disk_none (.inl (by rw [hs]; nofun))
  have hidle := h.idle (l := l) (by rw [hs]; nofun)
  refine ⟨?_, ?_, takes_freeLine cfg ans hnone⟩
  all_goals
    rw [freeLine_eq cfg ans hnone]
    generalize ht : ({ c.lines l with
      state := .free
      contentLength := 0
      contentGeneration := (c.lines l).contentGeneration + 1
      inodeNumber := 0
      lineNumber := 0
      fetchFailed := false
      waiters := [] } : CacheLine) = t
  · have hch : Changes l c { c with
        lines := Function.update c.lines l t
        freeLRU := c.freeLRU ++ [l] } :=
      ⟨fun _ hne => Function.update_of_ne hne _ _, fun _ _ => rfl⟩
    have hself : (Function.update c.lines l t) l = t := Function.update_self _ _ _
    have hstate : t.state = .free := by rw [← ht]
    have hnot : ¬(c.lines l).Listed := CacheLine.not_listed (.inl hs)
    refine h.change (h.lt_of_mem hmem) hch ?_ ?_
      (h.mapped.keep hch rfl ?_ fun hlist => absurd hlist hnot)
      (h.disk.congr (SameDisk.of_line (l := l) hch.lines ?_ (fun hd => ?_) rfl rfl rfl rfl))
    · show OnLists _ (Function.update _ l (Function.update c.lines l t l).state) _
      rw [hself, hstate]
      refine h.lists.move (h.lists.mem_things hmem) hs nofun (List.Perm.refl _) ?_ ?_
      · exact List.perm_append_singleton l _
      · intro s h₁ h₂
        cases s <;> first | rfl | contradiction
    · show LineOk cfg inodes (Function.update c.lines l t l) _
      rw [hself, ← ht]
      exact .of_unlisted hidle nofun hnone
    · show (Function.update c.lines l t l).Listed ↔ _
      rw [hself]
      exact iff_of_false (CacheLine.not_listed (.inr hstate)) hnot
    · show (Function.update c.lines l t l).disk = _
      rw [hself, ← ht]
    · rw [hnone] at hd
      cases hd
  -- the generation grows, so that nobody copies on
  · refine Changes.advance (l := l) ⟨fun _ hne => Function.update_of_ne hne _ _, fun _ _ => rfl⟩
      (.of_lt ?_)
    show _ < (Function.update c.lines l t l).contentGeneration
    rw [Function.update_self, ← ht]
    exact Nat.lt_succ_self _

/-- **`releaseDataCacheLines`** -/
theorem CacheOk.releaseDataCacheLines (ans : DiskAnswers) : ∀ {got : List ℕ} {c : DataCache},
    CacheOk cfg inodes c (got ++ held) →
    CacheOk cfg inodes (c.releaseDataCacheLines cfg ans got) held ∧
      Advance cfg c (c.releaseDataCacheLines cfg ans got) ∧
      Takes c (c.releaseDataCacheLines cfg ans got) := by
  intro got
  induction got with
  | nil => exact fun h => ⟨h, .refl _, .refl _⟩
  | cons l got ih =>
      intro c h
      obtain ⟨h₁, hadv₁, htakes₁⟩ := CacheOk.freeLine h ans
      obtain ⟨h₂, hadv₂, htakes₂⟩ := ih h₁
      exact ⟨h₂, hadv₁.trans hadv₂, htakes₁.trans htakes₂⟩

/-- The eviction of a line whose fetch has failed. -/
theorem CacheOk.evict (h : CacheOk cfg inodes c held) (ans : DiskAnswers) {i n : ℕ}
    (hentry : c.cacheMap i n = some l) (hclean : (c.lines l).state = .clean)
    (hfailed : (c.lines l).fetchFailed = true) :
    CacheOk cfg inodes (((c.setCacheMap i n none).popClean l).freeLine cfg ans l) held ∧
      Advance cfg c (((c.setCacheMap i n none).popClean l).freeLine cfg ans l) ∧
      Takes c (((c.setCacheMap i n none).popClean l).freeLine cfg ans l) := by
  obtain ⟨hl, hi, hn, hstate⟩ := h.cached hentry
  have hmem : l ∈ c.cleanLRU := (h.lists.mem .clean l).mpr ⟨Finset.mem_range.mpr hl, hclean⟩
  -- a line whose fetch has failed has no backing
  have hnone := (h.line l).disk_none (.inr (.inl hfailed))
  generalize hc₁ : (c.setCacheMap i n none).popClean l = c₁
  have hself : c₁.lines l = { c.lines l with state := .notOnLRU } := by
    rw [← hc₁]
    exact Function.update_self _ _ _
  have hch : Changes l c c₁ := by
    rw [← hc₁]
    exact ⟨fun _ hne => Function.update_of_ne hne _ _, fun _ _ => rfl⟩
  have htakes : Takes c c₁ := by
    rw [← hc₁]
    exact ⟨rfl, rfl, rfl⟩
  have h₁ : CacheOk cfg inodes c₁ (l :: held) := by
    refine h.unlist hmem hch ?_ ?_ ?_ (fun i' n' => ?_) ?_ ?_ ?_ (h.disk.congr
      (SameDisk.of_line (l := l) hch.lines ?_ (fun _ => ?_) ?_ ?_ ?_ ?_))
    · rw [← hc₁]
      rfl
    · rw [← hc₁]
      rfl
    · rw [← hc₁]
      rfl
    · rw [hi, hn, ← cacheMap_setCacheMap c i n none i' n', ← hc₁]
      rfl
    · rw [hself]
    · rw [hself]
    · rw [hself]
      exact hnone
    · rw [hself]
    · rw [hself]
      exact ⟨rfl, rfl⟩
    all_goals rw [← hc₁]; rfl
  -- nobody copies from a line whose fetch has failed
  have hadv : Advance cfg c c₁ := by
    refine hch.advance ?_
    have harena : c₁.arena l = c.arena l := by rw [← hc₁]; rfl
    rw [hself, harena]
    refine ⟨le_rfl, fun _ _ _ => ⟨nofun, rfl⟩, fun _ _ _ hf => ?_⟩
    rw [hfailed] at hf
    cases hf
  obtain ⟨h₂, hadv₂, htakes₂⟩ := h₁.freeLine ans
  exact ⟨h₂, hadv.trans hadv₂, htakes.trans htakes₂⟩

/-! ### Assigning lines -/

/-- An assigned line is inbound, of the next generation and on the inbound list. -/
theorem assignLine_eq (c : DataCache) (inode n : ℕ) (ws : List ℕ) (l : ℕ) :
    c.assignLine inode n ws l =
      { c with
        lines := Function.update c.lines l { c.lines l with
          state := .inbound
          waiters := ws
          contentLength := 0
          contentGeneration := (c.lines l).contentGeneration + 1
          inodeNumber := inode
          lineNumber := n
          fetch := .started }
        cacheMap := (c.setCacheMap inode n (some l)).cacheMap
        inboundCacheLineCount := Function.update c.inboundCacheLineCount inode
          (c.inboundCacheLineCount inode + 1)
        inboundLRU := c.inboundLRU ++ [l] } := by
  unfold assignLine
  simp only [pushInbound, setState, setCacheMap, DataCache.updLine, Function.update_self,
    Function.update_idem]

/-- **A held line becomes an inbound line.** -/
theorem CacheOk.assignLine (h : CacheOk cfg inodes c (l :: held)) {inode n : ℕ}
    (hfresh : c.cacheMap inode n = none) (hinode : (inodes inode).isSome) (ws : List ℕ) :
    CacheOk cfg inodes (c.assignLine inode n ws l) held ∧
      Advance cfg c (c.assignLine inode n ws l) := by
  -- a held line has no fetch, no backing and no entry in the map
  have hmem : l ∈ c.onList (l :: held) .notOnLRU := List.mem_cons_self ..
  have hs := h.state_of_mem hmem
  have hnone := (h.line l).disk_none (.inl (by rw [hs]; nofun))
  have hnot : ¬(c.lines l).Listed := CacheLine.not_listed (.inl hs)
  rw [assignLine_eq]
  generalize ht : ({ c.lines l with
    state := .inbound
    waiters := ws
    contentLength := 0
    contentGeneration := (c.lines l).contentGeneration + 1
    inodeNumber := inode
    lineNumber := n
    fetch := .started } : CacheLine) = t
  have hself : (Function.update c.lines l t) l = t := Function.update_self _ _ _
  have hstate : t.state = .inbound := by rw [← ht]
  generalize hc' : ({ c with
    lines := Function.update c.lines l t
    cacheMap := (c.setCacheMap inode n (some l)).cacheMap
    inboundCacheLineCount := Function.update c.inboundCacheLineCount inode
      (c.inboundCacheLineCount inode + 1)
    inboundLRU := c.inboundLRU ++ [l] } : DataCache) = c'
  have hline : c'.lines l = t := by
    rw [← hc']
    exact hself
  have hch : Changes l c c' := by
    rw [← hc']
    exact ⟨fun _ hne => Function.update_of_ne hne _ _, fun _ _ => rfl⟩
  constructor
  · refine h.change (h.lt_of_mem hmem) hch ?_ ?_
      (h.mapped.add hch (h.lt_of_mem hmem) hfresh ?_ ?_ ?_ ?_ hinode hnot)
      (h.disk.congr (SameDisk.of_line (l := l) hch.lines ?_ (fun hd => ?_) ?_ ?_ ?_ ?_))
    · rw [hline, hstate]
      refine h.lists.move (h.lists.mem_things hmem) hs nofun (List.Perm.refl _) ?_ ?_
      · rw [← hc']
        exact List.perm_append_singleton l _
      · intro s h₁ h₂
        rw [← hc']
        cases s <;> first | rfl | contradiction
    · rw [hline, ← ht]
      refine ⟨fun _ => rfl, nofun, nofun, nofun, fun hd => ?_⟩
      rw [hnone] at hd
      cases hd
    · intro i n'
      rw [← hc']
      exact cacheMap_setCacheMap _ _ _ _ _ _
    · rw [hline]
      exact .inl hstate
    · rw [hline, ← ht]
    · rw [hline, ← ht]
    · rw [hline, ← ht]
    · rw [hnone] at hd
      cases hd
    all_goals rw [← hc']
  -- the generation grows, so that nobody copies on
  · refine hch.advance (.of_lt ?_)
    rw [hline, ← ht]
    exact Nat.lt_succ_self _

/-- The loop over the lines to prefetch. -/
theorem CacheOk.assignPrefetch {inode : ℕ} (hinode : (inodes inode).isSome) :
    ∀ {prefetch : List ℕ} {c c' : DataCache} {got left : List ℕ},
    CacheOk cfg inodes c (got ++ held) → assignPrefetch inode prefetch c got = (c', left) →
    CacheOk cfg inodes c' (left ++ held) ∧ Advance cfg c c' ∧ c'.readers = c.readers ∧
      c'.fatal = c.fatal := by
  intro prefetch
  induction prefetch with
  | nil =>
      intro c c' got left h heq
      obtain ⟨rfl, rfl⟩ := Prod.mk.inj heq
      exact ⟨h, .refl _, rfl, rfl⟩
  | cons n prefetch ih =>
      intro c c' got left h heq
      cases got with
      | nil =>
          obtain ⟨rfl, rfl⟩ := Prod.mk.inj heq
          exact ⟨h, .refl _, rfl, rfl⟩
      | cons l got =>
          rw [DataCache.assignPrefetch] at heq
          split at heq
          · exact ih h heq
          · rename_i hnone
            have hfresh : c.cacheMap inode n = none := Option.not_isSome_iff_eq_none.mp hnone
            obtain ⟨h₁, hadv₁⟩ := CacheOk.assignLine h hfresh hinode []
            obtain ⟨h₂, hadv₂, hreaders, hfatal⟩ := ih h₁ heq
            refine ⟨h₂, hadv₁.trans hadv₂, hreaders.trans ?_, hfatal.trans ?_⟩
            · rw [assignLine_eq]
            · rw [assignLine_eq]

/-! ### Fetching -/

/-- **The first section of `fetch`**, whose inode is there. -/
theorem CacheOk.fetchBegin (h : CacheOk cfg inodes c held) (ans : DiskAnswers)
    (hfetch : (c.lines l).fetch = .started) :
    CacheOk cfg inodes (c.fetchBegin cfg inodes ans l) held ∧
      Advance cfg c (c.fetchBegin cfg inodes ans l) ∧ Takes c (c.fetchBegin cfg inodes ans l) := by
  obtain ⟨hl, hs, -, hnone, hinode⟩ := h.fetching (l := l) (by rw [hfetch]; nofun)
  obtain ⟨info, hinfo⟩ := Option.isSome_iff_exists.mp hinode
  unfold DataCache.fetchBegin
  rw [hinfo]
  dsimp only
  refine ⟨h.updLine hl rfl rfl rfl rfl ⟨fun _ => hs, fun i n heq => ?_, nofun, fun hclean => ?_,
    (h.line l).disk⟩, (changes_updLine c l _).advance ?_, ⟨rfl, rfl, rfl⟩⟩
  · obtain ⟨rfl, rfl⟩ := FetchState.reading.inj heq
    exact ⟨rfl, rfl⟩
  · exact absurd (hs.symm.trans hclean) nofun
  · refine .of_inbound hs ?_
    rw [lines_updLine_self]

/-- **The backend answers.** -/
theorem CacheOk.fetchAnswer (h : CacheOk cfg inodes c held) {i n : ℕ}
    (hfetch : (c.lines l).fetch = .reading i n) {buf : Option (List UInt8)}
    (hbuf : ∀ bytes, buf = some bytes → bytes = backendLine cfg inodes i n) :
    CacheOk cfg inodes (c.fetchAnswer cfg l buf) held ∧ Advance cfg c (c.fetchAnswer cfg l buf) ∧
      Takes c (c.fetchAnswer cfg l buf) := by
  obtain ⟨hl, hs, -, hnone, -⟩ := h.fetching (l := l) (by rw [hfetch]; nofun)
  obtain ⟨rfl, rfl⟩ := (h.line l).reading i n hfetch
  have hclean : (c.lines l).state ≠ .clean := by
    rw [hs]
    nofun
  -- the answer is remembered; the bytes are not in the arena yet
  have hanswered : ∀ buf', (∀ bytes, buf' = some bytes → bytes = (c.lines l).wanted cfg inodes ∧
      cfg.onDisk = true) → CacheOk cfg inodes
        (c.updLine l fun t => { t with fetch := .answered buf' })
        held := by
    intro buf' hbuf'
    refine h.updLine hl rfl rfl rfl rfl ⟨fun _ => hs, nofun, fun bytes heq => ?_,
      fun hc => absurd hc hclean, (h.line l).disk⟩
    obtain ⟨hwanted, hdisk⟩ := hbuf' bytes (FetchState.answered.inj heq)
    refine ⟨hwanted, fun hram => ?_⟩
    rw [hdisk] at hram
    cases hram
  have hadv : ∀ buf', Advance cfg c (c.updLine l fun t => { t with fetch := .answered buf' }) := by
    intro buf'
    refine (changes_updLine c l _).advance (.of_inbound hs ?_)
    rw [lines_updLine_self]
  rcases buf with - | bytes
  · exact ⟨hanswered none nofun, hadv none, ⟨rfl, rfl, rfl⟩⟩
  have hbytes : bytes = (c.lines l).wanted cfg inodes := hbuf bytes rfl
  unfold DataCache.fetchAnswer
  dsimp only
  split
  · rename_i hdisk
    refine ⟨hanswered (some bytes) fun b hb => ⟨?_, hdisk⟩, hadv _, ⟨rfl, rfl, rfl⟩⟩
    exact (Option.some.inj hb).symm.trans hbytes
  · have hmin : min cfg.cacheLineSize bytes.length = bytes.length := by
      rw [hbytes]
      exact Nat.min_eq_right (CacheLine.length_wanted_le _)
    rw [hmin, List.take_length]
    generalize hc' : ({ (c.updLine l fun t => { t with fetch := .answered (some bytes) }).updLine l
      (fun t => { t with contentLength := bytes.length }) with
        arena := Function.update c.arena l (bytes ++ (c.arena l).drop bytes.length) } :
      DataCache) = c'
    have hself : c'.lines l = { c.lines l with
        fetch := .answered (some bytes)
        contentLength := bytes.length } := by
      rw [← hc']
      simp only [DataCache.updLine, Function.update_self]
    have harena : c'.arena l = bytes ++ (c.arena l).drop bytes.length := by
      rw [← hc']
      exact Function.update_self _ _ _
    have hch : Changes l c c' := by
      rw [← hc']
      refine ⟨fun l' hne => ?_, fun l' hne => Function.update_of_ne hne _ _⟩
      simp only [DataCache.updLine, Function.update_of_ne hne]
    refine ⟨?_, hch.advance (.of_inbound hs ?_), ?_⟩
    · refine h.change hl hch ?_ ?_ (h.mapped.keep hch ?_ ?_ fun _ => ?_)
        (h.disk.congr (SameDisk.of_line (l := l) hch.lines ?_ (fun _ => ?_) ?_ ?_ ?_ ?_))
      · have hsame : (c'.lines l).state = (fun l => (c.lines l).state) l := by rw [hself]
        rw [hsame, Function.update_eq_self, ← hc']
        exact h.lists
      · rw [hself, harena]
        refine ⟨fun _ => hs, nofun, fun b hb => ?_, fun hc => absurd hc hclean, (h.line l).disk⟩
        obtain rfl := Option.some.inj (FetchState.answered.inj hb)
        exact ⟨hbytes, fun _ => ⟨rfl, List.take_left' rfl⟩⟩
      · rw [← hc']
        rfl
      · rw [hself]
        exact Iff.rfl
      · rw [hself]
        exact ⟨rfl, rfl⟩
      · rw [hself]
      · rw [hself]
        exact ⟨rfl, rfl⟩
      all_goals rw [← hc']; rfl
    · rw [hself]
    · rw [← hc']
      exact ⟨rfl, rfl, rfl⟩

/-- The backend returns exactly the requested line, or an error. -/
theorem CacheOk.fetchAnswer_backend (h : CacheOk cfg inodes c held) {i n : ℕ} (succeeds : Bool)
    (hfetch : (c.lines l).fetch = .reading i n) :
    CacheOk cfg inodes (c.fetchAnswer cfg l
        (if succeeds then some (backendLine cfg inodes i n) else none)) held ∧
      Advance cfg c (c.fetchAnswer cfg l
        (if succeeds then some (backendLine cfg inodes i n) else none)) ∧
      Takes c (c.fetchAnswer cfg l
        (if succeeds then some (backendLine cfg inodes i n) else none)) := by
  refine h.fetchAnswer hfetch fun bytes hbytes => ?_
  split at hbytes
  · exact (Option.some.inj hbytes).symm
  · cases hbytes

/-- The content that `fetch` stores: the whole line, or a failure. -/
theorem storeFetched_spec {b : DataCache} (hdisk : DiskOk cfg inodes b) (ans : DiskAnswers)
    (hl : l < cfg.cacheLines) (hnone : (b.lines l).disk = none)
    (hfresh : ∀ l' d, (b.lines l').disk = some d →
      (b.lines l').inodeNumber = (b.lines l).inodeNumber →
      (b.lines l').lineNumber ≠ (b.lines l).lineNumber)
    {buf : Option (List UInt8)}
    (hbuf : ∀ bytes, buf = some bytes → (b.lines l).wanted cfg inodes = bytes ∧
      (cfg.onDisk = false → (b.lines l).contentLength = bytes.length)) :
    ∃ place len failed, DiskOnly
        { b with
          lines := Function.update b.lines l { b.lines l with
            contentLength := len
            fetchFailed := failed
            disk := place } } (b.storeFetched cfg ans l buf) ∧
      DiskOk cfg inodes (b.storeFetched cfg ans l buf) ∧
      (buf = none → failed = true) ∧
      (failed = false → len = ((b.lines l).wanted cfg inodes).length ∧
        (cfg.onDisk = true → (b.lines l).wanted cfg inodes ≠ [] → place.isSome)) ∧
      (place.isSome → failed = false ∧ cfg.onDisk = true) := by
  rcases buf with - | bytes
  -- the fetch has failed
  · refine ⟨none, 0, true, ⟨b.files, b.fileOpen, b.inodeDiskCacheFiles, b.nextFile, ?_⟩,
      ?_, fun _ => rfl, nofun, nofun⟩
    · rw [← hnone]
      rfl
    · show DiskOk cfg inodes
        (b.updLine l fun t => { t with contentLength := 0, fetchFailed := true })
      exact hdisk.updLine rfl rfl rfl
  obtain ⟨hwanted, hlen⟩ := hbuf bytes rfl
  unfold storeFetched
  dsimp only
  split
  -- to the disk: an empty line, or one that could not be stored, counts as failed
  · rename_i hon
    obtain ⟨c', place, n, heq, honly, hstored, hok⟩ :=
      hdisk.storeContentDisk ans hl hnone hfresh hwanted
    rw [heq]
    dsimp only
    obtain ⟨f, o, i, x, rfl⟩ := honly.eq
    refine ⟨place, n, decide (bytes ≠ [] ∧ n = 0), ⟨f, o, i, x, ?_⟩, ?_, nofun, fun hfailed => ?_,
      fun hplace => ?_⟩
    · simp only [DataCache.updLine, Function.update_self, Function.update_idem]
    · exact hok.updLine rfl rfl rfl
    · rw [hwanted]
      cases hstored with
      | whole p hne => exact ⟨rfl, fun _ _ => rfl⟩
      | nothing =>
          have hempty : bytes = [] := by simpa using hfailed
          rw [hempty]
          exact ⟨rfl, fun _ hne => absurd rfl hne⟩
    · cases hstored with
      | whole p hne => exact ⟨by simp [hne], hon⟩
      | nothing => cases hplace
  -- in memory nothing can fail
  · rename_i hon
    have hram : cfg.onDisk = false := Bool.eq_false_iff.mpr hon
    refine ⟨none, (b.lines l).contentLength, false,
      ⟨b.files, b.fileOpen, b.inodeDiskCacheFiles, b.nextFile, ?_⟩, ?_, nofun, fun _ => ?_, nofun⟩
    · rw [← hnone]
      rfl
    · exact hdisk.updLine rfl rfl rfl
    · rw [hwanted]
      exact ⟨hlen hram, fun hd => absurd hd hon⟩

/-- **The second section of `fetch`**: an inbound line becomes a clean one. -/
theorem CacheOk.fetchEnd (h : CacheOk cfg inodes c held) (ans : DiskAnswers)
    {buf : Option (List UInt8)} (hfetch : (c.lines l).fetch = .answered buf) :
    CacheOk cfg inodes (c.fetchEnd cfg inodes ans l buf) held ∧
      Advance cfg c (c.fetchEnd cfg inodes ans l buf) ∧
      (c.fetchEnd cfg inodes ans l buf).fatal = c.fatal ∧
      ((c.fetchEnd cfg inodes ans l buf).lines l).state = .clean ∧
      (buf = none → ((c.fetchEnd cfg inodes ans l buf).lines l).fetchFailed = true) ∧
      (c.fetchEnd cfg inodes ans l buf).cacheMap = c.cacheMap ∧
      ((c.fetchEnd cfg inodes ans l buf).readers = (c.notifyWaiters l).readers) := by
  obtain ⟨hl, hs, hmem, hnone, hinode⟩ := h.fetching (l := l) (by simp [hfetch])
  obtain ⟨info, hinfo⟩ := Option.isSome_iff_exists.mp hinode
  obtain ⟨hself, -⟩ := h.mapped.listed l (.inl hs)
  unfold DataCache.fetchEnd
  rw [hinfo]
  dsimp only
  -- the line off the Inbound LRU, with its new generation
  generalize hb : (({ c with
    inboundCacheLineCount := Function.update c.inboundCacheLineCount (c.lines l).inodeNumber
      (c.inboundCacheLineCount (c.lines l).inodeNumber - 1) }.popInbound l).updLine l fun t =>
        { t with contentGeneration := t.contentGeneration + 1, fetch := .idle }) = b
  have hline : b.lines l = { c.lines l with
      state := .notOnLRU
      contentGeneration := (c.lines l).contentGeneration + 1
      fetch := .idle } := by
    rw [← hb]
    simp only [DataCache.updLine, popInbound, setState, Function.update_self]
  have hother : ∀ l', l' ≠ l → b.lines l' = c.lines l' := by
    intro l' hne
    rw [← hb]
    simp only [DataCache.updLine, popInbound, setState, Function.update_of_ne hne]
  have hdisk : DiskOk cfg inodes b := by
    refine h.disk.congr (SameDisk.of_line (l := l) hother ?_ (fun hd => ?_) ?_ ?_ ?_ ?_)
    · rw [hline]
    · rw [hnone] at hd
      cases hd
    all_goals rw [← hb]; rfl
  have hwanted : (b.lines l).wanted cfg inodes = (c.lines l).wanted cfg inodes := by
    rw [hline]
    rfl
  -- no other line has the same bytes on the disk
  have hfresh : ∀ l' d, (b.lines l').disk = some d →
      (b.lines l').inodeNumber = (b.lines l).inodeNumber →
      (b.lines l').lineNumber ≠ (b.lines l).lineNumber := by
    intro l' d hd hi hn
    have hne : l' ≠ l := by
      rintro rfl
      rw [hline, hnone] at hd
      cases hd
    rw [hother l' hne] at hd hi hn
    rw [hline] at hi hn
    have hclean := ((h.line l').disk (by rw [hd]; rfl)).1
    have hentry := (h.mapped.listed l' (.inr hclean)).1
    rw [hi, hn, hself] at hentry
    exact hne (Option.some.inj hentry).symm
  have hbuf : ∀ bytes, buf = some bytes → (b.lines l).wanted cfg inodes = bytes ∧
      (cfg.onDisk = false → (b.lines l).contentLength = bytes.length) := by
    rintro bytes rfl
    obtain ⟨hbytes, hram⟩ := (h.line l).answered bytes hfetch
    refine ⟨hwanted.trans hbytes.symm, fun hr => ?_⟩
    rw [hline]
    exact (hram hr).1
  have hnone' : (b.lines l).disk = none := by rw [hline]; exact hnone
  obtain ⟨place, len, failed, honly, hok, hfailed, hstored, hplace⟩ :=
    storeFetched_spec hdisk ans hl hnone' hfresh hbuf
  obtain ⟨f, o, i, x, heq⟩ := honly.eq
  generalize b.storeFetched cfg ans l buf = st at heq hok
  have hst : st.lines l = { b.lines l with
      contentLength := len
      fetchFailed := failed
      disk := place } := by
    rw [heq]
    exact Function.update_self _ _ _
  generalize hc' : (st.pushClean l).notifyWaiters l = c'
  have hline' : c'.lines l = { st.lines l with state := .clean, waiters := [] } := by
    rw [← hc']
    simp only [DataCache.notifyWaiters, pushClean, setState, DataCache.updLine,
      Function.update_self]
  have hch : Changes l c c' := by
    refine ⟨fun l' hne => ?_, fun l' _ => ?_⟩
    · rw [← hother l' hne, ← hc']
      simp only [DataCache.notifyWaiters, pushClean, setState, DataCache.updLine,
        Function.update_of_ne hne, heq]
    · rw [← hc', heq, ← hb]
      rfl
  have harena : c'.arena l = c.arena l := by
    rw [← hc', heq, ← hb]
    rfl
  have hmap : c'.cacheMap = c.cacheMap := by
    rw [← hc', heq, ← hb]
    rfl
  have hinode' : (c'.lines l).inodeNumber = (c.lines l).inodeNumber := by
    rw [hline', hst, hline]
  have hnumber' : (c'.lines l).lineNumber = (c.lines l).lineNumber := by
    rw [hline', hst, hline]
  have hwanted' : (c'.lines l).wanted cfg inodes = (c.lines l).wanted cfg inodes := by
    rw [CacheLine.wanted, CacheLine.wanted, hinode', hnumber']
  have hstate' : (c'.lines l).state = .clean := by rw [hline']
  refine ⟨?_, hch.advance (.of_lt ?_), ?_, hstate', fun hbuf => ?_, hmap, ?_⟩
  · refine h.change hl hch ?_ ?_ (h.mapped.keep hch hmap ?_ fun _ => ⟨hinode', hnumber'⟩) ?_
    · rw [hstate']
      refine h.lists.move (Finset.mem_range.mpr hl) hs (by simp) ?_ ?_ ?_
      · show c.inboundLRU.Perm (l :: c'.inboundLRU)
        have : c'.inboundLRU = c.inboundLRU.erase l := by
          rw [← hc', heq, ← hb]
          rfl
        rw [this]
        exact List.perm_cons_erase hmem
      · show c'.cleanLRU.Perm (l :: c.cleanLRU)
        have : c'.cleanLRU = c.cleanLRU ++ [l] := by
          rw [← hc', heq, ← hb]
          rfl
        rw [this]
        exact List.perm_append_singleton l _
      · intro s h₁ h₂
        rw [← hc', heq, ← hb]
        cases s <;> first | rfl | contradiction
    · refine ⟨fun hf => ?_, fun i n hf => ?_, fun bytes hf => ?_, fun _ hf => ?_, fun hd => ?_⟩
      · rw [hline', hst, hline] at hf
        exact absurd rfl hf
      · rw [hline', hst, hline] at hf
        cases hf
      · rw [hline', hst, hline] at hf
        cases hf
      · rw [hwanted', harena]
        have hf' : failed = false := by
          rw [hline', hst] at hf
          exact hf
        obtain ⟨hlen, hbacked⟩ := hstored hf'
        rw [hwanted] at hlen hbacked
        refine ⟨?_, fun hram => ?_, fun hd hne => ?_⟩
        · rw [hline', hst]
          exact hlen
        · -- the answer was not an error, so its bytes are in the arena
          rcases buf with - | bytes
          · rw [hfailed rfl] at hf'
            cases hf'
          · obtain ⟨hbytes, hstore⟩ := (h.line l).answered bytes hfetch
            rw [← hbytes]
            exact (hstore hram).2
        · rw [hline', hst]
          exact hbacked hd hne
      · rw [hline', hst] at hd
        obtain ⟨hf, hdk⟩ := hplace hd
        refine ⟨hstate', ?_, hdk⟩
        rw [hline', hst]
        exact hf
    · rw [CacheLine.Listed, CacheLine.Listed, hstate', hs]
      exact iff_of_true (.inr rfl) (.inl rfl)
    · refine hok.congr (SameDisk.of_line (l := l) (fun l' hne => ?_) ?_ (fun _ => ?_) ?_ ?_ ?_ ?_)
      · rw [← hc']
        simp only [DataCache.notifyWaiters, pushClean, setState, DataCache.updLine,
          Function.update_of_ne hne]
      · rw [hline']
      · rw [hline']
        exact ⟨rfl, rfl⟩
      all_goals rw [← hc']; rfl
  · rw [hline', hst, hline]
    exact Nat.lt_succ_self _
  · rw [← hc', heq, ← hb]
    rfl
  · rw [hline', hst]
    exact hfailed hbuf
  · have hwaiters : ((st.pushClean l).lines l).waiters = (c.lines l).waiters := by
      simp only [pushClean, setState, DataCache.updLine, Function.update_self, hst, hline]
    rw [← hc']
    show List.foldl _ (st.pushClean l).readers ((st.pushClean l).lines l).waiters = _
    rw [hwaiters, heq, ← hb]
    rfl

end DataCache

end MultiStorageFileSystem
