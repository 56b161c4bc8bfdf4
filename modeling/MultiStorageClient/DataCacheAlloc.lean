/-
MultiStorageClient/DataCacheAlloc.lean

When `allocateDataCacheLines` ends the process.

A reader that has got some of its lines keeps them while it waits, and between
`allocateDataCacheLines` and the section that assigns them; these lines are on
no LRU.  With no line inbound, the Free and the Clean LRU have what the other
readers leave, and the `Fatalf` is reached exactly where that is too little
(`fatal_allocate_iff`).
-/
import MultiStorageClient.DataCacheReads

namespace MultiStorageFileSystem

open Run

variable {cfg : CacheConfig} {inodes : ℕ → Option InodeInfo}

instance : Fintype LineState where
  elems := {.notOnLRU, .free, .inbound, .clean}
  complete s := by cases s <;> decide

namespace DataCache

variable {c c' : DataCache} {rd : Reader} {r : ℕ} {reads : List ReadIn} {held got others : List ℕ}

/-! ### Requests -/

/-- The lines that a reader asks for at the head of its loop. -/
def missRequest (cfg : CacheConfig) (inodes : ℕ → Option InodeInfo) (c : DataCache) (rd : Reader) :
    Option (ℕ × List ℕ) :=
  if rd.readIn.size ≤ rd.data.length then none
  else
    match c.checkRead inodes rd.readIn with
    | .error _ => none
    | .ok info =>
        if info.content.length ≤ rd.curOffset then none
        else
          match c.cacheMap rd.readIn.inode (rd.curOffset / cfg.cacheLineSize) with
          | none => some (1 + (c.prefetchCacheLineNumbers cfg rd.readIn.inode info.content.length
              (rd.curOffset / cfg.cacheLineSize)).length, [])
          | some _ => none

/-- The lines that a step asks `allocateDataCacheLines` for, with those that
the reader has got before. -/
def request (cfg : CacheConfig) (inodes : ℕ → Option InodeInfo) (c : DataCache) :
    CacheStep → Option (ℕ × List ℕ)
  | .read r _ => do
      let rd ← c.readers[r]?
      match rd.pc with
      | .loop => c.missRequest cfg inodes rd
      | _ => none
  | .allocate r _ => do
      let rd ← c.readers[r]?
      match rd.pc with
      | .allocating count _ got => some (count, got)
      | _ => none
  | _ => none

/-- A line is inbound, or the lines that are asked for are there besides
those of the other readers. -/
def LinesLeft (cfg : CacheConfig) (inodes : ℕ → Option InodeInfo) (c : DataCache)
    (a : CacheStep) : Prop :=
  ∀ count got, c.request cfg inodes a = some (count, got) →
    c.inboundLRU ≠ [] ∨ count + (heldLines c.readers).length ≤ cfg.cacheLines + got.length

/-! ### Counting the lines -/

/-- Every line is on one LRU or held. -/
theorem CacheOk.card (h : CacheOk cfg inodes c held) :
    held.length + (c.freeLRU.length + (c.inboundLRU.length + c.cleanLRU.length)) =
      cfg.cacheLines := by
  have hcard := h.lists.card
  rw [Finset.card_range] at hcard
  rw [← hcard]
  show _ = ∑ s ∈ ({.notOnLRU, .free, .inbound, .clean} : Finset LineState), _
  rw [Finset.sum_insert (by decide), Finset.sum_insert (by decide), Finset.sum_insert (by decide),
    Finset.sum_singleton]
  rfl

/-- **A turn of `allocateDataCacheLines`** ends the process exactly where no
line is inbound and the other readers have left too few. -/
theorem fatal_allocate_iff (h : CacheOk cfg inodes c (got ++ others)) (hfatal : c.fatal = false)
    (ans : DiskAnswers) {count : ℕ} (prefetch : List ℕ) (hgot : got.length ≤ count) :
    (c.allocateDataCacheLines cfg inodes ans r rd count prefetch got).fatal = false ↔
      c.inboundLRU ≠ [] ∨ count + others.length ≤ cfg.cacheLines := by
  obtain ⟨c₂, got₂, h₂, -, htakes, hle, hshort, heq⟩ := h.allocate ans r rd prefetch hgot
  have hcard := h₂.card
  rw [List.length_append] at hcard
  rw [heq, htakes.fatal, hfatal, if_neg Bool.false_ne_true]
  split
  -- all lines are got
  · rename_i hall
    refine iff_of_true ?_ (.inr (by omega))
    show c₂.fatal = false
    rw [htakes.fatal, hfatal]
  · rename_i hnot
    obtain ⟨hfree, hclean⟩ := hshort (by omega)
    rw [← htakes.inboundLRU]
    split
    -- no line is inbound, so all of them are held: the Fatalf
    · rename_i hnone
      rw [hfree, hclean, hnone] at hcard
      refine iff_of_false nofun ?_
      rintro (hin | hfits)
      · exact hin hnone
      · simp only [List.length_nil] at hcard
        omega
    -- the reader waits for the first inbound line
    · rename_i l rest hin
      refine iff_of_true ?_ (.inl ?_)
      · show c₂.fatal = false
        rw [htakes.fatal, hfatal]
      · rw [hin]
        exact List.cons_ne_nil _ _

/-! ### Steps and runs -/

/-- Steps that ask for no lines. -/
theorem linesLeft_of_none {a : CacheStep} (h : c.request cfg inodes a = none) :
    LinesLeft cfg inodes c a := by
  intro count got hreq
  rw [h] at hreq
  cases hreq

/-- Lines are left where one is inbound or the request fits beside what others hold. -/
theorem linesLeft_iff {a : CacheStep} {count : ℕ} (h : c.request cfg inodes a = some (count, got))
    (hperm : (heldLines c.readers).Perm (got ++ others)) :
    LinesLeft cfg inodes c a ↔ c.inboundLRU ≠ [] ∨ count + others.length ≤ cfg.cacheLines := by
  have hlen := hperm.length_eq
  rw [List.length_append] at hlen
  have harith : count + (heldLines c.readers).length ≤ cfg.cacheLines + got.length ↔
      count + others.length ≤ cfg.cacheLines := by omega
  rw [← harith]
  constructor
  · exact fun hleft => hleft count got h
  · intro hleft count' got' hreq
    rw [h] at hreq
    obtain ⟨rfl, rfl⟩ := Prod.mk.inj (Option.some.inj hreq)
    exact hleft

/-- The section at the head of the loop. -/
theorem fatal_readSection_iff (h : ReadsOk cfg inodes inodes reads c) (hfatal : c.fatal = false)
    (hr : c.readers[r]? = some rd) (hpc : rd.pc = .loop) (ans : DiskAnswers) :
    (c.readSection cfg inodes ans r rd).fatal = false ↔ LinesLeft cfg inodes c (.read r ans) := by
  have hreq : c.request cfg inodes (.read r ans) = c.missRequest cfg inodes rd := by
    simp only [request, hr, Option.bind_eq_bind, Option.bind_some, hpc]
  obtain ⟨others, hperm, -⟩ := heldLines_set hr
  have hheld : rd.held = [] := by rw [Reader.held, hpc]
  rw [hheld] at hperm
  have hcache := (h.cache hfatal).held_perm hperm.symm
  unfold missRequest at hreq
  unfold readSection
  split
  -- the read is complete
  · rename_i hsize
    rw [if_pos hsize] at hreq
    exact iff_of_true hfatal (linesLeft_of_none hreq)
  rename_i hsize
  rw [if_neg hsize] at hreq
  rcases hcheck : c.checkRead inodes rd.readIn with errno | info
  · rw [hcheck] at hreq
    exact iff_of_true hfatal (linesLeft_of_none hreq)
  rw [hcheck] at hreq
  dsimp only at hreq ⊢
  split
  -- the read is at the end of the file
  · rename_i heof
    rw [if_pos heof] at hreq
    exact iff_of_true hfatal (linesLeft_of_none hreq)
  rename_i heof
  rw [if_neg heof] at hreq
  rcases hentry : c.cacheMap rd.readIn.inode (rd.curOffset / cfg.cacheLineSize) with - | l
  -- a miss asks for lines
  · rw [hentry] at hreq
    rw [linesLeft_iff hreq hperm]
    exact fatal_allocate_iff hcache hfatal ans _ (Nat.zero_le _)
  -- a hit asks for none
  · rw [hentry] at hreq
    obtain ⟨-, hcontent⟩ := checkRead_ok h.among hcheck
    exact iff_of_true (h.readLine hfatal hr hpc ans hentry (by omega) (by rw [hcontent]; omega)).2
      (linesLeft_of_none hreq)

/-- **One step** ends the process exactly where it finds too few lines. -/
theorem fatal_step_iff {a : CacheStep} (h : ReadsOk cfg inodes inodes reads c)
    (hstep : step cfg inodes c a = some c') : c'.fatal = false ↔ LinesLeft cfg inodes c a := by
  obtain ⟨hfatal, htaken⟩ := taken_of_step hstep
  have hcache := h.cache hfatal
  cases htaken with
  | read ans hr hpc => exact fatal_readSection_iff h hfatal hr hpc ans
  | @allocate r rd count prefetch got ans hr hpc hwaits =>
      obtain ⟨others, hperm, -⟩ := heldLines_set hr
      have hheld : rd.held = got := by rw [Reader.held, hpc]
      rw [hheld] at hperm
      have hreq : c.request cfg inodes (.allocate r ans) = some (count, got) := by
        simp only [request, hr, Option.bind_eq_bind, Option.bind_some, hpc]
      obtain ⟨-, hgot⟩ := (h.data rd (List.mem_of_getElem? hr)).allocating _ _ _ hpc
      rw [linesLeft_iff hreq hperm]
      exact fatal_allocate_iff (hcache.held_perm hperm.symm) hfatal ans prefetch hgot
  | assign ans hr hpc =>
      exact iff_of_true (h.assignSection hfatal hr hpc ans).2 (linesLeft_of_none rfl)
  | wake hr hpc hwaits => exact iff_of_true hfatal (linesLeft_of_none rfl)
  | copy hr hpc => exact iff_of_true (h.copySection hfatal hr hpc).2 (linesLeft_of_none rfl)
  | fetchBegin ans hfetch =>
      obtain ⟨-, -, htakes⟩ := hcache.fetchBegin ans hfetch
      exact iff_of_true (htakes.fatal.trans hfatal) (linesLeft_of_none rfl)
  | @fetchAnswer l i n succeeds hfetch =>
      obtain ⟨-, -, htakes⟩ := hcache.fetchAnswer_backend succeeds hfetch
      exact iff_of_true (htakes.fatal.trans hfatal) (linesLeft_of_none rfl)
  | fetchEnd ans hfetch =>
      obtain ⟨-, -, hsame, -⟩ := hcache.fetchEnd ans hfetch
      exact iff_of_true (hsame.trans hfatal) (linesLeft_of_none rfl)
  | handle inode fh allowReads => exact iff_of_true hfatal (linesLeft_of_none rfl)

/-- A process that has ended takes no more steps. -/
theorem exec_of_fatal {steps : List CacheStep} (hfatal : c.fatal = true)
    (hrun : exec (step cfg inodes) c steps = some c') : c' = c := by
  cases steps with
  | nil => exact (Option.some.inj hrun).symm
  | cons a steps =>
      obtain ⟨c₁, hstep, -⟩ := exec_cons.mp hrun
      rw [step, if_pos hfatal] at hstep
      cases hstep

/-- A run stays clear of the Fatalf where lines are left at each request. -/
theorem fatal_run_iff {steps : List CacheStep} (h : ReadsOk cfg inodes inodes reads c)
    (hfatal : c.fatal = false) (hrun : exec (step cfg inodes) c steps = some c') :
    c'.fatal = false ↔ Always (step cfg inodes) (LinesLeft cfg inodes) c steps := by
  induction steps generalizing c with
  | nil =>
      obtain rfl := Option.some.inj hrun
      exact iff_of_true hfatal trivial
  | cons a steps ih =>
      obtain ⟨c₁, hstep, hrun⟩ := exec_cons.mp hrun
      have hiff := fatal_step_iff h hstep
      have hkeep := h.step hstep
      by_cases hleft : LinesLeft cfg inodes c a
      · rw [ih hkeep (hiff.mpr hleft) hrun]
        constructor
        · intro hrest
          refine ⟨hleft, fun c₂ hstep₂ => ?_⟩
          rw [hstep] at hstep₂
          exact Option.some.inj hstep₂ ▸ hrest
        · exact fun hall => hall.2 c₁ hstep
      · refine iff_of_false ?_ fun hall => hleft hall.1
        have hdead : c₁.fatal = true := by
          by_contra halive
          exact hleft (hiff.mp (Bool.eq_false_iff.mpr halive))
        rw [exec_of_fatal hdead hrun, hdead]
        nofun

/-- **The process lives** exactly as long as every reader that asks for lines
finds one inbound, or finds enough besides those that the other readers
hold. -/
theorem alive_iff_linesLeft {handles : ℕ → ℕ → Option Bool} {steps : List CacheStep}
    (hrun : exec (step cfg inodes) (dataCacheUp cfg reads handles) steps = some c) :
    c.fatal = false ↔
      Always (step cfg inodes) (LinesLeft cfg inodes) (dataCacheUp cfg reads handles) steps :=
  fatal_run_iff (readsOk_dataCacheUp cfg inodes reads handles) rfl hrun

/-- Two readers share one line, one after the other. -/
theorem alive_two_readers : ∃ c,
    exec (step (oneLine .ram) oneObject)
      (dataCacheUp (oneLine .ram) [⟨5, 1, 0, 2⟩, ⟨5, 1, 2, 1⟩] oneHandle)
      (missAndCopy 0 ++ missAndCopy 1) = some c ∧
    c.fatal = false ∧ Always (step (oneLine .ram) oneObject) (LinesLeft (oneLine .ram) oneObject)
      (dataCacheUp (oneLine .ram) [⟨5, 1, 0, 2⟩, ⟨5, 1, 2, 1⟩] oneHandle)
      (missAndCopy 0 ++ missAndCopy 1) := by
  obtain ⟨c, hrun, hfatal⟩ : ∃ c, exec (step (oneLine .ram) oneObject)
      (dataCacheUp (oneLine .ram) [⟨5, 1, 0, 2⟩, ⟨5, 1, 2, 1⟩] oneHandle)
      (missAndCopy 0 ++ missAndCopy 1) = some c ∧ c.fatal = false := exec_exists (by decide +kernel)
  exact ⟨c, hrun, hfatal, (alive_iff_linesLeft hrun).mp hfatal⟩

/-- Two readers, and one line: the first has it and has not assigned it yet. -/
theorem fatal_two_readers : ∃ c,
    exec (step (oneLine .ram) oneObject)
      (dataCacheUp (oneLine .ram) [⟨5, 1, 0, 2⟩, ⟨5, 1, 2, 1⟩] oneHandle)
      [.read 0 goodDisk, .read 1 goodDisk] = some c ∧ c.fatal = true :=
  exec_exists (by decide +kernel)

end DataCache

end MultiStorageFileSystem
