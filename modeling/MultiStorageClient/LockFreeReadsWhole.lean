/-
MultiStorageClient/LockFreeReadsWhole.lean

A copy whose generations agree has the bytes of its line.

A copy goes by the lines as they were when the section in progress began
(`Begun`): each moment of the section has left them intact, or has bumped
them.  A copy that was read inside `free` is the exception, until `free` bumps
its line.

`Behind` asks a little more than that: such a copy is not compared inside a later
`free` of the same line either, where its generations differ anyway.  The answer
of a backend (`fetchAnswer`) is a step between sections, as `fetch` waits for it
without the lock.
-/
import MultiStorageClient.LockFreeMoments

namespace MultiStorageFileSystem

open Slice Run DataCache CachedFiles

variable {cfg : CacheConfig} {objects : ℕ → List UInt8}

/-- The bytes stored for a copy: those of the line of the object that was
snapshotted. -/
def Copy.stored (cfg : CacheConfig) (objects : ℕ → List UInt8) (k : Copy) : List UInt8 :=
  slice k.source.start k.source.length
    (cfg.lineOf (objects k.reader.readIn.inode) (k.reader.curOffset / cfg.cacheLineSize))

/-- What a copy relies on, when the section in progress began at `c`. -/
structure CopyOk (cfg : CacheConfig) (objects : ℕ → List UInt8) (c : DataCache) (now : Moment)
    (k : Copy) : Prop where
  snap : Snap cfg (objectInodes objects) c k.reader k.source
  copied : ∀ bytes, k.copied = some bytes → bytes = some (k.stored cfg objects) ∨
    (k.insideFree = true ∧ now.freeing = some k.source.line) ∨
    k.source.generation < (now.cache.lines k.source.line).contentGeneration

theorem CopyOk.advance {c c' : DataCache} {now : Moment} {k : Copy}
    (h : CopyOk cfg objects c now k) (hadv : Advance cfg c c') : CopyOk cfg objects c' now k :=
  ⟨h.snap.advance hadv, h.copied⟩

/-- The next moment. -/
theorem CopyOk.follows {c : DataCache} {now next : Moment} {k : Copy}
    (h : CopyOk cfg objects c now k)
    (hgen : ∀ l, (c.lines l).contentGeneration ≤ (now.cache.lines l).contentGeneration)
    (hfollows : Follows now next) : CopyOk cfg objects c next k := by
  refine ⟨h.snap, fun bytes hbytes => ?_⟩
  obtain ⟨hle, hfree⟩ := hfollows k.source.line
  rcases h.copied bytes hbytes with hright | ⟨hinside, hfreeing⟩ | hpassed
  · exact .inl hright
  · refine .inr ((hfree hfreeing).imp (fun hstill => ⟨hinside, hstill⟩) fun hlt => ?_)
    exact (h.snap.generation.trans (hgen _)).trans_lt hlt
  · exact .inr (.inr (hpassed.trans_le hle))

namespace LockFreeReads

variable {p p' : LockFreeReads} {f₀ : CachedFiles}

/-- The section in progress, or the last one, has begun at `f₀`. -/
structure Begun (cfg : CacheConfig) (objects : ℕ → List UInt8) (f₀ : CachedFiles)
    (p : LockFreeReads) : Prop where
  files : FilesOk cfg objects f₀
  alive : f₀.cache.fatal = false
  last : (p.now :: p.rest).getLast? = some ⟨p.files.cache, none⟩
  result : p.files.cache.fatal = true ∨
    (FilesOk cfg objects p.files ∧ Advance cfg f₀.cache p.files.cache)
  intact : ∀ m ∈ p.now :: p.rest, m.cache.fatal = false →
    Intact cfg (objectInodes objects) f₀.cache m
  chain : List.IsChain (fun m m' => m'.cache.fatal = false → Follows m m') (p.now :: p.rest)
  copies : ∀ k ∈ p.copies, CopyOk cfg objects f₀.cache p.now k

/-- The invariant of the copies. -/
structure CopiesOk (cfg : CacheConfig) (objects : ℕ → List UInt8) (p : LockFreeReads) : Prop where
  agrees : ∀ k ∈ p.copies, k.agrees = some true → k.copied = some (some (k.stored cfg objects))
  begun : p.now.cache.fatal = false → ∃ f₀, Begun cfg objects f₀ p

/-- Between two sections, what is seen is the cache. -/
theorem Begun.unlocked (h : Begun cfg objects f₀ p) (hrest : p.rest = []) :
    p.now = ⟨p.files.cache, none⟩ := by
  have hlast := h.last
  rw [hrest, List.getLast?_singleton] at hlast
  exact Option.some.inj hlast

/-- Between two sections, the next one may begin. -/
theorem Begun.again (h : Begun cfg objects f₀ p) (hrest : p.rest = [])
    (halive : p.now.cache.fatal = false) : Begun cfg objects p.files p := by
  have hnow := h.unlocked hrest
  have hfatal : p.files.cache.fatal = false := by
    rw [hnow] at halive
    exact halive
  obtain ⟨hfiles, hadv⟩ := h.result.resolve_left (by rw [hfatal]; nofun)
  have hcache := hfiles.reads.cache hfatal
  refine ⟨hfiles, hfatal, h.last, .inr ⟨hfiles, .refl _⟩, fun m hm _ => ?_, h.chain,
    fun k hk => (h.copies k hk).advance hadv⟩
  rw [hrest, List.mem_singleton] at hm
  rw [hm, hnow]
  exact .of_advance hcache hcache (among_inodes objects _) (.refl _) none

/-- **A section is locked** and runs up to the first change that is seen. -/
theorem Begun.lock {f : CachedFiles} {a : FileStep} {m : Moment} {ms : List Moment}
    (h : Begun cfg objects p.files p) (hrest : p.rest = [])
    (hstep : p.files.step cfg objects a = some f)
    (hok : f.cache.fatal = true ∨ FilesOk cfg objects f)
    (hms : m :: ms = p.files.moments cfg objects a ++ [⟨f.cache, none⟩])
    (halive : m.cache.fatal = false) :
    Begun cfg objects p.files { p with files := f, now := m, rest := ms } := by
  have hsection := h.files.section_step hstep hok
  have hfollows : List.IsChain (fun m m' => m'.cache.fatal = false → Follows m m')
      (⟨p.files.cache, none⟩ :: m :: ms) := by
    rw [hms]
    -- the section ends in the Fatalf, or in the cache behind its last moment
    rcases hsection.result with hfatal | ⟨-, hpasses⟩
    · rw [← List.cons_append]
      refine List.isChain_append.mpr ⟨hsection.moments.chain.imp fun _ _ h _ => h,
        List.isChain_singleton _, fun x _ y hy hf => ?_⟩
      rw [List.head?_singleton, Option.mem_some_iff] at hy
      rw [← hy] at hf
      exact absurd (hfatal.symm.trans hf) nofun
    · exact hpasses.chain.imp fun _ _ h _ => h
  obtain ⟨hfirst, hchain⟩ := List.isChain_cons_cons.mp hfollows
  refine ⟨h.files, h.alive, ?_, ?_, fun m' hm' halive' => ?_, hchain, fun k hk => ?_⟩
  · show (m :: ms).getLast? = _
    rw [hms, List.getLast?_concat]
  · rcases hok with hfatal | hok
    · exact .inl hfatal
    · exact hsection.result.imp_right fun hpasses => ⟨hok, hpasses.1⟩
  · change m' ∈ m :: ms at hm'
    rw [hms] at hm'
    rcases List.mem_append.mp hm' with hm' | hm'
    · exact hsection.moments.intact m' hm'
    · rcases hsection.result with hfatal | ⟨-, hpasses⟩
      · rw [List.mem_singleton.mp hm', hfatal] at halive'
        cases halive'
      · exact hpasses.intact m' (List.mem_append_right _ hm')
  · have hcopy := h.copies k hk
    rw [h.unlocked hrest] at hcopy
    exact hcopy.follows (fun _ => le_rfl) (hfirst halive)

/-- **The next change that is seen**. -/
theorem Begun.next {m : Moment} {ms : List Moment} (h : Begun cfg objects f₀ p)
    (hnow : p.now.cache.fatal = false) (hrest : p.rest = m :: ms)
    (halive : m.cache.fatal = false) :
    Begun cfg objects f₀ { p with now := m, rest := ms } := by
  have hlast := h.last
  have hintact := h.intact
  have hchain := h.chain
  rw [hrest] at hlast hintact hchain
  obtain ⟨hfirst, hchain⟩ := List.isChain_cons_cons.mp hchain
  refine ⟨h.files, h.alive, ?_, h.result, fun m' hm' => ?_, hchain, fun k hk => ?_⟩
  · rwa [List.getLast?_cons_cons] at hlast
  · exact hintact m' (List.mem_cons_of_mem _ hm')
  · exact (h.copies k hk).follows (hintact _ (List.mem_cons_self ..) hnow).generation
      (hfirst halive)

/-- Copies come and change. -/
theorem Begun.withCopies {copies : List Copy} (h : Begun cfg objects f₀ p)
    (hcopies : ∀ k ∈ copies, CopyOk cfg objects f₀.cache p.now k) :
    Begun cfg objects f₀ { p with copies := copies } :=
  ⟨h.files, h.alive, h.last, h.result, h.intact, h.chain, hcopies⟩

/-! ### Runs -/

/-- A backend is unmounted only when none of its lines is in the cache, and a
copy that was read inside `free` is not compared before `free` has bumped its
line. -/
def Behind (cfg : CacheConfig) (p : LockFreeReads) : LockFreeStep → Prop
  | .lock s => FileStep.UnmountsNoLines cfg p.files s
  | .reload k =>
      match p.copies[k]? with
      | none => True
      | some copy => ¬(copy.insideFree = true ∧ p.now.freeing = some copy.source.line)
  | _ => True

instance (cfg : CacheConfig) (p : LockFreeReads) (a : LockFreeStep) :
    Decidable (p.Behind cfg a) := by
  cases a with
  | lock s => exact inferInstanceAs (Decidable (FileStep.UnmountsNoLines cfg p.files s))
  | reload k =>
      unfold Behind
      dsimp only
      split
      · infer_instance
      · infer_instance
  | _ => exact inferInstanceAs (Decidable True)

/-- A reader that unlocks. -/
theorem CopiesOk.snapshot {r : ℕ} {rd : Reader} {s : CopySource} (h : CopiesOk cfg objects p)
    (halive : p.now.cache.fatal = false) (hrest : p.rest = [])
    (hr : p.files.cache.readers[r]? = some rd) (hpc : rd.pc = .copying s) :
    CopiesOk cfg objects { p with copies := p.copies ++ [⟨rd, s, none, false, none⟩] } := by
  refine ⟨fun k hk => ?_, fun _ => ?_⟩
  · rcases List.mem_append.mp hk with hk | hk
    · exact h.agrees k hk
    · rw [List.mem_singleton.mp hk]
      nofun
  · obtain ⟨f₀, hbegun⟩ := h.begun halive
    have hagain := hbegun.again hrest halive
    refine ⟨p.files, hagain.withCopies fun k hk => ?_⟩
    rcases List.mem_append.mp hk with hk | hk
    · exact hagain.copies k hk
    · rw [List.mem_singleton.mp hk]
      exact ⟨hagain.files.reads.snap hagain.alive rd (List.mem_of_getElem? hr) s hpc, nofun⟩

/-- **A copy reads its bytes**, from lines that are intact. -/
theorem CopiesOk.copy {k : ℕ} {copy : Copy} (h : CopiesOk cfg objects p)
    (halive : p.now.cache.fatal = false) (hk : p.copies[k]? = some copy)
    (hnone : copy.copied.isNone = true) :
    CopiesOk cfg objects (p.setCopy k { copy with
      copied := some (p.now.cache.copyBytes copy.source)
      insideFree := decide (p.now.freeing = some copy.source.line) }) := by
  refine ⟨fun k' hk' => ?_, fun _ => ?_⟩
  · rcases List.mem_or_eq_of_mem_set hk' with hk' | rfl
    · exact h.agrees k' hk'
    · intro hagree
      rw [h.agrees copy (List.mem_of_getElem? hk) hagree] at hnone
      cases hnone
  · obtain ⟨f₀, hbegun⟩ := h.begun halive
    have hcopy := hbegun.copies copy (List.mem_of_getElem? hk)
    have hintact := hbegun.intact _ (List.mem_cons_self ..) halive
    refine ⟨f₀, hbegun.withCopies fun k' hk' => ?_⟩
    rcases List.mem_or_eq_of_mem_set hk' with hk' | rfl
    · exact hbegun.copies k' hk'
    refine ⟨hcopy.snap, fun bytes hbytes => ?_⟩
    rw [← Option.some.inj hbytes]
    by_cases hfree : p.now.freeing = some copy.source.line
    · exact .inr (.inl ⟨decide_eq_true hfree, hfree⟩)
    · rcases (hcopy.snap.generation.trans (hintact.generation _)).lt_or_eq with hlt | heq
      · exact .inr (.inr hlt)
      · exact .inl (hcopy.snap.copied hintact heq.symm hfree)

/-- **A copy compares its generations**: when they agree, it was not read too
late, and `free` has not bumped its line since. -/
theorem CopiesOk.reload {k : ℕ} {copy : Copy} (h : CopiesOk cfg objects p)
    (halive : p.now.cache.fatal = false) (hk : p.copies[k]? = some copy)
    (hsome : copy.copied.isSome = true)
    (hbehind : ¬(copy.insideFree = true ∧ p.now.freeing = some copy.source.line)) :
    CopiesOk cfg objects (p.setCopy k { copy with
      agrees := some (decide ((p.now.cache.lines copy.source.line).contentGeneration =
        copy.source.generation)) }) := by
  obtain ⟨f₀, hbegun⟩ := h.begun halive
  have hcopy := hbegun.copies copy (List.mem_of_getElem? hk)
  obtain ⟨bytes, hbytes⟩ := Option.isSome_iff_exists.mp hsome
  refine ⟨fun k' hk' => ?_, fun _ => ⟨f₀, hbegun.withCopies fun k' hk' => ?_⟩⟩
  · rcases List.mem_or_eq_of_mem_set hk' with hk' | rfl
    · exact h.agrees k' hk'
    intro hagree
    have heq := of_decide_eq_true (Option.some.inj hagree)
    show copy.copied = _
    rw [hbytes]
    rcases hcopy.copied bytes hbytes with hright | hinside | hpassed
    · exact congrArg some hright
    · exact absurd hinside hbehind
    · exact absurd heq hpassed.ne'
  · rcases List.mem_or_eq_of_mem_set hk' with hk' | rfl
    · exact hbegun.copies k' hk'
    · exact ⟨hcopy.snap, hcopy.copied⟩

/-- **One step**. -/
theorem CopiesOk.step {a : LockFreeStep} (h : CopiesOk cfg objects p)
    (hstep : step cfg objects p a = some p') (hbehind : p.Behind cfg a) :
    CopiesOk cfg objects p' := by
  unfold LockFreeReads.step at hstep
  split at hstep
  · cases hstep
  rename_i hdead
  have halive := Bool.eq_false_iff.mpr hdead
  cases a with
  | lock s =>
      dsimp only [stepAlive] at hstep
      split at hstep
      -- a section begins where none is under way
      · rename_i hrest
        obtain ⟨f, hf, hstep⟩ := Option.bind_eq_some_iff.mp hstep
        obtain ⟨f₀, hbegun⟩ := h.begun halive
        have hagain := hbegun.again hrest halive
        have hok := hagain.files.step hf hbehind
        split at hstep
        -- it has no moments in between
        · rename_i hms
          obtain rfl := Option.some.inj hstep
          refine ⟨h.agrees, fun halive' => ⟨p.files, ?_⟩⟩
          have hend : [⟨f.cache, none⟩] =
              p.files.moments cfg objects s ++ [⟨f.cache, none⟩] := by rw [hms]; rfl
          have hlock := hagain.lock hrest hf hok hend halive'
          rwa [← hrest] at hlock
        -- it begins with its first moment
        · rename_i m ms hms
          obtain rfl := Option.some.inj hstep
          refine ⟨h.agrees, fun halive' => ⟨p.files, ?_⟩⟩
          exact hagain.lock hrest hf hok (by rw [hms]; rfl) halive'
      · cases hstep
  | next =>
      dsimp only [stepAlive] at hstep
      split at hstep
      · cases hstep
      -- the section under way goes on to its next moment
      · rename_i m ms hrest
        obtain rfl := Option.some.inj hstep
        obtain ⟨f₀, hbegun⟩ := h.begun halive
        exact ⟨h.agrees, fun halive' => ⟨f₀, hbegun.next halive hrest halive'⟩⟩
  | snapshot r =>
      dsimp only [stepAlive] at hstep
      split at hstep
      · rename_i hrest
        obtain ⟨rd, hr, hstep⟩ := Option.bind_eq_some_iff.mp hstep
        split at hstep
        -- a snapshot is taken under the lock
        · rename_i hpc
          obtain rfl := Option.some.inj hstep
          exact h.snapshot halive hrest hr hpc
        · cases hstep
      · cases hstep
  | copy k =>
      obtain ⟨copy, hk, hstep⟩ := Option.bind_eq_some_iff.mp hstep
      split at hstep
      -- a copy reads what is there at its moment
      · obtain rfl := Option.some.inj hstep
        exact h.copy halive hk ‹_›
      · cases hstep
  | reload k =>
      obtain ⟨copy, hk, hstep⟩ := Option.bind_eq_some_iff.mp hstep
      split at hstep
      -- the comparison afterwards, which may come too early: `Behind`
      · rename_i hsome
        obtain rfl := Option.some.inj hstep
        unfold Behind at hbehind
        dsimp only at hbehind
        rw [hk] at hbehind
        exact h.reload halive hk hsome.1 hbehind
      · cases hstep

theorem copiesOk_initial (cfg : CacheConfig) (objects : ℕ → List UInt8) (reads : List ReadIn) :
    CopiesOk cfg objects (initial cfg reads) := by
  have hfiles := filesOk_initial cfg objects reads
  have hcache := hfiles.reads.cache rfl
  refine ⟨nofun, fun _ => ⟨CachedFiles.initial cfg reads, hfiles, rfl, rfl, .inr ⟨hfiles, .refl _⟩,
    fun m hm _ => ?_, List.isChain_singleton _, nofun⟩⟩
  rw [List.mem_singleton.mp hm]
  exact .of_advance hcache hcache (among_inodes objects _) (.refl _) none

theorem copiesOk_of_run {reads : List ReadIn} {steps : List LockFreeStep}
    (hrun : exec (step cfg objects) (initial cfg reads) steps = some p)
    (hbehind : Always (step cfg objects) (Behind cfg) (initial cfg reads) steps) :
    CopiesOk cfg objects p :=
  exec_invariant (fun _ _ _ h ha hstep => CopiesOk.step h hstep ha) hbehind hrun
    (copiesOk_initial cfg objects reads)

/-- **Copies are whole.**  In a run that compares no copy between a hole punched
by `free` and the bump, a copy whose generations agree has the bytes stored for
its line; and what any section may show on its way has the old bytes of every
line with an old generation, but for a hole that `free` has punched. -/
theorem copies_whole {reads : List ReadIn} {steps : List LockFreeStep}
    (hrun : exec (step cfg objects) (initial cfg reads) steps = some p)
    (hbehind : Always (step cfg objects) (Behind cfg) (initial cfg reads) steps) :
    (∀ k ∈ p.copies, k.agrees = some true → k.copied = some (some (k.stored cfg objects))) ∧
    (p.now.cache.fatal = false → p.rest = [] → ∀ s f, p.files.step cfg objects s = some f →
      FileStep.UnmountsNoLines cfg p.files s → ∀ m ∈ p.files.moments cfg objects s,
        Intact cfg (objectInodes objects) p.files.cache m) := by
  have h := copiesOk_of_run hrun hbehind
  refine ⟨h.agrees, fun halive hrest s f hstep hunmounts m hm => ?_⟩
  obtain ⟨f₀, hbegun⟩ := h.begun halive
  have hfiles := (hbegun.again hrest halive).files
  exact (hfiles.section_step hstep (hfiles.step hstep hunmounts)).moments.intact m hm

/-- A file is read through the cache up to the unlock of its reader, and closed
behind it. -/
def readAndClose : List FileStep :=
  [.mount false, .createFileObjectInode 2, .doOpen 3 false .RDONLY, .cache (.read 0 goodDisk),
    .cache (.assign 0 goodDisk), .cache (.fetchBegin 0 goodDisk), .cache (.fetchAnswer 0 true),
    .cache (.fetchEnd 0 goodDisk), .cache (.wake 0), .cache (.read 0 goodDisk), .doRelease 3 4]

/-- Each section runs to its end. -/
def locked (s : FileStep) : List LockFreeStep :=
  match s with
  | .cache (.fetchEnd _ _) => [.lock s, .next, .next]
  | .cache (.assign _ _) => [.lock s, .next]
  | _ => [.lock s]

/-- The file is evicted around the copy, which is compared when `free` has
bumped the line. -/
def copyAndBump : List LockFreeStep :=
  readAndClose.flatMap locked ++ [.snapshot 0, .lock (.evict 3 [0] goodDisk), .copy 0, .next, .next,
    .reload 0]

theorem copyAndBump_whole : ∃ p,
    exec (step (oneLine .perInodeFile) threeBytes) (initial (oneLine .perInodeFile) [⟨3, 4, 0, 2⟩])
      copyAndBump = some p ∧ p.copies.map Copy.insideFree = [true] ∧
    ∀ k ∈ p.copies, k.agrees = some true →
      k.copied = some (some (k.stored (oneLine .perInodeFile) threeBytes)) := by
  obtain ⟨p, hrun, hinside⟩ : ∃ p, exec (step (oneLine .perInodeFile) threeBytes)
      (initial (oneLine .perInodeFile) [⟨3, 4, 0, 2⟩]) copyAndBump = some p ∧
      p.copies.map Copy.insideFree = [true] := exec_exists (by decide +kernel)
  exact ⟨p, hrun, hinside, (copies_whole hrun (by decide +kernel)).1⟩

/-- The copy is compared before `free` bumps the line. -/
def copyAndCompare : List LockFreeStep :=
  readAndClose.flatMap locked ++ [.snapshot 0, .lock (.evict 3 [0] goodDisk), .copy 0, .reload 0]

/-- The generations agree, and the copy has zeros. -/
theorem copyAndCompare_zeros : ∃ p,
    exec (step (oneLine .perInodeFile) threeBytes) (initial (oneLine .perInodeFile) [⟨3, 4, 0, 2⟩])
      copyAndCompare = some p ∧
    ∃ k ∈ p.copies, k.agrees = some true ∧ k.copied = some (some [0, 0]) ∧
      k.stored (oneLine .perInodeFile) threeBytes = [10, 20] := by
  obtain ⟨p, hrun, k, hk, hagrees, hzeros, hstored⟩ : ∃ p,
      exec (step (oneLine .perInodeFile) threeBytes)
        (initial (oneLine .perInodeFile) [⟨3, 4, 0, 2⟩]) copyAndCompare = some p ∧
      ∃ k ∈ p.copies, k.agrees = some true ∧ k.copied = some (some [0, 0]) ∧
        k.stored (oneLine .perInodeFile) threeBytes = [10, 20] := exec_exists (by decide +kernel)
  exact ⟨p, hrun, k, hk, hagrees, hzeros, hstored⟩

end LockFreeReads

end MultiStorageFileSystem
