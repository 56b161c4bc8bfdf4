/-
MultiStorageClient/DataCacheReads.lean

Reads through the data cache return the bytes of their objects.

`ReadsOk` is the invariant of the whole system: what each reader has so far is
a piece of its object, what it is about to copy is the next piece as long as
the generation stays (`Snap`), and the lines that readers hold complete the
lists of the cache.  `ReadsOk.step` is its step lemma; it has one case for each
section of `DoRead` and `fetch`.
-/
import MultiStorageClient.DataCacheOps

namespace MultiStorageFileSystem

open Slice Run

variable {cfg : CacheConfig} {heap inodes : ℕ → Option InodeInfo}

/-- The content of an object. -/
def contentOf (inodes : ℕ → Option InodeInfo) (inode : ℕ) : List UInt8 :=
  match inodes inode with
  | none => []
  | some info => info.content

/-! ### Readers -/

namespace Reader

/-- The lines that a reader holds. -/
def held (rd : Reader) : List ℕ :=
  match rd.pc with
  | .allocating _ _ got => got
  | .allocated _ got => got
  | _ => []

/-- A reader but for what it waits for. -/
def unwaiting (rd : Reader) : Reader := { rd with waits := 0 }

end Reader

/-- The lines that the readers hold. -/
def heldLines (readers : List Reader) : List ℕ := readers.flatMap Reader.held

theorem heldLines_eq (readers : List Reader) :
    heldLines readers = (readers.map Reader.unwaiting).flatMap Reader.held := by
  rw [List.flatMap_map]
  rfl

/-- What a reader has and what it remembers. -/
structure DataOk (heap : ℕ → Option InodeInfo) (rd : Reader) : Prop where
  offset : rd.curOffset = rd.readIn.offset + rd.data.length
  size : rd.data.length ≤ rd.readIn.size
  data : rd.data = slice rd.readIn.offset rd.data.length (contentOf heap rd.readIn.inode)
  returned : rd.pc = .returned .ok →
    rd.data = slice rd.readIn.offset rd.readIn.size (contentOf heap rd.readIn.inode)
  allocating : ∀ count prefetch got, rd.pc = .allocating count prefetch got →
    count = 1 + prefetch.length ∧ got.length ≤ count
  allocated : ∀ prefetch got, rd.pc = .allocated prefetch got → got.length = 1 + prefetch.length

/-- A reader that goes on from where it is. -/
theorem DataOk.continue {rd : Reader} (h : DataOk heap rd) {pc : ReadPc} (waits : ℕ)
    (hreturned : pc = .returned .ok →
      rd.data = slice rd.readIn.offset rd.readIn.size (contentOf heap rd.readIn.inode))
    (hallocating : ∀ count prefetch got, pc = .allocating count prefetch got →
      count = 1 + prefetch.length ∧ got.length ≤ count)
    (hallocated : ∀ prefetch got, pc = .allocated prefetch got →
      got.length = 1 + prefetch.length) :
    DataOk heap { rd with pc := pc, waits := waits } :=
  ⟨h.offset, h.size, h.data, hreturned, hallocating, hallocated⟩

/-- A read with nothing left to read has all. -/
theorem DataOk.complete {rd : Reader} (h : DataOk heap rd)
    (hdone : rd.readIn.size ≤ rd.data.length ∨
      (contentOf heap rd.readIn.inode).length ≤ rd.curOffset) :
    rd.data = slice rd.readIn.offset rd.readIn.size (contentOf heap rd.readIn.inode) := by
  rcases hdone with hsize | heof
  · rw [← le_antisymm h.size hsize]
    exact h.data
  · have hle := h.size
    rw [h.offset] at heof
    -- both slices end with the content
    rw [h.data, slice, slice, List.take_of_length_le, List.take_of_length_le]
    · rw [List.length_drop]
      omega
    · rw [List.length_drop]
      omega

namespace DataCache

variable {c c' c₁ : DataCache} {rd : Reader} {s : CopySource} {r : ℕ} {reads : List ReadIn}

/-! ### Copies -/

theorem backendLine_eq_slice (cfg : CacheConfig) (heap : ℕ → Option InodeInfo) (i n : ℕ) :
    backendLine cfg heap i n = slice (n * cfg.cacheLineSize) cfg.cacheLineSize
      (contentOf heap i) := by
  unfold backendLine contentOf
  rcases heap i with - | info
  · rw [slice, List.drop_nil, List.take_nil]
  · rfl

theorem length_backendLine (cfg : CacheConfig) (heap : ℕ → Option InodeInfo) (i n : ℕ) :
    (backendLine cfg heap i n).length =
      min cfg.cacheLineSize ((contentOf heap i).length - n * cfg.cacheLineSize) := by
  rw [backendLine_eq_slice, length_slice]

/-- A piece of a line is a piece of the object. -/
theorem slice_backendLine {i n start len : ℕ}
    (hle : start + len ≤ (backendLine cfg heap i n).length) :
    slice start len (backendLine cfg heap i n) =
      slice (n * cfg.cacheLineSize + start) len (contentOf heap i) := by
  refine slice_of_block ?_ hle
  rw [slice_whole le_rfl, length_backendLine, slice_min, backendLine_eq_slice]

/-- The inodes that are there have the content that the heap says. -/
def Among (heap inodes : ℕ → Option InodeInfo) : Prop :=
  ∀ i info, inodes i = some info → heap i = some info

theorem Among.refl (inodes : ℕ → Option InodeInfo) : Among inodes inodes := fun _ _ h => h

/-- A line in the map stands for a line of an object that is there. -/
theorem Among.wanted (h : Among heap inodes) {t : CacheLine}
    (hinode : (inodes t.inodeNumber).isSome) :
    t.wanted cfg inodes = backendLine cfg heap t.inodeNumber t.lineNumber := by
  obtain ⟨info, hinfo⟩ := Option.isSome_iff_exists.mp hinode
  unfold CacheLine.wanted backendLine
  rw [hinfo, h _ _ hinfo]

/-- What a reader remembers is right as long as the generation stays. -/
structure Snap (cfg : CacheConfig) (heap : ℕ → Option InodeInfo) (c : DataCache) (rd : Reader)
    (s : CopySource) : Prop where
  generation : s.generation ≤ (c.lines s.line).contentGeneration
  start : rd.curOffset = rd.curOffset / cfg.cacheLineSize * cfg.cacheLineSize + s.start
  fits : rd.data.length + s.length ≤ rd.readIn.size
  block : s.start + s.length ≤
    (backendLine cfg heap rd.readIn.inode (rd.curOffset / cfg.cacheLineSize)).length
  ram : cfg.onDisk = false → s.disk = none ∧
    ((c.lines s.line).contentGeneration = s.generation → (c.lines s.line).state ≠ .inbound ∧
      (c.arena s.line).take
        (backendLine cfg heap rd.readIn.inode (rd.curOffset / cfg.cacheLineSize)).length =
          backendLine cfg heap rd.readIn.inode (rd.curOffset / cfg.cacheLineSize))
  disk : cfg.onDisk = true → (c.lines s.line).contentGeneration = s.generation →
    (c.lines s.line).state = .clean ∧ (c.lines s.line).fetchFailed = false ∧
      (c.lines s.line).inodeNumber = rd.readIn.inode ∧
      (c.lines s.line).lineNumber = rd.curOffset / cfg.cacheLineSize ∧
      ∃ d, (c.lines s.line).disk = some d ∧ s.disk = some (d.file, d.offset + s.start)

/-- Steps of others. -/
theorem Snap.advance (h : Snap cfg heap c rd s) (hadv : Advance cfg c c') :
    Snap cfg heap c' rd s := by
  obtain ⟨hgen, harena, hdisk⟩ := hadv s.line
  have hsame : (c'.lines s.line).contentGeneration = s.generation →
      (c.lines s.line).contentGeneration = s.generation := fun heq =>
    le_antisymm (hgen.trans heq.le) h.generation
  refine ⟨h.generation.trans hgen, h.start, h.fits, h.block, fun hram => ⟨(h.ram hram).1,
    fun heq => ?_⟩, fun hon heq => ?_⟩
  · obtain ⟨hstate, hbytes⟩ := (h.ram hram).2 (hsame heq)
    obtain ⟨hstate', ha⟩ := harena (heq.trans (hsame heq).symm) hram hstate
    rw [ha]
    exact ⟨hstate', hbytes⟩
  · obtain ⟨hclean, hfailed, hi, hn, d, hd, hs⟩ := h.disk hon (hsame heq)
    obtain ⟨hclean', hfailed', hi', hn', hd'⟩ :=
      hdisk (heq.trans (hsame heq).symm) hon hclean hfailed
    exact ⟨hclean', hfailed', hi'.trans hi, hn'.trans hn, d, hd'.trans hd, hs⟩

/-- A copy from the arena. -/
theorem copyBytes_of_arena {bytes : List UInt8} (hdisk : s.disk = none)
    (harena : (c.arena s.line).take bytes.length = bytes)
    (hle : s.start + s.length ≤ bytes.length) :
    c.copyBytes s = some (slice s.start s.length bytes) := by
  have hblock : slice 0 bytes.length (c.arena s.line) = slice 0 bytes.length bytes := by
    rw [slice_whole le_rfl]
    exact harena
  have hpiece := slice_of_block hblock hle
  rw [Nat.zero_add] at hpiece
  unfold copyBytes
  rw [hdisk, ← hpiece]

/-- A copy from the file of an inode. -/
theorem copyBytes_of_holds {file offset : ℕ} {bytes : List UInt8}
    (hdisk : s.disk = some (file, offset + s.start)) (hopen : c.fileOpen file = true)
    (hholds : (c.files file).Holds offset bytes) (hle : s.start + s.length ≤ bytes.length) :
    c.copyBytes s = some (slice s.start s.length bytes) := by
  have hlen : (slice s.start s.length bytes).length = s.length := by
    rw [length_slice]
    omega
  unfold copyBytes
  rw [hdisk]
  dsimp only
  rw [if_pos hopen, hholds.readAt hle, hlen, Nat.sub_self, List.replicate_zero, List.append_nil]

/-- The bytes of a copy are the next ones of the object. -/
theorem Snap.piece (h : Snap cfg heap c rd s) :
    slice s.start s.length
      (backendLine cfg heap rd.readIn.inode (rd.curOffset / cfg.cacheLineSize)) =
    slice rd.curOffset s.length (contentOf heap rd.readIn.inode) := by
  rw [slice_backendLine h.block, ← h.start]

/-- **A copy whose generation has stayed** has the next bytes of the object. -/
theorem Snap.copyBytes (h : Snap cfg heap c rd s) (hamong : Among heap inodes) {held : List ℕ}
    (hc : CacheOk cfg inodes c held)
    (hgen : (c.lines s.line).contentGeneration = s.generation) :
    c.copyBytes s = some (slice rd.curOffset s.length (contentOf heap rd.readIn.inode)) := by
  rw [← h.piece]
  rcases hon : cfg.onDisk with - | -
  · obtain ⟨hnone, hbytes⟩ := h.ram hon
    exact copyBytes_of_arena hnone (hbytes hgen).2 h.block
  · obtain ⟨hclean, -, hi, hn, d, hd, hs⟩ := h.disk hon hgen
    obtain ⟨-, ⟨m, hm⟩, -, hholds⟩ := hc.disk.placed s.line d hd
    have hwanted : (c.lines s.line).wanted cfg inodes =
        backendLine cfg heap rd.readIn.inode (rd.curOffset / cfg.cacheLineSize) := by
      rw [hamong.wanted (hc.mapped.listed _ (.inr hclean)).2, hi, hn]
    rw [hwanted] at hholds
    exact copyBytes_of_holds hs (hc.disk.opened _ _ hm).1 hholds h.block

/-! ### The invariant -/

/-- The readers go by the contents in `heap`, the cache by the inodes that are
there. -/
structure ReadsOk (cfg : CacheConfig) (heap inodes : ℕ → Option InodeInfo) (reads : List ReadIn)
    (c : DataCache) : Prop where
  among : Among heap inodes
  reads : c.readers.map Reader.readIn = reads
  data : ∀ rd ∈ c.readers, DataOk heap rd
  cache : c.fatal = false → CacheOk cfg inodes c (heldLines c.readers)
  snap : c.fatal = false → ∀ rd ∈ c.readers, ∀ s, rd.pc = .copying s → Snap cfg heap c rd s

/-- The lines of one reader and those of the others. -/
theorem heldLines_set {readers : List Reader} (hr : readers[r]? = some rd) :
    ∃ others, (heldLines readers).Perm (rd.held ++ others) ∧
      ∀ rd', (heldLines (readers.set r rd')).Perm (rd'.held ++ others) := by
  obtain ⟨front, back, heq, hset⟩ := set_eq_append hr
  have hperm : ∀ rd' : Reader, (heldLines (front ++ rd' :: back)).Perm
      (rd'.held ++ (heldLines front ++ heldLines back)) := by
    intro rd'
    rw [heldLines, List.flatMap_append, List.flatMap_cons]
    exact List.perm_append_comm_assoc _ _ _
  refine ⟨heldLines front ++ heldLines back, ?_, fun rd' => ?_⟩
  · rw [heq]
    exact hperm rd
  · rw [hset rd']
    exact hperm rd'

theorem map_readIn_set {readers : List Reader} (hr : readers[r]? = some rd) {rd' : Reader}
    (hread : rd'.readIn = rd.readIn) :
    (readers.set r rd').map Reader.readIn = readers.map Reader.readIn := by
  obtain ⟨front, back, heq, hset⟩ := set_eq_append hr
  rw [hset, heq, List.map_append, List.map_cons, hread, ← List.map_cons, ← List.map_append]

/-- A step of one reader: the cache has advanced, and the reader has changed. -/
theorem ReadsOk.setReader (h : ReadsOk cfg heap inodes reads c) (hfatal : c.fatal = false)
    (hr : c.readers[r]? = some rd) {others : List ℕ}
    (hset : ∀ rd', (heldLines (c.readers.set r rd')).Perm (rd'.held ++ others))
    (hreaders : c₁.readers = c.readers) (hadv : Advance cfg c c₁) {rd' : Reader}
    (hread : rd'.readIn = rd.readIn) (hcache : CacheOk cfg inodes c₁ (rd'.held ++ others))
    (hdata : DataOk heap rd') (hsnap : ∀ s, rd'.pc = .copying s → Snap cfg heap c₁ rd' s) :
    ReadsOk cfg heap inodes reads (c₁.setReader r rd') := by
  have hmem : ∀ rd₀ ∈ (c₁.setReader r rd').readers, rd₀ ∈ c.readers ∨ rd₀ = rd' := by
    intro rd₀ h₀
    change rd₀ ∈ c₁.readers.set r rd' at h₀
    rw [hreaders] at h₀
    exact List.mem_or_eq_of_mem_set h₀
  refine ⟨h.among, ?_, fun rd₀ h₀ => ?_, fun _ => ?_, fun _ rd₀ h₀ s hs => ?_⟩
  · rw [← h.reads, ← map_readIn_set hr hread, ← hreaders]
    rfl
  · rcases hmem rd₀ h₀ with h₀ | rfl
    · exact h.data rd₀ h₀
    · exact hdata
  · refine (hcache.held_perm ?_).setReader r rd'
    show (heldLines (c₁.readers.set r rd')).Perm _
    rw [hreaders]
    exact hset rd'
  · have hsame : Advance cfg c₁ (c₁.setReader r rd') := fun _ => LineAdvance.refl _ _
    rcases hmem rd₀ h₀ with h₀ | rfl
    · exact ((h.snap hfatal rd₀ h₀ s hs).advance hadv).advance hsame
    · exact (hsnap s hs).advance hsame

/-- A process that ends keeps what its readers have. -/
theorem ReadsOk.of_fatal (h : ReadsOk cfg heap inodes reads c) (hreaders : c₁.readers = c.readers)
    (hfatal : c₁.fatal = true) : ReadsOk cfg heap inodes reads c₁ := by
  refine ⟨h.among, by rw [hreaders, h.reads], fun rd hrd => h.data rd
    (hreaders ▸ hrd), fun hf => ?_, fun hf => ?_⟩
  · rw [hfatal] at hf
    cases hf
  · rw [hfatal] at hf
    cases hf

/-- A step of a fetch: the readers change at most in what they wait for. -/
theorem ReadsOk.of_fetch (h : ReadsOk cfg heap inodes reads c) (hfatal : c.fatal = false)
    (hreaders : c₁.readers.map Reader.unwaiting = c.readers.map Reader.unwaiting)
    (hadv : Advance cfg c c₁) (hcache : CacheOk cfg inodes c₁ (heldLines c.readers)) :
    ReadsOk cfg heap inodes reads c₁ := by
  have hback : ∀ rd' ∈ c₁.readers, ∃ rd ∈ c.readers, rd' = { rd with waits := rd'.waits } := by
    intro rd' hrd'
    have hmem := List.mem_map_of_mem (f := Reader.unwaiting) hrd'
    rw [hreaders] at hmem
    obtain ⟨rd, hrd, heq⟩ := List.mem_map.mp hmem
    exact ⟨rd, hrd, congrArg (fun x : Reader => { x with waits := rd'.waits }) heq.symm⟩
  have hheld : heldLines c₁.readers = heldLines c.readers := by
    rw [heldLines_eq, heldLines_eq, hreaders]
  refine ⟨h.among, ?_, fun rd' hrd' => ?_, fun _ => ?_, fun _ rd' hrd' s hs => ?_⟩
  · have hmap := congrArg (List.map Reader.readIn) hreaders
    rw [List.map_map, List.map_map] at hmap
    exact hmap.trans h.reads
  · obtain ⟨rd, hrd, heq⟩ := hback rd' hrd'
    have hd := h.data rd hrd
    rw [heq]
    exact hd.continue _ hd.returned hd.allocating hd.allocated
  · rw [hheld]
    exact hcache
  · obtain ⟨rd, hrd, heq⟩ := hback rd' hrd'
    rw [heq] at hs ⊢
    have hsnap := (h.snap hfatal rd hrd s hs).advance hadv
    exact ⟨hsnap.generation, hsnap.start, hsnap.fits, hsnap.block, hsnap.ram, hsnap.disk⟩

/-! ### Sections of a reader -/

/-- A refused read answers an error. -/
theorem checkRead_error {inodes : ℕ → Option InodeInfo} {readIn : ReadIn} {errno : Errno}
    (h : c.checkRead inodes readIn = .error errno) : errno ≠ .ok := by
  unfold checkRead at h
  split at h
  · rw [← Except.error.inj h]
    nofun
  · split at h
    · cases h
    · rw [← Except.error.inj h]
      nofun

/-- An admitted read knows its inode and the inode's content. -/
theorem checkRead_ok (hamong : Among heap inodes) {readIn : ReadIn} {info : InodeInfo}
    (h : c.checkRead inodes readIn = .ok info) :
    inodes readIn.inode = some info ∧ contentOf heap readIn.inode = info.content := by
  unfold checkRead at h
  split at h
  · cases h
  · rename_i info' hinfo
    split at h
    · obtain rfl := Except.ok.inj h
      exact ⟨hinfo, by rw [contentOf, hamong _ _ hinfo]⟩
    · cases h

/-- A turn of `allocateDataCacheLines`. -/
theorem ReadsOk.allocate (h : ReadsOk cfg heap inodes reads c) (hfatal : c.fatal = false)
    (hr : c.readers[r]? = some rd) (ans : DiskAnswers) {prefetch got : List ℕ}
    (hheld : rd.held = got) (hgot : got.length ≤ 1 + prefetch.length) :
    ReadsOk cfg heap inodes reads
      (c.allocateDataCacheLines cfg inodes ans r rd (1 + prefetch.length) prefetch got) := by
  obtain ⟨others, hperm, hset⟩ := heldLines_set hr
  have hdata := h.data rd (List.mem_of_getElem? hr)
  have hcache := (h.cache hfatal).held_perm hperm.symm
  rw [hheld] at hcache
  obtain ⟨c₂, got₂, hcache₂, hadv, htakes, hle, -, heq⟩ := hcache.allocate ans r rd prefetch hgot
  rw [heq, htakes.fatal, hfatal, if_neg Bool.false_ne_true]
  split
  · rename_i hall
    exact h.setReader hfatal hr hset htakes.readers hadv rfl hcache₂
      (hdata.continue _ nofun nofun fun prefetch' got' hpc => by
        obtain ⟨rfl, rfl⟩ := ReadPc.allocated.inj hpc
        exact hall) nofun
  · split
    · exact h.of_fatal htakes.readers rfl
    · rename_i l rest hin
      have hl : l < cfg.cacheLines := hcache₂.lt_of_mem (s := .inbound) (by
        show l ∈ c₂.inboundLRU
        rw [hin]
        exact List.mem_cons_self ..)
      refine h.setReader hfatal hr hset ((readers_updLine c₂ l _).trans htakes.readers)
        (hadv.trans (advance_waiters c₂ l _)) rfl
        (hcache₂.waiters hl _) (hdata.continue _ nofun (fun count' prefetch' got' hpc => ?_) nofun)
        nofun
      obtain ⟨rfl, rfl, rfl⟩ := ReadPc.allocating.inj hpc
      exact ⟨rfl, hle⟩

/-- A read that stops. -/
theorem ReadsOk.finish (h : ReadsOk cfg heap inodes reads c) (hfatal : c.fatal = false)
    (hr : c.readers[r]? = some rd) {others : List ℕ}
    (hset : ∀ rd', (heldLines (c.readers.set r rd')).Perm (rd'.held ++ others))
    (hreaders : c₁.readers = c.readers) (hadv : Advance cfg c c₁)
    (hcache : CacheOk cfg inodes c₁ others) {errno : Errno}
    (hdone : errno = .ok → rd.data =
      slice rd.readIn.offset rd.readIn.size (contentOf heap rd.readIn.inode)) :
    ReadsOk cfg heap inodes reads (c₁.finish r rd errno) := by
  have hdata := h.data rd (List.mem_of_getElem? hr)
  exact h.setReader hfatal hr hset hreaders hadv rfl hcache
    (hdata.continue _ (fun hpc => hdone (ReadPc.returned.inj hpc)) nofun nofun) nofun

/-- A line that is found in the map: the reader waits, fails, or copies. -/
theorem ReadsOk.readLine (h : ReadsOk cfg heap inodes reads c) (hfatal : c.fatal = false)
    (hr : c.readers[r]? = some rd) (hpc : rd.pc = .loop) (ans : DiskAnswers) {l : ℕ}
    (hentry : c.cacheMap rd.readIn.inode (rd.curOffset / cfg.cacheLineSize) = some l)
    (hmore : rd.data.length < rd.readIn.size)
    (hin : rd.curOffset < (contentOf heap rd.readIn.inode).length) :
    ReadsOk cfg heap inodes reads (c.readLine cfg ans r rd (rd.curOffset / cfg.cacheLineSize) l) ∧
      (c.readLine cfg ans r rd (rd.curOffset / cfg.cacheLineSize) l).fatal = false := by
  obtain ⟨others, hperm, hset⟩ := heldLines_set hr
  have hdata := h.data rd (List.mem_of_getElem? hr)
  have hheld : rd.held = [] := by rw [Reader.held, hpc]
  have hcache := (h.cache hfatal).held_perm hperm.symm
  rw [hheld, List.nil_append] at hcache
  obtain ⟨hl, hi, hn, hstate⟩ := hcache.cached hentry
  unfold DataCache.readLine
  rw [if_neg (Nat.not_le.mpr hl)]
  rcases hstate with hs | ⟨hs, hmem⟩
  · rw [hs]
    exact ⟨h.setReader hfatal hr hset (readers_updLine c l _) (advance_waiters c l _)
      rfl (hcache.waiters hl _)
      (hdata.continue _ nofun nofun nofun) nofun, hfatal⟩
  · rw [hs]
    dsimp only
    split
    · rename_i hfailed
      obtain ⟨hcache₁, hadv, htakes⟩ := hcache.evict ans hentry hs hfailed
      exact ⟨h.finish hfatal hr hset htakes.readers hadv hcache₁ nofun,
        htakes.fatal.trans hfatal⟩
    · rename_i hfailed
      have hfailed' : (c.lines l).fetchFailed = false := Bool.eq_false_iff.mpr hfailed
      obtain ⟨hlen, hram, hbacked⟩ := (hcache.line l).stored hs hfailed'
      have hwanted : (c.lines l).wanted cfg inodes =
          backendLine cfg heap rd.readIn.inode (rd.curOffset / cfg.cacheLineSize) := by
        rw [h.among.wanted (hcache.mapped.listed _ (.inr hs)).2, hi, hn]
      rw [hwanted] at hlen hram hbacked
      have hblock := length_backendLine cfg heap rd.readIn.inode (rd.curOffset / cfg.cacheLineSize)
      have hdiv := Nat.div_mul_le_self rd.curOffset cfg.cacheLineSize
      have hmod : rd.curOffset - rd.curOffset / cfg.cacheLineSize * cfg.cacheLineSize <
          cfg.cacheLineSize := by
        have := Nat.lt_div_mul_add (a := rd.curOffset) cfg.cacheLineSize_pos
        omega
      -- the reader is before the end of the file, so there is something to copy
      have hstart : rd.curOffset - rd.curOffset / cfg.cacheLineSize * cfg.cacheLineSize <
          (backendLine cfg heap rd.readIn.inode (rd.curOffset / cfg.cacheLineSize)).length := by
        rw [hblock]
        omega
      rw [hlen]
      generalize hst : rd.curOffset - rd.curOffset / cfg.cacheLineSize * cfg.cacheLineSize = start
        at hmod hstart
      generalize hlim : min (min (start + (rd.readIn.size - rd.data.length)) cfg.cacheLineSize)
        (backendLine cfg heap rd.readIn.inode (rd.curOffset / cfg.cacheLineSize)).length = limit
      have hlt : start < limit := by omega
      rw [if_neg (Nat.not_le.mpr hlt)]
      have hsame : Advance cfg c (c.touchClean l) := fun _ => LineAdvance.refl _ _
      refine ⟨h.setReader hfatal hr hset (readers_touchClean c l) hsame rfl (hcache.touchClean hmem)
        (hdata.continue _ nofun nofun nofun) fun s heq => ?_, hfatal⟩
      obtain rfl := ReadPc.copying.inj heq
      refine ⟨le_rfl, ?_, ?_, ?_, fun hoff => ?_, fun hon _ => ?_⟩
      · show rd.curOffset = rd.curOffset / cfg.cacheLineSize * cfg.cacheLineSize + start
        omega
      · show rd.data.length + (limit - start) ≤ rd.readIn.size
        omega
      · show start + (limit - start) ≤
          (backendLine cfg heap rd.readIn.inode (rd.curOffset / cfg.cacheLineSize)).length
        omega
      · refine ⟨if_neg (by rw [hoff]; nofun), fun _ => ⟨?_, hram hoff⟩⟩
        show (c.lines l).state ≠ _
        rw [hs]
        nofun
      · have hne : backendLine cfg heap rd.readIn.inode (rd.curOffset / cfg.cacheLineSize) ≠ [] :=
          List.ne_nil_of_length_pos (Nat.zero_lt_of_lt hstart)
        obtain ⟨d, hd⟩ := Option.isSome_iff_exists.mp (hbacked hon hne)
        refine ⟨hs, hfailed', hi, hn, d, hd, ?_⟩
        show (if cfg.onDisk then _ else none) = _
        rw [if_pos hon, hd]
        rfl

/-- **The first locked section of `DoRead`**. -/
theorem ReadsOk.readSection (h : ReadsOk cfg heap inodes reads c) (hfatal : c.fatal = false)
    (hr : c.readers[r]? = some rd) (hpc : rd.pc = .loop) (ans : DiskAnswers) :
    ReadsOk cfg heap inodes reads (c.readSection cfg inodes ans r rd) := by
  obtain ⟨others, hperm, hset⟩ := heldLines_set hr
  have hdata := h.data rd (List.mem_of_getElem? hr)
  have hheld : rd.held = [] := by rw [Reader.held, hpc]
  have hcache := (h.cache hfatal).held_perm hperm.symm
  rw [hheld, List.nil_append] at hcache
  unfold DataCache.readSection
  split
  · rename_i hsize
    exact h.finish hfatal hr hset rfl (.refl c) hcache fun _ => hdata.complete (.inl hsize)
  rename_i hsize
  rcases hcheck : c.checkRead inodes rd.readIn with errno | info
  · exact h.finish hfatal hr hset rfl (.refl c) hcache fun heq =>
      absurd heq (checkRead_error hcheck)
  obtain ⟨-, hcontent⟩ := checkRead_ok h.among hcheck
  dsimp only
  rw [← hcontent]
  split
  · rename_i heof
    exact h.finish hfatal hr hset rfl (.refl c) hcache fun _ => hdata.complete (.inr heof)
  rename_i heof
  rcases hentry : c.cacheMap rd.readIn.inode (rd.curOffset / cfg.cacheLineSize) with - | l
  · exact h.allocate hfatal hr ans hheld (Nat.zero_le _)
  · exact (h.readLine hfatal hr hpc ans hentry (by omega) (by omega)).1

/-- **The second locked section of `DoRead`**. -/
theorem ReadsOk.assignSection (h : ReadsOk cfg heap inodes reads c) (hfatal : c.fatal = false)
    (hr : c.readers[r]? = some rd) {prefetch got : List ℕ} (hpc : rd.pc = .allocated prefetch got)
    (ans : DiskAnswers) :
    ReadsOk cfg heap inodes reads (c.assignSection cfg inodes ans r rd prefetch got) ∧
      (c.assignSection cfg inodes ans r rd prefetch got).fatal = false := by
  obtain ⟨others, hperm, hset⟩ := heldLines_set hr
  have hdata := h.data rd (List.mem_of_getElem? hr)
  have hheld : rd.held = got := by rw [Reader.held, hpc]
  have hcache := (h.cache hfatal).held_perm hperm.symm
  rw [hheld] at hcache
  obtain ⟨hcache₁, hadv₁, htakes₁⟩ := hcache.releaseDataCacheLines ans
  have hfatal₁ := htakes₁.fatal.trans hfatal
  unfold DataCache.assignSection
  rcases hcheck : c.checkRead inodes rd.readIn with errno | info
  -- the check refuses
  · exact ⟨h.finish hfatal hr hset htakes₁.readers hadv₁ hcache₁ fun heq =>
      absurd heq (checkRead_error hcheck), hfatal₁⟩
  obtain ⟨hinfo, hcontent⟩ := checkRead_ok h.among hcheck
  dsimp only
  rw [← hcontent]
  split
  -- the file ends before the offset
  · rename_i heof
    exact ⟨h.finish hfatal hr hset htakes₁.readers hadv₁ hcache₁ fun _ =>
      hdata.complete (.inr heof), hfatal₁⟩
  split
  -- another reader has mapped the line in between
  · exact ⟨h.setReader hfatal hr hset htakes₁.readers hadv₁ rfl hcache₁
      (hdata.continue _ nofun nofun nofun) nofun, hfatal₁⟩
  rename_i hmiss
  have hlen := hdata.allocated prefetch got hpc
  cases got with
  | nil => exact absurd hlen (by rw [List.length_nil]; omega)
  | cons l got =>
      -- the first line is the reader's own, the others are for the prefetch
      have hinode : (inodes rd.readIn.inode).isSome := by
        rw [hinfo]
        rfl
      obtain ⟨hcache₂, hadv₂⟩ := CacheOk.assignLine hcache (Option.not_isSome_iff_eq_none.mp hmiss)
        hinode [r]
      dsimp only
      rcases hpre : assignPrefetch rd.readIn.inode prefetch
        (c.assignLine rd.readIn.inode (rd.curOffset / cfg.cacheLineSize) [r] l) got with ⟨c₃, left⟩
      obtain ⟨hcache₃, hadv₃, hreaders₃, hfatal₃⟩ := CacheOk.assignPrefetch hinode hcache₂ hpre
      obtain ⟨hcache₄, hadv₄, htakes₄⟩ := hcache₃.releaseDataCacheLines ans
      rw [assignLine_eq] at hreaders₃ hfatal₃
      exact ⟨h.setReader hfatal hr hset (htakes₄.readers.trans hreaders₃)
        ((hadv₂.trans hadv₃).trans hadv₄) rfl hcache₄ (hdata.continue _ nofun nofun nofun) nofun,
        (htakes₄.fatal.trans hfatal₃).trans hfatal⟩

/-- **The unlocked copy with its check of the generation**. -/
theorem ReadsOk.copySection (h : ReadsOk cfg heap inodes reads c) (hfatal : c.fatal = false)
    (hr : c.readers[r]? = some rd) (hpc : rd.pc = .copying s) :
    ReadsOk cfg heap inodes reads (c.copySection r rd s) ∧
      (c.copySection r rd s).fatal = false := by
  obtain ⟨others, hperm, hset⟩ := heldLines_set hr
  have hrd := List.mem_of_getElem? hr
  have hdata := h.data rd hrd
  have hheld : rd.held = [] := by rw [Reader.held, hpc]
  have hcache := (h.cache hfatal).held_perm hperm.symm
  rw [hheld, List.nil_append] at hcache
  have hsnap := h.snap hfatal rd hrd s hpc
  unfold DataCache.copySection
  split
  -- the line has changed since the snapshot: the reader looks once more
  · exact ⟨h.setReader hfatal hr hset rfl (.refl c) rfl hcache
      (hdata.continue _ nofun nofun nofun) nofun, hfatal⟩
  -- it has not, so what is copied is the content's
  rename_i hgen
  rw [hsnap.copyBytes h.among hcache (not_not.mp hgen)]
  dsimp only
  have hlen : (slice rd.curOffset s.length (contentOf heap rd.readIn.inode)).length = s.length := by
    have hstart := hsnap.start
    have hblock := hsnap.block
    rw [length_backendLine] at hblock
    rw [length_slice]
    omega
  refine ⟨h.setReader hfatal hr hset rfl (.refl c) rfl hcache
    ⟨?_, ?_, ?_, nofun, nofun, nofun⟩ nofun, hfatal⟩
  · show rd.curOffset + s.length = rd.readIn.offset + (rd.data ++ _).length
    rw [List.length_append, hlen, hdata.offset, Nat.add_assoc]
  · show (rd.data ++ _).length ≤ rd.readIn.size
    rw [List.length_append, hlen]
    exact hsnap.fits
  · show rd.data ++ slice rd.curOffset s.length _ = slice rd.readIn.offset (rd.data ++ _).length _
    rw [List.length_append, hlen, ← slice_append, ← hdata.data, hdata.offset]

/-! ### Runs -/

/-- What one step does. -/
inductive Taken (cfg : CacheConfig) (inodes : ℕ → Option InodeInfo) (c : DataCache) :
    CacheStep → DataCache → Prop
  | read {r : ℕ} {rd : Reader} (ans : DiskAnswers) (hr : c.readers[r]? = some rd)
      (hpc : rd.pc = .loop) : Taken cfg inodes c (.read r ans) (c.readSection cfg inodes ans r rd)
  | allocate {r : ℕ} {rd : Reader} {count : ℕ} {prefetch got : List ℕ} (ans : DiskAnswers)
      (hr : c.readers[r]? = some rd) (hpc : rd.pc = .allocating count prefetch got)
      (hwaits : rd.waits = 0) : Taken cfg inodes c (.allocate r ans)
        (c.allocateDataCacheLines cfg inodes ans r rd count prefetch got)
  | assign {r : ℕ} {rd : Reader} {prefetch got : List ℕ} (ans : DiskAnswers)
      (hr : c.readers[r]? = some rd) (hpc : rd.pc = .allocated prefetch got) :
      Taken cfg inodes c (.assign r ans) (c.assignSection cfg inodes ans r rd prefetch got)
  | wake {r : ℕ} {rd : Reader} (hr : c.readers[r]? = some rd) (hpc : rd.pc = .waiting)
      (hwaits : rd.waits = 0) : Taken cfg inodes c (.wake r) (c.setReader r { rd with pc := .loop })
  | copy {r : ℕ} {rd : Reader} {s : CopySource} (hr : c.readers[r]? = some rd)
      (hpc : rd.pc = .copying s) : Taken cfg inodes c (.copy r) (c.copySection r rd s)
  | fetchBegin {l : ℕ} (ans : DiskAnswers) (hfetch : (c.lines l).fetch = .started) :
      Taken cfg inodes c (.fetchBegin l ans) (c.fetchBegin cfg inodes ans l)
  | fetchAnswer {l i n : ℕ} (succeeds : Bool) (hfetch : (c.lines l).fetch = .reading i n) :
      Taken cfg inodes c (.fetchAnswer l succeeds)
        (c.fetchAnswer cfg l (if succeeds then some (backendLine cfg inodes i n) else none))
  | fetchEnd {l : ℕ} {buf : Option (List UInt8)} (ans : DiskAnswers)
      (hfetch : (c.lines l).fetch = .answered buf) :
      Taken cfg inodes c (.fetchEnd l ans) (c.fetchEnd cfg inodes ans l buf)
  | handle (inode fh : ℕ) (allowReads : Option Bool) :
      Taken cfg inodes c (.handle inode fh allowReads)
        { c with
          handles := Function.update c.handles inode
            (Function.update (c.handles inode) fh allowReads) }

/-- A step of the cache that does not follow the Fatalf. -/
theorem taken_of_step {a : CacheStep} (h : step cfg inodes c a = some c') :
    c.fatal = false ∧ Taken cfg inodes c a c' := by
  unfold step at h
  split at h
  · cases h
  rename_i hfatal
  refine ⟨Bool.eq_false_iff.mpr hfatal, ?_⟩
  cases a with
  | read r ans =>
      obtain ⟨rd, hr, h⟩ := Option.bind_eq_some_iff.mp h
      split at h
      · rename_i hpc
        exact Option.some.inj h ▸ .read ans hr hpc
      · cases h
  | allocate r ans =>
      obtain ⟨rd, hr, h⟩ := Option.bind_eq_some_iff.mp h
      split at h
      · rename_i hpc
        split at h
        · rename_i hwaits
          exact Option.some.inj h ▸ .allocate ans hr hpc hwaits
        · cases h
      · cases h
  | assign r ans =>
      obtain ⟨rd, hr, h⟩ := Option.bind_eq_some_iff.mp h
      split at h
      · rename_i hpc
        exact Option.some.inj h ▸ .assign ans hr hpc
      · cases h
  | wake r =>
      obtain ⟨rd, hr, h⟩ := Option.bind_eq_some_iff.mp h
      split at h
      · rename_i hpc
        split at h
        · rename_i hwaits
          exact Option.some.inj h ▸ .wake hr hpc hwaits
        · cases h
      · cases h
  | copy r =>
      obtain ⟨rd, hr, h⟩ := Option.bind_eq_some_iff.mp h
      split at h
      · rename_i hpc
        exact Option.some.inj h ▸ .copy hr hpc
      · cases h
  | fetchBegin l ans =>
      dsimp only [stepAlive] at h
      split at h
      · rename_i hfetch
        exact Option.some.inj h ▸ .fetchBegin ans hfetch
      · cases h
  | fetchAnswer l succeeds =>
      dsimp only [stepAlive] at h
      split at h
      · rename_i hfetch
        exact Option.some.inj h ▸ .fetchAnswer succeeds hfetch
      · cases h
  | fetchEnd l ans =>
      dsimp only [stepAlive] at h
      split at h
      · rename_i hfetch
        exact Option.some.inj h ▸ .fetchEnd ans hfetch
      · cases h
  | handle inode fh allowReads => exact Option.some.inj h ▸ .handle inode fh allowReads

/-- A notification changes the readers only in what they wait for. -/
theorem map_unwaiting_notify (ws : List ℕ) (readers : List Reader) :
    (ws.foldl (fun rs r => rs.modify r fun rd => { rd with waits := rd.waits - 1 }) readers).map
      Reader.unwaiting = readers.map Reader.unwaiting := by
  induction ws generalizing readers with
  | nil => rfl
  | cons w ws ih =>
      rw [List.foldl_cons, ih]
      clear ih
      -- one reader is notified
      induction readers generalizing w with
      | nil => cases w <;> rfl
      | cons rd readers ih =>
          cases w with
          | zero => rfl
          | succ w =>
              rw [List.modify_succ_cons, List.map_cons, List.map_cons, ih]

/-- **One step** keeps what the readers have and remember. -/
theorem ReadsOk.step {a : CacheStep} (h : ReadsOk cfg heap inodes reads c)
    (hstep : step cfg inodes c a = some c') : ReadsOk cfg heap inodes reads c' := by
  obtain ⟨hfatal, htaken⟩ := taken_of_step hstep
  have hcache := h.cache hfatal
  cases htaken with
  | read ans hr hpc => exact h.readSection hfatal hr hpc ans
  | @allocate r rd count prefetch got ans hr hpc hwaits =>
      obtain ⟨rfl, hgot⟩ := (h.data rd (List.mem_of_getElem? hr)).allocating _ _ _ hpc
      exact h.allocate hfatal hr ans (by rw [Reader.held, hpc]) hgot
  | assign ans hr hpc => exact (h.assignSection hfatal hr hpc ans).1
  | @wake r rd hr hpc hwaits =>
      obtain ⟨others, hperm, hset⟩ := heldLines_set hr
      -- a reader that waits holds no line, and goes back to the loop
      have hheld : rd.held = [] := by rw [Reader.held, hpc]
      have hdata := h.data rd (List.mem_of_getElem? hr)
      rw [hheld] at hperm
      exact h.setReader hfatal hr hset rfl (.refl c) rfl (hcache.held_perm hperm.symm)
        (hdata.continue _ nofun nofun nofun) nofun
  | copy hr hpc => exact (h.copySection hfatal hr hpc).1
  | fetchBegin ans hfetch =>
      obtain ⟨hcache₁, hadv, htakes⟩ := hcache.fetchBegin ans hfetch
      exact h.of_fetch hfatal (by rw [htakes.readers]) hadv hcache₁
  | fetchAnswer succeeds hfetch =>
      obtain ⟨hcache₁, hadv, htakes⟩ := hcache.fetchAnswer_backend succeeds hfetch
      exact h.of_fetch hfatal (by rw [htakes.readers]) hadv hcache₁
  | @fetchEnd l buf ans hfetch =>
      obtain ⟨hcache₁, hadv, -, -, -, -, hreaders⟩ := hcache.fetchEnd ans hfetch
      refine h.of_fetch hfatal ?_ hadv hcache₁
      rw [hreaders]
      exact map_unwaiting_notify _ _
  | handle inode fh allowReads =>
      exact h.of_fetch hfatal rfl (fun _ => LineAdvance.refl _ _) (hcache.frame _ _ _)

/-- The cache at its start. -/
theorem cacheOk_dataCacheUp (cfg : CacheConfig) (inodes : ℕ → Option InodeInfo)
    (reads : List ReadIn) (handles : ℕ → ℕ → Option Bool) :
    CacheOk cfg inodes (dataCacheUp cfg reads handles) [] := by
  refine ⟨⟨fun s => ?_, fun s l => ?_⟩, fun l => .of_unlisted rfl nofun rfl, ⟨nofun, ?_⟩,
    fun _ _ => rfl, ⟨nofun, nofun, nofun, nofun, nofun⟩⟩
  · cases s with
    | notOnLRU => exact List.nodup_nil
    | free => exact List.nodup_range
    | inbound => exact List.nodup_nil
    | clean => exact List.nodup_nil
  · rw [Finset.mem_range]
    show _ ↔ l < cfg.cacheLines ∧ LineState.free = s
    cases s with
    | free => exact ⟨fun h => ⟨List.mem_range.mp h, rfl⟩, fun h => List.mem_range.mpr h.1⟩
    | notOnLRU => exact iff_of_false List.not_mem_nil fun h => absurd h.2 nofun
    | inbound => exact iff_of_false List.not_mem_nil fun h => absurd h.2 nofun
    | clean => exact iff_of_false List.not_mem_nil fun h => absurd h.2 nofun
  · exact fun l hlist => absurd hlist (CacheLine.not_listed (.inr rfl))

/-- At the start no reader has read anything. -/
theorem readsOk_dataCacheUp (cfg : CacheConfig) (inodes : ℕ → Option InodeInfo)
    (reads : List ReadIn) (handles : ℕ → ℕ → Option Bool) :
    ReadsOk cfg inodes inodes reads (dataCacheUp cfg reads handles) := by
  have hnew : ∀ rd ∈ (dataCacheUp cfg reads handles).readers, ∃ readIn, rd = newReader readIn := by
    intro rd hrd
    obtain ⟨readIn, -, heq⟩ := List.mem_map.mp hrd
    exact ⟨readIn, heq.symm⟩
  refine ⟨.refl inodes, ?_, fun rd hrd => ?_, fun _ => ?_, fun _ rd hrd s hs => ?_⟩
  · exact List.map_map.trans (List.map_id reads)
  · obtain ⟨readIn, rfl⟩ := hnew rd hrd
    exact ⟨rfl, Nat.zero_le _, slice_nil_of_zero.symm, nofun, nofun, nofun⟩
  · have hheld : heldLines (dataCacheUp cfg reads handles).readers = [] := by
      refine List.flatMap_eq_nil_iff.mpr fun rd hrd => ?_
      obtain ⟨readIn, rfl⟩ := hnew rd hrd
      rfl
    rw [hheld]
    exact cacheOk_dataCacheUp cfg inodes reads handles
  · obtain ⟨readIn, rfl⟩ := hnew rd hrd
    cases hs

/-- **Every run** keeps what the readers have and remember. -/
theorem readsOk_of_run {handles : ℕ → ℕ → Option Bool} {steps : List CacheStep}
    (hrun : exec (step cfg inodes) (dataCacheUp cfg reads handles) steps = some c) :
    ReadsOk cfg inodes inodes reads c := by
  have halways : Always (step cfg inodes) (fun _ _ => True) (dataCacheUp cfg reads handles) steps :=
    Always.of_mem (fun _ _ _ => trivial) _
  exact exec_invariant (fun _ _ _ h _ hstep => ReadsOk.step h hstep) halways hrun
    (readsOk_dataCacheUp cfg inodes reads handles)

/-- A fetch that has failed leaves a clean line that says so. -/
theorem fetchFailed_of_step {l : ℕ} {ans : DiskAnswers} (h : ReadsOk cfg heap inodes reads c)
    (hfetch : (c.lines l).fetch = .answered none)
    (hstep : step cfg inodes c (.fetchEnd l ans) = some c') :
    (c'.lines l).state = .clean ∧ (c'.lines l).fetchFailed = true := by
  obtain ⟨hfatal, htaken⟩ := taken_of_step hstep
  cases htaken with
  | @fetchEnd _ buf _ hfetch' =>
      obtain rfl := FetchState.answered.inj (hfetch.symm.trans hfetch')
      obtain ⟨-, -, -, hclean, hfailed, -, -⟩ := (h.cache hfatal).fetchEnd ans hfetch
      exact ⟨hclean, hfailed rfl⟩

/-- A reader that comes to such a line fails. -/
theorem returned_of_fetchFailed {l : ℕ} {ans : DiskAnswers} {info : InodeInfo}
    (h : ReadsOk cfg heap inodes reads c) (hr : c.readers[r]? = some rd)
    (hmore : rd.data.length < rd.readIn.size) (hcheck : c.checkRead inodes rd.readIn = .ok info)
    (hin : rd.curOffset < info.content.length)
    (hentry : c.cacheMap rd.readIn.inode (rd.curOffset / cfg.cacheLineSize) = some l)
    (hclean : (c.lines l).state = .clean) (hfailed : (c.lines l).fetchFailed = true)
    (hstep : step cfg inodes c (.read r ans) = some c') :
    c'.readers[r]? = some { rd with pc := .returned Errno.EIO } := by
  obtain ⟨hfatal, htaken⟩ := taken_of_step hstep
  cases htaken with
  | @read _ rd' _ hr' hpc =>
      obtain rfl := Option.some.inj (hr.symm.trans hr')
      have hcache := h.cache hfatal
      obtain ⟨hl, -, -, -⟩ := hcache.cached hentry
      obtain ⟨-, -, htakes⟩ := hcache.evict ans hentry hclean hfailed
      unfold readSection
      rw [if_neg (Nat.not_le.mpr hmore), hcheck]
      dsimp only
      rw [if_neg (Nat.not_le.mpr hin), hentry]
      dsimp only
      unfold readLine
      rw [if_neg (Nat.not_le.mpr hl), hclean, hfailed, if_pos rfl]
      show (List.set _ r _)[r]? = _
      rw [htakes.readers, List.getElem?_set_self (List.getElem?_eq_some_iff.mp hr).1]

/-- **Reads through the cache.**  In every run of readers and fetches, a read
that returns without an error has exactly the bytes of its range, clipped at
the end of the object; a failed fetch leaves a line that says so, and a reader
that comes to it returns `EIO`. -/
theorem read_returns_range {handles : ℕ → ℕ → Option Bool} {steps : List CacheStep}
    (hrun : exec (step cfg inodes) (dataCacheUp cfg reads handles) steps = some c) :
    (∀ (r : ℕ) (rd : Reader), c.readers[r]? = some rd → reads[r]? = some rd.readIn ∧
      (rd.pc = .returned .ok →
        rd.data = slice rd.readIn.offset rd.readIn.size (contentOf inodes rd.readIn.inode))) ∧
    (∀ l ans c', (c.lines l).fetch = .answered none →
      step cfg inodes c (.fetchEnd l ans) = some c' →
        (c'.lines l).state = .clean ∧ (c'.lines l).fetchFailed = true) ∧
    (∀ (r : ℕ) (rd : Reader) (info : InodeInfo) l ans c', c.readers[r]? = some rd →
      rd.data.length < rd.readIn.size →
      c.checkRead inodes rd.readIn = .ok info → rd.curOffset < info.content.length →
      c.cacheMap rd.readIn.inode (rd.curOffset / cfg.cacheLineSize) = some l →
      (c.lines l).state = .clean → (c.lines l).fetchFailed = true →
      step cfg inodes c (.read r ans) = some c' →
        c'.readers[r]? = some { rd with pc := .returned Errno.EIO }) := by
  have h := readsOk_of_run hrun
  refine ⟨fun r rd hr => ⟨?_, (h.data rd (List.mem_of_getElem? hr)).returned⟩,
    fun l ans c' hfetch hstep => fetchFailed_of_step h hfetch hstep,
    fun r rd info l ans c' hr hmore hcheck hin hentry hclean hfailed hstep =>
      returned_of_fetchFailed h hr hmore hcheck hin hentry hclean hfailed hstep⟩
  rw [← h.reads, List.getElem?_map, hr]
  rfl

/-- One object of three bytes, open for reading. -/
def oneObject (inode : ℕ) : Option InodeInfo :=
  if inode = 5 then some ⟨true, [10, 20, 30]⟩ else none

/-- One line of two bytes. -/
def oneLine (cacheStorage : CacheStorage) : CacheConfig :=
  ⟨2, 1, 0, cacheStorage, by decide, Nat.one_pos⟩

/-- The handle 1 of the inode 5 allows reads. -/
def oneHandle (inode fh : ℕ) : Option Bool := if inode = 5 ∧ fh = 1 then some true else none

/-- A disk that does what it is asked. -/
def goodDisk : DiskAnswers := ⟨fun _ => true, true, none⟩

/-- A reader that misses a line, waits for it and copies it. -/
def missAndCopy (r : ℕ) : List CacheStep :=
  [.read r goodDisk, .assign r goodDisk, .fetchBegin 0 goodDisk, .fetchAnswer 0 true,
    .fetchEnd 0 goodDisk, .wake r, .read r goodDisk, .copy r]

/-- The run theorem at a read that crosses a line. -/
theorem read_two_lines : ∃ c,
    exec (step (oneLine .perInodeFile) oneObject)
      (dataCacheUp (oneLine .perInodeFile) [⟨5, 1, 1, 7⟩] oneHandle)
      (missAndCopy 0 ++ missAndCopy 0 ++ [.read 0 goodDisk]) = some c ∧
    ∃ rd, c.readers[0]? = some rd ∧ rd.pc = .returned .ok ∧ rd.data = [20, 30] := by
  obtain ⟨c, hrun, hdone⟩ : ∃ c, exec (step (oneLine .perInodeFile) oneObject)
      (dataCacheUp (oneLine .perInodeFile) [⟨5, 1, 1, 7⟩] oneHandle)
      (missAndCopy 0 ++ missAndCopy 0 ++ [.read 0 goodDisk]) = some c ∧
      (c.readers[0]?).map Reader.pc = some (.returned .ok) := exec_exists (by decide +kernel)
  obtain ⟨rd, hr, hpc⟩ := Option.map_eq_some_iff.mp hdone
  obtain ⟨hread, hdata⟩ := (read_returns_range hrun).1 0 rd hr
  refine ⟨c, hrun, rd, hr, hpc, (hdata hpc).trans ?_⟩
  rw [← Option.some.inj hread]
  decide

end DataCache

end MultiStorageFileSystem
