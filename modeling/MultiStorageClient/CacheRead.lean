/-
MultiStorageClient/CacheRead.lean

What one range read returns, given what it may assume about the world.

The results about caching differ in what others may do meanwhile: only remove
files, or also write chunks and overwrite the source.  `Discipline` lists
what the code of one read relies on in either case, with an assertion `Inv S`
that may say more about the chunk files with an index in `S`, those that the
read has checked or written.  `Discipline.read_spec` then follows the code.
-/
import MultiStorageClient.Cache

namespace MultiStorageClient

open Slice Prog

/-! ### What a read relies on -/

/-- The path of the file on which an operation of
`_assemble_result_from_chunks` works. -/
def CacheOp.assembles : CacheOp → Option CachePath
  | .getsize .assembly path => some path
  | .getObjectSize path => some path
  | .readFile .assembly path _ _ => some path
  | _ => none

/-- The names under which a chunk can be stored. -/
def CachePath.Holds (path : CachePath) (idx : ℕ) : Prop :=
  path = .chunk idx ∨ idx = 0 ∧ path = .full

/-- A file from which chunk `idx` of `source` can be read: it holds the bytes
of the chunk, and its size attribute says where they end. -/
structure CacheFile.Serves (f : CacheFile) (source : List UInt8) (cacheLineSize idx : ℕ) :
    Prop where
  data : slice 0 cacheLineSize f.data = slice (idx * cacheLineSize) cacheLineSize source
  size : ∀ n, f.size = some n →
    min cacheLineSize (n - idx * cacheLineSize) = min cacheLineSize f.data.length

/-- The assumptions of one read of the object `source`. -/
structure Discipline (content : PyStr → List UInt8) (m : CacheManager) (args : ReadArgs) where
  source : List UInt8
  /-- what others may do between two operations -/
  rely : CacheWorld → CacheWorld → Prop
  /-- the condition on the operations of this read -/
  ok : CacheOp → CacheWorld → Prop
  /-- what is shown of the operations -/
  guar : CacheOp → CacheWorld → Prop
  /-- the invariant, given the chunks known to be of this read's making -/
  Inv : Set ℕ → CacheWorld → Prop
  /-- the object is smaller than a cache line -/
  Small : Prop
  /-- an admissible result -/
  Res : List UInt8 → Prop
  stable : ∀ S w w', Inv S w → rely w w' → Inv S w'
  mono : ∀ S T w, S ⊆ T → Inv T w → Inv S w
  locks : ∀ S w l n, Inv S w → Inv S { w with locks := l, nextLock := n }
  unlink : ∀ S w path, Inv S w → Inv S (w.setFile path none)
  accept : ∀ S w idx, Inv S w → (∀ f, w.files (.chunk idx) = some f →
    f.cacheLineSize = some m.cacheLineSize) → Inv (insert idx S) w
  unchecked : ∀ S w idx, Inv S w → ok (.exists .validity (.chunk idx)) w →
    truthy args.sourceVersion = false → Inv (insert idx S) w
  fetch : ∀ S w offset size, Inv S w → ok (.getObject .fetch offset size) w →
    content w.etag = source
  write : ∀ S w idx, Inv S w → Inv (insert idx S) (w.setFile (.chunk idx) (some (w.stored
    (CacheManager.chunkFile (slice (idx * m.cacheLineSize) m.cacheLineSize source)
      args.sourceVersion idx m.cacheLineSize args.sourceSize))))
  small : ∀ S w f, Inv S w → 0 ∈ S → w.files (.chunk 0) = some f →
    f.data.length < m.cacheLineSize → Small
  rename : ∀ S w f, Inv S w → 0 ∈ S → Small → w.files (.chunk 0) = some f →
    Inv S ((w.setFile (.chunk 0) none).setFile .full (some f))
  free : ∀ o w, o.assembles = none → Inv ∅ (cacheAct content o w).2 → guar o w
  guards : ∀ S w idx path o, Inv S w → idx ∈ S → path.Holds idx → ok o w →
    o.assembles = some path → Inv ∅ (cacheAct content o w).2 → guar o w
  serves : ∀ S w idx path f o, Inv S w → idx ∈ S → path.Holds idx → ok o w →
    o.assembles = some path →
    w.files path = some f → f.Serves source m.cacheLineSize idx
  full : ∀ S w f, Inv S w → w.files .full = some f →
    Res (slice args.byteRange.offset args.byteRange.size f.data)
  direct : ∀ S w n, Inv S w → (∀ k, args.sourceSize = some k → args.byteRange.offset < k ∧
      n = min args.byteRange.size (k - args.byteRange.offset)) →
    (args.sourceSize = none → n = args.byteRange.size) →
    Res (slice args.byteRange.offset n (content w.etag))
  behind : ∀ k, args.sourceSize = some k → k ≤ args.byteRange.offset → Res []
  assembled : Res (slice args.byteRange.offset args.byteRange.size source)

namespace Discipline

open CacheManager

variable {content : PyStr → List UInt8} {m : CacheManager} {args : ReadArgs}
  (D : Discipline content m args) {S : Set ℕ} {idx : ℕ}

/-- The cache among the others. -/
def context : Context CacheOp CacheOp.Val OSError CacheWorld :=
  ⟨cacheAct content, D.rely, D.ok, D.guar⟩

/-- From `P` the program ends in `Q` or, if it raises, in `E`. -/
abbrev Ends {α : Type} (P : CacheWorld → Prop) (x : CacheProg α) (Q : α → CacheWorld → Prop)
    (E : CacheWorld → Prop) : Prop :=
  Triple D.context P x Q E

variable {D}

theorem inv_stable : Stable D.context (D.Inv S) := fun w w' hw hrely => D.stable S w w' hw hrely

theorem inv_empty {w : CacheWorld} (h : D.Inv S w) : D.Inv ∅ w :=
  D.mono _ _ w (Set.empty_subset S) h

/-- The rule for operations that do not assemble the result. -/
theorem operate {o : CacheOp} {Q : o.Val → CacheWorld → Prop} {E : CacheWorld → Prop}
    (hfree : o.assembles = none)
    (h : ∀ w, D.Inv S w → D.ok o w →
      D.Inv ∅ (cacheAct content o w).2 ∧ EndsIn Q E (cacheAct content o w)) :
    D.Ends (D.Inv S) (call o) Q E :=
  Triple.perform inv_stable fun w hw hok =>
    ⟨D.free o w hfree (h w hw hok).1, (h w hw hok).2⟩

/-- Operations that change nothing. -/
def Looks (content : PyStr → List UInt8) (o : CacheOp) : Prop :=
  ∀ w, (cacheAct content o w).2 = w

theorem Looks.inv {o : CacheOp} (hlook : Looks content o) {w : CacheWorld} (hw : D.Inv S w) :
    D.Inv ∅ (cacheAct content o w).2 := by
  rw [hlook w]
  exact inv_empty hw

/-- A look at the cache leaves the world as it was. -/
theorem Looks.endsIn {o : CacheOp} (hlook : Looks content o) {Q : o.Val → CacheWorld → Prop}
    {w : CacheWorld} (hw : D.Inv S w) (h : ∀ a, (cacheAct content o w).1 = .ok a → Q a w) :
    EndsIn Q (D.Inv S) (cacheAct content o w) := by
  have hsame := hlook w
  rcases hact : cacheAct content o w with ⟨e | a, w'⟩
  · rw [hact] at hsame
    obtain rfl : w' = w := hsame
    exact hw
  · rw [hact] at hsame
    obtain rfl : w' = w := hsame
    exact h a (congrArg Prod.fst hact)

theorem look {o : CacheOp} (hfree : o.assembles = none) (hlook : Looks content o)
    {Q : o.Val → CacheWorld → Prop}
    (h : ∀ w a, D.Inv S w → D.ok o w → (cacheAct content o w).1 = .ok a → Q a w) :
    D.Ends (D.Inv S) (call o) Q (D.Inv S) :=
  operate hfree fun w hw hok => ⟨hlook.inv hw, hlook.endsIn hw fun a => h w a hw hok⟩

theorem look_only {o : CacheOp} (hfree : o.assembles = none) (hlook : Looks content o) :
    D.Ends (D.Inv S) (call o) (fun _ => D.Inv S) (D.Inv S) :=
  look hfree hlook fun _ _ hw _ _ => hw

/-- The rule for the operations that assemble the result. -/
theorem look_at {o : CacheOp} {path : CachePath} (hidx : idx ∈ S) (hpath : path.Holds idx)
    (hat : o.assembles = some path) (hlook : Looks content o) {Q : o.Val → CacheWorld → Prop}
    (h : ∀ w a, D.Inv S w → D.ok o w → (cacheAct content o w).1 = .ok a → Q a w) :
    D.Ends (D.Inv S) (call o) Q (D.Inv S) :=
  Triple.perform inv_stable fun w hw hok =>
    ⟨D.guards S w idx path o hw hidx hpath hok hat (hlook.inv hw),
      hlook.endsIn hw fun a => h w a hw hok⟩

/-- `os.path.exists` does not raise. -/
theorem exists_spec (site : CacheSite) (path : CachePath) {E : CacheWorld → Prop} :
    D.Ends (D.Inv S) (call (.exists site path)) (fun b w => D.Inv S w ∧
      D.ok (.exists site path) w ∧ (b = false → w.files path = none)) E := by
  refine operate (by exact rfl) fun w hw hok => ⟨inv_empty hw, hw, hok, fun hb => ?_⟩
  exact Option.isNone_iff_eq_none.mp (Option.isSome_eq_false_iff.mp hb)

theorem exists_only (site : CacheSite) (path : CachePath) {E : CacheWorld → Prop} :
    D.Ends (D.Inv S) (call (.exists site path)) (fun _ => D.Inv S) E :=
  (exists_spec site path).post fun _ _ hw => hw.1

theorem removeInvalidChunk_spec (path : CachePath) {E : CacheWorld → Prop} :
    D.Ends (D.Inv S) (removeInvalidChunk path)
      (fun _ w => D.Inv S w ∧ w.files path = none) E := by
  refine operate (by exact rfl) fun w hw _ =>
    ⟨inv_empty (D.unlink S w path hw), D.unlink S w path hw, ?_⟩
  exact Function.update_self _ _ _

/-- A file that is not there needs no check. -/
theorem inv_insert_of_none {w : CacheWorld} (h : D.Inv S w) (hnone : w.files (.chunk idx) = none) :
    D.Inv (insert idx S) w := by
  refine D.accept S w idx h fun f hf => ?_
  rw [hnone] at hf
  cases hf

theorem inv_of_insert {w : CacheWorld} (h : D.Inv (insert idx S) w) : D.Inv S w :=
  D.mono _ _ w (Set.subset_insert idx S) h

/-! ### Downloading -/

/-- Where a chunk is found valid, it may be read from then on. -/
theorem isChunkValid_spec :
    D.Ends (D.Inv S) (isChunkValid (.chunk idx) args.sourceVersion m.cacheLineSize)
      (fun _ => D.Inv (insert idx S)) (D.Inv S) := by
  have hremove : ∀ E, D.Ends (D.Inv S)
      (do removeInvalidChunk (.chunk idx); pure false) (fun _ => D.Inv (insert idx S)) E := by
    intro E
    refine Triple.bind (removeInvalidChunk_spec (.chunk idx)) fun _ => Triple.ret fun w hw => ?_
    exact inv_insert_of_none hw.1 hw.2
  refine Triple.bind (exists_spec .validity (.chunk idx)) fun b => ?_
  cases b with
  | false => exact Triple.ret fun w hw => inv_insert_of_none hw.1 (hw.2.2 rfl)
  | true =>
      rw [if_pos rfl]
      split
      · refine Triple.pre ?_ fun w hw => hw.1
        refine Triple.tryCatch (D.Inv S) ?_ fun _ => hremove _
        refine Triple.bind (look_only (by exact rfl) fun _ => rfl) fun chunkEtag => ?_
        -- the line size is that of the file when it is read
        refine Triple.bind (M := fun stored w => D.Inv S w ∧ (stored = m.cacheLineSize →
          D.Inv (insert idx S) w)) ?_ fun stored => ?_
        · refine look (by exact rfl) (fun _ => rfl) fun w stored hw _ hact => ⟨hw, fun hn => ?_⟩
          obtain ⟨f, hf, hattr⟩ := CacheWorld.ofAttr_eq_ok hact
          refine D.accept S w idx hw fun f' hf' => ?_
          rw [hf] at hf'
          rw [← Option.some.inj hf', hattr, hn]
        · split
          · exact (hremove _).pre fun w hw => hw.1
          · rename_i hcond
            refine Triple.ret fun w hw => hw.2 ?_
            simp only [Bool.or_eq_true, bne_iff_ne, not_or, not_not] at hcond
            exact hcond.2
      · rename_i hfalsy
        exact Triple.ret fun w hw => D.unchecked S w idx hw.1 hw.2.1 (Bool.eq_false_iff.mpr hfalsy)

/-- The chunks that the loops of a read visit. -/
def visited (S : Set ℕ) (l : List ℕ) : Set ℕ := S ∪ {i | i ∈ l}

theorem visited_nil : visited S [] = S := by simp [visited]

theorem visited_concat (l : List ℕ) (i : ℕ) : visited S (l ++ [i]) = insert i (visited S l) := by
  ext j
  simp only [visited, Set.mem_union, Set.mem_ofPred_eq, List.mem_append, List.mem_singleton,
    Set.mem_insert_iff]
  tauto

/-- After the look over all chunks of the range every chunk of it has been visited. -/
theorem identifyMissingChunks_spec (a b : ℕ) :
    D.Ends (D.Inv S) (identifyMissingChunks a b m.cacheLineSize args.sourceVersion)
      (fun _ => D.Inv (visited S (chunkRange a b))) (D.Inv S) := by
  have hloop : D.Ends (D.Inv (visited S [])) (identifyMissingChunks a b m.cacheLineSize
      args.sourceVersion) (fun _ => D.Inv (visited S (chunkRange a b))) (D.Inv S) := by
    refine Triple.foldlM (I := fun done _ => D.Inv (visited S done)) fun done i rest acc _ => ?_
    have hvalid : D.Ends (D.Inv (visited S done))
        (isChunkValid (.chunk i) args.sourceVersion m.cacheLineSize)
        (fun _ => D.Inv (insert i (visited S done))) (D.Inv S) :=
      isChunkValid_spec.conseq (fun _ hw => hw) (fun _ _ hw => hw)
        fun w hw => D.mono S _ w Set.subset_union_left hw
    refine Triple.bind hvalid fun b => ?_
    rw [visited_concat]
    cases b with
    | true => exact Triple.ret fun _ hw => hw
    | false => exact Triple.ret fun _ hw => hw
  rwa [visited_nil] at hloop

/-- The renaming of the whole file to its chunk 0 keeps the invariant. -/
theorem handleChunk0Renaming_spec (h : idx = 0 → 0 ∈ S) :
    D.Ends (D.Inv S) (handleChunk0Renaming idx m.cacheLineSize) (fun _ => D.Inv S) (D.Inv S) := by
  unfold handleChunk0Renaming
  split
  · rename_i hidx
    subst hidx
    have hmem := h rfl
    refine Triple.bind (exists_only _ .full) fun b => ?_
    split
    · exact Triple.ret fun _ hw => hw
    · refine Triple.tryCatch (D.Inv S) ?_ fun _ => Triple.ret fun _ hw => hw
      refine Triple.bind (M := fun n w => D.Inv S w ∧ (n < m.cacheLineSize → D.Small)) ?_
        fun n => Triple.pull fun hn => ?_
      · refine look (by exact rfl) (fun _ => rfl) fun w n hw _ hact => ⟨hw, fun hlt => ?_⟩
        obtain ⟨f, hf, hlen⟩ := CacheWorld.ofFile_eq_ok hact
        rw [← Except.ok.inj hlen] at hlt
        exact D.small S w f hw hmem hf hlt
      · split
        · rename_i hlt
          refine operate (by exact rfl) fun w hw _ => ?_
          rcases cacheAct_rename content w (.chunk 0) .full with ⟨-, hact⟩ | ⟨f, hf, hact⟩
          · rw [hact]
            exact ⟨inv_empty hw, hw⟩
          · have hkeep := D.rename S w f hw hmem (hn hlt) hf
            rw [hact]
            exact ⟨inv_empty hkeep, hkeep⟩
        · exact Triple.ret fun _ hw => hw
  · exact Triple.ret fun _ hw => hw

/-- The path chosen for a chunk is one that holds it. -/
theorem actualPath_spec {E : CacheWorld → Prop} :
    D.Ends (D.Inv S) (actualPath idx) (fun path w => D.Inv S w ∧ path.Holds idx) E := by
  unfold actualPath
  split
  · rename_i hidx
    refine Triple.bind (exists_only _ .full) fun b => ?_
    split
    · refine Triple.bind (exists_only _ (.chunk idx)) fun b' => ?_
      split
      · exact Triple.ret fun _ hw => ⟨hw, Or.inl rfl⟩
      · exact Triple.ret fun _ hw => ⟨hw, Or.inr ⟨hidx, rfl⟩⟩
    · exact Triple.ret fun _ hw => ⟨hw, Or.inl rfl⟩
  · exact Triple.ret fun _ hw => ⟨hw, Or.inl rfl⟩

theorem updateChunkAccessTime_spec :
    D.Ends (D.Inv S) (updateChunkAccessTime idx) (fun _ => D.Inv S) (D.Inv S) := by
  refine Triple.bind actualPath_spec fun path => Triple.pull fun _ => ?_
  exact look_only (by exact rfl) fun _ => rfl

/-- A fetched chunk is stored with the bytes of the source. -/
theorem fetchAndCacheChunk_spec :
    D.Ends (D.Inv S) (fetchAndCacheChunk idx m.cacheLineSize args.sourceVersion args.sourceSize)
      (fun _ => D.Inv S) (D.Inv S) := by
  have hlen : idx * m.cacheLineSize + m.cacheLineSize - 1 - idx * m.cacheLineSize + 1 =
      m.cacheLineSize := by
    have hpos := m.cacheLineSize_pos
    omega
  unfold fetchAndCacheChunk
  dsimp only
  rw [hlen]
  refine Triple.bind (M := fun data w => D.Inv S w ∧
    data = slice (idx * m.cacheLineSize) m.cacheLineSize D.source) ?_
    fun data => Triple.pull fun hdata => ?_
  · refine look (by exact rfl) (fun _ => rfl) fun w data hw hok hact => ⟨hw, ?_⟩
    rw [← D.fetch S w _ _ hw hok]
    exact (Except.ok.inj hact).symm
  · subst hdata
    refine Triple.bind (M := fun _ => D.Inv (insert idx S)) ?_ fun _ => ?_
    · exact operate (by exact rfl) fun w hw _ =>
        ⟨inv_empty (D.write S w idx hw), D.write S w idx hw⟩
    · -- from here on the chunk counts as this read's own
      refine Triple.conseq (Q := fun _ => D.Inv (insert idx S)) (E := D.Inv (insert idx S)) ?_
        (fun _ hw => hw) (fun _ _ hw => inv_of_insert hw) (fun _ hw => inv_of_insert hw)
      refine Triple.bind (handleChunk0Renaming_spec fun hidx => ?_) fun _ =>
        updateChunkAccessTime_spec
      rw [← hidx]
      exact Set.mem_insert idx S

theorem lock_spec {o : CacheOp} (hfree : o.assembles = none) (hlock : ∀ w, ∃ l n,
      (cacheAct content o w).2 = { w with locks := l, nextLock := n }) :
    D.Ends (D.Inv S) (call o) (fun _ => D.Inv S) (D.Inv S) := by
  refine operate hfree fun w hw _ => ?_
  obtain ⟨l, n, hln⟩ := hlock w
  have hkeep : D.Inv S (cacheAct content o w).2 := by
    rw [hln]
    exact D.locks S w l n hw
  exact ⟨inv_empty hkeep, EndsIn.of_world hkeep⟩

theorem releaseLock_spec (token : ℕ) :
    D.Ends (D.Inv S) (call (.releaseLock idx token)) (fun _ => D.Inv S) (D.Inv S) := by
  refine lock_spec (by exact rfl) fun w => ?_
  show ∃ l n, (if w.locks idx = some token then w.setLock idx none else w) =
    { w with locks := l, nextLock := n }
  split
  · exact ⟨_, _, rfl⟩
  · exact ⟨_, _, rfl⟩

/-- What a body ends in, it ends in under the lock as well. -/
theorem withLock_spec {body : CacheProg Unit}
    (h : D.Ends (D.Inv S) body (fun _ => D.Inv S) (D.Inv S)) :
    D.Ends (D.Inv S) (withLock idx body) (fun _ => D.Inv S) (D.Inv S) := by
  refine Triple.bind (M := fun _ => D.Inv S) (lock_spec (by exact rfl) fun w => ?_) fun token => ?_
  · dsimp only [cacheAct]
    split
    · exact ⟨_, _, rfl⟩
    · exact ⟨_, _, rfl⟩
  · refine Triple.bind (M := fun _ => D.Inv S) ?_ fun _ => releaseLock_spec token
    refine Triple.tryCatch (D.Inv S) h fun e => ?_
    exact Triple.bind (releaseLock_spec token) fun _ => Triple.throw fun _ hw => hw

theorem downloadSingleChunk_spec :
    D.Ends (D.Inv S) (downloadSingleChunk idx m.cacheLineSize args.sourceVersion args.sourceSize)
      (fun _ => D.Inv S) (D.Inv S) := by
  refine withLock_spec (Triple.bind (exists_only _ (.chunk idx)) fun b => ?_)
  split
  · exact Triple.ret fun _ hw => hw
  · exact Triple.bind fetchAndCacheChunk_spec fun _ => lock_spec (by exact rfl) fun w => ⟨_, _, rfl⟩

theorem downloadMissingChunks_spec (a b : ℕ) :
    D.Ends (D.Inv S)
      (downloadMissingChunks a b m.cacheLineSize args.sourceVersion args.sourceSize)
      (fun _ => D.Inv (visited S (chunkRange a b))) (D.Inv S) := by
  refine Triple.bind (identifyMissingChunks_spec a b) fun chunksToDownload => ?_
  refine Triple.forM (I := fun _ => D.Inv (visited S (chunkRange a b))) fun _ i _ _ => ?_
  exact downloadSingleChunk_spec.conseq (fun _ hw => hw) (fun _ _ hw => hw)
    fun w hw => D.mono S _ w Set.subset_union_left hw

/-! ### Assembling -/

/-- What a size attribute says about the chunk, if there is one. -/
theorem getChunkObjectSize_spec {path : CachePath} (hidx : idx ∈ S) (hpath : path.Holds idx) :
    D.Ends (D.Inv S) (getChunkObjectSize path) (fun r w => D.Inv S w ∧ ∀ n, r = some n →
      min m.cacheLineSize (n - idx * m.cacheLineSize) =
        min m.cacheLineSize (D.source.length - idx * m.cacheLineSize)) (D.Inv S) := by
  refine Triple.tryCatch (D.Inv S) ?_ fun _ => Triple.ret fun _ hw => ⟨hw, by simp⟩
  refine Triple.bind (M := fun n w => D.Inv S w ∧
    min m.cacheLineSize (n - idx * m.cacheLineSize) =
      min m.cacheLineSize (D.source.length - idx * m.cacheLineSize)) ?_ fun n =>
    Triple.ret fun w hw => ⟨hw.1, ?_⟩
  · refine look_at hidx hpath (by exact rfl) (fun _ => rfl) fun w n hw hok hact => ⟨hw, ?_⟩
    obtain ⟨f, hf, hsize⟩ := CacheWorld.ofAttr_eq_ok hact
    have hserves := D.serves S w idx path f _ hw hidx hpath hok rfl hf
    rw [hserves.size n hsize]
    exact length_of_block hserves.data
  · intro k hk
    rw [← Option.some.inj hk]
    exact hw.2

/-- The expected length is what the source has of the wanted bytes. -/
theorem expectedLength_spec {path : CachePath} {overlapStart length fileSize : ℕ}
    (hidx : idx ∈ S) (hpath : path.Holds idx) (hstart : idx * m.cacheLineSize ≤ overlapStart)
    (hend : overlapStart - idx * m.cacheLineSize + length ≤ m.cacheLineSize)
    (hsize : min m.cacheLineSize fileSize =
      min m.cacheLineSize (D.source.length - idx * m.cacheLineSize)) :
    D.Ends (D.Inv S)
      (expectedLength path m.cacheLineSize (idx * m.cacheLineSize) overlapStart length fileSize)
      (fun n w => D.Inv S w ∧ n = min length (D.source.length - overlapStart)) (D.Inv S) := by
  have hremove : ∀ {α : Type} (Q : α → CacheWorld → Prop), D.Ends (D.Inv S)
      (do removeInvalidChunk path; MonadExcept.throw OSError.ioError) Q (D.Inv S) := by
    intro α Q
    exact Triple.bind (removeInvalidChunk_spec path) fun _ => Triple.throw fun _ hw => hw.1
  unfold expectedLength
  split
  · refine Triple.bind (getChunkObjectSize_spec hidx hpath) fun r => Triple.pull fun hr => ?_
    rcases r with - | n
    · exact hremove _
    · have hn := hr n rfl
      dsimp only
      split
      · exact hremove _
      · -- a short file ends where the object ends
        refine Triple.ret fun _ hw => ⟨hw, ?_⟩
        omega
  · refine Triple.ret fun _ hw => ⟨hw, ?_⟩
    omega

/-- Where the range and a chunk overlap. -/
theorem overlap {offset size start L : ℕ} (hsize : 1 ≤ size) (hL : 1 ≤ L)
    (hlo : offset < start + L) (hhi : start < offset + size) :
    max offset start ≤ min (offset + size - 1) (start + L - 1) ∧
      max offset start = offset + min size (start - offset) ∧
      min size (start - offset) +
          (min (offset + size - 1) (start + L - 1) - max offset start + 1) =
        min size (start + L - offset) ∧
      max offset start - start +
          (min (offset + size - 1) (start + L - 1) - max offset start + 1) ≤ L := by
  rcases Nat.le_total offset start with hle | hle
  · rcases Nat.le_total (offset + size - 1) (start + L - 1) with hend | hend
    · rw [Nat.max_eq_right hle, Nat.min_eq_left hend]
      omega
    · rw [Nat.max_eq_right hle, Nat.min_eq_right hend]
      omega
  · rcases Nat.le_total (offset + size - 1) (start + L - 1) with hend | hend
    · rw [Nat.max_eq_left hle, Nat.min_eq_left hend]
      omega
    · rw [Nat.max_eq_left hle, Nat.min_eq_right hend]
      omega

/-- One chunk extends the result to its end. -/
theorem assembleChunk_spec (hidx : idx ∈ S)
    (hlo : args.byteRange.offset < idx * m.cacheLineSize + m.cacheLineSize)
    (hhi : idx * m.cacheLineSize < args.byteRange.offset + args.byteRange.size) :
    D.Ends (D.Inv S)
      (assembleChunk m.cacheLineSize args.byteRange (slice args.byteRange.offset
        (min args.byteRange.size (idx * m.cacheLineSize - args.byteRange.offset)) D.source) idx)
      (fun r w => D.Inv S w ∧ r = slice args.byteRange.offset (min args.byteRange.size
        (idx * m.cacheLineSize + m.cacheLineSize - args.byteRange.offset)) D.source)
      (D.Inv S) := by
  obtain ⟨hle, hstart, hsum, hend⟩ := overlap args.size_pos m.cacheLineSize_pos hlo hhi
  generalize hoff : args.byteRange.offset = offset at *
  generalize hsz : args.byteRange.size = size at *
  set chunkStart := idx * m.cacheLineSize with hcs
  set overlapStart := max offset chunkStart with hos
  set length := min (offset + size - 1) (chunkStart + m.cacheLineSize - 1) - overlapStart + 1
    with hlen
  have hnext : slice offset (min size (chunkStart - offset)) D.source ++
      slice overlapStart length D.source =
        slice offset (min size (chunkStart + m.cacheLineSize - offset)) D.source := by
    rw [hstart, slice_append, hsum]
  refine Triple.bind actualPath_spec fun path => Triple.pull fun hpath => ?_
  dsimp only
  rw [hoff, hsz, if_pos hle]
  refine Triple.bind (M := fun n w => D.Inv S w ∧
    min m.cacheLineSize n = min m.cacheLineSize (D.source.length - chunkStart)) ?_
    fun fileSize => Triple.pull fun hsize => ?_
  · -- the file may hold more than the chunk: only its length up to a line counts
    refine look_at hidx hpath (by exact rfl) (fun _ => rfl) fun w n hw hok hact => ⟨hw, ?_⟩
    obtain ⟨f, hf, hn⟩ := CacheWorld.ofFile_eq_ok hact
    have hserves := D.serves S w idx path f _ hw hidx hpath hok rfl hf
    rw [← Except.ok.inj hn]
    exact length_of_block hserves.data
  refine Triple.bind (expectedLength_spec hidx hpath (Nat.le_max_right _ _) hend hsize)
    fun expected => Triple.pull fun hexp => ?_
  split
  · -- the chunk has no byte of the range
    rename_i hzero
    refine Triple.ret fun _ hw => ⟨hw, ?_⟩
    rw [← hnext, ← slice_min (n := length), ← hexp, hzero, slice_nil_of_zero, List.append_nil]
  · refine Triple.bind (M := fun data w => D.Inv S w ∧ data = slice overlapStart length D.source) ?_
      fun data => Triple.pull fun hdata => ?_
    · refine look_at hidx hpath (by exact rfl) (fun _ => rfl) fun w data hw hok hact => ⟨hw, ?_⟩
      obtain ⟨f, hf, hdata⟩ := CacheWorld.ofFile_eq_ok hact
      have hserves := D.serves S w idx path f _ hw hidx hpath hok rfl hf
      have hwithin : overlapStart - chunkStart + expected ≤ m.cacheLineSize := by
        have hle : expected ≤ length := hexp.le.trans (Nat.min_le_left _ _)
        exact (Nat.add_le_add_left hle _).trans hend
      rw [← Except.ok.inj hdata, slice_of_block hserves.data hwithin, ← slice_min (n := length),
        ← hexp, Nat.add_sub_cancel' (Nat.le_max_right _ _)]
    · -- a short read removes the chunk and raises
      split
      · exact Triple.bind (removeInvalidChunk_spec path) fun _ => Triple.throw fun _ hw => hw.1
      · refine Triple.ret fun _ hw => ⟨hw, ?_⟩
        rw [hdata, hnext]

/-- The position of an index in the loop over the chunks. -/
theorem chunkRange_split {a b i : ℕ} {done rest : List ℕ}
    (h : chunkRange a b = done ++ i :: rest) : i = a + done.length ∧ i ≤ b := by
  have hget : (chunkRange a b)[done.length]? = some i := by
    rw [h, List.getElem?_append_right le_rfl, Nat.sub_self]
    rfl
  obtain ⟨hlt, hi⟩ := List.getElem?_eq_some_iff.mp hget
  simp only [chunkRange, List.length_range'] at hlt
  simp only [chunkRange, List.getElem_range', one_mul] at hi
  omega

/-- **Assembling** the result from chunk files gives the wanted range. -/
theorem assembleResultFromChunks_spec
    (h : ∀ i ∈ chunkRange (m.startChunk args.byteRange) (m.endChunk args.byteRange), i ∈ S) :
    D.Ends (D.Inv S)
      (assembleResultFromChunks (m.startChunk args.byteRange) (m.endChunk args.byteRange)
        m.cacheLineSize args.byteRange)
      (fun r w => D.Inv S w ∧ r = slice args.byteRange.offset args.byteRange.size D.source)
      (D.Inv S) := by
  have hpos := m.cacheLineSize_pos
  have hspos := args.size_pos
  have hdiv : ∀ n, n / m.cacheLineSize * m.cacheLineSize ≤ n ∧
      n < n / m.cacheLineSize * m.cacheLineSize + m.cacheLineSize := by
    intro n
    have hmod := Nat.div_add_mod n m.cacheLineSize
    have hlt := Nat.mod_lt n hpos
    rw [Nat.mul_comm] at hmod
    omega
  have hstart := hdiv args.byteRange.offset
  have hend := hdiv (args.byteRange.offset + args.byteRange.size - 1)
  have hle : m.startChunk args.byteRange ≤ m.endChunk args.byteRange :=
    Nat.div_le_div_right (by omega)
  refine Triple.conseq (Q := fun r w => D.Inv S w ∧ r = slice args.byteRange.offset
    (min args.byteRange.size ((m.startChunk args.byteRange + (chunkRange
      (m.startChunk args.byteRange) (m.endChunk args.byteRange)).length) * m.cacheLineSize -
        args.byteRange.offset)) D.source) (Triple.foldlM (I := fun done r w => D.Inv S w ∧
    r = slice args.byteRange.offset (min args.byteRange.size ((m.startChunk args.byteRange +
      done.length) * m.cacheLineSize - args.byteRange.offset)) D.source) ?_) ?_ ?_
    fun _ hw => hw
  · intro done i rest r hl
    refine Triple.pull fun hr => ?_
    obtain ⟨hi, hib⟩ := chunkRange_split hl
    have hmem : i ∈ S := h i (by rw [hl]; exact List.mem_append_right _ List.mem_cons_self)
    -- the chunk overlaps the range
    have hlo : m.startChunk args.byteRange * m.cacheLineSize ≤ i * m.cacheLineSize :=
      Nat.mul_le_mul_right _ (by omega)
    have hhi : i * m.cacheLineSize ≤ m.endChunk args.byteRange * m.cacheLineSize :=
      Nat.mul_le_mul_right _ hib
    unfold startChunk at hlo
    unfold endChunk at hhi
    have hstep := assembleChunk_spec (D := D) hmem (by omega) (by omega)
    rw [hr, ← hi]
    refine hstep.post fun r' w hw => ⟨hw.1, ?_⟩
    rw [hw.2, List.length_append, List.length_singleton, ← Nat.add_assoc, ← hi, Nat.succ_mul]
  · intro w hw
    refine ⟨hw, ?_⟩
    have hzero : (m.startChunk args.byteRange + ([] : List ℕ).length) * m.cacheLineSize -
        args.byteRange.offset = 0 := by
      rw [List.length_nil, Nat.add_zero]
      exact Nat.sub_eq_zero_of_le hstart.1
    rw [hzero, Nat.min_zero, slice_nil_of_zero]
  · rintro r w ⟨hw, hr⟩
    refine ⟨hw, ?_⟩
    have hlen : m.startChunk args.byteRange + (chunkRange (m.startChunk args.byteRange)
        (m.endChunk args.byteRange)).length = m.endChunk args.byteRange + 1 := by
      rw [chunkRange, List.length_range']
      omega
    rw [hr, hlen, Nat.succ_mul]
    congr 1
    unfold endChunk
    omega

/-! ### Reading -/

/-- What the whole cached file answers is a right answer. -/
theorem readRangeFromFullCachedFile_spec {E : CacheWorld → Prop} :
    D.Ends (D.Inv S) (readRangeFromFullCachedFile args.byteRange args.sourceVersion)
      (fun r w => D.Inv S w ∧ ∀ data, r = some data → D.Res data) E := by
  have hnone : ∀ {E : CacheWorld → Prop}, D.Ends (D.Inv S) (pure none)
      (fun r w => D.Inv S w ∧ ∀ data, r = some data → D.Res data) E :=
    Triple.ret fun _ hw => ⟨hw, by simp⟩
  refine Triple.bind (exists_only _ .full) fun b => ?_
  split
  · refine Triple.tryCatch (D.Inv S) ?_ fun _ => hnone
    refine Triple.bind (look_only (by exact rfl) fun _ => rfl) fun cachedEtag => ?_
    split
    · refine Triple.bind (M := fun data w => D.Inv S w ∧ D.Res data) ?_
        fun data => Triple.pull fun hdata => ?_
      · refine look (by exact rfl) (fun _ => rfl) fun w data hw _ hact => ⟨hw, ?_⟩
        obtain ⟨f, hf, hslice⟩ := CacheWorld.ofFile_eq_ok hact
        rw [← Except.ok.inj hslice]
        exact D.full S w f hw hf
      · refine Triple.bind (look_only (by exact rfl) fun _ => rfl) fun _ =>
          Triple.ret fun w hw => ⟨hw, fun data' hd => ?_⟩
        rw [← Option.some.inj hd]
        exact hdata
    · exact hnone
  · exact hnone

/-- What the source answers directly is a right answer. -/
theorem readFallback_spec {E : CacheWorld → Prop} :
    D.Ends (D.Inv S) (readFallback args.byteRange args.sourceSize)
      (fun r w => D.Inv S w ∧ D.Res r) E := by
  have hget : ∀ n, (∀ k, args.sourceSize = some k → args.byteRange.offset < k ∧
        n = min args.byteRange.size (k - args.byteRange.offset)) →
      (args.sourceSize = none → n = args.byteRange.size) →
      D.Ends (D.Inv S) (call (.getObject .fallback args.byteRange.offset n))
        (fun r w => D.Inv S w ∧ D.Res r) E := by
    intro n hsome hnone
    exact operate (by exact rfl) fun w hw _ =>
      ⟨inv_empty hw, hw, D.direct S w n hw hsome hnone⟩
  rcases hsize : args.sourceSize with - | k
  · exact hget _ (fun k hk => by rw [hsize] at hk; cases hk) fun _ => rfl
  · unfold readFallback
    split
    · rename_i k' hk
      obtain rfl := Option.some.inj hk
      split
      · rename_i hle
        exact Triple.ret fun _ hw => ⟨hw, D.behind k hsize hle⟩
      · rename_i hlt
        refine hget _ (fun j hj => ?_) fun hno => ?_
        · rw [hsize] at hj
          obtain rfl := Option.some.inj hj
          exact ⟨by omega, rfl⟩
        · rw [hsize] at hno
          cases hno
    · rename_i hno
      cases hno

/-- **One read** returns an admissible result. -/
theorem read_spec :
    D.Ends (D.Inv S) (m.read args) (fun r w => D.Inv S w ∧ D.Res r) fun _ => False := by
  refine Triple.bind readRangeFromFullCachedFile_spec fun r => Triple.pull fun hr => ?_
  rcases r with - | data
  · refine Triple.tryCatch (D.Inv S) ?_ fun _ => readFallback_spec
    refine Triple.bind (downloadMissingChunks_spec _ _) fun _ => ?_
    have hvisited : ∀ w, D.Inv (visited S (chunkRange (m.startChunk args.byteRange)
        (m.endChunk args.byteRange))) w → D.Inv S w :=
      fun w hw => D.mono S _ w Set.subset_union_left hw
    refine (assembleResultFromChunks_spec fun i hi => ?_).conseq (fun _ hw => hw) ?_ hvisited
    · exact Or.inr hi
    · rintro r w ⟨hw, rfl⟩
      exact ⟨hvisited w hw, D.assembled⟩
  · exact Triple.ret fun _ hw => ⟨hw, hr data rfl⟩

end Discipline

end MultiStorageClient
