/-
MultiStorageClient/MultipartBytes.lean

`download_multipart_to_bytes` of the Rust client: the ranges that it asks for,
and what it returns.

The sizes and offsets are `u64`, and a build with overflow checks panics where
one without them wraps.  `Plan` is what is decided before the first request: one
range, or a range for each chunk.  The requests of the chunks are a `TaskPool`,
so the order in which they end does not matter; what is left is arithmetic
(`offsets_checked`, `chunkAt_eq`) and that the slices of the chunks are those of
the request (`flatten_slices`).
-/
import MultiStorageClient.CheckedArith
import MultiStorageClient.Slice
import MultiStorageClient.TaskPool

namespace MultiStorageClient

open Run Slice

/-! ### The ranges -/

/-- `ByteRangeLike` -/
structure ByteRangeLike where
  offset : UInt64
  size : UInt64
  deriving DecidableEq

/-- What is decided before the first request. -/
inductive Plan
  /-- one request, for a range with its end excluded -/
  | single (start stop : ℕ)
  /-- a request for each chunk; the ends are included -/
  | chunks (chunks : List (ℕ × ℕ))
  deriving DecidableEq

/-- The ranges of the requests, with their ends excluded. -/
def Plan.ranges : Plan → List (ℕ × ℕ)
  | .single start stop => [(start, stop)]
  | .chunks cs => cs.map fun chunk => (chunk.1, chunk.2 + 1)

namespace RustClient

/-- The store, as far as a download uses it. -/
structure Store (ε : Type) where
  /-- the size in the answer to `head` -/
  head : Except ε ℕ
  /-- `get_range` of a range with its end excluded -/
  getRange : ℕ → ℕ → Except ε (List UInt8)

variable {ε : Type} (checks : Bool) (store : Store ε) (range : Option ByteRangeLike) (chunksize : ℕ)

/-- `(start_offset, end_offset, total_size)` -/
def offsets : Except (CallError ε) (ℕ × ℕ × ℕ) :=
  match range with
  | some byteRange => do
      let endVal ← U64.sub checks (← U64.add checks byteRange.offset.toNat byteRange.size.toNat) 1
      pure (byteRange.offset.toNat, endVal, byteRange.size.toNat)
  | none => do
      let fileSize ← store.head.mapError .storage
      pure (0, ← U64.sub checks fileSize 1, fileSize)

/-- `(chunk_start, chunk_end)` -/
def chunkAt (startOffset endOffset i : ℕ) : Except (CallError ε) (ℕ × ℕ) := do
  let chunkStart ← U64.add checks startOffset (← U64.mul checks i chunksize)
  let chunkEnd ← U64.sub checks (← U64.add checks chunkStart chunksize) 1
  pure (chunkStart, min chunkEnd endOffset)

/-- `num_chunks` -/
def numChunks (totalSize : ℕ) : Except (CallError ε) ℕ := do
  pure ((← U64.sub checks (← U64.add checks totalSize chunksize) 1) / chunksize)

/-- What comes before the requests. -/
def plan : Except (CallError ε) Plan := do
  let (startOffset, endOffset, totalSize) ← offsets checks store range
  if totalSize ≤ chunksize then pure (.single startOffset (← U64.add checks endOffset 1))
  else
    .chunks <$> (List.range (← numChunks checks chunksize totalSize)).mapM
      (chunkAt checks chunksize startOffset endOffset)

/-- The task of a chunk. -/
def chunkTask (chunk : ℕ × ℕ) : Except (CallError ε) (List UInt8) := do
  let stop ← U64.add checks chunk.2 1
  (store.getRange chunk.1 stop).mapError .storage

/-- `download_multipart_to_bytes` returns, in whatever order the requests end, and what it returns
meets `P`. -/
def DownloadReturns (concurrency : ℕ) (P : Except (CallError ε) (List UInt8) → Prop) : Prop :=
  match plan checks store range chunksize with
  | .error e => P (.error e)
  | .ok (.single start stop) => P ((store.getRange start stop).mapError .storage)
  | .ok (.chunks chunks) =>
      Returns (TaskPool.step concurrency (chunks.map (chunkTask checks store))) TaskPool.answer
        (fun r => P (List.flatten <$> r)) TaskPool.initial

/-! ### What it should do -/

variable (data : List UInt8)

/-- A store with an object: a range is clipped at its end, and one that is empty or starts after the
end is an error. -/
structure Serves (store : Store ε) (data : List UInt8) : Prop where
  length_lt : data.length < 2 ^ 64
  head : store.head = .ok data.length
  getRange_ok : ∀ start stop, start < stop → start < data.length →
    store.getRange start stop = .ok (slice start (stop - start) data)
  getRange_error : ∀ start stop, stop ≤ start ∨ data.length ≤ start →
    ∃ e, store.getRange start stop = .error e

/-- The offset and the size of what is requested. -/
def request : ℕ × ℕ :=
  match range with
  | some byteRange => (byteRange.offset.toNat, byteRange.size.toNat)
  | none => (0, data.length)

/-- The bytes that a range asks for. -/
def requestedBytes : List UInt8 := slice (request range data).1 (request range data).2 data

/-- Ranges that are not empty, each from where the one before it ends. -/
def Tiles (start stop : ℕ) : List (ℕ × ℕ) → Prop
  | [] => start = stop
  | range :: ranges => range.1 = start ∧ start < range.2 ∧ Tiles range.2 stop ranges

/-- A download returns what is requested, with requests that cover it, and nothing overflows. -/
def Downloads (concurrency : ℕ) : Prop :=
  ∀ checks,
    DownloadReturns checks store range chunksize concurrency (· = .ok (requestedBytes range data)) ∧
      ∃ p, plan checks store range chunksize = .ok p ∧
        Tiles (request range data).1 ((request range data).1 + (request range data).2) p.ranges

/-- The number of the chunks. -/
def chunksOf (size : ℕ) : ℕ := (size + chunksize - 1) / chunksize

/-- A request for at least one byte that starts within the object and ends below 2^64.  Where it
takes more than one chunk, the last one starts within the object, and its end, not clipped, and the
sum of the two sizes are below 2^64. -/
def Fits (length start size : ℕ) : Prop :=
  0 < size ∧ start < length ∧ start + size < 2 ^ 64 ∧
    (size ≤ chunksize ∨
      size + chunksize < 2 ^ 64 ∧ start + chunksOf chunksize size * chunksize < 2 ^ 64 ∧
        start + (chunksOf chunksize size - 1) * chunksize < length)

/-! ### The chunks -/

/-- The first and the last byte of a chunk of a request. -/
def chunkOf (start size i : ℕ) : ℕ × ℕ :=
  (start + i * chunksize, start + i * chunksize + min chunksize (size - i * chunksize) - 1)

section Chunks

variable {checks : Bool} {store : Store ε} {range : Option ByteRangeLike} {chunksize : ℕ}
  {data : List UInt8} {start size i k : ℕ}

/-- The slices of the chunks make up the slice of the range. -/
theorem flatten_slices :
    ((List.range k).map fun i =>
      slice (start + i * chunksize) (min chunksize (size - i * chunksize)) data).flatten =
      slice start (min (k * chunksize) size) data := by
  induction k with
  | zero =>
      rw [Nat.zero_mul, Nat.zero_min]
      exact slice_nil_of_zero.symm
  | succ k ih =>
      rw [List.range_succ, List.map_append, List.flatten_append, ih, List.map_singleton,
        List.flatten_singleton, Nat.succ_mul]
      by_cases hle : k * chunksize ≤ size
      · rw [Nat.min_eq_left hle, slice_append]
        congr 1
        omega
      · have hzero : min chunksize (size - k * chunksize) = 0 := by omega
        rw [hzero, slice_nil_of_zero, List.append_nil]
        congr 1
        omega

theorem Tiles.append {a b c : ℕ} {rs rs' : List (ℕ × ℕ)} (h : Tiles a b rs) (h' : Tiles b c rs') :
    Tiles a c (rs ++ rs') := by
  induction rs generalizing a with
  | nil =>
      obtain rfl : a = b := h
      exact h'
  | cons r rs ih => exact ⟨h.1, h.2.1, ih h.2.2⟩

variable (start) in
/-- The chunks tile the range. -/
theorem tiles_chunks (hchunksize : 0 < chunksize) (hk : ∀ i, i < k → i * chunksize < size) :
    Tiles start (start + min (k * chunksize) size)
      (Plan.chunks ((List.range k).map (chunkOf chunksize start size))).ranges := by
  induction k with
  | zero =>
      rw [Nat.zero_mul, Nat.zero_min]
      exact rfl
  | succ k ih =>
      have hlt := hk k (Nat.lt_succ_self k)
      have hsum : (k + 1) * chunksize = k * chunksize + chunksize := Nat.succ_mul ..
      have hbefore := ih fun i hi => hk i (by omega)
      simp only [Plan.ranges] at hbefore ⊢
      rw [Nat.min_eq_left hlt.le] at hbefore
      rw [List.range_succ, List.map_append, List.map_append]
      refine hbefore.append ⟨rfl, by dsimp only [chunkOf]; omega, ?_⟩
      show start + k * chunksize + min chunksize (size - k * chunksize) - 1 + 1 =
        start + min ((k + 1) * chunksize) size
      omega

variable (size) in
/-- The chunks reach the end of the request. -/
theorem le_chunksOf (hchunksize : 0 < chunksize) : size ≤ chunksOf chunksize size * chunksize := by
  have hdiv := Nat.div_add_mod (size + chunksize - 1) chunksize
  have hmod := Nat.mod_lt (size + chunksize - 1) hchunksize
  rw [Nat.mul_comm] at hdiv
  unfold chunksOf
  omega

/-- Every chunk starts within the request. -/
theorem lt_of_lt_chunksOf (hchunksize : 0 < chunksize) (hi : i < chunksOf chunksize size) :
    i * chunksize < size := by
  have hle := Nat.mul_le_mul_right chunksize (Nat.succ_le_of_lt hi)
  have hdiv := Nat.div_mul_le_self (size + chunksize - 1) chunksize
  rw [Nat.succ_mul] at hle
  unfold chunksOf at hle
  omega

theorem numChunks_eq (hpos : 0 < size + chunksize) (hlt : size + chunksize < 2 ^ 64) :
    numChunks (ε := ε) checks chunksize size = .ok (chunksOf chunksize size) := by
  unfold numChunks
  rw [U64.add_eq hlt]
  simp only [bind, Except.bind, pure, Except.pure]
  rw [U64.sub_eq hpos]
  rfl

/-- The chunk of an index, where nothing wraps. -/
theorem chunkAt_eq (hchunksize : 0 < chunksize) (hi : i * chunksize < size)
    (hlt : start + i * chunksize + chunksize < 2 ^ 64) :
    chunkAt (ε := ε) checks chunksize start (start + size - 1) i =
      .ok (chunkOf chunksize start size i) := by
  unfold chunkAt chunkOf
  rw [U64.mul_eq (by omega)]
  simp only [bind, Except.bind, pure, Except.pure]
  rw [U64.add_eq (by omega)]
  dsimp only
  rw [U64.add_eq hlt]
  dsimp only
  rw [U64.sub_eq (by omega)]
  dsimp only
  congr 2
  omega

end Chunks

/-! ### The plan -/

section Planned

variable {checks : Bool} {store : Store ε} {range : Option ByteRangeLike}
  {chunksize concurrency : ℕ}
  {data : List UInt8}

theorem offsets_none (hserves : Serves store data) :
    offsets checks store none = (U64.sub checks data.length 1).map fun stop => (0, stop,
      data.length) := by
  unfold offsets
  dsimp only
  rw [hserves.head]
  rfl

/-- The offsets of a range that the object serves. -/
theorem offsets_eq (hserves : Serves store data) (hpos : 0 < (request range data).2)
    (hlt : (request range data).1 + (request range data).2 < 2 ^ 64) :
    offsets checks store range = .ok ((request range data).1,
      (request range data).1 + (request range data).2 - 1, (request range data).2) := by
  cases range with
  | none =>
      simp only [request] at hpos ⊢
      rw [offsets_none hserves, U64.sub_eq hpos, Nat.zero_add]
      rfl
  | some byteRange =>
      simp only [request] at hpos hlt ⊢
      simp only [offsets, bind, Except.bind, pure, Except.pure]
      rw [U64.add_eq hlt]
      dsimp only
      rw [U64.sub_eq (by omega)]

/-- What a request has that passes the checks for overflow. -/
theorem offsets_checked (hserves : Serves store data) {o : ℕ × ℕ × ℕ}
    (h : offsets true store range = .ok o) :
    o = ((request range data).1, (request range data).1 + (request range data).2 - 1,
        (request range data).2) ∧
      0 < (request range data).1 + (request range data).2 ∧
      (request range data).1 + (request range data).2 < 2 ^ 64 := by
  cases range with
  | none =>
      simp only [request, Nat.zero_add]
      rw [offsets_none hserves] at h
      by_cases hpos : 1 ≤ data.length
      · rw [U64.sub_eq hpos] at h
        exact ⟨(Except.ok.inj h).symm, hpos, hserves.length_lt⟩
      · rw [U64.sub_overflow hpos] at h
        cases h
  | some byteRange =>
      simp only [request]
      simp only [offsets, bind, Except.bind, pure, Except.pure] at h
      by_cases hlt : byteRange.offset.toNat + byteRange.size.toNat < 2 ^ 64
      · rw [U64.add_eq hlt] at h
        dsimp only at h
        by_cases hone : 1 ≤ byteRange.offset.toNat + byteRange.size.toNat
        · rw [U64.sub_eq hone] at h
          exact ⟨(Except.ok.inj h).symm, hone, hlt⟩
        · rw [U64.sub_overflow hone] at h
          cases h
      · rw [U64.add_overflow hlt] at h
        cases h

/-- The plan, once the offsets are known. -/
theorem plan_of_offsets {start stop size : ℕ}
    (h : offsets checks store range = .ok (start, stop, size)) :
    plan checks store range chunksize =
      if size ≤ chunksize then (U64.add checks stop 1).map (.single start)
      else numChunks checks chunksize size >>= fun n => .chunks <$> TaskPool.results
        ((List.range n).map (chunkAt checks chunksize start stop)) := by
  unfold plan
  rw [h]
  simp only [bind, Except.bind, TaskPool.results, List.mapM_map, Function.id_comp]
  split
  · cases U64.add checks stop 1 <;> rfl
  · rfl

variable (checks) in
/-- One request. -/
theorem plan_single (hserves : Serves store data) (hpos : 0 < (request range data).2)
    (hlt : (request range data).1 + (request range data).2 < 2 ^ 64)
    (hle : (request range data).2 ≤ chunksize) :
    plan checks store range chunksize =
      .ok (.single (request range data).1 ((request range data).1 + (request range data).2)) := by
  have hstop : (request range data).1 + (request range data).2 - 1 + 1 =
      (request range data).1 + (request range data).2 := by omega
  rw [plan_of_offsets (offsets_eq hserves hpos hlt), if_pos hle, U64.add_eq (by omega), hstop]
  rfl

variable (checks) in
/-- A request for each chunk. -/
theorem plan_chunks (hserves : Serves store data) (hchunksize : 0 < chunksize)
    (hlt : (request range data).1 + (request range data).2 < 2 ^ 64)
    (hgt : chunksize < (request range data).2)
    (hsum : (request range data).2 + chunksize < 2 ^ 64) :
    plan checks store range chunksize = .chunks <$> TaskPool.results
      ((List.range (chunksOf chunksize (request range data).2)).map
        (chunkAt checks chunksize (request range data).1
          ((request range data).1 + (request range data).2 - 1))) := by
  rw [plan_of_offsets (offsets_eq hserves (by omega) hlt), if_neg (by omega),
    numChunks_eq (by omega) hsum]
  rfl

end Planned

/-! ### Where it does it -/

section Fitting

variable {checks : Bool} {store : Store ε} {range : Option ByteRangeLike}
  {chunksize concurrency : ℕ}
  {data : List UInt8} {start size i : ℕ}

/-- The task of a chunk gets the chunk's bytes. -/
theorem chunkTask_eq (hserves : Serves store data) (hchunksize : 0 < chunksize)
    (hi : i * chunksize < size) (hlt : start + size < 2 ^ 64)
    (hdata : start + i * chunksize < data.length) :
    chunkTask checks store (chunkOf chunksize start size i) =
      .ok (slice (start + i * chunksize) (min chunksize (size - i * chunksize)) data) := by
  have hstop : start + i * chunksize + min chunksize (size - i * chunksize) - 1 + 1 =
      start + i * chunksize + min chunksize (size - i * chunksize) := by omega
  unfold chunkTask chunkOf
  rw [U64.add_eq (by dsimp only; omega)]
  simp only [bind, Except.bind]
  rw [hstop, hserves.getRange_ok _ _ (by omega) hdata, Nat.add_sub_cancel_left]
  rfl

/-- Where the sums fit, the download gets the range. -/
theorem downloads_of_fits (hserves : Serves store data) (hchunksize : 0 < chunksize)
    (hconcurrency : 0 < concurrency)
    (h : Fits chunksize data.length (request range data).1 (request range data).2) :
    Downloads store range chunksize data concurrency := by
  intro checks
  obtain ⟨hpos, hstart, hlt, hfits⟩ := h
  by_cases hle : (request range data).2 ≤ chunksize
  -- a range of one chunk is got in one request
  · have hplan := plan_single checks hserves hpos hlt hle
    refine ⟨?_, _, hplan, rfl, by dsimp only; omega, rfl⟩
    unfold DownloadReturns
    rw [hplan]
    dsimp only
    rw [hserves.getRange_ok _ _ (by omega) hstart, Nat.add_sub_cancel_left]
    rfl
  -- several chunks, none of which wraps
  · obtain ⟨hsum, hchunks, hlast⟩ := hfits.resolve_left hle
    have hplan := plan_chunks checks hserves hchunksize hlt (by omega) hsum
    have hall := Nat.min_eq_right (le_chunksOf (request range data).2 hchunksize)
    unfold DownloadReturns requestedBytes
    generalize (request range data).1 = start, (request range data).2 = size at *
    have hstarts : ∀ i ∈ List.range (chunksOf chunksize size), i * chunksize < size ∧
        i * chunksize ≤ (chunksOf chunksize size - 1) * chunksize ∧
          i * chunksize + chunksize ≤ chunksOf chunksize size * chunksize := by
      intro i hi
      have hi := List.mem_range.mp hi
      refine ⟨lt_of_lt_chunksOf hchunksize hi, Nat.mul_le_mul_right _ (by omega), ?_⟩
      rw [← Nat.succ_mul]
      exact Nat.mul_le_mul_right _ hi
    rw [TaskPool.results_map fun i hi =>
      chunkAt_eq hchunksize (hstarts i hi).1 (by have := hstarts i hi; omega)] at hplan
    refine ⟨?_, _, hplan, ?_⟩
    · rw [hplan]
      simp only [Functor.map, Except.map]
      refine (TaskPool.returns hconcurrency).mono fun r hr => ?_
      rw [hr, List.map_map, Function.comp_def, TaskPool.results_map fun i hi =>
        chunkTask_eq hserves hchunksize (hstarts i hi).1 hlt (by have := hstarts i hi; omega)]
      dsimp only
      rw [flatten_slices, hall]
    -- the chunks tile the range, so that their bytes make it up
    · have htiles := tiles_chunks start hchunksize fun i hi =>
        (hstarts i (List.mem_range.mpr hi)).1
      rwa [hall] at htiles

/-- A range that the store returns has a byte of the object. -/
theorem lt_of_getRange_ok (hserves : Serves store data) {start stop : ℕ}
    {bytes : List UInt8} (h : (store.getRange start stop).mapError CallError.storage = .ok bytes) :
    start < stop ∧ start < data.length := by
  by_contra hnot
  obtain ⟨e, he⟩ := hserves.getRange_error start stop (by omega)
  rw [he] at h
  cases h

/-- With checks, a chunk that is planned fits. -/
theorem lt_of_chunkAt_ok {stop : ℕ} {chunk : ℕ × ℕ}
    (h : chunkAt (ε := ε) true chunksize start stop i = .ok chunk) :
    chunk.1 = start + i * chunksize ∧ start + i * chunksize + chunksize < 2 ^ 64 := by
  unfold chunkAt at h
  simp only [bind, Except.bind, pure, Except.pure] at h
  by_cases hmul : i * chunksize < 2 ^ 64
  · rw [U64.mul_eq hmul] at h
    dsimp only at h
    by_cases hadd : start + i * chunksize < 2 ^ 64
    · rw [U64.add_eq hadd] at h
      dsimp only at h
      by_cases hend : start + i * chunksize + chunksize < 2 ^ 64
      · refine ⟨?_, hend⟩
        rw [U64.add_eq hend] at h
        dsimp only at h
        split at h
        · cases h
        · cases h
          rfl
      · rw [U64.add_overflow hend] at h
        cases h
    · rw [U64.add_overflow hadd] at h
      cases h
  · rw [U64.mul, U64.wrap, if_neg hmul, if_pos rfl] at h
    cases h

/-- A chunk that is served starts inside the object. -/
theorem lt_of_chunkTask_ok (hserves : Serves store data) {chunk : ℕ × ℕ} {bytes : List UInt8}
    (h : chunkTask checks store chunk = .ok bytes) : chunk.1 < data.length := by
  unfold chunkTask at h
  cases hstop : U64.add (ε := ε) checks chunk.2 1 with
  | error e =>
      rw [hstop] at h
      cases h
  | ok stop =>
      rw [hstop] at h
      exact (lt_of_getRange_ok hserves h).2

/-- Where all requests are answered, a chunk passes the checks and starts within the object. -/
theorem lt_of_chunks (hserves : Serves store data) {n stop : ℕ} {chunks : List (ℕ × ℕ)}
    {bytes : List UInt8} (hi : i ∈ List.range n)
    (hchunks : TaskPool.results ((List.range n).map (chunkAt (ε := ε) true chunksize start stop)) =
      .ok chunks)
    (hbytes : List.flatten <$> TaskPool.results (chunks.map (chunkTask true store)) = .ok bytes) :
    start + i * chunksize + chunksize < 2 ^ 64 ∧ start + i * chunksize < data.length := by
  have hmem := List.mem_map_of_mem (f := chunkAt (ε := ε) true chunksize start stop) hi
  rw [TaskPool.results_eq_ok.mp hchunks] at hmem
  obtain ⟨chunk, hchunk, heq⟩ := List.mem_map.mp hmem
  obtain ⟨hstart, hend⟩ := lt_of_chunkAt_ok heq.symm
  refine ⟨hend, ?_⟩
  cases htasks : TaskPool.results (chunks.map (chunkTask true store)) with
  | error e =>
      rw [htasks] at hbytes
      cases hbytes
  | ok segments =>
      obtain ⟨b, hb⟩ := TaskPool.ok_of_results htasks (List.mem_map_of_mem hchunk)
      exact hstart ▸ lt_of_chunkTask_ok hserves hb

/-- Where the download gets the range, the sums fit. -/
theorem fits_of_downloads (hserves : Serves store data) (hchunksize : 0 < chunksize)
    (hconcurrency : 0 < concurrency) (h : Downloads store range chunksize data concurrency) :
    Fits chunksize data.length (request range data).1 (request range data).2 := by
  obtain ⟨hreturns, p, hplan, -⟩ := h true
  cases ho : offsets true store range with
  -- no offsets, no download
  | error e =>
      unfold plan at hplan
      rw [ho] at hplan
      cases hplan
  | ok o =>
      obtain ⟨rfl, hpos, hlt⟩ := offsets_checked hserves ho
      by_cases hle : (request range data).2 ≤ chunksize
      -- one request, whose end must not wrap
      · rw [plan_of_offsets ho, if_pos hle, U64.add_eq (by omega), Nat.sub_add_cancel hpos] at hplan
        unfold DownloadReturns at hreturns
        rw [plan_of_offsets ho, if_pos hle, U64.add_eq (by omega),
          Nat.sub_add_cancel hpos] at hreturns
        have := lt_of_getRange_ok hserves hreturns
        exact ⟨by omega, this.2, hlt, .inl hle⟩
      -- with checks a sum that wraps is a panic, so the chunk count is right
      · have hsum : (request range data).2 + chunksize < 2 ^ 64 := by
          by_contra hsum
          rw [plan_of_offsets ho, if_neg hle, numChunks, U64.add_overflow hsum] at hplan
          cases hplan
        have hone : 0 < chunksOf chunksize (request range data).2 :=
          Nat.div_pos (by omega) hchunksize
        have hchunks := plan_chunks true hserves hchunksize hlt (by omega) hsum
        unfold DownloadReturns at hreturns
        rw [hchunks] at hreturns
        cases hresults : TaskPool.results ((List.range _).map (chunkAt (ε := ε) true chunksize
            (request range data).1 ((request range data).1 + (request range data).2 - 1))) with
        -- a chunk that fails would fail the download
        | error e =>
            rw [hresults] at hreturns
            cases hreturns
        | ok chunks =>
            rw [hresults] at hreturns
            have hanswer := (TaskPool.returns hconcurrency).iff_of_eq.mp hreturns
            -- the last chunk has been planned, and its end has not wrapped
            have hlast := List.mem_range.mpr (Nat.sub_lt hone Nat.one_pos)
            obtain ⟨hend, hstart⟩ := lt_of_chunks hserves hlast hresults hanswer
            have hn : chunksOf chunksize (request range data).2 * chunksize =
                (chunksOf chunksize (request range data).2 - 1) * chunksize + chunksize := by
              rw [← Nat.succ_mul, Nat.succ_eq_add_one, Nat.sub_add_cancel hone]
            exact ⟨by omega, by omega, hlt, .inr ⟨hsum, by omega, hstart⟩⟩

end Fitting

variable {store : Store ε} {range : Option ByteRangeLike} {chunksize concurrency : ℕ}
  {data : List UInt8}

/-- **`download_multipart_to_bytes`** returns what is requested, in whatever order the requests end
and without an overflow, if and only if the request fits. -/
theorem download_multipart_to_bytes_iff (hserves : Serves store data) (hchunksize : 0 < chunksize)
    (hconcurrency : 0 < concurrency) :
    Downloads store range chunksize data concurrency ↔
      Fits chunksize data.length (request range data).1 (request range data).2 :=
  ⟨fits_of_downloads hserves hchunksize hconcurrency,
    downloads_of_fits hserves hchunksize hconcurrency⟩

/-- A store with one object. -/
def storeOf (data : List UInt8) : Store Unit where
  head := .ok data.length
  getRange start stop :=
    if start < stop ∧ start < data.length then .ok (slice start (stop - start) data) else .error ()

theorem storeOf_serves {data : List UInt8} (h : data.length < 2 ^ 64) :
    Serves (storeOf data) data where
  length_lt := h
  head := rfl
  getRange_ok _ _ hlt hstart := if_pos ⟨hlt, hstart⟩
  getRange_error _ _ hnot := ⟨(), if_neg (by omega)⟩

/-- Three requests for seven bytes of nine, two at a time. -/
theorem downloads_in_chunks :
    Downloads (storeOf [1, 2, 3, 4, 5, 6, 7, 8, 9]) (some ⟨1, 7⟩) 3 [1, 2, 3, 4, 5, 6, 7, 8, 9] 2 :=
  (download_multipart_to_bytes_iff (storeOf_serves (by decide)) (by decide) (by decide)).mpr
    (by unfold Fits; decide)

/-- An empty object is an error, with the checks for overflow and without them. -/
theorem empty_object_fails :
    Serves (storeOf []) [] ∧ ¬Downloads (storeOf []) none 8 [] 4 ∧
      ∀ checks, ¬DownloadReturns checks (storeOf []) none 8 4 (· = .ok []) := by
  have hfails : ∀ checks, ¬DownloadReturns checks (storeOf []) none 8 4 (· = .ok []) := by
    intro checks
    cases checks <;> exact nofun
  exact ⟨storeOf_serves (by decide), fun h => hfails true (h true).1, hfails⟩

end RustClient

end MultiStorageClient
