/-
MultiStorageClient/CacheReads.lean

Sequences of range reads of an object that does not change, while cached
files may be evicted at any time.

Every file in the cache directory holds the bytes of its chunk for the line
size it was written with, or the whole object.  A read with the same line
size is then right whatever is evicted in between.  A read with another line
size is right if it never takes a chunk file on trust: the code looks at the
stored line size only when a source version is given.
-/
import MultiStorageClient.CacheRead

namespace MultiStorageClient

open Slice Prog

/-! ### The cache directory of a constant object -/

/-- The file holds what its path says, for the line size it was written with. -/
def CacheFile.Consistent (object : List UInt8) (f : CacheFile) : CachePath → Prop
  | .full => f.data = object ∧ ∀ n, f.size = some n → n = object.length
  | .chunk i => f.data = slice (i * f.writtenWith) f.writtenWith object ∧
      (∀ k, f.cacheLineSize = some k → k = f.writtenWith) ∧
      ∀ n, f.size = some n → min f.writtenWith (n - i * f.writtenWith) = f.data.length

/-- All files are consistent, and those of the chunks in `S` have been written
with the given line size. -/
structure DirOk (object : List UInt8) (cacheLineSize : ℕ) (S : Set ℕ) (w : CacheWorld) :
    Prop where
  files : ∀ path f, w.files path = some f → f.Consistent object path
  lines : ∀ i ∈ S, ∀ f, w.files (.chunk i) = some f → f.writtenWith = cacheLineSize

namespace DirOk

variable {object : List UInt8} {L : ℕ} {S : Set ℕ} {w : CacheWorld}

theorem evict (h : DirOk object L S w) (gone : CachePath → Bool) :
    DirOk object L S (w.evict gone) :=
  ⟨fun path f hf => h.files path f (CacheWorld.files_evict hf),
    fun i hi f hf => h.lines i hi f (CacheWorld.files_evict hf)⟩

theorem mono {T : Set ℕ} (hST : S ⊆ T) (h : DirOk object L T w) : DirOk object L S w :=
  ⟨h.files, fun i hi => h.lines i (hST hi)⟩

/-- Writing or removing one file. -/
theorem setFile (h : DirOk object L S w) (path : CachePath) (file : Option CacheFile)
    (hcons : ∀ f, file = some f → f.Consistent object path)
    (hline : ∀ i f, path = .chunk i → file = some f → f.writtenWith = L) :
    DirOk object L (S ∪ {i | path = .chunk i}) (w.setFile path file) := by
  refine ⟨fun path' f hf => ?_, fun i hi f hf => ?_⟩
  · rcases CacheWorld.files_setFile hf with ⟨rfl, hnew⟩ | ⟨-, hold⟩
    · exact hcons f hnew
    · exact h.files path' f hold
  · rcases CacheWorld.files_setFile hf with ⟨heq, hnew⟩ | ⟨hne, hold⟩
    · exact hline i f heq.symm hnew
    · rcases hi with hi | hi
      · exact h.lines i hi f hold
      · exact absurd hi.symm hne

theorem remove (h : DirOk object L S w) (path : CachePath) :
    DirOk object L S (w.setFile path none) := by
  refine mono Set.subset_union_left (h.setFile path none ?_ ?_)
  · intro f hf
    cases hf
  · intro i f _ hf
    cases hf

/-- A chunk that a reader downloads. -/
theorem chunkFile_consistent (v : Option PyStr) (i : ℕ) (sourceSize : Option ℕ)
    (hsize : ∀ n, sourceSize = some n → n = object.length) :
    (w.stored (CacheManager.chunkFile (slice (i * L) L object) v i L sourceSize)).Consistent
      object (.chunk i) := by
  obtain ⟨hdata, -, hline, -, hattr, hstored⟩ := w.stored_spec
    (CacheManager.chunkFile (slice (i * L) L object) v i L sourceSize)
  have hline : (w.stored (CacheManager.chunkFile (slice (i * L) L object) v i L
    sourceSize)).writtenWith = L := hline
  refine ⟨by rw [hdata, hline]; rfl, fun k hk => ?_, fun n hn => ?_⟩
  · rw [hline]
    exact (Option.some.inj (hattr k hk)).symm
  · rw [hline, hdata]
    exact CacheManager.chunkFile_size hsize (hstored n hn)

/-- A consistent file serves the chunks of its line size. -/
theorem serves (h : DirOk object L S w) {i : ℕ} (hi : i ∈ S) {path : CachePath}
    (hpath : path.Holds i) {f : CacheFile} (hf : w.files path = some f) :
    f.Serves object L i := by
  rcases hpath with rfl | ⟨rfl, rfl⟩
  · obtain ⟨hdata, -, hsize⟩ := h.files _ f hf
    have hline := h.lines i hi f hf
    rw [hline] at hdata hsize
    have hlen : f.data.length ≤ L := by
      rw [hdata, length_slice]
      exact Nat.min_le_left _ _
    refine ⟨by rw [slice_whole hlen]; exact hdata, fun n hn => ?_⟩
    rw [hsize n hn, Nat.min_eq_right hlen]
  · obtain ⟨hdata, hsize⟩ := h.files _ f hf
    refine ⟨by rw [hdata, Nat.zero_mul], fun n hn => ?_⟩
    rw [hsize n hn, hdata, Nat.zero_mul, Nat.sub_zero]

/-- Chunk 0 of an object that is smaller than a line is the object. -/
theorem rename (h : DirOk object L S w) (h0 : 0 ∈ S) (hsmall : object.length < L)
    {f : CacheFile} (hf : w.files (.chunk 0) = some f) :
    DirOk object L S ((w.setFile (.chunk 0) none).setFile .full (some f)) := by
  obtain ⟨hdata, -, hsize⟩ := h.files _ f hf
  have hline := h.lines 0 h0 f hf
  rw [hline, Nat.zero_mul] at hdata hsize
  rw [slice_whole hsmall.le] at hdata
  refine mono Set.subset_union_left ((h.remove (.chunk 0)).setFile .full (some f) ?_ ?_)
  · intro f' hf'
    obtain rfl := Option.some.inj hf'
    refine ⟨hdata, fun n hn => ?_⟩
    have hmin := hsize n hn
    rw [hdata] at hmin
    omega
  · intro i f' hpath
    cases hpath

end DirOk

/-! ### One read -/

/-- No chunk file written with another line size is read in the assembly. -/
def ReadsOwnLines (m : CacheManager) (o : CacheOp) (w : CacheWorld) : Prop :=
  ∀ i f, o.assembles = some (.chunk i) → w.files (.chunk i) = some f →
    f.writtenWith = m.cacheLineSize

/-- The discipline of a read while files are only removed.  The chunks in
`base` are known to be of the read's line size from the start; for others the
condition `ok` has to say so where the code does not check it. -/
def removals (object : List UInt8) (m : CacheManager) (args : ReadArgs)
    (hsize : ∀ n, args.sourceSize = some n → n = object.length) (base : Set ℕ)
    (ok : CacheOp → CacheWorld → Prop)
    (hok : ∀ w i, ok (.exists .validity (.chunk i)) w → truthy args.sourceVersion = false →
      i ∈ base ∨ ∀ f, w.files (.chunk i) = some f → f.writtenWith = m.cacheLineSize) :
    Discipline (fun _ => object) m args where
  source := object
  rely w w' := ∃ gone, w' = w.evict gone
  ok := ok
  guar := ReadsOwnLines m
  Inv S w := DirOk object m.cacheLineSize (base ∪ S) w
  Small := object.length < m.cacheLineSize
  Res r := r = slice args.byteRange.offset args.byteRange.size object
  stable := by
    rintro S w _ h ⟨gone, rfl⟩
    exact h.evict gone
  mono S T w hST h := h.mono (Set.union_subset_union_right base hST)
  locks S w l n h := ⟨h.files, h.lines⟩
  unlink S w path h := h.remove path
  accept S w idx h hline := by
    -- the stored line size is the one the chunk was written with
    refine ⟨h.files, fun i hi f hf => ?_⟩
    rw [Set.union_insert] at hi
    rcases hi with rfl | hi
    · exact ((h.files _ f hf).2.1 _ (hline f hf)).symm
    · exact h.lines i hi f hf
  unchecked S w idx h hcond hfalsy := by
    -- without a source version `_is_chunk_valid` accepts what it finds
    refine ⟨h.files, fun i hi f hf => ?_⟩
    rw [Set.union_insert] at hi
    rcases hi with rfl | hi
    · rcases hok w i hcond hfalsy with hbase | hline
      · exact h.lines i (Or.inl hbase) f hf
      · exact hline f hf
    · exact h.lines i hi f hf
  fetch _ _ _ _ _ _ := rfl
  write S w idx h := by
    refine DirOk.mono ?_ (h.setFile (.chunk idx) _ ?_ ?_)
    · rw [Set.union_insert]
      rintro i (rfl | hi)
      · exact Or.inr rfl
      · exact Or.inl hi
    · intro f hf
      rw [← Option.some.inj hf]
      exact DirOk.chunkFile_consistent _ _ _ hsize
    · intro i f _ hf
      rw [← Option.some.inj hf]
      exact (w.stored_spec _).2.2.1
  small S w f h h0 hf hlt := by
    -- a chunk 0 shorter than a line holds the whole object
    obtain ⟨hdata, -, -⟩ := h.files _ f hf
    rw [hdata, h.lines 0 (Or.inr h0) f hf, length_slice] at hlt
    omega
  rename S w f h h0 hsmall hf := h.rename (Or.inr h0) hsmall hf
  free o w hfree _ i f hat _ := by
    rw [hfree] at hat
    cases hat
  guards S w idx path o h hidx hpath _ hat _ i f hati hf := by
    obtain rfl : path = .chunk i := Option.some.inj (hat.symm.trans hati)
    rcases hpath with hpath | ⟨-, hpath⟩
    · obtain rfl := CachePath.chunk.inj hpath
      exact h.lines i (Or.inr hidx) f hf
    · cases hpath
  serves S w idx path f o h hidx hpath _ _ hf := h.serves (Or.inr hidx) hpath hf
  full S w f h hf := by rw [(h.files _ f hf).1]
  direct S w n h hsome hnone := by
    rcases hs : args.sourceSize with - | k
    · rw [hnone hs]
    · rw [(hsome k hs).2, hsize k hs, slice_min]
  behind k hk hle := by
    rw [hsize k hk] at hle
    rw [slice, List.drop_of_length_le hle, List.take_nil]
  assembled := rfl

/-! ### Sequences of reads -/

/-- One call of `read`, with the cached files that are evicted right before
each of its operations. -/
structure ReadCall where
  manager : CacheManager
  args : ReadArgs
  evictions : ℕ → CachePath → Bool

namespace ReadCall

variable (object : List UInt8) (r : ReadCall)

/-- What happens before the operation `n`: files are evicted. -/
def env (n : ℕ) (w : CacheWorld) : CacheWorld := w.evict (r.evictions n)

/-- The result of the call and the world after it. -/
def exec (w : CacheWorld) : Except OSError (List UInt8) × CacheWorld :=
  Prog.exec (cacheAct fun _ => object) r.env (r.manager.read r.args) 0 w

/-- Every operation of the call meets `G`. -/
def Always (G : CacheOp → CacheWorld → Prop) (w : CacheWorld) : Prop :=
  Prog.Always (cacheAct fun _ => object) r.env G (r.manager.read r.args) 0 w

/-- `content[offset : offset + size]` -/
def wanted : List UInt8 := slice r.args.byteRange.offset r.args.byteRange.size object

end ReadCall

variable (object : List UInt8)

/-- The results of a sequence of reads on one cache directory. -/
def readAll : List ReadCall → CacheWorld → List (Except OSError (List UInt8))
  | [], _ => []
  | r :: rs, w => (r.exec object w).1 :: readAll rs (r.exec object w).2

/-- Every operation of the sequence meets `G`. -/
def AllCalls (G : ReadCall → CacheOp → CacheWorld → Prop) : List ReadCall → CacheWorld → Prop
  | [], _ => True
  | r :: rs, w => r.Always object (G r) w ∧ AllCalls G rs (r.exec object w).2

/-- An empty cache directory. -/
def emptyCache (xattrs : Bool) (etag : PyStr) : CacheWorld :=
  ⟨xattrs, fun _ => none, fun _ => none, 0, etag⟩

variable {object}

theorem dirOk_emptyCache (xattrs : Bool) (etag : PyStr) (L : ℕ) (S : Set ℕ) :
    DirOk object L S (emptyCache xattrs etag) :=
  ⟨(fun _ _ hf => by cases hf), (fun _ _ _ hf => by cases hf)⟩

/-- One call in a consistent directory. -/
theorem ReadCall.exec_spec {r : ReadCall}
    (hsize : ∀ n, r.args.sourceSize = some n → n = object.length) {base : Set ℕ}
    (ok : CacheOp → CacheWorld → Prop)
    (hok : ∀ w i, ok (.exists .validity (.chunk i)) w → truthy r.args.sourceVersion = false →
      i ∈ base ∨ ∀ f, w.files (.chunk i) = some f → f.writtenWith = r.manager.cacheLineSize)
    {w : CacheWorld} (hw : DirOk object r.manager.cacheLineSize base w)
    (halways : r.Always object ok w) :
    (r.exec object w).1 = .ok (r.wanted object) ∧
      DirOk object r.manager.cacheLineSize base (r.exec object w).2 ∧
      r.Always object (ReadsOwnLines r.manager) w := by
  have hspec := (removals object r.manager r.args hsize base ok hok).read_spec (S := ∅)
  have hstart : (removals object r.manager r.args hsize base ok hok).Inv ∅ w := by
    show DirOk object r.manager.cacheLineSize (base ∪ ∅) w
    rwa [Set.union_empty]
  obtain ⟨hout, hguar⟩ := hspec.exec r.env (fun n w => ⟨r.evictions n, rfl⟩) hstart 0
    halways
  change EndsIn _ _ (r.exec object w) at hout
  rcases hres : r.exec object w with ⟨e | data, w'⟩
  · rw [hres] at hout
    exact hout.elim
  · rw [hres] at hout
    obtain ⟨hdir, hdata⟩ := hout
    refine ⟨congrArg Except.ok hdata, ?_, hguar⟩
    have hdir : DirOk object r.manager.cacheLineSize (base ∪ ∅) w' := hdir
    rwa [Set.union_empty] at hdir

/-- **Range reads on one cache manager** return the wanted slices, whatever is
evicted before whichever operation, on a file system with or without extended
attributes. -/
theorem reads_return_slices (object : List UInt8) (m : CacheManager) (xattrs : Bool)
    (etag : PyStr) (calls : List ReadCall) (hm : ∀ r ∈ calls, r.manager = m)
    (hsize : ∀ r ∈ calls, ∀ n, r.args.sourceSize = some n → n = object.length) :
    readAll object calls (emptyCache xattrs etag) = calls.map fun r => .ok (r.wanted object) := by
  suffices h : ∀ w, DirOk object m.cacheLineSize Set.univ w →
      readAll object calls w = calls.map fun r => .ok (r.wanted object) from
    h _ (dirOk_emptyCache xattrs etag _ _)
  induction calls with
  | nil => exact fun _ _ => rfl
  | cons r rs ih =>
      intro w hw
      obtain rfl := hm r List.mem_cons_self
      obtain ⟨hres, hdir, -⟩ := ReadCall.exec_spec (hsize r List.mem_cons_self)
        (fun _ _ => True) (fun _ i _ _ => Or.inl (Set.mem_univ i)) hw
        (Prog.Always.of_forall (fun _ _ => trivial) _ _ _)
      rw [readAll, hres, List.map_cons, ih (fun r' hr' => hm r' (List.mem_cons_of_mem r hr'))
        (fun r' hr' => hsize r' (List.mem_cons_of_mem r hr')) _ hdir]

/-! ### Several line sizes -/

/-- The chunk whose existence `_is_chunk_valid` tests. -/
def CacheOp.validates : CacheOp → Option ℕ
  | .exists .validity (.chunk i) => some i
  | _ => none

/-- Where `_is_chunk_valid` accepts an existing chunk without looking at its
attributes, the chunk has been written with the line size of the reader. -/
def LineSizeKnown (r : ReadCall) (o : CacheOp) (w : CacheWorld) : Prop :=
  ∀ i ∈ o.validates, truthy r.args.sourceVersion = true ∨
    ∀ f ∈ w.files (.chunk i), f.writtenWith = r.manager.cacheLineSize

/-- **Range reads with any line sizes** on one cache directory return the
wanted slices and never take a chunk of another line size for one of their
own, in every sequence in which no read without a source version finds a
chunk file that was written with another line size. -/
theorem reads_across_line_sizes (object : List UInt8) (xattrs : Bool) (etag : PyStr)
    (calls : List ReadCall)
    (hsize : ∀ r ∈ calls, ∀ n, r.args.sourceSize = some n → n = object.length)
    (hok : AllCalls object LineSizeKnown calls (emptyCache xattrs etag)) :
    readAll object calls (emptyCache xattrs etag) = calls.map (fun r => .ok (r.wanted object)) ∧
      AllCalls object (fun r => ReadsOwnLines r.manager) calls (emptyCache xattrs etag) := by
  suffices h : ∀ w, DirOk object 0 ∅ w → AllCalls object LineSizeKnown calls w →
      readAll object calls w = calls.map (fun r => .ok (r.wanted object)) ∧
        AllCalls object (fun r => ReadsOwnLines r.manager) calls w from
    h _ (dirOk_emptyCache xattrs etag _ _) hok
  clear hok
  induction calls with
  | nil => exact fun _ _ _ => ⟨rfl, trivial⟩
  | cons r rs ih =>
      intro w hw hok
      -- with no chunk known, the line size of the invariant does not matter
      have hw' : DirOk object r.manager.cacheLineSize ∅ w := ⟨hw.files, fun _ hi => hi.elim⟩
      have hknown : ∀ w i, LineSizeKnown r (.exists .validity (.chunk i)) w →
          truthy r.args.sourceVersion = false → i ∈ (∅ : Set ℕ) ∨
            ∀ f, w.files (.chunk i) = some f → f.writtenWith = r.manager.cacheLineSize := by
        intro w i hi hfalsy
        rcases hi i rfl with htrue | hline
        · rw [hfalsy] at htrue
          cases htrue
        · exact Or.inr fun f hf => hline f hf
      obtain ⟨hres, hdir, hown⟩ := ReadCall.exec_spec (hsize r List.mem_cons_self) _ hknown hw'
        hok.1
      obtain ⟨hrest, hrestOwn⟩ := ih (fun r' hr' => hsize r' (List.mem_cons_of_mem r hr')) _
        ⟨hdir.files, fun _ hi => hi.elim⟩ hok.2
      refine ⟨?_, hown, hrestOwn⟩
      rw [readAll, hres, List.map_cons, hrest]

instance (r : ReadCall) (o : CacheOp) (w : CacheWorld) : Decidable (LineSizeKnown r o w) :=
  inferInstanceAs (Decidable (∀ i ∈ o.validates, _))

instance AllCalls.decidable (G : ReadCall → CacheOp → CacheWorld → Prop)
    [∀ r o w, Decidable (G r o w)] :
    (calls : List ReadCall) → (w : CacheWorld) → Decidable (AllCalls object G calls w)
  | [], _ => .isTrue trivial
  | r :: rs, w =>
      @instDecidableAnd _ _ (Prog.Always.decidable _ _ _ _ _ _)
        (AllCalls.decidable G rs (r.exec object w).2)

/-! ### Examples -/

/-- An object of ten bytes. -/
def tenBytes : List UInt8 := [0, 1, 2, 3, 4, 5, 6, 7, 8, 9]

/-- A call without evictions. -/
def plainCall (cacheLineSize : ℕ) (hl : 1 ≤ cacheLineSize) (offset size : ℕ) (hs : 1 ≤ size)
    (sourceVersion : Option PyStr) : ReadCall :=
  ⟨⟨cacheLineSize, hl⟩, ⟨⟨offset, size⟩, sourceVersion, none, hs⟩, fun _ _ => false⟩

/-- Chunk 1 is evicted between its download and the assembly. -/
def evictedCall : ReadCall :=
  { plainCall 4 CacheManager.ofFour.cacheLineSize_pos 3 16 (by decide) none with
    evictions := fun n path => n == 40 && path == .chunk 1 }

theorem reads_return_slices_evicted :
    readAll tenBytes [evictedCall, plainCall 4 (by decide) 6 3 (by decide) (some "v1".toList)]
      (emptyCache true "v1".toList) = [.ok [3, 4, 5, 6, 7, 8, 9], .ok [6, 7, 8]] := by
  refine (reads_return_slices tenBytes ⟨4, by decide⟩ true "v1".toList _ ?_ ?_).trans (by decide)
  · decide
  · decide

/-- With the source version the stored line size is checked. -/
theorem reads_across_line_sizes_versioned :
    readAll tenBytes [plainCall 4 (by decide) 0 8 (by decide) none,
        plainCall 2 (by decide) 2 2 (by decide) (some "v1".toList)]
        (emptyCache true "v1".toList) = [.ok [0, 1, 2, 3, 4, 5, 6, 7], .ok [2, 3]] :=
  (reads_across_line_sizes tenBytes true "v1".toList _ (by decide) (by decide +kernel)).1

/-- Without it, chunk 1 of line size 4 is taken for chunk 1 of line size 2. -/
theorem reads_misread_other_line_size :
    readAll tenBytes [plainCall 4 (by decide) 0 8 (by decide) none,
        plainCall 2 (by decide) 2 2 (by decide) none] (emptyCache true "v1".toList) =
      [.ok [0, 1, 2, 3, 4, 5, 6, 7], .ok [4, 5]] ∧ slice 2 2 tenBytes = [2, 3] := by
  decide +kernel

end MultiStorageClient
