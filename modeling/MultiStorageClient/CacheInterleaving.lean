/-
MultiStorageClient/CacheInterleaving.lean

Range readers, overwrites of the source and evictions in any interleaving.

Each reader has observed an etag of the object and labels the chunks it
writes with it.  The code fetches a chunk without asking for that version,
and between its checks and the assembly another reader may put a chunk of
another version in place.  In the runs in which neither happens, every file
holds bytes of the version it is labelled with, and every result is a slice
of one version: this is the invariant of the system, and each reader's own
part of it is the weakest precondition of what is left of its code.
-/
import MultiStorageClient.CacheRead
import MultiStorageClient.Run

namespace MultiStorageClient

open Slice Prog

variable {content : PyStr → List UInt8}

/-! ### The system -/

/-- A range reader: the etag it has observed, and possibly the size of that
version. -/
structure RangeReader (content : PyStr → List UInt8) where
  byteRange : Range
  version : PyStr
  sourceSize : Option ℕ
  size_pos : 1 ≤ byteRange.size
  sourceSize_eq : ∀ n, sourceSize = some n → n = (content version).length

/-- The arguments with which a reader calls `read`. -/
def RangeReader.args (r : RangeReader content) : ReadArgs :=
  ⟨r.byteRange, some r.version, r.sourceSize, r.size_pos⟩

/-- The shared world, the etags that the source has had, and the readers with
what is left of their code. -/
structure CacheSystem (content : PyStr → List UInt8) where
  world : CacheWorld
  versions : List PyStr
  readers : List (RangeReader content × CacheProg (List UInt8))

/-- What can happen to the system. -/
inductive CacheAction (content : PyStr → List UInt8)
  /-- a reader that has observed a version starts -/
  | start (r : RangeReader content)
  /-- a reader performs its next operation -/
  | step (i : ℕ)
  | evict (gone : CachePath → Bool)
  /-- the source object gets another content and etag -/
  | overwrite (etag : PyStr)

namespace CacheSystem

/-- The object has one version, and nothing is cached. -/
def init (content : PyStr → List UInt8) (xattrs : Bool) (etag : PyStr) : CacheSystem content :=
  ⟨⟨xattrs, fun _ => none, fun _ => none, 0, etag⟩, [etag], []⟩

/-- One step of the system, where all readers use the same cache manager. -/
def step (m : CacheManager) (s : CacheSystem content) :
    CacheAction content → Option (CacheSystem content)
  | .start r =>
      -- a reader can only ask for a version that the store has had
      if r.version ∈ s.versions then
        some { s with readers := s.readers ++ [(r, m.read r.args)] }
      else none
  | .step i =>
      match s.readers[i]? with
      -- one file operation of one reader, on the world as the others left it
      | some (r, .op o k) =>
          some { s with
            world := (cacheAct content o s.world).2
            readers := s.readers.set i (r, k (cacheAct content o s.world).1) }
      | _ => none
  | .evict gone => some { s with world := s.world.evict gone }
  | .overwrite etag =>
      some { s with world := { s.world with etag := etag }, versions := s.versions ++ [etag] }

end CacheSystem

/-! ### The condition -/

/-- The download of a chunk. -/
def CacheOp.fetches : CacheOp → Bool
  | .getObject .fetch _ _ => true
  | _ => false

/-- A chunk is downloaded for version `v` while the source has version `v`,
and a file from which the result is assembled was written for version `v`. -/
def VersionKept (v : PyStr) (o : CacheOp) (w : CacheWorld) : Prop :=
  (o.fetches = true → w.etag = v) ∧
    ∀ path ∈ o.assembles, ∀ f ∈ w.files path, f.writtenFor = some v

/-- The next operation of the reader that takes a step keeps its version. -/
def CacheSystem.StepKept (s : CacheSystem content) : CacheAction content → Prop
  | .step i =>
      match s.readers[i]? with
      | some (r, .op o _) => VersionKept r.version o s.world
      | _ => True
  | _ => True

/-! ### The invariant of the cache directory -/

/-- The chunk that a file of this name holds. -/
def CachePath.idx : CachePath → ℕ
  | .full => 0
  | .chunk i => i

/-- The file holds a chunk of one version, the one it was written for, and is
labelled with no other. -/
structure CacheFile.OfVersion (content : PyStr → List UInt8) (L : ℕ) (path : CachePath)
    (f : CacheFile) (u : PyStr) : Prop where
  writtenFor : f.writtenFor = some u
  etag : ∀ e, f.etag = some e → e = u
  data : f.data = slice (path.idx * L) L (content u)
  size : ∀ n, f.size = some n → min L (n - path.idx * L) = f.data.length

/-- The source and every file have a version in `V`. -/
structure VersionsOk (content : PyStr → List UInt8) (L : ℕ) (V : Set PyStr) (w : CacheWorld) :
    Prop where
  source : w.etag ∈ V
  files : ∀ path f, w.files path = some f → ∃ u ∈ V, f.OfVersion content L path u

namespace VersionsOk

variable {L : ℕ} {V : Set PyStr} {w : CacheWorld}

theorem evict (h : VersionsOk content L V w) (gone : CachePath → Bool) :
    VersionsOk content L V (w.evict gone) :=
  ⟨h.source, fun path f hf => h.files path f (CacheWorld.files_evict hf)⟩

theorem setFile (h : VersionsOk content L V w) (path : CachePath) (file : Option CacheFile)
    (hfile : ∀ f, file = some f → ∃ u ∈ V, f.OfVersion content L path u) :
    VersionsOk content L V (w.setFile path file) := by
  refine ⟨h.source, fun path' f hf => ?_⟩
  rcases CacheWorld.files_setFile hf with ⟨rfl, hnew⟩ | ⟨-, hold⟩
  · exact hfile f hnew
  · exact h.files path' f hold

theorem remove (h : VersionsOk content L V w) (path : CachePath) :
    VersionsOk content L V (w.setFile path none) :=
  h.setFile path none fun f hf => by cases hf

/-- A chunk downloaded for a version. -/
theorem chunkFile_ofVersion (r : RangeReader content) (i : ℕ) :
    (w.stored (CacheManager.chunkFile (slice (i * L) L (content r.version)) r.args.sourceVersion i
      L r.args.sourceSize)).OfVersion content L (.chunk i) r.version := by
  obtain ⟨hdata, hfor, -, hetag, -, hstored⟩ := w.stored_spec (CacheManager.chunkFile
    (slice (i * L) L (content r.version)) r.args.sourceVersion i L r.args.sourceSize)
  refine ⟨hfor, fun e he => ?_, hdata, fun n hn => ?_⟩
  · have he := hetag e he
    simp only [CacheManager.chunkFile] at he
    split at he
    · exact (Option.some.inj he).symm
    · cases he
  · rw [hdata]
    exact CacheManager.chunkFile_size r.sourceSize_eq (hstored n hn)

/-- Chunk 0 under the name of the full file. -/
theorem rename (h : VersionsOk content L V w) {f : CacheFile} (hf : w.files (.chunk 0) = some f) :
    VersionsOk content L V ((w.setFile (.chunk 0) none).setFile .full (some f)) := by
  refine (h.remove (.chunk 0)).setFile .full (some f) fun f' hf' => ?_
  obtain rfl := Option.some.inj hf'
  obtain ⟨u, hu, hof⟩ := h.files _ _ hf
  exact ⟨u, hu, hof.writtenFor, hof.etag, hof.data, hof.size⟩

end VersionsOk

theorem CacheFile.OfVersion.serves {L : ℕ} {path : CachePath} {f : CacheFile} {u : PyStr}
    (h : f.OfVersion content L path u) : f.Serves (content u) L path.idx := by
  have hlen : f.data.length ≤ L := by
    rw [h.data, length_slice]
    exact Nat.min_le_left _ _
  refine ⟨by rw [slice_whole hlen]; exact h.data, fun n hn => ?_⟩
  rw [h.size n hn, Nat.min_eq_right hlen]

theorem CachePath.Holds.idx_eq {path : CachePath} {i : ℕ} (h : path.Holds i) : path.idx = i := by
  rcases h with rfl | ⟨rfl, rfl⟩
  · rfl
  · rfl

/-! ### One reader -/

/-- The result is a slice, from the wanted offset on, of one version in `V`. -/
def RangeReader.SingleVersion (r : RangeReader content) (V : Set PyStr) (data : List UInt8) :
    Prop :=
  ∃ v ∈ V, ∃ n ≤ r.byteRange.size, data = slice r.byteRange.offset n (content v)

/-- The discipline of a reader among others. -/
def RangeReader.discipline (m : CacheManager) (V : Set PyStr) (r : RangeReader content)
    (hr : r.version ∈ V) : Discipline content m r.args where
  source := content r.version
  rely w w' := VersionsOk content m.cacheLineSize V w → VersionsOk content m.cacheLineSize V w'
  ok := VersionKept r.version
  guar o w := VersionsOk content m.cacheLineSize V (cacheAct content o w).2
  Inv _ w := VersionsOk content m.cacheLineSize V w
  Small := True
  Res := r.SingleVersion V
  stable _ _ _ h hrely := hrely h
  mono _ _ _ _ h := h
  locks _ _ _ _ h := ⟨h.source, h.files⟩
  unlink _ _ path h := h.remove path
  accept _ _ _ h _ := h
  unchecked _ _ _ h _ _ := h
  fetch _ _ _ _ _ hok := congrArg content (hok.1 rfl)
  write _ w idx h := by
    refine h.setFile (.chunk idx) _ fun f hf => ⟨r.version, hr, ?_⟩
    rw [← Option.some.inj hf]
    exact VersionsOk.chunkFile_ofVersion r idx
  small _ _ _ _ _ _ _ := trivial
  rename _ _ _ h _ _ hf := h.rename hf
  free _ _ _ h := h
  guards _ _ _ _ _ _ _ _ _ _ h := h
  serves S w idx path f o h _ hpath hok hat hf := by
    -- a file that is opened was written for the reader's own version
    obtain ⟨u, -, hof⟩ := h.files path f hf
    have hu : u = r.version :=
      Option.some.inj (hof.writtenFor.symm.trans (hok.2 path hat f hf))
    rw [← hpath.idx_eq, ← hu]
    exact hof.serves
  full S w f h hf := by
    -- chunk 0 of any version may stand in for the object
    obtain ⟨u, hu, hof⟩ := h.files .full f hf
    have hdata := hof.data
    rw [CachePath.idx, Nat.zero_mul] at hdata
    refine ⟨u, hu, _, Nat.min_le_left _ (m.cacheLineSize - r.byteRange.offset), ?_⟩
    rw [hdata, slice_slice]
    rfl
  direct S w n h hsome hnone := by
    refine ⟨w.etag, h.source, n, ?_, rfl⟩
    rcases hs : r.args.sourceSize with - | k
    · exact (hnone hs).le
    · rw [(hsome k hs).2]
      exact Nat.min_le_left _ _
  behind _ _ _ := ⟨r.version, hr, 0, Nat.zero_le _, slice_nil_of_zero.symm⟩
  assembled := ⟨r.version, hr, _, le_rfl, rfl⟩

/-! ### All readers -/

/-- What is left of a reader's code leads to a slice of one version. -/
def RangeReader.Safe (m : CacheManager) (V : Set PyStr) (w : CacheWorld)
    (p : RangeReader content × CacheProg (List UInt8)) : Prop :=
  ∃ hr : p.1.version ∈ V, wp (p.1.discipline m V hr).context
    (fun data w => VersionsOk content m.cacheLineSize V w ∧ p.1.SingleVersion V data)
    (fun _ => False) p.2 w

variable {m : CacheManager} {V : Set PyStr} {w w' : CacheWorld}

theorem RangeReader.safe_read (r : RangeReader content) (hr : r.version ∈ V)
    (hw : VersionsOk content m.cacheLineSize V w) : RangeReader.Safe m V w (r, m.read r.args) :=
  ⟨hr, (r.discipline m V hr).read_spec (S := ∅) w hw⟩

/-- A reader does not mind what others do to a directory that stays in order. -/
theorem RangeReader.Safe.other {p : RangeReader content × CacheProg (List UInt8)}
    (h : RangeReader.Safe m V w p) (hw : VersionsOk content m.cacheLineSize V w') :
    RangeReader.Safe m V w' p := by
  obtain ⟨hr, hwp⟩ := h
  refine ⟨hr, wp_rely ?_ ?_ ?_ hwp fun _ => hw⟩
  · exact fun _ _ _ h₁ h₂ h => h₂ (h₁ h)
  · exact fun _ _ _ hQ hrely => ⟨hrely hQ.1, hQ.2⟩
  · exact fun _ _ hE _ => hE

/-- The next operation of a reader keeps the directory in order. -/
theorem RangeReader.Safe.next {r : RangeReader content} {o : CacheOp}
    {k : Except OSError o.Val → CacheProg (List UInt8)}
    (h : RangeReader.Safe m V w (r, .op o k)) (hok : VersionKept r.version o w) :
    VersionsOk content m.cacheLineSize V (cacheAct content o w).2 ∧
      RangeReader.Safe m V (cacheAct content o w).2 (r, k (cacheAct content o w).1) := by
  obtain ⟨hr, hwp⟩ := h
  obtain ⟨hguar, hk⟩ := wp_step (fun _ h => h) hwp hok
  exact ⟨hguar, hr, hk⟩

/-- The invariant of the system. -/
structure CacheSystem.Inv (m : CacheManager) (V : Set PyStr) (s : CacheSystem content) : Prop where
  world : VersionsOk content m.cacheLineSize V s.world
  versions : ∀ v ∈ s.versions, v ∈ V
  readers : ∀ p ∈ s.readers, RangeReader.Safe m V s.world p

namespace CacheSystem

variable {s s' : CacheSystem content} {a : CacheAction content} {acts : List (CacheAction content)}

/-- An action overwrites the source only with versions in `V`. -/
def Overwrites (V : Set PyStr) (a : CacheAction content) : Prop :=
  ∀ etag, a = .overwrite etag → etag ∈ V

/-- A step that keeps what is stored of one version keeps the invariant. -/
theorem step_inv (hinv : Inv m V s) (hok : s.StepKept a) (hV : Overwrites V a)
    (h : s.step m a = some s') : Inv m V s' := by
  cases a with
  | start r =>
      simp only [step] at h
      split at h
      · rename_i hmem
        obtain rfl := Option.some.inj h
        refine ⟨hinv.world, hinv.versions, fun p hp => ?_⟩
        rcases List.mem_append.mp hp with hp | hp
        · exact hinv.readers p hp
        · rw [List.mem_singleton.mp hp]
          exact r.safe_read (hinv.versions _ hmem) hinv.world
      · cases h
  | step i =>
      simp only [step] at h
      split at h
      · rename_i r o k hi
        obtain rfl := Option.some.inj h
        simp only [StepKept, hi] at hok
        obtain ⟨hworld, hnext⟩ := (hinv.readers _ (List.mem_of_getElem? hi)).next hok
        refine ⟨hworld, hinv.versions, fun p hp => ?_⟩
        -- to the other readers the step is one of the environment
        rcases List.mem_or_eq_of_mem_set hp with hp | rfl
        · exact (hinv.readers p hp).other hworld
        · exact hnext
      · cases h
  | evict gone =>
      obtain rfl := Option.some.inj h
      have hworld := hinv.world.evict gone
      exact ⟨hworld, hinv.versions, fun p hp => (hinv.readers p hp).other hworld⟩
  | overwrite etag =>
      obtain rfl := Option.some.inj h
      have hetag := hV etag rfl
      have hworld : VersionsOk content m.cacheLineSize V { s.world with etag := etag } :=
        ⟨hetag, hinv.world.files⟩
      refine ⟨hworld, fun v hv => ?_, fun p hp => (hinv.readers p hp).other hworld⟩
      rcases List.mem_append.mp hv with hv | hv
      · exact hinv.versions v hv
      · rw [List.mem_singleton.mp hv]
        exact hetag

/-- The versions of a system are never forgotten. -/
theorem versions_exec (hrun : Run.exec (step m) s acts = some s') :
    (∀ v ∈ s.versions, v ∈ s'.versions) ∧
      ∀ etag, CacheAction.overwrite etag ∈ acts → etag ∈ s'.versions := by
  induction acts generalizing s with
  | nil =>
      obtain rfl : s = s' := by simpa [Run.exec] using hrun
      exact ⟨fun _ hv => hv, fun _ h => by cases h⟩
  | cons a acts ih =>
      obtain ⟨s₁, hs₁, hrun⟩ := Run.exec_cons.mp hrun
      obtain ⟨hkeep, hrest⟩ := ih hrun
      have hstep : (∀ v ∈ s.versions, v ∈ s₁.versions) ∧
          ∀ etag, a = .overwrite etag → etag ∈ s₁.versions := by
        cases a with
        -- only an overwrite adds a version
        | start r =>
            simp only [step] at hs₁
            split at hs₁
            · rw [← Option.some.inj hs₁]
              exact ⟨fun _ hv => hv, fun _ h => by cases h⟩
            · cases hs₁
        | step i =>
            simp only [step] at hs₁
            split at hs₁
            · rw [← Option.some.inj hs₁]
              exact ⟨fun _ hv => hv, fun _ h => by cases h⟩
            · cases hs₁
        | evict gone =>
            rw [← Option.some.inj hs₁]
            exact ⟨fun _ hv => hv, fun _ h => by cases h⟩
        | overwrite etag =>
            rw [← Option.some.inj hs₁]
            refine ⟨fun v hv => List.mem_append_left _ hv, fun etag' h => ?_⟩
            obtain rfl := CacheAction.overwrite.inj h
            exact List.mem_append_right _ (List.mem_singleton.mpr rfl)
      refine ⟨fun v hv => hkeep v (hstep.1 v hv), fun etag hmem => ?_⟩
      rcases List.mem_cons.mp hmem with heq | hmem
      · exact hkeep etag (hstep.2 etag heq.symm)
      · exact hrest etag hmem

/-- **Readers, overwrites and evictions in any interleaving.**  If every chunk
is downloaded for an etag while the source has it, and results are assembled
only from files written for the reader's etag, then every read that has
returned gave a slice of a single version of the object, and every chunk file
labelled with an etag holds bytes of that version. -/
theorem reads_of_single_version (content : PyStr → List UInt8) (m : CacheManager) (xattrs : Bool)
    (etag : PyStr) (acts : List (CacheAction content)) (s' : CacheSystem content)
    (hok : Run.Always (step m) StepKept (init content xattrs etag) acts)
    (hrun : Run.exec (step m) (init content xattrs etag) acts = some s') :
    (∀ r data, (r, Prog.ret data) ∈ s'.readers → r.SingleVersion {v | v ∈ s'.versions} data) ∧
      ∀ i f v, s'.world.files (.chunk i) = some f → f.etag = some v →
        f.data = slice (i * m.cacheLineSize) m.cacheLineSize (content v) := by
  obtain ⟨hkeep, hover⟩ := versions_exec hrun
  have hinit : Inv m {v | v ∈ s'.versions} (init content xattrs etag) := by
    refine ⟨⟨hkeep etag (List.mem_singleton.mpr rfl), fun _ _ hf => by cases hf⟩, hkeep, ?_⟩
    exact fun p hp => by cases hp
  have halways := hok.and_mem (p := Overwrites {v | v ∈ s'.versions})
    fun a ha e he => hover e (he ▸ ha)
  have hinv : Inv m {v | v ∈ s'.versions} s' :=
    Run.exec_invariant (fun s a s' h hoka hstep => step_inv h hoka.1 hoka.2 hstep) halways
      hrun hinit
  refine ⟨fun r data hmem => ?_, fun i f v hf hv => ?_⟩
  · obtain ⟨hr, hwp⟩ := hinv.readers _ hmem
    exact hwp.2
  · obtain ⟨u, -, hof⟩ := hinv.world.files _ f hf
    rw [hof.etag v hv]
    exact hof.data

instance (v : PyStr) (o : CacheOp) (w : CacheWorld) : Decidable (VersionKept v o w) :=
  inferInstanceAs (Decidable ((o.fetches = true → w.etag = v) ∧ ∀ path ∈ o.assembles, _))

instance (s : CacheSystem content) : (a : CacheAction content) → Decidable (s.StepKept a)
  | .start _ => .isTrue trivial
  | .evict _ => .isTrue trivial
  | .overwrite _ => .isTrue trivial
  | .step i =>
      match h : s.readers[i]? with
      | some (r, .op o _) =>
          decidable_of_iff (VersionKept r.version o s.world) (by simp only [StepKept, h])
      | some (_, .ret _) => .isTrue (by simp only [StepKept, h])
      | some (_, .throw _) => .isTrue (by simp only [StepKept, h])
      | none => .isTrue (by simp only [StepKept, h])

/-! ### Examples -/

/-- The results of the readers that have returned. -/
def results (s : CacheSystem content) : List (Option (List UInt8)) :=
  s.readers.map fun p => match p.2 with
    | .ret data => some data
    | _ => none

/-- An object that is overwritten once. -/
def twoVersions (v : PyStr) : List UInt8 :=
  if v = "v1".toList then [1, 1, 1, 1, 1, 1] else [2, 2, 2, 2, 2, 2, 2]

/-- A reader of six bytes. -/
def readerOf (v : PyStr) : RangeReader twoVersions :=
  ⟨⟨0, 6⟩, v, none, (by decide), (fun _ h => by cases h)⟩

/-- Chunks of four bytes. -/
def fourBytes : CacheManager := .ofFour

/-- A reader of the first version, the overwrite, and a reader of the second
version, which replaces the chunks. -/
def orderlyRun : List (CacheAction twoVersions) :=
  .start (readerOf "v1".toList) :: List.replicate 25 (.step 0) ++
    [.overwrite "v2".toList, .start (readerOf "v2".toList)] ++ List.replicate 31 (.step 1)

/-- The run theorem at a run with two readers and one overwrite. -/
theorem reads_of_single_version_orderlyRun :
    ∃ s', Run.exec (step fourBytes) (init twoVersions true "v1".toList) orderlyRun = some s' ∧
      s'.results = [some [1, 1, 1, 1, 1, 1], some [2, 2, 2, 2, 2, 2]] ∧
      (∀ r data, (r, Prog.ret data) ∈ s'.readers → r.SingleVersion {v | v ∈ s'.versions} data) ∧
      ∀ i f v, s'.world.files (.chunk i) = some f → f.etag = some v →
        f.data = slice (i * 4) 4 (twoVersions v) := by
  have hrun : ∃ s', Run.exec (step fourBytes) (init twoVersions true "v1".toList) orderlyRun =
      some s' ∧ s'.results = [some [1, 1, 1, 1, 1, 1], some [2, 2, 2, 2, 2, 2]] :=
    Run.exec_exists (by decide +kernel)
  obtain ⟨s', hs', hres⟩ := hrun
  have hkept : Run.Always (step fourBytes) StepKept (init twoVersions true "v1".toList)
    orderlyRun := by decide +kernel
  exact ⟨s', hs', hres, reads_of_single_version twoVersions fourBytes true "v1".toList orderlyRun s'
    hkept hs'⟩

/-- The overwrite comes between the downloads of the two chunks. -/
def mixedRun : List (CacheAction twoVersions) :=
  .start (readerOf "v1".toList) :: List.replicate 13 (.step 0) ++
    [.overwrite "v2".toList] ++ List.replicate 12 (.step 0)

/-- The result has bytes of both versions, and a chunk labelled with the
first version holds bytes of the second. -/
theorem mixedRun_mixes_versions :
    ∃ s', Run.exec (step fourBytes) (init twoVersions true "v1".toList) mixedRun = some s' ∧
      s'.results = [some [1, 1, 1, 1, 2, 2]] ∧
      (∀ v ∈ s'.versions, ∀ n ≤ 6, [1, 1, 1, 1, 2, 2] ≠ slice 0 n (twoVersions v)) ∧
      (s'.world.files (.chunk 1)).map (fun f => (f.etag, f.data)) =
        some (some "v1".toList, [2, 2, 2]) :=
  Run.exec_exists (by decide +kernel)

end CacheSystem

end MultiStorageClient
