/-
MultiStorageClient/ClientReads.lean

What reads through the client return, for an object that does not change and
that the replicas hold as the source does.

With a cache, a range read always returns the wanted slice: the cache files
stay consistent, and every exception ends in a ranged read of the source.
Without a cache but with replicas, the whole object is returned, since
`_read_from_replica_or_primary` has no byte range.
-/
import MultiStorageClient.StorageClient

namespace MultiStorageClient

open Slice Prog

/-! ### Between two operations -/

/-- Cached files are evicted, and the parties fail or recover. -/
def clientContext (source : SourceObject) :
    Context ClientOp ClientOp.Val OSError ClientWorld where
  act := clientAct source
  rely w w' := ∃ gone, w'.cache = w.cache.evict gone
  ok _ _ := True
  guar _ _ := True

/-- All cache files hold what their paths say, for one line size. -/
def CacheOk (source : SourceObject) (cacheLineSize : ℕ) (w : ClientWorld) : Prop :=
  DirOk source.content cacheLineSize Set.univ w.cache

variable {source : SourceObject} {L : ℕ}

theorem cacheOk_stable : Stable (clientContext source) (CacheOk source L) := by
  rintro w w' h ⟨gone, hgone⟩
  show DirOk _ _ _ w'.cache
  rw [hgone]
  exact DirOk.evict h gone

/-- From a consistent cache the program ends in `Q` or, if it raises, in
`E`. -/
abbrev ReadEnds (source : SourceObject) (L : ℕ) {α : Type} (x : ClientProg α)
    (Q : α → ClientWorld → Prop) (E : ClientWorld → Prop) : Prop :=
  Triple (clientContext source) (CacheOk source L) x Q E

theorem operate {o : ClientOp} {Q : o.Val → ClientWorld → Prop} {E : ClientWorld → Prop}
    (h : ∀ w, CacheOk source L w → EndsIn Q E (clientAct source o w)) :
    ReadEnds source L (clientCall o) Q E :=
  Triple.perform cacheOk_stable fun w hw _ => ⟨trivial, h w hw⟩

/-- An operation that leaves the world as it is. -/
theorem look {o : ClientOp} (hlook : ∀ w, (clientAct source o w).2 = w) {φ : o.Val → Prop}
    (h : ∀ w a, CacheOk source L w → (clientAct source o w).1 = .ok a → φ a) :
    ReadEnds source L (clientCall o) (fun a w => CacheOk source L w ∧ φ a) (CacheOk source L) := by
  apply operate
  intro w hw
  have hsame := hlook w
  rcases hact : clientAct source o w with ⟨e | a, w'⟩
  · rw [hact] at hsame
    obtain rfl : w' = w := hsame
    exact hw
  · rw [hact] at hsame
    obtain rfl : w' = w := hsame
    exact ⟨hw, h w' a hw (congrArg Prod.fst hact)⟩

theorem look_only {o : ClientOp} (hlook : ∀ w, (clientAct source o w).2 = w) :
    ReadEnds source L (clientCall o) (fun _ => CacheOk source L) (CacheOk source L) :=
  (look (φ := fun _ => True) hlook fun _ _ _ _ => trivial).post fun _ _ hw => hw.1

/-! ### The cache manager -/

/-- What a program of the cache manager does alone, it does in the client. -/
theorem onCache_spec {α : Type} {x : CacheProg α} {guar : CacheOp → CacheWorld → Prop}
    {P : CacheWorld → Prop} {Q : α → CacheWorld → Prop} {E : CacheWorld → Prop}
    (h : Triple ⟨cacheAct fun _ => source.content, fun w w' => ∃ gone, w' = w.evict gone,
      fun _ _ => True, guar⟩ P x Q E) :
    Triple (clientContext source) (fun w => P w.cache) (onCache x) (fun a w => Q a w.cache)
      fun w => E w.cache := by
  show Triple (clientContext source) _ (Prog.lift ClientOp.cache x) _ _
  apply Triple.lift ClientOp.cache ClientWorld.cache (h := h)
  · exact fun _ _ hrely => hrely
  · exact fun _ _ _ => trivial
  · exact fun _ _ _ => trivial
  · exact fun _ _ => ⟨rfl, rfl⟩

/-- A range read of the cache manager within the client. -/
theorem onCache_read_spec (m : CacheManager) (args : ReadArgs)
    (hsize : ∀ n, args.sourceSize = some n → n = source.content.length)
    {E : ClientWorld → Prop} :
    ReadEnds source m.cacheLineSize (onCache (m.read args)) (fun data w =>
      CacheOk source m.cacheLineSize w ∧
        data = slice args.byteRange.offset args.byteRange.size source.content) E := by
  have hspec := (removals source.content m args hsize Set.univ (fun _ _ => True)
    fun _ i _ _ => Or.inl (Set.mem_univ i)).read_spec (S := ∅)
  refine (onCache_spec hspec).conseq (fun w hw => ?_) (fun data w hw => ⟨?_, hw.2⟩)
    fun _ hw => hw.elim
  · show DirOk _ _ (Set.univ ∪ ∅) w.cache
    rw [Set.union_empty]
    exact hw
  · have hdir : DirOk source.content m.cacheLineSize (Set.univ ∪ ∅) w.cache := hw.1
    rwa [Set.union_empty] at hdir

/-- The look into the cache keeps it. -/
theorem contains_spec (cache : ClientCache) (v : Option PyStr) :
    ReadEnds source L (cache.contains v) (fun _ => CacheOk source L) (CacheOk source L) := by
  refine Triple.bind (look_only fun _ => rfl) fun b => ?_
  cases b with
  | false => exact Triple.ret fun _ hw => hw
  | true =>
      rw [if_pos rfl]
      split
      · refine Triple.tryCatch (CacheOk source L) ?_ fun _ => Triple.ret fun _ hw => hw
        exact Triple.bind (look_only fun _ => rfl) fun _ => Triple.ret fun _ hw => hw
      · exact Triple.ret fun _ hw => hw

/-- A cached file holds the object. -/
theorem readFull_spec (cache : ClientCache) (v : Option PyStr) {E : ClientWorld → Prop} :
    ReadEnds source L (cache.readFull v) (fun r w => CacheOk source L w ∧
      ∀ data, r = some data → data = source.content) E := by
  refine Triple.tryCatch (CacheOk source L) ?_ fun _ => Triple.ret fun _ hw => ⟨hw, by simp⟩
  refine Triple.bind (contains_spec cache v) fun b => ?_
  split
  · refine Triple.bind (look (φ := fun data => data = source.content) (fun _ => rfl) ?_) fun data =>
      Triple.pull fun hdata => ?_
    · intro w data hw hact
      obtain ⟨f, hf, hf'⟩ := CacheWorld.ofFile_eq_ok hact
      rw [← Except.ok.inj hf']
      exact (hw.files _ f hf).1
    · refine Triple.bind (look_only fun _ => rfl) fun _ => Triple.ret fun _ hw => ⟨hw, ?_⟩
      intro data' h
      rw [← Option.some.inj h]
      exact hdata
  · exact Triple.ret fun _ hw => ⟨hw, by simp⟩

/-- A whole file with the object's bytes and no size attribute. -/
theorem cacheOk_setFull {w : ClientWorld} (h : CacheOk source L w) {f : CacheFile}
    (hdata : f.data = source.content) (hsize : ∀ n, f.size = some n → n = source.content.length) :
    DirOk source.content L Set.univ (w.cache.setFile .full (some f)) := by
  refine DirOk.mono Set.subset_union_left (DirOk.setFile h .full (some f) ?_ ?_)
  · intro f' hf'
    rw [← Option.some.inj hf']
    exact ⟨hdata, hsize⟩
  · intro i f' hpath
    cases hpath

/-- The etag that is set keeps the cache. -/
theorem setEtag_spec (v : PyStr) :
    ReadEnds source L (clientCall (.setEtag v)) (fun _ => CacheOk source L) (CacheOk source L) := by
  apply operate
  intro w hw
  apply EndsIn.of_world
  show DirOk _ _ _ (w.cache.setEtag v).2
  unfold CacheWorld.setEtag
  rcases hf : w.cache.files .full with - | f
  · exact hw
  · obtain ⟨hdata, hsize⟩ := hw.files _ f hf
    cases w.cache.xattrs with
    | true => exact cacheOk_setFull hw hdata hsize
    | false => exact hw

theorem label_spec (v : Option PyStr) :
    ReadEnds source L (ClientCache.label v) (fun _ => CacheOk source L) (CacheOk source L) := by
  unfold ClientCache.label
  split
  · split
    · exact Triple.tryCatch (CacheOk source L) (setEtag_spec _) fun _ => Triple.ret fun _ hw => hw
    · exact Triple.ret fun _ hw => hw
  · exact Triple.ret fun _ hw => hw

/-- The content of the source may be put into the cache. -/
theorem set_spec (v : Option PyStr) :
    ReadEnds source L (ClientCache.set source.content v) (fun _ => CacheOk source L)
      (CacheOk source L) := by
  refine Triple.bind (M := fun _ => CacheOk source L) (operate fun w hw => ?_) fun _ => ?_
  · show EndsIn _ _ (if w.diskFails then _ else _)
    split
    · exact hw
    · exact cacheOk_setFull hw rfl (by intro n h; cases h)
  · refine Triple.bind (label_spec v) fun _ => ?_
    exact Triple.bind (look_only fun _ => rfl) fun _ => look_only fun _ => rfl

/-- The metadata say how long the object is. -/
theorem fetchMetadata_spec (cache : ClientCache) (mode : SourceVersionCheckMode) :
    ReadEnds source L (cache.fetchMetadata mode) (fun metadata w => CacheOk source L w ∧
      ∀ info, metadata = some info → info.contentLength = source.content.length)
      (CacheOk source L) := by
  unfold ClientCache.fetchMetadata
  split
  · refine Triple.bind (M := fun info w => CacheOk source L w ∧
      info.contentLength = source.content.length) (look (fun _ => rfl) ?_) fun info =>
        Triple.pull fun hinfo => Triple.ret fun _ hw => ⟨hw, ?_⟩
    · intro w info _ hact
      change (if w.headFails then _ else _) = _ at hact
      split at hact
      · cases hact
      · rw [← Except.ok.inj hact]
    · intro info' h
      rw [← Option.some.inj h]
      exact hinfo
  · exact Triple.ret fun _ hw => ⟨hw, by simp⟩

/-! ### The client -/

namespace SingleStorageClient

variable (c : SingleStorageClient)

theorem resolveReadPath_spec (path : PyStr) :
    ReadEnds source L (c.resolveReadPath path) (fun _ => CacheOk source L) (CacheOk source L) := by
  unfold resolveReadPath
  rcases c.metadataProvider with - | mp
  · exact Triple.ret fun _ hw => hw
  · dsimp only
    split
    · exact Triple.ret fun _ hw => hw
    · exact Triple.throw fun _ hw => hw

variable {c} in
/-- An existing object is found. -/
theorem Resolves.spec {path : PyStr} (h : c.Resolves path) {E : ClientWorld → Prop} :
    ReadEnds source L (c.resolveReadPath path) (fun _ => CacheOk source L) E := by
  unfold resolveReadPath
  rcases hmp : c.metadataProvider with - | mp
  · exact Triple.ret fun _ hw => hw
  · dsimp only
    rw [if_pos (h mp hmp)]
    exact Triple.ret fun _ hw => hw

theorem getSourceVersion_spec (path : PyStr) :
    ReadEnds source L (c.getSourceVersion path) (fun _ => CacheOk source L) (CacheOk source L) := by
  unfold getSourceVersion
  rcases c.metadataProvider with - | mp
  · exact Triple.bind (look_only fun _ => rfl) fun _ => Triple.ret fun _ hw => hw
  · dsimp only
    rcases mp.getObjectMetadata path with e | etag
    · exact Triple.throw fun _ hw => hw
    · exact Triple.ret fun _ hw => hw

/-- The provider does not raise on the object itself. -/
theorem getObject_spec (byteRange : Option Range) {E : ClientWorld → Prop} :
    ReadEnds source L (clientCall (.getObject byteRange)) (fun data w => CacheOk source L w ∧
      data = requested byteRange source.content) E :=
  operate fun _ hw => ⟨hw, rfl⟩

theorem downloadFile_spec (replica : Option ℕ) {E : ClientWorld → Prop} :
    ReadEnds source L (clientCall (.downloadFile replica)) (fun data w => CacheOk source L w ∧
      data = source.content) E :=
  operate fun _ hw => ⟨hw, rfl⟩

/-- What a replica answers is the source's content. -/
theorem downloadFromReplica_spec (i : ℕ) {E : ClientWorld → Prop} :
    ReadEnds source L (downloadFromReplica i) (fun r w => CacheOk source L w ∧
      ∀ data, r = some data → data = source.content) E := by
  refine Triple.tryCatch (CacheOk source L) ?_ fun _ => Triple.ret fun _ hw => ⟨hw, by simp⟩
  refine Triple.bind (look_only fun _ => rfl) fun b => ?_
  split
  · refine Triple.bind (downloadFile_spec (some i)) fun data => Triple.pull fun hdata => ?_
    refine Triple.ret fun _ hw => ⟨hw, fun data' h => ?_⟩
    rw [← Option.some.inj h]
    exact hdata
  · exact Triple.ret fun _ hw => ⟨hw, by simp⟩

/-- Whichever replica is read, it holds the object. -/
theorem downloadFromReplicas_spec (i n : ℕ) {E : ClientWorld → Prop} :
    ReadEnds source L (downloadFromReplicas i n) (fun r w => CacheOk source L w ∧
      ∀ data, r = some data → data = source.content) E := by
  induction n generalizing i with
  | zero => exact Triple.ret fun _ hw => ⟨hw, by simp⟩
  | succ n ih =>
      refine Triple.bind (downloadFromReplica_spec i) fun r => Triple.pull fun hr => ?_
      rcases r with - | data
      · exact ih (i + 1)
      · exact Triple.ret fun _ hw => ⟨hw, hr⟩

theorem readFromReplicaOrPrimary_spec {E : ClientWorld → Prop} :
    ReadEnds source L c.readFromReplicaOrPrimary (fun data w => CacheOk source L w ∧
      data = source.content) E := by
  refine Triple.bind (downloadFromReplicas_spec 0 c.replicas) fun r => Triple.pull fun hr => ?_
  rcases r with - | data
  · exact downloadFile_spec none
  · exact Triple.ret fun _ hw => ⟨hw, hr data rfl⟩

/-- **A range read with a cache** returns the slice, or raises and leaves the
cache consistent. -/
theorem readRangeCached_spec (cache : ClientCache) (r : ByteRange)
    (mode : SourceVersionCheckMode) :
    ReadEnds source cache.manager.cacheLineSize (readRangeCached cache r mode)
      (fun data w => CacheOk source cache.manager.cacheLineSize w ∧
        data = slice r.1.offset r.1.size source.content)
      (CacheOk source cache.manager.cacheLineSize) := by
  refine Triple.bind (fetchMetadata_spec cache mode) fun metadata => Triple.pull fun hlen => ?_
  rcases metadata with - | info
  · exact onCache_read_spec _ _ (by intro n h; cases h)
  · have hinfo := hlen info rfl
    dsimp only
    split
    · -- the range covers the object
      rename_i hall
      refine Triple.bind (getObject_spec none) fun data => Triple.pull fun hdata => ?_
      obtain rfl : data = source.content := hdata
      refine Triple.bind (set_spec _) fun _ => Triple.ret fun _ hw => ⟨hw, ?_⟩
      rw [hinfo, List.take_length, hall.1, slice_whole (hinfo ▸ hall.2)]
    · exact onCache_read_spec _ _ (by
        intro n h
        rw [← Option.some.inj h]
        exact hinfo)

theorem readFullDirect_spec {E : ClientWorld → Prop} :
    ReadEnds source L c.readFullDirect (fun data w => CacheOk source L w ∧
      data = source.content) E := by
  unfold readFullDirect
  split
  · exact c.readFromReplicaOrPrimary_spec
  · exact getObject_spec none

/-- The whole read with a cache returns the source's content. -/
theorem readFullCached_spec (cache : ClientCache) (path : PyStr) (mode : SourceVersionCheckMode) :
    ReadEnds source L (c.readFullCached cache path mode)
      (fun data w => CacheOk source L w ∧ data = source.content) (CacheOk source L) := by
  refine Triple.bind (M := fun _ => CacheOk source L) ?_ fun v => ?_
  · unfold checkedSourceVersion
    split
    · exact c.getSourceVersion_spec path
    · exact Triple.ret fun _ hw => hw
  · refine Triple.bind (readFull_spec cache v) fun r => Triple.pull fun hr => ?_
    rcases r with - | data
    · refine Triple.bind c.readFullDirect_spec fun data => Triple.pull fun hdata => ?_
      subst hdata
      exact Triple.bind (set_spec v) fun _ => Triple.ret fun _ hw => ⟨hw, rfl⟩
    · exact Triple.ret fun _ hw => ⟨hw, hr data rfl⟩

/-- The line size of the client's cache, if it has one. -/
def lineSize : ℕ :=
  match c.enabledCache with
  | some cache => cache.manager.cacheLineSize
  | none => 0

/-- What `read` returns of an object: what is requested, or the whole object
where a replica is read without a cache. -/
def returned (source : SourceObject) (byteRange : Option ByteRange) : List UInt8 :=
  if c.enabledCache.isNone ∧ c.replicas ≠ 0 then source.content
  else requested (byteRange.map (·.1)) source.content

variable {c} in
theorem returned_of_cache {cache : ClientCache} (h : c.enabledCache = some cache)
    (byteRange : Option ByteRange) :
    c.returned source byteRange = requested (byteRange.map (·.1)) source.content := by
  rw [returned, if_neg]
  rintro ⟨hnone, -⟩
  rw [h] at hnone
  cases hnone

variable {c} in
theorem returned_of_no_replica (h : c.replicas = 0) (byteRange : Option ByteRange) :
    c.returned source byteRange = requested (byteRange.map (·.1)) source.content := by
  rw [returned, if_neg]
  exact fun hrep => hrep.2 h

variable {c} in
theorem returned_of_replica (h : c.enabledCache = none) (hrep : c.replicas ≠ 0)
    (byteRange : Option ByteRange) : c.returned source byteRange = source.content := by
  rw [returned, if_pos ⟨by rw [h]; rfl, hrep⟩]

/-- What follows the resolution of the path. -/
theorem read_resolved_spec (path : PyStr) (byteRange : Option ByteRange)
    (mode : SourceVersionCheckMode) {E : ClientWorld → Prop}
    (hE : byteRange = none → ∀ w, CacheOk source c.lineSize w → E w) :
    ReadEnds source c.lineSize
      (match c.enabledCache with
        | some cache =>
            match byteRange with
            | some r =>
                MonadExcept.tryCatch (readRangeCached cache r mode)
                  fun _ => clientCall (.getObject (some r.1))
            | none => c.readFullCached cache path mode
        | none =>
            if c.replicas ≠ 0 then c.readFromReplicaOrPrimary
            else clientCall (.getObject (byteRange.map (·.1))))
      (fun data w => CacheOk source c.lineSize w ∧ data = c.returned source byteRange) E := by
  rcases hcache : c.enabledCache with - | cache
  -- no cache: a replica or the primary
  · dsimp only
    split
    · rename_i hrep
      rw [returned_of_replica hcache hrep]
      exact c.readFromReplicaOrPrimary_spec
    · rename_i hrep
      rw [returned_of_no_replica (not_not.mp hrep)]
      exact getObject_spec _
  · have hline : c.lineSize = cache.manager.cacheLineSize := by
      rw [lineSize, hcache]
    rw [returned_of_cache hcache, hline]
    rcases byteRange with - | r
    -- the whole file through the cache
    · refine (c.readFullCached_spec cache path mode).conseq (fun _ hw => hw) (fun _ _ hw => hw) ?_
      intro w hw
      exact hE rfl w (hline ▸ hw)
    -- a range through the cache, or from the storage if that raises
    · exact Triple.tryCatch _ (readRangeCached_spec cache r mode) fun _ => getObject_spec _

/-- **Every read** keeps the cache consistent and returns `returned`, if it
returns. -/
theorem read_spec (path : PyStr) (byteRange : Option ByteRange) (mode : SourceVersionCheckMode) :
    ReadEnds source c.lineSize (c.read path byteRange mode)
      (fun data w => CacheOk source c.lineSize w ∧ data = c.returned source byteRange)
      (CacheOk source c.lineSize) :=
  Triple.bind (c.resolveReadPath_spec path) fun path =>
    c.read_resolved_spec path byteRange mode fun _ _ hw => hw

variable {c} in
/-- **A range read** of an existing object does not raise. -/
theorem Resolves.read_range_spec {path : PyStr} (h : c.Resolves path) (r : ByteRange)
    (mode : SourceVersionCheckMode) :
    ReadEnds source c.lineSize (c.read path (some r) mode)
      (fun data w => CacheOk source c.lineSize w ∧ data = c.returned source (some r))
      fun _ => False :=
  Triple.bind h.spec fun path => c.read_resolved_spec path (some r) mode nofun

end SingleStorageClient

/-! ### Sequences of reads -/

/-- One call of `read`: its arguments, and what happens right before each of
its operations. -/
structure ClientCall where
  path : PyStr
  byteRange : Option ByteRange
  mode : SourceVersionCheckMode
  evictions : ℕ → CachePath → Bool
  headFails : ℕ → Bool
  diskFails : ℕ → Bool
  replicaFails : ℕ → ℕ → Bool

namespace ClientCall

variable (k : ClientCall)

/-- What happens before the operation `n`. -/
def env (n : ℕ) (w : ClientWorld) : ClientWorld :=
  ⟨w.cache.evict (k.evictions n), k.headFails n, k.diskFails n, k.replicaFails n⟩

/-- The result of the call and the world after it. -/
def exec (c : SingleStorageClient) (source : SourceObject) (w : ClientWorld) :
    Except OSError (List UInt8) × ClientWorld :=
  Prog.exec (clientAct source) k.env (c.read k.path k.byteRange k.mode) 0 w

end ClientCall

/-- The world after a sequence of reads. -/
def afterReads (c : SingleStorageClient) (source : SourceObject) :
    List ClientCall → ClientWorld → ClientWorld
  | [], w => w
  | k :: ks, w => afterReads c source ks (k.exec c source w).2

/-- An empty cache, with all parties answering. -/
def emptyClient (xattrs : Bool) : ClientWorld :=
  ⟨emptyCache xattrs [], false, false, fun _ => false⟩

variable {c : SingleStorageClient}

theorem cacheOk_emptyClient (xattrs : Bool) : CacheOk source L (emptyClient xattrs) :=
  dirOk_emptyCache xattrs [] L Set.univ

/-- One call from a consistent cache. -/
theorem ClientCall.exec_spec (k : ClientCall) {w : ClientWorld} (hw : CacheOk source c.lineSize w) :
    CacheOk source c.lineSize (k.exec c source w).2 ∧
      ∀ data, (k.exec c source w).1 = .ok data → data = c.returned source k.byteRange := by
  obtain ⟨hout, -⟩ := (c.read_spec k.path k.byteRange k.mode).exec k.env
    (fun n w => ⟨k.evictions n, rfl⟩) hw 0 (Always.of_forall (fun _ _ => trivial) _ _ _)
  change EndsIn _ _ (k.exec c source w) at hout
  rcases hres : k.exec c source w with ⟨e | data, w'⟩
  · rw [hres] at hout
    exact ⟨hout, fun data h => by cases h⟩
  · rw [hres] at hout
    exact ⟨hout.1, fun data' h => by rw [← Except.ok.inj h]; exact hout.2⟩

/-- A range read of an existing object returns. -/
theorem ClientCall.exec_range (k : ClientCall) {r : ByteRange} (hr : k.byteRange = some r)
    (hres : c.Resolves k.path) {w : ClientWorld} (hw : CacheOk source c.lineSize w) :
    (k.exec c source w).1 = .ok (c.returned source (some r)) := by
  obtain ⟨hout, -⟩ := (hres.read_range_spec r k.mode).exec k.env
    (fun n w => ⟨k.evictions n, rfl⟩) hw 0 (Always.of_forall (fun _ _ => trivial) _ _ _)
  rw [← hr] at hout
  change EndsIn _ _ (k.exec c source w) at hout
  rcases hexec : k.exec c source w with ⟨e | data, w'⟩
  · rw [hexec] at hout
    exact hout.elim
  · rw [hexec] at hout
    rw [hout.2, hr]

theorem cacheOk_afterReads (ks : List ClientCall) {w : ClientWorld}
    (hw : CacheOk source c.lineSize w) :
    CacheOk source c.lineSize (afterReads c source ks w) := by
  induction ks generalizing w with
  | nil => exact hw
  | cons k ks ih => exact ih (k.exec_spec hw).1

/-- **A range read through the client** returns the wanted slice exactly when
it goes through the cache, or there is no replica to read instead, or the
slice is the whole object. -/
theorem read_range_returns_slice_iff (c : SingleStorageClient) (source : SourceObject)
    (xattrs : Bool) (before : List ClientCall) (k : ClientCall) (r : ByteRange)
    (hr : k.byteRange = some r) (hres : c.Resolves k.path) :
    (k.exec c source (afterReads c source before (emptyClient xattrs))).1 =
        .ok (slice r.1.offset r.1.size source.content) ↔
      c.enabledCache.isSome ∨ c.replicas = 0 ∨
        slice r.1.offset r.1.size source.content = source.content := by
  have hw : CacheOk source c.lineSize (afterReads c source before (emptyClient xattrs)) :=
    cacheOk_afterReads before (cacheOk_emptyClient xattrs)
  rw [k.exec_range hr hres hw]
  rcases hcache : c.enabledCache with - | cache
  · by_cases hrep : c.replicas = 0
    · rw [SingleStorageClient.returned_of_no_replica hrep]
      exact ⟨fun _ => .inr (.inl hrep), fun _ => rfl⟩
    · -- the whole object comes from a replica
      rw [SingleStorageClient.returned_of_replica hcache hrep]
      constructor
      · intro h
        exact .inr (.inr (Except.ok.inj h).symm)
      · rintro (h | h | h)
        · cases h
        · exact absurd h hrep
        · rw [h]
  · rw [SingleStorageClient.returned_of_cache hcache]
    exact ⟨fun _ => .inl rfl, fun _ => rfl⟩

/-! ### Examples -/

/-- A client with one replica, with or without a cache of line size 4. -/
def replicatedClient (cached : Bool) : SingleStorageClient where
  cacheManager := if cached then some ⟨.ofFour, true⟩ else none
  isPosix := false
  metadataProvider := none
  replicas := 1

/-- A call on parties that answer. -/
def plainRead (byteRange : Option ByteRange) (mode : SourceVersionCheckMode) : ClientCall where
  path := "a".toList
  byteRange := byteRange
  mode := mode
  evictions _ _ := false
  headFails _ := false
  diskFails _ := false
  replicaFails _ _ := false

/-- An object of ten bytes with a version. -/
def tenByteObject : SourceObject := ⟨tenBytes, some "v1".toList⟩

/-- With the cache the bytes 2 to 4 are returned. -/
theorem read_range_cached_replica :
    ((plainRead (some ⟨⟨2, 3⟩, by decide⟩) .inherit).exec (replicatedClient true) tenByteObject
      (afterReads (replicatedClient true) tenByteObject [] (emptyClient true))).1 =
        .ok (slice 2 3 tenBytes) :=
  (read_range_returns_slice_iff (replicatedClient true) tenByteObject true []
    (plainRead (some ⟨⟨2, 3⟩, by decide⟩) .inherit) ⟨⟨2, 3⟩, by decide⟩ rfl
      (by intro mp h; cases h)).mpr
    (.inl rfl)

/-- Without it the whole object is. -/
theorem read_range_replica_whole :
    ((plainRead (some ⟨⟨2, 3⟩, by decide⟩) .inherit).exec (replicatedClient false) tenByteObject
      (emptyClient true)).1 = .ok tenBytes ∧ tenBytes ≠ slice 2 3 tenBytes := by
  refine ⟨rfl, ?_⟩
  decide

end MultiStorageClient
