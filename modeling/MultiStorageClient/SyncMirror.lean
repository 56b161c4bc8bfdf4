/-
MultiStorageClient/SyncMirror.lean

What a sync does to the target store (`sync/manager.py`, `sync/producer.py`,
`sync/worker.py`), for a target client without a metadata provider.

The operations of a sync are writes to keys of the target.  The workers carry them
out in an order of their own, but no two of them disagree on a key: two writes to
one destination are of one source entry, and no destination is deleted.  So what a
sync that returned leaves behind is read off the two listings
(`returned_mirrors`), and a second sync of the same source finds nothing to do
(`resync_does_nothing`).

A source path that names a single file is left out: its entry has an empty relative
key, and the producer does not find its counterpart.
-/
import MultiStorageClient.KeyedWrites
import MultiStorageClient.ProducerTargets
import MultiStorageClient.SyncRuns

namespace MultiStorageClient

open ProducerThread PyStr KeyedWrites

/-- The source iterator depends on nothing of the target and of the workers. -/
theorem ProducerThread.createSourceIterator_congr {p q : ProducerThread}
    (hclient : p.sourceClient = q.sourceClient) (hpath : p.sourcePath = q.sourcePath)
    (hattributes : p.preserveSourceAttributes = q.preserveSourceAttributes)
    (hsymlinks : p.symlinkHandling = q.symlinkHandling) (hfiles : p.sourceFiles = q.sourceFiles)
    (hlisting : p.disableParallelListing = q.disableParallelListing) :
    p.createSourceIterator = q.createSourceIterator := by
  have hpolicy : p.applyAttributePolicy = q.applyAttributePolicy := by
    funext e
    unfold applyAttributePolicy
    rw [hattributes]
  have hfile : p.sourceFilePath = q.sourceFilePath := by
    funext f
    unfold sourceFilePath
    rw [hpath]
  have hiterator : p.sourceFilesIterator = q.sourceFilesIterator := by
    funext fs
    induction fs with
    | nil => rfl
    | cons f fs ih =>
        unfold sourceFilesIterator
        rw [hclient, hfile, hpolicy, ih]
  unfold createSourceIterator createListingIterator
  rw [hiterator, hfiles, hclient, hpath, hattributes, hsymlinks, hlisting, hpolicy]

namespace SyncManager

variable {α : Type} (m : SyncManager) (written : ObjectMetadata → α)

/-! ### Operations as writes -/

/-- What an operation writes at the target: an entry is written at its destination,
and a target entry is deleted under its own key. -/
def targetWrite : OperationType × Item → Option (PyStr × Option α)
  | (.add, (e, _)) => some (m.handler.targetFilePath e, some (written e))
  | (.symlink, (e, _)) => some (m.handler.targetFilePath e, some (written e))
  | (.delete, (t, _)) => some (t.key, none)
  | (.stop, _) => none

/-- The target after operations, the first of them first. -/
def afterSync (σ : PyStr → Option α) (ops : List (OperationType × Item)) : PyStr → Option α :=
  writes σ (ops.filterMap (m.targetWrite written))

/-- An entry that the sync looks at: it is not hidden, and the filter takes it. -/
def Selected (e : ObjectMetadata) : Prop :=
  m.producer.isHidden (m.producer.sourceKey e) = false ∧
    m.producer.included (m.producer.sourceKey e) = true

/-- A target entry that is not hidden and has no counterpart in the source. -/
def Unmatched (t : ObjectMetadata) : Prop :=
  m.producer.isHidden (m.producer.targetKey t) = false ∧
    ∀ e ∈ m.producer.sourceEntries, m.producer.sourceKey e ≠ m.producer.targetKey t

/-- A sync of files to a target without a metadata provider: both listings are in the
order of their relative keys, and the source path names no single file. -/
structure Plain : Prop where
  provider : m.hasMetadataProvider = false
  source : SortedByKey m.producer.sourcePath m.producer.sourceEntries
  target : SortedByKey m.producer.targetPath m.producer.targetEntries
  files : ∀ e ∈ m.producer.sourceEntries, m.producer.sourceKey e ≠ []

variable {m written} {σ : PyStr → Option α} {ops : List (OperationType × Item)}
  {e e' t : ObjectMetadata}

/-! ### Destinations -/

theorem targetFilePath_eq (hp : m.Plain) (he : e ∈ m.producer.sourceEntries) :
    m.handler.targetFilePath e = join m.producer.targetPath (m.producer.sourceKey e) :=
  if_pos (hp.files e he)

/-- A target entry at the destination of a source entry is its counterpart. -/
theorem relKey_targetFilePath (hp : m.Plain) (he : e ∈ m.producer.sourceEntries) :
    relKey m.producer.targetPath (m.handler.targetFilePath e) = m.producer.sourceKey e := by
  rw [targetFilePath_eq hp he]
  exact relKey_join _ (head?_relKey _ _)

/-- Two source entries have two destinations. -/
theorem eq_of_targetFilePath (hp : m.Plain)
    (he : e ∈ m.producer.sourceEntries) (he' : e' ∈ m.producer.sourceEntries)
    (h : m.handler.targetFilePath e = m.handler.targetFilePath e') : e = e' := by
  have hkey : m.producer.sourceKey e = m.producer.sourceKey e' := by
    rw [← relKey_targetFilePath hp he, h, relKey_targetFilePath hp he']
  exact OuterJoin.eq_of_key_eq (hp.source.imp fun h => h.ne) he he' hkey

/-! ### What the plan writes -/

/-- The operations are those of the plan, in some order. -/
def CarriedOut (m : SyncManager) (ops : List (OperationType × Item)) : Prop :=
  ops.Perm (m.producer.plan m.producer.sourceEntries m.producer.targetEntries)

theorem CarriedOut.mem_iff (h : m.CarriedOut ops) (hp : m.Plain) {x : OperationType × Item} :
    x ∈ ops ↔ m.producer.Planned m.producer.sourceEntries m.producer.targetEntries x :=
  (List.Perm.mem_iff h).trans (mem_plan_sorted hp.source hp.target)

/-- A write of the plan is that of a source entry that needs it, or the deletion of a
target entry. -/
theorem CarriedOut.write_cases (h : m.CarriedOut ops) (hp : m.Plain) {w : PyStr × Option α}
    (hw : w ∈ ops.filterMap (m.targetWrite written)) :
    (∃ e tm, e ∈ m.producer.sourceEntries ∧ m.producer.WriteNeeded m.producer.targetEntries e tm ∧
      w = (m.handler.targetFilePath e, some (written e))) ∨
    (∃ t ∈ m.producer.targetEntries, m.producer.deleteUnmatchedFiles = true ∧ m.Unmatched t ∧
      w = (t.key, none)) := by
  obtain ⟨⟨op, e, tm⟩, hx, hwrite⟩ := List.mem_filterMap.mp hw
  have hplan := (h.mem_iff hp).mp hx
  cases op with
  | add => exact Or.inl ⟨e, tm, hplan.1, hplan.2.2, (Option.some.inj hwrite).symm⟩
  | symlink => exact Or.inl ⟨e, tm, hplan.1, hplan.2.2, (Option.some.inj hwrite).symm⟩
  | delete =>
      obtain ⟨-, hdel, ht, hvis, hmiss⟩ := hplan
      exact Or.inr ⟨e, ht, hdel, ⟨hvis, hmiss⟩, (Option.some.inj hwrite).symm⟩
  | stop => cases hwrite

/-- A source entry that needs it is written. -/
theorem CarriedOut.mem_write (h : m.CarriedOut ops) (hp : m.Plain)
    (he : e ∈ m.producer.sourceEntries) {tm : Option ObjectMetadata}
    (hneed : m.producer.WriteNeeded m.producer.targetEntries e tm) :
    (m.handler.targetFilePath e, some (written e)) ∈ ops.filterMap (m.targetWrite written) := by
  refine List.mem_filterMap.mpr ⟨((classify .add e).1, (e, tm)), ?_, ?_⟩
  · exact (h.mem_iff hp).mpr ((planned_write_iff (classify_add_ne_delete e)).mpr ⟨rfl, he, hneed⟩)
  · unfold classify
    split <;> rfl

/-- A target entry without a counterpart is deleted. -/
theorem CarriedOut.mem_delete (h : m.CarriedOut ops) (hp : m.Plain)
    (hdel : m.producer.deleteUnmatchedFiles = true) (ht : t ∈ m.producer.targetEntries)
    (hun : m.Unmatched t) : (t.key, none) ∈ ops.filterMap (m.targetWrite written) :=
  List.mem_filterMap.mpr ⟨(.delete, (t, none)),
    (h.mem_iff hp).mpr ⟨rfl, hdel, ht, hun.1, hun.2⟩, rfl⟩

/-- No deleted entry is at the destination of a source entry. -/
theorem Unmatched.key_ne (hp : m.Plain) (hun : m.Unmatched t)
    (he : e ∈ m.producer.sourceEntries) : m.handler.targetFilePath e ≠ t.key := by
  intro heq
  refine hun.2 e he ?_
  rw [targetKey, ← heq, relKey_targetFilePath hp he]

/-! ### The target after a sync -/

/-- A source entry that needs it is at its destination. -/
theorem CarriedOut.written_at (h : m.CarriedOut ops) (hp : m.Plain)
    (he : e ∈ m.producer.sourceEntries) {tm : Option ObjectMetadata}
    (hneed : m.producer.WriteNeeded m.producer.targetEntries e tm) :
    m.afterSync written σ ops (m.handler.targetFilePath e) = some (written e) := by
  refine writes_of_agree (h.mem_write hp he hneed) fun w hw hkey => ?_
  rcases h.write_cases hp hw with ⟨e', _, he', -, rfl⟩ | ⟨t, -, -, hun, rfl⟩
  · rw [eq_of_targetFilePath hp he' he hkey]
  · exact absurd hkey.symm (hun.key_ne hp he)

/-- A target entry without a counterpart is gone. -/
theorem CarriedOut.deleted_at (h : m.CarriedOut ops) (hp : m.Plain)
    (hdel : m.producer.deleteUnmatchedFiles = true) (ht : t ∈ m.producer.targetEntries)
    (hun : m.Unmatched t) : m.afterSync written σ ops t.key = none := by
  refine writes_of_agree (h.mem_delete hp hdel ht hun) fun w hw hkey => ?_
  rcases h.write_cases hp hw with ⟨e, _, he, -, rfl⟩ | ⟨t', -, -, -, rfl⟩
  · exact absurd hkey (hun.key_ne hp he)
  · rfl

/-- A key that the plan does not name is as it was. -/
theorem CarriedOut.unchanged_at (h : m.CarriedOut ops) (hp : m.Plain) {k : PyStr}
    (hwrite : ∀ e ∈ m.producer.sourceEntries, ∀ tm,
      m.producer.WriteNeeded m.producer.targetEntries e tm → m.handler.targetFilePath e ≠ k)
    (hdelete : m.producer.deleteUnmatchedFiles = true →
      ∀ t ∈ m.producer.targetEntries, m.Unmatched t → t.key ≠ k) :
    m.afterSync written σ ops k = σ k := by
  refine writes_of_not_mem fun w hw => ?_
  rcases h.write_cases hp hw with ⟨e, tm, he, hneed, rfl⟩ | ⟨t, ht, hdel, hun, rfl⟩
  · exact hwrite e he tm hneed
  · exact hdelete hdel t ht hun

/-- An entry that is selected needs to be written, or has a counterpart that matches. -/
theorem Selected.needed_or_matched (he : m.Selected e) :
    (∃ tm, m.producer.WriteNeeded m.producer.targetEntries e tm) ∨
      ∃ t ∈ m.producer.targetEntries, m.producer.targetKey t = m.producer.sourceKey e ∧
        m.producer.matchFileMetadata e t = true := by
  by_cases hex : ∃ t ∈ m.producer.targetEntries, m.producer.targetKey t = m.producer.sourceKey e
  · obtain ⟨t, ht, hkey⟩ := hex
    cases hmatch : m.producer.matchFileMetadata e t with
    | true => exact Or.inr ⟨t, ht, hkey, hmatch⟩
    | false => exact Or.inl ⟨some t, he.1, he.2, ht, hkey, hmatch⟩
  · exact Or.inl ⟨none, he.1, he.2, fun t ht hkey => hex ⟨t, ht, hkey⟩⟩

/-- A counterpart that matches is left alone. -/
theorem CarriedOut.matched_unchanged (h : m.CarriedOut ops) (hp : m.Plain)
    (he : e ∈ m.producer.sourceEntries)
    (ht : t ∈ m.producer.targetEntries)
    (hkey : m.producer.targetKey t = m.producer.sourceKey e)
    (hmatch : m.producer.matchFileMetadata e t = true) :
    m.afterSync written σ ops t.key = σ t.key := by
  refine h.unchanged_at hp (fun e' he' tm hneed heq => ?_) fun _ t' _ hun heq => ?_
  · -- the entry written there would be `e`, whose counterpart matches
    have hkey' : m.producer.sourceKey e' = m.producer.sourceKey e := by
      rw [← relKey_targetFilePath hp he', heq]
      exact hkey
    obtain rfl : e' = e := OuterJoin.eq_of_key_eq (hp.source.imp fun h => h.ne) he' he hkey'
    cases tm with
    | none => exact hneed.2.2 t ht hkey
    | some t' =>
        obtain ⟨ht', hkey', hno⟩ := hneed.2.2
        obtain rfl : t' = t := OuterJoin.eq_of_key_eq (hp.target.imp fun h => h.ne) ht' ht
          (hkey'.trans hkey.symm)
        rw [hmatch] at hno
        cases hno
  · refine hun.2 e he ?_
    rw [targetKey, heq]
    exact hkey.symm

/-- **A sync that returned has mirrored its source**, in whatever order its operations
were carried out: each entry that is selected is at its destination as it was
written, or has a counterpart that matches and is left alone; where unmatched files
are deleted, those that are listed are gone; and every other key is as it was. -/
theorem returned_mirrors (m : SyncManager) (as : List Action) (s : SyncState)
    (hrun : Run.exec m.step m.init as = some s)
    (hok : Run.Always m.step m.DeletesSafely m.init as) (hret : s.main = .returned)
    (hp : m.Plain) (written : ObjectMetadata → α) (σ : PyStr → Option α) :
    (∀ e ∈ m.producer.sourceEntries, m.Selected e →
      m.afterSync written σ s.done (m.handler.targetFilePath e) = some (written e) ∨
      ∃ t ∈ m.producer.targetEntries, m.producer.targetKey t = m.producer.sourceKey e ∧
        m.producer.matchFileMetadata e t = true ∧
        m.afterSync written σ s.done t.key = σ t.key) ∧
    (m.producer.deleteUnmatchedFiles = true → ∀ t ∈ m.producer.targetEntries,
      m.Unmatched t → m.afterSync written σ s.done t.key = none) ∧
    ∀ k, (∀ e ∈ m.producer.sourceEntries, m.Selected e → m.handler.targetFilePath e ≠ k) →
      (m.producer.deleteUnmatchedFiles = true →
        ∀ t ∈ m.producer.targetEntries, m.Unmatched t → t.key ≠ k) →
      m.afterSync written σ s.done k = σ k := by
  have hdone : m.CarriedOut s.done := returned_plan_done m as s hrun hok hret
  refine ⟨fun e he hsel => ?_, fun hdel t ht hun => hdone.deleted_at hp hdel ht hun,
    fun k hwrite hdelete => hdone.unchanged_at hp (fun e he tm hneed => ?_) hdelete⟩
  · rcases hsel.needed_or_matched with ⟨tm, hneed⟩ | ⟨t, ht, hkey, hmatch⟩
    · exact Or.inl (hdone.written_at hp he hneed)
    · exact Or.inr ⟨t, ht, hkey, hmatch, hdone.matched_unchanged hp he ht hkey hmatch⟩
  · exact hwrite e he ⟨hneed.1, hneed.2.1⟩

/-- A sync that has to copy one file and to delete another, with one worker. -/
def copyingSync : SyncManager where
  producer :=
    { sourceClient := .ofListing [fileOf "src/a" 1 5]
      sourcePath := "src".toList
      targetClient := .ofListing [fileOf "dst/b" 2 1]
      targetPath := "dst".toList
      numWorkers := 1
      deleteUnmatchedFiles := true }

/-- The worker starts when the producer has finished, and no provider raises. -/
def workedOff (producerSteps workerSteps results : ℕ) : List Action :=
  List.replicate producerSteps .producer ++ List.replicate workerSteps (.worker 0 {}) ++
    wrapUp results

theorem workedOff_succeeds {n l r : ℕ} : ∀ a ∈ workedOff n l r, succeeds a = true := by
  intro a ha
  simp only [workedOff, wrapUp, List.mem_append, List.mem_replicate, List.mem_singleton] at ha
  obtain (⟨-, rfl⟩ | ⟨-, rfl⟩) | (((⟨-, rfl⟩ | ⟨-, rfl⟩) | ⟨-, rfl⟩) | rfl) | ⟨-, rfl⟩ := ha
  all_goals rfl

/-- Where no provider raises, no failure of a deletion is lost. -/
theorem always_deletesSafely {as : List Action} (h : ∀ a ∈ as, succeeds a = true)
    (s : SyncState) : Run.Always m.step m.DeletesSafely s as := by
  refine Run.Always.of_mem (fun a ha s => Or.inr ?_) _
  have hquiet := h a ha
  cases a with
  | worker i ans => exact fun hraise => hraise.2 (Option.isNone_iff_eq_none.mp hquiet)
  | _ => exact fun hraise => hraise

theorem copyingSync_plain : copyingSync.Plain where
  provider := rfl
  source := by unfold SortedByKey; decide
  target := by unfold SortedByKey; decide
  files := by decide

/-- An entry as it is written at its destination. -/
def copied (m : SyncManager) (e : ObjectMetadata) : ObjectMetadata :=
  { e with key := m.handler.targetFilePath e }

/-- The theorem at a sync that copies one file and deletes another. -/
theorem returned_mirrors_copyingSync : ∃ s,
    Run.exec copyingSync.step copyingSync.init (workedOff 7 13 2) = some s ∧
      ∀ σ, copyingSync.afterSync copyingSync.copied σ s.done "dst/a".toList =
          some (fileOf "dst/a" 1 5) ∧
        copyingSync.afterSync copyingSync.copied σ s.done "dst/b".toList = none ∧
        copyingSync.afterSync copyingSync.copied σ s.done "other".toList =
          σ "other".toList := by
  obtain ⟨s, hs, hret⟩ : ∃ s,
      Run.exec copyingSync.step copyingSync.init (workedOff 7 13 2) = some s ∧
        s.main = .returned := Run.exec_exists (by decide +kernel)
  refine ⟨s, hs, fun σ => ?_⟩
  obtain ⟨hwritten, hdeleted, hkept⟩ := returned_mirrors copyingSync _ s hs
    (always_deletesSafely workedOff_succeeds _) hret copyingSync_plain copyingSync.copied σ
  refine ⟨?_, hdeleted rfl (fileOf "dst/b" 2 1) (List.mem_singleton_self _) ?_,
    hkept _ (fun e he _ => ?_) fun _ t ht _ => ?_⟩
  · rcases hwritten (fileOf "src/a" 1 5) (List.mem_singleton_self _) ⟨by decide, by decide⟩ with
      h | ⟨t, ht, hkey, -⟩
    · exact h
    · exact absurd hkey (by rw [List.mem_singleton.mp ht]; decide)
  · exact ⟨by decide, by decide⟩
  · rw [List.mem_singleton.mp he]
    decide
  · rw [List.mem_singleton.mp ht]
    decide

/-! ### The second sync -/

/-- A listing of the objects under a path, each once and as the store has it. -/
def ListsStore (path : PyStr) (entries : List ObjectMetadata) (σ : PyStr → Option ObjectMetadata) :
    Prop :=
  ∀ t, t ∈ entries ↔ KeyUnder path t.key ∧ σ t.key = some t

/-- The same sync, to a target that answers as `client` does. -/
def resync (m : SyncManager) (client : SyncClient) : SyncManager :=
  { m with producer := { m.producer with targetClient := client } }

/-- The source is listed as before. -/
theorem sourceEntries_resync {client : SyncClient} :
    (m.resync client).producer.sourceEntries = m.producer.sourceEntries :=
  congrArg Iter.items (createSourceIterator_congr rfl rfl rfl rfl rfl rfl)

/-- What a client of the target writes for a source entry: an object at the destination
that is no older and otherwise agrees with the entry. -/
structure WritesLike (m : SyncManager) (e e' : ObjectMetadata) : Prop where
  key : e'.key = m.handler.targetFilePath e
  contentLength : e'.contentLength = e.contentLength
  symlinkTarget : e'.symlinkTarget = e.symlinkTarget
  lastModified : e.lastModified ≤ e'.lastModified

theorem WritesLike.matches (h : m.WritesLike e e') (hp : m.Plain) :
    m.producer.matchFileMetadata e e' = true := by
  have hprovider : m.producer.targetClient.hasMetadataProvider = false := hp.provider
  have hseconds : ¬seconds e'.lastModified < seconds e.lastModified :=
    not_lt.mpr (Int.ediv_le_ediv (by decide) h.lastModified)
  unfold matchFileMetadata
  rw [h.contentLength, h.symlinkTarget, hprovider]
  simp [hseconds]

/-- Without a metadata provider the match does not depend on the client. -/
theorem matchFileMetadata_resync {client : SyncClient} (hp : m.Plain)
    (hp' : (m.resync client).Plain) :
    (m.resync client).producer.matchFileMetadata e t = m.producer.matchFileMetadata e t := by
  have hprovider : m.producer.targetClient.hasMetadataProvider = false := hp.provider
  have hprovider' : (m.resync client).producer.targetClient.hasMetadataProvider = false :=
    hp'.provider
  unfold matchFileMetadata
  rw [hprovider, hprovider']
  rfl

variable {written : ObjectMetadata → ObjectMetadata} {σ : PyStr → Option ObjectMetadata}

/-- After a sync, each entry that is selected has a counterpart that matches. -/
theorem CarriedOut.exists_matching (h : m.CarriedOut ops) (hp : m.Plain)
    (hwritten : ∀ e ∈ m.producer.sourceEntries, m.WritesLike e (written e))
    (hlist : ListsStore m.producer.targetPath m.producer.targetEntries σ)
    (he : e ∈ m.producer.sourceEntries) (hsel : m.Selected e) :
    ∃ t, KeyUnder m.producer.targetPath t.key ∧
      m.afterSync written σ ops t.key = some t ∧
      m.producer.targetKey t = m.producer.sourceKey e ∧
      m.producer.matchFileMetadata e t = true := by
  rcases hsel.needed_or_matched with ⟨tm, hneed⟩ | ⟨t, ht, hkey, hmatch⟩
  · have hlike := hwritten e he
    refine ⟨written e, ?_, ?_, ?_, hlike.matches hp⟩
    · rw [hlike.key, targetFilePath_eq hp he]
      exact ⟨_, hp.files e he, head?_relKey _ _, rfl⟩
    · rw [hlike.key]
      exact h.written_at hp he hneed
    · rw [targetKey, hlike.key, relKey_targetFilePath hp he]
  · obtain ⟨hunder, hstored⟩ := (hlist t).mp ht
    refine ⟨t, hunder, ?_, hkey, hmatch⟩
    rw [h.matched_unchanged hp he ht hkey hmatch, hstored]

/-- After a sync that deletes unmatched files, every object under the target path that is
not hidden has a counterpart. -/
theorem CarriedOut.not_unmatched (h : m.CarriedOut ops) (hp : m.Plain)
    (hlist : ListsStore m.producer.targetPath m.producer.targetEntries σ)
    (hdel : m.producer.deleteUnmatchedFiles = true)
    (hunder : KeyUnder m.producer.targetPath t.key)
    (hstored : m.afterSync written σ ops t.key = some t) : ¬m.Unmatched t := by
  intro hun
  have hkeep : ∀ e ∈ m.producer.sourceEntries, ∀ tm,
      m.producer.WriteNeeded m.producer.targetEntries e tm → m.handler.targetFilePath e ≠ t.key :=
    fun e he _ _ => hun.key_ne hp he
  by_cases hdeleted : ∃ t' ∈ m.producer.targetEntries, m.Unmatched t' ∧ t'.key = t.key
  · obtain ⟨t', ht', hun', hkey⟩ := hdeleted
    rw [← hkey, h.deleted_at hp hdel ht' hun'] at hstored
    cases hstored
  · rw [h.unchanged_at hp hkeep fun _ t' ht' hun' hkey => hdeleted ⟨t', ht', hun', hkey⟩] at hstored
    exact hdeleted ⟨t, (hlist t).mpr ⟨hunder, hstored⟩, hun, rfl⟩

/-- **A second sync finds nothing to do.**  The target lists its store before the first
sync and after it, and writes objects like the source's; then a sync of the same
source that returns has carried out no operation at all. -/
theorem resync_does_nothing (m : SyncManager) (client : SyncClient) (as as' : List Action)
    (s s' : SyncState) (hrun : Run.exec m.step m.init as = some s)
    (hok : Run.Always m.step m.DeletesSafely m.init as) (hret : s.main = .returned)
    (hp : m.Plain) (written : ObjectMetadata → ObjectMetadata)
    (hwritten : ∀ e ∈ m.producer.sourceEntries, m.WritesLike e (written e))
    (σ : PyStr → Option ObjectMetadata)
    (hlist : ListsStore m.producer.targetPath m.producer.targetEntries σ)
    (hp' : (m.resync client).Plain)
    (hlist' : ListsStore m.producer.targetPath (m.resync client).producer.targetEntries
      (m.afterSync written σ s.done))
    (hrun' : Run.exec (m.resync client).step (m.resync client).init as' = some s')
    (hok' : Run.Always (m.resync client).step (m.resync client).DeletesSafely
      (m.resync client).init as') (hret' : s'.main = .returned) :
    s'.done = [] := by
  have hdone : m.CarriedOut s.done := returned_plan_done m as s hrun hok hret
  have hdone' : (m.resync client).CarriedOut s'.done :=
    returned_plan_done (m.resync client) as' s' hrun' hok' hret'
  refine List.eq_nil_iff_forall_not_mem.mpr fun x hx => ?_
  have hplan := (hdone'.mem_iff hp').mp hx
  obtain ⟨op, e, tm⟩ := x
  by_cases hdelete : op = .delete
  · -- what is deleted now was there after the first sync, without a counterpart
    subst hdelete
    obtain ⟨-, hdel, ht, hvis, hmiss⟩ := hplan
    obtain ⟨hunder, hstored⟩ := (hlist' e).mp ht
    rw [sourceEntries_resync] at hmiss
    exact hdone.not_unmatched hp hlist hdel hunder hstored ⟨hvis, hmiss⟩
  · -- what is written now has a counterpart that matches
    obtain ⟨-, he, hvis, hinc, hneed⟩ := (planned_write_iff hdelete).mp hplan
    rw [sourceEntries_resync] at he
    obtain ⟨t, hunder, hstored, hkey, hmatch⟩ :=
      hdone.exists_matching hp hwritten hlist he ⟨hvis, hinc⟩
    have ht := (hlist' t).mpr ⟨hunder, hstored⟩
    cases tm with
    | none => exact hneed t ht hkey
    | some t' =>
        obtain ⟨ht', hkey', hno⟩ := hneed
        obtain rfl : t' = t := OuterJoin.eq_of_key_eq (hp'.target.imp fun h => h.ne) ht' ht
          (hkey'.trans hkey.symm)
        rw [matchFileMetadata_resync hp hp', hmatch] at hno
        cases hno

/-- A target that has the copy and nothing else. -/
def copiedClient : SyncClient := .ofListing [fileOf "dst/a" 1 5]

theorem resync_copyingSync_plain : (copyingSync.resync copiedClient).Plain where
  provider := rfl
  source := by unfold SortedByKey; decide
  target := by unfold SortedByKey; decide
  files := by decide

/-- The target before the first sync. -/
def oldStore (k : PyStr) : Option ObjectMetadata :=
  if k = "dst/b".toList then some (fileOf "dst/b" 2 1) else none

theorem keyUnder_dst (c : Char) (hc : c ≠ '/') :
    KeyUnder "dst".toList ("dst/".toList ++ [c]) := by
  refine ⟨[c], List.cons_ne_nil _ _, by simpa using hc, ?_⟩
  exact (join_eq_append "dst".toList (b := [c]) (by simpa using hc)).symm

/-- The listing of the sample. -/
theorem listsStore_old : ListsStore "dst".toList [fileOf "dst/b" 2 1] oldStore := by
  intro t
  rw [List.mem_singleton]
  constructor
  · rintro rfl
    exact ⟨keyUnder_dst 'b' (by decide), rfl⟩
  · rintro ⟨-, hstored⟩
    unfold oldStore at hstored
    split at hstored
    · exact (Option.some.inj hstored).symm
    · cases hstored

/-- The copy is all that the first sync leaves under the target path. -/
theorem listsStore_copied {ops : List (OperationType × Item)} (h : copyingSync.CarriedOut ops) :
    ListsStore "dst".toList [fileOf "dst/a" 1 5]
      (copyingSync.afterSync copyingSync.copied oldStore ops) := by
  have hneed : copyingSync.producer.WriteNeeded copyingSync.producer.targetEntries
      (fileOf "src/a" 1 5) none :=
    ⟨by decide, by decide, by decide⟩
  have hnew : copyingSync.afterSync copyingSync.copied oldStore ops "dst/a".toList =
      some (fileOf "dst/a" 1 5) :=
    h.written_at copyingSync_plain (List.mem_singleton_self _) hneed
  have hold : copyingSync.afterSync copyingSync.copied oldStore ops "dst/b".toList = none :=
    h.deleted_at (t := fileOf "dst/b" 2 1) copyingSync_plain rfl (List.mem_singleton_self _)
      ⟨by decide, by decide⟩
  intro t
  rw [List.mem_singleton]
  constructor
  · rintro rfl
    exact ⟨keyUnder_dst 'a' (by decide), hnew⟩
  · rintro ⟨-, hstored⟩
    -- `dst/a` is the copy, `dst/b` is gone, and nothing else was there
    by_cases ha : t.key = "dst/a".toList
    · rw [ha, hnew] at hstored
      exact (Option.some.inj hstored).symm
    by_cases hb : t.key = "dst/b".toList
    · rw [hb, hold] at hstored
      cases hstored
    · rw [h.unchanged_at copyingSync_plain, oldStore, if_neg hb] at hstored
      · cases hstored
      · intro e he _ _ heq
        rw [List.mem_singleton.mp he] at heq
        exact ha heq.symm
      · intro _ t' ht' _ heq
        rw [List.mem_singleton.mp ht'] at heq
        exact hb heq.symm

theorem copied_writesLike {e : ObjectMetadata} : m.WritesLike e (m.copied e) where
  key := rfl
  contentLength := rfl
  symlinkTarget := rfl
  lastModified := le_refl _

/-- The theorem at a sync right after one. -/
theorem resync_does_nothing_copyingSync : ∃ s,
    Run.exec (copyingSync.resync copiedClient).step (copyingSync.resync copiedClient).init
        (workedOff 4 3 0) = some s ∧
      s.main = .returned ∧ s.done = [] := by
  obtain ⟨s, hs, hret⟩ : ∃ s,
      Run.exec copyingSync.step copyingSync.init (workedOff 7 13 2) = some s ∧
        s.main = .returned := Run.exec_exists (by decide +kernel)
  obtain ⟨s', hs', hret'⟩ : ∃ s', Run.exec (copyingSync.resync copiedClient).step
      (copyingSync.resync copiedClient).init (workedOff 4 3 0) = some s' ∧
        s'.main = .returned := Run.exec_exists (by decide +kernel)
  have hsafe := always_deletesSafely (m := copyingSync) (workedOff_succeeds (n := 7) (l := 13)
    (r := 2)) copyingSync.init
  have hsafe' := always_deletesSafely (m := copyingSync.resync copiedClient)
    (workedOff_succeeds (n := 4) (l := 3) (r := 0)) (copyingSync.resync copiedClient).init
  refine ⟨s', hs', hret', ?_⟩
  exact resync_does_nothing copyingSync copiedClient _ _ s s' hs hsafe hret copyingSync_plain
    copyingSync.copied (fun _ _ => copied_writesLike) oldStore listsStore_old
    resync_copyingSync_plain (listsStore_copied (returned_plan_done _ _ _ hs hsafe hret)) hs'
    hsafe' hret'

end SyncManager

end MultiStorageClient
