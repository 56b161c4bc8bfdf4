/-
MultiStorageClient/ManifestReplay.lean

Sync workers, the result monitor and the committer on one shared provider.

In threading mode `QueueBackedMetadataProvider` (`sync/metadata_proxy.py`)
applies every `add_file` to the shared provider and queues it as well; the
monitor (`sync/monitors.py`) applies it a second time.  Deletions are applied
by `delete_many` and queued by the worker afterwards.  Every step is atomic
under the metadata lock, and an interleaving is a list of steps.

The system without the replays takes the same steps, except that the monitor
only takes its message from the queue.  The main result is a simulation
between the two: as long as every replay finds its own change still in place,
no replay raises and the committed maps agree.
-/
import MultiStorageClient.ManifestRuns
import MultiStorageClient.SyncWorker

namespace MultiStorageClient

open Run
open ManifestCall (acceptWrite)

/-! ### The system -/

/-- The metadata that `QueueBackedMetadataProvider.add_file` queues: a plain
copy, with an empty attribute dictionary read as `None`. -/
def queuedMetadata (md : FileMetadata) : ObjectMetadata :=
  let m := match md with
    | .plain m => m
    | .manifest m => m.toObjectMetadata
  { key := m.key
    contentLength := m.contentLength
    lastModified := m.lastModified
    type := m.type
    contentType := m.contentType
    etag := m.etag
    storageClass := m.storageClass
    metadata := m.metadata.filter fun d => !d.isEmpty
    symlinkTarget := m.symlinkTarget }

/-- The shared provider, its storage, the result queue and the error that
ended the monitor. -/
structure ReplayState (σ : Type*) where
  provider : ManifestMetadataProvider
  storage : σ
  queue : List ResultMsg := []
  error : Option PyError := none

/-- The steps of the threads. -/
inductive ReplayAction (τ : Type*)
  /-- a worker registers a file it has written -/
  | addFile (path : PyStr) (md : FileMetadata)
  /-- `delete_many` of a worker removes a path from the provider -/
  | removeFile (path : PyStr)
  /-- the worker reports the deletion -/
  | queueDelete (path : PyStr) (m : ObjectMetadata)
  /-- the monitor handles the next message -/
  | replay
  /-- the committer -/
  | commitUpdates (now : τ)

namespace ReplayAction

variable {σ τ : Type*}

/-- `QueueBackedMetadataProvider.add_file`: nothing is queued if the delegate
raises. -/
def queueBackedAddFile (s : ReplayState σ) (path : PyStr) (md : FileMetadata) : ReplayState σ :=
  match s.provider.addFile path md with
  | .ok p => { s with provider := p, queue := s.queue ++ [.add path (queuedMetadata md)] }
  | .error _ => s

/-- `QueueBackedMetadataProvider.remove_file`. -/
def queueBackedRemoveFile (s : ReplayState σ) (path : PyStr) : ReplayState σ :=
  match s.provider.removeFile path with
  | .ok p => { s with provider := p }
  | .error _ => s

/-- The monitor ends with the exception of a replay. -/
def applied (s : ReplayState σ) : Except PyError ManifestMetadataProvider → ReplayState σ
  | .ok p => { s with provider := p }
  | .error e => { s with error := some e }

/-- The monitor takes the next message; it has ended after an exception. -/
def nextMessage (s : ReplayState σ) : Option (ResultMsg × ReplayState σ) :=
  match s.error, s.queue with
  | none, msg :: queue => some (msg, { s with queue })
  | _, _ => none

/-- The replay of a message on the shared provider. -/
def replayMessage (s : ReplayState σ) : ResultMsg → ReplayState σ
  | .add path m => applied s (s.provider.addFile path (.plain m))
  | .delete path _ => applied s (s.provider.removeFile path)
  | .stop => s

/-- `commit_updates` -/
def commit (write : τ → ManifestMetadataProvider → List ManifestObjectMetadata → σ →
      Option PyError × σ) (s : ReplayState σ) (now : τ) : ReplayState σ :=
  let r := s.provider.commitUpdates (write now) s.storage
  { s with provider := r.2.1, storage := r.2.2 }

/-- The steps of the system; `onMessage` is what the monitor does with a
message. -/
def stepWith (onMessage : ReplayState σ → ResultMsg → ReplayState σ)
    (write : τ → ManifestMetadataProvider → List ManifestObjectMetadata → σ → Option PyError × σ)
    (s : ReplayState σ) : ReplayAction τ → Option (ReplayState σ)
  | .addFile path md => some (queueBackedAddFile s path md)
  | .removeFile path => some (queueBackedRemoveFile s path)
  | .queueDelete path m => some { s with queue := s.queue ++ [.delete path m] }
  | .replay => (nextMessage s).map fun ms => onMessage ms.2 ms.1
  | .commitUpdates now => some (commit write s now)

/-- The system with the replays. -/
def step (write : τ → ManifestMetadataProvider → List ManifestObjectMetadata → σ →
      Option PyError × σ) : ReplayState σ → ReplayAction τ → Option (ReplayState σ) :=
  stepWith replayMessage write

/-- The system without the replays. -/
def quietStep (write : τ → ManifestMetadataProvider → List ManifestObjectMetadata → σ →
      Option PyError × σ) : ReplayState σ → ReplayAction τ → Option (ReplayState σ) :=
  stepWith (fun s _ => s) write

/-! ### When a replay changes nothing -/

/-- The replay of a message finds its own change still in place: an added
entry is still pending, or has been committed with overwrites allowed and
nothing newer pending; a removed path still waits for its commit. -/
def InPlace (p : ManifestMetadataProvider) : ResultMsg → Prop
  | .add path m => p.writable = true ∧ (p.allowOverwrites = true ∨ p.files.get? path = none) ∧
      ∃ e, (FileMetadata.plain m).toManifest path = .ok e ∧
        (p.pendingAdds.get? path = some e ∨
          (p.pendingAdds.get? path = none ∧ p.files.get? path = some e))
  | .delete path _ => p.writable = true ∧ path ∈ p.pendingRemoves
  | .stop => True

/-- Every replay of the run finds its change in place. -/
def ReplaysInPlace (s : ReplayState σ) : ReplayAction τ → Prop
  | .replay => ∀ msg ∈ s.queue.head?, InPlace s.provider msg
  | _ => True

/-! ### The simulation -/

/-- The provider with replays has, beyond what the other has, only pending
adds of entries that are committed already. -/
structure Ahead (p r : ManifestMetadataProvider) : Prop where
  writable : p.writable = r.writable
  allowOverwrites : p.allowOverwrites = r.allowOverwrites
  files : ∀ k, p.files.get? k = r.files.get? k
  removes : ∀ k, k ∈ p.pendingRemoves ↔ k ∈ r.pendingRemoves
  adds : ∀ k, p.pendingAdds.get? k = r.pendingAdds.get? k ∨
    (r.pendingAdds.get? k = none ∧ p.pendingAdds.get? k = p.files.get? k)

theorem Ahead.refl (p : ManifestMetadataProvider) : Ahead p p :=
  ⟨rfl, rfl, fun _ => rfl, fun _ => Iff.rfl, fun _ => .inl rfl⟩

/-- A commit makes the two maps equal. -/
theorem Ahead.applyPending {p r : ManifestMetadataProvider} (h : Ahead p r) (k : PyStr) :
    p.applyPending.files.get? k = r.applyPending.files.get? k := by
  rw [ManifestMetadataProvider.get?_applyPending, ManifestMetadataProvider.get?_applyPending]
  by_cases hr : k ∈ r.pendingRemoves
  · rw [if_pos hr, if_pos ((h.removes k).mpr hr)]
  · rw [if_neg hr, if_neg (fun hp => hr ((h.removes k).mp hp))]
    rcases h.adds k with hk | ⟨hnone, hk⟩
    · rw [hk, h.files]
    · rw [hnone, hk, Option.or_self, Option.none_or, h.files]

/-- A commit on both sides keeps the one ahead. -/
theorem Ahead.commit {p r p' r' : ManifestMetadataProvider} (h : Ahead p r)
    {write write' : ManifestMetadataProvider → List ManifestObjectMetadata → σ → Option PyError × σ}
    {st st' st₁ st₁' : σ} {e e' : Option PyError}
    (hp : p.commitUpdates write st = (e, p', st₁))
    (hr : r.commitUpdates write' st' = (e', r', st₁')) : Ahead p' r' := by
  obtain ⟨hnp, hfp, hwp, hop, -⟩ := ManifestMetadataProvider.commitUpdates_spec hp
  obtain ⟨hnr, hfr, hwr, hor, -⟩ := ManifestMetadataProvider.commitUpdates_spec hr
  refine ⟨by rw [hwp, hwr, h.writable], by rw [hop, hor, h.allowOverwrites], fun k => ?_,
    fun k => ?_, fun k => .inl ?_⟩
  · rw [hfp, hfr, h.applyPending]
  · rw [hnp.2, hnr.2]
  · rw [PyDict.isEmpty_iff.mp hnp.1, PyDict.isEmpty_iff.mp hnr.1]

/-- A worker's `add_file` has the same outcome on both. -/
theorem Ahead.addFile {p r p' : ManifestMetadataProvider} (h : Ahead p r) {path : PyStr}
    {md : FileMetadata} (hp : p.addFile path md = .ok p') :
    ∃ r', r.addFile path md = .ok r' ∧ Ahead p' r' := by
  obtain ⟨hw, ho, m, hm, hadds, hfiles, hrem, hw', ho', -⟩ :=
    ManifestMetadataProvider.addFile_spec hp
  obtain ⟨r', hr⟩ : ∃ r', r.addFile path md = .ok r' := ManifestMetadataProvider.addFile_isOk
    (h.writable ▸ hw) (h.allowOverwrites ▸ h.files path ▸ ho) hm
  obtain ⟨-, -, m', hm', hadds', hfiles', hrem', hw'', ho'', -⟩ :=
    ManifestMetadataProvider.addFile_spec hr
  obtain rfl : m = m' := Except.ok.inj (hm.symm.trans hm')
  refine ⟨r', hr, by rw [hw', hw'', h.writable], by rw [ho', ho'', h.allowOverwrites],
    fun k => by rw [hfiles, hfiles', h.files], fun k => by rw [hrem, hrem', h.removes], fun k => ?_⟩
  rw [hadds, hadds', PyDict.get?_set, PyDict.get?_set, hfiles]
  split
  · exact .inl rfl
  · exact h.adds k

/-- What the one refuses to add, the other refuses as well. -/
theorem Ahead.symm_addFile_error {p r : ManifestMetadataProvider} (h : Ahead p r) {path : PyStr}
    {md : FileMetadata} {e : PyError} (hp : p.addFile path md = .error e) :
    ∃ e', r.addFile path md = .error e' := by
  cases hr : r.addFile path md with
  | error e' => exact ⟨e', rfl⟩
  | ok r' =>
      obtain ⟨hw, ho, m, hm, -⟩ := ManifestMetadataProvider.addFile_spec hr
      obtain ⟨p', hp'⟩ : ∃ p', p.addFile path md = .ok p' := ManifestMetadataProvider.addFile_isOk
        (h.writable ▸ hw) (by rw [h.allowOverwrites, h.files path]; exact ho) hm
      rw [hp] at hp'
      cases hp'

/-- A removal on both sides keeps the one ahead. -/
theorem Ahead.removeFile {p r p' : ManifestMetadataProvider} (h : Ahead p r) {path : PyStr}
    (hp : p.removeFile path = .ok p') : ∃ r', r.removeFile path = .ok r' ∧ Ahead p' r' := by
  obtain ⟨hw, hc, hrem, hfiles, hadds, hw', ho', -⟩ := ManifestMetadataProvider.removeFile_spec hp
  obtain ⟨r', hr⟩ : ∃ r', r.removeFile path = .ok r' := ManifestMetadataProvider.removeFile_isOk
    (h.writable ▸ hw) (by rw [PyDict.contains, ← h.files path]; exact hc)
  obtain ⟨-, -, hrem', hfiles', hadds', hw'', ho'', -⟩ :=
    ManifestMetadataProvider.removeFile_spec hr
  exact ⟨r', hr, by rw [hw', hw'', h.writable], by rw [ho', ho'', h.allowOverwrites],
    fun k => by rw [hfiles, hfiles', h.files], fun k => by rw [hrem, hrem', h.removes],
    fun k => by rw [hadds, hadds', hfiles]; exact h.adds k⟩

/-- What the one refuses to remove, the other refuses as well. -/
theorem Ahead.symm_removeFile_error {p r : ManifestMetadataProvider} (h : Ahead p r)
    {path : PyStr} {e : PyError} (hp : p.removeFile path = .error e) :
    ∃ e', r.removeFile path = .error e' := by
  cases hr : r.removeFile path with
  | error e' => exact ⟨e', rfl⟩
  | ok r' =>
      obtain ⟨hw, hc, -⟩ := ManifestMetadataProvider.removeFile_spec hr
      obtain ⟨p', hp'⟩ : ∃ p', p.removeFile path = .ok p' :=
        ManifestMetadataProvider.removeFile_isOk
        (h.writable ▸ hw) (by rw [PyDict.contains, h.files path]; exact hc)
      rw [hp] at hp'
      cases hp'

/-- **A replay that finds its change in place is harmless**: it does not
raise, and the provider stays ahead of the other by committed entries only. -/
theorem Ahead.replayMessage {s : ReplayState σ} {r : ManifestMetadataProvider} {msg : ResultMsg}
    (h : Ahead s.provider r) (hin : InPlace s.provider msg) :
    (replayMessage s msg).error = s.error ∧ (replayMessage s msg).queue = s.queue ∧
      Ahead (replayMessage s msg).provider r := by
  cases msg with
  | stop => exact ⟨rfl, rfl, h⟩
  | add path m =>
      obtain ⟨hw, ho, e, he, hplace⟩ := hin
      obtain ⟨p', hp⟩ := ManifestMetadataProvider.addFile_isOk hw ho he
      obtain ⟨-, -, e', he', hadds, hfiles, hrem, hw', ho', -⟩ :=
        ManifestMetadataProvider.addFile_spec hp
      obtain rfl : e = e' := Except.ok.inj (he.symm.trans he')
      have hout : ReplayAction.replayMessage s (.add path m) = { s with provider := p' } := by
        rw [ReplayAction.replayMessage, hp]
        rfl
      rw [hout]
      refine ⟨rfl, rfl, hw'.trans h.writable, ho'.trans h.allowOverwrites,
        fun k => by rw [hfiles, h.files], fun k => by rw [hrem, h.removes], fun k => ?_⟩
      show p'.pendingAdds.get? k = _ ∨ _ ∧ p'.pendingAdds.get? k = p'.files.get? k
      rw [hadds, PyDict.get?_set, hfiles]
      by_cases hk : k = path
      · subst hk
        rw [if_pos rfl]
        rcases hplace with hplace | ⟨hnone, hplace⟩
        · rw [← hplace]
          exact h.adds k
        · -- committed already: the entry is only pending once more
          refine .inr ⟨?_, hplace.symm⟩
          rcases h.adds k with hk | ⟨hk, -⟩
          · rw [← hk, hnone]
          · exact hk
      · rw [if_neg hk]
        exact h.adds k
  | delete path m =>
      obtain ⟨hw, hmem⟩ := hin
      obtain ⟨p', hp⟩ :=
        ManifestMetadataProvider.removeFile_isOk hw (s.provider.mem_of_removes path hmem)
      obtain ⟨-, -, hrem, hfiles, hadds, hw', ho', -⟩ :=
        ManifestMetadataProvider.removeFile_spec hp
      have hout : ReplayAction.replayMessage s (.delete path m) = { s with provider := p' } := by
        rw [ReplayAction.replayMessage, hp]
        rfl
      rw [hout]
      refine ⟨rfl, rfl, hw'.trans h.writable, ho'.trans h.allowOverwrites,
        fun k => by rw [hfiles, h.files], fun k => ?_,
        fun k => by rw [hadds, hfiles]; exact h.adds k⟩
      rw [hrem, ← h.removes]
      exact ⟨fun hk => hk.elim (fun e => e ▸ hmem) id, .inr⟩

/-- The two systems side by side. -/
structure Beside (s r : ReplayState σ) : Prop where
  queue : s.queue = r.queue
  error : s.error = none
  error' : r.error = none
  ahead : Ahead s.provider r.provider

variable {write : τ → ManifestMetadataProvider → List ManifestObjectMetadata → σ →
  Option PyError × σ} {s r s' : ReplayState σ} {a : ReplayAction τ}

/-- One step of the system is followed by the one without replays. -/
theorem Beside.step (h : Beside s r) (hok : ReplaysInPlace s a)
    (hstep : ReplayAction.step write s a = some s') :
    ∃ r', quietStep write r a = some r' ∧ Beside s' r' := by
  cases a with
  | addFile path md =>
      obtain rfl := Option.some.inj hstep
      refine ⟨queueBackedAddFile r path md, rfl, ?_⟩
      cases hp : s.provider.addFile path md with
      -- an addition that goes through here goes through there
      | ok p' =>
          obtain ⟨r', hr, hahead⟩ := h.ahead.addFile hp
          simp only [queueBackedAddFile, hp, hr]
          exact ⟨by rw [h.queue], h.error, h.error', hahead⟩
      -- one that is refused here is refused there, where more has been added
      | error e =>
          obtain ⟨e', hr⟩ := h.ahead.symm_addFile_error hp
          simp only [queueBackedAddFile, hp, hr]
          exact h
  | removeFile path =>
      obtain rfl := Option.some.inj hstep
      refine ⟨queueBackedRemoveFile r path, rfl, ?_⟩
      cases hp : s.provider.removeFile path with
      | ok p' =>
          obtain ⟨r', hr, hahead⟩ := h.ahead.removeFile hp
          simp only [queueBackedRemoveFile, hp, hr]
          exact ⟨h.queue, h.error, h.error', hahead⟩
      | error e =>
          obtain ⟨e', hr⟩ := h.ahead.symm_removeFile_error hp
          simp only [queueBackedRemoveFile, hp, hr]
          exact h
  | queueDelete path m =>
      obtain rfl := Option.some.inj hstep
      exact ⟨_, rfl, by rw [h.queue], h.error, h.error', h.ahead⟩
  | replay =>
      obtain ⟨ms, hms, rfl⟩ := Option.map_eq_some_iff.mp hstep
      cases hq : s.queue with
      -- there is no message to replay
      | nil => simp [nextMessage, h.error, hq] at hms
      | cons msg queue =>
          have hms' : (msg, { s with queue }) = ms := by
            simpa [nextMessage, h.error, hq] using hms
          subst hms'
          -- the message files the entry that is there, so that the replay is quiet
          have hin : InPlace s.provider msg := hok msg (by simp [hq])
          obtain ⟨herr, hqueue, hahead⟩ :=
            Ahead.replayMessage (s := { s with queue }) h.ahead hin
          refine ⟨{ r with queue }, ?_, hqueue, herr.trans h.error, h.error', hahead⟩
          simp [quietStep, stepWith, nextMessage, h.error', ← h.queue, hq]
  | commitUpdates now =>
      obtain rfl := Option.some.inj hstep
      exact ⟨commit write r now, rfl, h.queue, h.error, h.error', h.ahead.commit rfl rfl⟩

/-- **Replays are idempotent while they find their changes in place**: along
such an interleaving, from any provider, no replay raises, and the committed
map is the one without the replays, in every state and after a further
commit. -/
theorem replays_idempotent {as : List (ReplayAction τ)} (herr : s.error = none)
    (hok : Always (ReplayAction.step write) ReplaysInPlace s as)
    (hrun : exec (ReplayAction.step write) s as = some s') :
    s'.error = none ∧ ∃ r, exec (quietStep write) s as = some r ∧
      (∀ k, s'.provider.files.get? k = r.provider.files.get? k) ∧
      ∀ k, s'.provider.applyPending.files.get? k = r.provider.applyPending.files.get? k := by
  obtain ⟨r, hr, hbeside⟩ := exec_simulation (R := Beside)
    (fun s r a s' h (hok : ReplaysInPlace s a) hstep => h.step hok hstep) hok hrun
    ⟨rfl, herr, herr, Ahead.refl s.provider⟩
  exact ⟨hbeside.error, r, hr, hbeside.ahead.files, hbeside.ahead.applyPending⟩

/-- An empty writable provider, with or without overwrites. -/
def emptyWritable (allowOverwrites : Bool) : ReplayState Unit where
  provider :=
    { files := PyDict.empty
      manifestPath := []
      writable := true
      allowOverwrites
      key_of_files := key_of_no_adds
      mem_of_removes := mem_of_no_removes }
  storage := ()

/-- A file that a worker has written. -/
def writtenFile : FileMetadata := .plain { key := ['a'], contentLength := 1, lastModified := 0 }

/-- Replayed before the commit, the file is committed once, also without
overwrites. -/
theorem replay_before_commit :
    ∃ s' r, exec (step acceptWrite) (emptyWritable false)
        [.addFile ['a'] writtenFile, .replay, .commitUpdates ()] = some s' ∧ s'.error = none ∧
      exec (quietStep acceptWrite) (emptyWritable false)
        [.addFile ['a'] writtenFile, .replay, .commitUpdates ()] = some r ∧
      s'.provider.files.get? ['a'] = r.provider.files.get? ['a'] := by
  obtain ⟨s', hs'⟩ : ∃ s', exec (step acceptWrite) (emptyWritable false)
      [.addFile ['a'] writtenFile, .replay, .commitUpdates ()] = some s' := ⟨_, rfl⟩
  have hok : Always (step acceptWrite) ReplaysInPlace (emptyWritable false)
      [.addFile ['a'] writtenFile, .replay, .commitUpdates ()] := by
    refine ⟨trivial, fun s₁ h₁ => ⟨?_, fun _ _ => ⟨trivial, fun _ _ => trivial⟩⟩⟩
    obtain rfl := Option.some.inj h₁
    intro msg hmsg
    obtain rfl := Option.some.inj hmsg
    exact ⟨rfl, .inr rfl, _, rfl, .inl rfl⟩
  obtain ⟨herr, r, hr, hfiles, -⟩ := replays_idempotent rfl hok hs'
  exact ⟨s', r, hs', herr, hr, hfiles ['a']⟩

/-- A commit between an add and its replay makes the replay raise without
overwrites; a commit between a removal and its replay makes it raise with
them. -/
theorem replay_after_commit_raises :
    (∃ s', exec (step acceptWrite) (emptyWritable false)
        [.addFile ['a'] writtenFile, .commitUpdates (), .replay] = some s' ∧
      s'.error = some (.fileExistsError
        "File a already exists and overwrites are not allowed.".toList)) ∧
    ∃ s', exec (step acceptWrite) (emptyWritable true)
        [.addFile ['a'] writtenFile, .replay, .commitUpdates (), .removeFile ['a'],
          .queueDelete ['a'] (queuedMetadata writtenFile), .commitUpdates (), .replay] = some s' ∧
      s'.error = some (.fileNotFoundError "Object a does not exist.".toList) :=
  ⟨⟨_, rfl, rfl⟩, _, rfl, rfl⟩

end ReplayAction

end MultiStorageClient
