/-
MultiStorageClient/ManifestRuns.lean

Sequences of `add_file`, `remove_file` and `commit_updates` calls on one
provider.

What a sequence of calls asks for is read off path by path: the last call
that names the path decides (`lastCall`).  A commit replays its two
collections in a fixed order, adds before removals, so between two commits
the order of an `add_file` and a `remove_file` on one path is lost.  The main
result says for which sequences that does not show: those in which no path
is added again after it was removed in the same segment, and in which plain
metadata has no field that `add_file` leaves behind.
-/
import MultiStorageClient.ManifestMetadata
import MultiStorageClient.Run

namespace MultiStorageClient

open Run

/-- A call of the provider; `τ` is what a commit is given by its
surroundings, such as the time. -/
inductive ManifestCall (τ : Type*)
  | addFile (path : PyStr) (md : FileMetadata)
  | removeFile (path : PyStr)
  | commitUpdates (now : τ)

namespace ManifestCall

variable {σ τ : Type*}

/-- The provider together with its storage. -/
abbrev World (σ : Type*) := ManifestMetadataProvider × σ

/-- One call, if it is successful. -/
def step (write : τ → ManifestMetadataProvider → List ManifestObjectMetadata → σ →
      Option PyError × σ) (w : World σ) : ManifestCall τ → Option (World σ)
  | .addFile path md => (w.1.addFile path md).toOption.map fun p => (p, w.2)
  | .removeFile path => (w.1.removeFile path).toOption.map fun p => (p, w.2)
  | .commitUpdates now =>
      match w.1.commitUpdates (write now) w.2 with
      | (none, p, st) => some (p, st)
      | (some _, _, _) => none

/-! ### What the calls ask for -/

/-- What the call asks for at `path`: metadata to be filed, or no entry. -/
def request (path : PyStr) : ManifestCall τ → Option (Option FileMetadata)
  | .addFile p md => if p = path then some (some md) else none
  | .removeFile p => if p = path then some none else none
  | .commitUpdates _ => none

/-- What the last call on `path` asks for. -/
def lastCall (path : PyStr) : List (ManifestCall τ) → Option (Option FileMetadata)
  | [] => none
  | c :: cs => (lastCall path cs).or (c.request path)

/-- The metadata of the last `add_file` on `path`. -/
def lastAdd (path : PyStr) : List (ManifestCall τ) → Option FileMetadata
  | [] => none
  | c :: cs => (lastAdd path cs).or ((c.request path).bind id)

/-- The calls since the last commit. -/
def sinceCommit (cs : List (ManifestCall τ)) : List (ManifestCall τ) :=
  cs.rtakeWhile fun
    | .commitUpdates _ => false
    | _ => true

end ManifestCall

/-- The entry that carries all of the metadata, under the path it is filed
under. -/
def FileMetadata.entry (path : PyStr) : FileMetadata → ManifestObjectMetadata
  | .plain m => { m with key := path, physicalPath := m.key }
  | .manifest m => m

/-- `add_file` keeps every field of the metadata: plain metadata has no
storage class and no symlink target. -/
def FileMetadata.Carried : FileMetadata → Prop
  | .plain m => m.storageClass = none ∧ m.symlinkTarget = none
  | .manifest _ => True

/-- The entry is the metadata exactly where every field is carried. -/
theorem FileMetadata.toManifest_eq_entry_iff {path : PyStr} {md : FileMetadata}
    {m : ManifestObjectMetadata} (h : md.toManifest path = .ok m) :
    m = md.entry path ↔ md.Carried := by
  cases md with
  | plain m' =>
      simp only [toManifest, Except.ok.injEq] at h
      subst h
      obtain ⟨k, n, t, ty, ct, et, sc, meta_, sl⟩ := m'
      simp [entry, Carried, eq_comm]
  | manifest m' =>
      rw [toManifest] at h
      split at h
      · cases h
      · cases h
        simp [entry, Carried]

namespace ManifestCall

variable {σ τ : Type*}

/-- The committed map `files` shows at `path` what `cs` asks for; a path that
no call names keeps the entry it had at first. -/
def AgreesAt (initial files : PyDict PyStr ManifestObjectMetadata) (cs : List (ManifestCall τ))
    (path : PyStr) : Prop :=
  files.get? path =
    match lastCall path cs with
    | none => initial.get? path
    | some md => md.map (·.entry path)

/-- Between the last commit and the end of `cs`, a path that was added last
was not removed before, and its metadata is carried over in full. -/
def SegmentOk (cs : List (ManifestCall τ)) : Prop :=
  ∀ path md, lastCall path (sinceCommit cs) = some (some md) →
    ManifestCall.removeFile path ∉ sinceCommit cs ∧ md.Carried

/-! ### Lists of calls -/

theorem lastCall_append (path : PyStr) (cs ds : List (ManifestCall τ)) :
    lastCall path (cs ++ ds) = (lastCall path ds).or (lastCall path cs) := by
  induction cs with
  | nil => simp [lastCall]
  | cons c cs ih => rw [List.cons_append, lastCall, ih, lastCall, Option.or_assoc]

theorem lastAdd_append (path : PyStr) (cs ds : List (ManifestCall τ)) :
    lastAdd path (cs ++ ds) = (lastAdd path ds).or (lastAdd path cs) := by
  induction cs with
  | nil => simp [lastAdd]
  | cons c cs ih => rw [List.cons_append, lastAdd, ih, lastAdd, Option.or_assoc]

theorem lastAdd_eq_none {path : PyStr} {cs : List (ManifestCall τ)}
    (h : lastCall path cs = none) : lastAdd path cs = none := by
  induction cs with
  | nil => rfl
  | cons c cs ih =>
      rw [lastCall] at h
      obtain ⟨h₁, h₂⟩ := Option.or_eq_none_iff.mp h
      rw [lastAdd, ih h₁, h₂]
      rfl

/-- A last call that adds is the last addition. -/
theorem lastAdd_of_lastCall {path : PyStr} {cs : List (ManifestCall τ)} {md : FileMetadata}
    (h : lastCall path cs = some (some md)) : lastAdd path cs = some md := by
  induction cs with
  | nil => cases h
  | cons c cs ih =>
      rw [lastCall] at h
      rcases Option.or_eq_some_iff.mp h with h | ⟨hnone, h⟩
      · rw [lastAdd, ih h, Option.some_or]
      · rw [lastAdd, lastAdd_eq_none hnone, h]
        rfl

/-- A last call that removes is a call. -/
theorem mem_of_lastCall_remove {path : PyStr} {cs : List (ManifestCall τ)}
    (h : lastCall path cs = some none) : ManifestCall.removeFile path ∈ cs := by
  induction cs with
  | nil => cases h
  | cons c cs ih =>
      rw [lastCall] at h
      rcases Option.or_eq_some_iff.mp h with h | ⟨-, h⟩
      · exact List.mem_cons_of_mem c (ih h)
      · cases c with
        | addFile p md =>
            rw [request] at h
            split at h <;> cases h
        | removeFile p =>
            rw [request] at h
            split at h
            · next hp => exact hp ▸ List.mem_cons_self
            · cases h
        | commitUpdates now => cases h

/-- A path without a call is not removed. -/
theorem not_removed_of_lastCall {path : PyStr} {cs : List (ManifestCall τ)}
    (h : lastCall path cs = none) : ManifestCall.removeFile path ∉ cs := by
  intro hc
  induction cs with
  | nil => cases hc
  | cons c cs ih =>
      rw [lastCall] at h
      obtain ⟨h₁, h₂⟩ := Option.or_eq_none_iff.mp h
      rcases List.mem_cons.mp hc with rfl | hc
      · simp [request] at h₂
      · exact ih h₁ hc

@[simp] theorem sinceCommit_nil : sinceCommit ([] : List (ManifestCall τ)) = [] := rfl

@[simp] theorem sinceCommit_snoc_add (cs : List (ManifestCall τ)) (path : PyStr)
    (md : FileMetadata) :
    sinceCommit (cs ++ [.addFile path md]) = sinceCommit cs ++ [.addFile path md] :=
  List.rtakeWhile_concat_pos _ _ _ rfl

@[simp] theorem sinceCommit_snoc_remove (cs : List (ManifestCall τ)) (path : PyStr) :
    sinceCommit (cs ++ [.removeFile path]) = sinceCommit cs ++ [.removeFile path] :=
  List.rtakeWhile_concat_pos _ _ _ rfl

@[simp] theorem sinceCommit_snoc_commit (cs : List (ManifestCall τ)) (now : τ) :
    sinceCommit (cs ++ [.commitUpdates now]) = [] :=
  List.rtakeWhile_concat_neg _ _ _ (by simp)

/-- A call since the last commit is the last call of all. -/
theorem lastCall_of_sinceCommit {cs : List (ManifestCall τ)} {path : PyStr}
    {r : Option FileMetadata} (h : lastCall path (sinceCommit cs) = some r) :
    lastCall path cs = some r := by
  obtain ⟨ds, hds⟩ : sinceCommit cs <:+ cs := List.rtakeWhile_suffix _ cs
  rw [← hds, lastCall_append, h, Option.some_or]

/-! ### Steps -/

variable {write : τ → ManifestMetadataProvider → List ManifestObjectMetadata → σ →
  Option PyError × σ} {w w' : World σ}

theorem step_addFile {path : PyStr} {md : FileMetadata}
    (h : step write w (.addFile path md) = some w') :
    w.1.addFile path md = .ok w'.1 ∧ w'.2 = w.2 := by
  rw [step, Option.map_eq_some_iff] at h
  obtain ⟨p, hp, rfl⟩ := h
  cases ha : w.1.addFile path md with
  | error e => rw [ha] at hp; cases hp
  | ok q => rw [ha] at hp; cases hp; exact ⟨rfl, rfl⟩

theorem step_removeFile {path : PyStr} (h : step write w (.removeFile path) = some w') :
    w.1.removeFile path = .ok w'.1 ∧ w'.2 = w.2 := by
  rw [step, Option.map_eq_some_iff] at h
  obtain ⟨p, hp, rfl⟩ := h
  cases ha : w.1.removeFile path with
  | error e => rw [ha] at hp; cases hp
  | ok q => rw [ha] at hp; cases hp; exact ⟨rfl, rfl⟩

theorem step_commitUpdates {now : τ} (h : step write w (.commitUpdates now) = some w') :
    w.1.commitUpdates (write now) w.2 = (none, w'.1, w'.2) := by
  rw [step] at h
  split at h
  · next p st hc =>
      cases h
      exact hc
  · cases h

/-- The two collections hold what the calls since the last commit left there:
the last metadata added at each path, and every path removed. -/
structure PendingOf (cs : List (ManifestCall τ)) (p : ManifestMetadataProvider) : Prop where
  adds : ∀ path, (p.pendingAdds.get? path).map Except.ok =
    (lastAdd path (sinceCommit cs)).map (·.toManifest path)
  removes : ∀ path, path ∈ p.pendingRemoves ↔ ManifestCall.removeFile path ∈ sinceCommit cs

theorem PendingOf.of_nothingPending {p : ManifestMetadataProvider} (h : p.NothingPending)
    {cs : List (ManifestCall τ)} (hcs : sinceCommit cs = []) : PendingOf cs p where
  adds path := by rw [PyDict.isEmpty_iff.mp h.1, hcs]; rfl
  removes path := by rw [h.2, hcs]; simp

/-- One more call, and what is pending is that of the calls. -/
theorem PendingOf.snoc {cs : List (ManifestCall τ)} {c : ManifestCall τ}
    (h : PendingOf cs w.1) (hstep : step write w c = some w') : PendingOf (cs ++ [c]) w'.1 := by
  cases c with
  | addFile path md =>
      obtain ⟨-, -, m, hm, hadds, -, hrem, -⟩ :=
        ManifestMetadataProvider.addFile_spec (step_addFile hstep).1
      refine ⟨fun k => ?_, fun k => ?_⟩
      · rw [hadds, PyDict.get?_set, sinceCommit_snoc_add, lastAdd_append]
        by_cases hk : k = path
        · subst hk
          simp [lastAdd, request, hm]
        · simpa [lastAdd, request, hk, Ne.symm hk] using h.adds k
      · rw [hrem, h.removes k, sinceCommit_snoc_add]
        simp
  | removeFile path =>
      obtain ⟨-, -, hrem, -, hadds, -⟩ :=
        ManifestMetadataProvider.removeFile_spec (step_removeFile hstep).1
      refine ⟨fun k => ?_, fun k => ?_⟩
      · rw [hadds, h.adds k, sinceCommit_snoc_remove, lastAdd_append]
        by_cases hk : path = k <;> simp [lastAdd, request, hk]
      · rw [hrem, h.removes k, sinceCommit_snoc_remove]
        simp [or_comm]
  | commitUpdates now =>
      obtain ⟨hn, -⟩ := ManifestMetadataProvider.commitUpdates_spec (step_commitUpdates hstep)
      exact PendingOf.of_nothingPending hn (sinceCommit_snoc_commit cs now)

/-- The pending collections after a run of successful calls. -/
theorem pendingOf_exec {cs : List (ManifestCall τ)} (h₀ : w.1.NothingPending)
    (h : exec (step write) w cs = some w') : PendingOf cs w'.1 := by
  induction cs using List.reverseRecOn generalizing w' with
  | nil =>
      obtain rfl : w = w' := by simpa [exec] using h
      exact PendingOf.of_nothingPending h₀ sinceCommit_nil
  | append_singleton cs c ih =>
      obtain ⟨w₁, h₁, h₂⟩ := exec_snoc.mp h
      exact (ih h₁).snoc h₂

/-- What a commit files at a path: nothing if it was removed since the last
commit, else the last metadata added, else what was there. -/
theorem PendingOf.get?_commit {cs : List (ManifestCall τ)} {now : τ} (h : PendingOf cs w.1)
    (hstep : step write w (.commitUpdates now) = some w') (path : PyStr) :
    (ManifestCall.removeFile path ∈ sinceCommit cs → w'.1.files.get? path = none) ∧
      (ManifestCall.removeFile path ∉ sinceCommit cs → ∀ md,
        lastAdd path (sinceCommit cs) = some md →
          ∃ m, md.toManifest path = .ok m ∧ w'.1.files.get? path = some m) ∧
      (lastCall path (sinceCommit cs) = none → w'.1.files.get? path = w.1.files.get? path) := by
  obtain ⟨-, hfiles, -⟩ := ManifestMetadataProvider.commitUpdates_spec (step_commitUpdates hstep)
  rw [hfiles, ManifestMetadataProvider.get?_applyPending]
  have hadds := h.adds path
  refine ⟨fun hr => ?_, fun hr md hmd => ?_, fun hnone => ?_⟩
  · rw [if_pos ((h.removes path).mpr hr)]
  · rw [if_neg (fun hm => hr ((h.removes path).mp hm))]
    rw [hmd] at hadds
    cases hg : w.1.pendingAdds.get? path with
    | none => rw [hg] at hadds; cases hadds
    | some m =>
        rw [hg] at hadds
        exact ⟨m, (Option.some.inj hadds).symm, rfl⟩
  · have hr := not_removed_of_lastCall hnone
    rw [if_neg (fun hm => hr ((h.removes path).mp hm))]
    rw [lastAdd_eq_none hnone] at hadds
    cases hg : w.1.pendingAdds.get? path with
    | none => rfl
    | some m => rw [hg] at hadds; cases hadds

/-! ### Runs -/

/-- At every commit of the run, the map it leaves agrees at every path with
the calls made so far. -/
def CommitsAgree (write : τ → ManifestMetadataProvider → List ManifestObjectMetadata → σ →
      Option PyError × σ) (w : World σ) (cs : List (ManifestCall τ)) : Prop :=
  ∀ pre now post, cs = pre ++ .commitUpdates now :: post →
    ∀ w', exec (step write) w (pre ++ [.commitUpdates now]) = some w' →
      ∀ path, AgreesAt w.1.files w'.1.files pre path

/-- Every segment of the run keeps the order of adds and removals. -/
def SegmentsOk (cs : List (ManifestCall τ)) : Prop :=
  ∀ pre now post, cs = pre ++ .commitUpdates now :: post → SegmentOk pre

theorem SegmentsOk.of_append {cs ds : List (ManifestCall τ)} (h : SegmentsOk (cs ++ ds)) :
    SegmentsOk cs := by
  rintro pre now post rfl
  exact h pre now (post ++ ds) (by simp)

theorem SegmentsOk.nil : SegmentsOk ([] : List (ManifestCall τ)) := by
  intro pre now post h
  simp at h

theorem SegmentsOk.snoc {cs : List (ManifestCall τ)} {c : ManifestCall τ} (h : SegmentsOk cs)
    (hc : ∀ now, c = .commitUpdates now → SegmentOk cs) : SegmentsOk (cs ++ [c]) := by
  intro pre now post heq
  rcases List.eq_nil_or_concat post with rfl | ⟨post', d, rfl⟩
  · obtain ⟨rfl, hd⟩ := List.append_inj' heq rfl
    exact hc now (List.cons.inj hd).1
  · rw [List.concat_eq_append, ← List.cons_append, ← List.append_assoc] at heq
    exact h pre now post' (List.append_inj' heq rfl).1

/-- A commit that keeps the order extends agreement from the paths without a
pending call to all paths. -/
theorem agrees_commit {cs : List (ManifestCall τ)} {now : τ}
    {initial : PyDict PyStr ManifestObjectMetadata} (h : PendingOf cs w.1)
    (hstep : step write w (.commitUpdates now) = some w') (hok : SegmentOk cs)
    (hag : ∀ path, lastCall path (sinceCommit cs) = none → AgreesAt initial w.1.files cs path)
    (path : PyStr) : AgreesAt initial w'.1.files cs path := by
  obtain ⟨hrem, hadd, hkeep⟩ := h.get?_commit hstep path
  rcases hc : lastCall path (sinceCommit cs) with - | - | md
  · rw [AgreesAt, hkeep hc]
    exact hag path hc
  · rw [AgreesAt, lastCall_of_sinceCommit hc, hrem (mem_of_lastCall_remove hc)]
    rfl
  · obtain ⟨hnot, hcar⟩ := hok path md hc
    obtain ⟨m, hm, hget⟩ := hadd hnot md (lastAdd_of_lastCall hc)
    rw [AgreesAt, lastCall_of_sinceCommit hc, hget,
      (FileMetadata.toManifest_eq_entry_iff hm).mpr hcar]
    rfl

/-- Between commits the map agrees at the paths without a pending call. -/
theorem agrees_exec {cs : List (ManifestCall τ)} (h₀ : w.1.NothingPending)
    (hok : SegmentsOk cs) (h : exec (step write) w cs = some w') (path : PyStr)
    (hpath : lastCall path (sinceCommit cs) = none) :
    AgreesAt w.1.files w'.1.files cs path := by
  induction cs using List.reverseRecOn generalizing w' path with
  | nil =>
      obtain rfl : w = w' := by simpa [exec] using h
      rfl
  | append_singleton cs c ih =>
      obtain ⟨w₁, h₁, h₂⟩ := exec_snoc.mp h
      have ih' := ih hok.of_append h₁
      cases c with
      -- the path's last call is another one than `p`'s
      | addFile p md =>
          obtain ⟨-, -, m, -, -, hfiles, -⟩ :=
            ManifestMetadataProvider.addFile_spec (step_addFile h₂).1
          rw [sinceCommit_snoc_add, lastCall_append] at hpath
          obtain ⟨hp, hpath⟩ := Option.or_eq_none_iff.mp hpath
          have hag := ih' path hpath
          rwa [AgreesAt, hfiles, lastCall_append, hp, Option.none_or]
      | removeFile p =>
          obtain ⟨-, -, -, hfiles, -⟩ :=
            ManifestMetadataProvider.removeFile_spec (step_removeFile h₂).1
          rw [sinceCommit_snoc_remove, lastCall_append] at hpath
          obtain ⟨hp, hpath⟩ := Option.or_eq_none_iff.mp hpath
          have hag := ih' path hpath
          rwa [AgreesAt, hfiles, lastCall_append, hp, Option.none_or]
      -- a commit ends the segment, and files what is pending
      | commitUpdates now =>
          have hag := agrees_commit (pendingOf_exec h₀ h₁) h₂ (hok cs now [] rfl) ih' path
          rw [AgreesAt, lastCall_append]
          exact hag

/-- A segment that loses the order shows at its commit. -/
theorem segmentOk_of_agrees {cs : List (ManifestCall τ)} {now : τ}
    {initial : PyDict PyStr ManifestObjectMetadata} (h : PendingOf cs w.1)
    (hstep : step write w (.commitUpdates now) = some w')
    (hag : ∀ path, AgreesAt initial w'.1.files cs path) : SegmentOk cs := by
  intro path md hc
  obtain ⟨hrem, hadd, -⟩ := h.get?_commit hstep path
  have hfiles : w'.1.files.get? path = some (md.entry path) := by
    have hp := hag path
    rwa [AgreesAt, lastCall_of_sinceCommit hc] at hp
  have hnot : ManifestCall.removeFile path ∉ sinceCommit cs := by
    intro hr
    rw [hrem hr] at hfiles
    cases hfiles
  obtain ⟨m, hm, hget⟩ := hadd hnot md (lastAdd_of_lastCall hc)
  rw [hget] at hfiles
  exact ⟨hnot, (FileMetadata.toManifest_eq_entry_iff hm).mp (Option.some.inj hfiles)⟩

/-- **The committed map follows the last call on each path** at every commit
of a run of successful calls exactly when no segment between two commits adds
a path again after removing it, and no segment ends with plain metadata that
carries a storage class or a symlink target. -/
theorem commits_agree_iff {cs : List (ManifestCall τ)} (h₀ : w.1.NothingPending)
    (h : exec (step write) w cs = some w') : CommitsAgree write w cs ↔ SegmentsOk cs := by
  constructor
  · rintro hag pre now post rfl
    have hsplit : pre ++ .commitUpdates now :: post = (pre ++ [.commitUpdates now]) ++ post := by
      simp
    rw [hsplit] at h
    obtain ⟨w₂, hw₂, -⟩ := exec_append.mp h
    obtain ⟨w₁, hw₁, hstep⟩ := exec_snoc.mp hw₂
    exact segmentOk_of_agrees (pendingOf_exec h₀ hw₁) hstep (hag pre now post rfl w₂ hw₂)
  · rintro hok pre now post rfl w₂ hw₂ path
    obtain ⟨w₁, hw₁, hstep⟩ := exec_snoc.mp hw₂
    exact agrees_commit (pendingOf_exec h₀ hw₁) hstep (hok pre now post rfl)
      (fun path hpath => agrees_exec h₀ hok.of_append hw₁ path hpath) path

/-- A storage on which every write succeeds. -/
def acceptWrite (_ : Unit) (_ : ManifestMetadataProvider) (_ : List ManifestObjectMetadata)
    (_ : Unit) : Option PyError × Unit := (none, ())

/-- A writable provider with overwrites whose manifest has the one file `a`. -/
def oneFileProvider : ManifestMetadataProvider where
  files := PyDict.empty.set ['a']
    { key := ['a'], contentLength := 1, lastModified := 0, physicalPath := ['a'] }
  manifestPath := []
  writable := true
  allowOverwrites := true
  key_of_files := by
    intro k m h
    rw [PyDict.get?_set] at h
    split at h
    · next hk =>
        rw [hk, ← Option.some.inj h]
    · cases h

/-- The file written anew. -/
def rewritten : FileMetadata := .plain { key := ['a'], contentLength := 2, lastModified := 1 }

/-- Removed, committed, written anew and committed, the file is in the map
with its new metadata. -/
theorem commits_agree_remove_commit_add :
    CommitsAgree acceptWrite (oneFileProvider, ())
      [.removeFile ['a'], .commitUpdates (), .addFile ['a'] rewritten, .commitUpdates ()] := by
  have h₁ : SegmentsOk ([.removeFile ['a'], .commitUpdates ()] : List (ManifestCall Unit)) := by
    refine (SegmentsOk.nil.snoc (c := .removeFile ['a']) nofun).snoc fun now _ path md hlast => ?_
    simp [sinceCommit, List.rtakeWhile, lastCall, request] at hlast
  obtain ⟨w', hrun⟩ : ∃ w', exec (step acceptWrite) (oneFileProvider, ())
      [.removeFile ['a'], .commitUpdates (), .addFile ['a'] rewritten, .commitUpdates ()] =
        some w' := ⟨_, rfl⟩
  apply (commits_agree_iff ⟨rfl, rfl⟩ hrun).mpr
  refine (h₁.snoc (c := .addFile ['a'] rewritten) nofun).snoc fun now _ path md hlast => ?_
  have hmd : ['a'] = path ∧ rewritten = md := by
    simpa [sinceCommit, List.rtakeWhile, lastCall, request] using hlast
  rw [← hmd.2]
  exact ⟨by simp [sinceCommit, List.rtakeWhile], rfl, rfl⟩

/-- Removed and written anew between two commits, the file is gone from the
map although all calls were successful. -/
theorem remove_then_add_lost :
    (exec (step acceptWrite) (oneFileProvider, ())
      [.removeFile ['a'], .addFile ['a'] rewritten, .commitUpdates ()]).isSome = true ∧
      ¬ CommitsAgree acceptWrite (oneFileProvider, ())
        [.removeFile ['a'], .addFile ['a'] rewritten, .commitUpdates ()] := by
  refine ⟨rfl, fun h => ?_⟩
  have ha : none = some (rewritten.entry ['a']) :=
    h [.removeFile ['a'], .addFile ['a'] rewritten] () [] rfl _ rfl ['a']
  cases ha

end ManifestCall

end MultiStorageClient
