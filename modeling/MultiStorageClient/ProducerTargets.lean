/-
MultiStorageClient/ProducerTargets.lean

Whether a sync plans to write and to delete the same target object.

The producer compares relative keys, the worker computes destinations with
`buildTargetFilePath`.  For an entry with a non-empty relative key the two
agree: the destination is the target path joined with the key, and a target
object under that name has the same relative key.  The exception is a source
path that names a single file.  Its relative key is empty, so the producer
never finds its counterpart in the target listing, while the worker writes
it under its base name.  `SingleFileClash` is that situation, and it is the
only one in which both operations are planned.
-/
import MultiStorageClient.ProducerPlan
import MultiStorageClient.SyncWorker

namespace MultiStorageClient

namespace ProducerThread

open PyStr

/-! ### A run that is not disturbed finishes -/

/-- The listings behind two cursors end without an exception. -/
def Quiet (c : Cursor) : Prop := c.iter.error = none

theorem next_quiet {it : Iter} (h : it.error = none) : ∃ c, it.next = .ok c ∧ Quiet c := by
  obtain ⟨items, error⟩ := it
  obtain rfl : error = none := h
  rcases items with - | ⟨m, ms⟩
  · exact ⟨_, rfl, rfl⟩
  · exact ⟨_, rfl, rfl⟩

/-- A round over quiet listings stays quiet. -/
theorem round_quiet (p : ProducerThread) {src tgt : Cursor} (st : ProducerState)
    (hs : Quiet src) (ht : Quiet tgt) :
    ∃ st' src' tgt', p.round src tgt st = (st', .ok (src', tgt')) ∧ Quiet src' ∧ Quiet tgt' := by
  obtain ⟨src', hsn, hsq⟩ := next_quiet hs
  obtain ⟨tgt', htn, htq⟩ := next_quiet ht
  -- the three ways a round can advance its cursors
  have hsrc : ∀ st' : ProducerState, ∃ st'' s' t',
      (st', (·, tgt) <$> src.iter.next) = (st'', .ok (s', t')) ∧ Quiet s' ∧ Quiet t' :=
    fun st' => ⟨st', src', tgt, by rw [hsn]; rfl, hsq, ht⟩
  have htgt : ∀ st' : ProducerState, ∃ st'' s' t',
      (st', (src, ·) <$> tgt.iter.next) = (st'', .ok (s', t')) ∧ Quiet s' ∧ Quiet t' :=
    fun st' => ⟨st', src, tgt', by rw [htn]; rfl, hs, htq⟩
  unfold round
  split
  · dsimp only
    split
    · exact hsrc _
    split
    · exact htgt _
    split
    · exact hsrc _
    split
    · exact htgt _
    · rw [hsn, htn]
      exact ⟨_, src', tgt', rfl, hsq, htq⟩
  · dsimp only
    split <;> exact hsrc _
  · dsimp only
    split <;> exact htgt _
  · exact ⟨st, src, tgt, rfl, hs, ht⟩

/-- Over quiet listings the loop finishes. -/
theorem loop_finishes (p : ProducerThread) {shutdown : ℕ → Bool}
    (hshut : ∀ n, shutdown n = false) (n : ℕ) {src tgt : Cursor} (st : ProducerState)
    (hs : Quiet src) (ht : Quiet tgt) : (p.loop shutdown n src tgt st).2 = .finished := by
  induction n, src, tgt, st using loop.induct p shutdown with
  | case1 n src tgt st hend => rw [loop, dif_pos hend]
  | case2 n src tgt st hend hset => simp [hshut] at hset
  | case3 n src tgt st hend hset st' e hr =>
      obtain ⟨_, _, _, hr', -, -⟩ := round_quiet p st hs ht
      rw [hr'] at hr
      simp at hr
  | case4 n src tgt st hend hset st' src' tgt' hr ih =>
      obtain ⟨_, _, _, hr', hs', ht'⟩ := round_quiet p st hs ht
      obtain ⟨rfl, rfl, rfl⟩ : _ = st' ∧ _ = src' ∧ _ = tgt' := by
        simpa using hr'.symm.trans hr
      rw [loop, dif_neg hend, if_neg hset]
      split
      · rename_i hr₁
        simp [hr] at hr₁
      · rename_i hr₁
        obtain ⟨rfl, rfl, rfl⟩ := by simpa [hr] using hr₁
        exact ih hs' ht'

/-- A run whose listings do not raise and that is never told to shut down
is complete. -/
theorem run_finishes (p : ProducerThread) (hs : p.createSourceIterator.error = none)
    (ht : p.createTargetIterator.error = none) :
    (p.run fun _ => false).outcome = .finished := by
  obtain ⟨src, hsn, hsq⟩ := next_quiet hs
  obtain ⟨tgt, htn, htq⟩ := next_quiet ht
  simp only [run, runLoop, hsn, htn]
  exact p.loop_finishes (fun _ => rfl) 0 {} hsq htq

/-! ### Destinations and deletions -/

/-- Some operation on the queue writes the object that another one deletes. -/
def WritesAndDeletes (p : ProducerThread) (ops : List (OperationType × Item)) : Prop :=
  ∃ w ∈ ops, ∃ d ∈ ops, (w.1 = .add ∨ w.1 = .symlink) ∧ d.1 = .delete ∧
    buildTargetFilePath p.sourcePath p.targetPath w.2.1.key = d.2.1.key

/-- The source path names a single file `s` that has to be written, and the
object under its base name in the target is listed, not hidden, and not
itself the counterpart of a source entry. -/
structure SingleFileClash (p : ProducerThread) (ss ts : List ObjectMetadata)
    (s t : ObjectMetadata) : Prop where
  source_mem : s ∈ ss
  single_file : p.sourceKey s = []
  included : p.included [] = true
  stale : ∀ t' ∈ ts, p.targetKey t' = [] → p.matchFileMetadata s t' = false
  target_mem : t ∈ ts
  target_key : t.key = join p.targetPath (basename s.key)
  target_visible : p.isHidden (p.targetKey t) = false
  unmatched : ∀ s' ∈ ss, p.sourceKey s' ≠ p.targetKey t

variable {p : ProducerThread} {ss ts : List ObjectMetadata} {s t : ObjectMetadata}

/-- An operation that writes has a source entry that needs writing. -/
theorem planned_write {op : OperationType} {tm : Option ObjectMetadata}
    (h : p.Planned ss ts (op, (s, tm))) (hop : op = .add ∨ op = .symlink) :
    s ∈ ss ∧ p.WriteNeeded ts s tm := by
  have hne : op ≠ .delete := by rcases hop with rfl | rfl <;> simp
  exact ((planned_write_iff hne).mp h).2

theorem isHidden_nil (p : ProducerThread) : p.isHidden [] = false := by
  have h : (([] : PyStr).splitOn '/').any (fun part => startswith part ['.']) = false := by
    decide
  rw [isHidden, h, Bool.and_false]

/-- A planned write and a planned delete of one object are a clash. -/
theorem clash_of_planned (hts : SortedByKey p.targetPath ts)
    {w d : OperationType × Item} (hw : p.Planned ss ts w)
    (hd : p.Planned ss ts d) (hwop : w.1 = .add ∨ w.1 = .symlink) (hdop : d.1 = .delete)
    (heq : buildTargetFilePath p.sourcePath p.targetPath w.2.1.key = d.2.1.key) :
    p.SingleFileClash ss ts w.2.1 d.2.1 := by
  obtain ⟨wop, s, wm⟩ := w
  obtain ⟨dop, t, dm⟩ := d
  obtain rfl : dop = .delete := hdop
  obtain ⟨hs, hvis, hinc, hneed⟩ := planned_write hw hwop
  obtain ⟨-, -, ht, htvis, hmiss⟩ := hd
  dsimp only at heq
  by_cases hkey : p.sourceKey s = []
  · -- `source_path` is the file: the worker takes its base name
    have hpath : buildTargetFilePath p.sourcePath p.targetPath s.key =
        join p.targetPath (basename s.key) := if_neg (not_not.mpr hkey)
    refine ⟨hs, hkey, hkey ▸ hinc, ?_, ht, heq.symm.trans hpath, htvis, hmiss⟩
    intro t' ht' hkey'
    cases wm with
    | none => exact absurd (hkey'.trans hkey.symm) (hneed t' ht')
    | some t₀ =>
        obtain ⟨ht₀, hkey₀, hnm⟩ := hneed
        obtain rfl : t' = t₀ := OuterJoin.eq_of_key_eq (hts.imp fun h => h.ne) ht' ht₀
          (hkey'.trans (hkey₀.trans hkey).symm)
        exact hnm
  · -- the destination has the relative key of `s`, so `t` is its counterpart
    have hpath : buildTargetFilePath p.sourcePath p.targetPath s.key =
        join p.targetPath (p.sourceKey s) := if_pos hkey
    have htk : p.targetKey t = p.sourceKey s := by
      rw [targetKey, ← heq, hpath]
      exact relKey_join p.targetPath (head?_relKey _ _)
    exact absurd htk.symm (hmiss s hs)

/-- In a clash both operations are planned. -/
theorem planned_of_clash (hdel : p.deleteUnmatchedFiles = true)
    (h : p.SingleFileClash ss ts s t) :
    ∃ tm, p.Planned ss ts ((classify .add s).1, (s, tm)) ∧
      p.Planned ss ts (.delete, (t, none)) := by
  have hvis : p.isHidden (p.sourceKey s) = false := by
    rw [h.single_file]; exact p.isHidden_nil
  have hinc : p.included (p.sourceKey s) = true := by
    rw [h.single_file]; exact h.included
  have hd : p.Planned ss ts (.delete, (t, none)) :=
    ⟨rfl, hdel, h.target_mem, h.target_visible, h.unmatched⟩
  by_cases hcp : ∃ t' ∈ ts, p.targetKey t' = []
  · obtain ⟨t', ht', hkey'⟩ := hcp
    refine ⟨some t', ?_, hd⟩
    rw [planned_write_iff (classify_add_ne_delete s)]
    exact ⟨rfl, h.source_mem, hvis, hinc, ht', hkey'.trans h.single_file.symm,
      h.stale t' ht' hkey'⟩
  · refine ⟨none, ?_, hd⟩
    rw [planned_write_iff (classify_add_ne_delete s)]
    refine ⟨rfl, h.source_mem, hvis, hinc, fun t' ht' hkey' => ?_⟩
    exact hcp ⟨t', ht', hkey'.trans h.single_file⟩

/-- **When a sync writes and deletes the same object.**  For sorted listings
that do not raise and a sync that deletes unmatched files, no run plans both
exactly when the source path is not a single file with a listed, visible,
otherwise unmatched counterpart in the target. -/
theorem run_never_writes_and_deletes_iff (p : ProducerThread)
    (hdel : p.deleteUnmatchedFiles = true)
    (hS : SortedByKey p.sourcePath p.sourceEntries)
    (hT : SortedByKey p.targetPath p.targetEntries)
    (hSe : p.createSourceIterator.error = none) (hTe : p.createTargetIterator.error = none) :
    (∀ shutdown, ¬ p.WritesAndDeletes (queueOps (p.run shutdown).fileQueue)) ↔
      ¬ ∃ s t, p.SingleFileClash p.sourceEntries p.targetEntries s t := by
  constructor
  · rintro hall ⟨s, t, hclash⟩
    obtain ⟨tm, hw, hd⟩ := planned_of_clash hdel hclash
    refine hall (fun _ => false) ?_
    rw [p.run_ops_eq_plan _ (p.run_finishes hSe hTe)]
    refine ⟨_, (mem_plan_sorted hS hT).mpr hw, _, (mem_plan_sorted hS hT).mpr hd, ?_, rfl, ?_⟩
    · unfold classify
      split <;> simp
    · have hpath : buildTargetFilePath p.sourcePath p.targetPath s.key =
          join p.targetPath (basename s.key) := if_neg (not_not.mpr hclash.single_file)
      exact hpath.trans hclash.target_key.symm
  · rintro hno shutdown ⟨w, hw, d, hd, hwop, hdop, heq⟩
    -- a run cut short has planned part of what a complete one plans
    have hsub := (p.run_ops_opens shutdown).subset
    have hw' := (mem_plan_sorted hS hT).mp (hsub hw)
    have hd' := (mem_plan_sorted hS hT).mp (hsub hd)
    exact hno ⟨_, _, clash_of_planned hT hw' hd' hwop hdop heq⟩

/-- The complete sync of `sampleSync` writes no object that it deletes. -/
theorem run_never_writes_and_deletes_sampleSync :
    ¬ sampleSync.WritesAndDeletes (queueOps (sampleSync.run fun _ => false).fileQueue) := by
  refine (run_never_writes_and_deletes_iff sampleSync rfl (by unfold SortedByKey; decide)
    (by unfold SortedByKey; decide) rfl rfl).mpr ?_ fun _ => false
  rintro ⟨s, t, hclash⟩
  have hkeys : ∀ m ∈ sampleSync.sourceEntries, sampleSync.sourceKey m ≠ [] := by decide
  exact hkeys s hclash.source_mem hclash.single_file

/-- Syncing the single file `data/f` to a directory that holds an older `f`. -/
def singleFileSync : ProducerThread where
  sourceClient := .ofListing [fileOf "data/f" 2 5]
  sourcePath := "data/f".toList
  targetClient := .ofListing [fileOf "backup/f" 1 1]
  targetPath := "backup".toList
  numWorkers := 1
  deleteUnmatchedFiles := true

/-- The complete run of that sync writes `backup/f` and deletes it. -/
theorem singleFileSync_writes_and_deletes :
    singleFileSync.sourceFiles = none ∧ singleFileSync.deleteUnmatchedFiles = true ∧
      SortedByKey singleFileSync.sourcePath singleFileSync.sourceEntries ∧
      SortedByKey singleFileSync.targetPath singleFileSync.targetEntries ∧
      (singleFileSync.run fun _ => false).outcome = .finished ∧
      singleFileSync.WritesAndDeletes
        (queueOps (singleFileSync.run fun _ => false).fileQueue) := by
  refine ⟨rfl, rfl, ?_, ?_, singleFileSync.run_finishes rfl rfl, ?_⟩
  · unfold SortedByKey; decide
  · unfold SortedByKey; decide
  · unfold WritesAndDeletes; decide +kernel

end ProducerThread

end MultiStorageClient
