/-
MultiStorageClient/SyncTermination.lean

Every sync ends (`SyncManager.sync_objects` of `sync/manager.py`), whatever the
providers answer and however the parties interleave.

Two numbers go down.  The producer and the workers use up the work: what is still to be
read, to be put on the file queue and to be taken from it.  The monitors and the
calling thread use up the messages and the steps that are left; the work is not theirs
(`step_decreases`).  So no run goes on for ever.

Where no step can be taken, the calling thread has returned or raised
(`sync_terminates`): a sentinel is never lost, so a worker does not wait on a queue that
stays empty (`Alive`), and each queue that is joined has its sentinel.
-/
import MultiStorageClient.SyncTotals

namespace MultiStorageClient

open ProducerThread

namespace SyncManager

variable {m : SyncManager} {s s' : SyncState}

/-! ### The work that is left -/

/-- What a batch on the file queue costs the worker that takes it. -/
def batchWork (b : OperationBatch) : ℕ :=
  if b.operation = .stop then 0 else 2 * b.items.length + 5

/-- What a worker has still to do before it is at `file_queue.get()` again, or has left. -/
def workerWork : WorkerPc → ℕ
  | .loop => 4
  | .get => 3
  | .stop b => batchWork b + 2
  | .delete b => b.items.length + 6
  | .deleteReport rs => rs.length + 5
  | .addCheck pending transferItems => 2 * pending.length + transferItems.length + 7
  | .transfer its => its.length + 6
  | .addReport its => its.length + 5
  | .symlink its => its.length + 5
  | .exited => 0
  | .died _ => 0

/-- The items of the current batch will be a batch. -/
def currentWork (its : List Item) : ℕ := if its = [] then 0 else 2 * its.length + 6

/-- The batches that the producer is about to put, and the one it collects. -/
def batcherWork (st : ProducerState) : ℕ :=
  (st.fileQueue.map fun b => batchWork b + 1).sum + currentWork st.currentBatch

/-- What the producer has still to read, and the sentinels it will put. -/
def readingWork (m : SyncManager) : ProducerPc → ℕ
  | .start => 9 * (m.producer.sourceEntries.length + m.producer.targetEntries.length) +
      m.numWorkerThreads + 2
  | .loop src tgt => 9 * (src.remaining + tgt.remaining) + m.numWorkerThreads + 1
  | .finished => 0

/-- The work that is left. -/
def work (m : SyncManager) (s : SyncState) : ℕ :=
  batcherWork s.producer + m.readingWork s.producerPc + (s.fileQueue.map batchWork).sum +
    (s.threads.map workerWork).sum

/-! ### The batcher -/

theorem currentWork_concat (its : List Item) (it : Item) :
    currentWork (its ++ [it]) ≤ currentWork its + 8 := by
  unfold currentWork
  rw [if_neg (by simp), List.length_append, List.length_singleton]
  split
  next hnil => rw [hnil, List.length_nil]
  next => omega

/-- Flushing the current batch makes no work. -/
theorem batcherWork_flushBatch (st : ProducerState) :
    batcherWork st.flushBatch ≤ batcherWork st := by
  unfold ProducerState.flushBatch
  split
  next => exact le_refl _
  next => exact le_refl _
  next it its op hbatch _ =>
    have hwork : batchWork ⟨op, it :: its⟩ + 1 ≤ currentWork (it :: its) := by
      unfold batchWork currentWork
      rw [if_neg (List.cons_ne_nil it its)]
      dsimp only
      split <;> omega
    show ((st.fileQueue ++ [_]).map fun b => batchWork b + 1).sum + currentWork [] ≤ _
    unfold batcherWork
    rw [hbatch, List.map_append, List.sum_append, List.map_singleton, List.sum_singleton]
    exact Nat.add_le_add_left hwork _

/-- An operation that is enqueued adds at most eight steps. -/
theorem batcherWork_enqueueOperation (p : ProducerThread) (st : ProducerState)
    (op : OperationType) (e : ObjectMetadata) (tm : Option ObjectMetadata) :
    batcherWork (p.enqueueOperation st op e tm) ≤ batcherWork st + 8 := by
  have happend : ∀ st : ProducerState,
      batcherWork { st with currentBatch := st.currentBatch ++ [(e, tm)] } ≤
        batcherWork st + 8 := fun st => by
    have hcurrent := currentWork_concat st.currentBatch (e, tm)
    unfold batcherWork
    dsimp only
    omega
  -- the batch that is open, or the new one
  have hopen : ∀ (st' : ProducerState), batcherWork st' ≤ batcherWork st →
      batcherWork (if p.batchSize ≤ (st'.currentBatch ++ [(e, tm)]).length then
        ({ st' with currentBatch := st'.currentBatch ++ [(e, tm)] } : ProducerState).flushBatch
        else { st' with currentBatch := st'.currentBatch ++ [(e, tm)] }) ≤ batcherWork st + 8 := by
    intro st' hle
    have hnew := happend st'
    split
    · exact (batcherWork_flushBatch _).trans (hnew.trans (Nat.add_le_add_right hle 8))
    · exact hnew.trans (Nat.add_le_add_right hle 8)
  unfold enqueueOperation
  dsimp only
  split
  · exact hopen _ (batcherWork_flushBatch st)
  · exact hopen st (le_refl _)

/-- A round enqueues one operation at most. -/
theorem batcherWork_round (p : ProducerThread) (src tgt : Cursor) (st : ProducerState) :
    batcherWork (p.round src tgt st).1 ≤ batcherWork st + 8 := by
  have henqueue := batcherWork_enqueueOperation p st
  have hsame : batcherWork st ≤ batcherWork st + 8 := Nat.le_add_right _ _
  unfold ProducerThread.round
  split
  · dsimp only
    split
    · exact hsame
    split
    · exact hsame
    split
    · split
      · exact henqueue ..
      · exact hsame
    split
    · split
      · exact henqueue ..
      · exact hsame
    · -- the keys are the same, and the work unit is counted when both sides have read on
      have hboth : ∀ e t, batcherWork (if p.matchFileMetadata e t = true then st
          else if p.included (p.sourceKey e) = true then p.enqueueOperation st .add e (some t)
          else st) ≤ batcherWork st + 8 := by
        intro e t
        split
        · exact hsame
        split
        · exact henqueue ..
        · exact hsame
      split
      · exact hboth _ _
      · exact hboth _ _
      · exact hboth _ _
  · dsimp only
    split
    · exact hsame
    · split
      · exact henqueue ..
      · exact hsame
  · dsimp only
    split
    · exact hsame
    · split
      · exact henqueue ..
      · exact hsame
  · exact hsame

/-! ### Each step uses something up -/

/-- A step in which the producer reads on. -/
theorem work_read {pc : ProducerPc} {st : ProducerState}
    (h : batcherWork st + m.readingWork pc <
      batcherWork s.producer + m.readingWork s.producerPc) :
    m.work { s with producerPc := pc, producer := st } < m.work s := by
  show batcherWork st + m.readingWork pc + (s.fileQueue.map batchWork).sum +
    (s.threads.map workerWork).sum < _
  unfold work
  omega

/-- The `finally` block of the producer makes no work but its sentinels. -/
theorem work_finishProducer {st : ProducerState} {error : Option PyStr}
    (h : batcherWork st + m.numWorkerThreads <
      batcherWork s.producer + m.readingWork s.producerPc) :
    m.work (m.finishProducer s st error) < m.work s := by
  have hflush := batcherWork_flushBatch st
  have hstops : ((List.replicate m.producer.numWorkers stopBatch).map
      fun b => batchWork b + 1).sum = m.numWorkerThreads := by
    simp [batchWork, stopBatch, numWorkerThreads]
  unfold work
  show batcherWork { st.flushBatch with
    fileQueue := st.flushBatch.fileQueue ++ List.replicate m.producer.numWorkers stopBatch } +
      0 + _ + _ < _
  have hbatcher : batcherWork { st.flushBatch with
      fileQueue := st.flushBatch.fileQueue ++ List.replicate m.producer.numWorkers stopBatch } =
      batcherWork st.flushBatch + m.numWorkerThreads := by
    unfold batcherWork
    rw [List.map_append, List.sum_append, hstops]
    dsimp only
    omega
  rw [hbatcher]
  show _ + 0 + (s.fileQueue.map batchWork).sum + (s.threads.map workerWork).sum < _
  omega

theorem remaining_pos {c : Cursor} {md : ObjectMetadata} (h : c.file = some md) :
    0 < c.remaining := by
  unfold Cursor.remaining
  rw [h, Option.toList_some, List.length_singleton]
  omega

/-- A round that ends in an exception has an entry before it. -/
theorem round_ne {p : ProducerThread} {src tgt : Cursor} {st : ProducerState} {e : PyStr}
    (h : (p.round src tgt st).2 = .error e) : 0 < src.remaining + tgt.remaining := by
  rcases hs : src.file with - | md
  · rcases ht : tgt.file with - | md
    · simp only [ProducerThread.round, hs, ht] at h
      cases h
    · have := remaining_pos ht
      omega
  · have := remaining_pos hs
    omega

/-- A step of the producer leaves less work. -/
theorem producerStep_work (h : m.producerStep s = some s') : m.work s' < m.work s := by
  rcases hq : s.producer.fileQueue with - | ⟨b, rest⟩
  · rcases hpc : s.producerPc with - | ⟨src, tgt⟩ | -
    · have hfinish : ∀ error, m.work (m.finishProducer s s.producer error) < m.work s := by
        intro error
        refine work_finishProducer ?_
        rw [hpc]
        show _ < _ + (_ + m.numWorkerThreads + 2)
        omega
      rcases hsrc : m.producer.createSourceIterator.next with e | src
      · simp only [producerStep, hq, hpc, hsrc, Option.some.injEq] at h
        exact h ▸ hfinish _
      rcases htgt : m.producer.createTargetIterator.next with e | tgt
      · simp only [producerStep, hq, hpc, hsrc, htgt, Option.some.injEq] at h
        exact h ▸ hfinish _
      · simp only [producerStep, hq, hpc, hsrc, htgt, Option.some.injEq] at h
        have hs : src.remaining = m.producer.sourceEntries.length := Iter.next_remaining hsrc
        have ht : tgt.remaining = m.producer.targetEntries.length := Iter.next_remaining htgt
        rw [← h]
        refine work_read ?_
        rw [hpc, readingWork, readingWork, hs, ht]
        omega
    · simp only [producerStep, hq, hpc] at h
      have hfinish : ∀ error, m.work (m.finishProducer s s.producer error) < m.work s := by
        intro error
        refine work_finishProducer ?_
        rw [hpc]
        show _ < _ + (_ + m.numWorkerThreads + 1)
        omega
      split at h
      · exact Option.some.inj h ▸ hfinish _
      rename_i hne
      split at h
      · exact Option.some.inj h ▸ hfinish _
      have hround := batcherWork_round m.producer src tgt s.producer
      split at h
      · -- the exception leaves at least one entry unread
        rename_i st e hr
        rw [hr] at hround
        have hpos := round_ne (congrArg Prod.snd hr)
        rw [← Option.some.inj h]
        refine work_finishProducer ?_
        rw [hpc, readingWork]
        dsimp only at hround
        omega
      · rename_i st src' tgt' hr
        rw [hr] at hround
        have hless := m.producer.round_remaining_lt hne hr
        rw [← Option.some.inj h]
        refine work_read ?_
        rw [hpc, readingWork, readingWork]
        dsimp only at hround
        omega
    · simp [producerStep, hq, hpc] at h
  · -- a batch that is put has one step less before it
    simp only [producerStep, hq, Option.some.injEq] at h
    subst h
    unfold work batcherWork
    rw [hq, List.map_cons, List.sum_cons]
    simp only [List.map_append, List.sum_append, List.map_cons, List.map_nil, List.sum_cons,
      List.sum_nil]
    omega

/-- A dispatched batch leaves less work than it was. -/
theorem workerWork_dispatch (b : OperationBatch) :
    workerWork (m.dispatch b) < 3 + batchWork b := by
  obtain ⟨op, items⟩ := b
  cases op with
  | stop => exact Nat.lt_succ_self 2
  | delete =>
      show items.length + 6 < 3 + (2 * items.length + 5)
      omega
  | symlink =>
      show items.length + 5 < 3 + (2 * items.length + 5)
      omega
  | add =>
      show workerWork (if m.hasMetadataProvider then .addCheck items [] else .transfer items) <
        3 + (2 * items.length + 5)
      split
      · show 2 * items.length + 0 + 7 < _
        omega
      · show items.length + 6 < _
        omega

/-- A step of a worker uses up work of its own or of the batch that it takes. -/
theorem workerStep_work {id : ℕ} {shutdown : Bool} {q : List OperationBatch} {ans : Answer}
    {pc : WorkerPc} {eff : Effect} (h : m.workerStep id shutdown q ans pc = some eff) :
    workerWork eff.pc + (eff.fileQueue.map batchWork).sum <
      workerWork pc + (q.map batchWork).sum := by
  -- but for `get` and `stop`, the queue is left alone
  have hlocal : ∀ {eff : Effect}, eff.fileQueue = q → workerWork eff.pc < workerWork pc →
      workerWork eff.pc + (eff.fileQueue.map batchWork).sum <
        workerWork pc + (q.map batchWork).sum := by
    intro eff hq hlt
    rw [hq]
    omega
  cases pc with
  | loop =>
      obtain rfl : _ = eff := by simpa [workerStep] using h
      refine hlocal rfl ?_
      cases shutdown
      · exact Nat.lt_succ_self 3
      · exact Nat.succ_pos 3
  | get =>
      rcases q with - | ⟨b, q⟩
      · cases h
      · obtain rfl : _ = eff := Option.some.inj h
        have hdispatch := workerWork_dispatch (m := m) b
        show workerWork (m.dispatch b) + (q.map batchWork).sum <
          3 + ((b :: q).map batchWork).sum
        rw [List.map_cons, List.sum_cons]
        omega
  | stop b =>
      obtain rfl : _ = eff := Option.some.inj h
      show 0 + ((q ++ [b]).map batchWork).sum < batchWork b + 2 + (q.map batchWork).sum
      rw [List.map_append, List.sum_append, List.map_singleton, List.sum_singleton]
      omega
  | delete b =>
      rcases hr : ans.raises with - | e
      · obtain rfl : _ = eff := by simpa [workerStep, hr] using h
        refine hlocal rfl ?_
        show (m.handler.deleteResults b).length + 5 < b.items.length + 6
        rw [BatchSyncHandler.deleteResults, List.length_map]
        omega
      · obtain rfl : _ = eff := by simpa [workerStep, hr] using h
        exact hlocal rfl (Nat.succ_pos _)
  | deleteReport rs =>
      rcases rs with - | ⟨r, rs⟩ <;>
      · obtain rfl : _ = eff := Option.some.inj h
        exact hlocal rfl (Nat.lt_succ_self _)
  | addCheck ps ts =>
      rcases ps with - | ⟨it₀, its⟩
      · obtain rfl : _ = eff := Option.some.inj h
        refine hlocal rfl ?_
        show ts.length + 6 < 2 * 0 + ts.length + 7
        omega
      · rcases hit : (it₀ :: its)[ans.item]? with - | it
        · simp [workerStep, hit] at h
        have hless : ((it₀ :: its).eraseIdx ans.item).length + 1 = (it₀ :: its).length := by
          obtain ⟨hi, -⟩ := List.getElem?_eq_some_iff.mp hit
          rw [List.length_eraseIdx_of_lt hi]
          simp
        rcases hr : ans.raises with - | e
        · rcases hskip : ans.skip with - | -
          · obtain rfl : _ = eff := by simpa [workerStep, hit, hr, hskip] using h
            refine hlocal rfl ?_
            show 2 * _ + (ts ++ [it]).length + 7 < 2 * (it₀ :: its).length + ts.length + 7
            rw [List.length_append, List.length_singleton]
            omega
          · obtain rfl : _ = eff := by simpa [workerStep, hit, hr, hskip] using h
            refine hlocal rfl ?_
            show 2 * _ + ts.length + 7 < 2 * (it₀ :: its).length + ts.length + 7
            omega
        · obtain rfl : _ = eff := by simpa [workerStep, hit, hr] using h
          refine hlocal rfl ?_
          show 2 * _ + ts.length + 7 < 2 * (it₀ :: its).length + ts.length + 7
          omega
  | transfer ts =>
      rcases ts with - | ⟨it, its⟩
      · obtain rfl : _ = eff := Option.some.inj h
        exact hlocal rfl (Nat.lt_of_lt_of_le (Nat.lt_succ_self 4) (Nat.le_add_left _ _))
      · rcases hr : ans.raises with - | e
        · obtain rfl : _ = eff := by simpa [workerStep, hr] using h
          exact hlocal rfl (Nat.lt_succ_self _)
        · obtain rfl : _ = eff := by simpa [workerStep, hr] using h
          refine hlocal rfl ?_
          show 4 < (it :: its).length + 6
          omega
  | addReport ts =>
      rcases ts with - | ⟨it, its⟩ <;>
      · obtain rfl : _ = eff := Option.some.inj h
        exact hlocal rfl (Nat.lt_succ_self _)
  | symlink its =>
      rcases its with - | ⟨it, its⟩
      · obtain rfl : _ = eff := Option.some.inj h
        exact hlocal rfl (Nat.lt_of_lt_of_le (Nat.lt_succ_self 4) (Nat.le_add_left _ _))
      · rcases hr : symlinkError it ans with - | e <;>
        · obtain rfl : _ = eff := by simpa [workerStep, hr] using h
          exact hlocal rfl (Nat.lt_succ_self _)
  | exited => cases h
  | died e => cases h

/-- The steps that the calling thread has before it. -/
def mainLeft : MainPc → ℕ
  | .raised => 0
  | pc => 8 - MainPc.rank pc

/-- The messages and steps that are left for the monitors and the calling thread, which puts
at most one message on each queue in a step. -/
def chores (s : SyncState) : ℕ :=
  s.resultQueue.length + s.errorQueue.length + 3 * mainLeft s.main

/-- Work is left before chores are. -/
def Decreases (m : SyncManager) (s' s : SyncState) : Prop :=
  m.work s' < m.work s ∨ m.work s' = m.work s ∧ chores s' < chores s

/-- A step of the main thread leaves fewer chores. -/
theorem mainStep_chores {raises : Option PyStr} (h : m.mainStep s raises = some s') :
    chores s' < chores s := by
  unfold chores
  rcases hm : s.main with - | - | - | - | - | - | - | - | - | - <;>
    simp only [mainStep, hm] at h
  -- each state of the main thread has a rank, and it goes down
  · split at h
    · split at h <;>
      · rw [← Option.some.inj h]
        simp [mainLeft, MainPc.rank]
    · cases h
  · split at h
    · rw [← Option.some.inj h]
      simp [mainLeft, MainPc.rank]
    · cases h
  · rw [← Option.some.inj h]
    simp [mainLeft, MainPc.rank]
    omega
  · split at h
    · rw [← Option.some.inj h]
      simp [mainLeft, MainPc.rank]
    · cases h
  · rw [← Option.some.inj h]
    simp [mainLeft, MainPc.rank]
    omega
  · split at h
    · rw [← Option.some.inj h]
      simp [mainLeft, MainPc.rank]
    · cases h
  · split at h <;>
    · rw [← Option.some.inj h]
      simp [mainLeft, MainPc.rank]
  · rw [← Option.some.inj h]
    split <;> simp [mainLeft, MainPc.rank]
  · cases h
  · cases h

/-- The result monitor reads one message, and stops on the sentinel. -/
theorem resultStep_reads {raises : Option PyStr} (h : m.resultStep s raises = some s') :
    s.resultStopped = false ∧ ∃ msg q st stopped, s.resultQueue = msg :: q ∧
      (msg = .stop → stopped = true) ∧
      s' = { s with resultQueue := q, resultMonitor := st, resultStopped := stopped } := by
  unfold resultStep at h
  split at h
  · cases h
  rename_i hrun
  refine ⟨by simpa using hrun, ?_⟩
  dsimp only at h
  split at h
  · cases h
  · rename_i q hq
    exact ⟨_, q, _, _, hq, fun _ => rfl, (Option.some.inj h).symm⟩
  · rename_i path md q hq
    exact ⟨_, q, _, _, hq, (fun hstop => by cases hstop), (Option.some.inj h).symm⟩
  · rename_i path md q hq
    exact ⟨_, q, _, _, hq, (fun hstop => by cases hstop), (Option.some.inj h).symm⟩

/-- **Every step uses up work, or a chore and no work.** -/
theorem step_decreases {a : Action} (h : m.step s a = some s') : m.Decreases s' s := by
  cases a with
  | producer => exact Or.inl (producerStep_work h)
  | worker i ans =>
      simp only [step] at h
      split at h
      · cases h
      · rename_i pc hpc
        obtain ⟨eff, heff, rfl⟩ := Option.map_eq_some_iff.mp h
        have hstep := workerStep_work heff
        obtain ⟨l₁, l₂, hl, hset⟩ := Run.set_eq_append hpc
        refine Or.inl ?_
        show batcherWork s.producer + m.readingWork s.producerPc +
          (eff.fileQueue.map batchWork).sum + ((s.threads.set i eff.pc).map workerWork).sum < _
        unfold work
        rw [hset, hl]
        simp only [List.map_append, List.map_cons, List.sum_append, List.sum_cons]
        omega
  | resultMonitor raises =>
      obtain ⟨-, msg, q, st, stopped, hq, -, rfl⟩ := resultStep_reads h
      -- one message fewer on the result queue
      have hless : s.resultQueue.length = q.length + 1 := by rw [hq, List.length_cons]
      refine Or.inr ⟨rfl, ?_⟩
      show q.length + s.errorQueue.length + 3 * mainLeft s.main < _
      unfold chores
      omega
  | errorMonitor raises =>
      obtain ⟨-, info, q, hq, hcases⟩ := errorStep_cases h
      -- one message fewer on the error queue
      have hless : s.errorQueue.length = q.length + 1 := by rw [hq, List.length_cons]
      rcases hcases with ⟨e, rfl⟩ | ⟨-, rfl⟩ | ⟨err, -, rfl⟩
      all_goals
        refine Or.inr ⟨rfl, ?_⟩
        show s.resultQueue.length + q.length + 3 * mainLeft s.main < _
        unfold chores
        omega
  | main raises =>
      obtain ⟨pc, rq, eq, rfl, -⟩ := mainStep_frame h
      exact Or.inr ⟨rfl, mainStep_chores h⟩

/-! ### Nobody waits for ever -/

/-- Somebody has, or has in view, what each party waits for. -/
structure Alive (s : SyncState) : Prop where
  /-- once the producer has finished, a sentinel is on a queue or about to be put back -/
  sentinel : s.producerPc = .finished →
    (∃ b ∈ pending s, b.operation = .stop) ∨ ∃ b, .stop b ∈ s.threads ∧ b.operation = .stop
  results : s.main = .joinResults → s.resultStopped = true ∨ .stop ∈ s.resultQueue
  errors : s.main = .joinErrors → s.errorMonitor.stopped = true ∨ none ∈ s.errorQueue

theorem alive_init (m : SyncManager) : Alive m.init where
  sentinel := fun hpc => by cases hpc
  results := fun hmain => by cases hmain
  errors := fun hmain => by cases hmain

/-- A sentinel is put for each worker, and there is one. -/
theorem sentinel_finishProducer (hworkers : 0 < m.numWorkerThreads) (st : ProducerState)
    (error : Option PyStr) :
    ∃ b ∈ pending (m.finishProducer s st error), b.operation = .stop := by
  refine ⟨stopBatch, ?_, rfl⟩
  show stopBatch ∈ s.fileQueue ++ (st.flushBatch.fileQueue ++
    List.replicate m.producer.numWorkers stopBatch)
  refine List.mem_append_right _ (List.mem_append_right _ ?_)
  exact List.mem_replicate.mpr ⟨hworkers.ne', rfl⟩

/-- The producer keeps the sentinels. -/
theorem producerStep_alive (hworkers : 0 < m.numWorkerThreads) (h : Alive s)
    (hs : m.producerStep s = some s') : Alive s' := by
  rcases producerStep_cases hs with ⟨b, rest, hq, rfl⟩ | ⟨src, tgt, hpc, hsrc, htgt, rfl⟩ |
    ⟨e, hpc, rfl⟩ | ⟨src, tgt, hpc, hend, rfl⟩ | ⟨src, tgt, st, e, hpc, hr, rfl⟩ |
    ⟨src, tgt, st, src', tgt', hpc, hq, hr, rfl⟩
  · -- the batch that is put stays in view
    refine ⟨fun hpc => ?_, h.results, h.errors⟩
    have hpending : pending { s with
        producer := { s.producer with fileQueue := rest }
        fileQueue := s.fileQueue ++ [b]
        enqueued := s.enqueued ++ b.ops } = pending s := by
      simp [pending, hq]
    rw [hpending]
    exact h.sentinel hpc
  · exact ⟨(fun hno => by cases hno), h.results, h.errors⟩
  · exact ⟨fun _ => Or.inl (sentinel_finishProducer hworkers _ _), h.results, h.errors⟩
  · exact ⟨fun _ => Or.inl (sentinel_finishProducer hworkers _ _), h.results, h.errors⟩
  · exact ⟨fun _ => Or.inl (sentinel_finishProducer hworkers _ _), h.results, h.errors⟩
  · exact ⟨(fun hno => by cases hno), h.results, h.errors⟩

/-- Only `get` and the return of a sentinel touch the file queue. -/
theorem workerStep_fileQueue {id : ℕ} {shutdown : Bool} {q : List OperationBatch} {ans : Answer}
    {pc : WorkerPc} {eff : Effect} (h : m.workerStep id shutdown q ans pc = some eff)
    (hget : pc ≠ .get) (hstop : ∀ b, pc ≠ .stop b) : eff.fileQueue = q := by
  unfold workerStep at h
  repeat' split at h
  all_goals first
    | exact absurd rfl hget
    | exact absurd rfl (hstop _)
    | cases h <;> rfl

/-- A worker that takes a sentinel has it until it puts it back. -/
theorem workerStep_sentinel {id : ℕ} {shutdown : Bool} {q : List OperationBatch} {ans : Answer}
    {pc : WorkerPc} {eff : Effect} (h : m.workerStep id shutdown q ans pc = some eff)
    {b : OperationBatch} (hstop : b.operation = .stop) (hb : b ∈ q ∨ pc = .stop b) :
    b ∈ eff.fileQueue ∨ eff.pc = .stop b := by
  by_cases hget : pc = .get
  · subst hget
    have hb : b ∈ q := hb.resolve_right (by simp)
    rcases q with - | ⟨b₀, q⟩
    · cases h
    · obtain rfl : _ = eff := Option.some.inj h
      rcases List.mem_cons.mp hb with rfl | hb
      · right
        show m.dispatch b = .stop b
        unfold dispatch
        rw [hstop]
      · exact Or.inl hb
  by_cases hput : ∃ b, pc = .stop b
  · obtain ⟨b₀, rfl⟩ := hput
    obtain rfl : _ = eff := Option.some.inj h
    left
    rcases hb with hb | hb
    · exact List.mem_append_left _ hb
    · rw [(WorkerPc.stop.inj hb)]
      exact List.mem_append_right _ (List.mem_singleton_self b)
  · rw [not_exists] at hput
    rw [workerStep_fileQueue h hget hput]
    exact Or.inl (hb.resolve_right (hput b))

/-- A worker keeps the sentinels. -/
theorem workerStep_alive (h : Alive s) {i id : ℕ} {pc : WorkerPc} {ans : Answer} {eff : Effect}
    (hpc : s.threads[i]? = some pc)
    (heff : m.workerStep id s.shutdown s.fileQueue ans pc = some eff) :
    Alive (applyEffect s i eff) := by
  have hi : i < s.threads.length := (List.getElem?_eq_some_iff.mp hpc).1
  -- a sentinel on the file queue or with this worker is there afterwards
  have hkeep : ∀ b : OperationBatch, b.operation = .stop → b ∈ s.fileQueue ∨ pc = .stop b →
      (∃ b ∈ pending (applyEffect s i eff), b.operation = .stop) ∨
        ∃ b, .stop b ∈ (applyEffect s i eff).threads ∧ b.operation = .stop := by
    intro b hstop hb
    rcases workerStep_sentinel heff hstop hb with hb | hb
    · exact Or.inl ⟨b, List.mem_append_left _ hb, hstop⟩
    · refine Or.inr ⟨b, List.mem_iff_getElem?.mpr ⟨i, ?_⟩, hstop⟩
      show (s.threads.set i eff.pc)[i]? = _
      rw [List.getElem?_set_self hi, hb]
  refine ⟨fun hfin => ?_, fun hmain => ?_, fun hmain => ?_⟩
  · rcases h.sentinel hfin with ⟨b, hb, hstop⟩ | ⟨b, hb, hstop⟩
    · rcases List.mem_append.mp hb with hb | hb
      · exact hkeep b hstop (Or.inl hb)
      · exact Or.inl ⟨b, List.mem_append_right _ hb, hstop⟩
    · obtain ⟨j, hj⟩ := List.mem_iff_getElem?.mp hb
      by_cases hij : i = j
      · subst hij
        exact hkeep b hstop (Or.inr (Option.some.inj (hpc.symm.trans hj)))
      · refine Or.inr ⟨b, List.mem_iff_getElem?.mpr ⟨j, ?_⟩, hstop⟩
        show (s.threads.set i eff.pc)[j]? = _
        rw [List.getElem?_set_ne hij, hj]
  · exact (h.results hmain).imp_right fun hstop => List.mem_append_left _ hstop
  · exact (h.errors hmain).imp_right fun hstop => List.mem_append_left _ hstop

theorem resultStep_alive (h : Alive s) {raises : Option PyStr}
    (hs : m.resultStep s raises = some s') : Alive s' := by
  obtain ⟨hrun, msg, q, st, stopped, hq, hstop, rfl⟩ := resultStep_reads hs
  refine ⟨h.sentinel, fun hmain => ?_, h.errors⟩
  have hmem := (h.results hmain).resolve_left (by rw [hrun]; exact Bool.false_ne_true)
  rw [hq] at hmem
  rcases List.mem_cons.mp hmem with rfl | hmem
  · exact Or.inl (hstop rfl)
  · exact Or.inr hmem

/-- The error thread keeps the sentinels. -/
theorem errorStep_alive (h : Alive s) {raises : Option PyStr}
    (hs : errorStep s raises = some s') : Alive s' := by
  obtain ⟨hrun, info, q, hq, hcases⟩ := errorStep_cases hs
  have hmem : s.main = .joinErrors → none = info ∨ none ∈ q := fun hmain => by
    have hmem := (h.errors hmain).resolve_left (by rw [hrun]; exact Bool.false_ne_true)
    rw [hq] at hmem
    exact List.mem_cons.mp hmem
  rcases hcases with ⟨e, rfl⟩ | ⟨-, rfl⟩ | ⟨err, rfl, rfl⟩
  · exact ⟨h.sentinel, h.results, fun _ => Or.inl rfl⟩
  · exact ⟨h.sentinel, h.results, fun _ => Or.inl rfl⟩
  · exact ⟨h.sentinel, h.results, fun hmain => Or.inr ((hmem hmain).resolve_left (by simp))⟩

/-- The main thread keeps the sentinels. -/
theorem mainStep_alive (h : Alive s) {raises : Option PyStr}
    (hs : m.mainStep s raises = some s') : Alive s' := by
  obtain ⟨hne, rfl | ⟨pc, hrank, rfl⟩⟩ := mainStep_cases hs
  · exact ⟨h.sentinel, (fun hmain => by cases hmain), (fun hmain => by cases hmain)⟩
  refine ⟨h.sentinel, fun hmain => Or.inr ?_, fun hmain => Or.inr ?_⟩
  · -- before this there is the place where the sentinel is put
    have hmain : pc = .joinResults := hmain
    have hstop : s.main = .stopResults :=
      MainPc.rank_inj hne (by simp) (by rw [hmain] at hrank; exact (Nat.succ.inj hrank).symm)
    rw [if_pos hstop]
    exact List.mem_append_right _ (List.mem_singleton_self _)
  · have hmain : pc = .joinErrors := hmain
    have hstop : s.main = .stopErrors :=
      MainPc.rank_inj hne (by simp) (by rw [hmain] at hrank; exact (Nat.succ.inj hrank).symm)
    rw [if_pos hstop]
    exact List.mem_append_right _ (List.mem_singleton_self _)

/-- Every step keeps the sentinels. -/
theorem step_alive (hworkers : 0 < m.numWorkerThreads) {a : Action} (h : Alive s)
    (hs : m.step s a = some s') : Alive s' := by
  cases a with
  | producer => exact producerStep_alive hworkers h hs
  | worker i ans =>
      simp only [step] at hs
      split at hs
      · cases hs
      · rename_i pc hpc
        obtain ⟨eff, heff, rfl⟩ := Option.map_eq_some_iff.mp hs
        exact workerStep_alive h hpc heff
  | resultMonitor raises => exact resultStep_alive h hs
  | errorMonitor raises => exact errorStep_alive h hs
  | main raises => exact mainStep_alive h hs

/-! ### Where no step can be taken -/

/-- A producer without a step has put everything. -/
theorem producerStep_none (h : m.producerStep s = none) :
    s.producerPc = .finished ∧ s.producer.fileQueue = [] := by
  unfold producerStep at h
  split at h
  · cases h
  rename_i hq
  split at h
  · split at h <;> cases h
  · split at h
    · cases h
    split at h
    · cases h
    · split at h <;> cases h
  · rename_i hpc
    exact ⟨hpc, hq⟩

/-- A worker without a step has left, or waits on an empty queue. -/
theorem workerStep_none {id : ℕ} {shutdown : Bool} {q : List OperationBatch} {pc : WorkerPc}
    (h : ∀ ans, m.workerStep id shutdown q ans pc = none) :
    pc.ended = true ∨ pc = .get ∧ q = [] := by
  have hnone := h {}
  cases pc with
  | get =>
      rcases q with - | ⟨b, q⟩
      · exact Or.inr ⟨rfl, rfl⟩
      · cases hnone
  | exited => exact Or.inl rfl
  | died e => exact Or.inl rfl
  | loop => cases hnone
  | stop b => cases hnone
  | delete b => cases hnone
  | deleteReport rs => rcases rs with - | ⟨r, rs⟩ <;> cases hnone
  | addCheck ps ts => rcases ps with - | ⟨it, its⟩ <;> cases hnone
  | transfer ts => rcases ts with - | ⟨it, its⟩ <;> cases hnone
  | addReport ts => rcases ts with - | ⟨it, its⟩ <;> cases hnone
  | symlink its =>
      rcases its with - | ⟨it, its⟩
      · cases hnone
      · simp only [workerStep] at hnone
        split at hnone <;> cases hnone

/-- The calling thread waits for nobody once the others have done what they can. -/
theorem mainStep_isSome (hended : ∀ pc ∈ s.threads, pc.ended = true)
    (hproducer : s.producerPc = .finished ∧ s.producer.fileQueue = [])
    (hresults : s.main = .joinResults → s.resultStopped = true)
    (herrors : s.main = .joinErrors → s.errorMonitor.stopped = true)
    (hne : s.main ≠ .returned) (hne' : s.main ≠ .raised) : (m.mainStep s none).isSome = true := by
  unfold mainStep
  split
  next =>
    rw [if_pos (List.all_eq_true.mpr hended)]
    split <;> rfl
  next =>
    rw [hproducer.1, hproducer.2]
    rfl
  next => rfl
  next hmain =>
    rw [if_pos (hresults hmain)]
    rfl
  next => rfl
  next hmain =>
    rw [if_pos (herrors hmain)]
    rfl
  next => split <;> rfl
  next => rfl
  next hmain => exact absurd hmain hne
  next hmain => exact absurd hmain hne'

/-- A monitor that has not stopped can read what is on its queue. -/
theorem resultStep_isSome (hrun : s.resultStopped = false) {msg : ResultMsg}
    (hmem : msg ∈ s.resultQueue) : (m.resultStep s none).isSome = true := by
  unfold resultStep
  rw [if_neg (by rw [hrun]; exact Bool.false_ne_true)]
  dsimp only
  split
  next hq =>
    rw [hq] at hmem
    cases hmem
  next => rfl
  next => rfl
  next => rfl

theorem errorStep_isSome (hrun : s.errorMonitor.stopped = false) {info : Option ErrorInfo}
    (hmem : info ∈ s.errorQueue) : (errorStep s none).isSome = true := by
  unfold errorStep
  rw [if_neg (by rw [hrun]; exact Bool.false_ne_true)]
  split
  next hq =>
    rw [hq] at hmem
    cases hmem
  next info q hq => cases info <;> rfl

/-- Where no step can be taken, the sync has ended. -/
theorem Alive.ended (h : Alive s) (hstuck : ∀ a, m.step s a = none) :
    s.main = .returned ∨ s.main = .raised := by
  obtain ⟨hpc, hq⟩ := producerStep_none (hstuck .producer)
  have hworker : ∀ (i : ℕ) (pc : WorkerPc), s.threads[i]? = some pc →
      pc.ended = true ∨ pc = .get ∧ s.fileQueue = [] := by
    intro i pc hi
    have hall : ∀ ans, m.workerStep i s.shutdown s.fileQueue ans pc = none := by
      intro ans
      have hnone := hstuck (.worker i ans)
      simp only [step, hi] at hnone
      exact Option.map_eq_none_iff.mp hnone
    exact workerStep_none hall
  -- who waits at an empty queue waits for the sentinel that somebody can put back
  have hended : ∀ pc ∈ s.threads, pc.ended = true := by
    intro pc hmem
    obtain ⟨i, hi⟩ := List.mem_iff_getElem?.mp hmem
    refine (hworker i pc hi).resolve_right fun hwait => ?_
    have hempty := hwait.2
    rcases h.sentinel hpc with ⟨b, hb, -⟩ | ⟨b, hb, -⟩
    · rw [pending, hempty, hq] at hb
      cases hb
    · obtain ⟨j, hj⟩ := List.mem_iff_getElem?.mp hb
      rcases hworker j _ hj with hno | ⟨hno, -⟩ <;> cases hno
  have hresults : s.main = .joinResults → s.resultStopped = true := by
    intro hmain
    by_contra hrun
    rw [Bool.not_eq_true] at hrun
    have hmem := (h.results hmain).resolve_left (by rw [hrun]; exact Bool.false_ne_true)
    have hsome : (m.step s (.resultMonitor none)).isSome = true := resultStep_isSome hrun hmem
    rw [hstuck] at hsome
    cases hsome
  have herrors : s.main = .joinErrors → s.errorMonitor.stopped = true := by
    intro hmain
    by_contra hrun
    rw [Bool.not_eq_true] at hrun
    have hmem := (h.errors hmain).resolve_left (by rw [hrun]; exact Bool.false_ne_true)
    have hsome : (m.step s (.errorMonitor none)).isSome = true := errorStep_isSome hrun hmem
    rw [hstuck] at hsome
    cases hsome
  by_contra hno
  rw [not_or] at hno
  have hsome : (m.step s (.main none)).isSome = true :=
    mainStep_isSome hended ⟨hpc, hq⟩ hresults herrors hno.1 hno.2
  rw [hstuck] at hsome
  cases hsome

/-- Work and chores do not decrease for ever. -/
theorem decreases_wellFounded (m : SyncManager) : WellFounded m.Decreases := by
  have hlex : WellFounded (Prod.Lex (· < · : ℕ → ℕ → Prop) (· < · : ℕ → ℕ → Prop)) :=
    wellFounded_lt.prod_lex wellFounded_lt
  refine (InvImage.wf (fun s => (m.work s, chores s)) hlex).mono fun s' s h => ?_
  rcases h with hwork | ⟨hwork, hchores⟩
  · exact Prod.Lex.left _ _ hwork
  · show Prod.Lex _ _ (m.work s', chores s') (m.work s, chores s)
    rw [hwork]
    exact Prod.Lex.right _ hchores

/-- **Every sync ends.**  Whatever the providers answer and however the parties interleave,
no run goes on for ever, and where no party can take a step, the calling thread has
returned or raised. -/
theorem sync_terminates (m : SyncManager) (hworkers : 0 < m.numWorkerThreads) :
    WellFounded (fun s' s => ∃ a, m.step s a = some s') ∧
      ∀ (as : List Action) (s : SyncState), Run.exec m.step m.init as = some s →
        (∀ a, m.step s a = none) → s.main = .returned ∨ s.main = .raised := by
  constructor
  · refine m.decreases_wellFounded.mono fun s' s hstep => ?_
    obtain ⟨a, h⟩ := hstep
    exact step_decreases h
  · intro as s hrun hstuck
    have hok : Run.Always m.step (fun _ _ => True) m.init as :=
      Run.Always.of_mem (fun _ _ _ => trivial) _
    have halive : Alive s := Run.exec_invariant
      (fun _ _ _ h _ hs => step_alive hworkers h hs) hok hrun (alive_init m)
    exact halive.ended hstuck

/-- The sync whose `delete_many` raises ends as well. -/
theorem sync_terminates_deletingSync :
    (∃ s, Run.exec deletingSync.step deletingSync.init lostDeleteRun = some s ∧
      s.main = .returned) ∧
      WellFounded (fun s' s => ∃ a, deletingSync.step s a = some s') :=
  ⟨Run.exec_exists (by decide +kernel), (sync_terminates deletingSync (by decide)).1⟩

end SyncManager

end MultiStorageClient
