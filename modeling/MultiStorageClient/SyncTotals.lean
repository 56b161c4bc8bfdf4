/-
MultiStorageClient/SyncTotals.lean

The totals of a sync (`SyncManager.sync_objects` of `sync/manager.py`), and the dry
run that predicts them (`_sync_objects_dryrun`), for a target client without a
metadata provider.

A worker reports each operation that it has carried out, and the result monitor adds
the reports up.  What it has added up, what is on the result queue and what the
workers have still to report are together the operations carried out (`Counted`), so
a sync that returns has counted each of them once (`Counted.returned`).

The dry run is the producer with one reader, which takes the batches off the queue
until the sentinel.  It names exactly the entries that a sync which returns writes and
deletes, with the same totals but for the bytes of symlinks: a sync counts none for
them, and the dry run counts what the listing says (`dryrun_predicts`).
-/
import MultiStorageClient.SyncMirror

namespace MultiStorageClient

open ProducerThread

/-- Files and bytes added, files and bytes deleted. -/
abbrev SyncTotals := (ℕ × ℕ) × (ℕ × ℕ)

/-- The counters of a result monitor. -/
def ResultMonitor.totals (st : ResultMonitor) : SyncTotals :=
  ((st.totalFilesAdded, st.totalBytesAdded), (st.totalFilesDeleted, st.totalBytesDeleted))

/-- What a message adds to the counters. -/
def ResultMsg.totals : ResultMsg → SyncTotals
  | .add _ md => ((1, md.contentLength), 0)
  | .delete _ md => (0, (1, md.contentLength))
  | .stop => 0

/-- What an operation that was carried out adds to them; a symlink has no bytes. -/
def opTotals : OperationType × Item → SyncTotals
  | (.add, (e, _)) => ((1, e.contentLength), 0)
  | (.symlink, _) => ((1, 0), 0)
  | (.delete, (t, _)) => (0, (1, t.contentLength))
  | (.stop, _) => 0

namespace SyncManager

variable {m : SyncManager} {s s' : SyncState}

/-! ### What the workers have still to report -/

/-- The reports that a worker is about to make. -/
def unreported : WorkerPc → SyncTotals
  | .deleteReport rs => (rs.map ResultMsg.totals).sum
  | .addReport its => (its.map fun it => opTotals (.add, it)).sum
  | _ => 0

/-- A worker checks nothing with a metadata provider, deletes what is in DELETE batches, and
reports no sentinel. -/
def ReportsOk : WorkerPc → Prop
  | .delete b => b.operation = .delete
  | .deleteReport rs => .stop ∉ rs
  | .addCheck _ _ => False
  | _ => True

/-- What is reported by all threads. -/
def unreportedBy (threads : List WorkerPc) : SyncTotals := (threads.map unreported).sum

theorem unreportedBy_append_cons (l₁ l₂ : List WorkerPc) (pc : WorkerPc) :
    unreportedBy (l₁ ++ pc :: l₂) = unreportedBy l₁ + unreported pc + unreportedBy l₂ := by
  simp [unreportedBy, add_assoc]

/-- What a step of a worker reports, and what it leaves to be reported. -/
structure EffectCounted (pc : WorkerPc) (eff : Effect) : Prop where
  counted : unreported pc + (eff.done.map opTotals).sum =
    (eff.results.map ResultMsg.totals).sum + unreported eff.pc
  ok : ReportsOk eff.pc
  no_stop : .stop ∉ eff.results

theorem reportsOk_dispatch (hprovider : m.hasMetadataProvider = false) (b : OperationBatch) :
    ReportsOk (m.dispatch b) := by
  unfold dispatch
  rw [hprovider]
  split
  next => trivial
  next hop => exact hop
  next => trivial
  next => trivial

theorem unreported_dispatch (b : OperationBatch) : unreported (m.dispatch b) = 0 := by
  unfold dispatch
  split
  next => rfl
  next => rfl
  next => split <;> rfl
  next => rfl

theorem published_nil (hprovider : m.hasMetadataProvider = false) (ans : Answer) :
    m.published ans = [] := by
  unfold published
  rw [hprovider]
  rfl

/-- The worker reports an ADD with the bytes of its entry. -/
theorem reportResult_totals (hprovider : m.hasMetadataProvider = false) (it : Item) :
    ((m.reportResult it).map ResultMsg.totals).sum = opTotals (.add, it) ∧
      .stop ∉ m.reportResult it := by
  unfold reportResult
  rw [hprovider]
  refine ⟨List.sum_singleton, fun hstop => ?_⟩
  cases List.mem_singleton.mp hstop

/-- It reports a symlink without bytes. -/
theorem symlinkResult_totals (hprovider : m.hasMetadataProvider = false) (it : Item) :
    ((m.symlinkResult it).map ResultMsg.totals).sum = opTotals (.symlink, it) ∧
      .stop ∉ m.symlinkResult it := by
  unfold symlinkResult
  rw [hprovider]
  refine ⟨List.sum_singleton, fun hstop => ?_⟩
  cases List.mem_singleton.mp hstop

/-- The reports of a DELETE batch are those of its operations. -/
theorem totals_deleteResults {b : OperationBatch} (hb : b.operation = .delete)
    (h : BatchSyncHandler) :
    ((h.deleteResults b).map ResultMsg.totals).sum = (b.ops.map opTotals).sum := by
  unfold BatchSyncHandler.deleteResults OperationBatch.ops
  rw [hb, List.map_map, List.map_map]
  rfl

/-- A step that reports nothing and finishes nothing. -/
theorem EffectCounted.quiet {pc : WorkerPc} {eff : Effect} (hdone : eff.done = [])
    (hresults : eff.results = []) (hpc : unreported eff.pc = unreported pc)
    (hok : ReportsOk eff.pc) : EffectCounted pc eff := by
  refine ⟨?_, hok, by rw [hresults]; exact List.not_mem_nil⟩
  rw [hdone, hresults, hpc, List.map_nil, List.map_nil, List.sum_nil, add_zero, zero_add]

/-- **One step of a worker.** -/
theorem workerStep_counted (hprovider : m.hasMetadataProvider = false) {id : ℕ} {shutdown : Bool}
    {q : List OperationBatch} {ans : Answer} {pc : WorkerPc} {eff : Effect} (hpc : ReportsOk pc)
    (h : m.workerStep id shutdown q ans pc = some eff) : EffectCounted pc eff := by
  have hpublished := published_nil hprovider ans
  cases pc with
  | loop =>
      obtain rfl : _ = eff := by simpa [workerStep] using h
      cases shutdown <;> exact .quiet rfl rfl rfl trivial
  | get =>
      rcases q with - | ⟨b, q⟩
      · cases h
      · obtain rfl : _ = eff := Option.some.inj h
        exact .quiet rfl rfl (unreported_dispatch b) (reportsOk_dispatch hprovider b)
  | stop b =>
      obtain rfl : _ = eff := Option.some.inj h
      exact .quiet rfl rfl rfl trivial
  | delete b =>
      rcases hr : ans.raises with - | e
      · obtain rfl : _ = eff := by simpa [workerStep, hr] using h
        refine ⟨?_, ?_, List.not_mem_nil⟩
        · show 0 + (b.ops.map opTotals).sum =
            0 + ((m.handler.deleteResults b).map ResultMsg.totals).sum
          rw [totals_deleteResults hpc]
        · -- a report of a deletion is no sentinel
          intro hstop
          obtain ⟨it, -, hit⟩ := List.mem_map.mp hstop
          cases hit
      · obtain rfl : _ = eff := by simpa [workerStep, hr] using h
        exact .quiet rfl rfl rfl trivial
  | deleteReport rs =>
      rcases rs with - | ⟨r, rs⟩
      · obtain rfl : _ = eff := Option.some.inj h
        exact .quiet rfl rfl rfl trivial
      · obtain rfl : _ = eff := Option.some.inj h
        have hno : ResultMsg.stop ∉ r :: rs := hpc
        rw [List.mem_cons, not_or] at hno
        refine ⟨?_, hno.2, fun hstop => hno.1 (List.mem_singleton.mp hstop)⟩
        show ((r :: rs).map ResultMsg.totals).sum + 0 = ([r].map ResultMsg.totals).sum + _
        rw [List.map_cons, List.sum_cons, add_zero]
        simp [unreported]
  | addCheck ps ts => exact hpc.elim
  | transfer ts =>
      rcases ts with - | ⟨it, its⟩
      · obtain rfl : _ = eff := Option.some.inj h
        exact .quiet rfl rfl rfl trivial
      · rcases hr : ans.raises with - | e
        · obtain rfl : _ = eff := by simpa [workerStep, hr] using h
          refine ⟨?_, trivial, by rw [hpublished]; exact List.not_mem_nil⟩
          show 0 + (((it :: its).map fun it => (OperationType.add, it)).map opTotals).sum =
            ((m.published ans).map ResultMsg.totals).sum + _
          rw [hpublished, List.map_map, zero_add]
          exact (zero_add _).symm
        · obtain rfl : _ = eff := by simpa [workerStep, hr] using h
          exact .quiet rfl hpublished rfl trivial
  | addReport ts =>
      rcases ts with - | ⟨it, its⟩
      · obtain rfl : _ = eff := Option.some.inj h
        exact .quiet rfl rfl rfl trivial
      · obtain rfl : _ = eff := Option.some.inj h
        obtain ⟨htotals, hno⟩ := reportResult_totals hprovider it
        refine ⟨?_, trivial, hno⟩
        show ((it :: its).map fun it => opTotals (.add, it)).sum + 0 = _ + _
        rw [List.map_cons, List.sum_cons, add_zero, htotals]
        rfl
  | symlink its =>
      rcases its with - | ⟨it, its⟩
      · obtain rfl : _ = eff := Option.some.inj h
        exact .quiet rfl rfl rfl trivial
      · rcases hr : symlinkError it ans with - | e
        · obtain rfl : _ = eff := by simpa [workerStep, hr] using h
          obtain ⟨htotals, hno⟩ := symlinkResult_totals hprovider it
          refine ⟨?_, trivial, ?_⟩
          · show 0 + ([(OperationType.symlink, it)].map opTotals).sum =
              ((m.published ans ++ m.symlinkResult it).map ResultMsg.totals).sum + 0
            rw [hpublished, List.nil_append, htotals, List.map_singleton, List.sum_singleton,
              add_zero, zero_add]
          · show ResultMsg.stop ∉ m.published ans ++ m.symlinkResult it
            rwa [hpublished, List.nil_append]
        · obtain rfl : _ = eff := by simpa [workerStep, hr] using h
          exact .quiet rfl hpublished rfl trivial
  | exited => cases h
  | died e => cases h

/-! ### Every operation is counted once -/

/-- The invariant of the totals. -/
structure Counted (s : SyncState) : Prop where
  balance : s.resultMonitor.totals + (s.resultQueue.map ResultMsg.totals).sum +
    unreportedBy s.threads = (s.done.map opTotals).sum
  threads : ∀ pc ∈ s.threads, ReportsOk pc
  error : s.resultMonitor.error = none
  /-- no sentinel is there before the calling thread has put it -/
  opened : s.main ≠ .raised → MainPc.rank s.main < 3 →
    .stop ∉ s.resultQueue ∧ s.resultStopped = false
  /-- the sentinel is the last message -/
  closed : 3 ≤ MainPc.rank s.main →
    if s.resultStopped = true then s.resultQueue = []
    else ∃ msgs, .stop ∉ msgs ∧ s.resultQueue = msgs ++ [.stop]

/-- At the start nothing is counted. -/
theorem counted_init (m : SyncManager) : Counted m.init where
  balance := by
    have hsum : ∀ n, unreportedBy (List.replicate n .loop) = 0 := fun n => by
      simp [unreportedBy, unreported]
    show 0 + 0 + unreportedBy (List.replicate (max 1 m.numWorkerThreads) .loop) = 0
    rw [hsum, add_zero, add_zero]
  threads := fun pc hpc => by
    rw [List.eq_of_mem_replicate hpc]
    trivial
  error := rfl
  opened := fun _ _ => ⟨List.not_mem_nil, rfl⟩
  closed := fun hr => absurd hr (by simp [init, MainPc.rank])

/-- A step that touches neither the results nor the calling thread. -/
theorem Counted.of_same (h : Counted s) (hthreads : s'.threads = s.threads)
    (hqueue : s'.resultQueue = s.resultQueue) (hmonitor : s'.resultMonitor = s.resultMonitor)
    (hdone : s'.done = s.done) (hmain : s'.main = s.main)
    (hstopped : s'.resultStopped = s.resultStopped) : Counted s' where
  balance := by rw [hthreads, hqueue, hmonitor, hdone]; exact h.balance
  threads := by rw [hthreads]; exact h.threads
  error := by rw [hmonitor]; exact h.error
  opened := by rw [hmain, hqueue, hstopped]; exact h.opened
  closed := by rw [hmain, hqueue, hstopped]; exact h.closed

theorem producerStep_counted (h : Counted s) (hs : m.producerStep s = some s') : Counted s' := by
  rcases producerStep_cases hs with ⟨_, _, _, rfl⟩ | ⟨_, _, _, _, _, rfl⟩ | ⟨_, _, rfl⟩ |
    ⟨_, _, _, _, rfl⟩ | ⟨_, _, _, _, _, _, rfl⟩ | ⟨_, _, _, _, _, _, _, _, rfl⟩
  all_goals exact h.of_same rfl rfl rfl rfl rfl rfl

theorem errorStep_counted (h : Counted s) {raises : Option PyStr}
    (hs : errorStep s raises = some s') : Counted s' := by
  obtain ⟨-, _, _, -, ⟨_, rfl⟩ | ⟨-, rfl⟩ | ⟨_, -, rfl⟩⟩ := errorStep_cases hs
  all_goals exact h.of_same rfl rfl rfl rfl rfl rfl

/-- A worker's step is counted before the workers are joined. -/
theorem workerStep_run_counted (h : Counted s) (hphases : m.Phases s) {i : ℕ} {pc : WorkerPc}
    {ans : Answer} {eff : Effect} (hpc : s.threads[i]? = some pc)
    (heff : EffectOk pc s.shutdown s.fileQueue ans eff) (hcount : EffectCounted pc eff) :
    Counted (applyEffect s i eff) := by
  have hearly : MainPc.rank s.main < 1 := by
    by_contra hr
    have hend := (hphases.joined (not_lt.mp hr)).1 pc (List.mem_of_getElem? hpc)
    rw [heff.alive] at hend
    cases hend
  obtain ⟨l₁, l₂, hl, hset⟩ := Run.set_eq_append hpc
  refine ⟨?_, fun pc' hpc' => ?_, h.error, fun hne hlt => ?_, fun hr => ?_⟩
  · -- what the step finishes was to be reported, or is now
    have hbalance := h.balance
    have hcounted := hcount.counted
    rw [hl, unreportedBy_append_cons] at hbalance
    show s.resultMonitor.totals + ((s.resultQueue ++ eff.results).map ResultMsg.totals).sum +
      unreportedBy (s.threads.set i eff.pc) = ((s.done ++ eff.done).map opTotals).sum
    rw [hset, unreportedBy_append_cons, List.map_append, List.map_append, List.sum_append,
      List.sum_append, ← hbalance]
    calc s.resultMonitor.totals + ((s.resultQueue.map ResultMsg.totals).sum +
            (eff.results.map ResultMsg.totals).sum) +
            (unreportedBy l₁ + unreported eff.pc + unreportedBy l₂)
        = s.resultMonitor.totals + (s.resultQueue.map ResultMsg.totals).sum +
            (unreportedBy l₁ + unreportedBy l₂) +
            ((eff.results.map ResultMsg.totals).sum + unreported eff.pc) := by abel
      _ = s.resultMonitor.totals + (s.resultQueue.map ResultMsg.totals).sum +
            (unreportedBy l₁ + unreportedBy l₂) +
            (unreported pc + (eff.done.map opTotals).sum) := by rw [hcounted]
      _ = _ := by abel
  · rcases List.mem_or_eq_of_mem_set hpc' with hmem | rfl
    · exact h.threads pc' hmem
    · exact hcount.ok
  · obtain ⟨hno, hrun⟩ := h.opened hne hlt
    exact ⟨fun hstop => (List.mem_append.mp hstop).elim hno hcount.no_stop, hrun⟩
  · exact absurd (hr.trans_lt hearly) (by decide)

/-- What a step of the result monitor can be. -/
theorem resultStep_cases (hprovider : m.hasMetadataProvider = false)
    (herror : s.resultMonitor.error = none) {raises : Option PyStr}
    (h : m.resultStep s raises = some s') :
    s.resultStopped = false ∧ ∃ msg q, s.resultQueue = msg :: q ∧
      ((msg = .stop ∧ s' = { s with resultQueue := q, resultStopped := true }) ∨
        (msg ≠ .stop ∧ ∃ st : ResultMonitor, st.totals = s.resultMonitor.totals + msg.totals ∧
          st.error = none ∧ s' = { s with resultQueue := q, resultMonitor := st })) := by
  unfold resultStep at h
  rw [hprovider] at h
  split at h
  · cases h
  rename_i hrun
  have hrun : s.resultStopped = false := by simpa using hrun
  refine ⟨hrun, ?_⟩
  -- without a provider the monitor does not stop on a message
  have hsettle : ∀ (q : List ResultMsg) (st : ResultMonitor), st.error = none →
      ({ s with resultQueue := q, resultMonitor := st, resultStopped := st.error.isSome } :
        SyncState) = { s with resultQueue := q, resultMonitor := st } := by
    intro q st hst
    rw [hst, hrun]
    rfl
  dsimp only at h
  split at h
  · cases h
  · rename_i q hq
    exact ⟨.stop, q, hq, Or.inl ⟨rfl, (Option.some.inj h).symm⟩⟩
  · rename_i path md q hq
    refine ⟨.add path md, q, hq, Or.inr ⟨by simp, s.resultMonitor.onAdd none path md, rfl,
      herror, ?_⟩⟩
    rw [← hsettle q (s.resultMonitor.onAdd none path md) herror]
    exact (Option.some.inj h).symm
  · rename_i path md q hq
    refine ⟨.delete path md, q, hq, Or.inr ⟨by simp, s.resultMonitor.onDelete none path md, rfl,
      herror, ?_⟩⟩
    rw [← hsettle q (s.resultMonitor.onDelete none path md) herror]
    exact (Option.some.inj h).symm

/-- The result thread counts what it takes. -/
theorem resultStep_counted (hprovider : m.hasMetadataProvider = false) (h : Counted s)
    {raises : Option PyStr} (hs : m.resultStep s raises = some s') : Counted s' := by
  obtain ⟨hrun, msg, q, hq, ⟨rfl, rfl⟩ | ⟨hmsg, st, htotals, herror, rfl⟩⟩ :=
    resultStep_cases hprovider h.error hs
  · -- the sentinel has been read: the calling thread has put it, behind everything
    have hclosing : ¬(s.main ≠ .raised ∧ MainPc.rank s.main < 3) := fun hopen =>
      (h.opened hopen.1 hopen.2).1 (by rw [hq]; exact List.mem_cons_self)
    refine ⟨?_, h.threads, h.error, fun hne hlt => absurd ⟨hne, hlt⟩ hclosing, fun hr => ?_⟩
    · have hbalance := h.balance
      rw [hq, List.map_cons, List.sum_cons] at hbalance
      show s.resultMonitor.totals + (q.map ResultMsg.totals).sum + unreportedBy s.threads = _
      rw [← hbalance, show ResultMsg.totals .stop = 0 from rfl, zero_add]
    · have hclosed := h.closed hr
      rw [if_neg (by simp [hrun])] at hclosed
      obtain ⟨msgs, hno, hmsgs⟩ := hclosed
      rw [if_pos rfl]
      cases msgs with
      | nil => exact (List.cons.inj (hq.symm.trans hmsgs)).2
      | cons msg' msgs =>
          rw [hq, List.cons_append] at hmsgs
          exact absurd ((List.cons.inj hmsgs).1 ▸ List.mem_cons_self) hno
  · refine ⟨?_, h.threads, herror, fun hne hlt => ?_, fun hr => ?_⟩
    · have hbalance := h.balance
      rw [hq, List.map_cons, List.sum_cons] at hbalance
      show st.totals + (q.map ResultMsg.totals).sum + unreportedBy s.threads = _
      rw [← hbalance, htotals, add_assoc s.resultMonitor.totals]
    · obtain ⟨hno, -⟩ := h.opened hne hlt
      rw [hq, List.mem_cons, not_or] at hno
      exact ⟨hno.2, hrun⟩
    · have hclosed := h.closed hr
      rw [if_neg (by simp [hrun])] at hclosed
      obtain ⟨msgs, hno, hmsgs⟩ := hclosed
      show if s.resultStopped = true then _ else _
      rw [if_neg (by simp [hrun])]
      cases msgs with
      | nil =>
          rw [hq, List.nil_append] at hmsgs
          exact absurd (List.cons.inj hmsgs).1 hmsg
      | cons msg' msgs =>
          rw [hq, List.cons_append] at hmsgs
          rw [List.mem_cons, not_or] at hno
          exact ⟨msgs, hno.2, (List.cons.inj hmsgs).2⟩

/-- What a step of the calling thread can be: it goes on, and puts a sentinel where it stops
the results or the errors, or it raises. -/
theorem mainStep_cases {raises : Option PyStr} (h : m.mainStep s raises = some s') :
    s.main ≠ .raised ∧ (s' = { s with main := .raised } ∨ ∃ pc,
      MainPc.rank pc = MainPc.rank s.main + 1 ∧ s' = { s with
        main := pc
        resultQueue := s.resultQueue ++ if s.main = .stopResults then [.stop] else []
        errorQueue := s.errorQueue ++ if s.main = .stopErrors then [none] else [] }) := by
  rcases hm : s.main with - | - | - | - | - | - | - | - | - | - <;>
    simp only [mainStep, hm] at h
  · refine ⟨by simp, ?_⟩
    split at h
    · split at h
      · exact Or.inl (Option.some.inj h).symm
      · refine Or.inr ⟨.joinProducer, rfl, ?_⟩
        rw [← Option.some.inj h]
        simp
    · cases h
  · refine ⟨by simp, Or.inr ⟨.stopResults, rfl, ?_⟩⟩
    split at h
    · rw [← Option.some.inj h]
      simp
    · cases h
  · refine ⟨by simp, Or.inr ⟨.joinResults, rfl, ?_⟩⟩
    rw [← Option.some.inj h]
    simp
  · refine ⟨by simp, Or.inr ⟨.stopErrors, rfl, ?_⟩⟩
    split at h
    · rw [← Option.some.inj h]
      simp
    · cases h
  · refine ⟨by simp, Or.inr ⟨.joinErrors, rfl, ?_⟩⟩
    rw [← Option.some.inj h]
    simp
  · refine ⟨by simp, Or.inr ⟨.commit, rfl, ?_⟩⟩
    split at h
    · rw [← Option.some.inj h]
      simp
    · cases h
  · refine ⟨by simp, ?_⟩
    split at h
    · exact Or.inl (Option.some.inj h).symm
    · refine Or.inr ⟨.check, rfl, ?_⟩
      rw [← Option.some.inj h]
      simp
  · refine ⟨by simp, ?_⟩
    split at h
    · exact Or.inl (Option.some.inj h).symm
    · refine Or.inr ⟨.returned, rfl, ?_⟩
      rw [← Option.some.inj h]
      simp
  · cases h
  · cases h

/-- The main thread counts nothing. -/
theorem mainStep_counted (h : Counted s) {raises : Option PyStr}
    (hs : m.mainStep s raises = some s') : Counted s' := by
  obtain ⟨hne, rfl | ⟨pc, hrank, rfl⟩⟩ := mainStep_cases hs
  · exact ⟨h.balance, h.threads, h.error, fun hno => absurd rfl hno,
      fun hr => absurd hr (by simp [MainPc.rank])⟩
  by_cases hstop : s.main = .stopResults
  · -- the sentinel goes behind all reports
    have hrank2 : MainPc.rank s.main = 2 := by rw [hstop]; rfl
    obtain ⟨hno, hrun⟩ := h.opened hne (by omega)
    rw [if_pos hstop]
    refine ⟨?_, h.threads, h.error, fun _ hlt => ?_, fun _ => ?_⟩
    · show _ + ((s.resultQueue ++ [ResultMsg.stop]).map ResultMsg.totals).sum + _ = _
      rw [List.map_append, List.sum_append]
      exact h.balance
    · exact absurd (show MainPc.rank pc < 3 from hlt) (by omega)
    · show if s.resultStopped = true then _ else _
      rw [if_neg (by simp [hrun])]
      exact ⟨s.resultQueue, hno, rfl⟩
  · rw [if_neg hstop, List.append_nil]
    refine ⟨h.balance, h.threads, h.error, fun _ hlt => ?_, fun hr => ?_⟩
    · exact h.opened hne (by have hlt : MainPc.rank pc < 3 := hlt; omega)
    · -- rank 3 is reached from `stopResults` only
      have hr : 3 ≤ MainPc.rank pc := hr
      refine h.closed ?_
      by_contra hlt
      have hrank2 : MainPc.rank s.main = 2 := by omega
      exact hstop (MainPc.rank_inj hne (by simp) hrank2)

/-- **Every step keeps the count.** -/
theorem step_counted (hprovider : m.hasMetadataProvider = false) {a : Action} (h : Counted s)
    (hphases : m.Phases s) (hs : m.step s a = some s') : Counted s' := by
  cases a with
  | producer => exact producerStep_counted h hs
  | worker i ans =>
      simp only [step] at hs
      split at hs
      · cases hs
      · rename_i pc hpc
        obtain ⟨eff, heff, rfl⟩ := Option.map_eq_some_iff.mp hs
        have hok := h.threads pc (List.mem_of_getElem? hpc)
        exact workerStep_run_counted h hphases hpc (workerStep_ok heff)
          (workerStep_counted hprovider hok heff)
  | resultMonitor raises => exact resultStep_counted hprovider h hs
  | errorMonitor raises => exact errorStep_counted h hs
  | main raises => exact mainStep_counted h hs

theorem inv_and_counted (hprovider : m.hasMetadataProvider = false) {as : List Action}
    (hrun : Run.exec m.step m.init as = some s)
    (hok : Run.Always m.step m.DeletesSafely m.init as) : m.Inv s ∧ Counted s :=
  Run.exec_invariant (I := fun s => m.Inv s ∧ Counted s)
    (fun _ _ _ h hsafe hs => ⟨step_inv h.1 hsafe hs, step_counted hprovider h.2 h.1.phases hs⟩)
    hok hrun ⟨m.inv_init, counted_init m⟩

/-- In a sync that has returned, each operation carried out has been counted once. -/
theorem Counted.returned (h : Counted s) (hinv : m.Inv s) (hret : s.main = .returned) :
    s.resultMonitor.totals = (s.done.map opTotals).sum := by
  have hr : ∀ n ≤ 8, n ≤ MainPc.rank s.main := fun n hn => by rw [hret]; exact hn
  have hqueue : s.resultQueue = [] := by
    have hclosed := h.closed (hr 3 (by decide))
    rwa [if_pos (hinv.phases.results (hr 4 (by decide)))] at hclosed
  have hended := (hinv.phases.joined (hr 1 (by decide))).1
  have hnone : unreportedBy s.threads = 0 := by
    refine List.sum_eq_zero fun n hn => ?_
    obtain ⟨pc, hpc, rfl⟩ := List.mem_map.mp hn
    have hend := hended pc hpc
    cases pc <;> first | rfl | cases hend
  have hbalance := h.balance
  rwa [hqueue, hnone, List.map_nil, List.sum_nil, add_zero, add_zero] at hbalance

/-! ### The dry run -/

/-- What a dry run returns: the lines of `files_to_add.jsonl` and `files_to_delete.jsonl`,
and the totals. -/
structure DryrunResult where
  totalWorkUnits : ℕ := 0
  filesToAdd : List ObjectMetadata := []
  filesToDelete : List ObjectMetadata := []
  totalFilesAdded : ℕ := 0
  totalFilesDeleted : ℕ := 0
  totalBytesAdded : ℕ := 0
  totalBytesDeleted : ℕ := 0

namespace DryrunResult

/-- The totals as those of a result monitor. -/
def totals (r : DryrunResult) : SyncTotals :=
  ((r.totalFilesAdded, r.totalBytesAdded), (r.totalFilesDeleted, r.totalBytesDeleted))

/-- One item of an ADD or SYMLINK batch. -/
def onAdd (r : DryrunResult) (it : Item) : DryrunResult :=
  { r with
    filesToAdd := r.filesToAdd ++ [it.1]
    totalFilesAdded := r.totalFilesAdded + 1
    totalBytesAdded := r.totalBytesAdded + it.1.contentLength }

/-- One item of a DELETE batch. -/
def onDelete (r : DryrunResult) (it : Item) : DryrunResult :=
  { r with
    filesToDelete := r.filesToDelete ++ [it.1]
    totalFilesDeleted := r.totalFilesDeleted + 1
    totalBytesDeleted := r.totalBytesDeleted + it.1.contentLength }

/-- The loop that streams the producer's output; without a sentinel it waits for ever. -/
def stream (r : DryrunResult) : List OperationBatch → Option DryrunResult
  | [] => none
  | b :: q =>
      match b.operation with
      | .stop => some r
      | .add => stream (b.items.foldl onAdd r) q
      | .symlink => stream (b.items.foldl onAdd r) q
      | .delete => stream (b.items.foldl onDelete r) q

/-- One operation, whatever batch it is in. -/
def onOp (r : DryrunResult) : OperationType × Item → DryrunResult
  | (.delete, it) => r.onDelete it
  | (.stop, _) => r
  | (_, it) => r.onAdd it

end DryrunResult

/-- The producer of a dry run. -/
def dryrunProducer (m : SyncManager) : ProducerThread := { m.producer with numWorkers := 1 }

/-- `_sync_objects_dryrun`: nobody sets the shutdown event, and the producer puts one
sentinel. -/
def syncObjectsDryrun (m : SyncManager) : Option (Except PyStr DryrunResult) :=
  let run := m.dryrunProducer.run fun _ => false
  match DryrunResult.stream {} run.fileQueue with
  | none => none
  | some r =>
      match run.outcome with
      | .error e => some (.error e)
      | _ => some (.ok { r with totalWorkUnits := run.totalWorkUnits })

/-- The entries that operations write. -/
def writtenBy (ops : List (OperationType × Item)) : List ObjectMetadata :=
  (ops.filter fun x => x.1 = .add ∨ x.1 = .symlink).map fun x => x.2.1

/-- The entries that operations delete. -/
def deletedBy (ops : List (OperationType × Item)) : List ObjectMetadata :=
  (ops.filter fun x => x.1 = .delete).map fun x => x.2.1

/-- The bytes that the listing says a symlink has. -/
def symlinkBytes : OperationType × Item → SyncTotals
  | (.symlink, (e, _)) => ((0, e.contentLength), 0)
  | _ => 0

namespace DryrunResult

variable {r : DryrunResult} {ops : List (OperationType × Item)}

/-- A batch is streamed as its operations. -/
theorem stream_cons {b : OperationBatch} (hb : b.operation ≠ .stop) (q : List OperationBatch) :
    stream r (b :: q) = stream (b.ops.foldl onOp r) q := by
  obtain ⟨op, items⟩ := b
  have hfold : (OperationBatch.ops ⟨op, items⟩).foldl onOp r =
      items.foldl (fun r it => r.onOp (op, it)) r := List.foldl_map
  rw [hfold]
  cases op with
  | stop => exact absurd rfl hb
  | _ => rfl

/-- The batches before the sentinel are streamed as their operations. -/
theorem stream_batches {batches : List OperationBatch} (h : ∀ b ∈ batches, b.operation ≠ .stop)
    (q : List OperationBatch) :
    stream r (batches ++ stopBatch :: q) = some ((queueOps batches).foldl onOp r) := by
  induction batches generalizing r with
  | nil => rfl
  | cons b batches ih =>
      rw [List.forall_mem_cons] at h
      rw [List.cons_append, stream_cons h.1, ih h.2,
        show queueOps (b :: batches) = b.ops ++ queueOps batches from rfl, List.foldl_append]

theorem totals_onOp (x : OperationType × Item) :
    (r.onOp x).totals = r.totals + (opTotals x + symlinkBytes x) := by
  obtain ⟨op, e, tm⟩ := x
  cases op <;> simp [onOp, onAdd, onDelete, totals, opTotals, symlinkBytes]

/-- What the operations of a dry run add up to. -/
theorem totals_foldl :
    (ops.foldl onOp r).totals =
      r.totals + ((ops.map opTotals).sum + (ops.map symlinkBytes).sum) := by
  induction ops generalizing r with
  | nil => rfl
  | cons x ops ih =>
      rw [List.foldl_cons, ih, totals_onOp, List.map_cons, List.map_cons, List.sum_cons,
        List.sum_cons]
      abel

/-- What it names. -/
theorem files_foldl :
    (ops.foldl onOp r).filesToAdd = r.filesToAdd ++ writtenBy ops ∧
      (ops.foldl onOp r).filesToDelete = r.filesToDelete ++ deletedBy ops := by
  induction ops generalizing r with
  | nil => simp [writtenBy, deletedBy]
  | cons x ops ih =>
      obtain ⟨hadd, hdelete⟩ := ih (r := r.onOp x)
      obtain ⟨op, e, tm⟩ := x
      rw [List.foldl_cons, hadd, hdelete]
      cases op <;> simp [onOp, onAdd, onDelete, writtenBy, deletedBy]

end DryrunResult

/-! ### The listings are read to their ends -/

theorem next_error {it : Iter} {c : Cursor} (h : it.next = .ok c) : c.iter.error = it.error := by
  obtain ⟨items, error⟩ := it
  rcases items with - | ⟨md, mds⟩
  · rcases error with - | e
    · obtain rfl := Except.ok.inj h
      rfl
    · cases h
  · obtain rfl := Except.ok.inj h
    rfl

/-- A round reads on in the listings it has. -/
theorem round_error {p : ProducerThread} {src tgt src' tgt' : Cursor} {st st' : ProducerState}
    (h : p.round src tgt st = (st', .ok (src', tgt'))) :
    src'.iter.error = src.iter.error ∧ tgt'.iter.error = tgt.iter.error := by
  -- a cursor that moves on keeps the error of its listing
  have hsrc : (·, tgt) <$> src.iter.next = .ok (src', tgt') →
      src'.iter.error = src.iter.error ∧ tgt'.iter.error = tgt.iter.error := by
    intro hn
    obtain ⟨c, hc, hr⟩ := map_next_ok hn
    obtain ⟨rfl, rfl⟩ := Prod.mk.inj hr
    exact ⟨next_error hc, rfl⟩
  have htgt : (src, ·) <$> tgt.iter.next = .ok (src', tgt') →
      src'.iter.error = src.iter.error ∧ tgt'.iter.error = tgt.iter.error := by
    intro hn
    obtain ⟨c, hc, hr⟩ := map_next_ok hn
    obtain ⟨rfl, rfl⟩ := Prod.mk.inj hr
    exact ⟨rfl, next_error hc⟩
  rcases hs : src.file with - | e <;> rcases ht : tgt.file with - | t
  -- both at their end, one of them, or neither
  · simp only [ProducerThread.round, hs, ht] at h
    obtain ⟨rfl, rfl⟩ := Prod.mk.inj (Except.ok.inj (congrArg Prod.snd h))
    exact ⟨rfl, rfl⟩
  · simp only [ProducerThread.round, hs, ht] at h
    split at h <;> exact htgt (congrArg Prod.snd h)
  · simp only [ProducerThread.round, hs, ht] at h
    split at h <;> exact hsrc (congrArg Prod.snd h)
  · simp only [ProducerThread.round, hs, ht] at h
    split at h
    · exact hsrc (congrArg Prod.snd h)
    split at h
    · exact htgt (congrArg Prod.snd h)
    split at h
    · exact hsrc (congrArg Prod.snd h)
    split at h
    · exact htgt (congrArg Prod.snd h)
    · split at h
      -- equal keys move both, and an error of either is raised
      · cases congrArg Prod.snd h
      · cases congrArg Prod.snd h
      · rename_i c₁ c₂ hc₁ hc₂
        obtain ⟨rfl, rfl⟩ := Prod.mk.inj (Except.ok.inj (congrArg Prod.snd h))
        exact ⟨next_error hc₁, next_error hc₂⟩

/-- The producer is in the listings that it opened; where it has finished without an
exception, and was not told to shut down, neither of them raises. -/
def ListingsRead (m : SyncManager) (s : SyncState) : Prop :=
  match s.producerPc with
  | .start => True
  | .loop src tgt => src.iter.error = m.producer.createSourceIterator.error ∧
      tgt.iter.error = m.producer.createTargetIterator.error
  | .finished => s.producerError = none → s.shutdown = false →
      m.producer.createSourceIterator.error = none ∧ m.producer.createTargetIterator.error = none

/-- Where the producer stays, so do its listings. -/
theorem ListingsRead.of_same (h : m.ListingsRead s) (hpc : s'.producerPc = s.producerPc)
    (herror : s'.producerError = s.producerError)
    (hshut : s'.shutdown = false → s.shutdown = false) : m.ListingsRead s' := by
  unfold ListingsRead at h ⊢
  rw [hpc]
  cases hs : s.producerPc with
  | start => trivial
  | loop src tgt =>
      rw [hs] at h
      exact h
  | finished =>
      rw [hs] at h
      intro hnone hrun
      exact h (herror ▸ hnone) (hshut hrun)

/-- The producer finishes only with both listings read. -/
theorem producerStep_listings (h : m.ListingsRead s) (hprod : m.Producing s)
    (hs : m.producerStep s = some s') : m.ListingsRead s' := by
  rcases producerStep_cases hs with ⟨b, rest, hq, rfl⟩ | ⟨src, tgt, hpc, hsrc, htgt, rfl⟩ |
    ⟨e, hpc, rfl⟩ | ⟨src, tgt, hpc, hend, rfl⟩ | ⟨src, tgt, st, e, hpc, hr, rfl⟩ |
    ⟨src, tgt, st, src', tgt', hpc, hq, hr, rfl⟩
  · exact h.of_same rfl rfl id
  · exact ⟨next_error hsrc, next_error htgt⟩
  · exact fun hnone => by cases hnone
  · -- the loop has ended without a shutdown: nothing comes after the last entries
    intro _ hrun
    unfold ListingsRead at h
    unfold Producing at hprod
    rw [hpc] at h hprod
    obtain ⟨hsrc, htgt⟩ := hend.resolve_right (by
      show ¬s.shutdown = true
      rw [show s.shutdown = false from hrun]
      simp)
    rw [← h.1, ← h.2, hprod.1 hsrc, hprod.2.1 htgt]
    exact ⟨rfl, rfl⟩
  · exact fun hnone => by cases hnone
  · unfold ListingsRead at h
    rw [hpc] at h
    obtain ⟨hsrc, htgt⟩ := round_error hr
    exact ⟨hsrc.trans h.1, htgt.trans h.2⟩

/-- Every step keeps what the producer has read. -/
theorem step_listings {a : Action} (h : m.ListingsRead s) (hprod : m.Producing s)
    (hs : m.step s a = some s') : m.ListingsRead s' := by
  cases a with
  | producer => exact producerStep_listings h hprod hs
  | worker i ans =>
      simp only [step] at hs
      split at hs
      · cases hs
      · obtain ⟨eff, -, rfl⟩ := Option.map_eq_some_iff.mp hs
        exact h.of_same rfl rfl id
  | resultMonitor raises =>
      obtain ⟨-, _, _, _, rfl⟩ := resultStep_frame hs
      exact h.of_same rfl rfl id
  | errorMonitor raises =>
      obtain ⟨-, _, _, -, ⟨_, rfl⟩ | ⟨-, rfl⟩ | ⟨_, -, rfl⟩⟩ := errorStep_cases hs
      · exact h.of_same rfl rfl id
      · exact h.of_same rfl rfl id
      · exact h.of_same rfl rfl fun hrun => (Bool.or_eq_false_iff.mp hrun).1
  | main raises =>
      obtain ⟨_, _, _, rfl, -⟩ := mainStep_frame hs
      exact h.of_same rfl rfl id

/-- A sync that has returned has read both listings to their ends. -/
theorem returned_listings {as : List Action} (hrun : Run.exec m.step m.init as = some s)
    (hok : Run.Always m.step m.DeletesSafely m.init as) (hret : s.main = .returned) :
    m.producer.createSourceIterator.error = none ∧
      m.producer.createTargetIterator.error = none := by
  obtain ⟨hinv, hlistings⟩ := Run.exec_invariant (I := fun s => m.Inv s ∧ m.ListingsRead s)
    (fun _ _ _ h hsafe hs => ⟨step_inv h.1 hsafe hs, step_listings h.2 h.1.traffic.producing hs⟩)
    hok hrun ⟨m.inv_init, trivial⟩
  obtain ⟨-, -, -, hpc, -, herror, hshut⟩ := hinv.returned hret
  unfold ListingsRead at hlistings
  rw [hpc] at hlistings
  exact hlistings herror hshut

/-! ### What the dry run predicts -/

/-- Where the listings do not raise, the dry run goes through the plan. -/
theorem syncObjectsDryrun_eq (hs : m.producer.createSourceIterator.error = none)
    (ht : m.producer.createTargetIterator.error = none) :
    m.syncObjectsDryrun = some (.ok { (m.producer.plan m.producer.sourceEntries
        m.producer.targetEntries).foldl DryrunResult.onOp {} with
      totalWorkUnits := (m.dryrunProducer.run fun _ => false).totalWorkUnits }) := by
  have hsource : m.dryrunProducer.createSourceIterator = m.producer.createSourceIterator :=
    createSourceIterator_congr rfl rfl rfl rfl rfl rfl
  have hfinished := m.dryrunProducer.run_finishes (by rwa [hsource]) ht
  obtain ⟨batches, hq, hok, -, hplan⟩ := m.dryrunProducer.run_spec fun _ => false
  have hstream := DryrunResult.stream_batches (r := {}) (fun b hb => (hok b hb).not_stop) []
  have hops : queueOps batches =
      m.producer.plan m.producer.sourceEntries m.producer.targetEntries := by
    rw [hplan hfinished, sourceEntries, hsource]
    rfl
  have hone : List.replicate m.dryrunProducer.numWorkers stopBatch = [stopBatch] := rfl
  unfold syncObjectsDryrun
  dsimp only
  rw [hq, hfinished, hone, hstream, hops]

/-- **A dry run predicts a sync.**  Where a sync returns, the dry run names the entries that
it writes and those that it deletes, and has the totals of its result monitor but for
the bytes that the listing says symlinks have. -/
theorem dryrun_predicts (m : SyncManager) (as : List Action) (s : SyncState)
    (hrun : Run.exec m.step m.init as = some s)
    (hok : Run.Always m.step m.DeletesSafely m.init as) (hret : s.main = .returned)
    (hprovider : m.hasMetadataProvider = false) :
    ∃ r, m.syncObjectsDryrun = some (.ok r) ∧ r.filesToAdd.Perm (writtenBy s.done) ∧
      r.filesToDelete.Perm (deletedBy s.done) ∧
      r.totals = s.resultMonitor.totals + (s.done.map symlinkBytes).sum := by
  obtain ⟨hinv, hcounted⟩ := inv_and_counted hprovider hrun hok
  obtain ⟨hs, ht⟩ := returned_listings hrun hok hret
  have hdone := returned_plan_done m as s hrun hok hret
  refine ⟨_, syncObjectsDryrun_eq hs ht, ?_, ?_, ?_⟩
  · rw [DryrunResult.files_foldl.1]
    exact (hdone.symm.filter _).map _
  · rw [DryrunResult.files_foldl.2]
    exact (hdone.symm.filter _).map _
  · show (DryrunResult.totals (List.foldl _ _ _)) = _
    rw [DryrunResult.totals_foldl, hcounted.returned hinv hret,
      ← (hdone.map opTotals).sum_eq, ← (hdone.map symlinkBytes).sum_eq]
    exact zero_add _

/-- The dry run of `deletingSync`, and a run of it. -/
theorem dryrun_predicts_deletedRun : ∃ s r,
    Run.exec deletingSync.step deletingSync.init deletedRun = some s ∧
      deletingSync.syncObjectsDryrun = some (.ok r) ∧
      s.resultMonitor.totals = (0, (1, 1)) ∧ r.filesToDelete.Perm (deletedBy s.done) := by
  obtain ⟨s, hs, hret, htotals⟩ : ∃ s,
      Run.exec deletingSync.step deletingSync.init deletedRun = some s ∧
        s.main = .returned ∧ s.resultMonitor.totals = (0, (1, 1)) :=
    Run.exec_exists (by decide +kernel)
  have hsafe := always_deletesSafely (m := deletingSync) deletedRun_succeeds deletingSync.init
  obtain ⟨r, hr, -, hdelete, -⟩ := dryrun_predicts deletingSync _ s hs hsafe hret rfl
  exact ⟨s, r, hs, hr, htotals, hdelete⟩

end SyncManager

end MultiStorageClient
