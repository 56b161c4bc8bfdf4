/-
MultiStorageClient/SyncRuns.lean

What a sync that returns normally has done, for every interleaving.

The argument has three parts.  Operations are conserved: whatever was put on
the file queue is carried out, failed, in the hands of a worker, or still
queued (`Traffic.balance`).  The queue is drained before a worker leaves on a
sentinel, since the sentinels stand behind all batches.  And a failure is
reported: it is on the error queue or with the error monitor, except for one
of `delete_many`, which ends its thread (`Reporting.reported`).
-/
import MultiStorageClient.SyncManager

namespace MultiStorageClient

open ProducerThread

/-! ### The file queue -/

/-- Sentinels stand behind all batches of a queue. -/
structure QueueOk (q : List OperationBatch) : Prop where
  stops_last : q.Pairwise fun a b => a.operation = .stop → b.operation = .stop
  stops_eq : ∀ b ∈ q, b.operation = .stop → b = stopBatch

theorem QueueOk.tail {b : OperationBatch} {q : List OperationBatch} (h : QueueOk (b :: q)) :
    QueueOk q :=
  ⟨(List.pairwise_cons.mp h.stops_last).2, fun b' hb' => h.stops_eq b' (List.mem_cons_of_mem b hb')⟩

/-- A sentinel at the head is followed by sentinels only. -/
theorem QueueOk.all_stop {b : OperationBatch} {q : List OperationBatch} (h : QueueOk (b :: q))
    (hb : b.operation = .stop) : ∀ b' ∈ b :: q, b' = stopBatch := by
  intro b' hb'
  refine h.stops_eq b' hb' ?_
  rcases List.mem_cons.mp hb' with rfl | hmem
  · exact hb
  · exact (List.pairwise_cons.mp h.stops_last).1 b' hmem hb

theorem QueueOk.of_all_stop {q : List OperationBatch} (h : ∀ b ∈ q, b = stopBatch) :
    QueueOk q where
  stops_last := List.pairwise_of_forall_mem_list fun a _ b hb _ => by rw [h b hb]; rfl
  stops_eq := fun b hb _ => h b hb

/-- Batches with sentinels behind them. -/
theorem QueueOk.of_batches {q : List OperationBatch} (h : ∀ b ∈ q, b.operation ≠ .stop) (n : ℕ) :
    QueueOk (q ++ List.replicate n stopBatch) where
  stops_last := by
    rw [List.pairwise_append]
    refine ⟨?_, ?_, fun a ha b hb hstop => absurd hstop (h a ha)⟩
    · exact List.pairwise_of_forall_mem_list fun a ha b _ hstop => absurd hstop (h a ha)
    · exact List.pairwise_of_forall_mem_list fun a _ b hb _ => by
        rw [List.eq_of_mem_replicate hb]; rfl
  stops_eq := by
    intro b hb hstop
    rcases List.mem_append.mp hb with hb | hb
    · exact absurd hstop (h b hb)
    · exact List.eq_of_mem_replicate hb

theorem queueOps_all_stop {q : List OperationBatch} (h : ∀ b ∈ q, b = stopBatch) :
    queueOps q = [] := by
  rw [List.eq_replicate_of_mem h, queueOps_stops]

theorem coe_queueOps_cons (b : OperationBatch) (q : List OperationBatch) :
    (queueOps (b :: q) : Multiset (OperationType × Item)) = b.ops + queueOps q := rfl

theorem coe_queueOps_concat (b : OperationBatch) (q : List OperationBatch) :
    (queueOps (q ++ [b]) : Multiset (OperationType × Item)) = queueOps q + b.ops := by
  rw [queueOps_append, ← Multiset.coe_add]
  simp [queueOps]

namespace SyncManager

variable {m : SyncManager} {s s' : SyncState}

/-! ### Operations are conserved -/

/-- The operations all threads hold. -/
def held (threads : List WorkerPc) : Multiset (OperationType × Item) :=
  (threads.map fun pc => (pc.inFlight : Multiset (OperationType × Item))).sum

theorem held_append_cons (l₁ l₂ : List WorkerPc) (pc : WorkerPc) :
    held (l₁ ++ pc :: l₂) = held l₁ + pc.inFlight + held l₂ := by
  simp [held, add_assoc]

/-- The batches on their way to the workers. -/
def pending (s : SyncState) : List OperationBatch := s.fileQueue ++ s.producer.fileQueue

/-- All batches have left the queue. -/
def Drained (s : SyncState) : Prop :=
  s.producerPc = .finished ∧ ∀ b ∈ pending s, b = stopBatch

/-- Where the producer is in its plan. -/
def Producing (m : SyncManager) (s : SyncState) : Prop :=
  match s.producerPc with
  | .start => s.producer = {} ∧ s.enqueued = []
  | .loop src tgt => src.Valid ∧ tgt.Valid ∧ ∃ ops, m.producer.Enqueued s.producer ops ∧
      s.enqueued ++ ops ++ m.producer.plan src.entries tgt.entries =
        m.producer.plan m.producer.sourceEntries m.producer.targetEntries
  | .finished =>
      s.enqueued ++ queueOps s.producer.fileQueue <+:
        m.producer.plan m.producer.sourceEntries m.producer.targetEntries ∧
      (s.producerError = none → s.shutdown = false →
        s.enqueued ++ queueOps s.producer.fileQueue =
          m.producer.plan m.producer.sourceEntries m.producer.targetEntries)

/-- The invariant of the operations and the file queue. -/
structure Traffic (m : SyncManager) (s : SyncState) : Prop where
  balance : (s.enqueued : Multiset (OperationType × Item)) =
    s.done + s.failed + held s.threads + queueOps s.fileQueue
  queue : QueueOk (pending s)
  stops : (∃ b ∈ pending s, b.operation = .stop) → s.producerPc = .finished
  producing : m.Producing s
  /-- a sentinel is taken from a drained queue -/
  held_stop : ∀ b, .stop b ∈ s.threads → b = stopBatch ∧ Drained s
  exited : .exited ∈ s.threads → s.shutdown = true ∨ Drained s

/-! ### What a worker's step does -/

/-- What the invariants need to know about a worker's step. -/
structure EffectOk (pc : WorkerPc) (shutdown : Bool) (q : List OperationBatch) (ans : Answer)
    (eff : Effect) : Prop where
  alive : pc.ended = false
  balance : (pc.inFlight : Multiset (OperationType × Item)) + queueOps q =
    eff.done + eff.failed + eff.pc.inFlight + queueOps eff.fileQueue
  /-- the queue is left alone, loses its head, or gets a sentinel back -/
  queue : eff.fileQueue = q ∨ (∃ b, q = b :: eff.fileQueue) ∨
    ∃ b, pc = .stop b ∧ eff.fileQueue = q ++ [b]
  stop : ∀ b, eff.pc = .stop b → q = b :: eff.fileQueue ∧ b.operation = .stop
  exited : eff.pc = .exited → shutdown = true ∨ ∃ b, pc = .stop b
  reported : eff.failed ≠ [] → eff.errors ≠ [] ∨ ∃ e, eff.pc = .died e
  died : ∀ e, eff.pc = .died e → (∃ b, pc = .delete b) ∧ ans.raises = some e

/-- A dispatched batch is in flight. -/
theorem inFlight_dispatch (m : SyncManager) (b : OperationBatch) :
    (m.dispatch b).inFlight = b.ops := by
  obtain ⟨op, items⟩ := b
  cases op with
  | stop => rfl
  | delete => rfl
  | symlink => rfl
  | add =>
      show (if m.hasMetadataProvider then WorkerPc.addCheck items [] else
        .transfer items).inFlight = items.map fun it => (.add, it)
      split <;> rfl

theorem dispatch_eq_stop {b b' : OperationBatch} (h : m.dispatch b = .stop b') :
    b = b' ∧ b.operation = .stop := by
  unfold dispatch at h
  split at h
  · rename_i hop
    exact ⟨by injection h, hop⟩
  · cases h
  · split at h <;> cases h
  · cases h

theorem dispatch_alive (b : OperationBatch) : (m.dispatch b).ended = false := by
  unfold dispatch
  split
  · rfl
  · rfl
  · split <;> rfl
  · rfl

/-- A step inside the handlers leaves the queue alone; what is no longer in
flight is `done` or `failed`. -/
theorem EffectOk.local {pc : WorkerPc} {shutdown : Bool} {q : List OperationBatch}
    {ans : Answer} {eff : Effect} (halive : pc.ended = false) (hq : eff.fileQueue = q)
    (hpc : eff.pc.busy = true)
    (hbalance : (pc.inFlight : Multiset (OperationType × Item)) =
      eff.done + eff.failed + eff.pc.inFlight)
    (hrep : eff.failed ≠ [] → eff.errors ≠ []) : EffectOk pc shutdown q ans eff where
  alive := halive
  balance := by rw [hbalance, hq]
  queue := Or.inl hq
  stop := fun b hb => by rw [hb] at hpc; cases hpc
  exited := fun hex => by rw [hex] at hpc; cases hpc
  reported := fun h => Or.inl (hrep h)
  died := fun e he => by rw [he] at hpc; cases hpc

/-- A step of this kind in which nothing fails. -/
theorem EffectOk.quiet {pc : WorkerPc} {shutdown : Bool} {q : List OperationBatch}
    {ans : Answer} {eff : Effect} (halive : pc.ended = false) (hq : eff.fileQueue = q)
    (hpc : eff.pc.busy = true) (hfailed : eff.failed = [])
    (hbalance : (pc.inFlight : Multiset (OperationType × Item)) =
      eff.done + eff.pc.inFlight) : EffectOk pc shutdown q ans eff := by
  refine .local halive hq hpc ?_ (fun h => absurd hfailed h)
  rw [hbalance, hfailed, Multiset.coe_nil, add_zero]

/-- A check that completes is taken out of the pending ones. -/
theorem inFlight_addCheck {pending : List Item} (transferItems : List Item) {i : ℕ} {it : Item}
    (h : pending[i]? = some it) :
    ((WorkerPc.addCheck pending transferItems).inFlight : Multiset (OperationType × Item)) =
      {(.add, it)} + (WorkerPc.addCheck (pending.eraseIdx i) transferItems).inFlight := by
  obtain ⟨hi, rfl⟩ := List.getElem?_eq_some_iff.mp h
  have hperm : pending.Perm (pending[i] :: pending.eraseIdx i) :=
    (List.getElem_cons_eraseIdx_perm hi).symm
  rw [Multiset.singleton_add, Multiset.cons_coe, Multiset.coe_eq_coe]
  have hall : (transferItems ++ pending).Perm
      (pending[i] :: (transferItems ++ pending.eraseIdx i)) :=
    (hperm.append_left transferItems).trans List.perm_middle
  exact hall.map _

/-- **One step of a worker.** -/
theorem workerStep_ok {id : ℕ} {shutdown : Bool} {q : List OperationBatch} {ans : Answer}
    {pc : WorkerPc} {eff : Effect} (h : m.workerStep id shutdown q ans pc = some eff) :
    EffectOk pc shutdown q ans eff := by
  -- only `get`, `stop`, the exit on a shutdown and a failed `delete_many` do
  -- more than a handler's step
  cases pc with
  | loop =>
      obtain rfl : _ = eff := by simpa [workerStep] using h
      cases shutdown with
      | false => exact .quiet rfl rfl rfl rfl (zero_add _).symm
      | true =>
          exact ⟨rfl, rfl, Or.inl rfl, (fun b hb => by cases hb), fun _ => Or.inl rfl,
            fun h => absurd rfl h, (fun e he => by cases he)⟩
  | get =>
      rcases q with - | ⟨b, q⟩
      · simp [workerStep] at h
      · obtain rfl : _ = eff := by simpa [workerStep] using h
        have halive := dispatch_alive (m := m) b
        refine ⟨rfl, ?_, Or.inr (Or.inl ⟨b, rfl⟩), fun b' hb' => ?_, fun hex => ?_,
          fun h => absurd rfl h, fun e he => ?_⟩
        · rw [inFlight_dispatch, coe_queueOps_cons]
          simp [WorkerPc.inFlight]
        · obtain ⟨rfl, hop⟩ := dispatch_eq_stop hb'
          exact ⟨rfl, hop⟩
        · rw [show m.dispatch b = .exited from hex] at halive
          cases halive
        · rw [show m.dispatch b = .died e from he] at halive
          cases halive
  | stop b =>
      -- the sentinel goes back for the next thread
      obtain rfl : _ = eff := by simpa [workerStep] using h
      refine ⟨rfl, ?_, Or.inr (Or.inr ⟨b, rfl, rfl⟩), (fun b hb => by cases hb),
        fun _ => Or.inr ⟨b, rfl⟩, fun h => absurd rfl h, (fun e he => by cases he)⟩
      rw [coe_queueOps_concat]
      simp [WorkerPc.inFlight, add_comm]
  | delete b =>
      rcases hr : ans.raises with - | e
      · obtain rfl : _ = eff := by simpa [workerStep, hr] using h
        refine .quiet rfl rfl rfl rfl ?_
        simp [WorkerPc.inFlight]
      · -- the failure is on no queue: the thread dies with it
        obtain rfl : _ = eff := by simpa [workerStep, hr] using h
        refine ⟨rfl, ?_, Or.inl rfl, (fun b hb => by cases hb), (fun hex => by cases hex),
          fun _ => Or.inr ⟨e, rfl⟩, fun e' he' => ?_⟩
        · simp [WorkerPc.inFlight]
        · obtain rfl : e = e' := by simpa using he'
          exact ⟨⟨b, rfl⟩, hr⟩
  | deleteReport rs =>
      rcases rs with - | ⟨r, rs⟩ <;>
      · obtain rfl : _ = eff := by simpa [workerStep] using h
        exact .quiet rfl rfl rfl rfl rfl
  | addCheck ps ts =>
      rcases ps with - | ⟨it₀, its⟩
      · obtain rfl : _ = eff := by simpa [workerStep] using h
        refine .quiet rfl rfl rfl rfl ?_
        simp [WorkerPc.inFlight]
      · rcases hit : (it₀ :: its)[ans.item]? with - | it
        · simp [workerStep, hit] at h
        have hflight := inFlight_addCheck ts hit
        rcases hr : ans.raises with - | e
        · -- the item is up to date, or joins those to transfer
          rcases hskip : ans.skip with - | -
          · obtain rfl : _ = eff := by simpa [workerStep, hit, hr, hskip] using h
            refine .quiet rfl rfl rfl rfl ?_
            rw [hflight]
            simp [WorkerPc.inFlight, List.perm_middle.symm]
          · obtain rfl : _ = eff := by simpa [workerStep, hit, hr, hskip] using h
            refine .quiet rfl rfl rfl rfl ?_
            rw [hflight]
            simp
        · obtain rfl : _ = eff := by simpa [workerStep, hit, hr] using h
          refine .local rfl rfl rfl ?_ (fun _ => by simp)
          rw [hflight]
          simp
  | transfer ts =>
      rcases ts with - | ⟨it, its⟩
      · obtain rfl : _ = eff := by simpa [workerStep] using h
        exact .quiet rfl rfl rfl rfl rfl
      · rcases hr : ans.raises with - | e
        · obtain rfl : _ = eff := by simpa [workerStep, hr] using h
          refine .quiet rfl rfl rfl rfl ?_
          simp [WorkerPc.inFlight]
        · -- one exception fails the whole batch
          obtain rfl : _ = eff := by simpa [workerStep, hr] using h
          refine .local rfl rfl rfl ?_ (fun _ => by simp)
          simp [WorkerPc.inFlight]
  | addReport ts =>
      rcases ts with - | ⟨it, its⟩ <;>
      · obtain rfl : _ = eff := by simpa [workerStep] using h
        exact .quiet rfl rfl rfl rfl rfl
  | symlink its =>
      rcases its with - | ⟨it, its⟩
      · obtain rfl : _ = eff := by simpa [workerStep] using h
        exact .quiet rfl rfl rfl rfl rfl
      · rcases hr : symlinkError it ans with - | e
        · obtain rfl : _ = eff := by simpa [workerStep, hr] using h
          refine .quiet rfl rfl rfl rfl ?_
          simp [WorkerPc.inFlight]
        · obtain rfl : _ = eff := by simpa [workerStep, hr] using h
          refine .local rfl rfl rfl ?_ (fun _ => by simp)
          simp [WorkerPc.inFlight]
  | exited => simp [workerStep] at h
  | died e => simp [workerStep] at h

/-! ### Traffic is kept by every step -/

/-- What is pending is counted once, wherever it is. -/
theorem Traffic.of_pending {s' : SyncState} (h : m.Traffic s)
    (hb : (s'.enqueued : Multiset (OperationType × Item)) =
      s'.done + s'.failed + held s'.threads + queueOps s'.fileQueue)
    (hthreads : s'.threads = s.threads) (hpending : pending s' = pending s)
    (hpc : s.producerPc = .finished → s'.producerPc = .finished)
    (hprod : m.Producing s') (hshut : s.shutdown = true → s'.shutdown = true) : m.Traffic s' := by
  have hdrained : Drained s → Drained s' := fun hd => ⟨hpc hd.1, by rw [hpending]; exact hd.2⟩
  refine ⟨hb, by rw [hpending]; exact h.queue, fun hstop => ?_, hprod, fun b hmem => ?_,
    fun hmem => ?_⟩
  · exact hpc (h.stops (by rwa [hpending] at hstop))
  · obtain ⟨rfl, hd⟩ := h.held_stop b (by rwa [hthreads] at hmem)
    exact ⟨rfl, hdrained hd⟩
  · exact (h.exited (by rwa [hthreads] at hmem)).imp hshut hdrained

/-- Before the producer has finished no sentinel is around. -/
theorem Traffic.no_stop (h : m.Traffic s) (hpc : s.producerPc ≠ .finished) :
    (∀ b ∈ s.fileQueue, b.operation ≠ .stop) ∧ (∀ b, .stop b ∉ s.threads) ∧
      (.exited ∈ s.threads → s.shutdown = true) := by
  refine ⟨fun b hb hstop => ?_, fun b hmem => ?_, fun hmem => ?_⟩
  · exact hpc (h.stops ⟨b, List.mem_append_left _ hb, hstop⟩)
  · exact hpc (h.held_stop b hmem).2.1
  · exact (h.exited hmem).resolve_right fun hd => hpc hd.1

/-- The `finally` block of the producer. -/
theorem Traffic.finishProducer (h : m.Traffic s) (hpc : s.producerPc ≠ .finished)
    {st : ProducerState} {ops : List (OperationType × Item)} (hst : m.producer.Enqueued st ops)
    {error : Option PyStr}
    (hopens : s.enqueued ++ ops <+:
      m.producer.plan m.producer.sourceEntries m.producer.targetEntries)
    (hall : error = none → s.shutdown = false → s.enqueued ++ ops =
      m.producer.plan m.producer.sourceEntries m.producer.targetEntries) :
    m.Traffic (m.finishProducer s st error) := by
  obtain ⟨hqueue, hstop, hexited⟩ := h.no_stop hpc
  obtain ⟨hf, hempty⟩ := flushBatch_spec hst.ops_eq hst.queue_ok hst.current_lt.le hst.current_ok
  have hops : queueOps (st.flushBatch.fileQueue ++
      List.replicate m.producer.numWorkers stopBatch) = ops := by
    rw [queueOps_append, queueOps_stops, List.append_nil, ← hf.ops_eq, ProducerState.ops, hempty,
      queueOps]
    rcases st.flushBatch.currentBatchType <;> simp
  refine ⟨h.balance, ?_, fun _ => rfl, ⟨?_, ?_⟩, fun b hmem => absurd hmem (hstop b),
    fun hmem => Or.inl (hexited hmem)⟩
  · show QueueOk (s.fileQueue ++ (st.flushBatch.fileQueue ++ _))
    rw [← List.append_assoc]
    refine .of_batches (fun b hb => ?_) _
    rcases List.mem_append.mp hb with hb | hb
    · exact hqueue b hb
    · exact (hf.queue_ok b hb).not_stop
  · show s.enqueued ++ queueOps (st.flushBatch.fileQueue ++ _) <+: _
    rwa [hops]
  · show error = none → s.shutdown = false →
      s.enqueued ++ queueOps (st.flushBatch.fileQueue ++ _) = _
    rwa [hops]

/-- What a step of the producer can be. -/
theorem producerStep_cases (h : m.producerStep s = some s') :
    (∃ b rest, s.producer.fileQueue = b :: rest ∧ s' = { s with
        producer := { s.producer with fileQueue := rest }
        fileQueue := s.fileQueue ++ [b]
        enqueued := s.enqueued ++ b.ops }) ∨
    (∃ src tgt, s.producerPc = .start ∧ m.producer.createSourceIterator.next = .ok src ∧
      m.producer.createTargetIterator.next = .ok tgt ∧
      s' = { s with producerPc := .loop src tgt }) ∨
    (∃ e, s.producerPc = .start ∧ s' = m.finishProducer s s.producer (some e)) ∨
    (∃ src tgt, s.producerPc = .loop src tgt ∧
      (src.file = none ∧ tgt.file = none ∨ s.shutdown = true) ∧
      s' = m.finishProducer s s.producer none) ∨
    (∃ src tgt st e, s.producerPc = .loop src tgt ∧
      m.producer.round src tgt s.producer = (st, .error e) ∧
      s' = m.finishProducer s st (some e)) ∨
    (∃ src tgt st src' tgt', s.producerPc = .loop src tgt ∧ s.producer.fileQueue = [] ∧
      m.producer.round src tgt s.producer = (st, .ok (src', tgt')) ∧
      s' = { s with producerPc := .loop src' tgt', producer := st }) := by
  rcases hq : s.producer.fileQueue with - | ⟨b, rest⟩
  · rcases hpc : s.producerPc with - | ⟨src, tgt⟩ | -
    -- one of the listings raises at once
    · rcases hsrc : m.producer.createSourceIterator.next with e | src
      · simp only [producerStep, hq, hpc, hsrc, Option.some.injEq] at h
        exact Or.inr (Or.inr (Or.inl ⟨e, rfl, h.symm⟩))
      · rcases htgt : m.producer.createTargetIterator.next with e | tgt
        · simp only [producerStep, hq, hpc, hsrc, htgt, Option.some.injEq] at h
          exact Or.inr (Or.inr (Or.inl ⟨e, rfl, h.symm⟩))
        -- both have begun
        · simp only [producerStep, hq, hpc, hsrc, htgt, Option.some.injEq] at h
          exact Or.inr (Or.inl ⟨src, tgt, rfl, rfl, rfl, h.symm⟩)
    · simp only [producerStep, hq, hpc] at h
      split at h
      -- both are at their end
      · rename_i hend
        exact Or.inr (Or.inr (Or.inr (Or.inl
          ⟨src, tgt, rfl, Or.inl hend, (Option.some.inj h).symm⟩)))
      split at h
      -- told to shut down
      · rename_i hshut
        exact Or.inr (Or.inr (Or.inr (Or.inl
          ⟨src, tgt, rfl, Or.inr hshut, (Option.some.inj h).symm⟩)))
      split at h
      -- a round raises
      · rename_i st e hr
        exact Or.inr (Or.inr (Or.inr (Or.inr (Or.inl
          ⟨src, tgt, st, e, rfl, hr, (Option.some.inj h).symm⟩))))
      -- a round is done
      · rename_i st src' tgt' hr
        exact Or.inr (Or.inr (Or.inr (Or.inr (Or.inr
          ⟨src, tgt, st, src', tgt', rfl, rfl, hr, (Option.some.inj h).symm⟩))))
    · simp [producerStep, hq, hpc] at h
  -- a batch is on its way to the file queue
  · simp only [producerStep, hq, Option.some.injEq] at h
    exact Or.inl ⟨b, rest, rfl, h.symm⟩

/-- Taking the first batch off the outgoing ones. -/
theorem enqueued_put {p : ProducerThread} {st : ProducerState} {b : OperationBatch}
    {rest : List OperationBatch} {ops : List (OperationType × Item)} (h : p.Enqueued st ops)
    (hq : st.fileQueue = b :: rest) :
    ∃ ops', ops = b.ops ++ ops' ∧ p.Enqueued { st with fileQueue := rest } ops' := by
  refine ⟨_, ?_, ⟨rfl, fun b' hb' => h.queue_ok b' ?_, h.current_lt, h.current_ok⟩⟩
  · rw [← h.ops_eq, ProducerState.ops, hq, ProducerState.ops, List.flatMap_cons, List.append_assoc]
  · rw [hq]; exact List.mem_cons_of_mem b hb'

/-- A batch that is put is one fewer to put. -/
theorem Producing.put (h : m.Producing s) {b : OperationBatch} {rest : List OperationBatch}
    (hq : s.producer.fileQueue = b :: rest) :
    m.Producing { s with
      producer := { s.producer with fileQueue := rest }
      fileQueue := s.fileQueue ++ [b]
      enqueued := s.enqueued ++ b.ops } := by
  rcases hpc : s.producerPc with - | ⟨src, tgt⟩ | -
  · simp only [Producing, hpc] at h
    rw [h.1] at hq
    cases hq
  · simp only [Producing, hpc] at h ⊢
    obtain ⟨hsrc, htgt, ops, hops, hplan⟩ := h
    obtain ⟨ops', rfl, hops'⟩ := enqueued_put hops hq
    exact ⟨hsrc, htgt, ops', hops', by rw [← hplan]; simp⟩
  · simp only [Producing, hpc] at h ⊢
    rw [hq, show queueOps (b :: rest) = b.ops ++ queueOps rest from rfl, ← List.append_assoc] at h
    exact h

/-- The producer loses no operation. -/
theorem producerStep_traffic (h : m.Traffic s) (hs : m.producerStep s = some s') :
    m.Traffic s' := by
  have hprod := h.producing
  rcases producerStep_cases hs with ⟨b, rest, hq, rfl⟩ | ⟨src, tgt, hpc, hsrc, htgt, rfl⟩ |
    ⟨e, hpc, rfl⟩ | ⟨src, tgt, hpc, hend, rfl⟩ | ⟨src, tgt, st, e, hpc, hr, rfl⟩ |
    ⟨src, tgt, st, src', tgt', hpc, hq, hr, rfl⟩
  · -- a batch moves from the producer to the queue
    refine h.of_pending ?_ rfl ?_ id (hprod.put hq) id
    · have hops : ((s.enqueued ++ b.ops : List (OperationType × Item)) :
          Multiset (OperationType × Item)) = s.enqueued + b.ops := rfl
      show ((s.enqueued ++ b.ops : List (OperationType × Item)) :
        Multiset (OperationType × Item)) = _
      rw [hops, h.balance, coe_queueOps_concat, add_assoc]
    · simp [pending, hq]
  · obtain ⟨hes, hvs⟩ := Iter.next_entries hsrc
    obtain ⟨het, hvt⟩ := Iter.next_entries htgt
    simp only [Producing, hpc] at hprod
    obtain ⟨hinit, hnil⟩ := hprod
    refine h.of_pending h.balance rfl rfl (fun hf => ?_) ⟨hvs, hvt, [], ?_, ?_⟩ id
    · rw [hpc] at hf; cases hf
    · show m.producer.Enqueued s.producer []
      rw [hinit]; exact enqueued_init
    · show s.enqueued ++ [] ++ _ = _
      rw [hnil, hes, het]
      rfl
  · -- the first `next` raised: nothing has been planned
    simp only [Producing, hpc] at hprod
    obtain ⟨hinit, hnil⟩ := hprod
    have hst : m.producer.Enqueued s.producer [] := by
      rw [hinit]
      exact enqueued_init
    refine h.finishProducer (by rw [hpc]; simp) hst ?_ (fun he => by cases he)
    rw [hnil]
    exact List.nil_prefix
  · simp only [Producing, hpc] at hprod
    obtain ⟨hsrc, htgt, ops, hops, hplan⟩ := hprod
    refine h.finishProducer (by rw [hpc]; simp) hops ⟨_, hplan⟩ (fun _ hshut => ?_)
    -- without a shutdown the loop ended because both listings did
    obtain ⟨hs, ht⟩ := hend.resolve_right (by simp [hshut])
    rw [← hplan, hsrc.entries_nil hs, htgt.entries_nil ht, plan_nil, List.append_nil]
  · -- a listing raised in the round: what is enqueued opens the plan
    simp only [Producing, hpc] at hprod
    obtain ⟨hsrc, htgt, ops, hops, hplan⟩ := hprod
    obtain ⟨w, hw⟩ := round_spec hops hsrc htgt
    rw [hr] at hw
    obtain ⟨rest, hrest⟩ := hw.opens
    refine h.finishProducer (by rw [hpc]; simp) hw.enqueued ⟨rest, ?_⟩ (fun he => by cases he)
    rw [← hplan, ← hrest]
    simp
  · simp only [Producing, hpc] at hprod
    obtain ⟨hsrc, htgt, ops, hops, hplan⟩ := hprod
    obtain ⟨w, hw⟩ := round_spec hops hsrc htgt
    rw [hr] at hw
    obtain ⟨hsrc', htgt', hrest⟩ := hw.rest src' tgt' rfl
    obtain ⟨hqueue, hstop, hexited⟩ := h.no_stop (by rw [hpc]; simp)
    have hreal : ∀ b ∈ s.fileQueue ++ st.fileQueue, b.operation ≠ .stop := by
      intro b hb
      rcases List.mem_append.mp hb with hb | hb
      · exact hqueue b hb
      · exact (hw.enqueued.queue_ok b hb).not_stop
    refine ⟨h.balance, ?_, ?_, ⟨hsrc', htgt', ops ++ w, hw.enqueued, ?_⟩,
      fun b hmem => absurd hmem (hstop b), fun hmem => Or.inl (hexited hmem)⟩
    · have := QueueOk.of_batches hreal 0
      rwa [List.replicate_zero, List.append_nil] at this
    · rintro ⟨b, hb, hop⟩
      exact absurd hop (hreal b hb)
    · show s.enqueued ++ (ops ++ w) ++ _ = _
      rw [← hplan, hrest]
      simp

/-- The balance after a thread has changed from `pc` to `eff.pc`. -/
theorem balance_applyEffect {i : ℕ} {pc : WorkerPc} {ans : Answer} {eff : Effect}
    (hpc : s.threads[i]? = some pc) (heff : EffectOk pc s.shutdown s.fileQueue ans eff)
    (h : (s.enqueued : Multiset (OperationType × Item)) =
      s.done + s.failed + held s.threads + queueOps s.fileQueue) :
    (s.enqueued : Multiset (OperationType × Item)) =
      ((s.done ++ eff.done : List (OperationType × Item)) : Multiset (OperationType × Item)) +
        ((s.failed ++ eff.failed : List (OperationType × Item)) : Multiset (OperationType × Item)) +
        held (s.threads.set i eff.pc) + queueOps eff.fileQueue := by
  obtain ⟨l₁, l₂, hl, hset⟩ := Run.set_eq_append hpc
  have hflight := heff.balance
  rw [h, hl, ← hl, hset, hl, held_append_cons, held_append_cons, ← Multiset.coe_add,
    ← Multiset.coe_add]
  calc (s.done : Multiset (OperationType × Item)) + s.failed +
          (held l₁ + pc.inFlight + held l₂) + queueOps s.fileQueue
      = s.done + s.failed + (held l₁ + held l₂) + (pc.inFlight + queueOps s.fileQueue) := by abel
    _ = s.done + s.failed + (held l₁ + held l₂) +
          (eff.done + eff.failed + eff.pc.inFlight + queueOps eff.fileQueue) := by rw [hflight]
    _ = _ := by abel

/-- A worker loses no operation. -/
theorem workerStep_traffic (h : m.Traffic s) {i : ℕ} {pc : WorkerPc} {ans : Answer} {eff : Effect}
    (hpc : s.threads[i]? = some pc) (heff : EffectOk pc s.shutdown s.fileQueue ans eff) :
    m.Traffic (applyEffect s i eff) := by
  have hmem : pc ∈ s.threads := List.mem_of_getElem? hpc
  -- a thread that puts a batch back puts a sentinel back
  have hdrained : Drained s → Drained (applyEffect s i eff) := by
    rintro ⟨hfin, hall⟩
    refine ⟨hfin, fun b hb => ?_⟩
    rcases List.mem_append.mp hb with hb | hb
    · rcases heff.queue with hq | ⟨b₀, hq⟩ | ⟨b₀, rfl, hq⟩
      · exact hall b (List.mem_append_left _ (hq ▸ hb))
      · exact hall b (List.mem_append_left _ (hq ▸ List.mem_cons_of_mem b₀ hb))
      · have hb : b ∈ s.fileQueue ++ [b₀] := hq ▸ hb
        rcases List.mem_append.mp hb with hb | hb
        · exact hall b (List.mem_append_left _ hb)
        · rw [List.mem_singleton.mp hb]
          exact (h.held_stop b₀ hmem).1
    · exact hall b (List.mem_append_right _ hb)
  have hqueue : QueueOk (pending (applyEffect s i eff)) ∧
      ((∃ b ∈ pending (applyEffect s i eff), b.operation = .stop) → s.producerPc = .finished) := by
    rcases heff.queue with hq | ⟨b₀, hq⟩ | ⟨b₀, rfl, hq⟩
    · have hp : pending (applyEffect s i eff) = pending s := by
        rw [pending, pending, ← hq]; rfl
      rw [hp]
      exact ⟨h.queue, h.stops⟩
    · have hp : pending s = b₀ :: pending (applyEffect s i eff) := by
        rw [pending, hq]; rfl
      refine ⟨(hp ▸ h.queue).tail, fun ⟨b, hb, hop⟩ => h.stops ⟨b, ?_, hop⟩⟩
      rw [hp]; exact List.mem_cons_of_mem b₀ hb
    · have hd := hdrained (h.held_stop b₀ hmem).2
      exact ⟨.of_all_stop hd.2, fun _ => hd.1⟩
  refine ⟨balance_applyEffect hpc heff h.balance, hqueue.1, hqueue.2, h.producing, ?_, ?_⟩
  · intro b hb
    rcases List.mem_or_eq_of_mem_set hb with hb | hb
    · exact ⟨(h.held_stop b hb).1, hdrained (h.held_stop b hb).2⟩
    · -- the thread has just taken a sentinel off the queue
      obtain ⟨hq, hop⟩ := heff.stop b hb.symm
      have hp : pending s = b :: pending (applyEffect s i eff) := by
        rw [pending, hq]; rfl
      have hall := (hp ▸ h.queue).all_stop hop
      refine ⟨hall b List.mem_cons_self, h.stops ⟨b, ?_, hop⟩, fun b' hb' => ?_⟩
      · rw [hp]; exact List.mem_cons_self
      · exact hall b' (List.mem_cons_of_mem b hb')
  · intro hex
    rcases List.mem_or_eq_of_mem_set hex with hex | hex
    · exact (h.exited hex).imp id hdrained
    · rcases heff.exited hex.symm with hshut | ⟨b, rfl⟩
      · exact Or.inl hshut
      · exact Or.inr (hdrained (h.held_stop b hmem).2)

/-! ### Failures are reported -/

/-- An error is on its way to the caller. -/
def Reported (s : SyncState) : Prop :=
  (∃ e, some e ∈ s.errorQueue) ∨ s.errorMonitor.errors ≠ [] ∨ s.errorMonitor.error ≠ none

/-- The invariant of the error reports. -/
structure Reporting (m : SyncManager) (s : SyncState) : Prop where
  shutdown : s.shutdown = true → s.errorMonitor.errors ≠ []
  reported : s.failed ≠ [] → Reported s ∨ ∃ e, .died e ∈ s.threads
  died : ∀ e, .died e ∈ s.threads → m.numWorkerThreads ≤ 1

/-- `delete_many` raises in this step. -/
def DeleteManyRaises (s : SyncState) : Action → Prop
  | .worker i ans => (∃ b, s.threads[i]? = some (.delete b)) ∧ ans.raises ≠ none
  | _ => False

/-- The condition on a step: the worker loop runs in the calling thread, or
`delete_many` does not raise. -/
def DeletesSafely (m : SyncManager) (s : SyncState) (a : Action) : Prop :=
  m.numWorkerThreads ≤ 1 ∨ ¬ DeleteManyRaises s a

/-- A worker that deletes safely leaves no failure unreported. -/
theorem workerStep_reporting (h : m.Reporting s) {i : ℕ} {pc : WorkerPc} {ans : Answer}
    {eff : Effect} (hok : m.DeletesSafely s (.worker i ans)) (hpc : s.threads[i]? = some pc)
    (heff : EffectOk pc s.shutdown s.fileQueue ans eff) : m.Reporting (applyEffect s i eff) := by
  have hi : i < s.threads.length := (List.getElem?_eq_some_iff.mp hpc).1
  refine ⟨h.shutdown, fun hfail => ?_, fun e he => ?_⟩
  · by_cases hnew : eff.failed = []
    · have hold : s.failed ≠ [] := fun hs => hfail (by rw [applyEffect, hs, hnew]; rfl)
      rcases h.reported hold with (⟨e, he⟩ | hrep) | ⟨e, he⟩
      · exact Or.inl (Or.inl ⟨e, List.mem_append_left _ he⟩)
      · exact Or.inl (Or.inr hrep)
      · -- a thread that died stays where it is
        refine Or.inr ⟨e, ?_⟩
        obtain ⟨l₁, l₂, hl, hset⟩ := Run.set_eq_append hpc
        have hne : WorkerPc.died e ≠ pc := by
          rintro rfl
          exact absurd heff.alive (by simp [WorkerPc.ended])
        have he' : WorkerPc.died e ∈ l₁ ++ eff.pc :: l₂ := by
          rw [hl] at he
          rcases List.mem_append.mp he with he | he
          · exact List.mem_append_left _ he
          · rcases List.mem_cons.mp he with he | he
            · exact absurd he hne
            · exact List.mem_append_right _ (List.mem_cons_of_mem _ he)
        rw [← hset] at he'
        exact he'
    · rcases heff.reported hnew with herr | ⟨e, he⟩
      · obtain ⟨err, errs, herr⟩ := List.exists_cons_of_ne_nil herr
        refine Or.inl (Or.inl ⟨err, List.mem_append_right _ ?_⟩)
        rw [herr]
        exact List.mem_cons_self
      · exact Or.inr ⟨e, List.mem_iff_getElem?.mpr ⟨i, by
          rw [applyEffect, List.getElem?_set_self hi, he]⟩⟩
  · rcases List.mem_or_eq_of_mem_set he with he | he
    · exact h.died e he
    · obtain ⟨⟨b, rfl⟩, hraise⟩ := heff.died e he.symm
      refine hok.resolve_right fun hno => hno ⟨⟨b, hpc⟩, ?_⟩
      rw [hraise]
      simp

/-- The steps of the error thread. -/
theorem errorStep_cases {raises : Option PyStr} (h : errorStep s raises = some s') :
    s.errorMonitor.stopped = false ∧ ∃ info q, s.errorQueue = info :: q ∧
      ((∃ e, s' = { s with
          errorQueue := q
          errorMonitor := { s.errorMonitor with error := some e, stopped := true } }) ∨
       (info = none ∧ s' = { s with
          errorQueue := q, errorMonitor := { s.errorMonitor with stopped := true } }) ∨
       (∃ err, info = some err ∧ s' = { s with
          errorQueue := q
          errorMonitor := { s.errorMonitor with errors := s.errorMonitor.errors ++ [err] }
          shutdown := s.shutdown || (s.errorMonitor.errors ++ [err]).length == 1 })) := by
  unfold errorStep at h
  split at h
  · cases h
  rename_i hrun
  split at h
  · cases h
  rename_i info q hq
  refine ⟨by simpa using hrun, info, q, hq, ?_⟩
  rcases raises with - | e
  · rcases info with - | err
    · exact Or.inr (Or.inl ⟨rfl, (Option.some.inj h).symm⟩)
    · exact Or.inr (Or.inr ⟨err, rfl, (Option.some.inj h).symm⟩)
  · exact Or.inl ⟨e, (Option.some.inj h).symm⟩

/-- The error thread leaves no failure unreported. -/
theorem errorStep_reporting (h : m.Reporting s) {raises : Option PyStr}
    (hs : errorStep s raises = some s') : m.Reporting s' := by
  obtain ⟨-, info, q, hq, ⟨e, rfl⟩ | ⟨rfl, rfl⟩ | ⟨err, rfl, rfl⟩⟩ := errorStep_cases hs
  · exact ⟨h.shutdown, fun _ => Or.inl (Or.inr (Or.inr (by simp))), h.died⟩
  · refine ⟨h.shutdown, fun hfail => ?_, h.died⟩
    rcases h.reported hfail with (⟨e, he⟩ | hrep) | hdied
    · rw [hq] at he
      exact Or.inl (Or.inl ⟨e, by simpa using he⟩)
    · exact Or.inl (Or.inr hrep)
    · exact Or.inr hdied
  · have hne : s.errorMonitor.errors ++ [err] ≠ [] := by simp
    exact ⟨fun _ => hne, fun _ => Or.inl (Or.inr (Or.inl hne)), h.died⟩

/-! ### The phases of the calling thread -/

/-- How far `sync_objects` has come; `raised` counts as nowhere. -/
def MainPc.rank : MainPc → ℕ
  | .workers => 0
  | .joinProducer => 1
  | .stopResults => 2
  | .joinResults => 3
  | .stopErrors => 4
  | .joinErrors => 5
  | .commit => 6
  | .check => 7
  | .returned => 8
  | .raised => 0

/-- What the calling thread has waited for. -/
structure Phases (m : SyncManager) (s : SyncState) : Prop where
  started : s.threads ≠ []
  joined : 1 ≤ MainPc.rank s.main → (∀ pc ∈ s.threads, pc.ended = true) ∧
    (m.numWorkerThreads ≤ 1 → ∀ e, .died e ∉ s.threads)
  producer : 2 ≤ MainPc.rank s.main → s.producerPc = .finished ∧ s.producer.fileQueue = []
  results : 4 ≤ MainPc.rank s.main → s.resultStopped = true
  errors_open : s.main ≠ .raised → MainPc.rank s.main < 5 →
    (∃ errs : List ErrorInfo, s.errorQueue = errs.map some) ∧
    (s.errorMonitor.stopped = true → s.errorMonitor.error ≠ none)
  errors_closed : 5 ≤ MainPc.rank s.main →
    if s.errorMonitor.stopped = true then s.errorQueue = [] ∨ s.errorMonitor.error ≠ none
    else ∃ errs : List ErrorInfo, s.errorQueue = errs.map some ++ [none]
  errors : 6 ≤ MainPc.rank s.main → s.errorMonitor.stopped = true
  returned : 8 ≤ MainPc.rank s.main → hasErrors s = false

/-- The producer keeps the phases. -/
theorem producerStep_phases (h : m.Phases s) (hs : m.producerStep s = some s') :
    m.Phases s' := by
  -- the producer does nothing once it has been joined
  have hearly : ¬ 2 ≤ MainPc.rank s.main := by
    intro hr
    obtain ⟨hpc, hq⟩ := h.producer hr
    simp [producerStep, hpc, hq] at hs
  have hlate : ∀ {n}, 2 ≤ n → n ≤ MainPc.rank s.main → False := fun h2 hn => hearly (h2.trans hn)
  rcases producerStep_cases hs with ⟨_, _, _, rfl⟩ | ⟨_, _, _, _, _, rfl⟩ | ⟨_, _, rfl⟩ |
    ⟨_, _, _, _, rfl⟩ | ⟨_, _, _, _, _, _, rfl⟩ | ⟨_, _, _, _, _, _, _, _, rfl⟩
  all_goals
    exact ⟨h.started, h.joined, fun hr => absurd hr hearly, h.results, h.errors_open,
      h.errors_closed, h.errors, fun hr => (hlate (by omega) hr).elim⟩

/-- A worker keeps the phases. -/
theorem workerStep_phases (h : m.Phases s) {i : ℕ} {pc : WorkerPc} {ans : Answer}
    {eff : Effect} (hpc : s.threads[i]? = some pc)
    (heff : EffectOk pc s.shutdown s.fileQueue ans eff) : m.Phases (applyEffect s i eff) := by
  -- a thread that takes a step has not been joined
  have hearly : ¬ 1 ≤ MainPc.rank s.main := by
    intro hr
    have hend := (h.joined hr).1 pc (List.mem_of_getElem? hpc)
    rw [heff.alive] at hend
    cases hend
  have hlate : ∀ {n}, 1 ≤ n → n ≤ MainPc.rank s.main → False := fun h1 hn => hearly (h1.trans hn)
  refine ⟨?_, fun hr => absurd hr hearly, fun hr => (hlate (by omega) hr).elim,
    fun hr => (hlate (by omega) hr).elim, fun hne hlt => ?_,
    fun hr => (hlate (by omega) hr).elim, fun hr => (hlate (by omega) hr).elim,
    fun hr => (hlate (by omega) hr).elim⟩
  · show s.threads.set i eff.pc ≠ []
    rw [Ne, List.set_eq_nil_iff]
    exact h.started
  · obtain ⟨⟨errs, herrs⟩, hstopped⟩ := h.errors_open hne hlt
    refine ⟨⟨errs ++ eff.errors, ?_⟩, hstopped⟩
    rw [List.map_append, ← herrs]
    rfl

/-- The result monitor touches its queue and itself. -/
theorem resultStep_frame {raises : Option PyStr} (h : m.resultStep s raises = some s') :
    s.resultStopped = false ∧ ∃ q st stopped,
      s' = { s with resultQueue := q, resultMonitor := st, resultStopped := stopped } := by
  unfold resultStep at h
  split at h
  · cases h
  rename_i hrun
  refine ⟨by simpa using hrun, ?_⟩
  dsimp only at h
  split at h
  · cases h
  · exact ⟨_, _, _, (Option.some.inj h).symm⟩
  · exact ⟨_, _, _, (Option.some.inj h).symm⟩
  · exact ⟨_, _, _, (Option.some.inj h).symm⟩

/-- The result thread keeps the phases. -/
theorem resultStep_phases (h : m.Phases s) {raises : Option PyStr}
    (hs : m.resultStep s raises = some s') : m.Phases s' := by
  obtain ⟨hrun, q, st, stopped, rfl⟩ := resultStep_frame hs
  have hearly : ¬ 4 ≤ MainPc.rank s.main := by
    intro hr
    rw [h.results hr] at hrun
    cases hrun
  have hlate : ∀ {n}, 4 ≤ n → n ≤ MainPc.rank s.main → False := fun h4 hn => hearly (h4.trans hn)
  exact ⟨h.started, h.joined, h.producer, fun hr => absurd hr hearly, h.errors_open,
    h.errors_closed, h.errors, fun hr => (hlate (by omega) hr).elim⟩

/-- The error thread keeps the phases. -/
theorem errorStep_phases (h : m.Phases s) {raises : Option PyStr}
    (hs : errorStep s raises = some s') : m.Phases s' := by
  obtain ⟨hrun, info, q, hq, hcases⟩ := errorStep_cases hs
  have hearly : ¬ 6 ≤ MainPc.rank s.main := by
    intro hr
    rw [h.errors hr] at hrun
    cases hrun
  have hlate : ∀ {n}, 6 ≤ n → n ≤ MainPc.rank s.main → False := fun h6 hn => hearly (h6.trans hn)
  have hopen : s.main ≠ .raised → MainPc.rank s.main < 5 →
      info ≠ none ∧ ∃ errs : List ErrorInfo, q = errs.map some := by
    intro hne hlt
    obtain ⟨errs, herrs⟩ := (h.errors_open hne hlt).1
    rw [hq] at herrs
    rcases errs with - | ⟨err, errs⟩
    · cases herrs
    · obtain ⟨rfl, rfl⟩ := List.cons.inj herrs
      exact ⟨by simp, errs, rfl⟩
  have hclosed : 5 ≤ MainPc.rank s.main →
      ∃ errs : List ErrorInfo, info :: q = errs.map some ++ [none] := by
    intro hr
    have := h.errors_closed hr
    rwa [if_neg (by simp [hrun]), hq] at this
  rcases hcases with ⟨e, rfl⟩ | ⟨rfl, rfl⟩ | ⟨err, rfl, rfl⟩
  · exact ⟨h.started, h.joined, h.producer, h.results,
      fun hne hlt => ⟨(hopen hne hlt).2, fun _ => by simp⟩,
      fun _ => by rw [if_pos rfl]; exact Or.inr (by simp),
      fun _ => rfl, fun hr => (hlate (by omega) hr).elim⟩
  · refine ⟨h.started, h.joined, h.producer, h.results,
      fun hne hlt => absurd rfl (hopen hne hlt).1, fun hr => ?_, fun _ => rfl,
      fun hr => (hlate (by omega) hr).elim⟩
    -- the sentinel is the last message
    rw [if_pos rfl]
    obtain ⟨errs, herrs⟩ := hclosed hr
    rcases errs with - | ⟨err, errs⟩
    · exact Or.inl (by simpa using herrs)
    · simp at herrs
  · refine ⟨h.started, h.joined, h.producer, h.results, fun hne hlt => ?_, fun hr => ?_,
      fun hr => (hlate (by omega) hr).elim, fun hr => (hlate (by omega) hr).elim⟩
    · exact ⟨(hopen hne hlt).2, fun hst => by rw [hrun] at hst; cases hst⟩
    · obtain ⟨errs, herrs⟩ := hclosed hr
      rw [if_neg (by simp [hrun])]
      rcases errs with - | ⟨err', errs⟩
      · simp at herrs
      · exact ⟨errs, (List.cons.inj herrs).2⟩

/-- The calling thread changes its own place and puts sentinels. -/
theorem mainStep_frame {raises : Option PyStr} (h : m.mainStep s raises = some s') :
    ∃ pc rq eq, s' = { s with main := pc, resultQueue := rq, errorQueue := s.errorQueue ++ eq } ∧
      (eq = [] ∨ eq = [none]) := by
  unfold mainStep at h
  split at h
  · split at h
    · split at h
      · exact ⟨_, _, [], by rw [List.append_nil]; exact (Option.some.inj h).symm, Or.inl rfl⟩
      · exact ⟨_, _, [], by rw [List.append_nil]; exact (Option.some.inj h).symm, Or.inl rfl⟩
    · cases h
  · split at h
    · exact ⟨_, _, [], by rw [List.append_nil]; exact (Option.some.inj h).symm, Or.inl rfl⟩
    · cases h
  · exact ⟨_, _, [], by rw [List.append_nil]; exact (Option.some.inj h).symm, Or.inl rfl⟩
  · split at h
    · exact ⟨_, _, [], by rw [List.append_nil]; exact (Option.some.inj h).symm, Or.inl rfl⟩
    · cases h
  · exact ⟨_, _, [none], (Option.some.inj h).symm, Or.inr rfl⟩
  · split at h
    · exact ⟨_, _, [], by rw [List.append_nil]; exact (Option.some.inj h).symm, Or.inl rfl⟩
    · cases h
  · split at h <;>
      exact ⟨_, _, [], by rw [List.append_nil]; exact (Option.some.inj h).symm, Or.inl rfl⟩
  · exact ⟨_, _, [], by rw [List.append_nil]; exact (Option.some.inj h).symm, Or.inl rfl⟩
  · cases h
  · cases h

/-- A sync that has raised keeps its threads. -/
theorem Phases.raise (h : m.Phases s) : m.Phases { s with main := .raised } where
  started := h.started
  joined := fun hr => absurd hr (by simp [MainPc.rank])
  producer := fun hr => absurd hr (by simp [MainPc.rank])
  results := fun hr => absurd hr (by simp [MainPc.rank])
  errors_open := fun hne => absurd rfl hne
  errors_closed := fun hr => absurd hr (by simp [MainPc.rank])
  errors := fun hr => absurd hr (by simp [MainPc.rank])
  returned := fun hr => absurd hr (by simp [MainPc.rank])

theorem MainPc.rank_inj {a b : MainPc} (ha : a ≠ .raised) (hb : b ≠ .raised)
    (h : MainPc.rank a = MainPc.rank b) : a = b := by
  cases a <;> cases b <;> first | rfl | contradiction

/-- What the calling thread waits for, or checks, in its present phase. -/
def Waited (m : SyncManager) (s : SyncState) : Prop :=
  match s.main with
  | .workers => (∀ pc ∈ s.threads, pc.ended = true) ∧
      (m.numWorkerThreads ≤ 1 → ∀ e, .died e ∉ s.threads)
  | .joinProducer => s.producerPc = .finished ∧ s.producer.fileQueue = []
  | .joinResults => s.resultStopped = true
  | .joinErrors => s.errorMonitor.stopped = true
  | .check => hasErrors s = false
  | _ => True

/-- Going on to the next phase. -/
theorem Phases.advance (h : m.Phases s) (hw : m.Waited s) {pc : MainPc} {rq : List ResultMsg}
    (hne : s.main ≠ .raised) (h4 : s.main ≠ .stopErrors)
    (hrank : MainPc.rank pc = MainPc.rank s.main + 1) :
    m.Phases { s with main := pc, resultQueue := rq } := by
  -- the phase left, from its number
  have hphase : ∀ pc : MainPc, pc ≠ .raised → MainPc.rank s.main = MainPc.rank pc → s.main = pc :=
    fun _ hpc => MainPc.rank_inj hne hpc
  have h4' : MainPc.rank s.main ≠ 4 := fun hr => h4 (hphase .stopErrors (by simp) hr)
  unfold Waited at hw
  refine ⟨h.started, fun _ => ?_, fun hr => ?_, fun hr => ?_, fun _ hlt => ?_, fun hr => ?_,
    fun hr => ?_, fun hr => ?_⟩
  · rcases Nat.eq_zero_or_pos (MainPc.rank s.main) with h0 | hpos
    · rwa [hphase .workers (by simp) h0] at hw
    · exact h.joined hpos
  · rcases Nat.lt_or_ge 1 (MainPc.rank s.main) with hlt | hge
    · exact h.producer hlt
    · have hr : MainPc.rank s.main = 1 := by simp only [hrank] at hr; omega
      rwa [hphase .joinProducer (by simp) hr] at hw
  · rcases Nat.lt_or_ge 3 (MainPc.rank s.main) with hlt | hge
    · exact h.results hlt
    · have hr : MainPc.rank s.main = 3 := by simp only [hrank] at hr; omega
      rwa [hphase .joinResults (by simp) hr] at hw
  · exact h.errors_open hne (by simp only [hrank] at hlt; omega)
  · exact h.errors_closed (by simp only [hrank] at hr; omega)
  · rcases Nat.lt_or_ge 5 (MainPc.rank s.main) with hlt | hge
    · exact h.errors hlt
    · have hr : MainPc.rank s.main = 5 := by simp only [hrank] at hr; omega
      rwa [hphase .joinErrors (by simp) hr] at hw
  · rcases Nat.lt_or_ge 7 (MainPc.rank s.main) with hlt | hge
    · exact h.returned hlt
    · have hr : MainPc.rank s.main = 7 := by simp only [hrank] at hr; omega
      rwa [hphase .check (by simp) hr] at hw

/-- Closing the error queue. -/
theorem Phases.stopErrors (h : m.Phases s) (hm : s.main = .stopErrors) :
    m.Phases { s with errorQueue := s.errorQueue ++ [none], main := .joinErrors } := by
  obtain ⟨⟨errs, herrs⟩, hstopped⟩ := h.errors_open (by simp [hm]) (by simp [hm, MainPc.rank])
  have hr : ∀ n ≤ 4, n ≤ MainPc.rank s.main := fun n hn => by rw [hm]; exact hn
  refine ⟨h.started, fun _ => h.joined (hr 1 (by decide)), fun _ => h.producer (hr 2 (by decide)),
    fun _ => h.results (hr 4 (by decide)), fun _ hlt => ?_, fun _ => ?_, fun h6 => ?_,
    fun h8 => ?_⟩
  · exact absurd hlt (by simp [MainPc.rank])
  · split
    · rename_i hst
      exact Or.inr (hstopped hst)
    · exact ⟨errs, by rw [← herrs]⟩
  · exact absurd h6 (by simp [MainPc.rank])
  · exact absurd h8 (by simp [MainPc.rank])

/-- The main thread keeps the phases. -/
theorem mainStep_phases (h : m.Phases s) {raises : Option PyStr}
    (hs : m.mainStep s raises = some s') : m.Phases s' := by
  rcases hm : s.main with - | - | - | - | - | - | - | - | - | - <;> simp only [mainStep, hm] at hs
  · -- the workers, of which a single one runs in the calling thread
    split at hs
    · rename_i hall
      split at hs
      · rw [← Option.some.inj hs]
        exact h.raise
      · rename_i hdied
        rw [← Option.some.inj hs]
        refine h.advance ?_ (by simp [hm]) (by simp [hm]) (by rw [hm]; rfl)
        simp only [Waited, hm]
        refine ⟨by simpa using hall, fun hone e he => hdied ⟨hone, ?_⟩⟩
        exact List.any_eq_true.mpr ⟨_, he, rfl⟩
    · cases hs
  · -- `producer_thread.join()`
    split at hs
    · rename_i hpc hq
      rw [← Option.some.inj hs]
      refine h.advance ?_ (by simp [hm]) (by simp [hm]) (by rw [hm]; rfl)
      simp only [Waited, hm]
      exact ⟨hpc, hq⟩
    · cases hs
  · rw [← Option.some.inj hs]
    exact h.advance (by simp [Waited, hm]) (by simp [hm]) (by simp [hm]) (by rw [hm]; rfl)
  · split at hs
    · rename_i hst
      rw [← Option.some.inj hs]
      exact h.advance (by simpa [Waited, hm] using hst) (by simp [hm]) (by simp [hm])
        (by rw [hm]; rfl)
    · cases hs
  · -- after the sentinel on the error queue nothing more is put there
    rw [← Option.some.inj hs]
    exact h.stopErrors hm
  · split at hs
    · rename_i hst
      rw [← Option.some.inj hs]
      exact h.advance (by simpa [Waited, hm] using hst) (by simp [hm]) (by simp [hm])
        (by rw [hm]; rfl)
    · cases hs
  · split at hs
    · rw [← Option.some.inj hs]
      exact h.raise
    · rw [← Option.some.inj hs]
      exact h.advance (by simp [Waited, hm]) (by simp [hm]) (by simp [hm]) (by rw [hm]; rfl)
  · rcases herr : hasErrors s with - | - <;> rw [herr] at hs <;> rw [← Option.some.inj hs]
    · exact h.advance (by simpa [Waited, hm] using herr) (by simp [hm]) (by simp [hm])
        (by rw [hm]; rfl)
    · exact h.raise
  · cases hs
  · cases hs

/-! ### Whole runs -/

/-- The invariant of a sync. -/
structure Inv (m : SyncManager) (s : SyncState) : Prop where
  traffic : m.Traffic s
  reporting : m.Reporting s
  phases : m.Phases s

/-- The invariant at the start. -/
theorem inv_init (m : SyncManager) : m.Inv m.init where
  traffic := by
    refine ⟨?_, ⟨List.Pairwise.nil, by simp [pending, init]⟩, by simp [pending, init],
      ⟨rfl, rfl⟩, by simp [init], by simp [init]⟩
    have hheld : ∀ n, held (List.replicate n .loop) = 0 := by
      intro n
      simp [held, WorkerPc.inFlight]
    simp [init, hheld, queueOps]
  reporting := ⟨by simp [init], by simp [init], by simp [init]⟩
  phases := by
    refine ⟨by simp [init], ?_, ?_, ?_, fun _ _ => ⟨⟨[], rfl⟩, by simp [init]⟩, ?_, ?_, ?_⟩ <;>
      simp [init, MainPc.rank]

/-- **Every step keeps the invariant**, unless `delete_many` raises in a
thread of its own. -/
theorem step_inv {a : Action} (h : m.Inv s) (hok : m.DeletesSafely s a)
    (hs : m.step s a = some s') : m.Inv s' := by
  cases a with
  | producer =>
      have hrep : m.Reporting s' := by
        rcases producerStep_cases hs with ⟨_, _, _, rfl⟩ | ⟨_, _, _, _, _, rfl⟩ | ⟨_, _, rfl⟩ |
          ⟨_, _, _, _, rfl⟩ | ⟨_, _, _, _, _, _, rfl⟩ | ⟨_, _, _, _, _, _, _, _, rfl⟩
        all_goals exact ⟨h.reporting.shutdown, h.reporting.reported, h.reporting.died⟩
      exact ⟨producerStep_traffic h.traffic hs, hrep, producerStep_phases h.phases hs⟩
  | worker i ans =>
      simp only [step] at hs
      split at hs
      · cases hs
      · rename_i pc hpc
        obtain ⟨eff, heff, rfl⟩ := Option.map_eq_some_iff.mp hs
        have heff := workerStep_ok heff
        exact ⟨workerStep_traffic h.traffic hpc heff, workerStep_reporting h.reporting hok hpc heff,
          workerStep_phases h.phases hpc heff⟩
  | resultMonitor raises =>
      have hph := resultStep_phases h.phases hs
      obtain ⟨-, q, st, stopped, rfl⟩ := resultStep_frame hs
      have ht := h.traffic
      exact ⟨⟨ht.balance, ht.queue, ht.stops, ht.producing, ht.held_stop, ht.exited⟩,
        ⟨h.reporting.shutdown, h.reporting.reported, h.reporting.died⟩, hph⟩
  | errorMonitor raises =>
      refine ⟨?_, errorStep_reporting h.reporting hs, errorStep_phases h.phases hs⟩
      obtain ⟨-, info, q, -, ⟨e, rfl⟩ | ⟨-, rfl⟩ | ⟨err, -, rfl⟩⟩ := errorStep_cases hs
      · exact h.traffic.of_pending h.traffic.balance rfl rfl id h.traffic.producing id
      · exact h.traffic.of_pending h.traffic.balance rfl rfl id h.traffic.producing id
      · refine h.traffic.of_pending h.traffic.balance rfl rfl id ?_ (by simp +contextual)
        have hprod := h.traffic.producing
        rcases hpc : s.producerPc with - | ⟨src, tgt⟩ | - <;>
          simp only [Producing, hpc] at hprod ⊢
        · exact hprod
        · exact hprod
        · exact ⟨hprod.1, fun herr hshut => hprod.2 herr (by simp_all)⟩
  | main raises =>
      have hph := mainStep_phases h.phases hs
      obtain ⟨pc, rq, eq, rfl, heq⟩ := mainStep_frame hs
      refine ⟨h.traffic.of_pending h.traffic.balance rfl rfl id h.traffic.producing id,
        ⟨h.reporting.shutdown, fun hfail => ?_, h.reporting.died⟩, hph⟩
      -- the error queue only grows: `mainStep` puts its sentinel at the end
      rcases h.reporting.reported hfail with (⟨e, he⟩ | hrep) | hdied
      · exact Or.inl (Or.inl ⟨e, List.mem_append_left _ he⟩)
      · exact Or.inl (Or.inr hrep)
      · exact Or.inr hdied

/-- In a sync that has returned, all threads left on a sentinel. -/
theorem Inv.returned (h : m.Inv s) (hret : s.main = .returned) :
    s.failed = [] ∧ held s.threads = 0 ∧ queueOps s.fileQueue = [] ∧
      s.producerPc = .finished ∧ s.producer.fileQueue = [] ∧ s.producerError = none ∧
      s.shutdown = false := by
  have hr : ∀ n ≤ 8, n ≤ MainPc.rank s.main := fun n hn => by rw [hret]; exact hn
  obtain ⟨hended, hsingle⟩ := h.phases.joined (hr 1 (by decide))
  obtain ⟨hpc, houtbox⟩ := h.phases.producer (hr 2 (by decide))
  have hstopped := h.phases.errors (hr 6 (by decide))
  have hclean := h.phases.returned (hr 8 (by decide))
  simp only [hasErrors, Bool.or_eq_false_iff, Option.isSome_eq_false_iff, Option.isNone_iff_eq_none,
    Bool.not_eq_false_eq_eq_true, List.isEmpty_iff] at hclean
  obtain ⟨⟨⟨hperr, -⟩, hmerr⟩, herrs⟩ := hclean
  have hdied : ∀ e, .died e ∉ s.threads :=
    fun e he => hsingle (h.reporting.died e he) e he
  have hshut : s.shutdown = false := by
    by_contra hshut
    exact h.reporting.shutdown (by simpa using hshut) herrs
  -- the error monitor has read the whole queue, so a failure is in its list
  have hqueue : s.errorQueue = [] := by
    have := h.phases.errors_closed (hr 5 (by decide))
    rw [if_pos hstopped] at this
    exact this.resolve_right fun hne => hne hmerr
  have hfailed : s.failed = [] := by
    by_contra hne
    rcases h.reporting.reported hne with (⟨e, he⟩ | hne | hne) | ⟨e, he⟩
    · rw [hqueue] at he; cases he
    · exact hne herrs
    · exact hne hmerr
    · exact hdied e he
  have hexited : ∀ pc ∈ s.threads, pc = .exited := by
    intro pc hmem
    have hend := hended pc hmem
    cases pc with
    | exited => rfl
    | died e => exact absurd hmem (hdied e)
    | _ => cases hend
  -- without a shutdown a thread leaves on a sentinel, behind all batches
  obtain ⟨pc, hmem⟩ := List.exists_mem_of_ne_nil _ h.phases.started
  have hdrained : Drained s :=
    (h.traffic.exited (hexited pc hmem ▸ hmem)).resolve_left (by simp [hshut])
  refine ⟨hfailed, ?_, ?_, hpc, houtbox, hperr, hshut⟩
  · rw [List.eq_replicate_of_mem hexited]
    simp [held, WorkerPc.inFlight]
  · exact queueOps_all_stop fun b hb => hdrained.2 b (List.mem_append_left _ hb)

/-- **No failure is lost**, provided `delete_many` raises only in the
calling thread: when `sync_objects` returns normally, the operations carried
out without an exception are exactly those the producer enqueued. -/
theorem returned_only_if_done (m : SyncManager) (as : List Action) (s : SyncState)
    (hrun : Run.exec m.step m.init as = some s)
    (hok : Run.Always m.step m.DeletesSafely m.init as) (hret : s.main = .returned) :
    s.enqueued.Perm s.done ∧ s.failed = [] := by
  have hinv : m.Inv s := Run.exec_invariant (fun _ _ _ => step_inv) hok hrun m.inv_init
  obtain ⟨hfailed, hheld, hqueue, -⟩ := hinv.returned hret
  have hbalance := hinv.traffic.balance
  rw [hfailed, hheld, hqueue] at hbalance
  exact ⟨Multiset.coe_eq_coe.mp (by simpa using hbalance), hfailed⟩

/-- A sync that returns has carried out its plan. -/
theorem returned_plan_done (m : SyncManager) (as : List Action) (s : SyncState)
    (hrun : Run.exec m.step m.init as = some s)
    (hok : Run.Always m.step m.DeletesSafely m.init as) (hret : s.main = .returned) :
    s.done.Perm (m.producer.plan m.producer.sourceEntries m.producer.targetEntries) := by
  have hinv : m.Inv s := Run.exec_invariant (fun _ _ _ => step_inv) hok hrun m.inv_init
  obtain ⟨hfailed, hheld, hqueue, hpc, houtbox, herr, hshut⟩ := hinv.returned hret
  have hbalance := hinv.traffic.balance
  rw [hfailed, hheld, hqueue] at hbalance
  have hprod := hinv.traffic.producing
  simp only [Producing, hpc, houtbox] at hprod
  have hplan := hprod.2 herr hshut
  rw [show queueOps [] = [] from rfl, List.append_nil] at hplan
  rw [← hplan]
  exact (Multiset.coe_eq_coe.mp (by simpa using hbalance)).symm

/-! ### Two runs -/

/-- A sync that has to delete one file, with two worker threads. -/
def deletingSync : SyncManager where
  producer :=
    { sourceClient := .ofListing []
      sourcePath := "src".toList
      targetClient := .ofListing [fileOf "dst/a" 1 5]
      targetPath := "dst".toList
      numWorkers := 2
      deleteUnmatchedFiles := true }

/-- The steps of the calling thread and the monitors after the workers have
ended, with `n` results on the queue. -/
def wrapUp (n : ℕ) : List Action :=
  List.replicate 3 (.main none) ++ List.replicate (n + 1) (.resultMonitor none) ++
    List.replicate 2 (.main none) ++ [.errorMonitor none] ++ List.replicate 3 (.main none)

/-- The first worker takes the DELETE batch and the second one the sentinel. -/
def deletingRun (ans : Answer) : List Action :=
  List.replicate 6 .producer ++ [.worker 0 {}, .worker 0 {}, .worker 0 ans] ++
    List.replicate 3 (.worker 1 {})

/-- The run in which `delete_many` succeeds. -/
def deletedRun : List Action :=
  deletingRun {} ++ List.replicate 5 (.worker 0 {}) ++ wrapUp 1

/-- The client does not raise. -/
def succeeds : Action → Bool
  | .worker _ ans => ans.raises.isNone
  | _ => true

theorem deletedRun_succeeds : ∀ a ∈ deletedRun, succeeds a = true := by decide

/-- The run in which `delete_many` raises. -/
def lostDeleteRun : List Action :=
  deletingRun { raises := some "AccessDenied".toList } ++ wrapUp 0

/-- The theorem at a run that deletes. -/
theorem returned_only_if_done_deletedRun :
    ∃ s, Run.exec deletingSync.step deletingSync.init deletedRun = some s ∧
      s.main = .returned ∧ s.enqueued ≠ [] ∧ s.enqueued.Perm s.done ∧ s.failed = [] := by
  have hrun : ∃ s, Run.exec deletingSync.step deletingSync.init deletedRun = some s ∧
      s.main = .returned ∧ s.enqueued ≠ [] := Run.exec_exists (by decide +kernel)
  obtain ⟨s, hs, hret, hne⟩ := hrun
  refine ⟨s, hs, hret, hne, ?_⟩
  refine returned_only_if_done deletingSync deletedRun s hs ?_ hret
  refine Run.Always.of_mem (fun a ha s => Or.inr ?_) _
  have hquiet := deletedRun_succeeds a ha
  cases a with
  | worker i ans => exact fun hraise => hraise.2 (Option.isNone_iff_eq_none.mp hquiet)
  | _ => exact fun hraise => hraise

/-- The sync returns normally although its only operation failed. -/
theorem lost_delete_returns :
    ∃ s, Run.exec deletingSync.step deletingSync.init lostDeleteRun = some s ∧
      s.main = .returned ∧ s.done = [] ∧
      s.enqueued.map (fun x => (x.1, x.2.1.key)) = [(.delete, "dst/a".toList)] ∧
      s.failed.map (fun x => (x.1, x.2.1.key)) = [(.delete, "dst/a".toList)] :=
  Run.exec_exists (by decide +kernel)

end SyncManager

end MultiStorageClient
