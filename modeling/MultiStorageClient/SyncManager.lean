/-
MultiStorageClient/SyncManager.lean

A whole sync (`SyncManager.sync_objects` of `sync/manager.py`) with one
local worker process, as a transition system.

The parties are the producer thread, the worker threads of
`sync_worker_process`, the result monitor, the error monitor and the calling
thread; they share three queues and the shutdown event.  A party is a program
counter, and an action lets one party take its next step, up to its next
access to something shared.  What a storage or metadata provider does in a
step (whether it raises, whether an item is up to date, which messages the
queue-backed metadata provider publishes) is part of the action, so a run is
an interleaving together with the answers of the providers.

With `num_worker_threads <= 1` the worker loop runs in the calling thread
and an exception that leaves it reaches the caller.  Otherwise each loop is
the target of a `threading.Thread`, and an exception that leaves it ends that
thread and nothing else.

`enqueued`, `done` and `failed` record the operations put on the file queue,
carried out, and attempted with an exception; nothing reads them.
-/
import MultiStorageClient.Run
import MultiStorageClient.ProducerPlan
import MultiStorageClient.SyncWorker

namespace MultiStorageClient

open PyStr

/-! ### The parties -/

/-- An error as a worker reports it, less its traceback. -/
structure ErrorInfo where
  /-- the index of the worker thread -/
  workerId : ℕ
  exception : PyStr
  fileKey : PyStr
  operation : OperationType

/-- Where the producer thread is. -/
inductive ProducerPc
  | start
  | loop (src tgt : Cursor)
  | finished

/-- Where a worker thread is. -/
inductive WorkerPc
  /-- at the `while` condition -/
  | loop
  /-- in `file_queue.get()` -/
  | get
  /-- about to put the sentinel back -/
  | stop (batch : OperationBatch)
  /-- about to call `delete_many` -/
  | delete (batch : OperationBatch)
  /-- reporting the results of a DELETE batch -/
  | deleteReport (results : List ResultMsg)
  /-- in `_filter_with_metadata_provider`, with the checks not yet completed
  and the items to transfer -/
  | addCheck (pending transferItems : List Item)
  /-- about to call `_execute_batch_transfer` -/
  | transfer (transferItems : List Item)
  /-- reporting the results of a transfer -/
  | addReport (transferItems : List Item)
  /-- in the loop of `process_symlink_batch` -/
  | symlink (items : List Item)
  /-- the loop has ended -/
  | exited
  /-- an exception has left the loop -/
  | died (e : PyStr)

namespace WorkerPc

/-- The thread has ended. -/
def ended : WorkerPc → Bool
  | exited => true
  | died _ => true
  | _ => false

/-- The thread is in its loop or inside a handler. -/
def busy : WorkerPc → Bool
  | stop _ => false
  | pc => !pc.ended

/-- The operations a thread has taken from the queue and not settled. -/
def inFlight : WorkerPc → List (OperationType × Item)
  | stop b => b.ops
  | delete b => b.ops
  | addCheck pending transferItems => (transferItems ++ pending).map fun it => (.add, it)
  | transfer transferItems => transferItems.map fun it => (.add, it)
  | symlink items => items.map fun it => (.symlink, it)
  | _ => []

end WorkerPc

/-- The error monitor. -/
structure ErrorMonitor where
  errors : List ErrorInfo := []
  error : Option PyStr := none
  stopped : Bool := false

/-- Where the calling thread is. -/
inductive MainPc
  /-- in `sync_worker_process` -/
  | workers
  | joinProducer
  | stopResults
  | joinResults
  | stopErrors
  | joinErrors
  | commit
  /-- collecting the error messages -/
  | check
  | returned
  | raised
  deriving DecidableEq

/-- What the provider answers in a worker's step. -/
structure Answer where
  /-- which of the pending checks completes next -/
  item : ℕ := 0
  /-- whether the item checked is up to date -/
  skip : Bool := false
  /-- the exception of the provider call, if it raises -/
  raises : Option PyStr := none
  /-- what the queue-backed metadata provider puts on the result queue -/
  published : List ResultMsg := []

/-- One step of one party. -/
inductive Action
  | producer
  | worker (i : ℕ) (ans : Answer)
  | resultMonitor (raises : Option PyStr)
  | errorMonitor (raises : Option PyStr)
  | main (raises : Option PyStr)

/-- The state of a sync. -/
structure SyncState where
  producerPc : ProducerPc := .start
  /-- the producer's batcher; its `fileQueue` holds the batches it is about
  to put on the shared one -/
  producer : ProducerState := {}
  producerError : Option PyStr := none
  fileQueue : List OperationBatch := []
  threads : List WorkerPc
  resultQueue : List ResultMsg := []
  errorQueue : List (Option ErrorInfo) := []
  shutdown : Bool := false
  resultMonitor : ResultMonitor := {}
  resultStopped : Bool := false
  errorMonitor : ErrorMonitor := {}
  main : MainPc := .workers
  enqueued : List (OperationType × Item) := []
  done : List (OperationType × Item) := []
  failed : List (OperationType × Item) := []

/-- The arguments of `sync_objects` for one worker process, so that
`num_workers` is the number of worker threads. -/
structure SyncManager where
  producer : ProducerThread
  commitMetadata : Bool := true

namespace SyncManager

variable (m : SyncManager)

/-- `num_worker_threads` -/
def numWorkerThreads : ℕ := m.producer.numWorkers

/-- Whether the target client has a metadata provider. -/
def hasMetadataProvider : Bool := m.producer.targetClient.hasMetadataProvider

/-- What the workers know of the paths. -/
def handler : BatchSyncHandler := ⟨m.producer.sourcePath, m.producer.targetPath⟩

/-- With at most one thread the loop runs in the calling thread. -/
def init : SyncState := { threads := List.replicate (max 1 m.numWorkerThreads) .loop }

/-! ### The producer -/

/-- The `finally` block of `ProducerThread.run`. -/
def finishProducer (s : SyncState) (st : ProducerState) (error : Option PyStr) : SyncState :=
  let st := st.flushBatch
  { s with
    producerPc := .finished
    producerError := error
    producer := { st with
      fileQueue := st.fileQueue ++ List.replicate m.producer.numWorkers stopBatch } }

/-- A step of the producer: put the next batch, or compute up to the next
check of the shutdown event. -/
def producerStep (s : SyncState) : Option SyncState :=
  match s.producer.fileQueue with
  -- the batches of a round go to the workers one put at a time
  | b :: rest =>
      some { s with
        producer := { s.producer with fileQueue := rest }
        fileQueue := s.fileQueue ++ [b]
        enqueued := s.enqueued ++ b.ops }
  | [] =>
      match s.producerPc with
      | .start =>
          match m.producer.createSourceIterator.next, m.producer.createTargetIterator.next with
          | .error e, _ => some (m.finishProducer s s.producer (some e))
          | .ok _, .error e => some (m.finishProducer s s.producer (some e))
          | .ok src, .ok tgt => some { s with producerPc := .loop src tgt }
      | .loop src tgt =>
          if src.file = none ∧ tgt.file = none then some (m.finishProducer s s.producer none)
          -- an error of a worker ends the producer before its next round
          else if s.shutdown then some (m.finishProducer s s.producer none)
          else
            match m.producer.round src tgt s.producer with
            | (st, .error e) => some (m.finishProducer s st (some e))
            | (st, .ok (src, tgt)) => some { s with producerPc := .loop src tgt, producer := st }
      | .finished => none

/-! ### The workers -/

/-- What a worker's step does to the shared state. -/
structure Effect where
  pc : WorkerPc
  fileQueue : List OperationBatch
  results : List ResultMsg := []
  errors : List ErrorInfo := []
  done : List (OperationType × Item) := []
  failed : List (OperationType × Item) := []

/-- `_report_result`: without a metadata provider the worker reports an ADD
itself. -/
def reportResult (it : Item) : List ResultMsg :=
  if m.hasMetadataProvider then []
  else
    let targetFilePath := m.handler.targetFilePath it.1
    [.add targetFilePath
      { key := targetFilePath, contentLength := it.1.contentLength,
        lastModified := it.1.lastModified, metadata := it.1.metadata }]

/-- The report of a symlink, in place of `_report_result`. -/
def symlinkResult (it : Item) : List ResultMsg :=
  if m.hasMetadataProvider then []
  else
    let targetFilePath := m.handler.targetFilePath it.1
    [.add targetFilePath
      { key := targetFilePath, contentLength := 0, lastModified := it.1.lastModified,
        type := it.1.type, metadata := it.1.metadata, symlinkTarget := it.1.symlinkTarget }]

/-- What the queue-backed metadata provider adds to the result queue. -/
def published (ans : Answer) : List ResultMsg :=
  if m.hasMetadataProvider then ans.published else []

/-- The exception of one symlink, if any: the item's own, or that of
`make_symlink`. -/
def symlinkError (it : Item) (ans : Answer) : Option PyStr :=
  match it.1.symlinkTarget with
  | none => some ("SYMLINK batch item has no symlink_target: ".toList ++ it.1.key)
  | some _ => ans.raises

/-- The program counter after `file_queue.get()` returned a batch. -/
def dispatch (b : OperationBatch) : WorkerPc :=
  match b.operation with
  | .stop => .stop b
  | .delete => .delete b
  | .add => if m.hasMetadataProvider then .addCheck b.items [] else .transfer b.items
  | .symlink => .symlink b.items

/-- A step of `_worker_loop` in worker thread `id`. -/
def workerStep (id : ℕ) (shutdown : Bool) (q : List OperationBatch) (ans : Answer) :
    WorkerPc → Option Effect
  | .loop => some { pc := if shutdown then .exited else .get, fileQueue := q }
  | .get =>
      match q with
      | [] => none
      | b :: q => some { pc := m.dispatch b, fileQueue := q }
  | .stop b => some { pc := .exited, fileQueue := q ++ [b] }
  -- `process_delete_batch`, which has no `try`
  | .delete b =>
      match ans.raises with
      | some e => some { pc := .died e, fileQueue := q, failed := b.ops }
      | none =>
          some { pc := .deleteReport (m.handler.deleteResults b), fileQueue := q, done := b.ops }
  | .deleteReport [] => some { pc := .loop, fileQueue := q }
  | .deleteReport (r :: rs) => some { pc := .deleteReport rs, fileQueue := q, results := [r] }
  -- `process_add_batch`
  | .addCheck [] transferItems => some { pc := .transfer transferItems, fileQueue := q }
  | .addCheck (it₀ :: its) transferItems =>
      match (it₀ :: its)[ans.item]? with
      | none => none
      | some it =>
          let pending := (it₀ :: its).eraseIdx ans.item
          match ans.raises with
          | some e =>
              some { pc := .addCheck pending transferItems, fileQueue := q,
                     results := m.published ans, errors := [⟨id, e, it.1.key, .add⟩],
                     failed := [(.add, it)] }
          | none =>
              if ans.skip then
                some { pc := .addCheck pending transferItems, fileQueue := q,
                       results := m.published ans, done := [(.add, it)] }
              else
                some { pc := .addCheck pending (transferItems ++ [it]), fileQueue := q }
  | .transfer [] => some { pc := .loop, fileQueue := q }
  | .transfer (it :: its) =>
      match ans.raises with
      | some e =>
          some { pc := .loop, fileQueue := q, results := m.published ans,
                 errors := [⟨id, e, it.1.key, .add⟩],
                 failed := (it :: its).map fun it => (.add, it) }
      | none =>
          some { pc := .addReport (it :: its), fileQueue := q, results := m.published ans,
                 done := (it :: its).map fun it => (.add, it) }
  | .addReport [] => some { pc := .loop, fileQueue := q }
  | .addReport (it :: its) =>
      some { pc := .addReport its, fileQueue := q, results := m.reportResult it }
  -- `process_symlink_batch`
  | .symlink [] => some { pc := .loop, fileQueue := q }
  | .symlink (it :: its) =>
      match symlinkError it ans with
      | some e =>
          some { pc := .symlink its, fileQueue := q, results := m.published ans,
                 errors := [⟨id, e, it.1.key, .symlink⟩], failed := [(.symlink, it)] }
      | none =>
          some { pc := .symlink its, fileQueue := q,
                 results := m.published ans ++ m.symlinkResult it, done := [(.symlink, it)] }
  | .exited => none
  | .died _ => none

/-- The state after a step of worker thread `i`. -/
def applyEffect (s : SyncState) (i : ℕ) (eff : Effect) : SyncState :=
  { s with
    threads := s.threads.set i eff.pc
    fileQueue := eff.fileQueue
    resultQueue := s.resultQueue ++ eff.results
    errorQueue := s.errorQueue ++ eff.errors.map some
    done := s.done ++ eff.done
    failed := s.failed ++ eff.failed }

/-! ### The monitors -/

/-- A step of `ResultMonitorThread.run`. -/
def resultStep (s : SyncState) (raises : Option PyStr) : Option SyncState :=
  if s.resultStopped then none
  else
    -- without a metadata provider the results are only counted
    let provider : Option ReplayProvider :=
      if m.hasMetadataProvider then some ⟨fun _ _ => raises, fun _ => raises⟩ else none
    let settle (q : List ResultMsg) (st : ResultMonitor) : SyncState :=
      { s with resultQueue := q, resultMonitor := st, resultStopped := st.error.isSome }
    match s.resultQueue with
    | [] => none
    | .stop :: q => some { s with resultQueue := q, resultStopped := true }
    | .add path md :: q => some (settle q (s.resultMonitor.onAdd provider path md))
    | .delete path md :: q => some (settle q (s.resultMonitor.onDelete provider path md))

/-- A step of `ErrorMonitorThread.run`. -/
def errorStep (s : SyncState) (raises : Option PyStr) : Option SyncState :=
  if s.errorMonitor.stopped then none
  else
    match s.errorQueue with
    | [] => none
    | info :: q =>
        match raises, info with
        | some e, _ =>
            some { s with
              errorQueue := q
              errorMonitor := { s.errorMonitor with error := some e, stopped := true } }
        | none, none =>
            some { s with errorQueue := q, errorMonitor := { s.errorMonitor with stopped := true } }
        -- the first error asks for the shutdown
        | none, some err =>
            let errors := s.errorMonitor.errors ++ [err]
            some { s with
              errorQueue := q
              errorMonitor := { s.errorMonitor with errors := errors }
              shutdown := s.shutdown || errors.length == 1 }

/-! ### The calling thread -/

/-- Whether some error was collected. -/
def hasErrors (s : SyncState) : Bool :=
  s.producerError.isSome || s.resultMonitor.error.isSome || s.errorMonitor.error.isSome
    || !s.errorMonitor.errors.isEmpty

/-- A step of `sync_objects` once all threads are started. -/
def mainStep (s : SyncState) (raises : Option PyStr) : Option SyncState :=
  match s.main with
  | .workers =>
      if s.threads.all WorkerPc.ended then
        -- the exception of a loop in the calling thread passes through
        if m.numWorkerThreads ≤ 1 ∧ s.threads.any (fun pc => pc matches .died _) then
          some { s with main := .raised }
        else some { s with main := .joinProducer }
      else none
  | .joinProducer =>
      match s.producerPc, s.producer.fileQueue with
      | .finished, [] => some { s with main := .stopResults }
      | _, _ => none
  | .stopResults => some { s with resultQueue := s.resultQueue ++ [.stop], main := .joinResults }
  | .joinResults => if s.resultStopped then some { s with main := .stopErrors } else none
  | .stopErrors => some { s with errorQueue := s.errorQueue ++ [none], main := .joinErrors }
  | .joinErrors => if s.errorMonitor.stopped then some { s with main := .commit } else none
  | .commit =>
      if m.commitMetadata && raises.isSome then some { s with main := .raised }
      else some { s with main := .check }
  | .check => some { s with main := if hasErrors s then .raised else .returned }
  | .returned => none
  | .raised => none

/-- One step of the system. -/
def step (s : SyncState) : Action → Option SyncState
  | .producer => m.producerStep s
  | .worker i ans =>
      match s.threads[i]? with
      | none => none
      | some pc => (m.workerStep i s.shutdown s.fileQueue ans pc).map (applyEffect s i)
  | .resultMonitor raises => m.resultStep s raises
  | .errorMonitor raises => errorStep s raises
  | .main raises => m.mainStep s raises

end SyncManager

end MultiStorageClient
