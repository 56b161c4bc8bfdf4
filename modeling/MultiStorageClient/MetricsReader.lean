/-
MultiStorageClient/MetricsReader.lean

The metric reader with two periods (`DiperiodicExportingMetricReader` in
`telemetry/metrics/readers/diperiodic_exporting.py`).

A process is the reader's fields, its three locks and the place at which each
thread is.  A thread does one read, one write, one lock operation or one call of
the exporter at a time, so an interleaving of the daemons and of those that call
the reader is a list of such steps.  What the callback of the SDK collects, which
calls raise, and when a thread calls the reader comes with the step.

A fork keeps the buffers and the locks as they are and leaves one thread, which
runs `_init_daemons`.
-/
import MultiStorageClient.Run

namespace MultiStorageClient

open Run

variable {ρ : Type}

/-! ### Places -/

/-- `_collect_metrics_data_lock`, `_export_metrics_data_lock`, `_shutdown_event_lock` -/
inductive ReaderLock
  | collectMetricsData
  | exportMetricsData
  | shutdownEvent
  deriving DecidableEq

/-- The daemons, and the threads that call the reader; the first of these is the one
that constructs the reader, or that forked. -/
inductive ReaderThread
  | collectDaemon
  | exportDaemon
  | caller (n : ℕ)
  deriving DecidableEq

/-- Before each statement of `_init_daemons`. -/
inductive InitDaemonsAt
  | enter
  /-- has the lock of the collect buffer, waits for that of the export buffer -/
  | withCollect
  /-- empties the buffers -/
  | withBoth
  | emptied
  | exportReleased
  | startCollect
  | startExport
  deriving DecidableEq

/-- In `MetricReader.collect` and in `_receive_metrics`. -/
inductive CollectAt (ρ : Type)
  /-- in the callback; does the caller (`_collect_iteration`) catch what it raises? -/
  | callback (caught : Bool)
  | enter (resourceMetrics : List ρ)
  /-- reads the collect buffer -/
  | locked (resourceMetrics : List ρ)
  /-- writes what it read and the new ones -/
  | store (old : Option (List ρ)) (resourceMetrics : List ρ)
  | stored
  deriving DecidableEq

/-- Before each statement of `_export_iteration`. -/
inductive ExportAt (ρ : Type)
  | enter
  | withExport
  /-- evaluates the right side of the rotation and empties the collect buffer -/
  | withBoth
  /-- puts into the export buffer what was in the collect buffer -/
  | rotate (taken : Option (List ρ))
  | rotated
  | collectReleased
  /-- in the exporter -/
  | exporting
  /-- the `finally` -/
  | empty
  | emptied
  deriving DecidableEq

/-- Before each statement of `shutdown`. -/
inductive ShutdownAt
  | enter
  | locked
  | joinCollect
  | joinExport
  /-- in `exporter.shutdown` -/
  | stopping
  | set
  | leave
  deriving DecidableEq

/-- Where a thread is. -/
inductive ReaderAt (ρ : Type)
  | notStarted
  /-- not in the reader; a daemon waits for the shutdown event or for its interval -/
  | outside
  | initDaemons (pc : InitDaemonsAt)
  | collect (pc : CollectAt ρ)
  | exportIteration (pc : ExportAt ρ)
  /-- in `exporter.force_flush` -/
  | flushing
  | shutdown (pc : ShutdownAt)
  | ended
  deriving DecidableEq

/-- What a thread has still to call. -/
inductive ReaderCall
  | collectIteration
  | collect
  | exportIteration
  | exporterForceFlush
  /-- the end of `_export_daemon_target` -/
  | finish
  deriving DecidableEq

/-- Where a thread is, and what it calls after that. -/
structure ReaderFrame (ρ : Type) where
  place : ReaderAt ρ
  rest : List ReaderCall := []
  deriving DecidableEq

/-- The beginning of the next call. -/
def ReaderFrame.next : List ReaderCall → ReaderFrame ρ
  | [] => ⟨.outside, []⟩
  | .collectIteration :: rest => ⟨.collect (.callback true), rest⟩
  | .collect :: rest => ⟨.collect (.callback false), rest⟩
  | .exportIteration :: rest => ⟨.exportIteration .enter, rest⟩
  | .exporterForceFlush :: rest => ⟨.flushing, rest⟩
  | .finish :: _ => ⟨.ended, []⟩

/-! ### Processes -/

/-- A call of `exporter.export`: its metrics, whether the export daemon makes it after
its loop, and whether the exporter had been shut down. -/
structure ExporterCall (ρ : Type) where
  metricsData : List ρ
  final : Bool
  afterShutdown : Bool
  deriving DecidableEq

/-- The fields, the locks and the calls of the exporter.  `received` has what
`_receive_metrics` has added in this process. -/
structure ReaderFields (ρ : Type) where
  collectMetricsData : Option (List ρ) := none
  exportMetricsData : Option (List ρ) := none
  /-- `some none`: by a thread that a fork did not copy -/
  locks : ReaderLock → Option (Option ReaderThread) := fun _ => none
  shutdownEvent : Bool := false
  exporterShutdown : Bool := false
  exports : List (ExporterCall ρ) := []
  received : List ρ := []

/-- The reader, with a place for every thread. -/
structure MetricsReader (ρ : Type) where
  fields : ReaderFields ρ
  threads : ReaderThread → ReaderFrame ρ

namespace ReaderFields

/-- A lock is taken, if it is free. -/
def acquire (f : ReaderFields ρ) (l : ReaderLock) (t : ReaderThread) : Option (ReaderFields ρ) :=
  if f.locks l = none then
    some { f with locks := Function.update f.locks l (some (some t)) }
  else none

/-- A lock is released. -/
def release (f : ReaderFields ρ) (l : ReaderLock) : ReaderFields ρ :=
  { f with locks := Function.update f.locks l none }

end ReaderFields

/-! ### Steps -/

/-- The methods that a caller may call. -/
inductive ReaderMethod
  | collect
  | forceFlush
  | shutdown
  deriving DecidableEq

/-- What a method has to do. -/
def ReaderMethod.frame : ReaderMethod → ReaderFrame ρ
  | .collect => ReaderFrame.next [.collect]
  | .forceFlush => ReaderFrame.next [.collect, .exportIteration, .exporterForceFlush]
  | .shutdown => ⟨.shutdown .enter, []⟩

/-- What comes with a step: that a thread goes on (a call of the exporter returns, a
time passes), that what it called raises, what the callback collects, or what a
thread calls. -/
inductive ReaderEvent (ρ : Type)
  | go
  | raises
  | collects (resourceMetrics : List ρ)
  | call (m : ReaderMethod)
  deriving DecidableEq

/-- A step of a thread changes the fields and moves the thread. -/
abbrev ReaderMove (ρ : Type) := Option (ReaderFields ρ × ReaderFrame ρ)

namespace MetricsReader

/-- `MetricReader.collect` and `_receive_metrics`.  The callback may be unset, or
collect nothing: then it just goes on. -/
def collectMove (f : ReaderFields ρ) (t : ReaderThread) (rest : List ReaderCall) :
    CollectAt ρ → ReaderEvent ρ → ReaderMove ρ
  | .callback _, .go => some (f, .next rest)
  | .callback _, .collects rm => some (f, ⟨.collect (.enter rm), rest⟩)
  -- _collect_iteration logs what the callback raises, force_flush lets it pass
  | .callback true, .raises => some (f, .next rest)
  | .callback false, .raises => some (f, .next [])
  | .enter rm, .go =>
      (f.acquire .collectMetricsData t).map fun f' => (f', ⟨.collect (.locked rm), rest⟩)
  -- the read and the write of the list are two moves under the lock
  | .locked rm, .go => some (f, ⟨.collect (.store f.collectMetricsData rm), rest⟩)
  | .store old rm, .go =>
      some ({ f with collectMetricsData := some (old.getD [] ++ rm)
                     received := f.received ++ rm }, ⟨.collect .stored, rest⟩)
  | .stored, .go => some (f.release .collectMetricsData, .next rest)
  | _, _ => none

/-- `_export_iteration`.  Whether the exporter returns or raises, the buffer is
emptied. -/
def exportMove (f : ReaderFields ρ) (t : ReaderThread) (rest : List ReaderCall) :
    ExportAt ρ → ReaderEvent ρ → ReaderMove ρ
  | .enter, .go =>
      (f.acquire .exportMetricsData t).map fun f' => (f', ⟨.exportIteration .withExport, rest⟩)
  | .withExport, .go =>
      (f.acquire .collectMetricsData t).map fun f' => (f', ⟨.exportIteration .withBoth, rest⟩)
  -- take what was collected, then let the collector go on
  | .withBoth, .go =>
      some ({ f with collectMetricsData := none },
        ⟨.exportIteration (.rotate f.collectMetricsData), rest⟩)
  | .rotate taken, .go =>
      some ({ f with exportMetricsData := taken }, ⟨.exportIteration .rotated, rest⟩)
  | .rotated, .go => some (f.release .collectMetricsData, ⟨.exportIteration .collectReleased, rest⟩)
  | .collectReleased, .go =>
      -- nothing taken, nothing exported
      match f.exportMetricsData with
      | none => some (f, ⟨.exportIteration .emptied, rest⟩)
      | some data =>
          some ({ f with exports := f.exports ++
                    [⟨data, rest.contains .finish, f.exporterShutdown⟩] },
            ⟨.exportIteration .exporting, rest⟩)
  | .exporting, .go => some (f, ⟨.exportIteration .empty, rest⟩)
  -- an export that raises is logged, and the data are dropped
  | .exporting, .raises => some (f, ⟨.exportIteration .empty, rest⟩)
  | .empty, .go => some ({ f with exportMetricsData := none }, ⟨.exportIteration .emptied, rest⟩)
  | .emptied, .go => some (f.release .exportMetricsData, .next rest)
  | _, _ => none

/-- `shutdown`.  The daemons are joined with a timeout, so a join always returns. -/
def shutdownMove (f : ReaderFields ρ) (t : ReaderThread) :
    ShutdownAt → ReaderEvent ρ → ReaderMove ρ
  | .enter, .go => (f.acquire .shutdownEvent t).map fun f' => (f', ⟨.shutdown .locked, []⟩)
  | .locked, .go =>
      -- a second shutdown finds the event set and leaves
      some (f, ⟨.shutdown (if f.shutdownEvent then .leave else .joinCollect), []⟩)
  | .joinCollect, .go => some (f, ⟨.shutdown .joinExport, []⟩)
  | .joinExport, .go => some ({ f with exporterShutdown := true }, ⟨.shutdown .stopping, []⟩)
  | .stopping, .go => some (f, ⟨.shutdown .set, []⟩)
  -- the exporter's own shutdown raised: the event stays unset
  | .stopping, .raises => some (f, ⟨.shutdown .leave, []⟩)
  | .set, .go => some ({ f with shutdownEvent := true }, ⟨.shutdown .leave, []⟩)
  | .leave, .go => some (f.release .shutdownEvent, ⟨.outside, []⟩)
  | _, _ => none

/-- The moves of `_init_daemons` that start no thread. -/
def initMove (f : ReaderFields ρ) (t : ReaderThread) :
    InitDaemonsAt → ReaderEvent ρ → ReaderMove ρ
  | .enter, .go =>
      (f.acquire .collectMetricsData t).map fun f' => (f', ⟨.initDaemons .withCollect, []⟩)
  | .withCollect, .go =>
      (f.acquire .exportMetricsData t).map fun f' => (f', ⟨.initDaemons .withBoth, []⟩)
  | .withBoth, .go =>
      some ({ f with collectMetricsData := none, exportMetricsData := none },
        ⟨.initDaemons .emptied, []⟩)
  | .emptied, .go => some (f.release .exportMetricsData, ⟨.initDaemons .exportReleased, []⟩)
  | .exportReleased, .go => some (f.release .collectMetricsData, ⟨.initDaemons .startCollect, []⟩)
  | _, _ => none

/-- Has `_init_daemons` returned? -/
def hasDaemons (s : MetricsReader ρ) : Bool :=
  match (s.threads .exportDaemon).place with
  | .notStarted => false
  | _ => true

/-- `_collect_daemon_target` and `_export_daemon_target`: one interval, or the end.  A
call is made once the reader has its daemons. -/
def outsideMove (s : MetricsReader ρ) : ReaderThread → ReaderEvent ρ → ReaderMove ρ
  | .collectDaemon, .go =>
      some (s.fields, if s.fields.shutdownEvent then ⟨.ended, []⟩ else .next [.collectIteration])
  | .exportDaemon, .go =>
      some (s.fields, .next (if s.fields.shutdownEvent then
        [.collectIteration, .exportIteration, .finish] else [.exportIteration]))
  | .caller _, .call m =>
      if s.hasDaemons then some (s.fields, m.frame) else none
  | _, _ => none

/-- The next step of a thread. -/
def move (s : MetricsReader ρ) (t : ReaderThread) (e : ReaderEvent ρ) : ReaderMove ρ :=
  match (s.threads t).place with
  | .notStarted => none
  | .outside => s.outsideMove t e
  | .initDaemons pc => initMove s.fields t pc e
  | .collect pc => collectMove s.fields t (s.threads t).rest pc e
  | .exportIteration pc => exportMove s.fields t (s.threads t).rest pc e
  | .flushing =>
      match e with
      | .go => some (s.fields, .next (s.threads t).rest)
      | .raises => some (s.fields, .next [])
      | _ => none
  | .shutdown pc => shutdownMove s.fields t pc e
  | .ended => none

/-- A step of a thread.  `_init_daemons` starts the daemons. -/
def step (s : MetricsReader ρ) : ReaderThread × ReaderEvent ρ → Option (MetricsReader ρ)
  | (t, e) =>
      match (s.threads t).place, e with
      | .initDaemons .startCollect, .go =>
          some ⟨s.fields, Function.update
            (Function.update s.threads t ⟨.initDaemons .startExport, []⟩)
            .collectDaemon ⟨.outside, []⟩⟩
      | .initDaemons .startExport, .go =>
          some ⟨s.fields, Function.update
            (Function.update s.threads t ⟨.outside, []⟩) .exportDaemon ⟨.outside, []⟩⟩
      | _, e => (s.move t e).map fun m => ⟨m.1, Function.update s.threads t m.2⟩

/-- A process in which the first caller is about to run `_init_daemons`. -/
def boot (f : ReaderFields ρ) : MetricsReader ρ where
  fields := f
  threads
    | .caller 0 => ⟨.initDaemons .enter, []⟩
    | .caller (_ + 1) => ⟨.outside, []⟩
    | .collectDaemon => ⟨.notStarted, []⟩
    | .exportDaemon => ⟨.notStarted, []⟩

/-- The constructor. -/
def initial : MetricsReader ρ := boot {}

/-- The process that a fork makes: what is in memory stays as it is, and no thread is
there that could give back a lock. -/
def fork (s : MetricsReader ρ) : MetricsReader ρ :=
  boot { s.fields with
    exports := []
    received := []
    locks := fun l => (s.fields.locks l).map fun _ => none }

/-- The states of the process of the constructor, and of those that it and its
children fork. -/
inductive IsProcess : MetricsReader ρ → Prop
  | start : IsProcess initial
  | step {s s' : MetricsReader ρ} {a : ReaderThread × ReaderEvent ρ} :
      IsProcess s → s.step a = some s' → IsProcess s'
  | fork {s : MetricsReader ρ} : IsProcess s → IsProcess s.fork

end MetricsReader

end MultiStorageClient
