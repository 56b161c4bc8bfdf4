/-
MultiStorageClient/MetricsReaderRuns.lean

What the reader with two periods does with what it receives, in every interleaving.

A step of a thread takes one lock, gives one back or leaves them alone
(`move_locks`), and does one thing with the buffers (`move_data`).  The reader is a
channel: what `_receive_metrics` adds waits, the rotation takes it, and a call of the
exporter delivers it.  A forked process is a channel of its own that starts empty.
-/
import MultiStorageClient.MetricsReader
import MultiStorageClient.LockOrder
import MultiStorageClient.Channel

namespace MultiStorageClient

open Run LockOrder

variable {ρ : Type}

/-! ### What a place has and waits for -/

/-- The locks that a thread has at a place. -/
def InitDaemonsAt.held : InitDaemonsAt → List ReaderLock
  | .enter => []
  | .withCollect => [.collectMetricsData]
  | .withBoth => [.exportMetricsData, .collectMetricsData]
  | .emptied => [.exportMetricsData, .collectMetricsData]
  | .exportReleased => [.collectMetricsData]
  | .startCollect => []
  | .startExport => []

/-- The locks that are held at a place in `_collect`. -/
def CollectAt.held : CollectAt ρ → List ReaderLock
  | .callback _ => []
  | .enter _ => []
  | .locked _ => [.collectMetricsData]
  | .store _ _ => [.collectMetricsData]
  | .stored => [.collectMetricsData]

/-- The locks that are held at a place in `_export_iteration`. -/
def ExportAt.held : ExportAt ρ → List ReaderLock
  | .enter => []
  | .withExport => [.exportMetricsData]
  | .withBoth => [.collectMetricsData, .exportMetricsData]
  | .rotate _ => [.collectMetricsData, .exportMetricsData]
  | .rotated => [.collectMetricsData, .exportMetricsData]
  | .collectReleased => [.exportMetricsData]
  | .exporting => [.exportMetricsData]
  | .empty => [.exportMetricsData]
  | .emptied => [.exportMetricsData]

/-- The locks that are held at a place in `shutdown`. -/
def ShutdownAt.held : ShutdownAt → List ReaderLock
  | .enter => []
  | .locked => [.shutdownEvent]
  | .joinCollect => [.shutdownEvent]
  | .joinExport => [.shutdownEvent]
  | .stopping => [.shutdownEvent]
  | .set => [.shutdownEvent]
  | .leave => [.shutdownEvent]

namespace ReaderAt

/-- The locks that are held at a place. -/
def held : ReaderAt ρ → List ReaderLock
  | .notStarted => []
  | .outside => []
  | .initDaemons pc => pc.held
  | .collect pc => pc.held
  | .exportIteration pc => pc.held
  | .flushing => []
  | .shutdown pc => pc.held
  | .ended => []

@[simp] theorem held_outside : (outside : ReaderAt ρ).held = [] := rfl

@[simp] theorem held_initDaemons (pc : InitDaemonsAt) :
    (initDaemons pc : ReaderAt ρ).held = pc.held := rfl

@[simp] theorem held_collect (pc : CollectAt ρ) : (collect pc).held = pc.held := rfl

@[simp] theorem held_exportIteration (pc : ExportAt ρ) : (exportIteration pc).held = pc.held := rfl

@[simp] theorem held_flushing : (flushing : ReaderAt ρ).held = [] := rfl

@[simp] theorem held_shutdown (pc : ShutdownAt) : (shutdown pc : ReaderAt ρ).held = pc.held := rfl

/-- What has left the collect buffer and not come to the exporter, with the export
buffer `b`. -/
def flight (b : Option (List ρ)) : ReaderAt ρ → List ρ
  | .exportIteration (.rotate taken) => taken.getD []
  | .exportIteration .rotated => b.getD []
  | .exportIteration .collectReleased => b.getD []
  | _ => []

theorem flight_of_not_held {p : ReaderAt ρ} (h : .exportMetricsData ∉ p.held)
    (b : Option (List ρ)) : p.flight b = [] := by
  unfold flight
  split
  case h_4 => rfl
  all_goals exact absurd (by simp [ExportAt.held]) h

/-- Has `_init_daemons` emptied the buffers? -/
def emptied : ReaderAt ρ → Bool
  | .initDaemons .enter => false
  | .initDaemons .withCollect => false
  | .initDaemons .withBoth => false
  | _ => true

/-- The places before the buffers are emptied. -/
theorem emptied_iff {p : ReaderAt ρ} : p.emptied = false ↔ p = .initDaemons .enter ∨
    p = .initDaemons .withCollect ∨ p = .initDaemons .withBoth := by
  constructor
  · intro h
    unfold emptied at h
    split at h
    · exact Or.inl rfl
    · exact Or.inr (Or.inl rfl)
    · exact Or.inr (Or.inr rfl)
    · cases h
  · rintro (rfl | rfl | rfl) <;> rfl

end ReaderAt

namespace ReaderFrame

variable {rest : List ReaderCall}

@[simp] theorem next_held : (next rest : ReaderFrame ρ).place.held = [] := by
  rcases rest with - | ⟨c, rest⟩
  · rfl
  · cases c <;> rfl

@[simp] theorem next_flight (b : Option (List ρ)) : (next rest).place.flight b = [] := by
  rcases rest with - | ⟨c, rest⟩
  · rfl
  · cases c <;> rfl

theorem next_ne_store (old : Option (List ρ)) (rm : List ρ) :
    (next rest).place ≠ .collect (.store old rm) := by
  rcases rest with - | ⟨c, rest⟩
  · simp [next]
  · cases c <;> simp [next]

theorem next_ne_initDaemons (pc : InitDaemonsAt) :
    (next rest : ReaderFrame ρ).place ≠ .initDaemons pc := by
  rcases rest with - | ⟨c, rest⟩
  · simp [next]
  · cases c <;> simp [next]

theorem next_emptied : (next rest : ReaderFrame ρ).place.emptied = true := by
  rcases rest with - | ⟨c, rest⟩
  · rfl
  · cases c <;> rfl

theorem next_ne_notStarted : (next rest : ReaderFrame ρ).place ≠ .notStarted := by
  rcases rest with - | ⟨c, rest⟩
  · simp [next]
  · cases c <;> simp [next]

end ReaderFrame

namespace ReaderFields

theorem acquire_iff {f f' : ReaderFields ρ} {l : ReaderLock} {t : ReaderThread} :
    f.acquire l t = some f' ↔
      f.locks l = none ∧ f' = { f with locks := Function.update f.locks l (some (some t)) } := by
  rw [acquire, Option.ite_none_right_eq_some, Option.some_inj, eq_comm (b := f')]

end ReaderFields

namespace MetricsReader

variable {s s' : MetricsReader ρ} {f f' : ReaderFields ρ} {fr : ReaderFrame ρ}
  {t : ReaderThread} {e : ReaderEvent ρ} {rest : List ReaderCall}

/-! ### What a move does to the locks -/

/-- One lock is taken, one is given back, or all stay as they are. -/
inductive LocksStep (t : ReaderThread) (locks locks' : ReaderLock → Option (Option ReaderThread))
    (held held' : List ReaderLock) : Prop
  | keep : locks' = locks → (∀ l, l ∈ held' ↔ l ∈ held) → LocksStep t locks locks' held held'
  | acquire (l : ReaderLock) : locks l = none →
      locks' = Function.update locks l (some (some t)) → (∀ l', l' ∈ held' ↔ l' = l ∨ l' ∈ held) →
      LocksStep t locks locks' held held'
  | release (l : ReaderLock) : l ∈ held → locks' = Function.update locks l none →
      (∀ l', l' ∈ held' ↔ l' ≠ l ∧ l' ∈ held) → LocksStep t locks locks' held held'

/-- What a move that takes a lock gives. -/
theorem acquire_move {l : ReaderLock} {fr₁ : ReaderFrame ρ}
    (h : (f.acquire l t).map (fun f₁ => (f₁, fr₁)) = some (f', fr)) :
    f.locks l = none ∧ f' = { f with locks := Function.update f.locks l (some (some t)) } ∧
      fr = fr₁ := by
  obtain ⟨f₁, hf₁, heq⟩ := Option.map_eq_some_iff.mp h
  obtain ⟨hfree, rfl⟩ := ReaderFields.acquire_iff.mp hf₁
  obtain ⟨rfl, rfl⟩ := Prod.mk.inj heq
  exact ⟨hfree, rfl, rfl⟩

theorem some_move {f₁ : ReaderFields ρ} {fr₁ : ReaderFrame ρ}
    (h : some (f₁, fr₁) = some (f', fr)) : f' = f₁ ∧ fr = fr₁ := by
  obtain ⟨rfl, rfl⟩ := Prod.mk.inj (Option.some.inj h)
  exact ⟨rfl, rfl⟩

/-- The locks over a move of the collection loop. -/
theorem collectMove_locks {pc : CollectAt ρ} (h : collectMove f t rest pc e = some (f', fr)) :
    LocksStep t f.locks f'.locks pc.held fr.place.held := by
  unfold collectMove at h
  split at h
  case h_5 =>
      obtain ⟨hfree, rfl, rfl⟩ := acquire_move h
      exact .acquire _ hfree rfl (by simp [CollectAt.held])
  case h_8 =>
      obtain ⟨rfl, rfl⟩ := some_move h
      exact .release _ (List.mem_singleton_self _) rfl (by simp [CollectAt.held])
  case h_9 => cases h
  all_goals
    obtain ⟨rfl, rfl⟩ := some_move h
    exact .keep rfl (by simp [CollectAt.held])

/-- The locks over a move of the export loop. -/
theorem exportMove_locks {pc : ExportAt ρ} (h : exportMove f t rest pc e = some (f', fr)) :
    LocksStep t f.locks f'.locks pc.held fr.place.held := by
  unfold exportMove at h
  split at h
  case h_1 =>
      obtain ⟨hfree, rfl, rfl⟩ := acquire_move h
      exact .acquire _ hfree rfl (by simp [ExportAt.held])
  case h_2 =>
      obtain ⟨hfree, rfl, rfl⟩ := acquire_move h
      exact .acquire _ hfree rfl (by simp [ExportAt.held])
  case h_5 =>
      obtain ⟨rfl, rfl⟩ := some_move h
      refine .release .collectMetricsData (List.mem_cons_self ..) rfl fun l' => ?_
      cases l' <;> simp [ExportAt.held]
  case h_6 =>
      split at h <;> obtain ⟨rfl, rfl⟩ := some_move h
      · exact .keep rfl (by simp [ExportAt.held])
      · exact .keep rfl (by simp [ExportAt.held])
  case h_10 =>
      obtain ⟨rfl, rfl⟩ := some_move h
      exact .release _ (List.mem_singleton_self _) rfl (by simp [ExportAt.held])
  case h_11 => cases h
  all_goals
    obtain ⟨rfl, rfl⟩ := some_move h
    exact .keep rfl (by simp [ExportAt.held])

/-- The locks over a move of `shutdown`. -/
theorem shutdownMove_locks {pc : ShutdownAt} (h : shutdownMove f t pc e = some (f', fr)) :
    LocksStep t f.locks f'.locks pc.held fr.place.held := by
  unfold shutdownMove at h
  split at h
  case h_1 =>
      obtain ⟨hfree, rfl, rfl⟩ := acquire_move h
      exact .acquire _ hfree rfl (by simp [ShutdownAt.held])
  case h_2 =>
      obtain ⟨rfl, rfl⟩ := some_move h
      refine .keep rfl ?_
      cases f'.shutdownEvent <;> simp [ShutdownAt.held]
  case h_8 =>
      obtain ⟨rfl, rfl⟩ := some_move h
      exact .release _ (List.mem_singleton_self _) rfl (by simp [ShutdownAt.held])
  case h_9 => cases h
  all_goals
    obtain ⟨rfl, rfl⟩ := some_move h
    exact .keep rfl (by simp [ShutdownAt.held])

/-- The locks over a move of the start of the daemons. -/
theorem initMove_locks {pc : InitDaemonsAt} (h : initMove f t pc e = some (f', fr)) :
    LocksStep t f.locks f'.locks pc.held fr.place.held := by
  unfold initMove at h
  split at h
  case h_1 =>
      obtain ⟨hfree, rfl, rfl⟩ := acquire_move h
      exact .acquire _ hfree rfl (by simp [InitDaemonsAt.held])
  case h_2 =>
      obtain ⟨hfree, rfl, rfl⟩ := acquire_move h
      exact .acquire _ hfree rfl (by simp [InitDaemonsAt.held])
  case h_3 =>
      obtain ⟨rfl, rfl⟩ := some_move h
      exact .keep rfl (by simp [InitDaemonsAt.held])
  case h_4 =>
      obtain ⟨rfl, rfl⟩ := some_move h
      refine .release .exportMetricsData (List.mem_cons_self ..) rfl fun l' => ?_
      cases l' <;> simp [InitDaemonsAt.held]
  case h_5 =>
      obtain ⟨rfl, rfl⟩ := some_move h
      exact .release _ (List.mem_singleton_self _) rfl (by simp [InitDaemonsAt.held])
  case h_6 => cases h

theorem frame_held (m : ReaderMethod) : (m.frame : ReaderFrame ρ).place.held = [] := by
  cases m <;> rfl

/-- A move outside of the calls takes no lock. -/
theorem outsideMove_locks (h : s.outsideMove t e = some (f', fr)) :
    f' = s.fields ∧ fr.place.held = [] := by
  unfold outsideMove at h
  split at h
  · obtain ⟨rfl, rfl⟩ := some_move h
    refine ⟨rfl, ?_⟩
    split
    · rfl
    · exact ReaderFrame.next_held
  · obtain ⟨rfl, rfl⟩ := some_move h
    exact ⟨rfl, ReaderFrame.next_held⟩
  · split at h
    · obtain ⟨rfl, rfl⟩ := some_move h
      exact ⟨rfl, frame_held _⟩
    · cases h
  · cases h

/-- A move takes one lock that is free, gives one back, or leaves them alone. -/
theorem move_locks (h : s.move t e = some (f', fr)) :
    LocksStep t s.fields.locks f'.locks (s.threads t).place.held fr.place.held := by
  unfold move at h
  split at h
  case h_1 => cases h
  case h_2 hp =>
      obtain ⟨rfl, hnil⟩ := outsideMove_locks h
      exact .keep rfl (by simp [hp, hnil])
  case h_3 hp =>
      rw [hp]
      exact initMove_locks h
  case h_4 hp =>
      rw [hp]
      exact collectMove_locks h
  case h_5 hp =>
      rw [hp]
      exact exportMove_locks h
  case h_6 hp =>
      split at h
      · obtain ⟨rfl, rfl⟩ := some_move h
        exact .keep rfl (by simp [hp])
      · obtain ⟨rfl, rfl⟩ := some_move h
        exact .keep rfl (by simp [hp])
      · cases h
  case h_7 hp =>
      rw [hp]
      exact shutdownMove_locks h
  case h_8 => cases h

/-! ### What a move does to the buffers -/

/-- The buffers and the calls of the exporter stay, and so does what is between the
buffers; `store` is reached with what is in the collect buffer. -/
structure SameData (f f' : ReaderFields ρ) (p p' : ReaderAt ρ) : Prop where
  collectData : f'.collectMetricsData = f.collectMetricsData
  exportData : f'.exportMetricsData = f.exportMetricsData
  exports : f'.exports = f.exports
  received : f'.received = f.received
  flight : ∀ b, p'.flight b = p.flight b
  emptied : p'.emptied = p.emptied
  store : ∀ old rm, p' = .collect (.store old rm) → old = f.collectMetricsData

/-- What a move does with the buffers. -/
inductive DataStep (f f' : ReaderFields ρ) (p p' : ReaderAt ρ) : Prop
  | same : SameData f f' p p' → DataStep f f' p p'
  | receive (old : Option (List ρ)) (rm : List ρ) : p = .collect (.store old rm) →
      p' = .collect .stored →
      f' = { f with collectMetricsData := some (old.getD [] ++ rm)
                    received := f.received ++ rm } → DataStep f f' p p'
  | take : p = .exportIteration .withBoth → p' = .exportIteration (.rotate f.collectMetricsData) →
      f' = { f with collectMetricsData := none } → DataStep f f' p p'
  | rotate (taken : Option (List ρ)) : p = .exportIteration (.rotate taken) →
      p' = .exportIteration .rotated →
      f' = { f with exportMetricsData := taken } → DataStep f f' p p'
  | skip : p = .exportIteration .collectReleased → p' = .exportIteration .emptied →
      f.exportMetricsData = none → f' = f → DataStep f f' p p'
  | deliver (c : ExporterCall ρ) : p = .exportIteration .collectReleased →
      p' = .exportIteration .exporting →
      f.exportMetricsData = some c.metricsData → f' = { f with exports := f.exports ++ [c] } →
      DataStep f f' p p'
  | empty : p = .exportIteration .empty → p' = .exportIteration .emptied →
      f' = { f with exportMetricsData := none } → DataStep f f' p p'
  | boot : p = .initDaemons .withBoth → p' = .initDaemons .emptied →
      f' = { f with collectMetricsData := none, exportMetricsData := none } → DataStep f f' p p'

theorem DataStep.of_locks {l : ReaderLock → Option (Option ReaderThread)} {p p' : ReaderAt ρ}
    (hflight : ∀ b, p'.flight b = p.flight b) (hemptied : p'.emptied = p.emptied)
    (hstore : ∀ old rm, p' = .collect (.store old rm) → old = f.collectMetricsData) :
    DataStep f { f with locks := l } p p' :=
  .same ⟨rfl, rfl, rfl, rfl, hflight, hemptied, hstore⟩

theorem DataStep.of_next {l : ReaderLock → Option (Option ReaderThread)} {p : ReaderAt ρ}
    (hflight : ∀ b, p.flight b = []) (hemptied : p.emptied = true) :
    DataStep f { f with locks := l } p (ReaderFrame.next rest).place :=
  .of_locks (fun b => (ReaderFrame.next_flight b).trans (hflight b).symm)
    (ReaderFrame.next_emptied.trans hemptied.symm) fun old rm h =>
      absurd h (ReaderFrame.next_ne_store old rm)

/-- The metrics over a move of the collection loop. -/
theorem collectMove_data {pc : CollectAt ρ} (h : collectMove f t rest pc e = some (f', fr)) :
    DataStep f f' (.collect pc) fr.place := by
  unfold collectMove at h
  split at h
  case h_2 =>
      obtain ⟨rfl, rfl⟩ := some_move h
      exact .of_locks (fun _ => rfl) rfl (by simp)
  case h_5 =>
      obtain ⟨-, rfl, rfl⟩ := acquire_move h
      exact .of_locks (fun _ => rfl) rfl (by simp)
  case h_6 =>
      obtain ⟨rfl, rfl⟩ := some_move h
      exact .of_locks (fun _ => rfl) rfl (by simp)
  case h_7 old rm =>
      obtain ⟨rfl, rfl⟩ := some_move h
      exact .receive old rm rfl rfl rfl
  case h_9 => cases h
  all_goals
    obtain ⟨rfl, rfl⟩ := some_move h
    exact .of_next (fun _ => rfl) rfl

/-- The metrics over a move of the export loop. -/
theorem exportMove_data {pc : ExportAt ρ} (h : exportMove f t rest pc e = some (f', fr)) :
    DataStep f f' (.exportIteration pc) fr.place := by
  unfold exportMove at h
  split at h
  -- the two locks are taken
  case h_1 =>
      obtain ⟨-, rfl, rfl⟩ := acquire_move h
      exact .of_locks (fun _ => rfl) rfl (by simp)
  case h_2 =>
      obtain ⟨-, rfl, rfl⟩ := acquire_move h
      exact .of_locks (fun _ => rfl) rfl (by simp)
  case h_3 =>
      obtain ⟨rfl, rfl⟩ := some_move h
      exact .take rfl rfl rfl
  -- the buffer is taken and emptied
  case h_4 taken =>
      obtain ⟨rfl, rfl⟩ := some_move h
      exact .rotate taken rfl rfl rfl
  -- nothing was taken, or it is exported
  case h_6 =>
      split at h
      next hnone =>
          obtain ⟨rfl, rfl⟩ := some_move h
          exact .skip rfl rfl hnone rfl
      next data hdata =>
          obtain ⟨rfl, rfl⟩ := some_move h
          exact .deliver _ rfl rfl hdata rfl
  case h_9 =>
      obtain ⟨rfl, rfl⟩ := some_move h
      exact .empty rfl rfl rfl
  case h_10 =>
      obtain ⟨rfl, rfl⟩ := some_move h
      exact .of_next (fun _ => rfl) rfl
  case h_11 => cases h
  all_goals
    obtain ⟨rfl, rfl⟩ := some_move h
    exact .of_locks (fun _ => rfl) rfl (by simp)

/-- The metrics over a move of `shutdown`. -/
theorem shutdownMove_data {pc : ShutdownAt} (h : shutdownMove f t pc e = some (f', fr)) :
    DataStep f f' (.shutdown pc) fr.place := by
  unfold shutdownMove at h
  split at h
  case h_1 =>
      obtain ⟨-, rfl, rfl⟩ := acquire_move h
      exact .of_locks (fun _ => rfl) rfl (by simp)
  case h_9 => cases h
  all_goals
    obtain ⟨rfl, rfl⟩ := some_move h
    exact .same ⟨rfl, rfl, rfl, rfl, fun _ => rfl, rfl, by simp⟩

/-- The metrics over a move of the start of the daemons. -/
theorem initMove_data {pc : InitDaemonsAt} (h : initMove f t pc e = some (f', fr)) :
    DataStep f f' (.initDaemons pc) fr.place := by
  unfold initMove at h
  split at h
  case h_3 =>
      obtain ⟨rfl, rfl⟩ := some_move h
      exact .boot rfl rfl rfl
  case h_6 => cases h
  case h_1 =>
      obtain ⟨-, rfl, rfl⟩ := acquire_move h
      exact .of_locks (fun _ => rfl) rfl (by simp)
  case h_2 =>
      obtain ⟨-, rfl, rfl⟩ := acquire_move h
      exact .of_locks (fun _ => rfl) rfl (by simp)
  all_goals
    obtain ⟨rfl, rfl⟩ := some_move h
    exact .of_locks (fun _ => rfl) rfl (by simp)

/-- A move does one thing with the buffers. -/
theorem move_data (h : s.move t e = some (f', fr)) :
    DataStep s.fields f' (s.threads t).place fr.place := by
  unfold move at h
  split at h
  case h_1 => cases h
  case h_2 hp =>
      rw [hp]
      unfold outsideMove at h
      split at h
      · obtain ⟨rfl, rfl⟩ := some_move h
        split
        · exact .of_locks (fun _ => rfl) rfl (by simp)
        · exact .of_next (fun _ => rfl) rfl
      · obtain ⟨rfl, rfl⟩ := some_move h
        exact .of_next (fun _ => rfl) rfl
      · split at h
        next m _ =>
            obtain ⟨rfl, rfl⟩ := some_move h
            cases m
            · exact .of_next (fun _ => rfl) rfl
            · exact .of_next (fun _ => rfl) rfl
            · exact .of_locks (fun _ => rfl) rfl (by simp [ReaderMethod.frame])
        next => cases h
      · cases h
  case h_3 hp =>
      rw [hp]
      exact initMove_data h
  case h_4 hp =>
      rw [hp]
      exact collectMove_data h
  case h_5 hp =>
      rw [hp]
      exact exportMove_data h
  case h_6 hp =>
      rw [hp]
      split at h
      · obtain ⟨rfl, rfl⟩ := some_move h
        exact .of_next (fun _ => rfl) rfl
      · obtain ⟨rfl, rfl⟩ := some_move h
        exact .of_next (fun _ => rfl) rfl
      · cases h
  case h_7 hp =>
      rw [hp]
      exact shutdownMove_data h
  case h_8 => cases h

/-! ### What a move does to the phases of a process -/

/-- `_init_daemons` is left only where it starts the daemons, and nothing else comes
to it. -/
theorem move_phase (h : s.move t e = some (f', fr)) :
    fr.place ≠ .notStarted ∧ (s.threads t).place ≠ .notStarted ∧
      ((∃ pc, fr.place = .initDaemons pc) ↔ ∃ pc, (s.threads t).place = .initDaemons pc) ∧
      (s.threads t).place ≠ .initDaemons .startExport := by
  unfold move at h
  split at h
  case h_1 => cases h
  -- outside: the next call begins, or the thread ends
  case h_2 hp =>
      rw [hp]
      suffices hout : fr.place ≠ .notStarted ∧ ∀ pc, fr.place ≠ .initDaemons pc from
        ⟨hout.1, by simp, by simp [hout.2], by simp⟩
      unfold outsideMove at h
      split at h
      · obtain ⟨-, rfl⟩ := some_move h
        split
        · simp
        · exact ⟨ReaderFrame.next_ne_notStarted, ReaderFrame.next_ne_initDaemons⟩
      · obtain ⟨-, rfl⟩ := some_move h
        exact ⟨ReaderFrame.next_ne_notStarted, ReaderFrame.next_ne_initDaemons⟩
      · split at h
        next m _ =>
            obtain ⟨-, rfl⟩ := some_move h
            cases m <;> simp [ReaderMethod.frame, ReaderFrame.next]
        next => cases h
      · cases h
  -- inside `_init_daemons`, which it leaves by starting the daemons only
  case h_3 hp =>
      rw [hp]
      unfold initMove at h
      split at h
      case h_1 => obtain ⟨-, -, rfl⟩ := acquire_move h; simp
      case h_2 => obtain ⟨-, -, rfl⟩ := acquire_move h; simp
      case h_6 => cases h
      all_goals obtain ⟨-, rfl⟩ := some_move h; simp
  -- inside of a collection
  case h_4 hp =>
      rw [hp]
      unfold collectMove at h
      split at h
      case h_5 => obtain ⟨-, -, rfl⟩ := acquire_move h; simp
      case h_9 => cases h
      all_goals
        obtain ⟨-, rfl⟩ := some_move h
        simp [ReaderFrame.next_ne_notStarted, ReaderFrame.next_ne_initDaemons]
  -- inside of an export
  case h_5 hp =>
      rw [hp]
      unfold exportMove at h
      split at h
      case h_1 => obtain ⟨-, -, rfl⟩ := acquire_move h; simp
      case h_2 => obtain ⟨-, -, rfl⟩ := acquire_move h; simp
      case h_6 => split at h <;> obtain ⟨-, rfl⟩ := some_move h <;> simp
      case h_11 => cases h
      all_goals
        obtain ⟨-, rfl⟩ := some_move h
        simp [ReaderFrame.next_ne_notStarted, ReaderFrame.next_ne_initDaemons]
  -- after the export
  case h_6 hp =>
      rw [hp]
      split at h
      case h_3 => cases h
      all_goals
        obtain ⟨-, rfl⟩ := some_move h
        simp [ReaderFrame.next_ne_notStarted, ReaderFrame.next_ne_initDaemons]
  -- inside of `shutdown`
  case h_7 hp =>
      rw [hp]
      unfold shutdownMove at h
      split at h
      case h_1 => obtain ⟨-, -, rfl⟩ := acquire_move h; simp
      case h_9 => cases h
      all_goals obtain ⟨-, rfl⟩ := some_move h; simp
  case h_8 => cases h

/-- A step is a move, or one of the two by which `_init_daemons` starts a daemon. -/
theorem step_cases (h : s.step (t, e) = some s') :
    (∃ f' fr, s.move t e = some (f', fr) ∧ s' = ⟨f', Function.update s.threads t fr⟩) ∨
    ((s.threads t).place = .initDaemons .startCollect ∧ s' = ⟨s.fields, Function.update
      (Function.update s.threads t ⟨.initDaemons .startExport, []⟩) .collectDaemon
      ⟨.outside, []⟩⟩) ∨
    ((s.threads t).place = .initDaemons .startExport ∧ s' = ⟨s.fields, Function.update
      (Function.update s.threads t ⟨.outside, []⟩) .exportDaemon ⟨.outside, []⟩⟩) := by
  unfold step at h
  dsimp only at h
  split at h
  next hp => exact Or.inr (Or.inl ⟨hp, (Option.some.inj h).symm⟩)
  next hp => exact Or.inr (Or.inr ⟨hp, (Option.some.inj h).symm⟩)
  next =>
      obtain ⟨⟨f', fr⟩, hmove, heq⟩ := Option.map_eq_some_iff.mp h
      exact Or.inl ⟨f', fr, hmove, heq.symm⟩

/-! ### The invariant -/

/-- Which thread is where it has which lock; a thread that a fork did not copy has
what it had. -/
def holds (s : MetricsReader ρ) : Option ReaderThread → ReaderLock → Prop
  | none, l => s.fields.locks l = some none
  | some t, l => l ∈ (s.threads t).place.held

/-- While `_init_daemons` runs, its thread is alone: before it starts the collect
daemon there is no other thread, and no call comes before it has started both. -/
structure Alone (s : MetricsReader ρ) (pc : InitDaemonsAt) : Prop where
  callers : ∀ n, (s.threads (.caller (n + 1))).place = .outside
  exportDaemon : (s.threads .exportDaemon).place = .notStarted
  collectDaemon : pc ≠ .startExport → (s.threads .collectDaemon).place = .notStarted

/-- What every run keeps of the locks and the daemons. -/
structure Inv (s : MetricsReader ρ) : Prop where
  held : Held s.holds s.fields.locks
  initThread : ∀ t pc, (s.threads t).place = .initDaemons pc → t = .caller 0
  alone : ∀ pc, (s.threads (.caller 0)).place = .initDaemons pc → s.Alone pc
  started : (s.threads .exportDaemon).place = .notStarted →
    ∃ pc, (s.threads (.caller 0)).place = .initDaemons pc
  store : ∀ t old rm, (s.threads t).place = .collect (.store old rm) →
    old = s.fields.collectMetricsData

theorem boot_place (t : ReaderThread) :
    ((boot f).threads t).place = .initDaemons .enter ∧ t = .caller 0 ∨
      ((boot f).threads t).place = .outside ∧ (∃ n, t = .caller (n + 1)) ∨
      ((boot f).threads t).place = .notStarted := by
  rcases t with - | - | (- | n)
  · exact Or.inr (Or.inr rfl)
  · exact Or.inr (Or.inr rfl)
  · exact Or.inl ⟨rfl, rfl⟩
  · exact Or.inr (Or.inl ⟨rfl, n, rfl⟩)

theorem boot_held (t : ReaderThread) : ((boot f).threads t).place.held = [] := by
  rcases boot_place (f := f) t with ⟨hp, -⟩ | ⟨hp, -⟩ | hp <;> rw [hp] <;> rfl

/-- The invariant at the boot of a process. -/
theorem boot_inv (hlocks : ∀ l t, f.locks l ≠ some (some t)) : (boot f).Inv where
  held t l := by
    cases t with
    | none => exact Iff.rfl
    | some t =>
        show l ∈ ((boot f).threads t).place.held ↔ f.locks l = some (some t)
        rw [boot_held]
        exact iff_of_false (by simp) (hlocks l t)
  initThread t pc hp := by
    rcases boot_place (f := f) t with ⟨-, ht⟩ | ⟨hp', -⟩ | hp'
    · exact ht
    · rw [hp'] at hp
      cases hp
    · rw [hp'] at hp
      cases hp
  alone pc _ := ⟨fun _ => rfl, rfl, fun _ => rfl⟩
  started _ := ⟨_, rfl⟩
  store t old rm hp := by
    rcases boot_place (f := f) t with ⟨hp', -⟩ | ⟨hp', -⟩ | hp' <;> rw [hp'] at hp <;> cases hp

theorem Inv.fork (_h : s.Inv) : s.fork.Inv :=
  boot_inv fun l t => by
    show (s.fields.locks l).map (fun _ => none) ≠ some (some t)
    cases s.fields.locks l <;> simp

theorem initial_inv : (initial : MetricsReader ρ).Inv := boot_inv fun _ _ => by simp

/-- The table of the locks after a move. -/
theorem held_update (h : Held s.holds s.fields.locks)
    (hlocks : LocksStep t s.fields.locks f'.locks (s.threads t).place.held fr.place.held) :
    Held (holds ⟨f', Function.update s.threads t fr⟩) f'.locks := by
  have hself : ∀ l, holds ⟨f', Function.update s.threads t fr⟩ (some t) l ↔ l ∈ fr.place.held := by
    intro l
    show l ∈ (Function.update s.threads t fr t).place.held ↔ _
    rw [Function.update_self]
  have hother : ∀ t', t' ≠ t → ∀ l,
      (holds ⟨f', Function.update s.threads t fr⟩ (some t') l ↔ s.holds (some t') l) := by
    intro t' ht l
    show l ∈ (Function.update s.threads t fr t').place.held ↔ _
    rw [Function.update_of_ne ht]
    exact Iff.rfl
  -- what the parent's threads have
  have hnone : ∀ l, f'.locks l = some none ↔ s.fields.locks l = some none := by
    intro l
    rcases hlocks with ⟨heq, -⟩ | ⟨l', hfree, heq, -⟩ | ⟨l', hmem, heq, -⟩
    · rw [heq]
    · rw [heq]
      by_cases hl : l = l'
      · subst hl
        rw [Function.update_self, hfree]
        simp
      · rw [Function.update_of_ne hl]
    · rw [heq]
      by_cases hl : l = l'
      · subst hl
        rw [Function.update_self, (h (some t) l).mp hmem]
        simp
      · rw [Function.update_of_ne hl]
  have hothers : ∀ t', t' ≠ some t → ∀ l,
      (holds ⟨f', Function.update s.threads t fr⟩ t' l ↔ s.holds t' l) := by
    intro t' ht l
    cases t' with
    | none => exact hnone l
    | some t' => exact hother t' (fun heq => ht (congrArg some heq)) l
  rcases hlocks with ⟨heq, hmem⟩ | ⟨l, hfree, heq, hmem⟩ | ⟨l, hheld, heq, hmem⟩
  · rw [heq]
    refine h.keep fun t' l => ?_
    by_cases ht : t' = some t
    · subst ht
      exact (hself l).trans (hmem l)
    · exact hothers t' ht l
  · rw [heq]
    exact h.acquire hfree hothers fun l' => (hself l').trans (hmem l')
  · rw [heq]
    exact h.release (t := some t) hheld hothers fun l' => (hself l').trans (hmem l')

/-- The thread that writes the collect buffer has its lock. -/
theorem DataStep.collect_held {p p' : ReaderAt ρ} (h : DataStep f f' p p') :
    f'.collectMetricsData = f.collectMetricsData ∨ .collectMetricsData ∈ p.held := by
  rcases h with hsame | ⟨old, rm, rfl, -, -⟩ | ⟨rfl, -, -⟩ | ⟨taken, -, -, rfl⟩ | ⟨-, -, -, rfl⟩ |
    ⟨c, -, -, -, rfl⟩ | ⟨-, -, rfl⟩ | ⟨rfl, -, -⟩
  · exact Or.inl hsame.collectData
  · exact Or.inr (by simp [CollectAt.held])
  · exact Or.inr (by simp [ExportAt.held])
  · exact Or.inl rfl
  · exact Or.inl rfl
  · exact Or.inl rfl
  · exact Or.inl rfl
  · exact Or.inr (by simp [InitDaemonsAt.held])

theorem DataStep.store {p p' : ReaderAt ρ} (h : DataStep f f' p p') {old : Option (List ρ)}
    {rm : List ρ} (hp' : p' = .collect (.store old rm)) : old = f'.collectMetricsData := by
  rcases h with hsame | ⟨_, _, -, rfl, -⟩ | ⟨-, rfl, -⟩ | ⟨taken, -, rfl, -⟩ | ⟨-, rfl, -⟩ |
    ⟨c, -, rfl, -⟩ | ⟨-, rfl, -⟩ | ⟨-, rfl, -⟩
  · exact (hsame.store old rm hp').trans hsame.collectData.symm
  all_goals cases hp'

/-- No one but the thread of `_init_daemons` moves before it starts the daemons. -/
theorem Alone.not_move {pc : InitDaemonsAt} (h : s.Alone pc) (ht : t ≠ .caller 0)
    (hmove : s.move t e = some (f', fr)) : t = .collectDaemon ∧ pc = .startExport := by
  rcases t with - | - | (- | n)
  · refine ⟨rfl, ?_⟩
    by_contra hpc
    exact (move_phase hmove).2.1 (h.collectDaemon hpc)
  · exact absurd h.exportDaemon (move_phase hmove).2.1
  · exact absurd rfl ht
  · unfold move at hmove
    rw [h.callers n] at hmove
    dsimp only at hmove
    unfold outsideMove at hmove
    split at hmove
    case h_3 =>
        rw [if_neg (by simp [hasDaemons, h.exportDaemon])] at hmove
        cases hmove
    all_goals simp at *

/-- A move of one thread keeps the invariant. -/
theorem Inv.of_move (h : s.Inv) (hmove : s.move t e = some (f', fr))
    (hs' : s' = ⟨f', Function.update s.threads t fr⟩) : s'.Inv := by
  obtain ⟨hfr, -, hinit, hpc⟩ := move_phase hmove
  have hdata := move_data hmove
  have hheld : Held s'.holds s'.fields.locks := by
    rw [hs']
    exact held_update h.held (move_locks hmove)
  have hself : s'.threads t = fr := by rw [hs']; exact Function.update_self ..
  have hother : ∀ t', t' ≠ t → s'.threads t' = s.threads t' := by
    intro t' ht
    rw [hs']
    exact Function.update_of_ne ht ..
  obtain rfl : f' = s'.fields := by rw [hs']
  clear hs'
  refine ⟨hheld, fun t' pc hp => ?_, fun pc hp => ?_, fun hp => ?_, fun t' old rm hp => ?_⟩
  · by_cases ht : t' = t
    · subst ht
      rw [hself] at hp
      obtain ⟨pc', hpc'⟩ := hinit.mp ⟨pc, hp⟩
      exact h.initThread t' pc' hpc'
    · rw [hother t' ht] at hp
      exact h.initThread t' pc hp
  · by_cases ht : t = .caller 0
    · subst ht
      rw [hself] at hp
      obtain ⟨pc', hpc'⟩ := hinit.mp ⟨pc, hp⟩
      have halone := h.alone pc' hpc'
      refine ⟨fun n => ?_, ?_, fun _ => ?_⟩
      · rw [hother _ (by simp)]
        exact halone.callers n
      · rw [hother _ (by simp)]
        exact halone.exportDaemon
      · rw [hother _ (by simp)]
        exact halone.collectDaemon fun heq => hpc (heq ▸ hpc')
    · rw [hother _ (Ne.symm ht)] at hp
      have halone := h.alone pc hp
      obtain ⟨rfl, rfl⟩ := halone.not_move ht hmove
      refine ⟨fun n => ?_, ?_, fun hne => absurd rfl hne⟩
      · rw [hother _ (by simp)]
        exact halone.callers n
      · rw [hother _ (by simp)]
        exact halone.exportDaemon
  · by_cases ht : t = .exportDaemon
    · rw [ht] at hself
      rw [hself] at hp
      exact absurd hp hfr
    · rw [hother _ (Ne.symm ht)] at hp
      obtain ⟨pc, hpc₀⟩ := h.started hp
      by_cases hc : t = .caller 0
      · subst hc
        rw [hself]
        exact hinit.mpr ⟨pc, hpc₀⟩
      · exact ⟨pc, by rw [hother _ (Ne.symm hc)]; exact hpc₀⟩
  · by_cases ht : t' = t
    · subst ht
      rw [hself] at hp
      exact hdata.store hp
    · rw [hother t' ht] at hp
      rcases hdata.collect_held with hsame | hmem
      · exact (h.store t' old rm hp).trans hsame.symm
      · -- only one thread has the lock
        have hlock : s.holds (some t') .collectMetricsData := by
          show _ ∈ (s.threads t').place.held
          rw [hp]
          simp [CollectAt.held]
        exact absurd (Option.some.inj (h.held.unique hlock (hmem : s.holds (some t) _))) ht

/-- The locks stay where no thread comes to a place with others. -/
theorem held_same (h : Held s.holds s.fields.locks) (hfields : s'.fields = s.fields)
    (hheld : ∀ t, (s'.threads t).place.held = (s.threads t).place.held) :
    Held s'.holds s'.fields.locks := by
  rw [hfields]
  refine h.keep fun t l => ?_
  cases t with
  | none => rw [holds, holds, hfields]
  | some t => rw [holds, holds, hheld t]

/-- The start of the collection daemon keeps the invariant. -/
theorem Inv.of_startCollect (h : s.Inv)
    (hp : (s.threads (.caller 0)).place = .initDaemons .startCollect)
    (hfields : s'.fields = s.fields)
    (hself : s'.threads (.caller 0) = ⟨.initDaemons .startExport, []⟩)
    (hdaemon : s'.threads .collectDaemon = ⟨.outside, []⟩)
    (hother : ∀ t, t ≠ .caller 0 → t ≠ .collectDaemon → s'.threads t = s.threads t) : s'.Inv := by
  have halone := h.alone _ hp
  have hexport : (s'.threads .exportDaemon).place = .notStarted := by
    rw [hother _ (by simp) (by simp)]
    exact halone.exportDaemon
  refine ⟨held_same h.held hfields fun t => ?_, fun t pc ht => ?_, fun pc hpc => ?_, fun _ => ?_,
    fun t old rm ht => ?_⟩
  -- neither the initial thread nor the daemon holds a lock
  · by_cases hc : t = .caller 0
    · rw [hc, hself, hp]
      rfl
    · by_cases hd : t = .collectDaemon
      · rw [hd, hdaemon, halone.collectDaemon (by simp)]
        rfl
      · rw [hother t hc hd]
  · by_contra hc
    by_cases hd : t = .collectDaemon
    · rw [hd, hdaemon] at ht
      cases ht
    · rw [hother t hc hd] at ht
      exact hc (h.initThread t pc ht)
  -- the initial thread is alone still, but for the collection daemon
  · obtain rfl : .startExport = pc := by
      rw [hself] at hpc
      exact ReaderAt.initDaemons.inj hpc
    refine ⟨fun n => ?_, hexport, fun hne => absurd rfl hne⟩
    rw [hother _ (by simp) (by simp)]
    exact halone.callers n
  · exact ⟨_, by rw [hself]⟩
  · rw [hfields]
    by_cases hc : t = .caller 0
    -- neither of the two is about to store
    · rw [hc, hself] at ht
      cases ht
    · by_cases hd : t = .collectDaemon
      · rw [hd, hdaemon] at ht
        cases ht
      · rw [hother t hc hd] at ht
        exact h.store t old rm ht

/-- The start of the export daemon keeps the invariant. -/
theorem Inv.of_startExport (h : s.Inv)
    (hp : (s.threads (.caller 0)).place = .initDaemons .startExport)
    (hfields : s'.fields = s.fields) (hself : s'.threads (.caller 0) = ⟨.outside, []⟩)
    (hdaemon : s'.threads .exportDaemon = ⟨.outside, []⟩)
    (hother : ∀ t, t ≠ .caller 0 → t ≠ .exportDaemon → s'.threads t = s.threads t) : s'.Inv := by
  have halone := h.alone _ hp
  refine ⟨held_same h.held hfields fun t => ?_, fun t pc ht => ?_, fun pc hpc => ?_, fun hno => ?_,
    fun t old rm ht => ?_⟩
  · by_cases hc : t = .caller 0
    · rw [hc, hself, hp]
      rfl
    · by_cases hd : t = .exportDaemon
      · rw [hd, hdaemon, halone.exportDaemon]
        rfl
      · rw [hother t hc hd]
  · by_contra hc
    by_cases hd : t = .exportDaemon
    · rw [hd, hdaemon] at ht
      cases ht
    · rw [hother t hc hd] at ht
      exact hc (h.initThread t pc ht)
  · rw [hself] at hpc
    cases hpc
  · rw [hdaemon] at hno
    cases hno
  · rw [hfields]
    by_cases hc : t = .caller 0
    · rw [hc, hself] at ht
      cases ht
    · by_cases hd : t = .exportDaemon
      · rw [hd, hdaemon] at ht
        cases ht
      · rw [hother t hc hd] at ht
        exact h.store t old rm ht

/-- **Every step** keeps the invariant. -/
theorem Inv.step {a : ReaderThread × ReaderEvent ρ} (h : s.Inv) (hstep : s.step a = some s') :
    s'.Inv := by
  obtain ⟨t, e⟩ := a
  rcases step_cases hstep with ⟨f', fr, hmove, hs'⟩ | ⟨hp, hs'⟩ | ⟨hp, hs'⟩
  · exact h.of_move hmove hs'
  · obtain rfl := h.initThread t _ hp
    subst hs'
    exact h.of_startCollect hp rfl (by simp) (by simp) fun t hc hd => by simp [hc, hd]
  · obtain rfl := h.initThread t _ hp
    subst hs'
    exact h.of_startExport hp rfl (by simp) (by simp) fun t hc hd => by simp [hc, hd]

theorem IsProcess.inv (h : s.IsProcess) : s.Inv := by
  induction h with
  | start => exact initial_inv
  | step _ hstep ih => exact ih.step hstep
  | fork _ ih => exact ih.fork

/-! ### The channel -/

/-- What has left the collect buffer and not come to the exporter: the thread that has
the lock of the export buffer has it. -/
def flight (s : MetricsReader ρ) : List ρ :=
  match s.fields.locks .exportMetricsData with
  | some (some t) => (s.threads t).place.flight s.fields.exportMetricsData
  | _ => []

/-- The collect buffer, once `_init_daemons` has emptied it. -/
def waiting (s : MetricsReader ρ) : List ρ :=
  if (s.threads (.caller 0)).place.emptied then s.fields.collectMetricsData.getD [] else []

/-- The reader as a channel from what receives metrics to the exporter. -/
def channel (s : MetricsReader ρ) : Channel ρ where
  delivered := s.fields.exports.flatMap ExporterCall.metricsData
  taken := s.flight
  waiting := s.waiting
  received := s.fields.received

/-- A forked process starts with an empty channel, whatever the buffers have. -/
theorem channel_fork (s : MetricsReader ρ) : s.fork.channel = {} := by
  have hflight : s.fork.flight = [] := by
    show (match (s.fields.locks .exportMetricsData).map (fun _ => (none : Option ReaderThread)) with
      | some (some t) => _
      | _ => []) = _
    cases s.fields.locks .exportMetricsData <;> rfl
  rw [channel, hflight]
  rfl

/-- Only one thread has something between the buffers. -/
theorem flight_of_only (h : Held s.holds s.fields.locks)
    (honly : ∀ t', t' ≠ t → .exportMetricsData ∉ (s.threads t').place.held) :
    s.flight = (s.threads t).place.flight s.fields.exportMetricsData := by
  unfold flight
  split
  next t' hlock =>
      have hheld : s.holds (some t') .exportMetricsData := (h _ _).mpr hlock
      obtain rfl : t' = t := by
        by_contra ht
        exact honly t' ht hheld
      rfl
  next hno =>
      refine (ReaderAt.flight_of_not_held (fun hheld => ?_) _).symm
      exact hno t ((h (some t) _).mp hheld)

/-- The thread that writes the export buffer, or calls the exporter, has the lock. -/
theorem DataStep.export_held {p p' : ReaderAt ρ} (h : DataStep f f' p p') :
    (SameData f f' p p' ∨ ∃ old rm, p = .collect (.store old rm) ∧ p' = .collect .stored ∧
      f' = { f with collectMetricsData := some (old.getD [] ++ rm)
                    received := f.received ++ rm }) ∨
      .exportMetricsData ∈ p.held := by
  rcases h with hsame | ⟨old, rm, hp, hp', hf⟩ | ⟨rfl, -, -⟩ | ⟨taken, rfl, -, -⟩ |
    ⟨rfl, -, -⟩ | ⟨c, rfl, -⟩ | ⟨rfl, -, -⟩ | ⟨rfl, -, -⟩
  · exact Or.inl (Or.inl hsame)
  · exact Or.inl (Or.inr ⟨old, rm, hp, hp', hf⟩)
  all_goals exact Or.inr (by simp [ExportAt.held, InitDaemonsAt.held])

/-- Where `_init_daemons` has still to empty the buffers, only its thread moves. -/
theorem Inv.emptied_of_move (h : s.Inv) (hmove : s.move t e = some (f', fr))
    (hp : (s.threads t).place.emptied = true) :
    (s.threads (.caller 0)).place.emptied = true := by
  by_cases ht : t = .caller 0
  · rw [← ht]
    exact hp
  · by_contra hno
    rw [Bool.not_eq_true, ReaderAt.emptied_iff] at hno
    rcases hno with hpc | hpc | hpc
    · cases ((h.alone _ hpc).not_move ht hmove).2
    · cases ((h.alone _ hpc).not_move ht hmove).2
    · cases ((h.alone _ hpc).not_move ht hmove).2

/-- Others keep what is between the buffers. -/
theorem flight_other (h : Held s.holds s.fields.locks) (h' : Held s'.holds s'.fields.locks)
    {t' : ReaderThread} (ht' : .exportMetricsData ∈ (s.threads t').place.held)
    (hsame : s'.threads t' = s.threads t')
    (hdata : s'.fields.exportMetricsData = s.fields.exportMetricsData) : s'.flight = s.flight := by
  have hl : s.fields.locks .exportMetricsData = some (some t') := (h (some t') _).mp ht'
  have hl' : s'.fields.locks .exportMetricsData = some (some t') :=
    (h' (some t') _).mp (by rw [holds, hsame]; exact ht')
  rw [flight, flight, hl, hl']
  dsimp only
  rw [hsame, hdata]

theorem channel_eq (hexports : s'.fields.exports = s.fields.exports)
    (hflight : s'.flight = s.flight) (hwaiting : s'.waiting = s.waiting)
    (hreceived : s'.fields.received = s.fields.received) : s'.channel = s.channel := by
  rw [channel, channel, hexports, hflight, hwaiting, hreceived]

/-- A move that leaves the buffers alone. -/
theorem SameData.waiting (h : SameData s.fields s'.fields (s.threads t).place (s'.threads t).place)
    (hother : ∀ t', t' ≠ t → s'.threads t' = s.threads t') : s'.waiting = s.waiting := by
  have hemptied : (s'.threads (.caller 0)).place.emptied =
      (s.threads (.caller 0)).place.emptied := by
    by_cases ht : t = .caller 0
    · rw [← ht]
      exact h.emptied
    · rw [hother _ (Ne.symm ht)]
  rw [MetricsReader.waiting, MetricsReader.waiting, hemptied, h.collectData]

/-- What the collect buffer has before and after a move outside `_init_daemons`. -/
theorem Inv.waiting_of_move (h : s.Inv) (hmove : s.move t e = some (s'.fields, s'.threads t))
    (hother : ∀ t', t' ≠ t → s'.threads t' = s.threads t')
    (hp : (s.threads t).place.emptied = true) (hp' : (s'.threads t).place.emptied = true) :
    s.waiting = s.fields.collectMetricsData.getD [] ∧
      s'.waiting = s'.fields.collectMetricsData.getD [] := by
  have hmain := h.emptied_of_move hmove hp
  have hmain' : (s'.threads (.caller 0)).place.emptied = true := by
    by_cases ht : t = .caller 0
    · rw [← ht]
      exact hp'
    · rw [hother _ (Ne.symm ht)]
      exact hmain
  exact ⟨if_pos hmain, if_pos hmain'⟩

/-- `_receive_metrics` adds to what waits. -/
theorem Inv.follows_receive (h : s.Inv) (hmove : s.move t e = some (s'.fields, s'.threads t))
    (hother : ∀ t', t' ≠ t → s'.threads t' = s.threads t') {old : Option (List ρ)} {rm : List ρ}
    (hp : (s.threads t).place = .collect (.store old rm))
    (hp' : (s'.threads t).place = .collect .stored)
    (hf : s'.fields = { s.fields with
      collectMetricsData := some (old.getD [] ++ rm), received := s.fields.received ++ rm })
    (hflight : s'.flight = s.flight) : Channel.Follows channel s s' := by
  obtain ⟨hw, hw'⟩ := h.waiting_of_move hmove hother (by rw [hp]; rfl) (by rw [hp']; rfl)
  refine .of_step (a := .receive rm) ?_
  rw [Channel.step, channel, channel, hw, hw', hflight, hf, ← h.store t old rm hp]
  rfl

/-- A move is a step of the channel, or none. -/
theorem Inv.follows_of_move (h : s.Inv) (hmove : s.move t e = some (s'.fields, s'.threads t))
    (hother : ∀ t', t' ≠ t → s'.threads t' = s.threads t') (h' : s'.Inv) :
    Channel.Follows channel s s' := by
  have hdata := move_data hmove
  have hwait := h.waiting_of_move hmove hother
  by_cases hex : ∃ t', t' ≠ t ∧ .exportMetricsData ∈ (s.threads t').place.held
  · -- another thread has the lock of the export buffer, so this one does not write it
    obtain ⟨t', ht, hheld⟩ := hex
    rcases hdata.export_held with (hsame | ⟨old, rm, hp, hp', hf⟩) | hmem
    · have hflight := flight_other h.held h'.held hheld (hother t' ht) hsame.exportData
      exact .of_eq (channel_eq hsame.exports hflight (hsame.waiting hother) hsame.received)
    · have hflight := flight_other h.held h'.held hheld (hother t' ht) (by rw [hf])
      exact h.follows_receive hmove hother hp hp' hf hflight
    · have hholds : s.holds (some t) .exportMetricsData := hmem
      exact absurd (Option.some.inj (h.held.unique (t := some t') hheld hholds)) ht
  · have honly : ∀ t', t' ≠ t → .exportMetricsData ∉ (s.threads t').place.held :=
      fun t' ht hheld => hex ⟨t', ht, hheld⟩
    have hf₀ := flight_of_only h.held honly
    have hf₁ := flight_of_only h'.held fun t' ht => by
      rw [hother t' ht]
      exact honly t' ht
    rcases hdata with hsame | ⟨old, rm, hp, hp', hf⟩ | ⟨hp, hp', hf⟩ | ⟨taken, hp, hp', hf⟩ |
      ⟨hp, hp', hnone, hf⟩ | ⟨c, hp, hp', hsome, hf⟩ | ⟨hp, hp', hf⟩ | ⟨hp, hp', hf⟩
    · refine .of_eq (channel_eq hsame.exports ?_ (hsame.waiting hother) hsame.received)
      rw [hf₀, hf₁, hsame.exportData, hsame.flight]
    · refine h.follows_receive hmove hother hp hp' hf ?_
      rw [hf₀, hf₁, hp, hp']
      rfl
    · -- the rotation takes all that waits
      obtain ⟨hw, hw'⟩ := hwait (by rw [hp]; rfl) (by rw [hp']; rfl)
      refine .of_step (a := .take) ?_
      rw [Channel.step, channel, channel, hw, hw', hf₀, hf₁, hp, hp', hf]
      rfl
    · obtain ⟨hw, hw'⟩ := hwait (by rw [hp]; rfl) (by rw [hp']; rfl)
      refine .of_eq (channel_eq (by rw [hf]) ?_ (by rw [hw, hw', hf]) (by rw [hf]))
      rw [hf₀, hf₁, hp, hp', hf]
      rfl
    · obtain ⟨hw, hw'⟩ := hwait (by rw [hp]; rfl) (by rw [hp']; rfl)
      refine .of_eq (channel_eq (by rw [hf]) ?_ (by rw [hw, hw', hf]) (by rw [hf]))
      rw [hf₀, hf₁, hp, hp', hnone]
      rfl
    · -- the exporter gets what has been taken
      obtain ⟨hw, hw'⟩ := hwait (by rw [hp]; rfl) (by rw [hp']; rfl)
      refine .of_step (a := .deliver) ?_
      rw [Channel.step, channel, channel, hw, hw', hf₀, hf₁, hp, hp', hf]
      simp [ReaderAt.flight, hsome]
    · obtain ⟨hw, hw'⟩ := hwait (by rw [hp]; rfl) (by rw [hp']; rfl)
      refine .of_eq (channel_eq (by rw [hf]) ?_ (by rw [hw, hw', hf]) (by rw [hf]))
      rw [hf₀, hf₁, hp, hp']
      rfl
    · -- the buffers are emptied before anything is received
      obtain rfl := h.initThread t _ hp
      refine .of_eq (channel_eq (by rw [hf]) ?_ ?_ (by rw [hf]))
      · rw [hf₀, hf₁, hp, hp']
        rfl
      · rw [waiting, waiting, hp, hp', hf]
        rfl

/-- Where `_init_daemons` starts a daemon, nothing is taken or given. -/
theorem Inv.follows_of_start (h : s.Inv) (h' : s'.Inv) (hfields : s'.fields = s.fields)
    (hheld : ∀ t, .exportMetricsData ∈ (s.threads t).place.held → s'.threads t = s.threads t)
    (hheld' : ∀ t, .exportMetricsData ∈ (s'.threads t).place.held → s'.threads t = s.threads t)
    (hemptied : (s'.threads (.caller 0)).place.emptied = (s.threads (.caller 0)).place.emptied) :
    Channel.Follows channel s s' := by
  refine .of_eq (channel_eq (by rw [hfields]) ?_ ?_ (by rw [hfields]))
  · by_cases hex : ∃ t, .exportMetricsData ∈ (s.threads t).place.held
    · obtain ⟨t, ht⟩ := hex
      exact flight_other h.held h'.held ht (hheld t ht) (by rw [hfields])
    · -- no thread has the lock, before or after
      have hnot : ∀ t, .exportMetricsData ∉ (s.threads t).place.held := fun t ht => hex ⟨t, ht⟩
      have hnot' : ∀ t, .exportMetricsData ∉ (s'.threads t).place.held := fun t ht =>
        hnot t (by rw [← hheld' t ht]; exact ht)
      rw [flight_of_only (t := .caller 0) h.held fun t _ => hnot t,
        flight_of_only (t := .caller 0) h'.held fun t _ => hnot' t,
        ReaderAt.flight_of_not_held (hnot _), ReaderAt.flight_of_not_held (hnot' _)]
  · rw [waiting, waiting, hemptied, hfields]

/-- **A step of the reader** is one of the channel, or none. -/
theorem Inv.follows {a : ReaderThread × ReaderEvent ρ} (h : s.Inv) (hstep : s.step a = some s') :
    Channel.Follows channel s s' := by
  obtain ⟨t, e⟩ := a
  have h' := h.step hstep
  rcases step_cases hstep with ⟨f', fr, hmove, rfl⟩ | ⟨hp, rfl⟩ | ⟨hp, rfl⟩
  -- a move of one thread
  · refine h.follows_of_move (t := t) (e := e) ?_ (fun t' ht => Function.update_of_ne ht ..) h'
    dsimp only
    rw [Function.update_self]
    exact hmove
  -- the collection daemon starts
  · obtain rfl := h.initThread t _ hp
    have halone := h.alone _ hp
    refine h.follows_of_start h' rfl (fun t ht => ?_) (fun t ht => ?_) (by simp [hp]; rfl)
    · by_cases hc : t = .caller 0
      · rw [hc, hp] at ht
        cases ht
      · by_cases hd : t = .collectDaemon
        · rw [hd, halone.collectDaemon (by simp)] at ht
          cases ht
        · simp [hc, hd]
    · by_cases hd : t = .collectDaemon
      · simp [hd] at ht
      · by_cases hc : t = .caller 0
        · simp [hc, InitDaemonsAt.held] at ht
        · simp [hc, hd]
  -- the export daemon starts
  · obtain rfl := h.initThread t _ hp
    have halone := h.alone _ hp
    refine h.follows_of_start h' rfl (fun t ht => ?_) (fun t ht => ?_) (by simp [hp]; rfl)
    · by_cases hc : t = .caller 0
      · rw [hc, hp] at ht
        cases ht
      · by_cases hd : t = .exportDaemon
        · rw [hd, halone.exportDaemon] at ht
          cases ht
        · simp [hc, hd]
    · by_cases hd : t = .exportDaemon
      · simp [hd] at ht
      · by_cases hc : t = .caller 0
        · simp [hc] at ht
        · simp [hc, hd]

theorem IsProcess.conserved (h : s.IsProcess) : s.channel.Conserved := by
  induction h with
  | start => rfl
  | step hs hstep ih => exact (hs.inv.follows hstep).conserved ih
  | fork _ _ =>
      rw [channel_fork]
      rfl

theorem IsProcess.exec {as : List (ReaderThread × ReaderEvent ρ)} (h : s.IsProcess)
    (hrun : exec MetricsReader.step s as = some s') : s'.IsProcess := by
  have hok : Always MetricsReader.step (fun _ _ => True) s as :=
    Always.of_mem (fun _ _ _ => trivial) s
  exact exec_invariant (fun _ _ _ hs _ hstep => hs.step hstep) hok hrun h

/-- The steps of the constructor. -/
def constructs : List (ReaderThread × ReaderEvent ρ) := List.replicate 7 (.caller 0, .go)

/-- The collect daemon collects `rm`. -/
def collects (rm : List ρ) : List (ReaderThread × ReaderEvent ρ) :=
  [(.collectDaemon, .go), (.collectDaemon, .collects rm)] ++
    List.replicate 4 (.collectDaemon, .go)

/-- Two are collected, one more comes while the exporter has these. -/
def collectsExports : List (ReaderThread × ReaderEvent ℕ) :=
  constructs ++ collects [1] ++ collects [2] ++ List.replicate 7 (.exportDaemon, .go) ++
    collects [3]

end MetricsReader

end MultiStorageClient
