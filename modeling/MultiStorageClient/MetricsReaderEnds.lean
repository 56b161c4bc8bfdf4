/-
MultiStorageClient/MetricsReaderEnds.lean

Whether the reader with two periods comes to an end.

`_export_iteration` takes the lock of the export buffer before that of the collect
buffer and `_init_daemons` takes them the other way round.  As `_init_daemons` runs
alone, no threads of one process wait for each other (`no_deadlock`), but a process
that is forked while either lock is held never has its daemons (`fork_starts_iff`).

`shutdown` joins the daemons before it sets the event for which they wait.  So
they end only after the exporter has been shut down, and what the export daemon
exports at its end comes too late (`final_export_after_shutdown`).
-/
import MultiStorageClient.MetricsReaderRuns

namespace MultiStorageClient

open Run LockOrder

variable {ρ : Type}

namespace ReaderAt

/-- The lock that a thread waits for. -/
def wants : ReaderAt ρ → Option ReaderLock
  | .initDaemons .enter => some .collectMetricsData
  | .initDaemons .withCollect => some .exportMetricsData
  | .collect (.enter _) => some .collectMetricsData
  | .exportIteration .enter => some .exportMetricsData
  | .exportIteration .withExport => some .collectMetricsData
  | .shutdown .enter => some .shutdownEvent
  | _ => none

/-- Is the thread in a method of the reader? -/
def inside : ReaderAt ρ → Bool
  | .notStarted => false
  | .outside => false
  | .ended => false
  | _ => true

/-- Who holds a lock is inside a call. -/
theorem inside_of_held {p : ReaderAt ρ} {l : ReaderLock} (h : l ∈ p.held) : p.inside = true := by
  cases p with
  | notStarted => cases h
  | outside => cases h
  | ended => cases h
  | flushing => cases h
  | initDaemons pc => rfl
  | collect pc => rfl
  | exportIteration pc => rfl
  | shutdown pc => rfl

end ReaderAt

/-- The order in which the methods take the locks. -/
def ReaderLock.rank : ReaderLock → ℕ
  | .shutdownEvent => 0
  | .exportMetricsData => 1
  | .collectMetricsData => 2

theorem ReaderLock.rank_lt (l : ReaderLock) : l.rank < 3 := by cases l <;> decide

/-- Outside `_init_daemons` a thread waits for a lock above those it has. -/
theorem ReaderAt.rank_lt {p : ReaderAt ρ} {l l' : ReaderLock} (hp : ∀ pc, p ≠ .initDaemons pc)
    (h : l ∈ p.held) (hw : p.wants = some l') : l.rank < l'.rank := by
  unfold wants at hw
  split at hw
  case h_1 => exact absurd rfl (hp _)
  case h_2 => exact absurd rfl (hp _)
  case h_5 =>
      obtain rfl := List.mem_singleton.mp h
      obtain rfl := Option.some.inj hw
      decide
  case h_7 => cases hw
  all_goals cases h

namespace MetricsReader

variable {s s' : MetricsReader ρ} {f f' : ReaderFields ρ} {fr : ReaderFrame ρ}
  {t : ReaderThread} {e : ReaderEvent ρ} {rest : List ReaderCall}

/-! ### Deadlocks -/

theorem acquire_isSome {l : ReaderLock} {g : ReaderFields ρ → ReaderFields ρ × ReaderFrame ρ}
    (h : f.locks l = none) : ((f.acquire l t).map g).isSome = true := by
  rw [Option.isSome_map, ReaderFields.acquire, if_pos h]
  rfl

theorem step_isSome_of_move (h : (s.move t .go).isSome = true) :
    (s.step (t, .go)).isSome = true := by
  unfold step
  dsimp only
  split
  · rfl
  · rfl
  · rw [Option.isSome_map]
    exact h

/-- **A thread in the reader goes on** if the lock it waits for is free. -/
theorem step_isSome (hin : (s.threads t).place.inside = true)
    (hfree : ∀ l, (s.threads t).place.wants = some l → s.fields.locks l = none) :
    (s.step (t, .go)).isSome = true := by
  cases hp : (s.threads t).place with
  -- not inside of a call
  | notStarted => rw [hp] at hin; cases hin
  | outside => rw [hp] at hin; cases hin
  | ended => rw [hp] at hin; cases hin
  | flushing => exact step_isSome_of_move (by rw [move, hp]; rfl)
  -- the lock that a place waits for is free, and elsewhere nothing is waited for
  | initDaemons pc =>
      rw [hp] at hfree
      cases pc with
      | enter => exact step_isSome_of_move (by rw [move, hp]; exact acquire_isSome (hfree _ rfl))
      | withCollect =>
          exact step_isSome_of_move (by rw [move, hp]; exact acquire_isSome (hfree _ rfl))
      | withBoth => exact step_isSome_of_move (by rw [move, hp]; rfl)
      | emptied => exact step_isSome_of_move (by rw [move, hp]; rfl)
      | exportReleased => exact step_isSome_of_move (by rw [move, hp]; rfl)
      | startCollect => simp [step, hp]
      | startExport => simp [step, hp]
  | collect pc =>
      rw [hp] at hfree
      refine step_isSome_of_move ?_
      rw [move, hp]
      cases pc with
      | callback caught => cases caught <;> rfl
      | enter rm => exact acquire_isSome (hfree _ rfl)
      | locked rm => rfl
      | store old rm => rfl
      | stored => rfl
  | exportIteration pc =>
      rw [hp] at hfree
      refine step_isSome_of_move ?_
      rw [move, hp]
      cases pc with
      | enter => exact acquire_isSome (hfree _ rfl)
      | withExport => exact acquire_isSome (hfree _ rfl)
      | collectReleased =>
          show (exportMove s.fields t (s.threads t).rest .collectReleased .go).isSome = true
          rw [exportMove]
          split <;> rfl
      | withBoth => rfl
      | rotate taken => rfl
      | rotated => rfl
      | exporting => rfl
      | empty => rfl
      | emptied => rfl
  | shutdown pc =>
      rw [hp] at hfree
      refine step_isSome_of_move ?_
      rw [move, hp]
      cases pc with
      | enter => exact acquire_isSome (hfree _ rfl)
      | locked => rfl
      | joinCollect => rfl
      | joinExport => rfl
      | stopping => rfl
      | set => rfl
      | leave => rfl

/-- The thread of `_init_daemons` finds the locks free, if no fork took a thread that
had one. -/
theorem Inv.init_free (h : s.Inv) (hlost : ∀ l, s.fields.locks l ≠ some none) {pc : InitDaemonsAt}
    (hp : (s.threads (.caller 0)).place = .initDaemons pc) (l : ReaderLock)
    (hl : (s.threads (.caller 0)).place.wants = some l) : s.fields.locks l = none := by
  have halone := h.alone pc hp
  by_contra hheld
  obtain ⟨o, ho⟩ := Option.ne_none_iff_exists'.mp hheld
  obtain ⟨t, rfl⟩ := Option.ne_none_iff_exists'.mp fun hnone => hlost l (hnone ▸ ho)
  have hmem : l ∈ (s.threads t).place.held := (h.held (some t) l).mpr ho
  have hpc : pc ≠ .startExport := by
    rintro rfl
    rw [hp] at hl
    cases hl
  -- the other threads are not there yet, or hold nothing
  rcases t with - | - | (- | n)
  · rw [halone.collectDaemon hpc] at hmem
    cases hmem
  · rw [halone.exportDaemon] at hmem
    cases hmem
  -- the initial thread waits for a lock that it does not hold itself
  · rw [hp] at hmem hl
    cases pc with
    | enter => cases hmem
    | withCollect =>
        obtain rfl := List.mem_singleton.mp hmem
        cases hl
    | withBoth => cases hl
    | emptied => cases hl
    | exportReleased => cases hl
    | startCollect => cases hl
    | startExport => cases hl
  · rw [halone.callers n] at hmem
    cases hmem

/-- **No deadlock**: while a thread is in the reader, some thread in the reader can go
on, unless a fork has taken a thread that had a lock. -/
theorem no_deadlock (h : s.IsProcess) (hlost : ∀ l, s.fields.locks l ≠ some none)
    (hin : (s.threads t).place.inside = true) :
    ∃ t', (s.threads t').place.inside = true ∧ (s.step (t', .go)).isSome = true := by
  by_cases hinit : ∃ pc, (s.threads (.caller 0)).place = .initDaemons pc
  · obtain ⟨pc, hp⟩ := hinit
    have hmain : (s.threads (.caller 0)).place.inside = true := by rw [hp]; rfl
    exact ⟨.caller 0, hmain, step_isSome hmain fun l hl => h.inv.init_free hlost hp l hl⟩
  · have hnot : ∀ t pc, (s.threads t).place ≠ .initDaemons pc := by
      intro t pc hp
      obtain rfl := h.inv.initThread t pc hp
      exact hinit ⟨pc, hp⟩
    have hup : ∀ t l l', s.holds t l → (t.elim none fun t => (s.threads t).place.wants) = some l' →
        l.rank < l'.rank := by
      intro t l l' hl hl'
      cases t with
      | none => cases hl'
      | some t => exact ReaderAt.rank_lt (hnot t) hl hl'
    obtain ⟨t', hgo, hwho⟩ := h.inv.held.exists_unblocked ReaderLock.rank_lt hup (some t)
    cases t' with
    | none =>
        obtain ⟨l, hl⟩ := hwho.resolve_left (by simp)
        exact absurd hl (hlost l)
    | some t' =>
        have hin' : (s.threads t').place.inside = true := by
          rcases hwho with heq | ⟨l, hl⟩
          · rw [Option.some.inj heq]
            exact hin
          · exact ReaderAt.inside_of_held hl
        exact ⟨t', hin', step_isSome hin' hgo⟩

/-- The daemons of the constructor have started, and nothing has been collected. -/
theorem no_deadlock_of_run : ∃ s : MetricsReader ℕ, s.IsProcess ∧
    (s.threads .exportDaemon).place = .exportIteration .withExport ∧
    ∃ t', (s.threads t').place.inside = true ∧ (s.step (t', .go)).isSome = true := by
  obtain ⟨s, hrun, hp, hlocks⟩ : ∃ s, exec MetricsReader.step (initial (ρ := ℕ))
      (constructs ++ [(.exportDaemon, .go), (.exportDaemon, .go)]) = some s ∧
        (s.threads .exportDaemon).place = .exportIteration .withExport ∧
        ∀ l ∈ [ReaderLock.collectMetricsData, .exportMetricsData, .shutdownEvent],
          s.fields.locks l ≠ some none := exec_exists (by decide +kernel)
  have hprocess := IsProcess.start.exec hrun
  refine ⟨s, hprocess, hp,
    no_deadlock (t := .exportDaemon) hprocess (fun l => ?_) (by rw [hp]; rfl)⟩
  cases l
  · exact hlocks _ (by simp)
  · exact hlocks _ (by simp)
  · exact hlocks _ (by simp)

/-! ### Forks -/

/-- `_init_daemons` waits for a lock that no thread of the process has. -/
def Hangs (s : MetricsReader ρ) : Prop :=
  ∃ pc, (s.threads (.caller 0)).place = .initDaemons pc ∧
    (pc = .enter ∧ s.fields.locks .collectMetricsData = some none ∨
      (pc = .enter ∨ pc = .withCollect) ∧ s.fields.locks .exportMetricsData = some none)

/-- A reader that hangs goes on hanging. -/
theorem Hangs.step {a : ReaderThread × ReaderEvent ρ} (h : s.Hangs) (hinv : s.Inv)
    (hstep : s.step a = some s') : s'.Hangs := by
  obtain ⟨t, e⟩ := a
  obtain ⟨pc, hp, hlost⟩ := h
  have hpc : pc = .enter ∨ pc = .withCollect := by
    rcases hlost with ⟨rfl, -⟩ | ⟨hpc, -⟩
    · exact Or.inl rfl
    · exact hpc
  rcases step_cases hstep with ⟨f', fr, hmove, rfl⟩ | ⟨ht, -⟩ | ⟨ht, -⟩
  -- only the initial thread moves, and the lock it wants is not free
  · obtain rfl : t = .caller 0 := by
      by_contra ht
      obtain ⟨-, rfl⟩ := (hinv.alone pc hp).not_move ht hmove
      simp at hpc
    unfold move at hmove
    rw [hp] at hmove
    dsimp only at hmove
    unfold initMove at hmove
    split at hmove
    case h_1 =>
        obtain ⟨hfree, rfl, rfl⟩ := acquire_move hmove
        have hexport : s.fields.locks .exportMetricsData = some none := by
          rcases hlost with ⟨-, hcollect⟩ | ⟨-, hexport⟩
          · rw [hcollect] at hfree
            cases hfree
          · exact hexport
        exact ⟨.withCollect, by simp, Or.inr ⟨Or.inr rfl, by simpa using hexport⟩⟩
    case h_2 =>
        obtain ⟨hfree, -, -⟩ := acquire_move hmove
        rcases hlost with ⟨hno, -⟩ | ⟨-, hexport⟩
        · cases hno
        · rw [hexport] at hfree
          cases hfree
    case h_6 => cases hmove
    all_goals simp at hpc
  -- it starts no daemon while it is at one of the two locks
  · obtain rfl := hinv.initThread t _ ht
    obtain rfl := ReaderAt.initDaemons.inj (hp.symm.trans ht)
    simp at hpc
  · obtain rfl := hinv.initThread t _ ht
    obtain rfl := ReaderAt.initDaemons.inj (hp.symm.trans ht)
    simp at hpc

theorem boot_constructs (hcollect : f.locks .collectMetricsData = none)
    (hexport : f.locks .exportMetricsData = none) :
    ∃ s', exec MetricsReader.step (boot f) constructs = some s' ∧ s'.hasDaemons = true := by
  simp [constructs, List.replicate, exec, step, move, boot, initMove, ReaderFields.acquire,
    ReaderFields.release, hcollect, hexport, hasDaemons]

/-- A fork with a lock held hangs the child. -/
theorem fork_hangs (h : s.fields.locks .collectMetricsData ≠ none ∨
    s.fields.locks .exportMetricsData ≠ none) : s.fork.Hangs := by
  refine ⟨.enter, rfl, ?_⟩
  rcases h with h | h
  · obtain ⟨o, ho⟩ := Option.ne_none_iff_exists'.mp h
    refine Or.inl ⟨rfl, ?_⟩
    show (s.fields.locks .collectMetricsData).map _ = _
    rw [ho]
    rfl
  · obtain ⟨o, ho⟩ := Option.ne_none_iff_exists'.mp h
    refine Or.inr ⟨Or.inl rfl, ?_⟩
    show (s.fields.locks .exportMetricsData).map _ = _
    rw [ho]
    rfl

/-- **A forked process gets its daemons if and only if no thread had the lock of a
buffer at the fork**: otherwise `_init_daemons` waits for ever. -/
theorem fork_starts_iff (h : s.IsProcess) :
    (∃ as s', exec MetricsReader.step s.fork as = some s' ∧ s'.hasDaemons = true) ↔
      s.fields.locks .collectMetricsData = none ∧ s.fields.locks .exportMetricsData = none := by
  constructor
  · rintro ⟨as, s', hrun, hdaemons⟩
    by_contra hheld
    have hhangs : s.fork.Hangs := fork_hangs (by rw [← not_and_or]; exact hheld)
    have hok : Always MetricsReader.step (fun _ _ => True) s.fork as :=
      Always.of_mem (fun _ _ _ => trivial) _
    have hinv : s'.Inv ∧ s'.Hangs := exec_invariant
      (I := fun q : MetricsReader ρ => q.Inv ∧ q.Hangs)
      (fun q a q' hq _ hstep => ⟨hq.1.step hstep, hq.2.step hq.1 hstep⟩) hok hrun
      ⟨h.inv.fork, hhangs⟩
    obtain ⟨pc, hp, -⟩ := hinv.2
    rw [hasDaemons, (hinv.1.alone pc hp).exportDaemon] at hdaemons
    cases hdaemons
  · rintro ⟨hcollect, hexport⟩
    refine ⟨constructs, boot_constructs ?_ ?_⟩
    · show (s.fields.locks .collectMetricsData).map _ = _
      rw [hcollect]
      rfl
    · show (s.fields.locks .exportMetricsData).map _ = _
      rw [hexport]
      rfl

/-- A fork while the exporter has the metrics. -/
theorem fork_starts_iff_of_run : ∃ s : MetricsReader ℕ, s.IsProcess ∧
    ¬∃ as s', exec MetricsReader.step s.fork as = some s' ∧ s'.hasDaemons = true := by
  obtain ⟨s, hrun, hlock⟩ : ∃ s, exec MetricsReader.step (initial (ρ := ℕ))
      (constructs ++ collects [1] ++ List.replicate 7 (.exportDaemon, .go)) = some s ∧
        s.fields.locks .exportMetricsData ≠ none := exec_exists (by decide +kernel)
  have hprocess := IsProcess.start.exec hrun
  exact ⟨s, hprocess, fun hstarts => hlock ((fork_starts_iff hprocess).mp hstarts).2⟩

/-! ### Shutdown -/

/-- In `shutdown`, from the call of `exporter.shutdown` to the event. -/
def Stopping (p : ReaderAt ρ) : Prop := p = .shutdown .stopping ∨ p = .shutdown .set

/-- What a move has to do with the end of the process. -/
structure EndStep (f f' : ReaderFields ρ) (fr fr' : ReaderFrame ρ) : Prop where
  finish : .finish ∈ fr'.rest → .finish ∈ fr.rest ∨ f.shutdownEvent = true
  ended : fr'.place = .ended → .finish ∈ fr.rest ∨ f.shutdownEvent = true
  event : f'.shutdownEvent = f.shutdownEvent ∨
    f'.shutdownEvent = true ∧ fr.place = .shutdown .set
  exporter : f'.exporterShutdown = f.exporterShutdown ∨ f'.exporterShutdown = true
  stopping : Stopping fr'.place → Stopping fr.place ∨ f'.exporterShutdown = true
  exports : f'.exports = f.exports ∨
    ∃ data, f'.exports = f.exports ++ [⟨data, fr.rest.contains .finish, f.exporterShutdown⟩]

theorem next_finish (h : .finish ∈ (ReaderFrame.next rest : ReaderFrame ρ).rest) :
    .finish ∈ rest := by
  rcases rest with - | ⟨c, rest⟩
  · cases h
  · cases c
    case finish => cases h
    all_goals exact List.mem_cons_of_mem _ h

theorem next_ended (h : (ReaderFrame.next rest : ReaderFrame ρ).place = .ended) :
    .finish ∈ rest := by
  rcases rest with - | ⟨c, rest⟩
  · cases h
  · cases c
    case finish => exact List.mem_cons_self ..
    all_goals cases h

theorem next_not_stopping : ¬Stopping (ReaderFrame.next rest : ReaderFrame ρ).place := by
  rcases rest with - | ⟨c, rest⟩
  · simp [Stopping, ReaderFrame.next]
  · cases c <;> simp [Stopping, ReaderFrame.next]

/-- A move to a place outside `shutdown` that leaves the exporter alone. -/
theorem EndStep.of_quiet {fr' : ReaderFrame ρ} (hevent : f'.shutdownEvent = f.shutdownEvent)
    (hexporter : f'.exporterShutdown = f.exporterShutdown) (hexports : f'.exports = f.exports)
    (hrest : fr'.rest = fr.rest ∨ fr'.rest = []) (hended : fr'.place ≠ .ended)
    (hstopping : ¬Stopping fr'.place) : EndStep f f' fr fr' where
  finish h := by
    rcases hrest with heq | heq
    · rw [heq] at h
      exact Or.inl h
    · rw [heq] at h
      cases h
  ended h := absurd h hended
  event := Or.inl hevent
  exporter := Or.inl hexporter
  stopping h := absurd h hstopping
  exports := Or.inl hexports

/-- The end of the reader over a move to the next call. -/
theorem EndStep.of_next (hevent : f'.shutdownEvent = f.shutdownEvent)
    (hexporter : f'.exporterShutdown = f.exporterShutdown) (hexports : f'.exports = f.exports)
    (hrest : .finish ∈ rest → .finish ∈ fr.rest ∨ f.shutdownEvent = true) :
    EndStep f f' fr (.next rest) where
  finish h := hrest (next_finish h)
  ended h := hrest (next_ended h)
  event := Or.inl hevent
  exporter := Or.inl hexporter
  stopping h := absurd h next_not_stopping
  exports := Or.inl hexports

/-- The end of the reader over a move of the collection loop. -/
theorem collectMove_end {pc : CollectAt ρ} {fr' : ReaderFrame ρ} (hrest : fr.rest = rest)
    (h : collectMove f t rest pc e = some (f', fr')) : EndStep f f' fr fr' := by
  unfold collectMove at h
  split at h
  case h_2 =>
      obtain ⟨rfl, rfl⟩ := some_move h
      exact .of_quiet rfl rfl rfl (Or.inl hrest.symm) (by simp) (by simp [Stopping])
  case h_4 =>
      obtain ⟨rfl, rfl⟩ := some_move h
      exact .of_next rfl rfl rfl (by simp)
  case h_5 =>
      obtain ⟨-, rfl, rfl⟩ := acquire_move h
      exact .of_quiet rfl rfl rfl (Or.inl hrest.symm) (by simp) (by simp [Stopping])
  case h_6 =>
      obtain ⟨rfl, rfl⟩ := some_move h
      exact .of_quiet rfl rfl rfl (Or.inl hrest.symm) (by simp) (by simp [Stopping])
  case h_7 =>
      obtain ⟨rfl, rfl⟩ := some_move h
      exact .of_quiet rfl rfl rfl (Or.inl hrest.symm) (by simp) (by simp [Stopping])
  case h_9 => cases h
  all_goals
    obtain ⟨rfl, rfl⟩ := some_move h
    exact .of_next rfl rfl rfl fun hmem => Or.inl (hrest ▸ hmem)

/-- The end of the reader over a move of the export loop. -/
theorem exportMove_end {pc : ExportAt ρ} {fr' : ReaderFrame ρ} (hrest : fr.rest = rest)
    (h : exportMove f t rest pc e = some (f', fr')) : EndStep f f' fr fr' := by
  unfold exportMove at h
  split at h
  case h_1 =>
      obtain ⟨-, rfl, rfl⟩ := acquire_move h
      exact .of_quiet rfl rfl rfl (Or.inl hrest.symm) (by simp) (by simp [Stopping])
  case h_2 =>
      obtain ⟨-, rfl, rfl⟩ := acquire_move h
      exact .of_quiet rfl rfl rfl (Or.inl hrest.symm) (by simp) (by simp [Stopping])
  case h_6 =>
      split at h
      · obtain ⟨rfl, rfl⟩ := some_move h
        exact .of_quiet rfl rfl rfl (Or.inl hrest.symm) (by simp) (by simp [Stopping])
      next data _ =>
          obtain ⟨rfl, rfl⟩ := some_move h
          have hquiet : EndStep f f fr ⟨.exportIteration .exporting, rest⟩ :=
            .of_quiet rfl rfl rfl (Or.inl hrest.symm) (by simp) (by simp [Stopping])
          exact ⟨hquiet.finish, hquiet.ended, Or.inl rfl, Or.inl rfl, hquiet.stopping,
            Or.inr ⟨data, by rw [hrest]⟩⟩
  case h_10 =>
      obtain ⟨rfl, rfl⟩ := some_move h
      exact .of_next rfl rfl rfl fun hmem => Or.inl (hrest ▸ hmem)
  case h_11 => cases h
  all_goals
    obtain ⟨rfl, rfl⟩ := some_move h
    exact .of_quiet rfl rfl rfl (Or.inl hrest.symm) (by simp) (by simp [Stopping])

/-- The end of the reader over a move of `shutdown`. -/
theorem shutdownMove_end {pc : ShutdownAt} {fr' : ReaderFrame ρ} (hp : fr.place = .shutdown pc)
    (h : shutdownMove f t pc e = some (f', fr')) : EndStep f f' fr fr' := by
  unfold shutdownMove at h
  split at h
  case h_1 =>
      obtain ⟨-, rfl, rfl⟩ := acquire_move h
      exact .of_quiet rfl rfl rfl (Or.inr rfl) (by simp) (by simp [Stopping])
  case h_2 =>
      obtain ⟨rfl, rfl⟩ := some_move h
      refine .of_quiet rfl rfl rfl (Or.inr rfl) (by simp) ?_
      split <;> simp [Stopping]
  case h_4 =>
      obtain ⟨rfl, rfl⟩ := some_move h
      exact ⟨by simp, by simp, Or.inl rfl, Or.inr rfl, fun _ => Or.inr rfl, Or.inl rfl⟩
  case h_5 =>
      obtain ⟨rfl, rfl⟩ := some_move h
      exact ⟨by simp, by simp, Or.inl rfl, Or.inl rfl, fun _ => Or.inl (Or.inl hp), Or.inl rfl⟩
  case h_7 =>
      obtain ⟨rfl, rfl⟩ := some_move h
      exact ⟨by simp, by simp, Or.inr ⟨rfl, hp⟩, Or.inl rfl, by simp [Stopping], Or.inl rfl⟩
  case h_9 => cases h
  all_goals
    obtain ⟨rfl, rfl⟩ := some_move h
    exact .of_quiet rfl rfl rfl (Or.inr rfl) (by simp) (by simp [Stopping])

/-- The end of the reader over a move of the start of the daemons. -/
theorem initMove_end {pc : InitDaemonsAt} {fr' : ReaderFrame ρ}
    (h : initMove f t pc e = some (f', fr')) : EndStep f f' fr fr' := by
  unfold initMove at h
  split at h
  case h_1 =>
      obtain ⟨-, rfl, rfl⟩ := acquire_move h
      exact .of_quiet rfl rfl rfl (Or.inr rfl) (by simp) (by simp [Stopping])
  case h_2 =>
      obtain ⟨-, rfl, rfl⟩ := acquire_move h
      exact .of_quiet rfl rfl rfl (Or.inr rfl) (by simp) (by simp [Stopping])
  case h_6 => cases h
  all_goals
    obtain ⟨rfl, rfl⟩ := some_move h
    exact .of_quiet rfl rfl rfl (Or.inr rfl) (by simp) (by simp [Stopping])

/-- The end of the reader over a move outside of the calls. -/
theorem outsideMove_end {fr' : ReaderFrame ρ} (h : s.outsideMove t e = some (f', fr')) :
    EndStep s.fields f' fr fr' := by
  unfold outsideMove at h
  split at h
  · obtain ⟨rfl, rfl⟩ := some_move h
    split
    next hevent =>
        exact ⟨by simp, fun _ => Or.inr hevent, Or.inl rfl, Or.inl rfl, by simp [Stopping],
          Or.inl rfl⟩
    next => exact .of_next rfl rfl rfl (by simp)
  · obtain ⟨rfl, rfl⟩ := some_move h
    split
    next hevent => exact .of_next rfl rfl rfl fun _ => Or.inr hevent
    next => exact .of_next rfl rfl rfl (by simp)
  · split at h
    next m _ =>
        obtain ⟨rfl, rfl⟩ := some_move h
        cases m
        · have hcalls : ReaderCall.finish ∉ [ReaderCall.collect] := by decide
          exact .of_next rfl rfl rfl fun hmem => absurd hmem hcalls
        · have hcalls : ReaderCall.finish ∉
              [ReaderCall.collect, .exportIteration, .exporterForceFlush] := by decide
          exact .of_next rfl rfl rfl fun hmem => absurd hmem hcalls
        · exact .of_quiet rfl rfl rfl (Or.inr rfl) (by simp [ReaderMethod.frame])
            (by simp [ReaderMethod.frame, Stopping])
    next => cases h
  · cases h

/-- The end of the reader over a move of any thread. -/
theorem move_end (h : s.move t e = some (f', fr)) : EndStep s.fields f' (s.threads t) fr := by
  unfold move at h
  split at h
  case h_1 => cases h
  case h_2 => exact outsideMove_end h
  case h_3 => exact initMove_end h
  case h_4 => exact collectMove_end rfl h
  case h_5 => exact exportMove_end rfl h
  case h_6 =>
      split at h
      · obtain ⟨rfl, rfl⟩ := some_move h
        exact .of_next rfl rfl rfl Or.inl
      · obtain ⟨rfl, rfl⟩ := some_move h
        exact .of_next rfl rfl rfl (by simp)
      · cases h
  case h_7 hp => exact shutdownMove_end hp h
  case h_8 => cases h

/-- The exporter is shut down before the event is set, and the event is set before a
daemon ends. -/
structure EndInv (s : MetricsReader ρ) : Prop where
  event : s.fields.shutdownEvent = true → s.fields.exporterShutdown = true
  stopping : ∀ t, Stopping (s.threads t).place → s.fields.exporterShutdown = true
  finish : ∀ t, .finish ∈ (s.threads t).rest → s.fields.shutdownEvent = true
  ended : ∀ t, (s.threads t).place = .ended → s.fields.shutdownEvent = true
  exports : ∀ c ∈ s.fields.exports, c.final = true → c.afterShutdown = true

/-- The invariant at the boot of a process. -/
theorem boot_endInv (hevent : f.shutdownEvent = true → f.exporterShutdown = true)
    (hexports : f.exports = []) : (boot f).EndInv where
  event := hevent
  stopping t h := by
    rcases boot_place (f := f) t with ⟨hp, -⟩ | ⟨hp, -⟩ | hp <;> rw [hp] at h <;>
      simp [Stopping] at h
  finish t h := by
    have hrest : ((boot f).threads t).rest = [] := by
      rcases t with - | - | (- | n) <;> rfl
    rw [hrest] at h
    cases h
  ended t h := by
    rcases boot_place (f := f) t with ⟨hp, -⟩ | ⟨hp, -⟩ | hp <;> rw [hp] at h <;> cases h
  exports c h := by
    rw [show (boot f).fields.exports = [] from hexports] at h
    cases h

/-- A move of one thread keeps the invariant. -/
theorem EndInv.of_move (h : s.EndInv) (hmove : s.move t e = some (s'.fields, s'.threads t))
    (hother : ∀ t', t' ≠ t → s'.threads t' = s.threads t') : s'.EndInv := by
  have hend := move_end hmove
  have hexporter : s.fields.exporterShutdown = true → s'.fields.exporterShutdown = true := by
    intro hs
    rcases hend.exporter with heq | htrue
    · exact heq.trans hs
    · exact htrue
  have hevent : s.fields.shutdownEvent = true → s'.fields.shutdownEvent = true := by
    intro hs
    rcases hend.event with heq | ⟨htrue, -⟩
    · exact heq.trans hs
    · exact htrue
  refine ⟨fun hs => ?_, fun t' hp => ?_, fun t' hmem => ?_, fun t' hp => ?_, fun c hc hfinal => ?_⟩
  · rcases hend.event with heq | ⟨-, hp⟩
    · exact hexporter (h.event (heq.symm.trans hs))
    · -- the event is set by a thread that has shut down the exporter
      exact hexporter (h.stopping t (Or.inr hp))
  · by_cases ht : t' = t
    · subst ht
      rcases hend.stopping hp with hold | htrue
      · exact hexporter (h.stopping t' hold)
      · exact htrue
    · rw [hother t' ht] at hp
      exact hexporter (h.stopping t' hp)
  · by_cases ht : t' = t
    · subst ht
      rcases hend.finish hmem with hold | htrue
      · exact hevent (h.finish t' hold)
      · exact hevent htrue
    · rw [hother t' ht] at hmem
      exact hevent (h.finish t' hmem)
  · by_cases ht : t' = t
    · subst ht
      rcases hend.ended hp with hold | htrue
      · exact hevent (h.finish t' hold)
      · exact hevent htrue
    · rw [hother t' ht] at hp
      exact hevent (h.ended t' hp)
  · rcases hend.exports with heq | ⟨data, heq⟩
    · rw [heq] at hc
      exact h.exports c hc hfinal
    · rw [heq] at hc
      rcases List.mem_append.mp hc with hold | hnew
      · exact h.exports c hold hfinal
      · obtain rfl := List.mem_singleton.mp hnew
        exact h.event (h.finish t (List.contains_iff_mem.mp hfinal))

/-- Where `_init_daemons` starts a daemon, no one comes to an end. -/
theorem EndInv.of_start (h : s.EndInv) (hfields : s'.fields = s.fields)
    (hthreads : ∀ t, s'.threads t = s.threads t ∨ s'.threads t = ⟨.outside, []⟩ ∨
      s'.threads t = ⟨.initDaemons .startExport, []⟩) : s'.EndInv := by
  rw [show s' = ⟨s'.fields, s'.threads⟩ from rfl, hfields]
  refine ⟨h.event, fun t hp => ?_, fun t hmem => ?_, fun t hp => ?_, h.exports⟩
  · rcases hthreads t with heq | heq | heq
    · exact h.stopping t (heq ▸ hp)
    · simp [heq, Stopping] at hp
    · simp [heq, Stopping] at hp
  · rcases hthreads t with heq | heq | heq
    · exact h.finish t (heq ▸ hmem)
    · simp [heq] at hmem
    · simp [heq] at hmem
  · rcases hthreads t with heq | heq | heq
    · exact h.ended t (heq ▸ hp)
    · simp [heq] at hp
    · simp [heq] at hp

/-- Every step keeps the invariant. -/
theorem EndInv.step {a : ReaderThread × ReaderEvent ρ} (h : s.EndInv)
    (hstep : s.step a = some s') : s'.EndInv := by
  obtain ⟨t, e⟩ := a
  rcases step_cases hstep with ⟨f', fr, hmove, rfl⟩ | ⟨-, rfl⟩ | ⟨-, rfl⟩
  · refine h.of_move (t := t) (e := e) ?_ fun t' ht => Function.update_of_ne ht ..
    dsimp only
    rw [Function.update_self]
    exact hmove
  · refine h.of_start rfl fun t' => ?_
    by_cases hd : t' = .collectDaemon
    · exact Or.inr (Or.inl (by simp [hd]))
    · by_cases ht : t' = t
      · subst ht
        exact Or.inr (Or.inr (by simp [hd]))
      · exact Or.inl (by simp [hd, ht])
  · refine h.of_start rfl fun t' => ?_
    by_cases hd : t' = .exportDaemon
    · exact Or.inr (Or.inl (by simp [hd]))
    · by_cases ht : t' = t
      · subst ht
        exact Or.inr (Or.inl (by simp [hd]))
      · exact Or.inl (by simp [hd, ht])

theorem IsProcess.endInv (h : s.IsProcess) : s.EndInv := by
  induction h with
  | start => exact boot_endInv (by simp) rfl
  | step _ hstep ih => exact ih.step hstep
  | fork _ ih => exact boot_endInv ih.event rfl

/-- **The last export comes too late**: a daemon ends, and the export daemon makes the
calls that follow its loop, only after `exporter.shutdown` has been called; before
that `shutdown` waits for the daemons in vain. -/
theorem final_export_after_shutdown (h : s.IsProcess) :
    (∀ c ∈ s.fields.exports, c.final = true → c.afterShutdown = true) ∧
      (∀ t, (s.threads t).place = .ended → s.fields.exporterShutdown = true) ∧
      ∀ t, (s.threads t).place = .shutdown .joinCollect ∨
          (s.threads t).place = .shutdown .joinExport → s.fields.exporterShutdown = false →
        (s.threads .collectDaemon).place ≠ .ended ∧ (s.threads .exportDaemon).place ≠ .ended := by
  have hend := h.endInv
  refine ⟨hend.exports, fun t hp => hend.event (hend.ended t hp), fun t _ hno => ?_⟩
  have hdaemon : ∀ d, (s.threads d).place ≠ .ended := by
    intro d hp
    rw [hend.event (hend.ended d hp)] at hno
    cases hno
  exact ⟨hdaemon _, hdaemon _⟩

/-- One batch is waiting at `shutdown`, and the export daemon collects another one. -/
def shutsDown : List (ReaderThread × ReaderEvent ℕ) :=
  constructs ++ collects [1] ++ [(.caller 1, .call .shutdown)] ++
    List.replicate 7 (.caller 1, .go) ++ [(.exportDaemon, .go), (.exportDaemon, .collects [2])] ++
      List.replicate 13 (.exportDaemon, .go)

theorem final_export_after_shutdown_of_run : ∃ s : MetricsReader ℕ, s.IsProcess ∧
    s.fields.exports = [⟨[1, 2], true, true⟩] ∧ (s.threads .exportDaemon).place = .ended ∧
    ∀ c ∈ s.fields.exports, c.final = true → c.afterShutdown = true := by
  obtain ⟨s, hrun, hs, hp⟩ : ∃ s, exec MetricsReader.step (initial (ρ := ℕ)) shutsDown = some s ∧
      s.fields.exports = [⟨[1, 2], true, true⟩] ∧ (s.threads .exportDaemon).place = .ended :=
    exec_exists (by decide +kernel)
  have hprocess := IsProcess.start.exec hrun
  exact ⟨s, hprocess, hs, hp, (final_export_after_shutdown hprocess).1⟩

end MetricsReader

end MultiStorageClient
