/-
MultiStorageClient/Shutdown.lean

`drainFS` beside the goroutines that are under way: the calls, the evictor and
the `fetch` of every cache line that is being read.

The sections are those of the file tree.  Here it matters who holds the global
lock, and how many fetches `dataCacheActivityWG` counts.  `drainFS` waits for
these while it holds the lock, and a fetch takes the lock twice before its
`Done`: if one has still to do so when `drainFS` takes the lock, neither ever goes
on (`deadlocked_forever`).  If `drainFS` finds every fetch past its last section,
it comes to its end (`drainFS_returns`); no fetch starts in between, as that takes
the lock as well.
-/
import MultiStorageClient.FileTreeRuns

namespace MultiStorageFileSystem

open Run

/-- Where a `fetch` is. -/
inductive FetchAt
  | started
  | inFirstSection
  /-- in `readFileWrapper`, without the lock -/
  | reading
  | answered
  | inSecondSection
  /-- only the deferred `Done` is left -/
  | leaving
  | done
  deriving DecidableEq

namespace FetchAt

/-- It has still to acquire the lock. -/
def needsLock : FetchAt → Bool
  | started | reading | answered => true
  | _ => false

/-- It holds the lock. -/
def inSection : FetchAt → Bool
  | inFirstSection | inSecondSection => true
  | _ => false

/-- It has released the lock for the last time. -/
def pastLock : FetchAt → Bool
  | leaving | done => true
  | _ => false

variable {a : FetchAt}

theorem pastLock_iff : a.pastLock = true ↔ a = leaving ∨ a = done := by
  cases a <;> decide

theorem needsLock_of_pastLock (h : a.pastLock = true) : a.needsLock = false := by
  rcases pastLock_iff.mp h with rfl | rfl <;> rfl

theorem inSection_of_pastLock (h : a.pastLock = true) : a.inSection = false := by
  rcases pastLock_iff.mp h with rfl | rfl <;> rfl

end FetchAt

/-- Where `drainFS` is. -/
inductive DrainAt
  | notCalled
  /-- in `inodeEvictorWaitGroup.Wait()` -/
  | evictorCancelled
  | evictorEnded
  /-- in `processToUnmountListAlreadyLocked` -/
  | unmounting
  /-- in `dataCacheActivityWG.Wait()` -/
  | waiting
  /-- the cache lines and the cache directory go -/
  | removing
  | returned
  deriving DecidableEq

/-- `drainFS` has the global lock there. -/
def DrainAt.holdsLock : DrainAt → Bool
  | unmounting | waiting | removing => true
  | _ => false

/-- Who can hold the global lock. -/
inductive Holder
  | drainFS
  | evictor
  | fetch (k : ℕ)
  | caller
  deriving DecidableEq

/-- A call or the evictor. -/
def Holder.other : Holder → Bool
  | evictor | caller => true
  | _ => false

/-- The section is one of the holder's. -/
def Holder.runs : Holder → Call → Bool
  | evictor, .evict (some _) => true
  | caller, .evict (some _) | caller, .fetch _ _ => false
  | caller, _ => true
  | _, _ => false

/-- The file system with its goroutines. -/
structure Process where
  tree : FileTree
  lock : Option Holder
  /-- every `fetch` so far, with its line -/
  fetches : List (ℕ × FetchAt)
  /-- the count of `dataCacheActivityWG` -/
  activity : ℕ
  /-- `inodeEvictor` runs -/
  evictor : Bool
  drain : DrainAt

/-- The steps of the goroutines. -/
inductive ProcessStep
  | lock (h : Holder)
  | call (s : TreeStep)
  | unlock
  | evictorEnds
  /-- the next step of the `k`-th `fetch` -/
  | fetch (k : ℕ) (now : ℕ → ℕ)
  /-- a backend of `backendsToUnmount` -/
  | drainUnmount (nonce : ℕ) (now : ℕ → ℕ)
  /-- the next step of `drainFS` -/
  | drainFS

/-- The state of a line. -/
def FileTree.lineState (t : FileTree) (l : ℕ) : Option LineState :=
  t.globals.dataCacheLinesTracker[l]?.map TreeLine.state

/-- The line that a section has handed to a new `fetch`: only `DoRead` does so. -/
def Call.startsFetch (t t' : FileTree) : Call → List ℕ
  | doRead _ _ (some l) =>
      if t.lineState l = some .notOnLRU ∧ t'.lineState l = some .inbound then [l] else []
  | _ => []

/-- The inode of the line is there, so `fetch` reads from the backend. -/
def FileTree.fetchReads (t : FileTree) (l : ℕ) : Bool :=
  (t.globals.dataCacheLinesTracker[l]?).any fun line => t.inodeMap line.inodeNumber

namespace Process

variable (cfg : TreeConfig) (p : Process)

/-- A section is over; `dataCacheActivityWG.Add(1)` comes with each new `fetch`. -/
def afterSection (c : Call) (t : FileTree) : Process :=
  let lines := c.startsFetch p.tree t
  { p with
    tree := t
    fetches := p.fetches ++ lines.map fun l => (l, .started)
    activity := p.activity + lines.length }

/-- A `fetch` moves on. -/
def setFetch (k l : ℕ) (at' : FetchAt) : Process := { p with fetches := p.fetches.set k (l, at') }

/-- The `k`-th `fetch` takes the lock. -/
def fetchLocks (k l : ℕ) (at' : FetchAt) : Option Process :=
  if p.lock = none then some { p.setFetch k l at' with lock := some (.fetch k) } else none

/-- The next step of a `fetch`. -/
def fetchStep (k : ℕ) (now : ℕ → ℕ) : Option Process :=
  match p.fetches[k]? with
  | none => none
  | some (l, .started) => p.fetchLocks k l .inFirstSection
  | some (l, .inFirstSection) =>
      -- the first section decides whether there is anything to read
      (p.tree.step cfg ⟨.fetch l false, now⟩).map fun t =>
        { p.setFetch k l (if p.tree.fetchReads l then .reading else .leaving) with
          tree := t
          lock := none }
  | some (l, .reading) => some (p.setFetch k l .answered)
  | some (l, .answered) => p.fetchLocks k l .inSecondSection
  | some (l, .inSecondSection) =>
      (p.tree.step cfg ⟨.fetch l true, now⟩).map fun t =>
        { p.setFetch k l .leaving with
          tree := t
          lock := none }
  -- Done, after the lock is given back
  | some (l, .leaving) => some { p.setFetch k l .done with activity := p.activity - 1 }
  | some (_, .done) => none

/-- No backend is left to unmount. -/
def allUnmounted : Bool :=
  (List.range p.tree.nonces.head).all fun nonce => (p.tree.globals.backendMap nonce).isNone

/-- The next step of `drainFS`. -/
def drainStep : Option Process :=
  match p.drain with
  | .notCalled => some { p with drain := .evictorCancelled }
  | .evictorCancelled => if p.evictor then none else some { p with drain := .evictorEnded }
  | .evictorEnded =>
      if p.lock = none then some { p with drain := .unmounting, lock := some .drainFS } else none
  | .unmounting => if p.allUnmounted then some { p with drain := .waiting } else none
  | .waiting => if p.activity = 0 then some { p with drain := .removing } else none
  | .removing => some { p with drain := .returned, lock := none }
  | .returned => none

/-- The steps of the process. -/
def step : ProcessStep → Option Process
  | .lock h =>
      -- the evictor can take the lock only while it runs
      if p.lock = none ∧ (h = .caller ∨ h = .evictor ∧ p.evictor) then
        some { p with lock := some h }
      else none
  | .call s =>
      if p.lock.any fun h => h.runs s.call then (p.tree.step cfg s).map (p.afterSection s.call)
      else none
  | .unlock =>
      if p.lock = some .caller ∨ p.lock = some .evictor then some { p with lock := none } else none
  | .evictorEnds =>
      -- the evictor sees the cancellation between its sections
      if p.drain = .evictorCancelled ∧ p.lock ≠ some .evictor then some { p with evictor := false }
      else none
  | .fetch k now => p.fetchStep cfg k now
  | .drainUnmount nonce now =>
      if p.drain = .unmounting then
        (p.tree.step cfg ⟨.unmount nonce, now⟩).map fun t => { p with tree := t }
      else none
  | .drainFS => p.drainStep

/-- After `initFS`. -/
def initial (cacheLines : ℕ) : Process where
  tree := .initial cacheLines
  lock := none
  fetches := []
  activity := 0
  evictor := true
  drain := .notCalled

/-- `drainFS` waits with the lock for a fetch that waits for the lock. -/
def Deadlocked : Prop :=
  p.drain = .waiting ∧ p.lock = some .drainFS ∧ ∃ f ∈ p.fetches, f.2.needsLock

/-- If the step is the one with which `drainFS` takes the lock, every fetch is past its
last section. -/
def DrainsIdle (a : ProcessStep) : Prop :=
  match a with
  | .drainFS => p.drain = .evictorEnded → ∀ f ∈ p.fetches, f.2.pastLock
  | _ => True

/-- The fetches that `dataCacheActivityWG` counts. -/
def outstanding : ℕ := p.fetches.countP fun f => f.2 ≠ .done

/-- What every run keeps: the count, and who holds the lock. -/
structure Inv : Prop where
  activity : p.activity = p.outstanding
  drain : p.drain.holdsLock = true → p.lock = some .drainFS
  fetch : ∀ k l at₀, p.fetches[k]? = some (l, at₀) → at₀.inSection = true →
    p.lock = some (.fetch k)

variable {cfg p} {p' : Process} {a : ProcessStep} {as : List ProcessStep} {k l : ℕ}
  {now : ℕ → ℕ} {at₀ at' : FetchAt} {cacheLines : ℕ}

/-! ### What a step does -/

/-- What a step of a `fetch` does to its place, the lock and the count. -/
theorem fetchStep_spec (h : p.fetchStep cfg k now = some p') :
    ∃ l at₀ at', p.fetches[k]? = some (l, at₀) ∧ p'.fetches = p.fetches.set k (l, at') ∧
      p'.drain = p.drain ∧
      (at₀.needsLock = true ∧ p.lock = none ∧ at'.inSection = true ∧ p'.lock = some (.fetch k) ∧
          p'.activity = p.activity ∨
        at₀.inSection = true ∧ at'.inSection = false ∧ at' ≠ .done ∧ p'.lock = none ∧
          p'.activity = p.activity ∨
        at₀ = .reading ∧ at' = .answered ∧ p'.lock = p.lock ∧ p'.activity = p.activity ∨
        at₀ = .leaving ∧ at' = .done ∧ p'.lock = p.lock ∧ p'.activity = p.activity - 1) := by
  unfold fetchStep at h
  have hlocks : ∀ {l at'}, p.fetchLocks k l at' = some p' → p.lock = none ∧
      p' = { p.setFetch k l at' with lock := some (.fetch k) } := by
    intro l at' h
    unfold fetchLocks at h
    -- the lock is taken where it is free
    split at h
    next hfree => exact ⟨hfree, (Option.some.inj h).symm⟩
    · cases h
  split at h
  · cases h
  next l hk =>
    obtain ⟨hfree, rfl⟩ := hlocks h
    exact ⟨l, _, _, hk, rfl, rfl, .inl ⟨rfl, hfree, rfl, rfl, rfl⟩⟩
  -- the first section
  next l hk =>
    obtain ⟨t, -, rfl⟩ := Option.map_eq_some_iff.mp h
    refine ⟨l, _, _, hk, rfl, rfl, .inr (.inl ⟨rfl, ?_, ?_, rfl, rfl⟩)⟩ <;> split <;> decide
  next l hk =>
    obtain rfl := Option.some.inj h
    exact ⟨l, _, _, hk, rfl, rfl, .inr (.inr (.inl ⟨rfl, rfl, rfl, rfl⟩))⟩
  next l hk =>
    obtain ⟨hfree, rfl⟩ := hlocks h
    exact ⟨l, _, _, hk, rfl, rfl, .inl ⟨rfl, hfree, rfl, rfl, rfl⟩⟩
  -- the second one
  next l hk =>
    obtain ⟨t, -, rfl⟩ := Option.map_eq_some_iff.mp h
    exact ⟨l, _, _, hk, rfl, rfl, .inr (.inl ⟨rfl, rfl, by decide, rfl, rfl⟩)⟩
  next l hk =>
    obtain rfl := Option.some.inj h
    exact ⟨l, _, _, hk, rfl, rfl, .inr (.inr (.inr ⟨rfl, rfl, rfl, rfl⟩))⟩
  · cases h

/-- What `drainFS` does to the lock and the fetches. -/
theorem drainStep_spec (h : p.drainStep = some p') :
    p'.fetches = p.fetches ∧ p'.activity = p.activity ∧
      (p.drain.holdsLock = false ∧ p'.drain.holdsLock = false ∧ p'.lock = p.lock ∨
        p.drain = .evictorEnded ∧ p.lock = none ∧ p'.lock = some .drainFS ∨
        p.drain.holdsLock = true ∧ p.drain ≠ .waiting ∧ p'.drain.holdsLock = true ∧
          p'.lock = p.lock ∨
        p.drain = .waiting ∧ p.activity = 0 ∧ p'.drain = .removing ∧ p'.lock = p.lock ∨
        p.drain = .removing ∧ p'.drain = .returned ∧ p'.lock = none) := by
  unfold drainStep at h
  split at h
  next hd =>
    obtain rfl := Option.some.inj h
    exact ⟨rfl, rfl, .inl ⟨by rw [hd]; rfl, rfl, rfl⟩⟩
  -- the evictor has ended
  next hd =>
    split at h
    · cases h
    · obtain rfl := Option.some.inj h
      exact ⟨rfl, rfl, .inl ⟨by rw [hd]; rfl, rfl, rfl⟩⟩
  -- the lock is taken
  next hd =>
    split at h
    next hfree =>
      obtain rfl := Option.some.inj h
      exact ⟨rfl, rfl, .inr (.inl ⟨hd, hfree, rfl⟩)⟩
    · cases h
  -- all backends are unmounted
  next hd =>
    split at h
    · obtain rfl := Option.some.inj h
      exact ⟨rfl, rfl, .inr (.inr (.inl ⟨by rw [hd]; rfl, by rw [hd]; decide, rfl, rfl⟩))⟩
    · cases h
  -- no fetch is under way any more
  next hd =>
    split at h
    next hidle =>
      obtain rfl := Option.some.inj h
      exact ⟨rfl, rfl, .inr (.inr (.inr (.inl ⟨hd, hidle, rfl, rfl⟩)))⟩
    · cases h
  next hd =>
    obtain rfl := Option.some.inj h
    exact ⟨rfl, rfl, .inr (.inr (.inr (.inr ⟨hd, rfl, rfl⟩)))⟩
  · cases h

/-- What the other steps do: only a section starts fetches. -/
structure OtherStep (p p' : Process) (lines : List ℕ) : Prop where
  fetches : p'.fetches = p.fetches ++ lines.map fun l => (l, .started)
  activity : p'.activity = p.activity + lines.length
  drain : p'.drain = p.drain
  lines : lines = [] ∨ p.lock.any Holder.other = true
  lock : p'.lock = p.lock ∨ p.lock = none ∧ p'.lock.any Holder.other = true ∨
    p.lock.any Holder.other = true ∧ p'.lock = none

/-- The steps: of a fetch, of `drainFS`, of the others. -/
theorem step_cases (h : p.step cfg a = some p') :
    (∃ k now, a = .fetch k now ∧ p.fetchStep cfg k now = some p') ∨
      a = .drainFS ∧ p.drainStep = some p' ∨ ∃ lines, OtherStep p p' lines := by
  have hno : ∀ {q : Process}, q.fetches = p.fetches → q.activity = p.activity →
      q.drain = p.drain → (q.lock = p.lock ∨ p.lock = none ∧ q.lock.any Holder.other = true ∨
        p.lock.any Holder.other = true ∧ q.lock = none) → ∃ lines, OtherStep p q lines :=
    fun hf ha hd hl => ⟨[], hf.trans (List.append_nil _).symm, ha, hd, .inl rfl, hl⟩
  cases a with
  -- the lock is taken by another than `drainFS` or a fetch
  | lock holder =>
      change (if _ then _ else _) = _ at h
      split at h
      next hfree =>
        obtain rfl := Option.some.inj h
        refine .inr (.inr (hno rfl rfl rfl (.inr (.inl ⟨hfree.1, ?_⟩))))
        rcases hfree.2 with rfl | ⟨rfl, -⟩ <;> rfl
      · cases h
  | call s =>
      change (if _ then _ else _) = _ at h
      split at h
      next hruns =>
        obtain ⟨t, -, rfl⟩ := Option.map_eq_some_iff.mp h
        refine .inr (.inr ⟨s.call.startsFetch p.tree t, rfl, rfl, rfl, .inr ?_, .inl rfl⟩)
        -- a call runs under the lock of the evictor or of a caller
        rcases hlock : p.lock with - | holder
        · rw [hlock] at hruns
          cases hruns
        · rw [hlock] at hruns
          cases holder with
          | evictor | caller => rfl
          | drainFS | fetch k => cases hruns
      · cases h
  -- the lock is given back by another than `drainFS` or a fetch
  | unlock =>
      change (if _ then _ else _) = _ at h
      split at h
      next hheld =>
        obtain rfl := Option.some.inj h
        refine .inr (.inr (hno rfl rfl rfl (.inr (.inr ⟨?_, rfl⟩))))
        rcases hheld with hheld | hheld <;> rw [hheld] <;> rfl
      · cases h
  | evictorEnds =>
      change (if _ then _ else _) = _ at h
      split at h
      · obtain rfl := Option.some.inj h
        exact .inr (.inr (hno rfl rfl rfl (.inl rfl)))
      · cases h
  | fetch k now => exact .inl ⟨k, now, rfl, h⟩
  | drainUnmount nonce now =>
      change (if _ then _ else _) = _ at h
      split at h
      · obtain ⟨t, -, rfl⟩ := Option.map_eq_some_iff.mp h
        exact .inr (.inr (hno rfl rfl rfl (.inl rfl)))
      · cases h
  | drainFS => exact .inr (.inl ⟨rfl, h⟩)

/-! ### Every run -/

/-- A fetch that moves on is still counted, unless it is done. -/
theorem outstanding_set (hk : p.fetches[k]? = some (l, at₀)) (h₀ : at₀ ≠ .done) :
    (p.fetches.set k (l, at')).countP (fun f => f.2 ≠ .done) =
      if at' = .done then p.outstanding - 1 else p.outstanding := by
  obtain ⟨hlt, hget⟩ := List.getElem?_eq_some_iff.mp hk
  have hpos : 0 < p.outstanding :=
    List.countP_pos_iff.mpr ⟨_, List.getElem_mem hlt, by rw [hget]; simpa using h₀⟩
  have hcount : p.fetches.countP (fun f => f.2 ≠ .done) = p.outstanding := rfl
  rw [List.countP_set hlt, hget, hcount, if_pos (by simpa using h₀)]
  by_cases hdone : at' = .done
  · rw [if_neg (by simpa using hdone), if_pos hdone, Nat.add_zero]
  · rw [if_pos (by simpa using hdone), if_neg hdone, Nat.sub_add_cancel hpos]

/-- A fetch keeps the invariant. -/
theorem Inv.of_fetch (h : p.Inv) (hstep : p.fetchStep cfg k now = some p') : p'.Inv := by
  obtain ⟨l, at₀, at', hk, hfetches, hdrain, hcases⟩ := fetchStep_spec hstep
  have hother : ∀ j l₁ at₁, p'.fetches[j]? = some (l₁, at₁) → j ≠ k →
      p.fetches[j]? = some (l₁, at₁) := by
    intro j l₁ at₁ hj hne
    rwa [hfetches, List.getElem?_set_ne hne.symm] at hj
  have hself : ∀ l₁ at₁, p'.fetches[k]? = some (l₁, at₁) → at₁ = at' := by
    intro l₁ at₁ hj
    obtain ⟨hlt, -⟩ := List.getElem?_eq_some_iff.mp hk
    rw [hfetches, List.getElem?_set_self hlt] at hj
    exact (congrArg Prod.snd (Option.some.inj hj)).symm
  have hcount : at₀ ≠ .done → p'.outstanding =
      if at' = .done then p.outstanding - 1 else p.outstanding := by
    intro h₀
    unfold outstanding
    rw [hfetches]
    exact outstanding_set hk h₀
  rcases hcases with ⟨hneeds, hfree, hin, hlock, hact⟩ | ⟨hin, hout, hnd, hlock, hact⟩ |
    ⟨rfl, rfl, hlock, hact⟩ | ⟨rfl, rfl, hlock, hact⟩
  · -- the lock was free
    refine ⟨?_, fun hd => ?_, fun j l₁ at₁ hj hin₁ => ?_⟩
    · rw [hact, h.activity, hcount (by rintro rfl; cases hneeds), if_neg (by rintro rfl; cases hin)]
    · rw [hdrain] at hd
      rw [h.drain hd] at hfree
      cases hfree
    · by_cases hjk : j = k
      · rw [hjk, hlock]
      · rw [h.fetch j l₁ at₁ (hother j l₁ at₁ hj hjk) hin₁] at hfree
        cases hfree
  · -- the fetch had the lock
    have hheld := h.fetch k l at₀ hk hin
    refine ⟨?_, fun hd => ?_, fun j l₁ at₁ hj hin₁ => ?_⟩
    · rw [hact, h.activity, hcount (by rintro rfl; cases hin), if_neg hnd]
    · rw [hdrain] at hd
      rw [h.drain hd] at hheld
      cases hheld
    · by_cases hjk : j = k
      · subst hjk
        rw [hself l₁ at₁ hj, hout] at hin₁
        cases hin₁
      · have hother := h.fetch j l₁ at₁ (hother j l₁ at₁ hj hjk) hin₁
        rw [hheld] at hother
        exact absurd (Holder.fetch.inj (Option.some.inj hother)).symm hjk
  all_goals
    refine ⟨?_, fun hd => ?_, fun j l₁ at₁ hj hin₁ => ?_⟩
    · rw [hact, h.activity, hcount (by decide)]
      rfl
    · rw [hdrain] at hd
      rw [hlock, h.drain hd]
    · rw [hlock]
      by_cases hjk : j = k
      · subst hjk
        rw [hself l₁ at₁ hj] at hin₁
        cases hin₁
      · exact h.fetch j l₁ at₁ (hother j l₁ at₁ hj hjk) hin₁

/-- The drain keeps the invariant. -/
theorem Inv.of_drain (h : p.Inv) (hstep : p.drainStep = some p') : p'.Inv := by
  obtain ⟨hfetches, hact, hcases⟩ := drainStep_spec hstep
  refine ⟨?_, ?_, ?_⟩
  · unfold outstanding
    rw [hact, hfetches]
    exact h.activity
  · intro hd
    rcases hcases with ⟨-, hd', -⟩ | ⟨-, -, hlock⟩ | ⟨hh, -, -, hlock⟩ | ⟨hw, -, -, hlock⟩ |
      ⟨-, hd', -⟩
    · rw [hd'] at hd
      cases hd
    · exact hlock
    · rw [hlock, h.drain hh]
    · rw [hlock, h.drain (by rw [hw]; rfl)]
    · rw [hd'] at hd
      cases hd
  · intro j l₁ at₁ hj hin
    rw [hfetches] at hj
    have hheld := h.fetch j l₁ at₁ hj hin
    rcases hcases with ⟨-, -, hlock⟩ | ⟨-, hfree, -⟩ | ⟨-, -, -, hlock⟩ | ⟨-, -, -, hlock⟩ |
      ⟨hr, -, -⟩
    · rw [hlock, hheld]
    · rw [hfree] at hheld
      cases hheld
    · rw [hlock, hheld]
    · rw [hlock, hheld]
    · rw [h.drain (by rw [hr]; rfl)] at hheld
      cases hheld

/-- What the others do keeps the invariant. -/
theorem Inv.of_other {lines : List ℕ} (h : p.Inv) (hstep : OtherStep p p' lines) : p'.Inv := by
  have hkeeps : ∀ holder : Holder, holder.other = false → p.lock = some holder →
      p'.lock = some holder := by
    intro holder hno hheld
    rcases hstep.lock with hlock | ⟨hfree, -⟩ | ⟨hother, -⟩
    · rw [hlock, hheld]
    · rw [hfree] at hheld
      cases hheld
    · rw [hheld] at hother
      exact absurd (hno.symm.trans hother) (by decide)
  refine ⟨?_, fun hd => ?_, fun j l₁ at₁ hj hin => ?_⟩
  · unfold outstanding
    rw [hstep.activity, hstep.fetches, List.countP_append, h.activity, List.countP_map]
    congr 1
    exact (List.countP_eq_length.mpr fun l _ => by rfl).symm
  · rw [hstep.drain] at hd
    exact hkeeps _ rfl (h.drain hd)
  · rw [hstep.fetches] at hj
    rw [List.getElem?_append] at hj
    split at hj
    · exact hkeeps _ rfl (h.fetch j l₁ at₁ hj hin)
    · -- a new fetch is not in a section
      obtain ⟨l₂, -, heq⟩ := List.mem_map.mp (List.mem_of_getElem? hj)
      obtain rfl := congrArg Prod.snd heq
      cases hin

/-- **Every step** keeps it. -/
theorem Inv.step (h : p.Inv) (hstep : p.step cfg a = some p') : p'.Inv := by
  rcases step_cases hstep with ⟨k, now, -, hf⟩ | ⟨-, hd⟩ | ⟨lines, ho⟩
  · exact h.of_fetch hf
  · exact h.of_drain hd
  · exact h.of_other ho

theorem initial_inv : (initial cacheLines).Inv := ⟨rfl, nofun, nofun⟩

/-- Every fetch is past its last section. -/
def Idle (p : Process) : Prop := ∀ f ∈ p.fetches, f.2.pastLock = true

/-- While `drainFS` holds the lock, no fetch comes to need it. -/
theorem idle_step (h : p.Inv) (hidle : p.drain.holdsLock = true → p.Idle)
    (hok : p.DrainsIdle a) (hstep : p.step cfg a = some p') (hd : p'.drain.holdsLock = true) :
    p'.Idle := by
  rcases step_cases hstep with ⟨k, now, -, hf⟩ | ⟨rfl, hd'⟩ | ⟨lines, ho⟩
  -- a fetch that is past its sections can only end
  · obtain ⟨l, at₀, at', hk, hfetches, hdrain, hcases⟩ := fetchStep_spec hf
    rw [hdrain] at hd
    have hpast := hidle hd _ (List.mem_of_getElem? hk)
    obtain rfl : at' = .done := by
      rcases hcases with ⟨hneeds, -⟩ | ⟨hin, -⟩ | ⟨rfl, -⟩ | ⟨-, hdone, -⟩
      · rw [FetchAt.needsLock_of_pastLock hpast] at hneeds
        cases hneeds
      · rw [FetchAt.inSection_of_pastLock hpast] at hin
        cases hin
      · cases hpast
      · exact hdone
    intro f hmem
    rw [hfetches] at hmem
    rcases List.mem_or_eq_of_mem_set hmem with hmem | rfl
    · exact hidle hd f hmem
    · rfl
  · obtain ⟨hfetches, -, hcases⟩ := drainStep_spec hd'
    intro f hmem
    rw [hfetches] at hmem
    rcases hcases with ⟨-, hno, -⟩ | ⟨hended, -⟩ | ⟨hh, -⟩ | ⟨hw, -⟩ | ⟨-, hno, -⟩
    · rw [hno] at hd
      cases hd
    -- the lock is taken: here the fetches have to be past their sections
    · exact hok hended f hmem
    · exact hidle hh f hmem
    · exact hidle (by rw [hw]; rfl) f hmem
    · rw [hno] at hd
      cases hd
  -- the others start no fetch, as `drainFS` holds the lock
  · rw [ho.drain] at hd
    have hnil : lines = [] := by
      rcases ho.lines with hnil | hother
      · exact hnil
      · rw [h.drain hd] at hother
        cases hother
    intro f hmem
    rw [ho.fetches, hnil, List.map_nil, List.append_nil] at hmem
    exact hidle hd f hmem

/-- **`drainFS` returns** once every fetch that it waits for is past its last section. -/
theorem drainFS_returns (h : p.Inv) (hidle : p.Idle) (hd : p.drain = .waiting) :
    ∃ as p', exec (Process.step cfg) p as = some p' ∧ p'.drain = .returned := by
  induction hn : p.activity generalizing p with
  | zero =>
      refine ⟨[.drainFS, .drainFS], { p with drain := .returned, lock := none }, ?_, rfl⟩
      have hfirst : p.step cfg .drainFS = some { p with drain := .removing } := by
        change p.drainStep = _
        unfold drainStep
        rw [hd]
        exact if_pos hn
      rw [exec, hfirst]
      rfl
  | succ n ih =>
      -- one of the fetches that are counted has its `Done` left
      obtain ⟨f, hmem, hnd⟩ := List.countP_pos_iff.mp
        (show 0 < p.outstanding by rw [← h.activity, hn]; exact n.succ_pos)
      obtain ⟨k, hk⟩ := List.getElem?_of_mem hmem
      obtain ⟨l, at₀⟩ := f
      obtain rfl : at₀ = .leaving :=
        (FetchAt.pastLock_iff.mp (hidle _ hmem)).resolve_right (by simpa using hnd)
      have hstep : p.step cfg (.fetch k id) =
          some { p.setFetch k l .done with activity := p.activity - 1 } := by
        change p.fetchStep cfg k id = _
        unfold fetchStep
        rw [hk]
      have hidle' := idle_step h (fun _ => hidle) (by trivial) hstep (by
        show p.drain.holdsLock = true
        rw [hd]
        rfl)
      obtain ⟨as, p', hrun, hret⟩ := ih (h.step hstep) hidle' hd (by
        show p.activity - 1 = n
        rw [hn, Nat.add_sub_cancel])
      exact ⟨_ :: as, p', exec_cons.mpr ⟨_, hstep, hrun⟩, hret⟩

/-- **Shutdown does not deadlock**, if `drainFS` takes the lock only when no fetch has
still to do so: `drainFS` never waits for such a fetch, and from every state in which
it waits it can be brought to its end. -/
theorem noDeadlock_of_run (hok : Always (Process.step cfg) DrainsIdle (initial cacheLines) as)
    (hrun : exec (Process.step cfg) (initial cacheLines) as = some p) :
    ¬p.Deadlocked ∧ (p.drain = .waiting →
      ∃ bs p', exec (Process.step cfg) p bs = some p' ∧ p'.drain = .returned) := by
  obtain ⟨hinv, hidle⟩ : p.Inv ∧ (p.drain.holdsLock = true → p.Idle) :=
    exec_invariant (I := fun q => q.Inv ∧ (q.drain.holdsLock = true → q.Idle))
      (fun q b q' hq hb hstep => ⟨hq.1.step hstep, idle_step hq.1 hq.2 hb hstep⟩) hok hrun
      ⟨initial_inv, nofun⟩
  constructor
  · rintro ⟨hd, -, f, hmem, hneeds⟩
    rw [FetchAt.needsLock_of_pastLock (hidle (by rw [hd]; rfl) f hmem)] at hneeds
    cases hneeds
  · intro hd
    exact drainFS_returns hinv (hidle (by rw [hd]; rfl)) hd

/-- **Otherwise neither goes on**: what is deadlocked stays so. -/
theorem deadlocked_forever (hinv : p.Inv) (h : p.Deadlocked)
    (hrun : exec (Process.step cfg) p as = some p') : p'.Deadlocked := by
  have hok : Always (Process.step cfg) (fun _ _ => True) p as :=
    Always.of_mem (fun _ _ _ => trivial) p
  refine (exec_invariant (I := fun q => q.Inv ∧ q.Deadlocked) (fun q b q' hq _ hstep => ?_)
    hok hrun ⟨hinv, h⟩).2
  obtain ⟨hqinv, hd, hlock, f, hmem, hneeds⟩ := hq
  refine ⟨hqinv.step hstep, ?_⟩
  rcases step_cases hstep with ⟨k, now, -, hf⟩ | ⟨-, hd'⟩ | ⟨lines, ho⟩
  · obtain ⟨l, at₀, at', hk, hfetches, hdrain, hcases⟩ := fetchStep_spec hf
    have hlock' : q'.lock = q.lock := by
      rcases hcases with ⟨-, hfree, -⟩ | ⟨hin, -⟩ | ⟨-, -, hl, -⟩ | ⟨-, -, hl, -⟩
      · rw [hlock] at hfree
        cases hfree
      · rw [hqinv.fetch k l at₀ hk hin] at hlock
        cases hlock
      · exact hl
      · exact hl
    refine ⟨hdrain.trans hd, hlock'.trans hlock, ?_⟩
    obtain ⟨j, hj⟩ := List.getElem?_of_mem hmem
    by_cases hjk : j = k
    · -- the fetch has read, and waits for the lock again
      subst hjk
      obtain rfl := Option.some.inj (hj.symm.trans hk)
      have hlt := (List.getElem?_eq_some_iff.mp hk).1
      refine ⟨(l, at'), ?_, ?_⟩
      · rw [hfetches]
        exact List.mem_of_getElem? (List.getElem?_set_self hlt)
      · rcases hcases with ⟨-, hfree, -⟩ | ⟨hin, -⟩ | ⟨-, rfl, -⟩ | ⟨rfl, -⟩
        · rw [hlock] at hfree
          cases hfree
        · rw [hqinv.fetch j l at₀ hk hin] at hlock
          cases hlock
        · rfl
        · cases hneeds
    · refine ⟨f, ?_, hneeds⟩
      rw [hfetches]
      exact List.mem_of_getElem? ((List.getElem?_set_ne (Ne.symm hjk)).trans hj)
  · obtain ⟨-, -, hcases⟩ := drainStep_spec hd'
    have hcounted : q.activity ≠ 0 := by
      rw [hqinv.activity]
      refine (List.countP_pos_iff.mpr ⟨f, hmem, ?_⟩).ne'
      rw [decide_eq_true_iff]
      intro hdone
      rw [hdone] at hneeds
      cases hneeds
    rw [hd] at hcases
    rcases hcases with ⟨hno, -⟩ | ⟨hno, -⟩ | ⟨-, hno, -⟩ | ⟨-, hzero, -⟩ | ⟨hno, -⟩
    · cases hno
    · cases hno
    · exact absurd rfl hno
    · exact absurd hzero hcounted
    · cases hno
  · have hother : q.lock.any Holder.other = false := by rw [hlock]; rfl
    refine ⟨ho.drain.trans hd, ?_, f, ?_, hneeds⟩
    · rcases ho.lock with hl | ⟨hfree, -⟩ | ⟨hyes, -⟩
      · exact hl.trans hlock
      · rw [hlock] at hfree
        cases hfree
      · rw [hother] at hyes
        cases hyes
    · rw [ho.fetches]
      exact List.mem_append_left _ hmem

/-! ### Runs -/

instance (p : Process) (a : ProcessStep) : Decidable (p.DrainsIdle a) := by
  cases a <;> unfold DrainsIdle <;> infer_instance

instance (p : Process) : Decidable p.Deadlocked := inferInstanceAs (Decidable (_ ∧ _ ∧ _))

/-- A call from lock to unlock. -/
def calls (s : TreeStep) : List ProcessStep := [.lock .caller, .call s, .unlock]

/-- A file is opened and read: its line is being fetched. -/
def readFile : List ProcessStep :=
  calls ⟨.mount "b" false, id⟩ ++ calls ⟨.doLookup 3 "f" (.file ⟨5, "e", 1⟩), id⟩ ++
    calls ⟨.doOpen 4 false .RDONLY, id⟩ ++ calls ⟨.allocateDataCacheLine 0, id⟩ ++
      calls ⟨.doRead 4 5 (some 0), id⟩

/-- `drainFS`, up to where it waits. -/
def drains : List ProcessStep :=
  [.drainFS, .evictorEnds, .drainFS, .drainFS, .drainUnmount 2 id, .drainFS]

/-- The fetch has its two sections before `drainFS` takes the lock. -/
def readFetchDrain : List ProcessStep := readFile ++ List.replicate 6 (.fetch 0 id) ++ drains

theorem readFetchDrain_returns : ∃ p,
    exec (Process.step FileTree.anyTimes) (initial 1) readFetchDrain = some p ∧ ¬p.Deadlocked ∧
      ∃ bs p', exec (Process.step FileTree.anyTimes) p bs = some p' ∧ p'.drain = .returned := by
  obtain ⟨p, hrun, hd⟩ : ∃ p,
      exec (Process.step FileTree.anyTimes) (initial 1) readFetchDrain = some p ∧
        p.drain = .waiting := exec_exists (by decide +kernel)
  obtain ⟨hno, hreturns⟩ := noDeadlock_of_run (by decide +kernel) hrun
  exact ⟨p, hrun, hno, hreturns hd⟩

/-- `drainFS` comes when the line is being fetched, and never returns. -/
theorem readDrain_deadlocks : ∃ p,
    exec (Process.step FileTree.anyTimes) (initial 1) (readFile ++ drains) = some p ∧ p.Deadlocked ∧
      ∀ bs p', exec (Process.step FileTree.anyTimes) p bs = some p' → p'.drain ≠ .returned := by
  obtain ⟨p, hrun, hdead⟩ : ∃ p,
      exec (Process.step FileTree.anyTimes) (initial 1) (readFile ++ drains) = some p ∧
        p.Deadlocked :=
    exec_exists (by decide +kernel)
  have hinv : p.Inv := exec_invariant (fun _ _ _ hq _ hstep => hq.step hstep)
    (Always.of_mem (fun _ _ _ => trivial) _) hrun initial_inv
  refine ⟨p, hrun, hdead, fun bs p' hbs hret => ?_⟩
  rw [(deadlocked_forever hinv hdead hbs).1] at hret
  cases hret

end Process

end MultiStorageFileSystem
