/-
MultiStorageClient/PrefixExpanderRuns.lean

`_PrefixExpander` beside the thread pool that makes its listings.

A future is the number of its call, and a call may complete at any moment: while
`get` waits, and between two looks of `_collect`.  `calls` has every call of the
listing function so far.

`get` submits a prefix that is neither ready nor in flight, and leaves it in
`_pending`.  In a run where this does not happen, and where no listing raises that
`_collect` moves for another prefix, there is one call for each prefix, the window
is kept and nothing is left behind (`Ok`, `expander_run`).  In any run a `get`
returns (`Known.returns`).
-/
import MultiStorageClient.Listing
import MultiStorageClient.PyDict
import MultiStorageClient.Returns

namespace MultiStorageClient

open Run

/-- Where the consumer of a `_PrefixExpander` is. -/
inductive ExpanderAt
  | idle
  /-- `get` is in the loop of `_collect`, with what is left of `list(self._inflight)` -/
  | collecting (p : PyStr) (rest : List (PyStr × ℕ))
  /-- `_collect` has returned to `get` -/
  | taking (p : PyStr)
  /-- `get` is in `.result()` of a future that it has popped -/
  | waiting (p : PyStr) (future : ℕ)
  deriving DecidableEq

/-- `_PrefixExpander` with its thread pool. -/
structure ExpanderRun (ε : Type) where
  pending : List PyStr := []
  inflight : PyDict PyStr ℕ := .empty
  ready : PyDict PyStr ShallowListResult := .empty
  /-- the prefix of each call of the listing function -/
  calls : List PyStr := []
  done : Finset ℕ := ∅
  consumer : ExpanderAt := .idle
  /-- the prefixes of the calls of `enqueue` -/
  enqueued : List PyStr := []
  /-- what the calls of `get` have returned or raised -/
  returned : List (PyStr × Except ε ShallowListResult) := []

namespace ExpanderRun

/-- The steps of the consumer, the collector and the workers. -/
inductive Step
  | enqueue (prefixes : List PyStr)
  | get (p : PyStr)
  /-- an iteration of the loop of `_collect` -/
  | look
  /-- `_fill` at the end of `_collect` -/
  | refill
  /-- a line of `get` after `_collect` -/
  | take
  /-- `.result()` returns -/
  | result
  /-- a listing completes in the thread pool -/
  | complete (future : ℕ)
  deriving DecidableEq

variable {ε : Type}

/-- The prefixes that have been fetched. -/
def fetched (s : ExpanderRun ε) : List PyStr := s.returned.map Prod.fst

/-- The listings that have not completed. -/
def running (s : ExpanderRun ε) : Finset ℕ := Finset.range s.calls.length \ s.done

/-- The future that `get` waits for. -/
def awaited (s : ExpanderRun ε) : Option (PyStr × ℕ) :=
  match s.consumer with
  | .waiting p i => some (p, i)
  | _ => none

section Code

variable (fn : PyStr → Except ε ShallowListResult) (maxInflight : ℤ) (s : ExpanderRun ε)

/-- The loop of `_fill`. -/
def fillLoop (ready : PyDict PyStr ShallowListResult) :
    List PyStr → PyDict PyStr ℕ → List PyStr → List PyStr × PyDict PyStr ℕ × List PyStr
  | [], inflight, calls => ([], inflight, calls)
  | p :: ps, inflight, calls =>
      if (inflight.entries.length : ℤ) < maxInflight then
        if !inflight.contains p && !ready.contains p then
          fillLoop ready ps (inflight.set p calls.length) (calls ++ [p])
        else fillLoop ready ps inflight calls
      else (p :: ps, inflight, calls)

/-- `_fill` -/
def fill : ExpanderRun ε :=
  let (pending, inflight, calls) := fillLoop maxInflight s.ready s.pending s.inflight s.calls
  { s with pending := pending, inflight := inflight, calls := calls }

/-- `enqueue`; the heap is sorted, as in `PrefixExpander`. -/
def enqueue (prefixes : List PyStr) : ExpanderRun ε :=
  let pending :=
    if s.pending.isEmpty then prefixes.insertionSort (· ≤ ·)
    else prefixes.foldl (fun h p => h.orderedInsert (· ≤ ·) p) s.pending
  fill maxInflight { s with pending := pending, enqueued := s.enqueued ++ prefixes }

/-- `get` returns or raises. -/
def leave (p : PyStr) (r : Except ε ShallowListResult) : ExpanderRun ε :=
  { s with consumer := .idle, returned := s.returned ++ [(p, r)] }

/-- `if self._inflight[q].done(): self._ready[q] = self._inflight.pop(q).result()` -/
def look (p q : PyStr) (future : ℕ) (rest : List (PyStr × ℕ)) : ExpanderRun ε :=
  if future ∈ s.done then
    let s := { s with inflight := s.inflight.pop q }
    match fn q with
    | .ok r => { s with ready := s.ready.set q r, consumer := .collecting p rest }
    | .error e => s.leave p (.error e)
  else { s with consumer := .collecting p rest }

/-- The lines of `get` after `_collect`, one at a time. -/
def take (p : PyStr) : ExpanderRun ε :=
  match s.ready.get? p with
  | some r => { s with ready := s.ready.pop p }.leave p (.ok r)
  | none =>
      match s.inflight.get? p with
      | none =>
          { s with
            inflight := s.inflight.set p s.calls.length
            calls := s.calls ++ [p] }
      | some future => { s with inflight := s.inflight.pop p, consumer := .waiting p future }

/-- A step of the consumer or of the thread pool. -/
def step : Step → Option (ExpanderRun ε)
  | .enqueue prefixes =>
      match s.consumer with
      | .idle => some (s.enqueue maxInflight prefixes)
      -- the loop over the running futures goes through a copy of them
      | _ => none
  | .get p =>
      match s.consumer with
      | .idle => some { s with consumer := .collecting p s.inflight.entries }
      | _ => none
  | .look =>
      match s.consumer with
      | .collecting p ((q, future) :: rest) => some (s.look fn p q future rest)
      | _ => none
  | .refill =>
      match s.consumer with
      | .collecting p [] => some { s.fill maxInflight with consumer := .taking p }
      | _ => none
  | .take =>
      match s.consumer with
      | .taking p => some (s.take p)
      | _ => none
  | .result =>
      match s.consumer with
      -- result() returns once the call has completed
      | .waiting p future => if future ∈ s.done then some (s.leave p (fn p)) else none
      | _ => none
  | .complete future =>
      if future ∈ s.running then some { s with done := insert future s.done } else none

/-- Each prefix is enqueued once and then fetched once. -/
def Once : Step → Prop
  | .enqueue prefixes => prefixes.Nodup ∧ ∀ p ∈ prefixes, p ∉ s.enqueued
  | .get p => p ∈ s.enqueued ∧ p ∉ s.fetched
  | _ => True

/-- `get` finds its prefix ready or in flight, and `_collect` moves no listing of another prefix
that has raised. -/
def Direct : Step → Prop
  | .look =>
      match s.consumer with
      | .collecting p ((q, future) :: _) => future ∈ s.done → q ≠ p → (fn q).toOption.isSome
      | _ => True
  | .take =>
      match s.consumer with
      | .taking p => s.ready.contains p ∨ s.inflight.contains p
      | _ => True
  | _ => True

instance : (s : ExpanderRun ε) → (a : Step) → Decidable (s.Once a)
  | s, .enqueue prefixes =>
      inferInstanceAs (Decidable (prefixes.Nodup ∧ ∀ p ∈ prefixes, p ∉ s.enqueued))
  | s, .get p => inferInstanceAs (Decidable (p ∈ s.enqueued ∧ p ∉ s.fetched))
  | _, .look | _, .refill | _, .take | _, .result | _, .complete _ => .isTrue trivial

instance : (s : ExpanderRun ε) → (a : Step) → Decidable (s.Direct fn a)
  | s, .look =>
      match h : s.consumer with
      | .collecting p ((q, future) :: _) =>
          decidable_of_iff (future ∈ s.done → q ≠ p → (fn q).toOption.isSome)
            (by simp only [Direct, h])
      | .collecting _ [] | .idle | .taking _ | .waiting _ _ => .isTrue (by simp only [Direct, h])
  | s, .take =>
      match h : s.consumer with
      | .taking p =>
          decidable_of_iff (s.ready.contains p ∨ s.inflight.contains p) (by simp only [Direct, h])
      | .idle | .collecting _ _ | .waiting _ _ => .isTrue (by simp only [Direct, h])
  | _, .enqueue _ | _, .get _ | _, .refill | _, .result | _, .complete _ => .isTrue trivial

end Code

/-! ### What `_fill` keeps -/

section Fill

variable {maxInflight : ℤ} {s : ExpanderRun ε}

/-- `_fill` has put the head of `_pending` in flight. -/
def submit (s : ExpanderRun ε) (p : PyStr) (ps : List PyStr) : ExpanderRun ε :=
  { s with
    pending := ps
    inflight := s.inflight.set p s.calls.length
    calls := s.calls ++ [p] }

/-- What each iteration of `_fill` keeps, `_fill` keeps. -/
theorem fill_induction {P : ExpanderRun ε → Prop}
    (hsubmit : ∀ s p ps, P s → s.pending = p :: ps → (s.inflight.entries.length : ℤ) < maxInflight →
      s.inflight.contains p = false → s.ready.contains p = false → P (s.submit p ps))
    (hskip : ∀ s p ps, P s → s.pending = p :: ps → P { s with pending := ps })
    (h : P s) : P (s.fill maxInflight) := by
  suffices hloop : ∀ pending inflight calls,
      P { s with pending := pending, inflight := inflight, calls := calls } →
      P { s with
        pending := (fillLoop maxInflight s.ready pending inflight calls).1
        inflight := (fillLoop maxInflight s.ready pending inflight calls).2.1
        calls := (fillLoop maxInflight s.ready pending inflight calls).2.2 } from
    hloop s.pending s.inflight s.calls h
  intro pending
  induction pending with
  | nil => exact fun _ _ h => h
  | cons p ps ih =>
      intro inflight calls h
      rw [fillLoop]
      split
      next hlt =>
        split
        next hnew =>
          rw [Bool.and_eq_true, Bool.not_eq_true', Bool.not_eq_true'] at hnew
          exact ih _ _ (hsubmit _ p ps h rfl hlt hnew.1 hnew.2)
        next => exact ih _ _ (hskip _ p ps h rfl)
      next => exact h

end Fill

/-! ### The invariant -/

section Invariant

variable (fn : PyStr → Except ε ShallowListResult) (maxInflight : ℤ) (s : ExpanderRun ε)

/-- The prefix of the `get` that is under way has not been fetched. -/
def Asked : ExpanderAt → Prop
  | .idle => True
  | .collecting p rest =>
      p ∈ s.enqueued ∧ p ∉ s.fetched ∧ (rest.map Prod.fst).Nodup ∧
        ∀ x ∈ rest, s.inflight.get? x.1 = some x.2
  | .taking p => p ∈ s.enqueued ∧ p ∉ s.fetched
  | .waiting p i =>
      s.calls[i]? = some p ∧ p ∉ s.fetched ∧ s.inflight.get? p = none ∧ s.ready.get? p = none

/-- Every prefix is called for at most once, and it is in one place at a time. -/
structure Ok : Prop where
  pending_nodup : s.pending.Nodup
  pending_enqueued : ∀ p ∈ s.pending, p ∈ s.enqueued
  pending_new : ∀ p ∈ s.pending, p ∉ s.calls
  calls_nodup : s.calls.Nodup
  calls_enqueued : ∀ p ∈ s.calls, p ∈ s.enqueued
  inflight : ∀ p i, s.inflight.get? p = some i → s.calls[i]? = some p ∧ p ∉ s.fetched
  ready : ∀ p r, s.ready.get? p = some r →
    fn p = .ok r ∧ p ∈ s.calls ∧ p ∉ s.fetched ∧ s.inflight.get? p = none
  fetched : ∀ p ∈ s.fetched, p ∈ s.calls
  returned : ∀ x ∈ s.returned, x.2 = fn x.1
  running : ∀ i ∈ s.running, (∃ p, s.inflight.get? p = some i) ∨ ∃ p, s.awaited = some (p, i)
  window : (s.inflight.entries.length + s.awaited.toList.length : ℤ) ≤ maxInflight
  asked : s.Asked s.consumer

end Invariant

variable {fn : PyStr → Except ε ShallowListResult} {maxInflight : ℤ} {s s' : ExpanderRun ε}

/-- The invariant at the start. -/
theorem Ok.initial (h : 0 ≤ maxInflight) : ({} : ExpanderRun ε).Ok fn maxInflight where
  pending_nodup := List.nodup_nil
  pending_enqueued := nofun
  pending_new := nofun
  calls_nodup := List.nodup_nil
  calls_enqueued := nofun
  inflight := nofun
  ready := nofun
  fetched := nofun
  returned := nofun
  running i hi := by simp [ExpanderRun.running] at hi
  window := by simpa [awaited, PyDict.empty] using h
  asked := trivial

theorem mem_calls {p : PyStr} {i : ℕ} (h : s.calls[i]? = some p) : p ∈ s.calls :=
  List.mem_of_getElem? h

/-- A prefix that is skipped. -/
theorem Ok.skip (h : s.Ok fn maxInflight) {p : PyStr} {ps : List PyStr}
    (hp : s.pending = p :: ps) : ({ s with pending := ps }).Ok fn maxInflight where
  pending_nodup := (List.nodup_cons.mp (hp ▸ h.pending_nodup)).2
  pending_enqueued q hq := h.pending_enqueued q (hp ▸ List.mem_cons_of_mem p hq)
  pending_new q hq := h.pending_new q (hp ▸ List.mem_cons_of_mem p hq)
  calls_nodup := h.calls_nodup
  calls_enqueued := h.calls_enqueued
  inflight := h.inflight
  ready := h.ready
  fetched := h.fetched
  returned := h.returned
  running := h.running
  window := h.window
  asked := h.asked

theorem running_submit {p : PyStr} {ps : List PyStr} {i : ℕ} (h : i ∈ (s.submit p ps).running) :
    i ∈ s.running ∨ i = s.calls.length := by
  simp only [running, submit, List.length_append, List.length_singleton, Finset.mem_sdiff,
    Finset.mem_range] at h ⊢
  rcases Nat.lt_succ_iff_lt_or_eq.mp h.1 with hlt | heq
  · exact .inl ⟨hlt, h.2⟩
  · exact .inr heq

/-- A call for the head of `_pending`. -/
theorem Ok.submit (h : s.Ok fn maxInflight) {p : PyStr} {ps : List PyStr}
    (hp : s.pending = p :: ps)
    (hlt : (s.inflight.entries.length + s.awaited.toList.length : ℤ) < maxInflight) :
    (s.submit p ps).Ok fn maxInflight := by
  have hmem : p ∈ s.pending := hp ▸ List.mem_cons_self
  -- a prefix that waits has no call yet
  have hnew : p ∉ s.calls := h.pending_new p hmem
  have hnone : s.inflight.get? p = none := by
    cases hi : s.inflight.get? p with
    | none => rfl
    | some i => exact absurd (mem_calls (h.inflight p i hi).1) hnew
  have hfetched : p ∉ s.fetched := fun hf => hnew (h.fetched p hf)
  have hold : ∀ {q i}, s.inflight.get? q = some i → (s.submit p ps).inflight.get? q = some i := by
    intro q i hq
    have hne : q ≠ p := fun e => by simp [e, hnone] at hq
    rw [ExpanderRun.submit, PyDict.get?_set, if_neg hne, hq]
  have hget : ∀ {i q}, s.calls[i]? = some q → (s.calls ++ [p])[i]? = some q := fun hi =>
    List.getElem?_append_left (List.getElem?_eq_some_iff.mp hi).1 ▸ hi
  obtain ⟨hnot, hnodup⟩ := List.nodup_cons.mp (hp ▸ h.pending_nodup)
  refine ⟨hnodup, fun q hq => h.pending_enqueued q (hp ▸ List.mem_cons_of_mem p hq), ?_, ?_, ?_,
    ?_, ?_, fun q hq => List.mem_append_left [p] (h.fetched q hq), h.returned, ?_, ?_, ?_⟩
  -- no other prefix that waits has one
  · rintro q hq hcalled
    rcases List.mem_append.mp hcalled with hcalled | hcalled
    · exact h.pending_new q (hp ▸ List.mem_cons_of_mem p hq) hcalled
    · exact hnot (List.mem_singleton.mp hcalled ▸ hq)
  · exact h.calls_nodup.append (List.nodup_singleton p) (by simpa using hnew)
  · intro q hq
    rcases List.mem_append.mp hq with hq | hq
    · exact h.calls_enqueued q hq
    · exact List.mem_singleton.mp hq ▸ h.pending_enqueued p hmem
  -- the new call is in flight, the older ones are where they were
  · intro q i hq
    rw [ExpanderRun.submit, PyDict.get?_set] at hq
    split at hq
    next he =>
      subst he
      rw [← Option.some.inj hq]
      exact ⟨List.getElem?_concat_length, hfetched⟩
    next => exact ⟨hget (h.inflight q i hq).1, (h.inflight q i hq).2⟩
  · intro q r hr
    obtain ⟨hfn, hcalled, hnot, hin⟩ := h.ready q r hr
    refine ⟨hfn, List.mem_append_left [p] hcalled, hnot, ?_⟩
    have hne : q ≠ p := fun e => hnew (e ▸ hcalled)
    rw [ExpanderRun.submit, PyDict.get?_set, if_neg hne, hin]
  -- a call that runs is one of those in flight or awaited
  · intro i hi
    rcases running_submit hi with hi | rfl
    · exact (h.running i hi).imp (fun ⟨q, hq⟩ => ⟨q, hold hq⟩) id
    · exact .inl ⟨p, PyDict.get?_set_self ..⟩
  · have hlen : (s.submit p ps).inflight.entries.length = s.inflight.entries.length + 1 :=
      PyDict.length_set hnone
    rw [hlen]
    push_cast
    change (s.inflight.entries.length + 1 + s.awaited.toList.length : ℤ) ≤ maxInflight
    omega
  · have hasked := h.asked
    change (s.submit p ps).Asked s.consumer
    -- what the consumer is at is not about the new call
    cases hc : s.consumer with
    | idle => trivial
    | collecting q rest =>
        rw [hc] at hasked
        exact ⟨hasked.1, hasked.2.1, hasked.2.2.1, fun x hx => hold (hasked.2.2.2 x hx)⟩
    | taking q =>
        rw [hc] at hasked
        exact hasked
    | waiting q i =>
        rw [hc] at hasked
        refine ⟨hget hasked.1, hasked.2.1, ?_, hasked.2.2.2⟩
        have hne : q ≠ p := fun e => hnew (e ▸ mem_calls hasked.1)
        rw [ExpanderRun.submit, PyDict.get?_set, if_neg hne, hasked.2.2.1]

/-- `_fill` keeps the invariant while `get` does not wait. -/
theorem Ok.fill (h : s.Ok fn maxInflight) (hnone : s.awaited = none) :
    (s.fill maxInflight).Ok fn maxInflight ∧ (s.fill maxInflight).consumer = s.consumer := by
  refine fill_induction (P := fun t => t.Ok fn maxInflight ∧ t.consumer = s.consumer) ?_ ?_ ⟨h, rfl⟩
  · rintro t p ps ⟨ht, hc⟩ hp hlt - -
    have hawaited : t.awaited = none := by rw [← hnone, awaited, awaited, hc]
    exact ⟨ht.submit hp (by simpa [hawaited] using hlt), hc⟩
  · rintro t p ps ⟨ht, hc⟩ hp
    exact ⟨ht.skip hp, hc⟩

/-! ### What each step keeps -/

theorem perm_heappush (pending prefixes : List PyStr) :
    (prefixes.foldl (fun h p => h.orderedInsert (· ≤ ·) p) pending).Perm (pending ++ prefixes) := by
  induction prefixes generalizing pending with
  | nil => simp
  | cons p ps ih =>
      refine (ih _).trans (((List.perm_orderedInsert _ p pending).append_right ps).trans ?_)
      exact List.perm_middle.symm

theorem perm_enqueue (pending prefixes : List PyStr) :
    (if pending.isEmpty then prefixes.insertionSort (· ≤ ·)
      else prefixes.foldl (fun h p => h.orderedInsert (· ≤ ·) p) pending).Perm
      (pending ++ prefixes) := by
  split
  next hempty =>
    rw [List.isEmpty_iff.mp hempty]
    exact List.perm_insertionSort _ prefixes
  next => exact perm_heappush pending prefixes

/-- New prefixes are enqueued. -/
theorem Ok.enqueue (h : s.Ok fn maxInflight) (hidle : s.consumer = .idle) {prefixes : List PyStr}
    (honce : s.Once (.enqueue prefixes)) : (s.enqueue maxInflight prefixes).Ok fn maxInflight := by
  have hperm := perm_enqueue s.pending prefixes
  obtain ⟨hnodup, hnew⟩ := honce
  generalize hpending : (if s.pending.isEmpty then prefixes.insertionSort (· ≤ ·)
    else prefixes.foldl (fun h p => h.orderedInsert (· ≤ ·) p) s.pending) = pending at hperm
  have hok : ({ s with pending := pending, enqueued := s.enqueued ++ prefixes }).Ok fn
      maxInflight := by
    refine ⟨?_, fun p hp => ?_, fun p hp => ?_, h.calls_nodup,
      fun p hp => List.mem_append_left _ (h.calls_enqueued p hp), h.inflight, h.ready, h.fetched,
      h.returned, h.running, h.window, ?_⟩
    · refine hperm.nodup_iff.mpr (h.pending_nodup.append hnodup fun p hp hp' => ?_)
      exact hnew p hp' (h.pending_enqueued p hp)
    · exact List.mem_append.mpr ((List.mem_append.mp (hperm.mem_iff.mp hp)).imp_left
        (h.pending_enqueued p))
    · rcases List.mem_append.mp (hperm.mem_iff.mp hp) with hp | hp
      · exact h.pending_new p hp
      · exact fun hcalled => hnew p hp (h.calls_enqueued p hcalled)
    · dsimp only
      rw [hidle]
      trivial
  rw [ExpanderRun.enqueue, hpending]
  exact (hok.fill (by simp only [awaited, hidle])).1

/-- `get` leaves, with the result of the call for its prefix. -/
theorem Ok.leave (h : s.Ok fn maxInflight) {p : PyStr} {r : Except ε ShallowListResult}
    (hcalled : p ∈ s.calls) (hinflight : s.inflight.get? p = none) (hready : s.ready.get? p = none)
    (hr : r = fn p) (hrunning : ∀ i ∈ s.running, ∃ q, s.inflight.get? q = some i) :
    (s.leave p r).Ok fn maxInflight := by
  -- only `p` itself has left with its result
  have hfetched : ∀ {q}, q ∉ s.fetched → q ≠ p → q ∉ (s.leave p r).fetched := by
    intro q hq hne
    simp only [ExpanderRun.fetched, ExpanderRun.leave, List.map_append, List.mem_append,
      List.map_cons, List.map_nil, List.mem_singleton]
    exact not_or.mpr ⟨hq, hne⟩
  refine ⟨h.pending_nodup, h.pending_enqueued, h.pending_new, h.calls_nodup, h.calls_enqueued,
    fun q i hq => ⟨(h.inflight q i hq).1, ?_⟩, fun q r' hq => ?_, fun q hq => ?_, fun x hx => ?_,
    fun i hi => .inl (hrunning i hi), ?_, trivial⟩
  · refine hfetched (h.inflight q i hq).2 ?_
    rintro rfl
    exact Option.some_ne_none i (hq.symm.trans hinflight)
  · obtain ⟨hfn, hc, hnot, hin⟩ := h.ready q r' hq
    refine ⟨hfn, hc, hfetched hnot ?_, hin⟩
    rintro rfl
    exact Option.some_ne_none r' (hq.symm.trans hready)
  · simp only [ExpanderRun.fetched, ExpanderRun.leave, List.map_append, List.mem_append,
      List.map_cons, List.map_nil, List.mem_singleton] at hq
    rcases hq with hq | rfl
    · exact h.fetched q hq
    · exact hcalled
  · rcases List.mem_append.mp hx with hx | hx
    · exact h.returned x hx
    · rw [List.mem_singleton.mp hx]
      exact hr
  · have hwindow := h.window
    change (s.inflight.entries.length + (0 : ℕ) : ℤ) ≤ maxInflight
    omega

/-- A future is popped: it is complete, or `get` is going to wait for it. -/
theorem Ok.pop (h : s.Ok fn maxInflight) (hnone : s.awaited = none) {q : PyStr} {i : ℕ}
    (hq : s.inflight.get? q = some i) {c : ExpanderAt}
    (hc : ({ s with consumer := c }).awaited = none ∧ i ∈ s.done ∨ c = .waiting q i)
    (hasked : ({ s with inflight := s.inflight.pop q }).Asked c) :
    ({ s with inflight := s.inflight.pop q, consumer := c }).Ok fn maxInflight := by
  have hkept : ∀ {p j}, (s.inflight.pop q).get? p = some j → s.inflight.get? p = some j := by
    intro p j hp
    rw [PyDict.get?_pop] at hp
    split at hp
    · cases hp
    · exact hp
  refine ⟨h.pending_nodup, h.pending_enqueued, h.pending_new, h.calls_nodup, h.calls_enqueued,
    fun p j hp => h.inflight p j (hkept hp), fun p r hp => ?_, h.fetched, h.returned,
    fun j hj => ?_, ?_, hasked⟩
  · obtain ⟨hfn, hcalled, hnot, hin⟩ := h.ready p r hp
    refine ⟨hfn, hcalled, hnot, ?_⟩
    rw [PyDict.get?_pop, hin, ite_self]
  · obtain ⟨p, hp⟩ | ⟨p, hp⟩ := h.running j hj
    -- the call that is taken out is awaited from now on, or done
    · by_cases he : p = q
      · obtain rfl : i = j := Option.some.inj (hq.symm.trans (he ▸ hp))
        obtain ⟨-, hdone⟩ | rfl := hc
        · exact absurd hdone (Finset.mem_sdiff.mp hj).2
        · exact .inr ⟨q, rfl⟩
      · exact .inl ⟨p, by rw [PyDict.get?_pop, if_neg he, hp]⟩
    · rw [hnone] at hp
      cases hp
  · have hlt := PyDict.length_pop_lt hq
    have hwindow := h.window
    rw [hnone] at hwindow
    obtain ⟨hnone', -⟩ | rfl := hc
    -- the window: one fewer in flight, one more awaited
    · rw [show ({ s with inflight := s.inflight.pop q, consumer := c } : ExpanderRun ε).awaited =
        none from hnone']
      simp only [Option.toList_none, List.length_nil] at hwindow ⊢
      omega
    · simp only [awaited, Option.toList_none, Option.toList_some, List.length_nil,
        List.length_singleton] at hwindow ⊢
      omega

/-- The result of a complete future is kept for later. -/
theorem Ok.keep (h : s.Ok fn maxInflight) (hnone : s.awaited = none) {q : PyStr}
    {r : ShallowListResult} (hfn : fn q = .ok r) (hcalled : q ∈ s.calls) (hnot : q ∉ s.fetched)
    (hinflight : s.inflight.get? q = none) :
    ({ s with ready := s.ready.set q r }).Ok fn maxInflight where
  pending_nodup := h.pending_nodup
  pending_enqueued := h.pending_enqueued
  pending_new := h.pending_new
  calls_nodup := h.calls_nodup
  calls_enqueued := h.calls_enqueued
  inflight := h.inflight
  ready p r' hp := by
    rw [PyDict.get?_set] at hp
    split at hp
    next he =>
      subst he
      exact ⟨Option.some.inj hp ▸ hfn, hcalled, hnot, hinflight⟩
    next => exact h.ready p r' hp
  fetched := h.fetched
  returned := h.returned
  running := h.running
  window := h.window
  asked := by
    have hasked := h.asked
    change ({ s with ready := s.ready.set q r }).Asked s.consumer
    cases hc : s.consumer with
    | idle => trivial
    | collecting p rest => rwa [hc] at hasked
    | taking p => rwa [hc] at hasked
    | waiting p i => simp [awaited, hc] at hnone

/-- A result that was kept is taken. -/
theorem Ok.unkeep (h : s.Ok fn maxInflight) (hnone : s.awaited = none) (q : PyStr) :
    ({ s with ready := s.ready.pop q }).Ok fn maxInflight where
  pending_nodup := h.pending_nodup
  pending_enqueued := h.pending_enqueued
  pending_new := h.pending_new
  calls_nodup := h.calls_nodup
  calls_enqueued := h.calls_enqueued
  inflight := h.inflight
  ready p r hp := by
    rw [PyDict.get?_pop] at hp
    split at hp
    · cases hp
    · exact h.ready p r hp
  fetched := h.fetched
  returned := h.returned
  running := h.running
  window := h.window
  asked := by
    have hasked := h.asked
    change ({ s with ready := s.ready.pop q }).Asked s.consumer
    cases hc : s.consumer with
    | idle => trivial
    | collecting p rest => rwa [hc] at hasked
    | taking p => rwa [hc] at hasked
    | waiting p i => simp [awaited, hc] at hnone

/-- The consumer looks at a call that is done. -/
theorem Ok.look (h : s.Ok fn maxInflight) {p q : PyStr} {i : ℕ} {rest : List (PyStr × ℕ)}
    (hc : s.consumer = .collecting p ((q, i) :: rest)) (hdirect : s.Direct fn .look) :
    (s.look fn p q i rest).Ok fn maxInflight := by
  have hnone : s.awaited = none := by simp only [awaited, hc]
  obtain ⟨hp, hnot, hnodup, hrest⟩ : s.Asked (.collecting p ((q, i) :: rest)) := hc ▸ h.asked
  obtain ⟨hq, hnodup⟩ := List.nodup_cons.mp hnodup
  have hget : s.inflight.get? q = some i := hrest (q, i) List.mem_cons_self
  simp only [Direct, hc] at hdirect
  rw [ExpanderRun.look]
  split
  -- the call is done: its result is ready, or raised
  next hdone =>
    have hasked : ({ s with inflight := s.inflight.pop q }).Asked (.collecting p rest) := by
      refine ⟨hp, hnot, hnodup, fun x hx => ?_⟩
      have hne : x.1 ≠ q := fun e => hq (List.mem_map.mpr ⟨x, hx, e⟩)
      rw [PyDict.get?_pop, if_neg hne, hrest x (List.mem_cons_of_mem _ hx)]
    dsimp only
    split
    next r hr =>
      have hpop := h.pop hnone hget (c := .collecting p rest) (.inl ⟨rfl, hdone⟩) hasked
      exact hpop.keep rfl hr (mem_calls (h.inflight q i hget).1) (h.inflight q i hget).2
        (by rw [PyDict.get?_pop, if_pos rfl])
    next e he =>
      -- a failure is looked at in the order of the submissions, so it is the consumer's own
      obtain rfl : q = p := by
        by_contra hne
        simp [he, Except.toOption] at hdirect
        exact hne (hdirect hdone)
      have hpop := h.pop hnone hget (c := .idle) (.inl ⟨rfl, hdone⟩) trivial
      refine hpop.leave (mem_calls (h.inflight q i hget).1) (by rw [PyDict.get?_pop, if_pos rfl])
        ?_ he.symm fun j hj => (hpop.running j hj).resolve_right (by simp [awaited])
      cases hr : s.ready.get? q with
      | none => rfl
      | some r => exact absurd hget (by simp [(h.ready q r hr).2.2.2])
  -- the call is not done, and stays in flight
  next =>
    exact { h with
      window := by simpa [awaited, hc] using h.window
      running := fun j hj => by simpa [awaited, hc] using h.running j hj
      asked := ⟨hp, hnot, hnodup, fun x hx => hrest x (List.mem_cons_of_mem _ hx)⟩ }

/-- The consumer takes its result. -/
theorem Ok.take (h : s.Ok fn maxInflight) {p : PyStr} (hc : s.consumer = .taking p)
    (hdirect : s.Direct fn .take) : (s.take p).Ok fn maxInflight := by
  have hnone : s.awaited = none := by simp only [awaited, hc]
  obtain ⟨hp, hnot⟩ : s.Asked (.taking p) := hc ▸ h.asked
  simp only [Direct, hc] at hdirect
  rw [ExpanderRun.take]
  split
  next r hr =>
    obtain ⟨hfn, hcalled, -, hin⟩ := h.ready p r hr
    refine (h.unkeep hnone p).leave hcalled hin (by rw [PyDict.get?_pop, if_pos rfl]) hfn.symm
      fun j hj => (h.running j hj).resolve_right (by simp [hnone])
  next hready =>
    split
    next hin => simp [PyDict.contains, hready, hin] at hdirect
    next i hget =>
      refine h.pop hnone hget (c := .waiting p i) (.inr rfl) ⟨(h.inflight p i hget).1, hnot, ?_,
        hready⟩
      rw [PyDict.get?_pop, if_pos rfl]

theorem Ok.result (h : s.Ok fn maxInflight) {p : PyStr} {i : ℕ} (hc : s.consumer = .waiting p i)
    (hdone : i ∈ s.done) : (s.leave p (fn p)).Ok fn maxInflight := by
  obtain ⟨hcalled, -, hin, hready⟩ : s.Asked (.waiting p i) := hc ▸ h.asked
  refine h.leave (mem_calls hcalled) hin hready rfl fun j hj => ?_
  refine (h.running j hj).resolve_right ?_
  rintro ⟨q, hq⟩
  rw [awaited, hc] at hq
  cases hq
  exact (Finset.mem_sdiff.mp hj).2 hdone

/-- A call completes. -/
theorem Ok.complete (h : s.Ok fn maxInflight) (i : ℕ) :
    ({ s with done := insert i s.done }).Ok fn maxInflight :=
  { h with
    running := fun j hj => h.running j (by
      simp only [ExpanderRun.running, Finset.mem_sdiff, Finset.mem_insert, not_or] at hj ⊢
      exact ⟨hj.1, hj.2.2⟩)
    asked := by
      have hasked := h.asked
      change ({ s with done := insert i s.done }).Asked s.consumer
      cases hc : s.consumer with
      | idle => trivial
      | collecting p rest => rwa [hc] at hasked
      | taking p => rwa [hc] at hasked
      | waiting p j => rwa [hc] at hasked }

/-- **A step keeps the invariant**, if each prefix is enqueued and fetched once and `get` does not
go past the queue. -/
theorem Ok.step (h : s.Ok fn maxInflight) {a : Step} (honce : s.Once a) (hdirect : s.Direct fn a)
    (hstep : s.step fn maxInflight a = some s') : s'.Ok fn maxInflight := by
  cases a with
  | enqueue prefixes =>
      simp only [ExpanderRun.step] at hstep
      split at hstep
      next hc =>
        cases hstep
        exact h.enqueue hc honce
      next => cases hstep
  | get p =>
      simp only [ExpanderRun.step] at hstep
      split at hstep
      next hc =>
        cases hstep
        exact { h with
          window := by simpa [awaited, hc] using h.window
          running := fun j hj => by simpa [awaited, hc] using h.running j hj
          asked := ⟨honce.1, honce.2, s.inflight.nodup,
            fun _ hx => PyDict.get?_eq_some_iff.mpr hx⟩ }
      next => cases hstep
  -- here and at `take` the run has to be direct
  | look =>
      simp only [ExpanderRun.step] at hstep
      split at hstep
      next hc =>
        cases hstep
        exact h.look hc hdirect
      next => cases hstep
  | refill =>
      simp only [ExpanderRun.step] at hstep
      split at hstep
      next p hc =>
        cases hstep
        -- the refill keeps what the consumer has asked for
        obtain ⟨hok, hkept⟩ := h.fill (by simp only [awaited, hc])
        have hasked : (s.fill maxInflight).Asked (.collecting p []) := hc ▸ hkept ▸ hok.asked
        exact { hok with
          window := by simpa [awaited, hkept, hc] using hok.window
          running := fun j hj => by simpa [awaited, hkept, hc] using hok.running j hj
          asked := ⟨hasked.1, hasked.2.1⟩ }
      next => cases hstep
  | take =>
      simp only [ExpanderRun.step] at hstep
      split at hstep
      next hc =>
        cases hstep
        exact h.take hc hdirect
      next => cases hstep
  | result =>
      simp only [ExpanderRun.step] at hstep
      split at hstep
      next hc =>
        split at hstep
        next hdone =>
          cases hstep
          exact h.result hc hdone
        next => cases hstep
      next => cases hstep
  | complete i =>
      simp only [ExpanderRun.step] at hstep
      split at hstep
      next =>
        cases hstep
        exact h.complete i
      next => cases hstep

/-! ### A `get` returns -/

/-- A step of the expander or of its thread pool: not a new call by the consumer. -/
def Step.own : Step → Bool
  | .enqueue _ | .get _ => false
  | _ => true

/-- The steps that are left while the consumer makes no new call. -/
def ownStep (fn : PyStr → Except ε ShallowListResult) (maxInflight : ℤ) (s : ExpanderRun ε)
    (a : Step) : Option (ExpanderRun ε) :=
  if a.own then s.step fn maxInflight a else none

/-- The call under way has returned. -/
def answer (s : ExpanderRun ε) : Option Unit :=
  match s.consumer with
  | .idle => some ()
  | _ => none

/-- A future is the number of a call. -/
structure Known (s : ExpanderRun ε) : Prop where
  inflight : ∀ p i, s.inflight.get? p = some i → i < s.calls.length
  awaited : ∀ p i, s.awaited = some (p, i) → i < s.calls.length

/-- The iterations and lines of `get` that are left. -/
def leftOfGet (s : ExpanderRun ε) : ℕ :=
  match s.consumer with
  | .idle => 0
  | .waiting _ _ => 1
  | .taking p => if s.ready.contains p ∨ s.inflight.contains p then 2 else 4
  | .collecting _ rest => rest.length + 5

/-- What is left to do. -/
def left (s : ExpanderRun ε) : ℕ := s.pending.length + s.running.card + s.leftOfGet

theorem leftOfGet_taking {p : PyStr} (h : s.consumer = .taking p) :
    2 ≤ s.leftOfGet ∧ s.leftOfGet ≤ 4 := by
  rw [leftOfGet, h]
  dsimp only
  split <;> decide

theorem card_running_append {p : PyStr} {calls : List PyStr} (hcalls : s'.calls = calls ++ [p])
    (hs : s.calls = calls) (hdone : s'.done = s.done) : s'.running.card ≤ s.running.card + 1 := by
  refine (Finset.card_le_card fun i hi => ?_).trans (Finset.card_insert_le calls.length s.running)
  rw [running, hcalls, hdone, List.length_append, List.length_singleton, Finset.mem_sdiff,
    Finset.mem_range] at hi
  rw [Finset.mem_insert, running, hs, Finset.mem_sdiff, Finset.mem_range]
  rcases Nat.lt_succ_iff_lt_or_eq.mp hi.1 with hlt | heq
  · exact .inr ⟨hlt, hi.2⟩
  · exact .inl heq

/-- A new call is the last one. -/
theorem Known.append (h : s.Known) {p : PyStr} (hcalls : s'.calls = s.calls ++ [p])
    (hinflight : s'.inflight = s.inflight.set p s.calls.length)
    (hawaited : s'.awaited = s.awaited) :
    s'.Known := by
  have hlen : s'.calls.length = s.calls.length + 1 := by rw [hcalls, List.length_append]; rfl
  refine ⟨fun q i hq => ?_, fun q i hq => ?_⟩
  · rw [hinflight, PyDict.get?_set] at hq
    split at hq
    · cases hq
      omega
    · have := h.inflight q i hq
      omega
  · have := h.awaited q i (hawaited ▸ hq)
    omega

theorem Known.of_le (h : s.Known)
    (hinflight : ∀ p i, s'.inflight.get? p = some i → s.inflight.get? p = some i)
    (hawaited : s'.awaited = none) (hcalls : s'.calls = s.calls) : s'.Known :=
  ⟨fun p i hp => hcalls ▸ h.inflight p i (hinflight p i hp), fun p i hp => by simp [hawaited] at hp⟩

/-- A fill starts calls for prefixes that wait. -/
theorem Known.fill (h : s.Known) (maxInflight : ℤ) :
    (s.fill maxInflight).Known ∧ (s.fill maxInflight).consumer = s.consumer ∧
      (s.fill maxInflight).pending.length + (s.fill maxInflight).running.card ≤
        s.pending.length + s.running.card := by
  refine fill_induction (P := fun t => t.Known ∧ t.consumer = s.consumer ∧
    t.pending.length + t.running.card ≤ s.pending.length + s.running.card) ?_ ?_ ⟨h, rfl, le_rfl⟩
  · rintro t p ps ⟨ht, hc, hle⟩ hp - - -
    refine ⟨ht.append rfl rfl rfl, hc, ?_⟩
    have hcard : (t.submit p ps).running.card ≤ t.running.card + 1 :=
      card_running_append rfl rfl rfl
    have hlen : t.pending.length = ps.length + 1 := by rw [hp]; rfl
    have : (t.submit p ps).pending.length = ps.length := rfl
    omega
  · rintro t p ps ⟨ht, hc, hle⟩ hp
    refine ⟨⟨ht.inflight, ht.awaited⟩, hc, ?_⟩
    have hlen : t.pending.length = ps.length + 1 := by rw [hp]; rfl
    change ps.length + t.running.card ≤ _
    omega

theorem get?_of_get?_pop {q : PyStr} (p : PyStr) (i : ℕ) (h : (s.inflight.pop q).get? p = some i) :
    s.inflight.get? p = some i := by
  rw [PyDict.get?_pop] at h
  split at h
  · cases h
  · exact h

/-- A look takes a call out of those in flight. -/
theorem Known.look (h : s.Known) {p q : PyStr} {i : ℕ} {rest : List (PyStr × ℕ)}
    (hc : s.consumer = .collecting p ((q, i) :: rest)) :
    (s.look fn p q i rest).Known ∧ (s.look fn p q i rest).left < s.left := by
  have hleft : s.left = s.pending.length + s.running.card + (rest.length + 6) := by
    rw [left, leftOfGet, hc]
    rfl
  rw [ExpanderRun.look]
  split
  · dsimp only
    split
    · refine ⟨h.of_le get?_of_get?_pop rfl rfl, ?_⟩
      rw [hleft]
      change s.pending.length + s.running.card + (rest.length + 5) < _
      omega
    · refine ⟨h.of_le get?_of_get?_pop rfl rfl, ?_⟩
      rw [hleft]
      change s.pending.length + s.running.card + 0 < _
      omega
  · refine ⟨h.of_le (fun _ _ hp => hp) rfl rfl, ?_⟩
    rw [hleft]
    change s.pending.length + s.running.card + (rest.length + 5) < _
    omega

/-- A result that is taken is one fewer. -/
theorem Known.take (h : s.Known) {p : PyStr} (hc : s.consumer = .taking p) :
    (s.take p).Known ∧ (s.take p).left < s.left := by
  have hbounds := leftOfGet_taking hc
  have hleft : s.left = s.pending.length + s.running.card + s.leftOfGet := rfl
  rw [ExpanderRun.take]
  split
  -- the result is ready
  · refine ⟨h.of_le (fun _ _ hp => hp) rfl rfl, ?_⟩
    rw [hleft]
    change s.pending.length + s.running.card + 0 < _
    omega
  next hready =>
    split
    -- the prefix has no call yet, and gets one
    next hin =>
      refine ⟨h.append rfl rfl rfl, ?_⟩
      have hcard : ({ s with
          inflight := s.inflight.set p s.calls.length, calls := s.calls ++ [p] }).running.card ≤
            s.running.card + 1 := card_running_append rfl rfl rfl
      have hfour : s.leftOfGet = 4 := by
        rw [leftOfGet, hc]
        simp [PyDict.contains, hready, hin]
      have htwo : ({ s with
          inflight := s.inflight.set p s.calls.length, calls := s.calls ++ [p] }).leftOfGet =
            2 := by
        rw [leftOfGet, hc]
        simp [PyDict.contains]
      rw [left, left, htwo, hfour]
      change s.pending.length + _ + 2 < _
      omega
    -- its call is in flight, and is waited for
    next i hget =>
      refine ⟨⟨fun q j hq => h.inflight q j (get?_of_get?_pop q j hq), fun q j hq => ?_⟩, ?_⟩
      · cases hq
        exact h.inflight p i hget
      · rw [hleft]
        change s.pending.length + s.running.card + 1 < _
        omega

/-- Every step leaves less to do, but for new calls by the consumer. -/
theorem Known.step (h : s.Known) {a : Step} (hstep : s.step fn maxInflight a = some s') :
    s'.Known ∧ (a.own = true → s'.left < s.left) := by
  cases a with
  -- the steps from outside leave nothing to count
  | enqueue prefixes =>
      simp only [ExpanderRun.step] at hstep
      split at hstep
      next hc =>
        cases hstep
        refine ⟨?_, nofun⟩
        rw [ExpanderRun.enqueue]
        exact And.left (Known.fill (by exact ⟨h.inflight, h.awaited⟩) maxInflight)
      next => cases hstep
  | get p =>
      simp only [ExpanderRun.step] at hstep
      split at hstep
      next hc =>
        cases hstep
        exact ⟨h.of_le (fun _ _ hp => hp) rfl rfl, nofun⟩
      next => cases hstep
  | look =>
      simp only [ExpanderRun.step] at hstep
      split at hstep
      next hc =>
        cases hstep
        exact ⟨(h.look hc).1, fun _ => (h.look hc).2⟩
      next => cases hstep
  | refill =>
      simp only [ExpanderRun.step] at hstep
      split at hstep
      next p hc =>
        cases hstep
        obtain ⟨hknown, -, hle⟩ := h.fill maxInflight
        refine ⟨hknown.of_le (fun _ _ hp => hp) rfl rfl, fun _ => ?_⟩
        have hfive : s.left = s.pending.length + s.running.card + 5 := by
          rw [left, leftOfGet, hc]
          rfl
        -- a refill ends the round over the calls in flight
        have hlt : ∀ t : ExpanderRun ε, t.consumer = .taking p →
            t.pending = (s.fill maxInflight).pending → t.running = (s.fill maxInflight).running →
            t.left < s.left := by
          intro t ht hpending hrunning
          have hbounds := leftOfGet_taking ht
          rw [hfive, left, hpending, hrunning]
          omega
        exact hlt _ rfl rfl rfl
      next => cases hstep
  | take =>
      simp only [ExpanderRun.step] at hstep
      split at hstep
      next hc =>
        cases hstep
        exact ⟨(h.take hc).1, fun _ => (h.take hc).2⟩
      next => cases hstep
  | result =>
      simp only [ExpanderRun.step] at hstep
      split at hstep
      next hc =>
        split at hstep
        next =>
          cases hstep
          refine ⟨h.of_le (fun _ _ hp => hp) rfl rfl, fun _ => ?_⟩
          have hone : s.left = s.pending.length + s.running.card + 1 := by rw [left, leftOfGet, hc]
          rw [hone]
          change s.pending.length + s.running.card + 0 < _
          omega
        next => cases hstep
      next => cases hstep
  | complete i =>
      simp only [ExpanderRun.step] at hstep
      split at hstep
      next hrunning =>
        cases hstep
        -- a call that runs is done, and runs no more
        refine ⟨⟨h.inflight, h.awaited⟩, fun _ => ?_⟩
        have hlt : ({ s with done := insert i s.done }).running.card < s.running.card := by
          refine (Finset.card_le_card fun j hj => ?_).trans_lt
            (Finset.card_erase_lt_of_mem hrunning)
          simp only [running, Finset.mem_sdiff, Finset.mem_insert, not_or, Finset.mem_erase] at hj ⊢
          exact ⟨hj.2.1, hj.1, hj.2.2⟩
        have hleft : s.left = s.pending.length + s.running.card + s.leftOfGet := rfl
        rw [hleft, left]
        change s.pending.length + _ + s.leftOfGet < _
        omega
      next => cases hstep

/-- **A call of `get` returns** once the listings complete, in whatever order. -/
theorem Known.returns (h : s.Known) :
    Returns (ownStep fn maxInflight) answer (fun _ => True) s := by
  refine .of_measure (I := Known) left (fun s a s' h hstep => ?_) (fun s h hnone => ?_)
    (fun _ _ _ _ => trivial) h
  · rw [ownStep] at hstep
    split at hstep
    next hown => exact ⟨(h.step hstep).1, (h.step hstep).2 hown⟩
    next => cases hstep
  · cases hc : s.consumer with
    | idle => simp [answer, hc] at hnone
    | collecting p rest =>
        cases rest with
        | nil => exact ⟨.refill, by simp [ownStep, Step.own, ExpanderRun.step, hc]⟩
        | cons x rest => exact ⟨.look, by simp [ownStep, Step.own, ExpanderRun.step, hc]⟩
    | taking p => exact ⟨.take, by simp [ownStep, Step.own, ExpanderRun.step, hc]⟩
    | waiting p i =>
        by_cases hdone : i ∈ s.done
        · exact ⟨.result, by simp [ownStep, Step.own, ExpanderRun.step, hc, hdone]⟩
        · have hi : i < s.calls.length := h.awaited p i (by simp [ExpanderRun.awaited, hc])
          have hrunning : i ∈ s.running :=
            Finset.mem_sdiff.mpr ⟨Finset.mem_range.mpr hi, hdone⟩
          exact ⟨.complete i, by simp [ownStep, Step.own, ExpanderRun.step, hrunning]⟩

/-! ### Runs -/

/-- Never more calls run than the limit. -/
theorem Ok.card_running_le (h : s.Ok fn maxInflight) : (s.running.card : ℤ) ≤ maxInflight := by
  refine le_trans ?_ h.window
  have hsub : s.running ⊆
      (s.inflight.entries.map Prod.snd ++ s.awaited.toList.map Prod.snd).toFinset := by
    intro i hi
    rw [List.mem_toFinset, List.mem_append]
    rcases h.running i hi with ⟨p, hp⟩ | ⟨p, hp⟩
    · exact .inl (List.mem_map.mpr ⟨(p, i), PyDict.get?_eq_some_iff.mp hp, rfl⟩)
    · exact .inr (List.mem_map.mpr ⟨(p, i), by simp [hp], rfl⟩)
  have hle := (Finset.card_le_card hsub).trans (List.toFinset_card_le _)
  rw [List.length_append, List.length_map, List.length_map] at hle
  omega

/-- Once every prefix has been fetched, nothing is left. -/
theorem Ok.drained (h : s.Ok fn maxInflight) (hall : ∀ p ∈ s.enqueued, p ∈ s.fetched) :
    s.pending = [] ∧ s.inflight.entries = [] ∧ s.ready.entries = [] := by
  refine ⟨List.eq_nil_iff_forall_not_mem.mpr fun p hp => ?_,
    List.eq_nil_iff_forall_not_mem.mpr fun x hx => ?_,
    List.eq_nil_iff_forall_not_mem.mpr fun x hx => ?_⟩
  · exact h.pending_new p hp (h.fetched p (hall p (h.pending_enqueued p hp)))
  · obtain ⟨hcalled, hnot⟩ := h.inflight x.1 x.2 (PyDict.get?_eq_some_iff.mpr hx)
    exact hnot (hall _ (h.calls_enqueued _ (mem_calls hcalled)))
  · obtain ⟨-, hcalled, hnot, -⟩ := h.ready x.1 x.2 (PyDict.get?_eq_some_iff.mpr hx)
    exact hnot (hall _ (h.calls_enqueued _ hcalled))

/-- What a `_PrefixExpander` is for. -/
structure Serves (fn : PyStr → Except ε ShallowListResult) (maxInflight : ℤ) (s : ExpanderRun ε) :
    Prop where
  /-- `get` returns the listing of its prefix -/
  returned : ∀ x ∈ s.returned, x.2 = fn x.1
  returns : Returns (ownStep fn maxInflight) answer (fun _ => True) s
  once : s.calls.Nodup
  inflight : (s.inflight.entries.length : ℤ) ≤ maxInflight
  running : (s.running.card : ℤ) ≤ maxInflight
  drained : s.consumer = .idle → (∀ p ∈ s.enqueued, p ∈ s.fetched) →
    s.pending = [] ∧ s.inflight.entries = [] ∧ s.ready.entries = []

theorem known_of_run {as : List Step} (hrun : exec (step fn maxInflight) {} as = some s) :
    s.Known :=
  have hok : Always (step fn maxInflight) (fun _ _ => True) {} as :=
    Always.of_mem (fun _ _ _ => trivial) _
  exec_invariant (fun _ _ _ h _ hstep => (h.step hstep).1) hok hrun ⟨nofun, nofun⟩

/-- **In every state of a run whose calls of `get` do not go past the queue**, the expander serves
its consumer. -/
theorem expander_run {maxWorkers lookAhead : ℤ} (hworkers : 0 < maxWorkers) (hlook : 0 ≤ lookAhead)
    {as : List Step} (hrun : exec (step fn (maxWorkers * lookAhead)) {} as = some s)
    (honce : Always (step fn (maxWorkers * lookAhead)) Once {} as)
    (hdirect : Always (step fn (maxWorkers * lookAhead)) (Direct fn) {} as) :
    s.Serves fn (maxWorkers * lookAhead) := by
  have hok : s.Ok fn (maxWorkers * lookAhead) :=
    exec_invariant (fun _ _ _ h hmeets hstep => h.step hmeets.1 hmeets.2 hstep) (honce.and hdirect)
      hrun (Ok.initial (Int.mul_nonneg hworkers.le hlook))
  exact ⟨hok.returned, (known_of_run hrun).returns, hok.calls_nodup,
    le_trans (by omega) hok.window, hok.card_running_le, fun _ => hok.drained⟩

/-- A call that fetches `p`, with `looks` iterations of `_collect`. -/
def getSteps (p : PyStr) (looks : ℕ) : List Step :=
  .get p :: (List.replicate looks .look ++ [.refill, .take])

/-- Two prefixes are fetched in order by two workers, of which the second is done first. -/
def twoFetched : List Step :=
  [.enqueue ["a/".toList, "b/".toList], .complete 1, .complete 0] ++ getSteps "a/".toList 2 ++
    getSteps "b/".toList 0

/-- The listing of every prefix is empty. -/
def emptyListing (_ : PyStr) : Except Unit ShallowListResult := .ok ([], [])

theorem twoFetched_serves :
    ∃ s : ExpanderRun Unit, exec (step emptyListing (2 * 1)) {} twoFetched = some s ∧
      s.Serves emptyListing (2 * 1) := by
  have hsome : (exec (step emptyListing (2 * 1)) {} twoFetched).isSome = true := by decide
  obtain ⟨s, hs⟩ := Option.isSome_iff_exists.mp hsome
  exact ⟨s, hs, expander_run (by decide) (by decide) hs (by decide) (by decide)⟩

/-- With one worker and a window of one, `a/` is fetched and its child `a/x/` is enqueued while the
listing of `b/` is in flight: `get` makes a second listing beside it, and the prefix is still
pending. -/
def childFirst : List Step :=
  [.enqueue ["a/".toList, "b/".toList], .complete 0] ++ getSteps "a/".toList 1 ++
    [.enqueue ["a/x/".toList]] ++ getSteps "a/x/".toList 1 ++
    [.take, .complete 1, .complete 2, .result] ++ getSteps "b/".toList 1

/-- The run `childFirst` does not serve its consumer. -/
theorem childFirst_not_serves :
    ¬∀ (maxWorkers lookAhead : ℤ) (fn : PyStr → Except Unit ShallowListResult) (as : List Step)
      (s : ExpanderRun Unit), 0 < maxWorkers → 0 ≤ lookAhead →
      exec (step fn (maxWorkers * lookAhead)) {} as = some s →
      Always (step fn (maxWorkers * lookAhead)) Once {} as →
        s.Serves fn (maxWorkers * lookAhead) := by
  intro h
  obtain ⟨s, hs, hcalls⟩ : ∃ s, exec (step emptyListing (1 * 1)) {} childFirst = some s ∧
      ¬s.calls.Nodup := exec_exists (by decide)
  exact hcalls (h 1 1 emptyListing childFirst s (by decide) (by decide) hs (by decide)).once

end ExpanderRun

end MultiStorageClient
