/-
MultiStorageClient/TaskPool.lean

Tasks that are spawned one after the other under a semaphore, end in any order,
and are joined in the order in which they were spawned.

The answer is the list of the results, or the first error in that order,
whatever the order in which the tasks end (`TaskPool.returns`).
-/
import MultiStorageClient.Returns

open Run

/-- Tasks that are spawned and joined; `answer` is that of who joins them. -/
structure TaskPool (ε β : Type) where
  spawned : ℕ
  done : Finset ℕ
  joined : List β
  answer : Option (Except ε (List β))

namespace TaskPool

variable {ε β : Type}

/-- What can happen to the tasks. -/
inductive Step
  | spawn
  /-- a task ends, and its permit is dropped -/
  | finish (i : ℕ)
  | join
  deriving DecidableEq

/-- Nothing is spawned. -/
def initial : TaskPool ε β := ⟨0, ∅, [], none⟩

variable (concurrency : ℕ) (tasks : List (Except ε β))

/-- A step of a pool; `tasks` has what each task is going to end with. -/
def step (p : TaskPool ε β) : Step → Option (TaskPool ε β)
  | .spawn =>
      -- the semaphore bounds the calls that have not completed
      if p.answer.isNone ∧ p.spawned < tasks.length ∧ p.spawned - p.done.card < concurrency then
        some { p with spawned := p.spawned + 1 }
      else none
  | .finish i =>
      if i < p.spawned ∧ i ∉ p.done then some { p with done := insert i p.done } else none
  | .join =>
      if p.answer.isNone ∧ p.spawned = tasks.length then
        -- the calls are joined in the order in which they were spawned
        match tasks[p.joined.length]? with
        | none => some { p with answer := some (.ok p.joined) }
        | some r =>
            if p.joined.length ∈ p.done then
              match r with
              | .ok b => some { p with joined := p.joined ++ [b] }
              | .error e => some { p with answer := some (.error e) }
            else none
      else none

/-- The results, or the first error. -/
def results (tasks : List (Except ε β)) : Except ε (List β) := tasks.mapM id

theorem results_cons (b : β) (tasks : List (Except ε β)) :
    results (.ok b :: tasks) = (b :: ·) <$> results tasks := by
  unfold results
  rw [List.mapM_cons]
  rfl

theorem results_ok (bs : List β) : results (bs.map (.ok : β → Except ε β)) = .ok bs := by
  induction bs with
  | nil => rfl
  | cons b bs ih =>
      rw [List.map_cons, results_cons, ih]
      rfl

/-- The first failure is the result. -/
theorem results_error (bs : List β) (e : ε) (rest : List (Except ε β)) :
    results (bs.map .ok ++ .error e :: rest) = .error e := by
  induction bs with
  | nil =>
      unfold results
      rw [List.map_nil, List.nil_append, List.mapM_cons]
      rfl
  | cons b bs ih =>
      rw [List.map_cons, List.cons_append, results_cons, ih]
      rfl

/-- There are results if no task fails. -/
theorem results_eq_ok {tasks : List (Except ε β)} {bs : List β} :
    results tasks = .ok bs ↔ tasks = bs.map .ok := by
  refine ⟨fun h => ?_, fun h => h ▸ results_ok bs⟩
  induction tasks generalizing bs with
  | nil =>
      cases h
      rfl
  | cons r tasks ih =>
      cases r with
      | error e => exact nomatch (results_error [] e tasks).symm.trans h
      | ok b =>
          rw [results_cons] at h
          cases hr : results tasks with
          | error e =>
              rw [hr] at h
              cases h
          | ok bs' =>
              rw [hr] at h
              cases h
              rw [List.map_cons, ← ih hr]

theorem results_map {γ : Type} {l : List γ} {f : γ → Except ε β} {g : γ → β}
    (h : ∀ c ∈ l, f c = .ok (g c)) : results (l.map f) = .ok (l.map g) := by
  rw [List.map_congr_left h]
  exact results_eq_ok.mpr (List.map_map ..).symm

/-- Where there are results, no task fails. -/
theorem ok_of_results {tasks : List (Except ε β)} {bs : List β} {r : Except ε β}
    (h : results tasks = .ok bs) (hr : r ∈ tasks) : ∃ b, r = .ok b := by
  rw [results_eq_ok.mp h] at hr
  obtain ⟨b, -, rfl⟩ := List.mem_map.mp hr
  exact ⟨b, rfl⟩

/-- The invariant of a pool. -/
structure Ok (p : TaskPool ε β) : Prop where
  spawned : p.spawned ≤ tasks.length
  done : p.done ⊆ Finset.range p.spawned
  joined : tasks.take p.joined.length = p.joined.map .ok
  answer : ∀ r, p.answer = some r → r = results tasks

/-- What is left to do. -/
def left (p : TaskPool ε β) : ℕ :=
  (tasks.length - p.spawned) + (tasks.length - p.done.card) +
    if p.answer.isSome then 0 else tasks.length + 1 - p.joined.length

variable {concurrency tasks} {p p' : TaskPool ε β}

theorem Ok.card_le (h : p.Ok tasks) : p.done.card ≤ p.spawned := by
  simpa using Finset.card_le_card h.done

theorem Ok.length_le (h : p.Ok tasks) : p.joined.length ≤ tasks.length := by
  have := congrArg List.length h.joined
  rw [List.length_take, List.length_map] at this
  omega

/-- Every step keeps the invariant and leaves fewer steps. -/
theorem step_ok {a : Step} (h : p.Ok tasks) (hstep : step concurrency tasks p a = some p') :
    p'.Ok tasks ∧ p'.left tasks < p.left tasks := by
  have hcard := h.card_le
  have hspawned := h.spawned
  have hjoined := h.length_le
  cases a with
  | spawn =>
      simp only [step] at hstep
      split at hstep
      -- a task more is spawned
      next hcan =>
        cases hstep
        refine ⟨⟨hcan.2.1, fun i hi => ?_, h.joined, h.answer⟩, ?_⟩
        · have := Finset.mem_range.mp (h.done hi)
          exact Finset.mem_range.mpr (by dsimp only; omega)
        · have := hcan.2.1
          unfold left
          dsimp only
          omega
      next => cases hstep
  | finish i =>
      simp only [step] at hstep
      split at hstep
      -- a task that runs is done
      next hcan =>
        cases hstep
        have hsub : insert i p.done ⊆ Finset.range p.spawned :=
          Finset.insert_subset (Finset.mem_range.mpr hcan.1) h.done
        have hle := Finset.card_le_card hsub
        rw [Finset.card_insert_of_notMem hcan.2, Finset.card_range] at hle
        refine ⟨⟨h.spawned, hsub, h.joined, h.answer⟩, ?_⟩
        unfold left
        dsimp only
        rw [Finset.card_insert_of_notMem hcan.2]
        omega
      next => cases hstep
  | join =>
      simp only [step] at hstep
      split at hstep
      next hcan =>
        have hnone : p.answer.isSome = false := by
          rw [Option.isNone_iff_eq_none.mp hcan.1]
          rfl
        have hleft : p.left tasks = (tasks.length - p.spawned) + (tasks.length - p.done.card) +
            (tasks.length + 1 - p.joined.length) := by
          unfold left
          rw [hnone]
          rfl
        split at hstep
        -- all tasks are joined, and none has failed
        next hend =>
          cases hstep
          have hall : tasks = p.joined.map .ok := by
            rw [← h.joined, List.take_of_length_le (List.getElem?_eq_none_iff.mp hend)]
          refine ⟨⟨h.spawned, h.done, h.joined, ?_⟩, ?_⟩
          · rintro r ⟨⟩
            rw [hall, results_ok]
          · rw [hleft]
            unfold left
            simp only [Option.isSome_some, if_true]
            omega
        -- the next result
        next r hr =>
          obtain ⟨hlt, hget⟩ := List.getElem?_eq_some_iff.mp hr
          split at hstep
          · cases r with
            | ok b =>
                cases hstep
                refine ⟨⟨h.spawned, h.done, ?_, h.answer⟩, ?_⟩
                · rw [List.length_append, List.length_singleton, List.take_add_one, h.joined, hr,
                    List.map_append]
                  rfl
                · rw [hleft]
                  unfold left
                  rw [hnone, List.length_append, List.length_singleton]
                  simp only [Bool.false_eq_true, if_false]
                  omega
            | error e =>
                cases hstep
                refine ⟨⟨h.spawned, h.done, h.joined, ?_⟩, ?_⟩
                · rintro r ⟨⟩
                  have hsplit : tasks = p.joined.map .ok ++
                      .error e :: tasks.drop (p.joined.length + 1) := by
                    rw [← h.joined, ← hget, List.cons_getElem_drop_succ, List.take_append_drop]
                  rw [hsplit, results_error]
                · rw [hleft]
                  unfold left
                  simp only [Option.isSome_some, if_true]
                  omega
          · cases hstep
      next => cases hstep

/-- While there is no answer, something can be done. -/
theorem progress (hconcurrency : 0 < concurrency) (h : p.Ok tasks) (hnone : p.answer = none) :
    ∃ a, (step concurrency tasks p a).isSome := by
  have hcard := h.card_le
  have hspawned := h.spawned
  by_cases hrunning : ∃ i, i < p.spawned ∧ i ∉ p.done
  · obtain ⟨i, hi⟩ := hrunning
    exact ⟨.finish i, by simp only [step, if_pos hi, Option.isSome_some]⟩
  · have hdone : p.done = Finset.range p.spawned := by
      refine h.done.antisymm fun i hi => ?_
      by_contra hnot
      exact hrunning ⟨i, Finset.mem_range.mp hi, hnot⟩
    by_cases hlt : p.spawned < tasks.length
    · refine ⟨.spawn, ?_⟩
      simp only [step]
      rw [if_pos ⟨by rw [hnone]; rfl, hlt, by rw [hdone, Finset.card_range]; omega⟩]
      rfl
    · refine ⟨.join, ?_⟩
      have hall : p.spawned = tasks.length := by omega
      simp only [step]
      rw [if_pos ⟨by rw [hnone]; rfl, hall⟩]
      split
      · rfl
      next r hr =>
        have hlt := (List.getElem?_eq_some_iff.mp hr).1
        rw [if_pos (by rw [hdone, Finset.mem_range, hall]; exact hlt)]
        cases r <;> rfl

/-- **A pool answers with the results**, in whatever order the tasks end. -/
theorem returns (hconcurrency : 0 < concurrency) :
    Returns (step concurrency tasks) answer (· = results tasks) initial :=
  .of_measure (left tasks) (fun _ _ _ h hstep => step_ok h hstep)
    (fun _ h hnone => progress hconcurrency h hnone) (fun _ r h hr => h.answer r hr)
    ⟨Nat.zero_le _, Finset.empty_subset _, rfl, nofun⟩

end TaskPool
