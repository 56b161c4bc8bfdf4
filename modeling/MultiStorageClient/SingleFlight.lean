/-
MultiStorageClient/SingleFlight.lean

One value that is fetched by one party at a time, and only when it is due.

`SingleFlight.step` is what a cache with a lock around its refresh is for: a fetch
starts while no other is on its way and what was fetched last is due, and ends by
writing a value or by failing.  If no value is due at a time at which a fetch starts,
one value is all that is ever fetched (`SingleFlight.fetched_once`).
-/
import MultiStorageClient.Run

/-- What was fetched last, who fetches, and all that was fetched. -/
structure SingleFlight (ι V : Type*) where
  value : Option V := none
  flight : Option ι := none
  fetched : List V := []

namespace SingleFlight

open Run

variable {ι V T : Type*} [DecidableEq ι]

/-- What can happen to the value. -/
inductive Step (ι V T : Type*)
  | start (i : ι) (t : T)
  | write (i : ι) (v : V)
  | fail (i : ι)
  deriving DecidableEq

variable (due : V → T → Bool)

/-- A flight starts only if none is under way and the value is due. -/
def step (s : SingleFlight ι V) : Step ι V T → Option (SingleFlight ι V)
  | .start i t =>
      if s.flight.isNone ∧ s.value.all fun v => due v t then some { s with flight := some i }
      else none
  | .write i v =>
      if s.flight = some i then
        some { value := some v, flight := none, fetched := s.fetched ++ [v] }
      else none
  | .fail i => if s.flight = some i then some { s with flight := none } else none

variable {due} {s s' : SingleFlight ι V} {as : List (Step ι V T)}

/-- What a step needs and does. -/
theorem step_cases {a : Step ι V T} (h : s.step due a = some s') :
    (∃ i t, a = .start i t ∧ s.flight = none ∧ (∀ v, s.value = some v → due v t = true) ∧
      s' = { s with flight := some i }) ∨
    (∃ i v, a = .write i v ∧ s.flight = some i ∧
      s' = { value := some v, flight := none, fetched := s.fetched ++ [v] }) ∨
    ∃ i, a = .fail i ∧ s.flight = some i ∧ s' = { s with flight := none } := by
  cases a with
  | start i t =>
      obtain ⟨⟨hnone, hdue⟩, heq⟩ := Option.ite_none_right_eq_some.mp h
      refine Or.inl ⟨i, t, rfl, Option.isNone_iff_eq_none.mp hnone, fun v hv => ?_,
        (Option.some.inj heq).symm⟩
      rw [hv] at hdue
      exact hdue
  | write i v =>
      obtain ⟨hflight, heq⟩ := Option.ite_none_right_eq_some.mp h
      exact Or.inr (Or.inl ⟨i, v, rfl, hflight, (Option.some.inj heq).symm⟩)
  | fail i =>
      obtain ⟨hflight, heq⟩ := Option.ite_none_right_eq_some.mp h
      exact Or.inr (Or.inr ⟨i, rfl, hflight, (Option.some.inj heq).symm⟩)

/-- Nothing was fetched, or one value, and then no one fetches. -/
def Once (s : SingleFlight ι V) : Prop :=
  s.fetched = [] ∧ s.value = none ∨ ∃ v, s.fetched = [v] ∧ s.value = some v ∧ s.flight = none

/-- A step that starts no flight with a value that is still good keeps the rule. -/
theorem Once.step {a : Step ι V T} (h : s.Once) (hstep : s.step due a = some s')
    (hfresh : ∀ i t, a = .start i t → ∀ v, s.value = some v → due v t = false) : s'.Once := by
  rcases step_cases hstep with ⟨i, t, rfl, -, hdue, rfl⟩ | ⟨i, v, rfl, hflight, rfl⟩ |
    ⟨i, rfl, hflight, rfl⟩
  · rcases h with hnone | ⟨v, -, hv, -⟩
    · exact Or.inl hnone
    · have hno := hfresh i t rfl v hv
      rw [hdue v hv] at hno
      cases hno
  · rcases h with ⟨hnil, -⟩ | ⟨_, -, -, hno⟩
    · exact Or.inr ⟨v, by rw [hnil, List.nil_append], rfl, rfl⟩
    · rw [hno] at hflight
      cases hflight
  · rcases h with hnone | ⟨_, -, -, hno⟩
    · exact Or.inl hnone
    · rw [hno] at hflight
      cases hflight

/-- What a step writes. -/
def Step.written : Step ι V T → Option V
  | .write _ v => some v
  | _ => none

omit [DecidableEq ι] in
@[simp] theorem Step.written_write (i : ι) (v : V) : (write i v : Step ι V T).written = some v :=
  rfl

/-- What is fetched is what the steps write. -/
theorem fetched_eq {s₀ : SingleFlight ι V} (hrun : exec (SingleFlight.step due) s₀ as = some s) :
    s.fetched = s₀.fetched ++ as.filterMap Step.written := by
  induction as generalizing s₀ with
  | nil =>
      obtain rfl : s₀ = s := by simpa [exec] using hrun
      simp
  | cons a as ih =>
      obtain ⟨s₁, hstep, hrun⟩ := exec_cons.mp hrun
      rw [ih hrun]
      rcases step_cases hstep with ⟨i, t, rfl, -, -, rfl⟩ | ⟨i, v, rfl, -, rfl⟩ | ⟨i, rfl, -, rfl⟩
      · rw [List.filterMap_cons_none rfl]
      · rw [List.filterMap_cons_some (Step.written_write i v), List.append_assoc]
        rfl
      · rw [List.filterMap_cons_none rfl]

/-- **One value is fetched** where none of them is due when a fetch starts. -/
theorem fetched_once (hrun : exec (SingleFlight.step due) {} as = some s)
    (hfresh : ∀ v i t, (∃ j, Step.write j v ∈ as) → .start i t ∈ as → due v t = false) :
    s.fetched.length ≤ 1 := by
  suffices honce : s.Once by
    rcases honce with ⟨hnil, -⟩ | ⟨v, hone, -⟩
    · simp [hnil]
    · simp [hone]
  -- the value of a state is one that was written
  have hinv : s.Once ∧ ∀ v, s.value = some v → ∃ j, Step.write j v ∈ as := by
    have hok : Always (SingleFlight.step due) (fun _ a => True ∧ a ∈ as) {} as :=
      (Always.of_mem (fun _ _ _ => trivial) _).and_mem fun _ ha => ha
    refine exec_invariant (I := fun q => q.Once ∧ ∀ v, q.value = some v → ∃ j, Step.write j v ∈ as)
      (fun q a q' hq ha hstep => ?_) hok hrun ⟨Or.inl ⟨rfl, rfl⟩, by simp⟩
    refine ⟨hq.1.step hstep fun i t heq v hv => hfresh v i t (hq.2 v hv) (heq ▸ ha.2),
      fun v hv => ?_⟩
    rcases step_cases hstep with ⟨i, t, -, -, -, rfl⟩ | ⟨i, v', rfl, -, rfl⟩ | ⟨i, -, -, rfl⟩
    · exact hq.2 v hv
    · obtain rfl := Option.some.inj hv
      exact ⟨i, ha.2⟩
    · exact hq.2 v hv
  exact hinv.1

end SingleFlight
