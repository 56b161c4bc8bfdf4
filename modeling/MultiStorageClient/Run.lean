/-
MultiStorageClient/Run.lean

Runs of a labelled transition system.

A system is a partial step function: `step s a` is the state after action
`a`, or `none` where the action is not enabled.  An interleaving of several
threads is a list of actions, and `exec` follows it.  `Always` says that
every action of a run meets a condition in the state in which it is taken;
`exec_invariant` is the induction that every safety result uses.
-/
import Mathlib

namespace Run

variable {σ α : Type*} (step : σ → α → Option σ)

/-- The state after a sequence of actions, if all of them are enabled. -/
def exec : σ → List α → Option σ
  | s, [] => some s
  | s, a :: as => (step s a).bind fun s' => exec s' as

/-- Every action of the run meets `ok` in the state in which it is taken. -/
def Always (ok : σ → α → Prop) : σ → List α → Prop
  | _, [] => True
  | s, a :: as => ok s a ∧ ∀ s', step s a = some s' → Always ok s' as

variable {step} {ok : σ → α → Prop} {s s' : σ} {a : α} {as : List α}

theorem exec_nil : exec step s [] = some s' ↔ s = s' := Option.some_inj

theorem exec_cons : exec step s (a :: as) = some s' ↔
    ∃ s₁, step s a = some s₁ ∧ exec step s₁ as = some s' := by
  change (step s a).bind (fun s₁ => exec step s₁ as) = some s' ↔ _
  rw [Option.bind_eq_some_iff]

/-- A run of two parts is a run through a state in between. -/
theorem exec_append {bs : List α} : exec step s (as ++ bs) = some s' ↔
    ∃ s₁, exec step s as = some s₁ ∧ exec step s₁ bs = some s' := by
  induction as generalizing s with
  | nil => simp [exec_nil]
  | cons a as ih =>
      simp only [List.cons_append, exec_cons, ih]
      constructor
      · rintro ⟨s₂, h₂, s₁, h₁, hb⟩
        exact ⟨s₁, ⟨s₂, h₂, h₁⟩, hb⟩
      · rintro ⟨s₁, ⟨s₂, h₂, h₁⟩, hb⟩
        exact ⟨s₂, h₂, s₁, h₁, hb⟩

theorem exec_snoc : exec step s (as ++ [a]) = some s' ↔
    ∃ s₁, exec step s as = some s₁ ∧ step s₁ a = some s' := by
  simp [exec_append, exec_cons, exec_nil]

/-- What the initial state has and every step of the run keeps, the final
state has. -/
theorem exec_invariant {I : σ → Prop}
    (hstep : ∀ s a s', I s → ok s a → step s a = some s' → I s')
    (hok : Always step ok s as) (hrun : exec step s as = some s') (h : I s) : I s' := by
  induction as generalizing s with
  | nil =>
      obtain rfl : s = s' := exec_nil.mp hrun
      exact h
  | cons a as ih =>
      obtain ⟨s₁, hs₁, hrun⟩ := exec_cons.mp hrun
      exact ih (hok.2 s₁ hs₁) hrun (hstep s a s₁ h hok.1 hs₁)

/-- A run is followed, action by action, by a second system that keeps up with
every step. -/
theorem exec_simulation {σ' : Type*} {step' : σ' → α → Option σ'} {R : σ → σ' → Prop} {r : σ'}
    (hstep : ∀ s r a s', R s r → ok s a → step s a = some s' → ∃ r', step' r a = some r' ∧ R s' r')
    (hok : Always step ok s as) (hrun : exec step s as = some s') (h : R s r) :
    ∃ r', exec step' r as = some r' ∧ R s' r' := by
  induction as generalizing s r with
  | nil =>
      obtain rfl : s = s' := exec_nil.mp hrun
      exact ⟨r, rfl, h⟩
  | cons a as ih =>
      obtain ⟨s₁, hs₁, hrun⟩ := exec_cons.mp hrun
      obtain ⟨r₁, hr₁, h₁⟩ := hstep s r a s₁ h hok.1 hs₁
      obtain ⟨r', hr', h'⟩ := ih (hok.2 s₁ hs₁) hrun h₁
      exact ⟨r', exec_cons.mpr ⟨r₁, hr₁, hr'⟩, h'⟩

/-- A condition that the actions of a run meet in every state holds
throughout it. -/
theorem Always.of_mem (h : ∀ a ∈ as, ∀ s, ok s a) (s : σ) : Always step ok s as := by
  induction as generalizing s with
  | nil => trivial
  | cons a as ih =>
      refine ⟨h a List.mem_cons_self s, fun s' _ => ih (fun b hb => ?_) s'⟩
      exact h b (List.mem_cons_of_mem a hb)

theorem Always.and {ok' : σ → α → Prop} (h : Always step ok s as) (h' : Always step ok' s as) :
    Always step (fun s a => ok s a ∧ ok' s a) s as := by
  induction as generalizing s with
  | nil => trivial
  | cons a as ih => exact ⟨⟨h.1, h'.1⟩, fun s' hs' => ih (h.2 s' hs') (h'.2 s' hs')⟩

/-- A condition on the actions alone is added to one on the steps. -/
theorem Always.and_mem {p : α → Prop} (h : Always step ok s as) (hmem : ∀ a ∈ as, p a) :
    Always step (fun s a => ok s a ∧ p a) s as := by
  induction as generalizing s with
  | nil => trivial
  | cons a as ih =>
      refine ⟨⟨h.1, hmem a List.mem_cons_self⟩, fun s' hs' => ih (h.2 s' hs') fun b hb => ?_⟩
      exact hmem b (List.mem_cons_of_mem a hb)

/-- The condition on a concrete run is evaluated along it. -/
instance Always.decidable [∀ s a, Decidable (ok s a)] :
    (s : σ) → (as : List α) → Decidable (Always step ok s as)
  | _, [] => .isTrue trivial
  | s, a :: as =>
      match h : step s a with
      | some s' =>
          have := Always.decidable s' as
          decidable_of_iff (ok s a ∧ Always step ok s' as)
            (and_congr_right fun _ => ⟨fun hs _ hs' => Option.some.inj (h.symm.trans hs') ▸ hs,
              fun hs => hs s' h⟩)
      | none =>
          decidable_of_iff (ok s a)
            ⟨fun hs => ⟨hs, fun _ hs' => by rw [h] at hs'; cases hs'⟩, fun hs => hs.1⟩

/-- A concrete run is evaluated to find where it ends. -/
theorem exec_exists {P : σ → Prop} [DecidablePred P]
    (h : (exec step s as).any (fun s' => decide (P s')) = true) :
    ∃ s', exec step s as = some s' ∧ P s' := by
  obtain ⟨s', hs', hP⟩ := (Option.any_eq_true _ _).mp h
  exact ⟨s', hs', of_decide_eq_true hP⟩

/-! ### Updating one thread of many -/

/-- Replacing entry `i` of a list of threads changes nothing around it. -/
theorem set_eq_append {l : List α} {i : ℕ} {a : α} (h : l[i]? = some a) :
    ∃ l₁ l₂, l = l₁ ++ a :: l₂ ∧ ∀ b, l.set i b = l₁ ++ b :: l₂ := by
  obtain ⟨hi, rfl⟩ := List.getElem?_eq_some_iff.mp h
  refine ⟨l.take i, l.drop (i + 1), ?_, fun b => List.set_eq_take_append_cons_drop.trans
    (if_pos hi)⟩
  rw [List.cons_getElem_drop_succ, List.take_append_drop]

end Run
