/-
MultiStorageClient/Returns.lean

Systems that answer.

`Returns step answer P s` says that from `s` the system answers in whatever
order its steps come, and that the answer meets `P`: no run is longer than a
bound, and while there is no answer some step can be taken.  It follows from an
invariant and a measure (`Returns.of_measure`).  A system whose answer does not
depend on the order meets `P` if and only if this answer does
(`Returns.iff_of_eq`).
-/
import MultiStorageClient.Run

namespace Run

variable {σ α ρ : Type*} {step : σ → α → Option σ} {answer : σ → Option ρ} {P Q : ρ → Prop} {s : σ}

/-- The system answers, and well. -/
structure Returns (step : σ → α → Option σ) (answer : σ → Option ρ) (P : ρ → Prop) (s : σ) :
    Prop where
  correct : ∀ as s' r, exec step s as = some s' → answer s' = some r → P r
  progress : ∀ as s', exec step s as = some s' → answer s' = none → ∃ a, (step s' a).isSome
  bounded : ∃ n, ∀ as s', exec step s as = some s' → as.length ≤ n

/-- One of several parties takes its part of a measure. -/
theorem sum_map_set {α : Type*} {l : List α} {k : ℕ} {x : α} (h : l[k]? = some x) (φ : α → ℕ)
    (y : α) : ((l.set k y).map φ).sum + φ x = (l.map φ).sum + φ y := by
  induction l generalizing k with
  | nil => cases h
  | cons z l ih =>
      cases k with
      | zero =>
          obtain rfl := Option.some.inj h
          rw [List.set_cons_zero, List.map_cons, List.map_cons, List.sum_cons, List.sum_cons]
          omega
      | succ k =>
          have := ih h
          rw [List.set_cons_succ, List.map_cons, List.map_cons, List.sum_cons, List.sum_cons]
          omega

theorem le_sum_map {α : Type*} {l : List α} {x : α} (h : x ∈ l) (φ : α → ℕ) :
    φ x ≤ (l.map φ).sum :=
  List.single_le_sum (fun _ _ => Nat.zero_le _) _ (List.mem_map_of_mem h)

/-- A run is no longer than what its steps take from a measure. -/
theorem exec_measure {I : σ → Prop} (μ : σ → ℕ)
    (hstep : ∀ s a s', I s → step s a = some s' → I s' ∧ μ s' < μ s) (h : I s) {as : List α}
    {s' : σ}
    (hrun : exec step s as = some s') : I s' ∧ as.length + μ s' ≤ μ s := by
  induction as generalizing s with
  | nil =>
      obtain rfl : s = s' := Option.some.inj hrun
      exact ⟨h, by simp⟩
  | cons a as ih =>
      obtain ⟨s₁, hs₁, hrun⟩ := exec_cons.mp hrun
      obtain ⟨h₁, hlt⟩ := hstep s a s₁ h hs₁
      obtain ⟨h', hle⟩ := ih h₁ hrun
      refine ⟨h', ?_⟩
      rw [List.length_cons]
      omega

/-- **An invariant and a measure** show that a system answers. -/
theorem Returns.of_measure {I : σ → Prop} (μ : σ → ℕ)
    (hstep : ∀ s a s', I s → step s a = some s' → I s' ∧ μ s' < μ s)
    (hprogress : ∀ s, I s → answer s = none → ∃ a, (step s a).isSome)
    (hcorrect : ∀ s r, I s → answer s = some r → P r) (h : I s) : Returns step answer P s where
  correct _ s' r hrun hr := hcorrect s' r (exec_measure μ hstep h hrun).1 hr
  progress _ s' hrun hnone := hprogress s' (exec_measure μ hstep h hrun).1 hnone
  bounded := ⟨μ s, fun as _ hrun => by
    have := (exec_measure μ hstep h hrun).2
    omega⟩

namespace Returns

theorem mono (h : Returns step answer P s) (hPQ : ∀ r, P r → Q r) : Returns step answer Q s :=
  ⟨fun as s' r hrun hr => hPQ r (h.correct as s' r hrun hr), h.progress, h.bounded⟩

/-- A longest run has an answer. -/
theorem exists_run (h : Returns step answer P s) :
    ∃ as s' r, exec step s as = some s' ∧ answer s' = some r ∧ P r := by
  obtain ⟨n, hn⟩ := h.bounded
  by_contra hnone
  -- without an answer, every run goes on
  have hlong : ∀ k, ∃ as s', exec step s as = some s' ∧ as.length = k := by
    intro k
    induction k with
    | zero => exact ⟨[], s, rfl, rfl⟩
    | succ k ih =>
        obtain ⟨as, s', hrun, hlen⟩ := ih
        have hans : answer s' = none := by
          by_contra hsome
          obtain ⟨r, hr⟩ := Option.ne_none_iff_exists'.mp hsome
          exact hnone ⟨as, s', r, hrun, hr, h.correct as s' r hrun hr⟩
        obtain ⟨a, ha⟩ := h.progress as s' hrun hans
        obtain ⟨s₁, hs₁⟩ := Option.isSome_iff_exists.mp ha
        exact ⟨as ++ [a], s₁, exec_snoc.mpr ⟨s', hrun, hs₁⟩, by rw [List.length_append, hlen]; rfl⟩
  obtain ⟨as, s', hrun, hlen⟩ := hlong (n + 1)
  have := hn as s' hrun
  omega

/-- **A system with one answer.** -/
theorem iff_of_eq {r₀ : ρ} (h : Returns step answer (· = r₀) s) :
    Returns step answer P s ↔ P r₀ := by
  constructor
  · intro hP
    obtain ⟨as, s', r, hrun, hr, rfl⟩ := h.exists_run
    exact hP.correct as s' r hrun hr
  · rintro hP
    exact h.mono fun r hr => hr ▸ hP

end Returns

end Run
