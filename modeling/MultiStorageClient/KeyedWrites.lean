/-
MultiStorageClient/KeyedWrites.lean

Writes to a store of values under keys.

A write gives one key a value or takes its value away.  A list of writes in which
all those of one key agree leaves that key with what they say, whatever their order
and however the other writes stand between them (`writes_of_agree`); a key that
none of them names keeps its value (`writes_of_not_mem`).
-/
import Mathlib

namespace KeyedWrites

variable {K V : Type*} [DecidableEq K] {ws : List (K × Option V)} {σ : K → Option V} {k : K}
  {v : Option V}

/-- The store after the writes, the first of them first. -/
def writes (σ : K → Option V) (ws : List (K × Option V)) : K → Option V :=
  ws.foldl (fun σ w => Function.update σ w.1 w.2) σ

theorem writes_cons (w : K × Option V) :
    writes σ (w :: ws) = writes (Function.update σ w.1 w.2) ws := rfl

/-- A key that is not written keeps its value. -/
theorem writes_of_not_mem (h : ∀ w ∈ ws, w.1 ≠ k) : writes σ ws k = σ k := by
  induction ws generalizing σ with
  | nil => rfl
  | cons w ws ih =>
      rw [List.forall_mem_cons] at h
      rw [writes_cons, ih h.2, Function.update_of_ne h.1.symm]

/-- A key whose writes agree has what they say, or what it had if that is the same. -/
theorem writes_of_forall (hall : ∀ w ∈ ws, w.1 = k → w.2 = v) (hσ : σ k = v) :
    writes σ ws k = v := by
  induction ws generalizing σ with
  | nil => exact hσ
  | cons w ws ih =>
      rw [List.forall_mem_cons] at hall
      rw [writes_cons]
      refine ih hall.2 ?_
      by_cases hw : w.1 = k
      · rw [← hw, Function.update_self]
        exact hall.1 hw
      · rw [Function.update_of_ne (Ne.symm hw)]
        exact hσ

/-- **A key whose writes agree** has what they say. -/
theorem writes_of_agree (hmem : (k, v) ∈ ws) (hall : ∀ w ∈ ws, w.1 = k → w.2 = v) :
    writes σ ws k = v := by
  obtain ⟨before, after, rfl⟩ := List.append_of_mem hmem
  unfold writes
  rw [List.foldl_append, List.foldl_cons]
  refine writes_of_forall (fun w hw => hall w ?_) (Function.update_self ..)
  exact List.mem_append_right _ (List.mem_cons_of_mem _ hw)

end KeyedWrites
