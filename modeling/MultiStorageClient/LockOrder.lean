/-
MultiStorageClient/LockOrder.lean

Threads and the locks they hold.

`Held holds locks` ties the table of the locks to the places where the threads
are: a lock is held by the thread that is at a place where it has it.  A step of
a thread takes a lock that is free, gives one back, or leaves them alone
(`Held.acquire`, `Held.release`, `Held.keep`); two threads are never where they
need the same lock (`Held.unique`).

Where every thread waits only for locks above those it has, in some order, whoever
waits does so, in the end, for a thread that can go on (`Held.exists_unblocked`).
-/
import Mathlib

namespace LockOrder

variable {θ L : Type*}

/-- A lock is held by the thread that is where it has it. -/
def Held (holds : θ → L → Prop) (locks : L → Option θ) : Prop :=
  ∀ t l, holds t l ↔ locks l = some t

namespace Held

variable {holds holds' : θ → L → Prop} {locks : L → Option θ} {t t' : θ} {l : L}

theorem unique (h : Held holds locks) (ht : holds t l) (ht' : holds t' l) : t = t' := by
  have heq : some t = some t' := ((h t l).mp ht).symm.trans ((h t' l).mp ht')
  exact Option.some.inj heq

theorem not_holds_of_free (h : Held holds locks) (hl : locks l = none) : ¬holds t l := by
  intro ht
  rw [(h t l).mp ht] at hl
  cases hl

/-- A step that neither takes nor gives back a lock. -/
theorem keep (h : Held holds locks) (hothers : ∀ t l, holds' t l ↔ holds t l) :
    Held holds' locks := fun t l => (hothers t l).trans (h t l)

/-- `t` takes a lock that is free. -/
theorem acquire [DecidableEq L] (h : Held holds locks) (hfree : locks l = none)
    (hothers : ∀ t', t' ≠ t → ∀ l', holds' t' l' ↔ holds t' l')
    (ht : ∀ l', holds' t l' ↔ l' = l ∨ holds t l') :
    Held holds' (Function.update locks l (some t)) := by
  intro t' l'
  by_cases hl : l' = l
  · subst hl
    rw [Function.update_self]
    by_cases htt : t' = t
    · subst htt
      exact iff_of_true ((ht l').mpr (Or.inl rfl)) rfl
    · refine iff_of_false (fun h' => ?_) fun heq => htt (Option.some.inj heq).symm
      exact h.not_holds_of_free hfree ((hothers t' htt l').mp h')
  · rw [Function.update_of_ne hl, ← h t' l']
    by_cases htt : t' = t
    · subst htt
      exact (ht l').trans (or_iff_right hl)
    · exact hothers t' htt l'

/-- `t` gives a lock back. -/
theorem release [DecidableEq L] (h : Held holds locks) (hheld : holds t l)
    (hothers : ∀ t', t' ≠ t → ∀ l', holds' t' l' ↔ holds t' l')
    (ht : ∀ l', holds' t l' ↔ l' ≠ l ∧ holds t l') :
    Held holds' (Function.update locks l none) := by
  intro t' l'
  by_cases hl : l' = l
  · subst hl
    rw [Function.update_self]
    refine iff_of_false (fun h' => ?_) (by simp)
    by_cases htt : t' = t
    · subst htt
      exact ((ht l').mp h').1 rfl
    · exact htt (h.unique ((hothers t' htt l').mp h') hheld)
  · rw [Function.update_of_ne hl, ← h t' l']
    by_cases htt : t' = t
    · subst htt
      exact (ht l').trans (and_iff_right hl)
    · exact hothers t' htt l'

/-- **Whoever waits, waits for a thread that can go on.**  The induction is on how
far the lock that is waited for is below the highest one. -/
theorem exists_unblocked (h : Held holds locks) {wants : θ → Option L} {rank : L → ℕ} {n : ℕ}
    (hrank : ∀ l, rank l < n)
    (hup : ∀ t l l', holds t l → wants t = some l' → rank l < rank l') (t : θ) :
    ∃ t', (∀ l, wants t' = some l → locks l = none) ∧ (t' = t ∨ ∃ l, holds t' l) := by
  suffices hkey : ∀ k t, (∀ l, wants t = some l → n - rank l ≤ k) →
      ∃ t', (∀ l, wants t' = some l → locks l = none) ∧ (t' = t ∨ ∃ l, holds t' l) from
    hkey n t fun l _ => Nat.sub_le n (rank l)
  intro k
  -- `k` bounds how far up the ranks a thread's wish can lead
  induction k with
  | zero =>
      intro t hk
      refine ⟨t, fun l hl => ?_, Or.inl rfl⟩
      have hlt := hrank l
      have hle := hk l hl
      omega
  | succ k ih =>
      intro t hk
      by_cases hfree : ∀ l, wants t = some l → locks l = none
      · exact ⟨t, hfree, Or.inl rfl⟩
      -- the holder of the lock wants one that is higher
      · obtain ⟨l, hl, hheld⟩ : ∃ l, wants t = some l ∧ locks l ≠ none := by
          simpa using hfree
        obtain ⟨t₁, ht₁⟩ := Option.ne_none_iff_exists'.mp hheld
        have hin : holds t₁ l := (h t₁ l).mpr ht₁
        obtain ⟨t', hgo, hwho⟩ := ih t₁ fun l' hl' => by
          have hlt := hup t₁ l l' hin hl'
          have hle := hk l hl
          omega
        refine ⟨t', hgo, Or.inr ?_⟩
        rcases hwho with rfl | hother
        · exact ⟨l, hin⟩
        · exact hother

end Held

end LockOrder
