/-
MultiStorageClient/OnLists.lean

Things that are each on the list of their state, as trackers are on LRUs.

`OnLists things state on` says that every list has its things once, and that
they are the things in its state.  `OnLists.move` moves one thing from a list
to another; `OnLists.card` counts: the lists together have as many entries as
there are things.
-/
import Mathlib

variable {α σ : Type*} {things : Finset α} {state : α → σ} {on on' : σ → List α}

/-- Every thing is on the list of its state, once. -/
structure OnLists (things : Finset α) (state : α → σ) (on : σ → List α) : Prop where
  nodup : ∀ s, (on s).Nodup
  mem : ∀ s a, a ∈ on s ↔ a ∈ things ∧ state a = s

namespace OnLists

/-- The order on the lists does not matter. -/
theorem perm (h : OnLists things state on) (hperm : ∀ s, (on' s).Perm (on s)) :
    OnLists things state on' :=
  ⟨fun s => (hperm s).nodup_iff.mpr (h.nodup s), fun s a => (hperm s).mem_iff.trans (h.mem s a)⟩

/-- One thing changes its state and its list. -/
theorem move [DecidableEq α] (h : OnLists things state on) {a : α} {s₀ s' : σ} (ha : a ∈ things)
    (hs : state a = s₀) (hne : s' ≠ s₀) (hfrom : (on s₀).Perm (a :: on' s₀))
    (hto : (on' s').Perm (a :: on s'))
    (hother : ∀ s, s ≠ s₀ → s ≠ s' → on' s = on s) :
    OnLists things (Function.update state a s') on' := by
  subst hs
  have hnot : a ∉ on s' := fun hmem => hne ((h.mem s' a).mp hmem).2.symm
  have hcons : (a :: on' (state a)).Nodup := hfrom.nodup_iff.mp (h.nodup _)
  refine ⟨fun s => ?_, fun s b => ?_⟩
  -- the list that `a` leaves, the list it comes to, and any other
  · by_cases h₁ : s = state a
    · subst h₁
      exact (List.nodup_cons.mp hcons).2
    · by_cases h₂ : s = s'
      · subst h₂
        exact hto.nodup_iff.mpr (List.nodup_cons.mpr ⟨hnot, h.nodup s⟩)
      · rw [hother s h₁ h₂]
        exact h.nodup s
  · by_cases hb : b = a
    · subst hb
      rw [Function.update_self]
      constructor
      -- on every other list `a` was not, since it was on one
      · intro hmem
        refine ⟨ha, ?_⟩
        by_contra hs
        by_cases h₁ : s = state b
        · subst h₁
          exact (List.nodup_cons.mp hcons).1 hmem
        · rw [hother s h₁ fun heq => hs heq.symm] at hmem
          exact h₁ ((h.mem s b).mp hmem).2.symm
      · rintro ⟨-, rfl⟩
        exact hto.mem_iff.mpr (List.mem_cons_self ..)
    · rw [Function.update_of_ne hb]
      rw [← h.mem s b]
      -- another element is on the list that it was on
      by_cases h₁ : s = state a
      · subst h₁
        rw [hfrom.mem_iff, List.mem_cons, or_iff_right hb]
      · by_cases h₂ : s = s'
        · subst h₂
          rw [hto.mem_iff, List.mem_cons, or_iff_right hb]
        · rw [hother s h₁ h₂]

/-- Things that do not change their state. -/
theorem congr_state {state' : α → σ} (h : OnLists things state on)
    (hstate : ∀ a ∈ things, state' a = state a) : OnLists things state' on := by
  refine ⟨h.nodup, fun s a => (h.mem s a).trans ?_⟩
  constructor
  · rintro ⟨ha, hs⟩
    exact ⟨ha, (hstate a ha).trans hs⟩
  · rintro ⟨ha, hs⟩
    exact ⟨ha, (hstate a ha).symm.trans hs⟩

theorem mem_things (h : OnLists things state on) {s : σ} {a : α} (ha : a ∈ on s) : a ∈ things :=
  ((h.mem s a).mp ha).1

theorem state_eq (h : OnLists things state on) {s : σ} {a : α} (ha : a ∈ on s) : state a = s :=
  ((h.mem s a).mp ha).2

/-- **Counting**: the lists together have every thing once. -/
theorem card [DecidableEq α] [DecidableEq σ] [Fintype σ] (h : OnLists things state on) :
    ∑ s, (on s).length = things.card := by
  have hmaps : Set.MapsTo state (things : Set α) ((Finset.univ : Finset σ) : Set σ) :=
    fun a _ => Finset.mem_coe.mpr (Finset.mem_univ _)
  rw [Finset.card_eq_sum_card_fiberwise hmaps]
  refine Finset.sum_congr rfl fun s _ => ?_
  rw [← List.toFinset_card_of_nodup (h.nodup s)]
  congr 1
  ext a
  rw [List.mem_toFinset, Finset.mem_filter, h.mem]

end OnLists
