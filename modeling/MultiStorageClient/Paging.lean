/-
MultiStorageClient/Paging.lean

A listing that is returned in pages: a page comes with the token of the page that
follows it, if there is one.

What the pages hold depends on nothing but the first token (`Pages.unique`).  Where
the tokens stand for the places in a list, and a page holds what comes from its place
on up to a limit, the pages hold the rest of the list (`Pages.of_positions`).  Where
the first page is one of a narrower list, they hold that list if it is not narrower or
fits in the page (`take_append_drop_filter`).
-/
import Mathlib

variable {τ ρ α : Type*}

/-- The pages of a listing, from a token on. -/
inductive Pages (page : τ → Option ρ) (next : ρ → Option τ) : τ → List ρ → Prop
  | last {t : τ} {p : ρ} : page t = some p → next p = none → Pages page next t [p]
  | more {t t' : τ} {p : ρ} {ps : List ρ} : page t = some p → next p = some t' →
      Pages page next t' ps → Pages page next t (p :: ps)

namespace Pages

variable {page : τ → Option ρ} {next : ρ → Option τ} {t : τ} {ps qs : List ρ}

/-- One listing has one sequence of pages. -/
theorem unique (h : Pages page next t ps) (h' : Pages page next t qs) : ps = qs := by
  induction h generalizing qs with
  | last hp hn =>
      cases h' with
      | last hp' hn' => rw [Option.some.inj (hp.symm.trans hp')]
      | more hp' hn' _ =>
          rw [← Option.some.inj (hp.symm.trans hp'), hn] at hn'
          cases hn'
  | more hp hn _ ih =>
      cases h' with
      | last hp' hn' =>
          rw [← Option.some.inj (hp.symm.trans hp'), hn] at hn'
          cases hn'
      | more hp' hn' hrest =>
          obtain rfl := Option.some.inj (hp.symm.trans hp')
          obtain rfl := Option.some.inj (hn.symm.trans hn')
          rw [ih hrest]

variable {items : ρ → List α} {token : ℕ → τ} {l : List α} {limit : ℕ}

/-- A page holds what comes from its place on, up to the limit. -/
def FromPosition (next : ρ → Option τ) (items : ρ → List α) (token : ℕ → τ) (l : List α)
    (limit n : ℕ) (p : ρ) : Prop :=
  items p = (l.drop n).take limit ∧
    next p = if n + limit < l.length then some (token (n + limit)) else none

/-- **The pages** from a place on hold the rest of the list. -/
theorem of_positions (hlimit : 0 < limit)
    (h : ∀ n ≤ l.length, ∃ p, page (token n) = some p ∧ FromPosition next items token l limit n p)
    {n : ℕ} (hn : n ≤ l.length) :
    ∃ ps, Pages page next (token n) ps ∧ ps.flatMap items = l.drop n := by
  induction hk : l.length - n using Nat.strongRecOn generalizing n with
  | _ k ih =>
      obtain ⟨p, hp, hitems, hnext⟩ := h n hn
      split at hnext
      next hlt =>
        obtain ⟨ps, hps, hrest⟩ := ih (l.length - (n + limit)) (by omega) (Nat.le_of_lt hlt) rfl
        refine ⟨p :: ps, .more hp hnext hps, ?_⟩
        rw [List.flatMap_cons, hitems, hrest, ← List.drop_drop, List.take_append_drop]
      next hle =>
        refine ⟨[p], .last hp hnext, ?_⟩
        rw [List.flatMap_singleton, hitems]
        apply List.take_of_length_le
        rw [List.length_drop]
        omega

/-- A first page of the narrower list, and the rest of the whole one. -/
theorem take_append_drop_filter (q : α → Bool) (l : List α) (limit : ℕ) :
    ((l.filter q).take limit ++ if limit < (l.filter q).length then l.drop limit else []) =
        l.filter q ↔
      (∀ a ∈ l, q a = true) ∨ (l.filter q).length ≤ limit := by
  by_cases hlt : limit < (l.filter q).length
  · rw [if_pos hlt, or_iff_left (Nat.not_le.mpr hlt)]
    refine ⟨fun heq => ?_, fun hall => ?_⟩
    · have hlength := congrArg List.length heq
      rw [List.length_append, List.length_take, List.length_drop] at hlength
      exact List.filter_eq_self.mp (List.filter_sublist.eq_of_length (by omega))
    · rw [List.filter_eq_self.mpr hall, List.take_append_drop]
  · rw [if_neg hlt, List.append_nil, List.take_of_length_le (Nat.not_lt.mp hlt)]
    exact iff_of_true rfl (.inr (Nat.not_lt.mp hlt))

end Pages
