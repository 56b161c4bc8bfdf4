/-
MultiStorageClient/OuterJoin.lean

The full outer join of two keyed sequences by a merge with two cursors.

`outerJoin` advances the cursor with the smaller key and both cursors on
equal keys.  The right sequence is read in strictly increasing key order;
about the left one only distinctness of the keys is assumed, so that the
same lemma covers callers that keep the left sequence sorted and callers
that do not.  What goes wrong for an unsorted left sequence is captured by
`Overtaken`: an element that stands behind a larger one finds the right
cursor already past its key.

The characterisation `mem_outerJoin` says which rows come out; on a sorted
left sequence (`mem_outerJoin_sorted`) nothing is overtaken and the rows are
those of the relational full outer join.
-/
import Mathlib

namespace OuterJoin

/-- A row of the join. -/
inductive Row (α β : Type*)
  | left (a : α)
  | right (b : β)
  | both (a : α) (b : β)
  deriving DecidableEq

variable {α β κ : Type*} [LinearOrder κ] (f : α → κ) (g : β → κ)

/-- Merge two sequences by key. -/
def outerJoin : List α → List β → List (Row α β)
  | [], ts => ts.map .right
  | s :: ss, [] => .left s :: outerJoin ss []
  | s :: ss, t :: ts =>
      if f s < g t then .left s :: outerJoin ss (t :: ts)
      else if g t < f s then .right t :: outerJoin (s :: ss) ts
      else .both s t :: outerJoin ss ts
termination_by ss ts => ss.length + ts.length

/-- Some element with a larger key stands before `a` in the sequence. -/
def Overtaken (ss : List α) (a : α) : Prop := ∃ b, [b, a].Sublist ss ∧ f a < f b

variable {f g}

/-- An element is overtaken at the head or behind it. -/
theorem overtaken_cons {s a : α} {ss : List α} :
    Overtaken f (s :: ss) a ↔ a ∈ ss ∧ f a < f s ∨ Overtaken f ss a := by
  constructor
  · rintro ⟨b, hb, hlt⟩
    rcases List.sublist_cons_iff.mp hb with hb | ⟨r, hr, hb⟩
    · exact Or.inr ⟨b, hb, hlt⟩
    · obtain ⟨rfl, rfl⟩ : b = s ∧ [a] = r := by simpa using hr
      exact Or.inl ⟨List.singleton_sublist.mp hb, hlt⟩
  · rintro (⟨ha, hlt⟩ | ⟨b, hb, hlt⟩)
    · exact ⟨s, List.cons_sublist_cons.mpr (List.singleton_sublist.mpr ha), hlt⟩
    · exact ⟨b, hb.cons s, hlt⟩

/-- In a sorted sequence nothing is overtaken. -/
theorem not_overtaken_of_sorted {ss : List α} (h : ss.Pairwise (f · < f ·)) (a : α) :
    ¬ Overtaken f ss a := by
  rintro ⟨b, hb, hlt⟩
  have hab : f b < f a := by simpa using h.sublist hb
  exact lt_asymm hab hlt

omit [LinearOrder κ] in
/-- In a sequence with distinct keys an element is determined by its key. -/
theorem eq_of_key_eq {ss : List α} (h : ss.Pairwise (f · ≠ f ·)) {a b : α}
    (ha : a ∈ ss) (hb : b ∈ ss) (hab : f a = f b) : a = b := by
  by_contra hne
  have : Std.Symm fun x y : α => f x ≠ f y := ⟨fun _ _ h => h.symm⟩
  exact h.forall ha hb hne hab

/-- Which rows a join produces. -/
def RowSpec (f : α → κ) (g : β → κ) (ss : List α) (ts : List β) : Row α β → Prop
  | .left a => a ∈ ss ∧ ((∀ b ∈ ts, g b ≠ f a) ∨ Overtaken f ss a)
  | .right b => b ∈ ts ∧ ∀ a ∈ ss, f a = g b → Overtaken f ss a
  | .both a b => a ∈ ss ∧ b ∈ ts ∧ f a = g b ∧ ¬ Overtaken f ss a

/-! ### One step of the merge

Each lemma says how the rows of the remaining sequences relate to those of
the whole, for one of the three outcomes of the comparison. -/

/-- A source before all targets makes a row of its own. -/
theorem rowSpec_left {s : α} {ss : List α} {ts : List β} {r : Row α β}
    (hS : ∀ a ∈ ss, f a ≠ f s) (hT : ∀ b ∈ ts, f s < g b) :
    RowSpec f g (s :: ss) ts r ↔ r = .left s ∨ RowSpec f g ss ts r := by
  have hmiss : ∀ b ∈ ts, g b ≠ f s := fun b hb => (hT b hb).ne'
  -- an element overtaken by `s` has a key below every key on the right
  have hbelow : ∀ {a}, f a < f s → ∀ b ∈ ts, g b ≠ f a := fun h b hb =>
    (h.trans (hT b hb)).ne'
  cases r with
  | left a =>
      simp only [RowSpec, overtaken_cons, List.mem_cons, Row.left.injEq]
      constructor
      · rintro ⟨rfl | ha, h⟩
        · exact Or.inl rfl
        · refine Or.inr ⟨ha, ?_⟩
          rcases h with h | ⟨-, h⟩ | h
          · exact Or.inl h
          · exact Or.inl (hbelow h)
          · exact Or.inr h
      · rintro (rfl | ⟨ha, h⟩)
        · exact ⟨Or.inl rfl, Or.inl hmiss⟩
        · exact ⟨Or.inr ha, h.imp id Or.inr⟩
  | right b =>
      simp only [RowSpec, overtaken_cons, List.mem_cons, reduceCtorEq, false_or]
      constructor
      · rintro ⟨hb, h⟩
        refine ⟨hb, fun a ha hab => ?_⟩
        rcases h a (Or.inr ha) hab with ⟨-, hlt⟩ | hov
        · exact absurd hab.symm (hbelow hlt b hb)
        · exact hov
      · rintro ⟨hb, h⟩
        refine ⟨hb, ?_⟩
        rintro a (rfl | ha) hab
        · exact absurd hab.symm (hmiss b hb)
        · exact Or.inr (h a ha hab)
  | both a b =>
      simp only [RowSpec, overtaken_cons, List.mem_cons, reduceCtorEq, false_or]
      constructor
      · rintro ⟨rfl | ha, hb, hab, hov⟩
        · exact absurd hab.symm (hmiss b hb)
        · exact ⟨ha, hb, hab, fun h => hov (Or.inr h)⟩
      · rintro ⟨ha, hb, hab, hov⟩
        refine ⟨Or.inr ha, hb, hab, ?_⟩
        rintro (⟨-, hlt⟩ | h)
        · exact hbelow hlt b hb hab.symm
        · exact hov h

/-- A target before the next source makes a row of its own. -/
theorem rowSpec_right {s : α} {ss : List α} {t : β} {ts : List β} {r : Row α β}
    (hlt : g t < f s) (hT : ∀ b ∈ ts, g t < g b) :
    RowSpec f g (s :: ss) (t :: ts) r ↔
      r = .right t ∨ RowSpec f g (s :: ss) ts r := by
  -- an element with the key of `t` stands behind `s`
  have hov : ∀ a ∈ s :: ss, f a = g t → Overtaken f (s :: ss) a := by
    intro a ha hat
    have has : f a < f s := hat ▸ hlt
    rcases List.mem_cons.mp ha with rfl | ha
    · exact absurd has (lt_irrefl _)
    · exact overtaken_cons.mpr (Or.inl ⟨ha, has⟩)
  cases r with
  | left a =>
      simp only [RowSpec, List.mem_cons, forall_eq_or_imp, reduceCtorEq, false_or]
      constructor
      · rintro ⟨ha, ⟨-, h⟩ | h⟩
        · exact ⟨ha, Or.inl h⟩
        · exact ⟨ha, Or.inr h⟩
      · rintro ⟨ha, h | h⟩
        · by_cases hat : f a = g t
          · exact ⟨ha, Or.inr (hov a (List.mem_cons.mpr ha) hat)⟩
          · exact ⟨ha, Or.inl ⟨fun h' => hat h'.symm, h⟩⟩
        · exact ⟨ha, Or.inr h⟩
  | right b =>
      simp only [RowSpec, List.mem_cons, Row.right.injEq]
      constructor
      · rintro ⟨rfl | hb, h⟩
        · exact Or.inl rfl
        · exact Or.inr ⟨hb, h⟩
      · rintro (rfl | ⟨hb, h⟩)
        · exact ⟨Or.inl rfl, fun a ha => hov a (List.mem_cons.mpr ha)⟩
        · exact ⟨Or.inr hb, h⟩
  | both a b =>
      simp only [RowSpec, List.mem_cons, reduceCtorEq, false_or]
      constructor
      · rintro ⟨ha, rfl | hb, hab, hnov⟩
        · exact absurd (hov a (List.mem_cons.mpr ha) hab) hnov
        · exact ⟨ha, hb, hab, hnov⟩
      · rintro ⟨ha, hb, hab, hnov⟩
        exact ⟨ha, Or.inr hb, hab, hnov⟩

/-- Equal keys make one row. -/
theorem rowSpec_both {s : α} {ss : List α} {t : β} {ts : List β} {r : Row α β}
    (hst : f s = g t) (hS : ∀ a ∈ ss, f a ≠ f s) (hT : ∀ b ∈ ts, g t < g b) :
    RowSpec f g (s :: ss) (t :: ts) r ↔ r = .both s t ∨ RowSpec f g ss ts r := by
  have habove : ∀ b ∈ ts, f s < g b := fun b hb => hst ▸ hT b hb
  -- the head is behind nothing
  have hnov : ¬ Overtaken f (s :: ss) s := by
    rintro h
    rcases overtaken_cons.mp h with ⟨-, h⟩ | ⟨b, hb, -⟩
    · exact lt_irrefl _ h
    · exact hS s (hb.subset (by simp)) rfl
  have hss : ∀ a ∈ ss, f a ≠ g t := fun a ha => hst ▸ hS a ha
  have hbelow : ∀ {a}, f a < f s → ∀ b ∈ ts, g b ≠ f a := fun h b hb =>
    (h.trans (habove b hb)).ne'
  cases r with
  | left a =>
      simp only [RowSpec, List.mem_cons, forall_eq_or_imp, reduceCtorEq, false_or]
      constructor
      · rintro ⟨rfl | ha, h⟩
        · rcases h with ⟨h, -⟩ | h
          · exact absurd hst.symm h
          · exact absurd h hnov
        · rcases h with ⟨-, h⟩ | h
          · exact ⟨ha, Or.inl h⟩
          · rcases overtaken_cons.mp h with ⟨-, h⟩ | h
            · exact ⟨ha, Or.inl (hbelow h)⟩
            · exact ⟨ha, Or.inr h⟩
      · rintro ⟨ha, h | h⟩
        · exact ⟨Or.inr ha, Or.inl ⟨fun h' => hss a ha h'.symm, h⟩⟩
        · exact ⟨Or.inr ha, Or.inr (overtaken_cons.mpr (Or.inr h))⟩
  | right b =>
      simp only [RowSpec, List.mem_cons, forall_eq_or_imp, reduceCtorEq, false_or]
      constructor
      · rintro ⟨rfl | hb, h, h'⟩
        · exact absurd (h hst) hnov
        · refine ⟨hb, fun a ha hab => ?_⟩
          rcases overtaken_cons.mp (h' a ha hab) with ⟨-, hlt⟩ | hov
          · exact absurd hab.symm (hbelow hlt b hb)
          · exact hov
      · rintro ⟨hb, h⟩
        refine ⟨Or.inr hb, fun hsb => absurd hsb (habove b hb).ne, fun a ha hab => ?_⟩
        exact overtaken_cons.mpr (Or.inr (h a ha hab))
  | both a b =>
      simp only [RowSpec, List.mem_cons, Row.both.injEq]
      constructor
      · rintro ⟨rfl | ha, rfl | hb, hab, hn⟩
        · exact Or.inl ⟨rfl, rfl⟩
        · exact absurd hab (habove b hb).ne
        · exact absurd hab (hss a ha)
        · exact Or.inr ⟨ha, hb, hab, fun h => hn (overtaken_cons.mpr (Or.inr h))⟩
      · rintro (⟨rfl, rfl⟩ | ⟨ha, hb, hab, hn⟩)
        · exact ⟨Or.inl rfl, Or.inl rfl, hst, hnov⟩
        · refine ⟨Or.inr ha, Or.inr hb, hab, fun h => ?_⟩
          rcases overtaken_cons.mp h with ⟨-, hlt⟩ | h
          · exact hbelow hlt b hb hab.symm
          · exact hn h

/-! ### The whole join -/

/-- **The rows of a join**, for distinct keys on the left and strictly
increasing keys on the right. -/
theorem mem_outerJoin {ss : List α} {ts : List β} {r : Row α β}
    (hS : ss.Pairwise (f · ≠ f ·)) (hT : ts.Pairwise (g · < g ·)) :
    r ∈ outerJoin f g ss ts ↔ RowSpec f g ss ts r := by
  induction ss, ts using outerJoin.induct f g with
  | case1 ts =>
      cases r <;> simp [outerJoin, RowSpec]
  | case2 s ss ih =>
      obtain ⟨hs, hss⟩ := List.pairwise_cons.mp hS
      rw [outerJoin, List.mem_cons, ih hss hT, ← rowSpec_left]
      · exact fun a ha => (hs a ha).symm
      · simp
  | case3 s ss t ts hlt ih =>
      obtain ⟨hs, hss⟩ := List.pairwise_cons.mp hS
      rw [outerJoin, if_pos hlt, List.mem_cons, ih hss hT, ← rowSpec_left]
      · exact fun a ha => (hs a ha).symm
      · intro b hb
        rcases List.mem_cons.mp hb with rfl | hb
        · exact hlt
        · exact hlt.trans ((List.pairwise_cons.mp hT).1 b hb)
  | case4 s ss t ts hnlt hgt ih =>
      obtain ⟨ht, hts⟩ := List.pairwise_cons.mp hT
      rw [outerJoin, if_neg hnlt, if_pos hgt, List.mem_cons, ih hS hts,
        ← rowSpec_right hgt ht]
  | case5 s ss t ts hnlt hngt ih =>
      obtain ⟨hs, hss⟩ := List.pairwise_cons.mp hS
      obtain ⟨ht, hts⟩ := List.pairwise_cons.mp hT
      have hst : f s = g t := le_antisymm (not_lt.mp hngt) (not_lt.mp hnlt)
      rw [outerJoin, if_neg hnlt, if_neg hngt, List.mem_cons, ih hss hts,
        ← rowSpec_both hst (fun a ha => (hs a ha).symm) ht]

/-- The row a join makes of a left element, of a right element: every row
carries at least one of the two, and no element is in two rows. -/
theorem nodup_outerJoin {ss : List α} {ts : List β}
    (hS : ss.Pairwise (f · ≠ f ·)) (hT : ts.Pairwise (g · < g ·)) :
    (outerJoin f g ss ts).Nodup := by
  have hTne : ∀ {t : β} {ts : List β}, (∀ b ∈ ts, g t < g b) → t ∉ ts :=
    fun h ht => lt_irrefl _ (h _ ht)
  induction ss, ts using outerJoin.induct f g with
  | case1 ts =>
      rw [outerJoin]
      have hnd : ts.Nodup := hT.imp (fun {a b} h => by rintro rfl; exact lt_irrefl _ h)
      exact hnd.map (fun a b h => by injection h)
  | case2 s ss ih =>
      obtain ⟨hs, hss⟩ := List.pairwise_cons.mp hS
      rw [outerJoin, List.nodup_cons, mem_outerJoin hss hT]
      exact ⟨fun h => hs s h.1 rfl, ih hss hT⟩
  | case3 s ss t ts hlt ih =>
      obtain ⟨hs, hss⟩ := List.pairwise_cons.mp hS
      rw [outerJoin, if_pos hlt, List.nodup_cons, mem_outerJoin hss hT]
      exact ⟨fun h => hs s h.1 rfl, ih hss hT⟩
  | case4 s ss t ts hnlt hgt ih =>
      obtain ⟨ht, hts⟩ := List.pairwise_cons.mp hT
      rw [outerJoin, if_neg hnlt, if_pos hgt, List.nodup_cons, mem_outerJoin hS hts]
      exact ⟨fun h => hTne ht h.1, ih hS hts⟩
  | case5 s ss t ts hnlt hngt ih =>
      obtain ⟨hs, hss⟩ := List.pairwise_cons.mp hS
      obtain ⟨ht, hts⟩ := List.pairwise_cons.mp hT
      rw [outerJoin, if_neg hnlt, if_neg hngt, List.nodup_cons, mem_outerJoin hss hts]
      exact ⟨fun h => hs s h.1 rfl, ih hss hts⟩

/-- Which rows the join of two sorted sequences has. -/
def SortedRowSpec (f : α → κ) (g : β → κ) (ss : List α) (ts : List β) : Row α β → Prop
  | .left a => a ∈ ss ∧ ∀ b ∈ ts, g b ≠ f a
  | .right b => b ∈ ts ∧ ∀ a ∈ ss, f a ≠ g b
  | .both a b => a ∈ ss ∧ b ∈ ts ∧ f a = g b

theorem mem_outerJoin_sorted {ss : List α} {ts : List β} {r : Row α β}
    (hS : ss.Pairwise (f · < f ·)) (hT : ts.Pairwise (g · < g ·)) :
    r ∈ outerJoin f g ss ts ↔ SortedRowSpec f g ss ts r := by
  rw [mem_outerJoin (hS.imp (fun h => h.ne)) hT]
  have hno := not_overtaken_of_sorted hS
  cases r <;> simp [RowSpec, SortedRowSpec, hno]

end OuterJoin
