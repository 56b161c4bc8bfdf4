/-
MultiStorageClient/PartialMaps.lean

Partial maps that are merged where they agree.

Two maps agree if their values at every common point are related by `R`, which is
symmetric and transitive but need not be reflexive.  A step merges a map into a
state if it succeeds exactly when the two agree, and leaves the union behind
(`Merges`).  A list of such steps then succeeds exactly when all the maps agree with
one another, and leaves the first value at every point (`foldlM_merges`): neither
depends on the order but for values that are related.
-/
import Mathlib

namespace PartialMaps

variable {ι V : Type*} {R : V → V → Prop} {f g h : ι → Option V} {l l' : List (ι → Option V)}

/-- The values at every common point are related. -/
def Agree (R : V → V → Prop) (f g : ι → Option V) : Prop :=
  ∀ i v w, f i = some v → g i = some w → R v w

/-- The value of `f`, or else that of `g`. -/
def union (f g : ι → Option V) : ι → Option V := fun i => (f i).or (g i)

/-- The first value at a point. -/
def first (l : List (ι → Option V)) : ι → Option V := fun i => l.findSome? fun f => f i

theorem Agree.symm [Std.Symm R] (hfg : Agree R f g) : Agree R g f :=
  fun i v w hv hw => symm_of R (hfg i w v hw hv)

instance [Std.Symm R] : Std.Symm (Agree R : (ι → Option V) → (ι → Option V) → Prop) :=
  ⟨fun _ _ => Agree.symm⟩

/-- What agrees with two agreeing maps agrees with each of them. -/
theorem agree_union_iff [Std.Symm R] [IsTrans V R] (hfg : Agree R f g) :
    Agree R (union f g) h ↔ Agree R f h ∧ Agree R g h := by
  constructor
  · intro hunion
    have hf : Agree R f h := fun i v w hv hw => hunion i v w (by rw [union, hv]; rfl) hw
    refine ⟨hf, fun i v w hv hw => ?_⟩
    cases hfi : f i with
    | none => exact hunion i v w (by rw [union, hfi, hv]; rfl) hw
    | some u =>
        -- the union has the value of `f`, to which that of `g` is related
        exact trans_of R (symm_of R (hfg i u v hfi hv)) (hf i u w hfi hw)
  · rintro ⟨hf, hg⟩ i v w hv hw
    rw [union, Option.or_eq_some_iff] at hv
    rcases hv with hv | ⟨-, hv⟩
    · exact hf i v w hv hw
    · exact hg i v w hv hw

theorem first_union_cons : first (union f g :: l) = first (f :: g :: l) := by
  funext i
  simp only [first, union, List.findSome?_cons]
  cases f i <;> rfl

theorem pairwise_union_cons_iff [Std.Symm R] [IsTrans V R] (hfg : Agree R f g) :
    (union f g :: l).Pairwise (Agree R) ↔ (f :: g :: l).Pairwise (Agree R) := by
  simp only [List.pairwise_cons, List.forall_mem_cons, agree_union_iff hfg, forall_and,
    and_assoc, hfg, true_and]

/-- Maps that agree with themselves may stand in a list twice. -/
theorem pairwise_cons_of_mem [Std.Symm R] (hl : l.Pairwise (Agree R)) (hf : f ∈ l)
    (hself : Agree R f f) : (f :: l).Pairwise (Agree R) := by
  refine List.pairwise_cons.mpr ⟨fun g hg => ?_, hl⟩
  by_cases hfg : f = g
  · subst hfg
    exact hself
  · exact hl.forall hf hg hfg

/-- The first values in two lists of the same maps are equal or related. -/
theorem first_rel [Std.Symm R] (hl : l.Pairwise (Agree R)) (hmem : ∀ f, f ∈ l ↔ f ∈ l') (i : ι) :
    Option.Rel (fun v w => v = w ∨ R v w) (first l i) (first l' i) := by
  have hnone : ∀ {l : List (ι → Option V)}, first l i = none ↔ ∀ f ∈ l, f i = none :=
    List.findSome?_eq_none_iff
  cases hv : first l i with
  | none =>
      have hw : first l' i = none := hnone.mpr fun f hf => hnone.mp hv f ((hmem f).mpr hf)
      rw [hw]
      exact .none
  | some v =>
      obtain ⟨f, hf, hfv⟩ := List.exists_of_findSome?_eq_some hv
      cases hw : first l' i with
      | none => rw [hnone.mp hw f ((hmem f).mp hf)] at hfv; cases hfv
      | some w =>
          obtain ⟨g, hg, hgw⟩ := List.exists_of_findSome?_eq_some hw
          refine .some ?_
          by_cases hfg : f = g
          · subst hfg
            exact .inl (Option.some.inj (hfv.symm.trans hgw))
          · exact .inr (hl.forall hf ((hmem g).mpr hg) hfg i v w hfv hgw)

/-! ### What is observed in any order -/

section Observed

variable {O : Type*} {op : O → O → O} [Std.Commutative op] [Std.Associative op] {b t : O}
  {ts : List O}

theorem foldl_cons_op : (t :: ts).foldl op b = op t (ts.foldl op b) := by
  have hcomm : op b t = op t b := Std.Commutative.comm b t
  rw [List.foldl_cons, hcomm, List.foldl_assoc]

/-- What is observed first may be any of the list. -/
theorem exists_foldl_eq (ht : t ∈ ts) : ∃ r, ts.foldl op b = op t r := by
  obtain ⟨l, l', rfl⟩ := List.append_of_mem ht
  exact ⟨_, (List.perm_middle.foldl_op_eq).trans foldl_cons_op⟩

end Observed

/-! ### Steps that merge -/

section Steps

variable {C O ε κ : Type*}

/-- `step` merges `part` into a state: it succeeds exactly when the two agree.  What is observed of
the state beside its map changes by `op`. -/
structure Merges (R : V → V → Prop) (inv : C → Prop) (raised : ε → Prop) (view : C → ι → Option V)
    (obs : C → O) (op : O → O → O) (step : C → Except ε C) (part : ι → Option V) (partObs : O) :
      Prop where
  ok : ∀ m m', inv m → step m = .ok m' →
    Agree R (view m) part ∧ view m' = union (view m) part ∧ obs m' = op (obs m) partObs ∧ inv m'
  error : ∀ m e, inv m → step m = .error e → ¬Agree R (view m) part ∧ raised e

/-- What a list of steps returns. -/
def Result (R : V → V → Prop) (inv : C → Prop) (raised : ε → Prop) (view : C → ι → Option V)
    (obs : C → O) (op : O → O → O) (parts : List (ι → Option V)) (partObs : List O) (m : C) :
    Except ε C → Prop
  | .ok m' => (view m :: parts).Pairwise (Agree R) ∧ view m' = first (view m :: parts) ∧
      obs m' = partObs.foldl op (obs m) ∧ inv m'
  | .error e => ¬(view m :: parts).Pairwise (Agree R) ∧ raised e

variable {inv : C → Prop} {raised : ε → Prop} {view : C → ι → Option V} {obs : C → O}
  {op : O → O → O}
  {step : κ → C → Except ε C} {part : κ → ι → Option V} {partObs : κ → O}

/-- **A list of steps**: all the maps agree, and the first value stays. -/
theorem foldlM_merges [Std.Symm R] [IsTrans V R] {ks : List κ}
    (h : ∀ k ∈ ks, Merges R inv raised view obs op (step k) (part k) (partObs k)) {m : C}
    (hm : inv m) :
    Result R inv raised view obs op (ks.map part) (ks.map partObs) m
      (ks.foldlM (fun m k => step k m) m) := by
  induction ks generalizing m with
  | nil =>
      refine ⟨List.pairwise_singleton _ _, ?_, rfl, hm⟩
      funext i
      cases hi : view m i <;> simp [first, hi]
  | cons k ks ih =>
      obtain ⟨hok, herror⟩ := h k List.mem_cons_self
      rw [List.foldlM_cons]
      cases hstep : step k m with
      | error e =>
          obtain ⟨hnot, he⟩ := herror m e hm hstep
          refine ⟨fun hall => hnot ?_, he⟩
          exact (List.pairwise_cons.mp hall).1 _ List.mem_cons_self
      | ok m' =>
          obtain ⟨hagree, hview, hobs, hm'⟩ := hok m m' hm hstep
          have hrest := ih (fun k' hk' => h k' (List.mem_cons_of_mem k hk')) hm'
          have hbind : (Except.ok m' >>= fun m => ks.foldlM (fun m k => step k m) m) =
              ks.foldlM (fun m k => step k m) m' := rfl
          rw [hbind]
          -- the state after the step stands for the state and the map that was merged
          cases hfold : ks.foldlM (fun m k => step k m) m' with
          | error e =>
              rw [hfold, Result, hview, pairwise_union_cons_iff hagree] at hrest
              exact hrest
          | ok m'' =>
              rw [hfold, Result, hview, hobs, pairwise_union_cons_iff hagree,
                first_union_cons] at hrest
              exact hrest

end Steps

end PartialMaps
