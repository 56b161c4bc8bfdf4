/-
MultiStorageClient/Formula.lean

Formulas of atoms, two connectives and parentheses, as they are written.

A formula says nothing about how its chains of connectives nest.  `nested` nests
them to the right, whatever the connectives are, as a parser does that always
shifts; `precedence` lets `and` bind tighter than `or`.  The two have the same value
for all atoms if and only if no `and` stands before an `or` in a chain
(`Formula.eval_nested_iff`).
-/
import Mathlib

/-- `AND` and `OR`. -/
inductive Connective
  | and
  | or
  deriving DecidableEq

/-- A chain of atoms and of formulas in parentheses. -/
inductive Formula (α : Type*)
  | atom (c : α)
  | parens (e : Formula α)
  | atomThen (c : α) (k : Connective) (rest : Formula α)
  | parensThen (e : Formula α) (k : Connective) (rest : Formula α)
  deriving DecidableEq

/-- A formula with its chains nested. -/
inductive FormulaTree (α : Type*)
  | atom (c : α)
  | parens (t : FormulaTree α)
  | node (k : Connective) (l r : FormulaTree α)
  deriving DecidableEq

namespace FormulaTree

variable {α ε : Type*}

/-- The value: from the left, and no further than needed. -/
def eval (v : α → Except ε Bool) : FormulaTree α → Except ε Bool
  | atom c => v c
  | parens t => t.eval v
  | node .and l r => do if ← l.eval v then r.eval v else pure false
  | node .or l r => do if ← l.eval v then pure true else r.eval v

theorem eval_and (v : α → Except ε Bool) (l r : FormulaTree α) :
    (node .and l r).eval v = (do if ← l.eval v then r.eval v else pure false) := rfl

theorem eval_or (v : α → Except ε Bool) (l r : FormulaTree α) :
    (node .or l r).eval v = (do if ← l.eval v then pure true else r.eval v) := rfl

end FormulaTree

namespace Formula

variable {α β ε : Type*}

/-! ### Two ways to nest -/

/-- Each connective takes all that follows it. -/
def nested : Formula α → FormulaTree α
  | atom c => .atom c
  | parens e => .parens e.nested
  | atomThen c k rest => .node k (.atom c) rest.nested
  | parensThen e k rest => .node k (.parens e.nested) rest.nested

/-- The conjunction that a chain starts with, and what follows the `or` behind it. -/
structure Split (α : Type*) where
  first : FormulaTree α
  rest : Option (FormulaTree α)

/-- The disjunction of the two. -/
def Split.join (s : Split α) : FormulaTree α :=
  match s.rest with
  | none => s.first
  | some r => .node .or s.first r

/-- An operand and a connective before a chain. -/
def Split.cons (t : FormulaTree α) (k : Connective) (s : Split α) : Split α :=
  match k with
  | .and => ⟨.node .and t s.first, s.rest⟩
  | .or => ⟨t, some s.join⟩

/-- The first conjunction of a formula, and what comes behind the `or` after it. -/
def split : Formula α → Split α
  | atom c => ⟨.atom c, none⟩
  | parens e => ⟨.parens e.split.join, none⟩
  | atomThen c k rest => .cons (.atom c) k rest.split
  | parensThen e k rest => .cons (.parens e.split.join) k rest.split

/-- `and` binds tighter than `or`. -/
def precedence (e : Formula α) : FormulaTree α := e.split.join

/-! ### Shapes -/

/-- Other atoms in the same formula. -/
def map (f : α → β) : Formula α → Formula β
  | atom c => atom (f c)
  | parens e => parens (e.map f)
  | atomThen c k rest => atomThen (f c) k (rest.map f)
  | parensThen e k rest => parensThen (e.map f) k (rest.map f)

/-- A formula without its atoms. -/
def shape (e : Formula α) : Formula Unit := e.map fun _ => ()

/-- All atoms are the same. -/
def fill (c : α) (s : Formula Unit) : Formula α := s.map fun _ => c

/-- There is an `or` in the chain, outside of parentheses. -/
def hasOr : Formula α → Bool
  | atom _ | parens _ => false
  | atomThen _ k rest | parensThen _ k rest => k = .or || rest.hasOr

/-- No `and` stands before an `or` in a chain. -/
def NoAndBeforeOr : Formula α → Prop
  | atom _ => True
  | parens e => e.NoAndBeforeOr
  | atomThen _ k rest => (k = .and → rest.hasOr = false) ∧ rest.NoAndBeforeOr
  | parensThen e k rest =>
      e.NoAndBeforeOr ∧ (k = .and → rest.hasOr = false) ∧ rest.NoAndBeforeOr

theorem map_parens (f : α → β) (e : Formula α) : (parens e).map f = parens (e.map f) := rfl

theorem map_atomThen (f : α → β) (c : α) (k : Connective) (rest : Formula α) :
    (atomThen c k rest).map f = atomThen (f c) k (rest.map f) := rfl

theorem map_parensThen (f : α → β) (e : Formula α) (k : Connective) (rest : Formula α) :
    (parensThen e k rest).map f = parensThen (e.map f) k (rest.map f) := rfl

theorem hasOr_atomThen (c : α) (k : Connective) (rest : Formula α) :
    (atomThen c k rest).hasOr = (k = .or || rest.hasOr) := rfl

theorem hasOr_parensThen (e : Formula α) (k : Connective) (rest : Formula α) :
    (parensThen e k rest).hasOr = (k = .or || rest.hasOr) := rfl

theorem map_map {γ : Type*} (f : α → β) (g : β → γ) (e : Formula α) :
    (e.map f).map g = e.map (g ∘ f) := by
  induction e with
  | atom c => rfl
  | parens e ih => rw [map_parens, map_parens, map_parens, ih]
  | atomThen c k rest ih => rw [map_atomThen, map_atomThen, map_atomThen, ih]; rfl
  | parensThen e k rest ihe ih => rw [map_parensThen, map_parensThen, map_parensThen, ihe, ih]

theorem shape_fill (c : α) (s : Formula Unit) : (s.fill c).shape = s := by
  show (s.map fun _ => c).map (fun _ => ()) = s
  rw [map_map]
  induction s with
  | atom c => rfl
  | parens e ih => rw [map_parens, ih]
  | atomThen c k rest ih => rw [map_atomThen, ih]
  | parensThen e k rest ihe ih => rw [map_parensThen, ihe, ih]

theorem hasOr_map (f : α → β) (e : Formula α) : (e.map f).hasOr = e.hasOr := by
  induction e with
  | atom c => rfl
  | parens e ih => rfl
  | atomThen c k rest ih => rw [map_atomThen, hasOr_atomThen, hasOr_atomThen, ih]
  | parensThen e k rest ihe ih => rw [map_parensThen, hasOr_parensThen, hasOr_parensThen, ih]

/-- The shape of a formula does not depend on its atoms. -/
theorem noAndBeforeOr_map (f : α → β) (e : Formula α) :
    (e.map f).NoAndBeforeOr ↔ e.NoAndBeforeOr := by
  induction e with
  | atom c => exact Iff.rfl
  | parens e ih => exact ih
  | atomThen c k rest ih =>
      show ((k = .and → (rest.map f).hasOr = false) ∧ (rest.map f).NoAndBeforeOr) ↔ _
      rw [hasOr_map, ih]
      rfl
  | parensThen e k rest ihe ih =>
      show ((e.map f).NoAndBeforeOr ∧ (k = .and → (rest.map f).hasOr = false) ∧
        (rest.map f).NoAndBeforeOr) ↔ _
      rw [hasOr_map, ihe, ih]
      rfl

/-! ### Values -/

section Values

variable {v : α → Except ε Bool} {k : Connective} {l r l' r' x : FormulaTree α} {s : Split α}
  {b : Bool} {c t f : α}

theorem eval_node_congr (hl : l.eval v = l'.eval v) (hr : r.eval v = r'.eval v) :
    (FormulaTree.node k l r).eval v = (FormulaTree.node k l' r').eval v := by
  cases k with
  | and => rw [FormulaTree.eval_and, FormulaTree.eval_and, hl, hr]
  | or => rw [FormulaTree.eval_or, FormulaTree.eval_or, hl, hr]

/-- The value of the left operand that leaves the other one to decide. -/
def neutral : Connective → Bool
  | .and => true
  | .or => false

theorem eval_node_neutral (hl : l.eval v = .ok (neutral k)) :
    (FormulaTree.node k l r).eval v = r.eval v := by
  cases k with
  | and => rw [FormulaTree.eval_and, hl]; rfl
  | or => rw [FormulaTree.eval_or, hl]; rfl

theorem eval_and_false (hl : l.eval v = .ok false) :
    (FormulaTree.node .and l r).eval v = .ok false := by
  rw [FormulaTree.eval_and, hl]
  rfl

/-- A neutral right operand. -/
theorem eval_node_right (hl : l.eval v = .ok b) (hr : r.eval v = .ok (neutral k)) :
    (FormulaTree.node k l r).eval v = .ok b := by
  cases k with
  | and => rw [FormulaTree.eval_and, hl]; cases b <;> first | rfl | exact hr
  | or => rw [FormulaTree.eval_or, hl]; cases b <;> first | rfl | exact hr

/-- Without an `or`, a chain is one conjunction. -/
theorem rest_of_hasOr (e : Formula α) : e.split.rest.isSome = e.hasOr := by
  induction e with
  | atom c => rfl
  | parens e ih => rfl
  | atomThen c k rest ih =>
      cases k
      · rw [hasOr_atomThen, ← ih]
        rfl
      · rfl
  | parensThen e k rest ihe ih =>
      cases k
      · rw [hasOr_parensThen, ← ih]
        rfl
      · rfl

/-- Before one conjunction, the connective does not matter. -/
theorem join_cons_of_rest (h : s.rest.isSome = false) :
    (Split.cons x k s).join = .node k x s.join := by
  obtain ⟨first, rest⟩ := s
  obtain rfl : rest = none := by simpa using h
  cases k <;> rfl

theorem eval_join_cons_neutral (hx : x.eval v = .ok (neutral k)) :
    (Split.cons x k s).join.eval v = s.join.eval v := by
  cases k with
  | or => exact eval_node_neutral hx
  | and =>
      obtain ⟨first, rest⟩ := s
      cases rest with
      | none => exact eval_node_neutral hx
      | some r => exact eval_node_congr (eval_node_neutral hx) rfl

/-- **Where the two agree.** -/
theorem eval_nested (e : Formula α) (h : e.NoAndBeforeOr) :
    e.nested.eval v = e.precedence.eval v := by
  have hnode : ∀ {x x' : FormulaTree α} {k} {rest : Formula α}, (k = .and → rest.hasOr = false) →
      x.eval v = x'.eval v → rest.nested.eval v = rest.precedence.eval v →
      (FormulaTree.node k x rest.nested).eval v = (Split.cons x' k rest.split).join.eval v := by
    intro x x' k rest hk hx hrest
    cases k with
    | or => exact eval_node_congr hx hrest
    | and =>
        rw [join_cons_of_rest (by rw [rest_of_hasOr, hk rfl])]
        exact eval_node_congr hx hrest
  induction e with
  | atom c => rfl
  | parens e ih => exact ih h
  | atomThen c k rest ih => exact hnode h.1 rfl (ih h.2)
  | parensThen e k rest ihe ih => exact hnode h.2.1 (ihe h.1) (ih h.2.2)

theorem eval_node_same (hl : l.eval v = .ok b) (hr : r.eval v = .ok b) :
    (FormulaTree.node k l r).eval v = .ok b := by
  cases k with
  | and => rw [FormulaTree.eval_and, hl]; cases b <;> first | rfl | exact hr
  | or => rw [FormulaTree.eval_or, hl]; cases b <;> first | rfl | exact hr

/-- A formula with one value for all atoms. -/
theorem eval_nested_fill (hc : v c = .ok b) (s : Formula Unit) :
    (s.fill c).nested.eval v = .ok b := by
  induction s with
  | atom u => exact hc
  | parens e ih => exact ih
  | atomThen u k rest ih => exact eval_node_same hc ih
  | parensThen e k rest ihe ih => exact eval_node_same ihe ih

/-- With one value for all atoms each part of the split has that value. -/
theorem eval_split_fill (hc : v c = .ok b) (s : Formula Unit) :
    (s.fill c).split.first.eval v = .ok b ∧ ∀ r ∈ (s.fill c).split.rest, r.eval v = .ok b := by
  have hjoin : ∀ {s : Split α}, (s.first.eval v = .ok b ∧ ∀ r ∈ s.rest, r.eval v = .ok b) →
      s.join.eval v = .ok b := by
    rintro ⟨first, rest⟩ ⟨hfirst, hrest⟩
    cases rest with
    | none => exact hfirst
    | some r => exact eval_node_same hfirst (hrest r rfl)
  have hcons : ∀ {x k} {s : Split α}, x.eval v = .ok b →
      (s.first.eval v = .ok b ∧ ∀ r ∈ s.rest, r.eval v = .ok b) →
      (Split.cons x k s).first.eval v = .ok b ∧
        ∀ r ∈ (Split.cons x k s).rest, r.eval v = .ok b := by
    intro x k s hx hs
    cases k with
    | and => exact ⟨eval_node_same hx hs.1, hs.2⟩
    | or =>
        refine ⟨hx, fun r hr => ?_⟩
        obtain rfl : s.join = r := Option.some.inj hr
        exact hjoin hs
  induction s with
  | atom u => exact ⟨hc, nofun⟩
  | parens e ih => exact ⟨hjoin ih, nofun⟩
  | atomThen u k rest ih => exact hcons hc ih
  | parensThen e k rest ihe ih => exact hcons (hjoin ihe) ih

theorem eval_precedence_fill (hc : v c = .ok b) (s : Formula Unit) :
    (s.fill c).precedence.eval v = .ok b := by
  obtain ⟨hfirst, hrest⟩ := eval_split_fill hc s
  unfold precedence Split.join
  cases hr : (s.fill c).split.rest with
  | none => exact hfirst
  | some r => exact eval_node_same hfirst (hrest r hr)

/-- A false operand before a conjunction and something true behind it. -/
theorem eval_join_cons_false (hx : x.eval v = .ok false) (ht : v t = .ok true) {s : Formula Unit}
    (hs : s.hasOr = true) : (Split.cons x .and (s.fill t).split).join.eval v = .ok true := by
  have hrest := (eval_split_fill ht s).2
  have hsome : (s.fill t).split.rest.isSome = true := by
    rw [rest_of_hasOr, fill, hasOr_map, hs]
  obtain ⟨r, hr⟩ := Option.isSome_iff_exists.mp hsome
  have hand : (FormulaTree.node .and x (s.fill t).split.first).eval v = .ok (neutral .or) :=
    eval_and_false hx
  show (Split.join ⟨_, (s.fill t).split.rest⟩).eval v = _
  rw [hr]
  exact (eval_node_neutral hand).trans (hrest r hr)

/-- The two differ for some atoms. -/
def Differ (v : α → Except ε Bool) (s : Formula Unit) : Prop :=
  ∃ e : Formula α, e.shape = s ∧
    ∃ b, e.nested.eval v = .ok b ∧ e.precedence.eval v = .ok !b

theorem exists_neutral (ht : v t = .ok true) (hf : v f = .ok false) (k : Connective) :
    ∃ c, v c = .ok (neutral k) := by
  cases k with
  | and => exact ⟨t, ht⟩
  | or => exact ⟨f, hf⟩

/-- Where an AND comes before an OR, two values tell the readings apart. -/
theorem differ_of_not (ht : v t = .ok true) (hf : v f = .ok false) {s : Formula Unit}
    (h : ¬s.NoAndBeforeOr) : Differ v s := by
  induction s with
  | atom u => exact absurd trivial h
  | parens e ih =>
      obtain ⟨e', rfl, b, hn, hp⟩ := ih h
      exact ⟨.parens e', rfl, b, hn, hp⟩
  | atomThen u k rest ih =>
      by_cases hrest : rest.NoAndBeforeOr
      · obtain ⟨rfl, hor⟩ : k = .and ∧ rest.hasOr = true := by
          by_contra hnot
          exact h ⟨fun hk => by simpa [hk] using hnot, hrest⟩
        have hf' : (FormulaTree.atom f).eval v = .ok false := hf
        exact ⟨.atomThen f .and (rest.fill t), congrArg (Formula.atomThen () .and)
          (shape_fill t rest), false, eval_and_false hf', eval_join_cons_false hf' ht hor⟩
      · obtain ⟨e', rfl, b, hn, hp⟩ := ih hrest
        obtain ⟨c, hc⟩ := exists_neutral ht hf k
        have hc' : (FormulaTree.atom c).eval v = .ok (neutral k) := hc
        exact ⟨.atomThen c k e', rfl, b, (eval_node_neutral hc').trans hn,
          (eval_join_cons_neutral hc').trans hp⟩
  | parensThen e k rest ihe ih =>
      have hshape : ∀ c c' : α, (Formula.parensThen (e.fill c) k (rest.fill c')).shape =
          .parensThen e k rest := fun c c' =>
        congrArg₂ (Formula.parensThen · k ·) (shape_fill c e) (shape_fill c' rest)
      by_cases hbefore : k = .and ∧ rest.hasOr = true
      · obtain ⟨rfl, hor⟩ := hbefore
        have he : (FormulaTree.parens (e.fill f).precedence).eval v = .ok false :=
          eval_precedence_fill hf e
        exact ⟨.parensThen (e.fill f) .and (rest.fill t), hshape f t, false,
          eval_and_false (eval_nested_fill hf e), eval_join_cons_false he ht hor⟩
      · obtain ⟨c, hc⟩ := exists_neutral ht hf k
        by_cases hrest : rest.NoAndBeforeOr
        · -- the difference is inside the parentheses
          have he : ¬e.NoAndBeforeOr := fun he =>
            h ⟨he, fun hk => by simpa [hk] using hbefore, hrest⟩
          obtain ⟨e', rfl, b, hn, hp⟩ := ihe he
          refine ⟨.parensThen e' k (rest.fill c),
            congrArg (Formula.parensThen e'.shape k) (shape_fill c rest), b,
            eval_node_right hn (eval_nested_fill hc rest), ?_⟩
          cases k with
          | or => exact eval_node_right hp (eval_precedence_fill hc rest)
          | and =>
              have hor : (rest.fill c).split.rest.isSome = false := by
                rw [rest_of_hasOr, fill, hasOr_map]
                simpa using hbefore
              show (Split.cons _ _ _).join.eval v = _
              rw [join_cons_of_rest hor]
              exact eval_node_right hp (eval_precedence_fill hc rest)
        · obtain ⟨e', rfl, b, hn, hp⟩ := ih hrest
          have hn' : (FormulaTree.parens (e.fill c).nested).eval v = .ok (neutral k) :=
            eval_nested_fill hc e
          have hp' : (FormulaTree.parens (e.fill c).precedence).eval v = .ok (neutral k) :=
            eval_precedence_fill hc e
          exact ⟨.parensThen (e.fill c) k e',
            congrArg (Formula.parensThen · k e'.shape) (shape_fill c e), b,
            (eval_node_neutral hn').trans hn, (eval_join_cons_neutral hp').trans hp⟩

end Values

/-- **The two have the same value for all atoms** if and only if no `and` stands before an `or`. -/
theorem eval_nested_iff {v : α → Except ε Bool} {t f : α} (ht : v t = .ok true)
    (hf : v f = .ok false) (s : Formula Unit) :
    (∀ e : Formula α, e.shape = s → e.nested.eval v = e.precedence.eval v) ↔ s.NoAndBeforeOr := by
  constructor
  · intro h
    by_contra hnot
    obtain ⟨e, he, b, hn, hp⟩ := differ_of_not ht hf hnot
    have := hn.symm.trans ((h e he).trans hp)
    cases b <;> cases this
  · rintro h e rfl
    exact eval_nested e ((noAndBeforeOr_map _ e).mp h)

end Formula
