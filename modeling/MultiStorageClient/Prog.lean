/-
MultiStorageClient/Prog.lean

Programs over a shared world, and triples for them.

A program is a tree of operations: each operation is answered by a value or
by an exception, and the rest of the program depends on the answer.  Between
two operations other parties may change the world.  `exec` runs a program
alone against a schedule of such changes; a scheduler of many programs takes
one operation of one of them at a time (`wp_step`, `wp_rely`).

`Triple P x Q E` says that from `P` the program ends in `Q` if it returns and
in `E` if it raises, and that each of its operations meets `guar` in the world
in which it is performed, whatever the others do within the relation `rely`
and as long as the operations meet the condition `ok`.  Assertions have to be
stable under `rely`.
-/
import Mathlib

/-- A program with operations `O`, answers `R` and exceptions `ε`. -/
inductive Prog (O : Type) (R : O → Type) (ε α : Type) : Type
  | ret (a : α)
  | throw (e : ε)
  | op (o : O) (k : Except ε (R o) → Prog O R ε α)

namespace Prog

variable {O : Type} {R : O → Type} {ε α β : Type}

/-- A program and then another one. -/
def bind : Prog O R ε α → (α → Prog O R ε β) → Prog O R ε β
  | ret a, f => f a
  | throw e, _ => throw e
  | op o k, f => op o fun r => (k r).bind f

/-- `try … except` for every exception. -/
def tryCatch : Prog O R ε α → (ε → Prog O R ε α) → Prog O R ε α
  | ret a, _ => ret a
  | throw e, h => h e
  | op o k, h => op o fun r => (k r).tryCatch h

instance : Monad (Prog O R ε) where
  pure := ret
  bind := bind

instance : MonadExcept ε (Prog O R ε) where
  throw := throw
  tryCatch := tryCatch

/-- One operation. -/
def perform (o : O) : Prog O R ε (R o) :=
  op o fun r => match r with
    | .ok a => ret a
    | .error e => throw e

/-! ### A program alone -/

section Exec

variable {W : Type} (act : (o : O) → W → Except ε (R o) × W) (env : ℕ → W → W)

/-- Run a program.  Before its `n`-th operation the environment changes the
world by `env n`. -/
def exec : Prog O R ε α → ℕ → W → Except ε α × W
  | ret a, _, w => (.ok a, w)
  | throw e, _, w => (.error e, w)
  | op o k, n, w => exec (k (act o (env n w)).1) (n + 1) (act o (env n w)).2

/-- Every operation of such a run meets `G` in the world in which it is
performed. -/
def Always (G : O → W → Prop) : Prog O R ε α → ℕ → W → Prop
  | ret _, _, _ => True
  | throw _, _, _ => True
  | op o k, n, w => G o (env n w) ∧
      Always G (k (act o (env n w)).1) (n + 1) (act o (env n w)).2

instance Always.decidable (G : O → W → Prop) [∀ o w, Decidable (G o w)] :
    (x : Prog O R ε α) → (n : ℕ) → (w : W) → Decidable (Always act env G x n w)
  | ret _, _, _ => .isTrue trivial
  | throw _, _, _ => .isTrue trivial
  | op o k, n, w =>
      @instDecidableAnd _ _ _
        (Always.decidable G (k (act o (env n w)).1) (n + 1) (act o (env n w)).2)

variable {act env}

theorem Always.of_forall {G : O → W → Prop} (h : ∀ o w, G o w) (x : Prog O R ε α) (n : ℕ)
    (w : W) : Always act env G x n w := by
  induction x generalizing n w with
  | ret a => trivial
  | throw e => trivial
  | op o k ih => exact ⟨h o _, ih _ _ _⟩

end Exec

/-! ### Triples -/

/-- What the operations do, what others may do in between, under which
condition an operation is performed, and what is shown of it then. -/
structure Context (O : Type) (R : O → Type) (ε W : Type) where
  act : (o : O) → W → Except ε (R o) × W
  rely : W → W → Prop
  ok : O → W → Prop
  guar : O → W → Prop

variable {W : Type} (C : Context O R ε W)

/-- An answer and the world after it, judged by two assertions. -/
def EndsIn (Q : α → W → Prop) (E : W → Prop) : Except ε α × W → Prop
  | (.ok a, w) => Q a w
  | (.error _, w) => E w

/-- An assertion about the world alone. -/
theorem EndsIn.of_world {I : W → Prop} {r : Except ε α × W} (h : I r.2) :
    EndsIn (fun _ => I) I r := by
  rcases r with ⟨e | a, w⟩
  · exact h
  · exact h

/-- The weakest precondition. -/
def wp (Q : α → W → Prop) (E : W → Prop) : Prog O R ε α → W → Prop
  | ret a, w => Q a w
  | throw _, w => E w
  | op o k, w => ∀ w', C.rely w w' → C.ok o w' →
      C.guar o w' ∧ wp Q E (k (C.act o w').1) (C.act o w').2

/-- From `P` the program returns in `Q` or raises in `E`. -/
def Triple (P : W → Prop) (x : Prog O R ε α) (Q : α → W → Prop) (E : W → Prop) : Prop :=
  ∀ w, P w → wp C Q E x w

/-- An assertion that the others cannot falsify. -/
def Stable (P : W → Prop) : Prop := ∀ w w', P w → C.rely w w' → P w'

variable {C} {P P' : W → Prop} {Q Q' : α → W → Prop} {E E' : W → Prop} {x : Prog O R ε α}

theorem wp_mono {w : W} (hQ : ∀ a w, Q a w → Q' a w) (hE : ∀ w, E w → E' w)
    (h : wp C Q E x w) : wp C Q' E' x w := by
  induction x generalizing w with
  | ret a => exact hQ a w h
  | throw e => exact hE w h
  | op o k ih =>
      intro w' hrely hok
      obtain ⟨hguar, hk⟩ := h w' hrely hok
      exact ⟨hguar, ih _ hk⟩

/-- The rule of the sequence. -/
theorem wp_bind {w : W} {f : α → Prog O R ε β} {Q : β → W → Prop}
    (h : wp C (fun a => wp C Q E (f a)) E x w) : wp C Q E (x >>= f) w := by
  show wp C Q E (x.bind f) w
  induction x generalizing w with
  | ret a => exact h
  | throw e => exact h
  | op o k ih =>
      intro w' hrely hok
      obtain ⟨hguar, hk⟩ := h w' hrely hok
      exact ⟨hguar, ih _ hk⟩

theorem wp_tryCatch {w : W} {f : ε → Prog O R ε α}
    (h : wp C Q (fun w => ∀ e, wp C Q E (f e) w) x w) : wp C Q E (x.tryCatch f) w := by
  induction x generalizing w with
  | ret a => exact h
  | throw e => exact h e
  | op o k ih =>
      intro w' hrely hok
      obtain ⟨hguar, hk⟩ := h w' hrely hok
      exact ⟨hguar, ih _ hk⟩

namespace Triple

theorem conseq (h : Triple C P x Q E) (hP : ∀ w, P' w → P w)
    (hQ : ∀ a w, Q a w → Q' a w) (hE : ∀ w, E w → E' w) : Triple C P' x Q' E' :=
  fun w hw => wp_mono hQ hE (h w (hP w hw))

theorem pre (h : Triple C P x Q E) (hP : ∀ w, P' w → P w) : Triple C P' x Q E :=
  h.conseq hP (fun _ _ hQ => hQ) fun _ hE => hE

theorem post (h : Triple C P x Q E) (hQ : ∀ a w, Q a w → Q' a w) : Triple C P x Q' E :=
  h.conseq (fun _ hP => hP) hQ fun _ hE => hE

theorem ret {a : α} (h : ∀ w, P w → Q a w) : Triple C P (pure a) Q E := h

theorem throw {e : ε} (h : ∀ w, P w → E w) :
    Triple C P (MonadExcept.throw e : Prog O R ε α) Q E := h

theorem bind {M : α → W → Prop} {f : α → Prog O R ε β} {Q : β → W → Prop}
    (hx : Triple C P x M E) (hf : ∀ a, Triple C (M a) (f a) Q E) :
    Triple C P (x >>= f) Q E :=
  fun w hw => wp_bind (wp_mono hf (fun _ hE => hE) (hx w hw))

theorem tryCatch {f : ε → Prog O R ε α} (M : W → Prop) (hx : Triple C P x Q M)
    (hf : ∀ e, Triple C M (f e) Q E) : Triple C P (MonadExcept.tryCatch x f) Q E :=
  fun w hw => wp_tryCatch (wp_mono (fun _ _ hQ => hQ) (fun w' hE e => hf e w' hE) (hx w hw))

/-- A fact about values is taken out of the precondition. -/
theorem pull {φ : Prop} (h : φ → Triple C P x Q E) : Triple C (fun w => P w ∧ φ) x Q E :=
  fun w hw => h hw.2 w hw.1

/-- The rule for one operation. -/
theorem perform {o : O} {Q : R o → W → Prop} (hP : Stable C P)
    (h : ∀ w, P w → C.ok o w → C.guar o w ∧ EndsIn Q E (C.act o w)) :
    Triple C P (perform o) Q E := by
  intro w hw w' hrely hok
  obtain ⟨hguar, h'⟩ := h w' (hP w w' hw hrely) hok
  refine ⟨hguar, ?_⟩
  rcases hact : C.act o w' with ⟨e | a, w₁⟩
  · rw [hact] at h'
    exact h'
  · rw [hact] at h'
    exact h'

/-- The rule for a loop over a list, with an invariant that may depend on the
part already done. -/
theorem forM {ι : Type} {l : List ι} {I : List ι → W → Prop} {f : ι → Prog O R ε PUnit}
    (h : ∀ done i rest, l = done ++ i :: rest →
      Triple C (I done) (f i) (fun _ => I (done ++ [i])) E) :
    Triple C (I []) (l.forM f) (fun _ => I l) E := by
  suffices hsuff : ∀ rest done, l = done ++ rest →
      Triple C (I done) (rest.forM f) (fun _ => I l) E from hsuff l [] rfl
  intro rest
  induction rest with
  | nil =>
      intro done hl
      rw [List.append_nil] at hl
      subst hl
      exact Triple.ret fun _ hw => hw
  | cons i rest ih =>
      intro done hl
      show Triple C (I done) (f i >>= fun _ => rest.forM f) (fun _ => I l) E
      refine Triple.bind (h done i rest hl) fun _ => ih (done ++ [i]) ?_
      rw [hl, List.append_assoc]
      rfl

/-- The same for a loop with an accumulator. -/
theorem foldlM {ι : Type} {l : List ι} {I : List ι → β → W → Prop}
    {f : β → ι → Prog O R ε β} {b : β}
    (h : ∀ done i rest b, l = done ++ i :: rest →
      Triple C (I done b) (f b i) (I (done ++ [i])) E) :
    Triple C (I [] b) (l.foldlM f b) (I l) E := by
  suffices hsuff : ∀ rest done b, l = done ++ rest →
      Triple C (I done b) (rest.foldlM f b) (I l) E from hsuff l [] b rfl
  intro rest
  induction rest with
  | nil =>
      intro done b hl
      rw [List.append_nil] at hl
      subst hl
      exact Triple.ret fun _ hw => hw
  | cons i rest ih =>
      intro done b hl
      rw [List.foldlM_cons]
      refine Triple.bind (h done i rest b hl) fun b' => ih (done ++ [i]) b' ?_
      rw [hl, List.append_assoc]
      rfl

end Triple

/-! ### Programs within programs -/

section Lift

variable {O' : Type} {R' : O' → Type} {W' : Type}

/-- A program whose operations are some of those of a larger system. -/
def lift (ι : O → O') : Prog O (fun o => R' (ι o)) ε α → Prog O' R' ε α
  | ret a => ret a
  | throw e => throw e
  | op o k => op (ι o) fun r => (k r).lift ι

/-- **A triple carries over** to the larger system if the system acts on the
part `π` of its world as the program expects. -/
theorem Triple.lift (ι : O → O') {C : Context O (fun o => R' (ι o)) ε W}
    {C' : Context O' R' ε W'} {x : Prog O (fun o => R' (ι o)) ε α} (π : W' → W)
    (hrely : ∀ w w', C'.rely w w' → C.rely (π w) (π w'))
    (hok : ∀ o w, C'.ok (ι o) w → C.ok o (π w))
    (hguar : ∀ o w, C.guar o (π w) → C'.guar (ι o) w)
    (hact : ∀ o w, (C'.act (ι o) w).1 = (C.act o (π w)).1 ∧
      π (C'.act (ι o) w).2 = (C.act o (π w)).2)
    (h : Triple C P x Q E) :
    Triple C' (fun w => P (π w)) (x.lift ι) (fun a w => Q a (π w)) fun w => E (π w) := by
  suffices hsuff : ∀ w, wp C Q E x (π w) →
      wp C' (fun a w => Q a (π w)) (fun w => E (π w)) (x.lift ι) w from
    fun w hw => hsuff w (h (π w) hw)
  clear h
  induction x with
  | ret a => exact fun w hw => hw
  | throw e => exact fun w hw => hw
  | op o k ih =>
      intro w hw w' hr hk
      obtain ⟨hg, hrest⟩ := hw (π w') (hrely w w' hr) (hok o w' hk)
      obtain ⟨hans, hworld⟩ := hact o w'
      refine ⟨hguar o w' hg, ?_⟩
      rw [hans]
      apply ih
      rw [hworld]
      exact hrest

end Lift

/-! ### Soundness -/

/-- **A program alone** ends as its triple says. -/
theorem Triple.exec (h : Triple C P x Q E) (env : ℕ → W → W) (henv : ∀ n w, C.rely w (env n w))
    {w : W} (hw : P w) (n : ℕ) (hok : Always C.act env C.ok x n w) :
    EndsIn Q E (exec C.act env x n w) ∧ Always C.act env C.guar x n w := by
  have hwp : wp C Q E x w := h w hw
  clear h hw
  induction x generalizing w n with
  | ret a => exact ⟨hwp, trivial⟩
  | throw e => exact ⟨hwp, trivial⟩
  | op o k ih =>
      obtain ⟨hguar, hk⟩ := hwp _ (henv n w) hok.1
      obtain ⟨hout, halways⟩ := ih _ _ hok.2 hk
      exact ⟨hout, hguar, halways⟩

/-- One operation of a program among others. -/
theorem wp_step (hrefl : ∀ w, C.rely w w) {o : O} {k : Except ε (R o) → Prog O R ε α} {w : W}
    (h : wp C Q E (op o k) w) (hok : C.ok o w) :
    C.guar o w ∧ wp C Q E (k (C.act o w).1) (C.act o w).2 :=
  h w (hrefl w) hok

/-- A change of the world by the others. -/
theorem wp_rely (htrans : ∀ w₁ w₂ w₃, C.rely w₁ w₂ → C.rely w₂ w₃ → C.rely w₁ w₃)
    (hQ : ∀ a, Stable C (Q a)) (hE : Stable C E) {w w' : W} (h : wp C Q E x w)
    (hrely : C.rely w w') : wp C Q E x w' := by
  cases x with
  | ret a => exact hQ a w w' h hrely
  | throw e => exact hE w w' h hrely
  | op o k => exact fun w₂ hrely₂ hok => h w₂ (htrans _ _ _ hrely hrely₂) hok

end Prog
