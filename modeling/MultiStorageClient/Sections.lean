/-
MultiStorageClient/Sections.lean

Sections under a lock, and those who do not take it.

A section is a program (`Prog`) whose holder has the world for itself, apart
from some parties that change it without the lock.  `run` runs a section alone,
and `EndsIn` is the rule for programs one after the other.
-/
import MultiStorageClient.Prog

namespace Prog

variable {O : Type} {R : O → Type} {ε α β W : Type}

section Alone

variable (act : (o : O) → W → R o × W)

/-- A program alone. -/
def run : Prog O R ε α → W → Except ε α × W
  | ret a, w => (.ok a, w)
  | throw e, w => (.error e, w)
  | op o k, w => run (k (.ok (act o w).1)) (act o w).2

/-- What comes after a program that may have raised. -/
def andThen (f : α → W → Except ε β × W) : Except ε α × W → Except ε β × W
  | (.ok a, w) => f a w
  | (.error e, w) => (.error e, w)

@[simp] theorem andThen_ok (f : α → W → Except ε β × W) (a : α) (w : W) :
    andThen f (.ok a, w) = f a w := rfl

@[simp] theorem andThen_error (f : α → W → Except ε β × W) (e : ε) (w : W) :
    andThen f (.error e, w) = (.error e, w) := rfl

@[simp] theorem run_pure (a : α) (w : W) :
    run act (pure a : Prog O R ε α) w = (.ok a, w) := rfl

@[simp] theorem run_throw (e : ε) (w : W) :
    run act (MonadExcept.throw e : Prog O R ε α) w = (.error e, w) := rfl

@[simp] theorem run_perform (o : O) (w : W) :
    run act (perform o : Prog O R ε (R o)) w = (.ok (act o w).1, (act o w).2) := rfl

@[simp] theorem run_bind (x : Prog O R ε α) (f : α → Prog O R ε β) (w : W) :
    run act (x >>= f) w = andThen (fun a => run act (f a)) (run act x w) := by
  show run act (x.bind f) w = _
  induction x generalizing w with
  | ret a => rfl
  | throw e => rfl
  | op o k ih => exact ih _ _

end Alone

theorem EndsIn.mono {Q Q' : α → W → Prop} {E E' : W → Prop} {r : Except ε α × W}
    (h : EndsIn Q E r) (hQ : ∀ a w, Q a w → Q' a w) (hE : ∀ w, E w → E' w) : EndsIn Q' E' r := by
  rcases r with ⟨e | a, w⟩
  · exact hE w h
  · exact hQ a w h

/-- The rule for two programs in a row. -/
theorem EndsIn.andThen {M : α → W → Prop} {Q : β → W → Prop} {E : W → Prop}
    {f : α → W → Except ε β × W} {r : Except ε α × W} (h : EndsIn M E r)
    (hf : ∀ a w, M a w → EndsIn Q E (f a w)) : EndsIn Q E (andThen f r) := by
  rcases r with ⟨e | a, w⟩
  · exact h
  · exact hf a w h

end Prog
