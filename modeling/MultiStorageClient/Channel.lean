/-
MultiStorageClient/Channel.lean

A channel with a buffer that is taken as a whole.

What is received waits; a taker takes all that waits at once, and what has been
taken is delivered before more is taken.  Nothing is delivered twice, nothing is
left out, and the order stays (`Channel.exec_conserved`).  A system that does each
of its steps as such steps, or as none, has this of its own runs
(`Channel.Follows.conserved`).
-/
import MultiStorageClient.Run

/-- What was received, by where it is now. -/
structure Channel (ρ : Type*) where
  delivered : List ρ := []
  taken : List ρ := []
  waiting : List ρ := []
  received : List ρ := []

namespace Channel

open Run

variable {ρ : Type*} {c c' : Channel ρ}

/-- What can happen to the channel. -/
inductive Step (ρ : Type*)
  | receive (xs : List ρ)
  | take
  | deliver

/-- `take` needs that nothing is between the buffers. -/
def step (c : Channel ρ) : Step ρ → Option (Channel ρ)
  | .receive xs => some { c with waiting := c.waiting ++ xs, received := c.received ++ xs }
  | .take => if c.taken.isEmpty then some { c with taken := c.waiting, waiting := [] } else none
  | .deliver => some { c with delivered := c.delivered ++ c.taken, taken := [] }

/-- What was received is what was delivered, then what is on its way, in order. -/
def Conserved (c : Channel ρ) : Prop := c.delivered ++ c.taken ++ c.waiting = c.received

/-- A step of the channel loses and invents nothing. -/
theorem Conserved.step {a : Step ρ} (h : c.Conserved) (hstep : c.step a = some c') :
    c'.Conserved := by
  unfold Conserved at h ⊢
  cases a with
  | receive xs =>
      obtain rfl := Option.some.inj hstep
      show c.delivered ++ c.taken ++ (c.waiting ++ xs) = c.received ++ xs
      rw [← List.append_assoc, h]
  | take =>
      obtain ⟨hempty, heq⟩ := Option.ite_none_right_eq_some.mp hstep
      obtain rfl := Option.some.inj heq
      show c.delivered ++ c.waiting ++ [] = c.received
      rw [← h, List.isEmpty_iff.mp hempty, List.append_nil, List.append_nil]
  | deliver =>
      obtain rfl := Option.some.inj hstep
      show c.delivered ++ c.taken ++ [] ++ c.waiting = c.received
      rw [List.append_nil, h]

theorem exec_conserved {as : List (Step ρ)} (h : c.Conserved)
    (hrun : exec Channel.step c as = some c') : c'.Conserved := by
  have hok : Always Channel.step (fun _ _ => True) c as :=
    Always.of_mem (fun _ _ _ => trivial) c
  exact exec_invariant (fun _ _ _ hc _ hstep => hc.step hstep) hok hrun h

/-! ### Systems that are channels -/

variable {σ : Type*} {abs : σ → Channel ρ} {s s' s'' : σ}

/-- A step that a channel does as some of its own, or as none. -/
def Follows (abs : σ → Channel ρ) (s s' : σ) : Prop :=
  ∃ as, exec Channel.step (abs s) as = some (abs s')

theorem Follows.refl (s : σ) : Follows abs s s := ⟨[], rfl⟩

theorem Follows.of_eq (h : abs s' = abs s) : Follows abs s s' := ⟨[], congrArg some h.symm⟩

theorem Follows.of_step {a : Step ρ} (h : (abs s).step a = some (abs s')) : Follows abs s s' :=
  ⟨[a], exec_cons.mpr ⟨abs s', h, rfl⟩⟩

theorem Follows.trans (h : Follows abs s s') (h' : Follows abs s' s'') : Follows abs s s'' := by
  obtain ⟨as, has⟩ := h
  obtain ⟨bs, hbs⟩ := h'
  exact ⟨as ++ bs, exec_append.mpr ⟨abs s', has, hbs⟩⟩

theorem Follows.conserved (h : Follows abs s s') (hs : (abs s).Conserved) :
    (abs s').Conserved := by
  obtain ⟨as, has⟩ := h
  exact exec_conserved hs has

end Channel
