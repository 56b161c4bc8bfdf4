/-
MultiStorageClient/CheckedArith.lean

Arithmetic of the 64-bit `u64` and `usize` of the Rust client, in builds that
check for overflow and in those that wrap.
-/
import Mathlib

namespace MultiStorageClient

/-- How a call of the client fails. -/
inductive CallError (ε : Type)
  /-- of the store -/
  | storage (e : ε)
  /-- an arithmetic overflow, in a build that checks for it -/
  | overflow
  deriving DecidableEq

/-! ### Arithmetic of `u64` -/

namespace U64

variable {ε : Type} (checks : Bool) (a b : ℕ)

/-- A number that has to be below 2^64: a panic or the rest. -/
def wrap : Except (CallError ε) ℕ :=
  if a < 2 ^ 64 then .ok a else if checks then .error .overflow else .ok (a % 2 ^ 64)

/-- `a + b` -/
def add : Except (CallError ε) ℕ := wrap checks (a + b)

/-- `a * b` -/
def mul : Except (CallError ε) ℕ := wrap checks (a * b)

/-- `a - b` -/
def sub : Except (CallError ε) ℕ :=
  if b ≤ a then .ok (a - b) else if checks then .error .overflow else .ok (a + 2 ^ 64 - b)

variable {checks a b}

theorem add_eq (h : a + b < 2 ^ 64) : add checks a b = (.ok (a + b) : Except (CallError ε) ℕ) :=
  if_pos h

theorem mul_eq (h : a * b < 2 ^ 64) : mul checks a b = (.ok (a * b) : Except (CallError ε) ℕ) :=
  if_pos h

theorem sub_eq (h : b ≤ a) : sub checks a b = (.ok (a - b) : Except (CallError ε) ℕ) := if_pos h

theorem wrap_release (h : ¬a < 2 ^ 64) :
    wrap false a = (.ok (a % 2 ^ 64) : Except (CallError ε) ℕ) :=
  (if_neg h).trans (if_neg nofun)

theorem add_overflow (h : ¬a + b < 2 ^ 64) :
    add true a b = (.error .overflow : Except (CallError ε) ℕ) := if_neg h

theorem sub_overflow (h : ¬b ≤ a) :
    sub true a b = (.error .overflow : Except (CallError ε) ℕ) := if_neg h

end U64

end MultiStorageClient
