/-
MultiStorageClient/Slice.lean

Slices of a list, clipped at its end, and how they are put together from
blocks.
-/
import Mathlib

namespace Slice

variable {α : Type*} {l l' : List α} {p o n k a b : ℕ}

/-- `l[o : o + n]`, clipped at the end of the list. -/
def slice (o n : ℕ) (l : List α) : List α := (l.drop o).take n

theorem length_slice : (slice o n l).length = min n (l.length - o) := by
  rw [slice, List.length_take, List.length_drop]

theorem slice_nil_of_zero : slice o 0 l = [] := List.take_zero

theorem slice_append : slice o a l ++ slice (o + a) b l = slice o (a + b) l := by
  rw [slice, slice, slice, List.take_add, List.drop_drop]

/-- Asking for more than there is gives the same. -/
theorem slice_min : slice o (min n (l.length - o)) l = slice o n l := by
  rw [slice, slice, ← List.length_drop, ← List.take_take, List.take_length]

theorem slice_whole (h : l.length ≤ n) : slice 0 n l = l := by
  rw [slice, List.drop_zero, List.take_of_length_le h]

/-- A slice of a slice, clipped at the end of the block. -/
theorem slice_slice : slice o n (slice 0 k l) = slice o (min n (k - o)) l := by
  simp only [slice, List.drop_zero, List.drop_take, List.take_take]

/-- A slice within a block is a slice of the list that the block is from. -/
theorem slice_of_block (h : slice 0 k l = slice p k l') (hle : o + n ≤ k) :
    slice o n l = slice (p + o) n l' := by
  have hdrop := congrArg (fun x => (x.drop o).take n) h
  simp only [slice, List.drop_take, List.drop_zero, List.drop_drop, List.take_take] at hdrop
  rwa [Nat.min_eq_left (by omega)] at hdrop

/-- Where a block is complete, and how long the list is behind its start. -/
theorem length_of_block (h : slice 0 k l = slice p k l') :
    min k l.length = min k (l'.length - p) := by
  have hlen := congrArg List.length h
  rwa [length_slice, length_slice, Nat.sub_zero] at hlen

end Slice
