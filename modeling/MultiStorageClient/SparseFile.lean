/-
MultiStorageClient/SparseFile.lean

Sparse files: the bytes of a file by their offsets, with positional reads and
writes and with holes punched into them.

`Holds f off bs` says that the bytes `bs` stand in the file from `off` on.
Writing makes it true; writing or punching elsewhere keeps it; reading gives
the bytes back.
-/
import MultiStorageClient.Slice

/-- The bytes of a file and its size.  What was never written reads as 0. -/
structure SparseFile where
  bytes : ℕ → UInt8
  size : ℕ

namespace SparseFile

open Slice

/-- A file without bytes. -/
def empty : SparseFile := ⟨fun _ => 0, 0⟩

/-- `pwrite`: write a buffer at an offset. -/
def writeAt (f : SparseFile) (off : ℕ) (buf : List UInt8) : SparseFile where
  bytes k := if off ≤ k then buf.getD (k - off) (f.bytes k) else f.bytes k
  size := if buf = [] then f.size else max f.size (off + buf.length)

/-- `fallocate` with a hole punched and the size kept. -/
def punchHole (f : SparseFile) (off len : ℕ) : SparseFile :=
  { f with bytes := fun k => if off ≤ k ∧ k < off + len then 0 else f.bytes k }

/-- `pread`: up to `len` bytes, fewer at the end of the file. -/
def readAt (f : SparseFile) (off len : ℕ) : List UInt8 :=
  (List.range (min len (f.size - off))).map fun k => f.bytes (off + k)

/-- `ftruncate`: the size is set, and what comes behind the old end reads as 0. -/
def setLen (f : SparseFile) (len : ℕ) : SparseFile where
  bytes k := if k < min f.size len then f.bytes k else 0
  size := len

/-- The bytes of a file, with zeros in its holes. -/
def content (f : SparseFile) : List UInt8 := f.readAt 0 f.size

/-- The bytes `bs` stand in the file from `off` on. -/
structure Holds (f : SparseFile) (off : ℕ) (bs : List UInt8) : Prop where
  size : off + bs.length ≤ f.size
  bytes : ∀ k b, bs[k]? = some b → f.bytes (off + k) = b

variable {f : SparseFile} {off off' len : ℕ} {bs buf : List UInt8}

theorem holds_writeAt (hbuf : buf ≠ []) : (f.writeAt off buf).Holds off buf := by
  refine ⟨?_, fun k b hk => ?_⟩
  · show off + buf.length ≤ if buf = [] then f.size else max f.size (off + buf.length)
    rw [if_neg hbuf]
    exact le_max_right _ _
  · show (if off ≤ off + k then buf.getD (off + k - off) _ else _) = b
    rw [if_pos (Nat.le_add_right _ _), Nat.add_sub_cancel_left, List.getD_eq_getElem?_getD, hk]
    rfl

theorem le_size_writeAt : f.size ≤ (f.writeAt off buf).size := by
  show f.size ≤ if buf = [] then f.size else max f.size (off + buf.length)
  split
  · exact le_rfl
  · exact le_max_left _ _

/-- Writing elsewhere. -/
theorem Holds.writeAt (h : f.Holds off bs) (hdis : off + bs.length ≤ off' ∨
    off' + buf.length ≤ off) : (f.writeAt off' buf).Holds off bs := by
  refine ⟨h.size.trans le_size_writeAt, fun k b hk => ?_⟩
  have hlt := (List.getElem?_eq_some_iff.mp hk).1
  show (if off' ≤ off + k then buf.getD (off + k - off') _ else _) = b
  rw [h.bytes k b hk]
  split
  · have hout : buf[off + k - off']? = none := List.getElem?_eq_none (by omega)
    rw [List.getD_eq_getElem?_getD, hout]
    rfl
  · rfl

/-- Punching elsewhere. -/
theorem Holds.punchHole (h : f.Holds off bs) (hdis : off + bs.length ≤ off' ∨ off' + len ≤ off) :
    (f.punchHole off' len).Holds off bs := by
  refine ⟨h.size, fun k b hk => ?_⟩
  have hlt := (List.getElem?_eq_some_iff.mp hk).1
  show (if off' ≤ off + k ∧ off + k < off' + len then 0 else f.bytes (off + k)) = b
  rw [if_neg (by omega)]
  exact h.bytes k b hk

/-- Reading within what the file holds. -/
theorem Holds.readAt (h : f.Holds off bs) {s n : ℕ} (hle : s + n ≤ bs.length) :
    f.readAt (off + s) n = slice s n bs := by
  have hmin : min n (f.size - (off + s)) = n := by
    have := h.size
    omega
  apply List.ext_getElem?
  intro k
  rw [SparseFile.readAt, hmin, slice, List.getElem?_map, List.getElem?_take, List.getElem?_drop]
  by_cases hk : k < n
  · obtain ⟨b, hin⟩ : ∃ b, bs[s + k]? = some b :=
      ⟨_, List.getElem?_eq_getElem (show s + k < bs.length by omega)⟩
    rw [List.getElem?_range hk, if_pos hk, hin, Option.map_some, Nat.add_assoc,
      h.bytes (s + k) _ hin]
  · have hrange : (List.range n)[k]? = none := List.getElem?_eq_none (by simpa using hk)
    rw [hrange, if_neg hk]
    rfl

/-- A file that holds a list, and no more. -/
theorem Holds.content_eq (h : f.Holds 0 bs) (hsize : f.size = bs.length) : f.content = bs := by
  have hread := h.readAt (s := 0) (n := bs.length) (by omega)
  rw [slice_whole le_rfl] at hread
  rw [content, hsize]
  exact hread

/-- A file holds a list when it holds its blocks. -/
theorem holds_of_blocks {n : ℕ} (hn : 0 < n) (hsize : bs.length ≤ f.size)
    (hblocks : ∀ i, i * n < bs.length → f.Holds (i * n) (slice (i * n) n bs)) : f.Holds 0 bs := by
  refine ⟨by omega, fun k b hk => ?_⟩
  have hlt := (List.getElem?_eq_some_iff.mp hk).1
  have hsum : k / n * n + k % n = k := Nat.div_add_mod' k n
  have hbyte := (hblocks (k / n) (by omega)).bytes (k % n) b
  rw [slice, List.getElem?_take, List.getElem?_drop, if_pos (Nat.mod_lt k hn), hsum] at hbyte
  rw [Nat.zero_add]
  exact hbyte hk

end SparseFile
