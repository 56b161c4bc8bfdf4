/-
MultiStorageClient/ByteOrder.lean

Byte strings in the order of their bytes.

Behind parts of the same length the order is decided by these parts first
(`append_lt_append_iff`), and numbers of the same width, the first digit first,
are in the order of the numbers (`bigEndian_lt_iff`).  A key that is put together
from numbers and a string is therefore in the order of the tuple.
-/
import MultiStorageClient.ByteCodec

instance uint8LinearOrder : LinearOrder UInt8 where
  le_refl := UInt8.le_refl
  le_trans _ _ _ := UInt8.le_trans
  le_antisymm _ _ := UInt8.le_antisymm
  le_total := UInt8.le_total
  lt_iff_le_not_ge a b := by
    rw [UInt8.not_le]
    exact ⟨fun h => ⟨UInt8.le_of_lt h, h⟩, fun h => h.2⟩
  toDecidableLE := inferInstance

namespace ByteCodec

variable {a b s t : List UInt8} {n v w : ℕ}

/-- Parts of the same length come first. -/
theorem append_lt_append_iff (h : a.length = b.length) :
    a ++ s < b ++ t ↔ a < b ∨ a = b ∧ s < t := by
  induction a generalizing b with
  | nil =>
      obtain rfl := List.length_eq_zero_iff.mp h.symm
      simp
  | cons x a ih =>
      cases b with
      | nil => cases h
      | cons y b =>
          rw [List.cons_append, List.cons_append, List.cons_lt_cons_iff, List.cons_lt_cons_iff,
            ih (Nat.succ.inj h), List.cons.injEq]
          tauto

theorem append_inj_iff (h : a.length = b.length) : a ++ s = b ++ t ↔ a = b ∧ s = t :=
  ⟨fun heq => List.append_inj heq h, fun ⟨ha, hs⟩ => by rw [ha, hs]⟩

theorem bigEndian_inj (hv : v < 256 ^ n) (hw : w < 256 ^ n) :
    bigEndian n v = bigEndian n w ↔ v = w := by
  refine ⟨fun h => ?_, fun h => h ▸ rfl⟩
  rw [← ofBigEndian_bigEndian hv, h, ofBigEndian_bigEndian hw]

theorem singleton_lt_singleton_iff {x y : UInt8} : [x] < [y] ↔ x < y := by
  rw [List.cons_lt_cons_iff]
  exact or_iff_left fun h => absurd h.2 (List.not_lt_nil [])

/-- **Numbers of the same width** are in order. -/
theorem bigEndian_lt_iff (hv : v < 256 ^ n) (hw : w < 256 ^ n) :
    bigEndian n v < bigEndian n w ↔ v < w := by
  induction n generalizing v w with
  | zero =>
      rw [Nat.lt_one_iff.mp hv, Nat.lt_one_iff.mp hw]
      exact iff_of_false (List.not_lt_nil []) (Nat.lt_irrefl 0)
  | succ n ih =>
      have hv' : v / 256 < 256 ^ n := Nat.div_lt_of_lt_mul (by rwa [Nat.mul_comm, ← Nat.pow_succ])
      have hw' : w / 256 < 256 ^ n := Nat.div_lt_of_lt_mul (by rwa [Nat.mul_comm, ← Nat.pow_succ])
      rw [bigEndian, bigEndian, append_lt_append_iff (by rw [length_bigEndian, length_bigEndian]),
        ih hv' hw', bigEndian_inj hv' hw', singleton_lt_singleton_iff, UInt8.lt_iff_toNat_lt,
        UInt8.toNat_ofNat', UInt8.toNat_ofNat']
      omega

end ByteCodec
