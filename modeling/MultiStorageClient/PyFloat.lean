/-
MultiStorageClient/PyFloat.lean

Python floats.  A `float` is a binary64 number, Lean's `Float`; what is here is
the text that `float(s)` accepts, the number it stands for, and the order of
floats as Python compares them.

`float` brings a text outside ASCII into ASCII first, and only then strips it,
takes the underscores out and reads a number.
-/
import Mathlib

namespace PyFloat

open Float.Model

/-! ### The order -/

/-- The order of two floats, of which none is NaN. -/
def cmp (x y : Float) : Option Ordering := x.toModel.compare y.toModel

theorem lt_iff {x y : Float} : x < y ↔ cmp x y = some .lt :=
  decide_eq_true_iff.trans beq_iff_eq

theorem le_iff {x y : Float} : x ≤ y ↔ cmp x y = some .lt ∨ cmp x y = some .eq := by
  refine decide_eq_true_iff.trans ?_
  show (cmp x y).any (·.isLE) = true ↔ _
  cases cmp x y with
  | none => simp
  | some o => cases o <;> simp

/-- A comparison the other way round has the other outcome. -/
theorem unpacked_compare_swap (a b : UnpackedFloat) :
    b.compare a = (a.compare b).map Ordering.swap := by
  have hswap : ∀ (m n : ℕ) (d e : ℤ), (Ord.compare e d).then (Ord.compare n m) =
      ((Ord.compare d e).then (Ord.compare m n)).swap := by
    intro m n d e
    rw [Ordering.swap_then, ← Std.OrientedCmp.eq_swap, ← Std.OrientedCmp.eq_swap]
  rcases a with s | _ | s | ⟨s, m, d, hm⟩ <;> rcases b with t | _ | t | ⟨t, n, e, hn⟩
  all_goals try cases s
  all_goals try cases t
  -- two finite numbers of one sign are compared by exponent and mantissa
  all_goals first
    | rfl
    | exact congrArg some (hswap _ _ _ _)
    | exact congrArg (fun o => some (Ordering.swap o)) (hswap _ _ _ _)

/-- Only a NaN is not equal to itself. -/
theorem unpacked_compare_self (a : UnpackedFloat) :
    a.compare a = if a.isNaN then none else some .eq := by
  rcases a with s | _ | s | ⟨s, m, d, hm⟩
  · cases s <;> rfl
  · rfl
  · rfl
  · have hself : (Ord.compare d d).then (Ord.compare m m) = .eq := by simp
    cases s
    · exact congrArg (fun o => some (Ordering.swap o)) hself
    · exact congrArg some hself

theorem cmp_swap (x y : Float) : cmp y x = (cmp x y).map Ordering.swap :=
  unpacked_compare_swap _ _

theorem cmp_self (x : Float) : cmp x x = if x.isNaN then none else some .eq :=
  unpacked_compare_self _

/-- The number that a finite float is. -/
def toRat? (x : Float) : Option ℚ :=
  match x.toModel.unpack with
  | .zero _ => some 0
  | .finite sign m e _ => some (sign.apply m * 2 ^ e)
  | _ => none

/-- `float(n)`, where it raises no `OverflowError`. -/
def ofInt (n : ℤ) : Option Float :=
  let x : Float := .ofModel (.ofInt n)
  if x.isInf then none else some x

/-- `x < n`: an integer and a float are compared exactly. -/
def ltInt (x : Float) (n : ℤ) : Bool :=
  match toRat? x with
  | some q => q < n
  | none => x < 0

theorem ltInt_mono {x : Float} {m n : ℤ} (h : ltInt x m = true) (hmn : m ≤ n) :
    ltInt x n = true := by
  unfold ltInt at h ⊢
  split at h
  · have hcast : (m : ℚ) ≤ n := Int.cast_le.mpr hmn
    exact decide_eq_true ((of_decide_eq_true h).trans_le hcast)
  · exact h

/-! ### Text -/

/-- The zeros outside ASCII; the other digits follow them. -/
def zeros : List ℕ :=
  [0x660, 0x6f0, 0x7c0, 0x966, 0x9e6, 0xa66, 0xae6, 0xb66, 0xbe6, 0xc66, 0xce6, 0xd66, 0xde6, 0xe50,
    0xed0, 0xf20, 0x1040, 0x1090, 0x17e0, 0x1810, 0x1946, 0x19d0, 0x1a80, 0x1a90, 0x1b50, 0x1bb0,
    0x1c40, 0x1c50, 0xa620, 0xa8d0, 0xa900, 0xa9d0, 0xa9f0, 0xaa50, 0xabf0, 0xff10, 0x104a0,
    0x10d30, 0x11066, 0x110f0, 0x11136, 0x111d0, 0x112f0, 0x11450, 0x114d0, 0x11650, 0x116c0,
    0x11730, 0x118e0, 0x11950, 0x11c50, 0x11d50, 0x11da0, 0x16a60, 0x16ac0, 0x16b50, 0x1d7ce,
    0x1d7d8, 0x1d7e2, 0x1d7ec, 0x1d7f6, 0x1e140, 0x1e2f0, 0x1e950, 0x1fbf0]

/-- The spaces outside ASCII. -/
def spaces : List ℕ :=
  [0x85, 0xa0, 0x1680, 0x2000, 0x2001, 0x2002, 0x2003, 0x2004, 0x2005, 0x2006, 0x2007, 0x2008,
    0x2009, 0x200a, 0x2028, 0x2029, 0x202f, 0x205f, 0x3000]

/-- `_PyUnicode_TransformDecimalAndSpaceToASCII` -/
def toAscii (c : Char) : Char :=
  if c.toNat < 128 then c
  else if c.toNat ∈ spaces then ' '
  else
    match zeros.find? fun z => z ≤ c.toNat ∧ c.toNat < z + 10 with
    | some z => Char.ofNat ('0'.toNat + (c.toNat - z))
    | none => '?'

/-- The spaces of ASCII that are stripped. -/
def isSpace (c : Char) : Bool := c = ' ' ∨ 9 ≤ c.toNat ∧ c.toNat ≤ 13

/-- `strip` -/
def strip (s : List Char) : List Char := ((s.dropWhile isSpace).reverse.dropWhile isSpace).reverse

/-- Underscores stand between digits only, and are left out. -/
def dropUnderscores (prev : Char) : List Char → Option (List Char)
  | [] => if prev = '_' then none else some []
  | c :: s =>
      if c = '_' then if prev.isDigit then dropUnderscores c s else none
      else if prev = '_' ∧ ¬c.isDigit then none
      else (dropUnderscores c s).map (c :: ·)

/-- A sign, and what follows. -/
def sign : List Char → Bool × List Char
  | '-' :: s => (true, s)
  | '+' :: s => (false, s)
  | s => (false, s)

/-- The number of some digits. -/
def natOfDigits (s : List Char) : ℕ := s.foldl (fun n c => 10 * n + (c.toNat - '0'.toNat)) 0

/-- What stands behind the digits of a number. -/
def exponent : List Char → Option ℤ
  | [] => some 0
  | c :: s =>
      let (negative, s) := sign s
      if (c = 'e' ∨ c = 'E') ∧ s ≠ [] ∧ s.all Char.isDigit then
        some (if negative then -natOfDigits s else natOfDigits s)
      else none

/-- A text that is a float. -/
inductive Text
  | nan
  | inf (negative : Bool)
  /-- `m * 10 ^ e` -/
  | decimal (negative : Bool) (m : ℕ) (e : ℤ)

/-- Digits with at most one point among them, and an exponent. -/
def decimal (negative : Bool) (s : List Char) : Option Text :=
  let whole := s.takeWhile Char.isDigit
  let (fraction, rest) :=
    match s.dropWhile Char.isDigit with
    | '.' :: s => (s.takeWhile Char.isDigit, s.dropWhile Char.isDigit)
    | s => ([], s)
  if whole ++ fraction = [] then none
  else (exponent rest).map fun e => .decimal negative (natOfDigits (whole ++ fraction))
    (e - fraction.length)

/-- What `float` reads. -/
def read (s : List Char) : Option Text := do
  let s ← dropUnderscores ' ' (strip (s.map toAscii))
  let (negative, s) := sign s
  match String.ofList (s.map Char.toLower) with
  | "nan" => some .nan
  | "inf" | "infinity" => some (.inf negative)
  | _ => decimal negative s

namespace Text

/-- The float nearest to a text. -/
def value : Text → Float
  | nan => 0.0 / 0.0
  | inf negative => if negative then -1.0 / 0.0 else 1.0 / 0.0
  | decimal negative m e =>
      let x : Float := .ofModel (.ofScientific m e)
      if negative then -x else x

/-- The number that a text stands for. -/
def exact : Text → Option ℚ
  | decimal negative m e => some ((if negative then -1 else 1) * m * 10 ^ e)
  | _ => none

end Text

/-- `float(s)`, where it raises no `ValueError`. -/
def parse (s : List Char) : Option Float := (read s).map Text.value

end PyFloat
