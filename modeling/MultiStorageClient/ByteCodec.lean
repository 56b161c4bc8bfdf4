/-
MultiStorageClient/ByteCodec.lean

Reading and writing bytes at an offset that moves on.

A reader has the whole payload and an offset; a writer fills a buffer of zeros
from its start.  `Reads` and `Writes` say which bytes a reader or a writer stands
for, whatever is before them and behind them, so a program of readers or writers
stands for the bytes in a row (`Reads.bind`, `Writes.seq`), and one that goes
through a list for the bytes of its elements (`Reads.turns`, `Writes.forM`).

Payloads are shorter than a given size: an offset in machine words does not wrap
then.
-/
import Mathlib

namespace ByteCodec

/-! ### Numbers -/

/-- The last `n` digits of a number to the base 256, the first digit first. -/
def bigEndian : ℕ → ℕ → List UInt8
  | 0, _ => []
  | n + 1, v => bigEndian n (v / 256) ++ [UInt8.ofNat v]

/-- The number with the given digits. -/
def ofBigEndian (bs : List UInt8) : ℕ := bs.foldl (fun v b => v * 256 + b.toNat) 0

@[simp] theorem length_bigEndian (n v : ℕ) : (bigEndian n v).length = n := by
  induction n generalizing v with
  | zero => rfl
  | succ n ih => rw [bigEndian, List.length_append, ih, List.length_singleton]

theorem ofBigEndian_bigEndian {n v : ℕ} (h : v < 256 ^ n) : ofBigEndian (bigEndian n v) = v := by
  induction n generalizing v with
  | zero => exact (Nat.lt_one_iff.mp h).symm
  | succ n ih =>
      have hdiv : v / 256 < 256 ^ n := Nat.div_lt_of_lt_mul (by rwa [Nat.mul_comm, ← Nat.pow_succ])
      rw [bigEndian, ofBigEndian, List.foldl_concat, ← ofBigEndian, ih hdiv]
      rw [UInt8.toNat_ofNat']
      omega

theorem ofBigEndian_lt (bs : List UInt8) : ofBigEndian bs < 256 ^ bs.length := by
  induction bs using List.reverseRecOn with
  | nil => exact Nat.one_pos
  | append_singleton bs b ih =>
      have hb := b.toNat_lt
      rw [ofBigEndian, List.foldl_concat, ← ofBigEndian, List.length_append, List.length_singleton,
        Nat.pow_succ]
      omega

/-! ### Readers -/

section Reader

/-- A program that reads a payload from an offset on. -/
abbrev Reader (ε α : Type) : Type := ReaderT (List UInt8) (StateT ℕ (Except ε)) α

variable {ε α β : Type} {size : ℕ}

/-- The reader goes over the bytes and says `a`, in every payload of a size. -/
def Reads (size : ℕ) (r : Reader ε α) (bs : List UInt8) (a : α) : Prop :=
  ∀ before rest, (before ++ bs ++ rest).length < size →
    (r.run (before ++ bs ++ rest)).run before.length = .ok (a, before.length + bs.length)

theorem Reads.pure (a : α) : Reads size (Pure.pure a : Reader ε α) [] a := by
  intro before rest _
  rfl

/-- A reader of `bs` followed by a reader of `cs` reads `bs ++ cs`. -/
theorem Reads.bind {r : Reader ε α} {f : α → Reader ε β} {bs cs : List UInt8} {a : α} {b : β}
    (hr : Reads size r bs a) (hf : Reads size (f a) cs b) : Reads size (r >>= f) (bs ++ cs) b := by
  intro before rest hlen
  have h₁ := hr before (cs ++ rest) (by simpa only [List.append_assoc] using hlen)
  have h₂ := hf (before ++ bs) rest (by simpa only [List.append_assoc] using hlen)
  rw [List.append_assoc (before ++ bs), List.length_append] at h₂
  rw [← List.append_assoc before, List.append_assoc (before ++ bs), ReaderT.run_bind,
    StateT.run_bind, h₁]
  show (ReaderT.run (f a) _).run _ = _
  rw [h₂, List.length_append, Nat.add_assoc]

theorem Reads.map {r : Reader ε α} {bs : List UInt8} {a : α} (hr : Reads size r bs a) (g : α → β) :
    Reads size (g <$> r) bs (g a) := by
  intro before rest hlen
  rw [ReaderT.run_map, StateT.run_map, hr before rest hlen]
  rfl

/-- The same step, `n` times. -/
def turns (f : α → Reader ε α) : ℕ → α → Reader ε α
  | 0, a => Pure.pure a
  | n + 1, a => f a >>= turns f n

/-- **A loop** goes over the bytes of the elements of a list. -/
theorem Reads.turns {γ : Type} {f : α → Reader ε α} {bytes : γ → List UInt8} {g : α → γ → α}
    (h : ∀ a x, Reads size (f a) (bytes x) (g a x)) (xs : List γ) (a : α) :
    Reads size (turns f xs.length a) (xs.flatMap bytes) (xs.foldl g a) := by
  induction xs generalizing a with
  | nil => exact .pure a
  | cons x xs ih => exact (h a x).bind (ih (g a x))

end Reader

/-! ### Writers -/

section Writer

/-- A program that fills a buffer from an offset on. -/
abbrev ByteWriter (ε α : Type) : Type := StateT (List UInt8 × ℕ) (Except ε) α

variable {ε γ : Type} {w w' : ByteWriter ε Unit} {bs cs : List UInt8}

/-- The writer fills the next bytes of a buffer that has room. -/
def Writes (w : ByteWriter ε Unit) (bs : List UInt8) : Prop :=
  ∀ (done : List UInt8) (n : ℕ),
    w.run (done ++ List.replicate (bs.length + n) 0, done.length) =
      .ok ((), done ++ bs ++ List.replicate n 0, done.length + bs.length)

theorem Writes.pure : Writes (Pure.pure () : ByteWriter ε Unit) [] := by
  intro done n
  rw [List.length_nil, Nat.zero_add, List.append_nil]
  rfl

theorem Writes.seq (hw : Writes w bs) (hw' : Writes w' cs) :
    Writes (w >>= fun _ => w') (bs ++ cs) := by
  intro done n
  have h' := hw' (done ++ bs) n
  rw [List.length_append] at h'
  rw [List.length_append, Nat.add_assoc, StateT.run_bind, hw]
  show w'.run _ = _
  rw [h', List.append_assoc done, Nat.add_assoc]

/-- **A loop** fills in the bytes of the elements of a list. -/
theorem Writes.forM {f : γ → ByteWriter ε Unit} {bytes : γ → List UInt8}
    (h : ∀ x, Writes (f x) (bytes x))
    (xs : List γ) : Writes (xs.forM f) (xs.flatMap bytes) := by
  induction xs with
  | nil => exact .pure
  | cons x xs ih => exact (h x).seq ih

/-- **A whole buffer** is filled. -/
theorem Writes.run_zeros (h : Writes w bs) :
    w.run (List.replicate bs.length 0, 0) = .ok ((), bs, bs.length) := by
  simpa using h [] 0

end Writer

end ByteCodec
