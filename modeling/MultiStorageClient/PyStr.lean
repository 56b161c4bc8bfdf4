/-
MultiStorageClient/PyStr.lean

Python strings and POSIX paths.  A Python `str` is a sequence of code points
compared code point by code point, so it is modelled by `List Char` with
Mathlib's lexicographic order.

The path functions follow the documented behaviour of `posixpath`.  Two
families of facts are used further up:

* a relative path that is joined to a directory is found again by slicing
  the directory off and stripping slashes (`lstrip_drop_join`);
* the strings that share a prefix form an interval of the lexicographic
  order (`lt_of_isPrefix_of_not_isPrefix`), which is what lets a directory be
  listed as a block.

Nothing here knows about object storage.
-/
import Mathlib

/-- A Python string: its code points. -/
abbrev PyStr := List Char

namespace PyStr

instance lawfulBEq : LawfulBEq PyStr := inferInstance

/-! ### String methods -/

/-- `s.lstrip(c)` for a one-character argument. -/
def lstrip (c : Char) (s : PyStr) : PyStr := s.dropWhile (· == c)

/-- `s.rstrip(c)` for a one-character argument. -/
def rstrip (c : Char) (s : PyStr) : PyStr := s.rdropWhile (· == c)

/-- `s.startswith(p)`. -/
def startswith (s p : PyStr) : Bool := p.isPrefixOf s

/-- `s.endswith(c)` for a one-character argument. -/
def endswith (s : PyStr) (c : Char) : Bool := s.getLast? == some c

/-! ### `posixpath` -/

/-- `os.path.join(a, b)`. -/
def join (a b : PyStr) : PyStr :=
  if b.startswith ['/'] then b
  else if a = [] ∨ a.endswith '/' then a ++ b
  else a ++ '/' :: b

/-- `os.path.basename(p)`: what follows the last slash. -/
def basename (p : PyStr) : PyStr := p.rtakeWhile (· != '/')

/-- `os.path.dirname` -/
def dirname (p : PyStr) : PyStr :=
  let head := p.rdropWhile (· != '/')
  if head.all (· == '/') then head else rstrip '/' head

/-! ### Stripping -/

@[simp] theorem lstrip_nil (c : Char) : lstrip c [] = [] := rfl

/-- A string that does not start with `c` is unchanged by `lstrip c`. -/
theorem lstrip_eq_self {c : Char} {s : PyStr} (h : s.head? ≠ some c) :
    lstrip c s = s := by
  cases s with
  | nil => rfl
  | cons x xs =>
      have hx : (x == c) = false := by simpa using h
      simp [lstrip, hx]

/-- What `lstrip c` returns does not start with `c`. -/
theorem head?_lstrip (c : Char) (s : PyStr) : (lstrip c s).head? ≠ some c := by
  induction s with
  | nil => simp
  | cons x xs ih =>
      rcases hx : (x == c) with - | -
      · have hne : x ≠ c := by simpa using hx
        simpa [lstrip, hx] using hne
      · simpa [lstrip, hx] using ih

/-- `lstrip c` only removes leading copies of `c`. -/
theorem lstrip_spec (c : Char) (s : PyStr) :
    ∃ n, s = List.replicate n c ++ lstrip c s := by
  induction s with
  | nil => exact ⟨0, rfl⟩
  | cons x xs ih =>
      rcases hx : (x == c) with - | -
      · exact ⟨0, by simp [lstrip, hx]⟩
      · obtain ⟨n, hn⟩ := ih
        obtain rfl : x = c := by simpa using hx
        refine ⟨n + 1, ?_⟩
        rw [List.replicate_succ, List.cons_append]
        have hl : lstrip x (x :: xs) = lstrip x xs := by simp [lstrip]
        rw [hl, ← hn]

theorem lstrip_replicate_append {c : Char} {s : PyStr} (n : ℕ)
    (h : s.head? ≠ some c) : lstrip c (List.replicate n c ++ s) = s := by
  induction n with
  | zero => exact lstrip_eq_self h
  | succ n ih =>
      rw [List.replicate_succ, List.cons_append]
      simpa [lstrip] using ih

theorem lstrip_eq_nil_iff {c : Char} {s : PyStr} : lstrip c s = [] ↔ ∀ x ∈ s, x = c := by
  simp [lstrip]

theorem length_lstrip_le (c : Char) (s : PyStr) : (lstrip c s).length ≤ s.length := by
  obtain ⟨n, hn⟩ := lstrip_spec c s
  conv_rhs => rw [hn]
  simp

/-- Stripping reaches exactly `s` when only copies of `c` stand before it. -/
theorem lstrip_append_eq_iff {c : Char} {s : PyStr} (u : PyStr) (hs : s.head? ≠ some c) :
    lstrip c (u ++ s) = s ↔ ∀ x ∈ u, x = c := by
  induction u with
  | nil => simpa using lstrip_eq_self hs
  | cons x u ih =>
      rcases hx : (x == c) with - | -
      · have hne : x ≠ c := by simpa using hx
        have hl : lstrip c (x :: u ++ s) = x :: u ++ s := by simp [lstrip, hx]
        rw [hl]
        constructor
        · intro h
          have hlen := congrArg List.length h
          simp only [List.length_cons, List.length_append] at hlen
          omega
        · intro h
          exact absurd (h x (by simp)) hne
      · have heq : x = c := by simpa using hx
        have hl : lstrip c (x :: u ++ s) = lstrip c (u ++ s) := by simp [lstrip, hx]
        rw [hl, ih]
        simp [heq]

/-- Only copies of `c` follow position `n` exactly when `rstrip c` cuts at or
before it. -/
theorem drop_all_iff {c : Char} (s : PyStr) (n : ℕ) :
    (∀ x ∈ s.drop n, x = c) ↔ (rstrip c s).length ≤ n := by
  induction s using List.reverseRecOn with
  | nil => simp [rstrip]
  | append_singleton s a ih =>
      rcases ha : (a == c) with - | -
      · -- nothing is stripped, and `a` is in every suffix but the empty one
        have hne : a ≠ c := by simpa using ha
        have hr : rstrip c (s ++ [a]) = s ++ [a] := by
          simp [rstrip, ha]
        rw [hr]
        constructor
        · intro h
          by_contra hlt
          have hle : n ≤ s.length := by simp at hlt; omega
          exact hne (h a (by simp [List.drop_append_of_le_length hle]))
        · intro h
          simp [List.drop_eq_nil_of_le h]
      · have heq : a = c := by simpa using ha
        have hr : rstrip c (s ++ [a]) = rstrip c s := by
          simp [rstrip, ha]
        rw [hr, ← ih, List.drop_append]
        constructor
        · exact fun h x hx => h x (List.mem_append_left _ hx)
        · intro h x hx
          rcases List.mem_append.mp hx with hx | hx
          · exact h x hx
          · have := List.mem_of_mem_drop hx
            simp only [List.mem_singleton] at this
            rw [this, heq]

/-! ### Joining and slicing -/

/-- The first character. -/
theorem startswith_slash_iff (b : PyStr) :
    b.startswith ['/'] = true ↔ b.head? = some '/' := by
  cases b with
  | nil => simp [startswith]
  | cons x xs =>
      constructor <;> intro h
      · have hx : '/' = x := by simpa [startswith, List.isPrefixOf] using h
        rw [← hx]; rfl
      · obtain rfl : x = '/' := by simpa using h
        rfl

/-- The separator `join` puts after a directory `a`. -/
def sep (a : PyStr) : PyStr := if a = [] ∨ a.endswith '/' then [] else ['/']

/-- Joining a relative path is concatenation around the separator. -/
theorem join_eq_append (a : PyStr) {b : PyStr} (h : b.head? ≠ some '/') :
    join a b = a ++ sep a ++ b := by
  have hb : ¬ b.startswith ['/'] = true := by
    rwa [startswith_slash_iff]
  unfold join sep
  rw [if_neg hb]
  split <;> simp

theorem sep_eq_replicate (a : PyStr) :
    sep a = List.replicate (sep a).length '/' := by
  unfold sep
  split <;> rfl

/-- A directory with its separator is empty or ends in a slash. -/
theorem append_sep_getLast? (a : PyStr) :
    a ++ sep a = [] ∨ (a ++ sep a).getLast? = some '/' := by
  unfold sep
  split
  · rename_i h
    rcases h with rfl | h
    · exact Or.inl rfl
    · exact Or.inr (by simpa [endswith] using h)
  · exact Or.inr (by simp)

theorem rstrip_append_sep (a : PyStr) : rstrip '/' (a ++ sep a) = rstrip '/' a := by
  unfold sep
  split
  · simp
  · simp [rstrip]

/-- Slicing a directory off a joined path and stripping slashes gives the
relative path back. -/
theorem lstrip_drop_join (a : PyStr) {b : PyStr} (h : b.head? ≠ some '/') :
    lstrip '/' ((join a b).drop a.length) = b := by
  rw [join_eq_append a h, List.append_assoc, List.drop_left, sep_eq_replicate]
  exact lstrip_replicate_append _ h

/-- Slicing `n` characters off `base ++ r` and stripping slashes gives `r`
exactly when the cut falls into the slashes that end `base`. -/
theorem lstrip_drop_append_eq_iff {base r : PyStr} (hr : r ≠ []) (hh : r.head? ≠ some '/')
    (n : ℕ) : lstrip '/' ((base ++ r).drop n) = r ↔
      (rstrip '/' base).length ≤ n ∧ n ≤ base.length := by
  by_cases hn : n ≤ base.length
  · rw [List.drop_append_of_le_length hn, lstrip_append_eq_iff _ hh, drop_all_iff]
    simp [hn]
  · -- the cut falls inside `r`, and what is left is shorter than `r`
    constructor
    · intro h
      have hpos : 0 < r.length := List.length_pos_of_ne_nil hr
      have hlen := length_lstrip_le '/' ((base ++ r).drop n)
      rw [h, List.length_drop, List.length_append] at hlen
      omega
    · exact fun h => absurd h.2 hn

theorem join_injective (a : PyStr) {b c : PyStr} (hb : b.head? ≠ some '/')
    (hc : c.head? ≠ some '/') (h : join a b = join a c) : b = c := by
  rw [← lstrip_drop_join a hb, h, lstrip_drop_join a hc]

/-- A base name contains no slash. -/
theorem not_mem_basename (p : PyStr) : '/' ∉ basename p := by
  intro h
  have := List.mem_rtakeWhile_imp h
  simp at this

/-- The base name of a slash-free name behind a directory is the name. -/
theorem basename_append {base r : PyStr} (hbase : base = [] ∨ base.getLast? = some '/')
    (hr : '/' ∉ r) : basename (base ++ r) = r := by
  have htake : ∀ x ∈ r, (x != '/') = true := by
    intro x hx
    have : x ≠ '/' := fun h => hr (h ▸ hx)
    simpa using this
  unfold basename List.rtakeWhile
  rw [List.reverse_append, List.takeWhile_append_of_pos (by simpa using htake)]
  rcases hbase with rfl | hlast
  · simp
  · have hhead : base.reverse.head? = some '/' := by simpa using hlast
    rcases hb : base.reverse with - | ⟨x, xs⟩
    · simp
    · obtain rfl : x = '/' := by simpa [hb] using hhead
      simp

theorem head?_basename (p : PyStr) : (basename p).head? ≠ some '/' := by
  intro h
  exact not_mem_basename p (List.mem_of_mem_head? h)

/-! ### Prefixes in the lexicographic order -/

theorem le_of_isPrefix {p s : PyStr} (h : p <+: s) : p ≤ s := by
  induction p generalizing s with
  | nil => exact not_lt.mp (List.not_lt_nil s)
  | cons x xs ih =>
      obtain ⟨t, rfl⟩ := h
      rw [List.cons_append]
      exact List.cons_le_cons x (ih ⟨t, rfl⟩)

theorem lt_of_isPrefix_of_ne {p s : PyStr} (h : p <+: s) (hne : p ≠ s) : p < s :=
  lt_of_le_of_ne (le_of_isPrefix h) hne

/-- **Prefixes are intervals.**  A string at or above `p` that does not
start with `p` is above every string that does. -/
theorem lt_of_isPrefix_of_not_isPrefix {p s t : PyStr} (hs : p <+: s)
    (hle : p ≤ t) (ht : ¬ p <+: t) : s < t := by
  induction p generalizing s t with
  | nil => exact absurd List.nil_prefix ht
  | cons x xs ih =>
      obtain ⟨u, rfl⟩ := hs
      cases t with
      | nil => exact absurd hle (not_le.mpr (List.nil_lt_cons x xs))
      | cons y ys =>
          rw [List.cons_append, List.cons_lt_cons_iff]
          rcases lt_trichotomy x y with hxy | rfl | hyx
          · exact Or.inl hxy
          · refine Or.inr ⟨rfl, ih ⟨u, rfl⟩ ?_ ?_⟩
            · by_contra hlt
              exact absurd (List.cons_lt_cons_iff.mpr (Or.inr ⟨rfl, not_le.mp hlt⟩))
                (not_lt.mpr hle)
            · intro hp
              exact ht (List.cons_prefix_cons.mpr ⟨rfl, hp⟩)
          · exact absurd (List.cons_lt_cons_iff.mpr (Or.inl hyx)) (not_lt.mpr hle)

theorem append_lt_append_iff (p : PyStr) {s t : PyStr} :
    p ++ s < p ++ t ↔ s < t := by
  induction p with
  | nil => rfl
  | cons x xs ih => simp [ih]

/-- What is checked of every character by computation holds of every character. -/
theorem forall_mem_of_all {p : Char → Prop} [DecidablePred p] {s : PyStr}
    (h : (s.all fun c => decide (p c)) = true) : ∀ c ∈ s, p c := by
  intro c hc
  exact of_decide_eq_true (List.all_eq_true.mp h c hc)

/-- The first of two strings of one length decide. -/
theorem append_lt_append_of_lt {a b : PyStr} (h : a < b) (hl : a.length = b.length)
    (x y : PyStr) : a ++ x < b ++ y := by
  induction a generalizing b with
  | nil =>
      obtain rfl : b = [] := List.length_eq_zero_iff.mp hl.symm
      exact absurd h (lt_irrefl _)
  | cons c a ih =>
      cases b with
      | nil => cases hl
      | cons d b =>
          rcases List.cons_lt_cons_iff.mp h with hcd | ⟨rfl, hab⟩
          · exact List.cons_lt_cons_iff.mpr (.inl hcd)
          · exact List.cons_lt_cons_iff.mpr (.inr ⟨rfl, ih hab (by simpa using hl)⟩)

theorem append_le_append_iff (p : PyStr) {s t : PyStr} :
    p ++ s ≤ p ++ t ↔ s ≤ t := by
  rw [← not_lt, append_lt_append_iff, not_lt]

end PyStr
