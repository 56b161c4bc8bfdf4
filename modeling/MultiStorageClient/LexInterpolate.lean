/-
MultiStorageClient/LexInterpolate.lean

The split points of `lexInterpolate` lie between the keys, and none is the next.

A key, filled up with spaces, is a number in base 95, and what is written for a
number has its last spaces cut off.  Keys are compared as if they were filled up
(`lt_of_pad_lt`), so the texts are in the order of the numbers.  The numbers of
two keys are multiples of 95^2, since two digits more are written than either
has, and so there is room for 9024 points between them.
-/
import MultiStorageClient.RangeSplits

namespace MultiStorageFileSystem

variable {a b s u v : GoStr} {n m length k l : ℕ}

/-- Printable ASCII. -/
def Printable (s : GoStr) : Prop := ∀ c ∈ s, ' ' ≤ c ∧ c ≤ '~'

instance (s : GoStr) : Decidable (Printable s) := List.decidableBAll (fun c => ' ' ≤ c ∧ c ≤ '~') s

/-! ### Keys that are filled up -/

/-- A key, filled up with spaces. -/
def pad (s : GoStr) (length : ℕ) : GoStr := s ++ List.replicate (length - s.length) ' '

/-- Filled up to one length, keys keep their order. -/
theorem lt_of_pad_lt (hu : ∀ c ∈ u, ' ' ≤ c) (hlength : u.length + k = v.length + l)
    (h : u ++ List.replicate k ' ' < v ++ List.replicate l ' ') : u < v := by
  induction u generalizing v l with
  | nil =>
      cases v with
      | nil =>
          obtain rfl : k = l := by simpa using hlength
          exact absurd h (lt_irrefl _)
      | cons d v => exact List.nil_lt_cons d v
  | cons c u ih =>
      obtain ⟨hc, hu⟩ := List.forall_mem_cons.mp hu
      cases v with
      | nil =>
          -- a space is filled up here, and `c` is no smaller
          obtain ⟨l, rfl⟩ : ∃ l', l = l' + 1 := ⟨l - 1, by simp at hlength; omega⟩
          rw [List.nil_append, List.replicate_succ, List.cons_append, List.cons_lt_cons_iff] at h
          rcases h with hlt | ⟨-, h⟩
          · exact absurd hlt (not_lt.mpr hc)
          · have hnil := ih (v := []) (l := l) hu (by simp at hlength ⊢; omega) h
            exact absurd hnil (List.not_lt_nil _)
      | cons d v =>
          rw [List.cons_append, List.cons_append, List.cons_lt_cons_iff] at h
          rw [List.cons_lt_cons_iff]
          refine h.imp_right fun h => ⟨h.1, ih hu (by simp at hlength; omega) h.2⟩

theorem Printable.le (h : Printable s) : ∀ c ∈ s, ' ' ≤ c := fun c hc => (h c hc).1

theorem length_pad (h : s.length ≤ length) : (pad s length).length = length := by
  rw [pad, List.length_append, List.length_replicate]
  omega

/-- A key before another one, which is not the same one with spaces behind it. -/
theorem pad_lt_pad (hb : Printable b) (hab : a < b) (hspaces : ∀ k, b ≠ a ++ List.replicate k ' ')
    (ha' : a.length ≤ length) (hb' : b.length ≤ length) : pad a length < pad b length := by
  refine lt_of_not_ge fun hge => ?_
  rcases hge.lt_or_eq with hlt | heq
  · have hba := lt_of_pad_lt hb.le (by omega) hlt
    exact absurd hab hba.not_gt
  · rcases le_total a.length b.length with hle | hle
    · -- `b` goes on behind `a` with spaces
      have hpre : a <+: b := List.prefix_of_prefix_length_le ⟨_, rfl⟩ ⟨_, heq⟩ hle
      obtain ⟨t, rfl⟩ := hpre
      rw [pad, pad, List.append_assoc, List.append_cancel_left_eq] at heq
      have ht : t = List.replicate t.length ' ' := by
        refine List.eq_replicate_iff.mpr ⟨rfl, fun c hc => ?_⟩
        exact List.eq_of_mem_replicate (heq ▸ List.mem_append_left _ hc)
      exact hspaces t.length (by rw [← ht])
    · have hpre : b <+: a := List.prefix_of_prefix_length_le ⟨_, heq⟩ ⟨_, rfl⟩ hle
      exact absurd hab (PyStr.le_of_isPrefix hpre).not_gt

/-! ### Digits -/

theorem stringToBase95Int_succ (s : GoStr) (length : ℕ) :
    stringToBase95Int s (length + 1) =
      stringToBase95Int s length * lexBase + (s[length]?.map lexDigit).getD 0 := by
  unfold stringToBase95Int
  rw [List.range_succ, List.foldl_append]
  rfl

theorem lexDigit_lt (c : Option Char) : (c.map lexDigit).getD 0 < lexBase := by
  cases c with
  | none => decide
  | some c => exact lt_of_le_of_lt (min_le_right _ _) (by decide)

/-- A printable byte is written for its digit. -/
theorem ofNat_lexDigit {c : Char} (h : ' ' ≤ c ∧ c ≤ '~') :
    Char.ofNat (lexDigit c + lexMinByte) = c := by
  obtain ⟨hmin, hmax⟩ := h
  rw [Char.le_def, UInt32.le_iff_toNat_le, Char.toNat_val, Char.toNat_val] at hmin hmax
  have hmin : 32 ≤ c.toNat := hmin
  have hmax : c.toNat ≤ 126 := hmax
  have hdigit : lexDigit c + lexMinByte = c.toNat := by
    unfold lexDigit lexMinByte lexBase
    omega
  rw [hdigit, Char.ofNat_toNat]

/-- The digits of a key are the key, filled up. -/
theorem base95Digits_stringToBase95Int (hs : Printable s) (h : s.length ≤ length) :
    base95Digits (stringToBase95Int s length) length = pad s length := by
  have hdigits : base95Digits (stringToBase95Int s length) length =
      (List.range length).map fun i => s[i]?.getD ' ' := by
    clear h
    induction length with
    | zero => rfl
    | succ length ih =>
        have hlt := lexDigit_lt s[length]?
        -- the last digit is split off by division and remainder
        have hdiv :
            (stringToBase95Int s length * lexBase + (s[length]?.map lexDigit).getD 0) / lexBase =
            stringToBase95Int s length := by
          rw [Nat.mul_comm, Nat.mul_add_div (by decide), Nat.div_eq_of_lt hlt, Nat.add_zero]
        have hmod :
            (stringToBase95Int s length * lexBase + (s[length]?.map lexDigit).getD 0) % lexBase =
            (s[length]?.map lexDigit).getD 0 := by
          rw [Nat.mul_comm, Nat.mul_add_mod, Nat.mod_eq_of_lt hlt]
        rw [stringToBase95Int_succ, base95Digits, hdiv, hmod, ih, List.range_succ, List.map_append]
        rw [List.map_singleton]
        congr 2
        cases hc : s[length]? with
        | none => rfl
        | some c => exact ofNat_lexDigit (hs c (List.mem_of_getElem? hc))
  rw [hdigits]
  refine List.ext_getElem (by rw [List.length_map, List.length_range, length_pad h])
    fun i hi hi' => ?_
  rw [List.getElem_map, List.getElem_range]
  -- behind the string stand blanks, which are the digit 0
  by_cases hlt : i < s.length
  · simp [pad, List.getElem_append_left hlt, hlt]
  · simp [pad, List.getElem_append_right (not_lt.mp hlt), hlt]

/-- The numbers of two strings are in the order of the strings. -/
theorem stringToBase95Int_lt_stringToBase95Int (ha : Printable a) (hb : Printable b) (hab : a < b)
    (hspaces : ∀ k, b ≠ a ++ List.replicate k ' ') (ha' : a.length ≤ length)
    (hb' : b.length ≤ length) :
    stringToBase95Int a length < stringToBase95Int b length := by
  have hpad := pad_lt_pad hb hab hspaces ha' hb'
  rw [← base95Digits_stringToBase95Int ha ha', ← base95Digits_stringToBase95Int hb hb'] at hpad
  refine lt_of_not_ge fun hge => ?_
  rcases hge.lt_or_eq with hlt | heq
  · exact absurd hpad (base95Digits_lt hlt (stringToBase95Int_lt a length)).not_gt
  · exact absurd hpad (heq ▸ lt_irrefl _)

/-- Two digits more are two zeros. -/
theorem dvd_stringToBase95Int (h : s.length ≤ length) :
    lexBase ^ 2 ∣ stringToBase95Int s (length + 2) := by
  have hnone : s[length]? = none := List.getElem?_eq_none h
  have hnone' : s[length + 1]? = none := List.getElem?_eq_none (by omega)
  refine ⟨stringToBase95Int s length, ?_⟩
  rw [stringToBase95Int_succ, stringToBase95Int_succ, hnone, hnone', pow_two, Nat.mul_assoc,
    Nat.mul_comm lexBase, Nat.mul_comm lexBase]
  rfl

/-- What is written for a number are its digits, without the last spaces. -/
theorem base95IntToString_append (hn : 0 < n) (hlt : n < lexBase ^ length) :
    ∃ k, base95IntToString n length ++ List.replicate k ' ' = base95Digits n length := by
  have hspaces : (base95Digits n length).rtakeWhile (· == ' ') =
      List.replicate ((base95Digits n length).rtakeWhile (· == ' ')).length ' ' :=
    List.eq_replicate_iff.mpr ⟨rfl, fun c hc => by simpa using List.mem_rtakeWhile_imp hc⟩
  have happend : (base95Digits n length).rdropWhile (· == ' ') ++
      List.replicate ((base95Digits n length).rtakeWhile (· == ' ')).length ' ' =
        base95Digits n length := by
    rw [← hspaces]
    exact List.rdropWhile_append_rtakeWhile
  refine ⟨((base95Digits n length).rtakeWhile (· == ' ')).length, ?_⟩
  rw [base95IntToString, if_neg, happend]
  -- only the digits of zero are all spaces
  intro hnil
  have hlength := congrArg List.length happend
  rw [hnil, List.nil_append] at happend
  have hzero := base95Digits_lt hn hlt
  rw [← happend, ← List.append_nil (base95Digits 0 length), ← List.nil_append (List.replicate _ _)]
    at hzero
  refine List.not_lt_nil _ (lt_of_pad_lt (k := 0) (fun c => le_of_mem_base95Digits) ?_ hzero)
  rw [length_base95Digits, List.length_nil]
  rw [hnil, List.length_append, List.length_replicate, length_base95Digits,
    List.length_nil] at hlength
  omega

/-- The strings of two numbers are in the order of the numbers. -/
theorem base95IntToString_lt (hn : 0 < n) (hnm : n < m) (hm : m < lexBase ^ length) :
    base95IntToString n length < base95IntToString m length := by
  obtain ⟨k, hk⟩ := base95IntToString_append hn (hnm.trans hm)
  obtain ⟨l, hl⟩ := base95IntToString_append (hn.trans hnm) hm
  have hlt := base95Digits_lt hnm hm
  have hlength := (length_base95Digits n length).trans (length_base95Digits m length).symm
  rw [← hk, ← hl] at hlt hlength
  rw [List.length_append, List.length_append, List.length_replicate,
    List.length_replicate] at hlength
  refine lt_of_pad_lt (fun c hc => ?_) hlength hlt
  exact le_of_mem_base95Digits (hk ▸ List.mem_append_left _ hc)

/-- A key comes before what is written for a number above its own. -/
theorem lt_base95IntToString (ha : Printable a) (hlength : a.length ≤ length)
    (h : stringToBase95Int a length < n) (hn : n < lexBase ^ length) :
      a < base95IntToString n length := by
  obtain ⟨k, hk⟩ := base95IntToString_append (Nat.zero_lt_of_lt h) hn
  have hlt := base95Digits_lt h hn
  have heq := (length_base95Digits (stringToBase95Int a length) length).trans
    (length_base95Digits n length).symm
  rw [base95Digits_stringToBase95Int ha hlength, pad, ← hk] at hlt heq
  rw [List.length_append, List.length_append, List.length_replicate, List.length_replicate] at heq
  exact lt_of_pad_lt ha.le heq hlt

/-- A key comes behind what is written for a number below its own. -/
theorem base95IntToString_lt_key (hb : Printable b) (hlength : b.length ≤ length) (hn : 0 < n)
    (h : n < stringToBase95Int b length) : base95IntToString n length < b := by
  have hb' := stringToBase95Int_lt b length
  obtain ⟨k, hk⟩ := base95IntToString_append hn (h.trans hb')
  have hlt := base95Digits_lt h hb'
  have heq := (length_base95Digits n length).trans
    (length_base95Digits (stringToBase95Int b length) length).symm
  rw [base95Digits_stringToBase95Int hb hlength, pad, ← hk] at hlt heq
  rw [List.length_append, List.length_append, List.length_replicate, List.length_replicate] at heq
  refine lt_of_pad_lt (fun c hc => ?_) heq hlt
  exact le_of_mem_base95Digits (hk ▸ List.mem_append_left _ hc)

/-- What is written for the number of a key is the key, unless it ends in a space. -/
theorem base95IntToString_stringToBase95Int (hs : Printable s) (hne : s ≠ [])
    (hlast : s.getLast? ≠ some ' ') (h : s.length ≤ length) :
    base95IntToString (stringToBase95Int s length) length = s := by
  have hself : s.rdropWhile (· == ' ') = s := by
    refine List.rdropWhile_eq_self_iff.mpr fun hs' heq => hlast ?_
    rw [List.getLast?_eq_some_getLast hs', beq_iff_eq.mp heq]
  have hdrop : ∀ k, (s ++ List.replicate k ' ').rdropWhile (· == ' ') = s := by
    intro k
    induction k with
    | zero => rwa [List.replicate_zero, List.append_nil]
    | succ k ih =>
        rw [List.replicate_succ', ← List.append_assoc, List.rdropWhile_concat_pos _ _ _
          (by decide), ih]
  rw [base95IntToString, base95Digits_stringToBase95Int hs h, pad, hdrop, if_neg hne]

/-! ### The split points -/

/-- The `i`th point on the way from one number to another one. -/
def point (aBig bBig n i : ℕ) : ℕ := aBig + (bBig - aBig) * i / n

/-- The points grow with their index. -/
theorem point_lt_point {aBig bBig i j : ℕ} (hn : 0 < n) (hdiff : aBig + n ≤ bBig) (hij : i < j) :
    point aBig bBig n i < point aBig bBig n j := by
  have hle : (bBig - aBig) * i + n ≤ (bBig - aBig) * j := by
    calc (bBig - aBig) * i + n ≤ (bBig - aBig) * i + (bBig - aBig) := by omega
      _ = (bBig - aBig) * (i + 1) := (Nat.mul_succ _ _).symm
      _ ≤ (bBig - aBig) * j := Nat.mul_le_mul_left _ hij
  have hdiv : (bBig - aBig) * i / n + 1 ≤ (bBig - aBig) * j / n := by
    rw [← Nat.add_div_right _ hn]
    exact Nat.div_le_div_right hle
  exact Nat.add_lt_add_left (Nat.lt_of_succ_le hdiv) _

theorem point_zero (aBig bBig n : ℕ) : point aBig bBig n 0 = aBig := by simp [point]

theorem point_self {aBig bBig : ℕ} (hn : 0 < n) (h : aBig ≤ bBig) : point aBig bBig n n = bBig := by
  rw [point, Nat.mul_div_cancel _ hn]
  omega

/-- Keys that differ in more than spaces at the end are at least 95^2 apart. -/
theorem stringToBase95Int_add_le (ha : Printable a) (hb : Printable b) (hab : a < b)
    (hspaces : ∀ k, b ≠ a ++ List.replicate k ' ') :
    stringToBase95Int a (max a.length b.length + 2) + lexBase ^ 2 ≤
      stringToBase95Int b (max a.length b.length + 2) := by
  have hlt : stringToBase95Int a (max a.length b.length + 2) <
      stringToBase95Int b (max a.length b.length + 2) :=
    stringToBase95Int_lt_stringToBase95Int ha hb hab hspaces (by omega) (by omega)
  obtain ⟨x, hx⟩ := dvd_stringToBase95Int (le_max_left a.length b.length)
  obtain ⟨y, hy⟩ := dvd_stringToBase95Int (le_max_right a.length b.length)
  rw [hx, hy] at hlt ⊢
  have hxy : x + 1 ≤ y := Nat.lt_of_mul_lt_mul_left hlt
  calc lexBase ^ 2 * x + lexBase ^ 2 = lexBase ^ 2 * (x + 1) := (Nat.mul_succ _ _).symm
    _ ≤ lexBase ^ 2 * y := Nat.mul_le_mul_left _ hxy

theorem lexInterpolate_eq (h : 2 ≤ n) (hab : stringToBase95Int a (max a.length b.length + 2) <
      stringToBase95Int b (max a.length b.length + 2)) :
    lexInterpolate a b n = (List.range' 1 (n - 1)).map fun i =>
      base95IntToString (point (stringToBase95Int a (max a.length b.length + 2))
        (stringToBase95Int b (max a.length b.length + 2)) n i) (max a.length b.length + 2) := by
  rw [lexInterpolate, if_neg (by omega)]
  dsimp only
  rw [if_neg (by omega)]
  rfl

/-- **The split points are `n - 1` different ones, in order, between the two keys.** -/
theorem lexInterpolate_between (ha : Printable a) (hb : Printable b) (hab : a < b)
    (hspaces : ∀ k, b ≠ a ++ List.replicate k ' ') (hn : 2 ≤ n) (hn' : n ≤ 9025) :
    (lexInterpolate a b n).length = n - 1 ∧ (lexInterpolate a b n).Pairwise (· < ·) ∧
      ∀ s ∈ lexInterpolate a b n, a < s ∧ s < b := by
  have hdiff := stringToBase95Int_add_le ha hb hab hspaces
  have hb' := stringToBase95Int_lt b (max a.length b.length + 2)
  have hroom : stringToBase95Int a (max a.length b.length + 2) + n ≤
      stringToBase95Int b (max a.length b.length + 2) := le_trans (Nat.add_le_add_left hn' _) hdiff
  rw [lexInterpolate_eq hn (by omega)]
  generalize hA : stringToBase95Int a (max a.length b.length + 2) = aBig at *
  generalize hB : stringToBase95Int b (max a.length b.length + 2) = bBig at *
  have hpos : 0 < n := by omega
  -- every point lies strictly between the two numbers, as there are `n` steps
  have hpoint :
      ∀ i ∈ List.range' 1 (n - 1), aBig < point aBig bBig n i ∧ point aBig bBig n i < bBig := by
    intro i hi
    obtain ⟨hi, hi'⟩ := List.mem_range'_1.mp hi
    have hstart := point_lt_point hpos hroom (show 0 < i by omega)
    have hend := point_lt_point hpos hroom (show i < n by omega)
    rw [point_zero] at hstart
    rw [point_self hpos (by omega)] at hend
    exact ⟨hstart, hend⟩
  refine ⟨by rw [List.length_map, List.length_range'], ?_, fun s hs => ?_⟩
  · rw [List.pairwise_map]
    refine (List.pairwise_lt_range' (s := 1) (n := n - 1)).imp_of_mem fun {i j} hi hj hij => ?_
    exact base95IntToString_lt (Nat.zero_lt_of_lt (hpoint i hi).1) (point_lt_point hpos hroom hij)
      ((hpoint j hj).2.trans hb')
  · obtain ⟨i, hi, rfl⟩ := List.mem_map.mp hs
    obtain ⟨hstart, hend⟩ := hpoint i hi
    subst hA hB
    exact ⟨lt_base95IntToString ha (by omega) hstart (hend.trans hb'),
      base95IntToString_lt_key hb (by omega) (Nat.zero_lt_of_lt hstart) hend⟩

/-- **Interpolation and conversion** -/
theorem lexInterpolate_spec :
    (∀ a b : GoStr, ∀ n, Printable a → Printable b → a < b → (∀ k, b ≠ a ++ List.replicate k ' ') →
      2 ≤ n → n ≤ 9025 →
        (lexInterpolate a b n).length = n - 1 ∧ (lexInterpolate a b n).Pairwise (· < ·) ∧
          ∀ s ∈ lexInterpolate a b n, a < s ∧ s < b) ∧
    ∀ s : GoStr, ∀ length, Printable s → s ≠ [] → s.getLast? ≠ some ' ' → s.length ≤ length →
      base95IntToString (stringToBase95Int s length) length = s :=
  ⟨fun _ _ _ ha hb hab hspaces hn hn' => lexInterpolate_between ha hb hab hspaces hn hn',
    fun _ _ hs hne hlast h => base95IntToString_stringToBase95Int hs hne hlast h⟩

/-- Four points between `a` and `z`, and `ab` read back from four digits. -/
theorem lexInterpolate_a_z :
    ((lexInterpolate ['a'] ['z'] 5).length = 4 ∧ (lexInterpolate ['a'] ['z'] 5).Pairwise (· < ·) ∧
      ∀ s ∈ lexInterpolate ['a'] ['z'] 5, ['a'] < s ∧ s < ['z']) ∧
    base95IntToString (stringToBase95Int ['a', 'b'] 4) 4 = ['a', 'b'] := by
  refine ⟨lexInterpolate_spec.1 ['a'] ['z'] 5 (by decide) (by decide) (by decide) ?_ (by decide)
      (by decide),
    lexInterpolate_spec.2 ['a', 'b'] 4 (by decide) (by decide) (by decide) (by decide)⟩
  intro k h
  simp at h

end MultiStorageFileSystem
