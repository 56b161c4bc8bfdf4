/-
MultiStorageClient/SortedMap.lean

Maps whose keys are in order, as a B+Tree keeps them.

The pairs are a list in the order of the keys, and the order is part of the
type.  Two such maps with the same values are equal (`SortedMap.ext_get`).

A pair can be found by its position (`getByIndex`).  The position of the first
key from `k` on is the number of keys before `k` (`rank`), so the keys from `a`
to `b` have the positions from `rank a` to `rank b` (`getByIndex_rank`,
`exists_getByIndex`).
-/
import Mathlib

/-- A map from `κ` to `ν` with its keys in order. -/
@[ext] structure SortedMap (κ ν : Type*) [LinearOrder κ] where
  entries : List (κ × ν)
  sorted : entries.Pairwise fun a b => a.1 < b.1

namespace SortedMap

variable {κ ν : Type*} [LinearOrder κ] {m m' : SortedMap κ ν} {a b k k' : κ} {v v' : ν} {n : ℕ}

/-- No pairs. -/
def empty : SortedMap κ ν := ⟨[], List.Pairwise.nil⟩

instance : Inhabited (SortedMap κ ν) := ⟨empty⟩

/-- The value of a key. -/
def get (m : SortedMap κ ν) (k : κ) : Option ν :=
  (m.entries.find? fun e => e.1 = k).map Prod.snd

/-- The pair goes to its place; a pair with the same key goes. -/
def insert (m : SortedMap κ ν) (k : κ) (v : ν) : SortedMap κ ν where
  entries := m.entries.filter (fun e => e.1 < k) ++ (k, v) :: m.entries.filter fun e => k < e.1
  sorted := by
    rw [List.pairwise_append, List.pairwise_cons]
    refine ⟨m.sorted.filter _, ⟨fun e he => ?_, m.sorted.filter _⟩, fun e he e' he' => ?_⟩
    · exact of_decide_eq_true (List.mem_filter.mp he).2
    · have hlt : e.1 < k := of_decide_eq_true (List.mem_filter.mp he).2
      rcases List.mem_cons.mp he' with rfl | he'
      · exact hlt
      · exact hlt.trans (of_decide_eq_true (List.mem_filter.mp he').2)

/-- The pair of a key goes. -/
def erase (m : SortedMap κ ν) (k : κ) : SortedMap κ ν where
  entries := m.entries.filter fun e => e.1 ≠ k
  sorted := m.sorted.filter _

/-- The pair at a position. -/
def getByIndex (m : SortedMap κ ν) (n : ℕ) : Option (κ × ν) := m.entries[n]?

/-- The number of keys before `k`. -/
def rank (m : SortedMap κ ν) (k : κ) : ℕ := m.entries.countP fun e => e.1 < k

/-! ### Values -/

/-- What is found is an entry. -/
theorem get_eq_some : m.get k = some v ↔ (k, v) ∈ m.entries := by
  unfold get
  rw [Option.map_eq_some_iff]
  constructor
  · rintro ⟨e, hfind, rfl⟩
    have hkey : e.1 = k := by simpa using List.find?_some hfind
    rw [← hkey]
    exact List.mem_of_find?_eq_some hfind
  · intro hmem
    obtain ⟨e, hfind⟩ : ∃ e, m.entries.find? (fun e => e.1 = k) = some e :=
      Option.isSome_iff_exists.mp
        (List.find?_isSome.mpr ⟨(k, v), hmem, decide_eq_true rfl⟩)
    refine ⟨e, hfind, ?_⟩
    have hkey : e.1 = k := by simpa using List.find?_some hfind
    -- two pairs with one key would have to be in order
    obtain ⟨i, hi, rfl⟩ := List.mem_iff_getElem.mp (List.mem_of_find?_eq_some hfind)
    obtain ⟨j, hj, hget⟩ := List.mem_iff_getElem.mp hmem
    have hlt := List.pairwise_iff_getElem.mp m.sorted
    rcases lt_trichotomy i j with hij | rfl | hij
    · have := hlt i j hi hj hij
      rw [hget, hkey] at this
      exact absurd this (lt_irrefl _)
    · rw [hget]
    · have := hlt j i hj hi hij
      rw [hget, hkey] at this
      exact absurd this (lt_irrefl _)

theorem get_eq_none : m.get k = none ↔ ∀ v, (k, v) ∉ m.entries := by
  rw [Option.eq_none_iff_forall_ne_some]
  exact forall_congr' fun v => not_congr get_eq_some

/-- **A map is determined by its values.** -/
theorem ext_get (h : ∀ k, m.get k = m'.get k) : m = m' := by
  apply SortedMap.ext
  have hirrefl : Std.Irrefl fun a b : κ × ν => a.1 < b.1 := ⟨fun a => lt_irrefl a.1⟩
  have hanti : Std.Antisymm fun a b : κ × ν => a.1 < b.1 :=
    ⟨fun a b hab hba => absurd (hab.trans hba) (lt_irrefl _)⟩
  apply List.Pairwise.eq_of_mem_iff m.sorted m'.sorted
  rintro ⟨k, v⟩
  rw [← get_eq_some, ← get_eq_some, h k]

@[simp] theorem get_empty : (empty : SortedMap κ ν).get k = none := rfl

/-- The entries after an insertion. -/
theorem mem_insert {e : κ × ν} :
    e ∈ (m.insert k v).entries ↔ e = (k, v) ∨ e.1 ≠ k ∧ e ∈ m.entries := by
  simp only [insert, List.mem_append, List.mem_cons, List.mem_filter, decide_eq_true_eq]
  constructor
  · rintro (⟨he, hlt⟩ | rfl | ⟨he, hlt⟩)
    · exact .inr ⟨ne_of_lt hlt, he⟩
    · exact .inl rfl
    · exact .inr ⟨ne_of_gt hlt, he⟩
  · rintro (rfl | ⟨hne, he⟩)
    · exact .inr (.inl rfl)
    · rcases lt_or_gt_of_ne hne with hlt | hlt
      · exact .inl ⟨he, hlt⟩
      · exact .inr (.inr ⟨he, hlt⟩)

@[simp] theorem get_insert_self : (m.insert k v).get k = some v :=
  get_eq_some.mpr (mem_insert.mpr (.inl rfl))

theorem get_insert_of_ne (h : k' ≠ k) : (m.insert k v).get k' = m.get k' := by
  apply Option.ext
  intro v'
  rw [get_eq_some, get_eq_some, mem_insert]
  constructor
  · rintro (heq | ⟨-, hmem⟩)
    · exact absurd (congrArg Prod.fst heq) h
    · exact hmem
  · exact fun hmem => .inr ⟨h, hmem⟩

theorem get_insert : (m.insert k v).get k' = if k' = k then some v else m.get k' := by
  split
  next h => rw [h, get_insert_self]
  next h => exact get_insert_of_ne h

/-- Pairs with different keys, one after the other. -/
theorem mem_foldl_insert {l : List (κ × ν)} (hl : (l.map Prod.fst).Nodup) {e : κ × ν} :
    e ∈ (l.foldl (fun m e => m.insert e.1 e.2) m).entries ↔
      e ∈ l ∨ e ∈ m.entries ∧ e.1 ∉ l.map Prod.fst := by
  induction l generalizing m with
  | nil => simp
  | cons e' l ih =>
      obtain ⟨hnot, hl⟩ := List.nodup_cons.mp hl
      rw [List.foldl_cons, ih hl, mem_insert, List.mem_cons, List.map_cons, List.mem_cons, not_or]
      constructor
      · rintro (he | ⟨rfl | ⟨hne, he⟩, hkey⟩)
        · exact .inl (.inr he)
        · exact .inl (.inl rfl)
        · exact .inr ⟨he, hne, hkey⟩
      · rintro ((rfl | he) | ⟨he, hne, hkey⟩)
        · exact .inr ⟨.inl rfl, hnot⟩
        · exact .inl he
        · exact .inr ⟨.inr ⟨hne, he⟩, hkey⟩

/-- **A map is built again** from its pairs, in any order. -/
theorem foldl_insert_of_perm {l : List (κ × ν)} (h : l.Perm m.entries) :
    l.foldl (fun m e => m.insert e.1 e.2) empty = m := by
  have hkeys : (l.map Prod.fst).Nodup := by
    refine (h.map Prod.fst).nodup_iff.mpr (List.pairwise_map.mpr ?_)
    exact m.sorted.imp fun hlt => ne_of_lt hlt
  apply ext_get
  intro k
  apply Option.ext
  intro v
  rw [get_eq_some, get_eq_some, mem_foldl_insert hkeys, h.mem_iff]
  exact or_iff_left fun he => List.not_mem_nil he.1

theorem mem_erase {e : κ × ν} : e ∈ (m.erase k).entries ↔ e ∈ m.entries ∧ e.1 ≠ k := by
  simp only [erase, List.mem_filter, decide_eq_true_eq]

@[simp] theorem get_erase_self : (m.erase k).get k = none :=
  get_eq_none.mpr fun _ hmem => (mem_erase.mp hmem).2 rfl

theorem get_erase_of_ne (h : k' ≠ k) : (m.erase k).get k' = m.get k' := by
  apply Option.ext
  intro v'
  rw [get_eq_some, get_eq_some, mem_erase]
  exact and_iff_left h

theorem get_erase : (m.erase k).get k' = if k' = k then none else m.get k' := by
  split
  next h => rw [h, get_erase_self]
  next h => exact get_erase_of_ne h

/-! ### Positions -/

theorem get_of_getByIndex (h : m.getByIndex n = some (k, v)) : m.get k = some v :=
  get_eq_some.mpr (List.mem_of_getElem? h)

/-- The keys before the one at position `n` are those at the positions before. -/
theorem rank_of_getByIndex (h : m.getByIndex n = some (k, v)) : m.rank k = n := by
  obtain ⟨hn, hget⟩ := List.getElem?_eq_some_iff.mp h
  unfold rank
  have hsplit : m.entries = m.entries.take n ++ m.entries.drop n :=
    (List.take_append_drop n _).symm
  rw [hsplit, List.countP_append, List.countP_eq_length.mpr, List.countP_eq_zero.mpr,
    List.length_take, Nat.add_zero, Nat.min_eq_left (le_of_lt hn)]
  · intro e he
    rw [decide_eq_true_eq, not_lt]
    obtain ⟨j, hj, rfl⟩ := List.mem_iff_getElem.mp he
    rw [List.getElem_drop]
    rcases Nat.eq_zero_or_pos j with rfl | hpos
    · simp only [Nat.add_zero, hget, le_refl]
    · have hlt := List.pairwise_iff_getElem.mp m.sorted n (n + j) hn
        (by rw [List.length_drop] at hj; omega) (by omega)
      rw [hget] at hlt
      exact le_of_lt hlt
  · intro e he
    rw [decide_eq_true_eq]
    obtain ⟨j, hj, rfl⟩ := List.mem_iff_getElem.mp he
    rw [List.getElem_take]
    have hjn : j < n := by
      rw [List.length_take] at hj
      omega
    have hlt := List.pairwise_iff_getElem.mp m.sorted j n (by omega) hn hjn
    rw [hget] at hlt
    exact hlt

/-- Every pair has its position. -/
theorem getByIndex_rank (h : m.get k = some v) : m.getByIndex (m.rank k) = some (k, v) := by
  obtain ⟨n, hn, hget⟩ := List.mem_iff_getElem.mp (get_eq_some.mp h)
  have hat : m.getByIndex n = some (k, v) := List.getElem?_eq_some_iff.mpr ⟨hn, hget⟩
  rw [rank_of_getByIndex hat]
  exact hat

theorem rank_le (h : a ≤ b) : m.rank a ≤ m.rank b := by
  apply List.countP_mono_left
  intro e _ he
  rw [decide_eq_true_eq] at he ⊢
  exact lt_of_lt_of_le he h

/-- A key that is there is before the larger ones. -/
theorem rank_lt (h : m.get k = some v) (hk : k < b) : m.rank k < m.rank b := by
  by_contra hle
  have hat := getByIndex_rank h
  -- the keys before `b` would be among those before `k`, yet `k` is one of them
  have hcount : m.entries.countP (fun e => e.1 < k) + 1 ≤ m.entries.countP fun e => e.1 < b := by
    have hperm := List.countP_eq_countP_filter_add m.entries (fun e => decide (e.1 < b))
      fun e => decide (e.1 < k)
    rw [hperm]
    have h₁ : (m.entries.filter fun e => decide (e.1 < k)).countP (fun e => decide (e.1 < b))
        = m.entries.countP fun e => e.1 < k := by
      rw [List.countP_eq_length_filter (l := m.entries)]
      apply List.countP_eq_length.mpr
      intro e he
      exact decide_eq_true ((of_decide_eq_true (List.mem_filter.mp he).2 : e.1 < k).trans hk)
    rw [h₁]
    apply Nat.add_le_add_left
    apply List.countP_pos_iff.mpr
    refine ⟨(k, v), List.mem_filter.mpr ⟨get_eq_some.mp h, ?_⟩, decide_eq_true hk⟩
    simp
  unfold rank at hle
  omega

/-- **The keys from `a` to `b`** have the positions from `rank a` to `rank b`. -/
theorem getByIndex_mem (h : m.getByIndex n = some (k, v)) (ha : m.rank a ≤ n)
    (hb : n < m.rank b) : a ≤ k ∧ k < b := by
  have hrank := rank_of_getByIndex h
  constructor
  · by_contra hlt
    have := rank_lt (get_of_getByIndex h) (not_le.mp hlt)
    omega
  · by_contra hle
    have := rank_le (m := m) (not_lt.mp hle)
    omega

theorem exists_getByIndex (h : n < m.rank b) : ∃ k v, m.getByIndex n = some (k, v) := by
  have hlt : n < m.entries.length := lt_of_lt_of_le h List.countP_le_length
  exact ⟨_, _, List.getElem?_eq_some_iff.mpr ⟨hlt, rfl⟩⟩

/-- The position of a key depends on the keys before it. -/
theorem rank_congr (h : ∀ k < a, m.get k = m'.get k) : m.rank a = m'.rank a := by
  have hirrefl : Std.Irrefl fun a b : κ × ν => a.1 < b.1 := ⟨fun a => lt_irrefl a.1⟩
  have hanti : Std.Antisymm fun a b : κ × ν => a.1 < b.1 :=
    ⟨fun a b hab hba => absurd (hab.trans hba) (lt_irrefl _)⟩
  have heq : (m.entries.filter fun e => e.1 < a) = m'.entries.filter fun e => e.1 < a := by
    apply List.Pairwise.eq_of_mem_iff (m.sorted.filter _) (m'.sorted.filter _)
    rintro ⟨k, v⟩
    rw [List.mem_filter, List.mem_filter, ← get_eq_some, ← get_eq_some]
    exact and_congr_left fun hk => by rw [h k (of_decide_eq_true hk)]
  unfold rank
  rw [List.countP_eq_length_filter, List.countP_eq_length_filter, heq]

/-! ### Ranges -/

/-- The pairs with the keys from `a` to `b`, in order. -/
def range (m : SortedMap κ ν) (a b : κ) : List (κ × ν) :=
  (m.entries.drop (m.rank a)).take (m.rank b - m.rank a)

theorem range_sorted : (m.range a b).Pairwise fun e e' => e.1 < e'.1 :=
  (m.sorted.sublist (List.drop_sublist ..)).sublist (List.take_sublist ..)

/-- A pair of a range by its position. -/
theorem range_getElem? (hn : n < m.rank b - m.rank a) :
    (m.range a b)[n]? = m.getByIndex (m.rank a + n) := by
  unfold range getByIndex
  rw [List.getElem?_take_of_lt hn, List.getElem?_drop]

theorem length_range : (m.range a b).length = m.rank b - m.rank a := by
  have hle : m.rank b ≤ m.entries.length := List.countP_le_length
  unfold range
  rw [List.length_take, List.length_drop]
  omega

/-- **The pairs of a range.** -/
theorem mem_range : (k, v) ∈ m.range a b ↔ m.get k = some v ∧ a ≤ k ∧ k < b := by
  rw [List.mem_iff_getElem?]
  constructor
  · rintro ⟨n, hn⟩
    have hlt : n < m.rank b - m.rank a := by
      rw [← length_range (m := m) (a := a) (b := b)]
      exact (List.getElem?_eq_some_iff.mp hn).1
    rw [range_getElem? hlt] at hn
    exact ⟨get_of_getByIndex hn, getByIndex_mem hn (by omega) (by omega)⟩
  · rintro ⟨hget, ha, hb⟩
    have h₁ := rank_le (m := m) ha
    have h₂ := rank_lt hget hb
    refine ⟨m.rank k - m.rank a, ?_⟩
    rw [range_getElem? (by omega), Nat.add_sub_cancel' h₁]
    exact getByIndex_rank hget

/-- There is no key from `a` to `b` if no position is between theirs. -/
theorem rank_eq_iff (h : a ≤ b) : m.rank a = m.rank b ↔ ∀ k, a ≤ k → k < b → m.get k = none := by
  constructor
  · intro heq k ha hb
    by_contra hne
    obtain ⟨v, hv⟩ := Option.ne_none_iff_exists'.mp hne
    have h₁ := rank_le (m := m) ha
    have h₂ := rank_lt hv hb
    omega
  · intro hnone
    apply le_antisymm (rank_le h)
    by_contra hlt
    obtain ⟨k, v, hat⟩ := exists_getByIndex (not_le.mp hlt)
    obtain ⟨ha, hb⟩ := getByIndex_mem hat le_rfl (not_le.mp hlt)
    have hget := hnone k ha hb
    rw [get_of_getByIndex hat] at hget
    cases hget

end SortedMap
