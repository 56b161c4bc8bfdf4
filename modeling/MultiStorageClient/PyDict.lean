/-
MultiStorageClient/PyDict.lean

Python dictionaries: finite maps that remember the order of insertion.

A dictionary is the list of its entries with distinct keys.  Assigning to a
key that is present replaces the value where it stands, assigning to a new
key appends.  Everything a program can observe of a dictionary apart from its
order is `get?`, and each operation has one lemma that says what it does to
`get?`.
-/
import Mathlib

/-- A dictionary with keys `κ` and values `β`, in the order of insertion. -/
structure PyDict (κ β : Type*) where
  entries : List (κ × β)
  nodup : (entries.map Prod.fst).Nodup

namespace PyDict

variable {κ β : Type*} [DecidableEq κ]

/-! ### Operations -/

/-- The empty dictionary. -/
def empty : PyDict κ β := ⟨[], List.nodup_nil⟩

instance : Inhabited (PyDict κ β) := ⟨empty⟩

/-- `d.get(k)` on the entries of a dictionary. -/
def find (k : κ) : List (κ × β) → Option β
  | [] => none
  | (k', v) :: es => if k' = k then some v else find k es

/-- `d[k] = v` on the entries of a dictionary. -/
def assign (k : κ) (v : β) : List (κ × β) → List (κ × β)
  | [] => [(k, v)]
  | (k', w) :: es => if k' = k then (k, v) :: es else (k', w) :: assign k v es

/-- An assigned key keeps its place, or comes last. -/
theorem keys_assign (k : κ) (v : β) (es : List (κ × β)) :
    (assign k v es).map Prod.fst =
      if k ∈ es.map Prod.fst then es.map Prod.fst else es.map Prod.fst ++ [k] := by
  induction es with
  | nil => rfl
  | cons e es ih =>
      obtain ⟨k', w⟩ := e
      by_cases h : k' = k
      · simp [assign, h]
      · have hk : ¬ k = k' := fun e => h e.symm
        simp only [assign, h, if_false, List.map_cons, ih, List.mem_cons, hk, false_or]
        split <;> rfl

theorem nodup_assign (k : κ) (v : β) {es : List (κ × β)} (h : (es.map Prod.fst).Nodup) :
    ((assign k v es).map Prod.fst).Nodup := by
  rw [keys_assign]
  split
  · exact h
  · next hk => exact h.append (List.nodup_singleton k) (by simpa using hk)

/-- The value at a key. -/
def get? (d : PyDict κ β) (k : κ) : Option β := find k d.entries

/-- `k in d` -/
def contains (d : PyDict κ β) (k : κ) : Bool := (d.get? k).isSome

/-- `d[k] = v` -/
def set (d : PyDict κ β) (k : κ) (v : β) : PyDict κ β :=
  ⟨assign k v d.entries, nodup_assign k v d.nodup⟩

/-- `d.pop(k)`, for a key that is present. -/
def pop (d : PyDict κ β) (k : κ) : PyDict κ β :=
  ⟨d.entries.filter fun e => e.1 ≠ k, d.nodup.sublist ((List.filter_sublist).map Prod.fst)⟩

/-- Assign a list of entries one after the other. -/
def setAll (d : PyDict κ β) (es : List (κ × β)) : PyDict κ β :=
  es.foldl (fun d e => d.set e.1 e.2) d

/-- `d.update(d')` -/
def update (d d' : PyDict κ β) : PyDict κ β := d.setAll d'.entries

/-- `dict(es)` -/
def ofList (es : List (κ × β)) : PyDict κ β := empty.setAll es

/-- `list(d.values())` -/
def values (d : PyDict κ β) : List β := d.entries.map Prod.snd

/-- `{k: f(v) for k, v in d.items()}` -/
def mapValues {γ : Type*} (f : β → γ) (d : PyDict κ β) : PyDict κ γ :=
  ⟨d.entries.map fun e => (e.1, f e.2), by simpa [Function.comp_def] using d.nodup⟩

/-- `not d` -/
def isEmpty (d : PyDict κ β) : Bool := d.entries.isEmpty

/-! ### What the operations do to `get?` -/

@[simp] theorem get?_empty (k : κ) : (empty : PyDict κ β).get? k = none := rfl

/-- An assigned key has its new value. -/
theorem find_assign (k k' : κ) (v : β) (es : List (κ × β)) :
    find k' (assign k v es) = if k' = k then some v else find k' es := by
  induction es with
  | nil =>
      by_cases h : k = k' <;> simp [assign, find, h, eq_comm]
  | cons e es ih =>
      obtain ⟨k₁, w⟩ := e
      by_cases h₁ : k₁ = k
      · subst h₁
        by_cases h : k₁ = k'
        · simp [assign, find, h]
        · simp [assign, find, h, Ne.symm h]
      · by_cases h : k₁ = k'
        · subst h
          simp [assign, find, h₁]
        · simp [assign, find, h₁, h, ih]

theorem get?_set (d : PyDict κ β) (k k' : κ) (v : β) :
    (d.set k v).get? k' = if k' = k then some v else d.get? k' :=
  find_assign k k' v d.entries

@[simp] theorem get?_set_self (d : PyDict κ β) (k : κ) (v : β) : (d.set k v).get? k = some v := by
  rw [get?_set, if_pos rfl]

theorem find_eq_none_iff {k : κ} {es : List (κ × β)} :
    find k es = none ↔ k ∉ es.map Prod.fst := by
  induction es with
  | nil => simp [find]
  | cons e es ih =>
      obtain ⟨k', v⟩ := e
      by_cases h : k' = k
      · simp [find, h]
      · simp [find, h, ih, Ne.symm h]

/-- What is found is an entry. -/
theorem mem_of_find {k : κ} {v : β} {es : List (κ × β)} (h : find k es = some v) : (k, v) ∈ es := by
  induction es with
  | nil => cases h
  | cons e es ih =>
      obtain ⟨k', w⟩ := e
      rw [find] at h
      split at h
      next hk =>
        rw [hk, Option.some.inj h]
        exact List.mem_cons_self
      next => exact List.mem_cons_of_mem _ (ih h)

/-- With distinct keys, what is an entry is found. -/
theorem find_eq_some_iff {k : κ} {v : β} {es : List (κ × β)} (h : (es.map Prod.fst).Nodup) :
    find k es = some v ↔ (k, v) ∈ es := by
  induction es with
  | nil => simp [find]
  | cons e es ih =>
      obtain ⟨k', w⟩ := e
      obtain ⟨hk', hes⟩ := List.nodup_cons.mp h
      by_cases hk : k' = k
      · subst hk
        have hnot : (k', v) ∉ es := fun hm => hk' (List.mem_map.mpr ⟨(k', v), hm, rfl⟩)
        simp [find, hnot, eq_comm]
      · simp [find, hk, ih hes, Ne.symm hk]

theorem find_append (k : κ) (es fs : List (κ × β)) :
    find k (es ++ fs) = (find k es).or (find k fs) := by
  induction es with
  | nil => simp [find]
  | cons e es ih =>
      obtain ⟨k', v⟩ := e
      by_cases h : k' = k <;> simp [find, h, ih]

/-- A removed key is not found. -/
theorem find_filter_ne (k k' : κ) (es : List (κ × β)) :
    find k' (es.filter fun e => e.1 ≠ k) = if k' = k then none else find k' es := by
  induction es with
  | nil => simp [find]
  | cons e es ih =>
      obtain ⟨k₁, v⟩ := e
      by_cases h₁ : k₁ = k
      · subst h₁
        rw [List.filter_cons_of_neg (by simp), ih]
        by_cases h : k' = k₁
        · simp [h]
        · simp [find, h, Ne.symm h]
      · rw [List.filter_cons_of_pos (by simpa using h₁), find, ih]
        by_cases h : k₁ = k'
        · subst h
          simp [find, h₁]
        · simp [find, h]

/-- Values are mapped key by key. -/
theorem get?_mapValues {γ : Type*} (f : β → γ) (d : PyDict κ β) (k : κ) :
    (d.mapValues f).get? k = (d.get? k).map f := by
  unfold get? mapValues
  dsimp only
  induction d.entries with
  | nil => rfl
  | cons e es ih =>
      obtain ⟨k', v⟩ := e
      rw [List.map_cons, find, find]
      split
      · rfl
      · exact ih

theorem get?_eq_some_iff {d : PyDict κ β} {k : κ} {v : β} :
    d.get? k = some v ↔ (k, v) ∈ d.entries :=
  find_eq_some_iff d.nodup

theorem get?_eq_none_iff {d : PyDict κ β} {k : κ} :
    d.get? k = none ↔ k ∉ d.entries.map Prod.fst :=
  find_eq_none_iff

theorem get?_pop (d : PyDict κ β) (k k' : κ) :
    (d.pop k).get? k' = if k' = k then none else d.get? k' :=
  find_filter_ne k k' d.entries

/-- Popping several keys. -/
theorem get?_foldl_pop (d : PyDict κ β) (ks : List κ) (k : κ) :
    (ks.foldl pop d).get? k = if k ∈ ks then none else d.get? k := by
  induction ks generalizing d with
  | nil => simp
  | cons k' ks ih =>
      rw [List.foldl_cons, ih, get?_pop]
      by_cases h : k = k'
      · simp [h]
      · simp [h]

/-- After a list of assignments with distinct keys, each key has the value it
was assigned. -/
theorem get?_setAll (d : PyDict κ β) {es : List (κ × β)} (h : (es.map Prod.fst).Nodup) (k : κ) :
    (d.setAll es).get? k = (find k es).or (d.get? k) := by
  induction es generalizing d with
  | nil => simp [setAll, find]
  | cons e es ih =>
      obtain ⟨k', v⟩ := e
      obtain ⟨hk', hes⟩ := List.nodup_cons.mp h
      have hcons : d.setAll ((k', v) :: es) = (d.set k' v).setAll es := rfl
      rw [hcons, ih (d.set k' v) hes, get?_set]
      by_cases hk : k = k'
      · subst hk
        rw [find_eq_none_iff.mpr hk']
        simp [find]
      · simp [find, hk, Ne.symm hk]

/-- What a list of assignments leaves in the dictionary was there before or
is one of them. -/
theorem get?_setAll_eq_some {d : PyDict κ β} {es : List (κ × β)} {k : κ} {v : β}
    (h : (d.setAll es).get? k = some v) : (k, v) ∈ es ∨ d.get? k = some v := by
  induction es generalizing d with
  | nil => exact .inr h
  | cons e es ih =>
      have hcons : d.setAll (e :: es) = (d.set e.1 e.2).setAll es := rfl
      rw [hcons] at h
      rcases ih h with h | h
      · exact .inl (List.mem_cons_of_mem e h)
      · rw [get?_set] at h
        split at h
        · next hk =>
            rw [hk, ← Option.some.inj h]
            exact .inl List.mem_cons_self
        · exact .inr h

theorem mem_of_get?_ofList {es : List (κ × β)} {k : κ} {v : β}
    (h : (ofList es).get? k = some v) : (k, v) ∈ es :=
  (get?_setAll_eq_some h).resolve_right (by simp)

theorem get?_update (d d' : PyDict κ β) (k : κ) :
    (d.update d').get? k = (d'.get? k).or (d.get? k) :=
  get?_setAll d d'.nodup k

theorem get?_ofList {es : List (κ × β)} (h : (es.map Prod.fst).Nodup) (k : κ) :
    (ofList es).get? k = find k es := by
  rw [ofList, get?_setAll empty h, get?_empty, Option.or_none]

theorem assign_of_not_mem {k : κ} {v : β} {es : List (κ × β)} (h : k ∉ es.map Prod.fst) :
    assign k v es = es ++ [(k, v)] := by
  induction es with
  | nil => rfl
  | cons e es ih =>
      obtain ⟨k', w⟩ := e
      have hk : k' ≠ k := fun he => h (by simp [he])
      have hes : k ∉ es.map Prod.fst := fun hm => h (List.mem_cons_of_mem _ hm)
      simp [assign, hk, ih hes]

/-- What is assigned to a new key is removed again. -/
theorem filter_assign {k : κ} {v : β} {es : List (κ × β)} (h : find k es = none) :
    ((assign k v es).filter fun e => e.1 ≠ k) = es := by
  have hnot := find_eq_none_iff.mp h
  rw [assign_of_not_mem hnot, List.filter_append, List.filter_cons_of_neg (by simp),
    List.filter_nil, List.append_nil, List.filter_eq_self]
  intro e he
  refine decide_eq_true fun heq => hnot ?_
  rw [← heq]
  exact List.mem_map_of_mem he

/-- Assigning the value that is there changes nothing. -/
theorem assign_self {k : κ} {v : β} {es : List (κ × β)} (h : find k es = some v) :
    assign k v es = es := by
  induction es with
  | nil => cases h
  | cons e es ih =>
      obtain ⟨k', w⟩ := e
      rw [find] at h
      rw [assign]
      split
      next hk => rw [if_pos hk] at h; rw [hk, Option.some.inj h]
      next hk => rw [if_neg hk] at h; rw [ih h]

theorem assign_assign (k : κ) (v w : β) (es : List (κ × β)) :
    assign k v (assign k w es) = assign k v es := by
  induction es with
  | nil => simp [assign]
  | cons e es ih =>
      obtain ⟨k', u⟩ := e
      by_cases hk : k' = k
      · simp [assign, hk]
      · simp [assign, hk, ih]

/-- Entries with new and distinct keys are appended in order. -/
theorem entries_setAll {d : PyDict κ β} {es : List (κ × β)}
    (h : ((d.entries ++ es).map Prod.fst).Nodup) : (d.setAll es).entries = d.entries ++ es := by
  induction es generalizing d with
  | nil => simp [setAll]
  | cons e es ih =>
      obtain ⟨k, v⟩ := e
      have hk : k ∉ d.entries.map Prod.fst := by
        rw [List.map_append, List.nodup_append] at h
        exact fun hm => h.2.2 k hm k (by simp) rfl
      have hset : (d.set k v).entries = d.entries ++ [(k, v)] := assign_of_not_mem hk
      have ih' := ih (d := d.set k v) (by rw [hset]; simpa using h)
      rw [hset] at ih'
      simpa [setAll] using ih'

/-- Assigning to a new key adds an entry. -/
theorem length_set {d : PyDict κ β} {k : κ} {v : β} (h : d.get? k = none) :
    (d.set k v).entries.length = d.entries.length + 1 := by
  have hset : (d.set k v).entries = d.entries ++ [(k, v)] :=
    assign_of_not_mem (get?_eq_none_iff.mp h)
  rw [hset, List.length_append]
  rfl

/-- Popping a key that is present removes an entry. -/
theorem length_pop_lt {d : PyDict κ β} {k : κ} {v : β} (h : d.get? k = some v) :
    (d.pop k).entries.length < d.entries.length := by
  refine List.length_filter_lt_length_iff_exists.mpr ⟨(k, v), get?_eq_some_iff.mp h, ?_⟩
  simp

theorem entries_ofList {es : List (κ × β)} (h : (es.map Prod.fst).Nodup) :
    (ofList es).entries = es := by
  have hes : ((empty : PyDict κ β).setAll es).entries = (empty : PyDict κ β).entries ++ es :=
    entries_setAll (by simpa [empty] using h)
  simpa [ofList, empty] using hes

theorem contains_set {d : PyDict κ β} {k k' : κ} {v : β} :
    (d.set k v).contains k' = true ↔ k' = k ∨ d.contains k' = true := by
  rw [contains, contains, get?_set]
  by_cases h : k' = k <;> simp [h]

theorem contains_iff_mem {d : PyDict κ β} {k : κ} :
    d.contains k = true ↔ k ∈ d.entries.map Prod.fst := by
  rw [contains, Option.isSome_iff_ne_none, ne_eq, get?_eq_none_iff, not_not]

/-- An empty dictionary has no key. -/
theorem isEmpty_iff {d : PyDict κ β} : d.isEmpty = true ↔ ∀ k, d.get? k = none := by
  rw [isEmpty, List.isEmpty_iff]
  constructor
  · intro h k
    rw [get?_eq_none_iff, h]
    exact List.not_mem_nil
  · intro h
    refine List.eq_nil_iff_forall_not_mem.mpr fun e he => ?_
    have hk := get?_eq_none_iff.mp (h e.1)
    exact hk (List.mem_map_of_mem he)

end PyDict
