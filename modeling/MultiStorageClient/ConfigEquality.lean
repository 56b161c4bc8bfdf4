/-
MultiStorageClient/ConfigEquality.lean

When Python calls two configurations equal, and what is found on a path.

Scalars are equal if their keys are (`True`, `1` and `1.0` have one key).  NaN is not
equal to itself; a list or a dictionary that holds the same NaN object twice is, as
its values are compared by `is` before `==`.  Among configurations whose dictionaries
have distinct keys this is an equivalence (`same`).
-/
import MultiStorageClient.ConfigValue
import MultiStorageClient.PyFloat

namespace MultiStorageClient

/-- The scalars of a configuration file.  Of a float, `object` tells which object it is. -/
inductive PyScalar
  | none
  | bool (b : Bool)
  | int (n : ℤ)
  | float (x : Float) (object : ℕ)
  | str (s : PyStr)

/-- What `==` compares of a scalar. -/
inductive ScalarKey
  | none
  | number (q : ℚ)
  | infinity (negative : Bool)
  | nan (object : ℕ)
  | str (s : PyStr)
  deriving DecidableEq

/-- The values of a configuration file. -/
abbrev ConfigData := ConfigValue PyScalar

/-- The entries of a dictionary in a configuration file. -/
abbrev ConfigEntries := List (PyStr × ConfigData)

namespace PyScalar

/-- Booleans are numbers, and numbers are compared exactly. -/
def key : PyScalar → ScalarKey
  | none => .none
  | bool b => .number (if b then 1 else 0)
  | int n => .number n
  | float x object =>
      match PyFloat.toRat? x with
      | some q => .number q
      | Option.none => if x.isNaN then .nan object else .infinity (x < 0)
  | str s => .str s

/-- The scalar is not equal to itself. -/
def isNaN (s : PyScalar) : Bool :=
  match s.key with
  | .nan _ => true
  | _ => false

end PyScalar

namespace ConfigValue

/-! ### Equality -/

mutual

/-- `v is w or v == w` -/
def same : ConfigData → ConfigData → Bool
  | .scalar s, .scalar t => s.key = t.key
  | .list items, .list items' => sameItems items items'
  | .dict entries, .dict entries' =>
      entries.length = entries'.length && sameEntries entries entries'
  | _, _ => false

/-- `same`, item by item. -/
def sameItems : List ConfigData → List ConfigData → Bool
  | [], [] => true
  | v :: items, w :: items' => same v w && sameItems items items'
  | _, _ => false

/-- Every key is in the other dictionary, with the same value. -/
def sameEntries : ConfigEntries → ConfigEntries → Bool
  | [], _ => true
  | (key, v) :: entries, entries' =>
      (match PyDict.find key entries' with
        | some w => same v w
        | none => false) && sameEntries entries entries'

end

/-- The value is not equal to itself. -/
def isNaN : ConfigData → Bool
  | .scalar s => s.isNaN
  | _ => false

/-- `v == w` -/
def eq (v w : ConfigData) : Bool := same v w && !v.isNaN

mutual

/-- The keys of a dictionary are distinct. -/
def distinct : ConfigData → Bool
  | .scalar _ => true
  | .list items => distinctItems items
  | .dict entries => decide (entries.map Prod.fst).Nodup && distinctEntries entries

/-- `distinct`, for every item. -/
def distinctItems : List ConfigData → Bool
  | [] => true
  | v :: items => distinct v && distinctItems items

/-- `distinct`, for every value. -/
def distinctEntries : ConfigEntries → Bool
  | [] => true
  | (_, v) :: entries => distinct v && distinctEntries entries

end

variable {v w u : ConfigData} {items items' items'' : List ConfigData}
  {entries entries' : ConfigEntries}
  {key : PyStr}

theorem distinctItems_iff : distinctItems items = true ↔ ∀ v ∈ items, distinct v = true := by
  induction items with
  | nil => simp [distinctItems]
  | cons v items ih => simp [distinctItems, ih]

theorem distinctEntries_iff :
    distinctEntries entries = true ↔ ∀ e ∈ entries, distinct e.2 = true := by
  induction entries with
  | nil => simp [distinctEntries]
  | cons e entries ih => simp [distinctEntries, ih]

theorem distinct_dict_iff : distinct (.dict entries) = true ↔
    (entries.map Prod.fst).Nodup ∧ ∀ e ∈ entries, distinct e.2 = true := by
  rw [distinct, Bool.and_eq_true, decide_eq_true_iff, distinctEntries_iff]

theorem distinct_of_find (h : distinct (.dict entries) = true)
    (hfind : PyDict.find key entries = some v) :
    distinct v = true := by
  obtain ⟨hnodup, hall⟩ := distinct_dict_iff.mp h
  exact hall _ ((PyDict.find_eq_some_iff hnodup).mp hfind)

theorem sameEntries_iff : sameEntries entries entries' = true ↔
    ∀ e ∈ entries, ∃ w, PyDict.find e.1 entries' = some w ∧ same e.2 w = true := by
  induction entries with
  | nil => simp [sameEntries]
  | cons e entries ih =>
      obtain ⟨key, v⟩ := e
      rw [sameEntries, Bool.and_eq_true, ih, List.forall_mem_cons]
      refine and_congr_left fun _ => ?_
      cases PyDict.find key entries' <;> simp

theorem rel_none_iff {α β : Type*} {r : α → β → Prop} {x : Option α} {y : Option β}
    (h : Option.Rel r x y) :
    x = none ↔ y = none := by
  cases h <;> simp

theorem exists_of_rel_some {α β : Type*} {r : α → β → Prop} {a : α} {y : Option β}
    (h : Option.Rel r (some a) y) : ∃ b, y = some b ∧ r a b := by
  cases h with
  | some h => exact ⟨_, rfl, h⟩

/-- Dictionaries with distinct keys are the same if what they have at every key is. -/
theorem same_dict_iff (h : (entries.map Prod.fst).Nodup) (h' : (entries'.map Prod.fst).Nodup) :
    same (.dict entries) (.dict entries') = true ↔ ∀ key,
      Option.Rel (fun v w => same v w = true) (PyDict.find key entries)
        (PyDict.find key entries') := by
  rw [same, Bool.and_eq_true, decide_eq_true_iff, sameEntries_iff]
  constructor
  · rintro ⟨hlength, hall⟩ key
    cases hv : PyDict.find key entries with
    | some v =>
        obtain ⟨w, hw, hsame⟩ := hall _ ((PyDict.find_eq_some_iff h).mp hv)
        rw [hw]
        exact .some hsame
    | none =>
        -- the keys are among those of the other, and there are as many of them
        have hsub : entries.map Prod.fst ⊆ entries'.map Prod.fst := by
          intro k hk
          obtain ⟨e, he, rfl⟩ := List.mem_map.mp hk
          obtain ⟨w, hw, -⟩ := hall e he
          by_contra hnot
          rw [PyDict.find_eq_none_iff.mpr hnot] at hw
          cases hw
        have hperm : (entries.map Prod.fst).Perm (entries'.map Prod.fst) :=
          (List.subperm_of_subset h hsub).perm_of_length_le (by simp [hlength])
        have hnot := PyDict.find_eq_none_iff.mp hv
        rw [PyDict.find_eq_none_iff.mpr fun hk => hnot (hperm.mem_iff.mpr hk)]
        exact .none
  · intro hall
    have hmem : ∀ k, k ∈ entries.map Prod.fst ↔ k ∈ entries'.map Prod.fst := by
      intro k
      rw [← not_iff_not, ← PyDict.find_eq_none_iff, ← PyDict.find_eq_none_iff]
      exact rel_none_iff (hall k)
    refine ⟨by simpa using ((List.perm_ext_iff_of_nodup h h').mpr hmem).length_eq, fun e he => ?_⟩
    have hfind : PyDict.find e.1 entries = some e.2 := (PyDict.find_eq_some_iff h).mpr he
    have hk := hall e.1
    rw [hfind] at hk
    exact exists_of_rel_some hk

mutual

theorem same_refl : ∀ v : ConfigData, distinct v = true → same v v = true
  | .scalar s, _ => decide_eq_true rfl
  | .list items, h => sameItems_refl items h
  | .dict entries, h => by
      obtain ⟨hnodup, hall⟩ := distinct_dict_iff.mp h
      rw [same, decide_eq_true rfl, Bool.true_and, sameEntries_iff]
      intro e he
      exact ⟨e.2, (PyDict.find_eq_some_iff hnodup).mpr he,
        sameEntries_refl entries (distinctEntries_iff.mpr hall) e he⟩

theorem sameItems_refl : ∀ items : List ConfigData, distinctItems items = true →
    sameItems items items = true
  | [], _ => rfl
  | v :: items, h => by
      obtain ⟨hv, hitems⟩ := Bool.and_eq_true_iff.mp h
      rw [sameItems, same_refl v hv, sameItems_refl items hitems]
      rfl

theorem sameEntries_refl : ∀ entries : ConfigEntries, distinctEntries entries = true →
    ∀ e ∈ entries, same e.2 e.2 = true
  | [], _ => nofun
  | (key, v) :: entries, h => by
      obtain ⟨hv, hentries⟩ := Bool.and_eq_true_iff.mp h
      intro e he
      rcases List.mem_cons.mp he with rfl | he
      · exact same_refl v hv
      · exact sameEntries_refl entries hentries e he

end

mutual

/-- Equality of values is symmetric. -/
theorem same_symm : ∀ v w : ConfigData, distinct v = true → distinct w = true → same v w = true →
    same w v = true
  | .scalar s, .scalar t, _, _, h => decide_eq_true (of_decide_eq_true h).symm
  | .list items, .list items', hv, hw, h => sameItems_symm items items' hv hw h
  | .dict entries, .dict entries', hv, hw, h => by
      obtain ⟨hnodup, hall⟩ := distinct_dict_iff.mp hv
      obtain ⟨hnodup', hall'⟩ := distinct_dict_iff.mp hw
      rw [same_dict_iff hnodup hnodup'] at h
      rw [same_dict_iff hnodup' hnodup]
      intro key
      have hkey := h key
      cases hfind : PyDict.find key entries with
      | none =>
          rw [(rel_none_iff hkey).mp hfind]
          exact .none
      | some v =>
          rw [hfind] at hkey
          obtain ⟨w, hw, hsame⟩ := exists_of_rel_some hkey
          have hmem := (PyDict.find_eq_some_iff hnodup).mp hfind
          rw [hw]
          exact .some (sameEntries_symm entries (distinctEntries_iff.mpr hall) _ hmem w
            (hall' _ ((PyDict.find_eq_some_iff hnodup').mp hw)) hsame)

theorem sameItems_symm : ∀ items items' : List ConfigData, distinctItems items = true →
    distinctItems items' = true → sameItems items items' = true → sameItems items' items = true
  | [], [], _, _, _ => rfl
  | v :: items, w :: items', h, h', hsame => by
      obtain ⟨hv, hitems⟩ := Bool.and_eq_true_iff.mp h
      obtain ⟨hw, hitems'⟩ := Bool.and_eq_true_iff.mp h'
      obtain ⟨hvw, hsame⟩ := Bool.and_eq_true_iff.mp hsame
      rw [sameItems, same_symm v w hv hw hvw, sameItems_symm items items' hitems hitems' hsame]
      rfl

theorem sameEntries_symm : ∀ entries : ConfigEntries, distinctEntries entries = true →
    ∀ e ∈ entries, ∀ w, distinct w = true → same e.2 w = true → same w e.2 = true
  | [], _ => nofun
  | (key, v) :: entries, h => by
      obtain ⟨hv, hentries⟩ := Bool.and_eq_true_iff.mp h
      intro e he w hw hsame
      rcases List.mem_cons.mp he with rfl | he
      · exact same_symm v w hv hw hsame
      · exact sameEntries_symm entries hentries e he w hw hsame

end

mutual

theorem same_trans : ∀ v w u : ConfigData, same v w = true → same w u = true → same v u = true
  | .scalar s, .scalar t, .scalar r, h, h' =>
      decide_eq_true ((of_decide_eq_true h).trans (of_decide_eq_true h'))
  | .list items, .list items', .list items'', h, h' => sameItems_trans items items' items'' h h'
  | .dict entries, .dict entries', .dict entries'', h, h' => by
      rw [same, Bool.and_eq_true, decide_eq_true_iff] at h h' ⊢
      exact ⟨h.1.trans h'.1, sameEntries_trans entries entries' entries'' h.2 h'.2⟩

theorem sameItems_trans : ∀ items items' items'' : List ConfigData, sameItems items items' = true →
    sameItems items' items'' = true → sameItems items items'' = true
  | [], [], [], _, _ => rfl
  | v :: items, w :: items', u :: items'', h, h' => by
      obtain ⟨hvw, hitems⟩ := Bool.and_eq_true_iff.mp h
      obtain ⟨hwu, hitems'⟩ := Bool.and_eq_true_iff.mp h'
      rw [sameItems, same_trans v w u hvw hwu, sameItems_trans items items' items'' hitems hitems']
      rfl

/-- Equality of entries is transitive. -/
theorem sameEntries_trans : ∀ entries entries' entries'' : ConfigEntries,
    sameEntries entries entries' = true → sameEntries entries' entries'' = true →
    sameEntries entries entries'' = true
  | [], _, _, _, _ => rfl
  | (key, v) :: entries, entries', entries'', h, h' => by
      obtain ⟨hkey, hentries⟩ := Bool.and_eq_true_iff.mp h
      rw [sameEntries, sameEntries_trans entries entries' entries'' hentries h', Bool.and_true]
      cases hfind : PyDict.find key entries' with
      | none => rw [hfind] at hkey; cases hkey
      | some w =>
          rw [hfind] at hkey
          obtain ⟨u, hu, hwu⟩ := sameEntries_iff.mp h' (key, w) (PyDict.mem_of_find hfind)
          rw [hu]
          exact same_trans v w u hkey hwu

end

end ConfigValue

end MultiStorageClient
