/-
MultiStorageClient/MergeNoOverwrite.lean

`merge_dictionaries_no_overwrite` of `utils.py`.

The entries of the second dictionary are put into the first one by one, and what is
in both is merged or noted as a conflict.  A loop of this kind ends without a
conflict exactly when the two agree on all paths, and has then merged them
(`MergesEntries`); the lemmas for one entry serve every loop of the kind.
-/
import MultiStorageClient.ConfigPaths

namespace MultiStorageClient

open PartialMaps ConfigValue ConfigNode

namespace ConfigMerge

mutual

/-- The body of the loop for a key that is in both dictionaries. -/
def mergeValue (allowIdempotent : Bool) (key : PyStr) :
    ConfigData → ConfigData → List PyStr → ConfigData × List PyStr
  | .dict dict2, .dict dict1, conflictedKeys =>
      let merged := mergeEntries allowIdempotent dict2 dict1 conflictedKeys
      (.dict merged.1, merged.2)
  | value2, value1, conflictedKeys =>
      if allowIdempotent && value1.eq value2 then (value1, conflictedKeys)
      else (value1, conflictedKeys ++ [key])

/-- The loop over `dict2.items()`. -/
def mergeEntries (allowIdempotent : Bool) :
    ConfigEntries → ConfigEntries → List PyStr → ConfigEntries × List PyStr
  | [], dict1, conflictedKeys => (dict1, conflictedKeys)
  | (key, value2) :: dict2, dict1, conflictedKeys =>
      match PyDict.find key dict1 with
      | none => mergeEntries allowIdempotent dict2 (PyDict.assign key value2 dict1) conflictedKeys
      | some value1 =>
          let merged := mergeValue allowIdempotent key value2 value1 conflictedKeys
          mergeEntries allowIdempotent dict2 (PyDict.assign key merged.1 dict1) merged.2

end

/-- `merge_dictionaries_no_overwrite` -/
def mergeDictionariesNoOverwrite (dict1 dict2 : Option ConfigEntries)
    (conflictedKeys : Option (List PyStr))
    (allowIdempotent : Bool) : ConfigEntries × List PyStr :=
  mergeEntries allowIdempotent (dict2.getD []) (dict1.getD []) (conflictedKeys.getD [])

/-! ### Loops that merge -/

variable {atomic : List PyStr → Bool} {key : PyStr} {v w u : ConfigData}
  {dict1 dict1' dict2 : ConfigEntries}
  {conflicts : List PyStr} {merged : ConfigEntries × List PyStr}

/-- What is done with two values: they are merged, or conflicts are noted and they do not agree. -/
structure MergesValue (atomic : List PyStr → Bool) (v w : ConfigData) (conflicts : List PyStr)
    (merged : ConfigData × List PyStr) : Prop where
  distinct : merged.1.distinct = true
  noted : (merged.2 = conflicts ∧ Merged atomic v w merged.1) ∨
    (∃ new, new ≠ [] ∧ merged.2 = conflicts ++ new) ∧ ¬Agree Agrees (look atomic v) (look atomic w)

/-- What a loop does with two dictionaries. -/
structure MergesEntries (atomic : List PyStr → Bool) (dict1 dict2 : ConfigEntries)
    (conflicts : List PyStr)
    (merged : ConfigEntries × List PyStr) : Prop where
  distinct : (ConfigValue.dict merged.1).distinct = true
  noted : (merged.2 = conflicts ∧ ∀ key, MergedAt (under atomic key) (PyDict.find key dict1)
      (PyDict.find key dict2) (PyDict.find key merged.1)) ∨
    (∃ new, new ≠ [] ∧ merged.2 = conflicts ++ new) ∧
      ∃ key v w, PyDict.find key dict1 = some v ∧ PyDict.find key dict2 = some w ∧
        ¬Agree Agrees (look (under atomic key) v) (look (under atomic key) w)

theorem MergesEntries.value (hatomic : atomic [] = false)
    (h : MergesEntries atomic dict1 dict2 conflicts merged) :
    MergesValue atomic (.dict dict1) (.dict dict2) conflicts (.dict merged.1, merged.2) where
  distinct := h.distinct
  noted := by
    rcases h.noted with ⟨hnone, hkeys⟩ | ⟨hnew, key, v, w, hv, hw, hnot⟩
    · exact .inl ⟨hnone, merged_dict hatomic hkeys⟩
    · exact .inr ⟨hnew, fun hagree => hnot (agree_of_dict hatomic hagree hv hw)⟩

/-- An assigned entry is the new one or an old one. -/
theorem mem_assign {e : PyStr × ConfigData} (he : e ∈ PyDict.assign key v dict1) :
    e = (key, v) ∨ e ∈ dict1 := by
  induction dict1 with
  | nil => exact .inl (List.mem_singleton.mp he)
  | cons e' dict1 ih =>
      rw [PyDict.assign] at he
      split at he
      · exact (List.mem_cons.mp he).imp_right (List.mem_cons_of_mem e')
      · rcases List.mem_cons.mp he with rfl | he
        · exact .inr List.mem_cons_self
        · exact (ih he).imp_right (List.mem_cons_of_mem e')

theorem distinct_assign (h : (ConfigValue.dict dict1).distinct = true) (hv : v.distinct = true) :
    (ConfigValue.dict (PyDict.assign key v dict1)).distinct = true := by
  obtain ⟨hnodup, hall⟩ := distinct_dict_iff.mp h
  refine distinct_dict_iff.mpr ⟨PyDict.nodup_assign key v hnodup, fun e he => ?_⟩
  rcases mem_assign he with rfl | he
  · exact hv
  · exact hall e he

theorem mergesEntries_nil (h : (ConfigValue.dict dict1).distinct = true) :
    MergesEntries atomic dict1 [] conflicts (dict1, conflicts) := by
  refine ⟨h, .inl ⟨rfl, fun key => ?_⟩⟩
  show MergedAt _ _ none _
  cases PyDict.find key dict1 <;> rfl

theorem find_cons_of_ne {k : PyStr} (h : k ≠ key) :
    PyDict.find k ((key, w) :: dict2) = PyDict.find k dict2 := by
  rw [PyDict.find, if_neg (Ne.symm h)]

/-- An entry whose key is new, or whose value is merged with the one that is there. -/
theorem mergesEntries_cons (hkey : key ∉ dict2.map Prod.fst)
    (hu : MergedAt (under atomic key) (PyDict.find key dict1) (some w) (some u))
    (h : MergesEntries atomic (PyDict.assign key u dict1) dict2 conflicts merged) :
    MergesEntries atomic dict1 ((key, w) :: dict2) conflicts merged := by
  have hnone : PyDict.find key dict2 = none := PyDict.find_eq_none_iff.mpr hkey
  have hself : PyDict.find key ((key, w) :: dict2) = some w := by rw [PyDict.find, if_pos rfl]
  refine ⟨h.distinct, ?_⟩
  rcases h.noted with ⟨hconflicts, hkeys⟩ | ⟨hnew, k, v', w', hv', hw', hnot⟩
  · refine .inl ⟨hconflicts, fun k => ?_⟩
    have hk := hkeys k
    rw [PyDict.find_assign] at hk
    by_cases heq : k = key
    · subst heq
      rw [if_pos rfl, hnone] at hk
      have hmerged : PyDict.find k merged.1 = some u := hk
      rw [hself, hmerged]
      exact hu
    · rw [if_neg heq] at hk
      rw [find_cons_of_ne heq]
      exact hk
  · refine .inr ⟨hnew, k, v', w', ?_, ?_, hnot⟩
    all_goals
      have hne : k ≠ key := by
        rintro rfl
        rw [hnone] at hw'
        cases hw'
    · rwa [PyDict.find_assign, if_neg hne] at hv'
    · rwa [find_cons_of_ne hne]

/-- An entry whose value does not agree with the one that is there. -/
theorem mergesEntries_conflict {new : List PyStr} (hnew : new ≠ [])
    (hv : PyDict.find key dict1 = some v)
    (hnot : ¬Agree Agrees (look (under atomic key) v) (look (under atomic key) w))
    (h : MergesEntries atomic dict1' dict2 (conflicts ++ new) merged) :
    MergesEntries atomic dict1 ((key, w) :: dict2) conflicts merged := by
  have hself : PyDict.find key ((key, w) :: dict2) = some w := by rw [PyDict.find, if_pos rfl]
  refine ⟨h.distinct, .inr ⟨?_, key, v, w, hv, hself, hnot⟩⟩
  rcases h.noted with ⟨hconflicts, -⟩ | ⟨⟨new', -, hconflicts⟩, -⟩
  · exact ⟨new, hnew, hconflicts⟩
  · exact ⟨new ++ new', List.append_ne_nil_of_left_ne_nil hnew new', by rw [hconflicts,
      List.append_assoc]⟩

/-! ### The recursive merge -/

/-- Nothing is taken as a whole but what has no keys. -/
def never : List PyStr → Bool := fun _ => false

/-- Values of which one has no keys. -/
theorem mergesValue_leaf (hleaf : v.node = .leaf v ∨ w.node = .leaf w) (hv : v.distinct = true)
    (hw : w.distinct = true) : MergesValue never v w conflicts
      (if true && v.eq w then (v, conflicts) else (v, conflicts ++ [key])) := by
  have hnodes : ¬(v.node = .dict ∧ w.node = .dict) := by
    rintro ⟨hv, hw⟩
    rcases hleaf with h | h
    · rw [hv] at h; cases h
    · rw [hw] at h; cases h
  rw [Bool.true_and]
  split
  next heq =>
    refine ⟨hv, .inl ⟨rfl, ?_⟩⟩
    -- equal values are of one kind, so that neither has keys
    have hboth : v.node = .leaf v ∧ w.node = .leaf w := by
      have hsame := (eq_iff.mp heq).1
      cases v <;> cases w <;> first
        | exact ⟨rfl, rfl⟩
        | cases hsame
        | exact absurd ⟨rfl, rfl⟩ hnodes
    constructor
    · intro path x y hx hy
      rw [look_leaf hboth.1] at hx
      rw [look_leaf hboth.2] at hy
      split at hx
      next hpath =>
        rw [if_pos hpath] at hy
        cases hx
        cases hy
        exact ⟨hv, hw, heq⟩
      next => cases hx
    · intro path
      rw [look_leaf hboth.1, look_leaf hboth.2]
      split <;> rfl
  next hne =>
    refine ⟨hv, .inr ⟨⟨[key], List.cons_ne_nil _ _, rfl⟩, fun hagree => ?_⟩⟩
    have hnil : Agrees v.node w.node := hagree [] _ _ (look_nil rfl) (look_nil rfl)
    cases v <;> cases w <;> first
      | exact hne hnil.2.2
      | exact hnil
      | exact hnodes ⟨rfl, rfl⟩

mutual

theorem mergesValue_mergeValue (key : PyStr) : ∀ (w v : ConfigData) (conflicts : List PyStr),
    v.distinct = true → w.distinct = true →
      MergesValue never v w conflicts (mergeValue true key w v conflicts)
  | .dict dict2, .dict dict1, conflicts, hv, hw =>
      (mergesEntries_mergeEntries dict2 dict1 conflicts hv hw).value rfl
  | .dict _, .scalar _, _, hv, hw => mergesValue_leaf (.inl rfl) hv hw
  | .dict _, .list _, _, hv, hw => mergesValue_leaf (.inl rfl) hv hw
  | .scalar _, _, _, hv, hw => mergesValue_leaf (.inr rfl) hv hw
  | .list _, _, _, hv, hw => mergesValue_leaf (.inr rfl) hv hw

theorem mergesEntries_mergeEntries : ∀ (dict2 dict1 : ConfigEntries) (conflicts : List PyStr),
    (ConfigValue.dict dict1).distinct = true → (ConfigValue.dict dict2).distinct = true →
      MergesEntries never dict1 dict2 conflicts (mergeEntries true dict2 dict1 conflicts)
  | [], dict1, conflicts, h, _ => mergesEntries_nil h
  | (key, w) :: dict2, dict1, conflicts, h, h' => by
      obtain ⟨hnodup, hall⟩ := distinct_dict_iff.mp h'
      obtain ⟨hkey, hnodup⟩ := List.nodup_cons.mp hnodup
      obtain ⟨hw, hall⟩ := List.forall_mem_cons.mp hall
      have hdict2 : (ConfigValue.dict dict2).distinct = true := distinct_dict_iff.mpr ⟨hnodup, hall⟩
      rw [mergeEntries]
      cases hfind : PyDict.find key dict1 with
      | none =>
          have hrest := mergesEntries_mergeEntries dict2 (PyDict.assign key w dict1) conflicts
            (distinct_assign h hw) hdict2
          refine mergesEntries_cons hkey ?_ hrest
          rw [hfind]
          rfl
      | some v =>
          have hvalue := mergesValue_mergeValue key w v conflicts (distinct_of_find h hfind) hw
          dsimp only
          generalize mergeValue true key w v conflicts = value at hvalue ⊢
          obtain ⟨u, conflicts'⟩ := value
          have hrest := mergesEntries_mergeEntries dict2 (PyDict.assign key u dict1) conflicts'
            (distinct_assign h hvalue.distinct) hdict2
          rcases hvalue.noted with ⟨hconflicts, hmerged⟩ | ⟨⟨new, hnew, hconflicts⟩, hnot⟩
          · obtain rfl : conflicts' = conflicts := hconflicts
            refine mergesEntries_cons hkey ?_ hrest
            rw [hfind]
            exact ⟨u, rfl, hmerged⟩
          · obtain rfl : conflicts' = conflicts ++ new := hconflicts
            exact mergesEntries_conflict hnew hfind hnot hrest

end

end ConfigMerge

end MultiStorageClient
