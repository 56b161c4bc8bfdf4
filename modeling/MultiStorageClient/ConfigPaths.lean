/-
MultiStorageClient/ConfigPaths.lean

Configurations looked at by paths of keys.

Some values are taken as a whole (`atomic`): what is in them is not looked at.  Two
configurations with the same values on all paths are equal (`same_of_look`).  A
dictionary is merged of two if, key by key, it has the only value or one that is
merged of both (`merged_dict`); then on every path it has the value of the first, or
else that of the second.
-/
import MultiStorageClient.ConfigEquality
import MultiStorageClient.PartialMaps

namespace MultiStorageClient

open PartialMaps

/-- What is found on a path. -/
inductive ConfigNode
  | dict
  | leaf (v : ConfigData)

namespace ConfigNode

/-- Two dictionaries, or equal values. -/
def Agrees : ConfigNode → ConfigNode → Prop
  | .dict, .dict => True
  | .leaf v, .leaf w => v.distinct = true ∧ w.distinct = true ∧ v.eq w = true
  | _, _ => False

end ConfigNode

namespace ConfigValue

open ConfigNode

variable {v w u : ConfigData} {entries entries' merged : ConfigEntries} {key : PyStr}
  {atomic : List PyStr → Bool}

theorem isNaN_of_same (h : same v w = true) : v.isNaN = w.isNaN := by
  cases v <;> cases w <;> try cases h
  next s t =>
    have hkey : s.key = t.key := of_decide_eq_true h
    rw [isNaN, isNaN, PyScalar.isNaN, PyScalar.isNaN, hkey]
  all_goals rfl

theorem eq_iff : eq v w = true ↔ same v w = true ∧ v.isNaN = false := by
  rw [eq, Bool.and_eq_true, Bool.not_eq_true']

instance : Std.Symm Agrees where
  symm
    | .dict, .dict, _ => trivial
    | .leaf v, .leaf w, ⟨hv, hw, heq⟩ => by
        obtain ⟨hsame, hnan⟩ := eq_iff.mp heq
        exact ⟨hw, hv, eq_iff.mpr ⟨same_symm v w hv hw hsame, isNaN_of_same hsame ▸ hnan⟩⟩

instance : IsTrans ConfigNode Agrees where
  trans
    | .dict, .dict, .dict, _, _ => trivial
    | .leaf v, .leaf w, .leaf u, ⟨hv, _, heq⟩, ⟨_, hu, heq'⟩ => by
        obtain ⟨hsame, hnan⟩ := eq_iff.mp heq
        exact ⟨hv, hu, eq_iff.mpr ⟨same_trans v w u hsame (eq_iff.mp heq').1, hnan⟩⟩

/-! ### Looking -/

/-- A dictionary, or a value that has no keys. -/
def node : ConfigData → ConfigNode
  | .dict _ => .dict
  | v => .leaf v

/-- Which values below a key are taken as a whole. -/
def under (atomic : List PyStr → Bool) (key : PyStr) : List PyStr → Bool :=
  fun path => atomic (key :: path)

/-- What is found on a path. -/
def look (atomic : List PyStr → Bool) : ConfigData → List PyStr → Option ConfigNode
  | v, [] => some (if atomic [] then .leaf v else v.node)
  | .dict entries, key :: path =>
      if atomic [] then none
      else (PyDict.find key entries).bind fun v => look (under atomic key) v path
  | _, _ :: _ => none

theorem look_nil (h : atomic [] = false) : look atomic v [] = some v.node := by
  rw [look, h, if_neg Bool.false_ne_true]

theorem look_atomic (h : atomic [] = true) (path : List PyStr) :
    look atomic v path = if path = [] then some (.leaf v) else none := by
  cases path with
  | nil => rw [look, if_pos h, if_pos rfl]
  | cons key path =>
      rw [if_neg (List.cons_ne_nil key path)]
      cases v with
      | dict entries => rw [look, if_pos h]
      | scalar | list => rfl

theorem look_dict (h : atomic [] = false) (key : PyStr) (path : List PyStr) :
    look atomic (.dict entries) (key :: path) =
      (PyDict.find key entries).bind fun v => look (under atomic key) v path := by
  rw [look, h, if_neg Bool.false_ne_true]

/-- Values without keys are found on the empty path only. -/
theorem look_leaf (h : v.node = .leaf v) (path : List PyStr) :
    look atomic v path = if path = [] then some (.leaf v) else none := by
  cases path with
  | nil => rw [look, h, ite_self, if_pos rfl]
  | cons key path =>
      cases v with
      | dict entries => cases h
      | scalar | list => rfl

/-- The same values on all paths. -/
def SameLooks (atomic : List PyStr → Bool) (v w : ConfigData) : Prop :=
  ∀ path, Option.Rel (fun x y => x = y ∨ Agrees x y) (look atomic v path) (look atomic w path)

/-- A key found on one side is found on the other, with a value that looks the same. -/
theorem SameLooks.find (h : SameLooks atomic (.dict entries) (.dict entries'))
    (hatomic : atomic [] = false)
    (hv : PyDict.find key entries = some v) :
    ∃ w, PyDict.find key entries' = some w ∧ SameLooks (under atomic key) v w := by
  have hkey : ∀ path, Option.Rel (fun x y => x = y ∨ Agrees x y) (look (under atomic key) v path)
      ((PyDict.find key entries').bind fun w => look (under atomic key) w path) := by
    intro path
    have hpath := h (key :: path)
    rw [look_dict hatomic, look_dict hatomic, hv] at hpath
    exact hpath
  cases hw : PyDict.find key entries' with
  | none =>
      rw [hw] at hkey
      obtain ⟨x, hx, -⟩ := exists_of_rel_some (hkey [])
      cases hx
  | some w =>
      rw [hw] at hkey
      exact ⟨w, rfl, hkey⟩

theorem same_of_leaf (hv : distinct v = true)
    (h : ConfigNode.leaf v = .leaf w ∨ Agrees (.leaf v) (.leaf w)) : same v w = true := by
  rcases h with h | ⟨-, -, heq⟩
  · cases h
    exact same_refl v hv
  · exact (eq_iff.mp heq).1

theorem SameLooks.of_leaf (h : SameLooks atomic v w) (hv : distinct v = true)
    (hleaf : v.node = .leaf v)
    (hatomic : atomic [] = false) : same v w = true := by
  have hnil := h []
  rw [look_nil hatomic, look_nil hatomic, hleaf, Option.rel_some_some] at hnil
  cases w with
  | dict => exact (hnil.elim nofun id).elim
  | scalar | list => exact same_of_leaf hv hnil

theorem SameLooks.of_atomic (h : SameLooks atomic v w) (hv : distinct v = true)
    (hatomic : atomic [] = true) : same v w = true := by
  have hnil := h []
  rw [look_atomic hatomic, look_atomic hatomic, if_pos rfl, if_pos rfl,
    Option.rel_some_some] at hnil
  exact same_of_leaf hv hnil

theorem SameLooks.dict (h : SameLooks atomic (.dict entries) w) (hatomic : atomic [] = false) :
    ∃ entries', w = .dict entries' := by
  have hnil := h []
  rw [look_nil hatomic, look_nil hatomic, Option.rel_some_some] at hnil
  cases w with
  | dict entries' => exact ⟨entries', rfl⟩
  | scalar | list => exact (hnil.elim nofun id).elim

/-- To look the same is symmetric. -/
theorem SameLooks.symm (h : SameLooks atomic v w) : SameLooks atomic w v := by
  intro path
  have hpath := h path
  cases hx : look atomic v path with
  | none =>
      rw [(rel_none_iff hpath).mp hx]
      exact .none
  | some x =>
      rw [hx] at hpath
      obtain ⟨y, hy, hxy⟩ := exists_of_rel_some hpath
      rw [hy]
      exact .some (hxy.imp Eq.symm (symm_of Agrees))

mutual

/-- **Configurations with the same values on all paths** are equal. -/
theorem same_of_look : ∀ (v w : ConfigData) (atomic : List PyStr → Bool), distinct v = true →
    distinct w = true → SameLooks atomic v w → same v w = true
  | .scalar s, w, atomic, hv, hw, h => by
      cases hatomic : atomic [] with
      | false => exact h.of_leaf hv rfl hatomic
      | true => exact h.of_atomic hv hatomic
  | .list items, w, atomic, hv, hw, h => by
      cases hatomic : atomic [] with
      | false => exact h.of_leaf hv rfl hatomic
      | true => exact h.of_atomic hv hatomic
  | .dict entries, w, atomic, hv, hw, h => by
      cases hatomic : atomic [] with
      | true => exact h.of_atomic hv hatomic
      | false =>
          obtain ⟨entries', rfl⟩ := h.dict hatomic
          obtain ⟨hnodup, hall⟩ := distinct_dict_iff.mp hv
          obtain ⟨hnodup', -⟩ := distinct_dict_iff.mp hw
          rw [same_dict_iff hnodup hnodup']
          -- key by key: what one side lacks, the other lacks as well
          intro key
          cases hfind : PyDict.find key entries with
          | none =>
              cases hfind' : PyDict.find key entries' with
              | none => exact .none
              | some w =>
                  obtain ⟨v, hv', -⟩ := h.symm.find hatomic hfind'
                  rw [hfind] at hv'
                  cases hv'
          | some v =>
              obtain ⟨w, hw', hlooks⟩ := h.find hatomic hfind
              rw [hw']
              exact .some (same_of_look_entries entries (distinctEntries_iff.mpr hall) (key, v)
                (PyDict.mem_of_find hfind) w _ (distinct_of_find hw hw') hlooks)

/-- Entries that look the same at every path are the same. -/
theorem same_of_look_entries : ∀ entries : ConfigEntries, distinctEntries entries = true →
    ∀ e ∈ entries, ∀ (w : ConfigData) (atomic : List PyStr → Bool), distinct w = true →
      SameLooks atomic e.2 w → same e.2 w = true
  | [], _ => nofun
  | (key, v) :: entries, h => by
      obtain ⟨hv, hentries⟩ := Bool.and_eq_true_iff.mp h
      intro e he w atomic hw hlooks
      rcases List.mem_cons.mp he with rfl | he
      · exact same_of_look v w atomic hv hw hlooks
      · exact same_of_look_entries entries hentries e he w atomic hw hlooks

end

/-! ### Merging -/

/-- `u` is merged of `v` and `w`, which agree. -/
structure Merged (atomic : List PyStr → Bool) (v w u : ConfigData) : Prop where
  agree : Agree Agrees (look atomic v) (look atomic w)
  looks : ∀ path, look atomic u path = (look atomic v path).or (look atomic w path)

/-- The value at a key is the only one, or is merged of both. -/
def MergedAt (atomic : List PyStr → Bool) :
    Option ConfigData → Option ConfigData → Option ConfigData → Prop
  | some v, some w, u => ∃ u', u = some u' ∧ Merged atomic v w u'
  | v, w, u => u = v.or w

/-- **A dictionary is merged** key by key. -/
theorem merged_dict (hatomic : atomic [] = false) (h : ∀ key, MergedAt (under atomic key)
    (PyDict.find key entries) (PyDict.find key entries') (PyDict.find key merged)) :
    Merged atomic (.dict entries) (.dict entries') (.dict merged) where
  agree := by
    intro path x y hx hy
    cases path with
    | nil =>
        rw [look_nil hatomic] at hx hy
        cases hx
        cases hy
        trivial
    | cons key path =>
        rw [look_dict hatomic, Option.bind_eq_some_iff] at hx hy
        obtain ⟨v, hv, hx⟩ := hx
        obtain ⟨w, hw, hy⟩ := hy
        have hkey := h key
        rw [hv, hw] at hkey
        obtain ⟨u, -, hu⟩ := hkey
        exact hu.agree path x y hx hy
  looks := by
    intro path
    cases path with
    -- at the top there is nothing to look at but a dictionary
    | nil =>
        rw [look_nil hatomic, look_nil hatomic, look_nil hatomic]
        rfl
    | cons key path =>
        rw [look_dict hatomic, look_dict hatomic, look_dict hatomic]
        have hkey := h key
        cases hv : PyDict.find key entries with
        -- only the newer side can have the key
        | none =>
            rw [hv] at hkey
            have hu : PyDict.find key merged = PyDict.find key entries' := hkey
            rw [hu, Option.bind_none, Option.none_or]
        | some v =>
            cases hw : PyDict.find key entries' with
            -- only the base has the key
            | none =>
                rw [hv, hw] at hkey
                have hu : PyDict.find key merged = some v := hkey
                rw [hu, Option.bind_none, Option.or_none]
            -- both have it, and the values are merged in turn
            | some w =>
                rw [hv, hw] at hkey
                obtain ⟨u, hu, hmerged⟩ := hkey
                rw [hu]
                exact hmerged.looks path

/-- Dictionaries agree only if their values at every key do. -/
theorem agree_of_dict (hatomic : atomic [] = false)
    (h : Agree Agrees (look atomic (.dict entries)) (look atomic (.dict entries')))
    (hv : PyDict.find key entries = some v) (hw : PyDict.find key entries' = some w) :
    Agree Agrees (look (under atomic key) v) (look (under atomic key) w) := by
  intro path x y hx hy
  refine h (key :: path) x y ?_ ?_
  · rw [look_dict hatomic, hv]
    exact hx
  · rw [look_dict hatomic, hw]
    exact hy

/-- Values that are taken as a whole agree if they are equal; then the first one is merged of
both. -/
theorem merged_atomic (hatomic : atomic [] = true) (hv : distinct v = true) (hw : distinct w = true)
    (heq : eq v w = true) : Merged atomic v w v := by
  constructor
  · intro path x y hx hy
    rw [look_atomic hatomic] at hx hy
    split at hx
    next hpath =>
      rw [if_pos hpath] at hy
      cases hx
      cases hy
      exact ⟨hv, hw, heq⟩
    next => cases hx
  · intro path
    rw [look_atomic hatomic, look_atomic hatomic]
    split <;> rfl

theorem eq_of_agree_atomic (hatomic : atomic [] = true)
    (h : Agree Agrees (look atomic v) (look atomic w)) : eq v w = true := by
  have hnil : Agrees (.leaf v) (.leaf w) :=
    h [] _ _ (by rw [look_atomic hatomic, if_pos rfl]) (by rw [look_atomic hatomic, if_pos rfl])
  exact hnil.2.2

end ConfigValue

end MultiStorageClient
