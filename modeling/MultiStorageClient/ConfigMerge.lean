/-
MultiStorageClient/ConfigMerge.lean

`_merge_profiles`, `_merge_opentelemetry` and `_merge_configs` of `config.py`.

Every field has a rule of its own, and each is a merge on paths: of the profiles, every
definition is taken as a whole, and so are `cache` and `posix`; of `opentelemetry`,
everything but `metrics.attributes` is merged in depth (`mergeField_merges`).  The
attributes are put one behind the other; with them goes whether there are metrics
(`Telemetry`).
-/
import MultiStorageClient.MergeNoOverwrite

namespace MultiStorageClient

open PartialMaps ConfigValue ConfigNode

/-- What is raised when a configuration file is loaded. -/
inductive ConfigFileError
  | valueError (message : PyStr)
  | runtimeError
  /-- a value that the schema does not allow is used as a dictionary or a list -/
  | typeError

namespace ConfigMerge

/-! ### The fields -/

section Code

variable (basePath newPath : PyStr)

/-- A list of names in a message. -/
def conflictsList (names : List PyStr) : PyStr :=
  List.intercalate ", ".toList
    ((names.insertionSort (· ≤ ·)).map fun p => "'".toList ++ p ++ "'".toList)

/-- The loop of `_merge_profiles`. -/
def mergeProfileEntries : ConfigEntries → ConfigEntries → List PyStr → ConfigEntries × List PyStr
  | [], result, conflictingProfiles => (result, conflictingProfiles)
  | (profileName, newProfileDef) :: newProfiles, result, conflictingProfiles =>
      match PyDict.find profileName result with
      | some profileDef =>
          if !profileDef.eq newProfileDef then
            mergeProfileEntries newProfiles result (conflictingProfiles ++ [profileName])
          else mergeProfileEntries newProfiles result conflictingProfiles
      | none =>
          mergeProfileEntries newProfiles (PyDict.assign profileName newProfileDef result)
            conflictingProfiles

/-- `_merge_profiles` -/
def mergeProfiles (baseProfiles newProfiles : ConfigEntries) :
    Except ConfigFileError ConfigEntries :=
  let (result, conflictingProfiles) := mergeProfileEntries newProfiles baseProfiles []
  if conflictingProfiles ≠ [] then
    .error (.valueError ("Profile conflict: ".toList ++ conflictsList conflictingProfiles ++
      " defined differently in ".toList ++ basePath ++ " and ".toList ++ newPath))
  else .ok result

/-- `otel.get("metrics", {}).get("attributes", [])` -/
def attributesOf (otel : ConfigEntries) : Except ConfigFileError (List ConfigData) :=
  match PyDict.find "metrics".toList otel with
  | none => .ok []
  | some (.dict metrics) =>
      match PyDict.find "attributes".toList metrics with
      | none => .ok []
      | some (.list attributes) => .ok attributes
      | some _ => .error .typeError
  | some _ => .error .typeError

/-- `del otel["metrics"]["attributes"]`, where it is there -/
def withoutAttributes (otel : ConfigEntries) : ConfigEntries :=
  match PyDict.find "metrics".toList otel with
  | some (.dict metrics) =>
      PyDict.assign "metrics".toList (.dict (metrics.filter fun e => e.1 ≠ "attributes".toList))
        otel
  | _ => otel

/-- The attributes are put into the merged metrics. -/
def putAttributes (mergedAttrs : List ConfigData) (merged : ConfigEntries) :
    Except ConfigFileError ConfigEntries :=
  match PyDict.find "metrics".toList merged with
  | some (.dict metrics) =>
      .ok (PyDict.assign "metrics".toList
        (.dict (PyDict.assign "attributes".toList (.list mergedAttrs) metrics)) merged)
  | some _ => .error .typeError
  -- no metrics yet: the dictionary is made only for attributes to put in
  | none =>
      if mergedAttrs ≠ [] then
        .ok (PyDict.assign "metrics".toList (.dict [("attributes".toList, .list mergedAttrs)])
          merged)
      else .ok merged

/-- `_merge_opentelemetry` -/
def mergeOpentelemetry (baseOtel newOtel : ConfigEntries) :
    Except ConfigFileError ConfigEntries := do
  let baseAttrs ← attributesOf baseOtel
  let newAttrs ← attributesOf newOtel
  let mergedAttrs := baseAttrs ++ newAttrs
  let (merged, conflicts) := mergeDictionariesNoOverwrite (some (withoutAttributes baseOtel))
    (some (withoutAttributes newOtel)) none true
  if conflicts ≠ [] then
    .error (.valueError ("opentelemetry config conflict: ".toList ++ conflictsList conflicts ++
      " defined differently in ".toList ++ basePath ++ " and ".toList ++ newPath))
  else putAttributes mergedAttrs merged

/-- `value or {}`, for a value that is then used as a dictionary -/
def orEmpty : ConfigData → Except ConfigFileError ConfigEntries
  | .dict entries => .ok entries
  | .list [] => .ok []
  | .scalar s =>
      if s.key = .none ∨ s.key = .number 0 ∨ s.key = .str [] then .ok [] else .error .typeError
  | _ => .error .typeError

/-- The body of the loop of `_merge_configs`: the value of a key, if it is set. -/
def mergeField (key : PyStr) : Option ConfigData → Option ConfigData →
    Except ConfigFileError (Option ConfigData)
  -- a field of one side alone is taken over without a look at it
  | baseValue, none => .ok baseValue
  | none, newValue => .ok newValue
  | some baseValue, some newValue =>
      if key = "profiles".toList then do
        let profiles ← mergeProfiles basePath newPath (← orEmpty baseValue) (← orEmpty newValue)
        return some (.dict profiles)
      else if key = "path_mapping".toList ∨ key = "experimental_features".toList then do
        let (merged, conflicts) := mergeDictionariesNoOverwrite (some (← orEmpty baseValue))
          (some (← orEmpty newValue)) none true
        if conflicts ≠ [] then
          throw (.valueError ("Config merge conflict: ".toList ++ conflictsList conflicts ++
            " have different values in ".toList ++ basePath ++ " and ".toList ++ newPath))
        return some (.dict merged)
      else if key = "opentelemetry".toList then do
        let otel ← mergeOpentelemetry basePath newPath (← orEmpty baseValue) (← orEmpty newValue)
        return some (.dict otel)
      -- cache and posix are merged only when they are equal
      else if key = "cache".toList ∨ key = "posix".toList then
        if !baseValue.eq newValue then
          .error (.valueError
            ("'".toList ++ key ++ "' defined differently in ".toList ++ basePath ++
            " and ".toList ++ newPath))
        else .ok (some baseValue)
      -- the includes are resolved by now, and the merged file names none
      else if key = "include".toList then .ok none
      else .error (.valueError ("Unknown field '".toList ++ key ++ "' in config file.".toList))

/-- A key gets the value, if it is set. -/
def setField (result : ConfigEntries) (key : PyStr) : Option ConfigData → ConfigEntries
  | some value => PyDict.assign key value result
  | none => result

/-- `set(base_config.keys()) | set(new_config.keys())` -/
def allKeys (baseConfig newConfig : ConfigEntries) : List PyStr :=
  let baseKeys := baseConfig.map Prod.fst
  baseKeys ++ (newConfig.map Prod.fst).filter fun key => key ∉ baseKeys

/-- `_merge_configs`; `iterate` is the order in which a set of strings is gone through. -/
def mergeConfigs (iterate : List PyStr → List PyStr) (baseConfig newConfig : ConfigEntries) :
    Except ConfigFileError ConfigEntries :=
  (iterate (allKeys baseConfig newConfig)).foldlM (fun result key => do
    let value ← mergeField basePath newPath key (PyDict.find key baseConfig)
      (PyDict.find key newConfig)
    return setField result key value) []

end Code

/-! ### Profiles -/

variable {basePath newPath key : PyStr} {atomic : List PyStr → Bool} {v w : ConfigData}
  {otel baseOtel newOtel : ConfigEntries}

/-- What is returned, and what is raised. -/
def Ends {α : Type} (returned : α → Prop) (raised : ConfigFileError → Prop) :
    Except ConfigFileError α → Prop
  | .ok u => returned u
  | .error e => raised e

/-- `r` is a merge of what is seen of `v` and `w`; if they do not agree, a `ValueError` is
raised. -/
def MergesTo {α : Type} (atomic : List PyStr → Bool) (v w : ConfigData) (merged : α → Prop) :
    Except ConfigFileError α → Prop :=
  Ends merged fun e => (∃ message, e = .valueError message) ∧ ¬Agree Agrees (look atomic v)
    (look atomic w)

/-- The merge of profiles, one after the other, meets the rule of the merge. -/
theorem mergesEntries_mergeProfileEntries (hatomic : ∀ name, under atomic name [] = true) :
    ∀ (newProfiles result : ConfigEntries) (conflicts : List PyStr),
      (ConfigValue.dict result).distinct = true → (ConfigValue.dict newProfiles).distinct = true →
        MergesEntries atomic result newProfiles conflicts
          (mergeProfileEntries newProfiles result conflicts) := by
  intro newProfiles
  induction newProfiles with
  | nil => exact fun result conflicts h _ => mergesEntries_nil h
  | cons e newProfiles ih =>
      obtain ⟨name, w⟩ := e
      intro result conflicts h h'
      obtain ⟨hnodup, hall⟩ := distinct_dict_iff.mp h'
      obtain ⟨hname, hnodup⟩ := List.nodup_cons.mp hnodup
      obtain ⟨hw, hall⟩ := List.forall_mem_cons.mp hall
      have hnew : (ConfigValue.dict newProfiles).distinct = true :=
        distinct_dict_iff.mpr ⟨hnodup, hall⟩
      rw [mergeProfileEntries]
      cases hfind : PyDict.find name result with
      -- a new profile
      | none =>
          refine mergesEntries_cons hname ?_ (ih _ _ (distinct_assign h hw) hnew)
          rw [hfind]
          rfl
      | some v =>
          have hv := distinct_of_find h hfind
          dsimp only
          split
          -- the same name with another value is noted as a conflict
          next hne =>
            refine mergesEntries_conflict (List.cons_ne_nil name []) hfind (fun hagree => ?_)
              (ih _ _ h hnew)
            rw [eq_of_agree_atomic (hatomic name) hagree] at hne
            cases hne
          -- the same name with the same value changes nothing
          next heq =>
            rw [Bool.not_eq_true', Bool.not_eq_false] at heq
            have hself : PyDict.assign name v result = result := PyDict.assign_self hfind
            refine mergesEntries_cons hname (u := v) ?_ (hself.symm ▸ ih _ _ h hnew)
            rw [hfind]
            exact ⟨v, rfl, merged_atomic (hatomic name) hv hw heq⟩

/-- What a loop has noted decides what is returned. -/
theorem MergesEntries.to {dict1 dict2 : ConfigEntries} {merged : ConfigEntries × List PyStr}
    {message : PyStr}
    (hatomic : atomic [] = false) (h : MergesEntries atomic dict1 dict2 [] merged) :
    MergesTo atomic (.dict dict1) (.dict dict2)
      (fun u => (ConfigValue.dict u).distinct = true ∧ Merged atomic (.dict dict1) (.dict dict2)
      (.dict u))
      (if merged.2 ≠ [] then .error (.valueError message) else .ok merged.1) := by
  rcases (h.value hatomic).noted with ⟨hnone, hmerged⟩ | ⟨⟨new, hnew, hconflicts⟩, hnot⟩
  · rw [if_neg (not_not.mpr hnone)]
    exact ⟨h.distinct, hmerged⟩
  · rw [if_pos (hconflicts ▸ hnew)]
    exact ⟨⟨message, rfl⟩, hnot⟩

/-- The merge of the two `profiles` meets the rule of the merge. -/
theorem mergesTo_mergeProfiles {baseProfiles newProfiles : ConfigEntries}
    (hatomic : atomic [] = false)
    (hnames : ∀ name, under atomic name [] = true)
    (h : (ConfigValue.dict baseProfiles).distinct = true)
    (h' : (ConfigValue.dict newProfiles).distinct = true) :
    MergesTo atomic (.dict baseProfiles) (.dict newProfiles)
      (fun u => (ConfigValue.dict u).distinct = true ∧
        Merged atomic (.dict baseProfiles) (.dict newProfiles) (.dict u))
      (mergeProfiles basePath newPath baseProfiles newProfiles) :=
  (mergesEntries_mergeProfileEntries hnames newProfiles baseProfiles [] h h').to hatomic

/-! ### The telemetry -/

/-- What is observed of a telemetry configuration beside its paths: whether there are metrics, and
the attributes in them. -/
inductive Telemetry
  | noMetrics
  | metrics (attributes : Option (Multiset ConfigData))

namespace Telemetry

/-- The attributes that are collected. -/
def attributes : Telemetry → Multiset ConfigData
  | noMetrics => 0
  | metrics attributes => attributes.getD 0

/-- Merged metrics have attributes. -/
def merge : Telemetry → Telemetry → Telemetry
  | noMetrics, noMetrics => noMetrics
  | s, t => metrics (some (s.attributes + t.attributes))

/-- What is observed of an `opentelemetry` section. -/
def of (otel : ConfigEntries) : Telemetry :=
  match PyDict.find "metrics".toList otel with
  | some (.dict entries) =>
      match PyDict.find "attributes".toList entries with
      | some (.list l) => metrics (some l)
      | _ => metrics none
  | _ => noMetrics

instance : Std.Commutative merge where
  comm s t := by
    cases s <;> cases t <;> simp [merge, Multiset.add_comm]

instance : Std.Associative merge where
  assoc s t r := by
    cases s <;> cases t <;> cases r <;> simp [merge, attributes, Multiset.add_assoc]

end Telemetry

/-- The metrics are an object and the attributes in them an array, if they are there. -/
def otelShape (otel : ConfigEntries) : Bool :=
  match PyDict.find "metrics".toList otel with
  | none => true
  | some (.dict entries) =>
      match PyDict.find "attributes".toList entries with
      | none => true
      | some (.list _) => true
      | some _ => false
  | some _ => false

/-- The metrics without their attributes. -/
def strip (entries : ConfigEntries) : ConfigEntries :=
  entries.filter fun e => e.1 ≠ "attributes".toList

/-- What a section of the right shape looks like, to all that reads it. -/
inductive OtelView (otel : ConfigEntries) : Prop
  | noMetrics (hfind : PyDict.find "metrics".toList otel = none)
      (hattrs : attributesOf otel = .ok [])
      (hwithout : withoutAttributes otel = otel) (hof : Telemetry.of otel = .noMetrics)
  | metrics (entries : ConfigEntries) (l : List ConfigData)
      (attributes : Option (Multiset ConfigData))
      (hfind : PyDict.find "metrics".toList otel = some (.dict entries))
      (hattrs : attributesOf otel = .ok l)
      (hwithout : withoutAttributes otel = PyDict.assign "metrics".toList
        (.dict (strip entries)) otel)
      (hof : Telemetry.of otel = .metrics attributes) (hl : attributes.getD 0 = l)

/-- The view of a well-formed `opentelemetry` value. -/
theorem otelView (h : otelShape otel = true) : OtelView otel := by
  unfold otelShape at h
  cases hfind : PyDict.find "metrics".toList otel with
  | none =>
      refine .noMetrics hfind ?_ ?_ ?_
      · rw [attributesOf, hfind]
      · rw [withoutAttributes, hfind]
      · rw [Telemetry.of, hfind]
  | some m =>
      rw [hfind] at h
      cases m with
      -- the schema asks for a dictionary, and for a list of attributes in it
      | scalar | list => cases h
      | dict entries =>
          have hwithout : withoutAttributes otel =
              PyDict.assign "metrics".toList (.dict (strip entries)) otel := by
            rw [withoutAttributes, hfind]
            rfl
          dsimp only at h
          cases hattrs : PyDict.find "attributes".toList entries with
          | none =>
              refine .metrics entries [] none hfind ?_ hwithout ?_ rfl
              · rw [attributesOf, hfind]
                dsimp only
                rw [hattrs]
              · rw [Telemetry.of, hfind]
                dsimp only
                rw [hattrs]
          | some a =>
              rw [hattrs] at h
              cases a with
              | scalar | dict => cases h
              | list l =>
                  refine .metrics entries l (some l) hfind ?_ hwithout ?_ rfl
                  · rw [attributesOf, hfind]
                    dsimp only
                    rw [hattrs]
                  · rw [Telemetry.of, hfind]
                    dsimp only
                    rw [hattrs]

theorem distinct_strip {entries : ConfigEntries} (h : (ConfigValue.dict entries).distinct = true) :
    (ConfigValue.dict (strip entries)).distinct = true := by
  obtain ⟨hnodup, hall⟩ := distinct_dict_iff.mp h
  refine distinct_dict_iff.mpr ⟨hnodup.sublist (List.filter_sublist.map Prod.fst), fun e he => ?_⟩
  exact hall e (List.mem_of_mem_filter he)

theorem distinct_withoutAttributes (hshape : otelShape otel = true)
    (h : (ConfigValue.dict otel).distinct = true) :
    (ConfigValue.dict (withoutAttributes otel)).distinct = true := by
  cases otelView hshape with
  | noMetrics _ _ hwithout => rwa [hwithout]
  | metrics entries l attributes hfind _ hwithout =>
      rw [hwithout]
      exact distinct_assign h (distinct_strip (distinct_of_find h hfind))

theorem find_strip (entries : ConfigEntries) :
    PyDict.find "attributes".toList (strip entries) = none := by
  rw [strip, PyDict.find_filter_ne, if_pos rfl]

/-- Attributes that are put into metrics without any are taken out again. -/
theorem strip_assign {entries : ConfigEntries}
    (h : PyDict.find "attributes".toList entries = none) :
    strip (PyDict.assign "attributes".toList v entries) = entries :=
  PyDict.filter_assign h

theorem node_of_merged {u : ConfigData} (h : Merged never (.dict baseOtel) (.dict newOtel) u) :
    ∃ entries, u = .dict entries := by
  have hnil := h.looks []
  rw [look_nil rfl, look_nil rfl, look_nil rfl, Option.some_or] at hnil
  cases u with
  | dict entries => exact ⟨entries, rfl⟩
  | scalar | list => cases hnil

/-- Metrics merged of metrics without attributes have none. -/
theorem find_attributes_merged {m n entries : ConfigEntries}
    (h : Merged never (.dict (strip m)) (.dict (strip n)) (.dict entries)) :
    PyDict.find "attributes".toList entries = none := by
  have hattrs := h.looks ["attributes".toList]
  rw [look_dict rfl, look_dict rfl, look_dict rfl, find_strip, find_strip] at hattrs
  cases hfind : PyDict.find "attributes".toList entries with
  | none => rfl
  | some a =>
      rw [hfind, Option.bind_some, look_nil rfl] at hattrs
      cases hattrs

/-- The result of a merge of telemetry: what was merged without the attributes, with the
attributes. -/
structure MergedOtel (baseOtel newOtel u : ConfigEntries) : Prop where
  distinct : (ConfigValue.dict u).distinct = true
  shape : otelShape u = true
  merged : Merged never (.dict (withoutAttributes baseOtel)) (.dict (withoutAttributes newOtel))
    (.dict (withoutAttributes u))
  telemetry : Telemetry.of u = (Telemetry.of baseOtel).merge (Telemetry.of newOtel)

/-- Putting the attributes in. -/
theorem mergedOtel_assign {r entries : ConfigEntries} {l : List ConfigData}
    (hr : (ConfigValue.dict r).distinct = true)
    (hmerged : Merged never (.dict (withoutAttributes baseOtel)) (.dict (withoutAttributes newOtel))
    (.dict r))
    (hfind : PyDict.find "metrics".toList r = some (.dict entries))
    (hnone : PyDict.find "attributes".toList entries = none)
    (hl : ∀ v ∈ l, v.distinct = true)
    (htelemetry : (Telemetry.of baseOtel).merge (Telemetry.of newOtel) = .metrics (some l)) :
    MergedOtel baseOtel newOtel (PyDict.assign "metrics".toList
      (.dict (PyDict.assign "attributes".toList (.list l) entries)) r) := by
  have hmetrics : PyDict.find "metrics".toList (PyDict.assign "metrics".toList
      (.dict (PyDict.assign "attributes".toList (.list l) entries)) r) =
        some (.dict (PyDict.assign "attributes".toList (.list l) entries)) := by
    rw [PyDict.find_assign, if_pos rfl]
  have hattrs :
      PyDict.find "attributes".toList (PyDict.assign "attributes".toList (.list l) entries) =
      some (.list l) := by
    rw [PyDict.find_assign, if_pos rfl]
  constructor
  · refine distinct_assign hr (distinct_assign (distinct_of_find hr hfind) ?_)
    rwa [ConfigValue.distinct, distinctItems_iff]
  · rw [otelShape, hmetrics]
    dsimp only
    rw [hattrs]
  -- without its attributes the result is `r` again
  · have hwithout : withoutAttributes (PyDict.assign "metrics".toList
        (.dict (PyDict.assign "attributes".toList (.list l) entries)) r) = r := by
      rw [withoutAttributes, hmetrics]
      dsimp only
      have hstrip := strip_assign (v := .list l) hnone
      rw [strip] at hstrip
      rw [hstrip, PyDict.assign_assign, PyDict.assign_self hfind]
    rwa [hwithout]
  · rw [Telemetry.of, hmetrics, htelemetry]
    dsimp only
    rw [hattrs]

/-- The attributes of a value have distinct keys. -/
theorem distinct_attributesOf {l : List ConfigData} (h : (ConfigValue.dict otel).distinct = true)
    (hattrs : attributesOf otel = .ok l) : ∀ v ∈ l, v.distinct = true := by
  unfold attributesOf at hattrs
  split at hattrs
  next => cases hattrs; exact nofun
  next entries hmetrics =>
    split at hattrs
    next => cases hattrs; exact nofun
    next l' hl =>
      cases hattrs
      exact distinctItems_iff.mp (distinct_of_find (distinct_of_find h hmetrics) hl)
    next => cases hattrs
  next => cases hattrs

/-- The metrics of what was merged without the attributes. -/
theorem metrics_of_merged {r : ConfigEntries} {l l' : List ConfigData}
    (hbase : otelShape baseOtel = true) (hnew : otelShape newOtel = true)
    (hl : attributesOf baseOtel = .ok l) (hl' : attributesOf newOtel = .ok l')
    (h : MergedAt never (PyDict.find "metrics".toList (withoutAttributes baseOtel))
      (PyDict.find "metrics".toList (withoutAttributes newOtel)) (PyDict.find "metrics".toList r)) :
    (PyDict.find "metrics".toList r = none ∧ l ++ l' = [] ∧
      (Telemetry.of baseOtel).merge (Telemetry.of newOtel) = .noMetrics) ∨
    ∃ entries, PyDict.find "metrics".toList r = some (.dict entries) ∧
      PyDict.find "attributes".toList entries = none ∧
      (Telemetry.of baseOtel).merge (Telemetry.of newOtel) = .metrics
        (some (l ++ l' : List ConfigData)) := by
  have hassign : ∀ {v : ConfigData} {otel : ConfigEntries},
      PyDict.find "metrics".toList (PyDict.assign "metrics".toList v otel) = some v :=
    fun {v otel} => by rw [PyDict.find_assign, if_pos rfl]
  cases otelView hbase with
  | noMetrics hfind hattrs hwithout hof =>
      rw [hwithout, hfind] at h
      obtain rfl : l = [] := by rw [hattrs] at hl; cases hl; rfl
      cases otelView hnew with
      -- neither side has metrics
      | noMetrics hfind' hattrs' hwithout' hof' =>
          rw [hwithout', hfind'] at h
          obtain rfl : l' = [] := by rw [hattrs'] at hl'; cases hl'; rfl
          exact .inl ⟨h, rfl, by rw [hof, hof']; rfl⟩
      -- only the new one has them
      | metrics entries l'' attributes hfind' hattrs' hwithout' hof' heq =>
          rw [hwithout', hassign] at h
          obtain rfl : l'' = l' := by rw [hattrs'] at hl'; cases hl'; rfl
          refine .inr ⟨strip entries, h, find_strip entries, ?_⟩
          rw [hof, hof', List.nil_append, ← heq]
          exact congrArg (fun a => Telemetry.metrics (some a)) (Multiset.zero_add _)
  | metrics entries l₁ attributes hfind hattrs hwithout hof heq =>
      rw [hwithout, hassign] at h
      obtain rfl : l₁ = l := by rw [hattrs] at hl; cases hl; rfl
      cases otelView hnew with
      -- only the base has them
      | noMetrics hfind' hattrs' hwithout' hof' =>
          rw [hwithout', hfind'] at h
          obtain rfl : l' = [] := by rw [hattrs'] at hl'; cases hl'; rfl
          refine .inr ⟨strip entries, h, find_strip entries, ?_⟩
          rw [hof, hof', List.append_nil, ← heq]
          exact congrArg (fun a => Telemetry.metrics (some a)) (Multiset.add_zero _)
      -- both have them, and the attributes are appended
      | metrics entries' l'' attributes' hfind' hattrs' hwithout' hof' heq' =>
          rw [hwithout', hassign] at h
          obtain rfl : l'' = l' := by rw [hattrs'] at hl'; cases hl'; rfl
          obtain ⟨u, hu, hmerged⟩ := h
          obtain ⟨merged, rfl⟩ := node_of_merged hmerged
          refine .inr ⟨merged, hu, find_attributes_merged hmerged, ?_⟩
          rw [hof, hof', ← Multiset.coe_add, ← heq, ← heq']
          rfl

/-- The merge of the two `opentelemetry` values meets the rule of the merge. -/
theorem mergesTo_mergeOpentelemetry (hbase : otelShape baseOtel = true)
    (hnew : otelShape newOtel = true)
    (h : (ConfigValue.dict baseOtel).distinct = true)
    (h' : (ConfigValue.dict newOtel).distinct = true) :
    MergesTo never (.dict (withoutAttributes baseOtel)) (.dict (withoutAttributes newOtel))
      (MergedOtel baseOtel newOtel) (mergeOpentelemetry basePath newPath baseOtel newOtel) := by
  obtain ⟨l, hl⟩ : ∃ l, attributesOf baseOtel = .ok l := by
    cases otelView hbase with
    | noMetrics _ hattrs => exact ⟨_, hattrs⟩
    | metrics _ _ _ _ hattrs => exact ⟨_, hattrs⟩
  obtain ⟨l', hl'⟩ : ∃ l, attributesOf newOtel = .ok l := by
    cases otelView hnew with
    | noMetrics _ hattrs => exact ⟨_, hattrs⟩
    | metrics _ _ _ _ hattrs => exact ⟨_, hattrs⟩
  have hentries :=
    mergesEntries_mergeEntries (withoutAttributes newOtel) (withoutAttributes baseOtel) []
    (distinct_withoutAttributes hbase h) (distinct_withoutAttributes hnew h')
  have hdistinct : ∀ v ∈ l ++ l', v.distinct = true := by
    intro v hv
    rcases List.mem_append.mp hv with hv | hv
    · exact distinct_attributesOf h hl v hv
    · exact distinct_attributesOf h' hl' v hv
  have hmerge : mergeOpentelemetry basePath newPath baseOtel newOtel =
      let r := mergeEntries true (withoutAttributes newOtel) (withoutAttributes baseOtel) []
      if r.2 ≠ [] then
        .error (.valueError ("opentelemetry config conflict: ".toList ++ conflictsList r.2 ++
          " defined differently in ".toList ++ basePath ++ " and ".toList ++ newPath))
      else putAttributes (l ++ l') r.1 := by
    rw [mergeOpentelemetry, hl, hl']
    rfl
  rw [hmerge]
  generalize mergeEntries true (withoutAttributes newOtel) (withoutAttributes baseOtel)
    [] = r at hentries
  obtain ⟨r, conflicts⟩ := r
  rcases (hentries.value rfl).noted with ⟨hnone, hmerged⟩ | ⟨⟨new, hne, hconflicts⟩, hnot⟩
  -- no conflict: the attributes are put back into what is merged
  · obtain rfl : conflicts = [] := hnone
    have hmetrics : MergedAt never (PyDict.find "metrics".toList (withoutAttributes baseOtel))
        (PyDict.find "metrics".toList (withoutAttributes newOtel))
        (PyDict.find "metrics".toList r) := by
      rcases hentries.noted with ⟨-, hkeys⟩ | ⟨⟨new, hne, hconflicts⟩, -⟩
      · exact hkeys _
      · exact absurd hconflicts.symm hne
    rw [if_neg (not_not.mpr rfl), putAttributes]
    rcases metrics_of_merged hbase hnew hl hl' hmetrics with ⟨hfind, hattrs, htel⟩ |
      ⟨entries, hfind, hattrs, htel⟩
    -- without metrics there are no attributes either
    · rw [hfind]
      dsimp only
      rw [if_neg (not_not.mpr hattrs)]
      have hwithout : withoutAttributes r = r := by rw [withoutAttributes, hfind]
      refine ⟨hentries.distinct, ?_, hwithout.symm ▸ hmerged, ?_⟩
      · rw [otelShape, hfind]
      · rw [Telemetry.of, hfind, htel]
    · rw [hfind]
      exact mergedOtel_assign hentries.distinct hmerged hfind hattrs hdistinct htel
  -- a conflict raises
  · obtain rfl : conflicts = new := hconflicts
    rw [if_pos hne]
    exact ⟨⟨_, rfl⟩, hnot⟩

/-! ### Configurations -/

/-- The values that are taken as a whole: a profile, `cache` and `posix`. -/
def wholeValues : List PyStr → Bool
  | [field, _] => field = "profiles".toList
  | [field] => field = "cache".toList ∨ field = "posix".toList
  | _ => false

/-- What a field of a configuration without `include` is. -/
def shapeField (field : PyStr) : ConfigData → Bool
  | .dict entries =>
      (field ∈ ["profiles".toList, "path_mapping".toList, "experimental_features".toList,
        "cache".toList,
        "posix".toList, "opentelemetry".toList]) &&
        (field ≠ "opentelemetry".toList || otelShape entries)
  | _ => false

/-- What is merged on paths of a field. -/
def outlineField (field : PyStr) : ConfigData → ConfigData
  | .dict entries =>
      .dict (if field = "opentelemetry".toList then withoutAttributes entries else entries)
  | v => v

/-- What is merged on paths. -/
def outline (config : ConfigEntries) : ConfigEntries :=
  config.map fun e => (e.1, outlineField e.1 e.2)

/-- What is observed of a configuration on its paths. -/
def paths (config : ConfigEntries) : List PyStr → Option ConfigNode :=
  look wholeValues (.dict (outline config))

/-- What is observed of the telemetry. -/
def telemetry (config : ConfigEntries) : Option Telemetry :=
  match PyDict.find "opentelemetry".toList config with
  | some (.dict otel) => some (.of otel)
  | _ => none

/-- The keys are distinct, and the fields are of the right shape. -/
structure Shape (config : ConfigEntries) : Prop where
  distinct : (ConfigValue.dict config).distinct = true
  fields : ∀ e ∈ config, shapeField e.1 e.2 = true

/-- The outline is taken field by field. -/
theorem find_outline (config : ConfigEntries) (field : PyStr) :
    PyDict.find field (outline config) = (PyDict.find field config).map (outlineField field) := by
  induction config with
  | nil => rfl
  | cons e config ih =>
      obtain ⟨field', v⟩ := e
      rw [outline, List.map_cons, PyDict.find, PyDict.find]
      split
      next heq => rw [heq]; rfl
      next => exact ih

theorem under_wholeValues (field : PyStr) (h : field ≠ "profiles".toList)
    (h' : ¬(field = "cache".toList ∨ field = "posix".toList)) :
      under wholeValues field = never := by
  funext path
  rcases path with _ | ⟨name, _ | ⟨name', path⟩⟩
  · exact decide_eq_false h'
  · exact decide_eq_false h
  · rfl

theorem Shape.find {config : ConfigEntries} {field : PyStr} (h : Shape config)
    (hfind : PyDict.find field config = some v) :
    ∃ entries, v = .dict entries ∧ (ConfigValue.dict entries).distinct = true ∧
      shapeField field (.dict entries) = true := by
  have hshape := h.fields _ (PyDict.mem_of_find hfind)
  have hdistinct := distinct_of_find h.distinct hfind
  cases v with
  | scalar | list => cases hshape
  | dict entries => exact ⟨entries, rfl, hdistinct, hshape⟩

/-- The result of a merge of the values of a field. -/
structure MergedField (field : PyStr) (v w : ConfigEntries) (u : ConfigData) : Prop where
  distinct : u.distinct = true
  shape : shapeField field u = true
  merged : Merged (under wholeValues field) (outlineField field (.dict v))
    (outlineField field (.dict w))
    (outlineField field u)
  telemetry : ∀ entries, u = .dict entries → field = "opentelemetry".toList →
    Telemetry.of entries = (Telemetry.of v).merge (Telemetry.of w)

theorem bind_pure_eq_map {α β : Type} (r : Except ConfigFileError α) (f : α → β) :
    (r >>= fun u => pure (f u)) = r.map f := by
  cases r <;> rfl

theorem MergesTo.imp {α β : Type} {merged : α → Prop} {merged' : β → Prop} {f : α → β}
    {r : Except ConfigFileError α} (h : MergesTo atomic v w merged r)
    (himp : ∀ u, merged u → merged' (f u)) : MergesTo atomic v w merged' (r.map f) := by
  cases r with
  | ok u => exact himp u h
  | error e => exact h

section Fields

variable {entries entries' : ConfigEntries}

theorem outlineField_of_ne (h : key ≠ "opentelemetry".toList) (v : ConfigData) :
    outlineField key v = v := by
  cases v with
  | dict entries => rw [outlineField, if_neg h]
  | scalar | list => rfl

/-- A field that is merged as a dictionary. -/
theorem mergedField_dict {u : ConfigEntries} (hne : key ≠ "opentelemetry".toList)
    (hshape : shapeField key (.dict entries) = true) (hu : (ConfigValue.dict u).distinct = true)
    (hmerged : Merged (under wholeValues key) (.dict entries) (.dict entries') (.dict u)) :
    MergedField key entries entries' (.dict u) where
  distinct := hu
  shape := by
    rw [shapeField, decide_eq_true hne, Bool.true_or] at hshape ⊢
    exact hshape
  merged := by rwa [outlineField_of_ne hne, outlineField_of_ne hne, outlineField_of_ne hne]
  telemetry := fun _ _ heq => absurd heq hne

/-- The field `profiles`. -/
theorem mergesTo_profiles (hv : (ConfigValue.dict entries).distinct = true)
    (hw : (ConfigValue.dict entries').distinct = true)
    (hshape : shapeField "profiles".toList (.dict entries) = true) :
    MergesTo (under wholeValues "profiles".toList) (.dict entries) (.dict entries')
      (fun u => ∃ u', u = some u' ∧ MergedField "profiles".toList entries entries' u')
      (mergeField basePath newPath "profiles".toList (some (.dict entries))
      (some (.dict entries'))) := by
  have hmap :
      mergeField basePath newPath "profiles".toList (some (.dict entries)) (some (.dict entries')) =
      (mergeProfiles basePath newPath entries entries').map fun u => some (.dict u) := by
    rw [mergeField, if_pos rfl]
    exact bind_pure_eq_map _ _
  have hnames : ∀ name, under (under wholeValues "profiles".toList) name [] = true := by
    intro name
    show decide ("profiles".toList = "profiles".toList) = true
    exact decide_eq_true rfl
  rw [hmap]
  refine (mergesTo_mergeProfiles (by decide) hnames hv hw).imp fun u ⟨hu, hmerged⟩ => ?_
  exact ⟨_, rfl, mergedField_dict (by decide) hshape hu hmerged⟩

/-- The fields that are merged at one level. -/
theorem mergesTo_flat (hkey : key = "path_mapping".toList ∨ key = "experimental_features".toList)
    (hv : (ConfigValue.dict entries).distinct = true)
    (hw : (ConfigValue.dict entries').distinct = true)
    (hshape : shapeField key (.dict entries) = true) :
    MergesTo (under wholeValues key) (.dict entries) (.dict entries')
      (fun u => ∃ u', u = some u' ∧ MergedField key entries entries' u')
      (mergeField basePath newPath key (some (.dict entries)) (some (.dict entries'))) := by
  -- the field is none of those with a rule of their own
  obtain ⟨hprofiles, hwhole, hne⟩ : key ≠ "profiles".toList ∧
      ¬(key = "cache".toList ∨ key = "posix".toList) ∧ key ≠ "opentelemetry".toList := by
    rcases hkey with rfl | rfl
    · exact ⟨by decide, by decide, by decide⟩
    · exact ⟨by decide, by decide, by decide⟩
  have hmap : mergeField basePath newPath key (some (.dict entries)) (some (.dict entries')) =
      (if (mergeEntries true entries' entries []).2 ≠ [] then
        .error (.valueError ("Config merge conflict: ".toList ++
          conflictsList (mergeEntries true entries' entries []).2 ++
          " have different values in ".toList ++ basePath ++ " and ".toList ++ newPath))
        else .ok (mergeEntries true entries' entries []).1 :
          Except ConfigFileError ConfigEntries).map
        fun u => some (.dict u) := by
    rw [mergeField, if_neg hprofiles, if_pos hkey]
    by_cases hconflicts : (mergeEntries true entries' entries []).2 ≠ []
    · rw [if_pos hconflicts]
      exact if_pos hconflicts
    · rw [if_neg hconflicts]
      exact if_neg hconflicts
  have hentries := mergesEntries_mergeEntries entries' entries [] hv hw
  rw [hmap, under_wholeValues key hprofiles hwhole]
  refine (hentries.to rfl).imp fun u ⟨hu, hmerged⟩ => ⟨_, rfl, mergedField_dict hne hshape hu ?_⟩
  rwa [under_wholeValues key hprofiles hwhole]

theorem otelShape_of_shapeField (h : shapeField "opentelemetry".toList (.dict entries) = true) :
    otelShape entries = true := by
  rw [shapeField, Bool.and_eq_true, Bool.or_eq_true, decide_eq_true_iff] at h
  exact h.2.resolve_left fun hne => of_decide_eq_true hne rfl

/-- The field `opentelemetry`. -/
theorem mergesTo_opentelemetry (hv : (ConfigValue.dict entries).distinct = true)
    (hw : (ConfigValue.dict entries').distinct = true)
    (hshape : shapeField "opentelemetry".toList (.dict entries) = true)
    (hshape' : shapeField "opentelemetry".toList (.dict entries') = true) :
    MergesTo (under wholeValues "opentelemetry".toList) (.dict (withoutAttributes entries))
      (.dict (withoutAttributes entries'))
      (fun u => ∃ u', u = some u' ∧ MergedField "opentelemetry".toList entries entries' u')
      (mergeField basePath newPath "opentelemetry".toList (some (.dict entries))
      (some (.dict entries'))) := by
  have hotel := otelShape_of_shapeField hshape
  have hotel' := otelShape_of_shapeField hshape'
  have hnever : under wholeValues "opentelemetry".toList = never :=
    under_wholeValues _ (by decide) (by decide)
  have hmap : mergeField basePath newPath "opentelemetry".toList (some (.dict entries))
      (some (.dict entries')) =
        (mergeOpentelemetry basePath newPath entries entries').map fun u => some (.dict u) := by
    rw [mergeField, if_neg (by decide), if_neg (by decide), if_pos rfl]
    exact bind_pure_eq_map _ _
  rw [hmap, hnever]
  refine (mergesTo_mergeOpentelemetry hotel hotel' hv hw).imp fun u hu => ⟨_, rfl, ?_⟩
  constructor
  · exact hu.distinct
  · rw [shapeField, hu.shape, Bool.or_true, Bool.and_true]
    decide
  · rw [hnever, outlineField, outlineField, outlineField, if_pos rfl, if_pos rfl, if_pos rfl]
    exact hu.merged
  · rintro u' heq -
    cases heq
    exact hu.telemetry

/-- The fields that have to agree as a whole. -/
theorem mergesTo_whole (hkey : key = "cache".toList ∨ key = "posix".toList)
    (hv : (ConfigValue.dict entries).distinct = true)
    (hw : (ConfigValue.dict entries').distinct = true)
    (hshape : shapeField key (.dict entries) = true) :
    MergesTo (under wholeValues key) (.dict entries) (.dict entries')
      (fun u => ∃ u', u = some u' ∧ MergedField key entries entries' u')
      (mergeField basePath newPath key (some (.dict entries)) (some (.dict entries'))) := by
  obtain ⟨hprofiles, hflat, hne⟩ : key ≠ "profiles".toList ∧
      ¬(key = "path_mapping".toList ∨ key = "experimental_features".toList) ∧
        key ≠ "opentelemetry".toList := by
    rcases hkey with rfl | rfl
    · exact ⟨by decide, by decide, by decide⟩
    · exact ⟨by decide, by decide, by decide⟩
  have hatomic : under wholeValues key [] = true := decide_eq_true hkey
  rw [mergeField, if_neg hprofiles, if_neg hflat, if_neg hne, if_pos hkey]
  split
  next hnot =>
    rw [Bool.not_eq_true'] at hnot
    refine ⟨⟨_, rfl⟩, fun hagree => ?_⟩
    rw [eq_of_agree_atomic hatomic hagree] at hnot
    cases hnot
  next heq =>
    rw [Bool.not_eq_true', Bool.not_eq_false] at heq
    exact ⟨_, rfl, mergedField_dict hne hshape hv (merged_atomic hatomic hv hw heq)⟩

/-- **Every field** of two configurations is merged on paths. -/
theorem mergeField_merges (hv : (ConfigValue.dict entries).distinct = true)
    (hw : (ConfigValue.dict entries').distinct = true)
    (hshape : shapeField key (.dict entries) = true)
    (hshape' : shapeField key (.dict entries') = true) :
    MergesTo (under wholeValues key) (outlineField key (.dict entries))
      (outlineField key (.dict entries'))
      (fun u => ∃ u', u = some u' ∧ MergedField key entries entries' u')
      (mergeField basePath newPath key (some (.dict entries)) (some (.dict entries'))) := by
  have hkey :
      key = "profiles".toList ∨
        (key = "path_mapping".toList ∨ key = "experimental_features".toList) ∨
      (key = "cache".toList ∨ key = "posix".toList) ∨ key = "opentelemetry".toList := by
    have hmem := of_decide_eq_true (Bool.and_eq_true_iff.mp hshape).1
    simpa only [List.mem_cons, List.not_mem_nil, or_false, or_assoc] using hmem
  by_cases hotel : key = "opentelemetry".toList
  · subst hotel
    rw [outlineField, outlineField, if_pos rfl, if_pos rfl]
    exact mergesTo_opentelemetry hv hw hshape hshape'
  · rw [outlineField_of_ne hotel, outlineField_of_ne hotel]
    rcases hkey with rfl | hflat | hwhole | heq
    · exact mergesTo_profiles hv hw hshape
    · exact mergesTo_flat hflat hv hw hshape
    · exact mergesTo_whole hwhole hv hw hshape
    · exact absurd heq hotel

end Fields

/-! ### The merge of two configurations -/

/-- A loop over keys that sets each of them. -/
theorem foldlM_setField {field : PyStr → Except ConfigFileError (Option ConfigData)}
    {P : PyStr → ConfigData → Prop} {E : ConfigFileError → Prop} {keys : List PyStr}
    (hkeys : keys.Nodup)
    (hfield : ∀ key ∈ keys, Ends (fun u => ∃ u', u = some u' ∧ P key u') E (field key))
    {result : ConfigEntries} (hresult : (result.map Prod.fst).Nodup) :
    Ends (fun m => (m.map Prod.fst).Nodup ∧ ∀ key,
        (key ∈ keys → ∃ u, PyDict.find key m = some u ∧ P key u) ∧
          (key ∉ keys → PyDict.find key m = PyDict.find key result)) E
      (keys.foldlM (fun result key => do return setField result key (← field key)) result) := by
  induction keys generalizing result with
  | nil => exact ⟨hresult, fun key => ⟨nofun, fun _ => rfl⟩⟩
  | cons key keys ih =>
      obtain ⟨hkey, hkeys⟩ := List.nodup_cons.mp hkeys
      obtain ⟨hthis, hfield⟩ := List.forall_mem_cons.mp hfield
      rw [List.foldlM_cons]
      cases hu : field key with
      -- the first field that raises ends the loop
      | error e =>
          rw [hu] at hthis
          exact hthis
      | ok u =>
          rw [hu] at hthis
          obtain ⟨u, rfl, hP⟩ := hthis
          -- the fields behind it leave this one alone, as the keys are distinct
          have hrest := ih hkeys hfield (PyDict.nodup_assign key u hresult)
          change Ends _ _ (keys.foldlM _ (PyDict.assign key u result))
          cases hm : keys.foldlM (fun result key => do return setField result key (← field key))
              (PyDict.assign key u result) with
          | error e =>
              rw [hm] at hrest
              exact hrest
          | ok m =>
              rw [hm] at hrest
              obtain ⟨hnodup, hrest⟩ := hrest
              refine ⟨hnodup, fun k => ⟨fun hk => ?_, fun hk => ?_⟩⟩
              · rcases List.mem_cons.mp hk with rfl | hk
                · refine ⟨u, ?_, hP⟩
                  rw [(hrest k).2 hkey, PyDict.find_assign, if_pos rfl]
                · exact (hrest k).1 hk
              · obtain ⟨hne, hk⟩ := not_or.mp (List.mem_cons.not.mp hk)
                rw [(hrest k).2 hk, PyDict.find_assign, if_neg hne]

/-- The result of a merge of two configurations. -/
structure MergedConfig (baseConfig newConfig u : ConfigEntries) : Prop where
  shape : Shape u
  merged : Merged wholeValues (.dict (outline baseConfig)) (.dict (outline newConfig))
    (.dict (outline u))
  telemetry :
      telemetry u = Option.merge Telemetry.merge (telemetry baseConfig) (telemetry newConfig)

/-- What becomes of a key of one of two configurations. -/
structure MergedKey (baseConfig newConfig : ConfigEntries) (key : PyStr) (u : ConfigData) :
    Prop where
  distinct : u.distinct = true
  shape : shapeField key u = true
  merged : MergedAt (under wholeValues key) (PyDict.find key (outline baseConfig))
    (PyDict.find key (outline newConfig)) (some (outlineField key u))
  telemetry : key = "opentelemetry".toList → ∃ otel, u = .dict otel ∧
    some (Telemetry.of otel) = Option.merge Telemetry.merge (telemetry baseConfig)
      (telemetry newConfig)

section Configs

variable {baseConfig newConfig : ConfigEntries} {iterate : List PyStr → List PyStr}

theorem telemetry_of_find {config otel : ConfigEntries}
    (h : PyDict.find "opentelemetry".toList config = some (.dict otel)) :
    telemetry config = some (.of otel) := by
  rw [telemetry, h]

theorem telemetry_of_none {config : ConfigEntries}
    (h : PyDict.find "opentelemetry".toList config = none) :
    telemetry config = none := by
  rw [telemetry, h]

theorem mergedKey_base (hbase : Shape baseConfig) (hv : PyDict.find key baseConfig = some v)
    (hnone : PyDict.find key newConfig = none) : MergedKey baseConfig newConfig key v := by
  obtain ⟨entries, rfl, hdistinct, hshape⟩ := hbase.find hv
  refine ⟨hdistinct, hshape, ?_, ?_⟩
  · rw [find_outline, find_outline, hv, hnone]
    rfl
  · rintro rfl
    exact ⟨entries, rfl, by rw [telemetry_of_find hv, telemetry_of_none hnone]; rfl⟩

theorem mergedKey_new (hnew : Shape newConfig) (hnone : PyDict.find key baseConfig = none)
    (hw : PyDict.find key newConfig = some w) : MergedKey baseConfig newConfig key w := by
  obtain ⟨entries, rfl, hdistinct, hshape⟩ := hnew.find hw
  refine ⟨hdistinct, hshape, ?_, ?_⟩
  · rw [find_outline, find_outline, hw, hnone]
    rfl
  · rintro rfl
    exact ⟨entries, rfl, by rw [telemetry_of_find hw, telemetry_of_none hnone]; rfl⟩

/-- A key of one of the configurations or of both. -/
theorem ends_mergeField (hbase : Shape baseConfig) (hnew : Shape newConfig)
    (hkey : key ∈ baseConfig.map Prod.fst ∨ key ∈ newConfig.map Prod.fst) :
    Ends (fun u => ∃ u', u = some u' ∧ MergedKey baseConfig newConfig key u')
      (fun e => (∃ message, e = .valueError message) ∧
        ¬Agree Agrees (paths baseConfig) (paths newConfig))
      (mergeField basePath newPath key (PyDict.find key baseConfig)
      (PyDict.find key newConfig)) := by
  cases hv : PyDict.find key baseConfig with
  | none =>
      cases hw : PyDict.find key newConfig with
      -- a key of neither side is not asked for
      | none =>
          rw [PyDict.find_eq_none_iff] at hv hw
          exact absurd hkey (not_or.mpr ⟨hv, hw⟩)
      | some w => exact ⟨w, rfl, mergedKey_new hnew hv hw⟩
  | some v =>
      cases hw : PyDict.find key newConfig with
      | none => exact ⟨v, rfl, mergedKey_base hbase hv hw⟩
      -- a key of both sides
      | some w =>
          obtain ⟨entries, rfl, hdistinct, hshape⟩ := hbase.find hv
          obtain ⟨entries', rfl, hdistinct', hshape'⟩ := hnew.find hw
          have hfind := find_outline baseConfig key
          have hfind' := find_outline newConfig key
          rw [hv] at hfind
          rw [hw] at hfind'
          have hfield : MergesTo _ _ _ _
              (mergeField basePath newPath key (some (.dict entries)) (some (.dict entries'))) :=
            mergeField_merges hdistinct hdistinct' hshape hshape'
          cases hu : mergeField basePath newPath key (some (.dict entries))
            (some (.dict entries')) with
          -- what raises is in conflict
          | error e =>
              rw [hu] at hfield
              obtain ⟨hraised, hnot⟩ := hfield
              exact ⟨hraised, fun hagree => hnot (agree_of_dict rfl hagree hfind hfind')⟩
          | ok u =>
              rw [hu] at hfield
              obtain ⟨u, rfl, hmerged⟩ := hfield
              refine ⟨u, rfl, hmerged.distinct, hmerged.shape, ?_, ?_⟩
              · rw [hfind, hfind']
                exact ⟨_, rfl, hmerged.merged⟩
              -- for `opentelemetry` the attributes are counted as well
              · rintro rfl
                have hu := hmerged.shape
                cases u with
                | scalar | list => cases hu
                | dict otel =>
                    refine ⟨otel, rfl, ?_⟩
                    rw [telemetry_of_find hv, telemetry_of_find hw, hmerged.telemetry otel rfl rfl]
                    rfl

theorem mem_allKeys : key ∈ allKeys baseConfig newConfig ↔
    key ∈ baseConfig.map Prod.fst ∨ key ∈ newConfig.map Prod.fst := by
  rw [allKeys, List.mem_append, List.mem_filter, decide_eq_true_iff]
  tauto

theorem nodup_allKeys (hbase : Shape baseConfig) (hnew : Shape newConfig) :
    (allKeys baseConfig newConfig).Nodup := by
  obtain ⟨hnodup, -⟩ := distinct_dict_iff.mp hbase.distinct
  obtain ⟨hnodup', -⟩ := distinct_dict_iff.mp hnew.distinct
  refine hnodup.append (hnodup'.filter _) fun key hk hk' => ?_
  exact of_decide_eq_true (List.mem_filter.mp hk').2 hk

/-- A configuration whose keys are those of the two, each with what becomes of it. -/
theorem mergedConfig_of_keys {m : ConfigEntries} (hnodup : (m.map Prod.fst).Nodup)
    (hsome : ∀ key ∈ allKeys baseConfig newConfig, ∃ u, PyDict.find key m = some u ∧
      MergedKey baseConfig newConfig key u)
    (hnone : ∀ key, key ∉ allKeys baseConfig newConfig → PyDict.find key m = none) :
    MergedConfig baseConfig newConfig m := by
  have hentry : ∀ e ∈ m, MergedKey baseConfig newConfig e.1 e.2 := by
    intro e he
    have hfind : PyDict.find e.1 m = some e.2 := (PyDict.find_eq_some_iff hnodup).mpr he
    by_cases hkey : e.1 ∈ allKeys baseConfig newConfig
    · obtain ⟨u, hu, hmerged⟩ := hsome e.1 hkey
      rw [hfind] at hu
      cases hu
      exact hmerged
    · rw [hnone e.1 hkey] at hfind
      cases hfind
  have hnot : ∀ key, key ∉ allKeys baseConfig newConfig →
      PyDict.find key baseConfig = none ∧ PyDict.find key newConfig = none := by
    intro key hkey
    rw [mem_allKeys, not_or] at hkey
    exact ⟨PyDict.find_eq_none_iff.mpr hkey.1, PyDict.find_eq_none_iff.mpr hkey.2⟩
  constructor
  · exact ⟨distinct_dict_iff.mpr ⟨hnodup, fun e he => (hentry e he).distinct⟩,
      fun e he => (hentry e he).shape⟩
  · refine merged_dict rfl fun key => ?_
    by_cases hkey : key ∈ allKeys baseConfig newConfig
    · obtain ⟨u, hu, hmerged⟩ := hsome key hkey
      rw [find_outline m, hu]
      exact hmerged.merged
    · obtain ⟨hbase, hnew⟩ := hnot key hkey
      rw [find_outline, find_outline, find_outline, hbase, hnew, hnone key hkey]
      rfl
  · by_cases hkey : "opentelemetry".toList ∈ allKeys baseConfig newConfig
    · obtain ⟨u, hu, hmerged⟩ := hsome _ hkey
      obtain ⟨otel, rfl, hotel⟩ := hmerged.telemetry rfl
      rw [telemetry_of_find hu, hotel]
    · obtain ⟨hbase, hnew⟩ := hnot _ hkey
      rw [telemetry_of_none (hnone _ hkey), telemetry_of_none hbase, telemetry_of_none hnew]
      rfl

/-- **Two configurations are merged on paths**, in whatever order their keys are gone through. -/
theorem mergesTo_mergeConfigs (hiterate : ∀ l, (iterate l).Perm l) (hbase : Shape baseConfig)
    (hnew : Shape newConfig) :
    MergesTo wholeValues (.dict (outline baseConfig)) (.dict (outline newConfig))
      (MergedConfig baseConfig newConfig)
      (mergeConfigs basePath newPath iterate baseConfig newConfig) := by
  have hmem :
      ∀ {key}, key ∈ iterate (allKeys baseConfig newConfig) ↔ key ∈ allKeys baseConfig newConfig :=
    (hiterate _).mem_iff
  have hloop : Ends _ _ (mergeConfigs basePath newPath iterate baseConfig newConfig) :=
    foldlM_setField ((hiterate _).nodup_iff.mpr (nodup_allKeys hbase hnew))
      (fun key hkey => ends_mergeField hbase hnew (mem_allKeys.mp (hmem.mp hkey))) List.nodup_nil
  cases hm : mergeConfigs basePath newPath iterate baseConfig newConfig with
  | error e =>
      rw [hm] at hloop
      exact hloop
  | ok m =>
      rw [hm] at hloop
      obtain ⟨hnodup, hkeys⟩ := hloop
      exact mergedConfig_of_keys hnodup (fun key hkey => (hkeys key).1 (hmem.mpr hkey))
        fun key hkey => (hkeys key).2 fun hk => hkey (hmem.mp hk)

end Configs

end ConfigMerge

end MultiStorageClient
