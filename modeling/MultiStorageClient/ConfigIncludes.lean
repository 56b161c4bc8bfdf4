/-
MultiStorageClient/ConfigIncludes.lean

`_load_and_merge_includes` of `config.py`.

Included files are merged one after the other, and every merge is one on paths.  So
the files are merged exactly when the main configuration and all of them agree with
one another, and the result has the first value on every path (`loadAndMerge_result`).
Hence their order does not matter (`SameButOrder`); a file that is included once more
changes the attributes of the metrics only (`Repeats`), if its values are equal to
themselves, which NaN is not.
-/
import MultiStorageClient.ConfigMerge
import MultiStorageClient.PosixPath

namespace MultiStorageClient

open PartialMaps ConfigValue ConfigNode ConfigMerge

namespace ConfigIncludes

section Code

/- The working directory, what `jsonschema` accepts, the files with what is read from them (or the
text of the exception), and the order in which a set of strings is gone through. -/
variable (cwd : PyStr) (accepts : ConfigData → Bool)
  (files : PyStr → Option (Except PyStr ConfigData))
  (iterate : List PyStr → List PyStr) (mainConfigPath : PyStr)

/-- `_resolve_include_path` -/
def resolveIncludePath (includePath parentConfigPath : PyStr) : PyStr :=
  if includePath.startswith ['/'] then PyStr.abspath cwd includePath
  else PyStr.abspath cwd (PyStr.join (PyStr.dirname parentConfigPath) includePath)

/-- `r.get("replica_profile")` -/
def replicaProfile : ConfigData → Option PyStr
  | .dict replica =>
      match PyDict.find "replica_profile".toList replica with
      | some (.scalar (.str s)) => some s
      | _ => none
  | _ => none

/-- The first name that is in the replicas of a profile more than once. -/
def duplicateReplica : ConfigData → Option PyStr
  | .dict profile =>
      match PyDict.find "replicas".toList profile with
      | some (.list replicas) =>
          let replicaProfiles := replicas.filterMap replicaProfile
          replicaProfiles.find? fun name => 1 < replicaProfiles.count name
      | _ => none
  | _ => none

/-- `config_dict.get("profiles", {}).items()` -/
def profilesOf : ConfigData → ConfigEntries
  | .dict config =>
      match PyDict.find "profiles".toList config with
      | some (.dict profiles) => profiles
      | _ => []
  | _ => []

/-- `validate_config` -/
def validateConfig (config : ConfigData) : Except ConfigFileError Unit :=
  if !accepts config then .error .runtimeError
  else
    match (profilesOf config).findSome? fun e => duplicateReplica e.2 with
    | some name =>
        .error (.valueError ("Duplicate replica entry for profile '".toList ++ name ++ "'".toList))
    | none => .ok ()

/-- The part of the loop of `_load_and_merge_includes` that loads a file. -/
def loadIncluded (includePath : PyStr) : Except ConfigFileError ConfigEntries :=
  let resolvedPath := resolveIncludePath cwd includePath mainConfigPath
  match files resolvedPath with
  | none =>
      .error (.valueError
        ("Included config file not found: ".toList ++ resolvedPath ++ " (from ".toList ++
        mainConfigPath ++ ")".toList))
  -- a file that cannot be read or parsed is reported under its resolved path
  | some (.error e) =>
      .error (.valueError
        ("Failed to load included config ".toList ++ resolvedPath ++ ": ".toList ++ e))
  | some (.ok includedConfig) => do
      validateConfig accepts includedConfig
      match includedConfig with
      | .dict entries =>
          -- one level only: an included file must not include another
          if "include".toList ∈ entries.map Prod.fst then
            .error (.valueError ("Nested includes not allowed: ".toList ++ resolvedPath ++
              " contains 'include' directive".toList))
          else .ok entries
      | _ => .error .typeError

/-- `main_config_dict.get("include", [])` -/
def includePaths (mainConfig : ConfigEntries) : List PyStr :=
  match PyDict.find "include".toList mainConfig with
  | some (.list paths) => paths.filterMap fun
      | .scalar (.str path) => some path
      | _ => none
  | _ => []

/-- The main configuration without `include`. -/
def withoutInclude (mainConfig : ConfigEntries) : ConfigEntries :=
  mainConfig.filter fun e => e.1 ≠ "include".toList

/-- The body of the loop. -/
def mergeIncluded (mergedConfig : ConfigEntries) (includePath : PyStr) :
    Except ConfigFileError ConfigEntries := do
  let includedConfig ← loadIncluded cwd accepts files mainConfigPath includePath
  mergeConfigs mainConfigPath (resolveIncludePath cwd includePath mainConfigPath) iterate
    mergedConfig
    includedConfig

/-- `_load_and_merge_includes` -/
def loadAndMergeIncludes (mainConfig : ConfigEntries) : Except ConfigFileError ConfigEntries :=
  (includePaths mainConfig).foldlM (mergeIncluded cwd accepts files iterate mainConfigPath)
    (withoutInclude mainConfig)

end Code

/-! ### What the schema says -/

/-- An object whose values meet `p`. -/
def objectOf (p : ConfigData → Bool) : ConfigData → Bool
  | .dict entries => entries.all fun e => p e.2
  | _ => false

/-- The value is a string. -/
def isString : ConfigData → Bool
  | .scalar (.str _) => true
  | _ => false

/-- The value is a boolean. -/
def isBoolean : ConfigData → Bool
  | .scalar (.bool _) => true
  | _ => false

/-- What `CONFIG_SCHEMA` says of a field, as far as the merge rests on it. -/
def schemaField (field : PyStr) (v : ConfigData) : Bool :=
  if field = "include".toList then
    match v with
    | .list items => items.all isString
    | _ => false
  else if field = "experimental_features".toList then objectOf isBoolean v
  else if field = "profiles".toList then objectOf (objectOf fun _ => true) v
  else if field = "path_mapping".toList then objectOf isString v
  else shapeField field v

/-- What `CONFIG_SCHEMA` says of a configuration, as far as the merge rests on it; and the keys of
dictionaries are distinct. -/
def schemaShape : ConfigData → Bool
  | .dict config => (ConfigValue.dict config).distinct && config.all fun e => schemaField e.1 e.2
  | _ => false

mutual

/-- No value of a dictionary is NaN, at any depth. -/
def noNaN : ConfigData → Bool
  | .dict entries => noNaNEntries entries
  | v => !v.isNaN

/-- `noNaN`, for every value. -/
def noNaNEntries : ConfigEntries → Bool
  | [] => true
  | (_, v) :: entries => noNaN v && noNaNEntries entries

end

section Schema

variable {config entries : ConfigEntries} {field : PyStr} {v u : ConfigData}
  {atomic : List PyStr → Bool}
  {path : List PyStr}

theorem exists_of_objectOf {p : ConfigData → Bool} (h : objectOf p v = true) :
    ∃ entries, v = .dict entries ∧ ∀ e ∈ entries, p e.2 = true := by
  cases v with
  | scalar | list => cases h
  | dict entries => exact ⟨entries, rfl, fun e he => List.all_eq_true.mp h e he⟩

theorem shapeField_dict
    (h : field ∈ ["experimental_features".toList, "profiles".toList, "path_mapping".toList]) :
    shapeField field (.dict entries) = true := by
  simp only [List.mem_cons, List.not_mem_nil, or_false] at h
  rcases h with rfl | rfl | rfl
  · rfl
  · rfl
  · rfl

/-- A field that the schema allows, other than `include`, is of the shape that is merged. -/
theorem shapeField_of_schemaField (h : schemaField field v = true)
    (hne : field ≠ "include".toList) :
    shapeField field v = true := by
  unfold schemaField at h
  rw [if_neg hne] at h
  split at h
  next heq =>
    obtain ⟨entries, rfl, -⟩ := exists_of_objectOf h
    exact shapeField_dict (by simp [heq])
  next =>
    split at h
    next heq =>
      obtain ⟨entries, rfl, -⟩ := exists_of_objectOf h
      exact shapeField_dict (by simp [heq])
    next =>
      split at h
      next heq =>
        obtain ⟨entries, rfl, -⟩ := exists_of_objectOf h
        exact shapeField_dict (by simp [heq])
      next => exact h

theorem schemaShape_iff : schemaShape (.dict config) = true ↔
    (ConfigValue.dict config).distinct = true ∧ ∀ e ∈ config, schemaField e.1 e.2 = true := by
  rw [schemaShape, Bool.and_eq_true, List.all_eq_true]

/-- A valid configuration without `include` has the shape that is merged. -/
theorem shape_of_schema (h : schemaShape (.dict config) = true)
    (hinclude : "include".toList ∉ config.map Prod.fst) : Shape config := by
  obtain ⟨hdistinct, hfields⟩ := schemaShape_iff.mp h
  refine ⟨hdistinct, fun e he => shapeField_of_schemaField (hfields e he) fun heq => hinclude ?_⟩
  rw [← heq]
  exact List.mem_map_of_mem he

theorem shape_withoutInclude (h : schemaShape (.dict config) = true) :
    Shape (withoutInclude config) := by
  obtain ⟨hdistinct, hfields⟩ := schemaShape_iff.mp h
  obtain ⟨hnodup, hall⟩ := distinct_dict_iff.mp hdistinct
  refine ⟨distinct_dict_iff.mpr ⟨hnodup.sublist (List.filter_sublist.map Prod.fst), ?_⟩, ?_⟩
  · exact fun e he => hall e (List.mem_of_mem_filter he)
  · intro e he
    obtain ⟨he, hne⟩ := List.mem_filter.mp he
    exact shapeField_of_schemaField (hfields e he) (of_decide_eq_true hne)

/-! ### Values that are equal to themselves -/

theorem noNaNEntries_iff : noNaNEntries entries = true ↔ ∀ e ∈ entries, noNaN e.2 = true := by
  induction entries with
  | nil => simp [noNaNEntries]
  | cons e entries ih => simp [noNaNEntries, ih]

theorem isNaN_of_noNaN (h : noNaN v = true) : v.isNaN = false := by
  cases v with
  | dict entries => rfl
  | scalar s => simpa [noNaN] using h
  | list items => rfl

/-- What holds of a dictionary and of what is in it holds of what is found on its paths. -/
theorem of_look {P : ConfigData → Prop}
    (hP : ∀ entries key w, P (.dict entries) → PyDict.find key entries = some w → P w) (h : P v)
    (hu : look atomic v path = some (.leaf u)) : P u := by
  induction path generalizing v atomic with
  | nil =>
      rw [look] at hu
      split at hu
      · cases hu
        exact h
      · cases v with
        | dict entries => cases hu
        | scalar | list => cases hu; exact h
  | cons key path ih =>
      cases v with
      | scalar | list => cases hu
      | dict entries =>
          rw [look] at hu
          split at hu
          · cases hu
          · obtain ⟨w, hw, hu⟩ := Option.bind_eq_some_iff.mp hu
            exact ih (hP entries key w h hw) hu

theorem noNaN_of_look (h : noNaN v = true) (hu : look atomic v path = some (.leaf u)) :
    u.isNaN = false :=
  isNaN_of_noNaN <| of_look (P := fun v => noNaN v = true)
    (fun _ _ _ hentries hw => noNaNEntries_iff.mp hentries _ (PyDict.mem_of_find hw)) h hu

theorem distinct_of_look (h : v.distinct = true) (hu : look atomic v path = some (.leaf u)) :
    u.distinct = true :=
  of_look (P := fun v => v.distinct = true) (fun _ _ _ => distinct_of_find) h hu

/-- No NaN comes in when the attributes are taken out. -/
theorem noNaN_withoutAttributes (h : noNaN (.dict entries) = true) :
    noNaN (.dict (withoutAttributes entries)) = true := by
  have hall := noNaNEntries_iff.mp h
  unfold withoutAttributes
  split
  next metrics hmetrics =>
    have hm := noNaNEntries_iff.mp (hall _ (PyDict.mem_of_find hmetrics))
    refine noNaNEntries_iff.mpr fun e he => ?_
    rcases mem_assign he with rfl | he
    · exact noNaNEntries_iff.mpr fun e he => hm e (List.mem_of_mem_filter he)
    · exact hall e he
  next => exact h

theorem noNaN_of_objectOf {p : ConfigData → Bool} (hp : ∀ v, p v = true → noNaN v = true)
    (h : objectOf p v = true) : noNaN v = true := by
  obtain ⟨entries, rfl, hall⟩ := exists_of_objectOf h
  exact noNaNEntries_iff.mpr fun e he => hp _ (hall e he)

theorem noNaN_of_isString (v : ConfigData) (h : isString v = true) : noNaN v = true := by
  cases v with
  | list | dict => cases h
  | scalar s => cases s <;> first | rfl | cases h

theorem noNaN_of_isBoolean (v : ConfigData) (h : isBoolean v = true) : noNaN v = true := by
  cases v with
  | list | dict => cases h
  | scalar s => cases s <;> first | rfl | cases h

theorem keys_outline (config : ConfigEntries) :
    (outline config).map Prod.fst = config.map Prod.fst := by
  rw [outline, List.map_map]
  rfl

/-- The outline of a field has distinct keys. -/
theorem distinct_outlineField (h : v.distinct = true) (hshape : shapeField field v = true) :
    (outlineField field v).distinct = true := by
  cases v with
  | scalar | list => cases hshape
  | dict entries =>
      rw [outlineField]
      split
      next heq =>
        subst heq
        exact distinct_withoutAttributes (otelShape_of_shapeField hshape) h
      next => exact h

theorem distinct_outline (h : Shape config) :
    (ConfigValue.dict (outline config)).distinct = true := by
  obtain ⟨hnodup, hall⟩ := distinct_dict_iff.mp h.distinct
  refine distinct_dict_iff.mpr ⟨keys_outline config ▸ hnodup, fun e he => ?_⟩
  obtain ⟨e', he', rfl⟩ := List.mem_map.mp he
  exact distinct_outlineField (hall e' he') (h.fields e' he')

/-- A profile is taken as a whole, and is a dictionary. -/
theorem isNaN_of_look_profiles (h : objectOf (objectOf fun _ => true) v = true)
    (hu : look (under wholeValues "profiles".toList) v path = some (.leaf u)) :
      u.isNaN = false := by
  obtain ⟨profiles, rfl, hall⟩ := exists_of_objectOf h
  have hwhole : ∀ name, under (under wholeValues "profiles".toList) name [] = true := by
    intro name
    show decide ("profiles".toList = "profiles".toList) = true
    exact decide_eq_true rfl
  cases path with
  | nil => cases hu
  | cons name path =>
      rw [look_dict (by decide)] at hu
      obtain ⟨profile, hprofile, hu⟩ := Option.bind_eq_some_iff.mp hu
      rw [look_atomic (hwhole name)] at hu
      split at hu
      next =>
        cases hu
        obtain ⟨entries, hentries, -⟩ := exists_of_objectOf (hall _ (PyDict.mem_of_find hprofile))
        dsimp only at hentries
        rw [hentries]
        rfl
      next => cases hu

/-- The values on the paths of a field. -/
theorem isNaN_of_look_field (hfield : schemaField field v = true) (hne : field ≠ "include".toList)
    (hnan : field = "opentelemetry".toList → noNaN v = true)
    (hu : look (under wholeValues field) (outlineField field v) path = some (.leaf u)) :
      u.isNaN = false := by
  have hshape := shapeField_of_schemaField hfield hne
  obtain ⟨entries, rfl⟩ : ∃ entries, v = .dict entries := by
    cases v with
    | scalar | list => cases hshape
    | dict entries => exact ⟨entries, rfl⟩
  by_cases hotel : field = "opentelemetry".toList
  · rw [outlineField, if_pos hotel] at hu
    exact noNaN_of_look (noNaN_withoutAttributes (hnan hotel)) hu
  rw [outlineField_of_ne hotel] at hu
  unfold schemaField at hfield
  rw [if_neg hne] at hfield
  by_cases hfeatures : field = "experimental_features".toList
  · rw [if_pos hfeatures] at hfield
    exact noNaN_of_look (noNaN_of_objectOf noNaN_of_isBoolean hfield) hu
  rw [if_neg hfeatures] at hfield
  by_cases hprofiles : field = "profiles".toList
  · rw [if_pos hprofiles] at hfield
    subst hprofiles
    exact isNaN_of_look_profiles hfield hu
  rw [if_neg hprofiles] at hfield
  by_cases hmapping : field = "path_mapping".toList
  · rw [if_pos hmapping] at hfield
    exact noNaN_of_look (noNaN_of_objectOf noNaN_of_isString hfield) hu
  -- `cache` and `posix` are taken as a whole
  have hwhole : field = "cache".toList ∨ field = "posix".toList := by
    have hmem : field = "profiles".toList ∨ field = "path_mapping".toList ∨
        field = "experimental_features".toList ∨ field = "cache".toList ∨ field = "posix".toList ∨
          field = "opentelemetry".toList := by
      simpa only [List.mem_cons, List.not_mem_nil, or_false] using
        of_decide_eq_true (Bool.and_eq_true_iff.mp hshape).1
    rcases hmem with h | h | h | h | h | h
    · exact absurd h hprofiles
    · exact absurd h hmapping
    · exact absurd h hfeatures
    · exact .inl h
    · exact .inr h
    · exact absurd h hotel
  rw [look_atomic (decide_eq_true hwhole)] at hu
  split at hu
  · cases hu
    rfl
  · cases hu

/-- **A valid configuration** agrees with itself on all paths, but for NaN in its telemetry. -/
theorem paths_agree_self (h : schemaShape (.dict config) = true)
    (hinclude : "include".toList ∉ config.map Prod.fst)
    (hnan : ∀ otel, PyDict.find "opentelemetry".toList config = some otel → noNaN otel = true) :
    Agree Agrees (paths config) (paths config) := by
  obtain ⟨-, hfields⟩ := schemaShape_iff.mp h
  have hdistinct := distinct_outline (shape_of_schema h hinclude)
  intro path x y hx hy
  rw [hx] at hy
  cases hy
  cases x with
  | dict => trivial
  | leaf u =>
      have hu := distinct_of_look hdistinct hx
      refine ⟨hu, hu, eq_iff.mpr ⟨same_refl u hu, ?_⟩⟩
      rw [paths] at hx
      cases path with
      | nil => cases hx
      | cons field path =>
          rw [look_dict rfl, find_outline] at hx
          obtain ⟨v', hv', hx⟩ := Option.bind_eq_some_iff.mp hx
          obtain ⟨v, hv, rfl⟩ := Option.map_eq_some_iff.mp hv'
          have hmem := PyDict.mem_of_find hv
          refine isNaN_of_look_field (hfields _ hmem) ?_ ?_ hx
          · rintro rfl
            exact hinclude (List.mem_map_of_mem hmem)
          · rintro rfl
            exact hnan v hv

end Schema

/-! ### The included files, merged -/

/-- The attributes of the metrics, if they are there. -/
def attributes? (config : ConfigEntries) : Option (List ConfigData) :=
  match PyDict.find "opentelemetry".toList config with
  | some (.dict otel) =>
      match PyDict.find "metrics".toList otel with
      | some (.dict metrics) =>
          match PyDict.find "attributes".toList metrics with
          | some (.list attributes) => some attributes
          | _ => none
      | _ => none
  | _ => none

/-- Equal dictionaries, with the attributes of the metrics in any order. -/
def SameButOrder (config config' : ConfigEntries) : Prop :=
  same (.dict (outline config)) (.dict (outline config')) = true ∧
    Option.Rel List.Perm (attributes? config) (attributes? config')

/-- `config'` is `config` with the attributes of `included` repeated; metrics without attributes may
get an empty list of them. -/
def Repeats (included config config' : ConfigEntries) : Prop :=
  same (.dict (outline config)) (.dict (outline config')) = true ∧
    match attributes? config with
    | some attributes =>
        ∃ attributes', attributes? config' = some attributes' ∧
          attributes'.Perm (attributes ++ (attributes? included).getD [])
    | none => attributes? config' = none ∨ attributes? config' = some []

/-- Both are loaded with results that are related, or both raise a `ValueError`. -/
def SameOutcome (r : ConfigEntries → ConfigEntries → Prop) :
    Except ConfigFileError ConfigEntries → Except ConfigFileError ConfigEntries → Prop
  | .ok m, .ok m' => r m m'
  | .error e, .error e' =>
      (∃ message, e = .valueError message) ∧ ∃ message, e' = .valueError message
  | _, _ => False

/-- The attributes of metrics that have them. -/
def found : Option Telemetry → Option (Multiset ConfigData)
  | some (.metrics attributes) => attributes
  | _ => none

section Includes

variable {cwd mainConfigPath path : PyStr} {accepts : ConfigData → Bool}
  {files : PyStr → Option (Except PyStr ConfigData)} {iterate iterate' : List PyStr → List PyStr}
  {config main main' m m' : ConfigEntries}

/-- The attributes that are read are those of the telemetry. -/
theorem map_attributes? (config : ConfigEntries) :
    (attributes? config).map Multiset.ofList = found (telemetry config) := by
  unfold attributes? telemetry
  cases PyDict.find "opentelemetry".toList config with
  | none => rfl
  | some v =>
      cases v with
      | scalar | list => rfl
      | dict otel =>
          dsimp only [found]
          unfold Telemetry.of
          cases PyDict.find "metrics".toList otel with
          | none => rfl
          | some v =>
              cases v with
              | scalar | list => rfl
              | dict metrics =>
                  dsimp only
                  cases PyDict.find "attributes".toList metrics with
                  | none => rfl
                  | some v => cases v <;> rfl

/-- With the same telemetry the attributes are a permutation of each other. -/
theorem rel_perm_of_telemetry (h : telemetry m = telemetry m') :
    Option.Rel List.Perm (attributes? m) (attributes? m') := by
  have hmap : (attributes? m).map Multiset.ofList = (attributes? m').map Multiset.ofList := by
    rw [map_attributes?, map_attributes?, h]
  cases hm : attributes? m with
  | none =>
      rw [hm, Option.map_none, eq_comm, Option.map_eq_none_iff] at hmap
      rw [hmap]
      exact .none
  | some l =>
      rw [hm, Option.map_some, eq_comm, Option.map_eq_some_iff] at hmap
      obtain ⟨l', hl', heq⟩ := hmap
      rw [hl']
      exact .some (Multiset.coe_eq_coe.mp heq.symm)

/-- A file that is loaded is valid, and does not include others. -/
theorem schema_of_loadIncluded (haccepts : ∀ config, accepts config = true →
    schemaShape config = true)
    (h : loadIncluded cwd accepts files mainConfigPath path = .ok config) :
    schemaShape (.dict config) = true ∧ "include".toList ∉ config.map Prod.fst := by
  unfold loadIncluded at h
  dsimp only at h
  split at h
  next => cases h
  next => cases h
  next included _ =>
    cases hvalid : validateConfig accepts included with
    | error e =>
        rw [hvalid] at h
        cases h
    | ok =>
        -- the validation has accepted what was read
        have hschema : schemaShape included = true := by
          unfold validateConfig at hvalid
          split at hvalid
          next => cases hvalid
          next haccept =>
            rw [Bool.not_eq_true', Bool.not_eq_false] at haccept
            exact haccepts included haccept
        rw [hvalid] at h
        cases included with
        | scalar | list => cases h
        | dict entries =>
            change (if _ then _ else _) = _ at h
            split at h
            next => cases h
            -- an included file may not include another
            next hinclude =>
              cases h
              exact ⟨hschema, hinclude⟩

/-- **Merging an included file** is a merge on paths. -/
theorem merges_mergeIncluded (hiterate : ∀ l, (iterate l).Perm l) (hshape : Shape config)
    (h : loadIncluded cwd accepts files mainConfigPath path = .ok config) :
    Merges Agrees Shape (fun e => ∃ message, e = .valueError message) paths telemetry
      (Option.merge Telemetry.merge)
      (fun m => mergeIncluded cwd accepts files iterate mainConfigPath m path) (paths config)
      (telemetry config) := by
  have hstep : ∀ m, mergeIncluded cwd accepts files iterate mainConfigPath m path =
      mergeConfigs mainConfigPath (resolveIncludePath cwd path mainConfigPath) iterate m
        config := by
    intro m
    rw [mergeIncluded, h]
    rfl
  constructor
  · intro m m' hm hok
    rw [hstep] at hok
    have hmerge : MergesTo wholeValues _ _ (MergedConfig m config) (mergeConfigs mainConfigPath
        (resolveIncludePath cwd path mainConfigPath) iterate m config) :=
      mergesTo_mergeConfigs hiterate hm hshape
    rw [hok] at hmerge
    exact ⟨hmerge.merged.agree, funext hmerge.merged.looks, hmerge.telemetry, hmerge.shape⟩
  · intro m e hm herror
    rw [hstep] at herror
    have hmerge : MergesTo wholeValues _ _ (MergedConfig m config) (mergeConfigs mainConfigPath
        (resolveIncludePath cwd path mainConfigPath) iterate m config) :=
      mergesTo_mergeConfigs hiterate hm hshape
    rw [herror] at hmerge
    exact ⟨hmerge.2, hmerge.1⟩

/-- What is read from the file that an include path names. -/
def included (cwd : PyStr) (accepts : ConfigData → Bool)
    (files : PyStr → Option (Except PyStr ConfigData))
    (mainConfigPath path : PyStr) : ConfigEntries :=
  match loadIncluded cwd accepts files mainConfigPath path with
  | .ok config => config
  | .error _ => []

theorem included_eq (h : loadIncluded cwd accepts files mainConfigPath path = .ok config) :
    included cwd accepts files mainConfigPath path = config := by
  rw [included, h]

/-- **All the files are merged** if they agree with one another, and on every path the first value
is found. -/
theorem loadAndMerge_result (haccepts : ∀ config, accepts config = true → schemaShape config = true)
    (hiterate : ∀ l, (iterate l).Perm l) (hmain : accepts (.dict main) = true)
    (hfiles : ∀ path ∈ includePaths main, ∃ config,
      loadIncluded cwd accepts files mainConfigPath path = .ok config) :
    Result Agrees Shape (fun e => ∃ message, e = .valueError message) paths telemetry
      (Option.merge Telemetry.merge)
      ((includePaths main).map fun path => paths (included cwd accepts files mainConfigPath path))
      ((includePaths main).map fun path => telemetry
        (included cwd accepts files mainConfigPath path))
      (withoutInclude main)
      (loadAndMergeIncludes cwd accepts files iterate mainConfigPath main) := by
  refine foldlM_merges (fun path hpath => ?_) (shape_withoutInclude (haccepts _ hmain))
  obtain ⟨config, hconfig⟩ := hfiles path hpath
  obtain ⟨hschema, hinclude⟩ := schema_of_loadIncluded haccepts hconfig
  rw [included_eq hconfig]
  exact merges_mergeIncluded hiterate (shape_of_schema hschema hinclude) hconfig

/-- Configurations with the same values on their paths. -/
theorem same_of_first {l l' : List (List PyStr → Option ConfigNode)} (hm : Shape m) (hm' : Shape m')
    (hview : paths m = first l) (hview' : paths m' = first l') (hl : l.Pairwise (Agree Agrees))
    (hmem : ∀ f, f ∈ l ↔ f ∈ l') : same (.dict (outline m)) (.dict (outline m')) = true := by
  refine same_of_look _ _ wholeValues (distinct_outline hm) (distinct_outline hm') fun path => ?_
  have hfirst := first_rel hl hmem path
  rw [← hview, ← hview'] at hfirst
  exact hfirst

/-- Telemetry that is merged once more. -/
theorem found_merge (t : Option Telemetry) (r : Option Telemetry) :
    match found (Option.merge Telemetry.merge t r) with
    | some attributes =>
        found (Option.merge Telemetry.merge t (Option.merge Telemetry.merge t r)) =
          some (attributes + (found t).getD 0)
    | none =>
        found (Option.merge Telemetry.merge t (Option.merge Telemetry.merge t r)) = none ∨
          found (Option.merge Telemetry.merge t (Option.merge Telemetry.merge t r)) = some 0 := by
  rcases t with _ | _ | _ | a <;> rcases r with _ | _ | _ | b
  all_goals simp [Option.merge, found, Telemetry.merge, Telemetry.attributes, Multiset.add_comm]

theorem getD_attributes? (config : ConfigEntries) :
    (((attributes? config).getD [] : List ConfigData) : Multiset ConfigData) =
      (found (telemetry config)).getD 0 := by
  rw [← map_attributes?]
  cases attributes? config <;> rfl

theorem attributes?_eq_none_iff : attributes? config = none ↔ found (telemetry config) = none := by
  rw [← map_attributes?, Option.map_eq_none_iff]

theorem attributes?_eq_nil (h : found (telemetry config) = some 0) :
    attributes? config = some [] := by
  rw [← map_attributes?, Option.map_eq_some_iff] at h
  obtain ⟨l, hl, hzero⟩ := h
  rw [hl, Multiset.coe_eq_zero l |>.mp hzero]

/-- The attributes, when the telemetry of a configuration is merged once more. -/
theorem repeats_of_telemetry {r : Option Telemetry}
    (hm : telemetry m = Option.merge Telemetry.merge (telemetry config) r)
    (hm' : telemetry m' = Option.merge Telemetry.merge (telemetry config) (telemetry m)) :
    match attributes? m with
    | some attributes => ∃ attributes', attributes? m' = some attributes' ∧
        attributes'.Perm (attributes ++ (attributes? config).getD [])
    | none => attributes? m' = none ∨ attributes? m' = some [] := by
  have hfound := found_merge (telemetry config) r
  rw [← hm, ← hm'] at hfound
  cases hattrs : attributes? m with
  | none =>
      rw [attributes?_eq_none_iff.mp hattrs] at hfound
      exact hfound.imp attributes?_eq_none_iff.mpr attributes?_eq_nil
  | some l =>
      have hl : found (telemetry m) = some (l : Multiset ConfigData) := by
        rw [← map_attributes?, hattrs]
        rfl
      rw [hl] at hfound
      dsimp only at hfound ⊢
      rw [← map_attributes?, ← getD_attributes?, Option.map_eq_some_iff] at hfound
      obtain ⟨l', hl', heq⟩ := hfound
      refine ⟨l', hl', Multiset.coe_eq_coe.mp ?_⟩
      rw [heq, ← Multiset.coe_add]

section Orders

variable (haccepts : ∀ config, accepts config = true → schemaShape config = true)
  (hiterate : ∀ l, (iterate l).Perm l) (hiterate' : ∀ l, (iterate' l).Perm l)
  (hmain : accepts (.dict main) = true) (hmain' : accepts (.dict main') = true)
  (hrest : withoutInclude main = withoutInclude main')
  (hfiles : ∀ path ∈ includePaths main, ∃ config,
    loadIncluded cwd accepts files mainConfigPath path = .ok config)

include haccepts hiterate hiterate' hmain hmain' hrest hfiles

/-- The order of the included files. -/
theorem sameOutcome_of_perm (hperm : (includePaths main).Perm (includePaths main')) :
    SameOutcome SameButOrder (loadAndMergeIncludes cwd accepts files iterate mainConfigPath main)
      (loadAndMergeIncludes cwd accepts files iterate' mainConfigPath main') := by
  have hresult := loadAndMerge_result haccepts hiterate hmain hfiles
  have hresult' := loadAndMerge_result haccepts hiterate' hmain' fun path hpath =>
    hfiles path (hperm.mem_iff.mpr hpath)
  have hviews := (hperm.map fun path => paths (included cwd accepts files mainConfigPath path)).cons
    (paths (withoutInclude main))
  have htelemetry :=
    hperm.map fun path => telemetry (included cwd accepts files mainConfigPath path)
  rw [← hrest] at hresult'
  cases hm : loadAndMergeIncludes cwd accepts files iterate mainConfigPath main with
  | error e =>
      rw [hm] at hresult
      cases hm' : loadAndMergeIncludes cwd accepts files iterate' mainConfigPath main' with
      | error e' =>
          -- both raise
          rw [hm'] at hresult'
          exact ⟨hresult.2, hresult'.2⟩
      | ok m' =>
          -- only one can raise where the configurations are in conflict, whatever the order
          rw [hm'] at hresult'
          exact hresult.1 (hviews.pairwise_iff symm |>.mpr hresult'.1)
  | ok m =>
      rw [hm] at hresult
      cases hm' : loadAndMergeIncludes cwd accepts files iterate' mainConfigPath main' with
      | error e' =>
          rw [hm'] at hresult'
          exact hresult'.1 (hviews.pairwise_iff symm |>.mp hresult.1)
      | ok m' =>
          rw [hm'] at hresult'
          obtain ⟨hall, hview, hobs, hshape⟩ := hresult
          obtain ⟨-, hview', hobs', hshape'⟩ := hresult'
          -- both merge: the views are the same, and the telemetry up to its order
          refine ⟨same_of_first hshape hshape' hview hview' hall fun f => hviews.mem_iff, ?_⟩
          exact rel_perm_of_telemetry (hobs.trans (htelemetry.foldl_op_eq.trans hobs'.symm))

/-- A file that is included once more. -/
theorem sameOutcome_of_repeat (hpath : path ∈ includePaths main)
    (hconfig : loadIncluded cwd accepts files mainConfigPath path = .ok config)
    (hnan : ∀ otel, PyDict.find "opentelemetry".toList config = some otel → noNaN otel = true)
    (hperm : (includePaths main').Perm (path :: includePaths main)) :
    SameOutcome (Repeats config)
      (loadAndMergeIncludes cwd accepts files iterate mainConfigPath main)
      (loadAndMergeIncludes cwd accepts files iterate' mainConfigPath main') := by
  have hresult := loadAndMerge_result haccepts hiterate hmain hfiles
  have hfiles' : ∀ path' ∈ includePaths main', ∃ config,
      loadIncluded cwd accepts files mainConfigPath path' = .ok config := by
    intro path' hpath'
    rcases List.mem_cons.mp (hperm.mem_iff.mp hpath') with rfl | hpath'
    · exact ⟨config, hconfig⟩
    · exact hfiles path' hpath'
  have hresult' := loadAndMerge_result haccepts hiterate' hmain' hfiles'
  rw [← hrest] at hresult'
  -- the maps of the second list are those of the first, and that of the file
  obtain ⟨hschema, hinclude⟩ := schema_of_loadIncluded haccepts hconfig
  have hself := paths_agree_self hschema hinclude hnan
  have hincluded := included_eq hconfig
  have hviews : (paths (withoutInclude main) :: (includePaths main').map fun path =>
      paths (included cwd accepts files mainConfigPath path)).Perm (paths config ::
        paths (withoutInclude main) :: (includePaths main).map fun path =>
          paths (included cwd accepts files mainConfigPath path)) := by
    refine ((hperm.map _).cons _).trans ?_
    rw [List.map_cons, hincluded]
    exact List.Perm.swap _ _ _
  have hmem : paths config ∈ paths (withoutInclude main) :: (includePaths main).map fun path =>
      paths (included cwd accepts files mainConfigPath path) :=
    List.mem_cons_of_mem _ (List.mem_map.mpr ⟨path, hpath, by rw [hincluded]⟩)
  have hpairwise : (paths (withoutInclude main) :: (includePaths main').map fun path =>
      paths (included cwd accepts files mainConfigPath path)).Pairwise (Agree Agrees) ↔
        (paths (withoutInclude main) :: (includePaths main).map fun path =>
          paths (included cwd accepts files mainConfigPath path)).Pairwise (Agree Agrees) :=
    (hviews.pairwise_iff symm).trans
      ⟨fun h => (List.pairwise_cons.mp h).2, fun h => pairwise_cons_of_mem h hmem hself⟩
  cases hm : loadAndMergeIncludes cwd accepts files iterate mainConfigPath main with
  | error e =>
      rw [hm] at hresult
      cases hm' : loadAndMergeIncludes cwd accepts files iterate' mainConfigPath main' with
      | error e' =>
          rw [hm'] at hresult'
          exact ⟨hresult.2, hresult'.2⟩
      | ok m' =>
          rw [hm'] at hresult'
          exact hresult.1 (hpairwise.mp hresult'.1)
  | ok m =>
      rw [hm] at hresult
      cases hm' : loadAndMergeIncludes cwd accepts files iterate' mainConfigPath main' with
      | error e' =>
          rw [hm'] at hresult'
          exact hresult'.1 (hpairwise.mpr hresult.1)
      | ok m' =>
          rw [hm'] at hresult'
          obtain ⟨hall, hview, hobs, hshape⟩ := hresult
          obtain ⟨hall', hview', hobs', hshape'⟩ := hresult'
          refine ⟨same_of_first hshape hshape' hview hview' hall fun f => ?_, ?_⟩
          · rw [hviews.mem_iff]
            exact ⟨List.mem_cons_of_mem _, fun hf => (List.mem_cons.mp hf).elim
              (fun heq => heq ▸ hmem) id⟩
          · have hobserved : telemetry config ∈ (includePaths main).map fun path =>
                telemetry (included cwd accepts files mainConfigPath path) :=
              List.mem_map.mpr ⟨path, hpath, by rw [hincluded]⟩
            obtain ⟨r, hr⟩ :
                ∃ r, telemetry m = Option.merge Telemetry.merge (telemetry config) r := by
              rw [hobs]
              exact exists_foldl_eq hobserved
            refine repeats_of_telemetry hr ?_
            rw [hobs', (hperm.map _).foldl_op_eq, List.map_cons, hincluded, foldl_cons_op, ← hobs]

end Orders

/-- **`_load_and_merge_includes`** gives the same for every order of the included files; a file
without NaN in its telemetry that is included once more repeats its attributes. -/
theorem load_and_merge_includes_spec (cwd mainConfigPath : PyStr) (accepts : ConfigData → Bool)
    (files : PyStr → Option (Except PyStr ConfigData)) (iterate iterate' : List PyStr → List PyStr)
    (main : ConfigEntries)
    (haccepts : ∀ config, accepts config = true → schemaShape config = true)
    (hiterate : ∀ l, (iterate l).Perm l) (hiterate' : ∀ l, (iterate' l).Perm l)
    (hmain : accepts (.dict main) = true)
    (hfiles : ∀ path ∈ includePaths main, ∃ config,
      loadIncluded cwd accepts files mainConfigPath path = .ok config) :
    (∀ permuted, accepts (.dict permuted) = true → withoutInclude main = withoutInclude permuted →
      (includePaths main).Perm (includePaths permuted) →
        SameOutcome SameButOrder
          (loadAndMergeIncludes cwd accepts files iterate mainConfigPath main)
          (loadAndMergeIncludes cwd accepts files iterate' mainConfigPath permuted)) ∧
    ∀ repeated, accepts (.dict repeated) = true → withoutInclude main = withoutInclude repeated →
      ∀ path ∈ includePaths main, ∀ config,
        loadIncluded cwd accepts files mainConfigPath path = .ok config →
        (∀ otel, PyDict.find "opentelemetry".toList config = some otel → noNaN otel = true) →
        (includePaths repeated).Perm (path :: includePaths main) →
          SameOutcome (Repeats config)
            (loadAndMergeIncludes cwd accepts files iterate mainConfigPath main)
            (loadAndMergeIncludes cwd accepts files iterate' mainConfigPath repeated) := by
  constructor
  · intro permuted hpermuted hrest hperm
    exact sameOutcome_of_perm haccepts hiterate hiterate' hmain hpermuted hrest hfiles hperm
  · intro repeated hrepeated hrest path hpath config hconfig hnan hperm
    exact sameOutcome_of_repeat haccepts hiterate hiterate' hmain hrepeated hrest hfiles hpath
      hconfig hnan
      hperm

end Includes

/-- Metrics without attributes. -/
def bareMetrics : ConfigEntries :=
  [("opentelemetry".toList, .dict [("metrics".toList, .dict [])])]

/-- Metrics with an attributes provider, and a cache. -/
def oneProvider : ConfigEntries :=
  [("cache".toList, .dict [("size".toList, .scalar (.str "1G".toList))]),
    ("opentelemetry".toList, .dict [("metrics".toList, .dict [("attributes".toList,
      .list [.dict [("type".toList, .scalar (.str "host".toList))]])])])]

/-- A reader with an option that is NaN. -/
def nanOption : ConfigEntries :=
  [("opentelemetry".toList,
    .dict [("metrics".toList, .dict [("reader".toList, .dict [("options".toList,
    .dict [("timeout".toList, .scalar (.float (0.0 / 0.0) 0))])])])])]

/-- The files in the directory of the main configuration. -/
def someFiles (path : PyStr) : Option (Except PyStr ConfigData) :=
  if path = "/c/a.json".toList then some (.ok (.dict bareMetrics))
  else if path = "/c/b.json".toList then some (.ok (.dict oneProvider))
  else if path = "/c/nan.yaml".toList then some (.ok (.dict nanOption))
  else none

/-- A main configuration that includes files. -/
def includes (names : List PyStr) : ConfigEntries :=
  [("include".toList, .list (names.map fun name => .scalar (.str name))),
    ("profiles".toList, .dict [])]

theorem includePaths_includes (names : List PyStr) : includePaths (includes names) = names := by
  show ((names.map fun name => (ConfigValue.scalar (.str name) : ConfigData)).filterMap _) = names
  rw [List.filterMap_map]
  exact List.filterMap_some

theorem loadIncluded_a :
    loadIncluded [] schemaShape someFiles "/c/main.json".toList "a.json".toList =
    .ok bareMetrics := by rfl

theorem loadIncluded_b :
    loadIncluded [] schemaShape someFiles "/c/main.json".toList "b.json".toList =
    .ok oneProvider := by rfl

/-- Two files in both orders, and the second one once more. -/
theorem someFiles_sameOutcome :
    SameOutcome SameButOrder
      (loadAndMergeIncludes [] schemaShape someFiles id "/c/main.json".toList
        (includes ["a.json".toList, "b.json".toList]))
      (loadAndMergeIncludes [] schemaShape someFiles List.reverse "/c/main.json".toList
        (includes ["b.json".toList, "a.json".toList])) ∧
    SameOutcome (Repeats oneProvider)
      (loadAndMergeIncludes [] schemaShape someFiles id "/c/main.json".toList
        (includes ["a.json".toList, "b.json".toList]))
      (loadAndMergeIncludes [] schemaShape someFiles List.reverse "/c/main.json".toList
        (includes ["b.json".toList, "a.json".toList, "b.json".toList])) := by
  have hfiles : ∀ path ∈ includePaths (includes ["a.json".toList, "b.json".toList]), ∃ config,
      loadIncluded [] schemaShape someFiles "/c/main.json".toList path = .ok config := by
    intro path hpath
    rw [includePaths_includes] at hpath
    rcases List.mem_cons.mp hpath with rfl | hpath
    · exact ⟨bareMetrics, loadIncluded_a⟩
    · obtain rfl := List.mem_singleton.mp hpath
      exact ⟨oneProvider, loadIncluded_b⟩
  obtain ⟨hperm, hrepeat⟩ :=
    load_and_merge_includes_spec [] "/c/main.json".toList schemaShape someFiles id
    List.reverse (includes ["a.json".toList, "b.json".toList]) (fun _ h => h) List.Perm.refl
    List.reverse_perm (by decide) hfiles
  rw [includePaths_includes] at hperm hrepeat
  constructor
  · refine hperm (includes ["b.json".toList, "a.json".toList]) (by decide) rfl ?_
    rw [includePaths_includes]
    exact List.Perm.swap _ _ _
  · refine hrepeat (includes ["b.json".toList, "a.json".toList, "b.json".toList]) (by decide) rfl
      "b.json".toList (List.mem_cons_of_mem _ List.mem_cons_self) oneProvider loadIncluded_b ?_ ?_
    · intro otel hotel
      change some _ = some otel at hotel
      cases hotel
      rfl
    · rw [includePaths_includes]

/-- Metrics without attributes get an empty list of them when their file is included twice, and a
file with NaN in its telemetry cannot be included twice. -/
theorem bareMetrics_nanOption_twice :
    (loadIncluded [] schemaShape someFiles "/c/main.json".toList "a.json".toList = .ok bareMetrics ∧
      attributes? bareMetrics = none ∧
      ∃ m m', loadAndMergeIncludes [] schemaShape someFiles id "/c/main.json".toList
          (includes ["a.json".toList]) = .ok m ∧
        loadAndMergeIncludes [] schemaShape someFiles id "/c/main.json".toList
          (includes ["a.json".toList, "a.json".toList]) = .ok m' ∧
        attributes? m = none ∧ attributes? m' = some [] ∧ same (.dict m) (.dict m') = false) ∧
    (∃ m, loadAndMergeIncludes [] schemaShape someFiles id "/c/main.json".toList
      (includes ["nan.yaml".toList]) = .ok m) ∧
    ∃ e, loadAndMergeIncludes [] schemaShape someFiles id "/c/main.json".toList
      (includes ["nan.yaml".toList, "nan.yaml".toList]) = .error e := by
  refine ⟨⟨loadIncluded_a, rfl, _, _, rfl, rfl, rfl, rfl, by decide⟩, ?_, ?_⟩
  · have honce : (loadAndMergeIncludes [] schemaShape someFiles id "/c/main.json".toList
        (includes ["nan.yaml".toList])).toBool = true := by decide +kernel
    revert honce
    cases loadAndMergeIncludes [] schemaShape someFiles id "/c/main.json".toList
        (includes ["nan.yaml".toList]) with
    | ok m => exact fun _ => ⟨m, rfl⟩
    | error e => exact nofun
  · have htwice : (loadAndMergeIncludes [] schemaShape someFiles id "/c/main.json".toList
        (includes ["nan.yaml".toList, "nan.yaml".toList])).toBool = false := by decide +kernel
    revert htwice
    cases loadAndMergeIncludes [] schemaShape someFiles id "/c/main.json".toList
        (includes ["nan.yaml".toList, "nan.yaml".toList]) with
    | ok m => exact nofun
    | error e => exact fun _ => ⟨e, rfl⟩

end ConfigIncludes

end MultiStorageClient
