/-
MultiStorageClient/ImmutableDict.lean

`ImmutableDict`: a configuration that is frozen, and what is read back from it.

Freezing makes an `ImmutableDict` of every dictionary and a tuple of every list.
`__getitem__` undoes both.  `__deepcopy__` hands the raw entries over to
`copy.deepcopy`, which makes a dictionary of every `ImmutableDict`, but knows
nothing of the tuples that were lists.
-/
import MultiStorageClient.ConfigValue

namespace MultiStorageClient

/-- The Python objects that a configuration and its frozen form are made of. -/
inductive PyObject (S : Type)
  | scalar (s : S)
  | list (items : List (PyObject S))
  | tuple (items : List (PyObject S))
  | dict (entries : List (PyStr × PyObject S))
  | immutableDict (entries : List (PyStr × PyObject S))

namespace PyObject

variable {S : Type}

mutual

/-- A configuration as a Python object. -/
def ofConfig : ConfigValue S → PyObject S
  | .scalar s => .scalar s
  | .list items => .list (ofConfigItems items)
  | .dict entries => .dict (ofConfigEntries entries)

/-- `ofConfig`, item by item. -/
def ofConfigItems : List (ConfigValue S) → List (PyObject S)
  | [] => []
  | item :: items => ofConfig item :: ofConfigItems items

/-- `ofConfig`, value by value. -/
def ofConfigEntries : List (PyStr × ConfigValue S) → List (PyStr × PyObject S)
  | [] => []
  | (key, value) :: entries => (key, ofConfig value) :: ofConfigEntries entries

end

/-! ### The frozen form -/

mutual

/-- What `__init__` makes of a value. -/
def freeze : PyObject S → PyObject S
  | .dict entries => .immutableDict (freezeEntries entries)
  | .list items => .tuple (freezeList items)
  | value => value

/-- The entries of `ImmutableDict(d)`. -/
def freezeEntries : List (PyStr × PyObject S) → List (PyStr × PyObject S)
  | [] => []
  | (key, value) :: entries => (key, freeze value) :: freezeEntries entries

/-- `_freeze_list` -/
def freezeList : List (PyObject S) → List (PyObject S)
  | [] => []
  | .dict entries :: items => .immutableDict (freezeEntries entries) :: freezeList items
  -- an `ImmutableDict` is a `dict`, too
  | .immutableDict entries :: items => .immutableDict (freezeEntries entries) :: freezeList items
  | .list items' :: items => .tuple (freezeList items') :: freezeList items
  | item :: items => item :: freezeList items

end

/-- `ImmutableDict(d)` -/
def immutable (entries : List (PyStr × PyObject S)) : PyObject S :=
  .immutableDict (freezeEntries entries)

mutual

/-- `_copy_value` -/
def copyValue : PyObject S → PyObject S
  | .immutableDict entries => .dict (copyEntries entries)
  | .tuple items => .list (copyItems items)
  | value => value

/-- `copyValue`, value by value. -/
def copyEntries : List (PyStr × PyObject S) → List (PyStr × PyObject S)
  | [] => []
  | (key, value) :: entries => (key, copyValue value) :: copyEntries entries

/-- `copyValue`, item by item. -/
def copyItems : List (PyObject S) → List (PyObject S)
  | [] => []
  | item :: items => copyValue item :: copyItems items

end

/-- `__getitem__` of the `ImmutableDict` with these entries; `none` is a `KeyError`. -/
def getItem (entries : List (PyStr × PyObject S)) (key : PyStr) : Option (PyObject S) :=
  (PyDict.find key entries).map copyValue

/-- `get` -/
def get (entries : List (PyStr × PyObject S)) (key : PyStr) (default : PyObject S) : PyObject S :=
  (getItem entries key).getD default

mutual

/-- `copy.deepcopy`, with `__deepcopy__` for an `ImmutableDict`. -/
def deepcopy : PyObject S → PyObject S
  | .scalar s => .scalar s
  | .list items => .list (deepcopyItems items)
  | .tuple items => .tuple (deepcopyItems items)
  | .dict entries => .dict (deepcopyEntries entries)
  | .immutableDict entries => .dict (deepcopyEntries entries)

/-- `deepcopy`, item by item. -/
def deepcopyItems : List (PyObject S) → List (PyObject S)
  | [] => []
  | item :: items => deepcopy item :: deepcopyItems items

/-- `deepcopy`, value by value. -/
def deepcopyEntries : List (PyStr × PyObject S) → List (PyStr × PyObject S)
  | [] => []
  | (key, value) :: entries => (key, deepcopy value) :: deepcopyEntries entries

end

mutual

/-- `pickle.loads(pickle.dumps(value))`, with `__reduce__` for an `ImmutableDict`. -/
def repickle : PyObject S → PyObject S
  | .scalar s => .scalar s
  | .list items => .list (repickleItems items)
  | .tuple items => .tuple (repickleItems items)
  | .dict entries => .dict (repickleEntries entries)
  | .immutableDict entries => immutable (repickleEntries entries)

/-- `repickle`, item by item. -/
def repickleItems : List (PyObject S) → List (PyObject S)
  | [] => []
  | item :: items => repickle item :: repickleItems items

/-- `repickle`, value by value. -/
def repickleEntries : List (PyStr × PyObject S) → List (PyStr × PyObject S)
  | [] => []
  | (key, value) :: entries => (key, repickle value) :: repickleEntries entries

end

/-! ### What is read back -/

/-- In a configuration, an item of a list is frozen as a value is. -/
theorem freezeList_cons (item : ConfigValue S) (items : List (PyObject S)) :
    freezeList (ofConfig item :: items) = freeze (ofConfig item) :: freezeList items := by
  cases item <;> rfl

mutual

theorem copyValue_freeze :
    ∀ value : ConfigValue S, copyValue (freeze (ofConfig value)) = ofConfig value
  | .scalar _ => rfl
  | .list items => congrArg list (copyItems_freezeList items)
  | .dict entries => congrArg dict (copyEntries_freezeEntries entries)

theorem copyItems_freezeList : ∀ items : List (ConfigValue S),
    copyItems (freezeList (ofConfigItems items)) = ofConfigItems items
  | [] => rfl
  | item :: items => by
      rw [ofConfigItems, freezeList_cons, copyItems, copyValue_freeze item,
        copyItems_freezeList items]

theorem copyEntries_freezeEntries : ∀ entries : List (PyStr × ConfigValue S),
    copyEntries (freezeEntries (ofConfigEntries entries)) = ofConfigEntries entries
  | [] => rfl
  | (key, value) :: entries => by
      rw [ofConfigEntries, freezeEntries, copyEntries, copyValue_freeze value,
        copyEntries_freezeEntries entries]

end

theorem freeze_freeze (value : ConfigValue S) :
    freeze (freeze (ofConfig value)) = freeze (ofConfig value) := by
  cases value <;> rfl

theorem freezeEntries_freezeEntries : ∀ entries : List (PyStr × ConfigValue S),
    freezeEntries (freezeEntries (ofConfigEntries entries)) =
      freezeEntries (ofConfigEntries entries)
  | [] => rfl
  | (key, value) :: entries => by
      rw [ofConfigEntries, freezeEntries, freezeEntries, freeze_freeze value,
        freezeEntries_freezeEntries entries]

mutual

/-- Unpickling freezes what is frozen. -/
theorem repickle_freeze : ∀ value : ConfigValue S,
    repickle (freeze (ofConfig value)) = freeze (ofConfig value)
  | .scalar _ => rfl
  | .list items => congrArg tuple (repickleItems_freezeList items)
  | .dict entries => by
      rw [ofConfig, freeze, repickle, repickleEntries_freezeEntries entries, immutable,
        freezeEntries_freezeEntries]

theorem repickleItems_freezeList : ∀ items : List (ConfigValue S),
    repickleItems (freezeList (ofConfigItems items)) = freezeList (ofConfigItems items)
  | [] => rfl
  | item :: items => by
      rw [ofConfigItems, freezeList_cons, repickleItems, repickle_freeze item,
        repickleItems_freezeList items]

theorem repickleEntries_freezeEntries : ∀ entries : List (PyStr × ConfigValue S),
    repickleEntries (freezeEntries (ofConfigEntries entries)) =
      freezeEntries (ofConfigEntries entries)
  | [] => rfl
  | (key, value) :: entries => by
      rw [ofConfigEntries, freezeEntries, repickleEntries, repickle_freeze value,
        repickleEntries_freezeEntries entries]

end

mutual

/-- There is no list in it, at any depth. -/
def NoList : ConfigValue S → Prop
  | .scalar _ => True
  | .list _ => False
  | .dict entries => NoListEntries entries

/-- `NoList`, for every value. -/
def NoListEntries : List (PyStr × ConfigValue S) → Prop
  | [] => True
  | (_, value) :: entries => NoList value ∧ NoListEntries entries

end

mutual

theorem deepcopy_freeze_iff : ∀ value : ConfigValue S,
    deepcopy (freeze (ofConfig value)) = ofConfig value ↔ NoList value
  | .scalar _ => iff_of_true rfl trivial
  | .list _ => iff_of_false nofun id
  | .dict entries => by
      rw [ofConfig, freeze, deepcopy, NoList, dict.injEq, deepcopyEntries_freezeEntries_iff entries]

theorem deepcopyEntries_freezeEntries_iff : ∀ entries : List (PyStr × ConfigValue S),
    deepcopyEntries (freezeEntries (ofConfigEntries entries)) = ofConfigEntries entries ↔
      NoListEntries entries
  | [] => iff_of_true rfl trivial
  | (key, value) :: entries => by
      rw [ofConfigEntries, freezeEntries, deepcopyEntries, NoListEntries, List.cons.injEq,
        Prod.mk.injEq, deepcopy_freeze_iff value, deepcopyEntries_freezeEntries_iff entries,
        and_iff_right rfl]

end

/-- A frozen dictionary gives back the configuration `d`: by its keys, and as a copy. -/
def GivesBack (frozen : PyObject S) (d : List (PyStr × ConfigValue S)) : Prop :=
  (∃ entries, frozen = immutableDict entries ∧ ∀ key value, PyDict.find key d = some value →
    getItem entries key = some (ofConfig value) ∧
      ∀ default, get entries key default = ofConfig value) ∧
  deepcopy frozen = dict (ofConfigEntries d)

/-- A key is found in the frozen dictionary with its value. -/
theorem getItem_immutable (d : List (PyStr × ConfigValue S)) (key : PyStr) :
    getItem (freezeEntries (ofConfigEntries d)) key = (PyDict.find key d).map ofConfig := by
  induction d with
  | nil => rfl
  | cons entry d ih =>
      obtain ⟨key', value⟩ := entry
      rw [ofConfigEntries, freezeEntries, getItem, PyDict.find, PyDict.find]
      split
      · rw [Option.map_some, Option.map_some, copyValue_freeze]
      · exact ih

/-- The copy gives back the dictionary exactly where no list is among its values. -/
theorem givesBack_immutable_iff (d : List (PyStr × ConfigValue S)) :
    GivesBack (immutable (ofConfigEntries d)) d ↔ NoListEntries d := by
  have hcopy :
      deepcopy (immutable (ofConfigEntries d)) = dict (ofConfigEntries d) ↔ NoListEntries d :=
    deepcopy_freeze_iff (.dict d)
  rw [GivesBack, hcopy]
  refine and_iff_right ⟨_, rfl, fun key value hfind => ?_⟩
  have hget : getItem (freezeEntries (ofConfigEntries d)) key = some (ofConfig value) := by
    rw [getItem_immutable, hfind]
    rfl
  exact ⟨hget, fun default => by rw [get, hget]; rfl⟩

/-- **A frozen configuration gives back the configuration**, before and after pickling, if and only
if there is no list in it. -/
theorem immutableDict_givesBack_iff (d : List (PyStr × ConfigValue S)) :
    GivesBack (immutable (ofConfigEntries d)) d ∧
      GivesBack (repickle (immutable (ofConfigEntries d))) d ↔
      NoListEntries d := by
  have hrepickle : repickle (immutable (ofConfigEntries d)) = immutable (ofConfigEntries d) :=
    repickle_freeze (.dict d)
  rw [hrepickle, givesBack_immutable_iff, and_self]

/-- The copy of `{"replicas": []}` has a tuple. -/
theorem replicas_not_givesBack :
    ¬GivesBack (immutable (ofConfigEntries [("replicas".toList, (.list [] : ConfigValue Unit))]))
      [("replicas".toList, .list [])] := by
  rintro ⟨-, hcopy⟩
  cases hcopy

end PyObject

end MultiStorageClient
