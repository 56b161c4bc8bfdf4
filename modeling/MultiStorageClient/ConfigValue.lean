/-
MultiStorageClient/ConfigValue.lean

What a configuration file is read to: scalars, lists and dictionaries with
strings for keys.
-/
import MultiStorageClient.PyDict
import MultiStorageClient.PyStr

namespace MultiStorageClient

/-- A value of a configuration, with scalars `S`. -/
inductive ConfigValue (S : Type)
  | scalar (s : S)
  | list (items : List (ConfigValue S))
  | dict (entries : List (PyStr × ConfigValue S))

end MultiStorageClient
