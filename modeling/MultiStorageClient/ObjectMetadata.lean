/-
MultiStorageClient/ObjectMetadata.lean

The data model shared by the storage client (`types.py`) and the
include/exclude filter of `utils.py`.

`ObjectMetadata` keeps the fields of the dataclass under their own names.  A
timestamp is the number of microseconds since the epoch, the resolution of
`datetime`; attribute dictionaries are association lists of JSON values,
compared as Python compares dictionaries.
-/
import MultiStorageClient.Fnmatch

namespace MultiStorageClient

/-! ### Attribute values -/

/-- A JSON value, as it can stand in an attribute dictionary. -/
inductive Json
  | null
  | bool (b : Bool)
  | num (q : ℚ)
  | str (s : PyStr)
  | arr (xs : List Json)
  | obj (kvs : List (PyStr × Json))

/-- Python sees `True` and `False` as the numbers 1 and 0. -/
def Json.asNum? : Json → Option ℚ
  | .bool b => some (if b then 1 else 0)
  | .num q => some q
  | _ => none

mutual

/-- Python's `==` on JSON values; dictionaries are compared without order. -/
def Json.pyEq : Json → Json → Bool
  | .null, .null => true
  | .str s, .str t => s == t
  | .arr xs, .arr ys => Json.pyEqList xs ys
  | .obj kvs, .obj kvs' => kvs.length == kvs'.length && Json.subDict kvs kvs'
  | .bool b, v => v.asNum? == some (if b then 1 else 0)
  | .num q, v => v.asNum? == some q
  | _, _ => false

/-- `pyEq`, item by item. -/
def Json.pyEqList : List Json → List Json → Bool
  | [], [] => true
  | x :: xs, y :: ys => x.pyEq y && Json.pyEqList xs ys
  | _, _ => false

/-- Every entry of the first dictionary has an equal one in the second. -/
def Json.subDict : List (PyStr × Json) → List (PyStr × Json) → Bool
  | [], _ => true
  | (k, v) :: kvs, kvs' =>
      (match kvs'.lookup k with
        | some w => v.pyEq w
        | none => false) && Json.subDict kvs kvs'

end

/-! ### Objects -/

/-- The `type` of a listed entry. -/
inductive EntryType
  | file
  | directory
  deriving DecidableEq, Repr

/-- Metadata of an object: the dataclass of the same name. -/
structure ObjectMetadata where
  key : PyStr
  contentLength : ℕ
  /-- microseconds since the epoch -/
  lastModified : ℤ
  type : EntryType := .file
  contentType : Option PyStr := none
  etag : Option PyStr := none
  storageClass : Option PyStr := none
  metadata : Option (List (PyStr × Json)) := none
  symlinkTarget : Option PyStr := none

/-- A byte range of an object. -/
structure Range where
  offset : ℕ
  size : ℕ
  deriving DecidableEq, Repr

/-! ### Include and exclude patterns -/

/-- The two kinds of filter patterns. -/
inductive PatternType
  | include
  | exclude
  deriving DecidableEq, Repr

/-- An ordered list of include and exclude patterns. -/
structure PatternMatcher where
  patterns : List (PatternType × PyStr)

/-- `PatternMatcher.should_include_file`: without an exclude pattern but with
an include pattern everything starts out excluded, otherwise included; later
patterns override earlier ones. -/
def PatternMatcher.shouldIncludeFile (m : PatternMatcher) (filePath : PyStr) : Bool :=
  let hasExclude := m.patterns.any (·.1 == .exclude)
  let hasInclude := m.patterns.any (·.1 == .include)
  m.patterns.foldl
    (fun included p => if Fnmatch.fnmatch filePath p.2 then p.1 == .include else included)
    (!(hasInclude && !hasExclude))

end MultiStorageClient
