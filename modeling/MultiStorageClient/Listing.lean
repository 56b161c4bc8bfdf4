/-
MultiStorageClient/Listing.lean

Recursive listing with parallel prefix discovery (`_PrefixExpander` and
`BaseStorageProvider._list_objects_recursive_impl` of `providers/base.py`).

A provider lists one level at a time.  The listing keeps a heap of objects
and of prefixes that are still to be expanded, always looks at the smallest
key, and asks the expander for the children of a prefix.  The expander runs
ahead in a thread pool; which of its futures are complete when it looks is
given by an oracle, so that a result can come from the `ready` store, from a
future in flight, or from one submitted on demand.

The heaps of `heapq` are modelled as sorted lists: the only things the code
does with them is to look at the smallest element, to remove it, and to add
elements.  A listing that raises ends the iteration and is not modelled.
-/
import MultiStorageClient.Producer

namespace MultiStorageClient

open PyStr

/-- The child prefixes and the objects of one level. -/
abbrev ShallowListResult := List PyStr × List ObjectMetadata

/-! ### The prefix expander -/

/-- `_PrefixExpander`.  A future is represented by the value it delivers. -/
structure PrefixExpander where
  /-- a heap -/
  pending : List PyStr := []
  inflight : List (PyStr × ShallowListResult) := []
  ready : List (PyStr × ShallowListResult) := []

namespace PrefixExpander

/-- The submissions of `_fill`: prefixes are taken from `pending` while fewer
than `maxInflight` futures are in flight. -/
def submit (fn : PyStr → ShallowListResult) (maxInflight : ℕ)
    (ready : List (PyStr × ShallowListResult)) :
    List PyStr → List (PyStr × ShallowListResult) →
      List PyStr × List (PyStr × ShallowListResult)
  | [], inflight => ([], inflight)
  | p :: ps, inflight =>
      if inflight.length < maxInflight then
        if (inflight.lookup p).isNone && (ready.lookup p).isNone then
          submit fn maxInflight ready ps (inflight ++ [(p, fn p)])
        else submit fn maxInflight ready ps inflight
      else (p :: ps, inflight)

/-- `_fill` -/
def fill (fn : PyStr → ShallowListResult) (maxInflight : ℕ) (x : PrefixExpander) :
    PrefixExpander :=
  let (pending, inflight) := submit fn maxInflight x.ready x.pending x.inflight
  { x with pending := pending, inflight := inflight }

/-- `enqueue` -/
def enqueue (fn : PyStr → ShallowListResult) (maxInflight : ℕ) (x : PrefixExpander)
    (prefixes : List PyStr) : PrefixExpander :=
  let pending :=
    if x.pending.isEmpty then prefixes.insertionSort (· ≤ ·)
    else prefixes.foldl (fun h p => h.orderedInsert (· ≤ ·) p) x.pending
  fill fn maxInflight { x with pending := pending }

/-- `_collect`, where `done p` says whether the future of `p` is complete. -/
def collect (fn : PyStr → ShallowListResult) (maxInflight : ℕ) (done : PyStr → Bool)
    (x : PrefixExpander) : PrefixExpander :=
  fill fn maxInflight
    { x with
      inflight := x.inflight.filter fun f => !done f.1
      ready := x.inflight.filter (fun f => done f.1) ++ x.ready }

/-- `get`: from `ready`, from a future in flight, or from a new one. -/
def get (fn : PyStr → ShallowListResult) (maxInflight : ℕ) (done : PyStr → Bool)
    (x : PrefixExpander) (p : PyStr) : ShallowListResult × PrefixExpander :=
  let x := x.collect fn maxInflight done
  match x.ready.lookup p with
  | some r => (r, { x with ready := x.ready.filter fun f => f.1 != p })
  | none =>
      match x.inflight.lookup p with
      | some r => (r, { x with inflight := x.inflight.filter fun f => f.1 != p })
      | none => (fn p, x)

end PrefixExpander

/-! ### The recursive listing -/

/-- An entry of the listing heap: a prefix to expand or an object. -/
inductive ListingHeapItem
  | child (p : PyStr)
  | object (o : ObjectMetadata)

namespace ListingHeapItem

/-- The key of an item in the heap. -/
def key : ListingHeapItem → PyStr
  | child p => p
  | object o => o.key

end ListingHeapItem

/-- `heapq.heappush` -/
def heappush (heap : List ListingHeapItem) (x : ListingHeapItem) : List ListingHeapItem :=
  heap.orderedInsert (fun a b => a.key ≤ b.key) x

/-- `heapq.heapify` -/
def heapify (items : List ListingHeapItem) : List ListingHeapItem :=
  items.insertionSort fun a b => a.key ≤ b.key

/-- What the recursive listing uses of a storage provider. -/
structure ListingProvider where
  supportsParallelListing : Bool
  /-- `_list_objects(path, start_after, end_at, include_directories,
  symlink_handling)` -/
  listObjects : PyStr → Option PyStr → Option PyStr → Bool → SymlinkHandling →
    List ObjectMetadata
  /-- `_shallow_list(path, symlink_handling)`; see `baseShallowList` -/
  shallowList : PyStr → SymlinkHandling → ShallowListResult

/-- A directory that is not a symbolic link. -/
def isDirectory (item : ObjectMetadata) : Bool :=
  item.type == .directory && item.symlinkTarget.isNone

/-- `BaseStorageProvider._shallow_list`, given the items `_list_objects`
yields. -/
def splitShallow (path : PyStr) (items : List ObjectMetadata) : ShallowListResult :=
  (((items.filter isDirectory).map fun item => item.key ++ ['/']).filter (· != path),
    items.filter fun item => !isDirectory item)

/-- `BaseStorageProvider._shallow_list` -/
def baseShallowList
    (listObjects : PyStr → Option PyStr → Option PyStr → Bool → SymlinkHandling →
      List ObjectMetadata)
    (path : PyStr) (symlinkHandling : SymlinkHandling) : ShallowListResult :=
  splitShallow path (listObjects path none none true symlinkHandling)

/-- The bounds of a listing.  An empty string is as good as `None` in the
tests `if start_after` and `if end_at`. -/
structure Bounds where
  startAfter : Option PyStr := none
  endAt : Option PyStr := none

namespace Bounds

/-- `start_after and key <= start_after` -/
def skips (b : Bounds) (key : PyStr) : Bool :=
  match b.startAfter with
  | some s => s != [] && decide (key ≤ s)
  | none => false

/-- `end_at and key > end_at` -/
def ends (b : Bounds) (key : PyStr) : Bool :=
  match b.endAt with
  | some e => e != [] && decide (e < key)
  | none => false

/-- The objects a loop over sorted ones yields: it skips up to
`start_after` and breaks beyond `end_at`. -/
def emit (b : Bounds) : List ObjectMetadata → List ObjectMetadata
  | [] => []
  | o :: os =>
      if b.skips o.key then emit b os
      else if b.ends o.key then []
      else o :: emit b os

/-- `[p for p in prefixes if p <= end_at]`, if there is an `end_at` -/
def prune (b : Bounds) (prefixes : List PyStr) : List PyStr :=
  prefixes.filter fun p => !b.ends p

end Bounds

/-- `max_workers` and `look_ahead`, which are at least 1. -/
structure ListingLimits where
  maxWorkers : ℕ := 32
  lookAhead : ℕ := 2
  maxWorkers_pos : 1 ≤ maxWorkers := by decide
  lookAhead_pos : 1 ≤ lookAhead := by decide

/-- `max_inflight` -/
def ListingLimits.maxInflight (l : ListingLimits) : ℕ := l.maxWorkers * l.lookAhead

section Loop

variable (fn : PyStr → ShallowListResult) (maxInflight : ℕ) (b : Bounds)
  (done : ℕ → PyStr → Bool)

/-- The `while heap` loop, as the objects it yields; `none` when the fuel
runs out.  `done n` says which futures are complete at the `n`-th look. -/
def listingLoop : ℕ → List ListingHeapItem → PrefixExpander → ℕ → Option (List ObjectMetadata)
  | 0, _, _, _ => none
  | _ + 1, [], _, _ => some []
  | fuel + 1, entry :: heap, x, n =>
      -- the heap is sorted by key, so nothing behind the bound can follow
      if b.ends entry.key then some []
      else
        match entry with
        | .object o =>
            if b.skips o.key then listingLoop fuel heap x n
            else (listingLoop fuel heap x n).map (o :: ·)
        | .child p =>
            let ((childPrefixes, childObjects), x) := x.get fn maxInflight (done n) p
            let childPrefixes := b.prune childPrefixes
            let heap := (childPrefixes.map .child).foldl heappush heap
            -- a prefix without prefixes below it: its objects are sorted and come out at once
            if childPrefixes.isEmpty then
              (listingLoop fuel heap x (n + 1)).map (b.emit childObjects ++ ·)
            else
              let heap := (childObjects.map .object).foldl heappush heap
              listingLoop fuel heap (x.enqueue fn maxInflight childPrefixes) (n + 1)

end Loop

/-- `_list_objects_recursive_impl`, as the objects it yields. -/
def listObjectsRecursiveImpl (provider : ListingProvider) (limits : ListingLimits)
    (b : Bounds) (symlinkHandling : SymlinkHandling) (done : ℕ → PyStr → Bool) (fuel : ℕ)
    (path : PyStr) : Option (List ObjectMetadata) :=
  -- a provider without parallel listing lists by itself
  if !provider.supportsParallelListing then
    some (provider.listObjects path b.startAfter b.endAt false symlinkHandling)
  else
    let fn := fun p => provider.shallowList p symlinkHandling
    let (prefixes, objects) := fn path
    let prefixes := b.prune prefixes
    -- a flat directory needs no heap
    if prefixes.isEmpty then some (b.emit objects)
    else
      let heap := heapify (prefixes.map .child ++ objects.map .object)
      let x := ({} : PrefixExpander).enqueue fn limits.maxInflight prefixes
      listingLoop fn limits.maxInflight b done fuel heap x 0

/-! ### The expander delivers what a direct call would -/

namespace PrefixExpander

variable {fn : PyStr → ShallowListResult} {maxInflight : ℕ} {x : PrefixExpander}

/-- Every stored value is that of the function. -/
structure Ok (fn : PyStr → ShallowListResult) (x : PrefixExpander) : Prop where
  inflight : ∀ f ∈ x.inflight, f.2 = fn f.1
  ready : ∀ f ∈ x.ready, f.2 = fn f.1

/-- What is in flight is the listing of its own directory. -/
theorem submit_ok (ready : List (PyStr × ShallowListResult)) (ps : List PyStr)
    {inflight : List (PyStr × ShallowListResult)} (h : ∀ f ∈ inflight, f.2 = fn f.1) :
    ∀ f ∈ (submit fn maxInflight ready ps inflight).2, f.2 = fn f.1 := by
  induction ps generalizing inflight with
  | nil => exact h
  | cons p ps ih =>
      rw [submit]
      split
      · split
        · refine ih fun f hf => ?_
          rcases List.mem_append.mp hf with hf | hf
          · exact h f hf
          · rw [List.mem_singleton.mp hf]
        · exact ih h
      · exact h

theorem Ok.fill (h : x.Ok fn) : (x.fill fn maxInflight).Ok fn :=
  ⟨submit_ok _ _ h.inflight, h.ready⟩

theorem Ok.enqueue (h : x.Ok fn) (prefixes : List PyStr) :
    (x.enqueue fn maxInflight prefixes).Ok fn :=
  Ok.fill ⟨h.inflight, h.ready⟩

theorem Ok.collect (h : x.Ok fn) (done : PyStr → Bool) :
    (x.collect fn maxInflight done).Ok fn := by
  refine Ok.fill ⟨fun f hf => h.inflight f (List.mem_filter.mp hf).1, fun f hf => ?_⟩
  rcases List.mem_append.mp hf with hf | hf
  · exact h.inflight f (List.mem_filter.mp hf).1
  · exact h.ready f hf

theorem eq_of_lookup {l : List (PyStr × ShallowListResult)} (h : ∀ f ∈ l, f.2 = fn f.1)
    {p : PyStr} {r : ShallowListResult} (hl : l.lookup p = some r) : r = fn p := by
  obtain ⟨l₁, l₂, rfl, -⟩ := List.lookup_eq_some_iff.mp hl
  exact h (p, r) (by simp)

/-- **Whatever is complete when it looks**, the expander returns the
children of the prefix. -/
theorem get_spec (maxInflight : ℕ) (h : x.Ok fn) (done : PyStr → Bool) (p : PyStr) :
    (x.get fn maxInflight done p).1 = fn p ∧ (x.get fn maxInflight done p).2.Ok fn := by
  have hc : (x.collect fn maxInflight done).Ok fn := h.collect done
  unfold get
  dsimp only
  split
  · rename_i r hr
    exact ⟨eq_of_lookup hc.ready hr, hc.inflight,
      fun f hf => hc.ready f (List.mem_filter.mp hf).1⟩
  · split
    · rename_i r hr
      exact ⟨eq_of_lookup hc.inflight hr, fun f hf => hc.inflight f (List.mem_filter.mp hf).1,
        hc.ready⟩
    · exact ⟨rfl, hc⟩

end PrefixExpander

end MultiStorageClient
