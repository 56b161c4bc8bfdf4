/-
MultiStorageClient/Eviction.lean

Eviction from the cache directory: `CacheManager.evict_files` and the policies.

The files are put into the order of the policy, and once they are larger than
the cache may be they are deleted from the front until the rest is small enough.
How small is a percentage of the size of the cache, which the code computes in
floating point; the sizes themselves are integers, and are compared with it
exactly.
-/
import MultiStorageClient.PyDict
import MultiStorageClient.PyFloat
import MultiStorageClient.PyStr

namespace MultiStorageClient

namespace Eviction

/-! ### The policies -/

/-- `os.stat` -/
structure FileStat (T : Type) where
  size : ℕ
  atime : T
  mtime : T

/-- `CacheItem` -/
structure CacheItem (T : Type) where
  filePath : PyStr
  fileSize : ℕ
  atime : T
  mtime : T

/-- The eviction policies. -/
inductive EvictionPolicy
  | lru
  | mru
  | fifo
  | random
  | noEviction
  deriving DecidableEq

section Policies

variable {T : Type} [LinearOrder T] (shuffle : List (CacheItem T) → List (CacheItem T))

/-- `RandomEvictionPolicy.sort_items` -/
def randomSortItems (items : List (CacheItem T)) : List (CacheItem T) :=
  let sorted := items.mergeSort fun a b => a.mtime ≤ b.mtime
  match sorted.getLast? with
  | none => sorted
  | some newest => if 1 < sorted.length then shuffle sorted.dropLast ++ [newest] else sorted

/-- `sort_items` -/
def sortItems (items : List (CacheItem T)) : EvictionPolicy → List (CacheItem T)
  | .lru => items.mergeSort fun a b => a.atime ≤ b.atime
  -- a sort in reverse keeps the order of equal keys, too
  | .mru => items.mergeSort fun a b => b.atime ≤ a.atime
  | .fifo => items.mergeSort fun a b => a.mtime ≤ b.mtime
  | .random => randomSortItems shuffle items
  | .noEviction => items

/-- What a policy says about the order of the items. -/
def PolicyOrder (order : List (CacheItem T)) : EvictionPolicy → Prop
  | .lru => order.Pairwise fun a b => a.atime ≤ b.atime
  | .mru => order.Pairwise fun a b => b.atime ≤ a.atime
  | .fifo => order.Pairwise fun a b => a.mtime ≤ b.mtime
  | .random => ∀ newest, order.getLast? = some newest → ∀ item ∈ order, item.mtime ≤ newest.mtime
  | .noEviction => True

end Policies

/-- A sort by a total order. -/
theorem pairwise_sort {α : Type} (r : α → α → Prop) [DecidableRel r]
    (htrans : ∀ a b c, r a b → r b c → r a c) (htotal : ∀ a b, r a b ∨ r b a) (l : List α) :
    (l.mergeSort fun a b => r a b).Pairwise r := by
  have h : (l.mergeSort fun a b => decide (r a b)).Pairwise fun a b => decide (r a b) :=
    List.pairwise_mergeSort
      (fun a b c hab hbc =>
        decide_eq_true (htrans a b c (of_decide_eq_true hab) (of_decide_eq_true hbc)))
      (fun a b => by simpa using htotal a b) l
  exact h.imp fun hab => of_decide_eq_true hab

section Policies

variable {T : Type} [LinearOrder T] {shuffle : List (CacheItem T) → List (CacheItem T)}

/-- `random.shuffle` brings a list into some order. -/
abbrev Shuffles (shuffle : List (CacheItem T) → List (CacheItem T)) : Prop :=
  ∀ items, (shuffle items).Perm items

/-- The sorting loses and invents no item. -/
theorem perm_sortItems (hshuffle : Shuffles shuffle) (items : List (CacheItem T))
    (policy : EvictionPolicy) :
    (sortItems shuffle items policy).Perm items := by
  cases policy
  case lru | mru | fifo => exact List.mergeSort_perm _ _
  case noEviction => exact .refl _
  case random =>
    have hsorted := List.mergeSort_perm items fun a b => decide (a.mtime ≤ b.mtime)
    refine .trans ?_ hsorted
    simp only [sortItems, randomSortItems]
    cases hlast : (items.mergeSort fun a b => decide (a.mtime ≤ b.mtime)).getLast? with
    | none => exact .refl _
    | some newest =>
        dsimp only
        split
        · conv_rhs => rw [← List.dropLast_append_getLast? _ hlast]
          exact (hshuffle _).append_right _
        · exact .refl _

/-- The order of a policy is what the policy says. -/
theorem policyOrder_sortItems (hshuffle : Shuffles shuffle) (items : List (CacheItem T))
    (policy : EvictionPolicy) :
    PolicyOrder (sortItems shuffle items policy) policy := by
  cases policy
  case lru =>
    exact pairwise_sort (fun a b : CacheItem T => a.atime ≤ b.atime) (fun a b c => le_trans)
      (fun a b => le_total _ _) items
  case mru =>
    exact pairwise_sort (fun a b : CacheItem T => b.atime ≤ a.atime)
      (fun a b c hab hbc => hbc.trans hab) (fun a b => le_total _ _) items
  case fifo =>
    exact pairwise_sort (fun a b : CacheItem T => a.mtime ≤ b.mtime) (fun a b c => le_trans)
      (fun a b => le_total _ _) items
  case noEviction => trivial
  case random =>
    -- the newest item stays last, the others are shuffled before it
    intro last hlast item hitem
    have hmem := (perm_sortItems hshuffle items .random).mem_iff.mp hitem
    have hsorted :=
      pairwise_sort (fun a b : CacheItem T => a.mtime ≤ b.mtime) (fun a b c => le_trans)
      (fun a b => le_total _ _) items
    have hmem' : item ∈ items.mergeSort fun a b => decide (a.mtime ≤ b.mtime) :=
      List.mem_mergeSort.mpr hmem
    simp only [sortItems, randomSortItems] at hlast
    cases hnewest : (items.mergeSort fun a b => decide (a.mtime ≤ b.mtime)).getLast? with
    -- an item is in the list, so there is a newest one
    | none =>
        rw [List.getLast?_eq_none_iff.mp hnewest] at hmem'
        cases hmem'
    | some newest =>
        have heq : newest = last := by
          simp only [hnewest] at hlast
          split at hlast
          · simpa using hlast
          · exact Option.some.inj (hnewest.symm.trans hlast)
        subst heq
        rw [← List.dropLast_append_getLast? _ hnewest] at hmem' hsorted
        rcases List.mem_append.mp hmem' with h | h
        · exact (List.pairwise_append.mp hsorted).2.2 item h newest (List.mem_singleton_self _)
        · rw [List.mem_singleton.mp h]

end Policies

/-! ### The cache directory -/

section Disk

variable {T : Type}

/-- The files below the cache directory, by their paths. -/
abbrev CacheDisk (T : Type) := PyDict PyStr (FileStat T)

/-- Lock files and hidden files are skipped, but not the hidden files of chunks. -/
def isCached (path : PyStr) : Bool :=
  let fileName := PyStr.basename path
  !".lock".toList.isSuffixOf fileName &&
    !(fileName.head? = some '.' && !decide ("#chunk".toList <:+: fileName))

/-- `CacheItem.from_path`, for the files that are counted. -/
def cacheItem (file : PyStr × FileStat T) : Option (CacheItem T) :=
  if isCached file.1 && file.2.size ≠ 0 then
    some ⟨file.1, file.2.size, file.2.atime, file.2.mtime⟩
  else none

/-- The files that `os.walk` finds and that are counted. -/
def cacheItems (disk : CacheDisk T) : List (CacheItem T) := disk.entries.filterMap cacheItem

/-- The lock file beside a file. -/
def lockPath (path : PyStr) : PyStr :=
  PyStr.join (PyStr.dirname path) ('.' :: PyStr.basename path ++ ".lock".toList)

/-- `_delete_cache_file_at_path` -/
def deleteCacheFileAtPath (disk : CacheDisk T) (path : PyStr) : CacheDisk T :=
  (disk.pop path).pop (lockPath path)

/-- The loop of `evict_files`, over what is left in the dictionary of the files. -/
def evictLoop (targetSize : Float) :
    List (PyStr × ℕ) → ℤ → CacheDisk T → CacheDisk T
  | [], _, disk => disk
  | (fileToEvict, fileSize) :: cache, cacheSize, disk =>
      if PyFloat.ltInt targetSize cacheSize then
        evictLoop targetSize cache (cacheSize - fileSize) (deleteCacheFileAtPath disk fileToEvict)
      else disk

/-- `self._max_cache_size * (1.0 - purge_factor / 100.0)` -/
def targetSize (maxCacheSize purgeFactor : ℕ) : Option Float := do
  let maxCacheSize ← PyFloat.ofInt maxCacheSize
  let purgeFactor ← PyFloat.ofInt purgeFactor
  return maxCacheSize * (1.0 - purgeFactor / 100.0)

variable [LinearOrder T] (shuffle : List (CacheItem T) → List (CacheItem T))

/-- The order in which files are evicted. -/
def evictionOrder (policy : EvictionPolicy) (disk : CacheDisk T) : List (CacheItem T) :=
  sortItems shuffle (cacheItems disk) policy

/-- `evict_files`; `none` is an `OverflowError`. -/
def evictFiles (policy : EvictionPolicy) (maxCacheSize purgeFactor : ℕ) (disk : CacheDisk T) :
    Option (CacheDisk T) := do
  let items := evictionOrder shuffle policy disk
  let cache := PyDict.ofList (items.map fun item => (item.filePath, item.fileSize))
  let cacheSize : ℤ := (items.map fun item => (item.fileSize : ℤ)).sum
  let targetSize ← targetSize maxCacheSize purgeFactor
  return if maxCacheSize < cacheSize then evictLoop targetSize cache.entries cacheSize disk
    else disk

end Disk

/-! ### What an eviction is for -/

section Specification

variable {T : Type}

/-- The size of all files but the first `k`. -/
def sizeFrom (order : List (CacheItem T)) (k : ℕ) : ℕ :=
  ((order.drop k).map CacheItem.fileSize).sum

/-- The size that is left of the cache, exactly. -/
def exactTarget (maxCacheSize purgeFactor : ℕ) : ℚ := maxCacheSize * (1 - purgeFactor / 100)

/-- The first `k` files are as few as bring the size to the target. -/
structure Shortest (order : List (CacheItem T)) (target : ℚ) (k : ℕ) : Prop where
  le : sizeFrom order k ≤ target
  lt : ∀ j < k, target < sizeFrom order j

/-- The first `k` files and their locks are gone, and nothing else. -/
def Evicted (order : List (CacheItem T)) (k : ℕ) (disk disk' : CacheDisk T) : Prop :=
  ∀ path, disk'.get? path =
    if ∃ item ∈ order.take k, path = item.filePath ∨ path = lockPath item.filePath then none
    else disk.get? path

variable [LinearOrder T]

/-- Nothing is deleted where the files fit, and else the fewest files in the order of the policy. -/
structure EvictsShortest (policy : EvictionPolicy) (order : List (CacheItem T))
    (maxCacheSize purgeFactor : ℕ) (disk disk' : CacheDisk T) : Prop where
  perm : order.Perm (cacheItems disk)
  policyOrder : PolicyOrder order policy
  shortest : ∃ k ≤ order.length, Evicted order k disk disk' ∧
    (sizeFrom order 0 ≤ maxCacheSize → k = 0) ∧
    (maxCacheSize < sizeFrom order 0 → Shortest order (exactTarget maxCacheSize purgeFactor) k)
  newest : policy = .random → order ≠ [] →
    ∃ newest ∈ order, (∀ item ∈ order, item.mtime ≤ newest.mtime) ∧
      (disk'.get? newest.filePath = none → exactTarget maxCacheSize purgeFactor < newest.fileSize)

end Specification

/-! ### The loop -/

section Loop

variable {T : Type} {order : List (CacheItem T)} {disk disk' : CacheDisk T}

theorem sizeFrom_succ {k : ℕ} (hk : k < order.length) :
    sizeFrom order k = order[k].fileSize + sizeFrom order (k + 1) := by
  rw [sizeFrom, List.drop_eq_getElem_cons hk, List.map_cons, List.sum_cons]
  rfl

theorem sizeFrom_antitone (order : List (CacheItem T)) : Antitone (sizeFrom order) := by
  refine antitone_nat_of_succ_le fun k => ?_
  by_cases hk : k < order.length
  · rw [sizeFrom_succ hk]
    omega
  · rw [sizeFrom, sizeFrom, List.drop_of_length_le (by omega), List.drop_of_length_le (by omega)]

theorem sizeFrom_length (order : List (CacheItem T)) : sizeFrom order order.length = 0 := by
  rw [sizeFrom, List.drop_length]
  rfl

theorem sum_fileSize (order : List (CacheItem T)) :
    (order.map fun item => (item.fileSize : ℤ)).sum = sizeFrom order 0 := by
  rw [sizeFrom, List.drop_zero]
  induction order with
  | nil => rfl
  | cons item order ih => simp [ih]

/-- A deletion takes the file and its lock, and nothing else. -/
theorem get?_deleteAll (items : List (CacheItem T)) (disk : CacheDisk T) (path : PyStr) :
    (items.foldl (fun disk item => deleteCacheFileAtPath disk item.filePath) disk).get? path =
      if ∃ item ∈ items, path = item.filePath ∨ path = lockPath item.filePath then none
      else disk.get? path := by
  induction items generalizing disk with
  | nil => simp
  | cons item items ih =>
      rw [List.foldl_cons, ih, deleteCacheFileAtPath, PyDict.get?_pop, PyDict.get?_pop]
      by_cases h : path = item.filePath ∨ path = lockPath item.filePath
      · rcases h with h | h <;> simp [h]
      · obtain ⟨hpath, hlock⟩ := not_or.mp h
        simp [hpath, hlock]

/-- The loop deletes files from the front as long as the rest is larger than the target. -/
theorem evictLoop_eq (target : Float) (order : List (CacheItem T)) (disk : CacheDisk T) :
    ∃ k ≤ order.length,
      evictLoop target (order.map fun item => (item.filePath, item.fileSize))
        (sizeFrom order 0) disk =
        (order.take k).foldl (fun disk item => deleteCacheFileAtPath disk item.filePath) disk ∧
      (∀ j < k, PyFloat.ltInt target (sizeFrom order j) = true) ∧
      (k < order.length → PyFloat.ltInt target (sizeFrom order k) = false) := by
  induction order generalizing disk with
  | nil => exact ⟨0, le_rfl, rfl, nofun, nofun⟩
  | cons item order ih =>
      have hsize : (sizeFrom (item :: order) 0 : ℤ) - item.fileSize = sizeFrom order 0 := by
        rw [sizeFrom_succ (Nat.zero_lt_succ _)]
        show ((item.fileSize + sizeFrom order 0 : ℕ) : ℤ) - item.fileSize = _
        omega
      rw [List.map_cons, evictLoop, hsize]
      split
      next hlt =>
        obtain ⟨k, hk, hloop, hbefore, hat⟩ := ih (deleteCacheFileAtPath disk item.filePath)
        refine ⟨k + 1, Nat.succ_le_succ hk, hloop, fun j hj => ?_, fun h => hat
          (Nat.lt_of_succ_lt_succ h)⟩
        cases j with
        | zero => exact hlt
        | succ j => exact hbefore j (Nat.lt_of_succ_lt_succ hj)
      next hlt => exact ⟨0, Nat.zero_le _, rfl, nofun, fun _ => by simpa using hlt⟩

/-- The loop evicts the files up to the one where it stops. -/
theorem evictLoop_evicts (target : Float) (order : List (CacheItem T)) (disk : CacheDisk T) :
    ∃ k ≤ order.length,
      Evicted order k disk (evictLoop target (order.map fun item => (item.filePath, item.fileSize))
        (sizeFrom order 0) disk) ∧
      (∀ j < k, PyFloat.ltInt target (sizeFrom order j) = true) ∧
      (k < order.length → PyFloat.ltInt target (sizeFrom order k) = false) := by
  obtain ⟨k, hk, hloop, hbefore, hat⟩ := evictLoop_eq target order disk
  exact ⟨k, hk, fun path => by rw [hloop, get?_deleteAll], hbefore, hat⟩

/-- A lock file is not counted. -/
theorem isCached_lockPath (path : PyStr) : isCached (lockPath path) = false := by
  have hslash : '/' ∉ '.' :: PyStr.basename path ++ ".lock".toList := by
    simpa using PyStr.not_mem_basename path
  have hbasename :
      PyStr.basename (lockPath path) = '.' :: PyStr.basename path ++ ".lock".toList := by
    rw [lockPath, PyStr.join_eq_append _ (by simp)]
    exact PyStr.basename_append (PyStr.append_sep_getLast? _) hslash
  have hsuffix : ".lock".toList.isSuffixOf (PyStr.basename (lockPath path)) = true := by
    rw [hbasename, List.isSuffixOf_iff_suffix]
    exact List.suffix_append _ _
  simp only [isCached, hsuffix]
  rfl

/-- The items are the cached files that are not empty. -/
theorem mem_cacheItems {item : CacheItem T} :
    item ∈ cacheItems disk ↔ isCached item.filePath = true ∧ item.fileSize ≠ 0 ∧
      disk.get? item.filePath = some ⟨item.fileSize, item.atime, item.mtime⟩ := by
  rw [cacheItems, List.mem_filterMap]
  constructor
  · rintro ⟨⟨path, stat⟩, hmem, hitem⟩
    unfold cacheItem at hitem
    split at hitem
    · next h =>
        cases hitem
        obtain ⟨hcached, hsize⟩ := Bool.and_eq_true_iff.mp h
        exact ⟨hcached, of_decide_eq_true hsize, PyDict.get?_eq_some_iff.mpr hmem⟩
    · cases hitem
  · rintro ⟨hcached, hsize, hget⟩
    exact ⟨_, PyDict.get?_eq_some_iff.mp hget, if_pos (by simp [hcached, hsize])⟩

/-- The items keep the order of the files. -/
theorem sublist_filterMap_cacheItem (files : List (PyStr × FileStat T)) :
    ((files.filterMap cacheItem).map CacheItem.filePath).Sublist (files.map Prod.fst) := by
  induction files with
  | nil => exact .slnil
  | cons file files ih =>
      by_cases h : (isCached file.1 && file.2.size ≠ 0) = true
      · have hitem : cacheItem file = some ⟨file.1, file.2.size, file.2.atime, file.2.mtime⟩ :=
          if_pos h
        rw [List.filterMap_cons_some hitem]
        exact ih.cons_cons _
      · have hitem : cacheItem file = none := if_neg h
        rw [List.filterMap_cons_none hitem]
        exact ih.cons _

theorem nodup_cacheItems (disk : CacheDisk T) : ((cacheItems disk).map CacheItem.filePath).Nodup :=
  disk.nodup.sublist (sublist_filterMap_cacheItem _)

section Order

variable (horder : order.Perm (cacheItems disk))

include horder

theorem nodup_order : (order.map CacheItem.filePath).Nodup :=
  (horder.map _).nodup_iff.mpr (nodup_cacheItems disk)

/-- The files that are gone are the first ones. -/
theorem Evicted.get?_eq_none_iff {k i : ℕ} (h : Evicted order k disk disk')
    (hi : i < order.length) :
    disk'.get? order[i].filePath = none ↔ i < k := by
  obtain ⟨hcached, -, hget⟩ := mem_cacheItems.mp (horder.mem_iff.mp (List.getElem_mem hi))
  rw [h]
  constructor
  · intro hnone
    split at hnone
    · next hexists =>
        obtain ⟨item, hitem, hpath | hlock⟩ := hexists
        · obtain ⟨j, hj, rfl⟩ := List.mem_take_iff_getElem.mp hitem
          have hinj := List.inj_on_of_nodup_map (nodup_order horder) (List.getElem_mem hi)
            (List.getElem_mem _) hpath
          have hij := (List.Nodup.of_map _ (nodup_order horder)).getElem_inj_iff.mp hinj
          omega
        · rw [hlock, isCached_lockPath] at hcached
          cases hcached
    · rw [hget] at hnone
      cases hnone
  · intro hik
    exact if_pos ⟨order[i], List.mem_take_iff_getElem.mpr ⟨i, by omega, rfl⟩, .inl rfl⟩

theorem Evicted.unique {k k' : ℕ} (hk : k ≤ order.length) (hk' : k' ≤ order.length)
    (h : Evicted order k disk disk') (h' : Evicted order k' disk disk') : k = k' := by
  have hiff : ∀ i < order.length, (i < k ↔ i < k') := fun i hi =>
    (h.get?_eq_none_iff horder hi).symm.trans (h'.get?_eq_none_iff horder hi)
  rcases lt_trichotomy k k' with hlt | heq | hgt
  · exact absurd ((hiff k (by omega)).mpr hlt) (lt_irrefl k)
  · exact heq
  · exact absurd ((hiff k' (by omega)).mp hgt) (lt_irrefl k')

end Order

end Loop

/-! ### Rounding -/

section Rounding

variable {T : Type} {order : List (CacheItem T)} {maxCacheSize purgeFactor : ℕ} {target : Float}

/-- No sum of the sizes of the last files lies between the exact target and the computed one. -/
def RoundsWell (order : List (CacheItem T)) (maxCacheSize purgeFactor : ℕ) (target : Float) :
    Prop :=
  ∀ k < order.length, (sizeFrom order k : ℚ) ≤ exactTarget maxCacheSize purgeFactor ↔
    PyFloat.ltInt target (sizeFrom order k) = false

/-- Where the loop stops is right if and only if rounding does not matter. -/
theorem shortest_iff_roundsWell (hpurge : purgeFactor ≤ 100) {k : ℕ} (hk : k ≤ order.length)
    (hbefore : ∀ j < k, PyFloat.ltInt target (sizeFrom order j) = true)
    (hat : k < order.length → PyFloat.ltInt target (sizeFrom order k) = false) :
    Shortest order (exactTarget maxCacheSize purgeFactor) k ↔
      RoundsWell order maxCacheSize purgeFactor target := by
  constructor
  · rintro ⟨hle, hlt⟩ j hj
    rcases lt_or_ge j k with hjk | hkj
    · simp [hbefore j hjk, hlt j hjk]
    · have hsize : sizeFrom order j ≤ sizeFrom order k := sizeFrom_antitone order hkj
      have hexact : (sizeFrom order j : ℚ) ≤ exactTarget maxCacheSize purgeFactor :=
        (Nat.cast_le.mpr hsize).trans hle
      have hfloat : PyFloat.ltInt target (sizeFrom order j) = false := by
        refine Bool.eq_false_iff.mpr fun h => ?_
        exact Bool.eq_false_iff.mp (hat (by omega)) (PyFloat.ltInt_mono h (by omega))
      exact iff_of_true hexact hfloat
  · intro hrounds
    constructor
    · rcases hk.lt_or_eq with hlt | rfl
      · exact (hrounds k hlt).mpr (hat hlt)
      · -- all files are gone, and the target is not negative
        have hfactor : (purgeFactor : ℚ) ≤ 100 := by exact_mod_cast hpurge
        have hpercent : (purgeFactor : ℚ) / 100 ≤ 1 := (div_le_one (by norm_num)).mpr hfactor
        rw [sizeFrom_length, Nat.cast_zero, exactTarget]
        exact mul_nonneg (Nat.cast_nonneg _) (sub_nonneg.mpr hpercent)
    · intro j hj
      have h := (hrounds j (by omega)).not
      rw [hbefore j hj] at h
      exact not_le.mp (h.mpr (by decide))

end Rounding

/-! ### The eviction -/

section EvictFiles

variable {T : Type} [LinearOrder T] {shuffle : List (CacheItem T) → List (CacheItem T)}
  {order : List (CacheItem T)} {disk disk' : CacheDisk T}

/-- The newest file is the last one of the random order, and goes only with all others. -/
theorem exists_newest (hpolicy : PolicyOrder order .random) (horder : order.Perm (cacheItems disk))
    (hne : order ≠ []) {k : ℕ} (hevicted : Evicted order k disk disk') :
    ∃ newest ∈ order, (∀ item ∈ order, item.mtime ≤ newest.mtime) ∧
      (disk'.get? newest.filePath = none → ∃ j < k, sizeFrom order j = newest.fileSize) := by
  have hpos : 0 < order.length := List.length_pos_of_ne_nil hne
  have hlast : order.length - 1 < order.length := by omega
  refine ⟨order[order.length - 1], List.getElem_mem hlast, hpolicy _ ?_, fun hnone => ?_⟩
  · rw [List.getLast?_eq_getElem?, List.getElem?_eq_getElem hlast]
  · refine ⟨_, (hevicted.get?_eq_none_iff horder hlast).mp hnone, ?_⟩
    rw [sizeFrom_succ hlast, Nat.sub_add_cancel hpos, sizeFrom_length, Nat.add_zero]

variable {policy : EvictionPolicy} {maxCacheSize purgeFactor : ℕ} {target : Float}

/-- `evict_files`, in terms of the order of the files. -/
theorem evictFiles_eq (hshuffle : Shuffles shuffle)
    (htarget : targetSize maxCacheSize purgeFactor = some target)
    (horder : evictionOrder shuffle policy disk = order) :
    evictFiles shuffle policy maxCacheSize purgeFactor disk =
      some (if maxCacheSize < sizeFrom order 0 then
        evictLoop target (order.map fun item => (item.filePath, item.fileSize))
          (sizeFrom order 0) disk
        else disk) := by
  have hperm : order.Perm (cacheItems disk) := horder ▸ perm_sortItems hshuffle _ policy
  have hcache : (PyDict.ofList (order.map fun item => (item.filePath, item.fileSize))).entries =
      order.map fun item => (item.filePath, item.fileSize) :=
    PyDict.entries_ofList (by simpa [Function.comp_def] using nodup_order hperm)
  simp only [evictFiles, horder, hcache, sum_fileSize, htarget, Option.bind_eq_bind,
    Option.bind_some, Nat.cast_lt]
  rfl

/-- **`evict_files` deletes the fewest files in the order of the policy that bring the cache to the
target**, if and only if rounding the target does not matter. -/
theorem evict_files_iff (hshuffle : Shuffles shuffle) (hpurge : purgeFactor ≤ 100)
    (disk : CacheDisk T) :
    (∃ disk', evictFiles shuffle policy maxCacheSize purgeFactor disk = some disk' ∧
      EvictsShortest policy (evictionOrder shuffle policy disk) maxCacheSize purgeFactor disk
        disk') ↔
    ∃ target, targetSize maxCacheSize purgeFactor = some target ∧
      (maxCacheSize < sizeFrom (evictionOrder shuffle policy disk) 0 →
        RoundsWell (evictionOrder shuffle policy disk) maxCacheSize purgeFactor target) := by
  have horder : (evictionOrder shuffle policy disk).Perm (cacheItems disk) :=
    perm_sortItems hshuffle _ policy
  have hpolicy : PolicyOrder (evictionOrder shuffle policy disk) policy :=
    policyOrder_sortItems hshuffle _ policy
  generalize hf : evictionOrder shuffle policy disk = order at *
  constructor
  · rintro ⟨disk', hevict, -, -, ⟨k, hk, hevicted, -, hshortest⟩, -⟩
    cases htarget : targetSize maxCacheSize purgeFactor with
    | none => simp [evictFiles, htarget] at hevict
    | some target =>
        refine ⟨target, rfl, fun hlarge => ?_⟩
        rw [evictFiles_eq hshuffle htarget hf, if_pos hlarge] at hevict
        obtain ⟨k', hk', hevicted', hbefore, hat⟩ := evictLoop_evicts target order disk
        rw [Option.some.inj hevict] at hevicted'
        obtain rfl := hevicted.unique horder hk hk' hevicted'
        exact (shortest_iff_roundsWell hpurge hk hbefore hat).mp (hshortest hlarge)
  · rintro ⟨target, htarget, hrounds⟩
    refine ⟨_, evictFiles_eq hshuffle htarget hf, ?_⟩
    split
    next hlarge =>
      obtain ⟨k, hk, hevicted, hbefore, hat⟩ := evictLoop_evicts target order disk
      have hshortest := (shortest_iff_roundsWell hpurge hk hbefore hat).mpr (hrounds hlarge)
      refine ⟨horder, hpolicy,
        ⟨k, hk, hevicted, fun h => absurd hlarge (by omega), fun _ => hshortest⟩, ?_⟩
      rintro rfl hne
      obtain ⟨newest, hmem, hmax, hgone⟩ := exists_newest hpolicy horder hne hevicted
      refine ⟨newest, hmem, hmax, fun hnone => ?_⟩
      obtain ⟨j, hj, hsize⟩ := hgone hnone
      exact hsize ▸ hshortest.lt j hj
    next hsmall =>
      have hevicted : Evicted order 0 disk disk := fun path => by simp
      refine ⟨horder, hpolicy,
        ⟨0, Nat.zero_le _, hevicted, fun _ => rfl, fun h => absurd h hsmall⟩, ?_⟩
      rintro rfl hne
      obtain ⟨newest, hmem, hmax, hgone⟩ := exists_newest hpolicy horder hne hevicted
      refine ⟨newest, hmem, hmax, fun hnone => ?_⟩
      obtain ⟨j, hj, -⟩ := hgone hnone
      exact absurd hj (Nat.not_lt_zero j)

end EvictFiles

/-- Two files, the larger of which was read before the other one. -/
def twoFiles (size : ℕ) : CacheDisk ℕ :=
  PyDict.ofList [("/cache/a".toList, ⟨10 * size, 0, 0⟩), ("/cache/b".toList, ⟨size, 1, 1⟩)]

/-- The order of the two files. -/
def twoItems (size : ℕ) : List (CacheItem ℕ) :=
  [⟨"/cache/a".toList, 10 * size, 0, 0⟩, ⟨"/cache/b".toList, size, 1, 1⟩]

theorem shuffles_id : Shuffles (id : List (CacheItem ℕ) → List (CacheItem ℕ)) := fun _ => .refl _

theorem evictionOrder_twoFiles : evictionOrder id .lru (twoFiles 1048576) = twoItems 1048576 := by
  have hitems : cacheItems (twoFiles 1048576) = twoItems 1048576 := by rfl
  rw [evictionOrder, hitems]
  exact List.mergeSort_of_pairwise (by simp [twoItems])

/-- A cache of ten megabytes that holds eleven, with a purge factor of 50. -/
theorem twoFiles_evicted :
    ∃ disk', evictFiles id .lru 10485760 50 (twoFiles 1048576) = some disk' ∧
      EvictsShortest .lru (evictionOrder id .lru (twoFiles 1048576)) 10485760 50 (twoFiles 1048576)
        disk' := by
  refine (evict_files_iff shuffles_id (by decide) _).mpr
    ⟨(targetSize 10485760 50).get (by decide +kernel), (Option.some_get _).symm, fun _ => ?_⟩
  rw [evictionOrder_twoFiles]
  intro k hk
  obtain rfl | rfl : k = 0 ∨ k = 1 := by
    have : k < 2 := hk
    omega
  · decide +kernel
  · decide +kernel

/-- With a purge factor of 90 one megabyte may stay, but the target is rounded down: the second
file, of one megabyte, is deleted, too. -/
theorem twoFiles_not_shortest :
    ¬∃ disk', evictFiles id .lru 10485760 90 (twoFiles 1048576) = some disk' ∧
      EvictsShortest .lru (evictionOrder id .lru (twoFiles 1048576)) 10485760 90 (twoFiles 1048576)
        disk' := by
  rintro ⟨disk', hevict, horder, -, ⟨k, hk, hevicted, -, hshortest⟩, -⟩
  have htarget : targetSize 10485760 90 = some ((targetSize 10485760 90).get (by decide +kernel)) :=
    (Option.some_get _).symm
  rw [evictFiles_eq shuffles_id htarget evictionOrder_twoFiles, if_pos (by decide)] at hevict
  rw [evictionOrder_twoFiles] at horder hevicted hshortest
  have hgone : disk'.get? "/cache/b".toList = none := by
    rw [← Option.some.inj hevict, ← Option.isNone_iff_eq_none]
    decide +kernel
  have hk : 1 < k := (hevicted.get?_eq_none_iff horder (Nat.lt_succ_self 1)).mp hgone
  have hlt := (hshortest (by decide)).lt 1 hk
  exact absurd hlt (by decide +kernel)

end Eviction

end MultiStorageClient
