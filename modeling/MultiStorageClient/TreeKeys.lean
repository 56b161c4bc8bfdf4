/-
MultiStorageClient/TreeKeys.lean

The byte keys of the B+Trees of `bptree.go`, and the directory ranges that are
found by searching for them.

A key is a number, or a time and a number, of eight bytes each, and then the bytes
of a name; so keys are in the order of the tuples.  The entries of the directory
`p` are those from `(p, "")` on, before `(p+1, "")`.  The number `p+1` wraps for
the last `p`, and the range of that directory is empty then, whatever it holds;
and the first moment of 1970 is read back as the zero time.  Everything else is as
it should be (`tree_keys_iff`).

`sortedmap.BPlusTree` is a map with its keys in order; `BisectRight` is a
parameter.
-/
import MultiStorageClient.ByteOrder
import MultiStorageClient.InodePages

namespace MultiStorageFileSystem

open ByteCodec

/-! ### The keys -/

/-- A time, as `PutUint64` gets it. -/
def timeNumber (t : GoTime) : UInt64 := if t.isZero then 0 else t.unixNano.toUInt64

/-- `timeTimeUint64TupleToByteSlice` -/
def timeTimeUint64TupleToByteSlice (t : GoTime) (u64 : UInt64) : List UInt8 :=
  uint64Bytes (timeNumber t) ++ uint64Bytes u64

/-- `none` stands for the `Fatalf`. -/
def byteSliceToTimeTimeUint64Tuple (bs : List UInt8) : Option (GoTime × UInt64) :=
  if bs.length ≠ 16 then none
  else
    let tAsU64 : UInt64 := .ofNat (ofBigEndian (bs.take 8))
    let t := if tAsU64 = 0 then GoTime.zero else .unix tAsU64.toInt64
    some (t, .ofNat (ofBigEndian (bs.drop 8)))

/-- `uint64StringTupleToByteSlice` -/
def uint64StringTupleToByteSlice (u64 : UInt64) (s : List UInt8) : List UInt8 :=
  uint64Bytes u64 ++ s

/-- `none` stands for the `Fatalf`. -/
def byteSliceToUint64StringTuple (bs : List UInt8) : Option (UInt64 × List UInt8) :=
  if bs.length < 8 then none
  else some (.ofNat (ofBigEndian (bs.take 8)), bs.drop 8)

section Keys

variable {t t' : GoTime} {u u' p : UInt64} {s s' : List UInt8}

theorem ofNat_ofBigEndian (u : UInt64) : UInt64.ofNat (ofBigEndian (uint64Bytes u)) = u := by
  rw [uint64Bytes, ofBigEndian_bigEndian u.toNat_lt, UInt64.ofNat_toNat]

theorem uint64Bytes_lt_iff : uint64Bytes u < uint64Bytes u' ↔ u < u' := by
  rw [uint64Bytes, uint64Bytes, bigEndian_lt_iff u.toNat_lt u'.toNat_lt, UInt64.lt_iff_toNat_lt]

theorem uint64Bytes_inj : uint64Bytes u = uint64Bytes u' ↔ u = u' := by
  rw [uint64Bytes, uint64Bytes, bigEndian_inj u.toNat_lt u'.toNat_lt, UInt64.toNat_inj]

/-- **A name key** is read back. -/
theorem byteSliceToUint64StringTuple_key (u : UInt64) (s : List UInt8) :
    byteSliceToUint64StringTuple (uint64StringTupleToByteSlice u s) = some (u, s) := by
  have hlen : ¬(uint64Bytes u ++ s).length < 8 := by
    rw [List.length_append, length_uint64Bytes]
    omega
  rw [byteSliceToUint64StringTuple, uint64StringTupleToByteSlice, if_neg hlen,
    List.take_left' (length_uint64Bytes u), List.drop_left' (length_uint64Bytes u),
    ofNat_ofBigEndian]

/-- **Name keys** are in the order of the tuples. -/
theorem uint64StringTupleToByteSlice_lt_iff :
    uint64StringTupleToByteSlice u s < uint64StringTupleToByteSlice u' s' ↔
      u < u' ∨ u = u' ∧ s < s' := by
  rw [uint64StringTupleToByteSlice, uint64StringTupleToByteSlice,
    append_lt_append_iff (by rw [length_uint64Bytes, length_uint64Bytes]), uint64Bytes_lt_iff,
    uint64Bytes_inj]

theorem timeNumber_of_nonneg (h : 0 ≤ t.sinceEpoch) : timeNumber t = t.unixNano.toUInt64 := by
  have hzero : t.isZero = false := by
    refine decide_eq_false fun heq => ?_
    rw [heq] at h
    exact absurd h (by decide)
  rw [timeNumber, hzero]
  rfl

/-- The number of a time that is not before 1970. -/
theorem toNat_timeNumber (h : 0 ≤ t.sinceEpoch) (hlt : t.sinceEpoch < 2 ^ 63) :
    ((timeNumber t).toNat : ℤ) = t.sinceEpoch := by
  have hint : t.unixNano.toInt = t.sinceEpoch :=
    Int64.toInt_ofInt_of_le (le_trans (by decide) h) hlt
  have hcond := BitVec.toInt_eq_toNat_cond t.unixNano.toBitVec
  have hnat : t.unixNano.toUInt64.toNat = t.unixNano.toBitVec.toNat := rfl
  have htoInt : t.unixNano.toInt = t.unixNano.toBitVec.toInt := rfl
  rw [timeNumber_of_nonneg h, hnat]
  rw [← htoInt, hint] at hcond
  split at hcond
  · exact hcond.symm
  · have := t.unixNano.toBitVec.isLt
    omega

theorem timeNumber_lt_iff (h : 0 ≤ t.sinceEpoch) (hlt : t.sinceEpoch < 2 ^ 63)
    (h' : 0 ≤ t'.sinceEpoch) (hlt' : t'.sinceEpoch < 2 ^ 63) :
    timeNumber t < timeNumber t' ↔ t.sinceEpoch < t'.sinceEpoch := by
  rw [UInt64.lt_iff_toNat_lt, ← toNat_timeNumber h hlt, ← toNat_timeNumber h' hlt', Int.ofNat_lt]

/-- Times from the epoch to 2^63 have numbers of their own. -/
theorem timeNumber_inj (h : 0 ≤ t.sinceEpoch) (hlt : t.sinceEpoch < 2 ^ 63)
    (h' : 0 ≤ t'.sinceEpoch) (hlt' : t'.sinceEpoch < 2 ^ 63) :
    timeNumber t = timeNumber t' ↔ t = t' := by
  refine ⟨fun heq => ?_, fun heq => heq ▸ rfl⟩
  have := toNat_timeNumber h hlt
  rw [heq, toNat_timeNumber h' hlt'] at this
  cases t
  cases t'
  rw [GoTime.mk.injEq]
  exact this.symm

/-- **Time keys** are in the order of the tuples, from 1970 on. -/
theorem timeTimeUint64TupleToByteSlice_lt_iff (h : 0 ≤ t.sinceEpoch) (hlt : t.sinceEpoch < 2 ^ 63)
    (h' : 0 ≤ t'.sinceEpoch) (hlt' : t'.sinceEpoch < 2 ^ 63) :
    timeTimeUint64TupleToByteSlice t u < timeTimeUint64TupleToByteSlice t' u' ↔
      t.sinceEpoch < t'.sinceEpoch ∨ t = t' ∧ u < u' := by
  rw [timeTimeUint64TupleToByteSlice, timeTimeUint64TupleToByteSlice,
    append_lt_append_iff (by rw [length_uint64Bytes, length_uint64Bytes]), uint64Bytes_lt_iff,
    uint64Bytes_inj, uint64Bytes_lt_iff, timeNumber_lt_iff h hlt h' hlt',
      timeNumber_inj h hlt h' hlt']

/-- What is read back from a time key. -/
theorem byteSliceToTimeTimeUint64Tuple_key (t : GoTime) (u : UInt64) :
    byteSliceToTimeTimeUint64Tuple (timeTimeUint64TupleToByteSlice t u) = some (t.kept, u) := by
  have hlen : ¬(uint64Bytes (timeNumber t) ++ uint64Bytes u).length ≠ 16 := by
    rw [List.length_append, length_uint64Bytes, length_uint64Bytes]
    decide
  rw [byteSliceToTimeTimeUint64Tuple, timeTimeUint64TupleToByteSlice, if_neg hlen,
    List.take_left' (length_uint64Bytes _), List.drop_left' (length_uint64Bytes _),
    ofNat_ofBigEndian, ofNat_ofBigEndian]
  rfl

end Keys

/-! ### The directory maps -/

/-- `DirEntryInfo` -/
structure DirEntryInfo where
  inodeNumber : UInt64
  inodeType : UInt32 := 0
  size : UInt64 := 0
  mode : UInt32 := 0
  mTimeUnixNano : Int64 := 0
  deriving DecidableEq

/-- The B+Tree of a `parentInodeNumberChildBasenameToChildInodeNumberStruct`: every key was built
from a parent and a basename. -/
structure DirEntryTree where
  bpTree : SortedMap (List UInt8) DirEntryInfo
  keys : ∀ e ∈ bpTree.entries, ∃ u s, e.1 = uint64StringTupleToByteSlice u s

namespace DirEntryTree

/-- No entries. -/
def empty : DirEntryTree := ⟨.empty, nofun⟩

variable (m : DirEntryTree)

/-- `putByKeyNoFlush`, with its `ok`: `Put` leaves an entry that has the key as it is.  `put` has an
info with the number alone. -/
def putByKeyNoFlush (parentInodeNumber : UInt64) (childBasename : List UInt8)
    (info : DirEntryInfo) : DirEntryTree × Bool :=
  let key := uint64StringTupleToByteSlice parentInodeNumber childBasename
  if (m.bpTree.get key).isSome then (m, false)
  else
    (⟨m.bpTree.insert key info, fun e he => by
      rcases SortedMap.mem_insert.mp he with rfl | ⟨-, he⟩
      · exact ⟨parentInodeNumber, childBasename, rfl⟩
      · exact m.keys e he⟩, true)

/-- What is in the tree was put there or is the new entry. -/
theorem mem_putByKeyNoFlush {parentInodeNumber : UInt64} {childBasename : List UInt8}
    {info : DirEntryInfo} {e : List UInt8 × DirEntryInfo}
    (h : e ∈ (m.putByKeyNoFlush parentInodeNumber childBasename info).1.bpTree.entries) :
    e = (uint64StringTupleToByteSlice parentInodeNumber childBasename, info) ∨
      e ∈ m.bpTree.entries := by
  unfold putByKeyNoFlush at h
  dsimp only at h
  split at h
  · exact .inr h
  · exact (SortedMap.mem_insert.mp h).imp_right And.right

/-- `getByIndex`, with the key. -/
def getByIndex (index : ℕ) : Option (List UInt8 × DirEntryInfo) := m.bpTree.getByIndex index

/-- The entry at a position is one of the directory `p`. -/
def Has (p : UInt64) (index : ℕ) : Prop :=
  ∃ s info, m.getByIndex index = some (uint64StringTupleToByteSlice p s, info)

variable (bisectRight : SortedMap (List UInt8) DirEntryInfo → List UInt8 → ℕ)

/-- `getIndexRange` -/
def getIndexRange (parentInodeNumber : UInt64) : ℕ × ℕ :=
  (bisectRight m.bpTree (uint64StringTupleToByteSlice parentInodeNumber []),
    bisectRight m.bpTree (uint64StringTupleToByteSlice (parentInodeNumber + 1) []))

/-- The range has the positions of the entries of `p`, in the order of the names. -/
structure RangeOf (p : UInt64) (range : ℕ × ℕ) : Prop where
  positions : ∀ i, range.1 ≤ i ∧ i < range.2 ↔ m.Has p i
  ordered : ∀ i j s s' info info', i < j →
    m.getByIndex i = some (uint64StringTupleToByteSlice p s, info) →
    m.getByIndex j = some (uint64StringTupleToByteSlice p s', info') → s < s'

end DirEntryTree

/-- `BisectRight` gives the position of the first key that is not smaller. -/
def BisectsRight (bisectRight : SortedMap (List UInt8) DirEntryInfo → List UInt8 → ℕ) : Prop :=
  ∀ m key, bisectRight m key ≤ m.entries.length ∧
    (∀ i e, m.getByIndex i = some e → (i < bisectRight m key ↔ e.1 < key))

/-- `shardedDirEntryMap`: an entry is in the shard of its parent. -/
structure ShardedDirEntryMap where
  shards : Fin 64 → DirEntryTree
  placed : ∀ k p i, (shards k).Has p i → p.toNat % 64 = k

namespace ShardedDirEntryMap

variable (m : ShardedDirEntryMap)

/-- `shardFor` -/
def shardFor (parentInodeNumber : UInt64) : Fin 64 :=
  ⟨(parentInodeNumber % 64).toNat, by rw [UInt64.toNat_mod]; exact Nat.mod_lt _ (by decide)⟩

/-- `getIndexRange` -/
def getIndexRange (bisectRight : SortedMap (List UInt8) DirEntryInfo → List UInt8 → ℕ)
    (parentInodeNumber : UInt64) : ℕ × ℕ :=
  (m.shards (shardFor parentInodeNumber)).getIndexRange bisectRight parentInodeNumber

/-- No entries in any shard. -/
def empty : ShardedDirEntryMap := ⟨fun _ => .empty, fun _ _ _ h => by
  obtain ⟨s, info, h⟩ := h
  cases h⟩

/-- `putByKeyNoFlush` -/
def putByKeyNoFlush (parentInodeNumber : UInt64) (childBasename : List UInt8)
    (info : DirEntryInfo) : ShardedDirEntryMap × Bool :=
  let s := (m.shards (shardFor parentInodeNumber)).putByKeyNoFlush parentInodeNumber
    childBasename info
  (⟨fun k => if k = shardFor parentInodeNumber then s.1 else m.shards k, fun k p i h => by
    split at h
    next hk =>
      -- the entry just put lies in the shard of its parent; the others were there before
      obtain ⟨name, info', hat⟩ := h
      rcases DirEntryTree.mem_putByKeyNoFlush _ (List.mem_of_getElem? hat) with hnew | hold
      · have hback := congrArg byteSliceToUint64StringTuple (congrArg Prod.fst hnew)
        rw [byteSliceToUint64StringTuple_key, byteSliceToUint64StringTuple_key] at hback
        obtain rfl : p = parentInodeNumber := congrArg Prod.fst (Option.some.inj hback)
        rw [hk]
        exact (UInt64.toNat_mod p 64).symm
      · obtain ⟨j, hj⟩ := List.mem_iff_getElem?.mp hold
        rw [hk]
        exact m.placed (shardFor parentInodeNumber) p j ⟨name, info', hj⟩
    next => exact m.placed k p i h⟩, s.2)

/-- The range has the positions of the entries of `p` in its shard, and no other shard has one. -/
structure RangeOf (p : UInt64) (range : ℕ × ℕ) : Prop where
  shard : (m.shards (shardFor p)).RangeOf p range
  others : ∀ k i, (m.shards k).Has p i → k = shardFor p

end ShardedDirEntryMap

variable {bisectRight : SortedMap (List UInt8) DirEntryInfo → List UInt8 → ℕ}

namespace DirEntryTree

variable {m : DirEntryTree} {p : UInt64}

theorem exists_entry {bpTree : SortedMap (List UInt8) DirEntryInfo} {i : ℕ}
    (h : i < bpTree.entries.length) : ∃ e, bpTree.getByIndex i = some e :=
  ⟨_, List.getElem?_eq_some_iff.mpr ⟨h, rfl⟩⟩

/-- The key at a position. -/
theorem exists_key {i : ℕ} {e : List UInt8 × DirEntryInfo} (h : m.bpTree.getByIndex i = some e) :
    ∃ u s, e.1 = uint64StringTupleToByteSlice u s :=
  m.keys e (List.mem_of_getElem? h)

theorem key_lt_first_iff {u : UInt64} {s : List UInt8} :
    uint64StringTupleToByteSlice u s < uint64StringTupleToByteSlice p [] ↔ u < p := by
  rw [uint64StringTupleToByteSlice_lt_iff]
  exact or_iff_left fun h => List.not_lt_nil s h.2

/-- A position is before the first key of `p` from on. -/
theorem lt_bisectRight_iff (hbisect : BisectsRight bisectRight) {i : ℕ} :
    i < bisectRight m.bpTree (uint64StringTupleToByteSlice p []) ↔
      ∃ u s info, m.getByIndex i = some (uint64StringTupleToByteSlice u s, info) ∧ u < p := by
  obtain ⟨hle, hlt⟩ := hbisect m.bpTree (uint64StringTupleToByteSlice p [])
  constructor
  · intro hi
    obtain ⟨e, he⟩ := exists_entry (hi.trans_le hle)
    obtain ⟨u, s, hkey⟩ := exists_key he
    refine ⟨u, s, e.2, ?_, key_lt_first_iff.mp (hkey ▸ (hlt i e he).mp hi)⟩
    rw [getByIndex, he, ← hkey]
  · rintro ⟨u, s, info, he, hu⟩
    exact (hlt i _ he).mpr (key_lt_first_iff.mpr hu)

/-- Within a directory the names are in the order of the indices. -/
theorem ordered {i j : ℕ} {s s' : List UInt8} {info info' : DirEntryInfo} (hij : i < j)
    (hi : m.getByIndex i = some (uint64StringTupleToByteSlice p s, info))
    (hj : m.getByIndex j = some (uint64StringTupleToByteSlice p s', info')) : s < s' := by
  obtain ⟨hi', hi⟩ := List.getElem?_eq_some_iff.mp hi
  obtain ⟨hj', hj⟩ := List.getElem?_eq_some_iff.mp hj
  have hlt := List.pairwise_iff_getElem.mp m.bpTree.sorted i j hi' hj' hij
  rw [hi, hj] at hlt
  rcases uint64StringTupleToByteSlice_lt_iff.mp hlt with hlt | hlt
  · exact absurd hlt (UInt64.lt_irrefl p)
  · exact hlt.2

/-- A position has one key. -/
theorem parent_unique {i : ℕ} {u u' : UInt64} {s s' : List UInt8} {info info' : DirEntryInfo}
    (h : m.getByIndex i = some (uint64StringTupleToByteSlice u s, info))
    (h' : m.getByIndex i = some (uint64StringTupleToByteSlice u' s', info')) : u = u' := by
  have hkey := congrArg Prod.fst (Option.some.inj (h.symm.trans h'))
  have hback := congrArg byteSliceToUint64StringTuple hkey
  rw [byteSliceToUint64StringTuple_key, byteSliceToUint64StringTuple_key] at hback
  exact congrArg Prod.fst (Option.some.inj hback)

/-- **A directory is a range**, unless it is the last one and has entries. -/
theorem rangeOf_iff (hbisect : BisectsRight bisectRight) :
    m.RangeOf p (m.getIndexRange bisectRight p) ↔ p.toNat + 1 < 2 ^ 64 ∨ ∀ i, ¬m.Has p i := by
  have hmem : ∀ i, (m.getIndexRange bisectRight p).1 ≤ i ∧ i < (m.getIndexRange bisectRight p).2 ↔
      ∃ u s info, m.getByIndex i = some (uint64StringTupleToByteSlice u s, info) ∧
        ¬u < p ∧ u < p + 1 := by
    intro i
    rw [getIndexRange, ← not_lt, lt_bisectRight_iff hbisect, lt_bisectRight_iff hbisect]
    constructor
    · rintro ⟨hnot, u, s, info, hat, hu⟩
      exact ⟨u, s, info, hat, fun hlt => hnot ⟨u, s, info, hat, hlt⟩, hu⟩
    · rintro ⟨u, s, info, hat, hnot, hu⟩
      refine ⟨?_, u, s, info, hat, hu⟩
      rintro ⟨u', s', info', hat', hlt⟩
      exact hnot (parent_unique hat hat' ▸ hlt)
  constructor
  · intro h
    by_contra hnot
    rw [not_or, not_forall] at hnot
    obtain ⟨hlast, i, hhas⟩ := hnot
    -- no number is below `p + 1`, which has wrapped
    obtain ⟨u, s, info, -, -, hu⟩ := (hmem i).mp ((h.positions i).mpr (not_not.mp hhas))
    rw [UInt64.lt_iff_toNat_lt, UInt64.toNat_add] at hu
    have := p.toNat_lt
    simp only [UInt64.toNat_one] at hu
    omega
  · intro h
    refine ⟨fun i => (hmem i).trans ?_, fun i j s s' info info' hij hi hj => ordered hij hi hj⟩
    rcases h with hlast | hnone
    · have hsucc : (p + 1).toNat = p.toNat + 1 := by
        rw [UInt64.toNat_add, UInt64.toNat_one, Nat.mod_eq_of_lt hlast]
      constructor
      · rintro ⟨u, s, info, hat, hnot, hlt⟩
        obtain rfl : u = p := by
          rw [UInt64.lt_iff_toNat_lt] at hnot hlt
          exact UInt64.toNat_inj.mp (by omega)
        exact ⟨s, info, hat⟩
      · rintro ⟨s, info, hat⟩
        refine ⟨p, s, info, hat, UInt64.lt_irrefl p, ?_⟩
        rw [UInt64.lt_iff_toNat_lt, hsucc]
        exact Nat.lt_succ_self _
    · refine iff_of_false ?_ (hnone i)
      rintro ⟨u, s, info, hat, hnot, hlt⟩
      refine hnone i ⟨s, info, ?_⟩
      obtain rfl : u = p := by
        rw [UInt64.lt_iff_toNat_lt] at hnot hlt
        rw [UInt64.toNat_add, UInt64.toNat_one] at hlt
        have := Nat.mod_le (p.toNat + 1) (2 ^ 64)
        exact UInt64.toNat_inj.mp (by omega)
      exact hat

end DirEntryTree

/-- The range of a directory is right where its number has a successor. -/
theorem ShardedDirEntryMap.rangeOf_iff (hbisect : BisectsRight bisectRight) {m : ShardedDirEntryMap}
    {p : UInt64} : m.RangeOf p (m.getIndexRange bisectRight p) ↔
      p.toNat + 1 < 2 ^ 64 ∨ ∀ k i, ¬(m.shards k).Has p i := by
  have hplaced : ∀ k i, (m.shards k).Has p i → k = shardFor p := by
    intro k i h
    apply Fin.ext
    rw [← m.placed k p i h]
    exact (UInt64.toNat_mod p 64).symm
  have hall : (∀ i, ¬(m.shards (shardFor p)).Has p i) ↔ ∀ k i, ¬(m.shards k).Has p i :=
    ⟨fun h k i hk => h i (hplaced k i hk ▸ hk), fun h => h _⟩
  rw [← hall, ← DirEntryTree.rangeOf_iff hbisect]
  exact ⟨fun h => h.shard, fun h => ⟨h, hplaced⟩⟩

/-- Time keys and name keys are read back, and compared as the tuples are. -/
structure KeysAgree (t t' : GoTime) (u u' q q' : UInt64) (s s' : List UInt8) : Prop where
  timeBack : byteSliceToTimeTimeUint64Tuple (timeTimeUint64TupleToByteSlice t u) = some (t, u)
  timeOrder : timeTimeUint64TupleToByteSlice t u < timeTimeUint64TupleToByteSlice t' u' ↔
    t.sinceEpoch < t'.sinceEpoch ∨ t = t' ∧ u < u'
  timeEqual : timeTimeUint64TupleToByteSlice t u = timeTimeUint64TupleToByteSlice t' u' ↔
    t = t' ∧ u = u'
  nameBack : byteSliceToUint64StringTuple (uint64StringTupleToByteSlice q s) = some (q, s)
  nameOrder : uint64StringTupleToByteSlice q s < uint64StringTupleToByteSlice q' s' ↔
    q < q' ∨ q = q' ∧ s < s'
  nameEqual : uint64StringTupleToByteSlice q s = uint64StringTupleToByteSlice q' s' ↔ q = q' ∧
    s = s'

/-- The keys agree at every time but the epoch. -/
theorem keysAgree_iff {t t' : GoTime} (h : 0 ≤ t.sinceEpoch) (hlt : t.sinceEpoch < 2 ^ 63)
    (h' : 0 ≤ t'.sinceEpoch) (hlt' : t'.sinceEpoch < 2 ^ 63) (u u' q q' : UInt64)
    (s s' : List UInt8) : KeysAgree t t' u u' q q' s s' ↔ t ≠ GoTime.epoch := by
  have hkept := GoTime.kept_eq_iff (.inr ⟨le_trans (by decide) h, hlt⟩)
  have hback : byteSliceToTimeTimeUint64Tuple (timeTimeUint64TupleToByteSlice t u) = some (t, u) ↔
      t.kept = t := by
    rw [byteSliceToTimeTimeUint64Tuple_key, Option.some.injEq, Prod.mk.injEq]
    exact and_iff_left rfl
  rw [← hkept, ← hback]
  refine ⟨fun hagree => hagree.timeBack, fun hread => ⟨hread,
    timeTimeUint64TupleToByteSlice_lt_iff h hlt h' hlt', ?_, byteSliceToUint64StringTuple_key q s,
    uint64StringTupleToByteSlice_lt_iff, ?_⟩⟩
  · rw [timeTimeUint64TupleToByteSlice, timeTimeUint64TupleToByteSlice,
      append_inj_iff (by simp), uint64Bytes_inj, uint64Bytes_inj,
      timeNumber_inj h hlt h' hlt']
  · rw [uint64StringTupleToByteSlice, uint64StringTupleToByteSlice,
      append_inj_iff (by simp), uint64Bytes_inj]

/-- **The keys of the B+Trees** are read back and compared as they should be and a directory is a
range, if and only if the time is not the first moment of 1970 and the directory is not the last one
or has no entries. -/
theorem tree_keys_iff (hbisect : BisectsRight bisectRight) {t t' : GoTime} (h : 0 ≤ t.sinceEpoch)
    (hlt : t.sinceEpoch < 2 ^ 63) (h' : 0 ≤ t'.sinceEpoch) (hlt' : t'.sinceEpoch < 2 ^ 63)
    (u u' q q' : UInt64) (s s' : List UInt8) (tree : DirEntryTree) (m : ShardedDirEntryMap)
    (p : UInt64) :
    (KeysAgree t t' u u' q q' s s' ∧ tree.RangeOf p (tree.getIndexRange bisectRight p) ∧
      m.RangeOf p (m.getIndexRange bisectRight p)) ↔
    t ≠ GoTime.epoch ∧ (p.toNat + 1 < 2 ^ 64 ∨ ∀ i, ¬tree.Has p i) ∧
      (p.toNat + 1 < 2 ^ 64 ∨ ∀ k i, ¬(m.shards k).Has p i) :=
  and_congr (keysAgree_iff h hlt h' hlt' u u' q q' s s')
    (and_congr (DirEntryTree.rangeOf_iff hbisect) (ShardedDirEntryMap.rangeOf_iff hbisect))

/-- The position of the first key from `key` on. -/
theorem bisectsRight_rank : BisectsRight SortedMap.rank := by
  refine fun m key => ⟨List.countP_le_length, fun i e he => ?_⟩
  have hat := SortedMap.rank_of_getByIndex (k := e.1) (v := e.2) he
  have hget := SortedMap.get_of_getByIndex (k := e.1) (v := e.2) he
  constructor
  · intro hi
    by_contra hle
    have := SortedMap.rank_le (m := m) (not_lt.mp hle)
    omega
  · intro hlt
    have := SortedMap.rank_lt hget hlt
    omega

/-- The directory `p` with the entry `x`. -/
def oneEntry (p : UInt64) : DirEntryTree :=
  (DirEntryTree.empty.putByKeyNoFlush p [120] { inodeNumber := 7 }).1

/-- The directory 5 with the entries `x` and `y`, and the directory 6 with the entry `z`. -/
def threeEntries : DirEntryTree :=
  let m := (oneEntry 5).putByKeyNoFlush 6 [122] { inodeNumber := 8 }
  (m.1.putByKeyNoFlush 5 [121] { inodeNumber := 9 }).1

/-- The same entries in two shards. -/
def threeShardEntries : ShardedDirEntryMap :=
  let m := ShardedDirEntryMap.empty.putByKeyNoFlush 5 [120] { inodeNumber := 7 }
  let m := m.1.putByKeyNoFlush 6 [122] { inodeNumber := 8 }
  (m.1.putByKeyNoFlush 5 [121] { inodeNumber := 9 }).1

/-- Two times after 1970, and two directories. -/
theorem tree_keys_five :
    KeysAgree ⟨1000000000⟩ ⟨2000000000⟩ 5 6 5 6 [120] [] ∧
      threeEntries.RangeOf 5 (threeEntries.getIndexRange SortedMap.rank 5) ∧
      threeShardEntries.RangeOf 5 (threeShardEntries.getIndexRange SortedMap.rank 5) :=
  have h : (0 : ℤ) ≤ GoTime.sinceEpoch ⟨1000000000⟩ ∧ GoTime.sinceEpoch ⟨1000000000⟩ < 2 ^ 63 := by
    decide
  have h' : (0 : ℤ) ≤ GoTime.sinceEpoch ⟨2000000000⟩ ∧ GoTime.sinceEpoch ⟨2000000000⟩ < 2 ^ 63 := by
    decide
  (tree_keys_iff bisectsRight_rank h.1 h.2 h'.1 h'.2 5 6 5 6 [120] [] threeEntries
    threeShardEntries 5).mpr ⟨by decide, .inl (by decide), .inl (by decide)⟩

/-- The range of the last directory is empty although it has an entry, and the first moment of 1970
is not read back. -/
theorem last_directory_lost :
    ¬(oneEntry 18446744073709551615).RangeOf 18446744073709551615
      ((oneEntry 18446744073709551615).getIndexRange SortedMap.rank 18446744073709551615) ∧
    byteSliceToTimeTimeUint64Tuple (timeTimeUint64TupleToByteSlice GoTime.epoch 5) ≠
      some (GoTime.epoch, 5) := by
  refine ⟨fun h => ?_, by decide⟩
  have hhas : (oneEntry 18446744073709551615).Has 18446744073709551615 0 :=
    ⟨[120], { inodeNumber := 7 }, rfl⟩
  have hrange := (h.positions 0).mpr hhas
  exact absurd hrange.2 (by decide)

end MultiStorageFileSystem
