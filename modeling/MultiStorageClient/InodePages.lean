/-
MultiStorageClient/InodePages.lean

Inodes as the pages of the B+Tree keep them: `PackValue` and `UnpackValue` of
`bptree.go`.

The fields are written one after the other at an offset that moves on, and read
in the same order with a check before each of them.  Each field has one lemma
for its writer and one for its reader, and both directions are put together by
the rules of `ByteCodec`.

A time is kept as its nanoseconds since 1970, and the zero time as 0; so the
first moment of 1970 comes back as the zero time.  Everything else comes back
(`unpackValue_packValue_iff`).
-/
import MultiStorageClient.ByteCodec
import MultiStorageClient.SortedMap

namespace MultiStorageFileSystem

open ByteCodec

instance uint64LinearOrder : LinearOrder UInt64 where
  le_refl := UInt64.le_refl
  le_trans _ _ _ := UInt64.le_trans
  le_antisymm _ _ := UInt64.le_antisymm
  le_total := UInt64.le_total
  lt_iff_le_not_ge a b := by
    rw [UInt64.not_le]
    exact ⟨fun h => ⟨UInt64.le_of_lt h, h⟩, fun h => h.2⟩
  toDecidableLE := inferInstance

/-- `time.Time`: the moment, in nanoseconds since 1970. -/
structure GoTime where
  sinceEpoch : ℤ
  deriving DecidableEq

namespace GoTime

/-- `time.Time{}`, the first moment of the year 1. -/
def zero : GoTime := ⟨-62135596800000000000⟩

/-- The first moment of 1970. -/
def epoch : GoTime := ⟨0⟩

/-- `IsZero` -/
def isZero (t : GoTime) : Bool := t = zero

/-- `UnixNano` -/
def unixNano (t : GoTime) : Int64 := .ofInt t.sinceEpoch

/-- `time.Unix(0, nsec)` -/
def unix (nsec : Int64) : GoTime := ⟨nsec.toInt⟩

/-- The times with a `UnixNano`; for others it is not defined. -/
def HasUnixNano (t : GoTime) : Prop := -2 ^ 63 ≤ t.sinceEpoch ∧ t.sinceEpoch < 2 ^ 63

instance (t : GoTime) : Decidable t.HasUnixNano := inferInstanceAs (Decidable (_ ∧ _))

/-- What becomes of a time that is packed and unpacked. -/
def kept (t : GoTime) : GoTime :=
  let u := if t.isZero then 0 else t.unixNano.toUInt64
  if u = 0 then zero else unix u.toInt64

/-- **A time is kept** unless it is the first moment of 1970. -/
theorem kept_eq_iff {t : GoTime} (h : t = zero ∨ t.HasUnixNano) : t.kept = t ↔ t ≠ epoch := by
  rcases h with rfl | ⟨hlo, hhi⟩
  · decide
  · have hzero : t.isZero = false := by
      refine decide_eq_false fun heq => ?_
      rw [heq] at hlo
      exact absurd hlo (by decide)
    have hback : unix t.unixNano.toUInt64.toInt64 = t := by
      rw [Int64.toInt64_toUInt64, unix, unixNano, Int64.toInt_ofInt_of_le hlo hhi]
    have hnano : t.unixNano.toUInt64 = 0 ↔ t = epoch := by
      constructor
      · intro h0
        rw [h0] at hback
        exact hback.symm
      · rintro rfl
        rfl
    unfold kept
    simp only [hzero, Bool.false_eq_true, if_false]
    by_cases h0 : t.unixNano.toUInt64 = 0
    · rw [if_pos h0, hnano.mp h0]
      decide
    · rw [if_neg h0, hback]
      exact iff_of_true rfl fun heq => h0 (hnano.mpr heq)

end GoTime

/-- `inodeStruct`; a string is its bytes. -/
@[ext] structure InodeStruct where
  inodeNumber : UInt64
  inodeType : UInt32
  backendNonce : UInt64
  parentInodeNumber : UInt64
  isVirt : Bool
  objectPath : List UInt8
  basename : List UInt8
  sizeInBackend : UInt64
  sizeInMemory : UInt64
  eTag : List UInt8
  mode : UInt32
  mTime : GoTime
  xTime : GoTime
  isPrefetchInProgress : Bool
  cacheMap : SortedMap UInt64 UInt64
  inboundCacheLineCount : UInt64
  outboundCacheLineCount : UInt64
  dirtyCacheLineCount : UInt64
  fhSet : SortedMap UInt64 Unit
  pendingDelete : Bool

/-- How `PackValue` and `UnpackValue` fail. -/
inductive PackError
  /-- `err` -/
  | error (text : String)
  /-- a slice or an index out of range -/
  | panic
  deriving DecidableEq

/-! ### PackValue -/

namespace PackValue

/-- Bytes are put, or copied, into `packedValue[packedValuePos:]`. -/
def put (bs : List UInt8) : ByteWriter PackError Unit := fun (packedValue, packedValuePos) =>
  if packedValuePos + bs.length ≤ packedValue.length then
    .ok ((), packedValue.take packedValuePos ++ bs ++
      packedValue.drop (packedValuePos + bs.length), packedValuePos + bs.length)
  else .error .panic

/-- An `uint64` is appended. -/
def putUint64 (v : UInt64) : ByteWriter PackError Unit := put (bigEndian 8 v.toNat)

/-- An `uint32` is appended. -/
def putUint32 (v : UInt32) : ByteWriter PackError Unit := put (bigEndian 4 v.toNat)

/-- A `bool` is appended. -/
def putBool (b : Bool) : ByteWriter PackError Unit := put [if b then 1 else 0]

/-- The length, and the bytes. -/
def putString (s : List UInt8) : ByteWriter PackError Unit := do
  putUint64 (.ofNat s.length)
  put s

/-- A time is appended, the zero time as 0. -/
def putTime (t : GoTime) : ByteWriter PackError Unit :=
  if t.isZero then putUint64 0 else putUint64 t.unixNano.toUInt64

end PackValue

open PackValue in
/-- The fields, in order; `cacheMap` and `fhSet` are the orders in which `range`
goes through the maps. -/
def packFields (inode : InodeStruct) (cacheMap : List (UInt64 × UInt64)) (fhSet : List UInt64) :
    ByteWriter PackError Unit := do
  putUint64 inode.inodeNumber
  putUint32 inode.inodeType
  putUint64 inode.backendNonce
  putUint64 inode.parentInodeNumber
  putBool inode.isVirt
  putString inode.objectPath
  putString inode.basename
  putUint64 inode.sizeInBackend
  putUint64 inode.sizeInMemory
  putString inode.eTag
  putUint32 inode.mode
  putTime inode.mTime
  putTime inode.xTime
  putBool inode.isPrefetchInProgress
  putUint64 (.ofNat cacheMap.length)
  cacheMap.forM fun e => do
    putUint64 e.1
    putUint64 e.2
  putUint64 inode.inboundCacheLineCount
  putUint64 inode.outboundCacheLineCount
  putUint64 inode.dirtyCacheLineCount
  putUint64 (.ofNat fhSet.length)
  fhSet.forM putUint64
  putBool inode.pendingDelete

/-- `packedValueLen` -/
def packedValueLen (inode : InodeStruct) : ℕ :=
  8 + 4 + 8 + 8 + 1 + (8 + inode.objectPath.length) + (8 + inode.basename.length) + 8 + 8 +
    (8 + inode.eTag.length) + 4 + 8 + 8 + 1 + (8 + inode.cacheMap.entries.length * (8 + 8)) + 8 +
    8 + 8 + (8 + inode.fhSet.entries.length * 8) + 1

/-- `PackValue` -/
def packValue (inode : InodeStruct) (cacheMap : List (UInt64 × UInt64)) (fhSet : List UInt64) :
    Except PackError (List UInt8) :=
  if 2 ^ 63 ≤ packedValueLen inode then .error .panic
  else do
    let (_, packedValue, packedValuePos) ←
      (packFields inode cacheMap fhSet).run (List.replicate (packedValueLen inode) 0, 0)
    if packedValueLen inode ≠ packedValuePos then
      .error (.error ("packedValueLen(" ++ toString (packedValueLen inode) ++
        ") != packedValuePos(" ++ toString packedValuePos ++ ")"))
    else .ok packedValue

/-! ### UnpackValue -/

namespace UnpackValue

/-- The check before a field: `n` more bytes. -/
def need (n : ℕ) (field : String) : Reader PackError Unit := fun payloadData bytesConsumed =>
  if payloadData.length < (bytesConsumed + n) % 2 ^ 64 then
    .error (.error ("len(payloadData) [" ++ toString payloadData.length ++
      "] insufficient to decode ." ++ field))
  else .ok ((), bytesConsumed)

/-- `payloadData[bytesConsumed:bytesConsumed+n]` -/
def slice (n : ℕ) : Reader PackError (List UInt8) := fun payloadData bytesConsumed =>
  let limit := (bytesConsumed + n) % 2 ^ 64
  if bytesConsumed ≤ limit ∧ limit ≤ payloadData.length then
    .ok ((payloadData.drop bytesConsumed).take (limit - bytesConsumed), limit)
  else .error .panic

/-- The next eight bytes. -/
def sliceUint64 : Reader PackError UInt64 := (fun bs => .ofNat (ofBigEndian bs)) <$> slice 8

/-- An `uint64` is read. -/
def getUint64 (field : String) : Reader PackError UInt64 := do
  need 8 field
  sliceUint64

/-- An `uint32` is read. -/
def getUint32 (field : String) : Reader PackError UInt32 := do
  need 4 field
  (fun bs => .ofNat (ofBigEndian bs)) <$> slice 4

/-- A `bool` is read. -/
def getBool (field : String) : Reader PackError Bool := do
  need 1 field
  (fun bs => bs = [1]) <$> slice 1

/-- A length and as many bytes are read. -/
def getString (field : String) : Reader PackError (List UInt8) := do
  let len ← getUint64 (field ++ " [case 1]")
  need len.toNat (field ++ " [case 2]")
  slice len.toNat

/-- A time is read, 0 as the zero time. -/
def getTime (field : String) : Reader PackError GoTime :=
  (fun u => if u = 0 then GoTime.zero else .unix u.toInt64) <$> getUint64 field

/-- A turn of the loop over `cacheMap`. -/
def cacheMapElement (m : SortedMap UInt64 UInt64) : Reader PackError (SortedMap UInt64 UInt64) := do
  let key ← sliceUint64
  let value ← sliceUint64
  pure (m.insert key value)

/-- A turn of the loop over `fhSet`. -/
def fhSetElement (m : SortedMap UInt64 Unit) : Reader PackError (SortedMap UInt64 Unit) := do
  let key ← sliceUint64
  pure (m.insert key ())

/-- The `cacheMap` is read. -/
def getCacheMap : Reader PackError (SortedMap UInt64 UInt64) := do
  let cacheMapLen ← getUint64 "cacheMap [case 1]"
  need (cacheMapLen.toNat * (8 + 8)) "cacheMap [case 2]"
  turns cacheMapElement cacheMapLen.toNat .empty

/-- The `fhSet` is read. -/
def getFhSet : Reader PackError (SortedMap UInt64 Unit) := do
  let fhSetLen ← getUint64 "fhSet [case 1]"
  need (fhSetLen.toNat * 8) "fhSet [case 2]"
  turns fhSetElement fhSetLen.toNat .empty

end UnpackValue

open UnpackValue in
/-- The fields, in order. -/
def unpackFields : Reader PackError InodeStruct := do
  let inodeNumber ← getUint64 "inodeNumber"
  let inodeType ← getUint32 "inodeType"
  let backendNonce ← getUint64 "backendNonce"
  let parentInodeNumber ← getUint64 "parentInodeNumber"
  let isVirt ← getBool "isVirt"
  let objectPath ← getString "objectPath"
  let basename ← getString "basename"
  let sizeInBackend ← getUint64 "sizeInBackend"
  let sizeInMemory ← getUint64 "sizeInMemory"
  let eTag ← getString "eTag"
  let mode ← getUint32 "mode"
  let mTime ← getTime "mTime"
  let xTime ← getTime "xTime"
  let isPrefetchInProgress ← getBool "isPrefetchInProgress"
  let cacheMap ← getCacheMap
  let inboundCacheLineCount ← getUint64 "inboundCacheLineCount"
  let outboundCacheLineCount ← getUint64 "outboundCacheLineCount"
  let dirtyCacheLineCount ← getUint64 "dirtyCacheLineCount"
  let fhSet ← getFhSet
  let pendingDelete ← getBool "pendingDelete"
  pure { inodeNumber, inodeType, backendNonce, parentInodeNumber, isVirt, objectPath, basename,
         sizeInBackend, sizeInMemory, eTag, mode, mTime, xTime, isPrefetchInProgress, cacheMap,
         inboundCacheLineCount, outboundCacheLineCount, dirtyCacheLineCount, fhSet, pendingDelete }

/-- `UnpackValue`: the inode and `bytesConsumed`. -/
def unpackValue (payloadData : List UInt8) : Except PackError (InodeStruct × ℕ) :=
  (unpackFields.run payloadData).run 0

/-! ### The bytes of the fields -/

/-- The bytes of an `uint64`. -/
def uint64Bytes (v : UInt64) : List UInt8 := bigEndian 8 v.toNat

/-- The bytes of an `uint32`. -/
def uint32Bytes (v : UInt32) : List UInt8 := bigEndian 4 v.toNat

/-- The byte of a `bool`. -/
def boolBytes (b : Bool) : List UInt8 := [if b then 1 else 0]

/-- The length of a string and its bytes. -/
def stringBytes (s : List UInt8) : List UInt8 := uint64Bytes (.ofNat s.length) ++ s

/-- The bytes of a time. -/
def timeBytes (t : GoTime) : List UInt8 := uint64Bytes (if t.isZero then 0 else t.unixNano.toUInt64)

/-- The length of a `cacheMap` and its pairs. -/
def cacheMapBytes (cacheMap : List (UInt64 × UInt64)) : List UInt8 :=
  uint64Bytes (.ofNat cacheMap.length) ++ cacheMap.flatMap fun e => uint64Bytes e.1 ++
    uint64Bytes e.2

/-- The length of an `fhSet` and its elements. -/
def fhSetBytes (fhSet : List UInt64) : List UInt8 :=
  uint64Bytes (.ofNat fhSet.length) ++ fhSet.flatMap uint64Bytes

/-- The bytes of an inode. -/
def inodeBytes (inode : InodeStruct) (cacheMap : List (UInt64 × UInt64)) (fhSet : List UInt64) :
    List UInt8 :=
  uint64Bytes inode.inodeNumber ++ (uint32Bytes inode.inodeType ++
  (uint64Bytes inode.backendNonce ++ (uint64Bytes inode.parentInodeNumber ++
  (boolBytes inode.isVirt ++ (stringBytes inode.objectPath ++ (stringBytes inode.basename ++
  (uint64Bytes inode.sizeInBackend ++ (uint64Bytes inode.sizeInMemory ++
  (stringBytes inode.eTag ++ (uint32Bytes inode.mode ++ (timeBytes inode.mTime ++
  (timeBytes inode.xTime ++ (boolBytes inode.isPrefetchInProgress ++ (cacheMapBytes cacheMap ++
  (uint64Bytes inode.inboundCacheLineCount ++ (uint64Bytes inode.outboundCacheLineCount ++
  (uint64Bytes inode.dirtyCacheLineCount ++ (fhSetBytes fhSet ++
  boolBytes inode.pendingDelete))))))))))))))))))

@[simp] theorem length_uint64Bytes (v : UInt64) : (uint64Bytes v).length = 8 := length_bigEndian 8 _

@[simp] theorem length_uint32Bytes (v : UInt32) : (uint32Bytes v).length = 4 := length_bigEndian 4 _

@[simp] theorem length_boolBytes (b : Bool) : (boolBytes b).length = 1 := rfl

@[simp] theorem length_stringBytes (s : List UInt8) : (stringBytes s).length = 8 + s.length := by
  rw [stringBytes, List.length_append, length_uint64Bytes]

@[simp] theorem length_timeBytes (t : GoTime) : (timeBytes t).length = 8 := length_uint64Bytes _

/-- Elements of the same length. -/
theorem length_flatMap_const {γ : Type} {bytes : γ → List UInt8} {n : ℕ}
    (h : ∀ x, (bytes x).length = n) (xs : List γ) : (xs.flatMap bytes).length = xs.length * n := by
  induction xs with
  | nil => exact (Nat.zero_mul n).symm
  | cons x xs ih =>
      rw [List.flatMap_cons, List.length_append, ih, h x, List.length_cons, Nat.succ_mul,
        Nat.add_comm]

@[simp] theorem length_cacheMapBytes (cacheMap : List (UInt64 × UInt64)) :
    (cacheMapBytes cacheMap).length = 8 + cacheMap.length * (8 + 8) := by
  rw [cacheMapBytes, List.length_append, length_uint64Bytes, length_flatMap_const (n := 8 + 8)]
  intro e
  rw [List.length_append, length_uint64Bytes, length_uint64Bytes]

@[simp] theorem length_fhSetBytes (fhSet : List UInt64) :
    (fhSetBytes fhSet).length = 8 + fhSet.length * 8 := by
  rw [fhSetBytes, List.length_append, length_uint64Bytes, length_flatMap_const length_uint64Bytes]

variable {inode : InodeStruct} {cacheMap : List (UInt64 × UInt64)} {fhSet : List UInt64}

/-- `packedValueLen` is the length of the bytes. -/
theorem length_inodeBytes (hcacheMap : cacheMap.Perm inode.cacheMap.entries)
    (hfhSet : (fhSet.map fun k => (k, ())).Perm inode.fhSet.entries) :
    (inodeBytes inode cacheMap fhSet).length = packedValueLen inode := by
  have h₁ := hcacheMap.length_eq
  have h₂ := hfhSet.length_eq
  rw [List.length_map] at h₂
  simp only [inodeBytes, List.length_append, length_uint64Bytes, length_uint32Bytes,
    length_boolBytes, length_stringBytes, length_timeBytes, length_cacheMapBytes, length_fhSetBytes,
    packedValueLen, h₁, h₂, Nat.add_assoc]

/-! ### What `PackValue` writes -/

namespace PackValue

/-- `put` writes its bytes. -/
theorem writes_put (bs : List UInt8) : Writes (put bs) bs := by
  intro done n
  have hroom : done.length + bs.length ≤ (done ++ List.replicate (bs.length + n) 0).length := by
    rw [List.length_append, List.length_replicate]
    omega
  show put bs (_, _) = _
  unfold put
  dsimp only
  rw [if_pos hroom, List.take_left, List.drop_append, List.drop_eq_nil_of_le (Nat.le_add_right _ _),
    Nat.add_sub_cancel_left, List.drop_replicate, Nat.add_sub_cancel_left, List.nil_append]

theorem writes_putUint64 (v : UInt64) : Writes (putUint64 v) (uint64Bytes v) := writes_put _

theorem writes_putUint32 (v : UInt32) : Writes (putUint32 v) (uint32Bytes v) := writes_put _

theorem writes_putBool (b : Bool) : Writes (putBool b) (boolBytes b) := writes_put _

theorem writes_putString (s : List UInt8) : Writes (putString s) (stringBytes s) :=
  (writes_putUint64 _).seq (writes_put s)

theorem writes_putTime (t : GoTime) : Writes (putTime t) (timeBytes t) := by
  unfold putTime timeBytes
  split <;> exact writes_putUint64 _

theorem writes_cacheMapElement (e : UInt64 × UInt64) : Writes (do
      putUint64 e.1
      putUint64 e.2) (uint64Bytes e.1 ++ uint64Bytes e.2) :=
  (writes_putUint64 e.1).seq (writes_putUint64 e.2)

end PackValue

open PackValue in
/-- The fields are written one behind the other. -/
theorem writes_packFields (inode : InodeStruct) (cacheMap : List (UInt64 × UInt64))
    (fhSet : List UInt64) :
    Writes (packFields inode cacheMap fhSet) (inodeBytes inode cacheMap fhSet) := by
  unfold packFields inodeBytes cacheMapBytes fhSetBytes
  simp only [List.append_assoc]
  refine (writes_putUint64 _).seq ?_
  refine (writes_putUint32 _).seq ?_
  refine (writes_putUint64 _).seq ?_
  refine (writes_putUint64 _).seq ?_
  refine (writes_putBool _).seq ?_
  refine (writes_putString _).seq ?_
  refine (writes_putString _).seq ?_
  refine (writes_putUint64 _).seq ?_
  refine (writes_putUint64 _).seq ?_
  refine (writes_putString _).seq ?_
  refine (writes_putUint32 _).seq ?_
  refine (writes_putTime _).seq ?_
  refine (writes_putTime _).seq ?_
  refine (writes_putBool _).seq ?_
  refine (writes_putUint64 _).seq ?_
  refine (Writes.forM writes_cacheMapElement _).seq ?_
  refine (writes_putUint64 _).seq ?_
  refine (writes_putUint64 _).seq ?_
  refine (writes_putUint64 _).seq ?_
  refine (writes_putUint64 _).seq ?_
  refine (Writes.forM writes_putUint64 _).seq ?_
  exact writes_putBool _

/-- **`PackValue`** does not fail. -/
theorem packValue_eq (hcacheMap : cacheMap.Perm inode.cacheMap.entries)
    (hfhSet : (fhSet.map fun k => (k, ())).Perm inode.fhSet.entries)
    (hlen : packedValueLen inode < 2 ^ 63) :
    packValue inode cacheMap fhSet = .ok (inodeBytes inode cacheMap fhSet) := by
  have hwrites := (writes_packFields inode cacheMap fhSet).run_zeros
  rw [length_inodeBytes hcacheMap hfhSet] at hwrites
  unfold packValue
  rw [if_neg (Nat.not_le.mpr hlen), hwrites]
  show (if packedValueLen inode ≠ packedValueLen inode then _ else _) = _
  rw [if_neg (not_not.mpr rfl)]

/-! ### What `UnpackValue` reads -/

namespace UnpackValue

/-- The reader goes over the bytes in every payload that Go can have. -/
abbrev Unpacks {α : Type} (r : Reader PackError α) (bs : List UInt8) (a : α) : Prop :=
  Reads (2 ^ 63) r bs a

/-- A reader behind `need` reads what is there. -/
theorem reads_need {α : Type} {r : Reader PackError α} {bs : List UInt8} {a : α} {n : ℕ}
    (field : String) (hr : Unpacks r bs a) (hn : bs.length = n) :
    Unpacks (need n field >>= fun _ => r) bs a := by
  intro before rest hlen
  have hlen' := hlen
  rw [List.length_append, List.length_append] at hlen'
  have hneed : need n field (before ++ bs ++ rest) before.length = .ok ((), before.length) := by
    unfold need
    rw [if_neg]
    rw [List.length_append, List.length_append, Nat.mod_eq_of_lt (by omega)]
    omega
  rw [ReaderT.run_bind, StateT.run_bind]
  rw [show (ReaderT.run (need n field) (before ++ bs ++ rest)).run before.length = _ from hneed]
  exact hr before rest hlen

/-- A slice of the right length is read whole. -/
theorem reads_slice {bs : List UInt8} {n : ℕ} (hn : bs.length = n) : Unpacks (slice n) bs bs := by
  intro before rest hlen
  subst hn
  rw [List.length_append, List.length_append] at hlen
  show slice bs.length _ _ = _
  have hlimit : (before.length + bs.length) % 2 ^ 64 = before.length + bs.length :=
    Nat.mod_eq_of_lt (by omega)
  unfold slice
  dsimp only
  rw [hlimit, if_pos (by simp), List.append_assoc, List.drop_left, Nat.add_sub_cancel_left,
    List.take_left]

theorem reads_sliceUint64 (v : UInt64) : Unpacks sliceUint64 (uint64Bytes v) v := by
  have h := (reads_slice (length_uint64Bytes v)).map fun bs => UInt64.ofNat (ofBigEndian bs)
  rwa [uint64Bytes, ofBigEndian_bigEndian v.toNat_lt, UInt64.ofNat_toNat] at h

theorem reads_getUint64 (field : String) (v : UInt64) :
    Unpacks (getUint64 field) (uint64Bytes v) v :=
  reads_need field (reads_sliceUint64 v) (length_uint64Bytes v)

theorem reads_getUint32 (field : String) (v : UInt32) :
    Unpacks (getUint32 field) (uint32Bytes v) v := by
  have h := (reads_slice (length_uint32Bytes v)).map fun bs => UInt32.ofNat (ofBigEndian bs)
  rw [uint32Bytes, ofBigEndian_bigEndian v.toNat_lt, UInt32.ofNat_toNat] at h
  exact reads_need field h (length_uint32Bytes v)

theorem reads_getBool (field : String) (b : Bool) : Unpacks (getBool field) (boolBytes b) b := by
  have h := (reads_slice (length_boolBytes b)).map fun bs => decide (bs = [1])
  rw [show decide (boolBytes b = [1]) = b by cases b <;> rfl] at h
  exact reads_need field h (length_boolBytes b)

/-- A length below that of a payload. -/
theorem toNat_ofNat {n : ℕ} (h : n < 2 ^ 63) : (UInt64.ofNat n).toNat = n :=
  UInt64.toNat_ofNat_of_lt' (by rw [UInt64.size]; omega)

theorem reads_getString (field : String) {s : List UInt8} (hs : s.length < 2 ^ 63) :
    Unpacks (getString field) (stringBytes s) s := by
  refine (reads_getUint64 _ _).bind ?_
  rw [toNat_ofNat hs]
  exact reads_need _ (reads_slice rfl) rfl

/-- The cache map is read back, in any order of the entries. -/
theorem reads_getCacheMap {m : SortedMap UInt64 UInt64} (h : cacheMap.Perm m.entries)
    (hlen : cacheMap.length < 2 ^ 63) : Unpacks getCacheMap (cacheMapBytes cacheMap) m := by
  refine (reads_getUint64 _ _).bind ?_
  rw [toNat_ofNat hlen]
  have helement : ∀ (m : SortedMap UInt64 UInt64) (e : UInt64 × UInt64), Unpacks (cacheMapElement m)
      (uint64Bytes e.1 ++ uint64Bytes e.2) (m.insert e.1 e.2) := fun m e =>
    (reads_sliceUint64 e.1).bind ((reads_sliceUint64 e.2).map fun v => m.insert e.1 v)
  have hloop := Reads.turns helement cacheMap .empty
  rw [SortedMap.foldl_insert_of_perm h] at hloop
  refine reads_need _ hloop (length_flatMap_const (fun e => ?_) cacheMap)
  rw [List.length_append, length_uint64Bytes, length_uint64Bytes]

/-- The file handles are read back, in any order. -/
theorem reads_getFhSet {m : SortedMap UInt64 Unit} (h : (fhSet.map fun k => (k, ())).Perm m.entries)
    (hlen : fhSet.length < 2 ^ 63) : Unpacks getFhSet (fhSetBytes fhSet) m := by
  refine (reads_getUint64 _ _).bind ?_
  rw [toNat_ofNat hlen]
  have helement : ∀ (m : SortedMap UInt64 Unit) (k : UInt64), Unpacks (fhSetElement m)
      (uint64Bytes k) (m.insert k ()) := fun m k =>
    (reads_sliceUint64 k).map fun k => m.insert k ()
  have hloop := Reads.turns helement fhSet .empty
  have hfold := SortedMap.foldl_insert_of_perm h
  rw [List.foldl_map] at hfold
  rw [hfold] at hloop
  exact reads_need _ hloop (length_flatMap_const length_uint64Bytes fhSet)

theorem reads_getTime (field : String) (t : GoTime) :
    Unpacks (getTime field) (timeBytes t) t.kept :=
  (reads_getUint64 field _).map fun u => if u = 0 then GoTime.zero else .unix u.toInt64

end UnpackValue

open UnpackValue in
/-- **`UnpackValue`** reads the inode back, with the times as they are kept. -/
theorem unpackValue_eq (hcacheMap : cacheMap.Perm inode.cacheMap.entries)
    (hfhSet : (fhSet.map fun k => (k, ())).Perm inode.fhSet.entries) (rest : List UInt8)
    (hlen : packedValueLen inode + rest.length < 2 ^ 63) :
    unpackValue (inodeBytes inode cacheMap fhSet ++ rest) =
      .ok ({ inode with mTime := inode.mTime.kept, xTime := inode.xTime.kept },
        packedValueLen inode) := by
  have hlengths := length_inodeBytes hcacheMap hfhSet
  have hcacheMapLen := hcacheMap.length_eq
  have hfhSetLen := hfhSet.length_eq
  rw [List.length_map] at hfhSetLen
  have hlen' := hlen
  unfold packedValueLen at hlen'
  -- field by field, in the order of `packFields`
  have hreads : Unpacks unpackFields (inodeBytes inode cacheMap fhSet)
      { inode with mTime := inode.mTime.kept, xTime := inode.xTime.kept } := by
    unfold unpackFields inodeBytes
    refine (reads_getUint64 _ _).bind ?_
    refine (reads_getUint32 _ _).bind ?_
    refine (reads_getUint64 _ _).bind ?_
    refine (reads_getUint64 _ _).bind ?_
    refine (reads_getBool _ _).bind ?_
    refine (reads_getString _ (by omega)).bind ?_
    refine (reads_getString _ (by omega)).bind ?_
    refine (reads_getUint64 _ _).bind ?_
    refine (reads_getUint64 _ _).bind ?_
    refine (reads_getString _ (by omega)).bind ?_
    refine (reads_getUint32 _ _).bind ?_
    refine (reads_getTime _ _).bind ?_
    refine (reads_getTime _ _).bind ?_
    refine (reads_getBool _ _).bind ?_
    refine (reads_getCacheMap hcacheMap (by omega)).bind ?_
    refine (reads_getUint64 _ _).bind ?_
    refine (reads_getUint64 _ _).bind ?_
    refine (reads_getUint64 _ _).bind ?_
    refine (reads_getFhSet hfhSet (by omega)).bind ?_
    exact (reads_getBool _ _).map _
  have h := hreads [] rest
    (by simpa only [List.nil_append, List.length_append, hlengths] using hlen)
  rw [List.nil_append, List.length_nil, Nat.zero_add, hlengths] at h
  exact h

/-- **`UnpackValue` gives back what `PackValue` has been given**, whatever is behind it and in
whatever order the maps are packed, if and only if neither time is the first moment of 1970. -/
theorem unpackValue_packValue_iff {inode : InodeStruct} {cacheMap : List (UInt64 × UInt64)}
    {fhSet : List UInt64} {rest : List UInt8} (hcacheMap : cacheMap.Perm inode.cacheMap.entries)
    (hfhSet : (fhSet.map fun k => (k, ())).Perm inode.fhSet.entries)
    (hlen : packedValueLen inode + rest.length < 2 ^ 63)
    (hmTime : inode.mTime = .zero ∨ inode.mTime.HasUnixNano)
    (hxTime : inode.xTime = .zero ∨ inode.xTime.HasUnixNano) :
    (∃ packedValue, packValue inode cacheMap fhSet = .ok packedValue ∧
      unpackValue (packedValue ++ rest) = .ok (inode, packedValue.length)) ↔
    inode.mTime ≠ .epoch ∧ inode.xTime ≠ .epoch := by
  rw [packValue_eq hcacheMap hfhSet (by omega), ← GoTime.kept_eq_iff hmTime,
    ← GoTime.kept_eq_iff hxTime]
  constructor
  · rintro ⟨packedValue, hpack, hunpack⟩
    cases hpack
    rw [unpackValue_eq hcacheMap hfhSet rest hlen] at hunpack
    have hinode := (Prod.mk.inj (Except.ok.inj hunpack)).1
    exact ⟨congrArg InodeStruct.mTime hinode, congrArg InodeStruct.xTime hinode⟩
  · rintro ⟨hm, hx⟩
    refine ⟨_, rfl, ?_⟩
    rw [unpackValue_eq hcacheMap hfhSet rest hlen, hm, hx, length_inodeBytes hcacheMap hfhSet]

/-- A file of a given time, with one cache line. -/
def fileOfTime (mTime : GoTime) : InodeStruct where
  inodeNumber := 4
  inodeType := 0
  backendNonce := 2
  parentInodeNumber := 3
  isVirt := false
  objectPath := [100, 47, 102]
  basename := [102]
  sizeInBackend := 5
  sizeInMemory := 0
  eTag := [101]
  mode := 33060
  mTime := mTime
  xTime := .zero
  isPrefetchInProgress := false
  cacheMap := SortedMap.empty.insert 0 7
  inboundCacheLineCount := 0
  outboundCacheLineCount := 0
  dirtyCacheLineCount := 0
  fhSet := .empty
  pendingDelete := false

theorem unpackValue_fileOfTime : ∃ packedValue,
    packValue (fileOfTime ⟨1⟩) [(0, 7)] [] = .ok packedValue ∧
    unpackValue (packedValue ++ [0, 1]) = .ok (fileOfTime ⟨1⟩, packedValue.length) :=
  (unpackValue_packValue_iff (.refl _) (.refl _) (by decide) (.inr (by decide)) (.inl rfl)).mpr
    ⟨by decide, by decide⟩

/-- **The first moment of 1970** comes back as the zero time. -/
theorem unpackValue_epoch : ∃ packedValue,
    packValue (fileOfTime .epoch) [(0, 7)] [] = .ok packedValue ∧
    unpackValue packedValue = .ok (fileOfTime .zero, packedValue.length) ∧
    fileOfTime .zero ≠ fileOfTime .epoch := by
  have hcacheMap : List.Perm [(0, 7)] (fileOfTime .epoch).cacheMap.entries := .refl _
  have hfhSet : (([] : List UInt64).map fun k => (k, ())).Perm (fileOfTime .epoch).fhSet.entries :=
    .refl _
  have h := unpackValue_eq hcacheMap hfhSet [] (by decide)
  refine ⟨_, packValue_eq hcacheMap hfhSet (by decide), ?_, fun heq => ?_⟩
  · rw [List.append_nil] at h
    rw [h, length_inodeBytes hcacheMap hfhSet]
    have hkept : GoTime.epoch.kept = .zero ∧ GoTime.zero.kept = .zero := by decide
    show Except.ok
      ({ fileOfTime .epoch with mTime := GoTime.epoch.kept, xTime := GoTime.zero.kept }, _) = _
    rw [hkept.1, hkept.2]
    rfl
  · exact absurd (congrArg InodeStruct.mTime heq) (by decide)

end MultiStorageFileSystem
