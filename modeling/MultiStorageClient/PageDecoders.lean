/-
MultiStorageClient/PageDecoders.lean

The page decoders of `bptree.go` on bytes of any kind.

A field has a fixed size, or a length before it that counts what comes behind.
`Takes` says what a reader does on a field: it goes over it, or the payload is too
short.  The check of a length is made in machine words.  If the sum wraps and the
wrapped sum passes the check, the slices behind it go out of range.  `UnpackKey`
does not check its length at all.  Whether this happens is read off the payload
(`Fits`, `page_decoders_iff`).

A slice of a payload may reach past its length, up to its capacity.  This matters
for `UnpackKey` alone: elsewhere a slice that is not checked belongs to a length
whose sum has wrapped, and the bytes that it counts are more than any capacity.
-/
import MultiStorageClient.TreeKeys

namespace MultiStorageFileSystem

open ByteCodec

/-! ### The decoders of the directory maps -/

/-- The `uint64` at an offset. -/
def numberAt (payloadData : List UInt8) (offset : ℕ) : ℕ :=
  ofBigEndian ((payloadData.drop offset).take 8)

/-- `UnpackKey`; `beyond` is what comes behind the payload, up to its capacity. -/
def unpackKey (payloadData beyond : List UInt8) : Except PackError (List UInt8 × ℕ) :=
  if payloadData.length < 8 then .error (.error "len(payloadData) < 8")
  else
    let keyLen := numberAt payloadData 0
    let bytesConsumed := (8 + keyLen) % 2 ^ 64
    if 8 ≤ bytesConsumed ∧ bytesConsumed ≤ (payloadData ++ beyond).length then
      .ok (((payloadData ++ beyond).take bytesConsumed).drop 8, bytesConsumed)
    else .error .panic

/-- `UnpackValue` of the directory maps -/
def DirEntryInfo.unpackValue (payloadData : List UInt8) : Except PackError (DirEntryInfo × ℕ) :=
  if payloadData.length < 32 then .error (.error "len(payloadData) < 32")
  else
    let bytes := fun i n => ofBigEndian ((payloadData.drop i).take n)
    .ok ({ inodeNumber := .ofNat (bytes 0 8)
           inodeType := .ofNat (bytes 8 4)
           size := .ofNat (bytes 12 8)
           mode := .ofNat (bytes 20 4)
           mTimeUnixNano := (UInt64.ofNat (bytes 24 8)).toInt64 }, 32)

/-! ### Fields -/

/-- A field of a page. -/
inductive PageField
  | fixed (size : ℕ)
  /-- a number, and as many elements of the size -/
  | counted (size : ℕ)

/-- No sum of a length field wraps and passes its check, as far as the fields are there. -/
def Fits (payloadData : List UInt8) : List PageField → ℕ → Prop
  | [], _ => True
  | .fixed size :: fields, offset =>
      offset + size ≤ payloadData.length → Fits payloadData fields (offset + size)
  | .counted size :: fields, offset =>
      offset + 8 ≤ payloadData.length →
        let limit := offset + 8 + numberAt payloadData offset * size
        (limit % 2 ^ 64 ≤ payloadData.length → limit ≤ payloadData.length) ∧
          (limit ≤ payloadData.length → Fits payloadData fields limit)

instance Fits.decidable (payloadData : List UInt8) :
    (fields : List PageField) → (offset : ℕ) → Decidable (Fits payloadData fields offset)
  | [], _ => .isTrue trivial
  | .fixed size :: fields, offset =>
      have := Fits.decidable payloadData fields (offset + size)
      inferInstanceAs (Decidable (_ → _))
  | .counted size :: fields, offset =>
      have := Fits.decidable payloadData fields
        (offset + 8 + numberAt payloadData offset * size)
      inferInstanceAs (Decidable (_ → _ ∧ _))

/-- What a reader does on a field. -/
def Takes {α : Type} (r : ByteCodec.Reader PackError α) (field : PageField) : Prop :=
  ∀ payloadData offset, payloadData.length < 2 ^ 63 → offset ≤ payloadData.length →
    match field with
    | .fixed size =>
        if offset + size ≤ payloadData.length then
          ∃ a, (r.run payloadData).run offset = .ok (a, offset + size)
        else ∃ text, (r.run payloadData).run offset = .error (.error text)
    | .counted size =>
        let limit := offset + 8 + numberAt payloadData offset * size
        if offset + 8 ≤ payloadData.length then
          if limit ≤ payloadData.length then ∃ a, (r.run payloadData).run offset = .ok (a, limit)
          -- the limit wraps around 64 bits, passes the check and slices out of range
          else if limit % 2 ^ 64 ≤ payloadData.length then
            (r.run payloadData).run offset = .error .panic
          else ∃ text, (r.run payloadData).run offset = .error (.error text)
        else ∃ text, (r.run payloadData).run offset = .error (.error text)

/-- A decoder fails with an error, or it has consumed bytes that were there. -/
def Decodes {α : Type} (payloadData : List UInt8) (r : Except PackError (α × ℕ)) : Prop :=
  r ≠ .error .panic ∧ ∀ value bytesConsumed, r = .ok (value, bytesConsumed) →
    bytesConsumed ≤ payloadData.length

/-- The reader decodes what has the fields. -/
def DecodesFields {α : Type} (r : ByteCodec.Reader PackError α) (fields : List PageField) : Prop :=
  ∀ payloadData offset, payloadData.length < 2 ^ 63 → offset ≤ payloadData.length →
    (Decodes payloadData ((r.run payloadData).run offset) ↔ Fits payloadData fields offset)

section Fields

variable {α β : Type} {r : ByteCodec.Reader PackError α} {f : α → ByteCodec.Reader PackError β}
  {field : PageField}
  {fields : List PageField} {payloadData : List UInt8} {offset : ℕ}

theorem decodes_error (text : String) :
    Decodes payloadData (.error (.error text) : Except PackError (α × ℕ)) := ⟨nofun, nofun⟩

theorem run_bind_ok {a : α} {offset' : ℕ} (h : (r.run payloadData).run offset = .ok (a, offset')) :
    ((r >>= f).run payloadData).run offset = ((f a).run payloadData).run offset' := by
  rw [ReaderT.run_bind, StateT.run_bind, h]
  rfl

theorem run_bind_error {e : PackError} (h : (r.run payloadData).run offset = .error e) :
    ((r >>= f).run payloadData).run offset = .error e := by
  rw [ReaderT.run_bind, StateT.run_bind, h]
  rfl

theorem DecodesFields.pure (a : α) :
    DecodesFields (Pure.pure a : ByteCodec.Reader PackError α) [] := by
  intro payloadData offset _ hoffset
  refine iff_of_true ⟨nofun, ?_⟩ trivial
  rintro _ _ ⟨⟩
  exact hoffset

/-- **A field and then the others.** -/
theorem Takes.bind (hr : Takes r field) (hf : ∀ a, DecodesFields (f a) fields) :
    DecodesFields (r >>= f) (field :: fields) := by
  intro payloadData offset hlen hoffset
  have h := hr payloadData offset hlen hoffset
  cases field with
  -- a field of fixed size is there or it is not
  | fixed size =>
      dsimp only at h
      rw [Fits]
      split at h
      next hle =>
        obtain ⟨a, ha⟩ := h
        rw [run_bind_ok ha, hf a payloadData (offset + size) hlen hle]
        exact ⟨fun h _ => h, fun h => h hle⟩
      next hlt =>
        obtain ⟨text, ht⟩ := h
        rw [run_bind_error ht]
        exact iff_of_true (decodes_error text) fun hle => absurd hle hlt
  -- a counted field: its number, then as many bytes
  | counted size =>
      dsimp only at h
      rw [Fits]
      dsimp only
      generalize offset + 8 + numberAt payloadData offset * size = limit at h ⊢
      split at h
      next hle =>
        split at h
        next hlimit =>
          obtain ⟨a, ha⟩ := h
          rw [run_bind_ok ha, hf a payloadData limit hlen hlimit]
          exact ⟨fun h _ => ⟨fun _ => hlimit, fun _ => h⟩, fun h => (h hle).2 hlimit⟩
        next hlimit =>
          split at h
          -- a count that wraps passes the check and fails behind it
          next hwraps =>
            rw [run_bind_error h]
            exact iff_of_false (fun hdec => hdec.1 rfl) fun hfits => hlimit ((hfits hle).1 hwraps)
          next hwraps =>
            obtain ⟨text, ht⟩ := h
            rw [run_bind_error ht]
            exact iff_of_true (decodes_error text) fun _ =>
              ⟨fun hle => absurd hle hwraps, fun hle => absurd hle hlimit⟩
      next hlt =>
        obtain ⟨text, ht⟩ := h
        rw [run_bind_error ht]
        exact iff_of_true (decodes_error text) fun hle => absurd hle hlt

theorem run_map_ok {a : α} {offset' : ℕ}
    (h : (r.run payloadData).run offset = .ok (a, offset')) (g : α → β) :
    ((g <$> r).run payloadData).run offset = .ok (g a, offset') := by
  rw [ReaderT.run_map, StateT.run_map, h]
  rfl

theorem run_map_error {e : PackError}
    (h : (r.run payloadData).run offset = .error e) (g : α → β) :
    ((g <$> r).run payloadData).run offset = .error e := by
  rw [ReaderT.run_map, StateT.run_map, h]
  rfl

/-- What is made of the value does not matter. -/
theorem Takes.map {size : ℕ} (h : Takes r (.fixed size))
    (g : α → β) : Takes (g <$> r) (.fixed size) := by
  intro payloadData offset hlen hoffset
  have h := h payloadData offset hlen hoffset
  dsimp only at h ⊢
  split at h
  next hle =>
    obtain ⟨a, ha⟩ := h
    rw [if_pos hle]
    exact ⟨g a, run_map_ok ha g⟩
  next hlt =>
    obtain ⟨text, ht⟩ := h
    rw [if_neg hlt]
    exact ⟨text, run_map_error ht g⟩

end Fields

/-! ### The readers of `UnpackValue` -/

namespace UnpackValue

variable {payloadData : List UInt8} {offset n : ℕ}

theorem numberAt_lt (payloadData : List UInt8) (offset : ℕ) :
    numberAt payloadData offset < 2 ^ 64 := by
  refine lt_of_lt_of_le (ofBigEndian_lt _) ?_
  refine (Nat.pow_le_pow_right (by decide) (List.length_take_le 8 _)).trans ?_
  decide

theorem run_need (field : String) (hlen : (offset + n) % 2 ^ 64 ≤ payloadData.length) :
    ((need n field).run payloadData).run offset = .ok ((), offset) := by
  show need n field payloadData offset = _
  rw [need, if_neg (Nat.not_lt.mpr hlen)]

theorem run_need_short (field : String) (hlen : payloadData.length < (offset + n) % 2 ^ 64) :
    ∃ text, ((need n field).run payloadData).run offset = .error (.error text) := by
  exact ⟨_, if_pos hlen⟩

theorem run_slice (hle : offset + n ≤ payloadData.length) (hlen : payloadData.length < 2 ^ 63) :
    ((slice n).run payloadData).run offset = .ok ((payloadData.drop offset).take n,
      offset + n) := by
  show slice n payloadData offset = _
  rw [slice, Nat.mod_eq_of_lt (by omega), if_pos ⟨Nat.le_add_right _ _, hle⟩,
    Nat.add_sub_cancel_left]

/-- A slice ends before it begins, or behind the payload. -/
theorem run_slice_panic
    (h : ¬(offset ≤ (offset + n) % 2 ^ 64 ∧ (offset + n) % 2 ^ 64 ≤ payloadData.length)) :
    ((slice n).run payloadData).run offset = .error .panic := by
  show slice n payloadData offset = _
  rw [slice, if_neg h]

theorem run_sliceUint64 (hle : offset + 8 ≤ payloadData.length)
    (hlen : payloadData.length < 2 ^ 63) :
    (sliceUint64.run payloadData).run offset =
      .ok (.ofNat (numberAt payloadData offset), offset + 8) :=
  run_map_ok (run_slice hle hlen) _

theorem run_sliceUint64_panic (hlt : payloadData.length < offset + 8)
    (hle : offset ≤ payloadData.length) (hlen : payloadData.length < 2 ^ 63) :
    (sliceUint64.run payloadData).run offset = .error .panic := by
  refine run_map_error (run_slice_panic fun h => ?_) _
  have hlt' : offset + 8 < 2 ^ 64 :=
    (Nat.add_le_add_right (hle.trans hlen.le) 8).trans_lt (by decide)
  rw [Nat.mod_eq_of_lt hlt'] at h
  exact absurd h.2 (Nat.not_le.mpr hlt)

/-- A field of a few bytes. -/
theorem takes_fixed {α : Type} (g : List UInt8 → α) (hn : n ≤ 8) (field : String) :
    Takes (do
      need n field
      g <$> slice n) (.fixed n) := by
  intro payloadData offset hlen hoffset
  dsimp only
  have hmod : (offset + n) % 2 ^ 64 = offset + n := Nat.mod_eq_of_lt (by omega)
  split
  next hle =>
    have hneed : ((need n field).run payloadData).run offset = .ok ((), offset) :=
      run_need field (by rwa [hmod])
    exact ⟨_, (run_bind_ok hneed).trans (run_map_ok (run_slice hle hlen) g)⟩
  next hlt =>
    have hshort : payloadData.length < (offset + n) % 2 ^ 64 := by rw [hmod]; omega
    obtain ⟨text, ht⟩ := run_need_short field hshort
    exact ⟨text, run_bind_error ht⟩

theorem takes_getUint64 (field : String) : Takes (getUint64 field) (.fixed 8) :=
  takes_fixed _ (by decide) field

theorem takes_getUint32 (field : String) : Takes (getUint32 field) (.fixed 4) :=
  takes_fixed _ (by decide) field

theorem takes_getBool (field : String) : Takes (getBool field) (.fixed 1) :=
  takes_fixed _ (by decide) field

theorem takes_getTime (field : String) : Takes (getTime field) (.fixed 8) :=
  (takes_getUint64 field).map _

/-- A number, and what it counts: the elements are there, or reading them goes out of range. -/
theorem takes_counted {α : Type} {r : UInt64 → ByteCodec.Reader PackError α} {size : ℕ}
    (field field' : String)
    (hok : ∀ payloadData offset (count : UInt64), payloadData.length < 2 ^ 63 →
      offset + count.toNat * size ≤ payloadData.length →
      ∃ a, ((r count).run payloadData).run offset = .ok (a, offset + count.toNat * size))
    (hpanic : ∀ payloadData offset (count : UInt64), payloadData.length < 2 ^ 63 →
      offset ≤ payloadData.length → 2 ^ 64 ≤ offset + count.toNat * size →
      ((r count).run payloadData).run offset = .error .panic) :
    Takes (do
      let count ← getUint64 field
      need (count.toNat * size) field'
      r count) (.counted size) := by
  intro payloadData offset hlen hoffset
  have hnumber := takes_getUint64 field payloadData offset hlen hoffset
  dsimp only at hnumber ⊢
  split
  -- the number is read
  next hle =>
    have hget : ((getUint64 field).run payloadData).run offset =
        .ok (.ofNat (numberAt payloadData offset), offset + 8) := by
      rw [getUint64, run_bind_ok (run_need field (by rwa [Nat.mod_eq_of_lt (by omega)]))]
      exact run_sliceUint64 hle hlen
    rw [run_bind_ok hget]
    have htoNat :
        (UInt64.ofNat (numberAt payloadData offset)).toNat = numberAt payloadData offset :=
      UInt64.toNat_ofNat_of_lt' (numberAt_lt payloadData offset)
    generalize UInt64.ofNat (numberAt payloadData offset) = count at htoNat ⊢
    rw [← htoNat]
    split
    next hlimit =>
      rw [run_bind_ok (run_need field' (by rwa [Nat.mod_eq_of_lt (by omega)]))]
      exact hok payloadData (offset + 8) count hlen hlimit
    -- too many bytes, unless the product wraps
    next hlimit =>
      split
      next hwraps =>
        rw [run_bind_ok (run_need field' hwraps)]
        refine hpanic payloadData (offset + 8) count hlen hle ?_
        by_contra hlt
        rw [Nat.mod_eq_of_lt (by omega)] at hwraps
        exact hlimit hwraps
      next hwraps =>
        obtain ⟨text, ht⟩ := run_need_short field' (Nat.not_le.mp hwraps)
        exact ⟨text, run_bind_error ht⟩
  -- there is no number to read
  next hlt =>
    rw [if_neg hlt] at hnumber
    obtain ⟨text, ht⟩ := hnumber
    exact ⟨text, run_bind_error ht⟩

/-- A string takes its count and as many bytes. -/
theorem takes_getString (field : String) : Takes (getString field) (.counted 1) := by
  have h : Takes (do
      let len ← getUint64 (field ++ " [case 1]")
      need (len.toNat * 1) (field ++ " [case 2]")
      slice len.toNat) (.counted 1) := by
    refine takes_counted _ _ (fun payloadData offset count hlen hle => ?_)
      (fun payloadData offset count hlen hoffset hwraps => ?_)
    · rw [Nat.mul_one] at hle ⊢
      exact ⟨_, run_slice hle hlen⟩
    · refine run_slice_panic fun h => ?_
      have := count.toNat_lt
      omega
  unfold getString
  simpa only [Nat.mul_one] using h

/-- A turn of a loop goes over its bytes, or out of range. -/
def Turns {α : Type} (f : α → ByteCodec.Reader PackError α) (size : ℕ) : Prop :=
  ∀ a payloadData offset, payloadData.length < 2 ^ 63 → offset ≤ payloadData.length →
    if offset + size ≤ payloadData.length then
      ∃ a', ((f a).run payloadData).run offset = .ok (a', offset + size)
    else ((f a).run payloadData).run offset = .error .panic

/-- A loop needs its turns times the size of one. -/
theorem Turns.run {α : Type} {f : α → ByteCodec.Reader PackError α} {size : ℕ} (hf : Turns f size)
    (k : ℕ) (a : α)
    (hlen : payloadData.length < 2 ^ 63) (hoffset : offset ≤ payloadData.length) :
    if offset + k * size ≤ payloadData.length then
      ∃ a', ((turns f k a).run payloadData).run offset = .ok (a', offset + k * size)
    else ((turns f k a).run payloadData).run offset = .error .panic := by
  induction k generalizing a offset with
  | zero =>
      rw [Nat.zero_mul, Nat.add_zero, if_pos hoffset]
      exact ⟨a, rfl⟩
  | succ k ih =>
      have hturn := hf a payloadData offset hlen hoffset
      rw [turns, Nat.succ_mul]
      split at hturn
      next hle =>
        obtain ⟨a', ha'⟩ := hturn
        rw [run_bind_ok ha']
        have h := ih a' hle
        rwa [show offset + (k * size + size) = offset + size + k * size by omega]
      next hlt =>
        rw [run_bind_error hturn, if_neg]
        omega

theorem turns_fhSetElement : Turns fhSetElement 8 := by
  intro m payloadData offset hlen hoffset
  split
  next hle =>
    exact ⟨_, run_bind_ok (run_sliceUint64 hle hlen)⟩
  next hlt => exact run_bind_error (run_sliceUint64_panic (Nat.not_le.mp hlt) hoffset hlen)

/-- An element of the cache map takes two words. -/
theorem turns_cacheMapElement : Turns cacheMapElement (8 + 8) := by
  intro m payloadData offset hlen hoffset
  split
  next hle =>
    have hkey : offset + 8 ≤ payloadData.length := by omega
    exact ⟨_, (run_bind_ok (run_sliceUint64 hkey hlen)).trans
      (run_bind_ok (run_sliceUint64 hle hlen))⟩
  next hlt =>
    rw [cacheMapElement]
    by_cases hkey : offset + 8 ≤ payloadData.length
    · rw [run_bind_ok (run_sliceUint64 hkey hlen)]
      exact run_bind_error (run_sliceUint64_panic (by omega) hkey hlen)
    · exact run_bind_error (run_sliceUint64_panic (Nat.not_le.mp hkey) hoffset hlen)

/-- A counted loop takes its count and as many turns. -/
theorem takes_turns {α : Type} {f : α → ByteCodec.Reader PackError α} {size : ℕ} (hf : Turns f size)
    (field field' : String) (a : α) :
    Takes (do
      let count ← getUint64 field
      need (count.toNat * size) field'
      turns f count.toNat a) (.counted size) := by
  refine takes_counted field field' (fun payloadData offset count hlen hle => ?_)
    fun payloadData offset count hlen hoffset hwraps => ?_
  · have h := hf.run count.toNat a hlen ((Nat.le_add_right _ _).trans hle)
    rwa [if_pos hle] at h
  · have h := hf.run count.toNat a hlen hoffset
    rwa [if_neg (by omega)] at h

theorem takes_getCacheMap : Takes getCacheMap (.counted (8 + 8)) :=
  takes_turns turns_cacheMapElement _ _ _

theorem takes_getFhSet : Takes getFhSet (.counted 8) := takes_turns turns_fhSetElement _ _ _

end UnpackValue

/-! ### The decoders -/

/-- The fields of an inode. -/
def inodeFields : List PageField :=
  [.fixed 8, .fixed 4, .fixed 8, .fixed 8, .fixed 1, .counted 1, .counted 1, .fixed 8, .fixed 8,
    .counted 1, .fixed 4, .fixed 8, .fixed 8, .fixed 1, .counted (8 + 8), .fixed 8, .fixed 8,
    .fixed 8, .counted 8, .fixed 1]

open UnpackValue in
/-- The inode is decoded field by field. -/
theorem decodesFields_unpackFields : DecodesFields unpackFields inodeFields := by
  unfold unpackFields inodeFields
  refine (takes_getUint64 _).bind fun _ => ?_
  refine (takes_getUint32 _).bind fun _ => ?_
  refine (takes_getUint64 _).bind fun _ => ?_
  refine (takes_getUint64 _).bind fun _ => ?_
  refine (takes_getBool _).bind fun _ => ?_
  refine (takes_getString _).bind fun _ => ?_
  refine (takes_getString _).bind fun _ => ?_
  refine (takes_getUint64 _).bind fun _ => ?_
  refine (takes_getUint64 _).bind fun _ => ?_
  refine (takes_getString _).bind fun _ => ?_
  refine (takes_getUint32 _).bind fun _ => ?_
  refine (takes_getTime _).bind fun _ => ?_
  refine (takes_getTime _).bind fun _ => ?_
  refine (takes_getBool _).bind fun _ => ?_
  refine takes_getCacheMap.bind fun _ => ?_
  refine (takes_getUint64 _).bind fun _ => ?_
  refine (takes_getUint64 _).bind fun _ => ?_
  refine (takes_getUint64 _).bind fun _ => ?_
  refine takes_getFhSet.bind fun _ => ?_
  refine (takes_getBool _).bind fun _ => ?_
  exact .pure _

variable {payloadData beyond : List UInt8}

/-- `UnpackValue` of the inode map. -/
theorem decodes_unpackValue_iff (hlen : payloadData.length < 2 ^ 63) :
    Decodes payloadData (unpackValue payloadData) ↔ Fits payloadData inodeFields 0 :=
  decodesFields_unpackFields payloadData 0 hlen (Nat.zero_le _)

/-- `UnpackKey` decodes what its length field counts, and nothing else. -/
theorem decodes_unpackKey_iff (hlen : payloadData.length < 2 ^ 63) :
    Decodes payloadData (unpackKey payloadData beyond) ↔
      payloadData.length < 8 ∨ 8 + numberAt payloadData 0 ≤ payloadData.length := by
  have hnumber := UnpackValue.numberAt_lt payloadData 0
  rw [unpackKey]
  split
  next hshort => exact iff_of_true (decodes_error _) (.inl hshort)
  next hlong =>
    generalize numberAt payloadData 0 = keyLen at hnumber ⊢
    dsimp only
    split
    next hrange =>
      -- a sum that wraps is less than eight
      have hmod : (8 + keyLen) % 2 ^ 64 = 8 + keyLen := by omega
      rw [or_iff_right hlong, hmod]
      constructor
      · exact fun h => h.2 _ _ rfl
      · refine fun hle => ⟨nofun, ?_⟩
        rintro _ _ ⟨⟩
        exact hle
    next hrange =>
      refine iff_of_false (fun h => h.1 rfl) ?_
      rintro (hshort | hle)
      · exact hlong hshort
      · rw [Nat.mod_eq_of_lt (by omega), List.length_append] at hrange
        omega

theorem DirEntryInfo.decodes_unpackValue (payloadData : List UInt8) :
    Decodes payloadData (DirEntryInfo.unpackValue payloadData) := by
  rw [DirEntryInfo.unpackValue]
  split
  · exact decodes_error _
  next hlen =>
    refine ⟨nofun, ?_⟩
    rintro _ _ ⟨⟩
    exact Nat.not_lt.mp hlen

/-- **The page decoders** fail with an error or consume bytes that are there, if and only if no
length of the inode wraps past its check and the key is not longer than the payload. -/
theorem page_decoders_iff (hlen : (payloadData ++ beyond).length < 2 ^ 63) :
    (Decodes payloadData (unpackValue payloadData) ∧
      Decodes payloadData (unpackKey payloadData beyond) ∧
      Decodes payloadData (DirEntryInfo.unpackValue payloadData)) ↔
    Fits payloadData inodeFields 0 ∧
      (payloadData.length < 8 ∨ 8 + numberAt payloadData 0 ≤ payloadData.length) := by
  rw [List.length_append] at hlen
  rw [decodes_unpackValue_iff (by omega), decodes_unpackKey_iff (by omega)]
  exact and_congr_right fun _ => and_iff_left (DirEntryInfo.decodes_unpackValue payloadData)

/-- The payload of an inode with a path, a basename, a tag and one cache line; read as a key, it is
one of four bytes. -/
def filePayload : List UInt8 := inodeBytes (fileOfTime ⟨1⟩) [(0, 7)] []

theorem page_decoders_file :
    Decodes filePayload (unpackValue filePayload) ∧
      Decodes filePayload (unpackKey filePayload [0, 1]) ∧
      Decodes filePayload (DirEntryInfo.unpackValue filePayload) :=
  have hlen : (filePayload ++ [0, 1]).length < 2 ^ 63 := by decide +kernel
  (page_decoders_iff hlen).mpr (by decide +kernel)

/-- An inode whose path is said to be `2^64 - 1` bytes long. -/
def longPath : List UInt8 := List.replicate 29 0 ++ List.replicate 8 255

theorem longPath_not_decodes :
    ¬Decodes longPath (unpackValue longPath) ∧
      ¬Decodes (List.replicate 8 255) (unpackKey (List.replicate 8 255) []) := by
  rw [decodes_unpackValue_iff (by decide), decodes_unpackKey_iff (by decide)]
  exact ⟨by decide, by decide⟩

end MultiStorageFileSystem
