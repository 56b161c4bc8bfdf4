/-
MultiStorageClient/MultipartChunkSize.lean

The size of the parts of a multipart upload: `multipart_safe_chunk_size` of the
Rust client.

A part may have 5 MiB to 5 GiB, and there may be 10000 parts.  The requested
size is raised to the smallest one with few enough parts, and then cut to 5 GiB;
the cut leaves few enough parts, since larger objects were refused before.
-/
import MultiStorageClient.CheckedArith

namespace MultiStorageClient

namespace RustClient

/-- `S3_MAX_MULTIPART_PARTS` -/
def s3MaxMultipartParts : ℕ := 10000

/-- `S3_MIN_PART_SIZE_BYTES` -/
def s3MinPartSizeBytes : ℕ := 5 * 1024 * 1024

/-- `S3_MAX_PART_SIZE_BYTES` -/
def s3MaxPartSizeBytes : ℕ := 5 * 1024 * 1024 * 1024

/-- `StorageError::ConfigError` -/
structure ConfigError where
  message : String
  deriving DecidableEq

/-- The error for an object that is too large. -/
def tooLarge (objectSize : ℕ) : ConfigError where
  message := s!"Object size {objectSize} exceeds maximum multipart size ({s3MaxMultipartParts} parts × 5GB); cannot satisfy multipart constraints"

/-- `multipart_safe_chunk_size`, with a 64-bit `usize` -/
def multipartSafeChunkSize (checks : Bool) (objectSize requestedChunkSize : UInt64) :
    Except (CallError ConfigError) ℕ := do
  let maxObjectMultipart ← U64.mul checks s3MaxMultipartParts s3MaxPartSizeBytes
  if maxObjectMultipart < objectSize.toNat then throw (.storage (tooLarge objectSize.toNat))
  else
    let sum ← U64.sub checks (← U64.add checks objectSize.toNat s3MaxMultipartParts) 1
    let requiredPartSize := sum / s3MaxMultipartParts
    return min (max (max requestedChunkSize.toNat requiredPartSize) s3MinPartSizeBytes)
      s3MaxPartSizeBytes

/-- A part size that S3 takes for an object. -/
structure PartSizeOk (objectSize partSize : ℕ) : Prop where
  min_le : s3MinPartSizeBytes ≤ partSize
  le_max : partSize ≤ s3MaxPartSizeBytes
  parts : objectSize ⌈/⌉ partSize ≤ s3MaxMultipartParts

/-- The smallest part size with few enough parts. -/
def requiredPartSize (objectSize : ℕ) : ℕ :=
  (objectSize + s3MaxMultipartParts - 1) / s3MaxMultipartParts

theorem parts_le_iff {objectSize partSize : ℕ} (h : 0 < partSize) :
    objectSize ⌈/⌉ partSize ≤ s3MaxMultipartParts ↔ requiredPartSize objectSize ≤ partSize := by
  rw [ceilDiv_le_iff_le_mul h, requiredPartSize, s3MaxMultipartParts, Nat.div_le_iff_le_mul_add_pred
    (by decide)]
  omega

theorem ok_bind {ε α β : Type} (a : α) (f : α → Except ε β) : (Except.ok a >>= f) = f a := rfl

/-- No sum overflows, with or without checks. -/
theorem multipartSafeChunkSize_eq (checks : Bool) (objectSize requestedChunkSize : UInt64) :
    multipartSafeChunkSize checks objectSize requestedChunkSize =
      if s3MaxMultipartParts * s3MaxPartSizeBytes < objectSize.toNat then
        .error (.storage (tooLarge objectSize.toNat))
      else
        .ok (min (max (max requestedChunkSize.toNat (requiredPartSize objectSize.toNat))
          s3MinPartSizeBytes)
          s3MaxPartSizeBytes) := by
  have hmul : U64.mul checks s3MaxMultipartParts s3MaxPartSizeBytes =
      (.ok (s3MaxMultipartParts * s3MaxPartSizeBytes) : Except (CallError ConfigError) ℕ) :=
    U64.mul_eq (by decide)
  rw [multipartSafeChunkSize, hmul, ok_bind]
  refine ite_congr rfl (fun _ => rfl) fun hsmall => ?_
  have hbound : s3MaxMultipartParts * s3MaxPartSizeBytes + s3MaxMultipartParts < 2 ^ 64 := by decide
  have hadd : U64.add checks objectSize.toNat s3MaxMultipartParts =
      (.ok (objectSize.toNat + s3MaxMultipartParts) : Except (CallError ConfigError) ℕ) :=
    U64.add_eq (by omega)
  have hsub : U64.sub checks (objectSize.toNat + s3MaxMultipartParts) 1 =
      (.ok (objectSize.toNat + s3MaxMultipartParts - 1) : Except (CallError ConfigError) ℕ) :=
    U64.sub_eq (by rw [s3MaxMultipartParts]; omega)
  simp only [hadd, hsub, ok_bind, requiredPartSize, pure, Except.pure]

/-- **`multipart_safe_chunk_size` refuses the objects that are too large for any part size**, and
finds a part size for all others, the requested one if it may be. -/
theorem multipart_safe_chunk_size_ok (checks : Bool) (objectSize requestedChunkSize : UInt64) :
    (s3MaxMultipartParts * s3MaxPartSizeBytes < objectSize.toNat →
      multipartSafeChunkSize checks objectSize requestedChunkSize =
        .error (.storage (tooLarge objectSize.toNat))) ∧
    (objectSize.toNat ≤ s3MaxMultipartParts * s3MaxPartSizeBytes →
      ∃ partSize, multipartSafeChunkSize checks objectSize requestedChunkSize = .ok partSize ∧
        PartSizeOk objectSize.toNat partSize ∧
        (PartSizeOk objectSize.toNat requestedChunkSize.toNat →
          partSize = requestedChunkSize.toNat)) := by
  rw [multipartSafeChunkSize_eq]
  refine ⟨fun hlarge => if_pos hlarge, fun hsmall => ⟨_, if_neg (not_lt.mpr hsmall), ?_, ?_⟩⟩
  · have hmin : s3MinPartSizeBytes ≤ s3MaxPartSizeBytes := by decide
    have hpos : 0 < s3MinPartSizeBytes := by decide
    -- the largest part size has few enough parts for the objects that are left
    have hmax : requiredPartSize objectSize.toNat ≤ s3MaxPartSizeBytes := by
      rw [← parts_le_iff (by decide), ceilDiv_le_iff_le_mul (by decide), Nat.mul_comm]
      exact hsmall
    have hle : s3MinPartSizeBytes ≤
        min (max (max requestedChunkSize.toNat (requiredPartSize objectSize.toNat))
          s3MinPartSizeBytes)
          s3MaxPartSizeBytes := le_min (le_max_right _ _) hmin
    refine ⟨hle, min_le_right _ _, (parts_le_iff (hpos.trans_le hle)).mpr ?_⟩
    exact le_min ((le_max_right _ _).trans (le_max_left _ _)) hmax
  · rintro ⟨hmin, hmax, hparts⟩
    have hpos : 0 < requestedChunkSize.toNat := lt_of_lt_of_le (by decide) hmin
    rw [max_eq_left ((parts_le_iff hpos).mp hparts), max_eq_left hmin, min_eq_left hmax]

end RustClient

end MultiStorageClient
