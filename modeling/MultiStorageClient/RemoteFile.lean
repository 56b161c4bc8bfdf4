/-
MultiStorageClient/RemoteFile.lean

`RemoteFileReader` (`file.py`), a file that is read by ranged requests, beside
`io.BytesIO` over the same bytes.

Both keep a position.  `BytesIO` takes a `Py_ssize_t` and lets no position become
negative; `RemoteFileReader` takes any integer as it is.  `BytesIO` fills the bytes of
any writable buffer; `RemoteFileReader` asks for as many bytes as the buffer has
items, and a `memoryview` takes them only for unsigned bytes.  As long as the
position that a call asks for is one that `BytesIO` accepts, nothing is read with a
size below -1, and buffers hold unsigned bytes, the two files stay at one position
(`SamePlace`) and return the same; the first other call shows the difference
(`agree_iff`).
-/
import MultiStorageClient.Run
import MultiStorageClient.StorageClient

namespace MultiStorageClient

/-- What a call on a file may raise. -/
inductive FileError
  | valueError
  | overflowError
  | typeError
  /-- raised by the storage client -/
  | clientError (msg : PyStr)
  deriving DecidableEq

/-- A buffer that is filled: an array of items in contiguous bytes. -/
structure FileBuffer where
  /-- `format` of its `memoryview`, less a leading `@` -/
  format : PyStr
  itemsize : ℕ
  bytes : List UInt8
  readonly : Bool
  itemsize_pos : 0 < itemsize
  /-- `B` stands for unsigned bytes -/
  itemsize_of_format : format = ['B'] → itemsize = 1
  deriving DecidableEq

/-- `len` of a buffer: the number of its items. -/
def FileBuffer.len (b : FileBuffer) : ℕ := b.bytes.length / b.itemsize

/-- A buffer with other bytes. -/
def FileBuffer.withBytes (b : FileBuffer) (bytes : List UInt8) : FileBuffer := { b with bytes }

theorem FileBuffer.len_of_format {b : FileBuffer} (h : b.format = ['B']) :
    b.len = b.bytes.length := by
  rw [len, b.itemsize_of_format h, Nat.div_one]

/-! ### `RemoteFileReader` -/

/-- `Range`, as `RemoteFileReader` makes it: nothing keeps it from being negative. -/
structure RequestedRange where
  offset : ℤ
  size : ℤ
  deriving DecidableEq

/-- A ranged read of the storage client. -/
abbrev RangedRead := PyStr → RequestedRange → SourceVersionCheckMode → Except FileError (List UInt8)

/-- `RemoteFileReader` -/
structure RemoteFileReader where
  remotePath : PyStr
  fileSize : ℤ
  pos : ℤ := 0
  checkSourceVersion : SourceVersionCheckMode := .inherit
  deriving DecidableEq

namespace RemoteFileReader

variable (client : RangedRead) (f : RemoteFileReader)

/-- `seek` -/
def seek (position whence : ℤ) : Except FileError ℤ × RemoteFileReader :=
  let f' :=
    if whence = 0 then { f with pos := position }
    else if whence = 1 then { f with pos := f.pos + position }
    else if whence = 2 then { f with pos := f.fileSize + position }
    else f
  (.ok f'.pos, f')

/-- `tell` -/
def tell : ℤ := f.pos

/-- `read` -/
def read (size : ℤ) : Except FileError (List UInt8) × RemoteFileReader :=
  if size = 0 ∨ f.fileSize ≤ f.pos then (.ok [], f)
  else
    let length := if size = -1 then f.fileSize - f.pos else min size (f.fileSize - f.pos)
    match client f.remotePath ⟨f.pos, length⟩ f.checkSourceVersion with
    | .error e => (.error e, f)
    -- `to_bytes` of a Rust buffer has the same bytes
    | .ok data => (.ok data, { f with pos := f.pos + data.length })

/-- `readinto`, with the buffer as it is afterwards. -/
def readinto (b : FileBuffer) : Except FileError (ℤ × FileBuffer) × RemoteFileReader :=
  match f.read client b.len with
  | (.error e, f') => (.error e, f')
  | (.ok data, f') =>
      if b.readonly then (.error .typeError, f')
      -- the assignment to a slice of the `memoryview` takes bytes of its own format and length only
      else if b.format = ['B'] ∧ data.length ≤ b.len then
        (.ok (data.length, b.withBytes (data ++ b.bytes.drop data.length)), f')
      else (.error .valueError, f')

end RemoteFileReader

/-! ### `io.BytesIO` -/

/-- The range of `Py_ssize_t`. -/
def PY_SSIZE_T_MAX : ℤ := 2 ^ 63 - 1
/-- `PY_SSIZE_T_MIN` -/
def PY_SSIZE_T_MIN : ℤ := -2 ^ 63

/-- A Python integer as a `Py_ssize_t`. -/
def asSsize (n : ℤ) : Except FileError ℤ :=
  if PY_SSIZE_T_MIN ≤ n ∧ n ≤ PY_SSIZE_T_MAX then .ok n else .error .overflowError

/-- `io.BytesIO` -/
structure BytesIo where
  buf : List UInt8
  pos : ℕ := 0
  deriving DecidableEq

namespace BytesIo

variable (f : BytesIo)

/-- The position that `seek` goes to. -/
def seekTo (position whence : ℤ) : Except FileError ℤ := do
  let pos ← asSsize position
  if pos < 0 ∧ whence = 0 then throw .valueError
  if whence = 0 then pure pos
  else if whence = 1 then
    if PY_SSIZE_T_MAX - f.pos < pos then throw .overflowError else pure (max (pos + f.pos) 0)
  else if whence = 2 then
    if PY_SSIZE_T_MAX - f.buf.length < pos then throw .overflowError
    else pure (max (pos + f.buf.length) 0)
  else throw .valueError

/-- `BytesIO.seek` -/
def seek (position whence : ℤ) : Except FileError ℤ × BytesIo :=
  match f.seekTo position whence with
  | .error e => (.error e, f)
  | .ok pos => (.ok pos, { f with pos := pos.toNat })

/-- `BytesIO.tell` -/
def tell : ℤ := f.pos

/-- The bytes from the position on, `size` at most. -/
def readBytes (size : ℕ) : List UInt8 × BytesIo :=
  let data := (f.buf.drop f.pos).take size
  (data, { f with pos := f.pos + data.length })

/-- `BytesIO.read` -/
def read (size : ℤ) : Except FileError (List UInt8) × BytesIo :=
  match asSsize size with
  | .error e => (.error e, f)
  | .ok size =>
      let (data, f') := f.readBytes (if size < 0 then f.buf.length else size.toNat)
      (.ok data, f')

/-- The bytes of any writable buffer are filled. -/
def readinto (b : FileBuffer) : Except FileError (ℤ × FileBuffer) × BytesIo :=
  if b.readonly then (.error .typeError, f)
  else
    let (data, f') := f.readBytes b.bytes.length
    (.ok (data.length, b.withBytes (data ++ b.bytes.drop data.length)), f')

end BytesIo

/-! ### Calls -/

/-- A call on a file. -/
inductive FileCall
  | seek (position whence : ℤ)
  | tell
  | read (size : ℤ)
  | readinto (b : FileBuffer)
  deriving DecidableEq

/-- What a call returns. -/
inductive FileValue
  | position (n : ℤ)
  | bytes (data : List UInt8)
  | filled (n : ℤ) (b : FileBuffer)
  deriving DecidableEq

/-- A call on the remote file. -/
def RemoteFileReader.call (client : RangedRead) (f : RemoteFileReader) :
    FileCall → Except FileError FileValue × RemoteFileReader
  | .seek position whence => (f.seek position whence).map (Except.map .position) id
  | .tell => (.ok (.position f.tell), f)
  | .read size => (f.read client size).map (Except.map .bytes) id
  | .readinto b => (f.readinto client b).map (Except.map fun r => .filled r.1 r.2) id

/-- The same call on the content in memory. -/
def BytesIo.call (f : BytesIo) : FileCall → Except FileError FileValue × BytesIo
  | .seek position whence => (f.seek position whence).map (Except.map .position) id
  | .tell => (.ok (.position f.tell), f)
  | .read size => (f.read size).map (Except.map .bytes) id
  | .readinto b => (f.readinto b).map (Except.map fun r => .filled r.1 r.2) id

/-- What the calls return, one after the other, `none` for a call that raises, and the
position after each. -/
def outcomes {σ : Type*} (call : σ → FileCall → Except FileError FileValue × σ) (tell : σ → ℤ) :
    σ → List FileCall → List (Option FileValue × ℤ)
  | _, [] => []
  | f, c :: calls =>
      ((call f c).1.toOption, tell (call f c).2) :: outcomes call tell (call f c).2 calls

/-- The ranged read returns the exact slice. -/
def ExactSlices (content : List UInt8) (client : RangedRead) : Prop :=
  ∀ path mode, ∀ offset size : ℕ,
    client path ⟨offset, size⟩ mode = .ok ((content.drop offset).take size)

/-! ### Where the two files agree -/

/-- The position that a `seek` asks for. -/
def BytesIo.target (f : BytesIo) (position whence : ℤ) : Option ℤ :=
  if whence = 0 then some position
  else if whence = 1 then some (f.pos + position)
  else if whence = 2 then some (f.buf.length + position)
  else none

/-- A call that `BytesIO` takes as it is: no position is negative or too large,
the size -1 is the only negative one, but at the end of the file, and a buffer holds unsigned
bytes; into a buffer that is read-only there is nothing to read. -/
def BytesIo.Accepts (f : BytesIo) : FileCall → Prop
  | .seek position whence => PY_SSIZE_T_MIN ≤ position ∧
      ∃ pos ∈ f.target position whence, 0 ≤ pos ∧ pos ≤ PY_SSIZE_T_MAX
  | .tell => True
  | .read size => PY_SSIZE_T_MIN ≤ size ∧ size ≤ PY_SSIZE_T_MAX ∧ (-1 ≤ size ∨ f.buf.length ≤ f.pos)
  | .readinto b => if b.readonly then b.len = 0 ∨ f.buf.length ≤ f.pos else b.format = ['B']

instance (f : BytesIo) (c : FileCall) : Decidable (f.Accepts c) := by
  cases c <;> unfold BytesIo.Accepts <;> infer_instance

/-- Both files have the content and stand at the same position. -/
structure SamePlace (content : List UInt8) (f : RemoteFileReader) (g : BytesIo) : Prop where
  fileSize : f.fileSize = content.length
  buf : g.buf = content
  pos : f.pos = g.pos

variable {content : List UInt8} {client : RangedRead} {f : RemoteFileReader} {g : BytesIo}
  {position whence size : ℤ}

theorem asSsize_of_mem {n : ℤ} (h : PY_SSIZE_T_MIN ≤ n) (h' : n ≤ PY_SSIZE_T_MAX) :
    asSsize n = .ok n := if_pos ⟨h, h'⟩

theorem asSsize_ok {n m : ℤ} (h : asSsize n = .ok m) :
    (PY_SSIZE_T_MIN ≤ n ∧ n ≤ PY_SSIZE_T_MAX) ∧ n = m := by
  unfold asSsize at h
  split at h
  next hmem => exact ⟨hmem, Except.ok.inj h⟩
  next => cases h

/-- `seek` goes to the position asked for, if `BytesIO` accepts it. -/
theorem BytesIo.seekTo_eq {pos : ℤ} (htarget : g.target position whence = some pos)
    (hmin : PY_SSIZE_T_MIN ≤ position) (h : 0 ≤ pos) (h' : pos ≤ PY_SSIZE_T_MAX) :
    g.seekTo position whence = .ok pos := by
  unfold target at htarget
  -- the target does not overflow, whatever it counts from
  have hle : position ≤ PY_SSIZE_T_MAX := by
    split at htarget
    · obtain rfl := Option.some.inj htarget
      exact h'
    · split at htarget
      · have := Option.some.inj htarget
        omega
      · split at htarget
        · have := Option.some.inj htarget
          omega
        · cases htarget
  unfold seekTo
  rw [asSsize_of_mem hmin hle]
  show (if position < 0 ∧ whence = 0 then _ else _) = _
  -- from the start, from the position, from the end
  split at htarget
  next h0 =>
    obtain rfl := Option.some.inj htarget
    rw [if_neg (by omega)]
    show (if whence = 0 then _ else _) = _
    rw [if_pos h0]
    rfl
  next h0 =>
    rw [if_neg fun hc => h0 hc.2]
    show (if whence = 0 then _ else _) = _
    rw [if_neg h0]
    split at htarget
    next h1 =>
      have hpos := Option.some.inj htarget
      rw [if_pos h1, if_neg (by omega), max_eq_left (by omega), ← hpos, add_comm]
      rfl
    next h1 =>
      rw [if_neg h1]
      split at htarget
      next h2 =>
        have hpos := Option.some.inj htarget
        rw [if_pos h2, if_neg (by omega), max_eq_left (by omega), ← hpos, add_comm]
        rfl
      next => cases htarget

/-- `BytesIO.seek` raises on any other `whence`. -/
theorem BytesIo.whence_of_seekTo {pos : ℤ} (hseek : g.seekTo position whence = .ok pos) :
    whence = 0 ∨ whence = 1 ∨ whence = 2 := by
  by_contra hnot
  rw [not_or, not_or] at hnot
  unfold seekTo asSsize at hseek
  split at hseek
  · change (if position < 0 ∧ whence = 0 then _ else _) = _ at hseek
    rw [if_neg fun hc => hnot.1 hc.2] at hseek
    change (if whence = 0 then _ else _) = _ at hseek
    rw [if_neg hnot.1, if_neg hnot.2.1, if_neg hnot.2.2] at hseek
    cases hseek
  · cases hseek

/-- No other position is gone to. -/
theorem BytesIo.seekTo_ne (hnot : ¬g.Accepts (.seek position whence)) {pos : ℤ}
    (hseek : g.seekTo position whence = .ok pos) : g.target position whence ≠ some pos := by
  intro htarget
  apply hnot
  unfold seekTo asSsize at hseek
  split at hseek
  next hmem =>
    refine ⟨hmem.1, pos, htarget, ?_⟩
    unfold target at htarget
    change (if position < 0 ∧ whence = 0 then _ else _) = _ at hseek
    split at hseek
    · cases hseek
    next hneg =>
      change (if whence = 0 then _ else _) = _ at hseek
      split at hseek
      next h0 =>
        rw [if_pos h0] at htarget
        obtain rfl := Option.some.inj htarget
        exact ⟨by omega, hmem.2⟩
      next h0 =>
        rw [if_neg h0] at htarget
        split at hseek
        next h1 =>
          rw [if_pos h1] at htarget
          have hpos := Option.some.inj htarget
          split at hseek
          · cases hseek
          next hfits =>
            have hmax := Except.ok.inj hseek
            omega
        next h1 =>
          rw [if_neg h1] at htarget
          split at hseek
          next h2 =>
            rw [if_pos h2] at htarget
            have hpos := Option.some.inj htarget
            split at hseek
            · cases hseek
            next hfits =>
              have hmax := Except.ok.inj hseek
              omega
          next h2 => cases hseek
  next => cases hseek

/-- Where `RemoteFileReader.seek` goes. -/
theorem RemoteFileReader.seek_pos (h : SamePlace content f g)
    (hmem : whence = 0 ∨ whence = 1 ∨ whence = 2) :
    g.target position whence = some (f.seek position whence).2.pos := by
  unfold BytesIo.target seek
  rcases hmem with rfl | rfl | rfl
  · rfl
  · rw [← h.pos]
    rfl
  · rw [h.buf, ← h.fileSize]
    rfl

/-- `RemoteFileReader.read` returns what `BytesIO` reads, and both go as far. -/
theorem RemoteFileReader.read_eq (h : SamePlace content f g) (hexact : ExactSlices content client)
    (hsize : -1 ≤ size ∨ content.length ≤ g.pos) :
    ∃ f', f.read client size =
        (.ok (g.readBytes (if size < 0 then g.buf.length else size.toNat)).1, f') ∧
      SamePlace content f' (g.readBytes (if size < 0 then g.buf.length else size.toNat)).2 := by
  obtain ⟨hfile, hbuf, hpos⟩ := h
  unfold read BytesIo.readBytes
  rw [hbuf]
  split
  next hnone =>
    have hnil :
        (content.drop g.pos).take (if size < 0 then content.length else size.toNat) = [] := by
      rcases hnone with rfl | hend
      · exact List.take_zero
      · rw [List.drop_eq_nil_of_le (by omega), List.take_nil]
    rw [hnil]
    exact ⟨f, rfl, hfile, rfl, hpos⟩
  next hsome =>
    rw [not_or, not_le] at hsome
    -- the range that is asked for has natural numbers as its fields
    obtain ⟨n, hn, htake⟩ : ∃ n : ℕ,
        (if size = -1 then f.fileSize - f.pos else min size (f.fileSize - f.pos)) = n ∧
          (content.drop g.pos).take (if size < 0 then content.length else size.toNat) =
            (content.drop g.pos).take n := by
      by_cases hall : size = -1
      · refine ⟨content.length - g.pos, ?_, ?_⟩
        · rw [if_pos hall]
          omega
        · rw [if_pos (by omega), List.take_of_length_le (by rw [List.length_drop]; omega),
            List.take_of_length_le (by rw [List.length_drop])]
      · refine ⟨min size.toNat (content.length - g.pos), ?_, ?_⟩
        · rw [if_neg hall]
          omega
        · rw [if_neg (by omega), ← List.length_drop, List.take_eq_take_min]
    rw [hn]
    dsimp only
    rw [hpos, hexact f.remotePath f.checkSourceVersion g.pos n, htake]
    exact ⟨_, rfl, hfile, rfl, by push_cast; rfl⟩

/-- **A call that `BytesIO` accepts** returns the same on both files, and leaves them at
the same position. -/
theorem SamePlace.call (h : SamePlace content f g) (hexact : ExactSlices content client)
    {c : FileCall} (hc : g.Accepts c) :
    (f.call client c).1.toOption = (g.call c).1.toOption ∧
      SamePlace content (f.call client c).2 (g.call c).2 := by
  cases c with
  | seek position whence =>
      obtain ⟨hmin, pos, htarget, hnonneg, hmax⟩ := hc
      have hmem : whence = 0 ∨ whence = 1 ∨ whence = 2 := by
        by_contra hnot
        rw [not_or, not_or] at hnot
        unfold BytesIo.target at htarget
        rw [if_neg hnot.1, if_neg hnot.2.1, if_neg hnot.2.2] at htarget
        cases htarget
      have hgoes : pos = (f.seek position whence).2.pos :=
        Option.some.inj (htarget.symm.trans (RemoteFileReader.seek_pos h hmem))
      have hseek : g.call (.seek position whence) =
          (.ok (.position pos), { g with pos := pos.toNat }) := by
        show (g.seek position whence).map _ _ = _
        unfold BytesIo.seek
        rw [BytesIo.seekTo_eq htarget hmin hnonneg hmax]
        rfl
      rw [hseek]
      refine ⟨?_, ?_, h.buf, ?_⟩
      · show some (FileValue.position (f.seek position whence).2.pos) = _
        rw [← hgoes]
        rfl
      · show (f.seek position whence).2.fileSize = _
        rw [← h.fileSize]
        unfold RemoteFileReader.seek
        dsimp only
        split
        · rfl
        · split
          · rfl
          · split <;> rfl
      · show (f.seek position whence).2.pos = _
        rw [← hgoes]
        exact (Int.toNat_of_nonneg hnonneg).symm
  | tell => exact ⟨congrArg (fun n => some (FileValue.position n)) h.pos, h⟩
  | read size =>
      obtain ⟨hmin, hmax, hsize⟩ := hc
      rw [h.buf] at hsize
      obtain ⟨f', hread, hsame⟩ := RemoteFileReader.read_eq h hexact hsize
      have hbytes : g.read size =
          (.ok (g.readBytes (if size < 0 then g.buf.length else size.toNat)).1,
            (g.readBytes (if size < 0 then g.buf.length else size.toNat)).2) := by
        unfold BytesIo.read
        rw [asSsize_of_mem hmin hmax]
      unfold RemoteFileReader.call BytesIo.call
      dsimp only
      rw [hread, hbytes]
      exact ⟨rfl, hsame⟩
  | readinto b =>
      have hlen : ¬((b.len : ℤ) < 0) := not_lt.mpr (Int.natCast_nonneg _)
      have hsize : -1 ≤ (b.len : ℤ) ∨ content.length ≤ g.pos := .inl (by omega)
      obtain ⟨f', hread, hsame⟩ := RemoteFileReader.read_eq h hexact hsize
      rw [if_neg hlen, Int.toNat_natCast] at hread hsame
      unfold RemoteFileReader.call BytesIo.call RemoteFileReader.readinto BytesIo.readinto
      dsimp only
      rw [hread]
      dsimp only
      change if _ then _ else _ at hc
      split at hc
      next hreadonly =>
        -- nothing is read, and both raise
        have hnil : (g.readBytes b.len).1 = [] := by
          show (g.buf.drop g.pos).take b.len = []
          rcases hc with hnone | hend
          · rw [hnone, List.take_zero]
          · rw [List.drop_eq_nil_of_le hend, List.take_nil]
        have hstays : (g.readBytes b.len).2 = g := by
          have hpos : (g.readBytes b.len).2.pos = g.pos := by
            show g.pos + (g.readBytes b.len).1.length = g.pos
            rw [hnil]
            rfl
          exact congrArg (BytesIo.mk g.buf) hpos
        rw [if_pos hreadonly, if_pos hreadonly]
        exact ⟨rfl, hstays ▸ hsame⟩
      next hwritable =>
        have hbytes := b.len_of_format hc
        have hfits : (g.readBytes b.len).1.length ≤ b.len := List.length_take_le ..
        rw [if_neg hwritable, if_neg hwritable, if_pos ⟨hc, hfits⟩, ← hbytes]
        exact ⟨rfl, hsame⟩

/-- A storage client that returns the exact slice, and nothing for a negative size. -/
def sliceClient (content : List UInt8) : RangedRead :=
  fun _ r _ => .ok ((content.drop r.offset.toNat).take r.size.toNat)

theorem sliceClient_exact : ExactSlices content (sliceClient content) := fun _ _ _ _ => rfl

/-- `RemoteFileReader.read` raises only where the client does. -/
theorem RemoteFileReader.read_ok (f : RemoteFileReader) (size : ℤ) :
    ∃ data, (f.read (sliceClient content) size).1 = .ok data := by
  unfold read
  split
  · exact ⟨_, rfl⟩
  · exact ⟨_, rfl⟩

/-- A size below -1 is a request of a negative size. -/
theorem RemoteFileReader.read_negative (h : SamePlace content f g) (hneg : size < -1)
    (hleft : g.pos < content.length) : (f.read (sliceClient content) size).1 = .ok [] := by
  obtain ⟨hfile, -, hpos⟩ := h
  unfold read sliceClient
  rw [if_neg (by omega)]
  dsimp only
  have hnone : (min size (f.fileSize - f.pos)).toNat = 0 := Int.toNat_of_nonpos (by omega)
  rw [if_neg (by omega), hnone, List.take_zero]

/-- Where `BytesIO` has a buffer that is read-only, `RemoteFileReader` has read into it before it
raises. -/
theorem RemoteFileReader.read_readonly (h : SamePlace content f g) {b : FileBuffer}
    (hlen : b.len ≠ 0) (hleft : g.pos < content.length) :
    (f.readinto (sliceClient content) b).2.pos ≠ g.pos := by
  have hsize : -1 ≤ (b.len : ℤ) ∨ content.length ≤ g.pos := .inl (by omega)
  obtain ⟨f', hread, hsame⟩ := RemoteFileReader.read_eq h sliceClient_exact hsize
  rw [if_neg (not_lt.mpr (Int.natCast_nonneg _)), Int.toNat_natCast] at hread hsame
  have hmoved : (f.readinto (sliceClient content) b).2 = f' := by
    unfold readinto
    rw [hread]
    dsimp only
    split
    · rfl
    · split <;> rfl
  have hpos : (g.readBytes b.len).2.pos = g.pos + min b.len (content.length - g.pos) := by
    show g.pos + ((g.buf.drop g.pos).take b.len).length = _
    rw [List.length_take, List.length_drop, h.buf]
  rw [hmoved, hsame.pos, hpos]
  omega

/-- **Any other call** returns something else, or returns where `BytesIO` raises, or leaves another
position. -/
theorem SamePlace.call_differs (h : SamePlace content f g) {c : FileCall} (hc : ¬g.Accepts c)
    (hcall : (f.call (sliceClient content) c).1.toOption = (g.call c).1.toOption) :
    (f.call (sliceClient content) c).2.tell ≠ (g.call c).2.tell := by
  cases c with
  | seek position whence =>
      have hf : (f.call (sliceClient content) (.seek position whence)).1.toOption =
          some (.position (f.seek position whence).2.pos) := rfl
      rw [hf] at hcall
      unfold BytesIo.call BytesIo.seek at hcall
      dsimp only at hcall
      cases hseek : g.seekTo position whence with
      | error e =>
          rw [hseek] at hcall
          cases hcall
      | ok pos =>
          rw [hseek] at hcall
          have hpos := FileValue.position.inj (Option.some.inj hcall)
          have hmem : whence = 0 ∨ whence = 1 ∨ whence = 2 := BytesIo.whence_of_seekTo hseek
          have htarget : g.target position whence = some (f.seek position whence).2.pos :=
            RemoteFileReader.seek_pos h hmem
          rw [hpos] at htarget
          exact absurd htarget (BytesIo.seekTo_ne hc hseek)
  | tell => exact absurd trivial hc
  | read size =>
      obtain ⟨data, hdata⟩ : ∃ data, (f.read (sliceClient content) size).1 = .ok data :=
        RemoteFileReader.read_ok f size
      have hf : (f.call (sliceClient content) (.read size)).1.toOption = some (.bytes data) := by
        unfold RemoteFileReader.call
        dsimp only
        rw [Prod.map_fst, hdata]
        rfl
      rw [hf] at hcall
      unfold BytesIo.call BytesIo.read at hcall
      dsimp only at hcall
      cases hsize : asSsize size with
      | error e =>
          rw [hsize] at hcall
          cases hcall
      | ok n =>
          rw [hsize] at hcall
          -- the size is below -1, and there are bytes left
          obtain ⟨⟨hmin, hmax⟩, rfl⟩ := asSsize_ok hsize
          obtain ⟨hneg, hleft⟩ : size < -1 ∧ g.pos < g.buf.length := by
            by_contra hnot
            exact hc ⟨hmin, hmax, by omega⟩
          rw [h.buf] at hleft
          have hall := FileValue.bytes.inj (Option.some.inj hcall)
          rw [RemoteFileReader.read_negative h hneg hleft] at hdata
          obtain rfl := Except.ok.inj hdata
          rw [if_pos (by omega), h.buf] at hall
          have hlen := congrArg List.length hall
          unfold BytesIo.readBytes at hlen
          rw [List.length_take, List.length_drop, List.length_nil, h.buf] at hlen
          omega
  | readinto b =>
      change ¬if _ then _ else _ at hc
      by_cases hreadonly : b.readonly = true
      · rw [if_pos hreadonly, not_or, not_le, h.buf] at hc
        have hg : g.call (.readinto b) = (.error .typeError, g) := by
          unfold BytesIo.call BytesIo.readinto
          dsimp only
          rw [if_pos hreadonly]
          rfl
        rw [hg]
        exact fun heq => RemoteFileReader.read_readonly h hc.1 hc.2 heq
      · -- a buffer of another format is not filled
        rw [if_neg hreadonly] at hc
        obtain ⟨data, hdata⟩ : ∃ data, (f.read (sliceClient content) b.len).1 = .ok data :=
          RemoteFileReader.read_ok f b.len
        unfold RemoteFileReader.call BytesIo.call at hcall
        unfold RemoteFileReader.readinto BytesIo.readinto at hcall
        dsimp only at hcall
        rw [show f.read (sliceClient content) b.len = (.ok data, _) from Prod.ext hdata rfl,
          if_neg hreadonly] at hcall
        dsimp only at hcall
        rw [if_neg hreadonly, if_neg fun hformat => hc hformat.1] at hcall
        cases hcall

/-- The calls are accepted, each at the position that those before it leave. -/
def BytesIo.AcceptsAll (g : BytesIo) (calls : List FileCall) : Prop :=
  Run.Always (fun g c => some (BytesIo.call g c).2) BytesIo.Accepts g calls

/-- As long as every call is accepted, both files return the same and stand at the same place. -/
theorem SamePlace.outcomes (hexact : ExactSlices content client) {calls : List FileCall}
    (h : SamePlace content f g) (hcalls : g.AcceptsAll calls) :
    MultiStorageClient.outcomes (RemoteFileReader.call client) RemoteFileReader.tell f calls =
      MultiStorageClient.outcomes BytesIo.call BytesIo.tell g calls := by
  induction calls generalizing f g with
  | nil => rfl
  | cons c calls ih =>
      obtain ⟨hsame, hplace⟩ := h.call hexact hcalls.1
      exact congrArg₂ List.cons (congrArg₂ Prod.mk hsame hplace.pos) (ih hplace (hcalls.2 _ rfl))

/-- If both files return the same, every call was accepted. -/
theorem SamePlace.acceptsAll {calls : List FileCall} (h : SamePlace content f g)
    (heq : MultiStorageClient.outcomes (RemoteFileReader.call (sliceClient content))
        RemoteFileReader.tell f calls =
      MultiStorageClient.outcomes BytesIo.call BytesIo.tell g calls) : g.AcceptsAll calls := by
  induction calls generalizing f g with
  | nil => trivial
  | cons c calls ih =>
      obtain ⟨hhead, htail⟩ := List.cons.inj heq
      by_cases hc : g.Accepts c
      · refine ⟨hc, fun g' hg' => ?_⟩
        obtain rfl := Option.some.inj hg'
        exact ih (h.call sliceClient_exact hc).2 htail
      · obtain ⟨hvalue, hpos⟩ := Prod.mk.inj hhead
        exact absurd hpos (h.call_differs hc hvalue)

end MultiStorageClient
