/-
MultiStorageClient/ManifestPartFiles.lean

What the manifest part of a directory holds: the lines that `writePageToTSV`
writes, and the two functions that read them, `readManifestPart` and
`lookupInManifestPart` (`manifest_gen.go`).

A line has five fields with tabs between them, and nothing is escaped.  A field that
was read has neither tab nor newline in it, so entries are found again if and only
if none has been written with one, each line fits into the buffer of the scanner,
and each year has four digits.
-/
import MultiStorageClient.GoText
import MultiStorageClient.Rfc3339

namespace MultiStorageFileSystem

open GoStr GoTime

/-! ### Writing a part -/

/-- `listDirectoryOutputFileStruct` -/
structure PageFile where
  basename : GoStr
  eTag : GoStr
  mTime : UtcTime
  size : UInt64

/-- `listDirectoryOutputStruct`, as far as it is written to the part. -/
structure Page where
  subdirectory : List GoStr
  file : List PageFile

/-- `"d\t%s\t0\t-\t%s\n"` -/
def subdirLine (subdir : GoStr) (genTime : UtcTime) : GoStr :=
  'd' :: '\t' :: (subdir ++ '\t' :: '0' :: '\t' :: '-' :: '\t' :: (genTime.format ++ ['\n']))

/-- `"f\t%s\t%d\t%s\t%s\n"` -/
def fileLine (file : PageFile) : GoStr :=
  'f' :: '\t' :: (file.basename ++ '\t' :: (Nat.toDigits 10 file.size.toNat ++ '\t' ::
    (file.eTag ++ '\t' :: (file.mTime.format ++ ['\n']))))

/-- What `writePageToTSV` writes to the part. -/
def writePageToTSV (page : Page) (genTime : UtcTime) : GoStr :=
  (page.subdirectory.flatMap fun subdir => subdirLine subdir genTime) ++ page.file.flatMap fileLine

/-- The part of a directory that is listed in these pages. -/
def writePages (pages : List Page) (genTime : UtcTime) : GoStr :=
  pages.flatMap fun page => writePageToTSV page genTime

/-! ### Reading a part -/

/-- `manifestDirEntry` -/
structure ManifestDirEntry where
  Kind : GoStr
  Basename : GoStr
  Size : UInt64
  ETag : GoStr
  MTime : Time
deriving DecidableEq

/-- The errors of `readManifestPart`. -/
inductive PartError where
  | open
  | tooLong
deriving DecidableEq

/-- `64*1024`, the size of the buffer of the scanner. -/
def scannerBufSize : ℕ := 64 * 1024

/-- The entry with these fields; what is malformed gets a warning, and the value that
the parser returns beside its error. -/
def entryOfFields (kind basename size eTag mTime : GoStr) : ManifestDirEntry :=
  { Kind := kind
    Basename := basename
    Size := UInt64.ofNat (parseUint size).1
    ETag := eTag
    MTime := (parse mTime).getD Time.zero }

/-- The entry of a line, unless the line is skipped. -/
def readLine (line : GoStr) : Option ManifestDirEntry :=
  if line = [] ∨ line.hasPrefix ['#'] then none
  else
    match splitN '\t' 5 line with
    | [kind, basename, size, eTag, mTime] => some (entryOfFields kind basename size eTag mTime)
    | _ => none

/-- `readManifestPart`; the file is `none` where it cannot be opened. -/
def readManifestPart : Option GoStr → List ManifestDirEntry × Option PartError
  | none => ([], some .open)
  | some content =>
      let (tokens, tooLong) := scan scannerBufSize content
      (tokens.filterMap readLine, if tooLong then some .tooLong else none)

/-- The loop of `lookupInManifestPart`. -/
def lookupInLines (basename : GoStr) : List GoStr → Option ManifestDirEntry
  | [] => none
  | line :: lines =>
      if line = [] ∨ line.hasPrefix ['#'] then lookupInLines basename lines
      else
        match splitN '\t' 5 line with
        | [kind, name, size, eTag, mTime] =>
            if name ≠ basename then lookupInLines basename lines
            else some (entryOfFields kind name size eTag mTime)
        | _ => lookupInLines basename lines

/-- `lookupInManifestPart`; what is wrong with the file is not reported. -/
def lookupInManifestPart (file : Option GoStr) (basename : GoStr) : Option ManifestDirEntry :=
  match file with
  | none => none
  | some content => lookupInLines basename (scan scannerBufSize content).1

/-! ### The entries of a directory -/

/-- What a line is written of. -/
structure WrittenEntry where
  isDir : Bool
  basename : GoStr
  size : UInt64
  eTag : GoStr
  mTime : UtcTime

/-- The entries of a directory, in the order in which they are written. -/
def writtenEntries (pages : List Page) (genTime : UtcTime) : List WrittenEntry :=
  pages.flatMap fun page =>
    (page.subdirectory.map fun subdir => ⟨true, subdir, 0, ['-'], genTime⟩) ++
      page.file.map fun file => ⟨false, file.basename, file.size, file.eTag, file.mTime⟩

namespace WrittenEntry

variable {e : WrittenEntry}

/-- The letter of a directory or a file. -/
def kind (e : WrittenEntry) : Char := if e.isDir then 'd' else 'f'

/-- The line, without the newline. -/
def line (e : WrittenEntry) : GoStr :=
  [e.kind] ++ '\t' :: (e.basename ++ '\t' :: (Nat.toDigits 10 e.size.toNat ++ '\t' ::
    (e.eTag ++ '\t' :: e.mTime.format)))

/-- The entry that should be read. -/
def entry (e : WrittenEntry) : ManifestDirEntry :=
  { Kind := [e.kind], Basename := e.basename, Size := e.size, ETag := e.eTag,
    MTime := e.mTime.toTime }

/-- Neither field has a character in it that ends a field. -/
def Separable (e : WrittenEntry) : Prop :=
  ('\t' ∉ e.basename ∧ '\n' ∉ e.basename) ∧ '\t' ∉ e.eTag ∧ '\n' ∉ e.eTag

/-- The entry can be read again. -/
structure Readable (e : WrittenEntry) : Prop where
  separable : e.Separable
  fits : e.line.length < scannerBufSize
  year : 0 ≤ e.mTime.year ∧ e.mTime.year ≤ 9999

end WrittenEntry

/-- The part is the lines of the entries. -/
theorem writePages_eq (pages : List Page) (genTime : UtcTime) :
    writePages pages genTime =
      ((writtenEntries pages genTime).map WrittenEntry.line).flatMap fun l => l ++ ['\n'] := by
  unfold writePages writtenEntries
  rw [List.map_flatMap, List.flatMap_assoc]
  apply List.flatMap_congr
  intro page _
  rw [writePageToTSV, List.map_append, List.flatMap_append, List.map_map, List.map_map,
    List.flatMap_map, List.flatMap_map]
  congr 1
  · apply List.flatMap_congr
    intro subdir _
    simp [subdirLine, WrittenEntry.line, WrittenEntry.kind]
  · apply List.flatMap_congr
    intro file _
    simp [fileLine, WrittenEntry.line, WrittenEntry.kind]

/-! ### What can be read -/

/-- The search for a name is one through the entries of the lines. -/
theorem lookupInLines_eq (basename : GoStr) (lines : List GoStr) :
    lookupInLines basename lines =
      (lines.filterMap readLine).find? fun e => e.Basename = basename := by
  induction lines with
  | nil => rfl
  | cons line lines ih =>
      rw [lookupInLines, List.filterMap_cons, readLine]
      split
      · exact ih
      · split
        · next kind name size eTag mTime _ =>
            show _ = List.find? _ (entryOfFields kind name size eTag mTime :: _)
            by_cases hname : name = basename
            · rw [if_neg (not_not.mpr hname), List.find?_cons_of_pos]
              exact decide_eq_true hname
            · rw [if_pos hname, List.find?_cons_of_neg, ih]
              exact fun h => hname (of_decide_eq_true h)
        · exact ih

/-- A field that was read has no tab in it, and nothing that is not in the line. -/
theorem readLine_spec {line : GoStr} {e : ManifestDirEntry} (h : readLine line = some e) :
    ('\t' ∉ e.Basename ∧ e.Basename ⊆ line) ∧ '\t' ∉ e.ETag ∧ e.ETag ⊆ line := by
  unfold readLine at h
  split at h
  · cases h
  · split at h
    · next kind basename size eTag mTime hs =>
        obtain rfl := Option.some.inj h
        obtain ⟨-, l₁, rfl, hs₁⟩ := splitN_eq_cons hs
        obtain ⟨hbasename, l₂, rfl, hs₂⟩ := splitN_eq_cons hs₁
        obtain ⟨-, l₃, rfl, hs₃⟩ := splitN_eq_cons hs₂
        obtain ⟨heTag, l₄, rfl, -⟩ := splitN_eq_cons hs₃
        refine ⟨⟨hbasename, ?_⟩, heTag, ?_⟩
        · intro c hc
          simp [entryOfFields] at hc
          simp [hc]
        · intro c hc
          simp [entryOfFields] at hc
          simp [hc]
    · cases h

theorem tab_not_mem_toDigits (n : ℕ) : '\t' ∉ Nat.toDigits 10 n := by
  intro h
  have hd := Nat.isDigit_of_mem_toDigits (by decide) (by decide) h
  exact absurd hd (by decide)

namespace WrittenEntry

variable {e : WrittenEntry}

/-- The line is read as it was written, but for the time. -/
theorem readLine_line (h : e.Separable) :
    readLine e.line =
      some { e.entry with MTime := (parse e.mTime.format).getD Time.zero } := by
  obtain ⟨⟨hbasename, -⟩, heTag, -⟩ := h
  have hkind : '\t' ∉ [e.kind] := by
    unfold kind
    split <;> decide
  have hhash : e.line.hasPrefix ['#'] = false := by
    unfold line kind
    split <;> rfl
  have hsplit : splitN '\t' 5 e.line =
      [[e.kind], e.basename, Nat.toDigits 10 e.size.toNat, e.eTag, e.mTime.format] := by
    rw [line, splitN_cons hkind, splitN_cons hbasename, splitN_cons (tab_not_mem_toDigits _),
      splitN_cons heTag, splitN]
  unfold readLine
  rw [hhash, if_neg (by simp [line]), hsplit]
  show some (entryOfFields _ _ _ _ _) = _
  rw [entryOfFields, parseUint_toDigits e.size.toNat_lt, UInt64.ofNat_toNat]
  rfl

theorem newline_not_mem_line (h : e.Separable) : '\n' ∉ e.line := by
  obtain ⟨⟨-, hbasename⟩, -, heTag⟩ := h
  have hkind : '\n' ≠ e.kind := by
    unfold kind
    split <;> decide
  have hsize : '\n' ∉ Nat.toDigits 10 e.size.toNat := fun hc =>
    absurd (Nat.isDigit_of_mem_toDigits (by decide) (by decide) hc) (by decide)
  have htime : '\n' ∉ e.mTime.format := newline_not_mem_format e.mTime
  simp [line, hkind, hbasename, hsize, heTag, htime]

theorem getLast?_line : e.line.getLast? ≠ some '\r' := by
  have hlast : e.line.getLast? = some 'Z' := by
    have hsplit : e.line = ([e.kind] ++ '\t' :: (e.basename ++ '\t' ::
        (Nat.toDigits 10 e.size.toNat ++ '\t' :: (e.eTag ++ ['\t'])))) ++ e.mTime.format := by
      simp [line]
    rw [hsplit, List.getLast?_append, getLast?_format, Option.some_or]
  rw [hlast]
  decide

end WrittenEntry

variable {pages : List Page} {genTime : UtcTime}

/-- If no field can end early and every line fits, the scanner finds the lines. -/
theorem scan_writePages (h : ∀ e ∈ writtenEntries pages genTime, e.Separable)
    (hfits : ∀ e ∈ writtenEntries pages genTime, e.line.length < scannerBufSize) :
    scan scannerBufSize (writePages pages genTime) =
      ((writtenEntries pages genTime).map WrittenEntry.line, false) := by
  rw [writePages_eq]
  apply scan_flatMap
  · exact List.forall_mem_map.mpr fun e he => WrittenEntry.newline_not_mem_line (h e he)
  · exact List.forall_mem_map.mpr fun e _ => WrittenEntry.getLast?_line
  · exact List.forall_mem_map.mpr hfits

theorem readManifestPart_some (content : GoStr) :
    readManifestPart (some content) =
      ((scan scannerBufSize content).1.filterMap readLine,
        if (scan scannerBufSize content).2 then some .tooLong else none) := rfl

/-- An entry that is found again can be separated. -/
theorem separable_of_read {entries : List ManifestDirEntry} {err : Option PartError}
    (h : readManifestPart (some (writePages pages genTime)) = (entries, err))
    {e : WrittenEntry} (he : e.entry ∈ entries) : e.Separable := by
  rw [readManifestPart_some] at h
  obtain ⟨rfl, -⟩ := Prod.mk.inj h
  obtain ⟨token, htoken, hread⟩ := List.mem_filterMap.mp he
  have hnewline := newline_not_mem_scan htoken
  obtain ⟨⟨hbasename, hsub⟩, heTag, hsub'⟩ := readLine_spec hread
  exact ⟨⟨hbasename, fun hc => hnewline (hsub hc)⟩, heTag, fun hc => hnewline (hsub' hc)⟩

/-- Without an error every line fits. -/
theorem fits_of_read {entries : List ManifestDirEntry}
    (h : readManifestPart (some (writePages pages genTime)) = (entries, none))
    (hsep : ∀ e ∈ writtenEntries pages genTime, e.Separable) {e : WrittenEntry}
    (he : e ∈ writtenEntries pages genTime) : e.line.length < scannerBufSize := by
  have hlines : lines (writePages pages genTime) =
      (writtenEntries pages genTime).map WrittenEntry.line := by
    rw [writePages_eq]
    apply lines_flatMap
    exact List.forall_mem_map.mpr fun e he => WrittenEntry.newline_not_mem_line (hsep e he)
  rw [readManifestPart_some] at h
  obtain ⟨-, herr⟩ := Prod.mk.inj h
  by_contra hlong
  have hany : (scan scannerBufSize (writePages pages genTime)).2 = true := by
    rw [scan, hlines]
    apply List.any_eq_true.mpr
    exact ⟨e.line, List.mem_map_of_mem he, decide_eq_true (not_lt.mp hlong)⟩
  rw [hany] at herr
  cases herr

/-- What is read, if the scanner finds the lines. -/
theorem filterMap_readLine {es : List WrittenEntry} (h : ∀ e ∈ es, e.Separable) :
    (es.map WrittenEntry.line).filterMap readLine =
      es.map fun e => { e.entry with MTime := (parse e.mTime.format).getD Time.zero } := by
  rw [List.filterMap_map, ← List.filterMap_eq_map]
  apply List.filterMap_congr
  intro e he
  exact WrittenEntry.readLine_line (h e he)

/-- A listing is found again in its part, by both readers, if and only if each of its
entries can be read. -/
theorem readManifestPart_writePages_iff (pages : List Page) (genTime : UtcTime) :
    (readManifestPart (some (writePages pages genTime)) =
        ((writtenEntries pages genTime).map WrittenEntry.entry, none) ∧
      ∀ basename, lookupInManifestPart (some (writePages pages genTime)) basename =
        ((writtenEntries pages genTime).map WrittenEntry.entry).find? fun e =>
          e.Basename = basename) ↔
      ∀ e ∈ writtenEntries pages genTime, e.Readable := by
  constructor
  -- what is read back shows that each line can be separated, fits and is parsed
  · rintro ⟨hread, -⟩ e he
    have hsep : ∀ e ∈ writtenEntries pages genTime, e.Separable := fun e he =>
      separable_of_read hread (List.mem_map_of_mem he)
    have hfits : ∀ e ∈ writtenEntries pages genTime, e.line.length < scannerBufSize :=
      fun e he => fits_of_read hread hsep he
    refine ⟨hsep e he, hfits e he, ?_⟩
    rw [readManifestPart_some] at hread
    have hentries := (Prod.mk.inj hread).1
    rw [scan_writePages hsep hfits, filterMap_readLine hsep] at hentries
    have hentry := List.map_inj_left.mp hentries e he
    exact parse_format_iff.mp (congrArg ManifestDirEntry.MTime hentry)
  -- the converse goes the other way through the same three
  · intro h
    have hentries : (scan scannerBufSize (writePages pages genTime)).1.filterMap readLine =
        (writtenEntries pages genTime).map WrittenEntry.entry := by
      rw [scan_writePages (fun e he => (h e he).separable) fun e he => (h e he).fits,
        filterMap_readLine fun e he => (h e he).separable]
      apply List.map_congr_left
      intro e he
      rw [parse_format_iff.mpr (h e he).year]
      rfl
    constructor
    · rw [readManifestPart_some, hentries,
        scan_writePages (fun e he => (h e he).separable) fun e he => (h e he).fits]
      rfl
    · intro basename
      show lookupInLines basename _ = _
      rw [lookupInLines_eq, hentries]

/-- The zero time, in UTC. -/
def epochStart : UtcTime :=
  { year := 1, month := 1, day := 1, hour := 0, minute := 0, second := 0, nanosecond := 0,
    zone := 0, month_pos := by decide, month_le := by decide, day_pos := by decide,
    day_le := by decide, hour_lt := by decide, minute_lt := by decide, second_lt := by decide,
    nanosecond_lt := by decide, zone_eq := rfl }

/-- A listing with one file. -/
def oneFile (basename : GoStr) : List Page :=
  [{ subdirectory := [], file := [⟨basename, "e".toList, epochStart, 7⟩] }]

/-- A file `a⇥b` is read as a file `a` whose eTag is the size, and is not found. -/
theorem readManifestPart_tab :
    '/' ∉ "a\tb".toList ∧
      (readManifestPart (some (writePages (oneFile "a\tb".toList) epochStart))).1.map
        (fun e => (e.Basename, e.ETag)) = [("a".toList, "7".toList)] ∧
      ((writtenEntries (oneFile "a\tb".toList) epochStart).map WrittenEntry.entry).map
        (fun e => (e.Basename, e.ETag)) = [("a\tb".toList, "e".toList)] ∧
      lookupInManifestPart (some (writePages (oneFile "a\tb".toList) epochStart))
        "a\tb".toList = none := by
  decide +kernel

end MultiStorageFileSystem
