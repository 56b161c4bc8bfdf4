/-
MultiStorageClient/ManifestPartPaths.lean

Where the manifest part of a directory is kept (`manifestPartPath` of
`manifest_gen.go`), and which directory the ingest takes a part for
(`ingestFromDirTSVs` of `manifest_ingest.go`).

A part is named after the path of the directory in normal form, with `.tsv` behind
the last component, and `_root.tsv` for the root.  So directories with one normal
form share a part, the ingest finds the normal form, and nothing else goes wrong
but for a directory `_root` and for one that is named like a part.
-/
import MultiStorageClient.GoStr

namespace MultiStorageFileSystem

open GoStr
open PyStr (normComponents Plain)

/-- `_root.tsv` -/
def rootPart : GoStr := "_root.tsv".toList

/-- `.tsv` -/
def tsv : GoStr := ".tsv".toList

/-- `manifestPartPath` -/
def manifestPartPath (manifestDir objectPath : GoStr) : GoStr :=
  if objectPath = [] then join manifestDir rootPart
  else
    let safe := trimPrefix (clean ('/' :: trimSuffix objectPath ['/'])) ['/']
    if safe = [] ∨ safe = ['.'] then join manifestDir rootPart
    else join manifestDir (safe ++ tsv)

/-- The `parentDirPath` of a part. -/
def parentDirPath (relPath : GoStr) : GoStr :=
  if relPath = rootPart then [] else trimSuffix relPath tsv ++ ['/']

/-- The directory that `ingestFromDirTSVs` takes a part for. -/
def ingestedDir (manifestDir walkPath : GoStr) : Option GoStr :=
  (rel manifestDir walkPath).map parentDirPath

/-- The path of a directory: the root, or what ends in a slash. -/
def IsDirPath (d : GoStr) : Prop := d = [] ∨ d.getLast? = some '/'

/-- The components of a directory in normal form. -/
def dirComponents (d : GoStr) : List GoStr := (normComponents true [] (d.splitOn '/')).reverse

/-- The normal form of a directory. -/
def normalDir (d : GoStr) : GoStr :=
  if dirComponents d = [] then [] else List.intercalate ['/'] (dirComponents d) ++ ['/']

/-- The components of a part. -/
def partComponents : List GoStr → List GoStr
  | [] => [rootPart]
  | [c] => [c ++ tsv]
  | c :: cs => c :: partComponents cs

/-- The file is a folder on the way to the other one. -/
def NeededAsFolder (file other : GoStr) : Prop := file ++ ['/'] <+: other

/-! ### The part of a directory -/

variable {d d' m : GoStr} {l l' : List GoStr}

theorem rootPart_plain : ∀ c ∈ [rootPart], Plain c := by
  intro c hc
  obtain rfl := List.mem_singleton.mp hc
  unfold Plain
  decide

/-- A component with the extension is still one component. -/
theorem tsv_plain {c : GoStr} (h : Plain c) : Plain (c ++ tsv) := by
  obtain ⟨hne, -, -, hslash⟩ := h
  have hlen : 4 < (c ++ tsv).length := by
    rw [List.length_append]
    have := List.length_pos_of_ne_nil hne
    have : tsv.length = 4 := by decide
    omega
  refine ⟨?_, ?_, ?_, ?_⟩
  · intro heq
    rw [heq] at hlen
    exact absurd hlen (by decide)
  · intro heq
    rw [heq] at hlen
    exact absurd hlen (by decide)
  · intro heq
    rw [heq] at hlen
    exact absurd hlen (by decide)
  · rw [List.mem_append, not_or]
    exact ⟨hslash, by decide⟩

theorem partComponents_cons {c : GoStr} (h : l ≠ []) :
    partComponents (c :: l) = c :: partComponents l := by
  cases l with
  | nil => exact absurd rfl h
  | cons c' l => rfl

theorem partComponents_ne_nil (l : List GoStr) : partComponents l ≠ [] := by
  cases l with
  | nil => exact List.cons_ne_nil _ _
  | cons c l =>
      cases l with
      | nil => exact List.cons_ne_nil _ _
      | cons c' l => exact List.cons_ne_nil _ _

/-- The components of a part's path are plain. -/
theorem partComponents_plain (h : ∀ c ∈ l, Plain c) : ∀ c ∈ partComponents l, Plain c := by
  induction l with
  | nil => exact rootPart_plain
  | cons c l ih =>
      obtain ⟨hc, hl⟩ := List.forall_mem_cons.mp h
      by_cases hnil : l = []
      · subst hnil
        intro c' hc'
        obtain rfl := List.mem_singleton.mp hc'
        exact tsv_plain hc
      · rw [partComponents_cons hnil]
        exact List.forall_mem_cons.mpr ⟨hc, ih hl⟩

/-- `.tsv` behind a path is `.tsv` behind its last component. -/
theorem intercalate_partComponents (h : l ≠ []) :
    List.intercalate ['/'] (partComponents l) = List.intercalate ['/'] l ++ tsv := by
  induction l with
  | nil => exact absurd rfl h
  | cons c l ih =>
      by_cases hnil : l = []
      · subst hnil
        simp [partComponents, List.intercalate]
      · rw [partComponents_cons hnil, PyStr.intercalate_cons (partComponents_ne_nil l), ih hnil,
          PyStr.intercalate_cons hnil, List.append_assoc, List.cons_append]

theorem dirComponents_plain (d : GoStr) : ∀ c ∈ dirComponents d, Plain c := by
  intro c hc
  rcases PyStr.mem_of_normComponents (List.mem_reverse.mp hc) with hc' | ⟨hc', hne, hdot⟩
  · cases hc'
  · refine ⟨hne, hdot, ?_, PyStr.sep_free_of_splitOn hc'⟩
    rintro rfl
    exact PyStr.up_not_mem_absolute List.not_mem_nil (List.mem_reverse.mp hc)

theorem dirComponents_append_slash (e : GoStr) : dirComponents (e ++ ['/']) = dirComponents e := by
  unfold dirComponents
  rw [show e ++ ['/'] = e ++ '/' :: [] from rfl, List.splitOn_append_cons_self,
    PyStr.normComponents_append]
  rfl

/-- **The part** of a directory is named after its components in normal form. -/
theorem manifestPartPath_eq (h : IsDirPath d) (m : GoStr) : manifestPartPath m d =
    join m (List.intercalate ['/'] (partComponents (dirComponents d))) := by
  have hroot : List.intercalate ['/'] (partComponents []) = rootPart := by
    simp [partComponents, List.intercalate]
  unfold manifestPartPath
  split
  -- the root directory
  next hnil =>
    subst hnil
    exact congrArg (join m) hroot.symm
  next hne =>
    obtain ⟨e, rfl⟩ : ∃ e, d = e ++ ['/'] := List.getLast?_eq_some_iff.mp (h.resolve_left hne)
    rw [trimSuffix_append, dirComponents_append_slash]
    -- any other, which is cleaned as an absolute path
    have hclean : clean ('/' :: e) = ['/'] ++ List.intercalate ['/'] (dirComponents e) := rfl
    rw [hclean, trimPrefix_append]
    dsimp only
    have hplain := dirComponents_plain e
    by_cases hcomps : dirComponents e = []
    · rw [hcomps, if_pos (.inl rfl), hroot]
    · obtain ⟨x, s, hx, -⟩ :=
        intercalate_head (fun c hc => ⟨(hplain c hc).1, (hplain c hc).2.2.2⟩) hcomps
      -- a part named after the root's dot would take two components to be one
      have hdot : List.intercalate ['/'] (dirComponents e) ≠ ['.'] := by
        intro heq
        have hsplit := splitOn_plain hplain hcomps
        rw [heq] at hsplit
        exact (hplain ['.'] (hsplit ▸ List.mem_singleton_self _)).2.1 rfl
      rw [if_neg, intercalate_partComponents hcomps]
      rintro (hnil | heq)
      · rw [hx] at hnil
        cases hnil
      · exact hdot heq

/-- Two directories below the root have different parts. -/
theorem partComponents_inj_of_ne_nil (h : l ≠ []) (h' : l' ≠ [])
    (heq : partComponents l = partComponents l') : l = l' := by
  induction l generalizing l' with
  | nil => exact absurd rfl h
  | cons c l ih =>
      cases l' with
      | nil => exact absurd rfl h'
      | cons c' l' =>
          by_cases hl : l = []
          · subst hl
            by_cases hl' : l' = []
            · subst hl'
              rw [List.append_cancel_right (List.cons.inj heq).1]
            · rw [partComponents_cons hl'] at heq
              exact absurd (List.cons.inj heq).2.symm (partComponents_ne_nil l')
          · rw [partComponents_cons hl] at heq
            by_cases hl' : l' = []
            · subst hl'
              exact absurd (List.cons.inj heq).2 (partComponents_ne_nil l)
            · rw [partComponents_cons hl'] at heq
              obtain ⟨rfl, htail⟩ := List.cons.inj heq
              rw [ih hl hl' htail]

/-- `_root` -/
def rootName : GoStr := "_root".toList

/-- Only `_root` has the part of the root. -/
theorem partComponents_eq_root (h : l ≠ []) (heq : partComponents l = [rootPart]) :
    l = [rootName] := by
  cases l with
  | nil => exact absurd rfl h
  | cons c l =>
      by_cases hl : l = []
      · subst hl
        have hc : c ++ tsv = rootName ++ tsv := (List.cons.inj heq).1
        rw [List.append_cancel_right hc]
      · rw [partComponents_cons hl] at heq
        exact absurd (List.cons.inj heq).2 (partComponents_ne_nil l)

/-- Apart from `_root`, directories have one part only if their components are the same. -/
theorem partComponents_inj (h : l ≠ [rootName]) (h' : l' ≠ [rootName])
    (heq : partComponents l = partComponents l') : l = l' := by
  by_cases hnil : l = []
  · subst hnil
    by_contra hne
    exact h' (partComponents_eq_root (Ne.symm hne) heq.symm)
  · by_cases hnil' : l' = []
    · subst hnil'
      exact absurd (partComponents_eq_root hnil heq) h
    · exact partComponents_inj_of_ne_nil hnil hnil' heq

/-- The ingest takes a part for the directory in normal form. -/
theorem parentDirPath_part (h : dirComponents d ≠ [rootName]) :
    parentDirPath (List.intercalate ['/'] (partComponents (dirComponents d))) = normalDir d := by
  unfold parentDirPath normalDir
  by_cases hnil : dirComponents d = []
  · rw [hnil, if_pos rfl]
    exact if_pos (by simp [partComponents, List.intercalate])
  · have hroot : List.intercalate ['/'] (dirComponents d) ++ tsv ≠ rootPart := by
      intro heq
      have hname : List.intercalate ['/'] (dirComponents d) = rootName :=
        List.append_cancel_right (heq.trans (show rootPart = rootName ++ tsv from by decide))
      have hsplit := splitOn_plain (dirComponents_plain d) hnil
      rw [hname] at hsplit
      exact h (hsplit.symm.trans (by decide))
    rw [intercalate_partComponents hnil, if_neg hroot, trimSuffix_append, if_neg hnil]

/-- A directory is in normal form if it is its normal form. -/
def IsNormal (d : GoStr) : Prop :=
  d = [] ∨ ∃ l : List GoStr, l ≠ [] ∧ (∀ c ∈ l, Plain c) ∧ d = List.intercalate ['/'] l ++ ['/']

/-- The normal directories are those that normalisation leaves alone. -/
theorem normalDir_eq_iff : normalDir d = d ↔ IsNormal d := by
  unfold normalDir IsNormal
  constructor
  · intro heq
    split at heq
    · exact .inl heq.symm
    next hne => exact .inr ⟨_, hne, dirComponents_plain d, heq.symm⟩
  · rintro (rfl | ⟨l, hne, hl, rfl⟩)
    · rfl
    · have hcomps : dirComponents (List.intercalate ['/'] l ++ ['/']) = l := by
        rw [dirComponents_append_slash, dirComponents, splitOn_plain hl hne,
          PyStr.normComponents_plain hl, List.append_nil, List.reverse_reverse]
      rw [hcomps, if_neg hne]

/-- A part but for the last component is the directory but for the last component. -/
theorem partComponents_eq_dropLast (h : l ≠ []) :
    ∃ c, partComponents l = l.dropLast ++ [c] := by
  induction l with
  | nil => exact absurd rfl h
  | cons c l ih =>
      by_cases hl : l = []
      · subst hl
        exact ⟨_, rfl⟩
      · obtain ⟨c', hc'⟩ := ih hl
        exact ⟨c', by rw [partComponents_cons hl, hc', List.dropLast_cons_of_ne_nil hl]; rfl⟩

/-- What is on the way to a part is on the way to the directory. -/
theorem prefix_of_partComponents (hne : l ≠ []) (h : l <+: partComponents l')
    (hneq : l ≠ partComponents l') : l <+: l' ∧ l ≠ l' := by
  by_cases hl' : l' = []
  · subst hl'
    have hlen := h.length_le
    exact absurd (h.eq_of_length_le (show 1 ≤ l.length from List.length_pos_of_ne_nil hne)) hneq
  · obtain ⟨c, hc⟩ := partComponents_eq_dropLast hl'
    rw [hc] at h hneq
    have hdrop : l <+: l'.dropLast := (List.prefix_concat_iff.mp h).resolve_left hneq
    refine ⟨hdrop.trans (List.dropLast_prefix l'), ?_⟩
    rintro rfl
    have hlen := hdrop.length_le
    rw [List.length_dropLast] at hlen
    have := List.length_pos_of_ne_nil hne
    omega

/-- **The parts of directories** other than `_root`.  Directories have one part if and only
if their normal forms have the same components; the part of one is no folder on the way to
that of the other, unless the other's normal form lies in a folder of that name; the
ingest recovers the normal form, which is the directory itself if and only if that is normal. -/
theorem manifestPartPath_normal (m : GoStr) (h : IsDirPath d) (h' : IsDirPath d')
    (hroot : dirComponents d ≠ [rootName]) (hroot' : dirComponents d' ≠ [rootName]) :
    (manifestPartPath m d = manifestPartPath m d' ↔ dirComponents d = dirComponents d') ∧
      (NeededAsFolder (manifestPartPath m d) (manifestPartPath m d') →
        partComponents (dirComponents d) <+: dirComponents d' ∧
          partComponents (dirComponents d) ≠ dirComponents d') ∧
      ingestedDir m (manifestPartPath m d) = some (normalDir d) ∧
      (normalDir d = d ↔ IsNormal d) := by
  have hplain := partComponents_plain (dirComponents_plain d)
  have hplain' := partComponents_plain (dirComponents_plain d')
  have hne := partComponents_ne_nil (dirComponents d)
  have hne' := partComponents_ne_nil (dirComponents d')
  rw [manifestPartPath_eq h, manifestPartPath_eq h']
  refine ⟨⟨fun heq => ?_, fun heq => by rw [heq]⟩, fun hfolder => ?_, ?_, normalDir_eq_iff⟩
  · exact partComponents_inj hroot hroot' (join_injective m hplain hplain' hne hne' heq)
  · obtain ⟨hpre, hneq⟩ := (join_slash_prefix_iff m hplain hplain' hne hne').mp hfolder
    exact prefix_of_partComponents hne hpre hneq
  · unfold ingestedDir
    rw [rel_join m hplain hne, Option.map_some, parentDirPath_part hroot]

/-- Two directories of a bucket have two parts, of which none is in the way of the other. -/
theorem manifestPartPath_twoDirs :
    let m := "/tmp/manifest".toList
    let d := "dir-r0/r0/".toList
    let d' := "dir-r0/".toList
    manifestPartPath m d ≠ manifestPartPath m d' ∧
      ¬NeededAsFolder (manifestPartPath m d) (manifestPartPath m d') ∧
      ingestedDir m (manifestPartPath m d) = some d := by
  intro m d d'
  have hdir : IsDirPath d ∧ dirComponents d ≠ [rootName] := ⟨.inr (by decide), by decide⟩
  have hdir' : IsDirPath d' ∧ dirComponents d' ≠ [rootName] := ⟨.inr (by decide), by decide⟩
  obtain ⟨hsame, hfolder, hingested, hnormal⟩ :=
    manifestPartPath_normal m hdir.1 hdir'.1 hdir.2 hdir'.2
  have hd : IsNormal d := .inr ⟨_, by decide, dirComponents_plain d, by decide⟩
  refine ⟨fun heq => ?_, fun hneeded => ?_, hingested.trans (congrArg some (hnormal.mpr hd))⟩
  · exact absurd (hsame.mp heq) (by decide)
  · exact absurd (hfolder hneeded).1 (by decide)

/-- An empty component is lost: two directories of one bucket share a part, and the ingest
finds one of them only. -/
theorem manifestPartPath_emptyComponent :
    let m := "/tmp/manifest".toList
    IsDirPath "a//".toList ∧ IsDirPath "a/".toList ∧
      manifestPartPath m "a//".toList = manifestPartPath m "a/".toList ∧
      ingestedDir m (manifestPartPath m "a//".toList) = some "a/".toList := by
  refine ⟨.inr (by decide), .inr (by decide), ?_, ?_⟩ <;> decide +kernel

end MultiStorageFileSystem
