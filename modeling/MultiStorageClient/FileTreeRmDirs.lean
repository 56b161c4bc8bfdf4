/-
MultiStorageClient/FileTreeRmDirs.lean

`DoRmDir`, and what the backend has in the directory.

`DoRmDir` looks at the entries of the directory that are in memory, and never at
the objects.  A directory that it comes to without children in memory is taken
out of the tree, whatever the backend has in it (`rmDirMeets_iff_of_run`); that
is so of every directory that `findChildInode` has just put there.
-/
import MultiStorageClient.FileTreeFatals

namespace MultiStorageFileSystem

open Prog Run TreeSection

namespace FileTree

variable {cfg : TreeConfig} {t t' : FileTree} {steps : List TreeStep} {objects : Set String}
  {p : ℕ} {name : String} {found : Found}

/-- The `objectPath` of the directory under a name, or the one that it is going to
have. -/
def dirPath (t : FileTree) (p : ℕ) (name : String) : String :=
  match t.names.find p name with
  | some i => (t.inode i).objectPath
  | none => (t.inode p).objectPath ++ name ++ "/"

/-- The directory under a name has a child that is only virtual. -/
def HasVirtChild (t : FileTree) (p : ℕ) (name : String) : Prop :=
  ∃ i, t.names.find p name = some i ∧ ∃ child, ¬IsDot child ∧ t.virtGet i child ≠ none

/-- The backend has an object in the directory under a name. -/
def HasObject (objects : Set String) (t : FileTree) (p : ℕ) (name : String) : Prop :=
  ∃ key ∈ objects, ∃ rest, key = t.dirPath p name ++ rest

/-- `DoRmDir` returns 0 only if the directory is empty, in memory and in the
backend; otherwise it returns an errno and leaves the maps as they were. -/
def RmDirMeets (objects : Set String) (t : FileTree) (p : ℕ) (name : String) :
    Except Fatal Reply × FileTree → Prop
  | (.ok .done, _) => ¬HasVirtChild t p name ∧ ¬HasObject objects t p name
  | (.ok (.errno _), t') => SameMaps t t'
  | _ => False

/-- The objects do not matter, and no inode is put into `inodeMap` in vain. -/
structure RmDirSafe (objects : Set String) (t : FileTree) (p : ℕ) (name : String) (found : Found) :
    Prop where
  notItself : ¬RemovesItself t p name
  noNewFile : ¬CreatesFile t p name found
  noObject : Removes t p name found → ¬HasObject objects t p name

/-- What is removed has no children in memory. -/
theorem Removes.not_hasVirtChild (h : Removes t p name found) : ¬HasVirtChild t p name := by
  rintro ⟨i, hi, child, hname, hchild⟩
  rcases h.2 with ⟨j, hj, hr⟩ | ⟨hnone, -⟩
  · obtain rfl := Option.some.inj (hi.symm.trans hj)
    exact hname (hr.onlyDots true child hchild).2
  · exact nomatch hi.symm.trans hnone

/-- The answers of `DoRmDir` are right if and only if the condition holds. -/
theorem rmDirMeets_iff {left : Prop} {r : Except Fatal Reply × FileTree} (h : t.Settled left)
    (hr : EndsIn (RmDirAnswers t p name found) (fun _ => RemovesItself t p name) r) :
    RmDirMeets objects t p name r ↔ RmDirSafe objects t p name found := by
  rcases r with ⟨e | a, t'⟩
  · exact iff_of_false id fun hs => hs.notItself hr
  cases a with
  | done =>
      obtain ⟨hremoves, hself⟩ := hr
      constructor
      · rintro ⟨-, hobject⟩
        refine ⟨hself, fun hc => ?_, fun _ => hobject⟩
        rcases hremoves.2 with ⟨i, hi, -⟩ | ⟨-, htype⟩
        · exact nomatch hi.symm.trans hc.2.1
        · cases htype.symm.trans hc.2.2
      · exact fun hs => ⟨hremoves.not_hasVirtChild, hs.noObject hremoves⟩
  | errno errno =>
      obtain ⟨hremoves, hsame⟩ := hr
      refine hsame.trans ⟨fun hc => ⟨fun hself => ?_, hc, fun hrm => absurd hrm hremoves⟩,
        fun hs => hs.noNewFile⟩
      exact hremoves (removes_of_self h hself)
  | _ => exact hr.elim

/-- What matters of the tree does not change with the time. -/
theorem removes_atTime {now : ℕ → ℕ} : Removes (t.atTime now) p name found ↔
    Removes t p name found := by
  unfold Removes
  simp only [removable_atTime]
  rfl

theorem rmDirSafe_atTime {now : ℕ → ℕ} : RmDirSafe objects (t.atTime now) p name found ↔
    RmDirSafe objects t p name found := by
  constructor
  · exact fun hs => ⟨fun hr => hs.notItself (removesItself_atTime.mpr hr), hs.noNewFile,
      fun hr => hs.noObject (removes_atTime.mpr hr)⟩
  · exact fun hs => ⟨fun hr => hs.notItself (removesItself_atTime.mp hr), hs.noNewFile,
      fun hr => hs.noObject (removes_atTime.mp hr)⟩

theorem rmDirMeets_atTime {now : ℕ → ℕ} {r : Except Fatal Reply × FileTree} :
    RmDirMeets objects (t.atTime now) p name r ↔ RmDirMeets objects t p name r := by
  rcases r with ⟨e | a, t'⟩
  · rfl
  · cases a <;> rfl

/-- **`DoRmDir` in every state that a run reaches**: it takes no directory that
is not empty, and leaves the maps alone when it refuses, if and only if the
condition holds. -/
theorem rmDirMeets_iff_of_run {n : ℕ} (hrun : exec (step cfg) (initial n) steps = some t)
    (objects : Set String) (p : ℕ) (name : String) (found : Found) (now : ℕ → ℕ) :
    RmDirMeets objects t p name (t.runCall cfg ⟨.doRmDir p name found, now⟩) ↔
      RmDirSafe objects t p name found := by
  have h : t.Settled True := settled_of_run (.inl trivial) hrun
  have h' : (t.atTime now).Settled True := h.later now
  have hpending : t.pending = [] := pending_of_run hrun
  have hnp : ¬(t.atTime now).names.Pending p := Names.not_pending hpending p
  have hends : EndsIn (RmDirAnswers (t.atTime now) p name found)
      (fun _ => RemovesItself (t.atTime now) p name)
      (t.runCall cfg ⟨.doRmDir p name found, now⟩) :=
    (doRmDir_ok cfg h' hnp).mono (fun _ _ ht => ht.2) fun _ => id
  exact rmDirMeets_atTime.symm.trans ((rmDirMeets_iff h' hends).trans rmDirSafe_atTime)

/-- A backend is mounted, and nothing is known of it. -/
def mountOnly : List TreeStep := [⟨.mount "b" false, id⟩]

/-- A directory that is made in it can be removed. -/
theorem mountAndMkDir_rmDir : ∃ t, exec (step anyTimes) (initial 0) mountAndMkDir = some t ∧
    RmDirMeets ∅ t 3 "d" (t.runCall anyTimes ⟨.doRmDir 3 "d" .nothing, id⟩) := by
  obtain ⟨t, hrun, -⟩ : ∃ t, exec (step anyTimes) (initial 0) mountAndMkDir = some t ∧
      t.inodeMap 3 = true := exec_exists (by decide +kernel)
  refine ⟨t, hrun, (rmDirMeets_iff_of_run hrun ∅ 3 "d" .nothing id).mpr ⟨?_, ?_, ?_⟩⟩
  · exact fun hself => absurd hself.1 (by decide)
  · exact fun hc => nomatch hc.2.2
  · exact fun _ ⟨_, hkey, _⟩ => hkey

/-- The directory of an object is removed. -/
theorem mountOnly_rmDir : ∃ t, exec (step anyTimes) (initial 0) mountOnly = some t ∧
    ¬RmDirMeets {"d/f"} t 3 "d" (t.runCall anyTimes ⟨.doRmDir 3 "d" .directory, id⟩) := by
  obtain ⟨t, hrun, hdone, hfind, hpath⟩ : ∃ t, exec (step anyTimes) (initial 0) mountOnly = some t ∧
      (t.runCall anyTimes ⟨.doRmDir 3 "d" .directory, id⟩).1.toOption = some .done ∧
      t.names.find 3 "d" = none ∧ (t.inode 3).objectPath = "" := exec_exists (by decide +kernel)
  refine ⟨t, hrun, fun hmeets => ?_⟩
  have hobject : HasObject {"d/f"} t 3 "d" := by
    refine ⟨"d/f", rfl, "f", ?_⟩
    unfold dirPath
    rw [hfind]
    show "d/f" = (t.inode 3).objectPath ++ "d" ++ "/" ++ "f"
    rw [hpath]
    decide
  rcases hr : t.runCall anyTimes ⟨.doRmDir 3 "d" .directory, id⟩ with ⟨e | a, t'⟩
  · rw [hr] at hdone
    cases hdone
  · rw [hr] at hdone hmeets
    obtain rfl : a = .done := Option.some.inj hdone
    exact hmeets.2 hobject

end FileTree

end MultiStorageFileSystem
