/-
MultiStorageClient/FileTreeFatals.lean

When a call on a name ends the process.

The names `.` and `..` are entries of `virtChildDirEntryMap` like others, and
`DoLookup` and `DoRmDir` take what they find there for an ordinary child.  So a
lookup that leads to the root comes to a backend that is not there
(`LooksUpRoot`), and a directory that is removed by its own dot has lost that
dot when its entry is to go (`RemovesItself`).  The section that ends
`DoUnlink` may come after the unmount of its backend (`LosesFile`).

There are no other cases, in any state that a run reaches
(`answers_iff_of_run`); `DoMkDir`, and `DoUnlink` up to that section, always
answer.
-/
import MultiStorageClient.FileTreeRuns

namespace MultiStorageFileSystem

open Prog Run TreeSection

namespace Call

/-- The calls on names, and the section that ends `DoUnlink`. -/
def onName : Call → Bool
  | doLookup _ _ _ | doMkDir _ _ _ | doUnlink _ _ _ | finishPendingDelete _ | doRmDir _ _ _ => true
  | _ => false

/-- A call on a name comes to `Fatalf`. -/
def IsFatal (t : FileTree) : Call → Prop
  | doLookup p name _ => t.LooksUpRoot p name
  | finishPendingDelete i => t.LosesFile i
  | doRmDir p basename _ => t.RemovesItself p basename
  | _ => False

end Call

namespace FileTree

variable {cfg : TreeConfig} {left : Prop} {t : FileTree} {s : TreeStep} {steps : List TreeStep}

/-- What a call does in one case and not in the other. -/
theorem answers_iff {c : Prop} {I : FileTree → Prop} {r : Except Fatal Reply × FileTree}
    (h : EndsIn (fun _ t' => I t' ∧ ¬c) (fun _ => c) r) : (∃ a, r.1 = .ok a) ↔ ¬c := by
  rcases r with ⟨e | a, t'⟩
  · exact iff_of_false (fun ⟨_, ha⟩ => nomatch ha) (not_not.mpr h)
  · exact iff_of_true ⟨a, rfl⟩ h.2

/-- A call that always answers. -/
theorem answers_of_ends {I : FileTree → Prop} {r : Except Fatal Reply × FileTree}
    (h : EndsIn (fun _ => I) (fun _ => False) r) : (∃ a, r.1 = .ok a) ↔ ¬False :=
  answers_iff (I := I) (h.mono (fun _ _ ht => ⟨ht, not_false⟩) fun _ => id)

theorem removable_atTime {i : ℕ} {now : ℕ → ℕ} : Removable (t.atTime now) i ↔ Removable t i :=
  ⟨fun hr => hr.of_names rfl rfl, fun hr => hr.of_names rfl rfl⟩

theorem removesItself_atTime {p : ℕ} {name : String} {now : ℕ → ℕ} :
    RemovesItself (t.atTime now) p name ↔ RemovesItself t p name := by
  unfold RemovesItself
  rw [removable_atTime]
  rfl

variable (cfg) in
/-- **A call on a name** answers unless it comes to one of the three cases. -/
theorem runCall_answers_iff (h : t.Settled left) (hp : t.pending = []) (hname : s.call.onName)
    (hcause : t.hasCause s.call) : (∃ r, (t.runCall cfg s).1 = .ok r) ↔ ¬s.call.IsFatal t := by
  obtain ⟨call, now⟩ := s
  have h' : (t.atTime now).Settled left := h.later now
  have hnp : ∀ i, ¬(t.atTime now).names.Pending i := Names.not_pending hp
  cases call with
  | doLookup p name found => exact answers_iff (doLookup_ok cfg h' (hnp p))
  | doMkDir p basename found => exact answers_of_ends (doMkDir_ok cfg h' (hnp p))
  | doUnlink p basename found => exact answers_of_ends (doUnlink_ok cfg h' (hnp p))
  | finishPendingDelete i =>
      exact answers_iff (finishPendingDelete_ok cfg h' (List.contains_iff_mem.mp hcause))
  | doRmDir p basename found =>
      have hends : EndsIn
          (fun _ t' => t'.Settled left ∧ ¬RemovesItself (t.atTime now) p basename)
          (fun _ => RemovesItself (t.atTime now) p basename)
          (runs (doRmDir cfg p basename found) (t.atTime now)) :=
        (doRmDir_ok cfg h' (hnp p)).mono
          (fun _ _ ht => ⟨ht.1, not_self_of_answers h' ht.2⟩) fun _ => id
      exact (answers_iff hends).trans (not_congr removesItself_atTime)
  | _ => cases hname

/-- **In every state that a run reaches**, a call on a name answers if and only
if it comes to none of the three cases. -/
theorem answers_iff_of_run {n : ℕ} (hrun : exec (step cfg) (initial n) steps = some t)
    (hname : s.call.onName) (hcause : t.hasCause s.call) :
    (∃ r, (t.runCall cfg s).1 = .ok r) ↔ ¬s.call.IsFatal t := by
  have h : t.Settled True := settled_of_run (.inl trivial) hrun
  exact runCall_answers_iff cfg h (pending_of_run hrun) hname hcause

/-- A backend with a directory. -/
def mountAndMkDir : List TreeStep :=
  [⟨.mount "b" false, id⟩, ⟨.doMkDir 3 "d" .nothing, id⟩]

/-- The directory can be looked up. -/
theorem mountAndMkDir_answers : ∃ t, exec (step anyTimes) (initial 0) mountAndMkDir = some t ∧
    ∃ r, (t.runCall anyTimes ⟨.doLookup 3 "d" .nothing, id⟩).1 = .ok r := by
  obtain ⟨t, hrun, htype⟩ : ∃ t, exec (step anyTimes) (initial 0) mountAndMkDir = some t ∧
      (t.inode 3).inodeType = .BackendRootDir := exec_exists (by decide +kernel)
  refine ⟨t, hrun, (answers_iff_of_run hrun rfl rfl).mpr ?_⟩
  rintro ⟨-, ⟨hroot, -⟩ | ⟨-, hname, -⟩⟩
  · exact nomatch htype.symm.trans hroot
  · exact absurd hname (by decide)

/-- The root by its own name, the root by that of the backend, and a directory
that is removed by its dot. -/
theorem mountAndMkDir_fatal : ∃ t, exec (step anyTimes) (initial 0) mountAndMkDir = some t ∧
    (∀ r, (t.runCall anyTimes ⟨.doLookup 1 "." .nothing, id⟩).1 ≠ .ok r) ∧
    (∀ r, (t.runCall anyTimes ⟨.doLookup 3 ".." .nothing, id⟩).1 ≠ .ok r) ∧
    ∀ r, (t.runCall anyTimes ⟨.doRmDir 4 "." .nothing, id⟩).1 ≠ .ok r := by
  obtain ⟨t, hrun, h₁, h₂, h₃⟩ : ∃ t, exec (step anyTimes) (initial 0) mountAndMkDir = some t ∧
      (t.runCall anyTimes ⟨.doLookup 1 "." .nothing, id⟩).1.isOk = false ∧
      (t.runCall anyTimes ⟨.doLookup 3 ".." .nothing, id⟩).1.isOk = false ∧
      (t.runCall anyTimes ⟨.doRmDir 4 "." .nothing, id⟩).1.isOk = false :=
    exec_exists (by decide +kernel)
  refine ⟨t, hrun, fun r hr => ?_, fun r hr => ?_, fun r hr => ?_⟩
  · rw [hr] at h₁
    cases h₁
  · rw [hr] at h₂
    cases h₂
  · rw [hr] at h₃
    cases h₃

end FileTree

end MultiStorageFileSystem
