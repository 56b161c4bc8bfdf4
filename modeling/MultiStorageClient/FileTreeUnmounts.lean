/-
MultiStorageClient/FileTreeUnmounts.lean

What is left of a backend when it is unmounted.

`emptyChildInodes` finds every inode of the backend, as they hang together, and
its entries; but not the dots of a directory that is gone already.  Nobody looks
at the handles and the cache lines.
-/
import MultiStorageClient.FileTreeRuns

namespace MultiStorageFileSystem

open Prog Run TreeSection

namespace FileTree

/-- The inode is, or was, one of the backend's. -/
def OfBackend (t : FileTree) (nonce i : ℕ) : Prop := (t.inode i).backendNonce = nonce

/-- The cache line holds, or is to hold, a part of a file of the backend. -/
def LineOf (t : FileTree) (nonce : ℕ) (line : TreeLine) : Prop :=
  (line.state = .inbound ∨ line.state = .clean) ∧ t.OfBackend nonce line.inodeNumber

/-- From `t` to `t'` the state of a backend goes, and nothing else. -/
structure BackendRemoved (nonce : ℕ) (t t' : FileTree) : Prop where
  inode : t'.inode = t.inode
  inodeMap : ∀ i, t'.inodeMap i ↔ t.inodeMap i ∧ ¬t.OfBackend nonce i
  entry : ∀ b d name i, t'.names.entry b d name = some i ↔
    t.names.entry b d name = some i ∧ ¬t.OfBackend nonce d ∧ ¬t.OfBackend nonce i
  xTime : t'.xTime = t.xTime
  queue : ∀ x i, t'.inodeEvictionQueue.get (toLex (x, i)) = some () ↔
    t.inodeEvictionQueue.get (toLex (x, i)) = some () ∧ ¬t.OfBackend nonce i
  lines : ∀ (l : ℕ) line, t'.globals.dataCacheLinesTracker[l]? = some line → ¬t.LineOf nonce line
  otherLines :
    ∀ (l : ℕ) line, t.globals.dataCacheLinesTracker[l]? = some line → ¬t.LineOf nonce line →
    t'.globals.dataCacheLinesTracker[l]? = some line
  handles : ∀ fh h, t'.globals.fhMap fh = some h ↔
    t.globals.fhMap fh = some h ∧ ¬t.OfBackend nonce h.inode
  backends : t'.globals.backendMap = Function.update t.globals.backendMap nonce none

/-- No handle and no cache line has to do with the backend, and no directory that
is gone has left dots that have. -/
structure NothingInUse (nonce : ℕ) (t : FileTree) : Prop where
  handles : ∀ fh h, t.globals.fhMap fh = some h → ¬t.OfBackend nonce h.inode
  lines : ∀ (l : ℕ) line, t.globals.dataCacheLinesTracker[l]? = some line → ¬t.LineOf nonce line
  dots : ∀ d name i, t.virtGet d name = some i → t.OfBackend nonce d ∨ t.OfBackend nonce i →
    t.inodeMap d

end FileTree

namespace TreeSection

open FileTree

variable {left : Prop} {nonce : ℕ} {b : Backend} {R : ℕ → Prop} {t t₁ t' : FileTree}

/-- After an unmount the inodes of the backend are gone, and no others. -/
theorem Unmounted.inodeMap (hu : Unmounted nonce b R t t₁ t') (h : t.Settled left)
    (h' : t'.Settled left) (hb : t.globals.backendMap nonce = some b) (hp : t.pending = [])
    (i : ℕ) :
    t'.inodeMap i ↔ t.inodeMap i ∧ ¬t.OfBackend nonce i := by
  obtain ⟨hpres, htype, hnonce, -⟩ := h.names.mounted nonce b hb
  have hmap : t'.inodeMap i = Function.update t₁.inodeMap b.inode false i :=
    congrFun (congrArg Names.inodeMap hu.names) i
  have hinode : t'.inode = t.inode := (congrArg Names.inode hu.names).trans hu.pruned.inode
  constructor
  · intro hi
    refine ⟨?_, fun hof => ?_⟩
    · rw [hmap, Function.update_apply] at hi
      split at hi
      · cases hi
      · exact ((hu.pruned.inodeMap i).mp hi).1
    · -- an inode that is there has a backend that is
      have hroot : i ≠ FUSERootDirInodeNumber := by
        rintro rfl
        have hzero :=
          (h.names.backend b.inode hpres (h.names.notRoot_of_type (by rw [htype]; nofun))
          (h.names.not_pending_of_isDir (by
            unfold Names.isDir
            rw [htype]
            nofun))).1
        rw [hnonce] at hzero
        exact hzero (hof.symm.trans h.names.rootInode.2.2)
      have hnp : ¬t'.names.Pending i := Names.not_pending
        ((congrArg Names.pending hu.names).trans (hu.pruned.pending.trans hp)) i
      have hsome := (h'.names.backend i hi hroot hnp).2
      rw [show (t'.names.inode i).backendNonce = nonce by
        rw [show t'.names.inode = t.inode from hinode]; exact hof,
        show t'.names.backendMap = _ from congrArg Names.backendMap hu.names] at hsome
      change (Function.update t.globals.backendMap nonce none nonce).isSome at hsome
      rw [Function.update_self] at hsome
      cases hsome
  · rintro ⟨hi, hof⟩
    have hne : i ≠ b.inode := by
      rintro rfl
      exact hof hnonce
    rw [hmap, Function.update_of_ne hne]
    exact (hu.pruned.inodeMap i).mpr ⟨hi, fun hr => hof ((hu.pruned.below i hr).2.2.trans hnonce)⟩

theorem Unmounted.entry_eq (hu : Unmounted nonce b R t t₁ t') (v : Bool) (d : ℕ) (name : String) :
    t'.names.entry v d name = if v = (t.inode b.inode).isVirt ∧
      d = (t.inode b.inode).parentInodeNumber ∧ name = (t.inode b.inode).basename then none
    else t₁.names.entry v d name := by
  rw [hu.names, ← hu.pruned.inode]
  rfl

/-- The other directories keep their entries. -/
theorem Unmounted.entry_kept (hu : Unmounted nonce b R t t₁ t') (h : t.Settled left)
    (hb : t.globals.backendMap nonce = some b) {v : Bool} {d i : ℕ} {name : String}
    (hd : d ≠ b.inode) (hR : ¬R d) (hent : t.names.entry v d name = some i)
    (hi : i = b.inode → ¬t.inodeMap d) : t'.names.entry v d name = some i := by
  obtain ⟨hpres, htype, -⟩ := h.names.mounted nonce b hb
  have hroot : b.inode ≠ FUSERootDirInodeNumber := h.names.notRoot_of_type (by rw [htype]; nofun)
  have hnp := h.names.not_pending_of_isDir (i := b.inode) (by
    unfold Names.isDir
    rw [htype]
    nofun)
  have hkey := (h.names.entered b.inode hpres hroot hnp).1
  rw [hu.entry_eq, if_neg, hu.pruned.kept v d name hd hR]
  · exact hent
  · rintro ⟨rfl, rfl, rfl⟩
    have hsame : some b.inode = some i := hkey.symm.trans hent
    exact hi (Option.some.inj hsame).symm (h.names.parent b.inode hpres hroot hnp).1

/-- An unmount makes no entry. -/
theorem Unmounted.entry_old (hu : Unmounted nonce b R t t₁ t') {v : Bool} {d i : ℕ}
    {name : String} (hent : t'.names.entry v d name = some i) :
    t.names.entry v d name = some i ∧ d ≠ b.inode ∧ ¬R d := by
  rw [hu.entry_eq] at hent
  split at hent
  · cases hent
  · have hd : d ≠ b.inode := by
      rintro rfl
      rw [hu.empty] at hent
      cases hent
    have hR : ¬R d := fun hr => by
      rw [hu.pruned.gone v d name hr] at hent
      cases hent
    rw [hu.pruned.kept v d name hd hR] at hent
    exact ⟨hent, hd, hR⟩

/-- The entries of the backend go, but for those of directories that were gone. -/
theorem Unmounted.entry_iff (hu : Unmounted nonce b R t t₁ t') (h : t.Settled left)
    (h' : t'.Settled left) (hb : t.globals.backendMap nonce = some b) (hp : t.pending = []) :
    (∀ v d name i, t'.names.entry v d name = some i ↔
      t.names.entry v d name = some i ∧ ¬t.OfBackend nonce d ∧ ¬t.OfBackend nonce i) ↔
    ∀ d name i, t.virtGet d name = some i → t.OfBackend nonce d ∨ t.OfBackend nonce i →
      t.inodeMap d := by
  have hmap := hu.inodeMap h h' hb hp
  have hinode : t'.inode = t.inode := (congrArg Names.inode hu.names).trans hu.pruned.inode
  obtain ⟨hpres, -, hnonce, -⟩ := h.names.mounted nonce b hb
  have hpend : ∀ i, ¬t'.names.Pending i := Names.not_pending
    ((congrArg Names.pending hu.names).trans (hu.pruned.pending.trans hp))
  constructor
  · intro hiff d name i hent hof
    by_contra hd
    -- the entry of a directory that is gone is still there
    have hold : t'.names.entry true d name = some i := by
      refine hu.entry_kept h hb (fun heq => hd (heq ▸ hpres))
        (fun hr => hd (hu.pruned.below d hr).2.1) hent fun _ => hd
    obtain ⟨-, h₁, h₂⟩ := (hiff true d name i).mp hold
    exact hof.elim h₁ h₂
  · intro hdots v d name i
    constructor
    · intro hent
      obtain ⟨hold, hne, hR⟩ := hu.entry_old hent
      rw [← not_or, and_iff_right hold]
      intro hof
      have hd : t.inodeMap d := by
        cases v with
        | true => exact hdots d name i hold hof
        | false =>
            obtain ⟨h₁, h₂, h₃, rfl, -⟩ := h.names.entry _ _ _ _ hold nofun
            exact (h.names.parent i h₁ h₂ h₃).1
      have hd' : t'.inodeMap d := by
        rw [show t'.inodeMap = _ from congrArg Names.inodeMap hu.names]
        change Function.update t₁.inodeMap b.inode false d = true
        rw [Function.update_of_ne hne]
        exact (hu.pruned.inodeMap d).mpr ⟨hd, hR⟩
      have hi' : t'.inodeMap i := by
        by_cases hdot : v = true → ¬IsDot name
        · exact (h'.names.entry v d name i hent hdot).1
        · obtain ⟨rfl, hname⟩ : v = true ∧ IsDot name := by
            simpa only [Classical.not_imp, not_not] using hdot
          obtain ⟨-, -, hself, hup⟩ := h'.names.dotEntry d name i hent hname
          rcases hname with hname | hname
          · rw [hself hname]
            exact hd'
          · rw [hup hname]
            by_cases hroot : d = FUSERootDirInodeNumber
            · rw [hroot, h'.names.rootInode.2.1]
              exact h'.names.root
            · exact (h'.names.parent d hd' hroot (hpend d)).1
      exact hof.elim ((hmap d).mp hd').2 ((hmap i).mp hi').2
    · rintro ⟨hent, hd, hi⟩
      refine hu.entry_kept h hb (fun heq => hd (heq ▸ hnonce))
        (fun hr => hd ((hu.pruned.below d hr).2.2.trans hnonce)) hent fun heq => absurd
          (heq ▸ hnonce) hi

/-- What is unmounted leaves nothing behind if nothing is in use. -/
theorem Unmounted.removed_iff {now : ℕ → ℕ} (hu : Unmounted nonce b R (t.atTime now) t₁ t')
    (h : t.Settled left) (h' : t'.Settled left) (hb : t.globals.backendMap nonce = some b)
    (hp : t.pending = []) : BackendRemoved nonce t t' ↔ NothingInUse nonce t := by
  have h₀ : (t.atTime now).Settled left := h.later now
  have hmap := hu.inodeMap h₀ h' hb hp
  have hentry := hu.entry_iff h₀ h' hb hp
  have hinode : t'.inode = t.inode := (congrArg Names.inode hu.names).trans hu.pruned.inode
  have hx : t'.xTime = t.xTime := hu.xTime.trans hu.pruned.xTime
  have hfh : t'.globals.fhMap = t.globals.fhMap := by
    rw [hu.globals]
    rfl
  have hlines : t'.globals.dataCacheLinesTracker = t.globals.dataCacheLinesTracker := by
    rw [hu.globals]
    rfl
  constructor
  · intro hr
    refine ⟨fun fh f hf => ?_, fun l line hl => ?_, hentry.mp hr.entry⟩
    · rw [← hfh] at hf
      exact ((hr.handles fh f).mp hf).2
    · rw [← hlines] at hl
      exact hr.lines l line hl
  · intro hn
    refine ⟨hinode, hmap, hentry.mpr hn.dots, hx, fun x i => ?_, fun l line hl => ?_,
      fun l line hl _ => ?_, fun fh f => ?_, ?_⟩
    · rw [h'.queue x i, h.queue x i, hx, hmap i]
      exact and_right_comm
    · rw [hlines] at hl
      exact hn.lines l line hl
    · rw [hlines]
      exact hl
    · rw [hfh]
      exact ⟨fun hf => ⟨hf, hn.handles fh f hf⟩, And.left⟩
    · rw [hu.globals]
      rfl

end TreeSection

namespace FileTree

variable {cfg : TreeConfig} {t : FileTree} {n nonce : ℕ} {b : Backend} {steps : List TreeStep}

/-- **Unmounting** does not end the process, and removes the state of the backend
and nothing else if and only if nothing of it is in use. -/
theorem unmount_removes_iff (hrun : exec (step cfg) (initial n) steps = some t)
    (hb : t.globals.backendMap nonce = some b) (now : ℕ → ℕ) :
    ∃ t', t.step cfg ⟨.unmount nonce, now⟩ = some t' ∧
      (BackendRemoved nonce t t' ↔ NothingInUse nonce t) := by
  have h : t.Settled True := settled_of_run (.inl trivial) hrun
  obtain ⟨t₁, t', R, hruns, hu, h'⟩ := unmount_runs (t := t.atTime now) (h.later now) hb le_rfl
  refine ⟨t', ?_, hu.removed_iff h h' hb (pending_of_run hrun)⟩
  have henabled : t.Enabled (.unmount nonce) :=
    ⟨fun i hi => (nomatch hi), congrArg Option.isSome hb⟩
  unfold step
  rw [if_pos henabled, show t.runCall cfg ⟨.unmount nonce, now⟩ = _ from hruns]

/-- A backend with a file that has been looked up, and with a new directory. -/
def lookupAndMkDir : List TreeStep :=
  [⟨.mount "b" false, id⟩, ⟨.doLookup 3 "f" (.file ⟨5, "e", 1⟩), id⟩,
    ⟨.doMkDir 3 "d" .nothing, id⟩]

/-- The theorem at a backend with a looked-up and a made directory. -/
theorem lookupAndMkDir_removed : ∃ t t', exec (step anyTimes) (initial 1) lookupAndMkDir = some t ∧
    t.step anyTimes ⟨.unmount 2, id⟩ = some t' ∧ BackendRemoved 2 t t' := by
  obtain ⟨t, hrun, hb, hlines, hdots⟩ : ∃ t,
      exec (step anyTimes) (initial 1) lookupAndMkDir = some t ∧
      (t.globals.backendMap 2).isSome = true ∧
      (∀ line ∈ t.globals.dataCacheLinesTracker, line.state = .free) ∧
      ∀ e ∈ t.virtChildDirEntryMap.entries, t.inodeMap (ofLex e.1).1 = true :=
    exec_exists (by decide +kernel)
  -- nothing was opened
  have hnone : (exec (step anyTimes) (initial 1) lookupAndMkDir).map (fun t => t.globals.fhMap) =
      some fun _ => none := rfl
  rw [hrun] at hnone
  have hfh : t.globals.fhMap = fun _ => none := Option.some.inj hnone
  obtain ⟨b, hb⟩ := Option.isSome_iff_exists.mp hb
  obtain ⟨t', hstep, hiff⟩ := unmount_removes_iff hrun hb id
  refine ⟨t, t', hrun, hstep, hiff.mpr ⟨fun fh h hf => ?_, fun l line hl => ?_, ?_⟩⟩
  · rw [hfh] at hf
    cases hf
  · rintro ⟨hstate, -⟩
    rw [hlines line (List.mem_of_getElem? hl)] at hstate
    exact hstate.elim nofun nofun
  · exact fun d name i hget _ => hdots _ (SortedMap.get_eq_some.mp hget)

/-- A file that is open, with a cache line. -/
def openAndRead : List TreeStep :=
  [⟨.mount "b" false, id⟩, ⟨.doLookup 3 "f" (.file ⟨5, "e", 1⟩), id⟩, ⟨.doOpen 4 false .RDONLY, id⟩,
    ⟨.allocateDataCacheLine 0, id⟩, ⟨.doRead 4 5 (some 0), id⟩, ⟨.fetch 0 true, id⟩]

/-- The handle and the line stay when the backend is unmounted. -/
theorem unmount_leaves_handle : ∃ t t', exec (step anyTimes) (initial 1) openAndRead = some t ∧
    t.step anyTimes ⟨.unmount 2, id⟩ = some t' ∧ t'.inodeMap 4 = false ∧
    (t'.globals.fhMap 5).any (fun h => h.inode = 4) = true ∧
    t'.globals.dataCacheLinesTracker = [⟨.clean, 4⟩] ∧ ¬BackendRemoved 2 t t' := by
  obtain ⟨t', hrun', hgone, hfh, hline, hnonce⟩ : ∃ t',
      exec (step anyTimes) (initial 1) (openAndRead ++ [⟨.unmount 2, id⟩]) = some t' ∧
      t'.inodeMap 4 = false ∧ (t'.globals.fhMap 5).any (fun h => h.inode = 4) = true ∧
      t'.globals.dataCacheLinesTracker = [⟨.clean, 4⟩] ∧ (t'.inode 4).backendNonce = 2 :=
    exec_exists (by decide +kernel)
  obtain ⟨t, hrun, hstep⟩ := exec_snoc.mp hrun'
  refine ⟨t, t', hrun, hstep, hgone, hfh, hline, fun hr => ?_⟩
  refine hr.lines 0 ⟨.clean, 4⟩ (by rw [hline]; rfl) ⟨.inr rfl, ?_⟩
  unfold OfBackend
  rw [← hr.inode]
  exact hnonce

end FileTree

end MultiStorageFileSystem
