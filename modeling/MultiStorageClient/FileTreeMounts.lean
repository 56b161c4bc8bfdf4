/-
MultiStorageClient/FileTreeMounts.lean

Mounting and unmounting a backend, run alone.
-/
import MultiStorageClient.FileTreeRemoves
import MultiStorageClient.FileTreeBackground

namespace MultiStorageFileSystem

open Prog

/-! ### The inodes of a backend -/

/-- The inodes of a backend hang at its own. -/
theorem NamesOk.nonce_ne_of_emptied {bare : ℕ → Prop} {n : Names} {b : Backend} {nonce : ℕ}
    (h : NamesOk bare n) (hb : n.backendMap nonce = some b)
    (hnone : ∀ v name, n.entry v b.inode name = none) (j : ℕ) (hj : n.inodeMap j)
    (hne : j ≠ b.inode) (hnp : ¬n.Pending j) : (n.inode j).backendNonce ≠ nonce := by
  induction j using Nat.strong_induction_on with
  | _ j ih =>
      intro hnonce
      obtain ⟨hbi, hbtype, hbnonce, -⟩ := h.mounted nonce b hb
      have hbroot := h.notRoot_of_type (i := b.inode) (by rw [hbtype]; nofun)
      have hbnp := h.not_pending_of_isDir (i := b.inode) (by
        unfold Names.isDir
        rw [hbtype]
        nofun)
      have hzero := (h.backend b.inode hbi hbroot hbnp).1
      rw [hbnonce] at hzero
      have hroot : j ≠ FUSERootDirInodeNumber := by
        rintro rfl
        exact hzero (hnonce.symm.trans h.rootInode.2.2)
      obtain ⟨hpar, hdir, hlt⟩ := h.parent j hj hroot hnp
      -- the parent belongs to the backend too
      have hup : (n.inode (n.inode j).parentInodeNumber).backendNonce = (n.inode j).backendNonce →
          False := by
        intro hsame
        refine ih _ hlt hpar ?_ (h.not_pending_of_isDir hdir) (hsame.trans hnonce)
        intro hp
        have hent := (h.entered j hj hroot hnp).1
        rw [hp, hnone] at hent
        cases hent
      cases htype : (n.inode j).inodeType with
      | FileObject => exact hup (h.fileParent j hj htype hnp).2
      | PseudoDir => exact hup (h.pseudo j htype).2.2.2.2.2
      | FUSERootDir => exact hroot (h.root_unique j hj htype)
      | BackendRootDir =>
          obtain ⟨b', hb', hinode, -⟩ := (h.backendRoot j hj htype).2.2
          rw [hnonce, hb] at hb'
          cases hb'
          exact hne hinode.symm

/-- The inodes of a backend that are gone with it. -/
theorem CallsOk.unmounted {n : Names} {g : Globals} (h : CallsOk n g) (n' : Names) (nonce : ℕ)
    (hn : n'.nonces = n.nonces) (hi : n'.inode = n.inode) (hpd : n'.pending = n.pending)
    (hb : n'.backendMap = Function.update n.backendMap nonce none) (hlt : nonce < n.nonces.head)
    (hmap : ∀ i, n'.inodeMap i → n.inodeMap i)
    (hgone : ∀ i, n.inodeMap i → ¬n'.inodeMap i → (n.inode i).backendNonce = nonce) :
    CallsOk n' { g with backendMap := n'.backendMap } := by
  -- an inode is there, or it is of a backend that is gone
  have hlives : ∀ {i} {alive : Prop}, Lives n i alive → Lives n' i alive := by
    rintro i alive (⟨hpres, halive⟩ | ⟨hnot, hback, hnonce⟩)
    · by_cases hi' : n'.inodeMap i
      · exact .inl ⟨hi', halive⟩
      · refine .inr ⟨hi', ?_, ?_⟩
        · rw [hi, hgone i hpres hi', hb, Function.update_self]
        · rw [hi, hn, hgone i hpres hi']
          exact hlt
    · refine .inr ⟨fun hpres => hnot (hmap i hpres), ?_, by rw [hi, hn]; exact hnonce⟩
      rw [hi, hb]
      by_cases heq : (n.inode i).backendNonce = nonce
      · rw [heq, Function.update_self]
      · rw [Function.update_of_ne heq]
        exact hback
  have hdir : ∀ i, n'.isDir i = n.isDir i := fun i => by
    unfold Names.isDir
    rw [hi]
  have hpend : n'.Pending = n.Pending := by
    unfold Names.Pending
    rw [hpd]
  refine ⟨fun i fh hpres => h.handle i fh (hmap i hpres), h.handle_nodup, h.pages,
    fun fh f hf hl => ?_, fun p hp => ?_, fun i hi' => ?_, h.pendingDelete_nodup,
    fun i hpres => h.lines i (hmap i hpres)⟩
  · obtain ⟨h₁, h₂, h₃, h₄⟩ := h.listing fh f hf hl
    rw [hn, hdir]
    exact ⟨h₁, h₂, h₃, hlives h₄⟩
  · rw [hn, hdir]
    exact h.prefetch p hp
  · obtain ⟨h₁, h₂, h₃, h₄⟩ := h.pendingDelete i hi'
    rw [hn, hi, hpend]
    exact ⟨h₁, h₂, h₃, hlives h₄⟩

namespace TreeSection

open FileTree

variable (cfg : TreeConfig) {left : Prop} {off : ℕ → Prop} {t t' : FileTree} {i d p : ℕ}
  {name : String}

/-! ### Mounting -/

/-- The root has no phys entries. -/
theorem root_phys_none {bare : ℕ → Prop} {n : Names} (h : NamesOk bare n) (name : String) :
    n.entry false FUSERootDirInodeNumber name = none := by
  by_contra hne
  obtain ⟨i, hi⟩ := Option.ne_none_iff_exists'.mp hne
  obtain ⟨hpres, hroot, hnp, hpar, -, hvirt⟩ := h.entry _ _ _ _ hi fun hb => nomatch hb
  cases htype : (n.inode i).inodeType with
  | FileObject => exact (h.fileParent i hpres htype hnp).1 hpar
  | FUSERootDir => exact hroot (h.root_unique i hpres htype)
  | BackendRootDir =>
      rw [(h.backendRoot i hpres htype).2.1] at hvirt
      cases hvirt
  | PseudoDir => exact (h.pseudo i htype).2.2.1 hpar

/-- The inode of a backend. -/
def backendRootInode (nonce : ℕ) (dirName : String) (mTime : ℕ) : Inode where
  inodeType := .BackendRootDir
  backendNonce := nonce
  parentInodeNumber := FUSERootDirInodeNumber
  isVirt := true
  objectPath := ""
  basename := dirName
  info := ⟨0, "", mTime⟩

/-- A backend is mounted with its inode. -/
theorem mounted_ok {ino : Inode} {b : Backend} {mTime : ℕ} (h : t.Settled left)
    (hino : ino = backendRootInode t.nonces.head b.dirName mTime)
    (hfree : t.virtGet FUSERootDirInodeNumber b.dirName = none)
    (hb : b.inode = t.nonces.tail.head) :
    ((({ t with nonces := t.nonces.tail } : FileTree).created ino).modify fun g =>
      g.setBackend t.nonces.head (some b)).Settled left := by
  have hlt := NamesOk.head_lt_tail t.nonces
  have h₁ : ({ t with nonces := t.nonces.tail } : FileTree).Settled left := skip_ok h
  generalize hm : Function.update t.globals.backendMap t.nonces.head (some b) = m
  have hnone : t.globals.backendMap t.nonces.head = none := by
    by_contra hne
    obtain ⟨b', hb'⟩ := Option.ne_none_iff_exists'.mp hne
    exact absurd (h.names.mounted _ _ hb').2.2.2 (lt_irrefl _)
  have hroot := h.names.root_lt
  have c : NamesOk.Creates NoneBare t.names.skip ino m := by
    subst hino
    refine ⟨h.names.root, ?_, id, fun v => ?_, .inr ⟨rfl, rfl, rfl, hnone, ?_, hlt, b, hm.symm, hb,
      rfl⟩⟩
    · show (t.names.inode FUSERootDirInodeNumber).inodeType ≠ _
      rw [h.names.rootInode.1]
      nofun
    · cases v
      · exact root_phys_none h.names _
      · exact hfree
    · exact (Nat.zero_lt_of_lt hroot).ne'
  have hr : Renamed ({ t with nonces := t.nonces.tail } : FileTree)
      ((({ t with nonces := t.nonces.tail } : FileTree).created ino).modify fun g =>
        g.setBackend t.nonces.head (some b)) (t.names.skip.create ino m) m := by
    have hr := renamed_created ({ t with nonces := t.nonces.tail } : FileTree) ino
    obtain ⟨now, hg⟩ := hr.globals
    refine ⟨?_, hr.xTime, hr.queue, now, ?_⟩
    · have hback : (({ t with nonces := t.nonces.tail } : FileTree).created ino).globals.backendMap
          = t.globals.backendMap := by rw [hg]
      show { (({ t with nonces := t.nonces.tail } : FileTree).created ino).names with
        backendMap := Function.update (({ t with nonces := t.nonces.tail } : FileTree).created
          ino).globals.backendMap t.nonces.head (some b) } = _
      rw [hr.names, hback, hm]
      unfold Names.create
      dsimp only
      split <;> rfl
    · show (({ t with nonces := t.nonces.tail } : FileTree).created ino).globals.setBackend _ _ = _
      rw [hg, ← hm]
      rfl
  have hcreate := h₁.toTreeOk.create c hr
  refine ⟨{ hcreate with idle := fun j hj hx ho => ?_ }, ?_⟩
  · refine hcreate.idle j hj hx fun hoff => hoff.elim id fun heq => hx ?_
    -- the root is never in the queue
    rw [hr.xTime]
    subst hino
    by_contra hne
    have hidle := h.idle j (by rw [heq]; exact h.names.root) hne id
    unfold Idle at hidle
    rw [heq, show (backendRootInode t.nonces.head b.dirName mTime).parentInodeNumber =
      FUSERootDirInodeNumber from rfl, h.names.rootInode.1] at hidle
    exact hidle
  · obtain ⟨now, hg⟩ := hr.globals
    rw [hr.names, hg]
    refine h.calls.create .skip (h₁.blank _ (.inl (NamesOk.head_not_given _))).2 ?_ now
    intro nonce hlt hnonce
    have hne : nonce ≠ t.nonces.head := hlt.ne
    rw [← hm, Function.update_of_ne hne]
    exact hnonce

/-- **`processToMountList`** mounts a backend, unless its name is taken. -/
theorem mount_ok {dirName : String} {readOnly : Bool} (h : t.Settled left) :
    EndsIn (fun _ t' => t'.Settled left) (fun _ => True) (runs (mount dirName readOnly) t) := by
  have h₀ : (t.modify Globals.later).Settled left := h.later _
  generalize ht₀ : t.modify Globals.later = t₀ at h₀
  have h₁ : ({ t₀ with nonces := t₀.nonces.tail } : FileTree).Settled left := skip_ok h₀
  have hmap : t₀.inodeMap t₀.nonces.tail.head = false := inodeMap_head h₁
  have hne : t₀.nonces.tail.head ≠ FUSERootDirInodeNumber :=
    (h₁.names.ne_head h₁.names.root).symm
  unfold mount timeNow
  simp only [runs_bind, runs_globals, runs_modify, runs_pure, andThen_ok, runs_fetchNonce, ht₀,
    runs_inodePut, hmap, Bool.false_eq_true, if_false, runs_orFatalf_true, runs_virtPut]
  split
  · simp only [andThen_ok, runs_bind, runs_orFatalf_false, andThen_error]
    trivial
  next htaken =>
    have hfree : t₀.virtGet FUSERootDirInodeNumber dirName = none :=
      Option.not_isSome_iff_eq_none.mp htaken
    have hnew : ∀ dot, t₀.virtGet t₀.nonces.tail.head dot = none := fun dot =>
      h₁.names.entry_head (b := true)
    have hdotdot : DotDotDirEntryBasename ≠ DotDirEntryBasename := by decide
    have hvirt : ∀ {t' : FileTree} {name dot : String} {j : ℕ},
        (t'.virtPut FUSERootDirInodeNumber name j).virtGet t₀.nonces.tail.head dot =
          t'.virtGet t₀.nonces.tail.head dot := fun {t' name dot j} =>
      virtGet_virtPut.trans (if_neg fun hc => hne hc.1)
    have hold : ∀ {ino dot}, (({ t₀ with nonces := t₀.nonces.tail.tail } : FileTree).inodePut
        t₀.nonces.tail.head ino).virtGet t₀.nonces.tail.head dot = none := fun {_ dot} => hnew dot
    simp only [andThen_ok, runs_orFatalf_true, runs_bind, runs_virtPut, hvirt, hold,
      Option.isSome_none, Bool.false_eq_true, if_false, virtGet_virtPut, hdotdot, and_false,
      runs_modify, runs_pure]
    exact mounted_ok (b := ⟨dirName, readOnly, t₀.nonces.tail.head⟩) h₀ rfl hfree rfl

/-! ### Emptying a directory -/

/-- The inodes in `R` are gone, with their entries; the entries of `p` are
another matter. -/
structure Pruned (p : ℕ) (R : ℕ → Prop) (t t' : FileTree) : Prop where
  nonces : t'.nonces = t.nonces
  inode : t'.inode = t.inode
  pending : t'.pending = t.pending
  inodeMap : ∀ i, t'.inodeMap i ↔ t.inodeMap i ∧ ¬R i
  kept : ∀ b d name, d ≠ p → ¬R d → t'.names.entry b d name = t.names.entry b d name
  gone : ∀ b d name, R d → t'.names.entry b d name = none
  below : ∀ i, R i → p < i ∧ t.inodeMap i ∧
    (t.inode i).backendNonce = (t.inode p).backendNonce
  xTime : t'.xTime = t.xTime
  queue : ∀ x j, t'.inodeEvictionQueue.get (toLex (x, j)) = some () ↔
    ¬R j ∧ t.inodeEvictionQueue.get (toLex (x, j)) = some ()
  globals : t'.globals = t.globals
  /-- so the range of `p` stays where it is -/
  before : ∀ k < toLex (p, ""), (∀ s, (t'.physShards s).get k = (t.physShards s).get k) ∧
    t'.virtChildDirEntryMap.get k = t.virtChildDirEntryMap.get k

theorem Pruned.refl : Pruned p (fun _ => False) t t := by
  refine ⟨rfl, rfl, rfl, fun i => ?_, fun _ _ _ _ _ => rfl, fun _ _ _ h => h.elim,
    fun _ h => h.elim, rfl, fun x j => ?_, rfl, fun _ _ => ⟨fun _ => rfl, rfl⟩⟩
  · rw [not_false_eq_true, and_true]
  · rw [not_false_eq_true, true_and]

/-- Two prunings take the inodes of both. -/
theorem Pruned.trans {R R' : ℕ → Prop} {t'' : FileTree} (h : Pruned p R t t')
    (h' : Pruned p R' t' t'') : Pruned p (fun i => R i ∨ R' i) t t'' := by
  refine ⟨h'.nonces.trans h.nonces, h'.inode.trans h.inode, h'.pending.trans h.pending,
    fun i => ?_, fun b d name hd hR => ?_, fun b d name hR => ?_, fun i hR => ?_,
    h'.xTime.trans h.xTime, fun x j => ?_, h'.globals.trans h.globals, fun k hk =>
    ⟨fun s => ((h'.before k hk).1 s).trans ((h.before k hk).1 s),
      (h'.before k hk).2.trans (h.before k hk).2⟩⟩
  · rw [h'.inodeMap, h.inodeMap, not_or, and_assoc]
  · rw [h'.kept b d name hd fun hr => hR (.inr hr), h.kept b d name hd fun hr => hR (.inl hr)]
  · by_cases hr' : R' d
    · exact h'.gone b d name hr'
    · have hr := hR.resolve_right hr'
      rw [h'.kept b d name (h.below d hr).1.ne' hr']
      exact h.gone b d name hr
  · rcases hR with hr | hr
    · exact h.below i hr
    · obtain ⟨h₁, h₂, h₃⟩ := h'.below i hr
      rw [h.inode] at h₃
      exact ⟨h₁, ((h.inodeMap i).mp h₂).1, h₃⟩
  · rw [h'.queue, h.queue, not_or, ← and_assoc, and_comm (a := ¬R' j)]

/-- The keys before those of a directory. -/
theorem deleteEntry_before (t : FileTree) (b : Bool) (name : String) {k : ℕ ×ₗ String}
    (hk : k < toLex (p, "")) :
    (∀ s, ((t.deleteEntry b p name).physShards s).get k = (t.physShards s).get k) ∧
      (t.deleteEntry b p name).virtChildDirEntryMap.get k = t.virtChildDirEntryMap.get k := by
  have hne : k ≠ toLex (p, name) :=
    (lt_of_lt_of_le hk (key_range.mpr rfl).1).ne
  cases b with
  | false =>
      refine ⟨fun s => ?_, rfl⟩
      show (Function.update t.physShards (p % dirEntryMapShardCount) _ s).get k = _
      by_cases hs : s = p % dirEntryMapShardCount
      · rw [hs, Function.update_self]
        exact SortedMap.get_erase_of_ne hne
      · rw [Function.update_of_ne hs]
  | true => exact ⟨fun _ => rfl, SortedMap.get_erase_of_ne hne⟩

/-- A child of a directory of a backend. -/
structure ChildOf (t : FileTree) (p : ℕ) (b : Bool) (name : String) (c : ℕ) : Prop where
  inodeMap : t.inodeMap c
  notPending : ¬t.names.Pending c
  lt : p < c
  parent : (t.inode c).parentInodeNumber = p
  basename : (t.inode c).basename = name
  isVirt : (t.inode c).isVirt = b
  type : (t.inode c).inodeType = .FileObject ∨ (t.inode c).inodeType = .PseudoDir
  backendNonce : (t.inode c).backendNonce = (t.inode p).backendNonce

/-- An entry that is no dot is a child. -/
theorem childOf_entry {bare : ℕ → Prop} (h : NamesOk bare t.names)
    (hp : p ≠ FUSERootDirInodeNumber) {b : Bool} {c : ℕ}
    (hent : t.names.entry b p name = some c) (hdot : b = true → ¬IsDot name) :
    ChildOf t p b name c := by
  obtain ⟨hc, hroot, hnp, hpar, hname, hvirt⟩ := h.entry _ _ _ _ hent hdot
  have hlt : (t.names.inode c).parentInodeNumber < c := (h.parent c hc hroot hnp).2.2
  rw [hpar] at hlt
  have hkind : ((t.inode c).inodeType = .FileObject ∨ (t.inode c).inodeType = .PseudoDir) ∧
      (t.inode c).backendNonce = (t.inode p).backendNonce := by
    cases htype : (t.inode c).inodeType with
    | FileObject =>
        have hb := (h.fileParent c hc htype hnp).2
        rw [hpar] at hb
        exact ⟨.inl rfl, hb.symm⟩
    | PseudoDir =>
        have hb := (h.pseudo c htype).2.2.2.2.2
        rw [hpar] at hb
        exact ⟨.inr rfl, hb.symm⟩
    | FUSERootDir => exact absurd (h.root_unique c hc htype) hroot
    | BackendRootDir =>
        have hb := (h.backendRoot c hc htype).1
        rw [hpar] at hb
        exact absurd hb hp
  exact ⟨hc, hnp, hlt, hpar, hname, hvirt, hkind.1, hkind.2⟩

/-- A child goes with its entry, after its own entries. -/
theorem childGone_ok {bare bare' R : ℕ → Prop} {c : ℕ} {b : Bool} {t₁ t₂ : FileTree}
    (h : TreeOk left bare' off t₁) (hbare : ∀ d, bare' d → bare d ∨ d = c)
    (hc : ChildOf t p b name c) (hpr : Pruned c R t t₁)
    (hnone : ∀ b name, t₁.names.entry b c name = none) (hd : Dequeued c t₁ t₂) :
    TreeOk left bare off ((t₂.inodeDelete c).deleteEntry b p name) ∧
      Pruned p (fun i => R i ∨ i = c) t ((t₂.inodeDelete c).deleteEntry b p name) ∧
      ∀ b' name', ((t₂.inodeDelete c).deleteEntry b p name).names.entry b' p name' =
        if b' = b ∧ name' = name then none else t.names.entry b' p name' := by
  have hinode : t₁.inode = t.inode := hpr.inode
  -- neither the child nor its parent is below the child
  have hRc : ¬R c := fun hr => lt_irrefl c (hpr.below c hr).1
  have hRp : ¬R p := fun hr => lt_asymm hc.lt (hpr.below p hr).1
  have hi : t₁.inodeMap c := (hpr.inodeMap c).mpr ⟨hc.inodeMap, hRc⟩
  have hnp : ¬t₁.names.Pending c := by
    unfold Names.Pending
    rw [show t₁.names.pending = t.names.pending from hpr.pending]
    exact hc.notPending
  have hnames : ((t₂.inodeDelete c).deleteEntry b p name).names =
      t₁.names.remove c t₁.names.backendMap := by
    rw [names_deleteEntry, show (t₂.inodeDelete c).names =
      { t₂.names with inodeMap := Function.update t₂.names.inodeMap c false } from rfl, hd.names]
    unfold Names.remove
    rw [show (t₁.names.inode c).isVirt = b from by
        rw [show t₁.names.inode = t.inode from hinode]; exact hc.isVirt,
      show (t₁.names.inode c).parentInodeNumber = p from by
        rw [show t₁.names.inode = t.inode from hinode]; exact hc.parent,
      show (t₁.names.inode c).basename = name from by
        rw [show t₁.names.inode = t.inode from hinode]; exact hc.basename]
    rfl
  obtain ⟨phys, virt, hrest⟩ := deleteEntry_rest (t₂.inodeDelete c) b p name
  have hx : ((t₂.inodeDelete c).deleteEntry b p name).xTime = t₁.xTime := by
    rw [hrest, ← hd.xTime]
    rfl
  have hq : ∀ x j, ((t₂.inodeDelete c).deleteEntry b p name).inodeEvictionQueue.get
      (toLex (x, j)) = some () ↔ j ≠ c ∧ t₁.inodeEvictionQueue.get (toLex (x, j)) = some () := by
    intro x j
    rw [hrest, ← hd.queue]
    rfl
  have hg : ((t₂.inodeDelete c).deleteEntry b p name).globals = t₁.globals := by
    rw [hrest, ← hd.globals]
    rfl
  -- without entries and pending deletion the child can be removed
  have r : NamesOk.Removes t₁.names c t₁.names.backendMap := by
    refine h.names.removes hi hnp ?_ fun b name hne => absurd (hnone b name) hne
    rw [show t₁.names.inode = t.inode from hinode]
    exact hc.type
  have hr : Removed t₁ ((t₂.inodeDelete c).deleteEntry b p name) t₁.names c
      t₁.names.backendMap := by
    refine ⟨rfl, fun _ _ _ => id, hnames, fun j _ => by rw [hx], hq, t₁.globals.now, ?_⟩
    rw [hg]
    rfl
  have hentry : ∀ b' d name', ((t₂.inodeDelete c).deleteEntry b p name).names.entry b' d name' =
      if b' = b ∧ d = p ∧ name' = name then none else t₁.names.entry b' d name' := by
    intro b' d name'
    rw [names_deleteEntry]
    simp only [Names.setEntry]
    rw [show (t₂.inodeDelete c).names.entry = t₂.names.entry from rfl, hd.names]
  refine ⟨(h.remove h.names r hr (.inr fun name => hnone true name)).mono_bare ?_,
    ⟨(congrArg Names.nonces hnames).trans hpr.nonces, (congrArg Names.inode hnames).trans hinode,
      (congrArg Names.pending hnames).trans hpr.pending, fun i => ?_, fun b' d name' hdp hR => ?_,
      fun b' d name' hR => ?_, fun i hR => ?_, hx.trans hpr.xTime, fun x j => ?_,
      hg.trans hpr.globals, fun k hk => ?_⟩,
    fun b' name' => ?_⟩
  · rintro d ⟨hb, hne⟩
    exact (hbare d hb).resolve_right hne
  · rw [show ((t₂.inodeDelete c).deleteEntry b p name).inodeMap =
      Function.update t₁.inodeMap c false from congrArg Names.inodeMap hnames]
    -- the child goes with what is below it
    by_cases hic : i = c
    · subst hic
      rw [Function.update_self]
      exact iff_of_false (by simp) fun hcon => hcon.2 (.inr rfl)
    · rw [Function.update_of_ne hic, hpr.inodeMap, not_or]
      exact and_congr_right fun _ => (and_iff_left hic).symm
  · rw [hentry, if_neg fun hcon => hdp hcon.2.1]
    exact hpr.kept b' d name' (fun heq => hR (.inr heq)) fun hr => hR (.inl hr)
  · have hdp : d ≠ p := by
      rcases hR with hr | rfl
      · exact (hc.lt.trans (hpr.below d hr).1).ne'
      · exact hc.lt.ne'
    rw [hentry, if_neg fun hcon => hdp hcon.2.1]
    rcases hR with hr | rfl
    · exact hpr.gone b' d name' hr
    · exact hnone b' name'
  · rcases hR with hr | rfl
    · obtain ⟨h₁, h₂, h₃⟩ := hpr.below i hr
      exact ⟨hc.lt.trans h₁, h₂, h₃.trans hc.backendNonce⟩
    · exact ⟨hc.lt, hc.inodeMap, hc.backendNonce⟩
  · rw [hq, hpr.queue, not_or, ← and_assoc, and_comm (a := j ≠ c)]
  · have hpre := hpr.before k (hk.trans (Prod.Lex.toLex_lt_toLex.mpr (.inl hc.lt)))
    have hdel := deleteEntry_before (t₂.inodeDelete c) b name hk
    constructor
    · intro s
      rw [hdel.1 s, ← hpre.1 s, ← hd.phys]
      rfl
    · rw [hdel.2, ← hpre.2, ← hd.virt]
      rfl
  -- in the parent only the child's own entry is gone
  · rw [hentry, hpr.kept b' p name' hc.lt.ne hRp]
    by_cases hcon : b' = b ∧ name' = name
    · rw [if_pos ⟨hcon.1, rfl, hcon.2⟩, if_pos hcon]
    · rw [if_neg fun h' => hcon ⟨h'.1, h'.2.2⟩, if_neg hcon]

/-- What emptying a directory is to do. -/
def Empties (left : Prop) (off : ℕ → Prop) (depth : ℕ) (rec : ℕ → TreeSection Unit) : Prop :=
  ∀ (bare : ℕ → Prop) (t : FileTree) (p : ℕ), TreeOk left bare off t → t.inodeMap p →
    p ≠ FUSERootDirInodeNumber → t.names.isDir p → t.nonces.head ≤ depth + p →
    ∃ t' R, runs (rec p) t = (.ok (), t') ∧ Pruned p R t t' ∧
      TreeOk left (fun d => bare d ∨ d = p) off t' ∧ ∀ b name, t'.names.entry b p name = none

theorem runs_emptyChild {rec : ℕ → TreeSection Unit} (hi : t.inodeMap i = true) :
    runs (emptyChild rec i) t = andThen (fun _ => runs (do dequeue i; orFatalf (← inodeDelete i)))
      (runs (if (t.inode i).inodeType = .PseudoDir then rec i else pure ()) t) := by
  unfold emptyChild
  rw [runs_bind, runs_inodeGet, andThen_ok, hi, runs_bind, runs_orFatalf_true, andThen_ok,
    runs_bind, runs_deref, andThen_ok]
  split
  · exact runs_bind ..
  · rfl

/-- A child is emptied and goes, and then its entry. -/
theorem emptyChild_ok {bare : ℕ → Prop} {depth c : ℕ} {rec : ℕ → TreeSection Unit} {b : Bool}
    (hrec : Empties left off depth rec) (h : TreeOk left bare off t) (hc : ChildOf t p b name c)
    (hdepth : t.nonces.head ≤ depth + c) : ∃ t' R, runs (emptyChild rec c) t = (.ok (), t') ∧
      t'.names.entry b p name = t.names.entry b p name ∧
      TreeOk left bare off (t'.deleteEntry b p name) ∧ Pruned p R t (t'.deleteEntry b p name) ∧
      ∀ b' name', (t'.deleteEntry b p name).names.entry b' p name' =
        if b' = b ∧ name' = name then none else t.names.entry b' p name' := by
  have hroot : c ≠ FUSERootDirInodeNumber :=
    h.names.notRoot_of_type (by
      show (t.inode c).inodeType ≠ _
      rcases hc.type with htype | htype <;> rw [htype] <;> nofun)
  -- the entries of the child go, if it is a directory
  obtain ⟨t₁, R, bare', hrun, hpr, hok, hbare, hnone⟩ : ∃ t₁ R bare',
      runs (if (t.inode c).inodeType = .PseudoDir then rec c else pure ()) t = (.ok (), t₁) ∧
        Pruned c R t t₁ ∧ TreeOk left bare' off t₁ ∧ (∀ d, bare' d → bare d ∨ d = c) ∧
          ∀ b name, t₁.names.entry b c name = none := by
    rcases hc.type with htype | htype
    · refine ⟨t, _, bare, ?_, .refl, h, fun d => .inl, h.names.file_entry htype⟩
      rw [if_neg (by rw [htype]; nofun), runs_pure]
    · have hdir : t.names.isDir c := by
        show (t.inode c).inodeType ≠ .FileObject
        rw [htype]
        nofun
      obtain ⟨t₁, R, hrun, hpr, hok, hnone⟩ := hrec bare t c h hc.inodeMap hroot hdir hdepth
      exact ⟨t₁, R, _, by rw [if_pos htype, hrun], hpr, hok, fun _ => id, hnone⟩
  have hi : t₁.inodeMap c := (hpr.inodeMap c).mpr ⟨hc.inodeMap, fun hr =>
    lt_irrefl c (hpr.below c hr).1⟩
  obtain ⟨t₂, hrun₂, hd⟩ := dequeue_ends hok.queue hi
  have hi₂ : t₂.inodeMap c = true := by
    rw [show t₂.inodeMap = t₁.inodeMap from congrArg Names.inodeMap hd.names]
    exact hi
  obtain ⟨hok', hpr', hentry⟩ := childGone_ok hok hbare hc hpr hnone hd
  refine ⟨t₂.inodeDelete c, _, ?_, ?_, hok', hpr', hentry⟩
  · rw [runs_emptyChild hc.inodeMap, hrun, andThen_ok, runs_bind, hrun₂, andThen_ok, runs_bind,
      runs_inodeDelete, if_pos hi₂, andThen_ok, runs_orFatalf_true]
  · show t₂.names.entry b p name = _
    rw [hd.names]
    exact hpr.kept b p name hc.lt.ne fun hr => lt_asymm hc.lt (hpr.below p hr).1

/-- The last entry of a directory, and the range without it. -/
theorem last_entry {m : DirEntries} {k : ℕ} (h : (m.names p).length = k + 1) :
    ∃ name i, m.byIndex ((m.indexRange p).1 + k) = some (name, i) ∧
      m.get (toLex (p, name)) = some i ∧
      ∀ m' : DirEntries, (∀ name', m'.get (toLex (p, name')) =
        if name' = name then none else m.get (toLex (p, name'))) →
          (∀ k < toLex (p, ""), m'.get k = m.get k) →
            (m'.names p).length = k ∧ (m'.indexRange p).1 = (m.indexRange p).1 := by
  have hget : (m.names p)[k]? = some ((m.names p)[k]) := List.getElem?_eq_getElem (by omega)
  obtain ⟨i, hat, hi⟩ := DirEntries.byIndex_of_names hget
  refine ⟨_, i, hat, hi, fun m' hm' hbefore => ⟨?_, SortedMap.rank_congr hbefore⟩⟩
  have hnames : m'.names p = (m.names p).filter (fun name => name != (m.names p)[k]) := by
    apply DirEntries.names_eq_filter
    intro name
    rw [hm']
    by_cases hn : name = (m.names p)[k]
    · simp [hn]
    · simp [hn]
  have hnodup : (m.names p).Nodup := DirEntries.names_sorted.imp ne_of_lt
  rw [hnames, ← hnodup.erase_eq_filter, List.length_erase_of_mem (List.getElem_mem _), h]
  rfl

/-- The loop over the phys entries. -/
theorem emptyPhysFrom_ok {bare : ℕ → Prop} {depth : ℕ} {rec : ℕ → TreeSection Unit}
    (hrec : Empties left off depth rec) (hp : p ≠ FUSERootDirInodeNumber) (n : ℕ)
    (h : TreeOk left bare off t) (hdepth : t.nonces.head ≤ depth + 1 + p)
    (hn : ((t.shardFor p).names p).length = n) : ∃ t' R,
      runs (emptyPhysFrom rec p ((t.shardFor p).indexRange p).1 n) t = (.ok (), t') ∧
        Pruned p R t t' ∧ TreeOk left bare off t' ∧ ∀ name, t'.names.entry false p name = none := by
  induction n generalizing t with
  | zero =>
      refine ⟨t, _, rfl, .refl, h, fun name => ?_⟩
      by_contra hne
      have hmem : name ∈ (t.shardFor p).names p := DirEntries.mem_names.mpr hne
      rw [List.length_eq_zero_iff.mp hn] at hmem
      cases hmem
  | succ n ih =>
      obtain ⟨name, c, hat, hget, hnext⟩ := last_entry hn
      have hc : ChildOf t p false name c := childOf_entry h.names hp hget fun hb => nomatch hb
      have := hc.lt
      obtain ⟨t₁, R₁, hrun₁, hent, hok₁, hpr₁, hentry⟩ := emptyChild_ok hrec h hc (by omega)
      have hsome : (t₁.physGet p name).isSome := by
        rw [show t₁.physGet p name = some c from hent.trans hget]
        rfl
      obtain ⟨hlen, hstart⟩ := hnext ((t₁.deleteEntry false p name).shardFor p)
        (fun name' => (hentry false name').trans (by simp only [true_and]; rfl))
        fun k hk => (hpr₁.before k hk).1 _
      obtain ⟨t₂, R₂, hrun₂, hpr₂, hok₂, hnone⟩ := ih hok₁ (by
        rw [show (t₁.deleteEntry false p name).nonces = t.nonces from hpr₁.nonces]
        exact hdepth) hlen
      refine ⟨t₂, _, ?_, hpr₁.trans hpr₂, hok₂, hnone⟩
      rw [hstart] at hrun₂
      rw [emptyPhysFrom, runs_bind, runs_physByIndex, hat, andThen_ok]
      dsimp only
      rw [runs_bind, hrun₁, andThen_ok, runs_bind, runs_physDelete, if_pos hsome, andThen_ok,
        runs_bind, runs_orFatalf_true, andThen_ok]
      exact hrun₂

/-- One round of the emptying of a virtual directory. -/
theorem runs_emptyVirtFrom {rec : ℕ → TreeSection Unit} {start n c : ℕ}
    (hat : t.virtChildDirEntryMap.byIndex (start + n) = some (name, c)) :
    runs (emptyVirtFrom rec p start (n + 1)) t =
      andThen (fun _ => runs (do
        orFatalf (← virtDelete p name)
        emptyVirtFrom rec p start n))
        (runs (if name ≠ DotDirEntryBasename ∧ name ≠ DotDotDirEntryBasename then
          emptyChild rec c else pure ()) t) := by
  rw [emptyVirtFrom, runs_bind, runs_virtByIndex, hat, andThen_ok]
  dsimp only
  split
  · exact runs_bind ..
  · rfl

/-- A directory loses one of its dots. -/
theorem undot_pruned : Pruned p (fun _ => False) t (t.deleteEntry true p name) := by
  have hentry : ∀ b d name', (t.deleteEntry true p name).names.entry b d name' =
      if b = true ∧ d = p ∧ name' = name then none else t.names.entry b d name' := by
    intro b d name'
    rw [names_deleteEntry]
    rfl
  refine ⟨rfl, rfl, rfl, fun i => ?_, fun b d name' hd _ => ?_, fun _ _ _ h => h.elim,
    fun _ h => h.elim, rfl, fun x j => ?_, rfl, fun k hk => deleteEntry_before _ _ _ hk⟩
  · rw [not_false_eq_true, and_true]
    rfl
  · rw [hentry, if_neg fun hc => hd hc.2.1]
  · rw [not_false_eq_true, true_and]
    rfl

/-- The loop over the virt entries, when there are no phys entries any more. -/
theorem emptyVirtFrom_ok {bare : ℕ → Prop} {depth : ℕ} {rec : ℕ → TreeSection Unit}
    (hrec : Empties left off depth rec) (hp : p ≠ FUSERootDirInodeNumber) (n : ℕ)
    (h : TreeOk left (fun d => bare d ∨ d = p) off t) (hdepth : t.nonces.head ≤ depth + 1 + p)
    (hphys : ∀ name, t.names.entry false p name = none)
    (hn : (t.virtNames p).length = n) : ∃ t' R,
      runs (emptyVirtFrom rec p (t.virtChildDirEntryMap.indexRange p).1 n) t = (.ok (), t') ∧
        Pruned p R t t' ∧ TreeOk left (fun d => bare d ∨ d = p) off t' ∧
          ∀ b name, t'.names.entry b p name = none := by
  induction n generalizing t with
  | zero =>
      refine ⟨t, _, rfl, .refl, h, fun b name => ?_⟩
      cases b with
      | false => exact hphys name
      | true =>
          by_contra hne
          have hmem : name ∈ t.virtNames p := mem_virtNames.mpr hne
          rw [List.length_eq_zero_iff.mp hn] at hmem
          cases hmem
  | succ n ih =>
      obtain ⟨name, c, hat, hget, hnext⟩ := last_entry hn
      have hget : t.virtGet p name = some c := hget
      -- the entry goes, after its inode if it is not one of the dots
      obtain ⟨t₁, R₁, hrun₁, hent, hok₁, hpr₁, hentry⟩ : ∃ t₁ R₁,
          runs (if name ≠ DotDirEntryBasename ∧ name ≠ DotDotDirEntryBasename then
              emptyChild rec c else pure ()) t = (.ok (), t₁) ∧
            t₁.virtGet p name = some c ∧
            TreeOk left (fun d => bare d ∨ d = p) off (t₁.deleteEntry true p name) ∧
            Pruned p R₁ t (t₁.deleteEntry true p name) ∧
            ∀ b' name', (t₁.deleteEntry true p name).names.entry b' p name' =
              if b' = true ∧ name' = name then none else t.names.entry b' p name' := by
        by_cases hdot : IsDot name
        · refine ⟨t, _, ?_, hget, ?_, undot_pruned, ?_⟩
          · rw [if_neg fun hc => hdot.elim hc.1 hc.2, runs_pure]
          · have hr : Renamed t (t.deleteEntry true p name) (t.names.eraseDot p name)
                t.globals.backendMap := ⟨names_deleteEntry, rfl, rfl, _, rfl⟩
            refine (h.eraseDot hdot hr).mono_bare ?_
            rintro d (hb | hb)
            · exact hb
            · exact .inr hb
          · intro b' name'
            rw [names_deleteEntry]
            simp only [Names.setEntry, true_and]
        · have hc : ChildOf t p true name c := childOf_entry h.names hp hget fun _ => hdot
          have := hc.lt
          obtain ⟨t₁, R₁, hrun₁, hent, hrest⟩ := emptyChild_ok hrec h hc (by omega)
          refine ⟨t₁, R₁, ?_, hent.trans hget, hrest⟩
          rw [if_pos (not_or.mp hdot), hrun₁]
      obtain ⟨hlen, hstart⟩ := hnext (t₁.deleteEntry true p name).virtChildDirEntryMap
        (fun name' => (hentry true name').trans (by simp only [true_and]; rfl))
        fun k hk => (hpr₁.before k hk).2
      obtain ⟨t₂, R₂, hrun₂, hpr₂, hok₂, hnone⟩ := ih hok₁ (by
        rw [show (t₁.deleteEntry true p name).nonces = t.nonces from hpr₁.nonces]
        exact hdepth) (fun name' => (hentry false name').trans (by simp [hphys])) hlen
      refine ⟨t₂, _, ?_, hpr₁.trans hpr₂, hok₂, hnone⟩
      rw [hstart] at hrun₂
      rw [runs_emptyVirtFrom hat, hrun₁, andThen_ok, runs_bind, runs_virtDelete,
        if_pos (by rw [hent]; rfl), andThen_ok, runs_bind, runs_orFatalf_true, andThen_ok]
      exact hrun₂

/-- **`emptyChildInodes`** empties a directory, however deep. -/
theorem emptyChildInodes_ok (depth : ℕ) : Empties left off depth (emptyChildInodes depth) := by
  induction depth with
  | zero =>
      intro bare t p h hi _ hdir hdepth
      have hlt : p < t.nonces.head := h.names.dir_lt p hi hdir
      omega
  | succ depth ih =>
      intro bare t p h hi hroot hdir hdepth
      obtain ⟨t₁, R₁, hrun₁, hpr₁, hok₁, hnone₁⟩ := emptyPhysFrom_ok ih hroot _ h hdepth rfl
      obtain ⟨t₂, R₂, hrun₂, hpr₂, hok₂, hnone₂⟩ := emptyVirtFrom_ok ih hroot _
        (hok₁.mono_bare fun d => .inl) (by rw [hpr₁.nonces]; exact hdepth) hnone₁ rfl
      refine ⟨t₂, _, ?_, hpr₁.trans hpr₂, hok₂, hnone₂⟩
      unfold FileTree.virtNames at hrun₂
      rw [DirEntries.length_names] at hrun₁ hrun₂
      unfold emptyChildInodes
      rw [runs_bind, runs_physIndexRange, andThen_ok, runs_bind, hrun₁, andThen_ok, runs_bind,
        runs_virtIndexRange, andThen_ok]
      exact hrun₂

/-! ### Unmounting -/

/-- What an unmount does: the backend's inodes go, in `R` or its own. -/
structure Unmounted (nonce : ℕ) (b : Backend) (R : ℕ → Prop) (t t₁ t' : FileTree) : Prop where
  pruned : Pruned b.inode R t t₁
  empty : ∀ v name, t₁.names.entry v b.inode name = none
  names : t'.names = t₁.names.remove b.inode (Function.update t.globals.backendMap nonce none)
  xTime : t'.xTime = t₁.xTime
  globals : t'.globals = t.globals.setBackend nonce none

/-- **`processToUnmountListAlreadyLocked`** does not end the process. -/
theorem unmount_runs {b : Backend} {nonce depth : ℕ} (h : t.Settled left)
    (hb : t.globals.backendMap nonce = some b) (hdepth : t.nonces.head ≤ depth) :
    ∃ t₁ t' R, runs (unmount depth nonce) t = (.ok .done, t') ∧ Unmounted nonce b R t t₁ t' ∧
      t'.Settled left := by
  obtain ⟨hi, htype, hnonce, hlt⟩ := h.names.mounted nonce b hb
  have hroot : b.inode ≠ FUSERootDirInodeNumber := h.names.notRoot_of_type (by rw [htype]; nofun)
  have hdir : t.names.isDir b.inode := by
    unfold Names.isDir
    rw [htype]
    nofun
  have hnp := h.names.not_pending_of_isDir hdir
  obtain ⟨t₁, R, hrun, hpr, hok, hnone⟩ := emptyChildInodes_ok depth NoneBare t b.inode h.toTreeOk
    hi hroot hdir (by omega)
  have hRroot : ¬R FUSERootDirInodeNumber := fun hr => by
    have := (hpr.below _ hr).1
    have := (h.names.parent b.inode hi hroot hnp).2.2
    have hpar := (h.names.backendRoot b.inode hi htype).1
    omega
  -- the entry of the backend
  obtain ⟨hpar, hvirt, b', hb', -, hdirName⟩ := h.names.backendRoot b.inode hi htype
  rw [hnonce, show t.names.backendMap nonce = _ from hb] at hb'
  cases hb'
  have hent : t₁.virtGet FUSERootDirInodeNumber b.dirName = some b.inode := by
    have hkept := hpr.kept true FUSERootDirInodeNumber b.dirName hroot.symm hRroot
    have hold := (h.names.entered b.inode hi hroot hnp).1
    rw [hpar, hvirt, ← hdirName] at hold
    exact hkept.trans hold
  have hi₁ : t₁.inodeMap b.inode := (hpr.inodeMap _).mpr ⟨hi, fun hr =>
    lt_irrefl _ (hpr.below _ hr).1⟩
  have hinode : t₁.names.inode = t.names.inode := hpr.inode
  have hback : t₁.globals.backendMap = t.globals.backendMap := by rw [hpr.globals]
  have hpend : t₁.names.Pending = t.names.Pending := by
    unfold Names.Pending
    rw [show t₁.names.pending = t.names.pending from hpr.pending]
  generalize hm : Function.update t.globals.backendMap nonce none = m
  generalize ht' : ((t₁.virtDelete FUSERootDirInodeNumber b.dirName).inodeDelete b.inode).modify
    (fun g => g.setBackend nonce none) = t'
  have hnames : t'.names = t₁.names.remove b.inode m := by
    have hn : t'.names = { (t₁.virtDelete FUSERootDirInodeNumber b.dirName).names with
        inodeMap := Function.update t₁.names.inodeMap b.inode false
        backendMap := Function.update t₁.globals.backendMap nonce none } := by
      rw [← ht']
      rfl
    rw [hn, names_virtDelete, hback, hm]
    unfold Names.remove
    rw [hinode, hpar, hvirt, ← hdirName]
  have hglobals : t'.globals = t.globals.setBackend nonce none := by
    rw [← ht', ← hpr.globals]
    rfl
  have hqueue : t'.inodeEvictionQueue = t₁.inodeEvictionQueue := by
    rw [← ht']
    rfl
  refine ⟨t₁, t', R, ?_, ⟨hpr, hnone, by rw [hm]; exact hnames, by rw [← ht']; rfl, hglobals⟩, ?_⟩
  · unfold unmount
    rw [runs_bind, runs_globals, andThen_ok, hb]
    dsimp only
    rw [runs_bind, hrun, andThen_ok, runs_bind, runs_virtDelete, if_pos (by rw [hent]; rfl),
      andThen_ok, runs_bind, runs_orFatalf_true, andThen_ok, runs_bind, runs_inodeDelete,
      if_pos (show (t₁.virtDelete _ _).inodeMap b.inode = true from hi₁), andThen_ok, runs_bind,
      runs_orFatalf_true, andThen_ok, runs_bind, runs_modify, andThen_ok, runs_pure, ht']
  · have r : NamesOk.Removes t₁.names b.inode m := by
      refine ⟨hi₁, hroot, by rw [hpend]; exact hnp, fun v name hne => absurd (hnone v name) hne,
        fun j hj hne hp => ?_, fun nonce' b' hb' => ?_⟩
      · have hne' := hok.names.nonce_ne_of_emptied
          (show t₁.names.backendMap nonce = some b by
            rw [show t₁.names.backendMap = _ from hback]
            exact hb) hnone j hj hne hp
        rw [← hm, Function.update_of_ne hne']
        exact congrFun hback.symm _
      · rw [← hm, Function.update_apply] at hb'
        split at hb'
        · cases hb'
        next hne' =>
          rw [show t₁.names.backendMap = _ from hback]
          refine ⟨hb', fun heq => hne' ?_⟩
          rw [← (h.names.mounted nonce' b' hb').2.2.1, heq, hnonce]
    -- the backend's inode is never in the queue
    have hx : t₁.xTime b.inode = none := by
      by_contra hne
      rw [hpr.xTime] at hne
      have hidle := h.idle b.inode hi hne id
      unfold Idle at hidle
      rw [htype] at hidle
      exact hidle
    have hr : Removed t₁ t' t₁.names b.inode m := by
      refine ⟨rfl, fun _ _ _ => id, hnames, fun j _ => by rw [← ht']; rfl, fun x j => ?_,
        t₁.globals.now, ?_⟩
      · rw [hqueue]
        refine ⟨fun hget => ⟨?_, hget⟩, And.right⟩
        rintro rfl
        have := ((hok.queue x b.inode).mp hget).2
        rw [hx] at this
        cases this
      · rw [hglobals, hpr.globals, ← hm]
        rfl
    refine ⟨(hok.remove hok.names r hr (.inr fun name => hnone true name)).mono_bare ?_, ?_⟩
    · rintro d ⟨hd | hd, hne⟩
      · exact hd
      · exact absurd hd hne
    · have hmap : ∀ i, t'.names.inodeMap i → t₁.inodeMap i ∧ i ≠ b.inode := by
        intro i hi'
        rw [hnames] at hi'
        change Function.update t₁.inodeMap b.inode false i = true at hi'
        rw [Function.update_apply] at hi'
        split at hi'
        · cases hi'
        next hne => exact ⟨hi', hne⟩
      have hcalls := h.calls.unmounted t'.names nonce ?_ ?_ ?_ ?_ hlt
        (fun i hi' => ?_) fun i hi' hnot => ?_
      · rw [hglobals]
        rw [hnames] at hcalls ⊢
        have heq : (t₁.names.remove b.inode m).backendMap =
          (t.globals.setBackend nonce none).backendMap := hm.symm
        rw [heq] at hcalls
        exact hcalls
      · rw [hnames]
        exact hpr.nonces
      · rw [hnames]
        exact hinode
      · rw [hnames]
        exact hpr.pending
      · rw [hnames]
        exact hm.symm
      · exact ((hpr.inodeMap i).mp (hmap i hi').1).1
      · by_cases hR : R i
        · exact ((hpr.below i hR).2.2).trans hnonce
        · by_cases hip : i = b.inode
          · rw [hip]
            exact hnonce
          · rw [hnames] at hnot
            refine absurd ?_ hnot
            show Function.update t₁.inodeMap b.inode false i = true
            rw [Function.update_of_ne hip]
            exact (hpr.inodeMap i).mpr ⟨hi', hR⟩

end TreeSection

end MultiStorageFileSystem
