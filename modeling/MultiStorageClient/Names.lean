/-
MultiStorageClient/Names.lean

The tree of names: what inodes and directory entries mean, however they are
kept.

`Names` has the two maps of entries as one function, by `isVirt`.  `NamesOk`
says that they are a tree: every inode but the root has its entry, every entry
its inode, under the names and flags that the inode says, and the inodes of a
backend hang together.  Some directories may lack their dots (`bare`), and
an inode of the manifest ingest may still lack its entry.  The dots of a
directory that is gone may stay behind.

The operations on the tree are `skip`, `create`, `toPhys`, `remove` and `eraseDot`;
each keeps `NamesOk`.
-/
import MultiStorageClient.FileTree

namespace MultiStorageFileSystem

/-- The names `.` and `..`. -/
def IsDot (name : String) : Prop := name = DotDirEntryBasename ∨ name = DotDotDirEntryBasename

instance (name : String) : Decidable (IsDot name) := inferInstanceAs (Decidable (_ ∨ _))

/-- The tree of names. -/
structure Names where
  nonces : Nonces
  inodeMap : ℕ → Bool
  inode : ℕ → Inode
  /-- the virt entries (`true`) and the phys entries (`false`) -/
  entry : Bool → ℕ → String → Option ℕ
  backendMap : ℕ → Option Backend
  pending : List IngestEntry

namespace Names

variable (n : Names)

/-- The manifest ingest is going to give the inode its entry. -/
def Pending (i : ℕ) : Prop := ∃ e ∈ n.pending, e.inodeNumber = i

variable {n} in
theorem not_pending (h : n.pending = []) (i : ℕ) : ¬n.Pending i := by
  rintro ⟨e, he, -⟩
  rw [h] at he
  cases he

/-- The inode is a directory. -/
def isDir (i : ℕ) : Prop := (n.inode i).inodeType ≠ .FileObject

/-- An entry changes. -/
def setEntry (isVirt : Bool) (d : ℕ) (name : String) (v : Option ℕ) : Names :=
  { n with entry := fun b d' name' => if b = isVirt ∧ d' = d ∧ name' = name then v
      else n.entry b d' name' }

/-- The next number is given out. -/
def skip : Names := { n with nonces := n.nonces.tail }

/-- A new inode. -/
def putInode (i : ℕ) (ino : Inode) : Names :=
  { n with
    inodeMap := Function.update n.inodeMap i true
    inode := Function.update n.inode i ino }

/-- The dots of a directory. -/
def putDots (d p : ℕ) : Names :=
  (n.setEntry true d DotDirEntryBasename (some d)).setEntry true d DotDotDirEntryBasename (some p)

/-- A new inode, after `createFileObjectInode` or `createPseudoDirInode`, or after
`processToMountList`, which puts the backend into `backendMap`. -/
def create (ino : Inode) (backendMap : ℕ → Option Backend) : Names :=
  let i := n.nonces.head
  let n := { (n.skip.putInode i ino).setEntry ino.isVirt ino.parentInodeNumber ino.basename
    (some i) with backendMap := backendMap }
  if ino.inodeType = .FileObject then n else n.putDots i ino.parentInodeNumber

/-- `convertToPhysInodeIfNecessary` -/
def toPhys (i : ℕ) : Names :=
  let ino := n.inode i
  { ((n.setEntry true ino.parentInodeNumber ino.basename none).setEntry false
      ino.parentInodeNumber ino.basename (some i)) with
    inode := Function.update n.inode i { ino with isVirt := false } }

/-- An inode and its entry are removed, with its backend if it is unmounted. -/
def remove (i : ℕ) (backendMap : ℕ → Option Backend) : Names :=
  { (n.setEntry (n.inode i).isVirt (n.inode i).parentInodeNumber (n.inode i).basename none) with
    inodeMap := Function.update n.inodeMap i false
    backendMap := backendMap }

/-- One of the dots is removed. -/
def eraseDot (d : ℕ) (dot : String) : Names := n.setEntry true d dot none

end Names

/-- The names are a tree. -/
structure NamesOk (bare : ℕ → Prop) (n : Names) : Prop where
  root : n.inodeMap FUSERootDirInodeNumber
  rootInode : (n.inode FUSERootDirInodeNumber).inodeType = .FUSERootDir ∧
    (n.inode FUSERootDirInodeNumber).parentInodeNumber = FUSERootDirInodeNumber ∧
    (n.inode FUSERootDirInodeNumber).backendNonce = 0
  root_unique : ∀ i, n.inodeMap i → (n.inode i).inodeType = .FUSERootDir →
    i = FUSERootDirInodeNumber
  given : ∀ i, n.inodeMap i → n.nonces.Given i
  dir_lt : ∀ i, n.inodeMap i → n.isDir i → i < n.nonces.head
  /-- an inode with its entry -/
  parent : ∀ i, n.inodeMap i → i ≠ FUSERootDirInodeNumber → ¬n.Pending i →
    n.inodeMap (n.inode i).parentInodeNumber ∧ n.isDir (n.inode i).parentInodeNumber ∧
      (n.inode i).parentInodeNumber < i
  entered : ∀ i, n.inodeMap i → i ≠ FUSERootDirInodeNumber → ¬n.Pending i →
    n.entry (n.inode i).isVirt (n.inode i).parentInodeNumber (n.inode i).basename = some i ∧
      ¬IsDot (n.inode i).basename
  /-- an entry other than the dots -/
  entry : ∀ b d name i, n.entry b d name = some i → (b = true → ¬IsDot name) →
    n.inodeMap i ∧ i ≠ FUSERootDirInodeNumber ∧ ¬n.Pending i ∧
      (n.inode i).parentInodeNumber = d ∧ (n.inode i).basename = name ∧ (n.inode i).isVirt = b
  disjoint : ∀ d name, n.entry false d name = none ∨ n.entry true d name = none
  dots : ∀ d, n.inodeMap d → n.isDir d → ¬bare d →
    n.entry true d DotDirEntryBasename = some d ∧
      n.entry true d DotDotDirEntryBasename = some (n.inode d).parentInodeNumber
  /-- the dots may be those of a directory that is gone -/
  dotEntry : ∀ d name i, n.entry true d name = some i → IsDot name →
    n.isDir d ∧ d < n.nonces.head ∧ (name = DotDirEntryBasename → i = d) ∧
      (name = DotDotDirEntryBasename → i = (n.inode d).parentInodeNumber)
  file : ∀ i, n.inodeMap i → (n.inode i).inodeType = .FileObject → (n.inode i).isVirt = false
  /-- the backend of an inode -/
  backend : ∀ i, n.inodeMap i → i ≠ FUSERootDirInodeNumber → ¬n.Pending i →
    (n.inode i).backendNonce ≠ 0 ∧ (n.backendMap (n.inode i).backendNonce).isSome
  /-- also of those that are gone -/
  pseudo : ∀ i, (n.inode i).inodeType = .PseudoDir →
    i < n.nonces.head ∧ (n.inode i).parentInodeNumber < i ∧
      (n.inode i).parentInodeNumber ≠ FUSERootDirInodeNumber ∧
      ¬IsDot (n.inode i).basename ∧ (n.inode i).backendNonce ≠ 0 ∧
      (n.inode (n.inode i).parentInodeNumber).backendNonce = (n.inode i).backendNonce
  fileParent : ∀ i, n.inodeMap i → (n.inode i).inodeType = .FileObject → ¬n.Pending i →
    (n.inode i).parentInodeNumber ≠ FUSERootDirInodeNumber ∧
      (n.inode (n.inode i).parentInodeNumber).backendNonce = (n.inode i).backendNonce
  backendRoot : ∀ i, n.inodeMap i → (n.inode i).inodeType = .BackendRootDir →
    (n.inode i).parentInodeNumber = FUSERootDirInodeNumber ∧ (n.inode i).isVirt = true ∧
      ∃ b, n.backendMap (n.inode i).backendNonce = some b ∧ b.inode = i ∧
        b.dirName = (n.inode i).basename
  mounted : ∀ nonce b, n.backendMap nonce = some b →
    n.inodeMap b.inode ∧ (n.inode b.inode).inodeType = .BackendRootDir ∧
      (n.inode b.inode).backendNonce = nonce ∧ nonce < n.nonces.head
  /-- an inode without its entry -/
  ingested : ∀ e ∈ n.pending, n.inodeMap e.inodeNumber ∧ e.parentInodeNumber < e.inodeNumber ∧
    (n.inode e.inodeNumber).inodeType = .FileObject ∧
      (n.inode e.inodeNumber).parentInodeNumber = e.parentInodeNumber ∧
      (n.inode e.inodeNumber).basename = e.basename
  pending_nodup : (n.pending.map IngestEntry.inodeNumber).Nodup

namespace NamesOk

variable {bare : ℕ → Prop} {n : Names} {i d : ℕ} {name : String} {b : Bool}

theorem not_pending_of_isDir (h : NamesOk bare n) (hi : n.isDir i) : ¬n.Pending i := by
  rintro ⟨e, he, rfl⟩
  exact hi (h.ingested e he).2.2.1

theorem notRoot_of_type (h : NamesOk bare n) (htype : (n.inode i).inodeType ≠ .FUSERootDir) :
    i ≠ FUSERootDirInodeNumber := by
  rintro rfl
  exact htype h.rootInode.1

theorem head_not_given (s : Nonces) : ¬s.Given s.head := fun h => h 0 rfl

theorem given_of_lt {s : Nonces} (h : i < s.head) : s.Given i :=
  fun k hk => by
    have hle : s.nth 0 ≤ s.nth k := s.mono.monotone (Nat.zero_le k)
    unfold Nonces.head at h
    omega

theorem head_lt_tail (s : Nonces) : s.head < s.tail.head := s.mono Nat.zero_lt_one

theorem given_tail {s : Nonces} (h : s.Given i) : s.tail.Given i := fun k => h (k + 1)

theorem ne_head (h : NamesOk bare n) (hi : n.inodeMap i) : i ≠ n.nonces.head :=
  fun heq => head_not_given _ (heq ▸ h.given i hi)

theorem not_inodeMap_head (h : NamesOk bare n) : ¬n.inodeMap n.nonces.head :=
  fun hi => h.ne_head hi rfl

theorem root_lt (h : NamesOk bare n) : FUSERootDirInodeNumber < n.nonces.head :=
  h.dir_lt _ h.root (by unfold Names.isDir; rw [h.rootInode.1]; decide)

/-- The entries of the next number are free. -/
theorem entry_head (h : NamesOk bare n) : n.entry b n.nonces.head name = none := by
  by_contra hne
  obtain ⟨i, hi⟩ := Option.ne_none_iff_exists'.mp hne
  by_cases hdot : b = true → ¬IsDot name
  · obtain ⟨hpres, hroot, hpend, hpar, -⟩ := h.entry _ _ _ _ hi hdot
    exact h.not_inodeMap_head (hpar ▸ (h.parent i hpres hroot hpend).1)
  · obtain ⟨rfl, hname⟩ : b = true ∧ IsDot name := by
      simpa only [Classical.not_imp, not_not] using hdot
    exact lt_irrefl _ (h.dotEntry _ _ _ hi hname).2.1

/-- A number that is skipped is no harm to the names. -/
theorem skip (h : NamesOk bare n) : NamesOk bare n.skip := by
  have hlt := head_lt_tail n.nonces
  refine { h with
    given := fun i hi => given_tail (h.given i hi)
    dir_lt := fun i hi hd => (h.dir_lt i hi hd).trans hlt
    dotEntry := fun d name i hd hdot => ?_
    pseudo := fun i hi => ?_
    mounted := fun nonce b hb => ?_ }
  · obtain ⟨h₁, h₂, h₃⟩ := h.dotEntry d name i hd hdot
    exact ⟨h₁, h₂.trans hlt, h₃⟩
  · obtain ⟨h₁, h₂⟩ := h.pseudo i hi
    exact ⟨h₁.trans hlt, h₂⟩
  · obtain ⟨h₁, h₂, h₃, h₄⟩ := h.mounted nonce b hb
    exact ⟨h₁, h₂, h₃, h₄.trans hlt⟩

/-! ### A new inode -/

variable {ino : Inode}

/-- An inode can be created; a backend is mounted with its inode. -/
structure Creates (bare : ℕ → Prop) (n : Names) (ino : Inode) (backendMap : ℕ → Option Backend) :
    Prop where
  parent : n.inodeMap ino.parentInodeNumber
  isDir : n.isDir ino.parentInodeNumber
  notBare : ¬bare ino.parentInodeNumber
  free : ∀ b, n.entry b ino.parentInodeNumber ino.basename = none
  kind :
    (ino.inodeType = .FileObject ∧ ino.isVirt = false ∨ ino.inodeType = .PseudoDir) ∧
      ino.parentInodeNumber ≠ FUSERootDirInodeNumber ∧
      ino.backendNonce = (n.inode ino.parentInodeNumber).backendNonce ∧ backendMap = n.backendMap ∨
    ino.inodeType = .BackendRootDir ∧ ino.isVirt = true ∧
      ino.parentInodeNumber = FUSERootDirInodeNumber ∧ n.backendMap ino.backendNonce = none ∧
      ino.backendNonce ≠ 0 ∧ ino.backendNonce < n.nonces.head ∧
      ∃ b, backendMap = Function.update n.backendMap ino.backendNonce (some b) ∧
        b.inode = n.nonces.head ∧ b.dirName = ino.basename

/-- A backend that there was stays. -/
theorem Creates.extends {m : ℕ → Option Backend} (c : Creates bare n ino m) {nonce : ℕ}
    {b : Backend} (hb : n.backendMap nonce = some b) : m nonce = some b := by
  rcases c.kind with ⟨-, -, -, rfl⟩ | ⟨-, -, -, hnone, -, -, b', rfl, -⟩
  · exact hb
  · have hne : nonce ≠ ino.backendNonce := by
      rintro rfl
      rw [hnone] at hb
      cases hb
    rw [Function.update_of_ne hne]
    exact hb

section Create

variable (n) (ino) (m : ℕ → Option Backend)

theorem create_inode (i : ℕ) :
    (n.create ino m).inode i = if i = n.nonces.head then ino else n.inode i := by
  unfold Names.create
  split <;> exact Function.update_apply ..

theorem create_inodeMap (i : ℕ) :
    (n.create ino m).inodeMap i = if i = n.nonces.head then true else n.inodeMap i := by
  unfold Names.create
  split <;> exact Function.update_apply ..

theorem create_nonces : (n.create ino m).nonces = n.nonces.tail := by
  unfold Names.create
  split <;> rfl

theorem create_backendMap : (n.create ino m).backendMap = m := by
  unfold Names.create
  split <;> rfl

theorem create_pending_eq : (n.create ino m).pending = n.pending := by
  unfold Names.create
  split <;> rfl

theorem create_pending : (n.create ino m).Pending = n.Pending := by
  funext i
  unfold Names.Pending
  rw [create_pending_eq]

theorem create_isDir (i : ℕ) : (n.create ino m).isDir i ↔
    if i = n.nonces.head then ino.inodeType ≠ .FileObject else n.isDir i := by
  unfold Names.isDir
  rw [create_inode]
  split <;> rfl

theorem create_entry_of_ne {d : ℕ} (hd : d ≠ n.nonces.head) (b : Bool) (name : String) :
    (n.create ino m).entry b d name =
      if b = ino.isVirt ∧ d = ino.parentInodeNumber ∧ name = ino.basename then some n.nonces.head
      else n.entry b d name := by
  unfold Names.create
  split
  · rfl
  · simp only [Names.putDots, Names.setEntry, hd, false_and, and_false, if_false]
    rfl

/-- The entries of a new directory are its dots. -/
theorem create_entry_head (h : NamesOk bare n) (hp : ino.parentInodeNumber ≠ n.nonces.head)
    (b : Bool) (name : String) : (n.create ino m).entry b n.nonces.head name =
      if ino.inodeType ≠ .FileObject ∧ b = true then
        if name = DotDotDirEntryBasename then some ino.parentInodeNumber
        else if name = DotDirEntryBasename then some n.nonces.head else none
      else none := by
  have hhead : ∀ b name, n.entry b n.nonces.head name = none := fun _ _ => h.entry_head
  unfold Names.create
  split
  next hfile =>
    rw [if_neg fun hc => hc.1 hfile]
    simp only [Names.setEntry, Names.skip, Names.putInode, hhead, Ne.symm hp, false_and, and_false,
      if_false]
  next hfile =>
    simp only [Names.putDots, Names.setEntry, Names.skip, Names.putInode, hhead, Ne.symm hp,
      false_and, and_false, if_false, true_and]
    cases b
    · simp
    · simp [hfile]

end Create

theorem Creates.notDot {m : ℕ → Option Backend} (h : NamesOk bare n) (c : Creates bare n ino m) :
    ¬IsDot ino.basename := by
  obtain ⟨hdot, hdotdot⟩ := h.dots _ c.parent c.isDir c.notBare
  have hfree := c.free true
  rintro (heq | heq)
  · rw [heq, hdot] at hfree
    cases hfree
  · rw [heq, hdotdot] at hfree
    cases hfree

theorem Creates.backend {m : ℕ → Option Backend} (h : NamesOk bare n) (c : Creates bare n ino m) :
    ino.backendNonce ≠ 0 ∧ (m ino.backendNonce).isSome := by
  rcases c.kind with ⟨-, hroot, hnonce, rfl⟩ | ⟨-, -, -, -, hne, -, b, rfl, -⟩
  · rw [hnonce]
    exact h.backend _ c.parent hroot (h.not_pending_of_isDir c.isDir)
  · rw [Function.update_self]
    exact ⟨hne, rfl⟩

/-- **A new inode** with its entry, and with its dots if it is a directory. -/
theorem create {m : ℕ → Option Backend} (h : NamesOk bare n) (c : Creates bare n ino m) :
    NamesOk bare (n.create ino m) := by
  have hp : ino.parentInodeNumber ≠ n.nonces.head := h.ne_head c.parent
  have hplt : ino.parentInodeNumber < n.nonces.head := h.dir_lt _ c.parent c.isDir
  have hlt := head_lt_tail n.nonces
  have hroot : FUSERootDirInodeNumber ≠ n.nonces.head := h.root_lt.ne
  have hdot := c.notDot h
  have hpent := h.not_pending_of_isDir c.isDir
  have hkind := c.kind
  have hinode := create_inode n ino m
  have hmap := create_inodeMap n ino m
  have hpend := create_pending n ino m
  have hdir := create_isDir n ino m
  have hold : ∀ {i}, n.inodeMap i → i ≠ n.nonces.head := fun hi => h.ne_head hi
  constructor
  · rw [hmap, if_neg hroot]
    exact h.root
  · rw [hinode, if_neg hroot]
    exact h.rootInode
  · intro i
    rw [hmap, hinode]
    split
    · grind
    · exact h.root_unique i
  · intro i
    rw [hmap, create_nonces]
    split
    next hi => exact fun _ => given_of_lt (hi ▸ hlt)
    · exact fun hpres => given_tail (h.given i hpres)
  · intro i
    rw [hmap, hdir, create_nonces]
    split
    next hi => exact fun _ _ => hi ▸ hlt
    · exact fun hpres hisDir => (h.dir_lt i hpres hisDir).trans hlt
  · intro i
    have := h.parent i
    rw [hmap, hinode, hpend]
    grind [c.parent, c.isDir]
  · intro i
    have := h.entered i
    have := h.parent i
    rw [hmap, hpend, hinode]
    grind [create_entry_of_ne, c.free]
  · intro b d name i
    have hent := h.entry b d name i
    rw [hmap, hpend, hinode]
    by_cases hd : d = n.nonces.head
    · subst hd
      rw [create_entry_head n ino m h hp]
      unfold IsDot
      grind
    · rw [create_entry_of_ne n ino m hd]
      grind [h.not_inodeMap_head, NamesOk.ingested, Names.Pending]
  · intro d name
    have := h.disjoint d name
    by_cases hd : d = n.nonces.head
    · subst hd
      exact .inl (by rw [create_entry_head n ino m h hp, if_neg (by simp)])
    · rw [create_entry_of_ne n ino m hd, create_entry_of_ne n ino m hd]
      grind [c.free]
  · intro d
    rw [hmap, hdir, hinode]
    by_cases hd : d = n.nonces.head
    · subst hd
      rw [create_entry_head n ino m h hp, create_entry_head n ino m h hp]
      simp only [if_pos]
      exact fun _ hisDir _ => by simp [hisDir, DotDirEntryBasename, DotDotDirEntryBasename]
    · rw [create_entry_of_ne n ino m hd, create_entry_of_ne n ino m hd]
      simp only [hd, if_false]
      intro hpres hisDir hbare
      rw [if_neg fun hc => hdot (.inl hc.2.2.symm), if_neg fun hc => hdot (.inr hc.2.2.symm)]
      exact h.dots d hpres hisDir hbare
  · intro d name i
    rw [hdir, hinode, create_nonces]
    by_cases hd : d = n.nonces.head
    · subst hd
      have hne : DotDirEntryBasename ≠ DotDotDirEntryBasename := by decide
      rw [create_entry_head n ino m h hp]
      intro hent hname
      split at hent
      next hc =>
        simp only [if_true]
        refine ⟨hc.1, hlt, ?_⟩
        grind
      · cases hent
    · rw [create_entry_of_ne n ino m hd]
      have := h.dotEntry d name i
      grind
  · intro i
    have := h.file i
    rw [hmap, hinode]
    grind
  · intro i
    rw [hmap, hpend, hinode, create_backendMap]
    by_cases hi : i = n.nonces.head
    · simp only [if_pos hi]
      exact fun _ _ _ => c.backend h
    · simp only [if_neg hi]
      intro hpres hne hnp
      obtain ⟨hzero, hsome⟩ := h.backend i hpres hne hnp
      obtain ⟨b, hb⟩ := Option.isSome_iff_exists.mp hsome
      exact ⟨hzero, Option.isSome_iff_exists.mpr ⟨b, c.extends hb⟩⟩
  · intro i
    have := h.pseudo i
    have := h.backend ino.parentInodeNumber c.parent
    rw [hinode, hinode, create_nonces]
    grind
  · intro i
    rw [hmap, hpend, hinode, hinode]
    by_cases hi : i = n.nonces.head
    · grind
    · simp only [if_neg hi]
      intro hpres hfile hnp
      have hne : i ≠ FUSERootDirInodeNumber := by
        rintro rfl
        rw [h.rootInode.1] at hfile
        cases hfile
      rw [if_neg (hold (h.parent i hpres hne hnp).1)]
      exact h.fileParent i hpres hfile hnp
  · intro i
    rw [hmap, hinode, create_backendMap]
    by_cases hi : i = n.nonces.head
    · simp only [if_pos hi]
      rintro - hroot
      rcases hkind with ⟨htype, -⟩ | ⟨-, hvirt, hparent, -, -, -, b, rfl, hb⟩
      · rw [hroot] at htype
        rcases htype with ⟨htype, -⟩ | htype
        · cases htype
        · cases htype
      · exact ⟨hparent, hvirt, b, Function.update_self .., hi ▸ hb.1, hb.2⟩
    · simp only [if_neg hi]
      intro hpres hroot
      obtain ⟨hparent, hvirt, b, hb, hrest⟩ := h.backendRoot i hpres hroot
      exact ⟨hparent, hvirt, b, c.extends hb, hrest⟩
  · intro nonce b
    rw [create_backendMap, create_nonces]
    intro hb
    -- a backend is one of the old ones or the one that is mounted with the inode
    obtain hb | ⟨rfl, hi, hroot, hnonce⟩ : n.backendMap nonce = some b ∨
        nonce = ino.backendNonce ∧ b.inode = n.nonces.head ∧ ino.inodeType = .BackendRootDir ∧
          ino.backendNonce < n.nonces.head := by
      rcases hkind with ⟨-, -, -, rfl⟩ | ⟨hroot, -, -, -, -, hnonce, b', rfl, hb'⟩
      · exact .inl hb
      · rw [Function.update_apply] at hb
        split at hb
        next heq =>
          cases hb
          exact .inr ⟨heq, hb'.1, hroot, hnonce⟩
        · exact .inl hb
    · obtain ⟨hpres, htype, hnonce, hltn⟩ := h.mounted nonce b hb
      rw [hmap, hinode, if_neg (hold hpres), if_neg (hold hpres)]
      exact ⟨hpres, htype, hnonce, hltn.trans hlt⟩
    · rw [hmap, hinode, if_pos hi, if_pos hi]
      exact ⟨rfl, hroot, rfl, hnonce.trans hlt⟩
  · intro e he
    rw [create_pending_eq] at he
    obtain ⟨hpres, hrest⟩ := h.ingested e he
    rw [hmap, hinode, if_neg (hold hpres), if_neg (hold hpres)]
    exact ⟨hpres, hrest⟩
  · rw [create_pending_eq]
    exact h.pending_nodup

/-! ### Inodes that change or go -/

/-- The only entry of an inode, apart from the dots, is the one it says. -/
theorem entry_unique (h : NamesOk bare n) (hent : n.entry b d name = some i)
    (hdot : b = true → ¬IsDot name) : b = (n.inode i).isVirt ∧ d = (n.inode i).parentInodeNumber ∧
      name = (n.inode i).basename := by
  obtain ⟨-, -, -, hd, hname, hb⟩ := h.entry b d name i hent hdot
  exact ⟨hb.symm, hd.symm, hname.symm⟩

section ToPhys

variable (n) (i)

theorem toPhys_inodeType (j : ℕ) :
    ((n.toPhys i).inode j).inodeType = (n.inode j).inodeType := by
  simp only [Names.toPhys, Function.update_apply]
  split
  next hj => rw [hj]
  · rfl

theorem toPhys_parent (j : ℕ) :
    ((n.toPhys i).inode j).parentInodeNumber = (n.inode j).parentInodeNumber := by
  simp only [Names.toPhys, Function.update_apply]
  split
  next hj => rw [hj]
  · rfl

theorem toPhys_basename (j : ℕ) : ((n.toPhys i).inode j).basename = (n.inode j).basename := by
  simp only [Names.toPhys, Function.update_apply]
  split
  next hj => rw [hj]
  · rfl

theorem toPhys_backendNonce (j : ℕ) :
    ((n.toPhys i).inode j).backendNonce = (n.inode j).backendNonce := by
  simp only [Names.toPhys, Function.update_apply]
  split
  next hj => rw [hj]
  · rfl

theorem toPhys_isVirt (j : ℕ) :
    ((n.toPhys i).inode j).isVirt = if j = i then false else (n.inode j).isVirt := by
  simp only [Names.toPhys, Function.update_apply]
  split <;> rfl

theorem toPhys_entry (b : Bool) (d : ℕ) (name : String) : (n.toPhys i).entry b d name =
    if d = (n.inode i).parentInodeNumber ∧ name = (n.inode i).basename then
      if b = false then some i else none
    else n.entry b d name := by
  simp only [Names.toPhys, Names.setEntry]
  cases b
  · simp
  · simp

end ToPhys

/-- `convertToPhysInodeIfNecessary` moves the entry of a directory. -/
theorem toPhys (h : NamesOk bare n) (hi : n.inodeMap i) (htype : (n.inode i).inodeType = .PseudoDir)
    (hvirt : (n.inode i).isVirt = true) : NamesOk bare (n.toPhys i) := by
  have hroot : i ≠ FUSERootDirInodeNumber := by
    rintro rfl
    rw [h.rootInode.1] at htype
    cases htype
  have hnp := h.not_pending_of_isDir (i := i) (by unfold Names.isDir; rw [htype]; decide)
  obtain ⟨hkey, hdot⟩ := h.entered i hi hroot hnp
  rw [hvirt] at hkey
  refine { h with
    rootInode := ?_, root_unique := fun j hj => ?_, dir_lt := fun j hj => ?_,
    parent := fun j hj hne hp => ?_, entered := fun j hj hne hp => ?_,
    entry := fun b d name j hent hname => ?_, disjoint := fun d name => ?_,
    dots := fun d hd hdir hb => ?_, dotEntry := fun d name j hent hname => ?_,
    file := fun j hj => ?_, backend := fun j hj => ?_, pseudo := fun j => ?_,
    fileParent := fun j hj => ?_, backendRoot := fun j hj => ?_, mounted := fun nonce b hb => ?_,
    ingested := fun e he => ?_ }
  · rw [toPhys_inodeType, toPhys_parent, toPhys_backendNonce]
    exact h.rootInode
  · rw [toPhys_inodeType]
    exact h.root_unique j hj
  · unfold Names.isDir
    rw [toPhys_inodeType]
    exact h.dir_lt j hj
  · unfold Names.isDir
    rw [toPhys_parent, toPhys_inodeType]
    exact h.parent j hj hne hp
  · obtain ⟨hent, hname⟩ := h.entered j hj hne hp
    rw [toPhys_entry, toPhys_parent, toPhys_basename, toPhys_isVirt]
    refine ⟨?_, hname⟩
    by_cases hji : j = i
    · rw [if_pos ⟨by rw [hji], by rw [hji]⟩, if_pos (if_pos hji), hji]
    · rw [if_neg hji, if_neg ?_]
      · exact hent
      · rintro ⟨hp, hn⟩
        -- two inodes would be in one place, in different maps or in the same
        rw [hp, hn] at hent
        rcases h.disjoint (n.inode i).parentInodeNumber (n.inode i).basename with hd | hd
        · cases hv : (n.inode j).isVirt
          · rw [hv, hd] at hent
            cases hent
          · rw [hv, hkey] at hent
            exact hji (Option.some.inj hent).symm
        · rw [hkey] at hd
          cases hd
  · rw [toPhys_entry] at hent
    rw [toPhys_parent, toPhys_basename, toPhys_isVirt]
    split at hent
    next hc =>
      split at hent
      next hbf =>
        cases hent
        rw [if_pos rfl]
        exact ⟨hi, hroot, hnp, hc.1.symm, hc.2.symm, hbf.symm⟩
      · cases hent
    next hc =>
      obtain ⟨h₁, h₂, h₃, h₄, h₅, h₆⟩ := h.entry b d name j hent hname
      rw [if_neg]
      · exact ⟨h₁, h₂, h₃, h₄, h₅, h₆⟩
      · rintro rfl
        exact hc ⟨h₄.symm, h₅.symm⟩
  · rw [toPhys_entry, toPhys_entry]
    split
    · exact .inr rfl
    · exact h.disjoint d name
  · unfold Names.isDir at hdir
    rw [toPhys_inodeType] at hdir
    rw [toPhys_entry, toPhys_entry, toPhys_parent, if_neg fun hc => hdot (.inl hc.2.symm),
      if_neg fun hc => hdot (.inr hc.2.symm)]
    exact h.dots d hd hdir hb
  · have hne : ¬(d = (n.inode i).parentInodeNumber ∧ name = (n.inode i).basename) :=
      fun hc => hdot (hc.2 ▸ hname)
    rw [toPhys_entry, if_neg hne] at hent
    unfold Names.isDir
    rw [toPhys_inodeType, toPhys_parent]
    exact h.dotEntry d name j hent hname
  · rw [toPhys_inodeType, toPhys_isVirt]
    split
    · exact fun _ => rfl
    · exact h.file j hj
  · rw [toPhys_backendNonce]
    exact h.backend j hj
  · rw [toPhys_inodeType, toPhys_parent, toPhys_basename, toPhys_backendNonce, toPhys_backendNonce]
    exact h.pseudo j
  · rw [toPhys_inodeType, toPhys_parent, toPhys_backendNonce, toPhys_backendNonce]
    exact h.fileParent j hj
  · rw [toPhys_inodeType, toPhys_parent, toPhys_basename, toPhys_backendNonce, toPhys_isVirt]
    intro hb
    rw [if_neg]
    · exact h.backendRoot j hj hb
    · rintro rfl
      rw [htype] at hb
      cases hb
  · rw [toPhys_inodeType, toPhys_backendNonce]
    exact h.mounted nonce b hb
  · rw [toPhys_inodeType, toPhys_parent, toPhys_basename]
    exact h.ingested e he

/-- An inode can be removed: it has no children, and the other inodes keep their
backends. -/
structure Removes (n : Names) (i : ℕ) (backendMap : ℕ → Option Backend) : Prop where
  inode : n.inodeMap i
  notRoot : i ≠ FUSERootDirInodeNumber
  notPending : ¬n.Pending i
  empty : ∀ b name, n.entry b i name ≠ none → b = true ∧ IsDot name
  kept : ∀ j, n.inodeMap j → j ≠ i → ¬n.Pending j →
    backendMap (n.inode j).backendNonce = n.backendMap (n.inode j).backendNonce
  mounted : ∀ nonce b, backendMap nonce = some b → n.backendMap nonce = some b ∧ b.inode ≠ i

/-- **An inode is removed**, with its entry.  What was wrong with its dots is not
wrong any more. -/
theorem remove {m : ℕ → Option Backend} (h : NamesOk bare n) (r : Removes n i m) :
    NamesOk (fun d => bare d ∧ d ≠ i) (n.remove i m) := by
  obtain ⟨hkey, hdot⟩ := h.entered i r.inode r.notRoot r.notPending
  have hmap : ∀ {j}, (n.remove i m).inodeMap j = true → j ≠ i ∧ n.inodeMap j := by
    intro j
    simp only [Names.remove, Function.update_apply]
    split
    · exact fun hj => nomatch hj
    next hj => exact fun hpres => ⟨hj, hpres⟩
  have hmap' : ∀ {j}, n.inodeMap j → j ≠ i → (n.remove i m).inodeMap j = true := by
    intro j hj hji
    simp only [Names.remove, Function.update_of_ne hji]
    exact hj
  have hentry : ∀ b d name, (n.remove i m).entry b d name =
      if b = (n.inode i).isVirt ∧ d = (n.inode i).parentInodeNumber ∧ name = (n.inode i).basename
        then none else n.entry b d name := fun b d name => rfl
  -- nobody is left without parent
  have hparent : ∀ {j}, n.inodeMap j → j ≠ FUSERootDirInodeNumber → ¬n.Pending j →
      (n.inode j).parentInodeNumber ≠ i := by
    intro j hj hne hp heq
    obtain ⟨hent, hname⟩ := h.entered j hj hne hp
    rw [heq] at hent
    exact hname (r.empty _ _ (by rw [hent]; exact Option.some_ne_none _)).2
  refine {
    root := hmap' h.root (Ne.symm r.notRoot)
    rootInode := h.rootInode
    root_unique := fun j hj => h.root_unique j (hmap hj).2
    given := fun j hj => h.given j (hmap hj).2
    dir_lt := fun j hj => h.dir_lt j (hmap hj).2
    parent := fun j hj hne hp => ?_
    entered := fun j hj hne hp => ?_
    entry := fun b d name j hent hname => ?_
    disjoint := fun d name => ?_
    dots := fun d hd hdir hb => ?_
    dotEntry := fun d name j hent hname => ?_
    file := fun j hj => h.file j (hmap hj).2
    backend := fun j hj hne hp => ?_
    pseudo := h.pseudo
    fileParent := fun j hj => h.fileParent j (hmap hj).2
    backendRoot := fun j hj hroot => ?_
    mounted := fun nonce b hb => ?_
    ingested := fun e he => ?_
    pending_nodup := h.pending_nodup }
  · obtain ⟨h₁, h₂, h₃⟩ := h.parent j (hmap hj).2 hne hp
    exact ⟨hmap' h₁ (hparent (hmap hj).2 hne hp), h₂, h₃⟩
  · obtain ⟨h₁, h₂⟩ := h.entered j (hmap hj).2 hne hp
    refine ⟨?_, h₂⟩
    rw [hentry, if_neg]
    · exact h₁
    · rintro ⟨hv, hd, hn⟩
      simp only [Names.remove, Names.setEntry] at hv hd hn
      rw [hv, hd, hn, hkey] at h₁
      exact (hmap hj).1 (Option.some.inj h₁).symm
  · rw [hentry] at hent
    split at hent
    · cases hent
    next hc =>
      obtain ⟨h₁, h₂, h₃, h₄⟩ := h.entry b d name j hent hname
      refine ⟨hmap' h₁ ?_, h₂, h₃, h₄⟩
      rintro rfl
      exact hc (h.entry_unique hent hname)
  · rw [hentry, hentry]
    rcases h.disjoint d name with hd | hd
    · left
      split
      · rfl
      · exact hd
    · right
      split
      · rfl
      · exact hd
  · have hne := (hmap hd).1
    rw [hentry, hentry, if_neg fun hc => hdot (.inl hc.2.2.symm),
      if_neg fun hc => hdot (.inr hc.2.2.symm)]
    exact h.dots d (hmap hd).2 hdir fun hbare => hb ⟨hbare, hne⟩
  · rw [hentry] at hent
    split at hent
    · cases hent
    · exact h.dotEntry d name j hent hname
  · obtain ⟨h₁, h₂⟩ := h.backend j (hmap hj).2 hne hp
    refine ⟨h₁, ?_⟩
    rw [← r.kept j (hmap hj).2 (hmap hj).1 hp] at h₂
    exact h₂
  · obtain ⟨h₁, h₂, h₃⟩ := h.backendRoot j (hmap hj).2 hroot
    have hnp : ¬n.Pending j := h.not_pending_of_isDir (by
      unfold Names.isDir
      exact fun hfile => absurd (hfile.symm.trans hroot) (by decide))
    rw [← r.kept j (hmap hj).2 (hmap hj).1 hnp] at h₃
    exact ⟨h₁, h₂, h₃⟩
  · obtain ⟨hold, hne⟩ := r.mounted nonce b hb
    obtain ⟨h₁, h₂⟩ := h.mounted nonce b hold
    exact ⟨hmap' h₁ hne, h₂⟩
  · obtain ⟨h₁, h₂⟩ := h.ingested e he
    exact ⟨hmap' h₁ fun heq => r.notPending ⟨e, he, heq⟩, h₂⟩

/-- A directory loses one of its dots. -/
theorem eraseDot (h : NamesOk bare n) {dot : String} (hdot : IsDot dot) :
    NamesOk (fun x => bare x ∨ x = d) (n.eraseDot d dot) := by
  have hentry : ∀ b d' name, (n.eraseDot d dot).entry b d' name =
      if b = true ∧ d' = d ∧ name = dot then none else n.entry b d' name := fun b d name => rfl
  refine { h with
    entered := fun j hj hne hp => ?_, entry := fun b d' name j hent hname => ?_,
    disjoint := fun d' name => ?_, dots := fun d' hd hdir hb => ?_,
    dotEntry := fun d' name j hent hname => ?_ }
  -- an inode is entered under a name that is no dot
  · obtain ⟨h₁, h₂⟩ := h.entered j hj hne hp
    refine ⟨?_, h₂⟩
    rw [hentry, if_neg]
    · exact h₁
    · rintro ⟨-, -, hn⟩
      exact h₂ (hn ▸ hdot)
  · rw [hentry] at hent
    split at hent
    · cases hent
    · exact h.entry b d' name j hent hname
  · rw [hentry, hentry, if_neg fun hc => Bool.false_ne_true hc.1]
    refine (h.disjoint d' name).imp id fun hd => ?_
    split
    · rfl
    · exact hd
  -- another directory keeps its dots
  · have hne : d' ≠ d := fun heq => hb (.inr heq)
    rw [hentry, hentry, if_neg fun hc => hne hc.2.1, if_neg fun hc => hne hc.2.1]
    exact h.dots d' hd hdir fun hbare => hb (.inl hbare)
  · rw [hentry] at hent
    split at hent
    · cases hent
    · exact h.dotEntry d' name j hent hname

theorem mono {bare' : ℕ → Prop} (h : NamesOk bare n)
    (hb : ∀ d, n.inodeMap d → bare d → bare' d) : NamesOk bare' n :=
  { h with dots := fun d hd hdir hnot => h.dots d hd hdir fun hbare => hnot (hb d hd hbare) }

end NamesOk

end MultiStorageFileSystem
