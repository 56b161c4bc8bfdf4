/-
MultiStorageClient/FileTreeFinds.lean

Finding and creating inodes, run alone.

Each function has one lemma, of the form `EndsIn Q (fun _ => False)`: it does not
end the process, and after it `Q` holds.  `Ok` is kept up to the inodes that
wait for a `touch`, and `Grown` says what is left alone: inodes and entries only
come, under the names in `S`.
-/
import MultiStorageClient.FileTreeOps

namespace MultiStorageFileSystem

open Prog

namespace Names

/-- The inode under a name, as it is looked up. -/
def find (n : Names) (d : ℕ) (name : String) : Option ℕ :=
  (n.entry false d name).or (n.entry true d name)

end Names

/-- What is created is found under its name, and every other name as before. -/
theorem NamesOk.find_create {bare : ℕ → Prop} {n : Names} {ino : Inode}
    {m : ℕ → Option Backend} (c : NamesOk.Creates bare n ino m) {d : ℕ} (hd : d ≠ n.nonces.head)
    (name : String) : (n.create ino m).find d name =
      if d = ino.parentInodeNumber ∧ name = ino.basename then some n.nonces.head
      else n.find d name := by
  unfold Names.find
  rw [NamesOk.create_entry_of_ne n ino m hd, NamesOk.create_entry_of_ne n ino m hd]
  by_cases hc : d = ino.parentInodeNumber ∧ name = ino.basename
  · obtain ⟨rfl, rfl⟩ := hc
    have h₁ := c.free false
    cases hv : ino.isVirt
    · simp
    · simp [h₁]
  · rw [if_neg fun h => hc h.2, if_neg fun h => hc h.2, if_neg hc]

/-- What is found: a dot, or the entry of an inode that has it. -/
theorem NamesOk.find_cases {bare : ℕ → Prop} {n : Names} {d i : ℕ} {name : String}
    (h : NamesOk bare n) (hf : n.find d name = some i) :
    IsDot name ∧ n.entry true d name = some i ∨ ¬IsDot name ∧ ∃ b, n.entry b d name = some i := by
  unfold Names.find at hf
  rcases Option.or_eq_some_iff.mp hf with hent | ⟨-, hent⟩
  · obtain ⟨h₁, h₂, h₃, -, hbase, -⟩ := h.entry _ _ _ _ hent nofun
    exact .inr ⟨fun hname => (h.entered i h₁ h₂ h₃).2 (hbase ▸ hname), false, hent⟩
  · by_cases hname : IsDot name
    · exact .inl ⟨hname, hent⟩
    · exact .inr ⟨hname, true, hent⟩

/-- What is found is there. -/
theorem NamesOk.find_inode {bare : ℕ → Prop} {n : Names} {d i : ℕ} {name : String}
    (h : NamesOk bare n) (hd : n.inodeMap d) (hdir : n.isDir d) (hf : n.find d name = some i) :
    n.inodeMap i ∧ ¬n.Pending i := by
  rcases h.find_cases hf with ⟨hname, hent⟩ | ⟨hname, b, hent⟩
  · have hnp := h.not_pending_of_isDir hdir
    obtain ⟨-, -, hself, hup⟩ := h.dotEntry _ _ _ hent hname
    rcases hname with hname | hname
    · rw [hself hname]
      exact ⟨hd, hnp⟩
    · rw [hup hname]
      by_cases hroot : d = FUSERootDirInodeNumber
      · rw [hroot, h.rootInode.2.1, ← hroot]
        exact ⟨hd, hnp⟩
      · obtain ⟨h₁, h₂, -⟩ := h.parent d hd hroot hnp
        exact ⟨h₁, h.not_pending_of_isDir h₂⟩
  · obtain ⟨h₁, -, h₂, -⟩ := h.entry _ _ _ _ hent fun _ => hname
    exact ⟨h₁, h₂⟩

/-- What `findOrCreateChild` may create. -/
def Found.key (found : Found) (p : ℕ) (name : String) : ℕ → String → Prop :=
  fun d n => d = p ∧ n = name ∧ found ≠ .nothing

/-- The inode that is created for what is found. -/
def Found.inodeType : Found → Option InodeType
  | .manifest entry => some (if entry.isDir then .PseudoDir else .FileObject)
  | .file _ => some .FileObject
  | .directory => some .PseudoDir
  | .nothing => none

/-- No directory lacks its dots. -/
abbrev NoneBare : ℕ → Prop := fun _ => False

namespace FileTree

variable {S S' : ℕ → String → Prop} {left : Prop} {off : ℕ → Prop} {t t' t'' : FileTree}
  {i p d : ℕ} {name : String} {b : Bool}

/-- What finding and creating leaves alone. -/
structure Grown (S : ℕ → String → Prop) (t t' : FileTree) : Prop where
  inodeMap : ∀ i, t.inodeMap i → t'.inodeMap i
  inode : ∀ i, t.nonces.Given i → ∃ v, t'.inode i = { t.inode i with isVirt := v }
  given : ∀ i, t.nonces.Given i → t'.nonces.Given i
  head : t.nonces.head ≤ t'.nonces.head
  pending : t'.pending = t.pending
  find : ∀ d name i, t.names.find d name = some i → t'.names.find d name = some i
  free : ∀ d name, t.nonces.Given d → ¬S d name → t.names.find d name = none →
    t'.names.find d name = none
  globals : Prefetching t.globals t'.globals

/-- With the same names nothing is lost. -/
theorem Grown.of_names (hn : t'.names = t.names) (hg : Prefetching t.globals t'.globals) :
    Grown S t t' := by
  have hnonces : t'.nonces = t.nonces := congrArg Names.nonces hn
  have hmap : t'.inodeMap = t.inodeMap := congrArg Names.inodeMap hn
  have hinode : t'.inode = t.inode := congrArg Names.inode hn
  refine ⟨fun i hi => ?_, fun i _ => ⟨(t.inode i).isVirt, ?_⟩, fun i hi => ?_, ?_,
    congrArg Names.pending hn, fun d name i hi => ?_, fun d name _ _ hf => ?_, hg⟩
  · rw [hmap]
    exact hi
  · rw [hinode]
  · rw [hnonces]
    exact hi
  · rw [hnonces]
  · rw [hn]
    exact hi
  · rw [hn]
    exact hf

theorem Timed.grown (h : Timed i t t') : Grown S t t' := .of_names h.names (.of_now h.globals)

theorem Grown.refl : Grown S t t := .of_names rfl (.of_now ⟨_, rfl⟩)

theorem Grown.trans (h : Grown S t t') (h' : Grown S t' t'') : Grown S t t'' := by
  refine ⟨fun i hi => h'.inodeMap i (h.inodeMap i hi), fun i hi => ?_,
    fun i hi => h'.given i (h.given i hi), h.head.trans h'.head, h'.pending.trans h.pending,
    fun d name i hi => h'.find d name i (h.find d name i hi),
    fun d name hd hS hf => h'.free d name (h.given d hd) hS (h.free d name hd hS hf),
    h.globals.trans h'.globals⟩
  obtain ⟨v, hv⟩ := h.inode i hi
  obtain ⟨v', hv'⟩ := h'.inode i (h.given i hi)
  exact ⟨v', by rw [hv', hv]⟩

theorem Grown.mono (h : Grown S t t') (hS : ∀ d name, S d name → S' d name) : Grown S' t t' :=
  { h with free := fun d name hd hn => h.free d name hd fun hs => hn (hS d name hs) }

/-- An entry is put in the map that `isVirt` tells. -/
def putEntry (t : FileTree) (isVirt : Bool) (d : ℕ) (name : String) (i : ℕ) : FileTree :=
  if isVirt then t.virtPut d name i else t.physPut d name i

/-- A virt or a phys entry goes. -/
def deleteEntry (t : FileTree) (isVirt : Bool) (d : ℕ) (name : String) : FileTree :=
  if isVirt then t.virtDelete d name else t.physDelete d name

@[simp] theorem names_putEntry :
    (t.putEntry b d name i).names = t.names.setEntry b d name (some i) := by
  cases b
  · exact names_physPut
  · exact names_virtPut

/-- A new inode with its entries. -/
def created (t : FileTree) (ino : Inode) : FileTree :=
  let i := t.nonces.head
  let t := ({ t with nonces := t.nonces.tail }.inodePut i ino).putEntry ino.isVirt
    ino.parentInodeNumber ino.basename i
  if ino.inodeType = .FileObject then t
  else (t.virtPut i DotDirEntryBasename i).virtPut i DotDotDirEntryBasename ino.parentInodeNumber

/-- The names of a tree with one more inode. -/
theorem names_created {ino : Inode} :
    (t.created ino).names = t.names.create ino t.globals.backendMap := by
  unfold created Names.create Names.putDots
  dsimp only
  split
  next hfile =>
    rw [names_putEntry]
    rfl
  next hfile =>
    rw [names_virtPut, names_virtPut, names_putEntry]
    rfl

@[simp] theorem putEntry_xTime : (t.putEntry b d name i).xTime = t.xTime := by
  cases b <;> rfl

@[simp] theorem putEntry_queue :
    (t.putEntry b d name i).inodeEvictionQueue = t.inodeEvictionQueue := by
  cases b <;> rfl

@[simp] theorem putEntry_globals : (t.putEntry b d name i).globals = t.globals := by
  cases b <;> rfl

/-- The creation changes the names only. -/
theorem renamed_created (t : FileTree) (ino : Inode) :
    Renamed t (t.created ino) (t.names.create ino t.globals.backendMap) t.globals.backendMap := by
  refine ⟨names_created, ?_, ?_, ⟨t.globals.now, ?_⟩⟩ <;> unfold created <;> dsimp only
  · split
    · exact putEntry_xTime
    · exact putEntry_xTime
  · split
    · exact putEntry_queue
    · exact putEntry_queue
  · split
    · exact putEntry_globals
    · exact putEntry_globals

@[simp] theorem names_deleteEntry :
    (t.deleteEntry b d name).names = t.names.setEntry b d name none := by
  cases b
  · exact names_physDelete
  · exact names_virtDelete

end FileTree

namespace TreeSection

open FileTree

variable (cfg : TreeConfig) {S : ℕ → String → Prop} {left : Prop} {off : ℕ → Prop}
  {t t' : FileTree} {i p d : ℕ} {name : String} {b : Bool} {type : InodeType}

theorem runs_putEntry (h : t.names.entry b d name = none) :
    runs (putEntry b d name i) t = (.ok (), t.putEntry b d name i) := by
  unfold putEntry FileTree.putEntry
  cases b
  · have h : t.physGet d name = none := h
    simp [h]
  · have h : t.virtGet d name = none := h
    simp [h]

theorem runs_deleteEntry (h : t.names.entry b d name = some i) :
    runs (deleteEntry b d name) t = (.ok (), t.deleteEntry b d name) := by
  unfold deleteEntry FileTree.deleteEntry
  cases b
  · have h : t.physGet d name = some i := h
    simp [h]
  · have h : t.virtGet d name = some i := h
    simp [h]

theorem hasDots (h : t.Ok left NoneBare off) (hi : t.inodeMap i)
    (htype : (t.inode i).inodeType = .PseudoDir) : HasDots t i := by
  obtain ⟨h₁, h₂⟩ := h.names.dots i hi (fun hfile => absurd (hfile.symm.trans htype) (by decide)) id
  exact ⟨_, _, h₁, h₂⟩

/-- **`touch`**, and the inode waits no more. -/
theorem touch_ok (h : t.Ok left NoneBare off) (hi : t.inodeMap i) (hnp : ¬t.names.Pending i) :
    ∃ t', runs (touch cfg i) t = (.ok (), t') ∧ Timed i t t' ∧
      t'.Ok left NoneBare fun j => off j ∧ j ≠ i := by
  obtain ⟨t', hrun, ht, hidle⟩ := touch_spec cfg h.queue hi (hasDots h hi)
  exact ⟨t', hrun, ht, h.timed ht hi hnp hidle⟩

/-- `backendMap` has the backend of an inode. -/
theorem runs_backendOf (h : t.Ok left NoneBare off) (hi : t.inodeMap i)
    (hroot : i ≠ FUSERootDirInodeNumber) (hnp : ¬t.names.Pending i) :
    ∃ backend, t.globals.backendMap (t.inode i).backendNonce = some backend ∧
      runs (backendOf (t.inode i).backendNonce) t = (.ok backend, t) := by
  obtain ⟨-, hsome⟩ := h.names.backend i hi hroot hnp
  obtain ⟨backend, hb⟩ := Option.isSome_iff_exists.mp hsome
  have hb : t.globals.backendMap (t.inode i).backendNonce = some backend := hb
  exact ⟨backend, hb, by simp [backendOf, hb]⟩

/-! ### Creating -/

/-- The directory can have a new child of that name. -/
structure Room (t : FileTree) (p : ℕ) (name : String) : Prop where
  inodeMap : t.inodeMap p
  isDir : t.names.isDir p
  notRoot : p ≠ FUSERootDirInodeNumber
  free : t.names.find p name = none

theorem Room.entry (r : Room t p name) (b : Bool) : t.names.entry b p name = none := by
  have h := r.free
  unfold Names.find at h
  rw [Option.or_eq_none_iff] at h
  cases b
  · exact h.1
  · exact h.2

theorem Room.creates (r : Room t p name) {ino : Inode} (hp : ino.parentInodeNumber = p)
    (hname : ino.basename = name)
    (htype : ino.inodeType = .FileObject ∧ ino.isVirt = false ∨ ino.inodeType = .PseudoDir)
    (hnonce : ino.backendNonce = (t.inode p).backendNonce) :
    NamesOk.Creates NoneBare t.names ino t.globals.backendMap := by
  subst hp hname
  exact ⟨r.inodeMap, r.isDir, id, r.entry, .inl ⟨htype, r.notRoot, hnonce, rfl⟩⟩

/-- What is created is there, under its name. -/
structure Made (v : Bool) (type : InodeType) (t t' : FileTree) (p : ℕ) (name : String) (i : ℕ) :
    Prop where
  number : i = t.nonces.head
  names : ∃ ino, ino.inodeType = type ∧ ino.parentInodeNumber = p ∧
    t'.names = t.names.create ino t.globals.backendMap
  inodeMap : t'.inodeMap i
  notPending : ¬t'.names.Pending i
  entry : ∀ b d n, t.nonces.Given d → t'.names.entry b d n =
    if b = v ∧ d = p ∧ n = name then some i else t.names.entry b d n
  find : t'.names.find p name = some i
  grown : Grown (fun d n => d = p ∧ n = name) t t'

/-- A new inode under a name. -/
theorem created_ok (h : t.Ok left NoneBare off) {ino : Inode}
    (c : NamesOk.Creates NoneBare t.names ino t.globals.backendMap) :
    (t.created ino).Ok left NoneBare (fun j => off j ∨ j = ino.parentInodeNumber) ∧
      Made ino.isVirt ino.inodeType t (t.created ino) ino.parentInodeNumber ino.basename
        t.nonces.head := by
  have hr := renamed_created t ino
  have hp : ino.parentInodeNumber ≠ t.nonces.head := h.names.ne_head c.parent
  have hlt := NamesOk.head_lt_tail t.nonces
  have hmap :
      ∀ i, (t.created ino).inodeMap i = if i = t.nonces.head then true else t.inodeMap i := by
    intro i
    rw [show (t.created ino).inodeMap = (t.created ino).names.inodeMap from rfl, hr.names,
      NamesOk.create_inodeMap]
    rfl
  have hinode : ∀ i, (t.created ino).inode i = if i = t.nonces.head then ino else t.inode i := by
    intro i
    rw [show (t.created ino).inode = (t.created ino).names.inode from rfl, hr.names,
      NamesOk.create_inode]
    rfl
  have hnonces : (t.created ino).nonces = t.nonces.tail := by
    rw [show (t.created ino).nonces = (t.created ino).names.nonces from rfl, hr.names,
      NamesOk.create_nonces]
    rfl
  have hfind : ∀ d ≠ t.nonces.head, ∀ name, (t.created ino).names.find d name =
      if d = ino.parentInodeNumber ∧ name = ino.basename then some t.nonces.head
      else t.names.find d name := by
    intro d hd name
    rw [hr.names]
    exact NamesOk.find_create c hd name
  -- a number that was given is not the next one
  have hgiven : ∀ {i}, t.nonces.Given i → i ≠ t.nonces.head := by
    rintro i hi rfl
    exact NamesOk.head_not_given _ hi
  refine ⟨h.create c hr fun _ _ hb => hb, rfl, ⟨ino, rfl, rfl, hr.names⟩, ?_,
    ?_, fun b d n hd => ?_, ?_, ?_⟩
  · rw [hmap, if_pos rfl]
  -- the new inode has not been pending
  · rw [hr.names, NamesOk.create_pending]
    rintro ⟨e, he, heq⟩
    exact h.names.ne_head (h.names.ingested e he).1 heq
  · rw [hr.names]
    exact NamesOk.create_entry_of_ne _ _ _ (hgiven hd) b n
  · rw [hfind _ hp, if_pos ⟨rfl, rfl⟩]
  · refine ⟨fun i hi => ?_, fun i hi => ⟨(t.inode i).isVirt, ?_⟩, fun i hi => ?_, ?_, ?_,
      fun d name i hf => ?_, fun d name hd hS hf => ?_, .of_now hr.globals⟩
    · rw [hmap]
      split
      · rfl
      · exact hi
    · rw [hinode, if_neg (hgiven hi)]
    · rw [hnonces]
      exact NamesOk.given_tail hi
    · rw [hnonces]
      exact hlt.le
    · rw [show (t.created ino).pending = (t.created ino).names.pending from rfl, hr.names,
        NamesOk.create_pending_eq]
      rfl
    -- nothing is found in a directory that is not there yet
    · have hd : d ≠ t.nonces.head := by
        rintro rfl
        have hnone : ∀ b, t.names.entry b t.nonces.head name = none := fun b => h.names.entry_head
        unfold Names.find at hf
        rw [hnone, hnone] at hf
        cases hf
      rw [hfind d hd, if_neg]
      · exact hf
      -- the name was free, so what is found under another is what was
      · rintro ⟨rfl, rfl⟩
        unfold Names.find at hf
        rw [c.free, c.free] at hf
        cases hf
    · rw [hfind d (hgiven hd), if_neg hS]
      exact hf

/-- The rule for a program that is followed by touches of a directory and of
what is in it. -/
theorem touches_ok {α : Type} (h : t.Ok left NoneBare off) (hp : t.inodeMap p)
    (hpp : ¬t.names.Pending p) (hi : t.inodeMap i) (hip : ¬t.names.Pending i) (a : α) :
    ∃ t', runs (do touch cfg p; touch cfg i; pure a) t = (.ok a, t') ∧ t'.names = t.names ∧
      (∃ now, t'.globals = { t.globals with now := now }) ∧
      t'.Ok left NoneBare fun j => (off j ∧ j ≠ p) ∧ j ≠ i := by
  obtain ⟨t₁, hrun₁, ht₁, hok₁⟩ := touch_ok cfg h hp hpp
  have hmap₁ : t₁.inodeMap = t.inodeMap := congrArg Names.inodeMap ht₁.names
  obtain ⟨t₂, hrun₂, ht₂, hok₂⟩ := touch_ok cfg (i := i) hok₁ (by rw [hmap₁]; exact hi)
    (by rw [ht₁.names]; exact hip)
  obtain ⟨now₁, hg₁⟩ := ht₁.globals
  obtain ⟨now₂, hg₂⟩ := ht₂.globals
  refine ⟨t₂, ?_, ht₂.names.trans ht₁.names, ⟨now₂, ?_⟩, hok₂⟩
  · simp [hrun₁, hrun₂]
  · rw [hg₂, hg₁]

/-- What is created is there in every tree with the same names. -/
theorem Made.of_names (hm : Made b type t t' p name i) {t'' : FileTree}
    (hn : t''.names = t'.names) (hg : Prefetching t'.globals t''.globals) :
    Made b type t t'' p name i := by
  obtain ⟨ino, htype, hparent, hino⟩ := hm.names
  refine ⟨hm.number, ⟨ino, htype, hparent, hn.trans hino⟩, ?_, ?_, fun b d n hd => ?_, ?_,
    hm.grown.trans (.of_names hn hg)⟩
  · rw [show t''.inodeMap = t''.names.inodeMap from rfl, hn]
    exact hm.inodeMap
  · rw [hn]
    exact hm.notPending
  · rw [hn]
    exact hm.entry b d n hd
  · rw [hn]
    exact hm.find

/-- What follows the creation of an inode. -/
theorem made_ok (h : t.Ok left NoneBare off) (hp : t.inodeMap p) (hpp : ¬t.names.Pending p)
    {ino : Inode} (c : NamesOk.Creates NoneBare t.names ino t.globals.backendMap)
    (hparent : ino.parentInodeNumber = p) (hname : ino.basename = name) (hvirt : ino.isVirt = b)
    (htype : ino.inodeType = type) :
    EndsIn (fun i t' => t'.Ok left NoneBare (fun j => off j ∧ j ≠ p) ∧ Made b type t t' p name i)
      (fun _ => False) (runs (do touch cfg p; touch cfg t.nonces.head; pure t.nonces.head)
        (t.created ino)) := by
  obtain ⟨hok, hmade⟩ := created_ok h c
  rw [hparent, hname, hvirt, htype] at hmade
  rw [hparent] at hok
  obtain ⟨t', hrun, hn, hg, hok'⟩ := touches_ok cfg hok (hmade.grown.inodeMap p hp)
    (by
      rintro ⟨e, he, heq⟩
      rw [show (t.created ino).names.pending = t.pending from hmade.grown.pending] at he
      exact hpp ⟨e, he, heq⟩) hmade.inodeMap hmade.notPending t.nonces.head
  rw [hrun]
  refine ⟨hok'.off_mono ?_, hmade.of_names hn (.of_now hg)⟩
  rintro j ⟨⟨ho | ho, hjp⟩, -⟩
  · exact ⟨ho, hjp⟩
  · exact absurd ho hjp

theorem Room.notPending (r : Room t p name) (h : t.Ok left NoneBare off) : ¬t.names.Pending p :=
  h.names.not_pending_of_isDir r.isDir

theorem inodeMap_head (h : t.Ok left NoneBare off) : t.inodeMap t.nonces.head = false :=
  Bool.not_eq_true _ ▸ h.names.not_inodeMap_head

/-- **`createFileObjectInode`** -/
theorem createFileObjectInode_ok (h : t.Ok left NoneBare off) (r : Room t p name)
    (info : FileInfo) :
    EndsIn (fun i t' => t'.Ok left NoneBare (fun j => off j ∧ j ≠ p) ∧
        Made false .FileObject t t' p name i)
      (fun _ => False) (runs (createFileObjectInode cfg p false name info) t) := by
  obtain ⟨backend, -, hbackend⟩ := runs_backendOf h r.inodeMap r.notRoot (r.notPending h)
  have hput : runs (putEntry false p name t.nonces.head)
      ({ t with nonces := t.nonces.tail }.inodePut t.nonces.head
        (fileObjectInode (t.inode p) p false name info)) = _ := runs_putEntry (r.entry false)
  have hrun : runs (createFileObjectInode cfg p false name info) t =
      runs (do touch cfg p; touch cfg t.nonces.head; pure t.nonces.head)
        (t.created (fileObjectInode (t.inode p) p false name info)) := by
    simp only [createFileObjectInode, runs_bind, runs_deref, andThen_ok, hbackend,
      runs_fetchNonce, runs_inodePut, inodeMap_head h, Bool.false_eq_true, if_false,
      runs_orFatalf_true, hput]
    rfl
  rw [hrun]
  have c : NamesOk.Creates NoneBare t.names (fileObjectInode (t.inode p) p false name info)
      t.globals.backendMap := r.creates rfl rfl (.inl ⟨rfl, rfl⟩) rfl
  exact made_ok cfg h r.inodeMap (r.notPending h) c rfl rfl rfl rfl

/-- `createPseudoDirInode` up to its touches. -/
theorem runs_createPseudoDirInode (h : t.Ok left NoneBare off) (r : Room t p name) (v skip : Bool) :
    runs (createPseudoDirInode cfg p v name skip) t =
      runs (if skip then pure t.nonces.head
        else do touch cfg p; touch cfg t.nonces.head; pure t.nonces.head)
        ((t.modify Globals.later).created
          (pseudoDirInode (t.inode p) p v name (t.globals.now 0))) := by
  obtain ⟨backend, -, hbackend⟩ := runs_backendOf (t := t.modify Globals.later)
    (h.later _) r.inodeMap r.notRoot (r.notPending h)
  have hput : runs (putEntry v p name t.nonces.head)
      ({ t.modify Globals.later with nonces := t.nonces.tail }.inodePut t.nonces.head
        (pseudoDirInode (t.inode p) p v name (t.globals.now 0))) = _ := runs_putEntry (r.entry v)
  have hp : t.nonces.head ≠ p := (h.names.ne_head r.inodeMap).symm
  -- the entries of the new directory are free
  have hnew : ∀ dot, t.virtGet t.nonces.head dot = none := fun dot =>
    h.names.entry_head (b := true)
  have hvirt : ∀ dot, (({ t.modify Globals.later with nonces := t.nonces.tail }.inodePut
      t.nonces.head (pseudoDirInode (t.inode p) p v name (t.globals.now 0))).putEntry v p name
        t.nonces.head).virtGet t.nonces.head dot = none := by
    intro dot
    cases v
    · exact hnew dot
    · exact (virtGet_virtPut.trans (if_neg fun hc => hp hc.1)).trans (hnew dot)
  have hdotdot : DotDotDirEntryBasename ≠ DotDirEntryBasename := by decide
  have hold : t.inodeMap t.nonces.head = false := inodeMap_head h
  have hnot : (t.modify Globals.later).inodeMap t.nonces.head = false := hold
  rw [show (t.modify Globals.later).inode p = t.inode p from rfl] at hbackend
  simp only [createPseudoDirInode, timeNow, runs_bind, runs_deref, runs_globals, runs_modify,
    runs_pure, andThen_ok, show (t.modify Globals.later).inode p = t.inode p from rfl, hbackend,
    runs_fetchNonce, show (t.modify Globals.later).nonces = t.nonces from rfl, runs_inodePut, hnot,
    Bool.false_eq_true, if_false, runs_orFatalf_true, hput, runs_virtPut, hvirt,
    Option.isSome_none, virtGet_virtPut, hdotdot, and_false]
  rfl

/-- **`createPseudoDirInode`** -/
theorem createPseudoDirInode_ok (h : t.Ok left NoneBare off) (r : Room t p name) (v : Bool) :
    EndsIn (fun i t' => t'.Ok left NoneBare (fun j => off j ∧ j ≠ p) ∧
        Made v .PseudoDir t t' p name i)
      (fun _ => False) (runs (createPseudoDirInode cfg p v name false) t) := by
  rw [runs_createPseudoDirInode cfg h r]
  have hlater : (t.modify Globals.later).Ok left NoneBare off := h.later _
  have c : NamesOk.Creates NoneBare t.names (pseudoDirInode (t.inode p) p v name (t.globals.now 0))
      t.globals.backendMap := r.creates rfl rfl (.inr rfl) rfl
  have hname : (pseudoDirInode (t.inode p) p v name (t.globals.now 0)).basename = name := rfl
  refine (made_ok cfg hlater r.inodeMap (r.notPending h) c rfl hname rfl rfl).mono
    (fun i t' ht' => ⟨ht'.1, ht'.2.number, ht'.2.names, ht'.2.inodeMap, ht'.2.notPending,
      ht'.2.entry, ht'.2.find, ?_⟩) fun _ => id
  have hgrown : Grown (fun d n => d = p ∧ n = name) t (t.modify Globals.later) :=
    .of_names rfl (.of_now ⟨_, rfl⟩)
  exact hgrown.trans ht'.2.grown

/-! ### Finding -/

/-- The two lookups of a name. -/
theorem find_ends {α : Type} {Q : α → FileTree → Prop} {E : FileTree → Prop}
    {hit : ℕ → TreeSection α} {miss : TreeSection α}
    (hhit : ∀ i, t.names.find p name = some i → EndsIn Q E (runs (hit i) t))
    (hmiss : t.names.find p name = none → EndsIn Q E (runs miss t)) :
    EndsIn Q E (runs (do
      match ← physGet p name with
      | some i => hit i
      | none =>
          match ← virtGet p name with
          | some i => hit i
          | none => miss) t) := by
  have hfind : t.names.find p name = (t.physGet p name).or (t.virtGet p name) := rfl
  simp only [runs_bind, runs_physGet, andThen_ok]
  cases hphys : t.physGet p name with
  | some i => exact hhit i (by rw [hfind, hphys]; rfl)
  | none =>
      simp only [runs_bind, runs_virtGet, andThen_ok]
      cases hvirt : t.virtGet p name with
      | some i => exact hhit i (by rw [hfind, hphys, hvirt]; rfl)
      | none => exact hmiss (by rw [hfind, hphys, hvirt]; rfl)

theorem runs_childOf (hi : t.inodeMap i) : runs (childOf i) t = (.ok i, t) := by
  simp [childOf, hi]

theorem prefetching_addPrefetch (g : Globals) (d : ℕ) : Prefetching g (g.addPrefetch d) := by
  refine ⟨fun i => ?_, _, _, _, rfl⟩
  show ∃ v, Function.update g.use d _ i = _
  rw [Function.update_apply]
  split
  next hi => exact ⟨true, by rw [hi]⟩
  · exact ⟨(g.use i).isPrefetchInProgress, rfl⟩

/-- Who is not in use is not the directory. -/
theorem blank_ne (h : t.Ok left NoneBare off) (hp : t.inodeMap p) (hpp : ¬t.names.Pending p)
    (hi : ¬t.nonces.Given i ∨ t.names.Pending i) : i ≠ p := by
  rintro rfl
  rcases hi with hi | hi
  · exact hi (h.given hp)
  · exact hpp hi

/-- **`startPrefetch`** -/
theorem startPrefetch_ok (h : t.Ok left NoneBare off) (hp : t.inodeMap p) (hdir : t.names.isDir p)
    (hroot : p ≠ FUSERootDirInodeNumber) :
    ∃ t', runs (startPrefetch p) t = (.ok (), t') ∧ t'.names = t.names ∧ Grown S t t' ∧
      t'.Ok left NoneBare off := by
  simp only [startPrefetch, runs_bind, runs_globals, andThen_ok]
  split
  · exact ⟨t, rfl, rfl, .refl, h⟩
  · have hg := prefetching_addPrefetch t.globals p
    refine ⟨_, rfl, rfl, .of_names rfl hg, ?_⟩
    refine h.modify (fun g => g.addPrefetch p) rfl (fun i ho => ⟨ho, hg.idle⟩) (fun i hi => ?_) ?_
    · have hb := (h.blank i hi).2
      have hne := blank_ne h hp (h.names.not_pending_of_isDir hdir) hi
      exact ⟨(Function.update_of_ne hne ..).trans hb.use, hb.fhMap, hb.line⟩
    · refine hg.calls h.calls fun q hq => ?_
      rcases List.mem_append.mp hq with hq | hq
      · exact h.calls.prefetch q hq
      · obtain rfl := List.mem_singleton.mp hq
        exact ⟨h.names.dir_lt p hp hdir, hdir, hroot⟩

/-- A directory of a backend. -/
structure BackendDir (t : FileTree) (p : ℕ) : Prop where
  inodeMap : t.inodeMap p
  isDir : t.names.isDir p
  notRoot : p ≠ FUSERootDirInodeNumber

theorem BackendDir.room (hp : BackendDir t p) (hf : t.names.find p name = none) : Room t p name :=
  ⟨hp.inodeMap, hp.isDir, hp.notRoot, hf⟩

theorem BackendDir.notPending (hp : BackendDir t p) (h : t.Ok left NoneBare off) :
    ¬t.names.Pending p :=
  h.names.not_pending_of_isDir hp.isDir

theorem BackendDir.grown (hp : BackendDir t p) (h : t.Ok left NoneBare off) (hg : Grown S t t') :
    BackendDir t' p := by
  refine ⟨hg.inodeMap p hp.inodeMap, ?_, hp.notRoot⟩
  obtain ⟨v, hv⟩ := hg.inode p (h.given hp.inodeMap)
  show (t'.inode p).inodeType ≠ .FileObject
  rw [hv]
  exact hp.isDir

theorem notPending_grown (hnp : ¬t.names.Pending i) (hg : Grown S t t') : ¬t'.names.Pending i := by
  rintro ⟨e, he, heq⟩
  rw [show t'.names.pending = t.pending from hg.pending] at he
  exact hnp ⟨e, he, heq⟩

/-- The virt entries are left alone. -/
def KeepsVirt (t t' : FileTree) : Prop :=
  ∀ d name, t.nonces.Given d → t'.virtGet d name = t.virtGet d name

theorem KeepsVirt.trans_names (h : KeepsVirt t t') {t'' : FileTree} (hn : t''.names = t'.names) :
    KeepsVirt t t'' := by
  intro d name hd
  rw [show t''.virtGet = t'.virtGet from congrFun (congrArg Names.entry hn) true]
  exact h d name hd

theorem KeepsVirt.refl : KeepsVirt t t := fun _ _ _ => rfl

/-- What has been found or created under a name. -/
structure Hit (S : ℕ → String → Prop) (t t' : FileTree) (p : ℕ) (name : String) (i : ℕ) : Prop where
  inodeMap : t'.inodeMap i
  notPending : ¬t'.names.Pending i
  find : t'.names.find p name = some i
  found : t.names.find p name = some i ∨ i = t.nonces.head
  grown : Grown S t t'
  virt : KeepsVirt t t'

theorem Made.hit (h : Made false type t t' p name i) (hS : S p name) : Hit S t t' p name i := by
  refine ⟨h.inodeMap, h.notPending, h.find, .inr h.number,
    h.grown.mono fun _ _ hc => ?_, fun d n hd => ?_⟩
  · rw [hc.1, hc.2]
    exact hS
  · exact (h.entry true d n hd).trans (if_neg fun hc => Bool.noConfusion hc.1)

theorem Hit.of_names (hm : Hit S t t' p name i) {t'' : FileTree} (hn : t''.names = t'.names)
    (hg : Prefetching t'.globals t''.globals) : Hit S t t'' p name i := by
  refine ⟨?_, ?_, ?_, hm.found, hm.grown.trans (.of_names hn hg), hm.virt.trans_names hn⟩
  · rw [show t''.inodeMap = t''.names.inodeMap from rfl, hn]
    exact hm.inodeMap
  · rw [hn]
    exact hm.notPending
  · rw [hn]
    exact hm.find

theorem hit_of_find (h : t.Ok left NoneBare off) (hp : BackendDir t p)
    (hf : t.names.find p name = some i) : Hit S t t p name i := by
  obtain ⟨h₁, h₂⟩ := h.names.find_inode hp.inodeMap hp.isDir hf
  exact ⟨h₁, h₂, hf, .inl hf, .refl, .refl⟩

/-- The answer to a lookup. -/
inductive Looked (S : ℕ → String → Prop) (t t' : FileTree) (p : ℕ) (name : String) :
    Option ℕ → Prop
  | hit {i : ℕ} (h : Hit S t t' p name i) : Looked S t t' p name (some i)
  | miss (h : Grown S t t') (hv : KeepsVirt t t') (hf : t'.names.find p name = none) :
      Looked S t t' p name none

theorem Looked.grown {r : Option ℕ} (h : Looked S t t' p name r) : Grown S t t' := by
  cases h with
  | hit h => exact h.grown
  | miss h => exact h

/-- **`findOrCreateChild`** of a name that has an inode. -/
theorem findOrCreateChild_known (h : t.Ok left NoneBare off) (hp : BackendDir t p) {found : Found}
    (hf : t.names.find p name = some i) :
    runs (findOrCreateChild cfg p name found) t = (.ok (some i), t) := by
  obtain ⟨hi, -⟩ := h.names.find_inode hp.inodeMap hp.isDir hf
  have hfind : t.names.find p name = (t.physGet p name).or (t.virtGet p name) := rfl
  unfold findOrCreateChild
  rw [hfind] at hf
  rcases Option.or_eq_some_iff.mp hf with hphys | ⟨hphys, hvirt⟩
  · simp only [runs_bind, runs_physGet, hphys, andThen_ok, runs_map, runs_childOf hi]
  · simp only [runs_bind, runs_physGet, hphys, runs_virtGet, hvirt, andThen_ok, runs_map,
      runs_childOf hi]

/-- What has been created, with a prefetch. -/
theorem prefetched_ok {i : ℕ} (h : t.Ok left NoneBare off) (hp : BackendDir t p)
    (ht' : t'.Ok left NoneBare (fun j => off j ∧ j ≠ p) ∧ Made false type t t' p name i) :
    EndsIn (fun r t' => t'.Ok left NoneBare off ∧ ∃ i, r = some i ∧ Made false type t t' p name i)
      (fun _ => False) (runs (do startPrefetch p; pure (some i)) t') := by
  have hp' := hp.grown h ht'.2.grown
  obtain ⟨t'', hrun, hn, hg, hok⟩ := startPrefetch_ok (S := fun _ _ => False) ht'.1 hp'.inodeMap
    hp'.isDir hp'.notRoot
  rw [runs_bind, hrun, andThen_ok, runs_pure]
  exact ⟨hok.off_mono fun j => And.left, i, rfl, ht'.2.of_names hn hg.globals⟩

/-- **`findOrCreateChild`** of a name that has no inode. -/
theorem findOrCreateChild_made (h : t.Ok left NoneBare off) (hp : BackendDir t p) {found : Found}
    (hf : t.names.find p name = none) (htype : found.inodeType = some type) :
    EndsIn (fun r t' => t'.Ok left NoneBare off ∧ ∃ i, r = some i ∧ Made false type t t' p name i)
      (fun _ => False) (runs (findOrCreateChild cfg p name found) t) := by
  refine find_ends (fun i hi => nomatch hf.symm.trans hi) fun _ => ?_
  have r := hp.room hf
  obtain ⟨backend, -, hbackend⟩ := runs_backendOf h hp.inodeMap hp.notRoot (hp.notPending h)
  have hdir := createPseudoDirInode_ok cfg h r false
  have hfile := createFileObjectInode_ok cfg h r
  rw [runs_bind, runs_deref, andThen_ok, runs_bind, hbackend, andThen_ok]
  cases found with
  -- an entry of a manifest is a directory or a file
  | manifest entry =>
      obtain rfl := Option.some.inj htype
      dsimp only
      split
      · rw [runs_map]
        refine hdir.andThen fun i t' ht' => ?_
        exact ⟨ht'.1.off_mono fun j => And.left, i, rfl, ht'.2⟩
      · rw [runs_map]
        refine (hfile entry.info).andThen fun i t' ht' => ?_
        exact ⟨ht'.1.off_mono fun j => And.left, i, rfl, ht'.2⟩
  | file info =>
      obtain rfl := Option.some.inj htype
      rw [runs_bind]
      exact (hfile info).andThen fun i t' ht' => prefetched_ok h hp ht'
  | directory =>
      obtain rfl := Option.some.inj htype
      rw [runs_bind]
      exact hdir.andThen fun i t' ht' => prefetched_ok h hp ht'
  -- nothing that could be created
  | nothing => cases htype

/-- **`findOrCreateChild`** of a name under which nothing is. -/
theorem findOrCreateChild_nothing (h : t.Ok left NoneBare off) (hp : BackendDir t p)
    {found : Found} (hf : t.names.find p name = none) (htype : found.inodeType = none) :
    runs (findOrCreateChild cfg p name found) t = (.ok none, t) := by
  obtain ⟨backend, -, hbackend⟩ := runs_backendOf h hp.inodeMap hp.notRoot (hp.notPending h)
  obtain ⟨hphys, hvirt⟩ := Option.or_eq_none_iff.mp hf
  have hphys : t.physGet p name = none := hphys
  have hvirt : t.virtGet p name = none := hvirt
  unfold findOrCreateChild
  simp only [runs_bind, runs_physGet, hphys, runs_virtGet, hvirt, runs_deref, hbackend, andThen_ok]
  cases found with
  | nothing => rfl
  | manifest entry => cases htype
  | file info => cases htype
  | directory => cases htype

/-- **`findOrCreateChild`** -/
theorem findOrCreateChild_ok (h : t.Ok left NoneBare off) (hp : BackendDir t p) (found : Found) :
    EndsIn (fun r t' => t'.Ok left NoneBare off ∧ Looked (found.key p name) t t' p name r)
      (fun _ => False) (runs (findOrCreateChild cfg p name found) t) := by
  cases hf : t.names.find p name with
  | some i =>
      rw [findOrCreateChild_known cfg h hp hf]
      exact ⟨h, .hit (hit_of_find h hp hf)⟩
  | none =>
      cases htype : found.inodeType with
      | none =>
          rw [findOrCreateChild_nothing cfg h hp hf htype]
          exact ⟨h, .miss .refl .refl hf⟩
      | some type =>
          refine (findOrCreateChild_made cfg h hp hf htype).mono ?_ fun _ => id
          rintro _ t' ⟨hok, i, rfl, hmade⟩
          refine ⟨hok, .hit (hmade.hit ⟨rfl, rfl, ?_⟩)⟩
          rintro rfl
          cases htype

/-- **`findChildInode`** -/
theorem findChildInode_ok (h : t.Ok left NoneBare off) (hp : BackendDir t p) (found : Found) :
    EndsIn (fun r t' => t'.Ok left NoneBare off ∧ Looked (found.key p name) t t' p name r)
      (fun _ => False) (runs (findChildInode cfg p name found) t) := by
  unfold findChildInode
  rw [runs_bind]
  refine (findOrCreateChild_ok cfg h hp found).andThen fun r t₁ ⟨hok₁, hr⟩ => ?_
  have hp₁ := hp.grown h hr.grown
  obtain ⟨t₂, hrun₂, ht₂, hok₂⟩ := touch_ok cfg hok₁ hp₁.inodeMap (hp₁.notPending hok₁)
  rw [runs_bind, hrun₂, andThen_ok]
  cases hr with
  | miss hg hv hf =>
      refine ⟨hok₂.off_mono fun j => And.left, .miss (hg.trans ht₂.grown)
        (hv.trans_names ht₂.names) ?_⟩
      rw [ht₂.names]
      exact hf
  | hit hit =>
      have hit₂ := hit.of_names ht₂.names (.of_now ht₂.globals)
      obtain ⟨t₃, hrun₃, ht₃, hok₃⟩ := touch_ok cfg hok₂ hit₂.inodeMap hit₂.notPending
      dsimp only
      rw [runs_bind, hrun₃, andThen_ok]
      exact ⟨hok₃.off_mono fun j hj => hj.1.1, .hit (hit₂.of_names ht₃.names (.of_now ht₃.globals))⟩

/-- **`findChildInode`** of a name that has an inode. -/
theorem findChildInode_known (h : t.Ok left NoneBare off) (hp : BackendDir t p) (found : Found)
    (hf : t.names.find p name = some i) :
    ∃ t', runs (findChildInode cfg p name found) t = (.ok (some i), t') ∧ t'.names = t.names ∧
      (∃ now, t'.globals = { t.globals with now := now }) ∧ t'.Ok left NoneBare off := by
  obtain ⟨hi, hip⟩ := h.names.find_inode hp.inodeMap hp.isDir hf
  obtain ⟨t', hrun, hn, hg, hok⟩ := touches_ok cfg h hp.inodeMap (hp.notPending h) hi hip (some i)
  refine ⟨t', ?_, hn, hg, hok.off_mono fun j hj => hj.1.1⟩
  unfold findChildInode
  rw [runs_bind, findOrCreateChild_known cfg h hp hf, andThen_ok]
  exact hrun

/-- **`findChildInode`** of a name under which nothing is. -/
theorem findChildInode_nothing (h : t.Ok left NoneBare off) (hp : BackendDir t p) {found : Found}
    (hf : t.names.find p name = none) (htype : found.inodeType = none) :
    ∃ t', runs (findChildInode cfg p name found) t = (.ok none, t') ∧ t'.names = t.names ∧
      (∃ now, t'.globals = { t.globals with now := now }) ∧ t'.Ok left NoneBare off := by
  obtain ⟨t', hrun, ht, hok⟩ := touch_ok cfg h hp.inodeMap (hp.notPending h)
  refine ⟨t', ?_, ht.names, ht.globals, hok.off_mono fun j => And.left⟩
  unfold findChildInode
  rw [runs_bind, findOrCreateChild_nothing cfg h hp hf htype, andThen_ok, runs_bind, hrun,
    andThen_ok, runs_pure]

/-- **`findChildInode`** of a name that has no inode. -/
theorem findChildInode_made (h : t.Ok left NoneBare off) (hp : BackendDir t p) {found : Found}
    (hf : t.names.find p name = none) (htype : found.inodeType = some type) :
    EndsIn (fun r t' => t'.Ok left NoneBare off ∧ ∃ i, r = some i ∧ Made false type t t' p name i)
      (fun _ => False) (runs (findChildInode cfg p name found) t) := by
  unfold findChildInode
  rw [runs_bind]
  refine (findOrCreateChild_made cfg h hp hf htype).andThen ?_
  rintro _ t₁ ⟨hok₁, i, rfl, hmade⟩
  have hp₁ := hp.grown h hmade.grown
  obtain ⟨t₂, hrun, hn, hg, hok₂⟩ := touches_ok cfg hok₁ hp₁.inodeMap (hp₁.notPending hok₁)
    hmade.inodeMap hmade.notPending (some i)
  dsimp only
  rw [hrun]
  exact ⟨hok₂.off_mono fun j hj => hj.1.1, i, rfl, hmade.of_names hn (.of_now hg)⟩

/-- **`findChildDirInode`** and `findChildFileInode`. -/
theorem findChildOr_ok (h : t.Ok left NoneBare off) (hp : BackendDir t p) {create : TreeSection ℕ}
    (hcreate : Room t p name →
      EndsIn (fun i t' => t'.Ok left NoneBare (fun j => off j ∧ j ≠ p) ∧
          Made false type t t' p name i)
        (fun _ => False) (runs create t)) :
    EndsIn (fun i t' => t'.Ok left NoneBare off ∧
        Hit (fun d n => d = p ∧ n = name) t t' p name i)
      (fun _ => False) (runs (findChildOr cfg p name create) t) := by
  have hfirst : EndsIn (fun i t' => t'.Ok left NoneBare off ∧
      Hit (fun d n => d = p ∧ n = name) t t' p name i) (fun _ => False)
      (runs (findOr p name create) t) := by
    refine find_ends (fun i hf => ?_) fun hf => ?_
    · have hhit : Hit (fun d n => d = p ∧ n = name) t t p name i := hit_of_find h hp hf
      rw [runs_childOf hhit.inodeMap]
      exact ⟨h, hhit⟩
    · refine (hcreate (hp.room hf)).mono (fun i t' ht' => ?_) fun _ => id
      exact ⟨ht'.1.off_mono fun j => And.left, ht'.2.hit ⟨rfl, rfl⟩⟩
  unfold findChildOr
  rw [runs_bind]
  refine hfirst.andThen fun i t₁ ⟨hok₁, hhit⟩ => ?_
  have hp₁ := hp.grown h hhit.grown
  obtain ⟨t₂, hrun, hn, hg, hok₂⟩ := touches_ok cfg hok₁ hp₁.inodeMap (hp₁.notPending hok₁)
    hhit.inodeMap hhit.notPending i
  rw [hrun]
  exact ⟨hok₂.off_mono fun j hj => hj.1.1, hhit.of_names hn (.of_now hg)⟩

theorem findChildDirInode_ok (h : t.Ok left NoneBare off) (hp : BackendDir t p) :
    EndsIn (fun i t' => t'.Ok left NoneBare off ∧
        Hit (fun d n => d = p ∧ n = name) t t' p name i)
      (fun _ => False) (runs (findChildDirInode cfg p name) t) :=
  findChildOr_ok cfg h hp fun r => createPseudoDirInode_ok cfg h r false

theorem findChildFileInode_ok (h : t.Ok left NoneBare off) (hp : BackendDir t p) (info : FileInfo) :
    EndsIn (fun i t' => t'.Ok left NoneBare off ∧
        Hit (fun d n => d = p ∧ n = name) t t' p name i)
      (fun _ => False) (runs (findChildFileInode cfg p name info) t) :=
  findChildOr_ok cfg h hp fun r => createFileObjectInode_ok cfg h r info

/-! ### Directories that turn out to be real -/

/-- An entry that becomes physical is found as before. -/
theorem find_toPhys (h : t.names.entry true (t.inode i).parentInodeNumber (t.inode i).basename
      = some i) (hnone : t.names.entry false (t.inode i).parentInodeNumber (t.inode i).basename
      = none) (d : ℕ) (name : String) : (t.names.toPhys i).find d name = t.names.find d name := by
  unfold Names.find
  rw [NamesOk.toPhys_entry, NamesOk.toPhys_entry]
  by_cases hc : d = (t.names.inode i).parentInodeNumber ∧ name = (t.names.inode i).basename
  · rw [if_pos hc, if_pos hc, hc.1, hc.2, show t.names.entry true
      (t.names.inode i).parentInodeNumber (t.names.inode i).basename = _ from h,
      show t.names.entry false (t.names.inode i).parentInodeNumber (t.names.inode i).basename = _
      from hnone]
    rfl
  · rw [if_neg hc, if_neg hc]

/-- `convertToPhysInodeIfNecessary` after `untime`, up to `touch`. -/
def toPhys (t : FileTree) (i : ℕ) : FileTree :=
  ((t.setIsVirt i false).virtDelete (t.inode i).parentInodeNumber (t.inode i).basename).physPut
    (t.inode i).parentInodeNumber (t.inode i).basename i

theorem renamed_toPhys : Renamed t (toPhys t i) (t.names.toPhys i) t.globals.backendMap := by
  refine ⟨?_, rfl, rfl, _, rfl⟩
  unfold toPhys
  rw [names_physPut, names_virtDelete]
  rfl

/-- An entry that becomes physical loses nothing. -/
theorem grown_toPhys (hent : t.names.entry true (t.inode i).parentInodeNumber
      (t.inode i).basename = some i) (hnone : t.names.entry false (t.inode i).parentInodeNumber
      (t.inode i).basename = none) (hn : t'.names = t.names.toPhys i)
    (hg : Prefetching t.globals t'.globals) : Grown S t t' := by
  have hfind := find_toPhys hent hnone
  rw [← hn] at hfind
  have hnonces : t'.nonces = t.nonces := congrArg Names.nonces hn
  refine ⟨fun j hj => ?_, fun j _ => ⟨(t'.inode j).isVirt, ?_⟩, fun j hj => ?_, ?_,
    congrArg Names.pending hn, fun d name j hj => ?_, fun d name _ _ hf => ?_, hg⟩
  · rw [show t'.inodeMap = t.inodeMap from congrArg Names.inodeMap hn]
    exact hj
  · rw [show t'.inode = (t.names.toPhys i).inode from congrArg Names.inode hn]
    simp only [Names.toPhys, Function.update_apply]
    split
    next hji => rw [hji]; rfl
    · rfl
  · rw [hnonces]
    exact hj
  · rw [hnonces]
  · rw [hfind]
    exact hj
  · rw [hfind]
    exact hf

/-- The virt entry of a directory goes if the directory turns out to be real. -/
def Converted (i : ℕ) (t t' : FileTree) : Prop :=
  ∀ d name, t'.virtGet d name =
    if ((t.inode i).isVirt ∧ (t.inode i).inodeType = .PseudoDir) ∧
      d = (t.inode i).parentInodeNumber ∧ name = (t.inode i).basename then none
    else t.virtGet d name

/-- **`convertToPhysInodeIfNecessary`** -/
theorem convertToPhysInodeIfNecessary_ok (h : t.Ok left NoneBare off) (hi : t.inodeMap i)
    (hnp : ¬t.names.Pending i) :
    ∃ t', runs (convertToPhysInodeIfNecessary cfg i) t = (.ok (), t') ∧
      t'.Ok left NoneBare off ∧ Grown S t t' ∧ Converted i t t' := by
  unfold convertToPhysInodeIfNecessary
  rw [runs_bind, runs_deref, andThen_ok]
  split
  next hc =>
    refine ⟨t, rfl, h, .refl, fun d name => (if_neg fun hd => ?_).symm⟩
    rw [hd.1.1, hd.1.2] at hc
    cases hc
  next hc =>
    simp only [Bool.or_eq_true, Bool.not_eq_true', Bool.and_eq_true, bne_iff_ne, ne_eq, not_or,
      Bool.not_eq_false, not_and, not_not] at hc
    obtain ⟨hvirt, htype⟩ := hc
    -- a file is in no virt entry
    have hdir : (t.inode i).inodeType = .PseudoDir := by
      apply htype
      intro hfile
      have hphys : (t.inode i).isVirt = false := h.names.file i hi hfile
      rw [hvirt] at hphys
      cases hphys
    have hroot : i ≠ FUSERootDirInodeNumber := by
      rintro rfl
      rw [show (t.inode FUSERootDirInodeNumber).inodeType = _ from h.names.rootInode.1] at hdir
      cases hdir
    obtain ⟨hent, -⟩ := h.names.entered i hi hroot hnp
    rw [show (t.names.inode i).isVirt = true from hvirt] at hent
    have hnone : t.names.entry false (t.inode i).parentInodeNumber (t.inode i).basename = none := by
      rcases h.names.disjoint (t.inode i).parentInodeNumber (t.inode i).basename with hd | hd
      · exact hd
      · exact absurd (hd.symm.trans hent) nofun
    obtain ⟨ht₁, hx₁⟩ := timed_untimed (i := i) h.queue
    have hok₁ := h.timed ht₁ hi hnp fun hne => absurd hx₁ hne
    have hinode₁ : (t.untimed i).inode = t.inode := congrArg Names.inode ht₁.names
    have hok₂ : (toPhys (t.untimed i) i).Ok left NoneBare fun j => off j ∧ j ≠ i := by
      refine hok₁.toPhys ?_ ?_ ?_ renamed_toPhys
      · rw [show (t.untimed i).inodeMap = t.inodeMap from congrArg Names.inodeMap ht₁.names]
        exact hi
      · rw [hinode₁]
        exact hdir
      · rw [hinode₁]
        exact hvirt
    have hgrown₂ : Grown S t (toPhys (t.untimed i) i) := by
      refine grown_toPhys hent hnone ?_ (.of_now ht₁.globals)
      rw [renamed_toPhys.names, ht₁.names]
    obtain ⟨t₃, hrun₃, ht₃, hok₃⟩ := touch_ok cfg hok₂ (hgrown₂.inodeMap i hi)
      (notPending_grown hnp hgrown₂)
    have hconverted : Converted i t t₃ := by
      intro d name
      rw [show t₃.virtGet d name = t₃.names.entry true d name from rfl, ht₃.names,
        renamed_toPhys.names, ht₁.names, NamesOk.toPhys_entry]
      by_cases hkey : d = (t.names.inode i).parentInodeNumber ∧ name = (t.names.inode i).basename
      · rw [if_pos hkey]
        exact (if_pos ⟨⟨hvirt, hdir⟩, hkey⟩).symm
      · rw [if_neg hkey]
        exact (if_neg fun hc => hkey hc.2).symm
    refine ⟨t₃, ?_, hok₃.off_mono fun j hj => hj.1.1, hgrown₂.trans ht₃.grown, hconverted⟩
    have hvget : ((t.untimed i).setIsVirt i false).virtGet (t.inode i).parentInodeNumber
        (t.inode i).basename = some i := by
      show (t.untimed i).names.entry true _ _ = _
      rw [ht₁.names]
      exact hent
    have hpget : (((t.untimed i).setIsVirt i false).virtDelete (t.inode i).parentInodeNumber
        (t.inode i).basename).physGet (t.inode i).parentInodeNumber
          (t.inode i).basename = none := by
      show (t.untimed i).names.entry false _ _ = _
      rw [ht₁.names]
      exact hnone
    simp only [runs_bind, runs_untime h.queue hi, andThen_ok, runs_setIsVirt, runs_virtDelete,
      hvget, Option.isSome_some, if_true, runs_orFatalf_true, runs_physPut, hpget,
      Option.isSome_none, Bool.false_eq_true, if_false]
    rw [← hinode₁]
    exact hrun₃

end TreeSection

end MultiStorageFileSystem
