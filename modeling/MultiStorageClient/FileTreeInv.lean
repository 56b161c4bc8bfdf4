/-
MultiStorageClient/FileTreeInv.lean

The invariant of the file system.

`FileTree.names` forgets how the two maps are kept; each operation on them is
one on the names (`names_physPut` and its like), and the counts that `touch`
and `DoRmDir` take of a directory say what they are taken for
(`indexRange_empty`, `only_dots`).

`FileTree.Ok` says that the names are a tree, that the queue holds the inodes
with an `xTime` and each of them may be evicted (`Idle`), and what handles, data
cache lines and calls under way have to do with inodes that may be gone.  The
inodes in `off` wait for a `touch`.
-/
import MultiStorageClient.FileTreeSteps
import MultiStorageClient.Names

namespace MultiStorageFileSystem

/-! ### Ranges of keys -/

theorem empty_le (s : String) : "" ≤ s := by
  rw [String.le_iff_toList_le]
  exact not_lt.mp (List.not_lt_nil _)

/-- The keys of a directory are from its empty name to that of the next. -/
theorem key_range {d d' : ℕ} {name : String} :
    toLex (d, "") ≤ toLex (d', name) ∧ toLex (d', name) < toLex (d + 1, "") ↔ d' = d := by
  rw [Prod.Lex.toLex_le_toLex, Prod.Lex.toLex_lt_toLex]
  constructor
  · rintro ⟨h₁ | h₁, h₂ | h₂⟩
    · omega
    · exact absurd h₂.2 (not_lt.mpr (empty_le name))
    · omega
    · omega
  · rintro rfl
    exact ⟨.inr ⟨rfl, empty_le name⟩, .inl (Nat.lt_succ_self d')⟩

namespace DirEntries

variable {m : DirEntries} {d : ℕ} {name : String}

theorem start_le (d : ℕ) : toLex (d, "") ≤ (toLex (d + 1, "") : ℕ ×ₗ String) :=
  Prod.Lex.toLex_le_toLex.mpr (.inl (Nat.lt_succ_self d))

theorem indexRange_le (m : DirEntries) (d : ℕ) : (m.indexRange d).1 ≤ (m.indexRange d).2 :=
  SortedMap.rank_le (start_le d)

/-- The range of a directory without entries is empty. -/
theorem indexRange_empty :
    (m.indexRange d).2 - (m.indexRange d).1 = 0 ↔ ∀ name, m.get (toLex (d, name)) = none := by
  have hle := indexRange_le m d
  have heq : (m.indexRange d).2 - (m.indexRange d).1 = 0 ↔
      (m.indexRange d).1 = (m.indexRange d).2 := by omega
  rw [heq]
  refine (SortedMap.rank_eq_iff (start_le d)).trans ⟨fun h name => ?_, fun h k ha hb => ?_⟩
  · obtain ⟨ha, hb⟩ : toLex (d, "") ≤ toLex (d, name) ∧ toLex (d, name) < toLex (d + 1, "") :=
      key_range.mpr rfl
    exact h _ ha hb
  · obtain rfl : (ofLex k).1 = d := key_range.mp ⟨ha, hb⟩
    exact h (ofLex k).2

/-- The position of an entry of a directory is in its range. -/
theorem rank_mem {i : ℕ} (h : m.get (toLex (d, name)) = some i) :
    (m.indexRange d).1 ≤ m.rank (toLex (d, name)) ∧
      m.rank (toLex (d, name)) < (m.indexRange d).2 := by
  obtain ⟨ha, hb⟩ : toLex (d, "") ≤ toLex (d, name) ∧ toLex (d, name) < toLex (d + 1, "") :=
    key_range.mpr rfl
  exact ⟨SortedMap.rank_le ha, SortedMap.rank_lt h hb⟩

theorem rank_ne {k k' : ℕ ×ₗ String} {i j : ℕ} (h : m.get k = some i) (h' : m.get k' = some j)
    (hne : k ≠ k') : m.rank k ≠ m.rank k' := by
  rcases lt_or_gt_of_ne hne with hlt | hlt
  · exact (SortedMap.rank_lt h hlt).ne
  · exact (SortedMap.rank_lt h' hlt).ne'

/-- **A directory with two entries has only the dots.** -/
theorem only_dots {i j : ℕ} (hdot : m.get (toLex (d, DotDirEntryBasename)) = some i)
    (hdotdot : m.get (toLex (d, DotDotDirEntryBasename)) = some j)
    (htwo : (m.indexRange d).2 - (m.indexRange d).1 ≤ 2) (hname : m.get (toLex (d, name)) ≠ none) :
    IsDot name := by
  by_contra hnot
  obtain ⟨c, hc⟩ := Option.ne_none_iff_exists'.mp hname
  have hkey : ∀ {a b : String}, a ≠ b → toLex (d, a) ≠ (toLex (d, b) : ℕ ×ₗ String) :=
    fun hab heq => hab (congrArg Prod.snd (toLex.injective heq))
  have h₁ := rank_ne hdot hdotdot (hkey (by decide))
  have h₂ := rank_ne hdot hc (hkey fun h => hnot (.inl h.symm))
  have h₃ := rank_ne hdotdot hc (hkey fun h => hnot (.inr h.symm))
  have := rank_mem hdot
  have := rank_mem hdotdot
  have := rank_mem hc
  omega

/-- A directory with only the dots has at most two entries. -/
theorem indexRange_two (hdots : ∀ name, m.get (toLex (d, name)) ≠ none → IsDot name) :
    (m.indexRange d).2 - (m.indexRange d).1 ≤ 2 := by
  let keys := (m.range (toLex (d, "")) (toLex (d + 1, ""))).map Prod.fst
  have hlength : (m.indexRange d).2 - (m.indexRange d).1 = keys.length := by
    rw [List.length_map, SortedMap.length_range]
    rfl
  have hnodup : keys.Nodup :=
    List.Pairwise.map _ (fun _ _ hlt => hlt.ne) SortedMap.range_sorted
  have hsub : keys ⊆ [toLex (d, DotDirEntryBasename), toLex (d, DotDotDirEntryBasename)] := by
    intro k hk
    obtain ⟨⟨k, i⟩, hmem, rfl⟩ := List.mem_map.mp hk
    obtain ⟨hget, ha, hb⟩ := SortedMap.mem_range.mp hmem
    obtain rfl : (ofLex k).1 = d := key_range.mp ⟨ha, hb⟩
    have hne : m.get (toLex ((ofLex k).1, (ofLex k).2)) ≠ none :=
      fun hnone => nomatch hget.symm.trans hnone
    rcases hdots (ofLex k).2 hne with hname | hname
    · rw [← hname]
      exact List.mem_cons_self ..
    · rw [← hname]
      exact List.mem_cons_of_mem _ (List.mem_cons_self ..)
  rw [hlength]
  exact (List.subperm_of_subset hnodup hsub).length_le

end DirEntries

namespace FileTree

variable {t : FileTree} {d d' i j : ℕ} {name name' : String} {m : DirEntries}

/-! ### The names -/

/-- The names, however they are kept. -/
def names (t : FileTree) : Names where
  nonces := t.nonces
  inodeMap := t.inodeMap
  inode := t.inode
  entry isVirt := if isVirt then t.virtGet else t.physGet
  backendMap := t.globals.backendMap
  pending := t.pending

theorem shardFor_setShard :
    (t.setShard d m).shardFor d' =
      if d' % dirEntryMapShardCount = d % dirEntryMapShardCount then m else t.shardFor d' :=
  Function.update_apply ..

theorem key_inj : toLex (d, name) = (toLex (d', name') : ℕ ×ₗ String) ↔ d = d' ∧ name = name' := by
  rw [toLex_inj, Prod.mk.injEq]

/-- A put is seen under its own directory and name. -/
theorem physGet_physPut : (t.physPut d name i).physGet d' name' =
    if d' = d ∧ name' = name then some i else t.physGet d' name' := by
  unfold physGet physPut
  rw [shardFor_setShard]
  by_cases hd : d' % dirEntryMapShardCount = d % dirEntryMapShardCount
  · rw [if_pos hd, SortedMap.get_insert]
    simp only [key_inj]
    unfold shardFor
    rw [hd]
  · have hne : ¬(d' = d ∧ name' = name) := fun hc => hd (hc.1 ▸ rfl)
    rw [if_neg hd, if_neg hne]

/-- A deletion is seen under its own directory and name. -/
theorem physGet_physDelete : (t.physDelete d name).physGet d' name' =
    if d' = d ∧ name' = name then none else t.physGet d' name' := by
  unfold physGet physDelete
  rw [shardFor_setShard]
  by_cases hd : d' % dirEntryMapShardCount = d % dirEntryMapShardCount
  · rw [if_pos hd, SortedMap.get_erase]
    simp only [key_inj]
    unfold shardFor
    rw [hd]
  · have hne : ¬(d' = d ∧ name' = name) := fun hc => hd (hc.1 ▸ rfl)
    rw [if_neg hd, if_neg hne]

theorem virtGet_virtPut : (t.virtPut d name i).virtGet d' name' =
    if d' = d ∧ name' = name then some i else t.virtGet d' name' := by
  unfold virtGet virtPut
  dsimp only
  rw [SortedMap.get_insert]
  simp only [key_inj]

theorem virtGet_virtDelete : (t.virtDelete d name).virtGet d' name' =
    if d' = d ∧ name' = name then none else t.virtGet d' name' := by
  unfold virtGet virtDelete
  dsimp only
  rw [SortedMap.get_erase]
  simp only [key_inj]

/-- One entry changes. -/
theorem names_setEntry {t' : FileTree} {b : Bool} {v : Option ℕ}
    (h : ∀ d' name', t'.names.entry b d' name' =
      if d' = d ∧ name' = name then v else t.names.entry b d' name')
    (hother : t'.names.entry (!b) = t.names.entry (!b)) (hrest : t'.names =
      { t.names with entry := t'.names.entry }) : t'.names = t.names.setEntry b d name v := by
  rw [hrest]
  unfold Names.setEntry
  dsimp only
  congr 1
  funext b' d' name'
  by_cases hb : b' = b
  · subst hb
    simp only [true_and, h]
  · rw [if_neg fun hc => hb hc.1]
    cases b <;> cases b' <;> first | exact absurd rfl hb | exact congrFun (congrFun hother d') name'

@[simp] theorem names_physPut :
    (t.physPut d name i).names = t.names.setEntry false d name (some i) :=
  names_setEntry (fun _ _ => physGet_physPut) rfl rfl

@[simp] theorem names_physDelete :
    (t.physDelete d name).names = t.names.setEntry false d name none :=
  names_setEntry (fun _ _ => physGet_physDelete) rfl rfl

@[simp] theorem names_virtPut :
    (t.virtPut d name i).names = t.names.setEntry true d name (some i) :=
  names_setEntry (fun _ _ => virtGet_virtPut) rfl rfl

@[simp] theorem names_virtDelete :
    (t.virtDelete d name).names = t.names.setEntry true d name none :=
  names_setEntry (fun _ _ => virtGet_virtDelete) rfl rfl

end FileTree

/-! ### The invariant -/

/-- `touch` puts the inode on the eviction queue. -/
def Idle (n : Names) (g : Globals) (i : ℕ) : Prop :=
  match (n.inode i).inodeType with
  | .FileObject => (g.use i).pendingDelete = false ∧ (g.use i).fhSet = [] ∧
      (g.use i).inboundCacheLineCount = 0
  | .PseudoDir => (g.use i).fhSet = [] ∧
      ∀ b name, n.entry b i name ≠ none → b = true ∧ IsDot name
  | _ => False

/-- Nobody has used the number, for an inode or for a handle. -/
structure Blank (g : Globals) (i : ℕ) : Prop where
  use : g.use i = ⟨[], false, false, 0⟩
  fhMap : g.fhMap i = none
  line : ∀ line ∈ g.dataCacheLinesTracker, line.inodeNumber = i → line.state ≠ .inbound

/-- The number of lines that are being fetched for an inode. -/
def inboundLines (g : Globals) (i : ℕ) : ℕ :=
  g.dataCacheLinesTracker.countP fun line => line.inodeNumber = i ∧ line.state = .inbound

/-- The inode is there, or its backend was and is not any more. -/
def Lives (n : Names) (i : ℕ) (alive : Prop) : Prop :=
  n.inodeMap i ∧ alive ∨ ¬n.inodeMap i ∧ n.backendMap (n.inode i).backendNonce = none ∧
    (n.inode i).backendNonce < n.nonces.head

/-- The previous page of a handle reaches to the next one. -/
def PagesOk (h : Fh) : Prop :=
  ∀ k, h.prevListDirectoryOutputStartingOffset ≤ k →
    k < h.nextListDirectoryOutputStartingOffset →
      ∃ page, h.prevListDirectoryOutput = some page ∧
        k - h.prevListDirectoryOutputStartingOffset < page.file.length

/-- What handles and calls under way have to do with inodes. -/
structure CallsOk (n : Names) (g : Globals) : Prop where
  handle : ∀ i fh, n.inodeMap i → fh ∈ (g.use i).fhSet → ∃ h, g.fhMap fh = some h ∧ h.inode = i
  handle_nodup : ∀ i, (g.use i).fhSet.Nodup
  pages : ∀ fh h, g.fhMap fh = some h → PagesOk h
  listing : ∀ fh h, g.fhMap fh = some h → h.listDirectoryInProgress.isSome →
    h.inode < n.nonces.head ∧ n.isDir h.inode ∧ h.inode ≠ FUSERootDirInodeNumber ∧
      Lives n h.inode (fh ∈ (g.use h.inode).fhSet)
  prefetch : ∀ p ∈ g.prefetches, p.dirInodeNumber < n.nonces.head ∧ n.isDir p.dirInodeNumber ∧
    p.dirInodeNumber ≠ FUSERootDirInodeNumber
  pendingDelete : ∀ i ∈ g.pendingDeletes, n.nonces.Given i ∧
    (n.inode i).inodeType = .FileObject ∧ (n.inode i).isVirt = false ∧
      Lives n i (¬n.Pending i ∧ (g.use i).pendingDelete ∧ (g.use i).fhSet = [])
  pendingDelete_nodup : g.pendingDeletes.Nodup
  lines : ∀ i, n.inodeMap i → inboundLines g i = (g.use i).inboundCacheLineCount

/-- The time does not matter. -/
theorem CallsOk.later {n : Names} {g : Globals} (h : CallsOk n g) (now : ℕ → ℕ) :
    CallsOk n { g with now := now } :=
  ⟨h.handle, h.handle_nodup, h.pages, h.listing, h.prefetch, h.pendingDelete, h.pendingDelete_nodup,
    h.lines⟩

theorem Blank.later {g : Globals} {i : ℕ} (h : Blank g i) (now : ℕ → ℕ) :
    Blank { g with now := now } i :=
  ⟨h.use, h.fhMap, h.line⟩

namespace FileTree

/-- The eviction queue holds the inodes with an `xTime`. -/
def QueueOk (t : FileTree) : Prop :=
  ∀ x i, t.inodeEvictionQueue.get (toLex (x, i)) = some () ↔ t.inodeMap i ∧ t.xTime i = some x

/-- The invariant of the tree.  Dots of directories that are gone may be left if
`left` holds. -/
structure TreeOk (left : Prop) (bare off : ℕ → Prop) (t : FileTree) : Prop where
  names : NamesOk bare t.names
  swept : ∀ d name, t.virtGet d name ≠ none → t.inodeMap d ∨ left
  queue : t.QueueOk
  idle : ∀ i, t.inodeMap i → t.xTime i ≠ none → ¬off i → Idle t.names t.globals i
  blank : ∀ i, ¬t.nonces.Given i ∨ t.names.Pending i → t.xTime i = none ∧ Blank t.globals i

/-- **The invariant.** -/
structure Ok (left : Prop) (bare off : ℕ → Prop) (t : FileTree) : Prop extends
    TreeOk left bare off t where
  calls : CallsOk t.names t.globals

end FileTree

/-! ### Sections that run -/

namespace TreeSection

open Prog FileTree

variable {α β : Type} {t : FileTree} {E : FileTree → Prop}

/-- Run a section alone. -/
def runs (x : TreeSection α) (t : FileTree) : Except Fatal α × FileTree := run act x t

@[simp] theorem runs_pure (a : α) : runs (pure a) t = (.ok a, t) := rfl

@[simp] theorem runs_bind (x : TreeSection α) (f : α → TreeSection β) :
    runs (x >>= f) t = andThen (fun a => runs (f a)) (runs x t) := run_bind act x f t

@[simp] theorem runs_map (f : α → β) (x : TreeSection α) :
    runs (f <$> x) t = andThen (fun a t' => (.ok (f a), t')) (runs x t) :=
      runs_bind x fun a => pure (f a)

@[simp] theorem runs_fatalf : runs (fatalf : TreeSection α) t = (.error .fatalf, t) := rfl

variable (t) (i d k : ℕ) (name : String)

@[simp] theorem runs_fetchNonce :
    runs fetchNonce t = (.ok t.nonces.head, { t with nonces := t.nonces.tail }) := rfl

@[simp] theorem runs_inodeGet : runs (inodeGet i) t = (.ok (t.inodeMap i), t) := rfl

@[simp] theorem runs_deref : runs (deref i) t = (.ok (t.inode i), t) := rfl

@[simp] theorem runs_setIsVirt (v : Bool) :
    runs (setIsVirt i v) t = (.ok (), t.setIsVirt i v) := rfl

@[simp] theorem runs_physGet : runs (physGet d name) t = (.ok (t.physGet d name), t) := rfl

@[simp] theorem runs_physIndexRange :
    runs (physIndexRange d) t = (.ok ((t.shardFor d).indexRange d), t) := rfl

@[simp] theorem runs_physByIndex :
    runs (physByIndex d k) t = (.ok ((t.shardFor d).byIndex k), t) := rfl

@[simp] theorem runs_virtGet : runs (virtGet d name) t = (.ok (t.virtGet d name), t) := rfl

@[simp] theorem runs_virtIndexRange :
    runs (virtIndexRange d) t = (.ok (t.virtChildDirEntryMap.indexRange d), t) := rfl

@[simp] theorem runs_virtByIndex :
    runs (virtByIndex k) t = (.ok (t.virtChildDirEntryMap.byIndex k), t) := rfl

@[simp] theorem runs_xTime : runs (xTime i) t = (.ok (t.xTime i), t) := rfl

@[simp] theorem runs_setXTime (x : Option ℕ) :
    runs (setXTime i x) t = (.ok (), t.setXTime i x) := rfl

@[simp] theorem runs_globals : runs globals t = (.ok t.globals, t) := rfl

@[simp] theorem runs_modify (f : Globals → Globals) :
    runs (modify f) t = (.ok (), t.modify f) := rfl

omit t in
/-- An operation that may say no. -/
theorem runs_if {c : Prop} [Decidable c] {o : TreeOp} {t : FileTree} {a a' : o.Answer}
    {t₁ t₂ : FileTree} (h : act o t = if c then (a, t₁) else (a', t₂)) :
    runs (perform o) t = if c then (.ok a, t₁) else (.ok a', t₂) := by
  show ((.ok (act o t).1, (act o t).2) : Except Fatal o.Answer × FileTree) = _
  rw [h]
  split <;> rfl

@[simp] theorem runs_inodePut (ino : Inode) : runs (inodePut i ino) t =
    if t.inodeMap i then (.ok false, t) else (.ok true, t.inodePut i ino) := runs_if rfl

@[simp] theorem runs_inodeDelete : runs (inodeDelete i) t =
    if t.inodeMap i then (.ok true, t.inodeDelete i) else (.ok false, t) := runs_if rfl

@[simp] theorem runs_physPut : runs (physPut d name i) t =
    if (t.physGet d name).isSome then (.ok false, t) else (.ok true, t.physPut d name i) :=
      runs_if rfl

@[simp] theorem runs_physDelete : runs (physDelete d name) t =
    if (t.physGet d name).isSome then (.ok true, t.physDelete d name) else (.ok false, t) :=
      runs_if rfl

@[simp] theorem runs_virtPut : runs (virtPut d name i) t =
    if (t.virtGet d name).isSome then (.ok false, t) else (.ok true, t.virtPut d name i) :=
      runs_if rfl

@[simp] theorem runs_virtDelete : runs (virtDelete d name) t =
    if (t.virtGet d name).isSome then (.ok true, t.virtDelete d name) else (.ok false, t) :=
      runs_if rfl

@[simp] theorem runs_queueInsert : runs (queueInsert i) t =
    if (t.inodeEvictionQueue.get (t.queueKey i)).isSome then (.ok false, t) else
      (.ok true, t.queueInsert i) := runs_if rfl

@[simp] theorem runs_queueRemove : runs (queueRemove i) t =
    if (t.inodeEvictionQueue.get (t.queueKey i)).isSome then (.ok true, t.queueRemove i) else
      (.ok false, t) := runs_if rfl

/-- Whether a directory has phys entries, as `touch` sees it. -/
theorem runs_physIsEmpty : ∃ b, runs (physIsEmpty d) t = (.ok b, t) ∧
    (b = true ↔ ∀ name, t.physGet d name = none) := by
  refine ⟨_, rfl, ?_⟩
  show (((t.shardFor d).indexRange d).2 - ((t.shardFor d).indexRange d).1 == 0) = true ↔ _
  rw [beq_iff_eq]
  exact DirEntries.indexRange_empty

@[simp] theorem runs_orFatalf_true : runs (orFatalf true) t = (.ok (), t) := rfl

@[simp] theorem runs_orFatalf_false : runs (orFatalf false) t = (.error .fatalf, t) := rfl

end TreeSection

end MultiStorageFileSystem
