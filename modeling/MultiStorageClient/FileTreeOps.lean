/-
MultiStorageClient/FileTreeOps.lean

What the functions on inodes and entries do, run alone.

`runs` evaluates a section.  A function that cannot end the process from a state
that is `Ok` has a lemma that says so and what the state is then.
-/
import MultiStorageClient.FileTreeInv

namespace MultiStorageFileSystem

open Prog

namespace FileTree

variable {t : FileTree} {i j : ℕ}

/-- After `untime`. -/
def untimed (t : FileTree) (i : ℕ) : FileTree :=
  if (t.xTime i).isSome then (t.queueRemove i).setXTime i none else t

/-- After `enqueue`. -/
def enqueued (t : FileTree) (i ttl : ℕ) : FileTree :=
  ((t.modify Globals.later).setXTime i (some (t.globals.now 0 + ttl))).queueInsert i

theorem QueueOk.isSome (h : t.QueueOk) (hi : t.inodeMap i) (hx : (t.xTime i).isSome) :
    (t.inodeEvictionQueue.get (t.queueKey i)).isSome := by
  obtain ⟨x, hx⟩ := Option.isSome_iff_exists.mp hx
  unfold queueKey
  rw [hx, Option.getD_some, (h x i).mpr ⟨hi, hx⟩]
  rfl

/-- An inode without `xTime` is not in the queue. -/
theorem QueueOk.get_none (h : t.QueueOk) (hx : t.xTime i = none) (x : ℕ) :
    t.inodeEvictionQueue.get (toLex (x, i)) = none := by
  by_contra hne
  obtain ⟨⟨⟩, hget⟩ := Option.ne_none_iff_exists'.mp hne
  have := ((h x i).mp hget).2
  rw [hx] at this
  cases this

theorem queueRemove_get (x j : ℕ) (hi : (t.xTime i).isSome) :
    (t.queueRemove i).inodeEvictionQueue.get (toLex (x, j)) =
      if some x = t.xTime i ∧ j = i then none else t.inodeEvictionQueue.get (toLex (x, j)) := by
  obtain ⟨y, hy⟩ := Option.isSome_iff_exists.mp hi
  unfold queueRemove queueKey
  rw [SortedMap.get_erase, hy, Option.getD_some]
  simp only [toLex_inj, Prod.mk.injEq, Option.some.injEq]

/-- What a `touch` or less may change. -/
structure Timed (i : ℕ) (t t' : FileTree) : Prop where
  names : t'.names = t.names
  xTime : ∀ j ≠ i, t'.xTime j = t.xTime j
  globals : ∃ now, t'.globals = { t.globals with now := now }
  queue : t'.QueueOk

/-- An inode leaves the queue, and nothing else changes. -/
theorem timed_untimed (h : t.QueueOk) : Timed i t (t.untimed i) ∧ (t.untimed i).xTime i = none := by
  unfold untimed
  split
  next hx =>
    refine ⟨⟨rfl, fun j hj => Function.update_of_ne hj .., ⟨_, rfl⟩, fun x j => ?_⟩,
      Function.update_self ..⟩
    show (t.queueRemove i).inodeEvictionQueue.get _ = _ ↔ t.inodeMap j ∧ _
    rw [queueRemove_get x j hx]
    by_cases hj : j = i
    · subst hj
      simp only [setXTime, Function.update_self]
      split
      · simp
      next hne =>
        rw [h x j]
        constructor
        · rintro ⟨-, hx⟩
          exact absurd ⟨hx.symm, trivial⟩ hne
        · rintro ⟨-, hx⟩
          cases hx
    · rw [if_neg fun hc => hj hc.2, h x j]
      simp only [setXTime, Function.update_of_ne hj]
      rfl
  next hx => exact ⟨⟨rfl, fun _ _ => rfl, ⟨_, rfl⟩, h⟩, Option.not_isSome_iff_eq_none.mp hx⟩

/-- An inode enters the queue, and nothing else changes. -/
theorem timed_enqueued (h : t.QueueOk) (hi : t.inodeMap i) (hx : t.xTime i = none) (ttl : ℕ) :
    Timed i t (t.enqueued i ttl) := by
  refine ⟨rfl, fun j hj => Function.update_of_ne hj .., ⟨_, rfl⟩, fun x j => ?_⟩
  unfold enqueued queueInsert queueKey
  dsimp only
  rw [SortedMap.get_insert]
  simp only [setXTime, modify, Function.update_self, Option.getD_some, toLex_inj, Prod.mk.injEq]
  by_cases hj : j = i
  · subst hj
    simp only [Function.update_self, and_true, Option.some.injEq]
    split
    next hx => simp [hi, hx]
    next hne =>
      rw [h x j, hx]
      simp [Ne.symm hne]
  · simp only [hj, and_false, if_false, Function.update_of_ne hj]
    exact h x j

theorem Timed.trans {t' t'' : FileTree} (h : Timed i t t') (h' : Timed i t' t'') :
    Timed i t t'' := by
  obtain ⟨now, hg⟩ := h.globals
  obtain ⟨now', hg'⟩ := h'.globals
  refine ⟨h'.names.trans h.names, fun j hj => (h'.xTime j hj).trans (h.xTime j hj), ⟨now', ?_⟩,
    h'.queue⟩
  rw [hg', hg]

end FileTree

namespace TreeSection

open FileTree

variable (cfg : TreeConfig) {t : FileTree} {i d : ℕ} {name : String}

theorem runs_untime (h : t.QueueOk) (hi : t.inodeMap i) :
    runs (untime i) t = (.ok (), t.untimed i) := by
  unfold untimed
  by_cases hx : (t.xTime i).isSome
  · have hget := h.isSome hi hx
    simp [untime, hx, hget]
  · simp [untime, hx]

/-- The run of `enqueue`. -/
theorem runs_enqueue (h : t.QueueOk) (hx : t.xTime i = none) (ttl : ℕ) :
    runs (enqueue i ttl) t = (.ok (), t.enqueued i ttl) := by
  have hget := h.get_none hx (t.globals.now 0 + ttl)
  have hkey : ((t.modify Globals.later).setXTime i (some (t.globals.now 0 + ttl))).queueKey i =
      toLex (t.globals.now 0 + ttl, i) := by
    simp [queueKey, FileTree.setXTime]
  have hnone : (((t.modify Globals.later).setXTime i (some (t.globals.now 0 + ttl))
      ).inodeEvictionQueue.get (toLex (t.globals.now 0 + ttl, i))).isSome = false := by
    show (t.inodeEvictionQueue.get _).isSome = false
    rw [hget]
    rfl
  simp [enqueue, timeNow, hkey, hnone, enqueued]

/-- The dots of a directory are there. -/
def HasDots (t : FileTree) (d : ℕ) : Prop :=
  ∃ i j, t.virtGet d DotDirEntryBasename = some i ∧ t.virtGet d DotDotDirEntryBasename = some j

/-- **`touch`** does nothing but to put the inode into the queue, or to take it out. -/
theorem touch_spec (h : t.QueueOk) (hi : t.inodeMap i)
    (hdots : (t.inode i).inodeType = .PseudoDir → HasDots t i) :
    ∃ t', runs (touch cfg i) t = (.ok (), t') ∧ Timed i t t' ∧
      (t'.xTime i ≠ none → Idle t.names t.globals i) := by
  obtain ⟨htimed, hnone⟩ := timed_untimed (i := i) h
  obtain ⟨now, hglobals⟩ := htimed.globals
  have hinode : (t.untimed i).inode = t.inode := congrArg Names.inode htimed.names
  have huse : (t.untimed i).globals.use = t.globals.use := by rw [hglobals]
  have hi' : (t.untimed i).inodeMap i := by
    rw [show (t.untimed i).inodeMap = t.inodeMap from congrArg Names.inodeMap htimed.names]
    exact hi
  -- what follows `untime` either puts the inode into the queue or does nothing
  suffices hsuff : ∀ (c : Prop) [Decidable c] (ttl : ℕ), (c → Idle t.names t.globals i) →
      ∃ t', runs (if c then enqueue i ttl else pure ()) (t.untimed i) = (.ok (), t') ∧
        Timed i t t' ∧ (t'.xTime i ≠ none → Idle t.names t.globals i) by
    simp only [touch, runs_bind, runs_untime h hi, andThen_ok, runs_deref, hinode]
    cases htype : (t.inode i).inodeType with
    | FileObject =>
        simp only [runs_bind, runs_globals, andThen_ok, huse]
        apply hsuff
        intro hc
        unfold Idle
        rw [show (t.names.inode i).inodeType = _ from htype]
        simpa [and_assoc] using hc
    | FUSERootDir => exact ⟨_, rfl, htimed, fun hne => absurd hnone hne⟩
    | BackendRootDir => exact ⟨_, rfl, htimed, fun hne => absurd hnone hne⟩
    | PseudoDir =>
        obtain ⟨empty, hrun, hempty⟩ := runs_physIsEmpty (t.untimed i) i
        simp only [runs_bind, hrun, runs_virtIndexRange, runs_globals, andThen_ok, huse]
        apply hsuff
        intro hc
        simp only [Bool.and_eq_true, List.isEmpty_iff, beq_iff_eq] at hc
        obtain ⟨⟨hfh, hphys⟩, htwo⟩ := hc
        have hentry := congrArg Names.entry htimed.names
        obtain ⟨a, b, ha, hb⟩ := hdots htype
        have hvirt : (t.untimed i).virtGet = t.virtGet := congrFun hentry true
        rw [← hvirt] at ha hb
        unfold Idle
        rw [show (t.names.inode i).inodeType = _ from htype]
        refine ⟨hfh, fun isVirt name hne => ?_⟩
        rw [← congrFun (congrFun (congrFun hentry isVirt) i) name] at hne
        cases isVirt with
        | false => exact absurd (hempty.mp hphys name) hne
        | true => exact ⟨rfl, DirEntries.only_dots ha hb htwo.le hne⟩
  intro c _ ttl hc
  split
  next h' =>
    exact ⟨_, runs_enqueue htimed.queue hnone ttl,
      htimed.trans (timed_enqueued htimed.queue hi' hnone ttl), fun _ => hc h'⟩
  · exact ⟨_, rfl, htimed, fun hne => absurd hnone hne⟩

end TreeSection

/-! ### What keeps the invariant -/

section Kept

variable {i : ℕ} {n n' : Names} {g g' : Globals} {m : ℕ → Option Backend} {ino : Inode}

/-- An inode stays idle if nobody starts to use it and it gets no entries. -/
theorem Idle.mono (h : Idle n g i)
    (htype : (n'.inode i).inodeType = (n.inode i).inodeType) (huse : g'.use i = g.use i)
    (hentry : ∀ b name, n'.entry b i name ≠ none → n.entry b i name ≠ none) : Idle n' g' i := by
  unfold Idle at h ⊢
  rw [htype, huse]
  split at h
  · exact h
  · exact ⟨h.1, fun b name hne => h.2 b name (hentry b name hne)⟩
  · exact h

theorem inboundLines_blank (h : Blank g i) : inboundLines g i = 0 := by
  apply List.countP_eq_zero.mpr
  intro line hline hc
  rw [decide_eq_true_eq] at hc
  exact h.line line hline hc.1 hc.2

/-- Some numbers have been given out. -/
structure Skips (n₀ n : Names) : Prop where
  rest : n = { n₀ with nonces := n.nonces }
  head : n₀.nonces.head ≤ n.nonces.head
  given : ∀ i, n₀.nonces.Given i → n.nonces.Given i

theorem Skips.refl : Skips n n := ⟨rfl, le_rfl, fun _ => id⟩

theorem Skips.skip : Skips n n.skip :=
  ⟨rfl, (NamesOk.head_lt_tail n.nonces).le, fun _ => NamesOk.given_tail⟩

/-- Whoever is alive stays alive, and a backend that is not there does not come. -/
theorem Lives.create {n₀ : Names} {alive : Prop} (h : Lives n₀ i alive) (hs : Skips n₀ n)
    (hi : i ≠ n.nonces.head)
    (hm : ∀ nonce < n₀.nonces.head, n₀.backendMap nonce = none → m nonce = none) :
    Lives (n.create ino m) i alive := by
  have hmap : n.inodeMap = n₀.inodeMap := by rw [hs.rest]
  have hinode : n.inode = n₀.inode := by rw [hs.rest]
  unfold Lives
  rw [NamesOk.create_inodeMap, NamesOk.create_inode, if_neg hi, if_neg hi,
    NamesOk.create_backendMap, NamesOk.create_nonces, hmap, hinode]
  rcases h with h | ⟨h, hb, hlt⟩
  · exact .inl h
  · exact .inr ⟨h, hm _ hlt hb, (hlt.trans_le hs.head).trans (NamesOk.head_lt_tail _)⟩

/-- A new inode is no harm to handles and calls. -/
theorem CallsOk.create {n₀ : Names} (h : CallsOk n₀ g) (hs : Skips n₀ n)
    (hb : Blank g n.nonces.head)
    (hm : ∀ nonce < n₀.nonces.head, n₀.backendMap nonce = none → m nonce = none) (now : ℕ → ℕ) :
    CallsOk (n.create ino m) { g with now := now, backendMap := m } := by
  have hlt := hs.head.trans_lt (NamesOk.head_lt_tail n.nonces)
  have hmap : n.inodeMap = n₀.inodeMap := by rw [hs.rest]
  have hinode : n.inode = n₀.inode := by rw [hs.rest]
  have hdir : n.isDir = n₀.isDir := by
    unfold Names.isDir
    rw [hinode]
  have hpend : n.Pending = n₀.Pending := by
    unfold Names.Pending
    rw [hs.rest]
  refine ⟨fun i fh hi hfh => ?_, h.handle_nodup, h.pages, fun fh f hf hl => ?_, fun p hp => ?_,
    fun i hi => ?_, h.pendingDelete_nodup, fun i hi => ?_⟩
  · rw [NamesOk.create_inodeMap, hmap] at hi
    split at hi
    -- the new inode has no handle
    next heq =>
      subst heq
      rw [show (g.use n.nonces.head).fhSet = [] by rw [hb.use]] at hfh
      cases hfh
    · exact h.handle i fh hi hfh
  · obtain ⟨h₁, h₂, h₃, h₄⟩ := h.listing fh f hf hl
    -- the calls are about older inodes
    have hne : f.inode ≠ n.nonces.head := (h₁.trans_le hs.head).ne
    rw [NamesOk.create_isDir, if_neg hne, NamesOk.create_nonces, hdir]
    exact ⟨h₁.trans hlt, h₂, h₃, h₄.create hs hne hm⟩
  · obtain ⟨h₁, h₂, h₃⟩ := h.prefetch p hp
    rw [NamesOk.create_isDir, if_neg (h₁.trans_le hs.head).ne, NamesOk.create_nonces, hdir]
    exact ⟨h₁.trans hlt, h₂, h₃⟩
  · obtain ⟨h₁, h₂, h₃, h₄⟩ := h.pendingDelete i hi
    have hne : i ≠ n.nonces.head := by
      rintro rfl
      exact NamesOk.head_not_given _ (hs.given _ h₁)
    rw [NamesOk.create_nonces, NamesOk.create_inode, if_neg hne, NamesOk.create_pending, hinode,
      hpend]
    exact ⟨NamesOk.given_tail (hs.given i h₁), h₂, h₃, h₄.create hs hne hm⟩
  · rw [NamesOk.create_inodeMap, hmap] at hi
    split at hi
    -- the new inode has no line
    next heq =>
      subst heq
      rw [hb.use]
      exact inboundLines_blank (g := { g with now := now, backendMap := m })
        ⟨hb.use, hb.fhMap, hb.line⟩
    · exact h.lines i hi

/-- Only prefetches start or end, and the time passes. -/
structure Prefetching (g g' : Globals) : Prop where
  use : ∀ i, ∃ v, g'.use i = { g.use i with isPrefetchInProgress := v }
  globals : ∃ use now prefetches, g' = { g with use := use, now := now, prefetches := prefetches }

theorem Prefetching.of_now (h : ∃ now, g' = { g with now := now }) : Prefetching g g' := by
  obtain ⟨now, rfl⟩ := h
  exact ⟨fun i => ⟨_, rfl⟩, _, now, _, rfl⟩

theorem Prefetching.trans {g'' : Globals} (h : Prefetching g g') (h' : Prefetching g' g'') :
    Prefetching g g'' := by
  refine ⟨fun i => ?_, ?_⟩
  · obtain ⟨v, hv⟩ := h.use i
    obtain ⟨v', hv'⟩ := h'.use i
    exact ⟨v', by rw [hv', hv]⟩
  · obtain ⟨_, _, _, hg⟩ := h.globals
    obtain ⟨use, now, prefetches, hg'⟩ := h'.globals
    exact ⟨use, now, prefetches, by rw [hg', hg]⟩

theorem Prefetching.fhSet (h : Prefetching g g') (i : ℕ) : (g'.use i).fhSet = (g.use i).fhSet := by
  obtain ⟨v, hv⟩ := h.use i
  rw [hv]

theorem Prefetching.pendingDelete (h : Prefetching g g') (i : ℕ) :
    (g'.use i).pendingDelete = (g.use i).pendingDelete := by
  obtain ⟨v, hv⟩ := h.use i
  rw [hv]

theorem Prefetching.fhMap (h : Prefetching g g') : g'.fhMap = g.fhMap := by
  obtain ⟨_, _, _, rfl⟩ := h.globals
  rfl

theorem Prefetching.idle (h : Prefetching g g') (hi : Idle n g i) : Idle n g' i := by
  obtain ⟨v, hv⟩ := h.use i
  unfold Idle at hi ⊢
  rw [hv]
  exact hi

/-- A prefetch is no harm to handles and calls. -/
theorem Prefetching.calls (h : Prefetching g g') (hc : CallsOk n g)
    (hp : ∀ p ∈ g'.prefetches, p.dirInodeNumber < n.nonces.head ∧ n.isDir p.dirInodeNumber ∧
      p.dirInodeNumber ≠ FUSERootDirInodeNumber) : CallsOk n g' := by
  have hfh := h.fhSet
  have hpd := h.pendingDelete
  have hin : ∀ i, (g'.use i).inboundCacheLineCount = (g.use i).inboundCacheLineCount := by
    intro i
    obtain ⟨v, hv⟩ := h.use i
    rw [hv]
  obtain ⟨use, now, prefetches, rfl⟩ := h.globals
  refine ⟨fun i fh hi hmem => ?_, fun i => ?_, hc.pages, fun fh f hf hl => ?_, hp, fun i hi => ?_,
    hc.pendingDelete_nodup, fun i hi => ?_⟩
  · rw [hfh] at hmem
    exact hc.handle i fh hi hmem
  · rw [hfh]
    exact hc.handle_nodup i
  · rw [hfh]
    exact hc.listing fh f hf hl
  · rw [hfh, hpd]
    exact hc.pendingDelete i hi
  · rw [hin]
    exact hc.lines i hi

/-- An entry that becomes physical is no harm to handles and calls. -/
theorem CallsOk.toPhys (h : CallsOk n g) (now : ℕ → ℕ) :
    CallsOk (n.toPhys i) { g with now := now } := by
  have hdir : ∀ j, (n.toPhys i).isDir j ↔ n.isDir j := by
    intro j
    unfold Names.isDir
    rw [NamesOk.toPhys_inodeType]
  have hlives : ∀ {j alive}, Lives n j alive → Lives (n.toPhys i) j alive := by
    intro j alive hl
    unfold Lives at hl ⊢
    rw [NamesOk.toPhys_backendNonce]
    exact hl
  refine ⟨h.handle, h.handle_nodup, h.pages, fun fh f hf hl => ?_, fun p hp => ?_, fun j hj => ?_,
    h.pendingDelete_nodup, h.lines⟩
  · obtain ⟨h₁, h₂, h₃, h₄⟩ := h.listing fh f hf hl
    exact ⟨h₁, (hdir _).mpr h₂, h₃, hlives h₄⟩
  · obtain ⟨h₁, h₂, h₃⟩ := h.prefetch p hp
    exact ⟨h₁, (hdir _).mpr h₂, h₃⟩
  · obtain ⟨h₁, h₂, h₃, h₄⟩ := h.pendingDelete j hj
    rw [NamesOk.toPhys_inodeType, NamesOk.toPhys_isVirt]
    refine ⟨h₁, h₂, ?_, hlives h₄⟩
    split
    · rfl
    · exact h₃

/-- The removal of an inode without handles is no harm to the calls. -/
theorem CallsOk.remove (h : CallsOk n g) (hfh : (g.use i).fhSet = []) (hi : i ∉ g.pendingDeletes)
    (now : ℕ → ℕ) : CallsOk (n.remove i n.backendMap) { g with now := now } := by
  have hmap : ∀ {j}, (n.remove i n.backendMap).inodeMap j = true → n.inodeMap j := by
    intro j
    simp only [Names.remove, Function.update_apply]
    split
    · simp
    · exact id
  have hlives : ∀ {j alive}, Lives n j alive → j ≠ i →
      Lives (n.remove i n.backendMap) j alive := by
    intro j alive hl hji
    unfold Lives at hl ⊢
    simp only [Names.remove, Function.update_of_ne hji]
    exact hl
  refine ⟨fun j fh hj => h.handle j fh (hmap hj), h.handle_nodup, h.pages, fun fh f hf hl => ?_,
    h.prefetch, fun j hj => ?_, h.pendingDelete_nodup, fun j hj => h.lines j (hmap hj)⟩
  · obtain ⟨h₁, h₂, h₃, h₄⟩ := h.listing fh f hf hl
    refine ⟨h₁, h₂, h₃, ?_⟩
    by_cases heq : f.inode = i
    · rcases h₄ with ⟨-, hmem⟩ | ⟨hgone, hrest⟩
      · rw [heq, hfh] at hmem
        cases hmem
      · exact .inr ⟨fun hpres => hgone (hmap hpres), hrest⟩
    · exact hlives h₄ heq
  · obtain ⟨h₁, h₂, h₃, h₄⟩ := h.pendingDelete j hj
    exact ⟨h₁, h₂, h₃, hlives h₄ fun heq => hi (heq ▸ hj)⟩

/-- Handles and calls have nothing to do with entries. -/
theorem CallsOk.entries (h : CallsOk n g) (entry : Bool → ℕ → String → Option ℕ) :
    CallsOk { n with entry := entry } g :=
  ⟨h.handle, h.handle_nodup, h.pages, h.listing, h.prefetch, h.pendingDelete,
    h.pendingDelete_nodup, h.lines⟩

end Kept

namespace FileTree

variable {left : Prop} {bare off : ℕ → Prop} {t t' : FileTree} {i d : ℕ}
  {m : ℕ → Option Backend} {ino : Inode}

theorem TreeOk.given (h : TreeOk left bare off t) (hi : t.inodeMap i) : t.nonces.Given i :=
  h.names.given i hi

/-- The tree, when an inode enters or leaves the queue. -/
theorem TreeOk.timed (h : TreeOk left bare off t) (ht : Timed i t t') (hi : t.inodeMap i)
    (hnp : ¬t.names.Pending i) (hidle : t'.xTime i ≠ none → Idle t.names t.globals i) :
    TreeOk left bare (fun j => off j ∧ j ≠ i) t' := by
  obtain ⟨now, hg⟩ := ht.globals
  have hmap : t'.inodeMap = t.inodeMap := congrArg Names.inodeMap ht.names
  have hvirt : t'.virtGet = t.virtGet := congrFun (congrArg Names.entry ht.names) true
  have hnonces : t'.nonces = t.nonces := congrArg Names.nonces ht.names
  refine ⟨?_, fun d name => ?_, ht.queue, fun j hj hx hoff => ?_, fun j hj => ?_⟩
  · rw [ht.names]
    exact h.names
  · rw [hvirt, hmap]
    exact h.swept d name
  · rw [ht.names, hg]
    by_cases hji : j = i
    · subst hji
      exact hidle hx
    · rw [hmap] at hj
      rw [ht.xTime j hji] at hx
      exact h.idle j hj hx fun ho => hoff ⟨ho, hji⟩
  · rw [hnonces, ht.names] at hj
    have hji : j ≠ i := by
      rintro rfl
      rcases hj with hj | hj
      · exact hj (h.given hi)
      · exact hnp hj
    obtain ⟨hx, hb⟩ := h.blank j hj
    rw [ht.xTime j hji, hg]
    exact ⟨hx, hb.later now⟩

theorem Ok.timed (h : Ok left bare off t) (ht : Timed i t t') (hi : t.inodeMap i)
    (hnp : ¬t.names.Pending i) (hidle : t'.xTime i ≠ none → Idle t.names t.globals i) :
    Ok left bare (fun j => off j ∧ j ≠ i) t' := by
  refine ⟨h.toTreeOk.timed ht hi hnp hidle, ?_⟩
  obtain ⟨now, hg⟩ := ht.globals
  rw [ht.names, hg]
  exact h.calls.later now

/-- What is on nobody's way. -/
theorem TreeOk.off_mono {off' : ℕ → Prop} (h : TreeOk left bare off t) (ho : ∀ i, off i → off' i) :
    TreeOk left bare off' t :=
  { h with idle := fun i hi hx hn => h.idle i hi hx fun hoff => hn (ho i hoff) }

theorem Ok.off_mono {off' : ℕ → Prop} (h : Ok left bare off t) (ho : ∀ i, off i → off' i) :
    Ok left bare off' t :=
  ⟨h.toTreeOk.off_mono ho, h.calls⟩

theorem TreeOk.mono_bare {bare' : ℕ → Prop} (h : TreeOk left bare off t)
    (hb : ∀ d, bare d → bare' d) : TreeOk left bare' off t :=
  { h with names := h.names.mono fun d _ => hb d }

/-- The time does not matter. -/
theorem Ok.later (h : Ok left bare off t) (now : ℕ → ℕ) :
    Ok left bare off (t.modify fun g => { g with now := now }) :=
  ⟨⟨h.names, h.swept, h.queue, h.idle, fun i hi => ⟨(h.blank i hi).1, (h.blank i hi).2.later now⟩⟩,
    h.calls.later now⟩

theorem names_modify {f : Globals → Globals}
    (hb : (f t.globals).backendMap = t.globals.backendMap) : (t.modify f).names = t.names := by
  unfold names modify
  dsimp only
  rw [hb]
  rfl

/-- What the holder of the lock may do to the rest. -/
theorem Ok.modify {off' : ℕ → Prop} (h : Ok left bare off t) (f : Globals → Globals)
    (hb : (f t.globals).backendMap = t.globals.backendMap)
    (hidle : ∀ i, ¬off' i → ¬off i ∧ (Idle t.names t.globals i → Idle t.names (f t.globals) i))
    (hblank : ∀ i, ¬t.nonces.Given i ∨ t.names.Pending i → Blank (f t.globals) i)
    (hcalls : CallsOk t.names (f t.globals)) : Ok left bare off' (t.modify f) := by
  have hn := names_modify (t := t) hb
  refine ⟨⟨?_, h.swept, h.queue, fun i hi hx ho => ?_, fun i hi => ?_⟩, ?_⟩
  · rw [hn]
    exact h.names
  · obtain ⟨hoff, hkeep⟩ := hidle i ho
    rw [hn]
    exact hkeep (h.idle i hi hx hoff)
  · rw [hn] at hi
    exact ⟨(h.blank i hi).1, hblank i hi⟩
  · rw [hn]
    exact hcalls

/-- The names change, and maybe the time and the backends. -/
structure Renamed (t t' : FileTree) (n : Names) (m : ℕ → Option Backend) : Prop where
  names : t'.names = n
  xTime : t'.xTime = t.xTime
  queue : t'.inodeEvictionQueue = t.inodeEvictionQueue
  globals : ∃ now, t'.globals = { t.globals with now := now, backendMap := m }

/-- The tree, when an inode is created. -/
theorem TreeOk.create (h : TreeOk left bare off t) (c : NamesOk.Creates bare t.names ino m)
    (hr : Renamed t t' (t.names.create ino m) m) :
    TreeOk left bare (fun j => off j ∨ j = ino.parentInodeNumber) t' := by
  obtain ⟨now, hg⟩ := hr.globals
  have hnonces : t'.nonces = t.nonces.tail := by
    rw [show t'.nonces = t'.names.nonces from rfl, hr.names, NamesOk.create_nonces]
    rfl
  have hmap : ∀ j, t'.inodeMap j = if j = t.nonces.head then true else t.inodeMap j := by
    intro j
    rw [show t'.inodeMap = t'.names.inodeMap from rfl, hr.names, NamesOk.create_inodeMap]
    rfl
  have hfree : t.xTime t.nonces.head = none ∧ Blank t.globals t.nonces.head :=
    h.blank _ (.inl (NamesOk.head_not_given _))
  refine ⟨?_, fun d name hne => ?_, fun x j => ?_, fun j hj hx hoff => ?_, fun j hj => ?_⟩
  · rw [hr.names]
    exact h.names.create c
  · rw [hmap]
    -- the new directory has only its dots
    by_cases hd : d = t.nonces.head
    · rw [if_pos hd]
      exact .inl rfl
    · rw [if_neg hd]
      rw [show t'.virtGet d name = t'.names.entry true d name from rfl, hr.names,
        NamesOk.create_entry_of_ne _ _ _ hd] at hne
      split at hne
      next hc =>
        rw [hc.2.1]
        exact .inl c.parent
      · exact h.swept d name hne
  · rw [hr.queue, h.queue x j, hmap, hr.xTime]
    split
    -- the new inode is not in the queue
    next hj =>
      subst hj
      rw [hfree.1]
      simp
    · rfl
  · rw [hr.xTime] at hx
    -- the others are as idle as before, except for the parent
    have hjh : j ≠ t.nonces.head := by
      rintro rfl
      exact hx hfree.1
    rw [hmap, if_neg hjh] at hj
    have hjp : j ≠ ino.parentInodeNumber := fun hp => hoff (.inr hp)
    rw [hr.names, hg]
    refine (h.idle j hj hx fun ho => hoff (.inl ho)).mono ?_ rfl fun b name => ?_
    · rw [NamesOk.create_inode, if_neg (show j ≠ t.names.nonces.head from hjh)]
    · rw [NamesOk.create_entry_of_ne _ _ _ hjh, if_neg fun hc => hjp hc.2.1]
      exact id
  · rw [hnonces, hr.names, NamesOk.create_pending] at hj
    rw [hr.xTime, hg]
    obtain ⟨hx, hb⟩ := h.blank j (hj.imp_left fun hj hgiven => hj (NamesOk.given_tail hgiven))
    exact ⟨hx, hb.use, hb.fhMap, hb.line⟩

theorem Ok.create (h : Ok left bare off t) (c : NamesOk.Creates bare t.names ino m)
    (hr : Renamed t t' (t.names.create ino m) m)
    (hm : ∀ nonce < t.nonces.head, t.globals.backendMap nonce = none → m nonce = none) :
    Ok left bare (fun j => off j ∨ j = ino.parentInodeNumber) t' := by
  refine ⟨h.toTreeOk.create c hr, ?_⟩
  obtain ⟨now, hg⟩ := hr.globals
  rw [hr.names, hg]
  exact h.calls.create .refl (h.blank _ (.inl (NamesOk.head_not_given _))).2 hm now

/-- The tree, when an entry becomes physical. -/
theorem TreeOk.toPhys (h : TreeOk left bare off t) (hi : t.inodeMap i)
    (htype : (t.inode i).inodeType = .PseudoDir) (hvirt : (t.inode i).isVirt = true)
    (hr : Renamed t t' (t.names.toPhys i) t.globals.backendMap) : TreeOk left bare off t' := by
  obtain ⟨now, hg⟩ := hr.globals
  have hroot : i ≠ FUSERootDirInodeNumber := by
    rintro rfl
    rw [show (t.inode FUSERootDirInodeNumber).inodeType = _ from h.names.rootInode.1] at htype
    cases htype
  have hnp := h.names.not_pending_of_isDir (i := i)
    (fun hfile => absurd (hfile.symm.trans htype) (by decide))
  obtain ⟨hkey, hdot⟩ := h.names.entered i hi hroot hnp
  refine ⟨?_, fun d name hne => ?_, fun x j => ?_, fun j hj hx hoff => ?_, fun j hj => ?_⟩
  · rw [hr.names]
    exact h.names.toPhys hi htype hvirt
  · rw [show t'.inodeMap = t'.names.inodeMap from rfl, hr.names]
    rw [show t'.virtGet d name = t'.names.entry true d name from rfl, hr.names,
      NamesOk.toPhys_entry] at hne
    split at hne
    · exact absurd rfl hne
    · exact h.swept d name hne
  · rw [hr.queue, hr.xTime, h.queue x j, show t'.inodeMap = t'.names.inodeMap from rfl, hr.names]
    rfl
  · rw [hr.xTime] at hx
    rw [show t'.inodeMap = t'.names.inodeMap from rfl, hr.names] at hj
    have hidle := h.idle j hj hx hoff
    -- the parent has an entry that is not a dot, so it is not in the queue
    have hjp : j ≠ (t.names.inode i).parentInodeNumber := by
      rintro rfl
      have hpar := (h.names.parent i hi hroot hnp).2.1
      unfold Idle at hidle
      split at hidle
      next hfile => exact hpar hfile
      · exact hdot (hidle.2 _ _ (by rw [hkey]; exact Option.some_ne_none _)).2
      · exact hidle
    rw [hr.names, hg]
    refine hidle.mono (NamesOk.toPhys_inodeType ..) rfl fun b name => ?_
    rw [NamesOk.toPhys_entry, if_neg fun hc => hjp hc.1]
    exact id
  · rw [hr.xTime, hg]
    rw [show t'.nonces = t'.names.nonces from rfl, hr.names] at hj
    obtain ⟨hx, hb⟩ := h.blank j hj
    exact ⟨hx, hb.later now⟩

theorem Ok.toPhys (h : Ok left bare off t) (hi : t.inodeMap i)
    (htype : (t.inode i).inodeType = .PseudoDir) (hvirt : (t.inode i).isVirt = true)
    (hr : Renamed t t' (t.names.toPhys i) t.globals.backendMap) : Ok left bare off t' := by
  refine ⟨h.toTreeOk.toPhys hi htype hvirt hr, ?_⟩
  obtain ⟨now, hg⟩ := hr.globals
  rw [hr.names, hg]
  exact h.calls.toPhys now

/-- An inode is gone, from names `n` that may already lack its dots. -/
structure Removed (t t' : FileTree) (n : Names) (i : ℕ) (m : ℕ → Option Backend) : Prop where
  fewer : n = { t.names with entry := n.entry }
  entry : ∀ b d name, n.entry b d name ≠ none → t.names.entry b d name ≠ none
  names : t'.names = n.remove i m
  xTime : ∀ j ≠ i, t'.xTime j = t.xTime j
  queue : ∀ x j, t'.inodeEvictionQueue.get (toLex (x, j)) = some () ↔
    j ≠ i ∧ t.inodeEvictionQueue.get (toLex (x, j)) = some ()
  globals : ∃ now, t'.globals = { t.globals with now := now, backendMap := m }

/-- The tree, when an inode is removed. -/
theorem TreeOk.remove {n : Names} {bare₀ : ℕ → Prop} (h : TreeOk left bare off t)
    (hn : NamesOk bare₀ n) (r : NamesOk.Removes n i m) (hr : Removed t t' n i m)
    (hleft : left ∨ ∀ name, n.entry true i name = none) :
    TreeOk left (fun d => bare₀ d ∧ d ≠ i) off t' := by
  obtain ⟨now, hg⟩ := hr.globals
  have hmap : ∀ j, t'.inodeMap j = if j = i then false else t.inodeMap j := by
    intro j
    rw [show t'.inodeMap = t'.names.inodeMap from rfl, hr.names, hr.fewer]
    exact Function.update_apply ..
  have hentry : ∀ b d name, t'.names.entry b d name ≠ none → n.entry b d name ≠ none := by
    intro b d name
    rw [hr.names]
    simp only [Names.remove, Names.setEntry]
    split
    · exact fun hne => absurd rfl hne
    · exact id
  refine ⟨?_, fun d name hne => ?_, fun x j => ?_, fun j hj hx hoff => ?_, fun j hj => ?_⟩
  · rw [hr.names]
    exact hn.remove r
  · rw [hmap]
    split
    -- the removed directory may still have entries while it is emptied
    next hd =>
      rcases hleft with hl | hnone
      · exact .inr hl
      · exact absurd (hnone name) (hd ▸ hentry true d name hne)
    · exact h.swept d name (hr.entry true d name (hentry true d name hne))
  · rw [hr.queue, h.queue x j, hmap]
    by_cases hj : j = i
    · simp [hj]
    · simp [hj, hr.xTime j hj]
  · rw [hmap] at hj
    split at hj
    · cases hj
    next hji =>
      rw [hr.xTime j hji] at hx
      rw [hg]
      refine (h.idle j hj hx hoff).mono ?_ rfl fun b name hne => hr.entry b j name
        (hentry b j name hne)
      rw [hr.names, hr.fewer]
      rfl
  · rw [show t'.nonces = t'.names.nonces from rfl, hr.names, hr.fewer] at hj
    -- the removed inode was given and is not pending, so it is not among the blank ones
    have hji : j ≠ i := by
      rintro rfl
      rcases hj with hj | hj
      · exact hj (hn.given j r.inode |> fun hgiven => by rw [hr.fewer] at hgiven; exact hgiven)
      · exact r.notPending (by rw [hr.fewer]; exact hj)
    obtain ⟨hx, hb⟩ := h.blank j hj
    rw [hr.xTime j hji, hg]
    exact ⟨hx, hb.use, hb.fhMap, hb.line⟩

/-- The tree, when a dot is erased. -/
theorem TreeOk.eraseDot (h : TreeOk left bare off t) {dot : String} (hdot : IsDot dot)
    (hr : Renamed t t' (t.names.eraseDot d dot) t.globals.backendMap) :
    TreeOk left (fun x => bare x ∨ x = d) off t' := by
  obtain ⟨now, hg⟩ := hr.globals
  have hentry : ∀ b d' name, t'.names.entry b d' name ≠ none →
      t.names.entry b d' name ≠ none := by
    intro b d' name
    rw [hr.names]
    simp only [Names.eraseDot, Names.setEntry]
    split
    · exact fun hne => absurd rfl hne
    · exact id
  have hmap : t'.inodeMap = t.inodeMap := by
    rw [show t'.inodeMap = t'.names.inodeMap from rfl, hr.names]
    rfl
  refine ⟨?_, fun d name hne => ?_, fun x j => ?_, fun j hj hx hoff => ?_, fun j hj => ?_⟩
  · rw [hr.names]
    exact h.names.eraseDot hdot
  · rw [hmap]
    exact h.swept d name (hentry true d name hne)
  · rw [hr.queue, hr.xTime, h.queue x j, hmap]
  · rw [hr.xTime] at hx
    rw [hmap] at hj
    rw [hg]
    refine (h.idle j hj hx hoff).mono ?_ rfl fun b name => hentry b j name
    rw [hr.names]
    rfl
  · rw [show t'.nonces = t'.names.nonces from rfl, hr.names] at hj
    obtain ⟨hx, hb⟩ := h.blank j hj
    rw [hr.xTime, hg]
    exact ⟨hx, hb.later now⟩

end FileTree

end MultiStorageFileSystem
