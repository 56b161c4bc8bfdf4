/-
MultiStorageClient/CachedFilesWaiters.lean

Who waits for a line while files are opened, deleted, evicted and unmounted.

`Parties` is what has to be known of the readers and the deletes: the lists of
lines, the counts of the `WaitGroup`s, and that a delete has a `WaitGroup` of
its own.  A step keeps it and notifies whom it takes from a list, as long as
it `Meets` what the code relies on: a fetch that somebody waits for finds its
inode, and a delete finds the lines of its file.  Unmounting a backend can
break the first, and then a waiter is lost.
-/
import MultiStorageClient.DataCacheWaiters
import MultiStorageClient.CachedFiles

namespace MultiStorageFileSystem

open Run

variable {cfg : CacheConfig} {objects : ℕ → List UInt8} {inodes : ℕ → Option InodeInfo}

/-! ### Dropping the clean lines of a file -/

namespace DataCache

variable {c c' : DataCache} {i l n : ℕ} {held order : List ℕ}

/-- A clean line that is dropped is free and out of the map; nothing else changes. -/
theorem dropClean_spec (cfg : CacheConfig) (ans : DiskAnswers) (c : DataCache) (i n l : ℕ) :
    (∀ l', l' ≠ l → (c.dropClean cfg ans i n l).lines l' = c.lines l') ∧
      (∀ i' n', (c.dropClean cfg ans i n l).cacheMap i' n' =
        if i' = i ∧ n' = n then none else c.cacheMap i' n') ∧
      ((c.dropClean cfg ans i n l).lines l).state = .free ∧
      (c.dropClean cfg ans i n l).fatal = c.fatal := by
  obtain ⟨disk, files, fileOpen, idcfs, heq⟩ :=
    freeLine_spec cfg ans ((c.setCacheMap i n none).popClean l) l
  unfold dropClean
  rw [heq]
  refine ⟨fun l' hne => ?_, cacheMap_setCacheMap c i n none, ?_, rfl⟩
  · exact (Function.update_of_ne hne _ _).trans (Function.update_of_ne hne _ _)
  · simp only [Function.update_self]

/-- The dropping of an inode's lines keeps the lists, or ends in the Fatalf. -/
theorem ListsOk.dropLines (ans : DiskAnswers) (i : ℕ) (onlyClean : Bool) :
    ∀ {order : List ℕ} {c : DataCache}, ListsOk cfg c held →
      (dropLines cfg ans i onlyClean order c).fatal = true ∨
        (ListsOk cfg (dropLines cfg ans i onlyClean order c) held ∧
          Quiet c (dropLines cfg ans i onlyClean order c)) := by
  intro order
  induction order with
  | nil => exact fun h => .inr ⟨h, .refl _⟩
  | cons n order ih =>
      intro c h
      rw [DataCache.dropLines]
      split
      · exact ih h
      rename_i l _
      split
      · exact .inl rfl
      rename_i hle
      split
      · rename_i hclean
        obtain ⟨h₁, hq₁⟩ := h.dropClean ans i n (Nat.not_le.mp hle) hclean
        rcases ih h₁ with hfatal | ⟨h₂, hq₂⟩
        · exact .inl hfatal
        · exact .inr ⟨h₂, hq₁.trans hq₂⟩
      · split
        · exact .inl rfl
        · exact ih h

/-- The loop over the map of a file adds nothing to it. -/
theorem dropLines_le (ans : DiskAnswers) (i : ℕ) (onlyClean : Bool) :
    ∀ {order : List ℕ} {c : DataCache},
      (dropLines cfg ans i onlyClean order c).cacheMap i n = some l → c.cacheMap i n = some l := by
  intro order
  induction order with
  | nil => exact fun h => h
  | cons m order ih =>
      intro c h
      rw [dropLines] at h
      split at h
      · exact ih h
      split at h
      · exact h
      split at h
      · have hmap := ih h
        rw [(dropClean_spec cfg ans c i m _).2.1] at hmap
        split at hmap
        · cases hmap
        · exact hmap
      · split at h
        · exact h
        · exact ih h

/-- **What the loop leaves** is not clean, and it leaves nothing where only
clean lines may be. -/
theorem dropLines_left (ans : DiskAnswers) (i : ℕ) (onlyClean : Bool) :
    ∀ {order : List ℕ} {c : DataCache}, order.Nodup → (order.filterMap (c.cacheMap i)).Nodup →
      (dropLines cfg ans i onlyClean order c).fatal = false → n ∈ order →
      (dropLines cfg ans i onlyClean order c).cacheMap i n = some l →
      (c.lines l).state ≠ .clean ∧ onlyClean = false := by
  intro order
  induction order with
  | nil => exact fun _ _ _ hn => absurd hn List.not_mem_nil
  | cons m order ih =>
      intro c hnodup hdistinct hfatal hn hleft
      obtain ⟨hm, hnodup'⟩ := List.nodup_cons.mp hnodup
      have hmap := dropLines_le ans i onlyClean hleft
      rw [dropLines] at hfatal hleft
      rcases hentry : c.cacheMap i m with - | l₀
      · rw [hentry] at hfatal hleft
        rw [List.filterMap_cons, hentry] at hdistinct
        rcases List.mem_cons.mp hn with rfl | hn
        · rw [hentry] at hmap
          cases hmap
        · exact ih hnodup' hdistinct hfatal hn hleft
      rw [hentry] at hfatal hleft
      rw [List.filterMap_cons, hentry] at hdistinct
      obtain ⟨hl₀, hdistinct'⟩ := List.nodup_cons.mp hdistinct
      dsimp only at hfatal hleft
      split at hfatal
      · cases hfatal
      rename_i hle
      rw [if_neg hle] at hleft
      split at hfatal
      · -- the line of `m` is dropped
        rename_i hclean
        rw [if_pos hclean] at hleft
        obtain ⟨hlines, hcacheMap, -⟩ := dropClean_spec cfg ans c i m l₀
        have hsame : order.filterMap ((c.dropClean cfg ans i m l₀).cacheMap i) =
            order.filterMap (c.cacheMap i) := by
          apply List.filterMap_congr
          intro k hk
          rw [hcacheMap, if_neg]
          rintro ⟨-, rfl⟩
          exact hm hk
        rcases List.mem_cons.mp hn with rfl | hn
        · have hgone := dropLines_le ans i onlyClean hleft
          rw [hcacheMap, if_pos ⟨rfl, rfl⟩] at hgone
          cases hgone
        · have hne : l ≠ l₀ := by
            rintro rfl
            exact hl₀ (List.mem_filterMap.mpr ⟨n, hn, hmap⟩)
          have hstate := ih hnodup' (hsame ▸ hdistinct') hfatal hn hleft
          rw [hlines l hne] at hstate
          exact hstate
      · rename_i hclean
        rw [if_neg hclean] at hleft
        split at hfatal
        · cases hfatal
        rename_i honly
        rw [if_neg honly] at hleft
        rcases List.mem_cons.mp hn with rfl | hn
        · rw [hentry] at hmap
          exact ⟨Option.some.inj hmap ▸ hclean, Bool.eq_false_iff.mpr honly⟩
        · exact ih hnodup' hdistinct' hfatal hn hleft

end DataCache

/-! ### What a step relies on -/

/-- The map of a file names inbound and clean lines only, each once. -/
def DataCache.NamesLines (c : DataCache) (i : ℕ) (order : List ℕ) : Prop :=
  (order.filterMap (c.cacheMap i)).Nodup ∧
    ∀ l ∈ order.filterMap (c.cacheMap i), (c.lines l).state = .inbound ∨ (c.lines l).state = .clean

instance (c : DataCache) (i : ℕ) (order : List ℕ) : Decidable (c.NamesLines i order) :=
  inferInstanceAs (Decidable (_ ∧ _))

/-- A fetch that somebody waits for finds its inode, and a delete finds lines
in the map of its file. -/
def FileStep.Meets (objects : ℕ → List UInt8) (f : CachedFiles) : FileStep → Prop
  | .cache s => s.Finds (f.inodes objects) f.cache
  | .finishPendingDelete d order _ => ∀ del ∈ f.deletes[d]?, f.cache.NamesLines del.inode order
  | _ => True

instance (objects : ℕ → List UInt8) (f : CachedFiles) (s : FileStep) :
    Decidable (s.Meets objects f) := by
  cases s <;> unfold FileStep.Meets <;> infer_instance

namespace CachedFiles

open DataCache

variable {f f' : CachedFiles} {c c' c₁ : DataCache} {l : ℕ} {deletes : List PendingDelete}

/-! ### The parties -/

/-- The lists of lines, the `WaitGroup`s, and those of the deletes. -/
structure Parties (cfg : CacheConfig) (c : DataCache) (deletes : List PendingDelete) : Prop where
  lists : ListsOk cfg c (heldLines c.readers)
  waits : WaitsOk cfg c
  waiters : ∀ del ∈ deletes, ∃ wg : Reader, c.readers[del.cacheLineWaiter]? = some wg ∧
    wg.pc = .returned .ok

/-- Neither the lines nor the readers change. -/
theorem Parties.same (h : Parties cfg c deletes) (c' : DataCache) (hlines : c'.lines = c.lines)
    (hlists : ∀ held s, c'.onList held s = c.onList held s) (hreaders : c'.readers = c.readers) :
    Parties cfg c' deletes ∧ Notifies c c' := by
  have hlists' : ListsOk cfg c' (heldLines c'.readers) := by
    rw [hreaders]
    exact h.lists.congr hlines fun s => by rw [hlists]
  have hwaits' : WaitsOk cfg c' := by
    refine ⟨?_, ?_, ?_, ?_⟩
    · rw [hlines, hreaders]
      exact h.waits.known
    · intro r rd hr
      rw [hreaders] at hr
      rw [h.waits.waits r rd hr]
      exact (listed_congr fun l => by rw [hlines]).symm
    · rw [hreaders]
      exact h.waits.once
    · rw [hreaders]
      exact h.waits.idle
  refine ⟨⟨hlists', hwaits', ?_⟩, .of_lists h.waits h.lists hwaits' hlists' ?_ (fun l r hmem => ?_)
    fun r _ _ _ l => ?_⟩
  · rw [hreaders]
    exact h.waiters
  · rw [hreaders]
  · rw [hlines]
    exact .inl hmem
  · rw [hlines]

/-- Lines are freed that nobody waits for. -/
theorem Parties.quiet (h : Parties cfg c deletes) (hlists : ListsOk cfg c' (heldLines c.readers))
    (hq : Quiet c c') : Parties cfg c' deletes ∧ Notifies c c' := by
  have hcalm := hq.calm h.lists hlists
  have hwaits' := h.waits.of_calm hcalm
  refine ⟨⟨?_, hwaits', ?_⟩, .of_lists h.waits h.lists hwaits' hlists ?_ (fun l r hmem => ?_)
    fun r _ _ _ l => ?_⟩
  · rw [hq.readers]
    exact hlists
  · rw [hq.readers]
    exact h.waiters
  · rw [hq.readers]
  · rw [hcalm.waiters]
    exact .inl hmem
  · rw [hcalm.waiters]

/-- A delete comes with a `WaitGroup` of its own. -/
theorem Parties.call (h : Parties cfg c deletes) (i : ℕ) :
    Parties cfg { c with readers := c.readers ++ [newWaitGroup] }
        (deletes ++ [⟨i, c.readers.length, false⟩]) ∧
      Notifies c { c with readers := c.readers ++ [newWaitGroup] } := by
  generalize hc' : ({ c with readers := c.readers ++ [newWaitGroup] } : DataCache) = c'
  have hreaders : c'.readers = c.readers ++ [newWaitGroup] := by rw [← hc']
  have hlines : c'.lines = c.lines := by rw [← hc']
  have hheld : heldLines c'.readers = heldLines c.readers := by
    rw [hreaders, heldLines, List.flatMap_append]
    exact List.append_nil _
  -- the wait group is one more reader, behind the others
  have hget : ∀ (r : ℕ) (rd : Reader), c'.readers[r]? = some rd →
      c.readers[r]? = some rd ∨ (r = c.readers.length ∧ rd = newWaitGroup) := by
    intro r rd hr
    rw [hreaders] at hr
    rcases lt_or_ge r c.readers.length with hlt | hge
    · rw [List.getElem?_append_left hlt] at hr
      exact .inl hr
    · rw [List.getElem?_append_right hge] at hr
      rcases hd : r - c.readers.length with - | d
      · rw [hd] at hr
        exact .inr ⟨by omega, (Option.some.inj hr).symm⟩
      · rw [hd] at hr
        cases hr
  have hlists' : ListsOk cfg c' (heldLines c'.readers) := by
    rw [hheld]
    refine h.lists.congr hlines fun s => ?_
    rw [← hc']
    cases s <;> exact List.Perm.refl _
  have hlisted : ∀ r, listed cfg c' r = listed cfg c r := fun r =>
    listed_congr fun l => by rw [hlines]
  have hwaits' : WaitsOk cfg c' := by
    refine ⟨fun l r hmem => ?_, fun r rd hr => ?_, fun rd hrd => ?_, fun rd hrd hw => ?_⟩
    · rw [hlines] at hmem
      rw [hreaders, List.length_append]
      exact Nat.lt_add_right _ (h.waits.known l r hmem)
    -- a reader that is not there yet waits for no line
    · rw [hlisted]
      rcases hget r rd hr with hr | ⟨rfl, rfl⟩
      · exact h.waits.waits r rd hr
      · refine (Finset.sum_eq_zero fun l _ => List.count_eq_zero_of_not_mem fun hmem => ?_).symm
        exact lt_irrefl _ (h.waits.known l _ hmem)
    · obtain ⟨r, hr⟩ := List.getElem?_of_mem hrd
      rcases hget r rd hr with hr | ⟨-, rfl⟩
      · exact h.waits.once rd (List.mem_of_getElem? hr)
      · exact Nat.zero_le _
    · obtain ⟨r, hr⟩ := List.getElem?_of_mem hrd
      rcases hget r rd hr with hr | ⟨-, rfl⟩
      · exact h.waits.idle rd (List.mem_of_getElem? hr) hw
      · exact absurd rfl hw
  refine ⟨⟨hlists', hwaits', fun del hdel => ?_⟩, .of_lists h.waits h.lists hwaits' hlists' ?_
    (fun l r hmem => ?_) fun r _ _ _ l => ?_⟩
  · rw [hreaders]
    rcases List.mem_append.mp hdel with hold | hnew
    · obtain ⟨wg, hwg, hpc⟩ := h.waiters del hold
      refine ⟨wg, ?_, hpc⟩
      rw [List.getElem?_append_left (List.getElem?_eq_some_iff.mp hwg).1]
      exact hwg
    · rw [List.mem_singleton.mp hnew]
      refine ⟨newWaitGroup, ?_, rfl⟩
      rw [List.getElem?_append_right le_rfl, Nat.sub_self]
      rfl
  · rw [hreaders, List.length_append]
    exact Nat.le_add_right _ _
  · rw [hlines]
    exact .inl hmem
  · rw [hlines]

/-- A delete waits for an inbound line. -/
theorem Parties.wait {w : ℕ} {wg : Reader} (h : Parties cfg c deletes)
    (hr : c.readers[w]? = some wg) (hpc : wg.pc = .returned .ok) (hzero : wg.waits = 0)
    (hlists : ListsOk cfg c₁ (heldLines c.readers)) (hq : Quiet c c₁) (hl : l < cfg.cacheLines)
    (hs : (c₁.lines l).state = .inbound) :
    Parties cfg ((c₁.updLine l fun t => { t with waiters := t.waiters ++ [w] }).setReader w
        { newWaitGroup with waits := 1 }) deletes ∧
      Notifies c ((c₁.updLine l fun t => { t with waiters := t.waiters ++ [w] }).setReader w
        { newWaitGroup with waits := 1 }) := by
  have hmoves : Moves cfg c w wg (c₁.updLine l fun t => { t with waiters := t.waiters ++ [w] })
      { newWaitGroup with waits := 1 } :=
    (ListsOk.moves_wait hl (by rw [hzero]) (.inr (.inr rfl))).after (hq.calm h.lists hlists)
  have hreaders : ((c₁.updLine l fun t => { t with waiters := t.waiters ++ [w] }).setReader w
      { newWaitGroup with waits := 1 }).readers = c.readers.set w
        { newWaitGroup with waits := 1 } := by
    show c₁.readers.set _ _ = _
    rw [hq.readers]
  obtain ⟨others, hperm, hset⟩ := heldLines_set hr
  have hheld : wg.held = [] := by rw [Reader.held, hpc]
  rw [hheld, List.nil_append] at hperm
  have hlists' :=
    ((hlists.held_perm hperm.symm).held_perm (hset { newWaitGroup with waits := 1 })).wait
    hl hs w
  generalize (c₁.updLine l fun t => { t with waiters := t.waiters ++ [w] }) = c₂ at *
  have hlists₂ : ListsOk cfg (c₂.setReader w { newWaitGroup with waits := 1 })
      (heldLines (c₂.setReader w { newWaitGroup with waits := 1 }).readers) := by
    rw [hreaders]
    refine ListsOk.congr (c := c₂) hlists' rfl fun s => ?_
    cases s <;> exact List.Perm.refl _
  refine ⟨⟨hlists₂, h.waits.moves hr hzero hmoves, fun del hdel => ?_⟩,
    hmoves.notifies h.lists h.waits hr hzero hlists₂⟩
  rw [hreaders]
  -- the wait group itself is still one, and the others are not touched
  by_cases heq : del.cacheLineWaiter = w
  · rw [heq, List.getElem?_set_self (List.getElem?_eq_some_iff.mp hr).1]
    exact ⟨_, rfl, rfl⟩
  · rw [List.getElem?_set_ne (Ne.symm heq)]
    exact h.waiters del hdel

/-! ### Steps -/

/-- What an operation that drops no lines does to the cache and the deletes. -/
inductive Keeps (f f' : CachedFiles) : Prop
  | fatal (hfatal : f'.cache.fatal = true)
  | same (hlines : f'.cache.lines = f.cache.lines)
      (hlists : ∀ held s, f'.cache.onList held s = f.cache.onList held s)
      (hreaders : f'.cache.readers = f.cache.readers) (hdeletes : f'.deletes = f.deletes)
  | calls (i : ℕ)
      (hcache : f'.cache = { f.cache with readers := f.cache.readers ++ [newWaitGroup] })
      (hdeletes : f'.deletes = f.deletes ++ [⟨i, f.cache.readers.length, false⟩])

theorem Keeps.of_eq (hcache : f'.cache = f.cache) (hdeletes : f'.deletes = f.deletes) :
    Keeps f f' := by
  refine .same ?_ (fun held s => ?_) ?_ hdeletes
  all_goals rw [hcache]

theorem keeps_createFileObjectInode (f : CachedFiles) (nonce : ℕ) :
    Keeps f (f.createFileObjectInode nonce) := by
  unfold createFileObjectInode
  split
  · exact .fatal rfl
  · exact .same rfl (fun held s => by cases s <;> rfl) rfl rfl

/-- `DoOpen` keeps the parties that wait. -/
theorem keeps_doOpen (f : CachedFiles) (i : ℕ) (exclusive : Bool) (mode : AccessMode) :
    Keeps f (f.doOpen i exclusive mode) := by
  unfold doOpen
  split
  · exact .of_eq rfl rfl
  split
  · exact .fatal rfl
  split
  · exact .of_eq rfl rfl
  dsimp only
  split
  · split
    · exact .fatal rfl
    split
    · exact .of_eq rfl rfl
    split
    · exact .of_eq rfl rfl
    · exact .of_eq rfl rfl
  · split
    · exact .of_eq rfl rfl
    · exact .of_eq rfl rfl

/-- `DoRelease` keeps the parties that wait. -/
theorem keeps_doRelease (f : CachedFiles) (i fh : ℕ) : Keeps f (f.doRelease i fh) := by
  unfold doRelease
  split
  · exact .of_eq rfl rfl
  split
  · exact .fatal rfl
  split
  · exact .of_eq rfl rfl
  split
  · exact .fatal rfl
  dsimp only
  split
  · exact .of_eq rfl rfl
  · exact .calls i rfl rfl

/-- `DoUnlink` keeps the parties that wait. -/
theorem keeps_doUnlink (f : CachedFiles) (i : ℕ) : Keeps f (f.doUnlink i) := by
  unfold doUnlink
  split
  · exact .of_eq rfl rfl
  split
  · exact .fatal rfl
  split
  · exact .of_eq rfl rfl
  dsimp only
  split
  · exact .of_eq rfl rfl
  split
  · exact .of_eq rfl rfl
  · exact .calls i rfl rfl

/-- What comes before a step of the data cache at most touches an inode. -/
theorem cacheChecks_cases {s : CacheStep} (h : f.cacheChecks s = some f') :
    f' = f ∨ f' = f.fatalf ∨ ∃ i, f.inodeMap i = true ∧ f' = f.touch i := by
  have hread : ∀ readIn, f.readChecks readIn = f ∨ f.readChecks readIn = f.fatalf ∨
      ∃ i, f.inodeMap i = true ∧ f.readChecks readIn = f.touch i := by
    intro readIn
    unfold readChecks
    split
    · exact .inr (.inl rfl)
    split
    · rename_i hopen
      exact .inr (.inr ⟨_, hopen.1, rfl⟩)
    · exact .inl rfl
  cases s with
  | read r ans =>
      obtain ⟨rd, -, rfl⟩ := Option.map_eq_some_iff.mp h
      split
      · exact .inl rfl
      · exact hread _
  | assign r ans =>
      obtain ⟨rd, -, rfl⟩ := Option.map_eq_some_iff.mp h
      exact hread _
  | fetchBegin l ans =>
      rw [← Option.some.inj h]
      split
      · exact .inr (.inl rfl)
      · exact .inl rfl
  | handle i fh allowReads => cases h
  | _ => exact .inl (Option.some.inj h).symm

/-- A call that keeps the parties notifies whom it should. -/
theorem Parties.keeps (h : Parties cfg f.cache f.deletes) (hk : Keeps f f') :
    f'.cache.fatal = true ∨ (Parties cfg f'.cache f'.deletes ∧ Notifies f.cache f'.cache) := by
  cases hk with
  | fatal hfatal => exact .inl hfatal
  | same hlines hlists hreaders hdeletes =>
      rw [hdeletes]
      exact .inr (h.same _ hlines hlists hreaders)
  | calls i hcache hdeletes =>
      rw [hcache, hdeletes]
      exact .inr (h.call i)

/-- A step of the data cache. -/
theorem Parties.cacheStep {s : CacheStep} (h : Parties cfg f.cache f.deletes)
    (hstep : f.cacheStep cfg objects s = some f') (hfinds : s.Finds (f.inodes objects) f.cache) :
    f'.cache.fatal = true ∨ (Parties cfg f'.cache f'.deletes ∧ Notifies f.cache f'.cache) := by
  obtain ⟨c, hc, hstep⟩ := Option.bind_eq_some_iff.mp hstep
  obtain ⟨checked, hchecked, hstep⟩ := Option.bind_eq_some_iff.mp hstep
  have hdeletes : checked.deletes = f.deletes := by
    rcases cacheChecks_cases hchecked with rfl | rfl | ⟨i, -, rfl⟩
    all_goals rfl
  split at hstep
  · rename_i hfatal
    exact .inl (Option.some.inj hstep ▸ hfatal)
  rename_i hfatal
  obtain rfl := Option.some.inj hstep
  have hh : Parties cfg { f.cache with handles := f.handles } f.deletes :=
    (h.same { f.cache with handles := f.handles } rfl (fun held s => by cases s <;> rfl) rfl).1
  have hfinds' : s.Finds (f.view objects s) { f.cache with handles := f.handles } := by
    cases s <;> exact hfinds
  rcases stepOk hh.lists hh.waits hc hfinds' with hf | hok
  · exact .inl hf
  refine .inr ⟨⟨hok.lists, hok.waits, fun del hdel => ?_⟩, hok.notifies⟩
  change del ∈ checked.deletes at hdel
  rw [hdeletes] at hdel
  obtain ⟨wg, hwg, hpc⟩ := h.waiters del hdel
  exact hok.returned _ wg _ hwg hpc

/-- A section of a delete: what it waits for is inbound. -/
theorem Parties.finishPendingDelete {d : ℕ} {del : PendingDelete} {order : List ℕ} {wg : Reader}
    (h : Parties cfg f.cache f.deletes) (hd : f.deletes[d]? = some del) (hnodup : order.Nodup)
    (hr : f.cache.readers[del.cacheLineWaiter]? = some wg) (hzero : wg.waits = 0)
    (hnames : f.cache.NamesLines del.inode order) (ans : DiskAnswers) :
    (f.finishPendingDelete cfg d del order ans).cache.fatal = true ∨
      (Parties cfg (f.finishPendingDelete cfg d del order ans).cache
          (f.finishPendingDelete cfg d del order ans).deletes ∧
        Notifies f.cache (f.finishPendingDelete cfg d del order ans).cache) := by
  have hmem := List.mem_of_getElem? hd
  obtain ⟨wg', hwg, hpc⟩ := h.waiters del hmem
  obtain rfl := Option.some.inj (hr.symm.trans hwg)
  unfold CachedFiles.finishPendingDelete
  dsimp only
  split
  · exact .inl ‹_›
  rename_i hfatal
  unfold dropCleanLines at hfatal ⊢
  obtain ⟨hlists, hq⟩ := (h.lists.dropLines ans del.inode false).resolve_left hfatal
  split
  · -- no line is left
    obtain ⟨hp, hn⟩ := h.quiet hlists hq
    unfold removeDeleted
    split
    · exact .inl rfl
    split
    · exact .inl rfl
    · refine .inr ⟨⟨hp.lists, hp.waits, fun del' hdel' => ?_⟩, hn⟩
      rcases List.mem_or_eq_of_mem_set hdel' with hold | rfl
      · exact hp.waiters del' hold
      · exact hp.waiters del hmem
  · rename_i l hleft
    split
    · exact .inl rfl
    rename_i hle
    obtain ⟨n, hn, hentry⟩ := List.exists_of_findSome?_eq_some hleft
    have hnot :=
      dropLines_left ans del.inode false hnodup hnames.1 (Bool.eq_false_iff.mpr hfatal) hn
      hentry
    have hold := dropLines_le ans del.inode false hentry
    have hs := (hnames.2 l (List.mem_filterMap.mpr ⟨n, hn, hold⟩)).resolve_right hnot.1
    refine .inr (h.wait hr hpc hzero hlists hq (Nat.not_le.mp hle) ?_)
    rw [hq.inbound l hs]
    exact hs

/-- **One step** notifies whom it takes from a waiters list. -/
theorem Parties.step {a : FileStep} (h : Parties cfg f.cache f.deletes)
    (hstep : step cfg objects f a = some f') (hmeets : a.Meets objects f) :
    f'.cache.fatal = true ∨ (Parties cfg f'.cache f'.deletes ∧ Notifies f.cache f'.cache) := by
  unfold CachedFiles.step at hstep
  split at hstep
  · cases hstep
  cases a with
  | cache s => exact h.cacheStep hstep hmeets
  -- the calls that leave the readers alone
  | mount readOnly =>
      obtain rfl := Option.some.inj hstep
      exact h.keeps (.of_eq rfl rfl)
  | unmount nonce =>
      dsimp only [stepAlive] at hstep
      split at hstep
      · obtain rfl := Option.some.inj hstep
        exact h.keeps (.of_eq rfl rfl)
      · cases hstep
  | createFileObjectInode nonce =>
      obtain rfl := Option.some.inj hstep
      exact h.keeps (keeps_createFileObjectInode f nonce)
  | touch i =>
      dsimp only [stepAlive] at hstep
      split at hstep
      · obtain rfl := Option.some.inj hstep
        exact h.keeps (.of_eq rfl rfl)
      · cases hstep
  | doOpen i exclusive mode =>
      obtain rfl := Option.some.inj hstep
      exact h.keeps (keeps_doOpen f i exclusive mode)
  | doRelease i fh =>
      obtain rfl := Option.some.inj hstep
      exact h.keeps (keeps_doRelease f i fh)
  | doUnlink i =>
      obtain rfl := Option.some.inj hstep
      exact h.keeps (keeps_doUnlink f i)
  -- the deletion drops lines and waits for those that are inbound
  | finishPendingDelete d order ans =>
      obtain ⟨del, hdel, hstep⟩ := Option.bind_eq_some_iff.mp hstep
      obtain ⟨wg, hwg, hstep⟩ := Option.bind_eq_some_iff.mp hstep
      split at hstep
      · rename_i hok
        obtain rfl := Option.some.inj hstep
        exact h.finishPendingDelete hdel hok.2.2.1 hwg hok.2.1 (hmeets del hdel) ans
      · cases hstep
  -- the eviction drops clean lines, for which nobody waits
  | evict i order ans =>
      dsimp only [stepAlive] at hstep
      split at hstep
      · obtain rfl := Option.some.inj hstep
        unfold CachedFiles.evict
        split
        · exact .inl rfl
        dsimp only
        split
        · exact .inl ‹_›
        · rename_i hfatal
          obtain ⟨hlists, hq⟩ :=
            (h.lists.dropLines ans i true).resolve_left hfatal
          exact .inr (h.quiet hlists hq)
      · cases hstep

/-! ### Runs -/

/-- At the start nobody waits. -/
theorem parties_initial (cfg : CacheConfig) (reads : List ReadIn) :
    Parties cfg (initial cfg reads).cache (initial cfg reads).deletes := by
  have hheld : heldLines (initial cfg reads).cache.readers = [] := by
    refine List.flatMap_eq_nil_iff.mpr fun rd hrd => ?_
    obtain ⟨readIn, -, rfl⟩ := List.mem_map.mp hrd
    rfl
  have hnew : ∀ rd ∈ (initial cfg reads).cache.readers, rd.waits = 0 := by
    intro rd hrd
    obtain ⟨readIn, -, rfl⟩ := List.mem_map.mp hrd
    rfl
  refine ⟨⟨?_, fun l hf => absurd rfl hf, fun l hw => absurd rfl hw⟩,
    ⟨fun l r hmem => absurd hmem List.not_mem_nil, fun r rd hr => ?_, fun rd hrd => ?_,
      fun rd hrd hw => absurd (hnew rd hrd) hw⟩, fun del hdel => absurd hdel List.not_mem_nil⟩
  · rw [hheld]
    exact (cacheOk_dataCacheUp cfg (fun _ => none) reads fun _ _ => none).lists
  · rw [hnew rd (List.mem_of_getElem? hr)]
    exact (Finset.sum_eq_zero fun l _ => rfl).symm
  · rw [hnew rd hrd]
    exact Nat.zero_le _

/-- After every run clear of the Fatalf the lists, the waits and the deletions agree. -/
theorem parties_of_run {reads : List ReadIn} {steps : List FileStep}
    (hrun : exec (step cfg objects) (initial cfg reads) steps = some f)
    (hmeets : Always (step cfg objects) (fun f a => a.Meets objects f) (initial cfg reads) steps) :
    f.cache.fatal = true ∨ Parties cfg f.cache f.deletes := by
  refine exec_invariant (I := fun f => f.cache.fatal = true ∨ Parties cfg f.cache f.deletes)
    (fun f a f' h ha hstep => ?_) hmeets hrun (.inr (parties_initial cfg reads))
  rcases h with hfatal | h
  · unfold CachedFiles.step at hstep
    rw [if_pos hfatal] at hstep
    cases hstep
  · exact (h.step hstep ha).imp_right And.left

/-- **Waiters of a line.**  In a run whose fetches find their inodes as long as
somebody waits for them, and whose deletes find lines in the maps of their
files, each step gives the `WaitGroup`s of a line one `Done` when the line
leaves the Inbound state, and keeps them on its list before; only inbound
lines have waiters. -/
theorem waiters_notified {reads : List ReadIn} {steps : List FileStep} {a : FileStep}
    (hrun : exec (step cfg objects) (initial cfg reads) steps = some f)
    (hmeets : Always (step cfg objects) (fun f a => a.Meets objects f) (initial cfg reads) steps)
    (hstep : step cfg objects f a = some f') (ha : a.Meets objects f) :
    f'.cache.fatal = true ∨ (Notifies f.cache f'.cache ∧
      ∀ l, (f'.cache.lines l).waiters ≠ [] → (f'.cache.lines l).state = .inbound) := by
  rcases parties_of_run hrun hmeets with hfatal | h
  · unfold CachedFiles.step at hstep
    rw [if_pos hfatal] at hstep
    cases hstep
  · refine (h.step hstep ha).imp_right fun ⟨h', hn⟩ => ⟨hn, fun l hw => ?_⟩
    exact (h'.lists.waiting l hw).2

/-- The object of the first file that is found, when one backend is mounted. -/
def threeBytes (i : ℕ) : List UInt8 := if i = 3 then [10, 20, 30] else []

/-- A file is opened, read and deleted while its first line comes in. -/
def readAndDelete : List FileStep :=
  [.mount false, .createFileObjectInode 2, .doOpen 3 false .RDONLY, .cache (.read 0 goodDisk),
    .cache (.assign 0 goodDisk), .cache (.fetchBegin 0 goodDisk), .doUnlink 3, .doRelease 3 4,
    .finishPendingDelete 0 [0] goodDisk, .cache (.fetchAnswer 0 true)]

/-- The run theorem at a line on which a reader and a deletion wait. -/
theorem reader_and_delete_notified : ∃ f f',
    exec (step (oneLine .ram) threeBytes) (initial (oneLine .ram) [⟨3, 4, 0, 2⟩]) readAndDelete =
      some f ∧
    step (oneLine .ram) threeBytes f (.cache (.fetchEnd 0 goodDisk)) = some f' ∧
    (f.cache.lines 0).waiters = [0, 1] ∧ f'.cache.fatal = false ∧ Notifies f.cache f'.cache := by
  obtain ⟨f, hrun, hwaiters, hmeets⟩ : ∃ f, exec (step (oneLine .ram) threeBytes)
      (initial (oneLine .ram) [⟨3, 4, 0, 2⟩]) readAndDelete = some f ∧
      (f.cache.lines 0).waiters = [0, 1] ∧
      (FileStep.cache (.fetchEnd 0 goodDisk)).Meets threeBytes f := exec_exists (by decide +kernel)
  obtain ⟨f', hrun', hfatal⟩ : ∃ f', exec (step (oneLine .ram) threeBytes)
      (initial (oneLine .ram) [⟨3, 4, 0, 2⟩])
      (readAndDelete ++ [.cache (.fetchEnd 0 goodDisk)]) = some f' ∧ f'.cache.fatal = false :=
    exec_exists (by decide +kernel)
  obtain ⟨f₁, hrun₁, hstep⟩ := exec_snoc.mp hrun'
  obtain rfl := Option.some.inj (hrun.symm.trans hrun₁)
  have h := waiters_notified hrun (by decide +kernel) hstep hmeets
  refine ⟨f, f', hrun, hstep, hwaiters, hfatal, ?_⟩
  rw [hfatal] at h
  exact (h.resolve_left nofun).1

/-- The backend is unmounted while the line comes in. -/
def readAndUnmount : List FileStep :=
  [.mount false, .createFileObjectInode 2, .doOpen 3 false .RDONLY, .cache (.read 0 goodDisk),
    .cache (.assign 0 goodDisk), .unmount 2]

/-- The fetch that does not find its inode frees the line and forgets who waits
for it: the reader waits for ever. -/
theorem unmount_loses_waiter : ∃ f f',
    exec (step (oneLine .ram) threeBytes) (initial (oneLine .ram) [⟨3, 4, 0, 2⟩]) readAndUnmount =
      some f ∧
    step (oneLine .ram) threeBytes f (.cache (.fetchBegin 0 goodDisk)) = some f' ∧
    f'.cache.fatal = false ∧ (f.cache.lines 0).waiters = [0] ∧
    (f'.cache.lines 0).waiters = [] ∧ (f'.cache.lines 0).state = .free ∧
    (f'.cache.readers[0]?).map Reader.waits = some 1 ∧ ¬Notifies f.cache f'.cache := by
  obtain ⟨f, hrun, hwaiters⟩ : ∃ f, exec (step (oneLine .ram) threeBytes)
      (initial (oneLine .ram) [⟨3, 4, 0, 2⟩]) readAndUnmount = some f ∧
      (f.cache.lines 0).waiters = [0] := exec_exists (by decide +kernel)
  obtain ⟨f', hrun', hfatal, hempty, hfree, hwaits⟩ : ∃ f', exec (step (oneLine .ram) threeBytes)
      (initial (oneLine .ram) [⟨3, 4, 0, 2⟩])
      (readAndUnmount ++ [.cache (.fetchBegin 0 goodDisk)]) = some f' ∧ f'.cache.fatal = false ∧
      (f'.cache.lines 0).waiters = [] ∧ (f'.cache.lines 0).state = .free ∧
      (f'.cache.readers[0]?).map Reader.waits = some 1 := exec_exists (by decide +kernel)
  obtain ⟨f₁, hrun₁, hstep⟩ := exec_snoc.mp hrun'
  obtain rfl := Option.some.inj (hrun.symm.trans hrun₁)
  refine ⟨f, f', hrun, hstep, hfatal, hwaiters, hempty, hfree, hwaits, fun hn => ?_⟩
  obtain ⟨wg, wg', -, hr', -, hdone⟩ := hn 0 0 (by rw [hwaiters]; exact List.mem_cons_self ..)
  rw [hfree, if_neg nofun] at hdone
  rw [hr'] at hwaits
  exact absurd (hdone.2.symm.trans (Option.some.inj hwaits)) nofun

end CachedFiles

end MultiStorageFileSystem
