/-
MultiStorageClient/DataCacheWaiters.lean

Who waits for a line, whatever happens to the inodes.

`WaitsOk` counts: a `WaitGroup` stands at the number of waiters lists that it
is on, and that is one at most.  `Notifies` is what a step does to those on
the lists.  Only a fetch whose inode is missing drops a list without
notifying it, so `stepOk` asks that it comes to none.
-/
import MultiStorageClient.DataCacheLists

namespace MultiStorageFileSystem

variable {cfg : CacheConfig} {inodes : ℕ → Option InodeInfo}

namespace DataCache

variable {c c' c₁ c₂ : DataCache} {l r : ℕ} {held held' got got' others : List ℕ}

/-! ### Waiters and counts -/

/-- The lines that a step makes inbound are lines of `owner`. -/
def Incoming (owner : Option ℕ) (c c' : DataCache) : Prop :=
  ∀ l, (c'.lines l).state = .inbound →
    ((c.lines l).state = .inbound ∧ (c'.lines l).inodeNumber = (c.lines l).inodeNumber) ∨
      some (c'.lines l).inodeNumber = owner

theorem Incoming.refl (owner : Option ℕ) (c : DataCache) : Incoming owner c c :=
  fun _ h => .inl ⟨h, rfl⟩

theorem Incoming.trans {owner : Option ℕ} (h : Incoming owner c c₁) (h' : Incoming owner c₁ c₂) :
    Incoming owner c c₂ := by
  intro l hs
  rcases h' l hs with ⟨hs₁, hi⟩ | hi
  · rcases h l hs₁ with ⟨hs₀, hi₀⟩ | hi₀
    · exact .inl ⟨hs₀, hi.trans hi₀⟩
    · exact .inr (by rw [hi]; exact hi₀)
  · exact .inr hi

theorem Quiet.incoming (hq : Quiet c c') (owner : Option ℕ) : Incoming owner c c' := by
  intro l hs
  have hs₀ := hq.still l hs
  exact .inl ⟨hs₀, by rw [hq.inbound l hs₀]⟩

/-- Only one line changes, and it does not become inbound. -/
theorem Incoming.of_line (owner : Option ℕ) (hother : ∀ l', l' ≠ l → c'.lines l' = c.lines l')
    (hself : (c'.lines l).state = .inbound → (c.lines l).state = .inbound ∧
      (c'.lines l).inodeNumber = (c.lines l).inodeNumber) : Incoming owner c c' := by
  intro l' hs
  by_cases heq : l' = l
  · rw [heq] at hs ⊢
    exact .inl (hself hs)
  · rw [hother l' heq] at hs ⊢
    exact .inl ⟨hs, rfl⟩

/-- How often a `WaitGroup` is on waiters lists. -/
def listed (cfg : CacheConfig) (c : DataCache) (r : ℕ) : ℕ :=
  ∑ l ∈ Finset.range cfg.cacheLines, (c.lines l).waiters.count r

/-- `inboundCacheLineCount` is the number of inbound lines of the inode. -/
def CountOk (c : DataCache) (i : ℕ) : Prop :=
  c.inboundCacheLineCount i = (c.inboundLRU.filter fun l => (c.lines l).inodeNumber = i).length

instance (c : DataCache) (i : ℕ) : Decidable (CountOk c i) := inferInstanceAs (Decidable (_ = _))

/-- The waiters stay, and so do the counts. -/
structure Calm (c c' : DataCache) : Prop where
  waiters : ∀ l, (c'.lines l).waiters = (c.lines l).waiters
  readers : c'.readers = c.readers
  counts : ∀ i, CountOk c i → CountOk c' i

theorem Calm.refl (c : DataCache) : Calm c c := ⟨fun _ => rfl, rfl, fun _ h => h⟩

theorem Calm.trans (h : Calm c c₁) (h' : Calm c₁ c₂) : Calm c c₂ :=
  ⟨fun l => (h'.waiters l).trans (h.waiters l), h'.readers.trans h.readers,
    fun i hi => h'.counts i (h.counts i hi)⟩

/-- What neither starts nor ends a fetch disturbs nobody who waits. -/
theorem Quiet.calm (hq : Quiet c c') (h : ListsOk cfg c held) (h' : ListsOk cfg c' held') :
    Calm c c' := by
  refine ⟨fun l => ?_, hq.readers, fun i hi => ?_⟩
  · by_cases hs : (c.lines l).state = .inbound
    · rw [hq.inbound l hs]
    · rw [h.no_waiters hs, h'.no_waiters fun hs' => hs (hq.still l hs')]
  · unfold CountOk at hi ⊢
    rw [hq.counts, hq.inboundLRU, hi]
    congr 1
    apply List.filter_congr
    intro l hl
    rw [hq.inbound l (h.state_of_mem (s := .inbound) hl)]

theorem listed_congr (h : ∀ l, (c'.lines l).waiters = (c.lines l).waiters) :
    listed cfg c' r = listed cfg c r := by
  apply Finset.sum_congr rfl
  intro l _
  rw [h l]

/-- **How the number changes when one list does.** -/
theorem listed_change (r : ℕ) (hl : l < cfg.cacheLines)
    (hother : ∀ l', l' ≠ l → (c'.lines l').waiters = (c.lines l').waiters) :
    listed cfg c' r + (c.lines l).waiters.count r =
      listed cfg c r + (c'.lines l).waiters.count r := by
  unfold listed
  rw [← Finset.add_sum_erase _ _ (Finset.mem_range.mpr hl),
    ← Finset.add_sum_erase _ (fun l => (c.lines l).waiters.count r) (Finset.mem_range.mpr hl)]
  have hsame : ∑ l' ∈ (Finset.range cfg.cacheLines).erase l, (c'.lines l').waiters.count r =
      ∑ l' ∈ (Finset.range cfg.cacheLines).erase l, (c.lines l').waiters.count r := by
    apply Finset.sum_congr rfl
    intro l' hl'
    rw [hother l' (Finset.ne_of_mem_erase hl')]
  omega

/-- A `WaitGroup` stands at the number of lists that it is on; there is at
most one, and none while its party goes on. -/
structure WaitsOk (cfg : CacheConfig) (c : DataCache) : Prop where
  known : ∀ l, ∀ r ∈ (c.lines l).waiters, r < c.readers.length
  waits : ∀ (r : ℕ) (rd : Reader), c.readers[r]? = some rd → rd.waits = listed cfg c r
  once : ∀ rd ∈ c.readers, rd.waits ≤ 1
  idle : ∀ rd ∈ c.readers, rd.waits ≠ 0 → rd.pc = .waiting ∨
    (∃ count prefetch got, rd.pc = .allocating count prefetch got) ∨ rd.pc = .returned .ok

/-- A calm step keeps who waits for what. -/
theorem WaitsOk.of_calm (h : WaitsOk cfg c) (hcalm : Calm c c') : WaitsOk cfg c' := by
  refine ⟨fun l r hmem => ?_, fun r rd hr => ?_, ?_, ?_⟩
  · rw [hcalm.waiters] at hmem
    rw [hcalm.readers]
    exact h.known l r hmem
  · rw [hcalm.readers] at hr
    rw [listed_congr hcalm.waiters]
    exact h.waits r rd hr
  · rw [hcalm.readers]
    exact h.once
  · rw [hcalm.readers]
    exact h.idle

/-- What a section of a reader does to the waiters: it leaves them alone, or
appends the reader to one list. -/
inductive Moves (cfg : CacheConfig) (c : DataCache) (r : ℕ) (rd : Reader) (c₁ : DataCache)
    (rd' : Reader) : Prop
  | on (hcalm : Calm c c₁) (hwaits : rd'.waits = rd.waits)
  | waits (l : ℕ) (hl : l < cfg.cacheLines)
      (hself : (c₁.lines l).waiters = (c.lines l).waiters ++ [r])
      (hother : ∀ l', l' ≠ l → (c₁.lines l').waiters = (c.lines l').waiters)
      (hreaders : c₁.readers = c.readers) (hcounts : ∀ i, CountOk c i → CountOk c₁ i)
      (hwaits : rd'.waits = rd.waits + 1)
      (hpc : rd'.pc = .waiting ∨ (∃ count prefetch got, rd'.pc = .allocating count prefetch got) ∨
        rd'.pc = .returned .ok)

theorem Moves.readers {rd rd' : Reader} (h : Moves cfg c r rd c₁ rd') : c₁.readers = c.readers := by
  cases h with
  | on hcalm _ => exact hcalm.readers
  | waits _ _ _ _ hreaders _ _ _ => exact hreaders

theorem Moves.counts {rd rd' : Reader} (h : Moves cfg c r rd c₁ rd') {i : ℕ} (hi : CountOk c i) :
    CountOk c₁ i := by
  cases h with
  | on hcalm _ => exact hcalm.counts i hi
  | waits _ _ _ _ _ hcounts _ _ => exact hcounts i hi

theorem Moves.after {rd rd' : Reader} (hcalm : Calm c c₁) (h : Moves cfg c₁ r rd c₂ rd') :
    Moves cfg c r rd c₂ rd' := by
  cases h with
  | on hcalm' hwaits => exact .on (hcalm.trans hcalm') hwaits
  | waits l hl hself hother hreaders hcounts hwaits hpc =>
      refine .waits l hl ?_ (fun l' hne => ?_) (hreaders.trans hcalm.readers)
        (fun i hi => hcounts i (hcalm.counts i hi)) hwaits hpc
      · rw [hself, hcalm.waiters]
      · rw [hother l' hne, hcalm.waiters]

/-- A section of a reader that does not wait. -/
theorem WaitsOk.moves (h : WaitsOk cfg c) {rd rd' : Reader} (hr : c.readers[r]? = some rd)
    (hzero : rd.waits = 0) (hmoves : Moves cfg c r rd c₁ rd') :
    WaitsOk cfg (c₁.setReader r rd') := by
  have hlt := (List.getElem?_eq_some_iff.mp hr).1
  have hreaders : (c₁.setReader r rd').readers = c.readers.set r rd' := by
    show c₁.readers.set r rd' = _
    rw [hmoves.readers]
  have hmem : ∀ rd₀ ∈ (c₁.setReader r rd').readers, rd₀ ∈ c.readers ∨ rd₀ = rd' := by
    intro rd₀ h₀
    rw [hreaders] at h₀
    exact List.mem_or_eq_of_mem_set h₀
  have hcount := h.waits r rd hr
  have hlisted : ∀ r', listed cfg (c₁.setReader r rd') r' = listed cfg c₁ r' := fun _ => rfl
  refine ⟨fun l' r' hmem' => ?_, fun r' rd₀ hr' => ?_, fun rd₀ h₀ => ?_, fun rd₀ h₀ hw => ?_⟩
  -- every waiter is a reader that there is
  · rw [hreaders, List.length_set]
    change r' ∈ (c₁.lines l').waiters at hmem'
    cases hmoves with
    | on hcalm _ =>
        rw [hcalm.waiters] at hmem'
        exact h.known l' r' hmem'
    | waits l hl hself hother _ _ _ _ =>
        by_cases heq : l' = l
        · rw [heq, hself] at hmem'
          rcases List.mem_append.mp hmem' with hold | hnew
          · exact h.known l r' hold
          · rw [List.mem_singleton.mp hnew]
            exact hlt
        · rw [hother l' heq] at hmem'
          exact h.known l' r' hmem'
  -- a reader waits as often as it is listed
  · rw [hreaders] at hr'
    rw [hlisted]
    cases hmoves with
    | on hcalm hwaits =>
        rw [listed_congr hcalm.waiters]
        by_cases heq : r' = r
        · subst heq
          rw [List.getElem?_set_self hlt] at hr'
          rw [← Option.some.inj hr', hwaits, hcount]
        · rw [List.getElem?_set_ne (Ne.symm heq)] at hr'
          exact h.waits r' rd₀ hr'
    -- `r` is on one list more, and waits once more
    | waits l hl hself hother _ _ hwaits _ =>
        have hchange := listed_change r' hl hother
        rw [hself, List.count_append] at hchange
        by_cases heq : r' = r
        · subst heq
          rw [List.getElem?_set_self hlt] at hr'
          rw [List.count_singleton_self] at hchange
          rw [← Option.some.inj hr', hwaits, hcount]
          omega
        · rw [List.getElem?_set_ne (Ne.symm heq)] at hr'
          rw [List.count_eq_zero_of_not_mem (List.mem_singleton.not.mpr heq)] at hchange
          rw [h.waits r' rd₀ hr']
          omega
  · rcases hmem rd₀ h₀ with h₀ | rfl
    · exact h.once rd₀ h₀
    · cases hmoves with
      | on _ hwaits => omega
      | waits _ _ _ _ _ _ hwaits _ => omega
  · rcases hmem rd₀ h₀ with h₀ | rfl
    · exact h.idle rd₀ h₀ hw
    · cases hmoves with
      | on _ hwaits => exact absurd (hwaits.trans hzero) hw
      | waits _ _ _ _ _ _ _ hpc => exact hpc

/-! ### Sections of a reader -/

/-- The outcome of a section: the process has ended, or the cache has changed
and then the reader. -/
def SectionOk (cfg : CacheConfig) (owner : Option ℕ) (c : DataCache) (r : ℕ) (rd : Reader)
    (others : List ℕ) (c' : DataCache) : Prop :=
  c'.fatal = true ∨ ∃ c₁ rd', c' = c₁.setReader r rd' ∧ ListsOk cfg c₁ (rd'.held ++ others) ∧
    Moves cfg c r rd c₁ rd' ∧ Incoming owner c c₁

theorem SectionOk.after {rd : Reader} {owner : Option ℕ} (hcalm : Calm c c₁)
    (hin : Incoming owner c c₁) (h : SectionOk cfg owner c₁ r rd others c') :
    SectionOk cfg owner c r rd others c' := by
  rcases h with hfatal | ⟨c₂, rd', heq, hlists, hmoves, hin'⟩
  · exact .inl hfatal
  · exact .inr ⟨c₂, rd', heq, hlists, hmoves.after hcalm, hin.trans hin'⟩

namespace ListsOk

/-- A reader joins the waiters of an inbound line. -/
theorem wait (h : ListsOk cfg c held) (hl : l < cfg.cacheLines)
    (hs : (c.lines l).state = .inbound) (r : ℕ) :
    ListsOk cfg (c.updLine l fun t => { t with waiters := t.waiters ++ [r] }) held := by
  refine h.keep (changes_updLine c l _).lines ?_ (fun s => ?_) (fun _ => ⟨hl, hs⟩)
    fun _ => ⟨hl, hs⟩
  · rw [lines_updLine_self]
  · cases s <;> rfl

theorem incoming_wait (owner : Option ℕ) (c : DataCache) (l r : ℕ) :
    Incoming owner c (c.updLine l fun t => { t with waiters := t.waiters ++ [r] }) := by
  refine .of_line owner (changes_updLine c l _).lines fun hs => ?_
  rw [lines_updLine_self] at hs ⊢
  exact ⟨hs, rfl⟩

/-- A reader that begins to wait for a line. -/
theorem moves_wait (hl : l < cfg.cacheLines) {rd rd' : Reader}
    (hwaits : rd'.waits = rd.waits + 1)
    (hpc : rd'.pc = .waiting ∨ (∃ count prefetch got, rd'.pc = .allocating count prefetch got) ∨
      rd'.pc = .returned .ok) :
    Moves cfg c r rd (c.updLine l fun t => { t with waiters := t.waiters ++ [r] }) rd' := by
  refine .waits l hl ?_ (fun l' hne => ?_) rfl (fun i hi => ?_) hwaits hpc
  · rw [lines_updLine_self]
  · rw [(changes_updLine c l _).lines l' hne]
  · unfold CountOk at hi ⊢
    refine hi.trans ?_
    congr 1
    apply List.filter_congr
    intro l' _
    rw [lines_updLine]
    split
    · rename_i heq
      rw [heq]
    · rfl

/-- A turn of `allocateDataCacheLines`. -/
theorem allocate (h : ListsOk cfg c (got ++ others)) (ans : DiskAnswers) (r : ℕ) (rd : Reader)
    (count : ℕ) (prefetch : List ℕ) :
    SectionOk cfg none c r rd others
      (c.allocateDataCacheLines cfg inodes ans r rd count prefetch got) := by
  rcases hfree : DataCache.takeFree (count - got.length) c got with ⟨c₁, got₁⟩
  obtain ⟨h₁, hq₁, -⟩ := h.takeFree _ hfree
  rcases hclean : DataCache.takeClean cfg inodes ans (count - got₁.length) c₁ got₁ with ⟨c₂, got₂⟩
  rw [allocateDataCacheLines_eq hfree hclean]
  split
  · exact .inl ‹_›
  rename_i hfatal
  rcases h₁.takeClean _ hclean with hfatal' | ⟨h₂, hq₂, -⟩
  · exact absurd hfatal' hfatal
  have hcalm := (hq₁.trans hq₂).calm h h₂
  have hin := (hq₁.trans hq₂).incoming none
  split
  · exact .inr ⟨c₂, _, rfl, h₂, .on hcalm rfl, hin⟩
  split
  · exact .inl rfl
  · rename_i l rest hinbound
    have hmem : l ∈ c₂.onList (got₂ ++ others) .inbound := by
      show l ∈ c₂.inboundLRU
      rw [hinbound]
      exact List.mem_cons_self ..
    have hl := h₂.lt_of_mem hmem
    refine .inr ⟨_, _, rfl, h₂.wait hl (h₂.state_of_mem hmem) r, ?_,
      hin.trans (incoming_wait none c₂ l r)⟩
    exact (moves_wait hl rfl (.inr (.inl ⟨_, _, _, rfl⟩))).after hcalm

/-- A read that stops. -/
theorem finish (h : ListsOk cfg c others) {rd : Reader} (owner : Option ℕ) (errno : Errno) :
    SectionOk cfg owner c r rd others (c.finish r rd errno) :=
  .inr ⟨c, _, rfl, h, .on (.refl c) rfl, .refl owner c⟩

/-- A line that is found in the map. -/
theorem readLine (h : ListsOk cfg c others) (ans : DiskAnswers) (rd : Reader) (n l : ℕ) :
    SectionOk cfg none c r rd others (c.readLine cfg ans r rd n l) := by
  unfold DataCache.readLine
  split
  · exact .inl rfl
  rename_i hle
  have hl := Nat.not_le.mp hle
  split
  · rename_i hs
    exact .inr ⟨_, _, rfl, h.wait hl hs r, moves_wait hl rfl (.inl rfl), incoming_wait none c l r⟩
  · rename_i hs
    split
    · obtain ⟨h₁, hq₁⟩ := h.dropClean ans rd.readIn.inode n hl hs
      exact SectionOk.after (hq₁.calm h h₁) (hq₁.incoming none) (h₁.finish none _)
    · have hmem : l ∈ c.onList others (c.lines l).state := h.mem_of_state hl
      rw [hs] at hmem
      have h₁ : ListsOk cfg (c.touchClean l) others := by
        refine h.congr rfl fun s => ?_
        cases s with
        | clean => exact (List.perm_append_singleton l _).trans (List.perm_cons_erase hmem).symm
        | notOnLRU => exact List.Perm.refl _
        | free => exact List.Perm.refl _
        | inbound => exact List.Perm.refl _
      have hcalm : Calm c (c.touchClean l) := ⟨fun _ => rfl, rfl, fun _ hi => hi⟩
      dsimp only
      split
      · exact SectionOk.after hcalm (.refl none c) (h₁.finish none _)
      · exact .inr ⟨_, _, rfl, h₁, .on hcalm rfl, .refl none c⟩
  · exact .inl rfl

/-- **The first locked section of `DoRead`**. -/
theorem readSection (h : ListsOk cfg c others) (ans : DiskAnswers) (rd : Reader) :
    SectionOk cfg none c r rd others (c.readSection cfg inodes ans r rd) := by
  unfold DataCache.readSection
  split
  · exact h.finish none _
  split
  · exact h.finish none _
  · split
    · exact h.finish none _
    · dsimp only
      split
      · have hnone : ListsOk cfg c ([] ++ others) := h
        exact hnone.allocate ans r rd _ _
      · exact h.readLine ans rd _ _

/-- A held line becomes an inbound line. -/
theorem assignLine (h : ListsOk cfg c (l :: held)) (inode n : ℕ) (ws : List ℕ) :
    ListsOk cfg (c.assignLine inode n ws l) held ∧
      ((c.assignLine inode n ws l).lines l).waiters = ws ∧
      (∀ l', l' ≠ l → ((c.assignLine inode n ws l).lines l').waiters = (c.lines l').waiters) ∧
      (c.lines l).waiters = [] ∧ l < cfg.cacheLines ∧
      (∀ i, CountOk c i → CountOk (c.assignLine inode n ws l) i) ∧
      Incoming (some inode) c (c.assignLine inode n ws l) := by
  have hmem : l ∈ c.onList (l :: held) .notOnLRU := List.mem_cons_self ..
  have hs := h.state_of_mem hmem
  have hnot : (c.lines l).state ≠ .inbound := by
    rw [hs]
    nofun
  have heq := assignLine_eq c inode n ws l
  generalize c.assignLine inode n ws l = c' at heq
  generalize ht : ({ c.lines l with
    state := .inbound
    waiters := ws
    contentLength := 0
    contentGeneration := (c.lines l).contentGeneration + 1
    inodeNumber := inode
    lineNumber := n
    fetch := .started } : CacheLine) = t at heq
  have hself : c'.lines l = t := by
    rw [heq]
    exact Function.update_self _ _ _
  have hother : ∀ l', l' ≠ l → c'.lines l' = c.lines l' := by
    intro l' hne
    rw [heq]
    exact Function.update_of_ne hne _ _
  refine ⟨?_, ?_, fun l' hne => by rw [hother l' hne], h.no_waiters hnot, h.lt_of_mem hmem,
    fun i hi => ?_, fun l' hs' => ?_⟩
  · refine h.move (h.lt_of_mem hmem) hother hs (t := .inbound) (by rw [hself, ← ht]) nofun
      (List.Perm.refl _) ?_ (fun s h₁ h₂ => ?_) (fun _ => rfl) fun _ => rfl
    · rw [heq]
      exact List.perm_append_singleton l _
    · rw [heq]
      cases s <;> first | rfl | contradiction
  · rw [hself, ← ht]
  · -- the new line counts for its inode, and for no other
    unfold CountOk at hi ⊢
    have hnew : l ∉ c.inboundLRU := fun hl => hnot (h.state_of_mem (s := .inbound) hl)
    have hold : c.inboundLRU.filter (fun l' => (c'.lines l').inodeNumber = i) =
        c.inboundLRU.filter fun l' => (c.lines l').inodeNumber = i := by
      apply List.filter_congr
      intro l' hl'
      rw [hother l' (ne_of_mem_of_not_mem hl' hnew)]
    have hinbound : c'.inboundLRU = c.inboundLRU ++ [l] := by rw [heq]
    have hcounts : c'.inboundCacheLineCount = Function.update c.inboundCacheLineCount inode
        (c.inboundCacheLineCount inode + 1) := by rw [heq]
    have hinode : (c'.lines l).inodeNumber = inode := by rw [hself, ← ht]
    rw [hinbound, hcounts, List.filter_append, List.length_append, hold, ← hi, List.filter_cons,
      List.filter_nil, hinode]
    by_cases hii : inode = i
    · rw [if_pos (by simpa using hii), hii, Function.update_self]
      rfl
    · rw [if_neg (by simpa using hii), Function.update_of_ne (Ne.symm hii)]
      rfl
  · by_cases heq' : l' = l
    · rw [heq', hself, ← ht]
      exact .inr rfl
    · rw [hother l' heq'] at hs' ⊢
      exact .inl ⟨hs', rfl⟩

/-- The loop over the lines to prefetch. -/
theorem assignPrefetch (inode : ℕ) : ∀ {prefetch : List ℕ} {c c' : DataCache} {got left : List ℕ},
    ListsOk cfg c (got ++ held) → DataCache.assignPrefetch inode prefetch c got = (c', left) →
    ListsOk cfg c' (left ++ held) ∧ Calm c c' ∧ Incoming (some inode) c c' := by
  intro prefetch
  induction prefetch with
  | nil =>
      intro c c' got left h heq
      obtain ⟨rfl, rfl⟩ := Prod.mk.inj heq
      exact ⟨h, .refl _, .refl _ _⟩
  | cons n prefetch ih =>
      intro c c' got left h heq
      cases got with
      | nil =>
          obtain ⟨rfl, rfl⟩ := Prod.mk.inj heq
          exact ⟨h, .refl _, .refl _ _⟩
      | cons l got =>
          rw [DataCache.assignPrefetch] at heq
          split at heq
          · exact ih h heq
          · obtain ⟨h₁, hself, hother, hempty, -, hcounts, hin⟩ := ListsOk.assignLine h inode n []
            obtain ⟨h₂, hcalm, hin'⟩ := ih h₁ heq
            refine ⟨h₂, Calm.trans ⟨fun l' => ?_, ?_, hcounts⟩ hcalm, hin.trans hin'⟩
            · by_cases hl' : l' = l
              · rw [hl', hself, hempty]
              · exact hother l' hl'
            · rw [assignLine_eq]

/-- **The second locked section of `DoRead`**: it needs an open handle to bring
lines in. -/
theorem assignSection (h : ListsOk cfg c (got ++ others)) (ans : DiskAnswers) (rd : Reader)
    (prefetch : List ℕ) {owner : Option ℕ}
    (howner : ∀ info, c.checkRead inodes rd.readIn = .ok info → owner = some rd.readIn.inode) :
    SectionOk cfg owner c r rd others (c.assignSection cfg inodes ans r rd prefetch got) := by
  obtain ⟨h₁, hq₁⟩ := h.releaseDataCacheLines ans
  have hcalm₁ := hq₁.calm h h₁
  unfold DataCache.assignSection
  split
  · exact SectionOk.after hcalm₁ (hq₁.incoming _) (h₁.finish _ _)
  rename_i info hcheck
  obtain rfl := howner info hcheck
  split
  · exact SectionOk.after hcalm₁ (hq₁.incoming _) (h₁.finish _ _)
  dsimp only
  split
  · exact .inr ⟨_, _, rfl, h₁, .on hcalm₁ rfl, hq₁.incoming _⟩
  cases got with
  | nil => exact .inl rfl
  | cons l got =>
      obtain ⟨h₂, hself, hother, hempty, hl, hcounts, hin₂⟩ := ListsOk.assignLine h rd.readIn.inode
        (rd.curOffset / cfg.cacheLineSize) [r]
      rcases hpre : DataCache.assignPrefetch rd.readIn.inode prefetch
        (c.assignLine rd.readIn.inode (rd.curOffset / cfg.cacheLineSize) [r] l) got with ⟨c₃, left⟩
      obtain ⟨h₃, hcalm₃, hin₃⟩ := ListsOk.assignPrefetch _ h₂ hpre
      obtain ⟨h₄, hq₄⟩ := h₃.releaseDataCacheLines ans
      have hcalm₄ := hcalm₃.trans (hq₄.calm h₃ h₄)
      have hreaders :
          (c.assignLine rd.readIn.inode (rd.curOffset / cfg.cacheLineSize) [r] l).readers =
          c.readers := by rw [assignLine_eq]
      dsimp only
      rw [hpre]
      refine .inr ⟨_, _, rfl, h₄, .waits l hl ?_ (fun l' hne => ?_)
        (hcalm₄.readers.trans hreaders) (fun i hi => hcalm₄.counts i (hcounts i hi)) rfl (.inl rfl),
        (hin₂.trans hin₃).trans (hq₄.incoming _)⟩
      · rw [hcalm₄.waiters, hself, hempty]
        rfl
      · rw [hcalm₄.waiters, hother l' hne]

end ListsOk

/-! ### Fetches -/

/-- **Notification**: every waiter gets as many `Done`s as it is on the list. -/
theorem getElem?_notify (ws : List ℕ) : ∀ (readers : List Reader) (r : ℕ),
    (ws.foldl (fun rs r => rs.modify r fun rd => { rd with waits := rd.waits - 1 }) readers)[r]? =
      readers[r]?.map fun rd => { rd with waits := rd.waits - ws.count r } := by
  induction ws with
  | nil => exact fun readers r => by simp
  | cons w ws ih =>
      intro readers r
      rw [List.foldl_cons, ih, List.getElem?_modify, Option.map_eq_map, Option.map_map]
      congr 1
      funext rd
      simp only [Function.comp_apply, List.count_cons]
      by_cases hw : w = r
      · rw [if_pos hw, if_pos (by simpa using hw)]
        simp only [Nat.sub_sub, Nat.add_comm]
      · rw [if_neg hw, if_neg (by simpa using hw)]
        rfl

/-- All waiters of a line are notified, and its list is empty then. -/
theorem WaitsOk.notify (h : WaitsOk cfg c) (hl : l < cfg.cacheLines)
    (hempty : (c'.lines l).waiters = [])
    (hother : ∀ l', l' ≠ l → (c'.lines l').waiters = (c.lines l').waiters)
    (hreaders : c'.readers = (c.notifyWaiters l).readers) : WaitsOk cfg c' := by
  have hget : ∀ r, c'.readers[r]? =
      c.readers[r]?.map fun rd : Reader =>
        { rd with waits := rd.waits - (c.lines l).waiters.count r } := by
    intro r
    rw [hreaders]
    exact getElem?_notify _ _ _
  have hmem : ∀ rd' ∈ c'.readers, ∃ rd ∈ c.readers, rd'.waits ≤ rd.waits ∧ rd'.pc = rd.pc := by
    intro rd' hrd'
    obtain ⟨r, hr⟩ := List.getElem?_of_mem hrd'
    rw [hget r] at hr
    obtain ⟨rd, hrd, rfl⟩ := Option.map_eq_some_iff.mp hr
    exact ⟨rd, List.mem_of_getElem? hrd, Nat.sub_le _ _, rfl⟩
  refine ⟨fun l' r hmem' => ?_, fun r rd' hr => ?_, fun rd' hrd' => ?_, fun rd' hrd' hw => ?_⟩
  -- no one is left on the list of `l`
  · by_cases heq : l' = l
    · rw [heq, hempty] at hmem'
      cases hmem'
    · rw [hother l' heq] at hmem'
      have hlt := h.known l' r hmem'
      by_contra hle
      have hnone := hget r
      rw [List.getElem?_eq_none_iff.mpr (Nat.not_lt.mp hle)] at hnone
      rw [List.getElem?_eq_some_iff.mpr ⟨hlt, rfl⟩] at hnone
      cases hnone
  -- as often as it was on that list, a reader waits less
  · rw [hget r] at hr
    obtain ⟨rd, hrd, rfl⟩ := Option.map_eq_some_iff.mp hr
    have hchange := listed_change r hl hother
    rw [hempty, List.count_nil] at hchange
    have hwaits := h.waits r rd hrd
    show rd.waits - _ = _
    omega
  · obtain ⟨rd, hrd, hle, -⟩ := hmem rd' hrd'
    exact hle.trans (h.once rd hrd)
  · obtain ⟨rd, hrd, hle, hpc⟩ := hmem rd' hrd'
    rw [hpc]
    exact h.idle rd hrd (by omega)

/-- A line that changes in its content and its backing only. -/
structure Stores (l : ℕ) (c c' : DataCache) : Prop where
  other : ∀ l', l' ≠ l → c'.lines l' = c.lines l'
  state : (c'.lines l).state = (c.lines l).state
  waiters : (c'.lines l).waiters = (c.lines l).waiters
  inodeNumber : (c'.lines l).inodeNumber = (c.lines l).inodeNumber
  lineNumber : (c'.lines l).lineNumber = (c.lines l).lineNumber
  fetch : (c'.lines l).fetch = (c.lines l).fetch
  lists : ∀ held s, c'.onList held s = c.onList held s
  counts : c'.inboundCacheLineCount = c.inboundCacheLineCount
  readers : c'.readers = c.readers

theorem Stores.trans (h : Stores l c c₁) (h' : Stores l c₁ c₂) : Stores l c c₂ :=
  ⟨fun l' hne => (h'.other l' hne).trans (h.other l' hne), h'.state.trans h.state,
    h'.waiters.trans h.waiters, h'.inodeNumber.trans h.inodeNumber,
    h'.lineNumber.trans h.lineNumber, h'.fetch.trans h.fetch,
    fun held s => (h'.lists held s).trans (h.lists held s), h'.counts.trans h.counts,
    h'.readers.trans h.readers⟩

theorem Stores.of_lines (hlines : c'.lines = c.lines)
    (hlists : ∀ held s, c'.onList held s = c.onList held s)
    (hcounts : c'.inboundCacheLineCount = c.inboundCacheLineCount)
    (hreaders : c'.readers = c.readers) : Stores l c c' := by
  refine ⟨fun l' _ => by rw [hlines], ?_, ?_, ?_, ?_, ?_, hlists, hcounts, hreaders⟩
  all_goals rw [hlines]

theorem Stores.updLine (c : DataCache) (l : ℕ) {f : CacheLine → CacheLine}
    (hf : ∀ t, ∃ len failed disk, f t =
      { t with contentLength := len, fetchFailed := failed, disk := disk }) :
    Stores l c (c.updLine l f) := by
  obtain ⟨len, failed, disk, heq⟩ := hf (c.lines l)
  refine ⟨(changes_updLine c l f).lines, ?_, ?_, ?_, ?_, ?_, fun held s => ?_, rfl, rfl⟩
  case refine_6 => cases s <;> rfl
  all_goals rw [lines_updLine_self, heq]

/-- The opening of a file stores in the line and nowhere else. -/
theorem stores_openInodeFile {ans : DiskAnswers} {inode : ℕ} {idcf : InodeDiskFile}
    (h : c.openInodeFile ans inode = some (c', idcf)) : Stores l c c' := by
  unfold openInodeFile at h
  split at h
  · obtain ⟨rfl, -⟩ := Prod.mk.inj (Option.some.inj h)
    exact .of_lines rfl (fun _ _ => rfl) rfl rfl
  · split at h
    · obtain ⟨rfl, -⟩ := Prod.mk.inj (Option.some.inj h)
      exact .of_lines rfl (fun held s => by cases s <;> rfl) rfl rfl
    · cases h

/-- The storing of a content stores in the line and nowhere else. -/
theorem stores_storeContentDisk (cfg : CacheConfig) (ans : DiskAnswers) (c : DataCache) (l : ℕ)
    (bytes : List UInt8) : Stores l c (c.storeContentDisk cfg ans l bytes).1 := by
  have hcleared := Stores.updLine c l (f := fun t => { t with disk := none })
    fun t => ⟨t.contentLength, t.fetchFailed, none, rfl⟩
  unfold storeContentDisk
  dsimp only
  split
  · exact hcleared
  split
  · exact hcleared
  rename_i opened idcf hopen
  refine (hcleared.trans (stores_openInodeFile hopen)).trans ?_
  unfold writeLine
  dsimp only
  split
  · exact .of_lines rfl (fun held s => by cases s <;> rfl) rfl rfl
  · refine Stores.trans ?_ (Stores.updLine _ l fun t =>
      ⟨t.contentLength, t.fetchFailed, some ⟨idcf.file, _, bytes.length⟩, rfl⟩)
    exact .of_lines rfl (fun held s => by cases s <;> rfl) rfl rfl

/-- What `fetch` stores changes its line in the content and the backing only. -/
theorem stores_storeFetched (cfg : CacheConfig) (ans : DiskAnswers) (c : DataCache) (l : ℕ)
    (buf : Option (List UInt8)) : Stores l c (c.storeFetched cfg ans l buf) := by
  unfold storeFetched
  rcases buf with - | bytes
  · exact Stores.updLine c l fun t => ⟨0, true, t.disk, rfl⟩
  dsimp only
  split
  · exact (stores_storeContentDisk cfg ans c l bytes).trans
      (Stores.updLine _ l fun t => ⟨_, _, t.disk, rfl⟩)
  · exact Stores.updLine c l fun t => ⟨t.contentLength, false, t.disk, rfl⟩

/-- The outcome of a step of a fetch, for the inodes that are there. -/
structure FetchOk (cfg : CacheConfig) (inodes : ℕ → Option InodeInfo) (c : DataCache)
    (held : List ℕ) (c' : DataCache) : Prop where
  lists : ListsOk cfg c' held
  waits : WaitsOk cfg c → WaitsOk cfg c'
  counts : ∀ i, (inodes i).isSome → CountOk c i → CountOk c' i
  readers : c'.readers.map Reader.unwaiting = c.readers.map Reader.unwaiting
  incoming : Incoming none c c'
  dropped : ∀ l, (c'.lines l).waiters = (c.lines l).waiters ∨
    ((c'.lines l).waiters = [] ∧ (c'.lines l).state ≠ .inbound)

namespace ListsOk

theorem waiters_of_line (hother : ∀ l', l' ≠ l → c'.lines l' = c.lines l')
    (hself : (c'.lines l).waiters = []) (hstate : (c'.lines l).state ≠ .inbound) (l' : ℕ) :
    (c'.lines l').waiters = (c.lines l').waiters ∨
      ((c'.lines l').waiters = [] ∧ (c'.lines l').state ≠ .inbound) := by
  by_cases heq : l' = l
  · exact .inr (heq ▸ ⟨hself, hstate⟩)
  · exact .inl (by rw [hother l' heq])

/-- A line that is still fetched. -/
theorem fetchOn (h : ListsOk cfg c held) (hfetch : (c.lines l).fetch ≠ .idle)
    (hother : ∀ l', l' ≠ l → c'.lines l' = c.lines l')
    (hstate : (c'.lines l).state = (c.lines l).state)
    (hwait : (c'.lines l).waiters = (c.lines l).waiters)
    (hinode : (c'.lines l).inodeNumber = (c.lines l).inodeNumber)
    (hlists : ∀ s, c'.onList held s = c.onList held s)
    (hcounts : c'.inboundCacheLineCount = c.inboundCacheLineCount)
    (hreaders : c'.readers = c.readers) : FetchOk cfg inodes c held c' := by
  have hinbound : c'.inboundLRU = c.inboundLRU := hlists .inbound
  have hcalm : Calm c c' := by
    refine ⟨fun l' => ?_, hreaders, fun i hi => ?_⟩
    · by_cases heq : l' = l
      · rw [heq, hwait]
      · rw [hother l' heq]
    · unfold CountOk at hi ⊢
      rw [hinbound, hcounts, hi]
      congr 1
      apply List.filter_congr
      intro l' _
      by_cases heq : l' = l
      · rw [heq, hinode]
      · rw [hother l' heq]
  exact ⟨h.keep hother hstate hlists (fun _ => h.fetching l hfetch) fun _ => h.fetching l hfetch,
    fun hw => hw.of_calm hcalm, fun i _ hi => hcalm.counts i hi, by rw [hreaders],
    .of_line none hother fun hs => ⟨hstate.symm.trans hs, hinode⟩, fun l' => .inl
      (hcalm.waiters l')⟩

/-- The end of a fetch whose inode is missing, where nobody waits. -/
theorem abandonFetch (h : ListsOk cfg c held) (ans : DiskAnswers)
    (hfetch : (c.lines l).fetch ≠ .idle) (hinode : inodes (c.lines l).inodeNumber = none)
    (hwait : (c.lines l).waiters = []) :
    FetchOk cfg inodes c held (c.abandonFetch cfg ans l) := by
  obtain ⟨hl, hs⟩ := h.fetching l hfetch
  have hmem : l ∈ c.onList held (c.lines l).state := h.mem_of_state hl
  rw [hs] at hmem
  obtain ⟨disk, files, fileOpen, idcfs, heq⟩ := freeLine_spec cfg ans (c.popInbound l) l
  generalize hc' : c.abandonFetch cfg ans l = c'
  unfold DataCache.abandonFetch at hc'
  rw [heq] at hc'
  have hself : c'.lines l = { c.lines l with
      state := .free
      waiters := []
      contentLength := 0
      contentGeneration := (c.lines l).contentGeneration + 1
      inodeNumber := 0
      lineNumber := 0
      fetchFailed := false
      disk := disk
      fetch := .idle } := by
    rw [← hc']
    simp only [notifyWaiters, popInbound, setState, DataCache.updLine, Function.update_self]
  have hother : ∀ l', l' ≠ l → c'.lines l' = c.lines l' := by
    intro l' hne
    rw [← hc']
    simp only [notifyWaiters, popInbound, setState, DataCache.updLine, Function.update_of_ne hne]
  have hreaders : c'.readers = c.readers := by
    rw [← hc']
    simp only [notifyWaiters, popInbound, setState, DataCache.updLine, Function.update_self,
      List.foldl_nil]
  have hinbound : c'.inboundLRU = c.inboundLRU.erase l := by
    rw [← hc']
    rfl
  have hcounts : c'.inboundCacheLineCount = c.inboundCacheLineCount := by
    rw [← hc']
    rfl
  refine ⟨?_, fun hw => ?_, fun i hi hcount => ?_, by rw [hreaders],
    .of_line none hother fun hs' => ?_, fun l' => ?_⟩
  · refine h.move hl hother hs (t := .free) (by rw [hself]) (by simp) ?_ ?_ (fun s h₁ h₂ => ?_)
      (fun hf => ?_) fun hw => ?_
    · show c.inboundLRU.Perm (l :: c'.inboundLRU)
      rw [hinbound]
      exact List.perm_cons_erase hmem
    · rw [← hc']
      exact List.perm_append_singleton l _
    · rw [← hc']
      cases s <;> first | rfl | contradiction
    · rw [hself] at hf
      exact absurd rfl hf
    · rw [hself] at hw
      exact absurd rfl hw
  · refine hw.notify hl (by rw [hself]) (fun l' hne => by rw [hother l' hne]) ?_
    show _ = List.foldl _ c.readers (c.lines l).waiters
    rw [hreaders, hwait, List.foldl_nil]
  · -- the line did not count for an inode that is there
    unfold CountOk at hcount ⊢
    have hne : (c.lines l).inodeNumber ≠ i := by
      rintro rfl
      rw [hinode] at hi
      cases hi
    rw [hcounts, hcount, hinbound]
    have hfilter : (c.inboundLRU.erase l).filter (fun l' => (c'.lines l').inodeNumber = i) =
        (c.inboundLRU.erase l).filter fun l' => (c.lines l').inodeNumber = i := by
      apply List.filter_congr
      intro l' hl'
      rw [hother l' ?_]
      rintro rfl
      exact (h.lists.nodup .inbound).not_mem_erase hl'
    have hsplit := (List.perm_cons_erase (a := l) (l := c.inboundLRU) hmem).filter
      fun l' => (c.lines l').inodeNumber = i
    rw [List.filter_cons, if_neg (by simpa using hne)] at hsplit
    rw [hfilter]
    exact hsplit.length_eq
  · rw [hself] at hs'
    cases hs'
  · exact waiters_of_line hother (by rw [hself]) (by simp [hself]) l'

/-- **The first section of `fetch`**. -/
theorem fetchBegin (h : ListsOk cfg c held) (ans : DiskAnswers)
    (hfetch : (c.lines l).fetch = .started)
    (hok : (inodes (c.lines l).inodeNumber).isSome ∨ (c.lines l).waiters = []) :
    FetchOk cfg inodes c held (c.fetchBegin cfg inodes ans l) := by
  have hactive : (c.lines l).fetch ≠ .idle := by
    rw [hfetch]
    nofun
  unfold DataCache.fetchBegin
  rcases hinode : inodes (c.lines l).inodeNumber with - | info
  · rw [hinode] at hok
    exact h.abandonFetch ans hactive hinode (hok.resolve_left nofun)
  · dsimp only
    refine h.fetchOn (l := l) hactive (changes_updLine c l _).lines ?_ ?_ ?_ (fun s => ?_) rfl rfl
    · rw [lines_updLine_self]
    · rw [lines_updLine_self]
    · rw [lines_updLine_self]
    · cases s <;> rfl

/-- **The backend answers.** -/
theorem fetchAnswer (h : ListsOk cfg c held) (hfetch : (c.lines l).fetch ≠ .idle)
    (buf : Option (List UInt8)) : FetchOk cfg inodes c held (c.fetchAnswer cfg l buf) := by
  have hline : ∃ fetch len, (c.fetchAnswer cfg l buf).lines =
      Function.update c.lines l { c.lines l with fetch := fetch, contentLength := len } := by
    unfold DataCache.fetchAnswer
    rcases buf with - | bytes
    · exact ⟨.answered none, (c.lines l).contentLength, rfl⟩
    · dsimp only
      split
      · exact ⟨.answered (some bytes), (c.lines l).contentLength, rfl⟩
      · refine ⟨.answered (some bytes), min cfg.cacheLineSize bytes.length, ?_⟩
        simp only [DataCache.updLine, Function.update_self, Function.update_idem]
  have hrest : (∀ s, (c.fetchAnswer cfg l buf).onList held s = c.onList held s) ∧
      (c.fetchAnswer cfg l buf).inboundCacheLineCount = c.inboundCacheLineCount ∧
      (c.fetchAnswer cfg l buf).readers = c.readers := by
    unfold DataCache.fetchAnswer
    rcases buf with - | bytes
    · exact ⟨fun s => by cases s <;> rfl, rfl, rfl⟩
    · dsimp only
      split
      · exact ⟨fun s => by cases s <;> rfl, rfl, rfl⟩
      · exact ⟨fun s => by cases s <;> rfl, rfl, rfl⟩
  obtain ⟨fetch, len, hline⟩ := hline
  obtain ⟨hlists, hcounts, hreaders⟩ := hrest
  generalize c.fetchAnswer cfg l buf = c' at hline hlists hcounts hreaders
  have hself : c'.lines l = { c.lines l with fetch := fetch, contentLength := len } := by
    rw [hline]
    exact Function.update_self _ _ _
  refine h.fetchOn (l := l) hfetch (fun l' hne => ?_) ?_ ?_ ?_ hlists hcounts hreaders
  · rw [hline]
    exact Function.update_of_ne hne _ _
  · rw [hself]
  · rw [hself]
  · rw [hself]

/-- **The second section of `fetch`**. -/
theorem fetchEnd (h : ListsOk cfg c held) (ans : DiskAnswers)
    (hfetch : (c.lines l).fetch ≠ .idle)
    (hok : (inodes (c.lines l).inodeNumber).isSome ∨ (c.lines l).waiters = [])
    (buf : Option (List UInt8)) : FetchOk cfg inodes c held (c.fetchEnd cfg inodes ans l buf) := by
  obtain ⟨hl, hs⟩ := h.fetching l hfetch
  have hmem : l ∈ c.onList held (c.lines l).state := h.mem_of_state hl
  rw [hs] at hmem
  rcases hinode : inodes (c.lines l).inodeNumber with - | info
  · rw [hinode] at hok
    unfold DataCache.fetchEnd
    rw [hinode]
    exact h.abandonFetch ans hfetch hinode (hok.resolve_left (by simp))
  generalize hp : ({ c with
    inboundCacheLineCount := Function.update c.inboundCacheLineCount (c.lines l).inodeNumber
      (c.inboundCacheLineCount (c.lines l).inodeNumber - 1) }.popInbound l : DataCache) = popped
  generalize hb : (popped.updLine l fun t =>
    { t with contentGeneration := t.contentGeneration + 1, fetch := .idle }) = b
  have hend : c.fetchEnd cfg inodes ans l buf =
      ((b.storeFetched cfg ans l buf).pushClean l).notifyWaiters l := by
    unfold DataCache.fetchEnd
    rw [hinode, ← hb, ← hp]
  have hstores := stores_storeFetched cfg ans b l buf
  rw [hend]
  generalize b.storeFetched cfg ans l buf = stored at hstores
  have hbline : b.lines l = { c.lines l with
      state := .notOnLRU
      contentGeneration := (c.lines l).contentGeneration + 1
      fetch := .idle } := by
    rw [← hb, lines_updLine_self, ← hp]
    simp only [popInbound, setState, DataCache.updLine, Function.update_self]
  have hbother : ∀ l', l' ≠ l → b.lines l' = c.lines l' := by
    intro l' hne
    rw [← hb, (changes_updLine popped l _).lines l' hne, ← hp]
    exact Function.update_of_ne hne _ _
  have hblists : b.freeLRU = c.freeLRU ∧ b.inboundLRU = c.inboundLRU.erase l ∧
      b.cleanLRU = c.cleanLRU ∧ b.readers = c.readers ∧
      b.inboundCacheLineCount = Function.update c.inboundCacheLineCount (c.lines l).inodeNumber
        (c.inboundCacheLineCount (c.lines l).inodeNumber - 1) := by
    rw [← hb, ← hp]
    exact ⟨rfl, rfl, rfl, rfl, rfl⟩
  obtain ⟨hfree, hinbound, hclean, hreaders, hcounts⟩ := hblists
  generalize hc' : (stored.pushClean l).notifyWaiters l = c'
  have hother : ∀ l', l' ≠ l → c'.lines l' = c.lines l' := by
    intro l' hne
    rw [← hbother l' hne, ← hstores.other l' hne, ← hc']
    exact (Function.update_of_ne hne _ _).trans (Function.update_of_ne hne _ _)
  have hself : c'.lines l = { stored.lines l with state := .clean, waiters := [] } := by
    rw [← hc']
    simp only [notifyWaiters, pushClean, setState, DataCache.updLine, Function.update_self]
  have hinbound' : c'.inboundLRU = c.inboundLRU.erase l := by
    rw [← hinbound, ← hc']
    exact hstores.lists held .inbound
  have hwaiters : (stored.lines l).waiters = (c.lines l).waiters := by
    rw [hstores.waiters, hbline]
  have hreaders' : c'.readers = (c.notifyWaiters l).readers := by
    rw [← hc']
    show ((stored.pushClean l).lines l).waiters.foldl _ stored.readers =
      (c.lines l).waiters.foldl _ c.readers
    rw [hstores.readers, hreaders, ← hwaiters]
    simp only [pushClean, setState, DataCache.updLine, Function.update_self]
  refine ⟨?_, fun hw => ?_, fun i _ hcount => ?_, ?_, .of_line none hother fun hs' => ?_,
    waiters_of_line hother (by rw [hself]) (by simp [hself])⟩
  · refine h.move hl hother hs (t := .clean) (by rw [hself]) (by simp) ?_ ?_ (fun s h₁ h₂ => ?_)
      (fun hf => ?_) fun hw => ?_
    · show c.inboundLRU.Perm (l :: c'.inboundLRU)
      rw [hinbound']
      exact List.perm_cons_erase hmem
    · show c'.cleanLRU.Perm (l :: c.cleanLRU)
      have hlist : stored.cleanLRU = b.cleanLRU := hstores.lists held .clean
      rw [← hclean, ← hlist, ← hc']
      exact List.perm_append_singleton l _
    · cases s with
      | notOnLRU => rfl
      | free =>
          rw [← hc']
          exact (hstores.lists held .free).trans hfree
      | inbound => contradiction
      | clean => contradiction
    · rw [hself] at hf
      refine absurd ?_ hf
      show (stored.lines l).fetch = .idle
      rw [hstores.fetch, hbline]
    · rw [hself] at hw
      exact absurd rfl hw
  · exact hw.notify hl (by rw [hself]) (fun l' hne => by rw [hother l' hne]) hreaders'
  · -- the line counts for its inode no more
    unfold CountOk at hcount ⊢
    have hcounts' : c'.inboundCacheLineCount =
        Function.update c.inboundCacheLineCount (c.lines l).inodeNumber
          (c.inboundCacheLineCount (c.lines l).inodeNumber - 1) := by
      rw [← hcounts, ← hc']
      exact hstores.counts
    have hfilter : (c.inboundLRU.erase l).filter (fun l' => (c'.lines l').inodeNumber = i) =
        (c.inboundLRU.erase l).filter fun l' => (c.lines l').inodeNumber = i := by
      apply List.filter_congr
      intro l' hl'
      rw [hother l' ?_]
      rintro rfl
      exact (h.lists.nodup .inbound).not_mem_erase hl'
    have hsplit := ((List.perm_cons_erase (a := l) (l := c.inboundLRU) hmem).filter
      fun l' => (c.lines l').inodeNumber = i).length_eq
    rw [List.filter_cons] at hsplit
    rw [hinbound', hcounts', hfilter]
    by_cases hi : (c.lines l).inodeNumber = i
    · rw [if_pos (by simpa using hi), List.length_cons] at hsplit
      rw [hi, Function.update_self, hcount, hsplit]
      rfl
    · rw [if_neg (by simpa using hi)] at hsplit
      rw [Function.update_of_ne (Ne.symm hi), hcount, hsplit]
  · rw [hreaders']
    exact map_unwaiting_notify _ _
  · rw [hself] at hs'
    cases hs'

end ListsOk

/-! ### Steps -/

/-- What a step does to the `WaitGroup`s on waiters lists: they get one `Done`
when their line leaves the Inbound state, and stay on its list before. -/
def Notifies (c c' : DataCache) : Prop :=
  ∀ l, ∀ r ∈ (c.lines l).waiters, ∃ wg wg' : Reader, c.readers[r]? = some wg ∧
    c'.readers[r]? = some wg' ∧ wg.waits = 1 ∧
    if (c'.lines l).state = .inbound then r ∈ (c'.lines l).waiters ∧ wg'.waits = 1
    else (c'.lines l).waiters = [] ∧ wg'.waits = 0

/-- A `WaitGroup` on a list is on that list only. -/
theorem WaitsOk.listed_eq_one (h : WaitsOk cfg c) (hlists : ListsOk cfg c held) {wg : Reader}
    (hr : c.readers[r]? = some wg) (hmem : r ∈ (c.lines l).waiters) :
    wg.waits = 1 ∧ listed cfg c r = 1 := by
  have hl := (hlists.waiting l (List.ne_nil_of_mem hmem)).1
  have hpos : 0 < listed cfg c r :=
    lt_of_lt_of_le (List.count_pos_iff.mpr hmem)
      (Finset.single_le_sum (f := fun l => (c.lines l).waiters.count r) (fun _ _ => Nat.zero_le _)
        (Finset.mem_range.mpr hl))
  have hcount := h.waits r wg hr
  have honce := h.once wg (List.mem_of_getElem? hr)
  omega

/-- **Lists that grow by newcomers, or are emptied.** -/
theorem Notifies.of_lists (h : WaitsOk cfg c) (hlists : ListsOk cfg c held) (h' : WaitsOk cfg c')
    (hlists' : ListsOk cfg c' held') (hlen : c.readers.length ≤ c'.readers.length)
    (hgrow : ∀ l, ∀ r ∈ (c.lines l).waiters, r ∈ (c'.lines l).waiters ∨
      ((c'.lines l).waiters = [] ∧ (c'.lines l).state ≠ .inbound))
    (hcount : ∀ (r : ℕ) (rd : Reader), c.readers[r]? = some rd → rd.waits ≠ 0 →
      ∀ l, (c'.lines l).waiters.count r ≤ (c.lines l).waiters.count r) : Notifies c c' := by
  intro l r hmem
  have hlt := h.known l r hmem
  obtain ⟨wg, hr⟩ : ∃ wg, c.readers[r]? = some wg := ⟨_, List.getElem?_eq_some_iff.mpr ⟨hlt, rfl⟩⟩
  obtain ⟨wg', hr'⟩ : ∃ wg', c'.readers[r]? = some wg' :=
    ⟨_, List.getElem?_eq_some_iff.mpr ⟨hlt.trans_le hlen, rfl⟩⟩
  obtain ⟨hwaits, hlisted⟩ := h.listed_eq_one hlists hr hmem
  refine ⟨wg, wg', hr, hr', hwaits, ?_⟩
  rcases hgrow l r hmem with hstay | ⟨hempty, hstate⟩
  · rw [if_pos (hlists'.waiting l (List.ne_nil_of_mem hstay)).2]
    exact ⟨hstay, (h'.listed_eq_one hlists' hr' hstay).1⟩
  · rw [if_neg hstate]
    refine ⟨hempty, ?_⟩
    have hl := (hlists.waiting l (List.ne_nil_of_mem hmem)).1
    have hless : listed cfg c' r < listed cfg c r := by
      refine Finset.sum_lt_sum (fun l' _ => hcount r wg hr (by omega) l')
        ⟨l, Finset.mem_range.mpr hl, ?_⟩
      rw [hempty, List.count_nil]
      exact List.count_pos_iff.mpr hmem
    have hcount' := h'.waits r wg' hr'
    omega

/-- The outcome of a step. -/
structure StepOk (cfg : CacheConfig) (inodes : ℕ → Option InodeInfo) (c c' : DataCache) : Prop where
  lists : ListsOk cfg c' (heldLines c'.readers)
  waits : WaitsOk cfg c'
  counts : ∀ i, (inodes i).isSome → CountOk c i → CountOk c' i
  incoming : ∀ i, (∀ fh, c.handles i fh ≠ some true) → ∀ l, (c'.lines l).state = .inbound →
    (c'.lines l).inodeNumber = i → (c.lines l).state = .inbound ∧ (c.lines l).inodeNumber = i
  notifies : Notifies c c'
  returned : ∀ (r : ℕ) (rd : Reader) errno, c.readers[r]? = some rd → rd.pc = .returned errno →
    ∃ rd', c'.readers[r]? = some rd' ∧ rd'.pc = .returned errno

theorem incoming_of_owner {owner : Option ℕ} (hin : Incoming owner c c')
    (howner : ∀ i, owner = some i → ∃ fh, c.handles i fh = some true) (i : ℕ)
    (hclosed : ∀ fh, c.handles i fh ≠ some true) (l : ℕ) (hs : (c'.lines l).state = .inbound)
    (hi : (c'.lines l).inodeNumber = i) :
    (c.lines l).state = .inbound ∧ (c.lines l).inodeNumber = i := by
  rcases hin l hs with ⟨hs₀, hi₀⟩ | hown
  · exact ⟨hs₀, hi₀.symm.trans hi⟩
  · obtain ⟨fh, hfh⟩ := howner i (by rw [← hown, hi])
    exact absurd hfh (hclosed fh)

/-- A section of a reader that does not wait leaves the other waiters alone. -/
theorem Moves.notifies {rd rd' : Reader} (hlists : ListsOk cfg c held) (hwaits : WaitsOk cfg c)
    (hr : c.readers[r]? = some rd) (hzero : rd.waits = 0) (hmoves : Moves cfg c r rd c₁ rd')
    (hlists' : ListsOk cfg (c₁.setReader r rd') held') : Notifies c (c₁.setReader r rd') := by
  have hwaits' := hwaits.moves hr hzero hmoves
  refine .of_lists hwaits hlists hwaits' hlists' ?_ (fun l r' hmem => .inl ?_)
    fun r' rd₀ hr' hw l => ?_
  · show _ ≤ (c₁.readers.set r rd').length
    rw [hmoves.readers, List.length_set]
  · show r' ∈ (c₁.lines l).waiters
    cases hmoves with
    | on hcalm _ =>
        rw [hcalm.waiters]
        exact hmem
    | waits l₀ _ hself hother _ _ _ _ =>
        by_cases heq : l = l₀
        · rw [heq] at hmem ⊢
          rw [hself]
          exact List.mem_append_left _ hmem
        · rw [hother l heq]
          exact hmem
  · show (c₁.lines l).waiters.count r' ≤ _
    have hne : r' ≠ r := by
      rintro rfl
      rw [hr] at hr'
      exact hw (Option.some.inj hr' ▸ hzero)
    cases hmoves with
    | on hcalm _ => rw [hcalm.waiters]
    -- only `r` itself is new on a list
    | waits l₀ _ hself hother _ _ _ _ =>
        by_cases heq : l = l₀
        · rw [heq, hself, List.count_append,
            List.count_eq_zero_of_not_mem (List.mem_singleton.not.mpr hne), Nat.add_zero]
        · rw [hother l heq]

/-- A section of a reader that does not wait. -/
theorem SectionOk.stepOk {rd : Reader} {owner : Option ℕ}
    (hlists : ListsOk cfg c (heldLines c.readers))
    (hwaits : WaitsOk cfg c) (hr : c.readers[r]? = some rd) (hzero : rd.waits = 0)
    (hpc : ∀ errno, rd.pc ≠ .returned errno)
    (hset : ∀ rd' : Reader, (heldLines (c.readers.set r rd')).Perm (rd'.held ++ others))
    (howner : ∀ i, owner = some i → ∃ fh, c.handles i fh = some true)
    (h : SectionOk cfg owner c r rd others c') :
    c'.fatal = true ∨ StepOk cfg inodes c c' := by
  rcases h with hfatal | ⟨c₁, rd', rfl, hlists₁, hmoves, hin⟩
  · exact .inl hfatal
  have hreaders : (c₁.setReader r rd').readers = c.readers.set r rd' := by
    show c₁.readers.set r rd' = _
    rw [hmoves.readers]
  have hlists' : ListsOk cfg (c₁.setReader r rd') (heldLines (c₁.setReader r rd').readers) := by
    rw [hreaders]
    refine ListsOk.congr (c := c₁) (hlists₁.held_perm (hset rd')) rfl fun s => ?_
    cases s <;> exact List.Perm.refl _
  refine .inr ⟨hlists', hwaits.moves hr hzero hmoves, fun i _ hi => hmoves.counts hi,
    incoming_of_owner hin howner, hmoves.notifies hlists hwaits hr hzero hlists',
    fun r' rd₀ errno hr' hret => ⟨rd₀, ?_, hret⟩⟩
  have hne : r ≠ r' := by
    rintro rfl
    rw [hr] at hr'
    exact hpc errno (Option.some.inj hr' ▸ hret)
  rw [hreaders, List.getElem?_set_ne hne]
  exact hr'

/-- A step of a fetch. -/
theorem FetchOk.stepOk (hlists : ListsOk cfg c (heldLines c.readers)) (hwaits : WaitsOk cfg c)
    (h : FetchOk cfg inodes c (heldLines c.readers) c') : StepOk cfg inodes c c' := by
  have hheld : heldLines c'.readers = heldLines c.readers := by
    rw [heldLines_eq, heldLines_eq, h.readers]
  have hlists' : ListsOk cfg c' (heldLines c'.readers) := by
    rw [hheld]
    exact h.lists
  refine ⟨hlists', h.waits hwaits, h.counts, incoming_of_owner h.incoming nofun,
    .of_lists hwaits hlists (h.waits hwaits) hlists' ?_ (fun l r hmem => ?_) fun r _ _ _ l => ?_,
    fun r rd errno hr hret => ?_⟩
  · have hlen := congrArg List.length h.readers
    rw [List.length_map, List.length_map] at hlen
    exact hlen.ge
  · rcases h.dropped l with hsame | hempty
    · exact .inl (hsame ▸ hmem)
    · exact .inr hempty
  · rcases h.dropped l with hsame | ⟨hempty, -⟩
    · rw [hsame]
    · rw [hempty, List.count_nil]
      exact Nat.zero_le _
  · have hmap : c'.readers[r]?.map Reader.unwaiting = some rd.unwaiting := by
      rw [← List.getElem?_map, h.readers, List.getElem?_map, hr]
      rfl
    obtain ⟨rd', hr', heq⟩ := Option.map_eq_some_iff.mp hmap
    exact ⟨rd', hr', (congrArg Reader.pc heq).trans hret⟩

end DataCache

/-- The step does not come to a fetch whose inode is missing while somebody
waits for its line. -/
def CacheStep.Finds (inodes : ℕ → Option InodeInfo) (c : DataCache) : CacheStep → Prop
  | .fetchBegin l _ => (inodes (c.lines l).inodeNumber).isSome ∨ (c.lines l).waiters = []
  | .fetchEnd l _ => (inodes (c.lines l).inodeNumber).isSome ∨ (c.lines l).waiters = []
  | _ => True

instance (inodes : ℕ → Option InodeInfo) (c : DataCache) (s : CacheStep) :
    Decidable (s.Finds inodes c) := by
  cases s <;> unfold CacheStep.Finds <;> infer_instance

namespace DataCache

/-- **One step** notifies whom it takes from a waiters list. -/
theorem stepOk {s : CacheStep} (hlists : ListsOk cfg c (heldLines c.readers))
    (hwaits : WaitsOk cfg c) (hstep : step cfg inodes c s = some c') (hfinds : s.Finds inodes c) :
    c'.fatal = true ∨ StepOk cfg inodes c c' := by
  have hzero : ∀ {r : ℕ} {rd : Reader}, c.readers[r]? = some rd → rd.pc ≠ .waiting →
      (∀ count prefetch got, rd.pc ≠ .allocating count prefetch got) → rd.pc ≠ .returned .ok →
      rd.waits = 0 := by
    intro r rd hr h₁ h₂ h₃
    by_contra hw
    rcases hwaits.idle rd (List.mem_of_getElem? hr) hw with h | ⟨count, prefetch, got, h⟩ | h
    · exact h₁ h
    · exact h₂ _ _ _ h
    · exact h₃ h
  obtain ⟨-, htaken⟩ := taken_of_step hstep
  cases htaken with
  | @read r rd ans hr hpc =>
      obtain ⟨others, hperm, hset⟩ := heldLines_set hr
      have hheld : rd.held = [] := by rw [Reader.held, hpc]
      rw [hheld, List.nil_append] at hperm
      have hw := hzero hr (by simp [hpc]) (by simp [hpc]) (by simp [hpc])
      have hsection : SectionOk cfg none c r rd others (c.readSection cfg inodes ans r rd) :=
        (hlists.held_perm hperm.symm).readSection ans rd
      exact hsection.stepOk hlists hwaits hr hw (by simp [hpc]) hset fun _ h => by cases h
  | @allocate r rd count prefetch got ans hr hpc hw =>
      obtain ⟨others, hperm, hset⟩ := heldLines_set hr
      have hheld : rd.held = got := by rw [Reader.held, hpc]
      rw [hheld] at hperm
      exact ((hlists.held_perm hperm.symm).allocate ans r rd count prefetch).stepOk hlists hwaits hr
        hw (by simp [hpc]) hset fun _ h => by cases h
  | @assign r rd prefetch got ans hr hpc =>
      obtain ⟨others, hperm, hset⟩ := heldLines_set hr
      have hheld : rd.held = got := by rw [Reader.held, hpc]
      rw [hheld] at hperm
      have hw := hzero hr (by simp [hpc]) (by simp [hpc]) (by simp [hpc])
      have hgot := hlists.held_perm hperm.symm
      -- whether lines come in depends on the handle
      rcases hcheck : c.checkRead inodes rd.readIn with errno | info
      · have hsection : SectionOk cfg none c r rd others
            (c.assignSection cfg inodes ans r rd prefetch got) := by
          refine hgot.assignSection ans rd prefetch fun info h => ?_
          rw [hcheck] at h
          cases h
        exact hsection.stepOk hlists hwaits hr hw (by simp [hpc]) hset fun _ h => by cases h
      · refine (hgot.assignSection ans rd prefetch fun _ _ => rfl).stepOk hlists hwaits hr hw
          (by simp [hpc]) hset fun i hi => ⟨rd.readIn.fh, ?_⟩
        rw [← Option.some.inj hi]
        unfold checkRead at hcheck
        split at hcheck
        · cases hcheck
        · split at hcheck
          · rename_i hopen
            exact hopen.2
          · cases hcheck
  | @wake r rd hr hpc hw =>
      obtain ⟨others, hperm, hset⟩ := heldLines_set hr
      have hheld : rd.held = [] := by rw [Reader.held, hpc]
      rw [hheld, List.nil_append] at hperm
      have hsection : SectionOk cfg none c r rd others (c.setReader r { rd with pc := .loop }) :=
        .inr ⟨c, _, rfl, hlists.held_perm hperm.symm, .on (.refl c) rfl, .refl none c⟩
      exact hsection.stepOk hlists hwaits hr hw (by simp [hpc]) hset fun _ h => by cases h
  | @copy r rd source hr hpc =>
      obtain ⟨others, hperm, hset⟩ := heldLines_set hr
      have hheld : rd.held = [] := by rw [Reader.held, hpc]
      rw [hheld, List.nil_append] at hperm
      have hlists' := hlists.held_perm hperm.symm
      have hw := hzero hr (by simp [hpc]) (by simp [hpc]) (by simp [hpc])
      have hsection : SectionOk cfg none c r rd others (c.copySection r rd source) := by
        unfold copySection
        split
        · exact .inr ⟨c, _, rfl, hlists', .on (.refl c) rfl, .refl none c⟩
        split
        · exact hlists'.finish none _
        · exact .inr ⟨c, _, rfl, hlists', .on (.refl c) rfl, .refl none c⟩
      exact hsection.stepOk hlists hwaits hr hw (by simp [hpc]) hset fun _ h => by cases h
  | fetchBegin ans hfetch => exact .inr ((hlists.fetchBegin ans hfetch hfinds).stepOk hlists hwaits)
  | fetchAnswer succeeds hfetch =>
      exact .inr ((hlists.fetchAnswer (by simp [hfetch]) _).stepOk hlists hwaits)
  | fetchEnd ans hfetch =>
      exact .inr ((hlists.fetchEnd ans (by simp [hfetch]) hfinds _).stepOk hlists hwaits)
  | handle inode fh allowReads =>
      have hcalm : Calm c { c with
          handles := Function.update c.handles inode
            (Function.update (c.handles inode) fh allowReads) } :=
              ⟨fun _ => rfl, rfl, fun _ hi => hi⟩
      have hlists' : ListsOk cfg { c with
          handles := Function.update c.handles inode
            (Function.update (c.handles inode) fh allowReads) } (heldLines c.readers) :=
        hlists.congr rfl fun s => by cases s <;> rfl
      have hwaits' := hwaits.of_calm hcalm
      exact .inr ⟨hlists', hwaits', fun _ _ hi => hi, fun _ _ _ hs hi => ⟨hs, hi⟩,
        .of_lists hwaits hlists hwaits' hlists' le_rfl (fun _ _ hmem => .inl hmem)
          fun _ _ _ _ _ => le_rfl, fun _ rd _ hr hret => ⟨rd, hr, hret⟩⟩

end DataCache

end MultiStorageFileSystem
