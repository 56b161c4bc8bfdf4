/-
MultiStorageClient/DataCacheInv.lean

The invariant of the data cache.

`CacheOk` says that every line is on the list of its state, or held by a
reader; that the cache map and the inbound and clean lines agree; and that
each line has got as far with its bytes as its fetch has (`LineOk`).
`LineAdvance` is what an unlocked copy relies on: while the generation of a
line stays, so do the bytes that the copy reads.

Most operations change one line, and `CacheOk.change` says what to check then.
-/
import MultiStorageClient.DataCacheDisk
import MultiStorageClient.OnLists

namespace MultiStorageFileSystem

open Slice

variable {cfg : CacheConfig} {inodes : ℕ → Option InodeInfo}

/-! ### One line -/

/-- A line in the cache map. -/
def CacheLine.Listed (t : CacheLine) : Prop := t.state = .inbound ∨ t.state = .clean

theorem CacheLine.not_listed {t : CacheLine} (h : t.state = .notOnLRU ∨ t.state = .free) :
    ¬t.Listed := by
  rintro (hs | hs)
  · rcases h with h | h <;> exact absurd (h.symm.trans hs) nofun
  · rcases h with h | h <;> exact absurd (h.symm.trans hs) nofun

/-- What a line holds, with its bytes in the arena. -/
structure LineOk (cfg : CacheConfig) (inodes : ℕ → Option InodeInfo) (t : CacheLine)
    (a : List UInt8) : Prop where
  fetching : t.fetch ≠ .idle → t.state = .inbound
  reading : ∀ i n, t.fetch = .reading i n → i = t.inodeNumber ∧ n = t.lineNumber
  answered : ∀ buf, t.fetch = .answered (some buf) → buf = t.wanted cfg inodes ∧
    (cfg.onDisk = false → t.contentLength = buf.length ∧ a.take buf.length = buf)
  stored : t.state = .clean → t.fetchFailed = false →
    t.contentLength = (t.wanted cfg inodes).length ∧
    (cfg.onDisk = false → a.take (t.wanted cfg inodes).length = t.wanted cfg inodes) ∧
    (cfg.onDisk = true → t.wanted cfg inodes ≠ [] → t.disk.isSome)
  disk : t.disk.isSome → t.state = .clean ∧ t.fetchFailed = false ∧ cfg.onDisk = true

/-- A line that is not clean, or has failed, holds no place on the disk. -/
theorem LineOk.disk_none {t : CacheLine} {a : List UInt8} (h : LineOk cfg inodes t a)
    (hstate : t.state ≠ .clean ∨ t.fetchFailed = true ∨ cfg.onDisk = false) : t.disk = none := by
  rcases hd : t.disk with - | d
  · rfl
  · obtain ⟨h₁, h₂, h₃⟩ := h.disk (by rw [hd]; rfl)
    rcases hstate with hs | hs | hs
    · exact absurd h₁ hs
    · rw [h₂] at hs
      cases hs
    · rw [h₃] at hs
      cases hs

/-- A line that is on no LRU or on the Free LRU has nothing to be checked but
that it has no backing. -/
theorem LineOk.of_unlisted {t : CacheLine} {a : List UInt8} (hidle : t.fetch = .idle)
    (hstate : t.state ≠ .clean) (hdisk : t.disk = none) : LineOk cfg inodes t a := by
  refine ⟨fun h => absurd hidle h, fun i n h => ?_, fun buf h => ?_, fun h => absurd h hstate,
    fun h => ?_⟩
  · rw [hidle] at h
    cases h
  · rw [hidle] at h
    cases h
  · rw [hdisk] at h
    cases h

/-- What a copy that has remembered the generation relies on. -/
structure LineAdvance (cfg : CacheConfig) (t : CacheLine) (a : List UInt8) (t' : CacheLine)
    (a' : List UInt8) : Prop where
  generation : t.contentGeneration ≤ t'.contentGeneration
  arena : t'.contentGeneration = t.contentGeneration → cfg.onDisk = false →
    t.state ≠ .inbound → t'.state ≠ .inbound ∧ a' = a
  disk : t'.contentGeneration = t.contentGeneration → cfg.onDisk = true → t.state = .clean →
    t.fetchFailed = false → t'.state = .clean ∧ t'.fetchFailed = false ∧
      t'.inodeNumber = t.inodeNumber ∧ t'.lineNumber = t.lineNumber ∧ t'.disk = t.disk

namespace LineAdvance

variable {t t₁ t₂ : CacheLine} {a a₁ a₂ : List UInt8}

theorem refl (t : CacheLine) (a : List UInt8) : LineAdvance cfg t a t a :=
  ⟨le_rfl, fun _ _ h => ⟨h, rfl⟩, fun _ _ h h' => ⟨h, h', rfl, rfl, rfl⟩⟩

theorem of_lt (h : t.contentGeneration < t₁.contentGeneration) : LineAdvance cfg t a t₁ a₁ :=
  ⟨h.le, fun heq => absurd heq h.ne', fun heq => absurd heq h.ne'⟩

/-- A line that is being fetched has no readers to fear. -/
theorem of_inbound (h : t.state = .inbound) (hgen : t.contentGeneration ≤ t₁.contentGeneration) :
    LineAdvance cfg t a t₁ a₁ := by
  refine ⟨hgen, fun _ _ hs => absurd h hs, fun _ _ hs => ?_⟩
  rw [h] at hs
  cases hs

/-- A line advances through two steps as through one. -/
theorem trans (h : LineAdvance cfg t a t₁ a₁) (h' : LineAdvance cfg t₁ a₁ t₂ a₂) :
    LineAdvance cfg t a t₂ a₂ := by
  refine ⟨h.generation.trans h'.generation, fun heq hram hs => ?_, fun heq hdisk hs hf => ?_⟩
  · have h₁ : t₁.contentGeneration = t.contentGeneration :=
      le_antisymm (h'.generation.trans heq.le) h.generation
    obtain ⟨hs₁, ha₁⟩ := h.arena h₁ hram hs
    obtain ⟨hs₂, ha₂⟩ := h'.arena (heq.trans h₁.symm) hram hs₁
    exact ⟨hs₂, ha₂.trans ha₁⟩
  · have h₁ : t₁.contentGeneration = t.contentGeneration :=
      le_antisymm (h'.generation.trans heq.le) h.generation
    obtain ⟨hs₁, hf₁, hi₁, hn₁, hd₁⟩ := h.disk h₁ hdisk hs hf
    obtain ⟨hs₂, hf₂, hi₂, hn₂, hd₂⟩ := h'.disk (heq.trans h₁.symm) hdisk hs₁ hf₁
    exact ⟨hs₂, hf₂, hi₂.trans hi₁, hn₂.trans hn₁, hd₂.trans hd₁⟩

end LineAdvance

namespace DataCache

variable {c c' c₁ c₂ : DataCache} {l : ℕ} {held held' : List ℕ}

/-! ### The cache -/

/-- Every line has kept its bytes, or has a new generation. -/
def Advance (cfg : CacheConfig) (c c' : DataCache) : Prop :=
  ∀ l, LineAdvance cfg (c.lines l) (c.arena l) (c'.lines l) (c'.arena l)

theorem Advance.refl (c : DataCache) : Advance cfg c c := fun _ => LineAdvance.refl _ _

theorem Advance.trans (h : Advance cfg c c₁) (h' : Advance cfg c₁ c₂) : Advance cfg c c₂ :=
  fun l => (h l).trans (h' l)

/-- The lists of lines, with the lines that readers hold. -/
def onList (c : DataCache) (held : List ℕ) : LineState → List ℕ
  | .notOnLRU => held
  | .free => c.freeLRU
  | .inbound => c.inboundLRU
  | .clean => c.cleanLRU

/-- The cache map has the inbound and the clean lines. -/
structure Mapped (cfg : CacheConfig) (inodes : ℕ → Option InodeInfo) (c : DataCache) : Prop where
  entry : ∀ i n l, c.cacheMap i n = some l → l < cfg.cacheLines ∧ (c.lines l).Listed ∧
    (c.lines l).inodeNumber = i ∧ (c.lines l).lineNumber = n
  listed : ∀ l, (c.lines l).Listed →
    c.cacheMap (c.lines l).inodeNumber (c.lines l).lineNumber = some l ∧
    (inodes (c.lines l).inodeNumber).isSome

/-- What every section keeps, while the lines `held` are taken off the lists. -/
structure CacheOk (cfg : CacheConfig) (inodes : ℕ → Option InodeInfo) (c : DataCache)
    (held : List ℕ) : Prop where
  lists : OnLists (Finset.range cfg.cacheLines) (fun l => (c.lines l).state) (c.onList held)
  line : ∀ l, LineOk cfg inodes (c.lines l) (c.arena l)
  mapped : Mapped cfg inodes c
  outside : ∀ l, cfg.cacheLines ≤ l → c.lines l = newLine
  disk : DiskOk cfg inodes c

/-- Only one line changes. -/
structure Changes (l : ℕ) (c c' : DataCache) : Prop where
  lines : ∀ l', l' ≠ l → c'.lines l' = c.lines l'
  arena : ∀ l', l' ≠ l → c'.arena l' = c.arena l'

/-- Changing one line. -/
theorem CacheOk.change (h : CacheOk cfg inodes c held) (hl : l < cfg.cacheLines)
    (hch : Changes l c c')
    (hlists : OnLists (Finset.range cfg.cacheLines)
      (Function.update (fun l => (c.lines l).state) l (c'.lines l).state) (c'.onList held'))
    (hline : LineOk cfg inodes (c'.lines l) (c'.arena l)) (hmapped : Mapped cfg inodes c')
    (hdisk : DiskOk cfg inodes c') : CacheOk cfg inodes c' held' := by
  refine ⟨hlists.congr_state fun l' _ => ?_, fun l' => ?_, hmapped, fun l' hl' => ?_, hdisk⟩
  · by_cases heq : l' = l
    · rw [heq, Function.update_self]
    · rw [Function.update_of_ne heq, hch.lines l' heq]
  · by_cases heq : l' = l
    · rw [heq]
      exact hline
    · rw [hch.lines l' heq, hch.arena l' heq]
      exact h.line l'
  · have hne : l' ≠ l := by omega
    rw [hch.lines l' hne]
    exact h.outside l' hl'

theorem Changes.advance (hch : Changes l c c')
    (h : LineAdvance cfg (c.lines l) (c.arena l) (c'.lines l) (c'.arena l)) : Advance cfg c c' := by
  intro l'
  by_cases heq : l' = l
  · rw [heq]
    exact h
  · rw [hch.lines l' heq, hch.arena l' heq]
    exact LineAdvance.refl _ _

/-! ### The cache map -/

theorem cacheMap_setCacheMap (c : DataCache) (i n : ℕ) (x : Option ℕ) (i' n' : ℕ) :
    (c.setCacheMap i n x).cacheMap i' n' = if i' = i ∧ n' = n then x else c.cacheMap i' n' := by
  show Function.update c.cacheMap i (Function.update (c.cacheMap i) n x) i' n' = _
  by_cases hi : i' = i
  · subst hi
    rw [Function.update_self, Function.update_apply]
    simp
  · rw [Function.update_of_ne hi]
    simp [hi]

/-- A line that stays where it is in the map. -/
theorem Mapped.keep (h : Mapped cfg inodes c) (hch : Changes l c c')
    (hmap : c'.cacheMap = c.cacheMap) (hlisted : (c'.lines l).Listed ↔ (c.lines l).Listed)
    (hkey : (c.lines l).Listed → (c'.lines l).inodeNumber = (c.lines l).inodeNumber ∧
      (c'.lines l).lineNumber = (c.lines l).lineNumber) : Mapped cfg inodes c' := by
  refine ⟨fun i n l' hentry => ?_, fun l' hlist => ?_⟩
  · rw [hmap] at hentry
    obtain ⟨hl', hlist, hi, hn⟩ := h.entry i n l' hentry
    refine ⟨hl', ?_⟩
    by_cases heq : l' = l
    · subst heq
      obtain ⟨hi', hn'⟩ := hkey hlist
      exact ⟨hlisted.mpr hlist, hi'.trans hi, hn'.trans hn⟩
    · rw [hch.lines l' heq]
      exact ⟨hlist, hi, hn⟩
  · rw [hmap]
    by_cases heq : l' = l
    · subst heq
      have hlist' := hlisted.mp hlist
      obtain ⟨hi', hn'⟩ := hkey hlist'
      rw [hi', hn']
      exact h.listed _ hlist'
    · rw [hch.lines l' heq] at hlist ⊢
      exact h.listed l' hlist

/-- A line that leaves the map. -/
theorem Mapped.drop (h : Mapped cfg inodes c) (hch : Changes l c c')
    (hmap : ∀ i n, c'.cacheMap i n =
      if i = (c.lines l).inodeNumber ∧ n = (c.lines l).lineNumber then none else c.cacheMap i n)
    (hnot : ¬(c'.lines l).Listed) (hlist : (c.lines l).Listed) : Mapped cfg inodes c' := by
  obtain ⟨hself, -⟩ := h.listed l hlist
  refine ⟨fun i n l' hentry => ?_, fun l' hlist' => ?_⟩
  · rw [hmap] at hentry
    split at hentry
    · cases hentry
    · rename_i hkey
      have hne : l' ≠ l := by
        rintro rfl
        obtain ⟨-, -, hi, hn⟩ := h.entry i n l' hentry
        exact hkey ⟨hi.symm, hn.symm⟩
      rw [hch.lines l' hne]
      exact h.entry i n l' hentry
  · have hne : l' ≠ l := by
      rintro rfl
      exact hnot hlist'
    rw [hch.lines l' hne] at hlist' ⊢
    obtain ⟨hentry, hinode⟩ := h.listed l' hlist'
    refine ⟨?_, hinode⟩
    rw [hmap, if_neg]
    · exact hentry
    · rintro ⟨hi, hn⟩
      rw [hi, hn, hself] at hentry
      exact hne (Option.some.inj hentry).symm

/-- A line that enters the map. -/
theorem Mapped.add (h : Mapped cfg inodes c) (hch : Changes l c c') (hl : l < cfg.cacheLines)
    {i₀ n₀ : ℕ} (hnone : c.cacheMap i₀ n₀ = none)
    (hmap : ∀ i n, c'.cacheMap i n = if i = i₀ ∧ n = n₀ then some l else c.cacheMap i n)
    (hlist : (c'.lines l).Listed) (hi₀ : (c'.lines l).inodeNumber = i₀)
    (hn₀ : (c'.lines l).lineNumber = n₀) (hinode : (inodes i₀).isSome)
    (hnot : ¬(c.lines l).Listed) : Mapped cfg inodes c' := by
  refine ⟨fun i n l' hentry => ?_, fun l' hlist' => ?_⟩
  · rw [hmap] at hentry
    split at hentry
    · rename_i hkey
      obtain rfl := Option.some.inj hentry
      exact ⟨hl, hlist, hi₀.trans hkey.1.symm, hn₀.trans hkey.2.symm⟩
    -- an older entry is not of `l`, which was not listed
    · obtain ⟨hl', hlist', hi, hn⟩ := h.entry i n l' hentry
      have hne : l' ≠ l := by
        rintro rfl
        exact hnot hlist'
      rw [hch.lines l' hne]
      exact ⟨hl', hlist', hi, hn⟩
  · rw [hmap]
    by_cases heq : l' = l
    · subst heq
      rw [if_pos ⟨hi₀, hn₀⟩, hi₀]
      exact ⟨rfl, hinode⟩
    -- another line has another key, as the map had none here
    · rw [hch.lines l' heq] at hlist' ⊢
      obtain ⟨hentry, hsome⟩ := h.listed l' hlist'
      refine ⟨?_, hsome⟩
      rw [if_neg]
      · exact hentry
      · rintro ⟨hi, hn⟩
        rw [hi, hn, hnone] at hentry
        cases hentry

end DataCache

end MultiStorageFileSystem
