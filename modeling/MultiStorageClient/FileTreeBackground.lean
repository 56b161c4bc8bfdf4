/-
MultiStorageClient/FileTreeBackground.lean

What runs beside the calls, run alone: `prefetchDirectory`, and the sections on
data cache lines.

A line that is being fetched is counted by its inode; the sections keep the
count (`inboundLines_set`).
-/
import MultiStorageClient.FileTreeHandles

namespace MultiStorageFileSystem

open Prog

namespace TreeSection

open FileTree

variable (cfg : TreeConfig) {left : Prop} {off : ℕ → Prop} {t t' : FileTree} {i d fh l k : ℕ}

/-! ### Prefetching -/

/-- Children are found, one after the other. -/
theorem forM_ok {α : Type} (xs : List α) {f : α → TreeSection Unit} (h : t.Settled left)
    (hd : BackendDir t d)
    (hf : ∀ x t, t.Settled left → BackendDir t d → EndsIn (fun _ t' => t'.Settled left ∧
      Grown (fun d' _ => d' = d) t t') (fun _ => False) (runs (f x) t)) :
    EndsIn (fun _ t' => t'.Settled left ∧ Grown (fun d' _ => d' = d) t t') (fun _ => False)
      (runs (xs.forM f) t) := by
  induction xs generalizing t with
  | nil => exact ⟨h, .refl⟩
  | cons x xs ih =>
      rw [show (x :: xs).forM f = f x >>= fun _ => xs.forM f from rfl, runs_bind]
      refine (hf x t h hd).andThen fun _ t₁ ⟨hok, hg⟩ => ?_
      exact (ih hok (hd.grown h hg)).mono (fun _ t₂ h₂ => ⟨h₂.1, hg.trans h₂.2⟩) fun _ => id

/-- **The children of a page** are found. -/
theorem findChildren_ok (page : ListDirectoryOutput) (h : t.Settled left) (hd : BackendDir t d) :
    EndsIn (fun _ t' => t'.Settled left ∧ Grown (fun d' _ => d' = d) t t') (fun _ => False)
      (runs (findChildren cfg d page) t) := by
  have hchild : ∀ {child : TreeSection ℕ} {name : String} {t : FileTree},
      EndsIn (fun i t' => t'.Settled left ∧ Hit (fun d' n => d' = d ∧ n = name) t t' d name i)
        (fun _ => False) (runs child t) →
      EndsIn (fun _ t' => t'.Settled left ∧ Grown (fun d' _ => d' = d) t t') (fun _ => False)
        (runs (do let _ ← child) t) := by
    intro child name t hc
    rw [runs_bind]
    exact hc.andThen fun i t' ⟨hok, hhit⟩ => ⟨hok, hhit.grown.mono fun _ _ => And.left⟩
  unfold findChildren
  rw [runs_bind]
  refine (forM_ok page.subdirectory h hd fun name t ht hdt =>
    hchild (findChildDirInode_ok cfg ht hdt)).andThen fun _ t₁ ⟨hok₁, hg₁⟩ => ?_
  refine (forM_ok page.file hok₁ (hd.grown h hg₁) fun file t ht hdt =>
    hchild (findChildFileInode_ok cfg ht hdt file.2)).mono (fun _ t₂ h₂ => ?_) fun _ => id
  exact ⟨h₂.1, hg₁.trans h₂.2⟩

/-- Prefetches start, list and end. -/
theorem prefetches_ok (h : t.Ok left NoneBare off) (f : Globals → Globals)
    (hf : Prefetching t.globals (f t.globals))
    (hblank : ∀ i, ¬t.nonces.Given i ∨ t.names.Pending i → (f t.globals).use i = t.globals.use i)
    (hp : ∀ p ∈ (f t.globals).prefetches, p ∈ t.globals.prefetches ∨
      p.dirInodeNumber < t.nonces.head ∧ t.names.isDir p.dirInodeNumber ∧
        p.dirInodeNumber ≠ FUSERootDirInodeNumber) : (t.modify f).Ok left NoneBare off := by
  obtain ⟨use, now, prefetches, hg⟩ := hf.globals
  refine h.modify f ?_ (fun i ho => ⟨ho, hf.idle⟩) (fun i hi => ?_)
    (hf.calls h.calls fun p hmem => (hp p hmem).elim (h.calls.prefetch p) id)
  · rw [hg]
  · have hb := (h.blank i hi).2
    refine ⟨(hblank i hi).trans hb.use, ?_, ?_⟩
    · rw [hf.fhMap]
      exact hb.fhMap
    · rw [hg]
      exact hb.line

theorem setListing_ok (h : t.Settled left) (hk : t.globals.prefetches[k]? = some ⟨d, false⟩) :
    (t.modify fun g => g.setListing k d).Settled left := by
  refine prefetches_ok h _ ⟨fun _ => ⟨_, rfl⟩, _, _, _, rfl⟩ (fun _ _ => rfl) fun p hp => ?_
  rcases List.mem_or_eq_of_mem_set hp with hmem | rfl
  · exact .inl hmem
  · exact .inr (h.calls.prefetch ⟨d, false⟩ (List.mem_of_getElem? hk))

/-- The end of a prefetch. -/
theorem erasePrefetch_ok (h : t.Settled left) :
    (t.modify fun g => g.erasePrefetch k).Settled left :=
  prefetches_ok h _ ⟨fun _ => ⟨_, rfl⟩, _, _, _, rfl⟩ (fun _ _ => rfl)
    fun _ hp => .inl (List.mem_of_mem_eraseIdx hp)

/-- The end of a prefetch keeps the tree. -/
theorem endPrefetch_ok (h : t.Settled left) (hd : BackendDir t d) :
    (t.modify fun g => (g.setPrefetchInProgress d false).erasePrefetch k).Settled left := by
  have huse : ∀ i, ((t.globals.setPrefetchInProgress d false).erasePrefetch k).use i =
      if i = d then { t.globals.use d with isPrefetchInProgress := false } else t.globals.use i :=
    fun _ => Function.update_apply ..
  refine prefetches_ok h _ ⟨fun i => ?_, _, _, _, rfl⟩ (fun i hi => ?_)
    fun _ hp => .inl (List.mem_of_mem_eraseIdx hp)
  · rw [huse]
    split
    next heq => exact ⟨false, by rw [heq]⟩
    · exact ⟨(t.globals.use i).isPrefetchInProgress, rfl⟩
  · rw [huse, if_neg (blank_ne h hd.inodeMap (hd.notPending h) hi)]

/-- **`prefetchDirectory`** -/
theorem prefetchDirectory_ok {answer : Option ListDirectoryOutput} (h : t.Settled left) :
    EndsIn (fun _ t' => t'.Settled left) (fun _ => True)
      (runs (prefetchDirectory cfg k answer) t) := by
  unfold prefetchDirectory
  rw [runs_bind, runs_globals, andThen_ok]
  cases hk : t.globals.prefetches[k]? with
  | none => exact h
  | some prefetch =>
      obtain ⟨d, listing⟩ := prefetch
      obtain ⟨-, hdir, hroot⟩ := h.calls.prefetch _ (List.mem_of_getElem? hk)
      dsimp only at hdir hroot ⊢
      rw [runs_bind, runs_inodeGet, andThen_ok]
      split
      next hi =>
        have hd : BackendDir t d := ⟨hi, hdir, hroot⟩
        obtain ⟨backend, -, hb⟩ := runs_backendOf h hi hroot (hd.notPending h)
        rw [runs_bind, runs_deref, andThen_ok, runs_bind, hb, andThen_ok]
        -- a prefetch that has not begun asks for its page
        cases listing with
        | false => exact setListing_ok h hk
        | true =>
            cases answer with
            -- the page could not be got: the prefetch ends
            | none => exact endPrefetch_ok h hd
            | some page =>
                simp only [Bool.not_true, Bool.false_eq_true, if_false]
                rw [runs_bind]
                -- the page's children are found or created, and maybe there is another page
                refine ((findChildren_ok cfg page h hd).mono (fun _ _ => id)
                  fun _ => False.elim).andThen fun _ t₁ ⟨hok₁, hg⟩ => ?_
                have hd₁ := hd.grown h hg
                obtain ⟨t₂, hrun, ht, hok₂⟩ := touch_ok cfg hok₁ hd₁.inodeMap (hd₁.notPending hok₁)
                have h₂ : t₂.Settled left := hok₂.off_mono fun j => And.left
                rw [runs_bind, hrun, andThen_ok]
                split
                · exact h₂
                · exact endPrefetch_ok h₂ (hd₁.grown hok₁ (S := fun _ _ => False) ht.grown)
      -- the directory is gone
      · exact erasePrefetch_ok h

/-! ### Data cache lines -/

/-- A line counts for an inode. -/
def countsFor (j : ℕ) (line : TreeLine) : ℕ :=
  if line.inodeNumber = j ∧ line.state = .inbound then 1 else 0

/-- One line changes. -/
theorem inboundLines_set {g : Globals} {old : TreeLine} (line : TreeLine)
    (hl : g.dataCacheLinesTracker[l]? = some old) (j : ℕ) :
    inboundLines (g.setLine l line) j + countsFor j old = inboundLines g j + countsFor j line := by
  obtain ⟨hlt, hget⟩ := List.getElem?_eq_some_iff.mp hl
  have hset := List.countP_set (p := fun line : TreeLine =>
    decide (line.inodeNumber = j ∧ line.state = .inbound)) (a := line) hlt
  simp only [hget, decide_eq_true_eq] at hset
  have hpos : (if old.inodeNumber = j ∧ old.state = .inbound then 1 else 0) ≤
      inboundLines g j := by
    split
    next hc =>
      refine List.countP_pos_iff.mpr ⟨old, List.mem_of_getElem? hl, ?_⟩
      exact decide_eq_true hc
    · exact Nat.zero_le _
  unfold countsFor
  show List.countP _ (g.dataCacheLinesTracker.set l line) + _ = _
  rw [hset]
  unfold inboundLines at hpos ⊢
  omega

/-- What is done to lines and to their counts. -/
theorem lines_ok (h : t.Settled left) (f : Globals → Globals)
    (hrest : ∃ use lines, f t.globals =
      { t.globals with use := use, dataCacheLinesTracker := lines })
    (huse : ∀ j, ∃ n, (f t.globals).use j = { t.globals.use j with inboundCacheLineCount := n })
    (hidle : ∀ j, Idle t.names t.globals j → Idle t.names (f t.globals) j)
    (hblank : ∀ j, ¬t.nonces.Given j ∨ t.names.Pending j → Blank (f t.globals) j)
    (hlines : ∀ j, t.inodeMap j →
      inboundLines (f t.globals) j = ((f t.globals).use j).inboundCacheLineCount) :
    (t.modify f).Settled left := by
  -- the handles, the deletions and the calls do not look at the lines
  have hc := h.calls
  have hfh : ∀ j, ((f t.globals).use j).fhSet = (t.globals.use j).fhSet := fun j => by
    obtain ⟨n, hn⟩ := huse j
    rw [hn]
  have hpd : ∀ j, ((f t.globals).use j).pendingDelete = (t.globals.use j).pendingDelete :=
    fun j => by
      obtain ⟨n, hn⟩ := huse j
      rw [hn]
  obtain ⟨use, lines, hg⟩ := hrest
  have hmap : (f t.globals).fhMap = t.globals.fhMap := by rw [hg]
  refine h.modify f (by rw [hg]) (fun j ho => ⟨ho, hidle j⟩) hblank ⟨fun j fh hj hmem => ?_,
    fun j => ?_, fun fh f' hf => ?_, fun fh f' hf hsome => ?_, ?_, fun j hj => ?_, ?_, hlines⟩
  · rw [hfh] at hmem
    rw [hmap]
    exact hc.handle j fh hj hmem
  · rw [hfh]
    exact hc.handle_nodup j
  · rw [hmap] at hf
    exact hc.pages fh f' hf
  · rw [hmap] at hf
    rw [hfh]
    exact hc.listing fh f' hf hsome
  · rw [hg]
    exact hc.prefetch
  · rw [hg] at hj
    rw [hfh, hpd]
    exact hc.pendingDelete j hj
  · rw [hg]
    exact hc.pendingDelete_nodup

/-- A line that was not being fetched, and is not now. -/
theorem setLine_ok (h : t.Settled left) {old line : TreeLine}
    (hl : t.globals.dataCacheLinesTracker[l]? = some old)
    (hold : old.state = .inbound → ¬t.inodeMap old.inodeNumber) (hline : line.state ≠ .inbound) :
    (t.modify fun g => g.setLine l line).Settled left := by
  refine lines_ok h _ ⟨_, _, rfl⟩ (fun j => ⟨_, rfl⟩) (fun _ => id) (fun j hj => ?_) fun j hj => ?_
  · have hb := (h.blank j hj).2
    refine ⟨hb.use, hb.fhMap, fun line' hmem heq => ?_⟩
    rcases List.mem_or_eq_of_mem_set hmem with hmem | rfl
    · exact hb.line line' hmem heq
    · exact hline
  · have hcount := inboundLines_set line hl j
    have h₁ : countsFor j old = 0 := if_neg fun hc => hold hc.2 (by rw [hc.1]; exact hj)
    have h₂ : countsFor j line = 0 := if_neg fun hc => hline hc.2
    rw [h₁, h₂] at hcount
    exact hcount.trans (h.calls.lines j hj)

/-- A line that an inode gets keeps the tree. -/
theorem allocateDataCacheLine_ok (h : t.Settled left) :
    EndsIn (fun _ t' => t'.Settled left) (fun _ => True) (runs (allocateDataCacheLine l) t) := by
  unfold allocateDataCacheLine
  rw [runs_bind, runs_globals, andThen_ok]
  split
  next i hl => exact setLine_ok h hl (fun hc => nomatch hc) nofun
  next i hl =>
    rw [runs_bind, runs_inodeGet, andThen_ok]
    cases t.inodeMap i
    · trivial
    · exact setLine_ok h hl (fun hc => nomatch hc) nofun
  · exact h

/-- A line that an inode loses keeps the tree. -/
theorem releaseDataCacheLine_ok (h : t.Settled left) :
    EndsIn (fun _ t' => t'.Settled left) (fun _ => False) (runs (releaseDataCacheLine l) t) := by
  unfold releaseDataCacheLine
  rw [runs_bind, runs_modify, andThen_ok, runs_pure]
  unfold EndsIn FileTree.modify
  dsimp only
  split
  next i hl => exact setLine_ok h hl (fun hc => nomatch hc) nofun
  next i hl => exact setLine_ok h hl (fun hc => nomatch hc) nofun
  · exact h

/-- A line of a file and the count of the file change together. -/
theorem setLineAndCount_ok (h : t.Settled left) (hi : t.inodeMap i) (hnp : ¬t.names.Pending i)
    {old : TreeLine} (line : TreeLine) (hl : t.globals.dataCacheLinesTracker[l]? = some old)
    (hold : old.state = .inbound → old.inodeNumber = i) (hline : line.inodeNumber = i) {n : ℕ}
    (hn : n + countsFor i old = (t.globals.use i).inboundCacheLineCount + countsFor i line)
    (hidle : ¬Idle t.names t.globals i ∨ t.names.isDir i) :
    (t.modify fun g => (g.setLine l line).setInboundCacheLineCount i n).Settled left := by
  have huse : ∀ j, ((t.globals.setLine l line).setInboundCacheLineCount i n).use j =
      if j = i then { t.globals.use i with inboundCacheLineCount := n } else t.globals.use j :=
    fun _ => Function.update_apply ..
  refine lines_ok h _ ⟨_, _, rfl⟩ (fun j => ?_) (fun j hj => ?_) (fun j hj => ?_) fun j hj => ?_
  · rw [huse]
    split
    next heq => exact ⟨n, by rw [heq]⟩
    · exact ⟨_, rfl⟩
  · by_cases hji : j = i
    · subst hji
      have hdir := hidle.resolve_left fun hno => hno hj
      unfold Idle at hj ⊢
      rw [huse, if_pos rfl]
      split
      next hfile => exact absurd hfile hdir
      next htype =>
        rw [htype] at hj
        exact hj
      next hfile hpseudo =>
        split at hj
        · exact absurd ‹_› hfile
        · exact absurd ‹_› hpseudo
        · exact hj
    · exact hj.mono rfl ((huse j).trans (if_neg hji)) fun _ _ => id
  · have hji := blank_ne h hi hnp hj
    have hb := (h.blank j hj).2
    refine ⟨((huse j).trans (if_neg hji)).trans hb.use, hb.fhMap, fun line' hmem heq => ?_⟩
    rcases List.mem_or_eq_of_mem_set hmem with hmem | rfl
    · exact hb.line line' hmem heq
    · exact absurd (heq.symm.trans hline) hji
  · have hcount := inboundLines_set line hl j
    have hold' := h.calls.lines j hj
    rw [huse]
    show inboundLines (t.globals.setLine l line) j = _
    by_cases hji : j = i
    · subst hji
      rw [if_pos rfl]
      dsimp only
      omega
    · rw [if_neg hji]
      have h₁ : countsFor j old = 0 := if_neg fun hc => hji (hc.1.symm.trans (hold hc.2))
      have h₂ : countsFor j line = 0 := if_neg fun hc => hji (hc.1.symm.trans hline)
      omega

/-- `DoRead` keeps the tree. -/
theorem doRead_ok {line : Option ℕ} (h : t.Settled left) (hnp : ¬t.names.Pending i) :
    EndsIn (fun _ t' => t'.Settled left) (fun _ => True) (runs (doRead cfg i fh line) t) := by
  unfold doRead
  refine withInode_ends h hnp (fun _ => h) fun hi => ?_
  split
  · exact h
  next htype =>
    rw [not_not] at htype
    rw [runs_bind, runs_globals, andThen_ok]
    split
    · exact h
    next hmem =>
      rw [not_not] at hmem
      obtain ⟨f, hf, hinode, hrun⟩ := runs_handle h hi hmem
      rw [runs_bind, hrun, andThen_ok]
      split
      · exact h
      · obtain ⟨t₁, hrun₁, ht, hok⟩ := touch_ok cfg h hi hnp
        have h₁ : t₁.Settled left := hok.off_mono fun j => And.left
        have hi₁ : t₁.inodeMap i := by
          rw [show t₁.inodeMap = t.inodeMap from congrArg Names.inodeMap ht.names]
          exact hi
        have hnp₁ : ¬t₁.names.Pending i := by
          rw [ht.names]
          exact hnp
        obtain ⟨now, hg⟩ := ht.globals
        -- the file is open
        have hidle : ¬Idle t₁.names t₁.globals i := by
          intro hidle
          unfold Idle at hidle
          rw [ht.names, show (t.names.inode i).inodeType = .FileObject from htype, hg] at hidle
          rw [show (t.globals.use i).fhSet = [] from hidle.2.1] at hmem
          cases hmem
        rw [runs_bind, hrun₁, andThen_ok]
        cases line with
        | none => exact h₁
        | some l =>
            dsimp only
            rw [runs_bind, runs_modify, andThen_ok, runs_pure]
            unfold EndsIn FileTree.modify
            dsimp only
            split
            next hl =>
              obtain ⟨old, hold, hstate⟩ := Option.map_eq_some_iff.mp hl
              refine setLineAndCount_ok h₁ hi₁ hnp₁ ⟨.inbound, i⟩ hold
                (fun hc => nomatch hc.symm.trans hstate) rfl ?_ (.inl hidle)
              have h₀ : countsFor i old = 0 := if_neg fun hc => nomatch hc.2.symm.trans hstate
              have h₁ : countsFor i ⟨.inbound, i⟩ = 1 := if_pos ⟨rfl, rfl⟩
              omega
            · exact h₁

/-- **`fetch`** -/
theorem fetch_ok {ended : Bool} (h : t.Settled left) :
    EndsIn (fun _ t' => t'.Settled left) (fun _ => True) (runs (fetch l ended) t) := by
  unfold fetch
  rw [runs_bind, runs_globals, andThen_ok]
  split
  next i hl =>
    rw [runs_bind, runs_inodeGet, andThen_ok]
    split
    next hi =>
      have hnp : ¬t.names.Pending i := fun hp =>
        (h.blank i (.inr hp)).2.line _ (List.mem_of_getElem? hl) rfl rfl
      cases ended with
      | false =>
          have hsame : EndsIn (fun _ t' => t' = t) (fun _ => True)
              (runs (backendOf (t.inode i).backendNonce) t) := by
            unfold backendOf
            rw [runs_bind, runs_globals, andThen_ok]
            cases t.globals.backendMap (t.inode i).backendNonce with
            | none => trivial
            | some backend => rfl
          simp only [Bool.false_eq_true, if_false]
          rw [runs_bind, runs_deref, andThen_ok, runs_bind]
          refine hsame.andThen fun _ t' ht' => ?_
          subst ht'
          exact h
      | true =>
          -- the line counted for its inode, which was inbound and is not any more
          have hcount := h.calls.lines i hi
          have hpos : 0 < inboundLines t.globals i := List.countP_pos_iff.mpr
            ⟨_, List.mem_of_getElem? hl, decide_eq_true ⟨rfl, rfl⟩⟩
          have hold : countsFor i ⟨.inbound, i⟩ = 1 := if_pos ⟨rfl, rfl⟩
          have hnew : countsFor i ⟨.clean, i⟩ = 0 := if_neg fun hc => nomatch hc.2
          refine setLineAndCount_ok h hi hnp ⟨.clean, i⟩ hl (fun _ => rfl) rfl ?_ ?_
          · omega
          · by_cases hfile : (t.names.inode i).inodeType = .FileObject
            · left
              intro hidle
              unfold Idle at hidle
              rw [hfile] at hidle
              omega
            · exact .inr hfile
    -- the inode is gone, and no count with it
    next hi => exact setLine_ok h hl (fun _ => hi) nofun
  · exact h

end TreeSection

end MultiStorageFileSystem
