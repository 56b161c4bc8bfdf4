/-
MultiStorageClient/FileTreeHandles.lean

The calls on names and handles, run alone: each keeps the invariant, or ends the
process.

What a call does to the use of an inode is one lemma (`setUse_ok`); until it is
touched the inode is out of the count.
-/
import MultiStorageClient.FileTreeReads

namespace MultiStorageFileSystem

open Prog

namespace FileTree

/-- The invariant between two sections. -/
abbrev Settled (left : Prop) (t : FileTree) : Prop := t.Ok left NoneBare fun _ => False

/-- The lookup of a name leads to the root. -/
def LooksUpRoot (t : FileTree) (p : ℕ) (name : String) : Prop :=
  t.inodeMap p ∧ ((t.inode p).inodeType = .FUSERootDir ∧ IsDot name ∨
    (t.inode p).inodeType = .BackendRootDir ∧ name = DotDotDirEntryBasename ∧
      (t.globals.use FUSERootDirInodeNumber).pendingDelete = false)

end FileTree

namespace TreeSection

open FileTree

variable (cfg : TreeConfig) {left : Prop} {off : ℕ → Prop} {t t' : FileTree} {i p d fh : ℕ}
  {name : String} {f : Fh} {found : Found}

/-! ### The use of an inode -/

/-- How an inode is used changes. -/
theorem setUse_ok (h : t.Ok left NoneBare off) (hi : t.inodeMap i) (hnp : ¬t.names.Pending i)
    (u : InodeUse) (hhandle : ∀ fh ∈ u.fhSet, ∃ f, t.globals.fhMap fh = some f ∧ f.inode = i)
    (hnodup : u.fhSet.Nodup)
    (hlisting : ∀ fh f, t.globals.fhMap fh = some f → f.listDirectoryInProgress.isSome →
      f.inode = i → fh ∈ u.fhSet)
    (hpd : i ∈ t.globals.pendingDeletes → u.pendingDelete ∧ u.fhSet = [])
    (hlines : u.inboundCacheLineCount = (t.globals.use i).inboundCacheLineCount) :
    (t.modify fun g => g.setUse i u).Ok left NoneBare fun j => off j ∨ j = i := by
  have huse : ∀ j, (t.globals.setUse i u).use j = if j = i then u else t.globals.use j :=
    fun _ => Function.update_apply ..
  have hc := h.calls
  refine h.modify _ rfl (fun j ho => ⟨fun hoff => ho (.inl hoff), fun hidle => ?_⟩) (fun j hj => ?_)
    ⟨fun j fh hj hmem => ?_, fun j => ?_, hc.pages, fun fh f hf hsome => ?_, hc.prefetch,
      fun j hj => ?_, hc.pendingDelete_nodup, fun j hj => ?_⟩
  · exact hidle.mono rfl ((huse j).trans (if_neg fun hji => ho (.inr hji))) fun _ _ => id
  -- a blank inode is not `i`, which there is
  · have hji : j ≠ i := by
      rintro rfl
      rcases hj with hj | hj
      · exact hj (h.given hi)
      · exact hnp hj
    have hb := (h.blank j hj).2
    exact ⟨((huse j).trans (if_neg hji)).trans hb.use, hb.fhMap, hb.line⟩
  -- handles, calls and deletions of other inodes are as before
  · rw [huse] at hmem
    split at hmem
    next hji =>
      subst hji
      exact hhandle fh hmem
    · exact hc.handle j fh hj hmem
  · rw [huse]
    split
    · exact hnodup
    · exact hc.handle_nodup j
  · obtain ⟨h₁, h₂, h₃, h₄⟩ := hc.listing fh f hf hsome
    refine ⟨h₁, h₂, h₃, h₄.imp_left fun hl => ⟨hl.1, ?_⟩⟩
    rw [huse]
    split
    next heq => exact hlisting fh f hf hsome heq
    · exact hl.2
  · obtain ⟨h₁, h₂, h₃, h₄⟩ := hc.pendingDelete j hj
    refine ⟨h₁, h₂, h₃, h₄.imp_left fun hl => ⟨hl.1, hl.2.1, ?_⟩⟩
    rw [huse]
    split
    next heq =>
      subst heq
      exact hpd hj
    · exact hl.2.2
  · rw [huse]
    split
    next heq =>
      subst heq
      rw [hlines]
      exact hc.lines j hj
    · exact hc.lines j hj

/-- A number is given out. -/
theorem skip_ok (h : t.Ok left NoneBare off) :
    ({ t with nonces := t.nonces.tail } : FileTree).Ok left NoneBare off := by
  have hlt := NamesOk.head_lt_tail t.nonces
  have hc := h.calls
  have hlives : ∀ {i alive}, Lives t.names i alive → Lives t.names.skip i alive := by
    rintro i alive (hl | ⟨h₁, h₂, h₃⟩)
    · exact .inl hl
    · exact .inr ⟨h₁, h₂, lt_trans h₃ hlt⟩
  refine ⟨⟨h.names.skip, h.swept, h.queue, h.idle, fun i hi => ?_⟩, hc.handle, hc.handle_nodup,
    hc.pages, fun fh f hf hsome => ?_, fun q hq => ?_, fun i hi => ?_, hc.pendingDelete_nodup,
      hc.lines⟩
  · exact h.blank i (hi.imp_left fun hn hg => hn (NamesOk.given_tail hg))
  · obtain ⟨h₁, h₂, h₃, h₄⟩ := hc.listing fh f hf hsome
    exact ⟨lt_trans h₁ hlt, h₂, h₃, hlives h₄⟩
  · obtain ⟨h₁, h₂, h₃⟩ := hc.prefetch q hq
    exact ⟨lt_trans h₁ hlt, h₂, h₃⟩
  · obtain ⟨h₁, h₂, h₃, h₄⟩ := hc.pendingDelete i hi
    exact ⟨NamesOk.given_tail h₁, h₂, h₃, hlives h₄⟩

/-- A handle is put into `fhMap`, under a number that nobody has. -/
theorem putFh_ok (h : t.Ok left NoneBare off) (hgiven : t.nonces.Given fh)
    (hnp : ¬t.names.Pending fh) (hnone : t.globals.fhMap fh = none) (hpages : PagesOk f)
    (hlist : f.listDirectoryInProgress = none) :
    (t.modify fun g => g.setFh fh (some f)).Ok left NoneBare off := by
  have hmap : ∀ fh', (t.globals.setFh fh (some f)).fhMap fh' =
      if fh' = fh then some f else t.globals.fhMap fh' := fun _ => Function.update_apply ..
  have hc := h.calls
  refine h.modify _ rfl (fun i ho => ⟨ho, id⟩) (fun i hi => ?_) ⟨fun i fh' hi hmem => ?_,
    hc.handle_nodup, fun fh' g hg => ?_, fun fh' g hg hsome => ?_, hc.prefetch, hc.pendingDelete,
    hc.pendingDelete_nodup, hc.lines⟩
  -- the number is given now, so it is not among the blank ones
  · have hb := (h.blank i hi).2
    refine ⟨hb.use, ?_, hb.line⟩
    rw [hmap, if_neg, hb.fhMap]
    rintro rfl
    rcases hi with hi | hi
    · exact hi hgiven
    · exact hnp hi
  -- no inode has a handle of this number yet
  · obtain ⟨g, hg, hgi⟩ := hc.handle i fh' hi hmem
    rw [hmap, if_neg]
    · exact ⟨g, hg, hgi⟩
    · rintro rfl
      rw [hnone] at hg
      cases hg
  · rw [hmap] at hg
    split at hg
    · obtain rfl := Option.some_injective _ hg
      exact hpages
    · exact hc.pages fh' g hg
  · rw [hmap] at hg
    split at hg
    · obtain rfl := Option.some_injective _ hg
      rw [hlist] at hsome
      cases hsome
    · exact hc.listing fh' g hg hsome

/-- A new handle. -/
theorem openFh_ok (h : t.Settled left) (hi : t.inodeMap f.inode) (hnp : ¬t.names.Pending f.inode)
    (hpages : PagesOk f) (hlist : f.listDirectoryInProgress = none)
    (hpd : f.inode ∉ t.globals.pendingDeletes) :
    EndsIn (fun _ t' => t'.Settled left) (fun _ => True) (runs (openFh cfg f) t) := by
  have hblank := (h.blank t.nonces.head (.inl (NamesOk.head_not_given _))).2
  -- the next number is not pending and no handle has it
  have hhead : t.nonces.tail.Given t.nonces.head := by
    intro k hk
    have := t.nonces.mono (Nat.succ_pos k)
    unfold Nonces.head at hk
    exact absurd hk (ne_of_gt this)
  have hpend : ¬t.names.Pending t.nonces.head := by
    rintro ⟨e, he, heq⟩
    exact h.names.ne_head (h.names.ingested e he).1 heq
  -- first the handle, then the inode that knows it, then the touch
  have hok₁ := putFh_ok (f := f) (skip_ok h) hhead hpend hblank.fhMap hpages hlist
  have hmem : t.nonces.head ∉ (t.globals.use f.inode).fhSet := by
    intro hmem
    obtain ⟨g, hg, -⟩ := h.calls.handle _ _ hi hmem
    rw [hblank.fhMap] at hg
    cases hg
  have hmap : ∀ fh', (t.globals.setFh t.nonces.head (some f)).fhMap fh' =
      if fh' = t.nonces.head then some f else t.globals.fhMap fh' :=
        fun _ => Function.update_apply ..
  have hok₂ := setUse_ok hok₁ hi hnp
    { t.globals.use f.inode with fhSet := t.nonces.head :: (t.globals.use f.inode).fhSet }
    (fun fh hfh => by
      show ∃ g, (t.globals.setFh t.nonces.head (some f)).fhMap fh = some g ∧ _
      rw [hmap]
      split
      · exact ⟨f, rfl, rfl⟩
      next hne => exact h.calls.handle _ _ hi ((List.mem_cons.mp hfh).resolve_left hne))
    (List.nodup_cons.mpr ⟨hmem, h.calls.handle_nodup f.inode⟩)
    (fun fh g hg hsome heq => by
      replace hg : (t.globals.setFh t.nonces.head (some f)).fhMap fh = some g := hg
      rw [hmap] at hg
      split at hg
      next hfh => exact List.mem_cons.mpr (.inl hfh)
      · rcases (h.calls.listing fh g hg hsome).2.2.2 with ⟨-, hl⟩ | ⟨hgone, -⟩
        · rw [heq] at hl
          exact List.mem_cons.mpr (.inr hl)
        · exact absurd (by rw [heq]; exact hi) hgone)
    (fun hmem => absurd hmem hpd) rfl
  unfold openFh
  rw [runs_bind, runs_fetchNonce, andThen_ok, runs_bind, runs_modify, andThen_ok]
  obtain ⟨t₃, hrun, -, hok₃⟩ := touch_ok cfg hok₂ hi hnp
  rw [runs_bind]
  have hrun : runs (touch cfg f.inode) (({ t with nonces := t.nonces.tail } : FileTree).modify
    fun g => g.addFh t.nonces.head f) = (.ok (), t₃) := hrun
  rw [hrun, andThen_ok]
  exact hok₃.off_mono fun j hj => hj.1.elim (fun hf => hf.elim) fun heq => hj.2 heq

/-- A handle of an inode is deleted. -/
theorem deleteFh_ok (h : t.Ok left NoneBare off) (hi : t.inodeMap i) (hnp : ¬t.names.Pending i)
    (hmem : fh ∈ (t.globals.use i).fhSet) :
    (t.modify fun g => g.deleteFh i fh).Ok left NoneBare fun j => off j ∨ j = i := by
  have hc := h.calls
  obtain ⟨f, hf, hinode⟩ := hc.handle i fh hi hmem
  have huse : ∀ j, (t.globals.deleteFh i fh).use j =
      if j = i then { t.globals.use i with fhSet := (t.globals.use i).fhSet.erase fh }
      else t.globals.use j := fun _ => Function.update_apply ..
  have hmap : ∀ fh', (t.globals.deleteFh i fh).fhMap fh' =
      if fh' = fh then none else t.globals.fhMap fh' := fun _ => Function.update_apply ..
  -- the handle is that of no other inode
  have hother : ∀ j fh', t.inodeMap j → fh' ∈ ((t.globals.deleteFh i fh).use j).fhSet →
      fh' ≠ fh ∧ fh' ∈ (t.globals.use j).fhSet := by
    intro j fh' hj hmem'
    rw [huse] at hmem'
    split at hmem'
    next hji =>
      subst hji
      exact (hc.handle_nodup j).mem_erase_iff.mp hmem'
    next hji =>
      refine ⟨?_, hmem'⟩
      rintro rfl
      obtain ⟨g, hg, hgj⟩ := hc.handle j fh' hj hmem'
      rw [hf] at hg
      obtain rfl := Option.some_injective _ hg
      exact hji (hgj.symm.trans hinode)
  have hsome' : ∀ {fh' g}, (t.globals.deleteFh i fh).fhMap fh' = some g →
      fh' ≠ fh ∧ t.globals.fhMap fh' = some g := by
    intro fh' g hg
    rw [hmap] at hg
    split at hg
    · cases hg
    next hne => exact ⟨hne, hg⟩
  refine h.modify _ rfl (fun j ho => ⟨fun hoff => ho (.inl hoff), fun hidle => ?_⟩) (fun j hj => ?_)
    ⟨fun j fh' hj hmem' => ?_, fun j => ?_, fun fh' g hg => hc.pages fh' g (hsome' hg).2,
      fun fh' g hg hsome => ?_, hc.prefetch, fun j hj => ?_, hc.pendingDelete_nodup, fun j hj => ?_⟩
  · exact hidle.mono rfl ((huse j).trans (if_neg fun hji => ho (.inr hji))) fun _ _ => id
  · have hji : j ≠ i := by
      rintro rfl
      rcases hj with hj | hj
      · exact hj (h.given hi)
      · exact hnp hj
    have hb := (h.blank j hj).2
    refine ⟨((huse j).trans (if_neg hji)).trans hb.use, ?_, hb.line⟩
    rw [hmap, hb.fhMap, ite_self]
  · obtain ⟨hne, hold⟩ := hother j fh' hj hmem'
    rw [hmap, if_neg hne]
    exact hc.handle j fh' hj hold
  · rw [huse]
    split
    · exact (hc.handle_nodup i).erase _
    · exact hc.handle_nodup j
  · obtain ⟨hne, hg⟩ := hsome' hg
    obtain ⟨h₁, h₂, h₃, h₄⟩ := hc.listing fh' g hg hsome
    refine ⟨h₁, h₂, h₃, h₄.imp_left fun hl => ⟨hl.1, ?_⟩⟩
    rw [huse]
    split
    next heq =>
      rw [heq] at hl
      exact (hc.handle_nodup i).mem_erase_iff.mpr ⟨hne, hl.2⟩
    · exact hl.2
  · obtain ⟨h₁, h₂, h₃, h₄⟩ := hc.pendingDelete j hj
    refine ⟨h₁, h₂, h₃, h₄.imp_left fun hl => ⟨hl.1, hl.2.1, ?_⟩⟩
    rw [huse]
    split
    next heq =>
      subst heq
      refine ⟨hl.2.2.1, ?_⟩
      rw [hl.2.2.2]
      rfl
    · exact hl.2.2
  · rw [huse]
    split
    next heq =>
      subst heq
      exact hc.lines j hj
    · exact hc.lines j hj

/-- Who is not in use for it is not being deleted. -/
theorem not_pendingDelete (h : t.Ok left NoneBare off) (hi : t.inodeMap i)
    (hnot : ¬((t.inode i).inodeType = .FileObject ∧ (t.globals.use i).pendingDelete ∧
      (t.globals.use i).fhSet = [])) : i ∉ t.globals.pendingDeletes := by
  intro hmem
  obtain ⟨-, htype, -, hlives⟩ := h.calls.pendingDelete i hmem
  rcases hlives with ⟨-, -, hpd⟩ | ⟨hgone, -⟩
  · exact hnot ⟨htype, hpd⟩
  · exact hgone hi

/-! ### Calls on names -/

/-- `LookupOut` only reads, and ends the process for the root, which has no
backend. -/
theorem lookupOut_ok (h : t.Settled left) (hi : t.inodeMap i) (hnp : ¬t.names.Pending i) :
    EndsIn (fun _ t' => t' = t ∧ i ≠ FUSERootDirInodeNumber)
      (fun _ => i = FUSERootDirInodeNumber) (runs (lookupOut i) t) := by
  unfold lookupOut
  rw [runs_bind, runs_deref, andThen_ok, runs_bind]
  by_cases hroot : i = FUSERootDirInodeNumber
  · have hnonce : (t.inode FUSERootDirInodeNumber).backendNonce = 0 := h.names.rootInode.2.2
    simp only [hroot, hnonce, backendOf, runs_bind, runs_globals, andThen_ok, backendMap_zero h,
      runs_fatalf, andThen_error]
    trivial
  · obtain ⟨backend, -, hrun⟩ := runs_backendOf h hi hroot hnp
    rw [hrun, andThen_ok]
    exact ⟨rfl, hroot⟩

/-- A directory that is not the root is one of a backend. -/
theorem backendDir (h : t.Ok left NoneBare off) (hp : t.inodeMap p)
    (hfile : (t.inode p).inodeType ≠ .FileObject) (hroot : (t.inode p).inodeType ≠ .FUSERootDir) :
    BackendDir t p :=
  ⟨hp, hfile, h.names.notRoot_of_type hroot⟩

/-- What follows a lookup. -/
theorem lookup_ends {Q : Reply → FileTree → Prop} {E : FileTree → Prop}
    {cont : Option ℕ → TreeSection Reply} (h : t.Settled left) (hp : BackendDir t p)
    (hcont : ∀ r t', t'.Settled left → Looked (found.key p name) t t' p name r →
      EndsIn Q E (runs (cont r) t')) :
    EndsIn Q E (runs (findChildInode cfg p name found >>= cont) t) := by
  rw [runs_bind]
  refine ((findChildInode_ok cfg h hp found).mono (fun _ _ => id) fun _ => False.elim).andThen ?_
  rintro r t' ⟨hok, hr⟩
  exact hcont r t' hok hr

/-- The root is found under the `..` of a backend only. -/
theorem find_eq_root_iff (h : t.Ok left NoneBare off) (hp : BackendDir t p)
    (hf : t.names.find p name = some i) : i = FUSERootDirInodeNumber ↔
      (t.inode p).inodeType = .BackendRootDir ∧ name = DotDotDirEntryBasename := by
  rcases h.names.find_cases hf with ⟨hname, hent⟩ | ⟨hname, b, hent⟩
  · obtain ⟨-, -, hself, hup⟩ := h.names.dotEntry _ _ _ hent hname
    rcases hname with rfl | rfl
    · rw [hself rfl]
      exact iff_of_false hp.notRoot fun hc => absurd hc.2 (by decide)
    · rw [hup rfl]
      cases htype : (t.inode p).inodeType with
      | FileObject => exact absurd htype hp.isDir
      | FUSERootDir => exact absurd (h.names.root_unique p hp.inodeMap htype) hp.notRoot
      | BackendRootDir =>
          exact iff_of_true (h.names.backendRoot p hp.inodeMap htype).1 ⟨rfl, rfl⟩
      | PseudoDir => exact iff_of_false (h.names.pseudo p htype).2.2.1 fun hc => nomatch hc.1
  · have hroot := (h.names.entry _ _ _ _ hent fun _ => hname).2.1
    exact iff_of_false hroot fun hc => hname (.inr hc.2)

/-- The dots of a directory are found. -/
theorem find_dot (h : t.Ok left NoneBare off) (hp : t.inodeMap p) (hdir : t.names.isDir p)
    (hname : IsDot name) : t.names.find p name ≠ none := by
  obtain ⟨hdot, hdotdot⟩ := h.names.dots p hp hdir id
  have hent : t.names.entry true p name ≠ none := by
    rcases hname with rfl | rfl
    · rw [hdot]
      exact Option.some_ne_none p
    · rw [hdotdot]
      exact Option.some_ne_none _
  exact fun hnone => hent (Option.or_eq_none_iff.mp hnone).2

/-- What `DoLookup` does in a directory of a backend. -/
theorem lookupDir_ok (h : t.Settled left) (hp : BackendDir t p) :
    EndsIn (fun _ t' => t'.Settled left ∧ ¬LooksUpRoot t p name) (fun _ => LooksUpRoot t p name)
      (runs (do
        match ← findChildInode cfg p name found with
        | none => pure (Reply.errno .ENOENT)
        | some i =>
            if ((← globals).use i).pendingDelete then pure (.errno .ENOENT) else lookupOut i)
              t) := by
  have hroot : (t.inode p).inodeType ≠ .FUSERootDir := fun hroot =>
    hp.notRoot (h.names.root_unique p hp.inodeMap hroot)
  -- a name that is new is not the dots
  have hnew : t.names.find p name = none → ¬LooksUpRoot t p name := by
    rintro hnone ⟨-, ⟨htype, -⟩ | ⟨-, rfl, -⟩⟩
    · exact hroot htype
    · exact find_dot h hp.inodeMap hp.isDir (.inr rfl) hnone
  refine lookup_ends cfg h hp fun r t' hok hr => ?_
  cases hr with
  | miss hg hv hf =>
      refine ⟨hok, hnew ?_⟩
      by_contra hne
      obtain ⟨i, hi⟩ := Option.ne_none_iff_exists'.mp hne
      exact nomatch hf.symm.trans (hg.find p name i hi)
  | hit hit =>
      next i =>
      have hlooks : LooksUpRoot t p name ↔
          i = FUSERootDirInodeNumber ∧ (t'.globals.use i).pendingDelete = false := by
        rcases hit.found with hf | hhead
        · rw [find_eq_root_iff h hp hf, hit.grown.globals.pendingDelete]
          constructor
          · rintro ⟨-, ⟨htype, -⟩ | ⟨htype, hname, hpending⟩⟩
            · exact absurd htype hroot
            · rw [(find_eq_root_iff h hp hf).mpr ⟨htype, hname⟩]
              exact ⟨⟨htype, hname⟩, hpending⟩
          · rintro ⟨⟨htype, hname⟩, hpending⟩
            rw [(find_eq_root_iff h hp hf).mpr ⟨htype, hname⟩] at hpending
            exact ⟨hp.inodeMap, .inr ⟨htype, hname, hpending⟩⟩
        · have hne : i ≠ FUSERootDirInodeNumber := by
            rw [hhead]
            exact (h.names.ne_head h.names.root).symm
          refine iff_of_false (hnew ?_) fun hc => hne hc.1
          by_contra hsome
          obtain ⟨j, hj⟩ := Option.ne_none_iff_exists'.mp hsome
          have hji : j = i := Option.some.inj ((hit.grown.find p name j hj).symm.trans hit.find)
          exact h.names.ne_head (h.names.find_inode hp.inodeMap hp.isDir hj).1 (hji.trans hhead)
      dsimp only
      rw [runs_bind, runs_globals, andThen_ok]
      split
      next hpending => exact ⟨hok, fun hl => nomatch (hlooks.mp hl).2.symm.trans hpending⟩
      next hpending =>
        refine (lookupOut_ok hok hit.inodeMap hit.notPending).mono (fun _ t'' ht'' => ?_)
          fun _ hi => hlooks.mpr ⟨hi, Bool.eq_false_iff.mpr hpending⟩
        obtain ⟨rfl, hne⟩ := ht''
        exact ⟨hok, fun hl => hne (hlooks.mp hl).1⟩

/-- **`DoLookup`** ends the process if it finds the root. -/
theorem doLookup_ok (h : t.Settled left) (hnp : ¬t.names.Pending p) :
    EndsIn (fun _ t' => t'.Settled left ∧ ¬LooksUpRoot t p name) (fun _ => LooksUpRoot t p name)
      (runs (doLookup cfg p name found) t) := by
  unfold doLookup
  refine withInode_ends h hnp (fun hgone => ⟨h, fun hc => hgone hc.1⟩) fun hp => ?_
  have hdir : (t.inode p).inodeType ≠ .FileObject → (t.inode p).inodeType ≠ .FUSERootDir →
      BackendDir t p := backendDir h hp
  cases htype : (t.inode p).inodeType with
  -- a file has no entries
  | FileObject =>
      refine ⟨h, ?_⟩
      rintro ⟨-, ⟨hroot, -⟩ | ⟨hroot, -⟩⟩
      · cases htype.symm.trans hroot
      · cases htype.symm.trans hroot
  -- the root knows its dots, and looks up itself only through them
  | FUSERootDir =>
      have hpdir : t.names.isDir p := fun hfile => nomatch htype.symm.trans hfile
      have hlooks : LooksUpRoot t p name ↔ IsDot name := by
        constructor
        · rintro ⟨-, ⟨-, hname⟩ | ⟨hother, -⟩⟩
          · exact hname
          · cases htype.symm.trans hother
        · exact fun hname => ⟨hp, .inl ⟨htype, hname⟩⟩
      rw [hlooks]
      refine find_ends (fun i hf => ?_) fun hf => ⟨h, fun hname => find_dot h hp hpdir hname hf⟩
      obtain ⟨hi, hip⟩ := h.names.find_inode hp hpdir hf
      have hroot : i = FUSERootDirInodeNumber ↔ IsDot name := by
        rcases h.names.find_cases hf with ⟨hname, hent⟩ | ⟨hname, b, hent⟩
        · obtain rfl := h.names.root_unique p hp htype
          obtain ⟨-, -, hself, hup⟩ := h.names.dotEntry _ _ _ hent hname
          exact iff_of_true (hname.elim hself fun hdotdot => (hup hdotdot).trans
            h.names.rootInode.2.1) hname
        · exact iff_of_false (h.names.entry _ _ _ _ hent fun _ => hname).2.1 hname
      rw [runs_bind, runs_childOf hi, andThen_ok]
      refine (lookupOut_ok h hi hip).mono (fun _ t' ht' => ?_) fun _ => hroot.mp
      exact ⟨ht'.1 ▸ h, fun hname => ht'.2 (hroot.mpr hname)⟩
  | BackendRootDir => exact lookupDir_ok cfg h (hdir (by rw [htype]; nofun) (by rw [htype]; nofun))
  | PseudoDir => exact lookupDir_ok cfg h (hdir (by rw [htype]; nofun) (by rw [htype]; nofun))

/-- `DoGetAttr` keeps the tree. -/
theorem doGetAttr_ok (h : t.Settled left) (hnp : ¬t.names.Pending i) :
    EndsIn (fun _ t' => t'.Settled left) (fun _ => True) (runs (doGetAttr cfg i) t) := by
  unfold doGetAttr
  refine withInode_ends h hnp (fun _ => h) fun hi => ?_
  rw [runs_bind, runs_globals, andThen_ok]
  split
  · exact h
  · obtain ⟨t', hrun, -, hok⟩ := touch_ok cfg h hi hnp
    rw [runs_bind, hrun, andThen_ok]
    exact hok.off_mono fun j => And.left

/-- The calls that change a directory of a backend that is not read-only. -/
theorem changes_ends {Q : Reply → FileTree → Prop} {E : FileTree → Prop} {backend : Option Backend}
    {x root file : TreeSection Reply}
    (hfile : (t.inode p).inodeType = .FileObject → EndsIn Q E (runs file t))
    (hroot : (t.inode p).inodeType = .FUSERootDir → EndsIn Q E (runs root t))
    (hreadOnly : backend.any Backend.readOnly = true → Q (.errno .EPERM) t)
    (hx : (t.inode p).inodeType ≠ .FileObject → (t.inode p).inodeType ≠ .FUSERootDir →
      backend.any Backend.readOnly = false → EndsIn Q E (runs x t)) :
    EndsIn Q E (runs (match (t.inode p).inodeType with
      | .FileObject => file
      | .FUSERootDir => root
      | _ => if backend.any Backend.readOnly then pure (.errno .EPERM) else x) t) := by
  cases htype : (t.inode p).inodeType with
  | FileObject => exact hfile htype
  | FUSERootDir => exact hroot htype
  | BackendRootDir =>
      dsimp only
      split
      next hr => exact hreadOnly hr
      next hr => exact hx (by rw [htype]; nofun) (by rw [htype]; nofun) (Bool.eq_false_iff.mpr hr)
  | PseudoDir =>
      dsimp only
      split
      next hr => exact hreadOnly hr
      next hr => exact hx (by rw [htype]; nofun) (by rw [htype]; nofun) (Bool.eq_false_iff.mpr hr)

/-- **`DoMkDir`** -/
theorem doMkDir_ok (h : t.Settled left) (hnp : ¬t.names.Pending p) :
    EndsIn (fun _ t' => t'.Settled left) (fun _ => False) (runs (doMkDir cfg p name found) t) := by
  unfold doMkDir
  refine withInode_ends h hnp (fun _ => h) fun hp => ?_
  refine changes_ends (fun _ => h) (fun _ => h) (fun _ => h) fun hfile hroot _ => ?_
  refine lookup_ends cfg h (backendDir h hp hfile hroot) fun r t' hok hr => ?_
  cases hr with
  | hit hit => exact hok
  | miss hg hv hf =>
      have hp' := (backendDir h hp hfile hroot).grown h hg
      rw [runs_map]
      refine (createPseudoDirInode_ok cfg hok (hp'.room hf) true).andThen fun i t'' ht'' => ?_
      exact ht''.1.off_mono fun j => And.left

/-- A file is marked as unlinked. -/
theorem markPendingDelete_ok (h : t.Settled left) (hi : t.inodeMap i) (hnp : ¬t.names.Pending i)
    (hpd : i ∉ t.globals.pendingDeletes) :
    (t.modify fun g => g.markPendingDelete i).Ok left NoneBare fun j => False ∨ j = i := by
  have hhandle : ∀ fh ∈ (t.globals.use i).fhSet, ∃ f, t.globals.fhMap fh = some f ∧ f.inode = i :=
    fun fh => h.calls.handle i fh hi
  refine setUse_ok h hi hnp _ hhandle (h.calls.handle_nodup i) (fun fh f hf hsome heq => ?_)
    (fun hmem => absurd hmem hpd) rfl
  rcases (h.calls.listing fh f hf hsome).2.2.2 with ⟨-, hl⟩ | ⟨hgone, -⟩
  · rw [heq] at hl
    exact hl
  · exact absurd (by rw [heq]; exact hi) hgone

/-- A `finishPendingDelete` starts. -/
theorem addPendingDelete_ok (h : t.Ok left NoneBare off) (hi : t.inodeMap i)
    (hnp : ¬t.names.Pending i) (htype : (t.inode i).inodeType = .FileObject)
    (hpd : (t.globals.use i).pendingDelete) (hfh : (t.globals.use i).fhSet = [])
    (hnot : i ∉ t.globals.pendingDeletes) :
    (t.modify fun g => g.addPendingDelete i).Ok left NoneBare off := by
  have hc := h.calls
  refine h.modify _ rfl (fun _ ho => ⟨ho, id⟩) (fun j hj => ?_) ⟨hc.handle, hc.handle_nodup,
    hc.pages, hc.listing, hc.prefetch, fun j hj => ?_, List.nodup_cons.mpr ⟨hnot,
      hc.pendingDelete_nodup⟩, hc.lines⟩
  · exact ⟨(h.blank j hj).2.use, (h.blank j hj).2.fhMap, (h.blank j hj).2.line⟩
  · rcases List.mem_cons.mp hj with rfl | hj
    · exact ⟨h.given hi, htype, h.names.file j hi htype, .inl ⟨hi, hnp, hpd, hfh⟩⟩
    · exact hc.pendingDelete j hj

/-- What `DoUnlink` does to what it has found. -/
theorem unlinkFound_ok (h : t.Settled left) (hp : BackendDir t p) :
    EndsIn (fun _ t' => t'.Settled left) (fun _ => False) (runs (do
      match ← findChildInode cfg p name found with
      | none => pure (Reply.errno .ENOENT)
      | some i =>
          if ((← globals).use i).pendingDelete then pure (.errno .ENOENT)
          else if (← deref i).inodeType ≠ .FileObject then
            touch cfg i
            pure (.errno .EISDIR)
          else
            modify fun g => g.markPendingDelete i
            touch cfg i
            if ((← globals).use i).fhSet ≠ [] then pure .done
            else
              modify fun g => g.addPendingDelete i
              pure .waiting) t) := by
  refine lookup_ends cfg h hp fun r t₂ h₂ hr => ?_
  cases hr with
  -- nothing is found
  | miss hg hv hf => exact h₂
  | hit hit =>
      next i =>
      dsimp only
      rw [runs_bind, runs_globals, andThen_ok]
      -- already to be deleted
      split
      · exact h₂
      next hpending =>
        rw [runs_bind, runs_deref, andThen_ok]
        -- a directory cannot be unlinked
        split
        · obtain ⟨t₃, hrun₃, -, hok₃⟩ := touch_ok cfg h₂ hit.inodeMap hit.notPending
          rw [runs_bind, hrun₃, andThen_ok]
          exact hok₃.off_mono fun j => And.left
        next htype =>
          rw [not_not] at htype
          have hnot := not_pendingDelete h₂ hit.inodeMap fun hc => hpending hc.2.1
          have h₃ := markPendingDelete_ok h₂ hit.inodeMap hit.notPending hnot
          rw [runs_bind, runs_modify, andThen_ok]
          obtain ⟨t₄, hrun₄, ht₄, hok₄⟩ := touch_ok cfg h₃ hit.inodeMap hit.notPending
          have h₄ : t₄.Settled left := hok₄.off_mono fun j hj => hj.1.elim id fun heq => hj.2 heq
          obtain ⟨now, hg₄⟩ := ht₄.globals
          rw [runs_bind, hrun₄, andThen_ok, runs_bind, runs_globals, andThen_ok]
          -- with a handle open the deletion waits for its release
          split
          · exact h₄
          next hfh =>
            rw [not_not] at hfh
            rw [runs_bind, runs_modify, andThen_ok]
            refine addPendingDelete_ok h₄ ?_ ?_ ?_ ?_ hfh ?_
            · rw [show t₄.inodeMap = t₂.inodeMap from congrArg Names.inodeMap ht₄.names]
              exact hit.inodeMap
            · rw [ht₄.names]
              exact hit.notPending
            · rw [show t₄.inode = t₂.inode from congrArg Names.inode ht₄.names]
              exact htype
            · rw [hg₄]
              show ((t₂.globals.markPendingDelete i).use i).pendingDelete = true
              simp only [Globals.markPendingDelete, Globals.setUse, Function.update_self]
            · rw [hg₄]
              exact hnot

/-- **`DoUnlink`**, up to `finishPendingDelete`. -/
theorem doUnlink_ok (h : t.Settled left) (hnp : ¬t.names.Pending p) :
    EndsIn (fun _ t' => t'.Settled left) (fun _ => False) (runs (doUnlink cfg p name found) t) := by
  unfold doUnlink
  refine withInode_ends h hnp (fun _ => h) fun hp => ?_
  obtain ⟨t₁, hrun₁, ht₁, hok₁⟩ := touch_ok cfg h hp hnp
  have h₁ : t₁.Settled left := hok₁.off_mono fun j => And.left
  have hp₁ : t₁.inodeMap p := by
    rw [show t₁.inodeMap = t.inodeMap from congrArg Names.inodeMap ht₁.names]
    exact hp
  have hinode₁ : t₁.inode = t.inode := congrArg Names.inode ht₁.names
  rw [runs_bind, hrun₁, andThen_ok, ← hinode₁]
  have hdir := backendDir h₁ hp₁
  cases htype : (t₁.inode p).inodeType with
  | FUSERootDir => exact h₁
  | FileObject => exact h₁
  | BackendRootDir =>
      dsimp only
      split
      · exact h₁
      · exact unlinkFound_ok cfg h₁ (hdir (by rw [htype]; nofun) (by rw [htype]; nofun))
  | PseudoDir =>
      dsimp only
      split
      · exact h₁
      · exact unlinkFound_ok cfg h₁ (hdir (by rw [htype]; nofun) (by rw [htype]; nofun))

/-! ### Opening and releasing -/

theorem runs_handle (h : t.Ok left NoneBare off) (hi : t.inodeMap i)
    (hmem : fh ∈ (t.globals.use i).fhSet) :
    ∃ f, t.globals.fhMap fh = some f ∧ f.inode = i ∧ runs (handleOf fh) t = (.ok f, t) := by
  obtain ⟨f, hf, hinode⟩ := h.calls.handle i fh hi hmem
  exact ⟨f, hf, hinode, runs_handleOf hf⟩

/-- A handle of which nothing has been read. -/
theorem newFh_pages {isExclusive allowReads serveFromBPTree : Bool} :
    PagesOk (newFh i isExclusive allowReads serveFromBPTree) :=
  fun _ _ hlt => absurd hlt (Nat.not_lt_zero _)

/-- `DoOpen` keeps the tree. -/
theorem doOpen_ok {isExclusive : Bool} {mode : AccessMode} (h : t.Settled left)
    (hnp : ¬t.names.Pending i) : EndsIn (fun _ t' => t'.Settled left) (fun _ => True)
      (runs (doOpen cfg i isExclusive mode) t) := by
  unfold doOpen
  refine withInode_ends h hnp (fun _ => h) fun hi => ?_
  generalize t.globals.backendMap (t.inode i).backendNonce = backend
  dsimp only
  rw [runs_bind, runs_globals, andThen_ok]
  -- already to be deleted
  split
  · exact h
  next hpending =>
    -- not a file
    split
    · exact h
    · have hnot := not_pendingDelete h hi fun hc => hpending hc.2.1
      -- what is common to both: a mode the backend refuses, or a new handle
      have hrest : ∀ isTaken : Bool, EndsIn (fun _ t' => t'.Settled left) (fun _ => True)
          (runs (if isTaken then pure (Reply.errno .EACCES)
            else if mode ≠ .RDONLY && backend.any Backend.readOnly then pure (.errno .EACCES)
            else openFh cfg (newFh i isExclusive (mode ≠ .WRONLY) false)) t) := by
        intro isTaken
        split
        · exact h
        · split
          · exact h
          · exact openFh_ok cfg h hi hnp newFh_pages rfl hnot
      split
      next fh heq =>
        obtain ⟨f, -, -, hrun⟩ := runs_handle h hi (by rw [heq]; exact List.mem_singleton_self fh)
        rw [runs_bind, runs_map, hrun, andThen_ok, andThen_ok]
        exact hrest f.isExclusive
      · rw [runs_bind, runs_pure, andThen_ok]
        exact hrest false

/-- `DoOpenDir` keeps the tree. -/
theorem doOpenDir_ok (h : t.Settled left) (hnp : ¬t.names.Pending i) :
    EndsIn (fun _ t' => t'.Settled left) (fun _ => True) (runs (doOpenDir cfg i) t) := by
  have hopen : ∀ b, t.inodeMap i → (t.inode i).inodeType ≠ .FileObject →
      EndsIn (fun _ t' => t'.Settled left) (fun _ => True)
        (runs (openFh cfg (newFh i false false b)) t) := fun b hi htype =>
    openFh_ok cfg h hi hnp newFh_pages rfl (not_pendingDelete h hi fun hc => htype hc.1)
  unfold doOpenDir
  refine withInode_ends h hnp (fun _ => h) fun hi => ?_
  cases htype : (t.inode i).inodeType with
  | FileObject => exact h
  | FUSERootDir => exact hopen false hi (by rw [htype]; nofun)
  | BackendRootDir =>
      dsimp only
      split
      · obtain ⟨b, hrun, -⟩ := runs_physIsEmpty t i
        rw [runs_bind, hrun, andThen_ok]
        exact hopen _ hi (by rw [htype]; nofun)
      · exact hopen false hi (by rw [htype]; nofun)
  | PseudoDir =>
      dsimp only
      split
      · obtain ⟨b, hrun, -⟩ := runs_physIsEmpty t i
        rw [runs_bind, hrun, andThen_ok]
        exact hopen _ hi (by rw [htype]; nofun)
      · exact hopen false hi (by rw [htype]; nofun)

/-- A handle is deleted, and its inode is touched. -/
theorem releaseFh_ok (h : t.Settled left) (hi : t.inodeMap i) (hnp : ¬t.names.Pending i)
    (hmem : fh ∈ (t.globals.use i).fhSet) :
    ∃ t', runs (touch cfg i) (t.modify fun g => g.deleteFh i fh) = (.ok (), t') ∧
      t'.Settled left ∧ t'.names = t.names ∧
      t'.globals.pendingDeletes = t.globals.pendingDeletes := by
  have h₁ := deleteFh_ok h hi hnp hmem
  obtain ⟨t₂, hrun, ht, hok⟩ := touch_ok cfg h₁ hi hnp
  obtain ⟨now, hg⟩ := ht.globals
  refine ⟨t₂, hrun, hok.off_mono fun j hj => hj.1.elim id fun heq => hj.2 heq, ht.names, ?_⟩
  rw [hg]
  rfl

/-- `DoReleaseDir` keeps the tree. -/
theorem doReleaseDir_ok (h : t.Settled left) (hnp : ¬t.names.Pending i) :
    EndsIn (fun _ t' => t'.Settled left) (fun _ => True) (runs (doReleaseDir cfg i fh) t) := by
  unfold doReleaseDir
  refine withInode_ends h hnp (fun _ => h) fun hi => ?_
  rw [runs_bind, runs_globals, andThen_ok]
  split
  · exact h
  next hmem =>
    rw [not_not] at hmem
    obtain ⟨f, hf, hinode, hrun⟩ := runs_handle h hi hmem
    rw [runs_bind, hrun, andThen_ok]
    split
    · exact h
    · split
      · exact h
      · obtain ⟨t', hrun', hok, -⟩ := releaseFh_ok cfg h hi hnp hmem
        rw [runs_bind, runs_modify, andThen_ok, runs_bind, hrun', andThen_ok]
        exact hok

/-- `DoRelease` keeps the tree. -/
theorem doRelease_ok (h : t.Settled left) (hnp : ¬t.names.Pending i) :
    EndsIn (fun _ t' => t'.Settled left) (fun _ => True) (runs (doRelease cfg i fh) t) := by
  have htouch : t.inodeMap i → ∀ r : Reply, EndsIn (fun _ t' => t'.Settled left) (fun _ => True)
      (runs (do touch cfg i; pure r) t) := by
    intro hi r
    obtain ⟨t', hrun, -, hok⟩ := touch_ok cfg h hi hnp
    rw [runs_bind, hrun, andThen_ok]
    exact hok.off_mono fun j => And.left
  unfold doRelease
  refine withInode_ends h hnp (fun _ => h) fun hi => ?_
  -- not a file
  split
  · exact htouch hi _
  next htype =>
    rw [not_not] at htype
    rw [runs_bind, runs_globals, andThen_ok]
    -- no handle of this number
    split
    · exact htouch hi _
    next hmem =>
      rw [not_not] at hmem
      obtain ⟨f, hf, hinode, hrun⟩ := runs_handle h hi hmem
      obtain ⟨t', hrun', hok, hn, hpd⟩ := releaseFh_ok cfg h hi hnp hmem
      rw [runs_bind, hrun, andThen_ok, runs_bind, runs_modify, andThen_ok, runs_bind, hrun',
        andThen_ok]
      dsimp only
      rw [runs_bind, runs_globals, andThen_ok]
      -- handles are left, or there is nothing to delete
      split
      · exact hok
      next hdelete =>
        simp only [Bool.or_eq_true, Bool.not_eq_true', decide_eq_true_eq, not_or, Bool.not_eq_false,
          not_not] at hdelete
        -- the last handle of a file that is to be deleted
        have hnot := not_pendingDelete h hi fun hc => by
          rw [hc.2.2] at hmem
          cases hmem
        rw [runs_bind, runs_modify, andThen_ok]
        refine addPendingDelete_ok hok ?_ ?_ ?_ hdelete.1 hdelete.2 (by rw [hpd]; exact hnot)
        · rw [show t'.inodeMap = t.inodeMap from congrArg Names.inodeMap hn]
          exact hi
        · rw [hn]
          exact hnp
        · rw [show t'.inode = t.inode from congrArg Names.inode hn]
          exact htype

end TreeSection

end MultiStorageFileSystem
