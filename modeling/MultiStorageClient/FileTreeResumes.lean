/-
MultiStorageClient/FileTreeResumes.lean

A reader of a directory that goes back to the start, or to an entry that it has
got, while others make, remove and evict entries.

An `Off` is a position among the names of the directory, not an entry: what
comes behind an entry (`Behind`) is at or behind its `Off` only as long as the
names in front of it are as many as they were, and the handle still keeps the
page.  Where this holds of a name at every call, the reader gets the name once
(`resume_gets_once`).  One name is followed through a call (`Part`), as the
others come and go.
-/
import MultiStorageClient.FileTreeReaders

namespace MultiStorageFileSystem

open Prog Run TreeSection FileTree

/-- The `Off` of an entry, or the start. -/
def offOf (p : Option DirEnt) : ℕ := (p.map DirEnt.off).getD 0

/-- A name comes behind an entry: the names of the listing have their places, and
the virt entries behind it are sorted. -/
def Behind (L : List String) (p : Option DirEnt) (name : String) : Prop :=
  if name ∈ L then offOf p ≤ L.idxOf name
  else offOf p ≤ L.length ∨ ∀ e ∈ p, e.name < name

instance (L : List String) (p : Option DirEnt) (name : String) : Decidable (Behind L p name) := by
  unfold Behind
  infer_instance

/-! ### Places in a list -/

section Places

variable {E L rest : List String} {name other : String} {c k : ℕ}

/-- What is at a place is the name whose place it is. -/
theorem idxOf_eq_iff (name : String) (hE : E.Nodup) (hk : E[k]? = some other) :
    E.idxOf name = k ↔ other = name := by
  obtain ⟨hlt, rfl⟩ := List.getElem?_eq_some_iff.mp hk
  constructor
  · rintro rfl
    exact List.getElem_idxOf hlt
  · rintro rfl
    exact hE.idxOf_getElem k hlt

/-- Behind the listing, the order of the names is the order of the places. -/
theorem lt_iff_of_sorted (hrest : rest.Pairwise (· < ·)) (hk : rest[k]? = some other)
    (hname : name ∈ rest) : other < name ↔ k < rest.idxOf name := by
  obtain ⟨hlt, rfl⟩ := List.getElem?_eq_some_iff.mp hk
  have hi := List.idxOf_lt_length_iff.mpr hname
  have hat : rest[rest.idxOf name] = name := List.getElem_idxOf hi
  rw [List.pairwise_iff_getElem] at hrest
  rcases lt_trichotomy k (rest.idxOf name) with h | h | h
  · have hless := hrest k (rest.idxOf name) hlt hi h
    rw [hat] at hless
    exact ⟨fun _ => h, fun _ => hless⟩
  · subst h
    rw [hat]
    exact ⟨fun hless => absurd hless (lt_irrefl _), fun hless => absurd hless (lt_irrefl _)⟩
  · have hless := hrest (rest.idxOf name) k hi hlt h
    rw [hat] at hless
    exact ⟨fun hgt => absurd hgt hless.asymm, fun hgt => absurd hgt h.asymm⟩

/-- What comes behind an entry has its place at or behind the `Off`. -/
theorem behind_iff (hrest : rest.Pairwise (· < ·)) (hname : name ∈ L ++ rest) {e : DirEnt}
    (hpos : 0 < e.off) (he : (L ++ rest)[e.off - 1]? = some e.name) :
    Behind L (some e) name ↔ e.off ≤ (L ++ rest).idxOf name := by
  unfold Behind
  by_cases hL : name ∈ L
  · rw [if_pos hL, List.idxOf_append_of_mem hL]
    rfl
  · rw [if_neg hL, List.idxOf_append_of_notMem hL]
    show e.off ≤ L.length ∨ (∀ e' ∈ some e, e'.name < name) ↔ _
    by_cases hoff : e.off ≤ L.length
    · exact ⟨fun _ => hoff.trans (Nat.le_add_right ..), fun _ => .inl hoff⟩
    · have hmem := (List.mem_append.mp hname).resolve_left hL
      rw [List.getElem?_append_right (by omega)] at he
      have hlt := lt_iff_of_sorted hrest he hmem
      constructor
      · rintro (hle | hless)
        · exact absurd hle hoff
        · have := hlt.mp (hless e rfl)
          omega
      · intro hle
        refine .inr fun e' he' => ?_
        obtain rfl := Option.mem_some_iff.mp he'
        exact hlt.mpr (by omega)

/-- Up to the end of the listing, the places do not depend on what is behind it. -/
theorem idxOf_lt_iff (rest : List String) (name : String) (hc : c ≤ L.length) :
    (L ++ rest).idxOf name < c ↔ L.idxOf name < c := by
  by_cases hL : name ∈ L
  · rw [List.idxOf_append_of_mem hL]
  · rw [List.idxOf_append_of_notMem hL, List.idxOf_eq_length hL]
    omega

end Places

/-! ### One name in a call -/

/-- What a call that starts at `s` has of a name of `E`. -/
structure Part (E : List String) (name : String) (s : ℕ) (call : ReadDirCall) : Prop where
  le : s ≤ call.curOffset
  count : (call.dirEnt.map DirEnt.name).count name =
    if s ≤ E.idxOf name ∧ E.idxOf name < call.curOffset then 1 else 0
  size : call.dirEnt = [] → call.curSize = 0
  last : ∀ e ∈ call.dirEnt.getLast?, s < e.off ∧ e.off ≤ call.curOffset ∧
    E[e.off - 1]? = some e.name ∧ ¬(e.off ≤ E.idxOf name ∧ E.idxOf name < call.curOffset)

namespace Part

variable {cfg : TreeConfig} {unlinked : String → Bool} {E L rest rest' : List String}
  {name other : String} {s : ℕ} {call call' : ReadDirCall}

/-- A call starts. -/
theorem start {size : ℕ} : Part E name s ⟨false, s, size, [], 0⟩ :=
  ⟨le_rfl, (if_neg fun hc => absurd hc.2 (not_lt.mpr hc.1)).symm, fun _ => rfl, nofun⟩

/-- Another name is skipped. -/
theorem skip (h : Part E name s call) (hne : E.idxOf name ≠ call.curOffset) :
    Part E name s { call with curOffset := call.curOffset + 1 } := by
  refine ⟨h.le.trans (Nat.le_succ _), ?_, h.size, fun e he => ?_⟩
  · rw [h.count]
    apply if_congr _ rfl rfl
    dsimp only
    omega
  · obtain ⟨hlt, hle, hat, hnot⟩ := h.last e he
    refine ⟨hlt, hle.trans (Nat.le_succ _), hat, ?_⟩
    dsimp only
    omega

/-- A name is added. -/
theorem add (h : Part E name s call) (hE : E.Nodup) (hother : E[call.curOffset]? = some other)
    (type : DirEntType) (i : ℕ) :
    Part E name s (added cfg { call with curOffset := call.curOffset + 1 } type i other) := by
  have hiff := idxOf_eq_iff name hE hother
  have hle := h.le
  refine ⟨hle.trans (Nat.le_succ _), ?_, fun hnil => ?_, fun e he => ?_⟩
  · show ((call.dirEnt ++ [(⟨i, call.curOffset + 1, type, other⟩ : DirEnt)]).map
        DirEnt.name).count name =
      if s ≤ E.idxOf name ∧ E.idxOf name < call.curOffset + 1 then 1 else 0
    rw [List.map_append, List.count_append, h.count, List.map_singleton]
    by_cases heq : other = name
    · have hidx := hiff.mpr heq
      subst heq
      rw [List.count_singleton_self, if_neg (by omega), if_pos (by omega)]
    · have hidx : E.idxOf name ≠ call.curOffset := fun hc => heq (hiff.mp hc)
      have hnone : [other].count name = 0 :=
        List.count_eq_zero_of_not_mem fun hmem => heq (List.mem_singleton.mp hmem).symm
      rw [hnone, Nat.add_zero]
      exact if_congr (by omega) rfl rfl
  · exact absurd hnil (List.append_ne_nil_of_right_ne_nil _ (by nofun))
  · have hlast :
      (added cfg { call with curOffset := call.curOffset + 1 } type i other).dirEnt.getLast? =
        some ⟨i, call.curOffset + 1, type, other⟩ := List.getLast?_concat
    rw [hlast] at he
    obtain rfl := Option.mem_some_iff.mp he
    refine ⟨Nat.lt_succ_of_le hle, le_rfl, hother, fun hc => ?_⟩
    exact absurd hc.2 (not_lt.mpr hc.1)

/-- A section of the call serves some names. -/
theorem serves (h : Part E name s call) (hE : E.Nodup) (hu : unlinked name = false)
    (hserves : Serves cfg unlinked E call call') : Part E name s call' := by
  induction hserves with
  | refl _ => exact h
  | @skip call call' other hother huo _ ih =>
      refine ih (h.skip fun hidx => ?_)
      rw [(idxOf_eq_iff name hE hother).mp hidx, hu] at huo
      cases huo
  | add type i hother _ _ _ ih => exact ih (h.add hE hother type i)

/-- A call that is not behind the listing does not depend on what is there. -/
theorem of_listed (h : Part (L ++ rest) name s call) (hle : call.curOffset ≤ L.length) :
    Part (L ++ rest') name s call := by
  have hs := h.le
  have hcur := idxOf_lt_iff rest name hle
  have hcur' := idxOf_lt_iff rest' name hle
  refine ⟨hs, ?_, h.size, fun e he => ?_⟩
  · have hstart := idxOf_lt_iff rest name (hs.trans hle)
    have hstart' := idxOf_lt_iff rest' name (hs.trans hle)
    rw [h.count]
    exact if_congr (by omega) rfl rfl
  · obtain ⟨hlt, hoff, hat, hnot⟩ := h.last e he
    have hend := idxOf_lt_iff rest name (hoff.trans hle)
    have hend' := idxOf_lt_iff rest' name (hoff.trans hle)
    refine ⟨hlt, hoff, ?_, by omega⟩
    rw [List.getElem?_append_left (by omega)] at hat ⊢
    exact hat

end Part

/-- The entries of a call end at its offset. -/
theorem Serves.off_le {cfg : TreeConfig} {unlinked : String → Bool} {E : List String}
    {call call' : ReadDirCall} (h : Serves cfg unlinked E call call')
    (hoff : ∀ e ∈ call.dirEnt, e.off ≤ call.curOffset) :
      ∀ e ∈ call'.dirEnt, e.off ≤ call'.curOffset := by
  induction h with
  | refl _ => exact hoff
  | skip _ _ _ ih => exact ih fun e he => (hoff e he).trans (Nat.le_succ _)
  | add type i _ _ _ _ ih =>
      refine ih fun e he => ?_
      rcases List.mem_append.mp he with he | he
      · exact (hoff e he).trans (Nat.le_succ _)
      · rw [List.mem_singleton.mp he]
        exact le_rfl

theorem FileTree.Cleared.max {t : FileTree} {d : ℕ} {L : List String} {c c' : ℕ}
    (h : t.Cleared d L c) (h' : t.Cleared d L c') : t.Cleared d L (max c c') := by
  rcases max_choice c c' with hc | hc
  · rw [hc]
    exact h
  · rw [hc]
    exact h'

namespace DirReader

variable (cfg : TreeConfig) (list : String → ListDirectoryOutput) (d fh : ℕ)
  (pages : List ListDirectoryOutput)

/-- The reader goes back to an entry, or to the start. -/
def resume (r : DirReader) (p : Option DirEnt) : DirReader :=
  { r with got := p.toList, ended := false }

/-- The reader calls at any `Off` that it has got, and others do something else. -/
def Wanders (r : DirReader) : DirReaderStep → Prop
  | .other s => ∀ t' ∈ r.tree.step cfg s, Meanwhile d fh (pageNames pages) r.tree t'
  | _ => True

variable {cfg list d fh pages} {plus : Bool} {manifest : List ManifestPartEntry}
  {r r' : DirReader} {f f' : Fh}
  {rcv rest : List ListDirectoryOutput} {top : ℕ} {call call' : ReadDirCall}

/-! ### Calls at any offset -/

/-- What holds of a reader that calls at any offset up to `top`. -/
structure Wandering (plus : Bool) (manifest : List ManifestPartEntry)
    (list : String → ListDirectoryOutput) (d fh : ℕ) (pages : List ListDirectoryOutput)
    (r : DirReader)
    (f : Fh) (rcv rest : List ListDirectoryOutput) (top : ℕ) : Prop where
  reading : Reading plus manifest list pages d fh r.tree f rcv rest
  idle : r.busy = false → f.listDirectoryInProgress = none
  busy : r.busy = true → ∃ call, Awaits plus f call ∧ call.curOffset ≤ top ∧
    ∀ e ∈ call.dirEnt, e.off ≤ call.curOffset
  unfinished : f.listDirectorySequenceDone = false → top ≤ (fileNames rcv).length
  kept : f.prevListDirectoryOutputStartingOffset ≤ top
  offsets : ∀ e ∈ r.got, e.off ≤ top
  cleared : r.tree.Cleared d (pageNames pages) top

/-- A section of a call, which goes from `call` to `call'`. -/
structure Goes (plus : Bool) (cfg : TreeConfig) (d : ℕ) (L : List String) (r r' : DirReader)
    (f' : Fh)
    (call call' : ReadDirCall) : Prop where
  unlinked : ∀ n, r'.tree.unlinked d n = r.tree.unlinked d n
  rest : r'.tree.restNames d L = r.tree.restNames d L
  serves : Serves cfg (r.tree.unlinked d) (r.tree.listing d L) call call'
  proceeds : r.Proceeds r'
  ends : r'.busy = true ∧ r'.got = r.got ∧ r'.ended = r.ended ∧ Awaits plus f' call' ∧
      call'.curOffset ≤ L.length ∨
    r'.busy = false ∧ r'.got = r.got ++ call'.dirEnt ∧ r'.ended = call'.dirEnt.isEmpty ∧
      ((r.tree.listing d L).length ≤ call'.curOffset ∨ ∃ n ∈ r.tree.listing d L,
        call'.size < call'.curSize + cfg.dirEntSize call'.plus n)

theorem length_fileNames_le (hpages : rcv ++ rest = pages) :
    (fileNames rcv).length ≤ (pageNames pages).length := by
  rw [← hpages]
  unfold pageNames fileNames
  rw [List.flatMap_append, List.length_append, List.length_append]
  omega

/-- A section has gone through the loop. -/
theorem Wandering.of_loop {t' : FileTree} {reply : Reply} (hdirect : f.Direct plus manifest)
    (hpages : rcv ++ rest = pages)
    (hreceived : f.Received rcv) (hremains : Remains list f rcv rest)
    (hidle : f.listDirectoryInProgress = none)
    (hprev : f.prevListDirectoryOutputStartingOffset ≤ call.curOffset) (hplus : call.plus = plus)
    (hok : t'.Settled True) (hloop : LoopOk cfg f d fh (pageNames pages) r.tree call reply t')
    (hcall : call.curOffset ≤ top) (hoff : ∀ e ∈ call.dirEnt, e.off ≤ call.curOffset)
    (hunfinished : f.listDirectorySequenceDone = false → top ≤ (fileNames rcv).length)
    (hoffsets : ∀ e ∈ r.got, e.off ≤ top) (hcleared : r.tree.Cleared d (pageNames pages) top) :
    ∃ f' call' top', Wandering plus manifest list d fh pages (r.replied t' reply) f' rcv rest top' ∧
      Goes plus cfg d (pageNames pages) r (r.replied t' reply) f' call call' := by
  obtain ⟨f', call', hreading, hcalm, hserves, hclear', hprev', hdone, hwithin, hends⟩ :=
    Reading.of_loop hdirect hpages hreceived hremains hidle hprev hplus hok hloop
  have hclear : t'.Cleared d (pageNames pages) (max top call'.curOffset) :=
    FileTree.Cleared.max (fun n hn hv => hcleared n hn (hcalm.virtNames hv)) hclear'
  have hlisted : f.listDirectorySequenceDone = false →
      max top call'.curOffset ≤ (fileNames rcv).length := fun hd =>
    max_le (hunfinished hd)
      ((hwithin hd).trans (max_le (hcall.trans (hunfinished hd)) le_rfl))
  have hproceeds := proceeds_of_loop (r := r) hloop
  refine ⟨f', call', max top call'.curOffset, ?_, ?_⟩
  -- the call waits for a page, or has been answered
  · rcases hends with ⟨rfl, hawaits⟩ | ⟨rfl, hidle', -⟩
    · exact ⟨hreading, nofun, fun _ => ⟨call', hawaits, le_max_right _ _, hserves.off_le hoff⟩,
        fun hd => hlisted (hdone.symm.trans hd), hprev'.trans (le_max_right _ _),
        fun e he => (hoffsets e he).trans (le_max_left _ _), hclear⟩
    · refine ⟨hreading, fun _ => hidle', nofun, fun hd => hlisted (hdone.symm.trans hd),
        hprev'.trans (le_max_right _ _), fun e he => ?_, hclear⟩
      rcases List.mem_append.mp he with he | he
      · exact (hoffsets e he).trans (le_max_left _ _)
      · exact (hserves.off_le hoff e he).trans (le_max_right _ _)
  · refine ⟨?_, ?_, hserves, hproceeds, ?_⟩
    · rcases hends with ⟨rfl, -⟩ | ⟨rfl, -⟩ <;> exact hcalm.unlinked
    · rcases hends with ⟨rfl, -⟩ | ⟨rfl, -⟩ <;> exact hcalm.rest
    · rcases hends with ⟨rfl, hawaits⟩ | ⟨rfl, -, hend⟩
      · refine .inl ⟨rfl, rfl, rfl, hawaits, ?_⟩
        have hnot : f.listDirectorySequenceDone = false := hdone.symm.trans hawaits.notDone
        exact (le_max_right _ _).trans ((hlisted hnot).trans (length_fileNames_le hpages))
      · refine .inr ⟨rfl, rfl, rfl, hend.imp_right ?_⟩
        rintro ⟨n, hn, -, hroom⟩
        exact ⟨n, List.mem_of_getElem? hn, hroom⟩

/-- A call starts at an `Off` that the reader has got. -/
theorem Wandering.calls (h : Wandering plus manifest list d fh pages r f rcv rest top)
    (cfg : TreeConfig)
    (size : ℕ) (now : ℕ → ℕ) (hL : ∀ n ∈ pageNames pages, ¬IsDot n) (hbusy : r.busy = false)
    {offset : ℕ} (hoffset : offset ∈ r.offsets) :
    ∃ r' f' call' top', r.after cfg ⟨.doReadDir plus d fh offset size manifest, now⟩ = some r' ∧
      Wandering plus manifest list d fh pages r' f' rcv rest top' ∧
      Goes plus cfg d (pageNames pages) r r' f' ⟨plus, max offset (r.keptFrom fh), size, [],
        0⟩ call' := by
  have hle : offset ≤ top := by
    rcases List.mem_cons.mp hoffset with rfl | hmem
    · exact Nat.zero_le _
    · obtain ⟨e, he, rfl⟩ := List.mem_map.mp hmem
      exact h.offsets e he
  have hstart := max_le hle h.kept
  obtain ⟨reply, t', hrun, hok, hloop⟩ :=
    h.reading.calls cfg now size hL (h.idle hbusy) fun n hn => h.cleared n
      (List.take_subset_take_left _ hstart hn)
  obtain ⟨f', call', top', hwandering, hgoes⟩ :=
    Wandering.of_loop h.reading.direct h.reading.pages h.reading.received
    h.reading.remains (h.idle hbusy) (le_max_right _ _) rfl hok hloop hstart nofun h.unfinished
    h.offsets h.cleared
  rw [keptFrom_eq fh h.reading.reads.fhMap]
  refine ⟨r.replied t' reply, f', call', top', ?_, hwandering, hgoes⟩
  unfold after
  rw [hrun]

/-- The backend lists a page. -/
theorem Wandering.lists (h : Wandering plus manifest list d fh pages r f rcv rest top)
    (cfg : TreeConfig)
    (now : ℕ → ℕ) (hL : ∀ n ∈ pageNames pages, ¬IsDot n) (hbusy : r.busy = true)
    (hcall : f.listDirectoryInProgress = some call) :
    ∃ r' f' rest' call' top', r.after cfg ⟨.readDirListed fh (some (r.page list fh)) manifest,
      now⟩ =
        some r' ∧ r'.listed = r.listed ∧
      Wandering plus manifest list d fh pages { r' with listed := r'.listed + 1 } f'
        (rcv ++ [r.page list fh]) rest'
        top' ∧
      Goes plus cfg d (pageNames pages) r { r' with listed := r'.listed + 1 } f' call call' := by
  obtain ⟨call₀, hawaits, hle, hoff⟩ := h.busy hbusy
  obtain rfl := Option.some.inj (hcall.symm.trans hawaits.inProgress)
  have hunfinished := h.unfinished hawaits.notDone
  obtain ⟨reply, t', f₁, rest', hrun, hok, hpages, hdirect, hreceived, hremains, hidle, hprev,
    hloop⟩ := h.reading.lists cfg now hawaits hL fun n hn =>
      h.cleared n (List.take_subset_take_left _ hle hn)
  have hmore : (fileNames rcv).length ≤ (fileNames (rcv ++ [list f.continuationToken])).length := by
    rw [fileNames_snoc, List.length_append]
    exact Nat.le_add_right ..
  obtain ⟨f', call', top', hw, hg⟩ :=
    Wandering.of_loop hdirect hpages hreceived hremains hidle hprev
    hawaits.plus_eq hok hloop hle hoff (fun _ => hunfinished.trans hmore) h.offsets h.cleared
  rw [page_eq fh h.reading.reads.fhMap]
  refine ⟨r.replied t' reply, f', rest', call', top', ?_, ?_, ?_, ?_⟩
  · unfold after
    rw [hrun]
  · cases reply <;> rfl
  · exact ⟨hw.reading, hw.idle, hw.busy, hw.unfinished, hw.kept, hw.offsets, hw.cleared⟩
  · exact ⟨hg.unlinked, hg.rest, hg.serves, hg.proceeds, hg.ends⟩

/-- A listing fails. -/
theorem Wandering.fails (h : Wandering plus manifest list d fh pages r f rcv rest top)
    (cfg : TreeConfig)
    (now : ℕ → ℕ) (hbusy : r.busy = true) :
      ∃ t', r.after cfg ⟨.readDirListed fh none manifest, now⟩ =
        some { r with tree := t', busy := false } ∧
      Wandering plus manifest list d fh pages { r with tree := t', busy := false }
        { f with listDirectoryInProgress := none } rcv rest top ∧
      (∀ n, t'.unlinked d n = r.tree.unlinked d n) ∧
      t'.restNames d (pageNames pages) = r.tree.restNames d (pageNames pages) := by
  obtain ⟨call, hawaits, -, -⟩ := h.busy hbusy
  obtain ⟨t', hrun, hreading, hcalm, -⟩ := h.reading.fails cfg now hawaits
    (pageNames pages)
  refine ⟨t', ?_, ⟨hreading, fun _ => rfl, nofun, h.unfinished, h.kept, h.offsets,
    fun n hn hv => h.cleared n hn (hcalm.virtNames hv)⟩, hcalm.unlinked, hcalm.rest⟩
  unfold after
  rw [hrun]
  rfl

/-- Somebody else does something. -/
theorem Wandering.other (h : Wandering plus manifest list d fh pages r f rcv rest top)
    {s : TreeStep}
    {t' : FileTree} (hstep : r.tree.step cfg s = some t')
    (hm : Meanwhile d fh (pageNames pages) r.tree t') :
    Wandering plus manifest list d fh pages { r with tree := t' } f rcv rest top := by
  have hreads := h.reading.reads
  refine ⟨⟨step_ok h.reading.settled (.inl trivial) hstep,
    ⟨⟨hm.dir.1, hm.dir.2, hreads.dir.notRoot⟩, hm.handle.2.trans hreads.fhMap, hm.handle.1⟩,
    h.reading.direct, h.reading.pages, h.reading.received, h.reading.remains⟩, h.idle, h.busy,
    h.unfinished, h.kept, h.offsets, fun n hn hv => ?_⟩
  exact h.cleared n hn (hm.listed n hv (List.mem_of_mem_take hn))

/-- The start of a reading at any offsets. -/
theorem Opened.wanders {t : FileTree} (h : Opened d fh t) (hsettled : t.Settled True)
    (hsplit : Split list "" pages) (hdirect : ∀ f ∈ t.globals.fhMap fh, f.Direct plus manifest) :
    ∃ f, Wandering plus manifest list d fh pages (start t) f [] pages 0 := by
  obtain ⟨f, hreading, hidle, hzero⟩ := h.reading hsettled hsplit hdirect
  refine ⟨f, hreading, fun _ => hidle, nofun, fun _ => Nat.zero_le _, hzero.le, nofun, ?_⟩
  intro n hn
  rw [List.take_zero] at hn
  cases hn

/-- **Every step** of a reader that wanders. -/
theorem Wandering.step (h : Wandering plus manifest list d fh pages r f rcv rest top)
    (hL : ∀ n ∈ pageNames pages, ¬IsDot n) {e : DirReaderStep} (hw : r.Wanders cfg d fh pages e)
    (hstep : r.stepPlus cfg list d fh plus manifest e = some r') :
    ∃ f' rcv' rest' top', Wandering plus manifest list d fh pages r' f' rcv' rest' top' := by
  cases stepPlus_stepped hstep with
  | call hidle hoffset hafter =>
      obtain ⟨r₁, f', call', top', hcall, h', -⟩ := h.calls cfg _ _ hL hidle hoffset
      obtain rfl := Option.some.inj (hcall.symm.trans hafter)
      exact ⟨f', rcv, rest, top', h'⟩
  | lists hbusy hafter =>
      obtain ⟨call, hawaits, -, -⟩ := h.busy hbusy
      obtain ⟨r₁, f', rest', call', top', hlists, -, h', -⟩ :=
        h.lists cfg _ hL hbusy hawaits.inProgress
      obtain rfl := Option.some.inj (hlists.symm.trans hafter)
      exact ⟨f', _, rest', top', h'⟩
  | fails hbusy hafter =>
      obtain ⟨t', hfails, h', -⟩ := h.fails cfg _ hbusy
      obtain rfl := Option.some.inj (hfails.symm.trans hafter)
      exact ⟨_, rcv, rest, top, h'⟩
  | other ht' => exact ⟨f, rcv, rest, top, h.other ht' (hw _ ht')⟩

/-! ### One name since the reader has gone back -/

/-- A name is there: listed or a virt entry, and not of an unlinked file. -/
def Present (d : ℕ) (L : List String) (name : String) (t : FileTree) : Prop :=
  name ∈ t.listing d L ∧ t.unlinked d name = false

/-- There is room for each name of the directory. -/
def Room (cfg : TreeConfig) (d : ℕ) (L : List String) (t : FileTree) (size : ℕ) : Prop :=
  ∀ n ∈ t.listing d L, cfg.dirEntSize false n ≤ size

/-- The reader's call that waits. -/
def waitingCall (fh : ℕ) (r : DirReader) : Option ReadDirCall :=
  (r.tree.globals.fhMap fh).bind Fh.listDirectoryInProgress

/-- The reader follows the `Off` of the last entry, there is room for any name, and
the name stays.  When a call starts, the name comes behind the last entry just if
it has its place at or behind the offset that the call starts at. -/
def GoesOn (cfg : TreeConfig) (d fh : ℕ) (pages : List ListDirectoryOutput) (name : String)
    (r : DirReader) : DirReaderStep → Prop
  | .call offset size _ => offset = r.offset ∧ Room cfg d (pageNames pages) r.tree size ∧
      (Behind (pageNames pages) r.got.getLast? name ↔
        max offset (r.keptFrom fh) ≤ (r.tree.listing d (pageNames pages)).idxOf name)
  | .listed _ _ => ∀ call ∈ r.waitingCall fh, Room cfg d (pageNames pages) r.tree call.size
  | .other s => ∀ t' ∈ r.tree.step cfg s, Meanwhile d fh (pageNames pages) r.tree t' ∧
      Present d (pageNames pages) name t'

/-- The entries since the reader has gone back to `p` have the name once, if it comes
behind `p` and not behind the last of them. -/
structure Gets (L : List String) (name : String) (p : Option DirEnt) (r : DirReader) : Prop where
  got : ∃ new, r.got = p.toList ++ new ∧ (new.map DirEnt.name).count name =
    if Behind L p name ∧ ¬Behind L r.got.getLast? name then 1 else 0
  later : Behind L r.got.getLast? name → Behind L p name
  ended : r.ended = true → ¬Behind L r.got.getLast? name

/-- What holds of the name between two sections. -/
structure Resuming (list : String → ListDirectoryOutput) (d fh : ℕ)
    (pages : List ListDirectoryOutput) (name : String) (p : Option DirEnt) (r : DirReader) (f : Fh)
    (rcv rest : List ListDirectoryOutput) (top : ℕ) : Prop where
  wandering : Wandering false [] list d fh pages r f rcv rest top
  present : Present d (pageNames pages) name r.tree
  gets : Gets (pageNames pages) name p r
  busy : r.busy = true → ∃ s call, f.listDirectoryInProgress = some call ∧ call.plus = false ∧
    call.curOffset ≤ (pageNames pages).length ∧
    Part (r.tree.listing d (pageNames pages)) name s call ∧
    (Behind (pageNames pages) r.got.getLast? name ↔
      s ≤ (r.tree.listing d (pageNames pages)).idxOf name)

variable {name : String} {p : Option DirEnt} {L : List String} {s : ℕ}

/-- A reply. -/
theorem Gets.replied {E rest : List String} (h : Gets L name p r) (hE : E = L ++ rest)
    (hrest : rest.Pairwise (· < ·)) (hname : name ∈ E) (hpart : Part E name s call)
    (hbehind : Behind L r.got.getLast? name ↔ s ≤ E.idxOf name)
    (hend : call.dirEnt = [] → E.length ≤ call.curOffset) (hgot : r'.got = r.got ++ call.dirEnt)
    (hended : r'.ended = call.dirEnt.isEmpty) : Gets L name p r' := by
  subst hE
  obtain ⟨new, hnew, hcount⟩ := h.got
  by_cases hnil : call.dirEnt = []
  · -- an empty reply: all names have been served
    have hsame : r'.got = r.got := by rw [hgot, hnil, List.append_nil]
    refine ⟨⟨new, hsame.trans hnew, by rw [hsame]; exact hcount⟩, by rw [hsame]; exact h.later,
      fun _ hb => ?_⟩
    rw [hsame] at hb
    have hidx := hbehind.mp hb
    have hlt := (List.idxOf_lt_length_iff.mpr hname).trans_le (hend hnil)
    have hpc := hpart.count
    rw [hnil, if_pos ⟨hidx, hlt⟩] at hpc
    exact nomatch hpc
  · obtain ⟨e, he⟩ := Option.ne_none_iff_exists'.mp fun hn => hnil (List.getLast?_eq_none_iff.mp hn)
    obtain ⟨hlt, hle, hat, hnot⟩ := hpart.last e he
    have hlast : r'.got.getLast? = some e := by
      rw [hgot, List.getLast?_append, he]
      rfl
    have hiff : Behind L (some e) name ↔ e.off ≤ (L ++ rest).idxOf name :=
      behind_iff hrest hname (Nat.zero_lt_of_lt hlt) hat
    refine ⟨⟨new ++ call.dirEnt, ?_, ?_⟩, ?_, fun hend => ?_⟩
    · rw [hgot, hnew, List.append_assoc]
    · rw [List.map_append, List.count_append, hcount, hpart.count, hlast]
      by_cases hp : Behind L p name
      · simp only [hbehind, hiff, hp, true_and]
        split <;> split <;> split <;> omega
      · have hs := fun hle => hp (h.later (hbehind.mpr hle))
        rw [if_neg fun hc => hp hc.1, if_neg fun hc => hs hc.1, if_neg fun hc => hp hc.1]
    · rw [hlast, hiff]
      exact fun hle => h.later (hbehind.mpr (hlt.le.trans hle))
    · rw [hended, List.isEmpty_iff] at hend
      exact absurd hend hnil

/-- A section of a call that has started at `s`. -/
theorem Resuming.goes (hpresent : Present d (pageNames pages) name r.tree)
    (hgets : Gets (pageNames pages) name p r) (hnodup : (pageNames pages).Nodup)
    (hw : Wandering false [] list d fh pages r' f' rcv rest top)
    (hg : Goes false cfg d (pageNames pages) r r' f' call call') (hplus : call.plus = false)
    (hroom : Room cfg d (pageNames pages) r.tree call.size)
    (hpart : Part (r.tree.listing d (pageNames pages)) name s call)
    (hbehind : Behind (pageNames pages) r.got.getLast? name ↔
      s ≤ (r.tree.listing d (pageNames pages)).idxOf name) :
    Resuming list d fh pages name p r' f' rcv rest top := by
  have hE : (r.tree.listing d (pageNames pages)).Nodup := listing_nodup hnodup
  have hpart' := hpart.serves hE hpresent.2 hg.serves
  have hlisting : r'.tree.listing d (pageNames pages) = r.tree.listing d (pageNames pages) :=
    congrArg (pageNames pages ++ ·) hg.rest
  have hpresent' : Present d (pageNames pages) name r'.tree := by
    unfold Present
    rw [hlisting, hg.unlinked]
    exact hpresent
  -- the call waits, and nothing has been returned
  rcases hg.ends with ⟨hbusy, hgot, hended, hawaits, hle⟩ | ⟨hidle, hgot, hended, hends⟩
  · refine ⟨hw, hpresent', ⟨?_, ?_, ?_⟩, fun _ =>
      ⟨s, call', hawaits.inProgress, hawaits.plus_eq, hle, ?_, ?_⟩⟩
    · rw [hgot]
      exact hgets.got
    · rw [hgot]
      exact hgets.later
    · rw [hgot, hended]
      exact hgets.ended
    · rw [hlisting]
      exact hpart'
    · rw [hgot, hlisting]
      exact hbehind
  -- the call has returned what it served
  · refine ⟨hw, hpresent', ?_, fun hb => absurd (hidle.symm.trans hb) Bool.false_ne_true⟩
    refine hgets.replied rfl (virtNames_sorted.filter _) hpresent.1 hpart' hbehind
      (fun hnil => ?_) hgot
      hended
    rcases hends with hend | ⟨n, hn, hfull⟩
    · exact hend
    -- a full reply has an entry at least, as there was room
    · have hfits := hroom n hn
      obtain ⟨hsize, hplus'⟩ := hg.serves.size_eq
      rw [hpart'.size hnil, hsize, hplus', hplus] at hfull
      omega

/-- **Every step** keeps count of the name. -/
theorem Resuming.step (h : Resuming list d fh pages name p r f rcv rest top)
    (hL : ∀ n ∈ pageNames pages, ¬IsDot n) (hnodup : (pageNames pages).Nodup) {e : DirReaderStep}
    (hon : r.GoesOn cfg d fh pages name e) (hstep : r.step cfg list d fh e = some r') :
    ∃ f' rcv' rest' top', Resuming list d fh pages name p r' f' rcv' rest' top' := by
  cases step_stepped hstep with
  | call hidle hoffset hafter =>
      obtain ⟨rfl, hroom, hbehind⟩ := hon
      obtain ⟨r₁, f', call', top', hcall, hw, hg⟩ := h.wandering.calls cfg _ _ hL hidle hoffset
      obtain rfl := Option.some.inj (hcall.symm.trans hafter)
      exact ⟨f', rcv, rest, top', .goes h.present h.gets hnodup hw hg rfl hroom .start hbehind⟩
  | lists hbusy hafter =>
      obtain ⟨s, call, hcall, hplus, hle, hpart, hbehind⟩ := h.busy hbusy
      obtain ⟨r₁, f', rest', call', top', hlists, -, hw, hg⟩ :=
        h.wandering.lists cfg _ hL hbusy hcall
      have hroom : Room cfg d (pageNames pages) r.tree call.size := by
        apply hon
        unfold waitingCall
        rw [h.wandering.reading.reads.fhMap]
        exact hcall
      obtain rfl := Option.some.inj (hlists.symm.trans hafter)
      exact ⟨f', _, rest', top', .goes h.present h.gets hnodup hw hg hplus hroom hpart hbehind⟩
  | fails hbusy hafter =>
      obtain ⟨t', hfails, hw, hunlinked, hrest⟩ := h.wandering.fails cfg _ hbusy
      obtain rfl := Option.some.inj (hfails.symm.trans hafter)
      have hpresent : Present d (pageNames pages) name t' := by
        unfold Present FileTree.listing
        rw [hrest, hunlinked]
        exact h.present
      exact ⟨_, rcv, rest, top, hw, hpresent, ⟨h.gets.got, h.gets.later, h.gets.ended⟩, nofun⟩
  | other ht' =>
      obtain ⟨hm, hpresent⟩ := hon _ ht'
      refine ⟨f, rcv, rest, top, h.wandering.other ht' hm, hpresent,
        ⟨h.gets.got, h.gets.later, h.gets.ended⟩, fun hbusy => ?_⟩
      -- a call that waits is not behind the listing
      obtain ⟨s, call, hcall, hplus, hle, hpart, hbehind⟩ := h.busy hbusy
      refine ⟨s, call, hcall, hplus, hle, hpart.of_listed hle, ?_⟩
      have hs := hpart.le.trans hle
      rw [← not_lt, FileTree.listing, idxOf_lt_iff _ _ hs] at hbehind ⊢
      exact hbehind

/-- **What a reader gets that goes back**, to the start or to an entry that it has
got: a name that stays comes once, if it is behind that entry, until an empty reply
comes, and else not at all; and no step ends the process.  At every call the name
has to be on its side of the offset that the handle starts at. -/
theorem resume_gets_once {n : ℕ} {steps : List TreeStep} {t : FileTree} {r₀ : DirReader}
    {before events : List DirReaderStep}
    (hrun : exec (FileTree.step cfg) (initial n) steps = some t) (hopen : Opened d fh t)
    (hsplit : Split list "" pages) (hnodup : (pageNames pages).Nodup)
    (hdots : ∀ name ∈ pageNames pages, ¬IsDot name)
    (hbefore : exec (step cfg list d fh) (start t) before = some r₀)
    (hwanders : Always (step cfg list d fh) (Wanders cfg d fh pages) (start t) before)
    (hidle : r₀.busy = false) (hp : ∀ e ∈ p, e ∈ r₀.got)
    (hpresent : Present d (pageNames pages) name r₀.tree)
    (hreads : exec (step cfg list d fh) (r₀.resume p) events = some r)
    (hon : Always (step cfg list d fh) (GoesOn cfg d fh pages name) (r₀.resume p) events) :
    (∃ new, r.got = p.toList ++ new ∧
      (new.map DirEnt.name).count name ≤ 1 ∧
      ((new.map DirEnt.name).count name = 1 ↔ Behind (pageNames pages) p name ∧
        ¬Behind (pageNames pages) r.got.getLast? name) ∧
      (r.ended = true →
        ((new.map DirEnt.name).count name = 1 ↔ Behind (pageNames pages) p name))) ∧
    (r.busy = false → ∀ size now, ∃ r', r.step cfg list d fh (.call r.offset size now) = some r' ∧
      r.Proceeds r') ∧
    (r.busy = true → ∀ now, (∃ r', r.step cfg list d fh (.listed true now) = some r' ∧
        r.Proceeds r') ∧
      ∃ r', r.step cfg list d fh (.listed false now) = some r' ∧ r'.busy = false) := by
  have hsettled : t.Settled True := settled_of_run (.inl trivial) hrun
  obtain ⟨f, rcv, rest, top, h₀⟩ : ∃ f rcv rest top,
      Wandering false [] list d fh pages r₀ f rcv rest top := by
    obtain ⟨f₀, hstart⟩ := hopen.wanders hsettled hsplit fun _ _ => Fh.direct_false
    refine exec_invariant (I := fun r => ∃ f rcv rest top,
      Wandering false [] list d fh pages r f rcv rest top) ?_ hwanders hbefore
        ⟨f₀, [], pages, 0, hstart⟩
    rintro r e r' ⟨f, rcv, rest, top, h⟩ hw hstep
    exact h.step hdots hw hstep
  have hlast : p.toList.getLast? = p := by cases p <;> rfl
  -- where the reader resumes, it has the entry it resumes behind
  have hresume : Resuming list d fh pages name p (r₀.resume p) f rcv rest top := by
    refine ⟨⟨h₀.reading, h₀.idle, h₀.busy, h₀.unfinished, h₀.kept, fun e he => ?_, h₀.cleared⟩,
      hpresent, ⟨⟨[], (List.append_nil _).symm, ?_⟩, ?_, nofun⟩, fun hb => ?_⟩
    · exact h₀.offsets e (hp e (Option.mem_toList.mp he))
    · refine (if_neg fun hc => hc.2 ?_).symm
      rw [show (r₀.resume p).got = p.toList from rfl, hlast]
      exact hc.1
    · rw [show (r₀.resume p).got = p.toList from rfl, hlast]
      exact id
    · exact absurd (hidle.symm.trans hb) Bool.false_ne_true
  obtain ⟨f, rcv, rest, top, h⟩ : ∃ f rcv rest top,
      Resuming list d fh pages name p r f rcv rest top := by
    refine exec_invariant (I := fun r => ∃ f rcv rest top,
      Resuming list d fh pages name p r f rcv rest top) ?_ hon hreads ⟨f, rcv, rest, top, hresume⟩
    rintro r e r' ⟨f, rcv, rest, top, h⟩ hgo hstep
    exact h.step hdots hnodup hgo hstep
  refine ⟨?_, fun hb size now => ?_, fun hb now => ⟨?_, ?_⟩⟩
  · obtain ⟨new, hnew, hcount⟩ := h.gets.got
    -- once or not at all, which is the side of the offset the name is on
    have hone : (new.map DirEnt.name).count name = 1 ↔ Behind (pageNames pages) p name ∧
        ¬Behind (pageNames pages) r.got.getLast? name := by
      rw [hcount]
      split
      next hc => exact iff_of_true rfl hc
      next hc => exact iff_of_false nofun hc
    refine ⟨new, hnew, ?_, hone, fun hend => ?_⟩
    · rw [hcount]
      split <;> omega
    · rw [hone, and_iff_left (h.gets.ended hend)]
  · obtain ⟨r', f', call', top', hafter, -, hg⟩ :=
      h.wandering.calls cfg size now hdots hb r.offset_mem
    refine ⟨r', ?_, hg.proceeds⟩
    dsimp only [DirReader.step]
    rw [if_pos ⟨hb, r.offset_mem⟩, hafter]
  · obtain ⟨s, call, hcall, -⟩ := h.busy hb
    obtain ⟨r', f', rest', call', top', hafter, -, -, hg⟩ :=
      h.wandering.lists cfg now hdots hb hcall
    refine ⟨{ r' with listed := r'.listed + 1 }, ?_, hg.proceeds⟩
    dsimp only [DirReader.step]
    rw [if_pos hb, if_pos rfl, hafter]
    rfl
  · obtain ⟨t', hafter, -⟩ := h.wandering.fails cfg now hb
    refine ⟨{ r with tree := t', busy := false }, ?_, rfl⟩
    dsimp only [DirReader.step]
    rw [if_pos hb, if_neg Bool.false_ne_true, hafter]
    rfl

instance (L : List String) (name : String) (t : FileTree) : Decidable (Present d L name t) :=
  inferInstanceAs (Decidable (_ ∧ _))

instance (L : List String) (t : FileTree) (size : ℕ) : Decidable (Room cfg d L t size) :=
  inferInstanceAs (Decidable (∀ n ∈ _, _))

instance (r : DirReader) : (e : DirReaderStep) → Decidable (Wanders cfg d fh pages r e)
  | .other s => inferInstanceAs (Decidable (∀ t' ∈ r.tree.step cfg s, Meanwhile _ _ _ _ _))
  | .call .. | .listed .. => .isTrue trivial

instance (r : DirReader) : (e : DirReaderStep) → Decidable (GoesOn cfg d fh pages name r e)
  | .call .. => inferInstanceAs (Decidable (_ ∧ _ ∧ (_ ↔ _)))
  | .listed .. => inferInstanceAs (Decidable (∀ call ∈ r.waitingCall fh, Room _ _ _ _ _))
  | .other s => inferInstanceAs (Decidable (∀ t' ∈ r.tree.step cfg s, Meanwhile _ _ _ _ _ ∧ _))

/-- Everything is read. -/
def readAll : List DirReaderStep := [.call 0 4096 id, .listed true id, .listed true id]

/-- From a subdirectory on, while a directory is made and files are evicted. -/
def readOn : List DirReaderStep :=
  [.other ⟨.doMkDir 3 "u" .nothing, id⟩, .call 3 4096 id, .other ⟨.evict none, id⟩, .call 7 4096 id]

/-- The theorem at a resumption behind the second entry. -/
theorem resume_gets_dots :
    ∃ t r₀ r, exec (FileTree.step anyTimes) (initial 0) mountAndOpen = some t ∧
    exec (step anyTimes (pageOf twoPages) 3 4) (start t) readAll = some r₀ ∧
    exec (step anyTimes (pageOf twoPages) 3 4) (r₀.resume r₀.got[2]?) readOn = some r ∧
    r.got.map DirEnt.name = ["s", "t", ".", "..", "u"] ∧
    ∃ new, r.got = r₀.got[2]?.toList ++ new ∧ (new.map DirEnt.name).count ".." = 1 := by
  obtain ⟨t, ht, hopen, hwanders, hbefore⟩ : ∃ t,
      exec (FileTree.step anyTimes) (initial 0) mountAndOpen = some t ∧ Opened 3 4 t ∧
        Always (step anyTimes (pageOf twoPages) 3 4) (Wanders anyTimes 3 4 twoPages)
          (start t) readAll ∧
        (exec (step anyTimes (pageOf twoPages) 3 4) (start t) readAll).any (fun r₀ => decide
          (r₀.busy = false ∧ Present 3 (pageNames twoPages) ".." r₀.tree ∧
            Always (step anyTimes (pageOf twoPages) 3 4) (GoesOn anyTimes 3 4 twoPages "..")
              (r₀.resume r₀.got[2]?) readOn ∧ Behind (pageNames twoPages) r₀.got[2]? ".." ∧
            (exec (step anyTimes (pageOf twoPages) 3 4) (r₀.resume r₀.got[2]?) readOn).any
              (fun r => decide (r.ended = true ∧
                r.got.map DirEnt.name = ["s", "t", ".", "..", "u"])) = true)) = true :=
    exec_exists (by decide +kernel)
  obtain ⟨r₀, hr₀, hidle, hpresent, hon, hbehind, hreads⟩ := exec_exists hbefore
  obtain ⟨r, hr, hended, hgot⟩ := exec_exists hreads
  have hsplit : Split (pageOf twoPages) "" twoPages := .more rfl (.last rfl)
  obtain ⟨new, hnew, -, -, hend⟩ := (resume_gets_once ht hopen hsplit (by decide) (by decide) hr₀
    hwanders hidle (fun e he => List.mem_of_getElem? he) hpresent hr hon).1
  exact ⟨t, r₀, r, ht, hr₀, hr, hgot, new, hnew, (hend hended).mpr hbehind⟩

/-- Nothing is listed. -/
def noPage : List ListDirectoryOutput := [⟨[], [], "", false⟩]

/-- A reader that goes back to the start does not get a file of a page that is not kept
any more, and one that follows the last `Off` gets a directory again when another has
been made in front of it. -/
theorem resume_loses_or_repeats :
    (∃ t r₀ r, exec (FileTree.step anyTimes) (initial 0) mountAndOpen = some t ∧ Opened 3 4 t ∧
      Split (pageOf threePages) "" threePages ∧
      exec (step anyTimes (pageOf threePages) 3 4) (start t) (readAll ++ [.listed true id]) =
        some r₀ ∧
      r₀.busy = false ∧
      exec (step anyTimes (pageOf threePages) 3 4) (r₀.resume none)
        [.call 0 4096 id, .call 5 4096 id] =
        some r ∧ r.ended = true ∧ Present 3 (pageNames threePages) "a" r.tree ∧
      Behind (pageNames threePages) none "a" ∧ r.got.map DirEnt.name = ["b", "c", ".", ".."]) ∧
    ∃ t r₀ r, exec (FileTree.step anyTimes) (initial 0)
        (mountAndOpen ++ [⟨.doMkDir 3 "m" .nothing, id⟩]) = some t ∧ Opened 3 4 t ∧
      Split (pageOf noPage) "" noPage ∧
      exec (step anyTimes (pageOf noPage) 3 4) (start t) [.call 0 4096 id, .listed true id] =
        some r₀ ∧
      exec (step anyTimes (pageOf noPage) 3 4) r₀
        [.other ⟨.doMkDir 3 "k" .nothing, id⟩, .call 3 4096 id, .call 4 4096 id] = some r ∧
      r.ended = true ∧ r.got.map DirEnt.name = [".", "..", "m", "m"] := by
  constructor
  · obtain ⟨t, ht, hopen, hbefore⟩ : ∃ t,
        exec (FileTree.step anyTimes) (initial 0) mountAndOpen = some t ∧ Opened 3 4 t ∧
          (exec (step anyTimes (pageOf threePages) 3 4) (start t)
            (readAll ++ [.listed true id])).any
            (fun r₀ => decide (r₀.busy = false ∧
              (exec (step anyTimes (pageOf threePages) 3 4) (r₀.resume none)
                [.call 0 4096 id, .call 5 4096 id]).any (fun r => decide (r.ended = true ∧
                  Present 3 (pageNames threePages) "a" r.tree ∧
                  r.got.map DirEnt.name = ["b", "c", ".", ".."])) = true)) = true :=
      exec_exists (by decide +kernel)
    obtain ⟨r₀, hr₀, hidle, hreads⟩ := exec_exists hbefore
    obtain ⟨r, hr, hended, hpresent, hgot⟩ := exec_exists hreads
    have hsplit : Split (pageOf threePages) "" threePages := .more rfl (.more rfl (.last rfl))
    exact ⟨t, r₀, r, ht, hopen, hsplit, hr₀, hidle, hr, hended, hpresent, by decide, hgot⟩
  · obtain ⟨t, ht, hopen, hbefore⟩ : ∃ t, exec (FileTree.step anyTimes) (initial 0)
        (mountAndOpen ++ [⟨.doMkDir 3 "m" .nothing, id⟩]) = some t ∧ Opened 3 4 t ∧
          (exec (step anyTimes (pageOf noPage) 3 4) (start t)
            [.call 0 4096 id, .listed true id]).any
            (fun r₀ => decide ((exec (step anyTimes (pageOf noPage) 3 4) r₀
              [.other ⟨.doMkDir 3 "k" .nothing, id⟩, .call 3 4096 id, .call 4 4096 id]).any
                (fun r => decide (r.ended = true ∧
                  r.got.map DirEnt.name = [".", "..", "m", "m"])) = true)) = true :=
      exec_exists (by decide +kernel)
    obtain ⟨r₀, hr₀, hreads⟩ := exec_exists hbefore
    obtain ⟨r, hr, hended, hgot⟩ := exec_exists hreads
    exact ⟨t, r₀, r, ht, hopen, .last rfl, hr₀, hr, hended, hgot⟩

end DirReader

end MultiStorageFileSystem
