/-
MultiStorageClient/FileTreeReaders.lean

One who reads a directory of a backend through a handle, among others who use
the file system.

The reader calls `DoReadDir` at offset 0 or at the `Off` of an entry that it has
got; the backend splits its listing into pages, and answers a listing with the
page, or not at all.  What the handle has received is a prefix of the pages, and
the loop goes over the names at the offsets that it shows (`Reading`).
-/
import MultiStorageClient.FileTreeListings
import MultiStorageClient.FileTreeRuns

namespace MultiStorageFileSystem

open Prog Run TreeSection FileTree

/-- Who reads: what it has got, whether a call of its own waits for the backend,
whether the last answer was empty, and how often the backend has listed a
page. -/
structure DirReader where
  tree : FileTree
  got : List DirEnt
  busy : Bool
  ended : Bool
  listed : ℕ

/-- A step of the reader, of the backend, or of somebody else. -/
inductive DirReaderStep
  | call (offset size : ℕ) (now : ℕ → ℕ)
  | listed (succeeds : Bool) (now : ℕ → ℕ)
  | other (s : TreeStep)

namespace DirReader

variable (cfg : TreeConfig) (list : String → ListDirectoryOutput) (d fh : ℕ)

/-- Nothing has been read. -/
def start (t : FileTree) : DirReader := ⟨t, [], false, false, 0⟩

/-- The offsets that the reader may call at. -/
def offsets (r : DirReader) : List ℕ := 0 :: r.got.map DirEnt.off

/-- A section of a call of the reader has ended. -/
def replied (r : DirReader) (t : FileTree) : Reply → DirReader
  | .waiting => { r with tree := t, busy := true }
  | .entries dirEnt =>
      { r with tree := t, got := r.got ++ dirEnt, busy := false, ended := dirEnt.isEmpty }
  | _ => { r with tree := t, busy := false }

/-- A section of a call of the reader; `none` if it ends the process. -/
def after (r : DirReader) (s : TreeStep) : Option DirReader :=
  match r.tree.runCall cfg s with
  | (.ok reply, t) => some (r.replied t reply)
  | (.error _, _) => none

/-- The page that the backend is asked for. -/
def page (r : DirReader) : ListDirectoryOutput :=
  list ((r.tree.globals.fhMap fh).elim "" Fh.continuationToken)

/-- The next call of the reader, the answer that its call waits for, or a step of others. -/
def step (r : DirReader) : DirReaderStep → Option DirReader
  | .call offset size now =>
      if r.busy = false ∧ offset ∈ r.offsets then
        r.after cfg ⟨.doReadDir false d fh offset size [], now⟩
      else none
  | .listed succeeds now =>
      if r.busy then
        (r.after cfg ⟨.readDirListed fh (if succeeds then some (r.page list fh) else none) [],
          now⟩).map fun r' => if succeeds then { r' with listed := r'.listed + 1 } else r'
      else none
  | .other s => (r.tree.step cfg s).map fun t => { r with tree := t }

/-- The same for one who calls `DoReadDir` or, if `plus` says so, `DoReadDirPlus`, where
`readManifestPart` says `manifest`. -/
def stepPlus (plus : Bool) (manifest : List ManifestPartEntry) (r : DirReader) :
    DirReaderStep → Option DirReader
  | .call offset size now =>
      -- the kernel asks for an offset that an earlier answer has named
      if r.busy = false ∧ offset ∈ r.offsets then
        r.after cfg ⟨.doReadDir plus d fh offset size manifest, now⟩
      else none
  -- the listing that the call waits for has come back
  | .listed succeeds now =>
      if r.busy then
        (r.after cfg ⟨.readDirListed fh (if succeeds then some (r.page list fh) else none) manifest,
          now⟩).map fun r' => if succeeds then { r' with listed := r'.listed + 1 } else r'
      else none
  | .other s => (r.tree.step cfg s).map fun t => { r with tree := t }

theorem stepPlus_false : stepPlus cfg list d fh false [] = step cfg list d fh := by
  funext r e
  cases e <;> rfl

/-- What a step does when it succeeds. -/
inductive Stepped (plus : Bool) (manifest : List ManifestPartEntry) (r : DirReader) :
    DirReaderStep → DirReader → Prop
  | call {offset size : ℕ} {now : ℕ → ℕ} {r' : DirReader} (idle : r.busy = false)
      (from_got : offset ∈ r.offsets)
      (after : r.after cfg ⟨.doReadDir plus d fh offset size manifest, now⟩ = some r') :
      Stepped plus manifest r (.call offset size now) r'
  | lists {now : ℕ → ℕ} {r' : DirReader} (busy : r.busy = true)
      (after : r.after cfg ⟨.readDirListed fh (some (r.page list fh)) manifest, now⟩ = some r') :
      Stepped plus manifest r (.listed true now) { r' with listed := r'.listed + 1 }
  | fails {now : ℕ → ℕ} {r' : DirReader} (busy : r.busy = true)
      (after : r.after cfg ⟨.readDirListed fh none manifest, now⟩ = some r') :
      Stepped plus manifest r (.listed false now) r'
  | other {s : TreeStep} {t' : FileTree} (step : r.tree.step cfg s = some t') :
      Stepped plus manifest r (.other s) { r with tree := t' }

variable {cfg list d fh} in
/-- The steps of a reader, as one relation. -/
theorem stepPlus_stepped {plus : Bool} {manifest : List ManifestPartEntry} {r r' : DirReader}
    {e : DirReaderStep} (hstep : r.stepPlus cfg list d fh plus manifest e = some r') :
    Stepped cfg list d fh plus manifest r e r' := by
  cases e with
  | call offset size now =>
      dsimp only [stepPlus] at hstep
      split at hstep
      next hc => exact .call hc.1 hc.2 hstep
      · cases hstep
  | listed succeeds now =>
      dsimp only [stepPlus] at hstep
      split at hstep
      next hbusy =>
        obtain ⟨r₁, hafter, rfl⟩ := Option.map_eq_some_iff.mp hstep
        cases succeeds with
        | true => exact .lists hbusy hafter
        | false => exact .fails hbusy hafter
      · cases hstep
  | other s =>
      obtain ⟨t', ht', rfl⟩ := Option.map_eq_some_iff.mp hstep
      exact .other ht'

variable {cfg list d fh} in
theorem step_stepped {r r' : DirReader} {e : DirReaderStep}
    (hstep : r.step cfg list d fh e = some r') : Stepped cfg list d fh false [] r e r' :=
  stepPlus_stepped ((congrFun (congrFun (stepPlus_false cfg list d fh) r) e).trans hstep)

end DirReader

namespace TreeSection

variable {cfg : TreeConfig} {plus : Bool} {manifest : List ManifestPartEntry}
  {list : String → ListDirectoryOutput} {d fh : ℕ} {t t' : FileTree} {f f' : Fh}
  {pages rcv rest : List ListDirectoryOutput} {call : ReadDirCall} {now : ℕ → ℕ}

/-- The pages behind those that a handle has received. -/
def Remains (list : String → ListDirectoryOutput) (f : Fh) (rcv rest : List ListDirectoryOutput) :
    Prop :=
  if f.listDirectorySequenceDone then rest = []
  else Split list ((rcv.getLast?.map ListDirectoryOutput.nextContinuationToken).getD "") rest

/-- A directory is read through a handle, which has received some of the
pages. -/
structure Reading (plus : Bool) (manifest : List ManifestPartEntry)
    (list : String → ListDirectoryOutput) (pages : List ListDirectoryOutput) (d fh : ℕ)
    (t : FileTree) (f : Fh) (rcv rest : List ListDirectoryOutput) : Prop where
  settled : t.Settled True
  reads : Reads t d fh f
  direct : f.Direct plus manifest
  pages : rcv ++ rest = pages
  received : f.Received rcv
  remains : Remains list f rcv rest

theorem Reading.shows (h : Reading plus manifest list pages d fh t f rcv rest) :
    f.Shows (pageNames pages) := by
  rw [← h.pages]
  refine h.received.shows fun hdone => ?_
  have hrest := h.remains
  unfold Remains at hrest
  rw [if_pos hdone] at hrest
  exact hrest

/-- The time passes. -/
theorem Calm.atTime (now : ℕ → ℕ) (L : List String) (hr : Reads t d fh f) :
    Calm d fh L t (t.atTime now) :=
  .of_names hr rfl (.of_now ⟨_, rfl⟩)

theorem Reading.of_calm {L : List String} (h : Reading plus manifest list pages d fh t f rcv rest)
    (hok : t'.Settled True) (hcalm : Calm d fh L t t') (hf : t'.globals.fhMap fh = some f) :
    Reading plus manifest list pages d fh t' f rcv rest :=
  ⟨hok, ⟨hcalm.dir, hf, hcalm.fhSet⟩, h.direct, h.pages, h.received, h.remains⟩

/-- The handle of a call that waits. -/
theorem waits_received (call : ReadDirCall) (hreceived : f.Received rcv)
    (hremains : Remains list f rcv rest)
    (hdone : f.listDirectorySequenceDone = false) :
    (waits f call).Received rcv ∧ Remains list (waits f call) rcv rest ∧
      (waits f call).nextListDirectoryOutput = none ∧
      (waits f call).listDirectorySequenceDone = false ∧
      (waits f call).prevListDirectoryOutputStartingOffset ≤
        max f.nextCap f.prevListDirectoryOutputStartingOffset := by
  obtain ⟨hr, hnext, -, hle⟩ := hreceived.shiftPages hdone
  have hsame : (waits f call).listDirectorySequenceDone = false :=
    (hr.done.trans hreceived.done.symm).trans hdone
  refine ⟨⟨hr.kept, hr.start_le, hr.next, hr.last, hr.first, hr.subdirectory, hr.done⟩, ?_, hnext,
    hsame, hle⟩
  unfold Remains at hremains ⊢
  rw [hsame]
  rw [hdone] at hremains
  exact hremains

variable (cfg now) in
/-- A call of the reader. -/
theorem Reading.calls (h : Reading plus manifest list pages d fh t f rcv rest) (size : ℕ)
    (hL : ∀ n ∈ pageNames pages, ¬IsDot n) (hidle : f.listDirectoryInProgress = none)
    {offset : ℕ} (hclear : t.Cleared d (pageNames pages)
      (max offset f.prevListDirectoryOutputStartingOffset)) :
    ∃ reply t', t.runCall cfg ⟨.doReadDir plus d fh offset size manifest, now⟩ = (.ok reply, t') ∧
      t'.Settled True ∧ LoopOk cfg f d fh (pageNames pages) t
        ⟨plus, max offset f.prevListDirectoryOutputStartingOffset, size, [], 0⟩ reply t' := by
  have hcalm := Calm.atTime now (pageNames pages) h.reads
  have h₁ := h.of_calm (h.settled.later now) hcalm h.reads.fhMap
  have hruns : EndsIn _ _ (t.runCall cfg ⟨.doReadDir plus d fh offset size manifest, now⟩) :=
    readDir_serves cfg h₁.settled h₁.reads h.shows hL h.direct hidle hclear
  generalize t.runCall cfg ⟨.doReadDir plus d fh offset size manifest, now⟩ = out at hruns
  obtain ⟨e | reply, t'⟩ := out
  · exact hruns.elim
  · exact ⟨reply, t', rfl, hruns.1, LoopOk.of_calm cfg hcalm hruns.2⟩

/-- A handle whose call waits for the page behind those that it has received. -/
structure Awaits (plus : Bool) (f : Fh) (call : ReadDirCall) : Prop where
  inProgress : f.listDirectoryInProgress = some call
  plus_eq : call.plus = plus
  next : f.nextListDirectoryOutput = none
  notDone : f.listDirectorySequenceDone = false
  le : f.prevListDirectoryOutputStartingOffset ≤ call.curOffset

/-- What the pages are when one more has come. -/
theorem Reading.addPage (h : Reading plus manifest list pages d fh t f rcv rest)
    (hw : Awaits plus f call)
    (hf' : f' = { f with listDirectoryInProgress := none }.addPage (list f.continuationToken)) :
    ∃ rest', rcv ++ [list f.continuationToken] ++ rest' = pages ∧
      f'.Received (rcv ++ [list f.continuationToken]) ∧
      Remains list f' (rcv ++ [list f.continuationToken]) rest' ∧
      f'.prevListDirectoryOutputStartingOffset = f.prevListDirectoryOutputStartingOffset ∧
      f'.listDirectoryInProgress = none := by
  have hr := h.received
  obtain ⟨hreceived, hstart⟩ :=
    (Fh.Received.addPage (f := { f with listDirectoryInProgress := none })
    ⟨hr.kept, hr.start_le, hr.next, hr.last, hr.first, hr.subdirectory, hr.done⟩ hw.next
    (list f.continuationToken))
  rw [← hf'] at hreceived hstart
  have hlast := hr.last
  rw [hw.next, Option.none_or] at hlast
  have hrest := h.remains
  unfold Remains at hrest
  rw [hw.notDone, if_neg Bool.false_ne_true, ← hlast] at hrest
  change Split list f.continuationToken rest at hrest
  have hdone : f'.listDirectorySequenceDone = !(list f.continuationToken).isTruncated := by
    rw [hreceived.done, List.getLast?_concat]
    rfl
  have hidle : f'.listDirectoryInProgress = none := by
    rw [hf', Fh.addPage_listDirectoryInProgress]
  generalize htoken : f.continuationToken = token at hrest hreceived hdone ⊢
  cases hrest with
  -- it was the last page
  | last htr =>
      refine ⟨[], by rw [List.append_nil]; exact h.pages, hreceived, ?_, hstart, hidle⟩
      unfold Remains
      rw [hdone, htr]
      rfl
  -- more pages follow
  | @more _ rest' htr hsplit =>
      refine ⟨rest', by rw [List.append_assoc]; exact h.pages, hreceived, ?_, hstart, hidle⟩
      unfold Remains
      rw [hdone, htr, if_neg (by decide), List.getLast?_concat]
      exact hsplit

/-- The handle after a section that has gone through the loop. -/
theorem Reading.of_loop {reply : Reply} {L : List String} {start : ReadDirCall}
    (hdirect : f.Direct plus manifest) (hpages : rcv ++ rest = pages) (hreceived : f.Received rcv)
    (hremains : Remains list f rcv rest)
    (hidle : f.listDirectoryInProgress = none)
    (hprev : f.prevListDirectoryOutputStartingOffset ≤ start.curOffset) (hplus : start.plus = plus)
    (hok : t'.Settled True) (hloop : LoopOk cfg f d fh L t start reply t') :
    ∃ f' call', Reading plus manifest list pages d fh t' f' rcv rest ∧ Calm d fh L t t' ∧
      Serves cfg (t.unlinked d) (t.listing d L) start call' ∧ t'.Cleared d L call'.curOffset ∧
      f'.prevListDirectoryOutputStartingOffset ≤ call'.curOffset ∧
      f'.listDirectorySequenceDone = f.listDirectorySequenceDone ∧
      (f.listDirectorySequenceDone = false →
        call'.curOffset ≤ max start.curOffset (fileNames rcv).length) ∧
      (reply = .waiting ∧ Awaits plus f' call' ∨
        reply = .entries call'.dirEnt ∧ f'.listDirectoryInProgress = none ∧
          ((t.listing d L).length ≤ call'.curOffset ∨
            ∃ name, (t.listing d L)[call'.curOffset]? = some name ∧ t.unlinked d name = false ∧
              call'.size < call'.curSize + cfg.dirEntSize call'.plus name)) := by
  obtain ⟨hcalm, call', hserves, hclear, hwithin, hends⟩ := hloop
  have hle := hprev.trans hserves.le
  have hlisted : f.listDirectorySequenceDone = false →
      call'.curOffset ≤ max start.curOffset (fileNames rcv).length :=
    fun hd => (hwithin hd).trans (max_le_max le_rfl hreceived.nextCap_le)
  cases hends with
  -- the loop is at the end of the pages
  | waits hdone hcap hf =>
      obtain ⟨hr, hrem, hnext, hnot, hshift⟩ := waits_received call' hreceived hremains hdone
      have hplus' : call'.plus = plus := hserves.size_eq.2.trans hplus
      have hprev' := hshift.trans (max_le hcap hle)
      exact ⟨_, call', ⟨hok, ⟨hcalm.dir, hf, hcalm.fhSet⟩, hdirect.shiftPages, hpages, hr, hrem⟩,
        hcalm, hserves, hclear, hprev', hnot.trans hdone.symm, hlisted,
          .inl ⟨rfl, ⟨rfl, hplus', hnext, hnot, hprev'⟩⟩⟩
  -- the reply is full
  | full hf hname hu hroom =>
      exact ⟨f, call', ⟨hok, ⟨hcalm.dir, hf, hcalm.fhSet⟩, hdirect, hpages, hreceived, hremains⟩,
        hcalm, hserves, hclear, hle, rfl, hlisted, .inr ⟨rfl, hidle, .inr ⟨_, hname, hu, hroom⟩⟩⟩
  -- nothing is left
  | last hf hend =>
      exact ⟨f, call', ⟨hok, ⟨hcalm.dir, hf, hcalm.fhSet⟩, hdirect, hpages, hreceived, hremains⟩,
        hcalm, hserves, hclear, hle, rfl, hlisted, .inr ⟨rfl, hidle, .inl hend⟩⟩

variable (cfg now) in
/-- The backend answers with a page. -/
theorem Reading.lists (h : Reading plus manifest list pages d fh t f rcv rest)
    (hw : Awaits plus f call)
    (hL : ∀ n ∈ pageNames pages, ¬IsDot n)
    (hclear : t.Cleared d (pageNames pages) call.curOffset) :
    ∃ reply t' f' rest', t.runCall cfg
        ⟨.readDirListed fh (some (list f.continuationToken)) manifest, now⟩ = (.ok reply, t') ∧
      t'.Settled True ∧ rcv ++ [list f.continuationToken] ++ rest' = pages ∧
      f'.Direct plus manifest ∧ f'.Received (rcv ++ [list f.continuationToken]) ∧
      Remains list f' (rcv ++ [list f.continuationToken]) rest' ∧
      f'.listDirectoryInProgress = none ∧
      f'.prevListDirectoryOutputStartingOffset ≤ call.curOffset ∧
      LoopOk cfg f' d fh (pageNames pages) t call reply t' := by
  have hcalm := Calm.atTime now (pageNames pages) h.reads
  have h₁ := h.of_calm (h.settled.later now) hcalm h.reads.fhMap
  obtain ⟨rest', hpages, hreceived, hremains, hstart, hidle⟩ := h.addPage hw rfl
  generalize hf' : Fh.addPage { f with listDirectoryInProgress := none }
    (list f.continuationToken) = f' at hreceived hremains hstart hidle
  have hle : f'.prevListDirectoryOutputStartingOffset ≤ call.curOffset := hstart.le.trans hw.le
  have hmax : max call.curOffset f'.prevListDirectoryOutputStartingOffset = call.curOffset :=
    max_eq_left hle
  -- with all pages received the handle shows all names
  have hshows : f'.Shows (pageNames pages) := by
    rw [← hpages]
    refine hreceived.shows fun hdone => ?_
    unfold Remains at hremains
    rw [if_pos hdone] at hremains
    exact hremains
  have hruns : EndsIn _ _ (t.runCall cfg
      ⟨.readDirListed fh (some (list f.continuationToken)) manifest, now⟩) :=
    readDirListed_serves cfg h₁.settled h₁.reads hw.inProgress
      (hw.plus_eq ▸ h.direct) hf'.symm hshows hL
      (by rw [hmax]; exact hclear)
  rw [hmax] at hruns
  generalize t.runCall cfg ⟨.readDirListed fh (some (list f.continuationToken)) manifest, now⟩ = out
    at hruns
  obtain ⟨e | reply, t'⟩ := out
  · exact hruns.elim
  · refine ⟨reply, t', f', rest', rfl, hruns.1, hpages, ?_, hreceived, hremains, hidle, hle,
      LoopOk.of_calm cfg hcalm hruns.2⟩
    rw [← hf']
    exact h.direct.idle.addPage _

variable (cfg now) in
/-- The backend does not answer. -/
theorem Reading.fails (h : Reading plus manifest list pages d fh t f rcv rest)
    (hw : Awaits plus f call)
    (L : List String) : ∃ t', t.runCall cfg ⟨.readDirListed fh none manifest, now⟩ =
        (.ok (.errno .EACCES), t') ∧
      Reading plus manifest list pages d fh t' { f with listDirectoryInProgress := none } rcv rest ∧
      Calm d fh L t t' ∧ t'.virtNames d = t.virtNames d := by
  have hcalm := Calm.atTime now L h.reads
  have h₁ := h.of_calm (h.settled.later now) hcalm h.reads.fhMap
  obtain ⟨t', hrun, hok, hreads, hcalm', hv⟩ := readDirListed_fails cfg manifest
    h₁.settled h₁.reads hw.inProgress
  have hr := h.received
  exact ⟨t', hrun,
    ⟨hok, hreads, h.direct, h.pages, ⟨hr.kept, hr.start_le, hr.next, hr.last, hr.first,
    hr.subdirectory, hr.done⟩, h.remains⟩, hcalm.trans hcalm', hv⟩

end TreeSection

/-! ### Enumerating a directory that nobody changes -/

section Served

variable {unlinked : String → Bool} {E : List String} {c c' k : ℕ}

theorem Skipped.mono (h : Skipped unlinked E c c') (hk : k ≤ c') : Skipped unlinked E c k :=
  fun j hj hlt => h j hj (lt_of_lt_of_le hlt hk)

theorem served_of_le (h : E.length ≤ c') :
    served unlinked E c c' = served unlinked E c E.length := by
  unfold served
  rw [List.take_of_length_le h, List.take_of_length_le le_rfl]

/-- The next name that is not unlinked. -/
def nextName (unlinked : String → Bool) (E : List String) (c : ℕ) : Option String :=
  (E.drop c).find? (!unlinked ·)

theorem nextName_congr {unlinked' : String → Bool} (h : ∀ n ∈ E, unlinked n = unlinked' n) :
    nextName unlinked E c = nextName unlinked' E c := by
  unfold nextName
  rw [← List.head?_filter, ← List.head?_filter]
  congr 1
  apply List.filter_congr
  intro n hn
  rw [h n (List.mem_of_mem_drop hn)]

/-- The next name is the first behind the unlinked files. -/
theorem nextName_eq {name : String} (hc : c ≤ k) (hskip : Skipped unlinked E c k)
    (hname : E[k]? = some name) (hu : unlinked name = false) :
      nextName unlinked E c = some name := by
  obtain ⟨j, rfl⟩ := Nat.exists_eq_add_of_le hc
  induction j generalizing c with
  | zero =>
      unfold nextName
      rw [Nat.add_zero] at hname
      have hlt := (List.getElem?_eq_some_iff.mp hname).1
      rw [List.drop_eq_getElem_cons hlt, List.find?_cons_of_pos]
      · rw [List.getElem?_eq_getElem hlt] at hname
        exact hname
      · rw [List.getElem?_eq_getElem hlt] at hname
        rw [Option.some.inj hname, hu]
        rfl
  | succ j ih =>
      obtain ⟨other, hother, huo⟩ := hskip c le_rfl (by omega)
      have hlt := (List.getElem?_eq_some_iff.mp hother).1
      have hnext :=
        ih (c := c + 1) (Nat.le_add_right ..) (fun i hi hlt => hskip i (by omega) (by omega))
        (by rw [← hname]; congr 1; omega)
      unfold nextName at hnext ⊢
      rw [List.drop_eq_getElem_cons hlt, List.find?_cons_of_neg]
      · exact hnext
      · rw [List.getElem?_eq_getElem hlt] at hother
        rw [Option.some.inj hother, huo]
        exact Bool.false_ne_true

end Served

namespace DirReader

variable (cfg : TreeConfig) (list : String → ListDirectoryOutput) (d fh : ℕ)
  (pages : List ListDirectoryOutput)

/-- The `Off` of the last entry. -/
def offset (r : DirReader) : ℕ := (r.got.getLast?.map DirEnt.off).getD 0

theorem offset_mem (r : DirReader) : r.offset ∈ r.offsets := by
  unfold offset offsets
  cases h : r.got.getLast? with
  | none => exact List.mem_cons_self ..
  | some e => exact List.mem_cons_of_mem _ (List.mem_map_of_mem (List.mem_of_getLast? h))

/-- Others leave the directory and the handle in place, and make no virt entry under a
listed name. -/
structure Meanwhile (L : List String) (t t' : FileTree) : Prop where
  dir : t'.inodeMap d = true ∧ (t'.inode d).inodeType ≠ .FileObject
  handle : fh ∈ (t'.globals.use d).fhSet ∧ t'.globals.fhMap fh = t.globals.fhMap fh
  listed : ∀ n ∈ t'.virtNames d, n ∈ L → n ∈ t.virtNames d

/-- Others leave the directory alone, but for listed names that become phys. -/
structure Undisturbed (L : List String) (t t' : FileTree) : Prop extends Meanwhile d fh L t t' where
  rest : t'.restNames d L = t.restNames d L
  unlinked : ∀ n ∈ t.listing d L, t'.unlinked d n = t.unlinked d n

/-- The reader follows the `Off` of the last entry, with room for the next one,
and nobody changes the directory. -/
def Follows (r : DirReader) : DirReaderStep → Prop
  | .call offset size _ => offset = r.offset ∧
      ∀ name ∈ nextName (r.tree.unlinked d) (r.tree.listing d (pageNames pages)) offset,
        cfg.dirEntSize false name ≤ size
  | .listed _ _ => True
  | .other s => ∀ t' ∈ r.tree.step cfg s, Undisturbed d fh (pageNames pages) r.tree t'

/-- The offset of the first file that the handle keeps. -/
def keptFrom (r : DirReader) : ℕ :=
  (r.tree.globals.fhMap fh).elim 0 Fh.prevListDirectoryOutputStartingOffset

/-- When a listing fails, the handle still keeps the page of the next name. -/
def FailsInPlace (r : DirReader) : DirReaderStep → Prop
  | .listed false _ => ∀ k < r.keptFrom fh, r.offset ≤ k →
      ∃ name ∈ (r.tree.listing d (pageNames pages))[k]?, r.tree.unlinked d name = true
  | _ => True

theorem page_eq {list : String → ListDirectoryOutput} {r : DirReader} {f : Fh}
    (hf : r.tree.globals.fhMap fh = some f) : r.page list fh = list f.continuationToken := by
  unfold page
  rw [hf]
  rfl

theorem keptFrom_eq {r : DirReader} {f : Fh} (hf : r.tree.globals.fhMap fh = some f) :
    r.keptFrom fh = f.prevListDirectoryOutputStartingOffset := by
  unfold keptFrom
  rw [hf]
  rfl

/-- A section waits for a page, or returns more, or ends the enumeration. -/
def Proceeds (r r' : DirReader) : Prop :=
  r'.busy = true ∨ r.got.length < r'.got.length ∨ r'.ended = true

variable {cfg list d fh pages} {E : List String} {unlinked : String → Bool} {r r' : DirReader}
  {f f' : Fh} {rcv rest : List ListDirectoryOutput}

/-- What a reader has got of the names `E`, between two sections. -/
structure Enumerates (cfg : TreeConfig) (list : String → ListDirectoryOutput) (d fh : ℕ)
    (pages : List ListDirectoryOutput) (E : List String) (unlinked : String → Bool) (r : DirReader)
    (f : Fh) (rcv rest : List ListDirectoryOutput) : Prop where
  reading : Reading false [] list pages d fh r.tree f rcv rest
  listed : r.listed = rcv.length
  names : r.tree.listing d (pageNames pages) = E
  files : ∀ n ∈ E, r.tree.unlinked d n = unlinked n
  got : r.got.map DirEnt.name = served unlinked E 0 r.offset
  ended : r.ended → r.got.map DirEnt.name = served unlinked E 0 E.length
  idle : r.busy = false → f.listDirectoryInProgress = none ∧
    Skipped unlinked E r.offset f.prevListDirectoryOutputStartingOffset ∧
    r.tree.Cleared d (pageNames pages) (max r.offset f.prevListDirectoryOutputStartingOffset)
  busy : r.busy = true → ∃ call size, Awaits false f call ∧
    Serves cfg unlinked E ⟨false, r.offset, size, [], 0⟩ call ∧
    r.tree.Cleared d (pageNames pages) call.curOffset ∧
    ∀ name ∈ nextName unlinked E r.offset, cfg.dirEntSize false name ≤ size

/-- The loop waits, returns more or ends. -/
theorem proceeds_of_loop {t t' : FileTree} {L : List String} {call : ReadDirCall} {reply : Reply}
    (hloop : LoopOk cfg f d fh L t call reply t') : r.Proceeds (r.replied t' reply) := by
  obtain ⟨-, call', -, -, -, hends⟩ := hloop
  have hentries : ∀ dirEnt, r.Proceeds (r.replied t' (.entries dirEnt)) := by
    intro dirEnt
    cases dirEnt with
    | nil => exact .inr (.inr rfl)
    | cons e rest =>
        refine .inr (.inl ?_)
        show r.got.length < (r.got ++ e :: rest).length
        rw [List.length_append, List.length_cons]
        omega
  cases hends with
  | waits _ _ _ => exact .inl rfl
  | full _ _ _ _ => exact hentries _
  | last _ _ => exact hentries _

/-- A section of a call has ended. -/
theorem Enumerates.replied {t' : FileTree} {size n : ℕ} {call' : ReadDirCall} {reply : Reply}
    (hgot : r.got.map DirEnt.name = served unlinked E 0 r.offset)
    (hended : r.ended → r.got.map DirEnt.name = served unlinked E 0 E.length)
    (hreading : Reading false [] list pages d fh t' f rcv rest) (hlisted : n = rcv.length)
    (hnames : t'.listing d (pageNames pages) = E)
    (hunlinked : ∀ n ∈ E, t'.unlinked d n = unlinked n)
    (hserves : Serves cfg unlinked E ⟨false, r.offset, size, [], 0⟩ call')
    (hfits : ∀ name ∈ nextName unlinked E r.offset, cfg.dirEntSize false name ≤ size)
    (hclear : t'.Cleared d (pageNames pages) call'.curOffset)
    (hprev : f.prevListDirectoryOutputStartingOffset ≤ call'.curOffset)
    (hends : reply = .waiting ∧ Awaits false f call' ∨
      reply = .entries call'.dirEnt ∧ f.listDirectoryInProgress = none ∧
        (E.length ≤ call'.curOffset ∨ ∃ name, E[call'.curOffset]? = some name ∧
          unlinked name = false ∧ call'.size < call'.curSize + cfg.dirEntSize call'.plus name)) :
    Enumerates cfg list d fh pages E unlinked { r.replied t' reply with listed := n } f rcv
      rest := by
  obtain ⟨new, hnew, hnewNames, hnone, hlast⟩ := hserves.added
  have hle : r.offset ≤ call'.curOffset := hserves.le
  rcases hends with ⟨rfl, hawaits⟩ | ⟨rfl, hidle, hends⟩
  · exact ⟨hreading, hlisted, hnames, hunlinked, hgot, hended, nofun,
      fun _ => ⟨call', size, hawaits, hserves, hclear, hfits⟩⟩
  · rw [hnew, List.nil_append] at *
    by_cases hnil : new = []
    · -- nothing more has been served, so nothing is left
      obtain ⟨hsize, hskip⟩ := hnone hnil
      have hall : r.got.map DirEnt.name = served unlinked E 0 E.length := by
        have hend : E.length ≤ call'.curOffset := by
          rcases hends with hend | ⟨name, hname, hu, hroom⟩
          · exact hend
          · have hfit := hfits name (nextName_eq hle hskip hname hu)
            rw [hserves.size_eq.1, hsize, hserves.size_eq.2] at hroom
            dsimp only at hroom
            omega
        rw [hgot, ← served_of_le (c := 0) hend, ← served_append (Nat.zero_le _) hle, hskip.served,
          List.append_nil]
      subst hnil
      have hsame : ({ r.replied t' (.entries []) with listed := n } : DirReader).got = r.got :=
        List.append_nil _
      have hoff :
          ({ r.replied t' (.entries []) with listed := n } : DirReader).offset = r.offset := by
        unfold offset
        rw [hsame]
      refine ⟨hreading, hlisted, hnames, hunlinked, ?_, ?_, fun _ => ⟨hidle, ?_, ?_⟩, nofun⟩
      · rw [hsame, hoff]
        exact hgot
      · rw [hsame]
        exact fun _ => hall
      · rw [hoff]
        exact hskip.mono hprev
      · rw [hoff]
        exact hclear.mono (max_le hle hprev)
    · obtain ⟨e, he⟩ := Option.ne_none_iff_exists'.mp fun hn =>
        hnil (List.getLast?_eq_none_iff.mp hn)
      obtain ⟨hlt, hoffle, hskip⟩ := hlast e he
      have hoff :
          ({ r.replied t' (.entries new) with listed := n } : DirReader).offset = e.off := by
        show ((r.got ++ new).getLast?.map DirEnt.off).getD 0 = e.off
        rw [List.getLast?_append, he]
        rfl
      have hcur : (⟨false, r.offset, size, [], 0⟩ : ReadDirCall).curOffset = r.offset := rfl
      rw [hcur] at hnewNames hlt
      refine ⟨hreading, hlisted, hnames, hunlinked, ?_, fun hend => ?_, fun _ => ⟨hidle, ?_, ?_⟩,
        nofun⟩
      · rw [hoff]
        show (r.got ++ new).map DirEnt.name = _
        rw [List.map_append, hgot, hnewNames, served_append (Nat.zero_le _) hle,
          ← served_append (Nat.zero_le e.off) hoffle, hskip.served, List.append_nil]
      · change new.isEmpty = true at hend
        exact absurd (List.isEmpty_iff.mp hend) hnil
      · rw [hoff]
        exact hskip.mono hprev
      · rw [hoff]
        exact hclear.mono (max_le hoffle hprev)

/-- A call starts. -/
theorem Enumerates.call (h : Enumerates cfg list d fh pages E unlinked r f rcv rest) (now : ℕ → ℕ)
    (hL : ∀ n ∈ pageNames pages, ¬IsDot n) (hbusy : r.busy = false) {size : ℕ}
    (hfits : ∀ name ∈ nextName unlinked E r.offset, cfg.dirEntSize false name ≤ size) :
    ∃ r' f', r.after cfg ⟨.doReadDir false d fh r.offset size [], now⟩ = some r' ∧
      Enumerates cfg list d fh pages E unlinked r' f' rcv rest := by
  obtain ⟨hidle, hskip, hclear⟩ := h.idle hbusy
  obtain ⟨reply, t', hrun, hok, hloop⟩ := h.reading.calls cfg now size hL hidle hclear
  obtain ⟨f', call', hreading, hcalm, hserves, hclear', hprev, -, -, hends⟩ := Reading.of_loop
    h.reading.direct h.reading.pages h.reading.received h.reading.remains hidle
      (le_max_right _ _) rfl hok hloop
  rw [h.names] at hserves hends
  have hsame := hserves.congr h.files
  have hfrom : Serves cfg unlinked E ⟨false, r.offset, size, [], 0⟩
      ⟨false, max r.offset f.prevListDirectoryOutputStartingOffset, size, [], 0⟩ := by
    apply Serves.of_skip ⟨false, r.offset, size, [], 0⟩ (le_max_left _ _)
    intro k hk hlt
    rcases lt_max_iff.mp hlt with hlt | hlt
    · exact absurd hlt (not_lt.mpr hk)
    · exact hskip k hk hlt
  refine ⟨{ r.replied t' reply with listed := r.listed }, f', ?_, Enumerates.replied h.got h.ended
    hreading h.listed ?_ (fun n hn => ?_) (hfrom.trans hsame) hfits hclear' hprev ?_⟩
  · unfold after
    rw [hrun]
    cases reply <;> rfl
  · unfold FileTree.listing
    rw [hcalm.rest]
    exact h.names
  · rw [hcalm.unlinked]
    exact h.files n hn
  · refine hends.imp_right fun ⟨hr, hi, hend⟩ => ⟨hr, hi, hend.imp_right ?_⟩
    rintro ⟨name, hname, hu, hroom⟩
    exact ⟨name, hname, (h.files name (List.mem_of_getElem? hname)).symm.trans hu, hroom⟩

/-- The backend lists a page. -/
theorem Enumerates.lists (h : Enumerates cfg list d fh pages E unlinked r f rcv rest) (now : ℕ → ℕ)
    (hL : ∀ n ∈ pageNames pages, ¬IsDot n) (hbusy : r.busy = true) :
    ∃ r' f' rest', r.after cfg ⟨.readDirListed fh (some (r.page list fh)) [], now⟩ = some r' ∧
      r.Proceeds r' ∧ r'.listed = r.listed ∧
      Enumerates cfg list d fh pages E unlinked { r' with listed := r'.listed + 1 } f'
        (rcv ++ [r.page list fh]) rest' := by
  obtain ⟨call, size, hawaits, hserves, hclear, hfits⟩ := h.busy hbusy
  obtain ⟨reply, t', f₁, rest', hrun, hok, hpages, hdirect, hreceived, hremains, hidle, hprev,
    hloop⟩ := h.reading.lists cfg now hawaits hL hclear
  obtain ⟨f', call', hreading, hcalm, hserves', hclear', hprev', -, -, hends⟩ := Reading.of_loop
    hdirect hpages hreceived hremains hidle hprev hawaits.plus_eq hok hloop
  rw [h.names] at hserves' hends
  rw [page_eq fh h.reading.reads.fhMap]
  have hsame : (r.replied t' reply).listed = r.listed := by cases reply <;> rfl
  refine ⟨r.replied t' reply, f', rest', ?_, proceeds_of_loop hloop, hsame, ?_⟩
  · unfold after
    rw [hrun]
  · have hlisted :
      (r.replied t' reply).listed + 1 = (rcv ++ [list f.continuationToken]).length := by
      rw [List.length_append, ← h.listed, hsame]
      rfl
    refine Enumerates.replied h.got h.ended hreading hlisted ?_ (fun n hn => ?_)
      (hserves.trans (hserves'.congr h.files)) hfits hclear' hprev' ?_
    · unfold FileTree.listing
      rw [hcalm.rest]
      exact h.names
    · rw [hcalm.unlinked]
      exact h.files n hn
    · refine hends.imp_right fun ⟨hr, hi, hend⟩ => ⟨hr, hi, hend.imp_right ?_⟩
      rintro ⟨name, hname, hu, hroom⟩
      exact ⟨name, hname, (h.files name (List.mem_of_getElem? hname)).symm.trans hu, hroom⟩

/-- A listing fails, and no name gets lost. -/
theorem Enumerates.fails (h : Enumerates cfg list d fh pages E unlinked r f rcv rest) (now : ℕ → ℕ)
    (hbusy : r.busy = true)
    (hplace : Skipped unlinked E r.offset f.prevListDirectoryOutputStartingOffset) :
    ∃ r' f', r.after cfg ⟨.readDirListed fh none [], now⟩ = some r' ∧
      Enumerates cfg list d fh pages E unlinked r' f' rcv rest := by
  obtain ⟨call, size, hawaits, hserves, hclear, -⟩ := h.busy hbusy
  obtain ⟨t', hrun, hreading, hcalm, hv⟩ := h.reading.fails cfg now hawaits
    (pageNames pages)
  refine ⟨r.replied t' (.errno .EACCES), { f with listDirectoryInProgress := none }, ?_, hreading,
    h.listed, ?_, fun n hn => ?_, h.got, h.ended, fun _ => ⟨rfl, hplace, ?_⟩, nofun⟩
  · unfold after
    rw [hrun]
  · exact (congrArg (pageNames pages ++ ·) hcalm.rest).trans h.names
  · exact (hcalm.unlinked n).trans (h.files n hn)
  · show ∀ n ∈ _, n ∉ t'.virtNames d
    rw [hv]
    exact hclear.mono (max_le hserves.le hawaits.le)

/-- Somebody else does something. -/
theorem Enumerates.other (h : Enumerates cfg list d fh pages E unlinked r f rcv rest) {s : TreeStep}
    {t' : FileTree} (hstep : r.tree.step cfg s = some t')
    (hu : Undisturbed d fh (pageNames pages) r.tree t') :
    Enumerates cfg list d fh pages E unlinked { r with tree := t' } f rcv rest := by
  have hreads := h.reading.reads
  have hnames : t'.listing d (pageNames pages) = E :=
    (congrArg (pageNames pages ++ ·) hu.rest).trans h.names
  have hclear : ∀ c, r.tree.Cleared d (pageNames pages) c → t'.Cleared d (pageNames pages) c :=
    fun c hc n hn hv => hc n hn (hu.listed n hv (List.mem_of_mem_take hn))
  refine ⟨⟨step_ok h.reading.settled (.inl trivial) hstep,
    ⟨⟨hu.dir.1, hu.dir.2, hreads.dir.notRoot⟩, hu.handle.2.trans hreads.fhMap, hu.handle.1⟩,
    h.reading.direct, h.reading.pages, h.reading.received, h.reading.remains⟩, h.listed,
    hnames, fun n hn => ?_, h.got, h.ended, fun hb => ?_, fun hb => ?_⟩
  · rw [hu.unlinked n (by rw [h.names]; exact hn)]
    exact h.files n hn
  · obtain ⟨h₁, h₂, h₃⟩ := h.idle hb
    exact ⟨h₁, h₂, hclear _ h₃⟩
  · obtain ⟨call, size, h₁, h₂, h₃, h₄⟩ := h.busy hb
    exact ⟨call, size, h₁, h₂, hclear _ h₃, h₄⟩

/-- **Every step** keeps what the reader has got in order. -/
theorem Enumerates.step (h : Enumerates cfg list d fh pages E unlinked r f rcv rest)
    (hL : ∀ n ∈ pageNames pages, ¬IsDot n) {e : DirReaderStep}
    (hfollows : r.Follows cfg d fh pages e) (hplace : r.FailsInPlace d fh pages e)
    (hstep : r.step cfg list d fh e = some r') :
    ∃ f' rcv' rest', Enumerates cfg list d fh pages E unlinked r' f' rcv' rest' := by
  cases step_stepped hstep with
  | call hidle _ hafter =>
      obtain ⟨rfl, hfits⟩ := hfollows
      rw [h.names, nextName_congr h.files] at hfits
      obtain ⟨r₁, f', hcall, h'⟩ := h.call _ hL hidle hfits
      obtain rfl := Option.some.inj (hcall.symm.trans hafter)
      exact ⟨f', rcv, rest, h'⟩
  | lists hbusy hafter =>
      obtain ⟨r₁, f', rest', hlists, -, -, h'⟩ := h.lists _ hL hbusy
      obtain rfl := Option.some.inj (hlists.symm.trans hafter)
      exact ⟨f', _, rest', h'⟩
  | fails hbusy hafter =>
      have hskip : Skipped unlinked E r.offset f.prevListDirectoryOutputStartingOffset := by
        intro k hk hlt
        rw [← keptFrom_eq fh h.reading.reads.fhMap] at hlt
        obtain ⟨name, hname, hu⟩ := hplace k hlt hk
        rw [h.names] at hname
        exact ⟨name, hname, (h.files name (List.mem_of_getElem? hname)).symm.trans hu⟩
      obtain ⟨r₁, f', hfails, h'⟩ := h.fails _ hbusy hskip
      obtain rfl := Option.some.inj (hfails.symm.trans hafter)
      exact ⟨f', rcv, rest, h'⟩
  | other ht' => exact ⟨f, rcv, rest, h.other ht' (hfollows _ ht')⟩

/-! ### Whole enumerations -/

/-- A directory of a backend has been opened, and nothing read of it. -/
structure Opened (d fh : ℕ) (t : FileTree) : Prop where
  dir : t.inodeMap d = true ∧ (t.inode d).inodeType ≠ .FileObject ∧ d ≠ FUSERootDirInodeNumber
  handle : fh ∈ (t.globals.use d).fhSet ∧
    ∃ serveFromBPTree, t.globals.fhMap fh = some (newFh d false false serveFromBPTree)

/-- What an enumeration is to return: the names of the backend and the virt
entries, but for unlinked files. -/
def expected (t : FileTree) (d : ℕ) (pages : List ListDirectoryOutput) : List String :=
  (t.listing d (pageNames pages)).filter (!t.unlinked d ·)

/-- The names that a complete enumeration returns. -/
theorem mem_expected {t : FileTree} {name : String} : name ∈ expected t d pages ↔
    (name ∈ fileNames pages ∨ name ∈ subdirectoryNames pages ∨ t.virtGet d name ≠ none) ∧
      t.unlinked d name = false := by
  unfold expected listing restNames
  rw [List.mem_filter, List.mem_append, List.mem_filter, mem_virtNames, Bool.not_eq_true',
    decide_eq_true_eq]
  refine and_congr_left fun _ => ?_
  unfold pageNames
  rw [List.mem_append]
  tauto

theorem expected_nodup {t : FileTree} (h : (pageNames pages).Nodup) :
    (expected t d pages).Nodup := (listing_nodup h).filter _

/-- The start of a reading. -/
theorem Opened.reading {t : FileTree} {plus : Bool} {manifest : List ManifestPartEntry}
    (h : Opened d fh t) (hsettled : t.Settled True) (hsplit : Split list "" pages)
    (hdirect : ∀ f ∈ t.globals.fhMap fh, f.Direct plus manifest) :
    ∃ f, Reading plus manifest list pages d fh t f [] pages ∧ f.listDirectoryInProgress = none ∧
      f.prevListDirectoryOutputStartingOffset = 0 := by
  obtain ⟨⟨hi, hfile, hroot⟩, hfh, b, hf⟩ := h
  refine ⟨_, ⟨hsettled, ⟨⟨hi, hfile, hroot⟩, hf, hfh⟩, hdirect _ hf, rfl,
    ⟨rfl, Nat.zero_le _, .inl rfl, rfl, fun _ => rfl, rfl, rfl⟩, ?_⟩, rfl, rfl⟩
  unfold Remains
  rw [show (newFh d false false b).listDirectorySequenceDone = false from rfl,
    if_neg Bool.false_ne_true]
  exact hsplit

variable (cfg) in
/-- The start of an enumeration. -/
theorem Opened.enumerates {t : FileTree} (h : Opened d fh t) (hsettled : t.Settled True)
    (hsplit : Split list "" pages) : ∃ f, Enumerates cfg list d fh pages
      (t.listing d (pageNames pages)) (t.unlinked d) (start t) f [] pages := by
  obtain ⟨f, hreading, hidle, hzero⟩ := h.reading hsettled hsplit fun _ _ => Fh.direct_false
  refine ⟨f, hreading, rfl, rfl, fun _ _ => rfl, served_self.symm, nofun, fun _ =>
    ⟨hidle, fun k _ hlt => ?_, fun n hn => ?_⟩, nofun⟩
  · rw [hzero] at hlt
    exact absurd hlt (Nat.not_lt_zero k)
  · rw [hzero, show (start t).offset = 0 from rfl, Nat.max_self, List.take_zero] at hn
    cases hn

theorem served_all (unlinked : String → Bool) (E : List String) :
    served unlinked E 0 E.length = E.filter (!unlinked ·) := by
  unfold served
  rw [List.take_length, List.drop_zero]

/-- An enumeration. -/
theorem Enumerates.of_run {n : ℕ} {steps : List TreeStep} {t : FileTree}
    {events : List DirReaderStep}
    (hrun : exec (FileTree.step cfg) (initial n) steps = some t) (hopen : Opened d fh t)
    (hsplit : Split list "" pages) (hdots : ∀ name ∈ pageNames pages, ¬IsDot name)
    (hreads : exec (DirReader.step cfg list d fh) (start t) events = some r)
    (hfollows : Always (DirReader.step cfg list d fh) (Follows cfg d fh pages) (start t) events)
    (hplace : Always (DirReader.step cfg list d fh) (FailsInPlace d fh pages) (start t) events) :
    ∃ f rcv rest, Enumerates cfg list d fh pages (t.listing d (pageNames pages)) (t.unlinked d) r f
      rcv rest := by
  have hsettled : t.Settled True := settled_of_run (.inl trivial) hrun
  obtain ⟨f₀, h₀⟩ := hopen.enumerates cfg hsettled hsplit
  refine exec_invariant (I := fun r => ∃ f rcv rest, Enumerates cfg list d fh pages
    (t.listing d (pageNames pages)) (t.unlinked d) r f rcv rest) ?_ (hfollows.and hplace) hreads
    ⟨f₀, [], pages, h₀⟩
  rintro r e r' ⟨f, rcv, rest, h⟩ ⟨hf, hp⟩ hstep
  exact h.step hdots hf hp hstep

/-- **Every name once.**  A reader that starts at offset 0 and follows the `Off` of
the last entry gets the names of the directory one by one, each once; an empty
answer comes when it has got them all, and no step ends the process.  Each section
waits for one page more, returns names or ends the enumeration, so it does end.  A
listing may fail as long as the handle keeps the page of the next name. -/
theorem enumerates_all {n : ℕ} {steps : List TreeStep} {t : FileTree} {events : List DirReaderStep}
    (hrun : exec (FileTree.step cfg) (initial n) steps = some t) (hopen : Opened d fh t)
    (hsplit : Split list "" pages) (hnodup : (pageNames pages).Nodup)
    (hdots : ∀ name ∈ pageNames pages, ¬IsDot name)
    (hreads : exec (step cfg list d fh) (start t) events = some r)
    (hfollows : Always (step cfg list d fh) (Follows cfg d fh pages) (start t) events)
    (hplace : Always (step cfg list d fh) (FailsInPlace d fh pages) (start t) events) :
    (expected t d pages).Nodup ∧
    (∀ name, name ∈ expected t d pages ↔
      (name ∈ fileNames pages ∨ name ∈ subdirectoryNames pages ∨ t.virtGet d name ≠ none) ∧
        t.unlinked d name = false) ∧
    r.got.map DirEnt.name <+: expected t d pages ∧
    (r.ended = true → r.got.map DirEnt.name = expected t d pages) ∧
    r.listed ≤ pages.length ∧
    (r.busy = false → ∀ size now, ∃ r', r.step cfg list d fh (.call r.offset size now) = some r' ∧
      r.Proceeds r') ∧
    (r.busy = true → ∀ now, (∃ r', r.step cfg list d fh (.listed true now) = some r' ∧
        r'.listed = r.listed + 1 ∧ r.Proceeds r') ∧
      ∃ r', r.step cfg list d fh (.listed false now) = some r' ∧ r'.busy = false) := by
  obtain ⟨f, rcv, rest, h⟩ := Enumerates.of_run hrun hopen hsplit hdots hreads hfollows hplace
  refine ⟨expected_nodup hnodup, fun name => mem_expected, ?_, fun hend => ?_,
    ?_, fun hb size now => ?_, fun hb now => ⟨?_, ?_⟩⟩
  · rw [h.got]
    unfold served expected
    exact (List.take_prefix _ _).filter _
  · rw [h.ended hend, served_all]
    rfl
  · rw [h.listed, ← h.reading.pages, List.length_append]
    exact Nat.le_add_right ..
  · obtain ⟨hidle, -, hclear⟩ := h.idle hb
    obtain ⟨reply, t', hruns, -, hloop⟩ := h.reading.calls cfg now size hdots hidle hclear
    refine ⟨r.replied t' reply, ?_, proceeds_of_loop hloop⟩
    dsimp only [DirReader.step, after]
    rw [if_pos ⟨hb, r.offset_mem⟩, hruns]
  · obtain ⟨r', f', rest', hafter, hproceeds, hlisted, -⟩ := h.lists now hdots hb
    refine ⟨{ r' with listed := r'.listed + 1 }, ?_, congrArg (· + 1) hlisted, hproceeds⟩
    dsimp only [DirReader.step]
    rw [if_pos hb, if_pos rfl, hafter]
    rfl
  · obtain ⟨call, size, hawaits, -⟩ := h.busy hb
    obtain ⟨t', hruns, -⟩ := h.reading.fails cfg now hawaits []
    refine ⟨r.replied t' (.errno .EACCES), ?_, rfl⟩
    dsimp only [DirReader.step, after]
    rw [if_pos hb, if_neg Bool.false_ne_true, hruns]
    rfl

instance (L : List String) (t t' : FileTree) : Decidable (Meanwhile d fh L t t') :=
  decidable_of_iff ((t'.inodeMap d = true ∧ (t'.inode d).inodeType ≠ .FileObject) ∧
      (fh ∈ (t'.globals.use d).fhSet ∧ t'.globals.fhMap fh = t.globals.fhMap fh) ∧
      ∀ n ∈ t'.virtNames d, n ∈ L → n ∈ t.virtNames d)
    ⟨fun ⟨h₁, h₂, h₃⟩ => ⟨h₁, h₂, h₃⟩, fun h => ⟨h.dir, h.handle, h.listed⟩⟩

instance (L : List String) (t t' : FileTree) : Decidable (Undisturbed d fh L t t') :=
  decidable_of_iff (Meanwhile d fh L t t' ∧ t'.restNames d L = t.restNames d L ∧
      ∀ n ∈ t.listing d L, t'.unlinked d n = t.unlinked d n)
    ⟨fun ⟨h₁, h₂, h₃⟩ => ⟨h₁, h₂, h₃⟩, fun h => ⟨h.toMeanwhile, h.rest, h.unlinked⟩⟩

instance (r : DirReader) (e : DirReaderStep) : Decidable (Follows cfg d fh pages r e) := by
  unfold Follows
  split <;> infer_instance

instance (r : DirReader) (e : DirReaderStep) : Decidable (FailsInPlace d fh pages r e) := by
  unfold FailsInPlace
  split <;> infer_instance

instance (t : FileTree) : Decidable (Opened d fh t) :=
  decidable_of_iff ((t.inodeMap d = true ∧ (t.inode d).inodeType ≠ .FileObject ∧
      d ≠ FUSERootDirInodeNumber) ∧ fh ∈ (t.globals.use d).fhSet ∧
      ∃ b, t.globals.fhMap fh = some (newFh d false false b))
    ⟨fun ⟨h₁, h₂⟩ => ⟨h₁, h₂⟩, fun h => ⟨h.dir, h.handle⟩⟩

/-- A backend is mounted, and its directory opened. -/
def mountAndOpen : List TreeStep :=
  [⟨.mount "b" false, id⟩, ⟨.doOpenDir 3, id⟩]

/-- Two pages, with a subdirectory on both. -/
def twoPages : List ListDirectoryOutput :=
  [⟨[("a", ⟨1, "e", 1⟩)], ["s"], "1", true⟩, ⟨[("c", ⟨1, "e", 1⟩)], ["s", "t"], "", false⟩]

/-- The page that a `continuationToken` stands for. -/
def pageOf (pages : List ListDirectoryOutput) (token : String) : ListDirectoryOutput :=
  match pages.dropWhile fun page => page.nextContinuationToken ≠ token with
  | _ :: page :: _ => page
  | _ => pages.headD ⟨[], [], "", false⟩

/-- The listing of the second page fails once. -/
def failsOnce : List DirReaderStep :=
  [.call 0 4096 id, .listed true id, .listed false id, .other ⟨.doGetAttr 3, id⟩, .call 0 32 id,
    .listed true id, .call 1 4096 id, .call 6 4096 id]

/-- The run theorem at two pages, one of which fails once. -/
theorem enumerates_twoPages :
    ∃ t r, exec (FileTree.step anyTimes) (initial 0) mountAndOpen = some t ∧
    exec (step anyTimes (pageOf twoPages) 3 4) (start t) failsOnce = some r ∧
    r.got.map DirEnt.name = ["a", "c", "s", "t", ".", ".."] ∧
    r.got.map DirEnt.name = expected t 3 twoPages := by
  obtain ⟨t, ht, hopen, hfollows, hplace, hevents⟩ : ∃ t,
      exec (FileTree.step anyTimes) (initial 0) mountAndOpen = some t ∧ Opened 3 4 t ∧
        Always (step anyTimes (pageOf twoPages) 3 4) (Follows anyTimes 3 4 twoPages) (start t)
          failsOnce ∧
        Always (step anyTimes (pageOf twoPages) 3 4) (FailsInPlace 3 4 twoPages)
          (start t) failsOnce ∧
        (exec (step anyTimes (pageOf twoPages) 3 4) (start t) failsOnce).any (fun r => decide
          (r.ended = true ∧ r.got.map DirEnt.name = ["a", "c", "s", "t", ".", ".."])) = true :=
    exec_exists (by decide +kernel)
  obtain ⟨r, hr, hended, hgot⟩ := exec_exists hevents
  have hsplit : Split (pageOf twoPages) "" twoPages := .more rfl (.last rfl)
  refine ⟨t, r, ht, hr, hgot, ?_⟩
  exact (enumerates_all ht hopen hsplit (by decide) (by decide) hr hfollows hplace).2.2.2.1 hended

/-- Three pages of one file each. -/
def threePages : List ListDirectoryOutput :=
  [⟨[("a", ⟨1, "e", 1⟩)], [], "1", true⟩, ⟨[("b", ⟨1, "e", 1⟩)], [], "2", true⟩,
    ⟨[("c", ⟨1, "e", 1⟩)], [], "", false⟩]

/-- The listing of the third page fails once, when the handle has dropped the first. -/
def failsBehind : List DirReaderStep :=
  [.call 0 4096 id, .listed true id, .listed true id, .listed false id, .call 0 4096 id,
    .listed true id, .call 5 4096 id]

/-- The call that starts again at offset 0 starts at the second file. -/
theorem failsBehind_loses : ∃ t r, exec (FileTree.step anyTimes) (initial 0) mountAndOpen = some t ∧
    Opened 3 4 t ∧ Split (pageOf threePages) "" threePages ∧ (pageNames threePages).Nodup ∧
    (∀ name ∈ pageNames threePages, ¬IsDot name) ∧
    exec (step anyTimes (pageOf threePages) 3 4) (start t) failsBehind = some r ∧
    Always (step anyTimes (pageOf threePages) 3 4) (Follows anyTimes 3 4 threePages) (start t)
      failsBehind ∧
    r.ended = true ∧ "a" ∈ expected t 3 threePages ∧
    r.got.map DirEnt.name = ["b", "c", ".", ".."] := by
  obtain ⟨t, ht, hopen, hfollows, hexpected, hevents⟩ : ∃ t,
      exec (FileTree.step anyTimes) (initial 0) mountAndOpen = some t ∧ Opened 3 4 t ∧
        Always (step anyTimes (pageOf threePages) 3 4) (Follows anyTimes 3 4 threePages) (start t)
          failsBehind ∧ "a" ∈ expected t 3 threePages ∧
        (exec (step anyTimes (pageOf threePages) 3 4) (start t) failsBehind).any (fun r => decide
          (r.ended = true ∧ r.got.map DirEnt.name = ["b", "c", ".", ".."])) = true :=
    exec_exists (by decide +kernel)
  obtain ⟨r, hr, hended, hgot⟩ := exec_exists hevents
  have hsplit : Split (pageOf threePages) "" threePages := .more rfl (.more rfl (.last rfl))
  exact ⟨t, r, ht, hopen, hsplit, by decide, by decide, hr, hfollows, hended, hexpected, hgot⟩

end DirReader

end MultiStorageFileSystem
