/-
MultiStorageClient/ManifestTreeBounds.lean

A tree that blocks the workers of `generateManifest` (`manifest_gen.go`) with as few
directories as can be.

`not_allBlocked_of_tree` counts the directories that send plainly, and all of them.
In `wideTree` one worker lists the root and hands out a flat directory to each of the
others, which come to a send while the queue is empty.  Then it fills the queue, and
comes to a send itself.  So both counts are the bounds
(`ManifestGenerator.exists_blocked_at_bounds`), for every capacity and every number of
workers.
-/
import MultiStorageClient.ManifestTrees

namespace MultiStorageFileSystem

open Run

/-! ### The tree -/

/-- The names `c`, `cc`, and so on. -/
def namesOf (c : Char) (n : ℕ) : List GoStr := (List.range n).map fun i => List.replicate (i + 1) c

/-- The root is flat, and so are its directories `f/`, `ff/`, and so on. -/
def wideFlat (dirPath : GoStr) : Bool :=
  dirPath = [] ∨ (dirPath.head? = some 'f' ∧ depthOf dirPath = 1)

/-- Behind its files the root has a flat directory for each worker but one, and then one more
directory than the queue holds; a flat directory has one. -/
def wideTail (capacity workers : ℕ) (dirPath : GoStr) : List GoStr :=
  if dirPath = [] then namesOf 'f' (workers - 1) ++ namesOf 'l' (capacity + 1) else ["l".toList]

/-- The flat directories have more files `a…` than one page, and then their subdirectories. -/
def wideTree (capacity workers : ℕ) : WalkBackend where
  listDirectory input :=
    if wideFlat input.dirPath = false then some ⟨[], [], [], false⟩
    else if input.startAfter = [] then some ⟨[], ["a".toList], "t".toList, true⟩
    else some ⟨wideTail capacity workers input.dirPath, [], [], false⟩
  flatDirHints := []
  flatDirConfirmationPages := 1

/-- Where the tail of a flat directory starts. -/
def tailInput (dirPath : GoStr) : WalkInput :=
  ⟨dirPath, [], dirPath ++ stringOfByte 'a' ++ List.replicate 20 '~', 1000⟩

section WideTree

variable (capacity workers : ℕ) {n : ℕ} {dirPath name : GoStr} {full : Bool}

/-- The page in the tail of a flat directory. -/
theorem listDirectory_tail (h : wideFlat dirPath = true) :
    (wideTree capacity workers).listDirectory (tailInput dirPath) =
      some ⟨wideTail capacity workers dirPath, [], [], false⟩ := by
  have hne : dirPath ++ stringOfByte 'a' ++ List.replicate 20 '~' ≠ [] :=
    List.append_ne_nil_of_right_ne_nil _ (List.cons_ne_nil _ _)
  exact (if_neg (Bool.not_eq_false _ ▸ h)).trans (if_neg hne)

/-- The first page of a flat directory. -/
theorem listDirectory_first (h : wideFlat dirPath = true) :
    (wideTree capacity workers).listDirectory (firstInput dirPath) =
      some ⟨[], ["a".toList], "t".toList, true⟩ :=
  (if_neg (Bool.not_eq_false _ ▸ h)).trans (if_pos rfl)

theorem start_flat (h : wideFlat dirPath = true) :
    (wideTree capacity workers).start dirPath = (true, some (tailInput dirPath)) := by
  unfold WalkBackend.start
  rw [listDirectory_first capacity workers h]
  rfl

theorem listing_flat (h : wideFlat dirPath = true) :
    (Frame.listing dirPath 0).step (wideTree capacity workers) full false =
      some ([.resuming dirPath [] (some (tailInput dirPath))], .nothing) := by
  have hfirst : (wideTree capacity workers).listDirectory ⟨dirPath, [], [], 1000⟩ = _ :=
    listDirectory_first capacity workers h
  rw [Frame.step, hfirst]
  rfl

theorem fetch_flat (h : wideFlat dirPath = true) :
    (Frame.resuming dirPath [] (some (tailInput dirPath))).step (wideTree capacity workers) full
        false =
      some ([.resuming dirPath (wideTail capacity workers dirPath) none], .nothing) := by
  rw [Frame.step, listDirectory_tail capacity workers h]
  rfl

/-- A directory that is not flat has no subdirectory. -/
theorem total_leaf (own : GoStr → List GoStr → ℕ) (h : wideFlat dirPath = false) :
    Total (wideTree capacity workers) own dirPath (own dirPath []) := by
  have hlist : (wideTree capacity workers).listDirectory (firstInput dirPath) =
      some ⟨[], [], [], false⟩ := if_pos h
  have hstart : (wideTree capacity workers).start dirPath = (false, some (firstInput dirPath)) := by
    unfold WalkBackend.start
    rw [hlist]
    rfl
  have hpages : WalkPages (wideTree capacity workers) dirPath
      ((wideTree capacity workers).start dirPath).2 [⟨[], [], [], false⟩] := by
    rw [hstart]
    exact .page hlist .ended
  refine Total.node (fun _ => 0) hpages ?_
  intro subdir hsubdir
  cases hsubdir

/-- A flat directory counts with the subdirectories in its tail. -/
theorem total_flat (own : GoStr → List GoStr → ℕ) (h : wideFlat dirPath = true) (m : GoStr → ℕ)
    (hsub : ∀ subdir ∈ wideTail capacity workers dirPath,
      Total (wideTree capacity workers) own (childPath dirPath subdir) (m subdir)) :
    Total (wideTree capacity workers) own dirPath
      (own dirPath (wideTail capacity workers dirPath) +
        ((wideTail capacity workers dirPath).map m).sum) := by
  have hpages : WalkPages (wideTree capacity workers) dirPath
      ((wideTree capacity workers).start dirPath).2
      [⟨wideTail capacity workers dirPath, [], [], false⟩] := by
    rw [start_flat capacity workers h]
    exact .page (listDirectory_tail capacity workers h) .ended
  have hone : subdirsOf [⟨wideTail capacity workers dirPath, [], [], false⟩] =
      wideTail capacity workers dirPath := List.flatMap_singleton _ _
  rw [← hone] at hsub ⊢
  exact Total.node m hpages hsub

theorem mem_namesOf {c : Char} (h : name ∈ namesOf c n) : ∃ i, name = List.replicate (i + 1) c := by
  obtain ⟨i, -, hi⟩ := List.mem_map.mp h
  exact ⟨i, hi.symm⟩

/-- The directories of the root with an `f` are flat, and the others are not. -/
theorem wideFlat_child (h : name ∈ namesOf 'f' n) : wideFlat (childPath [] name) = true := by
  obtain ⟨i, rfl⟩ := mem_namesOf h
  have hdepth : depthOf (childPath [] (List.replicate (i + 1) 'f')) = 1 := by
    unfold depthOf childPath
    rw [List.nil_append, List.count_append, List.count_replicate]
    rfl
  exact decide_eq_true (.inr ⟨rfl, hdepth⟩)

theorem not_wideFlat_leaf (h : name ∈ namesOf 'l' n) : wideFlat (childPath [] name) = false := by
  obtain ⟨i, rfl⟩ := mem_namesOf h
  refine decide_eq_false ?_
  rintro (hnil | ⟨hhead, -⟩)
  · cases hnil
  · exact absurd (Option.some.inj hhead) (by decide)

/-- Nor are those in them. -/
theorem not_wideFlat_grandchild (h : name ∈ namesOf 'f' n) :
    wideFlat (childPath (childPath [] name) "l".toList) = false := by
  obtain ⟨i, rfl⟩ := mem_namesOf h
  have hdepth : depthOf (childPath (childPath [] (List.replicate (i + 1) 'f')) "l".toList) = 2 := by
    unfold depthOf childPath
    rw [List.nil_append, List.count_append, List.count_append, List.count_append,
      List.count_replicate]
    rfl
  refine decide_eq_false ?_
  rintro (hnil | ⟨-, hone⟩)
  · exact absurd hnil (List.append_ne_nil_of_right_ne_nil _ (List.cons_ne_nil _ _))
  · rw [hdepth] at hone
    cases hone

theorem wideTail_child (name : GoStr) :
    wideTail capacity workers (childPath [] name) = ["l".toList] :=
  if_neg (List.append_ne_nil_of_right_ne_nil _ (List.cons_ne_nil _ _))

theorem length_namesOf (c : Char) (n : ℕ) : (namesOf c n).length = n := by
  rw [namesOf, List.length_map, List.length_range]

theorem namesOf_succ (c : Char) (n : ℕ) :
    namesOf c (n + 1) = namesOf c n ++ [List.replicate (n + 1) c] := by
  rw [namesOf, List.range_succ, List.map_append]
  rfl

/-- The numbers of the directories in the root, as far as they are the same for those of a kind. -/
theorem total_wide (own : GoStr → List GoStr → ℕ) {x y : ℕ}
    (hflat : ∀ name ∈ namesOf 'f' (workers - 1),
      Total (wideTree capacity workers) own (childPath [] name) x)
    (hleaf : ∀ name ∈ namesOf 'l' (capacity + 1),
      Total (wideTree capacity workers) own (childPath [] name) y) :
    Total (wideTree capacity workers) own []
      (own [] (wideTail capacity workers []) + ((workers - 1) * x + (capacity + 1) * y)) := by
  have hf : ∀ name ∈ namesOf 'f' (workers - 1), name.head? = some 'f' := by
    intro name hname
    obtain ⟨i, rfl⟩ := mem_namesOf hname
    rfl
  have hl : ∀ name ∈ namesOf 'l' (capacity + 1), name.head? ≠ some 'f' := by
    intro name hname
    obtain ⟨i, rfl⟩ := mem_namesOf hname
    exact fun heq => absurd (Option.some.inj heq) (by decide)
  have hroot : wideFlat [] = true := rfl
  have htotal := total_flat capacity workers own hroot
    (fun name => if name.head? = some 'f' then x else y) ?_
  · have hsumf : ((namesOf 'f' (workers - 1)).map fun name =>
        if name.head? = some 'f' then x else y) = List.replicate (workers - 1) x := by
      rw [List.map_congr_left fun name hname => if_pos (hf name hname), List.map_const',
        length_namesOf]
    have hsuml : ((namesOf 'l' (capacity + 1)).map fun name =>
        if name.head? = some 'f' then x else y) = List.replicate (capacity + 1) y := by
      rw [List.map_congr_left fun name hname => if_neg (hl name hname), List.map_const',
        length_namesOf]
    have htail : wideTail capacity workers [] =
        namesOf 'f' (workers - 1) ++ namesOf 'l' (capacity + 1) := rfl
    rw [htail, List.map_append, List.sum_append, hsumf, hsuml, List.sum_replicate,
      List.sum_replicate, smul_eq_mul, smul_eq_mul, ← htail] at htotal
    exact htotal
  · intro name hname
    rcases List.mem_append.mp hname with hname | hname
    · rw [if_pos (hf name hname)]
      exact hflat name hname
    · rw [if_neg (hl name hname)]
      exact hleaf name hname

/-- A flat directory in the root has one directory behind its files. -/
theorem total_wide_flat (own : GoStr → List GoStr → ℕ) (h : name ∈ namesOf 'f' n) :
    Total (wideTree capacity workers) own (childPath [] name)
      (own (childPath [] name) ["l".toList] +
        own (childPath (childPath [] name) "l".toList) []) := by
  have htotal := total_flat capacity workers own (wideFlat_child h)
    (fun subdir => own (childPath (childPath [] name) subdir) []) ?_
  · rw [wideTail_child] at htotal
    exact htotal
  · intro subdir hsubdir
    rw [wideTail_child, List.mem_singleton] at hsubdir
    rw [hsubdir]
    exact total_leaf capacity workers own (not_wideFlat_grandchild h)

/-- As many directories as the queue and twice the workers hold. -/
theorem total_everyDir (hworkers : 1 ≤ workers) :
    Total (wideTree capacity workers) everyDir [] (capacity + 2 * workers) := by
  have htotal := total_wide capacity workers everyDir (x := 2) (y := 1)
    (fun _ h => total_wide_flat capacity workers _ h)
    (fun _ h => total_leaf capacity workers _ (not_wideFlat_leaf h))
  have hsum : everyDir [] (wideTail capacity workers []) +
      ((workers - 1) * 2 + (capacity + 1) * 1) = capacity + 2 * workers := by
    show 1 + _ = _
    omega
  rwa [hsum] at htotal

/-- As many directories that send plainly as workers. -/
theorem total_plainSends (hworkers : 1 ≤ workers) :
    Total (wideTree capacity workers) (wideTree capacity workers).plainSends [] workers := by
  have hone : ∀ {dirPath subdirs}, wideFlat dirPath = true → subdirs ≠ [] →
      (wideTree capacity workers).plainSends dirPath subdirs = 1 := by
    intro dirPath subdirs hflat hne
    refine if_pos ⟨hne, .inl ?_⟩
    rw [start_flat capacity workers hflat]
  have hnone : ∀ dirPath, (wideTree capacity workers).plainSends dirPath [] = 0 :=
    fun _ => if_neg fun h => h.1 rfl
  have htotal := total_wide capacity workers (wideTree capacity workers).plainSends
    (x := 1) (y := 0) ?_ ?_
  · have hne : wideTail capacity workers [] ≠ [] := by
      refine List.append_ne_nil_of_right_ne_nil _ ?_
      rw [← List.length_pos_iff, length_namesOf]
      exact Nat.succ_pos _
    have hsum : (wideTree capacity workers).plainSends [] (wideTail capacity workers []) +
        ((workers - 1) * 1 + (capacity + 1) * 0) = workers := by
      rw [hone rfl hne]
      omega
    rwa [hsum] at htotal
  · intro name hname
    have hflat := total_wide_flat capacity workers (wideTree capacity workers).plainSends hname
    rwa [hone (wideFlat_child hname) (List.cons_ne_nil _ _), hnone] at hflat
  · intro name hname
    have hleaf := total_leaf capacity workers (wideTree capacity workers).plainSends
      (not_wideFlat_leaf hname)
    rwa [hnone] at hleaf

end WideTree

/-! ### A run that blocks all workers -/

namespace ManifestGenerator

/-- The walk while the queue is open. -/
def opened (capacity : ℕ) (workQueue : List GoStr) (wg : ℕ) (workers : List Worker) :
    ManifestGenerator :=
  ⟨capacity, workQueue, wg, workers, .waiting, none⟩

section Steps

variable (b : WalkBackend) (capacity wg : ℕ) {k : ℕ} (queue : List GoStr) {ws : List Worker}
  {dirPath subdir : GoStr} {subdirs : List GoStr} {f : Frame} {stack fs : List Frame} {e : Effect}

/-- A worker receives the first directory of the queue. -/
theorem step_receive (dirPath : GoStr) (hk : ws[k]? = some .receiving) :
    step b (opened capacity (dirPath :: queue) wg ws) (.worker k false) =
      some (opened capacity queue wg (ws.set k (.working [.listing dirPath 0]))) := by
  show workerStep b (opened capacity (dirPath :: queue) wg ws) k false = _
  unfold workerStep
  have hk' : (opened capacity (dirPath :: queue) wg ws).workers[k]? = some .receiving := hk
  rw [hk']
  rfl

/-- A worker moves on in a function. -/
theorem step_frame (hk : ws[k]? = some (.working (f :: stack)))
    (hf : f.step b (opened capacity queue wg ws).full false = some (fs, e)) :
    step b (opened capacity queue wg ws) (.worker k false) =
      some (((opened capacity queue wg ws).setWorker k (.working (fs ++ stack))).apply e) := by
  show workerStep b (opened capacity queue wg ws) k false = _
  unfold workerStep
  have hk' : (opened capacity queue wg ws).workers[k]? = some (.working (f :: stack)) := hk
  rw [hk']
  dsimp only
  rw [hf]
  rfl

/-- The next subdirectory of a tail is about to be sent. -/
theorem step_resuming
    (hk : ws[k]? = some (.working [.resuming dirPath (subdir :: subdirs) none])) :
    step b (opened capacity queue wg ws) (.worker k false) =
      some (opened capacity queue (wg + 1) (ws.set k
        (.working [.sending (childPath dirPath subdir), .resuming dirPath subdirs none]))) :=
  step_frame b capacity wg queue hk rfl

/-- A send goes through while there is room. -/
theorem step_sending (hk : ws[k]? = some (.working (.sending dirPath :: stack)))
    (hroom : queue.length < capacity) :
    step b (opened capacity queue wg ws) (.worker k false) =
      some (opened capacity (queue ++ [dirPath]) wg (ws.set k (.working stack))) := by
  have hfull : (opened capacity queue wg ws).full = false :=
    decide_eq_false fun h => absurd h.2 (Nat.not_le.mpr hroom)
  have hf : (Frame.sending dirPath).step b (opened capacity queue wg ws).full false =
      some ([], .send dirPath) := by
    rw [hfull]
    rfl
  exact step_frame b capacity wg queue hk hf

/-- A worker in the tail of a directory sends the next subdirectory, as long as there is room. -/
theorem exec_send (hk : ws[k]? = some (.working [.resuming dirPath (subdir :: subdirs) none]))
    (hroom : queue.length < capacity) :
    exec (step b) (opened capacity queue wg ws) [.worker k false, .worker k false] =
      some (opened capacity (queue ++ [childPath dirPath subdir]) (wg + 1)
        (ws.set k (.working [.resuming dirPath subdirs none]))) := by
  have hlt : k < ws.length := (List.getElem?_eq_some_iff.mp hk).1
  have hsend := step_sending b capacity (wg + 1) queue
    (List.getElem?_set_self (a := .working [.sending (childPath dirPath subdir),
      .resuming dirPath subdirs none]) hlt) hroom
  rw [List.set_set] at hsend
  exact exec_cons.mpr ⟨_, step_resuming b capacity wg queue hk,
    exec_cons.mpr ⟨_, hsend, rfl⟩⟩

/-- A worker that receives a flat directory comes to its tail. -/
theorem exec_tail (capacity' workers' : ℕ) (hflat : wideFlat dirPath = true)
    (hk : ws[k]? = some .receiving) :
    exec (step (wideTree capacity' workers')) (opened capacity (dirPath :: queue) wg ws)
        (List.replicate 3 (.worker k false)) =
      some (opened capacity queue wg (ws.set k
        (.working [.resuming dirPath (wideTail capacity' workers' dirPath) none]))) := by
  have hlt : k < ws.length := (List.getElem?_eq_some_iff.mp hk).1
  have hreceive := step_receive (wideTree capacity' workers') capacity wg queue dirPath hk
  have hlist := step_frame (wideTree capacity' workers') capacity wg queue
    (List.getElem?_set_self (a := .working [.listing dirPath 0]) hlt)
    (listing_flat capacity' workers' hflat)
  have hfetch := step_frame (wideTree capacity' workers') capacity wg queue
    (List.getElem?_set_self
      (a := .working [.resuming dirPath [] (some (tailInput dirPath))]) hlt)
    (fetch_flat capacity' workers' hflat)
  refine exec_cons.mpr ⟨_, hreceive, exec_cons.mpr ⟨_, hlist, exec_cons.mpr ⟨_, ?_, rfl⟩⟩⟩
  refine Eq.trans ?_ (hfetch.trans ?_)
  · show step _ (opened capacity queue wg ((ws.set k _).set k _)) _ = _
    rw [List.set_set]
    rfl
  · show some (opened capacity queue wg ((ws.set k _).set k _)) = _
    rw [List.set_set]
    rfl

end Steps

section Blocks

variable (capacity workers : ℕ) (rest : List GoStr)

/-- The worker that lists the root, with what is left of the tail. -/
def inRoot (names : List GoStr) : Worker := .working [.resuming [] names none]

/-- The first worker behind those that wait. -/
theorem getElem?_behind (r w : Worker) (waiting idle : List Worker) :
    (r :: (waiting ++ w :: idle))[waiting.length + 1]? = some w := by
  simp

/-- It waits, too. -/
theorem set_behind (r w w' : Worker) (waiting idle : List Worker) :
    (r :: (waiting ++ w :: idle)).set (waiting.length + 1) w' =
      r :: (waiting ++ [w'] ++ idle) := by
  simp

/-- Each flat directory goes to a worker of its own, which comes to a send. -/
theorem flats_wait (hcapacity : 1 ≤ capacity) {n : ℕ} {flats : List GoStr} {waiting : List Worker}
    (wg : ℕ) (hflats : ∀ name ∈ flats, name ∈ namesOf 'f' n)
    (hwaiting : ∀ w ∈ waiting, w.isSending = true) : ∃ as wg' waiting',
      exec (step (wideTree capacity workers)) (opened capacity [] wg
        (inRoot (flats ++ rest) :: (waiting ++ List.replicate flats.length .receiving))) as =
          some (opened capacity [] wg' (inRoot rest :: waiting')) ∧
        ∀ w ∈ waiting', w.isSending = true := by
  induction flats generalizing waiting wg with
  | nil =>
      refine ⟨[], wg, waiting, ?_, hwaiting⟩
      rw [List.length_nil, List.replicate_zero, List.append_nil]
      rfl
  | cons name flats ih =>
      obtain ⟨hname, hflats⟩ := List.forall_mem_cons.mp hflats
      -- the worker at the root sends the directory
      have hroot : (inRoot (name :: flats ++ rest) ::
          (waiting ++ List.replicate (flats.length + 1) .receiving))[0]? =
            some (.working [.resuming [] (name :: (flats ++ rest)) none]) := rfl
      have hsend := exec_send (wideTree capacity workers) capacity wg [] hroot hcapacity
      -- the next worker receives it, comes to its tail, and is about to send
      have htail := exec_tail capacity (wg + 1) [] capacity workers (wideFlat_child hname)
        (getElem?_behind (inRoot (flats ++ rest)) .receiving waiting
          (List.replicate flats.length .receiving))
      rw [wideTail_child, set_behind, List.append_assoc] at htail
      have hnext := step_resuming (wideTree capacity workers) capacity (wg + 1) []
        (getElem?_behind (inRoot (flats ++ rest))
          (.working [.resuming (childPath [] name) ["l".toList] none]) waiting
            (List.replicate flats.length .receiving))
      rw [set_behind] at hnext
      have hblocked : ∀ w ∈ waiting ++ [.working [.sending (childPath (childPath [] name)
          "l".toList), .resuming (childPath [] name) [] none]], w.isSending = true :=
        List.forall_mem_append.mpr ⟨hwaiting, List.forall_mem_singleton.mpr rfl⟩
      obtain ⟨as, wg', waiting', hrun, hall⟩ := ih (wg + 1 + 1) hflats hblocked
      exact ⟨_, wg', waiting', exec_append.mpr ⟨_, hsend, exec_append.mpr ⟨_, htail,
        exec_cons.mpr ⟨_, hnext, hrun⟩⟩⟩, hall⟩

/-- The other directories fill the queue. -/
theorem leaves_queued (waiting : List Worker) {leaves queue : List GoStr} (wg : ℕ)
    (hroom : queue.length + leaves.length ≤ capacity) : ∃ as wg',
      exec (step (wideTree capacity workers)) (opened capacity queue wg
        (inRoot (leaves ++ rest) :: waiting)) as =
          some (opened capacity (queue ++ leaves.map (childPath [])) wg'
            (inRoot rest :: waiting)) := by
  induction leaves generalizing queue wg with
  | nil =>
      refine ⟨[], wg, ?_⟩
      rw [List.map_nil, List.append_nil]
      rfl
  | cons name leaves ih =>
      rw [List.length_cons] at hroom
      have hroot : (inRoot (name :: leaves ++ rest) :: waiting)[0]? =
          some (.working [.resuming [] (name :: (leaves ++ rest)) none]) := rfl
      have hsend := exec_send (wideTree capacity workers) capacity wg queue hroot (by omega)
      have hqueue : (queue ++ [childPath [] name]).length + leaves.length ≤ capacity := by
        rw [List.length_append, List.length_singleton]
        omega
      obtain ⟨as, wg', hrun⟩ := ih (wg + 1) hqueue
      rw [List.append_assoc] at hrun
      exact ⟨_, wg', exec_append.mpr ⟨_, hsend, hrun⟩⟩

/-- **The bounds cannot be improved.**  For every capacity and every number of workers there is
a tree in which as many directories as workers hand out their subdirectories by plain sends,
and which has as many directories as the queue and twice the workers hold, and a run that
reaches a state in which all workers wait for room. -/
theorem exists_blocked_at_bounds (hcapacity : 1 ≤ capacity) (hworkers : 1 ≤ workers) :
    ∃ b, Total b everyDir [] (capacity + 2 * workers) ∧ Total b b.plainSends [] workers ∧
      ∃ as gen, exec (step b) (initial capacity workers) as = some gen ∧ gen.AllBlocked := by
  refine ⟨wideTree capacity workers, total_everyDir capacity workers hworkers,
    total_plainSends capacity workers hworkers, ?_⟩
  obtain ⟨idle, rfl⟩ : ∃ idle, workers = idle + 1 := ⟨workers - 1, by omega⟩
  -- the first worker comes to the tail of the root
  have hflat : wideFlat [] = true := rfl
  have hfirst : (List.replicate (idle + 1) Worker.receiving)[0]? = some .receiving := rfl
  have hroot := exec_tail capacity 1 [] capacity (idle + 1) hflat hfirst
  have htail : (List.replicate (idle + 1) Worker.receiving).set 0
      (.working [.resuming [] (wideTail capacity (idle + 1) []) none]) =
        inRoot (namesOf 'f' idle ++ namesOf 'l' (capacity + 1)) ::
          ([] ++ List.replicate (namesOf 'f' idle).length .receiving) := by
    rw [length_namesOf]
    rfl
  rw [htail] at hroot
  -- the others come to a send each
  have hflats : ∀ name ∈ namesOf 'f' idle, name ∈ namesOf 'f' idle := fun _ h => h
  have hnone : ∀ w ∈ ([] : List Worker), w.isSending = true := fun _ h => absurd h List.not_mem_nil
  obtain ⟨as₁, wg₁, waiting, hrun₁, hwaiting⟩ := flats_wait capacity (idle + 1)
    (namesOf 'l' (capacity + 1)) hcapacity 1 hflats hnone
  -- the first one fills the queue
  have hroom : ([] : List GoStr).length + (namesOf 'l' capacity).length ≤ capacity := by
    rw [length_namesOf]
    exact (Nat.zero_add _).le
  obtain ⟨as₂, wg₂, hrun₂⟩ := leaves_queued capacity (idle + 1)
    [List.replicate (capacity + 1) 'l'] waiting wg₁ hroom
  rw [← namesOf_succ, List.nil_append] at hrun₂
  -- and comes to a send
  have hready : (inRoot [List.replicate (capacity + 1) 'l'] :: waiting)[0]? =
      some (.working [.resuming [] [List.replicate (capacity + 1) 'l'] none]) := rfl
  have hlast := step_resuming (wideTree capacity (idle + 1)) capacity wg₂
    ((namesOf 'l' capacity).map (childPath [])) hready
  refine ⟨_, _, exec_append.mpr ⟨_, hroot, exec_append.mpr ⟨_, hrun₁, exec_append.mpr
    ⟨_, hrun₂, exec_cons.mpr ⟨_, hlast, exec_nil.mpr rfl⟩⟩⟩⟩, ?_, ?_⟩
  · have hopen : Closer.waiting ≠ .closed := by decide
    refine decide_eq_true ⟨hopen, ?_⟩
    show capacity ≤ ((namesOf 'l' capacity).map (childPath [])).length
    rw [List.length_map, length_namesOf]
  · exact List.forall_mem_cons.mpr ⟨rfl, hwaiting⟩

end Blocks

end ManifestGenerator

end MultiStorageFileSystem
