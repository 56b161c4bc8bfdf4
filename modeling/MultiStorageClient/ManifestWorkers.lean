/-
MultiStorageClient/ManifestWorkers.lean

The workers of `generateManifest` (`manifest_gen.go`) and their queue.

The workers are the only ones that take directories from `workQueue`, and they put the
subdirectories into it.  While the queue is full, `writePageToTSV` lists a subdirectory
itself, up to `maxRecursionDepth`; beyond that, and in `resumeBFSAfterFlat`, a worker
waits for room.  If all of them do, nothing is taken any more (`allBlocked_stuck`), and
that is the only way in which the walk stops before its end (`progress`).

`gen.wg` counts the directories that are queued, listed or about to be queued
(`Inv.wg_eq`).  So the queue is not closed while a worker can still send.
-/
import MultiStorageClient.GoStr
import MultiStorageClient.Returns

namespace MultiStorageFileSystem

open Run

/-! ### The backend -/

/-- `listDirectoryInputStruct` -/
structure WalkInput where
  dirPath : GoStr
  continuationToken : GoStr
  startAfter : GoStr
  maxItems : ℕ

/-- `listDirectoryOutputStruct`, with the basenames of the files. -/
structure WalkPage where
  subdirectory : List GoStr
  file : List GoStr
  nextContinuationToken : GoStr
  isTruncated : Bool

/-- The backend of a walk. -/
structure WalkBackend where
  /-- `context.listDirectory`; `none` where it fails -/
  listDirectory : WalkInput → Option WalkPage
  /-- the paths of `flatDirHints` -/
  flatDirHints : List GoStr
  flatDirConfirmationPages : ℤ

/-- `maxRecursionDepth` -/
def maxRecursionDepth : ℕ := 100

/-- `defaultFlatDirConfirmationPages` -/
def defaultFlatDirConfirmationPages : ℤ := 5

/-- The page after this one is asked for with this input. -/
def WalkPage.next (page : WalkPage) (dirPath : GoStr) : Option WalkInput :=
  if page.isTruncated then some ⟨dirPath, page.nextContinuationToken, [], 1000⟩ else none

namespace WalkBackend

variable (b : WalkBackend)

/-- The loop of `confirmFlatDirectory`. -/
def confirmFrom (dirPath : GoStr) : ℕ → GoStr → List WalkPage → Bool × List WalkPage
  | 0, _, pages => (true, pages)
  | n + 1, token, pages =>
      match b.listDirectory ⟨dirPath, token, [], 1000⟩ with
      | none => (false, pages)
      | some page =>
          if page.subdirectory ≠ [] ∨ page.isTruncated = false then (false, pages ++ [page])
          else confirmFrom dirPath n page.nextContinuationToken (pages ++ [page])

/-- `confirmFlatDirectory` -/
def confirmFlatDirectory (dirPath : GoStr) (firstPage : WalkPage) : Bool × List WalkPage :=
  let confirmPages :=
    if b.flatDirConfirmationPages ≤ 0 then defaultFlatDirConfirmationPages
    else b.flatDirConfirmationPages
  b.confirmFrom dirPath (confirmPages - 1).toNat firstPage.nextContinuationToken [firstPage]

end WalkBackend

/-- `string(c)` for a byte, which is encoded as a code point. -/
def stringOfByte (c : Char) : GoStr :=
  if c.toNat < 128 then [c]
  else [Char.ofNat (192 + c.toNat / 64), Char.ofNat (128 + c.toNat % 64)]

/-! ### A worker -/

/-- What a worker still has to do in a function that it has called. -/
inductive Frame
  /-- `listDirectory` -/
  | listing (dirPath : GoStr) (depth : ℕ)
  /-- `listDirectoryNormalWithPages`, with the subdirectories that are left of the page in
  `writePageToTSV`, the pages that were fetched before, and the page after these -/
  | writing (dirPath : GoStr) (depth : ℕ) (subdirs : List GoStr) (pages : List WalkPage)
      (next : Option WalkInput)
  /-- `resumeBFSAfterFlat` -/
  | resuming (dirPath : GoStr) (subdirs : List GoStr) (next : Option WalkInput)
  /-- `gen.workQueue <- childPath` -/
  | sending (childPath : GoStr)
  /-- `gen.wg.Done()` after a subdirectory that was listed in place -/
  | inlined

/-- What a step does to the queue and the count. -/
inductive Effect
  | nothing
  /-- `gen.wg.Add(1)` -/
  | add
  /-- `gen.wg.Add(1)`, and the path is sent -/
  | addSend (childPath : GoStr)
  | send (childPath : GoStr)
  /-- `gen.wg.Done()` -/
  | finish
  /-- an index is out of range -/
  | outOfRange

/-- `listDirectoryNormalWithPages`, and `listDirectoryNormal` for one page; there is
nothing to do if the part cannot be created. -/
def listDirectoryNormal (dirPath : GoStr) (depth : ℕ) (pages : List WalkPage) (fails : Bool) :
    List Frame :=
  if fails then []
  else [.writing dirPath depth [] pages (pages.getLast?.bind fun page => page.next dirPath)]

/-- The next step of a function: what is left to do instead of it, and the effect.
`full` says that the queue is full, and `fails` that a file cannot be opened. -/
def Frame.step (b : WalkBackend) (full fails : Bool) : Frame → Option (List Frame × Effect)
  | listing dirPath depth =>
      -- a hinted directory is listed by prefixes, which looks for no subdirectory
      if dirPath ∈ b.flatDirHints then some ([], .nothing)
      else
        match b.listDirectory ⟨dirPath, [], [], 1000⟩ with
        | none => some ([], .nothing)
        | some firstPage =>
            if firstPage.subdirectory = [] ∧ firstPage.isTruncated = true then
              match b.confirmFlatDirectory dirPath firstPage with
              -- not confirmed as flat: the pages that were got are walked as they are
              | (false, pages) => some (listDirectoryNormal dirPath depth pages fails, .nothing)
              | (true, pages) =>
                  match pages.head?.bind fun page => page.file.head? with
                  | none => some (listDirectoryNormal dirPath depth pages fails, .nothing)
                  -- a first name of no bytes: the index is out of range
                  | some [] => some ([], .outOfRange)
                  | some (c :: _) =>
                      let startAfter := dirPath ++ stringOfByte c ++ List.replicate 20 '~'
                      some ([.resuming dirPath [] (some ⟨dirPath, [], startAfter, 1000⟩)], .nothing)
            else some (listDirectoryNormal dirPath depth [firstPage] fails, .nothing)
  | writing dirPath depth (subdir :: subdirs) pages next =>
      let childPath := dirPath ++ subdir ++ ['/']
      let rest := writing dirPath depth subdirs pages next
      -- the channel takes the child, or the worker goes down into it itself
      if full = false then some ([rest], .addSend childPath)
      -- too deep to go down: a send that blocks until the channel has room
      else if maxRecursionDepth ≤ depth then some ([.sending childPath, rest], .add)
      else some ([.listing childPath (depth + 1), .inlined, rest], .add)
  | writing dirPath depth [] (page :: pages) next =>
      some ([.writing dirPath depth page.subdirectory pages next], .nothing)
  | writing _ _ [] [] none => some ([], .nothing)
  | writing dirPath depth [] [] (some input) =>
      match b.listDirectory input with
      | none => some ([], .nothing)
      | some page => some ([.writing dirPath depth [] [page] (page.next dirPath)], .nothing)
  -- a flat directory sends every subdirectory with a blocking send
  | resuming dirPath (subdir :: subdirs) next =>
      some ([.sending (dirPath ++ subdir ++ ['/']), .resuming dirPath subdirs next], .add)
  | resuming _ [] none => some ([], .nothing)
  | resuming dirPath [] (some input) =>
      match b.listDirectory input with
      | none => some ([], .nothing)
      | some page =>
          some ([.resuming dirPath (if fails then [] else page.subdirectory) (page.next dirPath)],
            .nothing)
  | sending childPath => if full then none else some ([], .send childPath)
  | inlined => some ([], .finish)

/-- A worker: it waits for a directory, or has functions to come back from. -/
inductive Worker
  | receiving
  | working (stack : List Frame)
  | ended

/-! ### The walk -/

/-- The goroutine that closes the queue. -/
inductive Closer
  | waiting
  | released
  | closed
  deriving DecidableEq

/-- What ends the process. -/
inductive WalkPanic
  | sendOnClosed
  | negativeCount
  | outOfRange
  deriving DecidableEq

/-- `manifestGenerator` with its goroutines. -/
structure ManifestGenerator where
  capacity : ℕ
  workQueue : List GoStr
  wg : ℕ
  workers : List Worker
  closer : Closer
  panic : Option WalkPanic

/-- The steps of the workers and of the goroutine that closes the queue. -/
inductive WalkStep
  /-- the next step of a worker, where a file can or cannot be opened -/
  | worker (k : ℕ) (fails : Bool)
  /-- `gen.wg.Wait()` returns -/
  | waited
  /-- `close(gen.workQueue)` -/
  | close

namespace ManifestGenerator

variable (b : WalkBackend) (gen : ManifestGenerator)

/-- A send would have to wait. -/
def full : Bool := gen.closer ≠ .closed ∧ gen.capacity ≤ gen.workQueue.length

/-- A worker moves on. -/
def setWorker (k : ℕ) (w : Worker) : ManifestGenerator :=
  { gen with workers := gen.workers.set k w }

/-- `gen.workQueue <- childPath`, where it need not wait. -/
def sent (childPath : GoStr) : ManifestGenerator :=
  if gen.closer = .closed then { gen with panic := some .sendOnClosed }
  else { gen with workQueue := gen.workQueue ++ [childPath] }

/-- `gen.wg.Add(1)` -/
def added : ManifestGenerator := { gen with wg := gen.wg + 1 }

/-- `gen.wg.Done()` -/
def finished : ManifestGenerator :=
  if gen.wg = 0 then { gen with panic := some .negativeCount } else { gen with wg := gen.wg - 1 }

/-- The effect of a worker's step. -/
def apply : Effect → ManifestGenerator
  | .nothing => gen
  | .add => gen.added
  | .addSend childPath => gen.added.sent childPath
  | .send childPath => gen.sent childPath
  | .finish => gen.finished
  | .outOfRange => { gen with panic := some .outOfRange }

/-- The next step of a worker. -/
def workerStep (k : ℕ) (fails : Bool) : Option ManifestGenerator :=
  match gen.workers[k]? with
  | some .receiving =>
      match gen.workQueue with
      | dirPath :: workQueue =>
          some { gen.setWorker k (.working [.listing dirPath 0]) with workQueue := workQueue }
      -- an empty channel ends the worker when it is closed; otherwise it blocks
      | [] => if gen.closer = .closed then some (gen.setWorker k .ended) else none
  -- the directory is done with everything inlined below it
  | some (.working []) => some (gen.setWorker k .receiving).finished
  | some (.working (f :: stack)) =>
      (f.step b gen.full fails).map fun (fs, e) =>
        (gen.setWorker k (.working (fs ++ stack))).apply e
  | some .ended | none => none

/-- The steps, until one of them panics. -/
def step : WalkStep → Option ManifestGenerator
  | .worker k fails => if gen.panic = none then gen.workerStep b k fails else none
  | .waited =>
      if gen.panic = none ∧ gen.closer = .waiting ∧ gen.wg = 0 then
        some { gen with closer := .released }
      else none
  | .close =>
      if gen.panic = none ∧ gen.closer = .released then some
        { gen with closer := .closed } else none

/-- When the workers of `generateManifest` start. -/
def initial (capacity workers : ℕ) : ManifestGenerator where
  capacity := capacity
  workQueue := [[]]
  wg := 1
  workers := List.replicate workers .receiving
  closer := .waiting
  panic := none

end ManifestGenerator

/-- The worker is at a send that waits while the queue is full. -/
def Worker.isSending : Worker → Bool
  | working (.sending _ :: _) => true
  | _ => false

/-- The function comes to a send that waits, if the queue is full. -/
def Frame.waitsForRoom : Frame → Bool
  | writing _ depth (_ :: _) _ _ => maxRecursionDepth ≤ depth
  | resuming _ (_ :: _) _ => true
  | _ => false

/-- The worker comes to a send that waits, if the queue is full. -/
def Worker.waitsForRoom : Worker → Bool
  | working (f :: _) => f.waitsForRoom
  | _ => false

namespace ManifestGenerator

variable (b : WalkBackend) (gen : ManifestGenerator)

/-- Every worker waits for room in the queue. -/
def AllBlocked : Prop := gen.full = true ∧ ∀ w ∈ gen.workers, w.isSending = true

/-- If the queue is full and the worker comes to a send that waits, another one is not at
such a send. -/
def LeavesOne : WalkStep → Prop
  | .worker k _ =>
      gen.full = true → (gen.workers[k]?.any Worker.waitsForRoom) = true →
        ∃ j w, j ≠ k ∧ gen.workers[j]? = some w ∧ w.isSending = false
  | _ => True

end ManifestGenerator

/-! ### What a step of a worker does -/

/-- The directories that are counted for a function. -/
def Frame.owed : Frame → ℕ
  | sending _ | inlined => 1
  | _ => 0

/-- The function is a send. -/
def Frame.isSend : Frame → Bool
  | sending _ => true
  | _ => false

@[simp] theorem owed_sending (c : GoStr) : (Frame.sending c).owed = 1 := rfl

@[simp] theorem owed_inlined : Frame.inlined.owed = 1 := rfl

@[simp] theorem isSend_inlined : Frame.inlined.isSend = false := rfl

/-- The directories that are counted for a worker. -/
def Worker.owed : Worker → ℕ
  | working stack => (stack.map Frame.owed).sum + 1
  | _ => 0

/-- Only the function that is called last can be at a send. -/
def Worker.SendsOnTop : Worker → Prop
  | working stack => ∀ f ∈ stack.tail, f.isSend = false
  | _ => True

/-- How often `gen.wg.Add(1)` is called. -/
def Effect.adds : Effect → ℕ
  | add | addSend _ => 1
  | _ => 0

/-- How many paths are sent. -/
def Effect.sends : Effect → ℕ
  | send _ | addSend _ => 1
  | _ => 0

/-- How often `gen.wg.Done()` is called. -/
def Effect.finishes : Effect → ℕ
  | finish => 1
  | _ => 0

theorem Effect.finishes_le (e : Effect) : e.finishes ≤ 1 := by
  cases e with
  | finish => exact le_rfl
  | _ => exact Nat.zero_le 1

section

variable {b : WalkBackend} {full fails : Bool} {f : Frame} {fs stack : List Frame} {e : Effect}

/-- A function that is called, or not, when a part is created. -/
theorem listDirectoryNormal_eq (dirPath : GoStr) (depth : ℕ) (pages : List WalkPage)
    (fails : Bool) : listDirectoryNormal dirPath depth pages fails = [] ∨
      ∃ next, listDirectoryNormal dirPath depth pages fails =
        [.writing dirPath depth [] pages next] := by
  unfold listDirectoryNormal
  split
  · exact .inl rfl
  · exact .inr ⟨_, rfl⟩

/-- `listDirectory` only calls a function, and does not touch the queue. -/
theorem step_listing {dirPath : GoStr} {depth : ℕ}
    (h : (Frame.listing dirPath depth).step b full fails = some (fs, e)) :
    (fs = [] ∨ (∃ pages next, fs = [.writing dirPath depth [] pages next]) ∨
      ∃ next, fs = [.resuming dirPath [] next]) ∧ (e = .nothing ∨ e = .outOfRange) := by
  have hnormal : ∀ pages fails, listDirectoryNormal dirPath depth pages fails = [] ∨
      (∃ rest next, listDirectoryNormal dirPath depth pages fails =
        [.writing dirPath depth [] rest next]) ∨
      ∃ next, listDirectoryNormal dirPath depth pages fails = [.resuming dirPath [] next] := by
    intro pages fails
    rcases listDirectoryNormal_eq dirPath depth pages fails with hnil | ⟨next, hnext⟩
    · exact .inl hnil
    · exact .inr (.inl ⟨pages, next, hnext⟩)
  rw [Frame.step] at h
  split at h
  · obtain ⟨rfl, rfl⟩ := Prod.mk.inj (Option.some.inj h)
    exact ⟨.inl rfl, .inl rfl⟩
  · split at h
    · obtain ⟨rfl, rfl⟩ := Prod.mk.inj (Option.some.inj h)
      exact ⟨.inl rfl, .inl rfl⟩
    · split at h
      · split at h
        · obtain ⟨rfl, rfl⟩ := Prod.mk.inj (Option.some.inj h)
          exact ⟨hnormal _ _, .inl rfl⟩
        · split at h
          · obtain ⟨rfl, rfl⟩ := Prod.mk.inj (Option.some.inj h)
            exact ⟨hnormal _ _, .inl rfl⟩
          · obtain ⟨rfl, rfl⟩ := Prod.mk.inj (Option.some.inj h)
            exact ⟨.inl rfl, .inr rfl⟩
          · obtain ⟨rfl, rfl⟩ := Prod.mk.inj (Option.some.inj h)
            exact ⟨.inr (.inr ⟨_, rfl⟩), .inl rfl⟩
      · obtain ⟨rfl, rfl⟩ := Prod.mk.inj (Option.some.inj h)
        exact ⟨hnormal _ _, .inl rfl⟩

/-- The steps of a function: it calls others without touching the queue, it sends, it
comes to a send, it lists a subdirectory in place, or it is done with one. -/
inductive FrameStep (full : Bool) (f : Frame) : List Frame → Effect → Prop
  | quiet (fs : List Frame) (e : Effect) (hf : f.owed = 0)
      (hw : full = true → f.waitsForRoom = false)
      (hfs : ∀ g ∈ fs, g.owed = 0) (he : e = .nothing ∨ e = .outOfRange) : FrameStep full f fs e
  | addSend (g : Frame) (c : GoStr) (hf : f.owed = 0) (hg : g.owed = 0) (hfull : full = false) :
      FrameStep full f [g] (.addSend c)
  | wait (g : Frame) (c : GoStr) (hf : f.owed = 0) (hw : f.waitsForRoom = true) (hg : g.owed = 0) :
      FrameStep full f [.sending c, g] .add
  | inline (g g' : Frame) (hf : f.owed = 0) (hw : f.waitsForRoom = false) (hg : g.owed = 0)
      (hg' : g'.owed = 0) : FrameStep full f [g, .inlined, g'] .add
  | send (c : GoStr) (hf : f = .sending c) (hfull : full = false) : FrameStep full f [] (.send c)
  | finish (hf : f = .inlined) : FrameStep full f [] .finish

/-- The steps of a function, as one relation. -/
theorem Frame.step_cases (h : f.step b full fails = some (fs, e)) : FrameStep full f fs e := by
  match f with
  | .listing dirPath depth =>
      -- a directory is listed without a send
      obtain ⟨hfs, he⟩ := step_listing h
      refine .quiet fs e rfl (fun _ => rfl) ?_ he
      rcases hfs with rfl | ⟨pages, next, rfl⟩ | ⟨next, rfl⟩ <;> simp [Frame.owed]
  | .writing dirPath depth (subdir :: subdirs) pages next =>
      rw [Frame.step] at h
      split at h
      -- the queue has room
      · next hfull =>
          obtain ⟨rfl, rfl⟩ := Prod.mk.inj (Option.some.inj h)
          exact .addSend _ _ rfl rfl hfull
      · split at h
        -- too deep for a call, so the send waits for room
        · next hdepth =>
            obtain ⟨rfl, rfl⟩ := Prod.mk.inj (Option.some.inj h)
            exact .wait _ _ rfl (decide_eq_true hdepth) rfl
        -- the subdirectory is walked through in place
        · next hdepth =>
            obtain ⟨rfl, rfl⟩ := Prod.mk.inj (Option.some.inj h)
            exact .inline _ _ rfl (decide_eq_false hdepth) rfl rfl
  | .writing dirPath depth [] (page :: pages) next =>
      obtain ⟨rfl, rfl⟩ := Prod.mk.inj (Option.some.inj h)
      exact .quiet _ _ rfl (fun _ => rfl) (by simp [Frame.owed]) (.inl rfl)
  | .writing dirPath depth [] [] none =>
      obtain ⟨rfl, rfl⟩ := Prod.mk.inj (Option.some.inj h)
      exact .quiet _ _ rfl (fun _ => rfl) (by simp) (.inl rfl)
  | .writing dirPath depth [] [] (some input) =>
      rw [Frame.step] at h
      split at h
      · obtain ⟨rfl, rfl⟩ := Prod.mk.inj (Option.some.inj h)
        exact .quiet _ _ rfl (fun _ => rfl) (by simp) (.inl rfl)
      · obtain ⟨rfl, rfl⟩ := Prod.mk.inj (Option.some.inj h)
        exact .quiet _ _ rfl (fun _ => rfl) (by simp [Frame.owed]) (.inl rfl)
  -- in a flat directory every subdirectory is sent, room or not
  | .resuming dirPath (subdir :: subdirs) next =>
      obtain ⟨rfl, rfl⟩ := Prod.mk.inj (Option.some.inj h)
      exact .wait _ _ rfl rfl rfl
  | .resuming dirPath [] none =>
      obtain ⟨rfl, rfl⟩ := Prod.mk.inj (Option.some.inj h)
      exact .quiet _ _ rfl (fun _ => rfl) (by simp) (.inl rfl)
  | .resuming dirPath [] (some input) =>
      rw [Frame.step] at h
      split at h
      · obtain ⟨rfl, rfl⟩ := Prod.mk.inj (Option.some.inj h)
        exact .quiet _ _ rfl (fun _ => rfl) (by simp) (.inl rfl)
      · obtain ⟨rfl, rfl⟩ := Prod.mk.inj (Option.some.inj h)
        exact .quiet _ _ rfl (fun _ => rfl) (by simp [Frame.owed]) (.inl rfl)
  | .sending childPath =>
      rw [Frame.step] at h
      split at h
      · cases h
      -- the send goes through once there is room
      · next hfull =>
          obtain ⟨rfl, rfl⟩ := Prod.mk.inj (Option.some.inj h)
          exact .send childPath rfl (Bool.eq_false_iff.mpr hfull)
  | .inlined =>
      obtain ⟨rfl, rfl⟩ := Prod.mk.inj (Option.some.inj h)
      exact .finish rfl

end

/-! ### What every run keeps -/

namespace ManifestGenerator

variable {b : WalkBackend} {gen gen' : ManifestGenerator} {a : WalkStep} {as : List WalkStep}
  {k : ℕ} {fails : Bool} {e : Effect} {w : Worker}

/-- What every run keeps. -/
structure Inv (gen : ManifestGenerator) : Prop where
  /-- the count is that of the directories under way -/
  wg_eq : gen.wg = gen.workQueue.length + (gen.workers.map Worker.owed).sum
  closer : gen.closer ≠ .waiting → gen.wg = 0
  sendOnClosed : gen.panic ≠ some .sendOnClosed
  negativeCount : gen.panic ≠ some .negativeCount
  onTop : ∀ w ∈ gen.workers, w.SendsOnTop
  ended : .ended ∈ gen.workers → gen.closer = .closed

/-- The invariant at the start. -/
theorem initial_inv (capacity workers : ℕ) : (initial capacity workers).Inv where
  wg_eq := by
    have hsum : ((List.replicate workers Worker.receiving).map Worker.owed).sum = 0 := by
      rw [List.map_replicate, List.sum_replicate]
      rfl
    show 1 = 1 + _
    rw [initial, hsum]
  closer := fun h => absurd rfl h
  sendOnClosed := nofun
  negativeCount := nofun
  onTop w hw := by
    obtain rfl := List.eq_of_mem_replicate hw
    trivial
  ended hmem := nomatch List.eq_of_mem_replicate hmem

/-- A worker that is at work is counted, so the queue is still open. -/
theorem Inv.working (h : gen.Inv) {stack : List Frame}
    (hk : gen.workers[k]? = some (.working stack)) :
    (stack.map Frame.owed).sum + 1 ≤ (gen.workers.map Worker.owed).sum ∧ gen.closer = .waiting := by
  have hle := le_sum_map (List.mem_of_getElem? hk) Worker.owed
  refine ⟨hle, ?_⟩
  by_contra hcloser
  have hwg := h.closer hcloser
  rw [h.wg_eq] at hwg
  have : (stack.map Frame.owed).sum + 1 ≤ (gen.workers.map Worker.owed).sum := hle
  omega

@[simp] theorem workers_apply (gen : ManifestGenerator) (e : Effect) :
    (gen.apply e).workers = gen.workers := by
  cases e with
  | nothing | add | outOfRange => rfl
  | addSend c | send c =>
      show (sent _ c).workers = _
      unfold sent
      split <;> rfl
  | finish =>
      show gen.finished.workers = _
      unfold finished
      split <;> rfl

/-- The effect of a step while the queue is open. -/
theorem apply_spec (hopen : gen.closer = .waiting) (hwg : e.finishes ≤ gen.wg) :
    (gen.apply e).closer = gen.closer ∧
      (gen.apply e).workQueue.length = gen.workQueue.length + e.sends ∧
      (gen.apply e).wg + e.finishes = gen.wg + e.adds ∧
      ((gen.apply e).panic = gen.panic ∨ (gen.apply e).panic = some .outOfRange) := by
  have hclosed : gen.closer ≠ .closed := by
    rw [hopen]
    decide
  cases e with
  | nothing | add | outOfRange => simp [apply, added, Effect.sends, Effect.finishes, Effect.adds]
  | addSend c | send c =>
      simp [apply, added, sent, hclosed, Effect.sends, Effect.finishes, Effect.adds]
  | finish =>
      have hpos : gen.wg ≠ 0 := Nat.one_le_iff_ne_zero.mp hwg
      simp only [apply, finished, if_neg hpos, Effect.sends, Effect.finishes, Effect.adds,
        Nat.add_zero, true_and, true_or, and_true]
      omega

/-- The steps of a worker: it receives, it ends, it is done with a directory, or a
function goes on. -/
inductive WorkerStep (b : WalkBackend) (gen : ManifestGenerator) (k : ℕ) (fails : Bool) :
    ManifestGenerator → Prop
  | receive (dirPath : GoStr) (rest : List GoStr) (hk : gen.workers[k]? = some .receiving)
      (hq : gen.workQueue = dirPath :: rest) :
      WorkerStep b gen k fails
        { gen.setWorker k (.working [.listing dirPath 0]) with workQueue := rest }
  | ends (hk : gen.workers[k]? = some .receiving) (hclosed : gen.closer = .closed) :
      WorkerStep b gen k fails (gen.setWorker k .ended)
  | returns (hk : gen.workers[k]? = some (.working [])) :
      WorkerStep b gen k fails ((gen.setWorker k .receiving).apply .finish)
  | frame (f : Frame) (stack fs : List Frame) (e : Effect)
      (hk : gen.workers[k]? = some (.working (f :: stack)))
      (hf : f.step b gen.full fails = some (fs, e)) :
      WorkerStep b gen k fails ((gen.setWorker k (.working (fs ++ stack))).apply e)

/-- The steps of a worker, as one relation. -/
theorem workerStep_cases (h : gen.workerStep b k fails = some gen') :
    WorkerStep b gen k fails gen' := by
  unfold workerStep at h
  split at h
  · next hk =>
      split at h
      · next dirPath rest hq =>
          obtain rfl := Option.some.inj h
          exact .receive dirPath rest hk hq
      · split at h
        · next hclosed =>
            obtain rfl := Option.some.inj h
            exact .ends hk hclosed
        · cases h
  · next hk =>
      obtain rfl := Option.some.inj h
      exact .returns hk
  · next f stack hk =>
      obtain ⟨⟨fs, e⟩, hf, rfl⟩ := Option.map_eq_some_iff.mp h
      exact .frame f stack fs e hk hf
  · cases h
  · cases h

theorem step_worker (h : gen.step b (.worker k fails) = some gen') :
    WorkerStep b gen k fails gen' := by
  change (if _ then _ else _) = _ at h
  split at h
  · exact workerStep_cases h
  · cases h

/-- The count of a worker that was replaced. -/
theorem sum_setWorker (hk : gen.workers[k]? = some w) (w' : Worker) :
    ((gen.setWorker k w').workers.map Worker.owed).sum + w.owed =
      (gen.workers.map Worker.owed).sum + w'.owed :=
  sum_map_set hk Worker.owed w'

theorem ended_setWorker (h : gen.Inv) {w' : Worker} (hw' : w' ≠ .ended)
    (hmem : .ended ∈ (gen.setWorker k w').workers) : gen.closer = .closed := by
  rcases List.mem_or_eq_of_mem_set hmem with hmem | heq
  · exact h.ended hmem
  · exact absurd heq.symm hw'

theorem onTop_setWorker (h : ∀ w ∈ gen.workers, w.SendsOnTop) {w' : Worker}
    (hw' : w'.SendsOnTop) : ∀ w ∈ (gen.setWorker k w').workers, w.SendsOnTop := by
  intro w hw
  rcases List.mem_or_eq_of_mem_set hw with hw | rfl
  · exact h w hw
  · exact hw'

/-- Below the function that goes on, no function is at a send. -/
theorem Inv.below (h : gen.Inv) {f : Frame} {stack : List Frame}
    (hk : gen.workers[k]? = some (.working (f :: stack))) : ∀ g ∈ stack, g.isSend = false :=
  h.onTop _ (List.mem_of_getElem? hk)

/-- The invariant after an effect: the count of the worker follows that of the queue. -/
theorem Inv.effect (h : gen.Inv) {stack : List Frame} {w' : Worker}
    (hk : gen.workers[k]? = some (.working stack)) (htop : w'.SendsOnTop) (hw' : w' ≠ .ended)
    (howed : w'.owed + e.sends + e.finishes = (Worker.working stack).owed + e.adds) :
    ((gen.setWorker k w').apply e).Inv := by
  obtain ⟨hle, hopen⟩ := h.working hk
  have hsum := sum_setWorker hk w'
  have hwg := h.wg_eq
  -- what is finished has been counted
  have hfinishes : e.finishes ≤ (gen.setWorker k w').wg := by
    show e.finishes ≤ gen.wg
    have := e.finishes_le
    omega
  have hopen' : (gen.setWorker k w').closer = .waiting := hopen
  obtain ⟨hcloser, hqueue, hcount, hpanic⟩ := apply_spec hopen' hfinishes
  refine ⟨?_, ?_, ?_, ?_, ?_, ?_⟩
  -- the count is that of the queue and of what the workers owe
  · rw [hqueue, workers_apply]
    have hset : (gen.setWorker k w').wg = gen.wg := rfl
    have hset' : (gen.setWorker k w').workQueue = gen.workQueue := rfl
    rw [hset] at hcount
    rw [hset']
    omega
  · intro hne
    exact absurd (hcloser.trans hopen') hne
  -- neither panic is new, as the queue is open and the count large enough
  · intro heq
    rcases hpanic with hp | hp
    · exact h.sendOnClosed (hp.symm.trans heq)
    · rw [hp] at heq
      cases heq
  · intro heq
    rcases hpanic with hp | hp
    · exact h.negativeCount (hp.symm.trans heq)
    · rw [hp] at heq
      cases heq
  · rw [workers_apply]
    exact onTop_setWorker h.onTop htop
  · rw [workers_apply, hcloser]
    exact ended_setWorker h hw'

/-- A function that goes on keeps the count. -/
theorem owed_step {f : Frame} {fs : List Frame} (h : FrameStep gen.full f fs e) :
    (fs.map Frame.owed).sum + e.sends + e.finishes = f.owed + e.adds ∧
      ∀ g ∈ fs.tail, g.isSend = false := by
  have hnot : ∀ {g : Frame}, g.owed = 0 → g.isSend = false := by
    intro g hg
    cases g <;> first | rfl | cases hg
  cases h with
  | quiet _ _ hf hw hfs he =>
      refine ⟨?_, fun g hg => hnot (hfs g (List.mem_of_mem_tail hg))⟩
      have hzero : (fs.map Frame.owed).sum = 0 := by
        apply List.sum_eq_zero
        exact List.forall_mem_map.mpr hfs
      rw [hzero, hf]
      rcases he with rfl | rfl <;> rfl
  | addSend g c hf hg => simp [hf, hg, Effect.sends, Effect.finishes, Effect.adds]
  | wait g c hf hw hg =>
      simp [hf, hg, hnot hg, Effect.sends, Effect.finishes, Effect.adds]
  | inline g g' hf hw hg hg' =>
      simp [hf, hg, hg', hnot hg', Effect.sends, Effect.finishes, Effect.adds]
  | send c hf =>
      subst hf
      exact ⟨rfl, nofun⟩
  | finish hf =>
      subst hf
      exact ⟨rfl, nofun⟩

/-- Every step keeps the invariant. -/
theorem Inv.step (h : gen.Inv) (hstep : gen.step b a = some gen') : gen'.Inv := by
  cases a with
  | worker k fails =>
      cases step_worker hstep with
      -- the directory leaves the queue, and the worker owes it
      | receive dirPath rest hk hq =>
          have hsum := sum_setWorker hk (.working [.listing dirPath 0])
          have howed : (Worker.working [.listing dirPath 0]).owed = 1 := rfl
          have howed' : Worker.receiving.owed = 0 := rfl
          have hwg := h.wg_eq
          rw [hq, List.length_cons] at hwg
          refine ⟨?_, h.closer, h.sendOnClosed, h.negativeCount, onTop_setWorker h.onTop nofun,
            ended_setWorker h nofun⟩
          show gen.wg = rest.length +
            ((gen.setWorker k (.working [.listing dirPath 0])).workers.map Worker.owed).sum
          omega
      -- the queue is closed, so the worker owes nothing
      | ends hk hclosed =>
          have hsum := sum_setWorker hk .ended
          refine ⟨?_, h.closer, h.sendOnClosed, h.negativeCount, onTop_setWorker h.onTop trivial,
            fun _ => hclosed⟩
          exact h.wg_eq.trans (congrArg (gen.workQueue.length + ·) hsum.symm)
      | returns hk => exact h.effect hk trivial nofun rfl
      -- what a function does is counted by `owed_step`
      | frame f stack fs e hk hf =>
          obtain ⟨howed, htail⟩ := owed_step (Frame.step_cases hf)
          refine h.effect hk ?_ nofun ?_
          · show ∀ g ∈ (fs ++ stack).tail, g.isSend = false
            intro g hg
            cases fs with
            | nil => exact h.below hk g (List.mem_of_mem_tail hg)
            | cons g' fs =>
                rcases List.mem_append.mp hg with hg | hg
                · exact htail g hg
                · exact h.below hk g hg
          · simp only [Worker.owed, List.map_append, List.sum_append, List.map_cons, List.sum_cons]
            omega
  -- the count is zero, and the closer goes on
  | waited =>
      change (if _ then _ else _) = _ at hstep
      split at hstep
      · next hwaited =>
          obtain rfl := Option.some.inj hstep
          refine ⟨h.wg_eq, fun _ => hwaited.2.2, h.sendOnClosed, h.negativeCount, h.onTop,
            fun hmem => ?_⟩
          have hclosed := h.ended hmem
          rw [hwaited.2.1] at hclosed
          cases hclosed
      · cases hstep
  -- the queue is closed with nothing owed, so nobody sends on it
  | close =>
      change (if _ then _ else _) = _ at hstep
      split at hstep
      · next hreleased =>
          obtain rfl := Option.some.inj hstep
          have hwg : gen.wg = 0 := h.closer (by rw [hreleased.2]; decide)
          exact ⟨h.wg_eq, fun _ => hwg, h.sendOnClosed, h.negativeCount, h.onTop, fun _ => rfl⟩
      · cases hstep

theorem inv_of_run {capacity workers : ℕ} (hrun : exec (step b) (initial capacity workers) as =
    some gen) : gen.Inv :=
  exec_invariant (fun _ _ _ h (_ : True) hstep => h.step hstep)
    (Always.of_mem (fun _ _ _ => trivial) _) hrun (initial_inv capacity workers)

/-! ### When all workers wait -/

/-- A worker that comes to a send did so from a function that waits, and nothing is sent. -/
theorem waits_of_isSending {f : Frame} {stack fs : List Frame} (h : FrameStep gen.full f fs e)
    (hbelow : ∀ g ∈ stack, g.isSend = false)
    (hsend : (Worker.working (fs ++ stack)).isSending = true) :
    f.waitsForRoom = true ∧ e = .add := by
  have hnot : ∀ {g : Frame} {rs : List Frame}, g.isSend = false →
      (Worker.working (g :: rs)).isSending = false := by
    intro g rs hg
    cases g <;> first | rfl | cases hg
  have hzero : ∀ {g : Frame}, g.owed = 0 → g.isSend = false := by
    intro g hg
    cases g <;> first | rfl | cases hg
  have hstack : (Worker.working stack).isSending = false := by
    cases stack with
    | nil => rfl
    | cons g rest => exact hnot (hbelow g (List.mem_cons_self ..))
  cases h with
  | quiet _ _ hf hw hfs he =>
      exfalso
      cases fs with
      | nil => exact Bool.false_ne_true (hstack.symm.trans hsend)
      | cons g fs =>
          have hg := @hnot g (fs ++ stack) (hzero (hfs g (List.mem_cons_self ..)))
          exact Bool.false_ne_true (hg.symm.trans hsend)
  | addSend g c hf hg => exact absurd hsend (Bool.eq_false_iff.mp (hnot (hzero hg)))
  | wait g c hf hw hg => exact ⟨hw, rfl⟩
  | inline g g' hf hw hg => exact absurd hsend (Bool.eq_false_iff.mp (hnot (hzero hg)))
  | send c hf => exact absurd hsend (Bool.eq_false_iff.mp hstack)
  | finish hf => exact absurd hsend (Bool.eq_false_iff.mp hstack)

/-- A function that waits comes to a send if the queue is full. -/
theorem isSending_of_waits {f : Frame} {fs : List Frame} (h : FrameStep gen.full f fs e)
    (hfull : gen.full = true) (hw : f.waitsForRoom = true) (stack : List Frame) :
    (Worker.working (fs ++ stack)).isSending = true ∧ e = .add := by
  cases h with
  | quiet _ _ hf hquiet => exact absurd hw (Bool.eq_false_iff.mp (hquiet hfull))
  | addSend g c hf hg hroom => exact absurd hfull (Bool.eq_false_iff.mp hroom)
  | wait g c => exact ⟨rfl, rfl⟩
  | inline g g' hf hno => exact absurd hw (Bool.eq_false_iff.mp hno)
  | send c hf hroom => exact absurd hfull (Bool.eq_false_iff.mp hroom)
  | finish hf =>
      subst hf
      cases hw

/-- Once all workers wait, nothing ever happens. -/
theorem allBlocked_stuck (h : gen.Inv) (hblocked : gen.AllBlocked) (hne : gen.workers ≠ [])
    (a : WalkStep) : gen.step b a = none := by
  obtain ⟨w, hw⟩ := List.exists_mem_of_ne_nil _ hne
  obtain ⟨k₀, hk₀⟩ := List.mem_iff_getElem?.mp hw
  have hsend := hblocked.2 w hw
  obtain ⟨stack, rfl⟩ : ∃ stack, w = .working stack := by
    cases w with
    | working stack => exact ⟨stack, rfl⟩
    | receiving | ended => cases hsend
  obtain ⟨hle, hopen⟩ := h.working hk₀
  cases a with
  | worker k fails =>
      cases hstep : gen.step b (.worker k fails) with
      | none => rfl
      | some gen' =>
          have hall : ∀ {w}, gen.workers[k]? = some w → w.isSending = true := fun hk =>
            hblocked.2 _ (List.mem_of_getElem? hk)
          cases step_worker hstep with
          -- no worker is at the queue, at its end or on its way back
          | receive _ _ hk => cases hall hk
          | ends hk => cases hall hk
          | returns hk => cases hall hk
          | frame f stack fs e hk hf =>
              have hf' := hall hk
              cases f with
              -- the send finds the queue full
              | sending c =>
                  rw [Frame.step, hblocked.1] at hf
                  cases hf
              | _ => cases hf'
  | waited =>
      -- a send that waits is counted, so the closer does not go on
      have hwg := h.wg_eq
      have hpos : gen.wg ≠ 0 := by omega
      exact if_neg fun hwaited => hpos hwaited.2.2
  | close =>
      refine if_neg fun hreleased => ?_
      rw [hopen] at hreleased
      cases hreleased.2

/-- The worker itself is not blocked after such a step. -/
theorem not_allBlocked_of_worker {w' : Worker} (hk : gen.workers[k]? = some w)
    (hworkers : gen'.workers = gen.workers.set k w') (hw' : w'.isSending = false) :
    ¬gen'.AllBlocked := by
  intro hblocked
  obtain ⟨hlt, -⟩ := List.getElem?_eq_some_iff.mp hk
  have hmem : w' ∈ gen'.workers := by
    rw [hworkers]
    exact List.mem_set hlt w'
  exact Bool.false_ne_true (hw'.symm.trans (hblocked.2 w' hmem))

/-- A worker that does not come to a send that waits leaves another one. -/
theorem leavesOne_of_worker (hk : gen.workers[k]? = some w) (hw : w.waitsForRoom = false) :
    gen.LeavesOne (.worker k fails) := by
  intro _ hwaits
  rw [hk, Option.any_some, hw] at hwaits
  cases hwaits

/-- If the worker comes to a send, all of them wait exactly if the others do. -/
theorem allBlocked_add_iff {w' : Worker} (hk : gen.workers[k]? = some w)
    (hw : w.waitsForRoom = true) (hw' : w'.isSending = true) :
    ((gen.setWorker k w').apply .add).AllBlocked ↔ ¬gen.LeavesOne (.worker k fails) := by
  have hfull : ((gen.setWorker k w').apply .add).full = gen.full := rfl
  have hworkers : ((gen.setWorker k w').apply .add).workers = gen.workers.set k w' := rfl
  have hwaits : (gen.workers[k]?.any Worker.waitsForRoom) = true := by
    rw [hk, Option.any_some, hw]
  unfold AllBlocked
  rw [hfull, hworkers]
  constructor
  · rintro ⟨hroom, hall⟩ hleaves
    obtain ⟨j, v, hne, hj, hv⟩ := hleaves hroom hwaits
    have hj' : (gen.workers.set k w')[j]? = some v := by
      rw [List.getElem?_set_ne hne.symm, hj]
    exact Bool.false_ne_true (hv.symm.trans (hall v (List.mem_of_getElem? hj')))
  · intro hnot
    have hroom : gen.full = true := by
      by_contra hroom
      exact hnot fun h => absurd h hroom
    refine ⟨hroom, fun v hv => ?_⟩
    obtain ⟨j, hj⟩ := List.mem_iff_getElem?.mp hv
    by_cases hjk : j = k
    · subst hjk
      obtain ⟨hlt, -⟩ := List.getElem?_eq_some_iff.mp hk
      rw [List.getElem?_set_self hlt] at hj
      exact Option.some.inj hj ▸ hw'
    · rw [List.getElem?_set_ne (Ne.symm hjk)] at hj
      by_contra hv'
      exact hnot fun _ _ => ⟨j, v, hjk, hj, Bool.eq_false_iff.mpr hv'⟩

/-- A step leads to a state in which all workers wait if and only if it leaves no other. -/
theorem allBlocked_step_iff (h : gen.Inv) (hstep : gen.step b a = some gen')
    (hnot : ¬gen.AllBlocked) : gen'.AllBlocked ↔ ¬gen.LeavesOne a := by
  cases a with
  | worker k fails =>
      cases step_worker hstep with
      -- a worker that receives has left the queue
      | receive dirPath rest hk hq =>
          exact iff_of_false (not_allBlocked_of_worker hk rfl rfl)
            (not_not.mpr (leavesOne_of_worker hk rfl))
      -- a worker that has ended does not send
      | ends hk hclosed =>
          exact iff_of_false (not_allBlocked_of_worker hk rfl rfl)
            (not_not.mpr (leavesOne_of_worker hk rfl))
      -- a worker that comes back is not at a send
      | returns hk =>
          exact iff_of_false (not_allBlocked_of_worker hk (workers_apply _ _) rfl)
            (not_not.mpr (leavesOne_of_worker hk rfl))
      | frame f stack fs e hk hf =>
          have hcases := Frame.step_cases hf
          by_cases hsend : (Worker.working (fs ++ stack)).isSending = true
          -- the worker comes to a send, and all are blocked if the others were
          · obtain ⟨hw, rfl⟩ := waits_of_isSending hcases (h.below hk) hsend
            exact allBlocked_add_iff hk hw hsend
          -- the worker is not at a send, so the system is not blocked
          · have hstays : (Worker.working (fs ++ stack)).isSending = false :=
              Bool.eq_false_iff.mpr hsend
            refine iff_of_false (not_allBlocked_of_worker hk (workers_apply _ _) hstays)
              (not_not.mpr fun hfull hwaits => ?_)
            rw [hk, Option.any_some] at hwaits
            exact absurd (isSending_of_waits hcases hfull hwaits stack).1 hsend
  | waited =>
      change (if _ then _ else _) = _ at hstep
      split at hstep
      -- the closer goes on: the queue and the workers are as before
      · next hwaited =>
          obtain rfl := Option.some.inj hstep
          refine iff_of_false (fun hblocked => hnot ⟨?_, hblocked.2⟩) (not_not.mpr trivial)
          have hroom := (of_decide_eq_true hblocked.1).2
          refine decide_eq_true ⟨?_, hroom⟩
          rw [hwaited.2.1]
          decide
      · cases hstep
  | close =>
      change (if _ then _ else _) = _ at hstep
      split at hstep
      -- on a closed queue a send panics, it does not wait
      · obtain rfl := Option.some.inj hstep
        refine iff_of_false (fun hblocked => ?_) (not_not.mpr trivial)
        have hroom := hblocked.1
        unfold full at hroom
        exact absurd rfl (of_decide_eq_true hroom).1
      · cases hstep

/-- Not all workers wait, in every state of the run. -/
def NeverBlocked (b : WalkBackend) (gen : ManifestGenerator) (as : List WalkStep) : Prop :=
  ∀ bs gen', bs <+: as → exec (step b) gen bs = some gen' → ¬gen'.AllBlocked

/-- From a state that is not blocked a run is never blocked where each step leaves a worker. -/
theorem neverBlocked_iff (h : gen.Inv) (hnot : ¬gen.AllBlocked)
    (hrun : exec (step b) gen as = some gen') :
    NeverBlocked b gen as ↔ Always (step b) LeavesOne gen as := by
  induction as generalizing gen with
  | nil =>
      refine iff_of_true (fun bs gen₁ hbs hrun₁ => ?_) trivial
      obtain rfl := List.prefix_nil.mp hbs
      obtain rfl := Option.some.inj hrun₁
      exact hnot
  | cons a as ih =>
      obtain ⟨gen₁, hstep, hrest⟩ := exec_cons.mp hrun
      have hiff := allBlocked_step_iff h hstep hnot
      constructor
      -- the state behind the first step is not blocked, and so leaves a worker
      · intro hnever
        have hnot₁ : ¬gen₁.AllBlocked :=
          hnever [a] gen₁ (List.prefix_append [a] as) (exec_cons.mpr ⟨gen₁, hstep, rfl⟩)
        refine ⟨not_not.mp fun hleaves => hnot₁ (hiff.mpr hleaves), fun gen₂ hstep₂ => ?_⟩
        obtain rfl := Option.some.inj (hstep.symm.trans hstep₂)
        refine (ih (h.step hstep) hnot₁ hrest).mp fun bs gen₂ hbs hrun₂ => ?_
        exact hnever (a :: bs) gen₂ (List.cons_prefix_cons.mpr ⟨rfl, hbs⟩)
          (exec_cons.mpr ⟨gen₁, hstep, hrun₂⟩)
      · rintro ⟨hleaves, halways⟩ bs gen₂ hbs hrun₂
        -- the step leaves a worker, so the state behind it is not blocked
        have hnot₁ : ¬gen₁.AllBlocked := fun hblocked => hiff.mp hblocked hleaves
        cases bs with
        | nil =>
            obtain rfl := Option.some.inj hrun₂
            exact hnot
        | cons c bs =>
            obtain ⟨rfl, hbs'⟩ := List.cons_prefix_cons.mp hbs
            obtain ⟨gen₃, hstep₃, hrun₂⟩ := exec_cons.mp hrun₂
            obtain rfl := Option.some.inj (hstep.symm.trans hstep₃)
            exact (ih (h.step hstep) hnot₁ hrest).mpr (halways gen₁ hstep) bs gen₂ hbs' hrun₂

/-- **Every run of the workers.**  In each of its states some worker does not wait for room
in the queue, if and only if each worker that comes to a send that waits, while the queue
is full, leaves another worker that does not.  And nothing is ever sent to the closed
queue. -/
theorem neverBlocked_iff_of_run (b : WalkBackend) {capacity workers : ℕ} (hworkers : 1 ≤ workers)
    (as : List WalkStep) (gen : ManifestGenerator)
    (hrun : exec (step b) (initial capacity workers) as = some gen) :
    (NeverBlocked b (initial capacity workers) as ↔
        Always (step b) LeavesOne (initial capacity workers) as) ∧
      gen.panic ≠ some .sendOnClosed := by
  refine ⟨neverBlocked_iff (initial_inv capacity workers) ?_ hrun, (inv_of_run hrun).sendOnClosed⟩
  rintro ⟨-, hall⟩
  have hmem : Worker.receiving ∈ (initial capacity workers).workers :=
    List.mem_replicate.mpr ⟨Nat.one_le_iff_ne_zero.mp hworkers, rfl⟩
  cases hall _ hmem

/-- A function goes on, unless it waits for room. -/
theorem step_eq_none {f : Frame} (h : f.step b gen.full fails = none) :
    f.isSend = true ∧ gen.full = true := by
  match f with
  | .sending c =>
      rw [Frame.step] at h
      split at h
      · next hfull => exact ⟨rfl, hfull⟩
      · cases h
  | .writing dirPath depth (subdir :: subdirs) pages next =>
      rw [Frame.step] at h
      split at h
      · cases h
      · split at h <;> cases h
  | .writing dirPath depth [] [] (some input) | .resuming dirPath [] (some input) =>
      rw [Frame.step] at h
      split at h <;> cases h
  | .listing dirPath depth =>
      rw [Frame.step] at h
      repeat' split at h
      all_goals cases h

/-- What a worker is at that cannot go on. -/
theorem workerStep_eq_none (hk : gen.workers[k]? = some w) (h : gen.workerStep b k fails = none) :
    w = .receiving ∧ gen.workQueue = [] ∧ gen.closer ≠ .closed ∨
      w.isSending = true ∧ gen.full = true ∨ w = .ended := by
  unfold workerStep at h
  rw [hk] at h
  match w with
  | .receiving =>
      dsimp only at h
      split at h
      · cases h
      · next hq =>
          split at h
          · cases h
          · next hclosed => exact .inl ⟨rfl, hq, hclosed⟩
  | .working [] => cases h
  | .working (f :: stack) =>
      obtain ⟨hsend, hfull⟩ := step_eq_none (Option.map_eq_none_iff.mp h)
      refine .inr (.inl ⟨?_, hfull⟩)
      cases f <;> first | rfl | cases hsend
  | .ended => exact .inr (.inr rfl)

/-- The walk can go on, unless all workers wait, or it is over. -/
theorem progress (h : gen.Inv) (hcapacity : 0 < gen.capacity) (hpanic : gen.panic = none)
    (hnot : ¬gen.AllBlocked) (hworkers : ∃ w ∈ gen.workers, w ≠ .ended) :
    ∃ a, gen.step b a ≠ none := by
  by_contra hstuck
  simp only [not_exists, not_not] at hstuck
  have hall : ∀ w ∈ gen.workers, w = .receiving ∧ gen.workQueue = [] ∧ gen.closer ≠ .closed ∨
      w.isSending = true ∧ gen.full = true ∨ w = .ended := by
    intro w hw
    obtain ⟨k, hk⟩ := List.mem_iff_getElem?.mp hw
    have hnone : (if gen.panic = none then gen.workerStep b k false else none) = none :=
      hstuck (.worker k false)
    rw [if_pos hpanic] at hnone
    exact workerStep_eq_none hk hnone
  obtain ⟨w, hw, hne⟩ := hworkers
  have hopen : gen.closer ≠ .closed := by
    rcases hall w hw with ⟨-, -, hopen⟩ | ⟨-, hfull⟩ | hended
    · exact hopen
    · exact (of_decide_eq_true hfull).1
    · exact absurd hended hne
  have hended : ∀ w ∈ gen.workers, w ≠ .ended := by
    rintro w hw rfl
    exact hopen (h.ended hw)
  by_cases hfull : gen.full = true
  · -- the queue is full, so no worker would wait to receive
    apply hnot
    refine ⟨hfull, fun w hw => ?_⟩
    rcases hall w hw with ⟨-, hq, -⟩ | ⟨hsend, -⟩ | heq
    · have hlen := (of_decide_eq_true hfull).2
      rw [hq] at hlen
      exact absurd hcapacity (Nat.not_lt.mpr hlen)
    · exact hsend
    · exact absurd heq (hended w hw)
  · -- all wait to receive, so nothing is counted, and the queue is closed
    have hidle : ∀ w ∈ gen.workers, w = .receiving ∧ gen.workQueue = [] := by
      intro w hw
      rcases hall w hw with ⟨heq, hq, -⟩ | ⟨-, hroom⟩ | heq
      · exact ⟨heq, hq⟩
      · exact absurd hroom hfull
      · exact absurd heq (hended w hw)
    have hwg : gen.wg = 0 := by
      rw [h.wg_eq, (hidle w hw).2, List.length_nil, Nat.zero_add]
      apply List.sum_eq_zero
      intro n hn
      obtain ⟨w, hw, rfl⟩ := List.mem_map.mp hn
      rw [(hidle w hw).1]
      rfl
    cases hcloser : gen.closer with
    | waiting =>
        have hnone := hstuck .waited
        rw [show gen.step b .waited = some _ from if_pos ⟨hpanic, hcloser, hwg⟩] at hnone
        cases hnone
    | released =>
        have hnone := hstuck .close
        rw [show gen.step b .close = some _ from if_pos ⟨hpanic, hcloser⟩] at hnone
        cases hnone
    | closed => exact hopen hcloser

end ManifestGenerator

/-! ### A flat directory with two subdirectories behind its files -/

/-- The root has more files `a…` than one page, and then the directories `r` and `s`. -/
def flatRoot : WalkBackend where
  listDirectory input :=
    if input.dirPath ≠ [] then some ⟨[], [], [], false⟩
    else if input.startAfter = [] then some ⟨[], ["a".toList], "t".toList, true⟩
    else some ⟨["r".toList, "s".toList], [], [], false⟩
  flatDirHints := []
  flatDirConfirmationPages := 1

instance (gen : ManifestGenerator) : Decidable gen.AllBlocked := by
  unfold ManifestGenerator.AllBlocked
  infer_instance

namespace ManifestGenerator

/-- One worker lists the root: it queues `r`, and waits for room for `s`. -/
def flatRootRun : List WalkStep := List.replicate 6 (.worker 0 false)

/-- Alone, the worker waits for ever. -/
theorem flatRoot_blocks :
    ∃ gen, exec (step flatRoot) (initial 1 1) flatRootRun = some gen ∧ gen.AllBlocked :=
  exec_exists (by decide +kernel)

end ManifestGenerator

end MultiStorageFileSystem
