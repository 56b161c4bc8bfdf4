/-
MultiStorageClient/MultipartFile.lean

`download_multipart_to_file` of the Rust client.

The call itself, the tasks of the chunks and the writer move one at a time, in any
order; what the store and the file system answer is the `failure` of a step.  The
tasks send what they get through a channel, and the writer puts it into a
temporary file, which becomes `local_path` when all is written.

The invariant (`FileDownload.Ok`) says where the bytes of a chunk are: with its
task, in the channel or in the file.  So when the writer has come to the end of
the channel, they are all in the file.
-/
import MultiStorageClient.MultipartBytes
import MultiStorageClient.SparseFile

namespace MultiStorageClient

open Run Slice

/-! ### The parties -/

/-- What a task sends: the index of its chunk and the bytes, or the error of its request. -/
abbrev ChunkResult (ε : Type) := Except ε (ℕ × List UInt8)

/-- The task of a chunk. -/
inductive ChunkTask (ε : Type)
  | fetching (start stop : ℕ)
  | sending (result : ChunkResult ε)
  | ended

/-- The task that writes the chunks in the order in which they arrive. -/
inductive ChunkWriter (ε : Type)
  | notStarted
  | receiving
  | ended (result : Except (CallError ε) Unit)

/-- Where the call itself is. -/
inductive DownloadCall (ε : Type)
  | head
  | createTemp (totalSize : ℕ)
  | reopenTemp (totalSize : ℕ)
  | setLen (totalSize : ℕ)
  | spawning (totalSize numChunks : ℕ)
  | joining (totalSize : ℕ)
  | persisting (totalSize : ℕ)
  | ended (result : Except (CallError ε) ℕ)

/-- A state of `download_multipart_to_file`; `localPath` is what is there. -/
structure FileDownload (ε : Type) where
  call : DownloadCall ε
  temp : SparseFile
  tasks : List (ChunkTask ε)
  channel : List (ChunkResult ε)
  writer : ChunkWriter ε
  localPath : Option (List UInt8)

namespace ChunkTask

variable {ε : Type}

/-- The task holds its permit and its sender. -/
def running : ChunkTask ε → Bool
  | .ended => false
  | _ => true

end ChunkTask

namespace DownloadCall

variable {ε : Type}

/-- The call holds its sender. -/
def sending : DownloadCall ε → Bool
  | .joining _ | .persisting _ | .ended _ => false
  | _ => true

end DownloadCall

namespace FileDownload

variable {ε : Type}

/-- A step of a party, with the failure of what it asks for. -/
inductive Step (ε : Type)
  /-- the next operation of the call on the store or the files -/
  | call (failure : Option ε)
  | spawn
  | dropSender
  | join
  /-- the request of a chunk ends -/
  | fetched (i : ℕ) (failure : Option ε)
  | send (i : ℕ)
  /-- the writer takes a message and writes the chunk -/
  | receive (failure : Option ε)
  /-- the writer comes to the end of the channel, flushes and syncs -/
  | close (failure : Option ε)

/-- Nothing has been done. -/
def initial (localPath : Option (List UInt8)) : FileDownload ε :=
  ⟨.head, .empty, [], [], .notStarted, localPath⟩

/-- The call ends with an error. -/
def fail (s : FileDownload ε) (e : CallError ε) : FileDownload ε :=
  { s with call := .ended (.error e) }

/-- The writer ends, and with it the receiver: what is in the channel is gone. -/
def endWriter (s : FileDownload ε) (result : Except (CallError ε) Unit) : FileDownload ε :=
  { s with writer := .ended result, channel := [] }

/-- The number of permits that are taken. -/
def running (s : FileDownload ε) : ℕ := s.tasks.countP ChunkTask.running

variable (checks : Bool) (data : List UInt8) (chunksize concurrency : ℕ) (s : FileDownload ε)

/-- `(start_offset, end_offset)` of a chunk -/
def chunkRange (totalSize chunkIndex : ℕ) : Except (CallError ε) (ℕ × ℕ) := do
  let startOffset ← U64.mul checks chunkIndex chunksize
  pure (startOffset, min (← U64.add checks startOffset chunksize) totalSize)

/-- The next step of the call itself, or its failure. -/
def callStep : Option ε → Option (FileDownload ε)
  | some e =>
      match s.call with
      -- the places of the call where the disk or the store can fail
      | .head | .createTemp _ | .reopenTemp _ | .setLen _ | .persisting _ =>
          some (s.fail (.storage e))
      | _ => none
  | none =>
      match s.call with
      | .head => some { s with call := .createTemp data.length }
      | .createTemp totalSize => some { s with call := .reopenTemp totalSize, temp := .empty }
      | .reopenTemp totalSize => some { s with call := .setLen totalSize }
      -- the file has its length before the first chunk is spawned
      | .setLen totalSize =>
          match RustClient.numChunks checks chunksize totalSize with
          | .error e => some ({ s with temp := s.temp.setLen totalSize }.fail e)
          | .ok numChunks =>
              some { s with
                temp := s.temp.setLen totalSize
                call := .spawning totalSize numChunks
                writer := .receiving }
      | .persisting totalSize =>
          some { s with call := .ended (.ok totalSize), localPath := some s.temp.content }
      | _ => none

/-- A task is spawned, if there is a permit. -/
def spawnStep : Option (FileDownload ε) :=
  match s.call with
  | .spawning totalSize numChunks =>
      if s.tasks.length < numChunks ∧ s.running < concurrency then
        match chunkRange checks chunksize totalSize s.tasks.length with
        | .error e => some (s.fail e)
        | .ok (start, stop) => some { s with tasks := s.tasks ++ [.fetching start stop] }
      else none
  | _ => none

/-- The call drops its sender. -/
def dropSenderStep : Option (FileDownload ε) :=
  match s.call with
  | .spawning totalSize numChunks =>
      if s.tasks.length < numChunks then none else some { s with call := .joining totalSize }
  | _ => none

/-- The call has the result of the writer. -/
def joinStep : Option (FileDownload ε) :=
  match s.call, s.writer with
  | .joining totalSize, .ended (.ok _) => some { s with call := .persisting totalSize }
  | .joining _, .ended (.error e) => some (s.fail e)
  | _, _ => none

/-- `get_range` of the chunk's range: its bytes, or an error. -/
def fetchedStep (i : ℕ) (failure : Option ε) : Option (FileDownload ε) :=
  match s.tasks[i]? with
  | some (.fetching start stop) =>
      let result := match failure with
        | some e => .error e
        | none => .ok (i, slice start (stop - start) data)
      some { s with tasks := s.tasks.set i (.sending result) }
  | _ => none

/-- A task sends what it has fetched. -/
def sendStep (i : ℕ) : Option (FileDownload ε) :=
  match s.tasks[i]? with
  | some (.sending result) =>
      match s.writer with
      | .ended _ => some { s with tasks := s.tasks.set i .ended }
      | _ =>
          if s.channel.length < concurrency then
            some { s with tasks := s.tasks.set i .ended, channel := s.channel ++ [result] }
          else none
  | _ => none

/-- The writer takes the next chunk. -/
def receiveStep (failure : Option ε) : Option (FileDownload ε) :=
  match s.writer, s.channel with
  | .receiving, .error e :: _ => some (s.endWriter (.error (.storage e)))
  | .receiving, .ok (chunkIndex, bytes) :: channel =>
      match failure, U64.mul checks chunkIndex chunksize with
      | some e, _ => some (s.endWriter (.error (.storage e)))
      | none, .error e => some (s.endWriter (.error e))
      | none, .ok offset => some { s with temp := s.temp.writeAt offset bytes, channel := channel }
  | _, _ => none

/-- The writer finds the channel closed. -/
def closeStep (failure : Option ε) : Option (FileDownload ε) :=
  match s.writer, s.channel with
  | .receiving, [] =>
      if s.call.sending = false ∧ s.running = 0 then
        some (s.endWriter (match failure with
          | some e => .error (.storage e)
          | none => .ok ()))
      else none
  | _, _ => none

/-- The steps of the call, its tasks and its writer. -/
def step : Step ε → Option (FileDownload ε)
  | .call failure => s.callStep checks data chunksize failure
  | .spawn => s.spawnStep checks chunksize concurrency
  | .dropSender => s.dropSenderStep
  | .join => s.joinStep
  | .fetched i failure => s.fetchedStep data i failure
  | .send i => s.sendStep concurrency i
  | .receive failure => s.receiveStep checks chunksize failure
  | .close failure => s.closeStep failure

/-- What the call returns, and what is then at `local_path`. -/
def answer (s : FileDownload ε) : Option (Except (CallError ε) ℕ × Option (List UInt8)) :=
  match s.call with
  | .ended result => some (result, s.localPath)
  | _ => none

/-- The object is there, or the call fails and nothing has changed. -/
def AllOrNothing (data : List UInt8) (before : Option (List UInt8)) :
    Except (CallError ε) ℕ × Option (List UInt8) → Prop
  | (.ok totalSize, after) => totalSize = data.length ∧ after = some data
  | (.error _, after) => after = before

/-! ### Where the bytes of a chunk are -/

/-- What a chunk has to be. -/
def chunkBytes (i : ℕ) : List UInt8 := slice (i * chunksize) chunksize data

/-- A message is of a chunk, and has its bytes. -/
def ResultOk (i : ℕ) : ChunkResult ε → Prop
  | .error _ => True
  | .ok (chunkIndex, bytes) => chunkIndex = i ∧ bytes = chunkBytes data chunksize i

/-- A task fetches its own range, or has its bytes. -/
def TaskOk (i : ℕ) : ChunkTask ε → Prop
  | .fetching start stop =>
      start = i * chunksize ∧ stop = min (i * chunksize + chunksize) data.length
  | .sending result => ResultOk data chunksize i result
  | .ended => True

/-- A chunk is in the file. -/
def Written (temp : SparseFile) (i : ℕ) : Prop :=
  temp.Holds (i * chunksize) (chunkBytes data chunksize i)

/-- What has been sent is in the channel or in the file, unless an error is on its way. -/
def Sent (i : ℕ) : Prop :=
  (∃ e, .error e ∈ s.channel) ∨ .ok (i, chunkBytes data chunksize i) ∈ s.channel ∨
    Written data chunksize s.temp i

/-- What holds where the call is. -/
def CallOk (before : Option (List UInt8)) : Prop :=
  match s.call with
  | .head => s.writer = .notStarted ∧ s.localPath = before
  | .createTemp totalSize | .reopenTemp totalSize | .setLen totalSize =>
      totalSize = data.length ∧ s.writer = .notStarted ∧ s.localPath = before
  | .spawning totalSize numChunks =>
      totalSize = data.length ∧ s.writer ≠ .notStarted ∧ s.tasks.length ≤ numChunks ∧
        RustClient.numChunks (ε := ε) checks chunksize data.length = .ok numChunks ∧
          s.localPath = before
  | .joining totalSize =>
      totalSize = data.length ∧ s.writer ≠ .notStarted ∧
        RustClient.numChunks (ε := ε) checks chunksize data.length = .ok s.tasks.length ∧
          s.localPath = before
  | .persisting totalSize =>
      totalSize = data.length ∧ (∃ result, s.writer = .ended result) ∧ s.temp.content = data ∧
        s.localPath = before
  | .ended (.ok totalSize) => totalSize = data.length ∧ s.localPath = some data
  | .ended (.error _) => s.localPath = before

/-- The invariant of a download. -/
structure Ok (before : Option (List UInt8)) (s : FileDownload ε) : Prop where
  call : s.CallOk checks data chunksize before
  count : ∀ i, i < s.tasks.length →
    i * chunksize < data.length ∧ i * chunksize + chunksize < 2 ^ 64
  tasks : ∀ i t, s.tasks[i]? = some t → TaskOk data chunksize i t
  channel : ∀ m ∈ s.channel, ∃ i, i < s.tasks.length ∧ ResultOk data chunksize i m
  idle : s.writer = .notStarted → s.tasks = [] ∧ s.channel = []
  size : s.writer ≠ .notStarted → s.temp.size = data.length
  sent : s.writer = .receiving → ∀ i, s.tasks[i]? = some .ended → s.Sent data chunksize i
  written : s.writer = .ended (.ok ()) →
    s.call.sending = false ∧ ∀ i, i < s.tasks.length → Written data chunksize s.temp i
  zero : (∀ b ∈ data, b = 0) → ∀ k, s.temp.bytes k = 0

/-- The chunks are within the object, and there are enough of them. -/
structure Covers (numChunks : ℕ) : Prop where
  count : ∀ i, i < numChunks → i * chunksize < data.length ∧ i * chunksize + chunksize < 2 ^ 64
  all : data.length ≤ numChunks * chunksize ∨ ∀ b ∈ data, b = 0

/-! ### What is left to do -/

/-- What the call has still to do. -/
def callRank : DownloadCall ε → ℕ
  | .head => 7
  | .createTemp _ => 6
  | .reopenTemp _ => 5
  | .setLen _ => 4
  | .spawning _ _ => 3
  | .joining _ => 2
  | .persisting _ => 1
  | .ended _ => 0

/-- What a task has still to do. -/
def taskRank : ChunkTask ε → ℕ
  | .fetching _ _ => 3
  | .sending _ => 2
  | .ended => 0

/-- What the writer has still to do. -/
def writerRank : ChunkWriter ε → ℕ
  | .ended _ => 0
  | _ => 1

/-- What is left to do, of so many chunks. -/
def left (numChunks : ℕ) (s : FileDownload ε) : ℕ :=
  callRank s.call + writerRank s.writer + 4 * (numChunks - s.tasks.length) +
    (s.tasks.map taskRank).sum + s.channel.length

/-! ### One step of each party -/

section Steps

variable {checks data chunksize concurrency s} {before : Option (List UInt8)} {n : ℕ}
  {s' : FileDownload ε} {failure : Option ε}

/-- Only the call moves on. -/
theorem Ok.moved (h : s.Ok checks data chunksize before) {call : DownloadCall ε}
    {localPath : Option (List UInt8)} (hsending : s.call.sending = false → call.sending = false)
    (hcall : CallOk checks data chunksize { s with call := call, localPath := localPath } before)
    (hrank : callRank call < callRank s.call) :
    Ok checks data chunksize before { s with call := call, localPath := localPath } ∧
      left n { s with call := call, localPath := localPath } < s.left n := by
  refine ⟨{ h with
    call := hcall
    written := fun hw => ⟨hsending (h.written hw).1, (h.written hw).2⟩ }, ?_⟩
  simp only [left]
  omega

/-- Nothing has changed while the call goes on. -/
theorem Ok.unchanged (h : s.Ok checks data chunksize before) (hcall : 0 < callRank s.call) :
    s.localPath = before := by
  have hok := h.call
  unfold CallOk at hok
  cases hc : s.call <;> rw [hc] at hok hcall
  case ended r => cases hcall
  all_goals tauto

theorem Ok.fail (h : s.Ok checks data chunksize before) (hcall : 0 < callRank s.call)
    (e : CallError ε) :
    (s.fail e).Ok checks data chunksize before ∧ (s.fail e).left n < s.left n :=
  h.moved (fun _ => rfl) (h.unchanged hcall) hcall

/-- The call of the download. -/
theorem callStep_ok (h : s.Ok checks data chunksize before)
    (hstep : s.callStep checks data chunksize failure = some s') :
    s'.Ok checks data chunksize before ∧ s'.left n < s.left n := by
  have hcall := h.call
  unfold CallOk at hcall
  unfold callStep at hstep
  split at hstep
  -- a failure of the call's own step
  next e =>
    split at hstep <;> cases hstep <;>
      next hc => exact h.fail (by rw [hc]; exact Nat.succ_pos _) _
  next =>
    split at hstep
    -- the head is known
    next hc =>
      cases hstep
      rw [hc] at hcall
      exact h.moved (fun hs => by rw [hc] at hs; cases hs) ⟨rfl, hcall⟩
        (by rw [hc]; exact Nat.lt_succ_self _)
    -- the temporary file is there
    next totalSize hc =>
      cases hstep
      rw [hc] at hcall
      have hidle := hcall.2.1
      refine ⟨{ h with
        call := hcall
        size := fun hw => absurd hidle hw
        sent := fun hw => by rw [hidle] at hw; cases hw
        written := fun hw => by rw [hidle] at hw; cases hw
        zero := fun _ _ => rfl }, ?_⟩
      simp only [left, hc, callRank]
      omega
    -- and is opened once more
    next totalSize hc =>
      cases hstep
      rw [hc] at hcall
      exact h.moved (fun hs => by rw [hc] at hs; cases hs) hcall
        (by rw [hc]; exact Nat.lt_succ_self _)
    -- its length is set, which makes it all zeros
    next totalSize hc =>
      rw [hc] at hcall
      obtain ⟨rfl, hidle, hbefore⟩ := hcall
      obtain ⟨htasks, hchannel⟩ := h.idle hidle
      have hzero : (∀ b ∈ data, b = 0) → ∀ k, (s.temp.setLen data.length).bytes k = 0 := by
        intro hdata k
        unfold SparseFile.setLen
        dsimp only
        split
        · exact h.zero hdata k
        · rfl
      split at hstep
      -- the number of chunks overflows
      next e _ =>
        cases hstep
        refine ⟨{ h with
          call := hbefore
          size := fun _ => rfl
          sent := fun hw => by cases hidle.symm.trans hw
          written := fun hw => by cases hidle.symm.trans hw
          zero := hzero }, ?_⟩
        simp only [left, FileDownload.fail, hc, callRank]
        omega
      -- the spawning begins, with an idle writer
      next numChunks hnum =>
        cases hstep
        refine ⟨⟨⟨rfl, nofun, by rw [htasks]; exact Nat.zero_le _, hnum, hbefore⟩, h.count, h.tasks,
          h.channel, nofun, fun _ => rfl, fun _ i hi => ?_, nofun, hzero⟩, ?_⟩
        · rw [htasks] at hi
          cases hi
        · simp only [left, hc, hidle, callRank, writerRank]
          omega
    -- the file is in its place
    next totalSize hc =>
      cases hstep
      rw [hc] at hcall
      obtain ⟨htotal, hended, hcontent, hbefore⟩ := hcall
      exact h.moved (fun _ => rfl) ⟨htotal, congrArg some hcontent⟩
        (by rw [hc]; exact Nat.lt_succ_self _)
    next => cases hstep

theorem chunkRange_eq {i : ℕ} (hlt : i * chunksize + chunksize < 2 ^ 64) :
    chunkRange (ε := ε) checks chunksize data.length i =
      .ok (i * chunksize, min (i * chunksize + chunksize) data.length) := by
  unfold chunkRange
  rw [U64.mul_eq (by omega)]
  simp only [bind, Except.bind, pure, Except.pure]
  rw [U64.add_eq hlt]

/-- The tasks when one more has been spawned. -/
theorem getElem?_spawned {tasks : List (ChunkTask ε)} {t t' : ChunkTask ε} {i : ℕ}
    (hi : (tasks ++ [t'])[i]? = some t) : tasks[i]? = some t ∨ i = tasks.length ∧ t = t' := by
  rw [List.getElem?_append] at hi
  split at hi
  next hlt => exact .inl hi
  next hlt =>
    obtain ⟨hsub, rfl⟩ := List.getElem?_eq_some_iff.mp hi
    rw [List.length_singleton] at hsub
    exact .inr ⟨by omega, by simp⟩

/-- A spawned task. -/
theorem spawnStep_ok (hcovers : ∀ k,
      RustClient.numChunks (ε := ε) checks chunksize data.length = .ok k →
        k ≤ n ∧ Covers data chunksize k)
    (h : s.Ok checks data chunksize before)
    (hstep : s.spawnStep checks chunksize concurrency = some s') :
    s'.Ok checks data chunksize before ∧ s'.left n < s.left n := by
  have hcall := h.call
  unfold CallOk at hcall
  unfold spawnStep at hstep
  split at hstep
  next totalSize numChunks hc =>
    rw [hc] at hcall
    obtain ⟨rfl, hstarted, hle, hnum, hbefore⟩ := hcall
    obtain ⟨hn, hcover⟩ := hcovers numChunks hnum
    split at hstep
    -- there is a permit, and the chunk has its range
    next hcan =>
      have hchunk := hcover.count _ hcan.1
      rw [chunkRange_eq hchunk.2] at hstep
      cases hstep
      refine ⟨{ h with
        call := ?_
        count := fun i hi => ?_
        tasks := fun i t hi => ?_
        channel := fun m hm => ?_
        idle := fun hw => absurd hw hstarted
        sent := fun hw i hi => ?_
        written := fun hw => by cases hc ▸ (h.written hw).1 }, ?_⟩
      -- one task more, which nobody has heard of yet
      · unfold CallOk
        dsimp only
        rw [hc]
        refine ⟨rfl, hstarted, ?_, hnum, hbefore⟩
        rw [List.length_append, List.length_singleton]
        exact hcan.1
      · rw [List.length_append, List.length_singleton] at hi
        exact hcover.count i (by omega)
      · obtain hold | ⟨rfl, rfl⟩ := getElem?_spawned hi
        · exact h.tasks i t hold
        · exact ⟨rfl, rfl⟩
      · obtain ⟨i, hi, hm⟩ := h.channel m hm
        exact ⟨i, by rw [List.length_append]; omega, hm⟩
      · obtain hold | ⟨-, hnew⟩ := getElem?_spawned hi
        · exact h.sent hw i hold
        · cases hnew
      · simp only [left, List.length_append, List.length_singleton, List.map_append, List.map_cons,
          List.map_nil, List.sum_append, List.sum_singleton, taskRank]
        omega
    next => cases hstep
  next => cases hstep

/-- The sender is dropped. -/
theorem dropSenderStep_ok (h : s.Ok checks data chunksize before)
    (hstep : s.dropSenderStep = some s') :
    s'.Ok checks data chunksize before ∧ s'.left n < s.left n := by
  have hcall := h.call
  unfold CallOk at hcall
  unfold dropSenderStep at hstep
  split at hstep
  next totalSize numChunks hc =>
    rw [hc] at hcall
    obtain ⟨rfl, hstarted, hle, hnum, hbefore⟩ := hcall
    split at hstep
    next => cases hstep
    next hall =>
      cases hstep
      obtain rfl : s.tasks.length = numChunks := by omega
      exact h.moved (fun _ => rfl) ⟨rfl, hstarted, hnum, hbefore⟩
        (by rw [hc]; exact Nat.lt_succ_self _)
  next => cases hstep

/-- The tasks are joined. -/
theorem joinStep_ok (hpos : 0 < chunksize) (hcovers : ∀ k,
      RustClient.numChunks (ε := ε) checks chunksize data.length = .ok k →
        k ≤ n ∧ Covers data chunksize k)
    (h : s.Ok checks data chunksize before) (hstep : s.joinStep = some s') :
    s'.Ok checks data chunksize before ∧ s'.left n < s.left n := by
  have hcall := h.call
  unfold CallOk at hcall
  unfold joinStep at hstep
  split at hstep
  next totalSize u hc hw =>
    cases hstep
    rw [hc] at hcall
    obtain ⟨rfl, hstarted, hnum, hbefore⟩ := hcall
    have hsize := h.size hstarted
    have hcontent : s.temp.content = data := by
      refine SparseFile.Holds.content_eq ?_ hsize
      obtain hall | hzero := (hcovers _ hnum).2.all
      · refine SparseFile.holds_of_blocks hpos hsize.ge fun i hi => (h.written hw).2 i ?_
        by_contra hnot
        have := Nat.mul_le_mul_right chunksize (Nat.le_of_not_lt hnot)
        omega
      · refine ⟨by rw [Nat.zero_add]; exact hsize.ge, fun k b hk => ?_⟩
        rw [h.zero hzero, hzero b (List.mem_of_getElem? hk)]
    exact h.moved (fun _ => rfl) ⟨rfl, ⟨_, hw⟩, hcontent, hbefore⟩
      (by rw [hc]; exact Nat.lt_succ_self _)
  next totalSize e hc hw =>
    cases hstep
    exact h.fail (by rw [hc]; exact Nat.succ_pos _) _
  next => cases hstep

/-- The tasks when one of them has moved on. -/
theorem getElem?_moved {tasks : List (ChunkTask ε)} {t t' : ChunkTask ε} {i j : ℕ}
    (hj : (tasks.set i t')[j]? = some t) : tasks[j]? = some t ∨ j = i ∧ t = t' := by
  rw [List.getElem?_set] at hj
  split at hj
  next heq =>
    split at hj
    · exact .inr ⟨heq.symm, (Option.some.inj hj).symm⟩
    · cases hj
  next => exact .inl hj

/-- The answer to a task. -/
theorem fetchedStep_ok {i : ℕ} (h : s.Ok checks data chunksize before)
    (hstep : s.fetchedStep data i failure = some s') :
    s'.Ok checks data chunksize before ∧ s'.left n < s.left n := by
  unfold fetchedStep at hstep
  split at hstep
  next start stop ht =>
    cases hstep
    -- the task has the chunk's bytes, or an error
    have hresult : ResultOk data chunksize i (match failure with
        | some e => .error e
        | none => .ok (i, slice start (stop - start) data)) := by
      cases failure with
      | some e => trivial
      | none =>
          obtain ⟨rfl, rfl⟩ := h.tasks i _ ht
          refine ⟨rfl, ?_⟩
          rw [chunkBytes, ← slice_min (n := chunksize)]
          congr 1
          omega
    generalize (match failure with
        | some e => Except.error e
        | none => .ok (i, slice start (stop - start) data)) = result at hresult ⊢
    refine ⟨{ h with
      call := by simpa only [CallOk, List.length_set] using h.call
      count := fun j hj => h.count j (by rwa [List.length_set] at hj)
      tasks := fun j t hj => ?_
      channel := by simpa only [List.length_set] using h.channel
      idle := fun hw => ?_
      sent := fun hw j hj => ?_
      written := by simpa only [List.length_set] using h.written }, ?_⟩
    -- the other tasks are as before
    · obtain hold | ⟨rfl, rfl⟩ := getElem?_moved hj
      · exact h.tasks j t hold
      · exact hresult
    -- an idle writer would mean that there are no tasks
    · rw [(h.idle hw).1] at ht
      cases ht
    · obtain hold | ⟨-, hnew⟩ := getElem?_moved hj
      · exact h.sent hw j hold
      · cases hnew
    · have hsum := sum_map_set ht taskRank (.sending result)
      simp only [left, List.length_set, taskRank] at hsum ⊢
      omega
  next => cases hstep

/-- A task sends its bytes. -/
theorem sendStep_ok {i : ℕ} (h : s.Ok checks data chunksize before)
    (hstep : s.sendStep concurrency i = some s') :
    s'.Ok checks data chunksize before ∧ s'.left n < s.left n := by
  unfold sendStep at hstep
  split at hstep
  next result ht =>
    have hlt := (List.getElem?_eq_some_iff.mp ht).1
    have hresult : ResultOk data chunksize i result := h.tasks i _ ht
    have hsum := sum_map_set ht taskRank .ended
    have htasks : ∀ j t, (s.tasks.set i .ended)[j]? = some t → TaskOk data chunksize j t := by
      intro j t hj
      obtain hold | ⟨rfl, rfl⟩ := getElem?_moved hj
      · exact h.tasks j t hold
      · trivial
    split at hstep
    next r hw =>
      -- the receiver is gone
      cases hstep
      refine ⟨{ h with
        call := by simpa only [CallOk, List.length_set] using h.call
        count := fun j hj => h.count j (by rwa [List.length_set] at hj)
        tasks := htasks
        channel := by simpa only [List.length_set] using h.channel
        idle := fun hidle => by cases hidle.symm.trans hw
        sent := fun hrec => by cases hrec.symm.trans hw
        written := by simpa only [List.length_set] using h.written }, ?_⟩
      simp only [left, List.length_set, taskRank] at hsum ⊢
      omega
    next hw =>
      split at hstep
      next =>
        cases hstep
        refine ⟨{ h with
          call := by simpa only [CallOk, List.length_set] using h.call
          count := fun j hj => h.count j (by rwa [List.length_set] at hj)
          tasks := htasks
          channel := fun m hm => ?_
          idle := fun hidle => ?_
          sent := fun hrec j hj => ?_
          written := fun hend => absurd hend (hw _) }, ?_⟩
        · rw [List.length_set]
          obtain hm | hm := List.mem_append.mp hm
          · exact h.channel m hm
          · obtain rfl := List.mem_singleton.mp hm
            exact ⟨i, hlt, hresult⟩
        · rw [(h.idle hidle).1] at ht
          cases ht
        · have hlast : result ∈ s.channel ++ [result] :=
            List.mem_append_right _ (List.mem_singleton_self _)
          obtain hold | ⟨rfl, -⟩ := getElem?_moved hj
          · obtain ⟨e, he⟩ | hin | hwritten := h.sent hrec j hold
            · exact .inl ⟨e, List.mem_append_left _ he⟩
            · exact .inr (.inl (List.mem_append_left _ hin))
            · exact .inr (.inr hwritten)
          · cases result with
            | error e => exact .inl ⟨e, hlast⟩
            | ok m =>
                obtain ⟨rfl, hbytes⟩ := hresult
                exact .inr (.inl (hbytes ▸ hlast))
        · simp only [left, List.length_set, List.length_append, List.length_singleton,
            taskRank] at hsum ⊢
          omega
      next => cases hstep
  next => cases hstep

/-- The writer ends. -/
theorem Ok.endWriter (h : s.Ok checks data chunksize before) (hw : s.writer = .receiving)
    {result : Except (CallError ε) Unit}
    (hdone : result = .ok () →
      s.call.sending = false ∧ ∀ i, i < s.tasks.length → Written data chunksize s.temp i) :
    (s.endWriter result).Ok checks data chunksize before ∧
      (s.endWriter result).left n < s.left n := by
  refine ⟨{ h with
    call := ?_
    channel := nofun
    idle := nofun
    size := fun _ => h.size (by rw [hw]; nofun)
    sent := nofun
    written := fun hend => hdone (ChunkWriter.ended.inj hend) }, ?_⟩
  · have hcall := h.call
    unfold CallOk at hcall ⊢
    rw [hw] at hcall
    simp only [FileDownload.endWriter]
    split <;> simp_all
  · simp only [left, FileDownload.endWriter, hw, writerRank, List.length_nil]
    omega

theorem length_chunkBytes (data : List UInt8) (chunksize i : ℕ) :
    (chunkBytes data chunksize i).length = min chunksize (data.length - i * chunksize) :=
  length_slice

/-- Writing a chunk leaves the other chunks in the file. -/
theorem Written.writeAt {temp : SparseFile} {i j : ℕ} (hi : (chunkBytes data chunksize i) ≠ [])
    (h : Written data chunksize temp j) :
    Written data chunksize (temp.writeAt (i * chunksize) (chunkBytes data chunksize i)) j := by
  have hle : ∀ k, (chunkBytes data chunksize k).length ≤ chunksize := fun k => by
    rw [length_chunkBytes]
    exact Nat.min_le_left _ _
  obtain hlt | rfl | hlt := Nat.lt_trichotomy i j
  · have := Nat.mul_le_mul_right chunksize hlt
    rw [Nat.succ_mul] at this
    exact SparseFile.Holds.writeAt h (.inr (by have := hle i; omega))
  · exact SparseFile.holds_writeAt hi
  · have := Nat.mul_le_mul_right chunksize hlt
    rw [Nat.succ_mul] at this
    exact SparseFile.Holds.writeAt h (.inl (by have := hle j; omega))

/-- The writer takes a chunk. -/
theorem receiveStep_ok (hpos : 0 < chunksize) (h : s.Ok checks data chunksize before)
    (hstep : s.receiveStep checks chunksize failure = some s') :
    s'.Ok checks data chunksize before ∧ s'.left n < s.left n := by
  unfold receiveStep at hstep
  split at hstep
  -- a task has sent an error
  next e channel hw hc =>
    cases hstep
    exact h.endWriter hw nofun
  next chunkIndex bytes channel hw hc =>
    split at hstep
    -- the offset overflows
    next e r =>
      cases hstep
      exact h.endWriter hw nofun
    -- the write fails
    next e he =>
      cases hstep
      exact h.endWriter hw nofun
    -- the chunk is written at its offset
    next offset hoffset =>
      cases hstep
      obtain ⟨i, hi, rfl, rfl⟩ := h.channel _ (by rw [hc]; exact List.mem_cons_self)
      obtain ⟨hstart, hlt⟩ := h.count _ hi
      rw [U64.mul_eq (by omega)] at hoffset
      cases hoffset
      have hlen := length_chunkBytes data chunksize chunkIndex
      have hnonempty : chunkBytes data chunksize chunkIndex ≠ [] := by
        intro hnil
        rw [hnil, List.length_nil] at hlen
        omega
      have hsize := h.size (by rw [hw]; nofun)
      refine ⟨{ h with
        call := ?_
        channel := fun m hm => h.channel m (by rw [hc]; exact List.mem_cons_of_mem _ hm)
        idle := fun hidle => by cases hidle.symm.trans hw
        size := fun _ => ?_
        sent := fun _ j hj => ?_
        written := fun hend => by cases hend.symm.trans hw
        zero := fun hzero k => ?_ }, ?_⟩
      · have hcall := h.call
        unfold CallOk at hcall ⊢
        dsimp only
        split <;> simp_all
      · unfold SparseFile.writeAt
        dsimp only
        rw [if_neg hnonempty, hsize]
        omega
      -- what was sent is in the channel still, or in the file by now
      · obtain ⟨e, he⟩ | hin | hwritten := h.sent hw j hj
        · rw [hc] at he
          exact .inl ⟨e, (List.mem_cons.mp he).resolve_left nofun⟩
        · rw [hc] at hin
          obtain heq | hin := List.mem_cons.mp hin
          · cases heq
            exact .inr (.inr (SparseFile.holds_writeAt hnonempty))
          · exact .inr (.inl hin)
        · exact .inr (.inr (hwritten.writeAt hnonempty))
      -- bytes outside of the chunk are as before
      · unfold SparseFile.writeAt
        dsimp only
        split
        · rw [List.getD_eq_getElem?_getD]
          cases hget : (chunkBytes data chunksize chunkIndex)[k - chunkIndex * chunksize]? with
          | none => exact h.zero hzero k
          | some b =>
              exact hzero b
                (List.mem_of_mem_drop (List.mem_of_mem_take (List.mem_of_getElem? hget)))
        · exact h.zero hzero k
      · simp only [left, hc, List.length_cons]
        omega
  next => cases hstep

/-- Without a permit taken, the tasks have ended. -/
theorem ended_of_running (h : s.running = 0) {i : ℕ} (hi : i < s.tasks.length) :
    s.tasks[i]? = some .ended := by
  rw [List.getElem?_eq_getElem hi]
  have hnot := List.countP_eq_zero.mp h _ (List.getElem_mem hi)
  cases ht : s.tasks[i] with
  | ended => rfl
  | _ => rw [ht] at hnot; exact absurd rfl hnot

/-- The writer sees the closed channel. -/
theorem closeStep_ok (h : s.Ok checks data chunksize before)
    (hstep : s.closeStep failure = some s') :
    s'.Ok checks data chunksize before ∧ s'.left n < s.left n := by
  unfold closeStep at hstep
  split at hstep
  next hw hc =>
    split at hstep
    next hdone =>
      cases hstep
      refine h.endWriter hw fun _ => ⟨hdone.1, fun i hi => ?_⟩
      obtain ⟨e, he⟩ | hin | hwritten := h.sent hw i (ended_of_running hdone.2 hi)
      · rw [hc] at he
        cases he
      · rw [hc] at hin
        cases hin
      · exact hwritten
    next => cases hstep
  next => cases hstep

/-- Every step keeps the invariant and leaves fewer steps. -/
theorem step_ok (hpos : 0 < chunksize) (hcovers : ∀ k,
      RustClient.numChunks (ε := ε) checks chunksize data.length = .ok k →
        k ≤ n ∧ Covers data chunksize k)
    {a : Step ε} (h : s.Ok checks data chunksize before)
    (hstep : step checks data chunksize concurrency s a = some s') :
    s'.Ok checks data chunksize before ∧ s'.left n < s.left n := by
  cases a with
  | call failure => exact callStep_ok h hstep
  | spawn => exact spawnStep_ok hcovers h hstep
  | dropSender => exact dropSenderStep_ok h hstep
  | join => exact joinStep_ok hpos hcovers h hstep
  | fetched i failure => exact fetchedStep_ok h hstep
  | send i => exact sendStep_ok h hstep
  | receive failure => exact receiveStep_ok hpos h hstep
  | close failure => exact closeStep_ok h hstep

/-- A writer that receives can take a step while the channel holds something. -/
theorem receive_isSome (hw : s.writer = .receiving) (hc : s.channel ≠ []) :
    (step checks data chunksize concurrency s (.receive none)).isSome := by
  simp only [step, receiveStep, hw]
  cases hs : s.channel with
  | nil => exact absurd hs hc
  | cons m channel =>
      cases m with
      | error e => rfl
      | ok m =>
          dsimp only
          cases U64.mul (ε := ε) checks m.1 chunksize <;> rfl

/-- While tasks are running, one of them or the writer can move. -/
theorem progress_running (hconcurrency : 0 < concurrency) (h : s.Ok checks data chunksize before)
    (hrunning : 0 < s.running) : ∃ a, (step checks data chunksize concurrency s a).isSome := by
  obtain ⟨t, ht, hrun⟩ := List.countP_pos_iff.mp hrunning
  obtain ⟨i, hi⟩ := List.getElem?_of_mem ht
  cases t with
  | fetching start stop => exact ⟨.fetched i none, by simp only [step, fetchedStep, hi]; rfl⟩
  | sending result =>
      by_cases hroom : s.channel.length < concurrency
      · refine ⟨.send i, ?_⟩
        simp only [step, sendStep, hi]
        split
        · rfl
        · rw [if_pos hroom]
          rfl
      · cases hw : s.writer with
        | notStarted =>
            rw [(h.idle hw).1] at hi
            cases hi
        | receiving =>
            refine ⟨.receive none, receive_isSome hw fun hnil => hroom ?_⟩
            rw [hnil]
            exact hconcurrency
        | ended r => exact ⟨.send i, by simp only [step, sendStep, hi, hw]; rfl⟩
  | ended => cases hrun

/-- Without an answer some step can be taken. -/
theorem progress (hconcurrency : 0 < concurrency) (h : s.Ok checks data chunksize before)
    (hnone : s.answer = none) : ∃ a, (step checks data chunksize concurrency s a).isSome := by
  have hcall := h.call
  unfold CallOk at hcall
  cases hc : s.call with
  | head => exact ⟨.call none, by simp only [step, callStep, hc]; rfl⟩
  | createTemp n => exact ⟨.call none, by simp only [step, callStep, hc]; rfl⟩
  | reopenTemp n => exact ⟨.call none, by simp only [step, callStep, hc]; rfl⟩
  | setLen n =>
      refine ⟨.call none, ?_⟩
      simp only [step, callStep, hc]
      cases RustClient.numChunks (ε := ε) checks chunksize n <;> rfl
  | spawning totalSize numChunks =>
      by_cases hmore : s.tasks.length < numChunks
      · by_cases hpermit : s.running < concurrency
        · refine ⟨.spawn, ?_⟩
          simp only [step, spawnStep, hc]
          rw [if_pos ⟨hmore, hpermit⟩]
          cases chunkRange (ε := ε) checks chunksize totalSize s.tasks.length <;> rfl
        · exact progress_running hconcurrency h (by omega)
      · exact ⟨.dropSender, by simp only [step, dropSenderStep, hc, if_neg hmore]; rfl⟩
  | joining totalSize =>
      cases hw : s.writer with
      | notStarted =>
          rw [hc] at hcall
          exact absurd hw hcall.2.1
      | receiving =>
          by_cases hrunning : 0 < s.running
          · exact progress_running hconcurrency h hrunning
          · by_cases hnil : s.channel = []
            · refine ⟨.close none, ?_⟩
              simp only [step, closeStep, hw, hnil]
              rw [if_pos ⟨by rw [hc]; rfl, by omega⟩]
              rfl
            · exact ⟨.receive none, receive_isSome hw hnil⟩
      | ended r =>
          refine ⟨.join, ?_⟩
          simp only [step, joinStep, hc, hw]
          cases r <;> rfl
  | persisting totalSize => exact ⟨.call none, by simp only [step, callStep, hc]; rfl⟩
  | ended r =>
      unfold answer at hnone
      rw [hc] at hnone
      cases hnone

/-- The file is written whole or not at all. -/
theorem correct (h : s.Ok checks data chunksize before)
    {r : Except (CallError ε) ℕ × Option (List UInt8)} (hr : s.answer = some r) :
    AllOrNothing data before r := by
  have hcall := h.call
  unfold CallOk at hcall
  unfold answer at hr
  split at hr
  next result hc =>
    cases hr
    rw [hc] at hcall
    cases result <;> exact hcall
  next => cases hr

/-- The invariant at the start. -/
theorem initial_ok : Ok checks data chunksize before (initial before : FileDownload ε) where
  call := ⟨rfl, rfl⟩
  count := nofun
  tasks := nofun
  channel := nofun
  idle _ := ⟨rfl, rfl⟩
  size hw := absurd rfl hw
  sent := nofun
  written := nofun
  zero _ _ := rfl

end Steps

/-! ### Where the number of chunks is right -/

section Counted

variable {checks data chunksize concurrency} {before : Option (List UInt8)} {k : ℕ}

theorem covers_chunksOf (hpos : 0 < chunksize) (hle : data.length + chunksize ≤ 2 ^ 64) :
    Covers data chunksize (RustClient.chunksOf chunksize data.length) where
  count i hi := by
    have hmul := Nat.mul_le_mul_right chunksize (Nat.succ_le_of_lt hi)
    have hdiv := Nat.div_mul_le_self (data.length + chunksize - 1) chunksize
    rw [Nat.succ_mul] at hmul
    unfold RustClient.chunksOf at hmul
    exact ⟨RustClient.lt_of_lt_chunksOf hpos hi, by omega⟩
  all := .inl (RustClient.le_chunksOf _ hpos)

/-- A sum that does not pass 2^64: at 2^64 itself, adding wraps and subtracting wraps back. -/
theorem numChunks_of_le (hpos : 0 < chunksize) (hle : data.length + chunksize ≤ 2 ^ 64)
    (h : RustClient.numChunks (ε := ε) checks chunksize data.length = .ok k) :
    k = RustClient.chunksOf chunksize data.length := by
  obtain hlt | heq := hle.lt_or_eq
  · rw [RustClient.numChunks_eq (by omega) hlt] at h
    exact (Except.ok.inj h).symm
  · unfold RustClient.numChunks at h
    cases checks with
    | true =>
        rw [U64.add_overflow (by omega)] at h
        cases h
    | false =>
        rw [U64.add, heq] at h
        rw [RustClient.chunksOf, heq]
        exact (Except.ok.inj h).symm

theorem numChunks_of_add {totalSize sum : ℕ}
    (h : U64.add (ε := ε) checks totalSize chunksize = .ok sum) (hsum : 1 ≤ sum) :
    RustClient.numChunks (ε := ε) checks chunksize totalSize = .ok ((sum - 1) / chunksize) := by
  unfold RustClient.numChunks
  rw [h]
  simp only [bind, Except.bind, pure, Except.pure]
  rw [U64.sub_eq hsum]

/-- A sum that passes 2^64: the wrapped sum is below the chunk size. -/
theorem numChunks_of_gt (hdata : data.length < 2 ^ 64) (hlt : chunksize < 2 ^ 64)
    (hgt : 2 ^ 64 < data.length + chunksize) :
    RustClient.numChunks (ε := ε) false chunksize data.length = .ok 0 := by
  have hdiv : ((data.length + chunksize) % 2 ^ 64 - 1) / chunksize = 0 :=
    Nat.div_eq_of_lt (by omega)
  rw [numChunks_of_add (U64.wrap_release (by omega)) (by omega), hdiv]

/-- Where the sums fit, or the object is all zeros, the chunks cover it. -/
theorem covers_of_fits (hdata : data.length < 2 ^ 64) (hpos : 0 < chunksize)
    (hlt : chunksize < 2 ^ 64)
    (hfits : checks = true ∨ data.length + chunksize ≤ 2 ^ 64 ∨ ∀ b ∈ data, b = 0)
    (h : RustClient.numChunks (ε := ε) checks chunksize data.length = .ok k) :
    k ≤ RustClient.chunksOf chunksize data.length ∧ Covers data chunksize k := by
  by_cases hle : data.length + chunksize ≤ 2 ^ 64
  · obtain rfl := numChunks_of_le hpos hle h
    exact ⟨le_rfl, covers_chunksOf hpos hle⟩
  · cases checks with
    | true =>
        rw [RustClient.numChunks, U64.add_overflow (by omega)] at h
        cases h
    | false =>
        rw [numChunks_of_gt hdata hlt (by omega)] at h
        cases h
        have hzero := (hfits.resolve_left (by simp)).resolve_left hle
        exact ⟨Nat.zero_le _, by simp, .inr hzero⟩

/-- The call that is told to take no chunks. -/
def withoutChunks : List (Step ε) :=
  [.call none, .call none, .call none, .call none, .dropSender, .close none, .join, .call none]

variable (before concurrency) in
theorem exec_withoutChunks
    (h : RustClient.numChunks (ε := ε) checks chunksize data.length = .ok 0) :
    exec (step (ε := ε) checks data chunksize concurrency) (initial before) withoutChunks =
      some ⟨.ended (.ok data.length), SparseFile.empty.setLen data.length, [], [], .ended (.ok ()),
        some (SparseFile.empty.setLen data.length).content⟩ := by
  simp [exec, withoutChunks, initial, step, callStep, dropSenderStep, closeStep, joinStep,
    endWriter, running, DownloadCall.sending, h]

theorem content_setLen_empty (n : ℕ) (b : UInt8) :
    b ∈ (SparseFile.empty.setLen n).content → b = 0 := by
  intro hb
  unfold SparseFile.content SparseFile.readAt at hb
  obtain ⟨k, -, rfl⟩ := List.mem_map.mp hb
  exact ite_self (c := 0 + k < min 0 n) 0

/-- **`download_multipart_to_file`** ends in whatever order the chunks and errors arrive, with the
object in `local_path` or with an error and `local_path` as it was, if and only if the number of
chunks does not wrap, or the object is all zeros. -/
theorem download_multipart_to_file_iff (hdata : data.length < 2 ^ 64) (hpos : 0 < chunksize)
    (hlt : chunksize < 2 ^ 64) (hconcurrency : 0 < concurrency) :
    Returns (step (ε := ε) checks data chunksize concurrency) answer (AllOrNothing data before)
        (initial before) ↔
      checks = true ∨ data.length + chunksize ≤ 2 ^ 64 ∨ ∀ b ∈ data, b = 0 := by
  constructor
  · intro h
    by_contra hfits
    push Not at hfits
    obtain ⟨hchecks, hgt, b, hb, hne⟩ := hfits
    obtain rfl := Bool.eq_false_iff.mpr hchecks
    have hrun := exec_withoutChunks concurrency before (numChunks_of_gt (ε := ε) hdata hlt hgt)
    obtain ⟨-, hcontent⟩ := h.correct _ _ _ hrun rfl
    rw [← Option.some.inj hcontent] at hb
    exact hne (content_setLen_empty _ b hb)
  · intro hfits
    exact .of_measure (left (RustClient.chunksOf chunksize data.length))
      (fun _ _ _ h hstep => step_ok hpos (fun _ => covers_of_fits hdata hpos hlt hfits) h hstep)
      (fun _ h hnone => progress hconcurrency h hnone) (fun _ _ h hr => correct h hr) initial_ok

end Counted

/-- Three chunks of an object of five bytes, two at a time. -/
theorem download_three_chunks :
    Returns (step (ε := Unit) false [1, 2, 3, 4, 5] 2 2) answer
      (AllOrNothing [1, 2, 3, 4, 5] (some [9])) (initial (some [9])) :=
  (download_multipart_to_file_iff (by decide) (by decide) (by decide) (by decide)).mpr
    (.inr (.inl (by decide)))

/-- With the largest chunk size, the number of chunks wraps to 0: the file is of zeros. -/
theorem zeros_for_object :
    (∃ as s, exec (step (ε := Unit) false [1, 2] (2 ^ 64 - 1) 1) (initial none) as = some s ∧
      s.answer = some (.ok 2, some [0, 0])) ∧
    ¬Returns (step (ε := Unit) false [1, 2] (2 ^ 64 - 1) 1) answer (AllOrNothing [1, 2] none)
      (initial none) := by
  have hnum : RustClient.numChunks (ε := Unit) false (2 ^ 64 - 1) ([1, 2] : List UInt8).length =
      .ok 0 := numChunks_of_gt (by decide) (by decide) (by decide)
  have hrun := exec_withoutChunks 1 none hnum
  refine ⟨⟨_, _, hrun, rfl⟩, fun h => ?_⟩
  obtain ⟨-, hcontent⟩ := h.correct _ _ _ hrun rfl
  cases hcontent

end FileDownload

end MultiStorageClient
