/-
MultiStorageClient/BatchRetry.lean

The retry loop and its form for batches (`retry.py`): `_run_with_retry`,
`_remap_batch_transfer_error` and `batch_retry`.

The loop is that of any operation (`runWithRetry`): `call` is one attempt, told
its number and the state in which the last error was classified, `classify_error`
decides and may change the state.  Here the state is the list of pending indices,
the mutable variable that both closures of `batch_retry` capture.  The loop
returns its attempts beside its result.
-/
import MultiStorageClient.PyStr

namespace MultiStorageClient

/-- An exception, by whether it is a `RetryableError`. -/
inductive TransferError
  | retryable (msg : PyStr)
  | other (msg : PyStr)
  deriving DecidableEq

/-- The error is a `RetryableError`. -/
def TransferError.isRetryable : TransferError → Bool
  | retryable _ => true
  | other _ => false

/-- `BatchTransferFailure` -/
structure BatchTransferFailure where
  index : ℕ
  sourcePath : PyStr
  destinationPath : PyStr
  error : TransferError
  deriving DecidableEq

/-- `BatchTransferError`, which cannot be made without failures. -/
structure BatchTransferError where
  failures : List BatchTransferFailure
  nonempty : failures ≠ []
  deriving DecidableEq

/-- What an attempt on a batch may raise. -/
inductive BatchError
  | batch (error : BatchTransferError)
  | plain (error : TransferError)
  deriving DecidableEq

/-- `RetryConfig`; the delays only matter to the clock. -/
structure RetryConfig where
  attempts : ℕ
  one_le : 1 ≤ attempts

/-! ### The loop -/

section Loop

variable {σ ε α : Type*}

/-- `_RetryDecision`, without what is logged. -/
structure RetryDecision (ε : Type*) where
  retryable : Bool
  error : ε

/-- An attempt: the state in which it is made, and what comes of it. -/
structure Attempt (σ ε α : Type*) where
  state : σ
  outcome : Except ε α

/-- What a run of the loop leaves behind.  A loop without attempts returns
nothing. -/
structure Retried (σ ε α : Type*) where
  attempts : List (Attempt σ ε α)
  result : Except ε (Option α)

/-- One more attempt before the others. -/
def Retried.prepend (a : Attempt σ ε α) (r : Retried σ ε α) : Retried σ ε α :=
  { r with attempts := a :: r.attempts }

variable (retryConfig : Option RetryConfig) (sleep : ℕ → Option ε)
  (call : ℕ → σ → Except ε α) (classifyError : ε → σ → Except ε (RetryDecision ε × σ))

/-- The loop of `_run_with_retry`, with `left` attempts to go.  `sleep` stands for
`sleep_before_retry`, which may raise. -/
def retryLoop : (left attempt : ℕ) → σ → Retried σ ε α
  -- every attempt used up: the loop falls through to its end
  | 0, _, _ => ⟨[], .ok none⟩
  | left + 1, attempt, s =>
      let outcome := call attempt s
      match outcome with
      | .ok a => ⟨[⟨s, outcome⟩], .ok (some a)⟩
      | .error e =>
          match classifyError e s with
          -- classify_error itself may raise
          | .error e => ⟨[⟨s, outcome⟩], .error e⟩
          | .ok (decision, s') =>
              if !decision.retryable || retryConfig.isNone || left == 0 then
                ⟨[⟨s, outcome⟩], .error decision.error⟩
              else
                -- the backoff before the next attempt, which an interrupt can break
                match sleep attempt with
                | some e => ⟨[⟨s, outcome⟩], .error e⟩
                | none => (retryLoop left (attempt + 1) s').prepend ⟨s, outcome⟩

/-- `_run_with_retry` -/
def runWithRetry (s : σ) : Retried σ ε α :=
  retryLoop retryConfig sleep call classifyError
    ((retryConfig.map RetryConfig.attempts).getD 1) 0 s

end Loop

/-! ### Batches -/

variable {α : Type*}

/-- A failure under the index of the original batch. -/
def remapFailure (pendingIndices : List ℕ) (failure : BatchTransferFailure) :
    Option BatchTransferFailure :=
  (pendingIndices[failure.index]?).map fun originalIndex => { failure with index := originalIndex }

/-- A list mapped with success is mapped element by element. -/
theorem forall₂_of_mapM {β γ : Type*} {f : β → Option γ} {l : List β} {r : List γ}
    (h : l.mapM f = some r) : List.Forall₂ (fun b c => f b = some c) l r := by
  induction l generalizing r with
  | nil =>
      obtain rfl : [] = r := by simpa using h
      exact .nil
  | cons b l ih =>
      obtain ⟨c, hc, r', hr', rfl⟩ :
          ∃ c, f b = some c ∧ ∃ r', l.mapM f = some r' ∧ c :: r' = r := by
        simpa [List.mapM_cons, Option.bind_eq_some_iff] using h
      exact .cons hc (ih hr')

/-- `_remap_batch_transfer_error`.  An index that is not one of the subset raises
an `IndexError`. -/
def remapBatchTransferError (error : BatchTransferError) (pendingIndices : List ℕ) :
    Except BatchError (BatchTransferError × List ℕ) :=
  match h : error.failures.mapM (remapFailure pendingIndices) with
  | none => .error (.plain (.other "list index out of range".toList))
  | some remappedFailures => .ok
      (⟨remappedFailures, fun hnil =>
          error.nonempty (List.forall₂_nil_right_iff.mp (hnil ▸ forall₂_of_mapM h))⟩,
        remappedFailures.map BatchTransferFailure.index)

/-- `_classify_error` of `batch_retry`. -/
def classifyBatchError (error : BatchError) (pendingIndices : List ℕ) :
    Except BatchError (RetryDecision BatchError × List ℕ) :=
  match error with
  | .batch error =>
      match remapBatchTransferError error pendingIndices with
      | .error e => .error e
      | .ok (batchError, failedIndices) =>
          if batchError.failures.any fun failure => !failure.error.isRetryable then
            .ok (⟨false, .batch batchError⟩, pendingIndices)
          else .ok (⟨true, .batch batchError⟩, failedIndices)
  | .plain error => .ok (⟨error.isRetryable, .plain error⟩, pendingIndices)

/-- A method under `batch_retry`. -/
def batchRetry (retryConfig : Option RetryConfig) (sleep : ℕ → Option TransferError)
    (batchFunc : ℕ → List ℕ → Except BatchError α) (indices : List ℕ) :
    Retried (List ℕ) BatchError α :=
  runWithRetry retryConfig (fun attempt => (sleep attempt).map .plain) batchFunc classifyBatchError
    indices

/-! ### What the retries do -/

namespace Attempt

variable (a : Attempt (List ℕ) BatchError α) (x : ℕ)

/-- The attempt reports the item as failed. -/
def Names : Prop :=
  ∃ e, a.outcome = .error (.batch e) ∧ ∃ f ∈ e.failures, a.state[f.index]? = some x

/-- The attempt raised a `BatchTransferError`. -/
def RaisesBatch : Prop := ∃ e, a.outcome = .error (.batch e)

/-- The item is among those of the attempt, which returns or fails for others. -/
def Succeeds : Prop :=
  x ∈ a.state ∧ ((∃ v, a.outcome = .ok v) ∨ a.RaisesBatch ∧ ¬a.Names x)

end Attempt

/-- The method reports items among those it was given, each once. -/
def NamesSubset (batchFunc : ℕ → List ℕ → Except BatchError α) : Prop :=
  ∀ attempt indices e, batchFunc attempt indices = .error (.batch e) →
    (e.failures.map BatchTransferFailure.index).Nodup ∧ ∀ f ∈ e.failures, f.index < indices.length

/-- What the decorator promises about a batch, from an attempt on. -/
structure BatchRetried (batchFunc : ℕ → List ℕ → Except BatchError α) (attempt : ℕ)
    (indices : List ℕ) (r : Retried (List ℕ) BatchError α) : Prop where
  /-- every attempt is a call of the method with the items of the attempt -/
  called : ∀ i a, r.attempts[i]? = some a → a.outcome = batchFunc (attempt + i) a.state
  /-- the first one has all items -/
  first : r.attempts.head?.map Attempt.state = some indices
  given : ∀ a ∈ r.attempts, a.state ⊆ indices
  /-- what a batch error does not name is not attempted again -/
  dropped : r.attempts.Pairwise fun a b => a.RaisesBatch → ∀ x, ¬a.Names x → x ∉ b.state
  returned : ∀ v, r.result = .ok v → (∃ a ∈ r.attempts.getLast?, a.outcome.toOption = v) ∧
    ∀ x ∈ indices, ∃ a ∈ r.attempts, a.Succeeds x
  failed : ∀ e, r.result = .error (.batch e) →
    (e.failures.map BatchTransferFailure.index).Nodup ∧
      ∀ x, x ∈ e.failures.map BatchTransferFailure.index ↔
        x ∈ indices ∧ ∀ a ∈ r.attempts, ¬a.Succeeds x

theorem mapM_isSome {β γ : Type*} {f : β → Option γ} {l : List β} (h : ∀ b ∈ l, (f b).isSome) :
    ∃ r, l.mapM f = some r := by
  induction l with
  | nil => exact ⟨[], rfl⟩
  | cons b l ih =>
      obtain ⟨c, hc⟩ := Option.isSome_iff_exists.mp (h b (List.mem_cons_self ..))
      obtain ⟨r, hr⟩ := ih fun b' hb' => h b' (List.mem_cons_of_mem _ hb')
      exact ⟨c :: r, by simp [List.mapM_cons, hc, hr]⟩

/-- The members of the second list are the images of the first one's. -/
theorem mem_of_forall₂ {β γ : Type*} {g : β → Option γ} {l : List β} {r : List γ}
    (h : List.Forall₂ (fun b c => g b = some c) l r) (c : γ) : c ∈ r ↔ ∃ b ∈ l, g b = some c := by
  induction h with
  | nil => simp
  | @cons b c' l r hb _ ih =>
      rw [List.mem_cons, ih]
      constructor
      · rintro (rfl | ⟨b', hb', hc⟩)
        · exact ⟨b, List.mem_cons_self .., hb⟩
        · exact ⟨b', List.mem_cons_of_mem _ hb', hc⟩
      · rintro ⟨b', hb', hc⟩
        rcases List.mem_cons.mp hb' with rfl | hb'
        · exact .inl (Option.some.inj (hc.symm.trans hb))
        · exact .inr ⟨b', hb', hc⟩

/-- Different items of a subset have different places in the batch. -/
theorem nodup_of_forall₂ {indices : List ℕ} (hnd : indices.Nodup) {l : List BatchTransferFailure}
    {r : List ℕ} (hfail : (l.map BatchTransferFailure.index).Nodup)
    (h : List.Forall₂ (fun (f : BatchTransferFailure) x => indices[f.index]? = some x) l r) :
    r.Nodup := by
  induction h with
  | nil => exact List.nodup_nil
  | @cons f x l r hf hl ih =>
      rw [List.map_cons, List.nodup_cons] at hfail
      rw [List.nodup_cons]
      refine ⟨fun hx => ?_, ih hfail.2⟩
      obtain ⟨f', hf', hx'⟩ := (mem_of_forall₂ hl x).mp hx
      obtain ⟨hlt, hget⟩ := List.getElem?_eq_some_iff.mp hf
      obtain ⟨hlt', hget'⟩ := List.getElem?_eq_some_iff.mp hx'
      have heq : f.index = f'.index := hnd.getElem_inj_iff.mp (hget.trans hget'.symm)
      exact hfail.1 (heq ▸ List.mem_map_of_mem hf')

/-- **The remapped failures** are those of the items that were named. -/
theorem remapBatchTransferError_spec {e : BatchTransferError} {indices : List ℕ}
    (hnd : indices.Nodup) (hfail : (e.failures.map BatchTransferFailure.index).Nodup)
    (hlt : ∀ f ∈ e.failures, f.index < indices.length) :
    ∃ e', remapBatchTransferError e indices =
        .ok (e', e'.failures.map BatchTransferFailure.index) ∧
      (e'.failures.map BatchTransferFailure.index).Nodup ∧
      ∀ x, x ∈ e'.failures.map BatchTransferFailure.index ↔
        ∃ f ∈ e.failures, indices[f.index]? = some x := by
  obtain ⟨r, hr⟩ : ∃ r, e.failures.mapM (remapFailure indices) = some r := by
    refine mapM_isSome fun f hf => ?_
    simp [remapFailure, hlt f hf]
  have hall := forall₂_of_mapM hr
  have hindex : List.Forall₂ (fun (f : BatchTransferFailure) x => indices[f.index]? = some x)
      e.failures (r.map BatchTransferFailure.index) := by
    rw [List.forall₂_map_right_iff]
    refine hall.imp fun f g hfg => ?_
    obtain ⟨x, hx, rfl⟩ := Option.map_eq_some_iff.mp hfg
    exact hx
  unfold remapBatchTransferError
  split
  next hnone =>
    rw [hr] at hnone
    cases hnone
  next r' hr' =>
    obtain rfl : r = r' := Option.some.inj (hr.symm.trans hr')
    exact ⟨_, rfl, nodup_of_forall₂ hnd hfail hindex, mem_of_forall₂ hindex⟩

section Attempts

variable {batchFunc : ℕ → List ℕ → Except BatchError α} {attempt : ℕ}

/-- A single attempt. -/
theorem called_single {a : Attempt (List ℕ) BatchError α}
    (ha : a.outcome = batchFunc attempt a.state) (i : ℕ) (b : Attempt (List ℕ) BatchError α)
    (hb : [a][i]? = some b) : b.outcome = batchFunc (attempt + i) b.state := by
  cases i with
  | zero =>
      obtain rfl := Option.some.inj hb
      exact ha
  | succ i => cases hb

/-- An attempt after which the loop raises. -/
theorem BatchRetried.stop (a : Attempt (List ℕ) BatchError α)
    (ha : a.outcome = batchFunc attempt a.state) {e : BatchError}
    (h : ∀ e', e = .batch e' → (e'.failures.map BatchTransferFailure.index).Nodup ∧
      ∀ x, x ∈ e'.failures.map BatchTransferFailure.index ↔ x ∈ a.state ∧ ¬a.Succeeds x) :
    BatchRetried batchFunc attempt a.state ⟨[a], .error e⟩ where
  called := called_single ha
  first := rfl
  given b hb := by
    rw [List.mem_singleton.mp hb]
    exact List.Subset.refl _
  dropped := List.pairwise_singleton ..
  returned := nofun
  failed e' he' := by
    obtain ⟨hnd, hmem⟩ := h e' (Except.error.inj he')
    refine ⟨hnd, fun x => (hmem x).trans (and_congr_right fun _ => ?_)⟩
    exact ⟨fun hs b hb => List.mem_singleton.mp hb ▸ hs, fun hs => hs a (List.mem_singleton_self a)⟩

/-- An attempt after which the loop goes on with the items that have failed. -/
theorem BatchRetried.prepend (a : Attempt (List ℕ) BatchError α)
    (ha : a.outcome = batchFunc attempt a.state) {pending : List ℕ}
    {r : Retried (List ℕ) BatchError α} (hr : BatchRetried batchFunc (attempt + 1) pending r)
    (hsub : pending ⊆ a.state) (hnames : a.RaisesBatch → ∀ x ∈ pending, a.Names x)
    (hpending : ∀ x ∈ a.state, x ∈ pending ↔ ¬a.Succeeds x) :
    BatchRetried batchFunc attempt a.state (r.prepend a) where
  called i b hb := by
    cases i with
    | zero =>
        obtain rfl := Option.some.inj hb
        exact ha
    | succ i =>
        rw [Nat.add_comm i, ← Nat.add_assoc]
        exact hr.called i b hb
  first := rfl
  given b hb := by
    rcases List.mem_cons.mp hb with rfl | hb
    · exact List.Subset.refl _
    · exact List.Subset.trans (hr.given b hb) hsub
  dropped := by
    refine List.pairwise_cons.mpr ⟨fun b hb hbatch x hnot hx => ?_, hr.dropped⟩
    exact hnot (hnames hbatch x (hr.given b hb hx))
  returned v hv := by
    obtain ⟨⟨b, hb, hbv⟩, hall⟩ := hr.returned v hv
    refine ⟨⟨b, ?_, hbv⟩, fun x hx => ?_⟩
    · -- the last attempt is among those that follow
      show b ∈ (a :: r.attempts).getLast?
      rw [List.getLast?_cons, hb]
      rfl
    · by_cases hs : a.Succeeds x
      · exact ⟨a, List.mem_cons_self .., hs⟩
      · obtain ⟨b, hb, hbs⟩ := hall x ((hpending x hx).mpr hs)
        exact ⟨b, List.mem_cons_of_mem _ hb, hbs⟩
  failed e he := by
    obtain ⟨hnd, hmem⟩ := hr.failed e he
    refine ⟨hnd, fun x => (hmem x).trans ?_⟩
    constructor
    · rintro ⟨hx, hrest⟩
      refine ⟨hsub hx, fun b hb => ?_⟩
      rcases List.mem_cons.mp hb with rfl | hb
      · exact (hpending x (hsub hx)).mp hx
      · exact hrest b hb
    · rintro ⟨hx, hall⟩
      exact ⟨(hpending x hx).mpr (hall a (List.mem_cons_self ..)),
        fun b hb => hall b (List.mem_cons_of_mem _ hb)⟩

end Attempts

section Spec

variable (retryConfig : Option RetryConfig) (sleep : ℕ → Option TransferError)
  {batchFunc : ℕ → List ℕ → Except BatchError α}

/-- An attempt that raises a batch error, with what `_classify_error` makes of it. -/
theorem succeeds_iff_of_batch {a : Attempt (List ℕ) BatchError α} {e : BatchTransferError}
    (ha : a.outcome = .error (.batch e)) (x : ℕ) : a.Succeeds x ↔ x ∈ a.state ∧ ¬a.Names x := by
  unfold Attempt.Succeeds
  refine and_congr_right fun _ => ⟨?_, fun hn => .inr ⟨⟨e, ha⟩, hn⟩⟩
  rintro (⟨v, hv⟩ | ⟨-, hn⟩)
  · rw [ha] at hv
    cases hv
  · exact hn

theorem not_succeeds_of_plain {a : Attempt (List ℕ) BatchError α} {e : TransferError}
    (ha : a.outcome = .error (.plain e)) (x : ℕ) : ¬a.Succeeds x := by
  rintro ⟨-, ⟨v, hv⟩ | ⟨⟨e', he'⟩, -⟩⟩
  · rw [ha] at hv
    cases hv
  · rw [ha] at he'
    cases he'

/-- **The loop**, by induction on the attempts that are left: each of them starts
from the items that have failed so far. -/
theorem retryLoop_batch (h : NamesSubset batchFunc) (left attempt : ℕ) {pending : List ℕ}
    (hleft : left ≠ 0) (hnd : pending.Nodup) : BatchRetried batchFunc attempt pending
      (retryLoop retryConfig (fun attempt => (sleep attempt).map .plain) batchFunc
        classifyBatchError left attempt pending) := by
  induction left generalizing attempt pending with
  | zero => exact absurd rfl hleft
  | succ left ih =>
      rw [retryLoop]
      cases houtcome : batchFunc attempt pending with
      | ok v =>
          refine ⟨called_single houtcome.symm, rfl, fun b hb => ?_, List.pairwise_singleton ..,
            fun w hw => ⟨⟨_, rfl, ?_⟩, fun x hx => ?_⟩, nofun⟩
          · rw [List.mem_singleton.mp hb]
            exact List.Subset.refl _
          · exact Except.ok.inj hw
          · exact ⟨_, List.mem_singleton_self _, hx, .inl ⟨v, rfl⟩⟩
      | error e =>
          cases e with
          | plain e =>
              -- a plain error says nothing about the items: all of them are attempted again
              let a : Attempt (List ℕ) BatchError α := ⟨pending, .error (.plain e)⟩
              have hnot := not_succeeds_of_plain (show a.outcome = _ from rfl)
              dsimp only [classifyBatchError]
              split
              · exact BatchRetried.stop a houtcome.symm fun _ he => nomatch he
              next hc =>
                split
                next e' he' =>
                  obtain ⟨e'', -, rfl⟩ := Option.map_eq_some_iff.mp he'
                  exact BatchRetried.stop a houtcome.symm fun _ he => nomatch he
                · have hne : left ≠ 0 := by
                    rintro rfl
                    simp at hc
                  refine (ih (attempt + 1) hne hnd).prepend a houtcome.symm (List.Subset.refl _) ?_
                    fun x hx => ?_
                  · rintro ⟨e', he'⟩
                    cases he'
                  · exact ⟨fun _ => hnot x, fun _ => hx⟩
          | batch e =>
              obtain ⟨hfail, hlt⟩ := h attempt pending e houtcome
              obtain ⟨e', hremap, hnd', hmem⟩ := remapBatchTransferError_spec hnd hfail hlt
              let a : Attempt (List ℕ) BatchError α := ⟨pending, .error (.batch e)⟩
              have hsucceeds := succeeds_iff_of_batch (show a.outcome = _ from rfl)
              have hnames : ∀ x, a.Names x ↔ x ∈ e'.failures.map BatchTransferFailure.index := by
                intro x
                rw [hmem]
                constructor
                · rintro ⟨e₀, he₀, hf⟩
                  cases he₀
                  exact hf
                · exact fun hf => ⟨e, rfl, hf⟩
              have hsub : e'.failures.map BatchTransferFailure.index ⊆ pending := by
                intro x hx
                obtain ⟨f, -, hf⟩ := (hmem x).mp hx
                exact List.mem_of_getElem? hf
              have hstop : BatchRetried batchFunc attempt pending ⟨[a], .error (.batch e')⟩ := by
                refine BatchRetried.stop a houtcome.symm fun _ he => ?_
                cases he
                refine ⟨hnd', fun x => ⟨fun hx => ⟨hsub hx, fun hs => ?_⟩, fun ⟨hx, hs⟩ => ?_⟩⟩
                · exact ((hsucceeds x).mp hs).2 ((hnames x).mpr hx)
                · by_contra hnot
                  exact hs ((hsucceeds x).mpr ⟨hx, fun hn => hnot ((hnames x).mp hn)⟩)
              simp only [classifyBatchError, hremap]
              by_cases hfinal : e'.failures.any fun failure => !failure.error.isRetryable
              · simp only [hfinal, if_true, Bool.not_false, Bool.true_or]
                exact hstop
              · simp only [hfinal, Bool.false_eq_true, if_false]
                split
                · exact hstop
                next hc =>
                  split
                  next e'' he'' =>
                    obtain ⟨e₀, -, rfl⟩ := Option.map_eq_some_iff.mp he''
                    exact BatchRetried.stop a houtcome.symm fun _ he => nomatch he
                  · have hne : left ≠ 0 := by
                      rintro rfl
                      simp at hc
                    refine (ih (attempt + 1) hne hnd').prepend a houtcome.symm hsub
                      (fun _ x hx => (hnames x).mpr hx)
                      fun x hx => ?_
                    rw [hsucceeds, hnames, not_and, not_not]
                    exact ⟨fun hn _ => hn, fun hn => hn hx⟩

end Spec

/-- **What `batch_retry` guarantees**, for any batch, any configuration and
whatever the attempts do. -/
theorem batchRetry_spec (retryConfig : Option RetryConfig) (sleep : ℕ → Option TransferError)
    {batchFunc : ℕ → List ℕ → Except BatchError α} (h : NamesSubset batchFunc) {indices : List ℕ}
    (hnd : indices.Nodup) :
      BatchRetried batchFunc 0 indices (batchRetry retryConfig sleep batchFunc indices) := by
  refine retryLoop_batch retryConfig sleep h _ 0 ?_ hnd
  cases retryConfig with
  | none => exact Nat.one_ne_zero
  | some cfg => exact Nat.one_le_iff_ne_zero.mp cfg.one_le

/-- Of three items the last and the first fail, in this order, and then the
first for good. -/
def threeItems (_attempt : ℕ) : List ℕ → Except BatchError Unit
  | [0, 1, 2] => .error (.batch ⟨[⟨2, [], [], .retryable []⟩, ⟨0, [], [], .retryable []⟩],
      nofun⟩)
  | [2, 0] => .error (.batch ⟨[⟨1, [], [], .other []⟩], nofun⟩)
  | _ => .ok ()

theorem namesSubset_threeItems : NamesSubset threeItems := by
  intro attempt indices e he
  unfold threeItems at he
  split at he
  · cases he
    decide
  · cases he
    decide
  · cases he

theorem batchRetry_threeItems :
    BatchRetried threeItems 0 [0, 1, 2] (batchRetry (some ⟨3, by decide⟩) (fun _ => none)
      threeItems [0, 1, 2]) :=
  batchRetry_spec _ _ namesSubset_threeItems (by decide)

/-- The failure that is left has the index of its item in the batch. -/
example : (batchRetry (some ⟨3, by decide⟩) (fun _ => none) threeItems [0, 1, 2]).result =
    .error (.batch ⟨[⟨0, [], [], .other []⟩], nofun⟩) := rfl

end MultiStorageClient
