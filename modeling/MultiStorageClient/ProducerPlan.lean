/-
MultiStorageClient/ProducerPlan.lean

What the producer puts on the file queue.

The argument has two halves that never meet inside a proof.  The batcher
half (`Enqueued`) says that filing an operation appends it to the sequence
of operations seen so far, whatever the batch boundaries are, and that every
batch that leaves is non-empty, within the size limit and of one type and
bucket.  The merge half (`plan`) says that the loop files the rows of the
outer join of the two listings without their hidden entries, each turned
into at most one operation by `planRow`.

A run that is cut short by the shutdown event or by an exception has filed
an initial segment of the plan (`run_ops_opens`), a complete one all of it
(`run_ops_eq_plan`).
-/
import MultiStorageClient.OuterJoin
import MultiStorageClient.Producer

namespace MultiStorageClient

open OuterJoin

/-! ### The batcher -/

/-- The operations a producer state holds, queued or not, in order. -/
def ProducerState.ops (st : ProducerState) : List (OperationType × Item) :=
  st.fileQueue.flatMap OperationBatch.ops ++
    match st.currentBatchType with
    | some op => st.currentBatch.map fun it => (op, it)
    | none => []

/-- The entries a cursor will still deliver. -/
def Cursor.entries (c : Cursor) : List ObjectMetadata := c.file.toList ++ c.iter.items

/-- A cursor without an entry stands at the end of a listing that did not
raise. -/
def Cursor.Valid (c : Cursor) : Prop := c.file = none → c.iter = ⟨[], none⟩

/-- The cursor goes through the entries. -/
theorem Iter.next_entries {it : Iter} {c : Cursor} (h : it.next = .ok c) :
    c.entries = it.items ∧ c.Valid := by
  obtain ⟨items, error⟩ := it
  rcases items with - | ⟨m, ms⟩
  · rcases error with - | e
    · obtain rfl : (⟨none, ⟨[], none⟩⟩ : Cursor) = c := by simpa [Iter.next] using h
      exact ⟨rfl, fun _ => rfl⟩
    · simp [Iter.next] at h
  · obtain rfl : (⟨some m, ⟨ms, error⟩⟩ : Cursor) = c := by simpa [Iter.next] using h
    exact ⟨rfl, fun h => by cases h⟩

theorem Cursor.Valid.entries_nil {c : Cursor} (hc : c.Valid) (h : c.file = none) :
    c.entries = [] := by
  simp [Cursor.entries, h, hc h]

theorem Cursor.entries_cons {c : Cursor} {m : ObjectMetadata} (h : c.file = some m) :
    c.entries = m :: c.iter.items := by
  simp [Cursor.entries, h]

namespace ProducerThread

variable (p : ProducerThread)

/-- The size bucket of an item, given the operation it is filed under. -/
def itemBucket (op : OperationType) (it : Item) : SizeBucket :=
  if op = .symlink then .small else getSizeBucket it.1.contentLength

/-- A batch as the workers may expect it: not a sentinel, between 1 and
`batch_size` items, all of one size bucket. -/
structure BatchOk (b : OperationBatch) : Prop where
  not_stop : b.operation ≠ .stop
  pos : 1 ≤ b.items.length
  le : b.items.length ≤ p.batchSize
  bucket : ∃ bucket, ∀ it ∈ b.items, itemBucket b.operation it = bucket

/-- `Enqueued p st ops`: the batcher in state `st` has been given exactly
the operations `ops`. -/
structure Enqueued (st : ProducerState) (ops : List (OperationType × Item)) : Prop where
  ops_eq : st.ops = ops
  queue_ok : ∀ b ∈ st.fileQueue, p.BatchOk b
  current_lt : st.currentBatch.length < p.batchSize
  current_ok : st.currentBatch ≠ [] → ∃ op bucket,
    st.currentBatchType = some op ∧ op ≠ .stop ∧
    st.currentBatchSizeBucket = some bucket ∧
    ∀ it ∈ st.currentBatch, itemBucket op it = bucket

variable {p}

theorem enqueued_init : p.Enqueued {} [] where
  ops_eq := rfl
  queue_ok := by simp
  current_lt := by
    have := p.batchSize_ok.1
    simp only [minBatchSize, List.length_nil] at this ⊢
    omega
  current_ok := by simp

theorem Enqueued.countWork {st : ProducerState} {ops : List (OperationType × Item)}
    (h : p.Enqueued st ops) : p.Enqueued st.countWork ops :=
  ⟨h.ops_eq, h.queue_ok, h.current_lt, h.current_ok⟩

/-- Flushing keeps the operations, provided the current batch is a batch
the workers may see. -/
theorem flushBatch_spec {st : ProducerState} {ops : List (OperationType × Item)}
    (hops : st.ops = ops) (hq : ∀ b ∈ st.fileQueue, p.BatchOk b)
    (hlen : st.currentBatch.length ≤ p.batchSize)
    (hok : st.currentBatch ≠ [] → ∃ op bucket,
      st.currentBatchType = some op ∧ op ≠ .stop ∧
      st.currentBatchSizeBucket = some bucket ∧
      ∀ it ∈ st.currentBatch, itemBucket op it = bucket) :
    p.Enqueued st.flushBatch ops ∧ st.flushBatch.currentBatch = [] := by
  have hpos : 0 < p.batchSize := by
    have := p.batchSize_ok.1
    simp only [minBatchSize] at this
    omega
  rcases hb : st.currentBatch with - | ⟨it, its⟩
  -- an empty batch is not put
  · have hst : st.flushBatch = st := by simp [ProducerState.flushBatch, hb]
    rw [hst]
    exact ⟨⟨hops, hq, by simpa [hb] using hpos, by simp [hb]⟩, hb⟩
  -- the batch is put with its operations, and a new one begins
  · obtain ⟨op, bucket, htype, hstop, -, hbucket⟩ := hok (by simp [hb])
    have hst : st.flushBatch =
        { st with
          fileQueue := st.fileQueue ++ [⟨op, it :: its⟩]
          currentBatch := []
          currentBatchType := none
          currentBatchSizeBucket := none } := by
      simp [ProducerState.flushBatch, hb, htype]
    rw [hst]
    refine ⟨⟨?_, ?_, by simpa using hpos, by simp⟩, rfl⟩
    · rw [← hops]
      simp [ProducerState.ops, OperationBatch.ops, htype, hb]
    · intro b hmem
      rcases List.mem_append.mp hmem with hmem | hmem
      · exact hq b hmem
      · obtain rfl : b = ⟨op, it :: its⟩ := by simpa using hmem
        exact ⟨hstop, by simp, by simpa [hb] using hlen, bucket, by simpa [hb] using hbucket⟩

/-- The bucket `classify` chooses is the item's. -/
theorem itemBucket_classify (op : OperationType) (m : ObjectMetadata)
    (t : Option ObjectMetadata) (hop : op = .add ∨ op = .delete) :
    itemBucket (classify op m).1 (m, t) = (classify op m).2 := by
  unfold classify
  split
  · simp [itemBucket]
  · rcases hop with rfl | rfl <;> simp [itemBucket]

theorem classify_ne_stop (op : OperationType) (m : ObjectMetadata)
    (hop : op = .add ∨ op = .delete) : (classify op m).1 ≠ .stop := by
  unfold classify
  split
  · simp
  · rcases hop with rfl | rfl <;> simp

/-- **Filing an operation** appends it to what was filed before. -/
theorem Enqueued.enqueueOperation {st : ProducerState} {ops : List (OperationType × Item)}
    (h : p.Enqueued st ops) {op : OperationType} (hop : op = .add ∨ op = .delete)
    (m : ObjectMetadata) (t : Option ObjectMetadata) :
    p.Enqueued (p.enqueueOperation st op m t) (ops ++ [((classify op m).1, (m, t))]) := by
  set op' := (classify op m).1 with hop'
  set bucket := (classify op m).2 with hbucket
  have hitem : itemBucket op' (m, t) = bucket := itemBucket_classify op m t hop
  have hstop : op' ≠ .stop := classify_ne_stop op m hop
  -- the state after the type check: its type and bucket are those of the item
  obtain ⟨st₁, hst₁, hops₁, hq₁, hlt₁, htype₁, hbucket₁, hcur₁⟩ :
      ∃ st₁, st₁ =
        (if st.currentBatchType ≠ some op' ∨ st.currentBatchSizeBucket ≠ some bucket then
          { st.flushBatch with
            currentBatchType := some op'
            currentBatchSizeBucket := some bucket }
        else st) ∧
        st₁.ops = ops ∧ (∀ b ∈ st₁.fileQueue, p.BatchOk b) ∧
        st₁.currentBatch.length < p.batchSize ∧
        st₁.currentBatchType = some op' ∧ st₁.currentBatchSizeBucket = some bucket ∧
        ∀ it ∈ st₁.currentBatch, itemBucket op' it = bucket := by
    refine ⟨_, rfl, ?_⟩
    split
    · -- another type or bucket: the batch is flushed first
      obtain ⟨hf, hempty⟩ := flushBatch_spec h.ops_eq h.queue_ok h.current_lt.le h.current_ok
      refine ⟨?_, hf.queue_ok, hf.current_lt, rfl, rfl, by simp [hempty]⟩
      rw [← hf.ops_eq]
      simp only [ProducerState.ops, hempty, List.map_nil]
      rcases st.flushBatch.currentBatchType <;> rfl
    · rename_i hsame
      obtain ⟨hty, hbu⟩ : st.currentBatchType = some op' ∧
          st.currentBatchSizeBucket = some bucket := by
        simpa [not_or] using hsame
      refine ⟨h.ops_eq, h.queue_ok, h.current_lt, hty, hbu, fun it hit => ?_⟩
      obtain ⟨op₀, bucket₀, hty₀, -, hbu₀, hall⟩ :=
        h.current_ok (List.ne_nil_of_mem hit)
      obtain rfl : op₀ = op' := Option.some.inj (hty₀.symm.trans hty)
      obtain rfl : bucket₀ = bucket := Option.some.inj (hbu₀.symm.trans hbu)
      exact hall it hit
  set st₂ : ProducerState := { st₁ with currentBatch := st₁.currentBatch ++ [(m, t)] } with hst₂
  have heq : p.enqueueOperation st op m t =
      if p.batchSize ≤ st₂.currentBatch.length then st₂.flushBatch else st₂ := by
    rw [hst₂, hst₁]
    rfl
  have hops₂ : st₂.ops = ops ++ [(op', (m, t))] := by
    rw [← hops₁]
    simp [ProducerState.ops, hst₂, htype₁]
  have hcur₂ : st₂.currentBatch ≠ [] → ∃ op bucket,
      st₂.currentBatchType = some op ∧ op ≠ .stop ∧
      st₂.currentBatchSizeBucket = some bucket ∧
      ∀ it ∈ st₂.currentBatch, itemBucket op it = bucket := by
    refine fun _ => ⟨op', bucket, htype₁, hstop, hbucket₁, fun it hit => ?_⟩
    rcases List.mem_append.mp hit with hit | hit
    · exact hcur₁ it hit
    · obtain rfl : it = (m, t) := by simpa using hit
      exact hitem
  rw [heq]
  split
  · -- the batch is full
    have hlen : st₂.currentBatch.length ≤ p.batchSize := by
      simp only [hst₂, List.length_append, List.length_singleton]
      omega
    exact (flushBatch_spec hops₂ hq₁ hlen hcur₂).1
  · rename_i hlt
    exact ⟨hops₂, hq₁, not_le.mp hlt, hcur₂⟩

/-! ### The plan -/

variable (p)

/-- The operation that a row of the join leads to, if any. -/
def planRow : Row ObjectMetadata ObjectMetadata → Option (OperationType × Item)
  | .left s =>
      if p.included (p.sourceKey s) then some ((classify .add s).1, (s, none)) else none
  | .right t => if p.deleteUnmatchedFiles then some (.delete, (t, none)) else none
  | .both s t =>
      if p.matchFileMetadata s t then none
      else if p.included (p.sourceKey s) then some ((classify .add s).1, (s, some t))
      else none

/-- The operations for two listings, in the order in which they are filed. -/
def plan (ss ts : List ObjectMetadata) : List (OperationType × Item) :=
  (outerJoin p.sourceKey p.targetKey (ss.filter fun s => !p.isHidden (p.sourceKey s))
    (ts.filter fun t => !p.isHidden (p.targetKey t))).filterMap p.planRow

variable {p} {s t : ObjectMetadata} {ss ts : List ObjectMetadata}

theorem plan_nil : p.plan [] [] = [] := by
  simp [plan, outerJoin]

theorem plan_hidden_source (h : p.isHidden (p.sourceKey s) = true) :
    p.plan (s :: ss) ts = p.plan ss ts := by
  simp [plan, h]

theorem plan_hidden_target (h : p.isHidden (p.targetKey t) = true) :
    p.plan ss (t :: ts) = p.plan ss ts := by
  simp [plan, h]

/-- One row of the join, and the rest. -/
theorem filterMap_planRow_cons (r : Row ObjectMetadata ObjectMetadata)
    (rs : List (Row ObjectMetadata ObjectMetadata)) :
    (r :: rs).filterMap p.planRow = (p.planRow r).toList ++ rs.filterMap p.planRow := by
  rcases h : p.planRow r with - | x <;> simp [h]

theorem plan_source_lt (hs : p.isHidden (p.sourceKey s) = false)
    (ht : p.isHidden (p.targetKey t) = false) (hlt : p.sourceKey s < p.targetKey t) :
    p.plan (s :: ss) (t :: ts) = (p.planRow (.left s)).toList ++ p.plan ss (t :: ts) := by
  simp only [plan, List.filter_cons, hs, ht, Bool.not_false, if_true]
  rw [outerJoin, if_pos hlt, filterMap_planRow_cons]

theorem plan_target_lt (hs : p.isHidden (p.sourceKey s) = false)
    (ht : p.isHidden (p.targetKey t) = false) (hlt : p.targetKey t < p.sourceKey s) :
    p.plan (s :: ss) (t :: ts) = (p.planRow (.right t)).toList ++ p.plan (s :: ss) ts := by
  simp only [plan, List.filter_cons, hs, ht, Bool.not_false, if_true]
  rw [outerJoin, if_neg (lt_asymm hlt), if_pos hlt, filterMap_planRow_cons]

theorem plan_same (hs : p.isHidden (p.sourceKey s) = false)
    (ht : p.isHidden (p.targetKey t) = false) (h₁ : ¬ p.sourceKey s < p.targetKey t)
    (h₂ : ¬ p.targetKey t < p.sourceKey s) :
    p.plan (s :: ss) (t :: ts) = (p.planRow (.both s t)).toList ++ p.plan ss ts := by
  simp only [plan, List.filter_cons, hs, ht, Bool.not_false, if_true]
  rw [outerJoin, if_neg h₁, if_neg h₂, filterMap_planRow_cons]

theorem plan_drain_source (hs : p.isHidden (p.sourceKey s) = false) :
    p.plan (s :: ss) [] = (p.planRow (.left s)).toList ++ p.plan ss [] := by
  simp only [plan, List.filter_cons, hs, Bool.not_false, if_true, List.filter_nil]
  rw [outerJoin, filterMap_planRow_cons]

theorem plan_drain_target (ht : p.isHidden (p.targetKey t) = false) :
    p.plan [] (t :: ts) = (p.planRow (.right t)).toList ++ p.plan [] ts := by
  simp only [plan, List.filter_cons, ht, Bool.not_false, if_true, List.filter_nil]
  rw [outerJoin, outerJoin, List.map_cons, filterMap_planRow_cons]

/-! ### Rounds file rows -/

theorem classify_delete (m : ObjectMetadata) : (classify .delete m).1 = .delete := by
  simp [classify]

variable {st : ProducerState} {ops : List (OperationType × Item)}

theorem Enqueued.left (h : p.Enqueued st ops) (s : ObjectMetadata) :
    p.Enqueued (if p.included (p.sourceKey s) then (p.enqueueOperation st .add s).countWork
      else st) (ops ++ (p.planRow (.left s)).toList) := by
  simp only [planRow]
  split
  · exact (h.enqueueOperation (Or.inl rfl) s none).countWork
  · simpa using h

theorem Enqueued.right (h : p.Enqueued st ops) (t : ObjectMetadata) :
    p.Enqueued (if p.deleteUnmatchedFiles then (p.enqueueOperation st .delete t).countWork
      else st) (ops ++ (p.planRow (.right t)).toList) := by
  simp only [planRow]
  split
  · have := (h.enqueueOperation (Or.inr rfl) t none).countWork
    rwa [classify_delete] at this
  · simpa using h

/-- A row with both sides enqueues what the plan says. -/
theorem Enqueued.both (h : p.Enqueued st ops) (s t : ObjectMetadata) :
    p.Enqueued (if p.matchFileMetadata s t then st
      else if p.included (p.sourceKey s) then p.enqueueOperation st .add s (some t)
      else st) (ops ++ (p.planRow (.both s t)).toList) := by
  simp only [planRow]
  split
  · simpa using h
  split
  · exact h.enqueueOperation (Or.inl rfl) s (some t)
  · simpa using h

/-- What a round does: it files the operations `w`, which open the plan for
the entries that were left, and the cursors it returns stand at the rest. -/
structure RoundSpec (p : ProducerThread) (src tgt : Cursor) (ops w : List (OperationType × Item))
    (r : ProducerState × Except PyStr (Cursor × Cursor)) : Prop where
  enqueued : p.Enqueued r.1 (ops ++ w)
  opens : w <+: p.plan src.entries tgt.entries
  rest : ∀ src' tgt', r.2 = .ok (src', tgt') → src'.Valid ∧ tgt'.Valid ∧
    p.plan src.entries tgt.entries = w ++ p.plan src'.entries tgt'.entries

variable {src tgt : Cursor} {w : List (OperationType × Item)} {st' : ProducerState}

/-- A round that advances the source cursor. -/
theorem RoundSpec.source (htgt : tgt.Valid) (h : p.Enqueued st' (ops ++ w))
    (hplan : p.plan src.entries tgt.entries = w ++ p.plan src.iter.items tgt.entries) :
    p.RoundSpec src tgt ops w (st', (·, tgt) <$> src.iter.next) where
  enqueued := h
  opens := ⟨_, hplan.symm⟩
  rest := by
    intro src' tgt' hr
    obtain ⟨c, hc, he⟩ := map_next_ok hr
    obtain ⟨rfl, rfl⟩ : c = src' ∧ tgt = tgt' := by simpa using he
    obtain ⟨hent, hval⟩ := Iter.next_entries hc
    exact ⟨hval, htgt, by rw [hplan, hent]⟩

/-- A round that advances the target cursor. -/
theorem RoundSpec.target (hsrc : src.Valid) (h : p.Enqueued st' (ops ++ w))
    (hplan : p.plan src.entries tgt.entries = w ++ p.plan src.entries tgt.iter.items) :
    p.RoundSpec src tgt ops w (st', (src, ·) <$> tgt.iter.next) where
  enqueued := h
  opens := ⟨_, hplan.symm⟩
  rest := by
    intro src' tgt' hr
    obtain ⟨c, hc, he⟩ := map_next_ok hr
    obtain ⟨rfl, rfl⟩ : src = src' ∧ c = tgt' := by simpa using he
    obtain ⟨hent, hval⟩ := Iter.next_entries hc
    exact ⟨hsrc, hval, by rw [hplan, hent]⟩

/-- **One round of the loop.** -/
theorem round_spec (h : p.Enqueued st ops) (hsrc : src.Valid) (htgt : tgt.Valid) :
    ∃ w, p.RoundSpec src tgt ops w (p.round src tgt st) := by
  have hskip : p.Enqueued st (ops ++ []) := by simpa using h
  rcases hs : src.file with - | s <;> rcases ht : tgt.file with - | t
  · simp only [round, hs, ht]
    refine ⟨[], hskip, List.nil_prefix, fun src' tgt' hr => ?_⟩
    obtain ⟨rfl, rfl⟩ : src = src' ∧ tgt = tgt' := by simpa using hr
    exact ⟨hsrc, htgt, rfl⟩
  · -- only the target is left
    have hes := hsrc.entries_nil hs
    have het := Cursor.entries_cons ht
    simp only [round, hs, ht]
    split
    · rename_i hid
      exact ⟨_, .target hsrc hskip (by rw [het, plan_hidden_target hid]; rfl)⟩
    · rename_i hid
      refine ⟨_, .target hsrc (h.right t) ?_⟩
      rw [hes, het, plan_drain_target (by simpa using hid)]
  · -- only the source is left
    have hes := Cursor.entries_cons hs
    have het := htgt.entries_nil ht
    simp only [round, hs, ht]
    split
    · rename_i hid
      exact ⟨_, .source htgt hskip (by rw [hes, plan_hidden_source hid]; rfl)⟩
    · rename_i hid
      refine ⟨_, .source htgt (h.left s) ?_⟩
      rw [hes, het, plan_drain_source (by simpa using hid)]
  · -- hidden entries are skipped one at a time, the source's first
    have hes := Cursor.entries_cons hs
    have het := Cursor.entries_cons ht
    simp only [round, hs, ht]
    split
    · rename_i hid
      exact ⟨_, .source htgt hskip (by rw [hes, plan_hidden_source hid]; rfl)⟩
    rename_i hids
    have hids : p.isHidden (p.sourceKey s) = false := by simpa using hids
    split
    · rename_i hid
      exact ⟨_, .target hsrc hskip (by rw [het, plan_hidden_target hid]; rfl)⟩
    rename_i hidt
    have hidt : p.isHidden (p.targetKey t) = false := by simpa using hidt
    split
    · rename_i hlt
      refine ⟨_, .source htgt (h.left s) ?_⟩
      rw [hes, het, plan_source_lt hids hidt hlt]
    rename_i hnlt
    split
    · rename_i hgt
      refine ⟨_, .target hsrc (h.right t) ?_⟩
      rw [hes, het, plan_target_lt hids hidt hgt]
    · rename_i hngt
      have hplan : p.plan src.entries tgt.entries =
          (p.planRow (.both s t)).toList ++ p.plan src.iter.items tgt.iter.items := by
        rw [hes, het, plan_same hids hidt hnlt hngt]
      refine ⟨(p.planRow (.both s t)).toList, ?_⟩
      -- an exception of either `next` leaves the filed operation in place
      split
      · exact ⟨h.both s t, ⟨_, hplan.symm⟩, fun _ _ hr => by cases hr⟩
      · exact ⟨h.both s t, ⟨_, hplan.symm⟩, fun _ _ hr => by cases hr⟩
      · rename_i c₁ c₂ hc₁ hc₂
        refine ⟨(h.both s t).countWork, ⟨_, hplan.symm⟩, fun src' tgt' hr => ?_⟩
        obtain ⟨rfl, rfl⟩ : c₁ = src' ∧ c₂ = tgt' := by simpa using hr
        obtain ⟨hent₁, hval₁⟩ := Iter.next_entries hc₁
        obtain ⟨hent₂, hval₂⟩ := Iter.next_entries hc₂
        exact ⟨hval₁, hval₂, by rw [hplan, hent₁, hent₂]⟩

/-- **The whole loop** files an initial segment of the plan, and all of it
when it is not cut short. -/
theorem loop_spec (shutdown : ℕ → Bool) (n : ℕ) (h : p.Enqueued st ops)
    (hsrc : src.Valid) (htgt : tgt.Valid) :
    ∃ w, p.Enqueued (p.loop shutdown n src tgt st).1 (ops ++ w) ∧
      w <+: p.plan src.entries tgt.entries ∧
      ((p.loop shutdown n src tgt st).2 = .finished →
        w = p.plan src.entries tgt.entries) := by
  induction n, src, tgt, st using loop.induct p shutdown generalizing ops with
  -- both listings are at their end, and so is the plan
  | case1 n src tgt st hend =>
      rw [loop, dif_pos hend]
      have hnil : p.plan src.entries tgt.entries = [] := by
        rw [hsrc.entries_nil hend.1, htgt.entries_nil hend.2, plan_nil]
      exact ⟨[], by simpa using h, List.nil_prefix, fun _ => hnil.symm⟩
  -- told to shut down: what has been enqueued is a beginning of the plan
  | case2 n src tgt st hend hshut =>
      rw [loop, dif_neg hend, if_pos hshut]
      exact ⟨[], by simpa using h, List.nil_prefix, fun hf => by cases hf⟩
  -- a listing raises
  | case3 n src tgt st hend hshut st' e hr =>
      obtain ⟨w, hw⟩ := round_spec h hsrc htgt
      rw [loop, dif_neg hend, if_neg hshut]
      rw [hr] at hw
      split
      · rename_i st₁ e₁ hr₁
        obtain ⟨rfl, -⟩ : st' = st₁ ∧ e = e₁ := by simpa [hr] using hr₁
        exact ⟨w, hw.enqueued, hw.opens, fun hf => by cases hf⟩
      · rename_i hr₁
        simp [hr] at hr₁
  -- a round, and the loop from there on
  | case4 n src tgt st hend hshut st' src' tgt' hr ih =>
      obtain ⟨w, hw⟩ := round_spec h hsrc htgt
      rw [hr] at hw
      obtain ⟨hsrc', htgt', hplan⟩ := hw.rest src' tgt' rfl
      obtain ⟨w', hw', hopen', hfin'⟩ := ih hw.enqueued hsrc' htgt'
      rw [loop, dif_neg hend, if_neg hshut]
      split
      · rename_i hr₁
        simp [hr] at hr₁
      · rename_i st₁ src₁ tgt₁ hr₁
        obtain ⟨rfl, rfl, rfl⟩ : st' = st₁ ∧ src' = src₁ ∧ tgt' = tgt₁ := by
          simpa [hr] using hr₁
        refine ⟨w ++ w', by rwa [← List.append_assoc], ?_, fun hf => ?_⟩
        · rw [hplan]
          exact (List.prefix_append_right_inj w).mpr hopen'
        · rw [hplan, hfin' hf]

/-! ### A run -/

/-- The operations on a file queue. -/
def queueOps (q : List OperationBatch) : List (OperationType × Item) :=
  q.flatMap OperationBatch.ops

theorem queueOps_append (q q' : List OperationBatch) :
    queueOps (q ++ q') = queueOps q ++ queueOps q' := by
  simp [queueOps]

theorem queueOps_stops (n : ℕ) : queueOps (List.replicate n stopBatch) = [] := by
  simp [queueOps, OperationBatch.ops, stopBatch]

variable (p)

/-- The source listing of a run. -/
abbrev sourceEntries : List ObjectMetadata := p.createSourceIterator.items

/-- The target listing of a run. -/
abbrev targetEntries : List ObjectMetadata := p.createTargetIterator.items

/-- The loop enqueues a beginning of the plan, and all of it when it finishes. -/
theorem runLoop_spec (shutdown : ℕ → Bool) :
    ∃ w, p.Enqueued (p.runLoop shutdown).1 w ∧ w <+: p.plan p.sourceEntries p.targetEntries ∧
      ((p.runLoop shutdown).2 = .finished → w = p.plan p.sourceEntries p.targetEntries) := by
  unfold runLoop
  split
  · exact ⟨[], enqueued_init, List.nil_prefix, fun hf => by cases hf⟩
  · exact ⟨[], enqueued_init, List.nil_prefix, fun hf => by cases hf⟩
  · rename_i src tgt hs ht
    obtain ⟨hes, hvs⟩ := Iter.next_entries hs
    obtain ⟨het, hvt⟩ := Iter.next_entries ht
    obtain ⟨w, hw, hopen, hfin⟩ := loop_spec shutdown 0 (enqueued_init (p := p)) hvs hvt
    rw [hes, het] at hopen hfin
    exact ⟨w, by simpa using hw, hopen, hfin⟩

/-- **The file queue after a run**: well-formed batches that carry an initial
segment of the plan, all of it when the run was not cut short, and then the
sentinels. -/
theorem run_spec (shutdown : ℕ → Bool) :
    ∃ batches, (p.run shutdown).fileQueue =
        batches ++ List.replicate p.numWorkers stopBatch ∧
      (∀ b ∈ batches, p.BatchOk b) ∧
      queueOps batches <+: p.plan p.sourceEntries p.targetEntries ∧
      ((p.run shutdown).outcome = .finished →
        queueOps batches = p.plan p.sourceEntries p.targetEntries) := by
  obtain ⟨w, hw, hopen, hfin⟩ := p.runLoop_spec shutdown
  obtain ⟨hf, hempty⟩ := flushBatch_spec hw.ops_eq hw.queue_ok hw.current_lt.le hw.current_ok
  have hops : queueOps (p.runLoop shutdown).1.flushBatch.fileQueue = w := by
    rw [← hf.ops_eq, ProducerState.ops, hempty, queueOps]
    rcases (p.runLoop shutdown).1.flushBatch.currentBatchType <;> simp
  refine ⟨(p.runLoop shutdown).1.flushBatch.fileQueue, rfl, hf.queue_ok, ?_, ?_⟩
  · rw [hops]; exact hopen
  · intro hout
    rw [hops]; exact hfin hout

/-- The operations of a run open the plan. -/
theorem run_ops_opens (shutdown : ℕ → Bool) :
    queueOps (p.run shutdown).fileQueue <+: p.plan p.sourceEntries p.targetEntries := by
  obtain ⟨batches, hq, -, hopen, -⟩ := p.run_spec shutdown
  rwa [hq, queueOps_append, queueOps_stops, List.append_nil]

/-- The operations of a complete run are the plan. -/
theorem run_ops_eq_plan (shutdown : ℕ → Bool) (h : (p.run shutdown).outcome = .finished) :
    queueOps (p.run shutdown).fileQueue = p.plan p.sourceEntries p.targetEntries := by
  obtain ⟨batches, hq, -, -, hfin⟩ := p.run_spec shutdown
  rw [hq, queueOps_append, queueOps_stops, List.append_nil, hfin h]

/-! ### The plan for sorted listings -/

/-- A listing in strictly increasing order of relative keys. -/
def SortedByKey (path : PyStr) (l : List ObjectMetadata) : Prop :=
  l.Pairwise fun a b => relKey path a.key < relKey path b.key

/-- The source entry `s` has to be written: it is visible, the filter takes
it, and the target has no entry of its key (`tm` is `none`) or one that does
not match (`tm` is that entry). -/
def WriteNeeded (ts : List ObjectMetadata) (s : ObjectMetadata)
    (tm : Option ObjectMetadata) : Prop :=
  p.isHidden (p.sourceKey s) = false ∧ p.included (p.sourceKey s) = true ∧
    match tm with
    | none => ∀ t ∈ ts, p.targetKey t ≠ p.sourceKey s
    | some t => t ∈ ts ∧ p.targetKey t = p.sourceKey s ∧ p.matchFileMetadata s t = false

/-- The operations a sync of the source listing `ss` to the target listing
`ts` consists of. -/
def Planned (ss ts : List ObjectMetadata) : OperationType × Item → Prop
  | (.add, (s, tm)) => s ∈ ss ∧ s.symlinkTarget = none ∧ p.WriteNeeded ts s tm
  | (.symlink, (s, tm)) => s ∈ ss ∧ s.symlinkTarget ≠ none ∧ p.WriteNeeded ts s tm
  | (.delete, (t, tm)) => tm = none ∧ p.deleteUnmatchedFiles = true ∧ t ∈ ts ∧
      p.isHidden (p.targetKey t) = false ∧ ∀ s ∈ ss, p.sourceKey s ≠ p.targetKey t
  | (.stop, _) => False

variable {p}

/-- The entries of a listing that are not hidden. -/
abbrev visible (p : ProducerThread) (key : ObjectMetadata → PyStr) (l : List ObjectMetadata) :
    List ObjectMetadata := l.filter fun m => !p.isHidden (key m)

theorem mem_visible {key : ObjectMetadata → PyStr} {l : List ObjectMetadata}
    {m : ObjectMetadata} : m ∈ p.visible key l ↔ m ∈ l ∧ p.isHidden (key m) = false := by
  simp [visible]

theorem mem_plan {x : OperationType × Item} :
    x ∈ p.plan ss ts ↔
      ∃ r ∈ outerJoin p.sourceKey p.targetKey (p.visible p.sourceKey ss)
        (p.visible p.targetKey ts), p.planRow r = some x := by
  simp [plan]

/-- No two rows lead to the same operation. -/
theorem planRow_injective {r r' : Row ObjectMetadata ObjectMetadata} {x : OperationType × Item}
    (h : p.planRow r = some x) (h' : p.planRow r' = some x) : r = r' := by
  have hadd : ∀ m, (classify .add m).1 ≠ .delete := by
    intro m
    unfold classify
    split <;> simp
  rcases r with s | t | ⟨s, t⟩ <;> rcases r' with s' | t' | ⟨s', t'⟩ <;>
    simp only [planRow, Option.ite_none_right_eq_some, Option.ite_none_left_eq_some,
      Option.some.injEq] at h h'
  all_goals grind

theorem nodup_plan (hss : ss.Pairwise fun a b => p.sourceKey a ≠ p.sourceKey b)
    (hts : SortedByKey p.targetPath ts) : (p.plan ss ts).Nodup := by
  refine List.Nodup.filterMap (fun r r' x hr hr' => planRow_injective hr hr') ?_
  exact nodup_outerJoin (hss.filter _) (hts.filter _)

/-- The write half of `Planned`: the operation is the one an ADD of the
entry is filed under. -/
theorem planned_write_iff {op : OperationType} {tm : Option ObjectMetadata}
    (hop : op ≠ .delete) :
    p.Planned ss ts (op, (s, tm)) ↔
      op = (classify .add s).1 ∧ s ∈ ss ∧ p.WriteNeeded ts s tm := by
  rcases hl : s.symlinkTarget with - | l <;> cases op <;>
    simp_all [Planned, classify]

theorem classify_add_ne_delete (m : ObjectMetadata) : (classify .add m).1 ≠ .delete := by
  unfold classify
  split <;> simp

/-- **The plan for sorted listings** is what a sync consists of. -/
theorem mem_plan_sorted {x : OperationType × Item} (hss : SortedByKey p.sourcePath ss)
    (hts : SortedByKey p.targetPath ts) : x ∈ p.plan ss ts ↔ p.Planned ss ts x := by
  have hrow : ∀ r, r ∈ outerJoin p.sourceKey p.targetKey (p.visible p.sourceKey ss)
      (p.visible p.targetKey ts) ↔ SortedRowSpec p.sourceKey p.targetKey
        (p.visible p.sourceKey ss) (p.visible p.targetKey ts) r :=
    fun r => mem_outerJoin_sorted (hss.filter _) (hts.filter _)
  obtain ⟨op, m, tm⟩ := x
  rw [mem_plan]
  constructor
  · rintro ⟨r, hr, hx⟩
    rw [hrow] at hr
    rcases r with s | t | ⟨s, t⟩
    · obtain ⟨hs, hmiss⟩ := hr
      obtain ⟨hs, hvis⟩ := mem_visible.mp hs
      simp only [planRow, Option.ite_none_right_eq_some, Option.some.injEq, Prod.mk.injEq] at hx
      obtain ⟨hinc, rfl, rfl, rfl⟩ := hx
      rw [planned_write_iff (classify_add_ne_delete _)]
      -- the counterpart of a visible entry is visible
      refine ⟨rfl, hs, hvis, hinc, fun t ht heq => ?_⟩
      exact hmiss t (mem_visible.mpr ⟨ht, heq ▸ hvis⟩) heq
    · obtain ⟨ht, hmiss⟩ := hr
      obtain ⟨ht, hvis⟩ := mem_visible.mp ht
      simp only [planRow, Option.ite_none_right_eq_some, Option.some.injEq, Prod.mk.injEq] at hx
      obtain ⟨hdel, rfl, rfl, rfl⟩ := hx
      refine ⟨rfl, hdel, ht, hvis, fun s hs heq => ?_⟩
      exact hmiss s (mem_visible.mpr ⟨hs, heq ▸ hvis⟩) heq
    · obtain ⟨hs, ht, heq⟩ := hr
      obtain ⟨hs, hvis⟩ := mem_visible.mp hs
      simp only [planRow, Option.ite_none_right_eq_some, Option.ite_none_left_eq_some,
        Option.some.injEq, Prod.mk.injEq] at hx
      obtain ⟨hnm, hinc, rfl, rfl, rfl⟩ := hx
      rw [planned_write_iff (classify_add_ne_delete _)]
      exact ⟨rfl, hs, hvis, hinc, (mem_visible.mp ht).1, heq.symm, by simpa using hnm⟩
  · intro hx
    by_cases hdel : op = .delete
    · subst hdel
      obtain ⟨rfl, hflag, ht, hvis, hmiss⟩ := hx
      refine ⟨.right m, (hrow _).mpr ⟨mem_visible.mpr ⟨ht, hvis⟩, ?_⟩, by simp [planRow, hflag]⟩
      exact fun s hs => hmiss s (mem_visible.mp hs).1
    · rw [planned_write_iff hdel] at hx
      obtain ⟨rfl, hs, hvis, hinc, hneed⟩ := hx
      have hs' := mem_visible.mpr ⟨hs, hvis⟩
      cases tm with
      | none =>
          refine ⟨.left m, (hrow _).mpr ⟨hs', ?_⟩, by simp [planRow, hinc]⟩
          exact fun t ht => hneed t (mem_visible.mp ht).1
      | some t =>
          obtain ⟨ht, heq, hnm⟩ := hneed
          refine ⟨.both m t, (hrow _).mpr ⟨hs', mem_visible.mpr ⟨ht, heq ▸ hvis⟩, heq.symm⟩, ?_⟩
          simp [planRow, hnm, hinc]

/-! ### What a sync run puts on the queue -/

/-- **The producer plans a sync exactly.**  For listings sorted by relative
key, a run that is not cut short puts well-formed batches on the queue, which
together carry each operation of the sync once and nothing else, followed by
one STOP for each worker. -/
theorem run_plans_exactly (p : ProducerThread) (shutdown : ℕ → Bool)
    (hS : SortedByKey p.sourcePath p.sourceEntries)
    (hT : SortedByKey p.targetPath p.targetEntries)
    (hdone : (p.run shutdown).outcome = .finished) :
    ∃ batches, (p.run shutdown).fileQueue =
        batches ++ List.replicate p.numWorkers stopBatch ∧
      (∀ b ∈ batches, p.BatchOk b) ∧
      (queueOps batches).Nodup ∧
      ∀ x, x ∈ queueOps batches ↔ p.Planned p.sourceEntries p.targetEntries x := by
  obtain ⟨batches, hq, hok, -, hfin⟩ := p.run_spec shutdown
  refine ⟨batches, hq, hok, ?_, fun x => ?_⟩
  · rw [hfin hdone]
    exact nodup_plan (hS.imp fun h => h.ne) hT
  · rw [hfin hdone]
    exact mem_plan_sorted hS hT

end ProducerThread

/-! ### A concrete run -/

/-- A client whose listings are given by a list of entries. -/
def SyncClient.ofListing (entries : List ObjectMetadata) : SyncClient where
  list _ _ _ := ⟨entries, none⟩
  listRecursive _ _ := ⟨entries, none⟩
  info path :=
    match entries.find? fun m => m.key == path with
    | some m => .found m
    | none => .notFound
  hasMetadataProvider := false

/-- A file of a given key, size and age in seconds. -/
def fileOf (key : String) (contentLength : ℕ) (seconds : ℤ) : ObjectMetadata :=
  { key := key.toList, contentLength := contentLength, lastModified := seconds * 1000000 }

namespace ProducerThread

/-- A sync with a new, a changed, an unchanged, a hidden and a deleted file. -/
def sampleSync : ProducerThread where
  sourceClient := .ofListing
    [fileOf "src/.git/x" 1 5, fileOf "src/a" 1 5, fileOf "src/b" 2 5, fileOf "src/c" 3 5]
  sourcePath := "src".toList
  targetClient := .ofListing [fileOf "dst/b" 2 1, fileOf "dst/c" 3 9, fileOf "dst/d" 4 9]
  targetPath := "dst".toList
  numWorkers := 2
  deleteUnmatchedFiles := true

theorem run_plans_exactly_sampleSync :
    ∃ batches, (sampleSync.run fun _ => false).fileQueue =
        batches ++ List.replicate 2 stopBatch ∧
      (∀ b ∈ batches, sampleSync.BatchOk b) ∧
      (queueOps batches).Nodup ∧
      ∀ x, x ∈ queueOps batches ↔
        sampleSync.Planned sampleSync.sourceEntries sampleSync.targetEntries x :=
  run_plans_exactly sampleSync (fun _ => false) (by unfold SortedByKey; decide)
    (by unfold SortedByKey; decide) (by decide +kernel)

example : (queueOps (sampleSync.run fun _ => false).fileQueue).map (fun x => (x.1, x.2.1.key)) =
    [(.add, "src/a".toList), (.add, "src/b".toList), (.delete, "dst/d".toList)] := by
  decide +kernel

end ProducerThread

end MultiStorageClient
