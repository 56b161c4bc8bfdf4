/-
MultiStorageClient/DataCacheLrus.lean

The LRUs of the data cache as `cache.go` keeps them: five doubly linked lists of
line numbers in one array, where the number of the first line stands for no line
as well.

`LineLists` is what they are for: five lists without common elements.  What an
operation does to the array is what it does to a list (`Encodes.perform`), and
`lruCount`, not a link, says whether there is a first line; so the two meanings
of 0 do not meet.  `popHead` and `popTail` are `popThis` of an end, and
`touchThis` is `popThis` and `pushTail`, so there are two operations to follow
through the links.
-/
import MultiStorageClient.LinkedList
import MultiStorageClient.Run

namespace MultiStorageFileSystem

open LinkedList Run

/-- `CacheLine*`: the state of a line. -/
inductive CacheLineState
  | NotNotOnLRU
  | Free
  | Inbound
  | Clean
  | Outbound
  | Dirty
  deriving DecidableEq

/-- The LRUs. -/
inductive LRUName
  | Free
  | Inbound
  | Clean
  | Outbound
  | Dirty
  deriving DecidableEq

instance : Fintype LRUName :=
  .ofList [.Free, .Inbound, .Clean, .Outbound, .Dirty] fun k => by cases k <;> decide

/-- The state of the lines on an LRU. -/
def LRUName.state : LRUName → CacheLineState
  | Free => .Free
  | Inbound => .Inbound
  | Clean => .Clean
  | Outbound => .Outbound
  | Dirty => .Dirty

theorem LRUName.state_injective : Function.Injective state := fun k k' h => by
  cases k <;> cases k' <;> first | rfl | cases h

theorem LRUName.state_ne (k : LRUName) : k.state ≠ .NotNotOnLRU := by
  cases k <;> exact CacheLineState.noConfusion

/-- The fields of `dataCacheLineTrackerStruct` that the LRUs use. -/
structure LineTracker where
  next : ℕ
  prev : ℕ
  pos : ℕ
  state : CacheLineState
  deriving DecidableEq

/-- `dataCacheLineLRUStruct` -/
structure LineLRU where
  head : ℕ
  tail : ℕ
  lruCount : ℕ
  state : CacheLineState
  deriving DecidableEq

/-- The trackers and the LRUs among the globals. -/
@[ext] structure DataCacheLRUs where
  dataCacheLinesTracker : ℕ → LineTracker
  lru : LRUName → LineLRU

namespace DataCacheLRUs

variable (g : DataCacheLRUs) (k : LRUName)

/-- A line changes. -/
def setLine (l : ℕ) (f : LineTracker → LineTracker) : DataCacheLRUs :=
  { g with dataCacheLinesTracker :=
      Function.update g.dataCacheLinesTracker l (f (g.dataCacheLinesTracker l)) }

/-- A list changes. -/
def setLRU (lru : LineLRU) : DataCacheLRUs := { g with lru := Function.update g.lru k lru }

/-- A line that has left its LRU. -/
def clearLine (l : ℕ) : DataCacheLRUs :=
  g.setLine l fun t => { t with next := 0, prev := 0, state := .NotNotOnLRU }

/-- An LRU that has become empty. -/
def emptyLRU : DataCacheLRUs := g.setLRU k { g.lru k with head := 0, tail := 0, lruCount := 0 }

/-- `pushTail` -/
def pushTail (l : ℕ) : DataCacheLRUs :=
  let lru := g.lru k
  let g := g.setLine l fun t => { t with next := 0, state := lru.state }
  let pos := (g.dataCacheLinesTracker l).pos
  if lru.lruCount = 0 then
    (g.setLine l fun t => { t with prev := 0 }).setLRU k
      { lru with head := pos, tail := pos, lruCount := 1 }
  else
    ((g.setLine lru.tail fun t => { t with next := pos }).setLine l fun t =>
      { t with prev := lru.tail }).setLRU k { lru with tail := pos, lruCount := lru.lruCount + 1 }

/-- `popHead` -/
def popHead : Option ℕ × DataCacheLRUs :=
  let lru := g.lru k
  if lru.lruCount = 0 then (none, g)
  else
    let l := lru.head
    let popped :=
      if lru.lruCount = 1 then g.emptyLRU k
      -- the successor becomes the head, without a line before it
      else
        let head := (g.dataCacheLinesTracker l).next
        (g.setLine head fun t => { t with prev := 0 }).setLRU k
          { lru with head := head, lruCount := lru.lruCount - 1 }
    (some l, popped.clearLine l)

/-- `popTail` -/
def popTail : Option ℕ × DataCacheLRUs :=
  let lru := g.lru k
  if lru.lruCount = 0 then (none, g)
  else
    let l := lru.tail
    let popped :=
      if lru.lruCount = 1 then g.emptyLRU k
      -- the predecessor becomes the tail, without a line behind it
      else
        let tail := (g.dataCacheLinesTracker l).prev
        (g.setLine tail fun t => { t with next := 0 }).setLRU k
          { lru with tail := tail, lruCount := lru.lruCount - 1 }
    (some l, popped.clearLine l)

/-- `popThis` -/
def popThis (l : ℕ) : DataCacheLRUs :=
  let lru := g.lru k
  let t := g.dataCacheLinesTracker l
  let popped :=
    if lru.lruCount = 1 then g.emptyLRU k
    else if t.pos = lru.head then
      (g.setLine t.next fun t => { t with prev := 0 }).setLRU k
        { lru with head := t.next, lruCount := lru.lruCount - 1 }
    else if t.pos = lru.tail then
      (g.setLine t.prev fun t => { t with next := 0 }).setLRU k
        { lru with tail := t.prev, lruCount := lru.lruCount - 1 }
    -- inside the list the two neighbours are linked to each other
    else
      ((g.setLine t.prev fun u => { u with next := t.next }).setLine t.next fun u =>
        { u with prev := t.prev }).setLRU k { lru with lruCount := lru.lruCount - 1 }
  popped.clearLine l

/-- `touchThis` -/
def touchThis (l : ℕ) : DataCacheLRUs :=
  let lru := g.lru k
  let t := g.dataCacheLinesTracker l
  if t.pos = lru.tail then g
  else
    -- take the line out, then put it behind the tail
    let unlinked :=
      if t.pos = lru.head then
        (g.setLine t.next fun t => { t with prev := 0 }).setLRU k { lru with head := t.next }
      else
        (g.setLine t.prev fun u => { u with next := t.next }).setLine t.next fun u =>
          { u with prev := t.prev }
    ((unlinked.setLine lru.tail fun u => { u with next := t.pos }).setLine l fun u =>
      { u with next := 0, prev := lru.tail }).setLRU k { unlinked.lru k with tail := t.pos }

/-- An LRU at its start. -/
def newLRU (k : LRUName) : LineLRU := ⟨0, 0, 0, k.state⟩

/-- The globals before `dataCacheUp`. -/
def zero : DataCacheLRUs where
  dataCacheLinesTracker _ := ⟨0, 0, 0, .NotNotOnLRU⟩
  lru _ := ⟨0, 0, 0, .NotNotOnLRU⟩

/-- A turn of the loop of `dataCacheUp`. -/
def addLine (l : ℕ) : DataCacheLRUs :=
  (g.setLine l fun t => { t with pos := l, state := .NotNotOnLRU }).pushTail .Free l

/-- `dataCacheUp` -/
def dataCacheUp (cacheLines : ℕ) : DataCacheLRUs :=
  let up := (List.range cacheLines).foldl addLine (zero.setLRU .Free (newLRU .Free))
  (((up.setLRU .Inbound (newLRU .Inbound)).setLRU .Clean (newLRU .Clean)).setLRU .Outbound
    (newLRU .Outbound)).setLRU .Dirty (newLRU .Dirty)

end DataCacheLRUs

/-- An operation on an LRU. -/
inductive LRUOp
  | pushTail (k : LRUName) (l : ℕ)
  | popHead (k : LRUName)
  | popTail (k : LRUName)
  | popThis (k : LRUName) (l : ℕ)
  | touchThis (k : LRUName) (l : ℕ)
  deriving DecidableEq

namespace DataCacheLRUs

/-- An operation, and the line that it returns. -/
def perform (g : DataCacheLRUs) : LRUOp → Option ℕ × DataCacheLRUs
  | .pushTail k l => (none, g.pushTail k l)
  | .popHead k => g.popHead k
  | .popTail k => g.popTail k
  | .popThis k l => (none, g.popThis k l)
  | .touchThis k l => (none, g.touchThis k l)

/-- What the commented checks ask: a line to be pushed is on no LRU, and the line
of `popThis` and `touchThis` has the state of the LRU. -/
def Allowed (cacheLines : ℕ) (g : DataCacheLRUs) : LRUOp → Prop
  | .pushTail _ l => l < cacheLines ∧ (g.dataCacheLinesTracker l).state = .NotNotOnLRU
  | .popThis k l | .touchThis k l => l < cacheLines ∧ (g.dataCacheLinesTracker l).state = k.state
  | _ => True

instance (cacheLines : ℕ) (g : DataCacheLRUs) (op : LRUOp) :
    Decidable (Allowed cacheLines g op) := by
  cases op <;> unfold Allowed <;> infer_instance

/-- A step is an operation that is allowed. -/
def step (cacheLines : ℕ) (g : DataCacheLRUs) (op : LRUOp) : Option DataCacheLRUs :=
  if Allowed cacheLines g op then some (g.perform op).2 else none

end DataCacheLRUs

namespace DataCacheLRUs

variable {g g' : DataCacheLRUs} {k : LRUName} {x : ℕ} {l l₁ l₂ : List ℕ}

@[simp] theorem tracker_setLine (i j : ℕ) (f : LineTracker → LineTracker) :
    (g.setLine i f).dataCacheLinesTracker j =
      if j = i then f (g.dataCacheLinesTracker i) else g.dataCacheLinesTracker j :=
  Function.update_apply ..

@[simp] theorem lru_setLine (i : ℕ) (f : LineTracker → LineTracker) : (g.setLine i f).lru = g.lru :=
  rfl

@[simp] theorem tracker_setLRU (lru : LineLRU) :
    (g.setLRU k lru).dataCacheLinesTracker = g.dataCacheLinesTracker := rfl

@[simp] theorem lru_setLRU (lru : LineLRU) (k' : LRUName) :
    (g.setLRU k lru).lru k' = if k' = k then lru else g.lru k' := Function.update_apply ..

/-- The links of the trackers are those of a list. -/
def LinkedLines (g : DataCacheLRUs) (l : List ℕ) : Prop :=
  Linked (fun i => (g.dataCacheLinesTracker i).next)
    (fun i => (g.dataCacheLinesTracker i).prev) 0 l 0

/-- An LRU and the list that it stands for. -/
structure EncodesLRU (g : DataCacheLRUs) (k : LRUName) (l : List ℕ) : Prop where
  state : (g.lru k).state = k.state
  lruCount : (g.lru k).lruCount = l.length
  head : (g.lru k).head = l.headD 0
  tail : (g.lru k).tail = l.getLastD 0
  linked : g.LinkedLines l
  pos : ∀ i ∈ l, (g.dataCacheLinesTracker i).pos = i
  nodup : l.Nodup

/-- An operation on the LRU `k` with the list `l` has changed the state of the line `x`, and
no other lines than those of the list. -/
structure Moved (g g' : DataCacheLRUs) (k : LRUName) (l : List ℕ) (x : ℕ) (s : CacheLineState) :
    Prop where
  lru : ∀ k' ≠ k, g'.lru k' = g.lru k'
  others : ∀ i ∉ l, i ≠ x → g'.dataCacheLinesTracker i = g.dataCacheLinesTracker i
  state : ∀ i ≠ x, (g'.dataCacheLinesTracker i).state = (g.dataCacheLinesTracker i).state
  pos : ∀ i, (g'.dataCacheLinesTracker i).pos = (g.dataCacheLinesTracker i).pos
  self : (g'.dataCacheLinesTracker x).state = s

/-- The tracker of a line when `x` is taken out between two lists. -/
def unlinked (g : DataCacheLRUs) (l₁ l₂ : List ℕ) (x i : ℕ) : LineTracker :=
  if i = x then { g.dataCacheLinesTracker x with next := 0, prev := 0, state := .NotNotOnLRU }
  else
    { g.dataCacheLinesTracker i with
      next :=
        if l₁ ≠ [] ∧ i = l₁.getLastD 0 then l₂.headD 0 else (g.dataCacheLinesTracker i).next
      prev :=
        if l₂ ≠ [] ∧ i = l₂.headD 0 then l₁.getLastD 0 else (g.dataCacheLinesTracker i).prev }

theorem getLastD_mem {l : List ℕ} (h : l ≠ []) : l.getLastD 0 ∈ l := by
  rw [List.getLastD_eq_getLast?, List.getLast?_eq_some_getLast h]
  exact List.getLast_mem h

theorem headD_mem {l : List ℕ} (h : l ≠ []) : l.headD 0 ∈ l := by
  cases l with
  | nil => exact absurd rfl h
  | cons b l => exact List.mem_cons_self ..

theorem getLastD_append {l₂ : List ℕ} (h : l₂ ≠ []) :
    (l₁ ++ l₂).getLastD 0 = l₂.getLastD 0 := by
  rw [List.getLastD_eq_getLast?, List.getLastD_eq_getLast?, List.getLast?_append_of_ne_nil l₁ h]

/-- What `popThis` does to the array, in all of its four cases. -/
theorem popThis_eq (h : EncodesLRU g k (l₁ ++ x :: l₂)) :
    (g.popThis k x).dataCacheLinesTracker = g.unlinked l₁ l₂ x ∧
      ∀ k', (g.popThis k x).lru k' = if k' = k then
        ⟨(l₁ ++ l₂).headD 0, (l₁ ++ l₂).getLastD 0, (l₁ ++ l₂).length, k.state⟩ else g.lru k' := by
  obtain ⟨-, hprev, hnext, -⟩ := linked_append.mp h.linked
  dsimp only at hprev hnext
  have hpos := h.pos x (List.mem_append_right _ (List.mem_cons_self ..))
  have hhead := h.head
  have htail := h.tail
  have hcount := h.lruCount
  have hstate := h.state
  obtain ⟨-, hnodup₂, hdis⟩ := List.nodup_append.mp h.nodup
  have hmem₁ : ∀ i ∈ l₁, i ≠ x := fun i hi => hdis i hi x (List.mem_cons_self ..)
  have hmem₂ : ∀ i ∈ l₂, i ≠ x := fun i hi heq => (List.nodup_cons.mp hnodup₂).1 (heq ▸ hi)
  have hhead₂ : l₂ ≠ [] → l₂.headD 0 ≠ x := fun hne => hmem₂ _ (headD_mem hne)
  have hlast₁ : l₁ ≠ [] → l₁.getLastD 0 ≠ x := fun hne => hmem₁ _ (getLastD_mem hne)
  have hlen : (l₁ ++ x :: l₂).length = (l₁ ++ l₂).length + 1 := by
    rw [List.length_append, List.length_append, List.length_cons]; rfl
  rw [getLastD_append (List.cons_ne_nil x l₂), List.getLastD_cons] at htail
  rw [hlen] at hcount
  unfold popThis
  dsimp only
  rw [hpos, hprev, hnext]
  by_cases hl₁ : l₁ = []
  · subst hl₁
    replace hhead : (g.lru k).head = x := hhead
    by_cases hl₂ : l₂ = []
    · -- the only line
      subst hl₂
      replace hcount : (g.lru k).lruCount = 1 := hcount
      rw [if_pos hcount]
      refine ⟨funext fun i => ?_, fun k' => ?_⟩
      · simp [clearLine, emptyLRU, unlinked]
      · simp [clearLine, emptyLRU, hstate]
    · -- the first line
      have hb := hhead₂ hl₂
      have hlen₂ := List.length_pos_iff.mpr hl₂
      have hlast : l₂.getLastD x = l₂.getLastD 0 := by
        rw [List.getLastD_eq_getLast?, List.getLastD_eq_getLast?,
          List.getLast?_eq_some_getLast hl₂]; rfl
      rw [if_neg (by rw [hcount, List.nil_append]; omega), if_pos hhead.symm]
      refine ⟨funext fun i => ?_, fun k' => ?_⟩
      · simp only [clearLine, unlinked, tracker_setLine, tracker_setLRU]
        clear hhead₂ hnext
        generalize l₂.headD 0 = b at *
        by_cases hi : i = b
        · simp [hl₂, hi, hb]
        · simp [hi, hb.symm]
      · simp only [clearLine, hstate, hcount, htail, hlast, lru_setLine, lru_setLRU,
          List.nil_append, Nat.add_sub_cancel]
  · have ha := hlast₁ hl₁
    have hlen₁ := List.length_pos_iff.mpr hl₁
    have hheadD : ∀ m, (l₁ ++ m).headD 0 = l₁.headD 0 := fun m => by
      rw [headD_append]; cases l₁ with
      | nil => exact absurd rfl hl₁
      | cons => rfl
    rw [hheadD] at hhead
    rw [if_neg (by rw [hcount, List.length_append]; omega),
      if_neg (by rw [hhead]; exact (hmem₁ _ (headD_mem hl₁)).symm)]
    by_cases hl₂ : l₂ = []
    · -- the last line
      subst hl₂
      replace htail : (g.lru k).tail = x := htail
      rw [if_pos htail.symm]
      refine ⟨funext fun i => ?_, fun k' => ?_⟩
      · simp only [clearLine, unlinked, tracker_setLine, tracker_setLRU]
        clear hlast₁ hprev
        generalize l₁.getLastD 0 = a at *
        by_cases hi : i = a
        · simp [hl₁, hi, ha]
        · simp [hi, ha.symm]
      · simp only [clearLine, hstate, hcount, hhead, lru_setLine, lru_setLRU, List.append_nil,
          Nat.add_sub_cancel]
    · -- a line in the middle
      have hb := hhead₂ hl₂
      have hlast : l₂.getLastD x = (l₁ ++ l₂).getLastD 0 := by
        rw [getLastD_append hl₂, List.getLastD_eq_getLast?, List.getLastD_eq_getLast?,
          List.getLast?_eq_some_getLast hl₂]; rfl
      have hab : l₁.getLastD 0 ≠ l₂.headD 0 :=
        hdis _ (getLastD_mem hl₁) _ (List.mem_cons_of_mem x (headD_mem hl₂))
      rw [hlast, getLastD_append hl₂] at htail
      rw [if_neg (by rw [htail]; exact (hmem₂ _ (getLastD_mem hl₂)).symm)]
      refine ⟨funext fun i => ?_, fun k' => ?_⟩
      · simp only [clearLine, unlinked, tracker_setLine, tracker_setLRU]
        clear hlast₁ hprev hhead₂ hnext
        generalize l₁.getLastD 0 = a at *
        generalize l₂.headD 0 = b at *
        by_cases hi : i = a
        · simp [hl₁, hi, ha, hab]
        · by_cases hi₂ : i = b
          · simp [hl₂, hi₂, hb, hab.symm]
          · simp [hi, hi₂, ha.symm, hb.symm]
      · simp only [clearLine, hstate, hcount, hhead, htail, lru_setLine, lru_setLRU, hheadD,
          getLastD_append hl₂, Nat.add_sub_cancel]

theorem EncodesLRU.of_nil_iff (h : EncodesLRU g k l) : (g.lru k).lruCount = 0 ↔ l = [] := by
  rw [h.lruCount, List.length_eq_zero_iff]

/-- An LRU stands for one list. -/
theorem EncodesLRU.unique (h : EncodesLRU g k l₁) (h' : EncodesLRU g k l₂) : l₁ = l₂ :=
  h.linked.unique h'.linked (h.lruCount.symm.trans h'.lruCount) (h.head.symm.trans h'.head)

/-- **`popThis` takes the line out of the list.** -/
theorem popThis_encodes (h : EncodesLRU g k (l₁ ++ x :: l₂)) :
    EncodesLRU (g.popThis k x) k (l₁ ++ l₂) ∧
      Moved g (g.popThis k x) k (l₁ ++ x :: l₂) x .NotNotOnLRU := by
  obtain ⟨htracker, hlru⟩ := popThis_eq h
  have hself := hlru k
  rw [if_pos rfl] at hself
  have hnodup := h.nodup
  obtain ⟨hd₁, hd₂, hdis⟩ := List.nodup_append.mp hnodup
  have hne : ∀ i ∈ l₁ ++ l₂, i ≠ x := fun i hi heq => by
    subst heq
    exact (List.nodup_cons.mp (List.nodup_middle.mp hnodup)).1 hi
  -- the neighbours of `x` are the last before it and the first behind it
  have hlast : ∀ i, l₁.getLast? = some i ↔ l₁ ≠ [] ∧ i = l₁.getLastD 0 := fun i => by
    rw [List.getLastD_eq_getLast?]
    cases hl : l₁.getLast? with
    | none => simp [List.getLast?_eq_none_iff.mp hl]
    | some a =>
        have : l₁ ≠ [] := fun hnil => by rw [hnil] at hl; cases hl
        simp [this, eq_comm]
  have hhead : ∀ i, l₂.head? = some i ↔ l₂ ≠ [] ∧ i = l₂.headD 0 := fun i => by
    cases l₂ <;> simp [eq_comm]
  refine ⟨⟨?_, ?_, ?_, ?_, ?_, fun i hi => ?_, ?_⟩, ⟨fun k' hk => ?_, fun i hi hix => ?_,
    fun i hi => ?_, fun i => ?_, ?_⟩⟩
  · rw [hself]
  · rw [hself]
  · rw [hself]
  · rw [hself]
  -- the links of the neighbours are joined, the others stay
  · refine h.linked.remove hnodup (fun i hi => ?_) (fun i hi hni => ?_) (fun i hi => ?_)
      fun i hi hni => ?_
    · have hix := hne i (List.mem_append_left _ (List.mem_of_getLast? hi))
      simp only [htracker, unlinked, if_neg hix, if_pos ((hlast i).mp hi)]
    · simp only [htracker, unlinked, if_neg (hne i hi), if_neg (mt (hlast i).mpr hni)]
    · have hix := hne i (List.mem_append_right _ (List.mem_of_head? hi))
      simp only [htracker, unlinked, if_neg hix, if_pos ((hhead i).mp hi)]
    · simp only [htracker, unlinked, if_neg (hne i hi), if_neg (mt (hhead i).mpr hni)]
  · have hpos := h.pos i (List.mem_append.mpr ((List.mem_append.mp hi).imp_right
      (List.mem_cons_of_mem x)))
    rw [htracker]
    simp only [unlinked, if_neg (hne i hi)]
    exact hpos
  · exact (List.nodup_cons.mp (List.nodup_middle.mp hnodup)).2
  · rw [hlru k', if_neg hk]
  -- a line that is not on the list is no neighbour
  · have hi₁ : ¬(l₁ ≠ [] ∧ i = l₁.getLastD 0) := fun hc =>
      hi (List.mem_append_left _ (List.mem_of_getLast? ((hlast i).mpr hc)))
    have hi₂ : ¬(l₂ ≠ [] ∧ i = l₂.headD 0) := fun hc =>
      hi (List.mem_append_right _ (List.mem_cons_of_mem x (List.mem_of_head? ((hhead i).mpr hc))))
    rw [htracker]
    simp only [unlinked, if_neg hix, if_neg hi₁, if_neg hi₂]
  · rw [htracker]
    simp only [unlinked, if_neg hi]
  · rw [htracker]
    by_cases hi : i = x
    · subst hi
      simp only [unlinked, if_pos]
    · simp only [unlinked, if_neg hi]
  · rw [htracker]
    simp only [unlinked, if_pos]

/-- **`pushTail` puts the line behind the last one.** -/
theorem pushTail_encodes (h : EncodesLRU g k l) (hpos : (g.dataCacheLinesTracker x).pos = x)
    (hx : x ∉ l) :
    EncodesLRU (g.pushTail k x) k (l ++ [x]) ∧ Moved g (g.pushTail k x) k l x k.state := by
  have hlen : (l ++ [x]).length = l.length + 1 := List.length_append
  have hlast : (l ++ [x]).getLastD 0 = x := by
    rw [List.getLastD_eq_getLast?, List.getLast?_concat]
    rfl
  have hpos' : ∀ i ∈ l ++ [x], (g.dataCacheLinesTracker i).pos = i := fun i hi =>
    (List.mem_append.mp hi).elim (h.pos i) fun hi => List.mem_singleton.mp hi ▸ hpos
  have hnodup : (l ++ [x]).Nodup :=
    List.nodup_append.mpr ⟨h.nodup, List.nodup_singleton x, fun i hi j hj heq =>
      hx (List.mem_singleton.mp hj ▸ heq ▸ hi)⟩
  unfold pushTail
  simp only [tracker_setLine, if_pos, hpos]
  by_cases hl : l = []
  · -- the first line of the LRU
    subst hl
    rw [if_pos (h.of_nil_iff.mpr rfl)]
    refine ⟨⟨?_, ?_, ?_, ?_, ?_, fun i hi => ?_, hnodup⟩, ⟨fun k' hk => ?_, fun i hi hix => ?_,
      fun i hi => ?_, fun i => ?_, ?_⟩⟩
    · simpa using h.state
    · simp
    · simp
    · simp
    · simp [LinkedLines]
    · simpa [List.mem_singleton.mp hi] using hpos
    · simp [hk]
    · simp [hix]
    · simp [hi]
    · by_cases hi : i = x <;> simp [hi]
    · simpa using h.state
  · -- a line behind the tail
    have htail : (g.lru k).tail ∈ l := h.tail ▸ getLastD_mem hl
    have htx : (g.lru k).tail ≠ x := fun heq => hx (heq ▸ htail)
    rw [if_neg (mt h.of_nil_iff.mp hl)]
    refine ⟨⟨?_, ?_, ?_, ?_, ?_, fun i hi => ?_, hnodup⟩, ⟨fun k' hk => ?_, fun i hi hix => ?_,
      fun i hi => ?_, fun i => ?_, ?_⟩⟩
    · simpa using h.state
    · simpa using h.lruCount
    · simp only [lru_setLRU, if_pos, headD_append]
      rw [h.head]
      cases l with
      | nil => exact absurd rfl hl
      | cons a l => rfl
    · simp only [lru_setLRU, if_pos, hlast]
    · refine h.linked.concat h.nodup (fun i hi => ?_) (fun i hi hni => ?_) (fun i hi => ?_) ?_
      · have hit : i = (g.lru k).tail := by
          rw [h.tail, List.getLastD_eq_getLast?, hi]
          rfl
        simp [hit, htx]
      · have hix : i ≠ x := fun heq => hx (heq ▸ hi)
        have hit : i ≠ (g.lru k).tail := fun heq => by
          rw [h.tail, List.getLastD_eq_getLast?, List.getLast?_eq_some_getLast hl] at heq
          exact hni (List.getLast?_eq_some_getLast hl ▸ congrArg some heq.symm)
        simp [hix, hit]
      · have hix : i ≠ x := fun heq => hx (heq ▸ hi)
        by_cases hit : i = (g.lru k).tail <;> simp [hix, hit, htx]
      · simpa [htx.symm] using h.tail
    · have hposi := hpos' i hi
      by_cases hix : i = x
      · simpa [hix, htx.symm] using hpos
      · by_cases hit : i = (g.lru k).tail
        · rw [hit] at hposi
          simpa [hit, htx] using hposi
        · simpa [hix, hit] using hposi
    · simp [hk]
    · have hit : i ≠ (g.lru k).tail := fun heq => hi (heq ▸ htail)
      simp [hix, hit]
    · by_cases hit : i = (g.lru k).tail
      · simp [hit, htx]
      · simp [hi, hit]
    · by_cases hix : i = x
      · simp [hix, htx.symm]
      · by_cases hit : i = (g.lru k).tail <;> simp [hix, hit, htx]
    · simpa [htx.symm] using h.state

/-- `popHead` is `popThis` of the head. -/
theorem popHead_eq (h : EncodesLRU g k (x :: l)) : g.popHead k = (some x, g.popThis k x) := by
  have hhead : (g.lru k).head = x := h.head
  have hpos : (g.dataCacheLinesTracker x).pos = x := h.pos x (List.mem_cons_self ..)
  unfold popHead popThis
  simp only [hhead, hpos, if_pos]
  rw [if_neg (mt h.of_nil_iff.mp (List.cons_ne_nil x l))]

theorem popHead_nil (h : EncodesLRU g k []) : g.popHead k = (none, g) := by
  unfold popHead
  dsimp only
  rw [if_pos (h.of_nil_iff.mpr rfl)]

/-- `popTail` is `popThis` of the tail. -/
theorem popTail_eq (h : EncodesLRU g k (l ++ [x])) : g.popTail k = (some x, g.popThis k x) := by
  have htail : (g.lru k).tail = x := by
    rw [h.tail, List.getLastD_eq_getLast?, List.getLast?_concat]
    rfl
  have hpos : (g.dataCacheLinesTracker x).pos = x :=
    h.pos x (List.mem_append_right _ (List.mem_singleton_self x))
  have hne : l ++ [x] ≠ [] := List.append_ne_nil_of_right_ne_nil l (List.cons_ne_nil x [])
  unfold popTail popThis
  simp only [htail, hpos, if_pos]
  rw [if_neg (mt h.of_nil_iff.mp hne)]
  cases l with
  | nil =>
      have hcount : (g.lru k).lruCount = 1 := h.lruCount
      rw [if_pos hcount, if_pos hcount]
  | cons a l =>
      have hhead : (g.lru k).head = a := h.head
      have hax : x ≠ a := fun heq => by
        subst heq
        exact (List.nodup_cons.mp h.nodup).1 (List.mem_append_right _ (List.mem_singleton_self x))
      rw [hhead, if_neg hax]

theorem popTail_nil (h : EncodesLRU g k []) : g.popTail k = (none, g) := by
  unfold popTail
  dsimp only
  rw [if_pos (h.of_nil_iff.mpr rfl)]

/-- `touchThis` of the tail does nothing. -/
theorem touchThis_tail (h : EncodesLRU g k (l ++ [x])) : g.touchThis k x = g := by
  have htail : (g.lru k).tail = x := by
    rw [h.tail, List.getLastD_eq_getLast?, List.getLast?_concat]
    rfl
  unfold touchThis
  simp only
  rw [htail, if_pos (h.pos x (List.mem_append_right _ (List.mem_singleton_self x)))]

/-- `touchThis` of another line is `popThis` and `pushTail`. -/
theorem touchThis_eq (h : EncodesLRU g k (l₁ ++ x :: l₂)) (hl₂ : l₂ ≠ [])
    (hstate : (g.dataCacheLinesTracker x).state = k.state) :
    g.touchThis k x = (g.popThis k x).pushTail k x := by
  obtain ⟨htracker, hlru⟩ := popThis_eq h
  obtain ⟨-, hprev, hnext, -⟩ := linked_append.mp h.linked
  dsimp only at hprev hnext
  have hpos := h.pos x (List.mem_append_right _ (List.mem_cons_self ..))
  have hlast : ∀ d, l₂.getLastD d = l₂.getLastD 0 := fun d => by
    rw [List.getLastD_eq_getLast?, List.getLastD_eq_getLast?, List.getLast?_eq_some_getLast hl₂]
    rfl
  have htail : (g.lru k).tail = l₂.getLastD 0 := by
    rw [h.tail, getLastD_append (List.cons_ne_nil x l₂), List.getLastD_cons, hlast]
  obtain ⟨-, hnodup₂, hdis⟩ := List.nodup_append.mp h.nodup
  have hmem₂ : ∀ i ∈ l₂, i ≠ x := fun i hi heq => (List.nodup_cons.mp hnodup₂).1 (heq ▸ hi)
  have htx := hmem₂ _ (getLastD_mem hl₂)
  have hbx := hmem₂ _ (headD_mem hl₂)
  have hdis₁ : l₁ ≠ [] → l₁.getLastD 0 ≠ x ∧ l₁.getLastD 0 ≠ l₂.headD 0 ∧
      l₁.getLastD 0 ≠ l₂.getLastD 0 := fun hl₁ =>
    have hmem := getLastD_mem hl₁
    ⟨hdis _ hmem x (List.mem_cons_self ..), hdis _ hmem _ (List.mem_cons_of_mem x (headD_mem hl₂)),
      hdis _ hmem _ (List.mem_cons_of_mem x (getLastD_mem hl₂))⟩
  have hlru' := hlru k
  rw [if_pos rfl, getLastD_append hl₂, headD_append] at hlru'
  have htracker' := congrFun htracker
  simp only [unlinked] at htracker'
  have hne : (l₁ ++ l₂).length ≠ 0 := by
    rw [List.length_append]
    have := List.length_pos_iff.mpr hl₂
    omega
  have hcount : (g.lru k).lruCount = (l₁ ++ l₂).length + 1 := by
    rw [h.lruCount, List.length_append, List.length_append, List.length_cons]
    rfl
  have hlruState := h.state
  unfold touchThis pushTail
  simp only [hlru', tracker_setLine, if_pos]
  rw [if_neg hne, hpos, htail, hprev, hnext, if_neg htx.symm, (popThis_encodes h).2.pos, hpos]
  clear htracker hlast
  generalize l₂.headD 0 = b at *
  generalize l₂.getLastD 0 = t at *
  -- `x` is the head, or has a line before it
  by_cases hl₁ : l₁ = []
  · subst hl₁
    have hhead : (g.lru k).head = x := h.head
    rw [if_pos hhead.symm]
    ext1
    · funext i
      simp only [tracker_setLine, tracker_setLRU, htracker']
      by_cases hix : i = x
      · simp [hix, htx.symm, hbx.symm, hstate]
      -- the line behind `x` may be the tail as well
      · by_cases hib : i = b
        · by_cases hbt : b = t <;> simp [hib, hbx, hbt, htx, hl₂]
        · by_cases hit : i = t
          · subst hit
            simp [hix, hib]
          · simp [hix, hib, hit]
    · funext k'
      by_cases hk : k' = k
      · subst hk
        simp [hcount, hlruState]
      · simp [hk, hlru]
  -- `a` before `x`, `b` behind it, `t` the tail, which may be `b`
  · obtain ⟨hax, hab, hat⟩ := hdis₁ hl₁
    generalize l₁.getLastD 0 = a at *
    obtain ⟨c, m, rfl⟩ := List.exists_cons_of_ne_nil hl₁
    have hhead : (g.lru k).head = c := h.head
    have hcx : x ≠ c := (hdis c (List.mem_cons_self ..) x (List.mem_cons_self ..)).symm
    rw [hhead, if_neg hcx]
    ext1
    · funext i
      simp only [tracker_setLine, tracker_setLRU, htracker']
      by_cases hix : i = x
      · simp [hix, htx.symm, hbx.symm, hax.symm, hstate]
      · by_cases hib : i = b
        · by_cases hbt : b = t <;> simp [hib, hbx, hbt, htx, hl₂, hab.symm, hat.symm]
        · by_cases hit : i = t
          · subst hit
            simp [hix, hib, hat.symm]
          · by_cases hia : i = a <;> simp [hix, hib, hit, hia, hax, hab, hat]
    · funext k'
      by_cases hk : k' = k
      · subst hk
        simp [hcount, hlruState, hhead]
      · simp [hk, hlru]

end DataCacheLRUs

/-- What the LRUs are for: lists of lines without common elements. -/
@[ext] structure LineLists (cacheLines : ℕ) where
  on : LRUName → List ℕ
  nodup : ∀ k, (on k).Nodup
  lt : ∀ k, ∀ l ∈ on k, l < cacheLines
  disjoint : ∀ k k', k ≠ k' → ∀ l ∈ on k, l ∉ on k'

namespace LineLists

variable {cacheLines : ℕ} (A : LineLists cacheLines) (k : LRUName) (l : ℕ)

/-- The lists with another one for an LRU. -/
def set (ls : List ℕ) (hnodup : ls.Nodup)
    (hmem : ∀ l ∈ ls, l < cacheLines ∧ ∀ k' ≠ k, l ∉ A.on k') : LineLists cacheLines where
  on := Function.update A.on k ls
  nodup k' := by
    rw [Function.update_apply]
    split
    · exact hnodup
    · exact A.nodup k'
  lt k' l hl := by
    rw [Function.update_apply] at hl
    split at hl
    · exact (hmem l hl).1
    · exact A.lt k' l hl
  disjoint k₁ k₂ hne l hl₁ hl₂ := by
    rw [Function.update_apply] at hl₁ hl₂
    split at hl₁ <;> split at hl₂
    · exact hne (‹k₁ = k›.trans ‹k₂ = k›.symm)
    · exact (hmem l hl₁).2 k₂ ‹_› hl₂
    · exact (hmem l hl₂).2 k₁ ‹_› hl₁
    · exact A.disjoint k₁ k₂ hne l hl₁ hl₂

/-- The lists with a part of the list of an LRU. -/
def keep (ls : List ℕ) (h : ls.Sublist (A.on k)) : LineLists cacheLines :=
  A.set k ls ((A.nodup k).sublist h) fun l hl =>
    ⟨A.lt k l (h.subset hl), fun k' hk => A.disjoint k k' hk.symm l (h.subset hl)⟩

/-- A line on no list is put at the end of one. -/
def pushTail (h : l < cacheLines ∧ ∀ k, l ∉ A.on k) : LineLists cacheLines :=
  A.set k (A.on k ++ [l])
    (List.nodup_append.mpr ⟨A.nodup k, List.nodup_singleton l, fun _ hi _ hj heq =>
      h.2 k (List.mem_singleton.mp hj ▸ heq ▸ hi)⟩)
    fun i hi => (List.mem_append.mp hi).elim
      (fun hi => ⟨A.lt k i hi, fun k' hk => A.disjoint k k' hk.symm i hi⟩)
      fun hi => List.mem_singleton.mp hi ▸ ⟨h.1, fun k' _ => h.2 k'⟩

/-- A line of a list goes to its end. -/
def touch (h : l ∈ A.on k) : LineLists cacheLines :=
  A.set k ((A.on k).erase l ++ [l])
    (List.nodup_append.mpr ⟨(A.nodup k).erase l, List.nodup_singleton l, fun _ hi _ hj heq =>
      ((A.nodup k).mem_erase_iff.mp hi).1 (heq.trans (List.mem_singleton.mp hj))⟩)
    fun i hi =>
      have hi : i ∈ A.on k := (List.mem_append.mp hi).elim List.mem_of_mem_erase
        fun hi => List.mem_singleton.mp hi ▸ h
      ⟨A.lt k i hi, fun k' hk => A.disjoint k k' hk.symm i hi⟩

theorem on_set {ls : List ℕ} {hnodup : ls.Nodup}
    {hmem : ∀ l ∈ ls, l < cacheLines ∧ ∀ k' ≠ k, l ∉ A.on k'} (k' : LRUName) :
    (A.set k ls hnodup hmem).on k' = if k' = k then ls else A.on k' := Function.update_apply ..

theorem set_self {ls : List ℕ} {hnodup : ls.Nodup}
    {hmem : ∀ l ∈ ls, l < cacheLines ∧ ∀ k' ≠ k, l ∉ A.on k'} (h : ls = A.on k) :
    A.set k ls hnodup hmem = A := by
  ext1
  funext k'
  rw [on_set]
  split
  · rw [h, ‹k' = k›]
  · rfl

theorem not_mem_erase (h : l ∈ A.on k) (k' : LRUName) :
    l ∉ (A.keep k ((A.on k).erase l) List.erase_sublist).on k' := by
  rw [keep, on_set]
  split
  · exact fun hmem => ((A.nodup k).mem_erase_iff.mp hmem).1 rfl
  · exact A.disjoint k k' (Ne.symm ‹_›) l h

/-- A line goes to the end when it is taken out and put there. -/
theorem touch_eq (h : l ∈ A.on k) :
    A.touch k l h = (A.keep k ((A.on k).erase l) List.erase_sublist).pushTail k l
      ⟨A.lt k l h, A.not_mem_erase k l h⟩ := by
  ext1
  funext k'
  rw [touch, pushTail, on_set, on_set, keep, on_set, on_set, if_pos rfl]
  split <;> rfl

/-- **What the operations do to the lists**: append, remove the first, remove the last, remove,
and move to the end. -/
def perform : LRUOp → Option ℕ × LineLists cacheLines
  | .pushTail k l => (none, if h : l < cacheLines ∧ ∀ k, l ∉ A.on k then A.pushTail k l h else A)
  | .popHead k => ((A.on k).head?, A.keep k (A.on k).tail (List.tail_sublist _))
  | .popTail k => ((A.on k).getLast?, A.keep k (A.on k).dropLast (List.dropLast_sublist _))
  | .popThis k l => (none, A.keep k ((A.on k).erase l) List.erase_sublist)
  | .touchThis k l => (none, if h : l ∈ A.on k then A.touch k l h else A)

/-- The lists at the start: all lines are free. -/
def up (cacheLines : ℕ) : LineLists cacheLines where
  on k := if k = .Free then List.range cacheLines else []
  nodup k := by
    split
    · exact List.nodup_range
    · exact List.nodup_nil
  lt k l hl := by
    split at hl
    · exact List.mem_range.mp hl
    · cases hl
  disjoint k k' hne l hl hl' := by
    split at hl <;> split at hl'
    · exact hne (‹k = _›.trans ‹k' = _›.symm)
    · cases hl'
    · cases hl
    · cases hl

end LineLists

namespace DataCacheLRUs

/-- **The array stands for the lists.** -/
structure Encodes {cacheLines : ℕ} (g : DataCacheLRUs) (A : LineLists cacheLines) : Prop where
  lru : ∀ k, EncodesLRU g k (A.on k)
  pos : ∀ l < cacheLines, (g.dataCacheLinesTracker l).pos = l
  on : ∀ l < cacheLines, ∀ k, (g.dataCacheLinesTracker l).state = k.state ↔ l ∈ A.on k
  notOn : ∀ l < cacheLines,
    (g.dataCacheLinesTracker l).state = .NotNotOnLRU ↔ ∀ k, l ∉ A.on k

variable {cacheLines : ℕ} {A : LineLists cacheLines} {s : CacheLineState}

/-- A list depends only on its own head and on the links of its lines. -/
theorem EncodesLRU.congr (h : EncodesLRU g k l) (hlru : g'.lru k = g.lru k)
    (htracker : ∀ i ∈ l, g'.dataCacheLinesTracker i = g.dataCacheLinesTracker i) :
    EncodesLRU g' k l where
  state := by rw [hlru, h.state]
  lruCount := by rw [hlru, h.lruCount]
  head := by rw [hlru, h.head]
  tail := by rw [hlru, h.tail]
  linked := h.linked.congr (fun i hi => by simp only [htracker i hi])
    fun i hi => by simp only [htracker i hi]
  pos i hi := by rw [htracker i hi, h.pos i hi]
  nodup := h.nodup

/-- An operation has changed one list, by one line. -/
theorem Encodes.set (h : Encodes g A) (hm : Moved g g' k (A.on k) x s) (hlru : EncodesLRU g' k l)
    {hnodup : l.Nodup} {hmem : ∀ i ∈ l, i < cacheLines ∧ ∀ k' ≠ k, i ∉ A.on k'}
    (hl : ∀ i ≠ x, (i ∈ l ↔ i ∈ A.on k)) (hx : ∀ k' ≠ k, x ∉ A.on k')
    (hself : s = k.state ∧ x ∈ l ∨ s = .NotNotOnLRU ∧ x ∉ l) :
    Encodes g' (A.set k l hnodup hmem) := by
  have hon : ∀ k', (A.set k l hnodup hmem).on k' = if k' = k then l else A.on k' := A.on_set k
  have hmem' : ∀ i ≠ x, ∀ k', (i ∈ (A.set k l hnodup hmem).on k' ↔ i ∈ A.on k') := by
    intro i hi k'
    rw [hon k']
    split
    · exact ‹k' = k› ▸ hl i hi
    · rfl
  refine ⟨fun k' => ?_, fun i hi => (hm.pos i).trans (h.pos i hi), fun i hi k' => ?_,
    fun i hi => ?_⟩
  · rw [hon k']
    split
    · exact ‹k' = k› ▸ hlru
    -- the other lists have the same lines with the same links
    · refine (h.lru k').congr (hm.lru k' ‹_›) fun i hi => hm.others i ?_ ?_
      · exact A.disjoint k' k ‹_› i hi
      · exact fun heq => hx k' ‹_› (heq ▸ hi)
  · by_cases hix : i = x
    · subst hix
      rw [hm.self, hon k']
      -- `x` is on the list now, or on none
      rcases hself with ⟨rfl, hin⟩ | ⟨rfl, hout⟩
      · split
        · exact iff_of_true (‹k' = k› ▸ rfl) hin
        · exact iff_of_false (fun heq => ‹¬k' = k› (LRUName.state_injective heq.symm)) (hx k' ‹_›)
      · split
        · exact iff_of_false (LRUName.state_ne k').symm hout
        · exact iff_of_false (LRUName.state_ne k').symm (hx k' ‹_›)
    · rw [hm.state i hix, hmem' i hix k', h.on i hi k']
  · by_cases hix : i = x
    · subst hix
      rw [hm.self]
      -- the same once more, for the lines on no list
      rcases hself with ⟨rfl, hin⟩ | ⟨rfl, hout⟩
      · refine iff_of_false (LRUName.state_ne k) fun hall => hall k ?_
        rwa [hon k, if_pos rfl]
      · refine iff_of_true rfl fun k' => ?_
        rw [hon k']
        split
        · exact hout
        · exact hx k' ‹_›
    · rw [hm.state i hix, h.notOn i hi]
      exact forall_congr' fun k' => not_congr (hmem' i hix k').symm

/-- `popThis` of a line of the list. -/
theorem Encodes.popThis (h : Encodes g A) (hx : x ∈ A.on k) :
    Encodes (g.popThis k x) (A.keep k ((A.on k).erase x) List.erase_sublist) := by
  obtain ⟨l₁, l₂, hl⟩ := List.append_of_mem hx
  have hnodup := A.nodup k
  rw [hl] at hnodup
  have hx₁ : x ∉ l₁ := fun hmem =>
    (List.nodup_append.mp hnodup).2.2 x hmem x (List.mem_cons_self ..) rfl
  have herase : (A.on k).erase x = l₁ ++ l₂ := by
    rw [hl, List.erase_append_right _ hx₁, List.erase_cons_head]
  obtain ⟨hlru, hm⟩ := popThis_encodes (hl ▸ h.lru k)
  rw [← herase] at hlru
  rw [← hl] at hm
  refine h.set hm hlru (fun i hi => ?_) (fun k' hk => A.disjoint k k' hk.symm x hx)
    (.inr ⟨rfl, fun hmem => ?_⟩)
  · exact List.mem_erase_of_ne hi
  · exact ((A.nodup k).mem_erase_iff.mp hmem).1 rfl

/-- `pushTail` of a line on no list. -/
theorem Encodes.pushTail (h : Encodes g A) (hx : x < cacheLines ∧ ∀ k, x ∉ A.on k) :
    Encodes (g.pushTail k x) (A.pushTail k x hx) := by
  obtain ⟨hlru, hm⟩ := pushTail_encodes (h.lru k) (h.pos x hx.1) (hx.2 k)
  refine h.set hm hlru (fun i hi => ?_) (fun k' _ => hx.2 k') (.inl ⟨rfl, ?_⟩)
  · rw [List.mem_append, List.mem_singleton, or_iff_left hi]
  · exact List.mem_append_right _ (List.mem_singleton_self x)

/-- `touchThis` of a line of the list. -/
theorem Encodes.touchThis (h : Encodes g A) (hx : x ∈ A.on k) :
    Encodes (g.touchThis k x) (A.touch k x hx) := by
  obtain ⟨l₁, l₂, hl⟩ := List.append_of_mem hx
  by_cases hl₂ : l₂ = []
  · subst hl₂
    have hxl : x ∉ l₁ := fun hmem => (List.nodup_append.mp (hl ▸ A.nodup k)).2.2 x hmem x
      (List.mem_singleton_self x) rfl
    have hA : A.touch k x hx = A := A.set_self k (by
      rw [hl, List.erase_append_right _ hxl, List.erase_cons_head, List.append_nil])
    rw [touchThis_tail (hl ▸ h.lru k), hA]
    exact h
  · have hstate := (h.on x (A.lt k x hx) k).mpr hx
    rw [touchThis_eq (hl ▸ h.lru k) hl₂ hstate, A.touch_eq k x hx]
    exact (h.popThis hx).pushTail _

/-- **An operation on the array is the operation on the lists.** -/
theorem Encodes.perform (h : Encodes g A) {op : LRUOp} (hop : Allowed cacheLines g op) :
    (g.perform op).1 = (A.perform op).1 ∧ Encodes (g.perform op).2 (A.perform op).2 := by
  cases op with
  | pushTail k x =>
      have hx : x < cacheLines ∧ ∀ k, x ∉ A.on k := ⟨hop.1, (h.notOn x hop.1).mp hop.2⟩
      refine ⟨rfl, ?_⟩
      simp only [LineLists.perform, dif_pos hx]
      exact h.pushTail hx
  | popHead k =>
      show (g.popHead k).1 = (A.on k).head? ∧
        Encodes (g.popHead k).2 (A.keep k (A.on k).tail (List.tail_sublist _))
      obtain hl | ⟨x, l, hl⟩ : A.on k = [] ∨ ∃ x l, A.on k = x :: l := by
        cases A.on k with
        | nil => exact .inl rfl
        | cons x l => exact .inr ⟨x, l, rfl⟩
      -- from an empty list nothing is popped
      · have hA : A.keep k (A.on k).tail (List.tail_sublist _) = A := A.set_self k (by rw [hl]; rfl)
        rw [popHead_nil (hl ▸ h.lru k), hA]
        exact ⟨by rw [hl]; rfl, h⟩
      -- the head is popped as any other line is
      · have hx : x ∈ A.on k := hl ▸ List.mem_cons_self ..
        have hA : A.keep k (A.on k).tail (List.tail_sublist _) =
            A.keep k ((A.on k).erase x) List.erase_sublist := by
          simp only [hl, List.tail_cons, List.erase_cons_head]
        rw [popHead_eq (hl ▸ h.lru k), hA]
        exact ⟨by rw [hl]; rfl, h.popThis hx⟩
  | popTail k =>
      show (g.popTail k).1 = (A.on k).getLast? ∧
        Encodes (g.popTail k).2 (A.keep k (A.on k).dropLast (List.dropLast_sublist _))
      rcases List.eq_nil_or_concat (A.on k) with hl | ⟨l, x, hl⟩
      · have hA : A.keep k (A.on k).dropLast (List.dropLast_sublist _) = A :=
          A.set_self k (by rw [hl]; rfl)
        rw [popTail_nil (hl ▸ h.lru k), hA]
        exact ⟨by rw [hl]; rfl, h⟩
      · rw [List.concat_eq_append] at hl
        -- the tail is popped as any other line is
        have hx : x ∈ A.on k := hl ▸ List.mem_append_right _ (List.mem_singleton_self x)
        have hxl : x ∉ l := fun hmem => (List.nodup_append.mp (hl ▸ A.nodup k)).2.2 x hmem x
          (List.mem_singleton_self x) rfl
        have hA : A.keep k (A.on k).dropLast (List.dropLast_sublist _) =
            A.keep k ((A.on k).erase x) List.erase_sublist := by
          simp only [hl, List.dropLast_concat, List.erase_append_right _ hxl, List.erase_cons_head,
            List.append_nil]
        rw [popTail_eq (hl ▸ h.lru k), hA]
        exact ⟨by rw [hl, List.getLast?_concat], h.popThis hx⟩
  | popThis k x => exact ⟨rfl, h.popThis ((h.on x hop.1 k).mp hop.2)⟩
  | touchThis k x =>
      -- a touch is a pop and a push to the tail
      have hx : x ∈ A.on k := (h.on x hop.1 k).mp hop.2
      refine ⟨rfl, ?_⟩
      simp only [LineLists.perform, dif_pos hx]
      exact h.touchThis hx

/-- The loop of `dataCacheUp` has put the first `n` lines on the free LRU. -/
structure Filled (g : DataCacheLRUs) (n : ℕ) : Prop where
  free : EncodesLRU g .Free (List.range n)
  pos : ∀ l < n, (g.dataCacheLinesTracker l).pos = l
  state : ∀ l < n, (g.dataCacheLinesTracker l).state = .Free

/-- A turn of the loop. -/
theorem Filled.addLine {n : ℕ} (h : Filled g n) : Filled (g.addLine n) (n + 1) := by
  have hn : n ∉ List.range n := fun hmem => absurd (List.mem_range.mp hmem) n.lt_irrefl
  have hlru : EncodesLRU (g.setLine n fun t => { t with pos := n, state := .NotNotOnLRU }) .Free
      (List.range n) := h.free.congr rfl fun i hi => by
    have hin : i ≠ n := fun heq => hn (heq ▸ hi)
    rw [tracker_setLine, if_neg hin]
  obtain ⟨hfree, hm⟩ := pushTail_encodes (x := n) hlru (by simp) hn
  refine ⟨List.range_succ ▸ hfree, fun l hl => (hm.pos l).trans ?_, fun l hl => ?_⟩
  · rw [tracker_setLine]
    split
    · exact ‹l = n›.symm
    · exact h.pos l (by omega)
  · by_cases hln : l = n
    · exact hln ▸ hm.self
    · rw [DataCacheLRUs.addLine, hm.state l hln, tracker_setLine, if_neg hln]
      exact h.state l (by omega)

/-- The start puts all lines on the free list, in order. -/
theorem filled (n : ℕ) :
    Filled ((List.range n).foldl DataCacheLRUs.addLine (zero.setLRU .Free (newLRU .Free))) n := by
  induction n with
  | zero =>
      refine ⟨⟨rfl, rfl, rfl, rfl, trivial, fun i hi => ?_, List.nodup_nil⟩, fun l hl => ?_,
        fun l hl => ?_⟩
      · cases hi
      · exact absurd hl l.not_lt_zero
      · exact absurd hl l.not_lt_zero
  | succ n ih =>
      rw [List.range_succ, List.foldl_concat]
      exact ih.addLine

/-- **`dataCacheUp` starts with all lines on the free LRU.** -/
theorem dataCacheUp_encodes (cacheLines : ℕ) :
    Encodes (dataCacheUp cacheLines) (LineLists.up cacheLines) := by
  have h := filled cacheLines
  have hfree : EncodesLRU (dataCacheUp cacheLines) .Free (List.range cacheLines) :=
    h.free.congr rfl fun i _ => rfl
  refine ⟨fun k => ?_, h.pos, fun l hl k => ?_, fun l hl => ?_⟩
  · cases k with
    | Free => exact hfree
    | _ => exact ⟨rfl, rfl, rfl, rfl, trivial, fun i hi => (List.not_mem_nil hi).elim,
        List.nodup_nil⟩
  · refine (Eq.congr_left (h.state l hl)).trans ?_
    cases k with
    | Free => exact iff_of_true rfl (List.mem_range.mpr hl)
    | _ => exact iff_of_false CacheLineState.noConfusion List.not_mem_nil
  · refine (Eq.congr_left (h.state l hl)).trans ?_
    exact iff_of_false CacheLineState.noConfusion fun hall => hall .Free (List.mem_range.mpr hl)

/-- **The LRUs in every state that `dataCacheUp` and the operations reach.**  The array stands for
five lists without common elements, and these are what the operations make of the lists of the
start; a line names the LRU that it is on; an LRU stands for no other list; and the next operation
returns the line that it should, and does to the lists what it should. -/
theorem lrus_encode_lists {ops : List LRUOp}
    (h : exec (step cacheLines) (dataCacheUp cacheLines) ops = some g) :
    ∃ A : LineLists cacheLines,
      exec (fun A op => some (A.perform op).2) (LineLists.up cacheLines) ops = some A ∧
      (∀ k, EncodesLRU g k (A.on k) ∧ ∀ l, EncodesLRU g k l → l = A.on k) ∧
      (∀ l < cacheLines,
        ((g.dataCacheLinesTracker l).state = .NotNotOnLRU ∧ ∀ k, l ∉ A.on k) ∨
        ∃ k, (g.dataCacheLinesTracker l).state = k.state ∧ l ∈ A.on k ∧ ∀ k' ≠ k, l ∉ A.on k') ∧
      ∀ op, Allowed cacheLines g op →
        (g.perform op).1 = (A.perform op).1 ∧ Encodes (g.perform op).2 (A.perform op).2 := by
  have hstep : ∀ (g : DataCacheLRUs) (A : LineLists cacheLines) (op : LRUOp) (g' : DataCacheLRUs),
      Encodes g A → True → step cacheLines g op = some g' →
      ∃ A', some (A.perform op).2 = some A' ∧ Encodes g' A' := by
    intro g A op g' henc _ hstep
    unfold step at hstep
    split at hstep
    · exact ⟨_, rfl, Option.some.inj hstep ▸ (henc.perform ‹_›).2⟩
    · cases hstep
  obtain ⟨A, hA, henc⟩ := exec_simulation hstep (Always.of_mem (fun _ _ _ => trivial) _) h
    (dataCacheUp_encodes cacheLines)
  refine ⟨A, hA, fun k => ⟨henc.lru k, fun l hl => hl.unique (henc.lru k)⟩, fun l hl => ?_,
    fun op hop => henc.perform hop⟩
  by_cases hon : ∃ k, l ∈ A.on k
  · obtain ⟨k, hk⟩ := hon
    exact .inr ⟨k, (henc.on l hl k).mpr hk, hk, fun k' hne => A.disjoint k k' hne.symm l hk⟩
  · rw [not_exists] at hon
    exact .inl ⟨(henc.notOn l hl).mpr hon, hon⟩

/-- Line 0 goes to another LRU alone, and line 1 to the end of the first one. -/
theorem lrus_encode_lists_line_zero : ∃ g, exec (step 3) (dataCacheUp 3)
      [.popHead .Free, .pushTail .Inbound 0, .touchThis .Free 1] = some g ∧
    ∃ A : LineLists 3, A.on .Free = [2, 1] ∧ A.on .Inbound = [0] ∧
      (g.perform (.popTail .Inbound)).1 = some 0 := by
  obtain ⟨g, hg⟩ := Option.isSome_iff_exists.mp (show (exec (step 3) (dataCacheUp 3)
    [.popHead .Free, .pushTail .Inbound 0, .touchThis .Free 1]).isSome = true by decide)
  obtain ⟨A, hA, -, -, hop⟩ := lrus_encode_lists hg
  have hon : ∀ k, A.on k = if k = .Free then [2, 1] else if k = .Inbound then [0] else [] := by
    obtain rfl := Option.some.inj hA
    decide
  refine ⟨g, hg, A, hon .Free, hon .Inbound, ?_⟩
  rw [(hop (.popTail .Inbound) trivial).1]
  exact congrArg List.getLast? (hon .Inbound)

end DataCacheLRUs

end MultiStorageFileSystem
