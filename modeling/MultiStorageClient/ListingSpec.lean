/-
MultiStorageClient/ListingSpec.lean

The recursive listing yields the keys under its path, sorted and in bounds.

Each heap item stands for a set of keys: an object for its own, a prefix for
all keys below it.  A prefix precedes all its keys, and an item that follows
a prefix without lying below it follows all its keys (prefixes are intervals
of the lexicographic order).  So the smallest item of the heap always comes
first, also when a leaf prefix is yielded without passing through the heap,
and expanding a prefix replaces it by items that stand for the same keys.

Every expansion replaces an item by finitely many smaller ones, so the loop
ends: the argument is the well-foundedness of the multiset order.
-/
import MultiStorageClient.Listing

namespace MultiStorageClient

open PyStr

/-! ### Keys and directories -/

/-- The prefix that all keys below a listing path have. -/
def dirPrefix (path : PyStr) : PyStr := path ++ sep path

/-- A path that ends where a component of a key may begin. -/
def IsDirPath (d : PyStr) : Prop := d = [] ∨ ∃ u, d = u ++ ['/']

theorem isDirPath_dirPrefix (path : PyStr) : IsDirPath (dirPrefix path) := by
  rcases append_sep_getLast? path with h | h
  · exact Or.inl h
  · obtain ⟨u, hu⟩ := List.getLast?_eq_some_iff.mp h
    exact Or.inr ⟨u, hu⟩

theorem dirPrefix_slash (u : PyStr) : dirPrefix (u ++ ['/']) = u ++ ['/'] := by
  simp [dirPrefix, sep, endswith]

/-- No path component is empty. -/
def NoEmptyComponent (k : PyStr) : Prop := ∀ c ∈ k.splitOn '/', c ≠ []

/-- Below the directory `d` every component of the key is non-empty. -/
def ProperBelow (d k : PyStr) : Prop :=
  ∀ e r, IsDirPath e → d <+: e → k = e ++ r → r ≠ [] ∧ r.head? ≠ some '/'

/-- A path without an empty component does not start with a slash. -/
theorem NoEmptyComponent.head {r : PyStr} (h : NoEmptyComponent r) :
    r ≠ [] ∧ r.head? ≠ some '/' := by
  constructor
  · rintro rfl
    exact h [] (by simp) rfl
  · intro hhead
    obtain ⟨t, rfl⟩ := List.head?_eq_some_iff.mp hhead
    have hsplit : ([] ++ '/' :: t).splitOn '/' = ([] : PyStr).splitOn '/' ++ t.splitOn '/' :=
      List.splitOn_append_cons_self [] t
    exact h [] (by rw [show '/' :: t = [] ++ '/' :: t from rfl, hsplit]; simp) rfl

theorem NoEmptyComponent.properBelow {k : PyStr} (h : NoEmptyComponent k) (d : PyStr) :
    ProperBelow d k := by
  rintro e r (rfl | ⟨u, rfl⟩) - rfl
  · exact h.head
  · refine NoEmptyComponent.head fun c hc => h c ?_
    rw [List.append_assoc, List.singleton_append, List.splitOn_append_cons_self]
    exact List.mem_append_right _ hc

/-- A key below a directory is an object of it or lies below a child. -/
theorem ProperBelow.split {d k : PyStr} (h : ProperBelow d k) {e : PyStr} (he : IsDirPath e)
    (hd : d <+: e) (hk : e <+: k) :
    (∃ c, c ≠ [] ∧ '/' ∉ c ∧ k = e ++ c) ∨
      ∃ c, c ≠ [] ∧ '/' ∉ c ∧ e ++ c ++ ['/'] <+: k := by
  obtain ⟨r, rfl⟩ := hk
  obtain ⟨hne, hhead⟩ := h e r he hd rfl
  by_cases hmem : '/' ∈ r
  · obtain ⟨c, t, rfl, hc⟩ := List.eq_append_cons_of_mem hmem
    refine Or.inr ⟨c, ?_, hc, ⟨t, by simp⟩⟩
    rintro rfl
    exact hhead rfl
  · exact Or.inl ⟨r, hne, hmem, rfl⟩

/-! ### One level of a listing -/

/-- `q` is the prefix of a direct child directory of `d`, where `P` says
which directories there are. -/
def IsChildPrefix (P : PyStr → Prop) (d q : PyStr) : Prop :=
  (∃ c, c ≠ [] ∧ '/' ∉ c ∧ q = d ++ c ++ ['/']) ∧ P q

/-- `k` is a file of the directory `d`. -/
def IsChildFile (K : Finset PyStr) (d k : PyStr) : Prop :=
  k ∈ K ∧ ∃ c, c ≠ [] ∧ '/' ∉ c ∧ k = d ++ c

/-- A shallow listing of the directory `d`: its child prefixes once each, and
its objects sorted by key. -/
structure ShallowOk (K : Finset PyStr) (P : PyStr → Prop) (d : PyStr) (r : ShallowListResult) :
    Prop where
  prefixes_nodup : r.1.Nodup
  mem_prefixes : ∀ q, q ∈ r.1 ↔ IsChildPrefix P d q
  objects_sorted : (r.2.map (·.key)).Pairwise (· < ·)
  mem_objects : ∀ k, k ∈ r.2.map (·.key) ↔ IsChildFile K d k

theorem IsChildPrefix.slash {P : PyStr → Prop} {d q : PyStr} (h : IsChildPrefix P d q) :
    ∃ u, q = u ++ ['/'] := by
  obtain ⟨⟨c, -, -, rfl⟩, -⟩ := h
  exact ⟨d ++ c, rfl⟩

theorem IsChildPrefix.isPrefix {P : PyStr → Prop} {d q : PyStr} (h : IsChildPrefix P d q) :
    d <+: q := by
  obtain ⟨⟨c, -, -, rfl⟩, -⟩ := h
  exact ⟨c ++ ['/'], by simp⟩

theorem IsChildPrefix.length_lt {P : PyStr → Prop} {d q : PyStr} (h : IsChildPrefix P d q) :
    d.length < q.length := by
  obtain ⟨⟨c, -, -, rfl⟩, -⟩ := h
  simp

/-- Below a child are the paths that start with its name and a slash. -/
theorem slash_isPrefix_iff {d c c' t : PyStr} (hc : '/' ∉ c) (hc' : '/' ∉ c') :
    ¬ d ++ c ++ ['/'] <+: d ++ c' ∧ (d ++ c ++ ['/'] <+: d ++ c' ++ '/' :: t → c = c') := by
  constructor
  · rintro ⟨u, hu⟩
    simp only [List.append_assoc, List.append_cancel_left_eq] at hu
    exact hc' (by rw [← hu]; simp)
  · rintro ⟨u, hu⟩
    simp only [List.append_assoc, List.append_cancel_left_eq, List.singleton_append] at hu
    have hsplit := congrArg (List.splitOn '/') hu
    rw [List.splitOn_append_cons_self_of_not_mem hc,
      List.splitOn_append_cons_self_of_not_mem hc'] at hsplit
    exact (List.cons.inj hsplit).1

/-- No child prefix starts another one. -/
theorem IsChildPrefix.eq_of_isPrefix {P : PyStr → Prop} {d q q' : PyStr}
    (h : IsChildPrefix P d q) (h' : IsChildPrefix P d q') (hp : q <+: q') : q = q' := by
  obtain ⟨⟨c, -, hc, rfl⟩, -⟩ := h
  obtain ⟨⟨c', -, hc', rfl⟩, -⟩ := h'
  rw [(slash_isPrefix_iff hc hc').2 hp]

/-- No child prefix starts a file of the directory. -/
theorem IsChildPrefix.not_isPrefix {P : PyStr → Prop} {K : Finset PyStr}
    {d q k : PyStr} (h : IsChildPrefix P d q) (h' : IsChildFile K d k) : ¬ q <+: k := by
  obtain ⟨⟨c, -, hc, rfl⟩, -⟩ := h
  obtain ⟨-, c', -, hc', rfl⟩ := h'
  exact (slash_isPrefix_iff (t := []) hc hc').1

/-! ### The heap -/

/-- The keys an item stands for. -/
def covers (K : Finset PyStr) : ListingHeapItem → PyStr → Prop
  | .child p, k => k ∈ K ∧ p <+: k
  | .object o, k => k = o.key

/-- Two items that stand for different keys, neither below the other. -/
structure Apart (a b : ListingHeapItem) : Prop where
  ne : a.key ≠ b.key
  left : ∀ p, a = .child p → ¬ p <+: b.key
  right : ∀ p, b = .child p → ¬ p <+: a.key

theorem Apart.symm {a b : ListingHeapItem} (h : Apart a b) : Apart b a :=
  ⟨h.ne.symm, h.right, h.left⟩

instance : Std.Symm Apart := ⟨fun _ _ h => h.symm⟩

/-- An item of a listing below the directory `D`. -/
structure ItemOk (K : Finset PyStr) (P : PyStr → Prop) (D : PyStr) (x : ListingHeapItem) :
    Prop where
  below : D <+: x.key
  dir : ∀ p, x = .child p → P p ∧ ∃ u, p = u ++ ['/']
  file : ∀ o, x = .object o → o.key ∈ K

/-- The invariant of the listing heap. -/
structure HeapOk (K : Finset PyStr) (P : PyStr → Prop) (D : PyStr) (heap : List ListingHeapItem) :
    Prop where
  sorted : heap.Pairwise fun a b => a.key ≤ b.key
  apart : heap.Pairwise Apart
  items : ∀ x ∈ heap, ItemOk K P D x

variable {K : Finset PyStr} {P : PyStr → Prop} {D : PyStr} {b : Bounds}

theorem key_le_of_covers {x : ListingHeapItem} {k : PyStr} (h : covers K x k) : x.key ≤ k := by
  cases x with
  | child p => exact le_of_isPrefix h.2
  | object o => exact le_of_eq h.symm

theorem HeapOk.tail {x : ListingHeapItem} {heap : List ListingHeapItem}
    (h : HeapOk K P D (x :: heap)) : HeapOk K P D heap :=
  ⟨(List.pairwise_cons.mp h.sorted).2, (List.pairwise_cons.mp h.apart).2,
    fun y hy => h.items y (List.mem_cons_of_mem x hy)⟩

/-- The smallest item precedes every key of the others. -/
theorem HeapOk.head_lt {x y : ListingHeapItem} {heap : List ListingHeapItem} {k : PyStr}
    (h : HeapOk K P D (x :: heap)) (hy : y ∈ heap) (hk : covers K y k) : x.key < k := by
  have hle := (List.pairwise_cons.mp h.sorted).1 y hy
  have hne := ((List.pairwise_cons.mp h.apart).1 y hy).ne
  exact lt_of_lt_of_le (lt_of_le_of_ne hle hne) (key_le_of_covers hk)

/-- All keys below a smallest prefix precede every key of the others. -/
theorem HeapOk.below_lt {p : PyStr} {y : ListingHeapItem} {heap : List ListingHeapItem}
    {j k : PyStr} (h : HeapOk K P D (.child p :: heap)) (hj : p <+: j) (hy : y ∈ heap)
    (hk : covers K y k) : j < k := by
  have hle := (List.pairwise_cons.mp h.sorted).1 y hy
  have hnot := ((List.pairwise_cons.mp h.apart).1 y hy).left p rfl
  exact lt_of_lt_of_le (lt_of_isPrefix_of_not_isPrefix hj hle hnot) (key_le_of_covers hk)

instance : Std.Total fun a b : ListingHeapItem => a.key ≤ b.key := ⟨fun a b => le_total a.key b.key⟩

instance : IsTrans ListingHeapItem fun a b => a.key ≤ b.key := ⟨fun _ _ _ => le_trans⟩

theorem heappush_fold_perm (xs heap : List ListingHeapItem) :
    (xs.foldl heappush heap).Perm (xs ++ heap) := by
  induction xs generalizing heap with
  | nil => rfl
  | cons x xs ih =>
      refine (ih _).trans (((List.perm_orderedInsert _ x heap).append_left xs).trans ?_)
      exact List.perm_middle

theorem heappush_fold_sorted (xs : List ListingHeapItem) {heap : List ListingHeapItem}
    (h : heap.Pairwise fun a b => a.key ≤ b.key) :
    (xs.foldl heappush heap).Pairwise fun a b => a.key ≤ b.key := by
  induction xs generalizing heap with
  | nil => exact h
  | cons x xs ih => exact ih (h.orderedInsert x heap)

/-! ### Expanding a prefix -/

/-- The items for the children of a directory. -/
def childItems (b : Bounds) (r : ShallowListResult) : List ListingHeapItem :=
  (b.prune r.1).map .child ++ r.2.map .object

variable {d : PyStr} {r : ShallowListResult}

theorem mem_childItems (h : ShallowOk K P d r) {x : ListingHeapItem} (hx : x ∈ childItems b r) :
    (∃ q, x = .child q ∧ IsChildPrefix P d q) ∨ ∃ o, x = .object o ∧ IsChildFile K d o.key := by
  rcases List.mem_append.mp hx with hx | hx
  · obtain ⟨q, hq, rfl⟩ := List.mem_map.mp hx
    exact Or.inl ⟨q, rfl, (h.mem_prefixes q).mp (List.mem_filter.mp hq).1⟩
  · obtain ⟨o, ho, rfl⟩ := List.mem_map.mp hx
    exact Or.inr ⟨o, rfl, (h.mem_objects o.key).mp (List.mem_map_of_mem ho)⟩

/-- The children of a directory are items below it. -/
theorem childItems_itemOk (h : ShallowOk K P d r) (hD : D <+: d) {x : ListingHeapItem}
    (hx : x ∈ childItems b r) : ItemOk K P D x ∧ d <+: x.key := by
  rcases mem_childItems h hx with ⟨q, rfl, hq⟩ | ⟨o, rfl, ho⟩
  · refine ⟨⟨hD.trans hq.isPrefix, fun p hp => ?_, fun o ho => by cases ho⟩, hq.isPrefix⟩
    obtain rfl : q = p := by simpa using hp
    exact ⟨hq.2, hq.slash⟩
  · obtain ⟨c, -, -, hc⟩ := ho.2
    have hd : d <+: o.key := ⟨c, hc.symm⟩
    refine ⟨⟨hD.trans hd, (fun p hp => by cases hp), fun o' ho' => ?_⟩, hd⟩
    obtain rfl : o = o' := by simpa using ho'
    exact ho.1

/-- The children of a directory are apart. -/
theorem childItems_apart (h : ShallowOk K P d r) : (childItems b r).Pairwise Apart := by
  have hprune : ∀ q ∈ b.prune r.1, IsChildPrefix P d q :=
    fun q hq => (h.mem_prefixes q).mp (List.mem_filter.mp hq).1
  have hobj : ∀ o ∈ r.2, IsChildFile K d o.key :=
    fun o ho => (h.mem_objects o.key).mp (List.mem_map_of_mem ho)
  rw [childItems, List.pairwise_append]
  refine ⟨?_, ?_, ?_⟩
  · rw [List.pairwise_map]
    refine List.Pairwise.imp_of_mem (fun hq hq' hne => ?_) (h.prefixes_nodup.filter _)
    rename_i q q'
    have hcq := hprune q hq
    have hcq' := hprune q' hq'
    refine ⟨hne, fun p hp hpre => ?_, fun p hp hpre => ?_⟩
    · obtain rfl : q = p := by simpa using hp
      exact hne (hcq.eq_of_isPrefix hcq' hpre)
    · obtain rfl : q' = p := by simpa using hp
      exact hne (hcq'.eq_of_isPrefix hcq hpre).symm
  · rw [List.pairwise_map]
    have hsorted := List.pairwise_map.mp h.objects_sorted
    exact hsorted.imp fun hlt => ⟨hlt.ne, (fun p hp => by cases hp), (fun p hp => by cases hp)⟩
  · intro x hx y hy
    obtain ⟨q, hq, rfl⟩ := List.mem_map.mp hx
    obtain ⟨o, ho, rfl⟩ := List.mem_map.mp hy
    have hnot := (hprune q hq).not_isPrefix (hobj o ho)
    refine ⟨fun heq => hnot ?_, fun p hp => ?_, fun p hp => by cases hp⟩
    · exact ⟨[], by rw [List.append_nil]; exact heq⟩
    · obtain rfl : q = p := by simpa using hp
      exact hnot

/-- The children of a prefix lie apart from the rest of the heap. -/
theorem HeapOk.apart_children {p : PyStr} {x y : ListingHeapItem} {heap : List ListingHeapItem}
    (h : HeapOk K P D (.child p :: heap)) (hx : p <+: x.key) (hy : y ∈ heap) : Apart x y := by
  have hpy := (List.pairwise_cons.mp h.apart).1 y hy
  have hnot : ¬ p <+: y.key := hpy.left p rfl
  refine ⟨fun heq => hnot (heq ▸ hx), fun q hq hpre => ?_, fun q hq hpre => ?_⟩
  · subst hq
    exact hnot (hx.trans hpre)
  · -- two prefixes of one key are comparable
    subst hq
    rcases List.prefix_or_prefix_of_prefix hpre hx with hqp | hpq
    · exact hpy.right q rfl hqp
    · exact hnot hpq

/-- Replacing a prefix by its children. -/
theorem HeapOk.expand {p : PyStr} {heap heap' : List ListingHeapItem}
    (h : HeapOk K P D (.child p :: heap)) (hr : ShallowOk K P p r)
    (hperm : heap'.Perm (childItems b r ++ heap))
    (hsorted : heap'.Pairwise fun a b => a.key ≤ b.key) : HeapOk K P D heap' := by
  have hD : D <+: p := (h.items _ List.mem_cons_self).below
  refine ⟨hsorted, ?_, fun x hx => ?_⟩
  · rw [hperm.pairwise_iff Apart.symm, List.pairwise_append]
    refine ⟨childItems_apart hr, h.tail.apart, fun x hx y hy => ?_⟩
    exact h.apart_children (childItems_itemOk hr hD hx).2 hy
  · rcases List.mem_append.mp (hperm.mem_iff.mp hx) with hx | hx
    · exact (childItems_itemOk hr hD hx).1
    · exact h.tail.items x hx

/-- The heap the listing starts with. -/
theorem heapOk_heapify (hr : ShallowOk K P D r) : HeapOk K P D (heapify (childItems b r)) where
  sorted := List.pairwise_insertionSort _ _
  apart := ((List.perm_insertionSort _ _).pairwise_iff Apart.symm).mpr (childItems_apart hr)
  items := fun x hx => by
    have hx := (List.perm_insertionSort _ _).mem_iff.mp hx
    exact (childItems_itemOk hr (List.prefix_refl D) hx).1

/-! ### The bounds -/

/-- The keys within the bounds. -/
def Bounds.Includes (b : Bounds) (k : PyStr) : Prop := b.skips k = false ∧ b.ends k = false

theorem Bounds.ends_mono {j k : PyStr} (h : b.ends j = true) (hjk : j ≤ k) : b.ends k = true := by
  unfold Bounds.ends at *
  split at h
  · simp only [Bool.and_eq_true, bne_iff_ne, decide_eq_true_eq] at h ⊢
    exact ⟨h.1, h.2.trans_le hjk⟩
  · cases h

/-- On sorted objects the loop with its `break` is a filter. -/
theorem Bounds.mem_emit {os : List ObjectMetadata} (h : (os.map (·.key)).Pairwise (· < ·))
    {o : ObjectMetadata} : o ∈ b.emit os ↔ o ∈ os ∧ b.Includes o.key := by
  induction os with
  | nil => simp [Bounds.emit]
  | cons o' os ih =>
      obtain ⟨hhead, htail⟩ := List.pairwise_cons.mp h
      have ih := ih htail
      rw [Bounds.emit]
      split
      · rename_i hskip
        rw [ih, List.mem_cons]
        constructor
        · exact fun ⟨ho, hin⟩ => ⟨Or.inr ho, hin⟩
        · rintro ⟨rfl | ho, hin⟩
          · rw [hin.1] at hskip; cases hskip
          · exact ⟨ho, hin⟩
      · rename_i hskip
        split
        · rename_i hend
          -- everything behind is beyond the end too
          refine ⟨(fun ho => by cases ho), fun ⟨ho, hin⟩ => ?_⟩
          have hle : o'.key ≤ o.key := by
            rcases List.mem_cons.mp ho with rfl | ho
            · exact le_refl _
            · exact (hhead o.key (List.mem_map_of_mem ho)).le
          have := Bounds.ends_mono hend hle
          rw [hin.2] at this
          cases this
        · rename_i hend
          rw [List.mem_cons, List.mem_cons, ih]
          constructor
          · rintro (rfl | ⟨ho, hin⟩)
            · exact ⟨Or.inl rfl, by simpa using hskip, by simpa using hend⟩
            · exact ⟨Or.inr ho, hin⟩
          · rintro ⟨rfl | ho, hin⟩
            · exact Or.inl rfl
            · exact Or.inr ⟨ho, hin⟩

/-- The bounds take from a list, and keep its order. -/
theorem Bounds.emit_sublist (os : List ObjectMetadata) : (b.emit os).Sublist os := by
  induction os with
  | nil => exact List.Sublist.refl _
  | cons o os ih =>
      rw [Bounds.emit]
      split
      · exact ih.cons o
      · split
        · exact List.nil_sublist _
        · exact ih.cons_cons o

/-! ### What the loop yields -/

/-- `out` lists the keys in bounds that the items stand for, in order. -/
structure Lists (K : Finset PyStr) (b : Bounds) (heap : List ListingHeapItem)
    (out : List ObjectMetadata) : Prop where
  sorted : (out.map (·.key)).Pairwise (· < ·)
  mem : ∀ k, k ∈ out.map (·.key) ↔ (∃ x ∈ heap, covers K x k) ∧ b.Includes k

/-- The keys below `D` have no empty component there, and the directories
they lie in exist. -/
structure KeysOk (K : Finset PyStr) (P : PyStr → Prop) (D : PyStr) : Prop where
  proper : ∀ k ∈ K, D <+: k → ProperBelow D k
  dirs : ∀ k ∈ K, ∀ u, u ++ ['/'] <+: k → D <+: u → P (u ++ ['/'])

/-- Within the bounds, the children of a directory stand for its keys. -/
theorem covers_children (hr : ShallowOk K P d r) (hK : KeysOk K P D)
    (hD : D <+: d) (hd : IsDirPath d) {k : PyStr} (hin : b.Includes k) :
    (k ∈ K ∧ d <+: k) ↔ ∃ x ∈ childItems b r, covers K x k := by
  constructor
  · rintro ⟨hk, hpre⟩
    rcases (hK.proper k hk (hD.trans hpre)).split hd hD hpre with
      ⟨c, hc, hns, rfl⟩ | ⟨c, hc, hns, hq⟩
    · obtain ⟨o, ho, hkey⟩ := List.mem_map.mp ((hr.mem_objects _).mpr ⟨hk, c, hc, hns, rfl⟩)
      exact ⟨.object o, List.mem_append_right _ (List.mem_map_of_mem ho), hkey.symm⟩
    · have hmem :=
        (hr.mem_prefixes _).mpr ⟨⟨c, hc, hns, rfl⟩, hK.dirs k hk _ hq (hD.trans ⟨c, rfl⟩)⟩
      refine ⟨.child _, List.mem_append_left _ (List.mem_map_of_mem (List.mem_filter.mpr
        ⟨hmem, ?_⟩)), hk, hq⟩
      -- a pruned prefix has no key within the bounds
      by_contra hends
      have := Bounds.ends_mono (b := b) (by simpa using hends) (le_of_isPrefix hq)
      rw [hin.2] at this
      cases this
  · rintro ⟨x, hx, hcov⟩
    rcases mem_childItems hr hx with ⟨q, rfl, hq⟩ | ⟨o, rfl, ho⟩
    · exact ⟨hcov.1, hq.isPrefix.trans hcov.2⟩
    · obtain rfl : k = o.key := hcov
      obtain ⟨hk, c, -, -, hc⟩ := ho
      exact ⟨hk, c, hc.symm⟩

/-- Items that stand for the same keys in bounds are listed alike. -/
theorem Lists.congr {heap heap' : List ListingHeapItem} {out : List ObjectMetadata}
    (h : Lists K b heap' out)
    (hiff : ∀ k, b.Includes k → ((∃ x ∈ heap, covers K x k) ↔ ∃ x ∈ heap', covers K x k)) :
    Lists K b heap out := by
  refine ⟨h.sorted, fun k => (h.mem k).trans ?_⟩
  constructor
  · exact fun ⟨hx, hin⟩ => ⟨(hiff k hin).mpr hx, hin⟩
  · exact fun ⟨hx, hin⟩ => ⟨(hiff k hin).mp hx, hin⟩

theorem lists_nil : Lists K b [] [] := ⟨List.Pairwise.nil, by simp⟩

/-- Beyond `end_at` nothing is left to list. -/
theorem lists_ended {x : ListingHeapItem} {heap : List ListingHeapItem}
    (h : HeapOk K P D (x :: heap)) (hend : b.ends x.key = true) : Lists K b (x :: heap) [] := by
  refine ⟨List.Pairwise.nil, fun k => ?_⟩
  simp only [List.map_nil, List.not_mem_nil, false_iff, not_and]
  rintro ⟨y, hy, hcov⟩ hin
  have hle : x.key ≤ k := by
    rcases List.mem_cons.mp hy with rfl | hy
    · exact key_le_of_covers hcov
    · exact (h.head_lt hy hcov).le
  have := Bounds.ends_mono hend hle
  rw [hin.2] at this
  cases this

/-- An object at the top of the heap comes next. -/
theorem lists_object {o : ObjectMetadata} {heap : List ListingHeapItem}
    {out : List ObjectMetadata} (h : HeapOk K P D (.object o :: heap))
    (hend : b.ends o.key = false) (hout : Lists K b heap out) :
    Lists K b (.object o :: heap) (if b.skips o.key then out else o :: out) := by
  have hsplit : ∀ k, (∃ x ∈ ListingHeapItem.object o :: heap, covers K x k) ↔
      k = o.key ∨ ∃ x ∈ heap, covers K x k := by
    intro k
    simp [covers]
  split
  -- the object is before the start, and so is not listed
  · rename_i hskip
    refine hout.congr fun k hin => ?_
    rw [hsplit]
    constructor
    · rintro (rfl | hx)
      · rw [hin.1] at hskip; cases hskip
      · exact hx
    · exact Or.inr
  -- the object is listed, and all others come behind it
  · rename_i hskip
    refine ⟨?_, fun k => ?_⟩
    · rw [List.map_cons, List.pairwise_cons]
      refine ⟨fun k hk => ?_, hout.sorted⟩
      obtain ⟨⟨x, hx, hcov⟩, -⟩ := (hout.mem k).mp hk
      exact h.head_lt hx hcov
    · rw [List.map_cons, List.mem_cons, hout.mem, hsplit]
      constructor
      · rintro (rfl | ⟨hx, hin⟩)
        · exact ⟨Or.inl rfl, by simpa using hskip, hend⟩
        · exact ⟨Or.inr hx, hin⟩
      · rintro ⟨rfl | hx, hin⟩
        · exact Or.inl rfl
        · exact Or.inr ⟨hx, hin⟩

/-- A leaf prefix is listed without the heap. -/
theorem lists_leaf {p : PyStr} {heap : List ListingHeapItem} {out : List ObjectMetadata}
    (h : HeapOk K P D (.child p :: heap)) (hr : ShallowOk K P p r)
    (hK : KeysOk K P D) (hleaf : b.prune r.1 = [])
    (hout : Lists K b heap out) : Lists K b (.child p :: heap) (b.emit r.2 ++ out) := by
  have hitem := h.items _ List.mem_cons_self
  have hobj : ∀ k, k ∈ (b.emit r.2).map (·.key) ↔ (k ∈ K ∧ p <+: k) ∧ b.Includes k := by
    intro k
    constructor
    · intro hk
      obtain ⟨o, ho, rfl⟩ := List.mem_map.mp hk
      obtain ⟨ho, hin⟩ := (Bounds.mem_emit hr.objects_sorted).mp ho
      obtain ⟨hk, c, -, -, hc⟩ := (hr.mem_objects o.key).mp (List.mem_map_of_mem ho)
      exact ⟨⟨hk, c, hc.symm⟩, hin⟩
    · rintro ⟨hk, hin⟩
      obtain ⟨x, hx, hcov⟩ :=
        (covers_children hr hK hitem.below (Or.inr (hitem.dir p rfl).2) hin).mp hk
      -- without child prefixes the items are the objects
      rw [childItems, hleaf] at hx
      obtain ⟨o, ho, rfl⟩ := List.mem_map.mp hx
      obtain rfl : k = o.key := hcov
      exact List.mem_map_of_mem ((Bounds.mem_emit hr.objects_sorted).mpr ⟨ho, hin⟩)
  refine ⟨?_, fun k => ?_⟩
  · rw [List.map_append, List.pairwise_append]
    refine ⟨hr.objects_sorted.sublist ((Bounds.emit_sublist r.2).map _), hout.sorted, ?_⟩
    intro j hj k hk
    obtain ⟨⟨x, hx, hcov⟩, -⟩ := (hout.mem k).mp hk
    exact h.below_lt ((hobj j).mp hj).1.2 hx hcov
  · rw [List.map_append, List.mem_append, hobj, hout.mem]
    constructor
    · rintro (⟨hk, hin⟩ | ⟨⟨x, hx, hcov⟩, hin⟩)
      · exact ⟨⟨_, List.mem_cons_self, hk⟩, hin⟩
      · exact ⟨⟨x, List.mem_cons_of_mem _ hx, hcov⟩, hin⟩
    · rintro ⟨⟨x, hx, hcov⟩, hin⟩
      rcases List.mem_cons.mp hx with rfl | hx
      · exact Or.inl ⟨hcov, hin⟩
      · exact Or.inr ⟨⟨x, hx, hcov⟩, hin⟩

/-- Expanding a prefix changes nothing in what is listed. -/
theorem lists_expand {p : PyStr} {heap heap' : List ListingHeapItem} {out : List ObjectMetadata}
    (h : HeapOk K P D (.child p :: heap)) (hr : ShallowOk K P p r)
    (hK : KeysOk K P D) (hperm : heap'.Perm (childItems b r ++ heap))
    (hout : Lists K b heap' out) : Lists K b (.child p :: heap) out := by
  have hitem := h.items _ List.mem_cons_self
  refine hout.congr fun k hin => ?_
  have hchild := covers_children hr hK hitem.below (Or.inr (hitem.dir p rfl).2) hin
  constructor
  · rintro ⟨x, hx, hcov⟩
    rcases List.mem_cons.mp hx with rfl | hx
    · obtain ⟨y, hy, hcov⟩ := hchild.mp hcov
      exact ⟨y, hperm.mem_iff.mpr (List.mem_append_left _ hy), hcov⟩
    · exact ⟨x, hperm.mem_iff.mpr (List.mem_append_right _ hx), hcov⟩
  · rintro ⟨x, hx, hcov⟩
    rcases List.mem_append.mp (hperm.mem_iff.mp hx) with hx | hx
    · exact ⟨.child p, List.mem_cons_self, hchild.mpr ⟨x, hx, hcov⟩⟩
    · exact ⟨x, List.mem_cons_of_mem _ hx, hcov⟩

/-! ### The loop ends -/

/-- How many levels an item may still have below it, when no directory has
a path longer than `n`. -/
def depth (n : ℕ) : ListingHeapItem → ℕ
  | .child p => 1 + (n - p.length)
  | .object _ => 0

theorem depth_children {n : ℕ} (hn : ∀ q, P q → q.length ≤ n) {p : PyStr}
    (hr : ShallowOk K P p r) {x : ListingHeapItem}
    (hx : x ∈ childItems b r) : depth n x < depth n (.child p) := by
  rcases mem_childItems hr hx with ⟨q, rfl, hq⟩ | ⟨o, rfl, -⟩
  · have hlen : q.length ≤ n := hn q hq.2
    have hlt := hq.length_lt
    simp only [depth]
    omega
  · simp [depth]

/-- The multiset that decreases. -/
def depths (n : ℕ) (heap : List ListingHeapItem) : Multiset ℕ :=
  (heap.map (depth n) : List ℕ)

theorem cutExpand_tail (n : ℕ) (x : ListingHeapItem) (heap : List ListingHeapItem) :
    Relation.CutExpand (· < ·) (depths n heap) (depths n (x :: heap)) := by
  refine ⟨0, depth n x, by simp, ?_⟩
  have hcons : depths n (x :: heap) = {depth n x} + depths n heap := rfl
  rw [hcons, add_zero, add_comm]

/-- A directory is replaced by deeper ones, which is what ends the loop. -/
theorem cutExpand_expand {n : ℕ} (hn : ∀ q, P q → q.length ≤ n) {p : PyStr}
    {heap heap' : List ListingHeapItem}
    (hr : ShallowOk K P p r) (hperm : heap'.Perm (childItems b r ++ heap)) :
    Relation.CutExpand (· < ·) (depths n heap') (depths n (.child p :: heap)) := by
  refine ⟨((childItems b r).map (depth n) : List ℕ), depth n (.child p), fun m hm => ?_, ?_⟩
  · obtain ⟨x, hx, rfl⟩ := List.mem_map.mp (Multiset.mem_coe.mp hm)
    exact depth_children hn hr hx
  · have hdepths : depths n heap' =
        ((childItems b r).map (depth n) : List ℕ) + depths n heap := by
      rw [depths, Multiset.coe_eq_coe.mpr (hperm.map (depth n)), List.map_append]
      rfl
    have hcons : depths n (.child p :: heap) = {depth n (.child p)} + depths n heap := rfl
    rw [hdepths, hcons]
    abel

/-! ### The loop -/

section Loop

variable (fn : PyStr → ShallowListResult) (maxInflight : ℕ) (done : ℕ → PyStr → Bool)

/-- One round for a prefix, with the expander's answer. -/
theorem listingLoop_child {x : PrefixExpander} (hx : x.Ok fn) (fuel : ℕ) {p : PyStr}
    (heap : List ListingHeapItem) (n : ℕ) (hend : b.ends p = false) :
    ∃ x' : PrefixExpander, x'.Ok fn ∧
      listingLoop fn maxInflight b done (fuel + 1) (.child p :: heap) x n =
        if (b.prune (fn p).1).isEmpty then
          (listingLoop fn maxInflight b done fuel heap x' (n + 1)).map (b.emit (fn p).2 ++ ·)
        else
          listingLoop fn maxInflight b done fuel ((childItems b (fn p)).foldl heappush heap) x'
            (n + 1) := by
  obtain ⟨hget, hok⟩ := PrefixExpander.get_spec maxInflight hx (done n) p
  rcases hres : x.get fn maxInflight (done n) p with ⟨⟨cps, os⟩, x₁⟩
  rw [hres] at hget hok
  obtain rfl : cps = (fn p).1 := congrArg Prod.fst hget
  obtain rfl : os = (fn p).2 := congrArg Prod.snd hget
  have hkey : b.ends (ListingHeapItem.child p).key = false := hend
  by_cases hleaf : (b.prune (fn p).1).isEmpty = true
  · refine ⟨x₁, hok, ?_⟩
    simp only [listingLoop, hkey, hres, hleaf, if_true]
    rw [List.isEmpty_iff.mp hleaf]
    rfl
  · refine ⟨x₁.enqueue fn maxInflight (b.prune (fn p).1), hok.enqueue _, ?_⟩
    simp only [listingLoop, hkey, hres, hleaf]
    rw [childItems, List.foldl_append]
    rfl

/-- **The loop lists its heap**, in finitely many rounds and whatever the
expander finds complete. -/
theorem listingLoop_spec (hK : KeysOk K P D)
    (hfn : ∀ u, P (u ++ ['/']) → D <+: u ++ ['/'] →
      ShallowOk K P (u ++ ['/']) (fn (u ++ ['/'])))
    {depthMax : ℕ} (hmax : ∀ q, P q → q.length ≤ depthMax) (heap : List ListingHeapItem)
    (hheap : HeapOk K P D heap) :
    ∃ fuel₀ out, Lists K b heap out ∧ ∀ fuel ≥ fuel₀, ∀ x : PrefixExpander, x.Ok fn → ∀ n,
      listingLoop fn maxInflight b done fuel heap x n = some out := by
  -- every round takes an item off the heap and puts deeper ones in its place
  have hwf : WellFounded (Relation.CutExpand fun i j : ℕ => i < j) :=
    WellFounded.cutExpand (IsWellFounded.wf)
  induction hs : depths depthMax heap using hwf.induction generalizing heap with
  | _ s ih =>
  subst hs
  rcases heap with - | ⟨entry, heap⟩
  · refine ⟨1, [], lists_nil, fun fuel hfuel x _ n => ?_⟩
    obtain ⟨fuel, rfl⟩ := Nat.exists_eq_add_of_le' hfuel
    rfl
  by_cases hend : b.ends entry.key = true
  · refine ⟨1, [], lists_ended hheap hend, fun fuel hfuel x _ n => ?_⟩
    obtain ⟨fuel, rfl⟩ := Nat.exists_eq_add_of_le' hfuel
    simp only [listingLoop, hend, if_true]
  have hend : b.ends entry.key = false := by simpa using hend
  rcases entry with p | o
  · have hitem := hheap.items _ List.mem_cons_self
    obtain ⟨hP, u, rfl⟩ := hitem.dir p rfl
    have hr := hfn u hP hitem.below
    by_cases hleaf : (b.prune (fn (u ++ ['/'])).1).isEmpty = true
    · -- a leaf prefix is yielded without passing through the heap
      obtain ⟨fuel₀, out, hout, hrun⟩ := ih _ (cutExpand_tail _ _ heap) heap hheap.tail rfl
      refine ⟨fuel₀ + 1, _, lists_leaf hheap hr hK (List.isEmpty_iff.mp hleaf) hout,
        fun fuel hfuel x hx n => ?_⟩
      obtain ⟨fuel, rfl⟩ := Nat.exists_eq_add_of_le' (Nat.le_of_add_left_le hfuel)
      obtain ⟨x', hx', hloop⟩ := listingLoop_child fn maxInflight done (p := u ++ ['/']) hx fuel
        heap n hend
      rw [hloop, if_pos hleaf, hrun fuel (by omega) x' hx' (n + 1)]
      rfl
    · have hperm := heappush_fold_perm (childItems b (fn (u ++ ['/']))) heap
      have hsorted := heappush_fold_sorted (childItems b (fn (u ++ ['/']))) hheap.tail.sorted
      obtain ⟨fuel₀, out, hout, hrun⟩ :=
        ih _ (cutExpand_expand hmax hr hperm) _ (hheap.expand hr hperm hsorted) rfl
      refine ⟨fuel₀ + 1, out, lists_expand hheap hr hK hperm hout, fun fuel hfuel x hx n => ?_⟩
      obtain ⟨fuel, rfl⟩ := Nat.exists_eq_add_of_le' (Nat.le_of_add_left_le hfuel)
      obtain ⟨x', hx', hloop⟩ := listingLoop_child fn maxInflight done (p := u ++ ['/']) hx fuel
        heap n hend
      rw [hloop, if_neg hleaf]
      exact hrun fuel (by omega) x' hx' (n + 1)
  · obtain ⟨fuel₀, out, hout, hrun⟩ := ih _ (cutExpand_tail _ _ heap) heap hheap.tail rfl
    refine ⟨fuel₀ + 1, _, lists_object hheap hend hout, fun fuel hfuel x hx n => ?_⟩
    obtain ⟨fuel, rfl⟩ := Nat.exists_eq_add_of_le' (Nat.le_of_add_left_le hfuel)
    have hrest := hrun fuel (by omega) x hx n
    rw [listingLoop, if_neg (by simp [hend])]
    by_cases hskip : b.skips o.key = true
    · simp only [hskip, if_true]
      exact hrest
    · simp only [hskip, hrest]
      rfl

end Loop

/-! ### The listing -/

/-- In an object store the directories are the prefixes of keys. -/
def HasKeyBelow (K : Finset PyStr) (q : PyStr) : Prop := ∃ k ∈ K, q <+: k

/-- What is assumed of `_list_objects` for one level: it returns the direct
children of the path, directories once each (the path itself may be among
them) and objects sorted by key. -/
structure DirectChildren (K : Finset PyStr) (path : PyStr) (items : List ObjectMetadata) :
    Prop where
  dirs_nodup : ((items.filter isDirectory).map (·.key)).Nodup
  dirs : ∀ key, key ∈ (items.filter isDirectory).map (·.key) →
    IsChildPrefix (HasKeyBelow K) (dirPrefix path) (key ++ ['/']) ∨ key ++ ['/'] = path
  dirs_complete : ∀ q, IsChildPrefix (HasKeyBelow K) (dirPrefix path) q →
    ∃ key ∈ (items.filter isDirectory).map (·.key), key ++ ['/'] = q
  files_sorted : ((items.filter fun item => !isDirectory item).map (·.key)).Pairwise (· < ·)
  files : ∀ k, k ∈ (items.filter fun item => !isDirectory item).map (·.key) ↔
    IsChildFile K (dirPrefix path) k

/-- A path is not a child of itself. -/
theorem IsChildPrefix.ne_path {path q : PyStr} (h : IsChildPrefix P (dirPrefix path) q) :
    q ≠ path := by
  rintro rfl
  have hlt := h.length_lt
  have hle : q.length ≤ (dirPrefix q).length := by
    rw [dirPrefix, List.length_append]
    omega
  omega

/-- `_shallow_list` passes the direct children on. -/
theorem splitShallow_ok {path : PyStr} {items : List ObjectMetadata}
    (h : DirectChildren K path items) :
    ShallowOk K (HasKeyBelow K) (dirPrefix path) (splitShallow path items) where
  prefixes_nodup := by
    have hinj : Function.Injective fun key : PyStr => key ++ ['/'] := List.append_left_injective _
    have hmap := h.dirs_nodup.map hinj
    rw [List.map_map] at hmap
    exact hmap.filter _
  mem_prefixes := fun q => by
    simp only [splitShallow, List.mem_filter, List.mem_map, bne_iff_ne, ne_eq]
    constructor
    · rintro ⟨⟨item, ⟨hitem, hdir⟩, rfl⟩, hne⟩
      have hmem : item.key ∈ (items.filter isDirectory).map (·.key) :=
        List.mem_map_of_mem (List.mem_filter.mpr ⟨hitem, hdir⟩)
      exact (h.dirs _ hmem).resolve_right hne
    · intro hq
      obtain ⟨key, hkey, rfl⟩ := h.dirs_complete q hq
      obtain ⟨item, hitem, rfl⟩ := List.mem_map.mp hkey
      exact ⟨⟨item, List.mem_filter.mp hitem, rfl⟩, hq.ne_path⟩
  objects_sorted := h.files_sorted
  mem_objects := h.files

/-- **The recursive listing**, for a provider whose shallow listings are
right: whatever the order in which they complete, the iteration ends and
yields the keys below the path that are within the bounds, in order. -/
theorem listObjectsRecursiveImpl_lists (provider : ListingProvider) (path : PyStr)
    (hpar : provider.supportsParallelListing = true) (limits : ListingLimits) (b : Bounds)
    (sh : SymlinkHandling) (done : ℕ → PyStr → Bool)
    (hK : KeysOk K P (dirPrefix path)) {depthMax : ℕ} (hmax : ∀ q, P q → q.length ≤ depthMax)
    (hpath : ShallowOk K P (dirPrefix path) (provider.shallowList path sh))
    (hbelow : ∀ u, P (u ++ ['/']) → dirPrefix path <+: u ++ ['/'] →
      ShallowOk K P (u ++ ['/']) (provider.shallowList (u ++ ['/']) sh)) :
    ∃ fuel₀ out, (∀ fuel ≥ fuel₀,
        listObjectsRecursiveImpl provider limits b sh done fuel path = some out) ∧
      (out.map (·.key)).Pairwise (· < ·) ∧
      ∀ k, k ∈ out.map (·.key) ↔ (k ∈ K ∧ dirPrefix path <+: k) ∧ b.Includes k := by
  set r := provider.shallowList path sh with hr
  have hcov := fun k => covers_children (b := b) (k := k) hpath hK (List.prefix_refl _)
    (isDirPath_dirPrefix path)
  have hunfold : ∀ fuel, listObjectsRecursiveImpl provider limits b sh done fuel path =
      if (b.prune r.1).isEmpty then some (b.emit r.2)
      else listingLoop (fun p => provider.shallowList p sh) limits.maxInflight b done fuel
        (heapify (childItems b r))
        (({} : PrefixExpander).enqueue (fun p => provider.shallowList p sh) limits.maxInflight
          (b.prune r.1)) 0 := by
    intro fuel
    rw [listObjectsRecursiveImpl, if_neg (by simp [hpar])]
    rfl
  by_cases hleaf : (b.prune r.1).isEmpty = true
  · -- the path is a leaf: the loop does not start
    refine ⟨0, b.emit r.2, fun fuel _ => by rw [hunfold, if_pos hleaf], ?_, fun k => ?_⟩
    · exact hpath.objects_sorted.sublist ((Bounds.emit_sublist r.2).map _)
    · constructor
      · intro hk
        obtain ⟨o, ho, rfl⟩ := List.mem_map.mp hk
        obtain ⟨ho, hin⟩ := (Bounds.mem_emit hpath.objects_sorted).mp ho
        refine ⟨(hcov o.key hin).mpr ⟨.object o, ?_, rfl⟩, hin⟩
        exact List.mem_append_right _ (List.mem_map_of_mem ho)
      · rintro ⟨hk, hin⟩
        obtain ⟨x, hx, hcovx⟩ := (hcov k hin).mp hk
        rw [childItems, List.isEmpty_iff.mp hleaf] at hx
        obtain ⟨o, ho, rfl⟩ := List.mem_map.mp hx
        obtain rfl : k = o.key := hcovx
        exact List.mem_map_of_mem ((Bounds.mem_emit hpath.objects_sorted).mpr ⟨ho, hin⟩)
  · obtain ⟨fuel₀, out, hout, hrun⟩ := listingLoop_spec (b := b)
      (fun p => provider.shallowList p sh) limits.maxInflight done hK hbelow hmax _
      (heapOk_heapify (b := b) hpath)
    refine ⟨fuel₀, out, fun fuel hfuel => ?_, hout.sorted, fun k => ?_⟩
    · rw [hunfold, if_neg hleaf]
      exact hrun fuel hfuel _ (PrefixExpander.Ok.enqueue ⟨by simp, by simp⟩ _) 0
    · rw [hout.mem]
      constructor
      · rintro ⟨⟨x, hx, hcovx⟩, hin⟩
        have hx := (List.perm_insertionSort _ _).mem_iff.mp hx
        exact ⟨(hcov k hin).mpr ⟨x, hx, hcovx⟩, hin⟩
      · rintro ⟨hk, hin⟩
        obtain ⟨x, hx, hcovx⟩ := (hcov k hin).mp hk
        exact ⟨⟨x, (List.perm_insertionSort _ _).mem_iff.mpr hx, hcovx⟩, hin⟩

/-- The bounds on a key, an empty `end_at` counting as none. -/
theorem Bounds.includes_iff (b : Bounds) {k : PyStr} (hk : k ≠ []) :
    b.Includes k ↔ (∀ s, b.startAfter = some s → s < k) ∧
      ∀ e, b.endAt = some e → e ≠ [] → k ≤ e := by
  obtain ⟨startAfter, endAt⟩ := b
  have hs : Bounds.skips ⟨startAfter, endAt⟩ k = false ↔ ∀ s, startAfter = some s → s < k := by
    rcases startAfter with - | s
    · simp [Bounds.skips]
    · have hpos : s = [] → s < k := fun h => lt_of_isPrefix_of_ne (h ▸ List.nil_prefix)
        (fun heq => hk (heq ▸ h))
      have hiff : Bounds.skips ⟨some s, endAt⟩ k = false ↔ (s ≠ [] → s < k) := by
        simp [Bounds.skips, ← not_lt]
      rw [hiff]
      constructor
      · rintro h s' hs'
        obtain rfl := Option.some.inj hs'
        by_cases hne : s = []
        · exact hpos hne
        · exact h hne
      · exact fun h _ => h s rfl
  have he : Bounds.ends ⟨startAfter, endAt⟩ k = false ↔ ∀ e, endAt = some e → e ≠ [] → k ≤ e := by
    rcases endAt with - | e
    · simp [Bounds.ends]
    · simp [Bounds.ends, not_lt]
  exact and_congr hs he

/-- **The recursive listing with parallel prefix discovery** yields, in
strictly increasing order, exactly the keys below the path after
`start_after` and up to a non-empty `end_at`. -/
theorem recursive_listing_yields (K : Finset PyStr) (hK : ∀ k ∈ K, NoEmptyComponent k)
    (listObjects : PyStr → Option PyStr → Option PyStr → Bool → SymlinkHandling →
      List ObjectMetadata)
    (sh : SymlinkHandling) (hlist : ∀ p, DirectChildren K p (listObjects p none none true sh))
    (path : PyStr) (startAfter endAt : Option PyStr) (limits : ListingLimits)
    (done : ℕ → PyStr → Bool) :
    ∃ fuel₀ out, (∀ fuel ≥ fuel₀, listObjectsRecursiveImpl
        ⟨true, listObjects, baseShallowList listObjects⟩ limits ⟨startAfter, endAt⟩ sh done fuel
          path = some out) ∧
      (out.map (·.key)).Pairwise (· < ·) ∧
      ∀ k, k ∈ out.map (·.key) ↔ k ∈ K ∧ dirPrefix path <+: k ∧
        (∀ s, startAfter = some s → s < k) ∧ ∀ e, endAt = some e → e ≠ [] → k ≤ e := by
  have hbelow : ∀ u, ShallowOk K (HasKeyBelow K) (u ++ ['/'])
      (baseShallowList listObjects (u ++ ['/']) sh) := by
    intro u
    have h := splitShallow_ok (hlist (u ++ ['/']))
    rwa [dirPrefix_slash] at h
  obtain ⟨fuel₀, out, hrun, hsorted, hmem⟩ := listObjectsRecursiveImpl_lists (K := K)
    ⟨true, listObjects, baseShallowList listObjects⟩ path rfl limits
    ⟨startAfter, endAt⟩ sh done
    ⟨fun k hk _ => (hK k hk).properBelow _, fun k hk u hu _ => ⟨k, hk, hu⟩⟩
    (fun q ⟨k, hk, hq⟩ => hq.length_le.trans (Finset.le_sup hk))
    (splitShallow_ok (hlist path)) (fun u _ _ => hbelow u)
  refine ⟨fuel₀, out, hrun, hsorted, fun k => (hmem k).trans ?_⟩
  constructor
  · rintro ⟨⟨hk, hpre⟩, hin⟩
    exact ⟨hk, hpre, (Bounds.includes_iff _ (hK k hk).head.1).mp hin⟩
  · rintro ⟨hk, hpre, hin⟩
    exact ⟨⟨hk, hpre⟩, (Bounds.includes_iff _ (hK k hk).head.1).mpr hin⟩

/-! ### A store of keys -/

/-- A directory entry of a listing. -/
def dirEntry (key : PyStr) : ObjectMetadata :=
  { key := key, contentLength := 0, lastModified := 0, type := .directory }

/-- A file entry of a listing. -/
def fileEntry (key : PyStr) : ObjectMetadata :=
  { key := key, contentLength := 1, lastModified := 0 }

/-- The child directory of `d` that holds `k`. -/
def childDirOf (d k : PyStr) : Option PyStr :=
  if d.isPrefixOf k ∧ '/' ∈ k.drop d.length then
    some (d ++ (k.drop d.length).takeWhile (· != '/'))
  else none

/-- `k` is a file of the directory `d`. -/
def isFileOf (d k : PyStr) : Bool := d.isPrefixOf k && !(k.drop d.length).contains '/'

/-- The shallow listing of a store that holds the given keys. -/
def keyListing (keys : List PyStr) (path : PyStr) : List ObjectMetadata :=
  ((keys.filterMap (childDirOf (dirPrefix path))).dedup.map dirEntry) ++
    ((keys.filter (isFileOf (dirPrefix path))).insertionSort (· ≤ ·)).map fileEntry

/-- The child directory on the way to a key. -/
theorem childDirOf_eq_some {d k c : PyStr} (hk : NoEmptyComponent k) (hd : IsDirPath d) :
    childDirOf d k = some c ↔ ∃ n, c = d ++ n ∧ n ≠ [] ∧ '/' ∉ n ∧ d ++ n ++ ['/'] <+: k := by
  unfold childDirOf
  constructor
  · intro h
    split at h
    · rename_i hcond
      obtain ⟨hpre, hmem⟩ := hcond
      obtain ⟨r, rfl⟩ := List.isPrefixOf_iff_prefix.mp hpre
      rw [List.drop_left] at hmem h
      obtain ⟨n, t, rfl, hn⟩ := List.eq_append_cons_of_mem hmem
      have htake : (n ++ '/' :: t).takeWhile (· != '/') = n := by
        rw [List.takeWhile_append_of_pos (fun a ha => by
          simpa using fun h : a = '/' => hn (h ▸ ha))]
        simp
      rw [htake] at h
      refine ⟨n, (Option.some.inj h).symm, ?_, hn, ⟨t, by simp⟩⟩
      rintro rfl
      exact ((hk.properBelow d) d _ hd (List.prefix_refl d) rfl).2 rfl
    · cases h
  · rintro ⟨n, rfl, -, hn, t, rfl⟩
    have hdrop : (d ++ n ++ ['/'] ++ t).drop d.length = n ++ '/' :: t := by simp
    rw [if_pos ⟨List.isPrefixOf_iff_prefix.mpr ⟨n ++ '/' :: t, by simp⟩, by rw [hdrop]; simp⟩,
      hdrop, List.takeWhile_append_of_pos
        (fun a ha => by simpa using fun h : a = '/' => hn (h ▸ ha))]
    simp

/-- The files of a directory are one component below it. -/
theorem isFileOf_iff {d k : PyStr} (hk : NoEmptyComponent k) (hd : IsDirPath d) :
    isFileOf d k = true ↔ ∃ n, n ≠ [] ∧ '/' ∉ n ∧ k = d ++ n := by
  unfold isFileOf
  constructor
  · intro h
    obtain ⟨hpre, hns⟩ := (Bool.and_eq_true _ _).mp h
    obtain ⟨r, rfl⟩ := List.isPrefixOf_iff_prefix.mp hpre
    rw [List.drop_left] at hns
    exact ⟨r, ((hk.properBelow d) d r hd (List.prefix_refl d) rfl).1, by simpa using hns, rfl⟩
  · rintro ⟨n, -, hn, rfl⟩
    have hpre : d.isPrefixOf (d ++ n) = true := List.isPrefixOf_iff_prefix.mpr ⟨n, rfl⟩
    simp [hpre, hn]

/-- Such a store lists the direct children of every path. -/
theorem keyListing_directChildren {keys : List PyStr} (hnd : keys.Nodup)
    (hk : ∀ k ∈ keys, NoEmptyComponent k) (path : PyStr) :
    DirectChildren keys.toFinset path (keyListing keys path) := by
  have hd := isDirPath_dirPrefix path
  -- the listing is the directories and the files, each sorted
  have hdirs : (keyListing keys path).filter isDirectory =
      (keys.filterMap (childDirOf (dirPrefix path))).dedup.map dirEntry := by
    rw [keyListing, List.filter_append, List.filter_eq_self.mpr, List.filter_eq_nil_iff.mpr,
      List.append_nil]
    · intro x hx
      obtain ⟨k, -, rfl⟩ := List.mem_map.mp hx
      simp [isDirectory, fileEntry]
    · intro x hx
      obtain ⟨k, -, rfl⟩ := List.mem_map.mp hx
      rfl
  have hfiles : (keyListing keys path).filter (fun item => !isDirectory item) =
      ((keys.filter (isFileOf (dirPrefix path))).insertionSort (· ≤ ·)).map fileEntry := by
    rw [keyListing, List.filter_append, List.filter_eq_nil_iff.mpr, List.filter_eq_self.mpr,
      List.nil_append]
    · intro x hx
      obtain ⟨k, -, rfl⟩ := List.mem_map.mp hx
      rfl
    · intro x hx
      obtain ⟨k, -, rfl⟩ := List.mem_map.mp hx
      simp [isDirectory, dirEntry]
  have hdirKeys : ((keyListing keys path).filter isDirectory).map (·.key) =
      (keys.filterMap (childDirOf (dirPrefix path))).dedup := by
    rw [hdirs, List.map_map]
    exact List.map_id _
  have hfileKeys : ((keyListing keys path).filter (fun item => !isDirectory item)).map (·.key) =
      (keys.filter (isFileOf (dirPrefix path))).insertionSort (· ≤ ·) := by
    rw [hfiles, List.map_map]
    exact List.map_id _
  refine ⟨?_, ?_, ?_, ?_, ?_⟩
  · rw [hdirKeys]
    exact List.nodup_dedup _
  · intro key hkey
    rw [hdirKeys, List.mem_dedup] at hkey
    obtain ⟨k, hmem, hc⟩ := List.mem_filterMap.mp hkey
    obtain ⟨n, rfl, hn, hns, hpre⟩ := (childDirOf_eq_some (hk k hmem) hd).mp hc
    exact Or.inl ⟨⟨n, hn, hns, rfl⟩, k, List.mem_toFinset.mpr hmem, hpre⟩
  · rintro q ⟨⟨n, hn, hns, rfl⟩, k, hmem, hpre⟩
    rw [List.mem_toFinset] at hmem
    refine ⟨dirPrefix path ++ n, ?_, rfl⟩
    rw [hdirKeys, List.mem_dedup]
    exact List.mem_filterMap.mpr ⟨k, hmem, (childDirOf_eq_some (hk k hmem) hd).mpr
      ⟨n, rfl, hn, hns, hpre⟩⟩
  · rw [hfileKeys]
    have hsorted : ((keys.filter (isFileOf (dirPrefix path))).insertionSort (· ≤ ·)).Pairwise
        (· ≤ ·) := List.pairwise_insertionSort _ _
    have hne : ((keys.filter (isFileOf (dirPrefix path))).insertionSort (· ≤ ·)).Nodup :=
      (List.perm_insertionSort _ _).nodup_iff.mpr (hnd.filter _)
    exact hsorted.imp₂ (fun _ _ hle hne => lt_of_le_of_ne hle hne) hne
  · intro k
    rw [hfileKeys, (List.perm_insertionSort _ _).mem_iff, List.mem_filter]
    constructor
    · rintro ⟨hmem, hf⟩
      exact ⟨List.mem_toFinset.mpr hmem, (isFileOf_iff (hk k hmem) hd).mp hf⟩
    · rintro ⟨hmem, hf⟩
      have hmem := List.mem_toFinset.mp hmem
      exact ⟨hmem, (isFileOf_iff (hk k hmem) hd).mpr hf⟩

/-- A provider of such a store. -/
def keyListObjects (keys : List PyStr) (path : PyStr) (_startAfter _endAt : Option PyStr)
    (_includeDirectories : Bool) (_symlinkHandling : SymlinkHandling) : List ObjectMetadata :=
  keyListing keys path

/-- Keys in which the directory `a/` sorts behind `a-b` and `a.txt`. -/
def sampleKeys : List PyStr :=
  ["d/a/x".toList, "d/a.txt".toList, "d/a-b".toList, "d/a/y/z".toList, "d/b".toList, "e".toList]

theorem sampleKeys_proper : ∀ k ∈ sampleKeys, NoEmptyComponent k := by
  unfold NoEmptyComponent
  decide

/-- The theorem at a few files, with both bounds. -/
theorem recursive_listing_yields_sampleKeys :
    ∃ fuel₀ out, (∀ fuel ≥ fuel₀, listObjectsRecursiveImpl
        ⟨true, keyListObjects sampleKeys, baseShallowList (keyListObjects sampleKeys)⟩ {}
          ⟨some "d/a-b".toList, some "d/a/y/z".toList⟩ .follow (fun _ _ => false) fuel
          "d".toList = some out) ∧
      (out.map (·.key)).Pairwise (· < ·) ∧
      ∀ k, k ∈ out.map (·.key) ↔ k ∈ sampleKeys.toFinset ∧ dirPrefix "d".toList <+: k ∧
        (∀ s, some "d/a-b".toList = some s → s < k) ∧
        ∀ e, some "d/a/y/z".toList = some e → e ≠ [] → k ≤ e :=
  recursive_listing_yields sampleKeys.toFinset
    (fun k hk => sampleKeys_proper k (List.mem_toFinset.mp hk)) (keyListObjects sampleKeys) .follow
    (keyListing_directChildren (by decide) sampleKeys_proper) _ _ _ _ _

example : (listObjectsRecursiveImpl
    ⟨true, keyListObjects sampleKeys, baseShallowList (keyListObjects sampleKeys)⟩ {}
      ⟨some "d/a-b".toList, some "d/a/y/z".toList⟩ .follow (fun n _ => n % 2 == 0) 10
      "d".toList).map (·.map (·.key)) =
    some ["d/a.txt".toList, "d/a/x".toList, "d/a/y/z".toList] := by
  decide +kernel

/-- With an empty `end_at` everything below the path is listed, although no
key is at most the empty string. -/
theorem recursive_listing_empty_end_at :
    (∀ k ∈ sampleKeys, NoEmptyComponent k) ∧
      (∀ p, DirectChildren sampleKeys.toFinset p
        (keyListObjects sampleKeys p none none true .follow)) ∧
      (listObjectsRecursiveImpl
        ⟨true, keyListObjects sampleKeys, baseShallowList (keyListObjects sampleKeys)⟩ {}
        ⟨none, some []⟩ .follow (fun _ _ => false) 10 "d".toList).map (·.map (·.key)) =
          some ["d/a-b".toList, "d/a.txt".toList, "d/a/x".toList, "d/a/y/z".toList,
            "d/b".toList] ∧
      ¬ "d/a-b".toList ≤ [] :=
  ⟨sampleKeys_proper, keyListing_directChildren (by decide) sampleKeys_proper, by decide +kernel,
    by decide⟩

end MultiStorageClient
