/-
MultiStorageClient/ProducerOrder.lean

What a sync of an explicit list of files does, for every order of the list.

`source_files` replaces the source listing, and its entries reach the merge
in the order the caller wrote them.  The merge only looks forward in the
target listing, so an entry that stands behind one with a larger relative
key finds its counterpart already passed: the counterpart counts as
unmatched and the entry as new.  `mem_planOps_write` and
`mem_planOps_delete` say which operations are planned for any order of
distinct entries, and the main theorem when two orders agree.
-/
import MultiStorageClient.ProducerTargets

namespace MultiStorageClient

namespace ProducerThread

open PyStr OuterJoin

/-! ### The plan for a source in any order -/

/-- The operations without the target metadata that accompanies some. -/
def planOps (ops : List (OperationType × Item)) : List (OperationType × ObjectMetadata) :=
  ops.map fun x => (x.1, x.2.1)

/-- The entry `s` of the source stands behind a visible entry with a larger
relative key. -/
def Late (p : ProducerThread) (ss : List ObjectMetadata) (s : ObjectMetadata) : Prop :=
  Overtaken p.sourceKey (p.visible p.sourceKey ss) s

/-- A listing whose entries have different relative keys, in any order. -/
def DistinctKeys (path : PyStr) (l : List ObjectMetadata) : Prop :=
  l.Pairwise fun a b => relKey path a.key ≠ relKey path b.key

variable {p : ProducerThread} {ss ts : List ObjectMetadata} {s t : ObjectMetadata}

/-- The plan's operations are those of the rows. -/
theorem mem_planOps {x : OperationType × ObjectMetadata} (hss : DistinctKeys p.sourcePath ss)
    (hts : SortedByKey p.targetPath ts) :
    x ∈ planOps (p.plan ss ts) ↔ ∃ r, RowSpec p.sourceKey p.targetKey
      (p.visible p.sourceKey ss) (p.visible p.targetKey ts) r ∧
        ∃ tm, p.planRow r = some (x.1, (x.2, tm)) := by
  have hrow : ∀ r, r ∈ outerJoin p.sourceKey p.targetKey (p.visible p.sourceKey ss)
      (p.visible p.targetKey ts) ↔ RowSpec p.sourceKey p.targetKey
        (p.visible p.sourceKey ss) (p.visible p.targetKey ts) r :=
    fun r => mem_outerJoin (hss.filter _) (hts.filter _)
  constructor
  · intro hx
    obtain ⟨⟨op, m, tm⟩, hmem, rfl⟩ := List.mem_map.mp hx
    obtain ⟨r, hr, hplan⟩ := mem_plan.mp hmem
    exact ⟨r, (hrow r).mp hr, tm, hplan⟩
  · rintro ⟨r, hr, tm, hplan⟩
    exact List.mem_map.mpr ⟨_, mem_plan.mpr ⟨r, (hrow r).mpr hr, hplan⟩, rfl⟩

/-- An entry is deleted when every source entry of its key comes too late. -/
theorem mem_planOps_delete (hss : DistinctKeys p.sourcePath ss)
    (hts : SortedByKey p.targetPath ts) :
    (OperationType.delete, t) ∈ planOps (p.plan ss ts) ↔
      p.deleteUnmatchedFiles = true ∧ t ∈ ts ∧ p.isHidden (p.targetKey t) = false ∧
        ∀ s ∈ ss, p.sourceKey s = p.targetKey t → p.Late ss s := by
  rw [mem_planOps hss hts]
  constructor
  · rintro ⟨r, hr, tm, hplan⟩
    rcases r with s | t' | ⟨s, t'⟩
    · simp only [planRow, Option.ite_none_right_eq_some, Option.some.injEq, Prod.mk.injEq] at hplan
      exact absurd hplan.2.1 (classify_add_ne_delete s)
    · obtain ⟨ht, hmiss⟩ := hr
      obtain ⟨ht, hvis⟩ := mem_visible.mp ht
      simp only [planRow, Option.ite_none_right_eq_some, Option.some.injEq, Prod.mk.injEq] at hplan
      obtain ⟨hflag, -, rfl, -⟩ := hplan
      refine ⟨hflag, ht, hvis, fun s hs heq => hmiss s ?_ heq⟩
      exact mem_visible.mpr ⟨hs, heq ▸ hvis⟩
    · simp only [planRow, Option.ite_none_right_eq_some, Option.ite_none_left_eq_some,
        Option.some.injEq, Prod.mk.injEq] at hplan
      exact absurd hplan.2.2.1 (classify_add_ne_delete s)
  · rintro ⟨hflag, ht, hvis, hlate⟩
    refine ⟨.right t, ⟨mem_visible.mpr ⟨ht, hvis⟩, fun s hs heq => ?_⟩, none, ?_⟩
    · exact hlate s (mem_visible.mp hs).1 heq
    · simp [planRow, hflag]

/-- An entry is written when it has no counterpart, a different one, or
comes too late to meet it. -/
theorem mem_planOps_write {op : OperationType} (hop : op ≠ .delete)
    (hss : DistinctKeys p.sourcePath ss) (hts : SortedByKey p.targetPath ts) :
    (op, s) ∈ planOps (p.plan ss ts) ↔
      op = (classify .add s).1 ∧ s ∈ ss ∧ p.isHidden (p.sourceKey s) = false ∧
        p.included (p.sourceKey s) = true ∧
        (p.Late ss s ∨
          ∀ t ∈ ts, p.targetKey t = p.sourceKey s → p.matchFileMetadata s t = false) := by
  rw [mem_planOps hss hts]
  constructor
  · rintro ⟨r, hr, tm, hplan⟩
    rcases r with s' | t | ⟨s', t⟩
    · obtain ⟨hs, hmiss⟩ := hr
      obtain ⟨hs, hvis⟩ := mem_visible.mp hs
      simp only [planRow, Option.ite_none_right_eq_some, Option.some.injEq, Prod.mk.injEq] at hplan
      obtain ⟨hinc, rfl, rfl, -⟩ := hplan
      refine ⟨rfl, hs, hvis, hinc, ?_⟩
      rcases hmiss with hmiss | hlate
      · exact Or.inr fun t ht heq => absurd heq (hmiss t (mem_visible.mpr ⟨ht, heq ▸ hvis⟩))
      · exact Or.inl hlate
    · simp only [planRow, Option.ite_none_right_eq_some, Option.some.injEq, Prod.mk.injEq] at hplan
      exact absurd hplan.2.1.symm hop
    · obtain ⟨hs, ht, heq, -⟩ := hr
      obtain ⟨hs, hvis⟩ := mem_visible.mp hs
      simp only [planRow, Option.ite_none_right_eq_some, Option.ite_none_left_eq_some,
        Option.some.injEq, Prod.mk.injEq] at hplan
      obtain ⟨hnm, hinc, rfl, rfl, -⟩ := hplan
      refine ⟨rfl, hs, hvis, hinc, Or.inr fun t' ht' heq' => ?_⟩
      obtain rfl : t' = t := eq_of_key_eq (hts.imp fun h => h.ne) ht'
        (mem_visible.mp ht).1 (heq'.trans heq)
      simpa using hnm
  · rintro ⟨rfl, hs, hvis, hinc, hneed⟩
    have hs' := mem_visible.mpr ⟨hs, hvis⟩
    -- a late entry finds its counterpart passed and is written again
    by_cases hlate : p.Late ss s
    · exact ⟨.left s, ⟨hs', Or.inr hlate⟩, none, by simp [planRow, hinc]⟩
    have hneed := hneed.resolve_left hlate
    by_cases hcp : ∃ t ∈ p.visible p.targetKey ts, p.targetKey t = p.sourceKey s
    · obtain ⟨t, ht, heq⟩ := hcp
      have hnm := hneed t (mem_visible.mp ht).1 heq
      exact ⟨.both s t, ⟨hs', ht, heq.symm, hlate⟩, some t, by simp [planRow, hnm, hinc]⟩
    · refine ⟨.left s, ⟨hs', Or.inl fun t ht heq => hcp ⟨t, ht, heq⟩⟩, none, ?_⟩
      simp [planRow, hinc]

/-! ### Two orders of one source -/

/-- Being late or not makes a difference for the source entry `s` with the
counterpart `t`: unmatched files are deleted, or the filter takes `s` and it
is up to date. -/
def Sensitive (p : ProducerThread) (s t : ObjectMetadata) : Prop :=
  p.deleteUnmatchedFiles = true ∨
    p.included (p.sourceKey s) = true ∧ p.matchFileMetadata s t = true

/-- In two orders of the source the same entries of those with a counterpart
in the target come too late. -/
def SameLate (p : ProducerThread) (ss ss' ts : List ObjectMetadata) : Prop :=
  ∀ s ∈ ss, p.isHidden (p.sourceKey s) = false →
    ∀ t ∈ ts, p.targetKey t = p.sourceKey s → p.Sensitive s t → (p.Late ss s ↔ p.Late ss' s)

theorem SameLate.symm {ss' : List ObjectMetadata} (hperm : ss.Perm ss')
    (h : p.SameLate ss ss' ts) : p.SameLate ss' ss ts :=
  fun s hs hvis t ht heq hsen => (h s (hperm.mem_iff.mpr hs) hvis t ht heq hsen).symm

/-- One half of the agreement of two orders. -/
theorem planOps_subset {ss' : List ObjectMetadata} (hperm : ss.Perm ss')
    (hss : DistinctKeys p.sourcePath ss) (hss' : DistinctKeys p.sourcePath ss')
    (hts : SortedByKey p.targetPath ts) (h : p.SameLate ss ss' ts) :
    planOps (p.plan ss ts) ⊆ planOps (p.plan ss' ts) := by
  rintro ⟨op, m⟩ hx
  by_cases hop : op = .delete
  · subst hop
    rw [mem_planOps_delete hss hts] at hx
    rw [mem_planOps_delete hss' hts]
    obtain ⟨hflag, ht, hvis, hlate⟩ := hx
    refine ⟨hflag, ht, hvis, fun s hs heq => ?_⟩
    have hs := hperm.mem_iff.mpr hs
    exact (h s hs (heq ▸ hvis) m ht heq.symm (Or.inl hflag)).mp (hlate s hs heq)
  · rw [mem_planOps_write hop hss hts] at hx
    rw [mem_planOps_write hop hss' hts]
    obtain ⟨rfl, hs, hvis, hinc, hneed⟩ := hx
    refine ⟨rfl, hperm.mem_iff.mp hs, hvis, hinc, ?_⟩
    -- only an entry that is up to date depends on being late
    by_cases hup : ∃ t ∈ ts, p.targetKey t = p.sourceKey m ∧ p.matchFileMetadata m t = true
    · obtain ⟨t, ht, heq, hmatch⟩ := hup
      rcases hneed with hlate | hneed
      · exact Or.inl ((h m hs hvis t ht heq (Or.inr ⟨hinc, hmatch⟩)).mp hlate)
      · exact absurd (hneed t ht heq) (by simp [hmatch])
    · refine Or.inr fun t ht heq => ?_
      by_contra hmatch
      exact hup ⟨t, ht, heq, by simpa using hmatch⟩

/-- An entry that is late in one order only shows in the plans. -/
theorem late_of_planOps_subset {ss' : List ObjectMetadata}
    (hss : DistinctKeys p.sourcePath ss) (hss' : DistinctKeys p.sourcePath ss')
    (hts : SortedByKey p.targetPath ts) (hsub : planOps (p.plan ss ts) ⊆ planOps (p.plan ss' ts))
    (hs : s ∈ ss) (hs' : s ∈ ss') (hvis : p.isHidden (p.sourceKey s) = false) (ht : t ∈ ts)
    (heq : p.targetKey t = p.sourceKey s) (hsen : p.Sensitive s t) (hlate : p.Late ss s) :
    p.Late ss' s := by
  rcases hsen with hflag | ⟨hinc, hmatch⟩
  · have hdel : (OperationType.delete, t) ∈ planOps (p.plan ss ts) := by
      rw [mem_planOps_delete hss hts]
      refine ⟨hflag, ht, heq ▸ hvis, fun s₁ hs₁ heq₁ => ?_⟩
      obtain rfl : s₁ = s := eq_of_key_eq hss hs₁ hs (heq₁.trans heq)
      exact hlate
    exact ((mem_planOps_delete hss' hts).mp (hsub hdel)).2.2.2 s hs' heq.symm
  · have hop := classify_add_ne_delete s
    have hadd : ((classify .add s).1, s) ∈ planOps (p.plan ss ts) :=
      (mem_planOps_write hop hss hts).mpr ⟨rfl, hs, hvis, hinc, Or.inl hlate⟩
    obtain ⟨-, -, -, -, hneed⟩ := (mem_planOps_write hop hss' hts).mp (hsub hadd)
    refine hneed.resolve_right fun hne => ?_
    exact absurd (hne t ht heq) (by simp [hmatch])

/-! ### The entries of a list of files -/

/-- The same sync for another list of files. -/
def withSourceFiles (p : ProducerThread) (files : List PyStr) : ProducerThread :=
  { p with sourceFiles := some files }

/-- Every listed file exists. -/
def AllFound (p : ProducerThread) (files : List PyStr) : Prop :=
  ∀ f ∈ files, ∃ m, p.sourceClient.info (p.sourceFilePath f) = .found m

/-- The entry yielded for a listed file. -/
def sourceFileEntry (p : ProducerThread) (f : PyStr) : Option ObjectMetadata :=
  match p.sourceClient.info (p.sourceFilePath f) with
  | .found m => some (p.applyAttributePolicy m)
  | _ => none

theorem sourceFilesIterator_eq {files : List PyStr} (h : p.AllFound files) :
    p.sourceFilesIterator files = ⟨files.filterMap p.sourceFileEntry, none⟩ := by
  induction files with
  | nil => rfl
  | cons f fs ih =>
      obtain ⟨m, hm⟩ := h f List.mem_cons_self
      have ih := ih fun g hg => h g (List.mem_cons_of_mem f hg)
      simp [sourceFilesIterator, sourceFileEntry, hm, ih]

variable {files files' : List PyStr}

theorem createSourceIterator_withSourceFiles (h : p.AllFound files) :
    (p.withSourceFiles files).createSourceIterator =
      ⟨files.filterMap p.sourceFileEntry, none⟩ :=
  sourceFilesIterator_eq (p := p.withSourceFiles files) h

theorem AllFound.perm (h : p.AllFound files) (hperm : files.Perm files') : p.AllFound files' :=
  fun f hf => h f (hperm.mem_iff.mpr hf)

/-- The order of the list is the order of the entries. -/
theorem sourceEntries_perm (h : p.AllFound files) (hperm : files.Perm files') :
    (p.withSourceFiles files).sourceEntries.Perm (p.withSourceFiles files').sourceEntries := by
  rw [sourceEntries, sourceEntries, createSourceIterator_withSourceFiles h,
    createSourceIterator_withSourceFiles (h.perm hperm)]
  exact hperm.filterMap _

theorem DistinctKeys.perm {path : PyStr} {l l' : List ObjectMetadata} (h : DistinctKeys path l)
    (hperm : l.Perm l') : DistinctKeys path l' :=
  List.Pairwise.perm h hperm fun h => h.symm

/-- The operations of the complete run for a list of files. -/
def fileOps (p : ProducerThread) (files : List PyStr) : List (OperationType × ObjectMetadata) :=
  planOps (queueOps ((p.withSourceFiles files).run fun _ => false).fileQueue)

theorem fileOps_eq (h : p.AllFound files) (hTe : p.createTargetIterator.error = none) :
    p.fileOps files = planOps (p.plan (p.withSourceFiles files).sourceEntries p.targetEntries) := by
  have hSe : (p.withSourceFiles files).createSourceIterator.error = none := by
    rw [createSourceIterator_withSourceFiles h]
  rw [fileOps, run_ops_eq_plan _ _ (run_finishes _ hSe hTe)]
  rfl

/-- **When the order of the listed files matters.**  For existing files
without duplicates and a sorted target listing, two orders of the list lead
to the same operations exactly when they make the same entries late, and a
listed file that is up to date is left alone exactly when it is not late or
neither the filter nor the deletion of unmatched files concerns it. -/
theorem fileOps_order_independent_iff (p : ProducerThread) (files files' : List PyStr)
    (hperm : files.Perm files') (hfound : p.AllFound files)
    (hdup : DistinctKeys p.sourcePath (p.withSourceFiles files).sourceEntries)
    (hT : SortedByKey p.targetPath p.targetEntries)
    (hTe : p.createTargetIterator.error = none) :
    ((∀ x, x ∈ p.fileOps files ↔ x ∈ p.fileOps files') ↔
      p.SameLate (p.withSourceFiles files).sourceEntries
        (p.withSourceFiles files').sourceEntries p.targetEntries) ∧
    ∀ s ∈ (p.withSourceFiles files).sourceEntries, p.isHidden (p.sourceKey s) = false →
      ∀ t ∈ p.targetEntries, p.targetKey t = p.sourceKey s → p.matchFileMetadata s t = true →
        (((∀ op, op ≠ .delete → (op, s) ∉ p.fileOps files) ∧
            (OperationType.delete, t) ∉ p.fileOps files) ↔
          ¬ (p.Late (p.withSourceFiles files).sourceEntries s ∧
            (p.included (p.sourceKey s) = true ∨ p.deleteUnmatchedFiles = true))) := by
  have hperm' := sourceEntries_perm hfound hperm
  have hdup' := hdup.perm hperm'
  rw [fileOps_eq hfound hTe, fileOps_eq (hfound.perm hperm) hTe]
  -- both directions of the first part, then the up-to-date entries
  refine ⟨⟨fun hsame s hs hvis t ht heq hsen => ⟨fun hlate => ?_, fun hlate => ?_⟩,
    fun hsame x => ⟨fun hx => ?_, fun hx => ?_⟩⟩, fun s hs hvis t ht heq hmatch => ?_⟩
  · exact late_of_planOps_subset hdup hdup' hT (fun x => (hsame x).mp) hs
      (hperm'.mem_iff.mp hs) hvis ht heq hsen hlate
  · exact late_of_planOps_subset hdup' hdup hT (fun x => (hsame x).mpr)
      (hperm'.mem_iff.mp hs) hs hvis ht heq hsen hlate
  · exact planOps_subset hperm' hdup hdup' hT hsame hx
  · exact planOps_subset hperm'.symm hdup' hdup hT (hsame.symm hperm') hx
  · constructor
    · rintro ⟨hwrite, hdel⟩ ⟨hlate, hinc | hflag⟩
      · have hop := classify_add_ne_delete s
        exact hwrite _ hop ((mem_planOps_write hop hdup hT).mpr
          ⟨rfl, hs, hvis, hinc, Or.inl hlate⟩)
      · refine hdel ((mem_planOps_delete hdup hT).mpr ⟨hflag, ht, heq ▸ hvis, ?_⟩)
        intro s₁ hs₁ heq₁
        obtain rfl : s₁ = s := eq_of_key_eq hdup hs₁ hs (heq₁.trans heq)
        exact hlate
    · intro hno
      refine ⟨fun op hop hx => ?_, fun hx => ?_⟩
      · obtain ⟨-, -, -, hinc, hneed⟩ := (mem_planOps_write hop hdup hT).mp hx
        rcases hneed with hlate | hneed
        · exact hno ⟨hlate, Or.inl hinc⟩
        · exact absurd (hneed t ht heq) (by simp [hmatch])
      · obtain ⟨hflag, -, -, hlate⟩ := (mem_planOps_delete hdup hT).mp hx
        exact hno ⟨hlate s hs heq.symm, Or.inr hflag⟩

/-- Two files that are up to date at the target. -/
def listedSync : ProducerThread where
  sourceClient := .ofListing [fileOf "src/a" 1 5, fileOf "src/b" 2 5]
  sourcePath := "src".toList
  targetClient := .ofListing [fileOf "dst/a" 1 9, fileOf "dst/b" 2 9]
  targetPath := "dst".toList
  numWorkers := 1
  deleteUnmatchedFiles := true

/-- The theorem at a listing and its reverse. -/
theorem fileOps_order_independent_listedSync :
    (∀ x, x ∈ listedSync.fileOps ["b".toList, "a".toList] ↔
        x ∈ listedSync.fileOps ["a".toList, "b".toList]) ↔
      listedSync.SameLate (listedSync.withSourceFiles ["b".toList, "a".toList]).sourceEntries
        (listedSync.withSourceFiles ["a".toList, "b".toList]).sourceEntries
        listedSync.targetEntries := by
  refine (fileOps_order_independent_iff listedSync ["b".toList, "a".toList]
    ["a".toList, "b".toList] (List.Perm.swap _ _ _) ?_ ?_ ?_ rfl).1
  · intro f hf
    rcases List.mem_pair.mp hf with rfl | rfl
    · exact ⟨_, rfl⟩
    · exact ⟨_, rfl⟩
  · unfold DistinctKeys; decide
  · unfold SortedByKey; decide

/-- In key order both files are left alone; in the other order `a` is copied
again and its copy deleted. -/
theorem fileOps_depend_on_order :
    ["b".toList, "a".toList].Perm ["a".toList, "b".toList] ∧
      DistinctKeys listedSync.sourcePath
        (listedSync.withSourceFiles ["b".toList, "a".toList]).sourceEntries ∧
      SortedByKey listedSync.targetPath listedSync.targetEntries ∧
      listedSync.fileOps ["a".toList, "b".toList] = [] ∧
      (listedSync.fileOps ["b".toList, "a".toList]).map (fun x => (x.1, x.2.key)) =
        [(.delete, "dst/a".toList), (.add, "src/a".toList)] := by
  refine ⟨List.Perm.swap _ _ _, ?_, ?_, by decide +kernel, by decide +kernel⟩
  · unfold DistinctKeys; decide
  · unfold SortedByKey; decide

end ProducerThread

end MultiStorageClient
