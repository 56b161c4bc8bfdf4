/-
MultiStorageClient/GoStr.lean

Go strings, and the slash-separated paths of `path/filepath`.

A string is a sequence of bytes, and a character stands for each byte, so that
what is known of lists of characters can be used; a function that goes through
runes is not modelled with it.

`Clean` keeps a stack of components, as `posixpath.normpath` does.  A path that is
joined to a directory has the components of the directory and then its own
(`join_eq`), and is found again relative to it (`rel_join`).
-/
import MultiStorageClient.PosixPath

/-- A Go string, with a character for each byte. -/
abbrev GoStr := List Char

namespace GoStr

open PyStr (normComponents normComponents_cons commonPrefix Plain)

/-! ### `strings` -/

/-- `strings.HasPrefix(s, p)` -/
def hasPrefix (s p : GoStr) : Bool := p.isPrefixOf s

/-- `strings.HasSuffix(s, p)` -/
def hasSuffix (s p : GoStr) : Bool := p.isSuffixOf s

/-- `strings.TrimPrefix(s, p)` -/
def trimPrefix (s p : GoStr) : GoStr := if hasPrefix s p then s.drop p.length else s

/-- `strings.TrimSuffix(s, p)` -/
def trimSuffix (s p : GoStr) : GoStr :=
  if p.isSuffixOf s then s.take (s.length - p.length) else s

theorem hasPrefix_iff {s p : GoStr} : s.hasPrefix p = true ↔ p <+: s := List.isPrefixOf_iff_prefix

theorem hasSuffix_iff {s p : GoStr} : s.hasSuffix p = true ↔ p <:+ s := List.isSuffixOf_iff_suffix

theorem trimPrefix_append (p s : GoStr) : (p ++ s).trimPrefix p = s := by
  unfold trimPrefix
  rw [if_pos (hasPrefix_iff.mpr (List.prefix_append p s)), List.drop_left]

theorem trimSuffix_append (s p : GoStr) : (s ++ p).trimSuffix p = s := by
  unfold trimSuffix
  rw [if_pos (List.isSuffixOf_iff_suffix.mpr (List.suffix_append s p)), List.length_append,
    Nat.add_sub_cancel, List.take_left]

theorem append_trimPrefix {s p : GoStr} (h : s.hasPrefix p = true) : p ++ s.trimPrefix p = s := by
  obtain ⟨t, rfl⟩ := hasPrefix_iff.mp h
  rw [trimPrefix_append]

/-! ### `filepath` -/

/-- The path starts at the root. -/
def isAbs (path : GoStr) : Bool := path.hasPrefix ['/']

/-- The components of a path in normal form. -/
def cleanComponents (path : GoStr) : List GoStr :=
  (normComponents path.isAbs [] (path.splitOn '/')).reverse

/-- The path with these components. -/
def ofComponents (absolute : Bool) (comps : List GoStr) : GoStr :=
  let out := (if absolute then ['/'] else []) ++ List.intercalate ['/'] comps
  if out = [] then ['.'] else out

/-- `filepath.Clean` -/
def clean (path : GoStr) : GoStr := ofComponents path.isAbs path.cleanComponents

/-- `filepath.Join` of two elements, of which the empty ones in front are skipped. -/
def join (a b : GoStr) : GoStr :=
  if a ≠ [] then clean (a ++ '/' :: b) else if b ≠ [] then clean b else []

/-- `filepath.Rel`; `none` where it fails. -/
def rel (basepath targpath : GoStr) : Option GoStr :=
  let base := clean basepath
  let targ := clean targpath
  if targ = base then some ['.']
  else
    -- Rel compares the components of the current directory as of an empty path
    let base := if base = ['.'] then [] else base
    if isAbs base ≠ isAbs targ then none
    else
      let bs := (base.splitOn '/').filter (· ≠ [])
      let ts := (targ.splitOn '/').filter (· ≠ [])
      let common := (commonPrefix bs ts).length
      -- the way up out of the base cannot be written down when the base goes up itself
      if (bs.drop common).head? = some ['.', '.'] then none
      else some (List.intercalate ['/']
        (List.replicate (bs.length - common) ['.', '.'] ++ ts.drop common))

/-- Components that `Clean` keeps as they are: for a relative path there may be `..` at the
front. -/
def Normal (absolute : Bool) (comps : List GoStr) : Prop :=
  ∃ n l, comps = List.replicate n ['.', '.'] ++ l ∧ (∀ c ∈ l, Plain c) ∧ (absolute = true → n = 0)

variable {absolute : Bool} {comps l : List GoStr} {path m : GoStr}

/-- A cleaned path is normal. -/
theorem cleanComponents_normal (path : GoStr) : Normal path.isAbs path.cleanComponents := by
  have hmem : ∀ c ∈ path.cleanComponents, c ≠ [] ∧ c ≠ ['.'] ∧ '/' ∉ c := by
    intro c hc
    rcases PyStr.mem_of_normComponents (List.mem_reverse.mp hc) with hc | ⟨hc, hne, hdot⟩
    · cases hc
    · exact ⟨hne, hdot, PyStr.sep_free_of_splitOn hc⟩
  cases habs : path.isAbs with
  | true =>
      refine ⟨0, path.cleanComponents, rfl, fun c hc => ?_, fun _ => rfl⟩
      obtain ⟨hne, hdot, hslash⟩ := hmem c hc
      refine ⟨hne, hdot, ?_, hslash⟩
      rintro rfl
      unfold cleanComponents at hc
      rw [habs, List.mem_reverse] at hc
      exact PyStr.up_not_mem_absolute List.not_mem_nil hc
  | false =>
      obtain ⟨l, n, hfront, hl⟩ : ∃ l n, normComponents false [] (path.splitOn '/') =
          l ++ List.replicate n ['.', '.'] ∧ ['.', '.'] ∉ l :=
        PyStr.normComponents_front ⟨[], 0, rfl, List.not_mem_nil⟩
      have hcomps : path.cleanComponents = List.replicate n ['.', '.'] ++ l.reverse := by
        unfold cleanComponents
        rw [habs, hfront, List.reverse_append, List.reverse_replicate]
      refine ⟨n, l.reverse, hcomps, fun c hc => ?_, nofun⟩
      obtain ⟨hne, hdot, hslash⟩ := hmem c (hcomps ▸ List.mem_append_right _ hc)
      exact ⟨hne, hdot, fun heq => hl (heq ▸ List.mem_reverse.mp hc), hslash⟩

theorem Normal.append (h : Normal absolute comps) (hl : ∀ c ∈ l, Plain c) :
    Normal absolute (comps ++ l) := by
  obtain ⟨n, l₀, rfl, hl₀, hn⟩ := h
  refine ⟨n, l₀ ++ l, List.append_assoc .., fun c hc => ?_, hn⟩
  exact (List.mem_append.mp hc).elim (hl₀ c) (hl c)

/-- The `..` at the front of a relative path stay. -/
theorem normComponents_replicate_up (n k : ℕ) :
    normComponents false (List.replicate k ['.', '.']) (List.replicate n ['.', '.']) =
      List.replicate (n + k) ['.', '.'] := by
  induction n generalizing k with
  | zero => rw [List.replicate_zero, Nat.zero_add]; rfl
  | succ n ih =>
      have hkeep : (!false && (List.replicate k ['.', '.']).isEmpty) = true ∨
          (List.replicate k ['.', '.']).head? = some ['.', '.'] := by
        cases k with
        | zero => exact .inl rfl
        | succ k => exact .inr rfl
      rw [List.replicate_succ, normComponents_cons, if_neg (by decide), if_pos (.inr hkeep),
        ← List.replicate_succ, ih (k + 1), Nat.succ_add_eq_add_succ]

/-- What `Clean` keeps. -/
theorem normComponents_normal (h : Normal absolute comps) :
    normComponents absolute [] comps = comps.reverse := by
  obtain ⟨n, l, rfl, hl, hn⟩ := h
  have hups : normComponents absolute [] (List.replicate n ['.', '.']) =
      List.replicate n ['.', '.'] := by
    cases absolute with
    | true => rw [hn rfl]; rfl
    | false => exact normComponents_replicate_up n 0
  rw [PyStr.normComponents_append, hups, PyStr.normComponents_plain hl, List.reverse_append,
    List.reverse_replicate]

theorem Normal.slash_free (h : Normal absolute comps) : ∀ c ∈ comps, c ≠ [] ∧ '/' ∉ c := by
  obtain ⟨n, l, rfl, hl, -⟩ := h
  intro c hc
  rcases List.mem_append.mp hc with hc | hc
  · rw [List.eq_of_mem_replicate hc]
    decide
  · exact ⟨(hl c hc).1, (hl c hc).2.2.2⟩

/-- A list of components starts with no slash. -/
theorem intercalate_head (h : ∀ c ∈ comps, c ≠ [] ∧ '/' ∉ c) (hne : comps ≠ []) :
    ∃ x s, List.intercalate ['/'] comps = x :: s ∧ x ≠ '/' := by
  cases comps with
  | nil => exact absurd rfl hne
  | cons c cs =>
      obtain ⟨hc, hslash⟩ := h c (List.mem_cons_self ..)
      cases c with
      | nil => exact absurd rfl hc
      | cons x c =>
          have hx : x ≠ '/' := fun heq => hslash (heq ▸ List.mem_cons_self ..)
          by_cases hcs : cs = []
          · subst hcs
            exact ⟨x, c, by simp [List.intercalate], hx⟩
          · exact ⟨x, _, PyStr.intercalate_cons hcs, hx⟩

theorem ofComponents_true (comps : List GoStr) :
    ofComponents true comps = '/' :: List.intercalate ['/'] comps := rfl

theorem ofComponents_false (h : Normal false comps) (hne : comps ≠ []) :
    ofComponents false comps = List.intercalate ['/'] comps := by
  obtain ⟨x, s, hx, -⟩ := intercalate_head h.slash_free hne
  unfold ofComponents
  rw [hx]
  rfl

/-- A path in normal form is absolute if it is put together so. -/
theorem isAbs_ofComponents (h : Normal absolute comps) :
    (ofComponents absolute comps).isAbs = absolute := by
  cases absolute with
  | true => rfl
  | false =>
      by_cases hne : comps = []
      · subst hne
        rfl
      · obtain ⟨x, s, hx, hslash⟩ := intercalate_head h.slash_free hne
        rw [ofComponents_false h hne, hx]
        show (('/' == x) && _) = false
        rw [beq_eq_false_iff_ne.mpr hslash.symm, Bool.false_and]

/-- Empty components are skipped. -/
theorem normComponents_filter (acc cs : List GoStr) :
    normComponents absolute acc (cs.filter (· ≠ [])) = normComponents absolute acc cs := by
  induction cs generalizing acc with
  | nil => rfl
  | cons c cs ih =>
      by_cases hc : c = []
      · rw [List.filter_cons_of_neg (by simpa using hc), normComponents_cons, if_pos (.inl hc)]
        exact ih acc
      · rw [List.filter_cons_of_pos (by simpa using hc), normComponents_cons, normComponents_cons]
        split
        · exact ih acc
        · split
          · exact ih (c :: acc)
          · exact ih acc.tail

/-- The components of a path in normal form, apart from empty ones. -/
theorem filter_splitOn_ofComponents (h : Normal absolute comps)
    (hne : comps ≠ [] ∨ absolute = true) :
    ((ofComponents absolute comps).splitOn '/').filter (· ≠ []) = comps := by
  have hcomps := PyStr.filter_splitOn_intercalate h.slash_free
  cases absolute with
  | true =>
      rw [ofComponents_true]
      exact (PyStr.filter_splitOn_replicate 1).trans hcomps
  | false =>
      rw [ofComponents_false h (hne.resolve_right Bool.false_ne_true)]
      exact hcomps

/-- **`Clean`** does nothing to a path in normal form. -/
theorem clean_ofComponents (h : Normal absolute comps) :
    clean (ofComponents absolute comps) = ofComponents absolute comps := by
  unfold clean cleanComponents
  rw [isAbs_ofComponents h]
  by_cases hne : comps ≠ [] ∨ absolute = true
  · rw [← normComponents_filter, filter_splitOn_ofComponents h hne, normComponents_normal h,
      List.reverse_reverse]
  · rw [not_or, not_not] at hne
    obtain ⟨rfl, habs⟩ := hne
    rw [Bool.not_eq_true] at habs
    subst habs
    rfl

/-- The components of a path that is in normal form. -/
theorem splitOn_plain (hl : ∀ c ∈ l, Plain c) (hne : l ≠ []) :
    (List.intercalate ['/'] l).splitOn '/' = l :=
  PyStr.splitOn_intercalate (fun c hc => (hl c hc).2.2.2) hne

/-- **`Join`** puts the components one after the other. -/
theorem join_eq (m : GoStr) (hl : ∀ c ∈ l, Plain c) (hne : l ≠ []) :
    join m (List.intercalate ['/'] l) = ofComponents m.isAbs (m.cleanComponents ++ l) := by
  obtain ⟨x, s, hx, hslash⟩ := intercalate_head (fun c hc => ⟨(hl c hc).1, (hl c hc).2.2.2⟩) hne
  unfold join
  split
  next hm =>
    have habs : isAbs (m ++ '/' :: List.intercalate ['/'] l) = m.isAbs := by
      cases m with
      | nil => exact absurd rfl hm
      | cons y m => rfl
    unfold clean cleanComponents
    rw [habs, List.splitOn_append_cons_self, PyStr.normComponents_append, splitOn_plain hl hne,
      PyStr.normComponents_plain hl, List.reverse_append, List.reverse_reverse]
  next hm =>
    rw [not_not] at hm
    subst hm
    have habs : isAbs (List.intercalate ['/'] l) = false := by
      rw [hx]
      show (('/' == x) && _) = false
      rw [beq_eq_false_iff_ne.mpr hslash.symm, Bool.false_and]
    rw [if_pos (by rw [hx]; exact List.cons_ne_nil _ _)]
    unfold clean cleanComponents
    rw [habs, splitOn_plain hl hne, PyStr.normComponents_plain hl, List.append_nil,
      List.reverse_reverse]
    rfl

theorem commonPrefix_self_append (base : List GoStr) :
    commonPrefix base (base ++ l) = base := by
  have h := PyStr.commonPrefix_append base [] l
  rw [List.append_nil] at h
  rw [h]
  exact List.append_nil base

/-- No component is a dot. -/
theorem Normal.dot_not_mem (h : Normal absolute comps) : ['.'] ∉ comps := by
  obtain ⟨n, l, rfl, hl, -⟩ := h
  intro hmem
  rcases List.mem_append.mp hmem with hmem | hmem
  · exact absurd (List.eq_of_mem_replicate hmem) (by decide)
  · exact (hl _ hmem).2.1 rfl

/-- Only the empty relative path is a dot. -/
theorem ofComponents_eq_dot (h : Normal absolute comps) :
    ofComponents absolute comps = ['.'] ↔ comps = [] ∧ absolute = false := by
  constructor
  · intro hdot
    by_contra hnot
    have hne : comps ≠ [] ∨ absolute = true := by
      rwa [not_and_or, Bool.not_eq_false] at hnot
    have hsplit := filter_splitOn_ofComponents h hne
    rw [hdot] at hsplit
    exact h.dot_not_mem (hsplit ▸ List.mem_singleton_self _)
  · rintro ⟨rfl, rfl⟩
    rfl

/-- **`Rel`** finds a path that was joined to a directory. -/
theorem rel_join (m : GoStr) (hl : ∀ c ∈ l, Plain c) (hne : l ≠ []) :
    rel m (join m (List.intercalate ['/'] l)) = some (List.intercalate ['/'] l) := by
  have hbase := cleanComponents_normal m
  have htarg := hbase.append hl
  have htargne : m.cleanComponents ++ l ≠ [] := by simp [hne]
  have hsplit := filter_splitOn_ofComponents htarg (.inl htargne)
  -- the base without its dot has the components of the directory
  have hcomps : ((if clean m = ['.'] then [] else clean m).splitOn '/').filter (· ≠ []) =
      m.cleanComponents ∧ isAbs (if clean m = ['.'] then [] else clean m) = m.isAbs := by
    split
    next hdot =>
      obtain ⟨hnil, habs⟩ := (ofComponents_eq_dot hbase).mp hdot
      rw [hnil, habs]
      exact ⟨rfl, rfl⟩
    next hdot =>
      refine ⟨filter_splitOn_ofComponents hbase ?_, isAbs_ofComponents hbase⟩
      rwa [clean, ofComponents_eq_dot hbase, not_and_or, Bool.not_eq_false] at hdot
  have hdiff : ofComponents m.isAbs (m.cleanComponents ++ l) ≠ clean m := by
    intro heq
    by_cases hdot : clean m = ['.']
    · rw [hdot] at heq
      exact htargne ((ofComponents_eq_dot htarg).mp heq).1
    · rw [if_neg hdot, ← heq, hsplit] at hcomps
      exact hne (List.append_right_eq_self.mp hcomps.1)
  rw [join_eq m hl hne]
  unfold rel
  rw [clean_ofComponents htarg, if_neg hdiff]
  dsimp only
  rw [hcomps.2, isAbs_ofComponents htarg, if_neg (by simp), hcomps.1, hsplit,
    commonPrefix_self_append, List.drop_length, if_neg nofun, Nat.sub_self, List.drop_left]
  rfl

/-- Distinct components are distinct paths in a directory. -/
theorem join_injective (m : GoStr) {l' : List GoStr} (hl : ∀ c ∈ l, Plain c)
    (hl' : ∀ c ∈ l', Plain c) (hne : l ≠ []) (hne' : l' ≠ [])
    (h : join m (List.intercalate ['/'] l) = join m (List.intercalate ['/'] l')) : l = l' := by
  have hrel := rel_join m hl hne
  rw [h, rel_join m hl' hne'] at hrel
  have hsplit := congrArg (List.splitOn '/') (Option.some.inj hrel)
  rw [splitOn_plain hl hne, splitOn_plain hl' hne'] at hsplit
  exact hsplit.symm

/-- The join of two lists that are not empty. -/
theorem intercalate_append {l l' : List GoStr} (hne : l ≠ []) (hne' : l' ≠ []) :
    List.intercalate ['/'] (l ++ l') =
      List.intercalate ['/'] l ++ '/' :: List.intercalate ['/'] l' := by
  induction l with
  | nil => exact absurd rfl hne
  | cons c cs ih =>
      rw [List.cons_append, PyStr.intercalate_cons (by simp [hne'])]
      by_cases hcs : cs = []
      · subst hcs
        rw [List.nil_append]
        congr 1
        simp [List.intercalate]
      · rw [ih hcs, PyStr.intercalate_cons hcs, List.append_assoc, List.cons_append]

/-- A path is on the way to another if it has the first of its components. -/
theorem slash_prefix_iff {l l' : List GoStr} (hl : ∀ c ∈ l, '/' ∉ c) (hl' : ∀ c ∈ l', '/' ∉ c)
    (hne : l ≠ []) (hne' : l' ≠ []) :
    List.intercalate ['/'] l ++ ['/'] <+: List.intercalate ['/'] l' ↔ l <+: l' ∧ l ≠ l' := by
  constructor
  · rintro ⟨r, hr⟩
    have hsplit := congrArg (List.splitOn '/') hr
    rw [List.append_assoc, List.singleton_append, List.splitOn_append_cons_self,
      PyStr.splitOn_intercalate hl hne, PyStr.splitOn_intercalate hl' hne'] at hsplit
    refine ⟨⟨_, hsplit⟩, ?_⟩
    rintro rfl
    exact List.splitOn_ne_nil '/' r (List.append_right_eq_self.mp hsplit)
  · rintro ⟨⟨r, rfl⟩, hneq⟩
    have hr : r ≠ [] := by
      rintro rfl
      exact hneq (List.append_nil l).symm
    rw [intercalate_append hne hr]
    exact ⟨List.intercalate ['/'] r, by rw [List.append_assoc, List.singleton_append]⟩

/-- A path in a directory is on the way to another one if it is so without the directory. -/
theorem join_slash_prefix_iff (m : GoStr) {l' : List GoStr} (hl : ∀ c ∈ l, Plain c)
    (hl' : ∀ c ∈ l', Plain c) (hne : l ≠ []) (hne' : l' ≠ []) :
    join m (List.intercalate ['/'] l) ++ ['/'] <+: join m (List.intercalate ['/'] l') ↔
      l <+: l' ∧ l ≠ l' := by
  have hbase := cleanComponents_normal m
  have hcomps := slash_prefix_iff (fun c hc => ((hbase.append hl).slash_free c hc).2)
    (fun c hc => ((hbase.append hl').slash_free c hc).2)
    (show m.cleanComponents ++ l ≠ [] by simp [hne])
    (show m.cleanComponents ++ l' ≠ [] by simp [hne'])
  rw [List.prefix_append_right_inj, ne_eq, List.append_right_inj] at hcomps
  rw [join_eq m hl hne, join_eq m hl' hne', ← hcomps]
  cases habs : m.isAbs with
  | true =>
      rw [ofComponents_true, ofComponents_true, List.cons_append, List.prefix_cons_inj]
  | false =>
      rw [habs] at hbase
      rw [ofComponents_false (hbase.append hl) (by simp [hne]),
        ofComponents_false (hbase.append hl') (by simp [hne'])]

end GoStr
