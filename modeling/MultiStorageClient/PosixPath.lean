/-
MultiStorageClient/PosixPath.lean

`posixpath.normpath` and `posixpath.relpath`, by components.

`normpath` keeps a stack of components (`normComponents`).  A relative path has
a normal form without `..` at the front if and only if its stack never runs
empty; then the same components do the same on top of any other stack
(`normComponents_under`), so a path relative to the working directory and the
path alone have the same components above it.

`relpath` goes up from the one path to the last directory that both have in
common and down to the other (`relpath_eq`).
-/
import MultiStorageClient.PyStr

namespace PyStr

/-- The loop of `os.path.normpath` over the components, the last one kept
first. -/
def normComponents (absolute : Bool) : List PyStr → List PyStr → List PyStr
  | acc, [] => acc
  | acc, c :: cs =>
      if c = [] ∨ c = ['.'] then normComponents absolute acc cs
      else if c ≠ ['.', '.'] ∨ (!absolute && acc.isEmpty) ∨ acc.head? = some ['.', '.'] then
        normComponents absolute (c :: acc) cs
      else normComponents absolute acc.tail cs

/-- `os.path.normpath` -/
def normpath (p : PyStr) : PyStr :=
  -- two leading slashes are kept, more are one
  let slashes := if p.startswith "//".toList ∧ ¬ p.startswith "///".toList then 2
    else if p.startswith ['/'] then 1 else 0
  let comps := (normComponents (slashes ≠ 0) [] (p.splitOn '/')).reverse
  let norm := List.replicate slashes '/' ++ List.intercalate ['/'] comps
  if norm = [] then ['.'] else norm

/-- `os.path.abspath` -/
def abspath (cwd p : PyStr) : PyStr := normpath (if p.startswith ['/'] then p else join cwd p)

/-- `os.path.commonprefix` of two lists. -/
def commonPrefix {α : Type*} [DecidableEq α] : List α → List α → List α
  | a :: l, b :: l' => if a = b then a :: commonPrefix l l' else []
  | _, _ => []

/-- `os.path.relpath`, which refuses the empty path. -/
def relpath (cwd path start : PyStr) : Option PyStr :=
  if path = [] then none
  else
    let startList := ((abspath cwd start).splitOn '/').filter (· ≠ [])
    let pathList := ((abspath cwd path).splitOn '/').filter (· ≠ [])
    let i := (commonPrefix startList pathList).length
    match List.replicate (startList.length - i) ['.', '.'] ++ pathList.drop i with
    | [] => some ['.']
    | a :: relList => some (relList.foldl join a)

/-! ### Components -/

/-- A component of a path in normal form, other than `..`. -/
def Plain (c : PyStr) : Prop := c ≠ [] ∧ c ≠ ['.'] ∧ c ≠ ['.', '.'] ∧ '/' ∉ c

/-- The relative path with these components. -/
def ofComponents (l : List PyStr) : PyStr := if l = [] then ['.'] else List.intercalate ['/'] l

variable {absolute : Bool} {acc cs l l' : List PyStr} {p q : PyStr}

theorem normComponents_cons (c : PyStr) : normComponents absolute acc (c :: cs) =
    if c = [] ∨ c = ['.'] then normComponents absolute acc cs
    else if c ≠ ['.', '.'] ∨ (!absolute && acc.isEmpty) ∨ acc.head? = some ['.', '.'] then
      normComponents absolute (c :: acc) cs
    else normComponents absolute acc.tail cs := rfl

theorem commonPrefix_cons {α : Type*} [DecidableEq α] (a b : α) (s t : List α) :
    commonPrefix (a :: s) (b :: t) = if a = b then a :: commonPrefix s t else [] := rfl

/-- The components are worked off from left to right. -/
theorem normComponents_append (cs cs' : List PyStr) : normComponents absolute acc (cs ++ cs') =
    normComponents absolute (normComponents absolute acc cs) cs' := by
  induction cs generalizing acc with
  | nil => rfl
  | cons c cs ih =>
      rw [List.cons_append, normComponents_cons, normComponents_cons]
      split
      · exact ih
      · split
        · exact ih
        · exact ih

theorem normComponents_plain (h : ∀ c ∈ l, Plain c) :
    normComponents absolute acc l = l.reverse ++ acc := by
  induction l generalizing acc with
  | nil => rfl
  | cons c l ih =>
      obtain ⟨h₁, h₂, h₃, -⟩ := h c (List.mem_cons_self ..)
      rw [normComponents_cons, if_neg (not_or.mpr ⟨h₁, h₂⟩), if_pos (.inl h₃),
        ih fun c hc => h c (List.mem_cons_of_mem _ hc), List.reverse_cons, List.append_assoc]
      rfl

/-- Going up. -/
theorem normComponents_ups {u : ℕ} (h : ['.', '.'] ∉ acc) (hu : u ≤ acc.length) :
    normComponents absolute acc (List.replicate u ['.', '.']) = acc.drop u := by
  induction u generalizing acc with
  | zero => rfl
  | succ u ih =>
      cases acc with
      | nil => exact absurd hu (Nat.not_succ_le_zero u)
      | cons a acc =>
          have ha : a ≠ ['.', '.'] := fun heq => h (heq ▸ List.mem_cons_self ..)
          rw [List.replicate_succ, normComponents_cons, if_neg (by simp), if_neg (by simp [ha]),
            List.tail_cons, ih (fun hm => h (List.mem_cons_of_mem _ hm)) (by simpa using hu),
            List.drop_succ_cons]

/-- What is once below the start stays there. -/
theorem up_mem_normComponents (h : ['.', '.'] ∈ acc) :
    ['.', '.'] ∈ normComponents absolute acc cs := by
  induction cs generalizing acc with
  | nil => exact h
  | cons c cs ih =>
      rw [normComponents_cons]
      split
      · exact ih h
      · split
        · exact ih (List.mem_cons_of_mem _ h)
        next hc =>
          simp only [ne_eq, not_or, not_not] at hc
          refine ih ?_
          cases acc with
          | nil => cases h
          | cons a acc =>
              rcases List.mem_cons.mp h with rfl | h
              · exact absurd rfl hc.2.2
              · exact h

/-- **The same components on top of another stack.** -/
theorem normComponents_under {base : List PyStr}
    (h : ['.', '.'] ∉ normComponents false acc cs) :
    normComponents absolute (acc ++ base) cs = normComponents false acc cs ++ base := by
  induction cs generalizing acc with
  | nil => rfl
  | cons c cs ih =>
      rw [normComponents_cons] at h ⊢
      rw [normComponents_cons]
      by_cases hskip : c = [] ∨ c = ['.']
      · rw [if_pos hskip] at h ⊢
        rw [if_pos hskip]
        exact ih h
      · rw [if_neg hskip] at h ⊢
        rw [if_neg hskip]
        by_cases hup : c = ['.', '.']
        · subst hup
          cases acc with
          | nil =>
              rw [if_pos (by simp)] at h
              exact absurd (up_mem_normComponents (List.mem_cons_self ..)) h
          | cons a acc =>
              by_cases ha : a = ['.', '.']
              · rw [if_pos (by simp [ha])] at h
                exact absurd (up_mem_normComponents (List.mem_cons_self ..)) h
              · rw [if_neg (by simp [ha])] at h ⊢
                rw [if_neg (by simp [ha])]
                exact ih h
        · rw [if_pos (.inl hup)] at h ⊢
          rw [if_pos (.inl hup)]
          exact ih h

/-- Every component comes from the path. -/
theorem mem_of_normComponents {c : PyStr} (h : c ∈ normComponents absolute acc cs) :
    c ∈ acc ∨ c ∈ cs ∧ c ≠ [] ∧ c ≠ ['.'] := by
  induction cs generalizing acc with
  | nil => exact .inl h
  | cons x cs ih =>
      rw [normComponents_cons] at h
      split at h
      · rcases ih h with h | ⟨h, hne⟩
        · exact .inl h
        · exact .inr ⟨List.mem_cons_of_mem _ h, hne⟩
      next hskip =>
        split at h
        · rcases ih h with h | ⟨h, hne⟩
          · rcases List.mem_cons.mp h with rfl | h
            · exact .inr ⟨List.mem_cons_self .., not_or.mp hskip⟩
            · exact .inl h
          · exact .inr ⟨List.mem_cons_of_mem _ h, hne⟩
        · rcases ih h with h | ⟨h, hne⟩
          · exact .inl (List.mem_of_mem_tail h)
          · exact .inr ⟨List.mem_cons_of_mem _ h, hne⟩

/-- An absolute path does not go above its root. -/
theorem up_not_mem_absolute (h : ['.', '.'] ∉ acc) :
    ['.', '.'] ∉ normComponents true acc cs := by
  induction cs generalizing acc with
  | nil => exact h
  | cons c cs ih =>
      rw [normComponents_cons]
      split
      · exact ih h
      · split
        next hc =>
          refine ih fun hm => ?_
          rcases List.mem_cons.mp hm with heq | hm
          · rcases hc with hc | hc | hc
            · exact hc heq.symm
            · simp at hc
            · exact h (List.mem_of_mem_head? hc)
          · exact h hm
        · exact ih fun hm => h (List.mem_of_mem_tail hm)

/-- The `..` of a relative path in normal form stand at its front. -/
theorem normComponents_front (h : ∃ l n, acc = l ++ List.replicate n ['.', '.'] ∧ ['.', '.'] ∉ l) :
    ∃ l n, normComponents false acc cs = l ++ List.replicate n ['.', '.'] ∧ ['.', '.'] ∉ l := by
  induction cs generalizing acc with
  | nil => exact h
  | cons c cs ih =>
      obtain ⟨l, n, rfl, hl⟩ := h
      rw [normComponents_cons]
      split
      · exact ih ⟨l, n, rfl, hl⟩
      · by_cases hup : c = ['.', '.']
        · subst hup
          cases l with
          | nil =>
              -- nothing is left to go up from
              rw [if_pos]
              · exact ih ⟨[], n + 1, rfl, hl⟩
              · cases n with
                | zero => exact .inr (.inl rfl)
                | succ n => exact .inr (.inr rfl)
          | cons a l =>
              have ha : a ≠ ['.', '.'] := fun heq => hl (heq ▸ List.mem_cons_self ..)
              rw [if_neg (by simp [ha])]
              exact ih ⟨l, n, rfl, fun hm => hl (List.mem_cons_of_mem _ hm)⟩
        · rw [if_pos (.inl hup)]
          refine ih ⟨c :: l, n, rfl, fun hm => ?_⟩
          rcases List.mem_cons.mp hm with heq | hm
          · exact hup heq.symm
          · exact hl hm

/-! ### Texts -/

theorem intercalate_cons {a : PyStr} (h : l ≠ []) :
    List.intercalate ['/'] (a :: l) = a ++ '/' :: List.intercalate ['/'] l := by
  cases l with
  | nil => exact absurd rfl h
  | cons b l => simp [List.intercalate]

/-- A join without slashes is split back. -/
theorem splitOn_intercalate (h : ∀ c ∈ l, '/' ∉ c) (hne : l ≠ []) :
    (List.intercalate ['/'] l).splitOn '/' = l := by
  induction l with
  | nil => exact absurd rfl hne
  | cons a l ih =>
      have ha : '/' ∉ a := h a (List.mem_cons_self ..)
      by_cases hl : l = []
      · subst hl
        simpa [List.intercalate] using List.splitOn_eq_singleton ha
      · rw [intercalate_cons hl, List.splitOn_append_cons_self, List.splitOn_eq_singleton ha,
          ih (fun c hc => h c (List.mem_cons_of_mem _ hc)) hl, List.singleton_append]

/-- The components of a text are the components. -/
theorem normComponents_ofComponents (h : ∀ c ∈ l, '/' ∉ c) :
    normComponents absolute acc ((ofComponents l).splitOn '/') = normComponents absolute acc l := by
  unfold ofComponents
  split
  next hl =>
    subst hl
    rw [List.splitOn_eq_singleton (show '/' ∉ ['.'] by decide), normComponents_cons]
    exact if_pos (.inr rfl)
  next hl => rw [splitOn_intercalate h hl]

/-- Components without slashes and dots are read back. -/
theorem ofComponents_injective (h : ∀ c ∈ l, '/' ∉ c ∧ c ≠ ['.'])
    (h' : ∀ c ∈ l', '/' ∉ c ∧ c ≠ ['.'])
    (heq : ofComponents l = ofComponents l') : l = l' := by
  have hsplit : ∀ {l : List PyStr}, (∀ c ∈ l, '/' ∉ c ∧ c ≠ ['.']) →
      (ofComponents l).splitOn '/' = if l = [] then [['.']] else l := by
    intro l h
    unfold ofComponents
    split
    · exact List.splitOn_eq_singleton (by decide)
    next hl => exact splitOn_intercalate (fun c hc => (h c hc).1) hl
  have hboth := congrArg (List.splitOn '/') heq
  rw [hsplit h, hsplit h'] at hboth
  split at hboth
  next hl =>
    split at hboth
    next hl' => rw [hl, hl']
    next hl' => exact absurd rfl (h' ['.'] (hboth ▸ List.mem_cons_self ..)).2
  next hl =>
    split at hboth
    next hl' => exact absurd rfl (h ['.'] (hboth ▸ List.mem_cons_self ..)).2
    next hl' => exact hboth

/-- A part of a split has no separator. -/
theorem sep_free_of_splitOn {sep : Char} {c : PyStr} (h : c ∈ p.splitOn sep) : sep ∉ c := by
  induction p generalizing c with
  | nil =>
      obtain rfl : c = [] := by simpa [List.splitOn_nil] using h
      exact List.not_mem_nil
  | cons x p ih =>
      rw [List.splitOn_cons_eq_if_modifyHead] at h
      split at h
      · rcases List.mem_cons.mp h with rfl | h
        · exact List.not_mem_nil
        · exact ih h
      next hx =>
        have hne : sep ≠ x := by
          rintro rfl
          exact hx (beq_self_eq_true _)
        cases hsplit : p.splitOn sep with
        | nil => exact absurd hsplit (List.splitOn_ne_nil sep p)
        | cons a as =>
            rw [hsplit, List.modifyHead_cons] at h
            rcases List.mem_cons.mp h with rfl | h
            · rw [List.mem_cons, not_or]
              exact ⟨hne, ih (hsplit ▸ List.mem_cons_self ..)⟩
            · exact ih (hsplit ▸ List.mem_cons_of_mem _ h)

/-- The normal form of a relative path. -/
theorem normpath_of_relative (h : p.startswith ['/'] = false) :
    normpath p = ofComponents (normComponents false [] (p.splitOn '/')).reverse := by
  -- without a first slash there are not two of them
  have h₂ : p.startswith "//".toList = false := by
    cases p with
    | nil => rfl
    | cons a p =>
        have ha : ('/' == a) = false := by
          have h : (('/' == a) && List.isPrefixOf [] p) = false := h
          simpa using h
        show (('/' == a) && _) = false
        rw [ha, Bool.false_and]
  unfold normpath ofComponents
  simp only [h, h₂, Bool.false_eq_true, false_and, if_false, List.replicate_zero, List.nil_append,
    ne_eq, not_true_eq_false, decide_false]
  -- an empty join has no components, as none of them is empty
  have hnil : List.intercalate ['/'] (normComponents false [] (p.splitOn '/')).reverse = [] ↔
      (normComponents false [] (p.splitOn '/')).reverse = [] := by
    constructor
    · intro hi
      by_contra hne
      have hmem : ∀ c ∈ (normComponents false [] (p.splitOn '/')).reverse, c ≠ [] ∧ '/' ∉ c := by
        intro c hc
        rcases mem_of_normComponents (List.mem_reverse.mp hc) with hc | ⟨hc, hne, -⟩
        · cases hc
        · exact ⟨hne, sep_free_of_splitOn hc⟩
      have hsplit := splitOn_intercalate (fun c hc => (hmem c hc).2) hne
      rw [hi, List.splitOn_nil] at hsplit
      exact (hmem [] (hsplit ▸ List.mem_singleton_self [])).1 rfl
    · intro hi
      rw [hi]
      rfl
  simp only [hnil]

/-- Leading slashes are empty components. -/
theorem filter_splitOn_replicate (n : ℕ) :
    ((List.replicate n '/' ++ p).splitOn '/').filter (· ≠ []) = (p.splitOn '/').filter
      (· ≠ []) := by
  induction n with
  | zero => rfl
  | succ n ih =>
      have hcons : (List.replicate (n + 1) '/' ++ p).splitOn '/' =
          [] :: (List.replicate n '/' ++ p).splitOn '/' := by
        rw [List.replicate_succ, List.cons_append]
        exact List.splitOn_append_cons_self [] _
      rw [hcons, ← ih]
      rfl

theorem normpath_of_absolute (h : p.startswith ['/'] = true) :
    ∃ n, normpath p =
      List.replicate n '/' ++ List.intercalate ['/']
        (normComponents true [] (p.splitOn '/')).reverse := by
  unfold normpath
  simp only [h, if_true]
  split
  · exact ⟨2, if_neg (by simp)⟩
  · exact ⟨1, if_neg (by simp)⟩

theorem filter_splitOn_intercalate (h : ∀ c ∈ l, c ≠ [] ∧ '/' ∉ c) :
    ((List.intercalate ['/'] l).splitOn '/').filter (· ≠ []) = l := by
  by_cases hl : l = []
  · subst hl
    rfl
  · rw [splitOn_intercalate (fun c hc => (h c hc).2) hl, List.filter_eq_self]
    exact fun c hc => decide_eq_true (h c hc).1

/-- The components of a path in a directory follow those of the directory. -/
theorem normComponents_join (absolute : Bool) (hp : p.startswith ['/'] = false) :
    normComponents absolute [] ((join q p).splitOn '/') =
      normComponents absolute (normComponents absolute [] (q.splitOn '/')) (p.splitOn '/') := by
  rw [join, if_neg (by rw [hp]; exact Bool.false_ne_true)]
  split
  next hc =>
    rcases hc with rfl | hend
    · rfl
    · -- the last component of the directory is empty
      obtain ⟨x, rfl⟩ : ∃ x, q = x ++ ['/'] := by
        have hlast : q.getLast? = some '/' := by simpa [endswith] using hend
        exact List.getLast?_eq_some_iff.mp hlast
      rw [List.append_assoc, List.singleton_append, List.splitOn_append_cons_self,
        List.splitOn_append_cons_self, normComponents_append, normComponents_append]
      rfl
  · rw [List.splitOn_append_cons_self, normComponents_append]

/-- **The components of an absolute path** built on the working directory. -/
theorem components_abspath {cwd : PyStr} (hcwd : cwd.startswith ['/'] = true)
    (hp : p.startswith ['/'] = false) :
    ((abspath cwd p).splitOn '/').filter (· ≠ []) =
      (normComponents true (normComponents true [] (cwd.splitOn '/')) (p.splitOn '/')).reverse := by
  have hjoin := normComponents_join true (q := cwd) hp
  have habs : (join cwd p).startswith ['/'] = true := by
    obtain ⟨x, rfl⟩ : ∃ x, cwd = '/' :: x := by
      cases cwd with
      | nil => cases hcwd
      | cons a x =>
          have ha : (('/' == a) && List.isPrefixOf [] x) = true := hcwd
          obtain rfl : '/' = a := by simpa using ha
          exact ⟨x, rfl⟩
    rw [join, if_neg (by rw [hp]; exact Bool.false_ne_true)]
    split
    · rfl
    · rfl
  obtain ⟨n, hn⟩ := normpath_of_absolute habs
  rw [abspath, hp, if_neg Bool.false_ne_true, hn, filter_splitOn_replicate, hjoin]
  refine filter_splitOn_intercalate fun c hc => ?_
  rw [← hjoin] at hc
  rcases mem_of_normComponents (List.mem_reverse.mp hc) with hc | ⟨hc, hne, -⟩
  · cases hc
  · exact ⟨hne, sep_free_of_splitOn hc⟩

/-- Joining components puts slashes between them. -/
theorem foldl_join {a : PyStr} (ha : a ≠ []) (hlast : a.getLast? ≠ some '/')
    (h : ∀ c ∈ l, c ≠ [] ∧ '/' ∉ c) : l.foldl join a = List.intercalate ['/'] (a :: l) := by
  induction l generalizing a with
  | nil => simp [List.intercalate]
  | cons b l ih =>
      obtain ⟨hb, hslash⟩ := h b (List.mem_cons_self ..)
      have hrest : ∀ c ∈ l, c ≠ [] ∧ '/' ∉ c := fun c hc => h c (List.mem_cons_of_mem _ hc)
      -- a component that is not absolute is put behind a slash
      have hjoin : join a b = a ++ '/' :: b := by
        have hhead : b.startswith ['/'] = false := by
          cases b with
          | nil => exact absurd rfl hb
          | cons x b =>
              have hx : ('/' == x) = false :=
                beq_eq_false_iff_ne.mpr fun heq => hslash (heq ▸ List.mem_cons_self ..)
              show (('/' == x) && _) = false
              rw [hx, Bool.false_and]
        rw [join, if_neg (by rw [hhead]; exact Bool.false_ne_true), if_neg]
        rintro (hc | hc)
        · exact ha hc
        · exact hlast (by simpa [endswith] using hc)
      rw [List.foldl_cons, hjoin, ih (by simp) ?_ hrest, intercalate_cons (List.cons_ne_nil b l)]
      · cases l with
        | nil => simp [List.intercalate]
        | cons c l => simp [List.intercalate]
      · rw [List.getLast?_append, List.getLast?_cons]
        intro hc
        have hmem : '/' ∈ b := by
          cases hl : b.getLast? with
          | none => exact absurd (List.getLast?_eq_none_iff.mp hl) hb
          | some x =>
              rw [hl] at hc
              obtain rfl : x = '/' := by simpa using hc
              exact List.mem_of_getLast? hl
        exact hslash hmem

/-! ### `relpath` -/

/-- The components from one directory to a path beside it. -/
def relComponents (start path : List PyStr) : List PyStr :=
  List.replicate (start.length - (commonPrefix start path).length) ['.', '.'] ++
    path.drop (commonPrefix start path).length

theorem commonPrefix_append {α : Type*} [DecidableEq α] (base l l' : List α) :
    commonPrefix (base ++ l) (base ++ l') = base ++ commonPrefix l l' := by
  induction base with
  | nil => rfl
  | cons a base ih =>
      rw [List.cons_append, List.cons_append, commonPrefix_cons, if_pos rfl, ih]
      rfl

/-- **`relpath`** of two relative paths that do not go above the working
directory. -/
theorem relpath_eq {cwd start path : PyStr} {ls lp : List PyStr}
    (hcwd : cwd.startswith ['/'] = true) (hne : path ≠ []) (hs : start.startswith ['/'] = false)
    (hp : path.startswith ['/'] = false)
    (hls : normComponents false [] (start.splitOn '/') = ls.reverse) (hups : ['.', '.'] ∉ ls)
    (hlp : normComponents false [] (path.splitOn '/') = lp.reverse) (hupp : ['.', '.'] ∉ lp) :
    relpath cwd path start = some (ofComponents (relComponents ls lp)) := by
  -- both paths are taken below the current directory, which cancels
  have hunder :
      ∀ {q : PyStr} {l : List PyStr}, normComponents false [] (q.splitOn '/') = l.reverse →
      ['.', '.'] ∉ l → normComponents true (normComponents true [] (cwd.splitOn '/'))
        (q.splitOn '/') = l.reverse ++ normComponents true [] (cwd.splitOn '/') := by
    intro q l hq hup
    have hnot : ['.', '.'] ∉ normComponents false [] (q.splitOn '/') := by
      rw [hq, List.mem_reverse]
      exact hup
    rw [← hq]
    exact normComponents_under hnot
  have hmem : ∀ c ∈ lp, c ≠ [] ∧ '/' ∉ c := by
    intro c hc
    rw [← List.mem_reverse, ← hlp] at hc
    rcases mem_of_normComponents hc with hc | ⟨hc, hne, -⟩
    · cases hc
    · exact ⟨hne, sep_free_of_splitOn hc⟩
  have hrel : ∀ c ∈ relComponents ls lp, c ≠ [] ∧ '/' ∉ c := by
    intro c hc
    rcases List.mem_append.mp hc with hc | hc
    · rw [List.eq_of_mem_replicate hc]
      decide
    · exact hmem c (List.mem_of_mem_drop hc)
  simp only [relpath, if_neg hne, components_abspath hcwd hs, components_abspath hcwd hp,
    hunder hls hups, hunder hlp hupp, List.reverse_append, List.reverse_reverse,
    commonPrefix_append, List.length_append, Nat.add_sub_add_left, List.drop_append,
    List.drop_eq_nil_of_le (Nat.le_add_right _ _), List.nil_append, Nat.add_sub_cancel_left]
  show (match relComponents ls lp with
    | [] => some ['.']
    | a :: relList => some (relList.foldl join a)) = _
  cases hl : relComponents ls lp with
  -- nothing is left: the path is the start itself
  | nil => rfl
  | cons a l =>
      rw [hl] at hrel
      obtain ⟨ha, hslash⟩ := hrel a (List.mem_cons_self ..)
      have hlast : a.getLast? ≠ some '/' := fun hc => hslash (List.mem_of_getLast? hc)
      show some (l.foldl join a) = _
      rw [foldl_join ha hlast fun c hc => hrel c (List.mem_cons_of_mem _ hc)]
      rfl

/-! ### `dirname` -/

/-- The directory of a slash-free name. -/
theorem dirname_append {a r : PyStr} (ha : a ≠ []) (hl : a.getLast? ≠ some '/') (hr : '/' ∉ r) :
    dirname (a ++ '/' :: r) = a := by
  have hdrop : (a ++ '/' :: r).rdropWhile (· != '/') = a ++ ['/'] := by
    have hall : ∀ x ∈ r.reverse, (x != '/') = true := by
      intro x hx
      have : x ≠ '/' := fun h => hr (h ▸ List.mem_reverse.mp hx)
      simpa using this
    rw [List.rdropWhile, List.reverse_append, List.reverse_cons, List.append_assoc,
      List.dropWhile_append_of_pos hall]
    simp
  obtain ⟨l, c, rfl⟩ : ∃ l c, a = l ++ [c] :=
    ⟨a.dropLast, a.getLast ha, (List.dropLast_append_getLast ha).symm⟩
  have hc : c ≠ '/' := by
    rintro rfl
    exact hl (by simp)
  rw [dirname, hdrop]
  simp [rstrip, List.rdropWhile, hc]

theorem dirname_of_slash_free (h : '/' ∉ p) : dirname p = [] := by
  have hdrop : p.rdropWhile (· != '/') = [] := by
    rw [List.rdropWhile_eq_nil_iff]
    intro x hx
    exact bne_iff_ne.mpr fun heq => h (heq ▸ hx)
  rw [dirname, hdrop]
  rfl

theorem startswith_of_prefix (hp : p.startswith ['/'] = false) (hq : q <+: p) :
    q.startswith ['/'] = false := by
  cases q with
  | nil => rfl
  | cons a q =>
      obtain ⟨r, rfl⟩ := hq
      exact hp

/-- The directory of a relative path is relative. -/
theorem dirname_relative (hp : p.startswith ['/'] = false) :
    (dirname p).startswith ['/'] = false := by
  unfold dirname
  dsimp only
  have hhead : p.rdropWhile (· != '/') <+: p := List.rdropWhile_prefix _ _
  split
  · exact startswith_of_prefix hp hhead
  · exact startswith_of_prefix hp ((List.rdropWhile_prefix _ _).trans hhead)

/-! ### Common prefixes -/

section CommonPrefix

variable {α : Type*} [DecidableEq α] (m m' : List α)

/-- A list starts with what it has in common. -/
theorem commonPrefix_left :
    m = commonPrefix m m' ++ m.drop (commonPrefix m m').length := by
  induction m generalizing m' with
  | nil => cases m' <;> rfl
  | cons a m ih =>
      cases m' with
      | nil => rfl
      | cons b m' =>
          rw [commonPrefix_cons]
          split
          · rw [List.length_cons, List.drop_succ_cons, List.cons_append, ← ih m']
          · rfl

/-- The order of the two does not matter. -/
theorem commonPrefix_comm : commonPrefix m m' = commonPrefix m' m := by
  induction m generalizing m' with
  | nil => cases m' <;> rfl
  | cons a m ih =>
      cases m' with
      | nil => rfl
      | cons b m' =>
          rw [commonPrefix_cons, commonPrefix_cons, ih m']
          by_cases h : a = b
          · rw [if_pos h, if_pos h.symm, h]
          · rw [if_neg h, if_neg (Ne.symm h)]

theorem commonPrefix_right :
    m' = commonPrefix m m' ++ m'.drop (commonPrefix m m').length := by
  rw [commonPrefix_comm]
  exact commonPrefix_left m' m

/-- Nothing is common where the heads differ. -/
theorem commonPrefix_eq_nil :
    commonPrefix m m' = [] ↔ ¬∃ a, m.head? = some a ∧ m'.head? = some a := by
  cases m with
  | nil => simp [commonPrefix]
  | cons a m =>
      cases m' with
      | nil => simp [commonPrefix]
      | cons b m' =>
          rw [commonPrefix_cons]
          by_cases h : a = b
          · simp [h]
          · simp [h, Ne.symm h]

end CommonPrefix

end PyStr
