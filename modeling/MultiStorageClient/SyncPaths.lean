/-
MultiStorageClient/SyncPaths.lean

The two ends of a sync (`SyncManager.__init__` of `sync/manager.py`).

Source and target must not overlap on one storage backend.  The check compares
the paths as strings, as they are given: a path that ends inside a component of
the other passes for a parent, and two paths that overlap pass if a slash at the
start or behind another slash tells them apart (`init_raises_iff`).
-/
import MultiStorageClient.PosixPath

namespace MultiStorageClient

open PyStr

/-- A storage client, as the check sees it. -/
structure ComparedClient where
  /-- which object it is -/
  id : ℕ
  /-- `NullStorageClient` has none -/
  profile : Option PyStr
  deriving DecidableEq

/-- What `SyncManager` keeps of its arguments. -/
structure SyncEnds where
  sourceClient : ComparedClient
  targetClient : ComparedClient
  sourcePath : PyStr
  targetPath : PyStr

/-- What the check of the paths raises. -/
inductive SyncEndsError
  | valueError
  deriving DecidableEq

namespace SyncEnds

/-- `same_client` -/
def sameClient (source target : ComparedClient) : Bool :=
  source == target || source.profile.isSome && source.profile == target.profile

/-- `SyncManager.__init__` -/
def init (sourceClient : ComparedClient) (sourcePath : PyStr) (targetClient : ComparedClient)
    (targetPath : PyStr) : Except SyncEndsError SyncEnds :=
  if sameClient sourceClient targetClient ∧
      (sourcePath.startswith targetPath ∨ targetPath.startswith sourcePath) then
    .error .valueError
  else .ok ⟨sourceClient, targetClient, lstrip '/' sourcePath, lstrip '/' targetPath⟩

/-! ### Components -/

/-- The components of a path. -/
def components (p : PyStr) : List PyStr := ((lstrip '/' p).splitOn '/').filter (· ≠ [])

/-- One path is the other or an ancestor of it. -/
def Overlap (s t : PyStr) : Prop :=
  components s <+: components t ∨ components t <+: components s

/-- `s` is a prefix of `t` that ends inside a component. -/
def EndsInside (s t : PyStr) : Prop :=
  ∃ c u, t = s ++ c :: u ∧ c ≠ '/' ∧ s ≠ [] ∧ s.getLast? ≠ some '/'

/-- Where the paths first differ, `s` has a slash, at the start or behind a slash. -/
def SlashApart (s t : PyStr) : Prop :=
  ∃ w x c y, s = w ++ '/' :: x ∧ t = w ++ c :: y ∧ c ≠ '/' ∧ (w = [] ∨ w.getLast? = some '/')

variable {s t w k : PyStr} {c : Char}

theorem components_eq (p : PyStr) : components p = (p.splitOn '/').filter (· ≠ []) := by
  obtain ⟨n, hn⟩ := lstrip_spec '/' p
  unfold components
  conv_rhs => rw [hn, filter_splitOn_replicate]

theorem components_append_slash (s u : PyStr) :
    components (s ++ '/' :: u) = components s ++ components u := by
  rw [components_eq, components_eq, components_eq, List.splitOn_append_cons_self,
    List.filter_append]

/-- What follows a slash has its own components. -/
theorem components_append (hw : w = [] ∨ w.getLast? = some '/') (u : PyStr) :
    components (w ++ u) = components w ++ components u := by
  rcases hw with rfl | hlast
  · rfl
  · obtain ⟨v, rfl⟩ : ∃ v, w = v ++ ['/'] :=
      ⟨w.dropLast, (List.dropLast_append_getLast? _ hlast).symm⟩
    rw [List.append_assoc, List.singleton_append, components_append_slash,
      components_append_slash, show components [] = [] from rfl, List.append_nil]

/-- A name up to the end of the path is one component. -/
theorem components_name (hk : '/' ∉ k) (hne : k ≠ []) : components k = [k] := by
  rw [components_eq, List.splitOn_eq_singleton hk]
  simpa using hne

/-- A path that does not start with a slash starts with a component. -/
theorem components_cons (hk : '/' ∉ k) (hc : c ≠ '/') (u : PyStr) :
    ∃ v l, components (k ++ c :: u) = (k ++ c :: v) :: l := by
  have htake : '/' ∉ k ++ c :: u.takeWhile (· != '/') := by
    rw [List.mem_append, List.mem_cons, not_or, not_or]
    refine ⟨hk, hc.symm, fun h => ?_⟩
    simpa using List.mem_takeWhile_imp h
  have hne : k ++ c :: u.takeWhile (· != '/') ≠ [] := by simp
  have hname := components_name htake hne
  have hu := List.takeWhile_append_dropWhile (p := (· != '/')) (l := u)
  cases hrest : u.dropWhile (· != '/') with
  | nil =>
      rw [hrest, List.append_nil] at hu
      rw [hu] at hname
      exact ⟨u, [], hname⟩
  | cons d rest =>
      obtain rfl : d = '/' := by
        have := List.head?_dropWhile_not (p := (· != '/')) (l := u)
        rw [hrest] at this
        simpa using this
      rw [hrest] at hu
      refine ⟨u.takeWhile (· != '/'), components rest, ?_⟩
      conv_lhs => rw [← hu]
      rw [← List.cons_append, ← List.append_assoc, components_append_slash, hname]
      rfl

/-- A path is what its last slash ends and a name. -/
theorem dir_and_name (p : PyStr) :
    ∃ w k, p = w ++ k ∧ (w = [] ∨ w.getLast? = some '/') ∧ '/' ∉ k := by
  induction p using List.reverseRecOn with
  | nil => exact ⟨[], [], rfl, .inl rfl, List.not_mem_nil⟩
  | append_singleton p a ih =>
      by_cases ha : a = '/'
      · subst ha
        exact ⟨p ++ ['/'], [], (List.append_nil _).symm, .inr List.getLast?_concat,
          List.not_mem_nil⟩
      · obtain ⟨w, k, rfl, hw, hk⟩ := ih
        refine ⟨w, k ++ [a], List.append_assoc .., hw, ?_⟩
        rw [List.mem_append, List.mem_singleton, not_or]
        exact ⟨hk, Ne.symm ha⟩

/-! ### The check -/

/-- Below a path are its components, or the path ends inside one. -/
theorem components_of_under (h : s <+: t) : components s <+: components t ∨ EndsInside s t := by
  obtain ⟨u, rfl⟩ := h
  cases u with
  | nil =>
      left
      simp
  | cons c u =>
      by_cases hc : c = '/'
      · subst hc
        exact .inl ⟨_, (components_append_slash s u).symm⟩
      · by_cases hs : s = [] ∨ s.getLast? = some '/'
        · exact .inl ⟨_, (components_append hs (c :: u)).symm⟩
        · rw [not_or] at hs
          exact .inr ⟨c, u, rfl, hc, hs⟩

/-- A path that ends inside a component of the other does not overlap with it. -/
theorem EndsInside.not_overlap (h : EndsInside s t) : ¬Overlap s t := by
  obtain ⟨c, u, rfl, hc, hne, hlast⟩ := h
  obtain ⟨w, k, rfl, hw, hk⟩ := dir_and_name s
  have hk' : k ≠ [] := by
    rintro rfl
    rw [List.append_nil] at hne hlast
    exact hw.elim hne hlast
  obtain ⟨v, l, hcomp⟩ := components_cons hk hc u
  unfold Overlap
  rw [List.append_assoc, components_append hw, components_append hw, components_name hk hk', hcomp,
    List.prefix_append_right_inj, List.prefix_append_right_inj, List.cons_prefix_cons,
    List.cons_prefix_cons]
  rintro (⟨heq, -⟩ | ⟨heq, -⟩) <;> simp at heq

/-- Two strings of which neither is a prefix of the other have a first difference. -/
theorem first_difference (h : ¬s <+: t) (h' : ¬t <+: s) :
    ∃ w a x b y, s = w ++ a :: x ∧ t = w ++ b :: y ∧ a ≠ b := by
  induction s generalizing t with
  | nil => exact absurd List.nil_prefix h
  | cons a x ih =>
      cases t with
      | nil => exact absurd List.nil_prefix h'
      | cons b y =>
          by_cases hab : a = b
          · subst hab
            rw [List.prefix_cons_inj] at h h'
            obtain ⟨w, c, x', d, y', rfl, rfl, hcd⟩ := ih h h'
            exact ⟨a :: w, c, x', d, y', rfl, rfl, hcd⟩
          · exact ⟨[], a, x, b, y, rfl, rfl, hab⟩

/-- Paths that overlap and of which neither is a prefix of the other are told apart by a
slash. -/
theorem Overlap.slashApart (h : Overlap s t) (hs : ¬s <+: t) (ht : ¬t <+: s) :
    SlashApart s t ∨ SlashApart t s := by
  obtain ⟨p, a, x, b, y, rfl, rfl, hab⟩ := first_difference hs ht
  obtain ⟨w, k, rfl, hw, hk⟩ := dir_and_name p
  by_cases hslash : k = [] ∧ (a = '/' ∨ b = '/')
  · obtain ⟨rfl, hslash⟩ := hslash
    rw [List.append_nil]
    rcases hslash with rfl | rfl
    · exact .inl ⟨w, x, b, y, rfl, rfl, hab.symm, hw⟩
    · exact .inr ⟨w, y, a, x, rfl, rfl, hab, hw⟩
  · -- the components in which the difference stands are not the same
    exfalso
    have hhead : ∀ {c z}, ¬(k = [] ∧ c = '/') → ∃ m l, components (k ++ c :: z) = m :: l ∧
        (c = '/' ∧ m = k ∨ c ≠ '/' ∧ ∃ v, m = k ++ c :: v) := by
      intro c z hc
      by_cases hc' : c = '/'
      · subst hc'
        have hk' : k ≠ [] := fun hnil => hc ⟨hnil, rfl⟩
        exact ⟨k, components z, by rw [components_append_slash, components_name hk hk']; rfl,
          .inl ⟨rfl, rfl⟩⟩
      · obtain ⟨v, l, hcomp⟩ := components_cons hk hc' z
        exact ⟨_, l, hcomp, .inr ⟨hc', v, rfl⟩⟩
    obtain ⟨m, l, hm, hmk⟩ := hhead (c := a) (z := x) fun hc => hslash ⟨hc.1, .inl hc.2⟩
    obtain ⟨m', l', hm', hmk'⟩ := hhead (c := b) (z := y) fun hc => hslash ⟨hc.1, .inr hc.2⟩
    have hne : m ≠ m' := by
      rintro rfl
      rcases hmk with ⟨rfl, rfl⟩ | ⟨ha, v, rfl⟩ <;> rcases hmk' with ⟨rfl, heq⟩ | ⟨hb, v', heq⟩
      · exact hab rfl
      · simp at heq
      · simp at heq
      · exact hab (List.cons.inj (List.append_cancel_left heq)).1
    unfold Overlap at h
    rw [List.append_assoc, List.append_assoc, components_append hw, components_append hw, hm, hm',
      List.prefix_append_right_inj, List.prefix_append_right_inj, List.cons_prefix_cons,
      List.cons_prefix_cons] at h
    rcases h with ⟨heq, -⟩ | ⟨heq, -⟩
    · exact hne heq
    · exact hne heq.symm

theorem SlashApart.not_prefix (h : SlashApart s t) : ¬s <+: t ∧ ¬t <+: s := by
  obtain ⟨w, x, c, y, rfl, rfl, hc, -⟩ := h
  rw [List.prefix_append_right_inj, List.prefix_append_right_inj, List.cons_prefix_cons,
    List.cons_prefix_cons]
  exact ⟨fun h => hc h.1.symm, fun h => hc h.1⟩

/-- What the check says of the strings. -/
theorem init_error_iff {source target : ComparedClient}
    (hsame : source = target ∨ ∃ p, source.profile = some p ∧ target.profile = some p) :
    init source s target t = .error .valueError ↔ s <+: t ∨ t <+: s := by
  have hclient : sameClient source target = true := by
    unfold sameClient
    rcases hsame with rfl | ⟨p, hs, ht⟩
    · rw [beq_self_eq_true, Bool.true_or]
    · rw [hs, ht]
      simp
  have hstarts : ∀ {s t : PyStr}, s.startswith t = true ↔ t <+: s := List.isPrefixOf_iff_prefix
  unfold init
  split
  next hoverlap =>
    exact ⟨fun _ => (hoverlap.2.imp hstarts.mp hstarts.mp).symm, fun _ => rfl⟩
  next hno =>
    exact ⟨nofun, fun h => absurd ⟨hclient, (h.imp hstarts.mpr hstarts.mpr).symm⟩ hno⟩

/-- **The check is the overlap** of the components, if and only if neither path ends
inside a component of the other, and the paths do not overlap while a slash at the
start or behind another slash tells them apart. -/
theorem init_raises_iff {source target : ComparedClient}
    (hsame : source = target ∨ ∃ p, source.profile = some p ∧ target.profile = some p)
    (s t : PyStr) :
    (init source s target t = .error .valueError ↔ Overlap s t) ↔
      ¬(EndsInside s t ∨ EndsInside t s) ∧
        ¬(Overlap s t ∧ (SlashApart s t ∨ SlashApart t s)) := by
  rw [init_error_iff hsame]
  have hcomm : Overlap t s ↔ Overlap s t := Or.comm
  constructor
  · intro hiff
    constructor
    -- one inside a component of the other raises, but does not overlap
    · rintro (hin | hin)
      · obtain ⟨c, u, rfl, -⟩ := id hin
        exact hin.not_overlap (hiff.mp (.inl (List.prefix_append ..)))
      · obtain ⟨c, u, rfl, -⟩ := id hin
        exact hin.not_overlap (hcomm.mpr (hiff.mp (.inr (List.prefix_append ..))))
    -- an overlap with another spelling does not raise
    · rintro ⟨hoverlap, hapart⟩
      have hprefix := hiff.mpr hoverlap
      rcases hapart with hapart | hapart
      · exact hprefix.elim hapart.not_prefix.1 hapart.not_prefix.2
      · exact hprefix.elim hapart.not_prefix.2 hapart.not_prefix.1
  -- otherwise the prefixes are those of the components
  · rintro ⟨hin, hapart⟩
    rw [not_or] at hin
    constructor
    · rintro (h | h)
      · exact .inl ((components_of_under h).resolve_right hin.1)
      · exact .inr ((components_of_under h).resolve_right hin.2)
    · intro hoverlap
      by_contra hno
      rw [not_or] at hno
      exact hapart ⟨hoverlap, hoverlap.slashApart hno.1 hno.2⟩

/-- The target is in the source, and the check says so. -/
theorem init_raises_child :
    init ⟨0, none⟩ ['a'] ⟨0, none⟩ ['a', '/', 'b'] = .error .valueError ↔
      Overlap ['a'] ['a', '/', 'b'] := by
  refine (init_raises_iff (.inl rfl) _ _).mpr ⟨?_, ?_⟩
  · rintro (⟨c, u, heq, hc, -⟩ | ⟨c, u, heq, -⟩)
    · exact hc (List.cons.inj (List.cons.inj heq).2).1.symm
    · simp at heq
  · rintro ⟨-, hapart | hapart⟩
    · exact hapart.not_prefix.1 ⟨['/', 'b'], rfl⟩
    · exact hapart.not_prefix.2 ⟨['/', 'b'], rfl⟩

/-- A leading slash hides that the target is in the source. -/
theorem init_leading_slash :
    ¬∀ (source target : ComparedClient) (s t : PyStr),
      (source = target ∨ ∃ p, source.profile = some p ∧ target.profile = some p) →
        (init source s target t = .error .valueError ↔ Overlap s t) := by
  intro h
  have hiff := h ⟨0, none⟩ ⟨0, none⟩ ['a'] ['/', 'a', '/', 'b'] (.inl rfl)
  have hraises := hiff.mpr (.inl ⟨[['b']], by decide⟩)
  exact absurd (show true = false from congrArg Except.isOk hraises) (by decide)

end SyncEnds

end MultiStorageClient
