/-
MultiStorageClient/SymlinkTarget.lean

The stored form of symlink targets (`encode_symlink_target` and
`resolve_symlink_target` of `types.py`), and a sync that makes a symlink anew
under another key (`process_symlink_batch` of `sync/worker.py`).

A stored target goes up from the directory of the symlink and down again.
Resolved under its own key it is the target again.  Under another key it is
encoded to the same text, unless it comes down through the directory that it has
just left (`Reenters`).
-/
import MultiStorageClient.ManifestMetadata
import MultiStorageClient.PosixPath
import MultiStorageClient.Producer

namespace MultiStorageClient

open PyStr

/-- `ObjectMetadata.encode_symlink_target` -/
def encodeSymlinkTarget (cwd symlinkKey target : PyStr) : Except PyError PyStr :=
  let parent := dirname symlinkKey
  if parent = [] then .ok target
  else
    match relpath cwd target parent with
    | none => .error (.valueError "no path specified".toList)
    | some path => .ok path

/-- `ObjectMetadata.resolve_symlink_target` -/
def resolveSymlinkTarget (symlinkKey symlinkTarget : PyStr) : PyStr :=
  normpath (join (dirname symlinkKey) symlinkTarget)

/-- The target that `process_symlink_batch` stores under `targetFilePath`: it hands
the resolved target to `make_symlink`, which encodes it. -/
def recreateSymlink (cwd targetFilePath symlinkTarget : PyStr) : Except PyError PyStr :=
  encodeSymlinkTarget cwd targetFilePath (resolveSymlinkTarget targetFilePath symlinkTarget)

/-- A key: relative, in normal form, without `..` and not empty. -/
structure IsKey (k : PyStr) : Prop where
  relative : k.startswith ['/'] = false
  normal : normpath k = k
  noUp : ['.', '.'] ∉ k.splitOn '/'
  nonempty : k ≠ []

/-- A path that goes above its start. -/
def Escapes (p : PyStr) : Prop := p = ['.', '.'] ∨ p.startswith "../".toList

instance (p : PyStr) : Decidable (Escapes p) := inferInstanceAs (Decidable (_ ∨ _))

/-- The directories above a key, from the root down. -/
def directoryComponents (key : PyStr) : List PyStr :=
  (normComponents false [] ((dirname key).splitOn '/')).reverse

/-- The number of directories that a stored target goes up. -/
def upCount (symlinkTarget : PyStr) : ℕ :=
  ((symlinkTarget.splitOn '/').takeWhile (· = ['.', '.'])).length

/-- The stored target comes down through the directory that it has left last. -/
def Reenters (key symlinkTarget : PyStr) : Prop :=
  ∃ c, ((symlinkTarget.splitOn '/').drop (upCount symlinkTarget)).head? = some c ∧
    (directoryComponents key)[(directoryComponents key).length - upCount symlinkTarget]? = some c

/-! ### Keys by components -/

theorem IsKey.components {k : PyStr} (h : IsKey k) :
    ∃ l, k = ofComponents l ∧ ∀ c ∈ l, Plain c := by
  refine ⟨(normComponents false [] (k.splitOn '/')).reverse, ?_, fun c hc => ?_⟩
  · rw [← normpath_of_relative h.relative, h.normal]
  · rcases mem_of_normComponents (List.mem_reverse.mp hc) with hc | ⟨hc, hne, hdot⟩
    · cases hc
    · exact ⟨hne, hdot, fun heq => h.noUp (heq ▸ hc), sep_free_of_splitOn hc⟩

theorem slash_free {l : List PyStr} (h : ∀ c ∈ l, Plain c) : ∀ c ∈ l, '/' ∉ c :=
  fun c hc => (h c hc).2.2.2

theorem up_not_mem {l : List PyStr} (h : ∀ c ∈ l, Plain c) : ['.', '.'] ∉ l :=
  fun hm => (h _ hm).2.2.1 rfl

theorem plain_splitOn {l : List PyStr} (h : ∀ c ∈ l, Plain c) :
    normComponents false [] ((ofComponents l).splitOn '/') = l.reverse := by
  rw [normComponents_ofComponents (slash_free h), normComponents_plain h, List.append_nil]

/-- Components make a path that is not empty. -/
theorem ofComponents_ne_nil {l : List PyStr} (h : ∀ c ∈ l, c ≠ []) : ofComponents l ≠ [] := by
  unfold ofComponents
  split
  · exact List.cons_ne_nil _ _
  next hl =>
    cases l with
    | nil => exact absurd rfl hl
    | cons a l =>
        have ha := h a (List.mem_cons_self ..)
        by_cases hnil : l = []
        · subst hnil
          simpa [List.intercalate] using ha
        · rw [intercalate_cons hnil]
          simp

/-- Components make a relative path. -/
theorem ofComponents_relative {l : List PyStr} (h : ∀ c ∈ l, c ≠ [] ∧ '/' ∉ c) :
    (ofComponents l).startswith ['/'] = false := by
  have hhead : (ofComponents l).head? ≠ some '/' := by
    unfold ofComponents
    split
    · decide
    next hl =>
      cases l with
      | nil => exact absurd rfl hl
      | cons a l =>
          obtain ⟨ha, hslash⟩ := h a (List.mem_cons_self ..)
          have hhead : a.head? ≠ some '/' := fun hc => hslash (List.mem_of_mem_head? hc)
          cases a with
          | nil => exact absurd rfl ha
          | cons x a =>
              by_cases hnil : l = []
              · subst hnil
                simpa [List.intercalate] using hhead
              · rw [intercalate_cons hnil]
                simpa using hhead
  cases hp : ofComponents l with
  | nil => rfl
  | cons x p =>
      rw [hp] at hhead
      have hx : ('/' == x) = false :=
        beq_eq_false_iff_ne.mpr fun heq => hhead (heq ▸ List.head?_cons ..)
      show (('/' == x) && _) = false
      rw [hx, Bool.false_and]

/-- One more component comes behind a slash. -/
theorem intercalate_concat {l : List PyStr} (h : l ≠ []) (c : PyStr) :
    List.intercalate ['/'] (l ++ [c]) = List.intercalate ['/'] l ++ '/' :: c := by
  induction l with
  | nil => exact absurd rfl h
  | cons a l ih =>
      by_cases hl : l = []
      · subst hl
        simp [List.intercalate]
      · rw [List.cons_append, intercalate_cons (by simp), ih hl, intercalate_cons hl,
          List.append_assoc, List.cons_append]

/-- A path of components ends in no slash. -/
theorem intercalate_getLast {l : List PyStr} (h : ∀ c ∈ l, c ≠ [] ∧ '/' ∉ c) :
    (List.intercalate ['/'] l).getLast? ≠ some '/' := by
  rcases List.eq_nil_or_concat l with rfl | ⟨l', c, rfl⟩
  · simp [List.intercalate]
  · rw [List.concat_eq_append] at h ⊢
    obtain ⟨hc, hslash⟩ := h c (by simp)
    obtain ⟨x, hx⟩ : ∃ x, c.getLast? = some x :=
      Option.ne_none_iff_exists'.mp fun hnone => hc (List.getLast?_eq_none_iff.mp hnone)
    have hend : (List.intercalate ['/'] (l' ++ [c])).getLast? = some x := by
      by_cases hl : l' = []
      · subst hl
        simpa [List.intercalate] using hx
      · rw [intercalate_concat hl, List.getLast?_append, List.getLast?_cons, hx]
        rfl
    rw [hend]
    rintro ⟨⟩
    exact hslash (List.mem_of_getLast? hx)

/-- The directory of a path is all but its last component. -/
theorem directoryComponents_ofComponents {l : List PyStr} (h : ∀ c ∈ l, Plain c) :
    directoryComponents (ofComponents l) = l.dropLast := by
  unfold directoryComponents
  rcases List.eq_nil_or_concat l with rfl | ⟨l', c, rfl⟩
  · rfl
  · rw [List.concat_eq_append] at h ⊢
    rw [List.dropLast_concat]
    have hc : '/' ∉ c := slash_free h c (by simp)
    have hl' : ∀ a ∈ l', Plain a := fun a ha => h a (List.mem_append_left _ ha)
    by_cases hnil : l' = []
    · subst hnil
      have htext : ofComponents ([] ++ [c]) = c := by simp [ofComponents, List.intercalate]
      rw [htext, dirname_of_slash_free hc]
      rfl
    · have hdir : List.intercalate ['/'] l' = ofComponents l' := (if_neg hnil).symm
      have htext : ofComponents (l' ++ [c]) = ofComponents l' ++ '/' :: c := by
        rw [← hdir, ← intercalate_concat hnil c]
        exact if_neg (by simp)
      rw [htext, dirname_append (ofComponents_ne_nil fun a ha => (hl' a ha).1) _ hc,
        plain_splitOn hl', List.reverse_reverse]
      rw [← hdir]
      exact intercalate_getLast fun a ha => ⟨(hl' a ha).1, slash_free hl' a ha⟩

/-- **What is stored**: the way from the directory of the symlink to its target. -/
theorem encodeSymlinkTarget_eq {cwd k : PyStr} {lt : List PyStr}
    (hcwd : cwd.startswith ['/'] = true)
    (hk : k.startswith ['/'] = false) (hup : ['.', '.'] ∉ directoryComponents k)
    (hlt : ∀ c ∈ lt, Plain c) : encodeSymlinkTarget cwd k (ofComponents lt) =
      .ok (ofComponents (relComponents (directoryComponents k) lt)) := by
  unfold encodeSymlinkTarget
  dsimp only
  split
  next hnil =>
    have hdir : directoryComponents k = [] := by
      unfold directoryComponents
      rw [hnil]
      rfl
    rw [hdir]
    cases lt <;> rfl
  next hne =>
    rw [relpath_eq hcwd (ofComponents_ne_nil fun c hc => (hlt c hc).1) (dirname_relative hk)
      (ofComponents_relative fun c hc => ⟨(hlt c hc).1, slash_free hlt c hc⟩)
      (List.reverse_reverse _).symm hup (plain_splitOn hlt) (up_not_mem hlt)]
    rfl

/-- A path in a relative directory is relative. -/
theorem join_relative {p q : PyStr} (hp : p.startswith ['/'] = false)
    (hq : q.startswith ['/'] = false) : (join p q).startswith ['/'] = false := by
  rw [join, if_neg (by rw [hq]; exact Bool.false_ne_true)]
  cases p with
  | nil => exact hq
  | cons a p =>
      split
      · exact hp
      · exact hp

theorem resolveSymlinkTarget_eq {k : PyStr} {rel : List PyStr} (hk : k.startswith ['/'] = false)
    (hrel : ∀ c ∈ rel, c ≠ [] ∧ '/' ∉ c) : resolveSymlinkTarget k (ofComponents rel) =
      ofComponents (normComponents false (directoryComponents k).reverse rel).reverse := by
  have hs := ofComponents_relative hrel
  have hjoin := join_relative (dirname_relative hk) hs
  unfold resolveSymlinkTarget directoryComponents
  rw [normpath_of_relative hjoin, normComponents_join false hs, List.reverse_reverse,
    normComponents_ofComponents fun c hc => (hrel c hc).2]

/-! ### A stored target under another key -/

/-- More steps up than there are components leave some. -/
theorem up_mem_of_lt {acc : List PyStr} {u : ℕ} (h : acc.length < u) :
    ['.', '.'] ∈ normComponents false acc (List.replicate u ['.', '.']) := by
  induction u generalizing acc with
  | zero => exact absurd h (Nat.not_lt_zero _)
  | succ u ih =>
      rw [List.replicate_succ, normComponents_cons, if_neg (by simp)]
      split
      · exact up_mem_normComponents (List.mem_cons_self ..)
      next hc =>
        refine ih ?_
        cases acc with
        | nil => simp at hc
        | cons a acc => simpa using h

/-- A resolved target that does not escape has no `..` in it. -/
theorem up_not_mem_of_not_escapes {k : PyStr} {rel : List PyStr}
    (h : ¬Escapes
      (ofComponents (normComponents false (directoryComponents k).reverse rel).reverse)) :
    ['.', '.'] ∉ normComponents false (directoryComponents k).reverse rel := by
  have hdir : ∃ l n, (directoryComponents k).reverse = l ++ List.replicate n ['.', '.'] ∧
      ['.', '.'] ∉ l := by
    unfold directoryComponents
    rw [List.reverse_reverse]
    exact normComponents_front ⟨[], 0, rfl, List.not_mem_nil⟩
  have hfront : ∃ l n, normComponents false (directoryComponents k).reverse rel = _ ∧ _ :=
    normComponents_front hdir
  obtain ⟨l, n, hn, hl⟩ := hfront
  rw [hn] at h ⊢
  cases n with
  | zero => simpa using hl
  | succ n =>
      refine absurd ?_ h
      rw [List.reverse_append, List.reverse_replicate, List.replicate_succ, List.cons_append]
      unfold Escapes ofComponents
      rw [if_neg (List.cons_ne_nil _ _)]
      by_cases hrest : List.replicate n ['.', '.'] ++ l.reverse = []
      · rw [hrest]
        exact .inl rfl
      · rw [intercalate_cons hrest]
        exact .inr rfl

theorem directoryComponents_plain {k : PyStr} (h : ['.', '.'] ∉ directoryComponents k) :
    ∀ c ∈ directoryComponents k, Plain c := by
  intro c hc
  rcases mem_of_normComponents (List.mem_reverse.mp hc) with hc' | ⟨hc', hne, hdot⟩
  · cases hc'
  · exact ⟨hne, hdot, fun heq => h (heq ▸ hc), sep_free_of_splitOn hc'⟩

/-- The components of a way up and down. -/
theorem mem_way {cs : List PyStr} {u : ℕ} (hcs : ∀ c ∈ cs, Plain c) {c : PyStr}
    (hc : c ∈ List.replicate u ['.', '.'] ++ cs) : c ≠ [] ∧ c ≠ ['.'] ∧ '/' ∉ c := by
  rcases List.mem_append.mp hc with hc | hc
  · rw [List.eq_of_mem_replicate hc]
    decide
  · exact ⟨(hcs c hc).1, (hcs c hc).2.1, slash_free hcs c hc⟩

/-- **Going up from a directory and down again.** -/
theorem normComponents_ups_plain {l cs : List PyStr} {u : ℕ} (hl : ['.', '.'] ∉ l)
    (hu : u ≤ l.length) (hcs : ∀ c ∈ cs, Plain c) :
    (normComponents false l.reverse (List.replicate u ['.', '.'] ++ cs)).reverse =
      l.take (l.length - u) ++ cs := by
  rw [normComponents_append, normComponents_ups (by simpa using hl) (by simpa using hu),
    normComponents_plain hcs, List.reverse_append, List.reverse_reverse, List.drop_reverse,
    List.reverse_reverse]

theorem relComponents_append (base l l' : List PyStr) :
    relComponents (base ++ l) (base ++ l') = relComponents l l' := by
  unfold relComponents
  rw [commonPrefix_append, List.length_append, List.length_append, Nat.add_sub_add_left,
    List.drop_append, List.drop_eq_nil_of_le (Nat.le_add_right _ _), List.nil_append,
    Nat.add_sub_cancel_left]

/-- The way from the directory that was left is the same, unless it leads back into it. -/
theorem relComponents_drop {l cs : List PyStr} {u : ℕ} (hu : u ≤ l.length) :
    relComponents l (l.take (l.length - u) ++ cs) = List.replicate u ['.', '.'] ++ cs ↔
      ¬∃ c, cs.head? = some c ∧ l[l.length - u]? = some c := by
  have hleft : relComponents l (l.take (l.length - u) ++ cs) =
      relComponents (l.drop (l.length - u)) cs := by
    have happend := relComponents_append (l.take (l.length - u)) (l.drop (l.length - u)) cs
    rwa [List.take_append_drop] at happend
  have hlen : (l.drop (l.length - u)).length = u := by
    rw [List.length_drop]
    omega
  have hnone : (¬∃ c, cs.head? = some c ∧ l[l.length - u]? = some c) ↔
      commonPrefix (l.drop (l.length - u)) cs = [] := by
    rw [commonPrefix_eq_nil, List.head?_drop]
    exact not_congr (exists_congr fun _ => and_comm)
  rw [hleft, hnone]
  unfold relComponents
  rw [hlen]
  constructor
  · intro heq
    have hcount := congrArg List.length heq
    have hle := congrArg List.length (commonPrefix_left (l.drop (l.length - u)) cs)
    have hle' := congrArg List.length (commonPrefix_right (l.drop (l.length - u)) cs)
    simp only [List.length_append, List.length_replicate, List.length_drop] at hcount hle hle'
    refine List.length_eq_zero_iff.mp ?_
    omega
  · intro hnil
    rw [hnil]
    rfl

/-- The components of a stored target. -/
theorem upCount_ofComponents {cs : List PyStr} {u : ℕ} (hcs : ∀ c ∈ cs, Plain c)
    (hne : List.replicate u ['.', '.'] ++ cs ≠ []) :
    upCount (ofComponents (List.replicate u ['.', '.'] ++ cs)) = u ∧
      (ofComponents (List.replicate u ['.', '.'] ++ cs)).splitOn '/' =
        List.replicate u ['.', '.'] ++ cs := by
  have hsplit : (ofComponents (List.replicate u ['.', '.'] ++ cs)).splitOn '/' =
      List.replicate u ['.', '.'] ++ cs := by
    unfold ofComponents
    rw [if_neg hne]
    exact splitOn_intercalate (fun c hc => (mem_way hcs hc).2.2) hne
  refine ⟨?_, hsplit⟩
  have hstop : cs.takeWhile (· = ['.', '.']) = [] := by
    cases cs with
    | nil => rfl
    | cons c cs => simp [(hcs c (List.mem_cons_self ..)).2.2.1]
  unfold upCount
  rw [hsplit, List.takeWhile_append_of_pos (by simp), hstop, List.append_nil,
    List.length_replicate]

/-- A target goes up and down again where its first component is the one it has left. -/
theorem reenters_iff {k : PyStr} {cs : List PyStr} {u : ℕ} (hcs : ∀ c ∈ cs, Plain c) :
    Reenters k (ofComponents (List.replicate u ['.', '.'] ++ cs)) ↔
      ∃ c, cs.head? = some c ∧
        (directoryComponents k)[(directoryComponents k).length - u]? = some c := by
  by_cases hnil : List.replicate u ['.', '.'] ++ cs = []
  · obtain ⟨hu, rfl⟩ := List.append_eq_nil_iff.mp hnil
    obtain rfl : u = 0 := by simpa using hu
    have hup : upCount (ofComponents []) = 0 := by decide
    simp [Reenters, hup]
  · obtain ⟨hup, hsplit⟩ := upCount_ofComponents hcs hnil
    unfold Reenters
    rw [hup, hsplit, List.drop_append_of_le_length (by simp), List.drop_replicate, Nat.sub_self]
    rfl

/-- **The text stored under another key**, when the target does not escape. -/
theorem recreateSymlink_eq {cwd k : PyStr} {cs : List PyStr} {u : ℕ}
    (hcwd : cwd.startswith ['/'] = true) (hk : k.startswith ['/'] = false)
    (hcs : ∀ c ∈ cs, Plain c)
    (hesc : ¬Escapes (resolveSymlinkTarget k (ofComponents (List.replicate u ['.', '.'] ++ cs)))) :
    ∃ rel, recreateSymlink cwd k (ofComponents (List.replicate u ['.', '.'] ++ cs)) =
        .ok (ofComponents rel) ∧ (∀ c ∈ rel, '/' ∉ c ∧ c ≠ ['.']) ∧
      (rel = List.replicate u ['.', '.'] ++ cs ↔
        ¬Reenters k (ofComponents (List.replicate u ['.', '.'] ++ cs))) := by
  have hrel : ∀ c ∈ List.replicate u ['.', '.'] ++ cs, c ≠ [] ∧ '/' ∉ c := fun c hc =>
    ⟨(mem_way hcs hc).1, (mem_way hcs hc).2.2⟩
  rw [resolveSymlinkTarget_eq hk hrel] at hesc
  have hup := up_not_mem_of_not_escapes hesc
  have hdir : ['.', '.'] ∉ directoryComponents k := fun hm =>
    hup (up_mem_normComponents (List.mem_reverse.mpr hm))
  -- the way up stays below the root, as the target does not escape
  have hu : u ≤ (directoryComponents k).length := by
    by_contra hlt
    rw [normComponents_append] at hup
    exact hup (up_mem_normComponents (up_mem_of_lt (by simpa using hlt)))
  have hplain := directoryComponents_plain hdir
  have hlt : ∀ c ∈ (directoryComponents k).take ((directoryComponents k).length - u) ++ cs,
      Plain c := by
    intro c hc
    rcases List.mem_append.mp hc with hc | hc
    · exact hplain c (List.mem_of_mem_take hc)
    · exact hcs c hc
  refine ⟨_, ?_, ?_, (relComponents_drop hu).trans (not_congr (reenters_iff hcs).symm)⟩
  · unfold recreateSymlink
    rw [resolveSymlinkTarget_eq hk hrel, normComponents_ups_plain hdir hu hcs,
      encodeSymlinkTarget_eq hcwd hk hdir hlt]
  · intro c hc
    obtain ⟨-, hdot, hslash⟩ := mem_way (fun c hc => hlt c (List.mem_of_mem_drop hc)) hc
    exact ⟨hslash, hdot⟩

/-- **Symlink targets** come back from their stored form.  Under another key the
stored form is the same, and a second sync finds it the same, unless it comes
down through the directory that it has left. -/
theorem encodeSymlinkTarget_spec {cwd k t : PyStr} (hcwd : cwd.startswith ['/'] = true)
    (hk : IsKey k) (ht : IsKey t) :
    ∃ s, encodeSymlinkTarget cwd k t = .ok s ∧ resolveSymlinkTarget k s = t ∧
      ∀ k₂ : PyStr, k₂.startswith ['/'] = false → ¬Escapes (resolveSymlinkTarget k₂ s) →
        ∃ s', recreateSymlink cwd k₂ s = .ok s' ∧ (s' = s ↔ ¬Reenters k₂ s) ∧
          ∀ (p : ProducerThread) (sourceInfo targetInfo : ObjectMetadata),
            sourceInfo.symlinkTarget = some s → targetInfo.symlinkTarget = some s' →
            (p.matchFileMetadata sourceInfo targetInfo = true ↔ ¬Reenters k₂ s) := by
  obtain ⟨lk, hlk, hplk⟩ := hk.components
  obtain ⟨lt, hlt, hplt⟩ := ht.components
  have hdir : directoryComponents k = lk.dropLast := by
    rw [hlk]
    exact directoryComponents_ofComponents hplk
  have hup : ['.', '.'] ∉ directoryComponents k := fun hm =>
    up_not_mem hplk ((List.dropLast_prefix lk).subset (hdir ▸ hm))
  set l := directoryComponents k with hl
  set i := (commonPrefix l lt).length with hi
  have hcs : ∀ c ∈ lt.drop i, Plain c := fun c hc => hplt c (List.mem_of_mem_drop hc)
  have henc := encodeSymlinkTarget_eq hcwd hk.relative hup hplt
  rw [← hlt] at henc
  have hrel : ∀ c ∈ relComponents l lt, c ≠ [] ∧ '/' ∉ c := fun c hc =>
    ⟨(mem_way hcs hc).1, (mem_way hcs hc).2.2⟩
  refine ⟨ofComponents (relComponents l lt), henc, ?_, fun k₂ hk₂ hesc => ?_⟩
  · -- up to the last common directory, and down to the target
    have hle : i ≤ l.length := by
      have := congrArg List.length (commonPrefix_left l lt)
      rw [List.length_append] at this
      omega
    have htake : l.take i = commonPrefix l lt := by
      conv_lhs => rw [commonPrefix_left l lt]
      exact List.take_left' rfl
    rw [resolveSymlinkTarget_eq hk.relative hrel]
    unfold relComponents
    rw [normComponents_ups_plain hup (Nat.sub_le _ _) hcs, Nat.sub_sub_self hle, htake,
      ← commonPrefix_right, ← hlt]
  · obtain ⟨rel, hre, hmem, hiff⟩ := recreateSymlink_eq hcwd hk₂ hcs hesc
    have hsame : ofComponents rel = ofComponents (relComponents l lt) ↔
        ¬Reenters k₂ (ofComponents (relComponents l lt)) := by
      refine ⟨fun heq => hiff.mp (ofComponents_injective hmem ?_ heq), fun hno => ?_⟩
      · exact fun c hc => ⟨(mem_way hcs hc).2.2, (mem_way hcs hc).2.1⟩
      · rw [hiff.mpr hno]
        rfl
    refine ⟨ofComponents rel, hre, hsame, fun p sourceInfo targetInfo hs ht' => ?_⟩
    rw [← hsame]
    unfold ProducerThread.matchFileMetadata
    rw [hs, ht', if_pos (by rfl), beq_iff_eq, Option.some_inj, eq_comm]

/-- A symlink to a file beside it, and the same below another directory. -/
theorem encodeSymlinkTarget_sibling :
    ∃ s, encodeSymlinkTarget ['/'] "src/l".toList "other/f".toList = .ok s ∧
      resolveSymlinkTarget "src/l".toList s = "other/f".toList ∧
      ∀ k₂ : PyStr, k₂.startswith ['/'] = false → ¬Escapes (resolveSymlinkTarget k₂ s) →
        ∃ s', recreateSymlink ['/'] k₂ s = .ok s' ∧ (s' = s ↔ ¬Reenters k₂ s) ∧
          ∀ (p : ProducerThread) (sourceInfo targetInfo : ObjectMetadata),
            sourceInfo.symlinkTarget = some s → targetInfo.symlinkTarget = some s' →
            (p.matchFileMetadata sourceInfo targetInfo = true ↔ ¬Reenters k₂ s) :=
  encodeSymlinkTarget_spec rfl ⟨rfl, by decide, by decide, by decide⟩
    ⟨rfl, by decide, by decide, by decide⟩

/-- Below the directory that the target is in, the stored target loses its way
up. -/
theorem recreateSymlink_not_verbatim :
    ¬∀ cwd k t s k₂ : PyStr, cwd.startswith ['/'] = true → IsKey k → IsKey t → IsKey k₂ →
      encodeSymlinkTarget cwd k t = .ok s → ¬Escapes (resolveSymlinkTarget k₂ s) →
      encodeSymlinkTarget cwd k₂ (resolveSymlinkTarget k₂ s) = .ok s := by
  intro h
  have hsame := h ['/'] "src/l".toList "other/f".toList "../other/f".toList "other/l".toList rfl
    ⟨rfl, by decide, by decide, by decide⟩ ⟨rfl, by decide, by decide, by decide⟩
    ⟨rfl, by decide, by decide, by decide⟩ (by decide) (by decide)
  have hother : encodeSymlinkTarget ['/'] "other/l".toList
      (resolveSymlinkTarget "other/l".toList "../other/f".toList) = .ok "f".toList := by
    decide
  rw [hother] at hsame
  exact absurd (Except.ok.inj hsame) (by decide)

end MultiStorageClient
