/-
MultiStorageClient/SymlinkChains.lean

The two resolvers of symlink chains: `ManifestMetadataProvider.realpath` over the
entries of a manifest and `BaseStorageProvider._resolve_symlink_path` over the
objects of a storage.

A chain is a walk along a partial function (`Ends`).  Both resolvers keep the
keys that they have visited; a key of a chain that ends is never met again, so
along such a chain neither of them finds a cycle, and what remains is where they
stop counting.
-/
import MultiStorageClient.StorageClient
import MultiStorageClient.SymlinkTarget

/-! ### Walks along a partial function -/

/-- The walk from a point ends after a number of hops. -/
inductive Ends {κ : Type*} (next : κ → Option κ) : ℕ → κ → κ → Prop
  | here {k : κ} : next k = none → Ends next 0 k k
  | hop {n : ℕ} {k k' f : κ} : next k = some k' → Ends next n k' f → Ends next (n + 1) k f

namespace Ends

variable {κ : Type*} {next : κ → Option κ} {n m : ℕ} {k k' f g : κ}

/-- The number of hops and the end are determined by the start. -/
theorem unique (h : Ends next n k f) (h' : Ends next m k g) : n = m ∧ f = g := by
  induction h generalizing m with
  | here hk =>
      cases h' with
      | here _ => exact ⟨rfl, rfl⟩
      | hop hk' _ => exact absurd (hk.symm.trans hk') (by simp)
  | hop hk _ ih =>
      cases h' with
      | here hk' => exact absurd (hk.symm.trans hk') (by simp)
      | hop hk' h' =>
          obtain rfl := Option.some.inj (hk.symm.trans hk')
          obtain ⟨rfl, rfl⟩ := ih h'
          exact ⟨rfl, rfl⟩

/-- Every point of the list is further away from the end. -/
def Behind (next : κ → Option κ) (n : ℕ) (visited : List κ) : Prop :=
  ∀ v ∈ visited, ∃ m f, n < m ∧ Ends next m v f

theorem not_mem_of_behind (h : Ends next n k f) {visited : List κ}
    (hv : Behind next n visited) : k ∉ visited := by
  intro hm
  obtain ⟨m, g, hlt, hg⟩ := hv k hm
  exact absurd (h.unique hg).1 hlt.ne

theorem behind_cons {visited : List κ} (hk : next k = some k') (h : Ends next n k' f)
    (hv : Behind next (n + 1) visited) : Behind next n (k :: visited) := by
  intro v hm
  rcases List.mem_cons.mp hm with rfl | hm
  · exact ⟨n + 1, f, Nat.lt_succ_self n, .hop hk h⟩
  · obtain ⟨m, g, hlt, hg⟩ := hv v hm
    exact ⟨m, g, Nat.lt_of_succ_lt hlt, hg⟩

end Ends

namespace MultiStorageClient

/-! ### The resolvers -/

/-- `MAX_SYMLINK_DEPTH` -/
def maxSymlinkDepth : ℕ := 8

/-- The target of an entry, when it is a symlink: an empty one is none. -/
def ObjectMetadata.followed (m : ObjectMetadata) : Option PyStr :=
  m.symlinkTarget.filter (· ≠ [])

/-- A path comes again. -/
def symlinkCycle (path : PyStr) : PyError :=
  .valueError ("Symlink cycle detected at: ".toList ++ path)

/-- The chain is longer than eight hops. -/
def tooManyLevels (path : PyStr) : PyError :=
  .valueError ("Too many levels of symlinks (>8): ".toList ++ path)

namespace ManifestMetadataProvider

variable (p : ManifestMetadataProvider)

/-- The loop of `realpath`, with the number of rounds left. -/
def realpathLoop (logicalPath : PyStr) :
    ℕ → PyStr → List PyStr → Except PyError ResolvedPath
  -- the for loop is exhausted
  | 0, _, _ => .error (tooManyLevels logicalPath)
  | n + 1, current, visited =>
      match p.files.get? current with
      | none => .ok { physicalPath := current, state := .untracked }
      | some manifestObj =>
          match manifestObj.followed with
          | none => .ok { physicalPath := manifestObj.physicalPath, state := .exists }
          | some target =>
              -- the cycle is looked for before the hop is made
              if current ∈ visited then .error (symlinkCycle current)
              else realpathLoop logicalPath n (resolveSymlinkTarget current target)
                (current :: visited)

/-- `ManifestMetadataProvider.realpath` -/
def realpath (logicalPath : PyStr) : Except PyError ResolvedPath :=
  p.realpathLoop logicalPath maxSymlinkDepth logicalPath []

/-- The symlinks among the committed entries. -/
def nextKey (key : PyStr) : Option PyStr :=
  (p.files.get? key).bind fun m => m.followed.map (resolveSymlinkTarget key)

end ManifestMetadataProvider

/-- `_resolve_symlink_path` of a storage provider with this
`_get_object_metadata`. -/
def resolveSymlinkPath (getObjectMetadata : PyStr → Except PyError ObjectMetadata) (path : PyStr)
    (depth : ℕ := 0) (visited : List PyStr := []) : Except PyError PyStr :=
  match getObjectMetadata path with
  | .error e => .error e
  | .ok metadata =>
      match metadata.followed with
      | none => .ok path
      | some target =>
          -- the depth is looked at after the path turned out to be a link
          if path ∈ visited then .error (symlinkCycle path)
          else if maxSymlinkDepth ≤ depth then .error (tooManyLevels path)
          else
            resolveSymlinkPath getObjectMetadata (resolveSymlinkTarget path target) (depth + 1)
              (path :: visited)
termination_by maxSymlinkDepth - depth

/-- The symlinks of a storage. -/
def nextPath (getObjectMetadata : PyStr → Except PyError ObjectMetadata) (path : PyStr) :
    Option PyStr :=
  (getObjectMetadata path).toOption.bind fun o => o.followed.map (resolveSymlinkTarget path)

/-- The chain from the path ends at an object, not further away than symlinks are followed. -/
def ChainEnds (getObjectMetadata : PyStr → Except PyError ObjectMetadata) (path f : PyStr) : Prop :=
  ∃ n ≤ maxSymlinkDepth, Ends (nextPath getObjectMetadata) n path f ∧
    ∃ o, getObjectMetadata f = .ok o

/-- The storage has an object with the same symlink target for every entry, and
no symlink without one. -/
structure SameTargets (p : ManifestMetadataProvider)
    (getObjectMetadata : PyStr → Except PyError ObjectMetadata) : Prop where
  entry : ∀ key m, p.files.get? key = some m →
    ∃ o, getObjectMetadata key = .ok o ∧ o.symlinkTarget = m.symlinkTarget
  missing : ∀ key o, p.files.get? key = none → getObjectMetadata key = .ok o →
    o.symlinkTarget = none

/-! ### Along a chain that ends -/

section Resolvers

variable {p : ManifestMetadataProvider}
  {getObjectMetadata : PyStr → Except PyError ObjectMetadata}
  {logicalPath k f : PyStr} {n depth : ℕ} {visited : List PyStr}

/-- What `realpath` answers at the end of a chain. -/
def ManifestMetadataProvider.endOfChain (p : ManifestMetadataProvider) (f : PyStr) :
    ResolvedPath :=
  match p.files.get? f with
  | none => { physicalPath := f, state := .untracked }
  | some m => { physicalPath := m.physicalPath, state := .exists }

/-- A hop of the chain is a symlink entry. -/
theorem nextKey_eq_some {k' : PyStr} (hk : p.nextKey k = some k') : ∃ m t,
    p.files.get? k = some m ∧ m.followed = some t ∧ k' = resolveSymlinkTarget k t := by
  obtain ⟨m, hget, hm⟩ := Option.bind_eq_some_iff.mp hk
  obtain ⟨t, ht, hk'⟩ := Option.map_eq_some_iff.mp hm
  exact ⟨m, t, hget, ht, hk'.symm⟩

/-- A round of `realpath` at a symlink. -/
theorem realpathLoop_link {rounds : ℕ} {m : ManifestObjectMetadata} {t : PyStr}
    (hget : p.files.get? k = some m) (ht : m.followed = some t) :
    p.realpathLoop logicalPath (rounds + 1) k visited =
      if k ∈ visited then .error (symlinkCycle k)
      else p.realpathLoop logicalPath rounds (resolveSymlinkTarget k t) (k :: visited) := by
  rw [ManifestMetadataProvider.realpathLoop, hget]
  dsimp only
  rw [ht]

/-- A chain shorter than the rounds is followed to its end. -/
theorem realpathLoop_ends {rounds : ℕ} (h : Ends p.nextKey n k f) (hn : n < rounds)
    (hv : Ends.Behind p.nextKey n visited) :
    p.realpathLoop logicalPath rounds k visited = .ok (p.endOfChain f) := by
  induction h generalizing rounds visited with
  | here hk =>
      cases rounds with
      | zero => exact absurd hn (Nat.not_lt_zero _)
      | succ rounds =>
          unfold ManifestMetadataProvider.realpathLoop ManifestMetadataProvider.endOfChain
          unfold ManifestMetadataProvider.nextKey at hk
          split
          next hget => rfl
          next m hget =>
            rw [hget, Option.bind_some, Option.map_eq_none_iff] at hk
            rw [hk]
  | hop hk hend ih =>
      cases rounds with
      | zero => exact absurd hn (Nat.not_lt_zero _)
      | succ rounds =>
          -- no key comes twice on a way that ends
          have hnew := Ends.not_mem_of_behind (.hop hk hend) hv
          have hv' := Ends.behind_cons hk hend hv
          obtain ⟨m, t, hget, ht, rfl⟩ := nextKey_eq_some hk
          rw [realpathLoop_link hget ht, if_neg hnew]
          exact ih (Nat.lt_of_succ_lt_succ hn) hv'

/-- A chain that does not end within the rounds is refused. -/
theorem realpathLoop_long {rounds : ℕ} (h : ∀ m f, Ends p.nextKey m k f → rounds ≤ m) :
    ∃ e, p.realpathLoop logicalPath rounds k visited = .error e := by
  induction rounds generalizing k visited with
  | zero => exact ⟨_, rfl⟩
  | succ rounds ih =>
      cases hk : p.nextKey k with
      | none => exact absurd (h 0 k (.here hk)) (Nat.not_succ_le_zero _)
      | some k' =>
          have hlong : ∀ m f, Ends p.nextKey m k' f → rounds ≤ m := fun m f hm =>
            Nat.le_of_succ_le_succ (h (m + 1) f (.hop hk hm))
          obtain ⟨m, t, hget, ht, rfl⟩ := nextKey_eq_some hk
          rw [realpathLoop_link hget ht]
          split
          · exact ⟨_, rfl⟩
          · exact ih hlong

/-- The storage follows the same symlinks. -/
theorem SameTargets.next_eq (hs : SameTargets p getObjectMetadata) :
    p.nextKey = nextPath getObjectMetadata := by
  funext key
  unfold ManifestMetadataProvider.nextKey nextPath ObjectMetadata.followed
  cases hget : p.files.get? key with
  | none =>
      cases ho : getObjectMetadata key with
      | error e => rfl
      | ok o =>
          dsimp only [Except.toOption]
          rw [Option.bind_none, Option.bind_some, hs.missing key o hget ho]
          rfl
  | some m =>
      obtain ⟨o, ho, ht⟩ := hs.entry key m hget
      rw [ho]
      dsimp only [Except.toOption]
      rw [Option.bind_some, Option.bind_some, ht]

theorem nextPath_ok {o : ObjectMetadata} (ho : getObjectMetadata k = .ok o) :
    nextPath getObjectMetadata k = o.followed.map (resolveSymlinkTarget k) := by
  rw [nextPath, ho]
  rfl

/-- A call of `_resolve_symlink_path` at a symlink. -/
theorem resolveSymlinkPath_link {o : ObjectMetadata} {t : PyStr}
    (ho : getObjectMetadata k = .ok o) (ht : o.followed = some t) :
    resolveSymlinkPath getObjectMetadata k depth visited =
      if k ∈ visited then .error (symlinkCycle k)
      else if maxSymlinkDepth ≤ depth then .error (tooManyLevels k)
      else
        resolveSymlinkPath getObjectMetadata (resolveSymlinkTarget k t) (depth + 1)
          (k :: visited) := by
  rw [resolveSymlinkPath, ho]
  dsimp only
  rw [ht]

/-- A chain within the depth is resolved to its end. -/
theorem resolveSymlinkPath_ends (h : Ends (nextPath getObjectMetadata) n k f)
    (hn : depth + n ≤ maxSymlinkDepth) (hv : Ends.Behind (nextPath getObjectMetadata) n visited) :
    resolveSymlinkPath getObjectMetadata k depth visited =
      (getObjectMetadata f).map fun _ => f := by
  induction h generalizing depth visited with
  | @here k hk =>
      unfold resolveSymlinkPath
      cases ho : getObjectMetadata k with
      | error e => rfl
      | ok o =>
          rw [nextPath_ok ho, Option.map_eq_none_iff] at hk
          dsimp only
          rw [hk]
          rfl
  | @hop n k k' f hk hend ih =>
      -- no path comes twice on a way that ends
      have hnew := Ends.not_mem_of_behind (.hop hk hend) hv
      have hv' := Ends.behind_cons hk hend hv
      cases ho : getObjectMetadata k with
      | error e =>
          rw [nextPath, ho] at hk
          cases hk
      | ok o =>
          rw [nextPath_ok ho] at hk
          obtain ⟨t, ht, rfl⟩ := Option.map_eq_some_iff.mp hk
          rw [resolveSymlinkPath_link ho ht, if_neg hnew, if_neg (by omega)]
          exact ih (by omega) hv'

/-- A chain that does not end at an object within the depth is refused. -/
theorem resolveSymlinkPath_long (hd : depth ≤ maxSymlinkDepth)
    (h : ∀ m f o, Ends (nextPath getObjectMetadata) m k f → getObjectMetadata f = .ok o →
      maxSymlinkDepth < depth + m) :
    ∃ e, resolveSymlinkPath getObjectMetadata k depth visited = .error e := by
  induction k, depth, visited using resolveSymlinkPath.induct getObjectMetadata with
  -- the object is not there
  | case1 path depth visited e he =>
      unfold resolveSymlinkPath
      rw [he]
      exact ⟨e, rfl⟩
  -- an object that is no link would be the end of a short way
  | case2 path depth visited o ho hf =>
      have hnone : nextPath getObjectMetadata path = none := by
        rw [nextPath_ok ho, hf]
        rfl
      exact absurd (h 0 path o (.here hnone) ho) (Nat.not_lt_of_le hd)
  -- a path for the second time
  | case3 path depth visited o ho t ht hmem =>
      rw [resolveSymlinkPath_link ho ht, if_pos hmem]
      exact ⟨_, rfl⟩
  -- the depth is reached
  | case4 path depth visited o ho t ht hnew hdepth =>
      rw [resolveSymlinkPath_link ho ht, if_neg hnew, if_pos hdepth]
      exact ⟨_, rfl⟩
  -- one hop further the way is as long as the depth that is left
  | case5 path depth visited o ho t ht hnew hdepth ih =>
      have hnext : nextPath getObjectMetadata path = some (resolveSymlinkTarget path t) := by
        rw [nextPath_ok ho, ht]
        rfl
      rw [resolveSymlinkPath_link ho ht, if_neg hnew, if_neg hdepth]
      refine ih (by omega) fun m f o hm hf => ?_
      have := h (m + 1) f o (.hop hnext hm) hf
      omega

theorem not_behind_nil (next : PyStr → Option PyStr) (n : ℕ) : Ends.Behind next n [] :=
  fun _ hm => absurd hm List.not_mem_nil

/-- **A storage provider** resolves a path to the object in which its chain ends. -/
theorem resolveSymlinkPath_ok_iff :
    resolveSymlinkPath getObjectMetadata k = .ok f ↔ ChainEnds getObjectMetadata k f := by
  have hends : ∀ {n f}, Ends (nextPath getObjectMetadata) n k f → n ≤ maxSymlinkDepth →
      resolveSymlinkPath getObjectMetadata k = (getObjectMetadata f).map fun _ => f :=
    fun h hn => resolveSymlinkPath_ends h (by omega) (not_behind_nil _ _)
  constructor
  · intro hok
    -- what was accepted ends somewhere
    by_contra hno
    have hlong : ∀ m g o, Ends (nextPath getObjectMetadata) m k g → getObjectMetadata g = .ok o →
        maxSymlinkDepth < 0 + m := by
      intro m g o hm hg
      by_contra hle
      have hle : m ≤ maxSymlinkDepth := by omega
      have hok' := hends hm hle
      rw [hok, hg] at hok'
      obtain rfl : f = g := Except.ok.inj hok'
      exact hno ⟨m, hle, hm, o, hg⟩
    have hrefused : ∃ e, resolveSymlinkPath getObjectMetadata k 0 [] = .error e :=
      resolveSymlinkPath_long (Nat.zero_le _) hlong
    obtain ⟨e, he⟩ := hrefused
    rw [hok] at he
    cases he
  · rintro ⟨n, hn, h, o, ho⟩
    rw [hends h hn, ho]
    rfl

/-! ### The two resolvers -/

/-- How the resolvers agree on a key.  Chains of exactly `MAX_SYMLINK_DEPTH` hops
that end at an object are left out. -/
structure ResolversAgree (p : ManifestMetadataProvider)
    (getObjectMetadata : PyStr → Except PyError ObjectMetadata) (k : PyStr) : Prop where
  /-- a chain to an entry -/
  followed : ∀ n f m, Ends p.nextKey n k f → p.files.get? f = some m → n < maxSymlinkDepth →
    p.realpath k = .ok { physicalPath := m.physicalPath, state := .exists } ∧
      resolveSymlinkPath getObjectMetadata k = .ok f
  /-- a chain to a key without an entry: the storage is asked for it -/
  dangling : ∀ n f, Ends p.nextKey n k f → p.files.get? f = none → n < maxSymlinkDepth →
    p.realpath k = .ok { physicalPath := f, state := .untracked } ∧
      resolveSymlinkPath getObjectMetadata k = (getObjectMetadata f).map fun _ => f
  /-- a longer chain, or one without an end -/
  refused : (∀ n f, Ends p.nextKey n k f → maxSymlinkDepth ≤ n ∧
      (n = maxSymlinkDepth → ∃ e, getObjectMetadata f = .error e)) →
    (∃ e, p.realpath k = .error e) ∧ ∃ e, resolveSymlinkPath getObjectMetadata k = .error e
  /-- the storage follows `MAX_SYMLINK_DEPTH` hops -/
  accepted : ∀ f, resolveSymlinkPath getObjectMetadata k = .ok f ↔
    ∃ n ≤ maxSymlinkDepth, Ends p.nextKey n k f ∧ ∃ o, getObjectMetadata f = .ok o

theorem realpath_ends (h : Ends p.nextKey n k f) (hn : n < maxSymlinkDepth) :
    p.realpath k = .ok (p.endOfChain f) :=
  realpathLoop_ends h hn (not_behind_nil _ n)

/-- **The resolvers of symlink chains** agree on every key. -/
theorem resolvers_agree (hs : SameTargets p getObjectMetadata) :
    ResolversAgree p getObjectMetadata k := by
  have hnext := hs.next_eq
  have hends : ∀ {n f}, Ends p.nextKey n k f → n ≤ maxSymlinkDepth →
      resolveSymlinkPath getObjectMetadata k = (getObjectMetadata f).map fun _ => f :=
    fun h hn => resolveSymlinkPath_ends (hnext ▸ h) (by omega) (not_behind_nil _ _)
  refine ⟨fun n f m h hget hn => ⟨?_, ?_⟩, fun n f h hget hn => ⟨?_, hends h hn.le⟩,
    fun hlong => ⟨?_, ?_⟩, fun f => ?_⟩
  · rw [realpath_ends h hn, ManifestMetadataProvider.endOfChain, hget]
  · obtain ⟨o, ho, -⟩ := hs.entry f m hget
    rw [hends h hn.le, ho]
    rfl
  · rw [realpath_ends h hn, ManifestMetadataProvider.endOfChain, hget]
  · exact realpathLoop_long fun m f hm => (hlong m f hm).1
  · refine resolveSymlinkPath_long (Nat.zero_le _) fun m f o hm hf => ?_
    obtain ⟨hle, heq⟩ := hlong m f (hnext ▸ hm)
    rw [Nat.zero_add]
    refine lt_of_le_of_ne hle fun hmax => ?_
    obtain ⟨e, he⟩ := heq hmax.symm
    rw [hf] at he
    cases he
  · rw [hnext]
    exact resolveSymlinkPath_ok_iff

end Resolvers

/-- A storage with an object for every entry. -/
def objectsOf (p : ManifestMetadataProvider) (path : PyStr) : Except PyError ObjectMetadata :=
  match p.files.get? path with
  | some m => .ok m.toObjectMetadata
  | none => .error (.fileNotFoundError ("Object ".toList ++ path ++ " does not exist.".toList))

theorem sameTargets_objectsOf (p : ManifestMetadataProvider) : SameTargets p (objectsOf p) := by
  constructor
  · intro key m hget
    refine ⟨m.toObjectMetadata, ?_, rfl⟩
    rw [objectsOf, hget]
  · intro key o hget ho
    rw [objectsOf, hget] at ho
    cases ho

/-- A committed symlink without a target. -/
def danglingManifest : ManifestMetadataProvider where
  files := PyDict.empty.set "l".toList
    { key := "l".toList, contentLength := 0, lastModified := 0,
      symlinkTarget := some "gone".toList, physicalPath := "l".toList }
  manifestPath := ".msc_manifests".toList
  writable := false
  allowOverwrites := false
  key_of_files := by
    intro k m hk
    rw [PyDict.get?_set] at hk
    split at hk
    next heq => rw [← Option.some.inj hk, heq]
    next => exact absurd hk (by simp)

theorem resolvers_agree_dangling :
    ResolversAgree danglingManifest (objectsOf danglingManifest) "l".toList :=
  resolvers_agree (sameTargets_objectsOf danglingManifest)

/-- For a dangling symlink `realpath` answers and the storage raises. -/
theorem realpath_answers_dangling :
    ¬∀ (p : ManifestMetadataProvider) (getObjectMetadata : PyStr → Except PyError ObjectMetadata)
      (k : PyStr), SameTargets p getObjectMetadata →
      (∃ f m, p.files.get? f = some m ∧
        p.realpath k = .ok { physicalPath := m.physicalPath, state := .exists } ∧
        resolveSymlinkPath getObjectMetadata k = .ok f) ∨
      (∃ e, p.realpath k = .error e) ∧ ∃ e, resolveSymlinkPath getObjectMetadata k = .error e := by
  intro h
  have hreal : danglingManifest.realpath "l".toList =
      .ok { physicalPath := "gone".toList, state := .untracked } := rfl
  rcases h _ _ "l".toList (sameTargets_objectsOf danglingManifest) with
    ⟨f, m, -, hok, -⟩ | ⟨⟨e, he⟩, -⟩
  · rw [hreal] at hok
    have hstate : ResolvedPathState.untracked = .exists :=
      congrArg ResolvedPath.state (Except.ok.inj hok)
    cases hstate
  · rw [hreal] at he
    cases he

end MultiStorageClient
