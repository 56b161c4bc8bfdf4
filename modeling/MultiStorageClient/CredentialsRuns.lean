/-
MultiStorageClient/CredentialsRuns.lean

What `get_credential` promises, in every interleaving of calls and tasks.

A credential that a call returns came from the Python provider, and was not due when
it was taken from the cache (`returned_fresh`).  As long as no call is dropped, the
provider is a single flight: one task at a time asks Python, and none does so while
what was fetched last is not due (`fetches_singleFlight`).  A dropped call gives the
lock back while its task goes on, so a second task may then ask Python beside it.
-/
import MultiStorageClient.CredentialsProvider
import MultiStorageClient.LockOrder

namespace MultiStorageClient

open Run LockOrder

namespace CredentialsProvider

variable {C : Type} {parse : String → Option ℤ} {extract : PyCredentials → Except String C}
  {refreshThreshold : ℤ} {p p' : CredentialsProvider C} {n m : ℕ} {now : ℤ}
  {c : CredentialCache C} {a : CredentialStep} {as : List CredentialStep}

/-! ### What a step can be -/

/-- A task moves on and the cache stays. -/
inductive TaskMove : RefreshTaskAt C → RefreshTaskAt C → Prop
  | refresh (c : CredentialCache C) : TaskMove (.check c) .refreshCredentials
  | keep (c : CredentialCache C) : TaskMove (.check c) (.write c)
  | again : TaskMove .refreshCredentials .getAgain

/-- A task gets credentials from the provider. -/
inductive TaskGets (c : CredentialCache C) : RefreshTaskAt C → RefreshTaskAt C → Prop
  | first : TaskGets c .getCredentials (.check c)
  | again : TaskGets c .getAgain (.write c)

/-- The steps, each with what it needs and does. -/
inductive Stepped (refreshThreshold : ℤ) (p : CredentialsProvider C) :
    CredentialStep → CredentialsProvider C → Prop
  | hit (n : ℕ) (now : ℤ) (c : CredentialCache C) : p.calls n = .notCalled →
      p.fresh refreshThreshold now = some c →
      Stepped refreshThreshold p (.call n now) (p.setCall n (.cached c now))
  | miss (n : ℕ) (now : ℤ) : p.calls n = .notCalled →
      Stepped refreshThreshold p (.call n now) (p.setCall n .acquiring)
  | acquire (n : ℕ) : p.calls n = .acquiring → p.refreshLock = none →
      Stepped refreshThreshold p (.acquire n) { p.setCall n .locked with refreshLock := some n }
  | found (n : ℕ) (now : ℤ) (c : CredentialCache C) : p.calls n = .locked →
      p.fresh refreshThreshold now = some c → Stepped refreshThreshold p (.recheck n now)
        { p.setCall n (.cached c now) with refreshLock := none }
  | spawn (n : ℕ) (now : ℤ) : p.calls n = .locked → p.fresh refreshThreshold now = none →
      Stepped refreshThreshold p (.recheck n now)
        { (p.setCall n .joining).setTask n .getCredentials with
          events := p.events ++ [.start n now] }
  | fails (n : ℕ) (answer : PyAnswer) (now : ℤ) (e : CredentialError) :
      (p.tasks n).running = true →
      Stepped refreshThreshold p (.task n answer now) (p.failTask n e)
  | gets (n : ℕ) (answer : PyAnswer) (now : ℤ) (c : CredentialCache C) (l : RefreshTaskAt C) :
      TaskGets c (p.tasks n) l → Stepped refreshThreshold p (.task n answer now)
        { p.setTask n l with answers := p.answers ++ [c] }
  | moves (n : ℕ) (answer : PyAnswer) (now : ℤ) (l : RefreshTaskAt C) : TaskMove (p.tasks n) l →
      Stepped refreshThreshold p (.task n answer now) (p.setTask n l)
  | writes (n : ℕ) (answer : PyAnswer) (now : ℤ) (c : CredentialCache C) :
      p.tasks n = .write c → Stepped refreshThreshold p (.task n answer now)
        { p.setTask n (.ended (.ok c.credential)) with
          cachedCredentials := some c
          events := p.events ++ [.write n c] }
  | join (n : ℕ) (r : Except CredentialError C) : p.calls n = .joining → p.tasks n = .ended r →
      Stepped refreshThreshold p (.join n)
        { p.setCall n (.refreshed r) with refreshLock := none }
  | dropWaiting (n : ℕ) : p.calls n = .acquiring →
      Stepped refreshThreshold p (.drop n) (p.setCall n .dropped)
  | dropHolding (n : ℕ) : p.calls n = .locked ∨ p.calls n = .joining →
      Stepped refreshThreshold p (.drop n)
        { p.setCall n .dropped with refreshLock := none }

theorem gotCredentials_stepped {answer : PyAnswer} {py : PyCredentials}
    {next : CredentialCache C → RefreshTaskAt C} (hrunning : (p.tasks n).running = true)
    (hnext : ∀ c, TaskGets c (p.tasks n) (next c)) :
    Stepped refreshThreshold p (.task n answer now)
      (p.gotCredentials parse extract n py now next) := by
  unfold gotCredentials
  split
  · exact .fails n answer now _ hrunning
  · exact .gets n answer now _ _ (hnext _)

/-- The moves of a refresh task, as one relation. -/
theorem taskStep_stepped {answer : PyAnswer}
    (h : p.taskStep parse extract refreshThreshold n answer now = some p') :
    Stepped refreshThreshold p (.task n answer now) p' := by
  unfold taskStep at h
  split at h
  case h_1 => cases h
  case h_2 => cases h
  -- an exception, wherever the task is
  case h_3 hnot hended =>
      obtain rfl := Option.some.inj h
      refine .fails n _ now _ ?_
      cases hp : p.tasks n with
      | notSpawned => exact absurd hp hnot
      | ended r => exact absurd hp (hended r)
      | _ => rfl
  -- the first credentials
  case h_4 hp =>
      obtain rfl := Option.some.inj h
      exact gotCredentials_stepped (by rw [hp]; rfl) fun c => by rw [hp]; exact .first
  case h_5 hp =>
      obtain rfl := Option.some.inj h
      exact .fails n _ now _ (by rw [hp]; rfl)
  -- are they due?
  case h_6 c hp _ =>
      obtain rfl := Option.some.inj h
      split
      · exact .moves n _ now _ (by rw [hp]; exact .refresh c)
      · exact .moves n _ now _ (by rw [hp]; exact .keep c)
  case h_7 hp =>
      obtain rfl := Option.some.inj h
      exact .moves n _ now _ (by rw [hp]; exact .again)
  case h_8 hp =>
      obtain rfl := Option.some.inj h
      exact .fails n _ now _ (by rw [hp]; rfl)
  -- the credentials after a refresh
  case h_9 hp =>
      obtain rfl := Option.some.inj h
      exact gotCredentials_stepped (by rw [hp]; rfl) fun c => by rw [hp]; exact .again
  case h_10 hp =>
      obtain rfl := Option.some.inj h
      exact .fails n _ now _ (by rw [hp]; rfl)
  -- the cache is written
  case h_11 c hp _ =>
      obtain rfl := Option.some.inj h
      exact .writes n _ now c hp
  case h_12 => cases h

/-- The moves of the provider, as one relation. -/
theorem step_stepped (h : p.step parse extract refreshThreshold a = some p') :
    Stepped refreshThreshold p a p' := by
  cases a with
  | call n now =>
      rw [step] at h
      split at h
      next hcall =>
          split at h
          -- a fresh credential needs no lock
          next c hc => obtain rfl := Option.some.inj h; exact .hit n now c hcall hc
          next => obtain rfl := Option.some.inj h; exact .miss n now hcall
      next => cases h
  | acquire n =>
      rw [step] at h
      split at h
      next hcall hlock => obtain rfl := Option.some.inj h; exact .acquire n hcall hlock
      next => cases h
  | recheck n now =>
      rw [step] at h
      split at h
      next hcall =>
          split at h
          -- another call may have refreshed in between
          next c hc => obtain rfl := Option.some.inj h; exact .found n now c hcall hc
          next hno => obtain rfl := Option.some.inj h; exact .spawn n now hcall hno
      next => cases h
  | task n answer now => exact taskStep_stepped h
  | join n =>
      rw [step] at h
      split at h
      next r hcall htask => obtain rfl := Option.some.inj h; exact .join n r hcall htask
      next => cases h
  | drop n =>
      rw [step] at h
      split at h
      next hcall => obtain rfl := Option.some.inj h; exact .dropWaiting n hcall
      next hcall => obtain rfl := Option.some.inj h; exact .dropHolding n (Or.inl hcall)
      next hcall => obtain rfl := Option.some.inj h; exact .dropHolding n (Or.inr hcall)
      next => cases h

/-! ### Where credentials come from -/

/-- What a task has got is something the provider has answered. -/
def TaskSound (answers : List (CredentialCache C)) : RefreshTaskAt C → Prop
  | .check c => c ∈ answers
  | .write c => c ∈ answers
  | .ended (.ok x) => ∃ c ∈ answers, c.credential = x
  | _ => True

/-- So is what a call returns, and it was not due when it was taken from the cache. -/
def CallSound (refreshThreshold : ℤ) (answers : List (CredentialCache C)) :
    GetCredentialAt C → Prop
  | .cached c now => c ∈ answers ∧ shouldRefresh refreshThreshold c now = false
  | .refreshed (.ok x) => ∃ c ∈ answers, c.credential = x
  | _ => True

/-- A longer history is no harm to a task. -/
theorem TaskSound.mono {l l' : List (CredentialCache C)} {t : RefreshTaskAt C}
    (h : TaskSound l t) (hsub : l ⊆ l') : TaskSound l' t := by
  cases t with
  | check c => exact hsub h
  | write c => exact hsub h
  | ended r =>
      cases r with
      | error e => trivial
      | ok x =>
          obtain ⟨c, hc, heq⟩ := h
          exact ⟨c, hsub hc, heq⟩
  | _ => trivial

/-- A longer history is no harm to a call. -/
theorem CallSound.mono {l l' : List (CredentialCache C)} {t : GetCredentialAt C}
    (h : CallSound refreshThreshold l t) (hsub : l ⊆ l') : CallSound refreshThreshold l' t := by
  cases t with
  | cached c now => exact ⟨hsub h.1, h.2⟩
  | refreshed r =>
      cases r with
      | error e => trivial
      | ok x =>
          obtain ⟨c, hc, heq⟩ := h
          exact ⟨c, hsub hc, heq⟩
  | _ => trivial

/-- Every credential comes from an answer of the provider. -/
structure Sound (refreshThreshold : ℤ) (p : CredentialsProvider C) : Prop where
  cached : ∀ c, p.cachedCredentials = some c → c ∈ p.answers
  task : ∀ n, TaskSound p.answers (p.tasks n)
  call : ∀ n, CallSound refreshThreshold p.answers (p.calls n)

namespace Sound

/-- A call moves on; the lock does not matter here. -/
theorem of_call {l : GetCredentialAt C} (h : Sound refreshThreshold p)
    (hl : CallSound refreshThreshold p.answers l)
    (hcached : p'.cachedCredentials = p.cachedCredentials)
    (htasks : p'.tasks = p.tasks) (hanswers : p'.answers = p.answers)
    (hcalls : p'.calls = Function.update p.calls n l) : Sound refreshThreshold p' := by
  refine ⟨fun c hc => ?_, fun m => ?_, fun m => ?_⟩
  · rw [hanswers]
    exact h.cached c (hcached ▸ hc)
  · rw [hanswers, htasks]
    exact h.task m
  · rw [hanswers, hcalls]
    by_cases hm : m = n
    · subst hm
      rw [Function.update_self]
      exact hl
    · rw [Function.update_of_ne hm]
      exact h.call m

/-- A task moves on, and the provider may have answered. -/
theorem of_task {l : RefreshTaskAt C} (h : Sound refreshThreshold p)
    (hsub : p.answers ⊆ p'.answers) (hl : TaskSound p'.answers l)
    (hcached : ∀ c, p'.cachedCredentials = some c → p.cachedCredentials = some c ∨ c ∈ p'.answers)
    (hcalls : p'.calls = p.calls) (htasks : p'.tasks = Function.update p.tasks n l) :
    Sound refreshThreshold p' := by
  refine ⟨fun c hc => ?_, fun m => ?_, fun m => ?_⟩
  · rcases hcached c hc with hold | hnew
    · exact hsub (h.cached c hold)
    · exact hnew
  · rw [htasks]
    by_cases hm : m = n
    · subst hm
      rw [Function.update_self]
      exact hl
    · rw [Function.update_of_ne hm]
      exact (h.task m).mono hsub
  · rw [hcalls]
    exact (h.call m).mono hsub

theorem of_fresh (h : Sound refreshThreshold p) (hc : p.fresh refreshThreshold now = some c) :
    CallSound refreshThreshold p.answers (.cached c now) := by
  obtain ⟨hcached, hfresh⟩ := Option.filter_eq_some_iff.mp hc
  exact ⟨h.cached c hcached, by simpa using hfresh⟩

/-- Every step keeps the calls sound. -/
theorem step (h : Sound refreshThreshold p) (hstep : Stepped refreshThreshold p a p') :
    Sound refreshThreshold p' := by
  cases hstep with
  | hit n now c _ hc => exact h.of_call (h.of_fresh hc) rfl rfl rfl rfl
  | miss n now _ => exact h.of_call (l := .acquiring) trivial rfl rfl rfl rfl
  | acquire n _ _ => exact h.of_call (l := .locked) trivial rfl rfl rfl rfl
  | found n now c _ hc => exact h.of_call (h.of_fresh hc) rfl rfl rfl rfl
  | spawn n now _ _ =>
      have hcall : Sound refreshThreshold (p.setCall n .joining) :=
        h.of_call (l := .joining) trivial rfl rfl rfl rfl
      exact hcall.of_task (n := n) (l := .getCredentials) (List.Subset.refl _) trivial
        (fun _ => Or.inl) rfl rfl
  | fails n _ _ e _ =>
      exact h.of_task (l := .ended (.error e)) (List.Subset.refl _) trivial
        (fun _ => Or.inl) rfl rfl
  -- what the provider answers is one more answer
  | gets n _ _ c l hgets =>
      refine h.of_task (l := l) (List.subset_append_left ..) ?_ (fun _ => Or.inl) rfl rfl
      generalize p.tasks n = old at hgets
      cases hgets with
      | first => exact List.mem_append_right _ (List.mem_singleton_self c)
      | again => exact List.mem_append_right _ (List.mem_singleton_self c)
  | moves n _ _ l hmoves =>
      refine h.of_task (l := l) (List.Subset.refl _) ?_ (fun _ => Or.inl) rfl rfl
      have hn := h.task n
      generalize p.tasks n = old at hn hmoves
      cases hmoves with
      | refresh c => trivial
      | keep c => exact hn
      | again => trivial
  -- what is cached has been answered
  | writes n _ _ c hp =>
      have hc : c ∈ p.answers := by
        have hn := h.task n
        rw [hp] at hn
        exact hn
      refine h.of_task (l := .ended (.ok c.credential)) (List.Subset.refl _) ⟨c, hc, rfl⟩
        (fun c' hc' => Or.inr ?_) rfl rfl
      obtain rfl := Option.some.inj hc'
      exact hc
  -- who joins a task returns what the task has ended with
  | join n r _ htask =>
      refine h.of_call (l := .refreshed r) ?_ rfl rfl rfl rfl
      have hn := h.task n
      rw [htask] at hn
      cases r with
      | error e => trivial
      | ok x => exact hn
  | dropWaiting n _ => exact h.of_call (l := .dropped) trivial rfl rfl rfl rfl
  | dropHolding n _ => exact h.of_call (l := .dropped) trivial rfl rfl rfl rfl

end Sound

/-! ### The lock -/

/-- A call has the lock from where it takes it until it returns or is dropped. -/
def HasLock (l : GetCredentialAt C) : Prop := l = .locked ∨ l = .joining

/-- One call at a time has the lock, and only a call that has had it has a task. -/
structure LockInv (p : CredentialsProvider C) : Prop where
  held : Held (fun n (_ : Unit) => HasLock (p.calls n)) fun _ => p.refreshLock
  spawned : ∀ n, (p.tasks n).running = true → p.calls n = .joining ∨ p.calls n = .dropped
  notSpawned : ∀ n, p.calls n = .notCalled ∨ p.calls n = .acquiring ∨ p.calls n = .locked →
    p.tasks n = .notSpawned

theorem TaskGets.running {l l' : RefreshTaskAt C} (h : TaskGets c l l') :
    l.running = true ∧ l'.running = true := by
  cases h <;> exact ⟨rfl, rfl⟩

theorem TaskMove.running {l l' : RefreshTaskAt C} (h : TaskMove l l') :
    l.running = true ∧ l'.running = true := by
  cases h <;> exact ⟨rfl, rfl⟩

namespace LockInv

theorem held_of_call {l : GetCredentialAt C} (h : p.LockInv)
    (hl : HasLock l ↔ HasLock (p.calls n)) :
    Held (fun m (_ : Unit) => HasLock (Function.update p.calls n l m)) fun _ => p.refreshLock :=
  h.held.keep fun m _ => by
    by_cases hm : m = n
    · subst hm
      rw [Function.update_self]
      exact hl
    · rw [Function.update_of_ne hm]

theorem held_of_release {l : GetCredentialAt C} (h : p.LockInv) (hn : HasLock (p.calls n))
    (hl : ¬HasLock l) :
    Held (fun m (_ : Unit) => HasLock (Function.update p.calls n l m)) fun _ => none := by
  rw [show (fun _ => none) = Function.update (fun _ : Unit => p.refreshLock) () none from
    funext fun _ => rfl]
  refine h.held.release (l := ()) hn (fun m hm _ => ?_) fun _ => ?_
  · rw [Function.update_of_ne hm]
  · rw [Function.update_self]
    exact iff_of_false hl fun hno => hno.1 rfl

theorem held_of_acquire {l : GetCredentialAt C} (h : p.LockInv) (hfree : p.refreshLock = none)
    (hl : HasLock l) :
    Held (fun m (_ : Unit) => HasLock (Function.update p.calls n l m)) fun _ => some n := by
  rw [show (fun _ => some n) = Function.update (fun _ : Unit => p.refreshLock) () (some n) from
    funext fun _ => rfl]
  refine h.held.acquire (l := ()) hfree (fun m hm _ => ?_) fun _ => ?_
  · rw [Function.update_of_ne hm]
  · rw [Function.update_self]
    exact iff_of_true hl (Or.inl rfl)

/-- A call that has no task yet moves on. -/
theorem of_call {l : GetCredentialAt C} (h : p.LockInv) (hn : p.tasks n = .notSpawned)
    (htasks : p'.tasks = p.tasks) (hcalls : p'.calls = Function.update p.calls n l)
    (hheld : Held (fun m (_ : Unit) => HasLock (p'.calls m)) fun _ => p'.refreshLock) :
    p'.LockInv := by
  refine ⟨hheld, fun m hm => ?_, fun m hm => ?_⟩
  · rw [htasks] at hm
    have hne : m ≠ n := by
      rintro rfl
      rw [hn] at hm
      cases hm
    rw [hcalls, Function.update_of_ne hne]
    exact h.spawned m hm
  · rw [htasks]
    by_cases hne : m = n
    · rw [hne]
      exact hn
    · rw [hcalls, Function.update_of_ne hne] at hm
      exact h.notSpawned m hm

/-- A task that was spawned moves on. -/
theorem of_task {l : RefreshTaskAt C} (h : p.LockInv) (hn : (p.tasks n).running = true)
    (hcalls : p'.calls = p.calls) (hlock : p'.refreshLock = p.refreshLock)
    (htasks : p'.tasks = Function.update p.tasks n l) : p'.LockInv := by
  refine ⟨by rw [hcalls, hlock]; exact h.held, fun m hm => ?_, fun m hm => ?_⟩
  · rw [hcalls]
    by_cases hne : m = n
    · rw [hne]
      exact h.spawned n hn
    · rw [htasks, Function.update_of_ne hne] at hm
      exact h.spawned m hm
  · rw [hcalls] at hm
    have hno := h.notSpawned m hm
    have hne : m ≠ n := by
      rintro rfl
      rw [hno] at hn
      cases hn
    rw [htasks, Function.update_of_ne hne]
    exact hno

/-- A call ends, or is dropped. -/
theorem of_leave {l : GetCredentialAt C} (h : p.LockInv)
    (hn : (p.tasks n).running = true → l = .dropped)
    (hl : ¬(l = .notCalled ∨ l = .acquiring ∨ l = .locked)) (htasks : p'.tasks = p.tasks)
    (hcalls : p'.calls = Function.update p.calls n l)
    (hheld : Held (fun m (_ : Unit) => HasLock (p'.calls m)) fun _ => p'.refreshLock) :
    p'.LockInv := by
  refine ⟨hheld, fun m hm => ?_, fun m hm => ?_⟩
  · rw [htasks] at hm
    rw [hcalls]
    by_cases hne : m = n
    · subst hne
      rw [Function.update_self]
      exact Or.inr (hn hm)
    · rw [Function.update_of_ne hne]
      exact h.spawned m hm
  · rw [htasks]
    by_cases hne : m = n
    · subst hne
      rw [hcalls, Function.update_self] at hm
      exact absurd hm hl
    · rw [hcalls, Function.update_of_ne hne] at hm
      exact h.notSpawned m hm

/-- Every step keeps who holds the lock. -/
theorem step (h : p.LockInv) (hstep : Stepped refreshThreshold p a p') : p'.LockInv := by
  cases hstep with
  | hit n now c hcall _ =>
      exact h.of_call (h.notSpawned n (Or.inl hcall)) rfl rfl
        (h.held_of_call (by rw [hcall]; simp [HasLock]))
  | miss n now hcall =>
      exact h.of_call (h.notSpawned n (Or.inl hcall)) rfl rfl
        (h.held_of_call (by rw [hcall]; simp [HasLock]))
  | acquire n hcall hfree =>
      exact h.of_call (h.notSpawned n (Or.inr (Or.inl hcall))) rfl rfl
        (h.held_of_acquire hfree (Or.inl rfl))
  | found n now c hcall _ =>
      exact h.of_call (h.notSpawned n (Or.inr (Or.inr hcall))) rfl rfl
        (h.held_of_release (Or.inl hcall) (by simp [HasLock]))
  -- the call that spawns a task holds the lock for it
  | spawn n now hcall _ =>
      refine ⟨h.held_of_call (by rw [hcall]; simp [HasLock]), fun m hm => ?_, fun m hm => ?_⟩
      · by_cases hne : m = n
        · subst hne
          exact Or.inl (Function.update_self ..)
        · have hm' : (p.tasks m).running = true := by
            rw [← hm]
            exact congrArg _ (Function.update_of_ne hne ..).symm
          show Function.update p.calls n .joining m = _ ∨ Function.update p.calls n .joining m = _
          rw [Function.update_of_ne hne]
          exact h.spawned m hm'
      · have hne : m ≠ n := by
          rintro rfl
          simp [setCall, setTask] at hm
        show Function.update p.tasks n .getCredentials m = _
        rw [Function.update_of_ne hne]
        refine h.notSpawned m ?_
        simpa [setCall, setTask, hne] using hm
  | fails n _ _ e hrunning => exact h.of_task hrunning rfl rfl rfl
  | gets n _ _ c l hgets => exact h.of_task hgets.running.1 rfl rfl rfl
  | moves n _ _ l hmoves => exact h.of_task hmoves.running.1 rfl rfl rfl
  | writes n _ _ c hp => exact h.of_task (by rw [hp]; rfl) rfl rfl rfl
  | join n r hcall htask =>
      exact h.of_leave (by rw [htask]; simp [RefreshTaskAt.running]) (by simp) rfl rfl
        (h.held_of_release (Or.inr hcall) (by simp [HasLock]))
  | dropWaiting n hcall =>
      exact h.of_leave (fun _ => rfl) (by simp) rfl rfl
        (h.held_of_call (by rw [hcall]; simp [HasLock]))
  | dropHolding n hcall =>
      exact h.of_leave (fun _ => rfl) (by simp) rfl rfl
        (h.held_of_release hcall (by simp [HasLock]))

end LockInv

/-! ### The flight -/

/-- No call is dropped, and the events are those of a single flight that has what is in
the cache and whose party is the task that runs. -/
structure FlightInv (refreshThreshold : ℤ) (p : CredentialsProvider C) : Prop where
  lock : p.LockInv
  notDropped : ∀ n, p.calls n ≠ .dropped
  flight : ∃ f : SingleFlight ℕ (CredentialCache C),
    exec (SingleFlight.step (shouldRefresh refreshThreshold)) {} p.events = some f ∧
      f.value = p.cachedCredentials ∧ ∀ n, f.flight = some n ↔ (p.tasks n).running = true

namespace FlightInv

/-- Who has the lock is the only one that can have a task that runs. -/
theorem eq_of_running (h : FlightInv refreshThreshold p) (hn : HasLock (p.calls n))
    (hm : (p.tasks m).running = true) : m = n := by
  have hcall : p.calls m = .joining := (h.lock.spawned m hm).resolve_right (h.notDropped m)
  exact h.lock.held.unique (l := ()) (Or.inr hcall) hn

/-- The calls move on, and neither the tasks nor the cache do. -/
theorem of_call {l : GetCredentialAt C} (h : FlightInv refreshThreshold p) (hlock : p'.LockInv)
    (hl : l ≠ .dropped) (hcached : p'.cachedCredentials = p.cachedCredentials)
    (htasks : p'.tasks = p.tasks) (hevents : p'.events = p.events)
    (hcalls : p'.calls = Function.update p.calls n l) : FlightInv refreshThreshold p' := by
  refine ⟨hlock, fun m => ?_, ?_⟩
  · rw [hcalls]
    by_cases hm : m = n
    · subst hm
      rw [Function.update_self]
      exact hl
    · rw [Function.update_of_ne hm]
      exact h.notDropped m
  · obtain ⟨f, hf⟩ := h.flight
    exact ⟨f, by rw [hevents, hcached, htasks]; exact hf⟩

/-- A task that runs moves on and does not end. -/
theorem of_task {l : RefreshTaskAt C} (h : FlightInv refreshThreshold p) (hlock : p'.LockInv)
    (hn : (p.tasks n).running = true) (hl : l.running = true)
    (hcached : p'.cachedCredentials = p.cachedCredentials) (hcalls : p'.calls = p.calls)
    (hevents : p'.events = p.events) (htasks : p'.tasks = Function.update p.tasks n l) :
    FlightInv refreshThreshold p' := by
  refine ⟨hlock, by rw [hcalls]; exact h.notDropped, ?_⟩
  obtain ⟨f, hrun, hvalue, hflight⟩ := h.flight
  refine ⟨f, by rw [hevents]; exact hrun, by rw [hcached]; exact hvalue, fun m => ?_⟩
  rw [htasks]
  by_cases hm : m = n
  · subst hm
    rw [Function.update_self]
    exact iff_of_true ((hflight m).mpr hn) hl
  · rw [Function.update_of_ne hm]
    exact hflight m

/-- The task that runs ends, with a step of the flight. -/
theorem of_end {r : Except CredentialError C}
    {b : SingleFlight.Step ℕ (CredentialCache C) ℤ} (h : FlightInv refreshThreshold p)
    (hlock : p'.LockInv) (hn : (p.tasks n).running = true) (hcalls : p'.calls = p.calls)
    (hevents : p'.events = p.events ++ [b])
    (htasks : p'.tasks = Function.update p.tasks n (.ended r))
    (hstep : ∀ f : SingleFlight ℕ (CredentialCache C), f.value = p.cachedCredentials →
      f.flight = some n → ∃ f', f.step (shouldRefresh refreshThreshold) b = some f' ∧
        f'.value = p'.cachedCredentials ∧ f'.flight = none) :
    FlightInv refreshThreshold p' := by
  refine ⟨hlock, by rw [hcalls]; exact h.notDropped, ?_⟩
  obtain ⟨f, hrun, hvalue, hflight⟩ := h.flight
  obtain ⟨f', hf', hvalue', hnone⟩ := hstep f hvalue ((hflight n).mpr hn)
  refine ⟨f', by rw [hevents]; exact exec_snoc.mpr ⟨f, hrun, hf'⟩, hvalue', fun m => ?_⟩
  rw [hnone]
  refine iff_of_false (by simp) fun hm => ?_
  rw [htasks] at hm
  by_cases hmn : m = n
  · subst hmn
    rw [Function.update_self] at hm
    cases hm
  · rw [Function.update_of_ne hmn] at hm
    exact hmn (Option.some.inj (((hflight m).mpr hm).symm.trans ((hflight n).mpr hn)))

/-- A step that drops no task keeps the single flight. -/
theorem step (h : FlightInv refreshThreshold p) (hdrop : ∀ n, a ≠ .drop n)
    (hstep : Stepped refreshThreshold p a p') : FlightInv refreshThreshold p' := by
  have hlock := h.lock.step hstep
  cases hstep with
  | hit n now c _ _ => exact h.of_call hlock (by simp) rfl rfl rfl rfl
  | miss n now _ => exact h.of_call hlock (by simp) rfl rfl rfl rfl
  | acquire n _ _ => exact h.of_call hlock (by simp) rfl rfl rfl rfl
  | found n now c _ _ => exact h.of_call hlock (by simp) rfl rfl rfl rfl
  | spawn n now hcall hno =>
      refine ⟨hlock, fun m => ?_, ?_⟩
      · show Function.update p.calls n .joining m ≠ _
        by_cases hm : m = n
        · subst hm
          rw [Function.update_self]
          simp
        · rw [Function.update_of_ne hm]
          exact h.notDropped m
      · obtain ⟨f, hrun, hvalue, hflight⟩ := h.flight
        -- a task that runs would be that of the call that has the lock
        have hnone : f.flight = none := by
          by_contra hsome
          obtain ⟨m, hm⟩ := Option.ne_none_iff_exists'.mp hsome
          have hrunning := (hflight m).mp hm
          obtain rfl := h.eq_of_running (Or.inl hcall) hrunning
          rw [h.lock.notSpawned m (Or.inr (Or.inr hcall))] at hrunning
          cases hrunning
        have hdue : f.value.all (fun v => shouldRefresh refreshThreshold v now) = true := by
          rw [hvalue, Option.all_eq_true]
          intro v hv
          have hnot := Option.filter_eq_none_iff.mp hno v hv
          simpa using hnot
        refine ⟨{ f with flight := some n }, exec_snoc.mpr ⟨f, hrun, ?_⟩, hvalue, fun m => ?_⟩
        · exact if_pos ⟨by rw [hnone]; rfl, hdue⟩
        · show some n = some m ↔ (Function.update p.tasks n .getCredentials m).running = true
          by_cases hm : m = n
          · subst hm
            rw [Function.update_self]
            exact iff_of_true rfl rfl
          · rw [Function.update_of_ne hm]
            refine iff_of_false (fun heq => hm (Option.some.inj heq).symm) fun hrunning => ?_
            exact hm (h.eq_of_running (Or.inl hcall) hrunning)
  | fails n _ _ e hrunning =>
      refine h.of_end hlock hrunning rfl rfl rfl fun f hvalue hflight => ?_
      exact ⟨{ f with flight := none }, if_pos hflight, hvalue, rfl⟩
  | gets n _ _ c l hgets => exact h.of_task hlock hgets.running.1 hgets.running.2 rfl rfl rfl rfl
  | moves n _ _ l hmoves => exact h.of_task hlock hmoves.running.1 hmoves.running.2 rfl rfl rfl rfl
  | writes n _ _ c hp =>
      refine h.of_end hlock (by rw [hp]; rfl) rfl rfl rfl fun f _ hflight => ?_
      exact ⟨_, if_pos hflight, rfl, rfl⟩
  | join n r _ _ => exact h.of_call hlock (by simp) rfl rfl rfl rfl
  | dropWaiting n _ => exact absurd rfl (hdrop n)
  | dropHolding n _ => exact absurd rfl (hdrop n)

end FlightInv

/-! ### Runs -/

theorem initial_sound : Sound refreshThreshold ({} : CredentialsProvider C) :=
  ⟨by simp, fun _ => trivial, fun _ => trivial⟩

theorem initial_lockInv : ({} : CredentialsProvider C).LockInv :=
  ⟨fun n _ => iff_of_false (by simp [HasLock]) (by simp), by simp [RefreshTaskAt.running],
    fun _ _ => rfl⟩

theorem initial_flightInv : FlightInv refreshThreshold ({} : CredentialsProvider C) :=
  ⟨initial_lockInv, by simp, {}, rfl, rfl, by simp [RefreshTaskAt.running]⟩

/-- **What a call returns** is what the Python provider has answered, and it was not due
when it was taken from the cache, whatever calls are dropped; and a call that has ended
or was dropped does not have the lock. -/
theorem returned_fresh
    (hrun : exec (CredentialsProvider.step parse extract refreshThreshold) {} as = some p) :
    (∀ n c now, p.calls n = .cached c now → c ∈ p.answers ∧
        now ≤ c.expireTime - durationSeconds refreshThreshold) ∧
      (∀ n x, p.calls n = .refreshed (.ok x) → ∃ c ∈ p.answers, c.credential = x) ∧
      ∀ n, p.refreshLock = some n → p.calls n = .locked ∨ p.calls n = .joining := by
  have hok : Always (CredentialsProvider.step parse extract refreshThreshold) (fun _ _ => True)
      {} as := Always.of_mem (fun _ _ _ => trivial) _
  have hinv : Sound refreshThreshold p ∧ p.LockInv := exec_invariant
    (I := fun q : CredentialsProvider C => Sound refreshThreshold q ∧ q.LockInv)
    (fun q a q' hq _ hstep => ⟨hq.1.step (step_stepped hstep), hq.2.step (step_stepped hstep)⟩)
    hok hrun ⟨initial_sound, initial_lockInv⟩
  refine ⟨fun n c now hc => ?_, fun n x hx => ?_, fun n hn => (hinv.2.held n ()).mpr hn⟩
  · have hcall := hinv.1.call n
    rw [hc] at hcall
    refine ⟨hcall.1, ?_⟩
    have hdue := hcall.2
    unfold shouldRefresh at hdue
    simpa using hdue
  · have hcall := hinv.1.call n
    rw [hx] at hcall
    exact hcall

/-- **One fetch at a time, and only when it is due**, as long as no call is dropped: the
starts and ends of the tasks are a run of a single flight with what is in the cache,
no two tasks run at once, and where no credential that was fetched is due when a task
starts, one is all that is fetched. -/
theorem fetches_singleFlight
    (hrun : exec (CredentialsProvider.step parse extract refreshThreshold) {} as = some p)
    (hdrop : ∀ n, CredentialStep.drop n ∉ as) :
    (∃ f : SingleFlight ℕ (CredentialCache C),
        exec (SingleFlight.step (shouldRefresh refreshThreshold)) {} p.events = some f ∧
          f.value = p.cachedCredentials) ∧
      (∀ n m, (p.tasks n).running = true → (p.tasks m).running = true → n = m) ∧
      ((∀ v i t, (∃ j, .write j v ∈ p.events) → .start i t ∈ p.events →
          shouldRefresh refreshThreshold v t = false) →
        (p.events.filterMap SingleFlight.Step.written).length ≤ 1) := by
  have hok : Always (CredentialsProvider.step parse extract refreshThreshold)
      (fun _ a => True ∧ ∀ n, a ≠ .drop n) {} as :=
    (Always.of_mem (fun _ _ _ => trivial) _).and_mem fun a ha n heq => hdrop n (heq ▸ ha)
  have hinv : FlightInv refreshThreshold p := exec_invariant
    (fun _ _ _ hq hno hstep => hq.step hno.2 (step_stepped hstep)) hok hrun initial_flightInv
  obtain ⟨f, hf, hvalue, hflight⟩ := hinv.flight
  refine ⟨⟨f, hf, hvalue⟩, fun n m hn hm => ?_, fun hfresh => ?_⟩
  · have hcall := (hinv.lock.spawned n hn).resolve_right (hinv.notDropped n)
    exact (hinv.eq_of_running (Or.inr hcall) hm).symm
  · have honce := SingleFlight.fetched_once hf hfresh
    rwa [SingleFlight.fetched_eq hf, List.nil_append] at honce

/-- Two calls find nothing in the cache; the first has the provider refresh what has
expired, and the second finds what it got. -/
def refreshesOnce : List CredentialStep :=
  [.call 0 (durationSeconds 10), .call 1 (durationSeconds 10), .acquire 0,
    .recheck 0 (durationSeconds 10), .task 0 (.credentials ⟨"key", "secret", none, some "old"⟩)
    (durationSeconds 10), .task 0 .refreshed (durationSeconds 10),
      .task 0 .refreshed (durationSeconds 10),
    .task 0 (.credentials ⟨"key", "secret", none, some "new"⟩) (durationSeconds 10),
    .task 0 .refreshed (durationSeconds 10), .join 0, .acquire 1, .recheck 1 (durationSeconds 11)]

/-- The times of the two. -/
def oldOrNew (s : String) : Option ℤ := some (if s = "old" then 0 else durationSeconds 100)

/-- A provider with these two, and no threshold. -/
abbrev refreshStep : CredentialsProvider AwsCredential → CredentialStep →
    Option (CredentialsProvider AwsCredential) :=
  CredentialsProvider.step oldOrNew AwsCredential.extract 0

theorem returned_fresh_of_run : ∃ p, exec refreshStep {} refreshesOnce = some p ∧
    p.calls 1 = .cached ⟨⟨"key", "secret", none⟩, durationSeconds 100⟩ (durationSeconds 11) ∧
    ∀ n c now, p.calls n = .cached c now → c ∈ p.answers ∧
      now ≤ c.expireTime - durationSeconds 0 := by
  obtain ⟨p, hrun, hp⟩ : ∃ p, exec refreshStep {} refreshesOnce = some p ∧
      p.calls 1 = .cached ⟨⟨"key", "secret", none⟩, durationSeconds 100⟩ (durationSeconds 11) :=
    exec_exists (by decide +kernel)
  exact ⟨p, hrun, hp, (returned_fresh hrun).1⟩

theorem fetches_singleFlight_of_run : ∃ p, exec refreshStep {} refreshesOnce = some p ∧
    p.events = [.start 0 (durationSeconds 10),
      .write 0 ⟨⟨"key", "secret", none⟩, durationSeconds 100⟩] ∧
    ∀ n m, (p.tasks n).running = true → (p.tasks m).running = true → n = m := by
  obtain ⟨p, hrun, hp⟩ : ∃ p, exec refreshStep {} refreshesOnce = some p ∧
      p.events = [.start 0 (durationSeconds 10),
        .write 0 ⟨⟨"key", "secret", none⟩, durationSeconds 100⟩] :=
    exec_exists (by decide +kernel)
  exact ⟨p, hrun, hp, (fetches_singleFlight hrun (by simp [refreshesOnce])).2.1⟩

/-- A call that is dropped leaves its task behind, and the next call starts another. -/
example : ∃ p, exec refreshStep {} [.call 0 0, .acquire 0, .recheck 0 0, .drop 0, .call 1 0,
    .acquire 1, .recheck 1 0] = some p ∧ (p.tasks 0).running = true ∧ (p.tasks 1).running = true :=
  exec_exists (by decide +kernel)

end CredentialsProvider

end MultiStorageClient
