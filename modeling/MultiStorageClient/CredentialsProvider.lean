/-
MultiStorageClient/CredentialsProvider.lean

The credential providers of the Rust client (`rust/src/credentials.rs`).

`get_credential` looks into its cache, takes the refresh lock, looks again, and has a
blocking task ask the Python provider; the task goes on also if the call that waits
for it is dropped.  The two implementations differ in what they take from a Python
credentials object (`AwsCredential.extract`, `GcpCredential.extract`), so everything
else is for any kind of credential.

A time is in nanoseconds.  What the Python provider answers, and what the clock shows
at each look, comes with the step.
-/
import MultiStorageClient.SingleFlight

namespace MultiStorageClient

open Run

/-- `Duration::seconds` -/
def durationSeconds (n : ℤ) : ℤ := n * 10 ^ 9

/-- The attributes of a Python credentials object that are read. -/
structure PyCredentials where
  accessKey : String
  secretKey : String
  token : Option String
  expiration : Option String
  deriving DecidableEq

/-- The credential of S3. -/
structure AwsCredential where
  keyId : String
  secretKey : String
  token : Option String
  deriving DecidableEq

/-- The credential of GCS. -/
structure GcpCredential where
  bearer : String
  deriving DecidableEq

/-- The credential of `AwsCredentialsProvider::get_credentials`. -/
def AwsCredential.extract (c : PyCredentials) : Except String AwsCredential :=
  .ok ⟨c.accessKey, c.secretKey, c.token⟩

/-- The credential of `GcpCredentialsProvider::get_credentials`. -/
def GcpCredential.extract (c : PyCredentials) : Except String GcpCredential :=
  match c.token with
  | some token => .ok ⟨token⟩
  | none => .error "GCP Rust credentials provider requires a non-None `token` string."

/-- `CredentialCache` -/
structure CredentialCache (C : Type) where
  credential : C
  expireTime : ℤ
  deriving DecidableEq

/-- `should_refresh` -/
def shouldRefresh {C : Type} (refreshThreshold : ℤ) (c : CredentialCache C) (now : ℤ) : Bool :=
  decide (now > c.expireTime - durationSeconds refreshThreshold)

/-- `parse_expiration`; `parse` is the one of RFC 3339 times. -/
def parseExpiration (parse : String → Option ℤ) (expiration : Option String) (now : ℤ) : ℤ :=
  match expiration with
  | some s => (parse s).getD (now + durationSeconds 3600)
  | none => now + durationSeconds (365 * 86400)

/-- Why a call of `get_credential` fails: the text of what Python raised, or a task
that did not end. -/
inductive CredentialError
  | python (message : String)
  | join
  deriving DecidableEq

/-! ### Calls and tasks -/

/-- Where a call of `get_credential` is. -/
inductive GetCredentialAt (C : Type)
  | notCalled
  /-- waits for the refresh lock -/
  | acquiring
  /-- has the lock, looks into the cache again -/
  | locked
  /-- has the lock, waits for its task -/
  | joining
  /-- has returned what was in the cache at `now` -/
  | cached (c : CredentialCache C) (now : ℤ)
  /-- has returned what its task did -/
  | refreshed (r : Except CredentialError C)
  | dropped
  deriving DecidableEq

/-- Where the blocking task of a call is. -/
inductive RefreshTaskAt (C : Type)
  | notSpawned
  | getCredentials
  | check (c : CredentialCache C)
  | refreshCredentials
  | getAgain
  | write (c : CredentialCache C)
  | ended (r : Except CredentialError C)
  deriving DecidableEq

/-- Is the task asking the provider, or about to write what it got? -/
def RefreshTaskAt.running {C : Type} : RefreshTaskAt C → Bool
  | .notSpawned => false
  | .ended _ => false
  | _ => true

/-- A provider with its calls; `events` has the starts and ends of the tasks. -/
structure CredentialsProvider (C : Type) where
  cachedCredentials : Option (CredentialCache C) := none
  refreshLock : Option ℕ := none
  calls : ℕ → GetCredentialAt C := fun _ => .notCalled
  tasks : ℕ → RefreshTaskAt C := fun _ => .notSpawned
  /-- what the Python provider has answered -/
  answers : List (CredentialCache C) := []
  events : List (SingleFlight.Step ℕ (CredentialCache C) ℤ) := []

/-- What Python answers a task. -/
inductive PyAnswer
  | credentials (c : PyCredentials)
  | refreshed
  | raises (message : String)
  /-- the task is cancelled, or panics -/
  | panics

/-- The steps of the calls and of their tasks. -/
inductive CredentialStep
  | call (n : ℕ) (now : ℤ)
  | acquire (n : ℕ)
  | recheck (n : ℕ) (now : ℤ)
  | task (n : ℕ) (answer : PyAnswer) (now : ℤ)
  | join (n : ℕ)
  | drop (n : ℕ)

namespace CredentialsProvider

variable {C : Type} (parse : String → Option ℤ) (extract : PyCredentials → Except String C)
  (refreshThreshold : ℤ)

/-- What is in the cache, if it is not due. -/
def fresh (p : CredentialsProvider C) (now : ℤ) : Option (CredentialCache C) :=
  p.cachedCredentials.filter fun c => !shouldRefresh refreshThreshold c now

/-- A call moves on. -/
def setCall (p : CredentialsProvider C) (n : ℕ) (l : GetCredentialAt C) : CredentialsProvider C :=
  { p with calls := Function.update p.calls n l }

/-- A task moves on. -/
def setTask (p : CredentialsProvider C) (n : ℕ) (l : RefreshTaskAt C) : CredentialsProvider C :=
  { p with tasks := Function.update p.tasks n l }

/-- A task that fails. -/
def failTask (p : CredentialsProvider C) (n : ℕ) (e : CredentialError) : CredentialsProvider C :=
  { p.setTask n (.ended (.error e)) with events := p.events ++ [.fail n] }

/-- `get_credentials`, then `next`. -/
def gotCredentials (p : CredentialsProvider C) (n : ℕ) (c : PyCredentials) (now : ℤ)
    (next : CredentialCache C → RefreshTaskAt C) : CredentialsProvider C :=
  match extract c with
  | .error message => p.failTask n (.python message)
  | .ok credential =>
      let got := ⟨credential, parseExpiration parse c.expiration now⟩
      { p.setTask n (next got) with answers := p.answers ++ [got] }

/-- The closure of `spawn_blocking`. -/
def taskStep (p : CredentialsProvider C) (n : ℕ) (answer : PyAnswer) (now : ℤ) :
    Option (CredentialsProvider C) :=
  match p.tasks n, answer with
  | .notSpawned, _ => none
  | .ended _, _ => none
  -- a panic ends the task wherever it is
  | _, .panics => some (p.failTask n .join)
  | .getCredentials, .credentials c => some (p.gotCredentials parse extract n c now .check)
  | .getCredentials, .raises message => some (p.failTask n (.python message))
  | .check c, _ =>
      some (p.setTask n
        (if shouldRefresh refreshThreshold c now then .refreshCredentials else .write c))
  -- the credentials are read again after a refresh
  | .refreshCredentials, .refreshed => some (p.setTask n .getAgain)
  | .refreshCredentials, .raises message =>
      some (p.failTask n (.python ("Failed to refresh credentials: " ++ message)))
  | .getAgain, .credentials c => some (p.gotCredentials parse extract n c now .write)
  | .getAgain, .raises message => some (p.failTask n (.python message))
  -- the cache is written before the task ends
  | .write c, _ =>
      some { p.setTask n (.ended (.ok c.credential)) with
        cachedCredentials := some c
        events := p.events ++ [.write n c] }
  | _, _ => none

/-- A step of a call, of its task, or of who drops a call. -/
def step (p : CredentialsProvider C) : CredentialStep → Option (CredentialsProvider C)
  | .call n now =>
      match p.calls n with
      | .notCalled =>
          match p.fresh refreshThreshold now with
          -- the fast path: fresh credentials need no lock
          | some c => some (p.setCall n (.cached c now))
          | none => some (p.setCall n .acquiring)
      | _ => none
  | .acquire n =>
      match p.calls n, p.refreshLock with
      | .acquiring, none => some { p.setCall n .locked with refreshLock := some n }
      | _, _ => none
  | .recheck n now =>
      match p.calls n with
      | .locked =>
          match p.fresh refreshThreshold now with
          -- another caller refreshed while this one waited for the lock
          | some c => some { p.setCall n (.cached c now) with refreshLock := none }
          | none =>
              some { (p.setCall n .joining).setTask n .getCredentials with
                events := p.events ++ [.start n now] }
      | _ => none
  | .task n answer now => p.taskStep parse extract refreshThreshold n answer now
  | .join n =>
      match p.calls n, p.tasks n with
      | .joining, .ended r => some { p.setCall n (.refreshed r) with refreshLock := none }
      | _, _ => none
  -- a dropped future lets go of the lock; the task it spawned runs on
  | .drop n =>
      match p.calls n with
      | .acquiring => some (p.setCall n .dropped)
      | .locked => some { p.setCall n .dropped with refreshLock := none }
      | .joining => some { p.setCall n .dropped with refreshLock := none }
      | _ => none

end CredentialsProvider

end MultiStorageClient
