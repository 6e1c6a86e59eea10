import OmniRoute.Lib.OrdMap
import OmniRoute.Lib.Trace

/-!
# The lockout of failed logins

`domain/lockoutPolicy.ts` with the lockout table of `lib/db/domainState.ts`: for each identifier the
times of its failed attempts and the end of its lock are one record, which is kept in a cache and in
the database. The cache is filled from the database when it misses, and by the listing of the locked
identifiers. Writes to the database succeed; times are in milliseconds.

What a lock should depend on is a `Tally` of the failures, which the code does not keep: those that
count, and those that locked. A `State` has one for each identifier next to the two stores.
-/

namespace OmniRoute.LoginLockout

/-! ## Records -/

structure LockoutConfig where
  maxAttempts : ℕ := 5
  lockoutDurationMs : ℕ := 15 * 60 * 1000
  attemptWindowMs : ℕ := 5 * 60 * 1000

structure LockoutState where
  attempts : List ℕ
  lockedUntil : Option ℕ
  deriving DecidableEq

/-- The end of the lock, if it is not null and not zero. -/
def LockoutState.lockEnd (state : LockoutState) : Option ℕ := state.lockedUntil.filter (· ≠ 0)

/-- `lockoutCache` and the rows of the table. -/
structure Store where
  cache : OrdMap String LockoutState
  db : OrdMap String LockoutState

structure CheckResult where
  locked : Bool
  remainingMs : Option ℕ
  attempts : ℕ
  deriving DecidableEq

structure FailureResult where
  locked : Bool
  remainingMs : Option ℕ
  deriving DecidableEq

structure LockedIdentifier where
  identifier : String
  lockedUntil : ℕ
  remainingMs : ℕ
  deriving DecidableEq

/-! ## Operations -/

namespace Store

def empty : Store := ⟨.empty, .empty⟩

/-- The record that `getState` finds. -/
def find (st : Store) (identifier : String) : Option LockoutState :=
  (st.cache.get identifier).or (st.db.get identifier)

/-- A record that is found in the database is cached. -/
def getState (st : Store) (identifier : String) : Store × Option LockoutState :=
  match st.cache.get identifier with
  | some state => (st, some state)
  | none =>
    match st.db.get identifier with
    | some fromDb => ({ st with cache := st.cache.set identifier fromDb }, some fromDb)
    | none => (st, none)

def persistState (st : Store) (identifier : String) (state : LockoutState) : Store where
  cache := st.cache.set identifier state
  db := st.db.set identifier state

/-- Attempts that are still in the window. -/
def recent (config : LockoutConfig) (now : ℕ) (attempts : List ℕ) : List ℕ :=
  attempts.filter fun t => now < t + config.attemptWindowMs

def checkLockout (st : Store) (config : LockoutConfig) (identifier : String) (now : ℕ) :
    Store × CheckResult :=
  match st.getState identifier with
  | (st, none) => (st, ⟨false, none, 0⟩)
  | (st, some state) =>
    match state.lockEnd with
    | some lockedUntil =>
      if now < lockedUntil then (st, ⟨true, some (lockedUntil - now), state.attempts.length⟩)
      else (st.persistState identifier ⟨[], none⟩, ⟨false, none, 0⟩)
    | none =>
      let recentAttempts := recent config now state.attempts
      (st.persistState identifier { state with attempts := recentAttempts },
        ⟨false, none, recentAttempts.length⟩)

def recordFailedAttempt (st : Store) (config : LockoutConfig) (identifier : String) (now : ℕ) :
    Store × FailureResult :=
  let (st, found) := st.getState identifier
  let state := found.getD ⟨[], none⟩
  let attempts := recent config now state.attempts ++ [now]
  if config.maxAttempts ≤ attempts.length then
    (st.persistState identifier ⟨attempts, some (now + config.lockoutDurationMs)⟩,
      ⟨true, some config.lockoutDurationMs⟩)
  else (st.persistState identifier { state with attempts }, ⟨false, none⟩)

/-- `recordSuccess`, and `forceUnlock`, which does the same. -/
def recordSuccess (st : Store) (identifier : String) : Store where
  cache := st.cache.delete identifier
  db := st.db.delete identifier

/-- The identifiers that are locked, as `loadAllLockedIdentifiers` finds them. -/
def loadAllLockedIdentifiers (st : Store) (now : ℕ) : List (String × ℕ) :=
  st.db.entries.filterMap fun row =>
    match row.2.lockedUntil with
    | some lockedUntil => if now < lockedUntil ∧ row.1 ≠ "" then some (row.1, lockedUntil) else none
    | none => none

/-- A locked identifier that is not cached, is cached without its attempts. -/
def cacheLocked (st : Store) (now : ℕ) : Store where
  cache := (st.loadAllLockedIdentifiers now).foldl (fun cache entry =>
    if cache.get entry.1 = none then cache.set entry.1 ⟨[], some entry.2⟩ else cache) st.cache
  db := st.db

def getLockedIdentifiers (st : Store) (now : ℕ) : Store × List LockedIdentifier :=
  let st := st.cacheLocked now
  (st, st.cache.entries.filterMap fun entry =>
    match entry.2.lockEnd with
    | some lockedUntil =>
      if now < lockedUntil then some ⟨entry.1, lockedUntil, lockedUntil - now⟩ else none
    | none => none)

/-- The process starts again. -/
def restart (st : Store) : Store := { st with cache := .empty }

end Store

/-! ## What a lock should depend on -/

/-- The failures after the last success or unlock and after the last end of a lock, and those among
them that locked. -/
structure Tally where
  failures : List ℕ
  locks : List ℕ
  deriving DecidableEq

namespace Tally

def empty : Tally := ⟨[], []⟩

/-- At a time within the lock that a failure started. -/
def Locked (config : LockoutConfig) (tally : Tally) (now : ℕ) : Prop :=
  ∃ t ∈ tally.locks, t ≤ now ∧ now < t + config.lockoutDurationMs

instance (config : LockoutConfig) (tally : Tally) (now : ℕ) :
    Decidable (tally.Locked config now) := by
  unfold Locked
  infer_instance

/-- Nothing counts that was before the end of a lock. -/
def expire (config : LockoutConfig) (tally : Tally) (now : ℕ) : Tally :=
  if tally.locks ≠ [] ∧ ¬tally.Locked config now then empty else tally

/-- A failure locks if it is, with itself, at least the `maxAttempts`-th in its window. -/
def fail (config : LockoutConfig) (tally : Tally) (now : ℕ) : Tally :=
  let tally := tally.expire config now
  let before := tally.failures.filter fun t => now < t + config.attemptWindowMs ∧ t ≤ now
  { failures := tally.failures ++ [now]
    locks := if config.maxAttempts ≤ before.length + 1 then tally.locks ++ [now]
      else tally.locks }

end Tally

/-! ## Runs -/

structure State where
  store : Store
  clock : ℕ
  tallies : String → Tally

def State.start (clock : ℕ) : State := ⟨.empty, clock, fun _ => .empty⟩

inductive Event
  | checkLockout (identifier : String) (now : ℕ)
  | recordFailedAttempt (identifier : String) (now : ℕ)
  | recordSuccess (identifier : String)
  | forceUnlock (identifier : String)
  | getLockedIdentifiers (now : ℕ)
  | restart
  deriving DecidableEq

def State.clear (s : State) (identifier : String) : State where
  store := s.store.recordSuccess identifier
  clock := s.clock
  tallies := Function.update s.tallies identifier .empty

/-- One call; the clock does not go back. -/
def step (config : LockoutConfig) (s : State) : Event → Option State
  | .checkLockout identifier now =>
    if now < s.clock then none
    else some { s with store := (s.store.checkLockout config identifier now).1, clock := now }
  | .recordFailedAttempt identifier now =>
    if now < s.clock then none
    else some {
      store := (s.store.recordFailedAttempt config identifier now).1
      clock := now
      tallies := Function.update s.tallies identifier ((s.tallies identifier).fail config now) }
  | .recordSuccess identifier => some (s.clear identifier)
  | .forceUnlock identifier => some (s.clear identifier)
  | .getLockedIdentifiers now =>
    if now < s.clock then none
    else some { s with store := (s.store.getLockedIdentifiers now).1, clock := now }
  | .restart => some { s with store := s.store.restart }

end OmniRoute.LoginLockout
