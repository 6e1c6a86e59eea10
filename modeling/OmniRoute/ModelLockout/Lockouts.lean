import OmniRoute.Lib.OrdMap
import OmniRoute.ModelLockout.Keys

/-!
# Model lockouts

`open-sse/services/accountFallback.ts`, `accountFallback/exactModelLock.ts` and
`accountFallback/lockoutEviction.ts`: locks of a model on a connection with the time until which
they hold, and the failure counts that make the cooldowns grow. Times are in milliseconds; every
operation reads the clock once.

**Main results (`lockedAt_recordFailure`, `lockedAt_step`).** What a recorded failure locks, and
that no other operation shortens a lock before it has run out, unless it clears its key.
-/

namespace OmniRoute.ModelLockout

open List

/-! ## State -/

structure ModelLockoutEntry where
  reason : String
  untilMs : ℚ
  lockedAt : ℚ
  failureCount : ℕ
  lastFailureAt : ℚ
  resetAfterMs : ℚ

structure ModelFailureState where
  failureCount : ℕ
  lastFailureAt : ℚ
  resetAfterMs : ℚ
  lastCooldownMs : ℚ

structure State where
  modelLockouts : OrdMap String ModelLockoutEntry := OrdMap.empty
  modelFailureState : OrdMap String ModelFailureState := OrdMap.empty

structure ProviderProfile where
  baseCooldownMs : ℚ
  maxBackoffSteps : ℤ
  resetTimeoutMs : ℚ

/-- The fields of `metadata` that a lock reads. -/
structure LockMetadata where
  failureCount : Option ℕ := none
  lastFailureAt : Option ℚ := none
  resetAfterMs : Option ℚ := none

inductive LockScope
  | exact
  | quotaFamily
  deriving DecidableEq

/-- The arguments of `recordModelLockoutFailure`; a cooldown that is not finite is none. -/
structure Failure where
  provider : String
  connectionId : String
  model : String
  reason : String
  status : ℕ
  fallbackCooldownMs : Option ℚ
  profile : Option ProviderProfile := none
  exactCooldownMs : Option ℚ := none
  maxCooldownMs : Option ℚ := none
  scope : Option LockScope := none
  exactCooldownIsUpstreamReset : Bool := false

structure FailureResult where
  cooldownMs : ℚ
  failureCount : ℕ
  resetAfterMs : ℚ

/-! ## Cleaning up -/

/-- A lock that has run out is deleted. -/
def cleanupLock (now : ℚ) (key : String) (locks : OrdMap String ModelLockoutEntry) :
    OrdMap String ModelLockoutEntry :=
  match locks.get key with
  | some entry => if now > entry.untilMs then locks.delete key else locks
  | none => locks

/-- A failure count is deleted after its window, unless there is a lock. -/
def cleanupFailure (now : ℚ) (key : String) (locks : OrdMap String ModelLockoutEntry)
    (failures : OrdMap String ModelFailureState) : OrdMap String ModelFailureState :=
  match failures.get key with
  | none => failures
  | some failure =>
    if now - failure.lastFailureAt ≤ failure.resetAfterMs + failure.lastCooldownMs then failures
    else if (locks.get key).isSome then failures
    else failures.delete key

def cleanupModelLockKey (now : ℚ) (key : String) (s : State) : State :=
  { modelLockouts := cleanupLock now key s.modelLockouts
    modelFailureState :=
      cleanupFailure now key (cleanupLock now key s.modelLockouts) s.modelFailureState }

def cleanupKeys (now : ℚ) (keys : List String) (s : State) : State :=
  keys.foldl (fun s key => cleanupModelLockKey now key s) s

def modelLockoutEvictionCap : ℕ := 1000

/-- Above the cap the oldest locks that have run out go, with their failure counts. -/
def evictLocks (now : ℚ) (s : State) : State :=
  if s.modelLockouts.size > modelLockoutEvictionCap then
    let overflow := s.modelLockouts.size - modelLockoutEvictionCap
    let evictableKeys :=
      ((s.modelLockouts.entries.filter fun p => p.2.untilMs ≤ now).take overflow).map Prod.fst
    evictableKeys.foldl (fun s key =>
      { modelLockouts := s.modelLockouts.delete key
        modelFailureState := s.modelFailureState.delete key }) s
  else s

/-- Above the cap the oldest failure counts go, unless there is a lock. -/
def evictFailures (s : State) : State :=
  if s.modelFailureState.size > modelLockoutEvictionCap then
    let overflow := s.modelFailureState.size - modelLockoutEvictionCap
    (s.modelFailureState.keys.take overflow).foldl (fun s key =>
      if (s.modelLockouts.get key).isSome then s
      else { s with modelFailureState := s.modelFailureState.delete key }) s
  else s

def evictLockoutOverflow (now : ℚ) (s : State) : State := evictFailures (evictLocks now s)

/-- The timer. -/
def periodicCleanup (now : ℚ) (s : State) : State :=
  let s := cleanupKeys now s.modelLockouts.keys s
  evictLockoutOverflow now (cleanupKeys now s.modelFailureState.keys s)

/-! ## Locking -/

/-- The entry of a lock, or none where a longer one stays as it is. -/
def computeExactModelLockEntry (now : ℚ) (existing : Option ModelLockoutEntry) (reason : String)
    (cooldownMs : ℚ) (metadata : LockMetadata) : Option ModelLockoutEntry :=
  let newUntil := now + cooldownMs
  match existing with
  | some existing =>
    if existing.untilMs > newUntil then
      match metadata.failureCount with
      | some failureCount =>
        if failureCount > existing.failureCount then
          some { existing with
            failureCount
            lastFailureAt := metadata.lastFailureAt.getD existing.lastFailureAt
            resetAfterMs := metadata.resetAfterMs.getD existing.resetAfterMs }
        else none
      | none => none
    else
      some { reason, untilMs := newUntil, lockedAt := now
             failureCount := metadata.failureCount.getD existing.failureCount
             lastFailureAt := metadata.lastFailureAt.getD now
             resetAfterMs := metadata.resetAfterMs.getD existing.resetAfterMs }
  | none =>
    some { reason, untilMs := newUntil, lockedAt := now
           failureCount := metadata.failureCount.getD 1
           lastFailureAt := metadata.lastFailureAt.getD now
           resetAfterMs := metadata.resetAfterMs.getD 0 }

/-- Both kinds of locks differ in their key only. -/
def lockWithKey (key : String) (now : ℚ) (reason : String) (cooldownMs : ℚ)
    (metadata : LockMetadata) (s : State) : State :=
  let s := cleanupModelLockKey now key s
  match computeExactModelLockEntry now (s.modelLockouts.get key) reason cooldownMs metadata with
  | some entry => { s with modelLockouts := s.modelLockouts.set key entry }
  | none => s

/-- Without a model nothing is locked. -/
def lockModel (env : LockEnv) (now : ℚ) (provider connectionId model reason : String)
    (cooldownMs : ℚ) (metadata : LockMetadata) (s : State) : State :=
  if model = "" then s
  else
    lockWithKey (getModelLockKey env provider connectionId model (some reason) none) now reason
      cooldownMs metadata s

def lockExactModel (env : LockEnv) (now : ℚ) (provider connectionId model reason : String)
    (cooldownMs : ℚ) (metadata : LockMetadata) (s : State) : State :=
  if model = "" then s
  else
    lockWithKey (buildExactModelLockKey env (env.resolveProviderId provider) connectionId model) now
      reason cooldownMs metadata s

/-! ## Failures -/

def backoffMax : ℚ := 2 * 60 * 1000
def backoffMaxLevel : ℤ := 15

/-- `getQuotaCooldown(0)` -/
def quotaCooldown : ℚ := 1000

/-- `COOLDOWN_MS.transientInitial` -/
def transientInitial : ℚ := 5 * 1000

def getFailureWindowMs (profile : Option ProviderProfile) : ℚ :=
  match profile with
  | some profile => if profile.resetTimeoutMs > 0 then profile.resetTimeoutMs else 30 * 60 * 1000
  | none => 30 * 60 * 1000

/-- The cooldown without one from the error. -/
def profileCooldown (status : ℕ) (profile : Option ProviderProfile) : ℚ :=
  match profile with
  | some profile =>
    if profile.baseCooldownMs ≥ 0 then profile.baseCooldownMs
    else if status = 429 then quotaCooldown else transientInitial
  | none => if status = 429 then quotaCooldown else transientInitial

def getModelLockBaseCooldown (status : ℕ) (fallbackCooldownMs : Option ℚ)
    (profile : Option ProviderProfile) : ℚ :=
  match fallbackCooldownMs with
  | some cooldown => if cooldown > 0 then cooldown else profileCooldown status profile
  | none => profileCooldown status profile

def getScaledCooldown (baseCooldownMs : ℚ) (failureCount : ℕ) (maxBackoffLevel : ℤ) : ℚ :=
  let safeBase := if baseCooldownMs > 0 then baseCooldownMs else 1000
  let exponent := min (failureCount - 1) maxBackoffLevel.toNat
  safeBase * 2 ^ exponent

def positive (value : Option ℚ) : Option ℚ := value.filter (· > 0)

/-- The exact cooldown, for a quota that is exhausted until midnight. -/
def exactCooldown (env : LockEnv) (now : ℚ) (f : Failure) : Option ℚ :=
  if f.reason = "quota_exhausted" ∧ f.exactCooldownMs = none then some (env.msUntilTomorrow now)
  else f.exactCooldownMs

def lockoutCooldown (env : LockEnv) (now : ℚ) (f : Failure) (failureCount : ℕ) : ℚ :=
  match positive (exactCooldown env now f) with
  | some exact =>
    match positive f.maxCooldownMs with
    | some maxCooldown => if f.exactCooldownIsUpstreamReset then exact else min exact maxCooldown
    | none => exact
  | none =>
    min (getScaledCooldown (getModelLockBaseCooldown f.status f.fallbackCooldownMs f.profile)
        failureCount ((f.profile.map fun p => p.maxBackoffSteps).getD backoffMaxLevel))
      ((positive f.maxCooldownMs).getD backoffMax)

/-- The failures in a row that a failure ends. -/
def nextFailureCount (now : ℚ) (previous : Option ModelFailureState) : ℕ :=
  match previous with
  | some previous =>
    if now - previous.lastFailureAt ≤ previous.resetAfterMs + previous.lastCooldownMs then
      previous.failureCount + 1
    else 1
  | none => 1

/-- The key of the failure count. -/
def Failure.failureKey (env : LockEnv) (f : Failure) : String :=
  if f.scope = some .exact then
    buildExactModelLockKey env (env.resolveProviderId f.provider) f.connectionId f.model
  else getModelLockKey env f.provider f.connectionId f.model (some f.reason) (some f.status)

def recordModelLockoutFailure (env : LockEnv) (now : ℚ) (f : Failure) (s : State) :
    FailureResult × State :=
  let key := f.failureKey env
  let s := cleanupModelLockKey now key s
  let resetAfterMs := getFailureWindowMs f.profile
  let failureCount := nextFailureCount now (s.modelFailureState.get key)
  let cooldownMs := lockoutCooldown env now f failureCount
  let s := { s with
    modelFailureState := s.modelFailureState.set key
      { failureCount, lastFailureAt := now, resetAfterMs, lastCooldownMs := cooldownMs } }
  let metadata : LockMetadata :=
    { failureCount := some failureCount
      lastFailureAt := some now
      resetAfterMs := some resetAfterMs }
  let lockFn := if f.scope = some .exact then lockExactModel env now else lockModel env now
  ({ cooldownMs, failureCount, resetAfterMs },
    lockFn f.provider f.connectionId f.model f.reason cooldownMs metadata s)

/-! ## Decay, clearing and reading -/

def decayModelFailureCount (env : LockEnv) (provider connectionId model : String) (s : State) :
    State :=
  let key := getModelLockKey env provider connectionId model none none
  match s.modelFailureState.get key with
  | none => s
  | some failure =>
    let newFailureCount := failure.failureCount / 2
    if newFailureCount = 0 then { s with modelFailureState := s.modelFailureState.delete key }
    else
      { s with
        modelFailureState := s.modelFailureState.set key
          { failure with failureCount := newFailureCount } }

def clearMultiKeyLock (keys : List String) (s : State) : State :=
  keys.foldl (fun s key =>
    { modelLockouts := s.modelLockouts.delete key
      modelFailureState := s.modelFailureState.delete key }) s

def clearModelLock (env : LockEnv) (provider connectionId model : String) (s : State) : State :=
  if model = "" then s
  else clearMultiKeyLock (getModelLockKeys env provider connectionId model) s

/-- Whether one of the keys is locked; the keys up to it are cleaned up. -/
def isAnyKeyLocked (now : ℚ) : List String → State → Bool × State
  | [], s => (false, s)
  | key :: keys, s =>
    let s := cleanupModelLockKey now key s
    if (s.modelLockouts.get key).isSome then (true, s) else isAnyKeyLocked now keys s

def isModelLocked (env : LockEnv) (now : ℚ) (provider connectionId model : String) (s : State) :
    Bool × State :=
  if model = "" then (false, s)
  else isAnyKeyLocked now (getModelLockKeys env provider connectionId model) s

/-! ## Runs -/

inductive Op
  | recordModelLockoutFailure (f : Failure)
  | lockModel (provider connectionId model reason : String) (cooldownMs : ℚ)
      (metadata : LockMetadata)
  | lockExactModel (provider connectionId model reason : String) (cooldownMs : ℚ)
      (metadata : LockMetadata)
  | decayModelFailureCount (provider connectionId model : String)
  | clearModelLock (provider connectionId model : String)
  | isModelLocked (provider connectionId model : String)
  | periodicCleanup
  | evictLockoutOverflow

def step (env : LockEnv) (now : ℚ) (s : State) : Op → State
  | .recordModelLockoutFailure f => (recordModelLockoutFailure env now f s).2
  | .lockModel provider connectionId model reason cooldownMs metadata =>
    lockModel env now provider connectionId model reason cooldownMs metadata s
  | .lockExactModel provider connectionId model reason cooldownMs metadata =>
    lockExactModel env now provider connectionId model reason cooldownMs metadata s
  | .decayModelFailureCount provider connectionId model =>
    decayModelFailureCount env provider connectionId model s
  | .clearModelLock provider connectionId model => clearModelLock env provider connectionId model s
  | .isModelLocked provider connectionId model =>
    (isModelLocked env now provider connectionId model s).2
  | .periodicCleanup => periodicCleanup now s
  | .evictLockoutOverflow => evictLockoutOverflow now s

/-- An operation with its time. -/
abbrev Event := ℚ × Op

def run (env : LockEnv) (s : State) (events : List Event) : State :=
  events.foldl (fun s e => step env e.1 s e.2) s

/-! ## What is locked -/

/-- The key is locked at a time, as far as the state knows. -/
def LockedAt (s : State) (key : String) (u : ℚ) : Prop :=
  ∃ entry, s.modelLockouts.get key = some entry ∧ u ≤ entry.untilMs

section Locked

variable {env : LockEnv} {now u : ℚ} {s : State} {k key : String}

theorem lockedAt_congr {s' : State} (h : s'.modelLockouts = s.modelLockouts) :
    LockedAt s' k u ↔ LockedAt s k u := by rw [LockedAt, h, LockedAt]

/-- Cleaning up deletes only what has run out. -/
theorem lockedAt_cleanup (hnow : now ≤ u) :
    LockedAt (cleanupModelLockKey now key s) k u ↔ LockedAt s k u := by
  rw [LockedAt, LockedAt, cleanupModelLockKey]
  simp only [cleanupLock]
  cases hget : s.modelLockouts.get key with
  | none => rfl
  | some entry =>
    by_cases hover : now > entry.untilMs
    · simp only [if_pos hover, OrdMap.get_delete]
      by_cases hk : k = key
      · rw [if_pos hk, hk, hget]
        refine iff_of_false ?_ ?_
        · rintro ⟨e, he, -⟩
          cases he
        · rintro ⟨e, he, hu⟩
          rw [← Option.some.inj he] at hu
          exact absurd (hnow.trans hu) (not_le.2 hover)
      · rw [if_neg hk]
    · simp only [if_neg hover]

variable {keys : List String}

theorem lockedAt_cleanupKeys (hnow : now ≤ u) :
    LockedAt (cleanupKeys now keys s) k u ↔ LockedAt s k u := by
  induction keys generalizing s with
  | nil => rfl
  | cons key keys ih => exact (ih (s := cleanupModelLockKey now key s)).trans (lockedAt_cleanup hnow)

/-- A new entry never holds shorter than the one there was. -/
theorem computeExactModelLockEntry_until (now u : ℚ) (existing : Option ModelLockoutEntry)
    (reason : String) (cooldownMs : ℚ) (metadata : LockMetadata) :
    match computeExactModelLockEntry now existing reason cooldownMs metadata with
    | some entry => u ≤ entry.untilMs ↔
        (∃ e, existing = some e ∧ u ≤ e.untilMs) ∨ u ≤ now + cooldownMs
    | none => ∃ e, existing = some e ∧ now + cooldownMs < e.untilMs := by
  unfold computeExactModelLockEntry
  cases existing with
  | none =>
    simp only
    exact (or_iff_right (by rintro ⟨e, he, -⟩; cases he)).symm
  | some existing =>
    simp only
    by_cases hlonger : existing.untilMs > now + cooldownMs
    · have hkeep : u ≤ existing.untilMs ↔ (∃ e, some existing = some e ∧ u ≤ e.untilMs) ∨
          u ≤ now + cooldownMs := by
        constructor
        · exact fun hu => .inl ⟨existing, rfl, hu⟩
        · rintro (⟨e, he, hu⟩ | hu)
          · rwa [Option.some.inj he]
          · exact hu.trans hlonger.le
      simp only [if_pos hlonger]
      cases metadata.failureCount with
      | none => exact ⟨existing, rfl, hlonger⟩
      | some count =>
        by_cases hmore : count > existing.failureCount
        · simp only [if_pos hmore]
          exact hkeep
        · simp only [if_neg hmore]
          exact ⟨existing, rfl, hlonger⟩
    · simp only [if_neg hlonger]
      constructor
      · exact .inr
      · rintro (⟨e, he, hu⟩ | hu)
        · rw [← Option.some.inj he] at hu
          exact hu.trans (not_lt.1 hlonger)
        · exact hu

theorem lockedAt_lockWithKey {reason : String} {cooldownMs : ℚ} {metadata : LockMetadata}
    (hnow : now ≤ u) : LockedAt (lockWithKey key now reason cooldownMs metadata s) k u ↔
      LockedAt s k u ∨ k = key ∧ u ≤ now + cooldownMs := by
  have hclean : LockedAt (cleanupModelLockKey now key s) k u ↔ LockedAt s k u :=
    lockedAt_cleanup hnow
  have hentry := computeExactModelLockEntry_until now u
    ((cleanupModelLockKey now key s).modelLockouts.get key) reason cooldownMs metadata
  rw [← hclean]
  unfold lockWithKey
  simp only
  generalize cleanupModelLockKey now key s = s₁ at *
  cases hnext : computeExactModelLockEntry now (s₁.modelLockouts.get key) reason cooldownMs
      metadata with
  | none =>
    simp only [hnext] at hentry
    obtain ⟨e, he, hlt⟩ := hentry
    refine (or_iff_left_of_imp ?_).symm
    rintro ⟨rfl, hu⟩
    exact ⟨e, he, hu.trans hlt.le⟩
  | some entry =>
    simp only [hnext] at hentry
    simp only [LockedAt, OrdMap.get_set]
    by_cases hk : k = key
    · subst hk
      simp only [if_true, true_and]
      rw [← hentry]
      constructor
      · rintro ⟨e, he, hu⟩
        rwa [← Option.some.inj he] at hu
      · exact fun hu => ⟨entry, rfl, hu⟩
    · simp only [hk, if_false, false_and, or_false]

/-- The key under which a failure locks its model. -/
def Failure.lockKey (env : LockEnv) (f : Failure) : String :=
  if f.scope = some .exact then
    buildExactModelLockKey env (env.resolveProviderId f.provider) f.connectionId f.model
  else getModelLockKey env f.provider f.connectionId f.model (some f.reason) none

theorem positive_eq_some {value : Option ℚ} {x : ℚ} (h : positive value = some x) : 0 < x := by
  obtain ⟨-, hpos⟩ := Option.filter_eq_some_iff.1 h
  exact of_decide_eq_true hpos

/-- Every failure gets a cooldown. -/
theorem lockoutCooldown_pos (env : LockEnv) (now : ℚ) (f : Failure) (failureCount : ℕ) :
    0 < lockoutCooldown env now f failureCount := by
  unfold lockoutCooldown
  cases hexact : positive (exactCooldown env now f) with
  | some exact =>
    have hpos := positive_eq_some hexact
    simp only
    cases hmax : positive f.maxCooldownMs with
    | none => exact hpos
    | some maxCooldown =>
      simp only
      split
      · exact hpos
      · exact lt_min hpos (positive_eq_some hmax)
  | none =>
    refine lt_min ?_ ?_
    · unfold getScaledCooldown
      refine mul_pos ?_ (by positivity)
      split
      · assumption
      · norm_num
    · cases hmax : positive f.maxCooldownMs with
      | none => exact (by norm_num [backoffMax] : (0 : ℚ) < backoffMax)
      | some maxCooldown => exact positive_eq_some hmax

theorem recordModelLockoutFailure_pos (env : LockEnv) (now : ℚ) (f : Failure) (s : State) :
    0 < (recordModelLockoutFailure env now f s).1.cooldownMs :=
  lockoutCooldown_pos env now f _

/-- What a failure locks. -/
theorem lockedAt_recordFailure {f : Failure} (hmodel : f.model ≠ "") (hnow : now ≤ u) :
    LockedAt (recordModelLockoutFailure env now f s).2 k u ↔ LockedAt s k u ∨
      k = f.lockKey env ∧ u ≤ now + (recordModelLockoutFailure env now f s).1.cooldownMs := by
  have hclean : LockedAt (cleanupModelLockKey now (f.failureKey env) s) k u ↔ LockedAt s k u :=
    lockedAt_cleanup hnow
  rw [recordModelLockoutFailure, Failure.lockKey]
  by_cases hscope : f.scope = some .exact
  · simp only [if_pos hscope, lockExactModel, if_neg hmodel]
    rw [lockedAt_lockWithKey hnow, ← hclean]
    rfl
  · simp only [if_neg hscope, lockModel, if_neg hmodel]
    rw [lockedAt_lockWithKey hnow, ← hclean]
    rfl

theorem recordFailure_noModel {f : Failure} (hmodel : f.model = "") (hnow : now ≤ u) :
    LockedAt (recordModelLockoutFailure env now f s).2 k u ↔ LockedAt s k u := by
  have hclean : LockedAt (cleanupModelLockKey now (f.failureKey env) s) k u ↔ LockedAt s k u :=
    lockedAt_cleanup hnow
  rw [recordModelLockoutFailure]
  by_cases hscope : f.scope = some .exact
  · simp only [if_pos hscope, lockExactModel, if_pos hmodel]
    exact hclean
  · simp only [if_neg hscope, lockModel, if_pos hmodel]
    exact hclean

/-! ## Reading -/

theorem isSome_cleanup :
    ((cleanupModelLockKey now key s).modelLockouts.get key).isSome = true ↔ LockedAt s key now := by
  rw [LockedAt, cleanupModelLockKey]
  simp only [cleanupLock]
  cases hget : s.modelLockouts.get key with
  | none => simp [hget]
  | some entry =>
    by_cases hover : now > entry.untilMs
    · simp only [if_pos hover, OrdMap.get_delete_self]
      refine iff_of_false (fun h => by cases h) ?_
      rintro ⟨e, he, hu⟩
      rw [← Option.some.inj he] at hu
      exact absurd hu (not_le.2 hover)
    · simp only [if_neg hover, hget]
      exact iff_of_true rfl ⟨entry, rfl, not_lt.1 hover⟩

theorem isAnyKeyLocked_iff :
    (isAnyKeyLocked now keys s).1 = true ↔ ∃ k ∈ keys, LockedAt s k now := by
  induction keys generalizing s with
  | nil => simp [isAnyKeyLocked]
  | cons key keys ih =>
    rw [isAnyKeyLocked, exists_mem_cons_iff, ← isSome_cleanup]
    by_cases hkey : ((cleanupModelLockKey now key s).modelLockouts.get key).isSome = true
    · simp only [if_pos hkey]
      exact iff_of_true trivial (.inl hkey)
    · simp only [if_neg hkey]
      rw [ih, or_iff_right hkey]
      exact exists_congr fun k => and_congr_right fun _ => lockedAt_cleanup (le_refl now)

theorem lockedAt_isAnyKeyLocked (hnow : now ≤ u) :
    LockedAt (isAnyKeyLocked now keys s).2 k u ↔ LockedAt s k u := by
  induction keys generalizing s with
  | nil => rfl
  | cons key keys ih =>
    rw [isAnyKeyLocked]
    by_cases hkey : ((cleanupModelLockKey now key s).modelLockouts.get key).isSome = true
    · simp only [if_pos hkey]
      exact lockedAt_cleanup hnow
    · simp only [if_neg hkey]
      exact ih.trans (lockedAt_cleanup hnow)

/-- A model is locked when one of its keys is. -/
theorem isModelLocked_iff {provider connectionId model : String} (hmodel : model ≠ "") :
    (isModelLocked env now provider connectionId model s).1 = true ↔
      ∃ k ∈ getModelLockKeys env provider connectionId model, LockedAt s k now := by
  rw [isModelLocked, if_neg hmodel]
  exact isAnyKeyLocked_iff

/-! ## Eviction -/

theorem lockedAt_evictLocks (hnow : now < u) (h : LockedAt s k u) :
    LockedAt (evictLocks now s) k u := by
  obtain ⟨entry, hget, hu⟩ := h
  rw [evictLocks]
  by_cases hsize : s.modelLockouts.size > modelLockoutEvictionCap
  swap
  · rw [if_neg hsize]
    exact ⟨entry, hget, hu⟩
  simp only [if_pos hsize]
  clear hsize
  -- A key that is evicted has an entry that has run out.
  have hnot : k ∉ ((s.modelLockouts.entries.filter fun p => p.2.untilMs ≤ now).take
      (s.modelLockouts.size - modelLockoutEvictionCap)).map Prod.fst := by
    intro hmem
    obtain ⟨p, hp, rfl⟩ := mem_map.1 hmem
    obtain ⟨hp, hover⟩ := mem_filter.1 (mem_of_mem_take hp)
    rw [OrdMap.get_eq_some.2 hp] at hget
    rw [Option.some.inj hget] at hover
    exact absurd (of_decide_eq_true hover) (not_le.2 (hnow.trans_le hu))
  generalize ((s.modelLockouts.entries.filter fun p => p.2.untilMs ≤ now).take
      (s.modelLockouts.size - modelLockoutEvictionCap)).map Prod.fst = keys at hnot
  induction keys generalizing s with
  | nil => exact ⟨entry, hget, hu⟩
  | cons key keys ih =>
    obtain ⟨hne, hrest⟩ := not_or.1 (mem_cons.not.1 hnot)
    exact ih ((OrdMap.get_delete_ne _ hne).trans hget) hrest

theorem lockedAt_evictFailures : LockedAt (evictFailures s) k u ↔ LockedAt s k u := by
  rw [evictFailures]
  by_cases hsize : s.modelFailureState.size > modelLockoutEvictionCap
  swap
  · rw [if_neg hsize]
  simp only [if_pos hsize]
  clear hsize
  generalize s.modelFailureState.keys.take
    (s.modelFailureState.size - modelLockoutEvictionCap) = keys
  induction keys generalizing s with
  | nil => rfl
  | cons key keys ih =>
    rw [foldl_cons, ih]
    split
    · rfl
    · rfl

theorem lockedAt_evict (hnow : now < u) (h : LockedAt s k u) :
    LockedAt (evictLockoutOverflow now s) k u :=
  lockedAt_evictFailures.2 (lockedAt_evictLocks hnow h)

/-! ## Steps and runs -/

/-- The operation clears the key. -/
def Op.Clears (env : LockEnv) (key : String) : Op → Prop
  | .clearModelLock provider connectionId model =>
    key ∈ getModelLockKeys env provider connectionId model
  | _ => False

theorem lockedAt_clear (hk : k ∉ keys) (h : LockedAt s k u) :
    LockedAt (clearMultiKeyLock keys s) k u := by
  induction keys generalizing s with
  | nil => exact h
  | cons key keys ih =>
    obtain ⟨hne, hrest⟩ := not_or.1 (mem_cons.not.1 hk)
    obtain ⟨entry, hget, hu⟩ := h
    exact ih hrest ⟨entry, (OrdMap.get_delete_ne _ hne).trans hget, hu⟩

/-- Before a lock has run out, only an operation that clears its key ends it. -/
theorem lockedAt_step {op : Op} (hnow : now < u) (hclear : ¬op.Clears env k)
    (h : LockedAt s k u) : LockedAt (step env now s op) k u := by
  cases op with
  | recordModelLockoutFailure f =>
    by_cases hmodel : f.model = ""
    · exact (recordFailure_noModel hmodel hnow.le).2 h
    · exact (lockedAt_recordFailure hmodel hnow.le).2 (.inl h)
  | lockModel provider connectionId model reason cooldownMs metadata =>
    rw [step, lockModel]
    by_cases hmodel : model = ""
    · rwa [if_pos hmodel]
    · rw [if_neg hmodel]
      exact (lockedAt_lockWithKey hnow.le).2 (.inl h)
  | lockExactModel provider connectionId model reason cooldownMs metadata =>
    rw [step, lockExactModel]
    by_cases hmodel : model = ""
    · rwa [if_pos hmodel]
    · rw [if_neg hmodel]
      exact (lockedAt_lockWithKey hnow.le).2 (.inl h)
  | decayModelFailureCount provider connectionId model =>
    refine (lockedAt_congr ?_).2 h
    rw [step, decayModelFailureCount]
    cases s.modelFailureState.get (getModelLockKey env provider connectionId model none none) with
    | none => rfl
    | some failure =>
      simp only
      split
      · rfl
      · rfl
  | clearModelLock provider connectionId model =>
    rw [step, clearModelLock]
    by_cases hmodel : model = ""
    · rwa [if_pos hmodel]
    · rw [if_neg hmodel]
      exact lockedAt_clear hclear h
  | isModelLocked provider connectionId model =>
    rw [step, isModelLocked]
    by_cases hmodel : model = ""
    · rwa [if_pos hmodel]
    · rw [if_neg hmodel]
      exact (lockedAt_isAnyKeyLocked hnow.le).2 h
  | periodicCleanup =>
    refine lockedAt_evict hnow ?_
    rw [lockedAt_cleanupKeys hnow.le, lockedAt_cleanupKeys hnow.le]
    exact h
  | evictLockoutOverflow => exact lockedAt_evict hnow h

theorem lockedAt_run {events : List Event} (hnow : ∀ e ∈ events, e.1 < u)
    (hclear : ∀ e ∈ events, ¬e.2.Clears env k) (h : LockedAt s k u) :
    LockedAt (run env s events) k u := by
  induction events generalizing s with
  | nil => exact h
  | cons e events ih =>
    exact ih (fun e' he' => hnow e' (.tail _ he')) (fun e' he' => hclear e' (.tail _ he'))
      (lockedAt_step (hnow e mem_cons_self) (hclear e mem_cons_self) h)

end Locked

end OmniRoute.ModelLockout
