import Mathlib

/-!
# The circuit breaker

The class `CircuitBreaker` of `src/shared/utils/circuitBreaker.ts`: one breaker object, its
options and the row that `saveCircuitBreakerState` keeps for it.

A method of the class is a function of the breaker and of `now`, the value `Date.now()` returns
while it runs. `execute` is cut at its `await`: `executeBegin` is what runs before the wrapped
function, `executeResolve` and `executeReject` what runs once its promise is settled.

Numbers are integers: counters, and times and timeouts in milliseconds. `onStateChange` only
observes the breaker and is left out, and so is the `cooldown` of a kind threshold, which the
class never reads.
-/

namespace OmniRoute

/-- `FailureKind` of `classify429.ts`. -/
inductive FailureKind
  | rate_limit
  | quota_exhausted
  | transient
  deriving DecidableEq, Repr

/-- The text of a failure kind, as it stands in transition reasons. -/
def FailureKind.text : FailureKind → String
  | .rate_limit => "rate_limit"
  | .quota_exhausted => "quota_exhausted"
  | .transient => "transient"

/-- `STATE`. -/
inductive CircuitState
  | CLOSED
  | DEGRADED
  | OPEN
  | HALF_OPEN
  deriving DecidableEq, Repr

/-- How a resolved `execute()` result is accounted. -/
inductive CircuitBreakerResultOutcome
  | success
  | failure
  | ignore
  deriving DecidableEq, Repr

structure FailureKindThresholds where
  threshold : Option ℤ := none
  immediateOpen : Bool := false

structure TransitionRecord where
  «from» : CircuitState
  «to» : CircuitState
  timestamp : ℤ
  failureCount : ℤ
  reason : Option String
  deriving DecidableEq

/-- The row `saveCircuitBreakerState` writes under the breaker's name. -/
structure CircuitBreakerStateRecord where
  state : CircuitState
  failureCount : ℤ
  lastFailureTime : Option ℤ
  failureThreshold : ℤ
  resetTimeout : ℤ
  halfOpenRequests : ℤ
  lastFailureKind : Option FailureKind
  openCycleCount : ℤ
  kindFailureCounts : FailureKind → Option ℤ

/-- The constructor's options; `none` is a missing one. A classifier that throws gives `none`,
which `execute` treats like an undefined kind. -/
structure CircuitBreakerOptions (E : Type) where
  failureThreshold : Option ℤ := none
  resetTimeout : Option ℤ := none
  halfOpenRequests : Option ℤ := none
  isFailure : Option (E → Bool) := none
  cooldownByKind : Option (FailureKind → Option ℤ) := none
  classifyError : Option (E → Option FailureKind) := none
  kindThresholds : Option (FailureKind → Option FailureKindThresholds) := none
  degradationThreshold : Option ℤ := none
  maxBackoffMultiplier : Option ℤ := none
  backoffEscalationCount : Option ℤ := none

structure CircuitBreaker (E : Type) where
  name : String
  failureThreshold : ℤ
  resetTimeout : ℤ
  halfOpenRequests : ℤ
  isFailure : E → Bool
  state : CircuitState
  failureCount : ℤ
  successCount : ℤ
  lastFailureTime : Option ℤ
  halfOpenAllowed : ℤ
  cooldownByKind : FailureKind → Option ℤ
  classifyError : Option (E → Option FailureKind)
  lastFailureKind : Option FailureKind
  kindThresholds : FailureKind → Option FailureKindThresholds
  degradationThreshold : ℤ
  maxBackoffMultiplier : ℤ
  backoffEscalationCount : ℤ
  kindFailureCounts : FailureKind → Option ℤ
  openCycleCount : ℤ
  transitionHistory : List TransitionRecord
  maxTransitionHistory : ℕ
  /-- The row last written to `domain_circuit_breakers` under `name`. -/
  saved : Option CircuitBreakerStateRecord

/-- `CircuitBreakerOpenError`. -/
structure CircuitBreakerOpenError where
  message : String
  circuitName : String
  retryAfterMs : ℤ

structure CircuitBreakerStatus where
  name : String
  state : CircuitState
  failureCount : ℤ
  lastFailureTime : Option ℤ
  retryAfterMs : ℤ
  lastFailureKind : Option FailureKind
  openCycleCount : ℤ
  kindFailureCounts : FailureKind → Option ℤ
  degradationThreshold : ℤ
  effectiveResetTimeout : ℤ
  transitionHistory : List TransitionRecord

/-- `Math.ceil(a / b)` for a positive `b`. -/
def ceilDiv (a b : ℤ) : ℤ := -(-a / b)

/-- `x || d` on a number that may be missing: `0` is falsy too. -/
def orDefault (x : Option ℤ) (d : ℤ) : ℤ :=
  match x with
  | none => d
  | some v => if v = 0 then d else v

namespace CircuitBreaker

variable {E R : Type}

/-! ## Construction and persistence -/

/-- The fields `_restoreFromDb` takes over from a stored row. -/
def restoreRow (row : CircuitBreakerStateRecord) (cb : CircuitBreaker E) : CircuitBreaker E :=
  { cb with
    state := row.state
    failureCount := row.failureCount
    -- `loadCircuitBreakerState` reads a stored 0 back as null.
    lastFailureTime := row.lastFailureTime.filter (· ≠ 0)
    lastFailureKind := row.lastFailureKind
    openCycleCount := row.openCycleCount
    kindFailureCounts := row.kindFailureCounts }

/-- `_restoreFromDb`, from the row that is stored under the breaker's name. -/
def restoreFromDb (cb : CircuitBreaker E) : CircuitBreaker E :=
  match cb.saved with
  | none => cb
  | some row =>
      if row.state = .HALF_OPEN then
        { cb.restoreRow row with halfOpenAllowed := cb.halfOpenRequests }
      else cb.restoreRow row

/-- What the constructor sets before it looks at the stored row. -/
def fresh (name : String) (options : CircuitBreakerOptions E)
    (row : Option CircuitBreakerStateRecord) : CircuitBreaker E where
  name := name
  failureThreshold := options.failureThreshold.getD 5
  resetTimeout := options.resetTimeout.getD 30000
  halfOpenRequests := options.halfOpenRequests.getD 1
  isFailure := options.isFailure.getD fun _ => true
  state := .CLOSED
  failureCount := 0
  successCount := 0
  lastFailureTime := none
  halfOpenAllowed := 0
  cooldownByKind := options.cooldownByKind.getD fun _ => none
  classifyError := options.classifyError
  lastFailureKind := none
  kindThresholds := options.kindThresholds.getD fun _ => none
  degradationThreshold :=
    options.degradationThreshold.getD (ceilDiv (options.failureThreshold.getD 5 * 60) 100)
  maxBackoffMultiplier := options.maxBackoffMultiplier.getD 16
  backoffEscalationCount := options.backoffEscalationCount.getD 3
  kindFailureCounts := fun _ => none
  openCycleCount := 0
  transitionHistory := []
  maxTransitionHistory := 20
  saved := row

/-- The constructor; `row` is what the table holds under `name`. -/
def create (name : String) (options : CircuitBreakerOptions E)
    (row : Option CircuitBreakerStateRecord) : CircuitBreaker E :=
  (fresh name options row).restoreFromDb

/-- `_persistToDb`. -/
def persistToDb (cb : CircuitBreaker E) : CircuitBreaker E :=
  let row : CircuitBreakerStateRecord :=
    { state := cb.state
      failureCount := cb.failureCount
      lastFailureTime := cb.lastFailureTime
      failureThreshold := cb.failureThreshold
      resetTimeout := cb.resetTimeout
      halfOpenRequests := cb.halfOpenRequests
      lastFailureKind := cb.lastFailureKind
      openCycleCount := cb.openCycleCount
      kindFailureCounts := cb.kindFailureCounts }
  { cb with saved := some row }

/-! ## Timeouts -/

/-- `_effectiveResetTimeout`. -/
def effectiveResetTimeout (cb : CircuitBreaker E) : ℤ :=
  if cb.openCycleCount ≤ cb.backoffEscalationCount then cb.resetTimeout
  else
    let escalationFactor := 2 ^ (cb.openCycleCount - cb.backoffEscalationCount).toNat
    min (cb.resetTimeout * escalationFactor) (cb.resetTimeout * cb.maxBackoffMultiplier)

/-- `_effectiveCooldown`. -/
def effectiveCooldown (cb : CircuitBreaker E) : ℤ :=
  let baseTimeout := cb.effectiveResetTimeout
  match cb.lastFailureKind with
  | none => baseTimeout
  | some kind =>
      match cb.cooldownByKind kind with
      | some override => if 0 ≤ override then override else baseTimeout
      | none => baseTimeout

/-- `lastFailureTime` where it is truthy: neither null nor 0. -/
def failedAt (cb : CircuitBreaker E) : Option ℤ := cb.lastFailureTime.filter (· ≠ 0)

/-- `_shouldAttemptReset`. -/
def shouldAttemptReset (now : ℤ) (cb : CircuitBreaker E) : Bool :=
  match cb.failedAt with
  | none => true
  | some t => decide (cb.effectiveCooldown ≤ now - t)

/-- `_timeUntilReset`. -/
def timeUntilReset (now : ℤ) (cb : CircuitBreaker E) : ℤ :=
  match cb.failedAt with
  | none => 0
  | some t => max 0 (cb.effectiveCooldown - (now - t))

/-! ## Transitions -/

/-- `_transition`. -/
def transition (now : ℤ) (newState : CircuitState) (reason : Option String)
    (cb : CircuitBreaker E) : CircuitBreaker E :=
  let record : TransitionRecord :=
    { «from» := cb.state, «to» := newState, timestamp := now, failureCount := cb.failureCount, reason }
  let history := cb.transitionHistory ++ [record]
  { cb with
    state := newState
    halfOpenAllowed := if newState = .HALF_OPEN then cb.halfOpenRequests else cb.halfOpenAllowed
    transitionHistory := if history.length > cb.maxTransitionHistory then history.tail else history }

/-- `_refreshOpenState`. -/
def refreshOpenState (now : ℤ) (cb : CircuitBreaker E) : CircuitBreaker E :=
  if cb.state = .OPEN ∧ cb.shouldAttemptReset now then
    (cb.transition now .HALF_OPEN "timeout-elapsed").persistToDb
  else cb

/-- `_openCircuit`. -/
def openCircuit (now : ℤ) (kind : Option FailureKind) (cb : CircuitBreaker E) :
    CircuitBreaker E :=
  cb.transition now .OPEN (kind.map fun k => "kind:" ++ k.text)

/-! ## Outcomes -/

/-- `_onSuccess`. -/
def onSuccess (now : ℤ) (cb : CircuitBreaker E) : CircuitBreaker E :=
  match cb.state with
  | .OPEN =>
      { cb.transition now .CLOSED "success-recovery" with
        failureCount := 0
        successCount := 0
        lastFailureTime := none
        lastFailureKind := none
        openCycleCount := 0
        kindFailureCounts := fun _ => none }.persistToDb
  | .HALF_OPEN =>
      let probed : CircuitBreaker E := { cb with successCount := cb.successCount + 1 }
      { probed.transition now .CLOSED "probe-success" with
        failureCount := 0
        lastFailureKind := none
        openCycleCount := 0
        kindFailureCounts := fun _ => none }.persistToDb
  | .CLOSED | .DEGRADED =>
      -- Gradual recovery: one failure is forgiven.
      let eased : CircuitBreaker E := { cb with failureCount := max 0 (cb.failureCount - 1) }
      if eased.state = .DEGRADED ∧ eased.failureCount ≤ eased.degradationThreshold then
        (eased.transition now .CLOSED "recovery").persistToDb
      else eased.persistToDb

/-- The head of `_onFailure`: the counters every failure moves. -/
def countFailure (now : ℤ) (kind : Option FailureKind) (cb : CircuitBreaker E) :
    CircuitBreaker E :=
  { cb with
    failureCount := cb.failureCount + 1
    lastFailureTime := some now
    lastFailureKind := kind
    kindFailureCounts :=
      match kind with
      | none => cb.kindFailureCounts
      | some k => fun k' =>
          if k' = k then some ((cb.kindFailureCounts k).getD 0 + 1) else cb.kindFailureCounts k' }

/-- Whether the thresholds of the failure's own kind open the circuit at once. -/
def kindThresholdReached (kind : Option FailureKind) (cb : CircuitBreaker E) : Bool :=
  match kind with
  | none => false
  | some k =>
      match cb.kindThresholds k with
      | none => false
      | some kindConfig =>
          let kindCount := (cb.kindFailureCounts k).getD 0
          (kindConfig.immediateOpen && decide (orDefault kindConfig.threshold 1 ≤ kindCount)) ||
            decide (orDefault kindConfig.threshold cb.failureThreshold ≤ kindCount)

/-- The part of `_onFailure` that goes by the total failure count. -/
def escalate (now : ℤ) (kind : Option FailureKind) (cb : CircuitBreaker E) : CircuitBreaker E :=
  match cb.state with
  | .OPEN => cb
  | .HALF_OPEN =>
      let cycle := cb.openCycleCount + 1
      { cb with openCycleCount := cycle }.transition now .OPEN s!"probe-failed (cycle {cycle})"
  | .DEGRADED => if cb.failureThreshold ≤ cb.failureCount then cb.openCircuit now kind else cb
  | .CLOSED =>
      if cb.failureThreshold ≤ cb.failureCount then cb.openCircuit now kind
      else if cb.degradationThreshold ≤ cb.failureCount then
        cb.transition now .DEGRADED s!"elevated-failures ({cb.failureCount}/{cb.failureThreshold})"
      else cb

/-- `_onFailure`. The early returns of the kind thresholds skip `_persistToDb`. -/
def onFailure (now : ℤ) (kind : Option FailureKind) (cb : CircuitBreaker E) :
    CircuitBreaker E :=
  let counted := cb.countFailure now kind
  if counted.kindThresholdReached kind then counted.openCircuit now kind
  else (counted.escalate now kind).persistToDb

/-! ## The public methods -/

/-- `execute` up to its `await fn()`: the call is refused, or it runs, with `true` when it took
one of the half-open slots. -/
def executeBegin (now : ℤ) (cb : CircuitBreaker E) :
    Except CircuitBreakerOpenError Bool × CircuitBreaker E :=
  let cb := cb.refreshOpenState now
  if cb.state = .OPEN then
    (.error ⟨s!"Circuit breaker \"{cb.name}\" is OPEN. Try again later.", cb.name,
      cb.timeUntilReset now⟩, cb)
  else if cb.state = .HALF_OPEN ∧ cb.halfOpenAllowed ≤ 0 then
    (.error ⟨s!"Circuit breaker \"{cb.name}\" is HALF_OPEN, no more probe requests allowed.",
      cb.name, cb.timeUntilReset now⟩, cb)
  else if cb.state = .HALF_OPEN then
    (.ok true, { cb with halfOpenAllowed := cb.halfOpenAllowed - 1 })
  else (.ok false, cb)

/-- What `_recordResolvedResult` makes of a result; a classifier that throws counts as
success. -/
def resolvedOutcome (classifyResult : Option (R → Option CircuitBreakerResultOutcome))
    (result : R) : CircuitBreakerResultOutcome :=
  match classifyResult with
  | none => .success
  | some classify => (classify result).getD .success

/-- `_recordResolvedResult`, the rest of `execute` once the wrapped promise has resolved. -/
def executeResolve (now : ℤ) (result : R)
    (classifyResult : Option (R → Option CircuitBreakerResultOutcome)) (cb : CircuitBreaker E) :
    CircuitBreaker E :=
  match resolvedOutcome classifyResult result with
  | .failure => cb.onFailure now none
  | .success => cb.onSuccess now
  | .ignore => cb

/-- The `catch` branch of `execute`. -/
def executeReject (now : ℤ) (error : E) (cb : CircuitBreaker E) : CircuitBreaker E :=
  if cb.isFailure error then cb.onFailure now (cb.classifyError.bind (· error)) else cb

/-- `canExecute`. -/
def canExecute (now : ℤ) (cb : CircuitBreaker E) : Bool × CircuitBreaker E :=
  let cb := cb.refreshOpenState now
  (match cb.state with
    | .CLOSED | .DEGRADED => true
    | .OPEN => false
    | .HALF_OPEN => decide (0 < cb.halfOpenAllowed), cb)

/-- `getRetryAfterMs`. -/
def getRetryAfterMs (now : ℤ) (cb : CircuitBreaker E) : ℤ × CircuitBreaker E :=
  let cb := cb.refreshOpenState now
  (match cb.state with
    | .CLOSED | .DEGRADED => 0
    | .OPEN | .HALF_OPEN => cb.timeUntilReset now, cb)

/-- `getStatus`. -/
def getStatus (now : ℤ) (cb : CircuitBreaker E) : CircuitBreakerStatus × CircuitBreaker E :=
  let cb := cb.refreshOpenState now
  let (retryAfterMs, cb) := cb.getRetryAfterMs now
  ({ name := cb.name
     state := cb.state
     failureCount := cb.failureCount
     lastFailureTime := cb.lastFailureTime
     retryAfterMs
     lastFailureKind := cb.lastFailureKind
     openCycleCount := cb.openCycleCount
     kindFailureCounts := cb.kindFailureCounts
     degradationThreshold := cb.degradationThreshold
     effectiveResetTimeout := cb.effectiveResetTimeout
     transitionHistory := cb.transitionHistory }, cb)

/-- `reset`. -/
def reset (now : ℤ) (cb : CircuitBreaker E) : CircuitBreaker E :=
  { cb.transition now .CLOSED "manual-reset" with
    failureCount := 0
    successCount := 0
    lastFailureTime := none
    lastFailureKind := none
    openCycleCount := 0
    kindFailureCounts := fun _ => none }.persistToDb

end CircuitBreaker

end OmniRoute
