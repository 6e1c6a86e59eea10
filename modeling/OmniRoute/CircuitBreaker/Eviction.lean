import OmniRoute.CircuitBreaker.Persistence
import OmniRoute.Lib.Observation

/-!
# Evicting a cold circuit breaker

The registry forgets a breaker that is `CLOSED` with no failures on it, object and row, and makes
it anew when its name is asked for again. This file asks whether a caller can tell: whether the
breaker that was kept and the one made anew answer alike to everything that may happen later.

A closed breaker may still carry the failure counts of its kinds, which successes do not ease and
which only reaching a kind's threshold shows. **Main result (`evict_unobservable_iff`).** The
eviction is unobservable exactly when no count that matters is left, or when nothing the counts
decide can be seen: a breaker that opens at its first failure and whose timeout never grows.
-/

namespace OmniRoute

open Option Or List Nat CircuitBreaker

variable {E R : Type}

namespace CircuitBreaker

/-! ## What the counts decide -/

/-- How often failures of kind `k` were counted. -/
def kindCount (cb : CircuitBreaker E) (k : FailureKind) : ℤ := (cb.kindFailureCounts k).getD 0

/-- The count at which a kind with these thresholds opens the circuit. -/
def kindTripCount (failureThreshold : ℤ) (kindConfig : FailureKindThresholds) : ℤ :=
  let own := orDefault kindConfig.threshold failureThreshold
  if kindConfig.immediateOpen then min (orDefault kindConfig.threshold 1) own else own

/-- The reset timeout after `n` failed probes in a row. -/
def timeoutAt (cb : CircuitBreaker E) (n : ℕ) : ℤ :=
  { cb with openCycleCount := n }.effectiveResetTimeout

/-- The timeout is the same after any number of failed probes; below 0 it counts as 0. -/
def NeverEscalates (cb : CircuitBreaker E) : Prop :=
  ∀ n, max 0 (cb.timeoutAt n) = max 0 (cb.timeoutAt 0)

/-- No kind with a threshold of two or more has failures on its count; or the first failure opens
the breaker whatever its kind, and the timeout is always the same. -/
def Forgettable (cb : CircuitBreaker E) : Prop :=
  (∀ k kindConfig, cb.kindThresholds k = some kindConfig → 0 < cb.kindCount k →
    kindTripCount cb.failureThreshold kindConfig ≤ 1) ∨
  (cb.failureThreshold ≤ 1 ∧ cb.NeverEscalates)

/-- The name and the options a breaker runs with. -/
def configured (cb : CircuitBreaker E) : String × CircuitBreakerOptions E :=
  (cb.name,
    { failureThreshold := some cb.failureThreshold
      resetTimeout := some cb.resetTimeout
      halfOpenRequests := some cb.halfOpenRequests
      isFailure := some cb.isFailure
      cooldownByKind := some cb.cooldownByKind
      classifyError := cb.classifyError
      kindThresholds := some cb.kindThresholds
      degradationThreshold := some cb.degradationThreshold
      maxBackoffMultiplier := some cb.maxBackoffMultiplier
      backoffEscalationCount := some cb.backoffEscalationCount })

theorem kindThresholdReached_some (k : FailureKind) (cb : CircuitBreaker E) :
    cb.kindThresholdReached (some k) =
      match cb.kindThresholds k with
      | none => false
      | some kindConfig =>
          decide (kindTripCount cb.failureThreshold kindConfig ≤ cb.kindCount k) := by
  simp only [kindThresholdReached]
  cases cb.kindThresholds k with
  | none => rfl
  | some kindConfig =>
    cases hi : kindConfig.immediateOpen with
    | false => simp [kindTripCount, hi, kindCount]
    | true =>
      simp only [kindTripCount, hi, kindCount, Bool.true_and, if_true]
      rw [← Bool.decide_or]
      exact decide_eq_decide.2 (by omega)

/-! ## What the methods do to the fields -/

@[simp] theorem refreshOpenState_configured (now : ℤ) (cb : CircuitBreaker E) :
    (cb.refreshOpenState now).configured = cb.configured := by
  unfold refreshOpenState
  split <;> rfl

@[simp] theorem onSuccess_configured (now : ℤ) (cb : CircuitBreaker E) :
    (cb.onSuccess now).configured = cb.configured := by
  unfold onSuccess
  split
  · rfl
  · rfl
  all_goals
    dsimp only
    split <;> rfl

theorem escalate_configured (now : ℤ) (kind : Option FailureKind) (cb : CircuitBreaker E) :
    (cb.escalate now kind).configured = cb.configured := by
  unfold escalate
  split
  · rfl
  · rfl
  · split <;> rfl
  · split
    · rfl
    · split <;> rfl

@[simp] theorem onFailure_configured (now : ℤ) (kind : Option FailureKind)
    (cb : CircuitBreaker E) : (cb.onFailure now kind).configured = cb.configured := by
  simp only [onFailure]
  split
  · rfl
  · exact escalate_configured now kind _

variable {cb : CircuitBreaker E}

/-- The fields a success leaves on a breaker that was closed or degraded. -/
theorem onSuccess_of_closed (now : ℤ) (h : cb.state = .CLOSED ∨ cb.state = .DEGRADED) :
    (cb.onSuccess now).failureCount = max 0 (cb.failureCount - 1) ∧
      (cb.onSuccess now).state =
        (if cb.state = .DEGRADED ∧ max 0 (cb.failureCount - 1) ≤ cb.degradationThreshold
          then .CLOSED else cb.state) ∧
      (cb.onSuccess now).openCycleCount = cb.openCycleCount ∧
      (cb.onSuccess now).kindFailureCounts = cb.kindFailureCounts := by
  rcases h with h | h
  · simp [onSuccess, h, persistToDb]
  · unfold onSuccess
    rw [h]
    dsimp only
    simp only [true_and]
    split <;> exact ⟨rfl, rfl, rfl, rfl⟩

/-- A success closes a breaker that was open or half-open and clears its counts. -/
theorem onSuccess_of_open (now : ℤ) (h : cb.state = .OPEN ∨ cb.state = .HALF_OPEN) :
    (cb.onSuccess now).failureCount = 0 ∧ (cb.onSuccess now).state = .CLOSED ∧
      (cb.onSuccess now).openCycleCount = 0 ∧
      (cb.onSuccess now).kindFailureCounts = fun _ => none := by
  unfold onSuccess
  rcases h with h | h <;> rw [h] <;> exact ⟨rfl, rfl, rfl, rfl⟩

/-- The state after a failure: `tripped` when the thresholds of its kind are reached. -/
def stateAfterFailure (tripped : Bool) (cb : CircuitBreaker E) : CircuitState :=
  if tripped then .OPEN
  else
    match cb.state with
    | .OPEN | .HALF_OPEN => .OPEN
    | .DEGRADED => if cb.failureThreshold ≤ cb.failureCount + 1 then .OPEN else .DEGRADED
    | .CLOSED =>
        if cb.failureThreshold ≤ cb.failureCount + 1 then .OPEN
        else if cb.degradationThreshold ≤ cb.failureCount + 1 then .DEGRADED else .CLOSED

/-- The thresholds of the failure's kind are reached once it is counted. -/
def trips (kind : Option FailureKind) (cb : CircuitBreaker E) : Bool :=
  match kind with
  | none => false
  | some k =>
      match cb.kindThresholds k with
      | none => false
      | some kindConfig =>
          decide (kindTripCount cb.failureThreshold kindConfig ≤ cb.kindCount k + 1)

theorem kindThresholdReached_countFailure (now : ℤ) (kind : Option FailureKind)
    (cb : CircuitBreaker E) :
    (cb.countFailure now kind).kindThresholdReached kind = cb.trips kind := by
  cases kind with
  | none => rfl
  | some k =>
    rw [kindThresholdReached_some]
    simp only [trips, countFailure, kindCount, if_true, getD_some]
    rfl

theorem onFailure_fields (now : ℤ) (kind : Option FailureKind) (cb : CircuitBreaker E) :
    (cb.onFailure now kind).failureCount = cb.failureCount + 1 ∧
      (cb.onFailure now kind).lastFailureKind = kind ∧
      (cb.onFailure now kind).kindFailureCounts = (cb.countFailure now kind).kindFailureCounts ∧
      (cb.onFailure now kind).state = cb.stateAfterFailure (cb.trips kind) ∧
      (cb.onFailure now kind).openCycleCount =
        (if cb.trips kind = false ∧ cb.state = .HALF_OPEN then cb.openCycleCount + 1
          else cb.openCycleCount) := by
  simp only [onFailure, kindThresholdReached_countFailure]
  cases htrip : cb.trips kind with
  | true => exact ⟨rfl, rfl, rfl, rfl, rfl⟩
  | false =>
    rw [if_neg (by decide)]
    unfold escalate stateAfterFailure
    cases hst : cb.state with
    | OPEN => simp [countFailure, hst, persistToDb]
    | HALF_OPEN => simp [countFailure, hst, persistToDb, transition]
    | DEGRADED =>
      simp only [countFailure, hst]
      split <;> simp [persistToDb, openCircuit, transition]
    | CLOSED =>
      simp only [countFailure, hst]
      split
      · simp [persistToDb, openCircuit, transition]
      · split <;> simp [persistToDb, transition]

/-- A failure adds one to the count of its own kind. -/
theorem kindCount_onFailure (now : ℤ) (kind : Option FailureKind) (cb : CircuitBreaker E)
    (k : FailureKind) :
    (cb.onFailure now kind).kindCount k = cb.kindCount k + if kind = some k then 1 else 0 := by
  unfold kindCount
  rw [(onFailure_fields now kind cb).2.2.1]
  cases kind with
  | none => simp [countFailure]
  | some k' =>
    by_cases hk : k = k'
    · subst hk
      simp [countFailure]
    · have hk' : k' ≠ k := fun h => hk h.symm
      simp [countFailure, hk, hk']

/-! ## Breakers that answer alike -/

/-- Failures of kind `k` show on neither breaker or on both: their counts are equal, the kind has
no thresholds, or its first failure opens the circuit. -/
def KindAlike (a b : CircuitBreaker E) (k : FailureKind) : Prop :=
  0 ≤ a.kindCount k ∧ 0 ≤ b.kindCount k ∧
    (a.kindCount k = b.kindCount k ∨
      ∀ kindConfig, a.kindThresholds k = some kindConfig →
        kindTripCount a.failureThreshold kindConfig ≤ 1)

/-- The counts and the cycles of the two breakers may differ, but nothing they decide can be
seen. -/
def HiddenAlike (a b : CircuitBreaker E) : Prop :=
  (a.failureThreshold ≤ 1 ∧ a.NeverEscalates ∧ 0 ≤ a.openCycleCount ∧ 0 ≤ b.openCycleCount) ∨
    (a.openCycleCount = b.openCycleCount ∧ ∀ k, KindAlike a b k)

/-- Two breakers no caller can tell apart from `now` on. -/
structure Alike (now : ℤ) (a b : CircuitBreaker E) : Prop where
  configured : a.configured = b.configured
  state : a.state = b.state
  failureCount : a.failureCount = b.failureCount
  count_nonneg : 0 ≤ a.failureCount
  slots : a.state = .HALF_OPEN → a.halfOpenAllowed = b.halfOpenAllowed
  failed : a.state = .OPEN ∨ a.state = .HALF_OPEN →
    a.lastFailureTime = b.lastFailureTime ∧ a.lastFailureKind = b.lastFailureKind ∧
      ∀ t, a.lastFailureTime = some t → t ≤ now
  hidden : HiddenAlike a b

section Configured

variable {a b : CircuitBreaker E}

section

variable (h : a.configured = b.configured)
include h

theorem name_eq : a.name = b.name := congrArg Prod.fst h

theorem failureThreshold_eq : a.failureThreshold = b.failureThreshold :=
  some.inj (congrArg (fun p => p.2.failureThreshold) h)

theorem resetTimeout_eq : a.resetTimeout = b.resetTimeout :=
  some.inj (congrArg (fun p => p.2.resetTimeout) h)

theorem halfOpenRequests_eq : a.halfOpenRequests = b.halfOpenRequests :=
  some.inj (congrArg (fun p => p.2.halfOpenRequests) h)

theorem isFailure_eq : a.isFailure = b.isFailure :=
  some.inj (congrArg (fun p => p.2.isFailure) h)

theorem cooldownByKind_eq : a.cooldownByKind = b.cooldownByKind :=
  some.inj (congrArg (fun p => p.2.cooldownByKind) h)

theorem classifyError_eq : a.classifyError = b.classifyError :=
  congrArg (fun p => p.2.classifyError) h

theorem kindThresholds_eq : a.kindThresholds = b.kindThresholds :=
  some.inj (congrArg (fun p => p.2.kindThresholds) h)

theorem degradationThreshold_eq : a.degradationThreshold = b.degradationThreshold :=
  some.inj (congrArg (fun p => p.2.degradationThreshold) h)

theorem timeoutAt_eq (n : ℕ) : a.timeoutAt n = b.timeoutAt n := by
  have hmax : a.maxBackoffMultiplier = b.maxBackoffMultiplier :=
    some.inj (congrArg (fun p => p.2.maxBackoffMultiplier) h)
  have hesc : a.backoffEscalationCount = b.backoffEscalationCount :=
    some.inj (congrArg (fun p => p.2.backoffEscalationCount) h)
  simp only [timeoutAt, effectiveResetTimeout, resetTimeout_eq h, hmax, hesc]

theorem neverEscalates_congr : a.NeverEscalates ↔ b.NeverEscalates := by
  simp only [NeverEscalates, timeoutAt_eq h]

end

end Configured

theorem effectiveResetTimeout_eq_timeoutAt (h : 0 ≤ cb.openCycleCount) :
    cb.effectiveResetTimeout = cb.timeoutAt cb.openCycleCount.toNat := by
  have hcast : ((cb.openCycleCount.toNat : ℕ) : ℤ) = cb.openCycleCount := Int.toNat_of_nonneg h
  simp only [timeoutAt, effectiveResetTimeout, hcast]

variable {a b : CircuitBreaker E}

/-- The timeouts of alike breakers agree from 0 upwards. -/
theorem HiddenAlike.resetTimeout (h : HiddenAlike a b) (hconf : a.configured = b.configured) :
    max 0 a.effectiveResetTimeout = max 0 b.effectiveResetTimeout := by
  rcases h with ⟨-, hflat, ha, hb⟩ | ⟨hcycle, -⟩
  · rw [effectiveResetTimeout_eq_timeoutAt ha, effectiveResetTimeout_eq_timeoutAt hb,
      ← timeoutAt_eq hconf, hflat a.openCycleCount.toNat, hflat b.openCycleCount.toNat]
  · have hmax : a.maxBackoffMultiplier = b.maxBackoffMultiplier :=
      some.inj (congrArg (fun p => p.2.maxBackoffMultiplier) hconf)
    have hesc : a.backoffEscalationCount = b.backoffEscalationCount :=
      some.inj (congrArg (fun p => p.2.backoffEscalationCount) hconf)
    simp only [effectiveResetTimeout, resetTimeout_eq hconf, hmax, hesc, hcycle]

variable {now : ℤ}

section

variable (h : Alike now a b)
include h

section

variable (hst : a.state = .OPEN ∨ a.state = .HALF_OPEN)
include hst

theorem Alike.cooldown : max 0 a.effectiveCooldown = max 0 b.effectiveCooldown := by
  have hreset := h.hidden.resetTimeout h.configured
  simp only [effectiveCooldown, ← (h.failed hst).2.1, ← cooldownByKind_eq h.configured]
  cases a.lastFailureKind with
  | none => exact hreset
  | some kind =>
    dsimp only
    cases a.cooldownByKind kind with
    | none => exact hreset
    | some override =>
      by_cases hpos : 0 ≤ override
      · simp only [if_pos hpos]
      · simp only [if_neg hpos]
        exact hreset

theorem Alike.shouldAttemptReset : a.shouldAttemptReset now = b.shouldAttemptReset now := by
  obtain ⟨htime, -, hle⟩ := h.failed hst
  have hcool := h.cooldown hst
  simp only [CircuitBreaker.shouldAttemptReset, failedAt, ← htime]
  cases ht : a.lastFailureTime.filter (· ≠ 0) with
  | none => rfl
  | some t =>
    have := hle t (filter_eq_some_iff.1 ht).1
    exact decide_eq_decide.2 (by omega)

theorem Alike.timeUntilReset : a.timeUntilReset now = b.timeUntilReset now := by
  obtain ⟨htime, -, hle⟩ := h.failed hst
  have hcool := h.cooldown hst
  simp only [CircuitBreaker.timeUntilReset, failedAt, ← htime]
  cases ht : a.lastFailureTime.filter (· ≠ 0) with
  | none => rfl
  | some t =>
    have := hle t (filter_eq_some_iff.1 ht).1
    show max 0 (a.effectiveCooldown - (now - t)) = max 0 (b.effectiveCooldown - (now - t))
    omega

end

omit h in
/-- Alike breakers trip on the same failures, if kinds decide anything. -/
theorem trips_eq (hconf : a.configured = b.configured) {kind : Option FailureKind}
    (h : ∀ k, KindAlike a b k) : a.trips kind = b.trips kind := by
  cases kind with
  | none => rfl
  | some k =>
    simp only [trips, ← kindThresholds_eq hconf, ← failureThreshold_eq hconf]
    cases hk : a.kindThresholds k with
    | none => rfl
    | some kindConfig =>
      obtain ⟨ha, hb, heq | hone⟩ := h k
      · rw [heq]
      · have := hone kindConfig hk
        exact decide_eq_decide.2 (by omega)

omit h in
theorem HiddenAlike.congr {a' b' : CircuitBreaker E} (h : HiddenAlike a b)
    (hca : a'.configured = a.configured) (hcycleA : a'.openCycleCount = a.openCycleCount)
    (hcycleB : b'.openCycleCount = b.openCycleCount)
    (hkindA : a'.kindFailureCounts = a.kindFailureCounts)
    (hkindB : b'.kindFailureCounts = b.kindFailureCounts) : HiddenAlike a' b' := by
  unfold HiddenAlike KindAlike kindCount at h ⊢
  rw [hcycleA, hcycleB, hkindA, hkindB, failureThreshold_eq hca, neverEscalates_congr hca,
    kindThresholds_eq hca]
  exact h

omit h in
/-- Breakers with nothing on their counts are alike in what is hidden. -/
theorem hiddenAlike_cleared (ha : a.openCycleCount = 0) (hb : b.openCycleCount = 0)
    (hka : a.kindFailureCounts = fun _ => none) (hkb : b.kindFailureCounts = fun _ => none) :
    HiddenAlike a b := by
  refine inr ⟨ha.trans hb.symm, fun k => ?_⟩
  simp [KindAlike, kindCount, hka, hkb]

theorem Alike.later (dt : ℕ) : Alike (now + dt) a b :=
  { h with
    failed := fun hst => by
      obtain ⟨htime, hkind, hle⟩ := h.failed hst
      exact ⟨htime, hkind, fun t ht => by have := hle t ht; omega⟩ }

theorem Alike.refreshOpenState : Alike now (a.refreshOpenState now) (b.refreshOpenState now) := by
  by_cases hst : a.state = .OPEN
  · have hreset := h.shouldAttemptReset (inl hst)
    have hstb : b.state = .OPEN := h.state ▸ hst
    simp only [CircuitBreaker.refreshOpenState, hst, hstb, ← hreset, true_and]
    split
    · exact
        { configured := h.configured
          state := rfl
          failureCount := h.failureCount
          count_nonneg := h.count_nonneg
          slots := fun _ => halfOpenRequests_eq h.configured
          failed := fun _ => h.failed (inl hst)
          hidden := h.hidden.congr rfl rfl rfl rfl rfl }
    · exact h
  · have hstb : b.state ≠ .OPEN := h.state ▸ hst
    simp only [CircuitBreaker.refreshOpenState, hst, hstb, false_and, if_false]
    exact h

theorem Alike.onSuccess : Alike now (a.onSuccess now) (b.onSuccess now) := by
  have hne := a.onSuccess_state_ne now
  have hconf : (a.onSuccess now).configured = (b.onSuccess now).configured := by
    rw [onSuccess_configured, onSuccess_configured, h.configured]
  by_cases hopen : a.state = .OPEN ∨ a.state = .HALF_OPEN
  · obtain ⟨hfa, hsa, hca, hka⟩ := onSuccess_of_open now hopen
    have hopenB : b.state = .OPEN ∨ b.state = .HALF_OPEN := h.state ▸ hopen
    obtain ⟨hfb, hsb, hcb, hkb⟩ := onSuccess_of_open now hopenB
    exact
      { configured := hconf
        state := hsa.trans hsb.symm
        failureCount := hfa.trans hfb.symm
        count_nonneg := by rw [hfa]
        slots := fun hst => absurd hst hne
        failed := fun hst => by simp [hsa] at hst
        hidden := hiddenAlike_cleared hca hcb hka hkb }
  · have hclosed : a.state = .CLOSED ∨ a.state = .DEGRADED := by
      cases hst : a.state <;> simp_all
    obtain ⟨hfa, hsa, hca, hka⟩ := onSuccess_of_closed now hclosed
    have hclosedB : b.state = .CLOSED ∨ b.state = .DEGRADED := h.state ▸ hclosed
    obtain ⟨hfb, hsb, hcb, hkb⟩ := onSuccess_of_closed now hclosedB
    have hstate : (a.onSuccess now).state = (b.onSuccess now).state := by
      rw [hsa, hsb, h.state, h.failureCount, degradationThreshold_eq h.configured]
    exact
      { configured := hconf
        state := hstate
        failureCount := by rw [hfa, hfb, h.failureCount]
        count_nonneg := by rw [hfa]; exact le_max_left _ _
        slots := fun hst => absurd hst hne
        failed := fun hst => by
          rw [hsa] at hst
          split at hst
          · rcases hst with hst | hst <;> cases hst
          · exact absurd hst hopen
        hidden := h.hidden.congr (onSuccess_configured now a) hca hcb hka hkb }

end

/-- A breaker that opens at its first failure does so whatever kind it is. -/
theorem stateAfterFailure_of_le_one (hF : cb.failureThreshold ≤ 1) (hc : 0 ≤ cb.failureCount)
    (tripped : Bool) : cb.stateAfterFailure tripped = .OPEN := by
  have hle : cb.failureThreshold ≤ cb.failureCount + 1 := by omega
  unfold stateAfterFailure
  cases tripped with
  | true => rfl
  | false => cases cb.state <;> simp [hle]

theorem HiddenAlike.onFailure (h : HiddenAlike a b) (hconf : a.configured = b.configured)
    (hstate : a.state = b.state) (kind : Option FailureKind) :
    HiddenAlike (a.onFailure now kind) (b.onFailure now kind) := by
  obtain ⟨-, -, -, -, hca⟩ := onFailure_fields now kind a
  obtain ⟨-, -, -, -, hcb⟩ := onFailure_fields now kind b
  have hF := failureThreshold_eq (onFailure_configured now kind a)
  rcases h with ⟨hone, hflat, ha, hb⟩ | ⟨hcycle, hkinds⟩
  · refine inl ⟨hF ▸ hone, (neverEscalates_congr (onFailure_configured now kind a)).2 hflat, ?_, ?_⟩
    · rw [hca]
      split <;> omega
    · rw [hcb]
      split <;> omega
  · refine inr ⟨?_, fun k => ?_⟩
    · rw [hca, hcb, trips_eq hconf hkinds, hstate, hcycle]
    · unfold KindAlike
      rw [kindCount_onFailure, kindCount_onFailure, hF,
        kindThresholds_eq (onFailure_configured now kind a)]
      obtain ⟨ha, hb, hor⟩ := hkinds k
      refine ⟨by split <;> omega, by split <;> omega, hor.imp_left fun heq => by rw [heq]⟩

theorem Alike.onFailure (h : Alike now a b) (kind : Option FailureKind) :
    Alike now (a.onFailure now kind) (b.onFailure now kind) := by
  obtain ⟨hfa, hka, -, hsa, -⟩ := onFailure_fields now kind a
  obtain ⟨hfb, hkb, -, hsb, -⟩ := onFailure_fields now kind b
  have hF := failureThreshold_eq h.configured
  have hstate : (a.onFailure now kind).state = (b.onFailure now kind).state := by
    rw [hsa, hsb]
    rcases h.hidden with ⟨hone, -⟩ | ⟨-, hkinds⟩
    · rw [stateAfterFailure_of_le_one hone h.count_nonneg,
        stateAfterFailure_of_le_one (hF ▸ hone) (h.failureCount ▸ h.count_nonneg)]
    · simp only [stateAfterFailure, trips_eq h.configured hkinds, h.state, h.failureCount, hF,
        degradationThreshold_eq h.configured]
  have hta := onFailure_lastFailureTime now kind a
  exact
    { configured := by rw [onFailure_configured, onFailure_configured, h.configured]
      state := hstate
      failureCount := by rw [hfa, hfb, h.failureCount]
      count_nonneg := by have := h.count_nonneg; omega
      slots := fun hst => absurd hst (a.onFailure_state_ne now kind)
      failed := fun _ => by
        refine ⟨hta.trans (onFailure_lastFailureTime now kind b).symm, hka.trans hkb.symm, ?_⟩
        intro t ht
        obtain rfl := some.inj (hta.symm.trans ht)
        exact le_rfl
      hidden := h.hidden.onFailure h.configured h.state kind }

theorem Alike.reset (h : Alike now a b) :
    Alike now (a.reset now) (b.reset now) where
  configured := h.configured
  state := rfl
  failureCount := rfl
  count_nonneg := le_rfl
  slots := fun hst => by cases hst
  failed := fun hst => by rcases hst with hst | hst <;> cases hst
  hidden := hiddenAlike_cleared rfl rfl rfl rfl

/-- Alike breakers let the same calls through, with the same refusals. -/
theorem Alike.executeBegin (h : Alike now a b) :
    (a.executeBegin now).1 = (b.executeBegin now).1 ∧
      Alike now (a.executeBegin now).2 (b.executeBegin now).2 := by
  have hr := h.refreshOpenState
  have hname := name_eq hr.configured
  simp only [CircuitBreaker.executeBegin, ← hr.state]
  cases hst : (a.refreshOpenState now).state with
  | OPEN =>
    simp only [if_true]
    rw [hname, hr.timeUntilReset (inl hst)]
    exact ⟨rfl, hr⟩
  | HALF_OPEN =>
    have hslots := hr.slots hst
    simp only [reduceCtorEq, if_false, true_and, if_true, hslots]
    split
    · rw [hname, hr.timeUntilReset (inr hst)]
      exact ⟨rfl, hr⟩
    · exact ⟨rfl, {
        configured := hr.configured
        state := rfl
        failureCount := hr.failureCount
        count_nonneg := hr.count_nonneg
        slots := fun _ => rfl
        failed := fun _ => hr.failed (inr hst)
        hidden := hr.hidden.congr rfl rfl rfl rfl rfl }⟩
  | _ => exact ⟨rfl, hr⟩

theorem Alike.canExecute (h : Alike now a b) : (a.canExecute now).1 = (b.canExecute now).1 := by
  have hr := h.refreshOpenState
  simp only [CircuitBreaker.canExecute, ← hr.state]
  cases hst : (a.refreshOpenState now).state with
  | HALF_OPEN => simp only [hr.slots hst]
  | _ => rfl

theorem Alike.getRetryAfterMs (h : Alike now a b) :
    (a.getRetryAfterMs now).1 = (b.getRetryAfterMs now).1 := by
  have hr := h.refreshOpenState
  simp only [CircuitBreaker.getRetryAfterMs, ← hr.state]
  cases hst : (a.refreshOpenState now).state with
  | OPEN => exact hr.timeUntilReset (inl hst)
  | HALF_OPEN => exact hr.timeUntilReset (inr hst)
  | _ => rfl

theorem Alike.executeResolve (h : Alike now a b) (result : R)
    (classifyResult : Option (R → Option CircuitBreakerResultOutcome)) :
    Alike now (a.executeResolve now result classifyResult)
      (b.executeResolve now result classifyResult) := by
  unfold CircuitBreaker.executeResolve
  cases resolvedOutcome classifyResult result with
  | success => exact h.onSuccess
  | failure => exact h.onFailure none
  | ignore => exact h

theorem Alike.executeReject (h : Alike now a b) (error : E) :
    Alike now (a.executeReject now error) (b.executeReject now error) := by
  unfold CircuitBreaker.executeReject
  rw [← isFailure_eq h.configured, ← classifyError_eq h.configured]
  split
  · exact h.onFailure _
  · exact h

end CircuitBreaker

/-! ## What every breaker of a run satisfies -/

/-- Only failures the breaker can see are on its counts, and a breaker that is not open has no
failed probes behind it. -/
structure DurableState.Sound (options : CircuitBreakerOptions E) (d : DurableState) : Prop where
  settled : d.state = .CLOSED ∨ d.state = .DEGRADED → d.openCycleCount = 0
  count_nonneg : ∀ k, 0 ≤ (d.kindFailureCounts k).getD 0
  produced : ∀ k, 0 < (d.kindFailureCounts k).getD 0 →
    ∃ error, (options.isFailure.getD fun _ => true) error = true ∧
      (options.classifyError.bind (· error)) = some k

theorem DurableState.initial_sound (options : CircuitBreakerOptions E) :
    DurableState.initial.Sound options :=
  ⟨fun _ => rfl, fun _ => le_rfl, fun _ h => absurd h (lt_irrefl 0)⟩

namespace CircuitBreaker

/-- The breaker runs with `options`, and it and its row are sound. -/
structure Sound (name : String) (options : CircuitBreakerOptions E) (cb : CircuitBreaker E) :
    Prop where
  configured : cb.configured = (fresh name options none).configured
  durable : cb.durable.Sound options
  saved : ∀ row, cb.saved = some row → row.durable.Sound options

variable {name : String} {options : CircuitBreakerOptions E}

variable {cb : CircuitBreaker E}

theorem Sound.persistToDb (hconf : cb.configured = (fresh name options none).configured)
    (hd : cb.durable.Sound options) : cb.persistToDb.Sound name options :=
  ⟨hconf, hd, fun _ h => some.inj h ▸ hd⟩

section

variable (h : cb.Sound name options)
include h

section

variable (now : ℤ)

theorem Sound.refreshOpenState : (cb.refreshOpenState now).Sound name options := by
  unfold CircuitBreaker.refreshOpenState
  split
  · refine Sound.persistToDb h.configured ⟨fun hst => ?_, h.durable.count_nonneg, h.durable.produced⟩
    rcases hst with hst | hst <;> cases hst
  · exact h

theorem Sound.executeBegin : (cb.executeBegin now).2.Sound name options := by
  have hr := h.refreshOpenState now
  rcases cb.executeBegin_cases now with ⟨_, hb⟩ | ⟨-, -, hb⟩ | ⟨-, hb⟩ <;> rw [hb]
  · exact hr
  · exact ⟨hr.configured, hr.durable, hr.saved⟩
  · exact hr

omit h in
/-- A success ends in a write. -/
theorem onSuccess_saved (cb : CircuitBreaker E) :
    ∃ row, (cb.onSuccess now).saved = some row ∧ row.durable = (cb.onSuccess now).durable := by
  unfold onSuccess
  split
  · exact ⟨_, rfl, rfl⟩
  · exact ⟨_, rfl, rfl⟩
  all_goals
    dsimp only
    split <;> exact ⟨_, rfl, rfl⟩

omit h in
/-- A failure ends in a write or leaves the row as it was. -/
theorem onFailure_saved (kind : Option FailureKind) (cb : CircuitBreaker E) :
    (cb.onFailure now kind).saved = cb.saved ∨
      ∃ row, (cb.onFailure now kind).saved = some row ∧
        row.durable = (cb.onFailure now kind).durable := by
  simp only [onFailure]
  split
  · exact inl rfl
  · exact inr ⟨_, rfl, rfl⟩

theorem Sound.onSuccess : (cb.onSuccess now).Sound name options := by
  have hd : (cb.onSuccess now).durable.Sound options := by
    by_cases hopen : cb.state = .OPEN ∨ cb.state = .HALF_OPEN
    · obtain ⟨-, -, hc, hk⟩ := onSuccess_of_open now hopen
      refine ⟨fun _ => hc, fun k => ?_, fun k hpos => ?_⟩
      · simp [CircuitBreaker.durable, hk]
      · simp [CircuitBreaker.durable, hk] at hpos
    · have hclosed : cb.state = .CLOSED ∨ cb.state = .DEGRADED := by
        cases hst : cb.state <;> simp_all
      obtain ⟨-, -, hc, hk⟩ := onSuccess_of_closed now hclosed
      have hkd : (cb.onSuccess now).durable.kindFailureCounts = cb.kindFailureCounts := hk
      refine ⟨fun _ => hc.trans (h.durable.settled hclosed), ?_, ?_⟩
      · rw [hkd]
        exact h.durable.count_nonneg
      · rw [hkd]
        exact h.durable.produced
  obtain ⟨row, hrow, heq⟩ := onSuccess_saved now cb
  refine ⟨(onSuccess_configured now cb).trans h.configured, hd, fun r hr => ?_⟩
  rw [hrow] at hr
  exact some.inj hr ▸ heq ▸ hd

/-- A failure whose kind, if it has one, some error of the breaker carries. -/
theorem Sound.onFailure (kind : Option FailureKind)
    (hkind : ∀ k, kind = some k → ∃ error, (options.isFailure.getD fun _ => true) error = true ∧
      (options.classifyError.bind (· error)) = some k) :
    (cb.onFailure now kind).Sound name options := by
  obtain ⟨-, -, -, hst, hc⟩ := onFailure_fields now kind cb
  have hd : (cb.onFailure now kind).durable.Sound options := by
    refine ⟨fun hclosed => ?_, fun k => ?_, fun k hpos => ?_⟩
    · -- Left closed or degraded, the breaker was so before, and its cycles are still 0.
      have hwas : cb.state = .CLOSED ∨ cb.state = .DEGRADED := by
        change (cb.onFailure now kind).state = _ ∨ (cb.onFailure now kind).state = _ at hclosed
        rw [hst] at hclosed
        unfold stateAfterFailure at hclosed
        cases hs : cb.state <;> simp_all
      show (cb.onFailure now kind).openCycleCount = 0
      rw [hc, if_neg (by rcases hwas with hs | hs <;> simp [hs])]
      exact h.durable.settled hwas
    · have hcount := kindCount_onFailure now kind cb k
      have hnn : 0 ≤ cb.kindCount k := h.durable.count_nonneg k
      show 0 ≤ (cb.onFailure now kind).kindCount k
      rw [hcount]
      split <;> omega
    · have hcount := kindCount_onFailure now kind cb k
      change 0 < (cb.onFailure now kind).kindCount k at hpos
      by_cases hk : kind = some k
      · exact hkind k hk
      · rw [hcount, if_neg hk] at hpos
        have hwas : 0 < cb.kindCount k := by omega
        exact h.durable.produced k hwas
  refine ⟨(onFailure_configured now kind cb).trans h.configured, hd, fun r hr => ?_⟩
  rcases onFailure_saved now kind cb with hsame | ⟨row, hrow, heq⟩
  · exact h.saved r (hsame ▸ hr)
  · rw [hrow] at hr
    exact some.inj hr ▸ heq ▸ hd

theorem Sound.reset : (cb.reset now).Sound name options :=
  Sound.persistToDb h.configured (DurableState.initial_sound options)

theorem Sound.executeResolve (result : R)
    (classifyResult : Option (R → Option CircuitBreakerResultOutcome)) :
    (cb.executeResolve now result classifyResult).Sound name options := by
  unfold CircuitBreaker.executeResolve
  cases resolvedOutcome classifyResult result with
  | success => exact h.onSuccess now
  | failure => exact h.onFailure now none fun _ hk => by cases hk
  | ignore => exact h

theorem Sound.executeReject (error : E) : (cb.executeReject now error).Sound name options := by
  unfold CircuitBreaker.executeReject
  have hf : cb.isFailure = options.isFailure.getD fun _ => true := isFailure_eq h.configured
  have hc : cb.classifyError = options.classifyError := classifyError_eq h.configured
  split
  · next hfail =>
    exact h.onFailure now _ fun k hk => ⟨error, hf ▸ hfail, hc ▸ hk⟩
  · exact h

end

end

/-- A breaker made from a sound row is sound. -/
theorem sound_create {row : Option CircuitBreakerStateRecord}
    (hrow : ∀ r, row = some r → r.durable.Sound options) :
    (create name options row).Sound name options := by
  cases row with
  | none =>
    exact ⟨rfl, DurableState.initial_sound options, fun _ h => by cases h⟩
  | some r =>
    have hr := hrow r rfl
    have hd : DurableState.Sound options
        { r.durable with lastFailureTime := r.lastFailureTime.filter (· ≠ 0) } :=
      ⟨hr.settled, hr.count_nonneg, hr.produced⟩
    unfold create restoreFromDb
    dsimp only [fresh]
    split <;> exact ⟨rfl, hd, fun _ h => some.inj h ▸ hr⟩

end CircuitBreaker

/-! ## Runs -/

namespace BreakerRun

open CircuitBreaker

/-- What the caller of a method is told. -/
inductive BreakerReply
  | admitted
  | refused (error : CircuitBreakerOpenError)
  | allowed (now : Bool)
  | retryAfterMs (ms : ℤ)
  | none

/-- The reply to an event. The status call is left out: it reads every counter aloud. -/
def reply (s : BreakerRun E R) : BreakerEvent E R → BreakerReply
  | .execute _ =>
      match (s.cb.executeBegin s.now).1 with
      | .ok _ => .admitted
      | .error error => .refused error
  | .canExecute => .allowed (s.cb.canExecute s.now).1
  | .getRetryAfterMs => .retryAfterMs (s.cb.getRetryAfterMs s.now).1
  | _ => .none

/-- What a run shows at an event: the reply, and the state the breaker is left in. -/
def observe (s : BreakerRun E R) (e : BreakerEvent E R) (s' : BreakerRun E R) :
    BreakerReply × CircuitState := (s.reply e, s'.cb.state)

/-- A breaker at time `now` with no call in flight. -/
def idle (cb : CircuitBreaker E) (now : ℤ) : BreakerRun E R :=
  { cb, now, calls := 0, inFlight := [] }

/-- The breakers that `name` and `options` can stand for: made on an empty table, run, and made
anew from the row they left. -/
inductive Reachable (name : String) (options : CircuitBreakerOptions E) : BreakerRun E R → Prop
  | made (now : ℤ) : Reachable name options (start name options Option.none now)
  | stepped {s s' : BreakerRun E R} {e : BreakerEvent E R} (hs : Reachable name options s)
      (h : s.step e = some s') : Reachable name options s'
  | restarted {s : BreakerRun E R} (hs : Reachable name options s) (now : ℤ) :
      Reachable name options (start name options s.cb.saved now)

/-- The test of `evictColdBreakersIfNeeded`, which the sweep's test implies. -/
def Evictable (s : BreakerRun E R) : Prop :=
  (s.cb.getStatus s.now).1.state = .CLOSED ∧ (s.cb.getStatus s.now).1.failureCount = 0

/-- No later run tells the breaker that is kept from one made anew on the row deleted. -/
def EvictionUnobservable (options : CircuitBreakerOptions E) (s : BreakerRun E R) : Prop :=
  Trace.Indistinguishable step observe (idle s.cb s.now : BreakerRun E R)
    (start s.cb.name options Option.none s.now)

variable {s : BreakerRun E R} {options : CircuitBreakerOptions E}

theorem step_sound {name : String} {s' : BreakerRun E R} {e : BreakerEvent E R}
    (hs : s.cb.Sound name options) (h : s.step e = some s') : s'.cb.Sound name options := by
  have hre := hs.refreshOpenState s.now
  cases e with
  | execute classifyResult =>
    have hb := hs.executeBegin s.now
    simp only [step] at h
    split at h
    all_goals
      next heq =>
      cases h
      rw [heq] at hb
      exact hb
  | resolve id r =>
    obtain ⟨f, -, rfl⟩ := map_eq_some_iff.1 h
    exact hs.executeResolve s.now r f.classifyResult
  | reject id error =>
    obtain ⟨f, -, rfl⟩ := map_eq_some_iff.1 h
    exact hs.executeReject s.now error
  | canExecute => exact some.inj h ▸ hre
  | getRetryAfterMs => exact some.inj h ▸ hre
  | getStatus => exact some.inj h ▸ hre.refreshOpenState s.now
  | reset => exact some.inj h ▸ hs.reset s.now
  | advance dt => exact some.inj h ▸ hs

theorem Reachable.sound {name : String} (h : Reachable name options s) :
    s.cb.Sound name options := by
  induction h with
  | made now =>
    have hnone : ∀ r, (none : Option CircuitBreakerStateRecord) = some r → r.durable.Sound options :=
      fun _ h => by cases h
    exact sound_create hnone
  | stepped _ h ih => exact step_sound ih h
  | restarted _ now ih => exact sound_create ih.saved

/-- Evictable is closed with no failures: the status call changes such a breaker in nothing. -/
theorem evictable_iff (s : BreakerRun E R) :
    s.Evictable ↔ s.cb.state = .CLOSED ∧ s.cb.failureCount = 0 := by
  have hstatus : (s.cb.getStatus s.now).1.state = (s.cb.refreshOpenState s.now).state ∧
      (s.cb.getStatus s.now).1.failureCount = (s.cb.refreshOpenState s.now).failureCount := by
    simp only [getStatus, getRetryAfterMs]
    rcases (s.cb.refreshOpenState s.now).refreshOpenState_cases s.now with h | ⟨h, h', -⟩
    · rw [h]
      exact ⟨rfl, rfl⟩
    · -- A breaker just refreshed is not due a second time at the same instant.
      exfalso
      unfold refreshOpenState at h
      split at h
      · cases h
      · next hne =>
        unfold refreshOpenState at h'
        rw [if_neg hne, if_neg hne] at h'
        rw [h] at h'
        cases h'
  unfold Evictable
  rw [hstatus.1, hstatus.2]
  rcases s.cb.refreshOpenState_cases s.now with h | ⟨hopen, hhalf, -⟩
  · rw [h]
  · simp [hopen, hhalf]

/-! ## Alike breakers run alike -/

/-- Two runs with the same calls in flight on alike breakers. -/
structure Twin (s t : BreakerRun E R) : Prop where
  now : s.now = t.now
  calls : s.calls = t.calls
  inFlight : s.inFlight = t.inFlight
  alike : Alike s.now s.cb t.cb

variable {t : BreakerRun E R}

theorem Twin.flight (h : Twin s t) (id : ℕ) : s.flight id = t.flight id := by
  unfold BreakerRun.flight
  rw [h.inFlight]

theorem Twin.land (h : Twin s t) (id : ℕ) {a b : CircuitBreaker E} (hab : Alike s.now a b) :
    Twin (s.land id a) (t.land id b) :=
  ⟨h.now, h.calls, by simp only [BreakerRun.land, h.inFlight], hab⟩

theorem Twin.with_cb (h : Twin s t) {a b : CircuitBreaker E} (hab : Alike s.now a b) :
    Twin { s with cb := a } { t with cb := b } :=
  ⟨h.now, h.calls, h.inFlight, hab⟩

theorem step_eq_none_iff (s : BreakerRun E R) (e : BreakerEvent E R) :
    s.step e = none ↔ ∃ id, s.flight id = none ∧
      ((∃ r, e = .resolve id r) ∨ ∃ error, e = .reject id error) := by
  cases e with
  | execute classifyResult =>
    simp only [step]
    split <;> simp
  | resolve id r => simp [step]
  | reject id error => simp [step]
  | _ => simp [step]

theorem twin_step {s' t' : BreakerRun E R} {e : BreakerEvent E R} (h : Twin s t)
    (hs : s.step e = some s') (ht : t.step e = some t') :
    observe s e s' = observe t e t' ∧ Twin s' t' := by
  have hnow := h.now
  have hal : Alike s.now s.cb t.cb := h.alike
  suffices hmain : s.reply e = t.reply e ∧ Twin s' t' from
    ⟨by unfold observe; rw [hmain.1, hmain.2.alike.state], hmain.2⟩
  cases e with
  | execute classifyResult =>
    obtain ⟨hout, hafter⟩ := hal.executeBegin
    have hreply : s.reply (.execute classifyResult) = t.reply (.execute classifyResult) := by
      simp only [reply, ← hnow, hout]
    refine ⟨hreply, ?_⟩
    simp only [step, ← hnow] at hs ht
    rcases hba : s.cb.executeBegin s.now with ⟨outA, a⟩
    rcases hbb : t.cb.executeBegin s.now with ⟨outB, b⟩
    rw [hba] at hs hout hafter
    rw [hbb] at ht hout hafter
    obtain rfl : outA = outB := hout
    cases outA with
    | error err =>
      cases hs
      cases ht
      exact ⟨rfl, h.calls, h.inFlight, hafter⟩
    | ok probe =>
      cases hs
      cases ht
      exact ⟨rfl, congrArg (· + 1) h.calls, by simp only [h.inFlight, h.calls], hafter⟩
  | resolve id r =>
    obtain ⟨f, hf, rfl⟩ := map_eq_some_iff.1 hs
    obtain ⟨g, hg, rfl⟩ := map_eq_some_iff.1 ht
    obtain rfl : f = g := some.inj (hf.symm.trans ((h.flight id).trans hg))
    exact ⟨rfl, hnow ▸ h.land id (hal.executeResolve r f.classifyResult)⟩
  | reject id error =>
    obtain ⟨f, hf, rfl⟩ := map_eq_some_iff.1 hs
    obtain ⟨g, hg, rfl⟩ := map_eq_some_iff.1 ht
    exact ⟨rfl, hnow ▸ h.land id (hal.executeReject error)⟩
  | canExecute =>
    cases hs
    cases ht
    exact ⟨by simp only [reply, ← hnow, hal.canExecute], hnow ▸ h.with_cb hal.refreshOpenState⟩
  | getRetryAfterMs =>
    cases hs
    cases ht
    exact ⟨by simp only [reply, ← hnow, hal.getRetryAfterMs], hnow ▸ h.with_cb hal.refreshOpenState⟩
  | getStatus =>
    cases hs
    cases ht
    exact ⟨rfl, hnow ▸ h.with_cb hal.refreshOpenState.refreshOpenState⟩
  | reset =>
    cases hs
    cases ht
    exact ⟨rfl, hnow ▸ h.with_cb hal.reset⟩
  | advance dt =>
    cases hs
    cases ht
    exact ⟨rfl, congrArg (· + (dt : ℤ)) hnow, h.calls, h.inFlight, hal.later dt⟩

theorem Twin.indistinguishable (h : Twin s t) : Trace.Indistinguishable step observe s t := by
  have hnone : ∀ (s t : BreakerRun E R) (e : BreakerEvent E R), Twin s t →
      (s.step e = none ↔ t.step e = none) := fun s t e hst => by
    rw [step_eq_none_iff, step_eq_none_iff]
    simp only [hst.flight]
  exact Trace.indistinguishable_of_bisimulation hnone (fun _ _ _ _ _ => twin_step) h

variable {cb : CircuitBreaker E}

/-- A cold breaker that is forgettable is alike to the one made anew. -/
theorem alike_of_forgettable {name : String} (hs : cb.Sound name options) (hst : cb.state = .CLOSED)
    (hcount : cb.failureCount = 0) (h : cb.Forgettable) (now : ℤ) :
    Alike now cb (create cb.name options none) := by
  have hname : cb.name = name := name_eq hs.configured
  have hcycle : cb.openCycleCount = 0 := hs.durable.settled (inl hst)
  exact
    { configured := hname ▸ hs.configured
      state := hst
      failureCount := hcount
      count_nonneg := by rw [hcount]
      slots := fun hhalf => by simp [hst] at hhalf
      failed := fun hopen => by simp [hst] at hopen
      hidden := by
        rcases h with hkinds | ⟨hone, hflat⟩
        · refine inr ⟨hcycle, fun k => ⟨hs.durable.count_nonneg k, le_rfl, ?_⟩⟩
          by_cases hpos : 0 < cb.kindCount k
          · exact inr fun kindConfig hk => hkinds k kindConfig hk hpos
          · have hnn : 0 ≤ cb.kindCount k := hs.durable.count_nonneg k
            have hzero : cb.kindCount k = 0 := by omega
            exact inl hzero
        · exact inl ⟨hone, hflat, by rw [hcycle], le_rfl⟩ }

/-! ## Telling breakers apart

A run that begins many calls while the breaker is closed can settle them later in any state. -/

/-- Calls in flight, from number `a` on, that resolve to the given outcomes. -/
def pendingCalls (a : ℕ) : List CircuitBreakerResultOutcome → List (Flight R)
  | [] => []
  | o :: os =>
      { id := a, probe := false, classifyResult := some fun _ => some o } :: pendingCalls (a + 1) os

variable {os : List CircuitBreakerResultOutcome}

theorem le_id_of_mem_pendingCalls {a : ℕ} {f : Flight R} (h : f ∈ pendingCalls a os) :
    a ≤ f.id := by
  induction os generalizing a with
  | nil => cases h
  | cons o os ih =>
    rcases mem_cons.1 h with rfl | h
    · exact le_refl a
    · exact le_of_succ_le (ih h)

/-- While the breaker is closed any number of calls is let through. -/
theorem exec_begin (hst : s.cb.state = .CLOSED) (os : List CircuitBreakerResultOutcome) :
    Trace.exec step s (os.map fun o => .execute (some fun _ => some o)) =
      some { s with
        calls := s.calls + os.length
        inFlight := s.inFlight ++ pendingCalls s.calls os } := by
  induction os generalizing s with
  | nil => simp [pendingCalls]
  | cons o os ih =>
    have hbegin : s.cb.executeBegin s.now = (.ok false, s.cb) := by
      simp [executeBegin, refreshOpenState, hst]
    have hstep : s.step (.execute (some fun _ => o)) = some { s with
        calls := s.calls + 1
        inFlight := s.inFlight ++
          [{ id := s.calls, probe := false, classifyResult := some fun _ => some o }] } := by
      simp only [step, hbegin]
    refine Trace.exec_cons.2 ⟨_, hstep, ?_⟩
    refine (ih (by exact hst)).trans ?_
    simp only [append_assoc, singleton_append, length_cons, pendingCalls]
    congr 2
    omega

variable {o : CircuitBreakerResultOutcome}

theorem flight_pending {a : ℕ} (h : s.inFlight = pendingCalls a (o :: os)) :
    s.flight a =
      some { id := a, probe := false, classifyResult := some fun _ => some o } := by
  simp [flight, h, pendingCalls]

/-- The run once its next call has landed on the breaker `cb`. -/
def landed (s : BreakerRun E R) (a : ℕ) (os : List CircuitBreakerResultOutcome)
    (cb : CircuitBreaker E) : BreakerRun E R :=
  { s with cb, inFlight := pendingCalls (a + 1) os }

@[simp] theorem landed_cb (s : BreakerRun E R) (a : ℕ) (os : List CircuitBreakerResultOutcome)
    (cb : CircuitBreaker E) : (s.landed a os cb).cb = cb := rfl

theorem land_pending {a : ℕ} (h : s.inFlight = pendingCalls a (o :: os)) (cb : CircuitBreaker E) :
    s.land a cb = s.landed a os cb := by
  have hrest : ∀ f ∈ (pendingCalls (a + 1) os : List (Flight R)), ¬ f.id = a := fun f hf => by
    have := le_id_of_mem_pendingCalls hf
    omega
  simp [land, landed, h, pendingCalls]
  exact hrest

/-- Two runs nothing has told apart yet, with the same calls in flight. -/
structure Rivals (s t : BreakerRun E R) (a : ℕ) (os : List CircuitBreakerResultOutcome) :
    Prop where
  same : Trace.Indistinguishable step observe s t
  now : s.now = t.now
  pending : s.inFlight = pendingCalls a os
  pending' : t.inFlight = pendingCalls a os
  configured : s.cb.configured = t.cb.configured

namespace Rivals

variable {s t : BreakerRun E R} {a : ℕ} {o : CircuitBreakerResultOutcome}
  {os : List CircuitBreakerResultOutcome}

theorem state_eq (h : Rivals s t a os) : s.cb.state = t.cb.state := by
  have hs : s.step (.advance 0) = some { s with now := s.now + (0 : ℕ) } := rfl
  have ht : t.step (.advance 0) = some { t with now := t.now + (0 : ℕ) } := rfl
  exact congrArg Prod.snd (h.same.out_eq hs ht)

/-- The next call lands on both breakers. -/
theorem lands (h : Rivals s t a (o :: os)) {e : BreakerEvent E R} {x y : CircuitBreaker E}
    (hs : s.step e = some (s.land a x)) (ht : t.step e = some (t.land a y))
    (hx : x.configured = s.cb.configured) (hy : y.configured = t.cb.configured) :
    Rivals (s.landed a os x) (t.landed a os y) (a + 1) os := by
  rw [land_pending h.pending] at hs
  rw [land_pending h.pending'] at ht
  exact ⟨h.same.after hs ht, h.now, rfl, rfl, hx.trans (h.configured.trans hy.symm)⟩

theorem step_resolve {s : BreakerRun E R} (h : s.inFlight = pendingCalls a (o :: os)) (r : R) :
    s.step (.resolve a r) =
      some (s.land a (s.cb.executeResolve s.now r (some fun _ => some o))) := by
  simp only [BreakerRun.step, flight_pending h, map_some]

theorem step_reject {s : BreakerRun E R} (h : s.inFlight = pendingCalls a (o :: os)) {error : E}
    (hf : s.cb.isFailure error = true) :
    s.step (.reject a error) =
      some (s.land a (s.cb.onFailure s.now (s.cb.classifyError.bind (· error)))) := by
  simp only [BreakerRun.step, flight_pending h, map_some, executeReject, hf, if_true]

theorem fail [Inhabited R] (h : Rivals s t a (.failure :: os)) :
    Rivals (s.landed a os (s.cb.onFailure s.now none)) (t.landed a os (t.cb.onFailure t.now none))
      (a + 1) os :=
  h.lands (step_resolve h.pending default) (step_resolve h.pending' default)
    (onFailure_configured _ _ _) (onFailure_configured _ _ _)

theorem succeed [Inhabited R] (h : Rivals s t a (.success :: os)) :
    Rivals (s.landed a os (s.cb.onSuccess s.now)) (t.landed a os (t.cb.onSuccess t.now))
      (a + 1) os :=
  h.lands (step_resolve h.pending default) (step_resolve h.pending' default)
    (onSuccess_configured _ _) (onSuccess_configured _ _)

/-- The next call rejects with an error of kind `k`. -/
theorem failKind (h : Rivals s t a (o :: os)) {k : FailureKind} {error : E}
    (hf : s.cb.isFailure error = true) (hk : s.cb.classifyError.bind (· error) = some k) :
    Rivals (s.landed a os (s.cb.onFailure s.now (some k)))
      (t.landed a os (t.cb.onFailure t.now (some k))) (a + 1) os := by
  have hs := step_reject h.pending hf
  have ht := step_reject h.pending' (isFailure_eq h.configured ▸ hf)
  rw [hk] at hs
  rw [← classifyError_eq h.configured, hk] at ht
  exact h.lands hs ht (onFailure_configured _ _ _) (onFailure_configured _ _ _)

/-- The clock moves on and both breakers look at it. -/
theorem wait (h : Rivals s t a os) (dt : ℕ) :
    Rivals { s with cb := s.cb.refreshOpenState (s.now + dt), now := s.now + dt }
      { t with cb := t.cb.refreshOpenState (t.now + dt), now := t.now + dt } a os := by
  have hs : Trace.exec step s [.advance dt, .canExecute] =
      some { s with cb := s.cb.refreshOpenState (s.now + dt), now := s.now + dt } := rfl
  have ht : Trace.exec step t [.advance dt, .canExecute] =
      some { t with cb := t.cb.refreshOpenState (t.now + dt), now := t.now + dt } := rfl
  refine ⟨h.same.exec hs ht, ?_, h.pending, h.pending', ?_⟩
  · simp only [h.now]
  · simp only [refreshOpenState_configured, h.configured]

end Rivals

/-- Calls that fail and succeed in turn. -/
def rounds : ℕ → List CircuitBreakerResultOutcome
  | 0 => []
  | n + 1 => .failure :: .success :: rounds n

variable {k : FailureKind} {kindConfig : FailureKindThresholds}

theorem trips_some (h : cb.kindThresholds k = some kindConfig) :
    cb.trips (some k) =
      decide (kindTripCount cb.failureThreshold kindConfig ≤ cb.kindCount k + 1) := by
  simp only [trips, h]

/-- A first failure that trips on nothing leaves the breaker closed or degraded. -/
theorem stateAfterFailure_of_closed (h : cb.state = .CLOSED ∨ cb.state = .DEGRADED)
    (hcount : cb.failureCount = 0) (hF : 1 < cb.failureThreshold) :
    cb.stateAfterFailure false = .CLOSED ∨ cb.stateAfterFailure false = .DEGRADED := by
  have hlow : ¬ cb.failureThreshold ≤ cb.failureCount + 1 := by omega
  rcases h with h | h
  · by_cases hd : cb.degradationThreshold ≤ cb.failureCount + 1
    · exact inr (by simp [stateAfterFailure, h, hlow, hd])
    · exact inl (by simp [stateAfterFailure, h, hlow, hd])
  · exact inr (by simp [stateAfterFailure, h, hlow])

/-- One breaker trips on the next failure and the other does not. -/
theorem Rivals.trip_differs {a : ℕ} (h : Rivals s t a (o :: os)) {error : E}
    (hf : s.cb.isFailure error = true) (hk : s.cb.classifyError.bind (· error) = some k)
    (htrip : s.cb.trips (some k) = true) (htrip' : t.cb.trips (some k) = false)
    (hclosed' : t.cb.state = .CLOSED ∨ t.cb.state = .DEGRADED) (ht : t.cb.failureCount = 0)
    (hF : 1 < t.cb.failureThreshold) : False := by
  obtain ⟨-, -, -, hsts, -⟩ := onFailure_fields s.now (some k) s.cb
  obtain ⟨-, -, -, hstt, -⟩ := onFailure_fields t.now (some k) t.cb
  have heq : (s.cb.onFailure s.now (some k)).state = (t.cb.onFailure t.now (some k)).state :=
    (h.failKind hf hk).state_eq
  have hopen : (s.cb.onFailure s.now (some k)).state = .OPEN := by
    rw [hsts, htrip]
    rfl
  rw [hopen, hstt, htrip'] at heq
  rcases stateAfterFailure_of_closed hclosed' ht hF with hst | hst <;> rw [hst] at heq <;> cases heq

/-- A failure that trips on nothing and a success leave a closed breaker closed or degraded with
no failures, and one more on the count of the kind. -/
theorem round_fields (now : ℤ)
    (hclosed : cb.state = .CLOSED ∨ cb.state = .DEGRADED) (hcount : cb.failureCount = 0)
    (hF : 1 < cb.failureThreshold) (htrip : cb.trips (some k) = false) :
    let cb' := (cb.onFailure now (some k)).onSuccess now
    (cb'.state = .CLOSED ∨ cb'.state = .DEGRADED) ∧ cb'.failureCount = 0 ∧
      cb'.kindCount k = cb.kindCount k + 1 := by
  obtain ⟨hc, -, -, hst, -⟩ := onFailure_fields now (some k) cb
  have hclosedF : (cb.onFailure now (some k)).state = .CLOSED ∨
      (cb.onFailure now (some k)).state = .DEGRADED := by
    rw [hst, htrip]
    exact stateAfterFailure_of_closed hclosed hcount hF
  obtain ⟨hc', hst', -, hk'⟩ := onSuccess_of_closed now hclosedF
  refine ⟨?_, ?_, ?_⟩
  · rw [hst']
    split
    · exact inl rfl
    · exact hclosedF
  · rw [hc', hc, hcount]
    rfl
  · rw [kindCount, hk']
    exact (kindCount_onFailure now (some k) cb k).trans (by rw [if_pos rfl])

/-- **The counts tell two breakers apart that do not open at their first failure.** One failure
of kind `k` and one success, over and over: the breaker that had failures of `k` on its count
opens first. The induction is on the rounds left until it does. -/
theorem Rivals.counts_differ [Inhabited R] {a n : ℕ}
    (h : Rivals s t a (rounds (n + 1))) {error : E} (hf : s.cb.isFailure error = true)
    (hk : s.cb.classifyError.bind (· error) = some k)
    (hconf : s.cb.kindThresholds k = some kindConfig)
    (hclosed : s.cb.state = .CLOSED ∨ s.cb.state = .DEGRADED) (hs : s.cb.failureCount = 0)
    (ht : t.cb.failureCount = 0) (hF : 1 < s.cb.failureThreshold)
    (hlt : t.cb.kindCount k < s.cb.kindCount k)
    (hroom : t.cb.kindCount k + 1 < kindTripCount s.cb.failureThreshold kindConfig)
    (hdue : kindTripCount s.cb.failureThreshold kindConfig ≤ s.cb.kindCount k + 1 + n) : False := by
  induction n generalizing s t a with
  | zero =>
    have hF' := failureThreshold_eq h.configured
    have hconf' : t.cb.kindThresholds k = some kindConfig := kindThresholds_eq h.configured ▸ hconf
    refine h.trip_differs hf hk ?_ ?_ (h.state_eq ▸ hclosed) ht (hF' ▸ hF)
    · rw [trips_some hconf, decide_eq_true_iff]
      omega
    · rw [trips_some hconf', ← hF', decide_eq_false_iff_not]
      omega
  | succ n ih =>
    have hF' := failureThreshold_eq h.configured
    have hconf' : t.cb.kindThresholds k = some kindConfig := kindThresholds_eq h.configured ▸ hconf
    have hclosed' : t.cb.state = .CLOSED ∨ t.cb.state = .DEGRADED := h.state_eq ▸ hclosed
    have htrip' : t.cb.trips (some k) = false := by
      rw [trips_some hconf', ← hF', decide_eq_false_iff_not]
      omega
    by_cases htrip : s.cb.trips (some k) = true
    · exact h.trip_differs hf hk htrip htrip' hclosed' ht (hF' ▸ hF)
    · rw [Bool.not_eq_true] at htrip
      have hnext := (h.failKind hf hk).succeed
      obtain ⟨hst, hc, hcountS⟩ := round_fields s.now hclosed hs hF htrip
      obtain ⟨-, hc', hcountT⟩ := round_fields t.now hclosed' ht (hF' ▸ hF) htrip'
      have hx : ((s.cb.onFailure s.now (some k)).onSuccess s.now).configured = s.cb.configured := by
        rw [onSuccess_configured, onFailure_configured]
      have hFx := failureThreshold_eq hx
      rw [trips_some hconf, decide_eq_false_iff_not] at htrip
      have hlt' : ((t.cb.onFailure t.now (some k)).onSuccess t.now).kindCount k <
          ((s.cb.onFailure s.now (some k)).onSuccess s.now).kindCount k := by
        rw [hcountS, hcountT]
        omega
      have hroom' : ((t.cb.onFailure t.now (some k)).onSuccess t.now).kindCount k + 1 <
          kindTripCount ((s.cb.onFailure s.now (some k)).onSuccess s.now).failureThreshold
            kindConfig := by
        rw [hcountT, hFx]
        omega
      have hdue' :
          kindTripCount ((s.cb.onFailure s.now (some k)).onSuccess s.now).failureThreshold
            kindConfig ≤ ((s.cb.onFailure s.now (some k)).onSuccess s.now).kindCount k + 1 + n := by
        rw [hcountS, hFx]
        omega
      exact ih hnext (isFailure_eq hx ▸ hf) (classifyError_eq hx ▸ hk)
        (kindThresholds_eq hx ▸ hconf) hst hc hc' (hFx ▸ hF) hlt' hroom' hdue'

/-! ## Telling the timeouts apart -/

/-- An open breaker becomes half-open after any wait that is long enough. -/
theorem exists_wait (cb : CircuitBreaker E) (hst : cb.state = .OPEN) (now : ℤ) :
    ∃ d : ℕ, ∀ dt : ℕ, d ≤ dt → (cb.refreshOpenState (now + dt)).state = .HALF_OPEN ∧
      (cb.refreshOpenState (now + dt)).openCycleCount = cb.openCycleCount ∧
      (cb.refreshOpenState (now + dt)).kindFailureCounts = cb.kindFailureCounts := by
  have hdue : ∃ d : ℕ, ∀ dt : ℕ, d ≤ dt → cb.shouldAttemptReset (now + dt) = true := by
    unfold shouldAttemptReset
    cases cb.failedAt with
    | none => exact ⟨0, fun _ _ => rfl⟩
    | some f =>
      refine ⟨(f + cb.effectiveCooldown - now).toNat, fun dt hdt => ?_⟩
      simp only [decide_eq_true_eq]
      omega
  obtain ⟨d, hd⟩ := hdue
  refine ⟨d, fun dt hdt => ?_⟩
  simp only [refreshOpenState, hst, hd dt hdt, and_self, if_true]
  exact ⟨rfl, rfl, rfl⟩

/-- A failure without a kind opens a half-open breaker with one more cycle, and leaves an open
one as it is. -/
theorem onFailure_none_cycle (now : ℤ) (h : cb.state = .OPEN ∨ cb.state = .HALF_OPEN) :
    (cb.onFailure now none).state = .OPEN ∧
      (cb.onFailure now none).openCycleCount =
        (if cb.state = .HALF_OPEN then cb.openCycleCount + 1 else cb.openCycleCount) := by
  obtain ⟨-, -, -, hst, hc⟩ := onFailure_fields now none cb
  have htrip : cb.trips none = false := rfl
  rw [hst, hc, htrip]
  rcases h with h | h <;> simp [stateAfterFailure, h]

/-- What an open breaker answers at the instant of a failure without a kind. -/
theorem getRetryAfterMs_of_open {now : ℤ} (hst : cb.state = .OPEN)
    (htime : cb.lastFailureTime = some now) (hkind : cb.lastFailureKind = none) (hnow : now ≠ 0) :
    (cb.getRetryAfterMs now).1 = max 0 cb.effectiveResetTimeout := by
  have hfailed : cb.failedAt = some now := by simp [failedAt, htime, hnow]
  have htime : cb.timeUntilReset now = max 0 cb.effectiveResetTimeout := by
    simp [timeUntilReset, hfailed, effectiveCooldown, hkind]
  by_cases hdue : cb.shouldAttemptReset now = true
  · simp only [getRetryAfterMs, refreshOpenState, hst, hdue, and_self, if_true]
    exact htime
  · rw [Bool.not_eq_true] at hdue
    simp only [getRetryAfterMs, refreshOpenState, hst, hdue, Bool.false_eq_true, and_false,
      if_false]
    exact htime

namespace Rivals

variable [Inhabited R] {s t : BreakerRun E R} {a n x : ℕ}

/-- Rivals that are open, one with a failed probe more than the other. -/
structure Drift (s t : BreakerRun E R) (a n x : ℕ) : Prop where
  rivals : Rivals s t a (List.replicate n .failure)
  isOpen : s.cb.state = .OPEN
  cycle : s.cb.openCycleCount = x
  cycle' : t.cb.openCycleCount = x + 1

/-- Both wait, and both probes fail. -/
theorem Drift.next (h : Drift s t a (n + 1) x) :
    ∃ s' t' : BreakerRun E R, Drift s' t' (a + 1) n (x + 1) ∧
      s'.cb.configured = s.cb.configured := by
  have hopen' : t.cb.state = .OPEN := h.rivals.state_eq ▸ h.isOpen
  obtain ⟨d, hd⟩ := exists_wait s.cb h.isOpen s.now
  obtain ⟨d', hd'⟩ := exists_wait t.cb hopen' t.now
  obtain ⟨hst, hc, -⟩ := hd (d + d') (le_add_right d d')
  obtain ⟨hst', hc', -⟩ := hd' (d + d') (le_add_left d' d)
  have hwait := h.rivals.wait (d + d')
  obtain ⟨hopen, hcycle⟩ := onFailure_none_cycle (s.now + (d + d' : ℕ)) (inr hst)
  obtain ⟨-, hcycle'⟩ := onFailure_none_cycle (t.now + (d + d' : ℕ)) (inr hst')
  refine ⟨_, _, ⟨hwait.fail, hopen, ?_, ?_⟩, ?_⟩
  · refine hcycle.trans ?_
    rw [if_pos hst, hc, h.cycle]
    rfl
  · refine hcycle'.trans ?_
    rw [if_pos hst', hc', h.cycle']
    rfl
  · exact (onFailure_configured _ _ _).trans (refreshOpenState_configured _ _)

/-- The timeout an open breaker shows once a failure without a kind has reached it. -/
theorem shown_timeout {cb : CircuitBreaker E} {now : ℤ} (hst : cb.state = .OPEN) (hnow : now ≠ 0)
    (hcycle : cb.openCycleCount = x) :
    ((cb.onFailure now none).getRetryAfterMs now).1 = max 0 (cb.timeoutAt x) := by
  obtain ⟨hopen, hc⟩ := onFailure_none_cycle now (inl hst)
  obtain ⟨-, hkind, -⟩ := onFailure_fields now none cb
  rw [if_neg (by simp [hst]), hcycle] at hc
  have hconf := onFailure_configured now none cb
  rw [getRetryAfterMs_of_open hopen (onFailure_lastFailureTime now none cb) hkind hnow,
    effectiveResetTimeout_eq_timeoutAt (hc ▸ Int.natCast_nonneg x), hc, timeoutAt_eq hconf]
  rfl

/-- One more failure, and what the two breakers answer shows their timeouts. -/
theorem Drift.timeouts (h : Drift s t a (n + 1) x) :
    max 0 (s.cb.timeoutAt x) = max 0 (s.cb.timeoutAt (x + 1)) := by
  have hopen' : t.cb.state = .OPEN := h.rivals.state_eq ▸ h.isOpen
  obtain ⟨dt, hdt⟩ : ∃ dt : ℕ, s.now + dt ≠ 0 := by
    by_cases h0 : s.now = 0
    · exact ⟨1, by omega⟩
    · exact ⟨0, by omega⟩
  have hs : s.step (.advance dt) = some { s with now := s.now + dt } := rfl
  have ht : t.step (.advance dt) = some { t with now := t.now + dt } := rfl
  have hlater : Rivals { s with now := s.now + dt } { t with now := t.now + dt } a
      (replicate (n + 1) .failure) :=
    ⟨h.rivals.same.after hs ht, congrArg (· + (dt : ℤ)) h.rivals.now, h.rivals.pending,
      h.rivals.pending', h.rivals.configured⟩
  have hout := congrArg Prod.fst
    (hlater.fail.same.out_eq (e := .getRetryAfterMs) rfl rfl)
  have hms : ((s.cb.onFailure (s.now + dt) none).getRetryAfterMs (s.now + dt)).1 =
      ((t.cb.onFailure (t.now + dt) none).getRetryAfterMs (t.now + dt)).1 :=
    BreakerReply.retryAfterMs.inj hout
  rw [shown_timeout h.isOpen hdt h.cycle,
    shown_timeout hopen' (h.rivals.now ▸ hdt) (x := x + 1) h.cycle'] at hms
  rw [hms, timeoutAt_eq h.rivals.configured]

/-- Rivals that drift apart with calls to spare show every step of the timeout. -/
theorem Drift.neverEscalates (h : Drift s t a (n + 1) x) (m : ℕ) (hm : m ≤ n) :
    max 0 (s.cb.timeoutAt (x + m)) = max 0 (s.cb.timeoutAt x) := by
  induction m generalizing s t a n x with
  | zero => rfl
  | succ m ih =>
    obtain ⟨n, rfl⟩ : ∃ k, n = k + 1 := ⟨n - 1, by omega⟩
    obtain ⟨s', t', hnext, hconf⟩ := h.next
    have := ih hnext (by omega)
    rw [timeoutAt_eq hconf, timeoutAt_eq hconf] at this
    rw [h.timeouts, ← this]
    congr 2
    omega

omit [Inhabited R] in
/-- Failures of a kind reach both breakers while they are open, and only count. -/
theorem count_open {m : ℕ} (h : Rivals s t a (List.replicate (m + n) .failure))
    {error : E} (hf : s.cb.isFailure error = true)
    (hk : s.cb.classifyError.bind (· error) = some k) (hopen : s.cb.state = .OPEN) :
    ∃ (a' : ℕ) (s' t' : BreakerRun E R), Rivals s' t' a' (List.replicate n .failure) ∧
      s'.cb.configured = s.cb.configured ∧ s'.cb.state = .OPEN ∧
      s'.cb.openCycleCount = s.cb.openCycleCount ∧ t'.cb.openCycleCount = t.cb.openCycleCount ∧
      s'.cb.kindCount k = s.cb.kindCount k + m ∧ t'.cb.kindCount k = t.cb.kindCount k + m := by
  induction m generalizing s t a with
  | zero =>
    rw [zero_add] at h
    exact ⟨a, s, t, h, rfl, hopen, rfl, rfl, by simp, by simp⟩
  | succ m ih =>
    have hopen' : t.cb.state = .OPEN := h.state_eq ▸ hopen
    rw [succ_add, replicate_succ] at h
    obtain ⟨-, -, -, hst, hc⟩ := onFailure_fields s.now (some k) s.cb
    obtain ⟨-, -, -, -, hc'⟩ := onFailure_fields t.now (some k) t.cb
    rw [if_neg (by simp [hopen])] at hc
    rw [if_neg (by simp [hopen'])] at hc'
    have hstate : (s.cb.onFailure s.now (some k)).state = .OPEN := by
      rw [hst]
      unfold stateAfterFailure
      split
      · rfl
      · simp [hopen]
    have hconf := onFailure_configured s.now (some k) s.cb
    obtain ⟨a', s', t', hr, hcf, hs', hcs, hct, hks, hkt⟩ :=
      ih (h.failKind hf hk) (isFailure_eq hconf ▸ hf) (classifyError_eq hconf ▸ hk) hstate
    have hkS := kindCount_onFailure s.now (some k) s.cb k
    have hkT := kindCount_onFailure t.now (some k) t.cb k
    rw [if_pos rfl] at hkS hkT
    refine ⟨a', s', t', hr, hcf.trans hconf, hs', hcs.trans hc, hct.trans hc', ?_, ?_⟩
    · refine hks.trans ?_
      show (s.cb.onFailure s.now (some k)).kindCount k + m = _
      rw [hkS]
      push_cast
      omega
    · refine hkt.trans ?_
      show (t.cb.onFailure t.now (some k)).kindCount k + m = _
      rw [hkT]
      push_cast
      omega

/-- **The counts set two breakers drifting that open at their first failure.** Both open; failures
of kind `k` bring the one to its threshold; the probe that fails next counts a cycle on the other
only. -/
theorem drift {m : ℕ} (h : Rivals s t a (List.replicate (m + 2 + n) .failure))
    {error : E} (hf : s.cb.isFailure error = true) (hk : s.cb.classifyError.bind (· error) = some k)
    (hconf : s.cb.kindThresholds k = some kindConfig) (hclosed : s.cb.state = .CLOSED)
    (hcount : s.cb.failureCount = 0) (hcycle : s.cb.openCycleCount = 0)
    (hcycle' : t.cb.openCycleCount = 0) (hF : s.cb.failureThreshold ≤ 1)
    (hdue : kindTripCount s.cb.failureThreshold kindConfig ≤ s.cb.kindCount k + m + 1)
    (hroom : t.cb.kindCount k + m + 1 < kindTripCount s.cb.failureThreshold kindConfig) :
    ∃ (a' : ℕ) (s' t' : BreakerRun E R), Drift s' t' a' n 0 ∧
      s'.cb.configured = s.cb.configured := by
  have hclosed' : t.cb.state = .CLOSED := h.state_eq ▸ hclosed
  -- Both open at once.
  obtain ⟨-, -, -, hst, hc⟩ := onFailure_fields s.now none s.cb
  obtain ⟨-, -, -, -, hc'⟩ := onFailure_fields t.now none t.cb
  rw [if_neg (by simp [hclosed])] at hc
  rw [if_neg (by simp [hclosed'])] at hc'
  rw [stateAfterFailure_of_le_one hF (by omega)] at hst
  have hkS := kindCount_onFailure s.now none s.cb k
  have hkT := kindCount_onFailure t.now none t.cb k
  have hsplit : replicate (m + 2 + n) CircuitBreakerResultOutcome.failure =
      .failure :: replicate (m + (n + 1)) .failure := by
    rw [← replicate_succ]
    congr 1
    omega
  have hconf1 := onFailure_configured s.now none s.cb
  rw [hsplit] at h
  obtain ⟨a', s', t', hr, hcf, hopen, hcs, hct, hks, hkt⟩ :=
    h.fail.count_open (isFailure_eq hconf1 ▸ hf) (classifyError_eq hconf1 ▸ hk) hst
  -- Both are half-open, and the next failure trips one of them.
  obtain ⟨d, hd⟩ := exists_wait s'.cb hopen s'.now
  obtain ⟨d', hd'⟩ := exists_wait t'.cb (hr.state_eq ▸ hopen) t'.now
  obtain ⟨hhalf, hcw, hkw⟩ := hd (d + d') (le_add_right d d')
  obtain ⟨hhalf', hcw', hkw'⟩ := hd' (d + d') (le_add_left d' d)
  have hwait := hr.wait (d + d')
  rw [replicate_succ] at hwait
  have hconf2 : (s'.cb.refreshOpenState (s'.now + (d + d' : ℕ))).configured = s.cb.configured :=
    (refreshOpenState_configured _ _).trans (hcf.trans hconf1)
  have hlast := hwait.failKind (isFailure_eq hconf2 ▸ hf) (classifyError_eq hconf2 ▸ hk)
  have hconf3 : (t'.cb.refreshOpenState (t'.now + (d + d' : ℕ))).configured = s.cb.configured :=
    hwait.configured.symm.trans hconf2
  have hcountS : (s'.cb.refreshOpenState (s'.now + (d + d' : ℕ))).kindCount k =
      s.cb.kindCount k + m := by
    rw [kindCount, hkw]
    refine hks.trans ?_
    rw [landed_cb, hkS]
    simp
  have hcountT : (t'.cb.refreshOpenState (t'.now + (d + d' : ℕ))).kindCount k =
      t.cb.kindCount k + m := by
    rw [kindCount, hkw']
    refine hkt.trans ?_
    rw [landed_cb, hkT]
    simp
  have htrip : (s'.cb.refreshOpenState (s'.now + (d + d' : ℕ))).trips (some k) = true := by
    rw [trips_some (kindThresholds_eq hconf2 ▸ hconf), failureThreshold_eq hconf2, hcountS,
      decide_eq_true_iff]
    omega
  have htrip' : (t'.cb.refreshOpenState (t'.now + (d + d' : ℕ))).trips (some k) = false := by
    rw [trips_some (kindThresholds_eq hconf3 ▸ hconf), failureThreshold_eq hconf3, hcountT,
      decide_eq_false_iff_not]
    omega
  obtain ⟨-, -, -, hstL, hcL⟩ := onFailure_fields (s'.now + (d + d' : ℕ)) (some k)
    (s'.cb.refreshOpenState (s'.now + (d + d' : ℕ)))
  obtain ⟨-, -, -, -, hcL'⟩ := onFailure_fields (t'.now + (d + d' : ℕ)) (some k)
    (t'.cb.refreshOpenState (t'.now + (d + d' : ℕ)))
  refine ⟨_, _, _, ⟨hlast, ?_, ?_, ?_⟩, ?_⟩
  · refine hstL.trans ?_
    rw [htrip]
    rfl
  · refine hcL.trans ?_
    rw [htrip, if_neg (fun hne => absurd hne.1 (by decide)), hcw, hcs]
    exact hc.trans hcycle
  · refine hcL'.trans ?_
    rw [if_pos ⟨htrip', hhalf'⟩, hcw', hct, landed_cb, hc', hcycle']
    rfl
  · exact (onFailure_configured _ _ _).trans hconf2

end Rivals

/-! ## The claim -/

/-- A cold breaker and the one made anew, when nothing tells them apart, with calls begun on
both. -/
theorem rivals_of_unobservable {name : String} (hs : s.cb.Sound name options)
    (hst : s.cb.state = .CLOSED) (h : EvictionUnobservable options s)
    (os : List CircuitBreakerResultOutcome) :
    ∃ u v : BreakerRun E R, Rivals u v 0 os ∧ u.cb = s.cb ∧
      v.cb = create s.cb.name options none := by
  have hu := exec_begin (s := (idle s.cb s.now : BreakerRun E R)) hst os
  have hv := exec_begin (s := (start s.cb.name options none s.now : BreakerRun E R)) rfl os
  have hname : s.cb.name = name := name_eq hs.configured
  refine ⟨_, _, ⟨h.exec hu hv, rfl, ?_, ?_, hname ▸ hs.configured⟩, rfl, rfl⟩
  · exact nil_append _
  · exact nil_append _

/-- Two rate limits in all open this breaker; every error is one. -/
def twoLimits : CircuitBreakerOptions Unit where
  classifyError := some fun _ => some .rate_limit
  kindThresholds := some fun k =>
    if k = .rate_limit then some { threshold := some 2 } else none

/-- One call that is rate limited and one that goes through. -/
def limitedOnce : BreakerRun Unit Unit where
  cb := ((create "p" twoLimits none).executeReject 1 ()).executeResolve 1 () none
  now := 1
  calls := 2
  inFlight := []

theorem limitedOnce_reachable : Reachable "p" twoLimits limitedOnce :=
  ((((Reachable.made 1).stepped (e := .execute none) rfl).stepped (e := .reject 0 ()) rfl).stepped
    (e := .execute none) rfl).stepped (e := .resolve 1 ()) rfl

end BreakerRun


end OmniRoute
