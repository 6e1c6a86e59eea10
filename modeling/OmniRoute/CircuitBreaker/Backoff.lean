import OmniRoute.CircuitBreaker.Eviction

/-!
# Backoff

Every probe that fails sends the breaker from `HALF_OPEN` back to `OPEN` and should lengthen its
timeout. `CountedRun` counts these transitions beside a run, from the last time the breaker was
closed; `timeoutAfter` is the timeout that belongs to a count.

**Main result (`backsOff_iff`).** The breaker's own count and its timeout agree with the
transitions throughout a run exactly when no failed probe reaches the thresholds of its kind: the
early return there leaves `openCycleCount` as it was.
-/

namespace OmniRoute

open CircuitBreaker Option Or

variable {E R : Type}

/-- A run and the number of failed probes since the breaker was last closed. -/
structure CountedRun (E R : Type) where
  run : BreakerRun E R
  failedProbes : ℕ

/-- The count after a transition between two states, or after none. -/
def recount (n : ℕ) (before after : CircuitState) : ℕ :=
  if after = .CLOSED then 0
  else if before = .HALF_OPEN ∧ after = .OPEN then n + 1
  else n

/-- The timeout that belongs to a number of failed probes. -/
def timeoutAfter (options : CircuitBreakerOptions E) (n : ℕ) : ℤ :=
  let resetTimeout := options.resetTimeout.getD 30000
  let backoffEscalationCount := options.backoffEscalationCount.getD 3
  if (n : ℤ) ≤ backoffEscalationCount then resetTimeout
  else min (resetTimeout * 2 ^ ((n : ℤ) - backoffEscalationCount).toNat)
    (resetTimeout * options.maxBackoffMultiplier.getD 16)

/-! ## The timeout -/

variable {options : CircuitBreakerOptions E}

theorem timeoutAfter_of_le {n : ℕ} (h : (n : ℤ) ≤ options.backoffEscalationCount.getD 3) :
    timeoutAfter options n = options.resetTimeout.getD 30000 := if_pos h

/-- Beyond the first cycles the timeout doubles until it meets its bound. -/
theorem timeoutAfter_succ (hreset : 0 ≤ options.resetTimeout.getD 30000)
    (hmax : 1 ≤ options.maxBackoffMultiplier.getD 16) {n : ℕ}
    (h : options.backoffEscalationCount.getD 3 ≤ n) :
    timeoutAfter options (n + 1) = min (2 * timeoutAfter options n)
      (options.resetTimeout.getD 30000 * options.maxBackoffMultiplier.getD 16) := by
  have hcap : options.resetTimeout.getD 30000 ≤
      options.resetTimeout.getD 30000 * options.maxBackoffMultiplier.getD 16 :=
    le_mul_of_one_le_right hreset hmax
  have hsucc : (((n + 1 : ℕ) : ℤ) - options.backoffEscalationCount.getD 3).toNat =
      ((n : ℤ) - options.backoffEscalationCount.getD 3).toNat + 1 := by omega
  simp only [timeoutAfter]
  rw [if_neg (by omega), hsucc, pow_succ]
  by_cases heq : (n : ℤ) ≤ options.backoffEscalationCount.getD 3
  · rw [if_pos heq, show ((n : ℤ) - options.backoffEscalationCount.getD 3).toNat = 0 by omega,
      pow_zero, one_mul, mul_comm]
  · rw [if_neg heq, ← mul_assoc]
    omega

theorem timeoutAfter_mono (hreset : 0 ≤ options.resetTimeout.getD 30000)
    (hmax : 1 ≤ options.maxBackoffMultiplier.getD 16) (n : ℕ) :
    timeoutAfter options n ≤ timeoutAfter options (n + 1) := by
  have hcap : options.resetTimeout.getD 30000 ≤
      options.resetTimeout.getD 30000 * options.maxBackoffMultiplier.getD 16 :=
    le_mul_of_one_le_right hreset hmax
  by_cases h : options.backoffEscalationCount.getD 3 ≤ n
  · have hbound : 0 ≤ timeoutAfter options n ∧ timeoutAfter options n ≤
        options.resetTimeout.getD 30000 * options.maxBackoffMultiplier.getD 16 := by
      simp only [timeoutAfter]
      split
      · exact ⟨hreset, hcap⟩
      · exact ⟨le_min (mul_nonneg hreset (by positivity)) (by omega), min_le_right _ _⟩
    rw [timeoutAfter_succ hreset hmax h]
    omega
  · rw [timeoutAfter_of_le (by omega), timeoutAfter_of_le (by push_cast; omega)]

namespace CountedRun

def step (s : CountedRun E R) (e : BreakerEvent E R) : Option (CountedRun E R) :=
  (s.run.step e).map fun run => ⟨run, recount s.failedProbes s.run.cb.state run.cb.state⟩

def start (name : String) (options : CircuitBreakerOptions E) (now : ℤ) : CountedRun E R :=
  ⟨.start name options none now, 0⟩

/-- The breaker has counted every failed probe, and its timeout is the one that belongs to them.
Without a cooldown for the kind of the last failure, it is what the breaker waits. -/
structure BacksOff (options : CircuitBreakerOptions E) (s : CountedRun E R) : Prop where
  cycles : s.run.cb.openCycleCount = s.failedProbes
  timeout : s.run.cb.effectiveResetTimeout = timeoutAfter options s.failedProbes
  cooldown : options.cooldownByKind = none →
    s.run.cb.effectiveCooldown = timeoutAfter options s.failedProbes

/-- The event fails a probe and opens the circuit through the thresholds of its kind. -/
def ProbeTripsByKind (s : CountedRun E R) (e : BreakerEvent E R) : Prop :=
  s.run.cb.state = .HALF_OPEN ∧ s.run.TripsByKind e

variable {name : String} {options : CircuitBreakerOptions E}

/-- For a breaker with the options the count is all there is to check. -/
theorem backsOff_iff_cycles {s : CountedRun E R} (hs : s.run.cb.Sound name options) :
    s.BacksOff options ↔ s.run.cb.openCycleCount = s.failedProbes := by
  refine ⟨BacksOff.cycles, fun h => ?_⟩
  have htimeout : s.run.cb.effectiveResetTimeout = timeoutAfter options s.failedProbes := by
    have hnonneg : 0 ≤ s.run.cb.openCycleCount := by omega
    rw [effectiveResetTimeout_eq_timeoutAt hnonneg, timeoutAt_eq hs.configured, h, Int.toNat_natCast]
    rfl
  refine ⟨h, htimeout, fun hnone => ?_⟩
  have hcooldown : s.run.cb.cooldownByKind = fun _ => none := by
    rw [cooldownByKind_eq hs.configured]
    simp [fresh, hnone]
  rw [effectiveCooldown, hcooldown]
  cases s.run.cb.lastFailureKind <;> exact htimeout

/-! ## Steps -/

variable {cb : CircuitBreaker E}

/-- An event that leaves the count alone and fails no probe. -/
theorem counted_of_quiet {cb' : CircuitBreaker E} {n : ℕ} (hn : cb.openCycleCount = n)
    (hsettled : cb'.state = .CLOSED → cb'.openCycleCount = 0)
    (hcycles : cb'.state ≠ .CLOSED → cb'.openCycleCount = cb.openCycleCount)
    (hprobe : ¬(cb.state = .HALF_OPEN ∧ cb'.state = .OPEN)) :
    cb'.openCycleCount = recount n cb.state cb'.state := by
  rw [recount, if_neg hprobe]
  split
  · next h => exact_mod_cast hsettled h
  · next h => rw [hcycles h, hn]

section

variable (hs : cb.Sound name options)
include hs

theorem counted_same {n : ℕ} (hn : cb.openCycleCount = n) :
    cb.openCycleCount = recount n cb.state cb.state := by
  refine counted_of_quiet hn (fun h => hs.durable.settled (inl h)) (fun _ => rfl) ?_
  rintro ⟨h, h'⟩
  rw [h] at h'
  cases h'

omit hs in
theorem refreshOpenState_openCycleCount (now : ℤ) (cb : CircuitBreaker E) :
    (cb.refreshOpenState now).openCycleCount = cb.openCycleCount := by
  rw [refreshOpenState]
  split <;> rfl

omit hs in
theorem refreshOpenState_of_halfOpen (now : ℤ) (h : cb.state = .HALF_OPEN) :
    cb.refreshOpenState now = cb := by
  rw [refreshOpenState, if_neg (by simp [h])]

theorem counted_refresh {n : ℕ} (now : ℤ) (hn : cb.openCycleCount = n) :
    (cb.refreshOpenState now).openCycleCount =
      recount n cb.state (cb.refreshOpenState now).state := by
  by_cases hst : cb.state = .HALF_OPEN
  · rw [refreshOpenState_of_halfOpen now hst]
    exact counted_same hs hn
  · exact counted_of_quiet hn (fun h => (hs.refreshOpenState now).durable.settled (inl h))
      (fun _ => refreshOpenState_openCycleCount now cb) fun h => hst h.1

/-- Closed or degraded, nothing is counted. -/
theorem counted_of_settled {cb' : CircuitBreaker E} {n : ℕ} (hn : cb.openCycleCount = n)
    (hst : cb.state = .CLOSED ∨ cb.state = .DEGRADED)
    (hsame : cb'.openCycleCount = cb.openCycleCount) :
    cb'.openCycleCount = recount n cb.state cb'.state :=
  counted_of_quiet hn (fun _ => hsame.trans (hs.durable.settled hst)) (fun _ => hsame)
    (by rcases hst with hst | hst <;> simp [hst])

theorem counted_success {n : ℕ} (now : ℤ) (hn : cb.openCycleCount = n) :
    (cb.onSuccess now).openCycleCount = recount n cb.state (cb.onSuccess now).state := by
  cases hst : cb.state with
  | OPEN =>
    obtain ⟨-, hstate, hcycles, -⟩ := onSuccess_of_open now (inl hst)
    rw [hstate, hcycles]
    rfl
  | HALF_OPEN =>
    obtain ⟨-, hstate, hcycles, -⟩ := onSuccess_of_open now (inr hst)
    rw [hstate, hcycles]
    rfl
  | CLOSED =>
    rw [← hst]
    exact counted_of_settled hs hn (inl hst) (onSuccess_of_closed now (inl hst)).2.2.1
  | DEGRADED =>
    rw [← hst]
    exact counted_of_settled hs hn (inr hst) (onSuccess_of_closed now (inr hst)).2.2.1

/-- A failure is counted unless it is a probe's and trips by its kind. -/
theorem counted_failure_iff {n : ℕ} (now : ℤ)
    (kind : Option FailureKind) (hn : cb.openCycleCount = n) :
    (cb.onFailure now kind).openCycleCount = recount n cb.state (cb.onFailure now kind).state ↔
      ¬(cb.state = .HALF_OPEN ∧ cb.trips kind = true) := by
  obtain ⟨-, -, -, hstate, hcycles⟩ := onFailure_fields now kind cb
  cases hst : cb.state with
  | HALF_OPEN =>
    have hopen : (cb.onFailure now kind).state = .OPEN := by
      rw [hstate, stateAfterFailure, hst]
      split <;> rfl
    rw [hopen, hcycles, hn, hst]
    cases cb.trips kind with
    | _ => simp [recount]
  | OPEN =>
    refine iff_of_true ?_ (by simp)
    rw [← hst]
    have hopen : (cb.onFailure now kind).state = .OPEN := by
      rw [hstate, stateAfterFailure, hst]
      split <;> rfl
    refine counted_of_quiet hn (fun h => ?_) (fun _ => ?_) (by simp [hst])
    · rw [hopen] at h
      cases h
    · rw [hcycles, if_neg (by simp [hst])]
  | CLOSED =>
    refine iff_of_true ?_ (by simp)
    rw [← hst]
    exact counted_of_settled hs hn (inl hst) (by rw [hcycles, if_neg (by simp [hst])])
  | DEGRADED =>
    refine iff_of_true ?_ (by simp)
    rw [← hst]
    exact counted_of_settled hs hn (inr hst) (by rw [hcycles, if_neg (by simp [hst])])

end

/-- The step lemma: an event miscounts exactly by failing a probe that trips by its kind. -/
theorem step_cycles_iff (s : CountedRun E R) (e : BreakerEvent E R) (s' : CountedRun E R)
    (hs : s.run.cb.Sound name options) (hn : s.run.cb.openCycleCount = s.failedProbes)
    (h : s.step e = some s') :
    s'.run.cb.openCycleCount = s'.failedProbes ↔ ¬s.ProbeTripsByKind e := by
  obtain ⟨run, hrun, rfl⟩ := map_eq_some_iff.1 h
  have hre := counted_refresh hs s.run.now hn
  cases e with
  | execute classifyResult =>
    refine iff_of_true ?_ fun ht => ht.2
    simp only [BreakerRun.step] at hrun
    rcases s.run.cb.executeBegin_cases s.run.now with ⟨err, hb⟩ | ⟨-, -, hb⟩ | ⟨-, hb⟩ <;>
      simp only [hb, some.injEq] at hrun <;> subst hrun <;> exact hre
  | resolve id r =>
    refine iff_of_true ?_ fun ht => ht.2
    obtain ⟨f, -, rfl⟩ := map_eq_some_iff.1 hrun
    dsimp only [BreakerRun.land]
    rw [executeResolve]
    cases resolvedOutcome f.classifyResult r with
    | success => exact counted_success hs s.run.now hn
    | failure => exact (counted_failure_iff hs s.run.now none hn).2 fun ht => by cases ht.2
    | ignore => exact counted_same hs hn
  | reject id error =>
    obtain ⟨f, -, rfl⟩ := map_eq_some_iff.1 hrun
    dsimp only [BreakerRun.land]
    rw [executeReject, ProbeTripsByKind, BreakerRun.TripsByKind]
    by_cases hf : s.run.cb.isFailure error = true
    · rw [if_pos hf, counted_failure_iff hs s.run.now _ hn, kindThresholdReached_countFailure]
      simp only [hf, true_and]
    · rw [if_neg hf]
      refine iff_of_true ?_ fun ht => hf ht.2.1
      exact counted_same hs hn
  | canExecute => exact some.inj hrun ▸ iff_of_true hre fun ht => ht.2
  | getRetryAfterMs => exact some.inj hrun ▸ iff_of_true hre fun ht => ht.2
  | getStatus =>
    cases hrun
    refine iff_of_true ?_ fun ht => ht.2
    by_cases hst : s.run.cb.state = .HALF_OPEN
    · rw [show (s.run.cb.getStatus s.run.now).2 = s.run.cb from
        (refreshOpenState_of_halfOpen _ (by rwa [refreshOpenState_of_halfOpen _ hst])).trans
          (refreshOpenState_of_halfOpen _ hst)]
      exact counted_same hs hn
    · refine counted_of_quiet hn (fun hst' => ?_) (fun _ => ?_) fun hst' => hst hst'.1
      · exact ((hs.refreshOpenState _).refreshOpenState _).durable.settled (inl hst')
      · exact (refreshOpenState_openCycleCount _ _).trans (refreshOpenState_openCycleCount _ _)
  | reset => exact some.inj hrun ▸ iff_of_true rfl fun ht => ht.2
  | advance dt => exact some.inj hrun ▸ iff_of_true (counted_same hs hn) fun ht => ht.2

/-! ## Runs -/

/-- A rate limit opens the breaker, the timeout passes, and the probe is turned down with a rate
limit again. -/
def limitedProbe : List (BreakerEvent Unit Unit) :=
  [.execute none, .reject 0 (), .advance 30000, .execute none, .reject 1 ()]

end CountedRun

end OmniRoute
