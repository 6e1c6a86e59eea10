import OmniRoute.CircuitBreaker.Probes

/-!
# The stored row of a circuit breaker

`_persistToDb` is called by hand at the end of the methods that move the breaker. This file asks
whether the row of `domain_circuit_breakers` keeps up with the object: whether after every event
of a run it holds the six values the breaker would be restored with, so that a breaker made anew
under the same name and options takes up where this one stands.

**Main result (`faithful_iff`).** It does exactly as long as no failure opens the circuit through
the thresholds of its own kind. Those two branches of `_onFailure` return before the write.
-/

namespace OmniRoute

variable {E R : Type}

/-! ## The values a breaker is restored with -/

/-- The values of a breaker that outlive its process. -/
structure DurableState where
  state : CircuitState
  failureCount : ℤ
  lastFailureTime : Option ℤ
  lastFailureKind : Option FailureKind
  openCycleCount : ℤ
  kindFailureCounts : FailureKind → Option ℤ

/-- The values of a breaker nothing has happened to. -/
def DurableState.initial : DurableState where
  state := .CLOSED
  failureCount := 0
  lastFailureTime := none
  lastFailureKind := none
  openCycleCount := 0
  kindFailureCounts := fun _ => none

def CircuitBreakerStateRecord.durable (row : CircuitBreakerStateRecord) : DurableState where
  state := row.state
  failureCount := row.failureCount
  lastFailureTime := row.lastFailureTime
  lastFailureKind := row.lastFailureKind
  openCycleCount := row.openCycleCount
  kindFailureCounts := row.kindFailureCounts

namespace CircuitBreaker

def durable (cb : CircuitBreaker E) : DurableState where
  state := cb.state
  failureCount := cb.failureCount
  lastFailureTime := cb.lastFailureTime
  lastFailureKind := cb.lastFailureKind
  openCycleCount := cb.openCycleCount
  kindFailureCounts := cb.kindFailureCounts

/-- The stored row holds the breaker's values; without a row the breaker is as it was made. -/
def InSync (cb : CircuitBreaker E) : Prop :=
  match cb.saved with
  | none => cb.durable = .initial
  | some row => row.durable = cb.durable

theorem inSync_persistToDb (cb : CircuitBreaker E) : cb.persistToDb.InSync := rfl

variable {cb : CircuitBreaker E}

theorem InSync.of_eq {cb' : CircuitBreaker E} (h : cb.InSync) (hd : cb'.durable = cb.durable)
    (hs : cb'.saved = cb.saved) : cb'.InSync := by
  unfold InSync at h ⊢
  rw [hs, hd]
  exact h

/-- A row read back restores the values it holds, a failure at time 0 apart. -/
theorem create_durable (name : String) (options : CircuitBreakerOptions E)
    {row : CircuitBreakerStateRecord} (hrow : row.lastFailureTime ≠ some 0) :
    (create name options (some row)).durable = row.durable := by
  have hfilter : row.lastFailureTime.filter (· ≠ 0) = row.lastFailureTime := by
    cases ht : row.lastFailureTime with
    | none => rfl
    | some t =>
      have hne : t ≠ 0 := fun h0 => hrow (h0 ▸ ht)
      simp [hne]
  unfold create restoreFromDb
  dsimp only [fresh]
  split <;> simp only [durable, restoreRow, CircuitBreakerStateRecord.durable, hfilter]

/-- A breaker in sync is restored as it stands. -/
theorem InSync.restored (h : cb.InSync) (hstamp : cb.lastFailureTime ≠ some 0)
    (options : CircuitBreakerOptions E) :
    (create cb.name options cb.saved).durable = cb.durable := by
  unfold InSync at h
  cases hs : cb.saved with
  | none =>
    rw [hs] at h
    exact h.symm
  | some row =>
    rw [hs] at h
    have hrow : row.lastFailureTime = cb.lastFailureTime := congrArg DurableState.lastFailureTime h
    rw [create_durable cb.name options (hrow ▸ hstamp), h]

/-! ## What the methods write -/

theorem refreshOpenState_inSync (h : cb.InSync) (now : ℤ) : (cb.refreshOpenState now).InSync := by
  unfold refreshOpenState
  split
  · exact inSync_persistToDb _
  · exact h

theorem executeBegin_inSync (h : cb.InSync) (now : ℤ) : (cb.executeBegin now).2.InSync := by
  have hr := refreshOpenState_inSync h now
  rcases cb.executeBegin_cases now with ⟨_, hb⟩ | ⟨-, -, hb⟩ | ⟨-, hb⟩ <;> rw [hb]
  · exact hr
  · exact hr.of_eq rfl rfl
  · exact hr

theorem onSuccess_inSync (now : ℤ) (cb : CircuitBreaker E) : (cb.onSuccess now).InSync := by
  unfold onSuccess
  split
  · exact inSync_persistToDb _
  · exact inSync_persistToDb _
  all_goals
    dsimp only
    split <;> exact inSync_persistToDb _

/-- A failure is written down exactly when the thresholds of its kind do not open the circuit. -/
theorem onFailure_inSync_iff (h : cb.InSync) (now : ℤ) (kind : Option FailureKind) :
    (cb.onFailure now kind).InSync ↔
      (cb.countFailure now kind).kindThresholdReached kind = false := by
  simp only [onFailure]
  by_cases hk : (cb.countFailure now kind).kindThresholdReached kind = true
  · rw [if_pos hk, hk]
    refine ⟨fun hsync => ?_, fun hf => absurd hf (by decide)⟩
    -- The row still holds the count from before this failure.
    have hcount : cb.failureCount = cb.failureCount + 1 := by
      have hs : ((cb.countFailure now kind).openCircuit now kind).saved = cb.saved := rfl
      unfold InSync at h hsync
      rw [hs] at hsync
      cases hsaved : cb.saved with
      | none =>
        rw [hsaved] at h hsync
        exact congrArg DurableState.failureCount (h.trans hsync.symm)
      | some row =>
        rw [hsaved] at h hsync
        exact congrArg DurableState.failureCount (h.symm.trans hsync)
    omega
  · rw [if_neg hk]
    exact ⟨fun _ => by simpa using hk, fun _ => inSync_persistToDb _⟩

/-- A failure that carries no kind is always written down. -/
theorem onFailure_none_inSync (h : cb.InSync) (now : ℤ) : (cb.onFailure now none).InSync :=
  (onFailure_inSync_iff h now none).2 rfl

/-! ## Failure times -/

/-- No failure is recorded at time 0, which reads back as no failure at all. -/
def Stamped (cb : CircuitBreaker E) : Prop := cb.lastFailureTime ≠ some 0

theorem Stamped.refreshOpenState (h : cb.Stamped) (now : ℤ) :
    (cb.refreshOpenState now).Stamped := by
  unfold CircuitBreaker.refreshOpenState
  split <;> exact h

theorem Stamped.executeBegin (h : cb.Stamped) (now : ℤ) : (cb.executeBegin now).2.Stamped := by
  have hr := h.refreshOpenState now
  rcases cb.executeBegin_cases now with ⟨_, hb⟩ | ⟨-, -, hb⟩ | ⟨-, hb⟩ <;> rw [hb] <;> exact hr

theorem stamped_none (h : cb.lastFailureTime = none) : cb.Stamped := by
  intro ht
  rw [h] at ht
  cases ht

theorem Stamped.onSuccess (h : cb.Stamped) (now : ℤ) : (cb.onSuccess now).Stamped := by
  unfold CircuitBreaker.onSuccess
  split
  · exact stamped_none rfl
  · exact h
  all_goals
    dsimp only
    split <;> exact h

theorem escalate_lastFailureTime (now : ℤ) (kind : Option FailureKind) (cb : CircuitBreaker E) :
    (cb.escalate now kind).lastFailureTime = cb.lastFailureTime := by
  unfold escalate
  split
  · rfl
  · rfl
  · split <;> rfl
  · split
    · rfl
    · split <;> rfl

/-- A counted failure is stamped with the time it is counted at. -/
theorem onFailure_lastFailureTime (now : ℤ) (kind : Option FailureKind) (cb : CircuitBreaker E) :
    (cb.onFailure now kind).lastFailureTime = some now := by
  simp only [onFailure]
  split
  · rfl
  · exact escalate_lastFailureTime now kind _

theorem stamped_onFailure {now : ℤ} (hnow : 0 < now) (kind : Option FailureKind)
    (cb : CircuitBreaker E) : (cb.onFailure now kind).Stamped := by
  intro h
  rw [onFailure_lastFailureTime] at h
  have := Option.some.inj h
  omega

end CircuitBreaker

/-! ## Runs -/

namespace BreakerRun

open CircuitBreaker Option

/-- The row and the breaker agree, and a breaker made from the row stands where this one does. -/
structure Faithful (options : CircuitBreakerOptions E) (s : BreakerRun E R) : Prop where
  written : s.cb.InSync
  restored : (create s.cb.name options s.cb.saved).durable = s.cb.durable

/-- The event settles a call with a failure that opens the circuit through the thresholds of its
own kind. -/
def TripsByKind (s : BreakerRun E R) : BreakerEvent E R → Prop
  | .reject _ error =>
      let kind := s.cb.classifyError.bind (· error)
      s.cb.isFailure error = true ∧ (s.cb.countFailure s.now kind).kindThresholdReached kind = true
  | _ => False

/-- The clock has left 0 behind, and so has the recorded failure. -/
structure Clocked (s : BreakerRun E R) : Prop where
  now_pos : 0 < s.now
  stamped : s.cb.Stamped

theorem faithful_iff_inSync {s : BreakerRun E R} (hs : s.Clocked)
    (options : CircuitBreakerOptions E) : s.Faithful options ↔ s.cb.InSync :=
  ⟨Faithful.written, fun h => ⟨h, h.restored hs.stamped options⟩⟩

theorem clocked_executeResolve {s : BreakerRun E R} (hs : s.Clocked) (r : R)
    (classifyResult : Option (R → Option CircuitBreakerResultOutcome)) :
    (s.cb.executeResolve s.now r classifyResult).Stamped := by
  unfold executeResolve
  cases resolvedOutcome classifyResult r with
  | success => exact hs.stamped.onSuccess s.now
  | failure => exact stamped_onFailure hs.now_pos none s.cb
  | ignore => exact hs.stamped

theorem clocked_executeReject {s : BreakerRun E R} (hs : s.Clocked) (error : E) :
    (s.cb.executeReject s.now error).Stamped := by
  unfold executeReject
  split
  · exact stamped_onFailure hs.now_pos _ s.cb
  · exact hs.stamped

theorem step_clocked (s : BreakerRun E R) (e : BreakerEvent E R) (s' : BreakerRun E R)
    (hs : s.Clocked) (h : s.step e = some s') : s'.Clocked := by
  have hre := hs.stamped.refreshOpenState s.now
  cases e with
  | execute classifyResult =>
    have hb := hs.stamped.executeBegin s.now
    simp only [step] at h
    split at h
    all_goals
      next heq =>
      cases h
      rw [heq] at hb
      exact ⟨hs.now_pos, hb⟩
  | resolve id r =>
    obtain ⟨f, -, rfl⟩ := Option.map_eq_some_iff.1 h
    exact ⟨hs.now_pos, clocked_executeResolve hs r f.classifyResult⟩
  | reject id error =>
    obtain ⟨f, -, rfl⟩ := Option.map_eq_some_iff.1 h
    exact ⟨hs.now_pos, clocked_executeReject hs error⟩
  | canExecute => exact some.inj h ▸ ⟨hs.now_pos, hre⟩
  | getRetryAfterMs => exact some.inj h ▸ ⟨hs.now_pos, hre⟩
  | getStatus => exact some.inj h ▸ ⟨hs.now_pos, hre.refreshOpenState s.now⟩
  | reset => exact some.inj h ▸ ⟨hs.now_pos, stamped_none rfl⟩
  | advance dt =>
    have := hs.now_pos
    exact some.inj h ▸ ⟨by dsimp only; omega, hs.stamped⟩

theorem executeResolve_inSync {cb : CircuitBreaker E} (h : cb.InSync) (now : ℤ) (r : R)
    (classifyResult : Option (R → Option CircuitBreakerResultOutcome)) :
    (cb.executeResolve now r classifyResult).InSync := by
  unfold executeResolve
  cases resolvedOutcome classifyResult r with
  | success => exact onSuccess_inSync now cb
  | failure => exact onFailure_none_inSync h now
  | ignore => exact h

/-- The step lemma: an event leaves the row behind exactly by tripping on a kind. -/
theorem step_inSync_iff (s : BreakerRun E R) (e : BreakerEvent E R) (s' : BreakerRun E R)
    (hs : s.cb.InSync) (h : s.step e = some s') : s'.cb.InSync ↔ ¬ s.TripsByKind e := by
  have hre := refreshOpenState_inSync hs s.now
  cases e with
  | execute classifyResult =>
    have hb := executeBegin_inSync hs s.now
    simp only [step] at h
    split at h
    all_goals
      next heq =>
      cases h
      rw [heq] at hb
      exact iff_of_true hb fun ht => ht
  | resolve id r =>
    obtain ⟨f, -, rfl⟩ := Option.map_eq_some_iff.1 h
    exact iff_of_true (executeResolve_inSync hs s.now r f.classifyResult) fun ht => ht
  | reject id error =>
    obtain ⟨f, -, rfl⟩ := Option.map_eq_some_iff.1 h
    show (s.cb.executeReject s.now error).InSync ↔ _
    unfold executeReject TripsByKind
    by_cases hf : s.cb.isFailure error = true
    · simp only [hf, if_true, true_and, Bool.not_eq_true]
      exact onFailure_inSync_iff hs s.now _
    · rw [if_neg hf]
      exact iff_of_true hs fun ht => hf ht.1
  | canExecute => exact some.inj h ▸ iff_of_true hre fun ht => ht
  | getRetryAfterMs => exact some.inj h ▸ iff_of_true hre fun ht => ht
  | getStatus =>
    exact some.inj h ▸ iff_of_true (refreshOpenState_inSync hre s.now) fun ht => ht
  | reset => exact some.inj h ▸ iff_of_true (inSync_persistToDb _) fun ht => ht
  | advance dt => exact some.inj h ▸ iff_of_true hs fun ht => ht

/-- What holds of a breaker as it is made, from any row whose failure time is not 0. -/
theorem start_clocked (name : String) (options : CircuitBreakerOptions E)
    {row : Option CircuitBreakerStateRecord} {now : ℤ} (hnow : 0 < now)
    (hrow : ∀ r, row = some r → r.lastFailureTime ≠ some 0) :
    (start name options row now : BreakerRun E R).Clocked ∧
      (start name options row now : BreakerRun E R).cb.InSync := by
  cases row with
  | none => exact ⟨⟨hnow, stamped_none rfl⟩, rfl⟩
  | some r =>
    have hd := create_durable name options (hrow r rfl)
    have hsaved : (create name options (some r)).saved = some r := by
      unfold create restoreFromDb
      dsimp only [fresh]
      split <;> rfl
    refine ⟨⟨hnow, fun ht => hrow r rfl ?_⟩, ?_⟩
    · exact (congrArg DurableState.lastFailureTime hd).symm.trans ht
    · show (create name options (some r)).InSync
      unfold InSync
      rw [hsaved]
      exact hd.symm

/-- **The stored row follows the breaker exactly while no failure trips it by its kind.** The
run may start from any stored row and interleave calls, outcomes, resets and clock steps in any
order. -/
theorem faithful_iff (name : String) (options : CircuitBreakerOptions E)
    (row : Option CircuitBreakerStateRecord) (now : ℤ) (hnow : 0 < now)
    (hrow : ∀ r, row = some r → r.lastFailureTime ≠ some 0) (es : List (BreakerEvent E R)) :
    Trace.Throughout step (Faithful options) (start name options row now) es ↔
      Trace.Meets step (fun s e => ¬ s.TripsByKind e) (start name options row now) es := by
  obtain ⟨hclock, hsync⟩ := start_clocked (R := R) name options hnow hrow
  refine Trace.throughout_iff_meets step_clocked (fun s e s' hs hf h => ?_) es hclock
    ((faithful_iff_inSync hclock options).2 hsync)
  rw [faithful_iff_inSync (step_clocked s e s' hs h)]
  exact step_inSync_iff s e s' hf.written h

/-- Rate limits open this breaker at once; every error is one. -/
def rateLimited : CircuitBreakerOptions Unit where
  classifyError := some fun _ => some .rate_limit
  kindThresholds := some fun k =>
    if k = .rate_limit then some { threshold := some 1, immediateOpen := true } else none

/-- One call, turned down with a rate limit. -/
def limitedCall : List (BreakerEvent Unit Unit) := [.execute none, .reject 0 ()]

theorem faithful_iff_limitedCall :
    (0 < (1 : ℤ) ∧ ∀ r, (none : Option CircuitBreakerStateRecord) = some r →
        r.lastFailureTime ≠ some 0) ∧
      (Trace.Throughout step (Faithful rateLimited) (start "p" rateLimited none 1) limitedCall ↔
        Trace.Meets step (fun s e => ¬ s.TripsByKind e) (start "p" rateLimited none 1)
          limitedCall) :=
  ⟨⟨by decide, fun _ h => by cases h⟩,
    faithful_iff "p" rateLimited none 1 (by decide) (fun _ h => by cases h) limitedCall⟩

/-- **A breaker opened by a rate limit is stored nowhere**: a breaker made anew is closed. -/
theorem limitedCall_unsaved :
    ∃ s, Trace.exec step (start "p" rateLimited none 1) limitedCall = some s ∧
      s.cb.state = .OPEN ∧ s.cb.saved = none ∧
      (create s.cb.name rateLimited s.cb.saved).state = .CLOSED ∧ ¬ s.Faithful rateLimited := by
  refine ⟨_, rfl, rfl, rfl, rfl, fun hf => ?_⟩
  have : CircuitState.OPEN = .CLOSED := congrArg DurableState.state hf.written
  cases this

end BreakerRun

end OmniRoute
