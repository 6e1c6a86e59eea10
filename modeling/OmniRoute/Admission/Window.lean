import OmniRoute.Admission.Budget

/-!
# Inside a window

Between the ends of two windows the controller admits, queues and releases. `Accrues` says what
such an operation leaves alone: the limit, the start of the window, the mark of a critical cut and
the last utilization. The pressure never goes down; and the meter of the active cost is either
untouched, with the active cost, or it has been read before the active cost was changed.

**Main result (`Accrues.step`).** Every event but the clock, the end of a window, a new
configuration and an observed pressure is of this kind.
-/

namespace OmniRoute

open JsNumber Option

/-! ## Measurements -/

/-- The states differ in what was measured only. -/
structure Measures {F : Type} (a b : AdaptationState F) : Prop where
  limit : b.currentLimit = a.currentLimit
  windowStart : b.windowStartMs = a.windowStartMs
  consumed : b.criticalDecreaseConsumed = a.criticalDecreaseConsumed
  integral : b.windowActiveCostIntegral = a.windowActiveCostIntegral
  utilization : b.utilization = a.utilization
  pressure : a.pressure.severity ≤ b.pressure.severity

theorem Measures.refl {F : Type} (a : AdaptationState F) : Measures a a :=
  ⟨rfl, rfl, rfl, rfl, rfl, le_rfl⟩

theorem Measures.trans {F : Type} {a b c : AdaptationState F} (h : Measures a b)
    (h' : Measures b c) : Measures a c :=
  ⟨h'.limit.trans h.limit, h'.windowStart.trans h.windowStart, h'.consumed.trans h.consumed,
    h'.integral.trans h.integral, h'.utilization.trans h.utilization, h.pressure.trans h'.pressure⟩

variable {F : Type} (state : AdaptationState F)

theorem measures_noteOutcome (outcome : AdmissionReleaseOutcome) :
    Measures state (noteOutcome state outcome) := by
  cases outcome <;> exact ⟨rfl, rfl, rfl, rfl, rfl, le_rfl⟩

theorem measures_setPressure (pressure : AdmissionPressure) :
    Measures state (setPressure state pressure) := by
  have hpressure := (le_max_left _ _).trans_eq (setPressure_severity state pressure).symm
  rw [setPressure] at hpressure ⊢
  split at hpressure
  · next h =>
    rw [if_pos h]
    exact ⟨rfl, rfl, rfl, rfl, rfl, hpressure⟩
  · next h =>
    rw [if_neg h]
    exact .refl state

variable [JsNumber F]

theorem measures_noteLatency (latencyMs : F)
    (params : AdaptationParams F) : Measures state (noteLatency state latencyMs params) := by
  rw [noteLatency]
  dsimp only
  split <;> exact ⟨rfl, rfl, rfl, rfl, rfl, le_rfl⟩

namespace AdmissionController

/-! ## The meter -/

/-- The integral and the time up to which it has been taken. -/
def meter (s : AdmissionController F) : ℤ × ℤ :=
  (s.adaptation.windowActiveCostIntegral, s.lastSampleMs)

/-- All that the next sample depends on. -/
def metered (s : AdmissionController F) : ℤ × ℤ × ℤ × ℤ × ℤ :=
  (s.adaptation.currentLimit, s.activeCost, s.now, s.meter)

theorem sampleActiveIntegral_congr {a b : AdaptationState F}
    (hlimit : b.currentLimit = a.currentLimit)
    (hintegral : b.windowActiveCostIntegral = a.windowActiveCostIntegral) (cost dt : ℤ) :
    (sampleActiveIntegral b cost dt).windowActiveCostIntegral =
      (sampleActiveIntegral a cost dt).windowActiveCostIntegral := by
  rw [sampleActiveIntegral, sampleActiveIntegral]
  by_cases hnone : dt ≤ 0 ∨ cost ≤ 0
  · rw [if_pos hnone, if_pos hnone, hintegral]
  · rw [if_neg hnone, if_neg hnone]
    simp only [hlimit, hintegral]

variable {s t : AdmissionController F}

theorem sample_congr (h : t.metered = s.metered) :
    t.sampleIntegral.meter = s.sampleIntegral.meter := by
  simp only [metered, meter, Prod.mk.injEq] at h
  obtain ⟨hlimit, hactive, hnow, hintegral, hlast⟩ := h
  rw [sampleIntegral, sampleIntegral]
  dsimp only
  rw [hactive, hnow, hlast, hlimit]
  by_cases hlate : 0 < s.now - s.lastSampleMs
  · rw [if_pos hlate, if_pos hlate]
    simp only [meter, sampleActiveIntegral_congr hlimit hintegral]
  · rw [if_neg hlate, if_neg hlate]
    simp only [meter, hintegral, hlast]

/-- The meter is up to date: another sample adds nothing. -/
theorem sample_of_now_le (h : s.now ≤ s.lastSampleMs) : s.sampleIntegral = s := by
  rw [sampleIntegral]
  exact if_neg (by omega)

theorem now_le_sample (s : AdmissionController F) : s.now ≤ s.sampleIntegral.lastSampleMs := by
  rw [sampleIntegral]
  dsimp only
  split
  · exact le_rfl
  · next h => exact not_lt.1 (by omega)

/-! ## What an operation leaves alone -/

structure Accrues (s t : AdmissionController F) : Prop where
  config : t.config = s.config
  now : t.now = s.now
  limit : t.adaptation.currentLimit = s.adaptation.currentLimit
  windowStart : t.adaptation.windowStartMs = s.adaptation.windowStartMs
  consumed : t.adaptation.criticalDecreaseConsumed = s.adaptation.criticalDecreaseConsumed
  utilization : t.adaptation.utilization = s.adaptation.utilization
  pressure : s.adaptation.pressure.severity ≤ t.adaptation.pressure.severity
  meter : t.meter = s.meter ∧ t.activeCost = s.activeCost ∨ t.meter = s.sampleIntegral.meter

/-- An operation that touches neither the adaptation nor the active cost. -/
theorem Accrues.frame
    (hsame : (t.config, t.now, t.adaptation, t.lastSampleMs, t.activeCost) =
      (s.config, s.now, s.adaptation, s.lastSampleMs, s.activeCost)) : Accrues s t := by
  simp only [Prod.mk.injEq] at hsame
  obtain ⟨hconfig, hnow, hadaptation, hsample, hcost⟩ := hsame
  refine ⟨hconfig, hnow, ?_, ?_, ?_, ?_, ?_, Or.inl ⟨?_, hcost⟩⟩
  · rw [hadaptation]
  · rw [hadaptation]
  · rw [hadaptation]
  · rw [hadaptation]
  · rw [hadaptation]
  · rw [AdmissionController.meter, hadaptation, hsample]
    rfl

theorem Accrues.refl (s : AdmissionController F) : Accrues s s := .frame rfl

theorem Accrues.trans {u : AdmissionController F} (h : Accrues s t) (h' : Accrues t u) :
    Accrues s u := by
  refine ⟨h'.config.trans h.config, h'.now.trans h.now, h'.limit.trans h.limit,
    h'.windowStart.trans h.windowStart, h'.consumed.trans h.consumed,
    h'.utilization.trans h.utilization, h.pressure.trans h'.pressure, ?_⟩
  obtain ⟨hmeter, hcost⟩ | hmeter := h.meter
  · obtain ⟨hmeter', hcost'⟩ | hmeter' := h'.meter
    · exact Or.inl ⟨hmeter'.trans hmeter, hcost'.trans hcost⟩
    · refine Or.inr (hmeter'.trans (sample_congr ?_))
      simp only [metered, h.limit, hcost, h.now, hmeter]
  · obtain ⟨hmeter', -⟩ | hmeter' := h'.meter
    · exact Or.inr (hmeter'.trans hmeter)
    · -- The meter has been read at this time already.
      have htime : t.now ≤ t.lastSampleMs := by
        rw [h.now, show t.lastSampleMs = s.sampleIntegral.lastSampleMs from congrArg Prod.snd hmeter]
        exact now_le_sample s
      rw [sample_of_now_le htime] at hmeter'
      exact Or.inr (hmeter'.trans hmeter)

/-- An operation that adds to what was measured. -/
theorem Accrues.measures {adaptation : AdaptationState F} (h : Measures s.adaptation adaptation) :
    Accrues s { s with adaptation } := by
  refine ⟨rfl, rfl, h.limit, h.windowStart, h.consumed, h.utilization, h.pressure, Or.inl ⟨?_, rfl⟩⟩
  simp only [AdmissionController.meter, h.integral]

theorem Accrues.sampleIntegral (s : AdmissionController F) : Accrues s s.sampleIntegral := by
  obtain ⟨integral, time, heq⟩ := s.sampleIntegral_eq
  refine ⟨?_, ?_, ?_, ?_, ?_, ?_, ?_, Or.inr rfl⟩ <;> rw [heq]

theorem Accrues.evictsOnly (h : EvictsOnly s t) : Accrues s t := by
  rw [h]
  exact .frame rfl

theorem Accrues.virtualOnly (h : VirtualOnly s t) : Accrues s t := by
  rw [h]
  exact .frame rfl

/-! ## The operations -/

/-- The active cost is sampled before it grows. -/
theorem Accrues.admitEntry (s : AdmissionController F) (cost : ℤ)
    (disposition : VirtualDisposition) : Accrues s (s.admitEntry cost disposition).1 := by
  have h := Accrues.sampleIntegral s
  exact ⟨h.config, h.now, h.limit, h.windowStart, h.consumed, h.utilization, h.pressure, Or.inr rfl⟩

theorem Accrues.passes {p : Prop} (h : Passes p s t) : Accrues s t := by
  induction h with
  | refl => exact .refl s
  | tail _ helementary ih =>
    refine ih.trans ?_
    cases helementary with
    | queues h =>
      rw [h.2]
      exact .frame rfl
    | admits => exact .admitEntry _ _ .none

section

variable (s : AdmissionController F)

theorem Accrues.dispatch : Accrues s s.dispatch :=
  .passes (Passes.dispatch (p := False) .refl False.elim)

/-- The active cost is sampled before it shrinks. -/
theorem Accrues.releaseLease (id : ℕ)
    (outcome : AdmissionReleaseOutcome) (info : AdmissionReleaseMeta F) :
    Accrues s (s.releaseLease id outcome info) := by
  rw [releaseLease_eq]
  split
  · exact .refl s
  · next record _ =>
    refine Accrues.trans ?_ (.dispatch _)
    have hsample := Accrues.sampleIntegral s
    have hcost : Accrues s { s.sampleIntegral with
        active := s.sampleIntegral.active.delete id
        activeCost := s.sampleIntegral.activeCost - record.cost } :=
      ⟨hsample.config, hsample.now, hsample.limit, hsample.windowStart, hsample.consumed,
        hsample.utilization, hsample.pressure, Or.inr rfl⟩
    rw [released]
    dsimp only
    refine Accrues.trans ?_ (.virtualOnly (releaseVirtual_virtualOnly _ id record))
    refine hcost.trans (.measures ?_)
    have hcompleted : ∀ a : AdaptationState F,
        Measures a { a with windowCompleted := a.windowCompleted + 1 } :=
      fun _ => ⟨rfl, rfl, rfl, rfl, rfl, le_rfl⟩
    have hnoted := (measures_noteLatency s.sampleIntegral.adaptation
      (info.latencyMs.getD (lit (Max.max 0 (s.sampleIntegral.now - record.admittedAtMs) : ℤ)))
      s.sampleIntegral.config.adaptation).trans
        ((measures_noteOutcome _ outcome).trans (hcompleted _))
    cases info.pressure with
    | none => exact hnoted
    | some pressure => exact hnoted.trans (measures_setPressure _ pressure)

section

variable (request : AdmissionRequest F)

theorem Accrues.acquireShadow
    (cost limit : ℤ) : Accrues s (s.acquireShadow request cost limit).1 := by
  have hcounted : ∀ (t : AdmissionController F) disposition, Accrues s t →
      Accrues s (t.admitEntry cost disposition).1 :=
    fun t disposition ht => ht.trans (.admitEntry t cost disposition)
  rw [AdmissionController.acquireShadow]
  cases s.shadowDecision cost limit with
  | wouldReject => exact hcounted _ _ (.frame rfl)
  | wouldAdmit => exact hcounted _ _ (.frame rfl)
  | wouldQueue =>
    dsimp only
    have hadmitted := hcounted { s with wouldQueueCount := s.wouldQueueCount + 1 } .queued
      (.frame rfl)
    split
    · exact hadmitted.trans (.frame rfl)
    · exact hadmitted

theorem Accrues.acquire : Accrues s (s.acquire request).1 := by
  have hreject : ∀ (t : AdmissionController F) code message,
      Accrues t (t.reject code message).1 := fun _ _ _ => .frame rfl
  rw [acquire_eq]
  split
  · exact hreject s _ _
  split
  · exact hreject s _ _
  have hnoted : Accrues s (s.notePressure request) := by
    rw [notePressure]
    cases request.pressure with
    | none => exact .refl s
    | some pressure => exact .measures (measures_setPressure s.adaptation pressure)
  refine hnoted.trans ?_
  generalize s.notePressure request = t
  rw [acquireMode]
  cases hcost : t.resolveCost request with
  | error message => exact .refl t
  | ok cost =>
    dsimp only
    split
    · exact .frame rfl
    · exact .acquireShadow t request cost _
    · exact .passes (Passes.acquireEnforce (p := False) .refl False.elim request
        (resolveCost_mem hcost).1)

theorem Accrues.call : Accrues s (s.call request) := by
  have hacquire := Accrues.acquire s request
  rw [AdmissionController.call]
  rcases hcall : s.acquire request with ⟨t, result⟩
  rw [hcall] at hacquire
  cases result with
  | error message => exact hacquire
  | ok result => exact hacquire.trans (.frame rfl)

end

end

/-- The event neither moves the clock nor ends the window, and observes no pressure. -/
def Inside : AdmissionEvent F → Prop
  | .clock _ | .observePressure _ | .tick | .updateConfig _ | .windowTimer => False
  | .acquire _ | .release _ _ _ | .snapshot | .shutdown | .abort _ | .deadline _ | .laneTimer => True

theorem Accrues.step {e : AdmissionEvent F} (hs : s.QueuesSound) (he : Inside e)
    (h : s.step e = some t) : Accrues s t := by
  cases e with
  | clock => exact he.elim
  | observePressure => exact he.elim
  | tick => exact he.elim
  | updateConfig => exact he.elim
  | windowTimer => exact he.elim
  | acquire request => exact some.inj h ▸ .call s request
  | release lease outcome info => exact some.inj h ▸ .releaseLease s lease outcome info
  | snapshot => exact some.inj h ▸ .sampleIntegral s
  | shutdown => exact some.inj h ▸ .passes (p := False) (Passes.shutdown .refl)
  | abort signal => exact some.inj h ▸ .passes (Passes.abort (p := True) .refl hs signal)
  | deadline entry =>
    obtain ⟨-, -, -, rfl⟩ := step_deadline h
    have hframe : Accrues s { s with timers := s.timers.delete entry } :=
      .frame rfl
    refine hframe.trans (.passes (Passes.expireEntry (p := True) .refl ?_ _ _ _))
    exact hs
  | laneTimer =>
    obtain rfl := step_laneTimer h
    exact .evictsOnly (evictIdleLanes_evictsOnly s)

end AdmissionController

end OmniRoute
