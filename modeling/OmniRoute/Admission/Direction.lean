import OmniRoute.Admission.Window

/-!
# The direction of the limit

A window closes with a limit that has been cut, raised by one step or left alone, and an idle
window then moves it back towards the recovery ceiling. Under a validated configuration, over the
rationals: a window seen under pressure or frozen does not raise the limit, no window raises it by
more than one step, none lowers it below one critical cut, and the critical cut is made once.

**Main result (`directed_iff`).** All of this holds of a closing window unless it was idle under
high pressure and lost less than one step: the recovery excludes critical pressure only.
-/

namespace OmniRoute

open JsNumber Option Trace Or AdmissionController

/-! ## Scaling -/

theorem scaleLimit_eq {limit : ℤ} (h : 0 ≤ limit) (factor : DecreaseFactor ℚ) :
    scaleLimit limit factor = ⌊(limit : ℚ) * factor.1⌋ := by
  have hfactor : 0 < factor.1 := of_decide_eq_true factor.2.1
  have hlimit : (0 : ℚ) ≤ limit := by exact_mod_cast h
  have hpos : 0 ≤ ⌊(limit : ℚ) * factor.1⌋ := Int.floor_nonneg.2 (mul_nonneg hlimit hfactor.le)
  exact Int.toNat_of_nonneg hpos

theorem scaleLimit_le {limit : ℤ} (h : 0 ≤ limit) (factor : DecreaseFactor ℚ) :
    scaleLimit limit factor ≤ limit := by
  have hfactor : factor.1 < 1 := of_decide_eq_true factor.2.2
  have hlimit : (0 : ℚ) ≤ limit := by exact_mod_cast h
  rw [scaleLimit_eq h]
  calc
    ⌊(limit : ℚ) * factor.1⌋ ≤ ⌊(limit : ℚ)⌋ :=
      Int.floor_le_floor (mul_le_of_le_one_right hlimit hfactor.le)
    _ = limit := Int.floor_intCast limit

theorem scaleLimit_mono {limit : ℤ} (h : 0 ≤ limit) {factor factor' : DecreaseFactor ℚ}
    (hle : factor.1 ≤ factor'.1) : scaleLimit limit factor ≤ scaleLimit limit factor' := by
  have hlimit : (0 : ℚ) ≤ limit := by exact_mod_cast h
  rw [scaleLimit_eq h, scaleLimit_eq h]
  exact Int.floor_le_floor (mul_le_mul_of_nonneg_left hle hlimit)

/-! ## The parts of a closing window -/

section Parts

variable {F : Type} [JsNumber F] (state : AdaptationState F) (params : AdaptationParams F)

/-- The length that a closing window is taken to have. -/
def elapsedMs (nowMs : ℤ) : ℤ := Max.max 1 (Min.min params.windowMs (nowMs - state.windowStartMs))

/-- `min(increaseStep, maxIncreasePerWindow)` -/
def AdaptationParams.step (params : AdaptationParams F) : ℤ :=
  Min.min params.increaseStep params.maxIncreasePerWindow

/-- The growth of the short average against the long one. -/
def latencyGradient : F :=
  if lt (lit 0) state.longLatencyEwma then
    div (sub state.shortLatencyEwma state.longLatencyEwma) state.longLatencyEwma
  else lit 0

/-- The limit before the idle recovery, for a given utilization. -/
def movedLimit (utilization : F) : ℤ :=
  if state.pressure = .critical then
    if state.criticalDecreaseConsumed then state.currentLimit
    else scaleLimit state.currentLimit params.criticalDecreaseFactor
  else if state.pressure = .high ∨ (0 < state.windowLatencySamples ∧
      le params.latencyGradientThreshold (latencyGradient state) = true) then
    scaleLimit state.currentLimit params.decreaseFactor
  else if state.freezeGrowth = false ∧ state.pressure = .normal ∧
      le params.highUtilizationThreshold utilization = true ∧ 0 < state.windowCompleted then
    state.currentLimit + params.step
  else state.currentLimit

/-- The limit with the idle recovery. -/
def recoveredLimit (utilization : F) : ℤ :=
  if le utilization params.lowUtilizationThreshold then
    applyIdleRecovery state params (movedLimit state params utilization)
  else movedLimit state params utilization

theorem closeAdaptationWindow_currentLimit (nowMs : ℤ) :
    (closeAdaptationWindow state params nowMs).currentLimit =
      clampLimit (recoveredLimit state params (closeAdaptationWindow state params nowMs).utilization)
        params.minLimit params.maxLimit :=
  rfl

theorem closeAdaptationWindow_utilization (nowMs : ℤ) :
    (closeAdaptationWindow state params nowMs).utilization =
      JsNumber.max (lit 0) (JsNumber.min (lit 1) (if 0 < state.currentLimit then
        div (div (lit state.windowActiveCostIntegral) (lit (elapsedMs state params nowMs)))
          (lit state.currentLimit)
      else lit 0)) :=
  rfl

end Parts

theorem elapsedMs_pos {F : Type} [JsNumber F] (state : AdaptationState F)
    (params : AdaptationParams F) (nowMs : ℤ) : 0 < elapsedMs state params nowMs := by
  rw [elapsedMs]
  omega

variable {state : AdaptationState ℚ}

/-- The active cost, averaged over the window and relative to the limit. -/
theorem closeAdaptationWindow_clamped (params : AdaptationParams ℚ) (nowMs : ℤ)
    (hlimit : 0 < state.currentLimit) :
    (closeAdaptationWindow state params nowMs).utilization =
      Max.max 0 (Min.min 1 ((state.windowActiveCostIntegral : ℚ) /
        (state.currentLimit * elapsedMs state params nowMs))) := by
  have hmax : ∀ a b : ℚ, JsNumber.max a b = Max.max a b := fun a b => (max_def a b).symm
  have hmin : ∀ a b : ℚ, JsNumber.min a b = Min.min a b := fun a b => (min_def a b).symm
  rw [closeAdaptationWindow_utilization, if_pos hlimit, hmax, hmin, mul_comm, ← div_div]
  rfl

/-- A window closes as a little used one if its integral is low. -/
theorem le_lowUtilization_iff (params : AdaptationParams ℚ)
    (hlow : 0 < params.lowUtilizationThreshold ∧ params.lowUtilizationThreshold < 1)
    (hlimit : 0 < state.currentLimit) (nowMs : ℤ) :
    le (closeAdaptationWindow state params nowMs).utilization params.lowUtilizationThreshold = true ↔
      (state.windowActiveCostIntegral : ℚ) ≤
        params.lowUtilizationThreshold * (state.currentLimit * elapsedMs state params nowMs) := by
  have helapsed : (0 : ℚ) < elapsedMs state params nowMs := by
    exact_mod_cast elapsedMs_pos state params nowMs
  have hlimit' : (0 : ℚ) < state.currentLimit := by exact_mod_cast hlimit
  have hclamp : ∀ u : ℚ, Max.max 0 (Min.min 1 u) ≤ params.lowUtilizationThreshold ↔
      u ≤ params.lowUtilizationThreshold := by
    intro u
    rw [max_le_iff, min_le_iff]
    constructor
    · rintro ⟨-, hone | hu⟩
      · exact absurd hlow.2 (not_lt.2 hone)
      · exact hu
    · exact fun hu => ⟨hlow.1.le, inr hu⟩
  rw [closeAdaptationWindow_clamped params nowMs hlimit]
  refine decide_eq_true_iff.trans ?_
  rw [hclamp, div_le_iff₀ (mul_pos hlimit' helapsed)]

/-! ## How far the limit moves -/

section Moves

variable {state : AdaptationState ℚ} {params : AdaptationParams ℚ} {windowMs : ℤ}

/-- Only a window of normal pressure in which work was completed raises the limit. -/
theorem movedLimit_le (params : AdaptationParams ℚ) (hlimit : 0 ≤ state.currentLimit)
    (h : state.pressure ≠ .normal ∨ state.freezeGrowth = true ∨ state.windowCompleted = 0)
    (utilization : ℚ) : movedLimit state params utilization ≤ state.currentLimit := by
  rw [movedLimit]
  split
  · split
    · exact le_rfl
    · exact scaleLimit_le hlimit _
  split
  · exact scaleLimit_le hlimit _
  split
  · next hgrow =>
    obtain ⟨hfreeze, hnormal, -, hcompleted⟩ := hgrow
    rcases h with hpressure | hfrozen | hnone
    · exact absurd hnormal hpressure
    · rw [hfreeze] at hfrozen
      cases hfrozen
    · omega
  · exact le_rfl

section

variable (hparams : params.Checked windowMs)
include hparams

section

variable (hlimit : 0 ≤ state.currentLimit)
include hlimit

section

variable (utilization : ℚ)

theorem le_movedLimit :
    scaleLimit state.currentLimit params.criticalDecreaseFactor ≤
      movedLimit state params utilization := by
  have hcut := scaleLimit_le hlimit params.criticalDecreaseFactor
  rw [movedLimit]
  split
  · split
    · exact hcut
    · exact le_rfl
  split
  · exact scaleLimit_mono hlimit hparams.criticalDecreaseFactor_le
  split
  · have hincrease := hparams.increaseStep_pos
    have hmost := hparams.maxIncreasePerWindow_pos
    rw [AdaptationParams.step]
    omega
  · exact hcut

theorem movedLimit_le_step :
    movedLimit state params utilization ≤ state.currentLimit + params.step := by
  have hstep : 0 < params.step := lt_min hparams.increaseStep_pos hparams.maxIncreasePerWindow_pos
  have hcut := scaleLimit_le hlimit params.decreaseFactor
  have hcritical := scaleLimit_le hlimit params.criticalDecreaseFactor
  rw [movedLimit]
  split
  · split <;> omega
  split
  · omega
  split <;> omega

omit hlimit in
omit hparams in
/-- An idle window recovers from where it moved to. -/
theorem recovers_of_idle {next : ℤ} (hpressure : state.pressure ≠ .critical)
    (hfreeze : state.freezeGrowth = false) (hidle : state.windowCompleted = 0)
    (hbelow : state.currentLimit < state.recoveryCeiling) :
    applyIdleRecovery state params next = Min.min state.recoveryCeiling (next + params.step) :=
  if_pos ⟨hpressure, hfreeze, hidle, hbelow⟩

omit hlimit in
omit hparams in
theorem applyIdleRecovery_cases (state : AdaptationState ℚ) (params : AdaptationParams ℚ)
    (next : ℤ) : applyIdleRecovery state params next = next ∨
      (state.pressure ≠ .critical ∧ state.freezeGrowth = false ∧ state.windowCompleted = 0 ∧
        state.currentLimit < state.recoveryCeiling) ∧
      applyIdleRecovery state params next = Min.min state.recoveryCeiling (next + params.step) := by
  by_cases h : state.pressure ≠ .critical ∧ state.freezeGrowth = false ∧
      state.windowCompleted = 0 ∧ state.currentLimit < state.recoveryCeiling
  · exact inr ⟨h, if_pos h⟩
  · exact inl (if_neg h)

theorem le_recoveredLimit :
    scaleLimit state.currentLimit params.criticalDecreaseFactor ≤
      recoveredLimit state params utilization := by
  have hmoved := le_movedLimit hparams hlimit utilization
  rw [recoveredLimit]
  split
  · rcases applyIdleRecovery_cases state params (movedLimit state params utilization) with
      heq | ⟨⟨-, -, hidle, hbelow⟩, heq⟩
    · rw [heq]
      exact hmoved
    · have hstep : 0 < params.step :=
        lt_min hparams.increaseStep_pos hparams.maxIncreasePerWindow_pos
      have hup := movedLimit_le params hlimit (inr (inr hidle)) utilization
      rw [heq]
      omega
  · exact hmoved

theorem recoveredLimit_le_step :
    recoveredLimit state params utilization ≤ state.currentLimit + params.step := by
  have hmoved := movedLimit_le_step hparams hlimit utilization
  rw [recoveredLimit]
  split
  · rcases applyIdleRecovery_cases state params (movedLimit state params utilization) with
      heq | ⟨⟨-, -, hidle, -⟩, heq⟩
    · rw [heq]
      exact hmoved
    · have hup := movedLimit_le params hlimit (inr (inr hidle)) utilization
      rw [heq]
      omega
  · exact hmoved

end

end

end

end Moves

/-! ## Every direction at once -/

namespace AdmissionController

variable {F : Type} [JsNumber F]

/-- The event neither ends the window nor starts another. -/
def InWindow : AdmissionEvent F → Prop
  | .tick | .windowTimer | .updateConfig _ => False
  | _ => True

/-- The event closes the window. -/
def Closes : AdmissionEvent F → Prop
  | .tick | .windowTimer => True
  | _ => False

/-- The event applies the critical factor to the limit. -/
def cutsCritical (s : AdmissionController F) : AdmissionEvent F → Bool
  | .observePressure pressure =>
    pressure = .critical ∧ s.adaptation.criticalDecreaseConsumed = false
  | .tick | .windowTimer =>
    s.adaptation.pressure = .critical ∧ s.adaptation.criticalDecreaseConsumed = false
  | _ => false

/-- How often a run applies the critical factor. -/
def criticalCuts : AdmissionController F → List (AdmissionEvent F) → ℕ
  | _, [] => 0
  | s, e :: es => (s.cutsCritical e).toNat +
      match s.step e with
      | none => 0
      | some t => criticalCuts t es

/-- The limit after one critical cut. -/
def cutLimit (s : AdmissionController F) : ℤ :=
  Max.max s.config.minLimit
    (scaleLimit s.adaptation.currentLimit s.config.adaptation.criticalDecreaseFactor)

end AdmissionController

/-- How the limit moves when the window closes. -/
structure Directed (config : ValidatedConfig ℚ) (state : AdaptationState ℚ) (nowMs : ℤ) : Prop where
  /-- Not up, under pressure or after an error. -/
  damped : state.pressure = .high ∨ state.pressure = .critical ∨ state.freezeGrowth = true →
    (closeAdaptationWindow state config.adaptation nowMs).currentLimit ≤ state.currentLimit
  /-- Up by one step at most. -/
  gentle : (closeAdaptationWindow state config.adaptation nowMs).currentLimit ≤
    state.currentLimit + Min.min config.adaptation.increaseStep config.adaptation.maxIncreasePerWindow
  /-- Down by one critical cut at most. -/
  bounded : Max.max config.minLimit
      (scaleLimit state.currentLimit config.adaptation.criticalDecreaseFactor) ≤
    (closeAdaptationWindow state config.adaptation nowMs).currentLimit
  /-- A window that a controller runs through from here applies the critical factor once at most,
  and ends with no less than one such cut leaves. -/
  once : ∀ s : AdmissionController ℚ, s.Reachable → s.config = config → s.adaptation = state →
    ∀ es last t, (∀ e ∈ es, AdmissionController.InWindow e) → AdmissionController.Closes last →
      exec AdmissionController.step s (es ++ [last]) = some t →
      s.criticalCuts (es ++ [last]) ≤ 1 ∧ s.cutLimit ≤ t.adaptation.currentLimit

/-- The window was idle under high pressure, and its cut was less than one step. -/
structure RecoversUnderHigh (params : AdaptationParams ℚ) (state : AdaptationState ℚ)
    (nowMs : ℤ) : Prop where
  high : state.pressure = .high
  unfrozen : state.freezeGrowth = false
  idle : state.windowCompleted = 0
  low : (state.windowActiveCostIntegral : ℚ) ≤
    params.lowUtilizationThreshold * (state.currentLimit * elapsedMs state params nowMs)
  belowCeiling : state.currentLimit < state.recoveryCeiling
  belowMax : state.currentLimit < params.maxLimit
  short : state.currentLimit <
    scaleLimit state.currentLimit params.decreaseFactor + params.step

theorem movedLimit_high (params : AdaptationParams ℚ) (h : state.pressure = .high)
    (utilization : ℚ) :
    movedLimit state params utilization = scaleLimit state.currentLimit params.decreaseFactor := by
  rw [movedLimit, if_neg (by rw [h]; decide), if_pos (inl h)]

theorem damped_iff {params : AdaptationParams ℚ} {windowMs : ℤ} (hparams : params.Checked windowMs)
    (hmin : 0 < params.minLimit)
    (hlimit : params.minLimit ≤ state.currentLimit ∧ state.currentLimit ≤ params.maxLimit)
    (nowMs : ℤ) :
    (state.pressure = .high ∨ state.pressure = .critical ∨ state.freezeGrowth = true →
      (closeAdaptationWindow state params nowMs).currentLimit ≤ state.currentLimit) ↔
    ¬ RecoversUnderHigh params state nowMs := by
  have hpos : 0 < state.currentLimit := hmin.trans_le hlimit.1
  have hlow := le_lowUtilization_iff params
    ⟨hparams.lowUtilizationThreshold_pos, hparams.lowUtilizationThreshold_lt⟩ hpos nowMs
  rw [closeAdaptationWindow_currentLimit]
  generalize (closeAdaptationWindow state params nowMs).utilization = utilization at hlow
  rw [recoveredLimit]
  constructor
  · intro h hup
    have hdamped := h (inl hup.high)
    rw [if_pos (hlow.2 hup.low), recovers_of_idle (by rw [hup.high]; decide) hup.unfrozen hup.idle
      hup.belowCeiling, movedLimit_high params hup.high, clampLimit] at hdamped
    have hceiling := hup.belowCeiling
    have hmax := hup.belowMax
    have hshort := hup.short
    omega
  · intro h hpressure
    have hmoved : movedLimit state params utilization ≤ state.currentLimit := by
      refine movedLimit_le params hpos.le ?_ utilization
      rcases hpressure with hhigh | hcritical | hfrozen
      · exact inl (by rw [hhigh]; decide)
      · exact inl (by rw [hcritical]; decide)
      · exact inr (inl hfrozen)
    by_cases hused : le utilization params.lowUtilizationThreshold = true
    · rw [if_pos hused]
      rcases applyIdleRecovery_cases state params (movedLimit state params utilization) with
        heq | ⟨⟨hcritical, hfreeze, hidle, hbelow⟩, heq⟩
      · rw [heq, clampLimit]
        omega
      · -- What recovers under pressure is under high pressure.
        have hhigh : state.pressure = .high := by
          rcases hpressure with hhigh | hcritical' | hfrozen
          · exact hhigh
          · exact absurd hcritical' hcritical
          · rw [hfreeze] at hfrozen
            cases hfrozen
        rw [heq, movedLimit_high params hhigh, clampLimit]
        by_cases hmax : state.currentLimit < params.maxLimit
        · have hshort : ¬ state.currentLimit <
              scaleLimit state.currentLimit params.decreaseFactor + params.step := fun hshort =>
            h ⟨hhigh, hfreeze, hidle, hlow.1 hused, hbelow, hmax, hshort⟩
          omega
        · omega
    · rw [if_neg hused, clampLimit]
      omega

/-! ## One critical cut in a window -/

namespace AdmissionController

theorem Reachable.exec {F : Type} [JsNumber F] {s t : AdmissionController F} (hs : s.Reachable)
    {es : List (AdmissionEvent F)} (h : exec step s es = some t) : t.Reachable := by
  obtain ⟨config, now, fs, hrun⟩ := hs
  exact ⟨config, now, fs ++ es, exec_append.2 ⟨s, hrun, h⟩⟩

theorem Reachable.step {F : Type} [JsNumber F] {s t : AdmissionController F} (hs : s.Reachable)
    {e : AdmissionEvent F} (h : s.step e = some t) : t.Reachable := by
  have hrun : Trace.exec AdmissionController.step s [e] = some t := exec_cons.2 ⟨t, h, rfl⟩
  exact hs.exec hrun

section Marks

variable {F : Type} [JsNumber F] {s t : AdmissionController F} {e : AdmissionEvent F}

/-- The limit and the mark of a critical cut are as they were. -/
structure Unmarked (s t : AdmissionController F) : Prop where
  limit : t.adaptation.currentLimit = s.adaptation.currentLimit
  consumed : t.adaptation.criticalDecreaseConsumed = s.adaptation.criticalDecreaseConsumed

/-- The critical cut has been made. -/
structure Marked (s t : AdmissionController F) : Prop where
  fresh : s.adaptation.criticalDecreaseConsumed = false
  limit : t.adaptation.currentLimit = s.cutLimit
  consumed : t.adaptation.criticalDecreaseConsumed = true
  pressure : t.adaptation.pressure = .critical

theorem eq_critical_of_severity {pressure : AdmissionPressure} (h : 2 ≤ pressure.severity) :
    pressure = .critical := by
  cases pressure with
  | normal => cases h
  | high => exact absurd h (by decide)
  | critical => rfl

theorem Accrues.dispatches (s : AdmissionController F) : Accrues s s.dispatch.dispatchVirtual :=
  (Accrues.dispatch s).trans (.virtualOnly (dispatchVirtual_virtualOnly _))

/-- An event within a window cuts the limit and leaves the mark, or it leaves both. -/
theorem inWindow_step (hs : s.QueuesSound) (he : InWindow e) (h : s.step e = some t) :
    t.config = s.config ∧ s.adaptation.pressure.severity ≤ t.adaptation.pressure.severity ∧
      (s.cutsCritical e = false ∧ Unmarked s t ∨ s.cutsCritical e = true ∧ Marked s t) := by
  by_cases hin : Inside e
  · have haccrues := Accrues.step hs hin h
    refine ⟨haccrues.config, haccrues.pressure, inl ⟨?_, haccrues.limit, haccrues.consumed⟩⟩
    cases e <;> first | rfl | exact hin.elim
  cases e with
  | clock now =>
    cases h
    exact ⟨rfl, le_rfl, inl ⟨rfl, rfl, rfl⟩⟩
  | observePressure pressure =>
    cases h
    have hseverity := setPressure_severity s.adaptation pressure
    have hsame : (setPressure s.adaptation pressure).criticalDecreaseConsumed =
        s.adaptation.criticalDecreaseConsumed :=
      (measures_setPressure s.adaptation pressure).consumed
    rw [observePressure]
    dsimp only
    by_cases hcut : pressure = .critical ∧ s.adaptation.criticalDecreaseConsumed = false
    · rw [hsame, if_pos hcut]
      have haccrues := Accrues.dispatches { s with adaptation :=
        { setPressure s.adaptation pressure with
          currentLimit := Max.max s.config.minLimit
            (scaleLimit (setPressure s.adaptation pressure).currentLimit
              s.config.adaptation.criticalDecreaseFactor)
          criticalDecreaseConsumed := true } }
      have hup := haccrues.pressure
      dsimp only at hup
      rw [hseverity] at hup
      refine ⟨haccrues.config, (le_max_left _ _).trans hup, inr ⟨?_, hcut.2, ?_, ?_, ?_⟩⟩
      · exact decide_eq_true hcut
      · rw [haccrues.limit, cutLimit, setPressure_currentLimit]
      · exact haccrues.consumed
      · apply eq_critical_of_severity
        have hcritical : 2 ≤ pressure.severity := by
          rw [hcut.1]
          decide
        exact hcritical.trans ((le_max_right _ _).trans hup)
    · rw [hsame, if_neg hcut]
      refine ⟨rfl, (le_max_left _ _).trans_eq hseverity.symm, inl ⟨decide_eq_false hcut, ?_, hsame⟩⟩
      exact setPressure_currentLimit s.adaptation pressure
  | tick => exact he.elim
  | windowTimer => exact he.elim
  | updateConfig config => exact he.elim
  | _ => exact absurd trivial hin

theorem criticalCuts_append {es fs : List (AdmissionEvent F)} (h : exec step s es = some t) :
    s.criticalCuts (es ++ fs) = s.criticalCuts es + t.criticalCuts fs := by
  induction es generalizing s with
  | nil =>
    cases h
    exact (Nat.zero_add _).symm
  | cons e es ih =>
    obtain ⟨u, hu, hrun⟩ := exec_cons.1 h
    simp only [List.cons_append, criticalCuts, hu, ih hrun, Nat.add_assoc]

/-- A run within a window cuts the limit once and leaves the mark, or it leaves both. -/
theorem inWindow_exec (hs : s.Reachable) {es : List (AdmissionEvent F)}
    (hes : ∀ e ∈ es, InWindow e) (h : exec step s es = some t) :
    t.config = s.config ∧ s.adaptation.pressure.severity ≤ t.adaptation.pressure.severity ∧
      (s.criticalCuts es = 0 ∧ Unmarked s t ∨ s.criticalCuts es = 1 ∧ Marked s t) := by
  induction es generalizing s with
  | nil =>
    cases h
    exact ⟨rfl, le_rfl, inl ⟨rfl, rfl, rfl⟩⟩
  | cons e es ih =>
    obtain ⟨u, hu, hrun⟩ := exec_cons.1 h
    have hreach : u.Reachable := hs.step hu
    obtain ⟨hconfig, hpressure, hstep⟩ :=
      inWindow_step hs.books.sound (hes e List.mem_cons_self) hu
    obtain ⟨hconfig', hpressure', hrest⟩ :=
      ih hreach (fun e he => hes e (List.mem_cons_of_mem _ he)) hrun
    refine ⟨hconfig'.trans hconfig, hpressure.trans hpressure', ?_⟩
    simp only [criticalCuts, hu]
    obtain ⟨hno, hsame⟩ | ⟨hcut, hmark⟩ := hstep
    · rw [hno]
      obtain ⟨hcount, hsame'⟩ | ⟨hcount, hmark'⟩ := hrest
      · refine inl ⟨by rw [hcount]; rfl, ?_⟩
        exact ⟨hsame'.limit.trans hsame.limit, hsame'.consumed.trans hsame.consumed⟩
      · refine inr ⟨by rw [hcount]; rfl, hsame.consumed ▸ hmark'.fresh, ?_, hmark'.consumed,
          hmark'.pressure⟩
        rw [hmark'.limit, cutLimit, hconfig, hsame.limit, cutLimit]
    · rw [hcut]
      obtain ⟨hcount, hsame'⟩ | ⟨-, hmark'⟩ := hrest
      · refine inr ⟨by rw [hcount]; rfl, hmark.fresh, hsame'.limit.trans hmark.limit,
          hsame'.consumed.trans hmark.consumed, eq_critical_of_severity ?_⟩
        rw [hmark.pressure] at hpressure'
        exact hpressure'
      · exact absurd hmark'.fresh (by rw [hmark.consumed]; decide)

/-- The limit after a window is the one it closes with, for the integral sampled last. -/
theorem tick_currentLimit (s : AdmissionController F) :
    ∃ integral, s.tick.adaptation.currentLimit =
      (closeAdaptationWindow { s.adaptation with windowActiveCostIntegral := integral }
        s.config.adaptation s.now).currentLimit := by
  obtain ⟨integral, time, hsample⟩ := s.sampleIntegral_eq
  have hevict := evictIdleLanes_evictsOnly s.sampleIntegral
  refine ⟨integral, ?_⟩
  rw [tick]
  dsimp only
  rw [(Accrues.dispatches _).limit, hevict, hsample]

theorem closes_currentLimit (he : Closes e) (h : s.step e = some t) :
    t.adaptation.currentLimit = s.tick.adaptation.currentLimit := by
  cases e with
  | tick => exact some.inj h ▸ rfl
  | windowTimer =>
    obtain rfl := step_windowTimer h
    rw [armWindowTimer]
    split <;> rfl
  | _ => exact he.elim

end Marks

variable {params : AdaptationParams ℚ} {state : AdaptationState ℚ}

/-- The limit is not moved by a window whose critical cut has been made. -/
theorem close_of_consumed
    (hlimit : params.minLimit ≤ state.currentLimit ∧ state.currentLimit ≤ params.maxLimit)
    (hpressure : state.pressure = .critical) (hconsumed : state.criticalDecreaseConsumed = true)
    (nowMs : ℤ) : (closeAdaptationWindow state params nowMs).currentLimit = state.currentLimit := by
  have hmoved : ∀ utilization, movedLimit state params utilization = state.currentLimit := by
    intro utilization
    rw [movedLimit, if_pos hpressure, if_pos hconsumed]
  have hrecovery : ∀ next, applyIdleRecovery state params next = next :=
    fun next => if_neg fun h => h.1 hpressure
  rw [closeAdaptationWindow_currentLimit, recoveredLimit, hrecovery, ite_self, hmoved, clampLimit]
  omega

/-- A closing window lowers the limit by one critical cut at most. -/
theorem le_close {windowMs : ℤ} (hparams : params.Checked windowMs) (hmin : 0 < params.minLimit)
    (hlimit : params.minLimit ≤ state.currentLimit ∧ state.currentLimit ≤ params.maxLimit)
    (nowMs : ℤ) :
    Max.max params.minLimit (scaleLimit state.currentLimit params.criticalDecreaseFactor) ≤
      (closeAdaptationWindow state params nowMs).currentLimit := by
  have hpos : 0 ≤ state.currentLimit := (hmin.trans_le hlimit.1).le
  have hcut := scaleLimit_le hpos params.criticalDecreaseFactor
  have hnext := le_recoveredLimit hparams hpos
    (closeAdaptationWindow state params nowMs).utilization
  rw [closeAdaptationWindow_currentLimit, clampLimit]
  omega

theorem close_le_step {windowMs : ℤ} (hparams : params.Checked windowMs)
    (hmin : 0 < params.minLimit) (hlimit : params.minLimit ≤ state.currentLimit) (nowMs : ℤ) :
    (closeAdaptationWindow state params nowMs).currentLimit ≤ state.currentLimit + params.step := by
  have hstep : 0 < params.step := lt_min hparams.increaseStep_pos hparams.maxIncreasePerWindow_pos
  have hpos : 0 ≤ state.currentLimit := (hmin.trans_le hlimit).le
  have hnext := recoveredLimit_le_step hparams hpos
    (closeAdaptationWindow state params nowMs).utilization
  rw [closeAdaptationWindow_currentLimit, clampLimit]
  omega

/-- A window applies the critical factor once at most. -/
theorem window_once {s t : AdmissionController ℚ} {windowMs : ℤ} (hs : s.Reachable)
    (hparams : s.config.adaptation.Checked windowMs) {es : List (AdmissionEvent ℚ)}
    {last : AdmissionEvent ℚ} (hes : ∀ e ∈ es, InWindow e) (hlast : Closes last)
    (h : exec step s (es ++ [last]) = some t) :
    s.criticalCuts (es ++ [last]) ≤ 1 ∧ s.cutLimit ≤ t.adaptation.currentLimit := by
  obtain ⟨u, hrun, hend⟩ := exec_append.1 h
  obtain ⟨t', hclose, ht⟩ := exec_cons.1 hend
  cases ht
  obtain ⟨hconfig, -, hwindow⟩ := inWindow_exec hs hes hrun
  have hledger := (hs.exec hrun).ledger
  obtain ⟨integral, htick⟩ := tick_currentLimit u
  rw [criticalCuts_append hrun, closes_currentLimit hlast hclose, htick]
  generalize hstate : { u.adaptation with windowActiveCostIntegral := integral } = state
  have hlimit : u.config.adaptation.minLimit ≤ state.currentLimit ∧
      state.currentLimit ≤ u.config.adaptation.maxLimit := by
    rw [u.config.adaptation_minLimit, u.config.adaptation_maxLimit, ← hstate]
    exact ⟨hledger.minLimit_le, hledger.le_maxLimit⟩
  have hmin : 0 < u.config.adaptation.minLimit := by
    rw [u.config.adaptation_minLimit]
    exact u.config.minLimit_pos
  have hcuts : u.criticalCuts [last] = (u.cutsCritical last).toNat := by
    rw [criticalCuts, hclose]
    rfl
  have hone : (u.cutsCritical last).toNat ≤ 1 := Bool.toNat_le _
  rw [hcuts]
  obtain ⟨hcount, hsame⟩ | ⟨hcount, hmark⟩ := hwindow
  · refine ⟨by omega, ?_⟩
    have hle := le_close (hconfig ▸ hparams) hmin hlimit u.now
    rw [cutLimit, ← hsame.limit, ← hconfig, ← u.config.adaptation_minLimit]
    rw [← hstate] at hle ⊢
    exact hle
  · have hno : u.cutsCritical last = false := by
      cases last with
      | tick => exact decide_eq_false fun hcut => by simp [hmark.consumed] at hcut
      | windowTimer => exact decide_eq_false fun hcut => by simp [hmark.consumed] at hcut
      | _ => exact hlast.elim
    refine ⟨by rw [hcount, hno]; rfl, ?_⟩
    rw [close_of_consumed hlimit (by rw [← hstate]; exact hmark.pressure)
      (by rw [← hstate]; exact hmark.consumed), ← hstate]
    exact hmark.limit.ge

end AdmissionController

/-! ## Which windows are directed -/

/-- Under a validated configuration, from every state whose limit is within its bounds: the limit
moves in the right direction, unless an idle window under high pressure recovers more than it was
cut by. -/
theorem directed_iff {input : AdaptiveAdmissionConfig ℚ} {config : ValidatedConfig ℚ}
    (hconfig : validateConfig input = .ok config) (state : AdaptationState ℚ) (nowMs : ℤ)
    (hlimit : config.minLimit ≤ state.currentLimit ∧ state.currentLimit ≤ config.maxLimit) :
    Directed config state nowMs ↔ ¬ RecoversUnderHigh config.adaptation state nowMs := by
  obtain ⟨-, hparams⟩ := validateConfig_checked hconfig
  have hmin : 0 < config.adaptation.minLimit := by
    rw [config.adaptation_minLimit]
    exact config.minLimit_pos
  have hwithin : config.adaptation.minLimit ≤ state.currentLimit ∧
      state.currentLimit ≤ config.adaptation.maxLimit := by
    rw [config.adaptation_minLimit, config.adaptation_maxLimit]
    exact hlimit
  have hdamped := damped_iff hparams hmin hwithin nowMs
  constructor
  · exact fun h => hdamped.1 h.damped
  · intro h
    refine ⟨hdamped.2 h, ?_, ?_, ?_⟩
    · exact close_le_step hparams hmin hwithin.1 nowMs
    · rw [← config.adaptation_minLimit]
      exact le_close hparams hmin hwithin nowMs
    · rintro s hs rfl - es last t hes hlast hrun
      exact window_once hs hparams hes hlast hrun

/-- Limits from one to ten, raised by two. -/
def stepTwoInput : AdaptiveAdmissionConfig ℚ where
  minLimit := 1
  maxLimit := 10
  initialLimit := 10
  maxQueueCount := 10
  maxQueueCost := 100
  increaseStep := some 2

/-- The limit was cut to four, and nothing has run since. -/
def idleAtFour (pressure : AdmissionPressure) : AdaptationState ℚ :=
  { createAdaptationState 10 1 10 0 with currentLimit := 4, pressure }

def stepTwoConfig : ValidatedConfig ℚ :=
  { smallConfig .shadow false with
    adaptation := { (smallConfig .shadow false).adaptation with
      increaseStep := 2
      maxIncreasePerWindow := 2 } }

theorem validateConfig_stepTwo : validateConfig stepTwoInput = .ok stepTwoConfig := by
  with_unfolding_all rfl

/-- An idle window under high pressure ends with a limit of five. -/
theorem idleAtFour_raised : ¬ ∀ (input : AdaptiveAdmissionConfig ℚ) (config : ValidatedConfig ℚ)
    (state : AdaptationState ℚ) (nowMs : ℤ), validateConfig input = .ok config →
    config.minLimit ≤ state.currentLimit ∧ state.currentLimit ≤ config.maxLimit →
    Directed config state nowMs := by
  intro h
  have hdamped := (h _ _ (idleAtFour .high) 2000 validateConfig_stepTwo (by decide)).damped
  exact absurd (hdamped (inl rfl)) (by decide +kernel)

/-- Under normal pressure the same window is directed. -/
theorem directed_iff_idleAtFour : Directed stepTwoConfig (idleAtFour .normal) 2000 :=
  (directed_iff validateConfig_stepTwo (idleAtFour .normal) 2000 (by decide)).2 fun h => by
    cases h.high

end OmniRoute
