import OmniRoute.Lib.JsNumber

/-!
# The adaptive limit

`open-sse/services/admission/adaptation.ts`: the limit on the admitted cost follows the latencies,
the outcomes and the pressure seen in a window. Latencies, averages and factors are script numbers
(`JsNumber`); limits, counts and times are integers.

**Main result (`closeAdaptationWindow_limit`).** Whatever the measurements, a window closes with a
limit between `minLimit` and `maxLimit`. A pressure cut keeps these bounds too (`cutLimit_mem`);
that one rests on how a product is rounded.
-/

namespace OmniRoute

open JsNumber

inductive AdmissionPressure
  | normal
  | high
  | critical
  deriving DecidableEq

/-- The rank of a pressure in `setPressure`. -/
def AdmissionPressure.severity : AdmissionPressure → ℕ
  | .normal => 0
  | .high => 1
  | .critical => 2

inductive AdmissionReleaseOutcome
  | success
  | upstreamError
  | timeout
  | localReject
  | cancelled
  deriving DecidableEq

/-- A factor that shrinks a limit: `0 < x < 1`. -/
abbrev DecreaseFactor (F : Type) [JsNumber F] :=
  { x : F // lt (lit 0) x = true ∧ lt x (lit 1) = true }

structure AdaptationParams (F : Type) [JsNumber F] where
  minLimit : ℤ
  maxLimit : ℤ
  windowMs : ℤ
  shortLatencyAlpha : F
  longLatencyAlpha : F
  increaseStep : ℤ
  decreaseFactor : DecreaseFactor F
  criticalDecreaseFactor : DecreaseFactor F
  highUtilizationThreshold : F
  lowUtilizationThreshold : F
  latencyGradientThreshold : F
  maxIncreasePerWindow : ℤ

structure AdaptationState (F : Type) where
  currentLimit : ℤ
  recoveryCeiling : ℤ
  shortLatencyEwma : F
  longLatencyEwma : F
  pressure : AdmissionPressure
  windowActiveCostIntegral : ℤ
  windowCompleted : ℕ
  windowLatencySamples : ℕ
  windowStartMs : ℤ
  freezeGrowth : Bool
  criticalDecreaseConsumed : Bool
  utilization : F

/-- The values it is called with are finite integers, so the tests and the rounding of the code
change nothing. -/
def clampLimit (value minLimit maxLimit : ℤ) : ℤ := Min.min maxLimit (Max.max minLimit value)

variable {F : Type} [JsNumber F]

def createAdaptationState (initialLimit minLimit maxLimit nowMs : ℤ) : AdaptationState F where
  currentLimit := clampLimit initialLimit minLimit maxLimit
  recoveryCeiling := clampLimit initialLimit minLimit maxLimit
  shortLatencyEwma := lit 0
  longLatencyEwma := lit 0
  pressure := .normal
  windowActiveCostIntegral := 0
  windowCompleted := 0
  windowLatencySamples := 0
  windowStartMs := nowMs
  freezeGrowth := false
  criticalDecreaseConsumed := false
  utilization := lit 0

/-- `alpha * sample + (1 - alpha) * ewma` -/
def ewma (alpha sample ewma : F) : F := add (mul alpha sample) (mul (sub (lit 1) alpha) ewma)

def noteLatency (state : AdaptationState F) (latencyMs : F) (params : AdaptationParams F) :
    AdaptationState F :=
  let sample := if isFinite latencyMs && le (lit 0) latencyMs then latencyMs else lit 0
  let state := { state with windowLatencySamples := state.windowLatencySamples + 1 }
  if le state.shortLatencyEwma (lit 0) && le state.longLatencyEwma (lit 0) then
    { state with shortLatencyEwma := sample, longLatencyEwma := sample }
  else
    { state with
      shortLatencyEwma := ewma params.shortLatencyAlpha sample state.shortLatencyEwma
      longLatencyEwma := ewma params.longLatencyAlpha sample state.longLatencyEwma }

def noteOutcome (state : AdaptationState F) (outcome : AdmissionReleaseOutcome) :
    AdaptationState F :=
  match outcome with
  | .upstreamError => { state with freezeGrowth := true }
  | .timeout => { state with freezeGrowth := true }
  | _ => state

def setPressure (state : AdaptationState F) (pressure : AdmissionPressure) : AdaptationState F :=
  if state.pressure.severity < pressure.severity then { state with pressure } else state

/-- `Math.floor(limit * factor)` -/
def scaleLimit (limit : ℤ) (factor : DecreaseFactor F) : ℤ := floor (mul (lit limit) factor.1)

/-- Raise the limit by one step towards the recovery ceiling, if the window was idle. -/
def applyIdleRecovery (state : AdaptationState F) (params : AdaptationParams F) (next : ℤ) : ℤ :=
  if state.pressure ≠ .critical ∧ state.freezeGrowth = false ∧ state.windowCompleted = 0 ∧
      state.currentLimit < state.recoveryCeiling then
    let step := Min.min params.increaseStep params.maxIncreasePerWindow
    Min.min state.recoveryCeiling (next + step)
  else
    next

def closeAdaptationWindow (state : AdaptationState F) (params : AdaptationParams F) (nowMs : ℤ) :
    AdaptationState F :=
  let elapsed : ℤ := Max.max 1 (Min.min params.windowMs (nowMs - state.windowStartMs))
  let avgActive : F := div (lit state.windowActiveCostIntegral) (lit elapsed)
  let util : F := if 0 < state.currentLimit then div avgActive (lit state.currentLimit) else lit 0
  let utilization : F := max (lit 0) (min (lit 1) util)
  let gradient : F :=
    if lt (lit 0) state.longLatencyEwma then
      div (sub state.shortLatencyEwma state.longLatencyEwma) state.longLatencyEwma
    else lit 0
  let next : ℤ :=
    if state.pressure = .critical then
      if state.criticalDecreaseConsumed then state.currentLimit
      else scaleLimit state.currentLimit params.criticalDecreaseFactor
    else if state.pressure = .high ∨ (0 < state.windowLatencySamples ∧
        le params.latencyGradientThreshold gradient = true) then
      scaleLimit state.currentLimit params.decreaseFactor
    else if state.freezeGrowth = false ∧ state.pressure = .normal ∧
        le params.highUtilizationThreshold utilization = true ∧ 0 < state.windowCompleted then
      state.currentLimit + Min.min params.increaseStep params.maxIncreasePerWindow
    else state.currentLimit
  let low := le utilization params.lowUtilizationThreshold
  let next := if low then applyIdleRecovery state params next else next
  { state with
    utilization
    shortLatencyEwma := if low then state.longLatencyEwma else state.shortLatencyEwma
    currentLimit := clampLimit next params.minLimit params.maxLimit
    windowActiveCostIntegral := 0
    windowCompleted := 0
    windowLatencySamples := 0
    windowStartMs := nowMs
    freezeGrowth := false
    criticalDecreaseConsumed := false
    pressure := .normal }

def sampleActiveIntegral (state : AdaptationState F) (activeCost dtMs : ℤ) : AdaptationState F :=
  if dtMs ≤ 0 ∨ activeCost ≤ 0 then state
  else
    let bounded := Min.min activeCost state.currentLimit
    let contribution : ℤ :=
      if (floor (div (lit maxSafeInteger) (lit bounded) : F) : ℤ) < dtMs then maxSafeInteger
      else bounded * dtMs
    { state with
      windowActiveCostIntegral :=
        if maxSafeInteger - state.windowActiveCostIntegral ≤ contribution then maxSafeInteger
        else state.windowActiveCostIntegral + contribution }

/-! ## The limit -/

theorem clampLimit_mem {minLimit maxLimit : ℤ} (h : minLimit ≤ maxLimit) (value : ℤ) :
    minLimit ≤ clampLimit value minLimit maxLimit ∧
      clampLimit value minLimit maxLimit ≤ maxLimit := by
  unfold clampLimit
  omega

variable (state : AdaptationState F)

theorem closeAdaptationWindow_limit {params : AdaptationParams F}
    (h : params.minLimit ≤ params.maxLimit) (nowMs : ℤ) :
    params.minLimit ≤ (closeAdaptationWindow state params nowMs).currentLimit ∧
      (closeAdaptationWindow state params nowMs).currentLimit ≤ params.maxLimit :=
  clampLimit_mem h _

@[simp] theorem noteLatency_currentLimit (latencyMs : F) (params : AdaptationParams F) :
    (noteLatency state latencyMs params).currentLimit = state.currentLimit := by
  unfold noteLatency
  dsimp only
  split <;> rfl

omit [JsNumber F] in
@[simp] theorem noteOutcome_currentLimit (outcome : AdmissionReleaseOutcome) :
    (noteOutcome state outcome).currentLimit = state.currentLimit := by
  cases outcome <;> rfl

omit [JsNumber F] in
@[simp] theorem setPressure_currentLimit (pressure : AdmissionPressure) :
    (setPressure state pressure).currentLimit = state.currentLimit := by
  unfold setPressure
  split <;> rfl

/-- A sample changes the integral only. -/
theorem sampleActiveIntegral_eq (activeCost dtMs : ℤ) :
    ∃ integral, sampleActiveIntegral state activeCost dtMs =
      { state with windowActiveCostIntegral := integral } := by
  unfold sampleActiveIntegral
  split
  · exact ⟨state.windowActiveCostIntegral, rfl⟩
  · exact ⟨_, rfl⟩

omit [JsNumber F] in
/-- A pressure never goes down within a window. -/
theorem setPressure_severity (pressure : AdmissionPressure) :
    (setPressure state pressure).pressure.severity =
      Max.max state.pressure.severity pressure.severity := by
  unfold setPressure
  split
  · next h => exact (max_eq_right h.le).symm
  · next h => exact (max_eq_left (not_lt.1 h)).symm

/-- The limit after an immediate cut. -/
theorem cutLimit_mem [LawfulJsNumber F] {minLimit maxLimit limit : ℤ} (hmin : minLimit ≤ limit)
    (hmax : limit ≤ maxLimit) (hpos : 0 ≤ limit) (hsafe : maxLimit ≤ maxSafeInteger)
    (factor : DecreaseFactor F) :
    minLimit ≤ Max.max minLimit (scaleLimit limit factor) ∧
      Max.max minLimit (scaleLimit limit factor) ≤ limit := by
  have hscale : scaleLimit limit factor ≤ limit :=
    LawfulJsNumber.floor_mul_le limit factor.1 hpos (hmax.trans hsafe) factor.2.1 factor.2.2
  omega

end OmniRoute
