import OmniRoute.Admission.Adaptation

/-!
# Configuration and costs

`config.ts` and `cost.ts` of `open-sse/services/admission`. A validated value carries the bounds it
was checked against, so `validateConfig` and `resolveCost` are the only places where they are
established.
-/

namespace OmniRoute

open JsNumber

/-- `MAX_ADMISSION_WINDOW_MS` -/
def maxAdmissionWindowMs : ℤ := 86400000

/-- `MAX_ADMISSION_COST_OR_LIMIT`: at most this cost over a whole window is a safe integer. -/
def maxAdmissionCostOrLimit : ℤ := maxSafeInteger / maxAdmissionWindowMs

inductive AdmissionMode
  | off
  | shadow
  | enforce
  deriving DecidableEq

/-- A positive integer up to `max`. -/
abbrev Quantum (max : ℤ) := { n : ℤ // 0 < n ∧ n ≤ max }

structure AdmissionCostConfig where
  baseCost : Quantum maxAdmissionCostOrLimit
  bodyBytesPerUnit : Quantum maxAdmissionCostOrLimit
  tokensPerUnit : Quantum maxAdmissionCostOrLimit
  messagesPerUnit : Quantum maxAdmissionCostOrLimit
  toolsPerUnit : Quantum maxAdmissionCostOrLimit
  fanoutPerUnit : Quantum maxAdmissionCostOrLimit
  streamingClassCost : Quantum maxAdmissionCostOrLimit
  nonStreamingClassCost : Quantum maxAdmissionCostOrLimit
  maxRequestCost : Quantum maxAdmissionCostOrLimit
  deriving DecidableEq

/-- The cost quanta a caller may override. -/
structure PartialCostConfig (F : Type) where
  baseCost : Option F := none
  bodyBytesPerUnit : Option F := none
  tokensPerUnit : Option F := none
  messagesPerUnit : Option F := none
  toolsPerUnit : Option F := none
  fanoutPerUnit : Option F := none
  streamingClassCost : Option F := none
  nonStreamingClassCost : Option F := none
  maxRequestCost : Option F := none

structure AdaptiveAdmissionConfig (F : Type) where
  mode : Option String := none
  minLimit : F
  maxLimit : F
  initialLimit : F
  maxQueueCount : F
  maxQueueCost : F
  defaultMaxWaitMs : Option F := none
  windowMs : Option F := none
  shortLatencyAlpha : Option F := none
  longLatencyAlpha : Option F := none
  increaseStep : Option F := none
  decreaseFactor : Option F := none
  criticalDecreaseFactor : Option F := none
  highUtilizationThreshold : Option F := none
  lowUtilizationThreshold : Option F := none
  latencyGradientThreshold : Option F := none
  maxIncreasePerWindow : Option F := none
  cost : PartialCostConfig F := {}
  virtualLanes : Bool := false

/-- The limits of the controller and of its adaptation are the same. -/
structure ValidatedConfig (F : Type) [JsNumber F] where
  mode : AdmissionMode
  minLimit : ℤ
  maxLimit : ℤ
  initialLimit : ℤ
  maxQueueCount : ℕ
  maxQueueCost : ℤ
  defaultMaxWaitMs : Quantum maxAdmissionWindowMs
  windowMs : ℤ
  adaptation : AdaptationParams F
  costConfig : AdmissionCostConfig
  virtualLanes : Bool
  minLimit_pos : 0 < minLimit
  minLimit_le : minLimit ≤ maxLimit
  maxLimit_le : maxLimit ≤ maxAdmissionCostOrLimit
  adaptation_minLimit : adaptation.minLimit = minLimit
  adaptation_maxLimit : adaptation.maxLimit = maxLimit

/-- The most that `normalizeRequestCost` lets through. -/
def ValidatedConfig.maxRequestCost {F : Type} [JsNumber F] (config : ValidatedConfig F) :
    Quantum maxAdmissionCostOrLimit := config.costConfig.maxRequestCost

variable {F : Type} [JsNumber F]

/-! ## Checks -/

/-- A `RangeError` is its message. -/
def requirePositiveSafeInteger (name : String) (value : F) (max : ℤ) :
    Except String (Quantum max) :=
  match safeInt value with
  | none => .error s!"{name} must be a positive safe integer"
  | some n =>
    if hpos : 0 < n then
      if hmax : n ≤ max then .ok ⟨n, hpos, hmax⟩ else .error s!"{name} must be <= {max}"
    else .error s!"{name} must be a positive safe integer"

def requirePositiveInt (name : String) (value : F) (max : ℤ) : Except String (Quantum max) :=
  requirePositiveSafeInteger name value max

def requireUnitInterval (name : String) (value : Option F) (fallback : F) : Except String F :=
  match value with
  | none => .ok fallback
  | some x =>
    if isFinite x && lt (lit 0) x && le x (lit 1) then .ok x
    else .error s!"{name} must be in (0, 1]"

/-- A fallback is within the interval: it is a constant of the code. -/
def requireDecreaseFactor (name : String) (value : Option F) (fallback : ℚ) :
    Except String (DecreaseFactor F) :=
  let x := value.getD (lit fallback)
  if h : lt (lit 0) x = true ∧ lt x (lit 1) = true then
    if isFinite x then .ok ⟨x, h⟩ else .error s!"{name} must be in (0, 1)"
  else .error s!"{name} must be in (0, 1)"

def resolveMode (mode : Option String) : Except String AdmissionMode :=
  match mode with
  | none => .ok .shadow
  | some "off" => .ok .off
  | some "shadow" => .ok .shadow
  | some "enforce" => .ok .enforce
  | some _ => .error "mode must be off|shadow|enforce"

/-! ## Costs -/

/-- `DEFAULT_ADMISSION_COST_CONFIG` -/
def defaultAdmissionCostConfig : AdmissionCostConfig where
  baseCost := ⟨1, by decide⟩
  bodyBytesPerUnit := ⟨16384, by decide⟩
  tokensPerUnit := ⟨1024, by decide⟩
  messagesPerUnit := ⟨32, by decide⟩
  toolsPerUnit := ⟨8, by decide⟩
  fanoutPerUnit := ⟨1, by decide⟩
  streamingClassCost := ⟨1, by decide⟩
  nonStreamingClassCost := ⟨2, by decide⟩
  maxRequestCost := ⟨1000, by decide⟩

/-- A default passes its own check. -/
def resolveCostQuantum (key : String) (value : Option F)
    (fallback : Quantum maxAdmissionCostOrLimit) :
    Except String (Quantum maxAdmissionCostOrLimit) :=
  match value with
  | none => .ok fallback
  | some x => requirePositiveSafeInteger key x maxAdmissionCostOrLimit

def resolveCostConfig (cost : PartialCostConfig F) : Except String AdmissionCostConfig := do
  let d := defaultAdmissionCostConfig
  return {
    baseCost := ← resolveCostQuantum "baseCost" cost.baseCost d.baseCost
    bodyBytesPerUnit :=
      ← resolveCostQuantum "bodyBytesPerUnit" cost.bodyBytesPerUnit d.bodyBytesPerUnit
    tokensPerUnit := ← resolveCostQuantum "tokensPerUnit" cost.tokensPerUnit d.tokensPerUnit
    messagesPerUnit := ← resolveCostQuantum "messagesPerUnit" cost.messagesPerUnit d.messagesPerUnit
    toolsPerUnit := ← resolveCostQuantum "toolsPerUnit" cost.toolsPerUnit d.toolsPerUnit
    fanoutPerUnit := ← resolveCostQuantum "fanoutPerUnit" cost.fanoutPerUnit d.fanoutPerUnit
    streamingClassCost :=
      ← resolveCostQuantum "streamingClassCost" cost.streamingClassCost d.streamingClassCost
    nonStreamingClassCost := ← resolveCostQuantum "nonStreamingClassCost"
      cost.nonStreamingClassCost d.nonStreamingClassCost
    maxRequestCost := ← resolveCostQuantum "maxRequestCost" cost.maxRequestCost d.maxRequestCost }

structure AdmissionCostFeatures (F : Type) where
  bodyBytes : Option F := none
  estimatedInputTokens : Option F := none
  messageCount : Option F := none
  toolCount : Option F := none
  requestedFanout : Option F := none
  streaming : Option Bool := none

def finiteNonNegative (value : Option F) : F :=
  match value with
  | none => lit 0
  | some x => if isFinite x && le (lit 0) x then min x (lit maxSafeInteger) else lit 0

def unitsFrom (amount : F) (quantum : Quantum maxAdmissionCostOrLimit) : ℤ :=
  if le amount (lit 0) then 0 else ceil (div amount (lit quantum.1))

def addBounded (total contribution maximum : ℤ) : ℤ :=
  if maximum - total ≤ contribution then maximum else total + contribution

/-- The loop of `estimateAdmissionCost` stops at the maximum; the rest of it would leave the
maximum as it is. -/
def estimateAdmissionCost (features : AdmissionCostFeatures F) (cfg : AdmissionCostConfig) : ℤ :=
  let body := finiteNonNegative features.bodyBytes
  let tokens := finiteNonNegative features.estimatedInputTokens
  let messages := finiteNonNegative features.messageCount
  let tools := finiteNonNegative features.toolCount
  let fanout := max (lit 1) (finiteNonNegative features.requestedFanout)
  let contributions : List ℤ := [
    unitsFrom body cfg.bodyBytesPerUnit,
    unitsFrom tokens cfg.tokensPerUnit,
    unitsFrom messages cfg.messagesPerUnit,
    unitsFrom tools cfg.toolsPerUnit,
    unitsFrom fanout cfg.fanoutPerUnit,
    if features.streaming ≠ some false then cfg.streamingClassCost.1
    else cfg.nonStreamingClassCost.1]
  contributions.foldl (fun total contribution => addBounded total contribution cfg.maxRequestCost.1)
    (Min.min cfg.baseCost.1 cfg.maxRequestCost.1)

/-- The bound itself is a validated quantum, or the constant `MAX_ADMISSION_WINDOW_MS`, so the
code's check of it passes. -/
def normalizeRequestCost (cost : F) (maxRequestCost : ℤ) : Except String ℤ := do
  let value ← requirePositiveSafeInteger "request cost" cost maxAdmissionCostOrLimit
  return Min.min value.1 maxRequestCost

theorem unitsFrom_nonneg (amount : F) (quantum : Quantum maxAdmissionCostOrLimit) :
    0 ≤ unitsFrom amount quantum := by
  unfold unitsFrom
  split
  · exact le_rfl
  · exact Int.natCast_nonneg _

/-- A sum that stays within a bound stays there. -/
theorem foldl_addBounded {maximum : ℤ} {cs : List ℤ} (hcs : ∀ c ∈ cs, 0 ≤ c) {total : ℤ}
    (hpos : 0 < total) (hmax : total ≤ maximum) :
    0 < cs.foldl (fun total c => addBounded total c maximum) total ∧
      cs.foldl (fun total c => addBounded total c maximum) total ≤ maximum := by
  induction cs generalizing total with
  | nil => exact ⟨hpos, hmax⟩
  | cons c cs ih =>
    have hc : 0 ≤ c := hcs c List.mem_cons_self
    have hstep : 0 < addBounded total c maximum ∧ addBounded total c maximum ≤ maximum := by
      unfold addBounded
      split <;> omega
    exact ih (fun c hc => hcs c (List.mem_cons_of_mem _ hc)) hstep.1 hstep.2

/-- An estimated cost is positive and within the bound for one request. -/
theorem estimateAdmissionCost_mem (features : AdmissionCostFeatures F) (cfg : AdmissionCostConfig) :
    0 < estimateAdmissionCost features cfg ∧
      estimateAdmissionCost features cfg ≤ cfg.maxRequestCost.1 := by
  have hbase := cfg.baseCost.2.1
  have hmax := cfg.maxRequestCost.2.1
  refine foldl_addBounded ?_ (by omega) (by omega)
  intro c hc
  simp only [List.mem_cons, List.not_mem_nil, or_false] at hc
  rcases hc with rfl | rfl | rfl | rfl | rfl | rfl
  iterate 5 exact unitsFrom_nonneg _ _
  split
  · exact cfg.streamingClassCost.2.1.le
  · exact cfg.nonStreamingClassCost.2.1.le

theorem normalizeRequestCost_mem {cost : F} {maxRequestCost n : ℤ} (hmax : 0 < maxRequestCost)
    (h : normalizeRequestCost cost maxRequestCost = .ok n) : 0 < n ∧ n ≤ maxRequestCost := by
  unfold normalizeRequestCost at h
  cases hv : requirePositiveSafeInteger "request cost" cost maxAdmissionCostOrLimit with
  | error e =>
    rw [hv] at h
    cases h
  | ok v =>
    rw [hv] at h
    have hn : Min.min v.1 maxRequestCost = n := Except.ok.inj h
    have hpos := v.2.1
    omega

/-! ## The configuration -/

def resolveAdaptationParams (input : AdaptiveAdmissionConfig F) (minLimit maxLimit windowMs : ℤ) :
    Except String { p : AdaptationParams F // p.minLimit = minLimit ∧ p.maxLimit = maxLimit } := do
  let decreaseFactor ← requireDecreaseFactor "decreaseFactor" input.decreaseFactor 0.8
  let criticalDecreaseFactor ←
    requireDecreaseFactor "criticalDecreaseFactor" input.criticalDecreaseFactor 0.5
  let increaseStep ← match input.increaseStep with
    | none => pure ⟨1, by decide⟩
    | some x => requirePositiveInt "increaseStep" x maxAdmissionCostOrLimit
  let maxIncreasePerWindow ← match input.maxIncreasePerWindow with
    | none => pure increaseStep
    | some x => requirePositiveInt "maxIncreasePerWindow" x maxAdmissionCostOrLimit
  let shortLatencyAlpha ← requireUnitInterval "shortLatencyAlpha" input.shortLatencyAlpha (lit 0.5)
  let longLatencyAlpha ← requireUnitInterval "longLatencyAlpha" input.longLatencyAlpha (lit 0.1)
  let highUtilizationThreshold ←
    requireUnitInterval "highUtilizationThreshold" input.highUtilizationThreshold (lit 0.7)
  let lowUtilizationThreshold ←
    requireUnitInterval "lowUtilizationThreshold" input.lowUtilizationThreshold (lit 0.3)
  if lt decreaseFactor.1 criticalDecreaseFactor.1 then
    throw "criticalDecreaseFactor must be <= decreaseFactor"
  if le highUtilizationThreshold lowUtilizationThreshold then
    throw "lowUtilizationThreshold must be < highUtilizationThreshold"
  if le shortLatencyAlpha longLatencyAlpha then
    throw "shortLatencyAlpha must be > longLatencyAlpha"
  let latencyGradientThreshold ←
    requireUnitInterval "latencyGradientThreshold" input.latencyGradientThreshold (lit 0.25)
  return ⟨{
    minLimit, maxLimit, windowMs, shortLatencyAlpha, longLatencyAlpha
    increaseStep := increaseStep.1
    decreaseFactor, criticalDecreaseFactor
    highUtilizationThreshold, lowUtilizationThreshold, latencyGradientThreshold
    maxIncreasePerWindow := maxIncreasePerWindow.1 }, rfl, rfl⟩

def validateConfig (input : AdaptiveAdmissionConfig F) : Except String (ValidatedConfig F) := do
  let minLimit ← requirePositiveInt "minLimit" input.minLimit maxAdmissionCostOrLimit
  let maxLimit ← requirePositiveInt "maxLimit" input.maxLimit maxAdmissionCostOrLimit
  if h : minLimit.1 ≤ maxLimit.1 then
    let initialLimit ← requirePositiveInt "initialLimit" input.initialLimit maxAdmissionCostOrLimit
    let maxQueueCount ← requirePositiveInt "maxQueueCount" input.maxQueueCount maxSafeInteger
    let maxQueueCost ← requirePositiveInt "maxQueueCost" input.maxQueueCost maxAdmissionCostOrLimit
    let windowMs ← match input.windowMs with
      | none => pure ⟨1000, by decide⟩
      | some x => requirePositiveInt "windowMs" x maxAdmissionWindowMs
    let defaultMaxWaitMs ← match input.defaultMaxWaitMs with
      | none => pure ⟨5000, by decide⟩
      | some x => requirePositiveInt "defaultMaxWaitMs" x maxAdmissionWindowMs
    let costConfig ← resolveCostConfig input.cost
    let mode ← resolveMode input.mode
    let adaptation ← resolveAdaptationParams input minLimit.1 maxLimit.1 windowMs.1
    return {
      mode
      minLimit := minLimit.1
      maxLimit := maxLimit.1
      initialLimit := initialLimit.1
      maxQueueCount := maxQueueCount.1.toNat
      maxQueueCost := maxQueueCost.1
      defaultMaxWaitMs
      windowMs := windowMs.1
      adaptation := adaptation.1
      costConfig
      virtualLanes := input.virtualLanes
      minLimit_pos := minLimit.2.1
      minLimit_le := h
      maxLimit_le := maxLimit.2.2
      adaptation_minLimit := adaptation.2.1
      adaptation_maxLimit := adaptation.2.2 }
  else
    throw "minLimit must be <= maxLimit"

/-! ## What the checks establish -/

theorem of_bind_ok {ε α β : Type} {x : Except ε α} {f : α → Except ε β} {b : β}
    (h : (x >>= f) = .ok b) : ∃ a, x = .ok a ∧ f a = .ok b := by
  cases x with
  | error e => cases h
  | ok a => exact ⟨a, rfl, h⟩

theorem of_guard_ok {ε α β : Type} {p : Bool} {e : ε} {f : α → Except ε β} {y : Except ε β} {b : β}
    (h : (if p = true then (throw e >>= f) else y) = .ok b) : p = false ∧ y = .ok b := by
  cases p with
  | true => cases h
  | false => exact ⟨rfl, h⟩

theorem requireUnitInterval_mem {name : String} {value : Option ℚ} {fallback x : ℚ}
    (hfallback : 0 < fallback ∧ fallback ≤ 1)
    (h : requireUnitInterval name value (lit fallback) = .ok x) : 0 < x ∧ x ≤ 1 := by
  rw [requireUnitInterval.eq_def] at h
  cases value with
  | none =>
    obtain rfl := Except.ok.inj h
    exact hfallback
  | some y =>
    dsimp only at h
    split at h
    · next hy =>
      obtain rfl := Except.ok.inj h
      simp only [Bool.and_eq_true] at hy
      exact ⟨of_decide_eq_true hy.1.2, of_decide_eq_true hy.2⟩
    · cases h

/-- What the parameters of a validated configuration are known to satisfy. -/
structure AdaptationParams.Checked (params : AdaptationParams ℚ) (windowMs : ℤ) : Prop where
  windowMs_eq : params.windowMs = windowMs
  increaseStep_pos : 0 < params.increaseStep
  maxIncreasePerWindow_pos : 0 < params.maxIncreasePerWindow
  criticalDecreaseFactor_le : params.criticalDecreaseFactor.1 ≤ params.decreaseFactor.1
  lowUtilizationThreshold_pos : 0 < params.lowUtilizationThreshold
  lowUtilizationThreshold_lt : params.lowUtilizationThreshold < 1

theorem resolveAdaptationParams_checked {input : AdaptiveAdmissionConfig ℚ}
    {minLimit maxLimit windowMs : ℤ}
    {params : { p : AdaptationParams ℚ // p.minLimit = minLimit ∧ p.maxLimit = maxLimit }}
    (h : resolveAdaptationParams input minLimit maxLimit windowMs = .ok params) :
    params.1.Checked windowMs := by
  simp only [resolveAdaptationParams] at h
  obtain ⟨decreaseFactor, -, h⟩ := of_bind_ok h
  obtain ⟨criticalDecreaseFactor, -, h⟩ := of_bind_ok h
  split at h
  all_goals
    obtain ⟨increaseStep, -, h⟩ := of_bind_ok h
    split at h
  all_goals
    obtain ⟨maxIncreasePerWindow, -, h⟩ := of_bind_ok h
    obtain ⟨shortLatencyAlpha, -, h⟩ := of_bind_ok h
    obtain ⟨longLatencyAlpha, -, h⟩ := of_bind_ok h
    obtain ⟨highUtilizationThreshold, hhigh, h⟩ := of_bind_ok h
    obtain ⟨lowUtilizationThreshold, hlow, h⟩ := of_bind_ok h
    obtain ⟨hfactors, h⟩ := of_guard_ok h
    obtain ⟨hthresholds, h⟩ := of_guard_ok h
    obtain ⟨-, h⟩ := of_guard_ok h
    obtain ⟨latencyGradientThreshold, -, h⟩ := of_bind_ok h
    obtain rfl := Except.ok.inj h
    have hone := (requireUnitInterval_mem (by norm_num) hhigh).2
    have hpos := (requireUnitInterval_mem (by norm_num) hlow).1
    exact ⟨rfl, increaseStep.2.1, maxIncreasePerWindow.2.1, not_lt.1 (of_decide_eq_false hfactors),
      hpos, (not_le.1 (of_decide_eq_false hthresholds)).trans_le hone⟩

theorem validateConfig_checked {input : AdaptiveAdmissionConfig ℚ} {config : ValidatedConfig ℚ}
    (h : validateConfig input = .ok config) :
    (0 < config.windowMs ∧ config.windowMs ≤ maxAdmissionWindowMs) ∧
      config.adaptation.Checked config.windowMs := by
  simp only [validateConfig] at h
  obtain ⟨minLimit, -, h⟩ := of_bind_ok h
  obtain ⟨maxLimit, -, h⟩ := of_bind_ok h
  split at h
  · obtain ⟨initialLimit, -, h⟩ := of_bind_ok h
    obtain ⟨maxQueueCount, -, h⟩ := of_bind_ok h
    obtain ⟨maxQueueCost, -, h⟩ := of_bind_ok h
    split at h
    all_goals
      obtain ⟨windowMs, -, h⟩ := of_bind_ok h
      split at h
    all_goals
      obtain ⟨defaultMaxWaitMs, -, h⟩ := of_bind_ok h
      obtain ⟨costConfig, -, h⟩ := of_bind_ok h
      obtain ⟨mode, -, h⟩ := of_bind_ok h
      obtain ⟨adaptation, hadaptation, h⟩ := of_bind_ok h
      obtain rfl := Except.ok.inj h
      exact ⟨windowMs.2, resolveAdaptationParams_checked hadaptation⟩
  · cases h

end OmniRoute
