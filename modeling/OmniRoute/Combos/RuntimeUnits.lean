import OmniRoute.Lib.OrdMap

/-!
# Running the units of a combo

`open-sse/services/combo/runtimeUnits.ts`: a combo in `execute` mode runs its units, models and
references to other combos, one after the other with retries. A referenced combo is run by the same
function, one level deeper, on the attempt budget of the whole request.

What the code asks its surroundings is a `World`: it sees what has happened so far, and answers the
capacity checks, the abort signal, the requests, the quality checks and the random draws. A run
writes down what it does. Next to what the code keeps, a run of a combo keeps its steps: which unit
was tried, and which failures were observed.

The recursion is on fuel, one for each level of nesting and one for each attempt of a retry loop;
running out of it is written down as `stalled`.
-/

namespace OmniRoute.RuntimeUnits

/-! ## Units and responses -/

inductive ComboStrategy
  | priority
  | weighted
  | random
  | other (name : String)
  deriving DecidableEq

structure ComboTarget where
  executionKey : String
  modelStr : String
  provider : String
  connectionId : Option String := none
  weight : ℚ := 0
  fallbackOnlyOnQuotaExhaustion : Bool := false
  deriving DecidableEq

structure ComboRefTarget where
  executionKey : String
  comboName : String
  weight : ℚ := 0
  fallbackOnlyOnQuotaExhaustion : Bool := false
  deriving DecidableEq

inductive ComboUnit
  | model (target : ComboTarget)
  | comboRef (target : ComboRefTarget)
  deriving DecidableEq

namespace ComboUnit

def executionKey : ComboUnit → String
  | .model target => target.executionKey
  | .comboRef target => target.executionKey

def weight : ComboUnit → ℚ
  | .model target => target.weight
  | .comboRef target => target.weight

def fallbackOnlyOnQuotaExhaustion : ComboUnit → Bool
  | .model target => target.fallbackOnlyOnQuotaExhaustion
  | .comboRef target => target.fallbackOnlyOnQuotaExhaustion

/-- `unitDisplayName` -/
def displayName : ComboUnit → String
  | .model target => target.modelStr
  | .comboRef target => "combo:" ++ target.comboName

def provider : ComboUnit → Option String
  | .model target => some target.provider
  | .comboRef _ => none

def modelStr : ComboUnit → Option String
  | .model target => some target.modelStr
  | .comboRef _ => none

end ComboUnit

/-- A response, with the classification that was attached to it. -/
structure Response where
  status : ℕ
  content : String := ""
  exhausted : Option Bool := none
  deriving DecidableEq

def Response.ok (response : Response) : Bool := 200 ≤ response.status ∧ response.status < 300

def errorResponse (status : ℕ) (message : String) : Response where
  status
  content := message

/-- A response is retried after these. -/
def retriedStatuses : List ℕ := [408, 429, 500, 502, 503, 504]

structure Combo where
  name : String
  strategy : ComboStrategy
  units : List ComboUnit
  /-- `none` for infinitely many. -/
  maxRetries : Option ℕ := some 1
  deriving DecidableEq

/-- The part of the context that is copied at each level; the budget's count is in the run. -/
structure Nesting where
  depth : ℕ
  maxDepth : ℕ
  visitedComboNames : List String
  limit : ℕ
  deriving DecidableEq

inductive Event
  /-- The units of a combo are run, inside these combos. -/
  | enter (visited : List String)
  /-- A unit is run, an attempt of the budget. -/
  | attempt (unit : ComboUnit)
  /-- `handleSingleModel` is called. -/
  | dispatch (modelStr : String)
  /-- A unit is at its concurrency cap. -/
  | capped (unit : ComboUnit)
  /-- An attempt over the budget. -/
  | exceeded
  /-- The recursion ran out of fuel. -/
  | stalled
  deriving DecidableEq

/-- The count of the attempt budget, and what has happened. -/
structure Run where
  count : ℕ
  log : List Event

def Run.note (s : Run) (e : Event) : Run := { s with log := s.log ++ [e] }

/-- What the code asks its surroundings. -/
structure World where
  /-- `isRuntimeUnitAtConcurrencyCap` -/
  atCap : List Event → ComboUnit → Bool
  aborted : List Event → Bool
  /-- `isModelAvailable` -/
  available : List Event → ComboTarget → Bool
  /-- `handleSingleModel` -/
  respond : List Event → ComboTarget → Response
  /-- `validateResponseQuality` -/
  valid : List Event → Response → Bool
  /-- What `isQuotaExhaustionResponse` reads from the body of a 402, 403 or 429. -/
  signalsExhaustion : Response → Option String → Option String → Bool
  /-- `Math.random` -/
  draw : List Event → ℕ → ℚ
  /-- The strategy and the order in which `runCombo` hands the units of a combo over. -/
  prepare : List Event → Combo → ComboStrategy × List ComboUnit

/-! ## Order -/

def shuffleUnits (draw : ℕ → ℚ) (units : List ComboUnit) : List ComboUnit :=
  ((List.range (units.length - 1)).foldl (fun result k =>
    let index := units.length - 1 - k
    result.swapIfInBounds index ⌊draw index * (index + 1)⌋.toNat) units.toArray).toList

/-- The unit at which the draw is used up. -/
def selectAt : ℚ → List ComboUnit → Option ComboUnit
  | _, [] => none
  | draw, unit :: units =>
    let draw := draw - max 0 unit.weight
    if draw ≤ 0 then some unit else selectAt draw units

def selectWeightedUnit (draw : ℚ) (units : List ComboUnit) : Option ComboUnit :=
  let total := (units.map fun unit => max 0 unit.weight).sum
  if total ≤ 0 then units.head?
  else (selectAt (draw * total) units).or units.getLast?

def orderUnitsForStrategy (draw : ℕ → ℚ) (strategy : ComboStrategy) (units : List ComboUnit) :
    List ComboUnit :=
  match strategy with
  | .random => shuffleUnits draw units
  | .weighted =>
    match selectWeightedUnit (draw 0) units with
    | none => units
    | some selected =>
      selected :: units.filter fun unit => unit.executionKey ≠ selected.executionKey
  | _ => units

/-! ## Failures -/

/-- A step of one combo: the unit at the index was run, or a failure of it was observed, after the
steps of the combo it refers to if that was run. -/
inductive Step
  | attempt (index : ℕ)
  | failed (index : ℕ) (quotaExhausted : Bool) (nested : Option (List Step))

/-- `targetFailureTrust`, of one execution key -/
structure Trust where
  observedFailure : Bool
  allObservedFailuresQuota : Bool
  deriving DecidableEq

/-- The variables of `executeRuntimeUnitCombo`. -/
structure Observed where
  lastResponse : Option Response
  observedFailure : Bool
  allObservedFailuresQuota : Bool
  targetFailureTrust : OrdMap String Trust
  steps : List Step

def Observed.fresh : Observed := ⟨none, false, true, .empty, []⟩

def isQuotaExhaustionResponse (world : World) (response : Response)
    (provider model : Option String) : Bool :=
  match response.exhausted with
  | some exhausted => exhausted
  | none =>
    if response.status ≠ 402 ∧ response.status ≠ 429 ∧ response.status ≠ 403 then false
    else world.signalsExhaustion response provider model

/-- `observeFailure` of the last response, for the unit at the index. -/
def Observed.observe (l : Observed) (world : World) (unit : ComboUnit) (index : ℕ)
    (response : Response) (nested : Option (List Step)) : Observed :=
  let quotaExhausted := isQuotaExhaustionResponse world response unit.provider unit.modelStr
  { l with
    lastResponse := some response
    observedFailure := true
    allObservedFailuresQuota := l.allObservedFailuresQuota && quotaExhausted
    steps := l.steps ++ [.failed index quotaExhausted nested] }

def Observed.trustOf (l : Observed) (unit : ComboUnit) : Trust :=
  (l.targetFailureTrust.get unit.executionKey).getD ⟨false, true⟩

/-- The failure is held against the unit, if it is a protected one. -/
def Observed.distrust (l : Observed) (isProtected : Bool) (unit : ComboUnit)
    (quotaExhausted : Bool) : Observed :=
  if isProtected then
    let trust : Trust := ⟨true, (l.trustOf unit).allObservedFailuresQuota && quotaExhausted⟩
    { l with targetFailureTrust := l.targetFailureTrust.set unit.executionKey trust }
  else l

/-- The response, with the classification of all failures if there was one. -/
def Observed.finalFailure (l : Observed) (response : Response) : Response :=
  if l.observedFailure then { response with exhausted := some l.allObservedFailuresQuota }
  else response

/-! ## The loops -/

/-- How a run of the units of a combo ends. -/
structure Outcome where
  run : Run
  response : Response
  unit : Option ComboUnit
  steps : List Step

/-- How a unit was run: the response, and the steps of the combo it refers to. -/
structure UnitResult where
  run : Run
  response : Response
  nested : Option (List Step)

/-- How a retry loop ends: with a response to return, or for the next unit. -/
structure LoopResult where
  run : Run
  observed : Observed
  returned : Option Response

def executeModelUnit (world : World) (target : ComboTarget) (s : Run) : UnitResult :=
  if world.available s.log target then
    ⟨s.note (.dispatch target.modelStr), world.respond s.log target, none⟩
  else ⟨s, errorResponse 503 s!"Model {target.modelStr} is unavailable", none⟩

def buildChildNestingContext (context : Nesting) (childComboName : String) :
    Except Response Nesting :=
  if context.maxDepth ≤ context.depth then
    .error (errorResponse 503 s!"Max combo nesting depth ({context.maxDepth}) exceeded")
  else if childComboName ∈ context.visitedComboNames then
    .error (errorResponse 503 s!"Circular combo reference detected: {childComboName}")
  else
    .ok { context with
      depth := context.depth + 1
      visitedComboNames := context.visitedComboNames ++ [childComboName] }

/-- What one unit's loops depend on. -/
structure Loop where
  world : World
  limit : ℕ
  maxRetries : Option ℕ
  isProtected : Bool
  unit : ComboUnit
  index : ℕ
  /-- `executeRuntimeUnit` -/
  execute : Run → UnitResult

/-- What is left to do with the response of an attempt: to return it, or to observe a failure. -/
def Loop.failure (c : Loop) (s : Run) (response : Response) : Option Response :=
  if response.ok then
    match c.unit with
    | .comboRef _ => none
    | .model _ =>
      if c.world.valid s.log response then none
      else some (errorResponse 502 "Upstream response failed quality validation")
  else some response

/-- The attempts from a given retry on. -/
def Loop.attempts (c : Loop) : ℕ → ℕ → Run → Observed → LoopResult
  | 0, _, s, l => ⟨s.note .stalled, l, none⟩
  | fuel + 1, retry, s, l =>
    if c.maxRetries.any fun maxRetries => maxRetries < retry then ⟨s, l, none⟩
    else if c.world.aborted s.log then
      let response := errorResponse 499 "Client disconnected"
      let l := l.observe c.world c.unit c.index response none
      ⟨s, l, some (l.finalFailure response)⟩
    else
      let s := { s with count := s.count + 1 }
      if c.limit < s.count then
        let response := errorResponse 503 "Maximum combo retry limit reached"
        let l := l.observe c.world c.unit c.index response none
        ⟨s.note .exceeded, l, some (l.finalFailure response)⟩
      else
        let l := { l with steps := l.steps ++ [Step.attempt c.index] }
        let result := c.execute (s.note (.attempt c.unit))
        match c.failure result.run result.response with
        | none => ⟨result.run, { l with lastResponse := some result.response },
            some result.response⟩
        | some failed =>
          let quotaExhausted :=
            isQuotaExhaustionResponse c.world failed c.unit.provider c.unit.modelStr
          let l := (l.observe c.world c.unit c.index failed result.nested).distrust c.isProtected
            c.unit quotaExhausted
          if result.response.status ∈ retriedStatuses then c.attempts fuel (retry + 1) result.run l
          else ⟨result.run, l, none⟩

/-- One unit of the loop over the units. -/
def Loop.runUnit (c : Loop) (s : Run) (l : Observed) : LoopResult :=
  if c.world.atCap s.log c.unit then
    let response := errorResponse 503 s!"{c.unit.displayName} is at concurrency capacity"
    let l := l.observe c.world c.unit c.index response none
    ⟨s.note (.capped c.unit), l, if c.isProtected then some (l.finalFailure response) else none⟩
  else
    let result := c.attempts (c.limit + 1) 0 s l
    let trust := result.observed.trustOf c.unit
    match result.returned, result.observed.lastResponse with
    | none, some lastResponse =>
      if c.isProtected && trust.observedFailure && !trust.allObservedFailuresQuota then
        { result with returned := some (result.observed.finalFailure lastResponse) }
      else result
    | _, _ => result

/-- The loop over the units, from a given index on. -/
def runUnits (loopOf : ComboUnit → ℕ → Loop) : List ComboUnit → ℕ → Run → Observed → Outcome
  | [], _, s, l =>
    ⟨s, l.finalFailure (l.lastResponse.getD
      (errorResponse 503 "All nested combo units unavailable")), none, l.steps⟩
  | unit :: units, index, s, l =>
    let result := (loopOf unit index).runUnit s l
    match result.returned with
    | some response => ⟨result.run, response, some unit, result.observed.steps⟩
    | none => runUnits loopOf units (index + 1) result.run result.observed

/-- `executeComboRefUnit` and `executeModelUnit`; `runCombo` runs a combo one level deeper. -/
def executeRuntimeUnit (world : World) (combos : List Combo) (nesting : Nesting)
    (runCombo : Nesting → Combo → Run → Outcome) (unit : ComboUnit) (s : Run) : UnitResult :=
  match unit with
  | .model target => executeModelUnit world target s
  | .comboRef target =>
    match combos.find? fun combo => combo.name = target.comboName with
    | none => ⟨s, errorResponse 503 s!"Nested combo \"{target.comboName}\" not found", none⟩
    | some childCombo =>
      match buildChildNestingContext nesting childCombo.name with
      | .error response => ⟨s, response, none⟩
      | .ok childNesting =>
        let outcome := runCombo childNesting childCombo s
        ⟨outcome.run, outcome.response, some outcome.steps⟩

/-- What `executeRuntimeUnitCombo` is called with, next to the context. -/
structure UnitCombo where
  strategy : ComboStrategy
  effectiveComboStrategy : ComboStrategy
  units : List ComboUnit
  maxRetries : Option ℕ

/-- The units of a call in the order they are run. -/
def UnitCombo.ordered (call : UnitCombo) (world : World) (s : Run) : List ComboUnit :=
  orderUnitsForStrategy (world.draw s.log) call.strategy call.units

/-- `runCombo` on a combo: its units, as the world hands them over. -/
def Combo.call (combo : Combo) (world : World) (s : Run) : UnitCombo where
  strategy := (world.prepare s.log combo).1
  effectiveComboStrategy := combo.strategy
  units := (world.prepare s.log combo).2
  maxRetries := combo.maxRetries

/-- A unit that is only passed over when its quota is exhausted. -/
def UnitCombo.protects (call : UnitCombo) (unit : ComboUnit) : Bool :=
  decide (call.effectiveComboStrategy = .priority) && unit.fallbackOnlyOnQuotaExhaustion

def executeRuntimeUnitCombo (world : World) (combos : List Combo) :
    ℕ → Nesting → UnitCombo → Run → Outcome
  | 0, _, _, s => ⟨s.note .stalled, errorResponse 503 "", none, []⟩
  | fuel + 1, nesting, call, s =>
    let runCombo := fun (childNesting : Nesting) (childCombo : Combo) (s : Run) =>
      executeRuntimeUnitCombo world combos fuel childNesting (childCombo.call world s) s
    let loopOf := fun unit index => {
      world, limit := nesting.limit, maxRetries := call.maxRetries
      isProtected := call.protects unit
      unit, index
      execute := executeRuntimeUnit world combos nesting runCombo unit : Loop }
    runUnits loopOf (call.ordered world s) 0 (s.note (.enter nesting.visitedComboNames)) .fresh

end OmniRoute.RuntimeUnits
