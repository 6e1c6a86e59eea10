import OmniRoute.Combos.StepIds

/-!
# Expansion with execution keys

`resolveNestedComboTargets` and `resolveWeightedTargets` of
`open-sse/services/combo/comboStructure.ts`, with the keys of the targets. The weighted resolution
expands the steps of the combo one by one, keeps the targets of each under the step's key, and puts
them together in the order of the steps, each key once.

The random draws are a parameter, as is what is hidden.
-/

namespace OmniRoute.ComboKeys

open Combo Firsts List

/-! ## Nested combos -/

def toComboLike (combo : KeyedCombo) : KeyedCombo :=
  { combo with name := (toTrimmedString (some combo.name)).getD "" }

def getCombosArray (allCombos : List KeyedCombo) : List KeyedCombo := allCombos.map toComboLike

def collectComboNames (allCombos : List KeyedCombo) : List String :=
  Combo.collectComboNames (allCombos.map KeyedCombo.plain)

def findCombo (combos : List KeyedCombo) (name : String) : Option KeyedCombo :=
  combos.find? fun c => c.name = name

def KeyedStep.toTarget (s : KeyedStep) (origin : List ℕ) (target : ResolvedComboTarget) :
    KeyedTarget where
  origin := origin ++ [s.index]
  stepId := s.stepId
  executionKey := s.executionKey
  weight := s.weight
  target

def directTargets (combo : KeyedCombo) (path : List String) (origin : List ℕ) : List KeyedTarget :=
  (getTopLevelRuntimeSteps combo [] path).filterMap fun s =>
    match s.step with
    | .model target => some (s.toTarget origin target)
    | .comboRef .. => none

/-- `resolve` is `resolveNestedComboTargets`, one level deeper. -/
def expandRuntimeStep (resolve : List String → List String → List ℕ → KeyedCombo → List KeyedTarget)
    (combos : List KeyedCombo) (visited path : List String) (origin : List ℕ) (s : KeyedStep) :
    List KeyedTarget :=
  match s.step with
  | .model target => [s.toTarget origin target]
  | .comboRef name _ _ =>
    match findCombo combos name with
    | none => []
    | some nestedCombo =>
      if name ∈ visited then []
      else resolve visited (path ++ [s.stepId]) (origin ++ [s.index]) nestedCombo

/-- The first argument counts the levels that may still be entered. -/
def resolveNestedComboTargets :
    ℕ → List KeyedCombo → List String → List String → List ℕ → KeyedCombo → List KeyedTarget
  | 0, _, _, path, origin, combo => directTargets combo path origin
  | left + 1, allCombos, visited, path, origin, combo =>
    if combo.name ∈ visited then []
    else
      (getOrderedTopLevelRuntimeSteps combo (collectComboNames allCombos) path).flatMap
        (expandRuntimeStep (resolveNestedComboTargets left (getCombosArray allCombos))
          (getCombosArray allCombos) (combo.name :: visited) path origin)

/-! ## Weighted resolution -/

def maxComboDepth : ℕ := 3

/-- `secureRandomInt` and `secureRandomFloat` -/
structure Draws where
  int : ℕ → ℕ
  int_lt : ∀ n, 0 < n → int n < n
  float : ℚ

/-- The first step at which the draw is used up. -/
def drawnTarget : ℚ → List KeyedStep → Option KeyedStep
  | _, [] => none
  | random, step :: steps =>
    if random - step.weight ≤ 0 then some step else drawnTarget (random - step.weight) steps

def selectWeightedTarget (draws : Draws) (targets : List KeyedStep) : Option KeyedStep :=
  if targets = [] then none
  else
    let totalWeight := (targets.map KeyedStep.weight).sum
    if totalWeight ≤ 0 then targets[draws.int targets.length]?
    else (drawnTarget (draws.float * totalWeight) targets).or targets.getLast?

def orderTargetsForWeightedFallback (targets : List KeyedStep) (selectedExecutionKey : String)
    (preserveExistingOrder : Bool) : List KeyedStep :=
  let selected := targets.find? fun step => step.executionKey = selectedExecutionKey
  let rest := targets.filter fun step => step.executionKey ≠ selectedExecutionKey
  selected.toList ++
    if preserveExistingOrder then rest else rest.insertionSort fun a b => b.weight ≤ a.weight

def resolveWeightedStepGroups (visible : KeyedTarget → Bool) (combo : KeyedCombo)
    (allCombos : List KeyedCombo) : List (KeyedStep × List KeyedTarget) :=
  ((getOrderedTopLevelRuntimeSteps combo (collectComboNames allCombos) []).map fun step =>
    (step, (expandRuntimeStep (resolveNestedComboTargets maxComboDepth (getCombosArray allCombos))
      (getCombosArray allCombos) [combo.name] [] [] step).filter visible)).filter fun group =>
        !group.2.isEmpty

structure WeightedResolution where
  orderedTargets : List KeyedTarget
  selectedStep : Option KeyedStep
  orderedSteps : List KeyedStep

def dedupeTargetsByExecutionKey (targets : List KeyedTarget) : List KeyedTarget :=
  firsts KeyedTarget.executionKey targets

/-- `eligibleExecutionKeys` is `none` where all steps are eligible. -/
def resolveWeightedTargets (draws : Draws) (visible : KeyedTarget → Bool) (combo : KeyedCombo)
    (allCombos : List KeyedCombo) (preferredExecutionKey : Option String)
    (eligibleExecutionKeys : Option (List String)) : WeightedResolution :=
  let topLevelSteps :=
    (getOrderedTopLevelRuntimeSteps combo (collectComboNames allCombos) []).filter fun step =>
      match eligibleExecutionKeys with
      | some keys => keys.contains step.executionKey
      | none => true
  let preferredStep := preferredExecutionKey.bind fun key =>
    topLevelSteps.find? fun step => step.executionKey = key
  match preferredStep.or (selectWeightedTarget draws topLevelSteps) with
  | none => ⟨[], none, []⟩
  | some selectedStep =>
    let orderedSteps := orderTargetsForWeightedFallback topLevelSteps selectedStep.executionKey
      (!(getCompositeTierStepOrder combo).isEmpty)
    let targetsByStep := OrdMap.ofList ((resolveWeightedStepGroups visible combo allCombos).map
      fun group => (group.1.executionKey, group.2))
    let expandedTargets := orderedSteps.flatMap fun step =>
      (targetsByStep.get step.executionKey).getD []
    ⟨dedupeTargetsByExecutionKey expandedTargets, some selectedStep, orderedSteps⟩

/-! ## What the draws select -/

/-- A list with steps has a selected one. -/
theorem exists_selected (draws : Draws) {steps : List KeyedStep} (hne : steps ≠ []) :
    ∃ s, selectWeightedTarget draws steps = some s := by
  rw [selectWeightedTarget, if_neg hne]
  dsimp only
  split
  · have hlt := draws.int_lt steps.length (length_pos_iff.2 hne)
    exact ⟨_, getElem?_eq_getElem hlt⟩
  · refine Option.isSome_iff_exists.1 ?_
    rw [Option.isSome_or, Bool.or_eq_true, getLast?_eq_some_getLast hne]
    exact .inr rfl

/-- The fallback order has steps of the list, and every key of it. -/
theorem mem_fallbackOrder {steps : List KeyedStep} {key : String} {preserve : Bool} {s : KeyedStep}
    (h : s ∈ orderTargetsForWeightedFallback steps key preserve) : s ∈ steps := by
  unfold orderTargetsForWeightedFallback at h
  dsimp only at h
  rcases mem_append.1 h with h | h
  · exact mem_of_find?_eq_some (Option.mem_toList.1 h)
  · split at h
    · exact mem_of_mem_filter h
    · exact mem_of_mem_filter ((mem_insertionSort _).1 h)

theorem exists_mem_fallbackOrder {steps : List KeyedStep} (key : String) (preserve : Bool)
    {s : KeyedStep} (h : s ∈ steps) :
    ∃ s' ∈ orderTargetsForWeightedFallback steps key preserve,
      s'.executionKey = s.executionKey := by
  unfold orderTargetsForWeightedFallback
  dsimp only
  by_cases hkey : s.executionKey = key
  · obtain ⟨s', hs'⟩ : ∃ s', steps.find? (fun step => step.executionKey = key) = some s' :=
      Option.isSome_iff_exists.1 (find?_isSome.2 ⟨s, h, decide_eq_true hkey⟩)
    have hkey' : s'.executionKey = key := by simpa using find?_some hs'
    exact ⟨s', mem_append_left _ (Option.mem_toList.2 hs'), hkey'.trans hkey.symm⟩
  · have hrest : s ∈ steps.filter fun step => step.executionKey ≠ key :=
      mem_filter.2 ⟨h, decide_eq_true hkey⟩
    refine ⟨s, mem_append_right _ ?_, rfl⟩
    split
    · exact hrest
    · exact (mem_insertionSort _).2 hrest

end OmniRoute.ComboKeys
