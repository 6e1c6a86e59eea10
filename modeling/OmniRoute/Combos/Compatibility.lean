import OmniRoute.ContextManager.Estimate

/-!
# Targets that can serve a request

`filterTargetsByRequestCompatibility` of `open-sse/services/combo/comboStructure.ts`, with the
verdict on context limits of `contextOverrideGate.ts`. A target fails a request for up to five
reasons. Four are hard and cost it its place; the fifth, a context window known to be too small,
only costs it its rank. What a provider or a model can do, and which context limits are overridden,
is a parameter (`Catalog`).

**Main result (`sound_filterTargets`).** Without `failOpen` the filter keeps a part of the targets
that has all that are free of hard failures, has nothing else if there are some, and has the windows
that are known to fit first. The exception is a sole survivor whose window is known to be too small:
then the pool comes back as it was, less what cannot see an image that is there.
-/

namespace OmniRoute.Combo

open JsData ContextManager List CodeUnits Bool

/-! ## Requests and targets -/

structure RequestCompatibilityRequirements where
  requiresTools : Bool
  requiresVision : Bool
  requiresStructuredOutput : Bool
  estimatedInputTokens : ℕ
  requestedOutputTokens : ℕ
  requiredContextTokens : ℕ
  sum : requiredContextTokens = estimatedInputTokens + requestedOutputTokens

/-- What is read of the model capabilities. -/
structure ResolvedModelCapabilities where
  toolCalling : Bool
  supportsTools : Option Bool
  supportsVision : Option Bool
  structuredOutput : Option Bool
  contextWindow : Option ℕ
  maxInputTokens : Option ℕ
  maxOutputTokens : Option ℕ

structure RankedTarget where
  executionKey : String
  modelStr : String
  provider : String
  providerId : Option String
  deriving DecidableEq

/-- The catalogs outside this module. -/
structure Catalog where
  getResolvedModelCapabilities : Option String → String → ResolvedModelCapabilities
  getResolvedModelContextOverride : String → Option ℕ
  /-- `toolCalling === "emulated"` of the provider with this id or alias. -/
  emulatesTools : String → Bool

/-- How values of a request are read: `Math.ceil(Number(value))` of a finite positive number, else
0, and `containsMediaKind([{ content: [value] }], "image")`. -/
structure RequestReader (N : Type) extends JsNumbers N where
  getPositiveTokenCount : Option (JsData N) → ℕ
  valueContainsImagePart : Option (JsData N) → Bool

inductive CompatFailure
  | tools | vision | structuredOutput | outputTokens | contextWindow
  deriving DecidableEq

/-- `HARD_COMPAT_REASONS.has(reason)` -/
def CompatFailure.isHard : CompatFailure → Bool
  | .contextWindow => false
  | _ => true

section Request

variable {N : Type} (reader : RequestReader N) (body : JsData N)

def nonemptyArray (value : Option (JsData N)) : Bool :=
  (elements value).any fun items => decide (0 < items.length)

def requestRequiresTools : Bool :=
  nonemptyArray (field body "tools") || nonemptyArray (field body "functions")

def requestRequiresStructuredOutput : Bool :=
  let type := (field body "response_format").bind fun format => field format "type"
  isText type "json_object" || isText type "json_schema"

def hasEstimableContent : Option (JsData N) → Bool
  | none | some .null => false
  | some (.arr items) => decide (0 < items.length)
  | some (.obj fields) => decide (0 < fields.length)
  | some _ => true

def estimateRequestInputTokens : ℕ :=
  let estimatePayload :=
    ["messages", "input", "tools", "functions", "response_format"].filterMap fun key =>
      if hasEstimableContent (field body key) then
        (field body key).map fun value => (ofString key, value)
      else none
  if 0 < estimatePayload.length then estimateTokens reader.toJsNumbers (.obj estimatePayload) else 0

def deriveRequestCompatibilityRequirements : RequestCompatibilityRequirements :=
  let estimatedInputTokens := estimateRequestInputTokens reader body
  let requestedOutputTokens := max (reader.getPositiveTokenCount (field body "max_tokens"))
    (reader.getPositiveTokenCount (field body "max_completion_tokens"))
  { requiresTools := requestRequiresTools body
    requiresVision := reader.valueContainsImagePart (field body "messages") ||
      reader.valueContainsImagePart (field body "input")
    requiresStructuredOutput := requestRequiresStructuredOutput body
    estimatedInputTokens
    requestedOutputTokens
    requiredContextTokens := estimatedInputTokens + requestedOutputTokens
    sum := rfl }

end Request

/-! ## The failures of a target -/

variable (catalog : Catalog) (requirements : RequestCompatibilityRequirements)

def exceedsKnownOutputLimit (requestedOutputTokens : ℕ) (maxOutputTokens : Option ℕ) : Bool :=
  match maxOutputTokens with
  | none => false
  | some limit => decide (0 < requestedOutputTokens ∧ limit < requestedOutputTokens)

def providerSupportsEmulatedToolCalling (provider : String) : Bool :=
  decide (provider ≠ "") && catalog.emulatesTools provider

/-- `undefined` without an override. -/
def resolveContextOverrideVerdict (modelStr : String) : Option Bool :=
  if modelStr = "" then none
  else (catalog.getResolvedModelContextOverride modelStr).map fun override =>
    decide (requirements.requiredContextTokens ≤ override)

/-- Whether the known limits accommodate the request, if any are known. -/
def evaluateContextLimit (capabilities : ResolvedModelCapabilities) (modelStr : String) :
    Option Bool :=
  match resolveContextOverrideVerdict catalog requirements modelStr with
  | some verdict => some verdict
  | none =>
    if capabilities.maxInputTokens = none ∧ capabilities.contextWindow = none then none
    else
      let inputFits := capabilities.maxInputTokens.all fun limit =>
        decide (requirements.estimatedInputTokens ≤ limit)
      let totalFits := capabilities.contextWindow.all fun limit =>
        decide (requirements.requiredContextTokens ≤ limit)
      some (inputFits && totalFits)

/-- `target.providerId || target.provider || null` -/
def RankedTarget.catalogProvider (target : RankedTarget) : Option String :=
  match target.providerId.filter fun s => decide (s ≠ "") with
  | some providerId => some providerId
  | none => if target.provider = "" then none else some target.provider

def capabilitiesOf (target : RankedTarget) : ResolvedModelCapabilities :=
  catalog.getResolvedModelCapabilities target.catalogProvider target.modelStr

def hasKnownCompatibleContextLimit (target : RankedTarget) : Bool :=
  if requirements.requiredContextTokens ≤ 0 then false
  else
    decide (evaluateContextLimit catalog requirements (capabilitiesOf catalog target)
      target.modelStr = some true)

def isVisionIncompatibleTarget (target : RankedTarget) : Bool :=
  if !requirements.requiresVision then false
  else decide ((capabilitiesOf catalog target).supportsVision ≠ some true)

def getTargetCompatibilityFailures (target : RankedTarget) : List CompatFailure :=
  let capabilities := capabilitiesOf catalog target
  (if requirements.requiresTools &&
      (decide (capabilities.supportsTools = some false) || !capabilities.toolCalling) &&
      !providerSupportsEmulatedToolCalling catalog target.provider then [.tools] else []) ++
  (if requirements.requiresVision && decide (capabilities.supportsVision ≠ some true) then
      [.vision] else []) ++
  (if requirements.requiresStructuredOutput &&
      decide (capabilities.structuredOutput = some false) then [.structuredOutput] else []) ++
  (if exceedsKnownOutputLimit requirements.requestedOutputTokens capabilities.maxOutputTokens then
      [.outputTokens] else []) ++
  (if 0 < requirements.requiredContextTokens ∧
      evaluateContextLimit catalog requirements capabilities target.modelStr = some false then
      [.contextWindow] else [])

def hasHardCapabilityFailure (reasons : List CompatFailure) : Bool :=
  reasons.any CompatFailure.isHard

/-! ## The filter -/

def needsFiltering : Bool :=
  requirements.requiresTools || requirements.requiresVision ||
    requirements.requiresStructuredOutput || decide (0 < requirements.requiredContextTokens)

def filterByRequirements (targets : List RankedTarget) (failOpen : Bool) : List RankedTarget :=
  if targets = [] then targets
  else if !needsFiltering requirements then targets
  else
    let reasons := getTargetCompatibilityFailures catalog requirements
    let rejected := targets.filter fun target => decide (reasons target ≠ [])
    let compatible := targets.filter fun target => !hasHardCapabilityFailure (reasons target)
    let hadKnownTooSmallContextTarget := rejected.any fun target =>
      (reasons target).contains .contextWindow
    let knownContextCompatible :=
      compatible.filter (hasKnownCompatibleContextLimit catalog requirements)
    if 0 < requirements.requiredContextTokens ∧ hadKnownTooSmallContextTarget = true ∧
        1 < compatible.length ∧ 0 < knownContextCompatible.length ∧
        knownContextCompatible.length < compatible.length then
      knownContextCompatible ++
        compatible.filter fun target => !knownContextCompatible.contains target
    else if compatible.length = targets.length then targets
    else if compatible.length = 0 then
      let hardRejected := rejected.any fun target => hasHardCapabilityFailure (reasons target)
      if requirements.requiresVision then
        let visionSafe := targets.filter fun target =>
          !isVisionIncompatibleTarget catalog requirements target
        if visionSafe.length = 0 then []
        else if failOpen then visionSafe
        else visionSafe
      else if !hardRejected || failOpen then targets
      else []
    else
      let restored :=
        if requirements.requiresVision then
          targets.filter fun target => !isVisionIncompatibleTarget catalog requirements target
        else targets
      if compatible.length = 1 ∧
          (compatible.head?.any fun target => (reasons target).contains .contextWindow) = true ∧
          compatible.length < restored.length then
        restored
      else compatible

def filterTargetsByRequestCompatibility {N : Type} (reader : RequestReader N)
    (targets : List RankedTarget) (body : JsData N) (failOpen : Bool) : List RankedTarget :=
  filterByRequirements catalog (deriveRequestCompatibilityRequirements reader body) targets failOpen

/-! ## What each exit returns -/

section Exits

variable (targets : List RankedTarget)

/-- No hard failure. -/
def isHardFree (target : RankedTarget) : Bool :=
  !hasHardCapabilityFailure (getTargetCompatibilityFailures catalog requirements target)

/-- The context window is known to be too small. -/
def isKnownTooSmall (target : RankedTarget) : Bool :=
  (getTargetCompatibilityFailures catalog requirements target).contains .contextWindow

/-- The targets that may be restored: all, or all with confirmed vision. -/
def restorable : List RankedTarget :=
  if requirements.requiresVision then
    targets.filter fun target => !isVisionIncompatibleTarget catalog requirements target
  else targets

/-- One target only is free of hard failures, and its window is known to be too small. -/
def SoleSurvivorTooSmall : Prop :=
  ∃ target, targets.filter (isHardFree catalog requirements) = [target] ∧
    isKnownTooSmall catalog requirements target = true

variable {catalog requirements targets} {t : RankedTarget}

theorem isKnownTooSmall_iff :
    isKnownTooSmall catalog requirements t = true ↔ 0 < requirements.requiredContextTokens ∧
      evaluateContextLimit catalog requirements (capabilitiesOf catalog t) t.modelStr =
        some false := by
  simp only [isKnownTooSmall, getTargetCompatibilityFailures, contains_eq_mem,
    mem_append, decide_eq_true_eq]
  constructor
  · rintro ((((h | h) | h) | h) | h) <;> split at h <;> simp_all
  · intro h
    rw [if_pos h]
    exact .inr (.head _)

theorem fitsContext_iff :
    hasKnownCompatibleContextLimit catalog requirements t = true ↔
      0 < requirements.requiredContextTokens ∧
        evaluateContextLimit catalog requirements (capabilitiesOf catalog t) t.modelStr =
          some true := by
  unfold hasKnownCompatibleContextLimit
  split
  · next h => exact ⟨fun hc => (by cases hc), fun hc => absurd hc.1 (Nat.not_lt.2 h)⟩
  · next h => simp [Nat.lt_of_not_le h]

theorem not_fits_of_tooSmall (h : isKnownTooSmall catalog requirements t = true) :
    hasKnownCompatibleContextLimit catalog requirements t = false := by
  rw [eq_false_iff]
  intro hfits
  have hverdict := (isKnownTooSmall_iff.1 h).2.symm.trans (fitsContext_iff.1 hfits).2
  cases hverdict

/-- A target without hard failures can see the images that are there. -/
theorem vision_of_isHardFree (h : isHardFree catalog requirements t = true) :
    isVisionIncompatibleTarget catalog requirements t = false := by
  rw [eq_false_iff]
  intro hblind
  unfold isVisionIncompatibleTarget at hblind
  split at hblind
  · cases hblind
  · next hvision =>
    rw [not_eq_true, not_eq_false'] at hvision
    have hmem : CompatFailure.vision ∈ getTargetCompatibilityFailures catalog requirements t := by
      simp [getTargetCompatibilityFailures, hvision, of_decide_eq_true hblind]
    rw [isHardFree, Bool.not_eq_true', hasHardCapabilityFailure, any_eq_false] at h
    exact h _ hmem rfl

theorem filter_isHardFree_sublist :
    (targets.filter (isHardFree catalog requirements)).Sublist
      (restorable catalog requirements targets) := by
  unfold restorable
  split
  · refine monotone_filter_right targets fun t ht => ?_
    rw [vision_of_isHardFree ht, Bool.not_false]
  · exact filter_sublist

variable (catalog) in
/-- Without requirements nothing fails. -/
theorem failures_of_not_needsFiltering (h : needsFiltering requirements = false)
    (t : RankedTarget) : getTargetCompatibilityFailures catalog requirements t = [] := by
  simp only [needsFiltering, or_eq_false_iff, decide_eq_false_iff_not, Nat.not_lt, Nat.le_zero] at h
  obtain ⟨⟨⟨htools, hvision⟩, hstructured⟩, hcontext⟩ := h
  have houtput : requirements.requestedOutputTokens = 0 := by
    have := requirements.sum
    omega
  have hlimit : exceedsKnownOutputLimit 0 (capabilitiesOf catalog t).maxOutputTokens = false := by
    unfold exceedsKnownOutputLimit
    split <;> simp
  simp [getTargetCompatibilityFailures, htools, hvision, hstructured, hcontext, houtput, hlimit]

/-- The ways in which the filter without `failOpen` ends. -/
inductive FilterExit (catalog : Catalog) (requirements : RequestCompatibilityRequirements)
    (targets : List RankedTarget) : List RankedTarget → Prop
  | unneeded (h : needsFiltering requirements = false) : FilterExit catalog requirements targets
      targets
  | preferred (h : 1 < (targets.filter (isHardFree catalog requirements)).length)
    (hsmall : ∃ t ∈ targets, isKnownTooSmall catalog requirements t = true) :
    FilterExit catalog requirements targets
      ((targets.filter (isHardFree catalog requirements)).filter
          (hasKnownCompatibleContextLimit catalog requirements) ++
        (targets.filter (isHardFree catalog requirements)).filter fun t =>
          !hasKnownCompatibleContextLimit catalog requirements t)
  | closed (h : targets.filter (isHardFree catalog requirements) = []) :
    FilterExit catalog requirements targets []
  | sighted (h : targets.filter (isHardFree catalog requirements) = [])
    (hvision : requirements.requiresVision = true) :
    FilterExit catalog requirements targets (restorable catalog requirements targets)
  | restored (h : SoleSurvivorTooSmall catalog requirements targets) :
    FilterExit catalog requirements targets (restorable catalog requirements targets)
  | kept (hne : targets.filter (isHardFree catalog requirements) ≠ [])
    (hsole : ¬SoleSurvivorTooSmall catalog requirements targets)
    (hranks : ∀ x ∈ targets.filter (isHardFree catalog requirements),
      ∀ y ∈ targets.filter (isHardFree catalog requirements),
        isKnownTooSmall catalog requirements x = true →
          hasKnownCompatibleContextLimit catalog requirements y = false) :
    FilterExit catalog requirements targets (targets.filter (isHardFree catalog requirements))

/-- The rank matters to two targets of which one is known to fit and one is known not to. -/
theorem ranks_of_not_preferred {free : List RankedTarget} (hfree : free ⊆ targets)
    (h : ¬(0 < requirements.requiredContextTokens ∧
      (targets.any (isKnownTooSmall catalog requirements)) = true ∧
      1 < free.length ∧
      0 < (free.filter (hasKnownCompatibleContextLimit catalog requirements)).length ∧
      (free.filter (hasKnownCompatibleContextLimit catalog requirements)).length < free.length))
    {x y : RankedTarget} (hx : x ∈ free) (hy : y ∈ free)
    (hsmall : isKnownTooSmall catalog requirements x = true) :
    hasKnownCompatibleContextLimit catalog requirements y = false := by
  rw [eq_false_iff]
  intro hfits
  have hmem : y ∈ free.filter (hasKnownCompatibleContextLimit catalog requirements) :=
    mem_filter.2 ⟨hy, hfits⟩
  have hsome := length_pos_of_mem hmem
  have hfewer := length_filter_lt_length_iff_exists.2
    ⟨x, hx, ne_true_of_eq_false (not_fits_of_tooSmall hsmall)⟩
  refine h ⟨(fitsContext_iff.1 hfits).1, any_eq_true.2 ⟨x, hfree hx, hsmall⟩, ?_,
    hsome, hfewer⟩
  omega

theorem any_rejected :
    ((targets.filter fun target =>
        decide (getTargetCompatibilityFailures catalog requirements target ≠ [])).any fun target =>
      (getTargetCompatibilityFailures catalog requirements target).contains .contextWindow) =
      targets.any (isKnownTooSmall catalog requirements) := by
  rw [any_filter]
  refine any_congr rfl fun t => ?_
  show (_ && isKnownTooSmall catalog requirements t) = isKnownTooSmall catalog requirements t
  cases hsmall : isKnownTooSmall catalog requirements t with
  | false => exact and_false _
  | true =>
    have hne : getTargetCompatibilityFailures catalog requirements t ≠ [] := by
      intro hnil
      rw [isKnownTooSmall, hnil] at hsmall
      cases hsmall
    rw [decide_eq_true hne]
    rfl

/-- Without a target that is free of hard failures, some target was rejected for one. -/
theorem hardRejected_of_closed (hne : targets ≠ [])
    (h : targets.filter (isHardFree catalog requirements) = []) :
    ((targets.filter fun target =>
        decide (getTargetCompatibilityFailures catalog requirements target ≠ [])).any fun target =>
      hasHardCapabilityFailure (getTargetCompatibilityFailures catalog requirements target)) =
      true := by
  obtain ⟨t, rest, rfl⟩ := exists_cons_of_ne_nil hne
  have hhard := filter_eq_nil_iff.1 h t mem_cons_self
  rw [isHardFree, not_eq_true, not_eq_false'] at hhard
  have hsome : getTargetCompatibilityFailures catalog requirements t ≠ [] := by
    intro hnil
    rw [hnil] at hhard
    cases hhard
  exact any_eq_true.2 ⟨t, mem_filter.2 ⟨mem_cons_self, decide_eq_true hsome⟩, hhard⟩

/-- **Every run of the filter ends at one of the exits.** -/
theorem filterExit_filterByRequirements (catalog : Catalog)
    (requirements : RequestCompatibilityRequirements) (targets : List RankedTarget) :
    FilterExit catalog requirements targets
      (filterByRequirements catalog requirements targets false) := by
  set free := targets.filter (isHardFree catalog requirements) with hfree
  have hkept : ∀ hne : free ≠ [],
      (∀ x ∈ free, ∀ y ∈ free, isKnownTooSmall catalog requirements x = true →
        hasKnownCompatibleContextLimit catalog requirements y = false) →
      (SoleSurvivorTooSmall catalog requirements targets →
        (restorable catalog requirements targets).length ≤ 1) →
      FilterExit catalog requirements targets free := by
    intro hne hranks hsole
    by_cases hsurvivor : SoleSurvivorTooSmall catalog requirements targets
    · have hlen : (restorable catalog requirements targets).length ≤
          free.length := by
        have hle := hsole hsurvivor
        obtain ⟨t, (ht : free = [t]), -⟩ := hsurvivor
        rwa [ht]
      rw [hfree, filter_isHardFree_sublist.eq_of_length_le hlen]
      exact .restored hsurvivor
    · exact .kept hne hsurvivor hranks
  unfold filterByRequirements
  split
  · next hnil =>
    subst hnil
    exact .closed rfl
  next hne =>
  split
  · next hneeds => exact .unneeded (Bool.not_eq_true' _ ▸ hneeds)
  dsimp only
  rw [any_rejected]
  change FilterExit catalog requirements targets
    (if 0 < requirements.requiredContextTokens ∧
        targets.any (isKnownTooSmall catalog requirements) = true ∧
        1 < free.length ∧
        0 < (free.filter (hasKnownCompatibleContextLimit catalog requirements)).length ∧
        (free.filter (hasKnownCompatibleContextLimit catalog requirements)).length <
          free.length then _ else
      if free.length = targets.length then _ else
        if free.length = 0 then _ else
          if free.length = 1 ∧
              (free.head?.any (isKnownTooSmall catalog requirements)) = true ∧
              free.length < (restorable catalog requirements targets).length then
            restorable catalog requirements targets
          else free)
  split
  · next hpreferred =>
    have hrest : (free.filter fun target => !(free.filter
          (hasKnownCompatibleContextLimit catalog requirements)).contains target) =
        free.filter fun target => !hasKnownCompatibleContextLimit catalog requirements target := by
      refine filter_congr fun t ht => congrArg _ (eq_iff_iff.2 ?_)
      rw [contains_eq_mem, decide_eq_true_eq, mem_filter]
      exact ⟨And.right, fun h => ⟨ht, h⟩⟩
    exact hrest ▸ .preferred hpreferred.2.2.1 (any_eq_true.1 hpreferred.2.1)
  next hranks =>
  have hranks := fun x hx y hy => ranks_of_not_preferred filter_sublist.subset hranks (x := x) (y := y) hx hy
  split
  · next hall =>
    have hself : free = targets :=
      filter_sublist.eq_of_length hall
    have hfilter := hkept (by rwa [hself]) hranks fun ⟨t, (ht : free = [t]), _⟩ => by
      have hlen : (restorable catalog requirements targets).length ≤ targets.length := by
        unfold restorable
        split
        · exact length_filter_le _ _
        · exact le_rfl
      rwa [← hall, ht] at hlen
    rwa [hself] at hfilter
  split
  · next hnone =>
    have hnil := length_eq_zero_iff.1 hnone
    split
    · next hvision =>
      have hsighted := FilterExit.sighted hnil hvision
      rw [restorable, if_pos hvision] at hsighted
      split
      · next hempty => exact .closed hnil
      · exact hsighted
    · have hclosed : FilterExit catalog requirements targets [] := .closed hnil
      rw [if_neg]
      · exact hclosed
      · simp only [Bool.or_false, Bool.not_eq_true', Bool.not_eq_false]
        exact hardRejected_of_closed hne hnil
  next hsome =>
  split
  · next hsole =>
    obtain ⟨t, ht⟩ := length_eq_one_iff.1 hsole.1
    refine .restored ⟨t, ht, ?_⟩
    have hsmall := hsole.2.1
    rwa [ht] at hsmall
  · next hsole =>
    refine hkept (fun hnil => hsome (by rw [hnil]; rfl)) hranks ?_
    rintro ⟨t, (ht : free = [t]), hsmall⟩
    by_contra hmore
    refine hsole ⟨by rw [ht]; rfl, by rw [ht]; exact hsmall, ?_⟩
    rw [ht]
    exact Nat.lt_of_not_le hmore

/-! ## Soundness -/

/-- What the filter promises: a part of the targets, all that are free of hard failures and, but
for a sole survivor whose window is too small, nothing else if there are some; vision confirmed for
an image; and the windows that are known to fit first, with the order of the input otherwise. -/
structure SoundFilter (catalog : Catalog) (requirements : RequestCompatibilityRequirements)
    (targets result : List RankedTarget) : Prop where
  part : result.Subperm targets
  hardFree : (∃ t ∈ targets, isHardFree catalog requirements t = true) →
    ¬SoleSurvivorTooSmall catalog requirements targets →
      ∀ t ∈ result, isHardFree catalog requirements t = true
  sighted : requirements.requiresVision = true →
    ∀ t ∈ result, (capabilitiesOf catalog t).supportsVision = some true
  keepsHardFree : (targets.filter (isHardFree catalog requirements)).Subperm result
  fitsFirst : (∃ t ∈ targets, isHardFree catalog requirements t = true) →
    ¬SoleSurvivorTooSmall catalog requirements targets →
      result.Pairwise fun x y => isKnownTooSmall catalog requirements x = true →
        hasKnownCompatibleContextLimit catalog requirements y = false
  fitsOrder : (result.filter (hasKnownCompatibleContextLimit catalog requirements)).Sublist targets
  restOrder : (result.filter fun t =>
    !hasKnownCompatibleContextLimit catalog requirements t).Sublist targets
  unranked : (∀ t ∈ targets, isKnownTooSmall catalog requirements t = false) →
    result.Sublist targets
  restores : SoleSurvivorTooSmall catalog requirements targets →
    result = restorable catalog requirements targets
  unserved : (∀ t ∈ targets, isHardFree catalog requirements t = false) → result.Sublist targets

theorem restorable_sublist : (restorable catalog requirements targets).Sublist targets := by
  unfold restorable
  split
  · exact filter_sublist
  · exact List.Sublist.refl _

theorem sighted_of_mem_restorable (hvision : requirements.requiresVision = true)
    (ht : t ∈ restorable catalog requirements targets) :
    (capabilitiesOf catalog t).supportsVision = some true := by
  rw [restorable, if_pos hvision, mem_filter] at ht
  have hblind := ht.2
  rw [isVisionIncompatibleTarget, hvision] at hblind
  simpa using hblind

/-- What is in the order of the input promises the rest of the order. -/
theorem SoundFilter.of_sublist {result : List RankedTarget} (hsub : result.Sublist targets)
    (hkeeps : (targets.filter (isHardFree catalog requirements)).Sublist result)
    (hsighted : requirements.requiresVision = true →
      ∀ t ∈ result, (capabilitiesOf catalog t).supportsVision = some true)
    (hhard : (∃ t ∈ targets, isHardFree catalog requirements t = true) →
      ¬SoleSurvivorTooSmall catalog requirements targets →
        (∀ t ∈ result, isHardFree catalog requirements t = true) ∧
          ∀ x ∈ result, ∀ y ∈ result, isKnownTooSmall catalog requirements x = true →
            hasKnownCompatibleContextLimit catalog requirements y = false)
    (hrestores : SoleSurvivorTooSmall catalog requirements targets →
      result = restorable catalog requirements targets) :
    SoundFilter catalog requirements targets result where
  part := hsub.subperm
  hardFree hsome hsole := (hhard hsome hsole).1
  sighted := hsighted
  keepsHardFree := hkeeps.subperm
  fitsFirst hsome hsole := pairwise_of_forall_mem_list (hhard hsome hsole).2
  fitsOrder := filter_sublist.trans hsub
  restOrder := filter_sublist.trans hsub
  unranked _ := hsub
  restores := hrestores
  unserved _ := hsub

/-- A filter that puts the ones it prefers first keeps both orders. -/
theorem filter_preferred {α : Type} (p : α → Bool) (l : List α) :
    (l.filter p ++ l.filter fun t => !p t).filter p = l.filter p ∧
      (l.filter p ++ l.filter fun t => !p t).filter (fun t => !p t) = l.filter fun t => !p t := by
  have hnot : ∀ t, (p t && !p t) = false := fun t => and_not_self _
  have hnot' : ∀ t, (!p t && p t) = false := fun t => not_and_self _
  simp [filter_append, filter_filter, hnot, hnot']

theorem not_sole_of_nil (h : targets.filter (isHardFree catalog requirements) = []) :
    ¬SoleSurvivorTooSmall catalog requirements targets := by
  rintro ⟨t, ht, -⟩
  rw [h] at ht
  cases ht

theorem not_exists_of_nil (h : targets.filter (isHardFree catalog requirements) = []) :
    ¬∃ t ∈ targets, isHardFree catalog requirements t = true := fun ⟨t, ht, hfree⟩ =>
  filter_eq_nil_iff.1 h t ht hfree

/-- **The exits are sound.** -/
theorem FilterExit.sound {result : List RankedTarget}
    (h : FilterExit catalog requirements targets result) :
    SoundFilter catalog requirements targets result := by
  have hsighted : requirements.requiresVision = true →
      ∀ t ∈ targets.filter (isHardFree catalog requirements),
        (capabilitiesOf catalog t).supportsVision = some true := fun hvision t ht =>
    sighted_of_mem_restorable hvision (filter_isHardFree_sublist.subset ht)
  cases h with
  | unneeded hneeds =>
    have hfailures := failures_of_not_needsFiltering catalog hneeds
    have hfree : ∀ t, isHardFree catalog requirements t = true := fun t => by
      rw [isHardFree, hfailures]
      rfl
    have hsmall : ∀ t, isKnownTooSmall catalog requirements t = false := fun t => by
      rw [isKnownTooSmall, hfailures]
      rfl
    have hall : targets.filter (isHardFree catalog requirements) = targets :=
      filter_eq_self.2 fun t _ => hfree t
    rw [hall] at hsighted
    refine .of_sublist (.refl _) filter_sublist hsighted (fun _ _ => ⟨fun t _ => hfree t, ?_⟩) ?_
    · exact fun x _ _ _ hx => absurd hx (ne_true_of_eq_false (hsmall x))
    · rintro ⟨t, -, ht⟩
      exact absurd ht (ne_true_of_eq_false (hsmall t))
  | preferred hmany hsmall =>
    have hperm := filter_append_perm (hasKnownCompatibleContextLimit catalog requirements)
      (targets.filter (isHardFree catalog requirements))
    have hnosole : ¬SoleSurvivorTooSmall catalog requirements targets := by
      rintro ⟨t, ht, -⟩
      rw [ht] at hmany
      exact absurd hmany (Nat.lt_irrefl 1)
    refine
      { part := hperm.subperm.trans filter_sublist.subperm
        hardFree := fun _ _ t ht => (mem_filter.1 (hperm.subset ht)).2
        sighted := fun hvision t ht => hsighted hvision t (hperm.subset ht)
        keepsHardFree := hperm.symm.subperm
        fitsFirst := fun _ _ => ?_
        fitsOrder := ?_
        restOrder := ?_
        unranked := fun hnone => ?_
        restores := fun hsole => absurd hsole hnosole
        unserved := fun hnone => ?_ }
    · rw [pairwise_append]
      refine ⟨pairwise_of_forall_mem_list fun x hx _ _ hxs => ?_,
        pairwise_of_forall_mem_list fun _ _ y hy _ => ?_, fun x hx _ _ hxs => ?_⟩
      · exact absurd (mem_filter.1 hx).2 (ne_true_of_eq_false (not_fits_of_tooSmall hxs))
      · exact Bool.not_eq_true' _ ▸ (mem_filter.1 hy).2
      · exact absurd (mem_filter.1 hx).2 (ne_true_of_eq_false (not_fits_of_tooSmall hxs))
    · rw [(filter_preferred _ _).1]
      exact filter_sublist.trans filter_sublist
    · rw [(filter_preferred _ _).2]
      exact filter_sublist.trans filter_sublist
    · obtain ⟨t, ht, hts⟩ := hsmall
      exact absurd hts (ne_true_of_eq_false (hnone t ht))
    · have hnil : targets.filter (isHardFree catalog requirements) = [] :=
        filter_eq_nil_iff.2 fun t ht => ne_true_of_eq_false (hnone t ht)
      rw [hnil] at hmany
      cases hmany
  | closed hnil =>
    exact .of_sublist (nil_sublist _) (hnil ▸ .refl _) (fun _ _ ht => by cases ht)
      (fun hsome => absurd hsome (not_exists_of_nil hnil))
      fun hsole => absurd hsole (not_sole_of_nil hnil)
  | sighted hnil hvision =>
    exact .of_sublist restorable_sublist filter_isHardFree_sublist
      (fun hvision _ => sighted_of_mem_restorable hvision)
      (fun hsome => absurd hsome (not_exists_of_nil hnil)) fun _ => rfl
  | restored hsole =>
    exact .of_sublist restorable_sublist filter_isHardFree_sublist
      (fun hvision _ => sighted_of_mem_restorable hvision)
      (fun _ hnosole => absurd hsole hnosole) fun _ => rfl
  | kept hne hnosole hranks =>
    exact .of_sublist filter_sublist (.refl _) hsighted
      (fun _ _ => ⟨fun t ht => (mem_filter.1 ht).2, hranks⟩) fun hsole => absurd hsole hnosole

end Exits

/-- **The filter is sound.** -/
theorem sound_filterTargets {N : Type} (catalog : Catalog) (reader : RequestReader N)
    (targets : List RankedTarget) (body : JsData N) :
    SoundFilter catalog (deriveRequestCompatibilityRequirements reader body) targets
      (filterTargetsByRequestCompatibility catalog reader targets body false) :=
  (filterExit_filterByRequirements catalog _ targets).sound

/-! ## A sole survivor -/

/-- Two models with tools, of which one has a large window, and one without. -/
def smallCoder : RankedTarget := ⟨"0", "unit-collapse/small", "unit-collapse", none⟩

def nocoder : RankedTarget := ⟨"1", "unit-noncoding/nocoder", "unit-noncoding", none⟩

def collapsing : Catalog where
  getResolvedModelCapabilities _ modelStr :=
    { toolCalling := decide (modelStr = "unit-collapse/small")
      supportsTools := none
      supportsVision := none
      structuredOutput := none
      contextWindow := some (if modelStr = "unit-collapse/small" then 200000 else 1000000)
      maxInputTokens := none
      maxOutputTokens := none }
  getResolvedModelContextOverride _ := none
  emulatesTools _ := false

def plainReader : RequestReader ℕ where
  isFinite _ := true
  text n := ofString (toString n)
  isTruthy n := decide (n ≠ 0)
  ofNat n := n
  getPositiveTokenCount
    | some (.num n) => n
    | _ => 0
  valueContainsImagePart _ := false

/-- A request with a tool, for more tokens than the small window has. -/
def largeToolRequest : JsData ℕ :=
  .obj [(ofString "max_tokens", .num 300000),
    (ofString "tools", .arr [.obj [(ofString "type",
      .str (ofString "function"))]])]

/-- The sole survivor brings back the model without tools, and stays ahead of its window. -/
theorem restored_with_hard_failure :
    smallCoder ∈ [smallCoder, nocoder] ∧
      isHardFree collapsing (deriveRequestCompatibilityRequirements plainReader largeToolRequest)
        smallCoder = true ∧
      filterTargetsByRequestCompatibility collapsing plainReader [smallCoder, nocoder]
        largeToolRequest false = [smallCoder, nocoder] ∧
      isHardFree collapsing (deriveRequestCompatibilityRequirements plainReader largeToolRequest)
        nocoder = false ∧
      isKnownTooSmall collapsing
        (deriveRequestCompatibilityRequirements plainReader largeToolRequest) smallCoder = true ∧
      hasKnownCompatibleContextLimit collapsing
        (deriveRequestCompatibilityRequirements plainReader largeToolRequest) nocoder = true := by
  decide +kernel

end OmniRoute.Combo
