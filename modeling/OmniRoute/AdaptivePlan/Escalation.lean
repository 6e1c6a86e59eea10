import Mathlib

/-!
# Adaptive escalation

`open-sse/services/compression/adaptiveCompression`: when the estimate of a prompt is over the
target of its model, `resolveAdaptivePlan` adds the stages of a ladder to the base plan, one after
another, until the estimate fits. Numbers of tokens are rational.

A base plan is a pipeline, or the bare mode of one engine. The new plan starts with the pipeline of
the base plan, which for a bare mode is empty.

**Main result (`escalates_iff`).** In floor mode the base plan runs first, and the stages added are
the least that reach the target, exactly when a stage is not added to a bare mode of an engine.
-/

namespace OmniRoute.AdaptivePlan

open List

structure LadderStage where
  engine : String
  intensity : Option String := none
  deriving DecidableEq

structure DerivedPlan where
  mode : String
  stackedPipeline : List LadderStage := []
  source : Option String := none
  deriving DecidableEq

inductive ContextBudgetPolicy
  | reserveOutput
  | percentage
  | absolute
  deriving DecidableEq

inductive ContextBudgetMode
  | floor
  | replaceAutotrigger
  | off
  deriving DecidableEq

structure ContextBudgetConfig where
  mode : ContextBudgetMode := .off
  policy : ContextBudgetPolicy := .reserveOutput
  outputReserve : ℚ := 4096
  safetyMargin : ℚ := 1024
  pct : ℚ := 17 / 20
  absoluteBudget : ℚ := 0
  ladderOverride : List LadderStage := []

/-! ## The ladder -/

def defaultLadder : List LadderStage :=
  [{ engine := "session-dedup" }, { engine := "rtk", intensity := some "standard" },
    { engine := "headroom" }, { engine := "lite" }, { engine := "caveman", intensity := some "full" },
    { engine := "aggressive" }, { engine := "ultra" }]

/-- The rank of an engine or of a mode. -/
def aggressivenessOf : String → ℕ
  | "session-dedup" => 10
  | "ccr" => 15
  | "rtk" => 20
  | "codex-responses" => 22
  | "ionizer" => 25
  | "headroom" => 30
  | "lite" => 40
  | "read-lifecycle" => 42
  | "relevance" => 45
  | "caveman" | "standard" | "stacked" => 50
  | "aggressive" => 60
  | "llmlingua" => 65
  | "llm" => 68
  | "ultra" => 70
  | "omniglyph" => 80
  | _ => 0

def expectedReductionFactor : String → ℚ
  | "session-dedup" => 95 / 100
  | "ccr" => 90 / 100
  | "rtk" => 85 / 100
  | "codex-responses" => 84 / 100
  | "ionizer" => 83 / 100
  | "headroom" => 80 / 100
  | "lite" => 92 / 100
  | "read-lifecycle" => 88 / 100
  | "relevance" => 75 / 100
  | "caveman" | "standard" => 70 / 100
  | "aggressive" => 55 / 100
  | "llmlingua" => 50 / 100
  | "llm" => 45 / 100
  | "ultra" => 40 / 100
  | "omniglyph" => 35 / 100
  | _ => 90 / 100

/-- `Math.round` of the share of the prompt that is left. -/
def defaultEstimate (prior : ℚ) (stage : LadderStage) : ℚ :=
  ⌊prior * expectedReductionFactor stage.engine + 1 / 2⌋

def computeTarget (policy : ContextBudgetPolicy) (modelContextLimit : ℚ)
    (requestMaxTokens : Option ℚ) (config : ContextBudgetConfig) : ℤ :=
  match policy with
  | .absolute => max 0 ⌊config.absoluteBudget⌋
  | .percentage =>
    let pct := if 0 < config.pct ∧ config.pct ≤ 1 then config.pct else 1
    max 0 ⌊modelContextLimit * pct⌋
  | .reserveOutput =>
    let reserve := (requestMaxTokens.filter (0 < ·)).getD config.outputReserve
    max 0 ⌊modelContextLimit - reserve - config.safetyMargin⌋

/-! ## The resolver -/

structure ResolveAdaptiveInput where
  basePlan : DerivedPlan
  estimatedTokens : ℚ
  modelContextLimit : Option ℚ
  requestMaxTokens : Option ℚ := none
  config : ContextBudgetConfig
  estimate : ℚ → LadderStage → ℚ := defaultEstimate

structure AdaptiveTelemetry where
  policy : ContextBudgetPolicy
  target : ℤ
  headroomBefore : ℚ
  stagesApplied : List String
  headroomAfter : ℚ
  fit : Bool

structure ResolveAdaptiveResult where
  plan : DerivedPlan
  telemetry : Option AdaptiveTelemetry

/-- The loop over the stages: the last estimate and the stages applied. -/
def escalate (estimate : ℚ → LadderStage → ℚ) (target : ℤ) :
    ℚ → List LadderStage → ℚ × List LadderStage
  | current, [] => (current, [])
  | current, stage :: stages =>
    let current := estimate current stage
    if current ≤ target then (current, [stage])
    else
      let (last, applied) := escalate estimate target current stages
      (last, stage :: applied)

def planFromStages (basePlan : DerivedPlan) (applied : List LadderStage) : DerivedPlan :=
  if applied.length = 0 then basePlan
  else
    let basePipeline := if basePlan.mode = "stacked" then basePlan.stackedPipeline else []
    { mode := "stacked", stackedPipeline := basePipeline ++ applied }

/-- The stages that are ranked above where the ladder starts. -/
def ResolveAdaptiveInput.stages (input : ResolveAdaptiveInput) : List LadderStage :=
  let ladder := if input.config.ladderOverride.length > 0 then input.config.ladderOverride
    else defaultLadder
  let startTier := if input.config.mode = .floor then aggressivenessOf input.basePlan.mode
    else aggressivenessOf "off"
  ladder.filter fun s => aggressivenessOf s.engine > startTier

def resolveAdaptivePlan (input : ResolveAdaptiveInput) : ResolveAdaptiveResult :=
  let config := input.config
  if config.mode = .off then ⟨input.basePlan, none⟩
  else
    match input.modelContextLimit.filter (0 < ·) with
    | none => ⟨input.basePlan, none⟩
    | some modelContextLimit =>
      let target := computeTarget config.policy modelContextLimit input.requestMaxTokens config
      let headroomBefore := target - input.estimatedTokens
      let unchanged := AdaptiveTelemetry.mk config.policy target headroomBefore [] headroomBefore
      if config.mode = .replaceAutotrigger ∧
          aggressivenessOf input.basePlan.mode > aggressivenessOf "off" then
        ⟨input.basePlan, some (unchanged (decide (headroomBefore ≥ 0)))⟩
      else if headroomBefore ≥ 0 then ⟨input.basePlan, some (unchanged true)⟩
      else
        let r := escalate input.estimate target input.estimatedTokens input.stages
        let headroomAfter := target - r.1
        ⟨planFromStages input.basePlan r.2, some ⟨config.policy, target, headroomBefore,
          r.2.map LadderStage.engine, headroomAfter, decide (headroomAfter ≥ 0)⟩⟩

/-! ## What a plan runs -/

/-- The engine that a mode other than `stacked` runs, by `applyCompression`. -/
def engineOfMode : String → Option String
  | "lite" => some "lite"
  | "standard" => some "caveman"
  | "aggressive" => some "aggressive"
  | "ultra" => some "ultra"
  | "rtk" => some "rtk"
  | "codex-responses" => some "codex-responses"
  | "omniglyph" => some "omniglyph"
  | _ => none

def DerivedPlan.runs (plan : DerivedPlan) : List LadderStage :=
  if plan.mode = "stacked" then plan.stackedPipeline
  else (engineOfMode plan.mode).toList.map fun engine => { engine }

/-- The plan runs the base plan and then a prefix of the stages. No shorter one reaches the target,
and the telemetry says whether this one does. -/
def Escalates (input : ResolveAdaptiveInput) : Prop :=
  ∃ applied, applied <+: input.stages ∧
    (resolveAdaptivePlan input).plan.runs = input.basePlan.runs ++ applied ∧
    ∀ t, (resolveAdaptivePlan input).telemetry = some t →
      t.stagesApplied = applied.map LadderStage.engine ∧
      (∀ shorter, shorter <+: applied → shorter ≠ applied →
        (t.target : ℚ) < shorter.foldl input.estimate input.estimatedTokens) ∧
      (t.fit = true ↔ applied.foldl input.estimate input.estimatedTokens ≤ t.target)

/-- The prompt is over a known target, and there is a stage to add. -/
def ResolveAdaptiveInput.Adds (input : ResolveAdaptiveInput) : Prop :=
  input.stages ≠ [] ∧ ∃ limit, input.modelContextLimit = some limit ∧ 0 < limit ∧
    (computeTarget input.config.policy limit input.requestMaxTokens input.config : ℚ) <
      input.estimatedTokens

/-! ## Escalation -/

variable {estimate : ℚ → LadderStage → ℚ} {target : ℤ} {current : ℚ} {stages : List LadderStage}

theorem escalate_last : (escalate estimate target current stages).1 =
    (escalate estimate target current stages).2.foldl estimate current := by
  induction stages generalizing current with
  | nil => rfl
  | cons stage stages ih =>
    rw [escalate]
    dsimp only
    split
    · rfl
    · exact ih

theorem escalate_prefix : (escalate estimate target current stages).2 <+: stages := by
  induction stages generalizing current with
  | nil => exact prefix_refl []
  | cons stage stages ih =>
    rw [escalate]
    dsimp only
    split
    · exact cons_prefix_cons.2 ⟨rfl, nil_prefix⟩
    · exact cons_prefix_cons.2 ⟨rfl, ih⟩

theorem escalate_ne_nil (h : stages ≠ []) : (escalate estimate target current stages).2 ≠ [] := by
  cases stages with
  | nil => exact absurd rfl h
  | cons stage stages =>
    rw [escalate]
    dsimp only
    split <;> exact cons_ne_nil _ _

/-- From above the target, no shorter prefix reaches it. -/
theorem escalate_least (hover : target < current) {shorter : List LadderStage}
    (hshorter : shorter <+: (escalate estimate target current stages).2)
    (hne : shorter ≠ (escalate estimate target current stages).2) :
    target < shorter.foldl estimate current := by
  induction stages generalizing current shorter with
  | nil => exact absurd (prefix_nil.1 hshorter) hne
  | cons stage stages ih =>
    rw [escalate] at hshorter hne
    dsimp only at hshorter hne
    cases shorter with
    | nil => exact hover
    | cons first shorter =>
      split at hshorter
      · next hfits =>
        rw [if_pos hfits] at hne
        obtain ⟨rfl, hnil⟩ := cons_prefix_cons.1 hshorter
        exact absurd (congrArg (first :: ·) (prefix_nil.1 hnil)) hne
      · next hfits =>
        rw [if_neg hfits] at hne
        obtain ⟨rfl, hrest⟩ := cons_prefix_cons.1 hshorter
        exact ih (not_le.1 hfits) hrest fun heq => hne (congrArg (first :: ·) heq)

/-- The engine of a bare mode has the rank of the mode, so no stage above it has that engine. -/
theorem rank_engineOfMode {mode engine : String} (h : engineOfMode mode = some engine) :
    aggressivenessOf engine = aggressivenessOf mode ∧ mode ≠ "stacked" := by
  unfold engineOfMode at h
  split at h
  all_goals first | (obtain rfl := Option.some.inj h; exact ⟨by decide, by decide⟩) | cases h

variable {input : ResolveAdaptiveInput}

/-- What the resolver does in floor mode. -/
theorem resolve_floor (hfloor : input.config.mode = .floor) :
    (¬input.Adds ∧ (resolveAdaptivePlan input).plan = input.basePlan ∧
      ∀ t, (resolveAdaptivePlan input).telemetry = some t → t.stagesApplied = [] ∧
        (t.fit = true ↔ input.estimatedTokens ≤ t.target)) ∨
    (input.Adds ∧ ∃ target : ℤ, target < input.estimatedTokens ∧
      let r := escalate input.estimate target input.estimatedTokens input.stages
      (resolveAdaptivePlan input).plan = planFromStages input.basePlan r.2 ∧
      ∀ t, (resolveAdaptivePlan input).telemetry = some t → t.target = target ∧
        t.stagesApplied = r.2.map LadderStage.engine ∧ (t.fit = true ↔ r.1 ≤ target)) := by
  unfold resolveAdaptivePlan
  dsimp only
  rw [if_neg (by rw [hfloor]; exact nofun)]
  cases hlimit : input.modelContextLimit.filter (0 < ·) with
  | none =>
    refine .inl ⟨?_, rfl, nofun⟩
    rintro ⟨-, limit, hlim, hpos, -⟩
    rw [hlim, Option.filter_some, if_pos (decide_eq_true hpos)] at hlimit
    cases hlimit
  | some limit =>
    obtain ⟨hlim, hpos⟩ := Option.filter_eq_some_iff.1 hlimit
    dsimp only
    have hmode : input.config.mode ≠ .replaceAutotrigger := by
      rw [hfloor]
      decide
    rw [if_neg fun h => hmode h.1]
    have hiff : ∀ x : ℚ, (computeTarget input.config.policy limit input.requestMaxTokens
        input.config : ℚ) - x ≥ 0 ↔ x ≤ computeTarget input.config.policy limit
          input.requestMaxTokens input.config := fun x => sub_nonneg
    by_cases hfits : (computeTarget input.config.policy limit input.requestMaxTokens
        input.config : ℚ) - input.estimatedTokens ≥ 0
    · rw [if_pos hfits]
      refine .inl ⟨?_, rfl, ?_⟩
      · rintro ⟨-, limit', hlim', -, hover⟩
        obtain rfl := Option.some.inj (hlim.symm.trans hlim')
        exact absurd ((hiff _).1 hfits) (not_le.2 hover)
      · rintro t ⟨⟩
        exact ⟨rfl, iff_of_true rfl ((hiff _).1 hfits)⟩
    · rw [if_neg hfits]
      have hover := not_le.1 (mt (hiff _).2 hfits)
      by_cases hnil : input.stages = []
      · refine .inl ⟨fun hadds => hadds.1 hnil, ?_, ?_⟩
        · rw [hnil]
          rfl
        · rintro t ⟨⟩
          rw [hnil]
          exact ⟨rfl, decide_eq_true_iff.trans (hiff _)⟩
      · refine .inr ⟨⟨hnil, limit, hlim, of_decide_eq_true hpos, hover⟩, _, hover, rfl, ?_⟩
        rintro t ⟨⟩
        exact ⟨rfl, rfl, decide_eq_true_iff.trans (hiff _)⟩

/-- **Escalation never weakens the plan** exactly when no stage is added to a bare mode. -/
theorem escalates_iff (hfloor : input.config.mode = .floor) :
    Escalates input ↔ ¬(input.Adds ∧ (engineOfMode input.basePlan.mode).isSome = true) := by
  rcases resolve_floor hfloor with ⟨hno, hplan, htel⟩ | ⟨hadds, target, hover, hplan, htel⟩
  · refine iff_of_true ⟨[], nil_prefix, ?_, fun t ht => ?_⟩ fun h => hno h.1
    · rw [hplan, append_nil]
    · refine ⟨(htel t ht).1, fun shorter hshorter hne => ?_, (htel t ht).2⟩
      exact absurd (prefix_nil.1 hshorter) hne
  · have hne : (escalate input.estimate target input.estimatedTokens input.stages).2 ≠ [] :=
      escalate_ne_nil hadds.1
    have hpre : (escalate input.estimate target input.estimatedTokens input.stages).2 <+:
        input.stages :=
      escalate_prefix
    have hruns : (resolveAdaptivePlan input).plan.runs =
        (if input.basePlan.mode = "stacked" then input.basePlan.stackedPipeline else []) ++
          (escalate input.estimate target input.estimatedTokens input.stages).2 := by
      rw [hplan, planFromStages, if_neg (mt length_eq_zero_iff.1 hne), DerivedPlan.runs,
        if_pos rfl]
    cases hengine : engineOfMode input.basePlan.mode with
    | none =>
      refine iff_of_true ⟨_, hpre, ?_, fun t ht => ?_⟩ fun h => nomatch h.2
      · rw [hruns, DerivedPlan.runs, hengine]
        rfl
      · obtain ⟨htarget, hstages, hfit⟩ := htel t ht
        rw [htarget]
        exact ⟨hstages, fun _ => escalate_least hover, by rw [hfit, escalate_last]⟩
    | some engine =>
      obtain ⟨hrank, hmode⟩ := rank_engineOfMode hengine
      refine iff_of_false ?_ fun h => h ⟨hadds, rfl⟩
      rintro ⟨applied, -, heq, -⟩
      rw [hruns, if_neg hmode, List.nil_append, DerivedPlan.runs, if_neg hmode, hengine] at heq
      have hmem : ({ engine } : LadderStage) ∈ input.stages :=
        hpre.subset (heq ▸ mem_append_left _ mem_cons_self)
      have habove := (mem_filter.1 hmem).2
      rw [hfloor, if_pos rfl, decide_eq_true_eq, hrank] at habove
      exact lt_irrefl _ habove

/-- A prompt of 10000 tokens under the `standard` mode, for a model of 8000 tokens. -/
def overStandard : ResolveAdaptiveInput where
  basePlan := { mode := "standard" }
  estimatedTokens := 10000
  modelContextLimit := some 8000
  config := { mode := .floor }

theorem escalates_iff_overStandard : overStandard.config.mode = .floor ∧
    (Escalates overStandard ↔
      ¬(overStandard.Adds ∧ (engineOfMode overStandard.basePlan.mode).isSome = true)) :=
  ⟨rfl, escalates_iff rfl⟩

/-- **The caveman engine of the `standard` mode is gone** once `aggressive` and `ultra` come. -/
theorem overStandard_drops : overStandard.config.mode = .floor ∧ ¬Escalates overStandard := by
  refine ⟨rfl, ?_⟩
  rintro ⟨applied, -, heq, -⟩
  have hfirst : (resolveAdaptivePlan overStandard).plan.runs.head? ≠ some { engine := "caveman" } := by
    decide +kernel
  exact hfirst (by rw [heq]; rfl)

end OmniRoute.AdaptivePlan
