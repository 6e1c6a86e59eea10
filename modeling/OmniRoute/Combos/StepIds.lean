import OmniRoute.Combos.Expand
import OmniRoute.Lib.Firsts
import OmniRoute.Lib.OrdMap

/-!
# Step ids and execution keys

Every step of a combo has an id, its own or one that is built from the combo's name, its position
and its target; the ids on the way to a target, joined, are the target's execution key. Composite
tiers name steps by their ids and put them first.

`orderRuntimeStepsByCompositeTiers` keeps one step of each id (`mem_ordered_iff`): of several the
last one where a tier names the id, the first one otherwise.
-/

namespace OmniRoute.ComboKeys

open Combo Firsts List OrdMap

/-! ## Ids -/

/-- What the lower-case form of a character puts in a slug; everything else is a separator. -/
def slugChars (c : Char) : List Char :=
  if c.toNat = 0x130 then ['i', '-']
  else if c.toNat = 0x212A then ['k']
  else if c.toLower.isLower || c.isDigit then [c.toLower]
  else ['-']

/-- Of several dashes in a row one stays. -/
def collapse : List Char → List Char
  | [] => []
  | [c] => [c]
  | c :: d :: l => if c = '-' ∧ d = '-' then collapse (d :: l) else c :: collapse (d :: l)

def slugify (value : String) : String :=
  let dashed := collapse (value.toList.flatMap slugChars)
  let slug := (dashed.dropWhile fun c => c = '-').rdropWhile fun c => c = '-'
  if slug = [] then "step" else String.ofList slug

inductive StepKind
  | model | comboRef
  deriving DecidableEq

def kindSlug : StepKind → String
  | .comboRef => "ref"
  | .model => "model"

def buildStepId (kind : StepKind) (comboName : Option String) (index : ℕ) (seed : String) : String :=
  let parts := [slugify (comboName.getD "combo"), kindSlug kind, toString (index + 1), slugify seed]
  String.ofList (("-".intercalate parts).toList.take 200)

/-- An entry with the fields that the expansion by keys reads besides. -/
structure KeyedEntry where
  entry : Entry
  id : Option String := none
  weight : ℚ := 0

def KeyedEntry.explicitId (e : KeyedEntry) : Option String :=
  match e.entry with
  | .text _ => none
  | .record _ => toTrimmedString e.id

def KeyedEntry.toWeight (e : KeyedEntry) : ℚ :=
  match e.entry with
  | .text _ => 0
  | .record _ => max 0 (min 100 e.weight)

/-- The id of a typed step; wildcards are expanded before, and none is left here. -/
def stepId (e : KeyedEntry) (comboName : String) (index : ℕ) : ComboStep → String
  | .model model _ connectionId _ _ _ =>
    e.explicitId.getD (buildStepId .model (toTrimmedString (some comboName)) index
      (match connectionId with
        | some id => model ++ ":" ++ id
        | none => model))
  | .comboRef name _ _ =>
    e.explicitId.getD (buildStepId .comboRef (toTrimmedString (some comboName)) index name)
  | .providerWildcard .. => ""

/-! ## Combos -/

structure CompositeTier where
  stepId : Option String
  fallbackTier : Option String

structure CompositeTiers where
  defaultTier : Option String
  tiers : List (String × CompositeTier)

structure KeyedCombo where
  name : String
  models : List KeyedEntry
  compositeTiers : Option CompositeTiers := none

/-- The combo without ids, weights and tiers. -/
def KeyedCombo.plain (combo : KeyedCombo) : ComboLike where
  name := combo.name
  models := combo.models.map KeyedEntry.entry

/-- The tiers that have a name and a step. -/
def tierEntries (tiers : List (String × CompositeTier)) :
    OrdMap String (String × Option String) :=
  ofList (tiers.filterMap fun (tierName, rawTier) =>
    match toTrimmedString (some tierName), toTrimmedString rawTier.stepId with
    | some normalizedTierName, some stepId =>
      some (normalizedTierName, stepId, toTrimmedString rawTier.fallbackTier)
    | _, _ => none)

/-- The walk along the fallbacks; each tier is visited once, so `left` tiers are enough. -/
def tierChain (entries : OrdMap String (String × Option String)) :
    ℕ → List String → Option String → List String
  | 0, _, _ => []
  | _, _, none => []
  | left + 1, visitedTiers, some currentTier =>
    if currentTier ∈ visitedTiers then []
    else
      match entries.get currentTier with
      | none => []
      | some (stepId, fallbackTier) =>
        stepId :: tierChain entries left (currentTier :: visitedTiers) fallbackTier

def getCompositeTierStepOrder (combo : KeyedCombo) : List String :=
  match combo.compositeTiers with
  | none => []
  | some compositeTiers =>
    match toTrimmedString compositeTiers.defaultTier with
    | none => []
    | some defaultTier =>
      let entries := tierEntries compositeTiers.tiers
      firsts id (tierChain entries entries.size [] (some defaultTier) ++ entries.values.map Prod.fst)

/-! ## Steps -/

/-- A step, with its place among the entries. -/
structure KeyedStep where
  index : ℕ
  stepId : String
  executionKey : String
  weight : ℚ
  step : RuntimeStep

/-- A target; `origin` are the places of the entries that lead to it, which the source does not
keep. -/
structure KeyedTarget where
  origin : List ℕ
  stepId : String
  executionKey : String
  weight : ℚ
  target : ResolvedComboTarget

def buildExecutionKey (path : List String) (stepId : String) : String :=
  ">".intercalate (path ++ [stepId])

def normalizeRuntimeStep (e : KeyedEntry) (comboName : String) (index : ℕ) (comboNames : List String)
    (path : List String) : Option KeyedStep :=
  match normalizeComboStep e.entry comboNames (some comboName),
      Combo.normalizeRuntimeStep e.entry comboName comboNames with
  | some typed, some step =>
    let id := stepId e comboName index typed
    some { index, stepId := id, executionKey := buildExecutionKey path id, weight := e.toWeight, step }
  | _, _ => none

/-- The steps of a combo, in the order of the entries. -/
def getTopLevelRuntimeSteps (combo : KeyedCombo) (comboNames : List String) (path : List String) :
    List KeyedStep :=
  combo.models.zipIdx.filterMap fun (e, index) =>
    normalizeRuntimeStep e combo.name index comboNames path

/-- The steps that the tiers name come first; `byStepId` has the last step of each id. -/
def orderRuntimeStepsByCompositeTiers (steps : List KeyedStep) (orderedStepIds : List String) :
    List KeyedStep :=
  if orderedStepIds = [] then steps
  else
    let byStepId := ofList (steps.map fun step => (step.stepId, step))
    firsts KeyedStep.stepId (orderedStepIds.filterMap byStepId.get ++ steps)

def getOrderedTopLevelRuntimeSteps (combo : KeyedCombo) (comboNames : List String)
    (path : List String) : List KeyedStep :=
  orderRuntimeStepsByCompositeTiers (getTopLevelRuntimeSteps combo comboNames path)
    (getCompositeTierStepOrder combo)

/-! ## Which steps are kept -/

theorem index_of_normalizeRuntimeStep {e : KeyedEntry} {comboName : String} {index : ℕ}
    {comboNames path : List String} {s : KeyedStep}
    (h : normalizeRuntimeStep e comboName index comboNames path = some s) : s.index = index := by
  unfold normalizeRuntimeStep at h
  split at h
  · rw [← Option.some.inj h]
  · cases h

theorem sorted_topLevelSteps (combo : KeyedCombo) (comboNames path : List String) :
    (getTopLevelRuntimeSteps combo comboNames path).Pairwise fun s s' => s.index < s'.index := by
  have hindices : combo.models.zipIdx.Pairwise fun p q => p.2 < q.2 := by
    rw [← pairwise_map (f := Prod.snd) (R := (· < ·)), zipIdx_map_snd]
    exact pairwise_lt_range'
  refine hindices.filterMap _ fun p q hlt s hs s' hs' => ?_
  rw [index_of_normalizeRuntimeStep hs, index_of_normalizeRuntimeStep hs']
  exact hlt

/-- Another step takes the place of this one: the last of its id where a tier names the id, the
first otherwise. -/
def PassedOver (steps : List KeyedStep) (orderedStepIds : List String) (s : KeyedStep) : Prop :=
  orderedStepIds ≠ [] ∧ ∃ s' ∈ steps, s'.stepId = s.stepId ∧
    if s.stepId ∈ orderedStepIds then s.index < s'.index else s'.index < s.index

variable {steps : List KeyedStep}

theorem byStepId_eq_some (hsorted : steps.Pairwise fun s s' =>
    s.index < s'.index) {id : String} {s : KeyedStep} :
    (ofList (steps.map fun step => (step.stepId, step))).get id = some s ↔
      s ∈ steps ∧ s.stepId = id ∧ ∀ s' ∈ steps, s'.stepId = id → ¬s.index < s'.index := by
  have hreverse : steps.reverse.Pairwise fun s s' => s'.index < s.index :=
    pairwise_reverse.2 hsorted
  rw [get_ofList, ← map_reverse, find?_map, Option.map_map]
  have hfind := find?_eq_some_iff_of_pairwise (fun a b h => Nat.lt_asymm h) hreverse
    (p := fun step => decide (step.stepId = id)) (a := s)
  simp only [mem_reverse, decide_eq_true_eq] at hfind
  rw [← hfind]
  simp only [Function.comp_def, Option.map_id']

theorem byStepId_ne_none {s : KeyedStep} (hs : s ∈ steps) :
    (ofList (steps.map fun step => (step.stepId, step))).get s.stepId ≠ none := by
  rw [get_ofList, Ne, Option.map_eq_none_iff, find?_eq_none]
  intro hnone
  have hmem : (s.stepId, s) ∈ (steps.map fun step => (step.stepId, step)).reverse :=
    mem_reverse.2 (mem_map.2 ⟨s, hs, rfl⟩)
  exact hnone _ hmem (decide_eq_true rfl)

/-- Of the steps that are looked up for a list of ids, the one of an id is that of the lookup. -/
theorem find?_filterMap_ids {lookup : String → Option KeyedStep}
    (hlookup : ∀ id s, lookup id = some s → s.stepId = id) (ids : List String) (id : String) :
    (ids.filterMap lookup).find? (fun step => step.stepId = id) =
      if id ∈ ids then lookup id else none := by
  induction ids with
  | nil => rfl
  | cons k ids ih =>
    cases hk : lookup k with
    | none =>
      rw [filterMap_cons_none hk, ih]
      by_cases heq : id = k
      · subst heq
        simp [hk]
      · simp [heq]
    | some s =>
      rw [filterMap_cons_some hk]
      have hid := hlookup k s hk
      by_cases heq : k = id
      · subst heq
        rw [find?_cons_of_pos (by simpa using hid), if_pos mem_cons_self, hk]
      · rw [find?_cons_of_neg (by simpa [hid] using heq), ih]
        simp [Ne.symm heq]

theorem mem_ordered_iff (hsorted : steps.Pairwise fun s s' =>
    s.index < s'.index) {orderedStepIds : List String} {s : KeyedStep} :
    s ∈ orderRuntimeStepsByCompositeTiers steps orderedStepIds ↔
      s ∈ steps ∧ ¬PassedOver steps orderedStepIds s := by
  unfold orderRuntimeStepsByCompositeTiers
  split
  · next hnil => exact ⟨fun h => ⟨h, fun hpassed => hpassed.1 hnil⟩, fun h => h.1⟩
  · next hne =>
    dsimp only
    rw [mem_firsts, find?_append]
    rw [find?_filterMap_ids fun id s h => ((byStepId_eq_some hsorted).1 h).2.1]
    by_cases hnamed : s.stepId ∈ orderedStepIds
    · rw [if_pos hnamed, Option.or_eq_some_iff, byStepId_eq_some hsorted]
      constructor
      · rintro (⟨hs, -, hlast⟩ | ⟨hnone, hfind⟩)
        · refine ⟨hs, ?_⟩
          rintro ⟨-, s', hs', hid, hlt⟩
          rw [if_pos hnamed] at hlt
          exact hlast s' hs' hid hlt
        · exact absurd hnone (byStepId_ne_none (mem_of_find?_eq_some hfind))
      · rintro ⟨hs, hnot⟩
        refine .inl ⟨hs, rfl, fun s' hs' hid hlt => hnot ⟨hne, s', hs', hid, ?_⟩⟩
        rw [if_pos hnamed]
        exact hlt
    · rw [if_neg hnamed, Option.none_or,
        find?_eq_some_iff_of_pairwise (fun a b h => Nat.lt_asymm h) hsorted]
      simp only [decide_eq_true_eq, true_and]
      constructor
      · rintro ⟨hs, hleast⟩
        refine ⟨hs, ?_⟩
        rintro ⟨-, s', hs', hid, hlt⟩
        rw [if_neg hnamed] at hlt
        exact hleast s' hs' hid hlt
      · rintro ⟨hs, hnot⟩
        refine ⟨hs, fun s' hs' hid hlt => hnot ⟨hne, s', hs', hid, ?_⟩⟩
        rw [if_neg hnamed]
        exact hlt

/-- No step is kept twice. -/
theorem nodup_ordered (hsorted : steps.Pairwise fun s s' =>
    s.index < s'.index) (orderedStepIds : List String) :
    (orderRuntimeStepsByCompositeTiers steps orderedStepIds).Nodup := by
  unfold orderRuntimeStepsByCompositeTiers
  split
  · refine Nodup.of_map KeyedStep.index ?_
    exact pairwise_map.2 (hsorted.imp Nat.ne_of_lt)
  · exact Nodup.of_map KeyedStep.stepId (nodup_firsts _)

end OmniRoute.ComboKeys
