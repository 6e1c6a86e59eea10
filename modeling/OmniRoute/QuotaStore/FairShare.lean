import OmniRoute.QuotaStore.Drivers

/-!
# The fair-share decision

`decideFairShare` of `src/lib/quota/fairShare.ts`. The loop over the dimensions returns at the first
one that blocks, so which one that is depends on the order, but not whether there is one.

**Main result (`decideFairShare_laws`).** The decision does not depend on the order of the
dimensions, more consumption never lifts a block, and a policy blocks whenever a more permissive one
does.

A decision has no `retryAfterMs`: the function never sets it.
-/

namespace OmniRoute

open List

inductive Policy
  | hard
  | soft
  | burst
  deriving DecidableEq

/-- An allocation holds the text of a database row, which may be none of the three. -/
def normalizePolicy (policy : String) : Policy :=
  if policy = "soft" then .soft else if policy = "burst" then .burst else .hard

inductive FairShareKind
  | allow
  | block
  deriving DecidableEq

inductive FairShareReason
  | ok
  | fairShare
  | capAbsolute
  | globalSaturated
  deriving DecidableEq

structure FairShareDecision where
  kind : FairShareKind
  reason : FairShareReason
  /-- `undefined` unless it is true. -/
  penalized : Bool := false
  deriving DecidableEq

section

variable {K : Type} [Field K] [LinearOrder K]

/-- The schema of a plan allows positive limits only, and `enforceQuotaShare` skips a dimension
whose limit is not above `Number.EPSILON`. -/
structure FairShareDimension (K : Type) [Field K] [LinearOrder K] where
  key : DimensionKey
  limit : K
  consumedTotal : K
  globalUsedPercent : K
  limit_pos : 0 < limit

structure FairShareAllocation (K : Type) [Field K] [LinearOrder K] where
  weight : K
  capValue : Option K
  capUnit : Option QuotaUnit
  policy : String
  weight_nonneg : 0 ≤ weight
  weight_le : weight ≤ 100

structure FairShareInput (K : Type) [Field K] [LinearOrder K] where
  dimensions : List (FairShareDimension K)
  allocation : FairShareAllocation K
  consumedByThisKey : OrdMap String K
  saturationThreshold : K

namespace FairShareInput

variable (input : FairShareInput K) (dim : FairShareDimension K)

def consumed : K := (input.consumedByThisKey.get (dimensionKeyToString dim.key)).getD 0

def fairShare : K := input.allocation.weight / 100 * dim.limit

/-- `consumed >= allocation.capValue`, for a cap in the unit of the dimension. -/
def capReached : Prop :=
  input.allocation.capUnit = some dim.key.unit ∧
    ∃ cap ∈ input.allocation.capValue, cap ≤ input.consumed dim

instance : Decidable (input.capReached dim) :=
  inferInstanceAs (Decidable (_ ∧ ∃ cap ∈ input.allocation.capValue, _))

/-- Why a dimension blocks. -/
def blockReason (policy : Policy) : Option FairShareReason :=
  if input.capReached dim then some .capAbsolute
  else if dim.limit ≤ dim.consumedTotal then some .globalSaturated
  else if input.saturationThreshold ≤ dim.globalUsedPercent then
    match policy with
    | .hard => if input.fairShare dim ≤ input.consumed dim then some .fairShare else none
    | .soft => none
    | .burst => none
  else
    match policy with
    | .hard => if dim.limit ≤ input.consumed dim then some .globalSaturated else none
    | .soft => none
    | .burst => none

/-- Whether a dimension that does not block is penalised, which is so in both modes. -/
def penalizes (policy : Policy) : Bool :=
  match policy with
  | .soft => input.fairShare dim ≤ input.consumed dim
  | .hard => false
  | .burst => false

end FairShareInput

open FairShareInput

/-- The loop over the dimensions. -/
def decideDimensions (input : FairShareInput K) (policy : Policy) :
    Bool → List (FairShareDimension K) → FairShareDecision
  | anyPenalized, [] => { kind := .allow, reason := .ok, penalized := anyPenalized }
  | anyPenalized, dim :: dims =>
    match input.blockReason dim policy with
    | some reason => { kind := .block, reason }
    | none => decideDimensions input policy (anyPenalized || input.penalizes dim policy) dims

def decideFairShare (input : FairShareInput K) : FairShareDecision :=
  if input.dimensions.length = 0 then { kind := .allow, reason := .ok }
  else decideDimensions input (normalizePolicy input.allocation.policy) false input.dimensions

/-- The same dimensions with no less consumption, of the same allocation. -/
structure FairShareInput.Below (input input' : FairShareInput K) : Prop where
  dimensions : List.Forall₂ (fun dim dim' : FairShareDimension K => dim.key = dim'.key ∧
    dim.limit = dim'.limit ∧ dim.consumedTotal ≤ dim'.consumedTotal ∧
    dim.globalUsedPercent ≤ dim'.globalUsedPercent) input.dimensions input'.dimensions
  allocation : input.allocation = input'.allocation
  consumed : ∀ key, (input.consumedByThisKey.get key).getD 0 ≤
    (input'.consumedByThisKey.get key).getD 0
  threshold : input.saturationThreshold = input'.saturationThreshold

/-- The input with the dimensions in another order. -/
def FairShareInput.withDimensions (input : FairShareInput K)
    (dimensions : List (FairShareDimension K)) : FairShareInput K :=
  { input with dimensions }

def FairShareInput.withPolicy (input : FairShareInput K) (policy : String) : FairShareInput K :=
  { input with allocation := { input.allocation with policy } }

/-! ## The decision by dimensions -/

variable {input input' : FairShareInput K}

theorem decideDimensions_kind (policy : Policy) (anyPenalized : Bool)
    (dims : List (FairShareDimension K)) :
    (decideDimensions input policy anyPenalized dims).kind = .block ↔
      ∃ dim ∈ dims, input.blockReason dim policy ≠ none := by
  induction dims generalizing anyPenalized with
  | nil => simp [decideDimensions]
  | cons dim dims ih =>
    rw [decideDimensions]
    cases hreason : input.blockReason dim policy with
    | some reason =>
      refine ⟨fun _ => ⟨dim, mem_cons_self, ?_⟩, fun _ => rfl⟩
      rw [hreason]
      exact nofun
    | none =>
      dsimp only
      rw [ih]
      constructor
      · rintro ⟨dim', hmem, hblock⟩
        exact ⟨dim', mem_cons_of_mem _ hmem, hblock⟩
      · rintro ⟨dim', hmem, hblock⟩
        rcases mem_cons.1 hmem with rfl | hmem
        · exact absurd hreason hblock
        · exact ⟨dim', hmem, hblock⟩

theorem decideDimensions_penalized (policy : Policy) (anyPenalized : Bool)
    (dims : List (FairShareDimension K)) :
    (decideDimensions input policy anyPenalized dims).penalized = true ↔
      (∀ dim ∈ dims, input.blockReason dim policy = none) ∧
        (anyPenalized = true ∨ ∃ dim ∈ dims, input.penalizes dim policy = true) := by
  induction dims generalizing anyPenalized with
  | nil => simp [decideDimensions]
  | cons dim dims ih =>
    rw [decideDimensions]
    cases hreason : input.blockReason dim policy with
    | some reason => simp [hreason]
    | none =>
      dsimp only
      rw [ih, forall_mem_cons, Bool.or_eq_true]
      simp only [hreason, true_and, mem_cons, exists_eq_or_imp, or_assoc]

section

variable (input : FairShareInput K)

theorem decideFairShare_kind : (decideFairShare input).kind = .block ↔
    ∃ dim ∈ input.dimensions,
      input.blockReason dim (normalizePolicy input.allocation.policy) ≠ none := by
  unfold decideFairShare
  split
  · next hempty => simp [length_eq_zero_iff.1 hempty]
  · exact decideDimensions_kind _ _ _

theorem decideFairShare_penalized :
    (decideFairShare input).penalized = true ↔
    (∀ dim ∈ input.dimensions,
      input.blockReason dim (normalizePolicy input.allocation.policy) = none) ∧
    ∃ dim ∈ input.dimensions,
      input.penalizes dim (normalizePolicy input.allocation.policy) = true := by
  unfold decideFairShare
  split
  · next hempty => simp [length_eq_zero_iff.1 hempty]
  · rw [decideDimensions_penalized]
    simp

theorem FairShareKind.eq_of_block_iff {kind kind' : FairShareKind}
    (h : kind = .block ↔ kind' = .block) : kind = kind' := by
  cases kind with
  | block => exact (h.1 rfl).symm
  | allow =>
    cases kind' with
    | block => exact h.2 rfl
    | allow => rfl

/-- Whether a dimension blocks, and whether it is penalised, does not depend on the others. -/
theorem decideFairShare_perm {dims : List (FairShareDimension K)} (h : dims.Perm input.dimensions) :
    (decideFairShare (input.withDimensions dims)).kind = (decideFairShare input).kind ∧
    (decideFairShare (input.withDimensions dims)).penalized =
      (decideFairShare input).penalized := by
  constructor
  · refine FairShareKind.eq_of_block_iff ?_
    rw [decideFairShare_kind, decideFairShare_kind]
    exact exists_congr fun dim => and_congr_left fun _ => h.mem_iff
  · rw [Bool.eq_iff_iff, decideFairShare_penalized, decideFairShare_penalized]
    exact and_congr (forall_congr' fun dim => imp_congr h.mem_iff Iff.rfl)
      (exists_congr fun dim => and_congr_left fun _ => h.mem_iff)

end

/-! ## More consumption -/

variable [IsStrictOrderedRing K]

theorem fairShare_le (input : FairShareInput K) (dim : FairShareDimension K) :
    input.fairShare dim ≤ dim.limit := by
  have hweight : input.allocation.weight / 100 ≤ 1 :=
    (div_le_one (by norm_num)).2 input.allocation.weight_le
  exact mul_le_of_le_one_left dim.limit_pos.le hweight

/-- When a dimension blocks: the cap, the limit, or for the hard policy the share, which is below
the limit, so that the switch to the strict mode only adds blocks. -/
theorem blockReason_ne_none (input : FairShareInput K) (dim : FairShareDimension K)
    (policy : Policy) : input.blockReason dim policy ≠ none ↔
      input.capReached dim ∨ dim.limit ≤ dim.consumedTotal ∨
        (policy = .hard ∧ (dim.limit ≤ input.consumed dim ∨
          (input.saturationThreshold ≤ dim.globalUsedPercent ∧
            input.fairShare dim ≤ input.consumed dim))) := by
  unfold blockReason
  by_cases hcap : input.capReached dim
  · simp [hcap]
  by_cases hlimit : dim.limit ≤ dim.consumedTotal
  · simp [hcap, hlimit]
  have hshare : dim.limit ≤ input.consumed dim → input.fairShare dim ≤ input.consumed dim :=
    (fairShare_le input dim).trans
  rw [if_neg hcap, if_neg hlimit]
  cases policy with
  | soft => simp [hcap, hlimit]
  | burst => simp [hcap, hlimit]
  | hard =>
    by_cases hstrict : input.saturationThreshold ≤ dim.globalUsedPercent
    · simp only [hcap, hlimit, hstrict, true_and, false_or]
      by_cases hover : input.fairShare dim ≤ input.consumed dim
      · simp [hover]
      · simp [hover, mt hshare hover]
    · simp only [hcap, hlimit, hstrict, true_and, false_or, false_and, or_false]
      by_cases hover : dim.limit ≤ input.consumed dim
      · simp [hover]
      · simp [hover]

theorem blockReason_mono (h : input.Below input') {dim dim' : FairShareDimension K}
    (hkey : dim.key = dim'.key) (hlimit : dim.limit = dim'.limit)
    (htotal : dim.consumedTotal ≤ dim'.consumedTotal)
    (hglobal : dim.globalUsedPercent ≤ dim'.globalUsedPercent) {policy : Policy}
    (hblock : input.blockReason dim policy ≠ none) :
    input'.blockReason dim' policy ≠ none := by
  have hconsumed : input.consumed dim ≤ input'.consumed dim' := by
    unfold FairShareInput.consumed
    rw [hkey]
    exact h.consumed _
  have hshare : input.fairShare dim = input'.fairShare dim' := by
    rw [FairShareInput.fairShare, FairShareInput.fairShare, h.allocation, hlimit]
  rw [blockReason_ne_none] at hblock ⊢
  rcases hblock with ⟨hunit, cap, hcap, hle⟩ | hle | ⟨hpolicy, hle | ⟨hstrict, hle⟩⟩
  · refine .inl ⟨?_, cap, ?_, hle.trans hconsumed⟩
    · rw [← h.allocation, ← hkey]
      exact hunit
    · rw [← h.allocation]
      exact hcap
  · exact .inr (.inl (hlimit ▸ hle.trans htotal))
  · exact .inr (.inr ⟨hpolicy, .inl (hlimit ▸ hle.trans hconsumed)⟩)
  · refine .inr (.inr ⟨hpolicy, .inr ⟨?_, hshare ▸ hle.trans hconsumed⟩⟩)
    rw [← h.threshold]
    exact hstrict.trans hglobal

theorem decideFairShare_mono (h : input.Below input')
    (hblock : (decideFairShare input).kind = .block) : (decideFairShare input').kind = .block := by
  rw [decideFairShare_kind] at hblock ⊢
  obtain ⟨dim, hmem, hreason⟩ := hblock
  obtain ⟨i, hi, rfl⟩ := getElem_of_mem hmem
  have hi' : i < input'.dimensions.length := h.dimensions.length_eq ▸ hi
  obtain ⟨hkey, hlimit, htotal, hglobal⟩ := h.dimensions.get hi hi'
  refine ⟨input'.dimensions[i], getElem_mem hi', ?_⟩
  rw [← h.allocation]
  exact blockReason_mono h hkey hlimit htotal hglobal hreason

/-! ## The policies -/

/-- How permissive a policy is. -/
def Policy.rank : Policy → ℕ
  | .hard => 0
  | .soft => 1
  | .burst => 2

theorem blockReason_policy {dim : FairShareDimension K} {policy policy' : Policy}
    (hle : policy.rank ≤ policy'.rank) (h : input.blockReason dim policy' ≠ none) :
    input.blockReason dim policy ≠ none := by
  rw [blockReason_ne_none] at h ⊢
  rcases h with hcap | hlimit | ⟨hpolicy, hover⟩
  · exact .inl hcap
  · exact .inr (.inl hlimit)
  · rw [hpolicy] at hle
    refine .inr (.inr ⟨?_, hover⟩)
    cases policy with
    | hard => rfl
    | _ => exact absurd hle (by decide)

theorem decideFairShare_policy (input : FairShareInput K) {policy policy' : String}
    (hle : (normalizePolicy policy).rank ≤ (normalizePolicy policy').rank)
    (h : (decideFairShare (input.withPolicy policy')).kind = .block) :
    (decideFairShare (input.withPolicy policy)).kind = .block := by
  rw [decideFairShare_kind] at h ⊢
  obtain ⟨dim, hmem, hreason⟩ := h
  -- nothing but the policy is read from the allocation's policy
  have hsame : ∀ p p' : String, (input.withPolicy p).blockReason dim =
      (input.withPolicy p').blockReason dim := fun _ _ => rfl
  exact ⟨dim, hmem, hsame policy' policy ▸ blockReason_policy hle hreason⟩

end

theorem decideFairShare_laws {K : Type} [Field K] [LinearOrder K] [IsStrictOrderedRing K]
    (input : FairShareInput K) :
    (∀ dims, dims.Perm input.dimensions →
      (decideFairShare (input.withDimensions dims)).kind = (decideFairShare input).kind ∧
      (decideFairShare (input.withDimensions dims)).penalized =
        (decideFairShare input).penalized) ∧
    (∀ input', input.Below input' → (decideFairShare input).kind = .block →
      (decideFairShare input').kind = .block) ∧
    ((decideFairShare (input.withPolicy "burst")).kind = .block →
      (decideFairShare (input.withPolicy "soft")).kind = .block) ∧
    ((decideFairShare (input.withPolicy "soft")).kind = .block →
      (decideFairShare (input.withPolicy "hard")).kind = .block) ∧
    ∀ policy, normalizePolicy policy = .hard →
      decideFairShare (input.withPolicy policy) = decideFairShare (input.withPolicy "hard") := by
  refine ⟨fun dims h => decideFairShare_perm input h, fun input' h => decideFairShare_mono h,
    decideFairShare_policy input (by decide), decideFairShare_policy input (by decide),
    fun policy h => ?_⟩
  have hsame : ∀ p policy anyPenalized dims,
      decideDimensions (input.withPolicy p) policy anyPenalized dims =
        decideDimensions (input.withPolicy "hard") policy anyPenalized dims := by
    intro p policy anyPenalized dims
    induction dims generalizing anyPenalized with
    | nil => rfl
    | cons dim dims ih =>
      rw [decideDimensions, decideDimensions, ih]
      rfl
  unfold decideFairShare
  have hhard : normalizePolicy (input.withPolicy "hard").allocation.policy = .hard := rfl
  have hpolicy : normalizePolicy (input.withPolicy policy).allocation.policy = .hard := h
  rw [hpolicy, hhard, hsame]
  rfl

/-- The key has used up its share of a saturated window. -/
def usedUp (policy : String) : FairShareInput ℚ where
  dimensions := [⟨⟨"pool", .tokens, .hourly⟩, 1000, 600, 1, by decide⟩]
  allocation := ⟨50, none, none, policy, by decide, by decide⟩
  consumedByThisKey := OrdMap.empty.set "pool:tokens:hourly" 500
  saturationThreshold := 1 / 2

theorem decideFairShare_laws_unknownPolicy :
    decideFairShare ((usedUp "soft").withPolicy "strict") =
      decideFairShare ((usedUp "soft").withPolicy "hard") :=
  (decideFairShare_laws (usedUp "soft")).2.2.2.2 "strict" (by decide)

end OmniRoute
