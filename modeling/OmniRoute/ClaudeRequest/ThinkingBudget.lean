import OmniRoute.ClaudeStream.ToolMarkup

/-!
# Fitting the thinking budget

`openai-to-claude/thinkingBudget.ts`: Claude wants at least 1024 thinking tokens, more `max_tokens`
than thinking tokens, and no more than the cap of the model. `fitThinkingToMaxTokens` keeps what the
caller asked for as room for the response, cuts the budget to what the cap leaves, then cuts the
room, and at last gives up thinking.

**Main result (`fits_iff`).** With thinking the request is always acceptable. Without it the request
is what the same caller gets without a budget only if the cap is not above what the caller asked for:
the code sends the cap itself.
-/

namespace OmniRoute.ClaudeRequest

open Option List

open ClaudeStream (setField)

/-- `Number(value) || 0` -/
structure ToNumber where
  number : Json ℤ → ℤ
  num : ∀ n, number (.num n) = n

abbrev Thinking := List (String × Json ℤ)

def minClaudeThinkingBudget : ℤ := 1024
def minResponseRoom : ℤ := 1024

/-- `Number(thinking?.budget_tokens) || 0` -/
def budgetTokens (N : ToNumber) (thinking : Thinking) : ℤ :=
  (thinking.lookup "budget_tokens").elim 0 N.number

/-- A cap that is not positive is none. -/
def safeCapMaxOutputTokens (capMaxOutputTokens : Option ℤ) : Option ℤ :=
  capMaxOutputTokens.filter (0 < ·)

structure Fitted where
  maxTokens : ℤ
  thinking : Option Thinking

def capped (modelCap : Option ℤ) (tokens : ℤ) : ℤ := modelCap.elim tokens (min tokens)

/-- The room for the response: what the caller asked for, or the least there must be if the cap
leaves too little for thinking next to it. -/
def responseRoom (modelCap : Option ℤ) (callerMaxTokens requestedBudget : ℤ) : ℤ :=
  let room := max callerMaxTokens minResponseRoom
  if capped modelCap (room + requestedBudget) - room < minClaudeThinkingBudget ∧
      room > minResponseRoom then minResponseRoom
  else room

def fitThinkingToMaxTokens (N : ToNumber) (capMaxOutputTokens : Option ℤ) (callerMaxTokens : ℤ)
    (thinking : Option Thinking) : Fitted :=
  let modelCap := safeCapMaxOutputTokens capMaxOutputTokens
  let requestedBudget := thinking.elim 0 (budgetTokens N)
  match thinking with
  | none => { maxTokens := capped modelCap (max callerMaxTokens 1), thinking }
  | some fields =>
    if requestedBudget ≤ 0 then { maxTokens := capped modelCap (max callerMaxTokens 1), thinking }
    else
      let room := responseRoom modelCap callerMaxTokens requestedBudget
      let target := capped modelCap (room + requestedBudget)
      let fittedBudget := target - room
      if fittedBudget < minClaudeThinkingBudget then
        { maxTokens := modelCap.getD (max callerMaxTokens 1), thinking := none }
      else if fittedBudget < requestedBudget then
        { maxTokens := target
          thinking := some (setField fields "budget_tokens" (.num fittedBudget)) }
      else { maxTokens := target, thinking := some fields }

/-! ## Acceptable requests -/

/-- A number of tokens fits under a cap. -/
def Under (modelCap : Option ℤ) (tokens : ℤ) : Prop := ∀ cap ∈ modelCap, tokens ≤ cap

/-- A budget that is sent. -/
structure AcceptableBudget (modelCap : Option ℤ) (callerMaxTokens requestedBudget maxTokens
    budget : ℤ) : Prop where
  floor : minClaudeThinkingBudget ≤ budget
  requested : budget ≤ requestedBudget
  below : budget < maxTokens
  cap : Under modelCap maxTokens
  room : min (max callerMaxTokens 1024) minResponseRoom ≤ maxTokens - budget
  intent : Under modelCap (max callerMaxTokens 1024 + minClaudeThinkingBudget) →
    maxTokens - budget = max callerMaxTokens 1024

/-- A request whose thinking has been given up. -/
structure AcceptableWithout (N : ToNumber) (capMaxOutputTokens : Option ℤ)
    (callerMaxTokens requestedBudget maxTokens : ℤ) : Prop where
  nothingFits : ∀ budget, minClaudeThinkingBudget ≤ budget → budget ≤ requestedBudget →
    ¬Under (safeCapMaxOutputTokens capMaxOutputTokens) (budget + minResponseRoom)
  unbudgeted : maxTokens =
    (fitThinkingToMaxTokens N capMaxOutputTokens callerMaxTokens none).maxTokens

/-- The request that is made of one with a budget. -/
def Acceptable (N : ToNumber) (capMaxOutputTokens : Option ℤ) (callerMaxTokens : ℤ)
    (thinking : Thinking) : Prop :=
  let fitted := fitThinkingToMaxTokens N capMaxOutputTokens callerMaxTokens (some thinking)
  match fitted.thinking with
  | some fields => AcceptableBudget (safeCapMaxOutputTokens capMaxOutputTokens) callerMaxTokens
      (budgetTokens N thinking) fitted.maxTokens (budgetTokens N fields)
  | none => AcceptableWithout N capMaxOutputTokens callerMaxTokens (budgetTokens N thinking)
      fitted.maxTokens

/-! ## What the cap leaves -/

theorem budgetTokens_setField (N : ToNumber) (thinking : Thinking) (n : ℤ) :
    budgetTokens N (setField thinking "budget_tokens" (.num n)) = n := by
  have hlookup : (setField thinking "budget_tokens" (.num n)).lookup "budget_tokens" =
      some (Json.num n) := by
    unfold setField
    split
    · next hany =>
      induction thinking with
      | nil => cases hany
      | cons f thinking ih =>
        by_cases hf : f.1 = "budget_tokens"
        · rw [map_cons, if_pos hf, lookup_cons_self]
        · rw [map_cons, if_neg hf]
          obtain ⟨name, value⟩ := f
          rw [lookup_cons, show ("budget_tokens" == name) = false from
            beq_false_of_ne (Ne.symm hf)]
          refine ih ?_
          rw [any_cons, decide_eq_false hf, Bool.false_or] at hany
          exact hany
    · next hany =>
      have hnone : thinking.lookup "budget_tokens" = none := by
        refine lookup_eq_none_iff.2 fun f hf => ?_
        have hname : "budget_tokens" ≠ f.1 := fun hname =>
          hany (any_eq_true.2 ⟨f, hf, decide_eq_true hname.symm⟩)
        exact bne_iff_ne.2 hname
      rw [lookup_append, hnone, lookup_cons_self]
      rfl
  rw [budgetTokens, hlookup, elim_some, N.num]

/-- The room shrinks only if the cap leaves too little next to what the caller asked for. -/
theorem responseRoom_cases (modelCap : Option ℤ) (callerMaxTokens requestedBudget : ℤ) :
    (responseRoom modelCap callerMaxTokens requestedBudget = max callerMaxTokens 1024 ∧
      (1024 ≤ capped modelCap (max callerMaxTokens 1024 + requestedBudget) -
        max callerMaxTokens 1024 ∨ max callerMaxTokens 1024 = 1024)) ∨
    (responseRoom modelCap callerMaxTokens requestedBudget = 1024 ∧
      capped modelCap (max callerMaxTokens 1024 + requestedBudget) -
        max callerMaxTokens 1024 < 1024) := by
  by_cases hshrinks : capped modelCap (max callerMaxTokens 1024 + requestedBudget) -
      max callerMaxTokens 1024 < 1024 ∧ max callerMaxTokens 1024 > 1024
  · exact .inr ⟨if_pos hshrinks, hshrinks.1⟩
  · refine .inl ⟨if_neg hshrinks, ?_⟩
    omega

theorem capped_le (modelCap : Option ℤ) (tokens : ℤ) : capped modelCap tokens ≤ tokens := by
  cases modelCap with
  | none => exact le_refl tokens
  | some cap => exact min_le_left tokens cap

section Fit

variable {N : ToNumber} {capMaxOutputTokens : Option ℤ} {callerMaxTokens room : ℤ}
  {thinking : Thinking}

/-- The budget that fits is sent. -/
theorem fit_sent (hbudget : 0 < budgetTokens N thinking)
    (hroom : responseRoom (safeCapMaxOutputTokens capMaxOutputTokens) callerMaxTokens
      (budgetTokens N thinking) = room)
    (hfits : 1024 ≤ capped (safeCapMaxOutputTokens capMaxOutputTokens)
      (room + budgetTokens N thinking) - room) :
    ∃ fields, fitThinkingToMaxTokens N capMaxOutputTokens callerMaxTokens (some thinking) =
        { maxTokens := capped (safeCapMaxOutputTokens capMaxOutputTokens)
            (room + budgetTokens N thinking)
          thinking := some fields } ∧
      budgetTokens N fields = capped (safeCapMaxOutputTokens capMaxOutputTokens)
        (room + budgetTokens N thinking) - room := by
  have hle := capped_le (safeCapMaxOutputTokens capMaxOutputTokens)
    (room + budgetTokens N thinking)
  unfold fitThinkingToMaxTokens
  dsimp only [elim_some]
  rw [if_neg (not_le.2 hbudget), hroom]
  rw [if_neg (show ¬_ < minClaudeThinkingBudget from not_lt.2 hfits)]
  split
  · exact ⟨_, rfl, budgetTokens_setField N thinking _⟩
  · next hless =>
    refine ⟨_, rfl, ?_⟩
    omega

/-- Thinking is given up. -/
theorem fit_disabled (hbudget : 0 < budgetTokens N thinking)
    (hroom : responseRoom (safeCapMaxOutputTokens capMaxOutputTokens) callerMaxTokens
      (budgetTokens N thinking) = room) (hfits : capped (safeCapMaxOutputTokens capMaxOutputTokens)
      (room + budgetTokens N thinking) - room < 1024) :
    fitThinkingToMaxTokens N capMaxOutputTokens callerMaxTokens (some thinking) =
      { maxTokens := (safeCapMaxOutputTokens capMaxOutputTokens).getD (max callerMaxTokens 1)
        thinking := none } := by
  unfold fitThinkingToMaxTokens
  dsimp only [elim_some]
  rw [if_neg (not_le.2 hbudget), hroom]
  exact if_pos hfits

/-- A budget fits exactly if at least 1024 are asked for and the cap leaves as much. -/
theorem fits_room_iff {modelCap : Option ℤ} {callerMaxTokens requestedBudget room : ℤ}
    (hroom : responseRoom modelCap callerMaxTokens requestedBudget = room) :
    1024 ≤ capped modelCap (room + requestedBudget) - room ↔
      1024 ≤ requestedBudget ∧ Under modelCap 2048 := by
  have hcases := responseRoom_cases modelCap callerMaxTokens requestedBudget
  rw [hroom] at hcases
  cases modelCap with
  | none =>
    have hunder : Under none 2048 := nofun
    rw [and_iff_left hunder]
    show 1024 ≤ room + requestedBudget - room ↔ _
    omega
  | some cap =>
    have hunder : Under (some cap) 2048 ↔ 2048 ≤ cap :=
      ⟨fun h => h cap rfl, fun h c hc => Option.some.inj hc ▸ h⟩
    rw [hunder]
    dsimp only [capped, elim_some] at hcases ⊢
    omega

/-- A budget that is sent is acceptable. -/
theorem acceptable_of_fits {modelCap : Option ℤ} {callerMaxTokens requestedBudget room : ℤ}
    (hroom : responseRoom modelCap callerMaxTokens requestedBudget = room)
    (hfits : 1024 ≤ capped modelCap (room + requestedBudget) - room) :
    AcceptableBudget modelCap callerMaxTokens requestedBudget
      (capped modelCap (room + requestedBudget))
      (capped modelCap (room + requestedBudget) - room) := by
  have hcases := responseRoom_cases modelCap callerMaxTokens requestedBudget
  rw [hroom] at hcases
  have hpos : 1024 ≤ room := by omega
  refine ⟨hfits, ?_, by omega, ?_, ?_, fun hintent => ?_⟩
  · have hle := capped_le modelCap (room + requestedBudget)
    omega
  · intro cap hcap
    rw [mem_def.1 hcap]
    exact min_le_right _ cap
  · unfold minResponseRoom
    omega
  · unfold minClaudeThinkingBudget at hintent
    cases modelCap with
    | none =>
      dsimp only [capped, elim_none] at hcases hfits ⊢
      omega
    | some cap =>
      have hcap := hintent cap rfl
      dsimp only [capped, elim_some] at hcases hfits ⊢
      omega

/-- **When a budgeted request is fitted as it should be**: a budget fits, or the cap is not above
what the same caller gets without a budget. -/
theorem fits_iff (N : ToNumber) (capMaxOutputTokens : Option ℤ) (callerMaxTokens : ℤ)
    (thinking : Thinking) (hbudget : 0 < budgetTokens N thinking) :
    Acceptable N capMaxOutputTokens callerMaxTokens thinking ↔
      (1024 ≤ budgetTokens N thinking ∧
          Under (safeCapMaxOutputTokens capMaxOutputTokens) 2048) ∨
        ∀ cap ∈ safeCapMaxOutputTokens capMaxOutputTokens, cap ≤ max callerMaxTokens 1 := by
  obtain ⟨room, hroom⟩ : ∃ room, responseRoom (safeCapMaxOutputTokens capMaxOutputTokens)
    callerMaxTokens (budgetTokens N thinking) = room := ⟨_, rfl⟩
  have hiff := fits_room_iff hroom
  unfold Acceptable
  by_cases hfits : 1024 ≤ capped (safeCapMaxOutputTokens capMaxOutputTokens)
    (room + budgetTokens N thinking) - room
  · obtain ⟨fields, hfit, hfields⟩ := fit_sent hbudget hroom hfits
    rw [hfit]
    dsimp only
    rw [hfields]
    exact iff_of_true (acceptable_of_fits hroom hfits) (.inl (hiff.1 hfits))
  · rw [fit_disabled hbudget hroom (not_le.1 hfits)]
    dsimp only
    rw [or_iff_right (fun h => hfits (hiff.2 h))]
    have hunbudgeted : (fitThinkingToMaxTokens N capMaxOutputTokens callerMaxTokens
        none).maxTokens = capped (safeCapMaxOutputTokens capMaxOutputTokens)
          (max callerMaxTokens 1) := rfl
    constructor
    · intro h cap hcap
      have hmax := h.unbudgeted
      rw [hunbudgeted, mem_def.1 hcap] at hmax
      exact min_eq_right_iff.1 hmax.symm
    · intro h
      refine ⟨fun budget hfloor hrequested hunder => hfits (hiff.2 ⟨hfloor.trans hrequested, ?_⟩),
        ?_⟩
      · intro cap hcap
        have hcapped := hunder cap hcap
        unfold minClaudeThinkingBudget at hfloor
        unfold minResponseRoom at hcapped
        omega
      · rw [hunbudgeted]
        cases hcap : safeCapMaxOutputTokens capMaxOutputTokens with
        | none => rfl
        | some cap => exact (min_eq_right (h cap hcap)).symm

end Fit

/-- Reads numbers only. -/
def readNumber : ToNumber where
  number
    | .num n => n
    | _ => 0
  num _ := rfl

theorem fits_iff_opus :
    Acceptable readNumber (some 128000) 32000 [("budget_tokens", .num 131072)] ↔
      (1024 ≤ budgetTokens readNumber [("budget_tokens", .num 131072)] ∧
          Under (safeCapMaxOutputTokens (some 128000)) 2048) ∨
        ∀ cap ∈ safeCapMaxOutputTokens (some 128000), cap ≤ max 32000 1 :=
  fits_iff readNumber (some 128000) 32000 [("budget_tokens", .num 131072)] (by decide)

/-- A budget below the minimum is given up, and the request asks for the whole cap. -/
theorem small_budget_sendsCap :
    ¬Acceptable readNumber (some 128000) 100 [("budget_tokens", .num 500)] := by
  intro h
  exact absurd h.unbudgeted (by decide)

end OmniRoute.ClaudeRequest
