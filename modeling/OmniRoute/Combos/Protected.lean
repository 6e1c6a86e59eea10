import OmniRoute.Combos.RuntimeUnits

/-!
# Protected units

A unit of a priority combo with `fallbackOnlyOnQuotaExhaustion` is passed over only when its quota
is exhausted. A nested run says on its response whether all its failures were quota exhaustions, and
that is what the enclosing run reads.

**Main result (`protected_rule`).** A later unit is run only after the protected one was, and after
all its failures were classified as quota exhaustions. A failed run is classified as a quota
exhaustion exactly if it observed a failure and all it observed were; so the rule holds of a
reference to another combo too.
-/

namespace OmniRoute.RuntimeUnits

open List Observed

/-! ## Steps and classifications -/

def Step.index : Step → ℕ
  | .attempt index => index
  | .failed index _ _ => index

def Step.verdict : Step → Option Bool
  | .attempt _ => none
  | .failed _ quotaExhausted _ => some quotaExhausted

/-- Whether the failures that were observed are quota exhaustions. -/
def failures (steps : List Step) : List Bool := steps.filterMap Step.verdict

/-- A failure was observed, and all that were observed are quota exhaustions. -/
def QuotaExhausted (steps : List Step) : Prop := failures steps ≠ [] ∧ ∀ q ∈ failures steps, q = true

/-- The response of a run that failed says whether its quota is exhausted; one without a failure
is a plain 503. -/
def Classified (response : Response) (steps : List Step) : Prop :=
  failures steps ≠ [] ∧ response.exhausted = some ((failures steps).all id) ∨
    failures steps = [] ∧ response.exhausted = none ∧ response.status = 503

variable {response : Response}

theorem Classified.exhausted_iff {steps : List Step}
    (h : Classified response steps) : response.exhausted = some true ↔ QuotaExhausted steps := by
  rcases h with ⟨hne, heq⟩ | ⟨hnil, heq, -⟩
  · rw [heq, Option.some.injEq, all_eq_true]
    exact ⟨fun hall => ⟨hne, hall⟩, fun hq => hq.2⟩
  · rw [heq]
    exact iff_of_false (by simp) fun hq => hq.1 hnil

theorem Classified.isQuotaExhaustion_iff {steps : List Step}
    (h : Classified response steps) (world : World) (provider model : Option String) :
    isQuotaExhaustionResponse world response provider model = true ↔ QuotaExhausted steps := by
  rcases h with ⟨hne, heq⟩ | ⟨hnil, heq, hstatus⟩
  · rw [isQuotaExhaustionResponse, heq]
    dsimp only
    rw [all_eq_true]
    exact ⟨fun hall => ⟨hne, hall⟩, fun hq => hq.2⟩
  · rw [isQuotaExhaustionResponse, heq]
    dsimp only
    rw [hstatus]
    exact iff_of_false (by simp) fun hq => hq.1 hnil

/-- The failures of nested runs are what these were classified as. -/
def NestedRight (origin : List Step → Prop) (steps : List Step) : Prop :=
  ∀ index q nested, .failed index q (some nested) ∈ steps →
    (q = true ↔ QuotaExhausted nested) ∧ origin nested

theorem failures_append (steps steps' : List Step) :
    failures (steps ++ steps') = failures steps ++ failures steps' :=
  filterMap_append

/-! ## What the loops keep -/

/-- The variables record the failures. -/
structure Observed.Tracked (origin : List Step → Prop) (l : Observed) : Prop where
  observed : l.observedFailure = decide (failures l.steps ≠ [])
  all : l.allObservedFailuresQuota = (failures l.steps).all id
  failed : ∀ response, l.lastResponse = some response → response.ok = false
  last : l.observedFailure = false → l.lastResponse = none
  nested : NestedRight origin l.steps

/-- Only a reference has nested steps, and its response is classified. -/
def UnitResult.Faithful (origin : List Step → Prop) (unit : ComboUnit) (result : UnitResult) :
    Prop :=
  ∀ nested, result.nested = some nested → (∃ target, unit = .comboRef target) ∧ origin nested ∧
    (result.response.ok = false → Classified result.response nested)

theorem tracked_fresh (origin : List Step → Prop) : fresh.Tracked origin where
  observed := rfl
  all := rfl
  failed := by
    rintro response ⟨⟩
  last := fun _ => rfl
  nested := fun _ _ _ hmem => absurd hmem not_mem_nil

section Observe

variable {origin : List Step → Prop} {l : Observed} {world : World} {unit : ComboUnit} {index : ℕ}
  {response : Response} {nested : Option (List Step)}

section

variable (h : l.Tracked origin)
include h

theorem Observed.Tracked.observe (hfailed : response.ok = false)
    (hnested : ∀ steps, nested = some steps → origin steps ∧ Classified response steps) :
    (l.observe world unit index response nested).Tracked origin := by
  have hfailures : failures (l.observe world unit index response nested).steps =
      failures l.steps ++
        [isQuotaExhaustionResponse world response unit.provider unit.modelStr] :=
    failures_append _ _
  refine ⟨?_, ?_, ?_, ?_, ?_⟩
  · rw [hfailures]
    simp [Observed.observe]
  · rw [hfailures]
    simp [Observed.observe, h.all]
  · rintro r ⟨⟩
    exact hfailed
  · rintro ⟨⟩
  · intro i q steps hmem
    rcases mem_append.1 hmem with hmem | hmem
    · exact h.nested i q steps hmem
    · obtain ⟨rfl, rfl, hsome⟩ := Step.failed.inj (mem_singleton.1 hmem)
      obtain ⟨horigin, hclassified⟩ := hnested steps hsome.symm
      exact ⟨hclassified.isQuotaExhaustion_iff world _ _, horigin⟩

theorem Observed.Tracked.distrust (isProtected quotaExhausted : Bool) :
    (l.distrust isProtected unit quotaExhausted).Tracked origin := by
  rw [Observed.distrust]
  split
  · exact ⟨h.observed, h.all, h.failed, h.last, h.nested⟩
  · exact h

theorem Observed.Tracked.attempt (index : ℕ) :
    Observed.Tracked origin { l with steps := l.steps ++ [.attempt index] } := by
  have hfailures : failures (l.steps ++ [.attempt index]) = failures l.steps := by
    rw [failures_append]
    exact append_nil _
  refine ⟨?_, ?_, h.failed, h.last, ?_⟩
  · dsimp only
    rw [hfailures]
    exact h.observed
  · dsimp only
    rw [hfailures]
    exact h.all
  · intro i q steps hmem
    rcases mem_append.1 hmem with hmem | hmem
    · exact h.nested i q steps hmem
    · cases mem_singleton.1 hmem

/-- The classification that is attached is that of the failures. -/
theorem Observed.Tracked.classified
    (hplain : l.observedFailure = false → response.exhausted = none ∧ response.status = 503) :
    Classified (l.finalFailure response) l.steps := by
  rw [finalFailure]
  by_cases hobserved : l.observedFailure = true
  · rw [if_pos hobserved]
    have hne : failures l.steps ≠ [] := by
      rw [h.observed] at hobserved
      exact of_decide_eq_true hobserved
    exact Or.inl ⟨hne, congrArg some h.all⟩
  · rw [if_neg hobserved]
    have hunobserved : l.observedFailure = false := Bool.eq_false_of_not_eq_true hobserved
    have hnil : failures l.steps = [] := by
      rw [h.observed] at hunobserved
      exact not_not.1 (of_decide_eq_false hunobserved)
    exact Or.inr ⟨hnil, hplain hunobserved⟩

end

end Observe

/-! ## One unit -/

namespace Loop

/-- The variables after an attempt was started. -/
def tried (c : Loop) (l : Observed) : Observed := { l with steps := l.steps ++ [.attempt c.index] }

/-- The variables after an attempt failed. -/
def held (c : Loop) (l : Observed) (failed : Response) (nested : Option (List Step)) : Observed :=
  ((c.tried l).observe c.world c.unit c.index failed nested).distrust c.isProtected c.unit
    (isQuotaExhaustionResponse c.world failed c.unit.provider c.unit.modelStr)

theorem ok_of_failure_none {c : Loop} {s : Run}
    (h : c.failure s response = none) : response.ok = true := by
  rw [failure] at h
  split at h
  · assumption
  · cases h

theorem failed_of_failure_some {c : Loop} {s : Run} {response failed : Response}
    (h : c.failure s response = some failed) : failed.ok = false ∧
      ((∃ target, c.unit = .comboRef target) → failed = response) := by
  rw [failure] at h
  split at h
  · split at h
    · cases h
    · next target hunit =>
      split at h
      · cases h
      · cases h
        refine ⟨by decide, ?_⟩
        rintro ⟨other, hother⟩
        rw [hunit] at hother
        cases hother
  · next hok =>
    cases h
    exact ⟨Bool.eq_false_of_not_eq_true hok, fun _ => rfl⟩

/-- What holds of a result: of the variables, or of the response that is returned. -/
def Settled (I : Observed → Prop) (R : Observed → Response → Prop) (result : LoopResult) : Prop :=
  match result.returned with
  | none => I result.observed
  | some response => R result.observed response

/-- A retry loop keeps what each failed attempt keeps. -/
theorem attempts_rule {c : Loop} {I : Observed → Prop} {R : Observed → Response → Prop}
    (hstop : ∀ l response, I l → response.ok = false →
      R (l.observe c.world c.unit c.index response none)
        ((l.observe c.world c.unit c.index response none).finalFailure response))
    (hdone : ∀ l s, I l → c.failure (c.execute s).run (c.execute s).response = none →
      R { c.tried l with lastResponse := some (c.execute s).response } (c.execute s).response)
    (hfail : ∀ l s failed, I l → c.failure (c.execute s).run (c.execute s).response = some failed →
      I (c.held l failed (c.execute s).nested))
    (fuel retry : ℕ) (s : Run) (l : Observed) (h : I l) :
    Settled I R (c.attempts fuel retry s l) := by
  induction fuel generalizing retry s l with
  | zero => exact h
  | succ fuel ih =>
    rw [attempts]
    split
    · exact h
    split
    · exact hstop l _ h (by decide)
    dsimp only
    split
    · exact hstop l _ h (by decide)
    split
    · next hnone => exact hdone l _ h hnone
    next failed hsome =>
    have hheld := hfail l _ failed h hsome
    split
    · exact ih _ _ _ hheld
    · exact hheld

/-- The loop of one unit, from the steps of the units before it. -/
structure Keeps (c : Loop) (origin : List Step → Prop) (base : List Step) (l : Observed) : Prop where
  tracked : l.Tracked origin
  steps : ∃ new, l.steps = base ++ new ∧ (∀ step ∈ new, step.index = c.index) ∧
    (c.isProtected = true → (l.trustOf c.unit).allObservedFailuresQuota = true →
      ∀ q ∈ failures new, q = true)

/-- A response that ends the run. -/
structure Returns (c : Loop) (origin : List Step → Prop) (base : List Step) (l : Observed)
    (response : Response) : Prop where
  classified : response.ok = false → Classified response l.steps
  nested : NestedRight origin l.steps
  steps : ∃ new, l.steps = base ++ new ∧ ∀ step ∈ new, step.index = c.index

/-- The unit was tried, and what is held against it is recorded. -/
structure Tried (c : Loop) (l : Observed) : Prop where
  attempt : .attempt c.index ∈ l.steps
  last : l.lastResponse ≠ none
  trust : c.isProtected = true → (l.trustOf c.unit).observedFailure = true

section Unit

variable {c : Loop} {origin : List Step → Prop} {base : List Step} {l : Observed}

theorem trustOf_distrust (isProtected quotaExhausted : Bool) (unit : ComboUnit) :
    (l.distrust isProtected unit quotaExhausted).trustOf unit =
      if isProtected then ⟨true, (l.trustOf unit).allObservedFailuresQuota && quotaExhausted⟩
      else l.trustOf unit := by
  rw [distrust]
  split
  · simp [trustOf]
  · rfl

theorem steps_distrust (isProtected quotaExhausted : Bool) (unit : ComboUnit) :
    (l.distrust isProtected unit quotaExhausted).steps = l.steps := by
  rw [distrust]
  split <;> rfl

theorem Keeps.held (h : Keeps c origin base l)
    (hexecute : ∀ s, (c.execute s).Faithful origin c.unit) {s : Run} {failed : Response}
    (hfailed : c.failure (c.execute s).run (c.execute s).response = some failed) :
    Keeps c origin base (c.held l failed (c.execute s).nested) := by
  obtain ⟨hok, href⟩ := failed_of_failure_some hfailed
  obtain ⟨new, hnew, hindex, htrust⟩ := h.steps
  refine ⟨((h.tracked.attempt c.index).observe hok ?_).distrust _ _, ?_⟩
  · intro nested hnested
    obtain ⟨htarget, horigin, hclassified⟩ := hexecute s nested hnested
    obtain rfl := href htarget
    exact ⟨horigin, hclassified hok⟩
  · refine ⟨new ++ [.attempt c.index, .failed c.index
      (isQuotaExhaustionResponse c.world failed c.unit.provider c.unit.modelStr)
      (c.execute s).nested], ?_, ?_, ?_⟩
    · rw [Loop.held, steps_distrust, observe, tried, hnew]
      simp
    · intro step hstep
      rcases mem_append.1 hstep with hstep | hstep
      · exact hindex step hstep
      · simp only [mem_cons, not_mem_nil, or_false] at hstep
        rcases hstep with rfl | rfl <;> rfl
    · intro hprotected hall q hq
      rw [Loop.held, trustOf_distrust, if_pos hprotected] at hall
      obtain ⟨hbefore, hnow⟩ := Bool.and_eq_true_iff.1 hall
      rw [failures_append] at hq
      rcases mem_append.1 hq with hq | hq
      · exact htrust hprotected hbefore q hq
      · exact (mem_singleton.1 hq).trans hnow

theorem Keeps.stop (h : Keeps c origin base l) (hok : response.ok = false) :
    Returns c origin base (l.observe c.world c.unit c.index response none)
      ((l.observe c.world c.unit c.index response none).finalFailure response) := by
  obtain ⟨new, hnew, hindex, -⟩ := h.steps
  have htracked : (l.observe c.world c.unit c.index response none).Tracked origin :=
    h.tracked.observe hok fun _ hnone => by cases hnone
  have hclassified : Classified ((l.observe c.world c.unit c.index response none).finalFailure
      response) (l.observe c.world c.unit c.index response none).steps := by
    refine htracked.classified ?_
    rintro ⟨⟩
  refine ⟨fun _ => hclassified, htracked.nested,
    new ++ [.failed c.index (isQuotaExhaustionResponse c.world response c.unit.provider
      c.unit.modelStr) none], ?_, ?_⟩
  · rw [observe, hnew]
    simp
  · intro step hstep
    rcases mem_append.1 hstep with hstep | hstep
    · exact hindex step hstep
    · rw [mem_singleton.1 hstep]
      rfl

theorem Keeps.done (h : Keeps c origin base l) (hok : response.ok = true) :
    Returns c origin base { c.tried l with lastResponse := some response } response := by
  obtain ⟨new, hnew, hindex, -⟩ := h.steps
  refine ⟨fun hfailed => absurd hok (by simp [hfailed]), (h.tracked.attempt c.index).nested,
    new ++ [.attempt c.index], ?_, ?_⟩
  · rw [tried, hnew]
    simp
  · intro step hstep
    rcases mem_append.1 hstep with hstep | hstep
    · exact hindex step hstep
    · rw [mem_singleton.1 hstep]
      rfl

theorem tried_held {failed : Response} {nested : Option (List Step)} :
    Tried c (c.held l failed nested) := by
  refine ⟨?_, ?_, ?_⟩
  · rw [Loop.held, steps_distrust, observe, tried]
    simp
  · rw [Loop.held, distrust]
    split <;> simp [observe]
  · intro hprotected
    rw [Loop.held, trustOf_distrust, if_pos hprotected]

/-- With fuel, the first attempt of a unit is made. -/
theorem attempts_tried (fuel : ℕ) (s : Run) (l : Observed) :
    Settled c.Tried (fun _ _ => True) (c.attempts (fuel + 1) 0 s l) := by
  have hrest := attempts_rule (c := c) (I := c.Tried) (R := fun _ _ => True)
    (fun _ _ _ _ => trivial) (fun _ _ _ _ => trivial) (fun _ _ _ _ _ => tried_held)
  rw [attempts]
  split
  · next hnone => simp at hnone
  split
  · trivial
  dsimp only
  split
  · trivial
  split
  · trivial
  split
  · exact hrest _ _ _ _ tried_held
  · exact tried_held

theorem keeps_refl (h : l.Tracked origin) : Keeps c origin l.steps l := by
  refine ⟨h, [], (append_nil _).symm, ?_, ?_⟩
  · exact fun _ hstep => absurd hstep not_mem_nil
  · exact fun _ _ _ hq => absurd hq not_mem_nil

/-- The failures of a unit that is passed over, as long as it is not a protected one. -/
theorem keeps_capped (h : l.Tracked origin) (hopen : c.isProtected = false)
    (hok : response.ok = false) :
    Keeps c origin l.steps (l.observe c.world c.unit c.index response none) := by
  refine ⟨h.observe hok ?_, [.failed c.index
    (isQuotaExhaustionResponse c.world response c.unit.provider c.unit.modelStr) none], rfl, ?_, ?_⟩
  · rintro _ ⟨⟩
  · intro step hstep
    rw [mem_singleton.1 hstep]
    rfl
  · intro hprotected
    rw [hopen] at hprotected
    cases hprotected

theorem Keeps.returned (h : Keeps c origin base l) (hobserved : l.lastResponse = some response) :
    Returns c origin base l (l.finalFailure response) := by
  obtain ⟨new, hnew, hindex, -⟩ := h.steps
  refine ⟨fun _ => h.tracked.classified fun hno => ?_, h.tracked.nested, new, hnew, hindex⟩
  rw [h.tracked.last hno] at hobserved
  cases hobserved

/-- What one unit leaves: a response to return, or the variables with the unit passed over. -/
theorem runUnit_settled (hexecute : ∀ s, (c.execute s).Faithful origin c.unit)
    (hl : l.Tracked origin) (s : Run) :
    Settled
      (fun l' => Keeps c origin l.steps l' ∧ (c.isProtected = true → .attempt c.index ∈ l'.steps ∧
        (l'.trustOf c.unit).allObservedFailuresQuota = true))
      (Returns c origin l.steps) (c.runUnit s l) := by
  by_cases hcap : c.world.atCap s.log c.unit = true
  · rw [runUnit, if_pos hcap]
    dsimp only
    by_cases hprotected : c.isProtected = true
    · rw [if_pos hprotected]
      exact (keeps_refl hl).stop (by rfl)
    · rw [if_neg hprotected]
      have hopen : c.isProtected = false := Bool.eq_false_of_not_eq_true hprotected
      exact ⟨keeps_capped hl hopen (by rfl), fun h => absurd h hprotected⟩
  · rw [runUnit, if_neg hcap]
    have hsettled := attempts_rule (I := Keeps c origin l.steps) (R := Returns c origin l.steps)
      (fun _ _ h hok => h.stop hok) (fun _ _ h hnone => h.done (ok_of_failure_none hnone))
      (fun _ _ _ h hsome => h.held hexecute hsome) (c.limit + 1) 0 s l (keeps_refl hl)
    have htried := attempts_tried (c := c) c.limit s l
    generalize c.attempts (c.limit + 1) 0 s l = result at hsettled htried
    obtain ⟨run, observed, returned⟩ := result
    cases returned with
    | some response => exact hsettled
    | none =>
      have hkeeps : Keeps c origin l.steps observed := hsettled
      have hfirst : Tried c observed := htried
      obtain ⟨lastResponse, hlast⟩ := Option.ne_none_iff_exists'.1 hfirst.last
      simp only [hlast]
      by_cases hprotected : c.isProtected = true
      · have htrust := hfirst.trust hprotected
        by_cases hall : (observed.trustOf c.unit).allObservedFailuresQuota = true
        · simp only [hprotected, htrust, hall]
          exact ⟨hkeeps, fun _ => ⟨hfirst.attempt, hall⟩⟩
        · have hfalse := Bool.eq_false_of_not_eq_true hall
          simp only [hprotected, htrust, hfalse]
          exact hkeeps.returned hlast
      · have hopen := Bool.eq_false_of_not_eq_true hprotected
        simp only [hopen]
        exact ⟨hkeeps, fun h => by cases h⟩

end Unit

end Loop

/-! ## All units -/

/-- What the variables say after the units before an index. -/
structure Passed (origin : List Step → Prop) (guarded : ComboUnit → Bool)
    (ordered : List ComboUnit) (n : ℕ) (l : Observed) : Prop where
  tracked : l.Tracked origin
  before : ∀ step ∈ l.steps, step.index < n
  exhausted : ∀ i unit, i < n → ordered[i]? = some unit → guarded unit = true →
    .attempt i ∈ l.steps ∧ ∀ q nested, .failed i q nested ∈ l.steps → q = true

/-- The rule for protected units, the classification of a failed run, and that of its nested
runs. -/
structure Right (origin : List Step → Prop) (guarded : ComboUnit → Bool)
    (ordered : List ComboUnit) (outcome : Outcome) : Prop where
  rule : ∀ i j unit, i < j → ordered[i]? = some unit → guarded unit = true →
    .attempt j ∈ outcome.steps → .attempt i ∈ outcome.steps ∧
      ∀ q nested, .failed i q nested ∈ outcome.steps → q = true
  classified : outcome.response.ok = false → Classified outcome.response outcome.steps
  nested : NestedRight origin outcome.steps

section Units

variable {origin : List Step → Prop} {guarded : ComboUnit → Bool} {ordered : List ComboUnit}
  {loopOf : ComboUnit → ℕ → Loop}

/-- The next unit is passed over. -/
theorem Passed.next {n : ℕ} {l l' : Observed} {c : Loop} (h : Passed origin guarded ordered n l)
    {unit : ComboUnit} (hunit : ordered[n]? = some unit) (hindex : c.index = n)
    (hguarded : c.isProtected = guarded unit) (hkeeps : c.Keeps origin l.steps l')
    (hprotected : c.isProtected = true → .attempt c.index ∈ l'.steps ∧
      (l'.trustOf c.unit).allObservedFailuresQuota = true) :
    Passed origin guarded ordered (n + 1) l' := by
  obtain ⟨new, hnew, hsteps, htrust⟩ := hkeeps.steps
  refine ⟨hkeeps.tracked, ?_, ?_⟩
  · intro step hstep
    rw [hnew] at hstep
    rcases mem_append.1 hstep with hstep | hstep
    · exact (h.before step hstep).trans (Nat.lt_succ_self n)
    · rw [hsteps step hstep, hindex]
      exact Nat.lt_succ_self n
  · intro i other hi hother hguard
    rcases Nat.lt_succ_iff_lt_or_eq.1 hi with hlt | rfl
    · obtain ⟨hattempt, hfailed⟩ := h.exhausted i other hlt hother hguard
      rw [hnew]
      refine ⟨mem_append_left _ hattempt, fun q nested hmem => ?_⟩
      rcases mem_append.1 hmem with hmem | hmem
      · exact hfailed q nested hmem
      · have hat := (hsteps _ hmem).trans hindex
        exact absurd hat hlt.ne
    · obtain rfl := Option.some.inj (hunit.symm.trans hother)
      obtain ⟨hattempt, hall⟩ := hprotected (hguarded.trans hguard)
      rw [hindex] at hattempt
      refine ⟨hattempt, fun q nested hmem => ?_⟩
      rw [hnew] at hmem
      rcases mem_append.1 hmem with hmem | hmem
      · exact absurd (h.before _ hmem) (lt_irrefl i)
      · exact htrust (hguarded.trans hguard) hall q (mem_filterMap.2 ⟨_, hmem, rfl⟩)

/-- A unit returns a response. -/
theorem Passed.returned {n : ℕ} {l l' : Observed} {c : Loop}
    (h : Passed origin guarded ordered n l) (hindex : c.index = n)
    (hreturns : c.Returns origin l.steps l' response) (s : Run) (unit : Option ComboUnit) :
    Right origin guarded ordered ⟨s, response, unit, l'.steps⟩ := by
  obtain ⟨new, hnew, hsteps⟩ := hreturns.steps
  refine ⟨?_, hreturns.classified, hreturns.nested⟩
  have hbound : ∀ step ∈ l'.steps, step.index ≤ n := by
    intro step hstep
    rw [hnew] at hstep
    rcases mem_append.1 hstep with hstep | hstep
    · exact (h.before step hstep).le
    · exact ((hsteps step hstep).trans hindex).le
  intro i j other hij hother hguard hattempt
  have hi : i < n := hij.trans_le (hbound _ hattempt)
  obtain ⟨hattempt', hfailed⟩ := h.exhausted i other hi hother hguard
  refine ⟨?_, fun q nested hmem => ?_⟩
  · rw [show l'.steps = l.steps ++ new from hnew]
    exact mem_append_left _ hattempt'
  · rw [show l'.steps = l.steps ++ new from hnew] at hmem
    rcases mem_append.1 hmem with hmem | hmem
    · exact hfailed q nested hmem
    · have hat := (hsteps _ hmem).trans hindex
      exact absurd hat hi.ne

/-- All units have been passed over. -/
theorem Passed.over {n : ℕ} {l : Observed} (h : Passed origin guarded ordered n l) (s : Run)
    (message : String) :
    Right origin guarded ordered
      ⟨s, l.finalFailure (l.lastResponse.getD (errorResponse 503 message)), none, l.steps⟩ := by
  refine ⟨?_, fun _ => h.tracked.classified fun hno => ?_, h.tracked.nested⟩
  · intro i j unit hij hunit hguarded hattempt
    have hj : j < n := h.before _ hattempt
    exact h.exhausted i unit (hij.trans hj) hunit hguarded
  · rw [h.tracked.last hno]
    exact ⟨rfl, rfl⟩

theorem runUnits_right (hloop : ∀ unit index, (loopOf unit index).unit = unit ∧
      (loopOf unit index).index = index ∧ (loopOf unit index).isProtected = guarded unit)
    (hexecute : ∀ unit index s, ((loopOf unit index).execute s).Faithful origin unit)
    (units : List ComboUnit) {n : ℕ} (hunits : ordered.drop n = units) (s : Run) {l : Observed}
    (h : Passed origin guarded ordered n l) :
    Right origin guarded ordered (runUnits loopOf units n s l) := by
  induction units generalizing n s l with
  | nil => exact h.over s _
  | cons unit units ih =>
    obtain ⟨hunit, hindex, hguarded⟩ := hloop unit n
    have hat : ordered[n]? = some unit := by
      rw [← head?_drop, hunits]
      rfl
    have hrest : ordered.drop (n + 1) = units := by
      rw [← tail_drop, hunits]
      rfl
    have hfaithful : ∀ t, ((loopOf unit n).execute t).Faithful origin (loopOf unit n).unit := by
      rw [hunit]
      exact hexecute unit n
    have hsettled := Loop.runUnit_settled hfaithful h.tracked s
    rw [runUnits]
    generalize (loopOf unit n).runUnit s l = result at hsettled
    obtain ⟨run, observed, returned⟩ := result
    cases returned with
    | some response => exact h.returned hindex hsettled run (some unit)
    | none => exact ih hrest run (h.next hat hindex hguarded hsettled.1 hsettled.2)

end Units

/-! ## All levels -/

/-- The steps are those of a call. -/
def IsRun (world : World) (combos : List Combo) (steps : List Step) : Prop :=
  ∃ fuel nesting call s, steps = (executeRuntimeUnitCombo world combos fuel nesting call s).steps

theorem executeRuntimeUnitCombo_right (world : World) (combos : List Combo) (fuel : ℕ)
    (nesting : Nesting) (call : UnitCombo) (s : Run) :
    Right (IsRun world combos) call.protects (call.ordered world s)
      (executeRuntimeUnitCombo world combos fuel nesting call s) := by
  induction fuel generalizing nesting call s with
  | zero =>
    refine ⟨fun _ _ _ _ _ _ hmem => absurd hmem not_mem_nil, fun _ => Or.inr ⟨rfl, rfl, rfl⟩,
      fun _ _ _ hmem => absurd hmem not_mem_nil⟩
  | succ fuel ih =>
    rw [executeRuntimeUnitCombo]
    refine runUnits_right ?_ ?_ _ (drop_zero ..) _ ?_
    · exact fun _ _ => ⟨rfl, rfl, rfl⟩
    · intro unit index t nested hnested
      dsimp only [executeRuntimeUnit] at hnested ⊢
      cases unit with
      | model target =>
        dsimp only [executeModelUnit] at hnested
        split at hnested <;> cases hnested
      | comboRef target =>
        refine ⟨⟨target, rfl⟩, ?_⟩
        dsimp only at hnested ⊢
        split at hnested
        · cases hnested
        next childCombo hfound =>
        split at hnested
        · cases hnested
        next child hchild =>
        cases hnested
        exact ⟨⟨fuel, child, childCombo.call world t, t, rfl⟩, (ih child _ t).classified⟩
    · refine ⟨tracked_fresh _, fun _ hmem => absurd hmem not_mem_nil, ?_⟩
      exact fun i _ hi => absurd hi (Nat.not_lt_zero i)

/-- Other strategies run the units as they are listed. -/
theorem orderUnitsForStrategy_listed (draw : ℕ → ℚ) (strategy : ComboStrategy)
    (units : List ComboUnit) (hrandom : strategy ≠ .random) (hweighted : strategy ≠ .weighted) :
    orderUnitsForStrategy draw strategy units = units := by
  cases strategy with
  | random => exact absurd rfl hrandom
  | weighted => exact absurd rfl hweighted
  | _ => rfl

/-- In a priority combo a unit after a protected one is run only if the protected one was, and
every failure of it was classified as a quota exhaustion. The units are run as listed, unless the
call draws their order. A failed run is classified as a quota exhaustion exactly if it observed a
failure and all it observed were; and a failure of a nested run, which is again such a run, is what
that run observed. -/
theorem protected_rule (world : World) (combos : List Combo) (fuel : ℕ) (nesting : Nesting)
    (call : UnitCombo) (s : Run) :
    (call.effectiveComboStrategy = .priority → ∀ i j unit, i < j →
      (call.ordered world s)[i]? = some unit → unit.fallbackOnlyOnQuotaExhaustion = true →
      .attempt j ∈ (executeRuntimeUnitCombo world combos fuel nesting call s).steps →
      .attempt i ∈ (executeRuntimeUnitCombo world combos fuel nesting call s).steps ∧
      ∀ q nested, .failed i q nested ∈
        (executeRuntimeUnitCombo world combos fuel nesting call s).steps → q = true) ∧
    (call.strategy ≠ .random → call.strategy ≠ .weighted → call.ordered world s = call.units) ∧
    ((executeRuntimeUnitCombo world combos fuel nesting call s).response.ok = false →
      ((executeRuntimeUnitCombo world combos fuel nesting call s).response.exhausted = some true ↔
        QuotaExhausted (executeRuntimeUnitCombo world combos fuel nesting call s).steps)) ∧
    ∀ i q nested, .failed i q (some nested) ∈
        (executeRuntimeUnitCombo world combos fuel nesting call s).steps →
      (q = true ↔ QuotaExhausted nested) ∧ IsRun world combos nested := by
  have hright := executeRuntimeUnitCombo_right world combos fuel nesting call s
  refine ⟨?_, orderUnitsForStrategy_listed _ _ _,
    fun hfailed => (hright.classified hfailed).exhausted_iff, hright.nested⟩
  intro hpriority i j unit hij hunit hfallback
  refine hright.rule i j unit hij hunit ?_
  rw [UnitCombo.protects, hpriority, hfallback]
  rfl

end OmniRoute.RuntimeUnits
