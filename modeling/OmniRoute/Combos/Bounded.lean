import OmniRoute.Combos.RuntimeUnits

/-!
# Nested combos are bounded

Units, retries and nesting multiply, and combos may refer to each other in cycles. What bounds a
request is its attempt budget, which all levels share, and the chain of the combos that are being
run, which is copied at each level.

**Main result (`runRootCombo_within`).** Whatever the surroundings answer, a request sends at most
`limit` requests to models, runs no combo within itself nor more than `maxDepth` levels deep, and
once an attempt was over the budget it runs no other unit. It never runs out of fuel, so it ends.
-/

namespace OmniRoute.RuntimeUnits

open List

/-! ## What happens in a run -/

/-- A unit is run, or a model is sent a request. -/
def Event.Works : Event → Prop
  | .attempt _ | .dispatch _ => True
  | _ => False

def Event.isAttempt : Event → Bool
  | .attempt _ => true
  | _ => false

def Event.isDispatch : Event → Bool
  | .dispatch _ => true
  | _ => false

/-- How many units were run. -/
def Run.attempts (s : Run) : ℕ := s.log.countP Event.isAttempt

/-- How many requests were sent to models. -/
def Run.dispatches (s : Run) : ℕ := s.log.countP Event.isDispatch

@[simp] theorem Run.note_count (s : Run) (e : Event) : (s.note e).count = s.count := rfl

theorem Run.attempts_note (s : Run) (e : Event) :
    (s.note e).attempts = s.attempts + e.isAttempt.toNat := by
  rw [Run.attempts, Run.note, countP_append, Run.attempts]
  cases h : e.isAttempt <;> simp [h]

theorem Run.dispatches_note (s : Run) (e : Event) :
    (s.note e).dispatches = s.dispatches + e.isDispatch.toNat := by
  rw [Run.dispatches, Run.note, countP_append, Run.dispatches]
  cases h : e.isDispatch <;> simp [h]

theorem Run.mem_note {s : Run} {e f : Event} : f ∈ (s.note e).log ↔ f ∈ s.log ∨ f = e := by
  simp [Run.note]

/-- What holds of a run within its bounds. -/
structure Within (limit maxDepth : ℕ) (s : Run) : Prop where
  attempts_le : s.attempts ≤ limit
  attempts_count : s.attempts ≤ s.count
  dispatches_le : s.dispatches ≤ s.attempts
  chains : ∀ visited, .enter visited ∈ s.log → visited.Nodup ∧ visited.length ≤ maxDepth + 1
  exceeded : .exceeded ∈ s.log → limit < s.count
  stopped : s.log.Pairwise fun e f => e = .exceeded → ¬ f.Works
  unstalled : .stalled ∉ s.log

/-- An attempt has been counted for a request that is still to be sent. -/
structure Ready (limit maxDepth : ℕ) (s : Run) : Prop where
  within : Within limit maxDepth s
  pending : s.dispatches < s.attempts
  open_budget : .exceeded ∉ s.log

section Notes

variable {limit maxDepth : ℕ} {s : Run}

section

variable (h : Within limit maxDepth s)
include h

/-- An event that is no work. -/
theorem Within.note {e : Event} (hidle : ¬ e.Works)
    (hchain : ∀ visited, e = .enter visited → visited.Nodup ∧ visited.length ≤ maxDepth + 1)
    (hexceeded : e = .exceeded → limit < s.count) (hstalled : e ≠ .stalled) :
    Within limit maxDepth (s.note e) := by
  have hattempt : e.isAttempt = false := by
    cases e <;> first | rfl | exact absurd trivial hidle
  have hdispatch : e.isDispatch = false := by
    cases e <;> first | rfl | exact absurd trivial hidle
  refine ⟨?_, ?_, ?_, ?_, ?_, ?_, ?_⟩
  · rw [Run.attempts_note, hattempt]
    exact h.attempts_le
  · rw [Run.attempts_note, hattempt]
    exact h.attempts_count
  · rw [Run.attempts_note, Run.dispatches_note, hattempt, hdispatch]
    exact h.dispatches_le
  · intro visited hmem
    rcases Run.mem_note.1 hmem with hmem | heq
    · exact h.chains visited hmem
    · exact hchain visited heq.symm
  · intro hmem
    rcases Run.mem_note.1 hmem with hmem | heq
    · exact h.exceeded hmem
    · exact hexceeded heq.symm
  · refine pairwise_append.2 ⟨h.stopped, pairwise_singleton _ _, ?_⟩
    intro f _ g hg _
    rw [mem_singleton.1 hg]
    exact hidle
  · intro hmem
    rcases Run.mem_note.1 hmem with hmem | heq
    · exact h.unstalled hmem
    · exact hstalled heq.symm

/-- Work is noted as long as the budget has not been exceeded. -/
theorem stopped_note (hopen : .exceeded ∉ s.log) (e : Event) :
    (s.note e).log.Pairwise fun e f => e = .exceeded → ¬ f.Works := by
  refine pairwise_append.2 ⟨h.stopped, pairwise_singleton _ _, ?_⟩
  intro f hf g _ heq
  exact absurd (heq ▸ hf) hopen

theorem Within.attempt (hcount : s.count + 1 ≤ limit) (unit : ComboUnit) :
    Ready limit maxDepth (({ s with count := s.count + 1 } : Run).note (.attempt unit)) := by
  have hopen : .exceeded ∉ s.log := fun hmem => by
    have hover := h.exceeded hmem
    omega
  have hattempts : (({ s with count := s.count + 1 } : Run).note (.attempt unit)).attempts =
      s.attempts + 1 := Run.attempts_note _ _
  have hdispatches : (({ s with count := s.count + 1 } : Run).note (.attempt unit)).dispatches =
      s.dispatches := Run.dispatches_note _ _
  have hle := h.attempts_count
  have hdispatched := h.dispatches_le
  refine ⟨⟨?_, ?_, ?_, ?_, ?_, stopped_note h hopen (.attempt unit), ?_⟩, ?_, ?_⟩
  · omega
  · rw [hattempts, Run.note_count]
    exact Nat.succ_le_succ hle
  · omega
  · intro visited hmem
    rcases Run.mem_note.1 hmem with hmem | heq
    · exact h.chains visited hmem
    · cases heq
  · intro hmem
    rcases Run.mem_note.1 hmem with hmem | heq
    · exact absurd hmem hopen
    · cases heq
  · intro hmem
    rcases Run.mem_note.1 hmem with hmem | heq
    · exact h.unstalled hmem
    · cases heq
  · omega
  · intro hmem
    rcases Run.mem_note.1 hmem with hmem | heq
    · exact hopen hmem
    · cases heq

omit h in
theorem Ready.dispatch (h : Ready limit maxDepth s) (modelStr : String) :
    Within limit maxDepth (s.note (.dispatch modelStr)) := by
  have hattempts : (s.note (.dispatch modelStr)).attempts = s.attempts := Run.attempts_note _ _
  have hdispatches : (s.note (.dispatch modelStr)).dispatches = s.dispatches + 1 :=
    Run.dispatches_note _ _
  have hpending := h.pending
  refine ⟨?_, ?_, ?_, ?_, ?_, stopped_note h.within h.open_budget _, ?_⟩
  · rw [hattempts]
    exact h.within.attempts_le
  · rw [hattempts]
    exact h.within.attempts_count
  · omega
  · intro visited hmem
    rcases Run.mem_note.1 hmem with hmem | heq
    · exact h.within.chains visited hmem
    · cases heq
  · intro hmem
    rcases Run.mem_note.1 hmem with hmem | heq
    · exact absurd hmem h.open_budget
    · cases heq
  · intro hmem
    rcases Run.mem_note.1 hmem with hmem | heq
    · exact h.within.unstalled hmem
    · cases heq

theorem Within.exceed (hcount : limit < s.count + 1) :
    Within limit maxDepth (({ s with count := s.count + 1 } : Run).note .exceeded) := by
  have hcounted : Within limit maxDepth { s with count := s.count + 1 } :=
    ⟨h.attempts_le, h.attempts_count.trans (Nat.le_succ _), h.dispatches_le, h.chains,
      fun hmem => (h.exceeded hmem).trans (Nat.lt_succ_self _), h.stopped, h.unstalled⟩
  refine hcounted.note (fun hworks => hworks) ?_ (fun _ => hcount) ?_
  · rintro visited ⟨⟩
  · rintro ⟨⟩

end

end Notes

/-! ## The loops -/

/-- The run goes on within its bounds. -/
structure GoesOn (limit maxDepth : ℕ) (s t : Run) : Prop where
  within : Within limit maxDepth t
  count : s.count ≤ t.count

theorem GoesOn.refl {limit maxDepth : ℕ} {s : Run} (h : Within limit maxDepth s) :
    GoesOn limit maxDepth s s := ⟨h, le_rfl⟩

theorem GoesOn.trans {limit maxDepth : ℕ} {s t u : Run} (h : GoesOn limit maxDepth s t)
    (h' : GoesOn limit maxDepth t u) : GoesOn limit maxDepth s u :=
  ⟨h'.within, h.count.trans h'.count⟩

/-- A unit for which an attempt has been counted goes on within the bounds. -/
def Executes (limit maxDepth : ℕ) (execute : Run → UnitResult) : Prop :=
  ∀ s, Ready limit maxDepth s → GoesOn limit maxDepth s (execute s).run

section Loops

variable {maxDepth : ℕ}

/-- Each attempt takes one of the budget, so fuel for the budget is enough. -/
theorem attempts_within {c : Loop} (hexecute : Executes c.limit maxDepth c.execute) {fuel : ℕ}
    (retry : ℕ) {s : Run} (l : Observed) (hs : Within c.limit maxDepth s) (hfuel : 0 < fuel)
    (hbudget : c.limit < fuel + s.count) :
    GoesOn c.limit maxDepth s (c.attempts fuel retry s l).run := by
  induction fuel generalizing retry s l with
  | zero => exact absurd hfuel (lt_irrefl 0)
  | succ fuel ih =>
    rw [Loop.attempts]
    split
    · exact .refl hs
    split
    · exact .refl hs
    dsimp only
    split
    · next hover => exact ⟨hs.exceed hover, Nat.le_succ _⟩
    next hunder =>
    have hready := hs.attempt (not_lt.1 hunder) c.unit
    have hrun := hexecute _ hready
    have hcount : s.count + 1 ≤ (c.execute (({ s with count := s.count + 1 } : Run).note
        (.attempt c.unit))).run.count := hrun.count
    have hgoes : GoesOn c.limit maxDepth s (c.execute (({ s with count := s.count + 1 } : Run).note
        (.attempt c.unit))).run := ⟨hrun.within, (Nat.le_succ _).trans hcount⟩
    split
    · exact hgoes
    split
    · exact hgoes.trans (ih _ _ hrun.within (by omega) (by omega))
    · exact hgoes

theorem runUnit_within {c : Loop} (hexecute : Executes c.limit maxDepth c.execute) {s : Run}
    (l : Observed) (hs : Within c.limit maxDepth s) :
    GoesOn c.limit maxDepth s (c.runUnit s l).run := by
  rw [Loop.runUnit]
  split
  · refine ⟨hs.note (fun hworks => hworks) ?_ ?_ ?_, le_rfl⟩
    · rintro visited ⟨⟩
    · rintro ⟨⟩
    · rintro ⟨⟩
  · have hattempts := attempts_within hexecute 0 l hs (Nat.succ_pos c.limit) (by omega)
    dsimp only
    split
    · split
      · exact hattempts
      · exact hattempts
    · exact hattempts

theorem runUnits_within {limit : ℕ} {loopOf : ComboUnit → ℕ → Loop}
    (hlimit : ∀ unit index, (loopOf unit index).limit = limit)
    (hexecute : ∀ unit index, Executes limit maxDepth (loopOf unit index).execute)
    (units : List ComboUnit) (index : ℕ) {s : Run} (l : Observed) (hs : Within limit maxDepth s) :
    GoesOn limit maxDepth s (runUnits loopOf units index s l).run := by
  induction units generalizing index s l with
  | nil => exact .refl hs
  | cons unit units ih =>
    have hunit : GoesOn limit maxDepth s ((loopOf unit index).runUnit s l).run := by
      have hone := hexecute unit index
      rw [← hlimit unit index] at hone hs ⊢
      exact runUnit_within hone l hs
    rw [runUnits]
    split
    · exact hunit
    · exact hunit.trans (ih (index + 1) _ hunit.within)

end Loops

/-! ## The levels -/

/-- The chain of the active combos has no repetition and the length of the depth. -/
structure Nesting.Sound (nesting : Nesting) : Prop where
  depth_le : nesting.depth ≤ nesting.maxDepth
  length : nesting.visitedComboNames.length = nesting.depth + 1
  nodup : nesting.visitedComboNames.Nodup

theorem buildChildNestingContext_sound {context child : Nesting} {name : String}
    (h : context.Sound) (hchild : buildChildNestingContext context name = .ok child) :
    child.Sound ∧ child.depth = context.depth + 1 ∧ child.maxDepth = context.maxDepth ∧
      child.limit = context.limit := by
  rw [buildChildNestingContext] at hchild
  split at hchild
  · cases hchild
  split at hchild
  · cases hchild
  · next hdepth hnew =>
    obtain rfl := Except.ok.inj hchild
    refine ⟨⟨?_, ?_, ?_⟩, rfl, rfl, rfl⟩
    · exact not_le.1 hdepth
    · rw [length_append, h.length]
      rfl
    · rw [nodup_append]
      refine ⟨h.nodup, nodup_singleton _, ?_⟩
      rintro a ha b hb rfl
      exact hnew (mem_singleton.1 hb ▸ ha)

/-- A call with fuel for the levels below goes on within the bounds. -/
theorem executeRuntimeUnitCombo_within (world : World) (combos : List Combo) {fuel : ℕ}
    {nesting : Nesting} (call : UnitCombo) {s : Run} (hnesting : nesting.Sound)
    (hfuel : nesting.maxDepth < nesting.depth + fuel)
    (hs : Within nesting.limit nesting.maxDepth s) :
    GoesOn nesting.limit nesting.maxDepth s
      (executeRuntimeUnitCombo world combos fuel nesting call s).run := by
  induction fuel generalizing nesting call s with
  | zero => exact absurd hnesting.depth_le (not_le.2 hfuel)
  | succ fuel ih =>
    rw [executeRuntimeUnitCombo]
    have hentered : Within nesting.limit nesting.maxDepth
        (s.note (.enter nesting.visitedComboNames)) := by
      refine hs.note (fun hworks => hworks) ?_ ?_ ?_
      · rintro visited ⟨⟩
        have hdepth := hnesting.depth_le
        have hlength := hnesting.length
        exact ⟨hnesting.nodup, by omega⟩
      · rintro ⟨⟩
      · rintro ⟨⟩
    have hgoes : GoesOn nesting.limit nesting.maxDepth s
        (s.note (.enter nesting.visitedComboNames)) := ⟨hentered, le_rfl⟩
    refine hgoes.trans (runUnits_within ?_ ?_ _ 0 _ hentered)
    · exact fun _ _ => rfl
    intro unit index t ht
    dsimp only [executeRuntimeUnit]
    cases unit with
    | model target =>
      dsimp only [executeModelUnit]
      split
      · exact ⟨ht.dispatch _, le_rfl⟩
      · exact .refl ht.within
    | comboRef target =>
      dsimp only
      split
      · exact .refl ht.within
      next childCombo _ =>
      split
      · exact .refl ht.within
      next child hchild =>
      obtain ⟨hsound, hdepth, hmax, hlimit⟩ := buildChildNestingContext_sound hnesting hchild
      have hwithin : Within child.limit child.maxDepth t := by
        rw [hlimit, hmax]
        exact ht.within
      have hrun := ih (childCombo.call world t) hsound (by omega) hwithin
      rw [hlimit, hmax] at hrun
      exact hrun

/-- A request for a combo: the context of `buildDefaultNesting`, with a fresh budget. -/
def runRootCombo (world : World) (combos : List Combo) (root : Combo) (maxDepth limit : ℕ) :
    Outcome :=
  executeRuntimeUnitCombo world combos (maxDepth + 1) ⟨0, maxDepth, [root.name], limit⟩
    (root.call world ⟨0, []⟩) ⟨0, []⟩

/-- A request is bounded by its budget and its depth, and ends. -/
theorem runRootCombo_within (world : World) (combos : List Combo) (root : Combo)
    (maxDepth limit : ℕ) :
    (runRootCombo world combos root maxDepth limit).run.dispatches ≤ limit ∧
    (∀ visited, .enter visited ∈ (runRootCombo world combos root maxDepth limit).run.log →
      visited.Nodup ∧ visited.length ≤ maxDepth + 1) ∧
    (∀ before after, (runRootCombo world combos root maxDepth limit).run.log =
      before ++ .exceeded :: after → ∀ e ∈ after, ¬ e.Works) ∧
    .stalled ∉ (runRootCombo world combos root maxDepth limit).run.log := by
  have hsound : (Nesting.mk 0 maxDepth [root.name] limit).Sound :=
    ⟨Nat.zero_le _, rfl, nodup_singleton _⟩
  have hstart : Within limit maxDepth ⟨0, []⟩ :=
    ⟨Nat.zero_le _, le_rfl, le_rfl, fun _ hmem => absurd hmem not_mem_nil,
      fun hmem => absurd hmem not_mem_nil, List.Pairwise.nil, not_mem_nil⟩
  have hfuel : maxDepth < 0 + (maxDepth + 1) := by omega
  have hrun := (executeRuntimeUnitCombo_within world combos (root.call world ⟨0, []⟩) hsound hfuel
    hstart).within
  refine ⟨hrun.dispatches_le.trans hrun.attempts_le, hrun.chains, ?_, hrun.unstalled⟩
  intro before after hlog e he
  have hstopped := hrun.stopped
  rw [runRootCombo] at hlog
  rw [hlog] at hstopped
  exact (pairwise_cons.1 (pairwise_append.1 hstopped).2.1).1 e he rfl

end OmniRoute.RuntimeUnits
