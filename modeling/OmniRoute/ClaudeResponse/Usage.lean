import OmniRoute.ClaudeResponse.Translate

/-!
# The usage that goes out

The state keeps one merged usage record. A delta replaces it: the output by what it reports, the
prompt by what it reports of input and cache reads as soon as it reports anything of these or of
cache creation, and the cached counts by what it reports unless that is zero.

**Main result (`finishUsage_iff`).** The chunk with the finish reason carries the latest reported
counts exactly when the reports are complete enough (`FullyReported`): the last one has the output,
no cached count is taken back to zero, and the last one that bills anything has the whole prompt.
-/

namespace OmniRoute.ClaudeResponse

open List Emitter

/-! ## Reports -/

/-- The counts that an event reports. -/
structure Report where
  input : Option ℕ
  output : Option ℕ
  cacheRead : Option ℕ
  cacheCreation : Option ℕ

def startReport (usage : ReportedUsage) : Report where
  input := usage.inputTokens.or usage.promptTokens
  output := usage.outputTokens.or usage.completionTokens
  cacheRead := usage.cacheReadInputTokens
  cacheCreation := usage.cacheCreationInputTokens

def deltaReport (usage : ReportedUsage) : Report where
  input := usage.inputTokens
  output := usage.outputTokens
  cacheRead := usage.cacheReadInputTokens
  cacheCreation := usage.cacheCreationInputTokens

/-- The usage records of the deltas of a stream. -/
def deltaUsages (events : List Event) : List ReportedUsage :=
  events.filterMap fun
    | .messageDelta _ usage => usage
    | _ => none

/-- The latest reported value of a count, 0 if it has never been reported. -/
def latest (count : Report → Option ℕ) (reports : List Report) : ℕ :=
  (reports.filterMap count).getLast?.getD 0

/-- The usage has the latest reported counts. -/
structure LatestKnown (reports : List Report) (usage : OpenAIUsage) : Prop where
  prompt : usage.promptTokens = latest Report.input reports + latest Report.cacheRead reports
  completion : usage.completionTokens = latest Report.output reports
  total : usage.totalTokens = latest Report.input reports + latest Report.cacheRead reports +
    latest Report.output reports
  cached : (usage.promptTokensDetails.bind PromptTokensDetails.cachedTokens).getD 0 =
    latest Report.cacheRead reports
  cacheCreation : (usage.promptTokensDetails.bind PromptTokensDetails.cacheCreationTokens).getD 0 =
    latest Report.cacheCreation reports

/-! ## What is merged -/

/-- A report that bills input or cache. -/
def Report.bills (r : Report) : Bool :=
  decide (0 < r.input.getD 0 ∨ 0 < r.cacheRead.getD 0 ∨ 0 < r.cacheCreation.getD 0)

/-- The input and the cache reads that one report has. -/
def Report.billable (r : Report) : ℕ := r.input.getD 0 + r.cacheRead.getD 0

/-- The prompt of the last report that bills anything. -/
def lastBilled (reports : List Report) : ℕ :=
  ((reports.filter Report.bills).getLast?.map Report.billable).getD 0

/-- The last value of a count that is not zero. -/
def lastNonzero (count : Report → Option ℕ) (reports : List Report) : ℕ :=
  ((reports.filterMap count).filter fun n => decide (n ≠ 0)).getLast?.getD 0

/-- The record after some reports. -/
structure Merged (reports : List Report) (usage : Option Usage) : Prop where
  input : (usage.map Usage.inputTokens).getD 0 = lastBilled reports
  output : (usage.map Usage.outputTokens).getD 0 = (reports.getLast?.bind Report.output).getD 0
  cacheRead : (usage.bind Usage.cacheReadInputTokens).getD 0 = lastNonzero Report.cacheRead reports
  cacheCreation : (usage.bind Usage.cacheCreationInputTokens).getD 0 =
    lastNonzero Report.cacheCreation reports

theorem getD_positive (n : ℕ) : (positive n).getD 0 = n := by
  unfold positive
  split
  · rfl
  · next h => exact (Nat.eq_zero_of_not_pos h).symm

theorem lastBilled_append (reports : List Report) (r : Report) :
    lastBilled (reports ++ [r]) = if r.bills = true then r.billable else lastBilled reports := by
  unfold lastBilled
  by_cases h : r.bills = true <;> simp [filter_append, h]

variable (count : Report → Option ℕ)

section

variable (reports : List Report)

theorem lastNonzero_append (r : Report) :
    lastNonzero count (reports ++ [r]) =
      if (count r).getD 0 ≠ 0 then (count r).getD 0 else lastNonzero count reports := by
  unfold lastNonzero
  cases hr : count r with
  | none => simp [filterMap_append, hr]
  | some n =>
    by_cases hn : n = 0 <;> simp [filterMap_append, filter_append, hr, hn]

theorem merged_start (usage : ReportedUsage) : Merged [startReport usage] (startUsage usage) := by
  have hbilled := lastBilled_append [] (startReport usage)
  have hread := lastNonzero_append Report.cacheRead [] (startReport usage)
  have hcreation := lastNonzero_append Report.cacheCreation [] (startReport usage)
  rw [List.nil_append] at hbilled hread hcreation
  have hself : ∀ n : ℕ, (if n ≠ 0 then n else 0) = n := fun n => by
    by_cases h : n = 0
    · rw [if_neg (not_not_intro h), h]
    · rw [if_pos h]
  have hnil : lastNonzero Report.cacheRead [] = 0 ∧ lastNonzero Report.cacheCreation [] = 0 :=
    ⟨rfl, rfl⟩
  rw [hnil.1, hself] at hread
  rw [hnil.2, hself] at hcreation
  have hprompt : lastBilled [startReport usage] = (startReport usage).billable := by
    rw [hbilled]
    by_cases h : (startReport usage).bills = true
    · exact if_pos h
    · rw [if_neg h]
      simp only [Report.bills, decide_eq_true_eq, not_or, Nat.not_lt, Nat.le_zero] at h
      rw [Report.billable, h.1, h.2.1]
      rfl
  unfold startUsage
  dsimp only
  split
  · refine ⟨hprompt.symm, rfl, ?_, ?_⟩
    · rw [hread]
      exact getD_positive _
    · rw [hcreation]
      exact getD_positive _
  · next h =>
    simp only [not_or, Nat.not_lt, Nat.le_zero] at h
    obtain ⟨hin, hout, hcr, hcc⟩ := h
    refine ⟨?_, hout.symm, (hread.trans hcr).symm, (hcreation.trans hcc).symm⟩
    rw [hprompt, Report.billable]
    exact (congrArg₂ (· + ·) hin hcr).symm

theorem Merged.step {reports : List Report} {usage : Option Usage} (h : Merged reports usage)
    (reported : ReportedUsage) :
    Merged (reports ++ [deltaReport reported]) (some (deltaUsage usage reported)) := by
  refine ⟨?_, ?_, ?_, ?_⟩
  · rw [lastBilled_append, ← h.input]
    show (if _ then _ else _) = _
    by_cases hb : (deltaReport reported).bills = true
    · rw [if_pos hb]
      exact if_pos (of_decide_eq_true hb)
    · rw [if_neg hb]
      exact if_neg fun hc => hb (decide_eq_true hc)
  · rw [getLast?_concat]
    rfl
  · rw [lastNonzero_append, ← h.cacheRead]
    exact getD_positive _
  · rw [lastNonzero_append, ← h.cacheCreation]
    exact getD_positive _

/-! ## Complete reports -/

/-- The last report has the output, no cached count is taken back to zero, and the last report that
bills anything has the whole prompt. -/
structure FullyReported (reports : List Report) : Prop where
  output : (reports.getLast?.bind Report.output) ≠ none ∨ latest Report.output reports = 0
  cacheRead : latest Report.cacheRead reports ≠ 0 ∨ ∀ r ∈ reports, r.cacheRead.getD 0 = 0
  cacheCreation : latest Report.cacheCreation reports ≠ 0 ∨
    ∀ r ∈ reports, r.cacheCreation.getD 0 = 0
  prompt : lastBilled reports = latest Report.input reports + latest Report.cacheRead reports

theorem latest_append (r : Report) :
    latest count (reports ++ [r]) = (count r).getD (latest count reports) := by
  unfold latest
  cases hr : count r <;> simp [filterMap_append, hr]

/-- The output of the last report is the latest one if it is there, or if there is none. -/
theorem output_eq_latest_iff :
    (reports.getLast?.bind Report.output).getD 0 = latest Report.output reports ↔
      reports.getLast?.bind Report.output ≠ none ∨ latest Report.output reports = 0 := by
  cases reports using List.reverseRecOn with
  | nil => simp [latest]
  | append_singleton reports r =>
    rw [getLast?_concat, latest_append]
    cases hr : r.output with
    | none => simp [hr, eq_comm]
    | some n => simp [hr]

/-- The last number that is not zero is the last one if that is not zero, or if all are. -/
theorem getLast_filter_iff (l : List ℕ) :
    (l.filter fun n => decide (n ≠ 0)).getLast?.getD 0 = l.getLast?.getD 0 ↔
      l.getLast?.getD 0 ≠ 0 ∨ ∀ n ∈ l, n = 0 := by
  cases l using List.reverseRecOn with
  | nil => simp
  | append_singleton l n =>
    rw [getLast?_concat, filter_append, Option.getD_some]
    by_cases hn : n = 0
    · subst hn
      simp only [ne_eq, not_true_eq_false, decide_false, false_or, filter_cons_of_neg,
        Bool.false_eq_true, not_false_eq_true, filter_nil, append_nil]
      rw [forall_mem_append, forall_mem_singleton, and_iff_left rfl]
      constructor
      · intro h m hm
        by_contra hne
        have hmem : m ∈ l.filter fun n => decide (n ≠ 0) :=
          mem_filter.2 ⟨hm, decide_eq_true hne⟩
        obtain ⟨x, hx⟩ := Option.ne_none_iff_exists'.1
          (mt getLast?_eq_none_iff.1 (ne_nil_of_mem hmem))
        have hxne := of_decide_eq_true (mem_filter.1 (mem_of_getLast? hx)).2
        rw [hx] at h
        exact hxne h
      · intro h
        rw [filter_eq_nil_iff.2 fun m hm => by simp [h m hm]]
        rfl
    · simp [hn]

theorem lastNonzero_eq_latest_iff :
    lastNonzero count reports = latest count reports ↔
      latest count reports ≠ 0 ∨ ∀ r ∈ reports, (count r).getD 0 = 0 := by
  refine (getLast_filter_iff _).trans (or_congr Iff.rfl ?_)
  constructor
  · intro h r hr
    cases hc : count r with
    | none => rfl
    | some n => exact h n (mem_filterMap.2 ⟨r, hr, hc⟩)
  · intro h n hn
    obtain ⟨r, hr, hc⟩ := mem_filterMap.1 hn
    have hzero := h r hr
    rwa [hc] at hzero

end

theorem details_finalUsage (usage : Usage) :
    ((finalUsage usage).promptTokensDetails.bind PromptTokensDetails.cachedTokens).getD 0 =
        usage.cacheReadInputTokens.getD 0 ∧
      ((finalUsage usage).promptTokensDetails.bind
        PromptTokensDetails.cacheCreationTokens).getD 0 =
          usage.cacheCreationInputTokens.getD 0 := by
  unfold finalUsage
  dsimp only
  split
  · exact ⟨getD_positive _, getD_positive _⟩
  · next h =>
    rw [not_or, Nat.not_lt, Nat.not_lt, Nat.le_zero, Nat.le_zero] at h
    exact ⟨h.1.symm, h.2.symm⟩

/-- **What goes out is the latest exactly when the reports are complete.** -/
theorem latestKnown_finalUsage_iff {reports : List Report} {usage : Usage}
    (h : Merged reports (some usage)) :
    LatestKnown reports (finalUsage usage) ↔ FullyReported reports := by
  obtain ⟨hcached, hcreation⟩ := details_finalUsage usage
  have hinput : usage.inputTokens = lastBilled reports := h.input
  have houtput : usage.outputTokens = (reports.getLast?.bind Report.output).getD 0 := h.output
  have hread : usage.cacheReadInputTokens.getD 0 = lastNonzero Report.cacheRead reports :=
    h.cacheRead
  have hcreate : usage.cacheCreationInputTokens.getD 0 =
      lastNonzero Report.cacheCreation reports := h.cacheCreation
  rw [hread] at hcached
  rw [hcreate] at hcreation
  constructor
  · intro hlatest
    exact
      { output := (output_eq_latest_iff reports).1 (houtput.symm.trans hlatest.completion)
        cacheRead := (lastNonzero_eq_latest_iff _ _).1 (hcached.symm.trans hlatest.cached)
        cacheCreation :=
          (lastNonzero_eq_latest_iff _ _).1 (hcreation.symm.trans hlatest.cacheCreation)
        prompt := hinput.symm.trans hlatest.prompt }
  · intro hfull
    have hcompletion := houtput.trans ((output_eq_latest_iff reports).2 hfull.output)
    have hprompt := hinput.trans hfull.prompt
    exact
      { prompt := hprompt
        completion := hcompletion
        total := congrArg₂ (· + ·) hprompt hcompletion
        cached := hcached.trans ((lastNonzero_eq_latest_iff _ _).2 hfull.cacheRead)
        cacheCreation :=
          hcreation.trans ((lastNonzero_eq_latest_iff _ _).2 hfull.cacheCreation) }

/-! ## The stream -/

/-- The record after the start and some deltas. -/
def mergedUsage (usage : Option Usage) (deltas : List ReportedUsage) : Option Usage :=
  deltas.foldl (fun usage reported => some (deltaUsage usage reported)) usage

theorem merged_mergedUsage (start : ReportedUsage) (deltas : List ReportedUsage) :
    Merged (startReport start :: deltas.map deltaReport) (mergedUsage (startUsage start) deltas) := by
  induction deltas using List.reverseRecOn with
  | nil => exact merged_start start
  | append_singleton deltas reported ih =>
    have hstep := ih.step reported
    rw [mergedUsage, foldl_append, map_append, ← cons_append]
    exact hstep

/-- There is a record once a delta has a usage, or if the start reports anything. -/
theorem mergedUsage_eq_none_iff (start : ReportedUsage) (deltas : List ReportedUsage) :
    mergedUsage (startUsage start) deltas = none ↔ deltas = [] ∧ startUsage start = none := by
  cases deltas using List.reverseRecOn with
  | nil => simp [mergedUsage]
  | append_singleton deltas reported =>
    rw [mergedUsage, foldl_append]
    simp

/-- Only a start and the deltas change the usage. -/
def usageAfter (usage : Option Usage) : Event → Option Usage
  | .messageStart _ _ reported => (reported.bind startUsage).or usage
  | .messageDelta _ (some reported) => some (deltaUsage usage reported)
  | _ => usage

theorem usage_flushThinkClose (env : Env) (s : State) :
    (flushThinkClose env s).2.usage = s.usage := by
  rw [flushThinkClose, onState_apply]
  cases s.pendingThinkClose <;> cases s.suppressThinkClose <;> rfl

theorem usage_finishMessage (env : Env) (stopReason : Option String) (s : State) :
    (finishMessage env stopReason s).2.usage = s.usage := by
  unfold finishMessage
  cases truthyText stopReason with
  | none => rfl
  | some reason =>
    show (onState _ s).2.usage = s.usage
    rw [onState_apply]
    split
    · exact usage_flushThinkClose env s
    · rfl

theorem usage_claudeToOpenAIResponse (env : Env) (event : Event) (s : State) :
    (claudeToOpenAIResponse env event s).2.usage = usageAfter s.usage event := by
  cases event with
  | messageStart => rfl
  | contentBlockStart index block => cases block <;> rfl
  | contentBlockDelta index delta =>
    cases delta with
    | text text =>
      show ((if text = "" then skip else _) s : List Chunk × State).2.usage = s.usage
      split
      · rfl
      · exact usage_flushThinkClose env s
    | thinking thinking =>
      show ((if thinking = "" then skip else _) s : List Chunk × State).2.usage = s.usage
      split <;> rfl
    | inputJson partialJson =>
      show ((if partialJson = "" then skip else _) s : List Chunk × State).2.usage = s.usage
      split
      · rfl
      · cases s.toolCalls.get index <;> rfl
    | other => rfl
  | contentBlockStop index =>
    show (if _ then _ else _ : State).usage = s.usage
    split <;> rfl
  | messageDelta stopReason usage =>
    show (finishMessage env stopReason (mergeUsage usage s).2).2.usage = _
    rw [usage_finishMessage]
    cases usage <;> rfl
  | messageStop =>
    show ((if s.finishReasonSent then skip else _) s : List Chunk × State).2.usage = s.usage
    split <;> rfl
  | other => rfl

theorem usage_runEvents {events : List (Env × Event)}
    (h : ∀ e ∈ events, ∀ id model usage, e.2 ≠ .messageStart id model usage) (s : State) :
    (runEvents events s).usage = mergedUsage s.usage (deltaUsages (events.map Prod.snd)) := by
  induction events generalizing s with
  | nil => rfl
  | cons e events ih =>
    obtain ⟨env, event⟩ := e
    have hevent := h (env, event) mem_cons_self
    show (runEvents events (claudeToOpenAIResponse env event s).2).usage = _
    rw [ih fun e he => h e (.tail _ he), usage_claudeToOpenAIResponse]
    cases event with
    | messageStart id model usage => exact absurd rfl (hevent id model usage)
    | messageDelta stopReason usage => cases usage <;> rfl
    | _ => rfl

/-- The chunk with a finish reason has the usage of the state after the event. -/
theorem usage_of_finishing {env : Env} {event : Event} {s : State} {chunk : Chunk}
    (hchunk : chunk ∈ (claudeToOpenAIResponse env event s).1) (hfinish : chunk.finishReason ≠ none) :
    chunk.usage = (usageAfter s.usage event).map finalUsage := by
  have hsend : ∀ (delta : ChunkDelta) (s : State), chunk ∉ (send env delta s).1 := by
    intro delta s hmem
    rw [mem_singleton.1 hmem] at hfinish
    exact hfinish rfl
  have hflush : ∀ s : State, chunk ∉ (flushThinkClose env s).1 := by
    intro s hmem
    rw [flushThinkClose, onState_apply] at hmem
    cases hp : s.pendingThinkClose
    · rw [hp] at hmem
      cases hmem
    · cases hs : s.suppressThinkClose <;> rw [hp, hs] at hmem
      · exact hsend _ s (append_nil (send env (.content "</think>") s).1 ▸ hmem)
      · cases hmem
  cases event with
  | messageStart id model usage => exact absurd hchunk (hsend _ _)
  | contentBlockStart index block =>
    cases block with
    | thinking => exact absurd hchunk (hsend _ _)
    | toolUse id name => exact absurd hchunk (hsend _ _)
    | _ => cases hchunk
  | contentBlockDelta index delta =>
    cases delta with
    | text text =>
      change chunk ∈ ((if text = "" then skip else _) s : List Chunk × State).1 at hchunk
      split at hchunk
      · cases hchunk
      · rcases mem_append.1 hchunk with h | h
        · exact absurd h (hflush s)
        · exact absurd h (hsend _ _)
    | thinking thinking =>
      change chunk ∈ ((if thinking = "" then skip else _) s : List Chunk × State).1 at hchunk
      split at hchunk
      · cases hchunk
      · exact absurd hchunk (hsend _ _)
    | inputJson partialJson =>
      change chunk ∈ ((if partialJson = "" then skip else _) s : List Chunk × State).1 at hchunk
      split at hchunk
      · cases hchunk
      · cases hget : s.toolCalls.get index with
        | none =>
          rw [hget] at hchunk
          cases hchunk
        | some toolCall =>
          rw [hget] at hchunk
          exact absurd hchunk (hsend _ _)
    | other => cases hchunk
  | contentBlockStop index => cases hchunk
  | messageDelta stopReason usage =>
    have hmerge : (mergeUsage usage s).2.usage =
        usageAfter s.usage (.messageDelta stopReason usage) := by
      cases usage <;> rfl
    rw [← hmerge]
    change chunk ∈ (finishMessage env stopReason (mergeUsage usage s).2).1 at hchunk
    generalize (mergeUsage usage s).2 = merged at hchunk ⊢
    unfold finishMessage at hchunk
    cases hreason : truthyText stopReason with
    | none =>
      rw [hreason] at hchunk
      cases hchunk
    | some reason =>
      rw [hreason] at hchunk
      rcases mem_append.1 hchunk with h | h
      · rw [onState_apply] at h
        split at h
        · exact absurd h (hflush merged)
        · cases h
      · obtain rfl := mem_singleton.1 h
        show Option.map finalUsage (onState _ merged).2.usage = _
        rw [onState_apply]
        split
        · rw [usage_flushThinkClose]
        · rfl
  | messageStop =>
    change chunk ∈ ((if s.finishReasonSent then skip else _) s : List Chunk × State).1 at hchunk
    split at hchunk
    · cases hchunk
    · obtain rfl := mem_singleton.1 hchunk
      rfl
  | other => cases hchunk

/-- The event that finishes counts too. -/
theorem usageAfter_mergedUsage {usage : Option Usage} {events : List Event} {event : Event}
    (h : ∀ id model reported, event ≠ .messageStart id model reported) :
    usageAfter (mergedUsage usage (deltaUsages events)) event =
      mergedUsage usage (deltaUsages (events ++ [event])) := by
  rw [deltaUsages, deltaUsages, filterMap_append, mergedUsage, mergedUsage, foldl_append]
  cases event with
  | messageStart id model reported => exact absurd rfl (h id model reported)
  | messageDelta stopReason reported => cases reported <;> rfl
  | _ => rfl

/-- **The usage that goes out is the latest one exactly when the reports are complete.** -/
theorem finishUsage_iff (env₀ env : Env) (id model : Option String) (start : ReportedUsage)
    (events : List (Env × Event)) (event : Event) (chunk : Chunk) (s₀ : State)
    (hfresh : s₀.usage = none) (honce : ∀ e ∈ events.map Prod.snd ++ [event], ∀ id model usage,
      e ≠ .messageStart id model usage)
    (hchunk : chunk ∈ (claudeToOpenAIResponse env event
      (runEvents ((env₀, .messageStart id model (some start)) :: events) s₀)).1)
    (hfinish : chunk.finishReason ≠ none) :
    (∃ usage, chunk.usage = some usage ∧
        LatestKnown (startReport start ::
          (deltaUsages (events.map Prod.snd ++ [event])).map deltaReport) usage) ↔
      (deltaUsages (events.map Prod.snd ++ [event]) ≠ [] ∨ startUsage start ≠ none) ∧
        FullyReported (startReport start ::
          (deltaUsages (events.map Prod.snd ++ [event])).map deltaReport) := by
  have hstart : (claudeToOpenAIResponse env₀ (.messageStart id model (some start)) s₀).2.usage =
      startUsage start := by
    rw [usage_claudeToOpenAIResponse, hfresh]
    exact Option.or_none
  have hrun := usage_runEvents (fun e he => honce e.2 (mem_append_left _
    (mem_map_of_mem he)))
    (claudeToOpenAIResponse env₀ (.messageStart id model (some start)) s₀).2
  have hevent := honce event (mem_append_right _ mem_cons_self)
  have husage : chunk.usage = (mergedUsage (startUsage start)
      (deltaUsages (events.map Prod.snd ++ [event]))).map finalUsage := by
    rw [usage_of_finishing hchunk hfinish, runEvents, hrun, hstart, usageAfter_mergedUsage hevent]
  have hmerged := merged_mergedUsage start (deltaUsages (events.map Prod.snd ++ [event]))
  have hnone := mergedUsage_eq_none_iff start (deltaUsages (events.map Prod.snd ++ [event]))
  rw [husage]
  cases hcase : mergedUsage (startUsage start) (deltaUsages (events.map Prod.snd ++ [event])) with
  | none =>
    obtain ⟨hnil, hno⟩ := hnone.1 hcase
    constructor
    · rintro ⟨usage, h, -⟩
      cases h
    · rintro ⟨hsome | hsome, -⟩
      · exact absurd hnil hsome
      · exact absurd hno hsome
  | some usage =>
    rw [hcase] at hmerged hnone
    have hsome : deltaUsages (events.map Prod.snd ++ [event]) ≠ [] ∨ startUsage start ≠ none := by
      by_contra hneither
      rw [not_or, not_not, not_not] at hneither
      cases hnone.2 hneither
    rw [← latestKnown_finalUsage_iff hmerged, and_iff_right hsome]
    constructor
    · rintro ⟨u, hu, hlatest⟩
      cases hu
      exact hlatest
    · exact fun hlatest => ⟨_, rfl, hlatest⟩

/-! ## A delta without the cache reads -/

def plainEnv : Env := ⟨id, 0⟩

/-- The start reports input and cache reads, the delta input and output. -/
def cachedStart : ReportedUsage := { inputTokens := some 100, cacheReadInputTokens := some 50 }

def plainDelta : Event :=
  .messageDelta (some "end_turn") (some { inputTokens := some 100, outputTokens := some 20 })

def startedState : State :=
  runEvents [(plainEnv, .messageStart (some "msg_1") (some "claude") (some cachedStart))] {}

/-- The chunk with the finish reason. -/
def finishingChunk : Chunk where
  id := "chatcmpl-msg_1"
  created := 0
  model := some "claude"
  delta := .empty
  finishReason := some "stop"
  usage := some ⟨100, 20, 120, none, some ⟨some 50, none⟩⟩

theorem mem_finishingChunk :
    finishingChunk ∈ (claudeToOpenAIResponse plainEnv plainDelta startedState).1 := by
  decide +kernel

theorem finishUsage_iff_cached :
    (∃ usage, finishingChunk.usage = some usage ∧
        LatestKnown (startReport cachedStart :: (deltaUsages [plainDelta]).map deltaReport) usage) ↔
      (deltaUsages [plainDelta] ≠ [] ∨ startUsage cachedStart ≠ none) ∧
        FullyReported (startReport cachedStart :: (deltaUsages [plainDelta]).map deltaReport) :=
  finishUsage_iff plainEnv plainEnv (some "msg_1") (some "claude") cachedStart [] plainDelta
    finishingChunk {} rfl (fun e he id model usage h => by
      rw [mem_singleton.1 he] at h
      cases h) mem_finishingChunk (by decide)

/-- The prompt loses the cache reads of the start. -/
theorem cacheRead_lost :
    finishingChunk ∈ (claudeToOpenAIResponse plainEnv plainDelta startedState).1 ∧
      finishingChunk.finishReason = some "stop" ∧
      ¬∃ usage, finishingChunk.usage = some usage ∧
        LatestKnown (startReport cachedStart :: (deltaUsages [plainDelta]).map deltaReport) usage := by
  refine ⟨mem_finishingChunk, rfl, ?_⟩
  rintro ⟨usage, husage, hlatest⟩
  cases husage
  exact absurd hlatest.prompt (by decide)

end OmniRoute.ClaudeResponse
