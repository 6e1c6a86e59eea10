import OmniRoute.ClaudeStream.Delivery

/-!
# Streams that are delivered once

A stream of chunks up to a finish chunk, chunks without a choice after it, and the null at the end.
A finish chunk without usage is stored, and its delta is translated again at the next call: what it
carries is delivered twice.

**Main result (`delivered_iff`).** Such a stream is delivered exactly once when the finish chunk has
usage or its delta adds nothing to the state after it, and only then.
-/

namespace OmniRoute.ClaudeStream

open List Option Emitter

variable {N : Type}

/-! ## What comes in -/

/-- The delta of a chunk, empty where there is no choice. -/
def Chunk.delta (chunk : Chunk N) : Delta N :=
  match chunk.choice with
  | some choice => choice.delta
  | none => {}

def contentOf (chunks : List (ℕ × Chunk N)) : List Char :=
  chunks.flatMap fun c => (c.2.delta.content.getD "").toList

/-- The reasoning, without the fragments that are the internal placeholder. -/
def reasoningOf (chunks : List (ℕ × Chunk N)) : List Char :=
  chunks.flatMap fun c => sentReasoning c.2.delta

def fragmentsOf (chunks : List (ℕ × Chunk N)) : List (ToolCallDelta N) :=
  chunks.flatMap fun c => c.2.delta.toolCalls

variable (l₁ l₂ : List (ℕ × Chunk N))

theorem contentOf_append : contentOf (l₁ ++ l₂) = contentOf l₁ ++ contentOf l₂ := flatMap_append

theorem reasoningOf_append :
    reasoningOf (l₁ ++ l₂) = reasoningOf l₁ ++ reasoningOf l₂ := flatMap_append

theorem fragmentsOf_append :
    fragmentsOf (l₁ ++ l₂) = fragmentsOf l₁ ++ fragmentsOf l₂ := flatMap_append

variable {chunks : List (ℕ × Chunk N)}

/-- Chunks without a choice bring nothing. -/
theorem nothing_of_noChoice (h : ∀ c ∈ chunks, c.2.choice = none) :
    contentOf chunks = [] ∧ reasoningOf chunks = [] ∧ fragmentsOf chunks = [] := by
  have hdelta : ∀ c ∈ chunks, c.2.delta = {} := fun c hc => by rw [Chunk.delta, h c hc]
  refine ⟨flatMap_eq_nil_iff.2 fun c hc => ?_, flatMap_eq_nil_iff.2 fun c hc => ?_,
    flatMap_eq_nil_iff.2 fun c hc => ?_⟩
  · rw [hdelta c hc]
    rfl
  · rw [hdelta c hc]
    exact if_pos (.inl rfl)
  · rw [hdelta c hc]

/-- Every index has been given an id before it is used. -/
def Introduced (fragments : List (ToolCallDelta N)) : Prop :=
  ∀ done tc rest, fragments = done ++ tc :: rest →
    truthyText tc.id ≠ none ∨ ∃ tc' ∈ done, tc'.idx = tc.idx

structure Admissible [JsonNumber N] (chunks : List (ℕ × Chunk N)) : Prop where
  noMarkup : firstMarker (contentOf chunks) = none
  noPlaceholder : ∀ c ∈ chunks, indexOfLiteral nonAnthropicThinkingPlaceholder.toList
    (c.2.delta.content.getD "").toList = none
  introduced : Introduced (fragmentsOf chunks)
  increments : Increments (fragmentsOf chunks)

/-- The chunks up to the finish, the choice of the finish chunk, and the chunks after it. -/
structure FinishesWith (before : List (ℕ × Chunk N)) (finish : ℕ × Chunk N) (choice : Choice N)
    (after : List (ℕ × Chunk N)) : Prop where
  before : ∀ c ∈ before, ∀ choice, c.2.choice = some choice → truthyText choice.finishReason = none
  chosen : finish.2.choice = some choice
  reason : truthyText choice.finishReason ≠ none
  after : ∀ c ∈ after, c.2.choice = none

/-! ## What has been delivered -/

/-- Everything that came in is sent or held back, and nothing else is. -/
structure Carried [JsonNumber N] (env : Env N) (chunks : List (ℕ × Chunk N)) (s : State N)
    (w : List (ClaudeEvent N)) : Prop extends
    Delivery (contentOf chunks) (reasoningOf chunks)
      (accumulated (fun _ => []) (fragmentsOf chunks)) s w where
  known : Known env (fragmentsOf chunks) s
  xml : s.xmlInvokeBuffer = []
  pending : s.pendingClaudeFinishChoice = none

/-- Before the first choice nothing is sent, and from then on everything is carried. -/
def Before [JsonNumber N] (env : Env N) (chunks : List (ℕ × Chunk N)) (s : State N)
    (w : List (ClaudeEvent N)) :
    Prop :=
  (Unstarted s ∧ w = [] ∧ ∀ c ∈ chunks, c.2.choice = none) ∨
    ∃ g, Sync false s g ∧ Carried env chunks s w

section Deltas

variable {text thinking : List Char} {acc : ℤ → List Char} {s : State N} {g : Reader}
  {w : List (ClaudeEvent N)} {fin : Bool}

variable {delta : Delta N}

theorem contentText_of_noPlaceholder
    (h : indexOfLiteral nonAnthropicThinkingPlaceholder.toList
      (delta.content.getD "").toList = none) :
    contentText delta = (delta.content.getD "").toList := by
  rw [contentText, stripInternalReasoningPlaceholder]
  simp only [h, isNone_none, if_true]

theorem Delivery.of_same (h : Delivery text thinking acc s w) {s' : State N}
    (htools : s'.toolCalls = s.toolCalls) (hnext : s'.nextBlockIndex = s.nextBlockIndex)
    (hbuf : s'.markdownBuffer = s.markdownBuffer) :
    Delivery text thinking acc s' w := by
  refine ⟨⟨?_, ?_, ?_⟩, ?_, h.thinking⟩
  · rw [htools]
    exact h.args
  · rw [htools]
    exact h.unknown
  · rw [hnext]
    exact h.fresh
  · rw [hbuf]
    exact h.text

variable {choice : Choice N}

theorem closeChoice_open (env : Env N) (hasChunkUsage flushing : Bool)
    (h : truthyText choice.finishReason = none) (s : State N) :
    closeChoice env hasChunkUsage flushing choice s = ([], s) := by
  rw [closeChoice, onState_apply, h]
  rfl

theorem sentReasoning_eq_nil : sentReasoning delta = [] ↔ SilentReasoning delta := by
  unfold sentReasoning
  by_cases h : reasoningText delta = "" ∨ isInternalReasoningPlaceholder (reasoningText delta)
  · rw [if_pos h]
    exact iff_of_true rfl h
  · rw [if_neg h]
    refine iff_of_false (fun hnil => h (.inl ?_)) h
    exact String.toList_eq_nil_iff.1 hnil

variable {finishReason : String}

theorem closeChoice_finish (env : Env N) {hasChunkUsage flushing : Bool}
    (hreason : truthyText choice.finishReason = some finishReason)
    (hor : hasChunkUsage = true ∨ flushing = true) {s : State N}
    (hfinished : s.claudeFinishEmitted = false) :
    closeChoice env hasChunkUsage flushing choice s = emitFinish env finishReason s := by
  have hnot : ¬(!hasChunkUsage && !flushing) = true := by
    rcases hor with rfl | rfl
    · simp
    · simp
  rw [closeChoice, onState_apply, hreason]
  simp only [hfinished, Bool.false_eq_true, if_false, if_neg hnot]

theorem closeChoice_store (env : Env N)
    (hreason : truthyText choice.finishReason = some finishReason) {s : State N}
    (hfinished : s.claudeFinishEmitted = false) :
    closeChoice env false false choice s =
      ([], { s with pendingClaudeFinishChoice := some choice }) := by
  rw [closeChoice, onState_apply, hreason]
  simp only [hfinished, Bool.false_eq_true, if_false, Bool.not_false, Bool.and_self, if_true,
    update_apply]

variable {env : Env N}

/-- A repetition of known fragments leaves blocks and shims as they are. -/
theorem toolView_moves {base : List (ToolCallDelta N)} {tc : ToolCallDelta N}
    {s s' : State N} (hmem : tc ∈ base) (hknown : Known env base s)
    (h : Moves (incomingToolName env tc) tc.idx s s') : toolView s' = toolView s := by
  funext idx
  by_cases hidx : idx = tc.idx
  · obtain ⟨info, hget, hs⟩ := hknown tc hmem
    obtain ⟨info', hget', hblock, -, hshim⟩ := h.own info hget
    have hor : info.startEmitted = true ∨ incomingToolName env tc = "" := by
      by_cases hname : incomingToolName env tc = ""
      · exact .inr hname
      · exact .inl (hs hname)
    rw [toolView, toolView, hidx, hget, hget', map_some, map_some, hblock, hshim hor]
  · rw [toolView, toolView, h.other idx hidx]

theorem deliveredBy_iff {text' thinking' : List Char} {acc' : ℤ → List Char}
    (h : DeliveredBy text' thinking' acc' s w) : DeliveredBy text thinking acc s w ↔
      text' = text ∧ thinking' = thinking ∧
        ∀ idx i, toolView s idx = some (i, false) → acc' idx = acc idx := by
  constructor
  · intro h'
    exact ⟨h.text.symm.trans h'.text, h.thinking.symm.trans h'.thinking,
      fun idx i hi => (h.args idx i hi).symm.trans (h'.args idx i hi)⟩
  · rintro ⟨htext, hthinking, hargs⟩
    exact ⟨h.text.trans htext, h.thinking.trans hthinking,
      fun idx i hi => (h.args idx i hi).trans (hargs idx i hi)⟩

theorem emitReasoning_silent (h : SilentReasoning delta) (s : State N) :
    emitReasoning delta s = ([], s) := by
  have hskip : emitReasoning delta = (Emitter.skip : Stream N) := by
    unfold emitReasoning
    exact if_pos h
  rw [hskip, skip_apply]

variable [Zero N] [DecidableEq N]

/-- Without markup a delta adds its content. -/
theorem textAfter_of_noMarker (env : Env N) (now : ℕ) (hsync : Sync fin s g)
    (h : Delivery text thinking acc s w) (hxml : s.xmlInvokeBuffer = [])
    (hno : firstMarker (text ++ contentText delta) = none) :
    textAfter env now delta s w = text ++ contentText delta ∧ markupAfter env now delta s = [] := by
  unfold textAfter markupAfter
  by_cases ht : contentText delta = []
  · rw [if_pos ht, if_pos ht, ht, append_nil]
    exact ⟨h.text, hxml⟩
  · rw [if_neg ht, if_neg ht]
    have hsent := sends_emitReasoning s hsync.textOpen delta
    have hd := h.sends hsent
    rw [h.text] at hd
    have hbuf : (emitReasoning delta s).2.xmlInvokeBuffer = [] := hsent.xml.trans hxml
    have hpart : firstMarker ([] ++ ((emitReasoning delta s).2.markdownBuffer ++
        contentText delta)) = none := by
      refine firstMarker_infix hno ?_
      rw [← hd.text]
      exact ⟨textOf (w ++ (emitReasoning delta s).1), [], by simp⟩
    rw [extractContent, hbuf, extract_of_noMarker env.parseJson now hpart]
    refine ⟨?_, rfl⟩
    rw [← hd.text]
    simp

/-- The text after a delta without reasoning that has been translated before. -/
theorem textAfter_eq_iff (env : Env N) (now : ℕ) (hr : SilentReasoning delta)
    (htext : textOf w ++ s.markdownBuffer = text) :
    textAfter env now delta s w = text ↔ contentText delta = [] ∨
      (extractContent env now (contentText delta) s).cleaned = s.markdownBuffer := by
  unfold textAfter
  by_cases ht : contentText delta = []
  · rw [if_pos ht]
    exact iff_of_true htext (.inl ht)
  · rw [if_neg ht, emitReasoning_silent hr, append_nil, ← htext, append_cancel_left_eq]
    exact (or_iff_right ht).symm

variable [JsonNumber N]

variable {chunks done rest : List (ℕ × Chunk N)} {c : ℕ × Chunk N}

/-- The delta of the next chunk of an admissible stream. -/
theorem carried_delta (env : Env N) (hadm : Admissible chunks)
    (hchunks : chunks = done ++ c :: rest) (hsync : Sync false s g) (h : Carried env done s w) :
    ∃ g', Sync false (translateDelta env c.1 c.2.delta s).2 g' ∧
      Carried env (done ++ [c]) (translateDelta env c.1 c.2.delta s).2
        (w ++ (translateDelta env c.1 c.2.delta s).1) := by
  have hall : chunks = (done ++ [c]) ++ rest := by
    rw [hchunks, append_assoc, singleton_append]
  have hcontent := contentText_of_noPlaceholder (hadm.noPlaceholder c (by simp [hchunks]))
  have hmarkup : firstMarker (contentOf done ++ contentText c.2.delta) = none := by
    refine firstMarker_infix hadm.noMarkup ?_
    rw [hcontent, hall, contentOf_append, contentOf_append]
    simp only [contentOf, flatMap_singleton]
    exact infix_append' [] _ _
  have hknown : ∀ done' tc rest', c.2.delta.toolCalls = done' ++ tc :: rest' →
      truthyText tc.id ≠ none ∨ ∃ tc' ∈ fragmentsOf done ++ done', tc'.idx = tc.idx := by
    intro done' tc rest' hl
    refine hadm.introduced _ tc (rest' ++ fragmentsOf rest) ?_
    rw [hall, fragmentsOf_append, fragmentsOf_append]
    simp [fragmentsOf, hl]
  obtain ⟨g', -, hsync', hd, hk, hp, hxml⟩ := delivery_translateDelta env c.1
    (P := fun s' => s'.pendingClaudeFinishChoice = none) hsync h.toDelivery h.known hknown
    (fun s' _ hp => hp.trans h.pending) fun tc _ s s' _ hm hp => hm.pending.trans hp
  obtain ⟨htext, hmarkup'⟩ := textAfter_of_noMarker env c.1 hsync h.toDelivery h.xml hmarkup
  rw [htext] at hd
  refine ⟨g', hsync', ⟨?_, ?_, hxml.trans hmarkup', hp⟩⟩
  · rw [contentOf_append, reasoningOf_append, fragmentsOf_append, accumulated, foldl_append]
    simp only [contentOf, reasoningOf, fragmentsOf, flatMap_singleton, ← hcontent]
    exact hd
  · rw [fragmentsOf_append]
    simpa [fragmentsOf] using hk

omit [Zero N] [DecidableEq N] in
theorem Carried.of_same (h : Carried env chunks s w)
    {s' : State N} (htools : s'.toolCalls = s.toolCalls)
    (hnext : s'.nextBlockIndex = s.nextBlockIndex) (hbuf : s'.markdownBuffer = s.markdownBuffer)
    (hxml : s'.xmlInvokeBuffer = s.xmlInvokeBuffer)
    (hpending : s'.pendingClaudeFinishChoice = s.pendingClaudeFinishChoice) :
    Carried env chunks s' w := by
  refine ⟨h.toDelivery.of_same htools hnext hbuf, fun tc htc => ?_, hxml.trans h.xml,
    hpending.trans h.pending⟩
  rw [htools]
  exact h.known tc htc

omit [Zero N] [DecidableEq N] in
theorem Carried.append_noChoice {chunks after : List (ℕ × Chunk N)}
    (h : Carried env chunks s w) (hafter : ∀ c ∈ after, c.2.choice = none) :
    Carried env (chunks ++ after) s w := by
  obtain ⟨hcontent, hreasoning, hfragments⟩ := nothing_of_noChoice hafter
  refine ⟨?_, ?_, h.xml, h.pending⟩
  · rw [contentOf_append, reasoningOf_append, fragmentsOf_append, hcontent, hreasoning, hfragments,
      append_nil, append_nil, append_nil]
    exact h.toDelivery
  · rw [fragmentsOf_append, hfragments, append_nil]
    exact h.known

omit [Zero N] [DecidableEq N] in
theorem carried_trackUsage (h : Carried env chunks s w) (chunk : Chunk N) :
    Carried env chunks (trackUsageFromChunk chunk s) w := by
  unfold trackUsageFromChunk
  cases chunk.usage with
  | none => exact h
  | some usage => exact h.of_same rfl rfl rfl rfl rfl

omit [Zero N] [DecidableEq N] in
/-- The first start of the message. -/
theorem carried_start (now : ℕ) (chunk : Chunk N) (h : Unstarted s)
    (hchunks : ∀ c ∈ chunks, c.2.choice = none) :
    Carried env chunks (startMessage now (some chunk) s).2
      (startMessage now (some chunk) s).1 := by
  obtain ⟨hcontent, hreasoning, hfragments⟩ := nothing_of_noChoice hchunks
  have hnot : ¬s.messageStartSent = true := by
    rw [h.notStarted]
    decide
  unfold startMessage
  simp only [if_neg hnot]
  refine ⟨⟨⟨fun idx info hget => ?_, fun _ _ => ?_, fun _ _ => rfl⟩, ?_, ?_⟩, ?_, rfl, h.pending⟩
  · rw [h.toolCalls] at hget
    cases hget
  · rw [hfragments]
    rfl
  · rw [hcontent]
    rfl
  · rw [hreasoning]
    rfl
  · rw [hfragments]
    exact fun tc htc => by cases htc

section

variable (env : Env N)

/-- A chunk with a choice, up to the decision about the finish. -/
theorem carried_choice (hadm : Admissible chunks)
    (hchunks : chunks = done ++ c :: rest) (h : Before env done s w) :
    ∃ g', Sync false ((startMessage c.1 (some c.2)).andThen (translateDelta env c.1 c.2.delta)
        (trackUsageFromChunk c.2 s)).2 g' ∧
      Carried env (done ++ [c]) ((startMessage c.1 (some c.2)).andThen
        (translateDelta env c.1 c.2.delta) (trackUsageFromChunk c.2 s)).2
        (w ++ ((startMessage c.1 (some c.2)).andThen (translateDelta env c.1 c.2.delta)
          (trackUsageFromChunk c.2 s)).1) := by
  suffices hstart : ∃ g₁, Sync false (startMessage c.1 (some c.2) (trackUsageFromChunk c.2 s)).2 g₁ ∧
      Carried env done (startMessage c.1 (some c.2) (trackUsageFromChunk c.2 s)).2
        (w ++ (startMessage c.1 (some c.2) (trackUsageFromChunk c.2 s)).1) by
    obtain ⟨g₁, hsync₁, hcarried⟩ := hstart
    rw [andThen_apply, ← append_assoc]
    exact carried_delta env hadm hchunks hsync₁ hcarried
  rcases h with ⟨hun, rfl, hdone⟩ | ⟨g, hsync, hcarried⟩
  · have ht := unstarted_trackUsage hun (some c.2)
    obtain ⟨g₁, -, hsync₁⟩ := sync_firstStartMessage c.1 c.2 (trackUsageFromChunk c.2 s) {} ⟨ht, rfl⟩
    refine ⟨g₁, hsync₁, ?_⟩
    exact carried_start c.1 c.2 ht hdone
  · have hsync' : Sync false (trackUsageFromChunk c.2 s) g := sync_trackUsage hsync (some c.2)
    have hskip : startMessage c.1 (some c.2) (trackUsageFromChunk c.2 s) =
        ([], trackUsageFromChunk c.2 s) := by
      unfold startMessage
      simp only [if_pos hsync'.started]
    rw [hskip, append_nil]
    exact ⟨g, hsync', carried_trackUsage hcarried c.2⟩

/-! ## The run up to the finish -/

theorem response_choice (hchoice : c.2.choice = some choice) (s : State N) :
    openaiToClaudeResponse env c.1 (some c.2) s =
      (((startMessage c.1 (some c.2)).andThen (translateDelta env c.1 c.2.delta)).andThen
        (closeChoice env c.2.usage.isSome false choice)) (trackUsageFromChunk c.2 s) := by
  have hdelta : c.2.delta = choice.delta := by rw [Chunk.delta, hchoice]
  rw [openaiToClaudeResponse]
  simp only [bind_some, hchoice, elim_some, hasUsage]
  rw [translateChoice_eq, andThen_assoc, hdelta]

theorem before_step (hadm : Admissible chunks) (hchunks : chunks = done ++ c :: rest)
    (hopen : ∀ choice, c.2.choice = some choice → truthyText choice.finishReason = none)
    (h : Before env done s w) :
    Before env (done ++ [c]) (openaiToClaudeResponse env c.1 (some c.2) s).2
      (w ++ (openaiToClaudeResponse env c.1 (some c.2) s).1) := by
  cases hchoice : c.2.choice with
  | some choice =>
    obtain ⟨g, hsync, hcarried⟩ := carried_choice env hadm hchunks h
    rw [response_choice env hchoice, andThen_apply,
      closeChoice_open env _ _ (hopen choice hchoice), append_nil]
    exact .inr ⟨g, hsync, hcarried⟩
  | none =>
    have hresponse : s.pendingClaudeFinishChoice = none →
        openaiToClaudeResponse env c.1 (some c.2) s = ([], trackUsageFromChunk c.2 s) := by
      intro hpending
      have hsame : (trackUsageFromChunk c.2 s).pendingClaudeFinishChoice = none := by
        rw [← hpending]
        unfold trackUsageFromChunk
        cases c.2.usage <;> rfl
      rw [openaiToClaudeResponse]
      simp only [bind_some, hchoice, elim_some, hsame]
    rcases h with ⟨hun, rfl, hdone⟩ | ⟨g, hsync, hcarried⟩
    · rw [hresponse hun.pending]
      refine .inl ⟨unstarted_trackUsage hun (some c.2), rfl, fun c' hc' => ?_⟩
      rcases mem_append.1 hc' with hc' | hc'
      · exact hdone c' hc'
      · rw [mem_singleton.1 hc', hchoice]
    · rw [hresponse hcarried.pending, append_nil]
      exact .inr ⟨g, sync_trackUsage hsync (some c.2),
        (carried_trackUsage hcarried c.2).append_noChoice fun c' hc' => by
          rw [mem_singleton.1 hc', hchoice]⟩

/-- The calls for the chunks of a stream. -/
def chunkCalls (chunks : List (ℕ × Chunk N)) : List (Call N) := chunks.map fun c => (c.1, some c.2)

theorem before_run {before : List (ℕ × Chunk N)} (hadm : Admissible chunks)
    (hchunks : chunks = done ++ (before ++ rest))
    (hopen : ∀ c ∈ before, ∀ choice, c.2.choice = some choice →
      truthyText choice.finishReason = none) (h : Before env done s w) :
    Before env (done ++ before) (translateAll env (chunkCalls before) s).2
      (w ++ (translateAll env (chunkCalls before) s).1) := by
  induction before generalizing done s w with
  | nil =>
    rw [append_nil]
    exact (append_nil w).symm ▸ h
  | cons c before ih =>
    have hstep := before_step env hadm hchunks (hopen c mem_cons_self) h
    have hrest := ih (by rw [hchunks]; simp)
      (fun c' hc' => hopen c' (.tail _ hc')) hstep
    rw [append_assoc, singleton_append, append_assoc] at hrest
    exact hrest

/-! ## The finish and after -/

/-- Without a choice and without a stored one a call sends nothing. -/
theorem response_idle (call : Call N) {s : State N}
    (hchoice : (call.2.bind fun c => c.choice) = none)
    (hpending : s.pendingClaudeFinishChoice = none) :
    (openaiToClaudeResponse env call.1 call.2 s).1 = [] ∧
      (openaiToClaudeResponse env call.1 call.2 s).2.toolCalls = s.toolCalls ∧
      (openaiToClaudeResponse env call.1 call.2 s).2.pendingClaudeFinishChoice = none := by
  have hsame : (call.2.elim s fun chunk => trackUsageFromChunk chunk s).pendingClaudeFinishChoice =
      none ∧ (call.2.elim s fun chunk => trackUsageFromChunk chunk s).toolCalls = s.toolCalls := by
    cases call.2 with
    | none => exact ⟨hpending, rfl⟩
    | some chunk =>
      rw [elim_some, trackUsageFromChunk]
      cases chunk.usage with
      | _ => exact ⟨hpending, rfl⟩
  rw [openaiToClaudeResponse]
  simp only [hchoice, hsame.1]
  exact ⟨trivial, hsame.2, trivial⟩

theorem run_idle {calls : List (Call N)} {s : State N}
    (hchoice : ∀ call ∈ calls, (call.2.bind fun c => c.choice) = none)
    (hpending : s.pendingClaudeFinishChoice = none) :
    (translateAll env calls s).1 = [] ∧ (translateAll env calls s).2.toolCalls = s.toolCalls := by
  induction calls generalizing s with
  | nil => exact ⟨rfl, rfl⟩
  | cons call calls ih =>
    obtain ⟨hnil, htools, hpending'⟩ := response_idle env call (hchoice call mem_cons_self)
      hpending
    obtain ⟨hrest, hrestTools⟩ := ih (fun c hc => hchoice c (.tail _ hc)) hpending'
    rw [translateAll, forEach_cons, andThen_apply, hnil]
    exact ⟨hrest, hrestTools.trans htools⟩

/-- A delta that adds nothing to a state where it has been translated once. -/
structure AddsNothing (env : Env N) (now : ℕ) (delta : Delta N) (s : State N) : Prop where
  reasoning : SilentReasoning delta
  content : contentText delta = [] ∨
    (extractContent env now (contentText delta) s).cleaned = s.markdownBuffer
  arguments : ∀ tc ∈ delta.toolCalls, ∀ info, s.toolCalls.get tc.idx = some info →
    info.shimmed = false → normalizeIncomingFragment tc.arguments = [] ∨
      normalizeIncomingFragment tc.arguments = info.argBuffer

omit [Zero N] [DecidableEq N] in
/-- The arguments stay when every fragment is empty or repeats what its tool call has, shimmed
tools apart. -/
theorem arguments_eq_iff (h : Delivery text thinking acc s w) (fragments : List (ToolCallDelta N)) :
    (∀ idx i, toolView s idx = some (i, false) → accumulated acc fragments idx = acc idx) ↔
      ∀ tc ∈ fragments, ∀ info, s.toolCalls.get tc.idx = some info → info.shimmed = false →
        normalizeIncomingFragment tc.arguments = [] ∨
          normalizeIncomingFragment tc.arguments = info.argBuffer := by
  constructor
  · intro hargs tc htc info hget hshim
    have hview : toolView s tc.idx = some (info.blockIndex, false) := by
      rw [toolView, hget, map_some, hshim]
    rw [(h.args tc.idx info hget).1]
    exact (accumulated_eq_self_iff acc fragments tc.idx).1 (hargs _ _ hview) tc htc rfl
  · intro hargs idx i hview
    obtain ⟨info, hget, hinfo⟩ := map_eq_some_iff.1 hview
    refine (accumulated_eq_self_iff acc fragments idx).2 fun tc htc hidx => ?_
    rw [← (h.args idx info hget).1]
    exact hargs tc htc info (hidx ▸ hget) (Prod.mk.inj hinfo).2

/-- The stored choice is translated again and everything is closed. -/
theorem delivered_flush (now : ℕ) (hasChunkUsage : Bool)
    (hreason : truthyText choice.finishReason = some finishReason)
    (hmem : ∀ tc ∈ choice.delta.toolCalls, tc ∈ fragmentsOf chunks) (hsync : Sync false s g)
    (h : Carried env chunks s w) :
    ((translateDelta env now choice.delta).andThen
        (closeChoice env hasChunkUsage true choice) s).2.pendingClaudeFinishChoice = none ∧
      toolView ((translateDelta env now choice.delta).andThen
        (closeChoice env hasChunkUsage true choice) s).2 = toolView s ∧
      (DeliveredBy (contentOf chunks) (reasoningOf chunks)
        (accumulated (fun _ => []) (fragmentsOf chunks))
        ((translateDelta env now choice.delta).andThen
          (closeChoice env hasChunkUsage true choice) s).2
        (w ++ ((translateDelta env now choice.delta).andThen
          (closeChoice env hasChunkUsage true choice) s).1) ↔
        AddsNothing env now choice.delta s) := by
  obtain ⟨g', -, hsync', hd, -, ⟨hview, hpending⟩, -⟩ := delivery_translateDelta env now
    (P := fun s' => toolView s' = toolView s ∧ s'.pendingClaudeFinishChoice = none) hsync
    h.toDelivery h.known
    (fun done tc rest hl => .inr ⟨tc, mem_append_left _ (hmem tc (by simp [hl])), rfl⟩)
    (fun s' htools hp => ⟨by funext idx; rw [toolView, htools, toolView], hp.trans h.pending⟩)
    fun tc htc s s' hk hm hp => ⟨(toolView_moves (hmem tc htc) hk hm).trans hp.1,
      hm.pending.trans hp.2⟩
  rw [andThen_apply, closeChoice_finish env hreason (.inr rfl) hsync'.finished]
  obtain ⟨hdone, hview', hpending'⟩ := delivered_emitFinish env finishReason hsync' hd
  have hviews := hview'.trans hview
  refine ⟨hpending'.trans hpending, hviews, ?_⟩
  rw [← append_assoc]
  refine (deliveredBy_iff hdone).trans ?_
  rw [hviews, append_right_eq_self, sentReasoning_eq_nil,
    arguments_eq_iff h.toDelivery choice.delta.toolCalls]
  constructor
  · rintro ⟨htext, hsilent, hargs⟩
    exact ⟨hsilent, (textAfter_eq_iff env now hsilent h.text).1 htext, hargs⟩
  · rintro ⟨hsilent, hcontent, hargs⟩
    exact ⟨(textAfter_eq_iff env now hsilent h.text).2 hcontent, hsilent, hargs⟩

theorem addsNothing_of_same (now : ℕ) (delta : Delta N) {s' : State N}
    (hbuf : s'.markdownBuffer = s.markdownBuffer) (hxml : s'.xmlInvokeBuffer = s.xmlInvokeBuffer)
    (htools : s'.toolCalls = s.toolCalls) :
    AddsNothing env now delta s' ↔ AddsNothing env now delta s := by
  have hextract : extractContent env now (contentText delta) s' =
      extractContent env now (contentText delta) s := by
    rw [extractContent, extractContent, hbuf, hxml]
  constructor
  · rintro ⟨hr, hc, ha⟩
    exact ⟨hr, by rwa [hextract, hbuf] at hc, by rwa [htools] at ha⟩
  · rintro ⟨hr, hc, ha⟩
    exact ⟨hr, by rwa [hextract, hbuf], by rwa [htools]⟩

/-- A stored choice is translated at the next call without a choice. -/
theorem delivered_response {call : Call N} (hchoice : (call.2.bind fun c => c.choice) = none)
    (hreason : truthyText choice.finishReason = some finishReason)
    (hmem : ∀ tc ∈ choice.delta.toolCalls, tc ∈ fragmentsOf chunks) (hsync : Sync false s g)
    (h : Carried env chunks s w) :
    (openaiToClaudeResponse env call.1 call.2
        { s with pendingClaudeFinishChoice := some choice }).2.pendingClaudeFinishChoice = none ∧
      toolView (openaiToClaudeResponse env call.1 call.2
        { s with pendingClaudeFinishChoice := some choice }).2 = toolView s ∧
      (DeliveredBy (contentOf chunks) (reasoningOf chunks)
        (accumulated (fun _ => []) (fragmentsOf chunks))
        (openaiToClaudeResponse env call.1 call.2
          { s with pendingClaudeFinishChoice := some choice }).2
        (w ++ (openaiToClaudeResponse env call.1 call.2
          { s with pendingClaudeFinishChoice := some choice }).1) ↔
        AddsNothing env call.1 choice.delta s) := by
  -- The usage of the chunk is all that changes before the choice is translated.
  obtain ⟨u, hu, hsync', hcarried', hbuf, hxml, htools⟩ : ∃ u,
      openaiToClaudeResponse env call.1 call.2 { s with pendingClaudeFinishChoice := some choice } =
        translateChoice env call.1 call.2 (hasUsage call.2) true choice u ∧
      Sync false u g ∧ Carried env chunks u w ∧ u.markdownBuffer = s.markdownBuffer ∧
      u.xmlInvokeBuffer = s.xmlInvokeBuffer ∧ u.toolCalls = s.toolCalls := by
    obtain ⟨now, chunk⟩ := call
    rw [openaiToClaudeResponse]
    cases chunk with
    | none =>
      exact ⟨{ s with pendingClaudeFinishChoice := none }, rfl, hsync.of_same rfl,
        h.of_same rfl rfl rfl rfl h.pending.symm, rfl, rfl, rfl⟩
    | some chunk =>
      have hnone : chunk.choice = none := hchoice
      simp only [bind_some, hnone, elim_some, trackUsageFromChunk]
      cases chunk.usage with
      | none =>
        exact ⟨{ s with pendingClaudeFinishChoice := none }, rfl, hsync.of_same rfl,
          h.of_same rfl rfl rfl rfl h.pending.symm, rfl, rfl, rfl⟩
      | some usage =>
        exact ⟨_, rfl, hsync.of_same rfl, h.of_same rfl rfl rfl rfl h.pending.symm, rfl, rfl, rfl⟩
  have hstart : startMessage call.1 call.2 u = ([], u) := by
    unfold startMessage
    cases call.2 with
    | none => rfl
    | some chunk => simp only [if_pos hsync'.started]
  have hview : toolView u = toolView s := by
    funext idx
    rw [toolView, htools, toolView]
  rw [hu, translateChoice_eq, andThen_of_eq hstart, nil_append]
  obtain ⟨hpending, hviews, hiff⟩ := delivered_flush env call.1 (hasUsage call.2)
    hreason hmem hsync' hcarried'
  exact ⟨hpending, hviews.trans hview,
    hiff.trans (addsNothing_of_same env call.1 choice.delta hbuf hxml htools)⟩

end

end Deltas

/-! ## Streams -/

section Streams

variable [Zero N] [DecidableEq N] [JsonNumber N]

/-- All events of a stream, and the state at its end. -/
def streamResult (env : Env N) (chunks : List (ℕ × Chunk N)) (endTime : ℕ) :
    List (ClaudeEvent N) × State N :=
  translateAll env (streamCalls chunks endTime) {}

/-- The state after some chunks. -/
def stateAfter (env : Env N) (chunks : List (ℕ × Chunk N)) : State N :=
  (translateAll env (chunkCalls chunks) {}).2

/-- Text and reasoning are sent as they come in, every tool call is known at the end, and the
arguments of those that are not shimmed are sent as they come in. -/
structure Delivered (env : Env N) (chunks : List (ℕ × Chunk N)) (endTime : ℕ) : Prop where
  text : textOf (streamResult env chunks endTime).1 = contentOf chunks
  thinking : thinkingOf (streamResult env chunks endTime).1 = reasoningOf chunks
  known : ∀ tc ∈ fragmentsOf chunks,
    (streamResult env chunks endTime).2.toolCalls.get tc.idx ≠ none
  args : ∀ idx info, (streamResult env chunks endTime).2.toolCalls.get idx = some info →
    info.shimmed = false → jsonOf info.blockIndex (streamResult env chunks endTime).1 =
      argumentsOf idx (fragmentsOf chunks)

/-- The time of the first call after the finish chunk. -/
def flushTime (after : List (ℕ × Chunk N)) (endTime : ℕ) : ℕ :=
  match after with
  | [] => endTime
  | c :: _ => c.1

variable {env : Env N} {before after chunks : List (ℕ × Chunk N)} {finish : ℕ × Chunk N}
  {choice : Choice N} {endTime : ℕ}

/-- Only the table of tool calls at the end matters, next to the events. -/
theorem delivered_iff_deliveredBy {s₁ s₂ : State N} {w : List (ClaudeEvent N)}
    (hincrements : Increments (fragmentsOf chunks)) (hknown : Known env (fragmentsOf chunks) s₁)
    (hview : toolView s₂ = toolView s₁) (hw : (streamResult env chunks endTime).1 = w)
    (htools : (streamResult env chunks endTime).2.toolCalls = s₂.toolCalls) :
    Delivered env chunks endTime ↔ DeliveredBy (contentOf chunks) (reasoningOf chunks)
      (accumulated (fun _ => []) (fragmentsOf chunks)) s₂ w := by
  rw [accumulated_of_increments hincrements]
  subst hw
  constructor
  · intro h
    refine ⟨h.text, h.thinking, fun idx i hi => ?_⟩
    obtain ⟨info, hget, hinfo⟩ := map_eq_some_iff.1 hi
    obtain ⟨rfl, hshim⟩ := Prod.mk.inj hinfo
    rw [← htools] at hget
    exact h.args idx info hget hshim
  · intro h
    refine ⟨h.text, h.thinking, fun tc htc hnone => ?_, fun idx info hget hshim => ?_⟩
    · obtain ⟨info, hget, -⟩ := hknown tc htc
      have hsome := congrFun hview tc.idx
      rw [toolView, toolView, ← htools, hnone, hget] at hsome
      cases hsome
    · refine h.args idx info.blockIndex ?_
      rw [toolView, ← htools, hget, map_some, hshim]

/-- A stream is delivered once exactly when the finish chunk has usage, or its delta adds nothing
to the state after it. -/
theorem delivered_iff (hadm : Admissible (before ++ finish :: after))
    (hfin : FinishesWith before finish choice after) :
    Delivered env (before ++ finish :: after) endTime ↔ finish.2.usage.isSome = true ∨
      AddsNothing env (flushTime after endTime) choice.delta
        (stateAfter env (before ++ [finish])) := by
  have hunstarted : Before env [] ({} : State N) [] :=
    .inl ⟨⟨rfl, rfl, rfl, fun _ => rfl, rfl, rfl⟩, rfl, fun c hc => by cases hc⟩
  have hbefore := before_run env hadm rfl hfin.before hunstarted
  rw [nil_append, nil_append] at hbefore
  obtain ⟨g, hsync, hcarried⟩ := carried_choice env hadm rfl hbefore
  have hcarried := hcarried.append_noChoice hfin.after
  rw [append_assoc, singleton_append] at hcarried
  have hresponse := response_choice env hfin.chosen (translateAll env (chunkCalls before) {}).2
  have hstate : stateAfter env (before ++ [finish]) = (openaiToClaudeResponse env finish.1
      (some finish.2) (translateAll env (chunkCalls before) {}).2).2 := by
    rw [stateAfter, chunkCalls, map_append, translateAll, forEach_append]
    rfl
  have hresult : streamResult env (before ++ finish :: after) endTime =
      ((translateAll env (chunkCalls before) {}).1 ++ ((openaiToClaudeResponse env finish.1
        (some finish.2) (translateAll env (chunkCalls before) {}).2).1 ++
        (translateAll env (streamCalls after endTime) (stateAfter env (before ++ [finish]))).1),
      (translateAll env (streamCalls after endTime) (stateAfter env (before ++ [finish]))).2) := by
    rw [hstate, streamResult, streamCalls, map_append, map_cons, append_assoc,
      cons_append, translateAll, forEach_append]
    rfl
  rw [hresponse, andThen_apply] at hstate hresult
  generalize ((startMessage finish.1 (some finish.2)).andThen
    (translateDelta env finish.1 finish.2.delta) (trackUsageFromChunk finish.2
      (translateAll env (chunkCalls before) {}).2)) = t at *
  generalize (translateAll env (chunkCalls before) {}).1 = w at *
  obtain ⟨finishReason, hreason⟩ := ne_none_iff_exists'.1 hfin.reason
  have hidle : ∀ call ∈ streamCalls after endTime, (call.2.bind fun c => c.choice) = none := by
    intro call hmem
    rcases mem_append.1 hmem with hmem | hmem
    · obtain ⟨c, hc, rfl⟩ := mem_map.1 hmem
      exact hfin.after c hc
    · rw [mem_singleton.1 hmem]
      rfl
  by_cases husage : finish.2.usage.isSome = true
  · rw [husage, closeChoice_finish env hreason (.inl rfl) hsync.finished] at hstate hresult
    obtain ⟨hdone, hview, hpending⟩ := delivered_emitFinish env finishReason hsync
      hcarried.toDelivery
    obtain ⟨hnil, htools⟩ := run_idle env (s := stateAfter env (before ++ [finish])) hidle (by
      rw [hstate]
      exact hpending.trans hcarried.pending)
    rw [hstate] at hnil htools
    rw [hstate] at hresult
    have hw : (streamResult env (before ++ finish :: after) endTime).1 =
        w ++ t.1 ++ (emitFinish env finishReason t.2).1 := by
      rw [hresult]
      simp only [hnil, append_nil, append_assoc]
    refine iff_of_true ((delivered_iff_deliveredBy hadm.increments hcarried.known hview hw ?_).2
      hdone) (.inl husage)
    rw [hresult]
    exact htools
  · rw [Bool.eq_false_iff.2 husage, closeChoice_store env hreason hsync.finished, append_nil]
      at hstate hresult
    obtain ⟨call, calls, hcalls, hnow⟩ : ∃ call calls, streamCalls after endTime = call :: calls ∧
        call.1 = flushTime after endTime := by
      cases after with
      | nil => exact ⟨(endTime, none), [], rfl, rfl⟩
      | cons c after => exact ⟨(c.1, some c.2), streamCalls after endTime, rfl, rfl⟩
    have hmem : ∀ tc ∈ choice.delta.toolCalls, tc ∈ fragmentsOf (before ++ finish :: after) := by
      intro tc htc
      refine mem_flatMap.2 ⟨finish, by simp, ?_⟩
      rw [Chunk.delta, hfin.chosen]
      exact htc
    rw [hcalls] at hidle hresult
    obtain ⟨hpending, hview, hiff⟩ := delivered_response env (hidle call mem_cons_self) hreason
      hmem hsync hcarried
    obtain ⟨hnil, htools⟩ := run_idle env (fun c hc => hidle c (.tail _ hc)) hpending
    rw [hstate, translateAll, forEach_cons, andThen_apply] at hresult
    have hw : (streamResult env (before ++ finish :: after) endTime).1 = w ++ t.1 ++
        (openaiToClaudeResponse env call.1 call.2
          { t.2 with pendingClaudeFinishChoice := some choice }).1 := by
      rw [hresult, ← translateAll]
      simp only [hnil, append_nil, append_assoc]
    rw [or_iff_right husage, ← hnow, hstate]
    refine (delivered_iff_deliveredBy hadm.increments hcarried.known hview hw ?_).trans
      (hiff.trans (Iff.symm ?_))
    · rw [hresult]
      exact htools
    · exact addsNothing_of_same env call.1 choice.delta rfl rfl rfl

end Streams

/-- Reasoning and a tool call whose last fragment comes with the finish reason and the usage. -/
def usageAtFinish : List (ℕ × Chunk ℤ) × (ℕ × Chunk ℤ) × Choice ℤ :=
  ([(0, { choice := some { delta := {
      reasoningContent := some "Look."
      toolCalls := [{ id := some "call_1", name := some "find", arguments := .str "a" }] } } })],
    (1, { usage := some {}
          choice := some { delta := { content := some "Hi", toolCalls := [{ arguments := .str "b" }] }
                           finishReason := some "tool_calls" } }),
    { delta := { content := some "Hi", toolCalls := [{ arguments := .str "b" }] }
      finishReason := some "tool_calls" })

theorem usageAtFinish_delivered :
    Delivered plainEnv (usageAtFinish.1 ++ usageAtFinish.2.1 :: []) 2 := by
  have hsplit : ∀ done tc rest, fragmentsOf (usageAtFinish.1 ++ usageAtFinish.2.1 :: []) =
      done ++ tc :: rest → (done = [] ∧ tc.id = some "call_1") ∨
        (∃ first, done = [first] ∧ first.idx = tc.idx) ∧
          argumentsOf tc.idx done = ['a'] ∧ normalizeIncomingFragment tc.arguments = ['b'] := by
    intro done tc rest h
    have hlist : fragmentsOf (usageAtFinish.1 ++ usageAtFinish.2.1 :: []) =
        [{ id := some "call_1", name := some "find", arguments := .str "a" },
          { arguments := .str "b" }] := rfl
    rw [hlist] at h
    rcases done with _ | ⟨first, _ | ⟨second, done⟩⟩
    · obtain ⟨rfl, -⟩ := cons.inj h
      exact .inl ⟨rfl, rfl⟩
    · obtain ⟨rfl, hrest⟩ := cons.inj h
      obtain ⟨rfl, -⟩ := cons.inj hrest
      exact .inr ⟨⟨_, rfl, rfl⟩, by decide +kernel, by decide +kernel⟩
    · obtain ⟨-, hrest⟩ := cons.inj h
      obtain ⟨-, hnil⟩ := cons.inj hrest
      cases done <;> cases hnil
  refine (delivered_iff ⟨?_, ?_, fun done tc rest h => ?_,
    fun done tc rest h => ?_⟩ ⟨?_, rfl, ?_, ?_⟩).2 (.inl rfl)
  · decide +kernel
  · decide +kernel
  · rcases hsplit done tc rest h with ⟨-, hid⟩ | ⟨⟨first, rfl, hidx⟩, -⟩
    · exact .inl (by rw [hid]; decide)
    · exact .inr ⟨first, mem_singleton_self _, hidx⟩
  · rcases hsplit done tc rest h with ⟨rfl, -⟩ | ⟨-, hargs, hnext⟩
    · exact .inl rfl
    · rw [hargs, hnext]
      exact .inr (by decide)
  · intro c hc choice hchoice
    rw [mem_singleton.1 hc] at hchoice
    cases hchoice
    rfl
  · decide
  · exact fun c hc => by cases hc

/-- The content of a finish chunk without usage. -/
def contentAtFinish : ℕ × Chunk ℤ :=
  (0, { choice := some { delta := { content := some "Hi" }, finishReason := some "stop" } })

theorem contentAtFinish_twice : Admissible [contentAtFinish] ∧
    (∃ choice, FinishesWith [] contentAtFinish choice []) ∧
    ¬Delivered plainEnv [contentAtFinish] 1 := by
  refine ⟨⟨?_, ?_, ?_, ?_⟩, ⟨_, ?_, rfl, ?_, ?_⟩, fun h => ?_⟩
  · decide +kernel
  · decide +kernel
  · intro done tc rest h
    simp [fragmentsOf, contentAtFinish, Chunk.delta] at h
  · intro done tc rest h
    simp [fragmentsOf, contentAtFinish, Chunk.delta] at h
  · exact fun c hc => by cases hc
  · decide
  · exact fun c hc => by cases hc
  · exact absurd h.text (by decide +kernel)

end OmniRoute.ClaudeStream
