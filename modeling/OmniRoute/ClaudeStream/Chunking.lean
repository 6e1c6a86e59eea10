import OmniRoute.ClaudeStream.Extraction
import OmniRoute.ClaudeStream.Once

/-!
# Tool calls in text that comes in parts

A text that comes in any number of chunks, a finish chunk and the end of the stream. The text that
is sent and the calls that are found in it are those of the text in one chunk as long as no chunk
ends inside a marker, nothing is held back for Markdown before a marker whose block goes on, and no
block is left open at the end.

**Main result (`intact_sameAsWhole`).** Such a run sends the same text and the same calls as one
with the whole text in one chunk, and every character outside complete blocks.
-/

namespace OmniRoute.ClaudeStream

open List Emitter

variable {N : Type}

/-- The calls that are sent as blocks. -/
def usesOf (events : List (ClaudeEvent N)) : List (String × Json N) :=
  events.filterMap fun
    | .contentBlockStart _ (.toolUse _ name input) => some (name, input)
    | _ => none

theorem usesOf_append (l₁ l₂ : List (ClaudeEvent N)) : usesOf (l₁ ++ l₂) = usesOf l₁ ++ usesOf l₂ :=
  filterMap_append

/-- A chunk that brings a part of the text and nothing else. -/
def IsText (chunk : Chunk N) : Prop :=
  ∃ content, chunk.choice = some { delta := { content := some content } }

/-- A chunk that finishes the message and brings nothing else. -/
def IsFinish (chunk : Chunk N) : Prop :=
  ∃ reason, reason ≠ "" ∧ chunk.choice = some { finishReason := some reason }

/-- A text in one chunk. -/
def wholeChunk (text : List Char) : ℕ × Chunk N :=
  (0, { choice := some { delta := { content := some (String.ofList text) } } })

/-! ## Calls that wait for the finish -/

/-- A part that neither finds nor sends a call. -/
def KeepsCalls (s : State N) (r : List (ClaudeEvent N) × State N) : Prop :=
  r.2.pendingXmlToolCalls = s.pendingXmlToolCalls ∧ usesOf r.1 = []

variable {s : State N}

theorem KeepsCalls.andThen {m n : Stream N} (hm : KeepsCalls s (m s))
    (hn : KeepsCalls (m s).2 (n (m s).2)) : KeepsCalls s (m.andThen n s) := by
  refine ⟨hn.1.trans hm.1, ?_⟩
  rw [andThen_apply, usesOf_append, hm.2, hn.2]
  rfl

theorem keepsCalls_stopThinkingBlock (s : State N) : KeepsCalls s (stopThinkingBlock s) := by
  unfold stopThinkingBlock
  split <;> exact ⟨rfl, rfl⟩

theorem keepsCalls_startTextBlock (s : State N) : KeepsCalls s (startTextBlock s) := by
  unfold startTextBlock
  split <;> exact ⟨rfl, rfl⟩

theorem keepsCalls_emitTextDelta (text : List Char) (s : State N) :
    KeepsCalls s (emitTextDelta text s) := ⟨rfl, rfl⟩

theorem keepsCalls_flushMarkdownBuffer (s : State N) : KeepsCalls s (flushMarkdownBuffer s) := by
  unfold flushMarkdownBuffer
  dsimp only
  split
  · exact ⟨rfl, rfl⟩
  · have hstart := keepsCalls_startTextBlock { s with markdown := {}, markdownBuffer := [] }
    refine KeepsCalls.andThen hstart ?_
    rw [onState_apply]
    split
    · exact ⟨rfl, rfl⟩
    · exact keepsCalls_emitTextDelta _ _

theorem keepsCalls_stopTextBlock (s : State N) : KeepsCalls s (stopTextBlock s) := by
  refine (keepsCalls_flushMarkdownBuffer s).andThen ?_
  unfold stopStartedTextBlock
  split <;> exact ⟨rfl, rfl⟩

theorem keepsCalls_emitText (text : List Char) (s : State N) : KeepsCalls s (emitText text s) := by
  unfold emitText
  split
  · exact ⟨rfl, rfl⟩
  · exact (keepsCalls_startTextBlock s).andThen (keepsCalls_emitTextDelta text _)

theorem keepsCalls_sendText (cleaned : List Char) (s : State N) :
    KeepsCalls s (sendText cleaned s) := by
  rw [sendText, onState_apply]
  exact KeepsCalls.andThen (m := .update _) ⟨rfl, rfl⟩ (keepsCalls_emitText _ _)

/-- The calls found in a text wait behind those found before. -/
theorem calls_queueToolCalls (toolCalls : List (XmlToolCall N)) (s : State N) :
    (queueToolCalls toolCalls s).2.pendingXmlToolCalls = s.pendingXmlToolCalls ++ toolCalls ∧
      usesOf (queueToolCalls toolCalls s).1 = [] := by
  unfold queueToolCalls
  split
  · next hnil =>
    rw [hnil]
    exact ⟨(append_nil _).symm, rfl⟩
  · obtain ⟨hpending, huses⟩ := keepsCalls_stopTextBlock s
    rw [andThen_apply, update_apply]
    refine ⟨congrArg (· ++ toolCalls) hpending, ?_⟩
    rw [usesOf_append, huses]
    rfl

section Streams

theorem indexOfLiteral_part {literal text part : List Char}
    (h : indexOfLiteral literal text = none) (hpart : part <:+: text) :
    indexOfLiteral literal part = none := by
  obtain ⟨a, z, rfl⟩ := hpart
  cases hindex : indexOfLiteral literal part with
  | none => rfl
  | some i =>
    exfalso
    induction a with
    | nil =>
      rw [nil_append, (indexOfLiteral_append hindex z).1] at h
      cases h
    | cons c a ih =>
      rw [cons_append, cons_append, indexOfLiteral] at h
      split at h
      · cases h
      · exact ih (Option.map_eq_none_iff.1 h)

variable (env : Env N)

theorem usesOf_finishXmlToolCalls (toolCalls : List (XmlToolCall N)) (s : State N) :
    usesOf (Emitter.forEach (finishXmlToolCall env) toolCalls s).1 =
      (namedCalls toolCalls).map fun call => (env.restoreClaudeToolName call.1, call.2) := by
  induction toolCalls generalizing s with
  | nil => rfl
  | cons call toolCalls ih =>
    rw [forEach_cons, andThen_apply, usesOf_append, ih]
    rfl

/-- The finish sends the text that is held back and the calls that wait. -/
theorem emitFinish_effect (finishReason : String) {g : Reader}
    (hsync : Sync false s g) (htools : ∀ idx, s.toolCalls.get idx = none) :
    textOf (emitFinish env finishReason s).1 = s.markdownBuffer ∧
      usesOf (emitFinish env finishReason s).1 = (namedCalls s.pendingXmlToolCalls).map
        (fun call => (env.restoreClaudeToolName call.1, call.2)) ∧
      (emitFinish env finishReason s).2.pendingClaudeFinishChoice =
        s.pendingClaudeFinishChoice := by
  obtain ⟨hkeep, hbuf⟩ := keeps_stopBoth { s with claudeFinishEmitted := true } hsync.textOpen
  obtain ⟨hcalls, huses⟩ : KeepsCalls { s with claudeFinishEmitted := true }
      (stopThinkingBlock.andThen stopTextBlock { s with claudeFinishEmitted := true }) :=
    (keepsCalls_stopThinkingBlock _).andThen (keepsCalls_stopTextBlock _)
  rw [emitFinish, andThen_assoc stopThinkingBlock, andThen_apply,
    update_apply, nil_append, andThen_apply]
  generalize stopThinkingBlock.andThen stopTextBlock { s with claudeFinishEmitted := true } = r at *
  have hentries : r.2.toolCalls.entries = [] := by
    refine eq_nil_iff_forall_not_mem.2 fun p hp => ?_
    have hget := OrdMap.get_eq_some.2 hp
    rw [hkeep.toolCalls] at hget
    rw [show ({ s with claudeFinishEmitted := true } : State N).toolCalls.get p.1 = none from
      htools p.1] at hget
    cases hget
  have hnone : (Emitter.onState fun s : State N =>
      .forEach (finishToolCall env) s.toolCalls.entries) r.2 = ([], r.2) := by
    rw [onState_apply, hentries]
    rfl
  obtain ⟨htext, -, -, -, hpending⟩ :=
    finishXmlToolCalls_effect env r.2.pendingXmlToolCalls r.2
  have hxml := usesOf_finishXmlToolCalls env r.2.pendingXmlToolCalls r.2
  rw [andThen_of_eq hnone, nil_append, andThen_apply, onState_apply]
  generalize Emitter.forEach (finishXmlToolCall env) r.2.pendingXmlToolCalls r.2 = r₂ at *
  refine ⟨?_, ?_, hpending.trans hkeep.pending⟩
  · have hsent := hkeep.text
    rw [hbuf, append_nil] at hsent
    rw [textOf_append, hsent, textOf_append, htext]
    exact append_nil _
  · rw [usesOf_append, huses, usesOf_append, hxml, hcalls]
    exact append_nil _

theorem contentOf_wholeChunk (text : List Char) :
    contentOf [(wholeChunk text : ℕ × Chunk N)] = text := by
  rw [contentOf, flatMap_singleton]
  exact String.toList_ofList

variable [Zero N] [DecidableEq N]

theorem calls_emitContent (now : ℕ) (delta : Delta N) (s : State N) :
    (emitContent env now delta s).2.pendingXmlToolCalls = s.pendingXmlToolCalls ++
        (if contentText delta = [] then []
          else (extractContent env now (contentText delta) s).toolCalls) ∧
      usesOf (emitContent env now delta s).1 = [] := by
  unfold emitContent
  by_cases ht : contentText delta = []
  · simp only [if_pos ht]
    exact ⟨(append_nil _).symm, rfl⟩
  simp only [if_neg ht]
  obtain ⟨hstop, hstopUses⟩ := keepsCalls_stopThinkingBlock s
  have hextract : extractContent env now (contentText delta) (stopThinkingBlock s).2 =
      extractContent env now (contentText delta) s := by
    unfold extractContent stopThinkingBlock
    split <;> rfl
  rw [andThen_apply, onState_apply, hextract]
  generalize extractContent env now (contentText delta) s = extracted
  rw [andThen_apply, update_apply, nil_append, andThen_apply]
  obtain ⟨hqueue, hqueueUses⟩ := calls_queueToolCalls extracted.toolCalls
    { (stopThinkingBlock s).2 with
      markdownBuffer := [], xmlInvokeBuffer := extracted.buffer }
  obtain ⟨hsend, hsendUses⟩ := keepsCalls_sendText extracted.cleaned (queueToolCalls
    extracted.toolCalls { (stopThinkingBlock s).2 with
      markdownBuffer := [], xmlInvokeBuffer := extracted.buffer }).2
  refine ⟨?_, ?_⟩
  · exact (hsend.trans hqueue).trans (congrArg (· ++ extracted.toolCalls) hstop)
  · rw [usesOf_append, usesOf_append, hstopUses, hqueueUses, hsendUses]
    rfl

variable [JsonNumber N]

/-- The next part of the text cuts no marker, completes none that begins in the text held back, and
does not find both a block that is open and text that is held back. -/
structure IntactStep (s : State N) (read content : List Char) : Prop where
  uncut : Uncut s.xmlInvokeBuffer.length read content
  held : ∀ t, t <:+ s.markdownBuffer → t ≠ [] → markerAt (t ++ content) = none
  ordered : s.xmlInvokeBuffer = [] ∨ s.markdownBuffer = []

/-- A text without the placeholder, each part of which cuts nothing, and no open block at its end. -/
structure Intact (env : Env N) (pieces : List (ℕ × Chunk N)) : Prop where
  noPlaceholder :
    indexOfLiteral nonAnthropicThinkingPlaceholder.toList (contentOf pieces) = none
  steps : ∀ done p rest, pieces = done ++ p :: rest →
    IntactStep (stateAfter env done) (contentOf done) (contentOf [p])
  closed : (stateAfter env pieces).xmlInvokeBuffer = []

/-- The run sends what the whole text in one chunk would send, and all that is outside blocks. -/
structure SameAsWhole (env : Env N) (pieces : List (ℕ × Chunk N)) (finish : ℕ × Chunk N)
    (endTime : ℕ) : Prop where
  text : textOf (streamResult env (pieces ++ [finish]) endTime).1 =
    textOf (streamResult env [wholeChunk (contentOf pieces), finish] endTime).1
  uses : usesOf (streamResult env (pieces ++ [finish]) endTime).1 =
    usesOf (streamResult env [wholeChunk (contentOf pieces), finish] endTime).1
  keeps : KeepsOutside (contentOf pieces) (textOf (streamResult env (pieces ++ [finish]) endTime).1)

/-! ## The text read so far -/

/-- The text so far is extracted: what is left of it is sent and held back, the calls in it wait. -/
structure Carries (env : Env N) (read : List Char) (s : State N) (w : List (ClaudeEvent N)) :
    Prop where
  sync : ∃ g, Sync false s g
  extracts : Extracts env.parseJson read (textOf w ++ s.markdownBuffer)
    (namedCalls s.pendingXmlToolCalls) s.xmlInvokeBuffer
  toolCalls : ∀ idx, s.toolCalls.get idx = none
  uses : usesOf w = []
  pending : s.pendingClaudeFinishChoice = none

/-- Nothing has been read yet, or the text so far is extracted. -/
def Begun (env : Env N) (read : List Char) (s : State N) (w : List (ClaudeEvent N)) : Prop :=
  (read = [] ∧ s = {} ∧ w = []) ∨ Carries env read s w

omit [JsonNumber N] in
theorem carries_start {read : List Char} {w : List (ClaudeEvent N)}
    (h : Begun env read s w) (now : ℕ) (chunk : Chunk N) :
    Carries env read (startMessage now (some chunk) (trackUsageFromChunk chunk s)).2
        (w ++ (startMessage now (some chunk) (trackUsageFromChunk chunk s)).1) ∧
      (startMessage now (some chunk) (trackUsageFromChunk chunk s)).2.markdownBuffer =
        s.markdownBuffer ∧
      (startMessage now (some chunk) (trackUsageFromChunk chunk s)).2.xmlInvokeBuffer =
        s.xmlInvokeBuffer := by
  have hsame : ∀ s : State N, (trackUsageFromChunk chunk s).markdownBuffer = s.markdownBuffer ∧
      (trackUsageFromChunk chunk s).xmlInvokeBuffer = s.xmlInvokeBuffer ∧
      (trackUsageFromChunk chunk s).pendingXmlToolCalls = s.pendingXmlToolCalls ∧
      (trackUsageFromChunk chunk s).toolCalls = s.toolCalls ∧
      (trackUsageFromChunk chunk s).pendingClaudeFinishChoice = s.pendingClaudeFinishChoice := by
    intro s
    unfold trackUsageFromChunk
    cases chunk.usage <;> exact ⟨rfl, rfl, rfl, rfl, rfl⟩
  rcases h with ⟨rfl, rfl, rfl⟩ | h
  · have hun : Unstarted ({} : State N) := ⟨rfl, rfl, rfl, fun _ => rfl, rfl, rfl⟩
    have ht := unstarted_trackUsage hun (some chunk)
    obtain ⟨g, -, hsync⟩ := sync_firstStartMessage now chunk (trackUsageFromChunk chunk {}) {}
      ⟨ht, rfl⟩
    have hnot : ¬(trackUsageFromChunk chunk ({} : State N)).messageStartSent = true := by
      rw [show (trackUsageFromChunk chunk ({} : State N)).messageStartSent = false from
        ht.notStarted]
      decide
    refine ⟨⟨⟨g, hsync⟩, ?_, ?_, ?_, ?_⟩, ?_, ?_⟩
    · rw [startMessage, if_neg hnot]
      exact .plain rfl
    · intro idx
      rw [startMessage, if_neg hnot]
      exact ht.toolCalls idx
    · rw [startMessage, if_neg hnot]
      rfl
    · rw [startMessage, if_neg hnot]
      exact ht.pending
    · rw [startMessage, if_neg hnot]
    · rw [startMessage, if_neg hnot]
  · obtain ⟨g, hsync⟩ := h.sync
    have hsync' : Sync false (trackUsageFromChunk chunk s) g := sync_trackUsage hsync (some chunk)
    have hskip : startMessage now (some chunk) (trackUsageFromChunk chunk s) =
        ([], trackUsageFromChunk chunk s) := by
      unfold startMessage
      simp only [if_pos hsync'.started]
    obtain ⟨hmd, hxml, hcalls, htools, hpending⟩ := hsame s
    rw [hskip, append_nil]
    refine ⟨⟨⟨g, hsync'⟩, ?_, ?_, h.uses, hpending.trans h.pending⟩, hmd, hxml⟩
    · rw [hmd, hxml, hcalls]
      exact h.extracts
    · rw [htools]
      exact h.toolCalls

theorem translateDelta_text (now : ℕ) (content : Option String) :
    translateDelta env now { content } = emitContent env now { content } := by
  have hreasoning : emitReasoning ({ content } : Delta N) = .skip := by
    unfold emitReasoning
    exact if_pos (.inl rfl)
  rw [translateDelta, hreasoning]
  funext s
  rw [andThen_apply, andThen_apply]
  show ([] ++ ((emitContent env now { content } s).1 ++ []), _) = _
  rw [append_nil]
  rfl

omit [JsonNumber N] in
/-- One part of the text. -/
theorem carries_content {read : List Char} {w : List (ClaudeEvent N)}
    (h : Carries env read s w) (now : ℕ) {content : String}
    (hno : indexOfLiteral nonAnthropicThinkingPlaceholder.toList content.toList = none)
    (hstep : IntactStep s read content.toList) :
    Carries env (read ++ content.toList) (emitContent env now { content := some content } s).2
      (w ++ (emitContent env now { content := some content } s).1) := by
  have htext : contentText ({ content := some content } : Delta N) = content.toList :=
    contentText_of_noPlaceholder hno
  have hsent := sends_emitContent env now { content := some content } s
  obtain ⟨hcalls, huses⟩ := calls_emitContent env now { content := some content } s
  obtain ⟨g, hsync⟩ := h.sync
  obtain ⟨g', -, hsync'⟩ := sync_emitContent env now { content := some content } s g hsync
  have htexts := hsent.text
  have hxml := hsent.xml
  refine ⟨⟨g', hsync'⟩, ?_, ?_, ?_, hsent.pending.trans h.pending⟩
  · rw [textOf_append, append_assoc, htexts, hcalls, hxml, htext]
    by_cases hnil : content.toList = []
    · rw [if_pos hnil, if_pos hnil, if_pos hnil, hnil, append_nil, append_nil]
      exact h.extracts
    · rw [if_neg hnil, if_neg hnil, if_neg hnil, namedCalls_append]
      exact h.extracts.next hstep.uncut hstep.held hstep.ordered
        (extracts_extractXmlInvokeBlocks env.parseJson now _ _)
  · rw [hsent.toolCalls]
    exact h.toolCalls
  · rw [usesOf_append, h.uses, huses]
    rfl

/-! ## The run -/

/-- The events for some chunks. -/
def eventsAfter (env : Env N) (chunks : List (ℕ × Chunk N)) : List (ClaudeEvent N) :=
  (translateAll env (chunkCalls chunks) {}).1

theorem run_concat (chunks : List (ℕ × Chunk N)) (c : ℕ × Chunk N) :
    eventsAfter env (chunks ++ [c]) = eventsAfter env chunks ++
        (openaiToClaudeResponse env c.1 (some c.2) (stateAfter env chunks)).1 ∧
      stateAfter env (chunks ++ [c]) =
        (openaiToClaudeResponse env c.1 (some c.2) (stateAfter env chunks)).2 := by
  unfold eventsAfter stateAfter
  rw [chunkCalls, map_append, translateAll, forEach_append, andThen_apply,
    map_singleton, forEach_cons, forEach_nil, andThen_apply, skip_apply, append_nil]
  exact ⟨rfl, rfl⟩

/-- The text read so far is extracted, as long as every part cuts nothing. -/
theorem begun_run {pieces : List (ℕ × Chunk N)} (hpieces : ∀ p ∈ pieces, IsText p.2)
    (hno : indexOfLiteral nonAnthropicThinkingPlaceholder.toList (contentOf pieces) = none)
    (hsteps : ∀ done p rest, pieces = done ++ p :: rest →
      IntactStep (stateAfter env done) (contentOf done) (contentOf [p])) :
    Begun env (contentOf pieces) (stateAfter env pieces) (eventsAfter env pieces) := by
  induction pieces using reverseRecOn with
  | nil => exact .inl ⟨rfl, rfl, rfl⟩
  | append_singleton pieces p ih =>
    rw [contentOf_append] at hno
    have hbegun := ih (fun q hq => hpieces q (mem_append_left _ hq))
      (indexOfLiteral_part hno (List.prefix_append _ _).isInfix) fun done q rest hsplit =>
        hsteps done q (rest ++ [p]) (by rw [hsplit, append_assoc]; rfl)
    obtain ⟨content, hchoice⟩ := hpieces p (mem_append_right _ (mem_singleton_self p))
    have hdelta : p.2.delta = { content := some content } := by rw [Chunk.delta, hchoice]
    have hcontent : contentOf [p] = content.toList := by
      rw [contentOf, flatMap_singleton, hdelta]
      rfl
    have hstep := hsteps pieces p [] rfl
    rw [hcontent] at hstep hno
    obtain ⟨hstart, hmd, hxml⟩ := carries_start env hbegun p.1 p.2
    have hstep' : IntactStep (startMessage p.1 (some p.2)
        (trackUsageFromChunk p.2 (stateAfter env pieces))).2 (contentOf pieces) content.toList := by
      constructor
      · rw [hxml]
        exact hstep.uncut
      · rw [hmd]
        exact hstep.held
      · rw [hmd, hxml]
        exact hstep.ordered
    have hcarries := carries_content env hstart p.1
      (indexOfLiteral_part hno (suffix_append _ _).isInfix) hstep'
    obtain ⟨hevents, hstate⟩ := run_concat env pieces p
    have hresponse := response_choice env hchoice (stateAfter env pieces)
    rw [andThen_apply, closeChoice_open env _ _ rfl, append_nil, hdelta,
      translateDelta_text, andThen_apply] at hresponse
    rw [hevents, hstate, hresponse, contentOf_append, hcontent]
    rw [append_assoc] at hcarries
    exact .inr hcarries

/-! ## The finish -/

/-- The calls that end a stream. -/
def endCalls (finish : ℕ × Chunk N) (endTime : ℕ) : List (Call N) :=
  [(finish.1, some finish.2), (endTime, none)]

theorem translateDelta_empty (now : ℕ) (s : State N) : translateDelta env now {} s = ([], s) := by
  rw [translateDelta_text]
  rfl

/-- The end of the stream sends what is held back, and the calls that wait. -/
theorem end_effect {read : List Char} {w : List (ClaudeEvent N)}
    (h : Begun env read s w) {finish : ℕ × Chunk N} (hfinish : IsFinish finish.2) (endTime : ℕ) :
    ∃ cleaned calls, Extracts env.parseJson read cleaned calls s.xmlInvokeBuffer ∧
      textOf (w ++ (translateAll env (endCalls finish endTime) s).1) = cleaned ∧
      usesOf (w ++ (translateAll env (endCalls finish endTime) s).1) =
        calls.map fun call => (env.restoreClaudeToolName call.1, call.2) := by
  obtain ⟨reason, hne, hchoice⟩ := hfinish
  obtain ⟨hstart, -, hxml⟩ := carries_start env h finish.1 finish.2
  obtain ⟨g, hsync⟩ := hstart.sync
  have hreason : truthyText (some reason) = some reason := if_neg hne
  have hresponse := response_choice env hchoice s
  have hdelta : finish.2.delta = {} := by rw [Chunk.delta, hchoice]
  rw [hdelta, andThen_apply, andThen_apply, translateDelta_empty, append_nil] at hresponse
  rw [← hxml]
  generalize startMessage finish.1 (some finish.2) (trackUsageFromChunk finish.2 s) = r at *
  obtain ⟨htext, huses, hpending⟩ := emitFinish_effect env reason hsync hstart.toolCalls
  -- whether it comes with the finish chunk or with the end, the finish is the same
  suffices hall : ∃ rest, (translateAll env (endCalls finish endTime) s).1 =
      r.1 ++ (emitFinish env reason r.2).1 ++ rest ∧ textOf rest = [] ∧ usesOf rest = [] by
    obtain ⟨rest, hevents, hrest, hrestUses⟩ := hall
    refine ⟨_, _, hstart.extracts, ?_, ?_⟩
    · rw [hevents, ← append_assoc, ← append_assoc, textOf_append, textOf_append, hrest,
        htext, append_nil]
    · rw [hevents, ← append_assoc, ← append_assoc, usesOf_append, usesOf_append,
        hstart.uses, huses, hrestUses, nil_append, append_nil]
  have hrun : (translateAll env (endCalls finish endTime) s).1 =
      (openaiToClaudeResponse env finish.1 (some finish.2) s).1 ++
        (openaiToClaudeResponse env endTime none
          (openaiToClaudeResponse env finish.1 (some finish.2) s).2).1 := by
    rw [endCalls, translateAll, forEach_cons, forEach_cons, forEach_nil,
      andThen_apply, andThen_apply, skip_apply, append_nil]
  rw [hrun, hresponse]
  cases husage : finish.2.usage.isSome with
  | true =>
    rw [closeChoice_finish env hreason (.inl rfl) hsync.finished]
    have hidle : openaiToClaudeResponse env endTime none (emitFinish env reason r.2).2 =
        ([], (emitFinish env reason r.2).2) := by
      rw [openaiToClaudeResponse]
      simp only [Option.bind_none, Option.elim_none, hpending.trans hstart.pending]
    rw [hidle]
    exact ⟨[], rfl, rfl, rfl⟩
  | false =>
    rw [closeChoice_store env hreason hsync.finished, append_nil]
    have hflush : openaiToClaudeResponse env endTime none
        { r.2 with pendingClaudeFinishChoice := some { finishReason := some reason } } =
          emitFinish env reason r.2 := by
      rw [openaiToClaudeResponse]
      simp only [Option.bind_none, Option.elim_none]
      rw [translateChoice_eq, andThen_apply, andThen_apply, translateDelta_empty]
      have hsame : ({ r.2 with pendingClaudeFinishChoice := none } : State N) = r.2 := by
        rw [← hstart.pending]
      show ([] ++ ([] ++ (closeChoice env _ true _ { r.2 with
        pendingClaudeFinishChoice := none }).1), (closeChoice env _ true _ { r.2 with
          pendingClaudeFinishChoice := none }).2) = _
      rw [hsame, closeChoice_finish env hreason (.inr rfl) hsync.finished]
      rfl
    rw [hflush]
    exact ⟨[], (append_nil _).symm, rfl, rfl⟩

theorem streamResult_eq (pieces : List (ℕ × Chunk N)) (finish : ℕ × Chunk N)
    (endTime : ℕ) : (streamResult env (pieces ++ [finish]) endTime).1 =
      eventsAfter env pieces ++ (translateAll env (endCalls finish endTime)
        (stateAfter env pieces)).1 := by
  rw [streamResult, streamCalls, map_append, append_assoc, translateAll, forEach_append]
  rfl

end Streams

/-! ## Two ways of cutting -/

/-- A `JSON.parse` that reads the empty object. -/
def emptyObjectEnv : Env ℤ where
  parseJson text := if text = "\x7b\x7d" then some (.obj []) else none
  restoreClaudeToolName := id
  applyToolCallShimToBuffer _ args := String.ofList args

def textChunk (content : String) : ℕ × Chunk ℤ :=
  (0, { choice := some { delta := { content := some content } } })

def stopChunk : ℕ × Chunk ℤ := (1, { choice := some { finishReason := some "stop" } })

/-- A call that is cut behind its marker. -/
def cutBehindMarker : List (ℕ × Chunk ℤ) :=
  [textChunk "Now TOOL_CALL find: \x7b", textChunk "\x7d done."]

end OmniRoute.ClaudeStream
