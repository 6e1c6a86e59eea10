import OmniRoute.GeminiStream.Extraction

/-!
# Reasoning in text that comes in parts

A text in any number of parts and a chunk with a finish reason. The content and the reasoning that
are sent are those of the whole text as long as the end of no part decides something about a tag, an
ignorable prefix or a tool call, and nothing of a tag waits at the end.

**Main result (`intact_lossless`).** Such a stream loses nothing, and two of them with the same text
send the same, however the text is cut. The proof reads the stream from its end: what is sent from a
state on is what is buffered and what the rest of the text says.
-/

namespace OmniRoute.GeminiStream

open Leftmost List Emitter

variable {N : Type} {content reasoning : List Char} {s : State}

theorem flushOpenTextualReasoning_sends (hs : Held s) (htag : s.textualReasoningTagBuffer = [])
    (h : Resumes s [] content reasoning) :
    content = [] ∧ textOf .content (flushOpenTextualReasoning s : List (Delta N) × State).1 = [] ∧
      textOf .reasoningContent (flushOpenTextualReasoning s : List (Delta N) × State).1 =
        reasoning ∧
      (flushOpenTextualReasoning s : List (Delta N) × State).2.textualToolCallBuffer =
        s.textualToolCallBuffer ∧
      (flushOpenTextualReasoning s : List (Delta N) × State).2.hasEmittedContent =
        s.hasEmittedContent := by
  unfold Resumes at h
  rw [htag, append_nil, append_nil] at h
  cases hactive : s.activeTextualReasoningTag with
  | none =>
    have hbody := hs.outside hactive
    rw [hactive, hbody] at h
    obtain ⟨rfl, rfl⟩ := h.unique (.outside (.plain rfl))
    rw [flushOpenTextualReasoning, if_pos ⟨hactive, hbody⟩]
    exact ⟨rfl, rfl, rfl, rfl, rfl⟩
  | some tagName =>
    obtain ⟨-, hnone⟩ := hs.inside tagName hactive
    rw [hactive] at h
    obtain ⟨rfl, rfl⟩ := h.unique (.pending (search_close_left hnone))
    rw [flushOpenTextualReasoning, if_neg (by rw [hactive]; exact fun h => nomatch h.1)]
    refine ⟨rfl, textOf_emitTextDelta .reasoningContent .content _ s,
      textOf_emitTextDelta .reasoningContent .reasoningContent _ s, ?_⟩
    unfold emitTextDelta
    split
    · exact ⟨rfl, rfl⟩
    · exact ⟨rfl, Bool.or_false _⟩

theorem textOf_emitFinalChunk (field : Field) (chunk : Chunk) (s : State) :
    textOf field (emitFinalChunk chunk s : List (Delta N) × State).1 = [] := by
  unfold emitFinalChunk
  dsimp only
  split <;> rfl

variable [Zero N] [DecidableEq N]

/-! ## Streams -/

/-- The parts of a stream. -/
def textsOf (chunks : List Chunk) : List (List Char) := chunks.flatMap Chunk.texts

/-- Chunks whose tags are parsed, of which the last one and no other has a finish reason. -/
structure IsGeminiStream (chunks : List Chunk) : Prop where
  parses : ∀ chunk ∈ chunks, chunk.parsesTextualReasoningTags = true
  finishes : ∃ init last, chunks = init ++ [last] ∧ last.finishReason ≠ "" ∧
    ∀ chunk ∈ init, chunk.finishReason = ""

/-- The deltas carry what the text says. -/
def Lossless (env : Env N) (chunks : List Chunk) : Prop :=
  Splits (textsOf chunks).flatten (textOf .content (translate env chunks))
    (textOf .reasoningContent (translate env chunks))

/-- A part without escape codes that can be read before what follows. -/
structure IntactStep (env : Env N) (s : State) (text later : List Char) : Prop where
  plain : stripAnsiCodes text = text
  read : ReadBefore env.parseJson s text later

/-- No tag waits, and a call that waits is sent as text. -/
structure EndsEmpty (env : Env N) (s : State) : Prop where
  tag : s.textualReasoningTagBuffer = []
  incomplete : ∀ name args,
    parseTextualToolCallCandidate env.parseJson s.textualToolCallBuffer ≠
      some (.complete name args)
  sent : s.textualToolCallBuffer = [] ∨ s.hasEmittedContent = true ∨
    containsTextualToolCallMarker s.textualToolCallBuffer = false

/-- Every part, in the state it comes in, is intact, and nothing is left at the end. -/
def IntactFrom (env : Env N) : State → List (List Char) → Prop
  | s, [] => EndsEmpty env s
  | s, text :: rest => (text ≠ [] → IntactStep env s text rest.flatten) ∧
      IntactFrom env (textPart env true text s).2 rest

def Intact (env : Env N) (chunks : List Chunk) : Prop := IntactFrom env {} (textsOf chunks)

/-! ## Tool calls -/

variable {env : Env N}

/-- Text that makes no call is sent or buffered in its order. -/
theorem pushText_sends {text : List Char}
    (h : CallFree env.parseJson (s.textualToolCallBuffer ++ text)) :
    textOf .content (pushText env text s).1 ++ (pushText env text s).2.textualToolCallBuffer =
        s.textualToolCallBuffer ++ text ∧
      textOf .reasoningContent (pushText env text s).1 = [] ∧
      ∃ textualToolCallBuffer hasEmittedContent functionIndex, (pushText env text s).2 =
        { s with textualToolCallBuffer, hasEmittedContent, functionIndex } := by
  cases hparse : parseTextualToolCallCandidate env.parseJson
    (s.textualToolCallBuffer ++ text) with
  | none =>
    have hpush : pushText env text s = flushText text s := by
      unfold pushText
      simp only [hparse]
    rw [hpush]
    refine ⟨?_, rfl, _, _, _, rfl⟩
    show (s.textualToolCallBuffer ++ text ++ []) ++ [] = _
    rw [append_nil, append_nil]
  | some candidate =>
    have hstrip := h.unchanged (by rw [hparse]; exact Option.some_ne_none _)
    cases candidate with
    | complete name args => exact absurd hparse (h.incomplete name args)
    | partialCall =>
      have hwhole : ∀ start, toolCallStart (s.textualToolCallBuffer ++ text) = start →
          (∀ c left rest, start ≠ some (c :: left, rest)) →
          pushText env text s =
            takeCandidate env (s.textualToolCallBuffer ++ text) .partialCall s := by
        intro start hstart hleft
        unfold pushText
        simp only [hparse, hstrip, hstart]
      cases hstart : toolCallStart (s.textualToolCallBuffer ++ text) with
      | none =>
        rw [hwhole none hstart nofun]
        exact ⟨rfl, rfl, _, _, _, rfl⟩
      | some found =>
        obtain ⟨left, rest⟩ := found
        obtain ⟨heq, hrest⟩ := parseCandidate_from env.parseJson hstrip hstart
        cases left with
        | nil =>
          rw [hwhole _ hstart nofun]
          exact ⟨rfl, rfl, _, _, _, rfl⟩
        | cons c left =>
          have hpush : pushText env text s = (.text .content (c :: left) ::
              (takeCandidate env rest .partialCall { s with hasEmittedContent := true }).1,
            (takeCandidate env rest .partialCall { s with hasEmittedContent := true }).2) := by
            unfold pushText
            simp only [hparse, hstrip, hstart, hrest]
          rw [hpush]
          refine ⟨?_, rfl, _, _, _, rfl⟩
          show ((c :: left) ++ []) ++ rest = _
          rw [append_nil, heq]

/-! ## One part -/

/-- What a part sends is what the text says more with the part than behind it. -/
theorem part_reads {text later : List Char} (hs : Held s)
    (hstep : text ≠ [] → IntactStep env s text later) :
    Held (textPart env true text s).2 ∧ ∀ {content reasoning content' reasoning' : List Char},
      Resumes s (text ++ later) content reasoning →
      Resumes (textPart env true text s).2 later content' reasoning' →
      s.textualToolCallBuffer ++ content = textOf .content (textPart env true text s).1 ++
          ((textPart env true text s).2.textualToolCallBuffer ++ content') ∧
        reasoning = textOf .reasoningContent (textPart env true text s).1 ++ reasoning' := by
  by_cases hempty : text = []
  · rw [hempty]
    refine ⟨hs, fun h h' => ?_⟩
    obtain ⟨rfl, rfl⟩ := h.unique h'
    exact ⟨rfl, rfl⟩
  obtain ⟨hplain, hread⟩ := hstep hempty
  obtain ⟨hheld, hbuffer, hreading, hcall, hordered⟩ := consume_reads (N := N) hs hread
  unfold textPart
  dsimp only
  rw [hplain, if_neg hempty, if_pos rfl]
  generalize (consumeTextualReasoningTags text s : Consumed N) = r at *
  have hassoc : ∀ content reasoning, Resumes s (text ++ later) content reasoning →
      Reading s.activeTextualReasoningTag (s.textualReasoningContentBuffer ++
        (s.textualReasoningTagBuffer ++ text) ++ later) content reasoning := by
    intro content reasoning h
    rw [append_assoc, append_assoc]
    exact h
  split
  · next hnil =>
    refine ⟨hheld, fun {content reasoning content' reasoning'} h h' => ?_⟩
    obtain ⟨rfl, rfl⟩ := (hassoc _ _ h).unique (hreading _ _ h')
    rw [hnil, nil_append, hbuffer]
    refine ⟨?_, rfl⟩
    rcases hordered with hnone | hnone
    · rw [hnone, nil_append, nil_append]
    · rw [hnone, nil_append, nil_append]
  · next hne =>
    have hfree := hcall hne
    rw [← hbuffer] at hfree
    obtain ⟨hsent, hsilent, buffer, e, i, hstate⟩ := pushText_sends hfree
    refine ⟨?_, fun {content reasoning content' reasoning'} h h' => ?_⟩
    · show Held (pushText env r.text r.state).2
      rw [hstate]
      exact ⟨hheld.outside, hheld.inside⟩
    · have hresumes : Resumes r.state later content' reasoning' := by
        have hpushed : Resumes (pushText env r.text r.state).2 later content' reasoning' := h'
        rw [hstate] at hpushed
        exact hpushed
      obtain ⟨rfl, rfl⟩ := (hassoc _ _ h).unique (hreading _ _ hresumes)
      dsimp only
      rw [textOf_append, textOf_append, hsilent, append_nil]
      refine ⟨?_, rfl⟩
      have hcontent : s.textualToolCallBuffer ++ (textOf .content r.deltas ++
          (r.text ++ content')) = textOf .content r.deltas ++
            (s.textualToolCallBuffer ++ (r.text ++ content')) := by
        rcases hordered with hnone | hnone
        · rw [hnone, nil_append, nil_append]
        · rw [hnone, nil_append, nil_append]
      rw [hbuffer] at hsent
      rw [hcontent, ← append_assoc s.textualToolCallBuffer, ← hsent, append_assoc, append_assoc]

/-! ## The end of the stream -/

theorem finishToolCallBuffer_sends (env : Env N)
    (hincomplete : ∀ name args,
      parseTextualToolCallCandidate env.parseJson s.textualToolCallBuffer ≠
        some (.complete name args))
    (hsent : s.textualToolCallBuffer = [] ∨ s.hasEmittedContent = true ∨
      containsTextualToolCallMarker s.textualToolCallBuffer = false) :
    textOf .content (finishToolCallBuffer env s).1 = s.textualToolCallBuffer ∧
      textOf .reasoningContent (finishToolCallBuffer env s).1 = [] := by
  unfold finishToolCallBuffer
  dsimp only
  split
  · next hnil => exact ⟨hnil.symm, rfl⟩
  · next hne =>
    have hpush : (s.hasEmittedContent ||
        !containsTextualToolCallMarker s.textualToolCallBuffer) = true := by
      rcases hsent with hnil | hemitted | hmarker
      · exact absurd hnil hne
      · rw [hemitted, Bool.true_or]
      · rw [hmarker, Bool.not_false, Bool.or_true]
    split
    · next hparse => exact absurd hparse (hincomplete _ _)
    · rw [if_pos hpush]
      exact ⟨append_nil _, rfl⟩

theorem textOf_emitMalformedToolCall (field : Field) (env : Env N) (chunk : Chunk) (s : State) :
    textOf field (emitMalformedToolCall env chunk s).1 = [] := by
  unfold emitMalformedToolCall
  split <;> rfl

/-- The finish sends what is buffered, and that is all the text still says. -/
theorem emitFinish_sends {chunk : Chunk} (hs : Held s)
    (hparses : chunk.parsesTextualReasoningTags = true) (hfinish : chunk.finishReason ≠ "")
    (hends : EndsEmpty env s) (h : Resumes s [] content reasoning) :
    textOf .content (emitFinish env chunk s).1 = s.textualToolCallBuffer ++ content ∧
      textOf .reasoningContent (emitFinish env chunk s).1 = reasoning := by
  obtain ⟨rfl, hcontent, hreasoning, hbuffer, hemitted⟩ :=
    flushOpenTextualReasoning_sends (N := N) hs hends.tag h
  obtain ⟨hcall, hsilent⟩ := finishToolCallBuffer_sends env
    (s := (flushOpenTextualReasoning s : List (Delta N) × State).2)
    (by rw [hbuffer]; exact hends.incomplete) (by rw [hbuffer, hemitted]; exact hends.sent)
  rw [emitFinish, if_neg hfinish, if_pos hparses]
  simp only [andThen_apply, textOf_append, textOf_emitMalformedToolCall,
    textOf_emitFinalChunk, hcontent, hreasoning, hcall, hsilent, hbuffer, append_nil,
    nil_append, and_self]

/-! ## The run -/

/-- From a state on an intact run sends what is buffered and what the rest of the text says. -/
theorem run_reads {chunk : Chunk}
    (hparses : chunk.parsesTextualReasoningTags = true) (hfinish : chunk.finishReason ≠ "")
    (texts : List (List Char)) (hs : Held s) (hintact : IntactFrom env s texts)
    (h : Resumes s texts.flatten content reasoning) :
    textOf .content ((forEach (textPart env true) texts).andThen
        (emitFinish env chunk) s).1 = s.textualToolCallBuffer ++ content ∧
      textOf .reasoningContent ((forEach (textPart env true) texts).andThen
        (emitFinish env chunk) s).1 = reasoning := by
  induction texts generalizing s content reasoning with
  | nil =>
    rw [forEach_nil, andThen_apply, skip_apply, nil_append]
    exact emitFinish_sends hs hparses hfinish hintact h
  | cons text texts ih =>
    obtain ⟨hstep, hrest⟩ := hintact
    obtain ⟨hheld, hpart⟩ := part_reads hs hstep
    obtain ⟨content', reasoning', h'⟩ := exists_reading
      (textPart env true text s).2.activeTextualReasoningTag
      ((textPart env true text s).2.textualReasoningContentBuffer ++
        ((textPart env true text s).2.textualReasoningTagBuffer ++ texts.flatten))
    rw [flatten_cons] at h
    obtain ⟨hcontent, hreasoning⟩ := hpart h h'
    obtain ⟨hrun, hrun'⟩ := ih hheld hrest h'
    rw [forEach_cons, ← andThen_assoc, andThen_apply, textOf_append, textOf_append, hrun, hrun']
    exact ⟨hcontent.symm, hreasoning.symm⟩

/-- Only the texts and the finish of a stream matter. -/
theorem translate_eq {init : List Chunk} {last : Chunk}
    (hparses : ∀ chunk ∈ init ++ [last], chunk.parsesTextualReasoningTags = true)
    (hinit : ∀ chunk ∈ init, chunk.finishReason = "") :
    forEach (geminiToOpenAIResponse env) (init ++ [last]) =
      (forEach (textPart env true) (textsOf (init ++ [last]))).andThen
        (emitFinish env last) := by
  induction init with
  | nil =>
    have hlast := hparses last mem_cons_self
    funext s
    rw [nil_append, forEach_cons, forEach_nil, andThen_apply,
      skip_apply, append_nil, geminiToOpenAIResponse, hlast, textsOf, flatMap_singleton]
  | cons chunk init ih =>
    have hchunk := hparses chunk mem_cons_self
    have hfinish : emitFinish env chunk = .skip := by
      rw [emitFinish, if_pos (hinit chunk mem_cons_self)]
    have hresponse : geminiToOpenAIResponse env chunk =
        forEach (textPart env true) chunk.texts := by
      funext s
      rw [geminiToOpenAIResponse, hchunk, hfinish, andThen_apply, skip_apply, append_nil]
    have htexts : textsOf (chunk :: (init ++ [last])) =
        chunk.texts ++ textsOf (init ++ [last]) := flatMap_cons
    rw [cons_append, forEach_cons, hresponse,
      ih (fun c hc => hparses c (mem_cons_of_mem _ hc))
        fun c hc => hinit c (mem_cons_of_mem _ hc),
      htexts, forEach_append, andThen_assoc]

/-- **A text that is not cut where it matters keeps all its content and reasoning.** -/
theorem intact_lossless (env : Env N) {chunks : List Chunk} (hstream : IsGeminiStream chunks)
    (hintact : Intact env chunks) :
    Lossless env chunks ∧ ∀ other, IsGeminiStream other → Intact env other →
      (textsOf other).flatten = (textsOf chunks).flatten →
        textOf .content (translate env other) = textOf .content (translate env chunks) ∧
          textOf .reasoningContent (translate env other) =
            textOf .reasoningContent (translate env chunks) := by
  have hall : ∀ chunks, IsGeminiStream chunks → Intact env chunks → Lossless env chunks := by
    intro chunks hstream hintact
    obtain ⟨init, last, rfl, hlast, hinit⟩ := hstream.finishes
    obtain ⟨content, reasoning, hsplits⟩ := exists_splits (textsOf (init ++ [last])).flatten
    have hparses := hstream.parses last (mem_append_right _ mem_cons_self)
    obtain ⟨hcontent, hreasoning⟩ := run_reads (s := {}) hparses hlast _ ⟨fun _ => rfl, nofun⟩
      hintact (.outside hsplits)
    unfold Lossless translate
    rw [translate_eq hstream.parses hinit, hcontent, hreasoning]
    exact hsplits
  refine ⟨hall chunks hstream hintact, fun other hother hintact' htext => ?_⟩
  have hsplits := hall other hother hintact'
  unfold Lossless at hsplits
  rw [htext] at hsplits
  exact hsplits.unique (hall chunks hstream hintact)

/-! ## Two streams -/

/-- A `JSON.parse` that reads nothing. -/
def noJsonEnv : Env ℤ where
  parseJson _ := none
  caseInsensitiveToolNameLookup _ := none

/-- An element that is cut inside both of its tags. -/
def cutInTags : List Chunk :=
  [{ texts := ["a <th".toList, "ink>b</th".toList] },
    { texts := ["ink> c".toList], finishReason := "STOP" }]

theorem isGeminiStream_cutInTags : IsGeminiStream cutInTags := by
  refine ⟨by decide +kernel, [_], _, rfl, by decide +kernel, fun chunk hchunk => ?_⟩
  rw [mem_singleton.1 hchunk]

theorem intact_cutInTags : Intact noJsonEnv cutInTags := by
  have h₁ : (textPart noJsonEnv true "a <th".toList {}).2 =
      { textualReasoningTagBuffer := "<th".toList, hasEmittedContent := true } := by
    decide +kernel
  have h₂ : (textPart noJsonEnv true "ink>b</th".toList
      { textualReasoningTagBuffer := "<th".toList, hasEmittedContent := true }).2 =
      { activeTextualReasoningTag := some "think".toList
        textualReasoningContentBuffer := "b</th".toList, hasEmittedContent := true } := by
    decide +kernel
  have h₃ : (textPart noJsonEnv true "ink> c".toList
      { activeTextualReasoningTag := some "think".toList
        textualReasoningContentBuffer := "b</th".toList, hasEmittedContent := true }).2 =
      { hasEmittedContent := true } := by
    decide +kernel
  have hfree : ∀ text, parseTextualToolCallCandidate noJsonEnv.parseJson text = none →
      CallFree noJsonEnv.parseJson text := fun text h =>
    ⟨fun name args => by rw [h]; exact nofun, fun hne => absurd h hne⟩
  unfold Intact
  show IntactFrom noJsonEnv {} ["a <th".toList, "ink>b</th".toList, "ink> c".toList]
  unfold IntactFrom
  rw [h₁]
  unfold IntactFrom
  rw [h₂]
  unfold IntactFrom
  rw [h₃]
  refine ⟨fun _ => ⟨by decide +kernel, fun _ => ?_, fun tagName h => nomatch h.1⟩,
    fun _ => ⟨by decide +kernel, fun _ => ?_, fun tagName h => nomatch h.1⟩,
    fun _ => ⟨by decide +kernel, fun _ => ?_, fun tagName h => nomatch h.2.1⟩,
    ⟨rfl, fun name args h => (nomatch h), .inl rfl⟩⟩
  · have hprefix : trailingReasoningTagPrefix "a <th".toList =
        some ("a ".toList, "<th".toList) := by decide +kernel
    refine Uncut.held (by decide +kernel) hprefix
      ⟨fun _ => by decide +kernel, fun before tagName rest h => ?_⟩
      fun _ => hfree _ (by decide +kernel)
    have hfound : search reasoningTagAt ("a ".toList ++ ("<th".toList ++
        ["ink>b</th".toList, "ink> c".toList].flatten)) =
        some ("a ".toList, "think".toList, "b</think> c".toList) := by decide +kernel
    obtain ⟨rfl, -⟩ := Prod.mk.inj (Option.some.inj (hfound.symm.trans h))
    exact ⟨[], by decide +kernel, by decide +kernel⟩
  · have hopen : search reasoningTagAt "<think>b</th".toList =
        some ([], "think".toList, "b</th".toList) := by decide +kernel
    exact Uncut.pending hopen (by decide +kernel) (.inl rfl) (by decide +kernel)
  · intro body rest hclose
    have hfound : search (closeTagAt "think".toList) "b</think> c".toList =
        some ("b".toList, " c".toList) := by decide +kernel
    obtain ⟨rfl, rfl⟩ := Prod.mk.inj (Option.some.inj (hfound.symm.trans hclose))
    refine Uncut.plain (by decide +kernel) (by decide +kernel)
      ⟨fun _ => rfl, fun before tagName rest h => ?_⟩ fun _ => hfree _ (by decide +kernel)
    have hnone : search reasoningTagAt (" c".toList ++ ([] ++ [].flatten)) = none := by
      decide +kernel
    rw [hnone] at h
    cases h

theorem intact_lossless_cutInTags :
    Lossless noJsonEnv cutInTags ∧ ∀ other, IsGeminiStream other → Intact noJsonEnv other →
      (textsOf other).flatten = (textsOf cutInTags).flatten →
        textOf .content (translate noJsonEnv other) =
            textOf .content (translate noJsonEnv cutInTags) ∧
          textOf .reasoningContent (translate noJsonEnv other) =
            textOf .reasoningContent (translate noJsonEnv cutInTags) :=
  intact_lossless noJsonEnv isGeminiStream_cutInTags intact_cutInTags

/-- A `<` at the end of the stream is held back and never sent. -/
theorem trailingLt_lost : ¬Lossless noJsonEnv
    [{ texts := ["a <".toList], finishReason := "STOP" }] := by
  intro h
  have hopen : search reasoningTagAt "a <".toList = none := by decide +kernel
  obtain ⟨hcontent, -⟩ := h.unique (.plain hopen)
  exact absurd hcontent (by decide +kernel)

end OmniRoute.GeminiStream
