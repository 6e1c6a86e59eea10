import OmniRoute.ClaudeStream.Grammar

/-!
# What the Claude stream delivers

The text, the thinking and the arguments of the tool calls that are sent, compared with those that
come in. Text that is held back counts as still to be sent.

**A delta (`delivery_translateDelta`).** It adds its content, its reasoning and its fragments of
arguments to what is delivered.

**The finish (`delivered_emitFinish`).** What is held back is sent, and nothing else.
-/

namespace OmniRoute.ClaudeStream

open OrdMap Emitter Nat Function List

variable {N : Type}

/-! ## What is sent -/

def textOf (events : List (ClaudeEvent N)) : List Char :=
  events.flatMap fun
    | .contentBlockDelta _ (.textDelta text) => text.toList
    | _ => []

def thinkingOf (events : List (ClaudeEvent N)) : List Char :=
  events.flatMap fun
    | .contentBlockDelta _ (.thinkingDelta thinking) => thinking.toList
    | _ => []

/-- The arguments sent in a block. -/
def jsonOf (i : ℕ) (events : List (ClaudeEvent N)) : List Char :=
  events.flatMap fun
    | .contentBlockDelta j (.inputJsonDelta partialJson) => if j = i then partialJson.toList else []
    | _ => []

theorem textOf_append (l₁ l₂ : List (ClaudeEvent N)) :
    textOf (l₁ ++ l₂) = textOf l₁ ++ textOf l₂ := flatMap_append

theorem thinkingOf_append (l₁ l₂ : List (ClaudeEvent N)) :
    thinkingOf (l₁ ++ l₂) = thinkingOf l₁ ++ thinkingOf l₂ := flatMap_append

theorem jsonOf_append (i : ℕ) (l₁ l₂ : List (ClaudeEvent N)) :
    jsonOf i (l₁ ++ l₂) = jsonOf i l₁ ++ jsonOf i l₂ := flatMap_append

theorem textOf_textDelta (i : ℕ) (text : List Char) :
    textOf ([.contentBlockDelta i (.textDelta (String.ofList text))] : List (ClaudeEvent N)) =
      text := by
  simp only [textOf, flatMap_singleton]
  exact String.toList_ofList

theorem thinkingOf_thinkingDelta (i : ℕ) (thinking : String) :
    thinkingOf ([.contentBlockDelta i (.thinkingDelta thinking)] : List (ClaudeEvent N)) =
      thinking.toList := by
  simp only [thinkingOf, flatMap_singleton]

theorem jsonOf_inputJsonDelta (i j : ℕ) (partialJson : List Char) :
    jsonOf i ([.contentBlockDelta j (.inputJsonDelta (String.ofList partialJson))] :
      List (ClaudeEvent N)) = if j = i then partialJson else [] := by
  simp only [jsonOf, flatMap_singleton, String.toList_ofList]

/-! ## The effect of a part -/

/-- What a part of a call sends: `text` is what it sends and holds back, `xml` the markup that it
keeps. It touches no tool call. -/
structure Sends (s : State N) (r : List (ClaudeEvent N) × State N) (text thinking xml : List Char) :
    Prop where
  text : textOf r.1 ++ r.2.markdownBuffer = text
  thinking : thinkingOf r.1 = thinking
  json : ∀ i, jsonOf i r.1 = []
  toolCalls : r.2.toolCalls = s.toolCalls
  next : s.nextBlockIndex ≤ r.2.nextBlockIndex
  xml : r.2.xmlInvokeBuffer = xml
  pending : r.2.pendingClaudeFinishChoice = s.pendingClaudeFinishChoice

section Parts

variable {s : State N} {text thinking xml : List Char}

theorem Sends.andThen {m n : Stream N} {text' thinking' xml' : List Char}
    (hm : Sends s (m s) text thinking xml)
    (hn : Sends (m s).2 (n (m s).2) ((m s).2.markdownBuffer ++ text') thinking' xml') :
    Sends s (m.andThen n s) (text ++ text') (thinking ++ thinking') xml' where
  text := by
    rw [andThen_apply, textOf_append, append_assoc, hn.text, ← append_assoc, hm.text]
  thinking := by rw [andThen_apply, thinkingOf_append, hm.thinking, hn.thinking]
  json i := by rw [andThen_apply, jsonOf_append, hm.json, hn.json, append_nil]
  toolCalls := hn.toolCalls.trans hm.toolCalls
  next := hm.next.trans hn.next
  xml := hn.xml
  pending := hn.pending.trans hm.pending

/-- A part that sends nothing of its own. -/
abbrev Keeps (s : State N) (r : List (ClaudeEvent N) × State N) : Prop :=
  Sends s r s.markdownBuffer [] s.xmlInvokeBuffer

theorem Sends.then_keeps {m n : Stream N} (hm : Sends s (m s) text thinking xml)
    (hn : Keeps (m s).2 (n (m s).2)) : Sends s (m.andThen n s) text thinking xml := by
  have h : Sends s (m.andThen n s) (text ++ []) (thinking ++ []) (m s).2.xmlInvokeBuffer :=
    hm.andThen (by rw [append_nil]; exact hn)
  rw [append_nil, append_nil, hm.xml] at h
  exact h

section

variable (s : State N)

theorem keeps_skip : Keeps s (([], s) : List (ClaudeEvent N) × State N) :=
  ⟨rfl, rfl, fun _ => rfl, rfl, le_refl _, rfl, rfl⟩

theorem keeps_stopThinkingBlock : Keeps s (stopThinkingBlock s) := by
  unfold stopThinkingBlock
  by_cases h : s.thinkingBlockStarted = true
  · rw [if_pos h]
    exact ⟨rfl, rfl, fun _ => rfl, rfl, le_refl _, rfl, rfl⟩
  · rw [if_neg h]
    exact keeps_skip s

theorem keeps_startThinkingBlock : Keeps s (startThinkingBlock s) := by
  unfold startThinkingBlock
  by_cases h : s.thinkingBlockStarted = true
  · rw [if_pos h]
    exact keeps_skip s
  · rw [if_neg h]
    exact ⟨rfl, rfl, fun _ => rfl, rfl, le_succ _, rfl, rfl⟩

theorem keeps_startTextBlock : Keeps s (startTextBlock s) := by
  unfold startTextBlock
  by_cases h : s.textBlockStarted = true
  · rw [if_pos h]
    exact keeps_skip s
  · rw [if_neg h]
    exact ⟨rfl, rfl, fun _ => rfl, rfl, le_succ _, rfl, rfl⟩

theorem keeps_stopStartedTextBlock : Keeps s (stopStartedTextBlock s) := by
  unfold stopStartedTextBlock
  split
  · exact keeps_skip s
  · exact ⟨rfl, rfl, fun _ => rfl, rfl, le_refl _, rfl, rfl⟩

section

variable (hopen : s.textBlockStarted = true → s.textBlockClosed = false)
include hopen

theorem startTextBlock_open : (startTextBlock s).2.textBlockClosed = false := by
  unfold startTextBlock
  by_cases h : s.textBlockStarted = true
  · rw [if_pos h]
    exact hopen h
  · rw [if_neg h]

omit hopen in
theorem sends_emitTextDelta (text : List Char) :
    Sends s (emitTextDelta text s) (text ++ s.markdownBuffer) [] s.xmlInvokeBuffer := by
  exact ⟨congrArg (· ++ s.markdownBuffer) (textOf_textDelta _ text), rfl, fun _ => rfl, rfl,
    le_refl _, rfl, rfl⟩

/-- What was held back is sent, and nothing is held back after it. -/
theorem keeps_flushMarkdownBuffer :
    Keeps s (flushMarkdownBuffer s) ∧ (flushMarkdownBuffer s).2.markdownBuffer = [] := by
  unfold flushMarkdownBuffer
  by_cases hb : s.markdownBuffer = []
  · simp only [if_pos hb]
    exact ⟨⟨rfl, rfl, fun _ => rfl, rfl, le_refl _, rfl, rfl⟩, hb⟩
  · simp only [if_neg hb]
    have hclosed := startTextBlock_open { s with markdown := {}, markdownBuffer := [] } hopen
    have hstart := keeps_startTextBlock { s with markdown := {}, markdownBuffer := [] }
    have hbuf : (startTextBlock
        { s with markdown := {}, markdownBuffer := [] }).2.markdownBuffer = [] := by
      have htext := hstart.text
      exact (append_eq_nil_iff.1 htext).2
    have hdelta := sends_emitTextDelta
      (startTextBlock { s with markdown := {}, markdownBuffer := [] }).2 s.markdownBuffer
    rw [hbuf] at hdelta
    have hall : Sends { s with markdown := {}, markdownBuffer := [] } (startTextBlock.andThen
        (emitTextDelta s.markdownBuffer) { s with markdown := {}, markdownBuffer := [] })
        ([] ++ s.markdownBuffer) ([] ++ []) (startTextBlock
          { s with markdown := {}, markdownBuffer := [] }).2.xmlInvokeBuffer :=
      hstart.andThen (by rw [hbuf, nil_append]; rwa [append_nil] at hdelta)
    have hrun : (startTextBlock.andThen (.onState fun s' =>
        if s'.textBlockClosed then .skip else emitTextDelta s.markdownBuffer) : Stream N)
          { s with markdown := {}, markdownBuffer := [] } =
        startTextBlock.andThen (emitTextDelta s.markdownBuffer)
          { s with markdown := {}, markdownBuffer := [] } := by
      rw [andThen_apply, andThen_apply, onState_apply, hclosed]
      rfl
    rw [hrun]
    exact ⟨⟨hall.text, hall.thinking, hall.json, hall.toolCalls, hall.next,
      hall.xml.trans hstart.xml, hall.pending⟩, hbuf⟩

theorem keeps_stopTextBlock :
    Keeps s (stopTextBlock s) ∧ (stopTextBlock s).2.markdownBuffer = [] := by
  obtain ⟨hflush, hbuf⟩ := keeps_flushMarkdownBuffer s hopen
  have hstop := keeps_stopStartedTextBlock (flushMarkdownBuffer s).2
  refine ⟨hflush.then_keeps hstop, ?_⟩
  have htext := hstop.text
  rw [hbuf] at htext
  exact (append_eq_nil_iff.1 htext).2

end

/-! ## Reasoning and content -/

/-- The reasoning of a delta that is sent on. -/
def sentReasoning (delta : Delta N) : List Char :=
  if reasoningText delta = "" ∨ isInternalReasoningPlaceholder (reasoningText delta) then []
  else (reasoningText delta).toList

theorem sends_emitReasoning
    (hopen : s.textBlockStarted = true → s.textBlockClosed = false) (delta : Delta N) :
    Sends s (emitReasoning delta s) s.markdownBuffer (sentReasoning delta) s.xmlInvokeBuffer := by
  unfold emitReasoning sentReasoning
  by_cases hr : reasoningText delta = "" ∨ isInternalReasoningPlaceholder (reasoningText delta)
  · simp only [if_pos hr]
    exact keeps_skip s
  · simp only [if_neg hr]
    obtain ⟨hstop, -⟩ := keeps_stopTextBlock s hopen
    have hstart := hstop.then_keeps (keeps_startThinkingBlock (stopTextBlock s).2)
    have hdelta : ∀ t : State N, Sends t (emitThinkingDelta (reasoningText delta) t)
        (t.markdownBuffer ++ []) (reasoningText delta).toList t.xmlInvokeBuffer := fun t =>
      ⟨(append_nil _).symm, thinkingOf_thinkingDelta _ _, fun _ => rfl, rfl, le_refl _,
        rfl, rfl⟩
    have hall := hstart.andThen (hdelta _)
    rw [append_nil, nil_append, hstart.xml] at hall
    rw [andThen_assoc]
    exact hall

theorem sends_emitText (text : List Char) :
    Sends s (emitText text s) (text ++ s.markdownBuffer) [] s.xmlInvokeBuffer := by
  unfold emitText
  by_cases ht : text = []
  · rw [if_pos ht, ht]
    exact keeps_skip s
  · rw [if_neg ht]
    have hstart := keeps_startTextBlock s
    have hdelta := sends_emitTextDelta (startTextBlock s).2 text
    have hbuf : (startTextBlock s).2.markdownBuffer = s.markdownBuffer := by
      unfold startTextBlock
      split <;> rfl
    have hnone : textOf (startTextBlock s).1 = [] := by
      have htext := hstart.text
      rw [hbuf] at htext
      exact append_left_eq_self.1 htext
    refine ⟨?_, ?_, fun i => ?_, hdelta.toolCalls.trans hstart.toolCalls,
      hstart.next.trans hdelta.next, hdelta.xml.trans hstart.xml,
      hdelta.pending.trans hstart.pending⟩
    · rw [andThen_apply, textOf_append, hnone, nil_append, hdelta.text, hbuf]
    · rw [andThen_apply, thinkingOf_append, hstart.thinking, hdelta.thinking]
      rfl
    · rw [andThen_apply, jsonOf_append, hstart.json, hdelta.json]
      rfl

end

end Parts

section Content

theorem sends_sendText (cleaned : List Char) (s : State N) :
    Sends s (sendText cleaned s) cleaned [] s.xmlInvokeBuffer := by
  have h := sends_emitText
    { s with
      markdownBuffer := (splitMarkdownBoundary cleaned s.markdown).hold
      markdown := (splitMarkdownBoundary cleaned s.markdown).state }
    (splitMarkdownBoundary cleaned s.markdown).emit
  rw [emit_append_hold] at h
  rw [sendText, onState_apply, andThen_apply, update_apply, nil_append]
  exact ⟨h.text, h.thinking, h.json, h.toolCalls, h.next, h.xml, h.pending⟩

/-- Where nothing is held back the queue sends no text. -/
theorem keeps_queueToolCalls (toolCalls : List (XmlToolCall N)) {s : State N}
    (hb : s.markdownBuffer = []) :
    Keeps s (queueToolCalls toolCalls s) ∧ textOf (queueToolCalls toolCalls s).1 = [] := by
  unfold queueToolCalls
  by_cases hx : toolCalls = []
  · rw [if_pos hx]
    exact ⟨keeps_skip s, rfl⟩
  · rw [if_neg hx]
    have hflush : flushMarkdownBuffer s = ([], { s with markdown := {} }) := by
      unfold flushMarkdownBuffer
      simp only [if_pos hb]
    have hstop : ∀ t : State N, Keeps t (stopStartedTextBlock t) ∧
        textOf (stopStartedTextBlock t).1 = [] := fun t => by
      refine ⟨keeps_stopStartedTextBlock t, ?_⟩
      unfold stopStartedTextBlock
      split <;> rfl
    obtain ⟨hk, ht⟩ := hstop { s with markdown := {} }
    rw [andThen_apply, stopTextBlock, andThen_of_eq hflush, nil_append, update_apply, append_nil]
    exact ⟨⟨hk.text, hk.thinking, hk.json, hk.toolCalls, hk.next, hk.xml, hk.pending⟩, ht⟩

variable [Zero N] [DecidableEq N]

/-- The content is what the extraction leaves of it and of the text that was held back. -/
theorem sends_emitContent (env : Env N) (now : ℕ) (delta : Delta N) (s : State N) :
    Sends s (emitContent env now delta s)
      (if contentText delta = [] then s.markdownBuffer
        else (extractContent env now (contentText delta) s).cleaned) []
      (if contentText delta = [] then s.xmlInvokeBuffer
        else (extractContent env now (contentText delta) s).buffer) := by
  unfold emitContent
  by_cases ht : contentText delta = []
  · simp only [if_pos ht]
    exact keeps_skip s
  simp only [if_neg ht]
  have hstop := keeps_stopThinkingBlock s
  have hsame : (stopThinkingBlock s).2.markdownBuffer = s.markdownBuffer ∧
      (stopThinkingBlock s).2.xmlInvokeBuffer = s.xmlInvokeBuffer ∧
      textOf (stopThinkingBlock s).1 = [] := by
    unfold stopThinkingBlock
    split <;> exact ⟨rfl, rfl, rfl⟩
  have hextract : extractContent env now (contentText delta) (stopThinkingBlock s).2 =
      extractContent env now (contentText delta) s := by
    rw [extractContent, extractContent, hsame.1, hsame.2.1]
  rw [andThen_apply, onState_apply, hextract]
  generalize extractContent env now (contentText delta) s = extracted
  rw [andThen_apply, update_apply, nil_append, andThen_apply]
  obtain ⟨hqueue, hqtext⟩ := keeps_queueToolCalls extracted.toolCalls
    (s := { (stopThinkingBlock s).2 with
      markdownBuffer := [], xmlInvokeBuffer := extracted.buffer }) rfl
  have hsend := sends_sendText extracted.cleaned (queueToolCalls extracted.toolCalls
    { (stopThinkingBlock s).2 with
      markdownBuffer := [], xmlInvokeBuffer := extracted.buffer }).2
  refine ⟨?_, ?_, fun i => ?_, hsend.toolCalls.trans (hqueue.toolCalls.trans hstop.toolCalls),
    hstop.next.trans (hqueue.next.trans hsend.next), hsend.xml.trans hqueue.xml,
    hsend.pending.trans (hqueue.pending.trans hstop.pending)⟩
  · rw [textOf_append, textOf_append, hsame.2.2, hqtext, nil_append, nil_append]
    exact hsend.text
  · rw [thinkingOf_append, thinkingOf_append, hstop.thinking, hqueue.thinking, hsend.thinking]
    rfl
  · rw [jsonOf_append, jsonOf_append, hstop.json, hqueue.json, hsend.json]
    rfl

end Content

/-! ## What is delivered so far -/

/-- The arguments of every tool call are those accumulated in `acc`, and sent unless they are to be
corrected first. -/
structure ToolsDelivered (acc : ℤ → List Char) (s : State N) (w : List (ClaudeEvent N)) :
    Prop where
  args : ∀ idx info, s.toolCalls.get idx = some info → info.argBuffer = acc idx ∧
    (info.startEmitted = false → acc idx = [] ∧ jsonOf info.blockIndex w = []) ∧
    (info.shimmed = false → jsonOf info.blockIndex w = acc idx)
  unknown : ∀ idx, s.toolCalls.get idx = none → acc idx = []
  fresh : ∀ i, s.nextBlockIndex ≤ i → jsonOf i w = []

structure Delivery (text thinking : List Char) (acc : ℤ → List Char) (s : State N)
    (w : List (ClaudeEvent N)) : Prop extends ToolsDelivered acc s w where
  text : textOf w ++ s.markdownBuffer = text
  thinking : thinkingOf w = thinking

section Tools

variable {fin : Bool} {text thinking : List Char} {acc : ℤ → List Char} {s : State N} {g : Reader}
  {w : List (ClaudeEvent N)}

theorem ToolsDelivered.of_same (h : ToolsDelivered acc s w) {s' : State N}
    {l : List (ClaudeEvent N)} (hjson : ∀ i, jsonOf i l = [])
    (htools : s'.toolCalls = s.toolCalls) (hnext : s.nextBlockIndex ≤ s'.nextBlockIndex) :
    ToolsDelivered acc s' (w ++ l) := by
  have hsame : ∀ i, jsonOf i (w ++ l) = jsonOf i w := fun i => by
    rw [jsonOf_append, hjson, append_nil]
  refine ⟨fun idx info hget => ?_, fun idx hget => ?_, fun i hi => ?_⟩
  · rw [htools] at hget
    rw [hsame]
    exact h.args idx info hget
  · rw [htools] at hget
    exact h.unknown idx hget
  · rw [hsame]
    exact h.fresh i (hnext.trans hi)

theorem Delivery.sends (h : Delivery text thinking acc s w)
    {r : List (ClaudeEvent N) × State N} {text' thinking' xml' : List Char}
    (hr : Sends s r text' thinking' xml') :
    Delivery (textOf w ++ text') (thinking ++ thinking') acc r.2 (w ++ r.1) where
  toToolsDelivered := h.toToolsDelivered.of_same hr.json hr.toolCalls hr.next
  text := by rw [textOf_append, append_assoc, hr.text]
  thinking := by rw [thinkingOf_append, h.thinking, hr.thinking]

theorem Delivery.keeps (h : Delivery text thinking acc s w)
    {r : List (ClaudeEvent N) × State N} (hr : Keeps s r) :
    Delivery text thinking acc r.2 (w ++ r.1) := by
  have hd := h.sends hr
  rwa [h.text, append_nil] at hd

theorem keeps_stopBoth (s : State N)
    (hopen : s.textBlockStarted = true → s.textBlockClosed = false) :
    Keeps s (stopThinkingBlock.andThen stopTextBlock s) ∧
      (stopThinkingBlock.andThen stopTextBlock s).2.markdownBuffer = [] := by
  have hopen' : (stopThinkingBlock s).2.textBlockStarted = true →
      (stopThinkingBlock s).2.textBlockClosed = false := by
    unfold stopThinkingBlock
    split <;> exact hopen
  obtain ⟨hstop, hbuf⟩ := keeps_stopTextBlock (stopThinkingBlock s).2 hopen'
  exact ⟨(keeps_stopThinkingBlock s).then_keeps hstop, hbuf⟩

/-- From `s` to `s'` at most the tool call at `idx` changes: it keeps its block, once started it
stays started and as it is, and without a name nothing decides anew whether it is shimmed. -/
structure Moves (name : String) (idx : ℤ) (s s' : State N) : Prop where
  other : ∀ j, j ≠ idx → s'.toolCalls.get j = s.toolCalls.get j
  own : ∀ info, s.toolCalls.get idx = some info → ∃ info', s'.toolCalls.get idx = some info' ∧
    info'.blockIndex = info.blockIndex ∧ (info.startEmitted = true → info'.startEmitted = true) ∧
    (info.startEmitted = true ∨ name = "" → info'.shimmed = info.shimmed)
  xml : s'.xmlInvokeBuffer = s.xmlInvokeBuffer
  pending : s'.pendingClaudeFinishChoice = s.pendingClaudeFinishChoice

section Moves

variable {name : String} {idx : ℤ} {s' : State N}

theorem Moves.refl (s : State N) : Moves name idx s s :=
  ⟨fun _ _ => rfl, fun info hget => ⟨info, hget, rfl, id, fun _ => rfl⟩, rfl, rfl⟩

theorem Moves.trans {s₁ s₂ s₃ : State N} (h : Moves name idx s₁ s₂) (h' : Moves name idx s₂ s₃) :
    Moves name idx s₁ s₃ := by
  refine ⟨fun j hj => (h'.other j hj).trans (h.other j hj), fun info hget => ?_,
    h'.xml.trans h.xml, h'.pending.trans h.pending⟩
  obtain ⟨info₂, hget₂, hb, hs, hshim⟩ := h.own info hget
  obtain ⟨info₃, hget₃, hb', hs', hshim'⟩ := h'.own info₂ hget₂
  exact ⟨info₃, hget₃, hb'.trans hb, fun hstart => hs' (hs hstart),
    fun hor => (hshim' (hor.imp_left hs)).trans (hshim hor)⟩

theorem Moves.of_set {info info' : ToolInfo}
    (hget : s.toolCalls.get idx = some info) (hs' : s'.toolCalls = s.toolCalls.set idx info')
    (hblock : info'.blockIndex = info.blockIndex)
    (hstart : info.startEmitted = true → info'.startEmitted = true)
    (hshim : info.startEmitted = true ∨ name = "" → info'.shimmed = info.shimmed)
    (hxml : s'.xmlInvokeBuffer = s.xmlInvokeBuffer)
    (hpending : s'.pendingClaudeFinishChoice = s.pendingClaudeFinishChoice) :
    Moves name idx s s' := by
  refine ⟨fun j hj => ?_, fun x hx => ?_, hxml, hpending⟩
  · rw [hs']
    exact get_set_ne _ hj _
  · rw [hget] at hx
    cases hx
    refine ⟨info', ?_, hblock, hstart, hshim⟩
    rw [hs']
    exact get_set_self _ _ _

end Moves

/-! ## A tool call -/

theorem delivery_registerToolCall (env : Env N) {tc : ToolCallDelta N}
    (hopen : s.textBlockStarted = true → s.textBlockClosed = false)
    (h : Delivery text thinking acc s w)
    (hknown : truthyText tc.id ≠ none ∨ s.toolCalls.get tc.idx ≠ none) :
    Delivery text thinking acc (registerToolCall env tc s).2
        (w ++ (registerToolCall env tc s).1) ∧
      (registerToolCall env tc s).2.toolCalls.get tc.idx ≠ none ∧
      Moves (incomingToolName env tc) tc.idx s (registerToolCall env tc s).2 := by
  rw [registerToolCall, onState_apply]
  cases hid : truthyText tc.id with
  | none =>
    refine ⟨by simpa using h, ?_, Moves.refl s⟩
    exact hknown.resolve_left fun hne => hne hid
  | some id =>
    by_cases hsome : (s.toolCalls.get tc.idx).isSome = true
    · simp only [if_pos hsome]
      refine ⟨by simpa using h, ?_, Moves.refl s⟩
      exact Option.isSome_iff_ne_none.1 hsome
    · simp only [if_neg hsome]
      obtain ⟨hkeep, -⟩ := keeps_stopBoth s hopen
      rw [andThen_assoc, andThen_apply, update_apply, append_nil]
      have hd := h.keeps hkeep
      have hnone : s.toolCalls.get tc.idx = none := Option.not_isSome_iff_eq_none.1 hsome
      have hnone' := hnone
      rw [← hkeep.toolCalls] at hnone'
      have htools := hkeep.toolCalls
      have hxml := hkeep.xml
      have hpending := hkeep.pending
      generalize stopThinkingBlock.andThen stopTextBlock s = r at *
      refine ⟨⟨⟨fun idx info hget => ?_, fun idx hget => ?_, fun i hi => ?_⟩, hd.text,
        hd.thinking⟩, ?_, fun j hj => ?_, fun info hget => ?_, hxml, hpending⟩
      · rw [addToolCall, get_set] at hget
        by_cases hidx : idx = tc.idx
        · rw [if_pos hidx] at hget
          cases hget
          have hacc := hd.unknown tc.idx hnone'
          have hfresh := hd.fresh r.2.nextBlockIndex (le_refl _)
          rw [hidx, hacc]
          exact ⟨rfl, fun _ => ⟨rfl, hfresh⟩, fun _ => hfresh⟩
        · rw [if_neg hidx] at hget
          exact hd.args idx info hget
      · rw [addToolCall, get_set] at hget
        by_cases hidx : idx = tc.idx
        · rw [if_pos hidx] at hget
          cases hget
        · rw [if_neg hidx] at hget
          exact hd.unknown idx hget
      · exact hd.fresh i (le_of_succ_le hi)
      · rw [addToolCall, get_set_self]
        exact Option.some_ne_none _
      · rw [addToolCall, get_set_ne _ hj, htools]
      · rw [hnone] at hget
        cases hget

/-- A tool call whose information changes without its arguments. -/
theorem Delivery.setTool (h : Delivery text thinking acc s w) {idx : ℤ} {info info' : ToolInfo}
    (hget : s.toolCalls.get idx = some info) {l : List (ClaudeEvent N)}
    (hjson : ∀ i, jsonOf i l = []) (htext : textOf l = []) (hthinking : thinkingOf l = [])
    (hblock : info'.blockIndex = info.blockIndex) (hargs : info'.argBuffer = info.argBuffer)
    (hstart : info.startEmitted = true →
      info'.startEmitted = true ∧ info'.shimmed = info.shimmed) :
    Delivery text thinking acc { s with toolCalls := s.toolCalls.set idx info' } (w ++ l) := by
  have hsame : ∀ i, jsonOf i (w ++ l) = jsonOf i w := fun i => by
    rw [jsonOf_append, hjson, append_nil]
  obtain ⟨hbuf, hunstarted, hsent⟩ := h.args idx info hget
  refine ⟨⟨fun j x hx => ?_, fun j hx => ?_, fun i hi => ?_⟩, ?_, ?_⟩
  · rw [hsame]
    rw [get_set] at hx
    by_cases hj : j = idx
    · rw [if_pos hj] at hx
      cases hx
      rw [hj, hargs, hblock]
      by_cases hs : info.startEmitted = true
      · obtain ⟨hs', hshim⟩ := hstart hs
        rw [hs', hshim]
        exact ⟨hbuf, fun hc => (by cases hc), hsent⟩
      · obtain ⟨hacc, hnone⟩ := hunstarted (Bool.eq_false_iff.2 hs)
        exact ⟨hbuf, fun _ => ⟨hacc, hnone⟩, fun _ => hnone.trans hacc.symm⟩
    · rw [if_neg hj] at hx
      exact h.args j x hx
  · rw [get_set] at hx
    by_cases hj : j = idx
    · rw [if_pos hj] at hx
      cases hx
    · rw [if_neg hj] at hx
      exact h.unknown j hx
  · rw [hsame]
    exact h.fresh i hi
  · rw [textOf_append, htext, append_nil]
    exact h.text
  · rw [thinkingOf_append, hthinking, append_nil]
    exact h.thinking

theorem delivery_startToolCall (env : Env N) {tc : ToolCallDelta N} {info : ToolInfo}
    (h : Delivery text thinking acc s w) (hget : s.toolCalls.get tc.idx = some info) :
    Delivery text thinking acc (startToolCall env tc s).2 (w ++ (startToolCall env tc s).1) ∧
      Moves (incomingToolName env tc) tc.idx s (startToolCall env tc s).2 ∧
      ∃ info', (startToolCall env tc s).2.toolCalls.get tc.idx = some info' ∧
        ((incomingToolName env tc ≠ "" ∨ tc.givesArguments = true) →
          info'.startEmitted = true) := by
  obtain ⟨hblock, hstarted, hargs⟩ := withLate_fields info tc (incomingToolName env tc)
  have hshim : info.startEmitted = true →
      (info.withLate tc (incomingToolName env tc)).shimmed = info.shimmed :=
    fun hs => withLate_started hs tc _
  have hunnamed : incomingToolName env tc = "" →
      (info.withLate tc (incomingToolName env tc)).shimmed = info.shimmed := by
    intro hempty
    obtain ⟨-, -, -, hs, -⟩ := withLateId_fields info tc
    unfold ToolInfo.withLate ToolInfo.withLateName
    rw [if_neg (by simp [hempty])]
    exact hs
  have hname : incomingToolName env tc ≠ "" → info.startEmitted = false →
      (info.withLate tc (incomingToolName env tc)).name ≠ "" := by
    intro hne hnot
    obtain ⟨-, hs, hn, -, -⟩ := withLateId_fields info tc
    unfold ToolInfo.withLate ToolInfo.withLateName
    split
    · exact hne
    · next hc =>
      intro hempty
      exact hc (by simp [hne, hs, hnot, hempty])
  have hstart : startToolCall env tc s =
      startKnownToolCall tc (info.withLate tc (incomingToolName env tc)) s := by
    rw [startToolCall, hget]
  rw [hstart]
  generalize info.withLate tc (incomingToolName env tc) = late at *
  unfold startKnownToolCall
  by_cases hcond : (!late.startEmitted && (decide (late.name ≠ "") || tc.givesArguments)) = true
  · rw [if_pos hcond]
    refine ⟨h.setTool hget (fun _ => rfl) rfl rfl hblock hargs fun hs => ⟨rfl, hshim hs⟩,
      Moves.of_set hget rfl hblock (fun _ => rfl) (fun hor => hor.elim hshim hunnamed) rfl rfl,
      _, get_set_self _ _ _, fun _ => rfl⟩
  · rw [if_neg hcond]
    refine ⟨h.setTool hget (fun _ => rfl) rfl rfl hblock hargs
      fun hs => ⟨hstarted.trans hs, hshim hs⟩,
      Moves.of_set hget rfl hblock hstarted.trans (fun hor => hor.elim hshim hunnamed) rfl rfl,
      late, get_set_self _ _ _, fun hor => ?_⟩
    by_contra hnot
    have hnot' : late.startEmitted = false := Bool.eq_false_iff.2 hnot
    have hinfo : info.startEmitted = false := hstarted ▸ hnot'
    refine hcond ?_
    rw [hnot', Bool.not_false, Bool.true_and, Bool.or_eq_true, decide_eq_true_iff]
    exact hor.imp (fun hne => hname hne hinfo) id

end Tools

/-! ## Arguments -/

section Arguments

variable [JsonNumber N]

theorem prefix_append (existing : List Char) (incoming : Json N) :
    existing <+: appendToolCallArgumentDelta existing incoming := by
  unfold appendToolCallArgumentDelta
  simp only
  split_ifs with h₁ h₂ h₃
  · rw [h₁]
    exact nil_prefix
  · exact prefix_refl _
  · exact List.isPrefixOf_iff_prefix.1 h₃
  · exact List.prefix_append _ _

/-- Arguments stay as they are under an empty fragment and under a repetition, and only then. -/
theorem append_eq_self_iff (existing : List Char) (incoming : Json N) :
    appendToolCallArgumentDelta existing incoming = existing ↔
      normalizeIncomingFragment incoming = [] ∨
        normalizeIncomingFragment incoming = existing := by
  unfold appendToolCallArgumentDelta
  simp only
  split_ifs with h₁ h₂ h₃
  · rw [h₁, or_self]
  · exact iff_of_true rfl (.inl h₂)
  · exact ⟨.inr, fun h => h.resolve_left h₂⟩
  · rw [append_right_eq_self]
    refine ⟨.inl, fun h => h.resolve_right fun heq => h₃ ?_⟩
    rw [heq]
    exact List.isPrefixOf_iff_prefix.2 (prefix_refl _)

/-- An increment is appended. -/
theorem append_of_increment {existing : List Char} {incoming : Json N}
    (h : existing = [] ∨ ¬existing <+: normalizeIncomingFragment incoming) :
    appendToolCallArgumentDelta existing incoming =
      existing ++ normalizeIncomingFragment incoming := by
  unfold appendToolCallArgumentDelta
  simp only
  split_ifs with h₁ h₂ h₃
  · rw [h₁, nil_append]
  · rw [h₂, append_nil]
  · exact absurd (List.isPrefixOf_iff_prefix.1 h₃) (h.resolve_left h₁)
  · rfl

theorem normalize_of_not_truthy [Zero N] [DecidableEq N] {incoming : Json N}
    (h : ¬incoming.truthy = true) : normalizeIncomingFragment incoming = [] := by
  cases incoming with
  | str s =>
    have hs : s = "" := by simpa [Json.truthy] using h
    rw [hs]
    rfl
  | arr items => exact absurd rfl h
  | obj fields => exact absurd rfl h
  | _ => rfl

/-- The arguments accumulated by index, after a fragment. -/
def advance (acc : ℤ → List Char) (tc : ToolCallDelta N) : ℤ → List Char :=
  Function.update acc tc.idx (appendToolCallArgumentDelta (acc tc.idx) tc.arguments)

variable [Zero N] [DecidableEq N] {text thinking : List Char} {acc : ℤ → List Char} {s : State N}
  {w : List (ClaudeEvent N)}

theorem delivery_emitArguments {tc : ToolCallDelta N} {info : ToolInfo}
    (hdistinct : ∀ idx idx' info info', s.toolCalls.get idx = some info →
      s.toolCalls.get idx' = some info' → info.blockIndex = info'.blockIndex → idx = idx')
    (hlt : ∀ idx info, s.toolCalls.get idx = some info → info.blockIndex < s.nextBlockIndex)
    (h : Delivery text thinking acc s w) (hget : s.toolCalls.get tc.idx = some info)
    (hstarted : tc.givesArguments = true → info.startEmitted = true) :
    Delivery text thinking (advance acc tc) (emitArguments tc s).2
        (w ++ (emitArguments tc s).1) ∧
      ∃ info', (emitArguments tc s).2.toolCalls = s.toolCalls.set tc.idx info' ∧
        info'.blockIndex = info.blockIndex ∧ info'.startEmitted = info.startEmitted ∧
        info'.shimmed = info.shimmed := by
  obtain ⟨hbuf, hunstarted, hsent⟩ := h.args tc.idx info hget
  by_cases ht : tc.arguments.truthy = true
  swap
  · rw [emitArguments_of_not_truthy ht, append_nil]
    have hacc : advance acc tc = acc := by
      rw [advance, (append_eq_self_iff _ _).2 (.inl (normalize_of_not_truthy ht)), update_eq_self]
    rw [hacc]
    exact ⟨h, info, (set_of_get hget).symm, rfl, rfl, rfl⟩
  have hemit : emitArguments tc s = emitKnownArguments tc info s := by
    unfold emitArguments
    rw [hget]
    exact if_pos ht
  have hon := hstarted (givesArguments_of_truthy ht)
  rw [hemit, emitKnownArguments, hbuf]
  obtain ⟨added, hadded⟩ := prefix_append (acc tc.idx) tc.arguments
  have hdrop : (appendToolCallArgumentDelta (acc tc.idx) tc.arguments).drop
      (acc tc.idx).length = added := by rw [← hadded, drop_left]
  refine ⟨?_, _, rfl, rfl, rfl, rfl⟩
  simp only [hdrop]
  generalize hevents : ((if info.shimmed || decide (added = []) then []
      else [.contentBlockDelta info.blockIndex (.inputJsonDelta (String.ofList added))]) :
        List (ClaudeEvent N)) = l
  -- The events carry what is added, unless the tool is shimmed, and only for the block of the call.
  have hjson : ∀ i, jsonOf i l =
      if info.shimmed = false ∧ info.blockIndex = i then added else [] := by
    intro i
    subst hevents
    cases hshim : info.shimmed with
    | true => rfl
    | false =>
      by_cases ha : added = []
      · simp [ha, jsonOf]
      · simp only [ha, decide_false, Bool.or_false, Bool.false_eq_true, if_false, true_and]
        exact jsonOf_inputJsonDelta _ _ _
  have htext : textOf l = [] := by
    subst hevents
    split <;> rfl
  have hthinking : thinkingOf l = [] := by
    subst hevents
    split <;> rfl
  refine ⟨⟨fun j x hx => ?_, fun j hx => ?_, fun i hi => ?_⟩, ?_, ?_⟩
  · rw [get_set] at hx
    rw [jsonOf_append, hjson]
    by_cases hj : j = tc.idx
    · rw [if_pos hj] at hx
      cases hx
      rw [hj, advance, update_self]
      refine ⟨rfl, fun hs => ?_, fun hs => ?_⟩
      · rw [hon] at hs
        cases hs
      · rw [if_pos ⟨hs, rfl⟩, hsent hs, hadded]
    · rw [if_neg hj] at hx
      rw [advance, update_of_ne hj, if_neg, append_nil]
      · exact h.args j x hx
      · exact fun hc => hj (hdistinct j tc.idx x info hx hget hc.2.symm)
  · rw [get_set] at hx
    by_cases hj : j = tc.idx
    · rw [if_pos hj] at hx
      cases hx
    · rw [if_neg hj] at hx
      rw [advance, update_of_ne hj]
      exact h.unknown j hx
  · have hne : ¬(info.shimmed = false ∧ info.blockIndex = i) := fun hc => by
      have := hlt tc.idx info hget
      rw [hc.2] at this
      exact absurd (this.trans_le hi) (lt_irrefl _)
    rw [jsonOf_append, hjson, if_neg hne, append_nil]
    exact h.fresh i hi
  · rw [textOf_append, htext, append_nil]
    exact h.text
  · rw [thinkingOf_append, hthinking, append_nil]
    exact h.thinking

variable (env : Env N)

/-- A fragment of a tool call that is known, or that gives an id. -/
theorem delivery_emitToolCall {fin : Bool} {g : Reader} {tc : ToolCallDelta N}
    (hsync : Sync fin s g) (h : Delivery text thinking acc s w)
    (hknown : truthyText tc.id ≠ none ∨ s.toolCalls.get tc.idx ≠ none) :
    Delivery text thinking (advance acc tc) (emitToolCall env tc s).2
        (w ++ (emitToolCall env tc s).1) ∧
      Moves (incomingToolName env tc) tc.idx s (emitToolCall env tc s).2 ∧
      ∃ info, (emitToolCall env tc s).2.toolCalls.get tc.idx = some info ∧
        (incomingToolName env tc ≠ "" → info.startEmitted = true) := by
  rw [emitToolCall, andThen_assoc, andThen_apply, andThen_apply]
  obtain ⟨g₁, -, hsync₁⟩ := sync_registerToolCall env tc s g hsync
  obtain ⟨hd₁, hsome, hmoves₁⟩ := delivery_registerToolCall env hsync.textOpen h hknown
  generalize registerToolCall env tc s = r₁ at *
  obtain ⟨info₁, hget₁⟩ := Option.ne_none_iff_exists'.1 hsome
  obtain ⟨g₂, -, hsync₂, -⟩ := sync_startToolCall env tc r₁.2 g₁ hsync₁
  obtain ⟨hd₂, hmoves₂, info₂, hget₂, hstarted⟩ := delivery_startToolCall env hd₁ hget₁
  generalize startToolCall env tc r₁.2 = r₂ at *
  obtain ⟨hd₃, info₃, htools, hblock, hstart, hshim⟩ := delivery_emitArguments hsync₂.distinct
    (fun idx info hget => (hsync₂.reserved idx info hget).1) hd₂ hget₂ fun ha => hstarted (.inr ha)
  have hsame : (emitArguments tc r₂.2).2.xmlInvokeBuffer = r₂.2.xmlInvokeBuffer ∧
      (emitArguments tc r₂.2).2.pendingClaudeFinishChoice = r₂.2.pendingClaudeFinishChoice := by
    unfold emitArguments
    rw [hget₂]
    simp only
    split
    · exact ⟨rfl, rfl⟩
    · exact ⟨rfl, rfl⟩
  have hmoves₃ : Moves (incomingToolName env tc) tc.idx r₂.2 (emitArguments tc r₂.2).2 :=
    Moves.of_set hget₂ htools hblock hstart.trans (fun _ => hshim) hsame.1 hsame.2
  refine ⟨?_, (hmoves₁.trans hmoves₂).trans hmoves₃, info₃, ?_, fun hname => ?_⟩
  · rw [← append_assoc, ← append_assoc]
    exact hd₃
  · rw [htools]
    exact get_set_self _ _ _
  · exact hstart.trans (hstarted (.inl hname))

/-! ## All fragments -/

/-- The tool calls of the fragments are in the table, started if a fragment names them. -/
def Known (env : Env N) (fragments : List (ToolCallDelta N)) (s : State N) : Prop :=
  ∀ tc ∈ fragments, ∃ info, s.toolCalls.get tc.idx = some info ∧
    (incomingToolName env tc ≠ "" → info.startEmitted = true)

omit [JsonNumber N] [Zero N] [DecidableEq N] in
theorem Known.moves {env : Env N} {fragments : List (ToolCallDelta N)} {s' : State N}
    {name : String} {idx : ℤ} (h : Known env fragments s) (hmoves : Moves name idx s s') :
    Known env fragments s' := by
  intro tc htc
  obtain ⟨info, hget, hs⟩ := h tc htc
  by_cases hidx : tc.idx = idx
  · rw [hidx] at hget ⊢
    obtain ⟨info', hget', -, hstart, -⟩ := hmoves.own info hget
    exact ⟨info', hget', fun hname => hstart (hs hname)⟩
  · exact ⟨info, (hmoves.other _ hidx).trans hget, hs⟩

/-- What all fragments of a stream so far have given. -/
def accumulated (acc : ℤ → List Char) (fragments : List (ToolCallDelta N)) : ℤ → List Char :=
  fragments.foldl advance acc

/-- The fragments of a delta, each at an index that is known by then or with an id. -/
theorem delivery_emitToolCalls {fin : Bool} {base fragments : List (ToolCallDelta N)}
    (hknown : ∀ done tc rest, fragments = done ++ tc :: rest →
      truthyText tc.id ≠ none ∨ ∃ tc' ∈ base ++ done, tc'.idx = tc.idx)
    {P : State N → Prop} (hP : ∀ tc ∈ fragments, ∀ s s', Known env base s →
      Moves (incomingToolName env tc) tc.idx s s' → P s → P s') :
    Emitter.Triple (logged readEvent)
      (fun s p => Sync fin s p.1 ∧ Delivery text thinking acc s p.2 ∧ Known env base s ∧ P s)
      (forEach (emitToolCall env) fragments)
      (fun s p => Sync fin s p.1 ∧ Delivery text thinking (accumulated acc fragments) s p.2 ∧
        Known env (base ++ fragments) s ∧ P s) := by
  refine triple_pre (P := fun s p => Sync fin s p.1 ∧
    Delivery text thinking (accumulated acc []) s p.2 ∧ Known env (base ++ []) s ∧ P s)
    (fun s p h => by rwa [append_nil])
    (triple_forEach_of (I := fun done (s : State N) (p : Reader × _) => Sync fin s p.1 ∧
      Delivery text thinking (accumulated acc done) s p.2 ∧ Known env (base ++ done) s ∧ P s)
      fun done tc rest hl => ?_)
  rintro s ⟨g, w⟩ ⟨hsync, hd, hk, hp⟩
  have hid : truthyText tc.id ≠ none ∨ s.toolCalls.get tc.idx ≠ none := by
    refine (hknown done tc rest hl).imp_right ?_
    rintro ⟨tc', hmem, hidx⟩
    obtain ⟨info, hget, -⟩ := hk tc' hmem
    rw [← hidx, hget]
    exact Option.some_ne_none _
  obtain ⟨g', hread, hsync'⟩ := sync_emitToolCall env tc s g hsync
  obtain ⟨hd', hmoves, info, hget, hstarted⟩ := delivery_emitToolCall env hsync hd hid
  refine ⟨(g', w ++ (emitToolCall env tc s).1), ?_, hsync', ?_, ?_, ?_⟩
  · rw [readAll_logged, hread]
    rfl
  · rw [accumulated, foldl_append]
    exact hd'
  · rw [← append_assoc]
    intro tc' hmem
    rcases mem_append.1 hmem with hmem | hmem
    · exact hk.moves hmoves tc' hmem
    · obtain rfl := mem_singleton.1 hmem
      exact ⟨info, hget, hstarted⟩
  · refine hP tc ?_ s _ (fun tc' hmem => hk tc' (mem_append_left _ hmem)) hmoves hp
    rw [hl]
    exact mem_append_right _ mem_cons_self

/-! ### Accumulated arguments -/

omit [Zero N] [DecidableEq N] in
theorem accumulated_prefix (acc : ℤ → List Char) (fragments : List (ToolCallDelta N)) (idx : ℤ) :
    acc idx <+: accumulated acc fragments idx := by
  induction fragments generalizing acc with
  | nil => exact prefix_refl _
  | cons tc fragments ih =>
    refine List.IsPrefix.trans ?_ (ih (advance acc tc))
    by_cases hidx : idx = tc.idx
    · rw [hidx, advance, update_self]
      exact prefix_append _ _
    · have hsame : advance acc tc idx = acc idx := update_of_ne hidx _ _
      exact ⟨[], by rw [hsame, append_nil]⟩

omit [Zero N] [DecidableEq N] in
/-- Fragments leave what is accumulated as it is when each of them is empty or repeats it. -/
theorem accumulated_eq_self_iff (acc : ℤ → List Char) (fragments : List (ToolCallDelta N))
    (idx : ℤ) : accumulated acc fragments idx = acc idx ↔
      ∀ tc ∈ fragments, tc.idx = idx → normalizeIncomingFragment tc.arguments = [] ∨
        normalizeIncomingFragment tc.arguments = acc idx := by
  induction fragments generalizing acc with
  | nil => exact iff_of_true rfl fun _ h => (by cases h)
  | cons tc fragments ih =>
    have hstep : acc idx <+: advance acc tc idx := accumulated_prefix acc [tc] idx
    have hrest : advance acc tc idx <+: accumulated acc (tc :: fragments) idx :=
      accumulated_prefix (advance acc tc) fragments idx
    have hsplit : accumulated acc (tc :: fragments) idx = acc idx ↔
        advance acc tc idx = acc idx ∧
          accumulated (advance acc tc) fragments idx = advance acc tc idx := by
      constructor
      · intro heq
        rw [heq] at hrest
        have hsame := hrest.eq_of_length_le hstep.length_le
        exact ⟨hsame, heq.trans hsame.symm⟩
      · rintro ⟨h₁, h₂⟩
        exact h₂.trans h₁
    have hfirst : advance acc tc idx = acc idx ↔ (tc.idx = idx →
        normalizeIncomingFragment tc.arguments = [] ∨
          normalizeIncomingFragment tc.arguments = acc idx) := by
      by_cases hidx : tc.idx = idx
      · rw [← hidx, advance, update_self, append_eq_self_iff]
        exact ⟨fun h _ => h, fun h => h rfl⟩
      · rw [advance, update_of_ne (Ne.symm hidx)]
        exact iff_of_true rfl fun h => absurd h hidx
    rw [hsplit, forall_mem_cons, ← hfirst]
    refine and_congr_right fun hsame => ?_
    rw [ih, hsame]

/-- The arguments of the fragments at an index, one after the other. -/
def argumentsOf (idx : ℤ) (fragments : List (ToolCallDelta N)) : List Char :=
  (fragments.filter fun tc => tc.idx = idx).flatMap fun tc => normalizeIncomingFragment tc.arguments

/-- Increments: what is accumulated is never the beginning of the next fragment. -/
def Increments (fragments : List (ToolCallDelta N)) : Prop :=
  ∀ done tc rest, fragments = done ++ tc :: rest → argumentsOf tc.idx done = [] ∨
    ¬argumentsOf tc.idx done <+: normalizeIncomingFragment tc.arguments

omit [Zero N] [DecidableEq N] in
theorem accumulated_of_increments {fragments : List (ToolCallDelta N)} (h : Increments fragments) :
    accumulated (fun _ => []) fragments = fun idx => argumentsOf idx fragments := by
  suffices hrest : ∀ rest done, fragments = done ++ rest →
      accumulated (fun idx => argumentsOf idx done) rest = fun idx => argumentsOf idx fragments from
    hrest fragments [] rfl
  intro rest
  induction rest with
  | nil =>
    intro done hl
    rw [append_nil] at hl
    rw [hl]
    rfl
  | cons tc rest ih =>
    intro done hl
    rw [← ih (done ++ [tc]) (by rw [hl, append_assoc, singleton_append])]
    rw [accumulated, foldl_cons, accumulated]
    congr
    funext idx
    by_cases hidx : idx = tc.idx
    · rw [hidx, advance, update_self, append_of_increment (h done tc rest hl)]
      simp [argumentsOf]
    · rw [advance, update_of_ne hidx]
      simp [argumentsOf, Ne.symm hidx]

/-! ## A delta -/

/-- What a choice adds: all but the start of the message and the finish. -/
def translateDelta (env : Env N) (now : ℕ) (delta : Delta N) : Stream N :=
  (emitReasoning delta).andThen ((emitContent env now delta).andThen
    (.forEach (emitToolCall env) delta.toolCalls))

theorem translateChoice_eq (now : ℕ) (chunk : Option (Chunk N))
    (hasChunkUsage flushing : Bool) (choice : Choice N) :
    translateChoice env now chunk hasChunkUsage flushing choice =
      (startMessage now chunk).andThen ((translateDelta env now choice.delta).andThen
        (closeChoice env hasChunkUsage flushing choice)) := by
  simp only [translateChoice, translateDelta, andThen_assoc]

/-- The text there is after a delta, sent and held back. -/
def textAfter (env : Env N) (now : ℕ) (delta : Delta N) (s : State N) (w : List (ClaudeEvent N)) :
    List Char :=
  if contentText delta = [] then textOf w ++ s.markdownBuffer
  else textOf (w ++ (emitReasoning delta s).1) ++
    (extractContent env now (contentText delta) (emitReasoning delta s).2).cleaned

/-- The markup there is after a delta. -/
def markupAfter (env : Env N) (now : ℕ) (delta : Delta N) (s : State N) : List Char :=
  if contentText delta = [] then s.xmlInvokeBuffer
  else (extractContent env now (contentText delta) (emitReasoning delta s).2).buffer

theorem delivery_translateDelta (now : ℕ) {fin : Bool} {g : Reader}
    {delta : Delta N} {base : List (ToolCallDelta N)} (hsync : Sync fin s g)
    (h : Delivery text thinking acc s w) (hbase : Known env base s)
    (hknown : ∀ done tc rest, delta.toolCalls = done ++ tc :: rest →
      truthyText tc.id ≠ none ∨ ∃ tc' ∈ base ++ done, tc'.idx = tc.idx)
    {P : State N → Prop} (hsame : ∀ s', s'.toolCalls = s.toolCalls →
      s'.pendingClaudeFinishChoice = s.pendingClaudeFinishChoice → P s')
    (hP : ∀ tc ∈ delta.toolCalls, ∀ s s', Known env base s →
      Moves (incomingToolName env tc) tc.idx s s' → P s → P s') :
    ∃ g', readAll readEvent g (translateDelta env now delta s).1 = some g' ∧
      Sync fin (translateDelta env now delta s).2 g' ∧
      Delivery (textAfter env now delta s w) (thinking ++ sentReasoning delta)
        (accumulated acc delta.toolCalls) (translateDelta env now delta s).2
        (w ++ (translateDelta env now delta s).1) ∧
      Known env (base ++ delta.toolCalls) (translateDelta env now delta s).2 ∧
      P (translateDelta env now delta s).2 ∧
      (translateDelta env now delta s).2.xmlInvokeBuffer = markupAfter env now delta s := by
  obtain ⟨g₁, hread₁, hsync₁⟩ := sync_emitReasoning delta s g hsync
  have hsent₁ := sends_emitReasoning s hsync.textOpen delta
  have hd₁ := h.sends hsent₁
  rw [h.text] at hd₁
  rw [translateDelta, textAfter, markupAfter, andThen_apply, andThen_apply]
  have hxml₁ := hsent₁.xml
  have htools₁ := hsent₁.toolCalls
  have hpending₁ := hsent₁.pending
  generalize emitReasoning delta s = r₁ at *
  obtain ⟨g₂, hread₂, hsync₂⟩ := sync_emitContent env now delta r₁.2 g₁ hsync₁
  have hsent₂ := sends_emitContent env now delta r₁.2
  have hd₂ := hd₁.sends hsent₂
  rw [append_nil] at hd₂
  have hxml₂ := hsent₂.xml
  have htools₂ := hsent₂.toolCalls.trans htools₁
  have hpending₂ := hsent₂.pending.trans hpending₁
  have htext : (if contentText delta = [] then textOf w ++ s.markdownBuffer
      else textOf (w ++ r₁.1) ++ (extractContent env now (contentText delta) r₁.2).cleaned) =
      textOf (w ++ r₁.1) ++ (if contentText delta = [] then r₁.2.markdownBuffer
        else (extractContent env now (contentText delta) r₁.2).cleaned) := by
    by_cases ht : contentText delta = []
    · rw [if_pos ht, if_pos ht, h.text, hd₁.text]
    · rw [if_neg ht, if_neg ht]
  rw [htext]
  rw [hxml₁] at hxml₂
  generalize emitContent env now delta r₁.2 = r₂ at *
  have hbase₂ : Known env base r₂.2 := fun tc htc => by
    rw [htools₂]
    exact hbase tc htc
  obtain ⟨⟨g₃, w₃⟩, hread₃, hsync₃, hd₃, hk₃, hp₃, hxml₃⟩ := delivery_emitToolCalls
    (P := fun s' => P s' ∧ s'.xmlInvokeBuffer = r₂.2.xmlInvokeBuffer) env hknown
    (fun tc htc s s' hk hm hp => ⟨hP tc htc s s' hk hm hp.1, hm.xml.trans hp.2⟩) r₂.2
    (g₂, w ++ r₁.1 ++ r₂.1) ⟨hsync₂, hd₂, hbase₂, hsame _ htools₂ hpending₂, rfl⟩
  rw [readAll_logged] at hread₃
  obtain ⟨g₃', hread, heq⟩ := Option.map_eq_some_iff.1 hread₃
  obtain ⟨rfl, rfl⟩ := Prod.mk.inj heq
  refine ⟨g₃', ?_, hsync₃, ?_, hk₃, hp₃, hxml₃.trans hxml₂⟩
  · rw [readAll_append, hread₁, Option.bind_some, readAll_append, hread₂]
    exact hread
  · rw [append_assoc, append_assoc] at hd₃
    exact hd₃

/-! ## The finish -/

omit [JsonNumber N] [Zero N] [DecidableEq N]

/-- The block of a tool call, and whether it is shimmed. -/
def toolView (s : State N) (idx : ℤ) : Option (ℕ × Bool) :=
  (s.toolCalls.get idx).map fun info => (info.blockIndex, info.shimmed)

/-- Everything has been sent. -/
structure DeliveredBy (text thinking : List Char) (acc : ℤ → List Char) (s : State N)
    (w : List (ClaudeEvent N)) : Prop where
  text : textOf w = text
  thinking : thinkingOf w = thinking
  args : ∀ idx i, toolView s idx = some (i, false) → jsonOf i w = acc idx

/-- The finish of tool calls sends arguments only in the blocks of shimmed ones. -/
theorem finishToolCalls_effect (entries : List (ℤ × ToolInfo)) {s : State N}
    (h : ∀ p ∈ entries, toolView s p.1 = some (p.2.blockIndex, p.2.shimmed)) :
    textOf (forEach (finishToolCall env) entries s).1 = [] ∧
      thinkingOf (forEach (finishToolCall env) entries s).1 = [] ∧
      (∀ i, (∀ idx, toolView s idx ≠ some (i, true)) →
        jsonOf i (forEach (finishToolCall env) entries s).1 = []) ∧
      toolView (forEach (finishToolCall env) entries s).2 = toolView s ∧
      (forEach (finishToolCall env) entries s).2.pendingClaudeFinishChoice =
        s.pendingClaudeFinishChoice := by
  induction entries generalizing s with
  | nil => exact ⟨rfl, rfl, fun _ _ => rfl, rfl, rfl⟩
  | cons p entries ih =>
    have hp := h p mem_cons_self
    have hview : toolView (finishToolCall env p s).2 = toolView s := by
      funext idx
      rw [toolView, finishToolCall, get_set]
      by_cases hidx : idx = p.1
      · rw [if_pos hidx, hidx, hp]
        rfl
      · rw [if_neg hidx]
        rfl
    obtain ⟨htext, hthinking, hjson, hviews, hpending⟩ := ih (s := (finishToolCall env p s).2)
      fun q hq => by rw [hview]; exact h q (.tail _ hq)
    rw [hview] at hjson hviews
    rw [forEach_cons, andThen_apply]
    have hevents : (finishToolCall env p s).1 = (if p.2.startEmitted then [] else [p.2.startEvent]) ++
        (if p.2.shimmed then
          [.contentBlockDelta p.2.blockIndex
            (.inputJsonDelta (env.applyToolCallShimToBuffer p.2.name p.2.argBuffer))]
        else []) ++ [.contentBlockStop p.2.blockIndex] := rfl
    refine ⟨?_, ?_, fun i hi => ?_, hviews, hpending⟩
    · rw [textOf_append, htext, append_nil, hevents]
      split <;> split <;> rfl
    · rw [thinkingOf_append, hthinking, append_nil, hevents]
      split <;> split <;> rfl
    · rw [jsonOf_append, hjson i hi, append_nil, hevents]
      have hne : p.2.shimmed = true → p.2.blockIndex ≠ i := fun hs hb => hi p.1 (by
        rw [hp, hs, hb])
      cases hs : p.2.shimmed with
      | false =>
        cases p.2.startEmitted <;> rfl
      | true =>
        have hnot := hne hs
        cases p.2.startEmitted <;> simp [jsonOf, ToolInfo.startEvent, hnot]

theorem finishXmlToolCalls_effect (toolCalls : List (XmlToolCall N)) (s : State N) :
    textOf (forEach (finishXmlToolCall env) toolCalls s).1 = [] ∧
      thinkingOf (forEach (finishXmlToolCall env) toolCalls s).1 = [] ∧
      (∀ i, jsonOf i (forEach (finishXmlToolCall env) toolCalls s).1 = []) ∧
      (forEach (finishXmlToolCall env) toolCalls s).2.toolCalls = s.toolCalls ∧
      (forEach (finishXmlToolCall env) toolCalls s).2.pendingClaudeFinishChoice =
        s.pendingClaudeFinishChoice := by
  induction toolCalls generalizing s with
  | nil => exact ⟨rfl, rfl, fun _ => rfl, rfl, rfl⟩
  | cons tc toolCalls ih => exact ih (finishXmlToolCall env tc s).2

theorem delivered_emitFinish (finishReason : String) {g : Reader}
    (hsync : Sync false s g) (h : Delivery text thinking acc s w) :
    DeliveredBy text thinking acc (emitFinish env finishReason s).2
        (w ++ (emitFinish env finishReason s).1) ∧
      toolView (emitFinish env finishReason s).2 = toolView s ∧
      (emitFinish env finishReason s).2.pendingClaudeFinishChoice =
        s.pendingClaudeFinishChoice := by
  obtain ⟨hkeep, hbuf⟩ := keeps_stopBoth { s with claudeFinishEmitted := true } hsync.textOpen
  have hd : Delivery text thinking acc { s with claudeFinishEmitted := true } w :=
    ⟨⟨h.args, h.unknown, h.fresh⟩, h.text, h.thinking⟩
  have hd₁ := hd.keeps hkeep
  have htools₁ : (stopThinkingBlock.andThen stopTextBlock
    { s with claudeFinishEmitted := true }).2.toolCalls = s.toolCalls := hkeep.toolCalls
  have hpending₁ := hkeep.pending
  rw [emitFinish, andThen_assoc stopThinkingBlock, andThen_apply,
    update_apply, nil_append, andThen_apply]
  generalize stopThinkingBlock.andThen stopTextBlock { s with claudeFinishEmitted := true } = r₁ at *
  have hview₁ : toolView r₁.2 = toolView s := by
    funext idx
    rw [toolView, htools₁]
    rfl
  obtain ⟨htext₂, hthinking₂, hjson₂, hview₂, hpending₂⟩ := finishToolCalls_effect env
    r₁.2.toolCalls.entries (s := r₁.2) fun p hp => by
      rw [toolView, get_eq_some.2 hp]
      rfl
  rw [andThen_apply, onState_apply]
  generalize forEach (finishToolCall env) r₁.2.toolCalls.entries r₁.2 = r₂ at *
  obtain ⟨htext₃, hthinking₃, hjson₃, htools₃, hpending₃⟩ :=
    finishXmlToolCalls_effect env r₂.2.pendingXmlToolCalls r₂.2
  rw [andThen_apply, onState_apply]
  generalize forEach (finishXmlToolCall env) r₂.2.pendingXmlToolCalls r₂.2 = r₃ at *
  have hview : toolView (finishMessage finishReason r₃.2).2 = toolView s := by
    rw [← hview₁, ← hview₂]
    funext idx
    rw [toolView, toolView, ← htools₃]
    rfl
  refine ⟨⟨?_, ?_, fun idx i hi => ?_⟩, hview, hpending₃.trans (hpending₂.trans hpending₁)⟩
  · have htext := hd₁.text
    rw [hbuf, append_nil] at htext
    rw [← append_assoc, textOf_append, htext, textOf_append, htext₂, textOf_append, htext₃]
    exact append_nil _
  · rw [← append_assoc, thinkingOf_append, hd₁.thinking, thinkingOf_append, hthinking₂,
      thinkingOf_append, hthinking₃]
    exact append_nil _
  · rw [hview] at hi
    obtain ⟨info, hget, hinfo⟩ := Option.map_eq_some_iff.1 hi
    obtain ⟨hblock, hshim⟩ := Prod.mk.inj hinfo
    have hother : ∀ idx', toolView r₁.2 idx' ≠ some (i, true) := by
      intro idx' hi'
      rw [hview₁] at hi'
      obtain ⟨info', hget', hinfo'⟩ := Option.map_eq_some_iff.1 hi'
      obtain ⟨hblock', hshim'⟩ := Prod.mk.inj hinfo'
      obtain rfl := hsync.distinct idx idx' info info' hget hget' (hblock.trans hblock'.symm)
      rw [hget] at hget'
      cases hget'
      rw [hshim] at hshim'
      cases hshim'
    rw [← htools₁] at hget
    rw [← append_assoc, jsonOf_append, jsonOf_append i r₂.1, hjson₂ i hother, jsonOf_append i r₃.1,
      hjson₃, ← (hd₁.args idx info hget).2.2 hshim, hblock]
    exact append_nil _

end Arguments

end OmniRoute.ClaudeStream
