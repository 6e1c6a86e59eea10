import OmniRoute.ClaudeStream.Translate
import OmniRoute.Lib.BlockGrammar

/-!
# The grammar of the Claude stream

Until the finish is emitted the blocks that are open are those the flags and the tool calls of the
state say (`Sync`), and the finish closes them all. After it the translator still translates what
comes, and a choice that was stored before is translated once more.

**Main result (`stream_grammatical_iff`).** The events of a stream are grammatical exactly when some
chunk has a choice and every choice that is translated after the finish is silent.
-/

namespace OmniRoute.ClaudeStream

open List Option Emitter OrdMap Nat

variable {N : Type}

inductive BlockKind
  | text | thinking | toolUse
  deriving DecidableEq

def ContentBlock.kind : ContentBlock N → BlockKind
  | .text => .text
  | .thinking => .thinking
  | .toolUse _ _ _ => .toolUse

def BlockDelta.kind : BlockDelta → BlockKind
  | .textDelta _ => .text
  | .thinkingDelta _ => .thinking
  | .inputJsonDelta _ => .toolUse

def toBlockEvent : ClaudeEvent N → BlockEvent ℕ BlockKind
  | .messageStart _ _ => .begin
  | .contentBlockStart index block => .start index block.kind
  | .contentBlockDelta index delta => .delta index delta.kind
  | .contentBlockStop index => .stop index
  | .messageDelta _ _ => .last
  | .messageStop => .done

/-- A word of the grammar of Claude events. -/
def ClaudeGrammatical (events : List (ClaudeEvent N)) : Prop :=
  BlockEvent.Grammatical (events.map toBlockEvent)

abbrev Reader := BlockEvent.Reader ℕ BlockKind

def readEvent (g : Reader) (e : ClaudeEvent N) : Option Reader := BlockEvent.read g (toBlockEvent e)

theorem readAll_map (g : Reader) (events : List (ClaudeEvent N)) :
    readAll BlockEvent.read g (events.map toBlockEvent) =
      readAll readEvent g events := by
  induction events generalizing g with
  | nil => rfl
  | cons e events ih =>
    rw [map_cons, readAll_cons, readAll_cons, readEvent]
    cases BlockEvent.read g (toBlockEvent e) with
    | none => rfl
    | some g' => exact ih g'

/-! ## The open blocks -/

/-- The fields of the state that the grammar depends on. -/
def State.blocks (s : State N) : State N where
  messageStartSent := s.messageStartSent
  nextBlockIndex := s.nextBlockIndex
  thinkingBlockStarted := s.thinkingBlockStarted
  thinkingBlockIndex := s.thinkingBlockIndex
  textBlockStarted := s.textBlockStarted
  textBlockClosed := s.textBlockClosed
  textBlockIndex := s.textBlockIndex
  toolCalls := s.toolCalls
  claudeFinishEmitted := s.claudeFinishEmitted

def OpenBlock (s : State N) (i : ℕ) : BlockKind → Prop
  | .thinking => s.thinkingBlockStarted = true ∧ s.thinkingBlockIndex = i
  | .text => s.textBlockStarted = true ∧ s.textBlockIndex = i
  | .toolUse => ∃ idx info, s.toolCalls.get idx = some info ∧ info.startEmitted = true ∧
      info.blockIndex = i

/-- The tool calls have blocks of their own, which are unused as long as they are not started. -/
structure ToolsSync (s : State N) (g : Reader) : Prop where
  reserved : ∀ idx info, s.toolCalls.get idx = some info → info.blockIndex < s.nextBlockIndex ∧
    (info.startEmitted = false → info.blockIndex ∉ g.used)
  distinct : ∀ idx idx' info info', s.toolCalls.get idx = some info →
    s.toolCalls.get idx' = some info' → info.blockIndex = info'.blockIndex → idx = idx'

/-- The state knows what the reader of its events knows. -/
structure Sync (finished : Bool) (s : State N) (g : Reader) : Prop extends ToolsSync s g where
  ok : g.Ok
  begun : g.begun = true
  closing : g.closing = false
  ended : g.ended = false
  opened : ∀ i k, (i, k) ∈ g.opened ↔ OpenBlock s i k
  used : ∀ i ∈ g.used, i < s.nextBlockIndex
  started : s.messageStartSent = true
  textOpen : s.textBlockStarted = true → s.textBlockClosed = false
  finished : s.claudeFinishEmitted = finished

section Steps

variable {fin : Bool} {s : State N} {g : Reader}

/-- The next index is taken by a block of another kind. -/
theorem ToolsSync.next (h : ToolsSync s g) (s' : State N) (g' : Reader)
    (htools : s'.toolCalls = s.toolCalls) (hnext : s'.nextBlockIndex = s.nextBlockIndex + 1)
    (hused : g'.used = s.nextBlockIndex :: g.used) : ToolsSync s' g' := by
  refine ⟨fun idx info hget => ?_, ?_⟩
  · rw [htools] at hget
    obtain ⟨hlt, hnot⟩ := h.reserved idx info hget
    rw [hnext, hused]
    refine ⟨hlt.trans (lt_succ_self _), fun hs hmem => ?_⟩
    rcases mem_cons.1 hmem with heq | hmem
    · rw [heq] at hlt
      exact lt_irrefl _ hlt
    · exact hnot hs hmem
  · rw [htools]
    exact h.distinct

section

variable (h : Sync fin s g)
include h

theorem Sync.next_unused : s.nextBlockIndex ∉ g.used :=
  fun hmem => lt_irrefl _ (h.used _ hmem)

/-- Fields that the grammar does not depend on may change. -/
theorem Sync.of_same {s' : State N} (hsame : s'.blocks = s.blocks) : Sync fin s' g := by
  simp only [State.blocks, State.mk.injEq, true_and, and_true] at hsame
  obtain ⟨hsent, hnext, hthinking, hthinkingIndex, htext, hclosed, htextIndex, htools, hfin⟩ :=
    hsame
  refine ⟨⟨?_, ?_⟩, h.ok, h.begun, h.closing, h.ended, fun i k => ?_, ?_, hsent.trans h.started,
    ?_, hfin.trans h.finished⟩
  · rw [htools, hnext]
    exact h.reserved
  · rw [htools]
    exact h.distinct
  · rw [h.opened]
    cases k with
    | thinking => rw [OpenBlock, OpenBlock, hthinking, hthinkingIndex]
    | text => rw [OpenBlock, OpenBlock, htext, htextIndex]
    | toolUse => rw [OpenBlock, OpenBlock, htools]
  · rw [hnext]
    exact h.used
  · rw [htext, hclosed]
    exact h.textOpen

/-- A delta of an open block. -/
theorem Sync.delta {i : ℕ} {k : BlockKind} (hopen : OpenBlock s i k) :
    BlockEvent.read g (.delta i k) = some g :=
  BlockEvent.read_delta h.ended h.begun ((h.opened i k).2 hopen)

/-- A block is started under an index that is not used. -/
theorem Sync.start (s' : State N) (i : ℕ) (k : BlockKind) (hi : i ∉ g.used)
    (hlt : i < s'.nextBlockIndex) (hle : s.nextBlockIndex ≤ s'.nextBlockIndex)
    (hopen : ∀ j k', OpenBlock s' j k' ↔ (j, k') = (i, k) ∨ OpenBlock s j k')
    (htools : ToolsSync s' { g with used := i :: g.used, opened := (i, k) :: g.opened })
    (hstarted : s'.messageStartSent = s.messageStartSent)
    (htext : s'.textBlockStarted = true → s'.textBlockClosed = false)
    (hfin : s'.claudeFinishEmitted = s.claudeFinishEmitted) :
    ∃ g', BlockEvent.read g (.start i k) = some g' ∧ Sync fin s' g' := by
  have hread := BlockEvent.read_start (k := k) h.ended h.begun h.closing hi
  refine ⟨_, hread, htools, h.ok.read hread, h.begun, h.closing, h.ended, fun j k' => ?_,
    fun j hj => ?_, hstarted.trans h.started, htext, hfin.trans h.finished⟩
  · rw [mem_cons, hopen, h.opened]
  · rcases mem_cons.1 hj with rfl | hj
    · exact hlt
    · exact (h.used j hj).trans_le hle

/-- A block that is open is stopped. -/
theorem Sync.stop (s' : State N) (i : ℕ) (k : BlockKind)
    (hopened : OpenBlock s i k) (hnext : s'.nextBlockIndex = s.nextBlockIndex)
    (hopen : ∀ j k', OpenBlock s' j k' ↔ OpenBlock s j k' ∧ (j, k') ≠ (i, k))
    (htools : s'.toolCalls = s.toolCalls) (hstarted : s'.messageStartSent = s.messageStartSent)
    (htext : s'.textBlockStarted = true → s'.textBlockClosed = false)
    (hfin : s'.claudeFinishEmitted = s.claudeFinishEmitted) :
    ∃ g', BlockEvent.read g (.stop i) = some g' ∧ Sync fin s' g' := by
  have hmem := (h.opened i k).2 hopened
  have hread := BlockEvent.read_stop h.ended h.begun hmem
  refine ⟨_, hread, ⟨?_, ?_⟩, h.ok.read hread, h.begun, h.closing, h.ended, fun j k' => ?_,
    fun j hj => ?_, hstarted.trans h.started, htext, hfin.trans h.finished⟩
  · rw [htools, hnext]
    exact h.reserved
  · rw [htools]
    exact h.distinct
  · rw [mem_filter, hopen, h.opened]
    refine and_congr_right fun hj => ?_
    rw [decide_eq_true_iff]
    refine ⟨fun hne heq => hne (Prod.mk.inj heq).1, fun hne heq => hne ?_⟩
    obtain rfl : j = i := heq
    rw [h.ok.unique ((h.opened j k').2 hj) hmem]
  · rw [hnext]
    exact h.used j hj

end

end Steps

/-! ## Thinking and text -/

section Blocks

variable {fin : Bool}

/-- A flag of the state that the text block does not touch. -/
theorem sync_stopThinkingBlock : Emitter.Triple readEvent (Sync fin) (stopThinkingBlock : Stream N)
    (fun s g => Sync fin s g ∧ s.thinkingBlockStarted = false) := by
  intro s g h
  unfold stopThinkingBlock
  by_cases hs : s.thinkingBlockStarted = true
  · rw [if_pos hs]
    have hopen : ∀ j k', OpenBlock { s with thinkingBlockStarted := false } j k' ↔
        OpenBlock s j k' ∧ (j, k') ≠ (s.thinkingBlockIndex, .thinking) := by
      intro j k'
      cases k' with
      | thinking => simp [OpenBlock, hs, eq_comm]
      | _ => simp [OpenBlock]
    obtain ⟨g', hread, h'⟩ := h.stop { s with thinkingBlockStarted := false }
      s.thinkingBlockIndex .thinking ⟨hs, rfl⟩ rfl hopen rfl rfl h.textOpen rfl
    exact ⟨g', (readAll_singleton _ _).trans hread, h', rfl⟩
  · rw [if_neg hs]
    exact ⟨g, rfl, h, Bool.eq_false_iff.2 hs⟩

theorem sync_startThinkingBlock : Emitter.Triple readEvent (Sync fin)
    (startThinkingBlock : Stream N)
    (fun s g => Sync fin s g ∧ s.thinkingBlockStarted = true) := by
  intro s g h
  unfold startThinkingBlock
  by_cases hs : s.thinkingBlockStarted = true
  · rw [if_pos hs]
    exact ⟨g, rfl, h, hs⟩
  · rw [if_neg hs]
    have hopen : ∀ j k', OpenBlock { s with
        thinkingBlockIndex := s.nextBlockIndex
        nextBlockIndex := s.nextBlockIndex + 1
        thinkingBlockStarted := true } j k' ↔
        (j, k') = (s.nextBlockIndex, .thinking) ∨ OpenBlock s j k' := by
      intro j k'
      cases k' with
      | thinking => simp [OpenBlock, hs, eq_comm]
      | _ => simp [OpenBlock]
    obtain ⟨g', hread, h'⟩ := h.start _ s.nextBlockIndex .thinking h.next_unused
      (lt_succ_self _) (le_succ _) hopen (h.toToolsSync.next _ _ rfl rfl rfl) rfl
      h.textOpen rfl
    exact ⟨g', (readAll_singleton _ _).trans hread, h', rfl⟩

theorem sync_startTextBlock : Emitter.Triple readEvent (Sync fin) (startTextBlock : Stream N)
    (fun s g => Sync fin s g ∧ s.textBlockStarted = true) := by
  intro s g h
  unfold startTextBlock
  by_cases hs : s.textBlockStarted = true
  · rw [if_pos hs]
    exact ⟨g, rfl, h, hs⟩
  · rw [if_neg hs]
    have hopen : ∀ j k', OpenBlock { s with
        textBlockIndex := s.nextBlockIndex
        nextBlockIndex := s.nextBlockIndex + 1
        textBlockStarted := true
        textBlockClosed := false } j k' ↔
        (j, k') = (s.nextBlockIndex, .text) ∨ OpenBlock s j k' := by
      intro j k'
      cases k' with
      | thinking => simp [OpenBlock]
      | text => simp [OpenBlock, hs, eq_comm]
      | toolUse => simp [OpenBlock]
    obtain ⟨g', hread, h'⟩ := h.start _ s.nextBlockIndex .text h.next_unused
      (lt_succ_self _) (le_succ _) hopen (h.toToolsSync.next _ _ rfl rfl rfl) rfl
      (fun _ => rfl) rfl
    exact ⟨g', (readAll_singleton _ _).trans hread, h', rfl⟩

theorem sync_emitTextDelta (text : List Char) : Emitter.Triple readEvent
    (fun s g => Sync fin s g ∧ s.textBlockStarted = true) (emitTextDelta text : Stream N)
    (Sync fin) := by
  rintro s g ⟨h, hs⟩
  exact ⟨g, (readAll_singleton _ _).trans (h.delta (k := .text) ⟨hs, rfl⟩), h⟩

theorem sync_flushMarkdownBuffer : Emitter.Triple readEvent (Sync fin)
    (flushMarkdownBuffer : Stream N) (Sync fin) := by
  intro s g h
  unfold flushMarkdownBuffer
  by_cases hb : s.markdownBuffer = []
  · simp only [if_pos hb]
    exact ⟨g, rfl, h.of_same rfl⟩
  · simp only [if_neg hb]
    refine triple_andThen sync_startTextBlock (triple_onState fun t => ?_) _ g (h.of_same rfl)
    by_cases hc : t.textBlockClosed = true
    · rw [if_pos hc]
      exact triple_skip fun _ _ hs => hs.2.1
    · rw [if_neg hc]
      exact triple_pre (fun _ _ hs => hs.2) (sync_emitTextDelta _)

theorem sync_stopStartedTextBlock : Emitter.Triple readEvent (Sync fin)
    (stopStartedTextBlock : Stream N)
    (fun s g => Sync fin s g ∧ s.textBlockStarted = false) := by
  intro s g h
  unfold stopStartedTextBlock
  by_cases hs : s.textBlockStarted = true
  · have hcond : ¬(!s.textBlockStarted || s.textBlockClosed) = true := by
      rw [hs, h.textOpen hs]
      decide
    have hopen : ∀ j k', OpenBlock { s with textBlockClosed := true, textBlockStarted := false } j
        k' ↔ OpenBlock s j k' ∧ (j, k') ≠ (s.textBlockIndex, .text) := by
      intro j k'
      cases k' with
      | thinking => simp [OpenBlock]
      | text => simp [OpenBlock, hs, eq_comm]
      | toolUse => simp [OpenBlock]
    rw [if_neg hcond]
    obtain ⟨g', hread, h'⟩ := h.stop { s with textBlockClosed := true, textBlockStarted := false }
      s.textBlockIndex .text ⟨hs, rfl⟩ rfl hopen rfl rfl (fun hc => by cases hc) rfl
    exact ⟨g', (readAll_singleton _ _).trans hread, h', rfl⟩
  · have hcond : (!s.textBlockStarted || s.textBlockClosed) = true := by
      rw [Bool.eq_false_iff.2 hs]
      rfl
    rw [if_pos hcond]
    exact ⟨g, rfl, h, Bool.eq_false_iff.2 hs⟩

theorem sync_stopTextBlock : Emitter.Triple readEvent (Sync fin) (stopTextBlock : Stream N)
    (fun s g => Sync fin s g ∧ s.textBlockStarted = false) :=
  triple_andThen sync_flushMarkdownBuffer sync_stopStartedTextBlock

theorem sync_emitReasoning (delta : Delta N) :
    Emitter.Triple readEvent (Sync fin) (emitReasoning delta) (Sync fin) := by
  unfold emitReasoning
  by_cases hr : reasoningText delta = "" ∨ isInternalReasoningPlaceholder (reasoningText delta)
  · simp only [if_pos hr]
    exact triple_skip fun _ _ h => h
  · simp only [if_neg hr]
    refine triple_andThen (triple_post (fun _ _ h => h.1) sync_stopTextBlock)
      (triple_andThen sync_startThinkingBlock ?_)
    rintro s g ⟨h, hs⟩
    exact ⟨g, (readAll_singleton _ _).trans (h.delta (k := .thinking) ⟨hs, rfl⟩), h⟩

theorem sync_emitText (text : List Char) :
    Emitter.Triple readEvent (Sync fin) (emitText text : Stream N) (Sync fin) := by
  unfold emitText
  by_cases ht : text = []
  · rw [if_pos ht]
    exact triple_skip fun _ _ h => h
  · rw [if_neg ht]
    exact triple_andThen sync_startTextBlock (sync_emitTextDelta text)

theorem sync_queueToolCalls (toolCalls : List (XmlToolCall N)) :
    Emitter.Triple readEvent (Sync fin) (queueToolCalls toolCalls) (Sync fin) := by
  unfold queueToolCalls
  by_cases hx : toolCalls = []
  · rw [if_pos hx]
    exact triple_skip fun _ _ h => h
  · rw [if_neg hx]
    exact triple_andThen sync_stopTextBlock (triple_update fun _ _ h => h.1.of_same rfl)

theorem sync_sendText (cleaned : List Char) :
    Emitter.Triple readEvent (Sync fin) (sendText cleaned : Stream N) (Sync fin) :=
  triple_onState fun _ => triple_pre (fun _ _ h => h.2)
    (triple_andThen (triple_update fun _ _ h => h.of_same rfl) (sync_emitText _))

theorem sync_emitContent [Zero N] [DecidableEq N] (env : Env N) (now : ℕ) (delta : Delta N) :
    Emitter.Triple readEvent (Sync fin) (emitContent env now delta) (Sync fin) := by
  unfold emitContent
  by_cases ht : contentText delta = []
  · simp only [if_pos ht]
    exact triple_skip fun _ _ h => h
  · simp only [if_neg ht]
    exact triple_andThen (triple_post (fun _ _ h => h.1) sync_stopThinkingBlock)
      (triple_onState fun t => triple_pre (fun _ _ h => h.2)
        (triple_andThen (triple_update fun _ _ h => h.of_same rfl)
          (triple_andThen (sync_queueToolCalls _) (sync_sendText _))))

/-! ## Tool calls -/

theorem toolCalls_stopThinkingBlock (s : State N) :
    (stopThinkingBlock s).2.toolCalls = s.toolCalls := by
  unfold stopThinkingBlock
  by_cases h : s.thinkingBlockStarted = true
  · rw [if_pos h]
  · rw [if_neg h]

theorem kept_stopTextBlock (s : State N) :
    (stopTextBlock s).2.toolCalls = s.toolCalls ∧
      (stopTextBlock s).2.thinkingBlockStarted = s.thinkingBlockStarted := by
  let kept (s : State N) := (s.toolCalls, s.thinkingBlockStarted)
  have hstart : ∀ s, kept (startTextBlock s).2 = kept s := fun s => by
    unfold startTextBlock
    split <;> rfl
  have hstop : ∀ s, kept (stopStartedTextBlock s).2 = kept s := fun s => by
    unfold stopStartedTextBlock
    split <;> rfl
  refine Prod.mk.inj (?_ : kept (stopTextBlock s).2 = kept s)
  rw [stopTextBlock, andThen_apply, hstop, flushMarkdownBuffer]
  by_cases h : s.markdownBuffer = []
  · simp only [if_pos h, kept]
  · simp only [if_neg h, andThen_apply, onState_apply]
    split <;> exact hstart _

/-- The invariant, and no tool call at an index. -/
def SyncWithout (fin : Bool) (idx : ℤ) (s : State N) (g : Reader) : Prop :=
  Sync fin s g ∧ s.toolCalls.get idx = none

theorem sync_addToolCall (env : Env N) (tc : ToolCallDelta N) (id : String) (s : State N)
    (g : Reader) (h : SyncWithout fin tc.idx s g) :
    Sync fin (addToolCall env tc id s) g := by
  obtain ⟨h, hnone⟩ := h
  have hget : ∀ idx info, (addToolCall env tc id s).toolCalls.get idx = some info →
      (idx = tc.idx ∧ info.blockIndex = s.nextBlockIndex ∧ info.startEmitted = false) ∨
        s.toolCalls.get idx = some info := by
    intro idx info hget
    rw [addToolCall, get_set] at hget
    by_cases hidx : idx = tc.idx
    · rw [if_pos hidx] at hget
      cases hget
      exact .inl ⟨hidx, rfl, rfl⟩
    · rw [if_neg hidx] at hget
      exact .inr hget
  refine ⟨⟨?_, ?_⟩, h.ok, h.begun, h.closing, h.ended, fun i k => ?_, fun i hi => ?_, h.started,
    h.textOpen, h.finished⟩
  · intro idx info hinfo
    rcases hget idx info hinfo with ⟨-, hblock, -⟩ | hold
    · rw [hblock]
      exact ⟨lt_succ_self _, fun _ => h.next_unused⟩
    · obtain ⟨hlt, hnot⟩ := h.reserved idx info hold
      exact ⟨hlt.trans (lt_succ_self _), hnot⟩
  · intro idx idx' info info' hinfo hinfo' heq
    rcases hget idx info hinfo with ⟨hi, hblock, -⟩ | hold <;>
      rcases hget idx' info' hinfo' with ⟨hi', hblock', -⟩ | hold'
    · exact hi.trans hi'.symm
    · have := (h.reserved idx' info' hold').1
      omega
    · have := (h.reserved idx info hold).1
      omega
    · exact h.distinct idx idx' info info' hold hold' heq
  · rw [h.opened]
    cases k with
    | thinking => rfl
    | text => rfl
    | toolUse =>
      constructor
      · rintro ⟨idx, info, hinfo, hs, hi⟩
        have hne : idx ≠ tc.idx := fun heq => by
          rw [heq, hnone] at hinfo
          cases hinfo
        exact ⟨idx, info, (get_set_ne _ hne _).trans hinfo, hs, hi⟩
      · rintro ⟨idx, info, hinfo, hs, hi⟩
        rcases hget idx info hinfo with ⟨-, -, hnot⟩ | hold
        · rw [hnot] at hs
          cases hs
        · exact ⟨idx, info, hold, hs, hi⟩
  · exact (h.used i hi).trans (lt_succ_self _)

theorem sync_registerToolCall (env : Env N) (tc : ToolCallDelta N) :
    Emitter.Triple readEvent (Sync fin) (registerToolCall env tc) (Sync fin) := by
  refine triple_onState fun t => ?_
  cases truthyText tc.id with
  | none => exact triple_skip fun _ _ h => h.2
  | some id =>
    by_cases hget : (t.toolCalls.get tc.idx).isSome = true
    · simp only [if_pos hget]
      exact triple_skip fun _ _ h => h.2
    · simp only [if_neg hget]
      have hthinking : Emitter.Triple readEvent (SyncWithout fin tc.idx)
          (stopThinkingBlock : Stream N) (SyncWithout fin tc.idx) :=
        triple_frame (triple_post (fun _ _ h => h.1) sync_stopThinkingBlock)
          fun s hs => by rw [toolCalls_stopThinkingBlock]; exact hs
      have htext : Emitter.Triple readEvent (SyncWithout fin tc.idx)
          (stopTextBlock : Stream N) (SyncWithout fin tc.idx) :=
        triple_frame (triple_post (fun _ _ h => h.1) sync_stopTextBlock)
          fun s hs => by rw [(kept_stopTextBlock s).1]; exact hs
      refine triple_pre (fun s g h => ?_) (triple_andThen hthinking
        (triple_andThen htext (triple_update (sync_addToolCall env tc id))))
      exact ⟨h.2, not_isSome_iff_eq_none.1 (h.1 ▸ hget)⟩

/-- The information on a tool call changes, but not whether its block is open. -/
theorem Sync.setTool {s : State N} {g : Reader} (h : Sync fin s g) {idx : ℤ}
    {info info' : ToolInfo} (hget : s.toolCalls.get idx = some info)
    (hblock : info'.blockIndex = info.blockIndex)
    (hstart : info'.startEmitted = info.startEmitted) :
    Sync fin { s with toolCalls := s.toolCalls.set idx info' } g := by
  have hold : ∀ j x', (s.toolCalls.set idx info').get j = some x' →
      ∃ x, s.toolCalls.get j = some x ∧ x'.blockIndex = x.blockIndex ∧
        x'.startEmitted = x.startEmitted := by
    intro j x' hx'
    rw [get_set] at hx'
    by_cases hj : j = idx
    · rw [if_pos hj] at hx'
      cases hx'
      exact ⟨info, hj ▸ hget, hblock, hstart⟩
    · rw [if_neg hj] at hx'
      exact ⟨x', hx', rfl, rfl⟩
  refine ⟨⟨?_, ?_⟩, h.ok, h.begun, h.closing, h.ended, fun i k => ?_, h.used, h.started,
    h.textOpen, h.finished⟩
  · intro j x' hx'
    obtain ⟨x, hx, hb, hs⟩ := hold j x' hx'
    rw [hb, hs]
    exact h.reserved j x hx
  · intro j j' x' y' hx' hy' heq
    obtain ⟨x, hx, hbx, -⟩ := hold j x' hx'
    obtain ⟨y, hy, hby, -⟩ := hold j' y' hy'
    exact h.distinct j j' x y hx hy (by rw [← hbx, ← hby, heq])
  · rw [h.opened]
    cases k with
    | thinking => rfl
    | text => rfl
    | toolUse =>
      constructor
      · rintro ⟨j, x, hx, hs, hi⟩
        by_cases hj : j = idx
        · rw [hj, hget] at hx
          cases hx
          exact ⟨idx, info', get_set_self _ _ _, hstart.trans hs, hblock.trans hi⟩
        · exact ⟨j, x, (get_set_ne _ hj _).trans hx, hs, hi⟩
      · rintro ⟨j, x', hx', hs, hi⟩
        obtain ⟨x, hx, hb, hs'⟩ := hold j x' hx'
        exact ⟨j, x, hx, hs'.symm.trans hs, hb.symm.trans hi⟩

/-- The block of a tool call is started. -/
theorem Sync.startTool {s : State N} {g : Reader} (h : Sync fin s g) (info' : ToolInfo) {idx : ℤ}
    {info : ToolInfo} (hget : s.toolCalls.get idx = some info)
    (hnot : info.startEmitted = false) (hblock : info'.blockIndex = info.blockIndex)
    (hstart : info'.startEmitted = true) :
    ∃ g', BlockEvent.read g (.start info.blockIndex .toolUse) = some g' ∧
      Sync fin { s with toolCalls := s.toolCalls.set idx info' } g' := by
  have hold : ∀ j x', (s.toolCalls.set idx info').get j = some x' →
      (j = idx ∧ x' = info') ∨ (j ≠ idx ∧ s.toolCalls.get j = some x') := by
    intro j x' hx'
    rw [get_set] at hx'
    by_cases hj : j = idx
    · rw [if_pos hj] at hx'
      exact .inl ⟨hj, (some.inj hx').symm⟩
    · rw [if_neg hj] at hx'
      exact .inr ⟨hj, hx'⟩
  obtain ⟨hlt, hunused⟩ := h.reserved idx info hget
  refine h.start { s with toolCalls := s.toolCalls.set idx info' } info.blockIndex .toolUse
    (hunused hnot) hlt (le_refl _) (fun j k' => ?_) ⟨?_, ?_⟩ rfl h.textOpen rfl
  · cases k' with
    | thinking => simp [OpenBlock]
    | text => simp [OpenBlock]
    | toolUse =>
      constructor
      · rintro ⟨i, x', hx', hs, hi⟩
        rcases hold i x' hx' with ⟨-, rfl⟩ | ⟨-, hx⟩
        · exact .inl (by rw [← hi, hblock])
        · exact .inr ⟨i, x', hx, hs, hi⟩
      · rintro (heq | ⟨i, x, hx, hs, hi⟩)
        · exact ⟨idx, info', get_set_self _ _ _, hstart, hblock.trans (Prod.mk.inj heq).1.symm⟩
        · have hi' : i ≠ idx := by
            rintro rfl
            rw [hget] at hx
            cases hx
            rw [hnot] at hs
            cases hs
          exact ⟨i, x, (get_set_ne _ hi' _).trans hx, hs, hi⟩
  · intro j x' hx'
    rcases hold j x' hx' with ⟨-, rfl⟩ | ⟨hj, hx⟩
    · rw [hblock]
      exact ⟨hlt, fun hs => by rw [hstart] at hs; cases hs⟩
    · obtain ⟨hlt', hunused'⟩ := h.reserved j x' hx
      refine ⟨hlt', fun hs hmem => ?_⟩
      rcases mem_cons.1 hmem with heq | hmem
      · exact hj (h.distinct j idx x' info hx hget heq)
      · exact hunused' hs hmem
  · intro j j' x' y' hx' hy' heq
    rcases hold j x' hx' with ⟨hj, rfl⟩ | ⟨hj, hx⟩ <;>
      rcases hold j' y' hy' with ⟨hj', rfl⟩ | ⟨hj', hy⟩
    · exact hj.trans hj'.symm
    · exact absurd (h.distinct j' idx y' info hy hget (heq.symm.trans hblock)) hj'
    · exact absurd (h.distinct j idx x' info hx hget (heq.trans hblock)) hj
    · exact h.distinct j j' x' y' hx hy heq

theorem withLateId_fields (info : ToolInfo) (tc : ToolCallDelta N) :
    (info.withLateId tc).blockIndex = info.blockIndex ∧
      (info.withLateId tc).startEmitted = info.startEmitted ∧
      (info.withLateId tc).name = info.name ∧ (info.withLateId tc).shimmed = info.shimmed ∧
      (info.withLateId tc).argBuffer = info.argBuffer := by
  unfold ToolInfo.withLateId
  cases truthyText tc.id with
  | none => exact ⟨rfl, rfl, rfl, rfl, rfl⟩
  | some id => by_cases hid : info.id = "" <;> simp [hid]

theorem withLateName_fields (info : ToolInfo) (name : String) :
    (info.withLateName name).blockIndex = info.blockIndex ∧
      (info.withLateName name).startEmitted = info.startEmitted ∧
      (info.withLateName name).argBuffer = info.argBuffer := by
  unfold ToolInfo.withLateName
  split <;> exact ⟨rfl, rfl, rfl⟩

theorem withLate_fields (info : ToolInfo) (tc : ToolCallDelta N) (name : String) :
    (info.withLate tc name).blockIndex = info.blockIndex ∧
      (info.withLate tc name).startEmitted = info.startEmitted ∧
      (info.withLate tc name).argBuffer = info.argBuffer := by
  obtain ⟨hb, hs, -, -, ha⟩ := withLateId_fields info tc
  obtain ⟨hb', hs', ha'⟩ := withLateName_fields (info.withLateId tc) name
  exact ⟨hb'.trans hb, hs'.trans hs, ha'.trans ha⟩

/-- After the start of a tool call its block is open or its arguments are not there. -/
theorem sync_startToolCall (env : Env N) (tc : ToolCallDelta N) :
    Emitter.Triple readEvent (Sync fin) (startToolCall env tc)
      (fun s g => Sync fin s g ∧ (tc.givesArguments = true → ∀ info,
        s.toolCalls.get tc.idx = some info → info.startEmitted = true)) := by
  intro s g h
  unfold startToolCall
  cases hget : s.toolCalls.get tc.idx with
  | none => exact ⟨g, rfl, h, fun _ info hinfo => by rw [hget] at hinfo; cases hinfo⟩
  | some info =>
    obtain ⟨hblock, hstart, -⟩ := withLate_fields info tc (incomingToolName env tc)
    simp only
    generalize info.withLate tc (incomingToolName env tc) = late at hblock hstart ⊢
    unfold startKnownToolCall
    by_cases hcond : (!late.startEmitted && (decide (late.name ≠ "") || tc.givesArguments)) = true
    · rw [if_pos hcond]
      have hnot : info.startEmitted = false := by
        rw [← hstart]
        simpa using (Bool.and_eq_true_iff.1 hcond).1
      obtain ⟨g', hread, h'⟩ := h.startTool { late with startEmitted := true } hget hnot
        hblock rfl
      refine ⟨g', ?_, h', fun _ info' hinfo' => ?_⟩
      · rw [readAll_singleton, readEvent, ToolInfo.startEvent, toBlockEvent, hblock]
        exact hread
      · rw [get_set_self] at hinfo'
        exact some.inj hinfo' ▸ rfl
    · rw [if_neg hcond]
      refine ⟨g, rfl, h.setTool hget hblock hstart, fun hargs info' hinfo' => ?_⟩
      rw [get_set_self] at hinfo'
      cases hinfo'
      rw [hargs] at hcond
      simpa using hcond

section Arguments

variable [Zero N] [DecidableEq N] [JsonNumber N]

omit [JsonNumber N] in
theorem givesArguments_of_truthy {tc : ToolCallDelta N} (h : tc.arguments.truthy = true) :
    tc.givesArguments = true := by
  unfold ToolCallDelta.givesArguments
  cases harg : tc.arguments with
  | null =>
    rw [harg] at h
    cases h
  | _ => rfl

theorem sync_emitArguments (tc : ToolCallDelta N) : Emitter.Triple readEvent
    (fun s g => Sync fin s g ∧ (tc.givesArguments = true → ∀ info,
      s.toolCalls.get tc.idx = some info → info.startEmitted = true))
    (emitArguments tc) (Sync fin) := by
  rintro s g ⟨h, hstarted⟩
  unfold emitArguments
  cases hget : s.toolCalls.get tc.idx with
  | none => exact ⟨g, rfl, h⟩
  | some info =>
    simp only
    by_cases htrue : tc.arguments.truthy = true
    · rw [if_pos htrue]
      have hopen : OpenBlock s info.blockIndex .toolUse :=
        ⟨tc.idx, info, hget, hstarted (givesArguments_of_truthy htrue) info hget, rfl⟩
      refine ⟨g, ?_, h.setTool hget rfl rfl⟩
      unfold emitKnownArguments
      simp only
      split
      · rfl
      · exact (readAll_singleton _ _).trans (h.delta hopen)
    · rw [if_neg htrue]
      exact ⟨g, rfl, h⟩

theorem sync_emitToolCall (env : Env N) (tc : ToolCallDelta N) :
    Emitter.Triple readEvent (Sync fin) (emitToolCall env tc) (Sync fin) :=
  triple_andThen (sync_registerToolCall env tc)
    (triple_andThen (sync_startToolCall env tc) (sync_emitArguments tc))

end Arguments

/-! ## The finish -/

/-- During the finish only the blocks of the tool calls that are left are open. -/
structure Closing (rest : List (ℤ × ToolInfo)) (s : State N) (g : Reader) : Prop where
  ok : g.Ok
  begun : g.begun = true
  closing : g.closing = false
  ended : g.ended = false
  opened : ∀ i k, (i, k) ∈ g.opened ↔
    k = .toolUse ∧ ∃ p ∈ rest, p.2.startEmitted = true ∧ p.2.blockIndex = i
  used : ∀ i ∈ g.used, i < s.nextBlockIndex
  reserved : ∀ p ∈ rest, p.2.blockIndex < s.nextBlockIndex ∧
    (p.2.startEmitted = false → p.2.blockIndex ∉ g.used)
  distinct : (rest.map fun p => p.2.blockIndex).Nodup
  started : s.messageStartSent = true
  thinking : s.thinkingBlockStarted = false
  text : s.textBlockStarted = false
  finished : s.claudeFinishEmitted = true

/-- After the finish. -/
structure Finished (s : State N) : Prop where
  started : s.messageStartSent = true
  thinking : s.thinkingBlockStarted = false
  text : s.textBlockStarted = false
  finished : s.claudeFinishEmitted = true

theorem Closing.of_sync {s : State N} {g : Reader} (h : Sync true s g)
    (hthinking : s.thinkingBlockStarted = false) (htext : s.textBlockStarted = false) :
    Closing s.toolCalls.entries s g where
  ok := h.ok
  begun := h.begun
  closing := h.closing
  ended := h.ended
  opened := by
    intro i k
    rw [h.opened]
    cases k with
    | thinking =>
      refine ⟨fun hi => ?_, fun hi => by cases hi.1⟩
      rw [OpenBlock, hthinking] at hi
      cases hi.1
    | text =>
      refine ⟨fun hi => ?_, fun hi => by cases hi.1⟩
      rw [OpenBlock, htext] at hi
      cases hi.1
    | toolUse =>
      constructor
      · rintro ⟨idx, info, hget, hs, hi⟩
        exact ⟨rfl, (idx, info), get_eq_some.1 hget, hs, hi⟩
      · rintro ⟨-, ⟨idx, info⟩, hmem, hs, hi⟩
        exact ⟨idx, info, get_eq_some.2 hmem, hs, hi⟩
  used := h.used
  reserved := fun p hp => h.reserved p.1 p.2 (get_eq_some.2 hp)
  distinct := by
    have hkeys : s.toolCalls.entries.Nodup := s.toolCalls.nodup.of_map
    refine hkeys.map_on fun p hp q hq heq => ?_
    have hp' : s.toolCalls.get p.1 = some p.2 := get_eq_some.2 hp
    have hq' : s.toolCalls.get q.1 = some q.2 := get_eq_some.2 hq
    have hidx := h.distinct p.1 q.1 p.2 q.2 hp' hq' heq
    rw [hidx, hq'] at hp'
    exact Prod.ext hidx (some.inj hp').symm
  started := h.started
  thinking := hthinking
  text := htext
  finished := h.finished

theorem closing_finishToolCall (env : Env N) (p : ℤ × ToolInfo) (rest : List (ℤ × ToolInfo)) :
    Emitter.Triple readEvent (Closing (p :: rest)) (finishToolCall env p : Stream N)
      (Closing rest) := by
  intro s g h
  obtain ⟨hlt, hunused⟩ := h.reserved p mem_cons_self
  have hdistinct := nodup_cons.1 h.distinct
  have hother : ∀ q ∈ rest, q.2.blockIndex ≠ p.2.blockIndex := fun q hq heq =>
    hdistinct.1 (mem_map.2 ⟨q, hq, heq⟩)
  -- The block is started if it is not yet.
  obtain ⟨g₁, hread₁, hok₁, hbegun₁, hclosing₁, hended₁, hopened₁, hused₁⟩ :
      ∃ g₁, readAll readEvent g
          ((if p.2.startEmitted then [] else [p.2.startEvent]) : List (ClaudeEvent N)) = some g₁ ∧
        g₁.Ok ∧ g₁.begun = true ∧ g₁.closing = false ∧ g₁.ended = false ∧
        (∀ i k, (i, k) ∈ g₁.opened ↔ (i, k) = (p.2.blockIndex, .toolUse) ∨
          k = .toolUse ∧ ∃ q ∈ rest, q.2.startEmitted = true ∧ q.2.blockIndex = i) ∧
        ∀ i ∈ g₁.used, i = p.2.blockIndex ∨ i ∈ g.used := by
    by_cases hs : p.2.startEmitted = true
    · refine ⟨g, by rw [if_pos hs]; rfl, h.ok, h.begun, h.closing, h.ended, fun i k => ?_,
        fun i hi => .inr hi⟩
      rw [h.opened]
      constructor
      · rintro ⟨hk, q, hq, hqs, hqi⟩
        rcases mem_cons.1 hq with rfl | hq
        · exact .inl (by rw [hk, hqi])
        · exact .inr ⟨hk, q, hq, hqs, hqi⟩
      · rintro (heq | ⟨hk, q, hq, hqs, hqi⟩)
        · obtain ⟨hi, hk⟩ := Prod.mk.inj heq
          exact ⟨hk, p, mem_cons_self, hs, hi.symm⟩
        · exact ⟨hk, q, .tail _ hq, hqs, hqi⟩
    · have hnot := hunused (Bool.eq_false_iff.2 hs)
      have hread := BlockEvent.read_start (k := BlockKind.toolUse) h.ended h.begun h.closing hnot
      refine ⟨_, by rw [if_neg hs, readAll_singleton]; exact hread, h.ok.read hread,
        h.begun, h.closing, h.ended, fun i k => ?_, fun i hi => mem_cons.1 hi⟩
      rw [mem_cons, h.opened]
      refine or_congr_right (and_congr_right fun _ => ?_)
      constructor
      · rintro ⟨q, hq, hqs, hqi⟩
        rcases mem_cons.1 hq with rfl | hq
        · exact absurd hqs hs
        · exact ⟨q, hq, hqs, hqi⟩
      · rintro ⟨q, hq, hqs, hqi⟩
        exact ⟨q, .tail _ hq, hqs, hqi⟩
  have hmem : (p.2.blockIndex, BlockKind.toolUse) ∈ g₁.opened := (hopened₁ _ _).2 (.inl rfl)
  have hdelta : readAll readEvent g₁ ((if p.2.shimmed then
      [.contentBlockDelta p.2.blockIndex
        (.inputJsonDelta (env.applyToolCallShimToBuffer p.2.name p.2.argBuffer))]
      else []) : List (ClaudeEvent N)) = some g₁ := by
    by_cases hshim : p.2.shimmed = true
    · rw [if_pos hshim, readAll_singleton]
      exact BlockEvent.read_delta hended₁ hbegun₁ hmem
    · rw [if_neg hshim]
      rfl
  have hstop := BlockEvent.read_stop hended₁ hbegun₁ hmem
  refine ⟨_, ?_, hok₁.read hstop, hbegun₁, hclosing₁, hended₁, fun i k => ?_, fun i hi => ?_,
    fun q hq => ⟨(h.reserved q (.tail _ hq)).1, fun hqs hmem => ?_⟩, hdistinct.2, h.started,
    h.thinking, h.text, h.finished⟩
  · rw [finishToolCall, readAll_append, readAll_append, hread₁, bind_some,
      hdelta, bind_some, readAll_singleton]
    exact hstop
  · rw [mem_filter, hopened₁, decide_eq_true_iff]
    constructor
    · rintro ⟨heq | hrest, hne⟩
      · exact absurd (Prod.mk.inj heq).1 hne
      · exact hrest
    · rintro ⟨hk, q, hq, hqs, rfl⟩
      exact ⟨.inr ⟨hk, q, hq, hqs, rfl⟩, hother q hq⟩
  · rcases hused₁ i hi with rfl | hi
    · exact hlt
    · exact h.used i hi
  · rcases hused₁ _ hmem with heq | hmem
    · exact hother q hq heq
    · exact (h.reserved q (.tail _ hq)).2 hqs hmem

theorem closing_finishToolCalls (env : Env N) (entries : List (ℤ × ToolInfo)) :
    Emitter.Triple readEvent (Closing entries)
      (forEach (finishToolCall env) entries : Stream N) (Closing []) := by
  induction entries with
  | nil => exact triple_skip fun _ _ h => h
  | cons p rest ih => exact triple_andThen (closing_finishToolCall env p rest) ih

theorem closing_finishXmlToolCall (env : Env N) (tc : XmlToolCall N) :
    Emitter.Triple readEvent (Closing []) (finishXmlToolCall env tc : Stream N) (Closing []) := by
  intro s g h
  have hnot : s.nextBlockIndex ∉ g.used := fun hmem => lt_irrefl _ (h.used _ hmem)
  have hstart := BlockEvent.read_start (k := BlockKind.toolUse) h.ended h.begun h.closing hnot
  have hmem : (s.nextBlockIndex, BlockKind.toolUse) ∈
      (s.nextBlockIndex, BlockKind.toolUse) :: g.opened := mem_cons_self
  obtain ⟨g', hstop⟩ : ∃ g', BlockEvent.read { g with
      used := s.nextBlockIndex :: g.used
      opened := (s.nextBlockIndex, BlockKind.toolUse) :: g.opened } (.stop s.nextBlockIndex) =
        some g' := ⟨_, BlockEvent.read_stop h.ended h.begun hmem⟩
  have heq := (BlockEvent.read_eq_some hstop).2.2.2
  refine ⟨g', ?_, ?_⟩
  · exact readAll_pair hstart hstop
  · have hok := (h.ok.read hstart).read hstop
    subst heq
    refine ⟨hok, h.begun, h.closing, h.ended, fun i k => ?_, fun i hi => ?_,
      fun p hp => (by cases hp), nodup_nil, h.started, h.thinking, h.text, h.finished⟩
    · rw [mem_filter, mem_cons, h.opened, decide_eq_true_iff]
      constructor
      · rintro ⟨heq | hrest, hne⟩
        · exact absurd (Prod.mk.inj heq).1 hne
        · exact hrest
      · rintro ⟨hk, q, hq, -⟩
        cases hq
    · rcases mem_cons.1 hi with rfl | hi
      · exact lt_succ_self _
      · exact (h.used i hi).trans (lt_succ_self _)

theorem closing_finishMessage (finishReason : String) :
    Emitter.Triple readEvent (Closing []) (finishMessage finishReason : Stream N)
      (fun s g => Finished s ∧ g.begun = true ∧ g.ended = true) := by
  intro s g h
  have hopened : g.opened = [] := by
    refine eq_nil_iff_forall_not_mem.2 fun b hb => ?_
    obtain ⟨-, q, hq, -⟩ := (h.opened b.1 b.2).1 hb
    cases hq
  have hlast := BlockEvent.read_last h.ended h.begun h.closing hopened
  have hdone : BlockEvent.read { g with closing := true } (.done : BlockEvent ℕ BlockKind) =
      some { g with closing := true, ended := true } := BlockEvent.read_done h.ended h.begun
  refine ⟨{ g with closing := true, ended := true }, ?_,
    ⟨h.started, h.thinking, h.text, h.finished⟩, h.begun, rfl⟩
  exact readAll_pair hlast hdone

/-- The finish closes all blocks and ends the message. -/
theorem sync_emitFinish (env : Env N) (finishReason : String) :
    Emitter.Triple readEvent (Sync false) (emitFinish env finishReason)
      (fun s g => Finished s ∧ g.begun = true ∧ g.ended = true) := by
  have hset : ∀ (s : State N) (g : Reader), Sync false s g →
      Sync true { s with claudeFinishEmitted := true } g := fun s g h =>
    ⟨⟨h.reserved, h.distinct⟩, h.ok, h.begun, h.closing, h.ended,
      fun i k => (h.opened i k).trans (by cases k <;> rfl), h.used, h.started, h.textOpen, rfl⟩
  have htext : Emitter.Triple readEvent
      (fun s g => Sync true s g ∧ s.thinkingBlockStarted = false) (stopTextBlock : Stream N)
      (fun s g => (Sync true s g ∧ s.textBlockStarted = false) ∧
        s.thinkingBlockStarted = false) :=
    triple_frame sync_stopTextBlock fun s hs => (kept_stopTextBlock s).2.trans hs
  refine triple_andThen (triple_update hset) (triple_andThen
    sync_stopThinkingBlock (triple_andThen htext (triple_andThen
    (Q := Closing []) (triple_onState fun t => ?_) (triple_andThen
    (Q := Closing []) (triple_onState fun t => ?_) (closing_finishMessage _)))))
  · refine triple_pre (fun s g h => ?_) (closing_finishToolCalls env t.toolCalls.entries)
    obtain ⟨rfl, ⟨hsync, ht⟩, hthinking⟩ := h
    exact Closing.of_sync hsync hthinking ht
  · exact triple_pre (fun s g h => h.2)
      (triple_forEach fun tc _ => closing_finishXmlToolCall env tc)

end Blocks

/-! ## Calls before the finish -/

section Stream

theorem sync_startMessage (now : ℕ) (chunk : Option (Chunk N)) :
    Emitter.Triple readEvent (Sync false) (startMessage now chunk) (Sync false) := by
  intro s g h
  unfold startMessage
  cases chunk with
  | none => exact ⟨g, rfl, h⟩
  | some chunk =>
    simp only [if_pos h.started]
    exact ⟨g, rfl, h⟩

/-- What the usage does not matter for. -/
theorem of_trackUsage {I : State N → Prop} {s : State N} (hI : ∀ usage, I { s with usage })
    (chunk : Option (Chunk N)) : I (chunk.elim s fun chunk => trackUsageFromChunk chunk s) := by
  cases chunk with
  | none => exact hI s.usage
  | some chunk =>
    rw [elim_some, trackUsageFromChunk]
    cases chunk.usage with
    | none => exact hI s.usage
    | some usage => exact hI _

theorem sync_trackUsage {s : State N} {g : Reader} (h : Sync false s g) (chunk : Option (Chunk N)) :
    Sync false (chunk.elim s fun chunk => trackUsageFromChunk chunk s) g :=
  of_trackUsage (I := fun s => Sync false s g) (fun _ => h.of_same rfl) chunk

variable [Zero N] [DecidableEq N] [JsonNumber N]

/-- Before the finish, or after it. -/
def SyncOrFinished (s : State N) (g : Reader) : Prop :=
  Sync false s g ∨ (Finished s ∧ g.begun = true ∧ g.ended = true)

section

variable (env : Env N)

omit [Zero N] [DecidableEq N] [JsonNumber N] in
theorem sync_closeChoice (hasChunkUsage flushing : Bool) (choice : Choice N) :
    Emitter.Triple readEvent (Sync false) (closeChoice env hasChunkUsage flushing choice)
      SyncOrFinished := by
  refine triple_onState fun t => ?_
  cases truthyText choice.finishReason with
  | none => exact triple_skip fun _ _ h => .inl h.2
  | some finishReason =>
    simp only
    split_ifs
    · exact triple_skip fun _ _ h => .inl h.2
    · exact triple_update fun _ _ h => .inl (h.2.of_same rfl)
    · exact triple_pre (fun _ _ h => h.2) (triple_post (fun _ _ h => .inr h)
        (sync_emitFinish env finishReason))

/-- What follows the start of the message. -/
theorem sync_translateRest (now : ℕ) (hasChunkUsage flushing : Bool)
    (choice : Choice N) : Emitter.Triple readEvent (Sync false)
      ((emitReasoning choice.delta).andThen ((emitContent env now choice.delta).andThen
        ((forEach (emitToolCall env) choice.delta.toolCalls).andThen
          (closeChoice env hasChunkUsage flushing choice)))) SyncOrFinished :=
  triple_andThen (sync_emitReasoning _) (triple_andThen (sync_emitContent env now _)
    (triple_andThen (triple_forEach fun tc _ => sync_emitToolCall env tc)
      (sync_closeChoice env hasChunkUsage flushing choice)))

theorem sync_translateChoice (now : ℕ) (chunk : Option (Chunk N))
    (hasChunkUsage flushing : Bool) (choice : Choice N) : Emitter.Triple readEvent (Sync false)
      (translateChoice env now chunk hasChunkUsage flushing choice) SyncOrFinished :=
  triple_andThen (sync_startMessage now chunk)
    (sync_translateRest env now hasChunkUsage flushing choice)

theorem sync_openaiToClaudeResponse (now : ℕ) (chunk : Option (Chunk N)) :
    Emitter.Triple readEvent (Sync false) (openaiToClaudeResponse env now chunk)
      SyncOrFinished := by
  intro s g h
  have ht := sync_trackUsage h chunk
  unfold openaiToClaudeResponse
  simp only
  cases chunk.bind fun c => c.choice with
  | some choice => exact sync_translateChoice env now chunk _ _ choice _ g ht
  | none =>
    simp only
    cases (chunk.elim s fun chunk => trackUsageFromChunk chunk s).pendingClaudeFinishChoice with
    | none => exact ⟨g, rfl, .inl ht⟩
    | some choice => exact sync_translateChoice env now chunk _ _ choice _ g (ht.of_same rfl)

/-! ## The first call with a choice -/

/-- Nothing has been sent. -/
structure Unstarted (s : State N) : Prop where
  notStarted : s.messageStartSent = false
  thinking : s.thinkingBlockStarted = false
  text : s.textBlockStarted = false
  toolCalls : ∀ idx, s.toolCalls.get idx = none
  pending : s.pendingClaudeFinishChoice = none
  notFinished : s.claudeFinishEmitted = false

omit [Zero N] [DecidableEq N] [JsonNumber N] in
theorem unstarted_trackUsage {s : State N} (h : Unstarted s) (chunk : Option (Chunk N)) :
    Unstarted (chunk.elim s fun chunk => trackUsageFromChunk chunk s) :=
  of_trackUsage (fun _ =>
    ⟨h.notStarted, h.thinking, h.text, h.toolCalls, h.pending, h.notFinished⟩) chunk

omit [Zero N] [DecidableEq N] [JsonNumber N] in
theorem sync_firstStartMessage (now : ℕ) (chunk : Chunk N) :
    Emitter.Triple readEvent (fun s g => Unstarted s ∧ g = {}) (startMessage now (some chunk))
      (Sync false) := by
  rintro s g ⟨h, rfl⟩
  have hnot : ¬s.messageStartSent = true := by
    rw [h.notStarted]
    decide
  have hread : BlockEvent.read ({} : Reader) .begin = some { begun := true } :=
    BlockEvent.read_begin rfl rfl
  unfold startMessage
  simp only [if_neg hnot]
  refine ⟨_, (readAll_singleton _ _).trans hread, ⟨fun idx info hget => ?_,
    fun idx idx' info info' hget => ?_⟩, ⟨nodup_nil, fun b hb => by cases hb⟩, rfl, rfl, rfl,
    fun i k => ⟨fun hi => (by cases hi), fun hi => ?_⟩, fun i hi => (by cases hi), rfl,
    fun ht => ?_, h.notFinished⟩
  · rw [h.toolCalls] at hget
    cases hget
  · rw [h.toolCalls] at hget
    cases hget
  · cases k with
    | thinking =>
      rw [OpenBlock, h.thinking] at hi
      cases hi.1
    | text =>
      rw [OpenBlock, h.text] at hi
      cases hi.1
    | toolUse =>
      obtain ⟨idx, info, hget, -⟩ := hi
      rw [h.toolCalls] at hget
      cases hget
  · rw [h.text] at ht
    cases ht

theorem unstarted_step (now : ℕ) {chunk : Option (Chunk N)} {s : State N}
    (h : Unstarted s) (hchoice : (chunk.bind fun c => c.choice) = none) :
    (openaiToClaudeResponse env now chunk s).1 = [] ∧
      Unstarted (openaiToClaudeResponse env now chunk s).2 := by
  have ht := unstarted_trackUsage h chunk
  unfold openaiToClaudeResponse
  simp only [hchoice, ht.pending]
  exact ⟨trivial, ht⟩

theorem sync_firstResponse (now : ℕ) {chunk : Option (Chunk N)} {choice : Choice N}
    (hchoice : (chunk.bind fun c => c.choice) = some choice) :
    Emitter.Triple readEvent (fun s g => Unstarted s ∧ g = {})
      (openaiToClaudeResponse env now chunk) SyncOrFinished := by
  rintro s g ⟨h, rfl⟩
  have ht := unstarted_trackUsage h chunk
  unfold openaiToClaudeResponse
  simp only [hchoice]
  cases chunk with
  | none => cases hchoice
  | some chunk =>
    exact triple_andThen (sync_firstStartMessage now chunk)
      (sync_translateRest env now _ _ choice) _ _ ⟨ht, rfl⟩

end

end Stream

/-! ## Calls after the finish -/

/-- The reasoning of a delta that is not sent on. -/
def SilentReasoning (delta : Delta N) : Prop :=
  reasoningText delta = "" ∨ isInternalReasoningPlaceholder (reasoningText delta) = true

section Quiet

variable {s : State N}

section

variable (h : Finished s)
include h

theorem Finished.of_same {s' : State N} (hsent : s'.messageStartSent = s.messageStartSent)
    (hthinking : s'.thinkingBlockStarted = s.thinkingBlockStarted)
    (htext : s'.textBlockStarted = s.textBlockStarted)
    (hfin : s'.claudeFinishEmitted = s.claudeFinishEmitted) : Finished s' :=
  ⟨hsent.trans h.started, hthinking.trans h.thinking, htext.trans h.text, hfin.trans h.finished⟩

theorem stopThinkingBlock_of_finished : stopThinkingBlock s = ([], s) := by
  rw [stopThinkingBlock, if_neg (by rw [h.thinking]; decide)]

theorem stopStartedTextBlock_of_finished : stopStartedTextBlock s = ([], s) := by
  have hcond : (!s.textBlockStarted || s.textBlockClosed) = true := by
    rw [h.text]
    rfl
  rw [stopStartedTextBlock, if_pos hcond]

theorem stopTextBlock_of_finished (hb : s.markdownBuffer = []) :
    stopTextBlock s = ([], { s with markdown := {} }) := by
  have hflush : flushMarkdownBuffer s = ([], { s with markdown := {} }) := by
    unfold flushMarkdownBuffer
    simp only [if_pos hb]
  have hs : Finished { s with markdown := {} } := h.of_same rfl rfl rfl rfl
  rw [stopTextBlock, andThen_of_eq hflush, stopStartedTextBlock_of_finished hs]
  rfl

theorem stopTextBlock_loud (hb : s.markdownBuffer ≠ []) : (stopTextBlock s).1 ≠ [] := by
  have hnot : ¬s.textBlockStarted = true := by
    rw [h.text]
    decide
  rw [stopTextBlock, andThen_apply, flushMarkdownBuffer]
  simp only [if_neg hb]
  rw [andThen_apply, startTextBlock, if_neg hnot]
  exact cons_ne_nil _ _

end

/-- An emitter that says something is not silent. -/
theorem quiet_of_loud {I C : State N → Prop} {m : Stream N} (hloud : ∀ s, (m s).1 ≠ [])
    (hC : ∀ s, ¬C s) : Emitter.QuietIff I C m :=
  fun s _ => ⟨⟨fun h => absurd h (hloud s), fun h => absurd h (hC s)⟩,
    fun h => absurd h (hloud s)⟩

theorem quiet_of_skip {I C : State N → Prop} (hC : ∀ s, C s) :
    Emitter.QuietIff I C (.skip : Stream N) :=
  quiet_congr quiet_skip fun s _ => (iff_true_intro (hC s)).symm

theorem quiet_emitReasoning (delta : Delta N) :
    Emitter.QuietIff Finished (fun _ => SilentReasoning delta) (emitReasoning delta) := by
  by_cases hr : SilentReasoning delta
  · have heq : emitReasoning delta = .skip := if_pos hr
    rw [heq]
    exact quiet_of_skip fun _ => hr
  · have heq : emitReasoning delta = stopTextBlock.andThen
        (startThinkingBlock.andThen (emitThinkingDelta (reasoningText delta))) := if_neg hr
    rw [heq]
    refine quiet_of_loud (fun s hnil => ?_) fun _ => hr
    exact cons_ne_nil _ _ (andThen_silent.1 (andThen_silent.1 hnil).2).2

theorem quiet_emitText (text : List Char) :
    Emitter.QuietIff Finished (fun _ => text = []) (emitText text : Stream N) := by
  unfold emitText
  by_cases ht : text = []
  · rw [if_pos ht]
    exact quiet_of_skip fun _ => ht
  · rw [if_neg ht]
    refine quiet_of_loud (fun s hnil => ?_) fun _ => ht
    exact cons_ne_nil _ _ (andThen_silent.1 hnil).2

end Quiet

section Late

theorem withLate_started {info : ToolInfo} (h : info.startEmitted = true) (tc : ToolCallDelta N)
    (name : String) : (info.withLate tc name).shimmed = info.shimmed := by
  obtain ⟨-, hs, -, hshim, -⟩ := withLateId_fields info tc
  rw [ToolInfo.withLate, ToolInfo.withLateName, if_neg (by simp [hs, h])]
  exact hshim

theorem withLate_named {info : ToolInfo} {tc : ToolCallDelta N} {name : String}
    (h : info.name = name) : (info.withLate tc name).name = name := by
  obtain ⟨-, -, hn, -, -⟩ := withLateId_fields info tc
  unfold ToolInfo.withLate ToolInfo.withLateName
  split
  · rfl
  · exact hn.trans h

/-- A block that is not started stays so where there is neither a name nor arguments. -/
theorem quiet_startKnownToolCall (tc : ToolCallDelta N) (info : ToolInfo) :
    Emitter.QuietIff Finished
      (fun _ => info.startEmitted = false → info.name = "" ∧ tc.givesArguments = false)
      (startKnownToolCall tc info) := by
  intro s h
  unfold startKnownToolCall
  by_cases hcond : (!info.startEmitted && (decide (info.name ≠ "") || tc.givesArguments)) = true
  · rw [if_pos hcond]
    refine ⟨⟨fun h => (by cases h), fun hC => ?_⟩, fun h => (by cases h)⟩
    simp only [Bool.and_eq_true, Bool.not_eq_true', Bool.or_eq_true, decide_eq_true_eq] at hcond
    obtain ⟨hname, hgives⟩ := hC hcond.1
    rcases hcond.2 with hc | hc
    · exact absurd hname hc
    · rw [hgives] at hc
      cases hc
  · rw [if_neg hcond]
    refine ⟨⟨fun _ hs => ?_, fun _ => rfl⟩, fun _ => h.of_same rfl rfl rfl rfl⟩
    rw [hs] at hcond
    simpa using hcond

theorem quiet_startMessage (now : ℕ) (chunk : Option (Chunk N)) :
    ∀ s, Finished s → startMessage now chunk s = ([], s) := by
  intro s h
  unfold startMessage
  cases chunk with
  | none => rfl
  | some chunk => simp only [if_pos h.started]

variable (env : Env N)

theorem quiet_closeChoice (hasChunkUsage flushing : Bool) (choice : Choice N) :
    Emitter.QuietIff Finished (fun _ => True)
      (closeChoice env hasChunkUsage flushing choice) := by
  intro s h
  have hskip : closeChoice env hasChunkUsage flushing choice s = ([], s) := by
    rw [closeChoice, onState_apply]
    cases truthyText choice.finishReason with
    | none => rfl
    | some finishReason => simp [h.finished]
  rw [hskip]
  exact ⟨iff_of_true rfl trivial, fun _ => h⟩

theorem finished_trackUsage {s : State N} (h : Finished s) (chunk : Option (Chunk N)) :
    Finished (chunk.elim s fun chunk => trackUsageFromChunk chunk s) :=
  of_trackUsage (fun _ => h.of_same rfl rfl rfl rfl) chunk

theorem grammatical_of_read {w : List (ClaudeEvent N)} {g : Reader}
    (h : readAll readEvent {} w = some g) (hbegun : g.begun = true) :
    ClaudeGrammatical w :=
  BlockEvent.grammatical_of_readAll ((readAll_map _ _).trans h) hbegun

variable [Zero N] [DecidableEq N] [JsonNumber N]

/-- The text that a delta adds is held back, or none is left of it. -/
def SilentContent (env : Env N) (now : ℕ) (delta : Delta N) (s : State N) : Prop :=
  let extracted := extractContent env now (contentText delta) s
  contentText delta = [] ∨
    (splitMarkdownBoundary extracted.cleaned
      (if extracted.toolCalls = [] then s.markdown else {})).emit = []

/-- A fragment that starts no block and adds no arguments. -/
def SilentToolCall (env : Env N) (s : State N) (tc : ToolCallDelta N) : Prop :=
  match s.toolCalls.get tc.idx with
  | none => truthyText tc.id ≠ none →
    s.markdownBuffer = [] ∧ incomingToolName env tc = "" ∧ tc.givesArguments = false
  | some info =>
    (info.startEmitted = false →
      (info.withLate tc (incomingToolName env tc)).name = "" ∧ tc.givesArguments = false) ∧
    (tc.arguments.truthy = true →
      info.shimmed = true ∨
        (appendToolCallArgumentDelta info.argBuffer tc.arguments).length ≤ info.argBuffer.length)

/-- A choice that adds nothing to the stream. -/
def SilentChoice (env : Env N) (now : ℕ) (choice : Choice N) (s : State N) : Prop :=
  SilentReasoning choice.delta ∧ SilentContent env now choice.delta s ∧
    Emitter.Along (emitToolCall env) (SilentToolCall env) (emitContent env now choice.delta s).2
      choice.delta.toolCalls

/-- The choice that is translated in a call, if there is one, adds nothing to the stream. -/
def SilentCall (env : Env N) (s : State N) (call : Call N) : Prop :=
  let s := call.2.elim s fun chunk => trackUsageFromChunk chunk s
  match call.2.bind fun c => c.choice with
  | some choice => SilentChoice env call.1 choice s
  | none =>
    match s.pendingClaudeFinishChoice with
    | none => True
    | some choice =>
      SilentChoice env call.1 choice { s with pendingClaudeFinishChoice := none }

omit [JsonNumber N] in
theorem quiet_emitContent (now : ℕ) (delta : Delta N) :
    Emitter.QuietIff Finished (SilentContent env now delta) (emitContent env now delta) := by
  intro s h
  unfold emitContent SilentContent
  by_cases ht : contentText delta = []
  · simp only [if_pos ht]
    exact ⟨⟨fun _ => .inl ht, fun _ => rfl⟩, fun _ => h⟩
  simp only [if_neg ht, or_iff_right ht]
  rw [andThen_of_eq (stopThinkingBlock_of_finished h), onState_apply,
    nil_append, andThen_apply, update_apply, nil_append]
  generalize extractContent env now (contentText delta) s = extracted
  have hs' : Finished { s with markdownBuffer := [], xmlInvokeBuffer := extracted.buffer } :=
    h.of_same rfl rfl rfl rfl
  have hsend : ∀ t : State N, Finished t → ((sendText extracted.cleaned t).1 = [] ↔
      (splitMarkdownBoundary extracted.cleaned t.markdown).emit = []) ∧
      ((sendText extracted.cleaned t).1 = [] → Finished (sendText extracted.cleaned t).2) := by
    intro t ht
    rw [sendText, onState_apply, andThen_apply, update_apply, nil_append]
    exact quiet_emitText _ _ (ht.of_same rfl rfl rfl rfl)
  by_cases hx : extracted.toolCalls = []
  · have hq : queueToolCalls extracted.toolCalls = (.skip : Stream N) := if_pos hx
    rw [hq, if_pos hx, andThen_apply, skip_apply, nil_append]
    exact hsend _ hs'
  · have hq : queueToolCalls extracted.toolCalls = (stopTextBlock.andThen (.update fun s =>
        { s with pendingXmlToolCalls := s.pendingXmlToolCalls ++ extracted.toolCalls }) :
        Stream N) := if_neg hx
    rw [hq, if_neg hx, andThen_apply,
      andThen_of_eq (stopTextBlock_of_finished hs' rfl), update_apply]
    exact hsend _ (hs'.of_same rfl rfl rfl rfl)

omit [Zero N] [DecidableEq N] in
/-- Arguments are not sent on for a shimmed tool or where they repeat what there is. -/
theorem quiet_emitKnownArguments (tc : ToolCallDelta N) (info : ToolInfo) :
    Emitter.QuietIff Finished
      (fun _ => info.shimmed = true ∨
        (appendToolCallArgumentDelta info.argBuffer tc.arguments).length ≤ info.argBuffer.length)
      (emitKnownArguments tc info) := by
  intro s h
  refine ⟨?_, fun _ => h.of_same rfl rfl rfl rfl⟩
  unfold emitKnownArguments
  simp only [← drop_eq_nil_iff]
  by_cases hcond : info.shimmed = true ∨
      (appendToolCallArgumentDelta info.argBuffer tc.arguments).drop info.argBuffer.length = []
  · rw [if_pos (by simpa using hcond)]
    exact iff_of_true rfl hcond
  · rw [if_neg (by simpa using hcond)]
    exact iff_of_false (cons_ne_nil _ _) hcond

variable {tc : ToolCallDelta N}

theorem emitArguments_of_not_truthy (h : ¬tc.arguments.truthy = true) (s : State N) :
    emitArguments tc s = ([], s) := by
  unfold emitArguments
  cases s.toolCalls.get tc.idx with
  | none => rfl
  | some info => exact if_neg h

omit [JsonNumber N] in
theorem not_truthy_of_not_gives {tc : ToolCallDelta N} (h : tc.givesArguments = false) :
    ¬tc.arguments.truthy = true := fun ht => by
  rw [givesArguments_of_truthy ht] at h
  cases h

variable {s : State N}

theorem silentToolCall_none (hget : s.toolCalls.get tc.idx = none) :
    SilentToolCall env s tc ↔
      (truthyText tc.id ≠ none →
        s.markdownBuffer = [] ∧ incomingToolName env tc = "" ∧ tc.givesArguments = false) := by
  unfold SilentToolCall
  rw [hget]

theorem silentToolCall_some {info : ToolInfo}
    (hget : s.toolCalls.get tc.idx = some info) : SilentToolCall env s tc ↔
      (info.startEmitted = false →
        (info.withLate tc (incomingToolName env tc)).name = "" ∧ tc.givesArguments = false) ∧
      (tc.arguments.truthy = true → info.shimmed = true ∨
        (appendToolCallArgumentDelta info.argBuffer tc.arguments).length ≤
          info.argBuffer.length) := by
  unfold SilentToolCall
  rw [hget]

/-- A tool call that is known. -/
theorem quiet_emitKnownToolCall {info : ToolInfo} (h : Finished s)
    (hget : s.toolCalls.get tc.idx = some info) :
    (((startToolCall env tc).andThen (emitArguments tc) s).1 = [] ↔ SilentToolCall env s tc) ∧
      (((startToolCall env tc).andThen (emitArguments tc) s).1 = [] →
        Finished ((startToolCall env tc).andThen (emitArguments tc) s).2) := by
  obtain ⟨-, hstarted, hargs⟩ := withLate_fields info tc (incomingToolName env tc)
  have hshim : info.startEmitted = true →
      (info.withLate tc (incomingToolName env tc)).shimmed = info.shimmed :=
    fun hs => withLate_started hs tc _
  have hstart : startToolCall env tc s =
      startKnownToolCall tc (info.withLate tc (incomingToolName env tc)) s := by
    rw [startToolCall, hget]
  have hsilent := silentToolCall_some env hget
  generalize info.withLate tc (incomingToolName env tc) = late at hstarted hargs hshim hstart hsilent
  obtain ⟨hquiet, hfin⟩ := quiet_startKnownToolCall tc late s h
  rw [hstarted] at hquiet
  rw [andThen_silent, hsilent, hstart, hquiet]
  by_cases hfirst : info.startEmitted = false → late.name = "" ∧ tc.givesArguments = false
  · have hsame : startKnownToolCall tc late s =
        ([], { s with toolCalls := s.toolCalls.set tc.idx late }) := by
      have hnil := hquiet.2 hfirst
      unfold startKnownToolCall at hnil ⊢
      by_cases hc : (!late.startEmitted && (decide (late.name ≠ "") || tc.givesArguments)) = true
      · rw [if_pos hc] at hnil
        cases hnil
      · rw [if_neg hc]
    have hs' : Finished { s with toolCalls := s.toolCalls.set tc.idx late } :=
      h.of_same rfl rfl rfl rfl
    rw [andThen_apply, hstart, hsame]
    simp only
    by_cases ht : tc.arguments.truthy = true
    · have hold : info.startEmitted = true := by
        by_contra hnot
        have := (hfirst (Bool.eq_false_iff.2 hnot)).2
        exact not_truthy_of_not_gives this ht
      have hemit : emitArguments tc { s with toolCalls := s.toolCalls.set tc.idx late } =
          emitKnownArguments tc late { s with toolCalls := s.toolCalls.set tc.idx late } := by
        unfold emitArguments
        simp only [get_set_self, if_pos ht]
      obtain ⟨hiff, hfin'⟩ := quiet_emitKnownArguments tc late _ hs'
      rw [hargs, hshim hold] at hiff
      rw [hemit]
      exact ⟨⟨fun hc => ⟨hfirst, fun _ => hiff.1 hc.2⟩, fun hc => ⟨hfirst, hiff.2 (hc.2 ht)⟩⟩,
        fun hc => hfin' hc.2⟩
    · rw [emitArguments_of_not_truthy ht]
      exact ⟨⟨fun _ => ⟨hfirst, fun hc => absurd hc ht⟩, fun _ => ⟨hfirst, rfl⟩⟩, fun _ => hs'⟩
  · exact ⟨⟨fun hc => absurd hc.1 hfirst, fun hc => absurd hc.1 hfirst⟩,
      fun hc => absurd hc.1 hfirst⟩

theorem quiet_emitToolCall (tc : ToolCallDelta N) :
    Emitter.QuietIff Finished (fun s => SilentToolCall env s tc) (emitToolCall env tc) := by
  intro s h
  cases hget : s.toolCalls.get tc.idx with
  | some info =>
    have hskip : registerToolCall env tc s = ([], s) := by
      rw [registerToolCall, onState_apply, hget]
      cases truthyText tc.id with
      | none => rfl
      | some id => simp
    rw [emitToolCall, andThen_of_eq hskip, nil_append]
    exact quiet_emitKnownToolCall env h hget
  | none =>
    cases hid : truthyText tc.id with
    | none =>
      -- A fragment of a call that was never introduced is dropped.
      have hdrop : emitToolCall env tc s = ([], s) := by
        rw [emitToolCall, andThen_apply, registerToolCall, onState_apply, hid]
        simp [andThen_apply, startToolCall, emitArguments, hget]
      rw [hdrop]
      refine ⟨iff_of_true rfl ((silentToolCall_none env hget).2 fun hne => absurd hid hne),
        fun _ => h⟩
    | some id =>
      have hreg : registerToolCall env tc s = stopThinkingBlock.andThen
          (stopTextBlock.andThen (.update (addToolCall env tc id))) s := by
        rw [registerToolCall, onState_apply, hid, hget]
        rfl
      have hne : truthyText tc.id ≠ none := by
        rw [hid]
        exact some_ne_none id
      by_cases hb : s.markdownBuffer = []
      · have hs' : Finished (addToolCall env tc id { s with markdown := {} }) :=
          h.of_same rfl rfl rfl rfl
        have hadd : registerToolCall env tc s =
            ([], addToolCall env tc id { s with markdown := {} }) := by
          rw [hreg, andThen_of_eq (stopThinkingBlock_of_finished h),
            andThen_of_eq (stopTextBlock_of_finished h hb)]
          rfl
        have hget' : (addToolCall env tc id { s with markdown := {} }).toolCalls.get tc.idx =
            some (newToolInfo env tc id s.nextBlockIndex) := get_set_self _ _ _
        obtain ⟨hiff, hfin⟩ := quiet_emitKnownToolCall env hs' hget'
        rw [emitToolCall, andThen_of_eq hadd, nil_append]
        refine ⟨hiff.trans ?_, hfin⟩
        have hname : ((newToolInfo env tc id s.nextBlockIndex).withLate tc
            (incomingToolName env tc)).name = incomingToolName env tc := withLate_named rfl
        refine (silentToolCall_some env hget').trans (Iff.trans ?_ (silentToolCall_none env hget).symm)
        rw [hname]
        constructor
        · exact fun hc _ => ⟨hb, hc.1 rfl⟩
        · intro hc
          obtain ⟨-, hempty, hgives⟩ := hc hne
          exact ⟨fun _ => ⟨hempty, hgives⟩, fun ht => absurd ht (not_truthy_of_not_gives hgives)⟩
      · have hloud : (emitToolCall env tc s).1 ≠ [] := by
          intro hnil
          have hnil' := (andThen_silent.1 hnil).1
          rw [hreg, andThen_of_eq (stopThinkingBlock_of_finished h)] at hnil'
          exact stopTextBlock_loud h hb (andThen_silent.1 hnil').1
        refine ⟨iff_of_false hloud fun hc => ?_, fun hc => absurd hc hloud⟩
        exact hb ((silentToolCall_none env hget).1 hc hne).1

theorem quiet_translateChoice (now : ℕ) (chunk : Option (Chunk N))
    (hasChunkUsage flushing : Bool) (choice : Choice N) :
    Emitter.QuietIff Finished (SilentChoice env now choice)
      (translateChoice env now chunk hasChunkUsage flushing choice) := by
  intro s h
  rw [translateChoice, andThen_of_eq (quiet_startMessage now chunk s h), nil_append]
  have hrest := quiet_andThen (quiet_emitReasoning choice.delta)
    (quiet_andThen (quiet_emitContent env now choice.delta)
      (quiet_andThen
        (quiet_forEach (l := choice.delta.toolCalls) fun tc _ => quiet_emitToolCall env tc)
        (quiet_closeChoice env hasChunkUsage flushing choice)))
  obtain ⟨hiff, hfin⟩ := hrest s h
  refine ⟨hiff.trans (and_congr_right fun hr => ?_), hfin⟩
  have hskip : emitReasoning choice.delta s = ([], s) := congrFun (if_pos hr) s
  rw [hskip]
  exact and_congr_right fun _ => and_iff_left trivial

/-- After the finish a call is silent exactly when what it translates adds nothing. -/
theorem quiet_openaiToClaudeResponse (call : Call N) :
    Emitter.QuietIff Finished (fun s => SilentCall env s call)
      (openaiToClaudeResponse env call.1 call.2) := by
  intro s h
  have ht := finished_trackUsage h call.2
  unfold openaiToClaudeResponse SilentCall
  simp only
  cases call.2.bind fun c => c.choice with
  | some choice => exact quiet_translateChoice env call.1 call.2 _ _ choice _ ht
  | none =>
    simp only
    cases (call.2.elim s fun chunk => trackUsageFromChunk chunk s).pendingClaudeFinishChoice with
    | none => exact ⟨iff_of_true rfl trivial, fun _ => ht⟩
    | some choice =>
      exact quiet_translateChoice env call.1 call.2 _ _ choice _ (ht.of_same rfl rfl rfl rfl)

/-! ## Streams -/

/-- The steps of a stream that come after the finish are silent. -/
def SilentAfterFinish (env : Env N) (s : State N) (calls : List (Call N)) : Prop :=
  Emitter.Along (fun call => openaiToClaudeResponse env call.1 call.2)
    (fun s call => s.claudeFinishEmitted = true → SilentCall env s call) s calls

/-- Once the message has ended, a stream is grammatical when nothing more is sent. -/
theorem grammatical_late {g : Reader} {w : List (ClaudeEvent N)} (hs : Finished s)
    (hread : readAll readEvent {} w = some g) (hbegun : g.begun = true)
    (hended : g.ended = true) (calls : List (Call N)) :
    ClaudeGrammatical (w ++ (translateAll env calls s).1) ↔ SilentAfterFinish env s calls := by
  have hquiet : Emitter.QuietIff Finished (fun s => SilentAfterFinish env s calls)
      (translateAll env calls) :=
    quiet_forEach fun call _ => quiet_congr
      (quiet_openaiToClaudeResponse env call) fun t ht =>
        ⟨fun hc _ => hc, fun hc => hc ht.finished⟩
  refine Iff.trans ?_ (hquiet s hs).1
  constructor
  · intro hgram
    rw [ClaudeGrammatical, map_append] at hgram
    have hnil := BlockEvent.eq_nil_of_ended ((readAll_map _ _).trans hread) hended hgram
    exact map_eq_nil_iff.1 hnil
  · intro hnil
    rw [hnil, append_nil]
    exact grammatical_of_read hread hbegun

/-- A stream goes on from a state that knows what was sent. -/
theorem grammatical_sync {g : Reader} {w : List (ClaudeEvent N)}
    (hs : SyncOrFinished s g) (hread : readAll readEvent {} w = some g) (calls : List (Call N)) :
    ClaudeGrammatical (w ++ (translateAll env calls s).1) ↔ SilentAfterFinish env s calls := by
  induction calls generalizing s g w with
  | nil =>
    have hbegun : g.begun = true := hs.elim (fun h => h.begun) fun h => h.2.1
    refine iff_of_true ?_ trivial
    rw [translateAll, forEach_nil, skip_apply, append_nil]
    exact grammatical_of_read hread hbegun
  | cons call calls ih =>
    rcases hs with hs | ⟨hfin, hbegun, hended⟩
    · obtain ⟨g', hread', hs'⟩ := sync_openaiToClaudeResponse env call.1 call.2 s g hs
      have hall : readAll readEvent {}
          (w ++ (openaiToClaudeResponse env call.1 call.2 s).1) = some g' := by
        rw [readAll_append, hread]
        exact hread'
      have hnot : ¬s.claudeFinishEmitted = true := by
        rw [hs.finished]
        decide
      have hrest := ih hs' hall
      rw [append_assoc] at hrest
      exact hrest.trans (and_iff_right fun h => absurd h hnot).symm
    · exact grammatical_late env hfin hread hbegun hended (call :: calls)

/-- A stream from the beginning. -/
theorem grammatical_unstarted (hs : Unstarted s) (calls : List (Call N)) :
    ClaudeGrammatical (translateAll env calls s).1 ↔
      (∃ call ∈ calls, (call.2.bind fun c => c.choice).isSome = true) ∧
        SilentAfterFinish env s calls := by
  induction calls generalizing s with
  | nil =>
    refine iff_of_false (fun hgram => ?_) fun h => ?_
    · obtain ⟨rest, hrest, -⟩ := hgram.begins
      cases hrest
    · obtain ⟨⟨call, hmem, -⟩, -⟩ := h
      cases hmem
  | cons call calls ih =>
    have hnot : ¬s.claudeFinishEmitted = true := by
      rw [hs.notFinished]
      decide
    have hsilent : SilentAfterFinish env s (call :: calls) ↔
        SilentAfterFinish env (openaiToClaudeResponse env call.1 call.2 s).2 calls :=
      and_iff_right fun h => absurd h hnot
    rw [hsilent, translateAll, forEach_cons, andThen_apply]
    cases hchoice : call.2.bind fun c => c.choice with
    | none =>
      obtain ⟨hnil, hs'⟩ := unstarted_step env call.1 hs hchoice
      rw [hnil, nil_append]
      refine (ih hs').trans (and_congr_left fun _ => ?_)
      rw [exists_mem_cons_iff, hchoice]
      exact (or_iff_right fun h => by cases h).symm
    | some choice =>
      obtain ⟨g, hread, hs'⟩ := sync_firstResponse env call.1 hchoice s {} ⟨hs, rfl⟩
      refine (grammatical_sync env hs' hread calls).trans
        (and_iff_right ⟨call, mem_cons_self, ?_⟩).symm
      rw [hchoice]
      rfl

/-- A stream of chunks, each with its time, and the null at its end. -/
def streamCalls (chunks : List (ℕ × Chunk N)) (endTime : ℕ) : List (Call N) :=
  chunks.map (fun c => (c.1, some c.2)) ++ [(endTime, none)]

end Late

/-- An environment without tool names and without markup. -/
def plainEnv : Env ℤ where
  parseJson := fun _ => none
  restoreClaudeToolName := id
  applyToolCallShimToBuffer := fun _ args => String.ofList args

/-- A chunk with content after the chunk with the finish reason and the usage. -/
def lateContent : List (ℕ × Chunk ℤ) :=
  [(0, { id := "chatcmpl-12345678"
         usage := some { promptTokens := some 3, completionTokens := some 1 }
         choice := some { delta := { content := "Hello" }, finishReason := "stop" } }),
    (1, { id := "chatcmpl-12345678", choice := some { delta := { content := "again" } } })]

end OmniRoute.ClaudeStream
