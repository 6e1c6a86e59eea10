import OmniRoute.Lib.Emitter
import OmniRoute.Lib.OrdMap

/-!
# Claude events to OpenAI chunks

`open-sse/translator/response/claude-to-openai.ts`: every call of `claudeToOpenAIResponse` gets one
event of a Claude stream and returns chunks of a Chat stream. The usage is merged over the events
and goes out with the chunk that has a finish reason: the first one for a `message_delta` with a
stop reason, else one for `message_stop`.

`now` is the time of the call. Token counts are natural numbers; a count that is missing or no
number is `none`.
-/

namespace OmniRoute.ClaudeResponse

open Emitter

/-! ## Events -/

/-- The counts of a usage record. `prompt` and `completion` are the OpenAI spellings, which are read
at the start only, and `thinking` stands in the details of the output, read in deltas only. -/
structure ReportedUsage where
  inputTokens : Option ℕ := none
  outputTokens : Option ℕ := none
  cacheReadInputTokens : Option ℕ := none
  cacheCreationInputTokens : Option ℕ := none
  promptTokens : Option ℕ := none
  completionTokens : Option ℕ := none
  thinkingTokens : Option ℕ := none

inductive Block
  | text
  | thinking
  | toolUse (id name : String)
  | other

inductive Delta
  | text (text : String)
  | thinking (thinking : String)
  | inputJson (partialJson : String)
  | other

inductive Event
  | messageStart (id model : Option String) (usage : Option ReportedUsage)
  | contentBlockStart (index : ℕ) (block : Block)
  | contentBlockDelta (index : ℕ) (delta : Delta)
  | contentBlockStop (index : ℕ)
  | messageDelta (stopReason : Option String) (usage : Option ReportedUsage)
  | messageStop
  | other

/-! ## Chunks -/

structure ToolCall where
  index : ℕ
  id : String
  name : String
  arguments : String
  deriving DecidableEq

inductive ChunkDelta
  | role (role : String)
  | content (text : String)
  | reasoningContent (text : String)
  | toolCall (toolCall : ToolCall)
  | toolArguments (index : ℕ) (arguments : String)
  | empty
  deriving DecidableEq

structure PromptTokensDetails where
  cachedTokens : Option ℕ
  cacheCreationTokens : Option ℕ
  deriving DecidableEq

/-- `reasoningTokens` is written twice, in the details of the completion too. -/
structure OpenAIUsage where
  promptTokens : ℕ
  completionTokens : ℕ
  totalTokens : ℕ
  reasoningTokens : Option ℕ
  promptTokensDetails : Option PromptTokensDetails
  deriving DecidableEq

structure Chunk where
  id : String
  created : ℕ
  model : Option String
  delta : ChunkDelta
  finishReason : Option String
  usage : Option OpenAIUsage := none
  deriving DecidableEq

/-! ## State -/

/-- The merged usage; `inputTokens` and `outputTokens` are repeated as prompt and completion. -/
structure Usage where
  inputTokens : ℕ
  outputTokens : ℕ
  cacheReadInputTokens : Option ℕ
  cacheCreationInputTokens : Option ℕ
  reasoningTokens : Option ℕ
  deriving DecidableEq

structure State where
  messageId : String := ""
  model : Option String := none
  toolCallIndex : ℕ := 0
  toolCalls : OrdMap ℕ ToolCall := OrdMap.empty
  usage : Option Usage := none
  textBlockStarted : Bool := false
  thinkingBlockStarted : Bool := false
  inThinkingBlock : Bool := false
  currentBlockIndex : ℕ := 0
  pendingThinkClose : Bool := false
  suppressThinkClose : Bool := false
  finishReason : Option String := none
  finishReasonSent : Bool := false

/-- `toolNameMap?.get(name) || name`, and the time of the call. -/
structure Env where
  restoreName : String → String
  now : ℕ

abbrev Stream := Emitter State Chunk

/-- A string that is not empty. -/
def truthyText (s : Option String) : Option String := s.filter fun s => decide (s ≠ "")

/-- A count that is not zero. -/
def positive (n : ℕ) : Option ℕ := if 0 < n then some n else none

/-! ## Usage -/

/-- The usage of the start, recorded when some count is positive. -/
def startUsage (reported : ReportedUsage) : Option Usage :=
  let inputTokens := (reported.inputTokens.or reported.promptTokens).getD 0
  let outputTokens := (reported.outputTokens.or reported.completionTokens).getD 0
  let cacheRead := reported.cacheReadInputTokens.getD 0
  let cacheCreation := reported.cacheCreationInputTokens.getD 0
  if 0 < inputTokens ∨ 0 < outputTokens ∨ 0 < cacheRead ∨ 0 < cacheCreation then
    some
      { inputTokens := inputTokens + cacheRead
        outputTokens
        cacheReadInputTokens := positive cacheRead
        cacheCreationInputTokens := positive cacheCreation
        reasoningTokens := none }
  else none

/-- The usage after a delta that reports some counts. -/
def deltaUsage (previousUsage : Option Usage) (reported : ReportedUsage) : Usage :=
  let previousInputTokens := (previousUsage.map Usage.inputTokens).getD 0
  let previousCacheReadTokens := (previousUsage.bind Usage.cacheReadInputTokens).getD 0
  let previousCacheCreationTokens := (previousUsage.bind Usage.cacheCreationInputTokens).getD 0
  let inputTokens := reported.inputTokens.getD 0
  let outputTokens := reported.outputTokens.getD 0
  let cacheReadTokens := reported.cacheReadInputTokens.getD 0
  let cacheCreationTokens := reported.cacheCreationInputTokens.getD 0
  let billableInputTokens :=
    if 0 < inputTokens ∨ 0 < cacheReadTokens ∨ 0 < cacheCreationTokens then
      inputTokens + cacheReadTokens
    else previousInputTokens
  let effectiveCacheReadTokens :=
    if cacheReadTokens ≠ 0 then cacheReadTokens else previousCacheReadTokens
  let effectiveCacheCreationTokens :=
    if cacheCreationTokens ≠ 0 then cacheCreationTokens else previousCacheCreationTokens
  { inputTokens := billableInputTokens
    outputTokens
    cacheReadInputTokens := positive effectiveCacheReadTokens
    cacheCreationInputTokens := positive effectiveCacheCreationTokens
    reasoningTokens := reported.thinkingTokens }

/-- The usage of the chunk with the finish reason. -/
def finalUsage (usage : Usage) : OpenAIUsage :=
  let cachedTokens := usage.cacheReadInputTokens.getD 0
  let cacheCreationTokens := usage.cacheCreationInputTokens.getD 0
  { promptTokens := usage.inputTokens
    completionTokens := usage.outputTokens
    totalTokens := usage.inputTokens + usage.outputTokens
    reasoningTokens := usage.reasoningTokens
    promptTokensDetails :=
      if 0 < cachedTokens ∨ 0 < cacheCreationTokens then
        some ⟨positive cachedTokens, positive cacheCreationTokens⟩
      else none }

/-! ## The events one by one -/

section Events

variable (env : Env)

def createChunk (s : State) (delta : ChunkDelta) (finishReason : Option String) : Chunk where
  id := "chatcmpl-" ++ s.messageId
  created := env.now / 1000
  model := s.model
  delta
  finishReason

def send (delta : ChunkDelta) : Stream := fun s => ([createChunk env s delta none], s)

def messageStart (id model : Option String) (usage : Option ReportedUsage) : Stream :=
  (update fun s =>
    { s with
      messageId := (truthyText id).getD ("msg_" ++ toString env.now)
      model
      toolCallIndex := 0
      usage := (usage.bind startUsage).or s.usage }).andThen (send env (.role "assistant"))

def contentBlockStart (index : ℕ) : Block → Stream
  | .text => .update fun s => { s with textBlockStarted := true }
  | .thinking =>
    (update fun s =>
      { s with inThinkingBlock := true, currentBlockIndex := index }).andThen
        (send env (.reasoningContent ""))
  | .toolUse id name => .onState fun s =>
    let toolCall : ToolCall := ⟨s.toolCallIndex, id, env.restoreName name, ""⟩
    (update fun s =>
      { s with
        toolCallIndex := s.toolCallIndex + 1
        toolCalls := s.toolCalls.set index toolCall }).andThen (send env (.toolCall toolCall))
  | .other => .skip

/-- The deferred marker at the end of the thinking. -/
def flushThinkClose : Stream := .onState fun s =>
  if s.pendingThinkClose then
    (if s.suppressThinkClose then .skip else send env (.content "</think>")).andThen
      (.update fun s => { s with pendingThinkClose := false })
  else .skip

def contentBlockDelta (index : ℕ) : Delta → Stream
  | .text text =>
    if text = "" then .skip else (flushThinkClose env).andThen (send env (.content text))
  | .thinking thinking => if thinking = "" then .skip else send env (.reasoningContent thinking)
  | .inputJson partialJson => .onState fun s =>
    if partialJson = "" then .skip
    else
      match s.toolCalls.get index with
      | none => .skip
      | some toolCall =>
        (update fun s =>
          { s with
            toolCalls := s.toolCalls.set index
              { toolCall with arguments := toolCall.arguments ++ partialJson } }).andThen
          (send env (.toolArguments toolCall.index partialJson))
  | .other => .skip

def contentBlockStop (index : ℕ) : Stream := .update fun s =>
  let s := if s.inThinkingBlock && s.currentBlockIndex = index then
    { s with pendingThinkClose := true, inThinkingBlock := false } else s
  { s with textBlockStarted := false, thinkingBlockStarted := false }

def convertStopReason (reason : String) : String :=
  if reason = "end_turn" then "stop"
  else if reason = "max_tokens" then "length"
  else if reason = "tool_use" then "tool_calls"
  else "stop"

/-- The chunk with the finish reason. -/
def sendFinish (finishReason : String) : Stream := fun s =>
  ([{ createChunk env s .empty (some finishReason) with usage := s.usage.map finalUsage }],
    { s with finishReasonSent := true })

def mergeUsage (usage : Option ReportedUsage) : Stream := .update fun s =>
  match usage with
  | none => s
  | some reported => { s with usage := some (deltaUsage s.usage reported) }

def finishMessage (stopReason : Option String) : Stream :=
  match truthyText stopReason with
  | none => .skip
  | some reason =>
    (onState fun s =>
      if s.toolCalls.size = 0 then flushThinkClose env else .skip).andThen
      ((update fun s => { s with finishReason := some (convertStopReason reason) }).andThen
        (sendFinish env (convertStopReason reason)))

def messageDelta (stopReason : Option String) (usage : Option ReportedUsage) : Stream :=
  (mergeUsage usage).andThen (finishMessage env stopReason)

def messageStop : Stream := .onState fun s =>
  if s.finishReasonSent then .skip
  else sendFinish env (s.finishReason.getD (if 0 < s.toolCalls.size then "tool_calls" else "stop"))

def claudeToOpenAIResponse : Event → Stream
  | .messageStart id model usage => messageStart env id model usage
  | .contentBlockStart index block => contentBlockStart env index block
  | .contentBlockDelta index delta => contentBlockDelta env index delta
  | .contentBlockStop index => contentBlockStop index
  | .messageDelta stopReason usage => messageDelta env stopReason usage
  | .messageStop => messageStop env
  | .other => .skip

end Events

/-- The state after a run of events, each with its own time and names. -/
def runEvents : List (Env × Event) → State → State
  | [], s => s
  | (env, event) :: events, s => runEvents events (claudeToOpenAIResponse env event s).2

end OmniRoute.ClaudeResponse
