import OmniRoute.ClaudeStream.ToolMarkup
import OmniRoute.Lib.Emitter
import OmniRoute.Lib.OrdMap

/-!
# OpenAI chunks to Claude events

`open-sse/translator/response/openai-to-claude.ts`: every call of `openaiToClaudeResponse` gets one
chunk of a Chat stream, or null at the end of it, and returns Claude events. A thinking block and a
text block exclude each other; the block of a tool call stays open until the finish. A chunk with a
finish reason and without usage is stored, and its choice is translated once more, as a whole, when
the next chunk without a choice or the end of the stream comes.

What the translator does not decide itself is in `Env`: `JSON.parse`, the table of tool names, and
the correction of the arguments of a shimmed tool. `now` is the time of a call.
-/

namespace OmniRoute.ClaudeStream

open Emitter

variable {N : Type}

/-! ## Chunks -/

structure ToolCallDelta (N : Type) where
  index : Option ℤ := none
  id : Option String := none
  name : Option String := none
  arguments : Json N := .null

structure ReasoningDetail where
  text : Option String := none
  content : Option String := none

structure Delta (N : Type) where
  reasoningContent : Option String := none
  reasoning : Option String := none
  reasoningDetails : List ReasoningDetail := []
  content : Option String := none
  toolCalls : List (ToolCallDelta N) := []

structure Choice (N : Type) where
  delta : Delta N := {}
  finishReason : Option String := none

structure ChunkUsage where
  promptTokens : Option ℤ := none
  completionTokens : Option ℤ := none
  cachedTokens : Option ℤ := none
  cacheCreationTokens : Option ℤ := none

structure Chunk (N : Type) where
  id : Option String := none
  model : Option String := none
  requestId : Option String := none
  traceId : Option String := none
  usage : Option ChunkUsage := none
  choice : Option (Choice N) := none

/-! ## Events -/

structure ClaudeUsage where
  inputTokens : ℤ
  outputTokens : ℤ
  cacheReadInputTokens : Option ℤ := none
  cacheCreationInputTokens : Option ℤ := none

inductive ContentBlock (N : Type)
  | text
  | thinking
  | toolUse (id name : String) (input : Json N)

inductive BlockDelta
  | textDelta (text : String)
  | thinkingDelta (thinking : String)
  | inputJsonDelta (partialJson : String)

inductive ClaudeEvent (N : Type)
  | messageStart (id model : String)
  | contentBlockStart (index : ℕ) (block : ContentBlock N)
  | contentBlockDelta (index : ℕ) (delta : BlockDelta)
  | contentBlockStop (index : ℕ)
  | messageDelta (stopReason : String) (usage : ClaudeUsage)
  | messageStop

/-! ## State -/

structure ToolInfo where
  id : String
  name : String
  blockIndex : ℕ
  shimmed : Bool
  argBuffer : List Char
  startEmitted : Bool

structure State (N : Type) where
  messageStartSent : Bool := false
  messageId : String := ""
  model : String := ""
  nextBlockIndex : ℕ := 0
  thinkingBlockStarted : Bool := false
  thinkingBlockIndex : ℕ := 0
  textBlockStarted : Bool := false
  textBlockClosed : Bool := false
  textBlockIndex : ℕ := 0
  toolCalls : OrdMap ℤ ToolInfo := OrdMap.empty
  markdownBuffer : List Char := []
  markdown : BacktickState := {}
  xmlInvokeBuffer : List Char := []
  pendingXmlToolCalls : List (XmlToolCall N) := []
  usage : Option ClaudeUsage := none
  pendingClaudeFinishChoice : Option (Choice N) := none
  claudeFinishEmitted : Bool := false
  finishReason : Option String := none

structure Env (N : Type) where
  parseJson : String → Option (Json N)
  restoreClaudeToolName : String → String
  applyToolCallShimToBuffer : String → List Char → String

abbrev Stream (N : Type) := Emitter (State N) (ClaudeEvent N)

/-! ## Texts -/

/-- A text that counts as true. -/
def truthyText (text : Option String) : Option String :=
  match text with
  | some s => if s = "" then none else some s
  | none => none

/-- A text without the occurrences of a literal; the number counts characters still to skip. -/
def removeLiteral (literal : List Char) : ℕ → List Char → List Char
  | _, [] => []
  | skip + 1, _ :: text => removeLiteral literal skip text
  | 0, c :: text =>
    if literal.isPrefixOf (c :: text) then removeLiteral literal (literal.length - 1) text
    else c :: removeLiteral literal 0 text

/-- The text without the first occurrence of a literal. -/
def removeFirst (literal text : List Char) : List Char :=
  match indexOfLiteral literal text with
  | some i => text.take i ++ text.drop (i + literal.length)
  | none => text

def nonAnthropicThinkingPlaceholder : String := "(prior reasoning summary unavailable)"

def isInternalReasoningPlaceholder (value : String) : Bool :=
  jsTrim value = nonAnthropicThinkingPlaceholder

def stripInternalReasoningPlaceholder (value : String) : String :=
  let placeholder := nonAnthropicThinkingPlaceholder.toList
  if (indexOfLiteral placeholder value.toList).isNone then value
  else
    let stripped := String.ofList (removeLiteral placeholder 0 value.toList)
    if isBlank stripped then "" else stripped

def sanitizeToolId (id : String) : String :=
  String.ofList (id.toList.flatMap fun c =>
    if isWordChar c || c = '-' then [c] else List.replicate (jsLength [c]) '_')

def claudeOauthToolPrefix : String := "proxy_"

/-- The tool name of a fragment, without the prefix that requests put before it. -/
def incomingToolName (env : Env N) (tc : ToolCallDelta N) : String :=
  let name := tc.name.getD ""
  env.restoreClaudeToolName
    (if claudeOauthToolPrefix.toList.isPrefixOf name.toList then
      String.ofList (name.toList.drop claudeOauthToolPrefix.length)
    else name)

/-- `tc.index ?? 0` -/
def ToolCallDelta.idx (tc : ToolCallDelta N) : ℤ := tc.index.getD 0

/-- `tc.function?.arguments != null` -/
def ToolCallDelta.givesArguments (tc : ToolCallDelta N) : Bool :=
  match tc.arguments with
  | .null => false
  | _ => true

/-- The tools whose arguments are corrected before they are sent. -/
def toolShims : List String := ["Read", "submit_pr_review"]

def hasToolCallShim (name : String) : Bool :=
  name ≠ "" && toolShims.any fun key => key = name || key.toLower = name.toLower

def normalizeIncomingFragment [JsonNumber N] (incoming : Json N) : List Char :=
  match incoming with
  | .str s => s.toList
  | .arr items => (Json.stringify (.arr items)).toList
  | .obj fields => (Json.stringify (.obj fields)).toList
  | _ => []

/-- A fragment that repeats what there is and goes on replaces it, any other is appended. -/
def appendToolCallArgumentDelta [JsonNumber N] (existing : List Char) (incoming : Json N) :
    List Char :=
  let next := normalizeIncomingFragment incoming
  if existing = [] then next
  else if next = [] then existing
  else if existing.isPrefixOf next then next
  else existing ++ next

def abortFinishReasons : List String :=
  ["malformed_function_call", "unexpected_tool_call", "finish_reason_unspecified", "other",
    "language", "no_image"]

def isAbortFinishReason (value : String) : Bool := abortFinishReasons.contains value.toLower

def convertFinishReason (reason : String) : String :=
  if reason = "stop" then "end_turn"
  else if reason = "length" then "max_tokens"
  else if reason = "tool_calls" then "tool_use"
  else if isAbortFinishReason reason then "tool_use"
  else "end_turn"

/-- The reasoning text of a delta, whichever field carries it. -/
def reasoningText (delta : Delta N) : String :=
  match (truthyText delta.reasoningContent).or (truthyText delta.reasoning) with
  | some text => text
  | none =>
    String.join (delta.reasoningDetails.filterMap fun detail =>
      (truthyText detail.text).or (truthyText detail.content))

/-! ## Blocks -/

def stopThinkingBlock : Stream N := fun s =>
  if s.thinkingBlockStarted then
    ([.contentBlockStop s.thinkingBlockIndex], { s with thinkingBlockStarted := false })
  else ([], s)

def startThinkingBlock : Stream N := fun s =>
  if s.thinkingBlockStarted then ([], s)
  else
    ([.contentBlockStart s.nextBlockIndex .thinking],
      { s with
        thinkingBlockIndex := s.nextBlockIndex
        nextBlockIndex := s.nextBlockIndex + 1
        thinkingBlockStarted := true })

def startTextBlock : Stream N := fun s =>
  if s.textBlockStarted then ([], s)
  else
    ([.contentBlockStart s.nextBlockIndex .text],
      { s with
        textBlockIndex := s.nextBlockIndex
        nextBlockIndex := s.nextBlockIndex + 1
        textBlockStarted := true
        textBlockClosed := false })

def emitTextDelta (text : List Char) : Stream N := fun s =>
  ([.contentBlockDelta s.textBlockIndex (.textDelta (String.ofList text))], s)

def flushMarkdownBuffer : Stream N := fun s =>
  let buffered := s.markdownBuffer
  let s := { s with markdown := {} }
  if buffered = [] then ([], s)
  else
    (startTextBlock.andThen (.onState fun s =>
      if s.textBlockClosed then .skip else emitTextDelta buffered)) { s with markdownBuffer := [] }

def stopStartedTextBlock : Stream N := fun s =>
  if !s.textBlockStarted || s.textBlockClosed then ([], s)
  else
    ([.contentBlockStop s.textBlockIndex],
      { s with textBlockClosed := true, textBlockStarted := false })

def stopTextBlock : Stream N := flushMarkdownBuffer.andThen stopStartedTextBlock

/-! ## Usage -/

def trackUsageFromChunk (chunk : Chunk N) (s : State N) : State N :=
  match chunk.usage with
  | none => s
  | some usage =>
    let cacheReadTokens := usage.cachedTokens.getD 0
    let cacheCreateTokens := usage.cacheCreationTokens.getD 0
    { s with
      usage := some
        { inputTokens := usage.promptTokens.getD 0 - cacheReadTokens - cacheCreateTokens
          outputTokens := usage.completionTokens.getD 0
          cacheReadInputTokens := if cacheReadTokens > 0 then some cacheReadTokens else none
          cacheCreationInputTokens :=
            if cacheCreateTokens > 0 then some cacheCreateTokens else none } }

/-! ## The parts of a call -/

def messageIdOf (now : ℕ) (chunk : Chunk N) : String :=
  let fallback := "msg_" ++ toString now
  let id := (truthyText (chunk.id.map fun id =>
    String.ofList (removeFirst "chatcmpl-".toList id.toList))).getD fallback
  if id = "chat" ∨ jsLength id.toList < 8 then
    ((truthyText chunk.requestId).or (truthyText chunk.traceId)).getD fallback
  else id

/-- The first chunk with a choice starts the message. -/
def startMessage (now : ℕ) (chunk : Option (Chunk N)) : Stream N := fun s =>
  match chunk with
  | some chunk =>
    if s.messageStartSent then ([], s)
    else
      let id := messageIdOf now chunk
      let model := (truthyText chunk.model).getD "unknown"
      ([.messageStart id model],
        { s with
          messageStartSent := true
          messageId := id
          model := model
          nextBlockIndex := 0
          pendingXmlToolCalls := []
          xmlInvokeBuffer := []
          markdownBuffer := []
          markdown := {} })
  -- Only a stored choice is translated without a chunk, and it was stored after the start.
  | none => ([], s)

def emitThinkingDelta (thinking : String) : Stream N := fun s =>
  ([.contentBlockDelta s.thinkingBlockIndex (.thinkingDelta thinking)], s)

def emitReasoning (delta : Delta N) : Stream N :=
  let reasoningContent := reasoningText delta
  if reasoningContent = "" ∨ isInternalReasoningPlaceholder reasoningContent then .skip
  else
    stopTextBlock.andThen (startThinkingBlock.andThen (emitThinkingDelta reasoningContent))

def emitText (text : List Char) : Stream N :=
  if text = [] then .skip else startTextBlock.andThen (emitTextDelta text)

section Calls

variable [Zero N] [DecidableEq N] [JsonNumber N]

/-- The content of a delta as it is sent on. -/
def contentText (delta : Delta N) : List Char :=
  (stripInternalReasoningPlaceholder (delta.content.getD "")).toList

/-- The markup is taken out of the text that was held back and the new text. -/
def extractContent (env : Env N) (now : ℕ) (text : List Char) (s : State N) : Extracted N :=
  extractXmlInvokeBlocks env.parseJson now (s.markdownBuffer ++ text) s.xmlInvokeBuffer

/-- Calls found in the text wait for the finish. -/
def queueToolCalls (toolCalls : List (XmlToolCall N)) : Stream N :=
  if toolCalls = [] then .skip
  else
    stopTextBlock.andThen (.update fun s =>
      { s with pendingXmlToolCalls := s.pendingXmlToolCalls ++ toolCalls })

/-- A text is sent up to its incomplete end. -/
def sendText (cleaned : List Char) : Stream N :=
  .onState fun s =>
    let split := splitMarkdownBoundary cleaned s.markdown
    (update fun s => { s with markdownBuffer := split.hold, markdown := split.state }).andThen
      (emitText split.emit)

def emitContent (env : Env N) (now : ℕ) (delta : Delta N) : Stream N :=
  let text := contentText delta
  if text = [] then .skip
  else
    stopThinkingBlock.andThen (.onState fun s =>
      let extracted := extractContent env now text s
      (update fun s =>
        { s with markdownBuffer := [], xmlInvokeBuffer := extracted.buffer }).andThen
      ((queueToolCalls extracted.toolCalls).andThen (sendText extracted.cleaned)))

def newToolInfo (env : Env N) (tc : ToolCallDelta N) (id : String) (blockIndex : ℕ) : ToolInfo :=
  let name := incomingToolName env tc
  { id := sanitizeToolId id
    name
    blockIndex
    shimmed := name ≠ "" && hasToolCallShim name
    argBuffer := []
    startEmitted := false }

/-- A new tool call reserves the next index. -/
def addToolCall (env : Env N) (tc : ToolCallDelta N) (id : String) (s : State N) : State N :=
  { s with
    toolCalls := s.toolCalls.set tc.idx (newToolInfo env tc id s.nextBlockIndex)
    nextBlockIndex := s.nextBlockIndex + 1 }

/-- A tool call is known from the first fragment with an id at its index on. -/
def registerToolCall (env : Env N) (tc : ToolCallDelta N) : Stream N :=
  .onState fun s =>
    match truthyText tc.id with
    | none => .skip
    | some id =>
      if (s.toolCalls.get tc.idx).isSome then .skip
      else stopThinkingBlock.andThen (stopTextBlock.andThen (.update (addToolCall env tc id)))

def ToolInfo.withLateId (info : ToolInfo) (tc : ToolCallDelta N) : ToolInfo :=
  match truthyText tc.id with
  | some id => if info.id = "" then { info with id := sanitizeToolId id } else info
  | none => info

def ToolInfo.withLateName (info : ToolInfo) (incomingName : String) : ToolInfo :=
  if incomingName ≠ "" && !info.startEmitted && info.name = "" then
    { info with name := incomingName, shimmed := hasToolCallShim incomingName }
  else info

/-- A late id or name is noted, the name as long as the block is not started. -/
def ToolInfo.withLate (info : ToolInfo) (tc : ToolCallDelta N) (incomingName : String) : ToolInfo :=
  (info.withLateId tc).withLateName incomingName

def ToolInfo.startEvent (info : ToolInfo) : ClaudeEvent N :=
  .contentBlockStart info.blockIndex (.toolUse info.id info.name (.obj []))

/-- The block is started when there is a name, or arguments that cannot wait for one. -/
def startKnownToolCall (tc : ToolCallDelta N) (info : ToolInfo) : Stream N := fun s =>
  if !info.startEmitted && (info.name ≠ "" || tc.givesArguments) then
    ([info.startEvent],
      { s with toolCalls := s.toolCalls.set tc.idx { info with startEmitted := true } })
  else ([], { s with toolCalls := s.toolCalls.set tc.idx info })

def startToolCall (env : Env N) (tc : ToolCallDelta N) : Stream N := fun s =>
  match s.toolCalls.get tc.idx with
  | none => ([], s)
  | some info => startKnownToolCall tc (info.withLate tc (incomingToolName env tc)) s

/-- The new part of the arguments is sent on, unless they are to be corrected first. -/
def emitKnownArguments (tc : ToolCallDelta N) (info : ToolInfo) : Stream N := fun s =>
  let nextArgs := appendToolCallArgumentDelta info.argBuffer tc.arguments
  let deltaStr := nextArgs.drop info.argBuffer.length
  (if info.shimmed || deltaStr = [] then []
    else [.contentBlockDelta info.blockIndex (.inputJsonDelta (String.ofList deltaStr))],
    { s with toolCalls := s.toolCalls.set tc.idx { info with argBuffer := nextArgs } })

def emitArguments (tc : ToolCallDelta N) : Stream N := fun s =>
  match s.toolCalls.get tc.idx with
  | none => ([], s)
  | some info => if tc.arguments.truthy then emitKnownArguments tc info s else ([], s)

def emitToolCall (env : Env N) (tc : ToolCallDelta N) : Stream N :=
  (registerToolCall env tc).andThen ((startToolCall env tc).andThen (emitArguments tc))

/-! ## The finish -/

/-- A tool call that has never been named is started here, and a shimmed one gets its arguments. -/
def finishToolCall (env : Env N) (entry : ℤ × ToolInfo) : Stream N := fun s =>
  let info := entry.2
  ((if info.startEmitted then [] else [info.startEvent]) ++
    (if info.shimmed then
      [.contentBlockDelta info.blockIndex
        (.inputJsonDelta (env.applyToolCallShimToBuffer info.name info.argBuffer))]
    else []) ++ [.contentBlockStop info.blockIndex],
    { s with toolCalls := s.toolCalls.set entry.1 { info with startEmitted := true } })

def finishXmlToolCall (env : Env N) (tc : XmlToolCall N) : Stream N := fun s =>
  ([.contentBlockStart s.nextBlockIndex
      (.toolUse tc.id (env.restoreClaudeToolName tc.name) tc.args),
    .contentBlockStop s.nextBlockIndex],
    { s with nextBlockIndex := s.nextBlockIndex + 1 })

def finishMessage (finishReason : String) : Stream N := fun s =>
  let overrideFinishReason := if s.pendingXmlToolCalls ≠ [] then "tool_calls" else finishReason
  ([.messageDelta (convertFinishReason overrideFinishReason)
      (s.usage.getD { inputTokens := 0, outputTokens := 0 }), .messageStop],
    { s with finishReason := some overrideFinishReason })

def emitFinish (env : Env N) (finishReason : String) : Stream N :=
  (update fun s => { s with claudeFinishEmitted := true }).andThen
  (stopThinkingBlock.andThen
  (stopTextBlock.andThen
  ((onState fun s => .forEach (finishToolCall env) s.toolCalls.entries).andThen
  ((onState fun s => .forEach (finishXmlToolCall env) s.pendingXmlToolCalls).andThen
  (finishMessage finishReason)))))

/-- `flushing` is true where a stored choice is translated again. -/
def closeChoice (env : Env N) (hasChunkUsage flushing : Bool) (choice : Choice N) : Stream N :=
  .onState fun s =>
    match truthyText choice.finishReason with
    | none => .skip
    | some finishReason =>
      if s.claudeFinishEmitted then .skip
      else if !hasChunkUsage && !flushing then
        .update fun s => { s with pendingClaudeFinishChoice := some choice }
      else emitFinish env finishReason

/-! ## A call -/

def translateChoice (env : Env N) (now : ℕ) (chunk : Option (Chunk N))
    (hasChunkUsage flushing : Bool) (choice : Choice N) : Stream N :=
  (startMessage now chunk).andThen
  ((emitReasoning choice.delta).andThen
  ((emitContent env now choice.delta).andThen
  ((forEach (emitToolCall env) choice.delta.toolCalls).andThen
  (closeChoice env hasChunkUsage flushing choice))))

def hasUsage (chunk : Option (Chunk N)) : Bool := (chunk.bind fun c => c.usage).isSome

def openaiToClaudeResponse (env : Env N) (now : ℕ) (chunk : Option (Chunk N)) : Stream N := fun s =>
  let s := chunk.elim s fun chunk => trackUsageFromChunk chunk s
  match chunk.bind fun c => c.choice with
  | some choice => translateChoice env now chunk (hasUsage chunk) false choice s
  | none =>
    match s.pendingClaudeFinishChoice with
    | none => ([], s)
    | some choice =>
      translateChoice env now chunk (hasUsage chunk) true choice
        { s with pendingClaudeFinishChoice := none }

/-- A call with its time. -/
abbrev Call (N : Type) := ℕ × Option (Chunk N)

def translateAll (env : Env N) (calls : List (Call N)) : Stream N :=
  .forEach (fun call => openaiToClaudeResponse env call.1 call.2) calls

end Calls

end OmniRoute.ClaudeStream
