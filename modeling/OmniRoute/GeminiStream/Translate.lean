import OmniRoute.GeminiStream.ReasoningTags

/-!
# Gemini text to OpenAI deltas

`geminiToOpenAIResponse` for chunks whose parts are texts: the reasoning is taken out of each part,
what is left may hold a tool call written as text, and the chunk with a finish reason sends what is
still buffered.
-/

namespace OmniRoute.GeminiStream

open Leftmost

variable {N : Type}

/-- What is not decided here: `JSON.parse` and the table of tool names. -/
structure Env (N : Type) where
  parseJson : List Char → Option (Json N)
  caseInsensitiveToolNameLookup : List Char → Option (List Char)

/-! ## Escape codes -/

/-- A character that `[A-Za-z]` or, for `capital`, `[A-Z]` matches. -/
def isLetter (capital : Bool) (c : Char) : Bool := c.isUpper || (!capital && c.isLower)

/-- `\[[0-9;?]*[A-Za-z]` -/
def controlSequence : List Char → Option (List Char)
  | '[' :: text =>
    match text.dropWhile fun c => c.isDigit || c = ';' || c = '?' with
    | c :: rest => if isLetter false c then some rest else none
    | [] => none
  | _ => none

/-- `\][^\x07\x1b]*(?:\x07|\x1b\\)` -/
def systemCommand : List Char → Option (List Char)
  | ']' :: text =>
    match text.dropWhile fun c => c ≠ '\x07' && c ≠ '\x1b' with
    | '\x07' :: rest => some rest
    | '\x1b' :: '\\' :: rest => some rest
    | _ => none
  | _ => none

/-- ``[A-Z\[\]\\^_`]`` -/
def shortEscape : List Char → Option (List Char)
  | c :: text =>
    if isLetter true c || ['[', ']', '\\', '^', '_', Char.ofNat 0x60].contains c then some text
    else none
  | [] => none

/-- `[\x00-\x08\x0b\x0c\x0e-\x1f]` -/
def isStrayControl (c : Char) : Bool :=
  c.toNat ≤ 0x08 || c.toNat = 0x0B || c.toNat = 0x0C || (0x0E ≤ c.toNat && c.toNat ≤ 0x1F)

/-- `ANSI_ESCAPE_RE` at the beginning of a text. -/
def ansiEscapeAt : List Char → Option (List Char)
  | [] => none
  | c :: text =>
    if c = '\x1b' then
      (controlSequence text).or ((systemCommand text).or ((shortEscape text).or (some text)))
    else if isStrayControl c then some text
    else none

/-- Without all matches; each is at least one character. -/
def withoutEscapes : ℕ → List Char → List Char
  | 0, text => text
  | rounds + 1, text =>
    match search ansiEscapeAt text with
    | none => text
    | some (before, rest) => before ++ withoutEscapes rounds rest

def stripAnsiCodes (text : List Char) : List Char := withoutEscapes text.length text

/-! ## Tool calls -/

/-- A string that looks like JSON is parsed. -/
def normalizeToolCallArgs (env : Env N) (args : Json N) : Json N :=
  match args with
  | .str s =>
    let trimmed := trimChars s.toList
    if trimmed.head? = some '\x7b' ∨ trimmed.head? = some '[' then
      (env.parseJson trimmed).getD args
    else args
  | _ => args

def emitFunctionCallPart [Zero N] [DecidableEq N] (env : Env N) (rawToolName : List Char)
    (args : Json N) : Stream N := fun s =>
  ([.toolCall s.functionIndex ((env.caseInsensitiveToolNameLookup rawToolName).getD rawToolName)
      (normalizeToolCallArgs env (if args.truthy then args else .obj []))],
    { s with functionIndex := s.functionIndex + 1 })

/-- No call: the buffered text and the new one are sent. -/
def flushText (afterReasoning : List Char) : Stream N := fun s =>
  ([.text .content (s.textualToolCallBuffer ++ afterReasoning)],
    { s with textualToolCallBuffer := [], hasEmittedContent := true })

/-- A complete call is sent, the beginning of one is buffered. -/
def takeCandidate [Zero N] [DecidableEq N] (env : Env N) (accumulated : List Char) :
    Candidate N → Stream N
  | .complete name args =>
    (emitFunctionCallPart env name args).andThen
      (.update fun s => { s with textualToolCallBuffer := [] })
  | .partialCall => .update fun s => { s with textualToolCallBuffer := accumulated }

/-- Text from which the reasoning has been taken out. -/
def pushText [Zero N] [DecidableEq N] (env : Env N) (afterReasoning : List Char) : Stream N :=
  fun s =>
    let accumulated := s.textualToolCallBuffer ++ afterReasoning
    match parseTextualToolCallCandidate env.parseJson accumulated with
    | none => flushText afterReasoning s
    | some candidate =>
      let accumulated := stripObfuscationZeroWidth accumulated
      match toolCallStart accumulated with
      | some (c :: left, rest) =>
        let r := match parseTextualToolCallCandidate env.parseJson rest with
          | some candidate => takeCandidate env rest candidate { s with hasEmittedContent := true }
          | none => flushText afterReasoning { s with hasEmittedContent := true }
        (.text .content (c :: left) :: r.1, r.2)
      | _ => takeCandidate env accumulated candidate s

/-! ## Parts and chunks -/

/-- A text part. -/
def textPart [Zero N] [DecidableEq N] (env : Env N) (parseTextualReasoningTags : Bool)
    (text : List Char) : Stream N := fun s =>
  let partText := stripAnsiCodes text
  if partText = [] then ([], s)
  else
    let r : Consumed N :=
      if parseTextualReasoningTags then consumeTextualReasoningTags partText s
      else { deltas := [], state := s, text := partText }
    if r.text = [] then (r.deltas, r.state)
    else
      let pushed := pushText env r.text r.state
      (r.deltas ++ pushed.1, pushed.2)

/-- At the end the beginning of a call is sent as text, unless it is all there was and has the
marker of a call. -/
def finishToolCallBuffer [Zero N] [DecidableEq N] (env : Env N) : Stream N := fun s =>
  let remainingText := s.textualToolCallBuffer
  if remainingText = [] then ([], s)
  else
    let s := { s with textualToolCallBuffer := [] }
    match parseTextualToolCallCandidate env.parseJson remainingText with
    | some (.complete name args) => emitFunctionCallPart env name args s
    | _ =>
      if s.hasEmittedContent || !containsTextualToolCallMarker remainingText then
        ([.text .content remainingText], { s with hasEmittedContent := true })
      else ([], s)

def malformedToolCallFinishReasons : List String :=
  ["malformed_function_call", "unexpected_tool_call"]

def isMalformedToolCallFinishReason (value : String) : Bool :=
  malformedToolCallFinishReasons.contains value.toLower

def openaiFinishReasons : List String :=
  ["stop", "length", "tool_calls", "content_filter", "function_call"]

def safetyFinishReasons : List String :=
  ["safety", "recitation", "blocklist", "prohibited_content", "content_filtered",
    "policy_violation", "malformed_response"]

def normalizeOpenAICompatibleFinishReason (value : String) : String :=
  let normalized := value.toLower
  if openaiFinishReasons.contains normalized then normalized
  else if normalized = "max_tokens" then "length"
  else if safetyFinishReasons.contains normalized then "content_filter"
  else normalized

/-- A chunk with text parts only. -/
structure Chunk where
  /-- The content stands in a `response` field. -/
  wrapped : Bool := false
  modelVersion : String := ""
  texts : List (List Char) := []
  /-- The empty text is the same as none. -/
  finishReason : String := ""
  finishMessage : Option String := none

def Chunk.parsesTextualReasoningTags (chunk : Chunk) : Bool :=
  !chunk.wrapped && !"antigravity/".toList.isPrefixOf chunk.modelVersion.toLower.toList

/-- A rejected call is made one that fails. -/
def emitMalformedToolCall [Zero N] [DecidableEq N] (env : Env N) (chunk : Chunk) : Stream N :=
  if isMalformedToolCallFinishReason chunk.finishReason then
    emitFunctionCallPart env "malformed_tool_call".toList
      (.obj [("error", .str chunk.finishReason),
        ("message", (chunk.finishMessage.map .str).getD .null)])
  else .skip

def emitFinalChunk (chunk : Chunk) : Stream N := fun s =>
  let finishReason := normalizeOpenAICompatibleFinishReason chunk.finishReason
  if (finishReason = "stop" ∨ isMalformedToolCallFinishReason chunk.finishReason) ∧
      0 < s.functionIndex then ([.finish "tool_calls"], s)
  else ([.finish finishReason], s)

def emitFinish [Zero N] [DecidableEq N] (env : Env N) (chunk : Chunk) : Stream N :=
  if chunk.finishReason = "" then .skip
  else
    ((if chunk.parsesTextualReasoningTags then flushOpenTextualReasoning else .skip).andThen
      (finishToolCallBuffer env)).andThen
        ((emitMalformedToolCall env chunk).andThen (emitFinalChunk chunk))

def geminiToOpenAIResponse [Zero N] [DecidableEq N] (env : Env N) (chunk : Chunk) : Stream N :=
  (Emitter.forEach (textPart env chunk.parsesTextualReasoningTags) chunk.texts).andThen
    (emitFinish env chunk)

/-- The deltas of a stream. -/
def translate [Zero N] [DecidableEq N] (env : Env N) (chunks : List Chunk) : List (Delta N) :=
  (Emitter.forEach (geminiToOpenAIResponse env) chunks {}).1

/-- The text that the deltas carry in a field. -/
def textOf (field : Field) (deltas : List (Delta N)) : List Char :=
  deltas.flatMap fun
    | .text f text => if f = field then text else []
    | _ => []

theorem textOf_append (field : Field) (l₁ l₂ : List (Delta N)) :
    textOf field (l₁ ++ l₂) = textOf field l₁ ++ textOf field l₂ := List.flatMap_append

end OmniRoute.GeminiStream
