import OmniRoute.Lib.OrdMap
import OmniRoute.ToolPairing.PrepareClaude

/-!
# Chat messages as Claude messages

The messages of `openaiToClaudeRequest`, with `getContentBlocksFromMessage`, and
`enforceToolResultAdjacency`, of `open-sse/translator/request/openai-to-claude.ts` and the files
next to it.

Neighbouring messages of one role are merged while they call no tool; a result becomes a user
message of its own, and a last pass moves every result behind the message with its call. What the
request and the route say, `JSON.parse` and the random ids are a `Conversion`.
-/

namespace OmniRoute.ClaudeRequest

open ToolPairing Json

open PrepareClaude (isFilled setField mapFields sanitizeToolId)

variable {N : Type}

structure Conversion (N : Type) where
  disableToolPrefix : Bool
  thinkingEnabledForRequest : Bool
  isKimiCoding : Bool
  /-- `DEFAULT_THINKING_CLAUDE_SIGNATURE` -/
  defaultSignature : String
  parseJSON : String → Option (Json N)
  /-- The id that is drawn for a block without one, by message and block. -/
  randomId : ℕ → ℕ → String

structure ClaudeMessage (N : Type) where
  role : Role
  content : List (Block N)

/-! ## Contents of results -/

/-- A block as a value. -/
def blockValue : Block N → Json N
  | .toolUse id fields =>
    .obj (("type", .str "tool_use") :: (id.toList.map fun id => ("id", .str id)) ++ fields)
  | .toolResult id fields =>
    .obj (("type", .str "tool_result") ::
      (id.toList.map fun id => ("tool_use_id", .str id)) ++ fields)
  | .other value => value

/-- A text block whose text is empty or missing. -/
def isEmptyText (block : Json N) : Bool :=
  block.hasType "text" &&
    match block.prop "text" with
    | none => true
    | some .null => true
    | some (.str text) => decide (text = "")
    | some _ => false

mutual

def stripEmptyTextBlocks : List (Json N) → List (Json N)
  | [] => []
  | block :: blocks =>
    if isEmptyText block then stripEmptyTextBlocks blocks
    else stripNested block :: stripEmptyTextBlocks blocks

/-- A nested result has its own content stripped. -/
def stripNested : Json N → Json N
  | .obj fields =>
    if (obj fields).hasType "tool_result" then .obj (stripContent fields) else .obj fields
  | block => block

def stripContent : List (String × Json N) → List (String × Json N)
  | [] => []
  | (name, .arr items) :: fields =>
    (name, .arr (if name = "content" then stripEmptyTextBlocks items else items)) ::
      stripContent fields
  | field :: fields => field :: stripContent fields

end

/-- The parts of `data:<type>;base64,<data>`. -/
def dataUrlParts (url : String) : Option (String × String) :=
  let chars := url.toList
  if "data:".toList.isPrefixOf chars then
    let rest := chars.drop 5
    let mediaType := rest.takeWhile fun c => c ≠ ';'
    let rest := rest.dropWhile fun c => c ≠ ';'
    let data := rest.drop ";base64,".length
    if mediaType ≠ [] && ";base64,".toList.isPrefixOf rest && data ≠ [] &&
        data.all fun c => c ≠ '\n' && c ≠ '\r' && c.toNat ≠ 0x2028 && c.toNat ≠ 0x2029 then
      some (String.ofList mediaType, String.ofList data)
    else none
  else none

def base64Source (mediaType data : String) : Json N :=
  .obj [("type", .str "base64"), ("media_type", .str mediaType), ("data", .str data)]

def urlSource (url : String) : Json N := .obj [("type", .str "url"), ("url", .str url)]

def sourceBlock (type : String) (source : Json N) : Json N :=
  .obj [("type", .str type), ("source", source)]

def extractOpenAiImageUrl : Option (Json N) → String
  | some (.str url) => url
  | some imageUrl =>
    match imageUrl.prop "url" with
    | some (.str url) => url
    | _ => ""
  | none => ""

def urlToClaudeImageBlock (url : String) : Option (Json N) :=
  let trimmed := jsTrim url
  if trimmed = "" then none
  else
    match dataUrlParts trimmed with
    | some (mediaType, data) => some (sourceBlock "image" (base64Source mediaType data))
    | none => some (sourceBlock "image" (urlSource trimmed))

def openAiImagePartToClaudeBlock (part : Json N) : Option (Json N) :=
  if part.hasType "image_url" then
    urlToClaudeImageBlock (extractOpenAiImageUrl (part.prop "image_url"))
  else if part.hasType "image" then
    match part.prop "source", part.prop "image" with
    | some (.obj source), _ => some (sourceBlock "image" (.obj source))
    | _, some (.str image) => urlToClaudeImageBlock image
    | _, _ => none
  else none

mutual

def normalizeToolResultImages : List (Json N) → List (Json N)
  | [] => []
  | block :: blocks =>
    ((openAiImagePartToClaudeBlock block).getD (normalizeNested block)) ::
      normalizeToolResultImages blocks

def normalizeNested : Json N → Json N
  | .obj fields =>
    if (obj fields).hasType "tool_result" then .obj (normalizeContent fields) else .obj fields
  | block => block

def normalizeContent : List (String × Json N) → List (String × Json N)
  | [] => []
  | (name, .arr items) :: fields =>
    (name, .arr (if name = "content" then normalizeToolResultImages items else items)) ::
      normalizeContent fields
  | field :: fields => field :: normalizeContent fields

end

/-- The content of a result, as it is sent. -/
def resultContent : Option (Json N) → Option (Json N)
  | some (.arr items) => some (.arr (normalizeToolResultImages (stripEmptyTextBlocks items)))
  | content => content

/-! ## Blocks of a message -/

/-- A field that is left out where it has no value. -/
def optional (name : String) (value : Option (Json N)) : List (String × Json N) :=
  value.toList.map fun value => (name, value)

def textBlock (text : Json N) : Block N := .other (.obj [("type", .str "text"), ("text", text)])

/-- `sanitizeToolId`, with the id that is drawn where there is none. -/
def idOr (random : String) (id : Option String) : String :=
  match truthyId id with
  | some id => sanitizeToolId id
  | none => random

/-- The content of a message as a value. -/
def contentValue : Content N → Option (Json N)
  | .absent => none
  | .text text => some (.str text)
  | .blocks bs => some (.arr (bs.map blockValue))

def toolBlocks (msg : Message N) : List (Block N) :=
  match truthyId msg.toolCallId with
  | none => []
  | some id =>
    [.toolResult (some (sanitizeToolId id))
      (optional "content" (resultContent (contentValue msg.content)))]

section Blocks

variable [Zero N] [DecidableEq N] (conv : Conversion N)

/-- A text that counts as true. -/
def truthyText (part : Json N) : Option (Json N) :=
  if part.hasType "text" then (part.prop "text").filter truthy else none

/-- The data of a file part: `part.file.file_data || part.file.data` -/
def fileData (file : Json N) : Option (Json N) :=
  ((file.prop "file_data").filter truthy).or ((file.prop "data").filter truthy)

/-- The characters of `s` begin with those of `pre`, in either case. -/
def startsWithIgnoringCase (pre s : String) : Bool :=
  pre.toList.isPrefixOf (s.toList.map Char.toLower)

def fileBlock (part : Json N) : Option (Json N) :=
  match part.prop "file" with
  | none => none
  | some file =>
    let title := optional "title" ((file.prop "filename").filter truthy)
    match fileData file with
    | some (.str data) =>
      match dataUrlParts data with
      | some (mediaType, data) =>
        if mediaType = "application/pdf" then
          some (.obj ([("type", .str "document"), ("source", base64Source mediaType data)] ++ title))
        else if "image/".toList.isPrefixOf mediaType.toList then
          some (sourceBlock "image" (base64Source mediaType data))
        else none
      | none =>
        if startsWithIgnoringCase "http://" data || startsWithIgnoringCase "https://" data then
          some (.obj ([("type", .str "document"), ("source", urlSource data)] ++ title))
        else none
    | _ => none

def userPart : Block N → List (Block N)
  | .toolResult id fields =>
    match truthyId id with
    | none => []
    | some id =>
      [.toolResult (some (sanitizeToolId id))
        (optional "content" (resultContent (fields.lookup "content")) ++
          optional "is_error" ((fields.lookup "is_error").filter truthy))]
  | .toolUse _ _ => []
  | .other part =>
    match truthyText part with
    | some text => [textBlock text]
    | none =>
      if part.hasType "image_url" || part.hasType "image" then
        (openAiImagePartToClaudeBlock part).toList.map .other
      else if part.hasType "file" then (fileBlock part).toList.map .other
      else []

def userBlocks : Content N → List (Block N)
  | .absent => []
  | .text text => if text = "" then [] else [textBlock (.str text)]
  | .blocks bs => bs.flatMap userPart

/-- A thinking block that can be sent again. -/
def thinkingBlock (part : Json N) : List (Block N) :=
  let signature := (part.prop "signature").filter truthy
  if part.hasType "thinking" && signature.isNone then []
  else if part.hasType "redacted_thinking" &&
      (match part.prop "data" with
        | some (.str data) => decide (data = "")
        | _ => false) then []
  else
    match part with
    | .obj fields =>
      [.other (.obj (setField "signature" (signature.getD (.str conv.defaultSignature)) fields))]
    | _ => []

def assistantPart (position : ℕ) : Block N × ℕ → List (Block N)
  | (.toolUse id fields, index) =>
    if isFilled (fields.lookup "name") then
      [.toolUse (some (idOr (conv.randomId position index) id))
        (optional "name" (fields.lookup "name") ++ optional "input" (fields.lookup "input"))]
    else []
  | (.toolResult _ _, _) => []
  | (.other part, _) =>
    match truthyText part with
    | some text => [textBlock text]
    | none =>
      if part.hasType "thinking" || part.hasType "redacted_thinking" then thinkingBlock conv part
      else []

def assistantContent (position : ℕ) : Content N → List (Block N)
  | .absent => []
  | .text text => if text = "" then [] else [textBlock (.str text)]
  | .blocks bs => bs.zipIdx.flatMap (assistantPart conv position)

/-- `tryParseJSON` -/
def tryParseJSON : Option (Json N) → Option (Json N)
  | some (.str text) => some ((conv.parseJSON text).getD (.str text))
  | arguments => arguments

def toolUseOf (random : String) (tc : ToolCall N) (name : String) (arguments : Option (Json N)) :
    Block N :=
  .toolUse (some (idOr random tc.id))
    (("name", .str (if conv.disableToolPrefix then name else "proxy_" ++ name)) ::
      optional "input" (tryParseJSON conv arguments))

/-- A call of a function that has a name. -/
def toolCallBlock (position offset : ℕ) : ToolCall N × ℕ → List (Block N)
  | (tc, index) =>
    match tc.type, tc.function with
    | some "function", some function =>
      match function.name with
      | some name =>
        if isBlank name then []
        else [toolUseOf conv (conv.randomId position (offset + index)) tc name function.arguments]
      | none => []
    | _, _ => []

def isThinking : Block N → Bool
  | .other part => part.hasType "thinking" || part.hasType "redacted_thinking"
  | _ => false

/-- The placeholder for reasoning that cannot be replayed. -/
def withReasoning (reasoningContent : Option (Json N)) (blocks : List (Block N)) : List (Block N) :=
  let hasThinkingBlock := blocks.any isThinking
  match conv.isKimiCoding, reasoningContent, hasThinkingBlock with
  | true, some (.str reasoning), false =>
    .other (.obj [("type", .str "thinking"), ("thinking", .str reasoning)]) :: blocks
  | _, _, _ =>
    if (reasoningContent.any truthy) && conv.thinkingEnabledForRequest &&
        blocks.any Block.isToolUse && !hasThinkingBlock then
      .other (.obj [("type", .str "redacted_thinking"), ("data", .str conv.defaultSignature)]) ::
        blocks
    else blocks

def assistantBlocks (position : ℕ) (msg : Message N) : List (Block N) :=
  withReasoning conv (msg.fields.lookup "reasoning_content")
    (assistantContent conv position msg.content ++
      msg.calls.zipIdx.flatMap (toolCallBlock conv position msg.content.blockList.length))

/-- `position` is that of the message. -/
def getContentBlocksFromMessage (position : ℕ) (msg : Message N) : List (Block N) :=
  match msg.role with
  | .tool => toolBlocks msg
  | .user => userBlocks msg.content
  | .assistant => assistantBlocks conv position msg
  | _ => []

/-! ## Merging -/

/-- The messages so far, and the open one. -/
structure Building (N : Type) where
  messages : List (ClaudeMessage N) := []
  currentRole : Option Role := none
  currentParts : List (Block N) := []

omit [Zero N] [DecidableEq N] in
def flushCurrentMessage (s : Building N) : Building N :=
  match s.currentRole, s.currentParts with
  | some role, part :: parts =>
    { s with messages := s.messages ++ [⟨role, part :: parts⟩], currentParts := [] }
  | _, _ => s

def claudeRole : Role → Role
  | .user => .user
  | .tool => .user
  | _ => .assistant

/-- The blocks of one message are added. -/
def addBlocks (newRole : Role) (s : Building N) (blocks : List (Block N)) : Building N :=
  if blocks.any Block.isToolResult then
    let s := flushCurrentMessage s
    let s := { s with
      messages := s.messages ++ [⟨.user, blocks.filter Block.isToolResult⟩] }
    let otherBlocks := blocks.filter fun block => !block.isToolResult
    if otherBlocks = [] then s
    else { s with currentRole := some newRole, currentParts := s.currentParts ++ otherBlocks }
  else
    let s := if s.currentRole = some newRole then s
      else { flushCurrentMessage s with currentRole := some newRole }
    let s := { s with currentParts := s.currentParts ++ blocks }
    if blocks.any Block.isToolUse then flushCurrentMessage s else s

def isSystem (msg : Message N) : Bool := msg.role = .system || msg.role = .developer

/-- The blocks of every message that is not a system message, with its side. -/
def items (msgs : List (Message N)) : List (Role × List (Block N)) :=
  (msgs.zipIdx.filter fun p => !isSystem p.1).map fun p =>
    (claudeRole p.1.role, getContentBlocksFromMessage conv p.2 p.1)

omit [Zero N] [DecidableEq N] in
def mergeItems (items : List (Role × List (Block N))) : List (ClaudeMessage N) :=
  let s := flushCurrentMessage (items.foldl (fun s item => addBlocks item.1 s item.2) {})
  s.messages.filter fun msg => !(decide (msg.role = .assistant) && msg.content.isEmpty)

def buildMessages (msgs : List (Message N)) : List (ClaudeMessage N) := mergeItems (items conv msgs)

end Blocks

end OmniRoute.ClaudeRequest
