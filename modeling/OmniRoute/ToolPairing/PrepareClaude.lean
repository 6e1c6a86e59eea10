import OmniRoute.Lib.Lookahead
import OmniRoute.Lib.MergeRuns
import OmniRoute.ToolPairing.Message

/-!
# Requests for a Claude endpoint

The message passes of `prepareClaudeRequest`, with `hasValidContent`, `splitMisplacedToolResults`
and `fixToolUseOrdering`, of `open-sse/translator/helpers/claudeHelper.ts`, and `sanitizeToolId` of
`open-sse/translator/helpers/schemaCoercion.ts`.

Empty messages, calls without a name and results without an id are taken out; results in assistant
messages move to the user message before; texts after a call are dropped; neighbours of one role are
merged; and the results of every user message are reconciled with the calls of the message before
it. Last come the cache marks and the thinking blocks.
-/

namespace OmniRoute.ToolPairing

namespace PrepareClaude

variable {N : Type}

/-! ## Blocks -/

def Content.onBlocks (f : List (Block N) → List (Block N)) : Content N → Content N
  | .blocks bs => .blocks (f bs)
  | content => content

def onBlocks (f : List (Block N) → List (Block N)) (msg : Message N) : Message N :=
  { msg with content := Content.onBlocks f msg.content }

def deleteField (name : String) (fields : List (String × Json N)) : List (String × Json N) :=
  fields.filter fun field => decide (field.1 ≠ name)

/-- A field is replaced in its place or added at the end. -/
def setField (name : String) (value : Json N) (fields : List (String × Json N)) :
    List (String × Json N) :=
  if fields.any fun field => decide (field.1 = name) then
    fields.map fun field => if field.1 = name then (name, value) else field
  else fields ++ [(name, value)]

def mapFields (f : List (String × Json N) → List (String × Json N)) : Block N → Block N
  | .toolUse id fields => .toolUse id (f fields)
  | .toolResult id fields => .toolResult id (f fields)
  | .other (.obj fields) => .other (.obj (f fields))
  | block => block

/-- A string that is there and not blank. -/
def isFilled : Option (Json N) → Bool
  | some (.str s) => !isBlank s
  | _ => false

def hasValidBlock : Block N → Bool
  | .toolUse _ _ => true
  | .toolResult _ _ => true
  | .other block =>
    (block.hasType "text" && isFilled (block.prop "text")) ||
      (block.hasType "thinking" && isFilled (block.prop "thinking")) ||
      (block.hasType "redacted_thinking" && isFilled (block.prop "data")) ||
      block.hasType "image" || block.hasType "document"

def hasValidContent (msg : Message N) : Bool :=
  match msg.content with
  | .absent => false
  | .text text => !isBlank text
  | .blocks bs => bs.any hasValidBlock

/-! ## Cleaning -/

def removeCacheControl (preserveCacheControl : Bool) (msg : Message N) : Message N :=
  if preserveCacheControl then msg
  else onBlocks (List.map (mapFields (deleteField "cache_control"))) msg

/-- The last message stays if it is the assistant's, even if it is empty. -/
def filterStep (msg : Message N) (nextMsg : Option (Message N)) : List (Message N) :=
  if (nextMsg.isNone && decide (msg.role = .assistant)) || hasValidContent msg then [msg] else []

def filterMessages (preserveCacheControl : Bool) (messages : List (Message N)) :
    List (Message N) :=
  Lookahead.pass filterStep (messages.map (removeCacheControl preserveCacheControl)) none

/-- A block that is no call without a name. -/
def isNamed : Block N → Bool
  | .toolUse _ fields => isFilled (fields.lookup "name")
  | _ => true

/-- A block that is no result without an id. -/
def isAddressed : Block N → Bool
  | .toolResult id _ => (truthyId id).isSome
  | _ => true

/-- A character of an id; the replacement is made for each of its UTF-16 units. -/
def sanitizeChar (c : Char) : List Char :=
  if c.isAlphanum || c = '_' || c = '-' then [c]
  else if c.toNat < 0x10000 then ['_']
  else ['_', '_']

/-- An id that is not empty, with nothing but letters, digits, `_` and `-`. -/
def sanitizeToolId (id : String) : String := String.ofList (id.toList.flatMap sanitizeChar)

def sanitizeId (id : Option String) : Option String :=
  match truthyId id with
  | some id => some (sanitizeToolId id)
  | none => id

def sanitizeBlock : Block N → Block N
  | .toolUse id fields => .toolUse (sanitizeId id) fields
  | .toolResult id fields => .toolResult (sanitizeId id) fields
  | block => block

def cleanMessage : Message N → Message N :=
  onBlocks fun bs => ((bs.filter isNamed).filter isAddressed).map sanitizeBlock

/-! ## Results in assistant messages -/

/-- The ids of the calls among some blocks. -/
def useIds (bs : List (Block N)) : List String :=
  bs.filterMap fun
    | .toolUse id _ => id
    | _ => none

def isSeen (seenToolUseIds : List String) : Block N → Bool
  | .toolResult (some id) _ => seenToolUseIds.contains id
  | _ => false

/-- Results go to the last message so far if it is a user message with blocks, else into one of
their own. -/
def moveResults (out : List (Message N)) (validToolResults : List (Block N)) :
    List (Message N) :=
  if validToolResults = [] then out
  else
    match out.getLast? with
    | some { role := .user, content := .blocks bs, toolCalls, toolCallId, fields } =>
      out.dropLast ++
        [{ role := .user, content := .blocks (bs ++ validToolResults), toolCalls, toolCallId, fields }]
    | _ => out ++ [{ role := .user, content := .blocks validToolResults }]

structure SplitState (N : Type) where
  out : List (Message N) := []
  seenToolUseIds : List String := []

def isOther (b : Block N) : Bool := !b.isToolResult

/-- An assistant message with results in it. -/
def splitResults (st : SplitState N) (msg : Message N) (bs : List (Block N)) : SplitState N :=
  let moved := moveResults st.out (bs.filter (isSeen st.seenToolUseIds))
  let remaining := bs.filter isOther
  if remaining = [] then { st with out := moved }
  else
    { out := moved ++ [{ msg with content := .blocks remaining }]
      seenToolUseIds := st.seenToolUseIds ++ useIds remaining }

def splitStep (st : SplitState N) (msg : Message N) : SplitState N :=
  match msg.role, msg.content with
  | .assistant, .blocks bs =>
    if bs.any Block.isToolResult then splitResults st msg bs
    else { out := st.out ++ [msg], seenToolUseIds := st.seenToolUseIds ++ useIds bs }
  | _, _ => { st with out := st.out ++ [msg] }

def splitMisplacedToolResults (messages : List (Message N)) : List (Message N) :=
  (messages.foldl splitStep {}).out

/-! ## Order -/

def isThinking : Block N → Bool
  | .other block => block.hasType "thinking" || block.hasType "redacted_thinking"
  | _ => false

/-- The blocks of a message with calls: after a call, only calls and thinking. -/
def keepOrdered : Bool → List (Block N) → List (Block N)
  | _, [] => []
  | foundToolUse, b :: bs =>
    if b.isToolUse then b :: keepOrdered true bs
    else if isThinking b || !foundToolUse then b :: keepOrdered foundToolUse bs
    else keepOrdered foundToolUse bs

def orderUses (msg : Message N) : Message N :=
  if msg.role = .assistant then onBlocks (keepOrdered false) msg else msg

/-- The content as an array. -/
def contentArray : Content N → List (Block N)
  | .absent => [.other (.obj [("type", .str "text")])]
  | .text text => [.other (.obj [("type", .str "text"), ("text", .str text)])]
  | .blocks bs => bs

/-- `{ role: msg.role, content: [...content] }` -/
def toArray (msg : Message N) : Message N :=
  { role := msg.role, content := .blocks (contentArray msg.content) }

/-- The results of both messages come first. -/
def mergeBlocks (lastContent msgContent : List (Block N)) : List (Block N) :=
  (lastContent.filter Block.isToolResult ++ msgContent.filter Block.isToolResult) ++
    (lastContent.filter isOther ++ msgContent.filter isOther)

def mergeContents (last msg : Message N) : Message N :=
  { last with
    content := .blocks (mergeBlocks (contentArray last.content) (contentArray msg.content)) }

def mergeMessages (messages : List (Message N)) : List (Message N) :=
  MergeRuns.merge (fun m => m.role) mergeContents (messages.map toArray)

section Reconcile

variable [JsonNumber N]

/-- The content of a result as text. -/
def serialized (fields : List (String × Json N)) : String :=
  match fields.lookup "content" with
  | none => (Json.str "" : Json N).stringify
  | some .null => (Json.str "" : Json N).stringify
  | some (.str content) => content
  | some content => content.stringify

def unpairedText (toolUseId : String) (fields : List (String × Json N)) : String :=
  "[Unpaired tool result " ++ (if toolUseId ≠ "" then toolUseId else "unknown") ++ "]\n" ++
    serialized fields

def textBlock (text : String) : Block N :=
  .other (.obj [("type", .str "text"), ("text", .str text)])

/-- The blocks that are no paired result; `pairedIds` are the ids that are paired so far. -/
def otherContent (validIds : List String) : List String → List (Block N) → List (Block N)
  | _, [] => []
  | pairedIds, .toolResult id fields :: bs =>
    if id.getD "" ∈ validIds ∧ id.getD "" ∉ pairedIds then
      otherContent validIds (id.getD "" :: pairedIds) bs
    else textBlock (unpairedText (id.getD "") fields) :: otherContent validIds pairedIds bs
  | pairedIds, b :: bs => b :: otherContent validIds pairedIds bs

/-- The result that is paired with a call; the first one. -/
def pairedById (bs : List (Block N)) (id : String) : Option (Block N) :=
  bs.find? fun
    | .toolResult toolUseId _ => decide (toolUseId.getD "" = id)
    | _ => false

def emptyResult (id : String) : Block N := .toolResult (some id) [("content", .str "")]

def pairedResults (validIds : List String) (bs : List (Block N)) : List (Block N) :=
  validIds.map fun id => (pairedById bs id).getD (emptyResult id)

/-- The ids of the calls of the message before. -/
def validIds : Option (Message N) → List String
  | some { role := .assistant, content := .blocks bs, .. } => (bs.filterMap Block.calledId).eraseDups
  | _ => []

def reconcile (previous : Option (Message N)) (msg : Message N) : Message N :=
  if msg.role = .user then
    onBlocks (fun bs => pairedResults (validIds previous) bs ++ otherContent (validIds previous) [] bs)
      msg
  else msg

/-- Only user messages change, so the message before is as it was. -/
def reconcileFrom : Option (Message N) → List (Message N) → List (Message N)
  | _, [] => []
  | previous, msg :: rest => reconcile previous msg :: reconcileFrom (some msg) rest

/-- A message with a result. -/
def hasResult (msg : Message N) : Bool := msg.content.blockList.any Block.isToolResult

def fixToolUseOrdering (messages : List (Message N)) : List (Message N) :=
  match messages with
  | [] => []
  | [msg] =>
    if hasResult msg then reconcileFrom none (mergeMessages [orderUses msg]) else [msg]
  | messages => reconcileFrom none (mergeMessages (messages.map orderUses))

end Reconcile

/-! ## Cache marks and thinking -/

/-- What is known of the endpoint and of the request as a whole. -/
structure Endpoint where
  preserveCacheControl : Bool
  supportsPromptCaching : Bool
  isKimiCoding : Bool
  modelTargetsClaude : Bool
  thinkingTypeEnabled : Bool
  lookupReasoning : String → Option String
  defaultSignature : String

def Endpoint.supportsRedactedThinking (ep : Endpoint) : Bool :=
  !ep.isKimiCoding && (ep.supportsPromptCaching || ep.modelTargetsClaude)

def Endpoint.marksCache (ep : Endpoint) : Bool :=
  !ep.preserveCacheControl && ep.supportsPromptCaching

def placeholderText : String := "(prior reasoning summary unavailable)"

def ensureMessageContentArray (msg : Message N) : Message N :=
  match msg.content with
  | .text text => if isBlank text then msg else { msg with content := .blocks [textBlock text] }
  | _ => msg

/-- The last block takes the mark. -/
def markLast : List (Block N) → List (Block N)
  | [] => []
  | [b] => [mapFields (setField "cache_control" (.obj [("type", .str "ephemeral")])) b]
  | b :: bs => b :: markLast bs

def markMessageCacheControl (msg : Message N) : Message N :=
  onBlocks markLast (ensureMessageContentArray msg)

/-- A string field that is there and not empty. -/
def fullText (value : Option (Json N)) : Option String :=
  match value with
  | some (.str s) => truthyId (some s)
  | _ => none

/-- The text of a thinking block that is sent as such. -/
def replayedText (ep : Endpoint) (pairedToolUseId : Option String) (existing : Option String) :
    String :=
  (existing.or ((truthyId pairedToolUseId).bind fun id =>
    truthyId (ep.lookupReasoning id))).getD placeholderText

/-- A thinking block as the endpoint takes it. -/
def rewriteFields (ep : Endpoint) (pairedToolUseId : Option String)
    (fields : List (String × Json N)) : List (String × Json N) :=
  if ep.isKimiCoding then
    deleteField "signature" (deleteField "data"
      (if (Json.obj fields).hasType "redacted_thinking" then
        setField "thinking" (.str (((Json.obj fields).prop "thinking").elim "" fun
          | .str s => s
          | _ => "")) (setField "type" (.str "thinking") fields)
      else fields))
  else if ep.supportsRedactedThinking then
    deleteField "signature" (deleteField "thinking"
      (setField "data" (.str ep.defaultSignature) (setField "type" (.str "redacted_thinking") fields)))
  else
    deleteField "signature" (deleteField "data"
      (setField "thinking"
        (.str (replayedText ep pairedToolUseId (fullText ((Json.obj fields).prop "thinking"))))
        (setField "type" (.str "thinking") fields)))

/-- The thinking blocks of a message; the `k`th goes with the `k`th call. -/
def rewriteThinking (ep : Endpoint) : List String → List (Block N) → List (Block N)
  | _, [] => []
  | toolUseIds, b :: bs =>
    if isThinking b then
      mapFields (rewriteFields ep toolUseIds.head?) b :: rewriteThinking ep toolUseIds.tail bs
    else b :: rewriteThinking ep toolUseIds bs

/-- A thinking block for a message that has none before its calls. -/
def precursor (ep : Endpoint) (toolUseIds : List String) : Block N :=
  if ep.supportsRedactedThinking then
    .other (.obj [("type", .str "redacted_thinking"), ("data", .str ep.defaultSignature)])
  else if ep.isKimiCoding then .other (.obj [("type", .str "thinking"), ("thinking", .str "")])
  else
    .other (.obj [("type", .str "thinking"),
      ("thinking", .str (replayedText ep toolUseIds.head? none))])

/-- A thinking block whose signature or data is there. -/
def isGenuine : Block N → Bool
  | .other block =>
    if block.hasType "redacted_thinking" then (fullText (block.prop "data")).isSome
    else (fullText (block.prop "signature")).isSome
  | _ => true

/-- The thinking blocks of the latest assistant message stay if they are genuine. -/
def isVerbatim (ep : Endpoint) (isLatestAssistant : Bool) (bs : List (Block N)) : Bool :=
  isLatestAssistant && bs.any isThinking && ep.supportsRedactedThinking &&
    (bs.filter isThinking).all isGenuine

def dressBlocks (ep : Endpoint) (thinkingEnabled isLatestAssistant : Bool) (bs : List (Block N)) :
    List (Block N) :=
  if isVerbatim ep isLatestAssistant bs then bs
  else if thinkingEnabled && !bs.any isThinking && bs.any Block.isToolUse then
    precursor ep (useIds bs) :: rewriteThinking ep (useIds bs) bs
  else rewriteThinking ep (useIds bs) bs

/-- The index of the last message with a property. -/
def lastIndex (p : Message N → Bool) (messages : List (Message N)) : Option ℕ :=
  ((messages.zipIdx.filter fun entry => p entry.1).getLast?).map Prod.snd

/-- The index of the last user message but one. -/
def secondToLastUserIndex (messages : List (Message N)) : Option ℕ :=
  ((messages.zipIdx.filter fun entry => decide (entry.1.role = .user)).dropLast.getLast?).map Prod.snd

/-- An assistant message that has content once it is an array. -/
def isFullAssistant (msg : Message N) : Bool :=
  decide (msg.role = .assistant) && !(ensureMessageContentArray msg).content.blockList.isEmpty

def dressMessage (ep : Endpoint) (filtered : List (Message N)) (msg : Message N) (i : ℕ) :
    Message N :=
  let marked :=
    if ep.marksCache && (decide (secondToLastUserIndex filtered = some i) ||
        decide (lastIndex isFullAssistant filtered = some i)) then markMessageCacheControl msg
    else ensureMessageContentArray msg
  if isFullAssistant msg then
    onBlocks (dressBlocks ep
      (ep.thinkingTypeEnabled && (filtered.getLast?).any fun last => decide (last.role = .user))
      (decide (lastIndex (fun m => decide (m.role = .assistant)) filtered = some i))) marked
  else marked

def dress (ep : Endpoint) (filtered : List (Message N)) : List (Message N) :=
  filtered.zipIdx.map fun entry => dressMessage ep filtered entry.1 entry.2

/-- The messages of `prepareClaudeRequest`. -/
def prepareClaudeRequest [JsonNumber N] (ep : Endpoint) (messages : List (Message N)) :
    List (Message N) :=
  dress ep (fixToolUseOrdering (splitMisplacedToolResults
    ((filterMessages ep.preserveCacheControl messages).map cleanMessage)))

end PrepareClaude

end OmniRoute.ToolPairing
