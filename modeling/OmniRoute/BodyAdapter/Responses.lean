import OmniRoute.Lib.JsString
import OmniRoute.Lib.JsonObject

/-!
# Responses input for compression

`open-sse/services/compression/bodyAdapter.ts`: the items of a Responses input that have text or
images become messages, a compressor rewrites the messages, and what is left of them is written back
into the items. With `dropMissingMappedItems` an item whose message is gone goes too, and then the
calls whose outputs are gone.

`JSON.parse` is a parameter. The index that a message carries is in `Compressed`; the roles and the
metadata of messages, which only compressors read, are left out.
-/

namespace OmniRoute.BodyAdapter

variable {N : Type} [JsonNumber N]

/-- A message of the compressed body with the index of its item, if it still has one. -/
structure Compressed (N : Type) where
  index : Option ℕ
  content : Option (Json N)

def messageTypes : List String :=
  ["message", "function_call_output", "custom_tool_call_output", "local_shell_call_output",
    "apply_patch_call_output"]

/-- `typeof item.type === "string" ? item.type : "message"` -/
def itemType (item : Json N) : String :=
  match item.prop "type" with
  | some (.str type) => type
  | _ => "message"

def outputTypes : List String :=
  ["function_call_output", "custom_tool_call_output", "local_shell_call_output",
    "apply_patch_call_output"]

def callTypes : List String :=
  ["function_call", "custom_tool_call", "local_shell_call", "apply_patch_call"]

/-- The value has one of the types. -/
def hasTypeIn (types : List String) (value : Json N) : Bool := types.any fun t => value.hasType t

/-- `a ?? b` -/
def orElse (a b : Option (Json N)) : Option (Json N) :=
  match a with
  | none | some .null => b
  | a => a

/-! ## Items to messages -/

/-- The string in the `output` field of a record. -/
def innerOutput (value : Json N) : Option String :=
  match value.prop "output" with
  | some (.str output) => some output
  | _ => none

def customToolOutputToChatContent (parse : String → Option (Json N)) (rawOutput : Option (Json N)) :
    Option (Json N) :=
  match rawOutput with
  | some (.str text) =>
    match (parse text).bind innerOutput with
    | some output => some (.str output)
    | none => some (.str text)
  | some value =>
    match innerOutput value with
    | some output => some (.str output)
    | none => some value
  | none => none

/-- The content of the message of an item; none is an item without a message. -/
def responsesItemToMessage (parse : String → Option (Json N)) (item : Json N) :
    Option (Option (Json N)) :=
  let type := itemType item
  if type ∉ messageTypes then none
  else if type ∈ outputTypes then
    let rawOutput := orElse (item.prop "output") (item.prop "content")
    if type = "custom_tool_call_output" then some (customToolOutputToChatContent parse rawOutput)
    else
      match rawOutput with
      | some (.obj fields) => some (some (.str (Json.obj fields).stringify))
      | rawOutput => some rawOutput
  else
    match item.prop "content" with
    | some content => some (some content)
    | none => some (item.prop "output")

def hasText (part : Json N) : Bool :=
  match part.prop "text" with
  | some (.str text) => decide (text ≠ "")
  | _ => false

def hasTextContent (content : Option (Json N)) : Bool :=
  match content with
  | some (.str text) => decide (text ≠ "")
  | some (.arr parts) => parts.any hasText
  | _ => false

def isSubtypeChar (c : Char) : Bool := c.isAlphanum || c = '.' || c = '+' || c = '-'

/-- `/^data:image\/[a-zA-Z0-9.+-]+;base64,/` -/
def isInlineBase64ImageUrl (value : Option (Json N)) : Bool :=
  match value with
  | some (.str url) =>
    let subtype := url.toList.drop "data:image/".length
    "data:image/".toList.isPrefixOf url.toList && subtype.head?.any isSubtypeChar &&
      ";base64,".toList.isPrefixOf (subtype.dropWhile isSubtypeChar)
  | _ => false

def isString : Option (Json N) → Bool
  | some (.str _) => true
  | _ => false

def isInlineImage (part : Json N) : Bool :=
  if part.hasType "input_image" ∧ isInlineBase64ImageUrl (part.prop "image_url") = true then true
  else if part.hasType "image_url" then
    let imageUrl := part.prop "image_url"
    isInlineBase64ImageUrl imageUrl || imageUrl.any fun url => isInlineBase64ImageUrl (url.prop "url")
  else if part.hasType "image" then
    isInlineBase64ImageUrl (part.prop "image") ||
      (part.prop "source").any fun source =>
        source.hasType "base64" && isString (source.prop "data")
  else
    (orElse (part.prop "inlineData") (part.prop "inline_data")).any fun data =>
      isString (data.prop "data")

def hasInlineImageContent (content : Option (Json N)) : Bool :=
  match content with
  | some (.arr parts) => parts.any isInlineImage
  | _ => false

def hasCompressibleContent (content : Option (Json N)) : Bool :=
  hasTextContent content || hasInlineImageContent content

/-- The item is sent to the compressor as a message. -/
def isMapped (parse : String → Option (Json N)) (item : Json N) : Bool :=
  item.isRecord && (responsesItemToMessage parse item).any hasCompressibleContent

/-! ## Messages to items -/

/-- The first text of some parts is replaced and the others are emptied. -/
def replaceTexts (next : String) : Bool → List (Json N) → List (Json N)
  | _, [] => []
  | replaced, part :: parts =>
    if part.isRecord ∧ isString (part.prop "text") then
      part.withField "text" (some (.str (if replaced then "" else next))) ::
        replaceTexts next true parts
    else part :: replaceTexts next replaced parts

def fromChatContent (next original : Option (Json N)) : Option (Json N) :=
  match original, next with
  | some (.arr parts), some (.str text) => some (.arr (replaceTexts text false parts))
  | _, next => next

def restoreCustomToolOutput (parse : String → Option (Json N)) (next original : Option (Json N)) :
    Option (Json N) :=
  let hasOutput (value : Json N) : Bool := (innerOutput value).isSome
  match original with
  | some (.str text) =>
    match (parse text).filter hasOutput with
    | some parsed => some (.str (parsed.withField "output" next).stringify)
    | none => fromChatContent next original
  | some value =>
    if hasOutput value then some (value.withField "output" next) else fromChatContent next original
  | none => fromChatContent next none

def responsesToolOutputField (item : Json N) : String :=
  match item.prop "output" with
  | none | some .null => "content"
  | _ => "output"

def messageToResponsesItem (parse : String → Option (Json N)) (content : Option (Json N))
    (originalItem : Json N) : Json N :=
  let type := itemType originalItem
  if type ∈ outputTypes then
    let outputField := responsesToolOutputField originalItem
    let originalOutput := originalItem.prop outputField
    originalItem.withField outputField
      (if type = "custom_tool_call_output" then
        restoreCustomToolOutput parse content originalOutput
      else fromChatContent content originalOutput)
  else
    originalItem.withField "content" (fromChatContent content (originalItem.prop "content"))

/-! ## Restoring -/

/-- The last of the messages that carry an index. -/
def messageAt (messages : List (Compressed N)) (index : ℕ) : Option (Compressed N) :=
  messages.reverse.find? fun m => m.index = some index

def callId (item : Json N) : Option String :=
  match item.prop "call_id" with
  | some (.str id) => some id
  | _ => none

/-- The items that are left, with their indices, before calls are dropped. -/
def nextInput (parse : String → Option (Json N)) (items : List (Json N))
    (messages : List (Compressed N)) : List (ℕ × Json N) :=
  items.zipIdx.filterMap fun (item, index) =>
    if isMapped parse item then
      (messageAt messages index).map fun message =>
        (index, messageToResponsesItem parse message.content item)
    else some (index, item)

/-- `${type}:${call_id}` -/
def outputKey (type callId : String) : String := type ++ ":" ++ callId

/-- The keys of the outputs that were mapped and are left. -/
def survivingOutputKeys (parse : String → Option (Json N)) (items : List (Json N))
    (messages : List (Compressed N)) : List String :=
  items.zipIdx.filterMap fun (item, index) =>
    if isMapped parse item then
      (messageAt messages index).bind fun message =>
        let restored := messageToResponsesItem parse message.content item
        if restored.isRecord ∧ hasTypeIn outputTypes restored then
          (callId restored).map (outputKey (itemType restored))
        else none
    else none

def hadMappedOutput (parse : String → Option (Json N)) (items : List (Json N)) (id : String) :
    Bool :=
  items.any fun item => isMapped parse item && hasTypeIn outputTypes item &&
    decide (callId item = some id)

/-- The output type that a call is looked up under. -/
def lookedUpType (item : Json N) : String :=
  if item.hasType "custom_tool_call" then "custom_tool_call_output" else "function_call_output"

/-- What `cleanedInput` keeps. -/
def isKept (parse : String → Option (Json N)) (items : List (Json N))
    (messages : List (Compressed N)) (item : Json N) : Bool :=
  if item.isRecord = false ∨ hasTypeIn callTypes item = false then true
  else
    match callId item with
    | none => true
    | some id =>
      if id = "" then true
      else if hadMappedOutput parse items id = false then true
      else decide (outputKey (lookedUpType item) id ∈ survivingOutputKeys parse items messages)

/-- The restored items with the indices they had. -/
def cleanedInput (parse : String → Option (Json N)) (items : List (Json N))
    (messages : List (Compressed N)) : List (ℕ × Json N) :=
  (nextInput parse items messages).filter fun p => isKept parse items messages p.2

/-- `restore`, for an input that is a list of items. -/
def restore (parse : String → Option (Json N)) (dropMissingMappedItems : Bool)
    (items : List (Json N)) (messages : List (Compressed N)) : List (Json N) :=
  if dropMissingMappedItems then (cleanedInput parse items messages).map Prod.snd
  else
    items.zipIdx.map fun (item, index) =>
      if isMapped parse item then
        match messageAt messages index with
        | some message => messageToResponsesItem parse message.content item
        | none => item
      else item

end OmniRoute.BodyAdapter
