import OmniRoute.Lib.Emitter
import OmniRoute.Lib.JsString
import OmniRoute.Lib.Lines

/-!
# From an OpenAI chunk stream to Ollama's JSON lines

`transformToOllama` reads the body of a streamed OpenAI response and writes one JSON line for
each content or reasoning delta. Tool calls are collected, by index, until a finish reason comes,
and then written in one line. The body arrives in pieces of text: the streaming decoder holds
back the bytes of an unfinished character, so that splits of the bytes are splits of the text.

`JSON.parse` of a data line, with the fields the transformer reads, and of a tool call's
arguments are parameters; `none` is a text that does not parse.
-/

namespace OmniRoute.OllamaStream

open Emitter

/-- An entry of `delta.tool_calls`; the id is its text. -/
structure ToolCallDelta where
  index : ℕ
  id : Option String
  name : Option String
  arguments : Option String

/-- What is read of a parsed chunk: the first choice's delta and finish reason. -/
structure OpenAIChunk where
  content : Option String
  reasoningContent : Option String
  reasoning : Option String
  toolCalls : List ToolCallDelta
  finishReason : Option String

/-- `JSON.parse`, for the lines and for the arguments, which are values in `J`. -/
structure JsonParser (J : Type) where
  chunk : String → Option OpenAIChunk
  arguments : String → Option J

structure PendingToolCall where
  id : Option String
  name : String
  arguments : String

/-- A line of the output, with the tool calls it carries. -/
structure OllamaLine (J : Type) where
  content : String
  thinking : Option String
  toolCalls : List (String × J)
  done : Bool

structure State where
  buffer : List Char
  /-- The properties of the record, by increasing index. -/
  pendingToolCalls : List (ℕ × PendingToolCall)
  completedToolCalls : List PendingToolCall

def State.init : State := ⟨[], [], []⟩

variable {J : Type} (json : JsonParser J)

abbrev Emit (J : Type) := Emitter State (OllamaLine J)

def enqueue (line : OllamaLine J) : Emit J := fun s => ([line], s)

/-! ## Tool calls -/

/-- `pendingToolCalls[index] = call` -/
def setPending (index : ℕ) (call : PendingToolCall) :
    List (ℕ × PendingToolCall) → List (ℕ × PendingToolCall)
  | [] => [(index, call)]
  | (k, c) :: calls =>
    if index < k then (index, call) :: (k, c) :: calls
    else if index = k then (index, call) :: calls
    else (k, c) :: setPending index call calls

/-- A call whose index comes back with another id is complete. -/
def completeReplaced (tc : ToolCallDelta) (s : State) : State :=
  match s.pendingToolCalls.lookup tc.index, tc.id with
  | some call, some id =>
    if id ≠ "" ∧ call.id ≠ some id then
      { s with
        completedToolCalls := s.completedToolCalls ++ [call]
        pendingToolCalls := s.pendingToolCalls.filter (·.1 ≠ tc.index) }
    else s
  | _, _ => s

def processToolCall (tc : ToolCallDelta) (s : State) : State :=
  let s := completeReplaced tc s
  let call := (s.pendingToolCalls.lookup tc.index).getD ⟨tc.id, "", ""⟩
  let call := ⟨call.id, call.name ++ tc.name.getD "", call.arguments ++ tc.arguments.getD ""⟩
  { s with pendingToolCalls := setPending tc.index call s.pendingToolCalls }

def State.toolCallsArr (s : State) : List PendingToolCall :=
  s.completedToolCalls ++ s.pendingToolCalls.map (·.2)

/-- `tc.function.arguments || "{}"` -/
def argumentsText (arguments : String) : String := if arguments = "" then "{}" else arguments

def formatCalls (calls : List PendingToolCall) : Option (List (String × J)) :=
  calls.mapM fun call => (json.arguments (argumentsText call.arguments)).map (call.name, ·)

/-! ## Lines -/

def thinkingLine (thinking : String) : OllamaLine J := ⟨"", some thinking, [], false⟩

def contentLine (content : String) : OllamaLine J := ⟨content, none, [], false⟩

def toolCallsLine (calls : List (String × J)) : OllamaLine J := ⟨"", none, calls, true⟩

def ollamaEnd : OllamaLine J := ⟨"", none, [], true⟩

/-- `getReadableReasoningValue` -/
def OpenAIChunk.thinking (c : OpenAIChunk) : String :=
  if c.reasoningContent.getD "" ≠ "" then c.reasoningContent.getD "" else c.reasoning.getD ""

def emitText (line : String → OllamaLine J) (text : String) : Emit J :=
  if text ≠ "" then enqueue (line text) else skip

def emitFinish (finishReason : Option String) : Emit J :=
  if finishReason = some "tool_calls" ∨ finishReason = some "stop" then
    onState fun s =>
      if s.toolCallsArr ≠ [] then
        match formatCalls json s.toolCallsArr with
        | none => skip
        | some calls => andThen (enqueue (toolCallsLine calls))
            (update fun s => { s with pendingToolCalls := [] })
      else if finishReason = some "stop" then enqueue ollamaEnd
      else skip
  else skip

def processChunk (c : OpenAIChunk) : Emit J :=
  andThen (update fun s => c.toolCalls.foldl (fun s tc => processToolCall tc s) s)
    (andThen (emitText thinkingLine c.thinking)
      (andThen (emitText contentLine (c.content.getD ""))
        (emitFinish json c.finishReason)))

/-- The text of a data line. -/
def lineData (line : List Char) : Option String :=
  if "data:".toList <+: line then some (jsTrim (String.ofList (line.drop 5))) else none

def doneMarker : String := "[DONE]"

/-- The loop over the complete lines; the done marker returns from it. -/
def processLines : List (List Char) → Emit J
  | [] => skip
  | line :: lines =>
    match lineData line with
    | none => processLines lines
    | some data =>
      if data = doneMarker then enqueue ollamaEnd
      else
        match json.chunk data with
        | none => processLines lines
        | some c => andThen (processChunk json c) (processLines lines)

/-- `buffer = lines.pop()` -/
def State.received (s : State) (piece : List Char) : State :=
  { s with buffer := Lines.rest '\n' (s.buffer ++ piece) }

/-- One piece of the body. -/
def transform (piece : List Char) : Emit J := fun s =>
  processLines json (Lines.lines '\n' (s.buffer ++ piece)) (s.received piece)

def flush : Emit J := enqueue ollamaEnd

/-- The lines written for a body that comes in the given pieces. -/
def transformToOllama (pieces : List (List Char)) : List (OllamaLine J) :=
  (andThen (forEach (transform json) pieces) flush State.init).1

end OmniRoute.OllamaStream
