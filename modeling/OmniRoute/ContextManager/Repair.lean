import OmniRoute.ContextManager.Layers
import OmniRoute.Lib.Lookahead

/-!
# Repair of a cut history

`fixToolPairs`, `fixToolAdjacency` and `stripTrailingAssistantOrphanToolUse` of
`open-sse/services/contextManager.ts` on messages of any shape: calls without a result and results
without a call are removed, and messages that are left with nothing.

An id may be any value that is not falsy. Two ids are compared as a `Set` does in the pair fix, and
by their texts in the adjacency pass.
-/

namespace OmniRoute.ContextManager

open JsData

variable {N : Type} [DecidableEq N] (num : JsNumbers N)

/-! ## Ids -/

/-- A field that is not falsy. -/
def idOf (v : JsData N) (name : String) : Option (JsData N) :=
  (field v name).filter (isTruthy num)

/-- `ids.has(id)` -/
def hasId (ids : List (JsData N)) (id : JsData N) : Bool := ids.any (sameValue id)

/-- The entries of `tool_calls`. -/
def toolCalls (msg : JsData N) : List (JsData N) := (elements (field msg "tool_calls")).getD []

/-- The id that a block answers. -/
def resultId (block : JsData N) : Option (JsData N) :=
  if isType block "tool_result" then idOf num block "tool_use_id" else none

/-- The id that a block calls. -/
def useId (block : JsData N) : Option (JsData N) :=
  if isType block "tool_use" then idOf num block "id" else none

/-- The ids that a message answers. -/
def answeredIds (msg : JsData N) : List (JsData N) :=
  if isRole msg "tool" then (idOf num msg "tool_call_id").toList
  else if isRole msg "user" then (parts msg).filterMap (resultId num)
  else []

/-- The ids that a message of the assistant calls. -/
def calledIds (msg : JsData N) : List (JsData N) :=
  if isRole msg "assistant" then
    ((toolCalls msg).filterMap fun tc => idOf num tc "id") ++ (parts msg).filterMap (useId num)
  else []

/-! ## Filters -/

/-- A message without the elements of an array field that fail a test. -/
def filterField (name : String) (p : JsData N → Bool) (msg : JsData N) : JsData N :=
  match elements (field msg name) with
  | some items => withField msg name (.arr (items.filter p))
  | none => msg

/-- `!tc.id || ok(tc.id)` -/
def keepsCall (ok : JsData N → Bool) (tc : JsData N) : Bool := (idOf num tc "id").all ok

def keepsUse (ok : JsData N → Bool) (block : JsData N) : Bool :=
  !isType block "tool_use" || (idOf num block "id").all ok

def keepsResult (ok : JsData N → Bool) (block : JsData N) : Bool :=
  !isType block "tool_result" || (idOf num block "tool_use_id").all ok

/-- A message without the calls whose ids fail a test. -/
def filterCalls (ok : JsData N → Bool) (msg : JsData N) : JsData N :=
  filterField "content" (keepsUse num ok) (filterField "tool_calls" (keepsCall num ok) msg)

/-- `s.trim().length > 0` or a nonempty array. -/
def hasContent (msg : JsData N) : Bool :=
  match field msg "content" with
  | some (.str s) => decide (0 < (CodeUnits.trim s).length)
  | some (.arr content) => !content.isEmpty
  | _ => false

def hasToolCalls (msg : JsData N) : Bool := !(toolCalls msg).isEmpty

/-- The number of calls and parts of a message, by which a change is noticed. -/
def size (msg : JsData N) : ℕ := (toolCalls msg).length + (parts msg).length

/-! ## The pair fix -/

/-- The last pass of the pair fix: what is left of a message when `toolCallIds` are the calls. -/
def dropOrphans (toolCallIds : List (JsData N)) (msg : JsData N) : Option (JsData N) :=
  if isRole msg "tool" && !(idOf num msg "tool_call_id").all (hasId toolCallIds) then none
  else if isRole msg "user" then
    match elements (field msg "content") with
    | some content =>
      let filteredContent := content.filter (keepsResult num (hasId toolCallIds))
      if filteredContent.length ≠ content.length then
        if filteredContent.length = 0 then none
        else some (withField msg "content" (.arr filteredContent))
      else some msg
    | none => some msg
  else if isRole msg "assistant" && !hasContent msg && !hasToolCalls msg then none
  else some msg

def fixToolPairs (messages : List (JsData N)) : List (JsData N) :=
  let toolResultIds := messages.flatMap (answeredIds num)
  let filteredMessages := Lookahead.pass
    (fun msg next =>
      [if isRole msg "assistant" && next.isSome then filterCalls num (hasId toolResultIds) msg
       else msg])
    messages none
  filteredMessages.filterMap (dropOrphans num (filteredMessages.flatMap (calledIds num)))

/-! ## Adjacency -/

/-- `texts.has(String(id))` -/
def hasText (texts : List CodeUnits) (id : JsData N) : Bool := texts.contains (toText num id)

def adjacencyStep (msg : JsData N) (nextMsg : Option (JsData N)) : List (JsData N) :=
  match isRole msg "assistant", nextMsg with
  | true, some nextMsg =>
    let nextToolResultIds := (answeredIds num nextMsg).map (toText num)
    let newMsg := filterCalls num (hasText num nextToolResultIds) msg
    if size newMsg ≠ size msg then
      if !hasContent newMsg && !hasToolCalls newMsg then [] else [newMsg]
    else [msg]
  | _, _ => [msg]

def fixToolAdjacency (messages : List (JsData N)) : List (JsData N) :=
  if messages.length ≤ 1 then messages else Lookahead.pass (adjacencyStep num) messages none

/-! ## The end -/

/-- A message without any calls. -/
def withoutCalls (msg : JsData N) : JsData N :=
  filterField "content" (fun block => !isType block "tool_use")
    (filterField "tool_calls" (fun _ => false) msg)

def stripTrailingAssistantOrphanToolUse (messages : List (JsData N)) : List (JsData N) :=
  match messages.getLast? with
  | none => messages
  | some last =>
    if !isRole last "assistant" then messages
    else
      let newLast := withoutCalls last
      if size newLast = size last then messages
      else
        messages.dropLast ++ if hasContent newLast || hasToolCalls newLast then [newLast] else []

/-- The passes that a candidate goes through. -/
def repair (messages : List (JsData N)) : List (JsData N) :=
  stripTrailingAssistantOrphanToolUse
    (fixToolPairs num (fixToolAdjacency num (fixToolPairs num messages)))

end OmniRoute.ContextManager
