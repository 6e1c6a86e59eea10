import OmniRoute.ToolPairing.Repair

/-!
# Claude messages as chat messages

`convertClaudeMessage`, `regroupToolMessages` and `fixMissingToolResponses` of
`open-sse/translator/request/claude-to-openai.ts`, and the part of `translateRequest` around them.

A message with results becomes one message of role `tool` for each result, and its other parts a
user message after them. Regrouping puts the response to every call behind the message that made it,
in the order of the calls; if a call has several, the first. The calls that are left without one get
a placeholder.

**Main result (`claudeToOpenAI_eq`).** After the conversion every message with calls is followed by
one response for each of them, the first of the responses to it if there are any.
-/

namespace OmniRoute.ToolPairing

namespace ClaudeToOpenAI

open List

variable {N : Type}

/-! ## Messages -/

section Convert

variable [JsonNumber N] [Zero N] [DecidableEq N]

def isBase64Image (c : Json N) : Bool :=
  c.hasType "image" && (c.prop "source").any fun source => source.hasType "base64"

def imagePart (url : Json N) : Json N :=
  .obj [("type", .str "image_url"), ("image_url", .obj [("url", url)])]

def dataUrl (source : Json N) : Json N :=
  .str ("data:" ++ Json.templateText (source.prop "media_type") ++ ";base64," ++
    Json.templateText (source.prop "data"))

/-- The part of an image block, if its source can be sent. -/
def imageParts (block : Json N) : List (Json N) :=
  match block.prop "source" with
  | none => []
  | some source =>
    if source.hasType "base64" then [imagePart (dataUrl source)]
    else
      match source.hasType "url", source.prop "url" with
      | true, some (.str url) => [imagePart (.str url)]
      | _, _ => []

def textPart (preserveCacheControl : Bool) (block : Json N) : Json N :=
  .obj (("type", .str "text") :: (block.prop "text").toList.map (fun text => ("text", text)) ++
    if preserveCacheControl then
      (block.prop "cache_control").toList.map fun mark => ("cache_control", mark)
    else [])

/-- The first of some values that is there and true, or the empty string. -/
def orEmpty (values : List (Option (Json N))) : Json N :=
  ((values.filterMap id).find? Json.truthy).getD (.str "")

/-- The text parts of the content of a result. -/
def textParts (content : List (Json N)) : List String :=
  content.filterMap fun c =>
    if c.hasType "text" then some (((c.prop "text").map Json.joinText).getD "") else none

/-- The content of the message of role `tool` for a result. -/
def resultContent (fields : List (String × Json N)) : String :=
  match fields.lookup "content" with
  | none => ""
  | some (.str content) => content
  | some (.arr content) =>
    if "\n".intercalate (textParts content) ≠ "" then "\n".intercalate (textParts content)
    else if content.any isBase64Image then "[tool returned an image; see attached]"
    else (Json.arr content).stringify
  | some content => if content.truthy then content.stringify else ""

/-- The images of a result, which a message of role `tool` cannot carry. -/
def resultImages (fields : List (String × Json N)) : List (Json N) :=
  match fields.lookup "content" with
  | some (.arr content) => (content.filter isBase64Image).flatMap imageParts
  | _ => []

/-- The arguments of a call. -/
def argumentsText (fields : List (String × Json N)) : String :=
  match fields.lookup "input" with
  | none => "{}"
  | some (.str input) => input
  | some input => if input.truthy then input.stringify else "{}"

def toToolCall (id : Option String) (fields : List (String × Json N)) : ToolCall N where
  id := id
  type := some "function"
  function := some
    { name := match fields.lookup "name" with
        | some (.str name) => some name
        | _ => none
      arguments := some (.str (argumentsText fields)) }

def toolMessage (id : Option String) (content : String) : Message N :=
  { role := .tool, content := .text content, toolCallId := id }

/-- What the loop over the blocks of a message collects. -/
structure Collected (N : Type) where
  parts : List (Json N) := []
  toolCalls : List (ToolCall N) := []
  toolResults : List (Message N) := []
  reasoningContent : Option (Json N) := none

def collectOther (preserveCacheControl : Bool) (acc : Collected N) (block : Json N) :
    Collected N :=
  if block.hasType "text" then
    { acc with parts := acc.parts ++ [textPart preserveCacheControl block] }
  else if block.hasType "image" then { acc with parts := acc.parts ++ imageParts block }
  else if block.hasType "thinking" then
    { acc with reasoningContent := some (orEmpty [block.prop "thinking", block.prop "text"]) }
  else if block.hasType "redacted_thinking" then
    { acc with reasoningContent := some (acc.reasoningContent.getD (.str "")) }
  else acc

def collect (preserveCacheControl : Bool) (acc : Collected N) : Block N → Collected N
  | .toolUse id fields => { acc with toolCalls := acc.toolCalls ++ [toToolCall id fields] }
  | .toolResult id fields =>
    { acc with
      parts := acc.parts ++ resultImages fields
      toolResults := acc.toolResults ++ [toolMessage id (resultContent fields)] }
  | .other block => collectOther preserveCacheControl acc block

def convertedRole : Role → Role
  | .user => .user
  | .tool => .user
  | .system => .system
  | _ => .assistant

/-- A single text part stands for its text; a text that is no string is left out. -/
def partsContent : List (Json N) → Content N
  | [] => .absent
  | [part] =>
    if part.hasType "text" then
      match part.prop "text" with
      | some (.str text) => .text text
      | _ => .absent
    else .blocks [.other part]
  | parts => .blocks (parts.map .other)

def reasoningFields (role : Role) (reasoningContent : Option (Json N)) : List (String × Json N) :=
  if role = .assistant then
    reasoningContent.toList.map fun reasoning => ("reasoning_content", reasoning)
  else []

/-- The messages for what was collected from a content array. -/
def convertCollected (role : Role) (isEmpty : Bool) (acc : Collected N) : List (Message N) :=
  if acc.toolResults ≠ [] then
    acc.toolResults ++
      if acc.parts ≠ [] then [{ role := .user, content := partsContent acc.parts }] else []
  else if acc.toolCalls ≠ [] then
    [{ role := .assistant
       content := partsContent acc.parts
       toolCalls := some acc.toolCalls
       fields := reasoningFields .assistant acc.reasoningContent }]
  else if acc.parts ≠ [] then
    [{ role, content := partsContent acc.parts, fields := reasoningFields role acc.reasoningContent }]
  else if isEmpty || (acc.reasoningContent.isSome && decide (role = .assistant)) then
    [{ role, content := .text "", fields := reasoningFields role acc.reasoningContent }]
  else []

def convertClaudeMessage (preserveCacheControl : Bool) (msg : Message N) : List (Message N) :=
  match msg.content with
  | .absent => []
  | .text text => [{ role := convertedRole msg.role, content := .text text }]
  | .blocks bs =>
    convertCollected (convertedRole msg.role) bs.isEmpty
      (bs.foldl (collect preserveCacheControl) {})

end Convert

/-! ## Responses -/

/-- Whether an assistant message made a call. -/
def issued (callId : String) (msg : Message N) : Bool :=
  decide (msg.role = .assistant) && msg.calls.any fun tc => decide (truthyId tc.id = some callId)

/-- The index of the assistant message that made a call; the first wins. -/
def callIdToAssistant (messages : List (Message N)) (callId : String) : Option ℕ :=
  messages.findIdx? (issued callId)

/-- The message of role `tool` that is kept for a call; the first wins. -/
def responseTo (messages : List (Message N)) (callId : String) : Option (Message N) :=
  messages.find? fun msg => decide (msg.role = .tool) && decide (msg.toolCallId.getD "" = callId)

/-- The responses to the calls of the assistant message at an index. -/
def responseGroup (messages : List (Message N)) (idx : ℕ) (msg : Message N) : List (Message N) :=
  if msg.role = .assistant then
    (msg.calls.filterMap fun tc => truthyId tc.id).filterMap fun callId =>
      if callIdToAssistant messages callId = some idx then responseTo messages callId else none
  else []

def regroupFrom (messages : List (Message N)) : ℕ → List (Message N) → List (Message N)
  | _, [] => []
  | idx, msg :: rest =>
    if msg.role = .tool then regroupFrom messages (idx + 1) rest
    else msg :: responseGroup messages idx msg ++ regroupFrom messages (idx + 1) rest

def regroupToolMessages (messages : List (Message N)) : List (Message N) :=
  regroupFrom messages 0 messages

/-- A message that belongs to the responses directly after a message with calls. -/
def isResponse (msg : Message N) : Bool :=
  decide (msg.role = .tool) && (truthyId msg.toolCallId).isSome

def missingResponse (id : Option String) : Message N := toolMessage id "[No response received]"

/-- The ids of the calls that the responses do not answer. -/
def missingIds (msg : Message N) (responses : List (Message N)) : List (Option String) :=
  (msg.calls.map fun tc => tc.id).filter fun id =>
    decide (id ∉ responses.map fun response => response.toolCallId)

/-- The responses that follow a message are run over unchanged, so the later messages may be filled
first. -/
def fixMissingToolResponses : List (Message N) → List (Message N)
  | [] => []
  | msg :: rest =>
    if msg.role = .assistant ∧ msg.calls ≠ [] then
      msg :: ((fixMissingToolResponses rest).takeWhile isResponse ++
        (missingIds msg ((fixMissingToolResponses rest).takeWhile isResponse)).map missingResponse ++
        (fixMissingToolResponses rest).dropWhile isResponse)
    else msg :: fixMissingToolResponses rest

/-! ## The request -/

/-- `{ role: "user", content: "(continue)" }` where a user turn is asked for and there is none. -/
def withUserTurn (ensureUserTurn : Bool) (messages : List (Message N)) : List (Message N) :=
  if ensureUserTurn && !messages.any fun msg => decide (msg.role = .user) then
    messages ++ [{ role := .user, content := .text "(continue)" }]
  else messages

section Request

variable [JsonNumber N] [Zero N] [DecidableEq N]

def billingHeader : List Char := "x-anthropic-billing-header:".toList

/-- A billing line at the beginning of a text is taken out; anything but a text is empty. -/
def stripAnthropicBillingHeader : Json N → String
  | .str text =>
    if (text.toList.take billingHeader.length).map Char.toLower = billingHeader then
      String.ofList (((text.toList.drop billingHeader.length).dropWhile fun c => c ≠ '\n').drop 1)
    else text
  | _ => ""

/-- An entry of the system prompt with its mark. -/
def systemBlock (entry : Json N) : Json N :=
  match entry with
  | .str _ => .obj [("type", .str "text"), ("text", .str (stripAnthropicBillingHeader entry))]
  | _ => .obj ([("type", .str "text"),
      ("text", .str (stripAnthropicBillingHeader (orEmpty [entry.prop "text"])))] ++
      (entry.prop "cache_control").toList.map fun mark => ("cache_control", mark))

def systemText (system : Json N) : String :=
  match system with
  | .arr entries => "\n".intercalate ((entries.map fun entry =>
      stripAnthropicBillingHeader (orEmpty [entry.prop "text"])).filter fun text => text ≠ "")
  | system => stripAnthropicBillingHeader system

/-- The entries of the system prompt, if one of them has a mark that is to be kept. -/
def markedEntries (preserveCacheControl : Bool) : Json N → Option (List (Json N))
  | .arr entries =>
    if preserveCacheControl && entries.any fun entry => (entry.prop "cache_control").isSome then
      some entries
    else none
  | _ => none

/-- The message for the system prompt, `body.system`. -/
def systemMessages (preserveCacheControl : Bool) (system : Json N) : List (Message N) :=
  if system.truthy then
    match markedEntries preserveCacheControl system with
    | some entries =>
      [{ role := .system, content := .blocks ((entries.map systemBlock).map .other) }]
    | none =>
      if systemText system ≠ "" then [{ role := .system, content := .text (systemText system) }]
      else []
  else []

/-- The messages before the responses are put in their place. -/
def converted (system : Json N) (preserveCacheControl : Bool) (messages : List (Message N)) :
    List (Message N) :=
  systemMessages preserveCacheControl system ++
    messages.flatMap (convertClaudeMessage preserveCacheControl)

/-- The messages of `claudeToOpenAIRequest`. -/
def claudeToOpenAIRequest (system : Json N) (preserveCacheControl ensureUserTurn : Bool)
    (messages : List (Message N)) : List (Message N) :=
  withUserTurn ensureUserTurn (fixMissingToolResponses (regroupToolMessages
    (converted system preserveCacheControl messages)))

/-- The messages of a Claude request on their way to a chat provider. -/
def translateRequest (source : IdSource) (system : Json N)
    (preserveCacheControl ensureUserTurn : Bool) (messages : List (Message N)) :
    List (Message N) :=
  repair source (claudeToOpenAIRequest system preserveCacheControl ensureUserTurn
    (stripOrphanedToolResults (ToolPairing.fixMissingToolResponses messages)))

end Request

/-! ## The responses in their place -/

section Place

variable [JsonNumber N] [Zero N] [DecidableEq N]

/-- A chat message whose calls are complete and which names the call that it answers. -/
structure ChatMessage (m : Message N) : Prop where
  blocks : ∀ b ∈ m.content.blockList, b.isToolUse = false ∧ b.isToolResult = false
  ids : m.role = .assistant → ∀ tc ∈ m.calls, missingId tc.id = false
  typed : withTypedCalls m = m
  response : m.role = .tool → missingId m.toolCallId = false

/-- Chat messages with different calls. -/
structure ChatMessages (messages : List (Message N)) : Prop where
  each : ∀ m ∈ messages, ChatMessage m
  distinct : (messages.flatMap getToolCallIds).Nodup

end Place

/-- The responses that are there for the calls of a message. -/
def answered (messages : List (Message N)) (msg : Message N) : List (Message N) :=
  (getToolCallIds msg).filterMap (responseTo messages)

/-- The placeholders for the other calls. -/
def placeholders (messages : List (Message N)) (msg : Message N) : List (Message N) :=
  ((getToolCallIds msg).filter fun callId => (responseTo messages callId).isNone).map fun callId =>
    missingResponse (some callId)

/-- A message with the responses to its calls. -/
def turn (messages : List (Message N)) (msg : Message N) : List (Message N) :=
  msg :: (answered messages msg ++ placeholders messages msg)

variable {messages : List (Message N)} {r : Message N}

theorem responseTo_spec {callId : String} (h : responseTo messages callId = some r)
    (hne : callId ≠ "") : r ∈ messages ∧ r.role = .tool ∧ r.toolCallId = some callId := by
  have hr := find?_some h
  rw [Bool.and_eq_true, decide_eq_true_eq, decide_eq_true_eq] at hr
  refine ⟨mem_of_find?_eq_some h, hr.1, ?_⟩
  cases hid : r.toolCallId with
  | none =>
    rw [hid] at hr
    exact absurd hr.2.symm hne
  | some id =>
    rw [hid] at hr
    exact congrArg some hr.2

theorem mem_answered {m : Message N} (h : r ∈ answered messages m) :
    ∃ c ∈ getToolCallIds m, responseTo messages c = some r ∧ r.role = .tool ∧
      r.toolCallId = some c := by
  obtain ⟨c, hc, hr⟩ := mem_filterMap.1 h
  obtain ⟨-, hrole, hid⟩ := responseTo_spec hr (ne_empty_of_mem_getToolCallIds hc)
  exact ⟨c, hc, hr, hrole, hid⟩

theorem mem_placeholders {m : Message N} (h : r ∈ placeholders messages m) :
    ∃ c ∈ getToolCallIds m, responseTo messages c = none ∧ r = missingResponse (some c) := by
  obtain ⟨c, hc, rfl⟩ := mem_map.1 h
  obtain ⟨hc, hnone⟩ := mem_filter.1 hc
  exact ⟨c, hc, Option.isNone_iff_eq_none.1 hnone, rfl⟩

/-- The responses of a turn are messages of role `tool` with an id of one of its calls. -/
theorem response_of_mem {m : Message N} (h : r ∈ answered messages m ++ placeholders messages m) :
    r.role = .tool ∧ ∃ c ∈ getToolCallIds m, r.toolCallId = some c := by
  rcases mem_append.1 h with h | h
  · obtain ⟨c, hc, -, hrole, hid⟩ := mem_answered h
    exact ⟨hrole, c, hc, hid⟩
  · obtain ⟨c, hc, -, rfl⟩ := mem_placeholders h
    exact ⟨rfl, c, hc, rfl⟩

theorem isResponse_of_answered {m : Message N} (h : r ∈ answered messages m) :
    isResponse r = true := by
  obtain ⟨c, hc, -, hrole, hid⟩ := mem_answered h
  rw [isResponse, hrole, hid, truthyId_some (ne_empty_of_mem_getToolCallIds hc)]
  rfl

/-- Every call has one response. -/
theorem ids_of_turn (messages : List (Message N)) (m : Message N) :
    ((answered messages m ++ placeholders messages m).map fun r => r.toolCallId).Perm
      ((getToolCallIds m).map some) := by
  have hids : ∀ c ∈ getToolCallIds m, c ≠ "" := fun c hc => ne_empty_of_mem_getToolCallIds hc
  rw [answered, placeholders]
  generalize getToolCallIds m = ids at hids
  induction ids with
  | nil => exact List.Perm.refl _
  | cons c ids ih =>
    have hrest := ih fun c' hc' => hids c' (.tail _ hc')
    cases hc : responseTo messages c with
    | none =>
      rw [filterMap_cons_none hc, filter_cons_of_pos (by simp [hc]), map_cons,
        map_append, map_cons, map_cons]
      rw [map_append] at hrest
      exact perm_middle.trans (hrest.cons _)
    | some r =>
      obtain ⟨-, -, hid⟩ := responseTo_spec hc (hids c mem_cons_self)
      rw [filterMap_cons_some hc, filter_cons_of_neg (by simp [hc]), map_cons,
        cons_append, map_cons, hid]
      exact hrest.cons _

section Chat

variable [JsonNumber N] [Zero N] [DecidableEq N] {messages : List (Message N)}

variable {m : Message N}

section

variable (h : ChatMessages messages)
include h

theorem ChatMessages.calls_eq (hm : m ∈ messages) (hrole : m.role = .assistant) :
    getToolCallIds m = m.calls.filterMap fun tc => truthyId tc.id := by
  have hnone : m.content.blockList.filterMap Block.calledId = [] := by
    refine filterMap_eq_nil_iff.2 fun b hb => ?_
    have huse := ((h.each m hm).blocks b hb).1
    cases b with
    | toolUse id fields => cases huse
    | _ => rfl
  rw [getToolCallIds, if_pos hrole, hnone, append_nil]

theorem ChatMessages.map_id (hm : m ∈ messages) (hrole : m.role = .assistant) :
    (m.calls.map fun tc => tc.id) = (getToolCallIds m).map some := by
  have hids := (h.each m hm).ids hrole
  rw [h.calls_eq hm hrole]
  generalize m.calls = tcs at hids
  induction tcs with
  | nil => rfl
  | cons tc tcs ih =>
    obtain ⟨s, hs, -, hne⟩ := missingId_eq_false (hids tc mem_cons_self)
    have htruthy : truthyId tc.id = some s := truthyId_eq_some.2 ⟨hs, hne⟩
    simp only [filterMap_cons, htruthy, map_cons]
    rw [hs, ih fun tc' h' => hids tc' (.tail _ h')]

theorem callIdToAssistant_eq {pre rest : List (Message N)}
    (hsplit : messages = pre ++ m :: rest) {c : String} (hc : c ∈ getToolCallIds m) :
    callIdToAssistant messages c = some pre.length := by
  have hissued : ∀ x ∈ messages, issued c x = true ↔ c ∈ getToolCallIds x := by
    intro x hx
    by_cases hrole : x.role = .assistant
    · rw [issued, decide_eq_true hrole, Bool.true_and, any_eq_true, h.calls_eq hx hrole,
        mem_filterMap]
      simp only [decide_eq_true_eq]
    · rw [issued, decide_eq_false hrole, getToolCallIds_of_ne_assistant hrole]
      simp
  have hdistinct := h.distinct
  rw [hsplit, flatMap_append, flatMap_cons] at hdistinct
  have hpre : pre.findIdx? (issued c) = none := by
    refine findIdx?_eq_none_iff.2 fun x hx => Bool.eq_false_iff.2 fun hx' => ?_
    have hmem := (hissued x (by simp [hsplit, hx])).1 hx'
    exact (nodup_append.1 hdistinct).2.2 c (mem_flatMap.2 ⟨x, hx, hmem⟩) c
      (mem_append_left _ hc) rfl
  have hm : issued c m = true := (hissued m (by simp [hsplit])).2 hc
  rw [callIdToAssistant, hsplit, findIdx?_append, hpre, findIdx?_cons, if_pos hm]
  simp

theorem responseGroup_eq {pre rest : List (Message N)} (hsplit : messages = pre ++ m :: rest) :
    responseGroup messages pre.length m = answered messages m := by
  by_cases hrole : m.role = .assistant
  · have hm : m ∈ messages := by simp [hsplit]
    rw [responseGroup, if_pos hrole, answered, h.calls_eq hm hrole]
    refine filterMap_congr fun c hc => ?_
    rw [← h.calls_eq hm hrole] at hc
    rw [callIdToAssistant_eq h hsplit hc, if_pos rfl]
  · rw [responseGroup, if_neg hrole, answered, getToolCallIds_of_ne_assistant hrole]
    rfl

theorem regroupFrom_eq {pre rest : List (Message N)} (hsplit : messages = pre ++ rest) :
    regroupFrom messages pre.length rest =
      (rest.filter fun m => decide (m.role ≠ .tool)).flatMap fun m =>
        m :: answered messages m := by
  induction rest generalizing pre with
  | nil => rfl
  | cons m rest ih =>
    have hrest := @ih (pre ++ [m]) (by rw [hsplit, append_assoc]; rfl)
    rw [length_append] at hrest
    by_cases hrole : m.role = .tool
    · rw [regroupFrom, if_pos hrole, filter_cons_of_neg (by simp [hrole])]
      exact hrest
    · rw [regroupFrom, if_neg hrole, filter_cons_of_pos (by simp [hrole]),
        flatMap_cons, responseGroup_eq h hsplit]
      exact congrArg _ hrest

theorem missingIds_answered (hm : m ∈ messages) (hrole : m.role = .assistant) :
    (missingIds m (answered messages m)).map missingResponse = placeholders messages m := by
  rw [missingIds, h.map_id hm hrole, filter_map, map_map, placeholders]
  refine congrArg (List.map _) (filter_congr fun c hc => ?_)
  have hmem : some c ∈ (answered messages m).map (fun r => r.toolCallId) ↔
      responseTo messages c ≠ none := by
    rw [mem_map]
    constructor
    · rintro ⟨r, hr, hid⟩ hnone
      obtain ⟨c', -, hr', -, hid'⟩ := mem_answered hr
      obtain rfl := Option.some.inj (hid'.symm.trans hid)
      cases hr'.symm.trans hnone
    · intro hsome
      obtain ⟨r, hr⟩ := Option.ne_none_iff_exists'.1 hsome
      exact ⟨r, mem_filterMap.2 ⟨c, hc, hr⟩,
        (responseTo_spec hr (ne_empty_of_mem_getToolCallIds hc)).2.2⟩
  rw [Function.comp_apply, Bool.eq_iff_iff, decide_eq_true_eq, hmem, Option.isNone_iff_eq_none,
    not_not]

omit h in
omit [JsonNumber N] [Zero N] [DecidableEq N] in
/-- Responses are run over. -/
theorem fixMissing_append {l : List (Message N)} (h : ∀ r ∈ l, isResponse r = true)
    (rest : List (Message N)) :
    fixMissingToolResponses (l ++ rest) = l ++ fixMissingToolResponses rest := by
  induction l with
  | nil => rfl
  | cons r l ih =>
    have hrole : r.role = .tool :=
      of_decide_eq_true (Bool.and_eq_true _ _ ▸ h r mem_cons_self).1
    rw [cons_append, fixMissingToolResponses, if_neg fun hr => (by rw [hrole] at hr; cases hr.1),
      ih fun r' hr' => h r' (.tail _ hr')]
    rfl

omit h in
omit [JsonNumber N] [Zero N] [DecidableEq N] in
theorem takeWhile_turns {l : List (Message N)} (h : ∀ m ∈ l, m.role ≠ .tool)
    {p : Message N → Bool} (hp : ∀ m : Message N, p m = true → m.role = .tool)
    (messages : List (Message N)) : (l.flatMap (turn messages)).takeWhile p = [] := by
  cases l with
  | nil => rfl
  | cons m l =>
    rw [flatMap_cons, turn, cons_append,
      takeWhile_cons_of_neg fun hm => h m mem_cons_self (hp m hm)]

theorem fixMissing_eq {l : List (Message N)} (hl : l ⊆ messages) (htool : ∀ m ∈ l, m.role ≠ .tool) :
    fixMissingToolResponses (l.flatMap fun m => m :: answered messages m) =
      l.flatMap (turn messages) := by
  induction l with
  | nil => rfl
  | cons m l ih =>
    have hm : m ∈ messages := hl mem_cons_self
    have hrest := ih (fun x hx => hl (.tail _ hx)) fun x hx => htool x (.tail _ hx)
    have hresponses : ∀ r ∈ answered messages m, isResponse r = true := fun r hr =>
      isResponse_of_answered hr
    have hafter : fixMissingToolResponses (answered messages m ++
        l.flatMap fun m => m :: answered messages m) =
          answered messages m ++ l.flatMap (turn messages) := by
      rw [fixMissing_append hresponses, hrest]
    rw [flatMap_cons, flatMap_cons, cons_append, fixMissingToolResponses, hafter]
    by_cases hcalls : m.role = .assistant ∧ m.calls ≠ []
    · have htake : (l.flatMap (turn messages)).takeWhile isResponse = [] :=
        takeWhile_turns (fun x hx => htool x (.tail _ hx))
          (fun x hx => of_decide_eq_true (Bool.and_eq_true _ _ ▸ hx).1) messages
      have hdrop : (l.flatMap (turn messages)).dropWhile isResponse = l.flatMap (turn messages) := by
        have hsplit := takeWhile_append_dropWhile (p := isResponse) (l := l.flatMap (turn messages))
        rwa [htake] at hsplit
      rw [if_pos hcalls, takeWhile_append_of_pos hresponses, htake, append_nil,
        missingIds_answered h hm hcalls.1, dropWhile_append_of_pos hresponses, hdrop]
      rfl
    · -- A message without calls has no responses.
      have hids : getToolCallIds m = [] := by
        by_cases hrole : m.role = .assistant
        · have hnil : m.calls = [] := Classical.not_not.1 fun hne => hcalls ⟨hrole, hne⟩
          rw [h.calls_eq hm hrole, hnil]
          rfl
        · exact getToolCallIds_of_ne_assistant hrole
      rw [if_neg hcalls, turn, answered, placeholders, hids]
      rfl

/-- Every message is followed by the responses to its calls. -/
theorem claudeToOpenAI_eq :
    fixMissingToolResponses (regroupToolMessages messages) =
      (messages.filter fun m => decide (m.role ≠ .tool)).flatMap (turn messages) := by
  have hregroup := @regroupFrom_eq _ _ _ _ _ h [] _ (List.nil_append _).symm
  rw [regroupToolMessages]
  refine (congrArg _ hregroup).trans (fixMissing_eq h filter_sublist.subset fun m hm => ?_)
  exact of_decide_eq_true (mem_filter.1 hm).2

end

end Chat

end ClaudeToOpenAI

end OmniRoute.ToolPairing
