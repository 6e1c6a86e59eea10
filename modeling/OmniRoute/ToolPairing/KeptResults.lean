import OmniRoute.ToolPairing.ClaudeToOpenAI

/-!
# The results of a Claude conversation

Two repairs put placeholders into a conversation on its way to a chat provider: the first, still on
the Claude messages, looks at the next message only; the second comes after the responses were
regrouped and fills what is left. Regrouping keeps the first response to a call, so a placeholder of
the first repair takes the place of a result that comes later.

**Main result (`keepsResults_iff`).** Every call keeps the result that the client sent exactly when
every turn is answered in part by the next message, or by empty texts only.
-/

namespace OmniRoute.ToolPairing

namespace ClaudeToOpenAI

open List Option Lookahead Message

variable {N : Type}

theorem blocks_partsContent (parts : List (Json N)) :
    ∀ b ∈ (partsContent parts).blockList, ∃ value, b = .other value := by
  intro b hb
  have hmap : ∀ {l : List (Json N)}, b ∈ l.map Block.other → ∃ value, b = .other value := by
    intro l hl
    obtain ⟨value, -, rfl⟩ := mem_map.1 hl
    exact ⟨value, rfl⟩
  match parts with
  | [] => cases hb
  | [part] =>
    by_cases htype : part.hasType "text" = true
    · rw [partsContent, if_pos htype] at hb
      split at hb <;> cases hb
    · rw [partsContent, if_neg htype] at hb
      exact hmap (l := [part]) hb
  | p :: p' :: parts => exact hmap (l := p :: p' :: parts) hb

theorem Plain.not_tool_block {x : Message N}
    (h : ∀ b ∈ x.content.blockList, ∃ value, b = .other value) :
    ∀ b ∈ x.content.blockList, b.isToolUse = false ∧ b.isToolResult = false := by
  intro b hb
  obtain ⟨value, rfl⟩ := h b hb
  exact ⟨rfl, rfl⟩

variable {m : Message N}

theorem inserted_eq (hcalls : m.toolCalls = none) (next : Option (Message N)) :
    inserted m next = [] ∨ inserted m next =
      [{ role := .user, content := .blocks ((getToolCallIds m).map emptyResultBlock) }] := by
  by_cases hcond : getToolCallIds m ≠ [] ∧ next.isSome = true ∧
      hasToolResults next (getToolCallIds m) = false
  · have hnil : m.calls = [] := by
      rw [calls, hcalls]
      rfl
    refine .inr ((if_pos hcond).trans ?_)
    rw [emptyResponses, if_neg (not_not_intro hnil)]
  · exact .inl (if_neg hcond)

theorem linked_eq_self {msgs : List (Message N)}
    (h : ∀ m ∈ msgs, m.role = .tool → missingId m.toolCallId = false) (ids : List String) :
    linked ids msgs = msgs := by
  induction msgs generalizing ids with
  | nil => rfl
  | cons m ms ih =>
    have hrest := ih fun m' hm' => h m' (.tail _ hm')
    rw [linked]
    by_cases hassistant : m.role = .assistant
    · rw [if_pos hassistant, hrest]
    · rw [if_neg hassistant]
      by_cases htool : m.role = .tool
      · rw [if_pos htool, h m mem_cons_self htool, if_neg Bool.false_ne_true, hrest]
      · rw [if_neg htool, hrest]

variable {a : Message N}

/-- Where the messages of the result come from, and what follows them. -/
theorem suffix_turns {rest : List (Message N)} (hrole : a.role ≠ .tool)
    (h : a :: rest <:+ l.flatMap (turn messages)) :
    ∃ t, a :: t <:+ l ∧
      rest = (answered messages a ++ placeholders messages a) ++ t.flatMap (turn messages) := by
  have hpass : ∀ l : List (Message N),
      pass (fun m _ => turn messages m) l none = l.flatMap (turn messages) :=
    fun l => pass_eq_flatMap _ fun _ _ _ => rfl
  rw [← hpass] at h
  obtain ⟨m, t, u, v, hm, hturn, rfl⟩ := suffix_pass _ h
  have hturn : turn messages m = u ++ a :: v := hturn
  rw [hpass]
  cases u with
  | nil =>
    obtain ⟨rfl, rfl⟩ := cons.inj hturn
    exact ⟨t, hm, rfl⟩
  | cons x u =>
    have hmem : a ∈ answered messages m ++ placeholders messages m := by
      rw [(cons.inj hturn).2]
      simp
    exact absurd (response_of_mem hmem).1 hrole

theorem calls_turns (messages l : List (Message N)) :
    (l.flatMap (turn messages)).flatMap getToolCallIds = l.flatMap getToolCallIds := by
  rw [flatMap_assoc]
  refine flatMap_congr fun m _ => ?_
  have hnone : (answered messages m ++ placeholders messages m).flatMap getToolCallIds = [] := by
    refine flatMap_eq_nil_iff.2 fun r hr => getToolCallIds_of_ne_assistant ?_
    rw [(response_of_mem hr).1]
    decide
  rw [turn, flatMap_cons, hnone, append_nil]

variable [JsonNumber N] [Zero N] [DecidableEq N]

/-! ## What is asked of the request -/

/-- A conversation in the Claude shape: calls in assistant messages, results in user messages, each
after its call. -/
structure ClaudeConversation (msgs : List (Message N)) : Prop where
  roles : ∀ m ∈ msgs, m.role = .system ∨ m.role = .user ∨ m.role = .assistant
  toolCalls : ∀ m ∈ msgs, m.toolCalls = none
  uses : ∀ m ∈ msgs, m.role ≠ .assistant → ∀ b ∈ m.content.blockList, b.isToolUse = false
  results : ∀ m ∈ msgs, m.role ≠ .user → ∀ b ∈ m.content.blockList, b.isToolResult = false
  ids : ∀ id ∈ msgs.flatMap rawCallIds, missingId id = false
  distinct : (msgs.flatMap rawCallIds).Nodup
  follows : ∀ pre m post, msgs = pre ++ m :: post → ∀ b ∈ m.content.blockList,
    b.isToolResult = true → ∃ c ∈ pre.flatMap getToolCallIds, b.answeredId = some c

/-- The text of a result, if it answers the call. -/
def textFor (callId : String) : Block N → Option String
  | .toolResult id fields => if id = some callId then some (resultContent fields) else none
  | _ => none

/-- The text of the client's first result of a call. -/
def resultText (msgs : List (Message N)) (callId : String) : Option String :=
  (msgs.flatMap fun m => m.content.blockList).findSome? (textFor callId)

/-- The messages of role `tool` directly after a message. -/
def responsesAfter (rest : List (Message N)) : List (Message N) :=
  rest.takeWhile fun m => decide (m.role = .tool)

/-- Every call is still there and has one response, directly after its message, with the text of the
client's result if there is one. -/
structure KeepsResults (msgs chat : List (Message N)) : Prop where
  calls : chat.flatMap getToolCallIds = msgs.flatMap getToolCallIds
  responses : ∀ a rest, a :: rest <:+ chat → a.role = .assistant → a.calls ≠ [] →
    ((responsesAfter rest).map fun r => r.toolCallId).Perm (a.calls.map fun tc => tc.id)
  texts : ∀ a rest, a :: rest <:+ chat → a.role = .assistant → a.calls ≠ [] →
    ∀ r ∈ responsesAfter rest, ∀ c, r.toolCallId = some c → ∀ text,
      resultText msgs c = some text → r.content = .text text

/-- A turn that is not answered by the next message is not answered at all, or by empty texts. -/
def Prompt (msgs : List (Message N)) : Prop :=
  ∀ a next rest, a :: next :: rest <:+ msgs →
    hasToolResults (some next) (getToolCallIds a) = false → ∀ c ∈ getToolCallIds a, ∀ text,
      resultText msgs c = some text → text = ""

/-! ## One message -/

/-- A message as the conversion meets it: one of the conversation or an inserted one. -/
structure ClaudeMessage (known : List String) (m : Message N) : Prop where
  toolCalls : m.toolCalls = none
  uses : m.role ≠ .assistant → ∀ b ∈ m.content.blockList, b.isToolUse = false
  results : m.role ≠ .user → ∀ b ∈ m.content.blockList, b.isToolResult = false
  ids : ∀ id ∈ rawCallIds m, missingId id = false
  answers : ∀ b ∈ m.content.blockList, b.isToolResult = true → ∃ c ∈ known, b.answeredId = some c

/-- The response that a block becomes. -/
def responseOf : Block N → Option (Message N)
  | .toolResult id fields => some (toolMessage id (resultContent fields))
  | _ => none

/-- The call that a block becomes. -/
def callOf : Block N → Option (ToolCall N)
  | .toolUse id fields => some (toToolCall id fields)
  | _ => none

variable (preserve : Bool)

theorem collectOther_calls (acc : Collected N) (value : Json N) :
    (collectOther preserve acc value).toolResults = acc.toolResults ∧
      (collectOther preserve acc value).toolCalls = acc.toolCalls := by
  rw [collectOther]
  split_ifs <;> exact ⟨rfl, rfl⟩

theorem foldl_collect (bs : List (Block N)) (acc : Collected N) :
    (bs.foldl (collect preserve) acc).toolResults = acc.toolResults ++ bs.filterMap responseOf ∧
      (bs.foldl (collect preserve) acc).toolCalls = acc.toolCalls ++ bs.filterMap callOf := by
  induction bs generalizing acc with
  | nil => exact ⟨(append_nil _).symm, (append_nil _).symm⟩
  | cons b bs ih =>
    obtain ⟨hresults, hcalls⟩ := ih (collect preserve acc b)
    rw [foldl_cons, hresults, hcalls]
    cases b with
    | toolUse id fields => exact ⟨rfl, append_assoc _ _ _⟩
    | toolResult id fields => exact ⟨append_assoc _ _ _, rfl⟩
    | other value =>
      obtain ⟨hresults', hcalls'⟩ := collectOther_calls preserve acc value
      exact ⟨congrArg (· ++ _) hresults', congrArg (· ++ _) hcalls'⟩

/-- A message without calls and results. -/
structure Plain (x : Message N) : Prop where
  blocks : ∀ b ∈ x.content.blockList, ∃ value, b = .other value
  toolCalls : x.toolCalls = none
  role : x.role ≠ .tool

omit [JsonNumber N] [Zero N] [DecidableEq N] in
theorem Plain.ids {x : Message N} (h : Plain x) : getToolCallIds x = [] := by
  have hnone : x.content.blockList.filterMap Block.calledId = [] := by
    refine filterMap_eq_nil_iff.2 fun b hb => ?_
    obtain ⟨value, rfl⟩ := h.blocks b hb
    rfl
  rw [getToolCallIds, hnone, calls, h.toolCalls]
  split <;> rfl

omit [JsonNumber N] [Zero N] [DecidableEq N] in
theorem plain_of_parts {role : Role} (hrole : role ≠ .tool) (parts : List (Json N))
    (fields : List (String × Json N)) :
    Plain { role, content := partsContent parts, fields } :=
  ⟨blocks_partsContent parts, rfl, hrole⟩

omit [JsonNumber N] [Zero N] [DecidableEq N] in
theorem plain_of_text {role : Role} (hrole : role ≠ .tool) (text : String)
    (fields : List (String × Json N)) : Plain { role, content := .text text, fields } :=
  ⟨fun b hb => (by cases hb), rfl, hrole⟩

theorem convertedRole_ne_tool (role : Role) : convertedRole role ≠ .tool := by
  cases role <;> exact fun h => by cases h

/-- A message that carries the calls of another. -/
structure Calling (m x : Message N) : Prop where
  blocks : ∀ b ∈ x.content.blockList, ∃ value, b = .other value
  role : x.role = .assistant
  toolCalls : x.toolCalls = some (m.content.blockList.filterMap callOf)

/-- A message with results becomes its responses and a plain message. -/
theorem convert_of_results (h : m.content.blockList.filterMap responseOf ≠ []) :
    ∃ others, convertClaudeMessage preserve m = m.content.blockList.filterMap responseOf ++ others ∧
      ∀ x ∈ others, Plain x := by
  obtain ⟨role, content, toolCalls, toolCallId, fields⟩ := m
  cases content with
  | absent => exact absurd rfl h
  | text text => exact absurd rfl h
  | blocks bs =>
    have hresults := (foldl_collect preserve bs {}).1
    rw [show ({} : Collected N).toolResults = [] from rfl, nil_append] at hresults
    simp only [Content.blockList] at h ⊢
    refine ⟨_, (if_pos (by rwa [hresults])).trans (congrArg (· ++ _) hresults), fun x hx => ?_⟩
    split at hx
    · obtain rfl := mem_singleton.1 hx
      exact plain_of_parts (by decide) _ _
    · cases hx

/-- A message without results becomes the message with its calls, or plain messages. -/
theorem convert_of_no_results (h : m.content.blockList.filterMap responseOf = []) :
    (m.content.blockList.filterMap callOf ≠ [] ∧
        ∃ x, convertClaudeMessage preserve m = [x] ∧ Calling m x) ∨
      (m.content.blockList.filterMap callOf = [] ∧
        ∀ x ∈ convertClaudeMessage preserve m, Plain x) := by
  obtain ⟨role, content, toolCalls, toolCallId, fields⟩ := m
  have hrole := convertedRole_ne_tool role
  cases content with
  | absent => exact .inr ⟨rfl, fun x hx => (by cases hx)⟩
  | text text =>
    refine .inr ⟨rfl, fun x hx => ?_⟩
    obtain rfl := mem_singleton.1 hx
    exact plain_of_text hrole text []
  | blocks bs =>
    obtain ⟨hresults, hcalls⟩ := foldl_collect preserve bs {}
    rw [show ({} : Collected N).toolResults = [] from rfl, nil_append] at hresults
    rw [show ({} : Collected N).toolCalls = [] from rfl, nil_append] at hcalls
    simp only [Content.blockList] at h ⊢
    rw [h] at hresults
    have hskip : ∀ {l l' : List (Message N)},
        (if (bs.foldl (collect preserve) {}).toolResults ≠ [] then l else l') = l' :=
      fun {_ _} => if_neg (not_not_intro hresults)
    by_cases hnil : bs.filterMap callOf = []
    · refine .inr ⟨hnil, fun x hx => ?_⟩
      rw [hnil] at hcalls
      have hx : x ∈ convertCollected (convertedRole role) bs.isEmpty
        (bs.foldl (collect preserve) {}) := hx
      rw [convertCollected, hskip, if_neg (not_not_intro hcalls)] at hx
      split at hx
      · obtain rfl := mem_singleton.1 hx
        exact plain_of_parts hrole _ _
      · split at hx
        · obtain rfl := mem_singleton.1 hx
          exact plain_of_text hrole _ _
        · cases hx
    · refine .inl ⟨hnil, _, hskip.trans (if_pos (by rwa [hcalls])), ?_⟩
      exact ⟨blocks_partsContent _, rfl, congrArg some hcalls⟩

theorem Plain.chatMessage {x : Message N} (h : Plain x) : ChatMessage x where
  blocks := Plain.not_tool_block h.blocks
  ids _ tc htc := by
    rw [calls, h.toolCalls] at htc
    cases htc
  typed := by
    obtain ⟨role, content, toolCalls, toolCallId, fields⟩ := x
    obtain rfl : toolCalls = none := h.toolCalls
    exact ite_self _
  response hrole := absurd hrole h.role

theorem calledId_eq (bs : List (Block N)) :
    (bs.filterMap callOf).filterMap (fun tc => truthyId tc.id) = bs.filterMap Block.calledId := by
  rw [filterMap_filterMap]
  refine filterMap_congr fun b _ => ?_
  cases b <;> rfl

section Message

variable {known : List String} {m : Message N}

section

variable (h : ClaudeMessage known m)
include h

omit [JsonNumber N] [Zero N] [DecidableEq N] in
theorem ClaudeMessage.ids_eq : getToolCallIds m = m.content.blockList.filterMap Block.calledId := by
  by_cases hrole : m.role = .assistant
  · rw [getToolCallIds, if_pos hrole, calls, h.toolCalls]
    rfl
  · rw [getToolCallIds_of_ne_assistant hrole]
    refine (filterMap_eq_nil_iff.2 fun b hb => ?_).symm
    have huse := h.uses hrole b hb
    cases b with
    | toolUse id fields => cases huse
    | _ => rfl

theorem ClaudeMessage.user_of_results
    (hresults : m.content.blockList.filterMap responseOf ≠ []) : m.role = .user := by
  by_contra hrole
  refine hresults (filterMap_eq_nil_iff.2 fun b hb => ?_)
  have hresult := h.results hrole b hb
  cases b with
  | toolUse id fields => rfl
  | toolResult id fields => cases hresult
  | other value => rfl

/-- The conversion keeps the calls. -/
theorem calls_convert :
    (convertClaudeMessage preserve m).flatMap getToolCallIds = getToolCallIds m := by
  by_cases hresults : m.content.blockList.filterMap responseOf = []
  · rcases convert_of_no_results preserve hresults with ⟨-, x, hx, hcalling⟩ | ⟨hnil, hplain⟩
    · have hblocks : x.content.blockList.filterMap Block.calledId = [] := by
        refine filterMap_eq_nil_iff.2 fun b hb => ?_
        obtain ⟨value, rfl⟩ := hcalling.blocks b hb
        rfl
      rw [hx, flatMap_singleton, getToolCallIds, if_pos hcalling.role, hblocks, calls,
        hcalling.toolCalls, getD_some, calledId_eq, append_nil, h.ids_eq]
    · rw [h.ids_eq, ← calledId_eq, hnil]
      exact flatMap_eq_nil_iff.2 fun x hx => (hplain x hx).ids
  · obtain ⟨others, hconvert, hplain⟩ := convert_of_results preserve hresults
    have huser := h.user_of_results hresults
    rw [getToolCallIds_of_ne_assistant (by rw [huser]; decide), hconvert]
    refine flatMap_eq_nil_iff.2 fun x hx => ?_
    rcases mem_append.1 hx with hx | hx
    · obtain ⟨b, -, hb⟩ := mem_filterMap.1 hx
      cases b with
      | toolResult id fields =>
        cases hb
        rfl
      | _ => cases hb
    · exact (hplain x hx).ids

/-- A converted message is a complete chat message. -/
theorem chatMessage_convert (hknown : ∀ c ∈ known, isBlank c = false) :
    ∀ x ∈ convertClaudeMessage preserve m, ChatMessage x := by
  intro x hx
  by_cases hresults : m.content.blockList.filterMap responseOf = []
  · rcases convert_of_no_results preserve hresults with ⟨huses, y, hy, hcalling⟩ | ⟨-, hplain⟩
    · rw [hy, mem_singleton] at hx
      subst hx
      have hassistant : m.role = .assistant := by
        by_contra hrole
        refine huses (filterMap_eq_nil_iff.2 fun b hb => ?_)
        have huse := h.uses hrole b hb
        cases b with
        | toolUse id fields => cases huse
        | _ => rfl
      refine ⟨Plain.not_tool_block hcalling.blocks, fun _ tc htc => ?_, ?_, fun hrole => ?_⟩
      · rw [calls, hcalling.toolCalls, getD_some] at htc
        obtain ⟨b, hb, hcall⟩ := mem_filterMap.1 htc
        cases b with
        | toolUse id fields =>
          cases hcall
          refine h.ids id ?_
          rw [rawCallIds, if_pos hassistant]
          exact mem_append_right _ (mem_filterMap.2 ⟨_, hb, rfl⟩)
        | _ => cases hcall
      · obtain ⟨role, content, toolCalls, toolCallId, fields⟩ := x
        obtain rfl : toolCalls = some (m.content.blockList.filterMap callOf) := hcalling.toolCalls
        have htyped : (m.content.blockList.filterMap callOf).map ToolCall.withType =
            m.content.blockList.filterMap callOf := by
          refine (map_congr_left fun tc htc => ?_).trans (map_id _)
          obtain ⟨b, -, hcall⟩ := mem_filterMap.1 htc
          cases b with
          | toolUse id fields =>
            cases hcall
            rfl
          | _ => cases hcall
        rw [withTypedCalls, if_pos hcalling.role, map_some, htyped]
      · rw [hcalling.role] at hrole
        cases hrole
    · exact (hplain x hx).chatMessage
  · obtain ⟨others, hconvert, hplain⟩ := convert_of_results preserve hresults
    rw [hconvert] at hx
    rcases mem_append.1 hx with hx | hx
    · obtain ⟨b, hb, hresponse⟩ := mem_filterMap.1 hx
      cases b with
      | toolResult id fields =>
        cases hresponse
        obtain ⟨c, hc, hid⟩ := h.answers _ hb rfl
        refine ⟨fun b hb => (by cases hb), fun hrole => (by cases hrole), rfl, fun _ => ?_⟩
        obtain ⟨rfl, -⟩ := truthyId_eq_some.1 hid
        exact hknown c hc
      | _ => cases hresponse
    · exact (hplain x hx).chatMessage

end

/-! ## The response to a call -/

omit [JsonNumber N] [Zero N] [DecidableEq N] in
theorem responseTo_plain {l : List (Message N)} (h : ∀ x ∈ l, Plain x) (c : String) :
    responseTo l c = none := by
  refine find?_eq_none.2 fun x hx hresponse => (h x hx).role ?_
  rw [Bool.and_eq_true] at hresponse
  exact of_decide_eq_true hresponse.1

/-- The response to a call among the messages that a message becomes. -/
theorem responseTo_convert (m : Message N) {c : String} (hc : c ≠ "") :
    responseTo (convertClaudeMessage preserve m) c =
      (m.content.blockList.findSome? (textFor c)).map (toolMessage (some c)) := by
  have hresponses : ∀ bs : List (Block N), responseTo (bs.filterMap responseOf) c =
      (bs.findSome? (textFor c)).map (toolMessage (some c)) := by
    intro bs
    induction bs with
    | nil => rfl
    | cons b bs ih =>
      cases b with
      | toolUse id fields => exact ih
      | other value => exact ih
      | toolResult id fields =>
        show ((toolMessage id (resultContent fields)) :: bs.filterMap responseOf).find? _ =
          (findSome? (textFor c) (Block.toolResult id fields :: bs)).map _
        rw [findSome?_cons, textFor]
        by_cases hid : id = some c
        · rw [if_pos hid, find?_cons_of_pos (by simp [toolMessage, hid]), hid]
          rfl
        · have hne : id.getD "" ≠ c := by
            cases id with
            | none => exact fun h => hc h.symm
            | some id => exact fun h => hid (congrArg some h)
          rw [if_neg hid, find?_cons_of_neg (by simp [toolMessage, hne])]
          exact ih
  by_cases hresults : m.content.blockList.filterMap responseOf = []
  · have hnone := hresponses m.content.blockList
    rw [hresults] at hnone
    rw [← hnone]
    rcases convert_of_no_results preserve hresults with ⟨-, x, hx, hcalling⟩ | ⟨-, hall⟩
    · rw [hx]
      exact find?_cons_of_neg (by simp [hcalling.role])
    · exact responseTo_plain hall c
  · obtain ⟨others, hconvert, hall⟩ := convert_of_results preserve hresults
    rw [hconvert, responseTo, find?_append]
    have hothers := responseTo_plain hall c
    rw [responseTo] at hothers
    rw [hothers, or_none]
    exact hresponses _

theorem resultText_append (l₁ l₂ : List (Message N)) (c : String) :
    resultText (l₁ ++ l₂) c = (resultText l₁ c).or (resultText l₂ c) := by
  rw [resultText, flatMap_append, findSome?_append]
  rfl

theorem resultText_cons (m : Message N) (l : List (Message N)) (c : String) :
    resultText (m :: l) c = (m.content.blockList.findSome? (textFor c)).or (resultText l c) := by
  rw [resultText, flatMap_cons, findSome?_append]
  rfl

omit [JsonNumber N] in
theorem plain_systemMessages (system : Json N) : ∀ x ∈ systemMessages preserve system, Plain x := by
  intro x hx
  rw [systemMessages] at hx
  split at hx
  · split at hx
    · obtain rfl := mem_singleton.1 hx
      refine ⟨fun b hb => ?_, rfl, fun hrole => by cases hrole⟩
      obtain ⟨value, -, rfl⟩ := mem_map.1 hb
      exact ⟨value, rfl⟩
    · split at hx
      · obtain rfl := mem_singleton.1 hx
        exact plain_of_text (fun hrole => by cases hrole) _ _
      · cases hx
  · cases hx

/-- The response to a call is the first result of it. -/
theorem responseTo_converted (system : Json N) (preserve : Bool) (msgs : List (Message N))
    {c : String} (hc : c ≠ "") :
    responseTo (converted system preserve msgs) c =
      (resultText msgs c).map (toolMessage (some c)) := by
  have hsystem := responseTo_plain (plain_systemMessages preserve system) c
  rw [responseTo] at hsystem
  rw [responseTo, converted, find?_append, hsystem, none_or]
  induction msgs with
  | nil => rfl
  | cons m msgs ih =>
    have hm := responseTo_convert preserve m hc
    rw [responseTo] at hm
    rw [flatMap_cons, find?_append, ih, hm, resultText_cons]
    cases m.content.blockList.findSome? (textFor c) <;> rfl

end Message

/-! ## The first repair -/

section Conversation

variable {msgs : List (Message N)}

omit [JsonNumber N] [Zero N] [DecidableEq N] in
theorem ClaudeConversation.numbered (h : ClaudeConversation msgs) : Numbered msgs where
  blocks := fun m hm => h.results m hm
  distinct := by
    rw [calls_eq_filterMap]
    refine h.distinct.filterMap fun id id' s hid hid' => ?_
    rw [(truthyId_eq_some.1 hid).1, (truthyId_eq_some.1 hid').1]

omit [JsonNumber N] [Zero N] [DecidableEq N] in
theorem ClaudeConversation.blank (h : ClaudeConversation msgs) :
    ∀ c ∈ msgs.flatMap getToolCallIds, isBlank c = false := by
  intro c hc
  obtain ⟨m, hm, hc⟩ := mem_flatMap.1 hc
  exact isBlank_of_mem_calls h.ids m hm c hc

omit [JsonNumber N] [Zero N] [DecidableEq N] in
theorem ClaudeConversation.message (h : ClaudeConversation msgs) (hm : m ∈ msgs) :
    ClaudeMessage (msgs.flatMap getToolCallIds) m where
  toolCalls := h.toolCalls m hm
  uses := h.uses m hm
  results := h.results m hm
  ids id hid := h.ids id (mem_flatMap.2 ⟨m, hm, hid⟩)
  answers b hb hresult := by
    obtain ⟨pre, post, hsplit⟩ := append_of_mem hm
    obtain ⟨c, hc, hid⟩ := h.follows pre m post hsplit b hb hresult
    refine ⟨c, ?_, hid⟩
    rw [hsplit, flatMap_append]
    exact mem_append_left _ hc

omit [JsonNumber N] [Zero N] [DecidableEq N] in
/-- The orphan filter has nothing to do: the first repair only inserts. -/
theorem firstRepair_eq (h : ClaudeConversation msgs) :
    stripOrphanedToolResults (ToolPairing.fixMissingToolResponses msgs) =
      pass (fun m next => m :: inserted m next) msgs none := by
  have hstep := h.numbered.step
  rw [stripOrphaned_fixMissing]
  refine pass_congr fun m t hm => ?_
  have hmem := hm.subset mem_cons_self
  by_cases hrole : m.role = .assistant
  · exact repairStep_assistant (hstep m hmem).1 (hstep m hmem).2 hrole _
  · have hnone : inserted m (t.head?.or none) = [] :=
      if_neg fun hc => hc.1 (getToolCallIds_of_ne_assistant hrole)
    have htool : m.role ≠ .tool := fun htool => by
      rcases h.roles m hmem with hm | hm | hm <;> rw [hm] at htool <;> cases htool
    rw [repairStep_of_ne_assistant hrole, hnone,
      stripMessage_of_known (fun h => absurd h htool) fun b hb => ?_]
    · rfl
    · cases b with
      | toolUse id fields => rfl
      | other value => rfl
      | toolResult id fields =>
        obtain ⟨c, hc, hid⟩ := (h.message hmem).answers _ hb rfl
        obtain ⟨rfl, -⟩ := truthyId_eq_some.1 hid
        exact (any_some).trans (contains_iff_mem.2 hc)

/-- The messages after the first repair. -/
def repairedOnce (msgs : List (Message N)) : List (Message N) :=
  pass (fun m next => m :: inserted m next) msgs none

section

variable (h : ClaudeConversation msgs)
include h

omit [JsonNumber N] [Zero N] [DecidableEq N] in
theorem message_repairedOnce :
    ∀ m ∈ repairedOnce msgs, ClaudeMessage (msgs.flatMap getToolCallIds) m := by
  intro m hm
  obtain ⟨a, t, ha, hm⟩ := mem_pass _ hm
  have hmem := ha.subset mem_cons_self
  rcases mem_cons.1 hm with rfl | hm
  · exact h.message hmem
  · rcases inserted_eq (h.toolCalls a hmem) (t.head?.or none) with hnil | hone
    · rw [hnil] at hm
      cases hm
    · rw [hone, mem_singleton] at hm
      subst hm
      have hblock : ∀ b ∈ (getToolCallIds a).map (emptyResultBlock (N := N)),
          ∃ c ∈ getToolCallIds a, b = emptyResultBlock c := fun b hb => by
        obtain ⟨c, hc, rfl⟩ := mem_map.1 hb
        exact ⟨c, hc, rfl⟩
      refine ⟨rfl, fun _ b hb => ?_, fun hrole => absurd rfl hrole, fun id hid => ?_,
        fun b hb _ => ?_⟩
      · obtain ⟨c, -, rfl⟩ := hblock b hb
        rfl
      · cases hid
      · obtain ⟨c, hc, rfl⟩ := hblock b hb
        exact ⟨c, mem_flatMap.2 ⟨a, hmem, hc⟩, truthyId_some (ne_empty_of_mem_getToolCallIds hc)⟩

omit h in
omit [JsonNumber N] [Zero N] [DecidableEq N] in
theorem calls_repairedOnce (msgs : List (Message N)) :
    (repairedOnce msgs).flatMap getToolCallIds = msgs.flatMap getToolCallIds := by
  rw [repairedOnce, flatMap_pass]
  refine pass_eq_flatMap _ fun m _ next => ?_
  rw [flatMap_cons, getToolCallIds_inserted, append_nil]

theorem calls_converted (system : Json N) (preserve : Bool) :
    (converted system preserve (repairedOnce msgs)).flatMap getToolCallIds =
      msgs.flatMap getToolCallIds := by
  have hsystem : (systemMessages preserve system).flatMap getToolCallIds = [] :=
    flatMap_eq_nil_iff.2 fun x hx => (plain_systemMessages preserve system x hx).ids
  rw [converted, flatMap_append, hsystem, nil_append, flatMap_assoc, ← calls_repairedOnce msgs]
  exact flatMap_congr fun m hm => calls_convert preserve (message_repairedOnce h m hm)

theorem chatMessages_converted (system : Json N) (preserve : Bool) :
    ChatMessages (converted system preserve (repairedOnce msgs)) := by
  refine ⟨fun x hx => ?_, ?_⟩
  · rcases mem_append.1 hx with hx | hx
    · exact (plain_systemMessages preserve system x hx).chatMessage
    · obtain ⟨m, hm, hx⟩ := mem_flatMap.1 hx
      exact chatMessage_convert preserve (message_repairedOnce h m hm) h.blank x hx
  · rw [calls_converted h]
    exact h.numbered.distinct

omit h in
/-- An inserted message has an empty result for every call of its turn. -/
theorem findSome?_emptyResultBlock (ids : List String) (c : String) :
    (ids.map (emptyResultBlock (N := N))).findSome? (textFor c) =
      if c ∈ ids then some "" else none := by
  induction ids with
  | nil => rfl
  | cons id ids ih =>
    rw [map_cons, findSome?_cons]
    by_cases hid : id = c
    · subst hid
      rw [emptyResultBlock, textFor, if_pos rfl, if_pos mem_cons_self]
      rfl
    · have hne : ¬some id = some c := fun h => hid (some.inj h)
      rw [emptyResultBlock, textFor, if_neg hne, ih]
      simp [Ne.symm hid]

omit h in
theorem resultText_inserted (hcalls : a.toolCalls = none) (next : Option (Message N)) (c : String) :
    resultText (inserted a next) c =
      if inserted a next ≠ [] ∧ c ∈ getToolCallIds a then some "" else none := by
  rcases inserted_eq hcalls next with hnil | hone
  · rw [hnil]
    rfl
  · rw [hone, resultText, flatMap_singleton, Content.blockList, findSome?_emptyResultBlock]
    by_cases hc : c ∈ getToolCallIds a
    · rw [if_pos hc, if_pos ⟨cons_ne_nil _ _, hc⟩]
    · rw [if_neg hc, if_neg fun hand => hc hand.2]

omit h in
/-- Turns that did not make a call have no say in its results. -/
theorem resultText_pass {l : List (Message N)} (hl : ∀ m ∈ l, m.toolCalls = none) {c : String}
    (hc : c ∉ l.flatMap getToolCallIds) (z : Option (Message N)) :
    resultText (pass (fun m next => m :: inserted m next) l z) c = resultText l c := by
  induction l with
  | nil => rfl
  | cons m l ih =>
    rw [flatMap_cons, mem_append, not_or] at hc
    rw [pass_cons, cons_append, resultText_cons, resultText_append,
      resultText_inserted (hl m mem_cons_self), if_neg fun hand => hc.1 hand.2, none_or,
      ih (fun x hx => hl x (.tail _ hx)) hc.2, resultText_cons m l]

/-- A result before its call is none. -/
theorem resultText_before {pre rest : List (Message N)}
    (hsplit : msgs = pre ++ a :: rest) {c : String} (hc : c ∈ getToolCallIds a) :
    resultText (pre ++ [a]) c = none := by
  have hdistinct := h.numbered.distinct
  rw [hsplit, flatMap_append, flatMap_cons] at hdistinct
  refine findSome?_eq_none_iff.2 fun b hb => ?_
  obtain ⟨m, hm, hblock⟩ := mem_flatMap.1 hb
  cases b with
  | toolUse id fields => rfl
  | other value => rfl
  | toolResult id fields =>
    refine if_neg fun hid => ?_
    subst hid
    rcases mem_append.1 hm with hm | hm
    · obtain ⟨pre', post, hpre⟩ := append_of_mem hm
      obtain ⟨c', hc', hid⟩ := h.follows pre' m (post ++ a :: rest)
        (by rw [hsplit, hpre, append_assoc]; rfl) _ hblock rfl
      obtain ⟨hid, -⟩ := truthyId_eq_some.1 hid
      cases hid
      refine (nodup_append.1 hdistinct).2.2 c ?_ c (mem_append_left _ hc) rfl
      rw [hpre, flatMap_append]
      exact mem_append_left _ hc'
    · obtain rfl := mem_singleton.1 hm
      have hrole := role_of_mem_getToolCallIds hc
      have hresult := h.results m (by simp [hsplit]) (by rw [hrole]; decide) _ hblock
      cases hresult

/-- After the first repair an empty result comes first where one was inserted. -/
theorem resultText_repairedOnce {pre rest : List (Message N)}
    (hsplit : msgs = pre ++ a :: rest) {c : String} (hc : c ∈ getToolCallIds a) :
    resultText (repairedOnce msgs) c =
      if inserted a rest.head? ≠ [] then some "" else resultText msgs c := by
  have hcalls := h.toolCalls
  have hdistinct := h.numbered.distinct
  have hbefore := resultText_before h hsplit hc
  rw [hsplit, flatMap_append, flatMap_cons] at hdistinct
  have hpre : c ∉ pre.flatMap getToolCallIds := fun hmem =>
    (nodup_append.1 hdistinct).2.2 c hmem c (mem_append_left _ hc) rfl
  have hrest : c ∉ rest.flatMap getToolCallIds := fun hmem =>
    (nodup_append.1 (nodup_append.1 hdistinct).2.1).2.2 c hc c hmem rfl
  rw [resultText_append, or_eq_none_iff] at hbefore
  obtain ⟨hnone, ha⟩ := hbefore
  rw [resultText_cons, or_eq_none_iff] at ha
  rw [repairedOnce, hsplit, pass_append, pass_cons, cons_append,
    resultText_append, resultText_pass (fun m hm => hcalls m (by simp [hsplit, hm])) hpre,
    resultText_cons, resultText_append,
    resultText_pass (fun m hm => hcalls m (by simp [hsplit, hm])) hrest, or_none,
    resultText_inserted (hcalls a (by simp [hsplit])), resultText_append, resultText_cons, hnone,
    ha.1, none_or, none_or, none_or, none_or]
  by_cases hins : inserted a rest.head? ≠ []
  · rw [if_pos ⟨hins, hc⟩, if_pos hins]
    rfl
  · rw [if_neg fun hand => hins hand.1, if_neg hins, none_or]

end

end Conversation

/-! ## The last repair -/

theorem ChatMessage.rawCallIds_eq (h : ChatMessage m)
    (hrole : m.role = .assistant) : rawCallIds m = m.calls.map fun tc => tc.id := by
  rw [rawCallIds, if_pos hrole]
  refine (congrArg _ (filterMap_eq_nil_iff.2 fun b hb => ?_)).trans (append_nil _)
  have huse := (h.blocks b hb).1
  cases b with
  | toolUse id fields => cases huse
  | _ => rfl

/-- Complete chat messages whose turns are answered are left as they are. -/
theorem repair_eq_self (source : IdSource) {msgs : List (Message N)}
    (heach : ∀ m ∈ msgs, ChatMessage m)
    (hresponses : ∀ m ∈ msgs, m.role = .tool →
      ∃ c ∈ msgs.flatMap getToolCallIds, m.toolCallId = some c)
    (hanswered : ∀ a t, a :: t <:+ msgs → getToolCallIds a ≠ [] →
      hasToolResults t.head? (getToolCallIds a) = true) : repair source msgs = msgs := by
  have hids : ∀ id ∈ msgs.flatMap rawCallIds, missingId id = false := by
    intro id hid
    obtain ⟨m, hm, hid⟩ := mem_flatMap.1 hid
    by_cases hrole : m.role = .assistant
    · rw [(heach m hm).rawCallIds_eq hrole] at hid
      obtain ⟨tc, htc, rfl⟩ := mem_map.1 hid
      exact (heach m hm).ids hrole tc htc
    · rw [rawCallIds, if_neg hrole] at hid
      cases hid
  have hensure : ensureToolCallIds false source msgs = msgs := by
    rw [ensureToolCallIds_eq source hids, linked_eq_self fun m hm => (heach m hm).response]
    exact (map_congr_left fun m hm => (heach m hm).typed).trans (map_id _)
  rw [repair, hensure, stripOrphaned_fixMissing]
  refine pass_eq_self fun m t hm => ?_
  have hmem := hm.subset mem_cons_self
  have hblocks := (heach m hmem).blocks
  rw [or_none]
  by_cases hrole : m.role = .assistant
  · have hins : inserted m t.head? = [] := by
      by_cases hcalls : getToolCallIds m = []
      · exact if_neg fun hc => hc.1 hcalls
      · exact inserted_of_answered (hanswered m t hm hcalls)
    rw [repairStep_assistant (fun _ b hb => (hblocks b hb).2)
      (fun c hc => mem_flatMap.2 ⟨m, hmem, hc⟩) hrole, hins]
  · rw [repairStep_of_ne_assistant hrole]
    by_cases htool : m.role = .tool
    · obtain ⟨c, hc, hid⟩ := hresponses m hmem htool
      have hne : c ≠ "" := by
        obtain ⟨a, -, hca⟩ := mem_flatMap.1 hc
        exact ne_empty_of_mem_getToolCallIds hca
      rw [stripMessage_tool htool (truthyId_eq_some.2 ⟨hid, hne⟩), if_pos (contains_iff_mem.2 hc)]
      rfl
    · rw [stripMessage_of_known (fun h => absurd h htool) fun b hb =>
        Block.isKnown_of_not_result (hblocks b hb).2 _]
      rfl

/-! ## The turns of the result -/

section Turns

variable {messages l : List (Message N)}

omit [JsonNumber N] [Zero N] [DecidableEq N] in
theorem responsesAfter_turn (hl : ∀ m ∈ l, m.role ≠ .tool) (a : Message N) :
    responsesAfter ((answered messages a ++ placeholders messages a) ++
      l.flatMap (turn messages)) = answered messages a ++ placeholders messages a := by
  rw [responsesAfter, takeWhile_append_of_pos fun r hr =>
      decide_eq_true (response_of_mem hr).1,
    takeWhile_turns hl fun m hm => of_decide_eq_true hm, append_nil]

theorem repair_turns (source : IdSource) (hmessages : ChatMessages messages)
    (hl : ∀ m ∈ l, m.role ≠ .tool ∧ ChatMessage m) :
    repair source (l.flatMap (turn messages)) = l.flatMap (turn messages) := by
  have hmem : ∀ x ∈ l.flatMap (turn messages), x ∈ l ∨
      ∃ m ∈ l, x ∈ answered messages m ++ placeholders messages m := by
    intro x hx
    obtain ⟨m, hm, hx⟩ := mem_flatMap.1 hx
    rcases mem_cons.1 hx with rfl | hx
    · exact .inl hm
    · exact .inr ⟨m, hm, hx⟩
  refine repair_eq_self source (fun x hx => ?_) (fun x hx htool => ?_) fun a t ha hcalls => ?_
  · rcases hmem x hx with hx | ⟨m, hm, hx⟩
    · exact (hl x hx).2
    · rcases mem_append.1 hx with hx | hx
      · obtain ⟨c, hc, hresponse, -, -⟩ := mem_answered hx
        exact hmessages.each x (responseTo_spec hresponse (ne_empty_of_mem_getToolCallIds hc)).1
      · obtain ⟨c, hc, -, rfl⟩ := mem_placeholders hx
        refine ⟨fun b hb => (by cases hb), fun hrole => (by cases hrole), rfl, fun _ => ?_⟩
        have hrole := role_of_mem_getToolCallIds hc
        have hraw : some c ∈ rawCallIds m := by
          rw [getToolCallIds_eq, mem_filterMap] at hc
          obtain ⟨id, hid, hc⟩ := hc
          obtain ⟨rfl, -⟩ := truthyId_eq_some.1 hc
          exact hid
        rw [(hl m hm).2.rawCallIds_eq hrole] at hraw
        obtain ⟨tc, htc, hid⟩ := mem_map.1 hraw
        have hmissing := (hl m hm).2.ids hrole tc htc
        rwa [hid] at hmissing
  · rcases hmem x hx with hx | ⟨m, hm, hx⟩
    · exact absurd htool (hl x hx).1
    · obtain ⟨-, c, hc, hid⟩ := response_of_mem hx
      rw [calls_turns]
      exact ⟨c, mem_flatMap.2 ⟨m, hm, hc⟩, hid⟩
  · obtain ⟨c, hc⟩ := exists_mem_of_ne_nil _ hcalls
    have hrole : a.role ≠ .tool := by
      rw [role_of_mem_getToolCallIds hc]
      decide
    obtain ⟨t', -, rfl⟩ := suffix_turns hrole ha
    cases hresponses : answered messages a ++ placeholders messages a with
    | nil =>
      have hperm := ids_of_turn messages a
      rw [hresponses, map_nil, nil_perm, map_eq_nil_iff] at hperm
      exact absurd hperm hcalls
    | cons r rs =>
      have hr : r ∈ answered messages a ++ placeholders messages a := by simp [hresponses]
      obtain ⟨hrole, c, hc, hid⟩ := response_of_mem hr
      rw [cons_append, head?_cons, hasToolResults_iff]
      refine ⟨c, hc, mem_resultIds.2 ⟨r, mem_cons_self, .message r, ?_, ?_⟩⟩
      · rw [results, if_pos hrole]
        exact mem_cons_self
      · exact truthyId_eq_some.2 ⟨hid, ne_empty_of_mem_getToolCallIds hc⟩

omit [JsonNumber N] [Zero N] [DecidableEq N] in
/-- The user turn at the end is a turn of its own. -/
theorem withUserTurn_eq (ensureUserTurn : Bool) (messages l : List (Message N)) :
    ∃ extra : List (Message N), (∀ x ∈ extra, Plain x) ∧
      withUserTurn ensureUserTurn (l.flatMap (turn messages)) =
        (l ++ extra).flatMap (turn messages) := by
  rw [withUserTurn]
  by_cases hadd : (ensureUserTurn && !(l.flatMap (turn messages)).any fun msg =>
      decide (msg.role = .user)) = true
  · refine ⟨[{ role := .user, content := .text "(continue)" }], fun x hx => ?_, ?_⟩
    · obtain rfl := mem_singleton.1 hx
      exact plain_of_text (fun hrole => by cases hrole) _ _
    · rw [if_pos hadd, flatMap_append]
      rfl
  · refine ⟨[], fun x hx => (by cases hx), ?_⟩
    rw [if_neg hadd, append_nil]

end Turns

/-! ## The request -/

section Main

variable {msgs : List (Message N)}

/-- What becomes of a conversation: every message that is no response, with its turn. -/
theorem translateRequest_eq (source : IdSource) (system : Json N) (preserve ensureUserTurn : Bool)
    (h : ClaudeConversation msgs) :
    ∃ l : List (Message N), (∀ m ∈ l, m.role ≠ .tool) ∧
      l.flatMap getToolCallIds = msgs.flatMap getToolCallIds ∧
      (∀ m ∈ l, m ∈ converted system preserve (repairedOnce msgs) ∨ Plain m) ∧
      translateRequest source system preserve ensureUserTurn msgs =
        l.flatMap (turn (converted system preserve (repairedOnce msgs))) := by
  set messages := converted system preserve (repairedOnce msgs)
  have hchat := chatMessages_converted h system preserve
  have hcalls : messages.flatMap getToolCallIds = _ := calls_converted h system preserve
  obtain ⟨extra, hextra, huser⟩ := withUserTurn_eq ensureUserTurn messages
    (messages.filter fun m => decide (m.role ≠ .tool))
  have htool : ∀ m ∈ (messages.filter fun m => decide (m.role ≠ .tool)) ++ extra,
      m.role ≠ .tool ∧ ChatMessage m := by
    intro m hm
    rcases mem_append.1 hm with hm | hm
    · obtain ⟨hm, hrole⟩ := mem_filter.1 hm
      exact ⟨of_decide_eq_true hrole, hchat.each m hm⟩
    · exact ⟨(hextra m hm).role, (hextra m hm).chatMessage⟩
  refine ⟨_, fun m hm => (htool m hm).1, ?_, fun m hm => ?_, ?_⟩
  · rw [flatMap_append, flatMap_eq_nil_iff.2 fun x hx => (hextra x hx).ids, append_nil, ← hcalls]
    clear_value messages
    clear hchat huser htool hcalls
    induction messages with
    | nil => rfl
    | cons m ms ih =>
      by_cases hrole : m.role = .tool
      · rw [filter_cons_of_neg (by simp [hrole]), flatMap_cons, ih,
          getToolCallIds_of_ne_assistant (by rw [hrole]; decide), nil_append]
      · rw [filter_cons_of_pos (by simp [hrole]), flatMap_cons, flatMap_cons, ih]
  · rcases mem_append.1 hm with hm | hm
    · exact .inl (mem_filter.1 hm).1
    · exact .inr (hextra m hm)
  · rw [translateRequest, firstRepair_eq h]
    show repair source (withUserTurn ensureUserTurn
      (fixMissingToolResponses (regroupToolMessages messages))) = _
    rw [claudeToOpenAI_eq hchat, huser, repair_turns source hchat htool]

/-- The response to a call after the first repair. -/
theorem responseTo_call (h : ClaudeConversation msgs) (system : Json N) (preserve : Bool)
    {pre rest : List (Message N)} (hsplit : msgs = pre ++ a :: rest) {c : String}
    (hc : c ∈ getToolCallIds a) :
    responseTo (converted system preserve (repairedOnce msgs)) c =
      (if inserted a rest.head? ≠ [] then some "" else resultText msgs c).map
        (toolMessage (some c)) := by
  rw [responseTo_converted system preserve _ (ne_empty_of_mem_getToolCallIds hc),
    resultText_repairedOnce h hsplit hc]

omit [JsonNumber N] [Zero N] [DecidableEq N] in
/-- The message with a call in the result. -/
theorem exists_turn {messages l : List (Message N)}
    (hcalls : l.flatMap getToolCallIds = msgs.flatMap getToolCallIds)
    (htool : ∀ m ∈ l, m.role ≠ .tool) {c : String} (hc : c ∈ msgs.flatMap getToolCallIds) :
    ∃ x ∈ l, c ∈ getToolCallIds x ∧ ∃ rest, x :: rest <:+ l.flatMap (turn messages) ∧
      responsesAfter rest = answered messages x ++ placeholders messages x := by
  rw [← hcalls] at hc
  obtain ⟨x, hx, hcx⟩ := mem_flatMap.1 hc
  obtain ⟨before, after, hsplit⟩ := append_of_mem hx
  refine ⟨x, hx, hcx, (answered messages x ++ placeholders messages x) ++
    after.flatMap (turn messages), ?_, ?_⟩
  · rw [hsplit, flatMap_append, flatMap_cons]
    exact ⟨_, rfl⟩
  · exact responsesAfter_turn (fun m hm => htool m (by simp [hsplit, hm])) x

/-- An inserted result takes the place of every later one that is not empty. -/
theorem prompt_of_texts {messages l : List (Message N)}
    (hcalls : l.flatMap getToolCallIds = msgs.flatMap getToolCallIds)
    (htool : ∀ m ∈ l, m.role ≠ .tool) (hl : ∀ m ∈ l, getToolCallIds m ≠ [] → m.calls ≠ [])
    (hresponse : ∀ {pre rest : List (Message N)} {a : Message N}, msgs = pre ++ a :: rest →
      ∀ {c : String}, c ∈ getToolCallIds a → responseTo messages c =
        (if inserted a rest.head? ≠ [] then some "" else resultText msgs c).map
          (toolMessage (some c)))
    (hkeeps : KeepsResults msgs (l.flatMap (turn messages))) : Prompt msgs := by
  intro a next rest hsuffix hnext c hc text htext
  obtain ⟨pre, hsplit⟩ := hsuffix
  have hins : inserted a (next :: rest).head? ≠ [] := fun hnil => by
    have hids := @resultIds_inserted _ a (some next) ⟨rfl, hnext⟩
    rw [head?_cons] at hnil
    rw [hnil] at hids
    exact ne_nil_of_mem hc (map_eq_nil_iff.1 hids.symm)
  have hempty := hresponse hsplit.symm hc
  rw [if_pos hins] at hempty
  -- The message with the call is followed by the empty response.
  have hmem : c ∈ msgs.flatMap getToolCallIds :=
    mem_flatMap.2 ⟨a, by simp [← hsplit], hc⟩
  obtain ⟨x, hx, hcx, after, hplace, hafter⟩ := exists_turn hcalls htool hmem
  have hcontent := hkeeps.texts x after hplace (role_of_mem_getToolCallIds hcx)
    (hl x hx (ne_nil_of_mem hcx)) (toolMessage (some c) "") (by
      rw [hafter]
      exact mem_append_left _ (mem_filterMap.2 ⟨c, hcx, hempty⟩)) c rfl text htext
  exact (Content.text.inj hcontent).symm

/-- The response to a call has the client's text if no placeholder came before it. -/
theorem texts_of_prompt {messages : List (Message N)} (hprompt : Prompt msgs)
    (hresponse : ∀ {pre rest : List (Message N)} {a : Message N}, msgs = pre ++ a :: rest →
      ∀ {c : String}, c ∈ getToolCallIds a → responseTo messages c =
        (if inserted a rest.head? ≠ [] then some "" else resultText msgs c).map
          (toolMessage (some c)))
    {c : String} (hc : c ∈ msgs.flatMap getToolCallIds) {a r : Message N}
    (hr : r ∈ answered messages a ++ placeholders messages a) (hid : r.toolCallId = some c)
    {text : String} (htext : resultText msgs c = some text) : r.content = .text text := by
  obtain ⟨b, hb, hcb⟩ := mem_flatMap.1 hc
  obtain ⟨pre, post, hsplit⟩ := append_of_mem hb
  have hfirst : (if inserted b post.head? ≠ [] then some "" else resultText msgs c) =
      some text := by
    by_cases hins : inserted b post.head? ≠ []
    · have hcond := Classical.by_contradiction fun hnot => hins (if_neg hnot)
      cases post with
      | nil => cases hcond.2.1
      | cons next post =>
        rw [if_pos hins, hprompt b next post ⟨pre, hsplit.symm⟩ hcond.2.2 c hcb text htext]
    · rw [if_neg hins, htext]
  have hkept := hresponse hsplit hcb
  rw [hfirst, map_some] at hkept
  rcases mem_append.1 hr with hr | hr
  · obtain ⟨c', -, hr, -, hid'⟩ := mem_answered hr
    obtain rfl := some.inj (hid'.symm.trans hid)
    obtain rfl := some.inj (hr.symm.trans hkept)
    rfl
  · obtain ⟨c', -, hnone, rfl⟩ := mem_placeholders hr
    cases hid
    rw [hnone] at hkept
    cases hkept

/-- **Every call keeps the client's result exactly when every turn is answered in part by the next
message, or by empty texts only.** -/
theorem keepsResults_iff (source : IdSource) (system : Json N) (preserveCacheControl : Bool)
    (ensureUserTurn : Bool) (msgs : List (Message N)) (h : ClaudeConversation msgs) :
    KeepsResults msgs (translateRequest source system preserveCacheControl ensureUserTurn msgs) ↔
      Prompt msgs := by
  obtain ⟨l, htool, hcalls, hl, heq⟩ :=
    translateRequest_eq source system preserveCacheControl ensureUserTurn h
  have hchat := chatMessages_converted h system preserveCacheControl
  have hresponse : ∀ {pre rest : List (Message N)} {a : Message N}, msgs = pre ++ a :: rest →
      ∀ {c : String}, c ∈ getToolCallIds a → responseTo (converted system preserveCacheControl
        (repairedOnce msgs)) c =
          (if inserted a rest.head? ≠ [] then some "" else resultText msgs c).map
            (toolMessage (some c)) :=
    fun {_ _ _} hsplit {_} hc => responseTo_call h system preserveCacheControl hsplit hc
  rw [heq]
  generalize converted system preserveCacheControl (repairedOnce msgs) = messages at *
  constructor
  · refine fun hkeeps => prompt_of_texts hcalls htool (fun x hx hids hnil => hids ?_) hresponse hkeeps
    rcases hl x hx with hmem | hplain
    · by_cases hrole : x.role = .assistant
      · rw [hchat.calls_eq hmem hrole, hnil]
        rfl
      · exact getToolCallIds_of_ne_assistant hrole
    · exact hplain.ids
  · intro hprompt
    have hsuffix : ∀ {a : Message N} {rest : List (Message N)},
        a :: rest <:+ l.flatMap (turn messages) → a.role = .assistant →
          a ∈ l ∧ responsesAfter rest = answered messages a ++ placeholders messages a := by
      intro a rest ha hrole
      obtain ⟨t, ht, rfl⟩ := suffix_turns (by rw [hrole]; decide) ha
      exact ⟨ht.subset mem_cons_self,
        responsesAfter_turn (fun m hm => htool m (ht.subset (.tail _ hm))) a⟩
    refine ⟨(calls_turns _ _).trans hcalls, fun a rest ha hrole hne => ?_,
      fun a rest ha hrole hne r hr c hid text htext => ?_⟩
    · obtain ⟨ha, hafter⟩ := hsuffix ha hrole
      rw [hafter]
      rcases hl a ha with hmem | hplain
      · rw [hchat.map_id hmem hrole]
        exact ids_of_turn messages a
      · rw [calls, hplain.toolCalls] at hne
        exact absurd rfl hne
    · obtain ⟨ha, hafter⟩ := hsuffix ha hrole
      rw [hafter] at hr
      obtain ⟨-, c', hc, hid'⟩ := response_of_mem hr
      obtain rfl := some.inj (hid'.symm.trans hid)
      refine texts_of_prompt hprompt hresponse ?_ hr hid htext
      rw [← hcalls]
      exact mem_flatMap.2 ⟨a, ha, hc⟩

end Main

/-! ## A result that comes late -/

/-- The client says something before it sends the result. -/
def lateResult : List (Message ℤ) :=
  [{ role := .user, content := .text "What is the answer?" },
    { role := .assistant
      content := .blocks [.toolUse (some "toolu_1") [("name", .str "ask"), ("input", .obj [])]] },
    { role := .user, content := .text "Take your time." },
    { role := .user, content := .blocks [.toolResult (some "toolu_1") [("content", .str "42")]] }]

theorem claudeConversation_lateResult : ClaudeConversation lateResult where
  roles := by decide
  toolCalls := by
    have hnone : ∀ m ∈ lateResult, m.toolCalls.isNone = true := by decide
    exact fun m hm => isNone_iff_eq_none.1 (hnone m hm)
  uses := by decide
  results := by decide
  ids := by decide +kernel
  distinct := by decide +kernel
  follows := by
    intro pre m post hsplit b hb hresult
    have hlength : pre.length < 4 := by
      have hlen := congrArg length hsplit
      rw [length_append] at hlen
      have htotal : lateResult.length = 4 := rfl
      rw [htotal, length_cons] at hlen
      omega
    have hm : lateResult[pre.length]? = some m := by rw [hsplit]; simp
    have hpre : pre = lateResult.take pre.length := by rw [hsplit]; simp
    rw [hpre]
    generalize pre.length = k at hlength hm
    interval_cases k
    · cases hm
      cases hb
    · cases hm
      obtain rfl := mem_singleton.1 hb
      cases hresult
    · cases hm
      cases hb
    · cases hm
      obtain rfl := mem_singleton.1 hb
      exact ⟨"toolu_1", by decide +kernel, by decide +kernel⟩

theorem keepsResults_iff_lateResult :
    KeepsResults lateResult (translateRequest .longer .null false false lateResult) ↔
      Prompt lateResult :=
  keepsResults_iff .longer .null false false lateResult claudeConversation_lateResult

/-- The model is given an empty answer in the place of the client's. -/
theorem lateResult_replaced :
    ClaudeConversation lateResult ∧
      ¬KeepsResults lateResult (translateRequest .longer .null false false lateResult) := by
  refine ⟨claudeConversation_lateResult, fun h => ?_⟩
  have hsplit : translateRequest .longer .null false false lateResult =
      lateResult.take 1 ++
        { role := .assistant
          content := .absent
          toolCalls := some [toToolCall (some "toolu_1") [("name", .str "ask"), ("input", .obj [])]] } ::
        [toolMessage (some "toolu_1") "", { role := .user, content := .text "Take your time." }] := by
    with_unfolding_all rfl
  rw [hsplit] at h
  have hcontent := h.texts _ _ ⟨lateResult.take 1, rfl⟩ rfl (cons_ne_nil _ _)
    (toolMessage (some "toolu_1") "") mem_cons_self "toolu_1" rfl "42" (by decide +kernel)
  exact absurd (Content.text.inj hcontent) (by decide)

end ClaudeToOpenAI

end OmniRoute.ToolPairing
