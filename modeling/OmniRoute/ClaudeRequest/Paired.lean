import OmniRoute.ClaudeRequest.Conversation
import OmniRoute.ClaudeRequest.Marks

/-!
# Calls and results stay paired

The messages of `openaiToClaudeRequest`, from the chat messages to the cache mark on the last message
of the assistant.

**Main result (`openaiToClaudeMessages_paired_iff`).** For a conversation that answers every call
once, each message with calls is followed by exactly their results and every text is kept, if and
only if no two ids are alike once sanitized and no name is blank.
-/

namespace OmniRoute.ClaudeRequest

open ToolPairing List Option

open PrepareClaude (sanitizeToolId sanitizeToolId_ne)

variable {N : Type}

section Source

variable [Zero N] [DecidableEq N] (conv : Conversion N)

/-- The messages of the request, with a user turn if there is none. -/
def openaiToClaudeMessages [JsonNumber N] (msgs : List (Message N)) : List (ClaudeMessage N) :=
  let messages := enforceToolResultAdjacency (buildMessages conv msgs)
  let messages := (markFirstAssistant messages.reverse).reverse
  if messages = [] then [⟨.user, [textBlock (.str ".")]⟩] else messages

/-- Behind every message with calls come their results; calls have distinct ids; every text is kept,
in order. Where nobody says anything, the request may be a text of its own. -/
structure Paired (msgs : List (Message N)) (sent : List (ClaudeMessage N)) : Prop where
  exchanges : ClaudeRequest.exchanges (sent.map unmarked) =
    msgs.filterMap (conversationExchange conv msgs)
  distinct : (((ClaudeRequest.exchanges sent).flatMap Prod.fst).filterMap useId).Nodup
  texts : ClaudeRequest.texts sent = conversationTexts msgs ∨
    conversationTexts msgs = [] ∧ sent = [⟨.user, [textBlock (.str ".")]⟩]

end Source

/-! ## The calls that are sent -/

section Sent

variable [Zero N] [DecidableEq N] (conv : Conversion N)

omit [Zero N] [DecidableEq N] in
theorem unmarkBlock_callBlock (tc : ToolCall N) :
    unmarkBlock (callBlock conv tc) = callBlock conv tc := by
  unfold callBlock optional
  cases tryParseJSON conv (tc.function.bind fun function => function.arguments) <;> rfl

omit [Zero N] [DecidableEq N] in
theorem useId_callBlock {tc : ToolCall N} (h : Named tc) :
    useId (callBlock conv tc) = some (sanitizeToolId (callId tc)) :=
  truthyId_eq_some.2 ⟨rfl, sanitizeToolId_ne h.id⟩

omit [Zero N] [DecidableEq N] in
theorem useIds_callBlocks {tcs : List (ToolCall N)} (h : ∀ tc ∈ tcs, Named tc) :
    (tcs.map (callBlock conv)).filterMap useId =
      tcs.map fun tc => sanitizeToolId (callId tc) := by
  rw [filterMap_map, ← filterMap_eq_map]
  exact filterMap_congr fun tc htc => useId_callBlock conv (h tc htc)

omit [Zero N] [DecidableEq N] in
/-- All calls that are sent. -/
theorem flatten_sentGroups (msgs : List (Message N)) :
    (msgs.filterMap (sentGroup conv)).flatten =
      ((calls msgs).filter fun tc => !isBlank (callName tc)).map (callBlock conv) := by
  rw [calls, filter_flatMap, map_flatMap, filterMap_eq_flatMap_toList,
    flatten_eq_flatMap, flatMap_assoc]
  refine flatMap_congr fun msg _ => ?_
  unfold sentGroup
  by_cases hrole : msg.role = .assistant
  · by_cases hsent : sentCalls msg = []
    · have hfilter : (msg.calls.filter fun tc => !isBlank (callName tc)) = [] := hsent
      rw [if_neg fun hc => hc.2 hsent, if_pos hrole, hfilter]
      rfl
    · rw [if_pos ⟨hrole, hsent⟩, if_pos hrole, toList_some, flatMap_singleton]
      rfl
  · rw [if_neg fun hc => hrole hc.1, if_neg hrole]
    rfl

omit [Zero N] [DecidableEq N] in
/-- All calls that should be sent. -/
theorem flatMap_conversationExchange (msgs : List (Message N)) :
    (msgs.filterMap (conversationExchange conv msgs)).flatMap Prod.fst =
      (calls msgs).map (callBlock conv) := by
  rw [calls, map_flatMap, filterMap_eq_flatMap_toList, flatMap_assoc]
  refine flatMap_congr fun msg _ => ?_
  unfold conversationExchange
  by_cases hrole : msg.role = .assistant
  · by_cases hcalls : msg.calls = []
    · rw [if_neg fun hc => hc.2 hcalls, if_pos hrole, hcalls]
      rfl
    · rw [if_pos ⟨hrole, hcalls⟩, if_pos hrole, toList_some, flatMap_singleton]
  · rw [if_neg fun hc => hrole hc.1, if_neg hrole]
    rfl

variable [JsonNumber N]

/-- What is sent, without the cache mark. -/
theorem unmarked_openaiToClaudeMessages (msgs : List (Message N)) :
    (enforceToolResultAdjacency (buildMessages conv msgs) = [] ∧
        openaiToClaudeMessages conv msgs = [⟨.user, [textBlock (.str ".")]⟩]) ∨
      (openaiToClaudeMessages conv msgs).map unmarked =
        (enforceToolResultAdjacency (buildMessages conv msgs)).map unmarked := by
  unfold openaiToClaudeMessages
  dsimp only
  generalize enforceToolResultAdjacency (buildMessages conv msgs) = ms
  have hmarked : ((markFirstAssistant ms.reverse).reverse).map unmarked = ms.map unmarked := by
    rw [map_reverse, map_unmarked_markFirstAssistant, map_reverse, reverse_reverse]
  split
  · next hnil =>
    rw [hnil] at hmarked
    exact .inl ⟨map_eq_nil_iff.1 hmarked.symm, rfl⟩
  · exact .inr hmarked

/-- The exchanges that are sent are those of the last pass. -/
theorem exchanges_openaiToClaudeMessages (msgs : List (Message N)) :
    exchanges ((openaiToClaudeMessages conv msgs).map unmarked) =
      (exchanges (enforceToolResultAdjacency (buildMessages conv msgs))).map unmarkedExchange := by
  rcases unmarked_openaiToClaudeMessages conv msgs with ⟨hnil, hsent⟩ | hsame
  · rw [hnil, hsent]
    rfl
  · rw [hsame, exchanges_unmarked]

variable {msgs : List (Message N)} (h : Answered msgs)

include h

omit [JsonNumber N] in
theorem merged_buildMessages : Merged (items conv msgs) (buildMessages conv msgs) :=
  merged_mergeItems fun _ hitem => itemSided conv h hitem

/-- The calls of every message that is sent. -/
theorem exchanges_fst_sent :
    (exchanges ((openaiToClaudeMessages conv msgs).map unmarked)).map Prod.fst =
      msgs.filterMap (sentGroup conv) := by
  have hgroups : (buildMessages conv msgs).filterMap group = msgs.filterMap (sentGroup conv) :=
    (merged_buildMessages conv h).groups.trans (groups_items conv h)
  have hfst : ∀ es : List (List (Block N) × Option (List (Block N))),
      (es.map unmarkedExchange).map Prod.fst = (es.map Prod.fst).map (List.map unmarkBlock) := by
    intro es
    rw [List.map_map, List.map_map]
    rfl
  rw [exchanges_openaiToClaudeMessages, hfst, exchanges_fst, groups_enforce, hgroups, map_filterMap]
  refine filterMap_congr fun msg _ => ?_
  unfold sentGroup
  split
  · rw [map_some, List.map_map]
    congr 1
    exact map_congr_left fun tc _ => unmarkBlock_callBlock conv tc
  · rfl

/-- **Paired messages only where no two ids are alike and no name is blank.** -/
theorem Paired.condition (hpaired : Paired conv msgs (openaiToClaudeMessages conv msgs)) :
    ((calls msgs).map fun tc => sanitizeToolId (callId tc)).Nodup ∧
      ∀ tc ∈ calls msgs, isBlank (callName tc) = false := by
  have hcalls :
      (ClaudeRequest.exchanges ((openaiToClaudeMessages conv msgs).map unmarked)).flatMap
          Prod.fst =
      (calls msgs).map (callBlock conv) := by
    rw [hpaired.exchanges, flatMap_conversationExchange]
  constructor
  · have hdistinct := hpaired.distinct
    rw [← exchangeIds_unmarked, hcalls, useIds_callBlocks conv h.named] at hdistinct
    exact hdistinct
  · rw [flatMap_def, exchanges_fst_sent conv h, flatten_sentGroups] at hcalls
    have hlength := congrArg List.length hcalls
    rw [length_map, length_map] at hlength
    intro tc htc
    simpa using length_filter_eq_length_iff.1 hlength tc htc

/-! ## Every call is matched -/

variable (hdistinct : ((calls msgs).map fun tc => sanitizeToolId (callId tc)).Nodup)
  (hfilled : ∀ tc ∈ calls msgs, isBlank (callName tc) = false)

omit [Zero N] [DecidableEq N] [JsonNumber N] h in
include hfilled in
/-- Where no name is blank, every call is sent. -/
theorem sentCalls_eq {msg : Message N} (hmsg : msg ∈ msgs) (hrole : msg.role = .assistant) :
    sentCalls msg = msg.calls := by
  refine filter_eq_self.2 fun tc htc => ?_
  have hcall : tc ∈ calls msgs := mem_flatMap.2 ⟨msg, hmsg, (if_pos hrole).symm ▸ htc⟩
  rw [hfilled tc hcall]
  rfl

omit [JsonNumber N] in
include hdistinct hfilled in
theorem matched_buildMessages : Matched (buildMessages conv msgs) := by
  have hmerged := merged_buildMessages conv h
  have hgroups := hmerged.groups.trans (groups_items conv h)
  have hall : ((calls msgs).filter fun tc => !isBlank (callName tc)) = calls msgs :=
    filter_eq_self.2 fun tc htc => by rw [hfilled tc htc]; rfl
  have hids : callIds (buildMessages conv msgs) =
      (calls msgs).map fun tc => sanitizeToolId (callId tc) := by
    rw [callIds_eq hmerged.sided, hgroups, flatten_sentGroups, hall, useIds_callBlocks conv h.named]
  constructor
  · exact hmerged.sided
  · intro m hm u hu
    have hne : m.uses ≠ [] := ne_nil_of_mem hu
    have hrole : m.role = .assistant := by
      rcases hmerged.sided m hm with ⟨-, hnil⟩ | ⟨hrole, -⟩
      · exact absurd hnil hne
      · exact hrole
    have hgroup : m.uses ∈ (buildMessages conv msgs).filterMap group :=
      mem_filterMap.2 ⟨m, hm, if_pos ⟨hrole, hne⟩⟩
    rw [hgroups] at hgroup
    have huse : u ∈ (msgs.filterMap (sentGroup conv)).flatten :=
      mem_flatten.2 ⟨m.uses, hgroup, hu⟩
    rw [flatten_sentGroups] at huse
    obtain ⟨tc, htc, rfl⟩ := List.mem_map.1 huse
    rw [useId_callBlock conv (h.named tc (mem_of_mem_filter htc))]
    rfl
  · rw [hids]
    exact hdistinct
  · have hcalls : ((calls msgs).map fun tc => sanitizeToolId (callId tc)) =
        ((calls msgs).map callId).map sanitizeToolId := by
      rw [List.map_map]
      rfl
    rw [hids, hmerged.results, results_items conv h, resultIds_toolResults h, hcalls]
    exact h.answered.map _

omit [Zero N] [DecidableEq N] [JsonNumber N] in
include hdistinct in
/-- The answers to the calls of a message are their results. -/
theorem answers_calls {tcs : List (ToolCall N)} (htcs : ∀ tc ∈ tcs, tc ∈ calls msgs) :
    (((tcs.map (callBlock conv)).filterMap useId).flatMap fun id =>
      (toolResults msgs).filter fun r => decide (resultId r = id)) =
        tcs.flatMap (resultsFor msgs) := by
  rw [useIds_callBlocks conv fun tc htc => h.named tc (htcs tc htc), flatMap_map]
  exact flatMap_congr fun tc htc => toolResults_filter h hdistinct (htcs tc htc)

omit [Zero N] [DecidableEq N] [JsonNumber N] h in
theorem unmarkBlock_toolBlocks {msg : Message N} {b : Block N} (hb : b ∈ toolBlocks msg) :
    unmarkBlock b = b := by
  unfold toolBlocks optional at hb
  split at hb
  · cases hb
  · rw [mem_singleton.1 hb]
    cases resultContent (contentValue msg.content) <;> rfl

omit [Zero N] [DecidableEq N] [JsonNumber N] h in
theorem map_unmarkBlock_results (tcs : List (ToolCall N)) :
    (tcs.flatMap (resultsFor msgs)).map unmarkBlock = tcs.flatMap (resultsFor msgs) := by
  refine (map_congr_left fun b hb => ?_).trans (List.map_id _)
  obtain ⟨tc, -, hb⟩ := mem_flatMap.1 hb
  obtain ⟨msg, -, hb⟩ := mem_flatMap.1 hb
  exact unmarkBlock_toolBlocks hb

include hdistinct hfilled in
theorem exchanges_sent : exchanges ((openaiToClaudeMessages conv msgs).map unmarked) =
    msgs.filterMap (conversationExchange conv msgs) := by
  have hmerged := merged_buildMessages conv h
  have hgroups := hmerged.groups.trans (groups_items conv h)
  have hresults : results (buildMessages conv msgs) = toolResults msgs :=
    hmerged.results.trans (results_items conv h)
  let answered := fun uses : List (Block N) => (uses, some ((uses.filterMap useId).flatMap fun id =>
    (toolResults msgs).filter fun r => decide (resultId r = id)))
  have hexchange : ∀ m : ClaudeMessage N, exchange (toolResults msgs) m =
      (group m).map answered := by
    intro m
    unfold exchange group
    split
    · rw [map_some, answers, ← uses_filterMap_useId]
    · rfl
  rw [exchanges_openaiToClaudeMessages,
    exchanges_enforce (matched_buildMessages conv h hdistinct hfilled), hresults,
    filterMap_congr fun m _ => hexchange m, ← map_filterMap, hgroups, List.map_map, map_filterMap]
  refine filterMap_congr fun msg hmsg => ?_
  unfold sentGroup conversationExchange
  by_cases hrole : msg.role = .assistant
  · rw [sentCalls_eq hfilled hmsg hrole]
    by_cases hcalls : msg.calls = []
    · rw [if_neg fun hc => hc.2 hcalls, if_neg fun hc => hc.2 hcalls]
      rfl
    · have hmem : ∀ tc ∈ msg.calls, tc ∈ calls msgs := fun tc htc =>
        mem_flatMap.2 ⟨msg, hmsg, (if_pos hrole).symm ▸ htc⟩
      rw [if_pos ⟨hrole, hcalls⟩, if_pos ⟨hrole, hcalls⟩, map_some]
      show some (unmarkedExchange (answered (msg.calls.map (callBlock conv)))) = _
      have hanswers := answers_calls conv h hdistinct hmem
      unfold unmarkedExchange
      dsimp only [answered]
      rw [hanswers, map_some, map_unmarkBlock_results, List.map_map]
      congr 2
      exact map_congr_left fun tc _ => unmarkBlock_callBlock conv tc
  · rw [if_neg fun hc => hrole hc.1, if_neg fun hc => hrole hc.1]
    rfl

/-- **Calls and results stay paired where ids stay distinct and names are filled.** -/
theorem openaiToClaudeMessages_paired_iff :
    Paired conv msgs (openaiToClaudeMessages conv msgs) ↔
      ((calls msgs).map fun tc => sanitizeToolId (callId tc)).Nodup ∧
        ∀ tc ∈ calls msgs, isBlank (callName tc) = false := by
  refine ⟨fun hpaired => hpaired.condition conv h, fun ⟨hdistinct, hfilled⟩ => ?_⟩
  have hexchanges := exchanges_sent conv h hdistinct hfilled
  have htexts : texts (enforceToolResultAdjacency (buildMessages conv msgs)) =
      conversationTexts msgs := by
    rw [texts_enforce (matched_buildMessages conv h hdistinct hfilled),
      (merged_buildMessages conv h).texts, texts_items conv h]
  constructor
  · exact hexchanges
  · rw [← exchangeIds_unmarked, hexchanges, flatMap_conversationExchange,
      useIds_callBlocks conv h.named]
    exact hdistinct
  · rcases unmarked_openaiToClaudeMessages conv msgs with ⟨hnil, hsent⟩ | hsame
    · rw [hnil] at htexts
      exact .inr ⟨htexts.symm, hsent⟩
    · rw [← texts_unmarked, hsame, texts_unmarked]
      exact .inl htexts

end Sent

/-! ## Two conversations -/

/-- A route to an endpoint of its own. -/
def plainConversion : Conversion ℤ where
  disableToolPrefix := true
  thinkingEnabledForRequest := false
  isKimiCoding := false
  defaultSignature := "signature"
  parseJSON text := if text = "\x7b\x7d" then some (.obj []) else none
  randomId _ _ := "tool_1"

/-- A call of `read`. -/
def readCall (id : String) : ToolCall ℤ :=
  ⟨some id, some "function", some ⟨some "read", some (.str "\x7b\x7d")⟩⟩

/-- Two calls, a question in between, and their answers. -/
def twoCalls (first second : String) : List (Message ℤ) :=
  [{ role := .user, content := .text "go on" },
    { role := .assistant, content := .absent,
      toolCalls := some [readCall first, readCall second] },
    { role := .user, content := .text "and then?" },
    { role := .tool, content := .text "two", toolCallId := some second },
    { role := .tool, content := .text "one", toolCallId := some first }]

theorem answered_twoCalls {first second : String} (hfirst : first ≠ "") (hsecond : second ≠ "")
    (hne : first ≠ second) : Answered (twoCalls first second) where
  plain msg hmsg _ := by
    have hnil : msg.content.blockList = [] := by
      simp only [twoCalls, mem_cons, not_mem_nil, or_false] at hmsg
      rcases hmsg with rfl | rfl | rfl | rfl | rfl <;> rfl
    intro b hb
    rw [hnil] at hb
    cases hb
  named tc htc := by
    have hcalls : tc ∈ [readCall first, readCall second] := htc
    simp only [mem_cons, not_mem_nil, or_false] at hcalls
    rcases hcalls with rfl | rfl
    · exact ⟨rfl, hfirst, (by decide : "read" ≠ "")⟩
    · exact ⟨rfl, hsecond, (by decide : "read" ≠ "")⟩
  distinct := by
    have hcalls : (calls (twoCalls first second)).map callId = [first, second] := rfl
    rw [hcalls]
    simpa using hne
  answered := by
    have hcalls : (calls (twoCalls first second)).map callId = [first, second] := rfl
    have hids : answeredIds (twoCalls first second) = [second, first] := rfl
    rw [hcalls, hids]
    exact List.Perm.swap first second []

/-- Ids that stay distinct. -/
theorem openaiToClaudeMessages_paired_iff_twoCalls :
    Paired plainConversion (twoCalls "call.1" "call.2")
      (openaiToClaudeMessages plainConversion (twoCalls "call.1" "call.2")) :=
  (openaiToClaudeMessages_paired_iff plainConversion
    (answered_twoCalls (by decide) (by decide) (by decide))).2
      ⟨by decide +kernel, by decide +kernel⟩

/-- Ids that are alike once sanitized. -/
theorem alike_ids_unpaired :
    Answered (twoCalls "a.b" "a_b") ∧ ¬Paired plainConversion (twoCalls "a.b" "a_b")
      (openaiToClaudeMessages plainConversion (twoCalls "a.b" "a_b")) := by
  have h : Answered (twoCalls "a.b" "a_b") :=
    answered_twoCalls (by decide) (by decide) (by decide)
  refine ⟨h, fun hpaired => absurd (hpaired.condition plainConversion h).1 ?_⟩
  decide +kernel

end OmniRoute.ClaudeRequest
