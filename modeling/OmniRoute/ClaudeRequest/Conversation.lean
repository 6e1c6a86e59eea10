import OmniRoute.ClaudeRequest.Merge

/-!
# Conversations that answer every call

What a chat conversation asks of its request: the texts of its users and assistants, and the results
of the calls of every message; and what its messages say before they are merged.
-/

namespace OmniRoute.ClaudeRequest

open ToolPairing List

open PrepareClaude (sanitizeToolId)

variable {N : Type}

/-! ## What is asked of the messages -/

/-- The calls of the assistant. -/
def calls (msgs : List (Message N)) : List (ToolCall N) :=
  msgs.flatMap fun msg => if msg.role = .assistant then msg.calls else []

/-- The ids that the messages of tools answer. -/
def answeredIds (msgs : List (Message N)) : List String :=
  (msgs.filter fun msg => msg.role = .tool).map fun msg => msg.toolCallId.getD ""

/-- The results of the messages of tools. -/
def toolResults (msgs : List (Message N)) : List (Block N) :=
  msgs.flatMap fun msg => if msg.role = .tool then toolBlocks msg else []

/-- A chat conversation in which every call of a function is answered once, in any order. -/
structure Answered (msgs : List (Message N)) : Prop where
  plain : ∀ msg ∈ msgs, msg.role = .user ∨ msg.role = .assistant → PlainContent msg.content
  named : ∀ tc ∈ calls msgs, Named tc
  distinct : ((calls msgs).map callId).Nodup
  answered : (answeredIds msgs).Perm ((calls msgs).map callId)

section Asked

variable [Zero N] [DecidableEq N] (conv : Conversion N)

/-- The results for a call, with their contents. -/
def resultsFor (msgs : List (Message N)) (tc : ToolCall N) : List (Block N) :=
  (msgs.filter fun msg => msg.role = .tool ∧ msg.toolCallId = tc.id).flatMap toolBlocks

/-- The calls of a message, with the results that should follow. -/
def conversationExchange (msgs : List (Message N)) (msg : Message N) :
    Option (List (Block N) × Option (List (Block N))) :=
  if msg.role = .assistant ∧ msg.calls ≠ [] then
    some (msg.calls.map (callBlock conv), some (msg.calls.flatMap (resultsFor msgs)))
  else none

/-- The texts of users and assistants. -/
def conversationTexts (msgs : List (Message N)) : List (Role × Json N) :=
  msgs.flatMap fun msg =>
    if msg.role = .user ∨ msg.role = .assistant then
      (saidTexts msg.content).map fun text => (msg.role, text)
    else []

end Asked

/-! ## Messages before the merging -/

section Items

variable [Zero N] [DecidableEq N] (conv : Conversion N)

/-- A message as a Claude message of its own. -/
def messageItem (p : Message N × ℕ) : ClaudeMessage N :=
  ⟨claudeRole p.1.role, getContentBlocksFromMessage conv p.2 p.1⟩

/-- What the messages say one by one. System messages say nothing. -/
theorem flatMap_items {α : Type} (msgs : List (Message N)) {f : ClaudeMessage N → List α}
    {g : Message N → List α} (hone : ∀ p ∈ msgs.zipIdx, f (messageItem conv p) = g p.1)
    (hsystem : ∀ msg, isSystem msg = true → g msg = []) :
    (unmerged (items conv msgs)).flatMap f = msgs.flatMap g := by
  have hitems : unmerged (items conv msgs) =
      (msgs.zipIdx.filter fun p => !isSystem p.1).map (messageItem conv) := map_map ..
  rw [hitems, flatMap_map, ← flatMap_zipIdx g msgs]
  generalize msgs.zipIdx = ps at hone
  induction ps with
  | nil => rfl
  | cons p ps ih =>
    have hrest := ih fun p' hp' => hone p' (mem_cons_of_mem _ hp')
    rw [flatMap_cons, ← hrest]
    by_cases hp : isSystem p.1 = true
    · rw [filter_cons_of_neg (by simp [hp]), hsystem p.1 hp, List.nil_append]
    · rw [filter_cons_of_pos (by simp [hp]), flatMap_cons, hone p mem_cons_self]

variable {msgs : List (Message N)} (h : Answered msgs)

include h

omit [Zero N] [DecidableEq N] in
theorem named_of_mem {msg : Message N} (hmsg : msg ∈ msgs) (hrole : msg.role = .assistant) :
    ∀ tc ∈ msg.calls, Named tc := fun tc htc =>
  h.named tc (mem_flatMap.2 ⟨msg, hmsg, (if_pos hrole).symm ▸ htc⟩)

theorem itemSided {item : Role × List (Block N)} (hitem : item ∈ items conv msgs) :
    ItemSided item := by
  obtain ⟨p, hp, rfl⟩ := mem_map.1 hitem
  obtain ⟨msg, position⟩ := p
  have hmsg : msg ∈ msgs := mem_of_mem_zipIdx (mem_of_mem_filter hp)
  unfold ItemSided getContentBlocksFromMessage
  dsimp only
  cases hrole : msg.role with
  | user =>
    have hsays := says_userBlocks (h.plain msg hmsg (.inl hrole))
    exact ⟨.inl ⟨rfl, hsays.no_uses⟩, .inr hsays.no_results⟩
  | assistant =>
    have hresults := results_assistantBlocks conv position (h.plain msg hmsg (.inr hrole))
      (named_of_mem h hmsg hrole)
    exact ⟨.inr ⟨rfl, hresults⟩, .inr hresults⟩
  | tool =>
    refine ⟨.inl ⟨rfl, ?_⟩, .inl ⟨rfl, filter_eq_self.2 (toolBlocks_results msg)⟩⟩
    refine filter_eq_nil_iff.2 fun b hb => ?_
    have hresult := toolBlocks_results msg b hb
    cases b with
    | toolResult id fields => exact Bool.false_ne_true
    | _ => cases hresult
  | _ => exact ⟨.inr ⟨rfl, rfl⟩, .inr rfl⟩

/-- The texts before the merging. -/
theorem texts_items : texts (unmerged (items conv msgs)) = conversationTexts msgs := by
  refine flatMap_items conv msgs (fun p hp => ?_) fun msg hsystem => ?_
  · obtain ⟨msg, position⟩ := p
    have hmsg : msg ∈ msgs := mem_of_mem_zipIdx hp
    unfold ClaudeMessage.texts messageItem getContentBlocksFromMessage
    dsimp only
    cases hrole : msg.role with
    | user =>
      dsimp only
      rw [if_pos (.inl rfl), (says_userBlocks (h.plain msg hmsg (.inl hrole))).texts]
      rfl
    | assistant =>
      dsimp only
      rw [if_pos (.inr rfl), texts_assistantBlocks conv position
        (h.plain msg hmsg (.inr hrole)) (named_of_mem h hmsg hrole)]
      rfl
    | tool =>
      rw [if_neg (by decide), filterMap_eq_nil_iff.2 fun b hb =>
        blockText_of_result (toolBlocks_results msg b hb)]
      rfl
    | _ =>
      rw [if_neg (by simp)]
      rfl
  · have hnot : ¬(msg.role = .user ∨ msg.role = .assistant) := by
      rintro (hrole | hrole) <;> rw [isSystem, hrole] at hsystem <;> cases hsystem
    exact if_neg hnot

/-- The results before the merging. -/
theorem results_items : results (unmerged (items conv msgs)) = toolResults msgs := by
  refine flatMap_items conv msgs (fun p hp => ?_) fun msg hsystem => ?_
  · obtain ⟨msg, position⟩ := p
    have hmsg : msg ∈ msgs := mem_of_mem_zipIdx hp
    unfold ClaudeMessage.results messageItem getContentBlocksFromMessage
    dsimp only
    cases hrole : msg.role with
    | user =>
      rw [if_neg (by decide)]
      exact (says_userBlocks (h.plain msg hmsg (.inl hrole))).no_results
    | assistant =>
      rw [if_neg (by decide)]
      exact results_assistantBlocks conv position (h.plain msg hmsg (.inr hrole))
        (named_of_mem h hmsg hrole)
    | tool =>
      rw [if_pos rfl]
      exact filter_eq_self.2 (toolBlocks_results msg)
    | _ =>
      rw [if_neg (by simp)]
      rfl
  · have hnot : ¬msg.role = .tool := by
      intro hrole
      rw [isSystem, hrole] at hsystem
      cases hsystem
    exact if_neg hnot

omit h in
/-- The calls that are sent of a message, if there are any. -/
def sentGroup (msg : Message N) : Option (List (Block N)) :=
  if msg.role = .assistant ∧ sentCalls msg ≠ [] then
    some ((sentCalls msg).map (callBlock conv))
  else none

/-- The calls of every message before the merging. -/
theorem groups_items :
    (unmerged (items conv msgs)).filterMap group = msgs.filterMap (sentGroup conv) := by
  rw [filterMap_eq_flatMap_toList, filterMap_eq_flatMap_toList]
  refine flatMap_items conv msgs (fun p hp => ?_) fun msg hsystem => ?_
  · obtain ⟨msg, position⟩ := p
    have hmsg : msg ∈ msgs := mem_of_mem_zipIdx hp
    congr 1
    unfold group sentGroup ClaudeMessage.uses messageItem getContentBlocksFromMessage
    dsimp only
    by_cases hrole : msg.role = .assistant
    · have huses := uses_assistantBlocks conv position (h.plain msg hmsg (.inr hrole))
        (named_of_mem h hmsg hrole)
      rw [hrole]
      dsimp only
      rw [huses]
      simp only [claudeRole, true_and, ne_eq, map_eq_nil_iff]
    · have hnone : sentGroup conv msg = none := if_neg fun hc => hrole hc.1
      rw [sentGroup] at hnone
      rw [hnone]
      refine if_neg fun hc => ?_
      cases hother : msg.role with
      | assistant => exact hrole hother
      | user => exact absurd (hother ▸ hc.1) (by decide)
      | tool => exact absurd (hother ▸ hc.1) (by decide)
      | _ =>
        rw [hother] at hc
        exact hc.2 rfl
  · have hnot : ¬(msg.role = .assistant ∧ sentCalls msg ≠ []) := by
      rintro ⟨hrole, -⟩
      rw [isSystem, hrole] at hsystem
      cases hsystem
    rw [sentGroup, if_neg hnot]
    rfl

end Items

/-! ## Answers -/

/-- Every message of a tool answers an id that is not empty. -/
theorem Answered.toolCallId {msgs : List (Message N)} (h : Answered msgs) {msg : Message N}
    (hmsg : msg ∈ msgs) (hrole : msg.role = .tool) :
    ∃ id, msg.toolCallId = some id ∧ id ∈ (calls msgs).map callId ∧ id ≠ "" := by
  have hanswered : msg.toolCallId.getD "" ∈ answeredIds msgs :=
    mem_map.2 ⟨msg, mem_filter.2 ⟨hmsg, by simp [hrole]⟩, rfl⟩
  have hcall := h.answered.mem_iff.1 hanswered
  obtain ⟨tc, htc, hid⟩ := mem_map.1 hcall
  have hne : msg.toolCallId.getD "" ≠ "" := hid ▸ (h.named tc htc).id
  cases hsome : msg.toolCallId with
  | none =>
    rw [hsome] at hne
    exact absurd rfl hne
  | some id =>
    rw [hsome] at hcall hne
    exact ⟨id, rfl, hcall, hne⟩

/-- The result of a message of a tool. -/
theorem toolBlocks_of_some {msg : Message N} {id : String} (hsome : msg.toolCallId = some id)
    (hne : id ≠ "") : toolBlocks msg = [.toolResult (some (sanitizeToolId id))
      (optional "content" (resultContent (contentValue msg.content)))] := by
  rw [toolBlocks, hsome, truthyId_eq_some.2 ⟨rfl, hne⟩]

theorem flatMap_filter_if {α β : Type} (p : α → Prop) [DecidablePred p] (f : α → List β)
    (l : List α) : (l.filter fun a => p a).flatMap f = l.flatMap fun a => if p a then f a else [] := by
  induction l with
  | nil => rfl
  | cons a l ih =>
    rw [flatMap_cons, ← ih]
    by_cases ha : p a
    · rw [filter_cons_of_pos (by simpa using ha), if_pos ha, flatMap_cons]
    · rw [filter_cons_of_neg (by simpa using ha), if_neg ha, List.nil_append]

/-- The results answer the sanitized ids. -/
theorem resultIds_toolResults {msgs : List (Message N)} (h : Answered msgs) :
    (toolResults msgs).map resultId = (answeredIds msgs).map sanitizeToolId := by
  rw [toolResults, map_flatMap, answeredIds, map_map, map_eq_flatMap, flatMap_filter_if]
  refine flatMap_congr fun msg hmsg => ?_
  by_cases hrole : msg.role = .tool
  · obtain ⟨id, hsome, -, hne⟩ := h.toolCallId hmsg hrole
    rw [if_pos hrole, if_pos hrole, toolBlocks_of_some hsome hne, Function.comp_apply, hsome]
    rfl
  · rw [if_neg hrole, if_neg hrole]
    rfl

/-- Where sanitized ids are distinct, the results with the sanitized id of a call are its results. -/
theorem toolResults_filter {msgs : List (Message N)} (h : Answered msgs)
    (hdistinct : ((calls msgs).map fun tc => sanitizeToolId (callId tc)).Nodup) {tc : ToolCall N}
    (htc : tc ∈ calls msgs) :
    (toolResults msgs).filter (fun r => decide (resultId r = sanitizeToolId (callId tc))) =
      resultsFor msgs tc := by
  rw [toolResults, filter_flatMap, resultsFor, flatMap_filter_if]
  refine flatMap_congr fun msg hmsg => ?_
  by_cases hrole : msg.role = .tool
  · obtain ⟨id, hsome, hcall, hne⟩ := h.toolCallId hmsg hrole
    obtain ⟨tc', htc', rfl⟩ := mem_map.1 hcall
    rw [if_pos hrole, toolBlocks_of_some hsome hne]
    by_cases hid : msg.toolCallId = tc.id
    · have hsame : callId tc' = callId tc := by
        have hget := congrArg (fun id : Option String => id.getD "") (hsome.symm.trans hid)
        exact hget
      rw [if_pos ⟨hrole, hid⟩, hsame]
      exact filter_cons_of_pos (decide_eq_true rfl)
    · rw [if_neg fun hc => hid hc.2]
      refine filter_cons_of_neg fun hsame => hid ?_
      have heq := inj_on_of_nodup_map hdistinct htc' htc (of_decide_eq_true hsame)
      subst heq
      have hne' : callId tc' ≠ "" := hne
      rw [hsome, callId]
      unfold callId at hne'
      cases hid' : tc'.id with
      | none =>
        rw [hid'] at hne'
        exact absurd rfl hne'
      | some id => rfl
  · rw [if_neg hrole, if_neg fun hc => hrole hc.1]
    rfl

end OmniRoute.ClaudeRequest
