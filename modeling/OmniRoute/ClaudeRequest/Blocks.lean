import OmniRoute.ClaudeRequest.Convert
import OmniRoute.ToolPairing.PreparedRequest

/-!
# The blocks of a chat message

What `getContentBlocksFromMessage` says: the texts of the message that are not empty, one call for
each call whose name is not blank, and one result for a message of a tool.
-/

namespace OmniRoute.ClaudeRequest

open ToolPairing List Option

open PrepareClaude (setField sanitizeToolId lookup_setField)

variable {N : Type}

/-- The text of a text block. -/
def blockText : Block N → Option (Json N)
  | .other part => if part.hasType "text" then part.prop "text" else none
  | _ => none

/-- The id of a call. -/
def callId (tc : ToolCall N) : String := tc.id.getD ""

/-- The name of the called function. -/
def callName (tc : ToolCall N) : String := (tc.function.bind fun function => function.name).getD ""

/-- The texts of a message that are not empty. -/
def saidTexts [Zero N] [DecidableEq N] : Content N → List (Json N)
  | .absent => []
  | .text text => if text = "" then [] else [.str text]
  | .blocks bs => bs.filterMap fun
    | .other part => truthyText part
    | _ => none

/-- These blocks call nothing, answer nothing and say the given texts. -/
structure Says (bs : List (Block N)) (texts : List (Json N)) : Prop where
  no_uses : bs.filter Block.isToolUse = []
  no_results : bs.filter Block.isToolResult = []
  texts : bs.filterMap blockText = texts

theorem Says.nil : Says ([] : List (Block N)) [] := ⟨rfl, rfl, rfl⟩

theorem Says.append {bs bs' : List (Block N)} {ts ts' : List (Json N)} (h : Says bs ts)
    (h' : Says bs' ts') : Says (bs ++ bs') (ts ++ ts') where
  no_uses := by
    rw [filter_append, h.no_uses, h'.no_uses]
    rfl
  no_results := by
    rw [filter_append, h.no_results, h'.no_results]
    rfl
  texts := by rw [filterMap_append, h.texts, h'.texts]

theorem Says.flatMap {α : Type} {l : List α} {f : α → List (Block N)} {g : α → List (Json N)}
    (h : ∀ a ∈ l, Says (f a) (g a)) : Says (l.flatMap f) (l.flatMap g) := by
  induction l with
  | nil => exact Says.nil
  | cons a l ih =>
    rw [flatMap_cons, flatMap_cons]
    exact (h a mem_cons_self).append (ih fun b hb => h b (mem_cons_of_mem _ hb))

/-- A block of another type says nothing. -/
theorem Says.other {part : Json N} (h : part.hasType "text" = false) :
    Says [.other part] [] where
  no_uses := rfl
  no_results := rfl
  texts := filterMap_cons_none (by rw [blockText, h]; rfl)

theorem Says.textBlock (text : Json N) : Says [textBlock text] [text] := ⟨rfl, rfl, rfl⟩

/-! ## Parts of a user -/

theorem says_image {part block : Json N} (h : openAiImagePartToClaudeBlock part = some block) :
    block.hasType "text" = false := by
  have hsource : ∀ source : Json N, (sourceBlock "image" source).hasType "text" = false :=
    fun source => rfl
  have hurl : ∀ url, urlToClaudeImageBlock url = some block → block.hasType "text" = false := by
    intro url hurl
    unfold urlToClaudeImageBlock at hurl
    dsimp only at hurl
    split at hurl
    · cases hurl
    · split at hurl <;> exact some.inj hurl ▸ hsource _
  unfold openAiImagePartToClaudeBlock at h
  split at h
  · exact hurl _ h
  · split at h
    · split at h
      · exact some.inj h ▸ hsource _
      · exact hurl _ h
      · cases h
    · cases h

section Parts

theorem says_optional {block : Option (Json N)}
    (h : ∀ b, block = some b → b.hasType "text" = false) : Says (block.toList.map .other) [] := by
  cases block with
  | none => exact Says.nil
  | some b => exact Says.other (h b rfl)

theorem other_of_plain {b : Block N} (h : b.isToolUse = false ∧ b.isToolResult = false) :
    ∃ part, b = .other part := by
  cases b with
  | toolUse id fields => cases h.1
  | toolResult id fields => cases h.2
  | other part => exact ⟨part, rfl⟩

theorem says_text (text : String) :
    Says (if text = "" then [] else [textBlock (.str text)] : List (Block N))
      (if text = "" then [] else [.str text]) := by
  split
  · exact Says.nil
  · exact Says.textBlock _

theorem hasType_text_of_thinking {part : Json N}
    (h : (part.hasType "thinking" || part.hasType "redacted_thinking") = true) :
    part.hasType "text" = false := by
  unfold Json.hasType at h ⊢
  cases htype : part.prop "type" with
  | none => rfl
  | some type =>
    rw [htype] at h
    cases type with
    | str name =>
      simp only [Bool.or_eq_true, decide_eq_true_eq] at h
      rcases h with rfl | rfl
      · exact decide_eq_false (by decide)
      · exact decide_eq_false (by decide)
    | _ => rfl

/-- A message of a tool is one result, or nothing. -/
theorem toolBlocks_results (msg : Message N) : ∀ b ∈ toolBlocks msg, b.isToolResult = true := by
  intro b hb
  unfold toolBlocks at hb
  split at hb
  · cases hb
  · exact mem_singleton.1 hb ▸ rfl

variable [Zero N] [DecidableEq N]

theorem says_file {part block : Json N} (h : fileBlock part = some block) :
    block.hasType "text" = false := by
  unfold fileBlock at h
  split at h
  · cases h
  · dsimp only at h
    split at h
    · split at h
      · split at h
        · exact some.inj h ▸ rfl
        · split at h
          · exact some.inj h ▸ rfl
          · cases h
      · split at h
        · exact some.inj h ▸ rfl
        · cases h
    · cases h

theorem says_userPart (part : Json N) : Says (userPart (.other part)) (truthyText part).toList := by
  dsimp only [userPart]
  cases htext : truthyText part with
  | some text => exact Says.textBlock text
  | none =>
    dsimp only
    split
    · exact says_optional fun b hb => says_image hb
    · split
      · exact says_optional fun b hb => says_file hb
      · exact Says.nil

/-- A content of parts that are neither calls nor results. -/
def PlainContent (content : Content N) : Prop :=
  ∀ b ∈ content.blockList, b.isToolUse = false ∧ b.isToolResult = false

theorem says_userBlocks {content : Content N} (h : PlainContent content) :
    Says (userBlocks content) (saidTexts content) := by
  cases content with
  | absent => exact Says.nil
  | text text => exact says_text text
  | blocks bs =>
    rw [userBlocks, saidTexts, filterMap_eq_flatMap_toList]
    refine Says.flatMap fun b hb => ?_
    obtain ⟨part, rfl⟩ := other_of_plain (h b hb)
    exact says_userPart part

/-! ## Parts of the assistant -/

variable (conv : Conversion N)

theorem says_thinkingBlock {part : Json N}
    (h : (part.hasType "thinking" || part.hasType "redacted_thinking") = true) :
    Says (thinkingBlock conv part) [] := by
  unfold thinkingBlock
  dsimp only
  split_ifs
  · exact Says.nil
  · exact Says.nil
  · cases part with
    | obj fields =>
      refine Says.other ?_
      have htype : ∀ name value, (Json.obj (setField "signature" value fields)).hasType name =
          (Json.obj fields).hasType name := by
        intro name value
        unfold Json.hasType Json.prop
        dsimp only
        rw [lookup_setField (by decide)]
      rw [htype]
      exact hasType_text_of_thinking h
    | _ => exact Says.nil

theorem says_assistantPart (position index : ℕ) (part : Json N) :
    Says (assistantPart conv position (.other part, index)) (truthyText part).toList := by
  dsimp only [assistantPart]
  cases htext : truthyText part with
  | some text => exact Says.textBlock text
  | none =>
    dsimp only
    split
    · next hthinking => exact says_thinkingBlock conv hthinking
    · exact Says.nil

variable (position : ℕ)

theorem says_assistantContent {content : Content N} (h : PlainContent content) :
    Says (assistantContent conv position content) (saidTexts content) := by
  cases content with
  | absent => exact Says.nil
  | text text => exact says_text text
  | blocks bs =>
    have hparts : Says (bs.zipIdx.flatMap (assistantPart conv position))
        (bs.zipIdx.flatMap fun p => (match p.1 with
          | .other part => truthyText part
          | _ => none : Option (Json N)).toList) := by
      refine Says.flatMap fun p hp => ?_
      obtain ⟨b, index⟩ := p
      have hb : b ∈ bs := (mem_zipIdx' hp).2 ▸ getElem_mem _
      obtain ⟨part, rfl⟩ := other_of_plain (h b hb)
      exact says_assistantPart conv position index part
    rw [assistantContent, saidTexts, filterMap_eq_flatMap_toList]
    have hmap := zipIdx_map_fst 0 bs
    conv_rhs => rw [← hmap, flatMap_map]
    exact hparts

/-- The block of a call. -/
def callBlock (tc : ToolCall N) : Block N :=
  .toolUse (some (sanitizeToolId (callId tc)))
    (("name", .str (if conv.disableToolPrefix then callName tc else "proxy_" ++ callName tc)) ::
      optional "input"
        (tryParseJSON conv (tc.function.bind fun function => function.arguments)))

/-- A call of a function, with an id and a name. -/
structure Named (tc : ToolCall N) : Prop where
  function : tc.type = some "function"
  id : callId tc ≠ ""
  name : callName tc ≠ ""

omit [Zero N] [DecidableEq N] in
theorem toolCallBlock_eq (position offset index : ℕ) {tc : ToolCall N} (h : Named tc) :
    toolCallBlock conv position offset (tc, index) =
      if isBlank (callName tc) then [] else [callBlock conv tc] := by
  obtain ⟨id, type, function⟩ := tc
  obtain ⟨htype, hid, hname⟩ := h
  cases id with
  | none => exact absurd rfl hid
  | some id =>
  cases function with
  | none => exact absurd rfl hname
  | some function =>
  obtain ⟨name, arguments⟩ := function
  cases name with
  | none => exact absurd rfl hname
  | some name =>
  have htruthy : truthyId (some id) = some id := truthyId_eq_some.2 ⟨rfl, hid⟩
  have hrandom : ∀ random, idOr random (some id) = sanitizeToolId id := by
    intro random
    rw [idOr, htruthy]
  have htype' : type = some "function" := htype
  subst htype'
  show (if isBlank name then [] else [toolUseOf conv _ _ name arguments]) = _
  rw [show ∀ random, toolUseOf conv random ⟨some id, some "function", some ⟨some name, arguments⟩⟩
    name arguments = callBlock conv ⟨some id, some "function", some ⟨some name, arguments⟩⟩ from
      fun random => by rw [toolUseOf, hrandom]; rfl]
  rfl

/-! ## Whole messages -/

/-- The calls that are sent: those whose name is not blank. -/
def sentCalls (msg : Message N) : List (ToolCall N) :=
  msg.calls.filter fun tc => !isBlank (callName tc)

variable {msg : Message N}

omit [Zero N] [DecidableEq N] in
theorem flatMap_toolCallBlock (position offset : ℕ) (h : ∀ tc ∈ msg.calls, Named tc) :
    msg.calls.zipIdx.flatMap (toolCallBlock conv position offset) =
      (sentCalls msg).map (callBlock conv) := by
  have hone : ∀ p ∈ msg.calls.zipIdx, toolCallBlock conv position offset p =
      if isBlank (callName p.1) then [] else [callBlock conv p.1] := fun p hp =>
    toolCallBlock_eq conv position offset p.2
      (h p.1 ((mem_zipIdx' hp).2 ▸ getElem_mem _))
  have hmap := zipIdx_map_fst 0 msg.calls
  rw [flatMap_congr hone, sentCalls]
  conv_rhs => rw [← hmap]
  rw [← flatMap_map Prod.fst
    (fun tc : ToolCall N => if isBlank (callName tc) then [] else [callBlock conv tc])]
  generalize msg.calls.zipIdx.map Prod.fst = tcs
  induction tcs with
  | nil => rfl
  | cons tc tcs ih =>
    rw [flatMap_cons, ih]
    by_cases hblank : isBlank (callName tc) = true
    · rw [if_pos hblank, filter_cons_of_neg (by simp [hblank]), List.nil_append]
    · rw [if_neg hblank, filter_cons_of_pos (by simp [hblank]), map_cons]
      rfl

/-- Reasoning that is put before the blocks says nothing. -/
theorem withReasoning_eq (reasoningContent : Option (Json N)) (blocks : List (Block N)) :
    ∃ before, Says before [] ∧
      withReasoning conv reasoningContent blocks = before ++ blocks := by
  unfold withReasoning
  dsimp only
  split
  · exact ⟨[_], Says.other rfl, rfl⟩
  · split
    · exact ⟨[_], Says.other rfl, rfl⟩
    · exact ⟨[], Says.nil, rfl⟩

section

variable (hplain : PlainContent msg.content)
include hplain

section

variable (hcalls : ∀ tc ∈ msg.calls, Named tc)
include hcalls

/-- A message of the assistant says its texts, and then calls. -/
theorem assistantBlocks_eq :
    ∃ before, Says before (saidTexts msg.content) ∧
      assistantBlocks conv position msg = before ++ (sentCalls msg).map (callBlock conv) := by
  obtain ⟨before, hbefore, heq⟩ := withReasoning_eq conv (msg.fields.lookup "reasoning_content")
    (assistantContent conv position msg.content ++
      msg.calls.zipIdx.flatMap (toolCallBlock conv position msg.content.blockList.length))
  refine ⟨before ++ assistantContent conv position msg.content,
    hbefore.append (says_assistantContent conv position hplain), ?_⟩
  rw [assistantBlocks, heq, flatMap_toolCallBlock conv _ _ hcalls, append_assoc]

theorem uses_assistantBlocks :
    (assistantBlocks conv position msg).filter Block.isToolUse =
      (sentCalls msg).map (callBlock conv) := by
  obtain ⟨before, hbefore, heq⟩ := assistantBlocks_eq conv position hplain hcalls
  have hall : ∀ b ∈ (sentCalls msg).map (callBlock conv), b.isToolUse = true := by
    intro b hb
    obtain ⟨tc, -, rfl⟩ := mem_map.1 hb
    rfl
  rw [heq, filter_append, hbefore.no_uses, filter_eq_self.2 hall, List.nil_append]

theorem results_assistantBlocks :
    (assistantBlocks conv position msg).filter Block.isToolResult = [] := by
  obtain ⟨before, hbefore, heq⟩ := assistantBlocks_eq conv position hplain hcalls
  rw [heq, filter_append, hbefore.no_results, List.nil_append]
  refine filter_eq_nil_iff.2 fun b hb => ?_
  obtain ⟨tc, -, rfl⟩ := mem_map.1 hb
  exact Bool.false_ne_true

theorem texts_assistantBlocks :
    (assistantBlocks conv position msg).filterMap blockText = saidTexts msg.content := by
  obtain ⟨before, hbefore, heq⟩ := assistantBlocks_eq conv position hplain hcalls
  have hnone : ((sentCalls msg).map (callBlock conv)).filterMap blockText = [] := by
    refine filterMap_eq_nil_iff.2 fun b hb => ?_
    obtain ⟨tc, -, rfl⟩ := mem_map.1 hb
    rfl
  rw [heq, filterMap_append, hbefore.texts, hnone, append_nil]

end

end

end Parts

end OmniRoute.ClaudeRequest
