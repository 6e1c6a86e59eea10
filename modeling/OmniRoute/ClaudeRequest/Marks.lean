import OmniRoute.ClaudeRequest.Adjacency

/-!
# The cache mark

The last block of the last message of the assistant is marked for the cache. Without the marks the
messages are what they were (`map_unmarked_markFirstAssistant`).
-/

namespace OmniRoute.ClaudeRequest

open ToolPairing List Json

open PrepareClaude (setField deleteField mapFields lookup_deleteField)

variable {N : Type}

/-! ## The source -/

def markBlock (block : Block N) : Block N :=
  mapFields (setField "cache_control" (.obj [("type", .str "ephemeral")])) block

/-- `cache_control` on the last block. -/
def markLastBlock (m : ClaudeMessage N) : ClaudeMessage N :=
  { m with content := m.content.dropLast ++ m.content.getLast?.toList.map markBlock }

/-- The first of these messages that is of the assistant and not empty is marked. -/
def markFirstAssistant : List (ClaudeMessage N) → List (ClaudeMessage N)
  | [] => []
  | m :: rest =>
    if m.role = .assistant && !m.content.isEmpty then markLastBlock m :: rest
    else m :: markFirstAssistant rest

/-- A block without a cache mark. -/
def unmarkBlock (block : Block N) : Block N := mapFields (deleteField "cache_control") block

def unmarked (m : ClaudeMessage N) : ClaudeMessage N :=
  { m with content := m.content.map unmarkBlock }

/-! ## The cache mark -/

theorem deleteField_map_setField (name : String) (value : Json N)
    (fields : List (String × Json N)) :
    deleteField name (fields.map fun field => if field.1 = name then (name, value) else field) =
      deleteField name fields := by
  unfold deleteField
  induction fields with
  | nil => rfl
  | cons field fields ih =>
    rw [map_cons]
    by_cases hfield : field.1 = name
    · rw [if_pos hfield, filter_cons_of_neg (by simp), filter_cons_of_neg (by simp [hfield]), ih]
    · rw [if_neg hfield, filter_cons_of_pos (by simp [hfield]),
        filter_cons_of_pos (by simp [hfield]), ih]

theorem deleteField_setField (name : String) (value : Json N) (fields : List (String × Json N)) :
    deleteField name (setField name value fields) = deleteField name fields := by
  rw [setField]
  split
  · exact deleteField_map_setField name value fields
  · rw [deleteField, filter_append, filter_cons_of_neg (by simp)]
    exact append_nil _

variable (block : Block N)

theorem unmarkBlock_markBlock : unmarkBlock (markBlock block) = unmarkBlock block := by
  cases block with
  | toolUse id fields => exact congrArg (Block.toolUse id) (deleteField_setField _ _ fields)
  | toolResult id fields => exact congrArg (Block.toolResult id) (deleteField_setField _ _ fields)
  | other value =>
    cases value with
    | obj fields =>
      exact congrArg (fun fields => Block.other (.obj fields)) (deleteField_setField _ _ fields)
    | _ => rfl

theorem unmarked_markLastBlock (m : ClaudeMessage N) : unmarked (markLastBlock m) = unmarked m := by
  have hcontent : (m.content.dropLast ++ m.content.getLast?.toList.map markBlock).map unmarkBlock =
      m.content.map unmarkBlock := by
    cases hlast : m.content.getLast? with
    | none =>
      rw [getLast?_eq_none_iff.1 hlast]
      rfl
    | some block =>
      have hsplit := dropLast_append_getLast? block hlast
      rw [Option.toList_some, map_append]
      conv_rhs => rw [← hsplit, map_append]
      congr 1
      exact congrArg (fun block => [block]) (unmarkBlock_markBlock block)
  exact congrArg (ClaudeMessage.mk m.role) hcontent

variable (ms : List (ClaudeMessage N))

theorem map_unmarked_markFirstAssistant :
    (markFirstAssistant ms).map unmarked = ms.map unmarked := by
  induction ms with
  | nil => rfl
  | cons m ms ih =>
    rw [markFirstAssistant]
    split
    · rw [map_cons, map_cons, unmarked_markLastBlock]
    · rw [map_cons, map_cons, ih]

theorem useId_unmarkBlock : useId (unmarkBlock block) = useId block := by
  cases block with
  | toolUse id fields => rfl
  | toolResult id fields => rfl
  | other value => cases value <;> rfl

theorem isToolUse_unmarkBlock : (unmarkBlock block).isToolUse = block.isToolUse := by
  cases block with
  | toolUse id fields => rfl
  | toolResult id fields => rfl
  | other value => cases value <;> rfl

theorem blockText_unmarkBlock : blockText (unmarkBlock block) = blockText block := by
  cases block with
  | toolUse id fields => rfl
  | toolResult id fields => rfl
  | other value =>
    cases value with
    | obj fields =>
      have hprop : ∀ name ≠ "cache_control",
          (obj (deleteField "cache_control" fields)).prop name = (obj fields).prop name :=
        fun name hname => lookup_deleteField hname fields
      have htype : (obj (deleteField "cache_control" fields)).hasType "text" =
          (obj fields).hasType "text" := by
        rw [hasType, hasType, hprop _ (by decide)]
      show (if (obj (deleteField "cache_control" fields)).hasType "text" then
        (obj (deleteField "cache_control" fields)).prop "text" else none) = _
      rw [htype, hprop _ (by decide)]
      rfl
    | _ => rfl

theorem uses_unmarked (m : ClaudeMessage N) : (unmarked m).uses = m.uses.map unmarkBlock := by
  have hcomp : (Block.isToolUse ∘ unmarkBlock : Block N → Bool) = Block.isToolUse :=
    funext isToolUse_unmarkBlock
  rw [ClaudeMessage.uses, unmarked, filter_map, hcomp]
  rfl

theorem texts_unmarked : texts (ms.map unmarked) = texts ms := by
  have hcomp : (blockText ∘ unmarkBlock : Block N → Option (Json N)) = blockText :=
    funext blockText_unmarkBlock
  have hone : ∀ m : ClaudeMessage N, (unmarked m).texts = m.texts := by
    intro m
    rw [ClaudeMessage.texts, unmarked, filterMap_map, hcomp]
    rfl
  rw [texts, flatMap_map]
  exact flatMap_congr fun m _ => hone m

/-- An exchange without cache marks. -/
def unmarkedExchange (e : List (Block N) × Option (List (Block N))) :
    List (Block N) × Option (List (Block N)) :=
  (e.1.map unmarkBlock, e.2.map (List.map unmarkBlock))

theorem exchanges_unmarked : exchanges (ms.map unmarked) = (exchanges ms).map unmarkedExchange := by
  induction ms with
  | nil => rfl
  | cons m ms ih =>
    have hiff : ((unmarked m).role = .assistant ∧ (unmarked m).uses ≠ []) ↔
        (m.role = .assistant ∧ m.uses ≠ []) := by
      rw [uses_unmarked, ne_eq, map_eq_nil_iff]
      rfl
    rw [map_cons, exchanges, exchanges, ih, uses_unmarked]
    by_cases hm : m.role = .assistant ∧ m.uses ≠ []
    · rw [if_pos (by rw [← uses_unmarked]; exact hiff.2 hm), if_pos hm, map_cons]
      congr 2
      cases ms with
      | nil => rfl
      | cons u ms =>
        show (if u.role = .user then some (u.content.map unmarkBlock) else none) =
          (if u.role = .user then some u.content else none).map (List.map unmarkBlock)
        split <;> rfl
    · rw [if_neg (by rw [← uses_unmarked]; exact fun hc => hm (hiff.1 hc)), if_neg hm]

/-- The ids of the calls that are sent. -/
theorem exchangeIds_unmarked :
    ((exchanges (ms.map unmarked)).flatMap Prod.fst).filterMap useId =
      ((exchanges ms).flatMap Prod.fst).filterMap useId := by
  have hcomp : (useId ∘ unmarkBlock : Block N → Option String) = useId :=
    funext useId_unmarkBlock
  rw [exchanges_unmarked, flatMap_map]
  have hfst : (exchanges ms).flatMap (fun e => (unmarkedExchange e).1) =
      ((exchanges ms).flatMap Prod.fst).map unmarkBlock := map_flatMap.symm
  rw [hfst, filterMap_map, hcomp]

end OmniRoute.ClaudeRequest
