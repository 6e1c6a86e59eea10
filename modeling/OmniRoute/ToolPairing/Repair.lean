import OmniRoute.Lib.Lookahead
import OmniRoute.ToolPairing.Message

/-!
# Tool call repair

`ensureToolCallIds`, `fixMissingToolResponses` and `stripOrphanedToolResults` of
`open-sse/translator/helpers/toolCallHelper.ts`, in the order in which `translateRequest` runs them
on the final payload.

The second pass looks at the next message only and is content with one answer to any of the
calls; the third asks only whether the call of a result exists anywhere. So a turn is repaired when
none of its calls is answered, and left as it is when one is.

**Main result (`repaired_iff`).** The conversation is well paired after the repair exactly when
before it every turn is answered as a whole and in its place or not at all (`WholeTurns`), and
every message of role `tool` has an id or takes one by its position.
-/

namespace OmniRoute.ToolPairing

open List Option Lookahead Block

variable {N : Type}

/-! ## The passes -/

/-- Where generated ids come from: the `n`th long id and the `n`th short id, drawn until it is not
among the used ones. -/
structure IdSource where
  long : ℕ → String
  nine : ℕ → List String → String
  nine_fresh : ∀ n used, nine n used ∉ used

/-- `id == null || String(id).trim() === ""` -/
def missingId (id : Option String) : Bool := id.all isBlank

section Ensure

variable [JsonNumber N] [Zero N] [DecidableEq N]

/-- Arguments that are there but no string are turned into their text. -/
def ToolFunction.withTextArguments (function : ToolFunction N) : ToolFunction N :=
  match function.arguments with
  | none => function
  | some (.str _) => function
  | some arguments =>
    if arguments.truthy then { function with arguments := some (.str arguments.stringify) }
    else function

def ToolCall.withType (tc : ToolCall N) : ToolCall N :=
  { tc with
    type := if (truthyId tc.type).isNone then some "function" else tc.type
    function := tc.function.map ToolFunction.withTextArguments }

/-- The id a call has after the pass. -/
def newId (use9CharId : Bool) (source : IdSource) (n : ℕ) (used9 : List String)
    (tc : ToolCall N) : String :=
  if use9CharId then source.nine n used9
  else if missingId tc.id then source.long n
  else tc.id.getD ""

/-- The calls of one message, with their new ids in order; `n` counts the calls. -/
def ensureCalls (use9CharId : Bool) (source : IdSource) :
    ℕ → List String → List (ToolCall N) → List (ToolCall N × String)
  | _, _, [] => []
  | n, used9, tc :: tcs =>
    let id := newId use9CharId source n used9 tc
    ({ tc.withType with id := some id }, id) ::
      ensureCalls use9CharId source (n + 1) (id :: used9) tcs

/-- The messages after an assistant message, up to the next one: the responses take the ids in
order. -/
def fillResponses (use9CharId : Bool) : List String → List (Message N) → List (Message N)
  | _, [] => []
  | ids, later :: rest =>
    if later.role = .assistant then later :: rest
    else if later.role ≠ .tool then later :: fillResponses use9CharId ids rest
    else
      match ids with
      | [] => later :: fillResponses use9CharId [] rest
      | id :: ids =>
        (if use9CharId || missingId later.toolCallId then { later with toolCallId := some id }
          else later) :: fillResponses use9CharId ids rest

/-- The responses of a turn end at the next assistant message, so the later turns may be run
first. -/
def ensureFrom (use9CharId : Bool) (source : IdSource) :
    ℕ → List (Message N) → List (Message N)
  | _, [] => []
  | n, msg :: rest =>
    match msg.role, msg.toolCalls with
    | .assistant, some tcs =>
      let done := ensureCalls use9CharId source n [] tcs
      { msg with toolCalls := some (done.map Prod.fst) } ::
        fillResponses use9CharId (done.map Prod.snd)
          (ensureFrom use9CharId source (n + tcs.length) rest)
    | _, _ => msg :: ensureFrom use9CharId source n rest

def ensureToolCallIds (use9CharId : Bool) (source : IdSource) (msgs : List (Message N)) :
    List (Message N) :=
  ensureFrom use9CharId source 0 msgs

end Ensure

def hasToolResults (msg : Option (Message N)) (toolCallIds : List String) : Bool :=
  match msg with
  | none => false
  | some msg =>
    if toolCallIds = [] then false
    else
      match decide (msg.role = .tool), truthyId msg.toolCallId with
      | true, some id => toolCallIds.contains id
      | _, _ =>
        decide (msg.role = .user) &&
          msg.content.blockList.any fun b => b.answeredId.any fun id => toolCallIds.contains id

def emptyToolMessage (id : String) : Message N :=
  { role := .tool, content := .text "", toolCallId := some id }

def emptyResultBlock (id : String) : Block N := .toolResult (some id) [("content", .str "")]

/-- The empty results for the calls of a message, in its shape. -/
def emptyResponses (msg : Message N) : List (Message N) :=
  if msg.calls ≠ [] then (getToolCallIds msg).map emptyToolMessage
  else [{ role := .user, content := .blocks ((getToolCallIds msg).map emptyResultBlock) }]

def fixMissingStep (msg : Message N) (nextMsg : Option (Message N)) : List (Message N) :=
  if getToolCallIds msg = [] then [msg]
  else if nextMsg.isSome && !hasToolResults nextMsg (getToolCallIds msg) then
    msg :: emptyResponses msg
  else [msg]

def fixMissingToolResponses (msgs : List (Message N)) : List (Message N) :=
  pass fixMissingStep msgs none

/-- A block that is no result of an unknown call. -/
def Block.isKnown (knownCallIds : List String) : Block N → Bool
  | .toolResult id _ => id.any fun id => knownCallIds.contains id
  | _ => true

def stripMessage (knownCallIds : List String) (msg : Message N) : Option (Message N) :=
  match decide (msg.role = .tool), truthyId msg.toolCallId with
  | true, some id => if knownCallIds.contains id then some msg else none
  | _, _ =>
    match msg.content with
    | .blocks bs =>
      let cleanedContent := bs.filter (isKnown knownCallIds)
      if cleanedContent.length ≠ bs.length then
        if cleanedContent.length = 0 then none
        else some { msg with content := .blocks cleanedContent }
      else some msg
    | _ => some msg

def stripOrphanedToolResults (msgs : List (Message N)) : List (Message N) :=
  msgs.filterMap (stripMessage (msgs.flatMap getToolCallIds))

/-- The repair of the final payload. -/
def repair [JsonNumber N] [Zero N] [DecidableEq N] (source : IdSource) (msgs : List (Message N)) :
    List (Message N) :=
  stripOrphanedToolResults (fixMissingToolResponses (ensureToolCallIds false source msgs))

/-! ## What is asked of the repair -/

/-- The messages have the two shapes: results are messages of role `tool` or blocks of user
messages, every call has an id, and no two calls have the same. -/
structure Shaped (msgs : List (Message N)) : Prop where
  blocks : ∀ m ∈ msgs, m.role ≠ .user → ∀ b ∈ m.content.blockList, b.isToolResult = false
  ids : ∀ id ∈ msgs.flatMap rawCallIds, missingId id = false
  distinct : (msgs.flatMap rawCallIds).Nodup

/-- The repair did its work: the calls have their results, the results their calls, and what was in
its place is still there. -/
structure Repaired (msgs repaired : List (Message N)) : Prop where
  paired : Paired repaired
  answers : Answers [] repaired
  kept : (placedResults [] msgs).Sublist (repaired.flatMap results)

/-- The conversation with the responses read by position: the `k`th message of role `tool` of a turn
that has no id stands for the `k`th entry of `tool_calls`. -/
def linked : List String → List (Message N) → List (Message N)
  | _, [] => []
  | ids, m :: ms =>
    if m.role = .assistant then m :: linked (m.calls.filterMap fun tc => tc.id) ms
    else if m.role = .tool then
      { m with
        toolCallId := if missingId m.toolCallId then ids.head?.or m.toolCallId else m.toolCallId } ::
        linked ids.tail ms
    else m :: linked ids ms

/-- A message that does not end a run of carriers once orphans are taken out: it carries a result of
a known call, or nothing but results. -/
def keepsRun (knownCallIds : List String) (m : Message N) : Bool :=
  decide (m.role = .tool) || (decide (m.role = .user) &&
    ((m.content.blockList.any fun b => b.isToolResult && b.isKnown knownCallIds) ||
      (!m.content.blockList.isEmpty && m.content.blockList.all isToolResult)))

/-- Every turn is answered as a whole and in its place, beginning with the next message, or not at
all; and every response names a call. -/
structure WholeTurns (msgs : List (Message N)) : Prop where
  turns : ∀ a rest, a :: rest <:+ msgs →
    (∀ c ∈ getToolCallIds a, some c ∉ resultIds msgs) ∨
      (hasToolResults rest.head? (getToolCallIds a) = true ∧
        ∀ c ∈ getToolCallIds a, (resultIds msgs).count (some c) = 1 ∧
          some c ∈ resultIds (rest.takeWhile (keepsRun (msgs.flatMap getToolCallIds))))
  responses : ∀ m ∈ msgs, m.role = .tool → (truthyId m.toolCallId).isSome = true

/-! ## The orphan filter, message by message -/

/-- Only user messages have result blocks. -/
def ResultsInUser (m : Message N) : Prop :=
  m.role ≠ .user → ∀ b ∈ m.content.blockList, b.isToolResult = false

/-- A result that the orphan filter keeps: a response without an id or one with a known one. -/
def survives (knownCallIds : List String) : ToolResult N → Bool
  | .message msg => (truthyId msg.toolCallId).all fun id => knownCallIds.contains id
  | .block b => b.isKnown knownCallIds

theorem Block.isKnown_of_not_result {b : Block N} (h : b.isToolResult = false)
    (known : List String) : b.isKnown known = true := by
  cases b with
  | toolResult id fields => cases h
  | _ => rfl

variable {m : Message N}

/-- The filter on the content of a message. -/
theorem stripMessage_of_content (h : m.role = .tool → truthyId m.toolCallId = none)
    (known : List String) :
    stripMessage known m =
      match m.content with
      | .blocks bs =>
        if bs ≠ [] ∧ bs.filter (isKnown known) = [] then none
        else some { m with content := .blocks (bs.filter (isKnown known)) }
      | _ => some m := by
  have hskip : stripMessage known m =
      match m.content with
      | .blocks bs =>
        if (bs.filter (isKnown known)).length ≠ bs.length then
          if (bs.filter (isKnown known)).length = 0 then none
          else some { m with content := .blocks (bs.filter (isKnown known)) }
        else some m
      | _ => some m := by
    unfold stripMessage
    by_cases hrole : m.role = .tool
    · rw [h hrole, decide_eq_true hrole]
    · rw [decide_eq_false hrole]
  rw [hskip]
  cases hc : m.content with
  | absent => rfl
  | text s => rfl
  | blocks bs => exact filterContent_eq hc _

theorem stripMessage_tool {id : String} (hrole : m.role = .tool)
    (hid : truthyId m.toolCallId = some id) (known : List String) :
    stripMessage known m = if known.contains id then some m else none := by
  unfold stripMessage
  rw [hid, decide_eq_true hrole]

variable {known : List String}

/-- A message all of whose results are known is left as it is. -/
theorem stripMessage_of_known (h : m.role = .tool → truthyId m.toolCallId = none)
    (hknown : ∀ b ∈ m.content.blockList, b.isKnown known = true) :
    stripMessage known m = some m := by
  rw [stripMessage_of_content h]
  obtain ⟨role, content, toolCalls, toolCallId, fields⟩ := m
  cases content with
  | absent => rfl
  | text s => rfl
  | blocks bs =>
    have hall : bs.filter (isKnown known) = bs := filter_eq_self.2 hknown
    show (if _ then _ else _) = _
    rw [hall, if_neg fun hc => hc.1 hc.2]

theorem stripMessage_of_not_user (hm : ResultsInUser m) (huser : m.role ≠ .user)
    (h : m.role = .tool → truthyId m.toolCallId = none) (known : List String) :
    stripMessage known m = some m :=
  stripMessage_of_known h fun b hb => isKnown_of_not_result (hm huser b hb) known

theorem stripMessage_assistant (hm : ResultsInUser m) (hrole : m.role = .assistant)
    (known : List String) : stripMessage known m = some m :=
  stripMessage_of_not_user hm (by rw [hrole]; decide) (fun h => by rw [hrole] at h; cases h) known

theorem role_of_stripMessage {m' : Message N} (h : stripMessage known m = some m') :
    m'.role = m.role := by
  by_cases hid : m.role = .tool → truthyId m.toolCallId = none
  · rw [stripMessage_of_content hid] at h
    split at h
    · split at h
      · cases h
      · cases h
        rfl
    · cases h
      rfl
  · obtain ⟨hrole, hid⟩ := Classical.not_imp.1 hid
    obtain ⟨id, hid⟩ := ne_none_iff_exists'.1 hid
    rw [stripMessage_tool hrole hid] at h
    split at h
    · cases h
      rfl
    · cases h

/-- What the filter leaves of the results of a message. -/
theorem results_stripMessage (hm : ResultsInUser m) (known : List String) :
    (stripMessage known m).toList.flatMap results = (results m).filter (survives known) := by
  by_cases htool : m.role = .tool
  · have hres : results m = [.message m] := if_pos htool
    cases hid : truthyId m.toolCallId with
    | none =>
      have hkeep : survives known (.message m) = true := by simp [survives, hid]
      rw [stripMessage_of_not_user hm (by rw [htool]; decide) (fun _ => hid), hres,
        filter_cons_of_pos hkeep]
      simp [hres]
    | some id =>
      have hsur : survives known (.message m) = known.contains id := by simp [survives, hid]
      rw [stripMessage_tool htool hid, hres]
      by_cases hknown : known.contains id = true
      · rw [if_pos hknown, filter_cons_of_pos (hsur.trans hknown)]
        simp [hres]
      · rw [if_neg hknown, filter_cons_of_neg (by rwa [hsur])]
        rfl
  · have hid : m.role = .tool → truthyId m.toolCallId = none := fun h => absurd h htool
    by_cases huser : m.role = .user
    · rw [stripMessage_of_content hid]
      obtain ⟨role, content, toolCalls, toolCallId, fields⟩ := m
      obtain rfl : role = .user := huser
      cases content with
      | absent => rfl
      | text s => rfl
      | blocks bs =>
        have hfilter : ((bs.filter isToolResult).map ToolResult.block).filter (survives known) =
            ((bs.filter (isKnown known)).filter isToolResult).map .block := by
          rw [List.filter_map, filter_comm]
          rfl
        show (if _ then _ else _ : Option (Message N)).toList.flatMap results =
          ((bs.filter isToolResult).map ToolResult.block).filter (survives known)
        rw [hfilter]
        by_cases hnil : bs ≠ [] ∧ bs.filter (isKnown known) = []
        · rw [if_pos hnil, hnil.2]
          rfl
        · rw [if_neg hnil]
          simp [results, Content.blockList]
    · have hnone : results m = [] := by rw [results, if_neg htool, if_neg huser]
      rw [stripMessage_of_not_user hm huser hid, hnone]
      simp [hnone]

/-- A message of a run is dropped or stays a carrier. -/
theorem carrier_of_keepsRun {m' : Message N} (h : keepsRun known m = true)
    (hm' : stripMessage known m = some m') : isCarrier m' = true := by
  by_cases htool : m.role = .tool
  · have hrole := (role_of_stripMessage hm').trans htool
    simp [isCarrier, hrole]
  · rw [stripMessage_of_content fun h => absurd h htool] at hm'
    obtain ⟨role, content, toolCalls, toolCallId, fields⟩ := m
    unfold keepsRun at h
    rw [decide_eq_false htool, Bool.false_or, Bool.and_eq_true, decide_eq_true_iff] at h
    obtain ⟨rfl, h⟩ := h
    cases content with
    | absent => cases h
    | text s => cases h
    | blocks bs =>
      replace hm' : (if _ then _ else _) = some m' := hm'
      replace h : ((bs.any fun b => b.isToolResult && b.isKnown known) ||
        (!bs.isEmpty && bs.all isToolResult)) = true := h
      split at hm'
      · cases hm'
      · next hkeep =>
        cases hm'
        have hres : ∃ b ∈ bs, b.isKnown known = true ∧ b.isToolResult = true := by
          rcases Bool.or_eq_true_iff.1 h with h | h
          · obtain ⟨b, hb, h⟩ := List.any_eq_true.1 h
            exact ⟨b, hb, (Bool.and_eq_true_iff.1 h).2, (Bool.and_eq_true_iff.1 h).1⟩
          · obtain ⟨hne, hall⟩ := Bool.and_eq_true_iff.1 h
            have hne : bs ≠ [] := by simpa using hne
            obtain ⟨b, hb⟩ := exists_mem_of_ne_nil _ fun hc => hkeep ⟨hne, hc⟩
            exact ⟨b, mem_of_mem_filter hb, of_mem_filter hb,
              all_eq_true.1 hall b (mem_of_mem_filter hb)⟩
        obtain ⟨b, hb, hknown, hresult⟩ := hres
        have hany := List.any_eq_true.2 ⟨b, mem_filter.2 ⟨hb, hknown⟩, hresult⟩
        exact Bool.or_eq_true_iff.2 (.inr (Bool.and_eq_true_iff.2 ⟨rfl, hany⟩))

/-- A message that ends a run stays, and carries no result. -/
theorem not_carrier_of_not_keepsRun (hm : ResultsInUser m) (h : keepsRun known m = false) :
    ∃ m', stripMessage known m = some m' ∧ isCarrier m' = false := by
  unfold keepsRun at h
  obtain ⟨htool, h⟩ := Bool.or_eq_false_iff.1 h
  rw [decide_eq_false_iff_not] at htool
  have hid : m.role = .tool → truthyId m.toolCallId = none := fun h => absurd h htool
  by_cases huser : m.role = .user
  · rw [decide_eq_true huser, Bool.true_and, Bool.or_eq_false_iff] at h
    rw [stripMessage_of_content hid]
    obtain ⟨role, content, toolCalls, toolCallId, fields⟩ := m
    obtain rfl : role = .user := huser
    cases content with
    | absent => exact ⟨_, rfl, rfl⟩
    | text s => exact ⟨_, rfl, rfl⟩
    | blocks bs =>
      obtain ⟨hany, hall⟩ : (bs.any fun b => b.isToolResult && b.isKnown known) = false ∧
        (!bs.isEmpty && bs.all isToolResult) = false := h
      have hkept : ¬(bs ≠ [] ∧ bs.filter (isKnown known) = []) := by
        rintro ⟨hne, hnil⟩
        have hresults : bs.all isToolResult = true := by
          refine all_eq_true.2 fun b hb => ?_
          by_contra hb'
          rw [Bool.not_eq_true] at hb'
          exact filter_eq_nil_iff.1 hnil b hb (isKnown_of_not_result hb' known)
        have hempty : bs.isEmpty = false := by simpa using hne
        rw [hempty, hresults] at hall
        cases hall
      refine ⟨_, if_neg hkept, ?_⟩
      refine Bool.or_eq_false_iff.2 ⟨rfl, Bool.and_eq_false_iff.2 (.inr ?_)⟩
      refine any_eq_false.2 fun b hb hres => ?_
      obtain ⟨hb, hknown⟩ := mem_filter.1 hb
      exact any_eq_false.1 hany b hb (Bool.and_eq_true_iff.2 ⟨hres, hknown⟩)
  · refine ⟨m, stripMessage_of_not_user hm huser hid known, ?_⟩
    simp [isCarrier, htool, huser]

/-! ## The two passes as one -/

/-- The messages inserted after a message. -/
def inserted (msg : Message N) (nextMsg : Option (Message N)) : List (Message N) :=
  if getToolCallIds msg ≠ [] ∧ nextMsg.isSome = true ∧
      hasToolResults nextMsg (getToolCallIds msg) = false then
    emptyResponses msg
  else []

theorem fixMissingStep_eq (msg : Message N) (nextMsg : Option (Message N)) :
    fixMissingStep msg nextMsg = msg :: inserted msg nextMsg := by
  unfold fixMissingStep inserted
  by_cases hcalls : getToolCallIds msg = []
  · rw [if_pos hcalls, if_neg fun h => h.1 hcalls]
  · rw [if_neg hcalls]
    have hcond : (nextMsg.isSome && !hasToolResults nextMsg (getToolCallIds msg)) = true ↔
        nextMsg.isSome = true ∧ hasToolResults nextMsg (getToolCallIds msg) = false := by
      rw [Bool.and_eq_true, Bool.not_eq_true']
    by_cases hnext : nextMsg.isSome = true ∧ hasToolResults nextMsg (getToolCallIds msg) = false
    · rw [if_pos (hcond.2 hnext), if_pos ⟨hcalls, hnext⟩]
    · rw [if_neg fun h => hnext (hcond.1 h), if_neg fun h => hnext h.2]

theorem ne_empty_of_mem_getToolCallIds {c : String} (h : c ∈ getToolCallIds m) : c ≠ "" := by
  rw [getToolCallIds_eq, mem_filterMap] at h
  obtain ⟨id, -, hid⟩ := h
  exact (truthyId_eq_some.1 hid).2

theorem truthyId_some {c : String} (h : c ≠ "") : truthyId (some c) = some c :=
  truthyId_eq_some.2 ⟨rfl, h⟩

theorem isKnown_emptyResultBlock {id : String} (h : id ∈ known) :
    (emptyResultBlock id : Block N).isKnown known = true :=
  contains_iff_mem.2 h

/-- The inserted messages carry the results of the calls, in order, and nothing else. -/
theorem resultIds_emptyResponses (m : Message N) :
    resultIds (emptyResponses m) = (getToolCallIds m).map some := by
  have hids : ∀ c ∈ getToolCallIds m, truthyId (some c) = some c := fun c hc =>
    truthyId_some (ne_empty_of_mem_getToolCallIds hc)
  unfold emptyResponses
  by_cases hcalls : m.calls ≠ []
  · rw [if_pos hcalls, resultIds, flatMap_map, map_flatMap]
    have hone : ∀ c ∈ getToolCallIds m,
        (results (emptyToolMessage c : Message N)).map ToolResult.id = [some c] :=
      fun c hc => congrArg (fun id => [id]) (hids c hc)
    rw [flatMap_congr hone, ← map_eq_flatMap]
  · have hall : ((getToolCallIds m).map emptyResultBlock).filter (isToolResult (N := N)) =
        (getToolCallIds m).map emptyResultBlock :=
      filter_eq_self.2 fun b hb => by
        obtain ⟨c, -, rfl⟩ := List.mem_map.1 hb
        rfl
    have hres : results ({ role := .user
                           content := .blocks ((getToolCallIds m).map emptyResultBlock) } : Message N) =
        (((getToolCallIds m).map emptyResultBlock).filter isToolResult).map .block := rfl
    rw [if_neg hcalls, resultIds, flatMap_singleton, hres, hall, List.map_map, List.map_map]
    exact map_congr_left hids

theorem role_of_mem_emptyResponses {x : Message N} (h : x ∈ emptyResponses m) :
    x.role = .tool ∨ x.role = .user := by
  unfold emptyResponses at h
  by_cases hcalls : m.calls ≠ []
  · rw [if_pos hcalls] at h
    obtain ⟨c, -, rfl⟩ := List.mem_map.1 h
    exact .inl rfl
  · rw [if_neg hcalls, mem_singleton] at h
    exact .inr (h ▸ rfl)

theorem carrier_of_mem_emptyResponses {x : Message N} (hm : getToolCallIds m ≠ [])
    (h : x ∈ emptyResponses m) : isCarrier x = true := by
  unfold emptyResponses at h
  by_cases hcalls : m.calls ≠ []
  · rw [if_pos hcalls] at h
    obtain ⟨c, -, rfl⟩ := List.mem_map.1 h
    rfl
  · rw [if_neg hcalls, mem_singleton] at h
    obtain ⟨c, hc⟩ := exists_mem_of_ne_nil _ hm
    subst h
    exact List.any_eq_true.2 ⟨_, mem_map_of_mem hc, rfl⟩

theorem stripMessage_emptyResponses {x : Message N} (hknown : getToolCallIds m ⊆ known)
    (h : x ∈ emptyResponses m) : stripMessage known x = some x := by
  unfold emptyResponses at h
  by_cases hcalls : m.calls ≠ []
  · rw [if_pos hcalls] at h
    obtain ⟨c, hc, rfl⟩ := List.mem_map.1 h
    have hid := truthyId_some (ne_empty_of_mem_getToolCallIds hc)
    rw [stripMessage_tool rfl hid, if_pos (contains_iff_mem.2 (hknown hc))]
  · rw [if_neg hcalls, mem_singleton] at h
    have hall : ((getToolCallIds m).map emptyResultBlock).filter (isKnown (N := N) known) =
        (getToolCallIds m).map emptyResultBlock := by
      refine filter_eq_self.2 fun b hb => ?_
      obtain ⟨c, hc, rfl⟩ := List.mem_map.1 hb
      exact isKnown_emptyResultBlock (hknown hc)
    subst h
    rw [stripMessage_of_content fun h => by cases h]
    show (if _ then _ else _) = _
    rw [hall, if_neg fun hc => hc.1 hc.2]

theorem getToolCallIds_of_ne_assistant (h : m.role ≠ .assistant) : getToolCallIds m = [] := if_neg h

theorem getToolCallIds_inserted (m : Message N) (next : Option (Message N)) :
    (inserted m next).flatMap getToolCallIds = [] := by
  refine flatMap_eq_nil_iff.2 fun x hx => getToolCallIds_of_ne_assistant ?_
  unfold inserted at hx
  split at hx
  · rcases role_of_mem_emptyResponses hx with h | h <;> rw [h] <;> decide
  · cases hx

theorem getToolCallIds_fixMissing (msgs : List (Message N)) :
    (fixMissingToolResponses msgs).flatMap getToolCallIds = msgs.flatMap getToolCallIds := by
  unfold fixMissingToolResponses
  rw [flatMap_pass]
  refine pass_eq_flatMap _ fun m _ next => ?_
  rw [fixMissingStep_eq, flatMap_cons, getToolCallIds_inserted, append_nil]

/-- What the last two passes make of one message. -/
def repairStep (known : List String) (m : Message N) (next : Option (Message N)) :
    List (Message N) :=
  (fixMissingStep m next).flatMap fun x => (stripMessage known x).toList

theorem stripOrphaned_fixMissing (msgs : List (Message N)) :
    stripOrphanedToolResults (fixMissingToolResponses msgs) =
      pass (repairStep (msgs.flatMap getToolCallIds)) msgs none := by
  unfold stripOrphanedToolResults
  rw [getToolCallIds_fixMissing, filterMap_eq_flatMap_toList]
  exact flatMap_pass _ _ _ _

theorem repairStep_assistant (hm : ResultsInUser m) (hknown : getToolCallIds m ⊆ known)
    (hrole : m.role = .assistant) (next : Option (Message N)) :
    repairStep known m next = m :: inserted m next := by
  have hkeep : ∀ x ∈ inserted m next, (stripMessage known x).toList = [x] := by
    intro x hx
    unfold inserted at hx
    split at hx
    · rw [stripMessage_emptyResponses hknown hx]
      rfl
    · cases hx
  rw [repairStep, fixMissingStep_eq, flatMap_cons, stripMessage_assistant hm hrole,
    flatMap_congr hkeep, flatMap_singleton']
  rfl

theorem repairStep_of_ne_assistant (hrole : m.role ≠ .assistant) (next : Option (Message N)) :
    repairStep known m next = (stripMessage known m).toList := by
  have hnone : inserted m next = [] := if_neg fun h => h.1 (getToolCallIds_of_ne_assistant hrole)
  rw [repairStep, fixMissingStep_eq, hnone, flatMap_singleton]

variable {next : Option (Message N)}

theorem resultIds_inserted
    (h : next.isSome = true ∧ hasToolResults next (getToolCallIds m) = false) :
    resultIds (inserted m next) = (getToolCallIds m).map some := by
  by_cases hcalls : getToolCallIds m = []
  · rw [inserted, if_neg fun hc => hc.1 hcalls, hcalls]
    rfl
  · rw [inserted, if_pos ⟨hcalls, h⟩, resultIds_emptyResponses]

theorem inserted_of_answered (h : hasToolResults next (getToolCallIds m) = true) :
    inserted m next = [] :=
  if_neg fun hc => Bool.false_ne_true (hc.2.2.symm.trans h)

theorem inserted_none (m : Message N) : inserted m none = [] := if_neg fun h => by cases h.2.1

theorem mem_resultIds_inserted {id : Option String} (h : id ∈ resultIds (inserted m next)) :
    ∃ c ∈ getToolCallIds m, id = some c := by
  unfold inserted at h
  split at h
  · rw [resultIds_emptyResponses] at h
    obtain ⟨c, hc, rfl⟩ := List.mem_map.1 h
    exact ⟨c, hc, rfl⟩
  · cases h

theorem role_of_mem_inserted {x : Message N} (h : x ∈ inserted m next) : x.role ≠ .assistant := by
  unfold inserted at h
  split at h
  · rcases role_of_mem_emptyResponses h with h | h <;> rw [h] <;> decide
  · cases h

theorem survives_of_id {r : ToolResult N} {c : String} (hr : r.id = some c) (hc : c ∈ known) :
    survives known r = true := by
  have hc' : known.contains c = true := contains_iff_mem.2 hc
  cases r with
  | message msg =>
    have hid : truthyId msg.toolCallId = some c := hr
    simp only [survives, hid, all_some, hc']
  | block b =>
    cases b with
    | toolResult id fields =>
      obtain ⟨rfl, -⟩ := truthyId_eq_some.1 hr
      exact hc'
    | _ => cases hr

/-- The next message has a result for one of the calls. -/
theorem hasToolResults_iff {n : Message N} {ids : List String} :
    hasToolResults (some n) ids = true ↔ ∃ c ∈ ids, some c ∈ resultIds [n] := by
  have hids : ∀ {P : String → Prop}, ids = [] → ¬∃ c ∈ ids, P c := by
    rintro P rfl ⟨c, hc, -⟩
    cases hc
  unfold hasToolResults
  by_cases hnil : ids = []
  · simp only [hnil, if_true, Bool.false_eq_true, false_iff]
    exact hnil ▸ hids hnil
  · simp only [hnil, if_false]
    by_cases htool : n.role = .tool
    · have hres : resultIds [n] = [truthyId n.toolCallId] := by
        simp [resultIds, results, htool, ToolResult.id]
      cases hid : truthyId n.toolCallId with
      | _ => simp [htool, hres, hid]
    · by_cases huser : n.role = .user
      · have hres : resultIds [n] =
            (n.content.blockList.filter isToolResult).map answeredId := by
          simp [resultIds, results, huser, ToolResult.id, Function.comp_def]
        have hblock : ∀ b : Block N, ∀ c, b.answeredId = some c → b.isToolResult = true := by
          intro b c hb
          cases b <;> first | rfl | cases hb
        rw [decide_eq_false htool, hres]
        simp only [decide_eq_true huser, Bool.true_and, List.any_eq_true, Option.any_eq_true,
          contains_iff_mem, List.mem_map, mem_filter]
        constructor
        · rintro ⟨b, hb, c, hbc, hc⟩
          exact ⟨c, hc, b, ⟨hb, hblock b c hbc⟩, hbc⟩
        · rintro ⟨c, hc, b, ⟨hb, -⟩, hbc⟩
          exact ⟨b, hb, c, hbc, hc⟩
      · have hres : resultIds [n] = [] := by simp [resultIds, results, huser, htool]
        rw [decide_eq_false htool, hres]
        simp [huser]

theorem keepsRun_of_assistant (h : m.role = .assistant) : keepsRun known m = false := by
  simp [keepsRun, h]

/-! ## What the two passes achieve -/

/-- What the passes may rely on once the ids are in place. -/
structure Numbered (msgs : List (Message N)) : Prop where
  blocks : ∀ m ∈ msgs, ResultsInUser m
  distinct : (msgs.flatMap getToolCallIds).Nodup

section TwoPasses

variable {msgs : List (Message N)} {known : List String}

variable {m : Message N} {c : String}

theorem count_strip (hm : ResultsInUser m) (hc : c ∈ known) :
    (resultIds (stripMessage known m).toList).count (some c) =
      (resultIds [m]).count (some c) := by
  rw [resultIds, results_stripMessage hm, resultIds, flatMap_singleton]
  rw [count_eq_countP, count_eq_countP, countP_map, countP_map, countP_filter]
  refine countP_congr fun r _ => ?_
  simp only [Function.comp_apply, Bool.and_eq_true, beq_iff_eq, and_iff_left_iff_imp]
  exact fun hr => survives_of_id hr hc

theorem count_repairStep (hm : ResultsInUser m) (hcalls : getToolCallIds m ⊆ known) (hc : c ∈ known)
    (next : Option (Message N)) :
    (resultIds (repairStep known m next)).count (some c) =
      (resultIds (inserted m next)).count (some c) + (resultIds [m]).count (some c) := by
  by_cases hrole : m.role = .assistant
  · rw [repairStep_assistant hm hcalls hrole, resultIds_cons, count_append, Nat.add_comm]
  · have hnone : inserted m next = [] := if_neg fun h => h.1 (getToolCallIds_of_ne_assistant hrole)
    rw [repairStep_of_ne_assistant hrole, count_strip hm hc, hnone]
    exact (Nat.zero_add _).symm

theorem count_pass {l : List (Message N)} (hl : ∀ m ∈ l, ResultsInUser m ∧ getToolCallIds m ⊆ known)
    (hc : c ∈ known) (hnot : c ∉ l.flatMap getToolCallIds) (z : Option (Message N)) :
    (resultIds (pass (repairStep known) l z)).count (some c) =
      (resultIds l).count (some c) := by
  induction l with
  | nil => rfl
  | cons m l ih =>
    rw [flatMap_cons, mem_append, not_or] at hnot
    have hins : (resultIds (inserted m (l.head?.or z))).count (some c) = 0 := by
      refine count_eq_zero.2 fun hmem => ?_
      obtain ⟨c', hc', heq⟩ := mem_resultIds_inserted hmem
      exact hnot.1 (some.inj heq ▸ hc')
    rw [pass_cons, resultIds_append, count_append, resultIds_cons m l,
      count_append, ih (fun m' hm' => hl m' (.tail _ hm')) hnot.2,
      count_repairStep (hl m mem_cons_self).1 (hl m mem_cons_self).2 hc, hins, Nat.zero_add]

theorem Numbered.step (h : Numbered msgs) :
    ∀ m ∈ msgs, ResultsInUser m ∧ getToolCallIds m ⊆ msgs.flatMap getToolCallIds :=
  fun m hm => ⟨h.blocks m hm, fun _ hc => mem_flatMap.2 ⟨m, hm, hc⟩⟩

variable {rest : List (Message N)} {a : Message N}

section

variable (h : Numbered msgs)
include h

/-- The results of one call after the passes: those before, and an inserted one. -/
theorem count_repaired (hsplit : a :: rest <:+ msgs) (hc : c ∈ getToolCallIds a) :
    (resultIds (pass (repairStep (msgs.flatMap getToolCallIds)) msgs none)).count
        (some c) =
      (resultIds (inserted a rest.head?)).count (some c) + (resultIds msgs).count (some c) := by
  have hstep := h.step
  have hdistinct := h.distinct
  generalize hknown : msgs.flatMap getToolCallIds = known at *
  obtain ⟨pre, rfl⟩ := hsplit
  have hc' : c ∈ known := by
    rw [← hknown]
    exact mem_flatMap.2 ⟨a, by simp, hc⟩
  rw [← hknown, flatMap_append, flatMap_cons] at hdistinct
  obtain ⟨-, hafter, hdisjoint⟩ := nodup_append.1 hdistinct
  have hpre : c ∉ pre.flatMap getToolCallIds := fun hmem =>
    hdisjoint c hmem c (mem_append_left _ hc) rfl
  have hrest : c ∉ rest.flatMap getToolCallIds := fun hmem =>
    (nodup_append.1 hafter).2.2 c hc c hmem rfl
  have ha := hstep a (by simp)
  rw [pass_append, pass_cons, resultIds_append, resultIds_append,
    count_append, count_append, resultIds_append pre, resultIds_cons a rest,
    count_append, count_append, count_repairStep ha.1 ha.2 hc',
    count_pass (fun m hm => hstep m (by simp [hm])) hc' hpre,
    count_pass (fun m hm => hstep m (by simp [hm])) hc' hrest, or_none]
  omega

omit h in
/-- The run after a turn whose next message answers it. -/
theorem mem_run_pass (hrest : ∀ m ∈ rest, ResultsInUser m ∧ getToolCallIds m ⊆ known)
    (hc : c ∈ known) :
    some c ∈ resultIds (run (pass (repairStep known) rest none)) ↔
      some c ∈ resultIds (rest.takeWhile (keepsRun known)) := by
  have hrun : run (pass (repairStep known) rest none) =
      (rest.takeWhile (keepsRun known)).flatMap fun m => (stripMessage known m).toList := by
    refine takeWhile_pass _ (fun m hm next hkeep => ?_) (fun m hm next hkeep => ?_) none
    · have hrole : m.role ≠ .assistant := fun hrole =>
        Bool.false_ne_true ((keepsRun_of_assistant hrole).symm.trans hkeep)
      exact ⟨repairStep_of_ne_assistant hrole next,
        fun x hx => carrier_of_keepsRun hkeep (mem_toList.1 hx)⟩
    · by_cases hrole : m.role = .assistant
      · exact ⟨m, _, repairStep_assistant (hrest m hm).1 (hrest m hm).2 hrole next,
          not_carrier_of_assistant hrole⟩
      · obtain ⟨m', hm', hcarrier⟩ := not_carrier_of_not_keepsRun (hrest m hm).1 hkeep
        exact ⟨m', [], by rw [repairStep_of_ne_assistant hrole, hm']; rfl, hcarrier⟩
  have hall : ∀ m ∈ rest.takeWhile (keepsRun known), ResultsInUser m := fun m hm =>
    (hrest m ((takeWhile_sublist _).subset hm)).1
  rw [hrun]
  generalize rest.takeWhile (keepsRun known) = l at hall
  induction l with
  | nil => rfl
  | cons m l ih =>
    have hm : some c ∈ resultIds (stripMessage known m).toList ↔ some c ∈ resultIds [m] := by
      rw [← count_pos_iff, ← count_pos_iff, count_strip (hall m mem_cons_self) hc]
    have hl := ih fun m' hm' => hall m' (.tail _ hm')
    rw [flatMap_cons, resultIds_append, mem_append, resultIds_cons m l, mem_append]
    exact or_congr hm hl

/-- Where the turns of the result come from. -/
theorem turn_of_suffix {rest' : List (Message N)}
    (hsplit : a :: rest' <:+ pass (repairStep (msgs.flatMap getToolCallIds)) msgs none)
    (hcalls : getToolCallIds a ≠ []) :
    ∃ rest, a :: rest <:+ msgs ∧ rest' = inserted a rest.head? ++
      pass (repairStep (msgs.flatMap getToolCallIds)) rest none := by
  obtain ⟨c, hc⟩ := exists_mem_of_ne_nil _ hcalls
  have hassistant := role_of_mem_getToolCallIds hc
  obtain ⟨m, rest, u, v, hm, hstep, rfl⟩ := suffix_pass _ hsplit
  rw [or_none] at hstep
  have hok := h.step m (hm.subset mem_cons_self)
  have ha : a ∈ repairStep (msgs.flatMap getToolCallIds) m rest.head? := by simp [hstep]
  by_cases hrole : m.role = .assistant
  · rw [repairStep_assistant hok.1 hok.2 hrole] at hstep
    cases u with
    | nil =>
      obtain ⟨rfl, rfl⟩ := cons.inj hstep
      exact ⟨rest, hm, rfl⟩
    | cons x u =>
      have hins : a ∈ inserted m rest.head? := by
        have htail : inserted m rest.head? = u ++ a :: v := (cons.inj hstep).2
        simp [htail]
      exact absurd hassistant (role_of_mem_inserted hins)
  · rw [repairStep_of_ne_assistant hrole] at ha
    exact absurd ((role_of_stripMessage (mem_toList.1 ha)).symm.trans hassistant) hrole

section

variable (hsplit : a :: rest <:+ msgs)
include hsplit

theorem suffix_of_turn (hrole : a.role = .assistant) :
    a :: (inserted a rest.head? ++
        pass (repairStep (msgs.flatMap getToolCallIds)) rest none) <:+
      pass (repairStep (msgs.flatMap getToolCallIds)) msgs none := by
  have hok := h.step a (hsplit.subset mem_cons_self)
  have hsuffix := pass_suffix (repairStep (msgs.flatMap getToolCallIds)) (z := none) hsplit
  rwa [or_none, repairStep_assistant hok.1 hok.2 hrole] at hsuffix

omit hsplit in
theorem nodup_calls (ha : a ∈ msgs) : (getToolCallIds a).Nodup :=
  (nodup_flatMap.1 h.distinct).1 a ha

/-- A turn whose next message answers none of its calls. -/
theorem unanswered_turn_iff (hrest : rest ≠ [])
    (hnext : hasToolResults rest.head? (getToolCallIds a) = false) (hc : c ∈ getToolCallIds a)
    (tail : List (Message N)) :
    ((resultIds (pass (repairStep (msgs.flatMap getToolCallIds)) msgs none)).count
        (some c) = 1 ∧ some c ∈ resultIds (run (inserted a rest.head? ++ tail))) ↔
      some c ∉ resultIds msgs := by
  have hsome : rest.head?.isSome = true := by
    rw [isSome_head?]
    simpa using hrest
  have hids := resultIds_inserted (m := a) ⟨hsome, hnext⟩
  have hnodup : ((getToolCallIds a).map some).Nodup :=
    (nodup_calls h (hsplit.subset mem_cons_self)).map (some_injective _)
  have hmem : some c ∈ resultIds (inserted a rest.head?) := by
    rw [hids]
    exact mem_map_of_mem hc
  have hcount : (resultIds (inserted a rest.head?)).count (some c) = 1 := by
    rw [hids] at hmem ⊢
    exact count_eq_one_of_mem hnodup hmem
  have hrun : run (inserted a rest.head? ++ tail) = inserted a rest.head? ++ run tail := by
    refine takeWhile_append_of_pos fun x hx => ?_
    unfold inserted at hx
    split at hx
    · next hcond => exact carrier_of_mem_emptyResponses hcond.1 hx
    · cases hx
  rw [count_repaired h hsplit hc, hcount, hrun, resultIds_append, mem_append, ← count_eq_zero]
  constructor
  · rintro ⟨hone, -⟩
    omega
  · intro hzero
    exact ⟨by omega, .inl hmem⟩

/-- A turn whose next message answers some of its calls. -/
theorem answered_turn_iff
    (hnext : hasToolResults rest.head? (getToolCallIds a) = true) (hc : c ∈ getToolCallIds a) :
    ((resultIds (pass (repairStep (msgs.flatMap getToolCallIds)) msgs none)).count
        (some c) = 1 ∧ some c ∈ resultIds (run (inserted a rest.head? ++
          pass (repairStep (msgs.flatMap getToolCallIds)) rest none))) ↔
      (resultIds msgs).count (some c) = 1 ∧
        some c ∈ resultIds (rest.takeWhile (keepsRun (msgs.flatMap getToolCallIds))) := by
  have ha := hsplit.subset mem_cons_self
  have hknown : c ∈ msgs.flatMap getToolCallIds := mem_flatMap.2 ⟨a, ha, hc⟩
  have hrest := fun m hm => h.step m (hsplit.subset (.tail a hm))
  rw [count_repaired h hsplit hc, inserted_of_answered hnext, nil_append,
    mem_run_pass hrest hknown, resultIds_nil, count_nil, Nat.zero_add]

/-- A turn with a next message does not end the result. -/
theorem goes_on (hcalls : getToolCallIds a ≠ []) (hrest : rest ≠ []) :
    inserted a rest.head? ++
      pass (repairStep (msgs.flatMap getToolCallIds)) rest none ≠ [] := by
  obtain ⟨c, hc⟩ := exists_mem_of_ne_nil _ hcalls
  have ha := hsplit.subset mem_cons_self
  obtain ⟨n, t, rfl⟩ := exists_cons_of_ne_nil hrest
  rw [head?_cons]
  by_cases hnext : hasToolResults (some n) (getToolCallIds a) = true
  · -- The next message has a result of a known call, so the filter leaves something of it.
    obtain ⟨c', hc', hn⟩ := hasToolResults_iff.1 hnext
    have hknown : c' ∈ msgs.flatMap getToolCallIds := mem_flatMap.2 ⟨a, ha, hc'⟩
    have hok := h.step n (hsplit.subset (.tail a mem_cons_self))
    have hpos : 0 < (resultIds (repairStep (msgs.flatMap getToolCallIds) n t.head?)).count
        (some c') := by
      rw [count_repairStep hok.1 hok.2 hknown]
      have := count_pos_iff.2 hn
      omega
    intro hnil
    rw [pass_cons, or_none] at hnil
    rw [(append_eq_nil_iff.1 (append_eq_nil_iff.1 hnil).2).1] at hpos
    cases hpos
  · intro hnil
    have hids : resultIds (inserted a (some n)) = (getToolCallIds a).map some :=
      resultIds_inserted ⟨rfl, Bool.eq_false_iff.2 hnext⟩
    rw [(append_eq_nil_iff.1 hnil).1] at hids
    exact hcalls (map_eq_nil_iff.1 hids.symm)

end

/-- The calls after the passes, turn by turn. -/
theorem paired_pass_iff :
    Paired (pass (repairStep (msgs.flatMap getToolCallIds)) msgs none) ↔
      ∀ a rest, a :: rest <:+ msgs → rest ≠ [] →
        (∀ c ∈ getToolCallIds a, some c ∉ resultIds msgs) ∨
        (hasToolResults rest.head? (getToolCallIds a) = true ∧
          ∀ c ∈ getToolCallIds a, (resultIds msgs).count (some c) = 1 ∧
            some c ∈ resultIds (rest.takeWhile (keepsRun (msgs.flatMap getToolCallIds)))) := by
  constructor
  · intro hpaired a rest hsplit hrest
    by_cases hcalls : getToolCallIds a = []
    · exact .inl fun c hc => by rw [hcalls] at hc; cases hc
    obtain ⟨c₀, hc₀⟩ := exists_mem_of_ne_nil _ hcalls
    have hturn := hpaired a _ (suffix_of_turn h hsplit (role_of_mem_getToolCallIds hc₀))
      (goes_on h hsplit hcalls hrest)
    by_cases hnext : hasToolResults rest.head? (getToolCallIds a) = true
    · exact .inr ⟨hnext, fun c hc => (answered_turn_iff h hsplit hnext hc).1 (hturn c hc)⟩
    · rw [Bool.not_eq_true] at hnext
      exact .inl fun c hc => (unanswered_turn_iff h hsplit hrest hnext hc _).1 (hturn c hc)
  · intro hturns a rest' hsplit' hrest' c hc
    obtain ⟨rest, hsplit, rfl⟩ := turn_of_suffix h hsplit' (ne_nil_of_mem hc)
    have hrest : rest ≠ [] := by
      rintro rfl
      exact hrest' (by rw [head?_nil, inserted_none]; rfl)
    by_cases hnext : hasToolResults rest.head? (getToolCallIds a) = true
    · refine (answered_turn_iff h hsplit hnext hc).2 ?_
      rcases hturns a rest hsplit hrest with hnone | ⟨-, hall⟩
      · -- Some call is answered by the next message, so not none of them.
        obtain ⟨n, t, rfl⟩ := exists_cons_of_ne_nil hrest
        obtain ⟨c', hc', hn⟩ := hasToolResults_iff.1 hnext
        obtain ⟨m, hm, hr⟩ := mem_resultIds.1 hn
        obtain rfl := mem_singleton.1 hm
        have hmem := hsplit.subset (.tail a mem_cons_self)
        exact absurd (mem_resultIds.2 ⟨m, hmem, hr⟩) (hnone c' hc')
      · exact hall c hc
    · rw [Bool.not_eq_true] at hnext
      refine (unanswered_turn_iff h hsplit hrest hnext hc _).2 ?_
      rcases hturns a rest hsplit hrest with hnone | ⟨htrue, -⟩
      · exact hnone c hc
      · exact absurd (hnext.symm.trans htrue) Bool.false_ne_true

end

theorem answers_repairStep (hm : ResultsInUser m) (hcalls : getToolCallIds m ⊆ known)
    (opened : List String) (next : Option (Message N)) :
    Answers opened (repairStep known m next) ↔
      ∀ r ∈ results m, survives known r = true → ∃ c ∈ opened, r.id = some c := by
  by_cases hrole : m.role = .assistant
  · have hins : Answers (getToolCallIds m) (inserted m next) :=
      (answers_of_no_assistant fun x hx => role_of_mem_inserted hx).2 fun x hx r hr =>
        mem_resultIds_inserted (mem_resultIds.2 ⟨x, hx, r, hr, rfl⟩)
    rw [repairStep_assistant hm hcalls hrole, Answers, if_pos hrole, results_of_assistant hrole]
    exact ⟨fun _ r hr => (by cases hr), fun _ => ⟨fun r hr => (by cases hr), hins⟩⟩
  · have hstrip : ∀ x ∈ (stripMessage known m).toList, x.role ≠ .assistant := fun x hx =>
      role_of_stripMessage (mem_toList.1 hx) ▸ hrole
    have hresults := results_stripMessage hm known
    rw [repairStep_of_ne_assistant hrole, answers_of_no_assistant hstrip]
    constructor
    · intro h r hr hsur
      have hr : r ∈ (stripMessage known m).toList.flatMap results := by
        rw [hresults]
        exact mem_filter.2 ⟨hr, hsur⟩
      obtain ⟨x, hx, hr⟩ := mem_flatMap.1 hr
      exact h x hx r hr
    · intro h x hx r hr
      have hr : r ∈ (results m).filter (survives known) := by
        rw [← hresults]
        exact mem_flatMap.2 ⟨x, hx, hr⟩
      exact h r (mem_filter.1 hr).1 (mem_filter.1 hr).2

theorem openCalls_repairStep (hm : ResultsInUser m) (hcalls : getToolCallIds m ⊆ known)
    (opened : List String) (next : Option (Message N)) :
    openCalls opened (repairStep known m next) = openCalls opened [m] := by
  by_cases hrole : m.role = .assistant
  · rw [repairStep_assistant hm hcalls hrole, openCalls, openCalls, if_pos hrole,
      openCalls_of_no_assistant fun x hx => role_of_mem_inserted hx]
    rfl
  · have hstrip : ∀ x ∈ (stripMessage known m).toList, x.role ≠ .assistant := fun x hx =>
      role_of_stripMessage (mem_toList.1 hx) ▸ hrole
    rw [repairStep_of_ne_assistant hrole, openCalls_of_no_assistant hstrip,
      openCalls_of_no_assistant (by simpa using hrole)]

/-- The results after the passes: those that survive answer the turn they stand in. -/
theorem answers_pass_iff {l : List (Message N)}
    (hl : ∀ m ∈ l, ResultsInUser m ∧ getToolCallIds m ⊆ known) (opened : List String)
    (z : Option (Message N)) :
    Answers opened (pass (repairStep known) l z) ↔
      ∀ pre m rest, l = pre ++ m :: rest → ∀ r ∈ results m, survives known r = true →
        ∃ c ∈ openCalls opened pre, r.id = some c := by
  induction l generalizing opened with
  | nil =>
    refine ⟨fun _ pre m rest hsplit => ?_, fun _ => trivial⟩
    simp at hsplit
  | cons m l ih =>
    have hok := hl m mem_cons_self
    have hhead : Answers opened (repairStep known m (l.head?.or z)) ↔
        ∀ r ∈ results m, survives known r = true → ∃ c ∈ opened, r.id = some c :=
      answers_repairStep hok.1 hok.2 opened _
    have hopened := openCalls_repairStep hok.1 hok.2 opened (l.head?.or z)
    have hrest := ih (fun m' hm' => hl m' (.tail _ hm')) (openCalls opened [m])
    rw [pass_cons, answers_append, hhead, hopened, hrest]
    constructor
    · rintro ⟨hm, htail⟩ pre m' rest hsplit
      cases pre with
      | nil =>
        obtain ⟨rfl, -⟩ := cons.inj hsplit
        exact hm
      | cons x pre =>
        obtain ⟨rfl, hsplit'⟩ := cons.inj hsplit
        exact htail pre m' rest hsplit'
    · intro h
      exact ⟨h [] m l rfl, fun pre m' rest hsplit => h (m :: pre) m' rest (by rw [hsplit]; rfl)⟩

theorem id_of_survives {r : ToolResult N} (hr : r ∈ results m)
    (hm : m.role = .tool → (truthyId m.toolCallId).isSome = true) (hknown : "" ∉ known)
    (hsur : survives known r = true) : ∃ c ∈ known, r.id = some c := by
  unfold results at hr
  by_cases htool : m.role = .tool
  · rw [if_pos htool, mem_singleton] at hr
    subst hr
    obtain ⟨c, hc⟩ := isSome_iff_exists.1 (hm htool)
    rw [survives, hc] at hsur
    exact ⟨c, contains_iff_mem.1 hsur, hc⟩
  · rw [if_neg htool] at hr
    by_cases huser : m.role = .user
    · rw [if_pos huser, List.mem_map] at hr
      obtain ⟨b, hb, rfl⟩ := hr
      cases b with
      | toolResult id fields =>
        obtain ⟨c, rfl, hc⟩ := (Option.any_eq_true _ _).1 hsur
        have hc := contains_iff_mem.1 hc
        exact ⟨c, hc, truthyId_some fun h => hknown (h ▸ hc)⟩
      | _ => cases (mem_filter.1 hb).2
    · rw [if_neg huser] at hr
      cases hr

/-- No call of the last message is answered, if all results answer their turn. -/
theorem last_unanswered (h : Numbered msgs) (hsplit : [a] <:+ msgs)
    (hanswers : ∀ pre m rest, msgs = pre ++ m :: rest → ∀ r ∈ results m,
      survives (msgs.flatMap getToolCallIds) r = true → ∃ c ∈ openCalls [] pre, r.id = some c) :
    ∀ c ∈ getToolCallIds a, some c ∉ resultIds msgs := by
  intro c hc hmem
  obtain ⟨m, hm, r, hr, hid⟩ := mem_resultIds.1 hmem
  have hknown : c ∈ msgs.flatMap getToolCallIds :=
    mem_flatMap.2 ⟨a, hsplit.subset mem_cons_self, hc⟩
  obtain ⟨pre, post, hmsgs⟩ := append_of_mem hm
  obtain ⟨c', hc', hid'⟩ := hanswers pre m post hmsgs r hr (survives_of_id hid hknown)
  obtain rfl := some.inj (hid.symm.trans hid')
  rcases exists_of_mem_openCalls hc' with hnil | ⟨b, hb, hbc⟩
  · cases hnil
  -- The call is made before the result and again by the last message.
  have hlast : a ∈ m :: post := by
    obtain ⟨pre', hpre'⟩ := hsplit
    rcases append_eq_append_iff.1 (hpre'.trans hmsgs) with ⟨u, -, hu⟩ | ⟨u, -, hu⟩
    · cases u with
      | nil =>
        obtain ⟨rfl, -⟩ := cons.inj hu
        exact mem_cons_self
      | cons x u => simp at hu
    · rw [hu]
      simp
  have hdistinct := h.distinct
  rw [hmsgs, flatMap_append] at hdistinct
  exact (nodup_append.1 hdistinct).2.2 c (mem_flatMap.2 ⟨b, hb, hbc⟩) c
    (mem_flatMap.2 ⟨a, hlast, hc⟩) rfl

/-- In whole turns every surviving result stands in its turn. -/
theorem answers_of_wholeTurns (h : WholeTurns msgs) {pre : List (Message N)}
    (hmsgs : msgs = pre ++ m :: rest) {r : ToolResult N} (hr : r ∈ results m)
    (hsur : survives (msgs.flatMap getToolCallIds) r = true) :
    ∃ c ∈ openCalls [] pre, r.id = some c := by
  have hm : m ∈ msgs := by simp [hmsgs]
  have hempty : "" ∉ msgs.flatMap getToolCallIds := fun hmem => by
    obtain ⟨a, -, hc⟩ := mem_flatMap.1 hmem
    exact ne_empty_of_mem_getToolCallIds hc rfl
  obtain ⟨c, hc, hid⟩ := id_of_survives hr (h.responses m hm) hempty hsur
  have hmem : some c ∈ resultIds msgs := mem_resultIds.2 ⟨m, hm, r, hr, hid⟩
  obtain ⟨a, ha, hca⟩ := mem_flatMap.1 hc
  obtain ⟨before, after, hafter⟩ := append_of_mem ha
  rcases h.turns a after ⟨before, hafter.symm⟩ with hnone | ⟨-, hall⟩
  · exact absurd hmem (hnone c hca)
  obtain ⟨hone, hplace⟩ := hall c hca
  generalize hX : after.takeWhile (keepsRun (msgs.flatMap getToolCallIds)) = X at hplace
  have hcut : msgs = (before ++ [a]) ++
      (X ++ after.dropWhile (keepsRun (msgs.flatMap getToolCallIds))) := by
    rw [← hX, takeWhile_append_dropWhile, append_assoc]
    exact hafter
  have hm' : some c ∈ resultIds [m] :=
    mem_resultIds.2 ⟨m, mem_singleton_self m, r, hr, hid⟩
  obtain ⟨u, v, hu, rfl⟩ :=
    split_of_count_eq_one (hmsgs.symm.trans hcut) hm' hplace (hcut ▸ hone)
  have hrun : ∀ x ∈ u, x.role ≠ .assistant := by
    intro x hx hrole
    have hkeep : keepsRun (msgs.flatMap getToolCallIds) x = true := by
      have hx : x ∈ X := by simp [hu, hx]
      rw [← hX] at hx
      exact mem_takeWhile_imp hx
    exact Bool.false_ne_true ((keepsRun_of_assistant hrole).symm.trans hkeep)
  refine ⟨c, ?_, hid⟩
  rw [openCalls_append, openCalls_append, openCalls, openCalls,
    if_pos (role_of_mem_getToolCallIds hca), openCalls_of_no_assistant hrun]
  exact hca

/-- After the two passes the conversation is well paired exactly when it has whole turns before. -/
theorem wellPaired_iff (h : Numbered msgs) :
    (Paired (stripOrphanedToolResults (fixMissingToolResponses msgs)) ∧
      Answers [] (stripOrphanedToolResults (fixMissingToolResponses msgs))) ↔ WholeTurns msgs := by
  rw [stripOrphaned_fixMissing, paired_pass_iff h, answers_pass_iff h.step]
  constructor
  · rintro ⟨hturns, hanswers⟩
    refine ⟨fun a rest hsplit => ?_, fun m hm htool => ?_⟩
    · by_cases hrest : rest = []
      · subst hrest
        exact .inl (last_unanswered h hsplit hanswers)
      · exact hturns a rest hsplit hrest
    · by_contra hnone
      rw [not_isSome_iff_eq_none] at hnone
      have hr : ToolResult.message m ∈ results m := by
        rw [results, if_pos htool]
        exact mem_singleton_self _
      have hsur : survives (msgs.flatMap getToolCallIds) (.message m) = true := by
        rw [survives, hnone]
        rfl
      obtain ⟨pre, post, hmsgs⟩ := append_of_mem hm
      obtain ⟨c, -, hid⟩ := hanswers pre m post hmsgs _ hr hsur
      cases hnone.symm.trans hid
  · intro hwhole
    exact ⟨fun a rest hsplit _ => hwhole.turns a rest hsplit,
      fun pre m rest hmsgs r hr hsur => answers_of_wholeTurns hwhole hmsgs hr hsur⟩

end TwoPasses

/-! ## The ids -/

theorem fillResponses_assistant (h : m.role = .assistant) (ids : List String)
    (l : List (Message N)) : fillResponses false ids (m :: l) = m :: l := by
  rw [fillResponses.eq_def]
  exact if_pos h

theorem fillResponses_other (h : m.role ≠ .assistant) (ht : m.role ≠ .tool) (ids : List String)
    (l : List (Message N)) : fillResponses false ids (m :: l) = m :: fillResponses false ids l := by
  rw [fillResponses.eq_def]
  exact (if_neg h).trans (if_pos ht)

theorem fillResponses_tool (h : m.role = .tool) (ids : List String) (l : List (Message N)) :
    fillResponses false ids (m :: l) =
      { m with
        toolCallId := if missingId m.toolCallId then ids.head?.or m.toolCallId else m.toolCallId } ::
        fillResponses false ids.tail l := by
  have hrole : m.role ≠ .assistant := by
    rw [h]
    decide
  rw [fillResponses.eq_def]
  refine ((if_neg hrole).trans (if_neg (not_not_intro h))).trans ?_
  cases ids with
  | nil => simp
  | cons id ids =>
    show (if (false || missingId m.toolCallId) = true then _ else _) :: _ = _
    by_cases hmissing : missingId m.toolCallId = true
    · simp [hmissing]
    · simp [hmissing]

variable (l : List (Message N))

theorem fillResponses_nil : fillResponses false [] l = l := by
  induction l with
  | nil => rfl
  | cons m l ih =>
    by_cases hassistant : m.role = .assistant
    · exact fillResponses_assistant hassistant [] l
    · by_cases htool : m.role = .tool
      · rw [fillResponses_tool htool, head?_nil, none_or, ite_self, tail_nil, ih]
      · rw [fillResponses_other hassistant htool, ih]

section Linking

variable [JsonNumber N] [Zero N] [DecidableEq N]

/-- A message after the first pass, its id apart: the calls have a type and text arguments. -/
def withTypedCalls (m : Message N) : Message N :=
  if m.role = .assistant then { m with toolCalls := m.toolCalls.map (List.map ToolCall.withType) }
  else m

theorem missingId_eq_false {id : Option String} (h : missingId id = false) :
    ∃ s, id = some s ∧ isBlank s = false ∧ s ≠ "" := by
  cases id with
  | none => cases h
  | some s => exact ⟨s, rfl, h, fun hs => by subst hs; cases h⟩

theorem ensureCalls_eq (source : IdSource) {tcs : List (ToolCall N)}
    (h : ∀ tc ∈ tcs, missingId tc.id = false) (n : ℕ) (used9 : List String) :
    (ensureCalls false source n used9 tcs).map Prod.fst = tcs.map ToolCall.withType ∧
      (ensureCalls false source n used9 tcs).map Prod.snd = tcs.filterMap fun tc => tc.id := by
  induction tcs generalizing n used9 with
  | nil => exact ⟨rfl, rfl⟩
  | cons tc tcs ih =>
    have hmissing := h tc mem_cons_self
    obtain ⟨s, hs, -, -⟩ := missingId_eq_false hmissing
    have hid : newId false source n used9 tc = s := by
      rw [newId, hmissing, hs]
      rfl
    have hcons : ensureCalls false source n used9 (tc :: tcs) =
        (tc.withType, s) :: ensureCalls false source (n + 1) (s :: used9) tcs := by
      show ({ tc.withType with id := some (newId false source n used9 tc) },
        newId false source n used9 tc) :: ensureCalls false source (n + 1)
          (newId false source n used9 tc :: used9) tcs = _
      rw [hid, ← hs]
      rfl
    obtain ⟨hfst, hsnd⟩ := ih (fun tc' h' => h tc' (.tail _ h')) (n + 1) (s :: used9)
    rw [hcons, map_cons, map_cons, map_cons, hfst, hsnd, filterMap_cons, hs]
    exact ⟨rfl, rfl⟩

omit [JsonNumber N] [Zero N] [DecidableEq N] in
theorem missing_of_calls {msgs : List (Message N)}
    (h : ∀ id ∈ msgs.flatMap rawCallIds, missingId id = false) :
    ∀ m ∈ msgs, m.role = .assistant → ∀ tc ∈ m.calls, missingId tc.id = false := by
  intro m hm hrole tc htc
  refine h tc.id (mem_flatMap.2 ⟨m, hm, ?_⟩)
  rw [rawCallIds, if_pos hrole]
  exact mem_append_left _ (mem_map_of_mem htc)

/-- The first pass gives every response the id it is read with. -/
theorem fillResponses_ensureFrom (source : IdSource) {msgs : List (Message N)}
    (h : ∀ m ∈ msgs, m.role = .assistant → ∀ tc ∈ m.calls, missingId tc.id = false)
    (n : ℕ) (ids : List String) :
    fillResponses false ids (ensureFrom false source n msgs) =
      (linked ids msgs).map withTypedCalls := by
  induction msgs generalizing n ids with
  | nil => rfl
  | cons m ms ih =>
    have hrest := ih fun m' hm' => h m' (.tail _ hm')
    by_cases hassistant : m.role = .assistant
    · rw [linked, if_pos hassistant, map_cons, withTypedCalls, if_pos hassistant]
      have hcalls := h m mem_cons_self hassistant
      obtain ⟨role, content, toolCalls, toolCallId, fields⟩ := m
      obtain rfl : role = .assistant := hassistant
      cases toolCalls with
      | none =>
        show fillResponses false ids (_ :: ensureFrom false source n ms) = _
        rw [fillResponses_assistant rfl, ← fillResponses_nil (ensureFrom false source n ms), hrest]
        rfl
      | some tcs =>
        obtain ⟨hfst, hsnd⟩ := ensureCalls_eq source hcalls n []
        show fillResponses false ids (_ :: fillResponses false _ _) = _
        rw [fillResponses_assistant rfl, hrest]
        simp only [Message.calls, getD_some] at hfst hsnd ⊢
        rw [hfst, hsnd]
        rfl
    · have hskip : ensureFrom false source n (m :: ms) = m :: ensureFrom false source n ms := by
        rw [ensureFrom]
        split
        · next hrole _ => exact absurd hrole hassistant
        · rfl
      rw [hskip, linked, if_neg hassistant]
      by_cases htool : m.role = .tool
      · rw [fillResponses_tool htool, if_pos htool, hrest, map_cons, withTypedCalls]
        exact congrArg (· :: _) (if_neg hassistant).symm
      · rw [fillResponses_other hassistant htool, if_neg htool, map_cons, hrest, withTypedCalls,
          if_neg hassistant]

theorem ensureToolCallIds_eq (source : IdSource) {msgs : List (Message N)}
    (h : ∀ id ∈ msgs.flatMap rawCallIds, missingId id = false) :
    ensureToolCallIds false source msgs = (linked [] msgs).map withTypedCalls := by
  rw [← fillResponses_ensureFrom source (missing_of_calls h) 0, fillResponses_nil]
  rfl

/-! ## What the first pass does not change -/

theorem withTypedCalls_of_ne {m : Message N} (h : m.role ≠ .assistant) : withTypedCalls m = m :=
  if_neg h

theorem role_withTypedCalls (m : Message N) : (withTypedCalls m).role = m.role := by
  unfold withTypedCalls
  split <;> rfl

theorem content_withTypedCalls (m : Message N) : (withTypedCalls m).content = m.content := by
  unfold withTypedCalls
  split <;> rfl

theorem getToolCallIds_withTypedCalls (m : Message N) :
    getToolCallIds (withTypedCalls m) = getToolCallIds m := by
  by_cases hrole : m.role = .assistant
  · rw [getToolCallIds, role_withTypedCalls, content_withTypedCalls, getToolCallIds, if_pos hrole,
      if_pos hrole, withTypedCalls, if_pos hrole]
    congr 1
    obtain ⟨role, content, toolCalls, toolCallId, fields⟩ := m
    cases toolCalls with
    | none => rfl
    | some tcs => exact filterMap_map
  · rw [withTypedCalls_of_ne hrole]

theorem results_withTypedCalls (m : Message N) : results (withTypedCalls m) = results m := by
  by_cases hrole : m.role = .assistant
  · rw [results_of_assistant hrole, results_of_assistant ((role_withTypedCalls m).trans hrole)]
  · rw [withTypedCalls_of_ne hrole]

theorem keepsRun_withTypedCalls (known : List String) (m : Message N) :
    keepsRun known (withTypedCalls m) = keepsRun known m := by
  rw [keepsRun, role_withTypedCalls, content_withTypedCalls]
  rfl

theorem resultIds_withTypedCalls : resultIds (l.map withTypedCalls) = resultIds l := by
  rw [resultIds, flatMap_map, flatMap_congr fun m _ => results_withTypedCalls m]
  rfl

theorem hasToolResults_withTypedCalls (m : Option (Message N)) (ids : List String) :
    hasToolResults (m.map withTypedCalls) ids = hasToolResults m ids := by
  cases m with
  | none => rfl
  | some m =>
    have hids := resultIds_withTypedCalls [m]
    rw [Bool.eq_iff_iff, map_some, hasToolResults_iff, hasToolResults_iff, ← hids, map_singleton]

theorem calls_withTypedCalls :
    (l.map withTypedCalls).flatMap getToolCallIds = l.flatMap getToolCallIds := by
  rw [flatMap_map, flatMap_congr fun m _ => getToolCallIds_withTypedCalls m]

theorem wholeTurns_withTypedCalls {l : List (Message N)} :
    WholeTurns (l.map withTypedCalls) ↔ WholeTurns l := by
  have hturn : ∀ (a : Message N) (rest : List (Message N)),
      ((∀ c ∈ getToolCallIds (withTypedCalls a), some c ∉ resultIds (l.map withTypedCalls)) ∨
        (hasToolResults (rest.map withTypedCalls).head? (getToolCallIds (withTypedCalls a)) = true ∧
          ∀ c ∈ getToolCallIds (withTypedCalls a),
            (resultIds (l.map withTypedCalls)).count (some c) = 1 ∧
            some c ∈ resultIds ((rest.map withTypedCalls).takeWhile
              (keepsRun ((l.map withTypedCalls).flatMap getToolCallIds))))) ↔
      ((∀ c ∈ getToolCallIds a, some c ∉ resultIds l) ∨
        (hasToolResults rest.head? (getToolCallIds a) = true ∧
          ∀ c ∈ getToolCallIds a, (resultIds l).count (some c) = 1 ∧
            some c ∈ resultIds (rest.takeWhile (keepsRun (l.flatMap getToolCallIds))))) := by
    intro a rest
    have hkeeps : keepsRun (l.flatMap getToolCallIds) ∘ (withTypedCalls (N := N)) =
        keepsRun (l.flatMap getToolCallIds) := funext (keepsRun_withTypedCalls _)
    rw [getToolCallIds_withTypedCalls, resultIds_withTypedCalls, head?_map,
      hasToolResults_withTypedCalls, calls_withTypedCalls, takeWhile_map, hkeeps,
      resultIds_withTypedCalls]
  constructor
  · rintro ⟨hturns, hresponses⟩
    refine ⟨fun a rest hsplit => (hturn a rest).1 (hturns _ _ (hsplit.map withTypedCalls)),
      fun m hm htool => ?_⟩
    have hne : m.role ≠ .assistant := by
      rw [htool]
      decide
    have hmap := hresponses _ (mem_map_of_mem hm) ((role_withTypedCalls m).trans htool)
    rwa [withTypedCalls_of_ne hne] at hmap
  · rintro ⟨hturns, hresponses⟩
    refine ⟨fun a rest hsplit => ?_, fun m hm htool => ?_⟩
    · obtain ⟨l', hl', hmap⟩ := suffix_map_iff.1 hsplit
      cases l' with
      | nil => cases hmap
      | cons a' rest' =>
        obtain ⟨rfl, rfl⟩ := cons.inj hmap
        exact (hturn a' rest').2 (hturns a' rest' hl')
    · obtain ⟨m', hm', rfl⟩ := List.mem_map.1 hm
      rw [role_withTypedCalls] at htool
      have hne : m'.role ≠ .assistant := by
        rw [htool]
        decide
      rw [withTypedCalls_of_ne hne]
      exact hresponses m' hm' htool

end Linking

variable {msgs : List (Message N)}

theorem role_content_of_mem_linked {ids : List String} (h : m ∈ linked ids msgs) :
    ∃ m' ∈ msgs, m.role = m'.role ∧ m.content = m'.content := by
  induction msgs generalizing ids with
  | nil => cases h
  | cons m' ms ih =>
    have htail : ∀ {ids}, m ∈ linked ids ms →
        ∃ m'' ∈ m' :: ms, m.role = m''.role ∧ m.content = m''.content := by
      intro ids hm
      obtain ⟨m'', hm'', heq⟩ := ih hm
      exact ⟨m'', .tail _ hm'', heq⟩
    rw [linked] at h
    split at h
    · rcases mem_cons.1 h with rfl | h
      · exact ⟨m, mem_cons_self, rfl, rfl⟩
      · exact htail h
    · split at h
      · rcases mem_cons.1 h with rfl | h
        · exact ⟨m', mem_cons_self, rfl, rfl⟩
        · exact htail h
      · rcases mem_cons.1 h with rfl | h
        · exact ⟨m, mem_cons_self, rfl, rfl⟩
        · exact htail h

theorem calls_linked (ids : List String) (msgs : List (Message N)) :
    (linked ids msgs).flatMap getToolCallIds = msgs.flatMap getToolCallIds := by
  induction msgs generalizing ids with
  | nil => rfl
  | cons m ms ih =>
    rw [linked]
    split
    · rw [flatMap_cons, flatMap_cons, ih]
    · next hassistant =>
      split
      · rw [flatMap_cons, flatMap_cons, ih, getToolCallIds_of_ne_assistant hassistant]
        exact congrArg (· ++ _) (getToolCallIds_of_ne_assistant hassistant)
      · rw [flatMap_cons, flatMap_cons, ih]

theorem calls_eq_filterMap (msgs : List (Message N)) :
    msgs.flatMap getToolCallIds = (msgs.flatMap rawCallIds).filterMap truthyId := by
  rw [filterMap_flatMap, flatMap_congr fun m _ => getToolCallIds_eq m]

theorem numbered_linked (h : Shaped msgs) : Numbered (linked [] msgs) := by
  refine ⟨fun m hm => ?_, ?_⟩
  · obtain ⟨m', hm', hrole, hcontent⟩ := role_content_of_mem_linked hm
    rw [ResultsInUser, hrole, hcontent]
    exact h.blocks m' hm'
  · rw [calls_linked, calls_eq_filterMap]
    refine h.distinct.filterMap fun id id' s hid hid' => ?_
    rw [(truthyId_eq_some.1 hid).1, (truthyId_eq_some.1 hid').1]

/-- Whatever stood in its place is still there. -/
theorem placedResults_sublist_linked {opened : List String} (ids : List String)
    (hcalls : ∀ m ∈ msgs, ∀ c ∈ getToolCallIds m, c ∈ known ∧ isBlank c = false)
    (hopened : ∀ c ∈ opened, c ∈ known ∧ isBlank c = false) :
    (placedResults opened msgs).Sublist
      ((linked ids msgs).flatMap fun m => (results m).filter (survives known)) := by
  induction msgs generalizing opened ids with
  | nil => exact Sublist.refl _
  | cons m ms ih =>
    have hrest := fun o ho i => @ih o i (fun m' hm' => hcalls m' (.tail _ hm')) ho
    have hplaced : ((results m).filter fun r => r.id.any fun c => decide (c ∈ opened)).Sublist
        ((results m).filter (survives known)) := by
      refine monotone_filter_right _ fun r hr => ?_
      obtain ⟨c, hc, hmem⟩ := (Option.any_eq_true _ _).1 hr
      exact survives_of_id hc (hopened c (of_decide_eq_true hmem)).1
    rw [placedResults]
    by_cases hcarrier : isCarrier m = true
    · have hassistant : m.role ≠ .assistant := fun hrole =>
        Bool.false_ne_true ((not_carrier_of_assistant hrole).symm.trans hcarrier)
      rw [if_pos hcarrier, linked, if_neg hassistant]
      by_cases htool : m.role = .tool
      · rw [if_pos htool, flatMap_cons]
        refine Sublist.append ?_ (hrest opened hopened _)
        by_cases hmissing : missingId m.toolCallId = true
        · -- A response without an id is not in the place of a call.
          have hnone : ((results m).filter fun r => r.id.any fun c => decide (c ∈ opened)) = [] := by
            refine filter_eq_nil_iff.2 fun r hr hany => ?_
            rw [results, if_pos htool, mem_singleton] at hr
            subst hr
            obtain ⟨c, hc, hmem⟩ := (Option.any_eq_true _ _).1 hany
            obtain ⟨hid, -⟩ := truthyId_eq_some.1 hc
            rw [hid] at hmissing
            have hblank := (hopened c (of_decide_eq_true hmem)).2
            exact Bool.false_ne_true (hblank.symm.trans hmissing)
          rw [hnone]
          exact nil_sublist _
        · rw [if_neg hmissing]
          exact hplaced
      · rw [if_neg htool, flatMap_cons]
        exact hplaced.append (hrest opened hopened _)
    · have hopened' := fun c hc => hcalls m mem_cons_self c hc
      rw [if_neg hcarrier, linked]
      split
      · exact (hrest _ hopened' _).trans (sublist_append_right _ _)
      · split
        · exact (hrest _ hopened' _).trans (sublist_append_right _ _)
        · exact (hrest _ hopened' _).trans (sublist_append_right _ _)

theorem isBlank_of_mem_calls (h : ∀ id ∈ msgs.flatMap rawCallIds, missingId id = false) :
    ∀ m ∈ msgs, ∀ c ∈ getToolCallIds m, isBlank c = false := by
  intro m hm c hc
  rw [getToolCallIds_eq, mem_filterMap] at hc
  obtain ⟨id, hid, hc⟩ := hc
  obtain ⟨rfl, -⟩ := truthyId_eq_some.1 hc
  exact h _ (mem_flatMap.2 ⟨m, hm, hid⟩)

variable [JsonNumber N] [Zero N] [DecidableEq N]

theorem numbered_ensure (source : IdSource) (h : Shaped msgs) :
    Numbered (ensureToolCallIds false source msgs) := by
  have hlinked := numbered_linked h
  rw [ensureToolCallIds_eq source h.ids]
  refine ⟨fun m hm => ?_, ?_⟩
  · obtain ⟨m', hm', rfl⟩ := List.mem_map.1 hm
    rw [ResultsInUser, role_withTypedCalls, content_withTypedCalls]
    exact hlinked.blocks m' hm'
  · rw [calls_withTypedCalls]
    exact hlinked.distinct

theorem kept_of_shaped {source : IdSource} (h : Shaped msgs) :
    (placedResults [] msgs).Sublist ((repair source msgs).flatMap results) := by
  have hnumbered := numbered_ensure source h
  have heq := ensureToolCallIds_eq source h.ids
  have hknown : (ensureToolCallIds false source msgs).flatMap getToolCallIds =
      msgs.flatMap getToolCallIds := by rw [heq, calls_withTypedCalls, calls_linked]
  have hcalls : ∀ m ∈ msgs, ∀ c ∈ getToolCallIds m,
      c ∈ msgs.flatMap getToolCallIds ∧ isBlank c = false := fun m hm c hc =>
    ⟨mem_flatMap.2 ⟨m, hm, hc⟩, isBlank_of_mem_calls h.ids m hm c hc⟩
  have hplaced := placedResults_sublist_linked [] hcalls
    fun c (hc : c ∈ []) => by cases hc
  have hmap : (ensureToolCallIds false source msgs).flatMap (fun m =>
        (results m).filter (survives (msgs.flatMap getToolCallIds))) =
      (linked [] msgs).flatMap fun m =>
        (results m).filter (survives (msgs.flatMap getToolCallIds)) := by
    rw [heq, flatMap_map, flatMap_congr fun m _ => by rw [results_withTypedCalls]]
  rw [repair, stripOrphaned_fixMissing]
  rw [← hmap, ← hknown] at hplaced
  refine hplaced.trans (sublist_flatMap_pass _ (fun m hm next => ?_) none)
  have hok := hnumbered.step m hm
  by_cases hrole : m.role = .assistant
  · rw [results_of_assistant hrole]
    exact nil_sublist _
  · rw [repairStep_of_ne_assistant hrole, results_stripMessage hok.1]

/-- The repair does its work exactly on conversations whose turns are answered as a whole and in
their place, or not at all. -/
theorem repaired_iff (source : IdSource) (msgs : List (Message N)) (h : Shaped msgs) :
    Repaired msgs (repair source msgs) ↔ WholeTurns (linked [] msgs) := by
  have hnumbered := numbered_ensure source h
  have hpaired := wellPaired_iff hnumbered
  rw [ensureToolCallIds_eq source h.ids, wholeTurns_withTypedCalls,
    ← ensureToolCallIds_eq source h.ids] at hpaired
  constructor
  · rintro ⟨hpairs, hanswers, -⟩
    exact hpaired.1 ⟨hpairs, hanswers⟩
  · intro hwhole
    obtain ⟨hpairs, hanswers⟩ := hpaired.2 hwhole
    exact ⟨hpairs, hanswers, kept_of_shaped h⟩

/-! ## A turn answered by half -/

theorem length_le_foldr_append {s : String} {used : List String} (h : s ∈ used) :
    s.length ≤ (used.foldr (· ++ ·) "").length := by
  induction used with
  | nil => cases h
  | cons t used ih =>
    rw [foldr_cons, String.length_append]
    rcases mem_cons.1 h with rfl | h
    · exact Nat.le_add_right _ _
    · exact (ih h).trans (Nat.le_add_left _ _)

/-- Ids longer than all the used ones. -/
def IdSource.longer : IdSource where
  long n := "call_" ++ toString n
  nine _ used := used.foldr (· ++ ·) "" ++ "x"
  nine_fresh _ used h := by
    have hle := length_le_foldr_append h
    rw [String.length_append] at hle
    exact absurd hle (Nat.not_le_of_gt (Nat.lt_add_one _))

/-- Two calls in parallel, only the first of them answered. -/
def halfAnswered : List (Message ℤ) :=
  [{ role := .user, content := .text "Weather and time?" },
    { role := .assistant
      content := .absent
      toolCalls := some
        [⟨some "call_weather", some "function", some ⟨some "weather", some (.str "{}")⟩⟩,
          ⟨some "call_time", some "function", some ⟨some "time", some (.str "{}")⟩⟩] },
    { role := .tool, content := .text "sunny", toolCallId := some "call_weather" },
    { role := .user, content := .text "Go on." }]

theorem shaped_halfAnswered : Shaped halfAnswered where
  blocks := by
    intro m hm _ b hb
    have hnone : ∀ m ∈ halfAnswered, m.content.blockList.length = 0 := by decide
    rw [length_eq_zero_iff.1 (hnone m hm)] at hb
    cases hb
  ids := by decide +kernel
  distinct := by decide +kernel

theorem repaired_iff_halfAnswered :
    Repaired halfAnswered (repair .longer halfAnswered) ↔ WholeTurns (linked [] halfAnswered) :=
  repaired_iff .longer halfAnswered shaped_halfAnswered

/-- The repair leaves the second call without a result. -/
theorem halfAnswered_not_repaired :
    Shaped halfAnswered ∧ ¬Repaired halfAnswered (repair .longer halfAnswered) := by
  refine ⟨shaped_halfAnswered, fun h => ?_⟩
  have hsame : repair .longer halfAnswered = halfAnswered := by with_unfolding_all rfl
  have hcount : (resultIds halfAnswered).count (some "call_time") = 0 := by decide +kernel
  have hpaired := h.paired
  rw [hsame] at hpaired
  have hone := (hpaired _ _ ⟨halfAnswered.take 1, rfl⟩ (cons_ne_nil _ _) "call_time"
    (by decide +kernel)).1
  rw [hcount] at hone
  cases hone

end OmniRoute.ToolPairing
