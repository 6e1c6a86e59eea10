import OmniRoute.Lib.JsNumber
import OmniRoute.Lib.Lookahead
import OmniRoute.ToolPairing.Message

/-!
# History purification

`purifyHistory` of `open-sse/services/contextManager.ts`: the system messages and a suffix of the
others are kept, the tool calls and results that the cut tore apart are removed by four passes, and
a notice tells how much was dropped.

The adjacency pass keeps the calls of a message that the next message answers. In the OpenAI shape
every result is a message of its own, so of several parallel calls it keeps the first one only.

**Main result (`purified_iff`).** Of a conversation whose calls are all answered in their place, the
list that is returned is well formed and has all exchanges of the kept part exactly when the kept
part answers every turn with one message (`OneCarrier`) and none of its results can be taken for
the result of a later call.
-/

namespace OmniRoute.ToolPairing

open List Option Lookahead Block

variable {N : Type}

/-! ## The passes -/

/-- `content` is a text that is not blank or a nonempty array. -/
def hasContent (msg : Message N) : Bool :=
  match msg.content with
  | .absent => false
  | .text s => !isBlank s
  | .blocks bs => !bs.isEmpty

def hasToolCalls (msg : Message N) : Bool := !msg.calls.isEmpty

/-- The ids that a message answers. -/
def answeredIds (msg : Message N) : List String :=
  if msg.role = .tool then (truthyId msg.toolCallId).toList
  else if msg.role = .user then msg.content.blockList.filterMap answeredId
  else []

/-- `!id || ids.has(id)` -/
def idIn (ids : List String) (id : Option String) : Bool :=
  (truthyId id).all fun s => ids.contains s

def Block.callIn (ids : List String) : Block N → Bool
  | .toolUse id _ => idIn ids id
  | _ => true

def Block.resultIn (ids : List String) : Block N → Bool
  | .toolResult id _ => idIn ids id
  | _ => true

/-- The content array without the blocks that fail a test. -/
def Content.filterBlocks (p : Block N → Bool) : Content N → Content N
  | .blocks bs => .blocks (bs.filter p)
  | content => content

/-- A message without the calls that are not among `ids`. -/
def filterCalls (ids : List String) (msg : Message N) : Message N :=
  { msg with
    toolCalls := msg.toolCalls.map fun tcs => tcs.filter fun tc => idIn ids tc.id
    content := msg.content.filterBlocks (callIn ids) }

/-- The last pass of the pair fix: what is left of a message when `toolCallIds` are the calls. -/
def dropOrphans (toolCallIds : List String) (msg : Message N) : Option (Message N) :=
  if msg.role = .tool && !idIn toolCallIds msg.toolCallId then none
  else if msg.role = .user then
    match msg.content with
    | .blocks bs =>
      let filteredContent := bs.filter (resultIn toolCallIds)
      if filteredContent.length ≠ bs.length then
        if filteredContent.length = 0 then none
        else some { msg with content := .blocks filteredContent }
      else some msg
    | _ => some msg
  else if msg.role = .assistant && !hasContent msg && !hasToolCalls msg then none
  else some msg

def fixToolPairs (messages : List (Message N)) : List (Message N) :=
  let toolResultIds := messages.flatMap answeredIds
  let filteredMessages := Lookahead.pass
    (fun msg next =>
      [if msg.role = .assistant && next.isSome then filterCalls toolResultIds msg else msg])
    messages none
  filteredMessages.filterMap (dropOrphans (filteredMessages.flatMap getToolCallIds))

/-- The number of calls and blocks of a message, by which a change is noticed. -/
def size (msg : Message N) : ℕ := msg.calls.length + msg.content.blockList.length

def adjacencyStep (msg : Message N) (nextMsg : Option (Message N)) : List (Message N) :=
  match decide (msg.role = .assistant), nextMsg with
  | true, some nextMsg =>
    let newMsg := filterCalls (answeredIds nextMsg) msg
    if size newMsg ≠ size msg then
      if !hasContent newMsg && !hasToolCalls newMsg then [] else [newMsg]
    else [msg]
  | _, _ => [msg]

def fixToolAdjacency (messages : List (Message N)) : List (Message N) :=
  if messages.length ≤ 1 then messages else Lookahead.pass adjacencyStep messages none

/-- A message without any calls. -/
def withoutCalls (msg : Message N) : Message N :=
  { msg with
    toolCalls := msg.toolCalls.map fun _ => []
    content := msg.content.filterBlocks fun b => !b.isToolUse }

def stripTrailingAssistantOrphanToolUse (messages : List (Message N)) : List (Message N) :=
  match messages.getLast? with
  | none => messages
  | some last =>
    if last.role ≠ .assistant then messages
    else
      let newLast := withoutCalls last
      if size newLast = size last then messages
      else
        messages.dropLast ++ if hasContent newLast || hasToolCalls newLast then [newLast] else []

def isSystem (msg : Message N) : Bool :=
  decide (msg.role = .system) || decide (msg.role = .developer)

/-- `messages.slice(-keep)`, which is everything when `keep` is zero. -/
def sliceLast (keep : ℕ) (messages : List (Message N)) : List (Message N) :=
  if keep = 0 then messages else messages.drop (messages.length - keep)

/-- What is kept at a cut point, after the passes. -/
def purifyCandidate (messages : List (Message N)) (keep : ℕ) : List (Message N) :=
  let system := messages.filter isSystem
  let nonSystem := messages.filter fun m => !isSystem m
  stripTrailingAssistantOrphanToolUse (fixToolPairs (fixToolAdjacency (fixToolPairs
    (system ++ sliceLast keep nonSystem))))

def droppedNotice (dropped : ℕ) : String :=
  "[Context compressed: " ++ toString dropped ++
    " earlier messages removed to fit context window]"

/-- The notice goes into the leading system message, or into a new one. -/
def withNotice (notice : String) : List (Message N) → List (Message N)
  | [] => [{ role := .system, content := .text notice }]
  | first :: rest =>
    if isSystem first then
      match first.content with
      | .text s =>
        { first with content := .text (if s = "" then notice else notice ++ "\n" ++ s) } :: rest
      | .blocks bs =>
        { first with
          content := .blocks (.other (.obj [("type", .str "text"), ("text", .str notice)]) :: bs) }
          :: rest
      | .absent => { first with content := .text notice } :: rest
    else { role := .system, content := .text notice } :: first :: rest

/-- What `purifyHistory` returns when its search ends at the cut point `keep`. -/
def purifyAt (messages : List (Message N)) (keep : ℕ) : List (Message N) :=
  let result := purifyCandidate messages keep
  let count := (messages.filter fun m => !isSystem m).length
  if keep < count then withNotice (droppedNotice (count - keep)) result else result

/-- `Math.max(2, Math.floor(keep * 0.7))` -/
def nextKeep (keep : ℕ) : ℕ := max 2 (JsNumber.floorMul keep 6305039478318694)

theorem nextKeep_lt {keep : ℕ} (h : 2 < keep) : nextKeep keep < keep :=
  Nat.max_lt.2 ⟨h, JsNumber.floorMul_lt (by omega) (by decide)⟩

/-- The search for a cut point: `fits` says whether a candidate is within the target. -/
def searchKeep (fits : ℕ → Bool) (keep : ℕ) : ℕ :=
  if h : 2 < keep then
    if fits keep then keep
    else
      have := nextKeep_lt h
      searchKeep fits (nextKeep keep)
  else keep
termination_by keep

/-- `estimateTokens` weighs a list of messages. -/
def purifyHistory (estimateTokens : List (Message N) → ℕ) (messages : List (Message N))
    (targetTokens : ℕ) : List (Message N) :=
  purifyAt messages (searchKeep
    (fun keep => decide (estimateTokens (purifyCandidate messages keep) ≤ targetTokens))
    (messages.filter fun m => !isSystem m).length)

/-! ## What is asked of the purification -/

/-- Every call is answered exactly once in the run of carriers directly after its message. -/
def AnsweredOnce (msgs : List (Message N)) : Prop :=
  ∀ a rest, a :: rest <:+ msgs → ∀ id ∈ rawCallIds a,
    ∃ c, truthyId id = some c ∧ (resultIds (run rest)).count (some c) = 1

/-- The part of a conversation after its first `drop` messages that are not system messages. -/
def keptPart (drop : ℕ) : List (Message N) → List (Message N)
  | [] => []
  | m :: ms =>
    match drop with
    | 0 => m :: ms
    | drop + 1 => if isSystem m then keptPart (drop + 1) ms else keptPart drop ms

/-- The conversation from the cut point on. -/
def keptSuffix (keep : ℕ) (messages : List (Message N)) : List (Message N) :=
  if keep = 0 then messages
  else keptPart ((messages.filter fun m => !isSystem m).length - keep) messages

/-- The results for calls of a message, in the run of carriers directly after it. -/
def answersOf (a : Message N) (rest : List (Message N)) : List (ToolResult N) :=
  ((run rest).flatMap results).filter fun r => r.id.any fun c => decide (c ∈ getToolCallIds a)

/-- The exchanges of a conversation: the messages with calls, each with its results. -/
def exchanges : List (Message N) → List (Message N × List (ToolResult N))
  | [] => []
  | m :: ms => if getToolCallIds m = [] then exchanges ms else (m, answersOf m ms) :: exchanges ms

/-- The purification did its work on the part that it kept: calls are answered directly after their
message, results are preceded by their call, and no exchange has changed. -/
structure Purified (kept result : List (Message N)) : Prop where
  answered : ∀ a rest, a :: rest <:+ result → ∀ id ∈ rawCallIds a,
    ∃ c, truthyId id = some c ∧ some c ∈ resultIds (run rest)
  preceded : ∀ pre m rest, result = pre ++ m :: rest → ∀ r ∈ results m,
    ∃ c, r.id = some c ∧ c ∈ pre.flatMap getToolCallIds
  intact : List.SublistForall₂ (fun e e' => e.1 = e'.1 ∧ e.2.Sublist e'.2)
    (exchanges kept) (exchanges result)

/-- A message that is there after the first pair fix, when its calls are `toolCallIds`: no orphan,
no assistant message without content, and no system message, which goes to the front. -/
def stays (toolCallIds : List String) (msg : Message N) : Bool :=
  !isSystem msg && (dropOrphans toolCallIds msg).isSome

/-- Every turn is answered by the first message after it that stays, and a result whose call is made
at all has it made before. -/
structure OneCarrier (kept : List (Message N)) : Prop where
  turns : ∀ a rest, a :: rest <:+ kept → getToolCallIds a ≠ [] →
    ∃ n, rest.find? (stays (kept.flatMap getToolCallIds)) = some n ∧
      ∀ c ∈ getToolCallIds a, some c ∈ resultIds [n]
  calls : ∀ pre m rest, kept = pre ++ m :: rest → ∀ r ∈ results m,
    ∃ c, r.id = some c ∧ (c ∈ kept.flatMap getToolCallIds → c ∈ pre.flatMap getToolCallIds)

/-! ## The filters, message by message -/

variable {ids : List String} {id : Option String}

theorem idIn_iff : idIn ids id = true ↔ ∀ c, truthyId id = some c → c ∈ ids := by
  unfold idIn
  cases truthyId id with
  | _ => simp

variable {m : Message N}

theorem mem_answeredIds {c : String} : c ∈ answeredIds m ↔ some c ∈ resultIds [m] := by
  rw [resultIds, flatMap_singleton]
  unfold answeredIds results
  by_cases htool : m.role = .tool
  · rw [if_pos htool, if_pos htool, mem_toList]
    simp [ToolResult.id, eq_comm]
  · rw [if_neg htool, if_neg htool]
    by_cases huser : m.role = .user
    · have hblock : ∀ b : Block N, b.answeredId = some c → b.isToolResult = true := by
        intro b hb
        cases b <;> first | rfl | cases hb
      rw [if_pos huser, if_pos huser, List.map_map, mem_filterMap, List.mem_map]
      constructor
      · rintro ⟨b, hb, hbc⟩
        exact ⟨b, mem_filter.2 ⟨hb, hblock b hbc⟩, hbc⟩
      · rintro ⟨b, hb, hbc⟩
        exact ⟨b, (mem_filter.1 hb).1, hbc⟩
    · rw [if_neg huser, if_neg huser]
      simp

theorem role_filterCalls (ids : List String) (m : Message N) :
    (filterCalls ids m).role = m.role := rfl

theorem getToolCallIds_filterCalls_sublist (ids : List String) (m : Message N) :
    (getToolCallIds (filterCalls ids m)).Sublist (getToolCallIds m) := by
  rw [getToolCallIds, getToolCallIds, role_filterCalls]
  by_cases hrole : m.role = .assistant
  · rw [if_pos hrole, if_pos hrole]
    refine Sublist.append (List.Sublist.filterMap _ ?_) (List.Sublist.filterMap _ ?_)
    · obtain ⟨role, content, toolCalls, toolCallId, fields⟩ := m
      cases toolCalls with
      | none => exact Sublist.refl _
      | some tcs => exact filter_sublist
    · obtain ⟨role, content, toolCalls, toolCallId, fields⟩ := m
      cases content with
      | blocks bs => exact filter_sublist
      | _ => exact Sublist.refl _
  · rw [if_neg hrole]
    exact nil_sublist _

theorem filterCalls_eq_self (hrole : m.role = .assistant)
    (h : ∀ id ∈ rawCallIds m, idIn ids id = true) : filterCalls ids m = m := by
  rw [rawCallIds, if_pos hrole] at h
  obtain ⟨role, content, toolCalls, toolCallId, fields⟩ := m
  have hcalls : toolCalls.map (fun tcs => tcs.filter fun tc => idIn ids tc.id) = toolCalls := by
    cases toolCalls with
    | none => rfl
    | some tcs =>
      have hall : tcs.filter (fun tc => idIn ids tc.id) = tcs :=
        filter_eq_self.2 fun tc htc =>
          h tc.id (mem_append_left _ (mem_map_of_mem htc))
      rw [map_some, hall]
  have hcontent : content.filterBlocks (callIn ids) = content := by
    cases content with
    | absent => rfl
    | text s => rfl
    | blocks bs =>
      have hall : bs.filter (callIn ids) = bs := by
        refine filter_eq_self.2 fun b hb => ?_
        cases b with
        | toolUse id fields =>
          exact h id (mem_append_right _ (mem_filterMap.2 ⟨_, hb, rfl⟩))
        | _ => rfl
      exact congrArg Content.blocks hall
  rw [filterCalls, hcalls, hcontent]

/-- A call that no id of the list names is taken out. -/
theorem not_mem_filterCalls {c : String} (hc : c ∉ ids) :
    c ∉ getToolCallIds (filterCalls ids m) := by
  intro h
  have hrole := role_of_mem_getToolCallIds h
  have hin : ∀ {id : Option String}, truthyId id = some c → idIn ids id = true → False :=
    fun hid h => hc (idIn_iff.1 h c hid)
  rw [getToolCallIds, if_pos hrole, mem_append, mem_filterMap, mem_filterMap] at h
  obtain ⟨role, content, toolCalls, toolCallId, fields⟩ := m
  rcases h with ⟨tc, htc, hid⟩ | ⟨b, hb, hid⟩
  · cases toolCalls with
    | none => cases htc
    | some tcs => exact hin hid (mem_filter.1 htc).2
  · cases content with
    | absent => cases hb
    | text s => cases hb
    | blocks bs =>
      cases b with
      | toolUse id fields => exact hin hid (mem_filter.1 hb).2
      | _ => cases hid

section DropOrphans

variable {known : List String} {m m' : Message N}

/-- The orphan filter on a user message. -/
theorem dropOrphans_user (hrole : m.role = .user) :
    dropOrphans known m =
      match m.content with
      | .blocks bs =>
        if bs ≠ [] ∧ bs.filter (resultIn known) = [] then none
        else some { m with content := .blocks (bs.filter (resultIn known)) }
      | _ => some m := by
  have htool : decide (m.role = .tool) = false := by simp [hrole]
  rw [dropOrphans, htool, Bool.false_and, if_neg Bool.false_ne_true, if_pos hrole]
  cases hc : m.content with
  | absent => rfl
  | text s => rfl
  | blocks bs => exact filterContent_eq hc _

theorem dropOrphans_tool (hrole : m.role = .tool) :
    dropOrphans known m = if idIn known m.toolCallId then some m else none := by
  have hassistant : decide (m.role = .assistant) = false := by simp [hrole]
  have huser : m.role ≠ .user := by
    rw [hrole]
    decide
  rw [dropOrphans, decide_eq_true hrole, Bool.true_and, if_neg huser, hassistant]
  cases idIn known m.toolCallId <;> rfl

theorem dropOrphans_other (htool : m.role ≠ .tool) (huser : m.role ≠ .user) :
    dropOrphans known m =
      if m.role = .assistant && !hasContent m && !hasToolCalls m then none else some m := by
  rw [dropOrphans, decide_eq_false htool, Bool.false_and, if_neg Bool.false_ne_true, if_neg huser]

/-- What is left of a message that is no user message is the message. -/
theorem eq_of_dropOrphans (huser : m.role ≠ .user) (h : dropOrphans known m = some m') :
    m' = m := by
  by_cases htool : m.role = .tool
  · rw [dropOrphans_tool htool] at h
    split at h
    · exact (some.inj h).symm
    · cases h
  · rw [dropOrphans_other htool huser] at h
    split at h
    · cases h
    · exact (some.inj h).symm

theorem role_of_dropOrphans (h : dropOrphans known m = some m') : m'.role = m.role := by
  by_cases huser : m.role = .user
  · rw [dropOrphans_user huser] at h
    split at h
    · split at h
      · cases h
      · cases h
        rfl
    · cases h
      rfl
  · rw [eq_of_dropOrphans huser h]

theorem hasContent_or_hasToolCalls (h : getToolCallIds m ≠ []) :
    (hasContent m || hasToolCalls m) = true := by
  obtain ⟨c, hc⟩ := exists_mem_of_ne_nil _ h
  rw [getToolCallIds, if_pos (role_of_mem_getToolCallIds hc), mem_append, mem_filterMap,
    mem_filterMap] at hc
  obtain ⟨role, content, toolCalls, toolCallId, fields⟩ := m
  rcases hc with ⟨tc, htc, -⟩ | ⟨b, hb, -⟩
  · refine Bool.or_eq_true_iff.2 (.inr ?_)
    have hne : (toolCalls.getD []) ≠ [] := ne_nil_of_mem htc
    simpa [hasToolCalls, Message.calls] using hne
  · refine Bool.or_eq_true_iff.2 (.inl ?_)
    cases content with
    | absent => cases hb
    | text s => cases hb
    | blocks bs =>
      have hne : bs ≠ [] := ne_nil_of_mem hb
      simpa [hasContent] using hne

theorem dropOrphans_of_calls (h : getToolCallIds m ≠ []) : dropOrphans known m = some m := by
  obtain ⟨c, hc⟩ := exists_mem_of_ne_nil _ h
  have hrole := role_of_mem_getToolCallIds hc
  have hfull := hasContent_or_hasToolCalls h
  rw [dropOrphans_other (by rw [hrole]; decide) (by rw [hrole]; decide), hrole]
  rw [if_neg]
  intro hempty
  simp_all

theorem calls_dropOrphans (known : List String) (m : Message N) :
    (dropOrphans known m).toList.flatMap getToolCallIds = getToolCallIds m := by
  by_cases h : getToolCallIds m = []
  · rw [h, flatMap_eq_nil_iff]
    intro m' hm'
    have hm' := mem_toList.1 hm'
    by_cases huser : m.role = .user
    · have hrole := (role_of_dropOrphans hm').trans huser
      exact if_neg (by rw [hrole]; decide)
    · rw [eq_of_dropOrphans huser hm', h]
  · rw [dropOrphans_of_calls h]
    exact flatMap_singleton _ _

theorem results_dropOrphans (known : List String) (m : Message N) :
    (dropOrphans known m).toList.flatMap results =
      (results m).filter fun r => r.id.all fun c => known.contains c := by
  by_cases huser : m.role = .user
  · rw [dropOrphans_user huser]
    obtain ⟨role, content, toolCalls, toolCallId, fields⟩ := m
    obtain rfl : role = .user := huser
    cases content with
    | absent => rfl
    | text s => rfl
    | blocks bs =>
      have hfilter : (bs.filter isToolResult).filter (fun b =>
          (ToolResult.block b).id.all fun c => known.contains c) =
          (bs.filter (resultIn known)).filter isToolResult := by
        rw [List.filter_filter, List.filter_filter]
        refine filter_congr fun b _ => ?_
        cases b with
        | toolUse id fields => rfl
        | toolResult id fields => rw [Bool.and_comm]; rfl
        | other value => rfl
      show (if _ then _ else _ : Option (Message N)).toList.flatMap results =
        ((bs.filter isToolResult).map ToolResult.block).filter _
      rw [List.filter_map]
      by_cases hnil : bs ≠ [] ∧ bs.filter (resultIn known) = []
      · rw [if_pos hnil]
        rw [hnil.2] at hfilter
        exact (congrArg (List.map ToolResult.block) hfilter).symm
      · rw [if_neg hnil, toList_some, flatMap_singleton]
        exact (congrArg (List.map ToolResult.block) hfilter).symm
  · by_cases htool : m.role = .tool
    · have hres : results m = [.message m] := if_pos htool
      rw [dropOrphans_tool htool, hres]
      have hid : ((ToolResult.message m).id.all fun c => known.contains c) =
          idIn known m.toolCallId := rfl
      rw [filter_cons, hid]
      by_cases hin : idIn known m.toolCallId = true
      · rw [if_pos hin, if_pos hin]
        simp [hres]
      · rw [if_neg hin, if_neg hin]
        rfl
    · have hnone : results m = [] := by rw [results, if_neg htool, if_neg huser]
      rw [hnone, filter_nil, flatMap_eq_nil_iff]
      intro m' hm'
      rw [eq_of_dropOrphans huser (mem_toList.1 hm'), hnone]

/-- What the filter leaves it leaves the next time. -/
theorem dropOrphans_idem (h : dropOrphans known m = some m') : dropOrphans known m' = some m' := by
  by_cases huser : m.role = .user
  · have huser' := (role_of_dropOrphans h).trans huser
    rw [dropOrphans_user huser] at h
    rw [dropOrphans_user huser']
    obtain ⟨role, content, toolCalls, toolCallId, fields⟩ := m
    cases content with
    | absent => obtain rfl := some.inj h; rfl
    | text s => obtain rfl := some.inj h; rfl
    | blocks bs =>
      replace h : (if _ then _ else _) = some m' := h
      split at h
      · cases h
      · cases h
        show (if _ then _ else _) = _
        rw [List.filter_filter]
        simp only [Bool.and_self]
        rw [if_neg fun hc => hc.1 hc.2]
  · obtain rfl := eq_of_dropOrphans huser h
    exact h

end DropOrphans

/-! ## System messages -/

section

variable (h : isSystem m = true)
include h

theorem role_of_isSystem : m.role ≠ .assistant ∧ m.role ≠ .user ∧ m.role ≠ .tool := by
  refine ⟨?_, ?_, ?_⟩ <;> intro hrole <;> simp [isSystem, hrole] at h

theorem calls_of_isSystem : getToolCallIds m = [] :=
  if_neg (role_of_isSystem h).1

theorem results_of_isSystem : results m = [] := by
  rw [results, if_neg (role_of_isSystem h).2.2, if_neg (role_of_isSystem h).2.1]

theorem dropOrphans_of_isSystem (known : List String) : dropOrphans known m = some m := by
  obtain ⟨hassistant, huser, htool⟩ := role_of_isSystem h
  rw [dropOrphans_other htool huser, decide_eq_false hassistant]
  rfl

end

/-- What is left of a message behind the system messages. -/
def staying (known : List String) (m : Message N) : Option (Message N) :=
  if isSystem m then none else dropOrphans known m

theorem stays_eq (known : List String) (m : Message N) :
    stays known m = (staying known m).isSome := by
  unfold stays staying
  cases isSystem m <;> rfl

theorem calls_staying (known : List String) (m : Message N) :
    (staying known m).toList.flatMap getToolCallIds = getToolCallIds m := by
  unfold staying
  by_cases h : isSystem m = true
  · rw [if_pos h, calls_of_isSystem h]
    rfl
  · rw [if_neg h, calls_dropOrphans]

theorem results_staying (known : List String) (m : Message N) :
    (staying known m).toList.flatMap results =
      (results m).filter fun r => r.id.all fun c => known.contains c := by
  unfold staying
  by_cases h : isSystem m = true
  · rw [if_pos h, results_of_isSystem h]
    rfl
  · rw [if_neg h, results_dropOrphans]

theorem dropOrphans_of_staying {known : List String} {m' : Message N}
    (h : staying known m = some m') : isSystem m = false ∧ dropOrphans known m = some m' := by
  unfold staying at h
  split at h
  · cases h
  · next hsys => exact ⟨by simpa using hsys, h⟩

/-- A message with a result of a known call stays, with the result. -/
theorem staying_of_result {known : List String} {c : String} (hc : c ∈ known)
    (h : some c ∈ resultIds [m]) : ∃ m', staying known m = some m' ∧ some c ∈ resultIds [m'] := by
  obtain ⟨m₀, hm₀, r, hr, hid⟩ := mem_resultIds.1 h
  obtain rfl := mem_singleton.1 hm₀
  have hmem : r ∈ (staying known m₀).toList.flatMap results := by
    rw [results_staying]
    refine mem_filter.2 ⟨hr, ?_⟩
    rw [hid]
    exact contains_iff_mem.2 hc
  obtain ⟨m', hm', hr'⟩ := mem_flatMap.1 hmem
  exact ⟨m', mem_toList.1 hm', mem_resultIds.2 ⟨m', mem_singleton_self m', r, hr', hid⟩⟩

theorem carrier_of_result (h : id ∈ resultIds [m]) : isCarrier m = true := by
  by_contra hm
  rw [Bool.not_eq_true] at hm
  obtain ⟨m₀, hm₀, r, hr, -⟩ := mem_resultIds.1 h
  obtain rfl := mem_singleton.1 hm₀
  rw [results_of_not_carrier hm] at hr
  cases hr

theorem not_system_of_carrier (h : isCarrier m = true) : isSystem m = false := by
  by_contra hsys
  rw [Bool.not_eq_false] at hsys
  obtain ⟨-, huser, htool⟩ := role_of_isSystem hsys
  simp [isCarrier, huser, htool] at h

/-! ## The passes on a list in order -/

variable {l : List (Message N)}

/-- The pair fix when every call is answered somewhere. -/
theorem fixToolPairs_eq (h : ∀ a ∈ l, a.role = .assistant → ∀ id ∈ rawCallIds a,
      idIn (l.flatMap answeredIds) id = true) :
    fixToolPairs l = l.filterMap (dropOrphans (l.flatMap getToolCallIds)) := by
  have hsame : Lookahead.pass (fun (msg : Message N) next =>
      [if msg.role = .assistant && next.isSome then filterCalls (l.flatMap answeredIds) msg
        else msg]) l none = l := by
    refine pass_eq_self fun a t ht => ?_
    have ha := ht.subset mem_cons_self
    by_cases hcond : (decide (a.role = .assistant) && (t.head?.or none).isSome) = true
    · have hrole := of_decide_eq_true (Bool.and_eq_true_iff.1 hcond).1
      rw [if_pos hcond, filterCalls_eq_self hrole (h a ha hrole)]
    · rw [if_neg hcond]
  unfold fixToolPairs
  simp only [hsame]

variable {a : Message N}

theorem adjacencyStep_eq_self {next : Option (Message N)}
    (h : a.role = .assistant → ∀ n, next = some n → ∀ id ∈ rawCallIds a,
      idIn (answeredIds n) id = true) : adjacencyStep a next = [a] := by
  unfold adjacencyStep
  by_cases hrole : a.role = .assistant
  · rw [decide_eq_true hrole]
    cases next with
    | none => rfl
    | some n =>
      simp only [filterCalls_eq_self hrole (h hrole n rfl), ne_eq, not_true_eq_false, if_false]
  · rw [decide_eq_false hrole]

/-- The adjacency fix when every call is answered by the next message. -/
theorem fixToolAdjacency_eq_self
    (h : ∀ a t, a :: t <:+ l → a.role = .assistant → ∀ n, t.head? = some n →
      ∀ id ∈ rawCallIds a, idIn (answeredIds n) id = true) : fixToolAdjacency l = l := by
  unfold fixToolAdjacency
  split
  · rfl
  · refine pass_eq_self fun a t ht => adjacencyStep_eq_self fun hrole n hn => ?_
    rw [or_none] at hn
    exact h a t ht hrole n hn

theorem withoutCalls_eq_self (hrole : m.role = .assistant) (h : rawCallIds m = []) :
    size (withoutCalls m) = size m := by
  rw [rawCallIds, if_pos hrole, append_eq_nil_iff] at h
  obtain ⟨role, content, toolCalls, toolCallId, fields⟩ := m
  obtain ⟨hcalls, hblocks⟩ := h
  have hsize : ((toolCalls.map fun _ => ([] : List (ToolCall N))).getD []).length =
      (toolCalls.getD []).length := by
    have hnil : toolCalls.getD [] = [] := map_eq_nil_iff.1 hcalls
    rw [hnil]
    cases toolCalls <;> rfl
  have hcontent : (content.filterBlocks fun b => !b.isToolUse).blockList = content.blockList := by
    cases content with
    | absent => rfl
    | text s => rfl
    | blocks bs =>
      refine filter_eq_self.2 fun b hb => ?_
      cases b with
      | toolUse id fields =>
        have := filterMap_eq_nil_iff.1 hblocks _ hb
        cases this
      | _ => rfl
  exact congrArg₂ (· + ·) hsize (congrArg length hcontent)

/-- The trailing fix when the last message has no calls. -/
theorem stripTrailing_eq_self (h : ∀ a, [a] <:+ l → a.role = .assistant → rawCallIds a = []) :
    stripTrailingAssistantOrphanToolUse l = l := by
  unfold stripTrailingAssistantOrphanToolUse
  cases hlast : l.getLast? with
  | none => rfl
  | some a =>
    by_cases hrole : a.role = .assistant
    · obtain ⟨init, rfl⟩ := getLast?_eq_some_iff.1 hlast
      have hsize := withoutCalls_eq_self hrole (h a (suffix_append init [a]) hrole)
      simp only [hrole, ne_eq, not_true_eq_false, if_false, hsize, if_true]
    · simp only [hrole, ne_eq, not_false_eq_true, if_true]

/-! ## The passes on the kept part -/

/-- What is left of the kept part behind the system messages, if its calls stay. -/
def behind (kept : List (Message N)) : List (Message N) :=
  kept.filterMap (staying (kept.flatMap getToolCallIds))

section Kept

variable {system kept : List (Message N)}

theorem calls_append_system (hsys : ∀ m ∈ system, isSystem m = true) (l : List (Message N)) :
    (system ++ l).flatMap getToolCallIds = l.flatMap getToolCallIds := by
  rw [flatMap_append, flatMap_eq_nil_iff.2 fun m hm => calls_of_isSystem (hsys m hm), nil_append]

theorem calls_filterMap_staying (known : List String) (l : List (Message N)) :
    (l.filterMap (staying known)).flatMap getToolCallIds = l.flatMap getToolCallIds := by
  rw [filterMap_eq_flatMap_toList, flatMap_assoc]
  exact flatMap_congr fun m _ => calls_staying known m

theorem calls_filter_system (l : List (Message N)) :
    (l.filter fun m => !isSystem m).flatMap getToolCallIds = l.flatMap getToolCallIds := by
  induction l with
  | nil => rfl
  | cons m l ih =>
    by_cases hm : isSystem m = true
    · rw [filter_cons_of_neg (by simp [hm]), flatMap_cons, calls_of_isSystem hm, ih]
      rfl
    · rw [filter_cons_of_pos (by simp [hm]), flatMap_cons, flatMap_cons, ih]

theorem isSystem_of_mem_behind {m : Message N} (h : m ∈ behind kept) : isSystem m = false := by
  obtain ⟨m', -, hm'⟩ := mem_filterMap.1 h
  obtain ⟨hsys, hdrop⟩ := dropOrphans_of_staying hm'
  have hrole := role_of_dropOrphans hdrop
  rw [isSystem, hrole]
  exact hsys

theorem assistant_of_rawCallIds (h : id ∈ rawCallIds a) : a.role = .assistant := by
  by_contra hrole
  rw [rawCallIds, if_neg hrole] at h
  cases h

section

variable (hsys : ∀ m ∈ system, isSystem m = true)
include hsys

/-- Where the turns of a list of system messages and kept messages come from. -/
theorem source_of_turn {t : List (Message N)} (hsplit : a :: t <:+ system ++ behind kept)
    (hrole : a.role = .assistant) :
    a :: t <:+ behind kept ∧ ∃ rest, a :: rest <:+ kept ∧
      t = rest.filterMap (staying (kept.flatMap getToolCallIds)) := by
  have hbehind : a :: t <:+ behind kept := by
    induction system with
    | nil => exact hsplit
    | cons s system ih =>
      rw [cons_append, suffix_cons_iff] at hsplit
      rcases hsplit with hsplit | hsplit
      · obtain ⟨rfl, -⟩ := cons.inj hsplit
        exact absurd hrole (role_of_isSystem (hsys a mem_cons_self)).1
      · exact ih (fun m hm => hsys m (.tail _ hm)) hsplit
  obtain ⟨a', rest, hrest, ha', rfl⟩ := suffix_filterMap hbehind
  obtain ⟨-, hdrop⟩ := dropOrphans_of_staying ha'
  have huser : a'.role ≠ .user := by
    rw [← role_of_dropOrphans hdrop, hrole]
    decide
  obtain rfl := eq_of_dropOrphans huser hdrop
  exact ⟨hbehind, rest, hrest, rfl⟩

section

variable (hkept : AnsweredOnce kept)
include hkept

omit hsys in
/-- A call is answered by a message after it. -/
theorem answer_of_call {rest : List (Message N)}
    (hsplit : a :: rest <:+ kept) (hid : id ∈ rawCallIds a) :
    ∃ c, truthyId id = some c ∧ c ∈ getToolCallIds a ∧
      ∃ m ∈ run rest, some c ∈ resultIds [m] := by
  obtain ⟨c, hc, hone⟩ := hkept a rest hsplit id hid
  have hmem : some c ∈ resultIds (run rest) := by
    rw [← count_pos_iff, hone]
    exact Nat.one_pos
  obtain ⟨m, hm, r, hr, hrid⟩ := mem_resultIds.1 hmem
  refine ⟨c, hc, ?_, m, hm, mem_resultIds.2 ⟨m, mem_singleton_self m, r, hr, hrid⟩⟩
  rw [getToolCallIds_eq]
  exact mem_filterMap.2 ⟨id, hid, hc⟩

omit hkept in
omit hsys in
theorem mem_of_run {rest : List (Message N)} {m : Message N} (h : m ∈ run rest) :
    m ∈ rest ∧ isCarrier m = true :=
  ⟨(takeWhile_sublist _).subset h, mem_takeWhile_imp h⟩

/-- The first pair fix takes out orphans and empty messages and no calls. -/
theorem fixToolPairs_kept :
    fixToolPairs (system ++ kept.filter fun m => !isSystem m) = system ++ behind kept := by
  rw [fixToolPairs_eq, calls_append_system hsys, calls_filter_system, filterMap_append,
    filterMap_filter]
  · congr 1
    · rw [filterMap_congr fun m hm => dropOrphans_of_isSystem (hsys m hm) _, filterMap_some]
    · refine filterMap_congr fun m _ => ?_
      unfold staying
      cases isSystem m <;> rfl
  · intro a ha hrole id hid
    have ha : a ∈ kept := by
      rcases mem_append.1 ha with ha | ha
      · exact absurd hrole (role_of_isSystem (hsys a ha)).1
      · exact (mem_filter.1 ha).1
    obtain ⟨pre, rest, hpre⟩ := append_of_mem ha
    have hsplit : a :: rest <:+ kept := ⟨pre, hpre.symm⟩
    obtain ⟨c, hc, -, m, hm, hmc⟩ := answer_of_call hkept hsplit hid
    obtain ⟨hmem, hcarrier⟩ := mem_of_run hm
    have hm : m ∈ kept := hsplit.subset (.tail _ hmem)
    refine idIn_iff.2 fun c' hc' => ?_
    obtain rfl := some.inj (hc.symm.trans hc')
    refine mem_flatMap.2 ⟨m, mem_append_right _ (mem_filter.2 ⟨hm, ?_⟩), mem_answeredIds.2 hmc⟩
    rw [not_system_of_carrier hcarrier]
    rfl

/-- A second pair fix finds nothing. -/
theorem fixToolPairs_behind : fixToolPairs (system ++ behind kept) = system ++ behind kept := by
  rw [fixToolPairs_eq, calls_append_system hsys]
  · have hcalls : (behind kept).flatMap getToolCallIds = kept.flatMap getToolCallIds :=
      calls_filterMap_staying _ _
    have hstable : ∀ m ∈ system ++ behind kept,
        dropOrphans (kept.flatMap getToolCallIds) m = some m := by
      intro m hm
      rcases mem_append.1 hm with hm | hm
      · exact dropOrphans_of_isSystem (hsys m hm) _
      · obtain ⟨m', -, hm'⟩ := mem_filterMap.1 hm
        exact dropOrphans_idem (dropOrphans_of_staying hm').2
    rw [hcalls, filterMap_congr hstable, filterMap_some]
  · intro a ha hrole id hid
    obtain ⟨pre, t, hpre⟩ := append_of_mem ha
    obtain ⟨-, rest, hsplit, -⟩ := source_of_turn hsys ⟨pre, hpre.symm⟩ hrole
    obtain ⟨c, hc, hca, m, hm, hmc⟩ := answer_of_call hkept hsplit hid
    have hknown : c ∈ kept.flatMap getToolCallIds :=
      mem_flatMap.2 ⟨a, hsplit.subset mem_cons_self, hca⟩
    obtain ⟨m', hm', hmc'⟩ := staying_of_result hknown hmc
    refine idIn_iff.2 fun c' hc' => ?_
    obtain rfl := some.inj (hc.symm.trans hc')
    have hmem := hsplit.subset (.tail _ (mem_of_run hm).1)
    exact mem_flatMap.2 ⟨m', mem_append_right _ (mem_filterMap.2 ⟨m, hmem, hm'⟩),
      mem_answeredIds.2 hmc'⟩

/-- The trailing fix finds nothing. -/
theorem stripTrailing_behind :
    stripTrailingAssistantOrphanToolUse (system ++ behind kept) = system ++ behind kept := by
  refine stripTrailing_eq_self fun a hsplit' hrole => ?_
  obtain ⟨-, rest, hsplit, hnil⟩ := source_of_turn hsys hsplit' hrole
  by_contra hraw
  obtain ⟨id, hid⟩ := exists_mem_of_ne_nil _ hraw
  -- Its result would come after it.
  obtain ⟨c, -, hca, m, hm, hmc⟩ := answer_of_call hkept hsplit hid
  have hknown : c ∈ kept.flatMap getToolCallIds :=
    mem_flatMap.2 ⟨a, hsplit.subset mem_cons_self, hca⟩
  obtain ⟨m', hm', -⟩ := staying_of_result hknown hmc
  have hmem := mem_filterMap.2 ⟨m, (mem_of_run hm).1, hm'⟩
  rw [← hnil] at hmem
  cases hmem

omit hkept in
omit hsys in
/-- The message behind a turn that one message answers. -/
theorem head_of_turn {rest : List (Message N)} (hsplit : a :: rest <:+ kept) {n : Message N}
    (hfind : rest.find? (stays (kept.flatMap getToolCallIds)) = some n)
    (hall : ∀ c ∈ getToolCallIds a, some c ∈ resultIds [n]) :
    ∃ n', staying (kept.flatMap getToolCallIds) n = some n' ∧
      (rest.filterMap (staying (kept.flatMap getToolCallIds))).head? = some n' ∧
      ∀ c ∈ getToolCallIds a, some c ∈ resultIds [n'] := by
  have hfun : stays (kept.flatMap getToolCallIds) =
      fun m : Message N => (staying (kept.flatMap getToolCallIds) m).isSome :=
    funext (stays_eq _)
  have hstays : stays (kept.flatMap getToolCallIds) n = true := find?_some hfind
  rw [stays_eq] at hstays
  obtain ⟨n', hn'⟩ := isSome_iff_exists.1 hstays
  refine ⟨n', hn', ?_, fun c hc => ?_⟩
  · rw [head?_filterMap_eq, ← hfun, hfind]
    exact hn'
  · have hknown : c ∈ kept.flatMap getToolCallIds :=
      mem_flatMap.2 ⟨a, hsplit.subset mem_cons_self, hc⟩
    obtain ⟨n'', hn'', hres⟩ := staying_of_result hknown (hall c hc)
    obtain rfl := some.inj (hn'.symm.trans hn'')
    exact hres

/-- If one message answers every turn the passes change nothing more. -/
theorem fixToolAdjacency_behind
    (hturns : ∀ a rest, a :: rest <:+ kept → getToolCallIds a ≠ [] →
      ∃ n, rest.find? (stays (kept.flatMap getToolCallIds)) = some n ∧
        ∀ c ∈ getToolCallIds a, some c ∈ resultIds [n]) :
    fixToolAdjacency (system ++ behind kept) = system ++ behind kept := by
  refine fixToolAdjacency_eq_self fun a t hsplit' hrole n' hn' id hid => ?_
  obtain ⟨-, rest, hsplit, rfl⟩ := source_of_turn hsys hsplit' hrole
  obtain ⟨c, hc, hca, -⟩ := answer_of_call hkept hsplit hid
  obtain ⟨n, hfind, hall⟩ := hturns a rest hsplit (ne_nil_of_mem hca)
  obtain ⟨n'', -, hhead, hres⟩ := head_of_turn hsplit hfind hall
  obtain rfl := some.inj (hn'.symm.trans hhead)
  refine idIn_iff.2 fun c' hc' => ?_
  obtain rfl := some.inj (hc.symm.trans hc')
  exact mem_answeredIds.2 (hres c hca)

end

end

end Kept

theorem filter_keptPart (drop : ℕ) (msgs : List (Message N)) :
    (keptPart drop msgs).filter (fun m => !isSystem m) =
      (msgs.filter fun m => !isSystem m).drop drop := by
  induction msgs generalizing drop with
  | nil => rw [keptPart, filter_nil, drop_nil]
  | cons m ms ih =>
    cases drop with
    | zero => rfl
    | succ drop =>
      rw [keptPart]
      by_cases hm : isSystem m = true
      · rw [if_pos hm, ih, filter_cons_of_neg (by simp [hm])]
      · rw [if_neg hm, ih, filter_cons_of_pos (by simp [hm]), drop_succ_cons]

theorem keptPart_suffix (drop : ℕ) (msgs : List (Message N)) : keptPart drop msgs <:+ msgs := by
  induction msgs generalizing drop with
  | nil => exact suffix_refl _
  | cons m ms ih =>
    cases drop with
    | zero => exact suffix_refl _
    | succ drop =>
      rw [keptPart]
      by_cases hm : isSystem m = true
      · rw [if_pos hm]
        exact (ih _).trans (suffix_cons m ms)
      · rw [if_neg hm]
        exact (ih _).trans (suffix_cons m ms)

theorem keptSuffix_suffix (keep : ℕ) (msgs : List (Message N)) : keptSuffix keep msgs <:+ msgs := by
  unfold keptSuffix
  split
  · exact suffix_refl _
  · exact keptPart_suffix _ _

theorem filter_keptSuffix (keep : ℕ) (msgs : List (Message N)) :
    (keptSuffix keep msgs).filter (fun m => !isSystem m) =
      sliceLast keep (msgs.filter fun m => !isSystem m) := by
  unfold keptSuffix sliceLast
  split
  · rfl
  · exact filter_keptPart _ _

variable {system : List (Message N)}

/-- The notice changes system messages only. -/
theorem withNotice_append (hsys : ∀ m ∈ system, isSystem m = true)
    (hl : ∀ m ∈ l, isSystem m = false) (notice : String) :
    ∃ system', (∀ m ∈ system', isSystem m = true) ∧
      withNotice notice (system ++ l) = system' ++ l := by
  cases system with
  | nil =>
    refine ⟨[{ role := .system, content := .text notice }], by simp [isSystem], ?_⟩
    cases l with
    | nil => rfl
    | cons m l =>
      rw [nil_append, withNotice, if_neg (by rw [hl m mem_cons_self]; decide)]
      rfl
  | cons s system =>
    have hs := hsys s mem_cons_self
    have hrest := fun m hm => hsys m (.tail s hm)
    have hnew : ∀ content, ∀ m ∈ { s with content := content } :: system,
        isSystem m = true := by
      intro content m hm
      rcases mem_cons.1 hm with rfl | hm
      · exact hs
      · exact hrest m hm
    rw [cons_append, withNotice, if_pos hs]
    cases s.content with
    | _ => exact ⟨_, hnew _, rfl⟩

variable {msgs : List (Message N)}

theorem AnsweredOnce.suffix {kept : List (Message N)} (h : AnsweredOnce msgs) (hs : kept <:+ msgs) :
    AnsweredOnce kept :=
  fun a rest hsplit => h a rest (hsplit.trans hs)

/-- What is returned when one message answers every turn. -/
theorem purifyAt_eq {keep : ℕ} (h : AnsweredOnce msgs)
    (hturns : ∀ a rest, a :: rest <:+ keptSuffix keep msgs → getToolCallIds a ≠ [] →
      ∃ n, rest.find? (stays ((keptSuffix keep msgs).flatMap getToolCallIds)) = some n ∧
        ∀ c ∈ getToolCallIds a, some c ∈ resultIds [n]) :
    ∃ system, (∀ m ∈ system, isSystem m = true) ∧
      purifyAt msgs keep = system ++ behind (keptSuffix keep msgs) := by
  have hkept := h.suffix (keptSuffix_suffix keep msgs)
  have hsys : ∀ m ∈ msgs.filter isSystem, isSystem m = true := fun m hm => (mem_filter.1 hm).2
  have hcandidate : purifyCandidate msgs keep =
      msgs.filter isSystem ++ behind (keptSuffix keep msgs) := by
    unfold purifyCandidate
    simp only
    rw [← filter_keptSuffix, fixToolPairs_kept hsys hkept,
      fixToolAdjacency_behind hsys hkept hturns, fixToolPairs_behind hsys hkept,
      stripTrailing_behind hsys hkept]
  unfold purifyAt
  simp only [hcandidate]
  split
  · exact withNotice_append hsys (fun m hm => isSystem_of_mem_behind hm) _
  · exact ⟨_, hsys, rfl⟩

/-! ## The exchanges -/

theorem exchanges_append_system (hsys : ∀ m ∈ system, isSystem m = true) (l : List (Message N)) :
    exchanges (system ++ l) = exchanges l := by
  induction system with
  | nil => rfl
  | cons m system ih =>
    rw [cons_append, exchanges, if_pos (calls_of_isSystem (hsys m mem_cons_self)),
      ih fun m' hm' => hsys m' (.tail _ hm')]

section Exchanges

variable {kept : List (Message N)}

/-- The run of a turn up to the message that answers it. -/
theorem run_of_turn (hkept : AnsweredOnce kept) {rest : List (Message N)}
    (hsplit : a :: rest <:+ kept) (hcalls : getToolCallIds a ≠ []) {n : Message N}
    (hfind : rest.find? (stays (kept.flatMap getToolCallIds)) = some n)
    (hall : ∀ c ∈ getToolCallIds a, some c ∈ resultIds [n]) :
    ∃ before after, run rest = before ++ n :: after ∧
      ∀ x ∈ before, stays (kept.flatMap getToolCallIds) x = false := by
  obtain ⟨-, before, after, rfl, hbefore⟩ := find?_eq_some_iff_append.1 hfind
  have hbefore : ∀ x ∈ before, stays (kept.flatMap getToolCallIds) x = false := fun x hx => by
    simpa using hbefore x hx
  obtain ⟨c₀, hc₀⟩ := exists_mem_of_ne_nil _ hcalls
  have hraw := hc₀
  rw [getToolCallIds_eq, mem_filterMap] at hraw
  obtain ⟨id, hid, -⟩ := hraw
  obtain ⟨c, -, hca, m, hm, hmc⟩ := answer_of_call hkept hsplit hid
  have hknown : c ∈ kept.flatMap getToolCallIds :=
    mem_flatMap.2 ⟨a, hsplit.subset mem_cons_self, hca⟩
  have hstays : stays (kept.flatMap getToolCallIds) m = true := by
    obtain ⟨m', hm', -⟩ := staying_of_result hknown hmc
    rw [stays_eq, hm']
    rfl
  have hn : isCarrier n = true := carrier_of_result (hall c hca)
  refine ⟨before, after.takeWhile isCarrier, ?_, hbefore⟩
  unfold run at hm ⊢
  rw [takeWhile_append] at hm ⊢
  split
  · rw [takeWhile_cons_of_pos hn]
  · next hshort =>
    -- The run would end before the message that answers the turn.
    rw [if_neg hshort] at hm
    have hmem := (takeWhile_sublist _).subset hm
    exact absurd ((hbefore m hmem).symm.trans hstays) Bool.false_ne_true

theorem answersOf_sublist (hkept : AnsweredOnce kept) {rest : List (Message N)}
    (hsplit : a :: rest <:+ kept) (hcalls : getToolCallIds a ≠ []) {n : Message N}
    (hfind : rest.find? (stays (kept.flatMap getToolCallIds)) = some n)
    (hall : ∀ c ∈ getToolCallIds a, some c ∈ resultIds [n]) :
    (answersOf a rest).Sublist
      (answersOf a (rest.filterMap (staying (kept.flatMap getToolCallIds)))) := by
  obtain ⟨before, after, hrun, hbefore⟩ := run_of_turn hkept hsplit hcalls hfind hall
  obtain ⟨n', hn', hhead, hres⟩ := head_of_turn hsplit hfind hall
  have hknown : ∀ c ∈ getToolCallIds a, c ∈ kept.flatMap getToolCallIds := fun c hc =>
    mem_flatMap.2 ⟨a, hsplit.subset mem_cons_self, hc⟩
  have hof : ∀ {x : Message N} {r : ToolResult N}, r ∈ results x →
      (r.id.any fun c => decide (c ∈ getToolCallIds a)) = true →
      ∃ c ∈ getToolCallIds a, some c ∈ resultIds [x] := by
    intro x r hr hany
    obtain ⟨c, hid, hc⟩ := (Option.any_eq_true _ _).1 hany
    exact ⟨c, of_decide_eq_true hc, mem_resultIds.2 ⟨x, mem_singleton_self x, r, hr, hid⟩⟩
  -- Before the answering message there are orphans only, after it no more answers.
  have hnobefore : ((before.flatMap results).filter fun r =>
      r.id.any fun c => decide (c ∈ getToolCallIds a)) = [] := by
    refine filter_eq_nil_iff.2 fun r hr hany => ?_
    obtain ⟨x, hx, hr⟩ := mem_flatMap.1 hr
    obtain ⟨c, hc, hxc⟩ := hof hr hany
    obtain ⟨x', hx', -⟩ := staying_of_result (hknown c hc) hxc
    have := hbefore x hx
    rw [stays_eq, hx'] at this
    cases this
  have hnoafter : ((after.flatMap results).filter fun r =>
      r.id.any fun c => decide (c ∈ getToolCallIds a)) = [] := by
    refine filter_eq_nil_iff.2 fun r hr hany => ?_
    obtain ⟨x, hx, hr⟩ := mem_flatMap.1 hr
    obtain ⟨c, hc, hxc⟩ := hof hr hany
    have hraw := hc
    rw [getToolCallIds_eq, mem_filterMap] at hraw
    obtain ⟨id, hid, hidc⟩ := hraw
    obtain ⟨c', hc', hone⟩ := hkept a rest hsplit id hid
    obtain rfl := some.inj (hidc.symm.trans hc')
    have hcount := hone
    rw [hrun, resultIds_append, resultIds_cons n after, count_append, count_append] at hcount
    have hn := count_pos_iff.2 (hall c hc)
    have hafter : some c ∈ resultIds after := by
      obtain ⟨y, hy, hyr⟩ := mem_resultIds.1 hxc
      obtain rfl := mem_singleton.1 hy
      exact mem_resultIds.2 ⟨y, hx, hyr⟩
    have hpos := count_pos_iff.2 hafter
    omega
  have hleft : answersOf a rest = (results n).filter fun r =>
      r.id.any fun c => decide (c ∈ getToolCallIds a) := by
    rw [answersOf, hrun, flatMap_append, flatMap_cons, filter_append,
      filter_append, hnobefore, hnoafter, nil_append, append_nil]
  have hresults : results n' =
      (results n).filter fun r => r.id.all fun c =>
        (kept.flatMap getToolCallIds).contains c := by
    rw [← results_staying, hn', toList_some, flatMap_singleton]
  have hright : ((results n').filter fun r => r.id.any fun c => decide (c ∈ getToolCallIds a)) =
      (results n).filter fun r => r.id.any fun c => decide (c ∈ getToolCallIds a) := by
    rw [hresults, List.filter_filter]
    refine filter_congr fun r _ => ?_
    cases hid : r.id with
    | none => rfl
    | some c =>
      by_cases hc : c ∈ getToolCallIds a
      · have hcontains := contains_iff_mem.2 (hknown c hc)
        rw [all_some, hcontains, Bool.and_true]
      · rw [any_some, decide_eq_false hc, Bool.false_and]
  obtain ⟨c₀, hc₀⟩ := exists_mem_of_ne_nil _ hcalls
  have hcarrier := carrier_of_result (hres c₀ hc₀)
  rw [hleft, ← hright]
  cases hrest : rest.filterMap (staying (kept.flatMap getToolCallIds)) with
  | nil =>
    rw [hrest] at hhead
    cases hhead
  | cons x t =>
    rw [hrest] at hhead
    cases hhead
    rw [answersOf, run, takeWhile_cons_of_pos hcarrier, flatMap_cons, filter_append]
    exact sublist_append_left _ _

theorem intact_behind (hkept : AnsweredOnce kept) (hone : OneCarrier kept) :
    List.SublistForall₂ (fun e e' => e.1 = e'.1 ∧ e.2.Sublist e'.2) (exchanges kept)
      (exchanges (behind kept)) := by
  suffices h : ∀ l, l <:+ kept →
      List.SublistForall₂ (fun e e' => e.1 = e'.1 ∧ e.2.Sublist e'.2) (exchanges l)
        (exchanges (l.filterMap (staying (kept.flatMap getToolCallIds)))) from
    h kept (suffix_refl _)
  intro l
  induction l with
  | nil => exact fun _ => .nil
  | cons m l ih =>
    intro hl
    have hrest := ih ((suffix_cons m l).trans hl)
    rw [exchanges]
    by_cases hcalls : getToolCallIds m = []
    · rw [if_pos hcalls]
      cases hm : staying (kept.flatMap getToolCallIds) m with
      | none => rwa [filterMap_cons_none hm]
      | some m' =>
        have hcalls' : getToolCallIds m' = [] := by
          have h := calls_staying (kept.flatMap getToolCallIds) m
          rwa [hm, hcalls, toList_some, flatMap_singleton] at h
        rwa [filterMap_cons_some hm, exchanges, if_pos hcalls']
    · have hm : staying (kept.flatMap getToolCallIds) m = some m := by
        have hsys : isSystem m ≠ true := fun hsys => hcalls (calls_of_isSystem hsys)
        rw [staying, if_neg hsys, dropOrphans_of_calls hcalls]
      obtain ⟨n, hfind, hall⟩ := hone.turns m l hl hcalls
      rw [if_neg hcalls, filterMap_cons_some hm, exchanges, if_neg hcalls]
      exact .cons ⟨rfl, answersOf_sublist hkept hl hcalls hfind hall⟩ hrest

/-- The kept part behind system messages is purified. -/
theorem purified_behind (hsys : ∀ m ∈ system, isSystem m = true)
    (hkept : AnsweredOnce kept) (hone : OneCarrier kept) :
    Purified kept (system ++ behind kept) := by
  refine ⟨fun a t hsplit' id hid => ?_, fun pre m t hresult r hr => ?_, ?_⟩
  · obtain ⟨-, rest, hsplit, rfl⟩ := source_of_turn hsys hsplit' (assistant_of_rawCallIds hid)
    obtain ⟨c, hc, hca, -⟩ := answer_of_call hkept hsplit hid
    obtain ⟨n, hfind, hall⟩ := hone.turns a rest hsplit (ne_nil_of_mem hca)
    obtain ⟨n', -, hhead, hres⟩ := head_of_turn hsplit hfind hall
    refine ⟨c, hc, ?_⟩
    cases hrest : rest.filterMap (staying (kept.flatMap getToolCallIds)) with
    | nil =>
      rw [hrest] at hhead
      cases hhead
    | cons x t =>
      rw [hrest] at hhead
      cases hhead
      rw [run, takeWhile_cons_of_pos (carrier_of_result (hres c hca)), resultIds_cons]
      exact mem_append_left _ (hres c hca)
  · have hm : isSystem m ≠ true := fun h => by
      rw [results_of_isSystem h] at hr
      cases hr
    -- The split is behind the system messages.
    obtain ⟨pre', rfl, hbehind⟩ : ∃ pre', pre = system ++ pre' ∧ behind kept = pre' ++ m :: t := by
      rcases append_eq_append_iff.1 hresult with ⟨u, rfl, hu⟩ | ⟨u, hu, htail⟩
      · exact ⟨u, rfl, hu⟩
      · cases u with
        | nil => exact ⟨[], by simpa using hu.symm, htail.symm⟩
        | cons x u =>
          obtain ⟨rfl, -⟩ := cons.inj htail
          exact absurd (hsys m (by simp [hu])) hm
    obtain ⟨k₁, k₂, hk, hk₁, hk₂⟩ := filterMap_eq_append_iff.1 hbehind
    obtain ⟨l₁, m₀, l₂, rfl, hl₁, hm₀, -⟩ := filterMap_eq_cons_iff.1 hk₂
    have hr' : r ∈ (results m₀).filter fun r => r.id.all fun c =>
        (kept.flatMap getToolCallIds).contains c := by
      rw [← results_staying, hm₀]
      exact mem_flatMap.2 ⟨m, mem_singleton_self m, hr⟩
    obtain ⟨hr₀, hnamed⟩ := mem_filter.1 hr'
    obtain ⟨c, hid, hcall⟩ := hone.calls (k₁ ++ l₁) m₀ l₂ (by rw [hk, append_assoc]) r hr₀
    refine ⟨c, hid, ?_⟩
    rw [hid] at hnamed
    have hc := hcall (contains_iff_mem.1 hnamed)
    have hpre : pre' = (k₁ ++ l₁).filterMap (staying (kept.flatMap getToolCallIds)) := by
      rw [filterMap_append, hk₁, filterMap_eq_nil_iff.2 hl₁, append_nil]
    rwa [calls_append_system hsys, hpre, calls_filterMap_staying]
  · rw [exchanges_append_system hsys]
    exact intact_behind hkept hone

end Exchanges

/-! ## Counting calls -/

/-- The number of calls of a conversation. -/
def callCount (msgs : List (Message N)) : ℕ := (msgs.flatMap getToolCallIds).length

theorem sum_exchanges (msgs : List (Message N)) :
    ((exchanges msgs).map fun e => (getToolCallIds e.1).length).sum = callCount msgs := by
  induction msgs with
  | nil => rfl
  | cons m ms ih =>
    rw [exchanges, callCount, flatMap_cons, length_append]
    by_cases hcalls : getToolCallIds m = []
    · rw [if_pos hcalls, ih, hcalls]
      exact (Nat.zero_add _).symm
    · rw [if_neg hcalls, map_cons, sum_cons, ih]
      rfl

/-- Where all exchanges are found there are at least as many calls. -/
theorem callCount_le_of_intact {msgs' : List (Message N)}
    (h : List.SublistForall₂ (fun e e' => e.1 = e'.1 ∧ e.2.Sublist e'.2) (exchanges msgs)
      (exchanges msgs')) : callCount msgs ≤ callCount msgs' := by
  rw [← sum_exchanges, ← sum_exchanges]
  generalize exchanges msgs = l at h ⊢
  generalize exchanges msgs' = l' at h ⊢
  induction h with
  | nil => exact Nat.zero_le _
  | cons hab _ ih =>
    rw [map_cons, map_cons, sum_cons, sum_cons, hab.1]
    exact Nat.add_le_add_left ih _
  | cons_right _ ih =>
    rw [map_cons, sum_cons]
    exact ih.trans (Nat.le_add_left _ _)

theorem callCount_fixToolPairs_le (l : List (Message N)) :
    callCount (fixToolPairs l) ≤ callCount l := by
  unfold fixToolPairs
  simp only
  rw [callCount, filterMap_eq_flatMap_toList, flatMap_assoc,
    flatMap_congr fun m _ => calls_dropOrphans _ m]
  refine (flatMap_pass_sublist _ (fun m _ next => ?_) none).length_le
  rw [flatMap_singleton]
  split
  · exact getToolCallIds_filterCalls_sublist _ m
  · exact Sublist.refl _

theorem callCount_stripTrailing_le (l : List (Message N)) :
    callCount (stripTrailingAssistantOrphanToolUse l) ≤ callCount l := by
  unfold stripTrailingAssistantOrphanToolUse
  cases hlast : l.getLast? with
  | none => exact Nat.le_refl _
  | some a =>
    obtain ⟨init, rfl⟩ := getLast?_eq_some_iff.1 hlast
    by_cases hrole : a.role = .assistant
    · simp only [hrole, ne_eq, not_true_eq_false, if_false]
      split
      · exact Nat.le_refl _
      · have hnone : getToolCallIds (withoutCalls a) = [] := by
          obtain ⟨role, content, toolCalls, toolCallId, fields⟩ := a
          obtain rfl : role = .assistant := hrole
          refine append_eq_nil_iff.2 ⟨?_, ?_⟩
          · cases toolCalls <;> rfl
          · refine filterMap_eq_nil_iff.2 fun b hb => ?_
            cases content with
            | absent => cases hb
            | text s => cases hb
            | blocks bs =>
              cases b with
              | toolUse id fields => cases (mem_filter.1 hb).2
              | _ => rfl
        have htail : ((if hasContent (withoutCalls a) || hasToolCalls (withoutCalls a) then
            [withoutCalls a] else []).flatMap getToolCallIds) = [] := by
          split
          · rw [flatMap_singleton, hnone]
          · rfl
        rw [callCount, callCount, dropLast_concat, flatMap_append, flatMap_append,
          htail, append_nil, length_append]
        exact Nat.le_add_right _ _
    · simp only [hrole, ne_eq, not_false_eq_true, if_true]
      exact Nat.le_refl _

theorem calls_adjacencyStep_sublist (a : Message N) (next : Option (Message N)) :
    ((adjacencyStep a next).flatMap getToolCallIds).Sublist (getToolCallIds a) := by
  unfold adjacencyStep
  split
  · next n _ =>
    simp only
    split
    · split
      · exact nil_sublist _
      · rw [flatMap_singleton]
        exact getToolCallIds_filterCalls_sublist _ a
    · rw [flatMap_singleton]
  · rw [flatMap_singleton]

/-- A filter of the calls that keeps the size keeps the message. -/
theorem filterCalls_eq_self_of_size (h : size (filterCalls ids m) = size m) :
    filterCalls ids m = m := by
  obtain ⟨role, content, toolCalls, toolCallId, fields⟩ := m
  have hcalls : ((toolCalls.map fun tcs => tcs.filter fun tc => idIn ids tc.id).getD []).length ≤
      (toolCalls.getD []).length := by
    cases toolCalls with
    | none => exact Nat.le_refl _
    | some tcs => exact length_filter_le _ _
  have hblocks : (content.filterBlocks (callIn ids)).blockList.length ≤
      content.blockList.length := by
    cases content with
    | absent => exact Nat.le_refl _
    | text s => exact Nat.le_refl _
    | blocks bs => exact length_filter_le _ _
  replace h : ((toolCalls.map fun tcs => tcs.filter fun tc => idIn ids tc.id).getD []).length +
      (content.filterBlocks (callIn ids)).blockList.length =
      (toolCalls.getD []).length + content.blockList.length := h
  have hcalls' : toolCalls.map (fun tcs => tcs.filter fun tc => idIn ids tc.id) = toolCalls := by
    cases toolCalls with
    | none => rfl
    | some tcs =>
      have hlen : (tcs.filter fun tc => idIn ids tc.id).length = tcs.length := by
        simp only [map_some, getD_some] at hcalls h
        omega
      rw [map_some, filter_eq_self.2 (length_filter_eq_length_iff.1 hlen)]
  have hblocks' : content.filterBlocks (callIn ids) = content := by
    cases content with
    | absent => rfl
    | text s => rfl
    | blocks bs =>
      have hlen : (bs.filter (callIn ids)).length = bs.length := by
        simp only [Content.filterBlocks, Content.blockList] at hblocks h
        omega
      exact congrArg Content.blocks (filter_eq_self.2 (length_filter_eq_length_iff.1 hlen))
  rw [filterCalls, hcalls', hblocks']

/-- A call that the next message does not answer is lost. -/
theorem callCount_adjacencyStep_lt {a n : Message N} {c : String} (hc : c ∈ getToolCallIds a)
    (hn : some c ∉ resultIds [n]) :
    ((adjacencyStep a (some n)).flatMap getToolCallIds).length < (getToolCallIds a).length := by
  have hsub := calls_adjacencyStep_sublist a (some n)
  have hlost : c ∉ getToolCallIds (filterCalls (answeredIds n) a) :=
    not_mem_filterCalls fun h => hn (mem_answeredIds.1 h)
  have hnot : c ∉ (adjacencyStep a (some n)).flatMap getToolCallIds := by
    unfold adjacencyStep
    rw [decide_eq_true (role_of_mem_getToolCallIds hc)]
    simp only
    split
    · split
      · exact not_mem_nil
      · rwa [flatMap_singleton]
    · next hsize =>
      rw [filterCalls_eq_self_of_size (not_not.1 hsize)] at hlost
      exact absurd hc hlost
  by_contra hlen
  have heq := hsub.eq_of_length (Nat.le_antisymm hsub.length_le (Nat.le_of_not_lt hlen))
  rw [heq] at hnot
  exact hnot hc

theorem callCount_fixToolAdjacency_lt {a n : Message N} {t : List (Message N)}
    (hsplit : a :: t <:+ l) (hn : t.head? = some n) {c : String} (hc : c ∈ getToolCallIds a)
    (hres : some c ∉ resultIds [n]) : callCount (fixToolAdjacency l) < callCount l := by
  obtain ⟨pre, rfl⟩ := hsplit
  have hlen : ¬(pre ++ a :: t).length ≤ 1 := by
    cases t with
    | nil => cases hn
    | cons x t =>
      rw [length_append, length_cons, length_cons]
      omega
  have hstep := callCount_adjacencyStep_lt hc hres
  have hpre := (flatMap_pass_sublist adjacencyStep (l := pre)
    (fun m _ next => calls_adjacencyStep_sublist m next) (some a)).length_le
  have hrest := (flatMap_pass_sublist adjacencyStep (l := t)
    (fun m _ next => calls_adjacencyStep_sublist m next) none).length_le
  rw [fixToolAdjacency, if_neg hlen, pass_append, pass_cons, or_none,
    hn, head?_cons, some_or, callCount, callCount, flatMap_append,
    flatMap_append, flatMap_append, flatMap_cons, length_append,
    length_append, length_append, length_append]
  omega

theorem callCount_withNotice (notice : String) (l : List (Message N)) :
    callCount (withNotice notice l) = callCount l := by
  cases l with
  | nil => rfl
  | cons first rest =>
    rw [withNotice]
    split
    · next hsys =>
      have hnone : ∀ content, getToolCallIds { first with content := content } = [] :=
        fun content => if_neg (role_of_isSystem hsys).1
      rw [callCount, callCount]
      split <;> rw [flatMap_cons, flatMap_cons, hnone, calls_of_isSystem hsys]
    · rfl

/-- If the exchanges are all there, one message answers every turn. -/
theorem turns_of_intact {keep : ℕ} (h : AnsweredOnce msgs)
    (hintact : List.SublistForall₂ (fun e e' => e.1 = e'.1 ∧ e.2.Sublist e'.2)
      (exchanges (keptSuffix keep msgs)) (exchanges (purifyAt msgs keep))) :
    ∀ a rest, a :: rest <:+ keptSuffix keep msgs → getToolCallIds a ≠ [] →
      ∃ n, rest.find? (stays ((keptSuffix keep msgs).flatMap getToolCallIds)) = some n ∧
        ∀ c ∈ getToolCallIds a, some c ∈ resultIds [n] := by
  intro a rest hsplit hcalls
  have hkept := h.suffix (keptSuffix_suffix keep msgs)
  set called := (keptSuffix keep msgs).flatMap getToolCallIds with hcalled
  have hsys : ∀ m ∈ msgs.filter isSystem, isSystem m = true := fun m hm => (mem_filter.1 hm).2
  by_contra hnot
  -- Some call is not answered by the first message that stays, so the adjacency fix drops it.
  obtain ⟨n, n', c, hn', hhead, hc, hres⟩ : ∃ n n' c,
      staying called n = some n' ∧
      (rest.filterMap (staying called)).head? = some n' ∧
      c ∈ getToolCallIds a ∧ some c ∉ resultIds [n'] := by
    generalize hknown : called = known at hnot ⊢
    have hfun : stays known = fun m : Message N => (staying known m).isSome :=
      funext (stays_eq known)
    have hhead := head?_filterMap_eq (staying known) rest
    rw [← hfun] at hhead
    cases hfind : rest.find? (stays known) with
    | none =>
      obtain ⟨c, hc⟩ := exists_mem_of_ne_nil _ hcalls
      rw [getToolCallIds_eq, mem_filterMap] at hc
      obtain ⟨id, hid, -⟩ := hc
      obtain ⟨c, -, hca, m, hm, hmc⟩ := answer_of_call hkept hsplit hid
      have hc : c ∈ known := by
        rw [← hknown]
        exact mem_flatMap.2 ⟨a, hsplit.subset mem_cons_self, hca⟩
      obtain ⟨m', hm', -⟩ := staying_of_result hc hmc
      have hstays := find?_eq_none.1 hfind m (mem_of_run hm).1
      rw [stays_eq, hm'] at hstays
      exact absurd rfl hstays
    | some n =>
      have hstays : stays known n = true := find?_some hfind
      rw [stays_eq] at hstays
      obtain ⟨n', hn'⟩ := isSome_iff_exists.1 hstays
      rw [hfind] at hhead
      obtain ⟨c, hc, hres⟩ : ∃ c ∈ getToolCallIds a, some c ∉ resultIds [n] := by
        by_contra hall
        push Not at hall
        exact hnot ⟨n, hfind, hall⟩
      refine ⟨n, n', c, hn', hhead.trans hn', hc, fun hmem => hres ?_⟩
      obtain ⟨x, hx, r, hr, hid⟩ := mem_resultIds.1 hmem
      obtain rfl := mem_singleton.1 hx
      have hr' : r ∈ (staying known n).toList.flatMap results := by
        rw [hn']
        exact mem_flatMap.2 ⟨x, mem_singleton_self x, hr⟩
      rw [results_staying] at hr'
      exact mem_resultIds.2 ⟨n, mem_singleton_self n, r, (mem_filter.1 hr').1, hid⟩
  have hstays : staying called a = some a := by
    have hne : isSystem a ≠ true := fun hs => hcalls (calls_of_isSystem hs)
    rw [staying, if_neg hne, dropOrphans_of_calls hcalls]
  have hsplit' : a :: rest.filterMap (staying called) <:+
      msgs.filter isSystem ++ behind (keptSuffix keep msgs) := by
    have hmap := hsplit.filterMap (staying called)
    rw [filterMap_cons_some hstays] at hmap
    exact hmap.trans (suffix_append _ _)
  have hless := callCount_fixToolAdjacency_lt hsplit' hhead hc hres
  have hstart : callCount (msgs.filter isSystem ++ behind (keptSuffix keep msgs)) =
      callCount (keptSuffix keep msgs) := by
    rw [callCount, calls_append_system hsys, behind, calls_filterMap_staying]
    rfl
  have hend : callCount (purifyAt msgs keep) ≤ callCount (fixToolAdjacency
      (msgs.filter isSystem ++ behind (keptSuffix keep msgs))) := by
    have hcandidate : callCount (purifyCandidate msgs keep) ≤ callCount (fixToolAdjacency
        (msgs.filter isSystem ++ behind (keptSuffix keep msgs))) := by
      unfold purifyCandidate
      simp only
      rw [← filter_keptSuffix, fixToolPairs_kept hsys hkept]
      exact (callCount_stripTrailing_le _).trans (callCount_fixToolPairs_le _)
    unfold purifyAt
    simp only
    split
    · rwa [callCount_withNotice]
    · exact hcandidate
  have hle := callCount_le_of_intact hintact
  omega

/-- What is returned is well formed and keeps the exchanges exactly when one message answers every
turn of the kept part and no result is there before its call. -/
theorem purified_iff (msgs : List (Message N)) (keep : ℕ) (h : AnsweredOnce msgs) :
    Purified (keptSuffix keep msgs) (purifyAt msgs keep) ↔ OneCarrier (keptSuffix keep msgs) := by
  have hkept := h.suffix (keptSuffix_suffix keep msgs)
  constructor
  · rintro ⟨-, hpreceded, hintact⟩
    have hturns := turns_of_intact h hintact
    refine ⟨hturns, fun pre m rest hmsgs r hr => ?_⟩
    obtain ⟨system, hsys, heq⟩ := purifyAt_eq h hturns
    rw [heq] at hpreceded
    generalize hknown : (keptSuffix keep msgs).flatMap getToolCallIds = known
    by_cases hnamed : (r.id.all fun c => known.contains c) = true
    · have hr' : r ∈ (staying known m).toList.flatMap results := by
        rw [results_staying]
        exact mem_filter.2 ⟨hr, hnamed⟩
      obtain ⟨m', hm', hr'⟩ := mem_flatMap.1 hr'
      have hbehind : behind (keptSuffix keep msgs) =
          pre.filterMap (staying known) ++ m' :: rest.filterMap (staying known) := by
        rw [behind, hknown, hmsgs, filterMap_append,
          filterMap_cons_some (mem_toList.1 hm')]
      obtain ⟨c, hid, hc⟩ := hpreceded (system ++ pre.filterMap (staying known)) m'
        (rest.filterMap (staying known)) (by rw [hbehind, append_assoc]) r hr'
      rw [calls_append_system hsys, calls_filterMap_staying] at hc
      exact ⟨c, hid, fun _ => hc⟩
    · cases hid : r.id with
      | none =>
        rw [hid] at hnamed
        exact absurd rfl hnamed
      | some c =>
        rw [hid] at hnamed
        exact ⟨c, rfl, fun hc => absurd (contains_iff_mem.2 hc) hnamed⟩
  · intro hone
    obtain ⟨system, hsys, heq⟩ := purifyAt_eq h hone.turns
    rw [heq]
    exact purified_behind hsys hkept hone

/-! ## Two calls in parallel -/

/-- Two calls in parallel, both answered in their place. -/
def bothAnswered : List (Message ℤ) :=
  [{ role := .user, content := .text "Weather and time?" },
    { role := .assistant
      content := .absent
      toolCalls := some
        [⟨some "call_weather", some "function", some ⟨some "weather", some (.str "{}")⟩⟩,
          ⟨some "call_time", some "function", some ⟨some "time", some (.str "{}")⟩⟩] },
    { role := .tool, content := .text "sunny", toolCallId := some "call_weather" },
    { role := .tool, content := .text "noon", toolCallId := some "call_time" },
    { role := .user, content := .text "Thanks." }]

theorem answeredOnce_bothAnswered : AnsweredOnce bothAnswered := by
  intro a rest hsplit id hid
  have hassistant := assistant_of_rawCallIds hid
  unfold bothAnswered at hsplit
  rw [suffix_cons_iff, suffix_cons_iff] at hsplit
  rcases hsplit with hsplit | hsplit | hsplit
  · obtain ⟨rfl, -⟩ := cons.inj hsplit
    cases hassistant
  · obtain ⟨rfl, rfl⟩ := cons.inj hsplit
    rcases mem_cons.1 hid with rfl | hid
    · exact ⟨"call_weather", by decide, by decide +kernel⟩
    · obtain rfl := mem_singleton.1 hid
      exact ⟨"call_time", by decide, by decide +kernel⟩
  · have hnone : ∀ m ∈ bothAnswered.drop 2, m.role ≠ .assistant := by decide
    exact absurd hassistant (hnone a (hsplit.subset mem_cons_self))

theorem purified_iff_bothAnswered :
    Purified (keptSuffix 5 bothAnswered) (purifyAt bothAnswered 5) ↔
      OneCarrier (keptSuffix 5 bothAnswered) :=
  purified_iff bothAnswered 5 answeredOnce_bothAnswered

/-- The second call and its result are taken out, though nothing is cut off. -/
theorem bothAnswered_not_purified :
    AnsweredOnce bothAnswered ∧
      ¬Purified (keptSuffix 5 bothAnswered) (purifyAt bothAnswered 5) := by
  refine ⟨answeredOnce_bothAnswered, fun h => ?_⟩
  have hle := callCount_le_of_intact h.intact
  have hbefore : callCount (keptSuffix 5 bothAnswered) = 2 := by decide +kernel
  have hafter : callCount (purifyAt bothAnswered 5) = 1 := by decide +kernel
  omega

end OmniRoute.ToolPairing
