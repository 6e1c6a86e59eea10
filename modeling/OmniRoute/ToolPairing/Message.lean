import OmniRoute.Lib.JsString
import OmniRoute.Lib.Json

/-!
# Conversations with tool calls

The messages that the tool repair passes read, in both shapes: an assistant message calls tools in
`tool_calls` (OpenAI) or in `tool_use` blocks (Claude), and a call is answered by a message of role
`tool` or by a `tool_result` block in a user message. What no pass looks into (the input of a call,
the text of a result, other blocks and fields) is carried along as JSON.
-/

namespace OmniRoute.ToolPairing

open List

/-- An id that is neither missing nor the empty string. -/
def truthyId (id : Option String) : Option String := id.filter fun s => decide (s ≠ "")

@[simp] theorem truthyId_none : truthyId none = none := rfl

theorem truthyId_eq_some {id : Option String} {s : String} :
    truthyId id = some s ↔ id = some s ∧ s ≠ "" := by
  cases id with
  | none => simp
  | some t =>
    rw [truthyId, Option.filter_some]
    by_cases ht : t = ""
    · simp [ht]
    · simp only [ht, ne_eq, not_false_eq_true, decide_true, if_true, Option.some.injEq]
      exact ⟨fun h => ⟨h, h ▸ ht⟩, fun h => h.1⟩

inductive Role
  | system | developer | user | assistant | tool
  | other (name : String)
  deriving DecidableEq

variable {N : Type}

/-- An item of a content array. -/
inductive Block (N : Type)
  | toolUse (id : Option String) (fields : List (String × Json N))
  | toolResult (toolUseId : Option String) (fields : List (String × Json N))
  | other (value : Json N)

inductive Content (N : Type)
  | absent
  | text (s : String)
  | blocks (bs : List (Block N))

structure ToolFunction (N : Type) where
  name : Option String
  arguments : Option (Json N)

structure ToolCall (N : Type) where
  id : Option String
  type : Option String
  function : Option (ToolFunction N)

structure Message (N : Type) where
  role : Role
  content : Content N
  toolCalls : Option (List (ToolCall N)) := none
  toolCallId : Option String := none
  fields : List (String × Json N) := []

/-- The content array, empty if the content is no array. -/
def Content.blockList : Content N → List (Block N)
  | .blocks bs => bs
  | _ => []

def Block.isToolUse : Block N → Bool
  | .toolUse .. => true
  | _ => false

def Block.isToolResult : Block N → Bool
  | .toolResult .. => true
  | _ => false

/-- The id of a `tool_use` block. -/
def Block.calledId : Block N → Option String
  | .toolUse id _ => truthyId id
  | _ => none

/-- The id of a `tool_result` block. -/
def Block.answeredId : Block N → Option String
  | .toolResult id _ => truthyId id
  | _ => none

/-- The entries of `tool_calls`. -/
def Message.calls (msg : Message N) : List (ToolCall N) := msg.toolCalls.getD []

def getToolCallIds (msg : Message N) : List String :=
  if msg.role = .assistant then
    (msg.calls.filterMap fun tc => truthyId tc.id) ++
      msg.content.blockList.filterMap Block.calledId
  else []

variable {msg : Message N}

theorem role_of_mem_getToolCallIds {id : String}
    (h : id ∈ getToolCallIds msg) : msg.role = .assistant := by
  by_contra hrole
  rw [getToolCallIds, if_neg hrole] at h
  cases h

/-- The ids of all calls of a message, missing and empty ones too. -/
def rawCallIds (msg : Message N) : List (Option String) :=
  if msg.role = .assistant then
    (msg.calls.map fun tc => tc.id) ++ msg.content.blockList.filterMap fun
      | .toolUse id _ => some id
      | _ => none
  else []

theorem getToolCallIds_eq (msg : Message N) :
    getToolCallIds msg = (rawCallIds msg).filterMap truthyId := by
  unfold getToolCallIds rawCallIds
  by_cases hrole : msg.role = .assistant
  · rw [if_pos hrole, if_pos hrole, filterMap_append, filterMap_map, filterMap_filterMap]
    congr 1
    refine congrArg (fun f => List.filterMap f msg.content.blockList) (funext fun b => ?_)
    cases b <;> rfl
  · rw [if_neg hrole, if_neg hrole]
    rfl

/-- A filter on the content array that drops the message with its last block. -/
theorem filterContent_eq {bs : List (Block N)} (h : msg.content = .blocks bs) (p : Block N → Bool) :
    (if (bs.filter p).length ≠ bs.length then
        if (bs.filter p).length = 0 then none
        else some { msg with content := .blocks (bs.filter p) }
      else some msg) =
      if bs ≠ [] ∧ bs.filter p = [] then none
      else some { msg with content := .blocks (bs.filter p) } := by
  by_cases hlen : (bs.filter p).length = bs.length
  · have hall := filter_eq_self.2 (length_filter_eq_length_iff.1 hlen)
    rw [if_neg (not_not_intro hlen), if_neg fun hc => hc.1 (hall.symm.trans hc.2), hall, ← h]
  · have hne : bs ≠ [] := fun hnil => hlen (by rw [hnil]; rfl)
    rw [if_pos hlen]
    by_cases hnil : bs.filter p = []
    · rw [if_pos (length_eq_zero_iff.2 hnil), if_pos ⟨hne, hnil⟩]
    · rw [if_neg fun hc => hnil (length_eq_zero_iff.1 hc), if_neg fun hc => hnil hc.2]

/-! ## Results -/

/-- An answer to a tool call: a message of role `tool` or a `tool_result` block. -/
inductive ToolResult (N : Type)
  | message (msg : Message N)
  | block (b : Block N)

/-- The id of the call that a result answers. -/
def ToolResult.id : ToolResult N → Option String
  | .message msg => truthyId msg.toolCallId
  | .block b => b.answeredId

/-- The results that a message carries. -/
def results (msg : Message N) : List (ToolResult N) :=
  if msg.role = .tool then [.message msg]
  else if msg.role = .user then (msg.content.blockList.filter Block.isToolResult).map .block
  else []

/-- A message that carries a result. -/
def isCarrier (msg : Message N) : Bool :=
  decide (msg.role = .tool) ||
    (decide (msg.role = .user) && msg.content.blockList.any Block.isToolResult)

/-- The result carriers that directly follow a message, given what follows it. -/
def run (rest : List (Message N)) : List (Message N) := rest.takeWhile isCarrier

def resultIds (msgs : List (Message N)) : List (Option String) :=
  (msgs.flatMap results).map ToolResult.id

@[simp] theorem resultIds_nil : resultIds ([] : List (Message N)) = [] := rfl

theorem resultIds_append (l₁ l₂ : List (Message N)) :
    resultIds (l₁ ++ l₂) = resultIds l₁ ++ resultIds l₂ := by
  rw [resultIds, flatMap_append, map_append]
  rfl

theorem resultIds_cons (m : Message N) (l : List (Message N)) :
    resultIds (m :: l) = resultIds [m] ++ resultIds l := resultIds_append [m] l

theorem mem_resultIds {msgs : List (Message N)} {id : Option String} :
    id ∈ resultIds msgs ↔ ∃ m ∈ msgs, ∃ r ∈ results m, r.id = id := by
  simp only [resultIds, mem_map, mem_flatMap]
  constructor
  · rintro ⟨r, ⟨m, hm, hr⟩, rfl⟩
    exact ⟨m, hm, r, hr, rfl⟩
  · rintro ⟨m, hm, r, hr, rfl⟩
    exact ⟨r, ⟨m, hm, hr⟩, rfl⟩

theorem results_of_not_carrier (h : isCarrier msg = false) : results msg = [] := by
  unfold isCarrier at h
  rw [Bool.or_eq_false_iff, Bool.and_eq_false_iff, decide_eq_false_iff_not,
    decide_eq_false_iff_not] at h
  unfold results
  rw [if_neg h.1]
  by_cases hrole : msg.role = .user
  · have hnone := h.2.resolve_left (not_not_intro hrole)
    rw [if_pos hrole, filter_eq_nil_iff.2 fun b hb => ?_]
    · rfl
    · exact fun hres => Bool.false_ne_true (hnone.symm.trans (any_eq_true.2 ⟨b, hb, hres⟩))
  · rw [if_neg hrole]

theorem not_carrier_of_assistant (h : msg.role = .assistant) : isCarrier msg = false := by
  simp [isCarrier, h]

theorem results_of_assistant (h : msg.role = .assistant) : results msg = [] :=
  results_of_not_carrier (not_carrier_of_assistant h)

/-- A result that is there once is where it is known to be. -/
theorem split_of_count_eq_one {pre post P X Y : List (Message N)} {m : Message N}
    {id : Option String} (hsplit : pre ++ m :: post = P ++ (X ++ Y)) (hm : id ∈ resultIds [m])
    (hX : id ∈ resultIds X) (hone : (resultIds (P ++ (X ++ Y))).count id = 1) :
    ∃ u v, X = u ++ m :: v ∧ pre = P ++ u := by
  have hcount := hone
  rw [resultIds_append, resultIds_append, count_append, count_append] at hcount
  have hpos := count_pos_iff.2 hX
  have hP : id ∉ resultIds P := count_eq_zero.1 (by omega)
  have hY : id ∉ resultIds Y := count_eq_zero.1 (by omega)
  have hmem : ∀ {l : List (Message N)}, m ∈ l → id ∈ resultIds l := by
    intro l hl
    obtain ⟨m', hm', hr⟩ := mem_resultIds.1 hm
    obtain rfl := mem_singleton.1 hm'
    exact mem_resultIds.2 ⟨m', hl, hr⟩
  rcases append_eq_append_iff.1 hsplit with ⟨u, hu, htail⟩ | ⟨u, rfl, htail⟩
  · cases u with
    | nil =>
      cases X with
      | nil => cases hX
      | cons x X =>
        obtain ⟨rfl, -⟩ := List.cons.inj htail
        exact ⟨[], X, rfl, by rw [hu, append_nil, append_nil]⟩
    | cons x u =>
      obtain ⟨rfl, -⟩ := List.cons.inj htail
      exact absurd (hmem (by simp [hu])) hP
  · rcases append_eq_append_iff.1 htail with ⟨v, rfl, hv⟩ | ⟨v, rfl, hv⟩
    · exact absurd (hmem (by simp [hv])) hY
    · cases v with
      | nil =>
        have hv : Y = m :: post := hv.symm
        exact absurd (hmem (by simp [hv])) hY
      | cons x v =>
        obtain ⟨rfl, -⟩ := List.cons.inj hv
        exact ⟨u, v, rfl, rfl⟩

/-! ## Pairing -/

/-- The calls that are open after some messages: those of the last assistant message. -/
def openCalls (opened : List String) : List (Message N) → List String
  | [] => opened
  | m :: ms => openCalls (if m.role = .assistant then getToolCallIds m else opened) ms

/-- Every result answers a call of the assistant message before it. -/
def Answers (opened : List String) : List (Message N) → Prop
  | [] => True
  | m :: ms =>
    (∀ r ∈ results m, ∃ c ∈ opened, r.id = some c) ∧
      Answers (if m.role = .assistant then getToolCallIds m else opened) ms

/-- Every call of an assistant message that is not the last message has exactly one result, in the
run of carriers directly after the message. -/
def Paired (msgs : List (Message N)) : Prop :=
  ∀ a rest, a :: rest <:+ msgs → rest ≠ [] → ∀ c ∈ getToolCallIds a,
    (resultIds msgs).count (some c) = 1 ∧ some c ∈ resultIds (run rest)

/-- The results that are in their place: in the run of carriers directly after an assistant message
that carries their call. `opened` are the calls of the run that is being read. -/
def placedResults (opened : List String) : List (Message N) → List (ToolResult N)
  | [] => []
  | m :: ms =>
    if isCarrier m then
      ((results m).filter fun r => r.id.any fun c => decide (c ∈ opened)) ++ placedResults opened ms
    else placedResults (getToolCallIds m) ms

theorem openCalls_append (o : List String) (l₁ l₂ : List (Message N)) :
    openCalls o (l₁ ++ l₂) = openCalls (openCalls o l₁) l₂ := by
  induction l₁ generalizing o with
  | nil => rfl
  | cons m l ih => exact ih _

theorem answers_append {o : List String} {l₁ l₂ : List (Message N)} :
    Answers o (l₁ ++ l₂) ↔ Answers o l₁ ∧ Answers (openCalls o l₁) l₂ := by
  induction l₁ generalizing o with
  | nil => exact ⟨fun h => ⟨trivial, h⟩, fun h => h.2⟩
  | cons m l ih =>
    rw [cons_append, Answers, Answers, openCalls, ih, and_assoc]

theorem openCalls_of_no_assistant {l : List (Message N)} (h : ∀ m ∈ l, m.role ≠ .assistant)
    (o : List String) : openCalls o l = o := by
  induction l with
  | nil => rfl
  | cons m l ih =>
    rw [openCalls, if_neg (h m mem_cons_self)]
    exact ih fun m' hm' => h m' (.tail _ hm')

theorem answers_of_no_assistant {l : List (Message N)} (h : ∀ m ∈ l, m.role ≠ .assistant)
    {o : List String} :
    Answers o l ↔ ∀ m ∈ l, ∀ r ∈ results m, ∃ c ∈ o, r.id = some c := by
  induction l with
  | nil => exact ⟨fun _ m hm => (by cases hm), fun _ => trivial⟩
  | cons m l ih =>
    rw [Answers, if_neg (h m mem_cons_self), ih fun m' hm' => h m' (.tail _ hm'), forall_mem_cons]

/-- An open call is a call of some message. -/
theorem exists_of_mem_openCalls {l : List (Message N)} {o : List String} {c : String}
    (h : c ∈ openCalls o l) : c ∈ o ∨ ∃ m ∈ l, c ∈ getToolCallIds m := by
  induction l generalizing o with
  | nil => exact .inl h
  | cons m l ih =>
    rcases ih h with hc | ⟨m', hm', hc⟩
    · by_cases hrole : m.role = .assistant
      · rw [if_pos hrole] at hc
        exact .inr ⟨m, mem_cons_self, hc⟩
      · rw [if_neg hrole] at hc
        exact .inl hc
    · exact .inr ⟨m', .tail _ hm', hc⟩

end OmniRoute.ToolPairing
