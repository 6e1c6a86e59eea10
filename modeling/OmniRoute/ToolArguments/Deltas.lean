import OmniRoute.Lib.JsData
import OmniRoute.Lib.JsString
import OmniRoute.Lib.Snapshots

/-!
# Tool call arguments in fragments

`appendToolCallArgumentDelta` of `open-sse/utils/toolCallArguments.ts`, and the arguments of a tool
call on their way to a Responses stream (`emitToolCall` and `escapeJsonStringValues` of
`open-sse/translator/response/openai-responses.ts`). A fragment is a text of code units, which may be
cut inside a pair of surrogates. The events are those about the arguments of one index: all other
state of the translator is left out.

**Main result (`exact_iff`).** The arguments are accumulated and sent on exactly when no fragment
begins with everything before it; on the Responses path that is asked of the fragments after raw line
breaks and tabs in strings are escaped. Cutting a text does not change what is escaped in it
(`escapeJsonStringValues_append`).
-/

namespace OmniRoute.ToolArguments

open Snapshots List Option CodeUnits

/-! ## The buffer -/

section Buffer

variable {N : Type} (num : JsNumerals N)

def normalizeIncomingFragment : Option (JsData N) → CodeUnits
  | some (.str s) => s
  | some (.arr items) => (JsValue.stringify num (JsData.toJs (.arr items))).getD []
  | some (.obj fields) => (JsValue.stringify num (JsData.toJs (.obj fields))).getD []
  | _ => []

/-- The buffer after one more fragment, both texts. -/
def appendFragment (existing next : CodeUnits) : CodeUnits :=
  if existing = [] then next
  else if next = [] then existing
  else if next = existing then existing
  else if existing.isPrefixOf next then next
  else existing ++ next

def appendToolCallArgumentDelta (current incoming : Option (JsData N)) : CodeUnits :=
  let existing :=
    match current with
    | some (.str s) => s
    | _ => []
  appendFragment existing (normalizeIncomingFragment num incoming)

theorem appendFragment_eq : appendFragment = grow := by
  funext existing next
  unfold appendFragment grow
  by_cases hsame : next = existing
  · subst hsame
    simp
  · rw [if_neg hsame]

/-- What is sent on of each fragment: `nextArgs.slice(existingArgs.length)`. -/
def emittedSuffixes : CodeUnits → List CodeUnits → List CodeUnits
  | _, [] => []
  | existingArgs, fragment :: fragments =>
    let nextArgs := appendToolCallArgumentDelta num (some (.str existingArgs)) (some (.str fragment))
    nextArgs.drop existingArgs.length :: emittedSuffixes nextArgs fragments

/-- The buffer after all fragments. -/
def accumulated (fragments : List CodeUnits) : CodeUnits :=
  fragments.foldl (fun existingArgs fragment =>
    appendToolCallArgumentDelta num (some (.str existingArgs)) (some (.str fragment))) []

theorem emittedSuffixes_eq (buffer : CodeUnits) (fragments : List CodeUnits) :
    emittedSuffixes num buffer fragments = suffixes buffer fragments := by
  induction fragments generalizing buffer with
  | nil => rfl
  | cons fragment fragments ih =>
    show (appendFragment buffer fragment).drop buffer.length ::
      emittedSuffixes num (appendFragment buffer fragment) fragments = _
    rw [ih, appendFragment_eq]
    rfl

theorem accumulated_eq (fragments : List CodeUnits) :
    accumulated num fragments = fragments.foldl grow [] := by
  rw [← appendFragment_eq]
  rfl

end Buffer

/-! ## Escaping -/

structure JsonStringEscapeState where
  inString : Bool := false
  pendingEscape : Bool := false
  deriving DecidableEq

/-- What becomes of one unit, and the state after it. -/
def escapeUnit (state : JsonStringEscapeState) (ch : UInt16) : CodeUnits × JsonStringEscapeState :=
  if state.pendingEscape then ([ch], { state with pendingEscape := false })
  else if state.inString && ch = 92 then ([ch], { state with pendingEscape := true })
  else if ch = 34 then ([ch], { state with inString := !state.inString })
  else if state.inString && (ch = 10 || ch = 13 || ch = 9) then
    ([92, if ch = 10 then 110 else if ch = 13 then 114 else 116], state)
  else ([ch], state)

def escapeJsonStringValues : CodeUnits → JsonStringEscapeState → CodeUnits × JsonStringEscapeState
  | [], state => ([], state)
  | ch :: json, state =>
    let done := escapeUnit state ch
    let rest := escapeJsonStringValues json done.2
    (done.1 ++ rest.1, rest.2)

/-- The text with its raw line breaks and tabs in strings escaped. -/
def escaped (json : CodeUnits) : CodeUnits := (escapeJsonStringValues json {}).1

variable (state : JsonStringEscapeState)

theorem escapeUnit_ne_nil (ch : UInt16) : (escapeUnit state ch).1 ≠ [] := by
  unfold escapeUnit
  split_ifs <;> exact cons_ne_nil _ _

theorem escape_ne_nil {json : CodeUnits} (h : json ≠ []) (state : JsonStringEscapeState) :
    (escapeJsonStringValues json state).1 ≠ [] := by
  obtain ⟨ch, json, rfl⟩ := exists_cons_of_ne_nil h
  exact fun hnil => escapeUnit_ne_nil state ch (append_eq_nil_iff.1 hnil).1

/-- **A text may be escaped part by part.** -/
theorem escapeJsonStringValues_append (json json' : CodeUnits) (state : JsonStringEscapeState) :
    escapeJsonStringValues (json ++ json') state =
      ((escapeJsonStringValues json state).1 ++
          (escapeJsonStringValues json' (escapeJsonStringValues json state).2).1,
        (escapeJsonStringValues json' (escapeJsonStringValues json state).2).2) := by
  induction json generalizing state with
  | nil => rfl
  | cons ch json ih =>
    show ((escapeUnit state ch).1 ++ (escapeJsonStringValues (json ++ json') _).1,
      (escapeJsonStringValues (json ++ json') _).2) = _
    rw [ih]
    exact congrArg (·, _) (append_assoc _ _ _).symm

/-- The fragments after escaping. -/
def escapedFragments : JsonStringEscapeState → List CodeUnits → List CodeUnits
  | _, [] => []
  | state, fragment :: fragments =>
    let done := escapeJsonStringValues fragment state
    done.1 :: escapedFragments done.2 fragments

theorem flatten_escapedFragments (fragments : List CodeUnits) :
    (escapedFragments state fragments).flatten =
      (escapeJsonStringValues fragments.flatten state).1 := by
  induction fragments generalizing state with
  | nil => rfl
  | cons fragment fragments ih =>
    rw [escapedFragments, flatten_cons, ih, flatten_cons, escapeJsonStringValues_append]

theorem ne_nil_of_mem_escapedFragments {state : JsonStringEscapeState} {fragments : List CodeUnits}
    (h : ∀ f ∈ fragments, f ≠ []) : ∀ f ∈ escapedFragments state fragments, f ≠ [] := by
  induction fragments generalizing state with
  | nil => intro f hf; cases hf
  | cons fragment fragments ih =>
    rw [escapedFragments, forall_mem_cons]
    exact ⟨escape_ne_nil (h fragment mem_cons_self) _, ih fun f hf => h f (.tail _ hf)⟩

/-! ## The Responses path -/

/-- The tools of the request that decide how a call is surfaced. -/
structure RequestTools where
  toolSchemas : List String
  customToolNames : List String

def RequestTools.isCustomTool (tools : RequestTools) (toolName : String) : Bool :=
  let lowerName := toolName.toLower
  (lowerName = "apply_patch" || lowerName = "applypatch") && !tools.toolSchemas.contains toolName ||
    tools.customToolNames.contains toolName

/-- One entry of `delta.tool_calls`, all for one index. -/
structure ToolCallDelta where
  id : Option String := none
  name : Option String := none
  arguments : CodeUnits := []

/-- The state of one index. -/
structure CallState where
  callId : Option String := none
  name : String := ""
  argsBuf : CodeUnits := []
  itemAdded : Bool := false
  escapeState : JsonStringEscapeState := {}

inductive CallEvent
  /-- The events that close a call which another one supersedes. -/
  | closed (callId : String) (args : CodeUnits)
  | itemAdded (callId toolName : String)
  | argumentsDelta (callId : String) (delta : CodeUnits)

def truthyText (s : Option String) : Option String := s.filter fun s => decide (s ≠ "")

/-- A new id at the index closes the call there. -/
def supersede (tc : ToolCallDelta) (st : CallState) : List CallEvent × CallState :=
  match st.callId, truthyText tc.id with
  | some callId, some newCallId =>
    if callId ≠ newCallId then ([.closed callId st.argsBuf], {}) else ([], st)
  | _, _ => ([], st)

/-- The name and the id are noted. -/
def identify (tc : ToolCallDelta) (st : CallState) : CallState :=
  { st with
    name := (truthyText tc.name).getD st.name
    callId := st.callId.or (truthyText tc.id) }

/-- The item is announced as soon as it has an id and a name, with what is buffered. -/
def announce (tools : RequestTools) (st : CallState) : List CallEvent × CallState :=
  match st.callId with
  | some callId =>
    if st.name ≠ "" && !st.itemAdded then
      (.itemAdded callId st.name ::
        (if st.argsBuf ≠ [] && !tools.isCustomTool st.name then
          [.argumentsDelta callId st.argsBuf] else []),
        { st with itemAdded := true })
    else ([], st)
  | none => ([], st)

def appendArguments (tools : RequestTools) (tc : ToolCallDelta) (st : CallState) :
    List CallEvent × CallState :=
  if tc.arguments = [] then ([], st)
  else
    let sanitized := escapeJsonStringValues tc.arguments st.escapeState
    let nextArgs := appendFragment st.argsBuf sanitized.1
    let emittedDelta := nextArgs.drop st.argsBuf.length
    (match st.callId with
      | some refCallId =>
        if emittedDelta ≠ [] && !tools.isCustomTool st.name && st.itemAdded then
          [.argumentsDelta refCallId emittedDelta]
        else []
      | none => [],
      { st with argsBuf := nextArgs, escapeState := sanitized.2 })

def emitToolCall (tools : RequestTools) (tc : ToolCallDelta) (st : CallState) :
    List CallEvent × CallState :=
  let superseded := supersede tc st
  let announced := announce tools (identify tc superseded.2)
  let appended := appendArguments tools tc announced.2
  (superseded.1 ++ announced.1 ++ appended.1, appended.2)

def emitToolCalls (tools : RequestTools) : List ToolCallDelta → CallState → List CallEvent × CallState
  | [], st => ([], st)
  | tc :: tcs, st =>
    let done := emitToolCall tools tc st
    let rest := emitToolCalls tools tcs done.2
    (done.1 ++ rest.1, rest.2)

/-- The text of the deltas. -/
def deltaText (events : List CallEvent) : CodeUnits :=
  events.flatMap fun
    | .argumentsDelta _ delta => delta
    | _ => []

theorem deltaText_append (events events' : List CallEvent) :
    deltaText (events ++ events') = deltaText events ++ deltaText events' :=
  flatMap_append

/-! ## One call -/

/-- Fragments of one function call: all ids are one, and there is one; there is a name, and no name
makes the call a custom one. -/
structure IsFunctionCall (tools : RequestTools) (callId : String) (tcs : List ToolCallDelta) : Prop
    where
  id : ∀ tc ∈ tcs, ∀ id ∈ truthyText tc.id, id = callId
  name : ∀ tc ∈ tcs, ∀ name ∈ truthyText tc.name, tools.isCustomTool name = false
  hasId : ∃ tc ∈ tcs, truthyText tc.id ≠ none
  hasName : ∃ tc ∈ tcs, truthyText tc.name ≠ none

/-- The arguments that a call brings, cut as they come. -/
def argumentFragments (tcs : List ToolCallDelta) : List CodeUnits :=
  (tcs.map ToolCallDelta.arguments).filter fun fragment => decide (fragment ≠ [])

/-- The state of a call in progress. -/
structure InProgress (tools : RequestTools) (callId : String) (st : CallState) : Prop where
  id : ∀ id ∈ st.callId, id = callId
  name : st.name ≠ "" → tools.isCustomTool st.name = false
  added : st.itemAdded = true ↔ st.callId ≠ none ∧ st.name ≠ ""

/-- What has been sent when so much of the arguments is known. -/
def sent (st : CallState) : CodeUnits := if st.itemAdded then st.argsBuf else []

section Step

variable {tools : RequestTools} {callId : String} {tc : ToolCallDelta} {st : CallState}

theorem supersede_eq (hst : InProgress tools callId st)
    (hid : ∀ id ∈ truthyText tc.id, id = callId) : supersede tc st = ([], st) := by
  unfold supersede
  split
  · next old new hold hnew =>
    rw [if_neg]
    rw [hst.id old hold, hid new hnew]
    exact not_not_intro rfl
  · rfl

theorem announce_now {c : String} (hcall : st.callId = some c) (hname : st.name ≠ "")
    (hadded : st.itemAdded = false) :
    announce tools st =
      (.itemAdded c st.name ::
        (if st.argsBuf ≠ [] && !tools.isCustomTool st.name then
          [.argumentsDelta c st.argsBuf] else []),
        { st with itemAdded := true }) := by
  unfold announce
  rw [hcall]
  exact if_pos (by simp [hname, hadded])

theorem announce_not (h : st.callId ≠ none → st.name ≠ "" → st.itemAdded = true) :
    announce tools st = ([], st) := by
  unfold announce
  cases hcall : st.callId with
  | none => rfl
  | some c =>
    refine if_neg fun hnow => ?_
    rw [Bool.and_eq_true_iff, decide_eq_true_eq, Bool.not_eq_true'] at hnow
    have hadded := h (by rw [hcall]; exact some_ne_none c) hnow.1
    exact Bool.false_ne_true (hnow.2.symm.trans hadded)

/-- The item is announced with what there is. -/
theorem announce_spec (hid : ∀ id ∈ st.callId, id = callId)
    (hname : st.name ≠ "" → tools.isCustomTool st.name = false)
    (hadded : st.itemAdded = true → st.callId ≠ none ∧ st.name ≠ "") :
    InProgress tools callId (announce tools st).2 ∧
      (announce tools st).2.argsBuf = st.argsBuf ∧
      (announce tools st).2.escapeState = st.escapeState ∧
      (announce tools st).2.callId = st.callId ∧ (announce tools st).2.name = st.name ∧
      sent st ++ deltaText (announce tools st).1 = sent (announce tools st).2 := by
  by_cases hnow : st.callId ≠ none ∧ st.name ≠ "" ∧ st.itemAdded = false
  · obtain ⟨hcall, hn, hnot⟩ := hnow
    obtain ⟨c, hc⟩ := ne_none_iff_exists'.1 hcall
    rw [announce_now hc hn hnot]
    refine ⟨⟨hid, hname, ⟨fun _ => ⟨hcall, hn⟩, fun _ => rfl⟩⟩, rfl, rfl, rfl, rfl, ?_⟩
    by_cases hbuf : st.argsBuf = []
    · simp [sent, deltaText, hnot, hbuf]
    · simp [sent, deltaText, hnot, hbuf, hname hn]
  · have hall : st.callId ≠ none → st.name ≠ "" → st.itemAdded = true := fun hcall hn =>
      Bool.not_eq_false _ ▸ fun hnot => hnow ⟨hcall, hn, hnot⟩
    rw [announce_not hall]
    exact ⟨⟨hid, hname, ⟨hadded, fun h => hall h.1 h.2⟩⟩, rfl, rfl, rfl, rfl, append_nil _⟩

variable (tc) in
/-- The arguments are sent on once the item is announced. -/
theorem appendArguments_spec (hst : InProgress tools callId st) :
    InProgress tools callId (appendArguments tools tc st).2 ∧
      (appendArguments tools tc st).2.callId = st.callId ∧
      (appendArguments tools tc st).2.name = st.name ∧
      (appendArguments tools tc st).2.argsBuf =
        (escapedFragments st.escapeState (argumentFragments [tc])).foldl grow st.argsBuf ∧
      (appendArguments tools tc st).2.escapeState =
        (escapeJsonStringValues tc.arguments st.escapeState).2 ∧
      sent st ++ deltaText (appendArguments tools tc st).1 =
        sent (appendArguments tools tc st).2 := by
  unfold appendArguments
  by_cases hargs : tc.arguments = []
  · rw [if_pos hargs, hargs]
    refine ⟨hst, rfl, rfl, ?_, rfl, append_nil _⟩
    simp [argumentFragments, hargs, escapedFragments]
  · rw [if_neg hargs]
    refine ⟨⟨hst.id, hst.name, hst.added⟩, rfl, rfl, ?_, rfl, ?_⟩
    · simp [argumentFragments, hargs, escapedFragments, appendFragment_eq]
    · rw [appendFragment_eq]
      cases hadded : st.itemAdded with
      | false => cases st.callId <;> simp [sent, deltaText, hadded]
      | true =>
        obtain ⟨hcall, hname⟩ := hst.added.1 hadded
        obtain ⟨c, hc⟩ := ne_none_iff_exists'.1 hcall
        have hdrop := drop_grow st.argsBuf
          (escapeJsonStringValues tc.arguments st.escapeState).1
        simp only [sent, hadded, hc, hst.name hname, Bool.not_false, Bool.and_true, if_true]
        split
        · simpa [deltaText] using hdrop
        · next hnil =>
          have hnil := of_not_not fun h => hnil (decide_eq_true h)
          rw [hnil] at hdrop
          exact hdrop

/-- One entry: the buffer takes its arguments, and what is known is sent. -/
theorem emitToolCall_spec (hst : InProgress tools callId st)
    (hid : ∀ id ∈ truthyText tc.id, id = callId)
    (hname : ∀ name ∈ truthyText tc.name, tools.isCustomTool name = false) :
    InProgress tools callId (emitToolCall tools tc st).2 ∧
      (emitToolCall tools tc st).2.callId = st.callId.or (truthyText tc.id) ∧
      (emitToolCall tools tc st).2.name = (truthyText tc.name).getD st.name ∧
      (emitToolCall tools tc st).2.argsBuf =
        (escapedFragments st.escapeState (argumentFragments [tc])).foldl grow st.argsBuf ∧
      (emitToolCall tools tc st).2.escapeState =
        (escapeJsonStringValues tc.arguments st.escapeState).2 ∧
      sent st ++ deltaText (emitToolCall tools tc st).1 = sent (emitToolCall tools tc st).2 := by
  have hident : (∀ id ∈ (identify tc st).callId, id = callId) ∧
      ((identify tc st).name ≠ "" → tools.isCustomTool (identify tc st).name = false) ∧
      ((identify tc st).itemAdded = true →
        (identify tc st).callId ≠ none ∧ (identify tc st).name ≠ "") := by
    refine ⟨fun id h => ?_, fun h => ?_, fun h => ?_⟩
    · rcases or_eq_some_iff.1 h with h | ⟨-, h⟩
      · exact hst.id id h
      · exact hid id h
    · cases hn : truthyText tc.name with
      | none =>
        have heq : (identify tc st).name = st.name := congrArg (Option.getD · st.name) hn
        rw [heq] at h ⊢
        exact hst.name h
      | some name =>
        have heq : (identify tc st).name = name := congrArg (Option.getD · st.name) hn
        rw [heq]
        exact hname name hn
    · obtain ⟨hcall, hn⟩ := hst.added.1 h
      obtain ⟨c, hc⟩ := ne_none_iff_exists'.1 hcall
      constructor
      · rw [identify, hc]
        exact some_ne_none c
      · cases hn' : truthyText tc.name with
        | none =>
          have heq : (identify tc st).name = st.name := congrArg (Option.getD · st.name) hn'
          rwa [heq]
        | some name =>
          have heq : (identify tc st).name = name := congrArg (Option.getD · st.name) hn'
          rw [heq]
          have hsome := (filter_eq_some_iff.1 hn').2
          simpa using hsome
  obtain ⟨hprog, hbuf, hescape, hcall, hn, hsent⟩ := announce_spec hident.1 hident.2.1 hident.2.2
  obtain ⟨hprog', hcall', hn', hbuf', hescape', hsent'⟩ := appendArguments_spec tc hprog
  unfold emitToolCall
  rw [supersede_eq hst hid]
  refine ⟨hprog', hcall'.trans hcall, hn'.trans hn, ?_, ?_, ?_⟩
  · rw [hbuf', hbuf, hescape]
    rfl
  · rw [hescape', hescape]
    rfl
  · show sent st ++ deltaText ((announce tools (identify tc st)).1 ++
      (appendArguments tools tc (announce tools (identify tc st)).2).1) = _
    rw [deltaText_append, ← append_assoc, ← hsent', ← hsent]
    rfl

end Step

theorem argumentFragments_cons (tc : ToolCallDelta) (tcs : List ToolCallDelta) :
    argumentFragments (tc :: tcs) = argumentFragments [tc] ++ argumentFragments tcs := by
  rw [argumentFragments, argumentFragments, argumentFragments, ← filter_append, ← map_append]
  rfl

theorem escapedFragments_append (l l' : List CodeUnits) :
    escapedFragments state (l ++ l') = escapedFragments state l ++
      escapedFragments (escapeJsonStringValues l.flatten state).2 l' := by
  induction l generalizing state with
  | nil => rfl
  | cons f l ih =>
    rw [cons_append, escapedFragments, escapedFragments, ih, flatten_cons,
      escapeJsonStringValues_append]
    rfl

theorem flatten_argumentFragments (tc : ToolCallDelta) :
    (argumentFragments [tc]).flatten = tc.arguments := by
  by_cases h : tc.arguments = []
  · simp [argumentFragments, h]
  · simp [argumentFragments, h]

/-- **A run.** The buffer takes the escaped fragments, and what is known is sent. -/
theorem emitToolCalls_spec {tools : RequestTools} {callId : String} {tcs : List ToolCallDelta}
    (hid : ∀ tc ∈ tcs, ∀ id ∈ truthyText tc.id, id = callId)
    (hname : ∀ tc ∈ tcs, ∀ name ∈ truthyText tc.name, tools.isCustomTool name = false)
    {st : CallState} (hst : InProgress tools callId st) :
    InProgress tools callId (emitToolCalls tools tcs st).2 ∧
      ((emitToolCalls tools tcs st).2.callId = none →
        st.callId = none ∧ ∀ tc ∈ tcs, truthyText tc.id = none) ∧
      ((emitToolCalls tools tcs st).2.name = "" →
        st.name = "" ∧ ∀ tc ∈ tcs, truthyText tc.name = none) ∧
      (emitToolCalls tools tcs st).2.argsBuf =
        (escapedFragments st.escapeState (argumentFragments tcs)).foldl grow st.argsBuf ∧
      sent st ++ deltaText (emitToolCalls tools tcs st).1 =
        sent (emitToolCalls tools tcs st).2 := by
  induction tcs generalizing st with
  | nil =>
    exact ⟨hst, fun h => ⟨h, fun _ hmem => by cases hmem⟩,
      fun h => ⟨h, fun _ hmem => by cases hmem⟩, rfl, append_nil _⟩
  | cons tc tcs ih =>
    obtain ⟨hprog, hcall, hn, hbuf, hescape, hsent⟩ := emitToolCall_spec hst
      (hid tc mem_cons_self) (hname tc mem_cons_self)
    obtain ⟨hprog', hcall', hn', hbuf', hsent'⟩ := ih (fun tc' h => hid tc' (.tail _ h))
      (fun tc' h => hname tc' (.tail _ h)) hprog
    refine ⟨hprog', fun h => ?_, fun h => ?_, ?_, ?_⟩
    · obtain ⟨hnone, hrest⟩ := hcall' h
      rw [hcall, or_eq_none_iff] at hnone
      exact ⟨hnone.1, forall_mem_cons.2 ⟨hnone.2, hrest⟩⟩
    · obtain ⟨hnone, hrest⟩ := hn' h
      rw [hn] at hnone
      cases hname' : truthyText tc.name with
      | none =>
        rw [hname'] at hnone
        exact ⟨hnone, forall_mem_cons.2 ⟨hname', hrest⟩⟩
      | some name =>
        rw [hname'] at hnone
        have hsome := (filter_eq_some_iff.1 hname').2
        exact absurd hnone (by simpa using hsome)
    · show (emitToolCalls tools tcs (emitToolCall tools tc st).2).2.argsBuf = _
      rw [hbuf', hbuf, hescape, argumentFragments_cons tc tcs, escapedFragments_append,
        foldl_append, flatten_argumentFragments]
    · show sent st ++ deltaText ((emitToolCall tools tc st).1 ++
        (emitToolCalls tools tcs (emitToolCall tools tc st).2).1) = _
      rw [deltaText_append, ← append_assoc, hsent, hsent']
      rfl

/-- The deltas of a function call are its buffer. -/
theorem deltaText_emitToolCalls {tools : RequestTools} {callId : String}
    {tcs : List ToolCallDelta} (h : IsFunctionCall tools callId tcs) :
    deltaText (emitToolCalls tools tcs {}).1 =
      (escapedFragments {} (argumentFragments tcs)).foldl grow [] := by
  have hinit : InProgress tools callId {} :=
    ⟨fun _ h => (by cases h), fun h => absurd rfl h,
      ⟨fun h => (by cases h), fun h => absurd rfl h.2⟩⟩
  obtain ⟨hprog, hcall, hn, hbuf, hsent⟩ := emitToolCalls_spec h.id h.name hinit
  have hadded : (emitToolCalls tools tcs {}).2.itemAdded = true := by
    refine hprog.added.2 ⟨fun hnone => ?_, fun hnone => ?_⟩
    · obtain ⟨tc, htc, hid⟩ := h.hasId
      exact hid ((hcall hnone).2 tc htc)
    · obtain ⟨tc, htc, hname⟩ := h.hasName
      exact hname ((hn hnone).2 tc htc)
  have hsent : deltaText (emitToolCalls tools tcs {}).1 =
      (emitToolCalls tools tcs {}).2.argsBuf := by
    rw [sent, sent, hadded] at hsent
    exact hsent
  rw [hsent, hbuf]

theorem ne_nil_of_mem_argumentFragments {tcs : List ToolCallDelta} :
    ∀ f ∈ argumentFragments tcs, f ≠ [] := fun _ hf =>
  of_decide_eq_true (mem_filter.1 hf).2

/-- **Arguments are exact as long as no fragment begins with everything before it.** -/
theorem exact_iff {N : Type} (num : JsNumerals N) :
    (∀ fragments : List CodeUnits, (∀ f ∈ fragments, f ≠ []) →
      (accumulated num fragments = fragments.flatten ∧
          (emittedSuffixes num [] fragments).flatten = fragments.flatten ↔
        NoSnapshot [] fragments)) ∧
      ∀ (tools : RequestTools) (callId : String) (tcs : List ToolCallDelta),
        IsFunctionCall tools callId tcs →
          (deltaText (emitToolCalls tools tcs {}).1 = escaped (argumentFragments tcs).flatten ↔
            NoSnapshot [] (escapedFragments {} (argumentFragments tcs))) := by
  constructor
  · intro fragments hne
    have hsuffixes := flatten_suffixes [] fragments
    rw [List.nil_append] at hsuffixes
    rw [emittedSuffixes_eq, accumulated_eq, hsuffixes, and_self]
    exact foldl_grow_eq_iff [] hne
  · intro tools callId tcs hcall
    rw [deltaText_emitToolCalls hcall, escaped, ← flatten_escapedFragments]
    exact foldl_grow_eq_iff [] (ne_nil_of_mem_escapedFragments ne_nil_of_mem_argumentFragments)

/-! ## A nested object -/

/-- An object whose inner text repeats the text before it, cut there. -/
def nestedFragments : List CodeUnits :=
  [ofString "\x7b\"a\":", ofString "\x7b\"a\":\"x\"\x7d\x7d"]

/-- The same with a raw line break in the inner string. -/
def nestedLines : List ToolCallDelta :=
  [{ id := some "call_1", name := some "write", arguments := ofString "\x7b\"a\":" },
    { arguments := ofString "\x7b\"a\":\"x\ny\"\x7d\x7d" }]

def noTools : RequestTools := ⟨[], []⟩

def decimalText : JsNumerals ℕ where
  isFinite _ := true
  text n := ofString (toString n)

theorem isFunctionCall_nestedLines : IsFunctionCall noTools "call_1" nestedLines where
  id := by decide +kernel
  name := by decide +kernel
  hasId := ⟨_, mem_cons_self, by decide +kernel⟩
  hasName := ⟨_, mem_cons_self, by decide +kernel⟩

theorem exact_iff_nested :
    (accumulated decimalText nestedFragments = nestedFragments.flatten ∧
        (emittedSuffixes decimalText [] nestedFragments).flatten = nestedFragments.flatten ↔
      NoSnapshot [] nestedFragments) ∧
      (deltaText (emitToolCalls noTools nestedLines {}).1 =
          escaped (argumentFragments nestedLines).flatten ↔
        NoSnapshot [] (escapedFragments {} (argumentFragments nestedLines))) :=
  ⟨(exact_iff decimalText).1 nestedFragments (by decide +kernel),
    (exact_iff decimalText).2 noTools "call_1" nestedLines isFunctionCall_nestedLines⟩

/-- The text of an object with an object in it, and its second fragment alone in the buffer. -/
theorem nested_lost :
    (∃ value : JsData ℕ, JsValue.stringify decimalText (JsData.toJs (.obj
        [(ofString "a", value)])) = some nestedFragments.flatten) ∧
      (∀ f ∈ nestedFragments, f ≠ []) ∧
      accumulated decimalText nestedFragments ≠ nestedFragments.flatten ∧
      IsFunctionCall noTools "call_1" nestedLines ∧
      deltaText (emitToolCalls noTools nestedLines {}).1 ≠
        escaped (argumentFragments nestedLines).flatten :=
  ⟨⟨.obj [(ofString "a", .str (ofString "x"))], by decide +kernel⟩,
    by decide +kernel, by decide +kernel, isFunctionCall_nestedLines, by decide +kernel⟩

end OmniRoute.ToolArguments
