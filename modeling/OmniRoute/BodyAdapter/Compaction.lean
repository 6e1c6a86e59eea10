import OmniRoute.BodyAdapter.Responses

/-!
# Calls and outputs after compaction

A Responses input is left with whole pairs when a call whose output was mapped stays exactly if that
output does. The code drops an output when its message is gone, and then looks for every call but
the custom ones under the output type of functions.

**Main result (`keepsPairs_iff`).** The pairs are kept whole exactly when a shell or patch call with
an id meets a function output with the same id that stays or goes with its own, and an output whose
call has an empty id does not go. The other items and the order are always kept.
-/

namespace OmniRoute.BodyAdapter

open List Option

variable {N : Type}

/-! ## Pairs -/

inductive CallKind
  | function
  | custom
  | localShell
  | applyPatch
  deriving DecidableEq

def CallKind.callType : CallKind → String
  | .function => "function_call"
  | .custom => "custom_tool_call"
  | .localShell => "local_shell_call"
  | .applyPatch => "apply_patch_call"

def CallKind.outputType : CallKind → String
  | .function => "function_call_output"
  | .custom => "custom_tool_call_output"
  | .localShell => "local_shell_call_output"
  | .applyPatch => "apply_patch_call_output"

/-- An output of a call, of the kind of the call and with its id. -/
structure Answers (kind : CallKind) (id : String) (call output : Json N) : Prop where
  callType : call.hasType kind.callType = true
  outputType : output.hasType kind.outputType = true
  callId : callId call = some id
  outputId : BodyAdapter.callId output = some id

/-- Every call has one output of its own kind. -/
def Paired (items : List (Json N)) : Prop :=
  ∀ (i : ℕ) (call : Json N) (kind : CallKind), items[i]? = some call →
    call.hasType kind.callType = true →
    ∃! j : ℕ, ∃ output id, items[j]? = some output ∧ Answers kind id call output

/-! ## Types -/

variable {value : Json N}

theorem hasType_inj {a b : String} (ha : value.hasType a = true)
    (hb : value.hasType b = true) : a = b := by
  unfold Json.hasType at ha hb
  cases htype : value.prop "type" with
  | none => simp [htype] at ha
  | some type =>
    rw [htype] at ha hb
    cases type with
    | str s => exact (of_decide_eq_true ha).symm.trans (of_decide_eq_true hb)
    | _ => cases ha

theorem itemType_of_hasType {type : String} (h : value.hasType type = true) :
    itemType value = type := by
  unfold Json.hasType at h
  unfold itemType
  cases htype : value.prop "type" with
  | none =>
    rw [htype] at h
    cases h
  | some field =>
    rw [htype] at h
    cases field with
    | str s => exact of_decide_eq_true h
    | _ => cases h

theorem hasTypeIn_iff {types : List String} :
    hasTypeIn types value = true ↔ ∃ type ∈ types, value.hasType type = true :=
  List.any_eq_true

theorem isRecord_of_hasType {type : String} (h : value.hasType type = true) :
    value.isRecord = true := by
  cases value with
  | obj fields => rfl
  | _ => cases h

theorem callType_mem (kind : CallKind) : kind.callType ∈ callTypes := by
  cases kind <;> decide

theorem outputType_mem (kind : CallKind) : kind.outputType ∈ outputTypes := by
  cases kind <;> decide

theorem call_not_output (hout : hasTypeIn outputTypes value = true) :
    hasTypeIn callTypes value = false := by
  refine Bool.eq_false_iff.2 fun hcall => ?_
  obtain ⟨a, ha, hva⟩ := hasTypeIn_iff.1 hout
  obtain ⟨b, hb, hvb⟩ := hasTypeIn_iff.1 hcall
  have hdisjoint : ∀ t ∈ outputTypes, t ∉ callTypes := by decide
  exact hdisjoint a ha (hasType_inj hva hvb ▸ hb)

/-! ## What a restore is meant to keep -/

theorem messageAt_eq_some {message : Compressed N} (h : messageAt messages i = some message) :
    message ∈ messages ∧ message.index = some i :=
  ⟨mem_reverse.1 (mem_of_find?_eq_some h), by simpa using find?_some h⟩

variable [JsonNumber N]

section Statements

variable (parse : String → Option (Json N)) (items : List (Json N)) (messages : List (Compressed N))

/-- The item at an index is left after the restore. -/
def Kept (i : ℕ) : Prop := i ∈ (cleanedInput parse items messages).map Prod.fst

/-- The message of an item is left. -/
def Survives (i : ℕ) : Prop := (messageAt messages i).isSome = true

/-- What a restore is meant to keep. -/
structure KeepsPairs : Prop where
  whole : ∀ (kind : CallKind) (id : String) (i j : ℕ) (call output : Json N),
    items[i]? = some call → items[j]? = some output → Answers kind id call output →
      isMapped parse output = true →
      (Kept parse items messages i ↔ Kept parse items messages j)
  order : ((cleanedInput parse items messages).map Prod.fst).Sublist (List.range items.length)
  items : ∀ p ∈ cleanedInput parse items messages, ∃ item, items[p.1]? = some item ∧
    (p.2 = item ∨ isMapped parse item = true ∧ ∃ message ∈ messages, message.index = some p.1 ∧
      p.2 = messageToResponsesItem parse message.content item)

/-- A mapped output of a function with the id is left. -/
def FunctionOutputSurvives (id : String) : Prop :=
  ∃ l other, items[l]? = some other ∧ other.hasType "function_call_output" = true ∧
    callId other = some id ∧ isMapped parse other = true ∧ Survives messages l

/-- Every call is looked up where its own output is. -/
def LookedUp : Prop :=
  ∀ (kind : CallKind) (id : String) (i j : ℕ) (call output : Json N), items[i]? = some call →
    items[j]? = some output → Answers kind id call output → isMapped parse output = true →
      (id = "" → Survives messages j) ∧
      (id ≠ "" → kind = .localShell ∨ kind = .applyPatch →
        (FunctionOutputSurvives parse items messages id ↔ Survives messages j))

end Statements

/-! ## Messages of calls and outputs -/

/-- A call has no message. -/
theorem isMapped_call {parse : String → Option (Json N)} {call : Json N} {kind : CallKind}
    (h : call.hasType kind.callType = true) : isMapped parse call = false := by
  have hnot : kind.callType ∉ messageTypes := by cases kind <;> decide
  unfold isMapped responsesItemToMessage
  dsimp only
  rw [itemType_of_hasType h, if_pos hnot, any_none, Bool.and_false]

section

variable (parse : String → Option (Json N))

section

variable (content : Option (Json N))

/-- The message of an output is written into its text only. -/
theorem messageToResponsesItem_prop
    (item : Json N) {name : String} (houtput : name ≠ "output") (hcontent : name ≠ "content") :
    (messageToResponsesItem parse content item).prop name = item.prop name := by
  unfold messageToResponsesItem
  dsimp only
  split
  · refine Json.prop_withField_ne ?_ _ _
    unfold responsesToolOutputField
    split
    · exact hcontent
    · exact hcontent
    · exact houtput
  · exact Json.prop_withField_ne hcontent _ _

theorem hasType_messageToResponsesItem (item : Json N) (type : String) :
    (messageToResponsesItem parse content item).hasType type = item.hasType type := by
  unfold Json.hasType
  rw [messageToResponsesItem_prop parse content item (by decide) (by decide)]

theorem callId_messageToResponsesItem (item : Json N) :
    callId (messageToResponsesItem parse content item) = callId item := by
  unfold callId
  rw [messageToResponsesItem_prop parse content item (by decide) (by decide)]

end

end

theorem outputKey_inj {a b id id' : String} (ha : a ∈ outputTypes) (hb : b ∈ outputTypes)
    (h : outputKey a id = outputKey b id') : a = b ∧ id = id' := by
  have hcolon : ∀ t ∈ outputTypes, ':' ∉ t.toList := by decide
  have hlist : a.toList ++ ':' :: id.toList = b.toList ++ ':' :: id'.toList := by
    have := congrArg String.toList h
    simpa [outputKey] using this
  obtain ⟨htype, hid⟩ := Delimited.append_sep_left (hcolon a ha) (hcolon b hb) hlist
  exact ⟨String.toList_inj.1 htype, String.toList_inj.1 hid⟩

/-! ## What is left -/

section Left

variable {parse : String → Option (Json N)} {items : List (Json N)} {messages : List (Compressed N)}
  {i j : ℕ} {item call output : Json N} {kind : CallKind} {id : String}

theorem mem_nextInput {p : ℕ × Json N} : p ∈ nextInput parse items messages ↔
    ∃ item, items[p.1]? = some item ∧
      ((isMapped parse item = false ∧ p.2 = item) ∨
        (isMapped parse item = true ∧ ∃ message, messageAt messages p.1 = some message ∧
          p.2 = messageToResponsesItem parse message.content item)) := by
  obtain ⟨i, value⟩ := p
  unfold nextInput
  rw [mem_filterMap]
  constructor
  · rintro ⟨⟨item, index⟩, hmem, hvalue⟩
    rw [mem_zipIdx_iff_getElem?] at hmem
    dsimp only at hvalue
    split at hvalue
    · next hmapped =>
      obtain ⟨message, hmessage, heq⟩ := map_eq_some_iff.1 hvalue
      obtain ⟨rfl, rfl⟩ := Prod.mk.inj heq
      exact ⟨item, hmem, .inr ⟨hmapped, message, hmessage, rfl⟩⟩
    · next hmapped =>
      obtain ⟨rfl, rfl⟩ := Prod.mk.inj (some.inj hvalue)
      exact ⟨item, hmem, .inl ⟨Bool.eq_false_iff.2 hmapped, rfl⟩⟩
  · rintro ⟨item, hitem, hcase⟩
    refine ⟨(item, i), mem_zipIdx_iff_getElem?.2 hitem, ?_⟩
    dsimp only at hcase ⊢
    rcases hcase with ⟨hmapped, rfl⟩ | ⟨hmapped, message, hmessage, rfl⟩
    · rw [hmapped]
      rfl
    · rw [if_pos hmapped, hmessage]
      rfl

/-- A mapped output is left exactly when its message is. -/
theorem kept_output (hitem : items[j]? = some output) (hmapped : isMapped parse output = true)
    (htype : hasTypeIn outputTypes output = true) :
    Kept parse items messages j ↔ Survives messages j := by
  unfold Kept Survives cleanedInput
  rw [List.mem_map, isSome_iff_exists]
  constructor
  · rintro ⟨p, hp, rfl⟩
    obtain ⟨item, hitem', hcase⟩ := mem_nextInput.1 (mem_of_mem_filter hp)
    obtain rfl := some.inj (hitem'.symm.trans hitem)
    rcases hcase with ⟨hnot, -⟩ | ⟨-, message, hmessage, -⟩
    · rw [hmapped] at hnot
      cases hnot
    · exact ⟨message, hmessage⟩
  · rintro ⟨message, hmessage⟩
    refine ⟨(j, messageToResponsesItem parse message.content output), ?_, rfl⟩
    rw [mem_filter]
    refine ⟨mem_nextInput.2 ⟨output, hitem, .inr ⟨hmapped, message, hmessage, rfl⟩⟩, ?_⟩
    have hnocall := call_not_output htype
    refine if_pos (.inr ?_)
    unfold hasTypeIn
    simp only [hasType_messageToResponsesItem]
    exact hnocall

/-- A call is left exactly when the second pass keeps it. -/
theorem kept_call (hitem : items[i]? = some call) (htype : call.hasType kind.callType = true) :
    Kept parse items messages i ↔ isKept parse items messages call = true := by
  have hmapped : isMapped parse call = false := isMapped_call htype
  unfold Kept cleanedInput
  rw [List.mem_map]
  constructor
  · rintro ⟨p, hp, rfl⟩
    obtain ⟨hnext, hkept⟩ := mem_filter.1 hp
    obtain ⟨item, hitem', hcase⟩ := mem_nextInput.1 hnext
    obtain rfl := some.inj (hitem'.symm.trans hitem)
    rcases hcase with ⟨-, heq⟩ | ⟨hyes, -⟩
    · rw [← heq]
      exact hkept
    · rw [hmapped] at hyes
      cases hyes
  · intro hkept
    exact ⟨(i, call), mem_filter.2 ⟨mem_nextInput.2 ⟨call, hitem, .inl ⟨hmapped, rfl⟩⟩, hkept⟩, rfl⟩

/-- The keys that survive are those of mapped outputs with a message. -/
theorem mem_survivingOutputKeys {type : String} (htype : type ∈ outputTypes) :
    outputKey type id ∈ survivingOutputKeys parse items messages ↔
      ∃ l other, items[l]? = some other ∧ other.hasType type = true ∧ callId other = some id ∧
        isMapped parse other = true ∧ Survives messages l := by
  unfold survivingOutputKeys
  rw [mem_filterMap]
  constructor
  · rintro ⟨⟨other, l⟩, hmem, hkey⟩
    rw [mem_zipIdx_iff_getElem?] at hmem
    dsimp only at hkey
    split at hkey
    · next hmapped =>
      obtain ⟨message, hmessage, hkey⟩ := bind_eq_some_iff.1 hkey
      split at hkey
      · next hrestored =>
        obtain ⟨id', hid', hkey⟩ := map_eq_some_iff.1 hkey
        obtain ⟨type', htype', hhas⟩ := hasTypeIn_iff.1 hrestored.2
        rw [itemType_of_hasType hhas] at hkey
        obtain ⟨rfl, rfl⟩ := outputKey_inj htype' htype hkey
        rw [hasType_messageToResponsesItem] at hhas
        rw [callId_messageToResponsesItem] at hid'
        exact ⟨l, other, hmem, hhas, hid', hmapped, isSome_of_eq_some hmessage⟩
      · cases hkey
    · cases hkey
  · rintro ⟨l, other, hother, hhas, hid, hmapped, hsurvives⟩
    obtain ⟨message, hmessage⟩ := isSome_iff_exists.1 hsurvives
    have hhas' : (messageToResponsesItem parse message.content other).hasType type = true := by
      rw [hasType_messageToResponsesItem]
      exact hhas
    refine ⟨(other, l), mem_zipIdx_iff_getElem?.2 hother, ?_⟩
    dsimp only
    rw [if_pos hmapped, hmessage]
    dsimp only [bind_some]
    rw [if_pos ⟨isRecord_of_hasType hhas', hasTypeIn_iff.2 ⟨type, htype, hhas'⟩⟩,
      callId_messageToResponsesItem, hid, itemType_of_hasType hhas']
    rfl

/-- A call with a mapped output of its own is kept without an id, or for a key that survives. -/
theorem isKept_call (houtput : items[j]? = some output) (hanswers : Answers kind id call output)
    (hmapped : isMapped parse output = true) :
    isKept parse items messages call = true ↔ id = "" ∨
      outputKey (lookedUpType call) id ∈ survivingOutputKeys parse items messages := by
  have hrecord : call.isRecord = true := isRecord_of_hasType hanswers.callType
  have hcall : hasTypeIn callTypes call = true :=
    hasTypeIn_iff.2 ⟨_, callType_mem kind, hanswers.callType⟩
  have hmapped' : hadMappedOutput parse items id = true := by
    refine List.any_eq_true.2 ⟨output, mem_of_getElem? houtput, ?_⟩
    rw [hmapped, hasTypeIn_iff.2 ⟨_, outputType_mem kind, hanswers.outputType⟩]
    simp [hanswers.outputId]
  unfold isKept
  rw [if_neg (by simp [hrecord, hcall]), hanswers.callId]
  dsimp only
  by_cases hid : id = ""
  · simp [hid]
  · simp [hid, hmapped']

omit [JsonNumber N] in
/-- Custom calls are looked up under their own type, the others under that of functions. -/
theorem lookedUpType_call (h : call.hasType kind.callType = true) :
    lookedUpType call =
      if kind = .custom then "custom_tool_call_output" else "function_call_output" := by
  unfold lookedUpType
  by_cases hcustom : kind = .custom
  · subst hcustom
    exact if_pos h
  · have hnot : ¬call.hasType "custom_tool_call" = true := by
      intro hc
      have htype := hasType_inj h hc
      cases kind <;> first | exact hcustom rfl | exact absurd htype (by decide)
    rw [if_neg hnot, if_neg hcustom]

/-- The only output of the kind of a call with its id is its own. -/
theorem survives_own (hpaired : Paired items) (hcall : items[i]? = some call)
    (houtput : items[j]? = some output) (hanswers : Answers kind id call output)
    (hmapped : isMapped parse output = true) :
    (∃ l other, items[l]? = some other ∧ other.hasType kind.outputType = true ∧
      callId other = some id ∧ isMapped parse other = true ∧ Survives messages l) ↔
      Survives messages j := by
  constructor
  · rintro ⟨l, other, hother, htype, hid, -, hsurvives⟩
    have hunique := (hpaired i call kind hcall hanswers.callType).unique
      ⟨other, id, hother, hanswers.callType, htype, hanswers.callId, hid⟩
      ⟨output, id, houtput, hanswers⟩
    rwa [← hunique]
  · intro hsurvives
    exact ⟨j, output, houtput, hanswers.outputType, hanswers.outputId, hmapped, hsurvives⟩

/-- When one pair is kept whole. -/
theorem whole_iff (hpaired : Paired items) (hcall : items[i]? = some call)
    (houtput : items[j]? = some output) (hanswers : Answers kind id call output)
    (hmapped : isMapped parse output = true) :
    (Kept parse items messages i ↔ Kept parse items messages j) ↔
      (id = "" → Survives messages j) ∧
      (id ≠ "" → kind = .localShell ∨ kind = .applyPatch →
        (FunctionOutputSurvives parse items messages id ↔ Survives messages j)) := by
  have hout : hasTypeIn outputTypes output = true :=
    hasTypeIn_iff.2 ⟨_, outputType_mem kind, hanswers.outputType⟩
  rw [kept_call hcall hanswers.callType, kept_output houtput hmapped hout,
    isKept_call houtput hanswers hmapped, lookedUpType_call hanswers.callType]
  by_cases hid : id = ""
  · simp [hid]
  · have hown : _ ↔ Survives messages j := survives_own hpaired hcall houtput hanswers hmapped
    have hfunction : outputKey "function_call_output" id ∈ survivingOutputKeys parse items messages ↔
        FunctionOutputSurvives parse items messages id := mem_survivingOutputKeys (by decide)
    have hcustom : outputKey "custom_tool_call_output" id ∈
        survivingOutputKeys parse items messages ↔ _ := mem_survivingOutputKeys (by decide)
    cases kind with
    | function => simpa [hid, hfunction] using show FunctionOutputSurvives parse items messages id ↔ _
        from hown
    | custom =>
      rw [if_pos rfl, hcustom]
      simpa [hid] using show (∃ l other, items[l]? = some other ∧
        other.hasType "custom_tool_call_output" = true ∧ callId other = some id ∧
          isMapped parse other = true ∧ Survives messages l) ↔ _ from hown
    | _ => simp [hid, hfunction]

theorem cleanedInput_order :
    ((cleanedInput parse items messages).map Prod.fst).Sublist (List.range items.length) := by
  have hnext : ∀ (items : List (Json N)) (n : ℕ),
      (((items.zipIdx n).filterMap fun p =>
        if isMapped parse p.1 then
          (messageAt messages p.2).map fun message =>
            (p.2, messageToResponsesItem parse message.content p.1)
        else some (p.2, p.1)).map Prod.fst).Sublist (List.range' n items.length) := by
    intro items
    induction items with
    | nil => exact fun n => Sublist.refl _
    | cons item items ih =>
      intro n
      rw [zipIdx_cons, filterMap_cons, length_cons, range'_succ]
      split
      · exact (ih (n + 1)).cons _
      · next p hp =>
        have hfst : p.1 = n := by
          dsimp only at hp
          split at hp
          · obtain ⟨message, -, rfl⟩ := map_eq_some_iff.1 hp
            rfl
          · cases hp
            rfl
        rw [map_cons, hfst]
        exact (ih (n + 1)).cons_cons _
  rw [range_eq_range']
  exact (filter_sublist.map Prod.fst).trans (hnext items 0)

theorem cleanedInput_items {p : ℕ × Json N} (hp : p ∈ cleanedInput parse items messages) :
    ∃ item, items[p.1]? = some item ∧
      (p.2 = item ∨ isMapped parse item = true ∧ ∃ message ∈ messages, message.index = some p.1 ∧
        p.2 = messageToResponsesItem parse message.content item) := by
  obtain ⟨item, hitem, hcase⟩ := mem_nextInput.1 (mem_of_mem_filter hp)
  refine ⟨item, hitem, ?_⟩
  rcases hcase with ⟨-, heq⟩ | ⟨hmapped, message, hmessage, heq⟩
  · exact .inl heq
  · obtain ⟨hmem, hindex⟩ := messageAt_eq_some hmessage
    exact .inr ⟨hmapped, message, hmem, hindex, heq⟩

end Left

/-- **A restore keeps pairs whole** exactly when every call is looked up where its output is. -/
theorem keepsPairs_iff (parse : String → Option (Json N)) {items : List (Json N)}
    (messages : List (Compressed N)) (hpaired : Paired items) :
    KeepsPairs parse items messages ↔ LookedUp parse items messages := by
  constructor
  · intro h kind id i j call output hcall houtput hanswers hmapped
    exact (whole_iff hpaired hcall houtput hanswers hmapped).1
      (h.whole kind id i j call output hcall houtput hanswers hmapped)
  · intro h
    refine ⟨?_, cleanedInput_order, fun p hp => cleanedInput_items hp⟩
    intro kind id i j call output hcall houtput hanswers hmapped
    exact (whole_iff hpaired hcall houtput hanswers hmapped).2
      (h kind id i j call output hcall houtput hanswers hmapped)

/-- A call item or an output item with an id. -/
def callItem (type id : String) : Json ℤ := .obj [("type", .str type), ("call_id", .str id)]

def outputItem (type id text : String) : Json ℤ :=
  .obj [("type", .str type), ("call_id", .str id), ("output", .str text)]

/-- A call of one kind with its output. -/
def exchange (kind : CallKind) : List (Json ℤ) :=
  [callItem kind.callType "c1", outputItem kind.outputType "c1" "done"]

theorem paired_exchange (kind : CallKind) : Paired (exchange kind) := by
  have hcall : Answers kind "c1" (callItem kind.callType "c1")
      (outputItem kind.outputType "c1" "done") := by
    cases kind <;> exact ⟨by decide, by decide, rfl, rfl⟩
  have hout : ∀ kind' : CallKind,
      (outputItem kind.outputType "c1" "done").hasType kind'.callType = false := by
    intro kind'
    cases kind <;> cases kind' <;> decide
  have hnot : ∀ kind' : CallKind, (callItem kind.callType "c1").hasType kind'.outputType = false := by
    intro kind'
    cases kind <;> cases kind' <;> decide
  intro i call kind' hi htype
  match i with
  | 0 =>
    cases hi
    have hkind : kind'.callType = kind.callType := hasType_inj htype hcall.callType
    have hsame : kind' = kind := by
      cases kind <;> cases kind' <;> first | rfl | exact absurd hkind (by decide)
    subst hsame
    refine ⟨1, ⟨_, "c1", rfl, hcall⟩, ?_⟩
    rintro j ⟨output, id, hj, hanswers⟩
    match j with
    | 0 =>
      cases hj
      have := hanswers.outputType
      rw [hnot kind'] at this
      cases this
    | 1 => rfl
    | j + 2 => cases hj
  | 1 =>
    cases hi
    rw [hout kind'] at htype
    cases htype
  | i + 2 => cases hi

/-- The message of the output is left. -/
def allLeft : List (Compressed ℤ) := [{ index := some 1, content := some (.str "done") }]

theorem keepsPairs_function :
    KeepsPairs (fun _ => none) (exchange .function) allLeft ↔
      LookedUp (fun _ => none) (exchange .function) allLeft :=
  keepsPairs_iff _ allLeft (paired_exchange .function)

/-- The output of a shell call stays and the call goes. -/
theorem localShell_loses_call : Paired (exchange .localShell) ∧
    ¬KeepsPairs (fun _ => none) (exchange .localShell) allLeft := by
  refine ⟨paired_exchange .localShell, fun h => ?_⟩
  have hwhole := h.whole .localShell "c1" 0 1 _ _ rfl rfl
    ⟨by decide, by decide, rfl, rfl⟩ (by decide +kernel)
  exact absurd hwhole (by unfold Kept; decide +kernel)

end OmniRoute.BodyAdapter
